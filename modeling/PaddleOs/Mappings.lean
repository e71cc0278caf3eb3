import PaddleOs.Spaces
import PaddleOs.UserCopies

/-!
What the ledger of the pages says about a page table as the hardware walks it: its mappings,
and the bytes behind them.
-/

namespace PaddleOs.Vm

open Foundation.Outcome

variable {ram after : Ram} {g g' : Ledger} {r k : Nat} {pte : Pte}

/-- The valid entry for `va`. -/
def mapping (ram : Ram) (r va : Nat) : Option Pte := (lookup ram r va).filter Pte.v

/-- The byte at `va`, by whatever page is mapped there. -/
def byteAt (ram : Ram) (r va : Nat) : Option UInt8 :=
  (mapping ram r va).map fun pte => ram.byte pte.ppn (va % PGSIZE)

/-- A byte stored at `va`, to whatever page is mapped there. -/
def storeAt (ram : Ram) (r va : Nat) (value : UInt8) : Ram :=
  match mapping ram r va with
  | none => ram
  | some pte =>
      { ram with byte := Function.update ram.byte pte.ppn
                   (Function.update (ram.byte pte.ppn) (va % PGSIZE) value) }

theorem mapping_congr (same : after.pte = ram.pte) (va : Nat) : mapping after r va = mapping ram r va := by
  unfold mapping
  rw [lookup_congr same]

theorem storeAt_pte (ram : Ram) (r va : Nat) (value : UInt8) : (storeAt ram r va value).pte = ram.pte := by
  unfold storeAt
  split <;> rfl

/-- A byte of another page is still the same after a store. -/
theorem storeAt_apart {r' va va' : Nat} (value : UInt8)
    (apart : ∀ pte pte', mapping ram r va = some pte → mapping ram r' va' = some pte' →
      pte'.ppn ≠ pte.ppn) : byteAt (storeAt ram r va value) r' va' = byteAt ram r' va' := by
  unfold byteAt
  rw [mapping_congr (storeAt_pte ram r va value)]
  cases read : mapping ram r' va' with
  | none => rfl
  | some pte' =>
      unfold storeAt
      cases written : mapping ram r va with
      | none => rfl
      | some pte =>
          simp only [Option.map_some]
          rw [Function.update_of_ne (apart pte pte' written read)]

theorem below_roundup {sz va : Nat} (small : pagesOf sz ≤ 0x8000) :
    va < PGROUNDUP sz ↔ va / PGSIZE < pagesOf sz := by
  rw [roundup_eq]
  · unfold PGSIZE
    omega
  · unfold pagesOf PGSIZE at small
    unfold PGSIZE MAXVA
    omega

theorem user_low {k : Nat} (low : k < 0x8000) : k < TRAPFRAME / PGSIZE := by
  rw [frame_page]
  omega

theorem user_address {va : Nat} (low : va / PGSIZE < 0x8000) : va < MAXVA := by
  unfold PGSIZE at low
  unfold MAXVA
  omega

theorem mapping_high {va : Nat} (high : ¬ va < MAXVA) : mapping ram r va = none := by
  unfold mapping lookup
  rw [if_pos (by omega)]
  rfl

/-- What the ledger has mapped is found. -/
theorem space_lookup (h : Agrees Strict ram g) {va : Nat} (bound : va < MAXVA)
    (maps : g.space r (va / PGSIZE) = some pte) : lookup ram r va = some pte := by
  obtain ⟨-, t, owns, entry⟩ := h.inner r _ pte maps
  obtain ⟨-, -, u, owns', entry'⟩ := h.up t r _ _ owns
  obtain ⟨-, -, r', owns'', entry''⟩ := h.up u r _ _ owns'
  obtain rfl := h.root r' r owns''
  unfold lookup
  rw [if_neg (by omega), PX_two bound, entry'', PX_one, PX_zero]
  simp [Pte.table, entry', entry]

theorem mapping_space (h : Agrees Strict ram g) (root : g.owner r = .table r []) {va : Nat}
    (bound : va < MAXVA) : mapping ram r va = g.space r (va / PGSIZE) := by
  unfold mapping
  cases maps : g.space r (va / PGSIZE) with
  | some pte =>
      rw [space_lookup h bound maps]
      exact Option.filter_some_pos (h.inner r _ pte maps).1
  | none =>
      cases found : lookup ram r va with
      | none => rfl
      | some pte =>
          refine Option.filter_some_neg ?_
          by_contra valid
          rw [lookup_space h root found (by simpa using valid)] at maps
          cases maps

/-- The pages mapped after pages were given back are none of those. -/
theorem Gives.mapped (given : Gives ram after) (h : Agrees Strict after g')
    (low : k < TRAPFRAME / PGSIZE) (maps : g'.space r k = some pte) :
    after.byte pte.ppn = ram.byte pte.ppn := by
  refine given.byte _ fun free => ?_
  have owned := (h.target r k pte maps).2 (ordinary_of_lt low)
  rw [(h.free _).mp free] at owned
  cases owned

theorem Saved.mapped {r' : Nat} (saved : Saved r g ram after) (h : Agrees Strict ram g)
    (low : k < TRAPFRAME / PGSIZE) (maps : g.space r' k = some pte) :
    after.byte pte.ppn = ram.byte pte.ppn := by
  have owned := (h.target r' k pte maps).2 (ordinary_of_lt low)
  refine saved _ ?_ fun path table => ?_
  · rw [owned]
    exact fun same => nomatch same
  · rw [owned] at table
    cases table

/-- A page that the user reaches is one of the user's. -/
theorem user_owned {trampoline trapframe n va : Nat} (h : Agrees Strict ram g)
    (root : g.owner r = .table r []) (shape : Shape (g.space r) trampoline trapframe n)
    (found : lookup ram r va = some pte) (valid : pte.v = true) (user : pte.perm.u = true) :
    g.owner pte.ppn = .user r (va / PGSIZE) := by
  have maps := lookup_space h root found valid
  refine (h.target r _ pte maps).2 ?_
  rintro (special | special)
  · rw [special, shape.code] at maps
    cases maps
    cases user
  · rw [special, shape.frame] at maps
    cases maps
    cases user

/-- The page table of a process maps no page twice for the user. -/
theorem userMap_of_shape {trampoline trapframe n : Nat} (h : Agrees Strict ram g)
    (root : g.owner r = .table r []) (shape : Shape (g.space r) trampoline trapframe n) :
    UserMap ram r := by
  refine ⟨fun va pte found valid user => ?_, fun va va' pte pte' found found' valid user valid' user' same => ?_⟩
  · exact h.nonzero (by rw [user_owned h root shape found valid user]; exact fun same => nomatch same)
  · have left := user_owned h root shape found valid user
    rw [same, user_owned h root shape found' valid' user'] at left
    exact (Owner.user.inj left).2.symm

end PaddleOs.Vm
