import PaddleOs.Vm
import Mathlib.Data.Finset.Card
import Mathlib.Data.Finset.Max
import Mathlib.Order.Interval.Finset.Nat

/-!
Who owns which physical page. The ledger gives every page one owner: the free list,
a page table with the place of the page in it, a user mapping, or a use of the
kernel's own. It also says what each page table maps, as a function from virtual page
numbers to entries. The page tables in memory agree with the ledger entry by entry,
so a change of one entry is a change of one line of the ledger.
-/

namespace PaddleOs.Vm

open Foundation.Outcome

/-- What the kernel itself keeps a page for. -/
inductive Use where
  | fixed
  | temporary
  | trapframe
  | pipe
  deriving DecidableEq

/-- A page-table page is named by its root and the indices that lead to it, the last
one first. -/
inductive Owner where
  | outside
  | free
  | kept (use : Use)
  | table (root : Nat) (path : List Nat)
  | user (root vpn : Nat)
  deriving DecidableEq

@[ext]
structure Ledger where
  first : Nat
  trampoline : Nat
  owner : Nat → Owner
  space : Nat → Nat → Option Pte

/-- The two pages at the top of every address space. -/
def Special (vpn : Nat) : Prop := vpn = TRAMPOLINE / PGSIZE ∨ vpn = TRAPFRAME / PGSIZE

/-- The memory agrees with the ledger. An entry that is `loose` may point to a page
that its table no longer owns. -/
structure Agrees (loose : Nat → Nat → Prop) (ram : Ram) (g : Ledger) : Prop where
  first : ram.first = g.first
  trampoline : ram.trampoline = g.trampoline
  base : 0x80000 ≤ g.first
  outside : ∀ q, g.owner q = .outside ↔ q < g.first ∨ stopPage ≤ q
  nodup : ram.freelist.Nodup
  free : ∀ q, q ∈ ram.freelist ↔ g.owner q = .free
  root : ∀ q r, g.owner q = .table r [] → q = r
  up : ∀ q r i path, g.owner q = .table r (i :: path) →
    path.length < 2 ∧ i < 512 ∧ ∃ t, g.owner t = .table r path ∧ ram.pte t i = .table q
  down : ∀ t r path i, g.owner t = .table r path → path.length < 2 → i < 512 →
    (ram.pte t i).v = true → ¬ loose t i →
    ∃ q, ram.pte t i = .table q ∧ g.owner q = .table r (i :: path)
  leaf : ∀ t r b a i, g.owner t = .table r [b, a] → i < 512 → (ram.pte t i).v = true →
    g.space r (i + 512 * (b + 512 * a)) = some (ram.pte t i)
  inner : ∀ r n pte, g.space r n = some pte → pte.v = true ∧
    ∃ t, g.owner t = .table r [n / 512 % 512, n / 512 / 512] ∧ ram.pte t (n % 512) = pte
  target : ∀ r n pte, g.space r n = some pte →
    pte.perm.r = true ∧ (¬ Special n → g.owner pte.ppn = .user r n)
  mapped : ∀ q r n, g.owner q = .user r n →
    ¬ Special n ∧ ∃ pte, g.space r n = some pte ∧ pte.ppn = q

def Strict : Nat → Nat → Prop := fun _ _ => False

variable {loose : Nat → Nat → Prop} {ram : Ram} {g : Ledger}

namespace Agrees

theorem unique (h : Agrees loose ram g) {r : Nat} {path : List Nat} {q q' : Nat}
    (left : g.owner q = .table r path) (right : g.owner q' = .table r path) : q = q' := by
  induction path generalizing q q' with
  | nil => rw [h.root q r left, h.root q' r right]
  | cons i path ih =>
      obtain ⟨_, _, t, ownsT, entry⟩ := h.up q r i path left
      obtain ⟨_, _, t', ownsT', entry'⟩ := h.up q' r i path right
      rw [← ih ownsT ownsT', entry] at entry'
      simpa [Pte.table] using entry'

/-- The table a page belongs to has its root. -/
theorem rooted (h : Agrees loose ram g) {q r : Nat} {path : List Nat}
    (owns : g.owner q = .table r path) : g.owner r = .table r [] := by
  induction path generalizing q with
  | nil => rwa [h.root q r owns] at owns
  | cons i path ih =>
      obtain ⟨_, _, t, ownsT, _⟩ := h.up q r i path owns
      exact ih ownsT

theorem space_rooted (h : Agrees loose ram g) {r n : Nat} {pte : Pte}
    (maps : g.space r n = some pte) : g.owner r = .table r [] := by
  obtain ⟨_, t, owns, _⟩ := h.inner r n pte maps
  exact h.rooted owns

theorem space_none (h : Agrees loose ram g) {r : Nat} (absent : g.owner r ≠ .table r [])
    (n : Nat) : g.space r n = none := by
  cases maps : g.space r n with
  | none => rfl
  | some pte => exact absurd (h.space_rooted maps) absent

theorem path_length (h : Agrees loose ram g) {q r : Nat} {path : List Nat}
    (owns : g.owner q = .table r path) : path.length ≤ 2 := by
  cases path with
  | nil => exact Nat.zero_le _
  | cons i path =>
      have short := (h.up q r i path owns).1
      rw [List.length_cons]
      omega

theorem inside (h : Agrees loose ram g) {q : Nat} (owned : g.owner q ≠ .outside) :
    g.first ≤ q ∧ q < stopPage := by
  have notOut := mt (h.outside q).mpr owned
  omega

theorem nonzero (h : Agrees loose ram g) {q : Nat} (owned : g.owner q ≠ .outside) : q ≠ 0 := by
  have low := (h.inside owned).1
  have base := h.base
  omega

/-- The ledger sees the bounds, the free list and the entries only. -/
theorem congr (h : Agrees loose ram g) {ram' : Ram} (first : ram'.first = ram.first)
    (trampoline : ram'.trampoline = ram.trampoline) (freelist : ram'.freelist = ram.freelist)
    (pte : ram'.pte = ram.pte) : Agrees loose ram' g where
  first := first.trans h.first
  trampoline := trampoline.trans h.trampoline
  base := h.base
  outside := h.outside
  nodup := by rw [freelist]; exact h.nodup
  free := by rw [freelist]; exact h.free
  root := h.root
  up := by rw [pte]; exact h.up
  down := by rw [pte]; exact h.down
  leaf := by rw [pte]; exact h.leaf
  inner := by rw [pte]; exact h.inner
  target := h.target
  mapped := h.mapped

theorem mono {loose' : Nat → Nat → Prop} (h : Agrees loose ram g)
    (weaker : ∀ t i, loose t i → loose' t i) : Agrees loose' ram g :=
  { h with
    down := fun t r path i owns short bound valid tight =>
      h.down t r path i owns short bound valid fun loosened => tight (weaker t i loosened) }

end Agrees

section Changes

def Ledger.assign (g : Ledger) (page : Nat) (owner : Owner) : Ledger :=
  { g with owner := Function.update g.owner page owner }

def Ledger.chart (g : Ledger) (root vpn : Nat) (pte : Option Pte) : Ledger :=
  { g with space := Function.update g.space root (Function.update (g.space root) vpn pte) }

def Ram.put (ram : Ram) (page index : Nat) (pte : Pte) : Ram :=
  { ram with pte := Function.update ram.pte page (Function.update (ram.pte page) index pte) }

@[simp]
theorem assign_owner (g : Ledger) (page q : Nat) (owner : Owner) :
    (g.assign page owner).owner q = if q = page then owner else g.owner q := by
  simp [Ledger.assign, Function.update_apply]

@[simp]
theorem assign_space (g : Ledger) (page : Nat) (owner : Owner) :
    (g.assign page owner).space = g.space := rfl

@[simp]
theorem assign_first (g : Ledger) (page : Nat) (owner : Owner) :
    (g.assign page owner).first = g.first := rfl

@[simp]
theorem assign_trampoline (g : Ledger) (page : Nat) (owner : Owner) :
    (g.assign page owner).trampoline = g.trampoline := rfl

theorem assign_assign (g : Ledger) (page : Nat) (owner owner' : Owner) :
    (g.assign page owner).assign page owner' = g.assign page owner' := by
  simp [Ledger.assign]

@[simp]
theorem chart_space (g : Ledger) (root vpn r n : Nat) (pte : Option Pte) :
    (g.chart root vpn pte).space r n = if r = root ∧ n = vpn then pte else g.space r n := by
  by_cases sameRoot : r = root
  · subst sameRoot
    simp [Ledger.chart, Function.update_apply]
  · simp [Ledger.chart, sameRoot]

@[simp]
theorem chart_owner (g : Ledger) (root vpn : Nat) (pte : Option Pte) :
    (g.chart root vpn pte).owner = g.owner := rfl

@[simp]
theorem chart_first (g : Ledger) (root vpn : Nat) (pte : Option Pte) :
    (g.chart root vpn pte).first = g.first := rfl

@[simp]
theorem chart_trampoline (g : Ledger) (root vpn : Nat) (pte : Option Pte) :
    (g.chart root vpn pte).trampoline = g.trampoline := rfl

@[simp]
theorem put_pte (ram : Ram) (page index q i : Nat) (pte : Pte) :
    (ram.put page index pte).pte q i = if q = page ∧ i = index then pte else ram.pte q i := by
  by_cases samePage : q = page
  · subst samePage
    simp [Ram.put, Function.update_apply]
  · simp [Ram.put, samePage]

namespace Agrees

/-- What stands in a page that is no table does not matter. -/
theorem scribble (h : Agrees loose ram g) (page : Nat)
    (noTable : ∀ r path, g.owner page ≠ .table r path) {ram' : Ram}
    (first : ram'.first = ram.first) (trampoline : ram'.trampoline = ram.trampoline)
    (freelist : ram'.freelist = ram.freelist)
    (others : ∀ q, q ≠ page → ram'.pte q = ram.pte q) : Agrees loose ram' g := by
  have same : ∀ {t r path}, g.owner t = .table r path → ram'.pte t = ram.pte t := by
    intro t r path owns
    refine others t ?_
    rintro rfl
    exact noTable r path owns
  refine { h with
    first := first.trans h.first
    trampoline := trampoline.trans h.trampoline
    nodup := freelist ▸ h.nodup
    free := freelist ▸ h.free
    up := ?_, down := ?_, leaf := ?_, inner := ?_ }
  · intro q r i path owns
    obtain ⟨short, bound, t, ownsT, entry⟩ := h.up q r i path owns
    exact ⟨short, bound, t, ownsT, by rw [same ownsT, entry]⟩
  · intro t r path i owns
    rw [same owns]
    exact h.down t r path i owns
  · intro t r b a i owns
    rw [same owns]
    exact h.leaf t r b a i owns
  · intro r n pte maps
    obtain ⟨valid, t, owns, entry⟩ := h.inner r n pte maps
    exact ⟨valid, t, owns, by rw [same owns, entry]⟩

/-- A page that is neither in a table nor mapped changes its use. -/
theorem reassign (h : Agrees loose ram g) {page : Nat} {owner : Owner}
    (before : g.owner page = .free ∨ ∃ use, g.owner page = .kept use)
    (after : owner = .free ∨ ∃ use, owner = .kept use) {ram' : Ram}
    (first : ram'.first = ram.first) (trampoline : ram'.trampoline = ram.trampoline)
    (pte : ram'.pte = ram.pte) (nodup : ram'.freelist.Nodup)
    (free : ∀ q, q ∈ ram'.freelist ↔ (g.assign page owner).owner q = .free) :
    Agrees loose ram' (g.assign page owner) := by
  have keeps : ∀ {q o}, (∀ u, o ≠ .kept u) → o ≠ .free →
      ((g.assign page owner).owner q = o ↔ g.owner q = o) := by
    intro q o notKept notFree
    rw [assign_owner]
    by_cases same : q = page
    · subst same
      rw [if_pos rfl]
      constructor
      · rintro rfl
        rcases after with rfl | ⟨u, rfl⟩
        · exact absurd rfl notFree
        · exact absurd rfl (notKept u)
      · rintro rfl
        rcases before with isFree | ⟨u, isKept⟩
        · exact absurd isFree notFree
        · exact absurd isKept (notKept u)
    · rw [if_neg same]
  have table : ∀ {q r path}, (g.assign page owner).owner q = .table r path ↔
      g.owner q = .table r path := keeps (by simp) (by simp)
  have user : ∀ {q r n}, (g.assign page owner).owner q = .user r n ↔ g.owner q = .user r n :=
    keeps (by simp) (by simp)
  refine
    { first := first.trans h.first, trampoline := trampoline.trans h.trampoline, base := h.base,
      nodup, free, outside := ?_, root := ?_, up := ?_, down := ?_, leaf := ?_, inner := ?_,
      target := ?_, mapped := ?_ }
  · intro q
    rw [keeps (by simp) (by simp)]
    exact h.outside q
  · intro q r owns
    exact h.root q r (table.mp owns)
  · intro q r i path owns
    rw [pte]
    simpa only [table] using h.up q r i path (table.mp owns)
  · intro t r path i owns
    rw [pte]
    simpa only [table] using h.down t r path i (table.mp owns)
  · intro t r b a i owns
    rw [pte]
    exact h.leaf t r b a i (table.mp owns)
  · intro r n entry maps
    rw [pte]
    simpa only [table] using h.inner r n entry maps
  · intro r n entry maps
    simpa only [user] using h.target r n entry maps
  · intro q r n owns
    exact h.mapped q r n (user.mp owns)

/-- A blank page becomes the table below a vacant entry. -/
theorem hang (h : Agrees loose ram g) {t r i page : Nat} {path : List Nat} {use : Use}
    (owns : g.owner t = .table r path) (short : path.length < 2) (bound : i < 512)
    (vacant : (ram.pte t i).v = false) (kept : g.owner page = .kept use)
    (blank : ∀ j, (ram.pte page j).v = false) :
    Agrees loose (ram.put t i (.table page)) (g.assign page (.table r (i :: path))) := by
  have apart : ∀ {q r' path'}, g.owner q = .table r' path' → q ≠ page := by
    rintro q r' path' ownsQ rfl
    simp [kept] at ownsQ
  have fresh : ∀ {q r' path'}, g.owner q = .table r' path' →
      (g.assign page (.table r (i :: path))).owner q = .table r' path' := by
    intro q r' path' ownsQ
    rw [assign_owner, if_neg (apart ownsQ), ownsQ]
  refine
    { first := h.first, trampoline := h.trampoline, base := h.base, nodup := h.nodup,
      outside := ?_, free := ?_, root := ?_, up := ?_, down := ?_, leaf := ?_, inner := ?_,
      target := ?_, mapped := ?_ }
  · intro q
    rw [assign_owner, assign_first, ← h.outside q]
    split
    · rename_i same
      simp [same, kept]
    · rfl
  · intro q
    rw [assign_owner]
    change q ∈ ram.freelist ↔ _
    rw [h.free q]
    split
    · rename_i same
      simp [same, kept]
    · rfl
  · intro q r' ownsQ
    rw [assign_owner] at ownsQ
    split at ownsQ
    · cases ownsQ
    · exact h.root q r' ownsQ
  · intro q r' i' path' ownsQ
    rw [assign_owner] at ownsQ
    split at ownsQ
    · rename_i same
      cases ownsQ
      exact ⟨short, bound, t, fresh owns, by simp [same]⟩
    · obtain ⟨short', bound', t', ownsT', entry⟩ := h.up q r' i' path' ownsQ
      refine ⟨short', bound', t', fresh ownsT', ?_⟩
      rw [put_pte, if_neg, entry]
      rintro ⟨rfl, rfl⟩
      simp [entry, Pte.table] at vacant
  · intro t' r' path' i' ownsT' short' bound' valid tight
    rw [assign_owner] at ownsT'
    rw [put_pte] at valid ⊢
    split at ownsT'
    · rename_i same
      rw [if_neg (fun both => apart owns (both.1.symm.trans same)), same, blank i'] at valid
      cases valid
    · split
      · rename_i both
        obtain ⟨rfl, rfl⟩ := both
        rw [owns] at ownsT'
        cases ownsT'
        exact ⟨page, rfl, by simp⟩
      · rename_i elsewhere
        rw [if_neg elsewhere] at valid
        obtain ⟨q, entry, ownsQ⟩ := h.down t' r' path' i' ownsT' short' bound' valid tight
        exact ⟨q, entry, fresh ownsQ⟩
  · intro t' r' b a i' ownsT' bound' valid
    rw [assign_owner] at ownsT'
    rw [put_pte] at valid ⊢
    split at ownsT'
    · rename_i same
      rw [if_neg (fun both => apart owns (both.1.symm.trans same)), same, blank i'] at valid
      cases valid
    · split
      · rename_i both
        obtain ⟨rfl, rfl⟩ := both
        rw [owns] at ownsT'
        cases ownsT'
        simp at short
      · rename_i elsewhere
        rw [if_neg elsewhere] at valid
        exact h.leaf t' r' b a i' ownsT' bound' valid
  · intro r' n pte maps
    obtain ⟨valid, t', ownsT', entry⟩ := h.inner r' n pte maps
    refine ⟨valid, t', fresh ownsT', ?_⟩
    rw [put_pte, if_neg, entry]
    rintro ⟨rfl, _⟩
    rw [owns] at ownsT'
    cases ownsT'
    simp at short
  · intro r' n pte maps
    obtain ⟨readable, owned⟩ := h.target r' n pte maps
    refine ⟨readable, fun ordinary => ?_⟩
    rw [assign_owner, if_neg, owned ordinary]
    rintro same
    simp [← same, owned ordinary] at kept
  · intro q r' n ownsQ
    rw [assign_owner] at ownsQ
    split at ownsQ
    · cases ownsQ
    · exact h.mapped q r' n ownsQ

/-- A blank page becomes the root of a table that maps nothing. -/
theorem plant (h : Agrees loose ram g) {page : Nat} {use : Use} (kept : g.owner page = .kept use)
    (blank : ∀ j, (ram.pte page j).v = false) :
    Agrees loose ram (g.assign page (.table page [])) := by
  have apart : ∀ {q r path}, g.owner q = .table r path → q ≠ page := by
    rintro q r path ownsQ rfl
    simp [kept] at ownsQ
  have fresh : ∀ {q r path}, g.owner q = .table r path →
      (g.assign page (.table page [])).owner q = .table r path := by
    intro q r path ownsQ
    rw [assign_owner, if_neg (apart ownsQ), ownsQ]
  refine
    { first := h.first, trampoline := h.trampoline, base := h.base, nodup := h.nodup,
      outside := ?_, free := ?_, root := ?_, up := ?_, down := ?_, leaf := ?_, inner := ?_,
      target := ?_, mapped := ?_ }
  · intro q
    rw [assign_owner, assign_first, ← h.outside q]
    split
    · rename_i same
      simp [same, kept]
    · rfl
  · intro q
    rw [assign_owner, h.free q]
    split
    · rename_i same
      simp [same, kept]
    · rfl
  · intro q r ownsQ
    rw [assign_owner] at ownsQ
    split at ownsQ
    · cases ownsQ
      assumption
    · exact h.root q r ownsQ
  · intro q r i path ownsQ
    rw [assign_owner] at ownsQ
    split at ownsQ
    · cases ownsQ
    · obtain ⟨short, bound, t, ownsT, entry⟩ := h.up q r i path ownsQ
      exact ⟨short, bound, t, fresh ownsT, entry⟩
  · intro t r path i ownsT short bound valid tight
    rw [assign_owner] at ownsT
    split at ownsT
    · rename_i same
      rw [same, blank i] at valid
      cases valid
    · obtain ⟨q, entry, ownsQ⟩ := h.down t r path i ownsT short bound valid tight
      exact ⟨q, entry, fresh ownsQ⟩
  · intro t r b a i ownsT bound valid
    rw [assign_owner] at ownsT
    split at ownsT
    · cases ownsT
    · exact h.leaf t r b a i ownsT bound valid
  · intro r n pte maps
    obtain ⟨valid, t, ownsT, entry⟩ := h.inner r n pte maps
    exact ⟨valid, t, fresh ownsT, entry⟩
  · intro r n pte maps
    obtain ⟨readable, owned⟩ := h.target r n pte maps
    refine ⟨readable, fun ordinary => ?_⟩
    rw [assign_owner, if_neg, owned ordinary]
    rintro same
    simp [← same, owned ordinary] at kept
  · intro q r n ownsQ
    rw [assign_owner] at ownsQ
    split at ownsQ
    · cases ownsQ
    · exact h.mapped q r n ownsQ

/-- One entry of a last-level table changes, and with it one line of the ledger. -/
theorem retarget (h : Agrees loose ram g) {t r b a i : Nat} (owns : g.owner t = .table r [b, a])
    (bound : i < 512) {n : Nat} (place : n = i + 512 * (b + 512 * a)) (pte : Pte)
    (owner : Nat → Owner) (readable : pte.v = true → pte.perm.r = true)
    (outsides : ∀ q, owner q = .outside ↔ g.owner q = .outside)
    (frees : ∀ q, owner q = .free ↔ g.owner q = .free)
    (tables : ∀ q r' path, owner q = .table r' path ↔ g.owner q = .table r' path)
    (users : ∀ q r' n', ¬ (r' = r ∧ n' = n) → (owner q = .user r' n' ↔ g.owner q = .user r' n'))
    (here : ∀ q, owner q = .user r n ↔ ¬ Special n ∧ pte.v = true ∧ pte.ppn = q) :
    Agrees loose (ram.put t i pte)
      { g.chart r n (if pte.v then some pte else none) with owner } := by
  have boundB : b < 512 := (h.up t r b [a] owns).2.1
  have space : ∀ r' n', ({ g.chart r n (if pte.v then some pte else none) with owner } : Ledger).space
      r' n' = if r' = r ∧ n' = n then (if pte.v then some pte else none) else g.space r' n' :=
    fun r' n' => chart_space g r n r' n' _
  -- The entry has this place in the address space and no other.
  have elsewhere : ∀ {t' r' b' a' i'}, g.owner t' = .table r' [b', a'] → i' < 512 →
      (r' = r ∧ i' + 512 * (b' + 512 * a') = n ↔ t' = t ∧ i' = i) := by
    intro t' r' b' a' i' ownsT' bound'
    have boundB' : b' < 512 := (h.up t' r' b' [a'] ownsT').2.1
    constructor
    · rintro ⟨rfl, same⟩
      obtain ⟨rfl, rfl, rfl⟩ : i' = i ∧ b' = b ∧ a' = a := by omega
      exact ⟨h.unique ownsT' owns, rfl⟩
    · rintro ⟨rfl, rfl⟩
      rw [owns] at ownsT'
      cases ownsT'
      exact ⟨rfl, place.symm⟩
  refine
    { first := h.first, trampoline := h.trampoline, base := h.base, nodup := h.nodup,
      outside := fun q => (outsides q).trans (h.outside q)
      free := fun q => (h.free q).trans (frees q).symm
      root := fun q r' ownsQ => h.root q r' ((tables q r' _).mp ownsQ)
      up := ?_, down := ?_, leaf := ?_, inner := ?_, target := ?_, mapped := ?_ }
  · intro q r' i' path ownsQ
    obtain ⟨short, bound', t', ownsT', entry⟩ := h.up q r' i' path ((tables _ _ _).mp ownsQ)
    refine ⟨short, bound', t', (tables _ _ _).mpr ownsT', ?_⟩
    rw [put_pte, if_neg, entry]
    rintro ⟨rfl, rfl⟩
    rw [owns] at ownsT'
    cases ownsT'
    simp at short
  · intro t' r' path i' ownsT' short bound' valid tight
    have ownsT' := (tables _ _ _).mp ownsT'
    have away : ¬ (t' = t ∧ i' = i) := by
      rintro ⟨rfl, rfl⟩
      rw [owns] at ownsT'
      cases ownsT'
      simp at short
    rw [put_pte, if_neg away] at valid ⊢
    obtain ⟨q, entry, ownsQ⟩ := h.down t' r' path i' ownsT' short bound' valid tight
    exact ⟨q, entry, (tables _ _ _).mpr ownsQ⟩
  · intro t' r' b' a' i' ownsT' bound' valid
    have ownsT' := (tables _ _ _).mp ownsT'
    rw [put_pte] at valid ⊢
    rw [space]
    by_cases same : t' = t ∧ i' = i
    · rw [if_pos same] at valid ⊢
      rw [if_pos ((elsewhere ownsT' bound').mpr same), if_pos valid]
    · rw [if_neg same] at valid ⊢
      rw [if_neg (fun both => same ((elsewhere ownsT' bound').mp both))]
      exact h.leaf t' r' b' a' i' ownsT' bound' valid
  · intro r' n' pte' maps
    rw [space] at maps
    split at maps
    · rename_i same
      obtain ⟨rfl, rfl⟩ := same
      split at maps
      · rename_i valid
        cases maps
        refine ⟨valid, t, (tables _ _ _).mpr ?_, ?_⟩
        · rw [show n' / 512 % 512 = b by omega, show n' / 512 / 512 = a by omega]
          exact owns
        · rw [put_pte, if_pos ⟨rfl, by omega⟩]
      · cases maps
    · rename_i different
      obtain ⟨valid, t', ownsT', entry⟩ := h.inner r' n' pte' maps
      refine ⟨valid, t', (tables _ _ _).mpr ownsT', ?_⟩
      rw [put_pte, if_neg, entry]
      intro same
      have both := (elsewhere ownsT' (Nat.mod_lt n' (by decide))).mpr same
      exact different ⟨both.1, by omega⟩
  · intro r' n' pte' maps
    rw [space] at maps
    split at maps
    · rename_i same
      obtain ⟨rfl, rfl⟩ := same
      split at maps
      · rename_i valid
        cases maps
        exact ⟨readable valid, fun ordinary => (here _).mpr ⟨ordinary, valid, rfl⟩⟩
      · cases maps
    · rename_i different
      obtain ⟨reads, owned⟩ := h.target r' n' pte' maps
      exact ⟨reads, fun ordinary => (users _ _ _ different).mpr (owned ordinary)⟩
  · intro q r' n' ownsQ
    rw [space]
    by_cases same : r' = r ∧ n' = n
    · obtain ⟨rfl, rfl⟩ := same
      obtain ⟨ordinary, valid, target⟩ := (here q).mp ownsQ
      exact ⟨ordinary, pte, by simp [valid], target⟩
    · rw [if_neg same]
      exact h.mapped q r' n' ((users _ _ _ same).mp ownsQ)

/-- What the ledger says of an entry in a last-level table. -/
theorem space_eq (h : Agrees loose ram g) {t r b a i : Nat} (owns : g.owner t = .table r [b, a])
    (bound : i < 512) {n : Nat} (place : n = i + 512 * (b + 512 * a)) :
    g.space r n = if (ram.pte t i).v then some (ram.pte t i) else none := by
  have boundB : b < 512 := (h.up t r b [a] owns).2.1
  split
  · rename_i valid
    rw [place]
    exact h.leaf t r b a i owns bound valid
  · rename_i invalid
    cases maps : g.space r n with
    | none => rfl
    | some pte =>
        obtain ⟨valid, t', ownsT', entry⟩ := h.inner r n pte maps
        rw [show n / 512 % 512 = b by omega, show n / 512 / 512 = a by omega] at ownsT'
        rw [h.unique ownsT' owns, show n % 512 = i by omega] at entry
        rw [entry] at invalid
        exact absurd valid invalid

section Entries

variable {t r b a i n : Nat}

/-- A page the kernel holds is mapped for the user. -/
theorem enter (h : Agrees loose ram g) (owns : g.owner t = .table r [b, a]) (bound : i < 512)
    (place : n = i + 512 * (b + 512 * a)) (vacant : (ram.pte t i).v = false)
    (ordinary : ¬ Special n) {page : Nat} {use : Use} (kept : g.owner page = .kept use)
    {perm : Perm} (readable : perm.r = true) :
    Agrees loose (ram.put t i { ppn := page, v := true, perm })
      ((g.chart r n (some { ppn := page, v := true, perm })).assign page (.user r n)) := by
  have unmapped : g.space r n = none := by rw [h.space_eq owns bound place, vacant]; rfl
  refine h.retarget owns bound place _ _ (fun _ => readable) ?_ ?_ ?_ ?_ ?_
  all_goals intro q
  · by_cases same : q = page <;> simp [Function.update_apply, same, kept]
  · by_cases same : q = page <;> simp [Function.update_apply, same, kept]
  · intro r' path
    by_cases same : q = page <;> simp [Function.update_apply, same, kept]
  · intro r' n' different
    by_cases same : q = page
    · subst same
      simp only [Function.update_self, chart_owner, kept, reduceCtorEq, iff_false, Owner.user.injEq]
      exact fun both => different ⟨both.1.symm, both.2.symm⟩
    · simp [same]
  · by_cases same : q = page
    · simp [same, ordinary]
    · simp only [Function.update_apply, if_neg same, chart_owner]
      constructor
      · intro owned
        obtain ⟨_, pte, maps, _⟩ := h.mapped q r n owned
        rw [unmapped] at maps
        cases maps
      · rintro ⟨_, _, rfl⟩
        exact absurd rfl same

/-- A user mapping goes away and the kernel holds its page. -/
theorem remove (h : Agrees loose ram g) (owns : g.owner t = .table r [b, a]) (bound : i < 512)
    (place : n = i + 512 * (b + 512 * a)) (ordinary : ¬ Special n) {pte : Pte}
    (maps : g.space r n = some pte) :
    Agrees loose (ram.put t i .zero)
      ((g.chart r n none).assign pte.ppn (.kept .temporary)) := by
  have owned := (h.target r n pte maps).2 ordinary
  refine h.retarget owns bound place _ _ (fun impossible => absurd impossible (by simp [Pte.zero]))
    ?_ ?_ ?_ ?_ ?_
  all_goals intro q
  · by_cases same : q = pte.ppn <;> simp [Function.update_apply, same, owned]
  · by_cases same : q = pte.ppn <;> simp [Function.update_apply, same, owned]
  · intro r' path
    by_cases same : q = pte.ppn <;> simp [Function.update_apply, same, owned]
  · intro r' n' different
    by_cases same : q = pte.ppn
    · subst same
      simp only [Function.update_self, owned, reduceCtorEq, false_iff, Owner.user.injEq]
      exact fun both => different ⟨both.1.symm, both.2.symm⟩
    · simp [same]
  · simp only [Pte.zero, Bool.false_eq_true, false_and, and_false, iff_false]
    by_cases same : q = pte.ppn
    · simp [same]
    · simp only [Function.update_apply, if_neg same, chart_owner]
      intro ownedQ
      obtain ⟨_, pte', maps', target⟩ := h.mapped q r n ownedQ
      rw [maps] at maps'
      cases maps'
      exact same target.symm

/-- The two special pages are mapped and unmapped without an owner of their own. -/
theorem fasten (h : Agrees loose ram g) (owns : g.owner t = .table r [b, a]) (bound : i < 512)
    (place : n = i + 512 * (b + 512 * a)) (special : Special n) (pte : Pte)
    (readable : pte.v = true → pte.perm.r = true) :
    Agrees loose (ram.put t i pte) (g.chart r n (if pte.v then some pte else none)) := by
  refine h.retarget owns bound place pte g.owner readable (fun _ => Iff.rfl) (fun _ => Iff.rfl)
    (fun _ _ _ => Iff.rfl) (fun _ _ _ _ => Iff.rfl) fun q => ?_
  constructor
  · intro owned
    exact absurd special (h.mapped q r n owned).1
  · rintro ⟨ordinary, _, _⟩
    exact absurd special ordinary

/-- The permissions of a mapping change. -/
theorem protect (h : Agrees loose ram g) (owns : g.owner t = .table r [b, a]) (bound : i < 512)
    (place : n = i + 512 * (b + 512 * a)) {pte : Pte} (maps : g.space r n = some pte)
    {perm : Perm} (readable : perm.r = true) :
    Agrees loose (ram.put t i { pte with perm }) (g.chart r n (some { pte with perm })) := by
  have valid := (h.inner r n pte maps).1
  have changed := h.retarget owns bound place { pte with perm } g.owner
    (fun _ => readable) (fun _ => Iff.rfl) (fun _ => Iff.rfl) (fun _ _ _ => Iff.rfl)
    (fun _ _ _ _ => Iff.rfl) fun q => by
      constructor
      · intro owned
        obtain ⟨ordinary, pte', maps', target⟩ := h.mapped q r n owned
        rw [maps] at maps'
        cases maps'
        exact ⟨ordinary, valid, target⟩
      · rintro ⟨ordinary, _, rfl⟩
        exact (h.target r n pte maps).2 ordinary
  rwa [if_pos valid] at changed

end Entries

/-- A table without valid entries is taken out of its tree. -/
theorem fell (h : Agrees loose ram g) {q r : Nat} {path : List Nat}
    (owns : g.owner q = .table r path) (blank : ∀ i, i < 512 → (ram.pte q i).v = false)
    (hangs : ∀ i above t, path = i :: above → g.owner t = .table r above → loose t i) :
    Agrees loose ram (g.assign q (.kept .temporary)) := by
  have fresh : ∀ {t r' path'}, t ≠ q → g.owner t = .table r' path' →
      (g.assign q (.kept .temporary)).owner t = .table r' path' := by
    intro t r' path' apart ownsT
    rw [assign_owner, if_neg apart, ownsT]
  have old : ∀ {t r' path'}, (g.assign q (.kept .temporary)).owner t = .table r' path' →
      t ≠ q ∧ g.owner t = .table r' path' := by
    intro t r' path' ownsT
    rw [assign_owner] at ownsT
    split at ownsT
    · cases ownsT
    · rename_i apart
      exact ⟨apart, ownsT⟩
  refine
    { first := h.first, trampoline := h.trampoline, base := h.base, nodup := h.nodup,
      outside := ?_, free := ?_, root := fun t r' ownsT => h.root t r' (old ownsT).2,
      up := ?_, down := ?_, leaf := ?_, inner := ?_, target := ?_, mapped := ?_ }
  · intro q'
    rw [assign_owner, assign_first, ← h.outside q']
    by_cases same : q' = q <;> simp [same, owns]
  · intro q'
    rw [assign_owner, h.free q']
    by_cases same : q' = q <;> simp [same, owns]
  · intro q' r' i path' ownsQ'
    obtain ⟨short, bound, t, ownsT, entry⟩ := h.up q' r' i path' (old ownsQ').2
    refine ⟨short, bound, t, fresh ?_ ownsT, entry⟩
    rintro rfl
    have invalid := blank i bound
    simp [entry, Pte.table] at invalid
  · intro t r' path' i ownsT short bound valid tight
    have above := (old ownsT).2
    obtain ⟨q', entry, ownsQ'⟩ := h.down t r' path' i above short bound valid tight
    refine ⟨q', entry, fresh ?_ ownsQ'⟩
    rintro rfl
    rw [owns] at ownsQ'
    cases ownsQ'
    exact tight (hangs i path' t rfl above)
  · intro t r' b a i ownsT
    exact h.leaf t r' b a i (old ownsT).2
  · intro r' n pte maps
    obtain ⟨valid, t, ownsT, entry⟩ := h.inner r' n pte maps
    refine ⟨valid, t, fresh ?_ ownsT, entry⟩
    rintro rfl
    have invalid := blank (n % 512) (Nat.mod_lt _ (by decide))
    rw [entry, valid] at invalid
    cases invalid
  · intro r' n pte maps
    obtain ⟨readable, owned⟩ := h.target r' n pte maps
    refine ⟨readable, fun ordinary => ?_⟩
    rw [assign_owner, if_neg, owned ordinary]
    intro same
    simp [← same, owned ordinary] at owns
  · intro q' r' n ownsQ'
    rw [assign_owner] at ownsQ'
    split at ownsQ'
    · cases ownsQ'
    · exact h.mapped q' r' n ownsQ'

end Agrees

end Changes

end PaddleOs.Vm
