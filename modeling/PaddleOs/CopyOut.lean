import PaddleOs.AddressSpace

/-!
What `copyout` writes. `walkaddr` asks of an entry that it is valid and a user page, and
`copyout` stores into every page of its destination up to the first one that is not. A
page the process itself may write has `PTE_W` as well.
-/

namespace PaddleOs.Vm

open Foundation.Outcome

/-- The entry `walk` finds for `va` without allocating. -/
def lookup (ram : Ram) (pagetable va : Nat) : Option Pte :=
  if va ≥ MAXVA then none
  else if (ram.pte pagetable (PX 2 va)).v then
    let middle := (ram.pte pagetable (PX 2 va)).ppn
    if (ram.pte middle (PX 1 va)).v then
      some (ram.pte (ram.pte middle (PX 1 va)).ppn (PX 0 va))
    else none
  else none

/-- What `walkaddr` returns. -/
def target (ram : Ram) (pagetable va : Nat) : Nat :=
  match lookup ram pagetable va with
  | none => 0
  | some pte => if pte.v ∧ pte.perm.u then pte.ppn else 0

/-- The process may write at `va`, and its stores go to `page`. -/
def Writes (ram : Ram) (pagetable va page : Nat) : Prop :=
  ∃ pte, lookup ram pagetable va = some pte ∧ pte.v = true ∧ pte.perm.u = true ∧
    pte.perm.w = true ∧ pte.ppn = page

/-- `copyout` gets to byte `i` of its source. -/
def Reaches (ram : Ram) (pagetable dstva i : Nat) : Prop :=
  ∀ j ≤ i, target ram pagetable (dstva + j) ≠ 0

variable {ram : Ram} {r : Nat}

section Lookups

theorem lookup_page {va va' : Nat} (same : va / PGSIZE = va' / PGSIZE) :
    lookup ram r va = lookup ram r va' := by
  have high : va ≥ MAXVA ↔ va' ≥ MAXVA := by
    unfold MAXVA
    unfold PGSIZE at same
    omega
  have two : PX 2 va = PX 2 va' := by
    have shape : ∀ a, PX 2 a = a / PGSIZE / 512 / 512 % 512 := by
      intro a
      simp only [PX, PGSIZE, Nat.div_div_eq_div_mul]
      rfl
    rw [shape, shape, same]
  unfold lookup
  rw [PX_zero, PX_zero, PX_one, PX_one, two, same]
  simp only [high]

theorem target_page {va va' : Nat} (same : va / PGSIZE = va' / PGSIZE) :
    target ram r va = target ram r va' := by
  unfold target
  rw [lookup_page same]

theorem target_congr {ram' : Ram} (same : ram'.pte = ram.pte) (va : Nat) :
    target ram' r va = target ram r va := by
  unfold target lookup
  rw [same]

theorem target_low {va : Nat} (found : target ram r va ≠ 0) : va < MAXVA := by
  by_contra high
  refine found ?_
  unfold target lookup
  rw [if_pos (by omega)]

theorem walkLevel_lookup {level va : Nat} {table : Nat} (post : Option Nat → Ram → Prop)
    (fail : Stop → Ram → Prop) :
    outcome (walkLevel table level va false) post fail ram ↔
      post (if (ram.pte table (PX level va)).v then some (ram.pte table (PX level va)).ppn else none)
        ram := by
  unfold walkLevel getPte
  simp only [outcome_bind, outcome_get, outcome_pure]
  cases (ram.pte table (PX level va)).v with
  | true => exact Iff.rfl
  | false => exact Iff.rfl

theorem walkaddr_target (va : Nat) (post : Nat → Ram → Prop) (fail : Stop → Ram → Prop) :
    outcome (walkaddr r va) post fail ram ↔ post (target ram r va) ram := by
  unfold walkaddr target lookup
  by_cases high : va ≥ MAXVA
  · rw [if_pos high, if_pos high]
    exact Iff.rfl
  · rw [if_neg high, if_neg high]
    unfold walk
    rw [if_neg high]
    simp only [outcome_bind, walkLevel_lookup]
    cases first : (ram.pte r (PX 2 va)).v with
    | false => exact Iff.rfl
    | true =>
        simp only [if_true, outcome_bind, walkLevel_lookup]
        cases second : (ram.pte (ram.pte r (PX 2 va)).ppn (PX 1 va)).v with
        | false => exact Iff.rfl
        | true =>
            simp only [if_true, outcome_pure, getPte, outcome_bind, outcome_get]
            split <;> exact Iff.rfl

end Lookups

section Bytes

theorem putBytes_spec (page : Nat) (bytes : List UInt8) : ∀ (offset : Nat) (ram : Ram),
    outcome (putBytes page offset bytes)
      (fun _ after => after = { ram with byte := after.byte } ∧
        (∀ q o, after.byte q o ≠ ram.byte q o → q = page ∧ offset ≤ o ∧ o < offset + bytes.length) ∧
        ∀ i (bound : i < bytes.length), after.byte page (offset + i) = bytes[i])
      (fun _ _ => False) ram := by
  induction bytes with
  | nil =>
      intro offset ram
      exact ⟨rfl, fun q o changed => absurd rfl changed, fun i bound => absurd bound (by simp)⟩
  | cons value rest ih =>
      intro offset ram
      rw [putBytes, outcome_bind, putByte, outcome_modify]
      refine outcome_post (ih (offset + 1) _) ?_
      rintro - after ⟨same, change, stored⟩
      refine ⟨same, fun q o changed => ?_, fun i bound => ?_⟩
      · by_cases later : after.byte q o = (Function.update ram.byte page
            (Function.update (ram.byte page) offset value)) q o
        · rw [later] at changed
          by_cases here : q = page
          · subst here
            rw [Function.update_self] at changed
            by_cases there : o = offset
            · exact ⟨rfl, by omega, by simp; omega⟩
            · rw [Function.update_of_ne there] at changed
              exact absurd rfl changed
          · rw [Function.update_of_ne here] at changed
            exact absurd rfl changed
        · obtain ⟨here, low, high⟩ := change q o later
          exact ⟨here, by omega, by simp only [List.length_cons]; omega⟩
      · cases i with
        | zero =>
            by_contra differs
            have moved := change page offset (by
              dsimp only
              rw [Function.update_self, Function.update_self]
              exact differs)
            omega
        | succ i =>
            have value := stored i (by simpa using bound)
            rw [show offset + (i + 1) = offset + 1 + i by omega]
            exact value

/-- What a call of `copyout` has done. -/
structure CopiedOut (ram : Ram) (r dstva : Nat) (src : List UInt8) (ok : Bool) (after : Ram) : Prop where
  same : after = { ram with byte := after.byte }
  all : ok = true ↔ ∀ i < src.length, target ram r (dstva + i) ≠ 0
  change : ∀ page offset, after.byte page offset ≠ ram.byte page offset → ∃ i < src.length,
    Reaches ram r dstva i ∧ target ram r (dstva + i) = page ∧ (dstva + i) % PGSIZE = offset
  store : ∀ i < src.length, Reaches ram r dstva i →
    after.byte (target ram r (dstva + i)) ((dstva + i) % PGSIZE) ∈ src

/-- The bytes of the first page, and then the rest. -/
theorem copyoutFrom_turn {fuel dstva : Nat} {src : List UInt8}
    (ih : ∀ (ram : Ram) (dstva : Nat) (src : List UInt8), src.length ≤ fuel →
      outcome (copyoutFrom r fuel dstva src)
        (fun ok after => CopiedOut ram r dstva src ok after) (fun _ _ => False) ram)
    (some : 0 < src.length) (short : src.length ≤ fuel + 1) (found : target ram r dstva ≠ 0) :
    outcome (do
      putBytes (target ram r dstva) (dstva - PGROUNDDOWN dstva)
        (src.take (min (PGSIZE - (dstva - PGROUNDDOWN dstva)) src.length))
      copyoutFrom r fuel (word64 (PGROUNDDOWN dstva + PGSIZE))
        (src.drop (min (PGSIZE - (dstva - PGROUNDDOWN dstva)) src.length)))
      (fun ok after => CopiedOut ram r dstva src ok after) (fun _ _ => False) ram := by
  have low := target_low found
  have offset : dstva - PGROUNDDOWN dstva = dstva % PGSIZE := by
    unfold PGROUNDDOWN PGSIZE
    omega
  have next : word64 (PGROUNDDOWN dstva + PGSIZE) = dstva + (PGSIZE - dstva % PGSIZE) := by
    rw [word64_small]
    · unfold PGROUNDDOWN PGSIZE
      omega
    · unfold PGROUNDDOWN PGSIZE
      unfold MAXVA at low ⊢
      omega
  rw [offset, next]
  have rest : PGSIZE - dstva % PGSIZE ≤ PGSIZE ∧ 0 < PGSIZE - dstva % PGSIZE := by
    unfold PGSIZE
    omega
  generalize chunk : min (PGSIZE - dstva % PGSIZE) src.length = n
  have page : ∀ i, i < n → target ram r (dstva + i) = target ram r dstva ∧
      (dstva + i) % PGSIZE = dstva % PGSIZE + i := by
    intro i below
    have inside : dstva % PGSIZE + i < PGSIZE := by omega
    refine ⟨target_page ?_, ?_⟩
    · unfold PGSIZE at inside ⊢
      omega
    · unfold PGSIZE at inside ⊢
      omega
  refine outcome_seq (putBytes_spec _ _ _ _) ?_
  rintro - middle ⟨same, change, stored⟩
  have ptes : middle.pte = ram.pte := by rw [same]
  have first : 0 < n := by
    rw [← chunk]
    exact Nat.lt_min.mpr ⟨rest.2, some⟩
  refine outcome_post (ih middle _ _ ?_) ?_
  · rw [List.length_drop]
    omega
  rintro ok after done
  have length : (src.drop n).length = src.length - n := List.length_drop
  have shift : ∀ k, n + k < src.length → dstva + (PGSIZE - dstva % PGSIZE) + k = dstva + (n + k) := by
    intro k below
    omega
  have goal : ∀ i, target middle r i = target ram r i := target_congr ptes
  have reach : ∀ k, n + k < src.length →
      (Reaches middle r (dstva + (PGSIZE - dstva % PGSIZE)) k ↔ Reaches ram r dstva (n + k)) := by
    intro k below
    constructor
    · intro reached j upTo
      by_cases early : j < n
      · rw [(page j early).1]
        exact found
      · have later := reached (j - n) (by omega)
        rw [goal, shift _ (by omega), show n + (j - n) = j by omega] at later
        exact later
    · intro reached j upTo
      rw [goal, shift _ (by omega)]
      exact reached (n + j) (by omega)
  have later : ∀ q o, after.byte q o ≠ middle.byte q o → ∃ k, n + k < src.length ∧
      Reaches ram r dstva (n + k) ∧ target ram r (dstva + (n + k)) = q ∧
      (dstva + (n + k)) % PGSIZE = o ∧ after.byte q o ∈ src := by
    intro q o changed
    obtain ⟨k, bound, reached, there, place⟩ := done.change q o changed
    have below : n + k < src.length := by omega
    have value := done.store k bound reached
    rw [there, place] at value
    rw [goal, shift k below] at there
    rw [shift k below] at place
    exact ⟨k, below, (reach k below).mp reached, there, place, List.mem_of_mem_drop value⟩
  refine ⟨by rw [done.same, same], ?_, fun q o changed => ?_, fun i bound reached => ?_⟩
  · rw [done.all]
    constructor
    · intro all i bound
      by_cases early : i < n
      · rw [(page i early).1]
        exact found
      · have last := all (i - n) (by omega)
        rw [goal, shift _ (by omega), show n + (i - n) = i by omega] at last
        exact last
    · intro all k bound
      rw [goal, shift k (by omega)]
      exact all (n + k) (by omega)
  · by_cases moved : after.byte q o = middle.byte q o
    · rw [moved] at changed
      obtain ⟨here, above, below⟩ := change q o changed
      rw [List.length_take] at below
      have early : o - dstva % PGSIZE < n := by omega
      obtain ⟨same, place⟩ := page _ early
      refine ⟨o - dstva % PGSIZE, by omega, fun j upTo => ?_, same.trans here.symm, by omega⟩
      rw [(page j (by omega)).1]
      exact found
    · obtain ⟨k, below, reached, there, place, -⟩ := later q o moved
      exact ⟨n + k, below, reached, there, place⟩
  · by_cases early : i < n
    · obtain ⟨same, place⟩ := page i early
      rw [same, place]
      by_cases moved : after.byte (target ram r dstva) (dstva % PGSIZE + i) =
          middle.byte (target ram r dstva) (dstva % PGSIZE + i)
      · rw [moved, stored i (by rw [List.length_take]; omega), List.getElem_take]
        exact List.getElem_mem _
      · obtain ⟨-, -, -, -, -, value⟩ := later _ _ moved
        exact value
    · have below : n + (i - n) < src.length := by omega
      have index : n + (i - n) = i := by omega
      have value := done.store (i - n) (by omega) ((reach _ below).mpr (by rw [index]; exact reached))
      rw [goal, shift _ below, index] at value
      exact List.mem_of_mem_drop value

theorem copyoutFrom_spec (fuel : Nat) : ∀ (ram : Ram) (dstva : Nat) (src : List UInt8),
    src.length ≤ fuel → outcome (copyoutFrom r fuel dstva src)
      (fun ok after => CopiedOut ram r dstva src ok after) (fun _ _ => False) ram := by
  induction fuel with
  | zero =>
      intro ram dstva src short
      have none : src = [] := List.eq_nil_of_length_eq_zero (by omega)
      subst none
      exact ⟨rfl, by simp, fun _ _ changed => absurd rfl changed, fun i bound => by simp at bound⟩
  | succ fuel ih =>
      intro ram dstva src short
      rw [copyoutFrom]
      by_cases empty : src = []
      · rw [if_pos empty]
        subst empty
        exact ⟨rfl, by simp, fun _ _ changed => absurd rfl changed, fun i bound => by simp at bound⟩
      rw [if_neg empty]
      dsimp only
      have some : 0 < src.length := List.length_pos_of_ne_nil empty
      have whole : PGROUNDDOWN dstva / PGSIZE = dstva / PGSIZE := by
        unfold PGROUNDDOWN PGSIZE
        omega
      rw [outcome_bind, walkaddr_target, target_page whole]
      by_cases missing : target ram r dstva = 0
      · rw [if_pos missing]
        refine ⟨rfl, ?_, fun _ _ changed => absurd rfl changed, fun i _ reached => ?_⟩
        · constructor
          · intro wrong
            cases wrong
          · intro all
            exact absurd missing (all 0 some)
        · exact absurd missing (reached 0 (Nat.zero_le _))
      · rw [if_neg missing]
        exact copyoutFrom_turn ih some short missing

theorem copyout_spec (ram : Ram) (r dstva : Nat) (src : List UInt8) :
    outcome (copyout r dstva src) (fun ok after => CopiedOut ram r dstva src ok after)
      (fun _ _ => False) ram :=
  copyoutFrom_spec src.length ram dstva src (Nat.le_refl _)

end Bytes

section Permissions

/-- A call of `copyout` leaves alone what the process itself could not write, and fails when
its destination has such a page. -/
def Respects (ram : Ram) (r dstva : Nat) (src : List UInt8) : Prop :=
  outcome (copyout r dstva src)
    (fun ok after =>
      (∀ page offset, after.byte page offset ≠ ram.byte page offset → ∃ va, Writes ram r va page) ∧
      ((∃ i < src.length, ∀ page, ¬ Writes ram r (dstva + i) page) → ok = false))
    (fun _ _ => False) ram

/-- Every page that `copyout` gets to has `PTE_W`. -/
def Granted (ram : Ram) (r dstva len : Nat) : Prop :=
  ∀ i < len, Reaches ram r dstva i → Writes ram r (dstva + i) (target ram r (dstva + i))

/-- No page is mapped by two user entries of the table. -/
def Once (ram : Ram) (r : Nat) : Prop :=
  ∀ va va', target ram r va = target ram r va' → target ram r va ≠ 0 → va / PGSIZE = va' / PGSIZE

/-- The contents of the user pages without `PTE_W` are the same. -/
def ReadOnlyKept (r : Nat) (ram after : Ram) : Prop :=
  ∀ va, target ram r va ≠ 0 → (∀ page, ¬ Writes ram r va page) →
    after.byte (target ram r va) = ram.byte (target ram r va)

theorem Writes.target {va page : Nat} (writes : Writes ram r va page) : target ram r va = page := by
  obtain ⟨pte, found, valid, user, -, rfl⟩ := writes
  unfold Vm.target
  rw [found]
  exact if_pos ⟨valid, user⟩

theorem Granted.respects {dstva : Nat} {src : List UInt8} (granted : Granted ram r dstva src.length) :
    Respects ram r dstva src := by
  refine outcome_post (copyout_spec ram r dstva src) fun ok after done => ⟨?_, ?_⟩
  · intro page offset changed
    obtain ⟨i, bound, reached, rfl, -⟩ := done.change page offset changed
    exact ⟨dstva + i, granted i bound reached⟩
  · rintro ⟨i, bound, denied⟩
    by_contra succeeded
    have all := done.all.mp (by simpa using succeeded)
    exact denied _ (granted i bound fun j upTo => all j (by omega))

theorem Writes.page {va va' page : Nat} (writes : Writes ram r va page)
    (same : va / PGSIZE = va' / PGSIZE) : Writes ram r va' page := by
  unfold Writes at writes ⊢
  rw [lookup_page same] at writes
  exact writes

theorem Writes.congr {ram' : Ram} (same : ram'.pte = ram.pte) {va page : Nat} :
    Writes ram' r va page ↔ Writes ram r va page := by
  unfold Writes lookup
  rw [same]

/-- A page without `PTE_W` that is reached can be changed. -/
theorem granted_of_respects (once : Once ram r) {dstva len : Nat}
    (respects : ∀ src, src.length = len → Respects ram r dstva src) : Granted ram r dstva len := by
  intro i bound reached
  by_contra denied
  have length : (List.replicate len (ram.byte (target ram r (dstva + i)) ((dstva + i) % PGSIZE) + 1)).length
      = len := List.length_replicate
  obtain ⟨ok, after, ran, done⟩ := outcome_ok (copyout_spec ram r dstva _)
  obtain ⟨kept, -⟩ := outcome_of_ok (respects _ length) ran
  have value := List.eq_of_mem_replicate (done.store i (by rw [length]; exact bound) reached)
  have changed : after.byte (target ram r (dstva + i)) ((dstva + i) % PGSIZE) ≠
      ram.byte (target ram r (dstva + i)) ((dstva + i) % PGSIZE) := by
    rw [value]
    intro same
    have := congrArg UInt8.toNat same
    rw [UInt8.toNat_add] at this
    have small := UInt8.toNat_lt (ram.byte (target ram r (dstva + i)) ((dstva + i) % PGSIZE))
    simp at this
    omega
  obtain ⟨va, writes⟩ := kept _ _ changed
  have equal := writes.target
  have same := once va (dstva + i) equal (by rw [equal]; exact reached i (Nat.le_refl _))
  exact denied (writes.page same)

/-- What a running process has done to its memory: `copyout` on its behalf, and its own
stores, which fault without `PTE_W`. -/
inductive Access where
  | copyout (dstva : Nat) (src : List UInt8)
  | store (va : Nat) (value : UInt8)

def access (r : Nat) : Access → VmM Unit
  | .copyout dstva src => do
      let _ ← copyout r dstva src
  | .store va value => do
      match lookup (← get) r va with
      | none => return
      | some pte =>
          if pte.v ∧ pte.perm.u ∧ pte.perm.w then putByte pte.ppn (va % PGSIZE) value

def accesses (r : Nat) : List Access → VmM Unit
  | [] => return
  | first :: rest => do
      access r first
      accesses r rest

/-- The calls of `copyout` among the accesses are granted. -/
def Access.Granted (ram : Ram) (r : Nat) : Access → Prop
  | .copyout dstva src => Vm.Granted ram r dstva src.length
  | .store _ _ => True

theorem access_spec (once : Once ram r) {a : Access} (granted : a.Granted ram r) :
    outcome (access r a) (fun _ after => after.pte = ram.pte ∧ ReadOnlyKept r ram after)
      (fun _ _ => False) ram := by
  cases a with
  | copyout dstva src =>
      refine outcome_seq (copyout_spec ram r dstva src) fun ok after done => ?_
      refine ⟨by rw [done.same], fun va found denied => ?_⟩
      funext offset
      by_contra changed
      obtain ⟨i, bound, reached, same, -⟩ := done.change _ _ changed
      have writes := granted i bound reached
      rw [same] at writes
      exact denied _ (writes.page (once _ _ same (by rw [same]; exact found)))
  | store va value =>
      unfold access
      rw [outcome_bind, outcome_get]
      cases found : lookup ram r va with
      | none => exact ⟨rfl, fun _ _ _ => rfl⟩
      | some pte =>
          dsimp only
          rw [outcome_ite]
          constructor
          · rintro ⟨valid, user, writable⟩
            have writes : Writes ram r va pte.ppn := ⟨pte, found, valid, user, writable, rfl⟩
            refine ⟨rfl, fun other mapped denied => ?_⟩
            change Function.update ram.byte pte.ppn _ (target ram r other) = _
            refine Function.update_of_ne (fun same => ?_) ..
            have equal : target ram r other = target ram r va := by rw [same, writes.target]
            have page := once other va equal mapped
            exact denied _ (writes.page page.symm)
          · exact fun _ => ⟨rfl, fun _ _ _ => rfl⟩

theorem Once.congr {ram' : Ram} (once : Once ram r) (same : ram'.pte = ram.pte) : Once ram' r := by
  intro va va' equal found
  rw [target_congr same, target_congr same] at equal
  rw [target_congr same] at found
  exact once va va' equal found

theorem Access.Granted.congr {ram' : Ram} {a : Access} (granted : a.Granted ram r)
    (same : ram'.pte = ram.pte) : a.Granted ram' r := by
  cases a with
  | store va value => trivial
  | copyout dstva src =>
      intro i bound reached
      rw [Writes.congr same, target_congr same]
      refine granted i bound fun j upTo => ?_
      rw [← target_congr same]
      exact reached j upTo

theorem ReadOnlyKept.trans {middle after : Ram} (left : ReadOnlyKept r ram middle)
    (same : middle.pte = ram.pte) (right : ReadOnlyKept r middle after) : ReadOnlyKept r ram after := by
  intro va found denied
  have later := right va (by rw [target_congr same]; exact found)
    (fun page writes => denied page ((Writes.congr same).mp writes))
  rw [target_congr same] at later
  exact later.trans (left va found denied)

/-- Whatever a process does, what it may not write stays, as long as its calls of
`copyout` are granted. -/
theorem accesses_spec (list : List Access) : ∀ ram, Once ram r → (∀ a ∈ list, a.Granted ram r) →
    outcome (accesses r list) (fun _ after => after.pte = ram.pte ∧ ReadOnlyKept r ram after)
      (fun _ _ => False) ram := by
  induction list with
  | nil => exact fun ram _ _ => ⟨rfl, fun _ _ _ => rfl⟩
  | cons first rest ih =>
      intro ram once granted
      rw [accesses]
      refine outcome_seq (access_spec once (granted first List.mem_cons_self)) ?_
      rintro - middle ⟨same, kept⟩
      refine outcome_post (ih middle (once.congr same) fun a member =>
        (granted a (List.mem_cons_of_mem _ member)).congr same) ?_
      rintro - after ⟨same', kept'⟩
      exact ⟨same'.trans same, kept.trans same kept'⟩

/-- An entry that is found is the ledger's. -/
theorem lookup_space {g : Ledger} (h : Agrees Strict ram g) (root : g.owner r = .table r [])
    {va : Nat} {pte : Pte} (found : lookup ram r va = some pte) (valid : pte.v = true) :
    g.space r (va / PGSIZE) = some pte := by
  unfold lookup at found
  split at found
  · cases found
  · rename_i low
    split at found
    · rename_i first
      obtain ⟨t, entry, ownsT⟩ := h.down r r [] _ root (by decide) (PX_lt 2 va) first id
      rw [entry] at found
      dsimp only [Pte.table] at found
      split at found
      · rename_i second
        obtain ⟨u, entry', ownsU⟩ := h.down t r _ _ ownsT (by simp) (PX_lt 1 va) second id
        rw [entry'] at found
        cases found
        have place := h.leaf u r _ _ _ ownsU (PX_lt 0 va) valid
        rw [PX_one, PX_two (by omega)] at place
        nth_rewrite 1 [PX_zero] at place
        rw [← vpn_place] at place
        exact place
      · cases found
    · cases found

theorem target_entry {va : Nat} (found : target ram r va ≠ 0) : ∃ pte,
    lookup ram r va = some pte ∧ pte.v = true ∧ pte.perm.u = true ∧ pte.ppn = target ram r va := by
  unfold target at found ⊢
  cases entry : lookup ram r va with
  | none =>
      rw [entry] at found
      exact absurd rfl found
  | some pte =>
      rw [entry] at found
      dsimp only at found ⊢
      by_cases user : pte.v = true ∧ pte.perm.u = true
      · exact ⟨pte, rfl, user.1, user.2, (if_pos user).symm⟩
      · rw [if_neg user] at found
        exact absurd rfl found

/-- In the page table of a process every user entry has its own page. -/
theorem once_of_agrees {g : Ledger} {trampoline trapframe n : Nat} (h : Agrees Strict ram g)
    (root : g.owner r = .table r []) (shape : Shape (g.space r) trampoline trapframe n) :
    Once ram r := by
  have owned : ∀ va, target ram r va ≠ 0 → g.owner (target ram r va) = .user r (va / PGSIZE) := by
    intro va found
    obtain ⟨pte, entry, valid, user, page⟩ := target_entry found
    have place := lookup_space h root entry valid
    rw [← page]
    refine (h.target r _ _ place).2 fun special => ?_
    rcases special with code | frame
    · rw [code, shape.code] at place
      cases place
      cases user
    · rw [frame, shape.frame] at place
      cases place
      cases user
  intro va va' same found
  have left := owned va found
  have right := owned va' (by rw [← same]; exact found)
  rw [same, right] at left
  exact (Owner.user.inj left).2.symm

/-- `copyout` respects the permissions exactly when it gets to no page without `PTE_W`, and
then such a page keeps its contents whatever the process does. -/
theorem copyout_respects_iff (once : Once ram r) (dstva len : Nat) :
    ((∀ src, src.length = len → Respects ram r dstva src) ↔ Granted ram r dstva len) ∧
    ∀ list : List Access, (∀ a ∈ list, a.Granted ram r) →
      outcome (accesses r list) (fun _ after => ReadOnlyKept r ram after) (fun _ _ => False) ram := by
  refine ⟨⟨granted_of_respects once, ?_⟩, fun list granted => ?_⟩
  · rintro granted src rfl
    exact granted.respects
  · exact outcome_post (accesses_spec list ram once granted) fun _ _ kept => kept.2

/-- Page table 1 maps one page, number 9, which its process may write. -/
def onePage : Ram where
  first := 0x80400
  trampoline := 0x80007
  freelist := []
  pte page index :=
    if index = 0 then
      match page with
      | 1 => .table 2
      | 2 => .table 3
      | 3 => { ppn := 9, v := true, perm := userPerm true false }
      | _ => .zero
    else .zero
  byte _ _ := 0
  faults := []

theorem onePage_entry {va : Nat} {pte : Pte} (found : lookup onePage 1 va = some pte)
    (valid : pte.v = true) : va / PGSIZE = 0 ∧ pte.ppn = 9 := by
  have step : ∀ page index, (onePage.pte page index).v = true → index = 0 := by
    intro page index valid
    by_contra other
    simp only [onePage, if_neg other] at valid
    cases valid
  unfold lookup at found
  split at found
  · cases found
  · rename_i bound
    split at found
    · rename_i first
      dsimp only at found
      split at found
      · rename_i second
        cases found
        have two := step _ _ first
        have one := step _ _ second
        have zero := step _ _ valid
        refine ⟨?_, ?_⟩
        · rw [PX_two (by omega)] at two
          rw [PX_one] at one
          rw [PX_zero] at zero
          omega
        · rw [two, zero] at *
          rw [one]
          rfl
      · cases found
    · cases found

theorem onePage_once : Once onePage 1 := by
  have low : ∀ va, target onePage 1 va ≠ 0 → va / PGSIZE = 0 := by
    intro va found
    obtain ⟨pte, entry, valid, -⟩ := target_entry found
    exact (onePage_entry entry valid).1
  intro va va' same found
  rw [low va found, low va' (by rw [← same]; exact found)]

theorem onePage_respects : Granted onePage 1 16 2 ∧ Respects onePage 1 16 [7, 8] := by
  have granted : Granted onePage 1 16 2 := by
    intro i bound _
    have cases : i = 0 ∨ i = 1 := by omega
    rcases cases with rfl | rfl <;>
      exact ⟨{ ppn := 9, v := true, perm := userPerm true false }, by decide +kernel, rfl, rfl, rfl,
        by decide +kernel⟩
  exact ⟨granted, (copyout_respects_iff onePage_once 16 2).1.mpr granted [7, 8] rfl⟩

/-- A memory with a few free pages. -/
def smallRam : Ram where
  first := 0x80400
  trampoline := 0x80007
  freelist := [0x80401, 0x80402, 0x80403, 0x80404, 0x80405, 0x80406, 0x80407, 0x80408]
  pte _ _ := .zero
  byte _ _ := 0
  faults := []

/-- A page table as `exec` makes it for one segment of a page, with or without the write
flag. -/
def segmentImage (w : Bool) : VmM Nat := do
  match ← procPagetable 0x80400 with
  | none => return 0
  | some pagetable =>
      let _ ← uvmalloc pagetable 0 PGSIZE w true
      return pagetable

/-- `copyout` writes into the text of a process and reports success. -/
theorem text_overwritten : ¬ ∀ r ram, segmentImage false smallRam = .ok r ram →
    ∀ dstva src, Respects ram r dstva src := by
  intro always
  have runs : returns (segmentImage false) (fun r ram =>
      returns (copyout r 0 [7]) (fun ok _ => ok) ram && (lookup ram r 0).all fun pte => !pte.perm.w)
      smallRam = true := by
    decide +kernel
  obtain ⟨r, ram, image, checks⟩ := returns_ok runs
  obtain ⟨copies, readOnly⟩ := (Bool.and_eq_true _ _).mp checks
  obtain ⟨ok, after, call, succeeded⟩ := returns_ok copies
  have respects := always r ram image 0 [7]
  have failed := (outcome_of_ok respects call).2 ⟨0, by simp, fun page writes => ?_⟩
  · rw [succeeded] at failed
    cases failed
  · obtain ⟨pte, found, -, -, writable, -⟩ := writes
    rw [found] at readOnly
    simp [writable] at readOnly

end Permissions

end PaddleOs.Vm
