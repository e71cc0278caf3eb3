import PaddleOs.CopyOut

/-!
Copies between the kernel and user memory, byte by byte: what `copyin`, `copyout` and
`copyinstr` read and store, and when they report success.
-/

namespace PaddleOs.Vm

open Foundation.Outcome

variable {ram : Ram} {r : Nat}

/-- The page of `va` is below `MAXVA` and mapped with `PTE_V` and `PTE_U`. -/
def Accessible (ram : Ram) (r va : Nat) : Prop :=
  ∃ pte, lookup ram r va = some pte ∧ pte.v = true ∧ pte.perm.u = true

/-- The byte the process sees at `va`. -/
def userByte (ram : Ram) (r va : Nat) : UInt8 := ram.byte (target ram r va) (va % PGSIZE)

/-- Distinct virtual pages of the user have distinct physical pages, none of them the null
page. -/
structure UserMap (ram : Ram) (r : Nat) : Prop where
  real : ∀ va pte, lookup ram r va = some pte → pte.v = true → pte.perm.u = true → pte.ppn ≠ 0
  once : ∀ va va' pte pte', lookup ram r va = some pte → lookup ram r va' = some pte' →
    pte.v = true → pte.perm.u = true → pte'.v = true → pte'.perm.u = true →
    pte.ppn = pte'.ppn → va / PGSIZE = va' / PGSIZE

theorem UserMap.accessible (map : UserMap ram r) (va : Nat) :
    Accessible ram r va ↔ target ram r va ≠ 0 := by
  constructor
  · rintro ⟨pte, found, valid, user⟩
    unfold target
    rw [found]
    simp only [valid, user, and_self, if_true]
    exact map.real va pte found valid user
  · intro found
    obtain ⟨pte, entry, valid, user, -⟩ := target_entry found
    exact ⟨pte, entry, valid, user⟩

theorem UserMap.singly (map : UserMap ram r) : Once ram r := by
  intro va va' same found
  obtain ⟨pte, entry, valid, user, page⟩ := target_entry found
  rw [same] at found
  obtain ⟨pte', entry', valid', user', page'⟩ := target_entry found
  exact map.once va va' pte pte' entry entry' valid user valid' user' (by rw [page, page', same])

theorem lookup_congr {ram' : Ram} (same : ram'.pte = ram.pte) (va : Nat) :
    lookup ram' r va = lookup ram r va := by
  unfold lookup
  rw [same]

theorem accessible_congr {ram' : Ram} (same : ram'.pte = ram.pte) (va : Nat) :
    Accessible ram' r va ↔ Accessible ram r va := by
  unfold Accessible
  rw [lookup_congr same]

theorem UserMap.congr {ram' : Ram} (map : UserMap ram r) (same : ram'.pte = ram.pte) : UserMap ram' r where
  real va pte found := map.real va pte (lookup_congr same va ▸ found)
  once va va' pte pte' found found' :=
    map.once va va' pte pte' (lookup_congr same va ▸ found) (lookup_congr same va' ▸ found')

/-- Different addresses of the user are different bytes of the memory. -/
theorem UserMap.apart (map : UserMap ram r) {va va' : Nat} (found : target ram r va ≠ 0)
    (page : target ram r va = target ram r va') (offset : va % PGSIZE = va' % PGSIZE) : va = va' := by
  have same := map.singly va va' page found
  unfold PGSIZE at same offset
  omega

section Turns

theorem turn_offset (va : Nat) : va - PGROUNDDOWN va = va % PGSIZE := by
  unfold PGROUNDDOWN PGSIZE
  omega

theorem turn_next {va : Nat} (low : va < MAXVA) :
    word64 (PGROUNDDOWN va + PGSIZE) = va + (PGSIZE - va % PGSIZE) := by
  rw [word64_small]
  · unfold PGROUNDDOWN PGSIZE
    omega
  · unfold PGROUNDDOWN PGSIZE
    unfold MAXVA at low ⊢
    omega

theorem turn_page {va i : Nat} (inside : va % PGSIZE + i < PGSIZE) :
    (va + i) / PGSIZE = va / PGSIZE ∧ (va + i) % PGSIZE = va % PGSIZE + i := by
  unfold PGSIZE at inside ⊢
  omega

theorem turn_rounded (va : Nat) : PGROUNDDOWN va / PGSIZE = va / PGSIZE := by
  unfold PGROUNDDOWN PGSIZE
  omega

/-- Within the page of `va` the bytes the process sees are those of one physical page. -/
theorem userByte_page {va i : Nat} (inside : va % PGSIZE + i < PGSIZE) :
    userByte ram r (va + i) = ram.byte (target ram r va) (va % PGSIZE + i) := by
  obtain ⟨page, offset⟩ := turn_page inside
  unfold userByte
  rw [target_page page, offset]

theorem target_rest {va i : Nat} (inside : va % PGSIZE + i < PGSIZE) :
    target ram r (va + i) = target ram r va := target_page (turn_page inside).1

end Turns

section CopyIn

/-- What the loop of `copyin` has read: `bytes` from `va` on, all `len` of them if it succeeds. -/
structure CopiedIn (ram : Ram) (r va len : Nat) (bytes : List UInt8) (ok : Bool) : Prop where
  count : bytes.length ≤ len
  byte : ∀ i (bound : i < bytes.length), bytes[i] = userByte ram r (va + i)
  all : ok = true ↔ ∀ i < len, target ram r (va + i) ≠ 0
  full : ok = true → bytes.length = len

theorem CopiedIn.none (ram : Ram) (r va : Nat) : CopiedIn ram r va 0 [] true where
  count := Nat.le_refl 0
  byte i bound := absurd bound (Nat.not_lt_zero i)
  all := ⟨fun _ i below => absurd below (Nat.not_lt_zero i), fun _ => rfl⟩
  full _ := rfl

/-- A page and then the rest. -/
theorem CopiedIn.turn {va len n : Nat} {bytes : List UInt8} {ok : Bool}
    (chunk : n = min (PGSIZE - va % PGSIZE) len) (found : target ram r va ≠ 0)
    (rest : CopiedIn ram r (va + (PGSIZE - va % PGSIZE)) (len - n) bytes ok) :
    CopiedIn ram r va len
      ((List.range n).map (fun i => ram.byte (target ram r va) (va % PGSIZE + i)) ++ bytes) ok := by
  have positive : va % PGSIZE < PGSIZE := Nat.mod_lt _ (by decide)
  have fits : n ≤ len := by omega
  have length : ((List.range n).map fun i => ram.byte (target ram r va) (va % PGSIZE + i)).length = n := by
    simp
  -- What is left begins on the next page, if anything is.
  have later : ∀ i, n ≤ i → i < len → va + (PGSIZE - va % PGSIZE) + (i - n) = va + i := by omega
  refine ⟨?_, fun i bound => ?_, ⟨fun done i below => ?_, fun all => ?_⟩, fun done => ?_⟩
  · rw [List.length_append, length]
    have := rest.count
    omega
  · by_cases first : i < n
    · rw [List.getElem_append_left (by rwa [length]), List.getElem_map, List.getElem_range,
        userByte_page (by omega)]
    · rw [List.length_append, length] at bound
      have count := rest.count
      rw [List.getElem_append_right (by rw [length]; omega)]
      simp only [length]
      rw [rest.byte (i - n) (by omega), later i (by omega) (by omega)]
  · by_cases first : i < n
    · rw [target_rest (by omega)]
      exact found
    · rw [← later i (by omega) below]
      exact rest.all.mp done (i - n) (by omega)
  · refine rest.all.mpr fun i below => ?_
    have place := later (n + i) (by omega) (by omega)
    rw [Nat.add_sub_cancel_left] at place
    rw [place]
    exact all (n + i) (by omega)
  · rw [List.length_append, length, rest.full done]
    omega

theorem copyinFrom_spec (fuel : Nat) : ∀ (va len : Nat) (copied : List UInt8), len ≤ fuel →
    outcome (copyinFrom r fuel va len copied)
      (fun result after => after = ram ∧
        ∃ bytes, result.1 = copied ++ bytes ∧ CopiedIn ram r va len bytes result.2)
      (fun _ _ => False) ram := by
  induction fuel with
  | zero =>
      intro va len copied enough
      obtain rfl : len = 0 := by omega
      exact ⟨rfl, [], (List.append_nil _).symm, .none ram r va⟩
  | succ fuel ih =>
      intro va len copied enough
      rw [copyinFrom, outcome_ite]
      refine ⟨?_, fun _ => ?_⟩
      · rintro rfl
        exact ⟨rfl, [], (List.append_nil _).symm, .none ram r va⟩
      · dsimp only
        rw [outcome_bind, walkaddr_target, target_page (turn_rounded va), outcome_ite]
        refine ⟨fun missing => ?_, fun found => ?_⟩
        · refine ⟨rfl, [], (List.append_nil _).symm, by simp, by simp, ?_, by simp⟩
          refine ⟨fun done => by simp at done, fun all => ?_⟩
          exact absurd missing (all 0 (by omega))
        · rw [outcome_bind, outcome_get, turn_offset, turn_next (target_low found)]
          refine outcome_post (ih _ _ _ ?_) ?_
          · have : 0 < PGSIZE - va % PGSIZE := Nat.sub_pos_of_lt (Nat.mod_lt _ (by decide))
            omega
          · rintro ⟨result, ok⟩ after ⟨same, bytes, read, rest⟩
            refine ⟨same, _, ?_, rest.turn rfl found⟩
            rw [read, List.append_assoc]

end CopyIn

section CopyOut

/-- The bytes `copyout` got to are those of the source, when no page is mapped twice. -/
theorem copyoutFrom_exact (once : Once ram r) (fuel : Nat) : ∀ (ram' : Ram) (va : Nat) (src : List UInt8),
    ram'.pte = ram.pte → src.length ≤ fuel →
    outcome (copyoutFrom r fuel va src)
      (fun _ after => ∀ i (bound : i < src.length), Reaches ram r va i →
        userByte after r (va + i) = src[i])
      (fun _ _ => False) ram' := by
  induction fuel with
  | zero =>
      intro ram' va src _ enough i bound
      omega
  | succ fuel ih =>
      intro ram' va src ptes enough
      have same : ∀ va, target ram' r va = target ram r va := target_congr ptes
      rw [copyoutFrom, outcome_ite]
      refine ⟨?_, fun some => ?_⟩
      · rintro rfl i bound
        simp at bound
      · dsimp only
        rw [outcome_bind, walkaddr_target, target_page (turn_rounded va), same, outcome_ite]
        refine ⟨fun missing i bound reached => absurd missing (reached 0 (Nat.zero_le i)), fun found => ?_⟩
        have positive : va % PGSIZE < PGSIZE := Nat.mod_lt _ (by decide)
        rw [turn_offset, turn_next (target_low found)]
        generalize chunk : min (PGSIZE - va % PGSIZE) src.length = n
        have length : (src.take n).length = n := by rw [List.length_take]; omega
        refine outcome_seq (putBytes_spec _ _ _ _) ?_
        rintro - middle ⟨keeps, -, stored⟩
        have ptes' : middle.pte = ram.pte := by rw [keeps, ← ptes]
        have nonempty : 0 < src.length := List.length_pos_iff.mpr some
        have short : (src.drop n).length ≤ fuel := by rw [List.length_drop]; omega
        refine outcome_mono (outcome_and (ih middle _ (src.drop n) ptes' short)
          (copyoutFrom_spec fuel middle _ (src.drop n) short)) ?_ fun _ _ failed => failed.1
        rintro ok after ⟨exact, done⟩ i bound reached
        have after_target : target after r (va + i) = target ram r (va + i) :=
          target_congr (by rw [done.same, ptes']) _
        have later : ∀ j, n ≤ j → j < src.length → va + (PGSIZE - va % PGSIZE) + (j - n) = va + j := by
          omega
        by_cases first : i < n
        · -- The pages after the first one are other pages.
          have kept : after.byte (target ram r (va + i)) ((va + i) % PGSIZE) =
              middle.byte (target ram r (va + i)) ((va + i) % PGSIZE) := by
            by_contra changed
            obtain ⟨k, below, -, page, -⟩ := done.change _ _ changed
            rw [List.length_drop] at below
            rw [target_congr ptes'] at page
            have place := later (n + k) (by omega) (by omega)
            rw [Nat.add_sub_cancel_left] at place
            rw [place] at page
            have equal := once _ _ page (by rw [page]; exact reached i (Nat.le_refl i))
            rw [(turn_page (by omega : va % PGSIZE + i < PGSIZE)).1] at equal
            have apart : va / PGSIZE < (va + (n + k)) / PGSIZE := by
              rw [← place]
              unfold PGSIZE
              omega
            omega
          have byte := stored i (by rw [length]; exact first)
          unfold userByte
          rw [after_target, kept, target_rest (by omega),
            (turn_page (by omega : va % PGSIZE + i < PGSIZE)).2]
          rw [byte, List.getElem_take]
        · have place := later i (by omega) bound
          have byte := exact (i - n) (by rw [List.length_drop]; omega) fun j below => by
            have place' := later (n + j) (by omega) (by omega)
            rw [Nat.add_sub_cancel_left] at place'
            rw [place']
            exact reached (n + j) (by omega)
          rw [place] at byte
          rw [byte, List.getElem_drop]
          congr 1
          omega

end CopyOut

section Strings

/-- The inner loop stops at the first NUL among its bytes. -/
theorem copyinstrPage_spec (byte : Nat → UInt8) (n : Nat) : ∀ offset,
    (copyinstrPage byte n offset = ((List.range n).map fun i => byte (offset + i), false) ∧
      ∀ i < n, byte (offset + i) ≠ 0) ∨
    ∃ k < n, copyinstrPage byte n offset = ((List.range (k + 1)).map fun i => byte (offset + i), true) ∧
      byte (offset + k) = 0 ∧ ∀ i < k, byte (offset + i) ≠ 0 := by
  induction n with
  | zero => exact fun offset => .inl ⟨rfl, fun i below => absurd below (Nat.not_lt_zero i)⟩
  | succ n ih =>
      intro offset
      have shift : ∀ m, (List.range (m + 1)).map (fun i => byte (offset + i)) =
          byte offset :: (List.range m).map fun i => byte (offset + 1 + i) := by
        intro m
        rw [List.range_succ_eq_map, List.map_cons, List.map_map]
        congr 1
        refine List.map_congr_left fun i _ => ?_
        exact congrArg byte (by simp only [Nat.succ_eq_add_one]; omega)
      have first : ∀ m, byte offset ≠ 0 → (∀ i < m, byte (offset + 1 + i) ≠ 0) →
          ∀ i < m + 1, byte (offset + i) ≠ 0 := by
        intro m head tail i below
        cases i with
        | zero => exact head
        | succ i =>
            rw [show offset + (i + 1) = offset + 1 + i by omega]
            exact tail i (by omega)
      rw [copyinstrPage]
      by_cases null : byte offset = 0
      · rw [if_pos null]
        refine .inr ⟨0, Nat.succ_pos n, ?_, null, fun i below => absurd below (Nat.not_lt_zero i)⟩
        simp [null]
      · rw [if_neg null]
        rcases ih (offset + 1) with ⟨rest, clean⟩ | ⟨k, below, rest, last, clean⟩
        · refine .inl ⟨?_, first n null clean⟩
          rw [rest, shift]
        · refine .inr ⟨k + 1, by omega, ?_, ?_, first k null clean⟩
          · rw [rest, shift (k + 1)]
          · rw [← last]
            exact congrArg byte (by omega)

/-- What the loop of `copyinstr` has read from `va` on. -/
structure CopiedString (ram : Ram) (r va max : Nat) (bytes : List UInt8) (ok : Bool) : Prop where
  count : bytes.length ≤ max
  byte : ∀ i (bound : i < bytes.length), bytes[i] = userByte ram r (va + i)
  found : ok = true → ∃ k, bytes.length = k + 1 ∧ userByte ram r (va + k) = 0 ∧
    (∀ i < k, userByte ram r (va + i) ≠ 0) ∧ ∀ i ≤ k, target ram r (va + i) ≠ 0
  missing : ok = false → ∀ k < max, (∀ i ≤ k, target ram r (va + i) ≠ 0) → userByte ram r (va + k) ≠ 0

theorem CopiedString.none (ram : Ram) (r va : Nat) : CopiedString ram r va 0 [] false where
  count := Nat.le_refl 0
  byte i bound := absurd bound (Nat.not_lt_zero i)
  found done := nomatch done
  missing _ k below := absurd below (Nat.not_lt_zero k)

/-- A page without a NUL and then the rest. -/
theorem CopiedString.turn {va max n : Nat} {bytes : List UInt8} {ok : Bool}
    (chunk : n = min (PGSIZE - va % PGSIZE) max) (found : target ram r va ≠ 0)
    (clean : ∀ i < n, ram.byte (target ram r va) (va % PGSIZE + i) ≠ 0)
    (rest : CopiedString ram r (va + (PGSIZE - va % PGSIZE)) (max - n) bytes ok) :
    CopiedString ram r va max
      ((List.range n).map (fun i => ram.byte (target ram r va) (va % PGSIZE + i)) ++ bytes) ok := by
  have positive : va % PGSIZE < PGSIZE := Nat.mod_lt _ (by decide)
  have length : ((List.range n).map fun i => ram.byte (target ram r va) (va % PGSIZE + i)).length = n := by
    simp
  have later : ∀ i, n ≤ i → i < max → va + (PGSIZE - va % PGSIZE) + (i - n) = va + i := by omega
  have count := rest.count
  have here : ∀ i < n, userByte ram r (va + i) ≠ 0 := by
    intro i below
    rw [userByte_page (by omega)]
    exact clean i below
  refine ⟨?_, fun i bound => ?_, fun done => ?_, fun failed k below all => ?_⟩
  · rw [List.length_append, length]
    omega
  · by_cases first : i < n
    · rw [List.getElem_append_left (by rwa [length]), List.getElem_map, List.getElem_range,
        userByte_page (by omega)]
    · rw [List.length_append, length] at bound
      rw [List.getElem_append_right (by rw [length]; omega)]
      simp only [length]
      rw [rest.byte (i - n) (by omega), later i (by omega) (by omega)]
  · obtain ⟨k, size, null, before, mapped⟩ := rest.found done
    have place : ∀ i ≤ k, va + (PGSIZE - va % PGSIZE) + i = va + (n + i) := by
      intro i below
      have := later (n + i) (by omega) (by omega)
      rwa [Nat.add_sub_cancel_left] at this
    refine ⟨n + k, by rw [List.length_append, length, size]; omega, ?_, fun i below => ?_, fun i below => ?_⟩
    · rw [← place k (Nat.le_refl k)]
      exact null
    · by_cases first : i < n
      · exact here i first
      · have tail := before (i - n) (by omega)
        rwa [later i (by omega) (by omega)] at tail
    · by_cases first : i < n
      · rw [target_rest (by omega)]
        exact found
      · have tail := mapped (i - n) (by omega)
        rwa [later i (by omega) (by omega)] at tail
  · by_cases first : k < n
    · exact here k first
    · have tail := rest.missing failed (k - n) (by omega) fun i inside => ?_
      · rwa [later k (by omega) below] at tail
      · have place := later (n + i) (by omega) (by omega)
        rw [Nat.add_sub_cancel_left] at place
        rw [place]
        exact all (n + i) (by omega)

theorem copyinstrFrom_spec (fuel : Nat) : ∀ (va max : Nat) (copied : List UInt8), max ≤ fuel →
    outcome (copyinstrFrom r fuel va max copied)
      (fun result after => after = ram ∧
        ∃ bytes, result.1 = copied ++ bytes ∧ CopiedString ram r va max bytes result.2)
      (fun _ _ => False) ram := by
  induction fuel with
  | zero =>
      intro va max copied enough
      obtain rfl : max = 0 := by omega
      exact ⟨rfl, [], (List.append_nil _).symm, .none ram r va⟩
  | succ fuel ih =>
      intro va max copied enough
      rw [copyinstrFrom, outcome_ite]
      refine ⟨?_, fun _ => ?_⟩
      · rintro rfl
        exact ⟨rfl, [], (List.append_nil _).symm, .none ram r va⟩
      · dsimp only
        rw [outcome_bind, walkaddr_target, target_page (turn_rounded va), outcome_ite]
        refine ⟨fun missing => ?_, fun found => ?_⟩
        · refine ⟨rfl, [], (List.append_nil _).symm, by simp, by simp, by simp, ?_⟩
          intro _ k _ all
          exact absurd missing (all 0 (Nat.zero_le k))
        · have positive : 0 < PGSIZE - va % PGSIZE := Nat.sub_pos_of_lt (Nat.mod_lt _ (by decide))
          rw [outcome_bind, outcome_get, turn_offset, turn_next (target_low found)]
          generalize chunk : min (PGSIZE - va % PGSIZE) max = n
          rcases copyinstrPage_spec (ram.byte (target ram r va)) n (va % PGSIZE) with
            ⟨page, clean⟩ | ⟨k, below, page, null, clean⟩
          · rw [page]
            refine outcome_post (ih _ _ _ (by omega)) ?_
            rintro ⟨result, ok⟩ after ⟨same, bytes, read, rest⟩
            refine ⟨same, _, ?_, rest.turn chunk.symm found clean⟩
            rw [read, List.append_assoc]
          · rw [page]
            have inside : ∀ i ≤ k, va % PGSIZE + i < PGSIZE := by omega
            refine ⟨rfl, _, rfl, ?_, fun i bound => ?_, fun _ => ⟨k, by simp, ?_, fun i before => ?_,
              fun i upto => ?_⟩, by simp⟩
            · rw [List.length_map, List.length_range]
              omega
            · rw [List.length_map, List.length_range] at bound
              rw [List.getElem_map, List.getElem_range, userByte_page (inside i (by omega))]
            · rw [userByte_page (inside k (Nat.le_refl k))]
              exact null
            · rw [userByte_page (inside i (by omega))]
              exact clean i before
            · rw [target_rest (inside i upto)]
              exact found

end Strings

section Exact

theorem turn_positive (va : Nat) {len : Nat} (some : len ≠ 0) :
    0 < min (PGSIZE - (va - PGROUNDDOWN va)) len := by
  rw [turn_offset]
  have : va % PGSIZE < PGSIZE := Nat.mod_lt _ (by decide)
  omega

/-- Every turn of `copyin` copies a byte at least: the loop ends after `len` turns. -/
theorem copyinFrom_fuel (fuel : Nat) : ∀ (fuel' va len : Nat) (copied : List UInt8), len ≤ fuel →
    len ≤ fuel' → copyinFrom r fuel va len copied = copyinFrom r fuel' va len copied := by
  induction fuel with
  | zero =>
      intro fuel' va len copied enough _
      obtain rfl : len = 0 := by omega
      cases fuel' <;> rfl
  | succ fuel ih =>
      intro fuel' va len copied enough enough'
      by_cases none : len = 0
      · subst none
        cases fuel' <;> rfl
      · obtain ⟨fuel', rfl⟩ : ∃ m, fuel' = m + 1 := ⟨fuel' - 1, by omega⟩
        have positive := turn_positive va none
        rw [copyinFrom, copyinFrom, if_neg none, if_neg none]
        refine bind_congr fun page => ?_
        split
        · rfl
        · exact bind_congr fun ram => ih fuel' _ _ _ (by omega) (by omega)

theorem copyoutFrom_fuel (fuel : Nat) : ∀ (fuel' va : Nat) (src : List UInt8), src.length ≤ fuel →
    src.length ≤ fuel' → copyoutFrom r fuel va src = copyoutFrom r fuel' va src := by
  induction fuel with
  | zero =>
      intro fuel' va src enough _
      obtain rfl : src = [] := List.eq_nil_of_length_eq_zero (by omega)
      cases fuel' <;> rfl
  | succ fuel ih =>
      intro fuel' va src enough enough'
      by_cases none : src = []
      · subst none
        cases fuel' <;> rfl
      · have some : src.length ≠ 0 := fun zero => none (List.eq_nil_of_length_eq_zero zero)
        obtain ⟨fuel', rfl⟩ : ∃ m, fuel' = m + 1 := ⟨fuel' - 1, by omega⟩
        have positive := turn_positive va some
        rw [copyoutFrom, copyoutFrom, if_neg none, if_neg none]
        refine bind_congr fun page => ?_
        split
        · rfl
        · refine bind_congr fun _ => ih fuel' _ _ ?_ ?_
          · rw [List.length_drop]
            omega
          · rw [List.length_drop]
            omega

theorem copyin_exact (map : UserMap ram r) (va len : Nat) : ∃ dst ok,
    (∀ fuel, len ≤ fuel → copyinFrom r fuel va len [] ram = .ok (dst, ok) ram) ∧
    copyin r va len ram = .ok (dst, ok) ram ∧ dst.length ≤ len ∧
    (ok = true ↔ ∀ i < len, Accessible ram r (va + i)) ∧
    (ok = true → dst = (List.range len).map fun i => userByte ram r (va + i)) := by
  obtain ⟨⟨dst, ok⟩, after, ran, rfl, bytes, read, done⟩ :=
    outcome_ok (@copyinFrom_spec ram r len va len [] (Nat.le_refl len))
  obtain rfl : dst = bytes := read
  refine ⟨dst, ok, fun fuel enough => ?_, ran, done.count, ?_, fun all => ?_⟩
  · rw [copyinFrom_fuel fuel len va len [] enough (Nat.le_refl len)]
    exact ran
  · rw [done.all]
    exact forall₂_congr fun i _ => (map.accessible (va + i)).symm
  · refine List.ext_getElem (by rw [done.full all, List.length_map, List.length_range]) fun i bound _ => ?_
    rw [done.byte i bound, List.getElem_map, List.getElem_range]

theorem copyout_exact (map : UserMap ram r) (va : Nat) (src : List UInt8) : ∃ ok after,
    (∀ fuel, src.length ≤ fuel → copyoutFrom r fuel va src ram = .ok ok after) ∧
    copyout r va src ram = .ok ok after ∧ after = { ram with byte := after.byte } ∧
    (ok = true ↔ ∀ i < src.length, Accessible ram r (va + i)) ∧
    (ok = true → ∀ i (bound : i < src.length), userByte after r (va + i) = src[i]) ∧
    ∀ page offset, after.byte page offset ≠ ram.byte page offset →
      ∃ i < src.length, page = target ram r (va + i) ∧ offset = (va + i) % PGSIZE := by
  obtain ⟨ok, after, ran, done, exact⟩ := outcome_ok (outcome_mono (outcome_and
    (copyoutFrom_spec (r := r) src.length ram va src (Nat.le_refl _))
    (copyoutFrom_exact map.singly src.length ram va src rfl (Nat.le_refl _)))
    (fun _ _ both => both) fun _ _ failed => failed.1)
  refine ⟨ok, after, fun fuel enough => ?_, ran, done.same, ?_, fun all i bound => ?_,
    fun page offset changed => ?_⟩
  · rw [copyoutFrom_fuel fuel src.length va src enough (Nat.le_refl _)]
    exact ran
  · rw [done.all]
    exact forall₂_congr fun i _ => (map.accessible (va + i)).symm
  · exact exact i bound fun j upto => done.all.mp all j (by omega)
  · obtain ⟨i, below, -, place, place'⟩ := done.change page offset changed
    exact ⟨i, below, place.symm, place'.symm⟩

theorem copyinstr_exact (map : UserMap ram r) (va max : Nat) : ∃ dst ok,
    copyinstr r va max ram = .ok (dst, ok) ram ∧ dst.length ≤ max ∧
    (ok = true ↔ ∃ k < max, (∀ i ≤ k, Accessible ram r (va + i)) ∧ userByte ram r (va + k) = 0) ∧
    (ok = true → ∃ k, dst = ((List.range k).map fun i => userByte ram r (va + i)) ++ [0] ∧
      ∀ byte ∈ dst.take k, byte ≠ 0) := by
  obtain ⟨⟨dst, ok⟩, after, ran, same, bytes, read, done⟩ :=
    outcome_ok (@copyinstrFrom_spec ram r max va max [] (Nat.le_refl max))
  obtain rfl : dst = bytes := read
  rw [same] at ran
  refine ⟨dst, ok, ran, done.count, ⟨fun all => ?_, ?_⟩, fun all => ?_⟩
  · obtain ⟨k, size, null, -, mapped⟩ := done.found all
    have := done.count
    exact ⟨k, by omega, fun i upto => (map.accessible (va + i)).mpr (mapped i upto), null⟩
  · rintro ⟨k, below, mapped, null⟩
    by_contra failed
    refine done.missing (by simpa using failed) k below (fun i upto => ?_) null
    exact (map.accessible (va + i)).mp (mapped i upto)
  · obtain ⟨k, size, null, before, -⟩ := done.found all
    have whole : dst = ((List.range k).map fun i => userByte ram r (va + i)) ++ [0] := by
      refine List.ext_getElem (by simp [size]) fun i bound _ => ?_
      rw [done.byte i bound]
      by_cases last : i < k
      · rw [List.getElem_append_left (by simpa using last), List.getElem_map, List.getElem_range]
      · obtain rfl : i = k := by omega
        rw [List.getElem_append_right (by simp), null]
        simp
    refine ⟨k, whole, fun byte member => ?_⟩
    rw [whole, List.take_left' (by simp)] at member
    obtain ⟨i, inside, rfl⟩ := List.mem_map.mp member
    exact before i (List.mem_range.mp inside)

/-- `copyin`, `copyout` and `copyinstr` on a page table that maps every page once: they
succeed exactly when all the pages they need are there for the user, and copy exactly the
bytes asked for. -/
theorem user_copies_exact (map : UserMap ram r) (va : Nat) :
    (∀ len, ∃ dst ok, (∀ fuel, len ≤ fuel → copyinFrom r fuel va len [] ram = .ok (dst, ok) ram) ∧
      copyin r va len ram = .ok (dst, ok) ram ∧ dst.length ≤ len ∧
      (ok = true ↔ ∀ i < len, Accessible ram r (va + i)) ∧
      (ok = true → dst = (List.range len).map fun i => userByte ram r (va + i))) ∧
    (∀ src, ∃ ok after, (∀ fuel, src.length ≤ fuel → copyoutFrom r fuel va src ram = .ok ok after) ∧
      copyout r va src ram = .ok ok after ∧ after = { ram with byte := after.byte } ∧
      (ok = true ↔ ∀ i < src.length, Accessible ram r (va + i)) ∧
      (ok = true → ∀ i (bound : i < src.length), userByte after r (va + i) = src[i]) ∧
      ∀ page offset, after.byte page offset ≠ ram.byte page offset →
        ∃ i < src.length, page = target ram r (va + i) ∧ offset = (va + i) % PGSIZE) ∧
    ∀ max, ∃ dst ok, copyinstr r va max ram = .ok (dst, ok) ram ∧ dst.length ≤ max ∧
      (ok = true ↔ ∃ k < max, (∀ i ≤ k, Accessible ram r (va + i)) ∧ userByte ram r (va + k) = 0) ∧
      (ok = true → ∃ k, dst = ((List.range k).map fun i => userByte ram r (va + i)) ++ [0] ∧
        ∀ byte ∈ dst.take k, byte ≠ 0) :=
  ⟨copyin_exact map va, copyout_exact map va, copyinstr_exact map va⟩

theorem onePage_map : UserMap onePage 1 where
  real va pte found valid _ := by
    rw [(onePage_entry found valid).2]
    decide
  once va va' pte pte' found found' valid _ valid' _ _ := by
    rw [(onePage_entry found valid).1, (onePage_entry found' valid').1]

/-- The last three bytes of the one page are written, and one more is too many. -/
theorem onePage_copies :
    (∃ after, copyout 1 4093 [104, 105, 0] onePage = .ok true after) ∧
    ∃ after, copyout 1 4093 [104, 105, 33, 0] onePage = .ok false after := by
  have inside : ∀ i < 3, Accessible onePage 1 (4093 + i) := by
    intro i below
    match i, below with
    | 0, _ => exact ⟨_, rfl, rfl, rfl⟩
    | 1, _ => exact ⟨_, rfl, rfl, rfl⟩
    | 2, _ => exact ⟨_, rfl, rfl, rfl⟩
  have outside : ¬ Accessible onePage 1 (4093 + 3) := by
    rintro ⟨pte, found, valid, -⟩
    cases found
    cases valid
  obtain ⟨-, copies, -⟩ := user_copies_exact onePage_map 4093
  constructor
  · obtain ⟨ok, after, -, ran, -, all, -⟩ := copies [104, 105, 0]
    rw [all.mpr inside] at ran
    exact ⟨after, ran⟩
  · obtain ⟨ok, after, -, ran, -, all, -⟩ := copies [104, 105, 33, 0]
    have failed : ok = false := by
      by_contra done
      exact outside (all.mp (by simpa using done) 3 (by decide))
    rw [failed] at ran
    exact ⟨after, ran⟩

end Exact

end PaddleOs.Vm
