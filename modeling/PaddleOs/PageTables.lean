import PaddleOs.PageLedger

/-!
What the functions of `kalloc.c` and `vm.c` do to the ledger. None of them stops the
kernel when it is called on a page table of the ledger within its bounds. Every
allocation may fail.
-/

namespace PaddleOs.Vm

open Foundation.Outcome

variable {loose : Nat → Nat → Prop} {ram : Ram} {g : Ledger}

section Pages

theorem kalloc_spec (h : Agrees loose ram g) :
    outcome kalloc
      (fun result after =>
        match result with
        | none => Agrees loose after g
        | some page =>
            g.owner page = .free ∧ Agrees loose after (g.assign page (.kept .temporary)))
      (fun _ _ => False) ram := by
  have served : ∀ page freelist faults, ram.freelist = page :: freelist →
      g.owner page = .free ∧
        Agrees loose { ram.memset page 3 with freelist, faults }
          (g.assign page (.kept .temporary)) := by
    intro page freelist faults listed
    have wasFree : g.owner page = .free := (h.free page).mp (by simp [listed])
    have distinct := h.nodup
    rw [listed, List.nodup_cons] at distinct
    have scribbled : Agrees loose (ram.memset page 3) g :=
      h.scribble page (by simp [wasFree]) rfl rfl rfl
        fun q apart => by simp [Ram.memset, Function.update_of_ne apart]
    refine ⟨wasFree, scribbled.reassign (.inl wasFree) (.inr ⟨_, rfl⟩) rfl rfl rfl distinct.2 ?_⟩
    intro q
    have member := h.free q
    rw [listed, List.mem_cons] at member
    rw [assign_owner]
    by_cases same : q = page
    · simpa [same] using distinct.1
    · simpa [same] using member
  unfold kalloc
  rw [outcome_bind, outcome_get]
  cases faulty : ram.faults with
  | nil =>
      cases listed : ram.freelist with
      | nil => exact h.congr rfl rfl listed.symm rfl
      | cons page freelist => exact served page freelist _ listed
  | cons fault faults =>
      cases fault with
      | true => exact h.congr rfl rfl rfl rfl
      | false =>
          cases listed : ram.freelist with
          | nil => exact h.congr rfl rfl listed.symm rfl
          | cons page freelist => exact served page freelist _ listed

theorem kfree_spec (h : Agrees loose ram g) {page : Nat} {use : Use}
    (kept : g.owner page = .kept use) :
    outcome (kfree page) (fun _ after => Agrees loose after (g.assign page .free))
      (fun _ _ => False) ram := by
  have within := h.inside (q := page) (by simp [kept])
  have bounded : ¬ (page < ram.first ∨ page ≥ stopPage) := by
    rw [h.first]
    omega
  have scribbled : Agrees loose (ram.memset page 1) g :=
    h.scribble page (by simp [kept]) rfl rfl rfl
      fun q apart => by simp [Ram.memset, Function.update_of_ne apart]
  have unlisted : page ∉ ram.freelist := by simp [h.free, kept]
  unfold kfree
  rw [outcome_bind, outcome_get, if_neg bounded]
  refine scribbled.reassign (.inr ⟨_, kept⟩) (.inl rfl) rfl rfl rfl
    (List.nodup_cons.mpr ⟨unlisted, h.nodup⟩) fun q => ?_
  change q ∈ page :: ram.freelist ↔ _
  rw [List.mem_cons, assign_owner, h.free q]
  by_cases same : q = page <;> simp [same]

theorem memzero_spec (h : Agrees loose ram g) {page : Nat} {use : Use}
    (kept : g.owner page = .kept use) :
    outcome (memzero page)
      (fun _ after => Agrees loose after g ∧ ∀ i, (after.pte page i).v = false)
      (fun _ _ => False) ram := by
  refine ⟨h.scribble page (by simp [kept]) rfl rfl rfl
    fun q apart => by simp [Ram.memset, Function.update_of_ne apart], fun i => ?_⟩
  simp [Ram.memset, Pte.ofByte]

theorem copyPage_spec (h : Agrees loose ram g) {mem page : Nat} {use : Use}
    (kept : g.owner mem = .kept use) :
    outcome (copyPage mem page) (fun _ after => Agrees loose after g) (fun _ _ => False) ram :=
  h.scribble mem (by simp [kept]) rfl rfl rfl
    fun q apart => by simp [Function.update_of_ne apart]

theorem getPte_then {α : Type} {page index : Nat} {next : Pte → VmM α} {post : α → Ram → Prop}
    {fail : Stop → Ram → Prop} (rest : outcome (next (ram.pte page index)) post fail ram) :
    outcome (getPte page index >>= next) post fail ram := rest

theorem memzero_then {α : Type} {page : Nat} {next : Unit → VmM α} {post : α → Ram → Prop}
    {fail : Stop → Ram → Prop} (rest : outcome (next ()) post fail (ram.memset page 0)) :
    outcome (memzero page >>= next) post fail ram := rest

end Pages

section Movements

/-- Page tables below `r` have grown; nothing else has changed. -/
structure Grows (r : Nat) (g g' : Ledger) : Prop where
  first : g'.first = g.first
  trampoline : g'.trampoline = g.trampoline
  owner : ∀ q, g'.owner q = g.owner q ∨ g.owner q = .free ∧ ∃ path, g'.owner q = .table r path
  space : g'.space = g.space

theorem Grows.refl (r : Nat) (g : Ledger) : Grows r g g :=
  ⟨rfl, rfl, fun _ => .inl rfl, rfl⟩

theorem Grows.keeps {r : Nat} {g g' : Ledger} (grown : Grows r g g') {q : Nat} {owner : Owner}
    (owned : g.owner q = owner) (notFree : owner ≠ .free) : g'.owner q = owner := by
  rcases grown.owner q with same | ⟨free, _⟩
  · rw [same, owned]
  · exact absurd (owned.symm.trans free) notFree

theorem Grows.trans {r : Nat} {g g' g'' : Ledger} (left : Grows r g g') (right : Grows r g' g'') :
    Grows r g g'' where
  first := right.first.trans left.first
  trampoline := right.trampoline.trans left.trampoline
  space := right.space.trans left.space
  owner q := by
    rcases left.owner q with same | ⟨free, path, grown⟩
    · rw [← same]
      exact right.owner q
    · exact .inr ⟨free, path, right.keeps grown (by simp)⟩

/-- The owners among which a page moves while the table at `r` changes. -/
def Pool (r : Nat) : Owner → Prop
  | .free => True
  | .table r' _ => r' = r
  | .user r' _ => r' = r
  | .outside | .kept _ => False

/-- Pages have moved between the free list and the address space at `r`. -/
structure Moves (r : Nat) (g g' : Ledger) : Prop where
  first : g'.first = g.first
  trampoline : g'.trampoline = g.trampoline
  owner : ∀ q, g'.owner q = g.owner q ∨ Pool r (g.owner q) ∧ Pool r (g'.owner q)
  space : ∀ r', r' ≠ r → g'.space r' = g.space r'

theorem Moves.refl (r : Nat) (g : Ledger) : Moves r g g :=
  ⟨rfl, rfl, fun _ => .inl rfl, fun _ _ => rfl⟩

theorem Moves.trans {r : Nat} {g g' g'' : Ledger} (left : Moves r g g') (right : Moves r g' g'') :
    Moves r g g'' where
  first := right.first.trans left.first
  trampoline := right.trampoline.trans left.trampoline
  space r' apart := (right.space r' apart).trans (left.space r' apart)
  owner q := by
    rcases left.owner q with same | ⟨before, after⟩
    · rw [← same]
      exact right.owner q
    · rcases right.owner q with same | ⟨_, later⟩
      · rw [same]
        exact .inr ⟨before, after⟩
      · exact .inr ⟨before, later⟩

theorem Grows.moves {r : Nat} {g g' : Ledger} (grown : Grows r g g') : Moves r g g' where
  first := grown.first
  trampoline := grown.trampoline
  space r' _ := by rw [grown.space]
  owner q := by
    rcases grown.owner q with same | ⟨free, path, taken⟩
    · exact .inl same
    · exact .inr ⟨by simp [free, Pool], by simp [taken, Pool]⟩

/-- What does not belong to `r` stays. -/
theorem Moves.keeps {r : Nat} {g g' : Ledger} (moved : Moves r g g') {q : Nat} {owner : Owner}
    (owned : g.owner q = owner) (apart : ¬ Pool r owner) : g'.owner q = owner := by
  rcases moved.owner q with same | ⟨before, _⟩
  · rw [same, owned]
  · rw [owned] at before
    exact absurd before apart

theorem Moves.kept {r : Nat} {g g' : Ledger} (moved : Moves r g g') (q : Nat) (use : Use) :
    g'.owner q = .kept use ↔ g.owner q = .kept use := by
  rcases moved.owner q with same | ⟨before, after⟩
  · rw [same]
  · constructor
    · intro owned
      simp [owned, Pool] at after
    · intro owned
      simp [owned, Pool] at before

/-- A page allocated for a mapping that failed goes back. -/
theorem Grows.giveBack {r page : Nat} {g g' : Ledger} (free : g.owner page = .free)
    (grown : Grows r (g.assign page (.kept .temporary)) g') : Grows r g (g'.assign page .free) where
  first := grown.first
  trampoline := grown.trampoline
  space := grown.space
  owner q := by
    have step := grown.owner q
    rw [assign_owner] at step ⊢
    by_cases same : q = page
    · rw [if_pos same, same, free]
      exact .inl rfl
    · rw [if_neg same] at step ⊢
      exact step

/-- A page allocated for a mapping is mapped. -/
theorem Grows.enter {r page n : Nat} {pte : Option Pte} {g g' : Ledger}
    (free : g.owner page = .free) (grown : Grows r (g.assign page (.kept .temporary)) g') :
    Moves r g ((g'.chart r n pte).assign page (.user r n)) where
  first := grown.first
  trampoline := grown.trampoline
  space r' apart := by
    funext n'
    rw [assign_space, chart_space, if_neg (fun both => apart both.1), grown.space, assign_space]
  owner q := by
    have step := grown.owner q
    rw [assign_owner] at step ⊢
    by_cases same : q = page
    · rw [if_pos same, same, free]
      exact .inr ⟨trivial, rfl⟩
    · rw [if_neg same] at step ⊢
      rcases step with unchanged | ⟨before, path, taken⟩
      · exact .inl unchanged
      · exact .inr ⟨by simp [before, Pool], by simp [taken, Pool]⟩

theorem Moves.chart (r n : Nat) (pte : Option Pte) (g : Ledger) : Moves r g (g.chart r n pte) where
  first := rfl
  trampoline := rfl
  owner _ := .inl rfl
  space r' apart := by
    funext n'
    rw [chart_space, if_neg fun both => apart both.1]

theorem Moves.assign {r page : Nat} {owner : Owner} {g : Ledger} (before : Pool r (g.owner page))
    (after : Pool r owner) : Moves r g (g.assign page owner) where
  first := rfl
  trampoline := rfl
  space _ _ := rfl
  owner q := by
    rw [assign_owner]
    by_cases same : q = page
    · rw [if_pos same, same]
      exact .inr ⟨before, after⟩
    · exact .inl (if_neg same)

end Movements

section Walks

theorem PX_lt (level va : Nat) : PX level va < 512 := Nat.mod_lt _ (by decide)

theorem PX_zero (va : Nat) : PX 0 va = va / PGSIZE % 512 := rfl

theorem PX_one (va : Nat) : PX 1 va = va / PGSIZE / 512 % 512 := by
  simp only [PX, PGSIZE, Nat.div_div_eq_div_mul]
  rfl

theorem PX_two {va : Nat} (bound : va < MAXVA) : PX 2 va = va / PGSIZE / 512 / 512 := by
  have shape : PX 2 va = va / PGSIZE / 512 / 512 % 512 := by
    simp only [PX, PGSIZE, Nat.div_div_eq_div_mul]
    rfl
  rw [shape]
  refine Nat.mod_eq_of_lt ?_
  unfold MAXVA at bound
  unfold PGSIZE
  omega

theorem vpn_place (va : Nat) : va / PGSIZE =
    va / PGSIZE % 512 + 512 * (va / PGSIZE / 512 % 512 + 512 * (va / PGSIZE / 512 / 512)) := by
  omega

/-- Below the last level an entry is valid when the ledger has the table it points to. -/
theorem Agrees.valid_iff (h : Agrees Strict ram g) {t r i : Nat} {path : List Nat}
    (owns : g.owner t = .table r path) (short : path.length < 2) (bound : i < 512) :
    (ram.pte t i).v = true ↔ ∃ q, g.owner q = .table r (i :: path) := by
  constructor
  · intro valid
    obtain ⟨q, _, ownsQ⟩ := h.down t r path i owns short bound valid id
    exact ⟨q, ownsQ⟩
  · rintro ⟨q, ownsQ⟩
    obtain ⟨_, _, t', ownsT', entry⟩ := h.up q r i path ownsQ
    rw [h.unique owns ownsT', entry]
    rfl

theorem walkLevel_alloc (h : Agrees Strict ram g) {t r : Nat} {path : List Nat}
    (owns : g.owner t = .table r path) (short : path.length < 2) (level va : Nat) :
    outcome (walkLevel t level va true)
      (fun result after => ∃ g', Agrees Strict after g' ∧ Grows r g g' ∧
        ∀ q, result = some q → g'.owner q = .table r (PX level va :: path))
      (fun _ _ => False) ram := by
  unfold walkLevel getPte
  simp only [outcome_bind, outcome_get, outcome_pure]
  split
  · rename_i valid
    obtain ⟨q, entry, ownsQ⟩ := h.down t r path _ owns short (PX_lt level va) valid id
    refine ⟨g, h, Grows.refl r g, ?_⟩
    rintro q' found
    cases found
    rw [entry]
    exact ownsQ
  · rename_i invalid
    have vacant : (ram.pte t (PX level va)).v = false := by simpa using invalid
    simp only [Bool.not_true, Bool.false_eq_true, if_false, outcome_bind]
    refine outcome_post (kalloc_spec h) fun result middle allocated => ?_
    cases result with
    | none => exact ⟨g, allocated, Grows.refl r g, by simp⟩
    | some page =>
        obtain ⟨wasFree, held⟩ := allocated
        have kept : (g.assign page (.kept .temporary)).owner page = .kept .temporary := by simp
        refine outcome_seq (memzero_spec held kept) ?_
        rintro - zeroed ⟨agrees, blank⟩
        have ownsT : (g.assign page (.kept .temporary)).owner t = .table r path := by
          rw [assign_owner, if_neg, owns]
          rintro rfl
          simp [owns] at wasFree
        have stillVacant : (zeroed.pte t (PX level va)).v = false := by
          rw [Bool.eq_false_iff, Ne, agrees.valid_iff ownsT short (PX_lt level va)]
          rintro ⟨q, ownsQ⟩
          rw [assign_owner] at ownsQ
          split at ownsQ
          · cases ownsQ
          · have valid := (h.valid_iff owns short (PX_lt level va)).mpr ⟨q, ownsQ⟩
            rw [vacant] at valid
            cases valid
        have hung := agrees.hang ownsT short (PX_lt level va) stillVacant kept blank
        refine ⟨_, hung, ⟨rfl, rfl, fun q => ?_, rfl⟩, ?_⟩
        · simp only [assign_owner]
          by_cases same : q = page
          · rw [if_pos same, same]
            exact .inr ⟨wasFree, _, rfl⟩
          · rw [if_neg same, if_neg same]
            exact .inl rfl
        · rintro q found
          cases found
          simp

theorem walk_alloc (h : Agrees Strict ram g) {r : Nat} (root : g.owner r = .table r [])
    {va : Nat} (bound : va < MAXVA) :
    outcome (walk r va true)
      (fun result after => ∃ g', Agrees Strict after g' ∧ Grows r g g' ∧
        ∀ t i, result = some (t, i) → i = va / PGSIZE % 512 ∧
          g'.owner t = .table r [va / PGSIZE / 512 % 512, va / PGSIZE / 512 / 512])
      (fun _ _ => False) ram := by
  unfold walk
  rw [if_neg (by omega)]
  refine outcome_seq (walkLevel_alloc h root (by simp) 2 va) ?_
  rintro result middle ⟨g₁, agrees₁, grows₁, found₁⟩
  cases result with
  | none => exact ⟨g₁, agrees₁, grows₁, by simp⟩
  | some level1 =>
      have owns₁ := found₁ level1 rfl
      refine outcome_seq (walkLevel_alloc agrees₁ owns₁ (by simp) 1 va) ?_
      rintro result after ⟨g₂, agrees₂, grows₂, found₂⟩
      cases result with
      | none => exact ⟨g₂, agrees₂, grows₁.trans grows₂, by simp⟩
      | some level0 =>
          refine ⟨g₂, agrees₂, grows₁.trans grows₂, ?_⟩
          rintro t i found
          cases found
          refine ⟨PX_zero va, ?_⟩
          rw [← PX_one, ← PX_two bound]
          exact found₂ level0 rfl

theorem walkLevel_find (h : Agrees Strict ram g) {t r : Nat} {path : List Nat}
    (owns : g.owner t = .table r path) (short : path.length < 2) (level va : Nat) :
    outcome (walkLevel t level va false)
      (fun result after => after = ram ∧
        match result with
        | none => ∀ q, g.owner q ≠ .table r (PX level va :: path)
        | some q => g.owner q = .table r (PX level va :: path))
      (fun _ _ => False) ram := by
  have valid_iff := h.valid_iff owns short (PX_lt level va)
  unfold walkLevel getPte
  simp only [outcome_bind, outcome_get, outcome_pure]
  split
  · rename_i valid
    obtain ⟨q, entry, ownsQ⟩ := h.down t r path _ owns short (PX_lt level va) valid id
    rw [outcome_pure, entry]
    exact ⟨rfl, ownsQ⟩
  · rename_i invalid
    exact ⟨rfl, fun q ownsQ => invalid (valid_iff.mpr ⟨q, ownsQ⟩)⟩

/-- Without allocation `walk` reads the ledger. -/
theorem walk_find (h : Agrees Strict ram g) {r : Nat} (root : g.owner r = .table r [])
    {va : Nat} (bound : va < MAXVA) :
    outcome (walk r va false)
      (fun result after => after = ram ∧
        match result with
        | none => g.space r (va / PGSIZE) = none
        | some (t, i) => i = va / PGSIZE % 512 ∧
            g.owner t = .table r [va / PGSIZE / 512 % 512, va / PGSIZE / 512 / 512])
      (fun _ _ => False) ram := by
  have missing : (∀ t, g.owner t ≠ .table r [PX 1 va, PX 2 va]) →
      g.space r (va / PGSIZE) = none := by
    intro absent
    cases maps : g.space r (va / PGSIZE) with
    | none => rfl
    | some pte =>
        obtain ⟨_, t, owns, _⟩ := h.inner r _ pte maps
        rw [← PX_one, ← PX_two bound] at owns
        exact absurd owns (absent t)
  unfold walk
  rw [if_neg (by omega)]
  refine outcome_seq (walkLevel_find h root (by simp) 2 va) ?_
  rintro result middle ⟨rfl, found⟩
  cases result with
  | none =>
      refine ⟨rfl, missing fun t owns => ?_⟩
      obtain ⟨_, _, q, ownsQ, _⟩ := h.up t r _ _ owns
      exact found q ownsQ
  | some level1 =>
      refine outcome_seq (walkLevel_find h found (by simp) 1 va) ?_
      rintro result middle ⟨rfl, found'⟩
      cases result with
      | none => exact ⟨rfl, missing found'⟩
      | some level0 =>
          refine ⟨rfl, PX_zero va, ?_⟩
          rw [← PX_one, ← PX_two bound]
          exact found'

end Walks

section Mappings

variable {r va page : Nat}

theorem mappages_one (aligned : va % PGSIZE = 0) (bound : va < MAXVA) (perm : Perm) :
    mappages r va page PGSIZE perm = mappagesFrom r perm 1 va page := by
  have small : word64 (va + PGSIZE - 1) = va + PGSIZE - 1 := by
    refine Nat.mod_eq_of_lt ?_
    unfold MAXVA at bound
    unfold PGSIZE
    omega
  have start : PGROUNDDOWN va = va := Nat.div_mul_cancel (Nat.dvd_of_mod_eq_zero aligned)
  have last : PGROUNDDOWN (word64 (va + PGSIZE - 1)) = va := by
    rw [small, PGROUNDDOWN]
    clear small bound start
    unfold PGSIZE at *
    omega
  have turns : word64 (va + 2 ^ 64 - va) / PGSIZE + 1 = 1 := by
    rw [Nat.add_sub_cancel_left, word64, Nat.mod_self, Nat.zero_div]
  unfold mappages
  rw [if_neg (by decide)]
  simp only [start, last, turns]

/-- `mappages` of one page finds a vacant entry or runs out of page-table pages. -/
theorem mappages_place (h : Agrees Strict ram g) (root : g.owner r = .table r [])
    (aligned : va % PGSIZE = 0) (bound : va < MAXVA) (perm : Perm)
    (vacant : g.space r (va / PGSIZE) = none) :
    outcome (mappages r va page PGSIZE perm)
      (fun done after => ∃ g' middle, Agrees Strict middle g' ∧ Grows r g g' ∧
        match done with
        | false => after = middle
        | true => ∃ t b a i, g'.owner t = .table r [b, a] ∧ i < 512 ∧
            va / PGSIZE = i + 512 * (b + 512 * a) ∧ (middle.pte t i).v = false ∧
            after = middle.put t i { ppn := page, v := true, perm })
      (fun _ _ => False) ram := by
  rw [mappages_one aligned bound, mappagesFrom]
  refine outcome_seq (walk_alloc h root bound) ?_
  rintro result middle ⟨g', agrees, grows, found⟩
  cases result with
  | none => exact ⟨g', middle, agrees, grows, rfl⟩
  | some entry =>
      obtain ⟨t, i⟩ := entry
      obtain ⟨index, owns⟩ := found t i rfl
      have bounded : i < 512 := by omega
      have place : va / PGSIZE = i + 512 * (va / PGSIZE / 512 % 512 +
          512 * (va / PGSIZE / 512 / 512)) := by omega
      have invalid : (middle.pte t i).v = false := by
        have reads := agrees.space_eq owns bounded place
        rw [grows.space, vacant] at reads
        by_contra valid
        rw [Bool.not_eq_false] at valid
        rw [if_pos valid] at reads
        cases reads
      simp only [getPte, setPte, mappagesFrom, outcome_bind, outcome_get, outcome_pure]
      rw [if_neg (by simp [invalid])]
      exact ⟨g', middle, agrees, grows, t, _, _, i, owns, bounded, place, invalid, rfl⟩

/-- A page of the kernel is mapped for the user, or the page tables have grown. -/
theorem mappages_user (h : Agrees Strict ram g) (root : g.owner r = .table r [])
    (aligned : va % PGSIZE = 0) (bound : va < MAXVA) {perm : Perm} (readable : perm.r = true)
    (vacant : g.space r (va / PGSIZE) = none) (ordinary : ¬ Special (va / PGSIZE))
    {use : Use} (kept : g.owner page = .kept use) :
    outcome (mappages r va page PGSIZE perm)
      (fun done after => ∃ g', Grows r g g' ∧
        match done with
        | false => Agrees Strict after g'
        | true => Agrees Strict after
            ((g'.chart r (va / PGSIZE) (some { ppn := page, v := true, perm })).assign page
              (.user r (va / PGSIZE))))
      (fun _ _ => False) ram := by
  refine outcome_post (mappages_place h root aligned bound perm vacant) ?_
  rintro done after ⟨g', middle, agrees, grows, rest⟩
  refine ⟨g', grows, ?_⟩
  cases done with
  | false => exact rest ▸ agrees
  | true =>
      obtain ⟨t, b, a, i, owns, bounded, place, invalid, rfl⟩ := rest
      exact agrees.enter owns bounded place invalid ordinary (grows.keeps kept (by simp)) readable

/-- One of the two special pages is mapped, or the page tables have grown. -/
theorem mappages_special (h : Agrees Strict ram g) (root : g.owner r = .table r [])
    (aligned : va % PGSIZE = 0) (bound : va < MAXVA) {perm : Perm} (readable : perm.r = true)
    (vacant : g.space r (va / PGSIZE) = none) (special : Special (va / PGSIZE)) :
    outcome (mappages r va page PGSIZE perm)
      (fun done after => ∃ g', Grows r g g' ∧
        match done with
        | false => Agrees Strict after g'
        | true => Agrees Strict after
            (g'.chart r (va / PGSIZE) (some { ppn := page, v := true, perm })))
      (fun _ _ => False) ram := by
  refine outcome_post (mappages_place h root aligned bound perm vacant) ?_
  rintro done after ⟨g', middle, agrees, grows, rest⟩
  refine ⟨g', grows, ?_⟩
  cases done with
  | false => exact rest ▸ agrees
  | true =>
      obtain ⟨t, b, a, i, owns, bounded, place, invalid, rfl⟩ := rest
      exact agrees.fasten owns bounded place special { ppn := page, v := true, perm }
        fun _ => readable

/-- The page goes to the free list before its entry is cleared; for the ledger the order
makes no difference. -/
theorem kfree_clear (h : Agrees loose ram g) {t r b a i n : Nat}
    (owns : g.owner t = .table r [b, a]) (bound : i < 512) (place : n = i + 512 * (b + 512 * a))
    (ordinary : ¬ Special n) {pte : Pte} (maps : g.space r n = some pte) :
    outcome (do kfree pte.ppn; setPte t i .zero)
      (fun _ after => Agrees loose after ((g.chart r n none).assign pte.ppn .free))
      (fun _ _ => False) ram := by
  have owned := (h.target r n pte maps).2 ordinary
  have apart : t ≠ pte.ppn := by
    intro same
    simp [← same, owns] at owned
  have within := h.inside (q := pte.ppn) (by simp [owned])
  have freed := kfree_spec (h.remove owns bound place ordinary maps)
    (show _ = Owner.kept .temporary by rw [assign_owner, if_pos rfl])
  have bounded : ¬ (pte.ppn < ram.first ∨ pte.ppn ≥ stopPage) := by
    rw [h.first]
    omega
  have commutes : ({ ram.memset pte.ppn 1 with freelist := pte.ppn :: ram.freelist } : Ram).put
        t i .zero =
      { (ram.put t i .zero).memset pte.ppn 1 with freelist := pte.ppn :: ram.freelist } := by
    simp only [Ram.put, Ram.memset, Function.update_of_ne apart, Function.update_comm apart]
  unfold kfree setPte
  rw [outcome_bind, outcome_bind, outcome_get, if_neg bounded]
  unfold kfree at freed
  rw [outcome_bind, outcome_get, if_neg (by exact bounded), assign_assign] at freed
  change Agrees _ (Ram.put _ t i .zero) _
  rw [commutes]
  exact freed

/-- One turn of `uvmunmap` that frees the page. -/
theorem uvmunmapPage_user (h : Agrees Strict ram g) (root : g.owner r = .table r [])
    (bound : va < MAXVA) (ordinary : ¬ Special (va / PGSIZE)) {pte : Pte}
    (maps : g.space r (va / PGSIZE) = some pte) :
    outcome (uvmunmapPage r true va)
      (fun _ after =>
        Agrees Strict after ((g.chart r (va / PGSIZE) none).assign pte.ppn .free))
      (fun _ _ => False) ram := by
  unfold uvmunmapPage
  refine outcome_seq (walk_find h root bound) ?_
  rintro result middle ⟨rfl, found⟩
  cases result with
  | none =>
      rw [maps] at found
      cases found
  | some entry =>
      obtain ⟨t, i⟩ := entry
      obtain ⟨rfl, owns⟩ := found
      have bounded : va / PGSIZE % 512 < 512 := Nat.mod_lt _ (by decide)
      have reads := h.space_eq owns bounded (vpn_place va)
      rw [maps] at reads
      split at reads
      · rename_i valid
        cases reads
        have readable := (h.target r _ _ maps).1
        simp only [getPte, outcome_bind, outcome_get, outcome_pure]
        rw [if_neg (by simp [valid]), if_neg, if_pos trivial]
        · exact kfree_clear h owns bounded (vpn_place va) ordinary maps
        · intro none
          rw [none] at readable
          cases readable
      · cases reads

/-- One turn of `uvmunmap` at one of the special pages. -/
theorem uvmunmapPage_special (h : Agrees Strict ram g) (root : g.owner r = .table r [])
    (bound : va < MAXVA) (special : Special (va / PGSIZE)) {pte : Pte}
    (maps : g.space r (va / PGSIZE) = some pte) :
    outcome (uvmunmapPage r false va)
      (fun _ after => Agrees Strict after (g.chart r (va / PGSIZE) none))
      (fun _ _ => False) ram := by
  unfold uvmunmapPage
  refine outcome_seq (walk_find h root bound) ?_
  rintro result middle ⟨rfl, found⟩
  cases result with
  | none =>
      rw [maps] at found
      cases found
  | some entry =>
      obtain ⟨t, i⟩ := entry
      obtain ⟨rfl, owns⟩ := found
      have bounded : va / PGSIZE % 512 < 512 := Nat.mod_lt _ (by decide)
      have reads := h.space_eq owns bounded (vpn_place va)
      rw [maps] at reads
      split at reads
      · rename_i valid
        cases reads
        have readable := (h.target r _ _ maps).1
        simp only [getPte, outcome_bind, outcome_get, outcome_pure]
        rw [if_neg (by simp [valid]), if_neg, if_neg (by simp)]
        · exact h.fasten owns bounded (vpn_place va) special .zero (by simp [Pte.zero])
        · intro none
          rw [none] at readable
          cases readable
      · cases reads

end Mappings

end PaddleOs.Vm
