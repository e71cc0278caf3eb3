import PaddleOs.CopyOut

/-!
Whole address spaces: `proc_pagetable` makes one, `uvmcopy` fills one from another and
`proc_freepagetable` takes one down. What fails on the way gives back all it took.
-/

namespace PaddleOs.Vm

open Foundation.Outcome Foundation.View

variable {loose : Nat → Nat → Prop} {ram : Ram} {g : Ledger} {r : Nat}

section Trees

/-- Above every page-table page there are those that lead to it. -/
theorem Agrees.above (h : Agrees loose ram g) {path : List Nat} (below : List Nat) :
    ∀ {q : Nat}, g.owner q = .table r (below ++ path) → ∃ t, g.owner t = .table r path := by
  induction below with
  | nil => exact fun owns => ⟨_, owns⟩
  | cons i below ih =>
      intro q owns
      obtain ⟨-, -, t, owns', -⟩ := h.up q r i (below ++ path) owns
      exact ih owns'

/-- A table that is below an entry of another one is reached through that entry. -/
theorem Agrees.entry_valid (h : Agrees loose ram g) {q t i : Nat} {path below : List Nat}
    (owns : g.owner q = .table r below) (suffix : i :: path <:+ below)
    (table : g.owner t = .table r path) : i < 512 ∧ (ram.pte t i).v = true := by
  obtain ⟨front, rfl⟩ := suffix
  obtain ⟨child, owner⟩ := h.above front owns
  obtain ⟨-, bound, t', owns', entry⟩ := h.up child r i path owner
  rw [h.unique table owns', entry]
  exact ⟨bound, rfl⟩

/-- An entry whose table has gone is cleared. -/
theorem Agrees.unhook {t i : Nat} {path : List Nat}
    (h : Agrees (fun t' j => loose t' j ∨ t' = t ∧ j = i) ram g) (owns : g.owner t = .table r path)
    (short : path.length < 2) (gone : ∀ q, g.owner q ≠ .table r (i :: path)) :
    Agrees loose (ram.put t i .zero) g where
  first := h.first
  trampoline := h.trampoline
  base := h.base
  outside := h.outside
  nodup := h.nodup
  free := h.free
  root := h.root
  up := by
    intro q r' i' path' owner
    obtain ⟨short', bound, t', owns', entry⟩ := h.up q r' i' path' owner
    refine ⟨short', bound, t', owns', ?_⟩
    rw [put_pte, if_neg ?_, entry]
    rintro ⟨rfl, rfl⟩
    rw [owns] at owns'
    cases owns'
    exact gone q owner
  down := by
    intro t' r' path' i' owns' short' bound valid strict
    rw [put_pte] at valid ⊢
    split at valid
    · cases valid
    · rename_i other
      rw [if_neg other]
      exact h.down t' r' path' i' owns' short' bound valid fun either =>
        either.elim strict other
  leaf := by
    intro t' r' b a i' owns' bound valid
    have apart : ¬ (t' = t ∧ i' = i) := by
      rintro ⟨rfl, rfl⟩
      rw [owns] at owns'
      cases owns'
      simp at short
    rw [put_pte, if_neg apart] at valid ⊢
    exact h.leaf t' r' b a i' owns' bound valid
  inner := by
    intro r' n pte maps
    obtain ⟨valid, t', owns', entry⟩ := h.inner r' n pte maps
    refine ⟨valid, t', owns', ?_⟩
    rw [put_pte, if_neg ?_, entry]
    rintro ⟨rfl, -⟩
    rw [owns] at owns'
    cases owns'
    simp at short
  target := h.target
  mapped := h.mapped

/-- The page-table pages at `path` and below have gone to the free list. -/
structure Uprooted (r : Nat) (path : List Nat) (g g' : Ledger) : Prop where
  first : g'.first = g.first
  trampoline : g'.trampoline = g.trampoline
  space : g'.space = g.space
  gone : ∀ q below, g.owner q = .table r below → path <:+ below → g'.owner q = .free
  rest : ∀ q, (∀ below, g.owner q = .table r below → ¬ path <:+ below) → g'.owner q = g.owner q

/-- The page-table pages below the first `i` entries have gone. -/
structure Stripped (r : Nat) (path : List Nat) (i : Nat) (g g' : Ledger) : Prop where
  first : g'.first = g.first
  trampoline : g'.trampoline = g.trampoline
  space : g'.space = g.space
  gone : ∀ q below j, j < i → g.owner q = .table r below → j :: path <:+ below → g'.owner q = .free
  rest : ∀ q, (∀ below j, j < i → g.owner q = .table r below → ¬ j :: path <:+ below) →
    g'.owner q = g.owner q

theorem Stripped.start (r : Nat) (path : List Nat) (g : Ledger) : Stripped r path 0 g g :=
  ⟨rfl, rfl, rfl, fun _ _ _ below => absurd below (Nat.not_lt_zero _), fun _ _ => rfl⟩

theorem suffix_cons_ne (i : Nat) (path : List Nat) : ¬ i :: path <:+ path := by
  intro suffix
  have := suffix.length_le
  simp at this

/-- Below different entries there are different tables. -/
theorem suffix_entry {i j : Nat} {path below : List Nat} (left : i :: path <:+ below)
    (right : j :: path <:+ below) : i = j := by
  have same := List.suffix_of_suffix_length_le left right (by simp)
  exact (List.cons.inj (same.eq_of_length (by simp))).1

theorem Stripped.keeps {path : List Nat} {i t : Nat} {g' : Ledger} (stripped : Stripped r path i g g')
    (owns : g.owner t = .table r path) : g'.owner t = .table r path := by
  rw [stripped.rest t, owns]
  intro below j _ owner
  rw [owns] at owner
  cases owner
  exact suffix_cons_ne j path

theorem Stripped.was {path below : List Nat} {i q : Nat} {g' : Ledger}
    (stripped : Stripped r path i g g') (owns : g'.owner q = .table r below) :
    g.owner q = .table r below := by
  by_cases under : ∃ below j, j < i ∧ g.owner q = .table r below ∧ j :: path <:+ below
  · obtain ⟨below', j, early, owner, suffix⟩ := under
    rw [stripped.gone q below' j early owner suffix] at owns
    cases owns
  · rwa [stripped.rest q fun below' j early owner suffix =>
      under ⟨below', j, early, owner, suffix⟩] at owns

/-- The table itself follows when nothing hangs below it any more. -/
theorem Stripped.last {path : List Nat} {t : Nat} {g' : Ledger} (h : Agrees loose ram g)
    (stripped : Stripped r path 512 g g') (owns : g.owner t = .table r path) :
    Uprooted r path g (g'.assign t .free) where
  first := stripped.first
  trampoline := stripped.trampoline
  space := stripped.space
  gone q below owner suffix := by
    rw [assign_owner]
    split
    · rfl
    · rename_i other
      obtain ⟨front, rfl⟩ := suffix
      rcases List.eq_nil_or_concat front with rfl | ⟨front, j, rfl⟩
      · exact absurd (h.unique owner owns) other
      · have suffix : j :: path <:+ front.concat j ++ path := ⟨front, by simp⟩
        exact stripped.gone q _ j (h.entry_valid owner suffix owns).1 owner suffix
  rest q outside := by
    have other : q ≠ t := by
      rintro rfl
      exact outside path owns (List.suffix_refl _)
    rw [assign_owner, if_neg other]
    exact stripped.rest q fun below j _ owner suffix =>
      outside below owner ((List.suffix_cons j path).trans suffix)

/-- Nothing hangs below the next entry. -/
theorem Stripped.skip {path : List Nat} {i : Nat} {g' : Ledger} (stripped : Stripped r path i g g')
    (empty : ∀ q below, g'.owner q = .table r below → ¬ i :: path <:+ below) :
    Stripped r path (i + 1) g g' where
  first := stripped.first
  trampoline := stripped.trampoline
  space := stripped.space
  gone q below j bound owner suffix := by
    by_cases early : j < i
    · exact stripped.gone q below j early owner suffix
    · obtain rfl : j = i := by omega
      refine absurd suffix (empty q below ?_)
      rw [stripped.rest q, owner]
      intro below' j' early' owner' suffix'
      rw [owner] at owner'
      cases owner'
      exact early (suffix_entry suffix suffix' ▸ early')
  rest q outside := stripped.rest q fun below j bound => outside below j (by omega)

/-- What hangs below the next entry is uprooted. -/
theorem Stripped.fell {path : List Nat} {i : Nat} {g' g'' : Ledger}
    (stripped : Stripped r path i g g') (uprooted : Uprooted r (i :: path) g' g'') :
    Stripped r path (i + 1) g g'' where
  first := uprooted.first.trans stripped.first
  trampoline := uprooted.trampoline.trans stripped.trampoline
  space := uprooted.space.trans stripped.space
  gone q below j bound owner suffix := by
    by_cases early : j < i
    · have free := stripped.gone q below j early owner suffix
      rw [uprooted.rest q (fun below' owner' => by rw [free] at owner'; cases owner'), free]
    · obtain rfl : j = i := by omega
      refine uprooted.gone q below ?_ suffix
      rw [stripped.rest q, owner]
      intro below' j' early' owner' suffix'
      rw [owner] at owner'
      cases owner'
      exact early (suffix_entry suffix suffix' ▸ early')
  rest q outside := by
    have same := stripped.rest q fun below j bound => outside below j (by omega)
    rw [uprooted.rest q (fun below owner => ?_), same]
    rw [same] at owner
    exact outside below i (by omega) owner

theorem kfree_pte (page : Nat) : outcome (kfree page)
    (fun _ after => ∀ q, q ≠ page → after.pte q = ram.pte q) (fun _ _ => True) ram := by
  unfold kfree
  rw [outcome_bind, outcome_get]
  split
  · trivial
  · exact fun q other => Function.update_of_ne other _ _

/-- One turn of `freewalk`. -/
theorem freewalk_turn {depth t i : Nat} {path : List Nat} {g' : Ledger} (h : Agrees loose ram g')
    (owns : g'.owner t = .table r path) (bound : i < 512) (strict : ¬ loose t i)
    (level : path.length + depth = 2) (unmapped : ∀ n, g'.space r n = none)
    (stripped : Stripped r path i g g')
    (child : ∀ q, g'.owner q = .table r (i :: path) →
      outcome (freewalk depth q) (fun _ after => ∃ g'',
        Agrees (fun t' j => loose t' j ∨ t' = t ∧ j = i) after g'' ∧ Uprooted r (i :: path) g' g'' ∧
          ∀ q', (∀ below, g'.owner q' = .table r below → ¬ i :: path <:+ below) →
            after.pte q' = ram.pte q') (fun _ _ => False) ram) :
    outcome (do
        let pte ← getPte t i
        if pte.isTable then
          freewalk depth pte.ppn
          setPte t i .zero
        else if pte.v then throw .freewalkLeaf)
      (fun _ after => ∃ g'', Agrees loose after g'' ∧ Stripped r path (i + 1) g g'' ∧
        (after.pte t i).v = false ∧ (∀ j, j ≠ i → after.pte t j = ram.pte t j) ∧
        ∀ q, q ≠ t → (∀ below, g'.owner q = .table r below → ¬ i :: path <:+ below) →
          after.pte q = ram.pte q)
      (fun _ _ => False) ram := by
  refine getPte_then ?_
  by_cases valid : (ram.pte t i).v = true
  · have short : path.length < 2 := by
      by_contra deep
      have two : path.length = 2 := by omega
      obtain ⟨b, a, rfl⟩ := List.length_eq_two.mp two
      have leaf := h.leaf t r b a i owns bound valid
      rw [unmapped] at leaf
      cases leaf
    obtain ⟨q, entry, owner⟩ := h.down t r path i owns short bound valid strict
    have table : (ram.pte t i).isTable = true := by
      rw [entry]
      rfl
    rw [if_pos table]
    have target : (ram.pte t i).ppn = q := by
      rw [entry]
      rfl
    rw [target]
    refine outcome_seq (child q owner) ?_
    rintro - after ⟨g'', agrees, uprooted, kept⟩
    have apart : ∀ below, g'.owner t = .table r below → ¬ i :: path <:+ below := by
      intro below owner'
      rw [owns] at owner'
      cases owner'
      exact suffix_cons_ne i path
    have owns'' : g''.owner t = .table r path := by rw [uprooted.rest t apart, owns]
    have gone : ∀ q', g''.owner q' ≠ .table r (i :: path) := by
      intro q' owner'
      by_cases was : ∃ below, g'.owner q' = .table r below ∧ i :: path <:+ below
      · obtain ⟨below, before, suffix⟩ := was
        rw [uprooted.gone q' below before suffix] at owner'
        cases owner'
      · rw [uprooted.rest q' fun below before suffix => was ⟨below, before, suffix⟩] at owner'
        exact was ⟨_, owner', List.suffix_refl _⟩
    refine ⟨g'', agrees.unhook owns'' short gone, stripped.fell uprooted, ?_, fun j other => ?_,
      fun q' other outside => ?_⟩
    · change ((after.put t i .zero).pte t i).v = false
      rw [put_pte, if_pos ⟨rfl, rfl⟩]
      rfl
    · change (after.put t i .zero).pte t j = ram.pte t j
      rw [put_pte, if_neg fun both => other both.2, kept t apart]
    · exact (Function.update_of_ne other _ _).trans (kept q' outside)
  · have invalid : (ram.pte t i).v = false := by simpa using valid
    have noTable : (ram.pte t i).isTable = false := by simp [Pte.isTable, invalid]
    rw [noTable, if_neg Bool.false_ne_true, if_neg valid]
    refine ⟨g', h, stripped.skip fun q below owner suffix => ?_, invalid, fun _ _ => rfl,
      fun _ _ _ => rfl⟩
    exact valid (h.entry_valid owner suffix owns).2

/-- `freewalk` of a table below which nothing is mapped frees the whole tree. -/
theorem freewalk_spec (depth : Nat) :
    ∀ (loose : Nat → Nat → Prop) (ram : Ram) (g : Ledger) (t : Nat) (path : List Nat),
      Agrees loose ram g → g.owner t = .table r path → path.length + depth = 3 →
      (∀ n, g.space r n = none) →
      (∀ i above t', path = i :: above → g.owner t' = .table r above → loose t' i) →
      (∀ q below i, g.owner q = .table r below → path <:+ below → ¬ loose q i) →
      outcome (freewalk depth t)
        (fun _ after => ∃ g', Agrees loose after g' ∧ Uprooted r path g g' ∧
          ∀ q, (∀ below, g.owner q = .table r below → ¬ path <:+ below) → after.pte q = ram.pte q)
        (fun _ _ => False) ram := by
  induction depth with
  | zero =>
      intro loose ram g t path h owns level
      have := h.path_length owns
      omega
  | succ depth ih =>
      intro loose ram g t path h owns level unmapped hangs strict
      rw [freewalk]
      have inside : ∀ i, ¬ loose t i := fun i => strict t path i owns (List.suffix_refl _)
      refine outcome_seq (loop_outcome (fun i state => ∃ g', Agrees loose state g' ∧
        Stripped r path i g g' ∧ (∀ j, j < i → (state.pte t j).v = false) ∧
        ∀ q, (∀ below, g.owner q = .table r below → ¬ path <:+ below) → state.pte q = ram.pte q)
        512 0 ram ⟨g, h, .start r path g, fun j below => by omega, fun _ _ => rfl⟩ ?_) ?_
      · rintro i state - bound ⟨g', agrees, stripped, cleared, others⟩
        have owns' := stripped.keeps owns
        have unmapped' : ∀ n, g'.space r n = none := fun n => by rw [stripped.space, unmapped]
        have bound' : i < 512 := by omega
        refine outcome_post (freewalk_turn agrees owns' bound' (inside i) (by omega) unmapped' stripped
          fun q owner => ih _ state g' q (i :: path) (agrees.mono fun _ _ => .inl) owner
            (by simp; omega) unmapped' ?_ ?_) ?_
        · rintro i' above t' same owner'
          cases same
          exact .inr ⟨agrees.unique owner' owns', rfl⟩
        · rintro q' below j owner' suffix (early | ⟨rfl, -⟩)
          · exact strict q' below j (stripped.was owner') ((List.suffix_cons i path).trans suffix) early
          · rw [owns'] at owner'
            cases owner'
            exact suffix_cons_ne i path suffix
        · rintro - after ⟨g'', agrees'', stripped'', gone, same, others'⟩
          refine ⟨g'', agrees'', stripped'', fun j below => ?_, fun q outside => ?_⟩
          · by_cases last : j = i
            · rwa [last]
            · rw [same j last]
              exact cleared j (by omega)
          · have other : q ≠ t := by
              rintro rfl
              exact outside path owns (List.suffix_refl _)
            refine (others' q other fun below owner suffix => ?_).trans (others q outside)
            exact outside below (stripped.was owner) ((List.suffix_cons i path).trans suffix)
      · rintro - state ⟨g', agrees, stripped, cleared, others⟩
        have owns' := stripped.keeps owns
        have fallen := agrees.fell owns' (fun i bound => cleared i (by omega)) fun i above t' same owner' =>
          hangs i above t' same (stripped.was owner')
        have kept : (g'.assign t (.kept .temporary)).owner t = .kept .temporary := by simp
        refine outcome_mono (outcome_and (kfree_spec fallen kept) (kfree_pte t)) ?_
          fun _ _ failed => failed.1
        rintro - after ⟨agrees', same⟩
        rw [assign_assign] at agrees'
        refine ⟨_, agrees', stripped.last h owns, fun q outside => ?_⟩
        have other : q ≠ t := by
          rintro rfl
          exact outside path owns (List.suffix_refl _)
        exact (same q other).trans (others q outside)

end Trees

section Teardown

/-- All pages of the address space at `r` are free. -/
structure Gone (r : Nat) (g g' : Ledger) : Prop where
  first : g'.first = g.first
  trampoline : g'.trampoline = g.trampoline
  gone : ∀ q, Pool r (g.owner q) → g'.owner q = .free
  rest : ∀ q, ¬ Pool r (g.owner q) → g'.owner q = g.owner q
  none : ∀ n, g'.space r n = none
  space : ∀ r', r' ≠ r → g'.space r' = g.space r'

theorem Moves.gone {g' g'' : Ledger} (moved : Moves r g g') (gone : Gone r g' g'') : Gone r g g'' where
  first := gone.first.trans moved.first
  trampoline := gone.trampoline.trans moved.trampoline
  gone q pool := by
    refine gone.gone q ?_
    rcases moved.owner q with same | ⟨-, after⟩
    · rwa [same]
    · exact after
  rest q outside := by
    have same := moved.keeps rfl outside
    rw [gone.rest q (by rwa [same]), same]
  none := gone.none
  space r' other := (gone.space r' other).trans (moved.space r' other)

theorem Uprooted.all {g' : Ledger} (h : Agrees loose ram g) (unmapped : ∀ n, g.space r n = none)
    (uprooted : Uprooted r [] g g') : Gone r g g' where
  first := uprooted.first
  trampoline := uprooted.trampoline
  gone q pool := by
    cases owned : g.owner q with
    | free =>
        rw [uprooted.rest q (fun below owner => ?_), owned]
        rw [owned] at owner
        cases owner
    | outside | kept _ => simp [Pool, owned] at pool
    | table r' path =>
        obtain rfl : r' = r := by simpa [Pool, owned] using pool
        exact uprooted.gone q path owned (List.nil_suffix)
    | user r' n =>
        obtain rfl : r' = r := by simpa [Pool, owned] using pool
        obtain ⟨-, pte, maps, -⟩ := h.mapped q r' n owned
        rw [unmapped] at maps
        cases maps
  rest q outside := uprooted.rest q fun below owner _ => outside (by rw [owner]; rfl)
  none n := by rw [uprooted.space, unmapped]
  space r' _ := by rw [uprooted.space]

/-- A page table that maps nothing is freed. -/
theorem freewalk_root (h : Agrees Strict ram g) (root : g.owner r = .table r [])
    (unmapped : ∀ n, g.space r n = none) :
    outcome (freewalk 3 r) (fun _ after => ∃ g', Agrees Strict after g' ∧ Gone r g g')
      (fun _ _ => False) ram := by
  refine outcome_post (freewalk_spec 3 Strict ram g r [] h root rfl unmapped
    (fun _ _ _ same => nomatch same) fun _ _ _ _ _ strict => strict) ?_
  rintro - after ⟨g', agrees, uprooted, -⟩
  exact ⟨g', agrees, uprooted.all h unmapped⟩

theorem uvmfree_spec (h : Agrees Strict ram g) (root : g.owner r = .table r []) {sz : Nat}
    (low : pagesOf sz ≤ TRAPFRAME / PGSIZE) (pages : ∀ k, (g.space r k).isSome = true ↔ k < pagesOf sz) :
    outcome (uvmfree r sz) (fun _ after => ∃ g', Agrees Strict after g' ∧ Gone r g g')
      (fun _ _ => False) ram := by
  unfold uvmfree
  by_cases positive : sz > 0
  · rw [if_pos positive]
    have few := h.few low fun k below => (pages k).mpr below
    have rounded : PGROUNDUP sz / PGSIZE = pagesOf sz := by
      rw [roundup_eq, page_div]
      unfold pagesOf PGSIZE at few
      unfold PGSIZE MAXVA
      omega
    have unmaps := uvmunmap_user h root (a := 0) (m := pagesOf sz) (by omega)
      fun k _ below => (pages k).mpr (by omega)
    rw [Nat.zero_mul] at unmaps
    rw [rounded]
    refine outcome_seq unmaps ?_
    rintro - middle ⟨g', edited, space⟩
    refine outcome_post (freewalk_root edited.agrees edited.root fun n => ?_) ?_
    · rw [space]
      split
      · rfl
      · rename_i above
        by_contra some
        exact above ⟨Nat.zero_le n, by simpa using (pages n).mp (Option.isSome_iff_ne_none.mpr some)⟩
    · rintro - after ⟨g'', agrees, gone⟩
      exact ⟨g'', agrees, edited.moves.gone gone⟩
  · rw [if_neg positive]
    refine freewalk_root h root fun n => ?_
    by_contra some
    have below := (pages n).mp (Option.isSome_iff_ne_none.mpr some)
    obtain rfl : sz = 0 := by omega
    exact absurd below (by simp [pagesOf, PGSIZE])

variable {trampoline trapframe : Nat}

/-- `proc_freepagetable` of an address space in its shape frees all of it. -/
theorem procFreepagetable_spec (h : Agrees Strict ram g) (root : g.owner r = .table r []) {sz : Nat}
    (shape : Shape (g.space r) trampoline trapframe (pagesOf sz)) :
    outcome (procFreepagetable r sz) (fun _ after => ∃ g', Agrees Strict after g' ∧ Gone r g g')
      (fun _ _ => False) ram := by
  have code : TRAMPOLINE = TRAMPOLINE / PGSIZE * PGSIZE := by decide
  have frame : TRAPFRAME = TRAPFRAME / PGSIZE * PGSIZE := by decide
  have apart : TRAPFRAME / PGSIZE ≠ TRAMPOLINE / PGSIZE := by decide
  unfold procFreepagetable
  have first := uvmunmap_special h root (n := TRAMPOLINE / PGSIZE) (.inl rfl) (by rw [shape.code]; rfl)
  rw [← code] at first
  refine outcome_seq first ?_
  intro _ middle edited
  have second := uvmunmap_special edited.agrees edited.root (n := TRAPFRAME / PGSIZE) (.inr rfl) (by
    rw [chart_space, if_neg fun both => apart both.2, shape.frame]
    rfl)
  rw [← frame] at second
  refine outcome_seq second ?_
  intro _ middle' edited'
  refine outcome_post (uvmfree_spec edited'.agrees edited'.root shape.low fun k => ?_) ?_
  · rw [chart_space]
    split
    · rename_i special
      have := shape.low
      simp only [Option.isSome_none, Bool.false_eq_true, false_iff]
      omega
    · rename_i ordinary
      rw [chart_space]
      split
      · rename_i special
        have := shape.low
        rw [frame_page] at this
        rw [trampoline_page] at special
        simp only [Option.isSome_none, Bool.false_eq_true, false_iff]
        omega
      · rename_i ordinary'
        refine ⟨fun some => (shape.only k some).resolve_right ?_, shape.pages k⟩
        rintro (same | same)
        · exact ordinary' ⟨rfl, same⟩
        · exact ordinary ⟨rfl, same⟩
  · rintro - after ⟨g', agrees, gone⟩
    exact ⟨g', agrees, (edited.trans edited').moves.gone gone⟩

end Teardown

section Creation

variable {trapframe : Nat}

/-- An address space that was not there before and is gone again. -/
theorem Gone.undo {g' : Ledger} (gone : Gone r g g') (h : Agrees loose ram g)
    (free : g.owner r = .free) : g' = g := by
  have absent : g.owner r ≠ .table r [] := by rw [free]; exact fun same => nomatch same
  have owner : g'.owner = g.owner := by
    funext q
    by_cases pool : Pool r (g.owner q)
    · rw [gone.gone q pool]
      cases owned : g.owner q with
      | free => rfl
      | outside | kept _ => simp [Pool, owned] at pool
      | table r' path =>
          obtain rfl : r' = r := by simpa [Pool, owned] using pool
          exact absurd (h.rooted owned) absent
      | user r' n =>
          obtain rfl : r' = r := by simpa [Pool, owned] using pool
          obtain ⟨-, pte, maps, -⟩ := h.mapped q r' n owned
          exact absurd (h.space_rooted maps) absent
    · exact gone.rest q pool
  have space : g'.space = g.space := by
    funext r' n
    by_cases same : r' = r
    · rw [same, gone.none, h.space_none absent]
    · rw [gone.space r' same]
  exact Ledger.ext gone.first gone.trampoline owner space

/-- A call took pages and gave all of them back. -/
structure Undone (g : Ledger) (ram after : Ram) : Prop where
  agrees : Agrees Strict after g
  byte : ∀ q, g.owner q ≠ .free → after.byte q = ram.byte q

theorem undone_of_swaps {middle after : Ram} (h : Agrees Strict ram g) (agrees : Agrees Strict after g)
    (taken : Takes ram middle) (given : Gives middle after) : Undone g ram after where
  agrees := agrees
  byte q used := taken.back given (fun free => used ((h.free q).mp free)) fun free =>
    used ((agrees.free q).mp free)

/-- A blank page becomes the root of a page table. -/
theorem uvmcreate_spec (h : Agrees Strict ram g) :
    outcome uvmcreate
      (fun got after =>
        match got with
        | none => Agrees Strict after g
        | some page => g.owner page = .free ∧ Edited page g after (g.assign page (.table page [])))
      (fun _ _ => False) ram := by
  unfold uvmcreate
  refine outcome_seq (kalloc_spec h) ?_
  intro got middle allocated
  cases got with
  | none => exact allocated
  | some page =>
      obtain ⟨free, held⟩ := allocated
      have kept : (g.assign page (.kept .temporary)).owner page = .kept .temporary := by simp
      refine outcome_seq (memzero_spec held kept) ?_
      rintro - after ⟨agrees, blank⟩
      have planted := agrees.plant kept blank
      rw [assign_assign] at planted
      exact ⟨free, planted, Moves.assign (by rw [free]; trivial) rfl, by simp⟩

theorem uvmcreate_takes : Along Takes uvmcreate :=
  kalloc_memzero (takes_closed.pure _) fun _ => takes_closed.pure _

/-- `proc_pagetable` makes an address space of no user pages, or takes nothing. -/
theorem procPagetable_spec (h : Agrees Strict ram g) (trapframe : Nat) :
    outcome (procPagetable trapframe)
      (fun got after =>
        match got with
        | none => Undone g ram after
        | some r => g.owner r = .free ∧ Takes ram after ∧
            ∃ g', Edited r g after g' ∧ Shape (g'.space r) g.trampoline trapframe 0)
      (fun _ _ => False) ram := by
  have code : TRAMPOLINE % PGSIZE = 0 := by decide
  have frame : TRAPFRAME % PGSIZE = 0 := by decide
  have apart : TRAPFRAME / PGSIZE ≠ TRAMPOLINE / PGSIZE := by decide
  unfold procPagetable
  refine outcome_seq (uvmcreate_takes.and (uvmcreate_spec h)) ?_
  rintro got made ⟨created, taken⟩
  cases got with
  | none =>
      exact ⟨created, fun q used => taken.byte q fun free => used ((h.free q).mp free)⟩
  | some r =>
      obtain ⟨free, edited⟩ := created
      have absent : g.owner r ≠ .table r [] := by rw [free]; exact fun same => nomatch same
      have bare : ∀ n, (g.assign r (.table r [])).space r n = none := by
        intro n
        rw [assign_space, h.space_none absent]
      -- A table that maps nothing any more is freed, and nothing is left of it.
      have undo : ∀ (middle state : Ram) (g' : Ledger), Takes ram middle → Gives middle state →
          Edited r g state g' → (∀ n, g'.space r n = none) →
          outcome (do
            uvmfree r 0
            return (none : Option Nat))
            (fun got after =>
              match got with
              | none => Undone g ram after
              | some r => g.owner r = .free ∧ Takes ram after ∧
                  ∃ g', Edited r g after g' ∧ Shape (g'.space r) g.trampoline trapframe 0)
            (fun _ _ => False) state := by
        intro middle state g' taken given edited empty
        have pages : ∀ k, (g'.space r k).isSome = true ↔ k < pagesOf 0 := by
          intro k
          simp [empty, pagesOf, PGSIZE]
        refine outcome_seq ((uvmfree_gives r 0).and
          (uvmfree_spec edited.agrees edited.root (Nat.zero_le _) pages)) ?_
        rintro - after ⟨⟨g'', agrees, gone⟩, given'⟩
        rw [(edited.moves.gone gone).undo h free] at agrees
        exact undone_of_swaps h agrees taken (given.trans given')
      rw [outcome_bind, outcome_get]
      have text : made.trampoline = g.trampoline := edited.agrees.trampoline
      rw [text]
      refine outcome_seq ((mappages_takes _ _ _ _ _).and
        (mappages_special edited.agrees edited.root code (by decide) rfl (bare _) (.inl rfl))) ?_
      rintro done middle ⟨⟨grown, grows, mapped⟩, taken'⟩
      have taken₁ := taken.trans taken'
      have root₁ := grows.keeps edited.root (by simp)
      have bare₁ : ∀ n, grown.space r n = none := fun n => by rw [grows.space, bare]
      cases done with
      | false =>
          exact undo middle middle grown taken₁ (Gives.refl _)
            ⟨mapped, edited.moves.trans grows.moves, root₁⟩ bare₁
      | true =>
          have moves₂ := (edited.moves.trans grows.moves).trans (Moves.chart r (TRAMPOLINE / PGSIZE)
            (some { ppn := g.trampoline, v := true, perm := trampolinePerm }) grown)
          have vacant : (grown.chart r (TRAMPOLINE / PGSIZE) (some
              { ppn := g.trampoline, v := true, perm := trampolinePerm })).space r (TRAPFRAME / PGSIZE) =
              none := by
            rw [chart_space, if_neg fun both => apart both.2, bare₁]
          refine outcome_seq ((mappages_takes _ _ _ _ _).and
            (mappages_special mapped root₁ frame (by decide) rfl vacant (.inr rfl))) ?_
          rintro done state ⟨⟨grown', grows', mapped'⟩, taken'⟩
          have taken₂ := taken₁.trans taken'
          have root₂ := grows'.keeps root₁ (by simp)
          have edited₂ := moves₂.trans grows'.moves
          have only : ∀ n, n ≠ TRAMPOLINE / PGSIZE → grown'.space r n = none := by
            intro n other
            rw [grows'.space, chart_space, if_neg fun both => other both.2, bare₁]
          have code' : grown'.space r (TRAMPOLINE / PGSIZE) =
              some { ppn := g.trampoline, v := true, perm := trampolinePerm } := by
            rw [grows'.space, chart_space, if_pos ⟨rfl, rfl⟩]
            rfl
          cases done with
          | false =>
              have unmaps := uvmunmap_special mapped' root₂ (n := TRAMPOLINE / PGSIZE) (.inl rfl)
                (by rw [code']; rfl)
              rw [show TRAMPOLINE / PGSIZE * PGSIZE = TRAMPOLINE by decide] at unmaps
              refine outcome_seq ((uvmunmap_gives _ _ _ _).and unmaps) ?_
              rintro - cleared ⟨edited₃, given⟩
              refine undo state cleared _ taken₂ given
                ⟨edited₃.agrees, edited₂.trans edited₃.moves, edited₃.root⟩ fun n => ?_
              rw [chart_space]
              split
              · rfl
              · rename_i other
                exact only n fun same => other ⟨rfl, same⟩
          | true =>
              refine ⟨free, taken₂, _, ⟨mapped', edited₂.trans (Moves.chart _ _ _ _), root₂⟩, ?_⟩
              refine ⟨Nat.zero_le _, fun k below => absurd below (Nat.not_lt_zero k), ?_, ?_, ?_⟩
              · rw [chart_space, if_pos ⟨rfl, rfl⟩]
                rfl
              · rw [chart_space, if_neg fun both => apart both.2.symm, code']
              · intro k some
                rw [chart_space] at some
                split at some
                · rename_i same
                  exact .inr (.inr same.2)
                · by_cases same : k = TRAMPOLINE / PGSIZE
                  · exact .inr (.inl same)
                  · rw [only k same] at some
                    cases some

end Creation

section Copying

variable {old new : Nat} {ram₀ : Ram} {g₀ : Ledger} {trampoline trapframe trapframe' count : Nat}

/-- The permissions of the pages of an address space. -/
def perms (space : Nat → Option Pte) (k : Nat) : Perm := ((space k).map Pte.perm).getD .none

/-- The first `i` pages of `new` were free and hold the bytes of those of `old`. -/
def Copied (old new : Nat) (ram₀ : Ram) (g₀ : Ledger) (i : Nat) (ram : Ram) (g : Ledger) : Prop :=
  ∀ k pte pte', k < i → g₀.space old k = some pte → g.space new k = some pte' →
    pte'.ppn ∈ ram₀.freelist ∧ ram.byte pte'.ppn = ram₀.byte pte.ppn

/-- `walk` finds what the ledger says is mapped. -/
theorem walk_mapped (h : Agrees Strict ram g) (root : g.owner r = .table r []) {k : Nat} {pte : Pte}
    (low : k ≤ TRAMPOLINE / PGSIZE) (maps : g.space r k = some pte) :
    outcome (walk r (k * PGSIZE) false)
      (fun found after => after = ram ∧ ∃ t i b a, found = some (t, i) ∧ ram.pte t i = pte ∧
        g.owner t = .table r [b, a] ∧ i < 512 ∧ k = i + 512 * (b + 512 * a))
      (fun _ _ => False) ram := by
  refine outcome_post (walk_find h root (below_maxva low)) ?_
  rintro found after ⟨rfl, result⟩
  rw [page_div] at result
  cases found with
  | none =>
      rw [maps] at result
      cases result
  | some place =>
      obtain ⟨t, i⟩ := place
      obtain ⟨index, owns⟩ := result
      have place : k = i + 512 * (k / 512 % 512 + 512 * (k / 512 / 512)) := by omega
      have bound : i < 512 := by omega
      have entry := h.space_eq owns bound place
      refine ⟨rfl, t, i, _, _, rfl, ?_, owns, bound, place⟩
      rw [maps] at entry
      split at entry
      · exact (Option.some.inj entry).symm
      · cases entry

/-- The pages copied so far go away again. -/
theorem unmapCopies (edited : Edited new g₀ ram g) (h : Agrees Strict ram₀ g₀)
    (shape : Shape (g₀.space new) trampoline trapframe 0) {perm : Nat → Perm} {i : Nat}
    (extended : Extends (g₀.space new) (g.space new) perm 0 i) (low : i ≤ 0x8000) {taken : Ram}
    (took : Takes ram₀ taken) (gave : Gives taken ram) :
    outcome (do
      uvmunmap new 0 (i * PGSIZE / PGSIZE) true
      return false)
      (fun done after => done = false ∧ ∃ g', Edited new g₀ after g' ∧
        g'.space new = g₀.space new ∧ Saved new g₀ ram₀ after)
      (fun _ _ => False) ram := by
  have top : i ≤ TRAPFRAME / PGSIZE := by rw [frame_page]; omega
  have unmaps := uvmunmap_user edited.agrees edited.root (a := 0) (m := i) (by omega) fun k _ below => by
    obtain ⟨page, fresh⟩ := extended.fresh k (Nat.zero_le k) (by omega)
    rw [fresh]
    rfl
  rw [Nat.zero_mul] at unmaps
  rw [page_div]
  refine outcome_seq ((uvmunmap_gives _ _ _ _).and unmaps) ?_
  rintro - after ⟨⟨g', edited', removed⟩, gave'⟩
  have whole := edited.trans edited'
  have space := extended.undone shape top (by simpa using removed)
  refine ⟨rfl, g', whole, space, whole.saved h space fun q before used => ?_⟩
  exact took.back (gave.trans gave') before used

/-- The loop of `uvmcopy` copies its pages or gives back those it made. -/
theorem uvmcopyFrom_spec (h : Agrees Strict ram₀ g₀) (root : g₀.owner old = .table old [])
    (apart : old ≠ new) {n : Nat} (source : Shape (g₀.space old) trampoline trapframe n)
    (shape : Shape (g₀.space new) trampoline trapframe' 0) (count : Nat) :
    ∀ (i : Nat) (ram : Ram) (g : Ledger), Edited new g₀ ram g → i + count = n →
      Extends (g₀.space new) (g.space new) (perms (g₀.space old)) 0 i → Takes ram₀ ram →
      Copied old new ram₀ g₀ i ram g →
      outcome (uvmcopyFrom old new count (i * PGSIZE))
        (fun done after => ∃ g', Edited new g₀ after g' ∧
          match done with
          | true => Extends (g₀.space new) (g'.space new) (perms (g₀.space old)) 0 n ∧
              Takes ram₀ after ∧ Copied old new ram₀ g₀ n after g'
          | false => g'.space new = g₀.space new ∧ Saved new g₀ ram₀ after)
        (fun _ _ => False) ram := by
  induction count with
  | zero =>
      intro i ram g edited total extended taken copied
      obtain rfl : i = n := by omega
      exact ⟨g, edited, extended, taken, copied⟩
  | succ count ih =>
      intro i ram g edited total extended taken copied
      have few := h.few source.low source.pages
      have top : i < TRAPFRAME / PGSIZE := by rw [frame_page]; omega
      have space : g.space old = g₀.space old := edited.moves.space old apart
      have root' : g.owner old = .table old [] := edited.moves.keeps root (by simpa [Pool] using apart)
      obtain ⟨pte, maps⟩ := Option.isSome_iff_exists.mp (source.pages i (by omega))
      have maps' : g.space old i = some pte := by rw [space, maps]
      have readable := (edited.agrees.target old i pte maps').1
      have valid := (edited.agrees.inner old i pte maps').1
      have bytes := taken.mapped h top maps
      have bounded : i ≤ TRAMPOLINE / PGSIZE := by rw [trampoline_page]; omega
      -- What was copied so far goes away again.
      have undo : ∀ (state middle : Ram) (g' : Ledger), Edited new g₀ state g' →
          Extends (g₀.space new) (g'.space new) (perms (g₀.space old)) 0 i → Takes ram₀ middle →
          Gives middle state →
          outcome (do
            uvmunmap new 0 (i * PGSIZE / PGSIZE) true
            return false)
            (fun done after => ∃ g', Edited new g₀ after g' ∧
              match done with
              | true => Extends (g₀.space new) (g'.space new) (perms (g₀.space old)) 0 n ∧
                  Takes ram₀ after ∧ Copied old new ram₀ g₀ n after g'
              | false => g'.space new = g₀.space new ∧ Saved new g₀ ram₀ after)
            (fun _ _ => False) state := by
        intro state middle g' edited' extended' took gave
        refine outcome_post (unmapCopies edited' h shape extended' (by omega) took gave) ?_
        rintro _ after ⟨rfl, g'', result⟩
        exact ⟨g'', result⟩
      rw [uvmcopyFrom]
      refine outcome_seq (walk_mapped edited.agrees root' bounded maps') ?_
      rintro _ _ ⟨rfl, t, index, b, a, rfl, entry, -⟩
      refine getPte_then ?_
      rw [entry, valid]
      refine outcome_seq (kalloc_takes.and (kalloc_spec edited.agrees)) ?_
      rintro got middle ⟨allocated, took⟩
      cases got with
      | none =>
          exact undo middle middle g ⟨allocated, edited.moves, edited.root⟩ extended
            (taken.trans took) (Gives.refl _)
      | some mem =>
          obtain ⟨free, held⟩ := allocated
          have other : new ≠ mem := by
            rintro rfl
            simp [edited.root] at free
          have kept : (g.assign mem (.kept .temporary)).owner mem = .kept .temporary := by simp
          have rootNew : (g.assign mem (.kept .temporary)).owner new = .table new [] := by
            rw [assign_owner, if_neg other, edited.root]
          have vacant : (g.assign mem (.kept .temporary)).space new i = none := by
            rw [assign_space, extended.same i (by omega)]
            exact shape.vacant (Nat.zero_le i) top
          have copying : outcome (copyPage mem pte.ppn) (fun _ after =>
              Agrees Strict after (g.assign mem (.kept .temporary)) ∧
              after.freelist = middle.freelist ∧
              after.byte = Function.update middle.byte mem (middle.byte pte.ppn))
              (fun _ _ => False) middle := ⟨copyPage_spec held kept, rfl, rfl⟩
          refine outcome_seq copying ?_
          rintro - copy ⟨agrees, freelist, filled⟩
          have others : ∀ q, q ≠ mem → copy.byte q = middle.byte q := fun q different => by
            rw [filled, Function.update_of_ne different]
          have took' := took.write ((edited.agrees.free mem).mpr free) freelist others
          refine outcome_seq (mapPage_spec readable agrees rootNew top vacant kept) ?_
          rintro done mapped ⟨grew, same, grown, grows, rest⟩
          have taken' := taken.trans (took'.trans grew)
          have here : mapped.byte mem = ram₀.byte pte.ppn := by
            rw [same, filled, Function.update_self, took.mapped edited.agrees top maps', bytes]
          cases done with
          | true =>
              have perm : perms (g₀.space old) i = pte.perm := by simp [perms, maps]
              rw [← perm] at rest
              obtain ⟨edited', extended', -⟩ :=
                edited.append shape extended (Nat.zero_le i) (by omega) free grows rest
              have copied' : Copied old new ram₀ g₀ (i + 1) mapped ((grown.chart new i
                  (some { ppn := mem, v := true, perm := perms (g₀.space old) i })).assign mem
                  (.user new i)) := by
                intro k pteOld pteNew below was now
                rw [assign_space, chart_space, grows.space, assign_space] at now
                by_cases last : k = i
                · rw [if_pos ⟨rfl, last⟩] at now
                  rw [last, maps] at was
                  cases now
                  cases was
                  exact ⟨taken.freelist mem ((edited.agrees.free mem).mpr free), here⟩
                · rw [if_neg fun both => last both.2] at now
                  have before := copied k pteOld pteNew (by omega) was now
                  rw [(took'.trans grew).mapped edited.agrees (by omega) now]
                  exact before
              have next := ih (i + 1) mapped _ edited' (by omega) extended' taken' copied'
              rwa [Nat.add_one_mul] at next
          | false =>
              refine outcome_seq ((kfree_gives mem).and
                (kfree_spec rest (grows.keeps kept (by simp)))) ?_
              rintro - freed ⟨agrees', given⟩
              have back := Grows.giveBack free grows
              refine undo freed mapped _ ⟨agrees', edited.moves.trans back.moves,
                back.keeps edited.root (by simp)⟩ ?_ taken' given
              rw [back.space]
              exact extended

/-- `uvmcopy` gives the new address space copies of all user pages, or leaves it empty. -/
theorem uvmcopy_spec (h : Agrees Strict ram g) (root : g.owner old = .table old [])
    (rootNew : g.owner new = .table new []) (apart : old ≠ new) {sz : Nat}
    (source : Shape (g.space old) trampoline trapframe (pagesOf sz))
    (shape : Shape (g.space new) trampoline trapframe' 0) :
    outcome (uvmcopy old new sz)
      (fun done after => ∃ g', Edited new g after g' ∧
        match done with
        | true => Shape (g'.space new) trampoline trapframe' (pagesOf sz) ∧
            Extends (g.space new) (g'.space new) (perms (g.space old)) 0 (pagesOf sz) ∧
            Takes ram after ∧ Copied old new ram g (pagesOf sz) after g'
        | false => g'.space new = g.space new ∧ Saved new g ram after)
      (fun _ _ => False) ram := by
  have start : Edited new g ram g := ⟨h, Moves.refl new g, rootNew⟩
  have copies := uvmcopyFrom_spec h root apart source shape (pagesOf sz) 0 ram g start (Nat.zero_add _)
    (Extends.refl _ _ _) (Takes.refl _) fun k _ _ below => absurd below (Nat.not_lt_zero k)
  rw [Nat.zero_mul] at copies
  refine outcome_post copies ?_
  rintro done after ⟨g', edited, result⟩
  refine ⟨g', edited, ?_⟩
  cases done with
  | true =>
      obtain ⟨extended, rest⟩ := result
      exact ⟨shape.extends extended (Nat.zero_le _) source.low, extended, rest⟩
  | false => exact result

end Copying

section Guard

/-- `uvmclear` takes the page away from the user and does nothing else. -/
theorem uvmclear_spec (h : Agrees Strict ram g) (root : g.owner r = .table r []) {k : Nat} {pte : Pte}
    (low : k < TRAPFRAME / PGSIZE) (maps : g.space r k = some pte) :
    outcome (uvmclear r (k * PGSIZE))
      (fun _ after => after.byte = ram.byte ∧ after.freelist = ram.freelist ∧
        Edited r g after (g.chart r k (some { pte with perm := { pte.perm with u := false } })))
      (fun _ _ => False) ram := by
  have bounded : k ≤ TRAMPOLINE / PGSIZE := by rw [trampoline_page]; rw [frame_page] at low; omega
  unfold uvmclear
  refine outcome_seq (walk_mapped h root bounded maps) ?_
  rintro _ _ ⟨rfl, t, i, b, a, rfl, entry, owns, bound, place⟩
  refine getPte_then ?_
  rw [entry]
  refine ⟨rfl, rfl, h.protect owns bound place maps ?_, Moves.chart _ _ _ _, root⟩
  exact (h.target r k pte maps).1

end Guard

section Boot

/-- The next `n` calls of `kalloc` succeed. -/
structure Supply (n : Nat) (ram : Ram) : Prop where
  pages : n ≤ ram.freelist.length
  calm : ∀ i, i < n → ram.faults.getD i false = false

theorem Supply.less {n m : Nat} (supply : Supply n ram) (fewer : m ≤ n) : Supply m ram :=
  ⟨fewer.trans supply.pages, fun i below => supply.calm i (by omega)⟩

theorem kalloc_supply {n : Nat} (supply : Supply (n + 1) ram) :
    outcome kalloc (fun got after => got.isSome = true ∧ Supply n after) (fun _ _ => True) ram := by
  have first := supply.calm 0 (by omega)
  have pages := supply.pages
  unfold kalloc
  rw [outcome_bind, outcome_get]
  split
  · rename_i faults
    rw [faults] at first
    cases first
  · split
    · rename_i empty
      rw [empty] at pages
      simp at pages
    · rename_i page rest list
      refine ⟨rfl, ?_, fun i below => ?_⟩
      · rw [list] at pages
        simpa using pages
      · have later := supply.calm (i + 1) (by omega)
        cases faults : ram.faults with
        | nil => simp
        | cons fault faults' => simpa [faults] using later

/-- A computation takes at most `k` pages of a supply, and succeeds. -/
def Within {α : Type} (k : Nat) (run : VmM α) (good : α → Prop) : Prop :=
  ∀ n ram, Supply (n + k) ram →
    outcome run (fun value after => good value ∧ Supply n after) (fun _ _ => True) ram

theorem walkLevel_within (t level va : Nat) :
    Within 1 (walkLevel t level va true) fun got => got.isSome = true := by
  intro n ram supply
  unfold walkLevel
  refine getPte_then ?_
  rw [outcome_ite]
  refine ⟨fun _ => ⟨rfl, supply.less (by omega)⟩, fun _ => ?_⟩
  refine outcome_seq (kalloc_supply supply) ?_
  rintro got middle ⟨some, left⟩
  cases got with
  | none => cases some
  | some page => exact ⟨rfl, left.pages, left.calm⟩

theorem walk_within (t va : Nat) : Within 2 (walk t va true) fun got => got.isSome = true := by
  intro n ram supply
  unfold walk
  rw [outcome_ite]
  refine ⟨fun _ => trivial, fun _ => ?_⟩
  refine outcome_seq (walkLevel_within t 2 va (n + 1) ram supply) ?_
  rintro got middle ⟨some, left⟩
  cases got with
  | none => cases some
  | some table =>
      refine outcome_seq (walkLevel_within table 1 va n middle left) ?_
      rintro got after ⟨some, left'⟩
      cases got with
      | none => cases some
      | some last => exact ⟨rfl, left'⟩

theorem mappages_within {va : Nat} (aligned : va % PGSIZE = 0) (bound : va < MAXVA) (t page : Nat)
    (perm : Perm) : Within 2 (mappages t va page PGSIZE perm) fun done => done = true := by
  intro n ram supply
  rw [mappages_one aligned bound, mappagesFrom]
  refine outcome_seq (walk_within t va n ram supply) ?_
  rintro got middle ⟨some, left⟩
  cases got with
  | none => cases some
  | some place =>
      refine getPte_then ?_
      rw [outcome_ite]
      exact ⟨fun _ => trivial, fun _ => ⟨rfl, left.pages, left.calm⟩⟩

theorem procPagetable_within (trapframe : Nat) :
    Within 5 (procPagetable trapframe) fun got => got.isSome = true := by
  intro n ram supply
  unfold procPagetable uvmcreate
  rw [outcome_bind]
  refine outcome_seq (kalloc_supply (n := n + 4) supply) ?_
  rintro got middle ⟨some, left⟩
  cases got with
  | none => cases some
  | some r =>
      have left' : Supply (n + 4) (middle.memset r 0) := ⟨left.pages, left.calm⟩
      refine memzero_then ?_
      rw [outcome_pure]
      dsimp only
      rw [outcome_bind, outcome_get]
      refine outcome_seq (mappages_within (by decide) (by decide) r _ _ (n + 2) _ left') ?_
      rintro _ state ⟨rfl, left₁⟩
      refine outcome_seq (mappages_within (by decide) (by decide) r _ _ n _ left₁) ?_
      rintro _ after ⟨rfl, left₂⟩
      exact ⟨rfl, left₂⟩

/-- `uvmfirst` maps the first page of a new address space. -/
theorem uvmfirst_spec (h : Agrees Strict ram g) (root : g.owner r = .table r [])
    {trampoline trapframe : Nat} (shape : Shape (g.space r) trampoline trapframe 0) (src : List UInt8)
    (supply : Supply 3 ram) :
    outcome (uvmfirst r src)
      (fun _ after => ∃ g', Edited r g after g' ∧ Shape (g'.space r) trampoline trapframe 1)
      (fun stop _ => stop = .uvmfirstSize ∧ PGSIZE ≤ src.length) ram := by
  have top : 0 < TRAPFRAME / PGSIZE := by decide
  have start : Edited r g ram g := ⟨h, Moves.refl r g, root⟩
  unfold uvmfirst
  rw [outcome_ite]
  refine ⟨fun long => ⟨rfl, long⟩, fun _ => ?_⟩
  refine outcome_seq (outcome_mono (outcome_and (kalloc_spec h) (kalloc_supply supply))
    (fun _ _ both => both) fun _ _ failed => failed.1.elim) ?_
  rintro got middle ⟨allocated, some, left⟩
  cases got with
  | none => cases some
  | some mem =>
      obtain ⟨free, held⟩ := allocated
      have other : r ≠ mem := by
        rintro rfl
        simp [root] at free
      have kept : (g.assign mem (.kept .temporary)).owner mem = .kept .temporary := by simp
      have root' : (g.assign mem (.kept .temporary)).owner r = .table r [] := by
        rw [assign_owner, if_neg other, root]
      have agrees : Agrees Strict (middle.memset mem 0) (g.assign mem (.kept .temporary)) :=
        (memzero_spec held kept).1
      refine memzero_then ?_
      have maps : outcome (mappages r (0 * PGSIZE) mem PGSIZE (userPerm true true)) _ _ _ :=
        mapPage_spec rfl agrees root' top (shape.vacant (Nat.le_refl _) top) kept
      rw [Nat.zero_mul] at maps
      have calm : Supply (0 + 2) (middle.memset mem 0) := ⟨left.pages, left.calm⟩
      refine outcome_seq (outcome_mono (outcome_and maps
        (mappages_within rfl (by decide) r mem (userPerm true true) 0 _ calm)) (fun _ _ both => both)
        fun _ _ failed => failed.1.elim) ?_
      rintro done mapped ⟨⟨-, -, grown, grows, rest⟩, rfl, -⟩
      obtain ⟨edited, extended, -⟩ := start.append shape (Extends.refl _ (fun _ => userPerm true true) 0)
        (Nat.le_refl _) (by omega) free grows rest
      refine outcome_mono (putBytes_spec mem src 0 mapped) ?_ fun _ _ failed => failed.elim
      rintro - after ⟨same, -⟩
      refine ⟨_, ⟨edited.agrees.congr ?_ ?_ ?_ ?_, edited.moves, edited.root⟩,
        shape.extends extended (Nat.zero_le _) (by decide)⟩
      all_goals rw [same]

/-- Memory from which no process has been given a page. -/
structure Clear (ram : Ram) : Prop where
  base : 0x80000 ≤ ram.first
  nodup : ram.freelist.Nodup
  range : ∀ q, q ∈ ram.freelist → ram.first ≤ q ∧ q < stopPage

/-- The pages that are not free belong to the kernel itself. -/
def bootLedger (ram : Ram) : Ledger where
  first := ram.first
  trampoline := ram.trampoline
  owner q :=
    if q < ram.first ∨ stopPage ≤ q then .outside
    else if q ∈ ram.freelist then .free
    else .kept .fixed
  space _ _ := none

theorem bootLedger_agrees (clear : Clear ram) : Agrees Strict ram (bootLedger ram) := by
  have owners : ∀ q, (bootLedger ram).owner q = .outside ∨ (bootLedger ram).owner q = .free ∨
      (bootLedger ram).owner q = .kept .fixed := by
    intro q
    change (if _ then _ else _) = _ ∨ (if _ then _ else _) = _ ∨ (if _ then _ else _) = _
    split
    · exact .inl rfl
    · split
      · exact .inr (.inl rfl)
      · exact .inr (.inr rfl)
  have table : ∀ q r path, (bootLedger ram).owner q ≠ .table r path := by
    intro q r path owns
    rcases owners q with other | other | other <;> rw [other] at owns <;> cases owns
  have user : ∀ q r n, (bootLedger ram).owner q ≠ .user r n := by
    intro q r n owns
    rcases owners q with other | other | other <;> rw [other] at owns <;> cases owns
  exact
    { first := rfl
      trampoline := rfl
      base := clear.base
      outside := fun q => by
        change (if _ then _ else _) = _ ↔ _
        split
        · rename_i out
          exact iff_of_true rfl out
        · rename_i inside
          refine iff_of_false ?_ inside
          split <;> exact fun same => nomatch same
      nodup := clear.nodup
      free := fun q => by
        change _ ↔ (if _ then _ else _) = _
        split
        · rename_i out
          refine iff_of_false (fun free => ?_) fun same => nomatch same
          have inside := clear.range q free
          omega
        · split
          · rename_i free
            exact iff_of_true free rfl
          · rename_i used
            exact iff_of_false used fun same => nomatch same
      root := fun q r owns => absurd owns (table _ _ _)
      up := fun q r i path owns => absurd owns (table _ _ _)
      down := fun t r path i owns => absurd owns (table _ _ _)
      leaf := fun t r b a i owns => absurd owns (table _ _ _)
      inner := fun r n pte maps => nomatch maps
      target := fun r n pte maps => nomatch maps
      mapped := fun q r n owns => absurd owns (user _ _ _) }

/-- Memory of sixteen free pages. -/
def bootRam : Ram where
  first := 0x80400
  trampoline := 0x80007
  freelist := List.range' 0x80400 16
  pte _ _ := .zero
  byte _ _ := 0
  faults := []

/-- A new page table in that memory, with pages left for more. -/
theorem another_space {n trapframe : Nat} (h : Agrees Strict ram g) (supply : Supply (n + 5) ram) :
    ∃ after g' r, Agrees Strict after g' ∧ Supply n after ∧ g.owner r = .free ∧ Edited r g after g' ∧
      Shape (g'.space r) g.trampoline trapframe 0 := by
  have made := outcome_and (procPagetable_spec h trapframe) (procPagetable_within trapframe n _ supply)
  unfold outcome at made
  cases ran : procPagetable trapframe ram with
  | error reason after =>
      rw [ran] at made
      exact made.1.elim
  | ok got after =>
      rw [ran] at made
      obtain ⟨made, some, left⟩ := made
      cases got with
      | none => cases some
      | some r =>
          obtain ⟨free, -, g', edited, shape⟩ := made
          exact ⟨after, g', r, edited.agrees, left, free, edited, shape⟩

/-- A process of one page, and an address space of none. -/
theorem two_spaces : ∃ ram g old new, Agrees Strict ram g ∧ old ≠ new ∧
    g.owner old = .table old [] ∧ g.owner new = .table new [] ∧
    Shape (g.space old) g.trampoline 0x80008 1 ∧ Shape (g.space new) g.trampoline 0x80009 0 := by
  have clear : Clear bootRam := ⟨by decide, by decide, by decide⟩
  have supply : Supply (3 + 5 + 5) bootRam := ⟨by decide, by decide⟩
  obtain ⟨ram₁, g₁, new, h₁, left₁, -, edited₁, shape₁⟩ :=
    @another_space _ _ 8 0x80009 (bootLedger_agrees clear) supply
  obtain ⟨ram₂, g₂, old, h₂, left₂, free, edited₂, shape₂⟩ :=
    @another_space _ _ _ 0x80008 h₁ left₁
  have apart : old ≠ new := by
    rintro rfl
    rw [edited₁.root] at free
    cases free
  have new₂ : g₂.owner new = .table new [] :=
    edited₂.moves.keeps edited₁.root (by simpa [Pool] using apart.symm)
  have filled := uvmfirst_spec h₂ edited₂.root shape₂ [] left₂
  unfold outcome at filled
  cases ran : uvmfirst old [] ram₂ with
  | error reason after =>
      rw [ran] at filled
      exact absurd filled.2 (by decide)
  | ok got ram₃ =>
      rw [ran] at filled
      obtain ⟨g₃, edited₃, shape₃⟩ := filled
      refine ⟨ram₃, g₃, old, new, edited₃.agrees, apart, edited₃.root,
        edited₃.moves.keeps new₂ (by simpa [Pool] using apart.symm), ?_, ?_⟩
      · rw [edited₃.moves.trampoline, edited₂.moves.trampoline]
        exact shape₃
      · rw [edited₃.moves.space new apart.symm, edited₂.moves.space new apart.symm,
          edited₃.moves.trampoline, edited₂.moves.trampoline, edited₁.moves.trampoline]
        exact shape₁

end Boot

end PaddleOs.Vm
