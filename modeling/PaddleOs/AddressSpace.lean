import PaddleOs.PageBytes
import PaddleOs.PageTables

/-!
The address space of a process: its first pages in a row from address 0, and the
trapframe and the trampoline at the top. The functions of `vm.c` that the system calls
use take one such shape to another, or fail and leave the shape they found.
-/

namespace PaddleOs.Vm

open Foundation.Outcome Foundation.View

/-- The number of pages below `PGROUNDUP(sz)`. -/
def pagesOf (sz : Nat) : Nat := (sz + PGSIZE - 1) / PGSIZE

def framePerm : Perm := { r := true, w := true, x := false, u := false }

def trampolinePerm : Perm := { r := true, w := false, x := true, u := false }

/-- An address space of `count` user pages. -/
structure Shape (space : Nat → Option Pte) (trampoline trapframe count : Nat) : Prop where
  low : count ≤ TRAPFRAME / PGSIZE
  pages : ∀ k, k < count → (space k).isSome = true
  frame : space (TRAPFRAME / PGSIZE) = some { ppn := trapframe, v := true, perm := framePerm }
  code : space (TRAMPOLINE / PGSIZE) =
    some { ppn := trampoline, v := true, perm := trampolinePerm }
  only : ∀ k, (space k).isSome = true → k < count ∨ Special k

/-- The kernel got from the ledger `g` to memory that agrees with `g'` by changes below
`r`, which is still a page table. -/
structure Edited (r : Nat) (g : Ledger) (after : Ram) (g' : Ledger) : Prop where
  agrees : Agrees Strict after g'
  moves : Moves r g g'
  root : g'.owner r = .table r []

theorem Edited.trans {r : Nat} {g g' g'' : Ledger} {middle after : Ram}
    (left : Edited r g middle g') (right : Edited r g' after g'') : Edited r g after g'' :=
  ⟨right.agrees, left.moves.trans right.moves, right.root⟩

variable {ram : Ram} {g : Ledger} {r : Nat}

section Arithmetic

theorem frame_page : TRAPFRAME / PGSIZE = 67108862 := by decide

theorem trampoline_page : TRAMPOLINE / PGSIZE = 67108863 := by decide

theorem ordinary_of_lt {n : Nat} (low : n < TRAPFRAME / PGSIZE) : ¬ Special n := by
  unfold Special
  rw [trampoline_page]
  rw [frame_page] at low ⊢
  omega

theorem below_maxva {n : Nat} (low : n ≤ TRAMPOLINE / PGSIZE) : n * PGSIZE < MAXVA := by
  rw [trampoline_page] at low
  unfold PGSIZE MAXVA
  omega

theorem page_div (n : Nat) : n * PGSIZE / PGSIZE = n := Nat.mul_div_cancel n (by decide)

theorem page_mod (n : Nat) : n * PGSIZE % PGSIZE = 0 := Nat.mul_mod_left n PGSIZE

theorem word64_small {n : Nat} (small : n ≤ MAXVA) : word64 n = n := by
  refine Nat.mod_eq_of_lt ?_
  unfold MAXVA at small
  omega

theorem roundup_eq {sz : Nat} (small : sz + PGSIZE ≤ MAXVA) : PGROUNDUP sz = pagesOf sz * PGSIZE := by
  unfold PGROUNDUP pagesOf
  rw [word64_small (by omega)]

theorem pagesOf_mul (n : Nat) : pagesOf (n * PGSIZE) = n := by
  unfold pagesOf PGSIZE
  omega

end Arithmetic

section Unmapping

/-- `uvmunmap` that frees a row of user pages. -/
theorem uvmunmap_user (h : Agrees Strict ram g) (root : g.owner r = .table r []) {a m : Nat}
    (top : a + m ≤ TRAPFRAME / PGSIZE)
    (full : ∀ k, a ≤ k → k < a + m → (g.space r k).isSome = true) :
    outcome (uvmunmap r (a * PGSIZE) m true)
      (fun _ after => ∃ g', Edited r g after g' ∧
        ∀ k, g'.space r k = if a ≤ k ∧ k < a + m then none else g.space r k)
      (fun _ _ => False) ram := by
  have high : a + m ≤ TRAMPOLINE / PGSIZE := by
    rw [trampoline_page]
    rw [frame_page] at top
    omega
  have turns : (word64 (a * PGSIZE + m * PGSIZE) - a * PGSIZE) / PGSIZE = m := by
    rw [← Nat.add_mul, word64_small (Nat.le_of_lt (below_maxva high)), Nat.add_mul,
      Nat.add_sub_cancel_left, page_div]
  unfold uvmunmap
  rw [if_neg (not_not.mpr (page_mod _)), turns]
  refine outcome_post (loop_outcome
    (fun i state => ∃ g', Edited r g state g' ∧
      ∀ k, g'.space r k = if a ≤ k ∧ k < a + i then none else g.space r k) m 0 ram
    ⟨g, ⟨h, Moves.refl r g, root⟩, fun k => by rw [if_neg (by omega)]⟩ ?_) ?_
  · rintro i state - below ⟨g₁, edited, space⟩
    have place : (a * PGSIZE + i * PGSIZE) / PGSIZE = a + i := by rw [← Nat.add_mul, page_div]
    have ordinary : ¬ Special (a + i) := ordinary_of_lt (by omega)
    obtain ⟨pte, maps⟩ := Option.isSome_iff_exists.mp (full (a + i) (by omega) (by omega))
    have here : g₁.space r (a + i) = some pte := by rw [space, if_neg (by omega), maps]
    have mapped : g₁.space r ((a * PGSIZE + i * PGSIZE) / PGSIZE) = some pte := by
      rw [place, here]
    refine outcome_post (uvmunmapPage_user edited.agrees edited.root ?_ ?_ mapped) ?_
    · rw [← Nat.add_mul]
      exact below_maxva (by omega)
    · rwa [place]
    · rintro - after agrees
      rw [place] at agrees
      have owned := (edited.agrees.target r _ _ here).2 ordinary
      have moves : Moves r g₁ ((g₁.chart r (a + i) none).assign pte.ppn .free) :=
        (Moves.chart r (a + i) none g₁).trans (Moves.assign (by simp [owned, Pool]) trivial)
      refine ⟨_, edited.trans ⟨agrees, moves, ?_⟩, fun k => ?_⟩
      · rw [assign_owner, if_neg, chart_owner, edited.root]
        intro same
        simp [← same, edited.root] at owned
      · rw [assign_space, chart_space, space]
        by_cases same : k = a + i
        · rw [if_pos ⟨rfl, same⟩, if_pos (by omega)]
        · rw [if_neg (fun both => same both.2)]
          congr 1
          simp only [eq_iff_iff]
          omega
  · rintro - after ⟨g', edited, space⟩
    exact ⟨g', edited, fun k => by rw [space, Nat.zero_add]⟩

/-- `uvmunmap` of one of the special pages. -/
theorem uvmunmap_special (h : Agrees Strict ram g) (root : g.owner r = .table r []) {n : Nat}
    (special : Special n) (full : (g.space r n).isSome = true) :
    outcome (uvmunmap r (n * PGSIZE) 1 false)
      (fun _ after => Edited r g after (g.chart r n none)) (fun _ _ => False) ram := by
  obtain ⟨pte, maps⟩ := Option.isSome_iff_exists.mp full
  have high : n ≤ TRAMPOLINE / PGSIZE := by
    rcases special with rfl | rfl
    · exact Nat.le_refl _
    · decide
  have bound := below_maxva high
  have turns : (word64 (n * PGSIZE + 1 * PGSIZE) - n * PGSIZE) / PGSIZE = 1 := by
    rw [word64_small, Nat.add_sub_cancel_left]
    · decide
    · rw [trampoline_page] at high
      unfold PGSIZE MAXVA
      omega
  unfold uvmunmap
  rw [if_neg (not_not.mpr (page_mod _)), turns, loop, loop]
  have place : (n * PGSIZE + 0 * PGSIZE) / PGSIZE = n := by rw [Nat.zero_mul, Nat.add_zero, page_div]
  have mapped : g.space r ((n * PGSIZE + 0 * PGSIZE) / PGSIZE) = some pte := by rw [place, maps]
  refine outcome_seq (uvmunmapPage_special h root (by simpa using bound) ?_ mapped) ?_
  · rwa [place]
  · rintro - after agrees
    rw [place] at agrees
    exact ⟨agrees, Moves.chart r n none g, root⟩

/-- `uvmdealloc` on a row of pages that is mapped down to the new size. -/
theorem uvmdealloc_spec (h : Agrees Strict ram g) (root : g.owner r = .table r [])
    {oldsz newsz : Nat} (top : pagesOf oldsz ≤ TRAPFRAME / PGSIZE)
    (full : ∀ k, pagesOf newsz ≤ k → k < pagesOf oldsz → (g.space r k).isSome = true) :
    outcome (uvmdealloc r oldsz newsz)
      (fun value after => value = min oldsz newsz ∧ ∃ g', Edited r g after g' ∧
        ∀ k, g'.space r k =
          if pagesOf newsz ≤ k ∧ k < pagesOf oldsz then none else g.space r k)
      (fun _ _ => False) ram := by
  have small : oldsz + PGSIZE ≤ MAXVA := by
    rw [frame_page] at top
    unfold pagesOf PGSIZE at top
    unfold PGSIZE MAXVA
    omega
  have start : Edited r g ram g := ⟨h, Moves.refl r g, root⟩
  unfold uvmdealloc
  by_cases shrinks : newsz < oldsz
  · rw [if_neg (by omega), roundup_eq small, roundup_eq (show newsz + PGSIZE ≤ MAXVA by omega)]
    split
    · rename_i fewer
      have less : pagesOf newsz < pagesOf oldsz := Nat.lt_of_mul_lt_mul_right fewer
      have turns : (pagesOf oldsz * PGSIZE - pagesOf newsz * PGSIZE) / PGSIZE =
          pagesOf oldsz - pagesOf newsz := by
        rw [← Nat.sub_mul, page_div]
      rw [turns]
      refine outcome_seq (uvmunmap_user h root (by omega) ?_) ?_
      · intro k low high
        exact full k low (by omega)
      · rintro - after ⟨g', edited, space⟩
        refine ⟨by omega, g', edited, fun k => ?_⟩
        rw [space, show pagesOf newsz + (pagesOf oldsz - pagesOf newsz) = pagesOf oldsz by omega]
    · rename_i same
      have most : pagesOf oldsz ≤ pagesOf newsz := by
        by_contra less
        exact same (Nat.mul_lt_mul_of_pos_right (by omega) (by decide))
      exact ⟨by omega, g, start, fun k => by rw [if_neg (by omega)]⟩
  · rw [if_pos (by omega)]
    have monotone : pagesOf oldsz ≤ pagesOf newsz := by
      unfold pagesOf
      exact Nat.div_le_div_right (by omega)
    exact ⟨by omega, g, start, fun k => by rw [if_neg (by omega)]⟩

end Unmapping

section Growth

/-- The pages below the trapframe that an address space maps fit in the memory. -/
theorem Agrees.few (h : Agrees Strict ram g) {n : Nat} (low : n ≤ TRAPFRAME / PGSIZE)
    (full : ∀ k, k < n → (g.space r k).isSome = true) : n ≤ 0x8000 := by
  classical
  let page : Nat → Nat := fun k => ((g.space r k).map Pte.ppn).getD 0
  have owned : ∀ k, k < n → g.owner (page k) = .user r k := by
    intro k below
    obtain ⟨pte, maps⟩ := Option.isSome_iff_exists.mp (full k below)
    have target := (h.target r k pte maps).2 (ordinary_of_lt (by omega))
    simpa [page, maps] using target
  have injective : Set.InjOn page (Finset.range n) := by
    intro k below k' below' same
    have left := owned k (by simpa using below)
    have right := owned k' (by simpa using below')
    rw [same, right] at left
    cases left
    rfl
  have into : Set.MapsTo page (Finset.range n) (Finset.Ico g.first stopPage) := by
    intro k below
    have inside := h.inside (q := page k) (by simp [owned k (by simpa using below)])
    simpa using inside
  have counted := Finset.card_le_card_of_injOn page into injective
  have base := h.base
  have stop : stopPage = 0x88000 := by decide
  rw [Finset.card_range, Nat.card_Ico, stop] at counted
  omega

/-- The pages from `n` to `m` have been added with these permissions. -/
structure Extends (space space' : Nat → Option Pte) (perm : Nat → Perm) (n m : Nat) : Prop where
  same : ∀ k, ¬ (n ≤ k ∧ k < m) → space' k = space k
  fresh : ∀ k, n ≤ k → k < m → ∃ page, space' k = some { ppn := page, v := true, perm := perm k }

theorem Shape.extends {space space' : Nat → Option Pte} {perm : Nat → Perm}
    {trampoline trapframe n m : Nat} (shape : Shape space trampoline trapframe n)
    (extended : Extends space space' perm n m) (grows : n ≤ m) (low : m ≤ TRAPFRAME / PGSIZE) :
    Shape space' trampoline trapframe m where
  low := low
  pages k below := by
    by_cases old : k < n
    · rw [extended.same k (by omega)]
      exact shape.pages k old
    · obtain ⟨page, maps⟩ := extended.fresh k (by omega) below
      simp [maps]
  frame := by
    rw [extended.same _ (by omega)]
    exact shape.frame
  code := by
    rw [extended.same, shape.code]
    rw [trampoline_page]
    rw [frame_page] at low
    omega
  only k maps := by
    by_cases new : n ≤ k ∧ k < m
    · exact .inl new.2
    · rw [extended.same k new] at maps
      rcases shape.only k maps with below | special
      · exact .inl (by omega)
      · exact .inr special

theorem Shape.vacant {space : Nat → Option Pte} {trampoline trapframe n k : Nat}
    (shape : Shape space trampoline trapframe n) (above : n ≤ k) (low : k < TRAPFRAME / PGSIZE) :
    space k = none := by
  cases maps : space k with
  | none => rfl
  | some pte =>
      rcases shape.only k (by simp [maps]) with below | special
      · omega
      · exact absurd special (ordinary_of_lt low)

theorem Extends.refl (space : Nat → Option Pte) (perm : Nat → Perm) (n : Nat) :
    Extends space space perm n n where
  same _ _ := rfl
  fresh k low high := by omega

variable {trampoline trapframe : Nat} {perm : Nat → Perm} {g₀ : Ledger} {n m : Nat}

/-- When the added pages go, what was there before is left. -/
theorem Extends.undone {space space' : Nat → Option Pte} (extended : Extends space space' perm n m)
    (shape : Shape space trampoline trapframe n) (low : m ≤ TRAPFRAME / PGSIZE)
    {left : Nat → Option Pte}
    (removed : ∀ k, left k = if n ≤ k ∧ k < m then none else space' k) : left = space := by
  funext k
  rw [removed]
  split
  · rename_i added
    exact (shape.vacant added.1 (by omega)).symm
  · rename_i old
    exact extended.same k old

theorem uvmdealloc_undoes (edited : Edited r g₀ ram g) (shape : Shape (g₀.space r) trampoline trapframe n)
    (extended : Extends (g₀.space r) (g.space r) perm n m) (low : m ≤ 0x8000) :
    outcome (uvmdealloc r (m * PGSIZE) (n * PGSIZE))
      (fun _ after => ∃ g', Edited r g₀ after g' ∧ g'.space r = g₀.space r)
      (fun _ _ => False) ram := by
  have top : m ≤ TRAPFRAME / PGSIZE := by rw [frame_page]; omega
  refine outcome_post (uvmdealloc_spec edited.agrees edited.root ?_ ?_) ?_
  · rwa [pagesOf_mul]
  · intro k above below
    rw [pagesOf_mul] at above below
    obtain ⟨page, maps⟩ := extended.fresh k above below
    simp [maps]
  · rintro value after ⟨-, g', edited', space⟩
    simp only [pagesOf_mul] at space
    exact ⟨g', edited.trans edited', extended.undone shape top space⟩

/-- A page taken from the free list is mapped at the end of the row. -/
theorem Edited.append (edited : Edited r g₀ ram g)
    (shape : Shape (g₀.space r) trampoline trapframe n)
    (extended : Extends (g₀.space r) (g.space r) perm n m) (above : n ≤ m) (low : m ≤ 0x8000)
    {page : Nat} (free : g.owner page = .free) {grown : Ledger}
    (grows : Grows r (g.assign page (.kept .temporary)) grown) {after : Ram}
    (agrees : Agrees Strict after
      ((grown.chart r m (some { ppn := page, v := true, perm := perm m })).assign page (.user r m))) :
    let g' := (grown.chart r m (some { ppn := page, v := true, perm := perm m })).assign page (.user r m)
    Edited r g₀ after g' ∧ Extends (g₀.space r) (g'.space r) perm n (m + 1) ∧ m + 1 ≤ 0x8000 := by
  have apart : r ≠ page := by
    rintro rfl
    simp [edited.root] at free
  have added : Extends (g₀.space r)
      (((grown.chart r m (some { ppn := page, v := true, perm := perm m })).assign page
        (.user r m)).space r) perm n (m + 1) := by
    constructor
    · intro k outside
      rw [assign_space, chart_space, if_neg (by omega), grows.space, assign_space]
      exact extended.same k (by omega)
    · intro k above' below
      rw [assign_space, chart_space]
      by_cases last : k = m
      · exact ⟨page, by rw [if_pos ⟨rfl, last⟩, last]⟩
      · rw [if_neg (fun both => last both.2), grows.space, assign_space]
        exact extended.fresh k above' (by omega)
  have bigger := shape.extends added (by omega) (by rw [frame_page]; omega)
  refine ⟨⟨agrees, edited.moves.trans (grows.enter free), ?_⟩, added,
    agrees.few bigger.low bigger.pages⟩
  rw [assign_owner, if_neg apart, chart_owner]
  refine grows.keeps ?_ (by simp)
  rw [assign_owner, if_neg apart, edited.root]

/-- The pages from `n` to `m` hold zeros. -/
def Blank (ram : Ram) (space : Nat → Option Pte) (n m : Nat) : Prop :=
  ∀ k pte, n ≤ k → k < m → space k = some pte → ram.byte pte.ppn = fun _ => 0

/-- Every page in use but the page tables at `r` keeps its bytes. -/
def Saved (r : Nat) (g : Ledger) (ram after : Ram) : Prop :=
  ∀ q, g.owner q ≠ .free → (∀ path, g.owner q ≠ .table r path) → after.byte q = ram.byte q

theorem Takes.saved {ram after : Ram} (taken : Takes ram after) (h : Agrees Strict ram g) :
    Saved r g ram after :=
  fun q used _ => taken.byte q fun free => used ((h.free q).mp free)

/-- Pages that were taken and given back leave the mapped ones as they were. -/
theorem Edited.saved {ram₀ : Ram} (h : Agrees Strict ram₀ g₀) (edited : Edited r g₀ ram g)
    (space : g.space r = g₀.space r)
    (swapped : ∀ q, q ∉ ram₀.freelist → q ∉ ram.freelist → ram.byte q = ram₀.byte q) :
    Saved r g₀ ram₀ ram := by
  intro q used noTable
  refine swapped q (fun free => used ((h.free q).mp free)) fun free => ?_
  have now := (edited.agrees.free q).mp free
  rcases edited.moves.owner q with same | ⟨pool, -⟩
  · exact used (same ▸ now)
  · cases owned : g₀.owner q with
    | free => exact used owned
    | outside | kept _ => simp [Pool, owned] at pool
    | table r' path =>
        obtain rfl : r' = r := by simpa [Pool, owned] using pool
        exact noTable path owned
    | user r' k =>
        obtain rfl : r' = r := by simpa [Pool, owned] using pool
        obtain ⟨ordinary, pte, maps, rfl⟩ := h.mapped q r' k owned
        rw [← space] at maps
        rw [(edited.agrees.target r' k pte maps).2 ordinary] at now
        cases now

/-- Pages from the free list are none of those that are mapped. -/
theorem Takes.mapped {after : Ram} (taken : Takes ram after) (h : Agrees Strict ram g) {k : Nat} {pte : Pte}
    (low : k < TRAPFRAME / PGSIZE) (maps : g.space r k = some pte) :
    after.byte pte.ppn = ram.byte pte.ppn := by
  refine taken.byte _ fun free => ?_
  have owned := (h.target r k pte maps).2 (ordinary_of_lt low)
  rw [(h.free _).mp free] at owned
  cases owned

theorem Blank.takes {after : Ram} (blank : Blank ram (g.space r) n m) (h : Agrees Strict ram g)
    (low : m ≤ TRAPFRAME / PGSIZE) (taken : Takes ram after) : Blank after (g.space r) n m := by
  intro k pte above below maps
  rw [taken.mapped h (by omega) maps]
  exact blank k pte above below maps

/-- A page of the kernel is mapped at the end of a row, and its bytes stay. -/
theorem mapPage_spec {perm : Perm} (readable : perm.r = true) (h : Agrees Strict ram g)
    (root : g.owner r = .table r []) (low : m < TRAPFRAME / PGSIZE) (vacant : g.space r m = none)
    {page : Nat} {use : Use} (kept : g.owner page = .kept use) :
    outcome (mappages r (m * PGSIZE) page PGSIZE perm)
      (fun done after => Takes ram after ∧ after.byte page = ram.byte page ∧
        ∃ g', Grows r g g' ∧
          match done with
          | false => Agrees Strict after g'
          | true => Agrees Strict after
              ((g'.chart r m (some { ppn := page, v := true, perm })).assign page (.user r m)))
      (fun _ _ => False) ram := by
  have below : m * PGSIZE < MAXVA := by
    refine below_maxva ?_
    rw [frame_page] at low
    rw [trampoline_page]
    omega
  have used : page ∉ ram.freelist := by
    intro free
    rw [(h.free page).mp free] at kept
    cases kept
  have maps := mappages_user h root (page_mod m) below readable (by rwa [page_div])
    (by rw [page_div]; exact ordinary_of_lt low) kept
  refine outcome_post ((mappages_takes r (m * PGSIZE) page PGSIZE perm).and maps) ?_
  rintro done after ⟨mapped, taken⟩
  rw [page_div] at mapped
  exact ⟨taken, taken.byte page used, mapped⟩

/-- The loop of `uvmalloc` adds its pages or takes back what it added. -/
theorem uvmallocFrom_spec {userPerm : Perm} (readable : userPerm.r = true) {newsz : Nat} {ram₀ : Ram}
    (h : Agrees Strict ram₀ g₀) (shape : Shape (g₀.space r) trampoline trapframe n) (count : Nat) :
    ∀ (m : Nat) (ram : Ram) (g : Ledger), Edited r g₀ ram g → n ≤ m → m ≤ 0x8000 →
      Extends (g₀.space r) (g.space r) (fun _ => userPerm) n m → Takes ram₀ ram →
      Blank ram (g.space r) n m →
      outcome (uvmallocFrom r (n * PGSIZE) newsz userPerm count (m * PGSIZE))
        (fun value after => ∃ g', Edited r g₀ after g' ∧
          (value = newsz ∧ m + count ≤ 0x8000 ∧
              Extends (g₀.space r) (g'.space r) (fun _ => userPerm) n (m + count) ∧
              Takes ram₀ after ∧ Blank after (g'.space r) n (m + count) ∨
            value = 0 ∧ g'.space r = g₀.space r ∧ Saved r g₀ ram₀ after))
        (fun _ _ => False) ram := by
  induction count with
  | zero =>
      intro m ram g edited above low extended taken blank
      exact ⟨g, edited, .inl ⟨rfl, low, extended, taken, blank⟩⟩
  | succ count ih =>
      intro m ram g edited above low extended taken blank
      have top : m < TRAPFRAME / PGSIZE := by rw [frame_page]; omega
      -- What was added goes away again, and with it the bytes it brought.
      have undo : ∀ (ram : Ram) (g : Ledger) (taken' : Ram), Edited r g₀ ram g →
          Extends (g₀.space r) (g.space r) (fun _ => userPerm) n m → Takes ram₀ taken' →
          Gives taken' ram →
          outcome (do
            let _ ← uvmdealloc r (m * PGSIZE) (n * PGSIZE)
            return 0)
            (fun value after => ∃ g', Edited r g₀ after g' ∧
              (value = newsz ∧ m + (count + 1) ≤ 0x8000 ∧
                  Extends (g₀.space r) (g'.space r) (fun _ => userPerm) n (m + (count + 1)) ∧
                  Takes ram₀ after ∧ Blank after (g'.space r) n (m + (count + 1)) ∨
                value = 0 ∧ g'.space r = g₀.space r ∧ Saved r g₀ ram₀ after))
            (fun _ _ => False) ram := by
        intro ram g taken' edited extended taken given
        refine outcome_seq ((uvmdealloc_gives r (m * PGSIZE) (n * PGSIZE)).and
          (uvmdealloc_undoes edited shape extended low)) ?_
        rintro - after ⟨⟨g', edited', space⟩, given'⟩
        refine ⟨g', edited', .inr ⟨rfl, space, edited'.saved h space fun q before used => ?_⟩⟩
        exact taken.back (given.trans given') before used
      rw [uvmallocFrom]
      refine outcome_seq (kalloc_takes.and (kalloc_spec edited.agrees)) ?_
      rintro result middle ⟨allocated, took⟩
      cases result with
      | none =>
          exact undo middle g middle ⟨allocated, edited.moves, edited.root⟩ extended
            (taken.trans took) (Gives.refl _)
      | some page =>
          obtain ⟨free, held⟩ := allocated
          have apart : r ≠ page := by
            rintro rfl
            simp [edited.root] at free
          have kept : (g.assign page (.kept .temporary)).owner page = .kept .temporary := by simp
          have root : (g.assign page (.kept .temporary)).owner r = .table r [] := by
            rw [assign_owner, if_neg apart, edited.root]
          have agrees : Agrees Strict (middle.memset page 0) (g.assign page (.kept .temporary)) :=
            (memzero_spec held kept).1
          have cleared : Takes ram (middle.memset page 0) :=
            took.write ((edited.agrees.free page).mpr free) rfl fun q other =>
              Function.update_of_ne other _ _
          have vacant : (g.assign page (.kept .temporary)).space r m = none := by
            rw [assign_space, extended.same m (by omega)]
            exact shape.vacant above top
          refine memzero_then ?_
          refine outcome_seq (mapPage_spec readable agrees root top vacant kept) ?_
          rintro done mapped ⟨grew, bytes, grown, grows, rest⟩
          cases done with
          | true =>
              obtain ⟨edited', extended', low'⟩ :=
                edited.append shape extended above low free grows rest
              have whole := blank.takes edited.agrees (by omega) (cleared.trans grew)
              have blank' : Blank mapped (((grown.chart r m
                  (some { ppn := page, v := true, perm := userPerm })).assign page
                  (.user r m)).space r) n (m + 1) := by
                intro k pte above' below maps
                rw [assign_space, chart_space, grows.space, assign_space] at maps
                by_cases last : k = m
                · rw [if_pos ⟨rfl, last⟩] at maps
                  cases maps
                  exact bytes.trans (Function.update_self _ _ _)
                · rw [if_neg fun both => last both.2] at maps
                  exact whole k pte above' (by omega) maps
              have next := ih (m + 1) mapped _ edited' (by omega) low' extended'
                (taken.trans (cleared.trans grew)) blank'
              rw [Nat.add_one_mul] at next
              rwa [show m + (count + 1) = m + 1 + count by omega]
          | false =>
              refine outcome_seq ((kfree_gives page).and
                (kfree_spec rest (grows.keeps kept (by simp)))) ?_
              rintro - freed ⟨agrees', given⟩
              have back := Grows.giveBack free grows
              have same : Extends (g₀.space r) ((grown.assign page .free).space r)
                  (fun _ => userPerm) n m := by
                rw [back.space]
                exact extended
              exact undo freed _ mapped ⟨agrees', edited.moves.trans back.moves,
                back.keeps edited.root (by simp)⟩ same (taken.trans (cleared.trans grew)) given

/-- `uvmalloc` adds cleared pages up to the new size, or leaves the address space as it was. -/
theorem uvmalloc_spec (h : Agrees Strict ram g) (root : g.owner r = .table r [])
    {oldsz newsz : Nat} (shape : Shape (g.space r) trampoline trapframe (pagesOf oldsz))
    (w x : Bool) :
    outcome (uvmalloc r oldsz newsz w x)
      (fun value after => ∃ g', Edited r g after g' ∧
        (value = 0 ∧ g'.space r = g.space r ∧ Saved r g ram after ∨
          value = max oldsz newsz ∧ pagesOf value ≤ 0x8000 ∧
            Extends (g.space r) (g'.space r) (fun _ => userPerm w x) (pagesOf oldsz)
              (pagesOf value) ∧
            Takes ram after ∧ Blank after (g'.space r) (pagesOf oldsz) (pagesOf value)))
      (fun _ _ => False) ram := by
  have low := h.few shape.low shape.pages
  have start : Edited r g ram g := ⟨h, Moves.refl r g, root⟩
  have none : Blank ram (g.space r) (pagesOf oldsz) (pagesOf oldsz) := fun k _ above below => by omega
  unfold uvmalloc
  by_cases smaller : newsz < oldsz
  · rw [if_pos smaller]
    have same : max oldsz newsz = oldsz := by omega
    refine ⟨g, start, .inr ⟨same.symm, low, Extends.refl _ _ _, Takes.refl _, none⟩⟩
  · rw [if_neg smaller]
    have rounded : PGROUNDUP oldsz = pagesOf oldsz * PGSIZE := by
      refine roundup_eq ?_
      unfold pagesOf PGSIZE at low
      unfold PGSIZE MAXVA
      omega
    rw [rounded]
    refine outcome_post (uvmallocFrom_spec rfl h shape _ (pagesOf oldsz) ram g start
      (Nat.le_refl _) low (Extends.refl _ _ _) (Takes.refl _) none) ?_
    rintro value after ⟨g', edited, result⟩
    refine ⟨g', edited, ?_⟩
    rcases result with ⟨rfl, fits, extended, taken, blank⟩ | failed
    · have reached : pagesOf oldsz + (value - pagesOf oldsz * PGSIZE + PGSIZE - 1) / PGSIZE =
          pagesOf value := by
        clear rounded fits extended start blank none
        unfold pagesOf PGSIZE
        omega
      rw [reached] at fits extended blank
      exact .inr ⟨by omega, fits, extended, taken, blank⟩
    · exact .inl failed

end Growth

end PaddleOs.Vm
