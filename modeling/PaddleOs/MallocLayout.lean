import PaddleOs.Malloc

/-!
The blocks of the allocator. The free ones stand in a circle by their addresses, none of them touches
the next, and together with the blocks in use they fill the memory that `sbrk` has given.
-/

namespace PaddleOs.Malloc

open Foundation.CircularList Foundation.Tiling

variable {E : Type} {h h' : Heap E} {base bp : Nat} {free used : List (Nat × Nat)}

/-- An address that `sbrk` has given. -/
def Given (memory : List (Nat × Nat)) (a : Nat) : Prop := ∃ m ∈ memory, m.1 ≤ a ∧ a < m.1 + m.2

/-- The free blocks and those in use; everything lies between the header `base` and `top`. -/
structure Layout (base : Nat) (h : Heap E) (free used : List (Nat × Nat)) (top : Nat) : Prop where
  circle : Circle h.ptr h.size base free
  empty : h.size base = 0
  rover : h.freep ∈ nodes base free
  sorted : free.Pairwise fun b c => stop HEADER b < c.1
  tiles : Tiles HEADER (free ++ used) (Given h.memory)
  sizes : ∀ b ∈ used, h.size b.1 = b.2
  above : ∀ b ∈ free ++ used, base + HEADER ≤ b.1
  below : ∀ b ∈ free ++ used, stop HEADER b ≤ top

section Order

theorem sorted_lt {b c : Nat × Nat} (positive : 0 < b.2) (order : stop HEADER b < c.1) : b.1 < c.1 :=
  Nat.lt_trans (start_lt_stop (by decide) positive) order

theorem Layout.positive {top : Nat} (layout : Layout base h free used top) :
    ∀ b ∈ free, 0 < b.2 := fun b member =>
  layout.tiles.positive b (List.mem_append_left _ member)

/-- The nodes are in the order of their addresses. -/
theorem nodes_sorted {free : List (Nat × Nat)} {base : Nat} (above : ∀ b ∈ free, base < b.1)
    (positive : ∀ b ∈ free, 0 < b.2) (sorted : free.Pairwise fun b c => stop HEADER b < c.1) :
    (nodes base free).Pairwise (· < ·) := by
  refine List.pairwise_cons.mpr ⟨fun a inside => ?_, ?_⟩
  · obtain ⟨b, member, rfl⟩ := List.mem_map.mp inside
    exact above b member
  · exact List.pairwise_map.mpr (sorted.imp_of_mem fun {b c} left _ order => sorted_lt (positive b left) order)

theorem Layout.ascending {top : Nat} (layout : Layout base h free used top) :
    (nodes base free).Pairwise (· < ·) :=
  nodes_sorted (fun b member => Nat.lt_of_lt_of_le (Nat.lt_add_of_pos_right (by decide))
    (layout.above b (List.mem_append_left _ member))) layout.positive layout.sorted

theorem Layout.distinct {top : Nat} (layout : Layout base h free used top) :
    (nodes base free).Nodup := layout.ascending.imp Nat.ne_of_lt

theorem node_lt {l : List (Nat × Nat)} (order : (nodes base l).Pairwise (· < ·)) {i j : Nat} (less : i < j)
    (bound : j ≤ l.length) : node base l i < node base l j := by
  have inside : j < (Foundation.CircularList.nodes base l).length := by
    simpa [Foundation.CircularList.nodes, starts] using Nat.lt_succ_of_le bound
  unfold node
  rw [List.getD_eq_getElem _ _ inside, List.getD_eq_getElem _ _ (Nat.lt_trans less inside)]
  exact List.pairwise_iff_getElem.mp order i j _ inside less

/-- The blocks before an address and those behind it. -/
theorem split_at (n : Nat) : ∀ {l : List (Nat × Nat)}, (l.Pairwise fun b c => b.1 < c.1) →
    ∃ before after, l = before ++ after ∧ (∀ b ∈ before, b.1 < n) ∧ ∀ b ∈ after, n ≤ b.1 := by
  intro l
  induction l with
  | nil => exact fun _ => ⟨[], [], rfl, fun _ member => absurd member List.not_mem_nil,
      fun _ member => absurd member List.not_mem_nil⟩
  | cons b l ih =>
      intro sorted
      obtain ⟨first, rest⟩ := List.pairwise_cons.mp sorted
      by_cases low : b.1 < n
      · obtain ⟨before, after, rfl, lower, higher⟩ := ih rest
        refine ⟨b :: before, after, rfl, fun c member => ?_, higher⟩
        rcases List.mem_cons.mp member with rfl | member
        · exact low
        · exact lower c member
      · refine ⟨[], b :: l, rfl, fun _ member => absurd member List.not_mem_nil, fun c member => ?_⟩
        rcases List.mem_cons.mp member with rfl | member
        · exact Nat.le_of_not_lt low
        · exact Nat.le_of_lt (Nat.lt_of_le_of_lt (Nat.le_of_not_lt low) (first c member))

/-- The search of `free` ends at the node that the block comes behind, and at no other. -/
theorem between_iff {before after : List (Nat × Nat)} (circle : Circle h.ptr h.size base (before ++ after))
    (order : (nodes base (before ++ after)).Pairwise (· < ·)) (high : base < bp)
    (lower : ∀ b ∈ before, b.1 < bp) (higher : ∀ b ∈ after, bp < b.1)
    {i : Nat} (bound : i ≤ (before ++ after).length) :
    between h bp (node base (before ++ after) i) = true ↔ i = before.length := by
  have below : ∀ j, j ≤ before.length → node base (before ++ after) j < bp := by
    intro j early
    rw [node_front base before after early]
    rcases List.mem_cons.mp (node_mem base before early) with same | inside
    · rw [same]
      exact high
    · obtain ⟨b, member, here⟩ := List.mem_map.mp inside
      exact here ▸ lower b member
  have past : ∀ j, before.length < j → j ≤ (before ++ after).length → bp < node base (before ++ after) j := by
    intro j late inside
    obtain ⟨b, member, here⟩ := List.mem_map.mp (node_back base before after late inside)
    exact here ▸ higher b member
  have early := below i
  have late := past i
  unfold between
  rw [node_next circle bound]
  unfold Foundation.CircularList.after
  simp only [Bool.or_eq_true, Bool.and_eq_true, decide_eq_true_eq]
  split
  · rename_i more
    have up : node base (before ++ after) i < node base (before ++ after) (i + 1) :=
      node_lt order (Nat.lt_succ_self i) more
    have next := below (i + 1)
    have nextLate := past (i + 1)
    by_cases same : i = before.length
    · have first := early (Nat.le_of_eq same)
      have second := nextLate (by omega) more
      omega
    · rcases Nat.lt_or_gt_of_ne same with front | back
      · have second := next front
        omega
      · have first := late back bound
        omega
  · obtain rfl : i = (before ++ after).length := by omega
    have least := below 0 (Nat.zero_le _)
    have wrap : node base (before ++ after) 0 ≤ node base (before ++ after) (before ++ after).length := by
      rcases Nat.eq_zero_or_pos (before ++ after).length with empty | some
      · rw [empty]
      · exact Nat.le_of_lt (node_lt order some (Nat.le_refl _))
    by_cases same : (before ++ after).length = before.length
    · have first := early (Nat.le_of_eq same)
      omega
    · have first := late (by simp only [List.length_append] at *; omega) (Nat.le_refl _)
      omega

end Order

section Used

/-- No block in use begins at a node of the circle. -/
theorem Layout.away {top : Nat} (layout : Layout base h free used top) : ∀ b ∈ used, b.1 ∉ nodes base free := by
  intro b member inside
  rcases List.mem_cons.mp inside with same | inside
  · have high := layout.above b (List.mem_append_right _ member)
    unfold HEADER at high
    omega
  · obtain ⟨c, within, same⟩ := List.mem_map.mp inside
    have apart := (List.pairwise_append.mp layout.tiles.apart).2.2 c within b member
    have first := start_lt_stop (u := HEADER) (by decide) (layout.positive c within)
    have second := start_lt_stop (u := HEADER) (by decide)
      (layout.tiles.positive b (List.mem_append_right _ member))
    unfold Apart at apart
    omega

theorem Layout.other {top : Nat} {x : Nat × Nat} (layout : Layout base h free (x :: used) top) :
    ∀ b ∈ used, b.1 ≠ x.1 := by
  intro b member same
  have tiles := (List.pairwise_append.mp layout.tiles.apart).2.1
  have apart := (List.pairwise_cons.mp tiles).1 b member
  have positive : ∀ c ∈ x :: used, c.1 < stop HEADER c := fun c inside =>
    start_lt_stop (by decide) (layout.tiles.positive c (List.mem_append_right _ inside))
  have first := positive x List.mem_cons_self
  have second := positive b (List.mem_cons_of_mem _ member)
  unfold Apart at apart
  omega

/-- No block begins inside another. -/
theorem Layout.inner {top a : Nat} {b : Nat × Nat} (layout : Layout base h free used top)
    (member : b ∈ free ++ used)
    (front : b.1 < a) (inside : a < stop HEADER b) : a ∉ nodes base free ∧ ∀ c ∈ used, c.1 ≠ a := by
  have clear : ∀ c ∈ free ++ used, c.1 ≠ a := fun c other =>
    layout.tiles.start_ne (by decide) member other front inside
  refine ⟨fun node => ?_, fun c other => clear c (List.mem_append_right _ other)⟩
  rcases List.mem_cons.mp node with rfl | node
  · exact absurd (layout.above b member) (Nat.not_le_of_lt (Nat.lt_of_lt_of_le front (Nat.le_add_right _ _)))
  · obtain ⟨c, other, same⟩ := List.mem_map.mp node
    exact clear c (List.mem_append_left _ other) same

end Used

end PaddleOs.Malloc
