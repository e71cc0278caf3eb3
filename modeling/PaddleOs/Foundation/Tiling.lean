import Mathlib.Data.List.Pairwise
import Mathlib.Data.List.Perm.Basic
import Mathlib.Tactic.Common

/-!
Rows of blocks that fill a set of addresses without overlap. A block is its start and its size in
units; a unit is `u` addresses wide. Nothing here names a particular program.
-/

namespace Foundation.Tiling

variable {u : Nat} {bs bs' : List (Nat × Nat)} {x y b : Nat × Nat} {S : Nat → Prop}

/-- The first address behind the block. -/
def stop (u : Nat) (b : Nat × Nat) : Nat := b.1 + u * b.2

def Inside (u : Nat) (b : Nat × Nat) (a : Nat) : Prop := b.1 ≤ a ∧ a < stop u b

def Apart (u : Nat) (b c : Nat × Nat) : Prop := stop u b ≤ c.1 ∨ stop u c ≤ b.1

theorem Apart.symm {b c : Nat × Nat} (apart : Apart u b c) : Apart u c b := Or.symm apart

instance : Std.Symm (Apart u) := ⟨fun _ _ => Apart.symm⟩

/-- The blocks are there, lie apart from each other and fill the set. -/
structure Tiles (u : Nat) (bs : List (Nat × Nat)) (S : Nat → Prop) : Prop where
  positive : ∀ b ∈ bs, 0 < b.2
  apart : bs.Pairwise (Apart u)
  fills : ∀ a, S a ↔ ∃ b ∈ bs, Inside u b a

theorem Tiles.perm (tiles : Tiles u bs S) (same : bs.Perm bs') : Tiles u bs' S where
  positive b member := tiles.positive b (same.mem_iff.mpr member)
  apart := (same.pairwise_iff Apart.symm).mp tiles.apart
  fills a := by
    rw [tiles.fills]
    exact exists_congr fun b => and_congr_left fun _ => same.mem_iff

theorem stop_join (x : Nat × Nat) (m : Nat) : stop u (x.1, x.2 + m) = stop u x + u * m := by
  unfold stop
  rw [Nat.mul_add, Nat.add_assoc]

theorem start_lt_stop (unit : 0 < u) (positive : 0 < b.2) : b.1 < stop u b :=
  Nat.lt_add_of_pos_right (Nat.mul_pos unit positive)

/-- Two blocks that touch are one block. -/
theorem tiles_join (unit : 0 < u) (here : 0 < x.2) (there : 0 < y.2) (touch : y.1 = stop u x) :
    Tiles u (x :: y :: bs) S ↔ Tiles u ((x.1, x.2 + y.2) :: bs) S := by
  have ends : stop u (x.1, x.2 + y.2) = stop u y := by
    rw [stop_join, ← touch]
    rfl
  have first := start_lt_stop unit here
  have second := start_lt_stop unit there
  have inside : ∀ a, Inside u (x.1, x.2 + y.2) a ↔ Inside u x a ∨ Inside u y a := by
    intro a
    unfold Inside
    rw [ends]
    omega
  have clear : ∀ b, 0 < b.2 → (Apart u (x.1, x.2 + y.2) b ↔ Apart u x b ∧ Apart u y b) := by
    intro b positive
    have width := start_lt_stop unit positive
    unfold Apart
    rw [ends]
    omega
  constructor
  · intro tiles
    obtain ⟨front, apart⟩ := List.pairwise_cons.mp tiles.apart
    obtain ⟨middle, apart⟩ := List.pairwise_cons.mp apart
    refine ⟨fun b member => ?_, List.pairwise_cons.mpr ⟨fun b member => ?_, apart⟩, fun a => ?_⟩
    · rcases List.mem_cons.mp member with rfl | member
      · exact Nat.add_pos_left here _
      · exact tiles.positive b (List.mem_cons_of_mem _ (List.mem_cons_of_mem _ member))
    · refine (clear b ?_).mpr ⟨front b (List.mem_cons_of_mem _ member), middle b member⟩
      exact tiles.positive b (List.mem_cons_of_mem _ (List.mem_cons_of_mem _ member))
    · rw [tiles.fills, List.exists_mem_cons_iff, List.exists_mem_cons_iff, List.exists_mem_cons_iff, inside,
        or_assoc]
  · intro tiles
    obtain ⟨front, apart⟩ := List.pairwise_cons.mp tiles.apart
    have both : ∀ b ∈ bs, Apart u x b ∧ Apart u y b := fun b member =>
      (clear b (tiles.positive b (List.mem_cons_of_mem _ member))).mp (front b member)
    refine ⟨fun b member => ?_, List.pairwise_cons.mpr ⟨fun b member => ?_,
      List.pairwise_cons.mpr ⟨fun b member => (both b member).2, apart⟩⟩, fun a => ?_⟩
    · rcases List.mem_cons.mp member with rfl | member
      · exact here
      · rcases List.mem_cons.mp member with rfl | member
        · exact there
        · exact tiles.positive b (List.mem_cons_of_mem _ member)
    · rcases List.mem_cons.mp member with rfl | member
      · exact .inl (Nat.le_of_eq touch.symm)
      · exact (both b member).1
    · rw [tiles.fills, List.exists_mem_cons_iff, List.exists_mem_cons_iff, List.exists_mem_cons_iff, inside,
        or_assoc]

/-- A new block behind all others. -/
theorem Tiles.add (tiles : Tiles u bs S) (positive : 0 < x.2) (behind : ∀ b ∈ bs, stop u b ≤ x.1) :
    Tiles u (x :: bs) fun a => S a ∨ Inside u x a where
  positive b member := by
    rcases List.mem_cons.mp member with rfl | member
    · exact positive
    · exact tiles.positive b member
  apart := List.pairwise_cons.mpr ⟨fun b member => .inr (behind b member), tiles.apart⟩
  fills a := by
    rw [tiles.fills, List.exists_mem_cons_iff, or_comm]

/-- No block begins inside another. -/
theorem Tiles.start_ne (tiles : Tiles u bs S) (unit : 0 < u) (here : x ∈ bs) (there : y ∈ bs) {a : Nat}
    (front : x.1 < a) (inside : a < stop u x) : y.1 ≠ a := by
  by_cases same : x = y
  · exact same ▸ Nat.ne_of_lt front
  · have apart := tiles.apart.forall here there same
    have width := start_lt_stop unit (tiles.positive y there)
    unfold Apart at apart
    omega

section Merging

/-- A block is put before the blocks behind it, as one with the next where they touch. -/
def glue (u : Nat) (x : Nat × Nat) : List (Nat × Nat) → List (Nat × Nat)
  | [] => [x]
  | y :: bs => if stop u x = y.1 then (x.1, x.2 + y.2) :: bs else x :: y :: bs

theorem glue_cons (x y : Nat × Nat) (bs : List (Nat × Nat)) :
    glue u x (y :: bs) = if stop u x = y.1 then (x.1, x.2 + y.2) :: bs else x :: y :: bs := rfl

/-- Blocks that touch become one. -/
def merge (u : Nat) (bs : List (Nat × Nat)) : List (Nat × Nat) := bs.foldr (glue u) []

theorem merge_cons (x : Nat × Nat) (bs : List (Nat × Nat)) : merge u (x :: bs) = glue u x (merge u bs) := rfl

/-- The first block keeps its start. -/
theorem glue_starts (x : Nat × Nat) (bs : List (Nat × Nat)) :
    ∃ n rest, glue u x bs = (x.1, n) :: rest ∧ x.2 ≤ n ∧ rest <:+ bs := by
  cases bs with
  | nil => exact ⟨x.2, [], rfl, Nat.le_refl _, List.suffix_refl _⟩
  | cons y bs =>
      rw [glue_cons]
      split
      · exact ⟨x.2 + y.2, bs, rfl, Nat.le_add_right _ _, List.suffix_cons _ _⟩
      · exact ⟨x.2, y :: bs, rfl, Nat.le_refl _, List.suffix_refl _⟩

theorem glue_suffix (whole : glue u x bs = y :: bs') : bs' <:+ bs := by
  obtain ⟨n, rest, same, -, suffix⟩ := glue_starts (u := u) x bs
  obtain ⟨-, rfl⟩ := List.cons.inj (same.symm.trans whole)
  exact suffix

theorem glue_apart (clear : ∀ c ∈ bs, stop u x ≠ c.1) : glue u x bs = x :: bs := by
  cases bs with
  | nil => rfl
  | cons y bs => exact if_neg (clear y List.mem_cons_self)

/-- A block begins where one of the given ones begins, and ends where one of them ends. -/
theorem mem_glue (member : b ∈ glue u x bs) :
    (∃ c ∈ x :: bs, c.1 = b.1) ∧ ∃ c ∈ x :: bs, stop u c = stop u b := by
  have own : ∀ {l : List (Nat × Nat)}, b ∈ l → (∃ c ∈ l, c.1 = b.1) ∧ ∃ c ∈ l, stop u c = stop u b :=
    fun inside => ⟨⟨b, inside, rfl⟩, ⟨b, inside, rfl⟩⟩
  cases bs with
  | nil => exact own member
  | cons y bs =>
      rw [glue_cons] at member
      split at member
      · rename_i touch
        rcases List.mem_cons.mp member with rfl | member
        · refine ⟨⟨x, List.mem_cons_self, rfl⟩, ⟨y, List.mem_cons_of_mem _ List.mem_cons_self, ?_⟩⟩
          rw [stop_join, touch]
          rfl
        · exact own (List.mem_cons_of_mem _ (List.mem_cons_of_mem _ member))
      · exact own member

theorem mem_merge (member : b ∈ merge u bs) : (∃ c ∈ bs, c.1 = b.1) ∧ ∃ c ∈ bs, stop u c = stop u b := by
  induction bs generalizing b with
  | nil => cases member
  | cons x bs ih =>
      rw [merge_cons] at member
      obtain ⟨⟨c, first, begins⟩, ⟨d, last, ends⟩⟩ := mem_glue member
      constructor
      · rcases List.mem_cons.mp first with rfl | first
        · exact ⟨c, List.mem_cons_self, begins⟩
        · obtain ⟨⟨e, inside, same⟩, -⟩ := ih first
          exact ⟨e, List.mem_cons_of_mem _ inside, same.trans begins⟩
      · rcases List.mem_cons.mp last with rfl | last
        · exact ⟨d, List.mem_cons_self, ends⟩
        · obtain ⟨-, ⟨e, inside, same⟩⟩ := ih last
          exact ⟨e, List.mem_cons_of_mem _ inside, same.trans ends⟩

/-- No block gets smaller. -/
theorem merge_covers (member : x ∈ bs) : ∃ b ∈ merge u bs, x.2 ≤ b.2 := by
  induction bs with
  | nil => cases member
  | cons y bs ih =>
      rw [merge_cons]
      rcases List.mem_cons.mp member with rfl | member
      · obtain ⟨n, rest, whole, more, -⟩ := glue_starts (u := u) x (merge u bs)
        exact ⟨(x.1, n), whole ▸ List.mem_cons_self, more⟩
      · obtain ⟨b, inside, more⟩ := ih member
        cases tail : merge u bs with
        | nil =>
            rw [tail] at inside
            cases inside
        | cons c rest =>
            rw [tail] at inside
            rw [glue_cons]
            split
            · rcases List.mem_cons.mp inside with rfl | inside
              · exact ⟨_, List.mem_cons_self, Nat.le_trans more (Nat.le_add_left _ _)⟩
              · exact ⟨b, List.mem_cons_of_mem _ inside, more⟩
            · exact ⟨b, List.mem_cons_of_mem _ inside, more⟩

theorem merge_length (bs : List (Nat × Nat)) : (merge u bs).length ≤ bs.length := by
  induction bs with
  | nil => exact Nat.le_refl _
  | cons x bs ih =>
      obtain ⟨n, rest, whole, -, suffix⟩ := glue_starts (u := u) x (merge u bs)
      rw [merge_cons, whole]
      exact Nat.succ_le_succ (Nat.le_trans suffix.length_le ih)

/-- What stands apart in front of the others stays as it is. -/
theorem merge_append (clear : bs.Pairwise fun b c => stop u b < c.1)
    (before : ∀ b ∈ bs, ∀ c ∈ bs', stop u b < c.1) : merge u (bs ++ bs') = bs ++ merge u bs' := by
  induction bs with
  | nil => rfl
  | cons x bs ih =>
      obtain ⟨first, rest⟩ := List.pairwise_cons.mp clear
      rw [List.cons_append, merge_cons, ih rest fun b member => before b (List.mem_cons_of_mem _ member)]
      refine glue_apart fun c member => ?_
      rcases List.mem_append.mp member with member | member
      · exact Nat.ne_of_lt (first c member)
      · obtain ⟨⟨d, inside, same⟩, -⟩ := mem_merge member
        exact same ▸ Nat.ne_of_lt (before x List.mem_cons_self d inside)

theorem merge_self (clear : bs.Pairwise fun b c => stop u b < c.1) : merge u bs = bs := by
  have same : merge u (bs ++ []) = bs ++ merge u [] := merge_append clear fun _ _ _ none =>
    absurd none List.not_mem_nil
  simpa [merge] using same

/-- No two blocks of the result touch. -/
theorem merge_clear (ordered : bs.Pairwise fun b c => stop u b ≤ c.1) :
    (merge u bs).Pairwise fun b c => stop u b < c.1 := by
  induction bs with
  | nil => exact List.Pairwise.nil
  | cons x bs ih =>
      obtain ⟨first, rest⟩ := List.pairwise_cons.mp ordered
      have tail := ih rest
      have behind : ∀ c ∈ merge u bs, stop u x ≤ c.1 := fun c member => by
        obtain ⟨⟨d, inside, same⟩, -⟩ := mem_merge member
        exact same ▸ first d inside
      rw [merge_cons]
      cases whole : merge u bs with
      | nil => exact List.pairwise_singleton _ _
      | cons y rest =>
          rw [whole] at tail behind
          obtain ⟨next, last⟩ := List.pairwise_cons.mp tail
          rw [glue_cons]
          split
          · rename_i touch
            refine List.pairwise_cons.mpr ⟨fun c member => ?_, last⟩
            rw [stop_join, touch]
            exact next c member
          · rename_i gap
            refine List.pairwise_cons.mpr ⟨fun c member => ?_, tail⟩
            have near : stop u x < y.1 := Nat.lt_of_le_of_ne (behind y List.mem_cons_self) gap
            rcases List.mem_cons.mp member with rfl | member
            · exact near
            · exact Nat.lt_of_lt_of_le near (Nat.le_trans (Nat.le_add_right _ _) (Nat.le_of_lt (next c member)))

theorem Tiles.glue (tiles : Tiles u (x :: (bs ++ bs')) S) (unit : 0 < u) :
    Tiles u (Tiling.glue u x bs ++ bs') S := by
  cases bs with
  | nil => exact tiles
  | cons y bs =>
      have here := tiles.positive x List.mem_cons_self
      have there := tiles.positive y (List.mem_cons_of_mem _ List.mem_cons_self)
      rw [glue_cons]
      split
      · rename_i touch
        exact (tiles_join unit here there touch.symm).mp tiles
      · exact tiles

theorem Tiles.merge (tiles : Tiles u (bs ++ bs') S) (unit : 0 < u) : Tiles u (Tiling.merge u bs ++ bs') S := by
  induction bs generalizing bs' with
  | nil => exact tiles
  | cons x bs ih =>
      rw [merge_cons]
      -- `x` is moved behind the others, where the induction leaves it alone.
      refine Tiles.glue ?_ unit
      have moved : (x :: bs ++ bs').Perm (bs ++ x :: bs') := List.perm_middle.symm
      exact (ih (tiles.perm moved)).perm List.perm_middle

end Merging

end Foundation.Tiling
