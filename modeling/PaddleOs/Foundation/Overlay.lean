import Mathlib.Data.List.Basic

/-!
Contents of an address space as a function from addresses, and a list of values laid over
it from an address on. Nothing here names a particular program.
-/

namespace Foundation.Overlay

variable {α : Type} {image : Nat → α} {base a : Nat} {values : List α}

def overlay (image : Nat → α) (base : Nat) (values : List α) : Nat → α := fun a =>
  if base ≤ a then (values[a - base]?).getD (image a) else image a

theorem overlay_at (image : Nat → α) (base : Nat) {i : Nat} (bound : i < values.length) :
    overlay image base values (base + i) = values[i] := by
  unfold overlay
  rw [if_pos (by omega), show base + i - base = i by omega, List.getElem?_eq_getElem bound, Option.getD_some]

theorem overlay_below (image : Nat → α) (values : List α) (below : a < base) :
    overlay image base values a = image a := if_neg (by omega)

theorem overlay_above (image : Nat → α) (above : base + values.length ≤ a) :
    overlay image base values a = image a := by
  unfold overlay
  rw [if_pos (by omega), List.getElem?_eq_none (by omega), Option.getD_none]

theorem overlay_apart (image : Nat → α) (apart : a < base ∨ base + values.length ≤ a) :
    overlay image base values a = image a :=
  apart.elim (overlay_below image values) (overlay_above image)

@[simp]
theorem overlay_nil (image : Nat → α) (base : Nat) : overlay image base [] = image := by
  funext a
  exact overlay_apart image (by simp; omega)

/-- A row is laid down in two parts. -/
theorem overlay_append (image : Nat → α) (base : Nat) (first second : List α) :
    overlay image base (first ++ second) =
      overlay (overlay image base first) (base + first.length) second := by
  funext a
  by_cases below : a < base + first.length
  · rw [overlay_below _ _ below]
    unfold overlay
    split
    · rw [List.getElem?_append_left (by omega)]
    · rfl
  · rw [overlay, if_pos (by omega), List.getElem?_append_right (by omega), overlay, if_pos (by omega),
      overlay_above image (by omega), show a - base - first.length = a - (base + first.length) by omega]

/-- What matters is the row and what it lies on. -/
theorem overlay_congr {image' : Nat → α} (same : a < base ∨ base + values.length ≤ a → image a = image' a) :
    overlay image base values a = overlay image' base values a := by
  unfold overlay
  split
  · by_cases inside : a - base < values.length
    · rw [List.getElem?_eq_getElem inside, Option.getD_some, Option.getD_some]
    · rw [same (by omega)]
  · exact same (by omega)

/-- The values stand from `base` on. -/
def Stands (image : Nat → α) (base : Nat) (values : List α) : Prop :=
  ∀ i (bound : i < values.length), image (base + i) = values[i]

theorem overlay_stands (image : Nat → α) (base : Nat) (values : List α) :
    Stands (overlay image base values) base values := fun _ bound => overlay_at image base bound

/-- Another row does not cover them. -/
theorem Stands.overlay_apart {other : Nat} {more : List α} (stands : Stands image base values)
    (apart : base + values.length ≤ other ∨ other + more.length ≤ base) :
    Stands (overlay image other more) base values := by
  intro i bound
  rw [Overlay.overlay_apart image (by omega)]
  exact stands i bound

theorem stands_nil (image : Nat → α) (base : Nat) : Stands image base [] := fun _ bound => nomatch bound

theorem stands_cons {value : α} :
    Stands image base (value :: values) ↔ image base = value ∧ Stands image (base + 1) values := by
  constructor
  · intro stands
    refine ⟨stands 0 (by simp), fun i bound => ?_⟩
    rw [show base + 1 + i = base + (i + 1) by omega]
    exact stands (i + 1) (by simpa using bound)
  · rintro ⟨first, stands⟩ i bound
    cases i with
    | zero => exact first
    | succ i =>
        rw [show base + (i + 1) = base + 1 + i by omega]
        exact stands i (by simpa using bound)

theorem stands_append {first second : List α} : Stands image base (first ++ second) ↔
    Stands image base first ∧ Stands image (base + first.length) second := by
  induction first generalizing base with
  | nil => simp [stands_nil]
  | cons value first ih =>
      rw [List.cons_append, stands_cons, stands_cons, ih, and_assoc, List.length_cons, Nat.add_assoc,
        Nat.add_comm 1]

theorem Stands.congr {image' : Nat → α} (stands : Stands image base values)
    (same : ∀ i, i < values.length → image' (base + i) = image (base + i)) : Stands image' base values :=
  fun i bound => (same i bound).trans (stands i bound)

end Foundation.Overlay
