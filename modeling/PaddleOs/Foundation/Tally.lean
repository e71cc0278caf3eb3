import Mathlib.Algebra.BigOperators.Fin
import Mathlib.Algebra.BigOperators.Ring.Finset
import Mathlib.Algebra.Order.BigOperators.Group.Finset

/-!
Tallies over a finite table. A weight is read off each entry; storing a new entry
changes the sum by the difference of the two weights.
-/

namespace Foundation.Tally

variable {ι α : Type} [Fintype ι] [DecidableEq ι]

def tally (weight : α → Int) (table : ι → α) : Int := ∑ i, weight (table i)

theorem tally_update (weight : α → Int) (table : ι → α) (i : ι) (entry : α) :
    tally weight (Function.update table i entry) =
      tally weight table - weight (table i) + weight entry := by
  have rest : ∀ other : ι → α, tally weight other =
      weight (other i) + ∑ j ∈ Finset.univ.erase i, weight (other j) := fun other =>
    (Finset.add_sum_erase Finset.univ (fun j => weight (other j)) (Finset.mem_univ i)).symm
  have same : ∑ j ∈ Finset.univ.erase i, weight (Function.update table i entry j) =
      ∑ j ∈ Finset.univ.erase i, weight (table j) := by
    refine Finset.sum_congr rfl fun j other => ?_
    rw [Function.update_of_ne (Finset.ne_of_mem_erase other)]
  rw [rest, rest table, same, Function.update_self]
  omega

omit [DecidableEq ι] in
theorem tally_zero {weight : α → Int} {table : ι → α} (zero : ∀ i, weight (table i) = 0) :
    tally weight table = 0 := Finset.sum_eq_zero fun i _ => zero i

omit [DecidableEq ι] in
theorem le_tally {weight : α → Int} (nonneg : ∀ entry, 0 ≤ weight entry) (table : ι → α) (i : ι) :
    weight (table i) ≤ tally weight table :=
  Finset.single_le_sum (f := fun j => weight (table j)) (fun j _ => nonneg (table j))
    (Finset.mem_univ i)

omit [DecidableEq ι] in
/-- The tally of a yes-or-no weight counts the entries it accepts. -/
theorem tally_count (accepts : α → Prop) [DecidablePred accepts] (table : ι → α) :
    tally (fun entry => if accepts entry then 1 else 0) table =
      (Finset.univ.filter fun i => accepts (table i)).card := by
  unfold tally
  rw [Finset.sum_boole]

end Foundation.Tally
