import Mathlib.Data.List.Induction
import Mathlib.Tactic.Common

/-!
Runs of a labelled machine. `step state label` is the state after the labelled
step, or `none` when that step cannot be taken there; all nondeterminism is in
the labels. A run is a list of labels. The induction rules hand an invariant
the labels taken so far, so it may speak about the history as well.
-/

namespace Foundation.Runs

variable {State Label : Type} (step : State → Label → Option State)

def run : State → List Label → Option State
  | start, [] => some start
  | start, label :: rest => (step start label).bind fun next => run next rest

theorem run_append (start : State) (first second : List Label) :
    run step start (first ++ second) =
      (run step start first).bind fun middle => run step middle second := by
  induction first generalizing start with
  | nil => rfl
  | cons label rest ih =>
      simp only [List.cons_append, run]
      cases step start label with
      | none => rfl
      | some next => exact ih next

theorem run_snoc {start final : State} {labels : List Label} {label : Label} :
    run step start (labels ++ [label]) = some final ↔
      ∃ middle, run step start labels = some middle ∧ step middle label = some final := by
  rw [run_append]
  cases ran : run step start labels with
  | none => simp
  | some middle => simp [run]

/-- What holds at the start and is carried along by every step of the run holds
of every state the run reaches, together with the labels taken to reach it. -/
theorem run_invariant (invariant : List Label → State → Prop) {start : State}
    (enter : invariant [] start)
    (pass : ∀ labels state label next, run step start labels = some state →
      invariant labels state → step state label = some next →
      invariant (labels ++ [label]) next)
    {labels : List Label} {final : State} (ran : run step start labels = some final) :
    invariant labels final := by
  induction labels using List.reverseRecOn generalizing final with
  | nil =>
      cases ran
      exact enter
  | append_singleton labels label ih =>
      obtain ⟨middle, reached, last⟩ := (run_snoc step).mp ran
      exact pass labels middle label final reached (ih reached) last

/-- The same under a condition that every step of the run has to meet. -/
theorem run_invariant_where (meets : State → Label → Prop) (invariant : State → Prop)
    {start : State} (enter : invariant start)
    (pass : ∀ state label next, invariant state → meets state label →
      step state label = some next → invariant next)
    {labels : List Label} {final : State} (ran : run step start labels = some final)
    (met : ∀ before label after middle, labels = before ++ label :: after →
      run step start before = some middle → meets middle label) :
    invariant final := by
  induction labels using List.reverseRecOn generalizing final with
  | nil =>
      cases ran
      exact enter
  | append_singleton labels label ih =>
      obtain ⟨middle, reached, last⟩ := (run_snoc step).mp ran
      refine pass middle label final (ih reached ?_) (met labels label [] middle rfl reached) last
      intro before other after state split upTo
      refine met before other (after ++ [label]) state ?_ upTo
      rw [split, List.append_assoc, List.cons_append]

/-- Checks a condition at every step of a run. -/
def meetsAll (meets : State → Label → Bool) : State → List Label → Bool
  | _, [] => true
  | state, label :: rest =>
      meets state label && ((step state label).map fun next => meetsAll meets next rest).getD true

theorem meetsAll_split (meets : State → Label → Bool) {start middle : State}
    {before after : List Label} {label : Label}
    (met : meetsAll step meets start (before ++ label :: after) = true)
    (ran : run step start before = some middle) : meets middle label = true := by
  induction before generalizing start with
  | nil =>
      cases ran
      exact (Bool.and_eq_true_iff.mp met).1
  | cons first rest ih =>
      simp only [run] at ran
      obtain ⟨next, stepped, onward⟩ := Option.bind_eq_some_iff.mp ran
      have tail := (Bool.and_eq_true_iff.mp met).2
      rw [stepped] at tail
      exact ih tail onward

end Foundation.Runs
