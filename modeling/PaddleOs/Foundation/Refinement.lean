import PaddleOs.Foundation.Runs

/-!
Forward simulation between two labelled machines. Each step of the concrete machine is seen above as
one step of the abstract machine or as none. When every step that is seen can be taken above from the
view of the state, and a step that is not seen leaves the view alone, every run is seen as a run of
the abstract machine. Nothing here names a particular program.
-/

namespace Foundation.Runs

variable {State Label View Event : Type}
variable (step : State → Label → Option State) (seen : State → Label → Option Event)

/-- What is seen above of the steps of a run. -/
def trace : State → List Label → List Event
  | _, [] => []
  | state, label :: rest =>
      match step state label with
      | none => []
      | some next => (seen state label).toList ++ trace next rest

variable {step seen}

/-- One step of the concrete machine under an invariant it keeps. -/
structure Simulates (step : State → Label → Option State) (seen : State → Label → Option Event)
    (above : View → Event → Option View) (view : State → View) (invariant : State → Prop) : Prop where
  keeps : ∀ state label next, invariant state → step state label = some next → invariant next
  shown : ∀ state label next event, invariant state → step state label = some next →
    seen state label = some event → above (view state) event = some (view next)
  hidden : ∀ state label next, invariant state → step state label = some next →
    seen state label = none → view next = view state

theorem Simulates.run_invariant {above : View → Event → Option View} {view : State → View}
    {invariant : State → Prop} (simulates : Simulates step seen above view invariant)
    {start final : State} {labels : List Label} (enter : invariant start)
    (ran : run step start labels = some final) : invariant final := by
  induction labels generalizing start with
  | nil =>
      cases ran
      exact enter
  | cons label rest ih =>
      obtain ⟨next, stepped, onward⟩ := Option.bind_eq_some_iff.mp ran
      exact ih (simulates.keeps start label next enter stepped) onward

theorem Simulates.run_refines {above : View → Event → Option View} {view : State → View}
    {invariant : State → Prop} (simulates : Simulates step seen above view invariant)
    {start final : State} {labels : List Label} (enter : invariant start)
    (ran : run step start labels = some final) :
    run above (view start) (trace step seen start labels) = some (view final) := by
  induction labels generalizing start with
  | nil =>
      cases ran
      rfl
  | cons label rest ih =>
      obtain ⟨next, stepped, onward⟩ := Option.bind_eq_some_iff.mp ran
      have later := ih (simulates.keeps start label next enter stepped) onward
      have begins : trace step seen start (label :: rest) =
          (seen start label).toList ++ trace step seen next rest := by
        simp only [trace, stepped]
      rw [begins]
      cases visible : seen start label with
      | none =>
          rw [simulates.hidden start label next enter stepped visible] at later
          exact later
      | some event =>
          have moves := simulates.shown start label next event enter stepped visible
          change (above (view start) event).bind _ = _
          rw [moves]
          exact later

end Foundation.Runs
