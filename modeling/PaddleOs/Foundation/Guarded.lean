import PaddleOs.Foundation.Monitor
import PaddleOs.Foundation.Runs

/-!
The invariant of a lock. `Free` holds of what the lock protects whenever nobody holds it, and `Local`
says for each place in the code what the holder may rely on there. Whoever takes the lock finds `Free`,
whoever releases it or goes to sleep gives `Free` back, and what happens without the lock disturbs
neither. Nothing here names a particular program.
-/

namespace Foundation.Monitor

open Runs

variable {N : Nat} {I L S C : Type} (Free : S → Prop) (Local : L → S → Prop)

/-- What an action of the holder has to leave behind. -/
def Hands (before : S) : Action L S C → Prop
  | .move shared next => Local next shared
  | .sleep _ next => Free before ∧ ∀ any, Free any → Local next any
  | .wakeup _ next => Local next before
  | .release shared _ => Free shared

structure Guards (prog : Program N I L S C) : Prop where
  enter : ∀ t at_ next, prog.enter t at_ = some next → ∀ any, Free any → Local next any
  inside : ∀ t input shared at_ action, Local at_ shared →
    prog.inside t input shared at_ = some action → Hands Free Local shared action
  free : ∀ t input shared at_ after next, prog.outside t input shared at_ = some (after, next) →
    Free shared → Free after
  held : ∀ t input shared at_ after next, prog.outside t input shared at_ = some (after, next) →
    ∀ place, Local place shared → Local place after

/-- What is known at a place in the code. Without the lock it must not depend on the present data. -/
def Pc.Knows (pc : Pc L C) (shared : S) : Prop :=
  match pc with
  | .outside _ => True
  | .inside at_ => Local at_ shared
  | .sweeping _ _ next => Local next shared
  | .falling _ next => Free shared ∧ ∀ any, Free any → Local next any
  | .switching _ next | .asleep _ next | .relock next => ∀ any, Free any → Local next any

structure Guarded (st : State N L S C) : Prop where
  knows : ∀ t, (st.pc t).Knows Free Local st.shared
  free : st.holder = none → Free st.shared

variable {Free Local} {prog : Program N I L S C} {st st' : State N L S C} {t : Fin N}

theorem Pc.Knows.woken [DecidableEq C] {pc : Pc L C} {shared : S} (knows : pc.Knows Free Local shared)
    (chan : C) : (pc.woken chan).Knows Free Local shared := by
  cases pc with
  | asleep c next =>
      change (if c = chan then Pc.relock next else Pc.asleep c next).Knows Free Local shared
      split <;> exact knows
  | _ => exact knows

/-- Whoever does not hold the lock does not depend on the data. -/
theorem Pc.Knows.other {pc : Pc L C} {shared : S} (knows : pc.Knows Free Local shared)
    (out : pc.holds = false) (after : S) : pc.Knows Free Local after := by
  cases pc with
  | inside at_ => cases out
  | sweeping c i next => cases out
  | falling c next => cases out
  | _ => exact knows

/-- One process moves; the others find the data as they left it, or do not look at it. -/
theorem guarded_turn (shared : S) (holder : Option (Fin N)) {pc : Pc L C}
    (own : pc.Knows Free Local shared)
    (others : ∀ u, u ≠ t → (st.pc u).Knows Free Local shared) (free : holder = none → Free shared) :
    Guarded Free Local ({ st with shared, holder }.setPc t pc) := by
  constructor
  · intro u
    by_cases here : u = t
    · rw [here, setPc_same]
      exact own
    · rw [setPc_other _ here]
      exact others u here
  · exact free

theorem act_guarded {at_ : L} {action : Action L S C} (guarded : Guarded Free Local st)
    (exclusive : Exclusive st) (here : st.pc t = .inside at_)
    (hands : Hands Free Local st.shared action) : Guarded Free Local (act st t action) := by
  have held : (st.pc t).holds = true := by rw [here]; rfl
  have holder : st.holder = some t := (exclusive t).mp held
  have taken : ¬ st.holder = none := by simp [holder]
  have others : ∀ (after : S) u, u ≠ t → (st.pc u).Knows Free Local after :=
    fun after u apart => (guarded.knows u).other (exclusive.others held apart) after
  cases action with
  | move shared next =>
      exact guarded_turn shared st.holder hands (others shared) fun none => absurd none taken
  | sleep chan next =>
      exact guarded_turn st.shared st.holder hands (others st.shared) fun none => absurd none taken
  | wakeup chan next =>
      exact guarded_turn st.shared st.holder hands (others st.shared) fun none => absurd none taken
  | release shared next => exact guarded_turn shared none trivial (others shared) fun _ => hands

theorem sweep_guarded [DecidableEq C] {chan : C} {i : Nat} {next : L} (guarded : Guarded Free Local st)
    (at_ : st.pc t = .sweeping chan i next) (swept : sweep st t chan i next = some st') :
    Guarded Free Local st' := by
  have own : Local next st.shared := by
    have knows := guarded.knows t
    rw [at_] at knows
    exact knows
  have sweeps : ∀ j, (Pc.sweeping chan j next).Knows Free Local st.shared := fun _ => own
  have same : ∀ u, (st.pc u).Knows Free Local st.shared := guarded.knows
  unfold sweep at swept
  split at swept
  · rename_i below
    dsimp only at swept
    split at swept
    · cases swept
      exact guarded_turn st.shared st.holder (sweeps (i + 1)) (fun u _ => same u) guarded.free
    · split at swept
      · cases swept
      · cases swept
        have first : Guarded Free Local (st.setPc ⟨i, below⟩ ((st.pc ⟨i, below⟩).woken chan)) :=
          guarded_turn st.shared st.holder ((same ⟨i, below⟩).woken chan) (fun u _ => same u) guarded.free
        exact guarded_turn st.shared st.holder (sweeps (i + 1)) (fun u _ => first.knows u) guarded.free
  · cases swept
    exact guarded_turn st.shared st.holder own (fun u _ => same u) guarded.free

theorem step_guarded [DecidableEq C] {label : Label N I} (guards : Guards Free Local prog)
    (exclusive : Exclusive st) (guarded : Guarded Free Local st)
    (stepped : prog.step st label = some st') : Guarded Free Local st' := by
  cases label with
  | acquire t =>
      simp only [Program.step] at stepped
      split at stepped
      · rename_i nobody
        have free := guarded.free nobody
        split at stepped
        · rename_i at_ here
          obtain ⟨next, enters, rfl⟩ := Option.map_eq_some_iff.mp stepped
          exact guarded_turn st.shared (some t) (guards.enter t at_ next enters st.shared free)
            (fun u _ => guarded.knows u) (fun none => absurd none (Option.some_ne_none t))
        · rename_i next here
          cases stepped
          have own := guarded.knows t
          rw [here] at own
          exact guarded_turn st.shared (some t) (own st.shared free)
            (fun u _ => guarded.knows u) (fun none => absurd none (Option.some_ne_none t))
        · cases stepped
      · cases stepped
  | inside t input =>
      obtain ⟨at_, action, here, acts, rfl⟩ := step_inside stepped
      have own := guarded.knows t
      rw [here] at own
      exact act_guarded guarded exclusive here (guards.inside t input _ at_ action own acts)
  | outside t input =>
      simp only [Program.step] at stepped
      split at stepped
      · rename_i at_ here
        obtain ⟨⟨after, next⟩, acts, rfl⟩ := Option.map_eq_some_iff.mp stepped
        have kept := guards.held t input _ at_ after next acts
        have free := guards.free t input _ at_ after next acts
        have own : (Pc.outside next : Pc L C).Knows Free Local after := trivial
        apply guarded_turn after st.holder own ?_ fun nobody => free (guarded.free nobody)
        intro u _
        have knows := guarded.knows u
        cases pc : st.pc u with
        | inside place => rw [pc] at knows; exact kept place knows
        | sweeping c i place => rw [pc] at knows; exact kept place knows
        | falling c place => rw [pc] at knows; exact ⟨free knows.1, knows.2⟩
        | _ => rw [pc] at knows; exact knows
      · cases stepped
  | advance t =>
      simp only [Program.step] at stepped
      split at stepped
      · rename_i here
        exact sweep_guarded guarded here stepped
      · rename_i chan next here
        cases stepped
        have own := guarded.knows t
        rw [here] at own
        exact guarded_turn st.shared none own.2 (fun u _ => guarded.knows u) fun _ => own.1
      · rename_i chan next here
        cases stepped
        have own := guarded.knows t
        rw [here] at own
        exact guarded_turn st.shared st.holder own (fun u _ => guarded.knows u) guarded.free
      · cases stepped
  | wake t =>
      simp only [Program.step] at stepped
      split at stepped
      · rename_i next here
        cases stepped
        have own := guarded.knows t
        rw [here] at own
        exact guarded_turn st.shared st.holder own (fun u _ => guarded.knows u) guarded.free
      · cases stepped

/-- From a start at which everybody is outside, the lock excludes and its invariant holds throughout. -/
theorem run_guarded [DecidableEq C] (guards : Guards Free Local prog) {start : State N L S C}
    (out : ∀ t, ∃ at_, start.pc t = .outside at_) (nobody : start.holder = none)
    (free : Free start.shared) {labels : List (Label N I)}
    (ran : run prog.step start labels = some st) : Exclusive st ∧ Guarded Free Local st := by
  apply run_invariant prog.step (fun _ st => Exclusive st ∧ Guarded Free Local st) ?_ ?_ ran
  · constructor
    · intro t
      obtain ⟨at_, here⟩ := out t
      simp [here, nobody, Pc.holds]
    · constructor
      · intro t
        obtain ⟨at_, here⟩ := out t
        rw [here]
        trivial
      · exact fun _ => free
  · rintro _ middle label next - ⟨exclusive, guarded⟩ stepped
    exact ⟨step_exclusive exclusive stepped, step_guarded guards exclusive guarded stepped⟩

end Foundation.Monitor
