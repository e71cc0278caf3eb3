import Mathlib.Init

/-!
Computations that fail or return and that get only so many turns. What such a computation returns, that
it has turns enough, and that it does not fail are judged apart, each with a rule for sequences.
-/

namespace Foundation.Turns

variable {ε α β : Type}

/-- A result, a failure, or none when the turns are used up. -/
abbrev Limited (ε : Type) := ExceptT ε Option

def outOfTurns : Limited ε α := (none : Option (Except ε α))

/-- Whatever is returned meets the condition. -/
def Ensures (x : Limited ε α) (post : α → Prop) : Prop := ∀ a, x = some (.ok a) → post a

/-- The turns were enough. -/
def Finishes (x : Limited ε α) : Prop := x ≠ none

/-- It does not fail, and what is returned meets the condition. -/
def Succeeds (x : Limited ε α) (post : α → Prop) : Prop := x = none ∨ ∃ a, x = some (.ok a) ∧ post a

section Rules

variable {x : Limited ε α} {f : α → Limited ε β} {post : α → Prop} {after : β → Prop} {a : α}

theorem bind_of_none (nothing : x = none) : (x >>= f) = none := by subst nothing; rfl

theorem bind_of_ok (returned : x = some (.ok a)) : (x >>= f) = f a := by subst returned; rfl

theorem bind_of_error {e : ε} (failed : x = some (.error e)) : (x >>= f) = some (.error e) := by
  subst failed
  rfl

theorem ensures_pure (holds : post a) : Ensures (pure a : Limited ε α) post := by
  intro b returned
  cases returned
  exact holds

theorem ensures_throw (e : ε) : Ensures (throw e : Limited ε α) post := nofun

theorem ensures_none : Ensures (outOfTurns : Limited ε α) post := nofun

theorem Ensures.mono {weaker : α → Prop} (ensures : Ensures x post) (implies : ∀ a, post a → weaker a) :
    Ensures x weaker := fun a returned => implies a (ensures a returned)

theorem Ensures.bind (first : Ensures x post) (second : ∀ a, post a → Ensures (f a) after) :
    Ensures (x >>= f) after := by
  intro b returned
  rcases value : x with _ | e | a
  · rw [bind_of_none value] at returned
    cases returned
  · rw [bind_of_error value] at returned
    cases returned
  · rw [bind_of_ok value] at returned
    exact second a (first a value) b returned

theorem finishes_pure (a : α) : Finishes (pure a : Limited ε α) := nofun

theorem finishes_throw (e : ε) : Finishes (throw e : Limited ε α) := nofun

theorem Finishes.bind (first : Finishes x) (ensures : Ensures x post)
    (second : ∀ a, post a → Finishes (f a)) : Finishes (x >>= f) := by
  intro nothing
  rcases value : x with _ | e | a
  · exact first value
  · rw [bind_of_error value] at nothing
    cases nothing
  · rw [bind_of_ok value] at nothing
    exact second a (ensures a value) nothing

theorem succeeds_pure (holds : post a) : Succeeds (pure a : Limited ε α) post := .inr ⟨a, rfl, holds⟩

theorem succeeds_none : Succeeds (outOfTurns : Limited ε α) post := .inl rfl

theorem Succeeds.bind (first : Succeeds x post) (second : ∀ a, post a → Succeeds (f a) after) :
    Succeeds (x >>= f) after := by
  rcases first with nothing | ⟨a, returned, holds⟩
  · exact .inl (bind_of_none nothing)
  · unfold Succeeds
    rw [bind_of_ok returned]
    exact second a holds

/-- With turns enough, a computation that does not fail returns. -/
theorem Succeeds.returns (succeeds : Succeeds x post) (finishes : Finishes x) :
    ∃ a, x = some (.ok a) ∧ post a := succeeds.resolve_left finishes

end Rules

end Foundation.Turns
