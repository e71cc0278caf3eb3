import PaddleOs.Foundation.Outcome

/-!
Partial specifications through a view of the state. A computation follows a
relation when every run of it that returns takes the view of its start to the view
of its end along the relation; runs that stop early say nothing. Computations that
leave the view alone compose without further proof.
-/

namespace Foundation.View

open Foundation.Outcome

variable {ε σ κ α β : Type} {view : σ → κ}

def Follows (view : σ → κ) (run : EStateM ε σ α) (relation : κ → α → κ → Prop) : Prop :=
  ∀ start, outcome run (fun value after => relation (view start) value (view after))
    (fun _ _ => True) start

/-- A specification is used at the head of a sequence. -/
theorem Follows.step {run : EStateM ε σ α} {relation : κ → α → κ → Prop}
    (follows : Follows view run relation) {next : α → EStateM ε σ β} {post : β → σ → Prop}
    {start : σ} (rest : ∀ value middle, relation (view start) value (view middle) →
      outcome (next value) post (fun _ _ => True) middle) :
    outcome (run >>= next) post (fun _ _ => True) start := by
  rw [outcome_bind]
  exact outcome_post (follows start) rest

theorem Follows.last {run : EStateM ε σ α} {relation : κ → α → κ → Prop}
    (follows : Follows view run relation) {post : α → σ → Prop} {start : σ}
    (done : ∀ value after, relation (view start) value (view after) → post value after) :
    outcome run post (fun _ _ => True) start :=
  outcome_post (follows start) done

theorem Follows.mono {run : EStateM ε σ α} {relation weaker : κ → α → κ → Prop}
    (follows : Follows view run relation)
    (weaken : ∀ before value after, relation before value after → weaker before value after) :
    Follows view run weaker :=
  fun start => outcome_post (follows start) fun _ _ => weaken _ _ _

/-- The computation leaves the view as it is. -/
def Keeps (view : σ → κ) (run : EStateM ε σ α) : Prop :=
  Follows view run fun before _ after => after = before

theorem keeps_pure (value : α) : Keeps view (pure value : EStateM ε σ α) := fun _ => rfl

theorem keeps_throw (reason : ε) : Keeps view (throw reason : EStateM ε σ α) := fun _ => trivial

theorem keeps_get : Keeps view (get : EStateM ε σ σ) := fun _ => rfl

theorem keeps_modify {change : σ → σ} (same : ∀ state, view (change state) = view state) :
    Keeps view (modify change : EStateM ε σ PUnit) := fun start => same start

theorem keeps_bind {run : EStateM ε σ α} {next : α → EStateM ε σ β} (first : Keeps view run)
    (second : ∀ value, Keeps view (next value)) : Keeps view (run >>= next) := by
  intro start
  refine first.step fun value middle same => ?_
  refine (second value).last fun _ after kept => ?_
  exact kept.trans same

/-- What comes before a specified computation and leaves the view alone does not matter. -/
theorem Keeps.before {run : EStateM ε σ α} {next : α → EStateM ε σ β}
    {relation : κ → β → κ → Prop} (first : Keeps view run)
    (second : ∀ value, Follows view (next value) relation) :
    Follows view (run >>= next) relation := by
  intro start
  refine first.step fun value middle same => ?_
  refine (second value).last fun _ after related => ?_
  rwa [same] at related

/-- Neither does what comes after it, when the relation is about the views alone. -/
theorem Follows.andKeeps {run : EStateM ε σ α} {next : α → EStateM ε σ β}
    {relation : κ → κ → Prop} (first : Follows view run fun before _ after => relation before after)
    (second : ∀ value, Keeps view (next value)) :
    Follows view (run >>= next) fun before _ after => relation before after := by
  intro start
  refine first.step fun value middle related => ?_
  refine (second value).last fun _ after same => ?_
  rwa [same]

/-- The specification that says nothing. -/
theorem follows_true (run : EStateM ε σ α) (start : σ) :
    outcome run (fun _ _ => True) (fun _ _ => True) start := by
  unfold outcome
  cases run start <;> trivial

theorem follows_throw {reason : ε} {relation : κ → α → κ → Prop} :
    Follows view (throw reason : EStateM ε σ α) relation := fun _ => trivial

theorem follows_ite {choice : Prop} [Decidable choice] {yes no : EStateM ε σ α}
    {relation : κ → α → κ → Prop} (left : Follows view yes relation)
    (right : Follows view no relation) :
    Follows view (if choice then yes else no) relation := by
  split
  · exact left
  · exact right

theorem keeps_map {run : EStateM ε σ α} (change : α → β) (keeps : Keeps view run) :
    Keeps view (change <$> run) := by
  intro start
  rw [outcome_map]
  exact keeps start

theorem keeps_ite {choice : Prop} [Decidable choice] {yes no : EStateM ε σ α}
    (left : Keeps view yes) (right : Keeps view no) :
    Keeps view (if choice then yes else no) := by
  split
  · exact left
  · exact right

theorem keeps_loop {body : Nat → EStateM ε σ Unit} (keeps : ∀ i, Keeps view (body i))
    (first count : Nat) : Keeps view (loop body first count) := by
  induction count generalizing first with
  | zero => exact keeps_pure ()
  | succ count ih => exact keeps_bind (keeps first) fun _ => ih (first + 1)

/-- A part of the state that the view does not look at. -/
theorem keeps_zoom {ε' τ : Type} {look : τ → σ} {replace : τ → σ → τ} {wrap : ε → ε'}
    {view : τ → κ} (unseen : ∀ state part, view (replace state part) = view state)
    (run : EStateM ε σ α) : Keeps view (zoom look replace wrap run) := by
  intro start
  rw [outcome_zoom]
  unfold outcome
  cases run (look start) with
  | ok value after => exact unseen start after
  | error reason after => trivial

/-- A specification of the part is one of the whole, under a view that sees the part's. -/
theorem follows_zoom {ε' τ κ' : Type} {look : τ → σ} {replace : τ → σ → τ} {wrap : ε → ε'}
    {part : σ → κ'} {view : τ → κ} {relation : κ' → α → κ' → Prop} {run : EStateM ε σ α}
    {whole : κ → α → κ → Prop} (follows : Follows part run relation)
    (seen : ∀ state value after, relation (part (look state)) value (part after) →
      whole (view state) value (view (replace state after))) :
    Follows view (zoom look replace wrap run) whole := by
  intro start
  rw [outcome_zoom]
  exact outcome_post (follows (look start)) fun value after related => seen start value after related

section Avoids

/-- No run of the computation stops for one of the `bad` reasons. -/
def Avoids (bad : ε → Prop) (run : EStateM ε σ α) : Prop :=
  ∀ start, outcome run (fun _ _ => True) (fun reason _ => ¬ bad reason) start

variable {bad : ε → Prop}

theorem avoids_pure (value : α) : Avoids bad (pure value : EStateM ε σ α) := fun _ => trivial

theorem avoids_throw {reason : ε} (other : ¬ bad reason) :
    Avoids bad (throw reason : EStateM ε σ α) := fun _ => other

theorem avoids_get : Avoids bad (get : EStateM ε σ σ) := fun _ => trivial

theorem avoids_set (state : σ) : Avoids bad (set state : EStateM ε σ PUnit) := fun _ => trivial

theorem avoids_modify (change : σ → σ) : Avoids bad (modify change : EStateM ε σ PUnit) :=
  fun _ => trivial

theorem avoids_bind {run : EStateM ε σ α} {next : α → EStateM ε σ β} (first : Avoids bad run)
    (second : ∀ value, Avoids bad (next value)) : Avoids bad (run >>= next) := by
  intro start
  rw [outcome_bind]
  exact outcome_post (first start) fun value middle _ => second value middle

theorem avoids_map {run : EStateM ε σ α} (change : α → β) (avoids : Avoids bad run) :
    Avoids bad (change <$> run) := by
  intro start
  rw [outcome_map]
  exact avoids start

theorem avoids_ite {choice : Prop} [Decidable choice] {yes no : EStateM ε σ α}
    (left : Avoids bad yes) (right : Avoids bad no) :
    Avoids bad (if choice then yes else no) := by
  split
  · exact left
  · exact right

theorem avoids_loop {body : Nat → EStateM ε σ Unit} (avoids : ∀ i, Avoids bad (body i))
    (first count : Nat) : Avoids bad (loop body first count) := by
  induction count generalizing first with
  | zero => exact avoids_pure ()
  | succ count ih => exact avoids_bind (avoids first) fun _ => ih (first + 1)

theorem avoids_zoom {ε' τ : Type} {look : τ → σ} {replace : τ → σ → τ} {wrap : ε → ε'}
    {bad' : ε' → Prop} {run : EStateM ε σ α}
    (avoids : Avoids (fun reason => bad' (wrap reason)) run) :
    Avoids bad' (zoom look replace wrap run) := by
  intro start
  rw [outcome_zoom]
  exact avoids (look start)

end Avoids

section Closed

/-- A property of computations that sequences inherit from their parts. -/
structure Closed (P : ∀ ⦃α : Type⦄, EStateM ε σ α → Prop) : Prop where
  pure : ∀ {α : Type} (value : α), P (pure value : EStateM ε σ α)
  get : P (get : EStateM ε σ σ)
  bind : ∀ {α β : Type} {run : EStateM ε σ α} {next : α → EStateM ε σ β},
    P run → (∀ value, P (next value)) → P (run >>= next)

variable {P : ∀ ⦃α : Type⦄, EStateM ε σ α → Prop}

theorem Closed.ite (_ : Closed P) {choice : Prop} [Decidable choice] {yes no : EStateM ε σ α}
    (left : P yes) (right : P no) : P (if choice then yes else no) := by
  split
  · exact left
  · exact right

theorem Closed.loop (closed : Closed P) {body : Nat → EStateM ε σ Unit} (each : ∀ i, P (body i))
    (first count : Nat) : P (loop body first count) := by
  induction count generalizing first with
  | zero => exact closed.pure ()
  | succ count ih => exact closed.bind (each first) fun _ => ih (first + 1)

theorem closed_keeps (view : σ → κ) :
    Closed fun ⦃α : Type⦄ (run : EStateM ε σ α) => Keeps view run where
  pure := keeps_pure
  get := keeps_get
  bind := keeps_bind

theorem closed_avoids (bad : ε → Prop) :
    Closed fun ⦃α : Type⦄ (run : EStateM ε σ α) => Avoids bad run where
  pure := avoids_pure
  get := avoids_get
  bind := avoids_bind

/-- Every run that returns moves the state along the relation. -/
def Along (order : σ → σ → Prop) (run : EStateM ε σ α) : Prop :=
  ∀ start, outcome run (fun _ after => order start after) (fun _ _ => True) start

/-- A specification without failures says of the state it reaches that the run moved there. -/
theorem Along.and {order : σ → σ → Prop} {run : EStateM ε σ α} (along : Along order run)
    {post : α → σ → Prop} {start : σ} (holds : outcome run post (fun _ _ => False) start) :
    outcome run (fun value after => post value after ∧ order start after) (fun _ _ => False) start :=
  outcome_mono (outcome_and holds (along start)) (fun _ _ both => both) fun _ _ failed => failed.1

theorem along_throw {order : σ → σ → Prop} (reason : ε) :
    Along order (throw reason : EStateM ε σ α) := fun _ => trivial

theorem along_modify {order : σ → σ → Prop} {change : σ → σ}
    (moves : ∀ state, order state (change state)) :
    Along order (modify change : EStateM ε σ PUnit) := fun start => moves start

/-- Along a preorder sequences move as their parts do. -/
theorem closed_along {order : σ → σ → Prop} (refl : ∀ state, order state state)
    (trans : ∀ {first middle last}, order first middle → order middle last → order first last) :
    Closed fun ⦃α : Type⦄ (run : EStateM ε σ α) => Along order run where
  pure _ := fun start => refl start
  get := fun start => refl start
  bind first second := by
    intro start
    rw [outcome_bind]
    refine outcome_post (first start) fun value middle moved => ?_
    exact outcome_post (second value middle) fun _ _ further => trans moved further

end Closed

end Foundation.View
