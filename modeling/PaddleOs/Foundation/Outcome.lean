import Mathlib.Tactic.Common

/-!
A program logic for stateful computations that may stop early.
`EStateM ε σ α` keeps the state in both exits, so an assertion can speak about
the state a failed run leaves behind. `outcome run post fail start` is the
weakest precondition of `run` for a pair of exit assertions. Nothing here
names a particular program.
-/

namespace Foundation.Outcome

variable {ε σ α β : Type}

def outcome (run : EStateM ε σ α) (post : α → σ → Prop) (fail : ε → σ → Prop)
    (start : σ) : Prop :=
  match run start with
  | .ok value after => post value after
  | .error reason after => fail reason after

@[simp]
theorem outcome_pure (value : α) (post : α → σ → Prop) (fail : ε → σ → Prop) (start : σ) :
    outcome (pure value : EStateM ε σ α) post fail start ↔ post value start :=
  Iff.rfl

@[simp]
theorem outcome_throw (reason : ε) (post : α → σ → Prop) (fail : ε → σ → Prop) (start : σ) :
    outcome (throw reason : EStateM ε σ α) post fail start ↔ fail reason start :=
  Iff.rfl

@[simp]
theorem outcome_get (post : σ → σ → Prop) (fail : ε → σ → Prop) (start : σ) :
    outcome (get : EStateM ε σ σ) post fail start ↔ post start start :=
  Iff.rfl

@[simp]
theorem outcome_set (state : σ) (post : Unit → σ → Prop) (fail : ε → σ → Prop) (start : σ) :
    outcome (set state : EStateM ε σ PUnit) post fail start ↔ post () state :=
  Iff.rfl

@[simp]
theorem outcome_modify (change : σ → σ) (post : Unit → σ → Prop) (fail : ε → σ → Prop)
    (start : σ) :
    outcome (modify change : EStateM ε σ PUnit) post fail start ↔ post () (change start) :=
  Iff.rfl

@[simp]
theorem outcome_bind (run : EStateM ε σ α) (next : α → EStateM ε σ β)
    (post : β → σ → Prop) (fail : ε → σ → Prop) (start : σ) :
    outcome (run >>= next) post fail start ↔
      outcome run (fun value after => outcome (next value) post fail after) fail start := by
  unfold outcome
  change (match EStateM.bind run next start with
    | .ok value after => post value after
    | .error reason after => fail reason after) ↔ _
  unfold EStateM.bind
  cases run start <;> rfl

@[simp]
theorem outcome_map (run : EStateM ε σ α) (change : α → β)
    (post : β → σ → Prop) (fail : ε → σ → Prop) (start : σ) :
    outcome (change <$> run) post fail start ↔
      outcome run (fun value after => post (change value) after) fail start := by
  unfold outcome
  change (match EStateM.map change run start with
    | .ok value after => post value after
    | .error reason after => fail reason after) ↔ _
  unfold EStateM.map
  cases run start <;> rfl

theorem outcome_ite (choice : Prop) [Decidable choice] (yes no : EStateM ε σ α)
    (post : α → σ → Prop) (fail : ε → σ → Prop) (start : σ) :
    outcome (if choice then yes else no) post fail start ↔
      (choice → outcome yes post fail start) ∧ (¬ choice → outcome no post fail start) := by
  by_cases taken : choice <;> simp [taken]

/-- The consequence rule. A specification proved once is used under any exit
assertions it implies. -/
theorem outcome_mono {run : EStateM ε σ α} {post post' : α → σ → Prop}
    {fail fail' : ε → σ → Prop} {start : σ}
    (holds : outcome run post fail start)
    (good : ∀ value after, post value after → post' value after)
    (bad : ∀ reason after, fail reason after → fail' reason after) :
    outcome run post' fail' start := by
  unfold outcome at holds ⊢
  cases ran : run start with
  | ok value after => rw [ran] at holds; exact good value after holds
  | error reason after => rw [ran] at holds; exact bad reason after holds

theorem outcome_post {run : EStateM ε σ α} {post post' : α → σ → Prop}
    {fail : ε → σ → Prop} {start : σ} (holds : outcome run post fail start)
    (good : ∀ value after, post value after → post' value after) :
    outcome run post' fail start :=
  outcome_mono holds good (fun _ _ failed => failed)

/-- The composition rule. -/
theorem outcome_seq {run : EStateM ε σ α} {next : α → EStateM ε σ β} {middle : α → σ → Prop}
    {post : β → σ → Prop} {fail : ε → σ → Prop} {start : σ}
    (first : outcome run middle fail start)
    (rest : ∀ value state, middle value state → outcome (next value) post fail state) :
    outcome (run >>= next) post fail start := by
  rw [outcome_bind]
  exact outcome_post first rest

theorem outcome_and {run : EStateM ε σ α} {post post' : α → σ → Prop}
    {fail fail' : ε → σ → Prop} {start : σ}
    (left : outcome run post fail start) (right : outcome run post' fail' start) :
    outcome run (fun value after => post value after ∧ post' value after)
      (fun reason after => fail reason after ∧ fail' reason after) start := by
  unfold outcome at *
  cases ran : run start <;> simp only [ran] at left right ⊢ <;> exact ⟨left, right⟩

theorem outcome_of_ok {run : EStateM ε σ α} {post : α → σ → Prop} {fail : ε → σ → Prop}
    {start after : σ} {value : α} (holds : outcome run post fail start)
    (ran : run start = .ok value after) : post value after := by
  unfold outcome at holds
  rwa [ran] at holds

theorem outcome_of_error {run : EStateM ε σ α} {post : α → σ → Prop}
    {fail : ε → σ → Prop} {start after : σ} {reason : ε}
    (holds : outcome run post fail start)
    (ran : run start = .error reason after) : fail reason after := by
  unfold outcome at holds
  rwa [ran] at holds

/-- A computation whose failures are excluded returns. -/
theorem outcome_ok {run : EStateM ε σ α} {post : α → σ → Prop} {start : σ}
    (holds : outcome run post (fun _ _ => False) start) :
    ∃ value after, run start = .ok value after ∧ post value after := by
  unfold outcome at holds
  cases ran : run start with
  | ok value after => exact ⟨value, after, rfl, by rwa [ran] at holds⟩
  | error reason after => rw [ran] at holds; exact holds.elim

/-- A computation on a part of the state, with its errors under another name. -/
def zoom {ε' τ : Type} (view : τ → σ) (replace : τ → σ → τ) (wrap : ε → ε')
    (run : EStateM ε σ α) : EStateM ε' τ α := fun start =>
  match run (view start) with
  | .ok value after => .ok value (replace start after)
  | .error reason after => .error (wrap reason) (replace start after)

@[simp]
theorem outcome_zoom {ε' τ : Type} (view : τ → σ) (replace : τ → σ → τ) (wrap : ε → ε')
    (run : EStateM ε σ α) (post : α → τ → Prop) (fail : ε' → τ → Prop) (start : τ) :
    outcome (zoom view replace wrap run) post fail start ↔
      outcome run (fun value after => post value (replace start after))
        (fun reason after => fail (wrap reason) (replace start after)) (view start) := by
  unfold outcome zoom
  cases run (view start) <;> rfl

/-- A test on what a run returns; a run that stops early does not pass it. -/
def returns (run : EStateM ε σ α) (test : α → σ → Bool) (start : σ) : Bool :=
  match run start with
  | .ok value after => test value after
  | .error _ _ => false

theorem returns_ok {run : EStateM ε σ α} {test : α → σ → Bool} {start : σ}
    (passes : returns run test start = true) :
    ∃ value after, run start = .ok value after ∧ test value after = true := by
  unfold returns at passes
  split at passes
  · exact ⟨_, _, by assumption, passes⟩
  · cases passes

/-- `for (i = first; i < first + count; i++) body(i)`. -/
def loop (body : Nat → EStateM ε σ Unit) : Nat → Nat → EStateM ε σ Unit
  | _, 0 => pure ()
  | first, count + 1 => do
      body first
      loop body (first + 1) count

/-- The invariant rule of `loop`: what one pass carries from `i` to `i + 1`
holds of the state the whole loop leaves. -/
theorem loop_outcome {body : Nat → EStateM ε σ Unit} {fail : ε → σ → Prop}
    (invariant : Nat → σ → Prop) (count : Nat) (first : Nat) (start : σ)
    (enter : invariant first start)
    (pass : ∀ index state, first ≤ index → index < first + count → invariant index state →
      outcome (body index) (fun _ after => invariant (index + 1) after) fail state) :
    outcome (loop body first count) (fun _ after => invariant (first + count) after)
      fail start := by
  induction count generalizing first start with
  | zero => simpa [loop] using enter
  | succ count ih =>
      rw [loop, outcome_bind]
      refine outcome_post (pass first start (Nat.le_refl _) (by omega) enter) ?_
      intro _ middle held
      have rest := ih (first + 1) middle held
        (fun index state low high => pass index state (by omega) (by omega))
      rwa [show first + 1 + count = first + (count + 1) by omega] at rest

end Foundation.Outcome
