import PaddleOs.Foundation.Refinement
import PaddleOs.Params
import Mathlib.Logic.Function.Basic

/-!
`acquire`, `release` and `holding` of `spinlock.c` on one lock by any number of CPUs, one access to
the lock's memory at a time. The accesses take effect in one order, as the fences of the source ask
for; a CPU is not interrupted between `push_off` and `pop_off`, so it is one thread here. The calls
may come in any order, also wrongly nested. `holder` remembers who got the lock from the
test-and-set, `entered` who has returned from `acquire` and not yet given the lock up.
-/

namespace PaddleOs.SpinLock

open Foundation.Runs

variable {C : Nat}

inductive Call where
  | acquire
  | release
  | holding
  deriving DecidableEq, Repr

/-- The access a CPU makes next. `locked` and `owner` are the two loads of `holding` on behalf of a
call. -/
inductive At where
  | rest
  | locked (call : Call)
  | owner (call : Call)
  | swap
  | sign
  | erase
  | unlock
  | panic (call : Call)
  deriving DecidableEq, Repr

structure State (C : Nat) where
  locked : Bool
  cpu : Option (Fin C)
  at_ : Fin C → At
  holder : Option (Fin C)
  entered : Fin C → Bool
  /-- What `holding` returned, and whether the caller was inside. -/
  replies : List (Bool × Bool)

inductive Label (C : Nat) where
  | call (c : Fin C) (call : Call)
  | access (c : Fin C)
  deriving DecidableEq, Repr

def State.move (s : State C) (c : Fin C) (next : At) : State C :=
  { s with at_ := Function.update s.at_ c next }

/-- What the call does with the answer of `holding`. -/
def answer (s : State C) (c : Fin C) (r : Bool) : Call → State C
  | .acquire => s.move c (if r then .panic .acquire else .swap)
  | .release =>
      if r then { s with entered := Function.update s.entered c false }.move c .erase
      else s.move c (.panic .release)
  | .holding => { s with replies := s.replies ++ [(r, s.entered c)] }.move c .rest

def access (s : State C) (c : Fin C) : Option (State C) :=
  match s.at_ c with
  | .rest => none
  | .locked call => some (if s.locked then s.move c (.owner call) else answer s c false call)
  | .owner call => some (answer s c (s.cpu = some c) call)
  -- the test-and-set stores 1 either way
  | .swap =>
      if s.locked then some s
      else some ({ s with locked := true, holder := some c }.move c .sign)
  | .sign => some ({ s with cpu := some c, entered := Function.update s.entered c true }.move c .rest)
  | .erase => some ({ s with cpu := none }.move c .unlock)
  | .unlock => some ({ s with locked := false, holder := none }.move c .rest)
  | .panic _ => none

def step (s : State C) : Label C → Option (State C)
  | .call c call => if s.at_ c = .rest then some (s.move c (.locked call)) else none
  | .access c => access s c

def initlock : State C where
  locked := false
  cpu := none
  at_ _ := .rest
  holder := none
  entered _ := false
  replies := []

section Atomic

/-- The lock as one would like to have it: taken in one step when nobody holds it, and given back by
its holder. -/
inductive Event (C : Nat) where
  | take (c : Fin C)
  | give (c : Fin C)
  deriving DecidableEq, Repr

def atomic (holder : Option (Fin C)) : Event C → Option (Option (Fin C))
  | .take c => if holder = none then some (some c) else none
  | .give c => if holder = some c then some none else none

def seen (s : State C) : Label C → Option (Event C)
  | .call _ _ => none
  | .access c =>
      match s.at_ c with
      | .swap => if s.locked then none else some (.take c)
      | .unlock => some (.give c)
      | _ => none

end Atomic

section Invariant

/-- Where a CPU holds the lock but `lk->cpu` does not say so. -/
def At.unsigned : At → Bool
  | .sign | .unlock => true
  | _ => false

/-- On the way in or out. -/
def At.between : At → Bool
  | .sign | .erase | .unlock => true
  | _ => false

/-- What the fields of the lock say to one CPU. -/
structure Placed (s : State C) (c : Fin C) : Prop where
  cpu : s.cpu = some c ↔ s.holder = some c ∧ (s.at_ c).unsigned = false
  entered : s.entered c = true ↔ s.holder = some c ∧ (s.at_ c).between = false
  between : (s.at_ c).between = true → s.holder = some c
  swap : s.at_ c = .swap → s.holder ≠ some c
  acquires : s.at_ c = .panic .acquire → s.holder = some c
  releases : s.at_ c = .panic .release → s.holder ≠ some c

structure Inv (s : State C) : Prop where
  locked : s.locked = s.holder.isSome
  placed : ∀ c, Placed s c
  replies : ∀ reply ∈ s.replies, reply.1 = reply.2

variable {s s' : State C} {c u : Fin C}

theorem initlock_inv : Inv (initlock : State C) := by
  constructor
  · rfl
  · intro c
    constructor <;> simp [initlock, At.between]
  · intro reply member
    cases member

@[simp] theorem move_same (s : State C) (c : Fin C) (next : At) : (s.move c next).at_ c = next :=
  Function.update_self ..

theorem move_other (s : State C) (next : At) (apart : u ≠ c) : (s.move c next).at_ u = s.at_ u :=
  Function.update_of_ne apart ..

@[simp] theorem move_locked (s : State C) (c : Fin C) (next : At) : (s.move c next).locked = s.locked := rfl

@[simp] theorem move_cpu (s : State C) (c : Fin C) (next : At) : (s.move c next).cpu = s.cpu := rfl

@[simp] theorem move_holder (s : State C) (c : Fin C) (next : At) : (s.move c next).holder = s.holder := rfl

@[simp] theorem move_entered (s : State C) (c : Fin C) (next : At) :
    (s.move c next).entered = s.entered := rfl

@[simp] theorem move_replies (s : State C) (c : Fin C) (next : At) :
    (s.move c next).replies = s.replies := rfl

/-- A CPU that did nothing sees the others' change only as far as it concerns itself. -/
theorem Placed.kept (placed : Placed s u) (at_ : s'.at_ u = s.at_ u) (entered : s'.entered u = s.entered u)
    (cpu : s'.cpu = some u ↔ s.cpu = some u) (holder : s'.holder = some u ↔ s.holder = some u) :
    Placed s' u := by
  constructor
  · rw [cpu, holder, at_]
    exact placed.cpu
  · rw [entered, holder, at_]
    exact placed.entered
  · rw [holder, at_]
    exact placed.between
  · rw [ne_eq, holder, at_]
    exact placed.swap
  · rw [holder, at_]
    exact placed.acquires
  · rw [ne_eq, holder, at_]
    exact placed.releases

/-- A CPU that only looks at the lock goes on between two places of the same kind. -/
theorem Inv.looks (inv : Inv s) {next : At} (unsigned : next.unsigned = (s.at_ c).unsigned)
    (between : next.between = (s.at_ c).between) (swap : next = .swap → s.holder ≠ some c)
    (acquires : next = .panic .acquire → s.holder = some c)
    (releases : next = .panic .release → s.holder ≠ some c) : Inv (s.move c next) := by
  constructor
  · exact inv.locked
  · intro u
    by_cases here : u = c
    · subst here
      have placed := inv.placed u
      constructor
      · rw [move_same, unsigned]
        exact placed.cpu
      · rw [move_same, between]
        exact placed.entered
      · rw [move_same, between]
        exact placed.between
      · rw [move_same]
        exact swap
      · rw [move_same]
        exact acquires
      · rw [move_same]
        exact releases
    · exact (inv.placed u).kept (move_other s next here) rfl Iff.rfl Iff.rfl
  · exact inv.replies

/-- Whoever holds the lock is the only one `lk->cpu` can name. -/
theorem Inv.cpu_other (inv : Inv s) (held : s.holder = some c) (apart : u ≠ c) : s.cpu ≠ some u := by
  intro named
  have holder := ((inv.placed u).cpu.mp named).1
  rw [held] at holder
  exact apart (Option.some.inj holder).symm

/-- What `holding` returns is whether the CPU holds the lock. -/
theorem answer_inv {r : Bool} {call : Call} (inv : Inv s) (unsigned : (s.at_ c).unsigned = false)
    (between : (s.at_ c).between = false) (right : r = true ↔ s.holder = some c) :
    Inv (answer s c r call) := by
  have inside : s.entered c = r := by
    rw [Bool.eq_iff_iff, (inv.placed c).entered, right, between]
    exact and_iff_left rfl
  cases call with
  | acquire =>
      cases r with
      | true =>
          have held := right.mp rfl
          exact inv.looks unsigned.symm between.symm (by simp) (fun _ => held) (by simp)
      | false =>
          have other : s.holder ≠ some c := fun held => Bool.noConfusion (right.mpr held)
          exact inv.looks unsigned.symm between.symm (fun _ => other) (by simp) (by simp)
  | release =>
      cases r with
      | true =>
          have held := right.mp rfl
          constructor
          · exact inv.locked
          · intro u
            by_cases here : u = c
            · subst here
              have signed := (inv.placed u).cpu
              rw [unsigned] at signed
              constructor <;> simp [answer, held, At.between, At.unsigned, signed]
            · apply (inv.placed u).kept
              · exact move_other _ _ here
              · exact Function.update_of_ne here ..
              · exact Iff.rfl
              · exact Iff.rfl
          · exact inv.replies
      | false =>
          have other : s.holder ≠ some c := fun held => Bool.noConfusion (right.mpr held)
          exact inv.looks unsigned.symm between.symm (by simp) (by simp) (fun _ => other)
  | holding =>
      have moved : Inv (s.move c .rest) := inv.looks unsigned.symm between.symm (by simp) (by simp) (by simp)
      constructor
      · exact moved.locked
      · exact fun u => (moved.placed u).kept rfl rfl Iff.rfl Iff.rfl
      · intro reply member
        rcases List.mem_append.mp member with old | new
        · exact inv.replies reply old
        · rw [List.mem_singleton.mp new]
          exact inside.symm

theorem Inv.nobody (inv : Inv s) (free : s.locked = false) : s.holder = none := by
  have locked := inv.locked
  rw [free] at locked
  exact Option.isNone_iff_eq_none.mp (by simpa using locked.symm)

theorem Inv.outside (inv : Inv s) (between : (s.at_ c).between = true) : s.entered c = false := by
  rw [Bool.eq_false_iff, ne_eq, (inv.placed c).entered, between]
  simp

theorem swap_inv (inv : Inv s) (free : s.locked = false) :
    Inv ({ s with locked := true, holder := some c }.move c .sign) := by
  have nobody : s.holder = none := inv.nobody free
  have unnamed : ∀ u, s.cpu ≠ some u := by
    intro u named
    have holder := ((inv.placed u).cpu.mp named).1
    rw [nobody] at holder
    cases holder
  constructor
  · rfl
  · intro u
    by_cases here : u = c
    · subst here
      have entered : s.entered u = false := by
        rw [Bool.eq_false_iff, ne_eq, (inv.placed u).entered, nobody]
        simp
      constructor <;> simp [At.between, At.unsigned, unnamed u, entered]
    · apply (inv.placed u).kept
      · exact move_other _ _ here
      · rfl
      · exact Iff.rfl
      · simp [nobody, Ne.symm here]
  · exact inv.replies

theorem sign_inv (inv : Inv s) (at_ : s.at_ c = .sign) :
    Inv ({ s with cpu := some c, entered := Function.update s.entered c true }.move c .rest) := by
  have held : s.holder = some c := (inv.placed c).between (by rw [at_]; rfl)
  constructor
  · exact inv.locked
  · intro u
    by_cases here : u = c
    · subst here
      constructor <;> simp [At.between, At.unsigned, held]
    · apply (inv.placed u).kept
      · exact move_other _ _ here
      · exact Function.update_of_ne here ..
      · simp [Ne.symm here, inv.cpu_other held here]
      · exact Iff.rfl
  · exact inv.replies

theorem erase_inv (inv : Inv s) (at_ : s.at_ c = .erase) :
    Inv ({ s with cpu := none }.move c .unlock) := by
  have held : s.holder = some c := (inv.placed c).between (by rw [at_]; rfl)
  have outside : s.entered c = false := inv.outside (by rw [at_]; rfl)
  constructor
  · exact inv.locked
  · intro u
    by_cases here : u = c
    · subst here
      constructor <;> simp [At.between, At.unsigned, held, outside]
    · apply (inv.placed u).kept
      · exact move_other _ _ here
      · rfl
      · simp [inv.cpu_other held here]
      · exact Iff.rfl
  · exact inv.replies

theorem unlock_inv (inv : Inv s) (at_ : s.at_ c = .unlock) :
    Inv ({ s with locked := false, holder := none }.move c .rest) := by
  have held : s.holder = some c := (inv.placed c).between (by rw [at_]; rfl)
  have outside : s.entered c = false := inv.outside (by rw [at_]; rfl)
  have unnamed : s.cpu ≠ some c := by
    rw [ne_eq, (inv.placed c).cpu, at_]
    simp [At.unsigned]
  constructor
  · rfl
  · intro u
    by_cases here : u = c
    · subst here
      constructor <;> simp [outside, unnamed, At.between]
    · apply (inv.placed u).kept
      · exact move_other _ _ here
      · rfl
      · exact Iff.rfl
      · simp [held, Ne.symm here]
  · exact inv.replies

theorem access_inv (inv : Inv s) (stepped : access s c = some s') : Inv s' := by
  have placed := inv.placed c
  cases at_ : s.at_ c with
  | rest => simp [access, at_] at stepped
  | panic call => simp [access, at_] at stepped
  | locked call =>
      have unsigned : (s.at_ c).unsigned = false := by rw [at_]; rfl
      have between : (s.at_ c).between = false := by rw [at_]; rfl
      simp only [access, at_, Option.some.injEq] at stepped
      subst stepped
      by_cases taken : s.locked = true
      · rw [if_pos taken]
        exact inv.looks unsigned.symm between.symm (by simp) (by simp) (by simp)
      · rw [if_neg taken]
        -- a lock that is free is held by nobody, so the answer no is right
        apply answer_inv inv unsigned between
        constructor
        · intro wrong
          cases wrong
        · intro held
          rw [inv.locked, held] at taken
          exact absurd rfl taken
  | owner call =>
      have unsigned : (s.at_ c).unsigned = false := by rw [at_]; rfl
      have between : (s.at_ c).between = false := by rw [at_]; rfl
      simp only [access, at_, Option.some.injEq] at stepped
      subst stepped
      -- others may write `lk->cpu` at any time, but never this CPU's name
      apply answer_inv inv unsigned between
      rw [decide_eq_true_iff, placed.cpu, unsigned]
      exact and_iff_left rfl
  | swap =>
      simp only [access, at_] at stepped
      split at stepped
      · cases stepped
        exact inv
      · rename_i free
        cases stepped
        exact swap_inv inv (by simpa using free)
  | sign =>
      simp only [access, at_, Option.some.injEq] at stepped
      subst stepped
      exact sign_inv inv at_
  | erase =>
      simp only [access, at_, Option.some.injEq] at stepped
      subst stepped
      exact erase_inv inv at_
  | unlock =>
      simp only [access, at_, Option.some.injEq] at stepped
      subst stepped
      exact unlock_inv inv at_

theorem step_inv {label : Label C} (inv : Inv s) (stepped : step s label = some s') : Inv s' := by
  cases label with
  | call c call =>
      rw [step] at stepped
      split at stepped
      · rename_i rests
        cases stepped
        exact inv.looks (by rw [rests]; rfl) (by rw [rests]; rfl) (by simp) (by simp) (by simp)
      · cases stepped
  | access c => exact access_inv inv stepped

end Invariant

section Refinement

variable {s s' st : State C} {c : Fin C} {labels : List (Label C)}

theorem answer_holder (s : State C) (c : Fin C) (r : Bool) (call : Call) :
    (answer s c r call).holder = s.holder := by
  cases call <;> cases r <;> rfl

theorem access_hidden (stepped : access s c = some s') (hides : seen s (.access c) = none) :
    s'.holder = s.holder := by
  cases at_ : s.at_ c with
  | rest => simp [access, at_] at stepped
  | panic call => simp [access, at_] at stepped
  | locked call =>
      simp only [access, at_, Option.some.injEq] at stepped
      subst stepped
      split
      · rfl
      · exact answer_holder s c false call
  | owner call =>
      simp only [access, at_, Option.some.injEq] at stepped
      subst stepped
      exact answer_holder s c _ call
  | swap =>
      simp only [access, at_] at stepped
      split at stepped
      · cases stepped
        rfl
      · rename_i free
        simp [seen, at_, free] at hides
  | sign =>
      simp only [access, at_, Option.some.injEq] at stepped
      subst stepped
      rfl
  | erase =>
      simp only [access, at_, Option.some.injEq] at stepped
      subst stepped
      rfl
  | unlock => simp [seen, at_] at hides

theorem access_shown {event : Event C} (inv : Inv s) (stepped : access s c = some s')
    (visible : seen s (.access c) = some event) : atomic s.holder event = some s'.holder := by
  cases at_ : s.at_ c with
  | swap =>
      simp only [access, at_] at stepped
      simp only [seen, at_] at visible
      split at stepped
      · rename_i taken
        simp [taken] at visible
      · rename_i free
        cases stepped
        simp only [free, Bool.false_eq_true, if_false, Option.some.injEq] at visible
        subst visible
        exact if_pos (inv.nobody (Bool.eq_false_iff.mpr free))
  | unlock =>
      simp only [access, at_, Option.some.injEq] at stepped
      simp only [seen, at_, Option.some.injEq] at visible
      subst stepped
      subst visible
      have held : s.holder = some c := (inv.placed c).between (by rw [at_]; rfl)
      exact if_pos held
  | _ => simp [seen, at_] at visible

/-- The test-and-set that finds 0 is the moment at which the lock is taken, the store of 0 the one at
which it is given back. -/
theorem lock_simulates : Simulates step seen atomic (State.holder (C := C)) Inv where
  keeps _ _ _ inv stepped := step_inv inv stepped
  shown s label next event inv stepped visible := by
    cases label with
    | call c call => cases visible
    | access c => exact access_shown inv stepped visible
  hidden s label next inv stepped hides := by
    cases label with
    | call c call =>
        rw [step] at stepped
        split at stepped <;> cases stepped
        rfl
    | access c => exact access_hidden stepped hides

/-- However the loads, the stores and the test-and-set of the CPUs interleave, they behave as one lock
taken and given back in single steps: at most one CPU is inside, `holding` tells the truth, and
`acquire` and `release` panic on a CPU only when it has the lock already, or does not have it. -/
theorem spinlock_exact (ran : run step (initlock : State C) labels = some st) :
    run atomic none (trace step seen initlock labels) = some st.holder ∧
    (∀ c d, st.entered c = true → st.entered d = true → c = d) ∧
    (∀ reply ∈ st.replies, reply.1 = reply.2) ∧
    (∀ c, st.at_ c = .panic .acquire → st.holder = some c) ∧
    (∀ c, st.at_ c = .panic .release → st.holder ≠ some c) := by
  have inv : Inv st := lock_simulates.run_invariant initlock_inv ran
  constructor
  · exact lock_simulates.run_refines initlock_inv ran
  constructor
  · intro c d first second
    have left := ((inv.placed c).entered.mp first).1
    have right := ((inv.placed d).entered.mp second).1
    rw [left] at right
    exact Option.some.inj right
  constructor
  · exact inv.replies
  constructor
  · exact fun c => (inv.placed c).acquires
  · exact fun c => (inv.placed c).releases

/-- The first CPU takes the lock, the second spins on it and asks whether it holds it only later, and the
first takes it a second time. -/
def contention : List (Label 2) :=
  [.call 0 .acquire, .access 0, .call 1 .acquire, .access 1, .access 0, .access 1, .access 0,
    .call 0 .holding, .access 0, .access 0, .call 0 .release, .access 0, .access 0, .access 0, .access 0,
    .access 1, .call 0 .holding, .access 0, .access 0, .access 1, .call 1 .acquire, .access 1, .access 1]

theorem contention_exact : ∃ st : State 2, run step initlock contention = some st ∧
    st.replies = [(true, true), (false, false)] ∧ st.at_ 1 = .panic .acquire ∧
    (run atomic none (trace step seen initlock contention) = some st.holder ∧
    (∀ c d, st.entered c = true → st.entered d = true → c = d) ∧
    (∀ reply ∈ st.replies, reply.1 = reply.2) ∧
    (∀ c, st.at_ c = .panic .acquire → st.holder = some c) ∧
    (∀ c, st.at_ c = .panic .release → st.holder ≠ some c)) := by
  have runs : ((run step (initlock : State 2) contention).any fun st =>
      decide (st.replies = [(true, true), (false, false)] ∧ st.at_ 1 = .panic .acquire)) = true := by
    decide +kernel
  obtain ⟨st, ran, checks⟩ := (Option.any_eq_true _ _).mp runs
  obtain ⟨replies, stops⟩ := of_decide_eq_true checks
  exact ⟨st, ran, replies, stops, spinlock_exact ran⟩

end Refinement

end PaddleOs.SpinLock
