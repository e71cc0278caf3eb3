import Mathlib.Logic.Function.Basic
import Mathlib.Tactic.Common

/-!
Code around one spinlock with `sleep` and `wakeup`. A process enters by taking the lock,
runs inside in single moves, may go to sleep on a channel, which gives the lock up while
its own process lock keeps wakers away, may wake everybody on a channel, one process after
the other, and leaves by releasing the lock. A sleeper may also be woken at any time by
others. Nothing here names a particular program.

A channel comes with a condition under which it is right to sleep on it. When every move
that ends the condition leaves a debt, every wakeup pays only its channel's debt, and
nobody leaves or sleeps in debt, then whoever is asleep while the lock is free is asleep
with reason.
-/

namespace Foundation.Monitor

variable {N : Nat} {I L S C : Type}

/-- What the code does next while it holds the lock. -/
inductive Action (L S C : Type) where
  | move (shared : S) (next : L)
  | sleep (chan : C) (next : L)
  | wakeup (chan : C) (next : L)
  | release (shared : S) (next : L)

/-- `L` is where a process stands, `S` what the lock protects, `I` what a step learns from
outside. -/
structure Program (N : Nat) (I L S C : Type) where
  enter : Fin N → L → Option L
  inside : Fin N → I → S → L → Option (Action L S C)
  outside : Fin N → I → S → L → Option (S × L)

inductive Pc (L C : Type) where
  | outside (at_ : L)
  | inside (at_ : L)
  | sweeping (chan : C) (i : Nat) (next : L)
  | falling (chan : C) (next : L)
  | switching (chan : C) (next : L)
  | asleep (chan : C) (next : L)
  | relock (next : L)
  deriving DecidableEq

structure State (N : Nat) (L S C : Type) where
  shared : S
  holder : Option (Fin N)
  pc : Fin N → Pc L C

inductive Label (N : Nat) (I : Type) where
  | acquire (t : Fin N)
  | inside (t : Fin N) (input : I)
  | outside (t : Fin N) (input : I)
  | advance (t : Fin N)
  | wake (t : Fin N)
  deriving DecidableEq

section Steps

def State.setPc (st : State N L S C) (t : Fin N) (pc : Pc L C) : State N L S C :=
  { st with pc := Function.update st.pc t pc }

/-- Its process lock is taken by a process on its way into `sched`. -/
def Pc.guarded : Pc L C → Bool
  | .falling _ _ | .switching _ _ => true
  | _ => false

/-- The locked stretch of `wakeup` on one process. -/
def Pc.woken [DecidableEq C] (chan : C) : Pc L C → Pc L C
  | .asleep c next => if c = chan then .relock next else .asleep c next
  | pc => pc

def act (st : State N L S C) (t : Fin N) : Action L S C → State N L S C
  | .move shared next => { st with shared }.setPc t (.inside next)
  | .sleep chan next => st.setPc t (.falling chan next)
  | .wakeup chan next => st.setPc t (.sweeping chan 0 next)
  | .release shared next => { st with shared, holder := none }.setPc t (.outside next)

/-- The next process of a sweep; its own slot is passed over. -/
def sweep [DecidableEq C] (st : State N L S C) (t : Fin N) (chan : C) (i : Nat) (next : L) :
    Option (State N L S C) :=
  if below : i < N then
    let p : Fin N := ⟨i, below⟩
    if p = t then some (st.setPc t (.sweeping chan (i + 1) next))
    else if (st.pc p).guarded then none
    else some ((st.setPc p ((st.pc p).woken chan)).setPc t (.sweeping chan (i + 1) next))
  else some (st.setPc t (.inside next))

def Program.step [DecidableEq C] (prog : Program N I L S C) (st : State N L S C) :
    Label N I → Option (State N L S C)
  | .acquire t =>
      if st.holder = none then
        match st.pc t with
        | .outside at_ =>
            (prog.enter t at_).map fun next => { st with holder := some t }.setPc t (.inside next)
        | .relock next => some ({ st with holder := some t }.setPc t (.inside next))
        | _ => none
      else none
  | .inside t input =>
      match st.pc t with
      | .inside at_ => (prog.inside t input st.shared at_).map (act st t)
      | _ => none
  | .outside t input =>
      match st.pc t with
      | .outside at_ =>
          (prog.outside t input st.shared at_).map fun r =>
            { st with shared := r.1 }.setPc t (.outside r.2)
      | _ => none
  | .advance t =>
      match st.pc t with
      | .sweeping chan i next => sweep st t chan i next
      | .falling chan next => some ({ st with holder := none }.setPc t (.switching chan next))
      | .switching chan next => some (st.setPc t (.asleep chan next))
      | _ => none
  | .wake t =>
      match st.pc t with
      | .asleep _ next => some (st.setPc t (.relock next))
      | _ => none

end Steps

section Effects

/-- Where the process stands in the code, whatever it waits for. -/
def Pc.site : Pc L C → L
  | .outside at_ | .inside at_ => at_
  | .sweeping _ _ next | .falling _ next | .switching _ next | .asleep _ next | .relock next => next

def Action.next : Action L S C → L
  | .move _ next | .sleep _ next | .wakeup _ next | .release _ next => next

def Action.after (before : S) : Action L S C → S
  | .move shared _ | .release shared _ => shared
  | _ => before

/-- What one piece of code can do. -/
inductive Program.Moves (prog : Program N I L S C) (t : Fin N) (shared : S) (at_ : L) : S → L → Prop where
  | enter {next : L} : prog.enter t at_ = some next → Moves prog t shared at_ shared next
  | inside {input : I} {action : Action L S C} : prog.inside t input shared at_ = some action →
      Moves prog t shared at_ (action.after shared) action.next
  | outside {input : I} {after : S} {next : L} : prog.outside t input shared at_ = some (after, next) →
      Moves prog t shared at_ after next

variable {prog : Program N I L S C} {st st' : State N L S C}

theorem site_setPc (st : State N L S C) (t : Fin N) (pc : Pc L C) :
    (fun u => ((st.setPc t pc).pc u).site) =
      Function.update (fun u => (st.pc u).site) t pc.site := by
  funext u
  by_cases here : u = t
  · subst here
    simp [State.setPc]
  · simp [State.setPc, here]

theorem site_same (st : State N L S C) {t : Fin N} {pc : Pc L C} (same : pc.site = (st.pc t).site) :
    (fun u => ((st.setPc t pc).pc u).site) = fun u => (st.pc u).site := by
  rw [site_setPc, same]
  exact Function.update_eq_self t fun u => (st.pc u).site

theorem site_woken [DecidableEq C] (chan : C) (pc : Pc L C) : (pc.woken chan).site = pc.site := by
  cases pc with
  | asleep c next =>
      change (if c = chan then Pc.relock next else Pc.asleep c next).site = next
      split <;> rfl
  | _ => rfl

/-- A sweep moves nobody. -/
theorem sweep_sites [DecidableEq C] {t : Fin N} {chan : C} {i : Nat} {next : L}
    (at_ : st.pc t = .sweeping chan i next) (swept : sweep st t chan i next = some st') :
    st'.shared = st.shared ∧ (fun u => (st'.pc u).site) = fun u => (st.pc u).site := by
  unfold sweep at swept
  split at swept
  · rename_i below
    dsimp only at swept
    split at swept
    · cases swept
      exact ⟨rfl, site_same st (by rw [at_]; rfl)⟩
    · rename_i other
      split at swept
      · cases swept
      · cases swept
        refine ⟨rfl, (site_same _ ?_).trans (site_same st (site_woken chan (st.pc ⟨i, below⟩)))⟩
        change next = Pc.site (Function.update st.pc ⟨i, below⟩ _ t)
        rw [Function.update_of_ne (Ne.symm other), at_]
        rfl
  · cases swept
    exact ⟨rfl, site_same st (by rw [at_]; rfl)⟩

/-- A step either moves nobody in the code, or one process by one piece of it. -/
theorem step_sites [DecidableEq C] {label : Label N I} (stepped : prog.step st label = some st') :
    (st'.shared = st.shared ∧ (fun u => (st'.pc u).site) = fun u => (st.pc u).site) ∨
    ∃ t next, prog.Moves t st.shared (st.pc t).site st'.shared next ∧
      (fun u => (st'.pc u).site) = Function.update (fun u => (st.pc u).site) t next := by
  cases label with
  | acquire t =>
      simp only [Program.step] at stepped
      split at stepped
      · split at stepped
        · rename_i at_ here
          obtain ⟨next, enters, rfl⟩ := Option.map_eq_some_iff.mp stepped
          refine .inr ⟨t, next, ?_, site_setPc { st with holder := some t } t _⟩
          rw [here]
          exact .enter enters
        · rename_i next here
          cases stepped
          exact .inl ⟨rfl, site_same { st with holder := some t } (by rw [here]; rfl)⟩
        · cases stepped
      · cases stepped
  | inside t input =>
      simp only [Program.step] at stepped
      split at stepped
      · rename_i at_ here
        obtain ⟨action, acts, rfl⟩ := Option.map_eq_some_iff.mp stepped
        refine .inr ⟨t, action.next, ?_, ?_⟩
        · have moves : prog.Moves t st.shared at_ (action.after st.shared) action.next := .inside acts
          rw [here]
          cases action <;> exact moves
        · cases action <;> exact site_setPc ..
      · cases stepped
  | outside t input =>
      simp only [Program.step] at stepped
      split at stepped
      · rename_i at_ here
        obtain ⟨r, acts, rfl⟩ := Option.map_eq_some_iff.mp stepped
        refine .inr ⟨t, r.2, ?_, site_setPc { st with shared := r.1 } t _⟩
        rw [here]
        exact .outside acts
      · cases stepped
  | advance t =>
      simp only [Program.step] at stepped
      split at stepped
      · rename_i here
        exact .inl (sweep_sites here stepped)
      · rename_i here
        cases stepped
        exact .inl ⟨rfl, site_same { st with holder := none } (by rw [here]; rfl)⟩
      · rename_i here
        cases stepped
        exact .inl ⟨rfl, site_same st (by rw [here]; rfl)⟩
      · cases stepped
  | wake t =>
      simp only [Program.step] at stepped
      split at stepped
      · rename_i here
        cases stepped
        exact .inl ⟨rfl, site_same st (by rw [here]; rfl)⟩
      · cases stepped

theorem act_shared (st : State N L S C) (t : Fin N) (action : Action L S C) :
    (act st t action).shared = action.after st.shared := by
  cases action <;> rfl

theorem step_inside [DecidableEq C] {t : Fin N} {input : I} (stepped : prog.step st (.inside t input) = some st') :
    ∃ at_ action, st.pc t = .inside at_ ∧ prog.inside t input st.shared at_ = some action ∧ st' = act st t action := by
  simp only [Program.step] at stepped
  split at stepped
  · rename_i at_ here
    obtain ⟨action, acts, rfl⟩ := Option.map_eq_some_iff.mp stepped
    exact ⟨at_, action, here, acts, rfl⟩
  · cases stepped

/-- Every other step leaves what the lock protects alone, or is a step without the lock. -/
theorem step_outside [DecidableEq C] {label : Label N I} (stepped : prog.step st label = some st')
    (free : ∀ t input, label ≠ .inside t input) :
    st'.shared = st.shared ∨ ∃ t input at_ next, prog.outside t input st.shared at_ = some (st'.shared, next) := by
  cases label with
  | inside t input => exact absurd rfl (free t input)
  | outside t input =>
      simp only [Program.step] at stepped
      split at stepped
      · rename_i at_ here
        obtain ⟨r, acts, rfl⟩ := Option.map_eq_some_iff.mp stepped
        exact .inr ⟨t, input, at_, r.2, acts⟩
      · cases stepped
  | acquire t =>
      simp only [Program.step] at stepped
      split at stepped
      · split at stepped
        · obtain ⟨next, enters, rfl⟩ := Option.map_eq_some_iff.mp stepped
          exact .inl rfl
        · cases stepped
          exact .inl rfl
        · cases stepped
      · cases stepped
  | advance t =>
      simp only [Program.step] at stepped
      split at stepped
      · rename_i here
        exact .inl (sweep_sites here stepped).1
      · cases stepped
        exact .inl rfl
      · cases stepped
        exact .inl rfl
      · cases stepped
  | wake t =>
      simp only [Program.step] at stepped
      split at stepped
      · cases stepped
        exact .inl rfl
      · cases stepped

end Effects

section Exclusion

/-- The process holds the lock there. -/
def Pc.holds : Pc L C → Bool
  | .inside _ | .sweeping _ _ _ | .falling _ _ => true
  | _ => false

/-- At most one process stands where the lock is held, and it is the holder. -/
def Exclusive (st : State N L S C) : Prop :=
  ∀ t, (st.pc t).holds = true ↔ st.holder = some t

variable {st st' : State N L S C} {t u : Fin N}

theorem setPc_same (pc : Pc L C) : (st.setPc t pc).pc t = pc := Function.update_self ..

theorem setPc_other (pc : Pc L C) (apart : u ≠ t) : (st.setPc t pc).pc u = st.pc u :=
  Function.update_of_ne apart ..

theorem holds_woken [DecidableEq C] (chan : C) (pc : Pc L C) : (pc.woken chan).holds = pc.holds := by
  cases pc with
  | asleep c next =>
      change (if c = chan then Pc.relock next else Pc.asleep c next).holds = false
      split <;> rfl
  | _ => rfl

theorem guarded_woken [DecidableEq C] (chan : C) (pc : Pc L C) :
    (pc.woken chan).guarded = pc.guarded := by
  cases pc with
  | asleep c next =>
      change (if c = chan then Pc.relock next else Pc.asleep c next).guarded = false
      split <;> rfl
  | _ => rfl

theorem Exclusive.others (exclusive : Exclusive st) (held : (st.pc t).holds = true) (apart : u ≠ t) :
    (st.pc u).holds = false := by
  by_contra holding
  have left := (exclusive u).mp (by simpa using holding)
  rw [(exclusive t).mp held] at left
  exact apart (Option.some.inj left).symm

/-- A process moves without giving the lock up or getting it. -/
theorem Exclusive.stay (exclusive : Exclusive st) (shared : S) {pc : Pc L C}
    (same : pc.holds = (st.pc t).holds) : Exclusive ({ st with shared }.setPc t pc) := by
  intro u
  by_cases here : u = t
  · rw [here, setPc_same, same]
    exact exclusive t
  · rw [setPc_other _ here]
    exact exclusive u

theorem Exclusive.leave (exclusive : Exclusive st) (shared : S) {pc : Pc L C}
    (held : (st.pc t).holds = true) (out : pc.holds = false) :
    Exclusive ({ st with shared, holder := none }.setPc t pc) := by
  intro u
  by_cases here : u = t
  · rw [here, setPc_same, out]
    simp [State.setPc]
  · rw [setPc_other _ here]
    simp [State.setPc, exclusive.others held here]

theorem Exclusive.take (exclusive : Exclusive st) {pc : Pc L C} (free : st.holder = none)
    (in_ : pc.holds = true) : Exclusive ({ st with holder := some t }.setPc t pc) := by
  intro u
  by_cases here : u = t
  · rw [here, setPc_same, in_]
    simp [State.setPc]
  · rw [setPc_other _ here]
    have other := exclusive u
    rw [free] at other
    have never : (st.pc u).holds = false := by
      by_contra holding
      exact absurd (other.mp (by simpa using holding)) (by simp)
    simp [State.setPc, never, Ne.symm here]

theorem sweep_exclusive [DecidableEq C] {chan : C} {i : Nat} {next : L} (exclusive : Exclusive st)
    (at_ : st.pc t = .sweeping chan i next) (swept : sweep st t chan i next = some st') :
    Exclusive st' := by
  unfold sweep at swept
  split at swept
  · rename_i below
    dsimp only at swept
    split at swept
    · cases swept
      exact exclusive.stay st.shared (by rw [at_]; rfl)
    · rename_i other
      split at swept
      · cases swept
      · cases swept
        have first : Exclusive (st.setPc ⟨i, below⟩ ((st.pc ⟨i, below⟩).woken chan)) :=
          exclusive.stay st.shared (holds_woken _ _)
        refine first.stay st.shared ?_
        rw [setPc_other _ (Ne.symm other), at_]
        rfl
  · cases swept
    exact exclusive.stay st.shared (by rw [at_]; rfl)

theorem act_exclusive {at_ : L} (exclusive : Exclusive st) (here : st.pc t = .inside at_)
    (action : Action L S C) : Exclusive (act st t action) := by
  cases action with
  | move shared next => exact exclusive.stay _ (by rw [here]; rfl)
  | sleep chan next => exact exclusive.stay st.shared (by rw [here]; rfl)
  | wakeup chan next => exact exclusive.stay st.shared (by rw [here]; rfl)
  | release shared next => exact exclusive.leave _ (by rw [here]; rfl) rfl

theorem step_exclusive [DecidableEq C] {prog : Program N I L S C} {label : Label N I}
    (exclusive : Exclusive st) (stepped : prog.step st label = some st') : Exclusive st' := by
  cases label with
  | acquire t =>
      simp only [Program.step] at stepped
      split at stepped
      · rename_i free
        split at stepped
        · obtain ⟨next, -, rfl⟩ := Option.map_eq_some_iff.mp stepped
          exact exclusive.take free rfl
        · cases stepped
          exact exclusive.take free rfl
        · cases stepped
      · cases stepped
  | inside t input =>
      simp only [Program.step] at stepped
      split at stepped
      · rename_i at_ here
        obtain ⟨action, -, rfl⟩ := Option.map_eq_some_iff.mp stepped
        exact act_exclusive exclusive here action
      · cases stepped
  | outside t input =>
      simp only [Program.step] at stepped
      split at stepped
      · rename_i at_ here
        obtain ⟨r, -, rfl⟩ := Option.map_eq_some_iff.mp stepped
        exact exclusive.stay _ (by rw [here]; rfl)
      · cases stepped
  | advance t =>
      simp only [Program.step] at stepped
      split at stepped
      · rename_i here
        exact sweep_exclusive exclusive here stepped
      · rename_i here
        cases stepped
        exact exclusive.leave st.shared (by rw [here]; rfl) rfl
      · rename_i here
        cases stepped
        exact exclusive.stay st.shared (by rw [here]; rfl)
      · cases stepped
  | wake t =>
      simp only [Program.step] at stepped
      split at stepped
      · rename_i here
        cases stepped
        exact exclusive.stay st.shared (by rw [here]; rfl)
      · cases stepped

end Exclusion

section Waiting

variable {prog : Program N I L S C} {st st' : State N L S C} {t u : Fin N}
variable (Wait : S → C → Prop) (Owes : L → C → Prop)

/-- Asleep on the channel, or past the release of the lock on the way there. -/
def Dormant (st : State N L S C) (t : Fin N) (chan : C) : Prop :=
  ∃ next, st.pc t = .switching chan next ∨ st.pc t = .asleep chan next

/-- The process at `pc` will still wake `t` if that sleeps on the channel. -/
def Indebted (pc : Pc L C) (t : Fin N) (chan : C) : Prop :=
  match pc with
  | .inside at_ => Owes at_ chan
  | .sweeping c i next => Owes next chan ∨ c = chan ∧ i ≤ t
  | _ => False

/-- Whoever sleeps does so with reason, or somebody inside owes it a wakeup. -/
structure Waits (st : State N L S C) : Prop where
  dormant : ∀ t chan, Dormant st t chan → Wait st.shared chan ∨ ∃ u, Indebted Owes (st.pc u) t chan
  falling : ∀ t chan next, st.pc t = .falling chan next → Wait st.shared chan

/-- What the channels with a sleeper are owed by a step. -/
def Honest (st : State N L S C) (at_ : L) : Action L S C → Prop
  | .move shared next => ∀ chan, (∃ u, Dormant st u chan) →
      (Owes at_ chan → Owes next chan ∨ Wait shared chan) ∧
      (Wait st.shared chan → Wait shared chan ∨ Owes next chan)
  | .sleep chan _ => Wait st.shared chan ∧
      ∀ other, (∃ u, Dormant st u other) → Owes at_ other → Wait st.shared other
  | .wakeup chan next => ∀ other, (∃ u, Dormant st u other) → Owes at_ other →
      other = chan ∨ Owes next other ∨ Wait st.shared other
  | .release shared _ => ∀ chan, (∃ u, Dormant st u chan) →
      (Owes at_ chan → Wait shared chan) ∧ (Wait st.shared chan → Wait shared chan)

def Fair (prog : Program N I L S C) (st : State N L S C) : Label N I → Prop
  | .inside t input => ∀ at_ action, st.pc t = .inside at_ →
      prog.inside t input st.shared at_ = some action → Honest Wait Owes st at_ action
  | .outside t input => ∀ at_ r, st.pc t = .outside at_ →
      prog.outside t input st.shared at_ = some r →
      ∀ chan, Wait st.shared chan → Wait r.1 chan
  | _ => True

variable {Wait Owes}

theorem Indebted.holds {pc : Pc L C} {chan : C} (debt : Indebted Owes pc t chan) :
    pc.holds = true := by
  cases pc with
  | inside at_ => rfl
  | sweeping c i next => rfl
  | _ => exact debt.elim

/-- Only the holder can be in debt. -/
theorem debtor (exclusive : Exclusive st) (held : (st.pc t).holds = true) {w : Fin N} {chan : C}
    (debt : Indebted Owes (st.pc w) u chan) : w = t := by
  have left := (exclusive w).mp debt.holds
  have right := (exclusive t).mp held
  rw [left] at right
  exact Option.some.inj right

def Pc.sleeps : Pc L C → Bool
  | .switching _ _ | .asleep _ _ => true
  | _ => false

theorem awake_not_dormant {pc : Pc L C} {chan : C} (awake : pc.sleeps = false)
    (dormant : Dormant (st.setPc t pc) t chan) : Dormant st t chan := by
  obtain ⟨next, sleeps⟩ := dormant
  rw [setPc_same] at sleeps
  rcases sleeps with rfl | rfl <;> cases awake

/-- A process that is not the holder moves and does not fall asleep. -/
theorem Waits.aside (waits : Waits Wait Owes st) (holder : Option (Fin N)) {pc : Pc L C}
    (before : (st.pc t).holds = false) (awake : ∀ chan next, pc ≠ .falling chan next)
    (sleeps : ∀ chan, Dormant (st.setPc t pc) t chan → Dormant st t chan) :
    Waits Wait Owes ({ st with holder }.setPc t pc) := by
  have others : ∀ u, u ≠ t → ({ st with holder }.setPc t pc).pc u = st.pc u :=
    fun u apart => setPc_other _ apart
  have own : ({ st with holder }.setPc t pc).pc t = pc := setPc_same _
  refine ⟨fun u chan dormant => ?_, fun u chan next falls => ?_⟩
  · have was : Dormant st u chan := by
      by_cases here : u = t
      · subst here
        refine sleeps chan ?_
        obtain ⟨next, at_⟩ := dormant
        rw [own] at at_
        exact ⟨next, by rw [setPc_same]; exact at_⟩
      · obtain ⟨next, at_⟩ := dormant
        rw [others u here] at at_
        exact ⟨next, at_⟩
    rcases waits.dormant u chan was with reason | ⟨w, debt⟩
    · exact .inl reason
    · have apart : w ≠ t := by
        rintro rfl
        exact absurd debt.holds (by rw [before]; decide)
      exact .inr ⟨w, by rw [others w apart]; exact debt⟩
  · by_cases here : u = t
    · rw [here, own] at falls
      exact absurd falls (awake chan next)
    · rw [others u here] at falls
      exact waits.falling u chan next falls

/-- The holder moves. -/
theorem Waits.turn (waits : Waits Wait Owes st) (exclusive : Exclusive st)
    (held : (st.pc t).holds = true) (shared : S) (holder : Option (Fin N)) {pc : Pc L C}
    (awake : ∀ chan next, pc ≠ .asleep chan next)
    (own : ∀ chan next, pc = .switching chan next ∨ pc = .falling chan next → Wait shared chan)
    (others : ∀ u chan, Dormant st u chan →
      Wait st.shared chan ∨ Indebted Owes (st.pc t) u chan →
      Wait shared chan ∨ Indebted Owes pc u chan) :
    Waits Wait Owes ({ st with shared, holder }.setPc t pc) := by
  have rest : ∀ u, u ≠ t → ({ st with shared, holder }.setPc t pc).pc u = st.pc u :=
    fun u apart => setPc_other _ apart
  have mine : ({ st with shared, holder }.setPc t pc).pc t = pc := setPc_same _
  refine ⟨fun u chan dormant => ?_, fun u chan next falls => ?_⟩
  · obtain ⟨next, at_⟩ := dormant
    by_cases here : u = t
    · rw [here, mine] at at_
      rcases at_ with switches | sleeps
      · exact .inl (own chan next (.inl switches))
      · exact absurd sleeps (awake chan next)
    · rw [rest u here] at at_
      have was : Dormant st u chan := ⟨next, at_⟩
      have before : Wait st.shared chan ∨ Indebted Owes (st.pc t) u chan := by
        rcases waits.dormant u chan was with reason | ⟨w, debt⟩
        · exact .inl reason
        · rw [debtor exclusive held debt] at debt
          exact .inr debt
      rcases others u chan was before with reason | debt
      · exact .inl reason
      · exact .inr ⟨t, by rw [mine]; exact debt⟩
  · by_cases here : u = t
    · rw [here, mine] at falls
      exact own chan next (.inr falls)
    · rw [rest u here] at falls
      have out := exclusive.others held here
      rw [falls] at out
      cases out

theorem act_waits {at_ : L} {action : Action L S C} (waits : Waits Wait Owes st)
    (exclusive : Exclusive st) (here : st.pc t = .inside at_)
    (honest : Honest Wait Owes st at_ action) : Waits Wait Owes (act st t action) := by
  have held : (st.pc t).holds = true := by rw [here]; rfl
  cases action with
  | move shared next =>
      refine waits.turn exclusive held _ _ (by simp) (by simp) fun u chan dormant before => ?_
      rw [here] at before
      obtain ⟨owed, waited⟩ := honest chan ⟨u, dormant⟩
      rcases before with reason | debt
      · exact waited reason
      · exact (owed debt).symm
  | sleep chan next =>
      refine waits.turn exclusive held st.shared st.holder (by simp) ?_ ?_
      · rintro c l (wrong | same)
        · cases wrong
        · cases same
          exact honest.1
      · intro u c dormant before
        rw [here] at before
        rcases before with reason | debt
        · exact .inl reason
        · exact .inl (honest.2 c ⟨u, dormant⟩ debt)
  | wakeup chan next =>
      refine waits.turn exclusive held st.shared st.holder (by simp) (by simp) ?_
      intro u c dormant before
      rw [here] at before
      rcases before with reason | debt
      · exact .inl reason
      · rcases honest c ⟨u, dormant⟩ debt with same | owed | reason
        · exact .inr (.inr ⟨same.symm, Nat.zero_le _⟩)
        · exact .inr (.inl owed)
        · exact .inl reason
  | release shared next =>
      refine waits.turn exclusive held _ _ (by simp) (by simp) fun u chan dormant before => ?_
      rw [here] at before
      obtain ⟨owed, waited⟩ := honest chan ⟨u, dormant⟩
      rcases before with reason | debt
      · exact .inl (waited reason)
      · exact .inl (owed debt)

/-- While the lock is free nobody is in debt. -/
theorem Waits.asleep {chan : C} {next : L} (waits : Waits Wait Owes st) (exclusive : Exclusive st)
    (free : st.holder = none) (sleeps : st.pc t = .asleep chan next) : Wait st.shared chan := by
  rcases waits.dormant t chan ⟨next, .inr sleeps⟩ with reason | ⟨u, debt⟩
  · exact reason
  · have holder := (exclusive u).mp debt.holds
    rw [free] at holder
    cases holder

variable [DecidableEq C]

/-- A process woken by a sweep is not dormant on that channel any more. -/
theorem dormant_woken {p : Fin N} {chan c : C} (free : (st.pc p).guarded = false)
    (dormant : Dormant (st.setPc p ((st.pc p).woken chan)) u c) :
    Dormant st u c ∧ (u = p → c ≠ chan) := by
  obtain ⟨next, at_⟩ := dormant
  by_cases here : u = p
  · subst here
    rw [setPc_same] at at_
    cases pc : st.pc u with
    | asleep d l =>
        rw [pc] at at_
        change (if d = chan then Pc.relock l else Pc.asleep d l) = _ ∨
          (if d = chan then Pc.relock l else Pc.asleep d l) = _ at at_
        split at at_
        · rcases at_ with wrong | wrong <;> cases wrong
        · rename_i apart
          rcases at_ with wrong | same
          · cases wrong
          · cases same
            exact ⟨⟨next, .inr pc⟩, fun _ => apart⟩
    | switching d l =>
        rw [pc] at free
        cases free
    | _ =>
        rw [pc] at at_
        rcases at_ with wrong | wrong <;> cases wrong
  · rw [setPc_other _ here] at at_
    exact ⟨⟨next, at_⟩, fun same => absurd same here⟩

theorem sweep_waits {chan : C} {i : Nat} {next : L} (waits : Waits Wait Owes st)
    (exclusive : Exclusive st) (at_ : st.pc t = .sweeping chan i next)
    (swept : sweep st t chan i next = some st') : Waits Wait Owes st' := by
  have held : (st.pc t).holds = true := by rw [at_]; rfl
  unfold sweep at swept
  split at swept
  · rename_i below
    dsimp only at swept
    split at swept
    · rename_i self
      cases swept
      refine waits.turn exclusive held st.shared st.holder (by simp) (by simp) ?_
      intro u c dormant before
      rw [at_] at before
      rcases before with reason | owed | ⟨same, later⟩
      · exact .inl reason
      · exact .inr (.inl owed)
      · have apart : u ≠ t := by
          rintro rfl
          obtain ⟨l, sleeps⟩ := dormant
          rw [at_] at sleeps
          rcases sleeps with wrong | wrong <;> cases wrong
        have further : u.val ≠ i := by
          intro equal
          exact apart (Fin.ext (equal.trans (congrArg Fin.val self)))
        exact .inr (.inr ⟨same, by omega⟩)
    · rename_i other
      split at swept
      · cases swept
      · rename_i free
        cases swept
        have free : (st.pc ⟨i, below⟩).guarded = false := by simpa using free
        have first : Waits Wait Owes (st.setPc ⟨i, below⟩ ((st.pc ⟨i, below⟩).woken chan)) := by
          refine waits.aside st.holder (exclusive.others held other) ?_ fun c dormant =>
            (dormant_woken free dormant).1
          intro c l falls
          rw [← guarded_woken chan, falls] at free
          cases free
        have at₁ : (st.setPc ⟨i, below⟩ ((st.pc ⟨i, below⟩).woken chan)).pc t = .sweeping chan i next := by
          rw [setPc_other _ (Ne.symm other), at_]
        refine first.turn (exclusive.stay st.shared (holds_woken _ _)) (by rw [at₁]; rfl) st.shared
          st.holder (by simp) (by simp) ?_
        intro u c dormant before
        rw [at₁] at before
        rcases before with reason | owed | ⟨same, later⟩
        · exact .inl reason
        · exact .inr (.inl owed)
        · have further : u.val ≠ i := by
            intro equal
            exact (dormant_woken free dormant).2 (Fin.ext equal) same.symm
          exact .inr (.inr ⟨same, by omega⟩)
  · rename_i beyond
    cases swept
    refine waits.turn exclusive held st.shared st.holder (by simp) (by simp) ?_
    intro u c dormant before
    rw [at_] at before
    rcases before with reason | owed | ⟨same, later⟩
    · exact .inl reason
    · exact .inr owed
    · have bound := u.isLt
      omega

theorem step_waits {label : Label N I} (waits : Waits Wait Owes st) (exclusive : Exclusive st)
    (stepped : prog.step st label = some st') (fair : Fair Wait Owes prog st label) :
    Waits Wait Owes st' := by
  cases label with
  | acquire t =>
      simp only [Program.step] at stepped
      split at stepped
      · split at stepped
        · rename_i at_ here
          obtain ⟨next, -, rfl⟩ := Option.map_eq_some_iff.mp stepped
          exact waits.aside _ (by rw [here]; rfl) (by simp) fun chan => awake_not_dormant rfl
        · rename_i next here
          cases stepped
          exact waits.aside _ (by rw [here]; rfl) (by simp) fun chan => awake_not_dormant rfl
        · cases stepped
      · cases stepped
  | inside t input =>
      simp only [Program.step] at stepped
      split at stepped
      · rename_i at_ here
        obtain ⟨action, acts, rfl⟩ := Option.map_eq_some_iff.mp stepped
        exact act_waits waits exclusive here (fair at_ action here acts)
      · cases stepped
  | outside t input =>
      simp only [Program.step] at stepped
      split at stepped
      · rename_i at_ here
        obtain ⟨r, acts, rfl⟩ := Option.map_eq_some_iff.mp stepped
        have kept := fair at_ r here acts
        have moved : Waits Wait Owes (st.setPc t (.outside r.2)) := by
          exact waits.aside st.holder (by rw [here]; rfl) (by simp) fun chan => awake_not_dormant rfl
        exact ⟨fun u chan dormant => (moved.dormant u chan dormant).imp (kept chan) id,
          fun u chan next falls => kept chan (moved.falling u chan next falls)⟩
      · cases stepped
  | advance t =>
      simp only [Program.step] at stepped
      split at stepped
      · rename_i here
        exact sweep_waits waits exclusive here stepped
      · rename_i chan next here
        cases stepped
        refine waits.turn exclusive (by rw [here]; rfl) st.shared none (by simp) ?_ ?_
        · rintro c l (same | wrong)
          · cases same
            exact waits.falling t chan next here
          · cases wrong
        · intro u c _ before
          rw [here] at before
          exact before.imp id False.elim
      · rename_i chan next here
        cases stepped
        refine waits.aside st.holder (by rw [here]; rfl) (by simp) fun c dormant => ?_
        obtain ⟨l, sleeps⟩ := dormant
        rw [setPc_same] at sleeps
        rcases sleeps with wrong | same
        · cases wrong
        · cases same
          exact ⟨next, .inl here⟩
      · cases stepped
  | wake t =>
      simp only [Program.step] at stepped
      split at stepped
      · rename_i here
        cases stepped
        exact waits.aside st.holder (by rw [here]; rfl) (by simp) fun chan => awake_not_dormant rfl
      · cases stepped

end Waiting

section Settling

variable {prog : Program N I L S C} {st st' : State N L S C} (Local : L → S → Prop)

/-- What a process relies on at its place: of the present data while it holds the lock, of
any data while it has given the lock up. -/
def Pc.Settled (pc : Pc L C) (shared : S) : Prop :=
  match pc with
  | .inside at_ => Local at_ shared
  | .sweeping _ _ next => Local next shared
  | .falling _ next | .switching _ next | .asleep _ next | .relock next => ∀ any, Local next any
  | .outside _ => True

/-- An action of the holder leaves what its next place relies on. -/
def Settles (before : S) : Action L S C → Prop
  | .move shared next => Local next shared
  | .sleep _ next => ∀ any, Local next any
  | .wakeup _ next => Local next before
  | .release _ _ => True

/-- What a program has to keep for its processes to find what they rely on. -/
structure Careful (prog : Program N I L S C) : Prop where
  enter : ∀ t at_ next, prog.enter t at_ = some next → ∀ any, Local next any
  inside : ∀ t input shared at_ action, Local at_ shared →
    prog.inside t input shared at_ = some action → Settles Local shared action
  outside : ∀ t input shared at_ after next, prog.outside t input shared at_ = some (after, next) →
    ∀ at_, Local at_ shared → Local at_ after

variable {Local}

theorem Pc.Settled.woken [DecidableEq C] {pc : Pc L C} {shared : S} (settled : pc.Settled Local shared)
    (chan : C) : (pc.woken chan).Settled Local shared := by
  cases pc with
  | asleep c next =>
      change (if c = chan then Pc.relock next else Pc.asleep c next).Settled Local shared
      split <;> exact settled
  | _ => exact settled

/-- Whoever does not hold the lock does not depend on the data. -/
theorem Pc.Settled.other {pc : Pc L C} {shared : S} (settled : pc.Settled Local shared)
    (out : pc.holds = false) (after : S) : pc.Settled Local after := by
  cases pc with
  | inside at_ => cases out
  | sweeping c i next => cases out
  | _ => exact settled

theorem settled_setPc (settled : ∀ u, (st.pc u).Settled Local st.shared) (holder : Option (Fin N))
    (t : Fin N) (pc : Pc L C) (own : pc.Settled Local st.shared) (u : Fin N) :
    (({ st with holder }.setPc t pc).pc u).Settled Local st.shared := by
  by_cases here : u = t
  · rw [here, setPc_same]
    exact own
  · rw [setPc_other _ here]
    exact settled u

theorem act_settled {t : Fin N} {at_ : L} {action : Action L S C} (exclusive : Exclusive st)
    (settled : ∀ u, (st.pc u).Settled Local st.shared) (here : st.pc t = .inside at_)
    (settles : Settles Local st.shared action) (u : Fin N) :
    ((act st t action).pc u).Settled Local (act st t action).shared := by
  have held : (st.pc t).holds = true := by rw [here]; rfl
  by_cases same : u = t
  · subst same
    cases action <;> (simp only [act]; rw [setPc_same])
    · exact settles
    · exact settles
    · exact settles
    · trivial
  · have kept := (settled u).other (exclusive.others held same)
    cases action <;> (simp only [act]; rw [setPc_other _ same]; exact kept _)

theorem step_settled [DecidableEq C] {label : Label N I} (careful : Careful Local prog)
    (exclusive : Exclusive st) (settled : ∀ u, (st.pc u).Settled Local st.shared)
    (stepped : prog.step st label = some st') (u : Fin N) : (st'.pc u).Settled Local st'.shared := by
  cases label with
  | acquire t =>
      simp only [Program.step] at stepped
      split at stepped
      · split at stepped
        · rename_i at_ here
          obtain ⟨next, enters, rfl⟩ := Option.map_eq_some_iff.mp stepped
          exact settled_setPc settled _ t (.inside next) (careful.enter t at_ next enters st.shared) u
        · rename_i next here
          cases stepped
          have own := settled t
          rw [here] at own
          exact settled_setPc settled _ t (.inside next) (own st.shared) u
        · cases stepped
      · cases stepped
  | inside t input =>
      simp only [Program.step] at stepped
      split at stepped
      · rename_i at_ here
        obtain ⟨action, acts, rfl⟩ := Option.map_eq_some_iff.mp stepped
        have own := settled t
        rw [here] at own
        exact act_settled exclusive settled here (careful.inside t input _ at_ action own acts) u
      · cases stepped
  | outside t input =>
      simp only [Program.step] at stepped
      split at stepped
      · rename_i at_ here
        obtain ⟨⟨after, next⟩, acts, rfl⟩ := Option.map_eq_some_iff.mp stepped
        have kept := careful.outside t input _ at_ after next acts
        by_cases same : u = t
        · subst same
          rw [setPc_same]
          trivial
        · rw [setPc_other _ same]
          have own := settled u
          change (st.pc u).Settled Local after
          cases pc : st.pc u with
          | inside at_ => rw [pc] at own; exact kept at_ own
          | sweeping c i next => rw [pc] at own; exact kept next own
          | _ => rw [pc] at own; exact own
      · cases stepped
  | advance t =>
      simp only [Program.step] at stepped
      split at stepped
      · rename_i chan i next here
        have own := settled t
        rw [here] at own
        unfold sweep at stepped
        split at stepped
        · dsimp only at stepped
          split at stepped
          · cases stepped
            exact settled_setPc settled st.holder t (.sweeping chan (i + 1) next) own u
          · split at stepped
            · cases stepped
            · rename_i below _ _
              cases stepped
              exact settled_setPc (settled_setPc settled st.holder ⟨i, below⟩ _ ((settled ⟨i, below⟩).woken chan))
                st.holder t (.sweeping chan (i + 1) next) own u
        · cases stepped
          exact settled_setPc settled st.holder t (.inside next) own u
      · rename_i chan next here
        cases stepped
        have own := settled t
        rw [here] at own
        exact settled_setPc settled none t (.switching chan next) own u
      · rename_i chan next here
        cases stepped
        have own := settled t
        rw [here] at own
        exact settled_setPc settled st.holder t (.asleep chan next) own u
      · cases stepped
  | wake t =>
      simp only [Program.step] at stepped
      split at stepped
      · rename_i next here
        cases stepped
        have own := settled t
        rw [here] at own
        exact settled_setPc settled st.holder t (.relock next) own u
      · cases stepped

end Settling

end Foundation.Monitor
