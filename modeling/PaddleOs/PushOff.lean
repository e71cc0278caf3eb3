import Mathlib.Logic.Function.Basic
import PaddleOs.Foundation.Runs
import PaddleOs.ProcTable

/-!
`push_off` and `pop_off` of `spinlock.c` on any number of CPUs, with the switches of `proc.c` between
processes and schedulers. A thread runs pairs of its own, may be interrupted wherever interrupts are on,
and a process may go on on another CPU.
-/

namespace PaddleOs.PushOff

open Foundation.Runs
open ProcTable (ProcState)

/-- The fields of `struct cpu`, and whether interrupts are on. -/
structure Hart where
  noff : Int
  intena : Bool
  enabled : Bool

/-- The calls of `panic` in `acquire`, `release`, `pop_off` and `sched`, in their order. -/
inductive Panic where
  | acquire
  | release
  | popOffOn
  | popOffCount
  | schedLock
  | schedLocks
  | schedRunning
  | schedInterruptible
  deriving DecidableEq

/-- `push_off` behind its `intr_get`, which has read `old`. From `intr_off` on nothing else touches the
fields of the CPU. -/
def pushOff (old : Bool) (h : Hart) : Hart where
  noff := h.noff + 1
  intena := if h.noff = 0 then old else h.intena
  enabled := false

def popOff (h : Hart) : Except Panic Hart :=
  if h.enabled then .error .popOffOn
  else if h.noff < 1 then .error .popOffCount
  else
    let noff := h.noff - 1
    .ok { h with noff, enabled := if noff = 0 ∧ h.intena then true else h.enabled }

/-- A kernel thread: how many of its pairs are open, and what `intr_get` has read where the thread is in
the middle of `push_off`. The code that runs comes first, behind it what interrupts have stopped. -/
structure Thread where
  depth : Nat
  reads : List (Option Bool)
  deriving DecidableEq

inductive Action where
  | intrGet
  | pushOff
  | popOff
  | setIntr (on : Bool)
  | interrupt
  | sret
  deriving DecidableEq

/-- What a thread does on its CPU. Pairs are well bracketed: `pop_off` closes a pair of its own thread,
and `intr_on` and `intr_off` stand outside of them, as does the return from an interrupt. -/
def act : Action → Hart → Thread → Option (Except Panic (Hart × Thread))
  | .intrGet, h, ⟨depth, none :: rest⟩ => some (.ok (h, ⟨depth, some h.enabled :: rest⟩))
  | .pushOff, h, ⟨depth, some old :: rest⟩ => some (.ok (pushOff old h, ⟨depth + 1, none :: rest⟩))
  | .popOff, h, ⟨depth + 1, none :: rest⟩ => some ((popOff h).map fun h => (h, ⟨depth, none :: rest⟩))
  | .setIntr on, h, ⟨0, none :: rest⟩ => some (.ok ({ h with enabled := on }, ⟨0, none :: rest⟩))
  | .interrupt, h, ⟨depth, reads⟩ =>
      if h.enabled then some (.ok ({ h with enabled := false }, ⟨depth, none :: reads⟩)) else none
  | .sret, h, ⟨0, none :: read :: rest⟩ => some (.ok ({ h with enabled := true }, ⟨0, read :: rest⟩))
  | _, _, _ => none

/-- Where a process is: it has not run yet, `sched` has switched it out and keeps `intena` in its local
variable, or it runs on a CPU. -/
inductive Place (C : Type) where
  | fresh
  | out (intena : Bool)
  | on (c : C)

/-- A CPU without a current process runs its scheduler. -/
structure State (C P L : Type) where
  hart : C → Hart
  current : C → Option P
  scheduler : C → Thread
  proc : P → Thread
  place : P → Place C
  state : P → ProcState
  lock : L → Option C
  panicked : Option Panic

variable {C P L : Type}

/-- The thread that runs on the CPU. -/
def active (s : State C P L) (c : C) : Thread :=
  match s.current c with
  | none => s.scheduler c
  | some p => s.proc p

theorem active_some {s : State C P L} {c : C} {p : P} (here : s.current c = some p) :
    active s c = s.proc p := by
  unfold active
  rw [here]

theorem active_none {s : State C P L} {c : C} (here : s.current c = none) : active s c = s.scheduler c := by
  unfold active
  rw [here]

section Kernel

variable [DecidableEq C] [DecidableEq P] [DecidableEq L]

def setActive (s : State C P L) (c : C) (h : Hart) (t : Thread) : State C P L :=
  match s.current c with
  | none => { s with hart := Function.update s.hart c h, scheduler := Function.update s.scheduler c t }
  | some p => { s with hart := Function.update s.hart c h, proc := Function.update s.proc p t }

/-- `acquire` behind its `push_off`; it spins while another CPU has the lock. -/
def acquire (s : State C P L) (c : C) (l : L) : Option (Except Panic (State C P L)) :=
  match s.lock l with
  | none => some (.ok { s with lock := Function.update s.lock l (some c) })
  | some owner => if owner = c then some (.error .acquire) else none

/-- `release` before its `pop_off`. -/
def release (s : State C P L) (c : C) (l : L) : Except Panic (State C P L) :=
  if s.lock l = some c then .ok { s with lock := Function.update s.lock l none } else .error .release

/-- `sched` of the process `p` up to its `swtch`. -/
def sched (procLock : P → L) (s : State C P L) (c : C) (p : P) : Except Panic (State C P L) :=
  if s.lock (procLock p) ≠ some c then .error .schedLock
  else if (s.hart c).noff ≠ 1 then .error .schedLocks
  else if s.state p = .running then .error .schedRunning
  else if (s.hart c).enabled then .error .schedInterruptible
  else .ok { s with place := Function.update s.place p (.out (s.hart c).intena)
                    current := Function.update s.current c none }

/-- The `swtch` of the scheduler, which holds one lock, and what follows it at the other side: the last
line of `sched`, or `forkret`. -/
def swtch (s : State C P L) (c : C) (p : P) : Option (State C P L) :=
  if s.current c = none ∧ s.scheduler c = ⟨1, [none]⟩ ∧ s.state p = .runnable then
    let s' := { s with state := Function.update s.state p .running
                       current := Function.update s.current c (some p)
                       place := Function.update s.place p (.on c) }
    match s.place p with
    | .on _ => none
    | .fresh => some { s' with proc := Function.update s.proc p ⟨1, [none]⟩ }
    | .out intena => some { s' with hart := Function.update s.hart c { s.hart c with intena } }
  else none

/-- `setState` stands for all code that writes `p->state`, `allocproc` for the reuse of the entry of a
process that does not run. -/
inductive Label (C P L : Type) where
  | act (c : C) (action : Action)
  | acquire (c : C) (l : L)
  | release (c : C) (l : L)
  | sched (c : C)
  | swtch (c : C) (p : P)
  | setState (p : P) (state : ProcState)
  | allocproc (p : P)

/-- A panic stops the kernel. -/
def settle (s : State C P L) : Except Panic (State C P L) → State C P L
  | .ok s' => s'
  | .error reason => { s with panicked := some reason }

def step (procLock : P → L) (s : State C P L) : Label C P L → Option (State C P L)
  | label =>
    if s.panicked ≠ none then none
    else match label with
    | .act c action => (act action (s.hart c) (active s c)).map fun result =>
        settle s (result.map fun (h, t) => setActive s c h t)
    | .acquire c l => (acquire s c l).map (settle s)
    | .release c l => some (settle s (release s c l))
    | .sched c =>
        match s.current c with
        | none => none
        | some p => if (s.proc p).reads.head? = some none then some (settle s (sched procLock s c p)) else none
    | .swtch c p => swtch s c p
    | .setState p state => some { s with state := Function.update s.state p state }
    | .allocproc p =>
        match s.place p with
        | .on _ => none
        | _ => some { s with place := Function.update s.place p .fresh
                             proc := Function.update s.proc p ⟨0, [none]⟩ }

/-- `.bss` is zero, and interrupts are off. -/
def boot : State C P L where
  hart _ := { noff := 0, intena := false, enabled := false }
  current _ := none
  scheduler _ := ⟨0, [none]⟩
  proc _ := ⟨0, [none]⟩
  place _ := .fresh
  state _ := .unused
  lock _ := none
  panicked := none

end Kernel

section Local

variable {h h' : Hart} {t t' : Thread} {action : Action}

/-- What has been read is still so, also in the code that interrupts have stopped. -/
def Fresh (on : Bool) : List (Option Bool) → Prop
  | [] => False
  | read :: rest => (∀ old, read = some old → old = on) ∧ ∀ read ∈ rest, read ≠ some false

/-- The fields of the CPU while a thread runs on it. -/
structure Fit (h : Hart) (t : Thread) : Prop where
  noff : h.noff = t.depth
  off : 0 < t.depth → h.enabled = false
  fresh : Fresh h.enabled t.reads

/-- What an action does to the pairs of the thread and to `intena`. -/
inductive Moves (h : Hart) (t : Thread) (h' : Hart) (t' : Thread) : Prop
  | same (depth : t'.depth = t.depth) (intena : h'.intena = h.intena)
  | enters (depth : t'.depth = t.depth + 1) (intena : h'.intena = if t.depth = 0 then h.enabled else h.intena)
  | leaves (depth : t.depth = t'.depth + 1) (intena : h'.intena = h.intena)
      (enabled : h'.enabled = (decide (t'.depth = 0) && h.intena))

/-- Nothing has changed for the CPU. -/
theorem Fit.carry {s s' : State C P L} {c : C} (fit : Fit (s.hart c) (active s c)) (hart : s'.hart c = s.hart c)
    (current : s'.current c = s.current c) (scheduler : s'.scheduler c = s.scheduler c)
    (proc : ∀ p, s.current c = some p → s'.proc p = s.proc p) : Fit (s'.hart c) (active s' c) := by
  rw [hart]
  cases here : s.current c with
  | none =>
      rw [active_none (current.trans here), scheduler]
      exact active_none here ▸ fit
  | some p =>
      rw [active_some (current.trans here), proc p here]
      exact active_some here ▸ fit

theorem Fresh.settled {on : Bool} {rest : List (Option Bool)} (fresh : Fresh on (none :: rest)) (on' : Bool) :
    Fresh on' (none :: rest) :=
  ⟨nofun, fresh.2⟩

/-- `pop_off` of a thread with an open pair does not panic. -/
theorem popOff_fit {depth : Nat} {reads : List (Option Bool)} (fit : Fit h ⟨depth + 1, reads⟩) :
    popOff h = .ok { h with noff := depth, enabled := decide (depth = 0) && h.intena } := by
  have off := fit.off (Nat.succ_pos depth)
  have noff : h.noff = depth + 1 := fit.noff
  unfold popOff
  rw [off, if_neg Bool.false_ne_true, if_neg (by omega), noff, Int.add_sub_cancel]
  by_cases last : depth = 0
  · subst last
    cases h.intena <;> simp
  · simp [last]

/-- No action of a thread panics, and the fields of its CPU stay fit. -/
theorem act_fit (fit : Fit h t) {result : Except Panic (Hart × Thread)} (done : act action h t = some result) :
    ∃ h' t', result = .ok (h', t') ∧ Fit h' t' ∧ Moves h t h' t' := by
  obtain ⟨depth, reads⟩ := t
  cases action with
  | intrGet =>
      rcases reads with _ | ⟨_ | old, rest⟩
      · cases done
      · cases done
        refine ⟨_, _, rfl, ⟨fit.noff, fit.off, ⟨fun old same => ?_, fit.fresh.2⟩⟩, .same rfl rfl⟩
        exact (Option.some.inj same).symm
      · cases done
  | pushOff =>
      rcases reads with _ | ⟨_ | old, rest⟩
      · cases done
      · cases done
      · cases done
        have read : old = h.enabled := fit.fresh.1 old rfl
        have noff : h.noff = depth := fit.noff
        refine ⟨_, _, rfl, ⟨congrArg (· + 1) fit.noff, fun _ => rfl, nofun, fit.fresh.2⟩, .enters rfl ?_⟩
        change (if h.noff = 0 then old else h.intena) = _
        rw [noff, read]
        simp only [Int.natCast_eq_zero]
  | popOff =>
      rcases depth with _ | depth
      · cases done
      · rcases reads with _ | ⟨_ | old, rest⟩
        · cases done
        · obtain rfl := Option.some.inj done
          rw [popOff_fit fit]
          refine ⟨_, _, rfl, ⟨rfl, fun more => ?_, fit.fresh.settled _⟩, .leaves rfl rfl rfl⟩
          simp [Nat.ne_of_gt more]
        · cases done
  | setIntr on =>
      rcases depth with _ | depth
      · rcases reads with _ | ⟨_ | old, rest⟩
        · cases done
        · cases done
          exact ⟨_, _, rfl, ⟨fit.noff, fun none => absurd none (Nat.lt_irrefl 0), fit.fresh.settled _⟩,
            .same rfl rfl⟩
        · cases done
      · cases done
  | interrupt =>
      cases on : h.enabled with
      | false => simp [act, on] at done
      | true =>
          have outside : depth = 0 := Nat.eq_zero_of_not_pos fun inside => by
            rw [fit.off inside] at on
            cases on
          rw [act, if_pos on] at done
          cases done
          refine ⟨_, _, rfl, ⟨fit.noff, fun inside => absurd outside (Nat.ne_of_gt inside), nofun,
            fun read member same => ?_⟩, .same rfl rfl⟩
          rcases reads with _ | ⟨first, rest⟩
          · cases member
          · have fresh := fit.fresh
            rw [on] at fresh
            rcases List.mem_cons.mp member with rfl | member
            · cases fresh.1 false same
            · exact fresh.2 read member same
  | sret =>
      rcases depth with _ | depth
      · rcases reads with _ | ⟨_ | old, _ | ⟨read, rest⟩⟩
        · cases done
        · cases done
        · cases done
          refine ⟨_, _, rfl, ⟨fit.noff, fun none => absurd none (Nat.lt_irrefl 0), fun old same => ?_,
            fun other member => fit.fresh.2 other (List.mem_cons_of_mem _ member)⟩, .same rfl rfl⟩
          cases old with
          | true => rfl
          | false => exact absurd same (fit.fresh.2 read List.mem_cons_self)
        · cases done
        · cases done
      · cases done

end Local

section Invariant

variable {s : State C P L}

/-- A thread in front of or behind a `swtch`. -/
structure Waiting (t : Thread) : Prop where
  depth : t.depth = 1
  head : t.reads.head? = some none
  fresh : Fresh false t.reads

/-- What holds in every state of the kernel. -/
structure Inv (s : State C P L) : Prop where
  fit : ∀ c, Fit (s.hart c) (active s c)
  here : ∀ c p, s.current c = some p ↔ s.place p = .on c
  out : ∀ p intena, s.place p = .out intena → Waiting (s.proc p)
  away : ∀ c p, s.current c = some p → Waiting (s.scheduler c)
  calm : s.panicked ≠ some .popOffOn ∧ s.panicked ≠ some .popOffCount ∧ s.panicked ≠ some .schedInterruptible

theorem Inv.panics (inv : Inv s) {reason : Panic}
    (other : reason ≠ .popOffOn ∧ reason ≠ .popOffCount ∧ reason ≠ .schedInterruptible) :
    Inv { s with panicked := some reason } :=
  { inv with calm := ⟨fun same => other.1 (Option.some.inj same), fun same => other.2.1 (Option.some.inj same),
      fun same => other.2.2 (Option.some.inj same)⟩ }

theorem boot_inv : Inv (boot : State C P L) where
  fit _ := ⟨rfl, fun none => absurd none (Nat.lt_irrefl 0), nofun, fun _ none => absurd none List.not_mem_nil⟩
  here _ _ := ⟨nofun, nofun⟩
  out _ _ := nofun
  away _ _ := nofun
  calm := ⟨nofun, nofun, nofun⟩

end Invariant

section Steps

variable [DecidableEq C] [DecidableEq P] {procLock : P → L} {s s' : State C P L} {c : C} {p : P}
variable {h : Hart} {t : Thread}

@[simp]
theorem setActive_hart : (setActive s c h t).hart = Function.update s.hart c h := by
  unfold setActive
  split <;> rfl

@[simp]
theorem setActive_current : (setActive s c h t).current = s.current := by
  unfold setActive
  split <;> rfl

@[simp]
theorem setActive_place : (setActive s c h t).place = s.place := by
  unfold setActive
  split <;> rfl

@[simp]
theorem setActive_panicked : (setActive s c h t).panicked = s.panicked := by
  unfold setActive
  split <;> rfl

theorem setActive_proc (here : s.current c = some p) : (setActive s c h t).proc =
    Function.update s.proc p t := by
  unfold setActive
  rw [here]

/-- The threads that do not run on the CPU stay as they are. -/
theorem setActive_proc_other (other : s.current c ≠ some p) : (setActive s c h t).proc p = s.proc p := by
  unfold setActive
  split
  · rfl
  · rename_i q here
    exact Function.update_of_ne (fun same : p = q => other (same ▸ here)) _ _

theorem setActive_scheduler_other {c' : C} (other : c' = c → s.current c ≠ none) :
    (setActive s c h t).scheduler c' = s.scheduler c' := by
  unfold setActive
  split
  · rename_i here
    exact Function.update_of_ne (fun same => other same here) _ _
  · rfl

theorem active_setActive (c' : C) (inv : Inv s) :
    active (setActive s c h t) c' = if c' = c then t else active s c' := by
  split
  · rename_i same
    subst same
    cases here : s.current c' with
    | none =>
        rw [active_none (by rw [setActive_current, here])]
        unfold setActive
        rw [here]
        exact Function.update_self ..
    | some p =>
        rw [active_some (by rw [setActive_current, here]), setActive_proc here]
        exact Function.update_self ..
  · rename_i other
    cases here : s.current c' with
    | none =>
        rw [active_none (by rw [setActive_current, here]), active_none here]
        exact setActive_scheduler_other fun same => absurd same other
    | some p =>
        rw [active_some (by rw [setActive_current, here]), active_some here]
        refine setActive_proc_other fun also => other ?_
        have first := (inv.here c' p).mp here
        have second := (inv.here c p).mp also
        exact Place.on.inj (first.symm.trans second)

/-- A thread that acts on its CPU. -/
theorem Inv.acts (inv : Inv s) (fit : Fit h t) : Inv (setActive s c h t) where
  fit c' := by
    rw [setActive_hart, active_setActive c' inv]
    split
    · rename_i same
      rw [same, Function.update_self]
      exact fit
    · rename_i other
      rw [Function.update_of_ne other]
      exact inv.fit c'
  here := by
    rw [setActive_current, setActive_place]
    exact inv.here
  out q intena gone := by
    rw [setActive_place] at gone
    rw [setActive_proc_other fun here => ?_]
    · exact inv.out q intena gone
    · have there := (inv.here c q).mp here
      rw [gone] at there
      cases there
  away c' q here := by
    rw [setActive_current] at here
    rw [setActive_scheduler_other fun same => ?_]
    · exact inv.away c' q here
    · rw [← same, here]
      exact Option.some_ne_none q
  calm := by
    rw [setActive_panicked]
    exact inv.calm

/-- A process that `sched` switches out. -/
theorem Inv.switched (inv : Inv s) (here : s.current c = some p) (head : (s.proc p).reads.head? = some none)
    (one : (s.hart c).noff = 1) :
    Inv { s with place := Function.update s.place p (.out (s.hart c).intena)
                 current := Function.update s.current c none } := by
  have fit := inv.fit c
  rw [active_some here] at fit
  have depth : (s.proc p).depth = 1 := Int.ofNat.inj (fit.noff.symm.trans one)
  have off : (s.hart c).enabled = false := fit.off (by omega)
  have waiting := inv.away c p here
  refine ⟨fun c' => ?_, fun c' q => ?_, fun q intena gone => ?_, fun c' q there => ?_, inv.calm⟩
  · by_cases same : c' = c
    · subst same
      rw [active_none (Function.update_self ..)]
      refine ⟨?_, fun _ => off, ?_⟩
      · rw [waiting.depth]
        exact one
      · change Fresh (s.hart c').enabled _
        rw [off]
        exact waiting.fresh
    · exact (inv.fit c').carry rfl (Function.update_of_ne same _ _) rfl fun _ _ => rfl
  · dsimp only
    by_cases same : c' = c
    · subst same
      rw [Function.update_self]
      refine ⟨nofun, fun there => ?_⟩
      by_cases own : q = p
      · subst own
        rw [Function.update_self] at there
        cases there
      · rw [Function.update_of_ne own] at there
        have also := (inv.here c' q).mpr there
        exact absurd (Option.some.inj (also.symm.trans here)) own
    · rw [Function.update_of_ne same]
      by_cases own : q = p
      · subst own
        rw [Function.update_self]
        refine ⟨fun there => ?_, nofun⟩
        have first := (inv.here c' q).mp there
        exact absurd (Place.on.inj (first.symm.trans ((inv.here c q).mp here))) same
      · rw [Function.update_of_ne own]
        exact inv.here c' q
  · dsimp only at gone ⊢
    by_cases own : q = p
    · subst own
      exact ⟨depth, head, off ▸ fit.fresh⟩
    · rw [Function.update_of_ne own] at gone
      exact inv.out q intena gone
  · dsimp only at there ⊢
    by_cases same : c' = c
    · subst same
      rw [Function.update_self] at there
      cases there
    · rw [Function.update_of_ne same] at there
      exact inv.away c' q there

/-- A process that the scheduler switches to. -/
theorem Inv.resumed (inv : Inv s) (free : s.current c = none) (ready : s.scheduler c = ⟨1, [none]⟩)
    (idle : ∀ c', s.place p ≠ .on c') {t : Thread} (waiting : Waiting t) (state : P → ProcState)
    (intena : Bool) :
    Inv { s with state
                 current := Function.update s.current c (some p)
                 place := Function.update s.place p (.on c)
                 proc := Function.update s.proc p t
                 hart := Function.update s.hart c { s.hart c with intena } } := by
  have fit := inv.fit c
  rw [active_none free, ready] at fit
  have off : (s.hart c).enabled = false := fit.off (by decide)
  have other : ∀ c', s.current c' ≠ some p := fun c' there => idle c' ((inv.here c' p).mp there)
  refine ⟨fun c' => ?_, fun c' q => ?_, fun q intena gone => ?_, fun c' q there => ?_, inv.calm⟩
  · by_cases same : c' = c
    · subst same
      rw [active_some (Function.update_self ..)]
      dsimp only
      rw [Function.update_self, Function.update_self]
      refine ⟨?_, fun _ => off, ?_⟩
      · rw [waiting.depth]
        exact fit.noff
      · change Fresh (s.hart c').enabled _
        rw [off]
        exact waiting.fresh
    · exact (inv.fit c').carry (Function.update_of_ne same _ _) (Function.update_of_ne same _ _) rfl
        fun q there => Function.update_of_ne (fun own : q = p => other c' (own ▸ there)) _ _
  · dsimp only
    by_cases same : c' = c
    · subst same
      rw [Function.update_self]
      by_cases own : q = p
      · subst own
        rw [Function.update_self]
        exact ⟨fun _ => rfl, fun _ => rfl⟩
      · rw [Function.update_of_ne own]
        refine ⟨fun also => absurd (Option.some.inj also).symm own, fun there => ?_⟩
        have busy := (inv.here c' q).mpr there
        rw [free] at busy
        cases busy
    · rw [Function.update_of_ne same]
      by_cases own : q = p
      · subst own
        rw [Function.update_self]
        exact ⟨fun there => absurd there (other c'), fun there => absurd (Place.on.inj there).symm same⟩
      · rw [Function.update_of_ne own]
        exact inv.here c' q
  · dsimp only at gone ⊢
    by_cases own : q = p
    · subst own
      rw [Function.update_self] at gone
      cases gone
    · rw [Function.update_of_ne own] at gone ⊢
      exact inv.out q intena gone
  · dsimp only at there ⊢
    by_cases same : c' = c
    · subst same
      rw [ready]
      exact ⟨rfl, rfl, nofun, fun _ none => absurd none List.not_mem_nil⟩
    · rw [Function.update_of_ne same] at there
      exact inv.away c' q there

omit [DecidableEq C] in
/-- The entry of a process that does not run is used for another one. -/
theorem Inv.renewed (inv : Inv s) (idle : ∀ c', s.place p ≠ .on c') :
    Inv { s with place := Function.update s.place p .fresh, proc := Function.update s.proc p ⟨0, [none]⟩ } := by
  have other : ∀ c', s.current c' ≠ some p := fun c' there => idle c' ((inv.here c' p).mp there)
  refine ⟨fun c' => ?_, fun c' q => ?_, fun q intena gone => ?_, inv.away, inv.calm⟩
  · exact (inv.fit c').carry rfl rfl rfl
      fun q there => Function.update_of_ne (fun own : q = p => other c' (own ▸ there)) _ _
  · dsimp only
    by_cases own : q = p
    · subst own
      rw [Function.update_self]
      exact ⟨fun there => absurd there (other c'), nofun⟩
    · rw [Function.update_of_ne own]
      exact inv.here c' q
  · dsimp only at gone ⊢
    by_cases own : q = p
    · subst own
      rw [Function.update_self] at gone
      cases gone
    · rw [Function.update_of_ne own] at gone ⊢
      exact inv.out q intena gone

/-- `sched` panics for other reasons, or switches the process out. -/
theorem Inv.sched (inv : Inv s) (here : s.current c = some p) (head : (s.proc p).reads.head? = some none) :
    Inv (settle s (PushOff.sched procLock s c p)) := by
  unfold PushOff.sched
  split
  · exact inv.panics (by decide)
  · split
    · exact inv.panics (by decide)
    · rename_i one
      rw [not_not] at one
      split
      · exact inv.panics (by decide)
      · have fit := inv.fit c
        rw [active_some here] at fit
        have inside : 0 < (s.proc p).depth := by
          have noff := fit.noff
          omega
        rw [fit.off inside, if_neg Bool.false_ne_true]
        exact inv.switched here head one

theorem Inv.swtch (inv : Inv s) (done : PushOff.swtch s c p = some s') : Inv s' := by
  unfold PushOff.swtch at done
  split at done
  · rename_i guard
    obtain ⟨free, ready, -⟩ := guard
    cases place : s.place p with
    | on c' =>
        simp only [place] at done
        cases done
    | fresh =>
        simp only [place] at done
        obtain rfl := Option.some.inj done
        have idle : ∀ c', s.place p ≠ .on c' := fun c' there => nomatch place.symm.trans there
        have resumed := inv.resumed free ready idle (t := ⟨1, [none]⟩)
          ⟨rfl, rfl, nofun, fun _ none => absurd none List.not_mem_nil⟩
          (Function.update s.state p .running) (s.hart c).intena
        rw [show ({ s.hart c with intena := (s.hart c).intena } : Hart) = s.hart c from rfl,
          Function.update_eq_self] at resumed
        exact resumed
    | out intena =>
        simp only [place] at done
        obtain rfl := Option.some.inj done
        have idle : ∀ c', s.place p ≠ .on c' := fun c' there => nomatch place.symm.trans there
        have resumed := inv.resumed free ready idle (inv.out p intena place)
          (Function.update s.state p .running) intena
        rw [Function.update_eq_self] at resumed
        exact resumed
  · cases done

end Steps

section Runs

variable [DecidableEq C] [DecidableEq P] [DecidableEq L] {procLock : P → L} {s s' : State C P L} {c : C} {p : P}

theorem Inv.step (inv : Inv s) {label : Label C P L} (done : PushOff.step procLock s label = some s') :
    Inv s' := by
  unfold PushOff.step at done
  split at done
  · cases done
  · cases label with
    | act c action =>
        obtain ⟨result, acted, rfl⟩ := Option.map_eq_some_iff.mp done
        obtain ⟨h, t, rfl, fit, -⟩ := act_fit (inv.fit c) acted
        exact inv.acts fit
    | acquire c l =>
        obtain ⟨result, taken, rfl⟩ := Option.map_eq_some_iff.mp done
        unfold PushOff.acquire at taken
        split at taken
        · obtain rfl := Option.some.inj taken
          exact { inv with }
        · split at taken
          · obtain rfl := Option.some.inj taken
            exact inv.panics (by decide)
          · cases taken
    | release c l =>
        obtain rfl := Option.some.inj done
        unfold PushOff.release
        split
        · exact { inv with }
        · exact inv.panics (by decide)
    | sched c =>
        dsimp only at done
        split at done
        · cases done
        · rename_i p here
          split at done
          · rename_i head
            obtain rfl := Option.some.inj done
            exact inv.sched here head
          · cases done
    | swtch c p => exact inv.swtch done
    | setState p state =>
        obtain rfl := Option.some.inj done
        exact { inv with }
    | allocproc p =>
        dsimp only at done
        split at done
        · cases done
        · rename_i idle
          obtain rfl := Option.some.inj done
          exact inv.renewed idle

theorem run_inv {labels : List (Label C P L)} (ran : run (PushOff.step procLock) boot labels = some s) :
    Inv s :=
  run_invariant (PushOff.step procLock) (fun _ s => Inv s) boot_inv
    (fun _ _ _ _ _ inv stepped => inv.step stepped) ran

end Runs

section Pairs

variable [DecidableEq C] [DecidableEq P] [DecidableEq L] {procLock : P → L} {s s' : State C P L} {c : C} {p : P}
variable {v : Bool} {action : Action} {label : Label C P L}

/-- The process keeps this value: in `intena` of its CPU, or in the local variable of `sched`. -/
def Keeps (v : Bool) (p : P) (s : State C P L) : Prop :=
  match s.place p with
  | .fresh => False
  | .out intena => intena = v
  | .on c => (s.hart c).intena = v

omit [DecidableEq C] [DecidableEq P] [DecidableEq L] in
theorem Keeps.carry (keeps : Keeps v p s) (place : s'.place p = s.place p)
    (intena : ∀ c, s.place p = .on c → (s'.hart c).intena = (s.hart c).intena) : Keeps v p s' := by
  unfold Keeps at *
  rw [place]
  cases here : s.place p with
  | fresh => rwa [here] at keeps
  | out intena => rwa [here] at keeps
  | on c =>
      rw [here] at keeps
      exact (intena c here).trans keeps

omit [DecidableEq C] [DecidableEq P] [DecidableEq L] in
theorem keeps_on (here : s.place p = .on c) : Keeps v p s ↔ (s.hart c).intena = v := by
  unfold Keeps
  rw [here]

omit [DecidableEq P] in
theorem acquire_frame {l : L} {result : Except Panic (State C P L)} (taken : acquire s c l = some result) :
    (settle s result).place = s.place ∧ (settle s result).hart = s.hart := by
  unfold acquire at taken
  split at taken
  · cases taken
    exact ⟨rfl, rfl⟩
  · split at taken
    · cases taken
      exact ⟨rfl, rfl⟩
    · cases taken

omit [DecidableEq P] in
theorem release_frame (s : State C P L) (c : C) (l : L) :
    (settle s (release s c l)).place = s.place ∧ (settle s (release s c l)).hart = s.hart := by
  unfold release
  split
  · exact ⟨rfl, rfl⟩
  · exact ⟨rfl, rfl⟩

omit [DecidableEq L] in
/-- `sched` changes nothing and panics, or it switches the process out. -/
theorem sched_frame (procLock : P → L) (s : State C P L) (c : C) (p : P) :
    ((settle s (sched procLock s c p)).place = s.place ∧ (settle s (sched procLock s c p)).hart = s.hart) ∨
      settle s (sched procLock s c p) = { s with place := Function.update s.place p (.out (s.hart c).intena)
                                                 current := Function.update s.current c none } := by
  unfold sched
  split
  · exact .inl ⟨rfl, rfl⟩
  · split
    · exact .inl ⟨rfl, rfl⟩
    · split
      · exact .inl ⟨rfl, rfl⟩
      · split
        · exact .inl ⟨rfl, rfl⟩
        · exact .inr rfl

theorem Inv.acted (inv : Inv s) (done : PushOff.step procLock s (.act c action) = some s') :
    ∃ h t, act action (s.hart c) (active s c) = some (.ok (h, t)) ∧ s' = setActive s c h t ∧
      Moves (s.hart c) (active s c) h t := by
  unfold PushOff.step at done
  split at done
  · cases done
  · obtain ⟨result, acted, rfl⟩ := Option.map_eq_some_iff.mp done
    obtain ⟨h, t, rfl, -, moves⟩ := act_fit (inv.fit c) acted
    exact ⟨h, t, acted, rfl, moves⟩

/-- While a process is inside its outermost pair it keeps the value, wherever it goes. -/
theorem Inv.keeps (inv : Inv s) (keeps : Keeps v p s) (inside : 0 < (s.proc p).depth)
    (done : PushOff.step procLock s label = some s') (still : 0 < (s'.proc p).depth) : Keeps v p s' := by
  cases label with
  | act c action =>
      obtain ⟨h, t, -, rfl, moves⟩ := inv.acted done
      refine keeps.carry (by rw [setActive_place]) fun c' there => ?_
      rw [setActive_hart]
      by_cases same : c' = c
      · subst same
        rw [Function.update_self]
        rw [active_some ((inv.here c' p).mpr there)] at moves
        cases moves with
        | same _ intena => exact intena
        | enters _ intena => rw [intena, if_neg (Nat.ne_of_gt inside)]
        | leaves _ intena _ => exact intena
      · rw [Function.update_of_ne same]
  | acquire c l =>
      unfold PushOff.step at done
      split at done
      · cases done
      · obtain ⟨result, taken, rfl⟩ := Option.map_eq_some_iff.mp done
        obtain ⟨place, hart⟩ := acquire_frame taken
        exact keeps.carry (congrFun place p) fun c' _ => congrArg Hart.intena (congrFun hart c')
  | release c l =>
      unfold PushOff.step at done
      split at done
      · cases done
      · obtain rfl := Option.some.inj done
        obtain ⟨place, hart⟩ := release_frame s c l
        exact keeps.carry (congrFun place p) fun c' _ => congrArg Hart.intena (congrFun hart c')
  | sched c =>
      unfold PushOff.step at done
      split at done
      · cases done
      · dsimp only at done
        split at done
        · cases done
        · rename_i q here
          split at done
          · obtain rfl := Option.some.inj done
            rcases sched_frame procLock s c q with ⟨place, hart⟩ | switched
            · exact keeps.carry (congrFun place p) fun c' _ => congrArg Hart.intena (congrFun hart c')
            · rw [switched]
              by_cases own : p = q
              · subst own
                have last := (keeps_on ((inv.here c p).mp here)).mp keeps
                unfold Keeps
                dsimp only
                rw [Function.update_self]
                exact last
              · exact keeps.carry (Function.update_of_ne own _ _) fun _ _ => rfl
          · cases done
  | swtch c q =>
      unfold PushOff.step at done
      split at done
      · cases done
      · dsimp only at done
        unfold PushOff.swtch at done
        split at done
        · rename_i guard
          have busy : ∀ c', s.place p = .on c' → c' ≠ c := fun c' there same => by
            have running := (inv.here c' p).mpr there
            rw [same, guard.1] at running
            cases running
          by_cases own : p = q
          · subst own
            unfold Keeps at keeps
            cases place : s.place p with
            | on c' =>
                simp only [place] at done
                cases done
            | fresh =>
                rw [place] at keeps
                exact keeps.elim
            | out intena =>
                simp only [place] at done keeps
                obtain rfl := Option.some.inj done
                refine (keeps_on (Function.update_self ..)).mpr ?_
                dsimp only
                rw [Function.update_self]
                exact keeps
          · cases place : s.place q with
            | on c' =>
                simp only [place] at done
                cases done
            | fresh =>
                simp only [place] at done
                obtain rfl := Option.some.inj done
                exact keeps.carry (Function.update_of_ne own _ _) fun _ _ => rfl
            | out intena =>
                simp only [place] at done
                obtain rfl := Option.some.inj done
                refine keeps.carry (Function.update_of_ne own _ _) fun c' there => ?_
                dsimp only
                rw [Function.update_of_ne (busy c' there)]
        · cases done
  | setState q state =>
      unfold PushOff.step at done
      split at done
      · cases done
      · obtain rfl := Option.some.inj done
        exact keeps.carry rfl fun _ _ => rfl
  | allocproc q =>
      unfold PushOff.step at done
      split at done
      · cases done
      · dsimp only at done
        split at done
        · cases done
        · obtain rfl := Option.some.inj done
          by_cases own : p = q
          · subst own
            dsimp only at still
            rw [Function.update_self] at still
            exact absurd still (Nat.lt_irrefl 0)
          · exact keeps.carry (Function.update_of_ne own _ _) fun _ _ => rfl

/-- The process enters its outermost pair with the value that it keeps. -/
theorem Inv.enters (inv : Inv s) (mine : s.current c = some p) (outside : (s.proc p).depth = 0)
    (done : PushOff.step procLock s (.act c .pushOff) = some s') :
    Keeps (s.hart c).enabled p s' ∧ 0 < (s'.proc p).depth ∧
      (s.proc p).reads.head? = some (some (s.hart c).enabled) := by
  have fit := inv.fit c
  obtain ⟨h, t, acted, rfl, moves⟩ := inv.acted done
  rw [active_some mine] at acted moves fit
  generalize thread : s.proc p = own at *
  obtain ⟨depth, reads⟩ := own
  obtain rfl : depth = 0 := outside
  rcases reads with _ | ⟨_ | old, rest⟩
  · cases acted
  · cases acted
  · have read : old = (s.hart c).enabled := fit.fresh.1 old rfl
    obtain ⟨rfl, rfl⟩ := Prod.mk.inj (Except.ok.inj (Option.some.inj acted))
    refine ⟨?_, ?_, by rw [List.head?_cons, read]⟩
    · refine (keeps_on (c := c) ?_).mpr ?_
      · rw [setActive_place]
        exact (inv.here c p).mp mine
      · rw [setActive_hart, Function.update_self]
        change (if (s.hart c).noff = 0 then old else _) = _
        have none : (s.hart c).noff = 0 := fit.noff
        rw [if_pos none, read]
    · rw [setActive_proc mine, Function.update_self]
      exact Nat.succ_pos 0

/-- Where the outermost pair ends, interrupts are as the value says. -/
theorem Inv.leaves (inv : Inv s) (mine : s.current c = some p) (keeps : Keeps v p s)
    (inside : 0 < (s.proc p).depth)
    (done : PushOff.step procLock s (.act c action) = some s') (outside : (s'.proc p).depth = 0) :
    (s'.hart c).enabled = v := by
  obtain ⟨h, t, -, rfl, moves⟩ := inv.acted done
  rw [setActive_proc mine, Function.update_self] at outside
  rw [active_some mine] at moves
  rw [setActive_hart, Function.update_self]
  have last := (keeps_on ((inv.here c p).mp mine)).mp keeps
  cases moves with
  | same depth _ => omega
  | enters depth _ => omega
  | leaves _ _ enabled =>
      rw [enabled, outside, last]
      exact Bool.true_and v

/-- A stretch of a run in which the process stays inside its outermost pair. -/
def staysInside (procLock : P → L) (p : P) : State C P L → List (Label C P L) → Bool
  | s, [] => 0 < (s.proc p).depth
  | s, label :: rest =>
      0 < (s.proc p).depth && (PushOff.step procLock s label).all fun next => staysInside procLock p next rest

theorem staysInside_start {labels : List (Label C P L)} (inside : staysInside procLock p s labels) :
    0 < (s.proc p).depth := by
  cases labels with
  | nil => exact of_decide_eq_true inside
  | cons label labels => exact of_decide_eq_true (Bool.and_eq_true_iff.mp inside).1

theorem Inv.stays {labels : List (Label C P L)} (inv : Inv s) (keeps : Keeps v p s)
    (inside : staysInside procLock p s labels) (ran : run (PushOff.step procLock) s labels = some s') :
    Inv s' ∧ Keeps v p s' ∧ 0 < (s'.proc p).depth := by
  induction labels generalizing s with
  | nil =>
      cases ran
      exact ⟨inv, keeps, staysInside_start inside⟩
  | cons label labels ih =>
      obtain ⟨next, stepped, onward⟩ := Option.bind_eq_some_iff.mp ran
      have tail := (Bool.and_eq_true_iff.mp inside).2
      rw [stepped] at tail
      exact ih (inv.step stepped) (inv.keeps keeps (staysInside_start inside) stepped (staysInside_start tail))
        tail onward

/-- In every run interrupts are off on a CPU while `noff` is positive, and neither `pop_off` panics nor
`sched` for interrupts that are on. When the outermost pair of a process ends, on whatever CPU,
interrupts are as they were when it was entered, and as `intr_get` has read them. -/
theorem pairs_restore_interrupts (procLock : P → L) {labels : List (Label C P L)} {s : State C P L}
    (ran : run (PushOff.step procLock) boot labels = some s) :
    (∀ c, 0 < (s.hart c).noff → (s.hart c).enabled = false) ∧
    (s.panicked ≠ some .popOffOn ∧ s.panicked ≠ some .popOffCount ∧ s.panicked ≠ some .schedInterruptible) ∧
    ∀ c p s₁, s.current c = some p → (s.proc p).depth = 0 → PushOff.step procLock s (.act c .pushOff) =
      some s₁ →
      (s.proc p).reads.head? = some (some (s.hart c).enabled) ∧
      ∀ inner s₂ c' s₃, staysInside procLock p s₁ inner → run (PushOff.step procLock) s₁ inner = some s₂ →
        s₂.current c' = some p → PushOff.step procLock s₂ (.act c' .popOff) = some s₃ → (s₃.proc p).depth = 0 →
        (s₃.hart c').enabled = (s.hart c).enabled := by
  have inv := run_inv ran
  refine ⟨fun c positive => ?_, inv.calm, fun c p s₁ mine outside entered => ?_⟩
  · have fit := inv.fit c
    refine fit.off ?_
    have noff := fit.noff
    omega
  · obtain ⟨keeps, -, read⟩ := inv.enters mine outside entered
    refine ⟨read, fun inner s₂ c' s₃ inside reached mine' left closed => ?_⟩
    obtain ⟨inv₂, keeps₂, still⟩ := (inv.step entered).stays keeps inside reached
    exact inv₂.leaves mine' keeps₂ still left closed


/-- A process starts on one CPU, enters a pair with interrupts on, yields and goes on on another CPU. -/
def migration : List (Label Bool Unit Unit) × List (Label Bool Unit Unit) where
  fst := [.act false (.setIntr true), .act false .intrGet, .act false .pushOff, .setState () .runnable,
    .swtch false (), .act false .popOff, .act false .intrGet]
  snd := [.acquire false (), .setState () .runnable, .sched false, .release false (), .act false .popOff,
    .act true .intrGet, .act true .pushOff, .acquire true (), .swtch true (), .release true ()]

theorem migration_restores : ∃ s₀ s₁ s₂ s₃, run (PushOff.step id) boot migration.1 = some s₀ ∧
    PushOff.step id s₀ (.act false .pushOff) = some s₁ ∧ run (PushOff.step id) s₁ migration.2 = some s₂ ∧
    PushOff.step id s₂ (.act true .popOff) = some s₃ ∧ (s₃.hart true).enabled = (s₀.hart false).enabled ∧
    (s₀.hart false).enabled = true := by
  refine ⟨_, _, _, _, rfl, rfl, rfl, rfl, ?_, rfl⟩
  exact ((pairs_restore_interrupts id (rfl : run (PushOff.step id) boot migration.1 = some _)).2.2 false () _
    rfl rfl rfl).2 migration.2 _ true _ rfl rfl rfl rfl rfl

end Pairs

end PaddleOs.PushOff
