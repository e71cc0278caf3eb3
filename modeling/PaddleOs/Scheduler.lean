import PaddleOs.ProcTable

/-!
The processes of `proc.c` on any number of CPUs. A CPU runs its `scheduler` loop or, between
the two sides of a `swtch`, the kernel thread of the process it switched to. A step is a
stretch of code between two operations on spinlocks; a lock that is held across stretches is
in the state, with the CPU that took it. `swtch` leaves `p->lock` with the CPU, so that the
code at its other side releases it. What `kalloc`, `uvmcopy` and `copyout` return is chosen
by the label.
-/

namespace PaddleOs.Scheduler

open Foundation.Runs
open ProcTable (Slot ProcState Chan Proc slotAt initproc freeproc wake mark unusedProc initcode)

/-- Where a kernel thread stands. `sched` is in `sched` before its `swtch`; behind the
`swtch` come `unlock` in `yield`, `slept` in `sleep`, `forkret` in a new process and
`zombieExit`, which is never reached. -/
inductive Pc where
  | user
  | sched (next : Pc)
  | unlock (back : Pc)
  | slept (back : Pc)
  | forkret
  | zombieExit
  | allocproc (i : Nat)
  | allocpid (np : Slot)
  | setUsed (np : Slot)
  | allocTrapframe (np : Slot)
  | allocPagetable (np : Slot)
  | uvmcopy (np : Slot)
  | setParent (np : Slot) (pid : Int32)
  | setRunnable (np : Slot) (pid : Int32)
  | exitLock (status : Int32)
  | reparent (i : Nat) (status : Int32)
  | wakeParent (status : Int32)
  | zombieLock (status : Int32)
  | setZombie (status : Int32)
  | waitLock (addr : Nat)
  | waitScan (i : Nat) (havekids : Bool) (addr : Nat)
  | waitChild (pp : Slot) (addr : Nat)
  | waitKilled (addr : Nat)
  | waitSleep (addr : Nat)
  | waitFall (addr : Nat)
  | kill (pid : Int32) (i : Nat)
  | wakeup (chan : Option Chan) (i : Nat) (back : Pc)
  deriving DecidableEq, Repr

/-- Where a CPU stands in its `scheduler` loop; `away` is inside the `swtch`. -/
inductive Place where
  | scan (i : Nat)
  | check (p : Slot)
  | away (p : Slot)
  | back (p : Slot)
  deriving DecidableEq, Repr

/-- What happened, for properties that speak about the past. -/
inductive Event where
  | exited (p : Slot) (pid status : Int32)
  | reaped (t p : Slot) (parent : Option Slot) (pid status : Int32)
  deriving DecidableEq, Repr

/-- `current c` is `c->proc`. -/
structure Machine (Cpu : Type) where
  proc : Slot → Proc
  lock : Slot → Option Cpu
  waitLock : Option Cpu
  nextpid : Int32
  pc : Slot → Pc
  current : Cpu → Option Slot
  place : Cpu → Place
  events : List Event

inductive Call where
  | fork
  | exit (status : Int32)
  | wait (addr : Nat)
  | kill (pid : Int32)
  | setkilled
  | sleep (chan : Chan)
  | wakeup (chan : Chan)
  deriving DecidableEq, Repr

inductive Label (Cpu : Type) where
  | schedule (c : Cpu)
  | call (c : Cpu) (call : Call)
  | advance (c : Cpu) (answer : Nat)
  | yield (c : Cpu)
  | interrupt (chan : Chan) (p : Slot)
  deriving DecidableEq, Repr

variable {Cpu : Type}

def Machine.setProc (s : Machine Cpu) (p : Slot) (next : Proc) : Machine Cpu :=
  { s with proc := Function.update s.proc p next }

def Machine.setLock (s : Machine Cpu) (p : Slot) (holder : Option Cpu) : Machine Cpu :=
  { s with lock := Function.update s.lock p holder }

def Machine.setPc (s : Machine Cpu) (t : Slot) (pc : Pc) : Machine Cpu :=
  { s with pc := Function.update s.pc t pc }

def Machine.setPlace [DecidableEq Cpu] (s : Machine Cpu) (c : Cpu) (current : Option Slot) (place : Place) :
    Machine Cpu :=
  { s with current := Function.update s.current c current
           place := Function.update s.place c place }

/-- The thread holds no spinlock there, so that a timer interrupt makes it yield. -/
def Pc.plain : Pc → Bool
  | .user | .allocproc _ | .setParent _ _ | .setRunnable _ _ | .exitLock _ | .waitLock _ | .kill _ _ => true
  | .wakeup _ _ back => back.plain
  | _ => false

/-- `sleep(chan, lk)` from `acquire(&p->lock)` up to `sched`, for a lock `lk` that is not
modelled. -/
def Machine.sleep (s : Machine Cpu) (c : Cpu) (t : Slot) (chan : Chan) (back : Pc) : Machine Cpu :=
  ((s.setLock t (some c)).setProc t { s.proc t with chan := some chan, state := .sleeping }).setPc t
    (.sched (.slept back))

def begin (s : Machine Cpu) (c : Cpu) (t : Slot) : Call → Option (Machine Cpu)
  | .fork => some (s.setPc t (.allocproc 0))
  | .exit status => if t = initproc then none else some (s.setPc t (.exitLock status))
  | .wait addr => some (s.setPc t (.waitLock addr))
  | .kill pid => some (s.setPc t (.kill pid 0))
  | .setkilled =>
      if s.lock t = none then some (s.setProc t { s.proc t with killed := 1 }) else none
  | .sleep chan => if s.lock t = none then some (s.sleep c t chan .user) else none
  | .wakeup chan => some (s.setPc t (.wakeup (some chan) 0 .user))

/-- A failed `allocproc` or `uvmcopy`: `freeproc(np)`, release, return -1. -/
def Machine.giveUp (s : Machine Cpu) (t np : Slot) : Machine Cpu :=
  ((s.setProc np (freeproc (s.proc np))).setPc t .user).setLock np none

def allocprocStep (s : Machine Cpu) (c : Cpu) (t : Slot) (i : Nat) : Option (Machine Cpu) :=
  match slotAt i with
  | none => some (s.setPc t .user)
  | some p =>
      if s.lock p = none then
        if (s.proc p).state = .unused then some ((s.setLock p (some c)).setPc t (.allocpid p))
        else some (s.setPc t (.allocproc (i + 1)))
      else none

/-- One stretch of `wakeup(chan)` called by thread `t`, which skips its own slot. -/
def wakeupStep (s : Machine Cpu) (t : Slot) (chan : Option Chan) (i : Nat) (back : Pc) :
    Option (Machine Cpu) :=
  match slotAt i with
  | none => some (s.setPc t back)
  | some p =>
      if p = t then some (s.setPc t (.wakeup chan (i + 1) back))
      else if s.lock p = none then
        some ((s.setProc p (wake chan (s.proc p))).setPc t (.wakeup chan (i + 1) back))
      else none

/-- One turn of the scan in `wait`, up to `acquire(&pp->lock)`. -/
def waitScanStep (s : Machine Cpu) (c : Cpu) (t : Slot) (i : Nat) (havekids : Bool) (addr : Nat) :
    Option (Machine Cpu) :=
  match slotAt i with
  | none =>
      if havekids then some (s.setPc t (.waitKilled addr))
      else some { s.setPc t .user with waitLock := none }
  | some pp =>
      if (s.proc pp).parent = some t then
        if s.lock pp = none then some ((s.setLock pp (some c)).setPc t (.waitChild pp addr)) else none
      else some (s.setPc t (.waitScan (i + 1) havekids addr))

/-- The locked stretch on one child; `copied` is the result of `copyout`. -/
def waitChildStep (s : Machine Cpu) (t pp : Slot) (addr : Nat) (copied : Bool) : Machine Cpu :=
  if (s.proc pp).state = .zombie then
    if addr ≠ 0 ∧ copied = false then { (s.setPc t .user).setLock pp none with waitLock := none }
    else
      { ((s.setProc pp (freeproc (s.proc pp))).setPc t .user).setLock pp none with
          waitLock := none
          events := .reaped t pp (s.proc pp).parent (s.proc pp).pid (s.proc pp).xstate :: s.events }
  else (s.setPc t (.waitScan (pp + 1) true addr)).setLock pp none

/-- One turn of the scan in `kill`. -/
def killStep (s : Machine Cpu) (t : Slot) (pid : Int32) (i : Nat) : Option (Machine Cpu) :=
  match slotAt i with
  | none => some (s.setPc t .user)
  | some p =>
      if s.lock p = none then
        if (s.proc p).pid = pid then some ((s.setProc p (mark (s.proc p))).setPc t .user)
        else some (s.setPc t (.kill pid (i + 1)))
      else none

/-- `swtch(&p->context, &mycpu()->context)`. -/
def swtch [DecidableEq Cpu] (s : Machine Cpu) (c : Cpu) (t : Slot) (next : Pc) : Option (Machine Cpu) :=
  match s.place c with
  | .away p => some ((s.setPc t next).setPlace c (s.current c) (.back p))
  | _ => none

/-- The next stretch of the thread `t` on CPU `c`. -/
def advance [DecidableEq Cpu] (s : Machine Cpu) (c : Cpu) (t : Slot) (answer : Nat) : Option (Machine Cpu) :=
  match s.pc t with
  | .user | .zombieExit => none
  | .sched next => swtch s c t next
  | .unlock back => some ((s.setPc t back).setLock t none)
  | .slept back => some (((s.setProc t { s.proc t with chan := none }).setPc t back).setLock t none)
  | .forkret => some ((s.setPc t .user).setLock t none)
  | .allocproc i => allocprocStep s c t i
  | .allocpid np =>
      some (({ s with nextpid := s.nextpid + 1 }.setProc np
        { s.proc np with pid := s.nextpid }).setPc t (.setUsed np))
  | .setUsed np =>
      some ((s.setProc np { s.proc np with state := .used }).setPc t (.allocTrapframe np))
  | .allocTrapframe np =>
      let next := s.setProc np { s.proc np with trapframe := answer }
      if answer = 0 then some (next.giveUp t np) else some (next.setPc t (.allocPagetable np))
  | .allocPagetable np =>
      let next := s.setProc np { s.proc np with pagetable := answer }
      if answer = 0 then some (next.giveUp t np)
      else some ((next.setPc np .forkret).setPc t (.uvmcopy np))
  | .uvmcopy np =>
      if answer = 0 then some (s.giveUp t np)
      else
        some (((s.setProc np { s.proc np with sz := (s.proc t).sz }).setPc t
          (.setParent np (s.proc np).pid)).setLock np none)
  | .setParent np pid =>
      if s.waitLock = none then
        some ((s.setProc np { s.proc np with parent := some t }).setPc t (.setRunnable np pid))
      else none
  | .setRunnable np _ =>
      if s.lock np = none then
        some ((s.setProc np { s.proc np with state := .runnable }).setPc t .user)
      else none
  | .exitLock status =>
      if s.waitLock = none then
        some ({ s with waitLock := some c }.setPc t (.reparent 0 status))
      else none
  | .reparent i status =>
      match slotAt i with
      | none => some (s.setPc t (.wakeParent status))
      | some pp =>
          if (s.proc pp).parent = some t then
            some ((s.setProc pp { s.proc pp with parent := some initproc }).setPc t
              (.wakeup (some (.proc initproc)) 0 (.reparent (i + 1) status)))
          else some (s.setPc t (.reparent (i + 1) status))
  | .wakeParent status =>
      some (s.setPc t (.wakeup ((s.proc t).parent.map .proc) 0 (.zombieLock status)))
  | .zombieLock status =>
      if s.lock t = none then some ((s.setLock t (some c)).setPc t (.setZombie status)) else none
  | .setZombie status =>
      some { (s.setProc t { s.proc t with xstate := status, state := .zombie }).setPc t
          (.sched .zombieExit) with
        waitLock := none
        events := .exited t (s.proc t).pid status :: s.events }
  | .waitLock addr =>
      if s.waitLock = none then
        some ({ s with waitLock := some c }.setPc t (.waitScan 0 false addr))
      else none
  | .waitScan i havekids addr => waitScanStep s c t i havekids addr
  | .waitChild pp addr => some (waitChildStep s t pp addr (decide (answer ≠ 0)))
  | .waitKilled addr =>
      if s.lock t = none then
        if (s.proc t).killed ≠ 0 then some { s.setPc t .user with waitLock := none }
        else some (s.setPc t (.waitSleep addr))
      else none
  | .waitSleep addr =>
      if s.lock t = none then some ((s.setLock t (some c)).setPc t (.waitFall addr)) else none
  | .waitFall addr =>
      some { (s.setProc t { s.proc t with chan := some (.proc t), state := .sleeping }).setPc t
          (.sched (.slept (.waitLock addr))) with
        waitLock := none }
  | .kill pid i => killStep s t pid i
  | .wakeup chan i back => wakeupStep s t chan i back

/-- One stretch of the `scheduler` loop. -/
def schedule [DecidableEq Cpu] (s : Machine Cpu) (c : Cpu) : Option (Machine Cpu) :=
  match s.place c with
  | .scan i =>
      match slotAt i with
      | none => some (s.setPlace c (s.current c) (.scan 0))
      | some p =>
          if s.lock p = none then
            some ((s.setLock p (some c)).setPlace c (s.current c) (.check p))
          else none
  | .check p =>
      if (s.proc p).state = .runnable then
        some ((s.setProc p { s.proc p with state := .running }).setPlace c (some p) (.away p))
      else some ((s.setPlace c (s.current c) (.scan (p + 1))).setLock p none)
  | .back p => some ((s.setPlace c none (.scan (p + 1))).setLock p none)
  | .away _ => none

/-- The process whose thread CPU `c` executes. -/
def Machine.myproc (s : Machine Cpu) (c : Cpu) : Option Slot :=
  match s.place c with
  | .away _ => s.current c
  | _ => none

def step [DecidableEq Cpu] (s : Machine Cpu) : Label Cpu → Option (Machine Cpu)
  | .schedule c => schedule s c
  | .call c call => (s.myproc c).bind fun t => if s.pc t = .user then begin s c t call else none
  | .advance c answer => (s.myproc c).bind fun t => advance s c t answer
  | .yield c => (s.myproc c).bind fun t =>
      if (s.pc t).plain = true ∧ s.lock t = none then
        some (((s.setLock t (some c)).setProc t { s.proc t with state := .runnable }).setPc t
          (.sched (.unlock (s.pc t))))
      else none
  | .interrupt chan p =>
      if s.lock p = none then some (s.setProc p (wake (some chan) (s.proc p))) else none

/-- After `procinit` and `userinit`, when the CPUs enter their `scheduler` loops. -/
def booted (trapframe pagetable : Nat) : Machine Cpu where
  proc p := if p = initproc then initcode trapframe pagetable else unusedProc
  lock _ := none
  waitLock := none
  nextpid := 2
  pc _ := .forkret
  current _ := none
  place _ := .scan 0
  events := []

section Claims

/-- The `p->lock` that thread `t` holds while it runs. -/
def Pc.holding (t : Slot) : Pc → Option Slot
  | .sched _ | .unlock _ | .slept _ | .forkret | .setZombie _ | .waitFall _ => some t
  | .allocpid np | .setUsed np | .allocTrapframe np | .allocPagetable np | .uvmcopy np => some np
  | .waitChild pp _ => some pp
  | .wakeup _ _ back => back.holding t
  | _ => none

/-- The process of a CPU inside the `if` of its `scheduler` loop. -/
def Place.process : Place → Option Slot
  | .away p | .back p => some p
  | _ => none

/-- CPU `c` is in code that holds the lock of `q`. -/
def Claims (s : Machine Cpu) (c : Cpu) (q : Slot) : Prop :=
  match s.place c with
  | .scan _ => False
  | .check p | .back p => p = q
  | .away p => (s.pc p).holding p = some q

/-- A thread can be switched to there: it comes out of `swtch`. -/
def Pc.rests : Pc → Bool
  | .unlock back | .slept back => back.plain
  | .forkret => true
  | _ => false

/-- Where a running thread can stand. -/
def Pc.sound : Pc → Bool
  | .sched _ | .zombieExit => false
  | .unlock back | .slept back => back.plain
  | .wakeup _ _ back => back.sound
  | _ => true

/-- What a thread leaves behind when it calls `swtch`. -/
def Departs (next : Pc) (state : ProcState) : Prop :=
  (state = .runnable ∨ state = .sleeping) ∧ next.rests = true ∨ state = .zombie ∧ next = .zombieExit

/-- How far a `fork` has come with the slot it allocates. -/
inductive Stage where
  | found
  | locked
  | filled
  | released
  deriving DecidableEq

/-- The slot a thread is forking into. -/
def Pc.forking : Pc → Option (Slot × Stage)
  | .allocpid np | .setUsed np => some (np, .found)
  | .allocTrapframe np | .allocPagetable np => some (np, .locked)
  | .uvmcopy np => some (np, .filled)
  | .setParent np _ | .setRunnable np _ => some (np, .released)
  | .wakeup _ _ back | .sched back | .unlock back | .slept back => back.forking
  | _ => none

/-- What thread `t` may rely on while it forks into `np`. -/
def Standing (s : Machine Cpu) (t np : Slot) : Stage → Prop
  | .found => (s.proc np).state = .unused ∧ ∃ c, s.place c = .away t
  | .locked => (s.proc np).state = .used ∧ ∃ c, s.place c = .away t
  | .filled => (s.proc np).state = .used ∧ s.pc np = .forkret ∧ ∃ c, s.place c = .away t
  | .released => (s.proc np).state = .used ∧ s.pc np = .forkret

structure Inv (s : Machine Cpu) : Prop where
  current : ∀ c, s.current c = (s.place c).process
  claims : ∀ c q, Claims s c q → s.lock q = some c
  away : ∀ c p, s.place c = .away p →
    (s.proc p).state = .running ∧ (s.pc p).sound = true ∨
      ∃ next, s.pc p = .sched next ∧ Departs next (s.proc p).state
  running : ∀ p, (s.proc p).state = .running → ∃ c, s.place c = .away p
  resting : ∀ p, (s.proc p).state = .runnable ∨ (s.proc p).state = .sleeping →
    (s.pc p).rests = true ∨ ∃ c, s.place c = .away p
  alone : ∀ c d p, (s.place c).process = some p → (s.place d).process = some p → c = d
  standing : ∀ t np stage, (s.pc t).forking = some (np, stage) → Standing s t np stage
  forker : ∀ t u np stage other, (s.pc t).forking = some (np, stage) →
    (s.pc u).forking = some (np, other) → t = u

theorem booted_inv (trapframe pagetable : Nat) : Inv (booted trapframe pagetable : Machine Cpu) where
  current _ := rfl
  claims c q claim := claim.elim
  away c p at_ := by cases at_
  running p is := by
    dsimp only [booted] at is
    split at is <;> cases is
  resting p _ := .inl rfl
  alone c d p at_ := by cases at_
  standing t np stage forks := by cases forks
  forker t u np stage other forks := by cases forks

end Claims

section Frames

variable {s : Machine Cpu} {c : Cpu} {t q : Slot}

/-- A thread at work: its CPU is inside the `swtch` and it is not on its way back. -/
structure Works (s : Machine Cpu) (c : Cpu) (t : Slot) : Prop where
  at_ : s.place c = .away t
  running : (s.proc t).state = .running

theorem setPc_same (s : Machine Cpu) (t : Slot) (pc : Pc) : (s.setPc t pc).pc t = pc :=
  Function.update_self ..

theorem setPc_other (s : Machine Cpu) {t u : Slot} (pc : Pc) (apart : u ≠ t) :
    (s.setPc t pc).pc u = s.pc u := Function.update_of_ne apart ..

theorem setProc_same (s : Machine Cpu) (q : Slot) (new : Proc) : (s.setProc q new).proc q = new :=
  Function.update_self ..

theorem setProc_other (s : Machine Cpu) {q p : Slot} (new : Proc) (apart : p ≠ q) :
    (s.setProc q new).proc p = s.proc p := Function.update_of_ne apart ..

theorem setLock_same (s : Machine Cpu) (q : Slot) (holder : Option Cpu) :
    (s.setLock q holder).lock q = holder := Function.update_self ..

theorem setLock_other (s : Machine Cpu) {q p : Slot} (holder : Option Cpu) (apart : p ≠ q) :
    (s.setLock q holder).lock p = s.lock p := Function.update_of_ne apart ..

theorem claims_away (at_ : s.place c = .away t) : Claims s c q ↔ (s.pc t).holding t = some q := by
  unfold Claims
  rw [at_]

theorem Departs.busy {next : Pc} {state : ProcState} (departs : Departs next state) :
    state ≠ .running ∧ state ≠ .unused ∧ state ≠ .used := by
  rcases departs with ⟨is | is, -⟩ | ⟨is, -⟩ <;> rw [is] <;> decide

theorem Inv.only (inv : Inv s) (at_ : s.place c = .away t) {d : Cpu}
    (other : s.place d = .away t) : d = c := by
  refine inv.alone d c t ?_ ?_
  · rw [other]
    rfl
  · rw [at_]
    rfl

/-- A slot that is being forked into belongs to no thread at work. -/
theorem Standing.idle {np : Slot} {stage : Stage} (standing : Standing s t np stage) :
    (s.proc np).state = .unused ∨ (s.proc np).state = .used := by
  cases stage with
  | found => exact .inl standing.1
  | locked => exact .inr standing.1
  | filled => exact .inr standing.1
  | released => exact .inr standing.1

theorem Standing.apart {np : Slot} {stage : Stage} (standing : Standing s t np stage) {p : Slot}
    (busy : (s.proc p).state ≠ .unused ∧ (s.proc p).state ≠ .used) : np ≠ p := by
  rintro rfl
  rcases standing.idle with unused | used
  · exact busy.1 unused
  · exact busy.2 used

/-- A forking thread depends on the state and the thread of its slot and on its own CPU. -/
theorem Standing.congr {s' : Machine Cpu} {np : Slot} {stage : Stage}
    (standing : Standing s t np stage) (state : (s'.proc np).state = (s.proc np).state)
    (pc : s'.pc np = s.pc np) (at_ : ∀ c, s.place c = .away t → s'.place c = .away t) :
    Standing s' t np stage := by
  cases stage with
  | found =>
      obtain ⟨unused, c, here⟩ := standing
      exact ⟨state.trans unused, c, at_ c here⟩
  | locked =>
      obtain ⟨used, c, here⟩ := standing
      exact ⟨state.trans used, c, at_ c here⟩
  | filled =>
      obtain ⟨used, ready, c, here⟩ := standing
      exact ⟨state.trans used, pc.trans ready, c, at_ c here⟩
  | released => exact ⟨state.trans standing.1, pc.trans standing.2⟩

/-- What is not a state does not matter. -/
theorem Inv.touch (inv : Inv s) (q : Slot) {new : Proc} (same : new.state = (s.proc q).state) :
    Inv (s.setProc q new) := by
  have states : ∀ p, ((s.setProc q new).proc p).state = (s.proc p).state := by
    intro p
    by_cases here : p = q
    · rw [here, setProc_same, same]
    · rw [setProc_other _ _ here]
  refine ⟨inv.current, inv.claims, fun c p at_ => ?_, fun p is => ?_, fun p rests => ?_, inv.alone,
    fun u np stage forks => ?_, inv.forker⟩
  · rw [states]
    exact inv.away c p at_
  · rw [states] at is
    exact inv.running p is
  · rw [states] at rests
    exact inv.resting p rests
  · exact (inv.standing u np stage forks).congr (states np) rfl fun _ => id

/-- A sleeper becomes runnable. -/
theorem Inv.rouse (inv : Inv s) {new : Proc} (sleeps : (s.proc q).state = .sleeping)
    (runs : new.state = .runnable) : Inv (s.setProc q new) := by
  have others : ∀ p, p ≠ q → (s.setProc q new).proc p = s.proc p := fun p apart =>
    setProc_other _ _ apart
  refine ⟨inv.current, inv.claims, fun c p at_ => ?_, fun p is => ?_, fun p rests => ?_, inv.alone,
    fun u np stage forks => ?_, inv.forker⟩
  · by_cases here : p = q
    · subst here
      rw [setProc_same, runs]
      rcases inv.away c p at_ with ⟨is, -⟩ | ⟨next, at', departs⟩
      · rw [sleeps] at is
        cases is
      · rcases departs with ⟨-, rests⟩ | ⟨zombie, -⟩
        · exact .inr ⟨next, at', .inl ⟨.inl rfl, rests⟩⟩
        · rw [sleeps] at zombie
          cases zombie
    · rw [others p here]
      exact inv.away c p at_
  · by_cases here : p = q
    · rw [here, setProc_same, runs] at is
      cases is
    · rw [others p here] at is
      exact inv.running p is
  · by_cases here : p = q
    · rw [here]
      exact inv.resting q (.inr sleeps)
    · rw [others p here] at rests
      exact inv.resting p rests
  · have standing := inv.standing u np stage forks
    have apart : np ≠ q := standing.apart (by rw [sleeps]; decide)
    exact standing.congr (by rw [others np apart]) rfl fun _ => id

theorem Inv.acquire (inv : Inv s) (free : s.lock q = none) (c : Cpu) :
    Inv (s.setLock q (some c)) := by
  refine ⟨inv.current, fun d x claim => ?_, inv.away, inv.running, inv.resting, inv.alone,
    fun u np stage forks => (inv.standing u np stage forks).congr rfl rfl fun _ => id, inv.forker⟩
  have held := inv.claims d x claim
  rw [setLock_other _ _ (by rintro rfl; rw [free] at held; cases held)]
  exact held

theorem Inv.release (inv : Inv s) (held : s.lock q = some c) (gone : ¬ Claims s c q) :
    Inv (s.setLock q none) := by
  refine ⟨inv.current, fun d x claim => ?_, inv.away, inv.running, inv.resting, inv.alone,
    fun u np stage forks => (inv.standing u np stage forks).congr rfl rfl fun _ => id, inv.forker⟩
  have claimed := inv.claims d x claim
  have apart : x ≠ q := by
    rintro rfl
    rw [held] at claimed
    cases claimed
    exact gone claim
  rw [setLock_other _ _ apart]
  exact claimed

/-- Only the CPU of a thread claims by its place in the code. -/
theorem claims_setPc_other {pc : Pc} {d : Cpu} (apart : s.place d ≠ .away t) :
    Claims (s.setPc t pc) d q ↔ Claims s d q := by
  unfold Claims
  change (match s.place d with
    | .scan _ => False
    | .check p | .back p => p = q
    | .away p => ((s.setPc t pc).pc p).holding p = some q) ↔ _
  cases place : s.place d with
  | away p =>
      rw [place] at apart
      dsimp only
      rw [setPc_other _ _ fun same => apart (by rw [same])]
  | _ => exact Iff.rfl

/-- The thread on CPU `c` changes, and holds only locks that CPU has. -/
theorem Inv.claims_setPc (inv : Inv s) (at_ : s.place c = .away t) {pc : Pc}
    (locks : ∀ q, pc.holding t = some q → s.lock q = some c) {d : Cpu} {x : Slot}
    (claim : Claims (s.setPc t pc) d x) : s.lock x = some d := by
  by_cases here : s.place d = .away t
  · have same := inv.only at_ here
    subst same
    rw [claims_away (s := s.setPc t pc) here, setPc_same] at claim
    exact locks x claim
  · exact inv.claims d x ((claims_setPc_other here).mp claim)

theorem Inv.forker_setPc (inv : Inv s) {pc : Pc}
    (sole : ∀ np stage, pc.forking = some (np, stage) → ∀ u other,
      (s.pc u).forking = some (np, other) → u = t) {u v np : Slot} {stage other : Stage}
    (left : ((s.setPc t pc).pc u).forking = some (np, stage))
    (right : ((s.setPc t pc).pc v).forking = some (np, other)) : u = v := by
  by_cases first : u = t
  · rw [first, setPc_same] at left
    by_cases second : v = t
    · rw [first, second]
    · rw [setPc_other _ _ second] at right
      rw [first]
      exact (sole np stage left v other right).symm
  · rw [setPc_other _ _ first] at left
    by_cases second : v = t
    · rw [second, setPc_same] at right
      rw [second]
      exact sole np other right u stage left
    · rw [setPc_other _ _ second] at right
      exact inv.forker u v np stage other left right

/-- The thread on CPU `c` goes on. -/
theorem Inv.goto (inv : Inv s) (works : Works s c t) {pc : Pc} (sound : pc.sound = true)
    (locks : ∀ q, pc.holding t = some q → s.lock q = some c)
    (forks : ∀ np stage, pc.forking = some (np, stage) → Standing s t np stage ∧
      ∀ u other, (s.pc u).forking = some (np, other) → u = t) : Inv (s.setPc t pc) := by
  refine ⟨inv.current, fun d x claim => inv.claims_setPc works.at_ locks claim, fun d p at_ => ?_,
    inv.running, fun p rests => ?_, inv.alone, fun u np stage forking => ?_,
    fun u v np stage other left right =>
      inv.forker_setPc (fun np stage forking => (forks np stage forking).2) left right⟩
  · by_cases here : p = t
    · subst here
      refine .inl ⟨works.running, ?_⟩
      rw [setPc_same]
      exact sound
    · rw [setPc_other _ _ here]
      exact inv.away d p at_
  · have apart : p ≠ t := by
      rintro rfl
      change (s.proc p).state = _ ∨ (s.proc p).state = _ at rests
      rw [works.running] at rests
      rcases rests with wrong | wrong <;> cases wrong
    rw [setPc_other _ _ apart]
    exact inv.resting p rests
  · have standing : Standing s u np stage := by
      by_cases here : u = t
      · rw [here, setPc_same] at forking
        rw [here]
        exact (forks np stage forking).1
      · rw [setPc_other _ _ here] at forking
        exact inv.standing u np stage forking
    have apart : np ≠ t := standing.apart (by rw [works.running]; decide)
    exact standing.congr rfl (setPc_other _ _ apart) fun _ => id

/-- The same when the thread takes no lock and starts no fork. -/
theorem Inv.move (inv : Inv s) (works : Works s c t) {pc : Pc} (sound : pc.sound = true)
    (locks : pc.holding t = none ∨ pc.holding t = (s.pc t).holding t)
    (forks : pc.forking = none ∨ pc.forking = (s.pc t).forking) : Inv (s.setPc t pc) := by
  refine inv.goto works sound (fun q holds => ?_) fun np stage forking => ?_
  · rcases locks with none | same
    · rw [none] at holds
      cases holds
    · exact inv.claims c q ((claims_away works.at_).mpr (same ▸ holds))
  · rcases forks with none | same
    · rw [none] at forking
      cases forking
    · rw [same] at forking
      exact ⟨inv.standing t np stage forking, fun u other right =>
        (inv.forker t u np stage other forking right).symm⟩

/-- The thread on CPU `c`, with its own lock, gets ready for `swtch`. -/
theorem Inv.depart (inv : Inv s) (works : Works s c t) (held : s.lock t = some c) {new : Proc}
    {next : Pc} (departs : Departs next new.state)
    (forks : ∀ np stage, next.forking = some (np, stage) →
      (s.pc t).forking = some (np, stage) ∧ stage = .released) :
    Inv ((s.setProc t new).setPc t (.sched next)) := by
  have others : ∀ p, p ≠ t → (s.setProc t new).proc p = s.proc p := fun p apart =>
    setProc_other _ _ apart
  have mine : ((s.setProc t new).proc t).state = new.state := by rw [setProc_same]
  refine ⟨inv.current, fun d x claim => ?_, fun d p at_ => ?_, fun p is => ?_, fun p rests => ?_,
    inv.alone, fun u np stage forking => ?_, fun u v np stage other left right => ?_⟩
  · refine inv.claims_setPc works.at_ (fun q holds => ?_) claim
    cases holds
    exact held
  · by_cases here : p = t
    · subst here
      refine .inr ⟨next, setPc_same .., ?_⟩
      change Departs next ((s.setProc p new).proc p).state
      rw [mine]
      exact departs
    · rw [setPc_other _ _ here]
      change ((s.setProc t new).proc p).state = _ ∧ _ ∨ ∃ next, _ ∧ Departs next ((s.setProc t new).proc p).state
      rw [others p here]
      exact inv.away d p at_
  · change ((s.setProc t new).proc p).state = _ at is
    have apart : p ≠ t := by
      rintro rfl
      rw [mine] at is
      exact departs.busy.1 is
    rw [others p apart] at is
    exact inv.running p is
  · by_cases here : p = t
    · rw [here]
      exact .inr ⟨c, works.at_⟩
    · rw [setPc_other _ _ here]
      change ((s.setProc t new).proc p).state = _ ∨ ((s.setProc t new).proc p).state = _ at rests
      rw [others p here] at rests
      exact inv.resting p rests
  · have standing : Standing s u np stage := by
      by_cases here : u = t
      · rw [here, setPc_same] at forking
        rw [here]
        exact inv.standing t np stage (forks np stage forking).1
      · rw [setPc_other _ _ here] at forking
        exact inv.standing u np stage forking
    have apart : np ≠ t := standing.apart (by rw [works.running]; decide)
    exact standing.congr (congrArg Proc.state (others np apart)) (setPc_other _ _ apart) fun _ => id
  · refine inv.forker_setPc (t := t) (fun np stage forking u other right => ?_) left right
    exact (inv.forker t u np stage other (forks np stage forking).1 right).symm

/-- The thread on CPU `c` changes the slot it forks into. -/
theorem Inv.rear (inv : Inv s) (works : Works s c t) {np : Slot} {stage : Stage}
    (forking : (s.pc t).forking = some (np, stage)) {new : Proc} {pc : Pc}
    (sound : pc.sound = true) (locks : ∀ q, pc.holding t = some q → s.lock q = some c)
    (state : new.state = .unused ∨ new.state = .used ∨ new.state = .runnable ∧ (s.pc np).rests = true)
    (forks : ∀ np' stage', pc.forking = some (np', stage') → np' = np ∧
      Standing (s.setProc np new) t np stage') :
    Inv ((s.setProc np new).setPc t pc) := by
  have idle := (inv.standing t np stage forking).idle
  have apart : np ≠ t := (inv.standing t np stage forking).apart (by rw [works.running]; decide)
  have others : ∀ p, p ≠ np → (s.setProc np new).proc p = s.proc p := fun p apart =>
    setProc_other _ _ apart
  have away : ∀ d, s.place d ≠ .away np := by
    intro d at_
    rcases inv.away d np at_ with ⟨is, -⟩ | ⟨next, -, departs⟩
    · rcases idle with state | state <;> rw [state] at is <;> cases is
    · rcases idle with state | state
      · exact departs.busy.2.1 state
      · exact departs.busy.2.2 state
  refine ⟨inv.current, fun d x claim => ?_, fun d p at_ => ?_, fun p is => ?_, fun p rests => ?_,
    inv.alone, fun u np' stage' forking' => ?_, fun u v np' stage' other left right => ?_⟩
  · exact inv.claims_setPc works.at_ locks claim
  · by_cases here : p = t
    · subst here
      refine .inl ⟨?_, ?_⟩
      · change ((s.setProc np new).proc p).state = _
        rw [others p apart.symm]
        exact works.running
      · rw [setPc_same]
        exact sound
    · rw [setPc_other _ _ here]
      change ((s.setProc np new).proc p).state = _ ∧ _ ∨ ∃ next, _ ∧ Departs next ((s.setProc np new).proc p).state
      rw [others p (by rintro rfl; exact away d at_)]
      exact inv.away d p at_
  · change ((s.setProc np new).proc p).state = _ at is
    by_cases here : p = np
    · rw [here, setProc_same] at is
      rw [is] at state
      rcases state with wrong | wrong | ⟨wrong, -⟩ <;> cases wrong
    · rw [others p here] at is
      exact inv.running p is
  · change ((s.setProc np new).proc p).state = _ ∨ ((s.setProc np new).proc p).state = _ at rests
    by_cases here : p = np
    · subst here
      rw [setProc_same] at rests
      rw [setPc_other _ _ apart]
      rcases state with wrong | wrong | ⟨-, ready⟩
      · rw [wrong] at rests
        rcases rests with wrong | wrong <;> cases wrong
      · rw [wrong] at rests
        rcases rests with wrong | wrong <;> cases wrong
      · exact .inl ready
    · rw [others p here] at rests
      have other : p ≠ t := by
        rintro rfl
        rw [works.running] at rests
        rcases rests with wrong | wrong <;> cases wrong
      rw [setPc_other _ _ other]
      exact inv.resting p rests
  · by_cases here : u = t
    · rw [here, setPc_same] at forking'
      obtain ⟨rfl, standing⟩ := forks np' stage' forking'
      rw [here]
      exact standing.congr rfl (setPc_other _ _ apart) fun _ => id
    · rw [setPc_other _ _ here] at forking'
      have standing := inv.standing u np' stage' forking'
      have different : np' ≠ np := by
        rintro rfl
        exact here (inv.forker u t np' stage' stage forking' forking)
      have idle' : np' ≠ t := standing.apart (by rw [works.running]; decide)
      exact standing.congr (congrArg Proc.state (others np' different)) (setPc_other _ _ idle')
        fun _ => id
  · refine inv.forker_setPc (t := t) (fun np' stage' forking' u other also => ?_) left right
    rw [(forks np' stage' forking').1] at also
    exact (inv.forker t u np stage other forking also).symm

/-- A zombie that no CPU executes is freed. -/
theorem Inv.reap (inv : Inv s) {new : Proc} (zombie : (s.proc q).state = .zombie)
    (away : ∀ d, s.place d ≠ .away q) (unused : new.state = .unused) : Inv (s.setProc q new) := by
  have others : ∀ p, p ≠ q → (s.setProc q new).proc p = s.proc p := fun p apart =>
    setProc_other _ _ apart
  refine ⟨inv.current, inv.claims, fun d p at_ => ?_, fun p is => ?_, fun p rests => ?_, inv.alone,
    fun u np stage forks => ?_, inv.forker⟩
  · rw [others p (by rintro rfl; exact away d at_)]
    exact inv.away d p at_
  · by_cases here : p = q
    · rw [here, setProc_same, unused] at is
      cases is
    · rw [others p here] at is
      exact inv.running p is
  · by_cases here : p = q
    · rw [here, setProc_same, unused] at rests
      rcases rests with wrong | wrong <;> cases wrong
    · rw [others p here] at rests
      exact inv.resting p rests
  · have standing := inv.standing u np stage forks
    have apart : np ≠ q := standing.apart (by rw [zombie]; decide)
    exact standing.congr (congrArg Proc.state (others np apart)) rfl fun _ => id

end Frames

section Switches

variable [DecidableEq Cpu] {s : Machine Cpu} {c : Cpu} {t p : Slot}

theorem setPlace_same (s : Machine Cpu) (c : Cpu) (current : Option Slot) (place : Place) :
    (s.setPlace c current place).place c = place := Function.update_self ..

theorem setPlace_other (s : Machine Cpu) {c d : Cpu} (current : Option Slot) (place : Place)
    (apart : d ≠ c) : (s.setPlace c current place).place d = s.place d :=
  Function.update_of_ne apart ..

/-- The claims of the other CPUs stay. -/
theorem claims_setPlace {current : Option Slot} {place : Place} {d : Cpu} {q : Slot} (apart : d ≠ c)
    (claim : Claims (s.setPlace c current place) d q) : Claims s d q := by
  unfold Claims at claim ⊢
  rw [setPlace_other _ _ _ apart] at claim
  exact claim

theorem current_setPlace (old : ∀ d, s.current d = (s.place d).process) {current : Option Slot} {place : Place}
    (own : current = place.process) (d : Cpu) :
    (s.setPlace c current place).current d = ((s.setPlace c current place).place d).process := by
  by_cases here : d = c
  · subst here
    rw [setPlace_same, ← own]
    exact Function.update_self ..
  · rw [setPlace_other _ _ _ here]
    exact (Function.update_of_ne here ..).trans (old d)

/-- A thread at work stays so when another CPU moves. -/
theorem away_setPlace {current : Option Slot} {place : Place} (idle : ∀ q, s.place c ≠ .away q)
    {d : Cpu} (at_ : s.place d = .away t) : (s.setPlace c current place).place d = .away t := by
  rw [setPlace_other _ _ _ (by rintro rfl; exact idle t at_)]
  exact at_

/-- A CPU without a process moves within its loop. -/
theorem Inv.roam (inv : Inv s) {place : Place} {current : Option Slot} (idle : ∀ q, s.place c ≠ .away q)
    (vacant : place.process = none) (empty : current = none)
    (locks : ∀ q, Claims (s.setPlace c current place) c q → s.lock q = some c) :
    Inv (s.setPlace c current place) := by
  have back : ∀ d q, (s.setPlace c current place).place d = .away q → s.place d = .away q := by
    intro d q at_
    by_cases here : d = c
    · rw [here, setPlace_same] at at_
      rw [at_] at vacant
      cases vacant
    · rw [setPlace_other _ _ _ here] at at_
      exact at_
  refine ⟨current_setPlace inv.current (empty.trans vacant.symm), fun d q claim => ?_,
    fun d q at_ => inv.away d q (back d q at_), fun q is => ?_, fun q rests => ?_,
    fun d e q left right => ?_, fun u np stage forks => ?_, inv.forker⟩
  · by_cases here : d = c
    · rw [here] at claim ⊢
      exact locks q claim
    · exact inv.claims d q (claims_setPlace here claim)
  · obtain ⟨d, at_⟩ := inv.running q is
    exact ⟨d, away_setPlace idle at_⟩
  · rcases inv.resting q rests with ready | ⟨d, at_⟩
    · exact .inl ready
    · exact .inr ⟨d, away_setPlace idle at_⟩
  · have other : ∀ d, ((s.setPlace c current place).place d).process = some q → d ≠ c := by
      rintro d at_ rfl
      rw [setPlace_same, vacant] at at_
      cases at_
    rw [setPlace_other _ _ _ (other d left)] at left
    rw [setPlace_other _ _ _ (other e right)] at right
    exact inv.alone d e q left right
  · exact (inv.standing u np stage forks).congr rfl rfl fun d at_ => away_setPlace idle at_

theorem rests_start {pc : Pc} (rests : pc.rests = true) (t : Slot) :
    pc.sound = true ∧ pc.holding t = some t := by
  cases pc with
  | unlock back => exact ⟨rests, rfl⟩
  | slept back => exact ⟨rests, rfl⟩
  | forkret => exact ⟨rfl, rfl⟩
  | _ => cases rests

/-- The scheduler switches to a runnable process. -/
theorem Inv.dispatch (inv : Inv s) (at_ : s.place c = .check p) {new : Proc}
    (runnable : (s.proc p).state = .runnable) (running : new.state = .running) :
    Inv ((s.setProc p new).setPlace c (some p) (.away p)) := by
  have held : s.lock p = some c := inv.claims c p (by unfold Claims; rw [at_])
  have idle : ∀ q, s.place c ≠ .away q := fun q wrong => by rw [at_] at wrong; cases wrong
  -- Nobody else has this process: it would have to hold its lock as well.
  have free : ∀ d, (s.place d).process ≠ some p := by
    intro d has
    have claim : Claims s d p := by
      cases place : s.place d with
      | away q =>
          rw [place] at has
          cases has
          rcases inv.away d p place with ⟨is, -⟩ | ⟨next, pc, -⟩
          · rw [runnable] at is
            cases is
          · rw [claims_away place, pc]
            rfl
      | back q =>
          rw [place] at has
          cases has
          unfold Claims
          rw [place]
      | _ =>
          rw [place] at has
          cases has
    have other := inv.claims d p claim
    rw [held] at other
    cases other
    rw [at_] at has
    cases has
  have ready : (s.pc p).rests = true := by
    rcases inv.resting p (.inl runnable) with ready | ⟨d, wrong⟩
    · exact ready
    · exact absurd (by rw [wrong]; rfl) (free d)
  have others : ∀ q, q ≠ p → (s.setProc p new).proc q = s.proc q := fun q apart =>
    setProc_other _ _ apart
  obtain ⟨sound, holds⟩ := rests_start ready p
  refine ⟨current_setPlace inv.current rfl, fun d q claim => ?_, fun d q place => ?_, fun q is => ?_,
    fun q rests => ?_, fun d e q left right => ?_, fun u np stage forks => ?_, inv.forker⟩
  · by_cases here : d = c
    · subst here
      rw [claims_away (setPlace_same ..)] at claim
      have same : p = q := Option.some.inj (holds.symm.trans claim)
      rw [← same]
      exact held
    · exact inv.claims d q (claims_setPlace (s := s.setProc p new) here claim)
  · by_cases here : d = c
    · rw [here, setPlace_same] at place
      cases place
      refine .inl ⟨?_, sound⟩
      change ((s.setProc p new).proc p).state = _
      rw [setProc_same]
      exact running
    · rw [setPlace_other _ _ _ here] at place
      have apart : q ≠ p := by
        rintro rfl
        exact free d (by change (s.place d) = _ at place; rw [place]; rfl)
      change ((s.setProc p new).proc q).state = _ ∧ _ ∨ ∃ next, _ ∧ Departs next ((s.setProc p new).proc q).state
      rw [others q apart]
      exact inv.away d q place
  · by_cases here : q = p
    · rw [here]
      exact ⟨c, setPlace_same ..⟩
    · change ((s.setProc p new).proc q).state = _ at is
      rw [others q here] at is
      obtain ⟨d, place⟩ := inv.running q is
      exact ⟨d, away_setPlace (s := s.setProc p new) idle place⟩
  · change ((s.setProc p new).proc q).state = _ ∨ ((s.setProc p new).proc q).state = _ at rests
    by_cases here : q = p
    · rw [here, setProc_same, running] at rests
      rcases rests with wrong | wrong <;> cases wrong
    · rw [others q here] at rests
      rcases inv.resting q rests with waits | ⟨d, place⟩
      · exact .inl waits
      · exact .inr ⟨d, away_setPlace (s := s.setProc p new) idle place⟩
  · by_cases first : d = c
    · by_cases second : e = c
      · rw [first, second]
      · rw [first, setPlace_same] at left
        cases left
        rw [setPlace_other _ _ _ second] at right
        exact absurd right (free e)
    · rw [setPlace_other _ _ _ first] at left
      by_cases second : e = c
      · rw [second, setPlace_same] at right
        cases right
        exact absurd left (free d)
      · rw [setPlace_other _ _ _ second] at right
        exact inv.alone d e q left right
  · have standing := inv.standing u np stage forks
    have apart : np ≠ p := standing.apart (by rw [runnable]; decide)
    exact standing.congr (congrArg Proc.state (others np apart)) rfl fun d place =>
      away_setPlace (s := s.setProc p new) idle place

/-- Where a thread is not preempted it forks with the lock of its new slot. -/
theorem forking_plain {pc : Pc} {np : Slot} {stage : Stage} (plain : pc.plain = true)
    (forks : pc.forking = some (np, stage)) : stage = .released := by
  induction pc with
  | wakeup chan i back ih => exact ih plain forks
  | setParent np pid =>
      cases forks
      rfl
  | setRunnable np pid =>
      cases forks
      rfl
  | user => cases forks
  | allocproc i => cases forks
  | exitLock status => cases forks
  | waitLock addr => cases forks
  | kill pid i => cases forks
  | _ => cases plain

theorem forking_rests {pc : Pc} {np : Slot} {stage : Stage} (rests : pc.rests = true)
    (forks : pc.forking = some (np, stage)) : stage = .released := by
  cases pc with
  | unlock back => exact forking_plain rests forks
  | slept back => exact forking_plain rests forks
  | forkret => cases forks
  | _ => cases rests

/-- The thread on CPU `c` switches back to the scheduler. -/
theorem Inv.swtch (inv : Inv s) (at_ : s.place c = .away t) {next : Pc} (pc : s.pc t = .sched next) :
    Inv ((s.setPc t next).setPlace c (s.current c) (.back t)) := by
  have departs : Departs next (s.proc t).state := by
    rcases inv.away c t at_ with ⟨-, sound⟩ | ⟨next', pc', departs⟩
    · rw [pc] at sound
      cases sound
    · rw [pc] at pc'
      cases pc'
      exact departs
  have held : s.lock t = some c := inv.claims c t ((claims_away at_).mpr (by rw [pc]; rfl))
  have current : s.current c = some t := by rw [inv.current, at_]; rfl
  have process : ∀ d, (((s.setPc t next).setPlace c (s.current c) (.back t)).place d).process =
      (s.place d).process := by
    intro d
    by_cases here : d = c
    · rw [here, setPlace_same, at_]
      rfl
    · rw [setPlace_other _ _ _ here]
      rfl
  have stays : ∀ d q, s.place d = .away q → q ≠ t →
      ((s.setPc t next).setPlace c (s.current c) (.back t)).place d = .away q := by
    intro d q place apart
    rw [setPlace_other _ _ _ (by rintro rfl; rw [at_] at place; cases place; exact apart rfl)]
    exact place
  refine ⟨fun d => ?_, fun d q claim => ?_, fun d q place => ?_, fun q is => ?_, fun q rests => ?_,
    fun d e q left right => ?_, fun u np stage forks => ?_, fun u v np stage other left right => ?_⟩
  · exact current_setPlace (s := s.setPc t next) inv.current current d
  · by_cases here : d = c
    · subst here
      unfold Claims at claim
      rw [setPlace_same] at claim
      rw [← claim]
      exact held
    · refine inv.claims d q ?_
      refine (claims_setPc_other fun place => ?_).mp (claims_setPlace here claim)
      exact here (inv.only at_ place)
  · have here : d ≠ c := by
      rintro rfl
      rw [setPlace_same] at place
      cases place
    rw [setPlace_other _ _ _ here] at place
    have apart : q ≠ t := by
      rintro rfl
      exact here (inv.only at_ place)
    change _ ∧ ((s.setPc t next).pc q).sound = true ∨ ∃ n, (s.setPc t next).pc q = .sched n ∧ _
    rw [setPc_other _ _ apart]
    exact inv.away d q place
  · obtain ⟨d, place⟩ := inv.running q is
    refine ⟨d, stays d q place ?_⟩
    rintro rfl
    exact departs.busy.1 is
  · by_cases here : q = t
    · subst here
      change ((s.setPc q next).pc q).rests = true ∨ _
      rw [setPc_same]
      rcases departs with ⟨-, ready⟩ | ⟨zombie, -⟩
      · exact .inl ready
      · change (s.proc q).state = _ ∨ (s.proc q).state = _ at rests
        rw [zombie] at rests
        rcases rests with wrong | wrong <;> cases wrong
    · change ((s.setPc t next).pc q).rests = true ∨ _
      rw [setPc_other _ _ here]
      rcases inv.resting q rests with ready | ⟨d, place⟩
      · exact .inl ready
      · exact .inr ⟨d, stays d q place here⟩
  · rw [process] at left right
    exact inv.alone d e q left right
  · have apart : ∀ {u : Slot} {stage : Stage}, Standing s u np stage → np ≠ t := fun standing =>
      standing.apart ⟨departs.busy.2.1, departs.busy.2.2⟩
    by_cases here : u = t
    · change ((s.setPc t next).pc u).forking = _ at forks
      rw [here, setPc_same] at forks
      have standing := inv.standing t np stage (by rw [pc]; exact forks)
      rcases departs with ⟨-, rests⟩ | ⟨-, rfl⟩
      · have last := forking_rests rests forks
        subst last
        exact ⟨standing.1, (setPc_other _ _ (apart standing)).trans standing.2⟩
      · cases forks
    · change ((s.setPc t next).pc u).forking = _ at forks
      rw [setPc_other _ _ here] at forks
      have standing := inv.standing u np stage forks
      exact standing.congr rfl (setPc_other _ _ (apart standing)) fun d place => stays d u place here
  · refine inv.forker_setPc (t := t) (fun np stage forking u other also => ?_) left right
    exact (inv.forker t u np stage other (by rw [pc]; exact forking) also).symm

end Switches

section Threads

variable {s : Machine Cpu} {c : Cpu} {t q : Slot}

theorem plain_sound {pc : Pc} (plain : pc.plain = true) : pc.sound = true := by
  induction pc with
  | wakeup chan i back ih => exact ih plain
  | unlock back => cases plain
  | slept back => cases plain
  | sched next => cases plain
  | zombieExit => cases plain
  | _ => rfl

theorem plain_holding {pc : Pc} (plain : pc.plain = true) (t : Slot) : pc.holding t = none := by
  induction pc with
  | wakeup chan i back ih => exact ih plain
  | user => rfl
  | allocproc i => rfl
  | setParent np pid => rfl
  | setRunnable np pid => rfl
  | exitLock status => rfl
  | waitLock addr => rfl
  | kill pid i => rfl
  | _ => cases plain

/-- Before it releases its new slot a forking thread holds that slot's lock. -/
theorem forking_holds {pc : Pc} {np : Slot} {stage : Stage} (sound : pc.sound = true)
    (forks : pc.forking = some (np, stage)) (early : stage ≠ .released) (u : Slot) :
    pc.holding u = some np := by
  induction pc with
  | wakeup chan i back ih => exact ih sound forks
  | unlock back => exact absurd (forking_plain sound forks) early
  | slept back => exact absurd (forking_plain sound forks) early
  | sched next => cases sound
  | allocpid np => cases forks; rfl
  | setUsed np => cases forks; rfl
  | allocTrapframe np => cases forks; rfl
  | allocPagetable np => cases forks; rfl
  | uvmcopy np => cases forks; rfl
  | setParent np pid => cases forks; exact absurd rfl early
  | setRunnable np pid => cases forks; exact absurd rfl early
  | _ => cases forks

/-- Nobody forks into an unused slot whose lock is free. -/
theorem Inv.unforked (inv : Inv s) (unused : (s.proc q).state = .unused) (free : s.lock q = none)
    {u : Slot} {stage : Stage} : (s.pc u).forking ≠ some (q, stage) := by
  intro forks
  have standing := inv.standing u q stage forks
  have early : stage = .found := by
    cases stage with
    | found => rfl
    | locked => rw [standing.1] at unused; cases unused
    | filled => rw [standing.1] at unused; cases unused
    | released => rw [standing.1] at unused; cases unused
  subst early
  obtain ⟨-, d, at_⟩ := standing
  have holds : (s.pc u).holding u = some q := by
    rcases inv.away d u at_ with ⟨-, sound⟩ | ⟨next, pc, departs⟩
    · exact forking_holds sound forks (by decide) u
    · rw [pc] at forks
      rcases departs with ⟨-, rests⟩ | ⟨-, rfl⟩
      · exact absurd (forking_rests rests forks) (by decide)
      · cases forks
  rw [inv.claims d q ((claims_away at_).mpr holds)] at free
  cases free

/-- The thread a CPU executes is the process of its `swtch`. -/
theorem Inv.mine (inv : Inv s) (here : s.myproc c = some t) : s.place c = .away t := by
  unfold Machine.myproc at here
  split at here
  · rename_i p at_
    rw [inv.current, at_] at here
    cases here
    exact at_
  · cases here

theorem Inv.stamp (inv : Inv s) (waitLock : Option Cpu) (nextpid : Int32) (events : List Event) :
    Inv { s with waitLock, nextpid, events } :=
  ⟨inv.current, inv.claims, inv.away, inv.running, inv.resting, inv.alone,
    fun u np stage forks => (inv.standing u np stage forks).congr rfl rfl fun _ => id, inv.forker⟩

theorem Inv.holds (inv : Inv s) (works : Works s c t) (held : (s.pc t).holding t = some q) :
    s.lock q = some c := inv.claims c q ((claims_away works.at_).mpr held)

/-- The thread on CPU `c` goes on and releases the lock it held. -/
theorem Inv.drop (inv : Inv s) (works : Works s c t) (held : (s.pc t).holding t = some q) {pc : Pc}
    (sound : pc.sound = true) (empty : pc.holding t = none)
    (forks : ∀ np stage, pc.forking = some (np, stage) → Standing s t np stage ∧
      ∀ u other, (s.pc u).forking = some (np, other) → u = t) :
    Inv ((s.setPc t pc).setLock q none) := by
  have moved : Inv (s.setPc t pc) := inv.goto works sound
    (fun q holds => by rw [empty] at holds; cases holds) forks
  refine moved.release (c := c) (inv.holds works held) ?_
  rw [claims_away (s := s.setPc t pc) works.at_, setPc_same, empty]
  exact nofun

theorem Inv.wake (inv : Inv s) (chan : Option Chan) (q : Slot) :
    Inv (s.setProc q (wake chan (s.proc q))) := by
  unfold ProcTable.wake
  split
  · rename_i matches_
    exact inv.rouse matches_.1 rfl
  · exact inv.touch q rfl

theorem Inv.mark (inv : Inv s) (q : Slot) : Inv (s.setProc q (mark (s.proc q))) := by
  by_cases sleeps : (s.proc q).state = .sleeping
  · exact inv.rouse sleeps (if_pos sleeps)
  · exact inv.touch q (if_neg sleeps)

theorem Works.setProc (works : Works s c t) {new : Proc}
    (same : q = t → new.state = .running) : Works (s.setProc q new) c t := by
  refine ⟨works.at_, ?_⟩
  by_cases here : t = q
  · rw [here, setProc_same]
    exact same here.symm
  · rw [setProc_other _ _ here]
    exact works.running

/-- A fork that fails frees its slot. -/
theorem Inv.giveUp (inv : Inv s) (works : Works s c t) {np : Slot} {stage : Stage}
    (forks : (s.pc t).forking = some (np, stage)) (held : (s.pc t).holding t = some np) :
    Inv (s.giveUp t np) := by
  have freed : Inv ((s.setProc np (freeproc (s.proc np))).setPc t .user) :=
    inv.rear works forks rfl nofun (.inl rfl) nofun
  refine freed.release (c := c) (inv.holds works held) ?_
  rw [claims_away (s := (s.setProc np (freeproc (s.proc np))).setPc t .user) works.at_, setPc_same]
  exact nofun

/-- The new thread of a slot that is being forked into starts in `forkret`. -/
theorem Inv.fill (inv : Inv s) (works : Works s c t) {np : Slot}
    (forks : (s.pc t).forking = some (np, .locked)) (held : (s.pc t).holding t = some np) :
    Inv ((s.setPc np .forkret).setPc t (.uvmcopy np)) := by
  have used := (inv.standing t np .locked forks).1
  have apart : t ≠ np := by
    rintro rfl
    rw [works.running] at used
    cases used
  have away : ∀ d, s.place d ≠ .away np := by
    intro d at_
    rcases inv.away d np at_ with ⟨is, -⟩ | ⟨next, -, departs⟩
    · rw [used] at is
      cases is
    · exact departs.busy.2.2 used
  have none : ∀ u np' stage, ((s.setPc np .forkret).pc u).forking = some (np', stage) →
      (s.pc u).forking = some (np', stage) := by
    intro u np' stage forking
    by_cases here : u = np
    · rw [here, setPc_same] at forking
      cases forking
    · rw [setPc_other _ _ here] at forking
      exact forking
  have primed : Inv (s.setPc np .forkret) := by
    refine ⟨inv.current, fun d x claim => ?_, fun d p at_ => ?_, inv.running, fun p rests => ?_,
      inv.alone, fun u np' stage forking => ?_, fun u v np' stage other left right => ?_⟩
    · exact inv.claims d x ((claims_setPc_other (away d)).mp claim)
    · rw [setPc_other _ _ (by rintro rfl; exact away d at_)]
      exact inv.away d p at_
    · by_cases here : p = np
      · rw [here, setPc_same]
        exact .inl rfl
      · rw [setPc_other _ _ here]
        exact inv.resting p rests
    · have old := none u np' stage forking
      have standing := inv.standing u np' stage old
      by_cases here : np' = np
      · subst here
        have mine := inv.forker u t np' stage .locked old forks
        rw [mine, forks] at old
        cases old
        exact standing
      · exact standing.congr rfl (setPc_other _ _ here) fun _ => id
    · exact inv.forker u v np' stage other (none u np' stage left) (none v np' other right)
  refine primed.goto (c := c) ⟨works.at_, works.running⟩ rfl (fun q holds => ?_) fun np' stage forking => ?_
  · cases holds
    exact inv.holds works held
  · cases forking
    refine ⟨⟨used, setPc_same .., c, works.at_⟩, fun u other forking => ?_⟩
    exact (inv.forker t u np .locked other forks (none u np other forking)).symm

theorem begin_inv {s' : Machine Cpu} {call : Call} (inv : Inv s) (works : Works s c t)
    (began : begin s c t call = some s') : Inv s' := by
  have sleeps : ∀ chan, s.lock t = none → Inv (s.sleep c t chan .user) := by
    intro chan free
    refine (inv.acquire free c).depart ⟨works.at_, works.running⟩ (setLock_same ..)
      (.inl ⟨.inr rfl, rfl⟩) nofun
  cases call with
  | fork =>
      cases began
      exact inv.move works rfl (.inl rfl) (.inl rfl)
  | exit status =>
      rw [begin] at began
      split at began
      · cases began
      · cases began
        exact inv.move works rfl (.inl rfl) (.inl rfl)
  | wait addr =>
      cases began
      exact inv.move works rfl (.inl rfl) (.inl rfl)
  | kill pid =>
      cases began
      exact inv.move works rfl (.inl rfl) (.inl rfl)
  | setkilled =>
      rw [begin] at began
      split at began
      · cases began
        exact inv.touch t rfl
      · cases began
  | sleep chan =>
      rw [begin] at began
      split at began
      · rename_i free
        cases began
        exact sleeps chan free
      · cases began
  | wakeup chan =>
      cases began
      exact inv.move works rfl (.inl rfl) (.inl rfl)

theorem allocprocStep_inv {s' : Machine Cpu} {i : Nat} (inv : Inv s) (works : Works s c t)
    (ran : allocprocStep s c t i = some s') : Inv s' := by
  unfold allocprocStep at ran
  split at ran
  · cases ran
    exact inv.move works rfl (.inl rfl) (.inl rfl)
  · rename_i p slot
    split at ran
    · rename_i free
      split at ran
      · rename_i unused
        cases ran
        refine (inv.acquire free c).goto ⟨works.at_, works.running⟩ rfl (fun q holds => ?_)
          fun np stage forks => ?_
        · cases holds
          exact setLock_same ..
        · cases forks
          exact ⟨⟨unused, c, works.at_⟩, fun u other forks => absurd forks (inv.unforked unused free)⟩
      · cases ran
        exact inv.move works rfl (.inl rfl) (.inl rfl)
    · cases ran

theorem wakeupStep_inv {s' : Machine Cpu} {chan : Option Chan} {i : Nat} {back : Pc} (inv : Inv s)
    (works : Works s c t) (at_ : s.pc t = .wakeup chan i back) (sound : back.sound = true)
    (ran : wakeupStep s t chan i back = some s') : Inv s' := by
  have same : ∀ j, (Pc.wakeup chan j back).holding t = (s.pc t).holding t ∧
      (Pc.wakeup chan j back).forking = (s.pc t).forking := by
    intro j
    rw [at_]
    exact ⟨rfl, rfl⟩
  unfold wakeupStep at ran
  split at ran
  · cases ran
    exact inv.move works sound (.inr (same i).1) (.inr (same i).2)
  · rename_i p slot
    split at ran
    · cases ran
      exact inv.move works sound (.inr (same _).1) (.inr (same _).2)
    · rename_i other
      split at ran
      · cases ran
        exact (inv.wake chan p).move (works.setProc fun wrong => absurd wrong other) sound
          (.inr (same _).1) (.inr (same _).2)
      · cases ran

theorem waitScanStep_inv {s' : Machine Cpu} {i addr : Nat} {havekids : Bool} (inv : Inv s)
    (works : Works s c t) (ran : waitScanStep s c t i havekids addr = some s') : Inv s' := by
  unfold waitScanStep at ran
  split at ran
  · split at ran
    · cases ran
      exact inv.move works rfl (.inl rfl) (.inl rfl)
    · cases ran
      have moved : Inv (s.setPc t .user) := inv.move works rfl (.inl rfl) (.inl rfl)
      exact moved.stamp none s.nextpid s.events
  · split at ran
    · split at ran
      · rename_i free
        cases ran
        refine (inv.acquire free c).goto ⟨works.at_, works.running⟩ rfl (fun q holds => ?_) nofun
        cases holds
        exact setLock_same ..
      · cases ran
    · cases ran
      exact inv.move works rfl (.inl rfl) (.inl rfl)

/-- A zombie whose lock a thread holds is on no CPU. -/
theorem Inv.zombie_idle (inv : Inv s) (works : Works s c t) (held : s.lock q = some c)
    (zombie : (s.proc q).state = .zombie) (d : Cpu) : (s.place d).process ≠ some q := by
  intro has
  have apart : q ≠ t := by
    rintro rfl
    rw [works.running] at zombie
    cases zombie
  have claim : Claims s d q := by
    cases place : s.place d with
    | away p =>
        rw [place] at has
        cases has
        rcases inv.away d q place with ⟨is, -⟩ | ⟨next, pc, -⟩
        · rw [zombie] at is
          cases is
        · rw [claims_away place, pc]
          rfl
    | back p =>
        rw [place] at has
        cases has
        unfold Claims
        rw [place]
    | _ =>
        rw [place] at has
        cases has
  have other := inv.claims d q claim
  rw [held] at other
  cases other
  rw [works.at_] at has
  cases has
  exact apart rfl

theorem waitChildStep_inv {pp : Slot} {addr : Nat} (copied : Bool) (inv : Inv s)
    (works : Works s c t) (at_ : s.pc t = .waitChild pp addr) :
    Inv (waitChildStep s t pp addr copied) := by
  have held : (s.pc t).holding t = some pp := by rw [at_]; rfl
  unfold waitChildStep
  split
  · rename_i zombie
    split
    · have dropped : Inv ((s.setPc t .user).setLock pp none) := inv.drop works held rfl rfl nofun
      exact dropped.stamp none s.nextpid s.events
    · have idle : ∀ d, s.place d ≠ .away pp := fun d place =>
        inv.zombie_idle works (inv.holds works held) zombie d (by rw [place]; rfl)
      have reaped : Inv (s.setProc pp (freeproc (s.proc pp))) := inv.reap zombie idle rfl
      have apart : pp ≠ t := by
        rintro rfl
        rw [works.running] at zombie
        cases zombie
      have dropped : Inv (((s.setProc pp (freeproc (s.proc pp))).setPc t .user).setLock pp none) :=
        reaped.drop (works.setProc fun wrong => absurd wrong apart) held rfl rfl nofun
      exact dropped.stamp none s.nextpid _
  · exact inv.drop works held rfl rfl nofun

theorem killStep_inv {s' : Machine Cpu} {pid : Int32} {i : Nat} (inv : Inv s)
    (works : Works s c t) (ran : killStep s t pid i = some s') : Inv s' := by
  unfold killStep at ran
  split at ran
  · cases ran
    exact inv.move works rfl (.inl rfl) (.inl rfl)
  · rename_i p slot
    split at ran
    · split at ran
      · cases ran
        refine (inv.mark p).move (works.setProc fun same => ?_) rfl (.inl rfl) (.inl rfl)
        subst same
        change (if (s.proc p).state = .sleeping then .runnable else (s.proc p).state) = _
        rw [works.running]
        rfl
      · cases ran
        exact inv.move works rfl (.inl rfl) (.inl rfl)
    · cases ran

end Threads

section Steps

variable [DecidableEq Cpu] {s s' : Machine Cpu} {c : Cpu} {t : Slot}

theorem advance_inv {answer : Nat} (inv : Inv s) (works : Works s c t) (sound : (s.pc t).sound = true)
    (ran : advance s c t answer = some s') : Inv s' := by
  have lone : ∀ {np stage}, (s.pc t).forking = some (np, stage) → ∀ u other,
      (s.pc u).forking = some (np, other) → u = t := fun forks u other also =>
    (inv.forker t u _ _ other forks also).symm
  unfold advance at ran
  cases at_ : s.pc t with
  | user => rw [at_] at ran; cases ran
  | zombieExit => rw [at_] at ran; cases ran
  | sched next => rw [at_] at sound; cases sound
  | unlock back =>
      rw [at_] at ran sound
      cases ran
      refine inv.drop works (by rw [at_]; rfl) (plain_sound sound) (plain_holding sound t)
        fun np stage forks => ?_
      have same : (s.pc t).forking = some (np, stage) := by rw [at_]; exact forks
      exact ⟨inv.standing t np stage same, lone same⟩
  | slept back =>
      rw [at_] at ran sound
      cases ran
      have same : ∀ np stage, back.forking = some (np, stage) →
          (s.pc t).forking = some (np, stage) := by
        intro np stage forks
        rw [at_]
        exact forks
      have touched : Inv (s.setProc t { s.proc t with chan := none }) := inv.touch t rfl
      refine touched.drop (works.setProc fun _ => works.running)
        (show (s.pc t).holding t = some t by rw [at_]; rfl) (plain_sound sound) (plain_holding sound t)
        fun np stage forks => ?_
      exact ⟨touched.standing t np stage (same np stage forks), lone (same np stage forks)⟩
  | forkret =>
      rw [at_] at ran
      cases ran
      exact inv.drop works (by rw [at_]; rfl) rfl rfl nofun
  | allocproc i =>
      rw [at_] at ran
      exact allocprocStep_inv inv works ran
  | allocpid np =>
      rw [at_] at ran
      cases ran
      have apart : np ≠ t := (inv.standing t np .found (by rw [at_]; rfl)).apart (by rw [works.running]; decide)
      have numbered : Inv ({ s with nextpid := s.nextpid + 1 }.setProc np
          { s.proc np with pid := s.nextpid }) :=
        (inv.stamp s.waitLock (s.nextpid + 1) s.events).touch np rfl
      refine numbered.move (c := c) ?_ rfl (.inr ?_) (.inr ?_)
      · exact Works.setProc (s := { s with nextpid := s.nextpid + 1 }) ⟨works.at_, works.running⟩
          fun wrong => absurd wrong apart
      · change _ = (s.pc t).holding t
        rw [at_]
        rfl
      · change _ = (s.pc t).forking
        rw [at_]
        rfl
  | setUsed np =>
      rw [at_] at ran
      cases ran
      refine inv.rear works (by rw [at_]; rfl) rfl (fun q holds => ?_) (.inr (.inl rfl))
        fun np' stage forks => ?_
      · cases holds
        exact inv.holds works (by rw [at_]; rfl)
      · cases forks
        exact ⟨rfl, by rw [setProc_same], c, works.at_⟩
  | allocTrapframe np =>
      have forks : (s.pc t).forking = some (np, .locked) := by rw [at_]; rfl
      have held : (s.pc t).holding t = some np := by rw [at_]; rfl
      have apart : np ≠ t := (inv.standing t np .locked forks).apart (by rw [works.running]; decide)
      have touched : Inv (s.setProc np { s.proc np with trapframe := answer }) := inv.touch np rfl
      have still : Works (s.setProc np { s.proc np with trapframe := answer }) c t :=
        works.setProc fun wrong => absurd wrong apart
      rw [at_] at ran
      dsimp only at ran
      split at ran
      · cases ran
        exact touched.giveUp still forks held
      · cases ran
        exact touched.move still rfl (.inr held.symm) (.inr forks.symm)
  | allocPagetable np =>
      have forks : (s.pc t).forking = some (np, .locked) := by rw [at_]; rfl
      have held : (s.pc t).holding t = some np := by rw [at_]; rfl
      have apart : np ≠ t := (inv.standing t np .locked forks).apart (by rw [works.running]; decide)
      have touched : Inv (s.setProc np { s.proc np with pagetable := answer }) := inv.touch np rfl
      have still : Works (s.setProc np { s.proc np with pagetable := answer }) c t :=
        works.setProc fun wrong => absurd wrong apart
      rw [at_] at ran
      dsimp only at ran
      split at ran
      · cases ran
        exact touched.giveUp still forks held
      · cases ran
        exact touched.fill still forks held
  | uvmcopy np =>
      have forks : (s.pc t).forking = some (np, .filled) := by rw [at_]; rfl
      have held : (s.pc t).holding t = some np := by rw [at_]; rfl
      have apart : np ≠ t := (inv.standing t np .filled forks).apart (by rw [works.running]; decide)
      rw [at_] at ran
      dsimp only at ran
      split at ran
      · cases ran
        exact inv.giveUp works forks held
      · cases ran
        have touched : Inv (s.setProc np { s.proc np with sz := (s.proc t).sz }) := inv.touch np rfl
        refine touched.drop (works.setProc fun wrong => absurd wrong apart) held rfl rfl
          fun np' stage forks' => ?_
        cases forks'
        obtain ⟨used, ready, -⟩ := touched.standing t np .filled forks
        exact ⟨⟨used, ready⟩, lone forks⟩
  | setParent np pid =>
      have forks : (s.pc t).forking = some (np, .released) := by rw [at_]; rfl
      have apart : np ≠ t := (inv.standing t np .released forks).apart (by rw [works.running]; decide)
      rw [at_] at ran
      dsimp only at ran
      split at ran
      · cases ran
        have touched : Inv (s.setProc np { s.proc np with parent := some t }) := inv.touch np rfl
        exact touched.move (works.setProc fun wrong => absurd wrong apart) rfl (.inl rfl) (.inr forks.symm)
      · cases ran
  | setRunnable np pid =>
      have forks : (s.pc t).forking = some (np, .released) := by rw [at_]; rfl
      rw [at_] at ran
      dsimp only at ran
      split at ran
      · cases ran
        refine inv.rear works forks rfl nofun (.inr (.inr ⟨rfl, ?_⟩)) nofun
        rw [(inv.standing t np .released forks).2]
        rfl
      · cases ran
  | exitLock status =>
      rw [at_] at ran
      dsimp only at ran
      split at ran
      · cases ran
        exact (inv.stamp (some c) s.nextpid s.events).move ⟨works.at_, works.running⟩ rfl (.inl rfl)
          (.inl rfl)
      · cases ran
  | reparent i status =>
      rw [at_] at ran
      dsimp only at ran
      split at ran
      · cases ran
        exact inv.move works rfl (.inl rfl) (.inl rfl)
      · rename_i pp slot
        split at ran
        · cases ran
          have touched : Inv (s.setProc pp { s.proc pp with parent := some initproc }) := inv.touch pp rfl
          refine touched.move (works.setProc fun same => ?_) rfl (.inl rfl) (.inl rfl)
          subst same
          exact works.running
        · cases ran
          exact inv.move works rfl (.inl rfl) (.inl rfl)
  | wakeParent status =>
      rw [at_] at ran
      cases ran
      exact inv.move works rfl (.inl rfl) (.inl rfl)
  | zombieLock status =>
      rw [at_] at ran
      dsimp only at ran
      split at ran
      · rename_i free
        cases ran
        refine (inv.acquire free c).goto ⟨works.at_, works.running⟩ rfl (fun q holds => ?_) nofun
        cases holds
        exact setLock_same ..
      · cases ran
  | setZombie status =>
      rw [at_] at ran
      cases ran
      have left : Inv ((s.setProc t { s.proc t with xstate := status, state := .zombie }).setPc t
          (.sched .zombieExit)) :=
        inv.depart works (inv.holds works (by rw [at_]; rfl)) (.inr ⟨rfl, rfl⟩) nofun
      exact left.stamp none s.nextpid _
  | waitLock addr =>
      rw [at_] at ran
      dsimp only at ran
      split at ran
      · cases ran
        exact (inv.stamp (some c) s.nextpid s.events).move ⟨works.at_, works.running⟩ rfl (.inl rfl)
          (.inl rfl)
      · cases ran
  | waitScan i havekids addr =>
      rw [at_] at ran
      exact waitScanStep_inv inv works ran
  | waitChild pp addr =>
      rw [at_] at ran
      cases ran
      exact waitChildStep_inv _ inv works at_
  | waitKilled addr =>
      rw [at_] at ran
      dsimp only at ran
      split at ran
      · split at ran
        · cases ran
          have moved : Inv (s.setPc t .user) := inv.move works rfl (.inl rfl) (.inl rfl)
          exact moved.stamp none s.nextpid s.events
        · cases ran
          exact inv.move works rfl (.inl rfl) (.inl rfl)
      · cases ran
  | waitSleep addr =>
      rw [at_] at ran
      dsimp only at ran
      split at ran
      · rename_i free
        cases ran
        refine (inv.acquire free c).goto ⟨works.at_, works.running⟩ rfl (fun q holds => ?_) nofun
        cases holds
        exact setLock_same ..
      · cases ran
  | waitFall addr =>
      rw [at_] at ran
      cases ran
      have left : Inv ((s.setProc t { s.proc t with chan := some (.proc t), state := .sleeping }).setPc t
          (.sched (.slept (.waitLock addr)))) :=
        inv.depart works (inv.holds works (by rw [at_]; rfl)) (.inl ⟨.inr rfl, rfl⟩) nofun
      exact left.stamp none s.nextpid s.events
  | kill pid i =>
      rw [at_] at ran
      exact killStep_inv inv works ran
  | wakeup chan i back =>
      rw [at_] at ran sound
      exact wakeupStep_inv inv works at_ sound ran

theorem schedule_inv (inv : Inv s) (ran : schedule s c = some s') : Inv s' := by
  unfold schedule at ran
  cases at_ : s.place c with
  | scan i =>
      have none : s.current c = none := by rw [inv.current, at_]; rfl
      rw [at_] at ran
      dsimp only at ran
      split at ran
      · cases ran
        refine inv.roam (by rw [at_]; simp) rfl none fun q claim => ?_
        unfold Claims at claim
        rw [setPlace_same] at claim
        exact claim.elim
      · split at ran
        · rename_i p slot free
          cases ran
          refine (inv.acquire free c).roam (by change ∀ q, s.place c ≠ _; rw [at_]; simp) rfl none
            fun q claim => ?_
          unfold Claims at claim
          rw [setPlace_same] at claim
          rw [← claim]
          exact setLock_same ..
        · cases ran
  | check p =>
      have none : s.current c = none := by rw [inv.current, at_]; rfl
      rw [at_] at ran
      dsimp only at ran
      split at ran
      · rename_i runnable
        cases ran
        exact inv.dispatch at_ runnable rfl
      · cases ran
        have free : ∀ q, ¬ Claims (s.setPlace c (s.current c) (.scan (p + 1))) c q := by
          intro q claim
          unfold Claims at claim
          rw [setPlace_same] at claim
          exact claim
        have roamed : Inv (s.setPlace c (s.current c) (.scan (p + 1))) :=
          inv.roam (by rw [at_]; simp) rfl none fun q claim => absurd claim (free q)
        exact roamed.release (c := c) (inv.claims c p (by unfold Claims; rw [at_])) (free p)
  | back p =>
      rw [at_] at ran
      cases ran
      have free : ∀ q, ¬ Claims (s.setPlace c none (.scan (p + 1))) c q := by
        intro q claim
        unfold Claims at claim
        rw [setPlace_same] at claim
        exact claim
      have roamed : Inv (s.setPlace c none (.scan (p + 1))) :=
        inv.roam (by rw [at_]; simp) rfl rfl fun q claim => absurd claim (free q)
      exact roamed.release (c := c) (inv.claims c p (by unfold Claims; rw [at_])) (free p)
  | away p =>
      rw [at_] at ran
      cases ran

theorem step_inv {label : Label Cpu} (inv : Inv s) (stepped : step s label = some s') : Inv s' := by
  cases label with
  | schedule c => exact schedule_inv inv stepped
  | call c call =>
      obtain ⟨t, here, ran⟩ := Option.bind_eq_some_iff.mp stepped
      have at_ := inv.mine here
      split at ran
      · rename_i user
        rcases inv.away c t at_ with ⟨running, -⟩ | ⟨next, pc, -⟩
        · exact begin_inv inv ⟨at_, running⟩ ran
        · rw [user] at pc
          cases pc
      · cases ran
  | advance c answer =>
      obtain ⟨t, here, ran⟩ := Option.bind_eq_some_iff.mp stepped
      have at_ := inv.mine here
      rcases inv.away c t at_ with ⟨running, sound⟩ | ⟨next, pc, -⟩
      · exact advance_inv inv ⟨at_, running⟩ sound ran
      · unfold advance swtch at ran
        rw [pc, at_] at ran
        cases ran
        exact inv.swtch at_ pc
  | yield c =>
      obtain ⟨t, here, ran⟩ := Option.bind_eq_some_iff.mp stepped
      have at_ := inv.mine here
      split at ran
      · rename_i goes
        obtain ⟨plain, free⟩ := goes
        cases ran
        rcases inv.away c t at_ with ⟨running, -⟩ | ⟨next, pc, -⟩
        · refine (inv.acquire free c).depart ⟨at_, running⟩ (setLock_same ..) (.inl ⟨.inl rfl, plain⟩)
            fun np stage forks => ⟨forks, forking_plain plain forks⟩
        · rw [pc] at plain
          cases plain
      · cases ran
  | interrupt chan p =>
      rw [step] at stepped
      split at stepped
      · cases stepped
        exact inv.wake (some chan) p
      · cases stepped

/-- CPU `c` is in `wait` and about to call `freeproc` on the child it has locked. -/
def Frees (s : Machine Cpu) (c : Cpu) (pp : Slot) : Prop :=
  ∃ t addr, s.myproc c = some t ∧ s.pc t = .waitChild pp addr ∧ (s.proc pp).state = .zombie

/-- A process runs on one CPU at most, is RUNNING exactly there, and is on no CPU when `wait`
frees it. -/
theorem one_cpu_each (trapframe pagetable : Nat) {labels : List (Label Cpu)}
    (ran : run step (booted trapframe pagetable) labels = some s) :
    (∀ c d p, s.current c = some p → s.current d = some p → c = d) ∧
    (∀ p, s.lock p = none → ((s.proc p).state = .running ↔ ∃ c, s.current c = some p)) ∧
    ∀ c pp, Frees s c pp → ∀ d, s.current d ≠ some pp := by
  have inv : Inv s := run_invariant step (fun _ s => Inv s) (booted_inv trapframe pagetable)
    (fun _ _ _ _ _ held stepped => step_inv held stepped) ran
  refine ⟨fun c d p left right => ?_, fun p free => ⟨fun is => ?_, ?_⟩, ?_⟩
  · rw [inv.current] at left right
    exact inv.alone c d p left right
  · obtain ⟨c, at_⟩ := inv.running p is
    exact ⟨c, by rw [inv.current, at_]; rfl⟩
  · rintro ⟨c, has⟩
    rw [inv.current] at has
    have unclaimed : ¬ Claims s c p := by
      intro claim
      rw [inv.claims c p claim] at free
      cases free
    cases place : s.place c with
    | away q =>
        rw [place] at has
        cases has
        rcases inv.away c p place with ⟨is, -⟩ | ⟨next, pc, -⟩
        · exact is
        · exact absurd ((claims_away place).mpr (by rw [pc]; rfl)) unclaimed
    | back q =>
        rw [place] at has
        cases has
        exact absurd (by unfold Claims; rw [place]) unclaimed
    | _ =>
        rw [place] at has
        cases has
  · rintro c pp ⟨t, addr, here, pc, zombie⟩ d has
    have at_ := inv.mine here
    rw [inv.current] at has
    rcases inv.away c t at_ with ⟨running, -⟩ | ⟨next, wrong, -⟩
    · exact inv.zombie_idle ⟨at_, running⟩ (inv.claims c pp ((claims_away at_).mpr (by rw [pc]; rfl)))
        zombie d has
    · rw [pc] at wrong
      cases wrong

/-- CPU 0 runs the first process, which forks; CPU 1 picks the child up. -/
def twoRunning : List (Label (Fin 2)) :=
  [.schedule 0, .schedule 0, .advance 0 0, .call 0 .fork, .advance 0 0, .advance 0 0, .advance 0 0,
    .advance 0 0, .advance 0 7, .advance 0 8, .advance 0 1, .advance 0 0, .advance 0 0, .schedule 1,
    .schedule 1, .schedule 1, .schedule 1]

theorem twoRunning_apart : ∃ s : Machine (Fin 2),
    run step (booted 2 3) twoRunning = some s ∧
    s.current 0 = some initproc ∧ s.current 1 = some ProcTable.secondProc ∧
    ∀ c d p, s.current c = some p → s.current d = some p → c = d := by
  have runs : ((run step (booted 2 3) twoRunning).any fun s : Machine (Fin 2) =>
      decide (s.current 0 = some initproc ∧ s.current 1 = some ProcTable.secondProc)) = true := by
    decide +kernel
  obtain ⟨s, ran, checks⟩ := (Option.any_eq_true _ _).mp runs
  obtain ⟨first, second⟩ := of_decide_eq_true checks
  exact ⟨s, ran, first, second, (one_cpu_each 2 3 ran).1⟩

end Steps

end PaddleOs.Scheduler
