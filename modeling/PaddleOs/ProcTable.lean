import PaddleOs.Params
import PaddleOs.Foundation.Runs
import Mathlib.Logic.Function.Basic

/-!
The process table of `proc.c` under interleaving. Every slot has a kernel
thread with a program counter; a thread moves only while its slot is RUNNING,
and one step is one stretch of code between two points where another hart may
intervene. A slot lock or `wait_lock` that stays held across steps is in the
state. What `kalloc`, `uvmcopy` and `copyout` return is chosen by the label.

The file table, the name, the saved context and the contents of the trapframe
are not modelled: nothing here reads them. `int` fields wrap at 32 bits.
-/

namespace PaddleOs.ProcTable

open Foundation.Runs

abbrev Slot := Fin NPROC

inductive ProcState where
  | unused
  | used
  | sleeping
  | runnable
  | running
  | zombie
  deriving DecidableEq, Repr

/-- What a process sleeps on: a process structure or another kernel address. -/
inductive Chan where
  | proc (p : Slot)
  | address (a : Nat)
  deriving DecidableEq, Repr

structure Proc where
  state : ProcState
  chan : Option Chan
  killed : Int32
  xstate : Int32
  pid : Int32
  parent : Option Slot
  sz : Nat
  pagetable : Nat
  trapframe : Nat
  deriving DecidableEq, Repr

/-- Where a kernel thread stands. The names are those of the functions and of
what the thread is about to do in them. -/
inductive Pc where
  | user
  | allocproc (i : Nat)
  | allocpid (np : Slot)
  | setUsed (np : Slot)
  | allocTrapframe (np : Slot)
  | allocPagetable (np : Slot)
  | uvmcopy (np : Slot)
  | setParent (np : Slot) (pid : Int32)
  | setRunnable (np : Slot) (pid : Int32)
  | exitLock (status : Int32)
  | reparent (i : Nat) (status : Int32)
  | wakeParent (status : Int32)
  | setZombie (status : Int32)
  | exited
  | waitLock (addr : Nat)
  | waitScan (i : Nat) (havekids : Bool) (addr : Nat)
  | kill (pid : Int32) (i : Nat)
  | wakeup (chan : Option Chan) (i : Nat) (back : Pc)
  | asleep (back : Pc)
  deriving Repr

/-- What happened, for properties that speak about the past. -/
inductive Event where
  | assigned (np : Slot) (pid : Int32)
  | marked (pid : Int32) (p : Slot) (state : ProcState)
  | started (np : Slot) (pid : Int32) (killed : Int32)
  deriving DecidableEq, Repr

structure Table where
  proc : Slot → Proc
  lock : Slot → Option Slot
  waitLock : Option Slot
  nextpid : Int32
  pc : Slot → Pc
  events : List Event

inductive Call where
  | fork
  | exit (status : Int32)
  | wait (addr : Nat)
  | kill (pid : Int32)
  | setkilled
  | sleep (chan : Chan)
  deriving DecidableEq, Repr

/-- `advance t answer` runs the next stretch of thread `t`; `answer` is what the
allocator or a user copy in that stretch returns, 0 for failure. -/
inductive Label where
  | call (t : Slot) (c : Call)
  | advance (t : Slot) (answer : Nat)
  | yield (t : Slot)
  | schedule (p : Slot)
  | interrupt (chan : Chan) (p : Slot)
  deriving DecidableEq, Repr

def Table.setProc (s : Table) (p : Slot) (next : Proc) : Table :=
  { s with proc := Function.update s.proc p next }

def Table.setLock (s : Table) (p : Slot) (holder : Option Slot) : Table :=
  { s with lock := Function.update s.lock p holder }

def Table.setPc (s : Table) (t : Slot) (pc : Pc) : Table :=
  { s with pc := Function.update s.pc t pc }

def Table.log (s : Table) (event : Event) : Table := { s with events := event :: s.events }

/-- The slot `i` of the table, when the scan has not passed the last one. -/
def slotAt (i : Nat) : Option Slot := if h : i < NPROC then some ⟨i, h⟩ else none

def initproc : Slot := ⟨0, nproc_pos⟩

/-- The record `freeproc` leaves; the two pages it gives back are not tracked here. -/
def freeproc (p : Proc) : Proc :=
  { p with trapframe := 0, pagetable := 0, sz := 0, pid := 0, parent := none, chan := none
           killed := 0, xstate := 0, state := .unused }

/-- The locked stretch of `wakeup` on one slot. -/
def wake (chan : Option Chan) (p : Proc) : Proc :=
  if p.state = .sleeping ∧ p.chan = chan then { p with state := .runnable } else p

/-- The locked stretch of `kill` on a slot whose pid matched. -/
def mark (p : Proc) : Proc :=
  { p with killed := 1, state := if p.state = .sleeping then .runnable else p.state }

/-- A failed `allocproc` or `uvmcopy`: `freeproc(np)`, release, return -1. -/
def Table.giveUp (s : Table) (t np : Slot) : Table :=
  ((s.setProc np (freeproc (s.proc np))).setLock np none).setPc t .user

/-- `sleep(chan, lk)` up to `sched`. -/
def Table.sleep (s : Table) (t : Slot) (chan : Chan) (back : Pc) : Table :=
  (s.setProc t { s.proc t with chan := some chan, state := .sleeping }).setPc t (.asleep back)

/-- Whether the thread holds a spinlock there, so that it is not preempted. -/
def Pc.locked : Pc → Bool
  | .allocpid _ | .setUsed _ | .allocTrapframe _ | .allocPagetable _ | .uvmcopy _ => true
  | .reparent _ _ | .wakeParent _ | .setZombie _ | .waitScan _ _ _ | .exited => true
  | .wakeup _ _ back => back.locked
  | _ => false

/-- Entering a system call, or the trap handler's `setkilled(p)` and the
kernel's other sleeps, which begin and end outside the functions modelled. -/
def begin (s : Table) (t : Slot) : Call → Option Table
  | .fork => some (s.setPc t (.allocproc 0))
  | .exit status => if t = initproc then none else some (s.setPc t (.exitLock status))
  | .wait addr => some (s.setPc t (.waitLock addr))
  | .kill pid => some (s.setPc t (.kill pid 0))
  | .setkilled =>
      if s.lock t = none then some (s.setProc t { s.proc t with killed := 1 }) else none
  | .sleep chan => if s.lock t = none then some (s.sleep t chan .user) else none

/-- One stretch of `wakeup(chan)` called by thread `t`, which skips its own slot. -/
def wakeupStep (s : Table) (t : Slot) (chan : Option Chan) (i : Nat) (back : Pc) :
    Option Table :=
  match slotAt i with
  | none => some (s.setPc t back)
  | some p =>
      if p = t then some (s.setPc t (.wakeup chan (i + 1) back))
      else if s.lock p = none then
        some ((s.setProc p (wake chan (s.proc p))).setPc t (.wakeup chan (i + 1) back))
      else none

/-- One turn of the scan in `wait`; `copied` is the result of `copyout`. -/
def waitStep (s : Table) (t : Slot) (i : Nat) (havekids : Bool) (addr : Nat) (copied : Bool) :
    Option Table :=
  match slotAt i with
  | none =>
      if s.lock t = none then
        if havekids = false ∨ (s.proc t).killed ≠ 0 then
          some ({ s with waitLock := none }.setPc t .user)
        else some ({ s with waitLock := none }.sleep t (.proc t) (.waitLock addr))
      else none
  | some pp =>
      if (s.proc pp).parent = some t then
        if s.lock pp = none then
          if (s.proc pp).state = .zombie then
            if addr ≠ 0 ∧ copied = false then some ({ s with waitLock := none }.setPc t .user)
            else
              some (({ s with waitLock := none }.setProc pp (freeproc (s.proc pp))).setPc t .user)
          else some (s.setPc t (.waitScan (i + 1) true addr))
        else none
      else some (s.setPc t (.waitScan (i + 1) havekids addr))

/-- One turn of the scan in `kill`. -/
def killStep (s : Table) (t : Slot) (pid : Int32) (i : Nat) : Option Table :=
  match slotAt i with
  | none => some (s.setPc t .user)
  | some p =>
      if s.lock p = none then
        if (s.proc p).pid = pid then
          some (((s.setProc p (mark (s.proc p))).setPc t .user).log
            (.marked pid p (s.proc p).state))
        else some (s.setPc t (.kill pid (i + 1)))
      else none

def advance (s : Table) (t : Slot) (answer : Nat) : Option Table :=
  match s.pc t with
  | .user | .exited | .asleep _ => none
  | .allocproc i =>
      match slotAt i with
      | none => some (s.setPc t .user)
      | some p =>
          if s.lock p = none then
            if (s.proc p).state = .unused then
              some ((s.setLock p (some t)).setPc t (.allocpid p))
            else some (s.setPc t (.allocproc (i + 1)))
          else none
  | .allocpid np =>
      some (({ s with nextpid := s.nextpid + 1 }.setProc np
        { s.proc np with pid := s.nextpid }).setPc t (.setUsed np) |>.log
          (.assigned np s.nextpid))
  | .setUsed np =>
      some ((s.setProc np { s.proc np with state := .used }).setPc t (.allocTrapframe np))
  | .allocTrapframe np =>
      let next := s.setProc np { s.proc np with trapframe := answer }
      if answer = 0 then some (next.giveUp t np) else some (next.setPc t (.allocPagetable np))
  | .allocPagetable np =>
      let next := s.setProc np { s.proc np with pagetable := answer }
      if answer = 0 then some (next.giveUp t np) else some (next.setPc t (.uvmcopy np))
  | .uvmcopy np =>
      if answer = 0 then some (s.giveUp t np)
      else
        some (((s.setProc np { s.proc np with sz := (s.proc t).sz }).setLock np none).setPc t
          (.setParent np (s.proc np).pid))
  | .setParent np pid =>
      if s.waitLock = none then
        some ((s.setProc np { s.proc np with parent := some t }).setPc t (.setRunnable np pid))
      else none
  | .setRunnable np pid =>
      if s.lock np = none then
        some ((((s.setProc np { s.proc np with state := .runnable }).setPc np .user).setPc t
          .user).log (.started np pid (s.proc np).killed))
      else none
  | .exitLock status =>
      if s.waitLock = none then
        some ({ s with waitLock := some t }.setPc t (.reparent 0 status))
      else none
  | .reparent i status =>
      match slotAt i with
      | none => some (s.setPc t (.wakeParent status))
      | some pp =>
          if (s.proc pp).parent = some t then
            some ((s.setProc pp { s.proc pp with parent := some initproc }).setPc t
              (.wakeup (some (.proc initproc)) 0 (.reparent (i + 1) status)))
          else some (s.setPc t (.reparent (i + 1) status))
  | .wakeParent status =>
      some (s.setPc t (.wakeup ((s.proc t).parent.map .proc) 0 (.setZombie status)))
  | .setZombie status =>
      if s.lock t = none then
        some (({ s with waitLock := none }.setProc t
          { s.proc t with xstate := status, state := .zombie }).setPc t .exited)
      else none
  | .waitLock addr =>
      if s.waitLock = none then
        some ({ s with waitLock := some t }.setPc t (.waitScan 0 false addr))
      else none
  | .waitScan i havekids addr => waitStep s t i havekids addr (decide (answer ≠ 0))
  | .kill pid i => killStep s t pid i
  | .wakeup chan i back => wakeupStep s t chan i back

def step (s : Table) : Label → Option Table
  | .call t c =>
      if (s.proc t).state = .running then
        match s.pc t with
        | .user => begin s t c
        | _ => none
      else none
  | .advance t answer => if (s.proc t).state = .running then advance s t answer else none
  | .yield t =>
      if (s.proc t).state = .running ∧ s.lock t = none ∧ (s.pc t).locked = false then
        some (s.setProc t { s.proc t with state := .runnable })
      else none
  | .schedule p =>
      if (s.proc p).state = .runnable ∧ s.lock p = none then
        match s.pc p with
        | .asleep back =>
            some ((s.setProc p { s.proc p with state := .running, chan := none }).setPc p back)
        | _ => some (s.setProc p { s.proc p with state := .running })
      else none
  | .interrupt chan p =>
      if s.lock p = none then some (s.setProc p (wake (some chan) (s.proc p))) else none

def unusedProc : Proc where
  state := .unused
  chan := none
  killed := 0
  xstate := 0
  pid := 0
  parent := none
  sz := 0
  pagetable := 0
  trapframe := 0

/-- The first process as `userinit` leaves it; its two pages are any that `kalloc` gave. -/
def initcode (trapframe pagetable : Nat) : Proc :=
  { unusedProc with state := .runnable, pid := 1, sz := 4096, trapframe, pagetable }

/-- The table after `procinit` and `userinit`. -/
def booted (trapframe pagetable : Nat) : Table where
  proc p := if p = initproc then initcode trapframe pagetable else unusedProc
  lock _ := none
  waitLock := none
  nextpid := 2
  pc _ := .user
  events := []

/-- How far a `fork` has come with the slot it allocates. -/
inductive Stage where
  | found
  | numbered
  | locked
  | released (pid : Int32)

/-- The slot a thread is forking into. -/
def forking : Pc → Option (Slot × Stage)
  | .allocpid np => some (np, .found)
  | .setUsed np => some (np, .numbered)
  | .allocTrapframe np | .allocPagetable np | .uvmcopy np => some (np, .locked)
  | .setParent np pid | .setRunnable np pid => some (np, .released pid)
  | .wakeup _ _ back | .asleep back => forking back
  | _ => none

/-- The last time `np` got the pid `pid`, and that a kill of `pid` marked the
slot since then whenever `killed` is set. -/
def Since (events : List Event) (np : Slot) (pid killed : Int32) : Prop :=
  ∃ later earlier, events = later ++ Event.assigned np pid :: earlier ∧
    (killed = 0 ∨ ∃ state, .marked pid np state ∈ later)

/-- What the thread that forks into `np` may rely on. -/
def Standing (s : Table) (t np : Slot) : Stage → Prop
  | .found => s.lock np = some t ∧ (s.proc np).state = .unused
  | .numbered => s.lock np = some t ∧ (s.proc np).state = .unused ∧
      Since s.events np (s.proc np).pid (s.proc np).killed
  | .locked => s.lock np = some t ∧ (s.proc np).state = .used ∧
      Since s.events np (s.proc np).pid (s.proc np).killed
  | .released pid => (s.proc np).state = .used ∧ (s.proc np).pid = pid ∧
      Since s.events np pid (s.proc np).killed

/-- The record of a slot nobody uses, its pid apart. -/
def Scrubbed (p : Proc) : Prop := p = { unusedProc with pid := p.pid }

structure Invariant (s : Table) : Prop where
  scrubbed : ∀ p, (s.proc p).state = .unused → Scrubbed (s.proc p)
  unnumbered : ∀ p, (s.proc p).state = .unused → s.lock p = none → (s.proc p).pid = 0
  standing : ∀ t np stage, forking (s.pc t) = some (np, stage) → Standing s t np stage
  alone : ∀ t u np stage other, forking (s.pc t) = some (np, stage) →
    forking (s.pc u) = some (np, other) → t = u
  marks : ∀ pid p state, .marked pid p state ∈ s.events → state ≠ .unused
  starts : ∀ later earlier np pid killed,
    s.events = later ++ Event.started np pid killed :: earlier → Since earlier np pid killed

def live (state : ProcState) : Prop := state ≠ .unused ∧ state ≠ .used

instance : DecidablePred live := fun state =>
  inferInstanceAs (Decidable (state ≠ .unused ∧ state ≠ .used))

/-- A change of one slot that neither takes it nor gives it back. -/
def Kept (old new : Proc) : Prop :=
  new = old ∨ (live old.state ∧ live new.state) ∨
    (old.state = .used ∧ new.state = .used ∧ new.pid = old.pid ∧ new.killed = old.killed)

theorem Kept.unused {old new : Proc} (kept : Kept old new) (free : new.state = .unused) :
    new = old := by
  rcases kept with same | ⟨_, fresh⟩ | ⟨_, used, _⟩
  · exact same
  · exact absurd free fresh.1
  · rw [free] at used
    cases used

theorem Kept.taken {old new : Proc} (kept : Kept old new) (state : ¬ live old.state) :
    new.state = old.state ∧ new.pid = old.pid ∧ new.killed = old.killed := by
  rcases kept with rfl | ⟨dead, _⟩ | ⟨before, after, pid, killed⟩
  · exact ⟨rfl, rfl, rfl⟩
  · exact absurd dead state
  · exact ⟨after.trans before.symm, pid, killed⟩

theorem Standing.notLive {s : Table} {t np : Slot} {stage : Stage}
    (standing : Standing s t np stage) : ¬ live (s.proc np).state := by
  cases stage with
  | found => exact fun alive => alive.1 standing.2
  | numbered => exact fun alive => alive.1 standing.2.1
  | locked => exact fun alive => alive.2 standing.2.1
  | released pid => exact fun alive => alive.2 standing.1

theorem Since.later {past events : List Event} {np : Slot} {pid killed : Int32}
    (since : Since past np pid killed) (extends' : past <:+ events) :
    Since events np pid killed := by
  obtain ⟨recent, rfl⟩ := extends'
  obtain ⟨later, earlier, rfl, explained⟩ := since
  refine ⟨recent ++ later, earlier, (List.append_assoc ..).symm, ?_⟩
  rcases explained with zero | ⟨state, member⟩
  · exact Or.inl zero
  · exact Or.inr ⟨state, List.mem_append_right _ member⟩

/-- A forking thread's claim depends on its slot, the slot's lock and the past only. -/
theorem Standing.frame {s next : Table} {t np : Slot} {stage : Stage}
    (standing : Standing s t np stage) (lock : next.lock np = s.lock np)
    (kept : Kept (s.proc np) (next.proc np)) (events : s.events <:+ next.events) :
    Standing next t np stage := by
  obtain ⟨state, pid, killed⟩ := kept.taken standing.notLive
  cases stage with
  | found => simpa only [Standing, lock, state] using standing
  | numbered =>
      obtain ⟨holds, free, since⟩ := standing
      exact ⟨lock.trans holds, state.trans free, by rw [pid, killed]; exact since.later events⟩
  | locked =>
      obtain ⟨holds, used, since⟩ := standing
      exact ⟨lock.trans holds, state.trans used, by rw [pid, killed]; exact since.later events⟩
  | released given =>
      obtain ⟨used, same, since⟩ := standing
      exact ⟨state.trans used, pid.trans same, by rw [killed]; exact since.later events⟩

/-- Steps that change no lock, log nothing, move no fork along and keep every slot. -/
theorem Invariant.frame {s next : Table} (held : Invariant s) (lock : next.lock = s.lock)
    (events : next.events = s.events) (forks : ∀ t, forking (next.pc t) = forking (s.pc t))
    (kept : ∀ p, Kept (s.proc p) (next.proc p)) : Invariant next where
  scrubbed p free := by
    have same := (kept p).unused free
    rw [same] at free ⊢
    exact held.scrubbed p free
  unnumbered p free unlocked := by
    have same := (kept p).unused free
    rw [same] at free ⊢
    exact held.unnumbered p free (lock ▸ unlocked)
  standing t np stage at' := by
    rw [forks] at at'
    exact (held.standing t np stage at').frame (congrFun lock np) (kept np)
      (events ▸ List.suffix_rfl)
  alone t u np stage other first second := by
    rw [forks] at first second
    exact held.alone t u np stage other first second
  marks := by
    rw [events]
    exact held.marks
  starts := by
    rw [events]
    exact held.starts

theorem booted_invariant (trapframe pagetable : Nat) : Invariant (booted trapframe pagetable) where
  scrubbed p free := by
    simp only [booted] at free ⊢
    split at free
    · cases free
    · rename_i other
      rw [if_neg other]
      rfl
  unnumbered p free _ := by
    simp only [booted] at free ⊢
    split at free
    · cases free
    · rename_i other
      rw [if_neg other]
      rfl
  standing t np stage at' := by cases at'
  alone t u np stage other first _ := by cases first
  marks pid p state member := by cases member
  starts later earlier np pid killed split := by simp [booted] at split

section Steps

variable {s : Table}

theorem Invariant.move (held : Invariant s) (t : Slot) {pc : Pc}
    (same : forking pc = forking (s.pc t)) : Invariant (s.setPc t pc) := by
  refine held.frame rfl rfl ?_ (fun p => Or.inl rfl)
  intro u
  by_cases self : u = t
  · subst self
    exact (congrArg forking (Function.update_self ..)).trans same
  · exact congrArg forking (Function.update_of_ne self ..)

theorem Invariant.touch (held : Invariant s) (p : Slot) {new : Proc}
    (kept : Kept (s.proc p) new) : Invariant (s.setProc p new) := by
  refine held.frame rfl rfl (fun t => rfl) ?_
  intro q
  by_cases self : q = p
  · subst self
    simpa [Table.setProc] using kept
  · exact Or.inl (Function.update_of_ne self ..)

theorem Invariant.withWaitLock (held : Invariant s) (holder : Option Slot) :
    Invariant { s with waitLock := holder } :=
  held.frame rfl rfl (fun _ => rfl) (fun _ => Or.inl rfl)

theorem wake_kept (chan : Option Chan) (p : Proc) : Kept p (wake chan p) := by
  unfold wake
  split
  · rename_i asleep
    right
    left
    rw [asleep.1]
    exact ⟨by decide, (by decide : live .runnable)⟩
  · exact Or.inl rfl

/-- A thread that runs may change its own slot, except by giving it back. -/
theorem running_kept {old new : Proc} (running : old.state = .running) (alive : live new.state) :
    Kept old new :=
  Or.inr (Or.inl ⟨by rw [running]; decide, alive⟩)

theorem Invariant.sleep (held : Invariant s) {t : Slot} (running : (s.proc t).state = .running)
    (chan : Chan) {back : Pc} (same : forking back = forking (s.pc t)) :
    Invariant (s.sleep t chan back) :=
  (held.touch t (running_kept running (by decide : live .sleeping))).move t same

/-- Nobody forks into a slot that is unused and unlocked, or in use. -/
theorem Invariant.unforked (held : Invariant s) {p t : Slot} {stage : Stage}
    (forks : forking (s.pc t) = some (p, stage)) :
    (s.proc p).state = .used ∨ ((s.proc p).state = .unused ∧ s.lock p = some t) := by
  have standing := held.standing t p stage forks
  cases stage with
  | found => exact Or.inr ⟨standing.2, standing.1⟩
  | numbered => exact Or.inr ⟨standing.2.1, standing.1⟩
  | locked => exact Or.inl standing.2.1
  | released pid => exact Or.inl standing.1

/-- A step of the thread `t` that concerns the slot `np` only, which no other
thread is forking into. -/
theorem Invariant.owned (held : Invariant s) {next : Table} {t np : Slot}
    (only : ∀ u stage, forking (s.pc u) = some (np, stage) → u = t)
    (procs : ∀ p, p ≠ np → next.proc p = s.proc p)
    (locks : ∀ p, p ≠ np → next.lock p = s.lock p)
    (forks : ∀ u, u ≠ t → forking (next.pc u) = forking (s.pc u) ∨ forking (next.pc u) = none)
    (now : ∀ p stage, forking (next.pc t) = some (p, stage) → p = np ∧ Standing next t np stage)
    (scrubbed : (next.proc np).state = .unused →
      Scrubbed (next.proc np) ∧ (next.lock np = none → (next.proc np).pid = 0))
    (events : s.events <:+ next.events)
    (marks : ∀ pid p state, .marked pid p state ∈ next.events → state ≠ .unused)
    (starts : ∀ later earlier np pid killed,
      next.events = later ++ Event.started np pid killed :: earlier → Since earlier np pid killed) :
    Invariant next where
  scrubbed p free := by
    by_cases self : p = np
    · subst self
      exact (scrubbed free).1
    · rw [procs p self] at free ⊢
      exact held.scrubbed p free
  unnumbered p free unlocked := by
    by_cases self : p = np
    · subst self
      exact (scrubbed free).2 unlocked
    · rw [procs p self] at free ⊢
      exact held.unnumbered p free ((locks p self).symm.trans unlocked)
  standing u p stage at' := by
    by_cases self : u = t
    · subst self
      obtain ⟨rfl, standing⟩ := now p stage at'
      exact standing
    · have before : forking (s.pc u) = some (p, stage) := by
        rcases forks u self with same | gone
        · exact same.symm.trans at'
        · rw [gone] at at'
          cases at'
      have other : p ≠ np := by
        rintro rfl
        exact self (only u stage before)
      exact (held.standing u p stage before).frame (locks p other) (Or.inl (procs p other)) events
  alone u v p stage other first second := by
    have kept : ∀ w state, forking (next.pc w) = some (p, state) → w ≠ t →
        p ≠ np ∧ forking (s.pc w) = some (p, state) := by
      intro w state at' apart
      have before : forking (s.pc w) = some (p, state) := by
        rcases forks w apart with same | gone
        · exact same.symm.trans at'
        · rw [gone] at at'
          cases at'
      refine ⟨?_, before⟩
      rintro rfl
      exact apart (only w state before)
    by_cases selfU : u = t
    · by_cases selfV : v = t
      · exact selfU.trans selfV.symm
      · subst selfU
        exact absurd (now p stage first).1 (kept v other second selfV).1
    · by_cases selfV : v = t
      · subst selfV
        exact absurd (now p other second).1 (kept u stage first selfU).1
      · exact held.alone u v p stage other (kept u stage first selfU).2 (kept v other second selfV).2
  marks := marks
  starts := starts

theorem starts_cons {past : List Event} {event : Event}
    (starts : ∀ later earlier np pid killed,
      past = later ++ Event.started np pid killed :: earlier → Since earlier np pid killed)
    (now : ∀ np pid killed, event = .started np pid killed → Since past np pid killed) :
    ∀ later earlier np pid killed,
      event :: past = later ++ Event.started np pid killed :: earlier → Since earlier np pid killed := by
  intro later earlier np pid killed split
  cases later with
  | nil =>
      obtain ⟨same, rfl⟩ := List.cons.inj split
      exact now np pid killed same
  | cons first rest =>
      obtain ⟨_, same⟩ := List.cons.inj split
      exact starts rest earlier np pid killed same

theorem marks_cons {past : List Event} {event : Event}
    (marks : ∀ pid p state, .marked pid p state ∈ past → state ≠ .unused)
    (now : ∀ pid p state, event = .marked pid p state → state ≠ .unused) :
    ∀ pid p state, .marked pid p state ∈ event :: past → state ≠ .unused := by
  intro pid p state member
  rcases List.mem_cons.mp member with same | earlier
  · exact now pid p state same.symm
  · exact marks pid p state earlier

theorem forks_setPc {t : Slot} {pc : Pc} (u : Slot) (apart : u ≠ t) :
    forking ((s.setPc t pc).pc u) = forking (s.pc u) :=
  congrArg forking (Function.update_of_ne apart ..)

/-- `freeproc` on a slot nobody is forking into, or by the thread that forks into it. -/
theorem Invariant.freed (held : Invariant s) {t p : Slot}
    (only : ∀ u stage, forking (s.pc u) = some (p, stage) → u = t) :
    Invariant (s.giveUp t p) := by
  refine held.owned only ?_ ?_ ?_ ?_ ?_ List.suffix_rfl held.marks held.starts
  · intro q apart
    exact Function.update_of_ne apart ..
  · intro q apart
    exact Function.update_of_ne apart ..
  · intro u apart
    exact Or.inl (forks_setPc u apart)
  · intro q stage at'
    simp [Table.giveUp, Table.setPc, forking] at at'
  · intro _
    simp [Table.giveUp, Table.setPc, Table.setLock, Table.setProc, Scrubbed, freeproc, unusedProc]

theorem mark_unused (p : Proc) (free : (mark p).state = .unused) : p.state = .unused := by
  simp only [mark] at free
  split at free
  · cases free
  · exact free

theorem mark_used (p : Proc) (used : p.state = .used) : (mark p).state = .used := by
  simp [mark, used]

/-- `kill` found its pid on a slot that is in use. -/
theorem Invariant.marked (held : Invariant s) {t p : Slot} (idle : forking (s.pc t) = none)
    (unlocked : s.lock p = none) (taken : (s.proc p).state ≠ .unused) :
    Invariant (((s.setProc p (mark (s.proc p))).setPc t .user).log
      (.marked (s.proc p).pid p (s.proc p).state)) := by
  have moved : Invariant (s.setPc t .user) := held.move t idle.symm
  have self : Function.update s.proc p (mark (s.proc p)) p = mark (s.proc p) :=
    Function.update_self ..
  have others : ∀ q, q ≠ p → Function.update s.proc p (mark (s.proc p)) q = s.proc q :=
    fun q apart => Function.update_of_ne apart ..
  have inUse : ∀ q, (Function.update s.proc p (mark (s.proc p)) q).state = .unused → q ≠ p := by
    rintro q free rfl
    rw [self] at free
    exact taken (mark_unused _ free)
  refine ⟨?_, ?_, ?_, moved.alone, ?_, ?_⟩
  · intro q free
    have apart := inUse q free
    change (Function.update s.proc p (mark (s.proc p)) q).state = _ at free
    change Scrubbed (Function.update s.proc p (mark (s.proc p)) q)
    rw [others q apart] at free ⊢
    exact held.scrubbed q free
  · intro q free
    have apart := inUse q free
    change (Function.update s.proc p (mark (s.proc p)) q).state = _ at free
    change _ → (Function.update s.proc p (mark (s.proc p)) q).pid = 0
    rw [others q apart] at free ⊢
    exact held.unnumbered q free
  · intro u np stage at'
    have standing := moved.standing u np stage at'
    by_cases same : np = p
    · subst same
      -- the forking thread has released the slot, and the mark carries the slot's own pid
      cases stage with
      | found => exact absurd (unlocked.symm.trans standing.1) nofun
      | numbered => exact absurd (unlocked.symm.trans standing.1) nofun
      | locked => exact absurd (unlocked.symm.trans standing.1) nofun
      | released pid =>
          obtain ⟨used, given, later, earlier, split, _⟩ := standing
          change (s.proc np).state = .used at used
          change (s.proc np).pid = pid at given
          refine ⟨(congrArg Proc.state self).trans (mark_used _ used),
            (congrArg Proc.pid self).trans given, .marked pid np (s.proc np).state :: later,
            earlier, ?_, Or.inr ⟨_, List.mem_cons_self⟩⟩
          change _ :: s.events = _
          rw [given, List.cons_append]
          exact congrArg _ split
    · exact standing.frame rfl (Or.inl (others np same)) (List.suffix_cons ..)
  · exact marks_cons held.marks (by rintro _ _ _ ⟨⟩; exact taken)
  · exact starts_cons held.starts (by rintro _ _ _ ⟨⟩)

end Steps

/-- The next turn of `kill`'s scan does not look for pid 0 in an unused slot. -/
def killSpares (s : Table) : Label → Bool
  | .advance t _ =>
      match s.pc t with
      | .kill pid i =>
          match slotAt i with
          | some p => decide ((s.proc p).state ≠ .unused ∨ pid ≠ 0)
          | none => true
      | _ => true
  | _ => true

section Preserved

variable {s next : Table} {t : Slot}

theorem begin_invariant (held : Invariant s) (running : (s.proc t).state = .running)
    (at' : s.pc t = .user) {c : Call} (began : begin s t c = some next) : Invariant next := by
  have idle : forking (s.pc t) = none := by rw [at']; rfl
  cases c with
  | fork =>
      cases began
      exact held.move t idle.symm
  | exit status =>
      simp only [begin] at began
      split at began
      · cases began
      · cases began
        exact held.move t idle.symm
  | wait addr =>
      cases began
      exact held.move t idle.symm
  | kill pid =>
      cases began
      exact held.move t idle.symm
  | setkilled =>
      simp only [begin] at began
      split at began
      · cases began
        refine held.touch t (running_kept running ?_)
        rw [running]
        decide
      · cases began
  | sleep chan =>
      simp only [begin] at began
      split at began
      · cases began
        exact held.sleep running chan idle.symm
      · cases began

theorem wakeupStep_invariant (held : Invariant s) {chan : Option Chan} {i : Nat} {back : Pc}
    (at' : s.pc t = .wakeup chan i back) (stepped : wakeupStep s t chan i back = some next) :
    Invariant next := by
  have same : forking back = forking (s.pc t) := by rw [at']; rfl
  simp only [wakeupStep] at stepped
  split at stepped
  · cases stepped
    exact held.move t same
  · split at stepped
    · cases stepped
      exact held.move t same
    · split at stepped
      · cases stepped
        exact (held.touch _ (wake_kept chan _)).move t same
      · cases stepped

/-- A zombie's slot is nobody's fork. -/
theorem Invariant.zombie (held : Invariant s) {p : Slot} (zombie : (s.proc p).state = .zombie)
    (u : Slot) (stage : Stage) (forks : forking (s.pc u) = some (p, stage)) : u = t := by
  rcases held.unforked forks with used | ⟨free, _⟩
  · rw [zombie] at used
    cases used
  · rw [zombie] at free
    cases free

theorem waitStep_invariant (held : Invariant s) (running : (s.proc t).state = .running)
    {i : Nat} {havekids : Bool} {addr : Nat} {copied : Bool}
    (at' : s.pc t = .waitScan i havekids addr)
    (stepped : waitStep s t i havekids addr copied = some next) : Invariant next := by
  have idle : forking (s.pc t) = none := by rw [at']; rfl
  simp only [waitStep] at stepped
  split at stepped
  · split at stepped
    · split at stepped
      · cases stepped
        exact (held.withWaitLock none).move t idle.symm
      · cases stepped
        exact (held.withWaitLock none).sleep running _ idle.symm
    · cases stepped
  · rename_i pp _
    split at stepped
    · split at stepped
      · rename_i unlocked
        split at stepped
        · rename_i zombie
          split at stepped
          · cases stepped
            exact (held.withWaitLock none).move t idle.symm
          · cases stepped
            have freed := (held.withWaitLock none).freed (held.zombie (t := t) zombie)
            have same : Function.update s.lock pp none = s.lock := by
              rw [← unlocked, Function.update_eq_self]
            simpa only [Table.giveUp, Table.setLock, Table.setProc, Table.setPc, same] using freed
        · cases stepped
          exact held.move t idle.symm
      · cases stepped
    · cases stepped
      exact held.move t idle.symm

theorem killStep_invariant (held : Invariant s) {pid : Int32} {i : Nat}
    (at' : s.pc t = .kill pid i)
    (spares : ∀ p, slotAt i = some p → (s.proc p).state ≠ .unused ∨ pid ≠ 0)
    (stepped : killStep s t pid i = some next) : Invariant next := by
  have idle : forking (s.pc t) = none := by rw [at']; rfl
  simp only [killStep] at stepped
  split at stepped
  · cases stepped
    exact held.move t idle.symm
  · rename_i p place
    split at stepped
    · rename_i unlocked
      split at stepped
      · rename_i found
        cases stepped
        subst found
        refine held.marked idle unlocked ?_
        intro free
        rcases spares p place with taken | nonzero
        · exact taken free
        · exact nonzero (held.unnumbered p free unlocked)
      · cases stepped
        exact held.move t idle.symm
    · cases stepped

/-- The forking thread changes the record of the slot it holds, in a later stage. -/
theorem Invariant.forked (held : Invariant s) {np : Slot} {stage : Stage} {new : Proc}
    {holder : Option Slot} {pc : Pc} {next' : Stage}
    (at' : forking (s.pc t) = some (np, stage)) (to' : forking pc = some (np, next'))
    (standing : Standing (((s.setProc np new).setLock np holder).setPc t pc) t np next')
    (taken : new.state ≠ .unused) :
    Invariant (((s.setProc np new).setLock np holder).setPc t pc) := by
  refine held.owned (fun u other forks => held.alone u t np other stage forks at') ?_ ?_ ?_ ?_ ?_
    List.suffix_rfl held.marks held.starts
  · intro q apart
    exact Function.update_of_ne apart ..
  · intro q apart
    exact Function.update_of_ne apart ..
  · intro u apart
    exact Or.inl (forks_setPc u apart)
  · intro q other forks
    have here : forking pc = some (q, other) := by
      simpa [Table.setPc] using forks
    rw [to'] at here
    cases here
    exact ⟨rfl, standing⟩
  · intro free
    have same : new.state = .unused := by
      simpa [Table.setPc, Table.setLock, Table.setProc] using free
    exact absurd same taken

theorem Invariant.onlyForker (held : Invariant s) {np : Slot} {stage : Stage}
    (at' : forking (s.pc t) = some (np, stage)) (u : Slot) (other : Stage)
    (forks : forking (s.pc u) = some (np, other)) : u = t :=
  held.alone u t np other stage forks at'

theorem found_invariant (held : Invariant s) {p : Slot} (unlocked : s.lock p = none)
    (free : (s.proc p).state = .unused) :
    Invariant ((s.setLock p (some t)).setPc t (.allocpid p)) := by
  have only : ∀ u stage, forking (s.pc u) = some (p, stage) → u = t := by
    intro u stage forks
    rcases held.unforked forks with used | ⟨_, locked⟩
    · rw [free] at used
      cases used
    · rw [unlocked] at locked
      cases locked
  refine held.owned only (fun _ _ => rfl) ?_ ?_ ?_ ?_ List.suffix_rfl held.marks held.starts
  · intro q apart
    exact Function.update_of_ne apart ..
  · intro u apart
    exact Or.inl (forks_setPc u apart)
  · intro q stage forks
    simp only [Table.setPc, Function.update_self, forking, Option.some.injEq,
      Prod.mk.injEq] at forks
    obtain ⟨rfl, rfl⟩ := forks
    exact ⟨rfl, Function.update_self .., free⟩
  · intro _
    refine ⟨held.scrubbed p free, ?_⟩
    intro unlocked'
    simp [Table.setPc, Table.setLock] at unlocked'

theorem allocpid_invariant (held : Invariant s) {np : Slot} (at' : s.pc t = .allocpid np) :
    Invariant ((({ s with nextpid := s.nextpid + 1 }.setProc np
      { s.proc np with pid := s.nextpid }).setPc t (.setUsed np)).log
        (.assigned np s.nextpid)) := by
  have forks : forking (s.pc t) = some (np, .found) := by rw [at']; rfl
  obtain ⟨holds, free⟩ := held.standing t np _ forks
  have scrubbed := held.scrubbed np free
  refine held.owned (held.onlyForker forks) ?_ (fun _ _ => rfl) ?_ ?_ ?_ (List.suffix_cons ..) ?_ ?_
  · intro q apart
    exact Function.update_of_ne apart ..
  · intro u apart
    exact Or.inl (forks_setPc u apart)
  · intro q stage now
    simp only [Table.log, Table.setPc, Function.update_self, forking, Option.some.injEq,
      Prod.mk.injEq] at now
    obtain ⟨rfl, rfl⟩ := now
    refine ⟨rfl, holds, ?_, [], s.events, ?_, Or.inl ?_⟩
    · simpa [Table.log, Table.setPc, Table.setProc] using free
    · simp [Table.log, Table.setPc, Table.setProc]
    · have zero : (s.proc np).killed = 0 := by rw [scrubbed]; rfl
      simpa [Table.log, Table.setPc, Table.setProc] using zero
  · intro _
    constructor
    · change Scrubbed (Function.update s.proc np { s.proc np with pid := s.nextpid } np)
      rw [Function.update_self, scrubbed]
      rfl
    · intro unlocked
      exact absurd (holds.symm.trans unlocked) nofun
  · exact marks_cons held.marks (by rintro _ _ _ ⟨⟩)
  · exact starts_cons held.starts (by rintro _ _ _ ⟨⟩)

theorem setUsed_invariant (held : Invariant s) {np : Slot} (at' : s.pc t = .setUsed np) :
    Invariant ((s.setProc np { s.proc np with state := .used }).setPc t (.allocTrapframe np)) := by
  have forks : forking (s.pc t) = some (np, .numbered) := by rw [at']; rfl
  obtain ⟨holds, free, since⟩ := held.standing t np _ forks
  have same : Function.update s.lock np (some t) = s.lock := by
    rw [← holds, Function.update_eq_self]
  have moved : Invariant (((s.setProc np { s.proc np with state := .used }).setLock np
      (some t)).setPc t (.allocTrapframe np)) := by
    refine held.forked forks rfl ⟨Function.update_self .., ?_, ?_⟩ (by simp)
    · simp [Table.setLock, Table.setProc, Table.setPc]
    · simpa [Table.setLock, Table.setProc, Table.setPc] using since
  simpa only [Table.setLock, Table.setProc, Table.setPc, same] using moved

/-- The forking thread writes another field of the slot it has taken. -/
theorem Invariant.fill (held : Invariant s) {np : Slot} (used : (s.proc np).state = .used)
    {new : Proc} (state : new.state = (s.proc np).state) (pid : new.pid = (s.proc np).pid)
    (killed : new.killed = (s.proc np).killed) : Invariant (s.setProc np new) :=
  held.touch np (Or.inr (Or.inr ⟨used, state.trans used, pid, killed⟩))

theorem uvmcopy_invariant (held : Invariant s) {np : Slot} (at' : s.pc t = .uvmcopy np)
    (sz : Nat) :
    Invariant (((s.setProc np { s.proc np with sz }).setLock np none).setPc t
      (.setParent np (s.proc np).pid)) := by
  have forks : forking (s.pc t) = some (np, .locked) := by rw [at']; rfl
  obtain ⟨_, used, since⟩ := held.standing t np _ forks
  refine held.forked forks rfl ?_ (by simp [used])
  refine ⟨?_, ?_, ?_⟩
  · simpa [Table.setLock, Table.setProc, Table.setPc] using used
  · simp [Table.setLock, Table.setProc, Table.setPc]
  · simpa [Table.setLock, Table.setProc, Table.setPc] using since

theorem setRunnable_invariant (held : Invariant s) {np : Slot} {pid : Int32}
    (at' : s.pc t = .setRunnable np pid) :
    Invariant ((((s.setProc np { s.proc np with state := .runnable }).setPc np .user).setPc t
      .user).log (.started np pid (s.proc np).killed)) := by
  have forks : forking (s.pc t) = some (np, .released pid) := by rw [at']; rfl
  obtain ⟨used, _, since⟩ := held.standing t np _ forks
  refine held.owned (held.onlyForker forks) ?_ (fun _ _ => rfl) ?_ ?_ ?_ (List.suffix_cons ..) ?_ ?_
  · intro q apart
    exact Function.update_of_ne apart ..
  · intro u apart
    by_cases child : u = np
    · subst child
      right
      simp [Table.log, Table.setPc, apart, forking]
    · left
      simp [Table.log, Table.setPc, Table.setProc, apart, child]
  · intro q stage now
    simp [Table.log, Table.setPc, forking] at now
  · intro free
    simp [Table.log, Table.setPc, Table.setProc] at free
  · exact marks_cons held.marks (by rintro _ _ _ ⟨⟩)
  · exact starts_cons held.starts (by rintro _ _ _ ⟨⟩; exact since)

theorem reparent_invariant (held : Invariant s) {p : Slot} (child : (s.proc p).parent = some t)
    (parent : Option Slot) : Invariant (s.setProc p { s.proc p with parent }) := by
  refine held.touch p ?_
  by_cases free : (s.proc p).state = .unused
  · have scrubbed := held.scrubbed p free
    rw [scrubbed] at child
    cases child
  · by_cases used : (s.proc p).state = .used
    · exact Or.inr (Or.inr ⟨used, used, rfl, rfl⟩)
    · exact Or.inr (Or.inl ⟨⟨free, used⟩, ⟨free, used⟩⟩)

theorem advance_invariant (held : Invariant s) (running : (s.proc t).state = .running)
    {answer : Nat} (spares : killSpares s (.advance t answer) = true)
    (advanced : advance s t answer = some next) : Invariant next := by
  unfold advance at advanced
  split at advanced
  case h_1 => cases advanced
  case h_2 => cases advanced
  case h_3 => cases advanced
  case h_4 at' =>
    have idle : forking (s.pc t) = none := by rw [at']; rfl
    split at advanced
    · cases advanced
      exact held.move t idle.symm
    · split at advanced
      · rename_i unlocked
        split at advanced
        · rename_i free
          cases advanced
          exact found_invariant held unlocked free
        · cases advanced
          exact held.move t idle.symm
      · cases advanced
  case h_5 at' =>
    cases advanced
    exact allocpid_invariant held at'
  case h_6 at' =>
    cases advanced
    exact setUsed_invariant held at'
  case h_7 np at' =>
    have forks : forking (s.pc t) = some (np, .locked) := by rw [at']; rfl
    have used := (held.standing t np _ forks).2.1
    have filled : Invariant (s.setProc np { s.proc np with trapframe := answer }) :=
      held.fill used rfl rfl rfl
    split at advanced
    · cases advanced
      exact filled.freed (filled.onlyForker forks)
    · cases advanced
      exact filled.move t forks.symm
  case h_8 np at' =>
    have forks : forking (s.pc t) = some (np, .locked) := by rw [at']; rfl
    have used := (held.standing t np _ forks).2.1
    have filled : Invariant (s.setProc np { s.proc np with pagetable := answer }) :=
      held.fill used rfl rfl rfl
    split at advanced
    · cases advanced
      exact filled.freed (filled.onlyForker forks)
    · cases advanced
      exact filled.move t forks.symm
  case h_9 np at' =>
    have forks : forking (s.pc t) = some (np, .locked) := by rw [at']; rfl
    split at advanced
    · cases advanced
      exact held.freed (held.onlyForker forks)
    · cases advanced
      exact uvmcopy_invariant held at' _
  case h_10 np pid at' =>
    have forks : forking (s.pc t) = some (np, .released pid) := by rw [at']; rfl
    split at advanced
    · cases advanced
      have used := (held.standing t np _ forks).1
      have filled : Invariant (s.setProc np { s.proc np with parent := some t }) :=
        held.fill used rfl rfl rfl
      exact filled.move t forks.symm
    · cases advanced
  case h_11 at' =>
    split at advanced
    · cases advanced
      exact setRunnable_invariant held at'
    · cases advanced
  case h_12 at' =>
    have idle : forking (s.pc t) = none := by rw [at']; rfl
    split at advanced
    · cases advanced
      exact (held.withWaitLock _).move t idle.symm
    · cases advanced
  case h_13 at' =>
    have idle : forking (s.pc t) = none := by rw [at']; rfl
    split at advanced
    · cases advanced
      exact held.move t idle.symm
    · split at advanced
      · rename_i child
        cases advanced
        exact (reparent_invariant held child _).move t idle.symm
      · cases advanced
        exact held.move t idle.symm
  case h_14 at' =>
    have idle : forking (s.pc t) = none := by rw [at']; rfl
    cases advanced
    exact held.move t idle.symm
  case h_15 at' =>
    have idle : forking (s.pc t) = none := by rw [at']; rfl
    split at advanced
    · cases advanced
      exact ((held.withWaitLock none).touch t
        (running_kept running (by decide : live .zombie))).move t idle.symm
    · cases advanced
  case h_16 at' =>
    have idle : forking (s.pc t) = none := by rw [at']; rfl
    split at advanced
    · cases advanced
      exact (held.withWaitLock _).move t idle.symm
    · cases advanced
  case h_17 at' => exact waitStep_invariant held running at' advanced
  case h_18 at' =>
    simp only [killSpares, at'] at spares
    refine killStep_invariant held at' ?_ advanced
    intro p place
    rw [place] at spares
    exact of_decide_eq_true spares
  case h_19 at' => exact wakeupStep_invariant held at' advanced

theorem step_invariant (held : Invariant s) {label : Label} (spares : killSpares s label = true)
    (stepped : step s label = some next) : Invariant next := by
  cases label with
  | call t c =>
      simp only [step] at stepped
      split at stepped
      · rename_i running
        split at stepped
        · rename_i at'
          exact begin_invariant held running at' stepped
        · cases stepped
      · cases stepped
  | advance t answer =>
      simp only [step] at stepped
      split at stepped
      · rename_i running
        exact advance_invariant held running spares stepped
      · cases stepped
  | yield t =>
      simp only [step] at stepped
      split at stepped
      · rename_i may
        cases stepped
        exact held.touch t (running_kept may.1 (by decide : live .runnable))
      · cases stepped
  | schedule p =>
      simp only [step] at stepped
      split at stepped
      · rename_i may
        have runs : ∀ new : Proc, live new.state → Kept (s.proc p) new := fun new alive =>
          Or.inr (Or.inl ⟨by rw [may.1]; decide, alive⟩)
        split at stepped
        · rename_i at'
          cases stepped
          exact (held.touch p (runs _ (by decide : live .running))).move p
            (by simp only [Table.setProc, at', forking])
        · cases stepped
          exact held.touch p (runs _ (by decide : live .running))
      · cases stepped
  | interrupt chan p =>
      simp only [step] at stepped
      split at stepped
      · cases stepped
        exact held.touch p (wake_kept _ _)
      · cases stepped

end Preserved

/-- Every step of the run spares the unused slots. -/
def RunSpares (trapframe pagetable : Nat) (labels : List Label) : Prop :=
  ∀ before label after middle, labels = before ++ label :: after →
    run step (booted trapframe pagetable) before = some middle → killSpares middle label = true

/-- In every run in which `kill(0)` looks at no unused slot: an unused, unlocked
slot is clean, `kill` only marked processes in use, and a child starts unmarked
unless a kill of its pid came after `fork` assigned it. -/
theorem unused_slots_clean (trapframe pagetable : Nat) {labels : List Label} {final : Table}
    (ran : run step (booted trapframe pagetable) labels = some final)
    (spared : RunSpares trapframe pagetable labels) :
    (∀ p, (final.proc p).state = .unused → final.lock p = none → final.proc p = unusedProc) ∧
      (∀ pid p state, .marked pid p state ∈ final.events → state ≠ .unused) ∧
      (∀ later earlier np pid killed,
        final.events = later ++ Event.started np pid killed :: earlier → Since earlier np pid killed) := by
  have held : Invariant final :=
    run_invariant_where step (fun s label => killSpares s label = true) Invariant
      (booted_invariant trapframe pagetable)
      (fun _ _ _ held spares stepped => step_invariant held spares stepped) ran spared
  refine ⟨?_, held.marks, held.starts⟩
  intro p free unlocked
  have scrubbed : final.proc p = { unusedProc with pid := (final.proc p).pid } :=
    held.scrubbed p free
  rw [held.unnumbered p free unlocked] at scrubbed
  exact scrubbed

def secondProc : Slot := ⟨1, by decide⟩

/-- The init process forks a child into slot 1, then kills it by its pid. -/
def forkThenKill : List Label :=
  ([.schedule initproc, .call initproc .fork] : List Label) ++
    [1, 1, 1, 1, 7, 8, 1, 1, 1].map (Label.advance initproc) ++
    ([.call initproc (.kill 2), .advance initproc 1, .advance initproc 1] : List Label)

theorem forkThenKill_clean :
    ∃ final, run step (booted 5 6) forkThenKill = some final ∧
      .marked 2 secondProc .runnable ∈ final.events ∧
      (∀ p, (final.proc p).state = .unused → final.lock p = none →
        final.proc p = unusedProc) := by
  have goes : (run step (booted 5 6) forkThenKill).any
      (fun final => decide (.marked 2 secondProc .runnable ∈ final.events)) = true := by decide +kernel
  obtain ⟨final, ran, marked⟩ := (Option.any_eq_true _ _).mp goes
  have spared : RunSpares 5 6 forkThenKill := by
    intro before label after middle split reached
    have met : meetsAll step killSpares (booted 5 6) forkThenKill = true := by decide +kernel
    rw [split] at met
    exact meetsAll_split step killSpares met reached
  exact ⟨final, ran, of_decide_eq_true marked, (unused_slots_clean 5 6 ran spared).1⟩

/-- `kill(0)` by the init process, which finds the unused slot 1. -/
def killZero : List Label :=
  [.schedule initproc, .call initproc (.kill 0), .advance initproc 1, .advance initproc 1]

def forkAfterwards : List Label :=
  .call initproc .fork :: [1, 1, 1, 1, 7, 8, 1, 1, 1].map (.advance initproc)

/-- `kill(0)` marks an unused slot and returns 0; the next child in that slot
starts killed although no kill named its pid. -/
theorem kill_zero_marks_unused :
    (∃ final, run step (booted 5 6) killZero = some final ∧
      (final.proc secondProc).state = .unused ∧ final.lock secondProc = none ∧
      (final.proc secondProc).killed = 1 ∧ final.events = [.marked 0 secondProc .unused]) ∧
    (∃ final, run step (booted 5 6) (killZero ++ forkAfterwards) = some final ∧
      final.events = [.started secondProc 2 1, .assigned secondProc 2, .marked 0 secondProc .unused]) := by
  constructor
  · have goes : (run step (booted 5 6) killZero).any (fun final =>
        decide ((final.proc secondProc).state = .unused ∧ final.lock secondProc = none ∧
          (final.proc secondProc).killed = 1 ∧ final.events = [.marked 0 secondProc .unused])) = true := by
      decide +kernel
    obtain ⟨final, ran, there⟩ := (Option.any_eq_true _ _).mp goes
    exact ⟨final, ran, of_decide_eq_true there⟩
  · have goes : (run step (booted 5 6) (killZero ++ forkAfterwards)).any (fun final =>
        decide (final.events =
          [.started secondProc 2 1, .assigned secondProc 2, .marked 0 secondProc .unused])) = true := by
      decide +kernel
    obtain ⟨final, ran, there⟩ := (Option.any_eq_true _ _).mp goes
    exact ⟨final, ran, of_decide_eq_true there⟩

end PaddleOs.ProcTable
