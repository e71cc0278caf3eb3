import PaddleOs.Params
import PaddleOs.Foundation.Runs
import PaddleOs.ProcTable
import Mathlib.Logic.Function.Basic

/-!
`sleep`, `wakeup`, `kill`, `sched`, `yield` and `scheduler` of `proc.c` on several
harts. A step is the code of one hart between two spinlock operations. A hart runs its
scheduler, the kernel thread of a process, or an interrupt handler on top of either; it
takes an interrupt only while it holds no spinlock, since `acquire` turns interrupts
off. Other kernel code is a thread or a handler that takes and releases locks and calls
the functions above. The times at which locks change hands are kept for the proofs.
-/

namespace PaddleOs.SleepWakeup

open Foundation.Runs
open ProcTable (ProcState)

def NCPU : Nat := 8

abbrev Cpu := Fin NCPU

abbrev Pid := Fin NPROC

/-- A spinlock: `p->lock` of a process or another one. -/
inductive Lock where
  | proc (p : Pid)
  | other (a : Nat)
  deriving DecidableEq, Repr

abbrev Chan := Nat

/-- Where a timer interrupt can make a thread yield, as it holds no lock there. -/
inductive Back where
  | code
  | relock (lk : Nat)
  | kill (pid : Int32) (i : Nat)
  deriving DecidableEq, Repr

/-- Where a thread or a handler stands; `code` is any code outside these functions. -/
inductive Pc where
  | code
  | sleepLock (chan : Chan) (lk : Nat)
  | sleepRelease (chan : Chan) (lk : Nat)
  | sleepSwitch (chan : Chan) (lk : Nat)
  | asleep (chan : Chan) (lk : Nat)
  | sleepDone (lk : Nat)
  | sleepRelock (lk : Nat)
  | wakeupNext (chan : Chan) (i : Nat)
  | wakeupHeld (chan : Chan) (p : Pid)
  | killNext (pid : Int32) (i : Nat)
  | killHeld (pid : Int32) (p : Pid)
  | yieldLock (back : Back)
  | yieldSwitch (back : Back)
  | yielded (back : Back)
  | yieldDone (back : Back)
  deriving DecidableEq, Repr

def Back.pc : Back → Pc
  | .code => .code
  | .relock lk => .sleepRelock lk
  | .kill pid i => .killNext pid i

structure Proc where
  state : ProcState
  chan : Option Chan
  pid : Int32
  killed : Bool
  deriving DecidableEq, Repr

/-- Where the scheduler of a hart stands in its loop. -/
inductive Scan where
  | next (p : Pid)
  | check (p : Pid)
  | away (p : Pid)
  | back (p : Pid)
  deriving DecidableEq, Repr

/-- `cur` is `c->proc`; `held` lists the locks of a hart, so that `noff` is its length.
`tookAt` is when a lock was last acquired, `leftAt` when the last `sleep` of a process
released the lock it was called with. -/
structure Sys where
  proc : Pid → Proc
  held : Cpu → List Lock
  cur : Cpu → Option Pid
  scan : Cpu → Scan
  handler : Cpu → Option Pc
  pc : Pid → Pc
  clock : Nat
  tookAt : Lock → Nat
  leftAt : Pid → Nat

section Steps

def Sys.setProc (s : Sys) (p : Pid) (next : Proc) : Sys :=
  { s with proc := Function.update s.proc p next }

def Sys.setPc (s : Sys) (p : Pid) (pc : Pc) : Sys := { s with pc := Function.update s.pc p pc }

def Sys.setScan (s : Sys) (c : Cpu) (scan : Scan) : Sys :=
  { s with scan := Function.update s.scan c scan }

def Sys.setCur (s : Sys) (c : Cpu) (cur : Option Pid) : Sys :=
  { s with cur := Function.update s.cur c cur }

def Sys.setHandler (s : Sys) (c : Cpu) (pc : Option Pc) : Sys :=
  { s with handler := Function.update s.handler c pc }

def Sys.tick (s : Sys) : Sys := { s with clock := s.clock + 1 }

/-- `acquire(lk)`: none while another hart holds it, and for the panic if this one does. -/
def Sys.acquire (s : Sys) (c : Cpu) (lk : Lock) : Option Sys :=
  if ∀ d, lk ∉ s.held d then
    some { s with held := Function.update s.held c (lk :: s.held c)
                  tookAt := Function.update s.tookAt lk (s.clock + 1) }
  else none

/-- `release(lk)`; none for the panic if this hart does not hold it. -/
def Sys.release (s : Sys) (c : Cpu) (lk : Lock) : Option Sys :=
  if lk ∈ s.held c then
    some { s with held := Function.update s.held c ((s.held c).erase lk) }
  else none

/-- What runs on a hart outside its scheduler. -/
def Sys.context (s : Sys) (c : Cpu) : Option Pc :=
  match s.handler c with
  | some pc => some pc
  | none => (s.cur c).map s.pc

def Sys.setContext (s : Sys) (c : Cpu) (pc : Pc) : Sys :=
  match s.handler c, s.cur c with
  | some _, _ => s.setHandler c (some pc)
  | none, some p => s.setPc p pc
  | none, none => s

/-- The locked stretch of `wakeup` on one process. -/
def wake (chan : Chan) (p : Proc) : Proc :=
  if p.state = .sleeping ∧ p.chan = some chan then { p with state := .runnable } else p

/-- The locked stretch of `kill` on a process whose pid matched. -/
def mark (p : Proc) : Proc :=
  { p with killed := true, state := if p.state = .sleeping then .runnable else p.state }

def pidAt (i : Nat) : Option Pid := if h : i < NPROC then some ⟨i, h⟩ else none

/-- The next stretch of `wakeup` or `kill`, called by a thread or by a handler. -/
def advanceCall (s : Sys) (c : Cpu) : Pc → Option Sys
  | .wakeupNext chan i =>
      match pidAt i with
      | none => some (s.setContext c .code)
      | some p =>
          if s.cur c = some p then some (s.setContext c (.wakeupNext chan (i + 1)))
          else (s.acquire c (.proc p)).map (·.setContext c (.wakeupHeld chan p))
  | .wakeupHeld chan p =>
      ((s.setProc p (wake chan (s.proc p))).release c (.proc p)).map
        (·.setContext c (.wakeupNext chan (p + 1)))
  | .killNext pid i =>
      match pidAt i with
      | none => some (s.setContext c .code)
      | some p => (s.acquire c (.proc p)).map (·.setContext c (.killHeld pid p))
  | .killHeld pid p =>
      if (s.proc p).pid = pid then
        ((s.setProc p (mark (s.proc p))).release c (.proc p)).map (·.setContext c .code)
      else (s.release c (.proc p)).map (·.setContext c (.killNext pid (p + 1)))
  | _ => none

/-- `sched` up to the release of `p->lock` in `scheduler`: `p` keeps only its own lock,
and the hart goes on in its scheduler with `c->proc = 0`. -/
def Sys.sched (s : Sys) (c : Cpu) (p : Pid) (pc : Pc) : Option Sys :=
  if s.held c = [.proc p] then some (((s.setPc p pc).setCur c none).setScan c (.back p)) else none

/-- The next stretch of the thread of `p`, which runs on `c`. -/
def advanceThread (s : Sys) (c : Cpu) (p : Pid) : Option Sys :=
  match s.pc p with
  | .sleepLock chan lk => (s.acquire c (.proc p)).map (·.setPc p (.sleepRelease chan lk))
  | .sleepRelease chan lk =>
      (s.release c (.other lk)).map fun s =>
        { s.setPc p (.sleepSwitch chan lk) with
          leftAt := Function.update s.leftAt p (s.clock + 1) }
  | .sleepSwitch chan lk =>
      (s.setProc p { s.proc p with chan := some chan, state := .sleeping }).sched c p
        (.asleep chan lk)
  | .sleepDone lk =>
      ((s.setProc p { s.proc p with chan := none }).release c (.proc p)).map
        (·.setPc p (.sleepRelock lk))
  | .sleepRelock lk => (s.acquire c (.other lk)).map (·.setPc p .code)
  | .yieldLock back => (s.acquire c (.proc p)).map (·.setPc p (.yieldSwitch back))
  | .yieldSwitch back =>
      (s.setProc p { s.proc p with state := .runnable }).sched c p (.yielded back)
  | .yieldDone back => (s.release c (.proc p)).map (·.setPc p back.pc)
  | pc => advanceCall s c pc

/-- Where a thread goes on when `swtch` returns to it; a new process returns to
`forkret`, which releases `p->lock` as `yield` does. -/
def resume : Pc → Pc
  | .asleep _ lk => .sleepDone lk
  | .yielded back => .yieldDone back
  | _ => .yieldDone .code

/-- The next stretch of `scheduler`. -/
def advanceScheduler (s : Sys) (c : Cpu) : Option Sys :=
  match s.scan c with
  | .next p => (s.acquire c (.proc p)).map (·.setScan c (.check p))
  | .check p =>
      if (s.proc p).state = .runnable then
        some ((((s.setProc p { s.proc p with state := .running }).setCur c (some p)).setScan c
          (.away p)).setPc p (resume (s.pc p)))
      else some (s.setScan c (.back p))
  | .away _ => none
  | .back p => (s.release c (.proc p)).map (·.setScan c (.next ⟨(p + 1) % NPROC, Nat.mod_lt _ (by decide)⟩))

/-- `advance` is the next stretch of whatever runs on the hart; the other labels are
what code outside these functions does. -/
inductive Label where
  | acquire (c : Cpu) (a : Nat)
  | release (c : Cpu) (a : Nat)
  | sleep (c : Cpu) (chan : Chan) (lk : Nat)
  | wakeup (c : Cpu) (chan : Chan)
  | kill (c : Cpu) (pid : Int32)
  | yield (c : Cpu) (back : Back)
  | interrupt (c : Cpu)
  | iret (c : Cpu)
  | advance (c : Cpu)
  deriving DecidableEq, Repr

def move (s : Sys) : Label → Option Sys
  | .acquire c a => if s.context c = some .code then s.acquire c (.other a) else none
  | .release c a => if s.context c = some .code then s.release c (.other a) else none
  | .sleep c chan lk =>
      match s.handler c, s.cur c with
      | none, some p =>
          if s.pc p = .code ∧ .other lk ∈ s.held c then some (s.setPc p (.sleepLock chan lk))
          else none
      | _, _ => none
  | .wakeup c chan =>
      if s.context c = some .code then some (s.setContext c (.wakeupNext chan 0)) else none
  | .kill c pid =>
      if s.context c = some .code then some (s.setContext c (.killNext pid 0)) else none
  | .yield c back =>
      match s.handler c, s.cur c with
      | none, some p =>
          if s.pc p = back.pc ∧ s.held c = [] then some (s.setPc p (.yieldLock back)) else none
      | _, _ => none
  | .interrupt c =>
      if s.handler c = none ∧ s.held c = [] then some (s.setHandler c (some .code)) else none
  | .iret c =>
      if s.handler c = some .code ∧ s.held c = [] then some (s.setHandler c none) else none
  | .advance c =>
      match s.handler c, s.cur c with
      | some pc, _ => advanceCall s c pc
      | none, some p => advanceThread s c p
      | none, none => advanceScheduler s c

def step (s : Sys) (label : Label) : Option Sys := (move s label).map Sys.tick

/-- The harts enter their schedulers; no process runs or sleeps. -/
structure Boot (s : Sys) : Prop where
  proc : ∀ p, (s.proc p).state ≠ .running ∧ (s.proc p).state ≠ .sleeping
  held : ∀ c, s.held c = []
  cur : ∀ c, s.cur c = none
  handler : ∀ c, s.handler c = none
  pc : ∀ p, s.pc p = .yielded .code
  times : (∀ l, s.tookAt l = 0) ∧ ∀ p, s.leftAt p = 0

end Steps

section Invariant

/-- The sleeper is past the release of `lk` and not awake again. -/
def Pending (s : Sys) (p : Pid) (chan : Chan) (lk : Nat) : Prop :=
  s.pc p = .sleepSwitch chan lk ∨ s.pc p = .asleep chan lk ∧ (s.proc p).state = .sleeping

/-- A thread that holds `p->lock` on its way into `sched`. -/
def Falling (pc : Pc) : Prop :=
  ∃ chan lk, pc = .sleepRelease chan lk ∨ pc = .sleepSwitch chan lk

/-- A waker has been through the processes before `i`. -/
def Sweeps (pc : Pc) (chan : Chan) (i : Nat) : Prop :=
  pc = .wakeupNext chan i ∨ ∃ p : Pid, p.val = i ∧ pc = .wakeupHeld chan p

structure Inv (s : Sys) : Prop where
  exclusive : ∀ l c d, l ∈ s.held c → l ∈ s.held d → c = d
  distinct : ∀ c, (s.held c).Nodup
  running : ∀ c p, s.cur c = some p → (s.proc p).state = .running
  single : ∀ c d p, s.cur c = some p → s.cur d = some p → c = d
  falling : ∀ p, Falling (s.pc p) →
    ∃ c, s.cur c = some p ∧ .proc p ∈ s.held c ∧ s.handler c = none
  sleeping : ∀ p, (s.proc p).state = .sleeping →
    ∃ chan lk, s.pc p = .asleep chan lk ∧ (s.proc p).chan = some chan
  took : ∀ l, s.tookAt l ≤ s.clock
  threadHolds : ∀ c q chan p, s.cur c = some q → s.pc q = .wakeupHeld chan p →
    .proc p ∈ s.held c ∧ p ≠ q ∧ s.handler c = none
  handlerHolds : ∀ c chan p, s.handler c = some (.wakeupHeld chan p) →
    .proc p ∈ s.held c ∧ s.cur c ≠ some p
  swept : ∀ c pc chan i, s.context c = some pc → Sweeps pc chan i →
    ∀ p : Pid, p.val < i → ∀ lk, .other lk ∈ s.held c → s.leftAt p < s.tookAt (.other lk) →
      ¬ Pending s p chan lk

theorem boot_inv {s : Sys} (boot : Boot s) : Inv s where
  exclusive l c d here := by simp [boot.held] at here
  distinct c := by simp [boot.held]
  running c p runs := by simp [boot.cur] at runs
  single c d p runs := by simp [boot.cur] at runs
  falling p falls := by
    obtain ⟨chan, lk, falls⟩ := falls
    simp [boot.pc] at falls
  sleeping p asleep := absurd asleep (boot.proc p).2
  took l := by simp [boot.times.1]
  threadHolds c q chan p runs := by simp [boot.cur] at runs
  handlerHolds c chan p runs := by simp [boot.handler] at runs
  swept c pc chan i runs := by simp [Sys.context, boot.handler, boot.cur] at runs

/-- What a step of hart `c` does to the locks, the clock and the other harts. -/
structure Local (s next : Sys) (c : Cpu) : Prop where
  held : ∀ d, d ≠ c → next.held d = s.held d
  lock : next.held c = s.held c ∨
    (∃ l, (∀ d, l ∉ s.held d) ∧ next.held c = l :: s.held c) ∨
    ∃ l, next.held c = (s.held c).erase l
  took : ∀ l, next.tookAt l = s.tookAt l ∨ (∀ d, l ∉ s.held d) ∧ next.tookAt l ≤ next.clock
  clock : s.clock ≤ next.clock
  handler : ∀ d, d ≠ c → next.handler d = s.handler d
  cur : ∀ d, d ≠ c → next.cur d = s.cur d
  fresh : ∀ p d, next.cur c = some p → d ≠ c → s.cur d ≠ some p
  pc : ∀ p, s.cur c ≠ some p → next.cur c ≠ some p → next.pc p = s.pc p
  asleep : ∀ p, (next.proc p).state = .sleeping → s.cur c ≠ some p →
    (s.proc p).state = .sleeping ∧ (next.proc p).chan = (s.proc p).chan
  awake : ∀ p, s.cur c ≠ some p → (s.proc p).state = .running → (next.proc p).state = .running
  left : ∀ p, next.leftAt p = s.leftAt p ∨ s.clock < next.leftAt p

/-- What the step leaves on its own hart and of the processes it runs. -/
structure Own (s next : Sys) (c : Cpu) : Prop where
  running : ∀ p, next.cur c = some p → (next.proc p).state = .running
  sleeping : ∀ p, s.cur c = some p → (next.proc p).state = .sleeping →
    ∃ chan lk, next.pc p = .asleep chan lk ∧ (next.proc p).chan = some chan
  falling : ∀ p, s.cur c = some p ∨ next.cur c = some p → Falling (next.pc p) →
    next.cur c = some p ∧ .proc p ∈ next.held c ∧ next.handler c = none
  pending : ∀ p chan lk, s.cur c = some p ∨ next.cur c = some p → Pending next p chan lk →
    Pending s p chan lk ∨ s.clock < next.leftAt p
  threadHolds : ∀ q chan p, next.cur c = some q → next.pc q = .wakeupHeld chan p →
    .proc p ∈ next.held c ∧ p ≠ q ∧ next.handler c = none
  handlerHolds : ∀ chan p, next.handler c = some (.wakeupHeld chan p) →
    .proc p ∈ next.held c ∧ next.cur c ≠ some p
  swept : ∀ pc chan i, next.context c = some pc → Sweeps pc chan i →
    ∀ p : Pid, p.val < i → ∀ lk, .other lk ∈ next.held c →
      next.leftAt p < next.tookAt (.other lk) → ¬ Pending next p chan lk

theorem Local.exclusive {s next : Sys} {c : Cpu} (moved : Local s next c) (inv : Inv s)
    (l : Lock) (d e : Cpu) (here : l ∈ next.held d) (there : l ∈ next.held e) : d = e := by
  have back : ∀ {d}, l ∈ next.held d → l ∈ s.held d ∨ d = c ∧ ∀ e, l ∉ s.held e := by
    intro d holds
    by_cases own : d = c
    · subst own
      rcases moved.lock with same | ⟨l', unheld, taken⟩ | ⟨l', given⟩
      · exact .inl (same ▸ holds)
      · rw [taken, List.mem_cons] at holds
        rcases holds with rfl | old
        · exact .inr ⟨rfl, unheld⟩
        · exact .inl old
      · rw [given] at holds
        exact .inl (List.mem_of_mem_erase holds)
    · exact .inl (moved.held d own ▸ holds)
  rcases back here with oldD | ⟨rfl, unheld⟩
  · rcases back there with oldE | ⟨rfl, unheld⟩
    · exact inv.exclusive l d e oldD oldE
    · exact absurd oldD (unheld d)
  · rcases back there with oldE | ⟨rfl, _⟩
    · exact absurd oldE (unheld e)
    · rfl

theorem Local.distinct {s next : Sys} {c : Cpu} (moved : Local s next c) (inv : Inv s) (d : Cpu) :
    (next.held d).Nodup := by
  by_cases own : d = c
  · subst own
    rcases moved.lock with same | ⟨l, unheld, taken⟩ | ⟨l, given⟩
    · rw [same]
      exact inv.distinct d
    · rw [taken, List.nodup_cons]
      exact ⟨unheld d, inv.distinct d⟩
    · rw [given]
      exact (inv.distinct d).erase l
  · rw [moved.held d own]
    exact inv.distinct d

/-- A process that hart `c` does not run stays pending only if it was. -/
theorem Local.pending {s next : Sys} {c : Cpu} (moved : Local s next c) {p : Pid}
    (before : s.cur c ≠ some p) (after : next.cur c ≠ some p) {chan : Chan} {lk : Nat}
    (pending : Pending next p chan lk) : Pending s p chan lk := by
  rw [Pending, moved.pc p before after] at pending
  rcases pending with switching | ⟨parked, asleep⟩
  · exact .inl switching
  · exact .inr ⟨parked, (moved.asleep p asleep before).1⟩

/-- The invariant is kept when the step is local and its own hart is in order. -/
theorem Inv.keep {s next : Sys} {c : Cpu} (inv : Inv s) (moved : Local s next c)
    (own : Own s next c) : Inv next where
  exclusive := moved.exclusive inv
  distinct := moved.distinct inv
  running d p runs := by
    by_cases here : d = c
    · exact own.running p (here ▸ runs)
    · rw [moved.cur d here] at runs
      exact moved.awake p (fun mine => here (inv.single d c p runs mine)) (inv.running d p runs)
  single d e p runsD runsE := by
    by_cases hereD : d = c
    · by_cases hereE : e = c
      · rw [hereD, hereE]
      · rw [moved.cur e hereE] at runsE
        exact absurd runsE (moved.fresh p e (hereD ▸ runsD) hereE)
    · rw [moved.cur d hereD] at runsD
      by_cases hereE : e = c
      · exact absurd runsD (moved.fresh p d (hereE ▸ runsE) hereD)
      · rw [moved.cur e hereE] at runsE
        exact inv.single d e p runsD runsE
  falling p falls := by
    by_cases mine : s.cur c = some p ∨ next.cur c = some p
    · exact ⟨c, own.falling p mine falls⟩
    · simp only [not_or] at mine
      rw [moved.pc p mine.1 mine.2] at falls
      obtain ⟨d, runs, holds, calm⟩ := inv.falling p falls
      have away : d ≠ c := fun same => mine.1 (same ▸ runs)
      refine ⟨d, ?_, ?_, ?_⟩
      · rw [moved.cur d away, runs]
      · rw [moved.held d away]
        exact holds
      · rw [moved.handler d away, calm]
  sleeping p asleep := by
    by_cases mine : s.cur c = some p
    · exact own.sleeping p mine asleep
    · obtain ⟨before, chan⟩ := moved.asleep p asleep mine
      have after : next.cur c ≠ some p := by
        intro runs
        have awake := own.running p runs
        rw [asleep] at awake
        cases awake
      rw [moved.pc p mine after, chan]
      exact inv.sleeping p before
  took l := by
    rcases moved.took l with same | ⟨_, bounded⟩
    · rw [same]
      exact Nat.le_trans (inv.took l) moved.clock
    · exact bounded
  threadHolds d q chan p runs pc := by
    by_cases here : d = c
    · subst here
      exact own.threadHolds q chan p runs pc
    · rw [moved.cur d here] at runs
      have mine : s.cur c ≠ some q := fun mine => here (inv.single d c q runs mine)
      have after : next.cur c ≠ some q := fun mine => moved.fresh q d mine here runs
      rw [moved.pc q mine after] at pc
      rw [moved.held d here, moved.handler d here]
      exact inv.threadHolds d q chan p runs pc
  handlerHolds d chan p handles := by
    by_cases here : d = c
    · subst here
      exact own.handlerHolds chan p handles
    · rw [moved.handler d here] at handles
      rw [moved.held d here, moved.cur d here]
      exact inv.handlerHolds d chan p handles
  swept d pc chan i context sweeps p below lk holds later pending := by
    by_cases here : d = c
    · subst here
      exact own.swept pc chan i context sweeps p below lk holds later pending
    · have sameContext : next.context d = s.context d := by
        unfold Sys.context
        rw [moved.handler d here, moved.cur d here]
        cases runs : s.cur d with
        | none => rfl
        | some q =>
            have mine : s.cur c ≠ some q := fun mine => here (inv.single d c q runs mine)
            have after : next.cur c ≠ some q := fun mine => moved.fresh q d mine here runs
            rw [Option.map_some, Option.map_some, moved.pc q mine after]
      rw [sameContext] at context
      rw [moved.held d here] at holds
      have sameTook : next.tookAt (.other lk) = s.tookAt (.other lk) := by
        rcases moved.took (.other lk) with same | ⟨unheld, _⟩
        · exact same
        · exact absurd holds (unheld d)
      have bounded := inv.took (.other lk)
      have sameLeft : next.leftAt p = s.leftAt p := by
        rcases moved.left p with same | newer
        · exact same
        · omega
      have before : Pending s p chan lk := by
        by_cases mine : s.cur c = some p ∨ next.cur c = some p
        · rcases own.pending p chan lk mine pending with before | newer
          · exact before
          · omega
        · simp only [not_or] at mine
          exact moved.pending mine.1 mine.2 pending
      rw [sameTook, sameLeft] at later
      exact inv.swept d pc chan i context sweeps p below lk holds later before

/-- A lock operation of hart `c` and a change of processes that puts none to sleep. -/
structure Touch (s t : Sys) (c : Cpu) : Prop where
  held : ∀ d, d ≠ c → t.held d = s.held d
  lock : t.held c = s.held c ∨ (∃ l, (∀ d, l ∉ s.held d) ∧ t.held c = l :: s.held c) ∨
    ∃ l, t.held c = (s.held c).erase l
  took : ∀ l, t.tookAt l = s.tookAt l ∨ (∀ d, l ∉ s.held d) ∧ t.tookAt l = s.clock + 1
  clock : t.clock = s.clock
  handler : t.handler = s.handler
  cur : t.cur = s.cur
  pc : t.pc = s.pc
  left : t.leftAt = s.leftAt
  asleep : ∀ p, (t.proc p).state = .sleeping →
    (s.proc p).state = .sleeping ∧ (t.proc p).chan = (s.proc p).chan
  awake : ∀ p, (s.proc p).state = .running → (t.proc p).state = .running

theorem Touch.refl (s : Sys) (c : Cpu) : Touch s s c :=
  ⟨fun _ _ => rfl, .inl rfl, fun _ => .inl rfl, rfl, rfl, rfl, rfl, rfl, fun _ asleep => ⟨asleep, rfl⟩,
    fun _ runs => runs⟩

theorem acquire_touch {s t : Sys} {c : Cpu} {l : Lock} (took : s.acquire c l = some t) :
    Touch s t c ∧ (∀ d, l ∉ s.held d) ∧ t.held c = l :: s.held c ∧
      ∀ l', l' ≠ l → t.tookAt l' = s.tookAt l' := by
  unfold Sys.acquire at took
  split at took
  · rename_i unheld
    cases took
    refine ⟨⟨fun d away => Function.update_of_ne away .., .inr (.inl ⟨l, unheld, by simp⟩), ?_, rfl,
      rfl, rfl, rfl, rfl, fun _ asleep => ⟨asleep, rfl⟩, fun _ runs => runs⟩, unheld, by simp, ?_⟩
    · intro l'
      by_cases same : l' = l
      · subst same
        exact .inr ⟨unheld, by simp⟩
      · exact .inl (Function.update_of_ne same ..)
    · intro l' away
      exact Function.update_of_ne away ..
  · cases took

theorem release_eq {s t : Sys} {c : Cpu} {l : Lock} (gave : s.release c l = some t) :
    l ∈ s.held c ∧
      t = { s with held := Function.update s.held c ((s.held c).erase l) } := by
  unfold Sys.release at gave
  split at gave
  · rename_i holds
    cases gave
    exact ⟨holds, rfl⟩
  · cases gave

theorem release_plain {s t : Sys} {c : Cpu} {l : Lock} (gave : s.release c l = some t) :
    Touch s t c := by
  obtain ⟨_, rfl⟩ := release_eq gave
  exact ⟨fun d away => Function.update_of_ne away .., .inr (.inr ⟨l, Function.update_self ..⟩),
    fun _ => .inl rfl, rfl, rfl, rfl, rfl, rfl, fun _ asleep => ⟨asleep, rfl⟩, fun _ awake => awake⟩

/-- A process changes under its lock, which is then released. -/
theorem release_touch {s t : Sys} {c : Cpu} {l : Lock} {p : Pid} {value : Proc}
    (gave : (s.setProc p value).release c l = some t)
    (asleep : value.state = .sleeping →
      (s.proc p).state = .sleeping ∧ value.chan = (s.proc p).chan)
    (awake : (s.proc p).state = .running → value.state = .running) :
    Touch s t c ∧ t.held c = (s.held c).erase l ∧ t.tookAt = s.tookAt ∧
      t.proc = Function.update s.proc p value := by
  obtain ⟨holds, rfl⟩ := release_eq gave
  refine ⟨⟨fun d away => Function.update_of_ne away .., .inr (.inr ⟨l, Function.update_self ..⟩),
    fun _ => .inl rfl, rfl, rfl, rfl, rfl, rfl, fun q => ?_, fun q => ?_⟩,
    Function.update_self .., rfl, rfl⟩
  · by_cases same : q = p
    · subst same
      simpa [Sys.setProc] using asleep
    · simp only [Sys.setProc, Function.update_of_ne same]
      exact fun sleeps => ⟨sleeps, trivial⟩
  · by_cases same : q = p
    · subst same
      simpa [Sys.setProc] using awake
    · simp [Sys.setProc, Function.update_of_ne same]

@[simp]
theorem setContext_proc (s : Sys) (c : Cpu) (pc : Pc) : (s.setContext c pc).proc = s.proc := by
  unfold Sys.setContext
  split <;> rfl

@[simp]
theorem setContext_held (s : Sys) (c : Cpu) (pc : Pc) : (s.setContext c pc).held = s.held := by
  unfold Sys.setContext
  split <;> rfl

@[simp]
theorem setContext_cur (s : Sys) (c : Cpu) (pc : Pc) : (s.setContext c pc).cur = s.cur := by
  unfold Sys.setContext
  split <;> rfl

@[simp]
theorem setContext_tookAt (s : Sys) (c : Cpu) (pc : Pc) :
    (s.setContext c pc).tookAt = s.tookAt := by
  unfold Sys.setContext
  split <;> rfl

@[simp]
theorem setContext_leftAt (s : Sys) (c : Cpu) (pc : Pc) :
    (s.setContext c pc).leftAt = s.leftAt := by
  unfold Sys.setContext
  split <;> rfl

@[simp]
theorem setContext_clock (s : Sys) (c : Cpu) (pc : Pc) : (s.setContext c pc).clock = s.clock := by
  unfold Sys.setContext
  split <;> rfl

theorem setContext_handler (s : Sys) (c : Cpu) (pc : Pc) : (s.setContext c pc).handler =
    if (s.handler c).isSome then Function.update s.handler c (some pc) else s.handler := by
  unfold Sys.setContext
  split <;> simp_all [Sys.setHandler, Sys.setPc]

/-- Only the thread on the hart can have moved, and only outside a handler. -/
theorem setContext_pc (s : Sys) (c : Cpu) (pc : Pc) (p : Pid) : (s.setContext c pc).pc p =
    if s.handler c = none ∧ s.cur c = some p then pc else s.pc p := by
  unfold Sys.setContext
  split
  · rename_i handles
    simp [handles, Sys.setHandler]
  · rename_i q handles runs
    simp only [Sys.setPc, Function.update_apply, handles, runs, true_and, Option.some.injEq]
    congr 1
    exact propext eq_comm
  · rename_i handles runs
    simp [runs]

/-- The thread or handler on `c` goes on at `pc` after a lock operation. -/
theorem Inv.call {s t : Sys} {c : Cpu} (inv : Inv s) (touch : Touch s t c) (pc : Pc)
    (entered : s.context c ≠ none)
    (falls : Falling pc → s.handler c = none ∧ ∀ p, s.cur c = some p → .proc p ∈ t.held c)
    (stays : ∀ chan lk, pc ≠ .sleepSwitch chan lk)
    (holds : ∀ chan p, pc = .wakeupHeld chan p → .proc p ∈ t.held c ∧ s.cur c ≠ some p)
    (swept : ∀ chan i, Sweeps pc chan i → ∀ p : Pid, p.val < i → ∀ lk, .other lk ∈ t.held c →
      t.leftAt p < t.tookAt (.other lk) → (s.handler c = none → s.cur c ≠ some p) →
      ¬ (s.pc p = .sleepSwitch chan lk ∨ s.pc p = .asleep chan lk ∧ (t.proc p).state = .sleeping)) :
    Inv (t.setContext c pc).tick := by
  have notSleeping : ∀ p, s.cur c = some p → (t.proc p).state ≠ .sleeping := by
    intro p runs asleep
    have before := (touch.asleep p asleep).1
    rw [inv.running c p runs] at before
    cases before
  have handler : ∀ d, (t.setContext c pc).tick.handler d =
      if d = c ∧ (s.handler c).isSome then some pc else s.handler d := by
    intro d
    change (t.setContext c pc).handler d = _
    rw [setContext_handler, touch.handler]
    by_cases handles : (s.handler c).isSome = true
    · rw [if_pos handles]
      by_cases same : d = c
      · subst same
        simp [handles]
      · simp [same]
    · simp [handles]
  have pcs : ∀ p, (t.setContext c pc).tick.pc p =
      if s.handler c = none ∧ s.cur c = some p then pc else s.pc p := by
    intro p
    change (t.setContext c pc).pc p = _
    rw [setContext_pc, touch.handler, touch.cur, touch.pc]
  have cur : (t.setContext c pc).tick.cur = s.cur := (setContext_cur t c pc).trans touch.cur
  have held : (t.setContext c pc).tick.held = t.held := setContext_held t c pc
  have procs : (t.setContext c pc).tick.proc = t.proc := setContext_proc t c pc
  have left : (t.setContext c pc).tick.leftAt = s.leftAt :=
    (setContext_leftAt t c pc).trans touch.left
  have took : (t.setContext c pc).tick.tookAt = t.tookAt := setContext_tookAt t c pc
  have clock : (t.setContext c pc).tick.clock = s.clock + 1 := by
    change (t.setContext c pc).clock + 1 = _
    rw [setContext_clock, touch.clock]
  refine inv.keep
    { held := fun d away => by rw [held]; exact touch.held d away
      lock := by rw [held]; exact touch.lock
      took := fun l => ?_
      clock := by omega
      handler := fun d away => by rw [handler, if_neg fun both => away both.1]
      cur := fun d _ => by rw [cur]
      fresh := fun p d runs away elsewhere => away (inv.single d c p elsewhere (cur ▸ runs))
      pc := fun p mine _ => by rw [pcs, if_neg fun both => mine both.2]
      asleep := fun p asleep _ => by
        rw [procs] at asleep ⊢
        exact touch.asleep p asleep
      awake := fun p _ runs => by rw [procs]; exact touch.awake p runs
      left := fun p => .inl (by rw [left]) }
    { running := fun p runs => by
        rw [procs]
        exact touch.awake p (inv.running c p (cur ▸ runs))
      sleeping := fun p runs asleep => absurd (procs ▸ asleep) (notSleeping p runs)
      falling := fun p mine falling => ?_
      pending := fun p chan lk mine pending => ?_
      threadHolds := fun q chan p runs at_ => ?_
      handlerHolds := fun chan p handles => ?_
      swept := fun pc' chan i context sweeps p below lk holdsLk later pending => ?_ }
  · rw [took, clock]
    rcases touch.took l with same | ⟨unheld, newer⟩
    · exact .inl same
    · exact .inr ⟨unheld, by omega⟩
  · have runs : s.cur c = some p := by simpa [cur] using mine
    rw [pcs] at falling
    by_cases calm : s.handler c = none
    · rw [if_pos ⟨calm, runs⟩] at falling
      obtain ⟨_, owns⟩ := falls falling
      refine ⟨by rw [cur, runs], by rw [held]; exact owns p runs, ?_⟩
      rw [handler, if_neg (by simp [calm]), calm]
    · rw [if_neg fun both => calm both.1] at falling
      obtain ⟨d, runs', _, calm'⟩ := inv.falling p falling
      rw [inv.single d c p runs' runs] at calm'
      exact absurd calm' calm
  · have runs : s.cur c = some p := by simpa [cur] using mine
    rw [Pending, pcs, procs] at pending
    rcases pending with switching | ⟨_, asleep⟩
    · split at switching
      · exact absurd switching (stays chan lk)
      · exact .inl (.inl switching)
    · exact absurd asleep (notSleeping p runs)
  · rw [cur] at runs
    rw [pcs] at at_
    by_cases calm : s.handler c = none
    · rw [if_pos ⟨calm, runs⟩] at at_
      obtain ⟨owns, apart⟩ := holds chan p at_
      refine ⟨by rw [held]; exact owns, fun same => apart (same ▸ runs), ?_⟩
      rw [handler, if_neg (by simp [calm]), calm]
    · rw [if_neg fun both => calm both.1] at at_
      exact absurd (inv.threadHolds c q chan p runs at_).2.2 calm
  · rw [handler] at handles
    rw [held, cur]
    split at handles
    · cases handles
      exact holds chan p rfl
    · rename_i quiet
      rw [handles] at quiet
      simp at quiet
  · have isPc : pc' = pc := by
      unfold Sys.context at context
      rw [handler, cur] at context
      cases handles : s.handler c with
      | some old =>
          simp [handles] at context
          exact context.symm
      | none =>
          cases runs : s.cur c with
          | none =>
              simp [Sys.context, handles, runs] at entered
          | some q =>
              simp [handles, runs, pcs] at context
              exact context.symm
    subst isPc
    rw [held] at holdsLk
    rw [left, took] at later
    rw [Pending, pcs, procs] at pending
    have notOwn : s.handler c = none → s.cur c ≠ some p := by
      intro calm runs
      rw [if_pos ⟨calm, runs⟩] at pending
      rcases pending with switching | ⟨parked, asleep⟩
      · exact stays chan lk switching
      · exact notSleeping p runs asleep
    rw [if_neg fun both => notOwn both.1 both.2] at pending
    exact swept chan i sweeps p below lk holdsLk (by rwa [touch.left]) notOwn pending

/-- The same where the code goes on outside `wakeup` and `sleep`. -/
theorem Inv.plain {s t : Sys} {c : Cpu} (inv : Inv s) (touch : Touch s t c) (pc : Pc)
    (entered : s.context c ≠ none) (notFalling : ¬ Falling pc)
    (notWaking : ∀ chan i, ¬ Sweeps pc chan i) : Inv (t.setContext c pc).tick := by
  refine inv.call touch pc entered (fun falls => absurd falls notFalling) ?_ ?_ ?_
  · rintro chan lk rfl
    exact notFalling ⟨chan, lk, .inr rfl⟩
  · rintro chan p rfl
    exact absurd (.inr ⟨p, rfl, rfl⟩) (notWaking chan p)
  · exact fun chan i sweeps => absurd sweeps (notWaking chan i)

theorem setContext_thread {s : Sys} {c : Cpu} {p : Pid} (calm : s.handler c = none)
    (runs : s.cur c = some p) (pc : Pc) : s.setContext c pc = s.setPc p pc := by
  unfold Sys.setContext
  rw [calm, runs]

theorem setContext_self {s : Sys} {c : Cpu} {pc : Pc} (here : s.context c = some pc) :
    s.setContext c pc = s := by
  unfold Sys.context at here
  unfold Sys.setContext
  cases handles : s.handler c with
  | some old =>
      rw [handles] at here
      cases here
      simp [Sys.setHandler, ← handles]
  | none =>
      cases runs : s.cur c with
      | none => rfl
      | some p =>
          rw [handles, runs] at here
          cases here
          simp [Sys.setPc]

theorem pidAt_some {i : Nat} {p : Pid} (found : pidAt i = some p) : p.val = i := by
  unfold pidAt at found
  split at found
  · cases found
    rfl
  · cases found

/-- The next stretch of `wakeup` or `kill`. -/
theorem advanceCall_inv {s t : Sys} {c : Cpu} {pc : Pc} (inv : Inv s)
    (here : s.context c = some pc) (ran : advanceCall s c pc = some t) : Inv t.tick := by
  have entered : s.context c ≠ none := by simp [here]
  have kept : ∀ chan lk p, .other lk ∈ s.held c → s.leftAt p < s.tookAt (.other lk) → ∀ i,
      Sweeps pc chan i → p.val < i →
      ¬ (s.pc p = .sleepSwitch chan lk ∨
        s.pc p = .asleep chan lk ∧ (s.proc p).state = .sleeping) :=
    fun chan lk p holds later i sweeps below =>
      inv.swept c pc chan i here sweeps p below lk holds later
  cases pc with
  | wakeupNext chan i =>
      simp only [advanceCall] at ran
      cases found : pidAt i with
      | none =>
          rw [found] at ran
          cases ran
          exact inv.plain (Touch.refl s c) _ entered (by simp [Falling]) (by simp [Sweeps])
      | some p =>
          simp only [found] at ran
          have index := pidAt_some found
          split at ran
          · -- `wakeup` passes over the process on its own hart, which is not going to sleep
            rename_i own
            cases ran
            refine inv.call (Touch.refl s c) _ entered (by simp [Falling]) (by simp) (by simp) ?_
            rintro chan' j sweeps q below lk holds later notOwn pending
            obtain ⟨rfl, rfl⟩ : chan' = chan ∧ j = i + 1 := by
              simpa [Sweeps, eq_comm] using sweeps
            by_cases last : q = p
            · subst last
              rcases pending with switching | ⟨_, asleep⟩
              · obtain ⟨d, runs, _, calm⟩ := inv.falling q ⟨chan', lk, .inr switching⟩
                rw [inv.single d c q runs own] at calm
                exact notOwn calm own
              · rw [inv.running c q own] at asleep
                cases asleep
            · have before : q.val < i := by
                have apart : q.val ≠ p.val := fun same => last (Fin.ext same)
                omega
              exact kept chan' lk q holds later i (.inl rfl) before pending
          · rename_i other
            obtain ⟨u, took, rfl⟩ := Option.map_eq_some_iff.mp ran
            obtain ⟨touch, _, held, same⟩ := acquire_touch took
            refine inv.call touch _ entered (by simp [Falling]) (by simp) ?_ ?_
            · rintro chan' p' isPc
              cases isPc
              exact ⟨by rw [held]; simp, other⟩
            · rintro chan' j sweeps q below lk holds later notOwn pending
              obtain ⟨rfl, rfl⟩ : chan' = chan ∧ j = i := by
                simpa [Sweeps, eq_comm, index, and_comm] using sweeps
              have old : Lock.other lk ∈ s.held c := by simpa [held] using holds
              rw [same _ (by simp), touch.left] at later
              refine kept chan' lk q old later j (.inl rfl) below ?_
              exact pending.imp_right fun parked => ⟨parked.1, (touch.asleep q parked.2).1⟩
  | wakeupHeld chan p =>
      obtain ⟨u, gave, rfl⟩ := Option.map_eq_some_iff.mp ran
      have owner : .proc p ∈ s.held c ∧ s.cur c ≠ some p := by
        unfold Sys.context at here
        cases handles : s.handler c with
        | some old =>
            rw [handles] at here
            cases here
            exact inv.handlerHolds c chan p handles
        | none =>
            rw [handles] at here
            obtain ⟨q, runs, at_⟩ := Option.map_eq_some_iff.mp here
            obtain ⟨owns, apart, _⟩ := inv.threadHolds c q chan p runs at_
            refine ⟨owns, ?_⟩
            rw [runs]
            simpa [eq_comm] using apart
      obtain ⟨touch, held, tookSame, procs⟩ := release_touch gave
        (by unfold wake; split <;> simp_all) (by unfold wake; split <;> simp_all)
      refine inv.call touch _ entered (by simp [Falling]) (by simp) (by simp) ?_
      rintro chan' j sweeps q below lk holds later notOwn pending
      obtain ⟨rfl, rfl⟩ : chan' = chan ∧ j = p.val + 1 := by
        simpa [Sweeps, eq_comm] using sweeps
      rw [held] at holds
      rw [tookSame, touch.left] at later
      have holds := List.mem_of_mem_erase holds
      by_cases last : q = p
      · subst last
        rcases pending with switching | ⟨parked, asleep⟩
        · -- a process on its way into `sched` holds its lock on its own hart
          obtain ⟨d, runs, owns, _⟩ := inv.falling q ⟨chan', lk, .inr switching⟩
          rw [inv.exclusive _ d c owns owner.1] at runs
          exact owner.2 runs
        · have before := (touch.asleep q asleep).1
          obtain ⟨chan'', lk', at_, onChan⟩ := inv.sleeping q before
          rw [parked] at at_
          cases at_
          rw [procs, Function.update_self, wake, if_pos ⟨before, onChan⟩] at asleep
          cases asleep
      · have before : q.val < p.val := by
          have apart : q.val ≠ p.val := fun same => last (Fin.ext same)
          omega
        refine kept chan' lk q holds later p.val (.inr ⟨p, rfl, rfl⟩) before ?_
        exact pending.imp_right fun parked => ⟨parked.1, (touch.asleep q parked.2).1⟩
  | killNext pid i =>
      simp only [advanceCall] at ran
      cases found : pidAt i with
      | none =>
          rw [found] at ran
          cases ran
          exact inv.plain (Touch.refl s c) _ entered (by simp [Falling]) (by simp [Sweeps])
      | some p =>
          simp only [found] at ran
          obtain ⟨u, took, rfl⟩ := Option.map_eq_some_iff.mp ran
          exact inv.plain (acquire_touch took).1 _ entered (by simp [Falling]) (by simp [Sweeps])
  | killHeld pid p =>
      simp only [advanceCall] at ran
      split at ran
      · obtain ⟨u, gave, rfl⟩ := Option.map_eq_some_iff.mp ran
        have touch := (release_touch gave (by unfold mark; split <;> simp_all)
          (by unfold mark; split <;> simp_all)).1
        exact inv.plain touch _ entered (by simp [Falling]) (by simp [Sweeps])
      · obtain ⟨u, gave, rfl⟩ := Option.map_eq_some_iff.mp ran
        exact inv.plain (release_plain gave) _ entered (by simp [Falling]) (by simp [Sweeps])
  | _ => cases ran

/-- A thread gives the processor up in `sched`. -/
theorem sched_inv {s t : Sys} {c : Cpu} {p : Pid} {value : Proc} {pc : Pc} (inv : Inv s)
    (runs : s.cur c = some p) (calm : s.handler c = none)
    (ran : (s.setProc p value).sched c p pc = some t) (notFalling : ¬ Falling pc)
    (asleep : value.state = .sleeping → ∃ chan lk, pc = .asleep chan lk ∧ value.chan = some chan ∧
      s.pc p = .sleepSwitch chan lk) : Inv t.tick := by
  unfold Sys.sched at ran
  split at ran
  · cases ran
    have away : ∀ {d}, d ≠ c → s.cur d ≠ some p := fun apart here => apart (inv.single _ c p here runs)
    refine inv.keep
      { held := fun _ _ => rfl
        lock := .inl rfl
        took := fun _ => .inl rfl
        clock := Nat.le_succ _
        handler := fun _ _ => rfl
        cur := fun d apart => Function.update_of_ne apart ..
        fresh := fun q d here => by simp [Sys.tick, Sys.setScan, Sys.setCur] at here
        pc := fun q mine _ => ?_
        asleep := fun q sleeps mine => ?_
        awake := fun q mine awake => ?_
        left := fun _ => .inl rfl }
      { running := fun q here => by simp [Sys.tick, Sys.setScan, Sys.setCur] at here
        sleeping := fun q mine sleeps => ?_
        falling := fun q mine falls => ?_
        pending := fun q chan lk mine pending => ?_
        threadHolds := fun q chan q' here => by simp [Sys.tick, Sys.setScan, Sys.setCur] at here
        handlerHolds := fun chan q handles => ?_
        swept := fun pc' chan i context => ?_ }
    · have apart : q ≠ p := fun same => mine (same ▸ runs)
      exact Function.update_of_ne apart ..
    · have apart : q ≠ p := fun same => mine (same ▸ runs)
      have same : ((((s.setProc p value).setPc p pc).setCur c none).setScan c (.back p)).tick.proc q =
          s.proc q := Function.update_of_ne apart ..
      rw [same] at sleeps ⊢
      exact ⟨sleeps, rfl⟩
    · have apart : q ≠ p := fun same => mine (same ▸ runs)
      have same : ((((s.setProc p value).setPc p pc).setCur c none).setScan c (.back p)).tick.proc q =
          s.proc q := Function.update_of_ne apart ..
      rwa [same]
    · rw [runs] at mine
      cases mine
      have here : ((((s.setProc p value).setPc p pc).setCur c none).setScan c (.back p)).tick.proc p =
          value := Function.update_self ..
      have at_ : ((((s.setProc p value).setPc p pc).setCur c none).setScan c (.back p)).tick.pc p =
          pc := Function.update_self ..
      rw [here] at sleeps ⊢
      obtain ⟨chan, lk, isPc, onChan, _⟩ := asleep sleeps
      exact ⟨chan, lk, at_.trans isPc, onChan⟩
    · have mine : s.cur c = some q := by
        simpa [Sys.tick, Sys.setScan, Sys.setCur] using mine
      rw [runs] at mine
      cases mine
      have at_ : ((((s.setProc p value).setPc p pc).setCur c none).setScan c (.back p)).tick.pc p =
          pc := Function.update_self ..
      rw [at_] at falls
      exact absurd falls notFalling
    · have mine : s.cur c = some q := by
        simpa [Sys.tick, Sys.setScan, Sys.setCur] using mine
      rw [runs] at mine
      cases mine
      have here : ((((s.setProc p value).setPc p pc).setCur c none).setScan c (.back p)).tick.proc p =
          value := Function.update_self ..
      have at_ : ((((s.setProc p value).setPc p pc).setCur c none).setScan c (.back p)).tick.pc p =
          pc := Function.update_self ..
      rw [Pending, here, at_] at pending
      rcases pending with switching | ⟨parked, sleeps⟩
      · exact absurd ⟨chan, lk, .inr switching⟩ notFalling
      · obtain ⟨chan', lk', isPc, _, before⟩ := asleep sleeps
        rw [isPc] at parked
        cases parked
        exact .inl (.inl before)
    · change s.handler c = _ at handles
      rw [calm] at handles
      cases handles
    · unfold Sys.context at context
      change (match s.handler c with
        | some pc => some pc
        | none => Option.map _ (Function.update s.cur c none c)) = some pc' at context
      rw [calm, Function.update_self] at context
      cases context
  · cases ran

/-- The release of `lk` inside `sleep`: from here on the thread has `p->lock` alone. -/
theorem sleepRelease_inv {s u : Sys} {c : Cpu} {p : Pid} {chan : Chan} {lk : Nat} (inv : Inv s)
    (runs : s.cur c = some p) (calm : s.handler c = none)
    (at_ : s.pc p = .sleepRelease chan lk) (gave : s.release c (.other lk) = some u) :
    Inv { u.setPc p (.sleepSwitch chan lk) with
          leftAt := Function.update u.leftAt p (u.clock + 1) }.tick := by
  obtain ⟨_, rfl⟩ := release_eq gave
  obtain ⟨d, runs', owns, _⟩ := inv.falling p ⟨chan, lk, .inl at_⟩
  rw [inv.single d c p runs' runs] at owns
  refine inv.keep
    { held := fun d away => Function.update_of_ne away ..
      lock := .inr (.inr ⟨.other lk, Function.update_self ..⟩)
      took := fun _ => .inl rfl
      clock := Nat.le_succ _
      handler := fun _ _ => rfl
      cur := fun _ _ => rfl
      fresh := fun q d here away elsewhere => away (inv.single d c q elsewhere here)
      pc := fun q mine _ => Function.update_of_ne (fun same => mine (by rw [same, runs])) ..
      asleep := fun q asleep _ => ⟨asleep, rfl⟩
      awake := fun q _ awake => awake
      left := fun q => ?_ }
    { running := fun q here => inv.running c q here
      sleeping := fun q here asleep => ?_
      falling := fun q mine _ => ?_
      pending := fun q chan' lk' mine _ => ?_
      threadHolds := fun q chan' q' here holding => ?_
      handlerHolds := fun chan' q handles => ?_
      swept := fun pc chan' i context sweeps => ?_ }
  · by_cases same : q = p
    · subst same
      exact .inr (by simp [Sys.tick])
    · exact .inl (Function.update_of_ne same ..)
  · change (s.proc q).state = _ at asleep
    rw [inv.running c q here] at asleep
    cases asleep
  · have mine : s.cur c = some q := by simpa [Sys.tick, Sys.setPc] using mine
    rw [runs] at mine
    cases mine
    refine ⟨runs, ?_, calm⟩
    change Lock.proc p ∈ Function.update s.held c _ c
    rw [Function.update_self, List.mem_erase_of_ne (by simp)]
    exact owns
  · have mine : s.cur c = some q := by simpa [Sys.tick, Sys.setPc] using mine
    rw [runs] at mine
    cases mine
    exact .inr (by simp [Sys.tick])
  · change s.cur c = some q at here
    rw [runs] at here
    cases here
    simp [Sys.tick, Sys.setPc] at holding
  · change s.handler c = _ at handles
    rw [calm] at handles
    cases handles
  · have isPc : some (Pc.sleepSwitch chan lk) = some pc := by
      simpa [Sys.context, Sys.tick, Sys.setPc, calm, runs] using context
    cases isPc
    simp [Sweeps] at sweeps

theorem advanceThread_inv {s t : Sys} {c : Cpu} {p : Pid} (inv : Inv s) (runs : s.cur c = some p)
    (calm : s.handler c = none) (ran : advanceThread s c p = some t) : Inv t.tick := by
  have here : s.context c = some (s.pc p) := by simp [Sys.context, calm, runs]
  have entered : s.context c ≠ none := by simp [here]
  have running := inv.running c p runs
  have asContext : ∀ {u : Sys}, Touch s u c → ∀ pc, u.setPc p pc = u.setContext c pc := by
    intro u touch pc
    rw [setContext_thread (by rw [touch.handler, calm]) (by rw [touch.cur, runs])]
  unfold advanceThread at ran
  split at ran
  · rename_i chan lk at_
    obtain ⟨u, took, rfl⟩ := Option.map_eq_some_iff.mp ran
    obtain ⟨touch, _, held, _⟩ := acquire_touch took
    rw [asContext touch]
    refine inv.call touch _ entered ?_ (by simp) (by simp) (by simp [Sweeps])
    refine fun _ => ⟨calm, fun q runs' => ?_⟩
    rw [runs] at runs'
    cases runs'
    simp [held]
  · rename_i chan lk at_
    obtain ⟨u, gave, rfl⟩ := Option.map_eq_some_iff.mp ran
    exact sleepRelease_inv inv runs calm at_ gave
  · rename_i chan lk at_
    exact sched_inv inv runs calm ran (by simp [Falling]) fun _ => ⟨chan, lk, rfl, rfl, at_⟩
  · rename_i lk at_
    obtain ⟨u, gave, rfl⟩ := Option.map_eq_some_iff.mp ran
    have touch := (release_touch gave (by simp [running]) fun awake => awake).1
    rw [asContext touch]
    exact inv.plain touch _ entered (by simp [Falling]) (by simp [Sweeps])
  · rename_i lk at_
    obtain ⟨u, took, rfl⟩ := Option.map_eq_some_iff.mp ran
    rw [asContext (acquire_touch took).1]
    exact inv.plain (acquire_touch took).1 _ entered (by simp [Falling]) (by simp [Sweeps])
  · rename_i back at_
    obtain ⟨u, took, rfl⟩ := Option.map_eq_some_iff.mp ran
    rw [asContext (acquire_touch took).1]
    exact inv.plain (acquire_touch took).1 _ entered (by simp [Falling]) (by simp [Sweeps])
  · rename_i back at_
    exact sched_inv inv runs calm ran (by simp [Falling]) (by simp)
  · rename_i back at_
    obtain ⟨u, gave, rfl⟩ := Option.map_eq_some_iff.mp ran
    rw [asContext (release_plain gave)]
    refine inv.plain (release_plain gave) _ entered ?_ ?_
    · cases back <;> simp [Falling, Back.pc]
    · cases back <;> simp [Sweeps, Back.pc]
  · exact advanceCall_inv inv here ran

/-- A step of a scheduler that switches to no process. -/
theorem Inv.scheduler {s t : Sys} {c : Cpu} (inv : Inv s) (touch : Touch s t c) (scan : Scan)
    (idle : s.cur c = none) (calm : s.handler c = none) : Inv (t.setScan c scan).tick := by
  have cur : (t.setScan c scan).tick.cur = s.cur := touch.cur
  have handler : (t.setScan c scan).tick.handler = s.handler := touch.handler
  have pcs : (t.setScan c scan).tick.pc = s.pc := touch.pc
  have clock : (t.setScan c scan).tick.clock = s.clock + 1 := congrArg (· + 1) touch.clock
  refine inv.keep
    { held := touch.held
      lock := touch.lock
      took := fun l => ?_
      clock := by omega
      handler := fun d _ => by rw [handler]
      cur := fun d _ => by rw [cur]
      fresh := fun q d here => by simp [cur, idle] at here
      pc := fun q _ _ => by rw [pcs]
      asleep := fun q asleep _ => touch.asleep q asleep
      awake := fun q _ awake => touch.awake q awake
      left := fun q => .inl (congrFun touch.left q) }
    { running := fun q here => by simp [cur, idle] at here
      sleeping := fun q here => by simp [idle] at here
      falling := fun q mine => by simp [cur, idle] at mine
      pending := fun q chan lk mine => by simp [cur, idle] at mine
      threadHolds := fun q chan p here => by simp [cur, idle] at here
      handlerHolds := fun chan p handles => by simp [handler, calm] at handles
      swept := fun pc chan i context => by simp [Sys.context, handler, calm, cur, idle] at context }
  rcases touch.took l with same | ⟨unheld, newer⟩
  · exact .inl same
  · refine .inr ⟨unheld, ?_⟩
    rw [clock]
    exact Nat.le_of_eq newer

theorem resume_plain (pc : Pc) : ¬ Falling (resume pc) ∧
    (∀ chan p, resume pc ≠ .wakeupHeld chan p) ∧ ∀ chan i, ¬ Sweeps (resume pc) chan i := by
  cases pc <;> simp [resume, Falling, Sweeps]

/-- The scheduler switches to a process that was ready. -/
theorem switch_inv {s : Sys} {c : Cpu} {p : Pid} (inv : Inv s) (idle : s.cur c = none)
    (ready : (s.proc p).state = .runnable) (calm : s.handler c = none) :
    Inv ((((s.setProc p { s.proc p with state := .running }).setCur c (some p)).setScan c
      (.away p)).setPc p (resume (s.pc p))).tick := by
  have nowhere : ∀ d, s.cur d ≠ some p := by
    intro d runs
    rw [inv.running d p runs] at ready
    cases ready
  obtain ⟨notFalling, notHolding, notWaking⟩ := resume_plain (s.pc p)
  generalize made : ((((s.setProc p { s.proc p with state := .running }).setCur c (some p)).setScan c
    (.away p)).setPc p (resume (s.pc p))).tick = next
  have cur : next.cur c = some p := by simp [← made, Sys.tick, Sys.setPc, Sys.setScan, Sys.setCur]
  have pcs : next.pc p = resume (s.pc p) := by simp [← made, Sys.tick, Sys.setPc]
  have state : (next.proc p).state = .running := by
    simp [← made, Sys.tick, Sys.setPc, Sys.setScan, Sys.setCur, Sys.setProc]
  have others : ∀ q, q ≠ p → next.proc q = s.proc q := by
    intro q apart
    simp [← made, Sys.tick, Sys.setPc, Sys.setScan, Sys.setCur, Sys.setProc, apart]
  have held : next.held = s.held := by rw [← made]; rfl
  have handler : next.handler = s.handler := by rw [← made]; rfl
  have mineOnly : ∀ {q}, s.cur c = some q ∨ next.cur c = some q → q = p := by
    intro q mine
    rw [idle, cur] at mine
    simpa [eq_comm] using mine
  refine inv.keep
    { held := fun d _ => by rw [held]
      lock := .inl (by rw [held])
      took := fun l => .inl (by rw [← made]; rfl)
      clock := by rw [← made]; exact Nat.le_succ _
      handler := fun d _ => by rw [handler]
      cur := fun d away => by
        rw [← made]
        exact Function.update_of_ne away ..
      fresh := fun q d here _ => by
        rw [cur] at here
        cases here
        exact nowhere d
      pc := fun q _ after => by
        have apart : q ≠ p := fun same => after (same ▸ cur)
        rw [← made]
        exact Function.update_of_ne apart ..
      asleep := fun q asleep _ => by
        have apart : q ≠ p := by
          rintro rfl
          rw [state] at asleep
          cases asleep
        rw [others q apart] at asleep ⊢
        exact ⟨asleep, rfl⟩
      awake := fun q _ awake => by
        have apart : q ≠ p := by
          rintro rfl
          rw [ready] at awake
          cases awake
        rw [others q apart, awake]
      left := fun q => .inl (by rw [← made]; rfl) }
    { running := fun q here => by
        rw [cur] at here
        cases here
        exact state
      sleeping := fun q mine => by simp [idle] at mine
      falling := fun q mine falls => by
        rw [mineOnly mine, pcs] at falls
        exact absurd falls notFalling
      pending := fun q chan lk mine pending => ?_
      threadHolds := fun q chan p' here holding => by
        rw [cur] at here
        cases here
        rw [pcs] at holding
        exact absurd holding (notHolding chan p')
      handlerHolds := fun chan q handles => by simp [handler, calm] at handles
      swept := fun pc chan i context sweeps => ?_ }
  · rw [mineOnly mine, Pending, pcs, state] at pending
    rcases pending with switching | ⟨_, asleep⟩
    · exact absurd ⟨chan, lk, .inr switching⟩ notFalling
    · cases asleep
  · have isPc : some (resume (s.pc p)) = some pc := by
      simpa [Sys.context, handler, calm, cur, pcs] using context
    cases isPc
    exact absurd sweeps (notWaking chan i)

theorem advanceScheduler_inv {s t : Sys} {c : Cpu} (inv : Inv s) (idle : s.cur c = none)
    (calm : s.handler c = none) (ran : advanceScheduler s c = some t) : Inv t.tick := by
  unfold advanceScheduler at ran
  split at ran
  · obtain ⟨u, took, rfl⟩ := Option.map_eq_some_iff.mp ran
    exact inv.scheduler (acquire_touch took).1 _ idle calm
  · rename_i p at_
    split at ran
    · rename_i ready
      cases ran
      exact switch_inv inv idle ready calm
    · cases ran
      exact inv.scheduler (Touch.refl s c) _ idle calm
  · cases ran
  · rename_i p at_
    obtain ⟨u, gave, rfl⟩ := Option.map_eq_some_iff.mp ran
    exact inv.scheduler (release_plain gave) _ idle calm

/-- An interrupt comes where the hart holds no lock, and its handler returns so. -/
theorem setHandler_inv {s : Sys} {c : Cpu} {pc : Option Pc} (inv : Inv s) (free : s.held c = [])
    (plain : pc = none ∨ pc = some .code) : Inv (s.setHandler c pc).tick := by
  have noFall : ∀ p, s.cur c = some p → ¬ Falling (s.pc p) := by
    intro p runs falls
    obtain ⟨d, runs', owns, _⟩ := inv.falling p falls
    rw [inv.single d c p runs' runs, free] at owns
    cases owns
  refine inv.keep
    { held := fun _ _ => rfl
      lock := .inl rfl
      took := fun _ => .inl rfl
      clock := Nat.le_succ _
      handler := fun d away => Function.update_of_ne away ..
      cur := fun _ _ => rfl
      fresh := fun q d here away elsewhere => away (inv.single d c q elsewhere here)
      pc := fun _ _ _ => rfl
      asleep := fun q asleep _ => ⟨asleep, rfl⟩
      awake := fun q _ awake => awake
      left := fun _ => .inl rfl }
    { running := fun q here => inv.running c q here
      sleeping := fun q here asleep => inv.sleeping q asleep
      falling := fun q mine falls => absurd falls (noFall q (by simpa [Sys.tick, Sys.setHandler] using mine))
      pending := fun q chan lk _ pending => .inl pending
      threadHolds := fun q chan p here holding => ?_
      handlerHolds := fun chan q handles => ?_
      swept := fun pc' chan i _ _ p _ lk holds => ?_ }
  · have owns := (inv.threadHolds c q chan p here holding).1
    rw [free] at owns
    cases owns
  · have isPc : pc = some (.wakeupHeld chan q) := by
      simpa [Sys.tick, Sys.setHandler] using handles
    rcases plain with none | code
    · rw [none] at isPc
      cases isPc
    · rw [code] at isPc
      cases isPc
  · change Lock.other lk ∈ s.held c at holds
    rw [free] at holds
    cases holds

theorem step_inv {s next : Sys} {label : Label} (inv : Inv s) (stepped : step s label = some next) :
    Inv next := by
  obtain ⟨t, moved, rfl⟩ := Option.map_eq_some_iff.mp stepped
  have same : ∀ {u : Sys} {c : Cpu}, Touch s u c → s.context c = some .code →
      u.setContext c .code = u := by
    intro u c touch here
    refine setContext_self ?_
    rw [← here, Sys.context, Sys.context, touch.handler, touch.cur, touch.pc]
  cases label with
  | acquire c a =>
      simp only [move] at moved
      split at moved
      · rename_i here
        have touch := (acquire_touch moved).1
        rw [← same touch here]
        exact inv.plain touch _ (by simp [here]) (by simp [Falling]) (by simp [Sweeps])
      · cases moved
  | release c a =>
      simp only [move] at moved
      split at moved
      · rename_i here
        rw [← same (release_plain moved) here]
        exact inv.plain (release_plain moved) _ (by simp [here]) (by simp [Falling]) (by simp [Sweeps])
      · cases moved
  | sleep c chan lk =>
      simp only [move] at moved
      split at moved
      · rename_i p calm runs
        split at moved
        · cases moved
          rw [← setContext_thread calm runs]
          exact inv.plain (Touch.refl s c) _ (by simp [Sys.context, calm, runs]) (by simp [Falling])
            (by simp [Sweeps])
        · cases moved
      · cases moved
  | wakeup c chan =>
      simp only [move] at moved
      split at moved
      · rename_i here
        cases moved
        refine inv.call (Touch.refl s c) _ (by simp [here]) (by simp [Falling]) (by simp) (by simp) ?_
        rintro chan' i sweeps p below
        obtain ⟨_, rfl⟩ : chan' = chan ∧ i = 0 := by simpa [Sweeps, eq_comm] using sweeps
        omega
      · cases moved
  | kill c pid =>
      simp only [move] at moved
      split at moved
      · rename_i here
        cases moved
        exact inv.plain (Touch.refl s c) _ (by simp [here]) (by simp [Falling]) (by simp [Sweeps])
      · cases moved
  | yield c back =>
      simp only [move] at moved
      split at moved
      · rename_i p calm runs
        split at moved
        · cases moved
          rw [← setContext_thread calm runs]
          exact inv.plain (Touch.refl s c) _ (by simp [Sys.context, calm, runs]) (by simp [Falling])
            (by simp [Sweeps])
        · cases moved
      · cases moved
  | interrupt c =>
      simp only [move] at moved
      split at moved
      · rename_i quiet
        cases moved
        exact setHandler_inv inv quiet.2 (.inr rfl)
      · cases moved
  | iret c =>
      simp only [move] at moved
      split at moved
      · rename_i quiet
        cases moved
        exact setHandler_inv inv quiet.2 (.inl rfl)
      · cases moved
  | advance c =>
      simp only [move] at moved
      split at moved
      · rename_i pc handles
        exact advanceCall_inv inv (by simp [Sys.context, handles]) moved
      · rename_i p calm runs
        exact advanceThread_inv inv runs calm moved
      · rename_i calm idle
        exact advanceScheduler_inv inv idle calm moved

end Invariant

section Results

variable {start s next : Sys} {labels : List Label} {c : Cpu} {chan : Chan}

theorem wakeup_returns (waking : s.context c = some (.wakeupNext chan NPROC))
    (returned : step s (.advance c) = some next) : next = (s.setContext c .code).tick := by
  have last : pidAt NPROC = none := by simp [pidAt]
  obtain ⟨t, moved, rfl⟩ := Option.map_eq_some_iff.mp returned
  simp only [move] at moved
  unfold Sys.context at waking
  split at moved
  · rename_i pc handles
    rw [handles] at waking
    cases waking
    simp only [advanceCall, last, Option.some.injEq] at moved
    rw [← moved]
  · rename_i p calm runs
    rw [calm, runs] at waking
    have at_ : s.pc p = .wakeupNext chan NPROC := by simpa using waking
    simp only [advanceThread, at_, advanceCall, last, Option.some.injEq] at moved
    rw [← moved]
  · rename_i calm idle
    rw [calm, idle] at waking
    cases waking

/-- In every run: when a `wakeup(chan)` that a hart makes with the lock `lk` held returns,
no process is still SLEEPING in a `sleep(chan, lk)` that released `lk` before the hart
acquired it. -/
theorem no_wakeup_lost (boot : Boot start) (ran : run step start labels = some s)
    (waking : s.context c = some (.wakeupNext chan NPROC))
    (returned : step s (.advance c) = some next) (lk : Nat) (holds : .other lk ∈ s.held c) (p : Pid)
    (after : s.leftAt p < s.tookAt (.other lk)) :
    ¬ ((next.proc p).state = .sleeping ∧ next.pc p = .asleep chan lk) := by
  have inv : Inv s := run_invariant step (fun _ s => Inv s) (boot_inv boot)
    (fun _ _ _ _ _ inv stepped => step_inv inv stepped) ran
  have swept := inv.swept c _ chan NPROC waking (.inl rfl) p p.isLt lk holds after
  rintro ⟨asleep, parked⟩
  rw [wakeup_returns waking returned] at asleep parked
  change ((s.setContext c .code).proc p).state = .sleeping at asleep
  change (s.setContext c .code).pc p = .asleep chan lk at parked
  rw [setContext_proc] at asleep
  rw [setContext_pc] at parked
  split at parked
  · cases parked
  · exact swept (.inr ⟨parked, asleep⟩)

/-- Every process is ready to run for the first time. -/
def ready : Sys where
  proc _ := { state := .runnable, chan := none, pid := 1, killed := false }
  held _ := []
  cur _ := none
  scan _ := .next ⟨0, nproc_pos⟩
  handler _ := none
  pc _ := .yielded .code
  clock := 0
  tookAt _ := 0
  leftAt _ := 0

/-- The first process goes to sleep on one hart; then the second wakes it on another. -/
def sleepThenWakeup : List Label :=
  let a : Cpu := ⟨0, by decide⟩
  let b : Cpu := ⟨1, by decide⟩
  List.replicate 3 (Label.advance a) ++ [Label.acquire a 7, Label.sleep a 3 7] ++
    List.replicate 4 (Label.advance a) ++ List.replicate 6 (Label.advance b) ++
    [Label.acquire b 7, Label.wakeup b 3] ++ List.replicate 127 (Label.advance b)

theorem sleepThenWakeup_wakes : ∃ s next, run step ready sleepThenWakeup = some s ∧
    step s (.advance ⟨1, by decide⟩) = some next ∧
    s.leftAt ⟨0, by decide⟩ < s.tookAt (.other 7) ∧
    ¬ ((next.proc ⟨0, by decide⟩).state = .sleeping ∧ next.pc ⟨0, by decide⟩ = .asleep 3 7) := by
  have runs : ((run step ready sleepThenWakeup).any fun s =>
      decide (s.context ⟨1, by decide⟩ = some (.wakeupNext 3 NPROC) ∧
        Lock.other 7 ∈ s.held ⟨1, by decide⟩ ∧
        s.leftAt ⟨0, by decide⟩ < s.tookAt (.other 7)) &&
      (step s (.advance ⟨1, by decide⟩)).isSome) = true := by decide +kernel
  obtain ⟨s, ran, checks⟩ := (Option.any_eq_true _ _).mp runs
  obtain ⟨facts, stepped⟩ := Bool.and_eq_true_iff.mp checks
  obtain ⟨waking, holds, after⟩ := of_decide_eq_true facts
  obtain ⟨next, returned⟩ := Option.isSome_iff_exists.mp stepped
  have boot : Boot ready :=
    ⟨fun _ => ⟨by simp [ready], by simp [ready]⟩, fun _ => rfl, fun _ => rfl, fun _ => rfl,
      fun _ => rfl, fun _ => rfl, fun _ => rfl⟩
  exact ⟨s, next, ran, returned, after, no_wakeup_lost boot ran waking returned 7 holds _ after⟩

end Results

end PaddleOs.SleepWakeup
