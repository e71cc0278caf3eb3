import PaddleOs.Scheduler

/-!
Process numbers. `allocpid` hands out the next value of one counter and compares it with
nobody's. As long as the counter has not run past the largest `int`, what it hands out is
positive and new, so the processes in use have different positive numbers. Then it goes on
with negative numbers, and later with those of processes that still live.
-/

namespace PaddleOs.Pids

open Foundation.Runs
open ProcTable (Slot ProcState Chan Proc slotAt initproc freeproc wake mark unusedProc initcode)
open Scheduler

variable {Cpu : Type}

/-- The slot that got its number and is not in use yet. -/
def Pc.numbering : Pc → Option Slot
  | .setUsed np => some np
  | .wakeup _ _ back | .sched back | .unlock back | .slept back => numbering back
  | _ => none

theorem numbering_forking {pc : Pc} {np : Slot} (numbers : Pc.numbering pc = some np) :
    pc.forking = some (np, .found) := by
  induction pc with
  | setUsed q =>
      cases numbers
      rfl
  | wakeup chan i back ih => exact ih numbers
  | sched back ih => exact ih numbers
  | unlock back ih => exact ih numbers
  | slept back ih => exact ih numbers
  | _ => cases numbers

/-- The numbers given so far: those in use are positive, below the counter unless it has
run over, and different. -/
structure Numbers (s : Machine Cpu) : Prop where
  nonneg : ∀ p, 0 ≤ (s.proc p).pid
  below : 0 < s.nextpid → ∀ p, (s.proc p).pid < s.nextpid
  apart : ∀ p q, p ≠ q → (s.proc p).pid = (s.proc q).pid → (s.proc p).pid = 0
  given : ∀ p, (s.proc p).state ≠ .unused → (s.proc p).pid ≠ 0
  numbered : ∀ t np, Pc.numbering (s.pc t) = some np → (s.proc np).pid ≠ 0

theorem booted_numbers (trapframe pagetable : Nat) : Numbers (booted trapframe pagetable : Machine Cpu) := by
  have first : ∀ p, p ≠ initproc → ((booted trapframe pagetable : Machine Cpu).proc p) = unusedProc :=
    fun p other => if_neg other
  have one : ((booted trapframe pagetable : Machine Cpu).proc initproc) = initcode trapframe pagetable := rfl
  refine ⟨fun p => ?_, fun _ p => ?_, fun p q other same => ?_, fun p used => ?_, fun t np at_ => ?_⟩
  · by_cases init : p = initproc
    · rw [init, one]
      exact (by decide : (0 : Int32) ≤ 1)
    · rw [first p init]
      exact (by decide : (0 : Int32) ≤ 0)
  · by_cases init : p = initproc
    · rw [init, one]
      exact (by decide : (1 : Int32) < 2)
    · rw [first p init]
      exact (by decide : (0 : Int32) < 2)
  · by_cases init : p = initproc
    · have last : q ≠ initproc := fun is => other (init.trans is.symm)
      rw [init, one, first q last] at same
      exact absurd same (by decide : (1 : Int32) ≠ 0)
    · rw [first p init]
      rfl
  · by_cases init : p = initproc
    · rw [init, one]
      exact (by decide : (1 : Int32) ≠ 0)
    · rw [first p init] at used
      exact absurd rfl used
  · cases at_

section Changes

variable {s s' s'' : Machine Cpu} {t q : Slot}

/-- Nothing about numbers changed. -/
structure Quiet (s s' : Machine Cpu) : Prop where
  nextpid : s'.nextpid = s.nextpid
  pid : ∀ p, (s'.proc p).pid = (s.proc p).pid
  state : ∀ p, (s'.proc p).state ≠ .unused → (s.proc p).state ≠ .unused
  numbering : ∀ t np, Pc.numbering (s'.pc t) = some np → Pc.numbering (s.pc t) = some np

theorem Quiet.refl (s : Machine Cpu) : Quiet s s := ⟨rfl, fun _ => rfl, fun _ => id, fun _ _ => id⟩

theorem Quiet.trans (first : Quiet s s') (second : Quiet s' s'') : Quiet s s'' where
  nextpid := second.nextpid.trans first.nextpid
  pid p := (second.pid p).trans (first.pid p)
  state p used := first.state p (second.state p used)
  numbering t np at_ := first.numbering t np (second.numbering t np at_)

theorem Numbers.quiet (numbers : Numbers s) (quiet : Quiet s s') : Numbers s' where
  nonneg p := by
    rw [quiet.pid]
    exact numbers.nonneg p
  below positive p := by
    rw [quiet.nextpid] at positive ⊢
    rw [quiet.pid]
    exact numbers.below positive p
  apart p q other same := by
    rw [quiet.pid, quiet.pid] at same
    rw [quiet.pid]
    exact numbers.apart p q other same
  given p used := by
    rw [quiet.pid]
    exact numbers.given p (quiet.state p used)
  numbered t np at_ := by
    rw [quiet.pid]
    exact numbers.numbered t np (quiet.numbering t np at_)

theorem Quiet.setPc (s : Machine Cpu) {pc : Pc}
    (same : Pc.numbering pc = none ∨ Pc.numbering pc = Pc.numbering (s.pc t)) : Quiet s (s.setPc t pc) := by
  refine ⟨rfl, fun _ => rfl, fun _ => id, fun u np at_ => ?_⟩
  by_cases self : u = t
  · rw [self, setPc_same] at at_
    rw [self]
    rcases same with none_ | same
    · rw [none_] at at_
      cases at_
    · exact same ▸ at_
  · rwa [setPc_other _ _ self] at at_

theorem Quiet.setProc (s : Machine Cpu) {new : Proc} (pid : new.pid = (s.proc q).pid)
    (state : new.state ≠ .unused → (s.proc q).state ≠ .unused) : Quiet s (s.setProc q new) := by
  refine ⟨rfl, fun p => ?_, fun p used => ?_, fun _ _ => id⟩
  · by_cases self : p = q
    · rw [self, setProc_same]
      exact pid
    · rw [setProc_other _ _ self]
  · by_cases self : p = q
    · rw [self, setProc_same] at used
      rw [self]
      exact state used
    · rwa [setProc_other _ _ self] at used

theorem Quiet.setLock (s : Machine Cpu) (q : Slot) (holder : Option Cpu) : Quiet s (s.setLock q holder) :=
  ⟨rfl, fun _ => rfl, fun _ => id, fun _ _ => id⟩

theorem Quiet.setPlace [DecidableEq Cpu] (s : Machine Cpu) (c : Cpu) (current : Option Slot) (place : Place) :
    Quiet s (s.setPlace c current place) :=
  ⟨rfl, fun _ => rfl, fun _ => id, fun _ _ => id⟩

theorem Quiet.stamp (s : Machine Cpu) (waitLock : Option Cpu) (events : List Event) :
    Quiet s { s with waitLock, events } :=
  ⟨rfl, fun _ => rfl, fun _ => id, fun _ _ => id⟩

theorem Quiet.wake (s : Machine Cpu) (chan : Option Chan) (q : Slot) :
    Quiet s (s.setProc q (wake chan (s.proc q))) := by
  unfold ProcTable.wake
  split
  · rename_i sleeps
    refine Quiet.setProc s rfl fun _ => ?_
    rw [sleeps.1]
    decide
  · exact Quiet.setProc s rfl id

theorem Quiet.mark (s : Machine Cpu) (q : Slot) : Quiet s (s.setProc q (mark (s.proc q))) :=
  Quiet.setProc s rfl fun used free => used (by simp [ProcTable.mark, free])

theorem lt_succ_of_pos {a : Int32} (more : 0 < a + 1) : a < a + 1 := by
  rw [Int32.lt_iff_toInt_lt, Int32.toInt_add, Int32.toInt_one] at *
  have low := Int32.le_toInt a
  have high := Int32.toInt_lt a
  rw [show (0 : Int32).toInt = 0 from rfl] at more
  rw [Int.bmod_def] at more ⊢
  omega

theorem ne_of_lt {a b : Int32} (less : a < b) : a ≠ b := by
  rintro rfl
  exact Int32.lt_irrefl less

/-- `freeproc` on a slot that nobody has numbered without using it. -/
theorem Numbers.freed (numbers : Numbers s) (idle : ∀ u, Pc.numbering (s.pc u) ≠ some q) :
    Numbers (s.setProc q (freeproc (s.proc q))) := by
  have self : (s.setProc q (freeproc (s.proc q))).proc q = freeproc (s.proc q) := setProc_same ..
  have others : ∀ p, p ≠ q → (s.setProc q (freeproc (s.proc q))).proc p = s.proc p :=
    fun p other => setProc_other _ _ other
  refine ⟨fun p => ?_, fun positive p => ?_, fun p r other same => ?_, fun p used => ?_, fun t np at_ => ?_⟩
  · by_cases freed : p = q
    · rw [freed, self]
      exact (by decide : (0 : Int32) ≤ 0)
    · rw [others p freed]
      exact numbers.nonneg p
  · by_cases freed : p = q
    · rw [freed, self]
      exact positive
    · rw [others p freed]
      exact numbers.below positive p
  · by_cases freed : p = q
    · rw [freed, self]
      rfl
    · rw [others p freed] at same ⊢
      by_cases freed' : r = q
      · rw [freed', self] at same
        exact same
      · rw [others r freed'] at same
        exact numbers.apart p r other same
  · by_cases freed : p = q
    · rw [freed, self] at used
      exact absurd rfl used
    · rw [others p freed] at used ⊢
      exact numbers.given p used
  · have apart : np ≠ q := by
      rintro rfl
      exact idle t at_
    rw [others np apart]
    exact numbers.numbered t np at_

/-- `allocpid` before the counter has run over. -/
theorem Numbers.number (numbers : Numbers s) (positive : 0 < s.nextpid) {np : Slot} :
    Numbers (({ s with nextpid := s.nextpid + 1 }.setProc np { s.proc np with pid := s.nextpid }).setPc t
      (.setUsed np)) := by
  have self : (({ s with nextpid := s.nextpid + 1 }.setProc np { s.proc np with pid := s.nextpid }).setPc t
      (.setUsed np)).proc np = { s.proc np with pid := s.nextpid } := setProc_same ..
  have others : ∀ p, p ≠ np → (({ s with nextpid := s.nextpid + 1 }.setProc np
      { s.proc np with pid := s.nextpid }).setPc t (.setUsed np)).proc p = s.proc p :=
    fun p other => setProc_other _ _ other
  have nonzero : s.nextpid ≠ 0 := fun zero => by
    rw [zero] at positive
    exact absurd positive (by decide)
  refine ⟨fun p => ?_, fun more p => ?_, fun p r other same => ?_, fun p used => ?_, fun u slot at_ => ?_⟩
  · by_cases new : p = np
    · rw [new, self]
      exact Int32.le_of_lt positive
    · rw [others p new]
      exact numbers.nonneg p
  · have grown := lt_succ_of_pos more
    by_cases new : p = np
    · rw [new, self]
      exact grown
    · rw [others p new]
      exact Int32.lt_trans (numbers.below positive p) grown
  · by_cases new : p = np
    · rw [new, self, others r fun is => other (new.trans is.symm)] at same
      exact absurd same.symm (ne_of_lt (numbers.below positive r))
    · rw [others p new] at same ⊢
      by_cases new' : r = np
      · rw [new', self] at same
        exact absurd same (ne_of_lt (numbers.below positive p))
      · rw [others r new'] at same
        exact numbers.apart p r other same
  · by_cases new : p = np
    · rw [new, self]
      exact nonzero
    · rw [others p new] at used ⊢
      exact numbers.given p used
  · by_cases new : slot = np
    · rw [new, self]
      exact nonzero
    · rw [others slot new]
      by_cases mine : u = t
      · rw [mine, setPc_same] at at_
        exact absurd (Option.some.inj at_).symm new
      · rw [setPc_other _ _ mine] at at_
        exact numbers.numbered u slot at_

/-- The numbered slot is in use from now on. -/
theorem Numbers.use (numbers : Numbers s) {np : Slot} (at_ : s.pc t = .setUsed np) :
    Numbers ((s.setProc np { s.proc np with state := .used }).setPc t (.allocTrapframe np)) := by
  have pid : ∀ p, (((s.setProc np { s.proc np with state := .used }).setPc t (.allocTrapframe np)).proc p).pid =
      (s.proc p).pid := by
    intro p
    change ((s.setProc np _).proc p).pid = _
    by_cases new : p = np
    · rw [new, setProc_same]
    · rw [setProc_other _ _ new]
  refine ⟨fun p => ?_, fun more p => ?_, fun p r other same => ?_, fun p used => ?_, fun u slot now => ?_⟩
  · rw [pid]
    exact numbers.nonneg p
  · rw [pid]
    exact numbers.below more p
  · rw [pid, pid] at same
    rw [pid]
    exact numbers.apart p r other same
  · rw [pid]
    by_cases new : p = np
    · rw [new]
      refine numbers.numbered t np ?_
      rw [at_]
      rfl
    · change ((s.setProc np _).proc p).state ≠ _ at used
      rw [setProc_other _ _ new] at used
      exact numbers.given p used
  · rw [pid]
    by_cases mine : u = t
    · rw [mine, setPc_same] at now
      cases now
    · rw [setPc_other _ _ mine] at now
      exact numbers.numbered u slot now

end Changes

section Steps

variable {s s' : Machine Cpu} {c : Cpu} {t q : Slot}

/-- A slot that is forked into behind its number has been numbered by nobody else. -/
theorem unnumbered_of_forking (inv : Inv s) {stage : Stage} (forks : (s.pc t).forking = some (q, stage))
    (later : stage ≠ .found) (u : Slot) : Pc.numbering (s.pc u) ≠ some q := by
  intro numbers
  have found := numbering_forking numbers
  obtain rfl := inv.forker u t q _ _ found forks
  rw [found] at forks
  cases forks
  exact later rfl

theorem unnumbered_of_busy (inv : Inv s) (busy : (s.proc q).state ≠ .unused) (u : Slot) :
    Pc.numbering (s.pc u) ≠ some q := by
  intro numbers
  exact busy (inv.standing u q _ (numbering_forking numbers)).1

theorem Numbers.giveUp (numbers : Numbers s) (idle : ∀ u, Pc.numbering (s.pc u) ≠ some q) :
    Numbers (s.giveUp t q) :=
  ((numbers.freed idle).quiet (Quiet.setPc _ (.inl rfl))).quiet (Quiet.setLock _ _ _)

theorem begin_numbers {call : Call} (numbers : Numbers s) (used : (s.proc t).state ≠ .unused)
    (began : begin s c t call = some s') : Numbers s' := by
  cases call with
  | fork =>
      cases began
      exact numbers.quiet (Quiet.setPc _ (.inl rfl))
  | exit status =>
      simp only [begin] at began
      split at began
      · cases began
      · cases began
        exact numbers.quiet (Quiet.setPc _ (.inl rfl))
  | wait addr =>
      cases began
      exact numbers.quiet (Quiet.setPc _ (.inl rfl))
  | kill pid =>
      cases began
      exact numbers.quiet (Quiet.setPc _ (.inl rfl))
  | setkilled =>
      simp only [begin] at began
      split at began
      · cases began
        exact numbers.quiet (Quiet.setProc _ rfl fun _ => used)
      · cases began
  | sleep chan =>
      simp only [begin] at began
      split at began
      · cases began
        refine Numbers.quiet ?_ (Quiet.setPc _ (.inl rfl))
        exact (numbers.quiet (Quiet.setLock s t (some c))).quiet (Quiet.setProc _ rfl fun _ => used)
      · cases began
  | wakeup chan =>
      cases began
      exact numbers.quiet (Quiet.setPc _ (.inl rfl))

theorem allocprocStep_numbers {i : Nat} (numbers : Numbers s)
    (ran : allocprocStep s c t i = some s') : Numbers s' := by
  unfold allocprocStep at ran
  split at ran
  · cases ran
    exact numbers.quiet (Quiet.setPc _ (.inl rfl))
  · split at ran
    · split at ran
      · cases ran
        exact (numbers.quiet (Quiet.setLock _ _ _)).quiet (Quiet.setPc _ (.inl rfl))
      · cases ran
        exact numbers.quiet (Quiet.setPc _ (.inl rfl))
    · cases ran

theorem wakeupStep_numbers {chan : Option Chan} {i : Nat} {back : Pc} (numbers : Numbers s)
    (at_ : s.pc t = .wakeup chan i back) (ran : wakeupStep s t chan i back = some s') : Numbers s' := by
  have same : Pc.numbering back = Pc.numbering (s.pc t) := by
    rw [at_]
    rfl
  unfold wakeupStep at ran
  split at ran
  · cases ran
    exact numbers.quiet (Quiet.setPc _ (.inr same))
  · split at ran
    · cases ran
      exact numbers.quiet (Quiet.setPc _ (.inr same))
    · split at ran
      · cases ran
        exact (numbers.quiet (Quiet.wake _ _ _)).quiet (Quiet.setPc _ (.inr same))
      · cases ran

theorem waitScanStep_numbers {i addr : Nat} {havekids : Bool} (numbers : Numbers s)
    (ran : waitScanStep s c t i havekids addr = some s') : Numbers s' := by
  unfold waitScanStep at ran
  split at ran
  · split at ran
    · cases ran
      exact numbers.quiet (Quiet.setPc _ (.inl rfl))
    · cases ran
      exact (numbers.quiet (Quiet.setPc _ (.inl rfl))).quiet (Quiet.stamp _ _ _)
  · split at ran
    · split at ran
      · cases ran
        exact (numbers.quiet (Quiet.setLock _ _ _)).quiet (Quiet.setPc _ (.inl rfl))
      · cases ran
    · cases ran
      exact numbers.quiet (Quiet.setPc _ (.inl rfl))

theorem waitChildStep_numbers {pp : Slot} {addr : Nat} (copied : Bool) (inv : Inv s) (numbers : Numbers s) :
    Numbers (waitChildStep s t pp addr copied) := by
  unfold waitChildStep
  split
  · rename_i zombie
    split
    · exact ((numbers.quiet (Quiet.setPc _ (.inl rfl))).quiet (Quiet.setLock _ _ _)).quiet (Quiet.stamp _ _ _)
    · have busy : (s.proc pp).state ≠ .unused := by
        rw [zombie]
        decide
      have freed := numbers.freed (unnumbered_of_busy inv busy)
      exact ((freed.quiet (Quiet.setPc _ (.inl rfl))).quiet (Quiet.setLock _ _ _)).quiet (Quiet.stamp _ _ _)
  · exact (numbers.quiet (Quiet.setPc _ (.inl rfl))).quiet (Quiet.setLock _ _ _)

theorem killStep_numbers {pid : Int32} {i : Nat} (numbers : Numbers s)
    (ran : killStep s t pid i = some s') : Numbers s' := by
  unfold killStep at ran
  split at ran
  · cases ran
    exact numbers.quiet (Quiet.setPc _ (.inl rfl))
  · split at ran
    · split at ran
      · cases ran
        exact (numbers.quiet (Quiet.mark _ _)).quiet (Quiet.setPc _ (.inl rfl))
      · cases ran
        exact numbers.quiet (Quiet.setPc _ (.inl rfl))
    · cases ran

/-- The process on a CPU is in use. -/
theorem used_of_mine (inv : Inv s) (here : s.myproc c = some t) : (s.proc t).state ≠ .unused := by
  rcases inv.away c t (inv.mine here) with ⟨running, -⟩ | ⟨next, -, departs⟩
  · rw [running]
    decide
  · exact departs.busy.2.1

variable [DecidableEq Cpu]

theorem advance_numbers {answer : Nat} (inv : Inv s) (used : (s.proc t).state ≠ .unused) (numbers : Numbers s)
    (positive : ∀ np, s.pc t = .allocpid np → 0 < s.nextpid) (ran : advance s c t answer = some s') :
    Numbers s' := by
  cases at_ : s.pc t with
  | user => simp only [advance, at_, reduceCtorEq] at ran
  | zombieExit => simp only [advance, at_, reduceCtorEq] at ran
  | sched next =>
      simp only [advance, at_, swtch] at ran
      split at ran
      · cases ran
        refine (numbers.quiet (Quiet.setPc _ (.inr ?_))).quiet (Quiet.setPlace _ _ _ _)
        rw [at_]
        rfl
      · cases ran
  | unlock back =>
      simp only [advance, at_] at ran
      cases ran
      refine (numbers.quiet (Quiet.setPc _ (.inr ?_))).quiet (Quiet.setLock _ _ _)
      rw [at_]
      rfl
  | slept back =>
      simp only [advance, at_] at ran
      cases ran
      have woken : Numbers (s.setProc t { s.proc t with chan := none }) :=
        numbers.quiet (Quiet.setProc s rfl fun _ => used)
      refine (woken.quiet (Quiet.setPc _ (.inr ?_))).quiet (Quiet.setLock _ _ _)
      change _ = Pc.numbering (s.pc t)
      rw [at_]
      rfl
  | forkret =>
      simp only [advance, at_] at ran
      cases ran
      exact (numbers.quiet (Quiet.setPc _ (.inl rfl))).quiet (Quiet.setLock _ _ _)
  | allocproc i =>
      simp only [advance, at_] at ran
      exact allocprocStep_numbers numbers ran
  | allocpid np =>
      simp only [advance, at_] at ran
      cases ran
      exact numbers.number (positive np at_)
  | setUsed np =>
      simp only [advance, at_] at ran
      cases ran
      exact numbers.use at_
  | allocTrapframe np =>
      have idle := unnumbered_of_forking inv (by rw [at_]; rfl) (by decide : Stage.locked ≠ .found)
      have filled : Numbers (s.setProc np { s.proc np with trapframe := answer }) :=
        numbers.quiet (Quiet.setProc s rfl id)
      simp only [advance, at_] at ran
      split at ran
      · cases ran
        exact filled.giveUp idle
      · cases ran
        exact filled.quiet (Quiet.setPc _ (.inl rfl))
  | allocPagetable np =>
      have idle := unnumbered_of_forking inv (by rw [at_]; rfl) (by decide : Stage.locked ≠ .found)
      have filled : Numbers (s.setProc np { s.proc np with pagetable := answer }) :=
        numbers.quiet (Quiet.setProc s rfl id)
      simp only [advance, at_] at ran
      split at ran
      · cases ran
        exact filled.giveUp idle
      · cases ran
        exact (filled.quiet (Quiet.setPc _ (.inl rfl))).quiet (Quiet.setPc _ (.inl rfl))
  | uvmcopy np =>
      have idle := unnumbered_of_forking inv (by rw [at_]; rfl) (by decide : Stage.filled ≠ .found)
      simp only [advance, at_] at ran
      split at ran
      · cases ran
        exact numbers.giveUp idle
      · cases ran
        have filled : Numbers (s.setProc np { s.proc np with sz := (s.proc t).sz }) :=
          numbers.quiet (Quiet.setProc s rfl id)
        exact (filled.quiet (Quiet.setPc _ (.inl rfl))).quiet (Quiet.setLock _ _ _)
  | setParent np pid =>
      simp only [advance, at_] at ran
      split at ran
      · cases ran
        refine Numbers.quiet ?_ (Quiet.setPc _ (.inl rfl))
        exact numbers.quiet (Quiet.setProc s rfl id)
      · cases ran
  | setRunnable np pid =>
      have standing := inv.standing t np .released (by rw [at_]; rfl)
      simp only [advance, at_] at ran
      split at ran
      · cases ran
        refine Numbers.quiet ?_ (Quiet.setPc _ (.inl rfl))
        refine numbers.quiet (Quiet.setProc s rfl fun _ => ?_)
        rw [standing.1]
        decide
      · cases ran
  | exitLock status =>
      simp only [advance, at_] at ran
      split at ran
      · cases ran
        exact (numbers.quiet (Quiet.stamp s _ s.events)).quiet (Quiet.setPc _ (.inl rfl))
      · cases ran
  | reparent i status =>
      simp only [advance, at_] at ran
      split at ran
      · cases ran
        exact numbers.quiet (Quiet.setPc _ (.inl rfl))
      · split at ran
        · cases ran
          refine Numbers.quiet ?_ (Quiet.setPc _ (.inl rfl))
          exact numbers.quiet (Quiet.setProc s rfl id)
        · cases ran
          exact numbers.quiet (Quiet.setPc _ (.inl rfl))
  | wakeParent status =>
      simp only [advance, at_] at ran
      cases ran
      exact numbers.quiet (Quiet.setPc _ (.inl rfl))
  | zombieLock status =>
      simp only [advance, at_] at ran
      split at ran
      · cases ran
        exact (numbers.quiet (Quiet.setLock _ _ _)).quiet (Quiet.setPc _ (.inl rfl))
      · cases ran
  | setZombie status =>
      simp only [advance, at_] at ran
      cases ran
      have dead : Numbers (s.setProc t { s.proc t with xstate := status, state := .zombie }) :=
        numbers.quiet (Quiet.setProc s rfl fun _ => used)
      exact (dead.quiet (Quiet.setPc _ (.inl rfl))).quiet (Quiet.stamp _ _ _)
  | waitLock addr =>
      simp only [advance, at_] at ran
      split at ran
      · cases ran
        exact (numbers.quiet (Quiet.stamp s _ s.events)).quiet (Quiet.setPc _ (.inl rfl))
      · cases ran
  | waitScan i havekids addr =>
      simp only [advance, at_] at ran
      exact waitScanStep_numbers numbers ran
  | waitChild pp addr =>
      simp only [advance, at_] at ran
      cases ran
      exact waitChildStep_numbers _ inv numbers
  | waitKilled addr =>
      simp only [advance, at_] at ran
      split at ran
      · split at ran
        · cases ran
          exact (numbers.quiet (Quiet.setPc _ (.inl rfl))).quiet (Quiet.stamp _ _ _)
        · cases ran
          exact numbers.quiet (Quiet.setPc _ (.inl rfl))
      · cases ran
  | waitSleep addr =>
      simp only [advance, at_] at ran
      split at ran
      · cases ran
        exact (numbers.quiet (Quiet.setLock _ _ _)).quiet (Quiet.setPc _ (.inl rfl))
      · cases ran
  | waitFall addr =>
      simp only [advance, at_] at ran
      cases ran
      have asleep : Numbers (s.setProc t { s.proc t with chan := some (.proc t), state := .sleeping }) :=
        numbers.quiet (Quiet.setProc s rfl fun _ => used)
      exact (asleep.quiet (Quiet.setPc _ (.inl rfl))).quiet (Quiet.stamp _ _ _)
  | kill pid i =>
      simp only [advance, at_] at ran
      exact killStep_numbers numbers ran
  | wakeup chan i back =>
      simp only [advance, at_] at ran
      exact wakeupStep_numbers numbers at_ ran

theorem schedule_numbers (numbers : Numbers s) (ran : schedule s c = some s') : Numbers s' := by
  unfold schedule at ran
  split at ran
  · split at ran
    · cases ran
      exact numbers.quiet (Quiet.setPlace _ _ _ _)
    · split at ran
      · cases ran
        exact (numbers.quiet (Quiet.setLock _ _ _)).quiet (Quiet.setPlace _ _ _ _)
      · cases ran
  · split at ran
    · rename_i runnable
      cases ran
      refine Numbers.quiet ?_ (Quiet.setPlace _ _ _ _)
      refine numbers.quiet (Quiet.setProc s rfl fun _ => ?_)
      rw [runnable]
      decide
    · cases ran
      exact (numbers.quiet (Quiet.setPlace _ _ _ _)).quiet (Quiet.setLock _ _ _)
  · cases ran
    exact (numbers.quiet (Quiet.setPlace _ _ _ _)).quiet (Quiet.setLock _ _ _)
  · cases ran

/-- `allocpid` finds a positive counter. -/
def Counts (s : Machine Cpu) : Label Cpu → Prop
  | .advance c _ => ∀ t np, s.myproc c = some t → s.pc t = .allocpid np → 0 < s.nextpid
  | _ => True

theorem step_numbers {label : Label Cpu} (inv : Inv s) (numbers : Numbers s) (counts : Counts s label)
    (stepped : step s label = some s') : Numbers s' := by
  cases label with
  | schedule c => exact schedule_numbers numbers stepped
  | call c call =>
      obtain ⟨t, here, ran⟩ := Option.bind_eq_some_iff.mp stepped
      split at ran
      · exact begin_numbers numbers (used_of_mine inv here) ran
      · cases ran
  | advance c answer =>
      obtain ⟨t, here, ran⟩ := Option.bind_eq_some_iff.mp stepped
      exact advance_numbers inv (used_of_mine inv here) numbers (fun np => counts t np here) ran
  | yield c =>
      obtain ⟨t, here, ran⟩ := Option.bind_eq_some_iff.mp stepped
      split at ran
      · cases ran
        have used := used_of_mine inv here
        refine Numbers.quiet ?_ (Quiet.setPc _ (.inr rfl))
        refine Numbers.quiet ?_ (Quiet.setProc _ rfl fun _ => used)
        exact numbers.quiet (Quiet.setLock _ _ _)
      · cases ran
  | interrupt chan p =>
      rw [step] at stepped
      split at stepped
      · cases stepped
        exact numbers.quiet (Quiet.wake _ _ _)
      · cases stepped

/-- While the counter has not run past the largest `int`, the processes in use have
different positive numbers. -/
theorem live_pids_differ (trapframe pagetable : Nat) {labels : List (Label Cpu)}
    (ran : run step (booted trapframe pagetable) labels = some s)
    (counts : ∀ before label after middle, labels = before ++ label :: after →
      run step (booted trapframe pagetable) before = some middle → Counts middle label) :
    (∀ p q, p ≠ q → (s.proc p).state ≠ .unused → (s.proc q).state ≠ .unused →
      (s.proc p).pid ≠ (s.proc q).pid) ∧
    ∀ p, (s.proc p).state ≠ .unused → 0 < (s.proc p).pid := by
  have reached : Inv s ∧ Numbers s := by
    refine run_invariant_where step Counts (fun s => Inv s ∧ Numbers s)
      ⟨booted_inv trapframe pagetable, booted_numbers trapframe pagetable⟩ ?_ ran counts
    rintro s label s' ⟨inv, numbers⟩ met stepped
    exact ⟨step_inv inv stepped, step_numbers inv numbers met stepped⟩
  obtain ⟨-, numbers⟩ := reached
  refine ⟨fun p q other used _ same => ?_, fun p used => ?_⟩
  · exact numbers.given p used (numbers.apart p q other same)
  · have nonneg := numbers.nonneg p
    have given := numbers.given p used
    rcases Int32.lt_or_eq_of_le nonneg with less | zero
    · exact less
    · exact absurd zero.symm given

end Steps

section Wrapping

open ProcTable (secondProc)

/-- The first process is at work and every other slot is free. -/
def atWork (nextpid : Int32) : Machine Unit where
  proc p := if p = initproc then { initcode 2 3 with state := .running } else unusedProc
  lock _ := none
  waitLock := none
  nextpid
  pc p := if p = initproc then .user else .forkret
  current _ := some initproc
  place _ := .away initproc
  events := []

/-- The first process is switched to and leaves `forkret`. -/
def start : List (Label Unit) := [.schedule (), .schedule (), .advance () 0]

/-- A `fork` for which `kalloc` has no page. -/
def failedFork : List (Label Unit) := .call () .fork :: List.replicate 5 (.advance () 0)

/-- A `fork` that makes a process. -/
def madeFork : List (Label Unit) := .call () .fork :: [0, 0, 0, 0, 7, 8, 1, 0, 0].map (.advance ())

theorem machine_ext {s s' : Machine Unit} (proc : ∀ p, s.proc p = s'.proc p)
    (lock : ∀ p, s.lock p = s'.lock p) (waitLock : s.waitLock = s'.waitLock)
    (nextpid : s.nextpid = s'.nextpid) (pc : ∀ p, s.pc p = s'.pc p)
    (current : s.current () = s'.current ()) (place : s.place () = s'.place ())
    (events : s.events = s'.events) : s = s' := by
  cases s
  cases s'
  simp only [Machine.mk.injEq]
  exact ⟨funext proc, funext lock, waitLock, nextpid, funext pc, funext fun _ => current,
    funext fun _ => place, events⟩

theorem start_atWork : run step (booted 2 3) start = some (atWork 2) := by
  refine congrArg some (machine_ext (fun p => ?_) (fun p => ?_) rfl rfl (fun p => ?_) rfl rfl rfl)
  all_goals
    by_cases first : p = initproc
    · subst first
      rfl
    simp only [initproc] at first
    simp only [Machine.setPc, Machine.setProc, Machine.setLock, Machine.setPlace, Function.update_of_ne, ne_eq,
      first, not_false_eq_true]
  · exact (if_neg first).trans (if_neg first).symm
  · rfl
  · exact (if_neg first).symm

/-- The counter is positive before each step. -/
def stays (s : Machine Unit) : List (Label Unit) → Bool
  | [] => true
  | label :: rest => decide (0 < s.nextpid) && (step s label).all fun next => stays next rest

theorem stays_counts {s middle : Machine Unit} {before after : List (Label Unit)} {label : Label Unit}
    (positive : stays s (before ++ label :: after) = true) (ran : run step s before = some middle) :
    Counts middle label := by
  induction before generalizing s with
  | nil =>
      cases ran
      have first := of_decide_eq_true ((Bool.and_eq_true _ _).mp positive).1
      cases label with
      | advance c answer => exact fun _ _ _ _ => first
      | _ => trivial
  | cons head rest ih =>
      obtain ⟨next, stepped, later⟩ := Option.bind_eq_some_iff.mp ran
      have tail := ((Bool.and_eq_true _ _).mp positive).2
      rw [stepped] at tail
      exact ih tail later

/-- The first process forks. -/
theorem live_pids_differ_fork : ∃ s : Machine Unit, run step (booted 2 3) (start ++ madeFork) = some s ∧
    (s.proc initproc).pid ≠ (s.proc secondProc).pid := by
  have ran : ∃ s, run step (booted 2 3) (start ++ madeFork) = some s ∧
      (s.proc initproc).state = .running ∧ (s.proc secondProc).state = .runnable := ⟨_, rfl, rfl, rfl⟩
  obtain ⟨s, ran, state, state'⟩ := ran
  have positive : stays (booted 2 3) (start ++ madeFork) = true := by decide +kernel
  have differ := live_pids_differ 2 3 ran fun before label after middle split upTo =>
    stays_counts (split ▸ positive) upTo
  refine ⟨s, ran, differ.1 initproc secondProc (by decide) ?_ ?_⟩
  · rw [state]
    decide
  · rw [state']
    decide

/-- A fork that fails leaves nothing behind but the counter. -/
theorem failedFork_atWork (n : Int32) : run step (atWork n) failedFork = some (atWork (n + 1)) := by
  refine congrArg some (machine_ext (fun p => ?_) (fun p => ?_) rfl rfl (fun p => ?_) rfl rfl rfl)
  all_goals
    by_cases first : p = initproc
    · subst first
      rfl
    by_cases second : p = secondProc
    · subst second
      rfl
    simp only [initproc, secondProc] at first second ⊢
    simp only [Machine.setPc, Machine.setProc, Machine.setLock, Machine.giveUp, Function.update_of_ne, ne_eq,
      first, second, not_false_eq_true, Nat.zero_add]
    rfl

theorem failedForks_atWork (n : Nat) (first : Int32) :
    run step (atWork first) (List.replicate n failedFork).flatten = some (atWork (first + Int32.ofNat n)) := by
  induction n generalizing first with
  | zero =>
      have none_ : first + Int32.ofNat 0 = first := Int32.add_zero first
      rw [none_]
      rfl
  | succ n ih =>
      rw [List.replicate_succ, List.flatten_cons, run_append, failedFork_atWork, Option.bind_some, ih,
        Int32.ofNat_add, Int32.add_assoc, Int32.add_comm 1]
      rfl

/-- A process is made after `n` forks that failed. -/
theorem numbered_after (n : Nat) : ∃ s : Machine Unit,
    run step (booted 2 3) (start ++ (List.replicate n failedFork).flatten ++ madeFork) = some s ∧
    s.lock initproc = none ∧ s.lock secondProc = none ∧ (s.proc initproc).state ≠ .unused ∧
    (s.proc secondProc).state ≠ .unused ∧ (s.proc initproc).pid = 1 ∧
    (s.proc secondProc).pid = 2 + Int32.ofNat n := by
  have ran : ∃ s, run step (atWork (2 + Int32.ofNat n)) madeFork = some s ∧
      s.lock initproc = none ∧ s.lock secondProc = none ∧ (s.proc initproc).state = .running ∧
      (s.proc secondProc).state = .runnable ∧ (s.proc initproc).pid = 1 ∧
      (s.proc secondProc).pid = 2 + Int32.ofNat n :=
    ⟨_, rfl, rfl, rfl, rfl, rfl, rfl, rfl⟩
  obtain ⟨s, ran, lock, lock', state, state', pid, pid'⟩ := ran
  refine ⟨s, ?_, lock, lock', by rw [state]; decide, by rw [state']; decide, pid, pid'⟩
  rw [run_append, run_append, start_atWork, Option.bind_some, failedForks_atWork, Option.bind_some, ran]

/-- After enough calls of `fork` a child is given the number of the first process, and before
that one below zero. -/
theorem pids_run_over :
    (∃ (labels : List (Label Unit)) (s : Machine Unit) (p q : Slot), run step (booted 2 3) labels = some s ∧
      p ≠ q ∧ s.lock p = none ∧ s.lock q = none ∧ (s.proc p).state ≠ .unused ∧ (s.proc q).state ≠ .unused ∧
      (s.proc p).pid = (s.proc q).pid) ∧
    ∃ (labels : List (Label Unit)) (s : Machine Unit) (p : Slot), run step (booted 2 3) labels = some s ∧
      s.lock p = none ∧ (s.proc p).state ≠ .unused ∧ (s.proc p).pid < 0 := by
  constructor
  · obtain ⟨s, ran, lock, lock', used, used', pid, pid'⟩ := numbered_after (2 ^ 32 - 1)
    refine ⟨_, s, initproc, secondProc, ran, by decide, lock, lock', used, used', ?_⟩
    rw [pid, pid']
    decide
  · obtain ⟨s, ran, -, lock', -, used', -, pid'⟩ := numbered_after (2 ^ 31 - 2)
    refine ⟨_, s, secondProc, ran, lock', used', ?_⟩
    rw [pid']
    decide

end Wrapping

end PaddleOs.Pids
