import PaddleOs.Scheduler

/-!
Parents and children. Every process but the first has a parent that is alive, a parent asleep
in `wait` has no zombie child unless the wakeup for it is on its way, and what a process
passes to `exit` goes to one `wait` of its parent. Behind all this is `wait_lock`: whoever
holds it is on a CPU, and `parent` fields and zombies change under it only.
-/

namespace PaddleOs.Parents

open Foundation.Runs
open ProcTable (Slot ProcState Chan Proc slotAt initproc freeproc wake mark unusedProc initcode)
open Scheduler

variable {Cpu : Type}

section Places

/-- The thread holds `wait_lock`. -/
def Pc.waits : Pc → Bool
  | .reparent _ _ | .wakeParent _ | .zombieLock _ | .setZombie _ => true
  | .waitScan _ _ _ | .waitChild _ _ | .waitKilled _ | .waitSleep _ | .waitFall _ => true
  | .wakeup _ _ back => waits back
  | _ => false

/-- Slots below this have been given to `initproc` by a thread that exits. -/
def Pc.cleared : Pc → Option Nat
  | .reparent i _ => some i
  | .wakeParent _ | .zombieLock _ | .setZombie _ => some NPROC
  | .wakeup _ _ back => cleared back
  | _ => none

/-- Slots below this have been searched for zombies by a thread in `wait`. -/
def Pc.scanned : Pc → Option Nat
  | .waitScan i _ _ => some i
  | .waitChild pp _ => some pp
  | .waitKilled _ | .waitSleep _ | .waitFall _ => some NPROC
  | _ => none

/-- Slots below this have been woken by an exiting thread that wakes its parent. -/
def Pc.roused : Pc → Option Nat
  | .wakeup _ i (.zombieLock _) => some i
  | .zombieLock _ | .setZombie _ => some NPROC
  | _ => none

/-- The slot a forking thread has made its child and not yet started. -/
def Pc.fostering : Pc → Option Slot
  | .setRunnable np _ => some np
  | .wakeup _ _ back | .sched back | .unlock back | .slept back => fostering back
  | _ => none

def Pc.exiting : Pc → Bool
  | .exitLock _ | .reparent _ _ | .wakeParent _ | .zombieLock _ | .setZombie _ | .zombieExit => true
  | .wakeup _ _ back | .sched back | .unlock back | .slept back => exiting back
  | _ => false

/-- `wakeup` is called from `exit` and, without spinlocks, from elsewhere. -/
def Pc.returns : Pc → Bool
  | .wakeup _ _ back =>
      match back with
      | .user | .reparent _ _ | .zombieLock _ => true
      | _ => false
  | .sched back | .unlock back | .slept back => returns back
  | _ => true

/-- In the `sleep` of `wait`. -/
def Pc.napping : Pc → Bool
  | .sched next => napping next
  | .slept (.waitLock _) => true
  | _ => false

variable {pc : Pc}

theorem plain_waits (plain : pc.plain = true) : Pc.waits pc = false := by
  induction pc with
  | wakeup chan i back ih => exact ih plain
  | user => rfl
  | allocproc i => rfl
  | setParent np pid => rfl
  | setRunnable np pid => rfl
  | exitLock status => rfl
  | waitLock addr => rfl
  | kill pid i => rfl
  | _ => cases plain

theorem rests_waits (rests : pc.rests = true) : Pc.waits pc = false := by
  cases pc with
  | unlock back => rfl
  | slept back => rfl
  | forkret => rfl
  | _ => cases rests

theorem cleared_waits {n : Nat} (cleared : Pc.cleared pc = some n) : Pc.waits pc = true := by
  induction pc with
  | wakeup chan i back ih => exact ih cleared
  | reparent i status => rfl
  | wakeParent status => rfl
  | zombieLock status => rfl
  | setZombie status => rfl
  | _ => cases cleared

theorem cleared_exiting {n : Nat} (cleared : Pc.cleared pc = some n) : Pc.exiting pc = true := by
  induction pc with
  | wakeup chan i back ih => exact ih cleared
  | reparent i status => rfl
  | wakeParent status => rfl
  | zombieLock status => rfl
  | setZombie status => rfl
  | _ => cases cleared

theorem scanned_waits {n : Nat} (scanned : Pc.scanned pc = some n) : Pc.waits pc = true := by
  cases pc with
  | waitScan i havekids addr => rfl
  | waitChild pp addr => rfl
  | waitKilled addr => rfl
  | waitSleep addr => rfl
  | waitFall addr => rfl
  | _ => cases scanned

theorem roused_waits {n : Nat} (roused : Pc.roused pc = some n) : Pc.waits pc = true := by
  cases pc with
  | wakeup chan i back =>
      cases back with
      | zombieLock status => rfl
      | _ => cases roused
  | zombieLock status => rfl
  | setZombie status => rfl
  | _ => cases roused

/-- A slot with a parent that is not started yet is still being forked into. -/
theorem fostering_forking {np : Slot} (fosters : Pc.fostering pc = some np) :
    pc.forking = some (np, .released) := by
  induction pc with
  | wakeup chan i back ih => exact ih fosters
  | sched next ih => exact ih fosters
  | unlock back ih => exact ih fosters
  | slept back ih => exact ih fosters
  | setRunnable np pid =>
      cases fosters
      rfl
  | _ => cases fosters

end Places

section History

/-- The pid and status of an exit of `p` that no `wait` has got, newest event first. -/
def pending (p : Slot) : List Event → Option (Int32 × Int32)
  | [] => none
  | .exited q pid status :: rest => if q = p then some (pid, status) else pending p rest
  | .reaped _ q _ _ _ :: rest => if q = p then none else pending p rest

/-- Exits and waits of `p` take turns, with the same pid and status, and the `wait` is its
parent's. -/
def Served (p : Slot) : List Event → Prop
  | [] => True
  | .exited q _ _ :: rest => (q = p → pending p rest = none) ∧ Served p rest
  | .reaped t q parent pid status :: rest =>
      (q = p → parent = some t ∧ pending p rest = some (pid, status)) ∧ Served p rest

def Event.about : Event → Slot
  | .exited p _ _ => p
  | .reaped _ p _ _ _ => p

/-- A pending exit is the last event of its slot. -/
theorem pending_split {p : Slot} {events : List Event} {pid status : Int32}
    (waits : pending p events = some (pid, status)) : ∃ between before,
      events = between ++ Event.exited p pid status :: before ∧ ∀ event ∈ between, Event.about event ≠ p := by
  induction events with
  | nil => cases waits
  | cons event rest ih =>
      cases event with
      | exited q pid' status' =>
          by_cases here : q = p
          · rw [pending, if_pos here] at waits
            cases waits
            exact ⟨[], rest, by rw [here]; rfl, nofun⟩
          · rw [pending, if_neg here] at waits
            obtain ⟨between, before, rfl, apart⟩ := ih waits
            refine ⟨_ :: between, before, rfl, fun event member => ?_⟩
            rcases List.mem_cons.mp member with rfl | later
            · exact here
            · exact apart event later
      | reaped t q parent pid' status' =>
          by_cases here : q = p
          · rw [pending, if_pos here] at waits
            cases waits
          · rw [pending, if_neg here] at waits
            obtain ⟨between, before, rfl, apart⟩ := ih waits
            refine ⟨_ :: between, before, rfl, fun event member => ?_⟩
            rcases List.mem_cons.mp member with rfl | later
            · exact here
            · exact apart event later

theorem Served.past {p : Slot} {events earlier : List Event} (later : List Event)
    (served : Served p events) (split : events = later ++ earlier) : Served p earlier := by
  induction later generalizing events with
  | nil =>
      rw [split] at served
      exact served
  | cons event rest ih =>
      rw [split] at served
      cases event with
      | exited q pid status => exact ih served.2 rfl
      | reaped t q parent pid status => exact ih served.2 rfl

/-- What a `wait` returned is what the last event of the slot, an exit, left there. -/
theorem Served.answered {p t : Slot} {parent : Option Slot} {pid status : Int32}
    {events later earlier : List Event} (served : Served p events)
    (split : events = later ++ Event.reaped t p parent pid status :: earlier) :
    parent = some t ∧ ∃ between before, earlier = between ++ Event.exited p pid status :: before ∧
      ∀ event ∈ between, Event.about event ≠ p := by
  obtain ⟨own, left⟩ := (served.past later split).1 rfl
  exact ⟨own, pending_split left⟩

/-- Between two waits that got slot `p` it exited again. -/
theorem Served.apart {p t u : Slot} {parent parent' : Option Slot} {pid status pid' status' : Int32}
    {events later middle earlier : List Event} (served : Served p events)
    (split : events = later ++ Event.reaped t p parent pid status ::
      (middle ++ Event.reaped u p parent' pid' status' :: earlier)) :
    .exited p pid status ∈ middle := by
  obtain ⟨-, between, before, same, quiet⟩ := served.answered split
  rcases List.append_eq_append_iff.mp same with ⟨rest, grown, tail⟩ | ⟨rest, grown, tail⟩
  · cases rest with
    | nil => cases tail
    | cons head rest =>
        cases tail
        refine absurd rfl (quiet (.reaped u p parent' pid' status') ?_)
        rw [grown]
        exact List.mem_append_right _ List.mem_cons_self
  · cases rest with
    | nil => cases tail
    | cons head rest =>
        cases tail
        rw [grown]
        exact List.mem_append_right _ List.mem_cons_self

end History

section Kinship

def Live (state : ProcState) : Prop :=
  state = .sleeping ∨ state = .runnable ∨ state = .running ∨ state = .zombie

def Alive (state : ProcState) : Prop := state = .sleeping ∨ state = .runnable ∨ state = .running

/-- SLEEPING inside `wait`. -/
def Napping (s : Machine Cpu) (t : Slot) : Prop :=
  (s.proc t).state = .sleeping ∧ Pc.napping (s.pc t) = true

/-- What thread `t` relies on at `pc`. -/
structure Stance (s : Machine Cpu) (t : Slot) (pc : Pc) : Prop where
  cleared : ∀ n, Pc.cleared pc = some n → ∀ p : Slot, p.val < n → (s.proc p).parent ≠ some t
  scanned : ∀ n, Pc.scanned pc = some n → ∀ p : Slot, p.val < n → (s.proc p).parent = some t →
    (s.proc p).state ≠ .zombie
  roused : ∀ n, Pc.roused pc = some n → ∀ q : Slot, (s.proc t).parent = some q → q.val < n →
    ¬ Napping s q
  calls : ∀ chan i status, pc = .wakeup chan i (.zombieLock status) →
    chan = (s.proc t).parent.map .proc
  fostering : ∀ np, Pc.fostering pc = some np → (s.proc np).parent = some t
  child : ∀ pp addr, pc = .waitChild pp addr → (s.proc pp).parent = some t
  exiting : t = initproc → Pc.exiting pc = false
  returns : Pc.returns pc = true

/-- Without `wait_lock` a thread relies on little. -/
theorem Stance.idle {s : Machine Cpu} {t : Slot} {pc : Pc} (quiet : Pc.waits pc = false)
    (fostering : ∀ np, Pc.fostering pc = some np → (s.proc np).parent = some t)
    (exiting : t = initproc → Pc.exiting pc = false) (returns : Pc.returns pc = true) :
    Stance s t pc where
  cleared n cleared := by
    rw [cleared_waits cleared] at quiet
    cases quiet
  scanned n scanned := by
    rw [scanned_waits scanned] at quiet
    cases quiet
  roused n roused := by
    rw [roused_waits roused] at quiet
    cases quiet
  calls chan i status at_ := by
    rw [at_] at quiet
    cases quiet
  fostering := fostering
  child pp addr at_ := by
    rw [at_] at quiet
    cases quiet
  exiting := exiting
  returns := returns

/-- What a thread relies on stays when its children, its own parent and its zombies do. -/
theorem Stance.frame {s s' : Machine Cpu} {t : Slot} {pc : Pc} (stance : Stance s t pc)
    (children : ∀ p, (s'.proc p).parent = some t → (s.proc p).parent = some t)
    (own : (s'.proc t).parent = (s.proc t).parent)
    (fostering : ∀ np, Pc.fostering pc = some np → (s'.proc np).parent = some t)
    (child : ∀ pp addr, pc = .waitChild pp addr → (s'.proc pp).parent = some t)
    (zombies : ∀ p, (s'.proc p).parent = some t → (s'.proc p).state = .zombie →
      (s.proc p).state = .zombie)
    (naps : ∀ q, Napping s' q → Napping s q) : Stance s' t pc where
  cleared n cleared p below child := stance.cleared n cleared p below (children p child)
  scanned n scanned p below child zombie :=
    stance.scanned n scanned p below (children p child) (zombies p child zombie)
  roused n roused q child below naps' :=
    stance.roused n roused q (own ▸ child) below (naps q naps')
  calls chan i status at_ := by
    rw [own]
    exact stance.calls chan i status at_
  fostering := fostering
  child := child
  exiting := stance.exiting
  returns := stance.returns

/-- A thread that holds `wait_lock` is about to wake `t`. -/
def Owed (s : Machine Cpu) (t : Slot) : Prop :=
  ∃ e i back, s.pc e = .wakeup (some (.proc t)) i back ∧ Pc.waits back = true ∧ i ≤ t.val

structure Kin (s : Machine Cpu) : Prop where
  holder : ∀ t, Pc.waits (s.pc t) = true → ∃ c, s.place c = .away t ∧ s.waitLock = some c
  family : ∀ p q, (s.proc p).parent = some q → Alive (s.proc q).state
  orphan : ∀ p, p ≠ initproc → Live (s.proc p).state → (s.proc p).parent ≠ none
  first : Alive (s.proc initproc).state
  stance : ∀ t, Stance s t (s.pc t)
  signed : ∀ t, Napping s t → (s.proc t).chan = some (.proc t)
  owed : ∀ t p, Napping s t → (s.proc p).parent = some t → (s.proc p).state = .zombie → Owed s t
  served : ∀ p, Served p s.events
  pending : ∀ p, pending p s.events =
    if (s.proc p).state = .zombie then some ((s.proc p).pid, (s.proc p).xstate) else none

theorem booted_kin (trapframe pagetable : Nat) : Kin (booted trapframe pagetable : Machine Cpu) where
  holder t waits := by cases waits
  family p q child := by
    dsimp only [booted] at child
    split at child <;> cases child
  orphan p other live := by
    dsimp only [booted] at live
    rw [if_neg other] at live
    rcases live with wrong | wrong | wrong | wrong <;> cases wrong
  first := .inr (.inl rfl)
  stance t := .idle rfl nofun (fun _ => rfl) rfl
  signed t naps := by
    obtain ⟨-, wrong⟩ := naps
    cases wrong
  owed t p naps := by
    obtain ⟨-, wrong⟩ := naps
    cases wrong
  served p := trivial
  pending p := by
    rw [if_neg]
    · rfl
    · dsimp only [booted]
      split <;> exact nofun

end Kinship

section Changes

variable {s s' : Machine Cpu} {c : Cpu} {t q : Slot}

theorem Kin.exclusive (kin : Kin s) {u : Slot} (left : Pc.waits (s.pc t) = true)
    (right : Pc.waits (s.pc u) = true) : t = u := by
  obtain ⟨c, at_, held⟩ := kin.holder t left
  obtain ⟨d, at', held'⟩ := kin.holder u right
  rw [held] at held'
  cases held'
  rw [at_] at at'
  cases at'
  rfl

theorem Owed.congr (owed : Owed s t) (pcs : ∀ e, Pc.waits (s.pc e) = true → s'.pc e = s.pc e) :
    Owed s' t := by
  obtain ⟨e, i, back, at_, waits, before⟩ := owed
  refine ⟨e, i, back, ?_, waits, before⟩
  rw [pcs e (by rw [at_]; exact waits), at_]

/-- Locks of processes and places of CPUs matter only to the holder of `wait_lock`. -/
theorem Kin.scene (kin : Kin s) (proc : s'.proc = s.proc) (pc : s'.pc = s.pc)
    (waitLock : s'.waitLock = s.waitLock) (events : s'.events = s.events)
    (stays : ∀ c t, Pc.waits (s.pc t) = true → s.place c = .away t → s'.place c = .away t) :
    Kin s' where
  holder t waits := by
    rw [pc] at waits
    obtain ⟨c, at_, held⟩ := kin.holder t waits
    exact ⟨c, stays c t waits at_, waitLock.trans held⟩
  family := by rw [proc]; exact kin.family
  orphan := by rw [proc]; exact kin.orphan
  first := by rw [proc]; exact kin.first
  stance t := by
    rw [pc]
    refine (kin.stance t).frame ?_ ?_ ?_ ?_ ?_ fun q naps => ?_
    · rw [proc]; exact fun _ => id
    · rw [proc]
    · rw [proc]; exact (kin.stance t).fostering
    · rw [proc]; exact (kin.stance t).child
    · rw [proc]; exact fun _ _ => id
    · unfold Napping at naps
      rw [proc, pc] at naps
      exact naps
  signed t naps := by
    unfold Napping at naps
    rw [proc, pc] at naps
    rw [proc]
    exact kin.signed t naps
  owed t p naps := by
    unfold Napping at naps
    rw [proc, pc] at naps
    rw [proc]
    intro child zombie
    exact (kin.owed t p naps child zombie).congr fun e _ => congrFun pc e
  served := by rw [events]; exact kin.served
  pending := by rw [events, proc]; exact kin.pending

theorem setProc_parent {new : Proc} (parent : new.parent = (s.proc q).parent) (p : Slot) :
    ((s.setProc q new).proc p).parent = (s.proc p).parent := by
  by_cases here : p = q
  · rw [here, setProc_same, parent]
  · rw [setProc_other _ _ here]

/-- A process changes but neither its parent nor its being a zombie. -/
theorem Kin.alter (kin : Kin s) {new : Proc} (parent : new.parent = (s.proc q).parent)
    (alive : Alive (s.proc q).state → Alive new.state)
    (live : Live new.state → Live (s.proc q).state ∨ new.parent ≠ none)
    (zombie : new.state = .zombie ↔ (s.proc q).state = .zombie)
    (record : (s.proc q).state = .zombie → new.pid = (s.proc q).pid ∧ new.xstate = (s.proc q).xstate)
    (naps : new.state = .sleeping →
      (s.proc q).state = .sleeping ∧ new.chan = (s.proc q).chan ∨ Pc.napping (s.pc q) = false) :
    Kin (s.setProc q new) := by
  have others : ∀ p, p ≠ q → (s.setProc q new).proc p = s.proc p := fun p apart =>
    setProc_other _ _ apart
  have parents : ∀ p, ((s.setProc q new).proc p).parent = (s.proc p).parent := setProc_parent parent
  have zombies : ∀ p, ((s.setProc q new).proc p).state = .zombie ↔ (s.proc p).state = .zombie := by
    intro p
    by_cases here : p = q
    · rw [here, setProc_same]
      exact zombie
    · rw [others p here]
  have napping : ∀ p, Napping (s.setProc q new) p → Napping s p ∧
      ((s.setProc q new).proc p).chan = (s.proc p).chan := by
    rintro p ⟨sleeps, at_⟩
    by_cases here : p = q
    · subst here
      rw [setProc_same] at sleeps ⊢
      rcases naps sleeps with ⟨slept, chan⟩ | awake
      · exact ⟨⟨slept, at_⟩, chan⟩
      · change Pc.napping (s.pc p) = true at at_
        rw [awake] at at_
        cases at_
    · rw [others p here] at sleeps ⊢
      exact ⟨⟨sleeps, at_⟩, rfl⟩
  have lives : ∀ p, Alive (s.proc p).state → Alive ((s.setProc q new).proc p).state := by
    intro p is
    by_cases here : p = q
    · subst here
      rw [setProc_same]
      exact alive is
    · rw [others p here]
      exact is
  refine ⟨kin.holder, fun p r child => ?_, fun p other is => ?_, lives _ kin.first, fun t => ?_,
    fun t naps' => ?_, fun t p naps' child dead => ?_, kin.served, fun p => ?_⟩
  · rw [parents] at child
    exact lives r (kin.family p r child)
  · by_cases here : p = q
    · subst here
      rw [setProc_same] at is ⊢
      rcases live is with was | has
      · rw [parent]
        exact kin.orphan p other was
      · exact has
    · rw [others p here] at is ⊢
      exact kin.orphan p other is
  · refine (kin.stance t).frame (fun p child => ?_) (parents t) (fun np fosters => ?_)
      (fun pp addr at_ => ?_) (fun p _ dead => (zombies p).mp dead) fun p naps' => (napping p naps').1
    · rw [parents] at child
      exact child
    · rw [parents]
      exact (kin.stance t).fostering np fosters
    · rw [parents]
      exact (kin.stance t).child pp addr at_
  · obtain ⟨was, chan⟩ := napping t naps'
    rw [chan]
    exact kin.signed t was
  · rw [parents] at child
    exact kin.owed t p (napping t naps').1 child ((zombies p).mp dead)
  · have old := kin.pending p
    change Parents.pending p s.events = _
    rw [old]
    by_cases dead : (s.proc p).state = .zombie
    · rw [if_pos dead, if_pos ((zombies p).mpr dead)]
      by_cases here : p = q
      · subst here
        rw [setProc_same, (record dead).1, (record dead).2]
      · rw [others p here]
    · rw [if_neg dead, if_neg fun wrong => dead ((zombies p).mp wrong)]

/-- The thread on CPU `c` goes on. -/
theorem Kin.goto (kin : Kin s) (works : Works s c t) {pc : Pc}
    (lock : Pc.waits pc = true → s.waitLock = some c) (stance : Stance s t pc)
    (debts : ∀ u, Napping s u → ∀ i back, s.pc t = .wakeup (some (.proc u)) i back →
      Pc.waits back = true → i ≤ u.val → ∃ j, pc = .wakeup (some (.proc u)) j back ∧ j ≤ u.val) :
    Kin (s.setPc t pc) := by
  have napping : ∀ p, Napping (s.setPc t pc) p → Napping s p := by
    rintro p ⟨sleeps, at_⟩
    by_cases here : p = t
    · subst here
      change (s.proc p).state = _ at sleeps
      rw [works.running] at sleeps
      cases sleeps
    · rw [setPc_other _ _ here] at at_
      exact ⟨sleeps, at_⟩
  have framed : ∀ {u : Slot} {pc' : Pc}, Stance s u pc' → Stance (s.setPc t pc) u pc' := fun old =>
    old.frame (fun _ => id) rfl old.fostering old.child (fun _ _ => id) napping
  refine ⟨fun u waits => ?_, kin.family, kin.orphan, kin.first, fun u => ?_,
    fun u naps => kin.signed u (napping u naps), fun u p naps child zombie => ?_, kin.served,
    kin.pending⟩
  · by_cases here : u = t
    · rw [here, setPc_same] at waits
      rw [here]
      exact ⟨c, works.at_, lock waits⟩
    · rw [setPc_other _ _ here] at waits
      exact kin.holder u waits
  · by_cases here : u = t
    · rw [here, setPc_same]
      exact framed stance
    · rw [setPc_other _ _ here]
      exact framed (kin.stance u)
  · obtain ⟨e, i, back, at_, waits, before⟩ := kin.owed u p (napping u naps) child zombie
    by_cases here : e = t
    · rw [here] at at_
      obtain ⟨j, goes, still⟩ := debts u (napping u naps) i back at_ waits before
      exact ⟨t, j, back, by rw [setPc_same, goes], waits, still⟩
    · exact ⟨e, i, back, by rw [setPc_other _ _ here, at_], waits, before⟩

/-- The same for a thread that wakes nobody and does not take `wait_lock`. -/
theorem Kin.move (kin : Kin s) (works : Works s c t) {pc : Pc}
    (lock : Pc.waits pc = true → Pc.waits (s.pc t) = true) (inv : Inv s) (stance : Stance s t pc)
    (quiet : ∀ chan i back, s.pc t = .wakeup chan i back → Pc.waits back = false) :
    Kin (s.setPc t pc) := by
  refine kin.goto works (fun waits => ?_) stance fun u _ i back at_ waits => ?_
  · obtain ⟨d, at_, held⟩ := kin.holder t (lock waits)
    rw [inv.only works.at_ at_] at held
    exact held
  · rw [quiet _ i back at_] at waits
    cases waits

theorem Kin.free (kin : Kin s) (none : s.waitLock = none) (u : Slot) : Pc.waits (s.pc u) = false := by
  by_contra waits
  obtain ⟨c, -, held⟩ := kin.holder u (by simpa using waits)
  rw [none] at held
  cases held

/-- `wait_lock` changes hands while no thread stands where it is held. -/
theorem Kin.relock (kin : Kin s) (none : ∀ u, Pc.waits (s.pc u) = false) (waitLock : Option Cpu) :
    Kin { s with waitLock } where
  holder u waits := by
    change Pc.waits (s.pc u) = true at waits
    rw [none u] at waits
    cases waits
  family := kin.family
  orphan := kin.orphan
  first := kin.first
  stance u := (kin.stance u).frame (fun _ => id) rfl (kin.stance u).fostering (kin.stance u).child
    (fun _ _ => id) fun _ => id
  signed := kin.signed
  owed := kin.owed
  served := kin.served
  pending := kin.pending

/-- The holder of `wait_lock` has left the code that needs it. -/
theorem Kin.unlock (kin : Kin s) (held : Pc.waits (s.pc t) = true) (after : Kin s')
    (others : ∀ u, u ≠ t → s'.pc u = s.pc u) (gone : Pc.waits (s'.pc t) = false) :
    Kin { s' with waitLock := none } := by
  refine after.relock (fun u => ?_) none
  by_cases here : u = t
  · rw [here]
    exact gone
  · rw [others u here]
    by_contra waits
    exact here (kin.exclusive held (by simpa using waits)).symm

/-- The other threads rely on little while one holds `wait_lock`. -/
theorem Kin.bystander (kin : Kin s) (held : Pc.waits (s.pc t) = true) {u : Slot} (other : u ≠ t)
    (fostering : ∀ np, Pc.fostering (s.pc u) = some np → (s'.proc np).parent = some u) :
    Stance s' u (s.pc u) := by
  refine .idle ?_ fostering (kin.stance u).exiting (kin.stance u).returns
  by_contra waits
  exact other (kin.exclusive held (by simpa using waits)).symm

/-- While a thread holds `wait_lock` outside `wakeup`, no wakeup is owed. -/
theorem Kin.unowed (kin : Kin s) (held : Pc.waits (s.pc t) = true)
    (busy : ∀ chan i back, s.pc t ≠ .wakeup chan i back) {u : Slot} : ¬ Owed s u := by
  rintro ⟨e, i, back, at_, waits, -⟩
  have mine := kin.exclusive held (u := e) (by rw [at_]; exact waits)
  rw [← mine] at at_
  exact busy _ i back at_

/-- `np->parent = p` in `fork`. -/
theorem Kin.foster (kin : Kin s) (inv : Inv s) (works : Works s c t) {np : Slot} {pid : Int32}
    (at_ : s.pc t = .setParent np pid) (free : s.waitLock = none) :
    Kin ((s.setProc np { s.proc np with parent := some t }).setPc t (.setRunnable np pid)) := by
  have forks : (s.pc t).forking = some (np, .released) := by rw [at_]; rfl
  have used : (s.proc np).state = .used := (inv.standing t np .released forks).1
  have apart : np ≠ t := by
    rintro rfl
    rw [works.running] at used
    cases used
  have others : ∀ p, p ≠ np → (s.setProc np { s.proc np with parent := some t }).proc p = s.proc p :=
    fun p other => setProc_other _ _ other
  have states : ∀ p, ((s.setProc np { s.proc np with parent := some t }).proc p).state =
      (s.proc p).state := by
    intro p
    by_cases here : p = np
    · rw [here, setProc_same]
    · rw [others p here]
  have napping : ∀ u, Napping (s.setProc np { s.proc np with parent := some t }) u → Napping s u := by
    rintro u ⟨sleeps, place⟩
    rw [states] at sleeps
    exact ⟨sleeps, place⟩
  have sole : ∀ u, Pc.fostering (s.pc u) ≠ some np := by
    intro u fosters
    have mine := inv.forker u t np _ _ (fostering_forking fosters) forks
    rw [mine, at_] at fosters
    cases fosters
  have fostered : Kin (s.setProc np { s.proc np with parent := some t }) := by
    refine ⟨kin.holder, fun p q child => ?_, fun p other live => ?_, ?_, fun u => ?_, fun u naps => ?_,
      fun u p naps child zombie => ?_, kin.served, fun p => ?_⟩
    · rw [states]
      by_cases here : p = np
      · rw [here, setProc_same] at child
        cases child
        exact .inr (.inr works.running)
      · rw [others p here] at child
        exact kin.family p q child
    · by_cases here : p = np
      · rw [here, setProc_same]
        exact nofun
      · rw [others p here] at live ⊢
        exact kin.orphan p other live
    · rw [states]
      exact kin.first
    · refine .idle (kin.free free u) (fun np' fosters => ?_) (kin.stance u).exiting (kin.stance u).returns
      rw [others np' (by rintro rfl; exact sole u fosters)]
      exact (kin.stance u).fostering np' fosters
    · have chan : ((s.setProc np { s.proc np with parent := some t }).proc u).chan = (s.proc u).chan := by
        by_cases here : u = np
        · rw [here, setProc_same]
        · rw [others u here]
      rw [chan]
      exact kin.signed u (napping u naps)
    · rw [states] at zombie
      rw [others p (by rintro rfl; rw [used] at zombie; cases zombie)] at child
      exact kin.owed u p (napping u naps) child zombie
    · by_cases here : p = np
      · rw [here, setProc_same]
        exact kin.pending np
      · rw [others p here]
        exact kin.pending p
  refine fostered.goto (works.setProc fun wrong => absurd wrong apart) nofun ?_ fun u _ i back wrong => ?_
  · refine .idle rfl (fun np' fosters => ?_) (fun _ => rfl) rfl
    cases fosters
    rw [setProc_same]
  · change s.pc t = _ at wrong
    rw [at_] at wrong
    cases wrong

/-- `pp->parent = initproc` in `reparent`. -/
theorem Kin.adopt (kin : Kin s) {pp : Slot} {status : Int32}
    (at_ : s.pc t = .reparent pp status) (child : (s.proc pp).parent = some t) :
    Kin ((s.setProc pp { s.proc pp with parent := some initproc }).setPc t
      (.wakeup (some (.proc initproc)) 0 (.reparent (pp + 1) status))) := by
  have held : Pc.waits (s.pc t) = true := by rw [at_]; rfl
  have notInit : initproc ≠ t := by
    intro same
    have never := (kin.stance t).exiting same.symm
    rw [at_] at never
    cases never
  generalize next : (s.setProc pp { s.proc pp with parent := some initproc }).setPc t
    (.wakeup (some (.proc initproc)) 0 (.reparent (pp + 1) status)) = s'
  have mine : s'.pc t = .wakeup (some (.proc initproc)) 0 (.reparent (pp + 1) status) := by
    rw [← next, setPc_same]
  have pcs : ∀ u, u ≠ t → s'.pc u = s.pc u := by
    intro u other
    rw [← next]
    exact setPc_other _ _ other
  have procs : ∀ p, p ≠ pp → s'.proc p = s.proc p := by
    intro p other
    rw [← next]
    exact setProc_other s _ other
  have given : s'.proc pp = { s.proc pp with parent := some initproc } := by
    rw [← next]
    exact setProc_same s pp _
  have states : ∀ p, (s'.proc p).state = (s.proc p).state := by
    intro p
    by_cases here : p = pp
    · rw [here, given]
    · rw [procs p here]
  have chans : ∀ p, (s'.proc p).chan = (s.proc p).chan := by
    intro p
    by_cases here : p = pp
    · rw [here, given]
    · rw [procs p here]
  have napping : ∀ u, Napping s' u → Napping s u := by
    rintro u ⟨sleeps, place⟩
    rw [states] at sleeps
    by_cases here : u = t
    · rw [here, mine] at place
      cases place
    · rw [pcs u here] at place
      exact ⟨sleeps, place⟩
  refine ⟨fun u waits => ?_, fun p q child' => ?_, fun p other live => ?_, ?_, fun u => ?_,
    fun u naps => ?_, fun u p naps child' zombie => ?_, ?_, fun p => ?_⟩
  · by_cases here : u = t
    · rw [here, ← next]
      exact kin.holder t held
    · rw [pcs u here] at waits
      rw [← next]
      exact kin.holder u waits
  · rw [states]
    by_cases here : p = pp
    · rw [here, given] at child'
      cases child'
      exact kin.first
    · rw [procs p here] at child'
      exact kin.family p q child'
  · by_cases here : p = pp
    · rw [here, given]
      exact Option.some_ne_none _
    · rw [procs p here] at live ⊢
      exact kin.orphan p other live
  · rw [states]
    exact kin.first
  · by_cases here : u = t
    · subst here
      rw [mine]
      have stance := kin.stance u
      rw [at_] at stance
      refine ⟨fun n cleared p below child' => ?_, fun _ scanned => (by cases scanned),
        fun _ roused => (by cases roused), fun _ _ _ calls => (by cases calls),
        fun _ fosters => (by cases fosters), fun _ _ waits => (by cases waits), fun same => ?_, rfl⟩
      · cases cleared
        by_cases same : p = pp
        · rw [same, given] at child'
          exact notInit (Option.some.inj child')
        · rw [procs p same] at child'
          refine stance.cleared pp rfl p ?_ child'
          have distinct : p.val ≠ pp.val := fun equal => same (Fin.ext equal)
          omega
      · exact absurd same.symm notInit
    · rw [pcs u here]
      refine kin.bystander held here fun np fosters => ?_
      have own := (kin.stance u).fostering np fosters
      rw [procs np ?_]
      · exact own
      · rintro rfl
        rw [child] at own
        exact here (Option.some.inj own).symm
  · rw [chans]
    exact kin.signed u (napping u naps)
  · by_cases here : p = pp
    · rw [here, given] at child'
      cases child'
      exact ⟨t, 0, _, mine, rfl, Nat.zero_le _⟩
    · rw [procs p here] at child' zombie
      have owed := kin.owed u p (napping u naps) child' zombie
      exact absurd owed (kin.unowed held fun chan i back wrong => by rw [at_] at wrong; cases wrong)
  · rw [← next]
    exact kin.served
  · have events : s'.events = s.events := by rw [← next]; rfl
    rw [events, states]
    by_cases here : p = pp
    · rw [here, given]
      exact kin.pending pp
    · rw [procs p here]
      exact kin.pending p

/-- `exit` makes its process a zombie and lets `wait_lock` go. -/
theorem Kin.die (kin : Kin s) (works : Works s c t) {status : Int32} (at_ : s.pc t = .setZombie status) :
    Kin { (s.setProc t { s.proc t with xstate := status, state := .zombie }).setPc t
        (.sched .zombieExit) with
      waitLock := none
      events := .exited t (s.proc t).pid status :: s.events } := by
  have held : Pc.waits (s.pc t) = true := by rw [at_]; rfl
  have stance := kin.stance t
  rw [at_] at stance
  have childless : ∀ p, (s.proc p).parent ≠ some t := fun p => stance.cleared NPROC rfl p p.isLt
  have notInit : initproc ≠ t := by
    intro same
    have never := stance.exiting same.symm
    cases never
  generalize next : { (s.setProc t { s.proc t with xstate := status, state := .zombie }).setPc t
      (.sched .zombieExit) with
    waitLock := none
    events := .exited t (s.proc t).pid status :: s.events } = s'
  have mine : s'.pc t = .sched .zombieExit := by
    rw [← next]
    exact setPc_same ..
  have pcs : ∀ u, u ≠ t → s'.pc u = s.pc u := by
    intro u other
    rw [← next]
    exact setPc_other _ _ other
  have procs : ∀ p, p ≠ t → s'.proc p = s.proc p := by
    intro p other
    rw [← next]
    exact setProc_other s _ other
  have own : s'.proc t = { s.proc t with xstate := status, state := .zombie } := by
    rw [← next]
    exact setProc_same s t _
  have parents : ∀ p, (s'.proc p).parent = (s.proc p).parent := by
    intro p
    by_cases here : p = t
    · rw [here, own]
    · rw [procs p here]
  have events : s'.events = .exited t (s.proc t).pid status :: s.events := by rw [← next]
  have napping : ∀ u, Napping s' u → u ≠ t ∧ Napping s u := by
    rintro u ⟨sleeps, place⟩
    have other : u ≠ t := by
      rintro rfl
      rw [own] at sleeps
      cases sleeps
    rw [procs u other] at sleeps
    rw [pcs u other] at place
    exact ⟨other, sleeps, place⟩
  refine ⟨fun u waits => ?_, fun p q child => ?_, fun p other live => ?_, ?_, fun u => ?_,
    fun u naps => ?_, fun u p naps child zombie => ?_, fun p => ?_, fun p => ?_⟩
  · by_cases here : u = t
    · rw [here, mine] at waits
      cases waits
    · rw [pcs u here] at waits
      exact absurd (kin.exclusive held waits).symm here
  · rw [parents] at child
    rw [procs q (by rintro rfl; exact childless p child)]
    exact kin.family p q child
  · rw [parents]
    by_cases here : p = t
    · rw [here]
      exact kin.orphan t notInit.symm (by rw [works.running]; exact .inr (.inr (.inl rfl)))
    · rw [procs p here] at live
      exact kin.orphan p other live
  · rw [procs initproc notInit]
    exact kin.first
  · by_cases here : u = t
    · rw [here, mine]
      exact .idle rfl nofun (fun same => absurd same.symm notInit) rfl
    · rw [pcs u here]
      refine kin.bystander held here fun np fosters => ?_
      rw [parents]
      exact (kin.stance u).fostering np fosters
  · obtain ⟨other, was⟩ := napping u naps
    rw [procs u other]
    exact kin.signed u was
  · obtain ⟨other, was⟩ := napping u naps
    rw [parents] at child
    by_cases here : p = t
    · rw [here] at child
      exact absurd was (stance.roused NPROC rfl u child u.isLt)
    · rw [procs p here] at zombie
      have owed := kin.owed u p was child zombie
      exact absurd owed (kin.unowed held fun chan i back wrong => by rw [at_] at wrong; cases wrong)
  · rw [events]
    refine ⟨fun same => ?_, kin.served p⟩
    rw [← same, kin.pending, works.running]
    rfl
  · rw [events, Parents.pending]
    by_cases here : t = p
    · rw [if_pos here, ← here, own]
      rfl
    · rw [if_neg here, procs p (Ne.symm here)]
      exact kin.pending p

/-- `wait` frees a zombie child and lets `wait_lock` go. -/
theorem Kin.reap (kin : Kin s) (works : Works s c t) {pp : Slot} {addr : Nat}
    (at_ : s.pc t = .waitChild pp addr) (zombie : (s.proc pp).state = .zombie) :
    Kin { ((s.setProc pp (freeproc (s.proc pp))).setPc t .user).setLock pp none with
      waitLock := none
      events := .reaped t pp (s.proc pp).parent (s.proc pp).pid (s.proc pp).xstate :: s.events } := by
  have held : Pc.waits (s.pc t) = true := by rw [at_]; rfl
  have child := (kin.stance t).child pp addr at_
  generalize next : { ((s.setProc pp (freeproc (s.proc pp))).setPc t .user).setLock pp none with
    waitLock := none
    events := .reaped t pp (s.proc pp).parent (s.proc pp).pid (s.proc pp).xstate :: s.events } = s'
  have mine : s'.pc t = .user := by
    rw [← next]
    exact setPc_same ..
  have pcs : ∀ u, u ≠ t → s'.pc u = s.pc u := by
    intro u other
    rw [← next]
    exact setPc_other _ _ other
  have procs : ∀ p, p ≠ pp → s'.proc p = s.proc p := by
    intro p other
    rw [← next]
    exact setProc_other s _ other
  have freed : s'.proc pp = freeproc (s.proc pp) := by
    rw [← next]
    exact setProc_same s pp _
  have events : s'.events =
      .reaped t pp (s.proc pp).parent (s.proc pp).pid (s.proc pp).xstate :: s.events := by rw [← next]
  have alive : ∀ q, Alive (s.proc q).state → q ≠ pp := by
    rintro q is rfl
    rw [zombie] at is
    rcases is with wrong | wrong | wrong <;> cases wrong
  have napping : ∀ u, Napping s' u → u ≠ pp ∧ Napping s u := by
    rintro u ⟨sleeps, place⟩
    have other : u ≠ pp := by
      rintro rfl
      rw [freed] at sleeps
      cases sleeps
    rw [procs u other] at sleeps
    refine ⟨other, sleeps, ?_⟩
    by_cases here : u = t
    · rw [here, works.running] at sleeps
      cases sleeps
    · rw [pcs u here] at place
      exact place
  refine ⟨fun u waits => ?_, fun p q child' => ?_, fun p other live => ?_, ?_, fun u => ?_,
    fun u naps => ?_, fun u p naps child' dead => ?_, fun p => ?_, fun p => ?_⟩
  · by_cases here : u = t
    · rw [here, mine] at waits
      cases waits
    · rw [pcs u here] at waits
      exact absurd (kin.exclusive held waits).symm here
  · by_cases here : p = pp
    · rw [here, freed] at child'
      cases child'
    · rw [procs p here] at child'
      have is := kin.family p q child'
      rw [procs q (alive q is)]
      exact is
  · by_cases here : p = pp
    · rw [here, freed] at live
      rcases live with wrong | wrong | wrong | wrong <;> cases wrong
    · rw [procs p here] at live ⊢
      exact kin.orphan p other live
  · rw [procs initproc (alive _ kin.first)]
    exact kin.first
  · by_cases here : u = t
    · rw [here, mine]
      exact .idle rfl nofun (fun _ => rfl) rfl
    · rw [pcs u here]
      refine kin.bystander held here fun np fosters => ?_
      have own := (kin.stance u).fostering np fosters
      rw [procs np ?_]
      · exact own
      · rintro rfl
        rw [child] at own
        exact here (Option.some.inj own).symm
  · obtain ⟨other, was⟩ := napping u naps
    rw [procs u other]
    exact kin.signed u was
  · by_cases here : p = pp
    · rw [here, freed] at dead
      cases dead
    · rw [procs p here] at child' dead
      have owed := kin.owed u p (napping u naps).2 child' dead
      exact absurd owed (kin.unowed held fun chan i back wrong => by rw [at_] at wrong; cases wrong)
  · rw [events]
    refine ⟨fun same => ⟨child, ?_⟩, kin.served p⟩
    rw [← same, kin.pending, if_pos zombie]
  · rw [events, Parents.pending]
    by_cases here : pp = p
    · rw [if_pos here, ← here, freed]
      rfl
    · rw [if_neg here, procs p (Ne.symm here)]
      exact kin.pending p

/-- `wait` goes to sleep and lets `wait_lock` go. -/
theorem Kin.nap (kin : Kin s) (works : Works s c t) {addr : Nat} (at_ : s.pc t = .waitFall addr) :
    Kin { (s.setProc t { s.proc t with chan := some (.proc t), state := .sleeping }).setPc t
        (.sched (.slept (.waitLock addr))) with
      waitLock := none } := by
  have held : Pc.waits (s.pc t) = true := by rw [at_]; rfl
  have stance := kin.stance t
  rw [at_] at stance
  generalize next : { (s.setProc t { s.proc t with chan := some (.proc t), state := .sleeping }).setPc t
      (.sched (.slept (.waitLock addr))) with
    waitLock := none } = s'
  have mine : s'.pc t = .sched (.slept (.waitLock addr)) := by
    rw [← next]
    exact setPc_same ..
  have pcs : ∀ u, u ≠ t → s'.pc u = s.pc u := by
    intro u other
    rw [← next]
    exact setPc_other _ _ other
  have procs : ∀ p, p ≠ t → s'.proc p = s.proc p := by
    intro p other
    rw [← next]
    exact setProc_other s _ other
  have own : s'.proc t = { s.proc t with chan := some (.proc t), state := .sleeping } := by
    rw [← next]
    exact setProc_same s t _
  have parents : ∀ p, (s'.proc p).parent = (s.proc p).parent := by
    intro p
    by_cases here : p = t
    · rw [here, own]
    · rw [procs p here]
  have events : s'.events = s.events := by rw [← next]; rfl
  have alive : ∀ q, Alive (s.proc q).state → Alive (s'.proc q).state := by
    intro q is
    by_cases here : q = t
    · rw [here, own]
      exact .inl rfl
    · rw [procs q here]
      exact is
  have zombies : ∀ p, (s'.proc p).state = .zombie → p ≠ t ∧ (s.proc p).state = .zombie := by
    intro p dead
    have other : p ≠ t := by
      rintro rfl
      rw [own] at dead
      cases dead
    rw [procs p other] at dead
    exact ⟨other, dead⟩
  refine ⟨fun u waits => ?_, fun p q child => ?_, fun p other live => ?_, alive _ kin.first, fun u => ?_,
    fun u naps => ?_, fun u p naps child zombie => ?_, ?_, fun p => ?_⟩
  · by_cases here : u = t
    · rw [here, mine] at waits
      cases waits
    · rw [pcs u here] at waits
      exact absurd (kin.exclusive held waits).symm here
  · rw [parents] at child
    exact alive q (kin.family p q child)
  · rw [parents]
    by_cases here : p = t
    · rw [here] at other ⊢
      exact kin.orphan t other (by rw [works.running]; exact .inr (.inr (.inl rfl)))
    · rw [procs p here] at live
      exact kin.orphan p other live
  · by_cases here : u = t
    · rw [here, mine]
      exact .idle rfl nofun (fun _ => rfl) rfl
    · rw [pcs u here]
      refine kin.bystander held here fun np fosters => ?_
      rw [parents]
      exact (kin.stance u).fostering np fosters
  · by_cases here : u = t
    · rw [here, own]
    · obtain ⟨sleeps, place⟩ := naps
      rw [procs u here] at sleeps ⊢
      rw [pcs u here] at place
      exact kin.signed u ⟨sleeps, place⟩
  · rw [parents] at child
    obtain ⟨other, dead⟩ := zombies p zombie
    by_cases here : u = t
    · rw [here] at child
      exact absurd dead (stance.scanned NPROC rfl p p.isLt child)
    · obtain ⟨sleeps, place⟩ := naps
      rw [procs u here] at sleeps
      rw [pcs u here] at place
      have owed := kin.owed u p ⟨sleeps, place⟩ child dead
      exact absurd owed (kin.unowed held fun chan i back wrong => by rw [at_] at wrong; cases wrong)
  · rw [events]
    exact kin.served
  · rw [events, kin.pending]
    by_cases here : p = t
    · rw [here, own, works.running]
      rfl
    · rw [procs p here]

/-- A slot that never became a process is given back. -/
theorem Kin.vacate (kin : Kin s) (inv : Inv s)
    (idle : (s.proc q).state = .unused ∨ (s.proc q).state = .used)
    (unfostered : ∀ u, Pc.fostering (s.pc u) ≠ some q)
    (unclaimed : ∀ u addr, s.pc u ≠ .waitChild q addr) :
    Kin (s.setProc q (freeproc (s.proc q))) := by
  have procs : ∀ p, p ≠ q → (s.setProc q (freeproc (s.proc q))).proc p = s.proc p := fun p other =>
    setProc_other _ _ other
  have freed : (s.setProc q (freeproc (s.proc q))).proc q = freeproc (s.proc q) := setProc_same ..
  have dead : ∀ p, Live (s.proc p).state → p ≠ q := by
    rintro p live rfl
    rcases idle with state | state <;> rw [state] at live <;>
      rcases live with wrong | wrong | wrong | wrong <;> cases wrong
  have alive : ∀ p, Alive (s.proc p).state → p ≠ q := by
    intro p is
    refine dead p ?_
    rcases is with is | is | is
    · exact .inl is
    · exact .inr (.inl is)
    · exact .inr (.inr (.inl is))
  have napping : ∀ u, Napping (s.setProc q (freeproc (s.proc q))) u → u ≠ q ∧ Napping s u := by
    rintro u ⟨sleeps, place⟩
    have other : u ≠ q := by
      rintro rfl
      rw [freed] at sleeps
      cases sleeps
    rw [procs u other] at sleeps
    exact ⟨other, sleeps, place⟩
  refine ⟨kin.holder, fun p r child => ?_, fun p other live => ?_, ?_, fun u => ?_, fun u naps => ?_,
    fun u p naps child zombie => ?_, kin.served, fun p => ?_⟩
  · by_cases here : p = q
    · rw [here, freed] at child
      cases child
    · rw [procs p here] at child
      have is := kin.family p r child
      rw [procs r (alive r is)]
      exact is
  · by_cases here : p = q
    · rw [here, freed] at live
      rcases live with wrong | wrong | wrong | wrong <;> cases wrong
    · rw [procs p here] at live ⊢
      exact kin.orphan p other live
  · rw [procs initproc (alive _ kin.first)]
    exact kin.first
  · have fostering : ∀ np, Pc.fostering (s.pc u) = some np →
        ((s.setProc q (freeproc (s.proc q))).proc np).parent = some u := by
      intro np fosters
      rw [procs np (by rintro rfl; exact unfostered u fosters)]
      exact (kin.stance u).fostering np fosters
    by_cases here : u = q
    · subst here
      refine .idle ?_ fostering (kin.stance u).exiting (kin.stance u).returns
      by_contra waits
      change ¬ Pc.waits (s.pc u) = false at waits
      obtain ⟨c, at_, -⟩ := kin.holder u (by simpa using waits)
      rcases inv.away c u at_ with ⟨is, -⟩ | ⟨next, -, departs⟩
      · rcases idle with state | state <;> rw [state] at is <;> cases is
      · rcases idle with state | state
        · exact departs.busy.2.1 state
        · exact departs.busy.2.2 state
    · refine (kin.stance u).frame (fun p child => ?_) (by rw [procs u here]) fostering
        (fun pp addr at_ => ?_) (fun p child zombie => ?_) fun p naps => (napping p naps).2
      · rw [procs p (by rintro rfl; rw [freed] at child; cases child)] at child
        exact child
      · rw [procs pp (by rintro rfl; exact unclaimed u addr at_)]
        exact (kin.stance u).child pp addr at_
      · rw [procs p (by rintro rfl; rw [freed] at child; cases child)] at zombie
        exact zombie
  · obtain ⟨other, was⟩ := napping u naps
    rw [procs u other]
    exact kin.signed u was
  · have other : p ≠ q := by
      rintro rfl
      rw [freed] at child
      cases child
    rw [procs p other] at child zombie
    exact kin.owed u p (napping u naps).2 child zombie
  · have old := kin.pending p
    change Parents.pending p s.events = _
    rw [old]
    by_cases here : p = q
    · rw [here, freed, if_neg (by rcases idle with state | state <;> rw [state] <;> decide)]
      rfl
    · rw [procs p here]

theorem Kin.wake (kin : Kin s) (chan : Option Chan) (q : Slot) :
    Kin (s.setProc q (ProcTable.wake chan (s.proc q))) := by
  unfold ProcTable.wake
  split
  · rename_i matches_
    refine kin.alter rfl (fun _ => .inr (.inl rfl)) (fun _ => .inl (.inl matches_.1)) ?_ ?_ nofun
    · constructor
      · exact nofun
      · intro wrong
        rw [matches_.1] at wrong
        cases wrong
    · intro wrong
      rw [matches_.1] at wrong
      cases wrong
  · exact kin.alter rfl id .inl Iff.rfl (fun _ => ⟨rfl, rfl⟩) fun sleeps => .inl ⟨sleeps, rfl⟩

theorem Kin.mark (kin : Kin s) (q : Slot) : Kin (s.setProc q (ProcTable.mark (s.proc q))) := by
  by_cases sleeps : (s.proc q).state = .sleeping
  · have state : (ProcTable.mark (s.proc q)).state = .runnable := if_pos sleeps
    refine kin.alter rfl (fun _ => .inr (.inl state)) (fun _ => .inl (.inl sleeps)) ?_ ?_ ?_
    · rw [state, sleeps]
      decide
    · rw [sleeps]
      exact nofun
    · rw [state]
      exact nofun
  · have state : (ProcTable.mark (s.proc q)).state = (s.proc q).state := if_neg sleeps
    refine kin.alter rfl ?_ ?_ ?_ (fun _ => ⟨rfl, rfl⟩) ?_
    · rw [state]
      exact id
    · rw [state]
      exact .inl
    · rw [state]
    · rw [state]
      exact fun slept => .inl ⟨slept, rfl⟩

/-- The state stays. -/
theorem Kin.touch (kin : Kin s) {new : Proc} (parent : new.parent = (s.proc q).parent)
    (state : new.state = (s.proc q).state)
    (record : (s.proc q).state = .zombie → new.pid = (s.proc q).pid ∧ new.xstate = (s.proc q).xstate)
    (chan : (s.proc q).state = .sleeping → new.chan = (s.proc q).chan) : Kin (s.setProc q new) := by
  refine kin.alter parent ?_ ?_ ?_ record fun sleeps => ?_
  · rw [state]
    exact id
  · rw [state]
    exact .inl
  · rw [state]
  · rw [state] at sleeps
    exact .inl ⟨sleeps, chan sleeps⟩

/-- The thread on CPU `c` gets ready for `swtch` outside `wait` and `exit`. -/
theorem Kin.depart (kin : Kin s) (works : Works s c t) {new : Proc} {next : Pc}
    (parent : new.parent = (s.proc t).parent) (state : new.state = .runnable ∨ new.state = .sleeping)
    (quiet : Pc.waits (s.pc t) = false) (wakes : Pc.napping next = false)
    (stance : Stance s t (.sched next)) : Kin ((s.setProc t new).setPc t (.sched next)) := by
  have moved : Kin (s.setPc t (.sched next)) := by
    refine kin.goto works nofun stance fun u _ i back at_ waits => ?_
    rw [at_] at quiet
    change Pc.waits back = false at quiet
    rw [quiet] at waits
    cases waits
  have running : ((s.setPc t (.sched next)).proc t).state = .running := works.running
  refine moved.alter (q := t) parent (fun _ => ?_) (fun _ => .inl (.inr (.inr (.inl running)))) ?_ ?_ ?_
  · rcases state with is | is
    · exact .inr (.inl is)
    · exact .inl is
  · rw [running]
    rcases state with is | is <;> rw [is] <;> decide
  · rw [running]
    exact nofun
  · intro _
    refine .inr ?_
    rw [setPc_same]
    exact wakes

theorem Kin.setLock (kin : Kin s) (q : Slot) (holder : Option Cpu) : Kin (s.setLock q holder) :=
  kin.scene rfl rfl rfl rfl fun _ _ _ => id

end Changes

section Threads

variable {s s' : Machine Cpu} {c : Cpu} {t : Slot}

theorem slotAt_some {i : Nat} {p : Slot} (found : slotAt i = some p) : p.val = i := by
  unfold slotAt at found
  split at found <;> cases found
  rfl

theorem slotAt_none {i : Nat} (none : slotAt i = none) : NPROC ≤ i := by
  unfold slotAt at none
  split at none
  · cases none
  · omega

/-- A step of a thread that does not hold `wait_lock` and does not get it. -/
theorem Kin.pass (kin : Kin s) (works : Works s c t) {pc : Pc}
    (quiet : Pc.waits (s.pc t) = false) (still : Pc.waits pc = false)
    (fostering : ∀ np, Pc.fostering pc = some np → Pc.fostering (s.pc t) = some np)
    (exiting : Pc.exiting pc = true → Pc.exiting (s.pc t) = true) (returns : Pc.returns pc = true) :
    Kin (s.setPc t pc) := by
  refine kin.goto works (fun waits => ?_) ?_ fun u _ i back at_ waits => ?_
  · rw [still] at waits
    cases waits
  · refine .idle still (fun np fosters => (kin.stance t).fostering np (fostering np fosters))
      (fun first => ?_) returns
    by_contra exits
    have never := (kin.stance t).exiting first
    rw [exiting (by simpa using exits)] at never
    cases never
  · rw [at_] at quiet
    change Pc.waits back = false at quiet
    rw [quiet] at waits
    cases waits

/-- A fork that fails gives its slot back. -/
theorem Kin.giveUp (kin : Kin s) (inv : Inv s) (works : Works s c t) {np : Slot} {stage : Stage}
    (forks : (s.pc t).forking = some (np, stage)) (early : stage ≠ .released)
    (held : (s.pc t).holding t = some np) (quiet : Pc.waits (s.pc t) = false) : Kin (s.giveUp t np) := by
  have idle := (inv.standing t np stage forks).idle
  have apart : np ≠ t := (inv.standing t np stage forks).apart (by rw [works.running]; decide)
  have vacated := kin.vacate inv idle ?_ ?_
  · have freed : Kin ((s.setProc np (freeproc (s.proc np))).setPc t .user) :=
      vacated.pass (works.setProc fun wrong => absurd wrong apart) quiet rfl nofun nofun rfl
    exact freed.setLock np none
  · intro u fosters
    have also := fostering_forking fosters
    have mine := inv.forker u t np _ _ also forks
    rw [mine, forks] at also
    cases also
    exact early rfl
  · intro u addr at_
    have waits : Pc.waits (s.pc u) = true := by rw [at_]; rfl
    obtain ⟨d, place, -⟩ := kin.holder u waits
    have lock := inv.claims d np ((claims_away place).mpr (by rw [at_]; rfl))
    rw [inv.holds works held] at lock
    cases lock
    rw [works.at_] at place
    cases place
    rw [waits] at quiet
    cases quiet

/-- The thread of a new slot starts in `forkret`. -/
theorem Kin.prime (kin : Kin s) (inv : Inv s) {np : Slot} (used : (s.proc np).state = .used) :
    Kin (s.setPc np .forkret) := by
  have idle : Pc.waits (s.pc np) = false := by
    by_contra waits
    obtain ⟨d, place, -⟩ := kin.holder np (by simpa using waits)
    rcases inv.away d np place with ⟨is, -⟩ | ⟨next, -, departs⟩
    · rw [used] at is
      cases is
    · exact departs.busy.2.2 used
  have napping : ∀ u, Napping (s.setPc np .forkret) u → Napping s u := by
    rintro u ⟨sleeps, place⟩
    by_cases here : u = np
    · change (s.proc u).state = _ at sleeps
      rw [here, used] at sleeps
      cases sleeps
    · rw [setPc_other _ _ here] at place
      exact ⟨sleeps, place⟩
  refine ⟨fun u waits => ?_, kin.family, kin.orphan, kin.first, fun u => ?_,
    fun u naps => kin.signed u (napping u naps), fun u p naps child zombie => ?_, kin.served, kin.pending⟩
  · by_cases here : u = np
    · rw [here, setPc_same] at waits
      cases waits
    · rw [setPc_other _ _ here] at waits
      exact kin.holder u waits
  · by_cases here : u = np
    · rw [here, setPc_same]
      exact .idle rfl nofun (fun _ => rfl) rfl
    · rw [setPc_other _ _ here]
      exact (kin.stance u).frame (fun _ => id) rfl (kin.stance u).fostering (kin.stance u).child
        (fun _ _ => id) napping
  · refine (kin.owed u p (napping u naps) child zombie).congr fun e waits => ?_
    refine setPc_other _ _ ?_
    rintro rfl
    rw [idle] at waits
    cases waits

theorem Kin.plain (kin : Kin s) (works : Works s c t) {pc : Pc} (quiet : Pc.waits (s.pc t) = false)
    (still : Pc.waits pc = false) (fostering : Pc.fostering pc = none) (exiting : Pc.exiting pc = false)
    (returns : Pc.returns pc = true) : Kin (s.setPc t pc) := by
  refine kin.pass works quiet still (fun np fosters => ?_) (fun exits => ?_) returns
  · rw [fostering] at fosters
    cases fosters
  · rw [exiting] at exits
    cases exits

theorem begin_kin {call : Call} (kin : Kin s) (works : Works s c t) (at_ : s.pc t = .user)
    (began : begin s c t call = some s') : Kin s' := by
  have quiet : Pc.waits (s.pc t) = false := by rw [at_]; rfl
  cases call with
  | fork =>
      cases began
      exact kin.plain works quiet rfl rfl rfl rfl
  | exit status =>
      rw [begin] at began
      split at began
      · cases began
      · rename_i other
        cases began
        refine kin.goto works (fun waits => (by cases waits))
          (.idle rfl (fun _ fosters => (by cases fosters)) (fun first => absurd first other) rfl) ?_
        intro u _ i back wrong
        rw [at_] at wrong
        cases wrong
  | wait addr =>
      cases began
      exact kin.plain works quiet rfl rfl rfl rfl
  | kill pid =>
      cases began
      exact kin.plain works quiet rfl rfl rfl rfl
  | setkilled =>
      rw [begin] at began
      split at began
      · cases began
        exact kin.touch rfl rfl (fun _ => ⟨rfl, rfl⟩) fun _ => rfl
      · cases began
  | sleep chan =>
      rw [begin] at began
      split at began
      · cases began
        exact (kin.setLock t (some c)).depart ⟨works.at_, works.running⟩ rfl (.inr rfl) quiet rfl
          (.idle rfl (fun _ fosters => (by cases fosters)) (fun _ => rfl) rfl)
      · cases began
  | wakeup chan =>
      cases began
      exact kin.plain works quiet rfl rfl rfl rfl

theorem allocprocStep_kin {i : Nat} (kin : Kin s) (works : Works s c t)
    (at_ : s.pc t = .allocproc i) (ran : allocprocStep s c t i = some s') : Kin s' := by
  have quiet : Pc.waits (s.pc t) = false := by rw [at_]; rfl
  unfold allocprocStep at ran
  split at ran
  · cases ran
    exact kin.pass works quiet rfl nofun nofun rfl
  · split at ran
    · split at ran
      · cases ran
        exact (kin.setLock _ _).pass ⟨works.at_, works.running⟩ quiet rfl nofun nofun rfl
      · cases ran
        exact kin.pass works quiet rfl nofun nofun rfl
    · cases ran

theorem killStep_kin {pid : Int32} {i : Nat} (kin : Kin s) (works : Works s c t)
    (at_ : s.pc t = .kill pid i) (ran : killStep s t pid i = some s') : Kin s' := by
  have quiet : Pc.waits (s.pc t) = false := by rw [at_]; rfl
  unfold killStep at ran
  split at ran
  · cases ran
    exact kin.pass works quiet rfl nofun nofun rfl
  · rename_i p slot
    split at ran
    · split at ran
      · cases ran
        refine (kin.mark p).pass (works.setProc fun same => ?_) quiet rfl nofun nofun rfl
        subst same
        change (if (s.proc p).state = .sleeping then .runnable else (s.proc p).state) = _
        rw [works.running]
        rfl
      · cases ran
        exact kin.pass works quiet rfl nofun nofun rfl
    · cases ran

/-- A thread that stands where `wait_lock` is held has it on its CPU. -/
theorem Kin.locked (kin : Kin s) (inv : Inv s) (works : Works s c t)
    (held : Pc.waits (s.pc t) = true) : s.waitLock = some c := by
  obtain ⟨d, place, lock⟩ := kin.holder t held
  rw [inv.only works.at_ place] at lock
  exact lock

/-- Whoever is woken on its own channel does not sleep in `wait` any more. -/
theorem Kin.woken (kin : Kin s) {p : Slot} :
    ¬ Napping (s.setProc p (ProcTable.wake (some (.proc p)) (s.proc p))) p := by
  rintro ⟨sleeps, place⟩
  rw [setProc_same] at sleeps
  unfold ProcTable.wake at sleeps
  split at sleeps
  · cases sleeps
  · rename_i differs
    exact differs ⟨sleeps, kin.signed p ⟨sleeps, place⟩⟩

/-- The next slot of a sweep. -/
theorem Stance.sweep {chan : Option Chan} {i : Nat} {back : Pc}
    (stance : Stance s t (.wakeup chan i back))
    (passed : ∀ q : Slot, q.val = i → chan = some (.proc q) → ¬ Napping s q) :
    Stance s t (.wakeup chan (i + 1) back) where
  cleared := stance.cleared
  scanned := nofun
  roused n roused q parent below := by
    cases back with
    | zombieLock status =>
        cases roused
        by_cases last : q.val = i
        · refine passed q last ?_
          rw [stance.calls chan i status rfl, parent]
          rfl
        · exact stance.roused i rfl q parent (by omega)
    | _ => cases roused
  calls chan' j status at_ := by
    cases at_
    exact stance.calls chan i status rfl
  fostering := stance.fostering
  child := nofun
  exiting := stance.exiting
  returns := stance.returns

/-- After the last slot. -/
theorem Stance.swept {chan : Option Chan} {i : Nat} {back : Pc}
    (stance : Stance s t (.wakeup chan i back)) (past : NPROC ≤ i) : Stance s t back := by
  have returns := stance.returns
  cases back with
  | user => exact .idle rfl nofun (fun _ => rfl) rfl
  | reparent j status =>
      exact ⟨stance.cleared, nofun, nofun, nofun, nofun, nofun, stance.exiting, rfl⟩
  | zombieLock status =>
      refine ⟨stance.cleared, nofun, fun n roused q parent below => ?_, nofun, nofun, nofun,
        stance.exiting, rfl⟩
      cases roused
      exact stance.roused i rfl q parent (by omega)
  | _ => cases returns

theorem wakeupStep_kin {chan : Option Chan} {i : Nat} {back : Pc} (kin : Kin s) (inv : Inv s)
    (works : Works s c t) (at_ : s.pc t = .wakeup chan i back)
    (ran : wakeupStep s t chan i back = some s') : Kin s' := by
  have stance := kin.stance t
  rw [at_] at stance
  have lock : Pc.waits back = true → s.waitLock = some c := fun waits =>
    kin.locked inv works (by rw [at_]; exact waits)
  unfold wakeupStep at ran
  split at ran
  · rename_i last
    cases ran
    refine kin.goto works lock (stance.swept (slotAt_none last)) fun u _ j back' here _ before => ?_
    rw [at_] at here
    cases here
    have past := slotAt_none last
    have bound := u.isLt
    omega
  · rename_i p slot
    have index := slotAt_some slot
    split at ran
    · rename_i self
      cases ran
      have awake : ∀ u : Slot, u.val = i → ¬ Napping s u := by
        rintro u same ⟨sleeps, -⟩
        have mine : u = t := by
          rw [← self]
          exact Fin.ext (same.trans index.symm)
        rw [mine, works.running] at sleeps
        cases sleeps
      refine kin.goto works lock (stance.sweep fun q same _ => awake q same)
        fun u naps j back' here _ before => ?_
      rw [at_] at here
      cases here
      have distinct : u.val ≠ i := fun same => awake u same naps
      exact ⟨i + 1, rfl, by omega⟩
    · rename_i other
      split at ran
      · cases ran
        have woken := kin.wake chan p
        have stance' := woken.stance t
        change Stance _ t (s.pc t) at stance'
        rw [at_] at stance'
        have awake : ∀ u : Slot, u.val = i → chan = some (.proc u) →
            ¬ Napping (s.setProc p (ProcTable.wake chan (s.proc p))) u := by
          intro u same aimed
          have here : u = p := Fin.ext (same.trans index.symm)
          rw [aimed, here]
          exact kin.woken
        refine woken.goto (works.setProc fun wrong => absurd wrong other) lock (stance'.sweep awake)
          fun u naps j back' here _ before => ?_
        change s.pc t = _ at here
        rw [at_] at here
        cases here
        have distinct : u.val ≠ i := fun same => awake u same rfl naps
        exact ⟨i + 1, rfl, by omega⟩
      · cases ran

theorem waitScanStep_kin {i addr : Nat} {havekids : Bool} (kin : Kin s) (inv : Inv s)
    (works : Works s c t) (at_ : s.pc t = .waitScan i havekids addr)
    (ran : waitScanStep s c t i havekids addr = some s') : Kin s' := by
  have held : Pc.waits (s.pc t) = true := by rw [at_]; rfl
  have stance := kin.stance t
  rw [at_] at stance
  have busy : ∀ chan i back, s.pc t = .wakeup chan i back → Pc.waits back = false := by
    intro chan i back wrong
    rw [at_] at wrong
    cases wrong
  unfold waitScanStep at ran
  split at ran
  · rename_i last
    split at ran
    · cases ran
      refine kin.move works (fun _ => held) inv ?_ busy
      refine ⟨nofun, fun n scanned p below => ?_, nofun, nofun, nofun, nofun, fun _ => rfl, rfl⟩
      exact stance.scanned i rfl p (Nat.lt_of_lt_of_le p.isLt (slotAt_none last))
    · cases ran
      have moved : Kin (s.setPc t .user) :=
        kin.move works nofun inv (.idle rfl nofun (fun _ => rfl) rfl) busy
      refine kin.unlock held moved (fun u other => setPc_other _ _ other) ?_
      rw [setPc_same]
      rfl
  · rename_i pp slot
    have index := slotAt_some slot
    split at ran
    · rename_i child
      split at ran
      · cases ran
        refine (kin.setLock pp (some c)).goto ⟨works.at_, works.running⟩
          (fun _ => kin.locked inv works held) ?_ ?_
        · refine ⟨nofun, fun n scanned p below => ?_, nofun, nofun, nofun, fun pp' addr' here => ?_,
            fun _ => rfl, rfl⟩
          · cases scanned
            exact stance.scanned i rfl p (by omega)
          · cases here
            exact child
        · intro u _ j back wrong waits
          rw [busy _ j back wrong] at waits
          cases waits
      · cases ran
    · rename_i stranger
      cases ran
      refine kin.move works (fun _ => held) inv ?_ busy
      refine ⟨nofun, fun n scanned p below child => ?_, nofun, nofun, nofun, nofun, fun _ => rfl, rfl⟩
      cases scanned
      by_cases here : p = pp
      · rw [here] at child
        exact absurd child stranger
      · have distinct : p.val ≠ pp.val := fun same => here (Fin.ext same)
        exact stance.scanned i rfl p (by omega) child

theorem waitChildStep_kin {pp : Slot} {addr : Nat} (copied : Bool) (kin : Kin s) (inv : Inv s)
    (works : Works s c t) (at_ : s.pc t = .waitChild pp addr) :
    Kin (waitChildStep s t pp addr copied) := by
  have held : Pc.waits (s.pc t) = true := by rw [at_]; rfl
  have stance := kin.stance t
  rw [at_] at stance
  have busy : ∀ chan i back, s.pc t = .wakeup chan i back → Pc.waits back = false := by
    intro chan i back wrong
    rw [at_] at wrong
    cases wrong
  unfold waitChildStep
  split
  · rename_i zombie
    split
    · have moved : Kin (s.setPc t .user) :=
        kin.move works nofun inv (.idle rfl nofun (fun _ => rfl) rfl) busy
      refine kin.unlock held (moved.setLock pp none) (fun u other => setPc_other _ _ other) ?_
      change Pc.waits ((s.setPc t .user).pc t) = false
      rw [setPc_same]
      rfl
    · exact kin.reap works at_ zombie
  · rename_i living
    refine (kin.move works (fun _ => held) inv ?_ busy).setLock pp none
    refine ⟨nofun, fun n scanned p below child => ?_, nofun, nofun, nofun, nofun, fun _ => rfl, rfl⟩
    cases scanned
    by_cases here : p = pp
    · rw [here]
      exact living
    · have distinct : p.val ≠ pp.val := fun same => here (Fin.ext same)
      exact stance.scanned pp rfl p (by omega) child

/-- Behind the `swtch` a thread relies on what it relied on in `sched`. -/
theorem Kin.resume (kin : Kin s) {next : Pc} (at_ : s.pc t = .sched next)
    (quiet : Pc.waits next = false) : Kin (s.setPc t next) := by
  have napping : ∀ p, Napping (s.setPc t next) p → Napping s p := by
    rintro p ⟨sleeps, place⟩
    refine ⟨sleeps, ?_⟩
    by_cases here : p = t
    · rw [here, setPc_same] at place
      rw [here, at_]
      exact place
    · rw [setPc_other _ _ here] at place
      exact place
  refine ⟨fun u waits => ?_, kin.family, kin.orphan, kin.first, fun u => ?_,
    fun u naps => kin.signed u (napping u naps), fun u p naps child zombie => ?_, kin.served,
    kin.pending⟩
  · by_cases here : u = t
    · rw [here, setPc_same, quiet] at waits
      cases waits
    · rw [setPc_other _ _ here] at waits
      exact kin.holder u waits
  · by_cases here : u = t
    · have stance := kin.stance t
      rw [at_] at stance
      rw [here, setPc_same]
      exact .idle quiet stance.fostering stance.exiting stance.returns
    · rw [setPc_other _ _ here]
      exact (kin.stance u).frame (fun _ => id) rfl (kin.stance u).fostering (kin.stance u).child
        (fun _ _ => id) napping
  · refine (kin.owed u p (napping u naps) child zombie).congr fun e waits => ?_
    by_cases here : e = t
    · rw [here, at_] at waits
      cases waits
    · exact setPc_other _ _ here

theorem departs_waits {next : Pc} {state : ProcState} (departs : Departs next state) :
    Pc.waits next = false := by
  rcases departs with ⟨-, rests⟩ | ⟨-, rfl⟩
  · exact rests_waits rests
  · rfl

end Threads

section Steps

variable [DecidableEq Cpu] {s s' : Machine Cpu} {c : Cpu} {t : Slot}

theorem advance_kin {answer : Nat} (kin : Kin s) (inv : Inv s) (works : Works s c t)
    (sound : (s.pc t).sound = true) (ran : advance s c t answer = some s') : Kin s' := by
  have stance := kin.stance t
  unfold advance at ran
  cases at_ : s.pc t with
  | user => rw [at_] at ran; cases ran
  | zombieExit => rw [at_] at ran; cases ran
  | sched next => rw [at_] at sound; cases sound
  | unlock back =>
      rw [at_] at ran sound stance
      cases ran
      refine (kin.pass works (by rw [at_]; rfl) (plain_waits sound) (fun np fosters => ?_)
        (fun exits => ?_) stance.returns).setLock t none
      · rw [at_]
        exact fosters
      · rw [at_]
        exact exits
  | slept back =>
      rw [at_] at ran sound stance
      cases ran
      have touched : Kin (s.setProc t { s.proc t with chan := none }) := by
        refine kin.touch rfl rfl (fun _ => ⟨rfl, rfl⟩) fun wrong => ?_
        rw [works.running] at wrong
        cases wrong
      refine (touched.pass (works.setProc fun _ => works.running)
        (show Pc.waits (s.pc t) = false by rw [at_]; rfl) (plain_waits sound) (fun np fosters => ?_)
        (fun exits => ?_) stance.returns).setLock t none
      · change Pc.fostering (s.pc t) = some np
        rw [at_]
        exact fosters
      · change Pc.exiting (s.pc t) = true
        rw [at_]
        exact exits
  | forkret =>
      rw [at_] at ran
      cases ran
      have released : Kin (s.setPc t .user) := by
        refine kin.pass works ?_ rfl nofun nofun rfl
        rw [at_]
        rfl
      exact released.setLock t none
  | allocproc i =>
      rw [at_] at ran
      exact allocprocStep_kin kin works at_ ran
  | allocpid np =>
      have standing := inv.standing t np .found (by rw [at_]; rfl)
      have apart : np ≠ t := standing.apart (by rw [works.running]; decide)
      have unused := standing.1
      rw [at_] at ran
      cases ran
      have numbered : Kin { s with nextpid := s.nextpid + 1 } := kin.scene rfl rfl rfl rfl fun _ _ _ => id
      have touched : Kin ({ s with nextpid := s.nextpid + 1 }.setProc np
          { s.proc np with pid := s.nextpid }) := by
        refine numbered.touch rfl rfl (fun wrong => ?_) fun _ => rfl
        change (s.proc np).state = _ at wrong
        rw [unused] at wrong
        cases wrong
      refine touched.pass (c := c) ?_ (show Pc.waits (s.pc t) = false by rw [at_]; rfl) rfl nofun nofun rfl
      exact Works.setProc (s := { s with nextpid := s.nextpid + 1 }) ⟨works.at_, works.running⟩
        fun wrong => absurd wrong apart
  | setUsed np =>
      have standing := inv.standing t np .found (by rw [at_]; rfl)
      have apart : np ≠ t := standing.apart (by rw [works.running]; decide)
      have unused := standing.1
      rw [at_] at ran
      cases ran
      have altered : Kin (s.setProc np { s.proc np with state := .used }) := by
        refine kin.alter rfl ?_ ?_ ?_ (fun wrong => ?_) nofun
        · rw [unused]
          rintro (wrong | wrong | wrong) <;> cases wrong
        · rintro (wrong | wrong | wrong | wrong) <;> cases wrong
        · rw [unused]
          exact ⟨nofun, nofun⟩
        · rw [unused] at wrong
          cases wrong
      exact altered.pass (works.setProc fun wrong => absurd wrong apart)
        (show Pc.waits (s.pc t) = false by rw [at_]; rfl) rfl nofun nofun rfl
  | allocTrapframe np =>
      have forks : (s.pc t).forking = some (np, .locked) := by rw [at_]; rfl
      have held : (s.pc t).holding t = some np := by rw [at_]; rfl
      have quiet : Pc.waits (s.pc t) = false := by rw [at_]; rfl
      have apart : np ≠ t := (inv.standing t np .locked forks).apart (by rw [works.running]; decide)
      have touched : Kin (s.setProc np { s.proc np with trapframe := answer }) :=
        kin.touch rfl rfl (fun _ => ⟨rfl, rfl⟩) fun _ => rfl
      have still : Works (s.setProc np { s.proc np with trapframe := answer }) c t :=
        works.setProc fun wrong => absurd wrong apart
      rw [at_] at ran
      dsimp only at ran
      split at ran
      · cases ran
        exact touched.giveUp (inv.touch np rfl) still forks (by decide) held quiet
      · cases ran
        exact touched.pass still quiet rfl nofun nofun rfl
  | allocPagetable np =>
      have forks : (s.pc t).forking = some (np, .locked) := by rw [at_]; rfl
      have held : (s.pc t).holding t = some np := by rw [at_]; rfl
      have quiet : Pc.waits (s.pc t) = false := by rw [at_]; rfl
      have used := (inv.standing t np .locked forks).1
      have apart : np ≠ t := (inv.standing t np .locked forks).apart (by rw [works.running]; decide)
      have touched : Kin (s.setProc np { s.proc np with pagetable := answer }) :=
        kin.touch rfl rfl (fun _ => ⟨rfl, rfl⟩) fun _ => rfl
      have kept : Inv (s.setProc np { s.proc np with pagetable := answer }) := inv.touch np rfl
      have still : Works (s.setProc np { s.proc np with pagetable := answer }) c t :=
        works.setProc fun wrong => absurd wrong apart
      rw [at_] at ran
      dsimp only at ran
      split at ran
      · cases ran
        exact touched.giveUp kept still forks (by decide) held quiet
      · cases ran
        have primed : Kin ((s.setProc np { s.proc np with pagetable := answer }).setPc np .forkret) := by
          refine touched.prime kept ?_
          rw [setProc_same]
          exact used
        refine primed.pass (c := c) ⟨still.at_, still.running⟩ ?_ rfl nofun nofun rfl
        rw [setPc_other _ _ apart.symm]
        exact quiet
  | uvmcopy np =>
      have forks : (s.pc t).forking = some (np, .filled) := by rw [at_]; rfl
      have held : (s.pc t).holding t = some np := by rw [at_]; rfl
      have quiet : Pc.waits (s.pc t) = false := by rw [at_]; rfl
      have apart : np ≠ t := (inv.standing t np .filled forks).apart (by rw [works.running]; decide)
      rw [at_] at ran
      dsimp only at ran
      split at ran
      · cases ran
        exact kin.giveUp inv works forks (by decide) held quiet
      · cases ran
        have touched : Kin (s.setProc np { s.proc np with sz := (s.proc t).sz }) :=
          kin.touch rfl rfl (fun _ => ⟨rfl, rfl⟩) fun _ => rfl
        have passed : Kin ((s.setProc np { s.proc np with sz := (s.proc t).sz }).setPc t
            (.setParent np (s.proc np).pid)) :=
          touched.pass (works.setProc fun wrong => absurd wrong apart) quiet rfl nofun nofun rfl
        exact passed.setLock np none
  | setParent np pid =>
      rw [at_] at ran
      dsimp only at ran
      split at ran
      · rename_i free
        cases ran
        exact kin.foster inv works at_ free
      · cases ran
  | setRunnable np pid =>
      have forks : (s.pc t).forking = some (np, .released) := by rw [at_]; rfl
      have used := (inv.standing t np .released forks).1
      have apart : np ≠ t := (inv.standing t np .released forks).apart (by rw [works.running]; decide)
      have child := stance.fostering np (by rw [at_]; rfl)
      rw [at_] at ran
      dsimp only at ran
      split at ran
      · cases ran
        have started : Kin (s.setProc np { s.proc np with state := .runnable }) := by
          refine kin.alter rfl (fun _ => .inr (.inl rfl)) (fun _ => .inr ?_) ?_ (fun wrong => ?_) nofun
          · change (s.proc np).parent ≠ none
            rw [child]
            exact nofun
          · rw [used]
            exact ⟨nofun, nofun⟩
          · rw [used] at wrong
            cases wrong
        exact started.pass (works.setProc fun wrong => absurd wrong apart)
          (show Pc.waits (s.pc t) = false by rw [at_]; rfl) rfl nofun nofun rfl
      · cases ran
  | exitLock status =>
      rw [at_] at ran stance
      dsimp only at ran
      split at ran
      · rename_i free
        cases ran
        refine (kin.relock (kin.free free) (some c)).goto ⟨works.at_, works.running⟩ (fun _ => rfl) ?_ ?_
        · refine ⟨fun n cleared p below => ?_, nofun, nofun, nofun, nofun, nofun, fun first => ?_, rfl⟩
          · cases cleared
            exact absurd below (Nat.not_lt_zero _)
          · cases stance.exiting first
        · intro u _ i back wrong
          change s.pc t = _ at wrong
          rw [at_] at wrong
          cases wrong
      · cases ran
  | reparent i status =>
      have held : Pc.waits (s.pc t) = true := by rw [at_]; rfl
      have busy : ∀ chan i back, s.pc t = .wakeup chan i back → Pc.waits back = false := by
        intro chan i back wrong
        rw [at_] at wrong
        cases wrong
      rw [at_] at ran stance
      dsimp only at ran
      split at ran
      · rename_i last
        cases ran
        refine kin.move works (fun _ => held) inv ?_ busy
        refine ⟨fun n cleared p below => ?_, nofun, nofun, nofun, nofun, nofun, stance.exiting, rfl⟩
        exact stance.cleared i rfl p (Nat.lt_of_lt_of_le p.isLt (slotAt_none last))
      · rename_i pp slot
        have index := slotAt_some slot
        split at ran
        · rename_i child
          cases ran
          rw [← index] at at_ ⊢
          exact kin.adopt at_ child
        · rename_i stranger
          cases ran
          refine kin.move works (fun _ => held) inv ?_ busy
          refine ⟨fun n cleared p below child => ?_, nofun, nofun, nofun, nofun, nofun, stance.exiting, rfl⟩
          cases cleared
          by_cases here : p = pp
          · rw [here] at child
            exact stranger child
          · have distinct : p.val ≠ pp.val := fun same => here (Fin.ext same)
            exact stance.cleared i rfl p (by omega) child
  | wakeParent status =>
      have held : Pc.waits (s.pc t) = true := by rw [at_]; rfl
      have busy : ∀ chan i back, s.pc t = .wakeup chan i back → Pc.waits back = false := by
        intro chan i back wrong
        rw [at_] at wrong
        cases wrong
      rw [at_] at ran stance
      cases ran
      refine kin.move works (fun _ => held) inv ?_ busy
      refine ⟨stance.cleared, nofun, fun n roused q _ below => ?_, fun chan i status here => ?_, nofun,
        nofun, stance.exiting, rfl⟩
      · cases roused
        exact absurd below (Nat.not_lt_zero _)
      · cases here
        rfl
  | zombieLock status =>
      have held : Pc.waits (s.pc t) = true := by rw [at_]; rfl
      have lock := kin.locked inv works held
      rw [at_] at ran
      dsimp only at ran
      split at ran
      · cases ran
        have taken := kin.setLock t (some c)
        have stance' := taken.stance t
        change Stance _ t (s.pc t) at stance'
        rw [at_] at stance'
        refine taken.goto ⟨works.at_, works.running⟩ (fun _ => lock) ?_ ?_
        · exact ⟨stance'.cleared, nofun, stance'.roused, nofun, nofun, nofun, stance'.exiting, rfl⟩
        · intro u _ i back wrong
          change s.pc t = _ at wrong
          rw [at_] at wrong
          cases wrong
      · cases ran
  | setZombie status =>
      rw [at_] at ran
      cases ran
      exact kin.die works at_
  | waitLock addr =>
      rw [at_] at ran
      dsimp only at ran
      split at ran
      · rename_i free
        cases ran
        refine (kin.relock (kin.free free) (some c)).goto ⟨works.at_, works.running⟩ (fun _ => rfl) ?_ ?_
        · refine ⟨nofun, fun n scanned p below => ?_, nofun, nofun, nofun, nofun, fun _ => rfl, rfl⟩
          cases scanned
          exact absurd below (Nat.not_lt_zero _)
        · intro u _ i back wrong
          change s.pc t = _ at wrong
          rw [at_] at wrong
          cases wrong
      · cases ran
  | waitScan i havekids addr =>
      rw [at_] at ran
      exact waitScanStep_kin kin inv works at_ ran
  | waitChild pp addr =>
      rw [at_] at ran
      cases ran
      exact waitChildStep_kin _ kin inv works at_
  | waitKilled addr =>
      have held : Pc.waits (s.pc t) = true := by rw [at_]; rfl
      have busy : ∀ chan i back, s.pc t = .wakeup chan i back → Pc.waits back = false := by
        intro chan i back wrong
        rw [at_] at wrong
        cases wrong
      rw [at_] at ran stance
      dsimp only at ran
      split at ran
      · split at ran
        · cases ran
          have moved : Kin (s.setPc t .user) :=
        kin.move works nofun inv (.idle rfl nofun (fun _ => rfl) rfl) busy
          refine kin.unlock held moved (fun u other => setPc_other _ _ other) ?_
          rw [setPc_same]
          rfl
        · cases ran
          refine kin.move works (fun _ => held) inv ?_ busy
          exact ⟨nofun, stance.scanned, nofun, nofun, nofun, nofun, fun _ => rfl, rfl⟩
      · cases ran
  | waitSleep addr =>
      have held : Pc.waits (s.pc t) = true := by rw [at_]; rfl
      have lock := kin.locked inv works held
      rw [at_] at ran
      dsimp only at ran
      split at ran
      · cases ran
        have taken := kin.setLock t (some c)
        have stance' := taken.stance t
        change Stance _ t (s.pc t) at stance'
        rw [at_] at stance'
        refine taken.goto ⟨works.at_, works.running⟩ (fun _ => lock) ?_ ?_
        · exact ⟨nofun, stance'.scanned, nofun, nofun, nofun, nofun, fun _ => rfl, rfl⟩
        · intro u _ i back wrong
          change s.pc t = _ at wrong
          rw [at_] at wrong
          cases wrong
      · cases ran
  | waitFall addr =>
      rw [at_] at ran
      cases ran
      exact kin.nap works at_
  | kill pid i =>
      rw [at_] at ran
      exact killStep_kin kin works at_ ran
  | wakeup chan i back =>
      rw [at_] at ran
      exact wakeupStep_kin kin inv works at_ ran

/-- A CPU that executes no thread of the kernel with `wait_lock` goes elsewhere. -/
theorem Kin.setPlace (kin : Kin s) (idle : ∀ t, s.place c = .away t → Pc.waits (s.pc t) = false)
    (current : Option Slot) (place : Place) : Kin (s.setPlace c current place) := by
  refine kin.scene rfl rfl rfl rfl fun d t waits at_ => ?_
  by_cases here : d = c
  · rw [here] at at_
    rw [idle t at_] at waits
    cases waits
  · change Function.update s.place c place d = .away t
    rw [Function.update_of_ne here]
    exact at_

theorem schedule_kin (kin : Kin s) (ran : schedule s c = some s') : Kin s' := by
  have idle : ∀ t, s.place c = .away t → Pc.waits (s.pc t) = false := by
    intro t wrong
    unfold schedule at ran
    rw [wrong] at ran
    cases ran
  unfold schedule at ran
  cases at_ : s.place c with
  | scan i =>
      rw [at_] at ran
      dsimp only at ran
      split at ran
      · cases ran
        exact kin.setPlace idle ..
      · split at ran
        · cases ran
          exact (kin.setLock _ _).setPlace idle ..
        · cases ran
  | check p =>
      rw [at_] at ran
      dsimp only at ran
      split at ran
      · rename_i runnable
        cases ran
        have started : Kin (s.setProc p { s.proc p with state := .running }) := by
          refine kin.alter rfl (fun _ => .inr (.inr rfl)) (fun _ => .inl (.inr (.inl runnable))) ?_
            (fun _ => ⟨rfl, rfl⟩) nofun
          rw [runnable]
          exact ⟨nofun, nofun⟩
        exact started.setPlace idle ..
      · cases ran
        exact (kin.setPlace idle ..).setLock _ _
  | back p =>
      rw [at_] at ran
      cases ran
      exact (kin.setPlace idle ..).setLock _ _
  | away p =>
      rw [at_] at ran
      cases ran

theorem step_kin {label : Label Cpu} (inv : Inv s) (kin : Kin s) (stepped : step s label = some s') :
    Kin s' := by
  cases label with
  | schedule c => exact schedule_kin kin stepped
  | call c call =>
      obtain ⟨t, here, ran⟩ := Option.bind_eq_some_iff.mp stepped
      have at_ := inv.mine here
      split at ran
      · rename_i user
        rcases inv.away c t at_ with ⟨running, -⟩ | ⟨next, pc, -⟩
        · exact begin_kin kin ⟨at_, running⟩ user ran
        · rw [user] at pc
          cases pc
      · cases ran
  | advance c answer =>
      obtain ⟨t, here, ran⟩ := Option.bind_eq_some_iff.mp stepped
      have at_ := inv.mine here
      rcases inv.away c t at_ with ⟨running, sound⟩ | ⟨next, pc, departs⟩
      · exact advance_kin kin inv ⟨at_, running⟩ sound ran
      · have quiet := departs_waits departs
        unfold advance swtch at ran
        rw [pc, at_] at ran
        cases ran
        refine (kin.resume pc quiet).setPlace (fun u place => ?_) ..
        change s.place c = .away u at place
        rw [at_] at place
        cases place
        rw [setPc_same]
        exact quiet
  | yield c =>
      obtain ⟨t, here, ran⟩ := Option.bind_eq_some_iff.mp stepped
      have at_ := inv.mine here
      split at ran
      · rename_i goes
        obtain ⟨plain, free⟩ := goes
        cases ran
        rcases inv.away c t at_ with ⟨running, -⟩ | ⟨next, pc, -⟩
        · have taken := kin.setLock t (some c)
          have stance := taken.stance t
          refine taken.depart ⟨at_, running⟩ rfl (.inl rfl) (plain_waits plain) rfl ?_
          exact .idle rfl stance.fostering stance.exiting stance.returns
        · rw [pc] at plain
          cases plain
      · cases ran
  | interrupt chan p =>
      rw [step] at stepped
      split at stepped
      · cases stepped
        exact kin.wake (some chan) p
      · cases stepped

/-- A `wait` whose `copyout` fails changes no process. -/
theorem failed_copyout {pp : Slot} {addr : Nat} (here : s.myproc c = some t)
    (at_ : s.pc t = .waitChild pp addr) (zombie : (s.proc pp).state = .zombie) (asked : addr ≠ 0)
    (stepped : step s (.advance c 0) = some s') :
    s'.proc = s.proc ∧ s'.events = s.events ∧ s'.lock pp = none ∧ s'.waitLock = none ∧ s'.pc t = .user := by
  rw [step, here] at stepped
  simp only [Option.bind_some, advance, at_, Option.some.injEq] at stepped
  rw [waitChildStep, if_pos zombie, if_pos ⟨asked, rfl⟩] at stepped
  cases stepped
  exact ⟨rfl, rfl, setLock_same .., rfl, setPc_same ..⟩

/-- Parents and children over every run: while `wait_lock` is free every process has a parent
that is alive and nobody sleeps in `wait` over a zombie child; a successful `wait` is the
parent's and answers one exit; a `wait` that cannot copy the status out leaves the zombie. -/
theorem wait_protocol (trapframe pagetable : Nat) {labels : List (Label Cpu)}
    (ran : run step (booted trapframe pagetable) labels = some s) :
    (s.waitLock = none →
      (∀ p, p ≠ initproc → Live (s.proc p).state →
        ∃ q, (s.proc p).parent = some q ∧ (s.proc q).state ≠ .unused ∧ (s.proc q).state ≠ .zombie) ∧
      ∀ t p, Napping s t → (s.proc p).parent = some t → (s.proc p).state ≠ .zombie) ∧
    (∀ t p parent pid status later earlier,
      s.events = later ++ Event.reaped t p parent pid status :: earlier →
      parent = some t ∧ ∃ between before, earlier = between ++ Event.exited p pid status :: before ∧
        ∀ event ∈ between, Event.about event ≠ p) ∧
    (∀ t u p parent parent' pid pid' status status' later middle earlier,
      s.events = later ++ Event.reaped t p parent pid status ::
        (middle ++ Event.reaped u p parent' pid' status' :: earlier) →
      .exited p pid status ∈ middle) ∧
    ∀ c t pp addr s', s.myproc c = some t → s.pc t = .waitChild pp addr → (s.proc pp).state = .zombie →
      addr ≠ 0 → step s (.advance c 0) = some s' →
      s'.proc = s.proc ∧ s'.events = s.events ∧ s'.lock pp = none ∧ s'.waitLock = none ∧ s'.pc t = .user := by
  obtain ⟨-, kin⟩ : Inv s ∧ Kin s := run_invariant step (fun _ s => Inv s ∧ Kin s)
    ⟨booted_inv trapframe pagetable, booted_kin trapframe pagetable⟩
    (fun _ _ _ _ _ held stepped => ⟨step_inv held.1 stepped, step_kin held.1 held.2 stepped⟩) ran
  refine ⟨fun free => ⟨fun p other live => ?_, fun t p naps child zombie => ?_⟩,
    fun t p parent pid status later earlier split => (kin.served p).answered split,
    fun t u p parent parent' pid pid' status status' later middle earlier split =>
      (kin.served p).apart split,
    fun c t pp addr s' here at_ zombie asked stepped => failed_copyout here at_ zombie asked stepped⟩
  · obtain ⟨q, parent⟩ := Option.ne_none_iff_exists'.mp (kin.orphan p other live)
    refine ⟨q, parent, ?_⟩
    rcases kin.family p q parent with state | state | state <;> rw [state] <;> exact ⟨nofun, nofun⟩
  · obtain ⟨e, i, back, at_, waits, -⟩ := kin.owed t p naps child zombie
    have held := kin.free free e
    rw [at_] at held
    change Pc.waits back = false at held
    rw [waits] at held
    cases held

/-- The child of `twoRunning` exits with status 5 on its CPU and the first process waits. -/
def exitThenWait : List (Label (Fin 2)) :=
  twoRunning ++ ([.advance 1 0, .call 1 (.exit 5)] : List (Label (Fin 2))) ++
    List.replicate 135 (Label.advance (1 : Fin 2) 0) ++
    ([.schedule 1, .call 0 (.wait 0), .advance 0 0, .advance 0 0, .advance 0 0, .advance 0 0] :
      List (Label (Fin 2)))

theorem exitThenWait_answered : ∃ s : Machine (Fin 2),
    run step (booted 2 3) exitThenWait = some s ∧
    s.events = [.reaped initproc ProcTable.secondProc (some initproc) 2 5,
      .exited ProcTable.secondProc 2 5] ∧
    s.waitLock = none ∧
    ∀ p, p ≠ initproc → Live (s.proc p).state →
      ∃ q, (s.proc p).parent = some q ∧ (s.proc q).state ≠ .unused ∧ (s.proc q).state ≠ .zombie := by
  have runs : ((run step (booted 2 3) exitThenWait).any fun s : Machine (Fin 2) =>
      decide (s.events = [.reaped initproc ProcTable.secondProc (some initproc) 2 5,
        .exited ProcTable.secondProc 2 5] ∧ s.waitLock = none)) = true := by
    decide +kernel
  obtain ⟨s, ran, checks⟩ := (Option.any_eq_true _ _).mp runs
  obtain ⟨events, free⟩ := of_decide_eq_true checks
  exact ⟨s, ran, events, free, ((wait_protocol 2 3 ran).1 free).1⟩

end Steps

end PaddleOs.Parents
