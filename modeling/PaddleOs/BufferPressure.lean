import PaddleOs.BufferRing
import PaddleOs.Log
import Mathlib.Algebra.BigOperators.Fin
import Mathlib.Data.Fintype.BigOperators

/-!
The buffer cache under concurrent readers and operations. A process is inside
`fileread`, inside an operation that `begin_op` admitted, or in `commit()` at the end of
one. Inside `fileread` it takes and releases one block after the other and reserves
nothing; inside an operation it takes, logs and releases blocks as it likes; `commit()`
follows `write_log`, `write_head` and `install_trans`. Between the call of `bget` and
the `brelse` a process keeps its reference, also while it waits for the sleep-lock of
the buffer or for the disk.
-/

namespace PaddleOs.BufferPressure

open Foundation.Runs

/-- One step of a fixed course of `bread` and `brelse` calls. -/
inductive Action where
  | bread (blockno : Nat)
  | brelse (blockno : Nat)
  | bunpin (blockno : Nat)
  | clear
  deriving DecidableEq, Repr

inductive Phase where
  | outside
  | reading
  | operating
  | committing
  deriving DecidableEq, Repr

structure Proc where
  phase : Phase
  plan : List Action
  waiting : Option (Fin NBUF)
  held : List (Fin NBUF)

def Proc.resting : Proc := { phase := .outside, plan := [], waiting := none, held := [] }

structure Machine where
  ring : BufferRing.Machine
  locked : Fin NBUF → Bool
  log : Log
  proc : Fin NPROC → Proc

inductive Label where
  | startRead (p : Fin NPROC) (blocks : List Nat)
  | endRead (p : Fin NPROC)
  | beginOp (p : Fin NPROC)
  | bread (p : Fin NPROC) (blockno : Nat)
  | logWrite (p : Fin NPROC) (b : Fin NBUF)
  | brelse (p : Fin NPROC) (b : Fin NBUF)
  | endOp (p : Fin NPROC)
  | follow (p : Fin NPROC)
  | acquiresleep (p : Fin NPROC)
  | endCommit (p : Fin NPROC)

/-- `ilock` and `readi`: the blocks are read one at a time, the inode's own, an indirect
block before the data block it leads to. -/
def readPlan (blocks : List Nat) : List Action :=
  blocks.flatMap fun blockno => [.bread blockno, .brelse blockno]

def writeLogPlan (log : Log) : List Action :=
  (List.range log.lh.n.toNat).flatMap fun tail =>
    [.bread (log.start + tail + 1), .bread (log.lh.block tail), .brelse (log.lh.block tail),
      .brelse (log.start + tail + 1)]

def writeHeadPlan (log : Log) : List Action := [.bread log.start, .brelse log.start]

def installTransPlan (log : Log) : List Action :=
  (List.range log.lh.n.toNat).flatMap fun tail =>
    [.bread (log.start + tail + 1), .bread (log.lh.block tail), .bunpin (log.lh.block tail),
      .brelse (log.start + tail + 1), .brelse (log.lh.block tail)]

def commitPlan (log : Log) : List Action :=
  if log.lh.n > 0 then
    writeLogPlan log ++ writeHeadPlan log ++ installTransPlan log ++ [.clear] ++ writeHeadPlan log
  else []

def Machine.setProc (m : Machine) (p : Fin NPROC) (proc : Proc) : Machine :=
  { m with proc := Function.update m.proc p proc }

/-- `bget` of the process `p`, which goes on with `plan`; the sleep-lock is taken later. -/
def takeBlock (m : Machine) (p : Fin NPROC) (blockno : Nat) (plan : List Action) :
    Option (Except Stop Machine) :=
  match BufferRing.bget m.log.dev blockno m.ring.cache with
  | none => some (.error .bgetNoBuffers)
  | some (b, _) =>
      (BufferRing.step m.ring (.bget m.log.dev blockno)).map fun ring =>
        .ok ({ m with ring }.setProc p { m.proc p with plan, waiting := some b })

/-- `brelse` of the process `p`, which goes on with `plan`. -/
def releaseBlock (m : Machine) (p : Fin NPROC) (b : Fin NBUF) (plan : List Action) :
    Option (Except Stop Machine) :=
  if b ∈ (m.proc p).held then
    (BufferRing.step m.ring (.brelse b)).map fun ring =>
      .ok ({ m with ring, locked := Function.update m.locked b false }.setProc p
        { m.proc p with plan, held := (m.proc p).held.erase b })
  else none

/-- The buffer of the block among those `p` holds. -/
def Machine.heldFor (m : Machine) (p : Fin NPROC) (blockno : Nat) : Option (Fin NBUF) :=
  (m.proc p).held.find? fun b => (m.ring.cache.buf b).blockno == blockno

/-- The next action of a process that follows its plan. -/
def followPlan (m : Machine) (p : Fin NPROC) : List Action → Option (Except Stop Machine)
  | [] => none
  | .bread blockno :: plan => takeBlock m p blockno plan
  | .brelse blockno :: plan => do releaseBlock m p (← m.heldFor p blockno) plan
  | .bunpin blockno :: plan => do
      let ring ← BufferRing.step m.ring (.bunpin (← m.heldFor p blockno))
      return .ok ({ m with ring }.setProc p { m.proc p with plan })
  | .clear :: plan => some (.ok ({ m with log := m.log.cleared }.setProc p { m.proc p with plan }))

def logWrite (m : Machine) (b : Fin NBUF) : Option (Except Stop Machine) :=
  match m.log.record (m.ring.cache.buf b).blockno with
  | .error stop => some (.error stop)
  | .ok (log, false) => some (.ok { m with log })
  | .ok (log, true) => (BufferRing.step m.ring (.bpin b)).map fun ring => .ok { m with ring, log }

def endOp (m : Machine) (p : Fin NPROC) : Except Stop Machine :=
  match m.log.finish with
  | .error stop => .error stop
  | .ok (log, doCommit) =>
      .ok ({ m with log }.setProc p { m.proc p with
        phase := if doCommit then .committing else .outside
        plan := if doCommit then commitPlan log else [] })

/-- One step. `none` when the process cannot take it now, an error when it panics. -/
def call (m : Machine) : Label → Option (Except Stop Machine)
  | .startRead p blocks =>
      if (m.proc p).phase = .outside then
        some (.ok (m.setProc p { m.proc p with phase := .reading, plan := readPlan blocks }))
      else none
  | .endRead p =>
      if (m.proc p).phase = .reading ∧ (m.proc p).plan = [] ∧ (m.proc p).waiting = none then
        some (.ok (m.setProc p { m.proc p with phase := .outside }))
      else none
  | .beginOp p =>
      if (m.proc p).phase = .outside ∧ m.log.admits then
        some (.ok ({ m with log := m.log.begin }.setProc p { m.proc p with phase := .operating }))
      else none
  | .bread p blockno =>
      if (m.proc p).phase = .operating ∧ (m.proc p).waiting = none then
        takeBlock m p blockno (m.proc p).plan
      else none
  | .logWrite p b =>
      if (m.proc p).phase = .operating ∧ (m.proc p).waiting = none ∧ b ∈ (m.proc p).held then
        logWrite m b
      else none
  | .brelse p b =>
      if (m.proc p).phase = .operating ∧ (m.proc p).waiting = none then
        releaseBlock m p b (m.proc p).plan
      else none
  | .endOp p =>
      if (m.proc p).phase = .operating ∧ (m.proc p).waiting = none ∧ (m.proc p).held = [] then
        some (endOp m p)
      else none
  | .follow p =>
      if (m.proc p).phase ≠ .operating ∧ (m.proc p).waiting = none then
        followPlan m p (m.proc p).plan
      else none
  | .acquiresleep p =>
      match (m.proc p).waiting with
      | none => none
      | some b =>
          if m.locked b then none
          else some (.ok ({ m with locked := Function.update m.locked b true }.setProc p
            { m.proc p with waiting := none, held := b :: (m.proc p).held }))
  | .endCommit p =>
      if (m.proc p).phase = .committing ∧ (m.proc p).plan = [] ∧ (m.proc p).waiting = none then
        some (.ok ({ m with log := m.log.committed }.setProc p { m.proc p with phase := .outside }))
      else none

/-- A panicked kernel takes no further step. -/
def step : Except Stop Machine → Label → Option (Except Stop Machine)
  | .error _, _ => none
  | .ok m, label => call m label

/-- After `binit` and `initlog` on an image `mkfs` made. -/
def boot : Machine where
  ring := BufferRing.boot
  locked _ := false
  log := { start := 2, size := LOGSIZE, outstanding := 0, committing := false, dev := ROOTDEV
           lh := { n := 0, block := fun _ => 0 } }
  proc _ := Proc.resting

/-- A process holds the buffer or waits for its lock, or the log has pinned it. -/
def busy (m : Machine) : Finset (Fin NBUF) :=
  Finset.univ.filter fun b =>
    (∃ p, b ∈ (m.proc p).held ∨ (m.proc p).waiting = some b) ∨ m.ring.pins b ≠ 0

/-- The block the labelled step asks `bget` for. -/
def requests (m : Machine) : Label → Option Nat
  | .bread _ blockno => some blockno
  | .follow p =>
      match (m.proc p).plan with
      | .bread blockno :: _ => some blockno
      | _ => none
  | _ => none

/-- When a step asks for a block that is not cached, some buffer is neither held nor
awaited nor pinned. -/
def Spare (m : Machine) (label : Label) : Prop :=
  ∀ blockno, requests m label = some blockno →
    m.ring.cache.lookup m.log.dev blockno ≠ none ∨ (busy m).card < NBUF

section Invariant

/-- The references of one process to a buffer. -/
def uses (proc : Proc) (b : Fin NBUF) : Nat :=
  proc.held.count b + if proc.waiting = some b then 1 else 0

structure Inv (m : Machine) : Prop where
  ring : ∃ order, BufferRing.Inv m.ring order
  refs : ∀ b, m.ring.refs b = ∑ p, uses (m.proc p) b

theorem boot_inv : Inv boot where
  ring := ⟨_, BufferRing.boot_inv⟩
  refs b := by
    symm
    exact Finset.sum_eq_zero fun p _ => rfl

variable {m : Machine} {p : Fin NPROC} {proc : Proc} {b : Fin NBUF}

theorem sum_setProc (m : Machine) (p : Fin NPROC) (proc : Proc) (b : Fin NBUF) :
    ∑ q, uses ((m.setProc p proc).proc q) b + uses (m.proc p) b =
      ∑ q, uses (m.proc q) b + uses proc b := by
  have split : ∀ table : Fin NPROC → Proc, ∑ q, uses (table q) b =
      uses (table p) b + ∑ q ∈ Finset.univ.erase p, uses (table q) b := fun table =>
    (Finset.add_sum_erase Finset.univ (fun q => uses (table q) b) (Finset.mem_univ p)).symm
  have rest : ∑ q ∈ Finset.univ.erase p, uses ((m.setProc p proc).proc q) b =
      ∑ q ∈ Finset.univ.erase p, uses (m.proc q) b := by
    refine Finset.sum_congr rfl fun q other => ?_
    exact congrArg (uses · b) (Function.update_of_ne (Finset.ne_of_mem_erase other) _ _)
  have new : (m.setProc p proc).proc p = proc := Function.update_self _ _ _
  rw [split (m.setProc p proc).proc, split m.proc, rest, new]
  omega

/-- A step that leaves the references of every process and buffer as they are. -/
theorem Inv.keep (inv : Inv m) {m' : Machine} (ring : ∃ order, BufferRing.Inv m'.ring order)
    (refs : m'.ring.refs = m.ring.refs) (procs : m'.proc = Function.update m.proc p proc)
    (same : ∀ b, uses proc b = uses (m.proc p) b) : Inv m' where
  ring := ring
  refs b := by
    have total := sum_setProc m p proc b
    have now : (m.setProc p proc).proc = m'.proc := procs.symm
    rw [now, same b] at total
    rw [refs, inv.refs b]
    omega

theorem Inv.ringStep (inv : Inv m) {label : BufferRing.Label} {ring : BufferRing.Machine}
    (stepped : BufferRing.step m.ring label = some ring) : ∃ order, BufferRing.Inv ring order := by
  obtain ⟨order, held⟩ := inv.ring
  exact BufferRing.step_inv held stepped

theorem takeBlock_inv (inv : Inv m) (idle : (m.proc p).waiting = none) {blockno : Nat}
    {plan : List Action} {m' : Machine} (took : takeBlock m p blockno plan = some (.ok m')) :
    Inv m' := by
  unfold takeBlock at took
  split at took
  · cases took
  case h_2 b cache got =>
    obtain ⟨ring, stepped, is⟩ := Option.map_eq_some_iff.mp took
    cases is
    refine ⟨inv.ringStep stepped, fun a => ?_⟩
    have refs : ring.refs = Function.update m.ring.refs b (m.ring.refs b + 1) := by
      simp only [BufferRing.step, got, Option.map_some, Option.some.injEq] at stepped
      rw [← stepped]
    have total := sum_setProc m p { m.proc p with plan, waiting := some b } a
    have before := inv.refs a
    have mine : uses { m.proc p with plan, waiting := some b } a =
        uses (m.proc p) a + if b = a then 1 else 0 := by
      unfold uses
      simp only [idle, Option.some.injEq, reduceCtorEq, ↓reduceIte, Nat.add_zero]
    change ring.refs a = ∑ q, uses ((m.setProc p _).proc q) a
    rw [refs, Function.update_apply]
    by_cases same : a = b
    · subst same
      rw [mine, if_pos rfl] at total
      rw [if_pos rfl]
      omega
    · rw [mine, if_neg (fun eq => same eq.symm)] at total
      rw [if_neg same]
      omega

theorem releaseBlock_inv (inv : Inv m) {plan : List Action} {m' : Machine}
    (released : releaseBlock m p b plan = some (.ok m')) : Inv m' := by
  unfold releaseBlock at released
  split at released
  case isFalse => cases released
  case isTrue held =>
    obtain ⟨ring, stepped, is⟩ := Option.map_eq_some_iff.mp released
    cases is
    refine ⟨inv.ringStep stepped, fun a => ?_⟩
    have refs : ring.refs = Function.update m.ring.refs b (m.ring.refs b - 1) := by
      simp only [BufferRing.step] at stepped
      split at stepped
      · cases stepped
      · cases stepped
        rfl
    have total := sum_setProc m p { m.proc p with plan, held := (m.proc p).held.erase b } a
    have before := inv.refs a
    have positive : 0 < (m.proc p).held.count b := List.count_pos_iff.mpr held
    have mine : uses { m.proc p with plan, held := (m.proc p).held.erase b } a +
        (if b = a then 1 else 0) = uses (m.proc p) a := by
      unfold uses
      dsimp only
      rw [List.count_erase]
      by_cases same : b = a
      · subst same
        simp only [BEq.rfl, ↓reduceIte]
        omega
      · rw [if_neg (by simpa using same), if_neg same]
        omega
    change ring.refs a = ∑ q, uses ((m.setProc p _).proc q) a
    rw [refs, Function.update_apply]
    by_cases same : a = b
    · subst same
      rw [if_pos rfl] at mine ⊢
      omega
    · rw [if_neg (fun eq => same eq.symm)] at mine
      rw [if_neg same]
      omega

theorem followPlan_inv (inv : Inv m) (idle : (m.proc p).waiting = none) (plan : List Action)
    {m' : Machine} (followed : followPlan m p plan = some (.ok m')) : Inv m' := by
  match plan with
  | [] => cases followed
  | .bread blockno :: rest => exact takeBlock_inv inv idle followed
  | .brelse blockno :: rest =>
      obtain ⟨b, _, released⟩ := Option.bind_eq_some_iff.mp followed
      exact releaseBlock_inv inv released
  | .bunpin blockno :: rest =>
      obtain ⟨b, _, unpinned⟩ := Option.bind_eq_some_iff.mp followed
      obtain ⟨ring, stepped, is⟩ := Option.bind_eq_some_iff.mp unpinned
      cases is
      refine inv.keep (inv.ringStep stepped) ?_ rfl (fun _ => rfl)
      change ring.refs = m.ring.refs
      simp only [BufferRing.step] at stepped
      split at stepped
      · cases stepped
      · cases stepped
        rfl
  | .clear :: rest =>
      cases followed
      exact inv.keep inv.ring rfl rfl (fun _ => rfl)

theorem logWrite_inv (inv : Inv m) {m' : Machine} (logged : logWrite m b = some (.ok m')) :
    Inv m' := by
  unfold logWrite at logged
  split at logged
  · cases logged
  · cases logged
    exact ⟨inv.ring, inv.refs⟩
  · obtain ⟨ring, stepped, is⟩ := Option.map_eq_some_iff.mp logged
    cases is
    refine ⟨inv.ringStep stepped, ?_⟩
    cases stepped
    exact inv.refs

theorem step_inv (inv : Inv m) {label : Label} {m' : Machine}
    (stepped : call m label = some (.ok m')) : Inv m' := by
  cases label with
  | startRead p blocks =>
      simp only [call] at stepped
      split at stepped
      · cases stepped
        exact inv.keep inv.ring rfl rfl (fun _ => rfl)
      · cases stepped
  | endRead p =>
      simp only [call] at stepped
      split at stepped
      · cases stepped
        exact inv.keep inv.ring rfl rfl (fun _ => rfl)
      · cases stepped
  | beginOp p =>
      simp only [call] at stepped
      split at stepped
      · cases stepped
        exact inv.keep inv.ring rfl rfl (fun _ => rfl)
      · cases stepped
  | bread p blockno =>
      simp only [call] at stepped
      split at stepped
      case isTrue may => exact takeBlock_inv inv may.2 stepped
      case isFalse => cases stepped
  | logWrite p b =>
      simp only [call] at stepped
      split at stepped
      · exact logWrite_inv inv stepped
      · cases stepped
  | brelse p b =>
      simp only [call] at stepped
      split at stepped
      · exact releaseBlock_inv inv stepped
      · cases stepped
  | endOp p =>
      simp only [call] at stepped
      split at stepped
      · have ended := Option.some.inj stepped
        unfold endOp at ended
        split at ended
        · cases ended
        · cases ended
          exact inv.keep inv.ring rfl rfl (fun _ => rfl)
      · cases stepped
  | follow p =>
      simp only [call] at stepped
      split at stepped
      case isTrue may => exact followPlan_inv inv may.2 _ stepped
      case isFalse => cases stepped
  | acquiresleep p =>
      simp only [call] at stepped
      split at stepped
      · cases stepped
      case h_2 b awaited =>
        split at stepped
        · cases stepped
        · cases stepped
          refine inv.keep inv.ring rfl rfl (fun a => ?_)
          unfold uses
          dsimp only
          rw [awaited, List.count_cons]
          by_cases same : b = a
          · subst same
            simp
          · rw [if_neg (by simpa using same), if_neg (by simp), if_neg (by simpa using same)]
  | endCommit p =>
      simp only [call] at stepped
      split at stepped
      · cases stepped
        exact inv.keep inv.ring rfl rfl (fun _ => rfl)
      · cases stepped

end Invariant

section Results

variable {m : Machine}

/-- A buffer is without references exactly when nobody holds, awaits or pins it. -/
theorem Inv.refcnt_zero (inv : Inv m) (b : Fin NBUF) :
    (m.ring.cache.buf b).refcnt = 0 ↔ b ∉ busy m := by
  obtain ⟨order, held⟩ := inv.ring
  rw [held.counts b, inv.refs b]
  unfold busy
  rw [Finset.mem_filter, Nat.add_eq_zero_iff, Finset.sum_eq_zero_iff]
  constructor
  · rintro ⟨unused, unpinned⟩ ⟨-, ⟨p, holds | waits⟩ | pinned⟩
    · have none := unused p (Finset.mem_univ p)
      unfold uses at none
      have positive := List.count_pos_iff.mpr holds
      omega
    · have none := unused p (Finset.mem_univ p)
      unfold uses at none
      rw [if_pos waits] at none
      omega
    · exact pinned unpinned
  · intro free
    have outside : ¬ ((∃ p, b ∈ (m.proc p).held ∨ (m.proc p).waiting = some b) ∨
        m.ring.pins b ≠ 0) := fun is => free ⟨Finset.mem_univ b, is⟩
    rw [not_or, not_exists, not_not] at outside
    refine ⟨fun p _ => ?_, outside.2⟩
    have apart := not_or.mp (outside.1 p)
    unfold uses
    rw [if_neg apart.2, List.count_eq_zero_of_not_mem apart.1, Nat.add_zero]

/-- `bget` panics exactly on a block that is not cached while every buffer is held,
awaited or pinned. -/
theorem Inv.bget_none_iff (inv : Inv m) (blockno : Nat) :
    BufferRing.bget m.log.dev blockno m.ring.cache = none ↔
      m.ring.cache.lookup m.log.dev blockno = none ∧ (busy m).card = NBUF := by
  obtain ⟨order, held⟩ := inv.ring
  have full : m.ring.cache.victim = none ↔ (busy m).card = NBUF := by
    rw [held.linked.victim, List.find?_eq_none]
    have all : (busy m).card = NBUF ↔ busy m = Finset.univ := by
      rw [← Finset.card_eq_iff_eq_univ, Fintype.card_fin]
    rw [all]
    constructor
    · intro none
      refine Finset.eq_univ_of_forall fun b => ?_
      by_contra free
      have idle := (inv.refcnt_zero b).mpr free
      exact none b (List.mem_reverse.mpr (held.linked.2 b)) (by simpa using idle)
    · intro every b _ idle
      have zero : (m.ring.cache.buf b).refcnt = 0 := by simpa using idle
      exact (inv.refcnt_zero b).mp zero (by rw [every]; exact Finset.mem_univ b)
  rw [← full]
  unfold BufferRing.bget
  cases m.ring.cache.lookup m.log.dev blockno with
  | some b => simp
  | none => cases m.ring.cache.victim <;> simp

theorem record_stops {log : Log} {blockno : Nat} {stop : Stop}
    (failed : log.record blockno = .error stop) : stop ≠ .bgetNoBuffers := by
  unfold Log.record at failed
  split at failed
  · cases failed
    decide
  · split at failed
    · cases failed
      decide
    · dsimp only at failed
      split at failed <;> cases failed

theorem finish_stops {log : Log} {stop : Stop} (failed : log.finish = .error stop) :
    stop ≠ .bgetNoBuffers := by
  unfold Log.finish at failed
  dsimp only at failed
  split at failed
  · cases failed
    decide
  · split at failed <;> cases failed

theorem takeBlock_stops {p : Fin NPROC} {blockno : Nat} {plan : List Action} {stop : Stop}
    (failed : takeBlock m p blockno plan = some (.error stop)) :
    BufferRing.bget m.log.dev blockno m.ring.cache = none := by
  unfold takeBlock at failed
  split at failed
  case h_1 none => exact none
  case h_2 =>
    obtain ⟨ring, _, is⟩ := Option.map_eq_some_iff.mp failed
    cases is

/-- Only a call of `bget` ends in its panic. -/
theorem call_stops {label : Label} (failed : call m label = some (.error .bgetNoBuffers)) :
    ∃ blockno, requests m label = some blockno ∧
      BufferRing.bget m.log.dev blockno m.ring.cache = none := by
  have released : ∀ (p : Fin NPROC) (b : Fin NBUF) (plan : List Action) (stop : Stop),
      releaseBlock m p b plan ≠ some (.error stop) := by
    intro p b plan stop is
    unfold releaseBlock at is
    split at is
    · obtain ⟨ring, _, is⟩ := Option.map_eq_some_iff.mp is
      cases is
    · cases is
  cases label with
  | bread p blockno =>
      simp only [call] at failed
      split at failed
      · exact ⟨blockno, rfl, takeBlock_stops failed⟩
      · cases failed
  | follow p =>
      simp only [call] at failed
      split at failed
      case isFalse => cases failed
      case isTrue =>
        match plan : (m.proc p).plan with
        | [] =>
            rw [plan] at failed
            cases failed
        | .bread blockno :: rest =>
            rw [plan] at failed
            exact ⟨blockno, by simp only [requests, plan], takeBlock_stops failed⟩
        | .brelse blockno :: rest =>
            rw [plan] at failed
            obtain ⟨b, _, is⟩ := Option.bind_eq_some_iff.mp failed
            exact absurd is (released p b rest _)
        | .bunpin blockno :: rest =>
            rw [plan] at failed
            obtain ⟨b, _, is⟩ := Option.bind_eq_some_iff.mp failed
            obtain ⟨ring, _, is⟩ := Option.bind_eq_some_iff.mp is
            cases is
        | .clear :: rest =>
            rw [plan] at failed
            cases failed
  | logWrite p b =>
      simp only [call] at failed
      split at failed
      case isFalse => cases failed
      case isTrue =>
        unfold logWrite at failed
        split at failed
        case h_1 stop recorded =>
          cases failed
          exact absurd rfl (record_stops recorded)
        case h_2 => cases failed
        case h_3 =>
          obtain ⟨ring, _, is⟩ := Option.map_eq_some_iff.mp failed
          cases is
  | brelse p b =>
      simp only [call] at failed
      split at failed
      · exact absurd failed (released p b _ _)
      · cases failed
  | endOp p =>
      simp only [call] at failed
      split at failed
      case isFalse => cases failed
      case isTrue =>
        have ended := Option.some.inj failed
        unfold endOp at ended
        split at ended
        case h_1 stop finished =>
          cases ended
          exact absurd rfl (finish_stops finished)
        case h_2 => cases ended
  | startRead p blocks | endRead p | beginOp p | endCommit p =>
      simp only [call] at failed
      split at failed <;> cases failed
  | acquiresleep p =>
      simp only [call] at failed
      split at failed
      · cases failed
      · split at failed <;> cases failed

/-- A process that reads one block on an idle machine. -/
def oneReader : List Label :=
  [.startRead ⟨0, by decide⟩ [100], .follow ⟨0, by decide⟩, .acquiresleep ⟨0, by decide⟩,
    .follow ⟨0, by decide⟩, .endRead ⟨0, by decide⟩]

def decideSpare : Except Stop Machine → Label → Bool
  | .error _, _ => true
  | .ok m, label =>
      match requests m label with
      | none => true
      | some _ => decide ((busy m).card < NBUF)

/-- Processes that each start to read a block of their own and wait for the disk. -/
def readers (count : Nat) : List Label :=
  ((List.finRange NPROC).take count).flatMap fun p => [.startRead p [100 + p.val], .follow p]

end Results

end PaddleOs.BufferPressure
