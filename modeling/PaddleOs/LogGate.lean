import PaddleOs.Log
import PaddleOs.Foundation.Runs
import Mathlib.Data.Fintype.Card
import Mathlib.Data.Fintype.Basic
import Mathlib.Data.Finset.Card
import Mathlib.Algebra.BigOperators.Fin
import Mathlib.Tactic.Ring

/-!
The transaction gate of `log.c` under interleaving. Any number of processes
call `begin_op`, `log_write` and `end_op`; each stretch under `log.lock` is one
step, and `commit()` is one more, made by the process whose `end_op` set
`do_commit`. A process writes only inside its own operation, and at most
`MAXOPBLOCKS` distinct blocks in it. A run ends when a step panics.
-/

namespace PaddleOs.LogGate

open Foundation.Runs

inductive Phase where
  | idle
  | inside (blocks : List Nat)
  | committing
  | committed
  deriving DecidableEq, Repr

structure Gate (procs : Nat) where
  log : Log
  phase : Fin procs → Phase

inductive Call (procs : Nat) where
  | beginOp (p : Fin procs)
  | logWrite (p : Fin procs) (blockno : Nat)
  | endOp (p : Fin procs)
  | commit (p : Fin procs)
  | endCommit (p : Fin procs)

variable {procs : Nat}

def Gate.move (g : Gate procs) (log : Log) (p : Fin procs) (phase : Phase) : Gate procs :=
  { log, phase := Function.update g.phase p phase }

/-- One call. `none` when the process may not make it now or `begin_op` sleeps;
an error when it panics. -/
def call (g : Gate procs) : Call procs → Option (Except Stop (Gate procs))
  | .beginOp p =>
      if g.phase p = .idle ∧ g.log.admits then some (.ok (g.move g.log.begin p (.inside [])))
      else none
  | .logWrite p blockno =>
      match g.phase p with
      | .inside blocks =>
          if blockno ∈ blocks ∨ blocks.length < MAXOPBLOCKS then
            match g.log.record blockno with
            | .error stop => some (.error stop)
            | .ok (log, _) => some (.ok (g.move log p (.inside (blocks.insert blockno))))
          else none
      | _ => none
  | .endOp p =>
      match g.phase p with
      | .inside _ =>
          match g.log.finish with
          | .error stop => some (.error stop)
          | .ok (log, doCommit) =>
              some (.ok (g.move log p (if doCommit then .committing else .idle)))
      | _ => none
  | .commit p =>
      if g.phase p = .committing then some (.ok (g.move g.log.cleared p .committed)) else none
  | .endCommit p =>
      if g.phase p = .committed then some (.ok (g.move g.log.committed p .idle)) else none

/-- A panicked kernel takes no further step. -/
def step : Except Stop (Gate procs) → Call procs → Option (Except Stop (Gate procs))
  | .error _, _ => none
  | .ok g, c => call g c

/-- `mkfs` sets `nlog = LOGSIZE`, which counts the header block. -/
def nlog : Nat := LOGSIZE

/-- The gate after `initlog` on an image `mkfs` made. -/
def opened (procs : Nat) : Gate procs where
  log := { start := 2, size := nlog, outstanding := 0, committing := false, dev := ROOTDEV
           lh := { n := 0, block := fun _ => 0 } }
  phase _ := .idle

/-- The distinct blocks logged since the last commit, in order of their first write. -/
def recorded : List (Call procs) → List Nat :=
  List.foldl (fun blocks c =>
    match c with
    | Call.logWrite _ blockno => if blockno ∈ blocks then blocks else blocks ++ [blockno]
    | .commit _ => []
    | _ => blocks) []

def isInside : Phase → Bool
  | .inside _ => true
  | _ => false

def operations (g : Gate procs) : Nat :=
  (Finset.univ.filter fun p => isInside (g.phase p) = true).card

/-- `lh.block[0 .. n)` lists exactly `blocks`. -/
def Lists (lh : LogHeader) (blocks : List Nat) : Prop :=
  lh.n = blocks.length ∧ ∀ i (bound : i < blocks.length), lh.block i = blocks[i]

structure Invariant (calls : List (Call procs)) (g : Gate procs) : Prop where
  size : g.log.size = nlog
  counted : g.log.outstanding = operations g
  listed : Lists g.log.lh (recorded calls)
  free : g.log.committing = true → g.log.outstanding = 0
  fits : g.log.lh.n ≤ g.log.size - 1

theorem recorded_snoc (calls : List (Call procs)) (c : Call procs) :
    recorded (calls ++ [c]) =
      match c with
      | .logWrite _ blockno =>
          if blockno ∈ recorded calls then recorded calls else recorded calls ++ [blockno]
      | .commit _ => []
      | _ => recorded calls := by
  simp only [recorded, List.foldl_append, List.foldl_cons, List.foldl_nil]
  cases c <;> rfl

@[simp]
theorem Gate.move_log (g : Gate procs) (log : Log) (p : Fin procs) (phase : Phase) :
    (g.move log p phase).log = log := rfl

theorem Gate.move_same (g : Gate procs) (log : Log) (p : Fin procs) (phase : Phase) :
    (g.move log p phase).phase p = phase := Function.update_self ..

theorem Gate.move_other (g : Gate procs) (log : Log) {p q : Fin procs} (phase : Phase)
    (apart : q ≠ p) : (g.move log p phase).phase q = g.phase q :=
  Function.update_of_ne apart ..

/-- Moving one process changes the number of open operations by that process only. -/
theorem operations_move (g : Gate procs) (log : Log) (p : Fin procs) (phase : Phase) :
    operations (g.move log p phase) + (if isInside (g.phase p) = true then 1 else 0) =
      operations g + (if isInside phase = true then 1 else 0) := by
  have others : ∑ q ∈ Finset.univ.erase p,
      (if isInside ((g.move log p phase).phase q) = true then 1 else 0) =
      ∑ q ∈ Finset.univ.erase p, (if isInside (g.phase q) = true then 1 else 0) := by
    apply Finset.sum_congr rfl
    intro q member
    rw [g.move_other log phase (Finset.ne_of_mem_erase member)]
  simp only [operations, Finset.card_filter]
  rw [← Finset.add_sum_erase _ _ (Finset.mem_univ p), others, g.move_same,
    ← Finset.add_sum_erase Finset.univ (fun q => if isInside (g.phase q) = true then 1 else 0)
      (Finset.mem_univ p)]
  ring

theorem operations_pos (g : Gate procs) (p : Fin procs) (inside : isInside (g.phase p) = true) :
    0 < operations g :=
  Finset.card_pos.mpr ⟨p, Finset.mem_filter.mpr ⟨Finset.mem_univ p, inside⟩⟩

theorem position_member {lh : LogHeader} {blocks : List Nat} (listed : Lists lh blocks)
    {blockno : Nat} (member : blockno ∈ blocks) :
    lh.position blockno < blocks.length ∧ lh.block (lh.position blockno) = blockno := by
  have count : lh.n.toNat = blocks.length := by rw [listed.1, Int.toNat_natCast]
  obtain ⟨i, bound, same⟩ := List.getElem_of_mem member
  unfold LogHeader.position
  rw [count]
  cases found : (List.range blocks.length).find? (fun i => lh.block i == blockno) with
  | none =>
      have miss := List.find?_eq_none.mp found i (List.mem_range.mpr bound)
      rw [listed.2 i bound, same] at miss
      simp at miss
  | some k =>
      have hit := List.find?_some found
      have small := List.mem_range.mp (List.mem_of_find?_eq_some found)
      exact ⟨small, by simpa using hit⟩

theorem position_fresh {lh : LogHeader} {blocks : List Nat} (listed : Lists lh blocks)
    {blockno : Nat} (fresh : blockno ∉ blocks) : lh.position blockno = blocks.length := by
  have count : lh.n.toNat = blocks.length := by rw [listed.1, Int.toNat_natCast]
  unfold LogHeader.position
  rw [count]
  cases found : (List.range blocks.length).find? (fun i => lh.block i == blockno) with
  | none => rfl
  | some k =>
      have hit := List.find?_some found
      have small := List.mem_range.mp (List.mem_of_find?_eq_some found)
      rw [listed.2 k small] at hit
      have same : blocks[k] = blockno := by simpa using hit
      exact absurd (same ▸ List.getElem_mem small) fresh

/-- `log_write` on a header that lists `blocks`: it panics exactly when the list
fills the data slots, also when the block is already listed. -/
theorem record_cases {log : Log} {blocks : List Nat} (size : log.size = nlog)
    (listed : Lists log.lh blocks) (inTrans : 0 < log.outstanding) (blockno : Nat) :
    (nlog - 1 ≤ blocks.length ∧ log.record blockno = .error .tooBigTransaction) ∨
    (blocks.length < nlog - 1 ∧ ∃ lh pin,
      log.record blockno = .ok ({ log with lh }, pin) ∧
      Lists lh (if blockno ∈ blocks then blocks else blocks ++ [blockno])) := by
  have count : log.lh.n.toNat = blocks.length := by rw [listed.1, Int.toNat_natCast]
  have capacity : log.size = 30 := size
  have slots : nlog - 1 = 29 := rfl
  have limit : (LOGSIZE : Int) = 30 := rfl
  have filled := listed.1
  unfold Log.record
  by_cases full : 29 ≤ blocks.length
  · left
    refine ⟨by omega, ?_⟩
    rw [if_pos (Or.inr (by omega))]
  · right
    refine ⟨by omega, ?_⟩
    rw [if_neg (by omega), if_neg (by omega)]
    by_cases member : blockno ∈ blocks
    · obtain ⟨small, same⟩ := position_member listed member
      have unchanged : Function.update log.lh.block (log.lh.position blockno) blockno =
          log.lh.block := by
        have self := Function.update_eq_self (log.lh.position blockno) log.lh.block
        rwa [same] at self
      rw [count, if_neg (by omega), unchanged, if_pos member]
      exact ⟨log.lh, false, rfl, listed⟩
    · have place := position_fresh listed member
      rw [count, if_pos place, place, if_neg member]
      refine ⟨_, true, rfl, ?_, ?_⟩
      · simp [filled]
      · intro i bound
        by_cases last : i = blocks.length
        · subst last
          simp
        · have earlier : i < blocks.length := by
            rw [List.length_append, List.length_singleton] at bound
            omega
          rw [List.getElem_append_left earlier]
          exact (Function.update_of_ne last ..).trans (listed.2 i earlier)

theorem opened_invariant : Invariant [] (opened procs) := by
  refine ⟨rfl, ?_, ⟨rfl, fun i bound => absurd bound (by simp [recorded])⟩, ?_, ?_⟩
  · simp [opened, operations, isInside]
  · intro impossible
    cases impossible
  · change (0 : Int) ≤ 30 - 1
    norm_num

/-- The invariant after a step that moves one process and leaves the header's list alone. -/
theorem Invariant.moved {calls : List (Call procs)} {g : Gate procs} (held : Invariant calls g)
    {log : Log} {p : Fin procs} {phase : Phase} {c : Call procs} (size : log.size = g.log.size)
    (opens : log.outstanding + (if isInside (g.phase p) = true then 1 else 0) =
      g.log.outstanding + (if isInside phase = true then 1 else 0))
    (listed : Lists log.lh (recorded (calls ++ [c])))
    (free : log.committing = true → log.outstanding = 0)
    (short : (recorded (calls ++ [c])).length ≤ nlog - 1) :
    Invariant (calls ++ [c]) (g.move log p phase) := by
  have counted := operations_move g log p phase
  have before := held.counted
  refine ⟨size.trans held.size, ?_, listed, free, ?_⟩
  · change log.outstanding = _
    split_ifs at counted opens <;> omega
  · change log.lh.n ≤ log.size - 1
    have filled := listed.1
    have capacity : g.log.size = 30 := held.size
    have slots : nlog - 1 = 29 := rfl
    omega

/-- The list is within the data slots of the log. -/
theorem Invariant.short {calls : List (Call procs)} {g : Gate procs} (held : Invariant calls g) :
    (recorded calls).length ≤ nlog - 1 := by
  have fits := held.fits
  have filled := held.listed.1
  have capacity : g.log.size = 30 := held.size
  have slots : nlog - 1 = 29 := rfl
  omega

/-- What a call does from a state the invariant describes: the only panic is
`log_write` on a full list. -/
theorem call_cases {calls : List (Call procs)} {g : Gate procs} (held : Invariant calls g)
    {c : Call procs} {next : Except Stop (Gate procs)} (called : call g c = some next) :
    (∃ p blockno, c = .logWrite p blockno ∧ nlog - 1 ≤ (recorded calls).length ∧
      next = .error .tooBigTransaction) ∨
    (∃ g', next = .ok g' ∧ Invariant (calls ++ [c]) g' ∧
      ∀ p blockno, c = .logWrite p blockno → (recorded calls).length < nlog - 1) := by
  cases c with
  | beginOp p =>
      simp only [call] at called
      split at called
      · rename_i may
        cases called
        have idle : g.log.committing = false := by
          have admitted := may.2
          simp only [Log.admits, Bool.and_eq_true, Bool.not_eq_true'] at admitted
          exact admitted.1
        have same : recorded (calls ++ [Call.beginOp p]) = recorded calls := recorded_snoc ..
        refine Or.inr ⟨_, rfl, held.moved rfl ?_ ?_ ?_ ?_, by rintro _ _ impossible; cases impossible⟩
        · simp [may.1, isInside, Log.begin]
        · rw [same]
          exact held.listed
        · intro busy
          exact absurd (idle.symm.trans busy) Bool.false_ne_true
        · rw [same]
          exact held.short
      · cases called
  | logWrite p blockno =>
      simp only [call] at called
      split at called
      · rename_i blocks inside
        split at called
        · have isIn : isInside (g.phase p) = true := by rw [inside]; rfl
          have positive : 0 < g.log.outstanding := by
            rw [held.counted]
            exact_mod_cast operations_pos g p isIn
          rcases record_cases held.size held.listed positive blockno with
            ⟨full, panics⟩ | ⟨room, lh, pin, recordedOk, listed⟩
          · rw [panics] at called
            cases called
            exact Or.inl ⟨p, blockno, rfl, full, rfl⟩
          · rw [recordedOk] at called
            cases called
            have after : recorded (calls ++ [Call.logWrite p blockno]) =
                if blockno ∈ recorded calls then recorded calls
                else recorded calls ++ [blockno] := recorded_snoc ..
            refine Or.inr ⟨_, rfl, held.moved rfl ?_ ?_ held.free ?_, fun _ _ _ => room⟩
            · simp [inside, isInside]
            · rw [after]
              exact listed
            · rw [after]
              split
              · omega
              · rw [List.length_append, List.length_singleton]
                omega
        · cases called
      · cases called
  | endOp p =>
      simp only [call] at called
      split at called
      · rename_i blocks inside
        have isIn : isInside (g.phase p) = true := by rw [inside]; rfl
        have positive := operations_pos g p isIn
        have idle : g.log.committing = false := by
          cases busy : g.log.committing with
          | false => rfl
          | true =>
              have zero := held.free busy
              have counted := held.counted
              omega
        have same : recorded (calls ++ [Call.endOp p]) = recorded calls := recorded_snoc ..
        have listed : Lists g.log.lh (recorded (calls ++ [Call.endOp p])) := by
          rw [same]
          exact held.listed
        have short : (recorded (calls ++ [Call.endOp p])).length ≤ nlog - 1 := by
          rw [same]
          exact held.short
        have noWrite : ∀ q blockno, Call.endOp p = .logWrite q blockno →
            (recorded calls).length < nlog - 1 := by
          rintro _ _ impossible
          cases impossible
        simp only [Log.finish, idle, Bool.false_eq_true, if_false] at called
        by_cases last : g.log.outstanding - 1 = 0
        · rw [if_pos last] at called
          cases called
          refine Or.inr ⟨_, rfl, held.moved rfl ?_ listed (fun _ => last) short, noWrite⟩
          simp [inside, isInside]
        · rw [if_neg last] at called
          cases called
          refine Or.inr ⟨_, rfl, held.moved rfl ?_ listed ?_ short, noWrite⟩
          · simp [inside, isInside]
          · intro busy
            cases busy
      · cases called
  | commit p =>
      simp only [call] at called
      split at called
      · rename_i committing
        cases called
        have emptied : recorded (calls ++ [Call.commit p]) = [] := recorded_snoc ..
        refine Or.inr ⟨_, rfl, held.moved rfl ?_ ?_ held.free ?_, by rintro _ _ impossible; cases impossible⟩
        · simp [committing, isInside, Log.cleared]
        · rw [emptied]
          exact ⟨rfl, fun i bound => absurd bound (Nat.not_lt_zero i)⟩
        · rw [emptied]
          exact Nat.zero_le _
      · cases called
  | endCommit p =>
      simp only [call] at called
      split at called
      · rename_i committed
        cases called
        have same : recorded (calls ++ [Call.endCommit p]) = recorded calls := recorded_snoc ..
        refine Or.inr ⟨_, rfl, held.moved rfl ?_ ?_ ?_ ?_, by rintro _ _ impossible; cases impossible⟩
        · simp [committed, isInside, Log.committed]
        · rw [same]
          exact held.listed
        · intro busy
          cases busy
        · rw [same]
          exact held.short
      · cases called

/-- At every `log_write` of the run fewer than `log.size - 1` distinct blocks
have been logged since the last commit. -/
def RoomAtEveryWrite (calls : List (Call procs)) : Prop :=
  ∀ before p blockno after, calls = before ++ Call.logWrite p blockno :: after →
    (recorded before).length < nlog - 1

/-- Where a run is: at a panic of its last `log_write`, or in the invariant. -/
def Reached (calls : List (Call procs)) : Except Stop (Gate procs) → Prop
  | .ok g => Invariant calls g ∧ RoomAtEveryWrite calls
  | .error stop => stop = .tooBigTransaction ∧ ¬ RoomAtEveryWrite calls

theorem roomAtEveryWrite_snoc {calls : List (Call procs)} {c : Call procs}
    (room : RoomAtEveryWrite calls)
    (last : ∀ p blockno, c = .logWrite p blockno → (recorded calls).length < nlog - 1) :
    RoomAtEveryWrite (calls ++ [c]) := by
  intro before p blockno after split
  rcases List.eq_nil_or_concat after with rfl | ⟨front, final, rfl⟩
  · obtain ⟨rfl, same⟩ := List.append_inj' split rfl
    exact last p blockno (List.cons.inj same).1
  · have shape : calls ++ [c] = (before ++ Call.logWrite p blockno :: front) ++ [final] := by
      rw [split]
      simp
    obtain ⟨rest, -⟩ := List.append_inj' shape rfl
    exact room before p blockno front rest

theorem run_reached {calls : List (Call procs)} {final : Except Stop (Gate procs)}
    (ran : run step (.ok (opened procs)) calls = some final) : Reached calls final := by
  refine run_invariant step Reached ?_ ?_ ran
  · refine ⟨opened_invariant, ?_⟩
    intro before p blockno after split
    simp at split
  · intro calls state c next _ reached stepped
    cases state with
    | error stop => cases stepped
    | ok g =>
        obtain ⟨held, room⟩ := reached
        rcases call_cases held stepped with ⟨p, blockno, rfl, full, rfl⟩ | ⟨g', rfl, held', last⟩
        · refine ⟨rfl, ?_⟩
          intro every
          have small := every calls p blockno [] rfl
          omega
        · exact ⟨held', roomAtEveryWrite_snoc room last⟩

/-- A run of the gate ends without a panic, with the header's count within the
data slots, exactly when every `log_write` of it found room. The other panic of
`log_write` is never reached. -/
theorem gate_admits_iff_room {calls : List (Call procs)} {final : Except Stop (Gate procs)}
    (ran : run step (.ok (opened procs)) calls = some final) :
    (∃ g, final = .ok g ∧ g.log.lh.n ≤ g.log.size - 1) ↔ RoomAtEveryWrite calls := by
  have reached := run_reached ran
  cases final with
  | error stop =>
      constructor
      · rintro ⟨g, impossible, _⟩
        cases impossible
      · intro every
        exact absurd every reached.2
  | ok g =>
      constructor
      · intro _
        exact reached.2
      · intro _
        exact ⟨g, rfl, reached.1.fits⟩

/-- `count` writes of one process to consecutive blocks. -/
def writes (p : Fin procs) (first count : Nat) : List (Call procs) :=
  (List.range count).map fun i => .logWrite p (first + i)

/-- Three operations are admitted together; two of them use their ten blocks,
the third one nine of them. -/
def nearlySpent : List (Call 3) :=
  [Call.beginOp 0, Call.beginOp 1, Call.beginOp 2] ++ writes 0 100 10 ++ writes 1 110 10 ++ writes 2 120 9

def panicOf : Option (Except Stop (Gate procs)) → Option Stop
  | some (.error stop) => some stop
  | _ => none

theorem panicOf_some {final : Option (Except Stop (Gate procs))} {stop : Stop}
    (panicked : panicOf final = some stop) : final = some (.error stop) := by
  match final with
  | some (.error other) =>
      cases panicked
      rfl

theorem nearlySpent_admitted :
    ∃ final, run step (.ok (opened 3)) nearlySpent = some final ∧
      ((∃ g, final = .ok g ∧ g.log.lh.n ≤ g.log.size - 1) ↔ RoomAtEveryWrite nearlySpent) := by
  have goes : (run step (.ok (opened 3)) nearlySpent).isSome = true := by decide +kernel
  obtain ⟨final, ran⟩ := Option.isSome_iff_exists.mp goes
  exact ⟨final, ran, gate_admits_iff_room ran⟩

/-- The tenth block of the third operation panics, and so does a write of a
block that is already recorded. -/
theorem full_budget_panics :
    run step (.ok (opened 3)) (nearlySpent ++ [Call.logWrite 2 129]) =
        some (.error .tooBigTransaction) ∧
      run step (.ok (opened 3)) (nearlySpent ++ [Call.logWrite 2 100]) =
        some (.error .tooBigTransaction) :=
  ⟨panicOf_some (by decide +kernel), panicOf_some (by decide +kernel)⟩

end PaddleOs.LogGate
