import PaddleOs.Foundation.Monitor
import PaddleOs.Foundation.Runs
import PaddleOs.Foundation.Tally
import PaddleOs.Log

/-!
`begin_op`, `log_write` and `end_op` of `log.c` by any number of processes, with `log.lock`
taken and released where the code does it, waiters asleep on `&log`, and `commit` running
without the lock. The disk and the buffers are elsewhere; here are the fields of `log` that
the processes meet in.
-/

namespace PaddleOs.Transactions

open Foundation.Monitor Foundation.Runs Foundation.Tally

/-- Where a process stands. -/
inductive Site where
  | idle
  | beginOp
  | gate
  | operating
  | logWrite (blockno : Nat)
  | record (blockno : Nat)
  | endOp
  | finish
  | commit
  | install
  | emptied
  | committed
  | reopen
  | wake
  | leave
  | panicked (stop : Stop)
  deriving DecidableEq

inductive Call where
  | beginOp
  | logWrite (blockno : Nat)
  | endOp
  deriving DecidableEq

variable {N : Nat}

def enter : Site → Option Site
  | .beginOp => some .gate
  | .logWrite blockno => some (.record blockno)
  | .endOp => some .finish
  | .committed => some .reopen
  | _ => none

/-- The stretches under `log.lock`. After a panic the lock is not given back. -/
def inside (log : Log) : Site → Option (Action Site Log Unit)
  | .gate => if log.admits then some (.release log.begin .operating) else some (.sleep () .gate)
  | .record blockno =>
      match log.record blockno with
      | .error stop => some (.move log (.panicked stop))
      | .ok (log, _) => some (.release log .operating)
  | .finish =>
      match log.finish with
      | .error stop => some (.move { log with outstanding := log.outstanding - 1 } (.panicked stop))
      | .ok (log, true) => some (.release log .commit)
      | .ok (log, false) => some (.move log .wake)
  | .reopen => some (.move log.committed .wake)
  | .wake => some (.wakeup () .leave)
  | .leave => some (.release log .idle)
  | _ => none

/-- The calls, and `commit` with its unlocked reads and writes of `lh.n`. -/
def outside (c : Call) (log : Log) : Site → Option (Log × Site)
  | .idle => if c = .beginOp then some (log, .beginOp) else none
  | .operating =>
      match c with
      | .beginOp => none
      | .logWrite blockno => some (log, .logWrite blockno)
      | .endOp => some (log, .endOp)
  | .commit => some (log, if log.lh.n > 0 then .install else .committed)
  | .install => some (log.cleared, .emptied)
  | .emptied => some (log, .committed)
  | _ => none

def program : Program N Call Site Log Unit where
  enter _ := enter
  inside _ _ := inside
  outside _ := outside

/-- After `initlog`, whatever block numbers the header on disk held. -/
def booted (start : Nat) (size : Int) (dev : Nat) (block : Nat → Nat) : State N Site Log Unit where
  shared := { start, size, outstanding := 0, committing := false, dev, lh := { n := 0, block } }
  holder := none
  pc _ := .outside .idle

/-- Between the return of `begin_op` and the decrement in `end_op`. -/
def Site.operates : Site → Bool
  | .operating | .logWrite _ | .record _ | .endOp | .finish => true
  | .panicked stop => decide (stop ≠ .logCommitting)
  | _ => false

/-- Between the two locked stretches of an `end_op` that commits, up to the store of
`committing = 0`. -/
def Site.commits : Site → Bool
  | .commit | .install | .emptied | .committed | .reopen => true
  | _ => false

def Operating (st : State N Site Log Unit) (t : Fin N) : Prop := (st.pc t).site.operates = true

def Committing (st : State N Site Log Unit) (t : Fin N) : Prop := (st.pc t).site.commits = true

instance (st : State N Site Log Unit) : DecidablePred (Operating st) :=
  fun _ => inferInstanceAs (Decidable (_ = true))

section Counting

def weight (site : Site) : Int := if site.operates = true then 1 else 0

/-- What the fields of `log` say about the processes. -/
structure Gate (log : Log) (site : Fin N → Site) : Prop where
  counted : log.outstanding = tally weight site
  quiet : log.committing = false → ∀ t, (site t).commits = false
  busy : log.committing = true → log.outstanding = 0 ∧
    ∃ t, (site t).commits = true ∧ ∀ u, (site u).commits = true → u = t
  sound : ∀ t, site t ≠ .panicked .logCommitting

variable {log log' : Log} {site : Fin N → Site} {t : Fin N} {next : Site}

theorem weight_nonneg (site : Site) : 0 ≤ weight site := by
  unfold weight
  split <;> decide

/-- While a process is in an operation nobody commits. -/
theorem Gate.open_ (gate : Gate log site) (operates : (site t).operates = true) :
    log.committing = false := by
  by_contra commits
  obtain ⟨none, -⟩ := gate.busy (by simpa using commits)
  have one := le_tally weight_nonneg site t
  have mine : weight (site t) = 1 := by
    unfold weight
    rw [if_pos operates]
  have counted := gate.counted
  omega

theorem sound_update (gate : Gate log site) (fine : next ≠ .panicked .logCommitting) (u : Fin N) :
    Function.update site t next u ≠ .panicked .logCommitting := by
  by_cases here : u = t
  · rw [here, Function.update_self]
    exact fine
  · rw [Function.update_of_ne here]
    exact gate.sound u

/-- A process moves on without entering or ending an operation or a commit. -/
theorem Gate.keep (gate : Gate log site) (outstanding : log'.outstanding = log.outstanding)
    (committing : log'.committing = log.committing) (operates : next.operates = (site t).operates)
    (commits : next.commits = (site t).commits) (fine : next ≠ .panicked .logCommitting) :
    Gate log' (Function.update site t next) := by
  have same : ∀ u, (Function.update site t next u).commits = (site u).commits := by
    intro u
    by_cases here : u = t
    · rw [here, Function.update_self, commits]
    · rw [Function.update_of_ne here]
  refine ⟨?_, fun idle u => ?_, fun is => ?_, sound_update gate fine⟩
  · rw [tally_update, outstanding, gate.counted]
    unfold weight
    rw [operates]
    omega
  · rw [same]
    exact gate.quiet (committing ▸ idle) u
  · obtain ⟨none, w, owns, only⟩ := gate.busy (committing ▸ is)
    exact ⟨outstanding.trans none, w, by rw [same]; exact owns,
      fun u committer => only u (by rw [← same]; exact committer)⟩

/-- A process moves while nobody commits, before or after. -/
theorem Gate.turn (gate : Gate log site) (before : log.committing = false)
    (after : log'.committing = false)
    (counted : log'.outstanding = log.outstanding - weight (site t) + weight next)
    (commits : next.commits = false) (fine : next ≠ .panicked .logCommitting) :
    Gate log' (Function.update site t next) := by
  refine ⟨?_, fun _ u => ?_, fun wrong => ?_, sound_update gate fine⟩
  · rw [tally_update, counted, gate.counted]
  · by_cases here : u = t
    · rw [here, Function.update_self]
      exact commits
    · rw [Function.update_of_ne here]
      exact gate.quiet before u
  · rw [after] at wrong
    cases wrong

theorem Gate.close (gate : Gate log site) (before : log.committing = false)
    (counted : log'.outstanding = log.outstanding - weight (site t) + weight next)
    (none : log'.outstanding = 0) (after : log'.committing = true) (commits : next.commits = true)
    (fine : next ≠ .panicked .logCommitting) : Gate log' (Function.update site t next) := by
  refine ⟨?_, fun wrong => ?_, fun _ => ⟨none, t, ?_, fun u committer => ?_⟩, sound_update gate fine⟩
  · rw [tally_update, counted, gate.counted]
  · rw [after] at wrong
    cases wrong
  · rw [Function.update_self]
    exact commits
  · by_contra apart
    rw [Function.update_of_ne apart, gate.quiet before u] at committer
    cases committer

theorem Gate.reopen (gate : Gate log site) (commits : (site t).commits = true)
    (same : weight next = weight (site t)) (gone : next.commits = false)
    (fine : next ≠ .panicked .logCommitting) :
    Gate log.committed (Function.update site t next) := by
  refine ⟨?_, fun _ u => ?_, fun wrong => (by cases wrong), sound_update gate fine⟩
  · rw [tally_update, same, ← gate.counted]
    change log.outstanding = _
    omega
  · by_cases here : u = t
    · rw [here, Function.update_self]
      exact gone
    · rw [Function.update_of_ne here]
      have is : log.committing = true := by
        by_contra idle
        rw [gate.quiet (by simpa using idle) t] at commits
        cases commits
      obtain ⟨-, w, -, only⟩ := gate.busy is
      by_contra committer
      exact here ((only u (by simpa using committer)).trans (only t commits).symm)

theorem record_keeps {blockno : Nat} {pin : Bool} (recorded : log.record blockno = .ok (log', pin)) :
    log'.outstanding = log.outstanding ∧ log'.committing = log.committing ∧ log.lh.n ≤ log'.lh.n := by
  unfold Log.record at recorded
  split at recorded
  · cases recorded
  · split at recorded
    · cases recorded
    · dsimp only at recorded
      split at recorded
      · cases recorded
        exact ⟨rfl, rfl, by dsimp only; omega⟩
      · cases recorded
        exact ⟨rfl, rfl, le_refl _⟩

theorem record_stop {blockno : Nat} {stop : Stop} (failed : log.record blockno = .error stop) :
    stop ≠ .logCommitting := by
  unfold Log.record at failed
  split at failed
  · cases failed
    decide
  · split at failed
    · cases failed
      decide
    · dsimp only at failed
      split at failed <;> cases failed

/-- What the first locked stretch of `end_op` does while nobody commits. -/
theorem finish_open (idle : log.committing = false) :
    log.finish = .ok ({ log with outstanding := log.outstanding - 1, committing := true }, true) ∧
        log.outstanding = 1 ∨
      log.finish = .ok ({ log with outstanding := log.outstanding - 1 }, false) ∧
        log.outstanding ≠ 1 := by
  unfold Log.finish
  dsimp only
  rw [if_neg (by rw [idle]; decide)]
  by_cases last : log.outstanding - 1 = 0
  · rw [if_pos last]
    exact .inl ⟨rfl, by omega⟩
  · rw [if_neg last]
    exact .inr ⟨rfl, by omega⟩

theorem moves_gate (gate : Gate log site)
    (moves : (program : Program N _ _ _ _).Moves t log (site t) log' next) :
    Gate log' (Function.update site t next) := by
  cases moves with
  | enter enters =>
      change enter (site t) = _ at enters
      cases at_ : site t <;> rw [at_] at enters <;> cases enters <;>
        exact gate.keep rfl rfl (by rw [at_]; rfl) (by rw [at_]; rfl) (by simp)
  | inside acts =>
      change inside log (site t) = _ at acts
      cases at_ : site t with
      | gate =>
          rw [at_, inside] at acts
          split at acts
          · rename_i admitted
            cases acts
            have idle : log.committing = false := by
              have := (Bool.and_eq_true_iff.mp admitted).1
              simpa using this
            refine gate.turn idle idle ?_ rfl (by simp [Action.next])
            rw [at_]
            change log.outstanding + 1 = log.outstanding - 0 + 1
            omega
          · cases acts
            exact gate.keep rfl rfl (by rw [at_]; rfl) (by rw [at_]; rfl) (by simp [Action.next])
      | record blockno =>
          rw [at_, inside] at acts
          split at acts
          · rename_i stop failed
            cases acts
            have other := record_stop failed
            refine gate.keep rfl rfl ?_ (by rw [at_]; rfl) (by simpa [Action.next] using other)
            rw [at_]
            simp [Action.next, Site.operates, other]
          · rename_i recorded
            cases acts
            obtain ⟨outstanding, committing, -⟩ := record_keeps recorded
            exact gate.keep outstanding committing (by rw [at_]; rfl) (by rw [at_]; rfl)
              (by simp [Action.next])
      | finish =>
          have idle := gate.open_ (t := t) (by rw [at_]; rfl)
          rw [at_, inside] at acts
          rcases finish_open idle with ⟨finished, last⟩ | ⟨finished, more⟩
          · rw [finished] at acts
            cases acts
            refine gate.close idle ?_ ?_ rfl rfl (by simp [Action.next])
            · rw [at_]
              change log.outstanding - 1 = log.outstanding - 1 + 0
              omega
            · change log.outstanding - 1 = 0
              omega
          · rw [finished] at acts
            cases acts
            refine gate.turn idle idle ?_ rfl (by simp [Action.next])
            rw [at_]
            change log.outstanding - 1 = log.outstanding - 1 + 0
            omega
      | reopen =>
          rw [at_] at acts
          cases acts
          exact gate.reopen (by rw [at_]; rfl) (by rw [at_]; rfl) rfl (by simp [Action.next])
      | wake =>
          rw [at_] at acts
          cases acts
          exact gate.keep rfl rfl (by rw [at_]; rfl) (by rw [at_]; rfl) (by simp [Action.next])
      | leave =>
          rw [at_] at acts
          cases acts
          exact gate.keep rfl rfl (by rw [at_]; rfl) (by rw [at_]; rfl) (by simp [Action.next])
      | _ =>
          rw [at_] at acts
          cases acts
  | @outside c _ _ acts =>
      change outside c log (site t) = _ at acts
      cases at_ : site t with
      | idle =>
          rw [at_, outside] at acts
          split at acts
          · cases acts
            exact gate.keep rfl rfl (by rw [at_]; rfl) (by rw [at_]; rfl) (by simp)
          · cases acts
      | operating =>
          rw [at_] at acts
          cases c <;> cases acts <;>
            exact gate.keep rfl rfl (by rw [at_]; rfl) (by rw [at_]; rfl) (by simp)
      | commit =>
          rw [at_, outside] at acts
          split at acts <;> cases acts <;>
            exact gate.keep rfl rfl (by rw [at_]; rfl) (by rw [at_]; rfl) (by simp)
      | install =>
          rw [at_] at acts
          cases acts
          exact gate.keep rfl rfl (by rw [at_]; rfl) (by rw [at_]; rfl) (by simp)
      | emptied =>
          rw [at_] at acts
          cases acts
          exact gate.keep rfl rfl (by rw [at_]; rfl) (by rw [at_]; rfl) (by simp)
      | _ =>
          rw [at_] at acts
          cases acts

end Counting

section Sleeping

/-- `begin_op` does not go past its loop. -/
def Waiting (log : Log) (_ : Unit) : Prop := log.admits = false

/-- `wakeup(&log)` is still to come. -/
def Owing (site : Site) (_ : Unit) : Prop := site = .wake

variable {log log' : Log}

theorem waiting_iff (log : Log) (chan : Unit) : Waiting log chan ↔
    log.committing = true ∨ log.lh.n + (log.outstanding + 1) * MAXOPBLOCKS > LOGSIZE := by
  unfold Waiting Log.admits
  rw [Bool.and_eq_false_iff, Bool.not_eq_false', decide_eq_false_iff_not, not_not]

/-- A fuller log with at least as many operations keeps its waiters waiting. -/
theorem Waiting.more {chan : Unit} (waits : Waiting log chan)
    (committing : log'.committing = log.committing) (outstanding : log.outstanding ≤ log'.outstanding)
    (fuller : log.lh.n ≤ log'.lh.n) : Waiting log' chan := by
  rw [waiting_iff] at waits ⊢
  rcases waits with is | full
  · exact .inl (committing.trans is)
  · refine .inr ?_
    simp only [MAXOPBLOCKS, LOGSIZE] at full ⊢
    omega

theorem program_fair {st : State N Site Log Unit} (gate : Gate st.shared fun t => (st.pc t).site)
    (label : Label N Call) : Fair Waiting Owing program st label := by
  cases label with
  | inside t c =>
      intro site action here acts
      change inside st.shared site = some action at acts
      cases site with
      | gate =>
          rw [inside] at acts
          split at acts
          · cases acts
            refine fun _ _ => ⟨fun owes => (by cases owes), fun waits => ?_⟩
            exact waits.more rfl (by dsimp only [Log.begin]; omega) (le_refl _)
          · rename_i refused
            cases acts
            exact ⟨by simpa [Waiting] using refused, fun _ _ owes => by cases owes⟩
      | record blockno =>
          rw [inside] at acts
          split at acts
          · cases acts
            exact fun _ _ => ⟨fun owes => (by cases owes), fun waits => .inl waits⟩
          · rename_i recorded
            cases acts
            obtain ⟨outstanding, committing, fuller⟩ := record_keeps recorded
            refine fun _ _ => ⟨fun owes => (by cases owes), fun waits => ?_⟩
            exact waits.more committing (by omega) fuller
      | finish =>
          have idle : st.shared.committing = false := gate.open_ (t := t) (by rw [here]; rfl)
          rw [inside] at acts
          rcases finish_open idle with ⟨finished, -⟩ | ⟨finished, -⟩
          · rw [finished] at acts
            cases acts
            refine fun chan _ => ⟨fun owes => (by cases owes), fun _ => ?_⟩
            exact (waiting_iff _ chan).mpr (.inl rfl)
          · rw [finished] at acts
            cases acts
            exact fun _ _ => ⟨fun owes => (by cases owes), fun _ => .inr rfl⟩
      | reopen =>
          cases acts
          exact fun _ _ => ⟨fun owes => (by cases owes), fun _ => .inr rfl⟩
      | wake =>
          cases acts
          exact fun _ _ _ => .inl rfl
      | leave =>
          cases acts
          exact fun _ _ => ⟨fun owes => (by cases owes), id⟩
      | _ => cases acts
  | outside t c =>
      intro site r here acts chan waits
      change outside c st.shared site = some r at acts
      cases site with
      | idle =>
          rw [outside] at acts
          split at acts
          · cases acts
            exact waits
          · cases acts
      | operating =>
          cases c <;> cases acts <;> exact waits
      | install =>
          cases acts
          have committing : st.shared.committing = true := by
            by_contra idle
            have never := gate.quiet (by simpa using idle) t
            rw [here] at never
            cases never
          exact (waiting_iff _ chan).mpr (.inl committing)
      | commit =>
          cases acts
          exact waits
      | emptied =>
          cases acts
          exact waits
      | _ => cases acts
  | _ => trivial

end Sleeping

/-- What holds of the log in every reachable state. -/
structure Inv (st : State N Site Log Unit) : Prop where
  exclusive : Exclusive st
  waits : Waits Waiting Owing st
  gate : Gate st.shared fun t => (st.pc t).site

theorem booted_inv (start : Nat) (size : Int) (dev : Nat) (block : Nat → Nat) :
    Inv (booted start size dev block : State N Site Log Unit) where
  exclusive t := by simp [booted, Pc.holds]
  waits := by
    refine ⟨fun t chan dormant => ?_, fun t chan next falls => by cases falls⟩
    obtain ⟨next, wrong | wrong⟩ := dormant <;> cases wrong
  gate := ⟨(tally_zero fun _ => rfl).symm, fun _ _ => rfl, fun wrong => (by cases wrong),
    fun t wrong => by cases wrong⟩

theorem step_inv {st st' : State N Site Log Unit} {label : Label N Call} (inv : Inv st)
    (stepped : program.step st label = some st') : Inv st' where
  exclusive := step_exclusive inv.exclusive stepped
  waits := step_waits inv.waits inv.exclusive stepped (program_fair inv.gate label)
  gate := by
    rcases step_sites stepped with ⟨shared, sites⟩ | ⟨t, next, moves, sites⟩
    · rw [shared, sites]
      exact inv.gate
    · rw [sites]
      exact moves_gate inv.gate moves

/-- While a commit runs, a step of whatever process leaves the recorded blocks alone, apart
from the commit's own clearing of the count. -/
theorem committing_adds_nothing {st st' : State N Site Log Unit} {label : Label N Call}
    (inv : Inv st) (committing : st.shared.committing = true)
    (stepped : program.step st label = some st') :
    st'.shared.lh.block = st.shared.lh.block ∧
      (st'.shared.lh.n = st.shared.lh.n ∨ st'.shared.lh.n = 0) := by
  rcases step_sites stepped with ⟨shared, -⟩ | ⟨t, next, moves, -⟩
  · rw [shared]
    exact ⟨rfl, .inl rfl⟩
  · have closed : (st.pc t).site.operates = false := by
      by_contra operates
      rw [inv.gate.open_ (t := t) (by simpa using operates)] at committing
      cases committing
    generalize (st.pc t).site = site at moves closed
    generalize st'.shared = log' at moves ⊢
    cases moves with
    | enter enters => exact ⟨rfl, .inl rfl⟩
    | @inside _ action acts =>
        change inside st.shared site = _ at acts
        cases site with
        | gate =>
            rw [inside] at acts
            split at acts <;> cases acts <;> exact ⟨rfl, .inl rfl⟩
        | record blockno => cases closed
        | finish => cases closed
        | reopen => cases acts; exact ⟨rfl, .inl rfl⟩
        | wake => cases acts; exact ⟨rfl, .inl rfl⟩
        | leave => cases acts; exact ⟨rfl, .inl rfl⟩
        | _ => cases acts
    | @outside c _ _ acts =>
        change outside c st.shared site = _ at acts
        cases site with
        | idle =>
            rw [outside] at acts
            split at acts <;> cases acts
            exact ⟨rfl, .inl rfl⟩
        | operating => cases closed
        | commit => cases acts; exact ⟨rfl, .inl rfl⟩
        | install => cases acts; exact ⟨rfl, .inr rfl⟩
        | emptied => cases acts; exact ⟨rfl, .inl rfl⟩
        | _ => cases acts

/-- The gate counts the open operations, lets nobody write during a commit, never panics in
`end_op`, and leaves nobody asleep who could go on. -/
theorem transaction_gate_sound (start : Nat) (size : Int) (dev : Nat) (block : Nat → Nat)
    {labels : List (Label N Call)} {st : State N Site Log Unit}
    (ran : run program.step (booted start size dev block) labels = some st) :
    st.shared.outstanding = (Finset.univ.filter (Operating st)).card ∧
    (st.shared.committing = true → st.shared.outstanding = 0 ∧ ∃! t, Committing st t) ∧
    (∀ t, Committing st t → st.shared.committing = true) ∧
    (st.shared.committing = true → ∀ label st', program.step st label = some st' →
      st'.shared.lh.block = st.shared.lh.block ∧
        (st'.shared.lh.n = st.shared.lh.n ∨ st'.shared.lh.n = 0)) ∧
    (∀ t, (st.pc t).site ≠ .panicked .logCommitting) ∧
    (st.holder = none → ∀ t chan next, st.pc t = .asleep chan next →
      st.shared.committing = true ∨
        st.shared.lh.n + (st.shared.outstanding + 1) * MAXOPBLOCKS > LOGSIZE) := by
  have inv : Inv st := run_invariant program.step (fun _ st => Inv st)
    (booted_inv start size dev block) (fun _ _ _ _ _ held stepped => step_inv held stepped) ran
  refine ⟨?_, fun committing => ?_, fun t commits => ?_, fun committing _ _ stepped =>
    committing_adds_nothing inv committing stepped, inv.gate.sound, fun free t chan next sleeps => ?_⟩
  · rw [inv.gate.counted]
    exact tally_count (fun site : Site => site.operates = true) fun t => (st.pc t).site
  · obtain ⟨none, t, commits, only⟩ := inv.gate.busy committing
    exact ⟨none, t, commits, only⟩
  · by_contra idle
    have never := inv.gate.quiet (by simpa using idle) t
    unfold Committing at commits
    rw [never] at commits
    cases commits
  · exact (waiting_iff _ chan).mp (inv.waits.asleep inv.exclusive free sleeps)

/-- One process commits a block while a second one waits for the gate. -/
def delayed : List (Label 2 Call) :=
  [.outside 0 .beginOp, .acquire 0, .inside 0 .beginOp, .outside 0 (.logWrite 45), .acquire 0,
    .inside 0 .beginOp, .outside 0 .endOp, .acquire 0, .inside 0 .beginOp, .outside 1 .beginOp,
    .acquire 1, .inside 1 .beginOp, .advance 1, .advance 1]

theorem delayed_waits : ∃ st : State 2 Site Log Unit,
    run program.step (booted 2 30 1 fun _ => 0) delayed = some st ∧
    st.pc 1 = .asleep () .gate ∧ st.shared.committing = true ∧ st.shared.lh.n = 1 ∧
    st.shared.outstanding = (Finset.univ.filter (Operating st)).card ∧ ∃! t, Committing st t := by
  have runs : ((run program.step (booted 2 30 1 fun _ => 0) delayed).any
      fun st : State 2 Site Log Unit => decide (st.pc 1 = .asleep () .gate ∧
        st.shared.committing = true ∧ st.shared.lh.n = 1)) = true := by
    decide +kernel
  obtain ⟨st, ran, checks⟩ := (Option.any_eq_true _ _).mp runs
  obtain ⟨sleeps, committing, one⟩ := of_decide_eq_true checks
  obtain ⟨counted, alone, -⟩ := transaction_gate_sound 2 30 1 (fun _ => 0) ran
  exact ⟨st, ran, sleeps, committing, one, counted, (alone committing).2⟩

end PaddleOs.Transactions
