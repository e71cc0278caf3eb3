import PaddleOs.Foundation.Monitor
import PaddleOs.Foundation.Runs
import PaddleOs.Params

/-!
`acquiresleep`, `releasesleep` and `holdingsleep` of `sleeplock.c` on one lock, by any
number of processes. Everything happens under `lk->lk`; a sleeper can be made runnable at
any time. A holder may call `acquiresleep` again, and then waits for itself.
-/

namespace PaddleOs.SleepLock

open Foundation.Monitor Foundation.Runs

/-- `struct sleeplock` without its spinlock. -/
structure Lk where
  locked : Bool
  pid : Int32
  deriving DecidableEq, Repr

/-- Where a process stands. `test held` is the loop of `acquiresleep`. -/
inductive Site where
  | away
  | acquiresleep (held : Bool)
  | test (held : Bool)
  | holding
  | releasesleep
  | clear
  | wake
  | leave
  deriving DecidableEq, Repr

inductive Call where
  | acquiresleep
  | releasesleep
  deriving DecidableEq, Repr

variable {N : Nat}

def enter : Site → Option Site
  | .acquiresleep held => some (.test held)
  | .releasesleep => some .clear
  | _ => none

def inside (pid : Int32) (lk : Lk) : Site → Option (Action Site Lk Unit)
  | .test held =>
      if lk.locked then some (.sleep () (.test held))
      else some (.release { locked := true, pid } .holding)
  | .clear => some (.move { locked := false, pid := 0 } .wake)
  | .wake => some (.wakeup () .leave)
  | .leave => some (.release lk .away)
  | _ => none

/-- `releasesleep` is called by the holder only. -/
def call : Call → Site → Option Site
  | .acquiresleep, .away => some (.acquiresleep false)
  | .acquiresleep, .holding => some (.acquiresleep true)
  | .releasesleep, .holding => some .releasesleep
  | _, _ => none

/-- `pid p` is the process id of process `p`. -/
def program (pid : Fin N → Int32) : Program N Call Site Lk Unit where
  enter _ := enter
  inside t _ := inside (pid t)
  outside _ c lk site := (call c site).map fun next => (lk, next)

/-- After `initsleeplock`. -/
def fresh : State N Site Lk Unit where
  shared := { locked := false, pid := 0 }
  holder := none
  pc _ := .outside .away

/-- What `holdingsleep` answers to the process with this pid. -/
def holdingsleep (lk : Lk) (pid : Int32) : Bool := lk.locked && lk.pid == pid

/-- Between the return of `acquiresleep` and `locked = 0` in `releasesleep`. -/
def Site.owner : Site → Bool
  | .acquiresleep held | .test held => held
  | .holding | .releasesleep | .clear => true
  | _ => false

def Owner (st : State N Site Lk Unit) (t : Fin N) : Prop := (st.pc t).site.owner = true

/-- Exactly one process owns a locked lock, and its pid is recorded. -/
structure Mutex (pid : Fin N → Int32) (lk : Lk) (site : Fin N → Site) : Prop where
  free : lk.locked = false → ∀ t, (site t).owner = false
  held : lk.locked = true → ∃ t, (site t).owner = true ∧ lk.pid = pid t ∧
    ∀ u, (site u).owner = true → u = t

section Exclusion

variable {pid : Fin N → Int32} {lk : Lk} {site : Fin N → Site}

theorem Mutex.same (mutex : Mutex pid lk site) {site' : Fin N → Site}
    (same : ∀ t, (site' t).owner = (site t).owner) : Mutex pid lk site' where
  free unlocked t := by
    rw [same]
    exact mutex.free unlocked t
  held locked := by
    obtain ⟨t, owns, recorded, only⟩ := mutex.held locked
    exact ⟨t, by rw [same]; exact owns, recorded, fun u owner => only u (by rw [← same]; exact owner)⟩

/-- A process moves within or outside its ownership. -/
theorem Mutex.keep (mutex : Mutex pid lk site) {t : Fin N} {next : Site}
    (same : next.owner = (site t).owner) : Mutex pid lk (Function.update site t next) := by
  refine mutex.same fun u => ?_
  by_cases here : u = t
  · rw [here, Function.update_self, same]
  · rw [Function.update_of_ne here]

theorem Mutex.lock (mutex : Mutex pid lk site) (free : lk.locked = false) (t : Fin N) {next : Site}
    (owns : next.owner = true) :
    Mutex pid { locked := true, pid := pid t } (Function.update site t next) where
  free wrong := by cases wrong
  held _ := by
    refine ⟨t, ?_, rfl, fun u owner => ?_⟩
    · rw [Function.update_self]
      exact owns
    · by_contra apart
      rw [Function.update_of_ne apart, mutex.free free u] at owner
      cases owner

theorem Mutex.unlock (mutex : Mutex pid lk site) {t : Fin N} (owner : (site t).owner = true)
    {next : Site} (gone : next.owner = false) :
    Mutex pid { locked := false, pid := 0 } (Function.update site t next) where
  free _ u := by
    by_cases here : u = t
    · rw [here, Function.update_self]
      exact gone
    · rw [Function.update_of_ne here]
      have locked : lk.locked = true := by
        by_contra unlocked
        rw [mutex.free (by simpa using unlocked) t] at owner
        cases owner
      obtain ⟨w, -, -, only⟩ := mutex.held locked
      by_contra owns
      exact here ((only u (by simpa using owns)).trans (only t owner).symm)
  held wrong := by cases wrong

theorem moves_mutex {t : Fin N} {lk' : Lk} {next : Site} (mutex : Mutex pid lk site)
    (moves : (program pid).Moves t lk (site t) lk' next) :
    Mutex pid lk' (Function.update site t next) := by
  cases moves with
  | enter enters =>
      refine mutex.keep ?_
      cases at_ : site t with
      | acquiresleep held =>
          rw [at_] at enters
          cases enters
          rfl
      | releasesleep =>
          rw [at_] at enters
          cases enters
          rfl
      | _ =>
          rw [at_] at enters
          cases enters
  | inside acts =>
      change inside (pid t) lk (site t) = _ at acts
      cases at_ : site t with
      | test held =>
          rw [at_, inside] at acts
          split at acts
          · cases acts
            exact mutex.keep (by rw [at_]; rfl)
          · rename_i unlocked
            cases acts
            exact mutex.lock (by simpa using unlocked) t rfl
      | clear =>
          rw [at_] at acts
          cases acts
          exact mutex.unlock (by rw [at_]; rfl) rfl
      | wake =>
          rw [at_] at acts
          cases acts
          exact mutex.keep (by rw [at_]; rfl)
      | leave =>
          rw [at_] at acts
          cases acts
          exact mutex.keep (by rw [at_]; rfl)
      | _ =>
          rw [at_] at acts
          cases acts
  | @outside c _ _ acts =>
      obtain ⟨site', called, same⟩ := Option.map_eq_some_iff.mp acts
      cases same
      refine mutex.keep ?_
      cases at_ : site t with
      | away =>
          rw [at_] at called
          cases c <;> cases called
          rfl
      | holding =>
          rw [at_] at called
          cases c <;> cases called <;> rfl
      | _ =>
          rw [at_] at called
          cases c <;> cases called

end Exclusion

section Sleeping

def Waiting (lk : Lk) (_ : Unit) : Prop := lk.locked = true

/-- `wakeup(lk)` is still to come. -/
def Owing (site : Site) (_ : Unit) : Prop := site = .wake

theorem program_fair (pid : Fin N → Int32) (st : State N Site Lk Unit) (label : Label N Call) :
    Fair Waiting Owing (program pid) st label := by
  cases label with
  | inside t c =>
      intro site action _ acts
      change inside (pid t) st.shared site = some action at acts
      cases site with
      | test held =>
          rw [inside] at acts
          split at acts
          · rename_i locked
            cases acts
            exact ⟨locked, fun _ _ owes => by cases owes⟩
          · cases acts
            exact fun _ _ => ⟨fun owes => (by cases owes), fun _ => rfl⟩
      | clear =>
          cases acts
          exact fun _ _ => ⟨fun owes => (by cases owes), fun _ => .inr rfl⟩
      | wake =>
          cases acts
          exact fun _ _ _ => .inl rfl
      | leave =>
          cases acts
          exact fun _ _ => ⟨fun owes => (by cases owes), id⟩
      | _ => cases acts
  | outside t c =>
      intro site r _ acts chan waits
      obtain ⟨next, -, rfl⟩ := Option.map_eq_some_iff.mp acts
      exact waits
  | _ => trivial

end Sleeping

/-- What holds of the lock in every reachable state. -/
structure Inv (pid : Fin N → Int32) (st : State N Site Lk Unit) : Prop where
  exclusive : Exclusive st
  waits : Waits Waiting Owing st
  mutex : Mutex pid st.shared fun t => (st.pc t).site

theorem fresh_inv (pid : Fin N → Int32) : Inv pid fresh where
  exclusive t := by simp [fresh, Pc.holds]
  waits := by
    refine ⟨fun t chan dormant => ?_, fun t chan next falls => by cases falls⟩
    obtain ⟨next, wrong | wrong⟩ := dormant <;> cases wrong
  mutex := ⟨fun _ _ => rfl, fun wrong => by cases wrong⟩

theorem step_inv {pid : Fin N → Int32} {st st' : State N Site Lk Unit} {label : Label N Call}
    (inv : Inv pid st) (stepped : (program pid).step st label = some st') : Inv pid st' where
  exclusive := step_exclusive inv.exclusive stepped
  waits := step_waits inv.waits inv.exclusive stepped (program_fair pid st label)
  mutex := by
    rcases step_sites stepped with ⟨shared, sites⟩ | ⟨t, next, moves, sites⟩
    · rw [shared, sites]
      exact inv.mutex
    · rw [sites]
      exact moves_mutex inv.mutex moves

/-- Mutual exclusion of a sleep-lock, the meaning of its fields, and no sleeper on a free
lock, in every state any run reaches. -/
theorem sleep_lock_sound (pid : Fin N → Int32) (distinct : Function.Injective pid)
    {labels : List (Label N Call)} {st : State N Site Lk Unit}
    (ran : run (program pid).step fresh labels = some st) :
    (∀ t u, Owner st t → Owner st u → t = u) ∧
    (st.shared.locked = true ↔ ∃ t, Owner st t) ∧
    (∀ t, Owner st t → st.shared.pid = pid t) ∧
    (∀ t, holdingsleep st.shared (pid t) = true ↔ Owner st t) ∧
    (st.holder = none → st.shared.locked = false → ∀ t chan next, st.pc t ≠ .asleep chan next) := by
  have inv : Inv pid st := run_invariant (program pid).step (fun _ st => Inv pid st) (fresh_inv pid)
    (fun _ _ _ _ _ held stepped => step_inv held stepped) ran
  have locked : ∀ t, Owner st t → st.shared.locked = true := by
    intro t owner
    by_contra unlocked
    have never := inv.mutex.free (by simpa using unlocked) t
    exact absurd owner (by unfold Owner; rw [never]; decide)
  have recorded : ∀ t, Owner st t → st.shared.pid = pid t := by
    intro t owner
    obtain ⟨w, -, same, only⟩ := inv.mutex.held (locked t owner)
    rw [only t owner]
    exact same
  refine ⟨?_, ⟨?_, fun ⟨t, owner⟩ => locked t owner⟩, recorded, fun t => ⟨?_, fun owner => ?_⟩, ?_⟩
  · intro t u left right
    obtain ⟨w, -, -, only⟩ := inv.mutex.held (locked t left)
    exact (only t left).trans (only u right).symm
  · intro is
    obtain ⟨w, owns, -, -⟩ := inv.mutex.held is
    exact ⟨w, owns⟩
  · intro answers
    obtain ⟨is, same⟩ := Bool.and_eq_true_iff.mp answers
    obtain ⟨w, owns, recorded, -⟩ := inv.mutex.held is
    have equal : pid w = pid t := recorded.symm.trans (by simpa using same)
    rw [← distinct equal]
    exact owns
  · simp [holdingsleep, locked t owner, recorded t owner]
  · intro free unlocked t chan next sleeps
    have wait := inv.waits.asleep inv.exclusive free sleeps
    rw [Waiting, unlocked] at wait
    cases wait

/-- One process takes the lock and a second goes to sleep on it. -/
def contended : List (Label 2 Call) :=
  [.outside 0 .acquiresleep, .acquire 0, .inside 0 .acquiresleep, .outside 1 .acquiresleep,
    .acquire 1, .inside 1 .acquiresleep, .advance 1, .advance 1]

theorem contended_excludes : ∃ st : State 2 Site Lk Unit,
    run (program fun t => Int32.ofNat (t + 1)).step fresh contended = some st ∧
    st.pc 1 = .asleep () (.test false) ∧ Owner st 0 ∧
    (∀ t u, Owner st t → Owner st u → t = u) ∧ st.shared.pid = 1 := by
  have runs : ((run (program fun t : Fin 2 => Int32.ofNat (t + 1)).step fresh contended).any
      fun st => decide (st.pc 1 = .asleep () (.test false) ∧ (st.pc 0).site.owner = true)) = true := by
    decide +kernel
  obtain ⟨st, ran, checks⟩ := (Option.any_eq_true _ _).mp runs
  obtain ⟨sleeps, owner⟩ := of_decide_eq_true checks
  have distinct : Function.Injective fun t : Fin 2 => Int32.ofNat (t + 1) := by
    intro t u
    revert t u
    decide
  obtain ⟨single, -, recorded, -⟩ := sleep_lock_sound _ distinct ran
  exact ⟨st, ran, sleeps, owner, single, recorded 0 owner⟩

end PaddleOs.SleepLock
