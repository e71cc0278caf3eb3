import PaddleOs.Foundation.Monitor
import PaddleOs.Foundation.Runs
import PaddleOs.Kernel

/-!
`pipewrite`, `piperead` and `pipeclose` of `pipe.c` on one pipe by any number of processes,
which may be killed at any time. A process moves byte by byte under `pi->lock`; what
`copyin` and `copyout` answer comes from outside. `inserted` and `removed` collect the bytes
that went in and out. An open file keeps its end of the pipe open, so nobody is left in the
pipe when `pipeclose` frees its page; here the page keeps its contents.
-/

namespace PaddleOs.Pipes

open Foundation.Monitor Foundation.Runs
open Kernel (Pipe PIPESIZE)

variable {N : Nat}

/-- `&pi->nread` and `&pi->nwrite`. -/
inductive Chan where
  | nread
  | nwrite
  deriving DecidableEq, Repr

structure Traffic (N : Nat) where
  pipe : Pipe
  freed : Bool
  killed : Fin N → Bool
  inserted : List UInt8
  removed : List UInt8

/-- Where a process stands, with the `i` and `n` of its loop. `since` is the `i` at which
`pipewrite` took the lock in its present stretch; `away` keeps the last call's result. -/
inductive Site where
  | away (result : Int)
  | pipewrite (n : Int)
  | write (since i n : Int)
  | full (i n : Int)
  | piperead (n : Int)
  | await (n : Int)
  | read (i n : Int)
  | drained (i : Int)
  | pipeclose (writable : Bool)
  | close (writable : Bool)
  | shut (writable : Bool)
  | closed
  | leave (result : Int)
  deriving DecidableEq, Repr

inductive Input (N : Nat) where
  | pipewrite (n : Int)
  | piperead (n : Int)
  | pipeclose (writable : Bool)
  | kill (p : Fin N)
  | copyin (ch : Option UInt8)
  | copyout (copied : Bool)
  | none
  deriving DecidableEq, Repr

/-- `pi->data[pi->nwrite++ % PIPESIZE] = ch`. -/
def put (pi : Pipe) (ch : UInt8) : Pipe :=
  { pi with data := Function.update pi.data (pi.nwrite % PIPESIZE) ch
            nwrite := (pi.nwrite + 1) % 2 ^ 32 }

/-- `ch = pi->data[pi->nread++ % PIPESIZE]`. -/
def take (pi : Pipe) : Pipe := { pi with nread := (pi.nread + 1) % 2 ^ 32 }

def first (pi : Pipe) : UInt8 := pi.data (pi.nread % PIPESIZE)

def shutEnd (pi : Pipe) (writable : Bool) : Pipe :=
  if writable then { pi with writeopen := false } else { pi with readopen := false }

def enter : Site → Option Site
  | .pipewrite n => some (.write 0 0 n)
  | .piperead n => some (.await n)
  | .pipeclose writable => some (.close writable)
  | _ => none

/-- The loop of `pipewrite` at byte `i`. -/
def writeLoop (t : Fin N) (input : Input N) (s : Traffic N) (since i n : Int) :
    Option (Action Site (Traffic N) Chan) :=
  if i < n then
    if s.pipe.readopen = false ∨ s.killed t = true then some (.release s (.away (-1)))
    else if s.pipe.nwrite = (s.pipe.nread + PIPESIZE) % 2 ^ 32 then some (.wakeup .nread (.full i n))
    else
      match input with
      | .copyin (some ch) =>
          some (.move { s with pipe := put s.pipe ch, inserted := s.inserted ++ [ch] }
            (.write since (i + 1) n))
      | .copyin none => some (.wakeup .nread (.leave i))
      | _ => none
  else some (.wakeup .nread (.leave i))

/-- The copying loop of `piperead` at byte `i`. -/
def readLoop (input : Input N) (s : Traffic N) (i n : Int) :
    Option (Action Site (Traffic N) Chan) :=
  if i < n ∧ s.pipe.nread ≠ s.pipe.nwrite then
    match input with
    | .copyout copied =>
        some (.move { s with pipe := take s.pipe, removed := s.removed ++ [first s.pipe] }
          (if copied then .read (i + 1) n else .drained i))
    | _ => none
  else some (.wakeup .nwrite (.leave i))

def inside (t : Fin N) (input : Input N) (s : Traffic N) :
    Site → Option (Action Site (Traffic N) Chan)
  | .write since i n => writeLoop t input s since i n
  | .full i n => some (.sleep .nwrite (.write i i n))
  | .await n =>
      if s.pipe.nread = s.pipe.nwrite ∧ s.pipe.writeopen = true then
        if s.killed t then some (.release s (.away (-1))) else some (.sleep .nread (.await n))
      else some (.move s (.read 0 n))
  | .read i n => readLoop input s i n
  | .drained i => some (.wakeup .nwrite (.leave i))
  | .close writable => some (.move { s with pipe := shutEnd s.pipe writable } (.shut writable))
  | .shut writable => some (.wakeup (if writable then .nread else .nwrite) .closed)
  | .closed =>
      some (.release { s with freed := s.freed || (!s.pipe.readopen && !s.pipe.writeopen) } (.away 0))
  | .leave result => some (.release s (.away result))
  | _ => none

/-- The calls. `kill` sets its victim's flag; the victim may be woken at any time. -/
def outside (input : Input N) (s : Traffic N) : Site → Option (Traffic N × Site)
  | .away result =>
      match input with
      | .pipewrite n => if s.freed then none else some (s, .pipewrite n)
      | .piperead n => if s.freed then none else some (s, .piperead n)
      | .pipeclose writable => if s.freed then none else some (s, .pipeclose writable)
      | .kill p => some ({ s with killed := Function.update s.killed p true }, .away result)
      | _ => none
  | _ => none

def program : Program N (Input N) Site (Traffic N) Chan where
  enter _ := enter
  inside := inside
  outside _ := outside

/-- After `pipealloc`, on a page with whatever `kalloc` left there. -/
def fresh (data : Nat → UInt8) : State N Site (Traffic N) Chan where
  shared :=
    { pipe := { readopen := true, writeopen := true, nread := 0, nwrite := 0, data }
      freed := false, killed := fun _ => false, inserted := [], removed := [] }
  holder := none
  pc _ := .outside (.away 0)

section Queue

/-- `nwrite - nread` in 32-bit arithmetic. -/
def count (pi : Pipe) : Nat := (((pi.nwrite : Int) - pi.nread) % 2 ^ 32).toNat

/-- The bytes `data[nread % PIPESIZE .. nwrite % PIPESIZE)`. -/
def held (pi : Pipe) : List UInt8 :=
  (List.range (count pi)).map fun k => pi.data ((pi.nread + k) % PIPESIZE)

structure Fifo (s : Traffic N) : Prop where
  nread : s.pipe.nread < 2 ^ 32
  nwrite : s.pipe.nwrite < 2 ^ 32
  bounded : count s.pipe ≤ PIPESIZE
  order : s.removed ++ held s.pipe = s.inserted

variable {s s' : Traffic N} {pi : Pipe}

theorem count_put (ch : UInt8) (room : count pi < PIPESIZE) : count (put pi ch) = count pi + 1 := by
  simp only [count, put, PIPESIZE] at *
  omega

theorem count_take (reads : pi.nread < 2 ^ 32) (writes : pi.nwrite < 2 ^ 32)
    (some : pi.nread ≠ pi.nwrite) : count pi = count (take pi) + 1 := by
  simp only [count, take] at *
  omega

theorem held_put (ch : UInt8) (room : count pi < PIPESIZE) :
    held (put pi ch) = held pi ++ [ch] := by
  have write : ∀ k ≤ count pi, (pi.nread + k) % PIPESIZE = pi.nwrite % PIPESIZE ↔ k = count pi := by
    intro k below
    simp only [count, PIPESIZE] at *
    omega
  unfold held
  rw [count_put ch room, List.range_succ, List.map_append]
  congr 1
  · refine List.map_congr_left fun k member => ?_
    have below := List.mem_range.mp member
    refine Function.update_of_ne ?_ ..
    exact fun same => absurd ((write k (by omega)).mp same) (by omega)
  · change [Function.update pi.data _ ch ((pi.nread + count pi) % PIPESIZE)] = [ch]
    rw [(write _ (le_refl _)).mpr rfl, Function.update_self]

theorem held_take (reads : pi.nread < 2 ^ 32) (writes : pi.nwrite < 2 ^ 32)
    (some : pi.nread ≠ pi.nwrite) : held pi = first pi :: held (take pi) := by
  unfold held
  rw [count_take reads writes some, List.range_succ_eq_map, List.map_cons, List.map_map]
  congr 1
  refine List.map_congr_left fun k _ => ?_
  change pi.data ((pi.nread + (k + 1)) % PIPESIZE) = pi.data (((pi.nread + 1) % 2 ^ 32 + k) % PIPESIZE)
  congr 1
  simp only [PIPESIZE]
  omega

theorem Fifo.put (fifo : Fifo s) (room : s.pipe.nwrite ≠ (s.pipe.nread + PIPESIZE) % 2 ^ 32)
    (ch : UInt8) : Fifo { s with pipe := put s.pipe ch, inserted := s.inserted ++ [ch] } := by
  have few : count s.pipe < PIPESIZE := by
    have bounded := fifo.bounded
    have reads := fifo.nread
    have writes := fifo.nwrite
    simp only [count, PIPESIZE] at *
    omega
  refine ⟨fifo.nread, Nat.mod_lt _ (by norm_num), ?_, ?_⟩
  · change count (Pipes.put s.pipe ch) ≤ PIPESIZE
    rw [count_put ch few]
    exact few
  · change s.removed ++ held (Pipes.put s.pipe ch) = s.inserted ++ [ch]
    rw [held_put ch few, ← List.append_assoc, fifo.order]

theorem Fifo.take (fifo : Fifo s) (some : s.pipe.nread ≠ s.pipe.nwrite) :
    Fifo { s with pipe := take s.pipe, removed := s.removed ++ [first s.pipe] } := by
  have fewer := count_take fifo.nread fifo.nwrite some
  have bounded := fifo.bounded
  refine ⟨Nat.mod_lt _ (by norm_num), fifo.nwrite, ?_, ?_⟩
  · change count (Pipes.take s.pipe) ≤ PIPESIZE
    omega
  · change s.removed ++ [first s.pipe] ++ held (Pipes.take s.pipe) = s.inserted
    rw [← fifo.order, held_take fifo.nread fifo.nwrite some, List.append_assoc]
    rfl

/-- The counters, the data and the two histories alone matter. -/
theorem Fifo.same (fifo : Fifo s) (nread : s'.pipe.nread = s.pipe.nread)
    (nwrite : s'.pipe.nwrite = s.pipe.nwrite) (data : s'.pipe.data = s.pipe.data)
    (inserted : s'.inserted = s.inserted) (removed : s'.removed = s.removed) : Fifo s' := by
  have counts : count s'.pipe = count s.pipe := by simp only [count, nread, nwrite]
  have holds : held s'.pipe = held s.pipe := by simp only [held, counts, nread, data]
  exact ⟨nread ▸ fifo.nread, nwrite ▸ fifo.nwrite, counts ▸ fifo.bounded,
    by rw [removed, holds, inserted]; exact fifo.order⟩

theorem writeLoop_fifo {t : Fin N} {input : Input N} {since i n : Int}
    {action : Action Site (Traffic N) Chan} (fifo : Fifo s)
    (acts : writeLoop t input s since i n = some action) : Fifo (action.after s) := by
  unfold writeLoop at acts
  split at acts
  · split at acts
    · cases acts
      exact fifo
    · split at acts
      · cases acts
        exact fifo
      · rename_i room
        split at acts
        · cases acts
          exact fifo.put room _
        · cases acts
          exact fifo
        · cases acts
  · cases acts
    exact fifo

theorem readLoop_fifo {input : Input N} {i n : Int} {action : Action Site (Traffic N) Chan}
    (fifo : Fifo s) (acts : readLoop input s i n = some action) : Fifo (action.after s) := by
  unfold readLoop at acts
  split at acts
  · rename_i more
    split at acts
    · cases acts
      exact fifo.take more.2
    · cases acts
  · cases acts
    exact fifo

theorem inside_fifo {t : Fin N} {input : Input N} {site : Site}
    {action : Action Site (Traffic N) Chan} (fifo : Fifo s)
    (acts : inside t input s site = some action) : Fifo (action.after s) := by
  cases site with
  | write since i n => exact writeLoop_fifo fifo acts
  | read i n => exact readLoop_fifo fifo acts
  | await n =>
      rw [inside] at acts
      split at acts
      · split at acts <;> cases acts <;> exact fifo
      · cases acts
        exact fifo
  | close writable =>
      cases acts
      cases writable <;> exact fifo.same rfl rfl rfl rfl rfl
  | closed =>
      cases acts
      exact fifo.same rfl rfl rfl rfl rfl
  | full i n => cases acts; exact fifo
  | drained i => cases acts; exact fifo
  | shut writable => cases acts; exact fifo
  | leave result => cases acts; exact fifo
  | _ => cases acts

theorem outside_fifo {input : Input N} {site next : Site} (fifo : Fifo s)
    (acts : outside input s site = some (s', next)) : Fifo s' := by
  cases site with
  | away result =>
      cases input with
      | pipewrite n =>
          rw [outside] at acts
          split at acts <;> cases acts
          exact fifo
      | piperead n =>
          rw [outside] at acts
          split at acts <;> cases acts
          exact fifo
      | pipeclose writable =>
          rw [outside] at acts
          split at acts <;> cases acts
          exact fifo
      | kill p =>
          cases acts
          exact fifo.same rfl rfl rfl rfl rfl
      | _ => cases acts
  | _ => cases acts

theorem step_fifo {st st' : State N Site (Traffic N) Chan} {label : Label N (Input N)}
    (fifo : Fifo st.shared) (stepped : program.step st label = some st') : Fifo st'.shared := by
  rcases step_sites stepped with ⟨shared, -⟩ | ⟨t, next, moves, -⟩
  · rw [shared]
    exact fifo
  · generalize (st.pc t).site = site at moves
    generalize st'.shared = after at moves ⊢
    cases moves with
    | enter _ => exact fifo
    | inside acts => exact inside_fifo fifo acts
    | outside acts => exact outside_fifo fifo acts

/-- Whatever the order of readers and writers, no byte is lost, repeated or overtaken. -/
theorem pipe_lossless (data : Nat → UInt8) {labels : List (Label N (Input N))}
    {st : State N Site (Traffic N) Chan}
    (ran : run program.step (fresh data) labels = some st) :
    count st.shared.pipe ≤ PIPESIZE ∧
      st.shared.removed ++ held st.shared.pipe = st.shared.inserted := by
  have start : Fifo (fresh data : State N Site (Traffic N) Chan).shared :=
    ⟨by norm_num [fresh], by norm_num [fresh], Nat.zero_le _, rfl⟩
  have fifo : Fifo st.shared := run_invariant program.step (fun _ st => Fifo st.shared) start
    (fun _ _ _ _ _ held stepped => step_fifo held stepped) ran
  exact ⟨fifo.bounded, fifo.order⟩

/-- A writer puts two bytes in and a reader takes one of them. -/
def exchange : List (Label 2 (Input 2)) :=
  [.outside 0 (.pipewrite 2), .acquire 0, .inside 0 (.copyin (some 65)),
    .inside 0 (.copyin (some 66)), .inside 0 .none, .advance 0, .advance 0, .advance 0,
    .inside 0 .none, .outside 1 (.piperead 1), .acquire 1, .inside 1 .none,
    .inside 1 (.copyout true)]

theorem exchange_ordered : ∃ st : State 2 Site (Traffic 2) Chan,
    run program.step (fresh fun _ => 1) exchange = some st ∧ st.shared.removed = [65] ∧
    count st.shared.pipe ≤ PIPESIZE ∧
    [65] ++ held st.shared.pipe = st.shared.inserted ∧ st.shared.inserted = [65, 66] := by
  have runs : ((run program.step (fresh fun _ => 1) exchange).any
      fun st : State 2 Site (Traffic 2) Chan => decide (st.shared.removed = [65] ∧
        st.shared.inserted = [65, 66])) = true := by
    decide +kernel
  obtain ⟨st, ran, checks⟩ := (Option.any_eq_true _ _).mp runs
  obtain ⟨removed, inserted⟩ := of_decide_eq_true checks
  obtain ⟨bounded, order⟩ := pipe_lossless (fun _ => 1) ran
  exact ⟨st, ran, removed, bounded, removed ▸ order, inserted⟩

end Queue

section Sleeping

/-- What makes it right to sleep on a channel of the pipe. -/
def Waiting (s : Traffic N) : Chan → Prop
  | .nread => s.pipe.nread = s.pipe.nwrite ∧ s.pipe.writeopen = true
  | .nwrite => s.pipe.nwrite = (s.pipe.nread + PIPESIZE) % 2 ^ 32 ∧ s.pipe.readopen = true

/-- The wakeups still to come: bytes put in since the lock was taken, bytes taken out, an
end that was closed. -/
def Owing : Site → Chan → Prop
  | .write since i _, .nread => since < i
  | .read i _, .nwrite => 0 < i
  | .drained _, .nwrite => True
  | .shut true, .nread => True
  | .shut false, .nwrite => True
  | _, _ => False

/-- What a process under the lock knows: `pipewrite` found the pipe full before it woke the
readers, and found its readers there before it put a byte in. -/
def Relied : Site → Traffic N → Prop
  | .full _ _, s => Waiting s .nwrite
  | .write since i _, s => since ≤ i ∧ (since < i → s.pipe.readopen = true)
  | .read i _, _ => 0 ≤ i
  | _, _ => True

/-- No one sleeps in the pipe who could go on. -/
def Rested (st : State N Site (Traffic N) Chan) : Prop :=
  st.holder = none → ∀ t next,
    (st.pc t = .asleep .nread next →
      st.shared.pipe.nread = st.shared.pipe.nwrite ∧ st.shared.pipe.writeopen = true) ∧
    (st.pc t = .asleep .nwrite next →
      st.shared.pipe.nwrite = (st.shared.pipe.nread + PIPESIZE) % 2 ^ 32 ∧
        st.shared.pipe.readopen = true)

/-- `pipewrite` stops for a process killed after it put bytes into the pipe in this stretch,
while a reader sleeps. -/
def StopsShort (st : State N Site (Traffic N) Chan) : Label N (Input N) → Prop
  | .inside t _ => ∃ since i n, st.pc t = .inside (.write since i n) ∧ since < i ∧ i < n ∧
      st.shared.killed t = true ∧ ∃ u, Dormant st u .nread
  | _ => False

variable {s : Traffic N} {st st' : State N Site (Traffic N) Chan} {t : Fin N} {input : Input N}

theorem writeLoop_settles {since i n : Int} {action : Action Site (Traffic N) Chan}
    (relied : Relied (.write since i n) s) (acts : writeLoop t input s since i n = some action) :
    Settles Relied s action := by
  unfold writeLoop at acts
  split at acts
  · split at acts
    · cases acts
      trivial
    · rename_i goes
      have reads : s.pipe.readopen = true := by
        by_contra none
        exact goes (.inl (by simpa using none))
      split at acts
      · rename_i full
        cases acts
        exact ⟨full, reads⟩
      · split at acts
        · cases acts
          exact ⟨by have := relied.1; omega, fun _ => reads⟩
        · cases acts
          trivial
        · cases acts
  · cases acts
    trivial

theorem readLoop_settles {i n : Int} {action : Action Site (Traffic N) Chan}
    (relied : Relied (.read i n) s) (acts : readLoop input s i n = some action) :
    Settles Relied s action := by
  unfold readLoop at acts
  split at acts
  · split at acts
    · rename_i copied
      cases acts
      cases copied
      · trivial
      · have nonneg : 0 ≤ i := relied
        change 0 ≤ i + 1
        omega
    · cases acts
  · cases acts
    trivial

/-- A call leaves the pipe alone before it has the lock. -/
theorem outside_pipe {site next : Site} {after : Traffic N}
    (acts : outside input s site = some (after, next)) : after.pipe = s.pipe := by
  cases site with
  | away result =>
      cases input with
      | kill p =>
          cases acts
          rfl
      | pipewrite n => rw [outside] at acts; split at acts <;> cases acts; rfl
      | piperead n => rw [outside] at acts; split at acts <;> cases acts; rfl
      | pipeclose writable => rw [outside] at acts; split at acts <;> cases acts; rfl
      | _ => cases acts
  | _ => cases acts

theorem program_careful : Careful Relied (program : Program N _ _ _ _) where
  enter t at_ next enters any := by
    change enter at_ = some next at enters
    cases at_ <;> cases enters
    · exact ⟨le_refl _, fun wrong => absurd wrong (by omega)⟩
    · trivial
    · trivial
  inside t input s at_ action relied acts := by
    change inside t input s at_ = some action at acts
    cases at_ with
    | write since i n => exact writeLoop_settles relied acts
    | read i n => exact readLoop_settles relied acts
    | await n =>
        rw [inside] at acts
        split at acts
        · split at acts
          · cases acts
            trivial
          · cases acts
            exact fun _ => trivial
        · cases acts
          exact le_refl (0 : Int)
    | full i n =>
        cases acts
        exact fun _ => ⟨le_refl _, fun wrong => absurd wrong (by omega)⟩
    | drained i => cases acts; trivial
    | close writable => cases acts; trivial
    | shut writable => cases acts; trivial
    | closed => cases acts; trivial
    | leave result => cases acts; trivial
    | _ => cases acts
  outside t input s at_ after next acts place relied := by
    change outside input s at_ = some (after, next) at acts
    have same := outside_pipe acts
    cases place with
    | full i n =>
        change Waiting after .nwrite
        rw [Waiting, same]
        exact relied
    | write since i n =>
        change since ≤ i ∧ (since < i → after.pipe.readopen = true)
        rw [same]
        exact relied
    | _ => exact relied

theorem writeLoop_honest {since i n : Int} {action : Action Site (Traffic N) Chan}
    (relied : Relied (.write since i n) st.shared)
    (acts : writeLoop t input st.shared since i n = some action)
    (calm : since < i → i < n → st.shared.killed t = true → ∀ u, ¬ Dormant st u .nread) :
    Honest Waiting Owing st (.write since i n) action := by
  unfold writeLoop at acts
  split at acts
  · rename_i more
    split at acts
    · rename_i stops
      cases acts
      refine fun chan sleeper => ⟨fun owes => ?_, id⟩
      cases chan with
      | nwrite => exact owes.elim
      | nread =>
          obtain ⟨u, sleeps⟩ := sleeper
          rcases stops with closed | killed
          · rw [relied.2 owes] at closed
            cases closed
          · exact absurd sleeps (calm owes more killed u)
    · split at acts
      · cases acts
        refine fun chan _ owes => ?_
        cases chan with
        | nread => exact .inl rfl
        | nwrite => exact owes.elim
      · rename_i room
        split at acts
        · cases acts
          refine fun chan _ => ?_
          have before := relied.1
          cases chan with
          | nread =>
              have later : since < i + 1 := by omega
              exact ⟨fun _ => .inl later, fun _ => .inr later⟩
          | nwrite => exact ⟨fun owes => owes.elim, fun waits => absurd waits.1 room⟩
        · cases acts
          refine fun chan _ owes => ?_
          cases chan with
          | nread => exact .inl rfl
          | nwrite => exact owes.elim
        · cases acts
  · cases acts
    refine fun chan _ owes => ?_
    cases chan with
    | nread => exact .inl rfl
    | nwrite => exact owes.elim

theorem readLoop_honest {i n : Int} {action : Action Site (Traffic N) Chan}
    (relied : Relied (.read i n) st.shared) (acts : readLoop input st.shared i n = some action) :
    Honest Waiting Owing st (.read i n) action := by
  unfold readLoop at acts
  split at acts
  · rename_i more
    split at acts
    · rename_i copied
      cases acts
      refine fun chan _ => ?_
      cases chan with
      | nread => exact ⟨fun owes => owes.elim, fun waits => absurd waits.1 more.2⟩
      | nwrite =>
          have nonneg : 0 ≤ i := relied
          have owes : Owing (if copied = true then .read (i + 1) n else .drained i) .nwrite := by
            cases copied
            · trivial
            · change 0 < i + 1
              omega
          exact ⟨fun _ => .inl owes, fun _ => .inr owes⟩
    · cases acts
  · cases acts
    refine fun chan _ owes => ?_
    cases chan with
    | nread => exact owes.elim
    | nwrite => exact .inl rfl

theorem program_fair (settled : ∀ u, (st.pc u).Settled Relied st.shared) {label : Label N (Input N)}
    (calm : ¬ StopsShort st label) : Fair Waiting Owing program st label := by
  cases label with
  | inside t input =>
      intro site action here acts
      change inside t input st.shared site = some action at acts
      have relied : Relied site st.shared := by
        have own := settled t
        rw [here] at own
        exact own
      cases site with
      | write since i n =>
          refine writeLoop_honest relied acts fun fresh more killed u sleeps => calm ?_
          exact ⟨since, i, n, here, fresh, more, killed, u, sleeps⟩
      | read i n => exact readLoop_honest relied acts
      | await n =>
          rw [inside] at acts
          split at acts
          · rename_i empty
            split at acts
            · cases acts
              exact fun chan _ => ⟨fun owes => owes.elim, id⟩
            · cases acts
              exact ⟨empty, fun chan _ owes => owes.elim⟩
          · cases acts
            exact fun chan _ => ⟨fun owes => owes.elim, .inl⟩
      | full i n =>
          cases acts
          exact ⟨relied, fun chan _ owes => owes.elim⟩
      | drained i =>
          cases acts
          refine fun chan _ owes => ?_
          cases chan with
          | nread => exact owes.elim
          | nwrite => exact .inl rfl
      | close writable =>
          cases acts
          refine fun chan _ => ⟨fun owes => owes.elim, fun waits => ?_⟩
          cases writable <;> cases chan
          · exact .inl waits
          · exact .inr trivial
          · exact .inr trivial
          · exact .inl waits
      | shut writable =>
          cases acts
          refine fun chan _ owes => ?_
          cases writable <;> cases chan
          · exact owes.elim
          · exact .inl rfl
          · exact .inl rfl
          · exact owes.elim
      | closed =>
          cases acts
          refine fun chan _ => ⟨fun owes => owes.elim, fun waits => ?_⟩
          cases chan <;> exact waits
      | leave result =>
          cases acts
          exact fun chan _ => ⟨fun owes => owes.elim, id⟩
      | _ => cases acts
  | outside t input =>
      intro site r here acts chan waits
      have same : r.1.pipe = st.shared.pipe := outside_pipe acts
      cases chan with
      | nread =>
          rw [Waiting, same]
          exact waits
      | nwrite =>
          rw [Waiting, same]
          exact waits
  | _ => trivial

/-- What holds as long as no writer stops short. -/
structure Inv (st : State N Site (Traffic N) Chan) : Prop where
  exclusive : Exclusive st
  settled : ∀ u, (st.pc u).Settled Relied st.shared
  waits : Waits Waiting Owing st

theorem fresh_inv (data : Nat → UInt8) : Inv (fresh data : State N Site (Traffic N) Chan) where
  exclusive t := by simp [fresh, Pc.holds]
  settled _ := trivial
  waits := by
    refine ⟨fun t chan dormant => ?_, fun t chan next falls => by cases falls⟩
    obtain ⟨next, wrong | wrong⟩ := dormant <;> cases wrong

theorem step_inv {label : Label N (Input N)} (inv : Inv st) (calm : ¬ StopsShort st label)
    (stepped : program.step st label = some st') : Inv st' where
  exclusive := step_exclusive inv.exclusive stepped
  settled := step_settled program_careful inv.exclusive inv.settled stepped
  waits := step_waits inv.waits inv.exclusive stepped (program_fair inv.settled calm)

/-- As long as no killed writer stops after a byte that a sleeping reader waits for, nobody
sleeps who could go on. -/
theorem pipe_rested (data : Nat → UInt8) {labels : List (Label N (Input N))}
    (ran : run program.step (fresh data) labels = some st)
    (calm : ∀ before label after middle, labels = before ++ label :: after →
      run program.step (fresh data) before = some middle → ¬ StopsShort middle label) :
    Rested st := by
  have inv : Inv st := run_invariant_where program.step (fun st label => ¬ StopsShort st label) Inv
    (fresh_inv data) (fun _ _ _ held calm stepped => step_inv held calm stepped) ran calm
  refine fun free t next => ⟨fun sleeps => ?_, fun sleeps => ?_⟩
  · exact inv.waits.asleep inv.exclusive free sleeps
  · exact inv.waits.asleep inv.exclusive free sleeps

/-- A reader goes to sleep on the empty pipe. -/
def patient : List (Label 2 (Input 2)) :=
  [.outside 1 (.piperead 1), .acquire 1, .inside 1 .none, .advance 1, .advance 1]

theorem patient_rested : ∃ st : State 2 Site (Traffic 2) Chan,
    run program.step (fresh fun _ => 0) patient = some st ∧
    st.pc 1 = .asleep .nread (.await 1) ∧ Rested st := by
  have runs : ((run program.step (fresh fun _ => 0) patient).any
      fun st : State 2 Site (Traffic 2) Chan => decide (st.pc 1 = .asleep .nread (.await 1))) = true := by
    decide +kernel
  obtain ⟨st, ran, checks⟩ := (Option.any_eq_true _ _).mp runs
  refine ⟨st, ran, of_decide_eq_true checks, pipe_rested (fun _ => 0) ran ?_⟩
  intro before label after middle split reached stops
  have met : meetsAll program.step (fun (st : State 2 Site (Traffic 2) Chan) _ =>
      !st.shared.killed 0 && !st.shared.killed 1) (fresh fun _ => 0) patient = true := by
    decide +kernel
  rw [split] at met
  have alive := meetsAll_split program.step _ met reached
  cases label with
  | inside t input =>
      obtain ⟨-, -, -, -, -, -, killed, -⟩ := stops
      revert killed alive
      match t with
      | 0 => simp +contextual
      | 1 => simp +contextual
  | _ => exact stops

/-- A reader sleeps, a writer puts one byte of two in, is killed and returns. -/
def stranded : List (Label 3 (Input 3)) :=
  [.outside 1 (.piperead 1), .acquire 1, .inside 1 .none, .advance 1, .advance 1,
    .outside 0 (.pipewrite 2), .acquire 0, .inside 0 (.copyin (some 65)), .outside 2 (.kill 0),
    .inside 0 .none]

theorem stranded_reader : ¬ ∀ labels (st : State 3 Site (Traffic 3) Chan),
    run program.step (fresh fun _ => 0) labels = some st → Rested st := by
  intro always
  have runs : ((run program.step (fresh fun _ => 0) stranded).any
      fun st : State 3 Site (Traffic 3) Chan => decide (st.holder = none ∧
        st.pc 1 = .asleep .nread (.await 1) ∧ st.shared.pipe.nread ≠ st.shared.pipe.nwrite)) = true := by
    decide +kernel
  obtain ⟨st, ran, checks⟩ := (Option.any_eq_true _ _).mp runs
  obtain ⟨free, sleeps, unequal⟩ := of_decide_eq_true checks
  exact unequal (((always stranded st ran) free 1 (.await 1)).1 sleeps).1

end Sleeping

end PaddleOs.Pipes
