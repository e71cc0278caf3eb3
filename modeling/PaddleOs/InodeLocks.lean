import PaddleOs.FsLayout
import PaddleOs.Foundation.Runs
import Mathlib.Data.List.FinRange
import Mathlib.Logic.Function.Basic

/-!
The locks around an inode. `iput` takes an inode's sleep-lock while it holds the spinlock
`itable.lock`: were the sleep-lock taken, `sched` would panic. A step is a region that
`itable.lock`, the spinlock inside a sleep-lock or the lock of a buffer delimits; `itable.lock`
is in the state because `iput` keeps it over two of them. A process asleep on a sleep-lock is
woken by `releasesleep` and, by `kill`, at any time.

Whose references `ref` counts is the ghost field `refs`: one list of processes for each
reference. An open file is one reference that all processes share that have it open, so
`dup`, `fork` and `close` move shares of a reference about without touching the inode.
-/

namespace PaddleOs.InodeLocks

open Foundation.Runs

abbrev Slot := Fin NINODE

/-- An entry of `itable`. The sleep-lock is the process in its `pid`, when `locked`. -/
structure Inode (Proc : Type) where
  inum : Nat
  ref : Nat
  valid : Bool
  lock : Option Proc
  copy : Dinode

/-- Who called `acquiresleep`. -/
inductive Caller where
  | ilock
  | iput
  deriving DecidableEq, Repr

/-- What is left of an `iput` that frees the inode. -/
inductive Stage where
  | itrunc
  | iupdate
  | releasesleep
  | drop
  deriving DecidableEq, Repr

inductive Panic where
  | schedLocks
  | ilock
  | ilockNoType
  | iunlock
  | igetNoInodes
  deriving DecidableEq, Repr

/-- `hand` is `ialloc` before its `iget`, and `load` is `ilock` behind its `acquiresleep`. -/
inductive Pc where
  | idle
  | hand (inum : Nat)
  | acquiresleep (k : Slot) (caller : Caller)
  | asleep (k : Slot) (caller : Caller)
  | load (k : Slot)
  | freeing (k : Slot) (stage : Stage)
  | panicked (why : Panic)
  deriving DecidableEq, Repr

structure State (Proc : Type) where
  disk : Nat → Dinode
  slot : Slot → Inode Proc
  itableLock : Option Proc
  pc : Proc → Pc
  refs : Slot → List (List Proc)

inductive Label (Proc : Type) where
  | iget (p : Proc) (inum : Nat)
  | idup (p : Proc) (k : Slot)
  | ialloc (p : Proc) (inum : Nat) (type : Int16)
  | ilock (p : Proc) (k : Slot)
  | modify (p : Proc) (k : Slot) (copy : Dinode)
  | iupdate (p : Proc) (k : Slot)
  | iunlock (p : Proc) (k : Slot)
  | iput (p : Proc) (k : Slot)
  | share (p q : Proc) (k : Slot) (group : List Proc)
  | unshare (p : Proc) (k : Slot) (group : List Proc)
  | advance (p : Proc)
  | kill (p : Proc)

variable {Proc : Type} [DecidableEq Proc]

def State.setSlot (s : State Proc) (k : Slot) (ip : Inode Proc) : State Proc :=
  { s with slot := Function.update s.slot k ip }

def State.setDisk (s : State Proc) (inum : Nat) (dip : Dinode) : State Proc :=
  { s with disk := Function.update s.disk inum dip }

def State.setPc (s : State Proc) (p : Proc) (pc : Pc) : State Proc :=
  { s with pc := Function.update s.pc p pc }

def State.setRefs (s : State Proc) (k : Slot) (refs : List (List Proc)) : State Proc :=
  { s with refs := Function.update s.refs k refs }

/-- The slot in use for an inode. -/
def State.cached (s : State Proc) (inum : Nat) : Option Slot :=
  (List.finRange NINODE).find? fun k => decide (0 < (s.slot k).ref ∧ (s.slot k).inum = inum)

def State.empty (s : State Proc) : Option Slot :=
  (List.finRange NINODE).find? fun k => decide ((s.slot k).ref = 0)

/-- `ip->ref++` for a reference of `p`. -/
def State.reference (s : State Proc) (p : Proc) (k : Slot) : State Proc :=
  (s.setSlot k { s.slot k with ref := (s.slot k).ref + 1 }).setRefs k ([p] :: s.refs k)

/-- `ip->ref--` for a reference of `p`. -/
def State.drop (s : State Proc) (p : Proc) (k : Slot) : State Proc :=
  (s.setSlot k { s.slot k with ref := (s.slot k).ref - 1 }).setRefs k ((s.refs k).erase [p])

def iget (s : State Proc) (p : Proc) (inum : Nat) : State Proc :=
  match s.cached inum with
  | some k => (s.reference p k).setPc p .idle
  | none =>
      match s.empty with
      | none => { s with itableLock := some p }.setPc p (.panicked .igetNoInodes)
      | some k =>
          ((s.setSlot k { s.slot k with inum, ref := 1, valid := false }).setRefs k
            ([p] :: s.refs k)).setPc p .idle

/-- The spinlocks a process holds when it calls `acquiresleep`. -/
def State.noff (s : State Proc) (p : Proc) : Nat := if s.itableLock = some p then 1 else 0

/-- `sleep(lk, &lk->lk)` up to the `swtch` in `sched`, which wants `p->lock` to be the only
spinlock. -/
def sleep (s : State Proc) (p : Proc) (k : Slot) (caller : Caller) : State Proc :=
  if s.noff p + 1 ≠ 1 then s.setPc p (.panicked .schedLocks) else s.setPc p (.asleep k caller)

/-- One turn of `acquiresleep`, with the `release(&itable.lock)` that follows it in `iput`. -/
def acquiresleep (s : State Proc) (p : Proc) (k : Slot) (caller : Caller) : State Proc :=
  match (s.slot k).lock with
  | some _ => sleep s p k caller
  | none =>
      let taken := s.setSlot k { s.slot k with lock := some p }
      match caller with
      | .ilock => taken.setPc p (.load k)
      | .iput => { taken with itableLock := none }.setPc p (.freeing k .itrunc)

/-- `wakeup` on the sleep-lock of slot `k`. -/
def Pc.wakeup (k : Slot) : Pc → Pc
  | .asleep j caller => if j = k then .acquiresleep j caller else .asleep j caller
  | pc => pc

def releasesleep (s : State Proc) (k : Slot) : State Proc :=
  { s.setSlot k { s.slot k with lock := none } with pc := fun p => (s.pc p).wakeup k }

/-- `ilock` with the sleep-lock in hand. -/
def load (s : State Proc) (p : Proc) (k : Slot) : State Proc :=
  let ip := s.slot k
  if ip.valid = true then s.setPc p .idle
  else
    let dip := s.disk ip.inum
    let read := s.setSlot k { ip with valid := true, copy := dip }
    if dip.type = 0 then read.setPc p (.panicked .ilockNoType) else read.setPc p .idle

/-- `iput` up to its call of `acquiresleep`, or to its end. -/
def iput (s : State Proc) (p : Proc) (k : Slot) : State Proc :=
  let ip := s.slot k
  if ip.ref = 1 ∧ ip.valid = true ∧ ip.copy.nlink = 0 then
    { s with itableLock := some p }.setPc p (.acquiresleep k .iput)
  else s.drop p k

/-- The regions of an `iput` that frees, behind its `acquiresleep`. -/
def free (s : State Proc) (p : Proc) (k : Slot) : Stage → Option (State Proc)
  | .itrunc =>
      let ip := s.slot k
      let copy := { ip.copy with size := 0, addrs := fun _ => 0 }
      some (((s.setSlot k { ip with copy }).setDisk ip.inum copy).setPc p (.freeing k .iupdate))
  | .iupdate =>
      let ip := s.slot k
      let copy := { ip.copy with type := 0 }
      some (((s.setSlot k { ip with copy }).setDisk ip.inum copy).setPc p (.freeing k .releasesleep))
  | .releasesleep =>
      some ((releasesleep (s.setSlot k { s.slot k with valid := false }) k).setPc p (.freeing k .drop))
  | .drop => if s.itableLock = none then some ((s.drop p k).setPc p .idle) else none

def advance (s : State Proc) (p : Proc) : Option (State Proc) :=
  match s.pc p with
  | .hand inum => if s.itableLock = none then some (iget s p inum) else none
  | .acquiresleep k caller => some (acquiresleep s p k caller)
  | .load k => some (load s p k)
  | .freeing k stage => free s p k stage
  | .idle | .asleep _ _ | .panicked _ => none

def step (s : State Proc) : Label Proc → Option (State Proc)
  | .iget p inum => if s.pc p = .idle ∧ s.itableLock = none then some (iget s p inum) else none
  | .idup p k => if s.pc p = .idle ∧ s.itableLock = none then some (s.reference p k) else none
  | .ialloc p inum type =>
      if s.pc p = .idle ∧ (s.disk inum).type = 0 then
        some ((s.setDisk inum { type, major := 0, minor := 0, nlink := 0, size := 0
                                addrs := fun _ => 0 }).setPc p (.hand inum))
      else none
  | .ilock p k =>
      if s.pc p = .idle then
        if (s.slot k).ref < 1 then some (s.setPc p (.panicked .ilock))
        else some (s.setPc p (.acquiresleep k .ilock))
      else none
  | .modify p k copy =>
      if s.pc p = .idle ∧ (s.slot k).lock = some p then some (s.setSlot k { s.slot k with copy })
      else none
  | .iupdate p k =>
      if s.pc p = .idle ∧ (s.slot k).lock = some p then
        some (s.setDisk (s.slot k).inum (s.slot k).copy)
      else none
  | .iunlock p k =>
      if s.pc p = .idle then
        if (s.slot k).lock ≠ some p ∨ (s.slot k).ref < 1 then some (s.setPc p (.panicked .iunlock))
        else some (releasesleep s k)
      else none
  | .iput p k => if s.pc p = .idle ∧ s.itableLock = none then some (iput s p k) else none
  | .share p q k group =>
      if s.pc p = .idle ∧ group ∈ s.refs k ∧ p ∈ group then
        some (s.setRefs k ((q :: group) :: (s.refs k).erase group))
      else none
  | .unshare p k group =>
      if s.pc p = .idle ∧ group ∈ s.refs k ∧ p ∈ group ∧ group ≠ [p] then
        some (s.setRefs k (group.erase p :: (s.refs k).erase group))
      else none
  | .advance p => advance s p
  | .kill p =>
      match s.pc p with
      | .asleep k caller => some (s.setPc p (.acquiresleep k caller))
      | _ => none

def booted (disk : Nat → Dinode) : State Proc where
  disk
  slot _ := { inum := 0, ref := 0, valid := false, lock := none
              copy := { type := 0, major := 0, minor := 0, nlink := 0, size := 0, addrs := fun _ => 0 } }
  itableLock := none
  pc _ := .idle
  refs _ := []

section Ownership

/-- The process has a share in a counted reference to the slot. -/
def Owns (s : State Proc) (p : Proc) (k : Slot) : Prop := ∃ group ∈ s.refs k, p ∈ group

instance (s : State Proc) (p : Proc) (k : Slot) : Decidable (Owns s p k) :=
  inferInstanceAs (Decidable (∃ group ∈ s.refs k, p ∈ group))

/-- How processes use references: they lock an inode they have a reference to, and give the
reference up after the lock, unless they have another one. -/
def obeys (s : State Proc) : Label Proc → Bool
  | .ilock p k => decide (Owns s p k)
  | .iput p k => decide ([p] ∈ s.refs k ∧
      ((s.slot k).lock = some p → ∃ group ∈ (s.refs k).erase [p], p ∈ group))
  | .unshare p k group => decide ((s.slot k).lock = some p →
      ∃ other ∈ group.erase p :: (s.refs k).erase group, p ∈ other)
  | _ => true

/-- `iput` has found that it drops the last reference to an inode without links. -/
structure Last (s : State Proc) (p : Proc) (k : Slot) : Prop where
  spin : s.itableLock = some p
  alone : s.refs k = [[p]]
  one : (s.slot k).ref = 1
  valid : (s.slot k).valid = true
  unlinked : (s.slot k).copy.nlink = 0
  free : (s.slot k).lock = none

/-- What process `p` relies on. -/
def Stance (s : State Proc) (p : Proc) : Pc → Prop
  | .idle | .hand _ => True
  | .acquiresleep k .ilock | .asleep k .ilock => Owns s p k
  | .acquiresleep k .iput => Last s p k
  | .asleep _ .iput => False
  | .load k => (s.slot k).lock = some p
  | .freeing k .drop => [p] ∈ s.refs k ∧ (s.slot k).lock ≠ some p
  | .freeing k _ => [p] ∈ s.refs k ∧ (s.slot k).lock = some p
  | .panicked why => why ≠ .schedLocks

/-- A process with `itable.lock` between two regions is in `iput`, or has panicked in `iget`. -/
def Pc.spins : Pc → Bool
  | .acquiresleep _ .iput | .panicked .igetNoInodes => true
  | _ => false

structure Invariant (s : State Proc) : Prop where
  counted : ∀ k, (s.slot k).ref = (s.refs k).length
  locked : ∀ k p, (s.slot k).lock = some p → Owns s p k
  spins : ∀ p, s.itableLock = some p → (s.pc p).spins = true
  stance : ∀ p, Stance s p (s.pc p)

omit [DecidableEq Proc] in
theorem booted_invariant (disk : Nat → Dinode) : Invariant (booted disk : State Proc) where
  counted k := rfl
  locked k p held := by cases held
  spins p holds := by cases holds
  stance p := trivial

end Ownership

section Steps

variable {s s' : State Proc} {p q : Proc} {k : Slot}

omit [DecidableEq Proc] in
theorem Last.keep {j : Slot} (last : Last s q j) (spin : s'.itableLock = s.itableLock)
    (slot : s'.slot j = s.slot j) (refs : s'.refs j = s.refs j) : Last s' q j := by
  obtain ⟨held, alone, one, valid, unlinked, free⟩ := last
  constructor
  · rw [spin, held]
  · rw [refs, alone]
  · rw [slot, one]
  · rw [slot, valid]
  · rw [slot, unlinked]
  · rw [slot, free]

omit [DecidableEq Proc] in
/-- Nobody else has a reference to the inode whose last one `iput` drops. -/
theorem Last.elsewhere {j : Slot} (last : Last s q j) (owns : Owns s p k) (apart : q ≠ p) : j ≠ k := by
  rintro rfl
  obtain ⟨group, counted, share⟩ := owns
  rw [last.alone] at counted
  rw [List.mem_singleton.mp counted] at share
  exact apart (List.mem_singleton.mp share).symm

/-- What a step of `p` leaves alone for another process. -/
structure Frame (s s' : State Proc) (q : Proc) : Prop where
  owns : ∀ k, Owns s q k → Owns s' q k
  single : ∀ k, [q] ∈ s.refs k → [q] ∈ s'.refs k
  lock : ∀ k, (s'.slot k).lock = some q ↔ (s.slot k).lock = some q
  last : ∀ k, Last s q k → Last s' q k

omit [DecidableEq Proc] in
theorem Stance.frame {pc : Pc} (stance : Stance s q pc) (frame : Frame s s' q) : Stance s' q pc := by
  cases pc with
  | idle => trivial
  | hand inum => trivial
  | acquiresleep k caller =>
      cases caller with
      | ilock => exact frame.owns k stance
      | iput => exact frame.last k stance
  | asleep k caller =>
      cases caller with
      | ilock => exact frame.owns k stance
      | iput => exact stance
  | load k => exact (frame.lock k).mpr stance
  | freeing k stage =>
      cases stage with
      | drop => exact ⟨frame.single k stance.1, fun holds => stance.2 ((frame.lock k).mp holds)⟩
      | itrunc => exact ⟨frame.single k stance.1, (frame.lock k).mpr stance.2⟩
      | iupdate => exact ⟨frame.single k stance.1, (frame.lock k).mpr stance.2⟩
      | releasesleep => exact ⟨frame.single k stance.1, (frame.lock k).mpr stance.2⟩
  | panicked why => exact stance

omit [DecidableEq Proc] in
theorem Invariant.idle (held : Invariant s) (at_ : (s.pc p).spins = false) : s.itableLock ≠ some p := by
  intro holds
  rw [held.spins p holds] at at_
  cases at_

/-- Process `p` goes on and changes nothing else. -/
theorem Invariant.goto (held : Invariant s) {pc : Pc} (stance : Stance s p pc)
    (spins : s.itableLock = some p → pc.spins = true) : Invariant (s.setPc p pc) where
  counted := held.counted
  locked := held.locked
  spins q holds := by
    by_cases here : q = p
    · subst here
      simp only [State.setPc, Function.update_self]
      exact spins holds
    · simp only [State.setPc, Function.update_of_ne here]
      exact held.spins q holds
  stance q := by
    have same : Frame s (s.setPc p pc) q :=
      ⟨fun _ => id, fun _ => id, fun _ => .rfl, fun _ last => last.keep rfl rfl rfl⟩
    by_cases here : q = p
    · subst here
      simp only [State.setPc, Function.update_self] at same ⊢
      exact stance.frame same
    · simp only [State.setPc, Function.update_of_ne here] at same ⊢
      exact (held.stance q).frame same

/-- One slot and its references change. -/
def State.touch (s : State Proc) (k : Slot) (ip : Inode Proc) (refs : List (List Proc)) : State Proc :=
  (s.setSlot k ip).setRefs k refs

omit [DecidableEq Proc] in
theorem touch_slot (s : State Proc) (k : Slot) (ip : Inode Proc) (refs : List (List Proc)) :
    (s.touch k ip refs).slot k = ip := Function.update_self ..

omit [DecidableEq Proc] in
theorem touch_refs (s : State Proc) (k : Slot) (ip : Inode Proc) (refs : List (List Proc)) :
    (s.touch k ip refs).refs k = refs := Function.update_self ..

omit [DecidableEq Proc] in
theorem touch_other (s : State Proc) {j k : Slot} (ip : Inode Proc) (refs : List (List Proc))
    (apart : j ≠ k) : (s.touch k ip refs).slot j = s.slot j ∧ (s.touch k ip refs).refs j = s.refs j :=
  ⟨Function.update_of_ne apart .., Function.update_of_ne apart ..⟩

omit [DecidableEq Proc] in
theorem setSlot_touch (s : State Proc) (k : Slot) (ip : Inode Proc) :
    s.setSlot k ip = s.touch k ip (s.refs k) := by
  unfold State.touch State.setRefs
  rw [show (s.setSlot k ip).refs = s.refs from rfl, Function.update_eq_self]
  rfl

omit [DecidableEq Proc] in
theorem setRefs_touch (s : State Proc) (k : Slot) (refs : List (List Proc)) :
    s.setRefs k refs = s.touch k (s.slot k) refs := by
  unfold State.touch State.setSlot
  rw [Function.update_eq_self]

theorem setPc_idle (idle : s.pc p = .idle) : s.setPc p .idle = s := by
  unfold State.setPc
  rw [← idle, Function.update_eq_self]

/-- A slot may change for `p` where no other process loses its share or its lock. -/
structure Allows (s : State Proc) (p : Proc) (k : Slot) (ip : Inode Proc) (refs : List (List Proc)) :
    Prop where
  counted : ip.ref = refs.length
  locked : ∀ q, ip.lock = some q → ∃ group ∈ refs, q ∈ group
  last : ∀ q, q ≠ p → ¬ Last s q k
  owns : ∀ q, q ≠ p → ∀ group ∈ s.refs k, q ∈ group → ∃ other ∈ refs, q ∈ other
  single : ∀ q, q ≠ p → [q] ∈ s.refs k → [q] ∈ refs
  lock : ∀ q, q ≠ p → (ip.lock = some q ↔ (s.slot k).lock = some q)

omit [DecidableEq Proc] in
theorem Allows.frame {ip : Inode Proc} {refs : List (List Proc)} (allows : Allows s p k ip refs)
    (apart : q ≠ p) : Frame s (s.touch k ip refs) q where
  owns j owns := by
    by_cases here : j = k
    · subst here
      obtain ⟨group, counted, share⟩ := owns
      unfold Owns
      rw [touch_refs]
      exact allows.owns q apart group counted share
    · unfold Owns
      rw [(touch_other s ip refs here).2]
      exact owns
  single j single := by
    by_cases here : j = k
    · subst here
      rw [touch_refs]
      exact allows.single q apart single
    · rw [(touch_other s ip refs here).2]
      exact single
  lock j := by
    by_cases here : j = k
    · subst here
      rw [touch_slot]
      exact allows.lock q apart
    · rw [(touch_other s ip refs here).1]
  last j last := by
    have here : j ≠ k := by
      rintro rfl
      exact allows.last q apart last
    exact last.keep rfl (touch_other s ip refs here).1 (touch_other s ip refs here).2

/-- Process `p` changes a slot and goes on. -/
theorem Invariant.act {ip : Inode Proc} {refs : List (List Proc)} (held : Invariant s)
    (allows : Allows s p k ip refs) {pc : Pc} (stance : Stance (s.touch k ip refs) p pc)
    (spins : s.itableLock ≠ some p) : Invariant ((s.touch k ip refs).setPc p pc) where
  counted j := by
    change ((s.touch k ip refs).slot j).ref = ((s.touch k ip refs).refs j).length
    by_cases here : j = k
    · subst here
      rw [touch_slot, touch_refs]
      exact allows.counted
    · rw [(touch_other s ip refs here).1, (touch_other s ip refs here).2]
      exact held.counted j
  locked j q lock := by
    change ((s.touch k ip refs).slot j).lock = some q at lock
    change Owns (s.touch k ip refs) q j
    unfold Owns
    by_cases here : j = k
    · subst here
      rw [touch_slot] at lock
      rw [touch_refs]
      exact allows.locked q lock
    · rw [(touch_other s ip refs here).1] at lock
      rw [(touch_other s ip refs here).2]
      exact held.locked j q lock
  spins q holds := by
    have other : q ≠ p := by
      rintro rfl
      exact spins holds
    simp only [State.setPc, Function.update_of_ne other]
    exact held.spins q holds
  stance q := by
    have same : Frame (s.touch k ip refs) ((s.touch k ip refs).setPc p pc) q :=
      ⟨fun _ => id, fun _ => id, fun _ => .rfl, fun _ last => last.keep rfl rfl rfl⟩
    by_cases here : q = p
    · subst here
      simp only [State.setPc, Function.update_self] at same ⊢
      exact stance.frame same
    · simp only [State.setPc, Function.update_of_ne here] at same ⊢
      exact ((held.stance q).frame (allows.frame here)).frame same

omit [DecidableEq Proc] in
/-- Without `itable.lock` nobody is in the middle of an `iput`. -/
theorem unspun (free : s.itableLock = none) (q : Proc) : ¬ Last s q k := by
  intro last
  have spin := last.spin
  rw [free] at spin
  cases spin

omit [DecidableEq Proc] in
/-- Changes that keep the references of the slot, by a process that has one. -/
theorem Invariant.allows (held : Invariant s) (owns : Owns s p k) {ip : Inode Proc}
    (ref : ip.ref = (s.slot k).ref) (mine : ∀ q, ip.lock = some q → Owns s q k)
    (lock : ∀ q, q ≠ p → (ip.lock = some q ↔ (s.slot k).lock = some q)) :
    Allows s p k ip (s.refs k) where
  counted := ref.trans (held.counted k)
  locked := mine
  last _ apart last := last.elsewhere owns apart rfl
  owns _ _ group counted share := ⟨group, counted, share⟩
  single _ _ := id
  lock := lock

theorem reference_invariant (held : Invariant s) (at_ : (s.pc p).spins = false)
    (free : s.itableLock = none) : Invariant ((s.reference p k).setPc p .idle) := by
  refine held.act (s := s) (k := k) ?_ trivial (held.idle at_)
  refine ⟨?_, fun q lock => ?_, fun q _ => unspun free q, fun q _ group counted share => ?_,
    fun q _ => List.mem_cons_of_mem _, fun q _ => .rfl⟩
  · change (s.slot k).ref + 1 = _
    rw [held.counted, List.length_cons]
  · obtain ⟨group, counted, share⟩ := held.locked k q lock
    exact ⟨group, List.mem_cons_of_mem _ counted, share⟩
  · exact ⟨group, List.mem_cons_of_mem _ counted, share⟩

theorem iget_invariant {inum : Nat} (held : Invariant s) (at_ : (s.pc p).spins = false)
    (free : s.itableLock = none) : Invariant (iget s p inum) := by
  unfold iget
  split
  · exact reference_invariant held at_ free
  · split
    · refine ⟨held.counted, held.locked, fun q holds => ?_, fun q => ?_⟩
      · cases holds
        simp only [State.setPc, Function.update_self]
        rfl
      · by_cases here : q = p
        · subst here
          simp only [State.setPc, Function.update_self]
          exact nofun
        · simp only [State.setPc, Function.update_of_ne here]
          exact (held.stance q).frame
            ⟨fun _ => id, fun _ => id, fun _ => .rfl, fun j last => absurd last (unspun free q)⟩
    · rename_i k found
      have empty : (s.slot k).ref = 0 := by
        have test := List.find?_some found
        simpa using test
      have none : s.refs k = [] := by
        have counted := held.counted k
        rw [empty] at counted
        exact List.length_eq_zero_iff.mp counted.symm
      refine held.act (s := s) (k := k) ?_ trivial (held.idle at_)
      refine ⟨?_, fun q lock => ?_, fun q _ => unspun free q, fun q _ group counted share => ?_,
        fun q _ => List.mem_cons_of_mem _, fun q _ => .rfl⟩
      · rw [none]
        rfl
      · obtain ⟨group, counted, share⟩ := held.locked k q lock
        exact ⟨group, List.mem_cons_of_mem _ counted, share⟩
      · exact ⟨group, List.mem_cons_of_mem _ counted, share⟩

/-- A reference goes that belongs to `p` alone. -/
theorem drop_invariant (held : Invariant s) (at_ : (s.pc p).spins = false) (free : s.itableLock = none)
    (mine : [p] ∈ s.refs k)
    (lock : (s.slot k).lock = some p → ∃ group ∈ (s.refs k).erase [p], p ∈ group) :
    Invariant ((s.drop p k).setPc p .idle) := by
  have keeps : ∀ q, q ≠ p → ∀ group ∈ s.refs k, q ∈ group → group ∈ (s.refs k).erase [p] := by
    intro q apart group counted share
    refine (List.mem_erase_of_ne ?_).mpr counted
    rintro rfl
    exact apart (List.mem_singleton.mp share)
  refine held.act (s := s) (k := k) ?_ trivial (held.idle at_)
  refine ⟨?_, fun q holds => ?_, fun q _ => unspun free q, fun q apart group counted share => ?_,
    fun q apart single => ?_, fun q _ => .rfl⟩
  · change (s.slot k).ref - 1 = _
    rw [held.counted, List.length_erase_of_mem mine]
  · by_cases here : q = p
    · subst here
      exact lock holds
    · obtain ⟨group, counted, share⟩ := held.locked k q holds
      exact ⟨group, keeps q here group counted share, share⟩
  · exact ⟨group, keeps q apart group counted share, share⟩
  · exact keeps q apart [q] single List.mem_cons_self

/-- `iput`, by a process that keeps the lock only with another reference. -/
theorem iput_invariant (held : Invariant s) (idle : s.pc p = .idle) (free : s.itableLock = none)
    (mine : [p] ∈ s.refs k)
    (lock : (s.slot k).lock = some p → ∃ group ∈ (s.refs k).erase [p], p ∈ group) :
    Invariant (iput s p k) := by
  unfold iput
  dsimp only
  split
  · rename_i found
    obtain ⟨one, valid, unlinked⟩ := found
    have alone : s.refs k = [[p]] := by
      have counted := held.counted k
      rw [one] at counted
      obtain ⟨group, only⟩ := List.length_eq_one_iff.mp counted.symm
      rw [only, List.mem_singleton] at mine
      rw [only, mine]
    -- Whoever has the lock has the only reference, which is being dropped.
    have unlocked : (s.slot k).lock = none := by
      by_contra taken
      obtain ⟨q, holds⟩ := Option.ne_none_iff_exists'.mp taken
      obtain ⟨group, counted, share⟩ := held.locked k q holds
      rw [alone, List.mem_singleton] at counted
      rw [counted, List.mem_singleton] at share
      rw [share] at holds
      obtain ⟨other, left, -⟩ := lock holds
      rw [alone, List.erase_cons_head] at left
      cases left
    refine ⟨held.counted, held.locked, fun q holds => ?_, fun q => ?_⟩
    · cases holds
      simp only [State.setPc, Function.update_self]
      rfl
    · by_cases here : q = p
      · subst here
        simp only [State.setPc, Function.update_self]
        exact ⟨rfl, alone, one, valid, unlinked, unlocked⟩
      · simp only [State.setPc, Function.update_of_ne here]
        exact (held.stance q).frame
          ⟨fun _ => id, fun _ => id, fun _ => .rfl, fun j last => absurd last (unspun free q)⟩
  · have dropped := drop_invariant held (by rw [idle]; rfl) free mine lock
    rw [setPc_idle (s := s.drop p k) idle] at dropped
    exact dropped

theorem acquiresleep_invariant {caller : Caller} (held : Invariant s)
    (at_ : s.pc p = .acquiresleep k caller) : Invariant (acquiresleep s p k caller) := by
  have stance := held.stance p
  rw [at_] at stance
  unfold acquiresleep
  split
  · rename_i q taken
    cases caller with
    | ilock =>
        have idle : s.itableLock ≠ some p := held.idle (by rw [at_]; rfl)
        have only : ¬ s.noff p + 1 ≠ 1 := by
          rw [State.noff, if_neg idle]
          exact fun wrong => wrong rfl
        rw [sleep, if_neg only]
        exact held.goto stance fun spins => absurd spins idle
    | iput =>
        have free : (s.slot k).lock = none := Last.free stance
        rw [free] at taken
        cases taken
  · rename_i open_
    have lock : ∀ q, q ≠ p → (some p = some q ↔ (s.slot k).lock = some q) := by
      intro q apart
      rw [open_]
      exact ⟨fun same => absurd (Option.some.inj same).symm apart, nofun⟩
    cases caller with
    | ilock =>
        have allows : Allows s p k { s.slot k with lock := some p } (s.refs k) :=
          held.allows stance rfl (fun q same => Option.some.inj same ▸ stance) lock
        dsimp only
        rw [setSlot_touch]
        refine held.act allows ?_ (held.idle (by rw [at_]; rfl))
        change ((s.touch k _ _).slot k).lock = some p
        rw [touch_slot]
    | iput =>
        obtain ⟨spin, alone, one, valid, unlinked, free⟩ := (stance : Last s p k)
        have owns : Owns s p k := ⟨[p], by rw [alone]; exact List.mem_cons_self, List.mem_cons_self⟩
        have released : Invariant ({ s with itableLock := none }.setPc p .idle) := by
          refine ⟨held.counted, held.locked, nofun, fun q => ?_⟩
          by_cases here : q = p
          · subst here
            simp only [State.setPc, Function.update_self]
            trivial
          · simp only [State.setPc, Function.update_of_ne here]
            refine (held.stance q).frame ⟨fun _ => id, fun _ => id, fun _ => .rfl, fun j last => ?_⟩
            have holds := last.spin
            rw [spin] at holds
            exact absurd (Option.some.inj holds).symm here
        have allows : Allows ({ s with itableLock := none }.setPc p .idle) p k
            { s.slot k with lock := some p } (s.refs k) :=
          released.allows owns rfl (fun q same => Option.some.inj same ▸ owns) lock
        have acted : Invariant ((({ s with itableLock := none }.setPc p .idle).touch k
            { s.slot k with lock := some p } (s.refs k)).setPc p (.freeing k .itrunc)) := by
          refine released.act allows ⟨?_, ?_⟩ nofun
          · rw [touch_refs, alone]
            exact List.mem_cons_self
          · rw [touch_slot]
        dsimp only
        rw [setSlot_touch]
        simpa only [State.setPc, State.touch, State.setSlot, State.setRefs, Function.update_idem] using acted

theorem wakeup_spins {pc : Pc} (k : Slot) (spins : pc.spins = true) : (pc.wakeup k).spins = true := by
  cases pc with
  | asleep j caller => cases spins
  | _ => exact spins

omit [DecidableEq Proc] in
theorem Stance.wakeup {pc : Pc} (stance : Stance s q pc) (k : Slot) : Stance s q (pc.wakeup k) := by
  cases pc with
  | asleep j caller =>
      cases caller with
      | iput => cases stance
      | ilock =>
          rw [Pc.wakeup]
          split
          · exact stance
          · exact stance
  | _ => exact stance

omit [DecidableEq Proc] in
theorem Invariant.wakeup (held : Invariant s) (k : Slot) :
    Invariant { s with pc := fun q => (s.pc q).wakeup k } where
  counted := held.counted
  locked := held.locked
  spins q holds := wakeup_spins k (held.spins q holds)
  stance q := ((held.stance q).wakeup k).frame
    ⟨fun _ => id, fun _ => id, fun _ => .rfl, fun _ last => last.keep rfl rfl rfl⟩

/-- The holder of the lock changes the inode and may release the lock. -/
theorem Invariant.edit (held : Invariant s) (mine : (s.slot k).lock = some p) {ip : Inode Proc}
    (ref : ip.ref = (s.slot k).ref) (lock : ip.lock = some p ∨ ip.lock = none) {pc : Pc}
    (stance : Stance (s.setSlot k ip) p pc) (idle : (s.pc p).spins = false) :
    Invariant ((s.setSlot k ip).setPc p pc) := by
  have owns := held.locked k p mine
  have allows : Allows s p k ip (s.refs k) := by
    refine held.allows owns ref (fun q holds => ?_) fun q apart => ?_
    · rcases lock with kept | gone
      · rw [kept] at holds
        cases holds
        exact owns
      · rw [gone] at holds
        cases holds
    · rw [mine]
      rcases lock with kept | gone
      · rw [kept]
      · rw [gone]
        exact ⟨nofun, fun same => absurd (Option.some.inj same).symm apart⟩
  rw [setSlot_touch] at stance ⊢
  exact held.act allows stance (held.idle idle)

theorem load_invariant (held : Invariant s) (at_ : s.pc p = .load k) : Invariant (load s p k) := by
  have mine := held.stance p
  rw [at_] at mine
  have idle : (s.pc p).spins = false := by rw [at_]; rfl
  unfold load
  dsimp only
  split
  · exact held.goto trivial fun spins => absurd spins (held.idle idle)
  · split
    · refine held.edit mine ?_ ?_ ?_ idle
      · rfl
      · exact .inl mine
      · exact nofun
    · refine held.edit mine ?_ ?_ ?_ idle
      · rfl
      · exact .inl mine
      · trivial

omit [DecidableEq Proc] in
/-- The disk plays no part in this. -/
theorem Invariant.setDisk (held : Invariant s) (inum : Nat) (dip : Dinode) :
    Invariant (s.setDisk inum dip) where
  counted := held.counted
  locked := held.locked
  spins := held.spins
  stance q := (held.stance q).frame
    ⟨fun _ => id, fun _ => id, fun _ => .rfl, fun _ last => last.keep rfl rfl rfl⟩

/-- A step of the freeing that keeps the lock. -/
theorem Invariant.freed {stage : Stage} (held : Invariant s) (idle : (s.pc p).spins = false)
    (mine : [p] ∈ s.refs k) (lock : (s.slot k).lock = some p) (copy : Dinode) (kept : stage ≠ .drop) :
    Invariant (((s.setSlot k { s.slot k with copy }).setDisk (s.slot k).inum copy).setPc p
      (.freeing k stage)) := by
  have still : ((s.setSlot k { s.slot k with copy }).slot k).lock = some p := by
    rw [setSlot_touch, touch_slot]
    exact lock
  have edited : Invariant ((s.setSlot k { s.slot k with copy }).setPc p (.freeing k stage)) := by
    refine held.edit lock ?_ ?_ ?_ idle
    · rfl
    · exact .inl lock
    · cases stage with
      | drop => exact absurd rfl kept
      | _ => exact ⟨mine, still⟩
  exact edited.setDisk _ _

theorem free_invariant {stage : Stage} (held : Invariant s) (at_ : s.pc p = .freeing k stage)
    (ran : free s p k stage = some s') : Invariant s' := by
  have stance := held.stance p
  rw [at_] at stance
  have idle : (s.pc p).spins = false := by rw [at_]; rfl
  cases stage with
  | itrunc =>
      cases ran
      exact held.freed idle stance.1 stance.2 _ nofun
  | iupdate =>
      cases ran
      exact held.freed idle stance.1 stance.2 _ nofun
  | releasesleep =>
      cases ran
      have unlocked : Invariant ((s.setSlot k { s.slot k with valid := false, lock := none }).setPc p
          (.freeing k .drop)) := by
        refine held.edit stance.2 ?_ ?_ ⟨stance.1, ?_⟩ idle
        · rfl
        · exact .inr rfl
        · rw [setSlot_touch, touch_slot]
          exact nofun
      have woken := unlocked.wakeup k
      have same : (releasesleep (s.setSlot k { s.slot k with valid := false }) k).setPc p (.freeing k .drop) =
          { (s.setSlot k { s.slot k with valid := false, lock := none }).setPc p (.freeing k .drop) with
            pc := fun q => (((s.setSlot k { s.slot k with valid := false, lock := none }).setPc p
              (.freeing k .drop)).pc q).wakeup k } := by
        simp only [releasesleep, State.setPc, State.setSlot, Function.update_idem, Function.update_self,
          State.mk.injEq, true_and, and_true]
        funext q
        by_cases here : q = p
        · rw [here, Function.update_self, Function.update_self]
          rfl
        · rw [Function.update_of_ne here, Function.update_of_ne here]
      rw [same]
      exact woken
  | drop =>
      rw [free] at ran
      split at ran
      · rename_i unlocked
        cases ran
        exact drop_invariant held idle unlocked stance.1 fun holds => absurd holds stance.2
      · cases ran

/-- A reference changes hands, but nobody other than `p` loses a share. -/
theorem Invariant.regroup {group next : List Proc} (held : Invariant s) (idle : s.pc p = .idle)
    (counted : group ∈ s.refs k) (mine : p ∈ group) (keeps : ∀ q, q ≠ p → q ∈ group → q ∈ next)
    (lock : (s.slot k).lock = some p → ∃ other ∈ next :: (s.refs k).erase group, p ∈ other) :
    Invariant (s.setRefs k (next :: (s.refs k).erase group)) := by
  have stays : ∀ q, q ≠ p → ∀ other ∈ s.refs k, q ∈ other →
      ∃ left ∈ next :: (s.refs k).erase group, q ∈ left := by
    intro q apart other there share
    by_cases same : other = group
    · rw [same] at share
      exact ⟨next, List.mem_cons_self, keeps q apart share⟩
    · exact ⟨other, List.mem_cons_of_mem _ ((List.mem_erase_of_ne same).mpr there), share⟩
  have allows : Allows s p k (s.slot k) (next :: (s.refs k).erase group) := by
    refine ⟨?_, fun q holds => ?_, fun q apart last => ?_, stays, fun q apart single => ?_,
      fun _ _ => .rfl⟩
    · have some' := List.length_pos_of_mem counted
      rw [held.counted, List.length_cons, List.length_erase_of_mem counted]
      omega
    · by_cases here : q = p
      · rw [here] at holds ⊢
        exact lock holds
      · obtain ⟨other, there, share⟩ := held.locked k q holds
        exact stays q here other there share
    · exact last.elsewhere ⟨group, counted, mine⟩ apart rfl
    · have other : [q] ≠ group := by
        rintro rfl
        exact apart (List.mem_singleton.mp mine).symm
      exact List.mem_cons_of_mem _ ((List.mem_erase_of_ne other).mpr single)
  have acted : Invariant ((s.touch k (s.slot k) (next :: (s.refs k).erase group)).setPc p .idle) :=
    held.act allows trivial (held.idle (by rw [idle]; rfl))
  rw [setPc_idle (s := s.touch k _ _) idle] at acted
  rw [setRefs_touch]
  exact acted

theorem advance_invariant (held : Invariant s) (ran : advance s p = some s') : Invariant s' := by
  unfold advance at ran
  cases at_ : s.pc p with
  | hand inum =>
      rw [at_] at ran
      dsimp only at ran
      split at ran
      · rename_i free
        cases ran
        exact iget_invariant held (by rw [at_]; rfl) free
      · cases ran
  | acquiresleep k caller =>
      rw [at_] at ran
      cases ran
      exact acquiresleep_invariant held at_
  | load k =>
      rw [at_] at ran
      cases ran
      exact load_invariant held at_
  | freeing k stage =>
      rw [at_] at ran
      exact free_invariant held at_ ran
  | _ =>
      rw [at_] at ran
      cases ran

theorem step_invariant {label : Label Proc} (held : Invariant s) (obeyed : obeys s label = true)
    (stepped : step s label = some s') : Invariant s' := by
  cases label with
  | iget p inum =>
      rw [step] at stepped
      split at stepped
      · rename_i may
        cases stepped
        exact iget_invariant held (by rw [may.1]; rfl) may.2
      · cases stepped
  | idup p k =>
      rw [step] at stepped
      split at stepped
      · rename_i may
        cases stepped
        have referred : Invariant ((s.reference p k).setPc p .idle) :=
          reference_invariant held (by rw [may.1]; rfl) may.2
        rw [setPc_idle (s := s.reference p k) may.1] at referred
        exact referred
      · cases stepped
  | ialloc p inum type =>
      rw [step] at stepped
      split at stepped
      · rename_i may
        cases stepped
        have idle : s.itableLock ≠ some p := held.idle (by rw [may.1]; rfl)
        exact (held.setDisk _ _).goto trivial fun spins => absurd spins idle
      · cases stepped
  | ilock p k =>
      have owns : Owns s p k := of_decide_eq_true obeyed
      rw [step] at stepped
      split at stepped
      · rename_i at_
        have idle : s.itableLock ≠ some p := held.idle (by rw [at_]; rfl)
        split at stepped
        · cases stepped
          refine held.goto ?_ fun spins => absurd spins idle
          exact nofun
        · cases stepped
          exact held.goto owns fun spins => absurd spins idle
      · cases stepped
  | modify p k copy =>
      rw [step] at stepped
      split at stepped
      · rename_i may
        cases stepped
        have edited : Invariant ((s.setSlot k { s.slot k with copy }).setPc p .idle) := by
          refine held.edit may.2 ?_ ?_ trivial (by rw [may.1]; rfl)
          · rfl
          · exact .inl may.2
        rw [setPc_idle (s := s.setSlot k _) may.1] at edited
        exact edited
      · cases stepped
  | iupdate p k =>
      rw [step] at stepped
      split at stepped
      · cases stepped
        exact held.setDisk _ _
      · cases stepped
  | iunlock p k =>
      rw [step] at stepped
      split at stepped
      · rename_i at_
        split at stepped
        · cases stepped
          have idle : s.itableLock ≠ some p := held.idle (by rw [at_]; rfl)
          refine held.goto ?_ fun spins => absurd spins idle
          exact nofun
        · rename_i may
          have mine : (s.slot k).lock = some p := by
            by_contra wrong
            exact may (.inl wrong)
          cases stepped
          have edited : Invariant ((s.setSlot k { s.slot k with lock := none }).setPc p .idle) := by
            refine held.edit mine ?_ ?_ trivial (by rw [at_]; rfl)
            · rfl
            · exact .inr rfl
          rw [setPc_idle (s := s.setSlot k _) at_] at edited
          exact edited.wakeup k
      · cases stepped
  | iput p k =>
      obtain ⟨mine, lock⟩ := of_decide_eq_true obeyed
      rw [step] at stepped
      split at stepped
      · rename_i may
        cases stepped
        exact iput_invariant held may.1 may.2 mine lock
      · cases stepped
  | share p q k group =>
      rw [step] at stepped
      split at stepped
      · rename_i may
        obtain ⟨idle, counted, mine⟩ := may
        cases stepped
        refine held.regroup idle counted mine (fun r _ => List.mem_cons_of_mem q) fun _ => ?_
        exact ⟨q :: group, List.mem_cons_self, List.mem_cons_of_mem q mine⟩
      · cases stepped
  | unshare p k group =>
      rw [step] at stepped
      split at stepped
      · rename_i may
        obtain ⟨idle, counted, mine, -⟩ := may
        cases stepped
        exact held.regroup idle counted mine (fun r apart => (List.mem_erase_of_ne apart).mpr)
          (of_decide_eq_true obeyed)
      · cases stepped
  | advance p => exact advance_invariant held stepped
  | kill p =>
      rw [step] at stepped
      split at stepped
      · rename_i k caller at_
        cases stepped
        have stance := held.stance p
        rw [at_] at stance
        cases caller with
        | iput => cases stance
        | ilock =>
            refine held.goto stance fun spins => absurd spins (held.idle ?_)
            rw [at_]
            rfl
      · cases stepped

end Steps

section Results

variable {s s' : State Proc} {p : Proc} {k : Slot}

/-- A sleep-lock goes from one process to another only through being free. -/
def Passes (s s' : State Proc) (k : Slot) : Prop :=
  (s'.slot k).lock = (s.slot k).lock ∨ (s.slot k).lock = none ∨ (s'.slot k).lock = none

omit [DecidableEq Proc] in
theorem update_passes {j : Slot} {ip : Inode Proc} (slots : s'.slot = Function.update s.slot j ip)
    (passes : ip.lock = (s.slot j).lock ∨ (s.slot j).lock = none ∨ ip.lock = none) (k : Slot) :
    Passes s s' k := by
  unfold Passes
  rw [slots]
  by_cases here : k = j
  · subst here
    rw [Function.update_self]
    exact passes
  · rw [Function.update_of_ne here]
    exact .inl rfl

theorem iget_passes {inum : Nat} (k : Slot) : Passes s (iget s p inum) k := by
  unfold iget
  split
  · refine update_passes rfl ?_ k
    exact .inl rfl
  · split
    · exact .inl rfl
    · refine update_passes rfl ?_ k
      exact .inl rfl

theorem acquiresleep_passes {j : Slot} {caller : Caller} (k : Slot) :
    Passes s (acquiresleep s p j caller) k := by
  unfold acquiresleep
  split
  · unfold sleep
    split
    · exact .inl rfl
    · exact .inl rfl
  · rename_i free
    cases caller with
    | ilock => exact update_passes rfl (.inr (.inl free)) k
    | iput => exact update_passes rfl (.inr (.inl free)) k

theorem advance_passes (ran : advance s p = some s') (k : Slot) : Passes s s' k := by
  unfold advance at ran
  split at ran
  · split at ran
    · cases ran
      exact iget_passes k
    · cases ran
  · cases ran
    exact acquiresleep_passes k
  · cases ran
    unfold load
    dsimp only
    split
    · exact .inl rfl
    · split
      · refine update_passes rfl ?_ k
        exact .inl rfl
      · refine update_passes rfl ?_ k
        exact .inl rfl
  · rename_i j stage at_
    cases stage with
    | itrunc =>
        cases ran
        refine update_passes rfl ?_ k
        exact .inl rfl
    | iupdate =>
        cases ran
        refine update_passes rfl ?_ k
        exact .inl rfl
    | releasesleep =>
        cases ran
        exact update_passes (Function.update_idem ..) (.inr (.inr rfl)) k
    | drop =>
        rw [free] at ran
        split at ran
        · cases ran
          refine update_passes rfl ?_ k
          exact .inl rfl
        · cases ran
  · cases ran
  · cases ran
  · cases ran

theorem step_passes {label : Label Proc} (stepped : step s label = some s') (k : Slot) :
    Passes s s' k := by
  cases label with
  | iget p inum =>
      rw [step] at stepped
      split at stepped
      · cases stepped
        exact iget_passes k
      · cases stepped
  | idup p j =>
      rw [step] at stepped
      split at stepped
      · cases stepped
        refine update_passes rfl ?_ k
        exact .inl rfl
      · cases stepped
  | modify p j copy =>
      rw [step] at stepped
      split at stepped
      · cases stepped
        refine update_passes rfl ?_ k
        exact .inl rfl
      · cases stepped
  | iunlock p j =>
      rw [step] at stepped
      split at stepped
      · split at stepped
        · cases stepped
          exact .inl rfl
        · cases stepped
          exact update_passes rfl (.inr (.inr rfl)) k
      · cases stepped
  | iput p j =>
      rw [step] at stepped
      split at stepped
      · cases stepped
        unfold iput
        dsimp only
        split
        · exact .inl rfl
        · refine update_passes rfl ?_ k
          exact .inl rfl
      · cases stepped
  | ilock p j =>
      rw [step] at stepped
      split at stepped
      · split at stepped
        · cases stepped
          exact .inl rfl
        · cases stepped
          exact .inl rfl
      · cases stepped
  | advance p => exact advance_passes stepped k
  | ialloc p inum type =>
      rw [step] at stepped
      split at stepped <;> cases stepped
      exact .inl rfl
  | iupdate p j =>
      rw [step] at stepped
      split at stepped <;> cases stepped
      exact .inl rfl
  | share p q j group =>
      rw [step] at stepped
      split at stepped <;> cases stepped
      exact .inl rfl
  | unshare p j group =>
      rw [step] at stepped
      split at stepped <;> cases stepped
      exact .inl rfl
  | kill p =>
      rw [step] at stepped
      split at stepped <;> cases stepped
      exact .inl rfl

/-- Every step of the run uses references as `obeys` says. -/
def RunObeys (disk : Nat → Dinode) (labels : List (Label Proc)) : Prop :=
  ∀ before label after middle, labels = before ++ label :: after →
    run step (booted disk) before = some middle → obeys middle label = true

/-- An `iput` that is to free its inode finds the sleep-lock free and takes it without
sleeping, so `sched` does not panic; until it has released it no other process gets the lock,
and then the inode is no longer valid. -/
theorem iput_locks_at_once {disk : Nat → Dinode} {labels : List (Label Proc)}
    (ran : run step (booted disk) labels = some s) (obeyed : RunObeys disk labels) :
    (∀ p k, s.pc p = .acquiresleep k .iput →
      s.itableLock = some p ∧ (s.slot k).ref = 1 ∧ (s.slot k).valid = true ∧
      (s.slot k).copy.nlink = 0 ∧ (s.slot k).lock = none ∧
      ∃ s', step s (.advance p) = some s' ∧ s'.pc p = .freeing k .itrunc ∧ (s'.slot k).lock = some p) ∧
    (∀ p, s.pc p ≠ .panicked .schedLocks) ∧
    (∀ p k stage, s.pc p = .freeing k stage → stage ≠ .drop →
      (s.slot k).lock = some p ∧
      ∀ label s', step s label = some s' → ∀ q, q ≠ p → (s'.slot k).lock ≠ some q) ∧
    ∀ p k s', s.pc p = .freeing k .releasesleep → step s (.advance p) = some s' →
      (s'.slot k).lock = none ∧ (s'.slot k).valid = false := by
  have held : Invariant s := run_invariant_where step (fun s label => obeys s label = true) Invariant
    (booted_invariant disk) (fun _ _ _ held obeyed stepped => step_invariant held obeyed stepped)
    ran obeyed
  refine ⟨fun p k at_ => ?_, fun p wrong => ?_, fun p k stage at_ kept => ?_, fun p k s' at_ stepped => ?_⟩
  · have stance := held.stance p
    rw [at_] at stance
    obtain ⟨spin, -, one, valid, unlinked, free⟩ := (stance : Last s p k)
    refine ⟨spin, one, valid, unlinked, free, acquiresleep s p k .iput, ?_, ?_, ?_⟩
    · rw [step, advance, at_]
    · simp only [acquiresleep, free]
      exact Function.update_self ..
    · simp only [acquiresleep, free]
      change ((s.setSlot k _).slot k).lock = some p
      rw [setSlot_touch, touch_slot]
  · have stance := held.stance p
    rw [wrong] at stance
    exact stance rfl
  · have stance := held.stance p
    rw [at_] at stance
    have mine : (s.slot k).lock = some p := by
      cases stage with
      | drop => exact absurd rfl kept
      | _ => exact stance.2
    refine ⟨mine, fun label s' stepped q apart gets => ?_⟩
    rcases step_passes stepped k with same | open_ | gone
    · rw [same, mine] at gets
      exact apart (Option.some.inj gets).symm
    · rw [mine] at open_
      cases open_
    · rw [gone] at gets
      cases gets
  · rw [step, advance, at_] at stepped
    cases stepped
    simp [releasesleep, State.setPc, State.setSlot]

def fileSlot : Slot := ⟨0, ninode_pos⟩

/-- One file with one link, inode 2. -/
def oneFile : Nat → Dinode := fun inum =>
  { type := if inum = 2 then T_FILE else 0, major := 0, minor := 0, nlink := 1, size := 0
    addrs := fun _ => 0 }

/-- Process 0 opens the file, forks process 1, which shares it, unlinks it and closes it;
process 1 waits for the lock meanwhile, uses the file and closes it. -/
def lastClose : List (Label (Fin 2)) :=
  [.iget 0 2, .ilock 0 fileSlot, .advance 0, .advance 0, .share 0 1 fileSlot [0], .ilock 1 fileSlot,
    .advance 1, .modify 0 fileSlot { oneFile 2 with nlink := 0 }, .iupdate 0 fileSlot,
    .iunlock 0 fileSlot, .advance 1, .advance 1, .unshare 0 fileSlot [1, 0], .iunlock 1 fileSlot,
    .iput 1 fileSlot]

theorem lastClose_locks : ∃ s : State (Fin 2), run step (booted oneFile) lastClose = some s ∧
    s.pc 1 = .acquiresleep fileSlot .iput ∧ (s.slot fileSlot).lock = none := by
  have goes : (run step (booted oneFile) lastClose).any (fun s =>
      decide (s.pc 1 = .acquiresleep fileSlot .iput)) = true := by decide +kernel
  obtain ⟨s, ran, there⟩ := (Option.any_eq_true _ _).mp goes
  have at_ := of_decide_eq_true there
  have obeyed : RunObeys oneFile lastClose := by
    intro before label after middle split reached
    have met : meetsAll step obeys (booted oneFile) lastClose = true := by decide +kernel
    rw [split] at met
    exact meetsAll_split step obeys met reached
  exact ⟨s, ran, at_, ((iput_locks_at_once ran obeyed).1 1 fileSlot at_).2.2.2.2.1⟩

end Results

end PaddleOs.InodeLocks
