import PaddleOs.Params
import PaddleOs.Foundation.Runs
import Mathlib.Data.List.Basic
import Mathlib.Data.List.FinRange
import Mathlib.Logic.Function.Basic

/-!
Inode references of `fs.c` under interleaving. One step is one region that
`itable.lock`, an inode's sleep-lock or the lock of an inode block's buffer
delimits. `create`, `sys_unlink`, `open`, `close` and `link` are words over these
steps: they take a reference (`iget`, `idup`, `ialloc`), lock the inode, change it,
write it back with `iupdate` before `iunlock`, and drop the reference with one
`iput`. Which inode a name leads to, and which free inode the scan of `ialloc`
stops at, is chosen by the label.

Of a disk inode the type, the link count and the block numbers it owns are kept.
The ghost fields `holders` and `leaving` say whose references a slot's `ref` counts.
-/

namespace PaddleOs.InodeRace

open Foundation.Runs

structure Dinode where
  type : Nat
  nlink : Nat
  addrs : List Nat
  deriving DecidableEq, Repr

abbrev Slot := Fin NINODE

/-- An entry of `itable`; `copy` is the part of it that `ilock` reads in. -/
structure Inode (Proc : Type) where
  inum : Nat
  ref : Nat
  valid : Bool
  lock : Option Proc
  copy : Dinode

/-- What is left of an `iput` that frees the inode. -/
inductive Stage where
  | trunc
  | clear
  | invalidate
  | drop
  deriving DecidableEq, Repr

/-- `hand` is between the `brelse` of `ialloc` and its `iget`; `fresh` between that
`iget` and the `ilock` of `create`. -/
inductive Pc where
  | idle
  | hand (inum : Nat)
  | fresh (k : Slot)
  | freeing (k : Slot) (stage : Stage)
  deriving DecidableEq, Repr

structure State (Proc : Type) where
  disk : Nat → Dinode
  slot : Slot → Inode Proc
  pc : Proc → Pc
  holders : Slot → List Proc
  leaving : Slot → Option Proc

inductive Label (Proc : Type) where
  | iget (p : Proc) (inum : Nat)
  | idup (p : Proc) (k : Slot)
  | ialloc (p : Proc) (inum type : Nat)
  | igetNew (p : Proc)
  | ilock (p : Proc) (k : Slot)
  | setNlink (p : Proc) (k : Slot) (nlink : Nat)
  | writei (p : Proc) (k : Slot) (block : Nat)
  | itrunc (p : Proc) (k : Slot)
  | iupdate (p : Proc) (k : Slot)
  | iunlock (p : Proc) (k : Slot)
  | iput (p : Proc) (k : Slot)
  | iputNext (p : Proc)

variable {Proc : Type} [DecidableEq Proc]

def State.setSlot (s : State Proc) (k : Slot) (ip : Inode Proc) : State Proc :=
  { s with slot := Function.update s.slot k ip }

def State.setDisk (s : State Proc) (inum : Nat) (dip : Dinode) : State Proc :=
  { s with disk := Function.update s.disk inum dip }

def State.setPc (s : State Proc) (p : Proc) (pc : Pc) : State Proc :=
  { s with pc := Function.update s.pc p pc }

def State.setHolders (s : State Proc) (k : Slot) (holders : List Proc) : State Proc :=
  { s with holders := Function.update s.holders k holders }

def State.setLeaving (s : State Proc) (k : Slot) (p : Option Proc) : State Proc :=
  { s with leaving := Function.update s.leaving k p }

section Updates

variable (s : State Proc) (k : Slot) (p : Proc) (inum : Nat)

omit [DecidableEq Proc] in
@[simp]
theorem setSlot_self (ip : Inode Proc) : (s.setSlot k ip).slot k = ip := Function.update_self ..

omit [DecidableEq Proc] in
@[simp]
theorem setSlot_other (ip : Inode Proc) {j : Slot} (apart : j ≠ k) :
    (s.setSlot k ip).slot j = s.slot j := Function.update_of_ne apart ..

@[simp]
theorem setPc_self (pc : Pc) : (s.setPc p pc).pc p = pc := Function.update_self ..

@[simp]
theorem setPc_other (pc : Pc) {q : Proc} (apart : q ≠ p) : (s.setPc p pc).pc q = s.pc q :=
  Function.update_of_ne apart ..

omit [DecidableEq Proc] in
@[simp]
theorem setDisk_self (dip : Dinode) : (s.setDisk inum dip).disk inum = dip :=
  Function.update_self ..

omit [DecidableEq Proc] in
@[simp]
theorem setDisk_other (dip : Dinode) {i : Nat} (apart : i ≠ inum) :
    (s.setDisk inum dip).disk i = s.disk i := Function.update_of_ne apart ..

end Updates

/-- The slot in use for an inode. -/
def State.cached (s : State Proc) (inum : Nat) : Option Slot :=
  (List.finRange NINODE).find? fun k => decide (0 < (s.slot k).ref ∧ (s.slot k).inum = inum)

def State.empty (s : State Proc) : Option Slot :=
  (List.finRange NINODE).find? fun k => decide ((s.slot k).ref = 0)

/-- `ip->ref++` for a reference of `p`. -/
def State.reference (s : State Proc) (p : Proc) (k : Slot) : State Proc :=
  (s.setSlot k { s.slot k with ref := (s.slot k).ref + 1 }).setHolders k (p :: s.holders k)

/-- The region of `iget`; no slot is left when it panics. -/
def iget (s : State Proc) (p : Proc) (inum : Nat) : Option (Slot × State Proc) :=
  match s.cached inum with
  | some k => some (k, s.reference p k)
  | none =>
      match s.empty with
      | none => none
      | some k =>
          some (k, (s.setSlot k { s.slot k with inum, ref := 1, valid := false }).setHolders k
            (p :: s.holders k))

/-- The region of `iput` up to its first release of `itable.lock`. -/
def iput (s : State Proc) (p : Proc) (k : Slot) : Option (State Proc) :=
  let ip := s.slot k
  let left := s.setHolders k ((s.holders k).erase p)
  if ip.ref = 1 ∧ ip.valid = true ∧ ip.copy.nlink = 0 then
    if ip.lock = none then
      some (((left.setSlot k { ip with lock := some p }).setLeaving k (some p)).setPc p
        (.freeing k .trunc))
    else none
  else some (left.setSlot k { ip with ref := ip.ref - 1 })

/-- The further regions of an `iput` that frees. -/
def iputNext (s : State Proc) (p : Proc) (k : Slot) : Stage → State Proc
  | .trunc =>
      let ip := s.slot k
      let copy := { ip.copy with addrs := [] }
      ((s.setSlot k { ip with copy }).setDisk ip.inum copy).setPc p (.freeing k .clear)
  | .clear =>
      let ip := s.slot k
      let copy := { ip.copy with type := 0 }
      ((s.setSlot k { ip with copy }).setDisk ip.inum copy).setPc p (.freeing k .invalidate)
  | .invalidate =>
      (s.setSlot k { s.slot k with valid := false, lock := none }).setPc p (.freeing k .drop)
  | .drop =>
      ((s.setSlot k { s.slot k with ref := (s.slot k).ref - 1 }).setLeaving k none).setPc p .idle

/-- `ilock` reads the inode in when it has to, and panics on type 0. -/
def ilock (s : State Proc) (p : Proc) (k : Slot) : Option (State Proc) :=
  let ip := s.slot k
  if ip.lock ≠ none then none
  else if ip.valid = true then some (s.setSlot k { ip with lock := some p })
  else
    let dip := s.disk ip.inum
    if dip.type = 0 then none
    else some (s.setSlot k { ip with lock := some p, valid := true, copy := dip })

def step (s : State Proc) : Label Proc → Option (State Proc)
  | .iget p inum => if s.pc p = .idle then (iget s p inum).map Prod.snd else none
  | .idup p k => if s.pc p = .idle ∧ p ∈ s.holders k then some (s.reference p k) else none
  | .ialloc p inum type =>
      if s.pc p = .idle ∧ (s.disk inum).type = 0 ∧ type ≠ 0 then
        some ((s.setDisk inum { type, nlink := 0, addrs := [] }).setPc p (.hand inum))
      else none
  | .igetNew p =>
      match s.pc p with
      | .hand inum => (iget s p inum).map fun (k, next) => next.setPc p (.fresh k)
      | _ => none
  | .ilock p k =>
      if p ∈ s.holders k ∧ (s.pc p = .idle ∨ s.pc p = .fresh k) then
        (ilock s p k).map fun next => next.setPc p .idle
      else none
  | .setNlink p k nlink =>
      if s.pc p = .idle ∧ (s.slot k).lock = some p then
        some (s.setSlot k { s.slot k with copy := { (s.slot k).copy with nlink } })
      else none
  | .writei p k block =>
      if s.pc p = .idle ∧ (s.slot k).lock = some p then
        some (s.setSlot k { s.slot k with
          copy := { (s.slot k).copy with addrs := block :: (s.slot k).copy.addrs } })
      else none
  | .itrunc p k =>
      if s.pc p = .idle ∧ (s.slot k).lock = some p then
        let copy := { (s.slot k).copy with addrs := [] }
        some ((s.setSlot k { s.slot k with copy }).setDisk (s.slot k).inum copy)
      else none
  | .iupdate p k =>
      if s.pc p = .idle ∧ (s.slot k).lock = some p then
        some (s.setDisk (s.slot k).inum (s.slot k).copy)
      else none
  | .iunlock p k =>
      if s.pc p = .idle ∧ (s.slot k).lock = some p ∧
          (s.slot k).copy = s.disk (s.slot k).inum then
        some (s.setSlot k { s.slot k with lock := none })
      else none
  | .iput p k =>
      if s.pc p = .idle ∧ p ∈ s.holders k ∧ (s.slot k).lock ≠ some p then iput s p k else none
  | .iputNext p =>
      match s.pc p with
      | .freeing k stage => some (iputNext s p k stage)
      | _ => none

/-- No references yet, on a disk where every inode in use has a link. -/
def booted (disk : Nat → Dinode) : State Proc where
  disk
  slot _ := { inum := 0, ref := 0, valid := false, lock := none
              copy := { type := 0, nlink := 0, addrs := [] } }
  pc _ := .idle
  holders _ := []
  leaving _ := none

/-- What the image has to be like: a free inode owns nothing, one in use is linked. -/
def CleanImage (disk : Nat → Dinode) : Prop :=
  ∀ inum, ((disk inum).type = 0 → (disk inum).addrs = []) ∧
    ((disk inum).type ≠ 0 → (disk inum).nlink ≠ 0)

/-- The freeing is still to write type 0. -/
def Doomed (s : State Proc) (k : Slot) : Prop :=
  ∃ p, s.pc p = .freeing k .trunc ∨ s.pc p = .freeing k .clear

/-- The copy in memory is not the disk's inode: it was never read, or is about to be dropped. -/
def Unloaded (s : State Proc) (k : Slot) : Prop :=
  (s.slot k).valid = false ∨ ∃ p, s.pc p = .freeing k .invalidate

structure Invariant (s : State Proc) : Prop where
  counted : ∀ k, (s.slot k).ref = (s.holders k).length + if (s.leaving k).isSome then 1 else 0
  leavers : ∀ k p, s.leaving k = some p ↔ ∃ stage, s.pc p = .freeing k stage
  unique : ∀ k j, 0 < (s.slot k).ref → 0 < (s.slot j).ref →
    (s.slot k).inum = (s.slot j).inum → k = j
  locked : ∀ k p, (s.slot k).lock = some p →
    (p ∈ s.holders k ∧ (s.slot k).valid = true ∧ (s.slot k).copy.type ≠ 0) ∨
      ∃ stage, s.pc p = .freeing k stage ∧ stage ≠ .drop
  freeing : ∀ p k stage, s.pc p = .freeing k stage → stage ≠ .drop →
    (s.slot k).lock = some p ∧ (s.slot k).valid = true ∧ (s.slot k).copy.nlink = 0 ∧
      (stage ≠ .trunc → (s.slot k).copy.addrs = []) ∧
      (stage ≠ .invalidate → (s.slot k).copy.type ≠ 0)
  agree : ∀ k, 0 < (s.slot k).ref → (s.slot k).valid = true → (s.slot k).lock = none →
    (s.slot k).copy = s.disk (s.slot k).inum ∧ (s.slot k).copy.type ≠ 0
  scrubbed : ∀ inum, (s.disk inum).type = 0 → (s.disk inum).addrs = []
  fresh : ∀ p k, s.pc p = .fresh k → p ∈ s.holders k
  unloaded : ∀ k, 0 < (s.slot k).ref → Unloaded s k → (s.disk (s.slot k).inum).type ≠ 0 →
    (s.disk (s.slot k).inum).nlink = 0 →
    ∃ q, s.pc q = .hand (s.slot k).inum ∨ s.pc q = .fresh k
  reachable : ∀ inum, (s.disk inum).type ≠ 0 → (s.disk inum).nlink = 0 →
    (∃ k, 0 < (s.slot k).ref ∧ (s.slot k).inum = inum ∧ (s.holders k ≠ [] ∨ Doomed s k)) ∨
      ∃ q, s.pc q = .hand inum

/-- An `iput` that does not free an unlinked inode leaves it to a reference of a
process that is not itself at the end of an `iput`. -/
def leavesOther (s : State Proc) : Label Proc → Bool
  | .iput p k =>
      let ip := s.slot k
      decide (ip.valid = true → ip.copy.type ≠ 0 → ip.copy.nlink = 0 → ip.ref ≠ 1 →
        (s.holders k).erase p ≠ [])
  | _ => true

omit [DecidableEq Proc] in
theorem booted_invariant {disk : Nat → Dinode} (clean : CleanImage disk) :
    Invariant (booted disk : State Proc) where
  counted k := rfl
  leavers k p := by simp [booted]
  unique k j active := by cases active
  locked k p held := by cases held
  freeing p k stage at' := by cases at'
  agree k active := by cases active
  scrubbed inum free := (clean inum).1 free
  fresh p k at' := by cases at'
  unloaded k active := by cases active
  reachable inum inUse unlinked := absurd unlinked ((clean inum).2 inUse)

section Steps

variable {s next : State Proc} {p : Proc} {k : Slot}

omit [DecidableEq Proc] in
theorem Invariant.active (held : Invariant s) (mine : p ∈ s.holders k) : 0 < (s.slot k).ref := by
  have counted := held.counted k
  have some' := List.length_pos_of_mem mine
  omega

omit [DecidableEq Proc] in
/-- A slot stays doomed when the process that moves is not the one that dooms it. -/
theorem Doomed.move {j : Slot} (doomed : Doomed s j) (moved : ∀ q, q ≠ p → next.pc q = s.pc q)
    (elsewhere : s.pc p ≠ .freeing j .trunc ∧ s.pc p ≠ .freeing j .clear) : Doomed next j := by
  obtain ⟨q, at'⟩ := doomed
  have apart : q ≠ p := by
    rintro rfl
    rcases at' with trunc | clear
    · exact elsewhere.1 trunc
    · exact elsewhere.2 clear
  exact ⟨q, by rw [moved q apart]; exact at'⟩

omit [DecidableEq Proc] in
/-- Whoever accounts for an inode that is not read in still does after another
process moved. -/
theorem Invariant.accounted (held : Invariant s) (moved : ∀ q, q ≠ p → next.pc q = s.pc q)
    (bystander : (∀ i, s.pc p ≠ .hand i) ∧ ∀ j, s.pc p ≠ .fresh j) {j : Slot}
    (used : 0 < (s.slot j).ref) (out : Unloaded s j) (inUse : (s.disk (s.slot j).inum).type ≠ 0)
    (unlinked : (s.disk (s.slot j).inum).nlink = 0) :
    ∃ q, next.pc q = .hand (s.slot j).inum ∨ next.pc q = .fresh j := by
  obtain ⟨q, at'⟩ := held.unloaded j used out inUse unlinked
  have apart : q ≠ p := by
    rintro rfl
    rcases at' with hand | fresh
    · exact bystander.1 _ hand
    · exact bystander.2 _ fresh
  exact ⟨q, by rw [moved q apart]; exact at'⟩

omit [DecidableEq Proc] in
/-- Unlinked inodes stay reachable when a process moves that neither frees one
nor has one in hand. -/
theorem Invariant.reachable_move (held : Invariant s)
    (moved : ∀ q, q ≠ p → next.pc q = s.pc q)
    (kept : ∀ j, (next.slot j).ref = (s.slot j).ref ∧ (next.slot j).inum = (s.slot j).inum)
    (holders : next.holders = s.holders) (noHand : ∀ i, s.pc p ≠ .hand i)
    (elsewhere : ∀ j, s.pc p ≠ .freeing j .trunc ∧ s.pc p ≠ .freeing j .clear) (inum : Nat)
    (inUse : (s.disk inum).type ≠ 0) (unlinked : (s.disk inum).nlink = 0) :
    (∃ j, 0 < (next.slot j).ref ∧ (next.slot j).inum = inum ∧
      (next.holders j ≠ [] ∨ Doomed next j)) ∨ ∃ q, next.pc q = .hand inum := by
  rcases held.reachable inum inUse unlinked with ⟨j, used, same, why⟩ | ⟨q, hand⟩
  · refine Or.inl ⟨j, (kept j).1 ▸ used, (kept j).2.trans same, ?_⟩
    rw [holders]
    exact why.imp_right fun doomed => doomed.move moved (elsewhere j)
  · refine Or.inr ⟨q, (moved q ?_).trans hand⟩
    rintro rfl
    exact noHand inum hand

omit [DecidableEq Proc] in
theorem setSlot_kept (s : State Proc) (k : Slot) (ip : Inode Proc)
    (same : ip.ref = (s.slot k).ref ∧ ip.inum = (s.slot k).inum) (j : Slot) :
    ((s.setSlot k ip).slot j).ref = (s.slot j).ref ∧
      ((s.setSlot k ip).slot j).inum = (s.slot j).inum := by
  by_cases here : j = k
  · subst here
    rw [setSlot_self]
    exact same
  · rw [setSlot_other _ _ _ here]
    exact ⟨rfl, rfl⟩

omit [DecidableEq Proc] in
/-- The holder of the lock, outside `iput`, changes the copy of a slot. -/
theorem Invariant.edits (held : Invariant s) (idle : s.pc p = .idle)
    (mine : (s.slot k).lock = some p) {copy : Dinode} (type : copy.type = (s.slot k).copy.type) :
    Invariant (s.setSlot k { s.slot k with copy }) := by
  have client := held.locked k p mine
  obtain ⟨counted, leavers, unique, locked, freeing, agree, scrubbed, fresh, unloaded,
    reachable⟩ := held
  constructor
  all_goals simp only [State.setSlot, Function.update_apply, Doomed, Unloaded] at *
  all_goals grind -ring -linarith

omit [DecidableEq Proc] in
/-- The holder of the lock writes its copy to the disk; its reference keeps an
unlinked inode reachable. -/
theorem Invariant.iupdate (held : Invariant s) (idle : s.pc p = .idle)
    (mine : (s.slot k).lock = some p) :
    Invariant (s.setDisk (s.slot k).inum (s.slot k).copy) := by
  have client := held.locked k p mine
  have counted := held.counted k
  obtain ⟨counted, leavers, unique, locked, freeing, agree, scrubbed, fresh, unloaded,
    reachable⟩ := held
  constructor
  all_goals simp only [State.setDisk, Function.update_apply, Doomed, Unloaded] at *
  all_goals grind -ring -linarith

omit [DecidableEq Proc] in
theorem Invariant.iunlock (held : Invariant s) (idle : s.pc p = .idle)
    (mine : (s.slot k).lock = some p) (written : (s.slot k).copy = s.disk (s.slot k).inum) :
    Invariant (s.setSlot k { s.slot k with lock := none }) := by
  have client := held.locked k p mine
  obtain ⟨counted, leavers, unique, locked, freeing, agree, scrubbed, fresh, unloaded,
    reachable⟩ := held
  constructor
  case reachable =>
    intro inum inUse unlinked
    rcases reachable inum inUse unlinked with ⟨j, used, same, why⟩ | hand
    · have kept := setSlot_kept s k { s.slot k with lock := none } ⟨rfl, rfl⟩ j
      exact Or.inl ⟨j, kept.1 ▸ used, kept.2.trans same, why⟩
    · exact Or.inr hand
  case unloaded =>
    intro j used out inUse unlinked
    have kept := setSlot_kept s k { s.slot k with lock := none } ⟨rfl, rfl⟩ j
    rw [kept.2] at inUse unlinked ⊢
    refine unloaded j (kept.1 ▸ used) (out.imp_left ?_) inUse unlinked
    by_cases here : j = k
    · subst here
      rw [setSlot_self]
      exact id
    · rw [setSlot_other _ _ _ here]
      exact id
  all_goals simp only [State.setSlot, Function.update_apply, Doomed, Unloaded] at *
  all_goals grind -ring -linarith

omit [DecidableEq Proc] in
theorem Invariant.references (held : Invariant s) (used : 0 < (s.slot k).ref) (p : Proc) :
    Invariant (s.reference p k) := by
  obtain ⟨counted, leavers, unique, locked, freeing, agree, scrubbed, fresh, unloaded,
    reachable⟩ := held
  constructor
  all_goals simp only [State.reference, State.setSlot, State.setHolders, Function.update_apply,
    Doomed, Unloaded] at *
  all_goals grind -ring -linarith

omit [DecidableEq Proc] in
/-- `iget` takes an empty slot when no slot is in use for the inode. An unlinked
inode in use is then in `ialloc`'s hand. -/
theorem Invariant.takes (held : Invariant s) (free : (s.slot k).ref = 0) {inum : Nat}
    (absent : ∀ j, 0 < (s.slot j).ref → (s.slot j).inum ≠ inum) (p : Proc) :
    Invariant ((s.setSlot k { s.slot k with inum, ref := 1, valid := false }).setHolders k
      (p :: s.holders k)) := by
  have count := held.counted k
  obtain ⟨counted, leavers, unique, locked, freeing, agree, scrubbed, fresh, unloaded,
    reachable⟩ := held
  constructor
  all_goals simp only [State.setSlot, State.setHolders, Function.update_apply, Doomed,
    Unloaded] at *
  all_goals grind -ring -linarith

theorem Invariant.iallocs (held : Invariant s) (idle : s.pc p = .idle) {inum type : Nat}
    (free : (s.disk inum).type = 0) (typed : type ≠ 0) :
    Invariant ((s.setDisk inum { type, nlink := 0, addrs := [] }).setPc p (.hand inum)) := by
  have moved : ∀ q, q ≠ p → ((s.setDisk inum { type, nlink := 0, addrs := [] }).setPc p
      (.hand inum)).pc q = s.pc q := fun q apart => Function.update_of_ne apart ..
  have disk : ∀ i, i ≠ inum → ((s.setDisk inum { type, nlink := 0, addrs := [] }).setPc p
      (.hand inum)).disk i = s.disk i := fun i apart => Function.update_of_ne apart ..
  have stays : ∀ j, Unloaded ((s.setDisk inum { type, nlink := 0, addrs := [] }).setPc p
      (.hand inum)) j → Unloaded s j := by
    intro j out
    rcases out with invalid | ⟨q, at'⟩
    · exact Or.inl invalid
    · by_cases self : q = p
      · subst self
        rw [setPc_self] at at'
        cases at'
      · exact Or.inr ⟨q, (moved q self).symm.trans at'⟩
  refine ⟨?_, ?_, held.unique, ?_, ?_, ?_, ?_, ?_, ?_, ?_⟩
  case refine_8 =>
    intro j used out inUse unlinked
    by_cases here : (s.slot j).inum = inum
    · exact ⟨p, Or.inl (by subst here; exact Function.update_self ..)⟩
    · change ((State.setPc _ p _).disk (s.slot j).inum).type ≠ 0 at inUse
      change ((State.setPc _ p _).disk (s.slot j).inum).nlink = 0 at unlinked
      rw [disk _ here] at inUse unlinked
      exact held.accounted moved (by simp [idle]) used (stays j out) inUse unlinked
  case refine_9 =>
    intro i inUse unlinked
    by_cases here : i = inum
    · subst here
      exact Or.inr ⟨p, Function.update_self ..⟩
    · rw [disk i here] at inUse unlinked
      rcases held.reachable i inUse unlinked with ⟨j, used, same, why⟩ | ⟨q, hand⟩
      · exact Or.inl ⟨j, used, same, why.imp_right fun doomed =>
          doomed.move moved (by simp [idle])⟩
      · refine Or.inr ⟨q, (moved q ?_).trans hand⟩
        rintro rfl
        rw [idle] at hand
        cases hand
  all_goals
    obtain ⟨counted, leavers, unique, locked, freeing, agree, scrubbed, fresh, unloaded,
      reachable⟩ := held
    simp only [State.setDisk, State.setPc, Function.update_apply] at *
    grind -ring -linarith

/-- After its `iget`, `ialloc` has turned the inode in hand into a reference. -/
theorem Invariant.freshens (held : Invariant s) {inum : Nat} (hand : s.pc p = .hand inum)
    (mine : p ∈ s.holders k) (same : (s.slot k).inum = inum) :
    Invariant (s.setPc p (.fresh k)) := by
  have active := held.active mine
  have moved : ∀ q, q ≠ p → (s.setPc p (.fresh k)).pc q = s.pc q :=
    fun q apart => setPc_other s p _ apart
  obtain ⟨counted, leavers, unique, locked, freeing, agree, scrubbed, fresh, unloaded,
    reachable⟩ := held
  constructor
  case unloaded =>
    intro j used out inUse unlinked
    have before : Unloaded s j := by
      rcases out with invalid | ⟨q, at'⟩
      · exact Or.inl invalid
      · by_cases self : q = p
        · subst self
          rw [setPc_self] at at'
          cases at'
        · exact Or.inr ⟨q, (moved q self).symm.trans at'⟩
    obtain ⟨q, at'⟩ := unloaded j used before inUse unlinked
    by_cases self : q = p
    · subst self
      have there : inum = (s.slot j).inum := by
        rcases at' with inHand | fresh
        · rw [hand] at inHand
          cases inHand
          rfl
        · rw [hand] at fresh
          cases fresh
      have here : j = k := unique j k used active (there.symm.trans same.symm)
      exact ⟨q, Or.inr (by rw [here, setPc_self])⟩
    · exact ⟨q, by rw [moved q self]; exact at'⟩
  case reachable =>
    intro i inUse unlinked
    rcases reachable i inUse unlinked with ⟨j, used, there, why⟩ | ⟨q, at'⟩
    · exact Or.inl ⟨j, used, there, why.imp_right fun doomed => doomed.move moved (by simp [hand])⟩
    · by_cases self : q = p
      · subst self
        rw [hand] at at'
        cases at'
        exact Or.inl ⟨k, active, same, Or.inl (List.ne_nil_of_mem mine)⟩
      · exact Or.inr ⟨q, (moved q self).trans at'⟩
  all_goals simp only [State.setPc, Function.update_apply] at *
  all_goals grind -ring -linarith

/-- `ilock` by a process that holds a reference; `copy` is what the disk has. -/
theorem Invariant.ilocks (held : Invariant s) (mine : p ∈ s.holders k)
    (at' : s.pc p = .idle ∨ s.pc p = .fresh k) (free : (s.slot k).lock = none) {copy : Dinode}
    (loaded : copy = s.disk (s.slot k).inum) (typed : copy.type ≠ 0) :
    Invariant ((s.setSlot k { s.slot k with lock := some p, valid := true, copy }).setPc p
      .idle) := by
  have notFreeing : ∀ j stage, s.pc p ≠ .freeing j stage := by
    intro j stage there
    rcases at' with idle | fresh
    · exact nomatch idle.symm.trans there
    · exact nomatch fresh.symm.trans there
  have moved : ∀ q, q ≠ p → ((s.setSlot k { s.slot k with lock := some p, valid := true
                                                          copy }).setPc p .idle).pc q = s.pc q :=
    fun q apart => setPc_other _ p _ apart
  have noHand : ∀ i, s.pc p ≠ .hand i := by
    intro i there
    rcases at' with idle | fresh
    · exact nomatch idle.symm.trans there
    · exact nomatch fresh.symm.trans there
  have kept := setSlot_kept s k { s.slot k with lock := some p, valid := true, copy } ⟨rfl, rfl⟩
  have reach := held.reachable_move moved kept rfl noHand
    (fun j => ⟨notFreeing j _, notFreeing j _⟩)
  obtain ⟨counted, leavers, unique, locked, freeing, agree, scrubbed, fresh, unloaded,
    reachable⟩ := held
  constructor
  case locked =>
    intro j q holds
    by_cases here : j = k
    · subst here
      have same : p = q := by
        change ((s.setSlot j _).slot j).lock = some q at holds
        rw [setSlot_self] at holds
        exact Option.some.inj holds
      subst same
      left
      change _ ∧ ((s.setSlot j _).slot j).valid = true ∧ ((s.setSlot j _).slot j).copy.type ≠ 0
      rw [setSlot_self]
      exact ⟨mine, rfl, typed⟩
    · change ((s.setSlot k _).slot j).lock = some q at holds
      change (_ ∧ ((s.setSlot k _).slot j).valid = true ∧ ((s.setSlot k _).slot j).copy.type ≠ 0) ∨ _
      rw [setSlot_other _ _ _ here] at holds ⊢
      refine (locked j q holds).imp_right ?_
      rintro ⟨stage, there, early⟩
      refine ⟨stage, (moved q ?_).trans there, early⟩
      rintro rfl
      exact notFreeing j stage there
  case unloaded =>
    intro j used out inUse unlinked
    by_cases here : j = k
    · exfalso
      subst here
      rcases out with invalid | ⟨q, there⟩
      · change ((s.setSlot j _).slot j).valid = false at invalid
        rw [setSlot_self] at invalid
        cases invalid
      · have apart : q ≠ p := by
          rintro rfl
          rw [setPc_self] at there
          cases there
        rw [moved q apart] at there
        have holds := (freeing q j .invalidate there (by decide)).1
        rw [free] at holds
        cases holds
    · have before : Unloaded s j := by
        rcases out with invalid | ⟨q, there⟩
        · change ((s.setSlot k _).slot j).valid = false at invalid
          rw [setSlot_other _ _ _ here] at invalid
          exact Or.inl invalid
        · by_cases self : q = p
          · subst self
            rw [setPc_self] at there
            cases there
          · exact Or.inr ⟨q, (moved q self).symm.trans there⟩
      change 0 < ((s.setSlot k _).slot j).ref at used
      change (s.disk ((s.setSlot k _).slot j).inum).type ≠ 0 at inUse
      change (s.disk ((s.setSlot k _).slot j).inum).nlink = 0 at unlinked
      change ∃ q, _ = Pc.hand ((s.setSlot k _).slot j).inum ∨ _
      rw [setSlot_other _ _ _ here] at used inUse unlinked ⊢
      obtain ⟨q, there⟩ := unloaded j used before inUse unlinked
      refine ⟨q, ?_⟩
      rw [moved q]
      · exact there
      · rintro rfl
        rcases at' with idle | fresh
        · rcases there with hand | fresh
          · exact nomatch idle.symm.trans hand
          · exact nomatch idle.symm.trans fresh
        · rcases there with hand | other
          · exact nomatch fresh.symm.trans hand
          · exact here (Pc.fresh.inj (fresh.symm.trans other)).symm
  case reachable => exact reach
  all_goals simp only [State.setPc, State.setSlot, Function.update_apply] at *
  all_goals grind -ring -linarith

/-- `iput` gives up a reference without freeing. The only way to leave an
unlinked inode without an owner would be to leave it to a process at the end of
an `iput` of its own. -/
theorem Invariant.iputKeeps (held : Invariant s) (idle : s.pc p = .idle) (mine : p ∈ s.holders k)
    (unlocked : (s.slot k).lock ≠ some p)
    (keeps : ¬ ((s.slot k).ref = 1 ∧ (s.slot k).valid = true ∧ (s.slot k).copy.nlink = 0))
    (other : leavesOther s (.iput p k) = true) :
    Invariant ((s.setHolders k ((s.holders k).erase p)).setSlot k
      { s.slot k with ref := (s.slot k).ref - 1 }) := by
  have count := held.counted k
  have length := List.length_erase_of_mem mine
  have some' := List.length_pos_of_mem mine
  have rest : ∀ q, q ≠ p → (q ∈ (s.holders k).erase p ↔ q ∈ s.holders k) :=
    fun q apart => List.mem_erase_of_ne apart
  have leaves := of_decide_eq_true other
  obtain ⟨counted, leavers, unique, locked, freeing, agree, scrubbed, fresh, unloaded,
    reachable⟩ := held
  constructor
  case reachable =>
    intro inum inUse unlinked
    rcases reachable inum inUse unlinked with ⟨j, used, same, why⟩ | hand
    · by_cases here : j = k
      · subst here
        have slot : (((s.setHolders j ((s.holders j).erase p)).setSlot j
            { s.slot j with ref := (s.slot j).ref - 1 }).slot j) =
              { s.slot j with ref := (s.slot j).ref - 1 } := setSlot_self ..
        by_cases last : (s.holders j).erase p = []
        · -- nobody else holds a reference
          by_cases doomed : Doomed s j
          · obtain ⟨q, there⟩ := doomed
            have leaving : s.leaving j = some q :=
              (leavers j q).mpr (there.elim (fun at' => ⟨_, at'⟩) (fun at' => ⟨_, at'⟩))
            rw [leaving] at count
            simp only [Option.isSome_some, if_true] at count
            refine Or.inl ⟨j, ?_, ?_, Or.inr ⟨q, there⟩⟩
            · rw [slot]
              change 0 < (s.slot j).ref - 1
              omega
            · rw [slot]
              exact same
          · by_cases out : Unloaded s j
            · subst same
              obtain ⟨q, there⟩ := unloaded j used out inUse unlinked
              rcases there with hand | at'
              · exact Or.inr ⟨q, hand⟩
              · have apart : q ≠ p := by
                  rintro rfl
                  exact nomatch idle.symm.trans at'
                have member := (rest q apart).mpr (fresh q j at')
                rw [last] at member
                cases member
            · exfalso
              have valid : (s.slot j).valid = true := by
                cases is : (s.slot j).valid with
                | true => rfl
                | false => exact absurd (Or.inl is) out
              have free : (s.slot j).lock = none := by
                cases holder : (s.slot j).lock with
                | none => rfl
                | some q =>
                    rcases locked j q holder with ⟨member, _⟩ | ⟨stage, at', early⟩
                    · have apart : q ≠ p := by
                        rintro rfl
                        exact unlocked holder
                      have member' := (rest q apart).mpr member
                      rw [last] at member'
                      cases member'
                    · cases stage with
                      | trunc => exact absurd ⟨q, Or.inl at'⟩ doomed
                      | clear => exact absurd ⟨q, Or.inr at'⟩ doomed
                      | invalidate => exact absurd (Or.inr ⟨q, at'⟩) out
                      | drop => exact absurd rfl early
              obtain ⟨copied, typed⟩ := agree j used valid free
              have nolink : (s.slot j).copy.nlink = 0 := by
                rw [copied, same]
                exact unlinked
              by_cases one : (s.slot j).ref = 1
              · exact keeps ⟨one, valid, nolink⟩
              · exact leaves valid typed nolink one last
        · refine Or.inl ⟨j, ?_, ?_, Or.inl ?_⟩
          · have more := List.length_pos_of_ne_nil last
            rw [slot]
            change 0 < (s.slot j).ref - 1
            omega
          · rw [slot]
            exact same
          · simpa [State.setHolders, State.setSlot] using last
      · refine Or.inl ⟨j, ?_⟩
        rw [setSlot_other _ _ _ here]
        refine ⟨used, same, why.imp_left ?_⟩
        intro nonempty
        simpa [State.setHolders, State.setSlot, here] using nonempty
    · exact Or.inr hand
  all_goals simp only [State.setHolders, State.setSlot, Function.update_apply, Unloaded] at *
  all_goals grind -ring -linarith

/-- `iput` of the last reference to an unlinked inode starts to free it. -/
theorem Invariant.iputFrees (held : Invariant s) (idle : s.pc p = .idle) (mine : p ∈ s.holders k)
    (last : (s.slot k).ref = 1) (valid : (s.slot k).valid = true)
    (nolink : (s.slot k).copy.nlink = 0) (unlocked : (s.slot k).lock = none) :
    Invariant ((((s.setHolders k ((s.holders k).erase p)).setSlot k
      { s.slot k with lock := some p }).setLeaving k (some p)).setPc p (.freeing k .trunc)) := by
  have count := held.counted k
  have length := List.length_erase_of_mem mine
  have some' := List.length_pos_of_mem mine
  have nobody : s.leaving k = none := by
    cases gone : s.leaving k with
    | none => rfl
    | some q =>
        rw [gone, last] at count
        simp only [Option.isSome_some, if_true] at count
        omega
  rw [nobody, last] at count
  have rest : (s.holders k).erase p = [] := by
    apply List.eq_nil_of_length_eq_zero
    simp only [Option.isSome_none, Bool.false_eq_true, if_false] at count
    omega
  have agreed := held.agree k (by omega) valid unlocked
  have noFresh : ∀ q, s.pc q ≠ .fresh k := by
    intro q at'
    have apart : q ≠ p := by
      rintro rfl
      exact nomatch idle.symm.trans at'
    have member := (List.mem_erase_of_ne apart).mpr (held.fresh q k at')
    rw [rest] at member
    cases member
  have noFreeing : ∀ q stage, s.pc q ≠ .freeing k stage := by
    intro q stage at'
    have leaving := (held.leavers k q).mpr ⟨stage, at'⟩
    rw [nobody] at leaving
    cases leaving
  have moved : ∀ q, q ≠ p → ((((s.setHolders k ((s.holders k).erase p)).setSlot k
      { s.slot k with lock := some p }).setLeaving k (some p)).setPc p (.freeing k .trunc)).pc q =
        s.pc q := fun q apart => setPc_other _ p _ apart
  have kept := setSlot_kept s k { s.slot k with lock := some p } ⟨rfl, rfl⟩
  have accounted := fun j => held.accounted (j := j) moved (by simp [idle])
  obtain ⟨counted, leavers, unique, locked, freeing, agree, scrubbed, fresh, unloaded,
    reachable⟩ := held
  constructor
  case leavers =>
    intro j q
    simp only [State.setHolders, State.setLeaving, State.setPc, State.setSlot,
      Function.update_apply]
    by_cases self : q = p
    · subst self
      by_cases here : j = k
      · simp [here]
      · have not := leavers j q
        simp only [idle, reduceCtorEq, exists_false, iff_false] at not
        simp [here, not, Ne.symm here]
    · by_cases here : j = k
      · subst here
        simp [self, noFreeing, Ne.symm self]
      · simp [here, self, leavers]
  case locked =>
    intro j q holds
    simp only [State.setHolders, State.setLeaving, State.setPc, State.setSlot,
      Function.update_apply] at holds ⊢
    by_cases here : j = k
    · subst here
      rw [if_pos rfl] at holds
      obtain rfl := Option.some.inj holds
      exact Or.inr ⟨.trunc, if_pos rfl, by decide⟩
    · simp only [if_neg here] at holds ⊢
      refine (locked j q holds).imp_right ?_
      rintro ⟨stage, at', early⟩
      refine ⟨stage, ?_, early⟩
      rw [if_neg (by rintro rfl; exact nomatch idle.symm.trans at')]
      exact at'
  case unloaded =>
    intro j used out inUse unlinked
    change 0 < ((s.setSlot k _).slot j).ref at used
    change (s.disk ((s.setSlot k _).slot j).inum).type ≠ 0 at inUse
    change (s.disk ((s.setSlot k _).slot j).inum).nlink = 0 at unlinked
    change ∃ q, _ = Pc.hand ((s.setSlot k _).slot j).inum ∨ _
    rw [(kept j).1] at used
    rw [(kept j).2] at inUse unlinked ⊢
    refine accounted j used ?_ inUse unlinked
    rcases out with invalid | ⟨q, at'⟩
    · left
      change ((s.setSlot k _).slot j).valid = false at invalid
      by_cases here : j = k
      · subst here
        rw [setSlot_self] at invalid
        exact invalid
      · rwa [setSlot_other _ _ _ here] at invalid
    · by_cases self : q = p
      · subst self
        rw [setPc_self] at at'
        cases at'
      · exact Or.inr ⟨q, (moved q self).symm.trans at'⟩
  case reachable =>
    intro inum inUse unlinked
    rcases reachable inum inUse unlinked with ⟨j, used, same, why⟩ | ⟨q, hand⟩
    · refine Or.inl ⟨j, ?_, ?_, ?_⟩
      · change 0 < ((s.setSlot k _).slot j).ref
        rw [(kept j).1]
        exact used
      · change ((s.setSlot k _).slot j).inum = inum
        rw [(kept j).2]
        exact same
      · by_cases here : j = k
        · subst here
          exact Or.inr ⟨p, Or.inl (setPc_self ..)⟩
        · refine why.imp ?_ fun doomed => doomed.move moved (by simp [idle])
          intro nonempty
          simpa [State.setHolders, State.setLeaving, State.setPc, State.setSlot, here] using nonempty
    · refine Or.inr ⟨q, (moved q ?_).trans hand⟩
      rintro rfl
      exact nomatch idle.symm.trans hand
  all_goals simp only [State.setHolders, State.setLeaving, State.setPc, State.setSlot,
    Function.update_apply] at *
  all_goals grind -ring -linarith

omit [DecidableEq Proc] in
/-- A slot whose inode is being freed is read in until it is invalidated. -/
theorem Invariant.loaded (held : Invariant s) {stage : Stage} (at' : s.pc p = .freeing k stage)
    (early : stage = .trunc ∨ stage = .clear) : ¬ Unloaded s k := by
  have notDrop : stage ≠ .drop := by
    rcases early with rfl | rfl
    · decide
    · decide
  obtain ⟨lock, valid, -⟩ := held.freeing p k stage at' notDrop
  rintro (invalid | ⟨q, there⟩)
  · rw [valid] at invalid
    cases invalid
  · have holder := (held.freeing q k .invalidate there (by decide)).1
    rw [lock] at holder
    obtain rfl := Option.some.inj holder
    rw [at'] at there
    rcases early with rfl | rfl
    · cases there
    · cases there

omit [DecidableEq Proc] in
theorem Invariant.leaver_active (held : Invariant s) {stage : Stage}
    (at' : s.pc p = .freeing k stage) :
    (s.slot k).ref = (s.holders k).length + 1 ∧ ∀ q other, s.pc q = .freeing k other → q = p := by
  have leaves := (held.leavers k p).mpr ⟨_, at'⟩
  constructor
  · have count := held.counted k
    rwa [leaves] at count
  · intro q other there
    have leaves' := (held.leavers k q).mpr ⟨_, there⟩
    rw [leaves] at leaves'
    exact (Option.some.inj leaves').symm

/-- The freeing process rewrites the inode, in memory and on the disk. -/
theorem Invariant.rewrites (held : Invariant s) {stage onward : Stage} {copy : Dinode}
    (at' : s.pc p = .freeing k stage)
    (order : (stage = .trunc ∧ onward = .clear ∧ copy.type ≠ 0) ∨
      (stage = .clear ∧ onward = .invalidate ∧ copy.type = 0))
    (nolink : copy.nlink = 0) (scrubbed : copy.addrs = []) :
    Invariant (((s.setSlot k { s.slot k with copy }).setDisk (s.slot k).inum copy).setPc p
      (.freeing k onward)) := by
  have notDrop : stage ≠ .drop := by
    rcases order with ⟨rfl, -⟩ | ⟨rfl, -⟩
    · decide
    · decide
  have moved : ∀ q, q ≠ p → (((s.setSlot k { s.slot k with copy }).setDisk (s.slot k).inum
      copy).setPc p (.freeing k onward)).pc q = s.pc q := fun q apart => setPc_other _ p _ apart
  have kept := setSlot_kept s k { s.slot k with copy } ⟨rfl, rfl⟩
  obtain ⟨count, alone⟩ := held.leaver_active at'
  obtain ⟨lock, valid, -, -, -⟩ := held.freeing p k _ at' notDrop
  have loaded := held.loaded at' (order.imp (fun first => first.1) fun second => second.1)
  have accounted := fun j => held.accounted (j := j) moved (by simp [at'])
  obtain ⟨counted, leavers, unique, locked, freeing, agree, scrubbed', fresh, unloaded,
    reachable⟩ := held
  constructor
  case unloaded =>
    intro j used out inUse unlinked
    change 0 < ((s.setSlot k _).slot j).ref at used
    rw [(kept j).1] at used
    change ((State.setDisk _ (s.slot k).inum copy).disk ((s.setSlot k _).slot j).inum).type ≠ 0 at inUse
    change ((State.setDisk _ (s.slot k).inum copy).disk ((s.setSlot k _).slot j).inum).nlink = 0 at unlinked
    change ∃ q, _ = Pc.hand ((s.setSlot k _).slot j).inum ∨ _
    rw [(kept j).2] at inUse unlinked ⊢
    by_cases here : j = k
    · subst here
      exfalso
      rcases order with ⟨rfl, rfl, typed⟩ | ⟨rfl, rfl, cleared⟩
      · refine loaded ?_
        rcases out with invalid | ⟨q, there⟩
        · left
          change ((s.setSlot j _).slot j).valid = false at invalid
          rw [setSlot_self] at invalid
          exact invalid
        · by_cases self : q = p
          · subst self
            rw [setPc_self] at there
            cases there
          · exact Or.inr ⟨q, (moved q self).symm.trans there⟩
      · rw [setDisk_self] at inUse
        exact inUse cleared
    · have apart : (s.slot j).inum ≠ (s.slot k).inum := fun same =>
        here (unique j k used (by omega) same)
      rw [setDisk_other _ _ _ apart] at inUse unlinked
      refine accounted j used ?_ inUse unlinked
      rcases out with invalid | ⟨q, there⟩
      · left
        change ((s.setSlot k _).slot j).valid = false at invalid
        rwa [setSlot_other _ _ _ here] at invalid
      · by_cases self : q = p
        · subst self
          rw [setPc_self] at there
          exact absurd (Pc.freeing.inj there).1.symm here
        · exact Or.inr ⟨q, (moved q self).symm.trans there⟩
  case reachable =>
    intro inum inUse unlinked
    change ((State.setDisk _ (s.slot k).inum copy).disk inum).type ≠ 0 at inUse
    change ((State.setDisk _ (s.slot k).inum copy).disk inum).nlink = 0 at unlinked
    by_cases same : inum = (s.slot k).inum
    · subst same
      rw [setDisk_self] at inUse
      rcases order with ⟨rfl, rfl, typed⟩ | ⟨rfl, rfl, cleared⟩
      · refine Or.inl ⟨k, ?_, ?_, Or.inr ⟨p, Or.inr (setPc_self ..)⟩⟩
        · change 0 < ((s.setSlot k _).slot k).ref
          rw [(kept k).1]
          omega
        · exact (kept k).2
      · exact absurd cleared inUse
    · rw [setDisk_other _ _ _ same] at inUse unlinked
      rcases reachable inum inUse unlinked with ⟨j, used, there, why⟩ | ⟨q, hand⟩
      · have here : k ≠ j := by
          rintro rfl
          exact same there.symm
        refine Or.inl ⟨j, ?_, (kept j).2.trans there, why.imp_right fun doomed => doomed.move moved ?_⟩
        · change 0 < ((s.setSlot k _).slot j).ref
          rw [(kept j).1]
          exact used
        · rw [at']
          exact ⟨fun eq => here (Pc.freeing.inj eq).1, fun eq => here (Pc.freeing.inj eq).1⟩
      · refine Or.inr ⟨q, (moved q ?_).trans hand⟩
        rintro rfl
        exact nomatch at'.symm.trans hand
  all_goals simp only [State.setDisk, State.setPc, State.setSlot, Function.update_apply] at *
  all_goals grind -ring -linarith

theorem Invariant.invalidates (held : Invariant s) (at' : s.pc p = .freeing k .invalidate) :
    Invariant (InodeRace.iputNext s p k .invalidate) := by
  have moved : ∀ q, q ≠ p → (InodeRace.iputNext s p k .invalidate).pc q = s.pc q :=
    fun q apart => setPc_other _ p _ apart
  have kept : ∀ j, ((InodeRace.iputNext s p k .invalidate).slot j).ref = (s.slot j).ref ∧
      ((InodeRace.iputNext s p k .invalidate).slot j).inum = (s.slot j).inum :=
    setSlot_kept s k { s.slot k with valid := false, lock := none } ⟨rfl, rfl⟩
  obtain ⟨count, alone⟩ := held.leaver_active at'
  obtain ⟨lock, valid, -, -, -⟩ := held.freeing p k _ at' (by decide)
  have accounted := fun j => held.accounted (j := j) moved (by simp [at'])
  have reach := held.reachable_move moved kept rfl (by simp [at']) (by simp [at'])
  obtain ⟨counted, leavers, unique, locked, freeing, agree, scrubbed, fresh, unloaded,
    reachable⟩ := held
  constructor
  case unloaded =>
    intro j used out inUse unlinked
    rw [(kept j).1] at used
    rw [(kept j).2] at inUse unlinked ⊢
    refine accounted j used ?_ inUse unlinked
    by_cases here : j = k
    · subst here
      exact Or.inr ⟨p, at'⟩
    · rcases out with invalid | ⟨q, there⟩
      · left
        change ((s.setSlot k _).slot j).valid = false at invalid
        rwa [setSlot_other _ _ _ here] at invalid
      · by_cases self : q = p
        · subst self
          exact absurd ((setPc_self ..).symm.trans there) nofun
        · exact Or.inr ⟨q, (moved q self).symm.trans there⟩
  case reachable => exact reach
  all_goals simp only [InodeRace.iputNext, State.setPc, State.setSlot, Function.update_apply] at *
  all_goals grind -ring -linarith

theorem Invariant.drops (held : Invariant s) (at' : s.pc p = .freeing k .drop) :
    Invariant (InodeRace.iputNext s p k .drop) := by
  have moved : ∀ q, q ≠ p → (InodeRace.iputNext s p k .drop).pc q = s.pc q :=
    fun q apart => setPc_other _ p _ apart
  have others : ∀ j, j ≠ k → (InodeRace.iputNext s p k .drop).slot j = s.slot j :=
    fun j apart => setSlot_other s k _ apart
  have here : (InodeRace.iputNext s p k .drop).slot k =
      { s.slot k with ref := (s.slot k).ref - 1 } := setSlot_self ..
  have kept : ∀ j, ((InodeRace.iputNext s p k .drop).slot j).inum = (s.slot j).inum ∧
      ((InodeRace.iputNext s p k .drop).slot j).valid = (s.slot j).valid ∧
      ((InodeRace.iputNext s p k .drop).slot j).ref ≤ (s.slot j).ref := by
    intro j
    by_cases same : j = k
    · subst same
      rw [here]
      exact ⟨rfl, rfl, Nat.sub_le ..⟩
    · rw [others j same]
      exact ⟨rfl, rfl, Nat.le_refl _⟩
  obtain ⟨count, alone⟩ := held.leaver_active at'
  have accounted := fun j => held.accounted (j := j) moved (by simp [at'])
  obtain ⟨counted, leavers, unique, locked, freeing, agree, scrubbed, fresh, unloaded,
    reachable⟩ := held
  constructor
  case unloaded =>
    intro j used out inUse unlinked
    rw [(kept j).1] at inUse unlinked ⊢
    refine accounted j (Nat.lt_of_lt_of_le used (kept j).2.2) ?_ inUse unlinked
    rcases out with invalid | ⟨q, there⟩
    · exact Or.inl ((kept j).2.1.symm.trans invalid)
    · by_cases self : q = p
      · subst self
        exact absurd ((setPc_self ..).symm.trans there) nofun
      · exact Or.inr ⟨q, (moved q self).symm.trans there⟩
  case reachable =>
    intro inum inUse unlinked
    rcases reachable inum inUse unlinked with ⟨j, used, there, why⟩ | ⟨q, hand⟩
    · refine Or.inl ⟨j, ?_, (kept j).1.trans there, why.imp_right fun doomed => doomed.move moved ?_⟩
      · by_cases same : j = k
        · subst same
          rw [here]
          change 0 < (s.slot j).ref - 1
          rcases why with nonempty | ⟨q, dooms⟩
          · have more := List.length_pos_of_ne_nil nonempty
            omega
          · have self : q = p := dooms.elim (alone q _) (alone q _)
            subst self
            rw [at'] at dooms
            rcases dooms with trunc | clear
            · cases trunc
            · cases clear
        · rw [others j same]
          exact used
      · rw [at']
        exact ⟨nofun, nofun⟩
    · refine Or.inr ⟨q, (moved q ?_).trans hand⟩
      rintro rfl
      exact nomatch at'.symm.trans hand
  all_goals simp only [InodeRace.iputNext, State.setPc, State.setSlot, State.setLeaving,
    Function.update_apply] at *
  all_goals grind -ring -linarith

omit [DecidableEq Proc] in
theorem Invariant.igets (held : Invariant s) {inum : Nat}
    (got : InodeRace.iget s p inum = some (k, next)) :
    Invariant next ∧ p ∈ next.holders k ∧ (next.slot k).inum = inum ∧ next.pc = s.pc := by
  unfold InodeRace.iget at got
  cases found : s.cached inum with
  | some j =>
      rw [found] at got
      cases got
      have here : 0 < (s.slot k).ref ∧ (s.slot k).inum = inum := by
        simpa using List.find?_some (p := fun k => decide (0 < (s.slot k).ref ∧
          (s.slot k).inum = inum)) found
      refine ⟨held.references here.1 p, ?_, ?_, rfl⟩
      · simp [State.reference, State.setHolders]
      · simpa [State.reference, State.setHolders] using here.2
  | none =>
      rw [found] at got
      cases room : s.empty with
      | none =>
          rw [room] at got
          cases got
      | some j =>
          rw [room] at got
          cases got
          have free : (s.slot k).ref = 0 := by
            simpa using List.find?_some (p := fun k => decide ((s.slot k).ref = 0)) room
          have absent : ∀ j, 0 < (s.slot j).ref → (s.slot j).inum ≠ inum := by
            intro j used same
            exact List.find?_eq_none.mp found j (List.mem_finRange j) (decide_eq_true ⟨used, same⟩)
          refine ⟨held.takes free absent p, ?_, ?_, rfl⟩
          · simp [State.setHolders]
          · simp [State.setHolders]

theorem iput_invariant (held : Invariant s) (idle : s.pc p = .idle) (mine : p ∈ s.holders k)
    (unlocked : (s.slot k).lock ≠ some p) (other : leavesOther s (.iput p k) = true)
    (put : iput s p k = some next) : Invariant next := by
  simp only [iput] at put
  split at put
  · rename_i last
    split at put
    · rename_i free
      cases put
      exact held.iputFrees idle mine last.1 last.2.1 last.2.2 free
    · cases put
  · rename_i keeps
    cases put
    exact held.iputKeeps idle mine unlocked keeps other

theorem iputNext_invariant (held : Invariant s) {stage : Stage}
    (at' : s.pc p = .freeing k stage) : Invariant (iputNext s p k stage) := by
  cases stage with
  | trunc =>
      obtain ⟨-, -, nolink, -, typed⟩ := held.freeing p k _ at' (by decide)
      exact held.rewrites at' (Or.inl ⟨rfl, rfl, typed (by decide)⟩) nolink rfl
  | clear =>
      obtain ⟨-, -, nolink, scrubbed, -⟩ := held.freeing p k _ at' (by decide)
      exact held.rewrites at' (Or.inr ⟨rfl, rfl, rfl⟩) nolink (scrubbed (by decide))
  | invalidate => exact held.invalidates at'
  | drop => exact held.drops at'

theorem ilock_invariant (held : Invariant s) (mine : p ∈ s.holders k)
    (at' : s.pc p = .idle ∨ s.pc p = .fresh k) (locks : ilock s p k = some next) :
    Invariant (next.setPc p .idle) := by
  simp only [ilock] at locks
  split at locks
  · cases locks
  · rename_i taken
    have free : (s.slot k).lock = none := not_not.mp taken
    split at locks
    · rename_i valid
      cases locks
      obtain ⟨copied, typed⟩ := held.agree k (held.active mine) valid free
      have locked := held.ilocks mine at' free copied typed
      rwa [← valid] at locked
    · split at locks
      · cases locks
      · rename_i typed
        cases locks
        exact held.ilocks mine at' free rfl typed

theorem step_invariant (held : Invariant s) {label : Label Proc}
    (other : leavesOther s label = true) (stepped : step s label = some next) :
    Invariant next := by
  cases label with
  | iget p inum =>
      simp only [step] at stepped
      split at stepped
      · obtain ⟨⟨k, after⟩, got, rfl⟩ := Option.map_eq_some_iff.mp stepped
        exact (held.igets got).1
      · cases stepped
  | idup p k =>
      simp only [step] at stepped
      split at stepped
      · rename_i may
        cases stepped
        exact held.references (held.active may.2) p
      · cases stepped
  | ialloc p inum type =>
      simp only [step] at stepped
      split at stepped
      · rename_i may
        cases stepped
        exact held.iallocs may.1 may.2.1 may.2.2
      · cases stepped
  | igetNew p =>
      simp only [step] at stepped
      split at stepped
      · rename_i inum hand
        obtain ⟨⟨k, after⟩, got, rfl⟩ := Option.map_eq_some_iff.mp stepped
        obtain ⟨held', mine, same, pc⟩ := held.igets got
        exact held'.freshens (by rw [pc]; exact hand) mine same
      · cases stepped
  | ilock p k =>
      simp only [step] at stepped
      split at stepped
      · rename_i may
        obtain ⟨after, locks, rfl⟩ := Option.map_eq_some_iff.mp stepped
        exact ilock_invariant held may.1 may.2 locks
      · cases stepped
  | setNlink p k nlink =>
      simp only [step] at stepped
      split at stepped
      · rename_i may
        cases stepped
        exact held.edits may.1 may.2 rfl
      · cases stepped
  | writei p k block =>
      simp only [step] at stepped
      split at stepped
      · rename_i may
        cases stepped
        exact held.edits may.1 may.2 rfl
      · cases stepped
  | itrunc p k =>
      simp only [step] at stepped
      split at stepped
      · rename_i may
        cases stepped
        have edited : Invariant (s.setSlot k { s.slot k with
            copy := { (s.slot k).copy with addrs := [] } }) := held.edits may.1 may.2 rfl
        have lock : ((s.setSlot k { s.slot k with
            copy := { (s.slot k).copy with addrs := [] } }).slot k).lock = some p := by
          rw [setSlot_self]
          exact may.2
        have written := edited.iupdate may.1 lock
        rwa [setSlot_self] at written
      · cases stepped
  | iupdate p k =>
      simp only [step] at stepped
      split at stepped
      · rename_i may
        cases stepped
        exact held.iupdate may.1 may.2
      · cases stepped
  | iunlock p k =>
      simp only [step] at stepped
      split at stepped
      · rename_i may
        cases stepped
        exact held.iunlock may.1 may.2.1 may.2.2
      · cases stepped
  | iput p k =>
      simp only [step] at stepped
      split at stepped
      · rename_i may
        exact iput_invariant held may.1 may.2.1 may.2.2 other stepped
      · cases stepped
  | iputNext p =>
      simp only [step] at stepped
      split at stepped
      · rename_i k stage at'
        cases stepped
        exact iputNext_invariant held at'
      · cases stepped

end Steps

/-- Every `iput` of the run leaves an unlinked inode it does not free to another reference. -/
def RunLeavesOther (disk : Nat → Dinode) (labels : List (Label Proc)) : Prop :=
  ∀ before label after middle, labels = before ++ label :: after →
    run step (booted disk) before = some middle → leavesOther middle label = true

/-- No process is inside `iput`, or between the two regions of `ialloc` for `inum`. -/
def Quiet (s : State Proc) (inum : Nat) : Prop :=
  ∀ p, (∀ k stage, s.pc p ≠ .freeing k stage) ∧ s.pc p ≠ .hand inum

/-- In every run in which no `iput` leaves an unlinked inode to processes at the end
of an `iput` alone: an unlinked inode without a reference is free and owns nothing. -/
theorem no_inode_leaked {disk : Nat → Dinode} (clean : CleanImage disk)
    {labels : List (Label Proc)} {final : State Proc}
    (ran : run step (booted disk) labels = some final) (leaves : RunLeavesOther disk labels)
    {inum : Nat} (quiet : Quiet final inum) (unlinked : (final.disk inum).nlink = 0)
    (unreferenced : ∀ k, 0 < (final.slot k).ref → (final.slot k).inum ≠ inum) :
    (final.disk inum).type = 0 ∧ (final.disk inum).addrs = [] := by
  have held : Invariant final :=
    run_invariant_where step (fun s label => leavesOther s label = true) Invariant
      (booted_invariant clean) (fun _ _ _ held other stepped => step_invariant held other stepped)
      ran leaves
  have free : (final.disk inum).type = 0 := by
    by_contra inUse
    rcases held.reachable inum inUse unlinked with ⟨k, used, same, _⟩ | ⟨q, hand⟩
    · exact unreferenced k used same
    · exact (quiet q).2 hand
  exact ⟨free, held.scrubbed inum free⟩

section Calls

variable (p : Proc) (dp k : Slot) (inum : Nat)

/-- `open` of an existing file in the root directory. -/
def openFile : List (Label Proc) :=
  [.iget p ROOTINO, .ilock p dp, .iget p inum, .iunlock p dp, .iput p dp, .ilock p k,
    .iunlock p k]

/-- `open` with `O_CREATE` of a new file in the root directory. -/
def createFile : List (Label Proc) :=
  [.iget p ROOTINO, .ilock p dp, .ialloc p inum 2, .igetNew p, .ilock p k, .setNlink p k 1,
    .iupdate p k, .iupdate p dp, .iunlock p dp, .iput p dp, .iunlock p k]

/-- `unlink` of a file in the root directory that has one link. -/
def unlinkFile : List (Label Proc) :=
  [.iget p ROOTINO, .ilock p dp, .iget p inum, .ilock p k, .iupdate p dp, .iunlock p dp,
    .iput p dp, .setNlink p k 0, .iupdate p k, .iunlock p k, .iput p k]

end Calls

/-- A root directory and one file, inode 2. -/
def smallImage : Nat → Dinode := fun inum =>
  if inum = ROOTINO then { type := 1, nlink := 1, addrs := [46] }
  else if inum = 2 then { type := 2, nlink := 1, addrs := [47] }
  else { type := 0, nlink := 0, addrs := [] }

def rootSlot : Slot := ⟨0, ninode_pos⟩

def fileSlot : Slot := ⟨1, by decide⟩

/-- Process 0 has the file open, process 1 unlinks it, and process 0 closes it. -/
def closeUnlinked : List (Label (Fin 2)) :=
  ([.iget 0 ROOTINO, .iget 1 ROOTINO] : List (Label (Fin 2))) ++ openFile 0 rootSlot fileSlot 2 ++
    unlinkFile 1 rootSlot fileSlot 2 ++
    ([.iput 0 fileSlot, .iputNext 0, .iputNext 0, .iputNext 0] : List (Label (Fin 2)))

theorem smallImage_clean : CleanImage smallImage := by
  intro inum
  unfold smallImage
  split
  · simp
  · split
    · simp
    · simp

theorem closeUnlinked_frees :
    ∃ final, run step (booted smallImage) (closeUnlinked ++ [Label.iputNext (0 : Fin 2)]) = some final ∧
      (final.disk 2).type = 0 ∧ (final.disk 2).addrs = [] := by
  have goes : (run step (booted smallImage) (closeUnlinked ++ [Label.iputNext (0 : Fin 2)])).any (fun final =>
      decide ((∀ p, final.pc p = .idle) ∧ (final.disk 2).nlink = 0 ∧
        ∀ k, 0 < (final.slot k).ref → (final.slot k).inum ≠ 2)) = true := by decide +kernel
  obtain ⟨final, ran, there⟩ := (Option.any_eq_true _ _).mp goes
  obtain ⟨idle, unlinked, unreferenced⟩ := of_decide_eq_true there
  have leaves : RunLeavesOther smallImage (closeUnlinked ++ [Label.iputNext (0 : Fin 2)]) := by
    intro before label after middle split reached
    have met : meetsAll step leavesOther (booted smallImage)
        (closeUnlinked ++ [Label.iputNext (0 : Fin 2)]) = true := by decide +kernel
    rw [split] at met
    exact meetsAll_split step leavesOther met reached
  have quiet : Quiet final 2 := by
    intro p
    rw [idle p]
    exact ⟨nofun, nofun⟩
  exact ⟨final, ran, no_inode_leaked smallImage_clean ran leaves quiet unlinked unreferenced⟩

/-- Between the release of both locks in process 0's `iput` and its `ref--`, process 1
creates a file in the inode just freed, unlinks it and closes it. -/
def reuseInWindow : List (Label (Fin 2)) :=
  closeUnlinked ++ createFile 1 rootSlot fileSlot 2 ++ unlinkFile 1 rootSlot fileSlot 2 ++
    ([.iput 1 fileSlot, .iputNext 0] : List (Label (Fin 2)))

/-- The inode is unlinked, nobody refers to it or is inside a call, and it is still in use. -/
theorem reuse_in_window_leaks :
    ∃ final, run step (booted smallImage) reuseInWindow = some final ∧
      (∀ p, final.pc p = .idle) ∧ (final.disk 2).nlink = 0 ∧
      (∀ k, 0 < (final.slot k).ref → (final.slot k).inum ≠ 2) ∧ (final.disk 2).type = 2 := by
  have goes : (run step (booted smallImage) reuseInWindow).any (fun final =>
      decide ((∀ p, final.pc p = .idle) ∧ (final.disk 2).nlink = 0 ∧
        (∀ k, 0 < (final.slot k).ref → (final.slot k).inum ≠ 2) ∧
        (final.disk 2).type = 2)) = true := by decide +kernel
  obtain ⟨final, ran, there⟩ := (Option.any_eq_true _ _).mp goes
  exact ⟨final, ran, of_decide_eq_true there⟩

end PaddleOs.InodeRace
