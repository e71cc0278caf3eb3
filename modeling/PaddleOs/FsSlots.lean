import PaddleOs.FsSkeleton
import Mathlib.Data.Fintype.Card

/-!
How many empty slots of `itable` a file-system call needs. `iget` stops the kernel when
it finds neither the inode nor an empty slot; nothing else stops it for that reason. A
call holds up to two inodes while it asks for a third one.
-/

namespace PaddleOs.Fs

open Foundation.Outcome Foundation.View

/-- The panic of `iget`. -/
def noInodes (stop : Stop) : Prop := stop = .igetNoInodes

/-- The stops of a block layer are its own. -/
class OwnStops (W : Type) [BlockLayer W] : Prop where
  bread : ∀ dev blockno, Avoids noInodes (BlockLayer.bread (W := W) dev blockno)
  setData : ∀ (b : BlockLayer.Handle W) data, Avoids noInodes (BlockLayer.setData (W := W) b data)
  logWrite : ∀ b : BlockLayer.Handle W, Avoids noInodes (BlockLayer.logWrite (W := W) b)
  brelse : ∀ b : BlockLayer.Handle W, Avoids noInodes (BlockLayer.brelse (W := W) b)
  beginOp : Avoids noInodes (BlockLayer.beginOp (W := W))
  endOp : Avoids noInodes (BlockLayer.endOp (W := W))

theorem avoids_stop {σ α : Type} {stop : Stop} (other : stop ≠ .igetNoInodes) :
    Avoids noInodes (throw stop : EStateM Stop σ α) := avoids_throw other

instance : OwnStops Image where
  bread _ _ := avoids_pure _
  setData _ _ := avoids_modify _
  logWrite _ := avoids_pure _
  brelse _ := avoids_pure _
  beginOp := avoids_modify _
  endOp := avoids_modify _

section StoreLayer

theorem acquiresleep_avoids (b : Fin NBUF) : Avoids noInodes (PaddleOs.acquiresleep b) := by
  unfold PaddleOs.acquiresleep
  exact avoids_bind avoids_get fun _ => avoids_ite
    (avoids_bind (avoids_stop (by decide)) fun _ => avoids_set _) (avoids_set _)

theorem bget_avoids (dev blockno : Nat) : Avoids noInodes (PaddleOs.bget dev blockno) := by
  unfold PaddleOs.bget
  refine avoids_bind avoids_get fun s => ?_
  split
  · exact avoids_bind (avoids_set _) fun _ =>
      avoids_bind (acquiresleep_avoids _) fun _ => avoids_pure _
  · split
    · exact avoids_bind (avoids_set _) fun _ =>
        avoids_bind (acquiresleep_avoids _) fun _ => avoids_pure _
    · exact avoids_stop (by decide)

theorem storeBread_avoids (dev blockno : Nat) : Avoids noInodes (PaddleOs.bread dev blockno) := by
  unfold PaddleOs.bread virtioDiskRw
  refine avoids_bind (bget_avoids dev blockno) fun b => avoids_bind avoids_get fun s => ?_
  exact avoids_ite (avoids_bind (avoids_modify _) fun _ =>
    avoids_bind (avoids_modify _) fun _ => avoids_pure _) (avoids_pure _)

theorem storeBrelse_avoids (b : Fin NBUF) : Avoids noInodes (PaddleOs.brelse b) := by
  unfold PaddleOs.brelse
  exact avoids_bind avoids_get fun _ => avoids_ite
    (avoids_bind (avoids_stop (by decide)) fun _ => avoids_set _) (avoids_set _)

theorem bwrite_avoids (b : Fin NBUF) : Avoids noInodes (bwrite b) := by
  unfold bwrite virtioDiskRw
  exact avoids_bind avoids_get fun _ => avoids_ite
    (avoids_bind (avoids_stop (by decide)) fun _ => avoids_modify _) (avoids_modify _)

theorem writeHead_avoids : Avoids noInodes writeHead := by
  unfold writeHead
  refine avoids_bind avoids_get fun _ => avoids_bind (storeBread_avoids _ _) fun b => ?_
  refine avoids_bind avoids_get fun _ => avoids_bind (avoids_modify _) fun _ => ?_
  exact avoids_bind (bwrite_avoids b) fun _ => storeBrelse_avoids b

theorem writeLogStep_avoids (tail : Nat) : Avoids noInodes (writeLogStep tail) := by
  unfold writeLogStep
  refine avoids_bind avoids_get fun _ => avoids_bind (storeBread_avoids _ _) fun toBuf => ?_
  refine avoids_bind (storeBread_avoids _ _) fun fromBuf => avoids_bind avoids_get fun _ => ?_
  refine avoids_bind (avoids_modify _) fun _ => avoids_bind (bwrite_avoids _) fun _ => ?_
  exact avoids_bind (storeBrelse_avoids _) fun _ => storeBrelse_avoids _

theorem installTransStep_avoids (recovering : Bool) (tail : Nat) :
    Avoids noInodes (installTransStep recovering tail) := by
  have finish : ∀ lbuf dbuf, Avoids noInodes (do
      PaddleOs.brelse lbuf
      PaddleOs.brelse dbuf) := fun lbuf dbuf =>
    avoids_bind (storeBrelse_avoids lbuf) fun _ => storeBrelse_avoids dbuf
  unfold installTransStep
  refine avoids_bind avoids_get fun _ => avoids_bind (storeBread_avoids _ _) fun lbuf => ?_
  refine avoids_bind (storeBread_avoids _ _) fun dbuf => avoids_bind avoids_get fun _ => ?_
  refine avoids_bind (avoids_modify _) fun _ => avoids_bind (bwrite_avoids _) fun _ => ?_
  exact avoids_ite (avoids_bind (avoids_modify _) fun _ => finish lbuf dbuf) (finish lbuf dbuf)

theorem commit_avoids : Avoids noInodes commit := by
  have writeLog_avoids : Avoids noInodes writeLog :=
    avoids_bind avoids_get fun _ => avoids_loop writeLogStep_avoids _ _
  have installTrans_avoids : Avoids noInodes (installTrans false) :=
    avoids_bind avoids_get fun _ => avoids_loop (installTransStep_avoids false) _ _
  unfold commit
  refine avoids_bind avoids_get fun _ => avoids_ite ?_ (avoids_pure _)
  refine avoids_bind writeLog_avoids fun _ => avoids_bind writeHead_avoids fun _ => ?_
  refine avoids_bind installTrans_avoids fun _ => ?_
  exact avoids_bind (avoids_modify _) fun _ => writeHead_avoids

theorem storeLogWrite_avoids (b : Fin NBUF) : Avoids noInodes (PaddleOs.logWrite b) := by
  unfold PaddleOs.logWrite
  refine avoids_bind avoids_get fun s => ?_
  cases recorded : s.log.record (s.buf b).blockno with
  | error stop =>
      refine avoids_stop ?_
      unfold Log.record at recorded
      split at recorded
      · cases recorded
        decide
      split at recorded
      · cases recorded
        decide
      dsimp only at recorded
      split at recorded <;> cases recorded
  | ok result =>
      exact avoids_bind (avoids_set _) fun _ => avoids_ite (avoids_modify _) (avoids_pure _)

theorem storeEndOp_avoids : Avoids noInodes PaddleOs.endOp := by
  unfold PaddleOs.endOp
  refine avoids_bind avoids_get fun s => ?_
  cases finished : s.log.finish with
  | error stop =>
      refine avoids_stop ?_
      unfold Log.finish at finished
      dsimp only at finished
      split at finished
      · cases finished
        decide
      split at finished <;> cases finished
  | ok result =>
      refine avoids_bind (avoids_set _) fun _ => avoids_ite ?_ (avoids_pure _)
      exact avoids_bind commit_avoids fun _ => avoids_modify _

instance : OwnStops Store where
  bread := storeBread_avoids
  setData _ _ := avoids_modify _
  logWrite := storeLogWrite_avoids
  brelse := storeBrelse_avoids
  beginOp := by
    change Avoids noInodes PaddleOs.beginOp
    unfold PaddleOs.beginOp
    exact avoids_bind avoids_get fun _ => avoids_ite (avoids_set _) (avoids_stop (by decide))
  endOp := storeEndOp_avoids

end StoreLayer

theorem onStore_avoids {W α : Type} {run : EStateM Stop W α} (avoids : Avoids noInodes run) :
    Avoids noInodes (onStore run) := avoids_zoom avoids

variable {W : Type} [BlockLayer W] [OwnStops W]

theorem avoids_quiet : Quiet fun ⦃α : Type⦄ (run : FsM W α) => Avoids noInodes run where
  toClosed := closed_avoids noInodes
  stop := avoids_stop
  bread dev blockno := onStore_avoids (OwnStops.bread dev blockno)
  setData bp data := onStore_avoids (OwnStops.setData bp data)
  logWrite bp := onStore_avoids (OwnStops.logWrite bp)
  brelse bp := onStore_avoids (OwnStops.brelse bp)
  modifyInode _ _ _ _ := avoids_modify _

section Inodes

theorem beginOp_avoids : Avoids noInodes (beginOp (W := W)) := onStore_avoids OwnStops.beginOp

theorem endOp_avoids : Avoids noInodes (endOp (W := W)) := onStore_avoids OwnStops.endOp

theorem inode_avoids (k : Slot) : Avoids noInodes (inode (W := W) k) := inode_quiet avoids_quiet k

theorem acquire_avoids (k : Slot) : Avoids noInodes (acquiresleep (W := W) k) := by
  unfold acquiresleep
  refine avoids_bind (inode_avoids k) fun ip => ?_
  exact avoids_ite (avoids_bind (avoids_stop (by decide)) fun _ => avoids_modify _)
    (avoids_modify _)

theorem ilock_avoids (k : Slot) : Avoids noInodes (ilock (W := W) k) := by
  unfold ilock
  refine avoids_bind (inode_avoids k) fun ip => avoids_ite (avoids_stop (by decide)) ?_
  refine avoids_bind (acquire_avoids k) fun _ => avoids_bind (inode_avoids k) fun ip => ?_
  refine avoids_ite ?_ (avoids_pure _)
  refine avoids_bind avoids_get fun s => avoids_bind (avoids_quiet.bread _ _) fun bp => ?_
  refine avoids_bind (data_quiet avoids_quiet bp) fun data => avoids_bind (avoids_modify _) fun _ => ?_
  refine avoids_bind (avoids_quiet.brelse bp) fun _ => avoids_bind (avoids_modify _) fun _ => ?_
  exact avoids_ite (avoids_stop (by decide)) (avoids_pure _)

theorem iunlock_avoids (k : Slot) : Avoids noInodes (iunlock (W := W) k) := by
  unfold iunlock
  refine avoids_bind (inode_avoids k) fun ip => ?_
  exact avoids_ite (avoids_bind (avoids_stop (by decide)) fun _ => avoids_modify _)
    (avoids_modify _)

theorem iput_avoids (k : Slot) : Avoids noInodes (iput (W := W) k) := by
  unfold iput
  refine avoids_bind (inode_avoids k) fun ip => avoids_ite ?_ (avoids_modify _)
  refine avoids_bind (acquire_avoids k) fun _ => ?_
  refine avoids_bind (itrunc_quiet avoids_quiet k) fun _ => avoids_bind (avoids_modify _) fun _ => ?_
  refine avoids_bind (iupdate_quiet avoids_quiet k) fun _ => ?_
  refine avoids_bind (avoids_modify _) fun _ => avoids_bind (avoids_modify _) fun _ => ?_
  exact avoids_modify _

theorem iunlockput_avoids (k : Slot) : Avoids noInodes (iunlockput (W := W) k) :=
  avoids_bind (iunlock_avoids k) fun _ => iput_avoids k

omit [BlockLayer W] [OwnStops W] in
theorem idup_avoids (k : Slot) : Avoids noInodes (idup (W := W) k) :=
  avoids_bind (avoids_modify _) fun _ => avoids_pure _

theorem createFail_avoids (dp ip : Slot) : Avoids noInodes (createFail (W := W) dp ip) := by
  unfold createFail
  refine avoids_bind (avoids_modify _) fun _ => ?_
  refine avoids_bind (iupdate_quiet avoids_quiet ip) fun _ => ?_
  refine avoids_bind (iunlockput_avoids ip) fun _ => ?_
  exact avoids_bind (iunlockput_avoids dp) fun _ => avoids_pure _

theorem linkBad_avoids (ip : Slot) : Avoids noInodes (linkBad (W := W) ip) := by
  unfold linkBad
  refine avoids_bind (ilock_avoids ip) fun _ => avoids_bind (avoids_modify _) fun _ => ?_
  refine avoids_bind (iupdate_quiet avoids_quiet ip) fun _ => ?_
  refine avoids_bind (iunlockput_avoids ip) fun _ => ?_
  exact avoids_bind endOp_avoids fun _ => avoids_pure _

theorem unlinkBad_avoids (dp : Slot) : Avoids noInodes (unlinkBad (W := W) dp) :=
  avoids_bind (iunlockput_avoids dp) fun _ => avoids_bind endOp_avoids fun _ => avoids_pure _

theorem unlinkEntry_avoids (dp ip : Slot) (off : Nat) :
    Avoids noInodes (unlinkEntry (W := W) dp ip off) := by
  have finish : Avoids noInodes (do
      iunlockput (W := W) dp
      modifyInode ip fun ip => { ip with nlink := ip.nlink - 1 }
      iupdate ip
      iunlockput ip
      endOp
      return true) := by
    refine avoids_bind (iunlockput_avoids dp) fun _ => avoids_bind (avoids_modify _) fun _ => ?_
    refine avoids_bind (iupdate_quiet avoids_quiet ip) fun _ => ?_
    refine avoids_bind (iunlockput_avoids ip) fun _ => ?_
    exact avoids_bind endOp_avoids fun _ => avoids_pure _
  have erase : Avoids noInodes (do
      let r ← writei (W := W) dp (kernelSource (List.replicate DIRENT 0)) off DIRENT
      if r ≠ (DIRENT : Int) then throw .unlinkWritei
      if (← inode ip).type = T_DIR then
        modifyInode dp fun dp => { dp with nlink := dp.nlink - 1 }
        iupdate dp
      iunlockput dp
      modifyInode ip fun ip => { ip with nlink := ip.nlink - 1 }
      iupdate ip
      iunlockput ip
      endOp
      return true) := by
    have parent : Avoids noInodes (do
        if (← inode (W := W) ip).type = T_DIR then
          modifyInode dp fun dp => { dp with nlink := dp.nlink - 1 }
          iupdate dp
        iunlockput dp
        modifyInode ip fun ip => { ip with nlink := ip.nlink - 1 }
        iupdate ip
        iunlockput ip
        endOp
        return true) := by
      refine avoids_bind (inode_avoids ip) fun node => avoids_ite ?_ finish
      refine avoids_bind (avoids_modify _) fun _ => ?_
      exact avoids_bind (iupdate_quiet avoids_quiet dp) fun _ => finish
    refine avoids_bind (writei_quiet avoids_quiet dp _ _ _) fun r => ?_
    exact avoids_ite (avoids_bind (avoids_stop (by decide)) fun _ => parent) parent
  have inspect : Avoids noInodes (do
      if (← inode (W := W) ip).type = T_DIR then
        if !(← isdirempty ip) then
          iunlockput ip
          return ← unlinkBad dp
      let r ← writei (W := W) dp (kernelSource (List.replicate DIRENT 0)) off DIRENT
      if r ≠ (DIRENT : Int) then throw .unlinkWritei
      if (← inode ip).type = T_DIR then
        modifyInode dp fun dp => { dp with nlink := dp.nlink - 1 }
        iupdate dp
      iunlockput dp
      modifyInode ip fun ip => { ip with nlink := ip.nlink - 1 }
      iupdate ip
      iunlockput ip
      endOp
      return true) := by
    refine avoids_bind (inode_avoids ip) fun node => avoids_ite ?_ erase
    refine avoids_bind (isdirempty_quiet avoids_quiet ip) fun empty => avoids_ite ?_ erase
    exact avoids_bind (iunlockput_avoids ip) fun _ => unlinkBad_avoids dp
  unfold unlinkEntry
  refine avoids_bind (ilock_avoids ip) fun _ => avoids_bind (inode_avoids ip) fun node => ?_
  exact avoids_ite (avoids_bind (avoids_stop (by decide)) fun _ => inspect) inspect

end Inodes

variable [CountingLayer W]

/-- Neither a slot is taken nor is one missed. -/
def Calm {α : Type} (run : FsM W α) : Prop := Keeps skeleton run ∧ Avoids noInodes run

theorem calm_quiet : Quiet fun ⦃α : Type⦄ (run : FsM W α) => Calm run where
  pure value := ⟨keeps_pure value, avoids_pure value⟩
  get := ⟨keeps_get, avoids_get⟩
  bind first second := ⟨keeps_bind first.1 fun value => (second value).1,
    avoids_bind first.2 fun value => (second value).2⟩
  stop other := ⟨keeps_throw _, avoids_stop other⟩
  bread dev blockno := ⟨bread_keeps dev blockno, avoids_quiet.bread dev blockno⟩
  setData bp data := ⟨setData_keeps bp data, avoids_quiet.setData bp data⟩
  logWrite bp := ⟨logWrite_keeps bp, avoids_quiet.logWrite bp⟩
  brelse bp := ⟨brelse_keeps bp, avoids_quiet.brelse bp⟩
  modifyInode k _ ref locked := ⟨modifyInode_keeps k ref locked, avoids_modify _⟩

section Vacancies

/-- The empty slots of `itable`. -/
def Skeleton.vacancies (sk : Skeleton) : Nat := (Finset.univ.filter fun k => sk.ref k = 0).card

theorem Skeleton.vacancies_take (sk : Skeleton) (k : Slot) :
    sk.vacancies ≤ (sk.take k).vacancies + 1 := by
  refine (Finset.card_le_card (t := insert k _) ?_).trans (Finset.card_insert_le _ _)
  intro j empty
  by_cases same : j = k
  · rw [same]
    exact Finset.mem_insert_self _ _
  · refine Finset.mem_insert_of_mem ?_
    rw [Finset.mem_filter] at empty ⊢
    refine ⟨Finset.mem_univ j, ?_⟩
    have other : (sk.take k).ref j = sk.ref j := Function.update_of_ne same ..
    rw [other]
    exact empty.2

/-- The run from `s` does not end in the panic of `iget`. -/
def Served {W α : Type} (run : FsM W α) (s : State W) : Prop :=
  outcome run (fun _ _ => True) (fun reason _ => ¬ noInodes reason) s

theorem served_stop {W α β : Type} {stop : Stop} {next : α → FsM W β} {s : State W}
    (other : stop ≠ .igetNoInodes) : Served (throw stop >>= next) s := other

omit [OwnStops W] in
/-- A specification is used at the head of a sequence, together with its freedom of the
panic. -/
theorem served_then {α β : Type} {run : FsM W α} {next : α → FsM W β}
    {relation : Skeleton → α → Skeleton → Prop} {s : State W} (first : Served run s)
    (follows : Follows skeleton run relation)
    (rest : ∀ value s', relation (skeleton s) value (skeleton s') → Served (next value) s') :
    Served (run >>= next) s := by
  refine (outcome_bind run next _ _ s).mpr ?_
  refine outcome_mono (outcome_and first (follows s)) ?_ fun _ _ failed => failed.1
  intro value s' done
  exact rest value s' done.2

omit [OwnStops W] in
theorem calm_then {α β : Type} {run : FsM W α} {next : α → FsM W β} {sk : Skeleton}
    {s : State W} (calm : Calm run) (at_origin : skeleton s = sk)
    (rest : ∀ value s', skeleton s' = sk → Served (next value) s') : Served (run >>= next) s :=
  served_then (calm.2 s) calm.1 fun value s' same => rest value s' (same.trans at_origin)

omit [OwnStops W] in
theorem iget_served (dev inum : Nat) {s : State W} (room : 1 ≤ (skeleton s).vacancies) :
    Served (iget dev inum) s := by
  unfold Served iget
  rw [outcome_bind, outcome_get]
  cases s.cached dev inum with
  | some k => trivial
  | none =>
      cases full : s.empty with
      | some k => trivial
      | none =>
          exfalso
          obtain ⟨k, empty⟩ := Finset.card_pos.mp room
          have used := List.find?_eq_none.mp full k (List.mem_finRange k)
          refine used (decide_eq_true ?_)
          exact (Finset.mem_filter.mp empty).2

theorem iallocFrom_served (dev : Nat) (type : Int16) (inum count : Nat) {s : State W}
    (room : 1 ≤ (skeleton s).vacancies) : Served (iallocFrom dev type inum count) s := by
  induction count generalizing inum s with
  | zero => trivial
  | succ count ih =>
      unfold iallocFrom
      refine calm_then calm_quiet.get rfl fun sb s1 same1 => ?_
      refine calm_then (calm_quiet.bread dev _) same1 fun bp s2 same2 => ?_
      refine calm_then (data_quiet calm_quiet bp) same2 fun data s3 same3 => ?_
      refine (outcome_ite _ _ _ _ _ _).mpr ⟨fun _ => ?_, fun _ => ?_⟩
      · refine calm_then (calm_quiet.setData bp _) same3 fun _ s4 same4 => ?_
        refine calm_then (calm_quiet.logWrite bp) same4 fun _ s5 same5 => ?_
        refine calm_then (calm_quiet.brelse bp) same5 fun _ s6 same6 => ?_
        refine served_then (iget_served dev inum ?_) (iget_takes dev inum) fun k s7 _ => ?_
        · rwa [same6]
        · trivial
      · refine calm_then (calm_quiet.brelse bp) same3 fun _ s4 same4 => ih _ ?_
        rwa [same4]

theorem ialloc_served (dev : Nat) (type : Int16) {s : State W}
    (room : 1 ≤ (skeleton s).vacancies) : Served (ialloc dev type) s := by
  refine calm_then calm_quiet.get rfl fun sb s1 same => iallocFrom_served dev type _ _ ?_
  rwa [same]

end Vacancies

section Directories

theorem dirlookupFrom_served (dp : Slot) (name : Name) (fuel off : Nat) {s : State W}
    (room : 1 ≤ (skeleton s).vacancies) : Served (dirlookupFrom dp name fuel off) s := by
  induction fuel generalizing off s with
  | zero => trivial
  | succ fuel ih =>
      unfold dirlookupFrom
      refine calm_then (inode_quiet calm_quiet dp) rfl fun ip s1 same1 => ?_
      refine (outcome_ite _ _ _ _ _ _).mpr ⟨fun _ => ?_, fun _ => trivial⟩
      refine calm_then (readDirent_quiet calm_quiet dp off (by decide)) same1 fun de s2 same2 => ?_
      refine (outcome_ite _ _ _ _ _ _).mpr ⟨fun _ => ?_, fun _ => ih _ ?_⟩
      · refine calm_then (inode_quiet calm_quiet dp) same2 fun ip s3 same3 => ?_
        refine served_then (iget_served _ _ ?_) (iget_takes _ _) fun _ _ _ => trivial
        rwa [same3]
      · rwa [same2]

theorem dirlookup_served (dp : Slot) (name : Name) {s : State W}
    (room : 1 ≤ (skeleton s).vacancies) : Served (dirlookup dp name) s := by
  unfold dirlookup
  refine calm_then (inode_quiet calm_quiet dp) rfl fun ip s1 same => ?_
  refine (outcome_ite _ _ _ _ _ _).mpr ⟨fun _ => served_stop (by decide), fun _ => ?_⟩
  refine dirlookupFrom_served dp name _ _ ?_
  rwa [same]

theorem dirlink_served (dp : Slot) (name : Name) (inum : Nat) {s : State W}
    (room : 1 ≤ (skeleton s).vacancies) : Served (dirlink dp name inum) s := by
  unfold dirlink
  refine served_then (dirlookup_served dp name room) (dirlookup_takes dp name) fun got s1 _ => ?_
  cases got with
  | some found => exact avoids_bind (iput_avoids found.1) (fun _ => avoids_pure _) s1
  | none =>
      refine avoids_bind (inode_avoids dp) (fun ip => ?_) s1
      refine avoids_bind (emptyFrom_quiet avoids_quiet dp _ _) fun off => ?_
      exact avoids_bind (writei_quiet avoids_quiet dp _ _ _) fun r => avoids_pure _

/-- The walk keeps one slot beside the one it looks for. -/
theorem namexFrom_served (parent : Bool) (fuel : Nat) (ip : Slot) (path : Path) (last : Name)
    {origin : Skeleton} (room : 2 ≤ origin.vacancies) {s : State W}
    (held : skeleton s = origin.take ip) : Served (namexFrom parent fuel ip path last) s := by
  induction fuel generalizing ip path last s with
  | zero => trivial
  | succ fuel ih =>
      unfold namexFrom
      cases skipelem path with
      | none =>
          exact avoids_ite (avoids_bind (iput_avoids ip) fun _ => avoids_pure _) (avoids_pure _) s
      | some split =>
          obtain ⟨name, rest⟩ := split
          have release : Avoids noInodes (do
              iunlockput (W := W) ip
              return (none : Option (Slot × Name))) :=
            avoids_bind (iunlockput_avoids ip) fun _ => avoids_pure _
          refine served_then (ilock_avoids ip s) (ilock_locks ip) fun _ s1 locked => ?_
          refine calm_then (inode_quiet calm_quiet ip) rfl fun node s2 same => ?_
          refine (outcome_ite _ _ _ _ _ _).mpr ⟨fun _ => release s2, fun _ => ?_⟩
          refine (outcome_ite _ _ _ _ _ _).mpr ⟨fun _ => ?_, fun _ => ?_⟩
          · exact avoids_bind (iunlock_avoids ip) (fun _ => avoids_pure _) s2
          have spare : 1 ≤ (skeleton s2).vacancies := by
            rw [same, locked.2, held]
            have fewer := origin.vacancies_take ip
            change 1 ≤ (origin.take ip).vacancies
            omega
          refine served_then (dirlookup_served ip name spare) (dirlookup_takes ip name) ?_
          intro got s3 taken
          cases got with
          | none => exact release s3
          | some found =>
              refine served_then (iunlockput_avoids ip s3) (iunlockput_drops ip) ?_
              intro _ s4 dropped
              refine ih found.1 rest name ?_
              change skeleton s3 = (skeleton s2).take found.1 at taken
              rw [held] at locked
              have free : origin.locked ip = false := locked.1
              rw [dropped.2, taken, same, locked.2, Skeleton.unlock_take, Skeleton.take_drop_comm]
              rw [← Skeleton.hold, Skeleton.release_hold _ _ free]

theorem namex_served (cwd : Slot) (path : Path) (parent : Bool) {s : State W}
    (room : 2 ≤ (skeleton s).vacancies) : Served (namex cwd path parent) s := by
  unfold namex
  refine (outcome_ite _ _ _ _ _ _).mpr ⟨fun _ => ?_, fun _ => ?_⟩
  · refine served_then (iget_served _ _ (by omega)) (iget_takes _ _) fun ip s1 taken => ?_
    exact namexFrom_served parent _ ip path [] room taken
  · refine served_then (idup_avoids cwd s) (idup_takes cwd) fun ip s1 taken => ?_
    refine namexFrom_served parent _ ip path [] room ?_
    rw [taken.1]
    exact taken.2

theorem namei_served (cwd : Slot) (path : Path) {s : State W}
    (room : 2 ≤ (skeleton s).vacancies) : Served (namei cwd path) s :=
  served_then (namex_served cwd path false room) (namex_takes cwd path false) fun _ _ _ => trivial

theorem nameiparent_served (cwd : Slot) (path : Path) {s : State W}
    (room : 2 ≤ (skeleton s).vacancies) : Served (nameiparent cwd path) s :=
  namex_served cwd path true room

end Directories

section Calls

theorem createNew_served (dp ip : Slot) (name : Name) (type major minor : Int16)
    {s : State W} (room : 1 ≤ (skeleton s).vacancies) :
    Served (createNew dp ip name type major minor) s := by
  have link : ∀ (dp : Slot) (name : Name) (inum : Nat) {next : Bool → FsM W (Option Slot)}
      {s1 : State W}, skeleton s1 = (skeleton s).lock ip →
      (∀ done s2, skeleton s2 = (skeleton s).lock ip → Served (next done) s2) →
      Served (dirlink dp name inum >>= next) s1 := by
    intro dp name inum next s1 held rest
    refine served_then (dirlink_served dp name inum ?_) (dirlink_keeps dp name inum) ?_
    · rw [held]
      exact room
    · intro done s2 same
      exact rest done s2 (same.trans held)
  have finish : Avoids noInodes (do
      iunlockput (W := W) dp
      return some ip) := avoids_bind (iunlockput_avoids dp) fun _ => avoids_pure _
  have entry : ∀ s1 : State W, skeleton s1 = (skeleton s).lock ip → Served (do
      if !(← dirlink dp name (← inode ip).inum) then return ← createFail dp ip
      if type = T_DIR then
        modifyInode dp fun dp => { dp with nlink := dp.nlink + 1 }
        iupdate dp
      iunlockput dp
      return some ip) s1 := by
    intro s1 held1
    refine calm_then (inode_quiet calm_quiet ip) held1 fun node s2 held2 => ?_
    refine link dp name _ held2 fun done s3 _ => ?_
    refine avoids_ite (createFail_avoids dp ip) (avoids_ite ?_ finish) s3
    refine avoids_bind (avoids_modify _) fun _ => ?_
    exact avoids_bind (iupdate_quiet avoids_quiet dp) fun _ => finish
  unfold createNew
  refine served_then (ilock_avoids ip s) (ilock_locks ip) fun _ s1 locked => ?_
  refine calm_then (calm_quiet.modifyInode ip (fun _ => rfl) fun _ => rfl) locked.2 ?_
  intro _ s2 held2
  refine calm_then (iupdate_quiet calm_quiet ip) held2 fun _ s3 held3 => ?_
  refine (outcome_ite _ _ _ _ _ _).mpr ⟨fun _ => ?_, fun _ => entry s3 held3⟩
  refine calm_then (inode_quiet calm_quiet ip) held3 fun node s4 held4 => ?_
  refine link ip dot _ held4 fun done s5 held5 => ?_
  refine (outcome_ite _ _ _ _ _ _).mpr ⟨fun _ => createFail_avoids dp ip s5, fun _ => ?_⟩
  refine calm_then (inode_quiet calm_quiet dp) held5 fun node s6 held6 => ?_
  refine link ip dotdot _ held6 fun done s7 held7 => ?_
  exact (outcome_ite _ _ _ _ _ _).mpr
    ⟨fun _ => createFail_avoids dp ip s7, fun _ => entry s7 held7⟩

/-- `create` holds the directory and the new inode while it looks the new entry up. -/
theorem create_served (cwd : Slot) (path : Path) (type major minor : Int16) {s : State W}
    (room : 3 ≤ (skeleton s).vacancies) : Served (create cwd path type major minor) s := by
  unfold create
  refine served_then (nameiparent_served cwd path (by omega)) (nameiparent_takes cwd path) ?_
  intro got s1 taken
  cases got with
  | none => trivial
  | some found =>
      obtain ⟨dp, name⟩ := found
      change skeleton s1 = (skeleton s).take dp at taken
      refine served_then (ilock_avoids dp s1) (ilock_locks dp) fun _ s2 locked => ?_
      have two : 2 ≤ (skeleton s2).vacancies := by
        have fewer := (skeleton s).vacancies_take dp
        rw [locked.2, taken]
        change 2 ≤ ((skeleton s).take dp).vacancies
        omega
      refine served_then (dirlookup_served dp name (by omega)) (dirlookup_takes dp name) ?_
      intro got s3 looked
      cases got with
      | none =>
          refine calm_then (inode_quiet calm_quiet dp) looked fun node s4 held4 => ?_
          refine served_then (ialloc_served node.dev type ?_) (ialloc_takes node.dev type) ?_
          · rw [held4]
            exact Nat.le_of_succ_le two
          intro got s5 allocated
          cases got with
          | none => exact avoids_bind (iunlockput_avoids dp) (fun _ => avoids_pure _) s5
          | some ip =>
              refine createNew_served dp ip name type major minor ?_
              have fewer := (skeleton s4).vacancies_take ip
              rw [held4] at allocated fewer
              rw [allocated]
              change 1 ≤ ((skeleton s2).take ip).vacancies
              change (skeleton s2).vacancies ≤ ((skeleton s2).take ip).vacancies + 1 at fewer
              omega
      | some found =>
          obtain ⟨ip, off⟩ := found
          refine avoids_bind (iunlockput_avoids dp) (fun _ => ?_) s3
          refine avoids_bind (ilock_avoids ip) fun _ => ?_
          refine avoids_bind (inode_avoids ip) fun node => avoids_ite (avoids_pure _) ?_
          exact avoids_bind (iunlockput_avoids ip) fun _ => avoids_pure _

/-- `sys_link` holds the old inode and the new directory while it looks the entry up. -/
theorem sysLink_served (cwd : Slot) (old new : Option Path) {s : State W}
    (room : 3 ≤ (skeleton s).vacancies) : Served (sysLink cwd old new) s := by
  unfold sysLink
  split
  · rename_i old new
    refine served_then (beginOp_avoids s) beginOp_opens fun _ s1 opened => ?_
    have room1 : 3 ≤ (skeleton s1).vacancies := by
      rw [opened]
      exact room
    refine served_then (namei_served cwd old (by omega)) (namei_takes cwd old) ?_
    intro got s2 taken
    cases got with
    | none => exact avoids_bind endOp_avoids (fun _ => avoids_pure _) s2
    | some ip =>
        change skeleton s2 = (skeleton s1).take ip at taken
        have fewer := (skeleton s1).vacancies_take ip
        refine served_then (ilock_avoids ip s2) (ilock_locks ip) fun _ s3 locked => ?_
        refine calm_then (inode_quiet calm_quiet ip) locked.2 fun node s4 held4 => ?_
        refine (outcome_ite _ _ _ _ _ _).mpr ⟨fun _ => ?_, fun _ => ?_⟩
        · refine avoids_bind (iunlockput_avoids ip) (fun _ => ?_) s4
          exact avoids_bind endOp_avoids fun _ => avoids_pure _
        refine calm_then (calm_quiet.modifyInode ip (fun _ => rfl) fun _ => rfl) held4 ?_
        intro _ s5 held5
        refine calm_then (iupdate_quiet calm_quiet ip) held5 fun _ s6 held6 => ?_
        refine served_then (iunlock_avoids ip s6) (iunlock_unlocks ip) fun _ s7 unlocked => ?_
        have room7 : 2 ≤ (skeleton s7).vacancies := by
          rw [unlocked.2, held6, taken]
          change 2 ≤ ((skeleton s1).take ip).vacancies
          omega
        refine served_then (nameiparent_served cwd new room7) (nameiparent_takes cwd new) ?_
        intro got s8 taken8
        cases got with
        | none => exact linkBad_avoids ip s8
        | some found =>
            obtain ⟨dp, name⟩ := found
            change skeleton s8 = (skeleton s7).take dp at taken8
            have fewer8 := (skeleton s7).vacancies_take dp
            have giveUp : Avoids noInodes (do
                iunlockput (W := W) dp
                linkBad ip) := avoids_bind (iunlockput_avoids dp) fun _ => linkBad_avoids ip
            refine served_then (ilock_avoids dp s8) (ilock_locks dp) fun _ s9 locked => ?_
            refine calm_then (inode_quiet calm_quiet dp) locked.2 fun there s10 held10 => ?_
            refine calm_then (inode_quiet calm_quiet ip) held10 fun here s11 held11 => ?_
            refine (outcome_ite _ _ _ _ _ _).mpr ⟨fun _ => giveUp s11, fun _ => ?_⟩
            refine calm_then (inode_quiet calm_quiet ip) held11 fun here s12 held12 => ?_
            have room12 : 1 ≤ (skeleton s12).vacancies := by
              rw [held12, taken8]
              change 1 ≤ ((skeleton s7).take dp).vacancies
              omega
            refine served_then (dirlink_served dp name _ room12) (dirlink_keeps dp name _) ?_
            intro done s13 _
            refine avoids_ite giveUp (avoids_bind (iunlockput_avoids dp) fun _ => ?_) s13
            refine avoids_bind (iput_avoids ip) fun _ => ?_
            exact avoids_bind endOp_avoids fun _ => avoids_pure _
  · trivial

theorem sysUnlink_served (cwd : Slot) (path : Option Path) {s : State W}
    (room : 2 ≤ (skeleton s).vacancies) : Served (sysUnlink cwd path) s := by
  unfold sysUnlink
  cases path with
  | none => trivial
  | some path =>
      refine served_then (beginOp_avoids s) beginOp_opens fun _ s1 opened => ?_
      have room1 : 2 ≤ (skeleton s1).vacancies := by
        rw [opened]
        exact room
      refine served_then (nameiparent_served cwd path room1) (nameiparent_takes cwd path) ?_
      intro got s2 taken
      cases got with
      | none => exact avoids_bind endOp_avoids (fun _ => avoids_pure _) s2
      | some found =>
          obtain ⟨dp, name⟩ := found
          change skeleton s2 = (skeleton s1).take dp at taken
          have fewer := (skeleton s1).vacancies_take dp
          refine served_then (ilock_avoids dp s2) (ilock_locks dp) fun _ s3 locked => ?_
          refine (outcome_ite _ _ _ _ _ _).mpr ⟨fun _ => unlinkBad_avoids dp s3, fun _ => ?_⟩
          have room3 : 1 ≤ (skeleton s3).vacancies := by
            rw [locked.2, taken]
            change 1 ≤ ((skeleton s1).take dp).vacancies
            omega
          refine served_then (dirlookup_served dp name room3) (dirlookup_takes dp name) ?_
          intro got s4 _
          cases got with
          | none => exact unlinkBad_avoids dp s4
          | some found => exact unlinkEntry_avoids dp found.1 found.2 s4

theorem sysMake_served (cwd : Slot) (path : Option Path) (type major minor : Int16)
    {s : State W} (room : 3 ≤ (skeleton s).vacancies) :
    Served (sysMake cwd path type major minor) s := by
  unfold sysMake
  refine served_then (beginOp_avoids s) beginOp_opens fun _ s1 opened => ?_
  cases path with
  | none => exact avoids_bind endOp_avoids (fun _ => avoids_pure _) s1
  | some path =>
      have room1 : 3 ≤ (skeleton s1).vacancies := by
        rw [opened]
        exact room
      refine served_then (create_served cwd path type major minor room1)
        (create_creates cwd path type major minor) fun got s2 _ => ?_
      cases got with
      | none => exact avoids_bind endOp_avoids (fun _ => avoids_pure _) s2
      | some ip =>
          refine avoids_bind (iunlockput_avoids ip) (fun _ => ?_) s2
          exact avoids_bind endOp_avoids fun _ => avoids_pure _

theorem sysChdir_served (cwd : Slot) (path : Option Path) {s : State W}
    (room : 2 ≤ (skeleton s).vacancies) : Served (sysChdir cwd path) s := by
  unfold sysChdir
  refine served_then (beginOp_avoids s) beginOp_opens fun _ s1 opened => ?_
  cases path with
  | none => exact avoids_bind endOp_avoids (fun _ => avoids_pure _) s1
  | some path =>
      have room1 : 2 ≤ (skeleton s1).vacancies := by
        rw [opened]
        exact room
      refine served_then (namei_served cwd path room1) (namei_takes cwd path) fun got s2 _ => ?_
      cases got with
      | none => exact avoids_bind endOp_avoids (fun _ => avoids_pure _) s2
      | some ip =>
          refine avoids_bind (ilock_avoids ip) (fun _ => ?_) s2
          refine avoids_bind (inode_avoids ip) fun node => avoids_ite ?_ ?_
          · refine avoids_bind (iunlockput_avoids ip) fun _ => ?_
            exact avoids_bind endOp_avoids fun _ => avoids_pure _
          · refine avoids_bind (iunlock_avoids ip) fun _ => ?_
            refine avoids_bind (iput_avoids cwd) fun _ => ?_
            exact avoids_bind endOp_avoids fun _ => avoids_pure _

end Calls

end PaddleOs.Fs
