import PaddleOs.FsQuiet
import Mathlib.Logic.Function.Basic

/-!
What the file-system functions do to reference counts, inode locks and open log
operations, whatever the blocks contain. A skeleton is these three; each function
either leaves it alone or changes it in the one way its specification says, on every
path on which it returns. The specifications hold over any block layer that counts
its open operations.
-/

namespace PaddleOs.Fs

open Foundation.Outcome Foundation.View

/-- A block layer whose open operations `begin_op` and `end_op` count. -/
class CountingLayer (W : Type) [BlockLayer W] where
  outstanding : W → Int
  bread_keeps : ∀ dev blockno, Keeps outstanding (BlockLayer.bread (W := W) dev blockno)
  setData_keeps : ∀ (bp : BlockLayer.Handle W) data, Keeps outstanding (BlockLayer.setData bp data)
  logWrite_keeps : ∀ bp : BlockLayer.Handle W, Keeps outstanding (BlockLayer.logWrite bp)
  brelse_keeps : ∀ bp : BlockLayer.Handle W, Keeps outstanding (BlockLayer.brelse bp)
  beginOp_opens : Follows outstanding (BlockLayer.beginOp (W := W))
    fun before _ after => after = before + 1
  endOp_closes : Follows outstanding (BlockLayer.endOp (W := W))
    fun before _ after => after = before - 1

section Layers

def Store.outstanding (s : Store) : Int := s.log.outstanding

theorem storeBread_keeps (dev blockno : Nat) :
    Keeps Store.outstanding (PaddleOs.bread dev blockno) := by
  intro s
  refine outcome_mono (bread_outcome dev blockno s) ?_ fun _ _ _ => trivial
  intro b after fetched
  cases fetched <;> rfl

theorem storeSetData_keeps (b : Fin NBUF) (data : Block) :
    Keeps Store.outstanding (PaddleOs.setData b data) := keeps_modify fun _ => rfl

theorem bwrite_keeps (b : Fin NBUF) : Keeps Store.outstanding (bwrite b) := by
  intro s
  refine outcome_mono (bwrite_outcome b s) ?_ fun _ _ _ => trivial
  rintro _ after rfl
  rfl

theorem storeBrelse_keeps (b : Fin NBUF) : Keeps Store.outstanding (PaddleOs.brelse b) := by
  intro s
  refine outcome_mono (brelse_outcome b s) ?_ fun _ _ _ => trivial
  rintro _ after rfl
  simp [Store.outstanding]

theorem bunpin_keeps (b : Fin NBUF) : Keeps Store.outstanding (bunpin b) :=
  keeps_modify fun _ => rfl

theorem bpin_keeps (b : Fin NBUF) : Keeps Store.outstanding (bpin b) :=
  keeps_modify fun _ => rfl

theorem writeLogStep_keeps (tail : Nat) : Keeps Store.outstanding (writeLogStep tail) := by
  unfold writeLogStep
  refine keeps_bind keeps_get fun s => keeps_bind (storeBread_keeps _ _) fun target => ?_
  refine keeps_bind (storeBread_keeps _ _) fun source => keeps_bind keeps_get fun s' => ?_
  refine keeps_bind (storeSetData_keeps _ _) fun _ => keeps_bind (bwrite_keeps _) fun _ => ?_
  exact keeps_bind (storeBrelse_keeps _) fun _ => storeBrelse_keeps _

theorem installTransStep_keeps (recovering : Bool) (tail : Nat) :
    Keeps Store.outstanding (installTransStep recovering tail) := by
  have finish : ∀ lbuf dbuf, Keeps Store.outstanding (do
      PaddleOs.brelse lbuf
      PaddleOs.brelse dbuf) := fun lbuf dbuf =>
    keeps_bind (storeBrelse_keeps lbuf) fun _ => storeBrelse_keeps dbuf
  unfold installTransStep
  refine keeps_bind keeps_get fun s => keeps_bind (storeBread_keeps _ _) fun lbuf => ?_
  refine keeps_bind (storeBread_keeps _ _) fun dbuf => keeps_bind keeps_get fun s' => ?_
  refine keeps_bind (storeSetData_keeps _ _) fun _ => keeps_bind (bwrite_keeps _) fun _ => ?_
  exact keeps_ite (keeps_bind (bunpin_keeps dbuf) fun _ => finish lbuf dbuf) (finish lbuf dbuf)

theorem writeHead_keeps : Keeps Store.outstanding writeHead := by
  unfold writeHead
  refine keeps_bind keeps_get fun s => keeps_bind (storeBread_keeps _ _) fun b => ?_
  refine keeps_bind keeps_get fun s' => keeps_bind (storeSetData_keeps _ _) fun _ => ?_
  exact keeps_bind (bwrite_keeps _) fun _ => storeBrelse_keeps _

theorem commit_keeps : Keeps Store.outstanding commit := by
  have writeLog_keeps : Keeps Store.outstanding writeLog :=
    keeps_bind keeps_get fun _ => keeps_loop writeLogStep_keeps _ _
  have installTrans_keeps : Keeps Store.outstanding (installTrans false) :=
    keeps_bind keeps_get fun _ => keeps_loop (installTransStep_keeps false) _ _
  have clearHeader_keeps : Keeps Store.outstanding clearHeader := keeps_modify fun _ => rfl
  unfold commit
  refine keeps_bind keeps_get fun s => keeps_ite ?_ (keeps_pure _)
  refine keeps_bind writeLog_keeps fun _ => keeps_bind writeHead_keeps fun _ => ?_
  refine keeps_bind installTrans_keeps fun _ => ?_
  exact keeps_bind clearHeader_keeps fun _ => writeHead_keeps

theorem Log.record_outstanding {log log' : Log} {blockno : Nat} {pin : Bool}
    (recorded : log.record blockno = .ok (log', pin)) : log'.outstanding = log.outstanding := by
  unfold Log.record at recorded
  split at recorded
  · cases recorded
  split at recorded
  · cases recorded
  dsimp only at recorded
  split at recorded <;> cases recorded <;> rfl

theorem storeLogWrite_keeps (b : Fin NBUF) : Keeps Store.outstanding (PaddleOs.logWrite b) := by
  intro s
  unfold PaddleOs.logWrite
  rw [outcome_bind, outcome_get]
  cases recorded : s.log.record (s.buf b).blockno with
  | error stop => trivial
  | ok result =>
      obtain ⟨log, pin⟩ := result
      have same := Log.record_outstanding recorded
      cases pin <;> exact same

theorem Log.finish_outstanding {log log' : Log} {doCommit : Bool}
    (finished : log.finish = .ok (log', doCommit)) :
    log'.outstanding = log.outstanding - 1 := by
  unfold Log.finish at finished
  dsimp only at finished
  split at finished
  · cases finished
  split at finished <;> cases finished <;> rfl

theorem storeEndOp_closes : Follows Store.outstanding PaddleOs.endOp
    fun before _ after => after = before - 1 := by
  intro s
  unfold PaddleOs.endOp
  rw [outcome_bind, outcome_get]
  cases finished : s.log.finish with
  | error stop => trivial
  | ok result =>
      obtain ⟨log, doCommit⟩ := result
      have fewer := Log.finish_outstanding finished
      cases doCommit with
      | false => exact fewer
      | true =>
          rw [outcome_bind, outcome_set]
          refine commit_keeps.step fun _ after same => ?_
          exact same.trans fewer

instance : CountingLayer Store where
  outstanding := Store.outstanding
  bread_keeps := storeBread_keeps
  setData_keeps := storeSetData_keeps
  logWrite_keeps := storeLogWrite_keeps
  brelse_keeps := storeBrelse_keeps
  beginOp_opens := by
    intro s
    change outcome PaddleOs.beginOp _ _ s
    unfold PaddleOs.beginOp
    rw [outcome_bind, outcome_get]
    split
    · rfl
    · trivial
  endOp_closes := storeEndOp_closes

instance : CountingLayer Image where
  outstanding := Image.outstanding
  bread_keeps _ _ := keeps_pure _
  setData_keeps _ _ := keeps_modify fun _ => rfl
  logWrite_keeps _ := keeps_pure _
  brelse_keeps _ := keeps_pure _
  beginOp_opens := fun _ => rfl
  endOp_closes := fun _ => rfl

end Layers

@[ext]
structure Skeleton where
  ref : Slot → Int
  locked : Slot → Bool
  outstanding : Int

namespace Skeleton

def take (sk : Skeleton) (k : Slot) : Skeleton :=
  { sk with ref := Function.update sk.ref k (sk.ref k + 1) }

def drop (sk : Skeleton) (k : Slot) : Skeleton :=
  { sk with ref := Function.update sk.ref k (sk.ref k - 1) }

def lock (sk : Skeleton) (k : Slot) : Skeleton :=
  { sk with locked := Function.update sk.locked k true }

def unlock (sk : Skeleton) (k : Slot) : Skeleton :=
  { sk with locked := Function.update sk.locked k false }

def opened (sk : Skeleton) : Skeleton := { sk with outstanding := sk.outstanding + 1 }

def closed (sk : Skeleton) : Skeleton := { sk with outstanding := sk.outstanding - 1 }

variable (sk : Skeleton) (j k : Slot)

@[simp]
theorem drop_take : (sk.take k).drop k = sk := by
  simp [take, drop]

@[simp]
theorem take_drop : (sk.drop k).take k = sk := by
  simp [take, drop]

/-- A reference and the lock. -/
def hold (sk : Skeleton) (k : Slot) : Skeleton := (sk.take k).lock k

@[simp]
theorem closed_opened : sk.opened.closed = sk := by
  simp [opened, closed]

theorem take_drop_comm : (sk.take j).drop k = (sk.drop k).take j := by
  ext i
  · simp only [take, drop, Function.update_apply]
    split <;> split <;> simp_all
  · rfl
  · rfl

theorem unlock_lock (free : sk.locked k = false) : (sk.lock k).unlock k = sk := by
  ext i
  · rfl
  · simp only [lock, unlock, Function.update_apply]
    split <;> simp_all
  · rfl

@[simp]
theorem take_locked : (sk.take k).locked = sk.locked := rfl

@[simp]
theorem drop_locked : (sk.drop k).locked = sk.locked := rfl

@[simp]
theorem lock_same : (sk.lock k).locked k = true := Function.update_self ..

@[simp]
theorem unlock_same : (sk.unlock k).locked k = false := Function.update_self ..

theorem lock_other (apart : j ≠ k) : (sk.lock k).locked j = sk.locked j :=
  Function.update_of_ne apart ..

theorem unlock_other (apart : j ≠ k) : (sk.unlock k).locked j = sk.locked j :=
  Function.update_of_ne apart ..

theorem lock_take : (sk.take j).lock k = (sk.lock k).take j := rfl

theorem unlock_take : (sk.take j).unlock k = (sk.unlock k).take j := rfl

theorem unlock_drop : (sk.drop j).unlock k = (sk.unlock k).drop j := rfl

@[simp]
theorem hold_same : (sk.hold k).locked k = true := lock_same ..

theorem hold_other (apart : j ≠ k) : (sk.hold k).locked j = sk.locked j :=
  lock_other _ _ _ apart

theorem release_hold (free : sk.locked k = false) : ((sk.hold k).unlock k).drop k = sk := by
  rw [hold, unlock_lock (sk.take k) k free, drop_take]

theorem hold_take : (sk.hold k).take j = (sk.take j).hold k := by
  ext i
  · simp only [hold, take, lock, Function.update_apply]
    split <;> split <;> simp_all
  · rfl
  · rfl

theorem hold_comm (apart : j ≠ k) : (sk.hold k).hold j = (sk.hold j).hold k := by
  ext i
  · simp only [hold, take, lock, Function.update_apply]
    split <;> split <;> simp_all
  · simp only [hold, take, lock, Function.update_apply]
    split <;> split <;> simp_all
  · rfl

theorem opened_take : (sk.take k).opened = sk.opened.take k := rfl

theorem closed_take : (sk.take k).closed = sk.closed.take k := rfl

theorem closed_drop : (sk.drop k).closed = sk.closed.drop k := rfl

theorem closed_lock : (sk.lock k).closed = sk.closed.lock k := rfl

theorem closed_unlock : (sk.unlock k).closed = sk.closed.unlock k := rfl

end Skeleton

variable {W : Type} [BlockLayer W] [CountingLayer W]

def skeleton (s : State W) : Skeleton where
  ref k := (s.inode k).ref
  locked k := (s.inode k).locked
  outstanding := CountingLayer.outstanding s.store

section Blocks

theorem onStore_keeps {α : Type} {run : EStateM Stop W α}
    (keeps : Keeps CountingLayer.outstanding run) : Keeps skeleton (onStore run) := by
  refine follows_zoom keeps ?_
  intro state value after same
  ext
  · rfl
  · rfl
  · exact same

theorem get_keeps : Keeps skeleton (get : FsM W (State W)) := keeps_get

theorem bread_keeps (dev blockno : Nat) : Keeps skeleton (bread (W := W) dev blockno) :=
  onStore_keeps (CountingLayer.bread_keeps dev blockno)

theorem data_keeps (bp : BlockLayer.Handle W) : Keeps skeleton (data bp) :=
  keeps_bind get_keeps fun _ => keeps_pure _

theorem setData_keeps (bp : BlockLayer.Handle W) (data : Block) :
    Keeps skeleton (setData bp data) := onStore_keeps (CountingLayer.setData_keeps bp data)

theorem logWrite_keeps (bp : BlockLayer.Handle W) : Keeps skeleton (logWrite bp) :=
  onStore_keeps (CountingLayer.logWrite_keeps bp)

theorem brelse_keeps (bp : BlockLayer.Handle W) : Keeps skeleton (brelse bp) :=
  onStore_keeps (CountingLayer.brelse_keeps bp)

theorem inode_keeps (k : Slot) : Keeps skeleton (inode (W := W) k) :=
  keeps_bind get_keeps fun _ => keeps_pure _

/-- A store into an inode that leaves its count and its lock alone. -/
theorem modifyInode_keeps (k : Slot) {change : Inode → Inode}
    (ref : ∀ ip, (change ip).ref = ip.ref) (locked : ∀ ip, (change ip).locked = ip.locked) :
    Keeps skeleton (modifyInode (W := W) k change) := by
  refine keeps_modify fun s => ?_
  ext j
  · simp only [skeleton, State.setInode, Function.update_apply]
    split
    · rename_i same
      rw [ref, same]
    · rfl
  · simp only [skeleton, State.setInode, Function.update_apply]
    split
    · rename_i same
      rw [locked, same]
    · rfl
  · rfl

theorem skeleton_quiet : Quiet fun ⦃α : Type⦄ (run : FsM W α) => Keeps skeleton run where
  toClosed := closed_keeps skeleton
  stop _ := keeps_throw _
  bread := bread_keeps
  setData := setData_keeps
  logWrite := logWrite_keeps
  brelse := brelse_keeps
  modifyInode := modifyInode_keeps

theorem iupdate_keeps (k : Slot) : Keeps skeleton (iupdate (W := W) k) :=
  iupdate_quiet skeleton_quiet k

theorem itrunc_keeps (k : Slot) : Keeps skeleton (itrunc (W := W) k) :=
  itrunc_quiet skeleton_quiet k

theorem readi_keeps (k : Slot) (accepts : Nat → Nat → Bool) (off n : Nat) :
    Keeps skeleton (readi (W := W) k accepts off n) :=
  readi_quiet skeleton_quiet k accepts off n

theorem writei_keeps (k : Slot) (source : Nat → Nat → List UInt8 × Bool) (off n : Nat) :
    Keeps skeleton (writei (W := W) k source off n) :=
  writei_quiet skeleton_quiet k source off n

end Blocks

section Inodes

theorem beginOp_opens : Follows skeleton (beginOp (W := W))
    fun before _ after => after = before.opened := by
  refine follows_zoom CountingLayer.beginOp_opens ?_
  intro state value after counted
  ext
  · rfl
  · rfl
  · exact counted

theorem endOp_closes : Follows skeleton (endOp (W := W))
    fun before _ after => after = before.closed := by
  refine follows_zoom CountingLayer.endOp_closes ?_
  intro state value after counted
  ext
  · rfl
  · rfl
  · exact counted

theorem skeleton_modifyInode (s : State W) (k : Slot) (ip : Inode) :
    skeleton (s.setInode k ip) =
      { skeleton s with ref := Function.update (skeleton s).ref k ip.ref
                        locked := Function.update (skeleton s).locked k ip.locked } := by
  ext j
  · simp only [skeleton, State.setInode, Function.update_apply]
    split <;> rfl
  · simp only [skeleton, State.setInode, Function.update_apply]
    split <;> rfl
  · rfl

theorem idup_takes (k : Slot) : Follows skeleton (idup (W := W) k)
    fun before got after => got = k ∧ after = before.take k := by
  intro s
  refine ⟨rfl, ?_⟩
  rw [skeleton_modifyInode]
  ext j
  · rfl
  · simp [skeleton, Skeleton.take]
  · rfl

theorem iget_takes (dev inum : Nat) : Follows skeleton (iget (W := W) dev inum)
    fun before k after => after = before.take k := by
  intro s
  unfold iget
  rw [outcome_bind, outcome_get]
  cases s.cached dev inum with
  | some k => exact ((idup_takes k) s).2
  | none =>
      cases room : s.empty with
      | none => trivial
      | some k =>
          have zero : (s.inode k).ref = 0 := by
            simpa using List.find?_some (p := fun k => decide ((s.inode k).ref = 0)) room
          change skeleton (s.setInode k _) = _
          rw [skeleton_modifyInode]
          ext j
          · simp [skeleton, Skeleton.take, zero]
          · simp [skeleton, Skeleton.take]
          · rfl

theorem iallocFrom_takes (dev : Nat) (type : Int16) (inum count : Nat) :
    Follows skeleton (iallocFrom (W := W) dev type inum count)
      fun before got after => after = got.elim before before.take := by
  induction count generalizing inum with
  | zero => exact fun _ => rfl
  | succ count ih =>
      unfold iallocFrom
      refine get_keeps.before fun s => (bread_keeps dev _).before fun bp => ?_
      refine (data_keeps bp).before fun data => follows_ite ?_ ?_
      · refine (setData_keeps bp _).before fun _ => (logWrite_keeps bp).before fun _ => ?_
        refine (brelse_keeps bp).before fun _ => ?_
        intro s
        exact (iget_takes dev inum).step fun k _ taken => taken
      · exact (brelse_keeps bp).before fun _ => ih (inum + 1)

theorem ialloc_takes (dev : Nat) (type : Int16) : Follows skeleton (ialloc (W := W) dev type)
    fun before got after => after = got.elim before before.take :=
  get_keeps.before fun _ => iallocFrom_takes dev type 1 _

theorem acquiresleep_locks (k : Slot) : Follows skeleton (acquiresleep (W := W) k)
    fun before _ after => before.locked k = false ∧ after = before.lock k := by
  intro s
  unfold acquiresleep
  simp only [inode, bind_assoc, pure_bind, outcome_bind, outcome_get]
  by_cases held : (s.inode k).locked = true
  · rw [if_pos held]
    trivial
  · rw [if_neg held]
    refine ⟨by simpa [skeleton] using held, ?_⟩
    change skeleton (s.setInode k _) = _
    rw [skeleton_modifyInode]
    ext j
    · simp [skeleton, Skeleton.lock]
    · rfl
    · rfl

theorem releasesleep_unlocks (k : Slot) : Follows skeleton (releasesleep (W := W) k)
    fun before _ after => after = before.unlock k := by
  intro s
  change skeleton (s.setInode k _) = _
  rw [skeleton_modifyInode]
  ext j
  · simp [skeleton, Skeleton.unlock]
  · rfl
  · rfl

theorem ilock_locks (k : Slot) : Follows skeleton (ilock (W := W) k)
    fun before _ after => before.locked k = false ∧ after = before.lock k := by
  unfold ilock
  refine (inode_keeps k).before fun ip => follows_ite follows_throw ?_
  refine (acquiresleep_locks k).andKeeps fun _ => keeps_bind (inode_keeps k) fun ip => ?_
  refine keeps_ite ?_ (keeps_pure _)
  refine keeps_bind get_keeps fun s => keeps_bind (bread_keeps _ _) fun bp => ?_
  refine keeps_bind (data_keeps bp) fun data => ?_
  refine keeps_bind (modifyInode_keeps k (fun _ => rfl) fun _ => rfl) fun _ => ?_
  refine keeps_bind (brelse_keeps bp) fun _ => ?_
  refine keeps_bind (modifyInode_keeps k (fun _ => rfl) fun _ => rfl) fun _ => ?_
  exact keeps_ite (keeps_throw _) (keeps_pure _)

theorem iunlock_unlocks (k : Slot) : Follows skeleton (iunlock (W := W) k)
    fun before _ after => before.locked k = true ∧ after = before.unlock k := by
  intro s
  unfold iunlock
  simp only [inode, bind_assoc, pure_bind, outcome_bind, outcome_get]
  by_cases wrong : (!(s.inode k).locked) = true ∨ (s.inode k).ref < 1
  · rw [if_pos wrong]
    trivial
  · rw [if_neg wrong]
    refine (releasesleep_unlocks k).last fun _ _ unlocked => ⟨?_, unlocked⟩
    rw [not_or] at wrong
    simpa [skeleton] using wrong.1

theorem ref_drops (k : Slot) : Follows skeleton
    (modifyInode (W := W) k fun ip => { ip with ref := ip.ref - 1 })
    fun before _ after => after = before.drop k := by
  intro s
  change skeleton (s.setInode k _) = _
  rw [skeleton_modifyInode]
  ext j
  · rfl
  · simp [skeleton, Skeleton.drop]
  · rfl

/-- The stretch of `iput` between its two lock operations. -/
theorem free_keeps (k : Slot) : Keeps skeleton (do
    itrunc (W := W) k
    modifyInode k fun ip => { ip with type := 0 }
    iupdate k
    modifyInode k fun ip => { ip with valid := false }) := by
  refine keeps_bind (itrunc_keeps k) fun _ => ?_
  refine keeps_bind (modifyInode_keeps k (fun _ => rfl) fun _ => rfl) fun _ => ?_
  exact keeps_bind (iupdate_keeps k) fun _ => modifyInode_keeps k (fun _ => rfl) fun _ => rfl

theorem iput_drops (k : Slot) : Follows skeleton (iput (W := W) k)
    fun before _ after => after = before.drop k := by
  unfold iput
  refine (inode_keeps k).before fun ip => follows_ite ?_ (ref_drops k)
  intro s
  refine (acquiresleep_locks k).step fun _ s1 locked => ?_
  have freed := free_keeps (W := W) k
  simp only [← bind_assoc] at freed ⊢
  rw [bind_assoc]
  refine freed.step fun _ s2 same => ?_
  refine (releasesleep_unlocks k).step fun _ s3 unlocked => ?_
  refine (ref_drops k).last fun _ _ dropped => ?_
  rw [dropped, unlocked, same, locked.2, Skeleton.unlock_lock _ _ locked.1]

theorem iunlockput_drops (k : Slot) : Follows skeleton (iunlockput (W := W) k)
    fun before _ after => before.locked k = true ∧ after = (before.unlock k).drop k := by
  intro s
  refine (iunlock_unlocks k).step fun _ _ unlocked => ?_
  refine (iput_drops k).last fun _ _ dropped => ⟨unlocked.1, ?_⟩
  rw [dropped, unlocked.2]

end Inodes

section Directories

theorem readDirent_keeps (dp : Slot) (off : Nat) (panic : Stop) :
    Keeps skeleton (readDirent (W := W) dp off panic) := by
  unfold readDirent
  refine keeps_bind (readi_keeps dp _ _ _) fun read => ?_
  exact keeps_ite (keeps_throw _) (keeps_pure _)

theorem dirlookupFrom_takes (dp : Slot) (name : Name) (fuel off : Nat) :
    Follows skeleton (dirlookupFrom (W := W) dp name fuel off)
      fun before got after => after = got.elim before fun found => before.take found.1 := by
  induction fuel generalizing off with
  | zero => exact fun _ => rfl
  | succ fuel ih =>
      unfold dirlookupFrom
      refine (inode_keeps dp).before fun ip => follows_ite ?_ (fun _ => rfl)
      refine (readDirent_keeps dp off _).before fun de => follows_ite ?_ (ih _)
      refine (inode_keeps dp).before fun ip => ?_
      intro s
      exact (iget_takes _ _).step fun k _ taken => taken

theorem dirlookup_takes (dp : Slot) (name : Name) : Follows skeleton (dirlookup (W := W) dp name)
    fun before got after => after = got.elim before fun found => before.take found.1 := by
  unfold dirlookup
  refine (inode_keeps dp).before fun ip => follows_ite follows_throw ?_
  exact dirlookupFrom_takes dp name _ _

theorem emptyFrom_keeps (dp : Slot) (fuel off : Nat) :
    Keeps skeleton (emptyFrom (W := W) dp fuel off) :=
  emptyFrom_quiet skeleton_quiet dp fuel off

theorem dirlink_keeps (dp : Slot) (name : Name) (inum : Nat) :
    Keeps skeleton (dirlink (W := W) dp name inum) := by
  intro s
  unfold dirlink
  refine (dirlookup_takes dp name).step fun got s1 taken => ?_
  cases got with
  | some found =>
      refine (iput_drops found.1).step fun _ s2 dropped => ?_
      change skeleton s2 = skeleton s
      rw [dropped, taken]
      exact Skeleton.drop_take _ _
  | none =>
      change skeleton s1 = skeleton s at taken
      rw [← taken]
      refine (keeps_bind (inode_keeps dp) fun ip => ?_ : Keeps skeleton _) s1
      refine keeps_bind (emptyFrom_keeps dp _ _) fun off => ?_
      exact keeps_bind (writei_keeps dp _ _ _) fun r => keeps_pure _

/-- The walk gives the reference it holds away on failure, and passes it on else. -/
theorem namexFrom_takes (parent : Bool) (fuel : Nat) (ip : Slot) (path : Path) (last : Name) :
    Follows skeleton (namexFrom (W := W) parent fuel ip path last)
      fun before got after =>
        after = got.elim (before.drop ip) fun found => (before.drop ip).take found.1 := by
  induction fuel generalizing ip path last with
  | zero =>
      intro s
      exact (Skeleton.take_drop _ _).symm
  | succ fuel ih =>
      unfold namexFrom
      cases skipelem path with
      | none =>
          refine follows_ite ?_ fun s => (Skeleton.take_drop _ _).symm
          intro s
          exact (iput_drops ip).step fun _ _ dropped => dropped
      | some split =>
          obtain ⟨name, rest⟩ := split
          intro s
          refine (ilock_locks ip).step fun _ s1 locked => ?_
          have release : ∀ s2 : State W, skeleton s2 = skeleton s1 →
              outcome (iunlockput ip >>= fun _ => pure (none : Option (Slot × Name)))
                (fun got after => skeleton after = got.elim ((skeleton s).drop ip)
                  fun found => ((skeleton s).drop ip).take found.1)
                (fun _ _ => True) s2 := by
            intro s2 same
            refine (iunlockput_drops ip).step fun _ s3 dropped => ?_
            change skeleton s3 = (skeleton s).drop ip
            rw [dropped.2, same, locked.2, Skeleton.unlock_lock _ _ locked.1]
          refine (inode_keeps ip).step fun node s2 same => ?_
          split
          · exact release s2 same
          split
          · refine (iunlock_unlocks ip).step fun _ s4 unlocked => ?_
            change skeleton s4 = _
            rw [unlocked.2, same, locked.2, Skeleton.unlock_lock _ _ locked.1]
            exact (Skeleton.take_drop _ _).symm
          refine (dirlookup_takes ip name).step fun got s5 taken => ?_
          cases got with
          | none => exact release s5 (taken.trans same)
          | some found =>
              refine (iunlockput_drops ip).step fun _ s6 dropped => ?_
              refine (ih found.1 rest name).last fun got s7 walked => ?_
              have arrived : skeleton s6 = ((skeleton s).drop ip).take found.1 := by
                change skeleton s5 = (skeleton s2).take found.1 at taken
                rw [dropped.2, taken, same, locked.2, Skeleton.unlock_take, Skeleton.take_drop_comm,
                  Skeleton.unlock_lock _ _ locked.1]
              rw [walked, arrived, Skeleton.drop_take]

theorem namex_takes (cwd : Slot) (path : Path) (parent : Bool) :
    Follows skeleton (namex (W := W) cwd path parent)
      fun before got after => after = got.elim before fun found => before.take found.1 := by
  have walk : ∀ start : FsM W Slot,
      (Follows skeleton start fun before ip after => after = before.take ip) →
      Follows skeleton (start >>= fun ip => namexFrom parent (path.length + 1) ip path [])
        fun before got after => after = got.elim before fun found => before.take found.1 := by
    intro start taking s
    refine taking.step fun ip s1 taken => ?_
    refine (namexFrom_takes parent _ ip path []).last fun got s2 walked => ?_
    rw [walked, taken, Skeleton.drop_take]
  unfold namex
  refine follows_ite (walk _ (iget_takes _ _)) (walk _ ((idup_takes cwd).mono ?_))
  intro before got after taken
  rw [taken.1, taken.2]

theorem namei_takes (cwd : Slot) (path : Path) : Follows skeleton (namei (W := W) cwd path)
    fun before got after => after = got.elim before before.take := by
  intro s
  refine (namex_takes cwd path false).step fun got s1 walked => ?_
  cases got with
  | none => exact walked
  | some found => exact walked

theorem nameiparent_takes (cwd : Slot) (path : Path) :
    Follows skeleton (nameiparent (W := W) cwd path)
      fun before got after => after = got.elim before fun found => before.take found.1 :=
  namex_takes cwd path true

/-- A reference and a lock given back together. -/
theorem iunlockput_releases {α : Type} {k : Slot} {origin : Skeleton} {s : State W}
    {next : FsM W α} {post : α → State W → Prop} (held : skeleton s = origin.hold k)
    (free : origin.locked k = false)
    (rest : ∀ s', skeleton s' = origin → outcome next post (fun _ _ => True) s') :
    outcome (iunlockput k >>= fun _ => next) post (fun _ _ => True) s := by
  refine (iunlockput_drops k).step fun _ s' dropped => rest s' ?_
  rw [dropped.2, held, Skeleton.release_hold _ _ free]

/-- A computation that leaves the skeleton alone, in front of one that starts from it. -/
theorem keeps_then {α β : Type} {origin : Skeleton} {s : State W} {run : FsM W α}
    {next : α → FsM W β} {post : β → State W → Prop} (keeps : Keeps skeleton run)
    (at_origin : skeleton s = origin)
    (rest : ∀ value s', skeleton s' = origin → outcome (next value) post (fun _ _ => True) s') :
    outcome (run >>= next) post (fun _ _ => True) s :=
  keeps.step fun value s' same => rest value s' (same.trans at_origin)

/-- The end of an operation that has given everything else back. -/
theorem endOp_returns {α : Type} {origin : Skeleton} {s : State W} {next : FsM W α}
    {post : α → State W → Prop} (held : skeleton s = origin.opened)
    (rest : ∀ s', skeleton s' = origin → outcome next post (fun _ _ => True) s') :
    outcome (endOp >>= fun _ => next) post (fun _ _ => True) s := by
  refine endOp_closes.step fun _ s' closed => rest s' ?_
  rw [closed, held, Skeleton.closed_opened]

theorem createFail_releases (dp ip : Slot) {origin : Skeleton} {s : State W}
    (held : skeleton s = (origin.hold dp).hold ip) (freeDp : origin.locked dp = false)
    (freeIp : (origin.hold dp).locked ip = false) :
    outcome (createFail dp ip) (fun got after => got = none ∧ skeleton after = origin)
      (fun _ _ => True) s := by
  unfold createFail
  refine keeps_then (modifyInode_keeps ip (fun _ => rfl) fun _ => rfl) held fun _ s1 held1 => ?_
  refine keeps_then (iupdate_keeps ip) held1 fun _ s2 held2 => ?_
  refine iunlockput_releases held2 freeIp fun s3 held3 => ?_
  exact iunlockput_releases held3 freeDp fun s4 held4 => ⟨rfl, held4⟩

/-- What `create` leaves: nothing held on failure, the new inode held and locked else. -/
def Created (origin : Skeleton) (got : Option Slot) (after : Skeleton) : Prop :=
  match got with
  | none => after = origin
  | some ip => origin.locked ip = false ∧ after = origin.hold ip

theorem createNew_creates (dp ip : Slot) (name : Name) (type major minor : Int16)
    {origin : Skeleton} {s : State W} (held : skeleton s = (origin.hold dp).take ip)
    (freeDp : origin.locked dp = false) :
    outcome (createNew dp ip name type major minor)
      (fun got after => Created origin got (skeleton after)) (fun _ _ => True) s := by
  unfold createNew
  refine (ilock_locks ip).step fun _ s1 locked => ?_
  have freeIp : (origin.hold dp).locked ip = false := by
    rw [held] at locked
    exact locked.1
  have apart : ip ≠ dp := by
    intro same
    rw [same] at freeIp
    simp at freeIp
  have held1 : skeleton s1 = (origin.hold dp).hold ip := by
    rw [locked.2, held]
    rfl
  have fail : ∀ s' : State W, skeleton s' = (origin.hold dp).hold ip →
      outcome (createFail dp ip) (fun got after => Created origin got (skeleton after))
        (fun _ _ => True) s' := by
    intro s' held'
    refine outcome_post (createFail_releases dp ip held' freeDp freeIp) ?_
    rintro got after ⟨rfl, same⟩
    exact same
  have finish : ∀ s' : State W, skeleton s' = (origin.hold dp).hold ip →
      outcome (iunlockput dp >>= fun _ => pure (some ip))
        (fun got after => Created origin got (skeleton after)) (fun _ _ => True) s' := by
    intro s' held'
    have freeIp0 : origin.locked ip = false := by
      rwa [Skeleton.hold_other _ _ _ apart] at freeIp
    rw [Skeleton.hold_comm _ _ _ apart] at held'
    refine iunlockput_releases held' ?_ fun s'' held'' => ⟨freeIp0, held''⟩
    rwa [Skeleton.hold_other _ _ _ apart.symm]
  have entry : ∀ s' : State W, skeleton s' = (origin.hold dp).hold ip →
      outcome (do
        if !(← dirlink dp name (← inode ip).inum) then return ← createFail dp ip
        if type = T_DIR then
          modifyInode dp fun dp => { dp with nlink := dp.nlink + 1 }
          iupdate dp
        iunlockput dp
        return some ip) (fun got after => Created origin got (skeleton after))
        (fun _ _ => True) s' := by
    intro s2 held2
    refine keeps_then (inode_keeps ip) held2 fun node s3 held3 => ?_
    refine keeps_then (dirlink_keeps dp name _) held3 fun done s4 held4 => ?_
    split
    · exact fail s4 held4
    split
    · refine keeps_then (modifyInode_keeps dp (fun _ => rfl) fun _ => rfl) held4 ?_
      intro _ s5 held5
      exact keeps_then (iupdate_keeps dp) held5 fun _ s6 held6 => finish s6 held6
    · exact finish s4 held4
  refine keeps_then (modifyInode_keeps ip (fun _ => rfl) fun _ => rfl) held1 fun _ s2 held2 => ?_
  refine keeps_then (iupdate_keeps ip) held2 fun _ s3 held3 => ?_
  refine (outcome_ite _ _ _ _ _ _).mpr ⟨fun _ => ?_, fun _ => entry s3 held3⟩
  refine keeps_then (inode_keeps ip) held3 fun node s4 held4 => ?_
  refine keeps_then (dirlink_keeps ip dot _) held4 fun done s5 held5 => ?_
  refine (outcome_ite _ _ _ _ _ _).mpr ⟨fun _ => fail s5 held5, fun _ => ?_⟩
  refine keeps_then (inode_keeps dp) held5 fun node s6 held6 => ?_
  refine keeps_then (dirlink_keeps ip dotdot _) held6 fun done s7 held7 => ?_
  exact (outcome_ite _ _ _ _ _ _).mpr ⟨fun _ => fail s7 held7, fun _ => entry s7 held7⟩

theorem create_creates (cwd : Slot) (path : Path) (type major minor : Int16) :
    Follows skeleton (create (W := W) cwd path type major minor) Created := by
  intro s
  unfold create
  refine (nameiparent_takes cwd path).step fun got s1 taken => ?_
  cases got with
  | none => exact taken
  | some found =>
      obtain ⟨dp, name⟩ := found
      refine (ilock_locks dp).step fun _ s2 locked => ?_
      change skeleton s1 = (skeleton s).take dp at taken
      rw [taken] at locked
      have freeDp : (skeleton s).locked dp = false := locked.1
      have held2 : skeleton s2 = (skeleton s).hold dp := locked.2
      refine (dirlookup_takes dp name).step fun got s3 looked => ?_
      rw [held2] at looked
      cases got with
      | none =>
          refine keeps_then (inode_keeps dp) looked fun node s4 held4 => ?_
          refine (ialloc_takes node.dev type).step fun got s5 allocated => ?_
          rw [held4] at allocated
          cases got with
          | none => exact iunlockput_releases allocated freeDp fun s6 held6 => held6
          | some ip => exact createNew_creates dp ip name type major minor allocated freeDp
      | some found =>
          obtain ⟨ip, off⟩ := found
          change skeleton s3 = ((skeleton s).hold dp).take ip at looked
          rw [Skeleton.hold_take] at looked
          refine iunlockput_releases looked freeDp fun s4 held4 => ?_
          refine (ilock_locks ip).step fun _ s5 locked => ?_
          rw [held4] at locked
          refine keeps_then (inode_keeps ip) locked.2 fun node s6 held6 => ?_
          dsimp only
          split
          · exact ⟨locked.1, held6⟩
          · exact iunlockput_releases held6 locked.1 fun s7 held7 => held7

theorem linkBad_releases (ip : Slot) {origin : Skeleton} {s : State W}
    (held : skeleton s = origin.opened.take ip) :
    outcome (linkBad ip) (fun _ after => skeleton after = origin) (fun _ _ => True) s := by
  unfold linkBad
  refine (ilock_locks ip).step fun _ s1 locked => ?_
  rw [held] at locked
  refine keeps_then (modifyInode_keeps ip (fun _ => rfl) fun _ => rfl) locked.2 fun _ s2 held2 => ?_
  refine keeps_then (iupdate_keeps ip) held2 fun _ s3 held3 => ?_
  refine iunlockput_releases held3 locked.1 fun s4 held4 => ?_
  exact endOp_returns held4 fun s5 held5 => held5

theorem sysLink_keeps (cwd : Slot) (old new : Option Path) :
    Keeps skeleton (sysLink (W := W) cwd old new) := by
  unfold sysLink
  split
  · rename_i old new
    intro s
    refine beginOp_opens.step fun _ s1 opened => ?_
    refine (namei_takes cwd old).step fun got s2 taken => ?_
    rw [opened] at taken
    cases got with
    | none => exact endOp_returns taken fun s3 held3 => held3
    | some ip =>
        change skeleton s2 = (skeleton s).opened.take ip at taken
        refine (ilock_locks ip).step fun _ s3 locked => ?_
        rw [taken] at locked
        refine keeps_then (inode_keeps ip) locked.2 fun node s4 held4 => ?_
        split
        · refine iunlockput_releases held4 locked.1 fun s5 held5 => ?_
          exact endOp_returns held5 fun s6 held6 => held6
        refine keeps_then (modifyInode_keeps ip (fun _ => rfl) fun _ => rfl) held4 ?_
        intro _ s5 held5
        refine keeps_then (iupdate_keeps ip) held5 fun _ s6 held6 => ?_
        refine (iunlock_unlocks ip).step fun _ s7 unlocked => ?_
        have held7 : skeleton s7 = (skeleton s).opened.take ip := by
          rw [unlocked.2, held6, Skeleton.unlock_lock _ _ locked.1]
        refine (nameiparent_takes cwd new).step fun got s8 taken => ?_
        rw [held7] at taken
        cases got with
        | none => exact linkBad_releases ip taken
        | some found =>
            obtain ⟨dp, name⟩ := found
            refine (ilock_locks dp).step fun _ s9 locked => ?_
            rw [taken] at locked
            have giveUp : ∀ s' : State W,
                skeleton s' = ((skeleton s).opened.take ip).hold dp →
                outcome (iunlockput dp >>= fun _ => linkBad ip)
                  (fun _ after => skeleton after = skeleton s) (fun _ _ => True) s' :=
              fun s' held' =>
                iunlockput_releases held' locked.1 fun s'' held'' => linkBad_releases ip held''
            refine keeps_then (inode_keeps dp) locked.2 fun there s10 held10 => ?_
            refine keeps_then (inode_keeps ip) held10 fun here s11 held11 => ?_
            split
            · exact giveUp s11 held11
            refine keeps_then (inode_keeps ip) held11 fun here s12 held12 => ?_
            refine keeps_then (dirlink_keeps dp name _) held12 fun done s13 held13 => ?_
            split
            · exact giveUp s13 held13
            refine iunlockput_releases held13 locked.1 fun s14 held14 => ?_
            refine (iput_drops ip).step fun _ s15 dropped => ?_
            rw [held14, Skeleton.drop_take] at dropped
            exact endOp_returns dropped fun s16 held16 => held16
  · exact keeps_pure _

theorem isdirempty_keeps (dp : Slot) : Keeps skeleton (isdirempty (W := W) dp) :=
  isdirempty_quiet skeleton_quiet dp

theorem unlinkBad_releases (dp : Slot) {origin : Skeleton} {s : State W}
    (held : skeleton s = origin.opened.hold dp) (free : origin.locked dp = false) :
    outcome (unlinkBad dp) (fun _ after => skeleton after = origin) (fun _ _ => True) s :=
  iunlockput_releases held free fun _ held' => endOp_returns held' fun _ same => same

theorem unlinkEntry_releases (dp ip : Slot) (off : Nat) {origin : Skeleton} {s : State W}
    (held : skeleton s = (origin.opened.hold dp).take ip) (freeDp : origin.locked dp = false) :
    outcome (unlinkEntry dp ip off) (fun _ after => skeleton after = origin)
      (fun _ _ => True) s := by
  unfold unlinkEntry
  refine (ilock_locks ip).step fun _ s1 locked => ?_
  rw [held] at locked
  have freeIp : (origin.opened.hold dp).locked ip = false := locked.1
  have held1 : skeleton s1 = (origin.opened.hold dp).hold ip := locked.2
  have apart : ip ≠ dp := by
    intro same
    rw [same] at freeIp
    simp at freeIp
  have finish : ∀ s' : State W, skeleton s' = (origin.opened.hold dp).hold ip →
      outcome (do
        iunlockput dp
        modifyInode ip fun ip => { ip with nlink := ip.nlink - 1 }
        iupdate ip
        iunlockput ip
        endOp
        return true) (fun _ after => skeleton after = origin) (fun _ _ => True) s' := by
    intro s2 held2
    rw [Skeleton.hold_comm _ _ _ apart] at held2
    refine iunlockput_releases held2 ?_ fun s3 held3 => ?_
    · rwa [Skeleton.hold_other _ _ _ apart.symm]
    refine keeps_then (modifyInode_keeps ip (fun _ => rfl) fun _ => rfl) held3 fun _ s4 held4 => ?_
    refine keeps_then (iupdate_keeps ip) held4 fun _ s5 held5 => ?_
    refine iunlockput_releases held5 ?_ fun s6 held6 => ?_
    · rwa [Skeleton.hold_other _ _ _ apart] at freeIp
    exact endOp_returns held6 fun s7 held7 => held7
  have erase : ∀ s' : State W, skeleton s' = (origin.opened.hold dp).hold ip →
      outcome (do
        let r ← writei dp (kernelSource (List.replicate DIRENT 0)) off DIRENT
        if r ≠ (DIRENT : Int) then throw .unlinkWritei
        if (← inode ip).type = T_DIR then
          modifyInode dp fun dp => { dp with nlink := dp.nlink - 1 }
          iupdate dp
        iunlockput dp
        modifyInode ip fun ip => { ip with nlink := ip.nlink - 1 }
        iupdate ip
        iunlockput ip
        endOp
        return true) (fun _ after => skeleton after = origin) (fun _ _ => True) s' := by
    intro s2 held2
    refine keeps_then (writei_keeps dp _ _ _) held2 fun r s3 held3 => ?_
    split
    · trivial
    refine keeps_then (inode_keeps ip) held3 fun node s4 held4 => ?_
    split
    · refine keeps_then (modifyInode_keeps dp (fun _ => rfl) fun _ => rfl) held4 ?_
      intro _ s5 held5
      exact keeps_then (iupdate_keeps dp) held5 fun _ s6 held6 => finish s6 held6
    · exact finish s4 held4
  refine keeps_then (inode_keeps ip) held1 fun node s2 held2 => ?_
  split
  · trivial
  refine keeps_then (inode_keeps ip) held2 fun node s3 held3 => ?_
  split
  · refine keeps_then (isdirempty_keeps ip) held3 fun empty s4 held4 => ?_
    split
    · refine iunlockput_releases held4 freeIp fun s5 held5 => ?_
      exact unlinkBad_releases dp held5 freeDp
    · exact erase s4 held4
  · exact erase s3 held3

theorem sysUnlink_keeps (cwd : Slot) (path : Option Path) :
    Keeps skeleton (sysUnlink (W := W) cwd path) := by
  unfold sysUnlink
  cases path with
  | none => exact keeps_pure _
  | some path =>
      intro s
      refine beginOp_opens.step fun _ s1 opened => ?_
      refine (nameiparent_takes cwd path).step fun got s2 taken => ?_
      rw [opened] at taken
      cases got with
      | none => exact endOp_returns taken fun s3 held3 => held3
      | some found =>
          obtain ⟨dp, name⟩ := found
          refine (ilock_locks dp).step fun _ s3 locked => ?_
          rw [taken] at locked
          have held3 : skeleton s3 = (skeleton s).opened.hold dp := locked.2
          have free : (skeleton s).locked dp = false := locked.1
          dsimp only
          split
          · exact unlinkBad_releases dp held3 free
          refine (dirlookup_takes dp name).step fun got s4 looked => ?_
          rw [held3] at looked
          cases got with
          | none => exact unlinkBad_releases dp looked free
          | some found => exact unlinkEntry_releases dp found.1 found.2 looked free

theorem sysMake_keeps (cwd : Slot) (path : Option Path) (type major minor : Int16) :
    Keeps skeleton (sysMake (W := W) cwd path type major minor) := by
  intro s
  unfold sysMake
  refine beginOp_opens.step fun _ s1 opened => ?_
  cases path with
  | none => exact endOp_returns opened fun s2 held2 => held2
  | some path =>
      refine (create_creates cwd path type major minor).step fun got s2 created => ?_
      rw [opened] at created
      cases got with
      | none => exact endOp_returns created fun s3 held3 => held3
      | some ip =>
          refine iunlockput_releases created.2 created.1 fun s3 held3 => ?_
          exact endOp_returns held3 fun s4 held4 => held4

/-- `sys_chdir` moves the reference of the caller's `cwd` to the directory it found. -/
theorem sysChdir_moves (cwd : Slot) (path : Option Path) :
    Follows skeleton (sysChdir (W := W) cwd path)
      fun before got after => after = got.elim before fun ip => (before.take ip).drop cwd := by
  intro s
  unfold sysChdir
  refine beginOp_opens.step fun _ s1 opened => ?_
  cases path with
  | none => exact endOp_returns opened fun s2 held2 => held2
  | some path =>
      refine (namei_takes cwd path).step fun got s2 taken => ?_
      rw [opened] at taken
      cases got with
      | none => exact endOp_returns taken fun s3 held3 => held3
      | some ip =>
          refine (ilock_locks ip).step fun _ s3 locked => ?_
          rw [taken] at locked
          refine keeps_then (inode_keeps ip) locked.2 fun node s4 held4 => ?_
          split
          · refine iunlockput_releases held4 locked.1 fun s5 held5 => ?_
            exact endOp_returns held5 fun s6 held6 => held6
          refine (iunlock_unlocks ip).step fun _ s5 unlocked => ?_
          rw [held4, Skeleton.unlock_lock _ _ locked.1] at unlocked
          refine (iput_drops cwd).step fun _ s6 dropped => ?_
          rw [unlocked.2] at dropped
          refine endOp_closes.step fun _ s7 closed => ?_
          change skeleton s7 = ((skeleton s).take ip).drop cwd
          rw [closed, dropped]
          change (((skeleton s).take ip).drop cwd).opened.closed = _
          rw [Skeleton.closed_opened]

end Directories

end PaddleOs.Fs
