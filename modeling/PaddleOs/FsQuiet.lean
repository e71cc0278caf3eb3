import PaddleOs.Directory
import PaddleOs.Foundation.View

/-!
The functions of `kernel/fs.c` below the inode table. They read and log blocks and
store into the fields of an inode copied from the disk; none of them looks for a slot,
takes a lock or changes a count. A property of computations that sequences inherit
holds of all of them as soon as it holds of these few steps.
-/

namespace PaddleOs.Fs

open Foundation.Outcome Foundation.View

variable {W : Type} [BlockLayer W]

structure Quiet (P : ∀ ⦃α : Type⦄, FsM W α → Prop) : Prop extends Closed P where
  stop : ∀ {α : Type} {reason : Stop}, reason ≠ .igetNoInodes → P (throw reason : FsM W α)
  bread : ∀ dev blockno, P (bread (W := W) dev blockno)
  setData : ∀ (bp : BlockLayer.Handle W) data, P (setData bp data)
  logWrite : ∀ bp : BlockLayer.Handle W, P (logWrite bp)
  brelse : ∀ bp : BlockLayer.Handle W, P (brelse bp)
  modifyInode : ∀ (k : Slot) {change : Inode → Inode}, (∀ ip, (change ip).ref = ip.ref) →
    (∀ ip, (change ip).locked = ip.locked) → P (modifyInode (W := W) k change)

variable {P : ∀ ⦃α : Type⦄, FsM W α → Prop} (quiet : Quiet P)
include quiet

theorem data_quiet (bp : BlockLayer.Handle W) : P (data bp) :=
  quiet.bind quiet.get fun _ => quiet.pure _

theorem inode_quiet (k : Slot) : P (inode (W := W) k) :=
  quiet.bind quiet.get fun _ => quiet.pure _

theorem bzero_quiet (dev bno : Nat) : P (bzero (W := W) dev bno) := by
  refine quiet.bind (quiet.bread dev bno) fun bp => ?_
  refine quiet.bind (quiet.setData bp _) fun _ => ?_
  exact quiet.bind (quiet.logWrite bp) fun _ => quiet.brelse bp

theorem ballocFrom_quiet (dev b count : Nat) :
    P (ballocFrom (W := W) dev b count) := by
  induction count generalizing b with
  | zero => exact quiet.pure 0
  | succ count ih =>
      unfold ballocFrom
      refine quiet.bind quiet.get fun s => quiet.bind quiet.get fun s' => ?_
      refine quiet.bind (quiet.bread dev _) fun bp => quiet.bind (data_quiet quiet bp) fun data => ?_
      split
      · refine quiet.bind (quiet.setData bp _) fun _ => quiet.bind (quiet.logWrite bp) fun _ => ?_
        refine quiet.bind (quiet.brelse bp) fun _ => quiet.bind (bzero_quiet quiet dev _) fun _ => ?_
        exact quiet.pure _
      · exact quiet.bind (quiet.brelse bp) fun _ => ih _

theorem balloc_quiet (dev : Nat) : P (balloc (W := W) dev) :=
  quiet.bind quiet.get fun _ => ballocFrom_quiet quiet dev _ _

theorem bfree_quiet (dev b : Nat) : P (bfree (W := W) dev b) := by
  unfold bfree
  refine quiet.bind quiet.get fun s => quiet.bind (quiet.bread dev _) fun bp => ?_
  refine quiet.bind (data_quiet quiet bp) fun data => quiet.ite ?_ (quiet.stop (by decide))
  refine quiet.bind (quiet.setData bp _) fun _ => ?_
  exact quiet.bind (quiet.logWrite bp) fun _ => quiet.brelse bp

theorem iupdate_quiet (k : Slot) : P (iupdate (W := W) k) := by
  unfold iupdate
  refine quiet.bind (inode_quiet quiet k) fun ip => quiet.bind quiet.get fun s => ?_
  refine quiet.bind (quiet.bread _ _) fun bp => quiet.bind (data_quiet quiet bp) fun data => ?_
  refine quiet.bind (quiet.setData bp _) fun _ => ?_
  exact quiet.bind (quiet.logWrite bp) fun _ => quiet.brelse bp

theorem bmapDirect_quiet (k : Slot) (bn : Nat) : P (bmapDirect (W := W) k bn) := by
  unfold bmapDirect
  refine quiet.bind (inode_quiet quiet k) fun ip => quiet.ite ?_ (quiet.pure _)
  refine quiet.bind (balloc_quiet quiet _) fun addr => quiet.ite ?_ (quiet.pure _)
  exact quiet.bind (quiet.modifyInode k (fun _ => rfl) fun _ => rfl) fun _ => quiet.pure _

theorem bmapIndirect_quiet (k : Slot) (bn : Nat) :
    P (bmapIndirect (W := W) k bn) := by
  unfold bmapIndirect
  refine quiet.bind (bmapDirect_quiet quiet k NDIRECT) fun addr => quiet.ite (quiet.pure _) ?_
  refine quiet.bind (inode_quiet quiet k) fun ip => quiet.bind (quiet.bread _ _) fun bp => ?_
  refine quiet.bind (data_quiet quiet bp) fun data => quiet.ite ?_ ?_
  · refine quiet.bind (balloc_quiet quiet _) fun addr => quiet.ite ?_ ?_
    · refine quiet.bind (data_quiet quiet bp) fun _ => quiet.bind (quiet.setData bp _) fun _ => ?_
      refine quiet.bind (quiet.logWrite bp) fun _ => ?_
      exact quiet.bind (quiet.brelse bp) fun _ => quiet.pure _
    · exact quiet.bind (quiet.brelse bp) fun _ => quiet.pure _
  · exact quiet.bind (quiet.brelse bp) fun _ => quiet.pure _

theorem bmap_quiet (k : Slot) (bn : Nat) : P (bmap (W := W) k bn) :=
  quiet.ite (bmapDirect_quiet quiet k bn) (quiet.ite (bmapIndirect_quiet quiet k _) (quiet.stop (by decide)))

theorem itrunc_quiet (k : Slot) : P (itrunc (W := W) k) := by
  have direct : ∀ i, P (itruncDirect (W := W) k i) := by
    intro i
    refine quiet.bind (inode_quiet quiet k) fun ip => quiet.ite ?_ (quiet.pure _)
    exact quiet.bind (bfree_quiet quiet _ _) fun _ => quiet.modifyInode k (fun _ => rfl) fun _ => rfl
  have indirect : ∀ dev bp i, P (itruncIndirect (W := W) dev bp i) := by
    intro dev bp i
    exact quiet.bind (data_quiet quiet bp) fun data => quiet.ite (bfree_quiet quiet _ _) (quiet.pure _)
  have finish : P (do
      modifyInode (W := W) k fun ip => { ip with size := 0 }
      iupdate k) :=
    quiet.bind (quiet.modifyInode k (fun _ => rfl) fun _ => rfl) fun _ => iupdate_quiet quiet k
  unfold itrunc
  refine quiet.bind (quiet.loop direct 0 _) fun _ => quiet.bind (inode_quiet quiet k) fun ip => ?_
  refine quiet.ite ?_ finish
  refine quiet.bind (quiet.bread _ _) fun bp => ?_
  refine quiet.bind (quiet.loop (indirect _ bp) 0 _) fun _ => ?_
  refine quiet.bind (quiet.brelse bp) fun _ => quiet.bind (bfree_quiet quiet _ _) fun _ => ?_
  exact quiet.bind (quiet.modifyInode k (fun _ => rfl) fun _ => rfl) fun _ => finish

theorem readiFrom_quiet (k : Slot) (accepts : Nat → Nat → Bool) (n fuel tot off : Nat)
    (read : List UInt8) : P (readiFrom (W := W) k accepts n fuel tot off read) := by
  induction fuel generalizing tot off read with
  | zero => exact quiet.pure _
  | succ fuel ih =>
      unfold readiFrom
      refine quiet.ite ?_ (quiet.pure _)
      refine quiet.bind (bmap_quiet quiet k _) fun addr => quiet.ite (quiet.pure _) ?_
      refine quiet.bind (inode_quiet quiet k) fun ip => quiet.bind (quiet.bread _ _) fun bp => ?_
      refine quiet.bind (data_quiet quiet bp) fun data => quiet.bind (quiet.brelse bp) fun _ => ?_
      exact quiet.ite (ih _ _ _) (quiet.pure _)

theorem readi_quiet (k : Slot) (accepts : Nat → Nat → Bool) (off n : Nat) :
    P (readi (W := W) k accepts off n) := by
  unfold readi
  refine quiet.bind (inode_quiet quiet k) fun ip => quiet.ite (quiet.pure _) ?_
  exact readiFrom_quiet quiet k accepts _ _ _ _ _

theorem writeiFrom_quiet (k : Slot) (source : Nat → Nat → List UInt8 × Bool)
    (n fuel tot off : Nat) : P (writeiFrom (W := W) k source n fuel tot off) := by
  induction fuel generalizing tot off with
  | zero => exact quiet.pure _
  | succ fuel ih =>
      unfold writeiFrom
      refine quiet.ite ?_ (quiet.pure _)
      refine quiet.bind (bmap_quiet quiet k _) fun addr => quiet.ite (quiet.pure _) ?_
      refine quiet.bind (inode_quiet quiet k) fun ip => quiet.bind (quiet.bread _ _) fun bp => ?_
      refine quiet.bind (data_quiet quiet bp) fun data => quiet.bind (quiet.setData bp _) fun _ => ?_
      refine quiet.ite ?_ (quiet.bind (quiet.brelse bp) fun _ => quiet.pure _)
      refine quiet.bind (quiet.logWrite bp) fun _ => ?_
      exact quiet.bind (quiet.brelse bp) fun _ => ih _ _

theorem writei_quiet (k : Slot) (source : Nat → Nat → List UInt8 × Bool) (off n : Nat) :
    P (writei (W := W) k source off n) := by
  have finish : ∀ tot, P (do
      iupdate (W := W) k
      return asInt tot) := fun tot => quiet.bind (iupdate_quiet quiet k) fun _ => quiet.pure _
  unfold writei
  refine quiet.bind (inode_quiet quiet k) fun ip => quiet.ite (quiet.pure _) ?_
  refine quiet.ite (quiet.pure _) ?_
  refine quiet.bind (writeiFrom_quiet quiet k source _ _ _ _) fun ended => ?_
  refine quiet.bind (inode_quiet quiet k) fun ip => quiet.ite ?_ (finish _)
  exact quiet.bind (quiet.modifyInode k (fun _ => rfl) fun _ => rfl) fun _ => finish _

theorem readDirent_quiet (dp : Slot) (off : Nat) {panic : Stop} (other : panic ≠ .igetNoInodes) :
    P (readDirent (W := W) dp off panic) := by
  unfold readDirent
  refine quiet.bind (readi_quiet quiet dp _ _ _) fun read => ?_
  exact quiet.ite (quiet.stop other) (quiet.pure _)

theorem emptyFrom_quiet (dp : Slot) (fuel off : Nat) : P (emptyFrom (W := W) dp fuel off) := by
  induction fuel generalizing off with
  | zero => exact quiet.pure _
  | succ fuel ih =>
      unfold emptyFrom
      refine quiet.bind (inode_quiet quiet dp) fun ip => quiet.ite ?_ (quiet.pure _)
      refine quiet.bind (readDirent_quiet quiet dp off (by decide)) fun de => ?_
      exact quiet.ite (quiet.pure _) (ih _)

theorem isdiremptyFrom_quiet (dp : Slot) (fuel off : Nat) :
    P (isdiremptyFrom (W := W) dp fuel off) := by
  induction fuel generalizing off with
  | zero => exact quiet.pure _
  | succ fuel ih =>
      unfold isdiremptyFrom
      refine quiet.bind (inode_quiet quiet dp) fun ip => quiet.ite ?_ (quiet.pure _)
      refine quiet.bind (readDirent_quiet quiet dp off (by decide)) fun de => ?_
      exact quiet.ite (quiet.pure _) (ih _)

theorem isdirempty_quiet (dp : Slot) : P (isdirempty (W := W) dp) :=
  quiet.bind (inode_quiet quiet dp) fun _ => isdiremptyFrom_quiet quiet dp _ _

end PaddleOs.Fs
