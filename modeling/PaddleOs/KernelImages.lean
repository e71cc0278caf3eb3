import PaddleOs.FsImages
import PaddleOs.KernelVolume

/-!
The kernel from a disk image on. An image is consistent when its regions are in order, its
blocks are owned exactly and the entries of its directories name inodes that exist. From a
consistent image without holes every run of system calls keeps the image so between the
calls, the inodes in memory agree with those on the disk, and reading a file changes
neither the disk nor the log.
-/

namespace PaddleOs

open Foundation.Outcome Foundation.Runs
open Fs (Slot JState Good Loaded Represents diskNode)

namespace Kernel

section Runs

variable {s booted final : State Journal} {v : Volume} {p : Pid} {f : FileId}

theorem fs_ran {α : Type} {run : Fs.FsM Journal α} {value : α} {fs' : JState}
    {post : α → State Journal → Prop} {fail : Halt → State Journal → Prop}
    (ran : run s.fs = .ok value fs') (next : post value { s with fs := fs' }) :
    outcome (fs run) post fail s := by
  unfold fs
  rw [outcome_zoom]
  unfold outcome
  rw [ran]
  exact next

theorem vm_frame {α : Type} (run : Vm.VmM α) :
    outcome (vm run) (fun _ s' => s'.fs = s.fs) (fun _ s' => s'.fs = s.fs) s := by
  unfold vm
  rw [outcome_zoom]
  unfold outcome
  cases run s.ram with
  | ok value after => rfl
  | error reason after => rfl

/-- A read leaves the whole file system as it was, and at a stop the disk and the log. -/
theorem fileread_still (intact : Intact s v) (settled : Settled (books s))
    (kind : (s.file f).type = .inode) (addr : Nat) (n device : Int) :
    outcome (fileread p f addr n device) (fun _ s' => s'.fs = s.fs)
      (fun _ s' => s'.fs.store = s.fs.store) s := by
  obtain ⟨used, valid, -, -⟩ := intact.files f kind
  have free : (s.fs.inode (s.file f).ip).locked = false := settled.unlocked _
  have lock := Fs.ilock_valid used free valid
  obtain ⟨rep, locked⟩ := outcome_of_ok (Fs.ilock_spec intact.good.rep ⟨used, rfl⟩) lock
  have good : Good _ v := ⟨rep, intact.good.owned, intact.good.neat⟩
  have readers := Fs.readers_of_good good locked.loaded (intact.whole _ (locked.loaded.live rep))
  unfold fileread
  rw [outcome_bind]
  refine file_step ?_
  rw [outcome_ite]
  refine ⟨fun _ => rfl, fun _ => ?_⟩
  rw [kind]
  rw [outcome_bind]
  refine fs_ran lock ?_
  rw [outcome_bind]
  refine proc_step ?_
  rw [outcome_bind, outcome_get, outcome_bind]
  obtain ⟨⟨r, bytes⟩, read⟩ := readers.readi _ _ _ (asUint_lt n)
  refine fs_ran read ?_
  -- The copy to the user fails or not; the inode is unlocked as it was found.
  have finish : ∀ s', s'.fs = s.fs.setInode (s.file f).ip { s.fs.inode (s.file f).ip with locked := true } →
      outcome (do
        fs (Fs.iunlock (s.file f).ip)
        return some r) (fun _ s' => s'.fs = s.fs) (fun _ s' => s'.fs.store = s.fs.store) s' := by
    intro s' here
    rw [outcome_bind]
    refine fs_ran (Fs.iunlock_locked (by rwa [here, Fs.setInode_same]) (by rw [here, Fs.setInode_same])) ?_
    dsimp only
    rw [outcome_pure, here, Fs.setInode_same]
    unfold Fs.State.setInode
    rw [Function.update_idem, ← free, Function.update_eq_self]
  refine outcome_seq (outcome_mono (vm_frame _) (fun _ _ same => same) fun _ s₂ fs₂ => ?_) fun _ s₂ fs₂ => ?_
  · rw [fs₂]
    rfl
  rw [outcome_ite]
  refine ⟨fun _ => ?_, fun _ => finish s₂ fs₂⟩
  rw [outcome_bind]
  exact modifyFile_step (finish _ fs₂)

/-- What `userinit` starts from: cleared tables, no operation under way, and a consistent
image without holes. -/
structure Fresh (bss : State Journal) : Prop where
  cleared : Cleared bss
  idle : bss.fs.store.outstanding = 0
  consistent : Consistent bss.fs.sb bss.fs.store.block
  whole : (Fs.shown bss.fs).NoHoles

theorem Fresh.intact {bss : State Journal} (fresh : Fresh bss) : Intact bss (Fs.shown bss.fs) where
  good := fresh.consistent.good (fun d dir => fresh.whole d dir.1) fun k => (fresh.cleared.inode k).1
  whole := fresh.whole
  files f kind := by
    rw [(fresh.cleared.file f).1] at kind
    cases kind

/-- Between two calls of every run the blocks and the inode table represent a volume. -/
theorem run_intact {bss : State Journal} {initcode : List UInt8} {calls : List (Pid × Call)}
    (fresh : Fresh bss) (boot : userinit initcode bss = .ok () booted)
    (ran : run step booted calls = some final) : Settled (books final) ∧ ∃ v, Intact final v := by
  refine run_invariant step (fun _ s => Settled (books s) ∧ ∃ v, Intact s v) ?_ ?_ ran
  · exact ⟨userinit_settles fresh.cleared fresh.idle boot, _, userinit_intact fresh.intact boot⟩
  · rintro _ s label next _ ⟨settled, v, intact⟩ stepped
    exact ⟨step_settles stepped settled, step_intact intact settled stepped⟩

/-- The inodes in memory that nobody has locked are those on the disk, each in one slot. -/
structure Agrees (s : State Journal) : Prop where
  copies : ∀ k, 0 < (s.fs.inode k).ref → (s.fs.inode k).valid = true → (s.fs.inode k).locked = false →
    (s.fs.inode k).toDinode = diskNode s.fs (s.fs.inode k).inum
  single : ∀ j k, 0 < (s.fs.inode j).ref → 0 < (s.fs.inode k).ref →
    (s.fs.inode j).dev = (s.fs.inode k).dev → (s.fs.inode j).inum = (s.fs.inode k).inum → j = k

theorem Intact.agrees (intact : Intact s v) : Agrees s where
  copies k used valid _ := by
    have loaded : Loaded s.fs k (s.fs.inode k).inum := ⟨used, valid, rfl⟩
    have inside := intact.good.rep.numbered k used
    rw [intact.good.rep.copy k _ loaded, intact.good.rep.synced _ inside fun _ _ => id]
  single j k first second _ same := intact.good.rep.unique j k first second same

/-- No file has a hole, and what only reads leaves the disk, the log and the inodes alone. -/
structure ReadsOnly (s : State Journal) : Prop where
  limit : ∀ i, (Fs.shown s.fs).Live i → ((Fs.shown s.fs).node i).size ≤ MAXFILE * BSIZE
  whole : (Fs.shown s.fs).NoHoles
  readers : ∀ k, 0 < (s.fs.inode k).ref → outcome (Fs.ilock k) (fun _ fs' => fs'.store = s.fs.store ∧
    Fs.Readers fs' k) (fun _ _ => True) s.fs
  fileread : ∀ p f addr n device, (s.file f).type = .inode →
    outcome (Kernel.fileread p f addr n device) (fun _ s' => s'.fs = s.fs)
      (fun _ s' => s'.fs.store = s.fs.store) s

theorem Intact.readsOnly (intact : Intact s v) (settled : Settled (books s)) : ReadsOnly s where
  limit i live := Fs.Whole.limit (Good.shown_whole intact.good intact.whole i live)
  whole := Good.shown_whole intact.good intact.whole
  readers k used := by
    refine outcome_mono (Fs.ilock_spec intact.good.rep ⟨used, rfl⟩) ?_ fun _ _ _ => trivial
    rintro _ fs' ⟨rep, locked⟩
    refine ⟨locked.store, Fs.readers_of_good ⟨rep, intact.good.owned, intact.good.neat⟩ locked.loaded ?_⟩
    exact intact.whole _ (locked.loaded.live rep)
  fileread _ _ addr n device kind := fileread_still intact settled kind addr n device

end Runs

section Images

/-- The zeroed kernel over a disk whose blocks are given. -/
def imaged (block : Nat → Block) : State Journal :=
  bss { block, logged := [], outstanding := 0 } tinySuperblock (tinyRam 40 [])

theorem tiny_fresh : Fresh (imaged tinyDisk) where
  cleared := bss_cleared ..
  idle := rfl
  consistent := tiny_consistent
  whole := tiny_whole

/-- A file is written in a new directory, given a second name and removed while it is open. -/
def busyCalls : List (Pid × Call) :=
  [(initproc, .mkdir (some [97])), (initproc, .chdir (some [97])), (initproc, .open (some [98]) 0x202),
    (initproc, .write 0 0 1500 0), (initproc, .link (some [98]) (some [99])),
    (initproc, .unlink (some [98])), (initproc, .unlink (some [99]))]

/-- A disk whose first file has the block of the inodes as its only block. -/
def crossedDisk (blockno : Nat) : Block :=
  let file (addr size : Nat) : Dinode :=
    { type := T_FILE, major := 0, minor := 0, nlink := 1, size, addrs := fun p => if p = 0 then addr else 0 }
  if blockno = 32 then
    putDinode (putDinode (putDinode (fun _ => 0) (dinodeOffset ROOTINO)
      { file 34 32 with type := T_DIR }) (dinodeOffset 2) (file 32 1024)) (dinodeOffset 3) (file 35 1)
  else if blockno = 33 then fun i => if i < 4 then 255 else if i = 4 then 15 else 0
  else if blockno = 34 then fun i => (putDirent [97] 2 ++ putDirent [98] 3).getD i 0
  else tinyDisk blockno

theorem crossed_whole : (Fs.shown (imaged crossedDisk).fs).NoHoles := by
  rintro i ⟨inside, typed⟩ bn below
  have small : ∀ i, i < 8 → ((Fs.shown (imaged crossedDisk).fs).node i).size ≤ 1024 := by decide +kernel
  have mapped : ∀ i, i < 8 → ((Fs.shown (imaged crossedDisk).fs).node i).type ≠ 0 →
      (Fs.shown (imaged crossedDisk).fs).ptr i (Volume.place 0) ≠ 0 := by decide +kernel
  have limit := small i inside
  have bound : BSIZE = 1024 := rfl
  obtain rfl : bn = 0 := by
    by_contra more
    have least : 1 * BSIZE ≤ bn * BSIZE := Nat.mul_le_mul_right _ (by omega)
    omega
  exact ⟨by decide, mapped i inside typed⟩

/-- The second file is opened; then the address of its only block is overwritten on the
disk through the first file. -/
def crossedCalls : List (Pid × Call) :=
  [(initproc, .open (some [98]) 0), (initproc, .open (some [97]) 2), (initproc, .read 1 0 204 0),
    (initproc, .write 1 2048 4 0)]

end Images

end Kernel

end PaddleOs
