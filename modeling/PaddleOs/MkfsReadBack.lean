import PaddleOs.FileReads
import PaddleOs.MkfsLimits

/-!
The kernel reads back what `mkfs` stored. The two programs compute the place of a block
apart, `iappend` while it appends and `bmap` from an index; they meet in `pointer`.
-/

namespace PaddleOs.Mkfs

open Foundation.Outcome

theorem sb_read_back : getSuperblock (putSuperblock sb) = sb :=
  getSuperblock_putSuperblock sb (by decide) (by decide) (by decide) (by decide) (by decide)
    (by decide) (by decide) (by decide)

theorem mkfs_accepted {files : List Input} {s : State} (few : files.length + 2 ≤ areaInodes)
    (made : mkfs files = some s) : ∀ file ∈ files, file.Accepted :=
  (outcome_of_ok (main_spec files few) (finalState_some made)).1

/-- The kernel runs on the image `s` and has a reference to the inode `inum`, not yet read. -/
structure Mounted (s : State) (t : Fs.State Image) (slot : Fs.Slot) (inum : Nat) : Prop where
  block : t.store.block = s.sector
  super : t.sb = getSuperblock (s.sector 1)
  inum : (t.inode slot).inum = inum
  ref : 1 ≤ (t.inode slot).ref
  unlocked : (t.inode slot).locked = false
  fresh : (t.inode slot).valid = false

/-- `ilock` fills the slot from the disk. -/
structure Filled (s : State) (t : Fs.State Image) (slot : Fs.Slot) (inum : Nat)
    (t' : Fs.State Image) : Prop where
  block : t'.store.block = s.sector
  dinode : (t'.inode slot).toDinode = dinodeAt s.sector inum
  names : ∀ k, (t'.inode k).ref = (t.inode k).ref ∧ (t'.inode k).dev = (t.inode k).dev ∧
    (t'.inode k).inum = (t.inode k).inum

section Read

variable {files : List Input} {s : State} {t : Fs.State Image} {slot : Fs.Slot} {inum : Nat}

theorem ilock_fills (finished : Finished files s) (mounted : Mounted s t slot inum)
    (allocated : (dinodeAt s.sector inum).type ≠ 0) :
    outcome (Fs.ilock slot) (fun _ t' => Filled s t slot inum t') (fun _ _ => False) t := by
  have super : t.sb = sb := by rw [mounted.super, finished.super, sb_read_back]
  have place : getDinode (t.store.block (t.sb.IBLOCK (t.inode slot).inum))
      (dinodeOffset (t.inode slot).inum) = dinodeAt s.sector inum := by
    rw [super, mounted.block, mounted.inum]
    rfl
  refine outcome_post
    (Fs.ilock_loads mounted.ref mounted.unlocked mounted.fresh place allocated) ?_
  rintro _ t' rfl
  refine ⟨mounted.block, ?_, ?_⟩
  · unfold Fs.State.setInode
    dsimp only
    rw [Function.update_self]
  · intro k
    unfold Fs.State.setInode
    dsimp only
    by_cases same : k = slot
    · subst same
      rw [Function.update_self]
      exact ⟨rfl, rfl, rfl⟩
    · rw [Function.update_of_ne same]
      exact ⟨rfl, rfl, rfl⟩

/-- The blocks `iappend` filled hold the file for the kernel. -/
theorem Finished.holds (finished : Finished files s) (positive : inum ≠ 0)
    (known : inum < files.length + 2) :
    Fs.Holds s.sector (dinodeAt s.sector inum) (heldOf files inum) := by
  obtain ⟨own, lay⟩ := finished.layout
  have mine := lay.stored inum positive known
  refine ⟨mine.bounded, ?_, ?_⟩
  · intro bn within
    have reached := mine.covered bn within
    refine ⟨(lay.owned_apart (mine.mapped bn reached)).1, fun far => ?_⟩
    rw [unit_indirect (by omega)] at reached
    exact (lay.owned_apart (mine.index (by omega))).1
  · intro bn j inside within
    exact mine.content bn j (mine.covered bn (by omega)) inside

theorem drop_entry (name : Name) (number : Nat) (rest : List UInt8) (j : Nat) :
    (putDirent name number ++ rest).drop (DIRENT * (j + 1)) = rest.drop (DIRENT * j) := by
  have length := putDirent_length name number
  rw [Nat.mul_succ, Nat.add_comm, ← List.drop_drop, ← length, List.drop_left]

theorem take_entry (name : Name) (number : Nat) (rest : List UInt8) :
    ((putDirent name number ++ rest).drop (DIRENT * 0)).take DIRENT = putDirent name number := by
  rw [Nat.mul_zero, List.drop_zero, ← putDirent_length name number, List.take_left]

theorem entriesFrom_entry (files : List Input) (number j : Nat) (inside : j < files.length) :
    ((entriesFrom number files).drop (DIRENT * j)).take DIRENT =
      putDirent (entryName files[j].path) (number + j) := by
  induction files generalizing number j with
  | nil => exact absurd inside (Nat.not_lt_zero j)
  | cons file rest ih =>
      rw [entriesFrom]
      cases j with
      | zero => exact take_entry _ _ _
      | succ j =>
          rw [drop_entry, ih (number + 1) j (by simpa using inside), List.getElem_cons_succ,
            Nat.add_right_comm, Nat.add_assoc]

/-- The name and the number of the entry `i` of the root directory. -/
def rootEntry (files : List Input) : Nat → Dirent
  | 0 => ⟨ROOTINO, Fs.dot⟩
  | 1 => ⟨ROOTINO, Fs.dotdot⟩
  | j + 2 => ⟨j + 2, cutName ((files.map fun file => entryName file.path).getD j [])⟩

theorem rootEntries_entry (few : files.length + 2 ≤ areaInodes) {i : Nat}
    (inside : i < files.length + 2) :
    getDirent (((rootEntries files).drop (DIRENT * i)).take DIRENT) = rootEntry files i := by
  have area : areaInodes = 208 := by decide
  unfold rootEntries
  match i with
  | 0 =>
      rw [take_entry, getDirent_putDirent _ _ (by decide)]
      rfl
  | 1 =>
      rw [drop_entry, take_entry, getDirent_putDirent _ _ (by decide)]
      rfl
  | j + 2 =>
      have within : j < files.length := by omega
      rw [drop_entry, drop_entry, entriesFrom_entry files _ j within,
        getDirent_putDirent _ _ (by unfold ROOTINO; omega)]
      unfold ROOTINO
      rw [rootEntry, List.getD_eq_getElem _ _ (by simpa using within), List.getElem_map, Nat.add_comm]

/-- The name `mkfs` gives to the argument `k`. -/
def nameOf (files : List Input) (k : Nat) : Name :=
  cutName ((files.map fun file => entryName file.path).getD k [])

theorem dirlookup_finds (finished : Finished files s) (mounted : Mounted s t slot ROOTINO) {k : Nat}
    (inside : k < files.length) (name : Name) (is : cutName name = nameOf files k)
    (notDot : nameOf files k ≠ Fs.dot) (notDotdot : nameOf files k ≠ Fs.dotdot)
    (once : ∀ j, j < files.length → nameOf files j = nameOf files k → j = k)
    (room : t.cached (t.inode slot).dev (k + 2) ≠ none ∨ t.empty ≠ none) :
    outcome (do Fs.ilock slot; Fs.dirlookup slot name)
      (fun r t' => ∃ found off, r = some (found, off) ∧ (t'.inode found).inum = k + 2 ∧
        (t'.inode found).dev = (t.inode slot).dev ∧ t'.store.block = s.sector)
      (fun _ _ => False) t := by
  have rootType : (dinodeAt s.sector ROOTINO).type = T_DIR := finished.root.1
  refine outcome_seq (ilock_fills finished mounted (by rw [rootType]; decide)) ?_
  intro _ t' filled
  have holds := finished.holds (show ROOTINO ≠ 0 by decide) (by unfold ROOTINO; omega)
  rw [← filled.dinode, ← filled.block, heldOf_root] at holds
  have length := rootEntries_length files
  have size : (t'.inode slot).size = ((rootEntries files).length / BSIZE + 1) * BSIZE := by
    rw [filled.dinode]
    exact finished.root.2.2
  have long : (rootEntries files).length ≤ (t'.inode slot).size := by
    rw [size]
    unfold BSIZE
    omega
  have reach : DIRENT * (k + 2 + 1) ≤ (rootEntries files).length := by
    rw [length]
    exact Nat.mul_le_mul_left _ (by omega)
  have entry : ∀ i, i < files.length + 2 →
      getDirent (((rootEntries files).drop (DIRENT * i)).take DIRENT) = rootEntry files i :=
    fun i below => rootEntries_entry finished.few below
  have compared : ∀ other : Name, Fs.dot = other ∨ Fs.dotdot = other ∨
      (∃ j, j < files.length ∧ j ≠ k ∧ nameOf files j = other) → ¬ namecmp name other = true := by
    rintro other named same
    have equal : nameOf files k = cutName other := is ▸ of_decide_eq_true same
    rcases named with rfl | rfl | ⟨j, below, apart, rfl⟩
    · exact notDot equal
    · exact notDotdot equal
    · unfold nameOf at equal
      rw [cutName_cutName] at equal
      exact apart (once j below equal.symm)
  have found : getDirent (((rootEntries files).drop (DIRENT * (k + 2))).take DIRENT) =
      ⟨k + 2, cutName name⟩ := by
    rw [entry (k + 2) (by omega), is]
    rfl
  have names := filled.names slot
  have cached : t'.cached (t'.inode slot).dev (k + 2) = t.cached (t.inode slot).dev (k + 2) := by
    unfold Fs.State.cached
    rw [names.2.1]
    refine congrArg (fun accepts => List.find? accepts _) (funext fun j => ?_)
    rw [(filled.names j).1, (filled.names j).2.1, (filled.names j).2.2]
  have empty : t'.empty = t.empty := by
    unfold Fs.State.empty
    refine congrArg (fun accepts => List.find? accepts _) (funext fun j => ?_)
    rw [(filled.names j).1]
  unfold Fs.dirlookup
  rw [outcome_bind]
  refine Fs.outcome_inode ?_
  have directory : (t'.inode slot).type = T_DIR := by rw [filled.dinode]; exact rootType
  rw [if_neg (by rw [directory]; decide)]
  have fuel : k + 2 < 0 + ((t'.inode slot).size / DIRENT + 1) := by
    have most : DIRENT * (k + 2) ≤ (t'.inode slot).size :=
      le_trans (Nat.mul_le_mul_left _ (by omega)) (le_trans reach long)
    rw [Nat.mul_comm] at most
    have quotient := (Nat.le_div_iff_mul_le (show 0 < DIRENT by decide)).mpr most
    omega
  have search := Fs.dirlookupFrom_holds holds name ((t'.inode slot).size / DIRENT + 1) 0 (k + 2)
    fuel (Nat.zero_le _) reach (le_trans reach long) ?_ found (by omega)
    (by rw [cached, empty]; exact room)
  · rw [Nat.mul_zero] at search
    refine outcome_post search ?_
    rintro r u ⟨at_, rfl, isInum, isDev, store⟩
    exact ⟨at_, _, rfl, isInum, isDev.trans names.2.1, by rw [store]; exact filled.block⟩
  · rintro j - before ⟨-, same⟩
    rw [entry j (by omega)] at same
    refine compared _ ?_ same
    match j with
    | 0 => exact Or.inl rfl
    | 1 => exact Or.inr (Or.inl rfl)
    | j + 2 => exact Or.inr (Or.inr ⟨j, by omega, by omega, rfl⟩)

end Read

/-- The image of acceptable arguments, read by the kernel, gives the arguments back: each
file under its own inode, byte for byte at every offset, and under its name in the root
directory unless another entry has that name. -/
theorem mkfs_read_back (files : List Input) (s : State) (few : files.length + 1 < NINODES)
    (made : mkfs files = some s) (k : Nat) (inside : k < files.length) :
    ∃ bytes, files[k].contents = some bytes ∧
      (dinodeAt s.sector (k + 2)).type = T_FILE ∧ (dinodeAt s.sector (k + 2)).nlink = 1 ∧
      (∀ t slot, Mounted s t slot (k + 2) → ∃ t', Fs.ilock slot t = .ok () t' ∧
        (t'.inode slot).size = bytes.length ∧
        ∀ off n, off ≤ bytes.length → off + n < 2 ^ 32 →
          Fs.readi slot Fs.kernelAccepts off n t' =
            .ok (Fs.asInt (min n (bytes.length - off)), (bytes.drop off).take n) t') ∧
      (nameOf files k ≠ Fs.dot → nameOf files k ≠ Fs.dotdot →
        (∀ j, j < files.length → nameOf files j = nameOf files k → j = k) →
        ∀ name, cutName name = nameOf files k → ∀ t slot, Mounted s t slot ROOTINO →
          t.cached (t.inode slot).dev (k + 2) ≠ none ∨ t.empty ≠ none →
          ∃ found off t',
            (do Fs.ilock slot; Fs.dirlookup slot name) t = .ok (some (found, off)) t' ∧
              (t'.inode found).inum = k + 2 ∧ (t'.inode found).dev = (t.inode slot).dev) := by
  have area : NINODES ≤ areaInodes := by decide
  have finished := mkfs_finished (by omega) made
  have accepted := mkfs_accepted (by omega) made files[k] (List.getElem_mem inside)
  obtain ⟨bytes, contents⟩ := Option.ne_none_iff_exists'.mp accepted.2
  have held : heldOf files (k + 2) = bytes := by
    unfold heldOf ROOTINO
    rw [if_neg (by omega), if_neg (by omega), show k + 2 - (1 + 1) = k by omega,
      List.getElem?_eq_getElem inside, Option.bind_some, contents, Option.getD_some]
  have file := finished.file (k + 2) (by unfold ROOTINO; omega) (by omega)
  have holds := finished.holds (show k + 2 ≠ 0 by omega) (by omega)
  rw [held] at file holds
  refine ⟨bytes, contents, file.1, file.2.1, ?_, ?_⟩
  · intro t slot mounted
    obtain ⟨⟨⟩, t', ran, filled⟩ := outcome_ok
      (ilock_fills finished mounted (by rw [file.1]; decide))
    refine ⟨t', ran, ?_, ?_⟩
    · rw [filled.dinode]
      exact file.2.2
    · intro off n start small
      have size : (t'.inode slot).size = bytes.length := by
        rw [filled.dinode]
        exact file.2.2
      rw [← filled.dinode, ← filled.block] at holds
      obtain ⟨r, u, read, is, rfl⟩ := outcome_ok
        (Fs.readi_holds holds off n (by rw [size]; exact start) small (by omega))
      rw [read, is, size]
      congr 2
      have short : (bytes.drop off).length = bytes.length - off := List.length_drop
      rw [← short, ← List.take_eq_take_min]
  · intro notDot notDotdot once name is t slot mounted room
    obtain ⟨r, t', ran, found, off, rfl, isInum, isDev, -⟩ := outcome_ok
      (dirlookup_finds finished mounted inside name is notDot notDotdot once room)
    exact ⟨found, off, t', ran, isInum, isDev⟩

/-- The argument `a` with the two bytes `hi`. -/
def greeting : Input := ⟨[97], some [104, 105]⟩

theorem greeting_acceptable : Acceptable [greeting] := by
  refine ⟨?_, ?_, ?_⟩
  · intro file inside
    rw [List.mem_singleton.mp inside]
    exact ⟨by decide, by decide⟩
  · decide
  · decide

/-- Every slot refers to the inode `inum` of the image. -/
def mount (s : State) (inum : Nat) : Fs.State Image where
  store := ⟨s.sector, 0⟩
  sb := getSuperblock (s.sector 1)
  inode _ := { Dinode.blank 0 with dev := ROOTDEV, inum, ref := 1, locked := false, valid := false }

def firstSlot : Fs.Slot := ⟨0, ninode_pos⟩

theorem greeting_read_back : ∃ s, mkfs [greeting] = some s ∧
    ∃ t, Fs.ilock firstSlot (mount s 2) = .ok () t ∧
      Fs.readi firstSlot Fs.kernelAccepts 0 100 t = .ok (2, [104, 105]) t := by
  obtain ⟨s, made⟩ := mkfs_succeeds (by decide) greeting_acceptable
  obtain ⟨bytes, contents, -, -, reads, -⟩ :=
    mkfs_read_back [greeting] s (by decide) made 0 (by decide)
  cases contents
  obtain ⟨t, ran, -, read⟩ := reads (mount s 2) firstSlot ⟨rfl, rfl, rfl, le_refl 1, rfl, rfl⟩
  exact ⟨s, made, t, ran, read 0 100 (by decide) (by decide)⟩

end PaddleOs.Mkfs
