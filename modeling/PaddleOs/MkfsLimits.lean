import PaddleOs.MkfsFormat

/-!
What `mkfs` refuses and what it lets through. A `read` past the end of `fs.img` stops
it before a block beyond the disk is used, so the blocks always fit; nothing compares
the number of inodes with `NINODES`, and the size of the root directory is rounded up
by a block even when its entries end at a block boundary.
-/

namespace PaddleOs.Mkfs

open Foundation.Outcome

theorem finalState_some {result : EStateM.Result Failure State Unit} {s : State}
    (final : finalState result = some s) : result = .ok () s := by
  cases result with
  | ok value after =>
      cases final
      rfl
  | error reason after => cases final

theorem finalState_none {result : EStateM.Result Failure State Unit}
    (final : finalState result = none) : ∃ reason s, result = .error reason s := by
  cases result with
  | ok value after => cases final
  | error reason after => exact ⟨reason, after, rfl⟩

theorem mkfs_finished {files : List Input} {s : State} (few : files.length + 2 ≤ areaInodes)
    (made : mkfs files = some s) : Finished files s :=
  (outcome_of_ok (main_spec files few) (finalState_some made)).2

theorem mkfs_succeeds {files : List Input} (few : files.length + 2 ≤ areaInodes)
    (acceptable : Acceptable files) : ∃ s, mkfs files = some s := by
  cases result : mkfs files with
  | some s => exact ⟨s, rfl⟩
  | none =>
      obtain ⟨reason, s, ran⟩ := finalState_none result
      exact absurd acceptable (outcome_of_error (main_spec files few) ran)

section Counting

variable {s : State}

/-- The length of `fs.img` and the next inode are as before. -/
def Steady (s s' : State) : Prop := s'.length = s.length ∧ s'.freeinode = s.freeinode

theorem Steady.refl (s : State) : Steady s s := ⟨rfl, rfl⟩

theorem Steady.trans {s t u : State} (first : Steady s t) (next : Steady t u) : Steady s u :=
  ⟨next.1.trans first.1, next.2.trans first.2⟩

theorem rsect_steady (sec : Nat) :
    outcome (rsect sec) (fun _ s' => s' = s ∧ seek sec < s.length) (fun _ _ => True) s := by
  unfold rsect
  rw [outcome_bind, outcome_get, outcome_ite]
  exact ⟨fun inside => ⟨rfl, inside⟩, fun _ => trivial⟩

theorem wsect_steady {sec : Nat} (inside : seek sec < s.length) (buf : Block) :
    outcome (wsect sec buf) (fun _ s' => Steady s s') (fun _ _ => True) s := by
  unfold wsect
  rw [outcome_modify]
  exact ⟨max_eq_left inside, rfl⟩

theorem takeBlock_steady : outcome takeBlock (fun _ s' => Steady s s') (fun _ _ => True) s := by
  unfold takeBlock
  rw [outcome_bind, outcome_get, outcome_bind, outcome_modify, outcome_pure]
  exact ⟨rfl, rfl⟩

theorem rinode_steady (inum : Nat) :
    outcome (rinode inum) (fun _ s' => Steady s s') (fun _ _ => True) s := by
  unfold rinode
  refine outcome_seq (rsect_steady _) ?_
  rintro buf s' ⟨rfl, -⟩
  exact Steady.refl s'

theorem winode_steady (inum : Nat) (ip : Dinode) :
    outcome (winode inum ip)
      (fun _ s' => Steady s s' ∧ seek (sb.IBLOCK inum) < s.length) (fun _ _ => True) s := by
  unfold winode
  refine outcome_seq (rsect_steady _) ?_
  rintro buf s' ⟨rfl, inside⟩
  exact outcome_post (wsect_steady inside _) fun _ _ kept => ⟨kept, inside⟩

theorem iappendIndex_steady (din : Dinode) :
    outcome (iappendIndex din) (fun _ s' => Steady s s') (fun _ _ => True) s := by
  unfold iappendIndex
  rw [outcome_ite]
  refine ⟨fun _ => outcome_seq takeBlock_steady ?_, fun _ => Steady.refl s⟩
  intro _ s' kept
  exact kept

theorem iappendBlock_steady (din : Dinode) (fbn : Nat) :
    outcome (iappendBlock din fbn) (fun _ s' => Steady s s') (fun _ _ => True) s := by
  unfold iappendBlock
  rw [outcome_ite]
  constructor
  · intro _
    rw [outcome_ite]
    refine ⟨fun _ => outcome_seq takeBlock_steady ?_, fun _ => Steady.refl s⟩
    intro _ s' kept
    exact kept
  · intro _
    refine outcome_seq (iappendIndex_steady din) ?_
    intro din t first
    refine outcome_seq (rsect_steady _) ?_
    rintro indirect t' ⟨rfl, inside⟩
    rw [outcome_ite]
    refine ⟨fun _ => outcome_seq takeBlock_steady ?_, fun _ => first⟩
    intro x u second
    refine outcome_seq (wsect_steady (by rw [second.1]; exact inside) _) ?_
    intro _ v third
    exact (first.trans second).trans third

theorem iappendFrom_steady (fuel : Nat) (din : Dinode) (p : List UInt8) (off : Nat) (s : State) :
    outcome (iappendFrom fuel din p off) (fun _ s' => Steady s s') (fun _ _ => True) s := by
  induction fuel generalizing din p off s with
  | zero => exact Steady.refl s
  | succ fuel ih =>
      rw [iappendFrom]
      dsimp only
      split
      · exact Steady.refl s
      · split
        · trivial
        · refine outcome_seq (iappendBlock_steady _ _) ?_
          rintro ⟨din, x⟩ t first
          refine outcome_seq (rsect_steady _) ?_
          rintro buf t' ⟨rfl, inside⟩
          refine outcome_seq (wsect_steady inside _) ?_
          intro _ u second
          refine outcome_post (ih _ _ _ u) ?_
          intro _ v third
          exact (first.trans second).trans third

theorem iappend_steady (inum : Nat) (p : List UInt8) :
    outcome (iappend inum p) (fun _ s' => Steady s s') (fun _ _ => True) s := by
  unfold iappend
  refine outcome_seq (rinode_steady inum) ?_
  intro din t first
  refine outcome_seq (iappendFrom_steady _ _ _ _ t) ?_
  rintro ⟨din, off⟩ u second
  refine outcome_post (winode_steady inum _) ?_
  rintro _ v ⟨third, -⟩
  exact (first.trans second).trans third

theorem copyFile_steady (inum fuel : Nat) (rest : List UInt8) (s : State) :
    outcome (copyFile inum fuel rest) (fun _ s' => Steady s s') (fun _ _ => True) s := by
  induction fuel generalizing rest s with
  | zero => exact Steady.refl s
  | succ fuel ih =>
      rw [copyFile]
      split
      · exact Steady.refl s
      · refine outcome_seq (iappend_steady inum _) ?_
        intro _ t first
        exact outcome_post (ih _ t) fun _ _ second => first.trans second

/-- `n` is the next inode, and its block is on the disk or just past it. -/
structure Counted (n : Nat) (s : State) : Prop where
  length : s.length = FSSIZE
  next : s.freeinode = n
  bound : n ≤ (FSSIZE - sb.inodestart) * IPB

theorem Counted.steady {n : Nat} {s s' : State} (counted : Counted n s) (kept : Steady s s') :
    Counted n s' :=
  ⟨kept.1.trans counted.length, kept.2.trans counted.next, counted.bound⟩

theorem ialloc_counted {n : Nat} (counted : Counted n s) (type : Int16) :
    outcome (ialloc type) (fun _ s' => Counted (n + 1) s') (fun _ _ => True) s := by
  have bound := counted.bound
  rw [show (FSSIZE - sb.inodestart) * IPB = 31488 by decide] at bound
  have same : word (n + 1) = n + 1 := Nat.mod_eq_of_lt (by omega)
  unfold ialloc
  rw [outcome_bind, outcome_get, outcome_bind, outcome_modify, counted.next, same]
  refine outcome_seq (winode_steady n _) ?_
  rintro _ t ⟨kept, inside⟩
  have block : sb.IBLOCK n = n / 16 + 32 := rfl
  rw [block, seek_small (by omega)] at inside
  have disk : s.length = 2000 := counted.length
  refine ⟨kept.1.trans counted.length, kept.2, ?_⟩
  rw [show (FSSIZE - sb.inodestart) * IPB = 31488 by decide]
  have below : n / 16 + 32 < s.length := inside
  omega

theorem addFile_counted {n : Nat} (counted : Counted n s) (rootino : Nat) (file : Input) :
    outcome (addFile rootino file) (fun _ s' => Counted (n + 1) s') (fun _ _ => True) s := by
  unfold addFile
  dsimp only
  rw [outcome_ite]
  refine ⟨fun _ => trivial, fun _ => ?_⟩
  split
  · trivial
  · refine outcome_seq (ialloc_counted counted T_FILE) ?_
    intro inum t first
    refine outcome_seq (iappend_steady rootino _) ?_
    intro _ u second
    refine outcome_post (copyFile_steady inum _ _ u) ?_
    intro _ v third
    exact (first.steady second).steady third

theorem addFiles_counted (files : List Input) {n : Nat} (counted : Counted n s) (rootino : Nat) :
    outcome (addFiles rootino files) (fun _ s' => Counted (n + files.length) s')
      (fun _ _ => True) s := by
  induction files generalizing n s with
  | nil => exact counted
  | cons file rest ih =>
      rw [addFiles]
      refine outcome_seq (addFile_counted counted rootino file) ?_
      intro _ t next
      refine outcome_post (ih next) ?_
      intro _ u last
      rwa [List.length_cons, ← Nat.add_assoc, Nat.add_right_comm]

theorem main_counted (files : List Input) :
    outcome (main files) (fun _ s => s.freeinode = files.length + 2) (fun _ _ => True) start := by
  have fresh : Counted 1 formatted := ⟨rfl, rfl, by decide⟩
  unfold main
  refine outcome_seq (outcome_mono format_spec (fun _ _ blank => blank) (fun _ _ _ => trivial)) ?_
  rintro _ s rfl
  refine outcome_seq (ialloc_counted fresh T_DIR) ?_
  intro rootino s one
  dsimp only
  rw [outcome_ite]
  refine ⟨fun _ => trivial, fun _ => ?_⟩
  refine outcome_seq (iappend_steady rootino _) ?_
  intro _ t two
  refine outcome_seq (iappend_steady rootino _) ?_
  intro _ u three
  refine outcome_seq (addFiles_counted files ((one.steady two).steady three) rootino) ?_
  intro _ v counted
  unfold fixRoot
  simp only [bind_assoc]
  refine outcome_seq (rinode_steady rootino) ?_
  intro din w first
  refine outcome_seq (winode_steady rootino _) ?_
  rintro _ x ⟨second, -⟩
  rw [outcome_bind, outcome_get]
  unfold balloc
  dsimp only
  rw [outcome_ite]
  refine ⟨fun _ => trivial, fun _ => ?_⟩
  have last := ((counted.steady first).steady second).next
  unfold wsect
  rw [outcome_modify]
  dsimp only
  omega

/-- Whatever the arguments, each has taken one inode. -/
theorem mkfs_freeinode {files : List Input} {s : State} (made : mkfs files = some s) :
    s.freeinode = files.length + 2 := by
  have counted := outcome_of_ok (main_counted files) (finalState_some made)
  exact counted

end Counting

theorem entriesFrom_length (inum : Nat) (files : List Input) :
    (entriesFrom inum files).length = DIRENT * files.length := by
  induction files generalizing inum with
  | nil => rfl
  | cons file rest ih =>
      rw [entriesFrom, List.length_append, putDirent_length, ih, List.length_cons, Nat.mul_succ]
      omega

theorem rootEntries_length (files : List Input) :
    (rootEntries files).length = DIRENT * (files.length + 2) := by
  unfold rootEntries
  rw [List.length_append, List.length_append, putDirent_length, putDirent_length,
    entriesFrom_length, Nat.mul_add]
  omega

section Holes

variable {files : List Input} {s : State}

/-- Every block below the size of a file is mapped to a block of the disk. -/
def NoHoles (s : State) : Prop :=
  ∀ inum, inum < NINODES → (dinodeAt s.sector inum).type ≠ 0 →
    ∀ bn, bn * BSIZE < (dinodeAt s.sector inum).size →
      pointer s.sector (dinodeAt s.sector inum) bn ≠ 0 ∧
        pointer s.sector (dinodeAt s.sector inum) bn < FSSIZE

theorem unit_lt_taken {bn n : Nat} : unit bn < taken n ↔ bn < n := by
  unfold unit taken
  split <;> split <;> omega

/-- The blocks `iappend` took for a file are mapped, the others are not. -/
theorem Finished.pointer_iff (finished : Finished files s) {inum : Nat} (positive : inum ≠ 0)
    (known : inum < files.length + 2) {bn : Nat} (limit : bn < MAXFILE) :
    (pointer s.sector (dinodeAt s.sector inum) bn ≠ 0 ∧
        pointer s.sector (dinodeAt s.sector inum) bn < FSSIZE) ↔
      bn < blocksOf (heldOf files inum).length := by
  obtain ⟨own, lay⟩ := finished.layout
  have mine := lay.stored inum positive known
  refine Iff.trans ?_ unit_lt_taken
  constructor
  · rintro ⟨nonzero, -⟩
    by_contra free
    exact nonzero (mine.vacant bn limit (by unfold extents; omega))
  · intro reached
    have block := lay.owned_apart (mine.mapped bn reached)
    exact ⟨block.1, lt_of_lt_of_le block.2.1 finished.room⟩

theorem below_blocksOf {bn length : Nat} : bn * BSIZE < length ↔ bn < blocksOf length := by
  unfold blocksOf BSIZE
  omega

/-- The blocks below the rounded size of the root directory are those of its entries,
unless the entries fill their last block. -/
theorem root_blocks (length : Nat) :
    (∀ bn, bn * BSIZE < (length / BSIZE + 1) * BSIZE → bn < blocksOf length) ↔
      length % BSIZE ≠ 0 := by
  unfold blocksOf BSIZE
  constructor
  · intro all full
    have last := all (length / 1024) (by omega)
    omega
  · intro partly bn below
    omega

/-- The image has no hole exactly when the root directory does not end at a block
boundary: an entry takes 16 bytes, so when the number of arguments plus the two entries
of the directory itself is no multiple of 64. -/
theorem mkfs_no_holes_iff (files : List Input) (s : State) (few : files.length + 1 < NINODES)
    (made : mkfs files = some s) : NoHoles s ↔ (files.length + 2) % (BSIZE / DIRENT) ≠ 0 := by
  have area : NINODES ≤ areaInodes := by decide
  have finished := mkfs_finished (by omega) made
  have rootKnown : ROOTINO < files.length + 2 := by unfold ROOTINO; omega
  have length : (heldOf files ROOTINO).length = 16 * (files.length + 2) := by
    rw [heldOf_root]
    exact rootEntries_length files
  have size : (dinodeAt s.sector ROOTINO).size =
      ((heldOf files ROOTINO).length / BSIZE + 1) * BSIZE := by
    rw [heldOf_root]
    exact finished.root.2.2
  have boundary : (files.length + 2) % (BSIZE / DIRENT) ≠ 0 ↔
      (heldOf files ROOTINO).length % BSIZE ≠ 0 := by
    rw [length, show BSIZE = 1024 by rfl, show 1024 / DIRENT = 64 by rfl]
    omega
  have short : ∀ bn, bn * BSIZE < (dinodeAt s.sector ROOTINO).size → bn < MAXFILE := by
    intro bn below
    rw [size, length] at below
    unfold NINODES at few
    unfold MAXFILE NINDIRECT NDIRECT BSIZE at *
    omega
  rw [boundary, ← root_blocks, ← size]
  constructor
  · intro whole bn below
    refine (finished.pointer_iff (by decide) rootKnown (short bn below)).mp ?_
    refine whole ROOTINO (by decide) ?_ bn below
    rw [finished.root.1]
    decide
  · intro blocks inum inside allocated bn below
    have used : inum ≠ 0 ∧ inum < files.length + 2 := by
      by_contra unused
      exact allocated (finished.spare inum (by omega) (by omega))
    by_cases root : inum = ROOTINO
    · subst root
      exact (finished.pointer_iff used.1 used.2 (short bn below)).mpr (blocks bn below)
    · have sized := (finished.file inum (by unfold ROOTINO at *; omega) used.2).2.2
      rw [sized] at below
      obtain ⟨own, lay⟩ := finished.layout
      have bounded := (lay.stored inum used.1 used.2).bounded
      have limit : bn < MAXFILE := Nat.lt_of_mul_lt_mul_right (lt_of_lt_of_le below bounded)
      exact (finished.pointer_iff used.1 used.2 limit).mpr (below_blocksOf.mp below)

/-- An argument `a`, an empty file. -/
def emptyFile : Input := ⟨[97], some []⟩

theorem heldOf_empty (n : Nat) {inum : Nat} (other : inum ≠ ROOTINO) :
    heldOf (List.replicate n emptyFile) inum = [] := by
  unfold heldOf
  rw [if_neg other, List.getElem?_replicate]
  split
  · rfl
  · split <;> rfl

/-- Empty files fit as long as there are inodes for them. -/
theorem emptyFiles_acceptable {n : Nat} (few : n + 2 ≤ areaInodes) :
    Acceptable (List.replicate n emptyFile) := by
  have area : areaInodes = 208 := by decide
  have root : (heldOf (List.replicate n emptyFile) ROOTINO).length ≤ 16 * 208 := by
    rw [heldOf_root, rootEntries_length, List.length_replicate]
    unfold DIRENT
    omega
  refine ⟨?_, ?_, ?_⟩
  · intro file inside
    rw [List.eq_of_mem_replicate inside]
    exact ⟨by decide, by decide⟩
  · intro inum _
    by_cases same : inum = ROOTINO
    · rw [same]
      exact le_trans root (by decide)
    · rw [heldOf_empty n same]
      exact Nat.zero_le _
  · have single : total (extents (heldOf (List.replicate n emptyFile)))
        ((List.replicate n emptyFile).length + 2) =
        extents (heldOf (List.replicate n emptyFile)) ROOTINO := by
      unfold total
      refine Finset.sum_eq_single ROOTINO ?_ ?_
      · intro inum _ other
        unfold extents
        rw [heldOf_empty n other]
        rfl
      · intro absent
        refine absurd (Finset.mem_range.mpr ?_) absent
        unfold ROOTINO
        omega
    have bound : extents (heldOf (List.replicate n emptyFile)) ROOTINO ≤ taken (blocksOf (16 * 208)) :=
      taken_mono (blocksOf_mono root)
    rw [single]
    exact le_trans (Nat.add_le_add_left bound _) (by decide)

/-- With 61 arguments the root directory ends inside a block. -/
theorem sixtyOne_no_holes : ∃ s, mkfs (List.replicate 61 emptyFile) = some s ∧ NoHoles s := by
  obtain ⟨s, made⟩ := mkfs_succeeds (by decide) (emptyFiles_acceptable (n := 61) (by decide))
  refine ⟨s, made, (mkfs_no_holes_iff (List.replicate 61 emptyFile) s ?_ made).mpr ?_⟩
  · rw [List.length_replicate]
    decide
  · rw [List.length_replicate]
    decide

/-- With 62 arguments its size reaches into a block that was never taken. -/
theorem sixtyTwo_hole : (List.replicate 62 emptyFile).length + 1 < NINODES ∧
    ∃ s, mkfs (List.replicate 62 emptyFile) = some s ∧ ¬ NoHoles s := by
  have few : (List.replicate 62 emptyFile).length + 1 < NINODES := by
    rw [List.length_replicate]
    decide
  obtain ⟨s, made⟩ := mkfs_succeeds (by decide) (emptyFiles_acceptable (n := 62) (by decide))
  have finished := mkfs_finished (by decide) made
  have blocks : blocksOf (heldOf (List.replicate 62 emptyFile) ROOTINO).length = 1 := by
    rw [heldOf_root, rootEntries_length, List.length_replicate]
    decide
  refine ⟨few, s, made, fun whole => ?_⟩
  have mapped := whole ROOTINO (by decide) (by rw [finished.root.1]; decide) 1 (by
    rw [finished.root.2.2, rootEntries_length, List.length_replicate]
    decide)
  have reached := (finished.pointer_iff (show ROOTINO ≠ 0 by decide) (by decide) (by decide)).mp mapped
  omega

end Holes

section Refusals

variable {files : List Input} {s : State}

/-- A block an inode refers to: its indirect block, or a data block. -/
def Refers (sector : Nat → Block) (din : Dinode) (b : Nat) : Prop :=
  b ≠ 0 ∧ ((∃ i, i ≤ NDIRECT ∧ b = din.addrs i) ∨
    (din.addrs NDIRECT ≠ 0 ∧ ∃ j, j < NINDIRECT ∧
      b = getIndirect (sector (din.addrs NDIRECT)) j))

/-- The image is within the limits the superblock states. -/
structure WithinLimits (s : State) : Prop where
  inums : ∀ inum, 0 < inum → inum < s.freeinode → inum < sb.ninodes
  inodeBlocks : ∀ inum, 0 < inum → inum < s.freeinode →
    sb.inodestart ≤ sb.IBLOCK inum ∧ sb.IBLOCK inum < sb.bmapstart
  blocks : ∀ inum, 0 < inum → inum < s.freeinode →
    ∀ b, Refers s.sector (dinodeAt s.sector inum) b → nmeta ≤ b ∧ b < FSSIZE
  marked : ∀ b, b < BPB → bitSet (s.sector sb.bmapstart) b = decide (b < s.freeblock)
  freeblock : s.freeblock ≤ FSSIZE

theorem Stored.refers {sector : Nat → Block} {own : Nat → Option Owner} {inum : Nat} {din : Dinode}
    {extent : Nat} {bytes : List UInt8} (mine : Stored sector own inum din extent bytes) {b : Nat}
    (refers : Refers sector din b) : ∃ o, own b = some o := by
  have data : ∀ bn, bn < MAXFILE → b = pointer sector din bn → ∃ o, own b = some o := by
    intro bn limit is
    have reached : unit bn < extent := by
      by_contra free
      exact refers.1 (is.trans (mine.vacant bn limit (by omega)))
    exact ⟨_, is ▸ mine.mapped bn reached⟩
  rcases refers.2 with ⟨i, inside, is⟩ | ⟨present, j, inside, is⟩
  · by_cases last : i = NDIRECT
    · subst last
      have far : NDIRECT < extent := by
        by_contra near
        exact refers.1 (is.trans (mine.noIndex (by omega)))
      exact ⟨_, is ▸ mine.index far⟩
    · refine data i (by unfold MAXFILE; omega) ?_
      unfold pointer
      rw [if_pos (by omega), is]
  · refine data (NDIRECT + j) (by unfold MAXFILE; omega) ?_
    unfold pointer
    rw [if_neg (by omega), Nat.add_sub_cancel_left, is]

/-- `mkfs` keeps every limit but one: nothing stops it from handing out more inodes than
the superblock counts. -/
theorem mkfs_within_limits_iff (files : List Input) (s : State) (made : mkfs files = some s) :
    WithinLimits s ↔ files.length + 1 < NINODES := by
  have next := mkfs_freeinode made
  constructor
  · intro limits
    exact limits.inums (files.length + 1) (by omega) (by omega)
  · intro few
    have area : NINODES ≤ areaInodes := by decide
    have finished := mkfs_finished (by omega) made
    obtain ⟨own, lay⟩ := finished.layout
    refine ⟨?_, ?_, ?_, ?_, finished.room⟩
    · intro inum _ below
      have : sb.ninodes = NINODES := rfl
      omega
    · intro inum _ below
      exact iblock_range (by omega)
    · intro inum positive below b refers
      obtain ⟨o, taken⟩ := (lay.stored inum (by omega) (by omega)).refers refers
      have range := lay.owned b o taken
      exact ⟨range.1, lt_of_lt_of_le range.2 finished.room⟩
    · intro b _
      rw [finished.bitmap, bitSet_marked]

theorem noFiles_within_limits : ∃ s, mkfs [] = some s ∧ WithinLimits s := by
  obtain ⟨s, made⟩ := mkfs_succeeds (by decide) (emptyFiles_acceptable (n := 0) (by decide))
  exact ⟨s, made, (mkfs_within_limits_iff [] s made).mpr (by decide)⟩

/-- The 199th argument gets the inode number 200. -/
theorem oneNinetyNine_beyond_ninodes :
    ∃ s, mkfs (List.replicate 199 emptyFile) = some s ∧ ¬ WithinLimits s := by
  obtain ⟨s, made⟩ := mkfs_succeeds (by rw [List.length_replicate]; decide)
    (emptyFiles_acceptable (n := 199) (by decide))
  have next := mkfs_freeinode made
  rw [List.length_replicate] at next
  refine ⟨s, made, fun limits => ?_⟩
  have below := limits.inums 200 (by omega) (by omega)
  exact absurd below (by decide)

end Refusals

end PaddleOs.Mkfs
