import PaddleOs.FsLayout
import Mathlib.Data.List.TakeWhile
import Mathlib.Tactic.Linarith

/-!
Read-over-write facts about the records of `includes/fs.h`: what a stored inode,
directory entry, indirect entry, bitmap bit or run of bytes reads back as, and what
a store leaves alone.
-/

namespace PaddleOs

open Foundation.LittleEndian

theorem getShort_putShort (data : Block) (offset : Nat) (value : Int16) :
    getShort (putShort data offset value) offset = value := by
  have fits : value.toUInt16.toNat < 256 ^ 2 := value.toUInt16.toNat_lt
  rw [getShort, putShort, getLE_putLE_same _ _ _ _ fits]
  apply Int16.toBitVec_inj.mp
  simp [Int16.ofNat]

theorem putAddrs_outside (addrs : Nat → Nat) (offset count : Nat) (data : Block) (index : Nat)
    (outside : index < offset ∨ offset + 4 * count ≤ index) :
    putAddrs addrs offset count data index = data index := by
  induction count with
  | zero => rfl
  | succ count ih =>
      rw [putAddrs, putLE_outside _ _ _ _ _ (by omega), ih (by omega)]

theorem getLE_putAddrs (addrs : Nat → Nat) (offset count : Nat) (data : Block) (i : Nat)
    (inside : i < count) (fits : addrs i < 256 ^ 4) :
    getLE (putAddrs addrs offset count data) (offset + 4 * i) 4 = addrs i := by
  induction count with
  | zero => omega
  | succ count ih =>
      rw [putAddrs]
      by_cases last : i = count
      · rw [last] at fits ⊢
        exact getLE_putLE_same _ _ _ _ fits
      · rw [getLE_putLE_disjoint _ _ _ _ _ _ (by omega), ih (by omega)]

/-- A stored inode changes its own 64 bytes. -/
theorem putDinode_outside (data : Block) (offset : Nat) (dip : Dinode) (index : Nat)
    (outside : index < offset ∨ offset + 64 ≤ index) :
    putDinode data offset dip index = data index := by
  unfold putDinode putShort
  simp only [NDIRECT]
  rw [putAddrs_outside _ _ _ _ _ (by omega), putLE_outside _ _ _ _ _ (by omega),
    putLE_outside _ _ _ _ _ (by omega), putLE_outside _ _ _ _ _ (by omega),
    putLE_outside _ _ _ _ _ (by omega), putLE_outside _ _ _ _ _ (by omega)]

/-- What the fields of an inode can hold on disk. -/
structure Dinode.Fits (dip : Dinode) : Prop where
  size : dip.size < 2 ^ 32
  addrs : ∀ i, dip.addrs i < 2 ^ 32
  beyond : ∀ i, NDIRECT < i → dip.addrs i = 0

theorem getShort_congr (left right : Block) (offset : Nat)
    (agree : ∀ index, offset ≤ index → index < offset + 2 → left index = right index) :
    getShort left offset = getShort right offset := by
  rw [getShort, getShort, getLE_congr left right offset 2 agree]

theorem getShort_putShort_disjoint (data : Block) (offset other : Nat) (value : Int16)
    (apart : other + 2 ≤ offset ∨ offset + 2 ≤ other) :
    getShort (putShort data offset value) other = getShort data other :=
  getShort_congr _ _ _ fun _ low high => putLE_outside _ _ _ _ _ (by omega)

theorem getShort_putLE_disjoint (data : Block) (offset width value other : Nat)
    (apart : other + 2 ≤ offset ∨ offset + width ≤ other) :
    getShort (putLE data offset width value) other = getShort data other :=
  getShort_congr _ _ _ fun _ low high => putLE_outside _ _ _ _ _ (by omega)

theorem getShort_putAddrs (addrs : Nat → Nat) (offset count : Nat) (data : Block) (other : Nat)
    (apart : other + 2 ≤ offset) :
    getShort (putAddrs addrs offset count data) other = getShort data other :=
  getShort_congr _ _ _ fun _ low high => putAddrs_outside _ _ _ _ _ (by omega)

theorem getDinode_putDinode (data : Block) (offset : Nat) (dip : Dinode) (fits : dip.Fits) :
    getDinode (putDinode data offset dip) offset = dip := by
  have size : dip.size < 256 ^ 4 := fits.size
  have short : ∀ (d : Block) (o : Nat), o + 2 ≤ offset + 12 →
      getShort (putAddrs dip.addrs (offset + 12) (NDIRECT + 1) d) o = getShort d o :=
    fun d o apart => getShort_putAddrs _ _ _ _ _ apart
  obtain ⟨type, major, minor, nlink, sz, addrs⟩ := dip
  unfold getDinode putDinode
  simp only [Dinode.mk.injEq]
  refine ⟨?_, ?_, ?_, ?_, ?_, ?_⟩
  · rw [short _ _ (by omega), getShort_putLE_disjoint _ _ _ _ _ (by omega),
      getShort_putShort_disjoint _ _ _ _ (by omega), getShort_putShort_disjoint _ _ _ _ (by omega),
      getShort_putShort_disjoint _ _ _ _ (by omega), getShort_putShort]
  · rw [short _ _ (by omega), getShort_putLE_disjoint _ _ _ _ _ (by omega),
      getShort_putShort_disjoint _ _ _ _ (by omega), getShort_putShort_disjoint _ _ _ _ (by omega),
      getShort_putShort]
  · rw [short _ _ (by omega), getShort_putLE_disjoint _ _ _ _ _ (by omega),
      getShort_putShort_disjoint _ _ _ _ (by omega), getShort_putShort]
  · rw [short _ _ (by omega), getShort_putLE_disjoint _ _ _ _ _ (by omega), getShort_putShort]
  · rw [getLE_congr _ _ _ _ (fun index low high => putAddrs_outside _ _ _ _ index (by omega))]
    exact getLE_putLE_same _ _ _ _ size
  · funext i
    by_cases inside : i ≤ NDIRECT
    · rw [if_pos inside, getLE_putAddrs _ _ _ _ _ (by omega) (fits.addrs i)]
    · rw [if_neg inside]
      exact (fits.beyond i (by omega)).symm

theorem getDinode_congr (left right : Block) (offset : Nat)
    (agree : ∀ index, offset ≤ index → index < offset + 64 → left index = right index) :
    getDinode left offset = getDinode right offset := by
  unfold getDinode
  simp only [Dinode.mk.injEq]
  refine ⟨?_, ?_, ?_, ?_, ?_, ?_⟩
  · exact getShort_congr _ _ _ fun _ low high => agree _ (by omega) (by omega)
  · exact getShort_congr _ _ _ fun _ low high => agree _ (by omega) (by omega)
  · exact getShort_congr _ _ _ fun _ low high => agree _ (by omega) (by omega)
  · exact getShort_congr _ _ _ fun _ low high => agree _ (by omega) (by omega)
  · exact getLE_congr _ _ _ _ fun _ low high => agree _ (by omega) (by omega)
  · funext i
    split
    case isTrue inside =>
      simp only [NDIRECT] at inside
      exact getLE_congr _ _ _ _ fun _ low high => agree _ (by omega) (by omega)
    case isFalse => rfl

/-- Two inodes of one block do not overlap. -/
theorem getDinode_putDinode_other (data : Block) (inum other : Nat) (dip : Dinode)
    (different : inum % IPB ≠ other % IPB) :
    getDinode (putDinode data (dinodeOffset inum) dip) (dinodeOffset other) =
      getDinode data (dinodeOffset other) := by
  refine getDinode_congr _ _ _ fun index low high => putDinode_outside _ _ _ _ ?_
  unfold dinodeOffset at *
  omega

theorem getDinode_fits (data : Block) (offset : Nat) : (getDinode data offset).Fits where
  size := getLE_lt _ _ _
  addrs i := by
    unfold getDinode
    dsimp only
    split
    · exact getLE_lt _ _ _
    · decide
  beyond i past := by
    unfold getDinode
    dsimp only
    rw [if_neg (by omega)]

theorem Dinode.Fits.setAddr {din : Dinode} (fits : din.Fits) {i b : Nat} (inside : i ≤ NDIRECT)
    (small : b < 2 ^ 32) :
    ({ din with addrs := Function.update din.addrs i b } : Dinode).Fits where
  size := fits.size
  addrs j := by
    dsimp only
    by_cases same : j = i
    · rw [same, Function.update_self]; exact small
    · rw [Function.update_of_ne same]; exact fits.addrs j
  beyond j past := by
    dsimp only
    rw [Function.update_of_ne (by omega)]
    exact fits.beyond j past

theorem getIndirect_putIndirect (data : Block) (bn addr : Nat) (fits : addr < 2 ^ 32) :
    getIndirect (putIndirect data bn addr) bn = addr :=
  getLE_putLE_same _ _ _ _ fits

theorem getIndirect_putIndirect_other (data : Block) (bn addr other : Nat) (different : other ≠ bn) :
    getIndirect (putIndirect data bn addr) other = getIndirect data other :=
  getLE_putLE_disjoint _ _ _ _ _ _ (by omega)

theorem getIndirect_lt (data : Block) (bn : Nat) : getIndirect data bn < 2 ^ 32 :=
  getLE_lt _ _ _

theorem getLE_zeroBlock (offset width : Nat) : getLE zeroBlock offset width = 0 := by
  induction width generalizing offset with
  | zero => rfl
  | succ width ih => rw [getLE, ih]; rfl

theorem getIndirect_zeroBlock (bn : Nat) : getIndirect zeroBlock bn = 0 := getLE_zeroBlock _ _

theorem getDinode_zeroBlock (offset : Nat) : (getDinode zeroBlock offset).type = 0 := by
  change Int16.ofNat (getLE zeroBlock offset 2) = 0
  rw [getLE_zeroBlock]
  rfl

/-- The pointer to block `bn` of a file. -/
def pointer (sector : Nat → Block) (din : Dinode) (bn : Nat) : Nat :=
  if bn < NDIRECT then din.addrs bn
  else getIndirect (sector (din.addrs NDIRECT)) (bn - NDIRECT)

theorem putBytes_apply (data : Block) (offset : Nat) (bytes : List UInt8) (index : Nat) :
    putBytes data offset bytes index =
      if offset ≤ index ∧ index < offset + bytes.length then bytes.getD (index - offset) 0
      else data index := by
  induction bytes generalizing data offset with
  | nil => rw [putBytes, if_neg (by simp only [List.length_nil]; omega)]
  | cons byte rest ih =>
      rw [putBytes, ih]
      by_cases first : index = offset
      · subst first
        rw [if_neg (by omega), Function.update_self, if_pos (by simp), Nat.sub_self]
        rfl
      · rw [Function.update_of_ne first]
        by_cases inside : offset + 1 ≤ index ∧ index < offset + 1 + rest.length
        · rw [if_pos inside, if_pos (by simp only [List.length_cons]; omega),
            show index - offset = index - (offset + 1) + 1 by omega, List.getD_cons_succ]
        · rw [if_neg inside, if_neg (by simp only [List.length_cons]; omega)]

theorem getBytes_length (data : Block) (offset count : Nat) :
    (getBytes data offset count).length = count := by
  simp [getBytes]

theorem cutName_length (name : List UInt8) : (cutName name).length ≤ DIRSIZ := by
  calc (cutName name).length
      ≤ (name.take DIRSIZ).length := (List.takeWhile_sublist _).length_le
    _ ≤ DIRSIZ := List.length_take_le _ _

theorem putDirent_length (name : Name) (inum : Nat) : (putDirent name inum).length = DIRENT := by
  have short := cutName_length name
  simp only [putDirent, List.length_append, List.length_cons, List.length_nil,
    List.length_replicate, DIRENT, DIRSIZ] at *
  omega

theorem takeWhile_all {name : List UInt8} (clean : ∀ c ∈ name, c ≠ 0) :
    name.takeWhile (· ≠ 0) = name := by
  rw [List.takeWhile_eq_self_iff]
  intro c inside
  simpa using clean c inside

theorem cutName_clean (name : List UInt8) : ∀ c ∈ cutName name, c ≠ 0 := by
  intro c inside
  have kept := List.mem_takeWhile_imp inside
  simpa using kept

/-- A name padded with NULs is cut back to itself. -/
theorem cutName_padded (name : List UInt8) :
    cutName (cutName name ++ List.replicate (DIRSIZ - (cutName name).length) 0) = cutName name := by
  have short := cutName_length name
  have clean := cutName_clean name
  generalize cutName name = chars at short clean ⊢
  unfold cutName
  rw [List.take_of_length_le (by simp; omega), List.takeWhile_append, takeWhile_all clean]
  simp only [↓reduceIte]
  cases DIRSIZ - chars.length with
  | zero => simp
  | succ count => simp [List.replicate_succ]

theorem getDirent_putDirent (name : Name) (inum : Nat) (fits : inum < 2 ^ 16) :
    getDirent (putDirent name inum) = ⟨inum, cutName name⟩ := by
  unfold getDirent
  simp only [Dirent.mk.injEq]
  constructor
  · simp [putDirent]
    omega
  · exact cutName_padded name

theorem cutName_cutName (name : List UInt8) : cutName (cutName name) = cutName name := by
  have short := cutName_length name
  have clean := cutName_clean name
  generalize cutName name = chars at short clean ⊢
  rw [cutName, List.take_of_length_le short, takeWhile_all clean]

theorem bitMask_and (bi other : Nat) :
    bitMask bi &&& bitMask other = if bi % 8 = other % 8 then bitMask bi else 0 := by
  have table : ∀ i j : Fin 8, (1 <<< UInt8.ofNat i.val) &&& (1 <<< UInt8.ofNat j.val) =
      if i.val = j.val then (1 : UInt8) <<< UInt8.ofNat i.val else 0 := by
    decide
  exact table ⟨bi % 8, Nat.mod_lt _ (by decide)⟩ ⟨other % 8, Nat.mod_lt _ (by decide)⟩

theorem bitMask_ne_zero (bi : Nat) : bitMask bi ≠ 0 := by
  have table : ∀ i : Fin 8, (1 : UInt8) <<< UInt8.ofNat i.val ≠ 0 := by decide
  exact table ⟨bi % 8, Nat.mod_lt _ (by decide)⟩

theorem or_and_mask (x y z : UInt8) : (x ||| y) &&& z = (x &&& z) ||| (y &&& z) := by
  apply UInt8.toBitVec_inj.mp
  exact BitVec.and_or_distrib_right

theorem bitSet_setBit (data : Block) (bi other : Nat) :
    bitSet (setBit data bi) other = (decide (other = bi) || bitSet data other) := by
  unfold bitSet setBit
  by_cases sameByte : other / 8 = bi / 8
  · rw [sameByte, Function.update_self, or_and_mask, bitMask_and]
    by_cases same : other = bi
    · subst same
      simp [bitMask_ne_zero]
    · rw [if_neg (by omega)]
      simp [same]
  · have different : other ≠ bi := fun same => sameByte (by rw [same])
    simp [Function.update_of_ne sameByte, different]

/-- `balloc` of `mkfs` marks the blocks below `used`. -/
theorem bitSet_marked (used b : Nat) :
    bitSet ((List.range used).foldl setBit zeroBlock) b = decide (b < used) := by
  induction used with
  | zero =>
      simp [bitSet, zeroBlock]
  | succ used ih =>
      rw [List.range_succ, List.foldl_append, List.foldl_cons, List.foldl_nil, bitSet_setBit, ih]
      simp only [← Bool.decide_or, decide_eq_decide]
      omega

theorem getSuperblock_putSuperblock (sb : Superblock) (magic : sb.magic < 2 ^ 32)
    (size : sb.size < 2 ^ 32) (nblocks : sb.nblocks < 2 ^ 32) (ninodes : sb.ninodes < 2 ^ 32)
    (nlog : sb.nlog < 2 ^ 32) (logstart : sb.logstart < 2 ^ 32)
    (inodestart : sb.inodestart < 2 ^ 32) (bmapstart : sb.bmapstart < 2 ^ 32) :
    getSuperblock (putSuperblock sb) = sb := by
  obtain ⟨m, s, nb, ni, nl, ls, is, bs⟩ := sb
  unfold getSuperblock putSuperblock
  simp only [Superblock.mk.injEq]
  refine ⟨?_, ?_, ?_, ?_, ?_, ?_, ?_, ?_⟩
  all_goals
    repeat rw [getLE_putLE_disjoint _ _ _ _ _ _ (by omega)]
    exact getLE_putLE_same _ _ _ _ (by assumption)

end PaddleOs
