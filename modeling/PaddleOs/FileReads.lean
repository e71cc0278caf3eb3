import PaddleOs.FsRecords
import PaddleOs.Directory
import Mathlib.Data.List.GetD

/-!
Reading a file whose blocks are mapped. On such a range `bmap` only looks blocks up,
so `readi` and the searches of a directory leave the disk as it is and return the
bytes the blocks hold.
-/

namespace PaddleOs.Fs

open Foundation.Outcome

section Blocks

variable {α : Type} {fail : Stop → State Image → Prop} {t : State Image}

theorem outcome_bread {dev blockno : Nat} {post : Nat → State Image → Prop}
    (read : post blockno t) : outcome (bread dev blockno) post fail t := read

theorem outcome_data {blockno : Nat} {post : Block → State Image → Prop}
    (read : post (t.store.block blockno) t) :
    outcome (data (W := Image) blockno) post fail t := read

theorem outcome_brelse {blockno : Nat} {post : Unit → State Image → Prop} (released : post () t) :
    outcome (brelse (W := Image) blockno) post fail t := released

theorem outcome_inode {k : Slot} {post : Inode → State Image → Prop} (read : post (t.inode k) t) :
    outcome (inode k) post fail t := read

end Blocks

/-- Block `bn` of the file is on the disk. -/
def Mapped (block : Nat → Block) (din : Dinode) (bn : Nat) : Prop :=
  pointer block din bn ≠ 0 ∧ (NDIRECT ≤ bn → din.addrs NDIRECT ≠ 0)

/-- The file of an inode begins with `bytes`. -/
structure Holds (block : Nat → Block) (din : Dinode) (bytes : List UInt8) : Prop where
  bounded : bytes.length ≤ MAXFILE * BSIZE
  mapped : ∀ bn, bn * BSIZE < bytes.length → Mapped block din bn
  content : ∀ bn j, j < BSIZE → bn * BSIZE + j < bytes.length →
    block (pointer block din bn) j = bytes.getD (bn * BSIZE + j) 0

section Reads

variable {t : State Image} {k : Slot} {bn : Nat} {bytes : List UInt8}

theorem bmap_mapped (limit : bn < MAXFILE)
    (mapped : Mapped t.store.block (t.inode k).toDinode bn) :
    outcome (bmap k bn)
      (fun addr t' => addr = pointer t.store.block (t.inode k).toDinode bn ∧ t' = t)
      (fun _ _ => False) t := by
  have direct : ∀ i, (t.inode k).addrs i ≠ 0 →
      outcome (bmapDirect k i) (fun addr t' => addr = (t.inode k).addrs i ∧ t' = t)
        (fun _ _ => False) t := by
    intro i present
    unfold bmapDirect
    rw [outcome_bind]
    refine outcome_inode ?_
    rw [if_neg present, outcome_pure]
    exact ⟨rfl, rfl⟩
  obtain ⟨nonzero, index⟩ := mapped
  unfold bmap
  by_cases near : bn < NDIRECT
  · have is : pointer t.store.block (t.inode k).toDinode bn = (t.inode k).addrs bn := if_pos near
    rw [is] at nonzero ⊢
    rw [if_pos near]
    exact direct bn nonzero
  · have is : pointer t.store.block (t.inode k).toDinode bn =
        getIndirect (t.store.block ((t.inode k).addrs NDIRECT)) (bn - NDIRECT) := if_neg near
    have present := index (by omega)
    rw [is] at nonzero ⊢
    rw [if_neg near, if_pos (by unfold MAXFILE at limit; omega)]
    unfold bmapIndirect
    refine outcome_seq (direct NDIRECT present) ?_
    rintro addr t' ⟨rfl, rfl⟩
    rw [if_neg present, outcome_bind]
    refine outcome_inode ?_
    rw [outcome_bind]
    refine outcome_bread ?_
    rw [outcome_bind]
    refine outcome_data ?_
    rw [if_neg nonzero, outcome_bind]
    refine outcome_brelse ?_
    rw [outcome_pure]
    exact ⟨rfl, rfl⟩

/-- `ilock` of an inode that is not in memory yet. -/
theorem ilock_loads (ref : 1 ≤ (t.inode k).ref) (unlocked : (t.inode k).locked = false)
    (fresh : (t.inode k).valid = false) {dip : Dinode}
    (place : getDinode (t.store.block (t.sb.IBLOCK (t.inode k).inum))
      (dinodeOffset (t.inode k).inum) = dip) (allocated : dip.type ≠ 0) :
    outcome (ilock k) (fun _ t' => t' = t.setInode k
      { t.inode k with toDinode := dip, locked := true, valid := true }) (fun _ _ => False) t := by
  unfold ilock acquiresleep
  rw [outcome_bind]
  refine outcome_inode ?_
  rw [if_neg (by omega)]
  simp only [bind_assoc]
  rw [outcome_bind]
  refine outcome_inode ?_
  rw [unlocked, if_neg (by decide)]
  unfold modifyInode
  rw [outcome_bind, outcome_modify, outcome_bind]
  refine outcome_inode ?_
  have same : ((t.setInode k { t.inode k with locked := true }).inode k) =
      { t.inode k with locked := true } := Function.update_self _ _ _
  rw [same, fresh]
  dsimp only
  rw [Bool.not_false, if_pos rfl, outcome_bind, outcome_get, outcome_bind]
  refine outcome_bread ?_
  rw [outcome_bind]
  refine outcome_data ?_
  have read : getDinode ((t.setInode k { t.inode k with locked := true }).store.block
      ((t.setInode k { t.inode k with locked := true }).sb.IBLOCK (t.inode k).inum))
      (dinodeOffset (t.inode k).inum) = dip := place
  rw [read, outcome_bind, outcome_modify, outcome_bind]
  refine outcome_brelse ?_
  rw [outcome_bind, outcome_modify, if_neg allocated, outcome_pure]
  unfold State.setInode
  simp only [Function.update_self, Function.update_idem]

theorem getBytes_eq (data : Block) (offset count : Nat) (bytes : List UInt8) (off : Nat)
    (inside : off + count ≤ bytes.length)
    (same : ∀ i, i < count → data (offset + i) = bytes.getD (off + i) 0) :
    getBytes data offset count = (bytes.drop off).take count := by
  refine List.ext_getElem ?_ ?_
  · rw [getBytes_length, List.length_take, List.length_drop]
    omega
  · intro i low high
    rw [getBytes_length] at low
    have reached : off + i < bytes.length := by omega
    simp only [getBytes, List.getElem_map, List.getElem_range, List.getElem_take,
      List.getElem_drop]
    rw [same i low, List.getD_eq_getElem _ _ reached]

/-- The loop of `readi` within the bytes of the file. -/
theorem readiFrom_holds (holds : Holds t.store.block (t.inode k).toDinode bytes) (n fuel tot off : Nat)
    (read : List UInt8) (enough : n - tot ≤ fuel) (below : tot ≤ n)
    (inside : off + (n - tot) ≤ bytes.length) :
    outcome (readiFrom k kernelAccepts n fuel tot off read)
      (fun r t' => r = (asInt n, read ++ (bytes.drop off).take (n - tot)) ∧ t' = t)
      (fun _ _ => False) t := by
  induction fuel generalizing tot off read with
  | zero =>
      have all : tot = n := by omega
      subst all
      rw [readiFrom, outcome_pure, Nat.sub_self, List.take_zero, List.append_nil]
      exact ⟨rfl, rfl⟩
  | succ fuel ih =>
      rw [readiFrom, outcome_ite]
      constructor
      · intro more
        have block : off / BSIZE * BSIZE ≤ off := Nat.div_mul_le_self _ _
        have split : off / BSIZE * BSIZE + off % BSIZE = off := Nat.div_add_mod' off BSIZE
        have small : off % BSIZE < BSIZE := Nat.mod_lt _ (by decide)
        have within : off / BSIZE * BSIZE < bytes.length := by omega
        have limit : off / BSIZE < MAXFILE :=
          Nat.lt_of_mul_lt_mul_right (lt_of_lt_of_le within holds.bounded)
        have mapped := holds.mapped _ within
        refine outcome_seq (bmap_mapped limit mapped) ?_
        rintro addr t' ⟨rfl, rfl⟩
        rw [if_neg mapped.1, outcome_bind]
        refine outcome_inode ?_
        rw [outcome_bind]
        refine outcome_bread ?_
        dsimp only
        rw [outcome_bind]
        refine outcome_data ?_
        rw [outcome_bind]
        refine outcome_brelse ?_
        generalize width : min (n - tot) (BSIZE - off % BSIZE) = m
        have here : getBytes (t'.store.block
            (pointer t'.store.block (t'.inode k).toDinode (off / BSIZE))) (off % BSIZE) m =
            (bytes.drop off).take m := by
          refine getBytes_eq _ _ _ _ _ (by omega) fun i low => ?_
          rw [holds.content _ _ (by omega) (by omega)]
          congr 1
          omega
        rw [here]
        have rest := ih (tot + m) (off + m) (read ++ (bytes.drop off).take m)
          (by omega) (by omega) (by omega)
        have joined : (bytes.drop off).take m ++ (bytes.drop (off + m)).take (n - (tot + m)) =
            (bytes.drop off).take (n - tot) := by
          rw [← List.drop_drop, ← List.take_add]
          congr 1
          omega
        rw [List.append_assoc, joined] at rest
        exact rest
      · intro done
        have all : tot = n := by omega
        subst all
        rw [outcome_pure, Nat.sub_self, List.take_zero, List.append_nil]
        exact ⟨rfl, rfl⟩

/-- `readi` of a range of the file. -/
theorem readi_holds (holds : Holds t.store.block (t.inode k).toDinode bytes) (off n : Nat)
    (start : off ≤ (t.inode k).size) (small : off + n < 2 ^ 32)
    (inside : min (off + n) (t.inode k).size ≤ bytes.length) :
    outcome (readi k kernelAccepts off n)
      (fun r t' => r = (asInt (min n ((t.inode k).size - off)),
        (bytes.drop off).take (min n ((t.inode k).size - off))) ∧ t' = t)
      (fun _ _ => False) t := by
  unfold readi
  rw [outcome_bind]
  refine outcome_inode ?_
  rw [Nat.mod_eq_of_lt small, if_neg (by omega)]
  have width : (if off + n > (t.inode k).size then (t.inode k).size - off else n) =
      min n ((t.inode k).size - off) := by
    split <;> omega
  dsimp only
  rw [width]
  have run := readiFrom_holds holds (min n ((t.inode k).size - off))
    (min n ((t.inode k).size - off)) 0 off [] (by omega) (Nat.zero_le _) (by omega)
  rw [List.nil_append, Nat.sub_zero] at run
  exact run

theorem readDirent_holds (holds : Holds t.store.block (t.inode k).toDinode bytes) {off : Nat}
    (panic : Stop) (inside : off + DIRENT ≤ bytes.length) (size : off + DIRENT ≤ (t.inode k).size) :
    outcome (readDirent k off panic)
      (fun de t' => de = getDirent ((bytes.drop off).take DIRENT) ∧ t' = t) (fun _ _ => False) t := by
  have bounded := holds.bounded
  have limit : MAXFILE * BSIZE < 2 ^ 32 := by decide
  have width : min DIRENT ((t.inode k).size - off) = DIRENT := by omega
  have read := readi_holds holds off DIRENT (by omega) (by omega) (by omega)
  rw [width] at read
  unfold readDirent
  refine outcome_seq read ?_
  rintro ⟨r, found⟩ t' ⟨is, rfl⟩
  cases is
  dsimp only
  rw [if_neg (by decide), outcome_pure]
  exact ⟨rfl, rfl⟩

/-- `iget` finds a slot when the inode is cached or a slot is unused. -/
theorem iget_slot {dev inum : Nat} (room : t.cached dev inum ≠ none ∨ t.empty ≠ none) :
    outcome (iget dev inum) (fun slot t' => (t'.inode slot).inum = inum ∧
      (t'.inode slot).dev = dev ∧ t'.store = t.store) (fun _ _ => False) t := by
  unfold iget
  rw [outcome_bind, outcome_get]
  cases hit : t.cached dev inum with
  | some slot =>
      have match_ := List.find?_some hit
      have is := of_decide_eq_true match_
      dsimp only
      rw [outcome_bind]
      unfold modifyInode State.setInode
      rw [outcome_modify, outcome_pure]
      dsimp only
      rw [Function.update_self]
      exact ⟨is.2.2, is.2.1, rfl⟩
  | none =>
      dsimp only
      cases free : t.empty with
      | none =>
          rcases room with cached | empty
          · exact absurd hit cached
          · exact absurd free empty
      | some slot =>
          dsimp only
          rw [outcome_bind]
          unfold modifyInode State.setInode
          rw [outcome_modify, outcome_pure]
          dsimp only
          rw [Function.update_self]
          exact ⟨rfl, rfl, rfl⟩

/-- `dirlookup` up to the entry `i`, the first one that matches. -/
theorem dirlookupFrom_holds (holds : Holds t.store.block (t.inode k).toDinode bytes)
    (name : Name) (fuel first i : Nat) (enough : i < first + fuel) (before : first ≤ i)
    (inside : DIRENT * (i + 1) ≤ bytes.length) (size : DIRENT * (i + 1) ≤ (t.inode k).size)
    (others : ∀ j, first ≤ j → j < i →
      ¬ ((getDirent ((bytes.drop (DIRENT * j)).take DIRENT)).inum ≠ 0 ∧
        namecmp name (getDirent ((bytes.drop (DIRENT * j)).take DIRENT)).name))
    {inum : Nat} (found : getDirent ((bytes.drop (DIRENT * i)).take DIRENT) =
      ⟨inum, cutName name⟩) (used : inum ≠ 0)
    (room : t.cached (t.inode k).dev inum ≠ none ∨ t.empty ≠ none) :
    outcome (dirlookupFrom k name fuel (DIRENT * first))
      (fun r t' => ∃ slot, r = some (slot, DIRENT * i) ∧ (t'.inode slot).inum = inum ∧
        (t'.inode slot).dev = (t.inode k).dev ∧ t'.store = t.store) (fun _ _ => False) t := by
  induction fuel generalizing first with
  | zero => omega
  | succ fuel ih =>
      have reach : DIRENT * (first + 1) ≤ DIRENT * (i + 1) := Nat.mul_le_mul_left _ (by omega)
      have next : DIRENT * (first + 1) = DIRENT * first + DIRENT := Nat.mul_succ _ _
      have entry : 0 < DIRENT := by decide
      rw [dirlookupFrom, outcome_bind]
      refine outcome_inode ?_
      rw [if_pos (by omega)]
      refine outcome_seq (readDirent_holds holds .dirlookupRead (by omega) (by omega)) ?_
      rintro de t' ⟨rfl, rfl⟩
      by_cases here : first = i
      · subst here
        have same : namecmp name (cutName name) = true := by
          unfold namecmp
          rw [cutName_cutName]
          exact decide_eq_true rfl
        rw [found, if_pos ⟨used, same⟩, outcome_bind]
        refine outcome_inode ?_
        dsimp only
        refine outcome_seq (iget_slot room) ?_
        rintro slot t'' ⟨isInum, isDev, store⟩
        rw [outcome_pure]
        exact ⟨slot, rfl, isInum, isDev, store⟩
      · rw [if_neg (others first (le_refl _) (by omega)), ← next]
        exact ih (first + 1) (by omega) (by omega) (fun j low high => others j (by omega) high)

end Reads

end PaddleOs.Fs
