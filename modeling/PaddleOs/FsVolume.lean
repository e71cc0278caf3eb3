import PaddleOs.FsSlots
import PaddleOs.Volume

/-!
What the file-system functions do to a volume. The functions run over blocks as `bread`
returns them together with the numbers of the blocks passed to `log_write`. A state
represents a volume when its bitmap, its data blocks and its inodes are those of the
volume; the copy of an inode in memory counts before the one on disk. A copy that has
not been written back yet is dirty.
-/

namespace PaddleOs

open Foundation.Outcome Foundation.View

/-- The blocks of the file system, and those logged since `begin_op`. -/
structure Journal where
  block : Nat → Block
  logged : List Nat
  outstanding : Int

instance : BlockLayer Journal where
  Handle := Nat
  bread _ blockno := pure blockno
  data s blockno := s.block blockno
  setData blockno data := modify fun s => { s with block := Function.update s.block blockno data }
  logWrite blockno := modify fun s => { s with logged := blockno :: s.logged }
  brelse _ := pure ()
  beginOp := modify fun s => { s with logged := [], outstanding := s.outstanding + 1 }
  endOp := modify fun s => { s with outstanding := s.outstanding - 1 }

namespace Fs

instance : CountingLayer Journal where
  outstanding := Journal.outstanding
  bread_keeps _ _ := keeps_pure _
  setData_keeps _ _ := keeps_modify fun _ => rfl
  logWrite_keeps _ := keeps_modify fun _ => rfl
  brelse_keeps _ := keeps_pure _
  beginOp_opens := fun _ => rfl
  endOp_closes := fun _ => rfl

instance : OwnStops Journal where
  bread _ _ := avoids_pure _
  setData _ _ := avoids_modify _
  logWrite _ := avoids_modify _
  brelse _ := avoids_pure _
  beginOp := avoids_modify _
  endOp := avoids_modify _

abbrev JState := State Journal

/-- The inode `i` as it is on disk. -/
def diskNode (s : JState) (i : Nat) : Dinode :=
  getDinode (s.store.block (s.sb.IBLOCK i)) (dinodeOffset i)

/-- The slot holds a copy of inode `i`. -/
def Loaded (s : JState) (k : Slot) (i : Nat) : Prop :=
  0 < (s.inode k).ref ∧ (s.inode k).valid = true ∧ (s.inode k).inum = i

structure Represents (dirty : Slot → Prop) (s : JState) (v : Volume) : Prop where
  sb : s.sb = v.sb
  sane : v.sb.Sane
  metadata : ∀ b, b < v.sb.dataStart → v.used b = true
  bitmap : ∀ b, b < v.sb.size → bitSet (s.store.block (v.sb.BBLOCK b)) (b % BPB) = v.used b
  block : ∀ b, v.sb.dataStart ≤ b → b < v.sb.size → s.store.block b = v.block b
  counts : ∀ k, 0 ≤ (s.inode k).ref
  root : ∀ k, 0 < (s.inode k).ref → (s.inode k).dev = ROOTDEV
  numbered : ∀ k, 0 < (s.inode k).ref → (s.inode k).inum < v.sb.ninodes
  unique : ∀ j k, 0 < (s.inode j).ref → 0 < (s.inode k).ref →
    (s.inode j).inum = (s.inode k).inum → j = k
  copy : ∀ k i, Loaded s k i → (s.inode k).toDinode = v.node i
  allocated : ∀ k i, Loaded s k i → ¬ dirty k → (v.node i).type ≠ 0
  synced : ∀ i, i < v.sb.ninodes → (∀ k, Loaded s k i → ¬ dirty k) → diskNode s i = v.node i
  fits : ∀ i, (v.node i).Fits

def clean : Slot → Prop := fun _ => False

section Steps

def State.putBlock (s : JState) (b : Nat) (data : Block) : JState :=
  { s with store := { s.store with block := Function.update s.store.block b data } }

def State.note (s : JState) (b : Nat) : JState :=
  { s with store := { s.store with logged := b :: s.store.logged } }

variable {fail : Stop → JState → Prop} {s : JState}

theorem bread_step {dev b : Nat} {post : Nat → JState → Prop} (next : post b s) :
    outcome (bread (W := Journal) dev b) post fail s := next

theorem data_step {b : Nat} {post : Block → JState → Prop} (next : post (s.store.block b) s) :
    outcome (data (W := Journal) b) post fail s := next

theorem setData_step {b : Nat} {data : Block} {post : Unit → JState → Prop}
    (next : post () (s.putBlock b data)) :
    outcome (setData (W := Journal) b data) post fail s := next

theorem logWrite_step {b : Nat} {post : Unit → JState → Prop} (next : post () (s.note b)) :
    outcome (logWrite (W := Journal) b) post fail s := next

theorem brelse_step {b : Nat} {post : Unit → JState → Prop} (next : post () s) :
    outcome (brelse (W := Journal) b) post fail s := next

theorem inode_step {k : Slot} {post : Inode → JState → Prop} (next : post (s.inode k) s) :
    outcome (inode k) post fail s := next

theorem modifyInode_step {k : Slot} {change : Inode → Inode} {post : Unit → JState → Prop}
    (next : post () (s.setInode k (change (s.inode k)))) :
    outcome (modifyInode k change) post fail s := next

end Steps

section Representation

variable {dirty : Slot → Prop} {s : JState} {v : Volume}

theorem Represents.note (rep : Represents dirty s v) (b : Nat) : Represents dirty (s.note b) v :=
  { rep with }

/-- A bitmap block lies before the data blocks. -/
theorem BBLOCK_lt (sb : Superblock) {b : Nat} (inside : b < sb.size) : sb.BBLOCK b < sb.dataStart := by
  have below : b / BPB ≤ sb.size / BPB := Nat.div_le_div_right (Nat.le_of_lt inside)
  unfold Superblock.BBLOCK Superblock.dataStart
  omega

theorem bmapstart_le (sb : Superblock) (b : Nat) : sb.bmapstart ≤ sb.BBLOCK b := Nat.le_add_left ..

theorem putBlock_same (b : Nat) (data : Block) : (s.putBlock b data).store.block b = data :=
  Function.update_self ..

theorem putBlock_other {b c : Nat} (data : Block) (apart : c ≠ b) :
    (s.putBlock b data).store.block c = s.store.block c := Function.update_of_ne apart ..

/-- A write outside the inode area leaves the inodes on disk alone. -/
theorem diskNode_putBlock {b i : Nat} (data : Block) (apart : s.sb.IBLOCK i ≠ b) :
    diskNode (s.putBlock b data) i = diskNode s i := by
  unfold diskNode
  rw [putBlock_other (b := b) data (c := (s.putBlock b data).sb.IBLOCK i) apart]
  rfl

theorem Represents.putData (rep : Represents dirty s v) {b : Nat} (data : Block)
    (low : v.sb.dataStart ≤ b) (high : b < v.sb.size) :
    Represents dirty (s.putBlock b data) (v.setBlock b data) where
  sb := rep.sb
  sane := rep.sane
  metadata := rep.metadata
  bitmap c inside := by
    have before := BBLOCK_lt v.sb (b := c) inside
    change bitSet ((s.putBlock b data).store.block (v.sb.BBLOCK c)) _ = v.used c
    rw [putBlock_other _ (by omega)]
    exact rep.bitmap c inside
  block c first last := by
    by_cases same : c = b
    · subst same
      rw [putBlock_same, Volume.setBlock_same]
    · rw [putBlock_other _ same, Volume.setBlock_other _ _ same]
      exact rep.block c first last
  counts := rep.counts
  root := rep.root
  numbered := rep.numbered
  unique := rep.unique
  copy := rep.copy
  allocated := rep.allocated
  synced i inside undirty := by
    have before := rep.sane.inodes i inside
    have start := v.sb.bmapstart_lt
    rw [diskNode_putBlock _ (by rw [rep.sb]; omega)]
    exact rep.synced i inside undirty
  fits := rep.fits

theorem Represents.putBit (rep : Represents dirty s v) {b : Nat} {data : Block} (mark : Bool)
    (inside : b < v.sb.size) (first : mark = false → v.sb.dataStart ≤ b)
    (bits : ∀ n, bitSet data n =
      if n = b % BPB then mark else bitSet (s.store.block (v.sb.BBLOCK b)) n) :
    Represents dirty (s.putBlock (v.sb.BBLOCK b) data)
      { v with used := Function.update v.used b mark } where
  sb := rep.sb
  sane := rep.sane
  metadata c low := by
    dsimp only at low ⊢
    by_cases same : c = b
    · subst same
      rw [Function.update_self]
      cases mark with
      | true => rfl
      | false =>
          have high := first rfl
          omega
    · rw [Function.update_of_ne same]
      exact rep.metadata c low
  bitmap c within := by
    change bitSet ((s.putBlock (v.sb.BBLOCK b) data).store.block (v.sb.BBLOCK c)) _ =
      Function.update v.used b mark c
    by_cases same : c = b
    · subst same
      rw [putBlock_same, bits, if_pos rfl, Function.update_self]
    · rw [Function.update_of_ne same, ← rep.bitmap c within]
      by_cases shared : v.sb.BBLOCK c = v.sb.BBLOCK b
      · rw [shared, putBlock_same, bits, if_neg]
        intro equal
        unfold Superblock.BBLOCK at shared
        have left := Nat.div_add_mod c BPB
        have right := Nat.div_add_mod b BPB
        have quotient : c / BPB = b / BPB := by omega
        rw [quotient, equal] at left
        exact same (left.symm.trans right)
      · rw [putBlock_other _ shared]
  block c low high := by
    have before := BBLOCK_lt v.sb inside
    rw [putBlock_other _ (by change v.sb.dataStart ≤ c at low; omega)]
    exact rep.block c low high
  counts := rep.counts
  root := rep.root
  numbered := rep.numbered
  unique := rep.unique
  copy := rep.copy
  allocated := rep.allocated
  synced i within undirty := by
    have before := rep.sane.inodes i within
    have start := bmapstart_le v.sb b
    rw [diskNode_putBlock _ (by rw [rep.sb]; omega)]
    exact rep.synced i within undirty
  fits := rep.fits

theorem Represents.weaken (rep : Represents dirty s v) {more : Slot → Prop}
    (wider : ∀ k, dirty k → more k) : Represents more s v :=
  { rep with
    allocated := fun k i loaded undirty => rep.allocated k i loaded fun is => undirty (wider k is)
    synced := fun i inside undirty =>
      rep.synced i inside fun k loaded is => undirty k loaded (wider k is) }

/-- A dirty copy that is like the inode on disk again. -/
theorem Represents.settle (rep : Represents dirty s v)
    (written : ∀ k i, Loaded s k i → dirty k → diskNode s i = v.node i ∧ (v.node i).type ≠ 0) :
    Represents clean s v :=
  { rep with
    allocated := fun k i loaded _ => by
      by_cases is : dirty k
      · exact (written k i loaded is).2
      · exact rep.allocated k i loaded is
    synced := fun i inside _ => by
      by_cases stale : ∃ k, Loaded s k i ∧ dirty k
      · obtain ⟨k, loaded, is⟩ := stale
        exact (written k i loaded is).1
      · exact rep.synced i inside fun k loaded is => stale ⟨k, loaded, is⟩ }

theorem setInode_same (k : Slot) (ip : Inode) : (s.setInode k ip).inode k = ip :=
  Function.update_self ..

theorem setInode_other {j k : Slot} (ip : Inode) (apart : j ≠ k) :
    (s.setInode k ip).inode j = s.inode j := Function.update_of_ne apart ..

/-- What a store into one slot has to respect. -/
theorem Represents.setInode {more : Slot → Prop} (rep : Represents dirty s v) {k : Slot} {ip : Inode}
    {d : Nat → Dinode} (count : 0 ≤ ip.ref)
    (root : 0 < ip.ref → ip.dev = ROOTDEV)
    (numbered : 0 < ip.ref → ip.inum < v.sb.ninodes)
    (unique : 0 < ip.ref → ∀ j, j ≠ k → 0 < (s.inode j).ref → (s.inode j).inum ≠ ip.inum)
    (copy : ∀ j i, Loaded (s.setInode k ip) j i →
      ((s.setInode k ip).inode j).toDinode = d i ∧ (¬ more j → (d i).type ≠ 0))
    (synced : ∀ i, i < v.sb.ninodes → (∀ j, Loaded (s.setInode k ip) j i → ¬ more j) →
      diskNode s i = d i)
    (fits : ∀ i, (d i).Fits) : Represents more (s.setInode k ip) { v with node := d } where
  sb := rep.sb
  sane := rep.sane
  metadata := rep.metadata
  bitmap := rep.bitmap
  block := rep.block
  counts j := by
    by_cases same : j = k
    · rw [same, setInode_same]
      exact count
    · rw [setInode_other _ same]
      exact rep.counts j
  root j used := by
    by_cases same : j = k
    · rw [same, setInode_same] at used ⊢
      exact root used
    · rw [setInode_other _ same] at used ⊢
      exact rep.root j used
  numbered j used := by
    by_cases same : j = k
    · rw [same, setInode_same] at used ⊢
      exact numbered used
    · rw [setInode_other _ same] at used ⊢
      exact rep.numbered j used
  unique j l left right equal := by
    by_cases here : j = k
    · by_cases there : l = k
      · rw [here, there]
      · rw [here, setInode_same] at left equal
        rw [setInode_other _ there] at right equal
        exact absurd equal.symm (unique left l there right)
    · by_cases there : l = k
      · rw [there, setInode_same] at right equal
        rw [setInode_other _ here] at left equal
        exact absurd equal (unique right j here left)
      · rw [setInode_other _ here] at left equal
        rw [setInode_other _ there] at right equal
        exact rep.unique j l left right equal
  copy j i loaded := (copy j i loaded).1
  allocated j i loaded undirty := (copy j i loaded).2 undirty
  synced := synced
  fits := fits

theorem loaded_setInode_other {j k : Slot} {i : Nat} {ip : Inode} (apart : j ≠ k) :
    Loaded (s.setInode k ip) j i ↔ Loaded s j i := by
  unfold Loaded
  rw [setInode_other _ apart]

/-- The count or the lock of a slot changes, its inode stays where it is. -/
theorem Represents.touch (rep : Represents dirty s v) {k : Slot} {ip : Inode}
    (used : 0 < (s.inode k).ref) (count : 0 ≤ ip.ref) (same : ip.toDinode = (s.inode k).toDinode)
    (dev : ip.dev = (s.inode k).dev) (inum : ip.inum = (s.inode k).inum)
    (valid : ip.valid = (s.inode k).valid) (tidy : ip.ref = 0 → ¬ dirty k) :
    Represents dirty (s.setInode k ip) v := by
  refine rep.setInode (d := v.node) count ?_ ?_ ?_ ?_ ?_ rep.fits
  · intro _
    rw [dev]
    exact rep.root k used
  · intro _
    rw [inum]
    exact rep.numbered k used
  · intro _ j apart other equal
    rw [inum] at equal
    exact apart (rep.unique j k other used equal)
  · intro j i loaded
    by_cases here : j = k
    · subst here
      obtain ⟨-, isValid, isInum⟩ := loaded
      rw [setInode_same] at isValid isInum ⊢
      have was : Loaded s j i := ⟨used, valid.symm.trans isValid, inum.symm.trans isInum⟩
      exact ⟨same.trans (rep.copy j i was), rep.allocated j i was⟩
    · have was := (loaded_setInode_other here).mp loaded
      rw [setInode_other _ here]
      exact ⟨rep.copy j i was, rep.allocated j i was⟩
  · intro i inside undirty
    refine rep.synced i inside fun j loaded => ?_
    by_cases here : j = k
    · subst here
      by_cases gone : ip.ref = 0
      · exact tidy gone
      · refine undirty j ⟨?_, ?_, ?_⟩
        · rw [setInode_same]
          omega
        · rw [setInode_same, valid]
          exact loaded.2.1
        · rw [setInode_same, inum]
          exact loaded.2.2
    · exact undirty j ((loaded_setInode_other here).mpr loaded)

/-- The fields of a loaded inode change. -/
theorem Represents.edit (rep : Represents dirty s v) {k : Slot} {i : Nat} (loaded : Loaded s k i)
    (mine : dirty k) {d : Dinode} (fits : d.Fits) :
    Represents dirty (s.setInode k { s.inode k with toDinode := d }) (v.setNode i d) := by
  obtain ⟨used, isValid, isInum⟩ := loaded
  refine rep.setInode (rep.counts k) (rep.root k) (rep.numbered k) ?_ ?_ ?_ ?_
  · intro _ j apart other equal
    exact apart (rep.unique j k other used equal)
  · intro j l now
    by_cases here : j = k
    · subst here
      rw [setInode_same]
      have which : l = i := by
        have is := now.2.2
        rw [setInode_same] at is
        exact is.symm.trans isInum
      subst which
      rw [Function.update_self]
      exact ⟨rfl, fun undirty => absurd mine undirty⟩
    · have was := (loaded_setInode_other here).mp now
      have other : l ≠ i := by
        intro equal
        refine here (rep.unique j k was.1 used ?_)
        rw [was.2.2, isInum, equal]
      rw [setInode_other _ here, Function.update_of_ne other]
      exact ⟨rep.copy j l was, rep.allocated j l was⟩
  · intro l inside undirty
    have other : l ≠ i := by
      intro equal
      refine undirty k ⟨?_, ?_, ?_⟩ mine
      · rw [setInode_same]
        exact used
      · rw [setInode_same]
        exact isValid
      · rw [setInode_same, equal]
        exact isInum
    rw [Function.update_of_ne other]
    refine rep.synced l inside fun j was => ?_
    by_cases here : j = k
    · subst here
      exact absurd (was.2.2.symm.trans isInum) other
    · exact undirty j ((loaded_setInode_other here).mpr was)
  · intro l
    by_cases here : l = i
    · rw [here, Function.update_self]
      exact fits
    · rw [Function.update_of_ne here]
      exact rep.fits l

end Representation

end Fs

end PaddleOs
