import PaddleOs.Volume
import Mathlib.Data.List.GetD

/-!
Directories of a volume: a directory is the list of its sixteen-byte entries, a free one
has inode number 0. A file is whole when every block below its size is mapped; a neat
volume has whole directories whose entries name inodes there are.
-/

namespace PaddleOs

theorem getDirent_putDirent_mod (name : Name) (inum : Nat) :
    getDirent (putDirent name inum) = ⟨inum % 2 ^ 16, cutName name⟩ := by
  unfold getDirent
  simp only [Dirent.mk.injEq]
  constructor
  · simp [putDirent]
    omega
  · exact cutName_padded name

theorem getDirent_zeros : getDirent (List.replicate DIRENT 0) = ⟨0, []⟩ := by decide

theorem namecmp_cutName (s t : List UInt8) : namecmp s (cutName t) = namecmp s t := by
  unfold namecmp
  rw [cutName_cutName]

namespace Volume

/-- Every block below the size of the file is there. -/
def Whole (v : Volume) (i : Nat) : Prop :=
  ∀ bn, bn * BSIZE < (v.node i).size → bn < MAXFILE ∧ v.ptr i (place bn) ≠ 0

def bytes (v : Volume) (i off n : Nat) : List UInt8 :=
  (List.range n).map fun t => v.byte i (off + t)

def slots (v : Volume) (i : Nat) : Nat := (v.node i).size / DIRENT

def entry (v : Volume) (i j : Nat) : Dirent := getDirent (v.bytes i (DIRENT * j) DIRENT)

def IsDir (v : Volume) (i : Nat) : Prop := v.Live i ∧ (v.node i).type = T_DIR

/-- Entry `j` of directory `d` is what a search for `name` stops at. -/
def Names (v : Volume) (d : Nat) (name : Name) (j : Nat) : Prop :=
  (v.entry d j).inum ≠ 0 ∧ namecmp name (v.entry d j).name = true

instance (v : Volume) (d : Nat) (name : Name) (j : Nat) : Decidable (v.Names d name j) :=
  inferInstanceAs (Decidable (_ ∧ _))

/-- The first entry with the name. -/
def lookup (v : Volume) (d : Nat) (name : Name) : Option Nat :=
  (List.range (v.slots d)).find? fun j => decide (v.Names d name j)

/-- The first free entry, or the one behind the last. -/
def vacant (v : Volume) (d : Nat) : Nat :=
  ((List.range (v.slots d)).find? fun j => decide ((v.entry d j).inum = 0)).getD (v.slots d)

structure Neat (v : Volume) : Prop where
  whole : ∀ d, v.IsDir d → v.Whole d
  range : ∀ d, v.IsDir d → ∀ j, j < v.slots d → (v.entry d j).inum < v.sb.ninodes

variable {v v' : Volume} {d i j : Nat} {name : Name}

theorem lookup_some : v.lookup d name = some j ↔
    j < v.slots d ∧ v.Names d name j ∧ ∀ l, l < j → ¬ v.Names d name l := by
  unfold lookup
  rw [List.find?_range_eq_some]
  simp only [List.mem_range, decide_eq_true_eq, Bool.not_eq_eq_eq_not, Bool.not_true,
    decide_eq_false_iff_not]
  tauto

theorem lookup_none : v.lookup d name = none ↔ ∀ j, j < v.slots d → ¬ v.Names d name j := by
  unfold lookup
  rw [List.find?_eq_none]
  simp only [List.mem_range, decide_eq_true_eq]

theorem vacant_le : v.vacant d ≤ v.slots d := by
  unfold vacant
  cases found : (List.range (v.slots d)).find? fun j => decide ((v.entry d j).inum = 0) with
  | none => exact Nat.le_refl _
  | some j => exact Nat.le_of_lt (List.mem_range.mp (List.mem_of_find?_eq_some found))

/-- An entry before the first free one is in use, and the first free one is free. -/
theorem vacant_spec : (∀ l, l < v.vacant d → (v.entry d l).inum ≠ 0) ∧
    (v.vacant d < v.slots d → (v.entry d (v.vacant d)).inum = 0) := by
  unfold vacant
  cases found : (List.range (v.slots d)).find? fun j => decide ((v.entry d j).inum = 0) with
  | none =>
      rw [List.find?_eq_none] at found
      simp only [List.mem_range, decide_eq_true_eq] at found
      exact ⟨found, fun wrong => absurd wrong (Nat.lt_irrefl _)⟩
  | some j =>
      rw [List.find?_range_eq_some] at found
      simp only [List.mem_range, decide_eq_true_eq, Bool.not_eq_eq_eq_not, Bool.not_true,
        decide_eq_false_iff_not] at found
      exact ⟨fun l before => found.2.2 l before, fun _ => found.1⟩

theorem vacant_unique (before : ∀ l, l < j → (v.entry d l).inum ≠ 0)
    (here : j < v.slots d → (v.entry d j).inum = 0) (inside : j ≤ v.slots d) : v.vacant d = j := by
  obtain ⟨used, free⟩ := v.vacant_spec (d := d)
  have bound := v.vacant_le (d := d)
  rcases Nat.lt_trichotomy (v.vacant d) j with low | same | high
  · exact absurd (free (by omega)) (before _ low)
  · exact same
  · exact absurd (here (by omega)) (used j high)

theorem bytes_congr {off n : Nat} (same : ∀ o, off ≤ o → o < off + n → v'.byte i o = v.byte i o) :
    v'.bytes i off n = v.bytes i off n := by
  unfold bytes
  refine List.map_congr_left fun t inside => same _ (Nat.le_add_right _ _) ?_
  have bound := List.mem_range.mp inside
  omega

theorem entry_congr (same : ∀ o, DIRENT * j ≤ o → o < DIRENT * (j + 1) → v'.byte i o = v.byte i o) :
    v'.entry i j = v.entry i j := by
  unfold entry
  rw [bytes_congr fun o low high => same o low (by rw [Nat.mul_succ]; exact high)]

theorem bytes_eq {off n : Nat} {list : List UInt8} (length : list.length = n)
    (same : ∀ t, t < n → v.byte i (off + t) = list.getD t 0) : v.bytes i off n = list := by
  refine List.ext_getElem (by simp [bytes, length]) fun t left right => ?_
  simp only [bytes, List.getElem_map, List.getElem_range]
  rw [same t (by omega), List.getD_eq_getElem _ _ right]

/-- The files of other inodes stay, and so do their entries. -/
theorem Touch.entry_other (touch : Touch d v v') (owned : v.Owned) (live : v.Live i)
    (apart : i ≠ d) (j : Nat) : v'.entry i j = v.entry i j :=
  entry_congr fun o _ _ => touch.byte_other owned live apart o

theorem Touch.slots_other (touch : Touch d v v') (apart : i ≠ d) : v'.slots i = v.slots i := by
  unfold slots
  rw [touch.other i apart]

theorem Touch.type (touch : Touch d v v') : (v'.node i).type = (v.node i).type := by
  by_cases same : i = d
  · rw [same, touch.fields]
  · rw [touch.other i same]

theorem Touch.nlink (touch : Touch d v v') : (v'.node i).nlink = (v.node i).nlink := by
  by_cases same : i = d
  · rw [same, touch.fields]
  · rw [touch.other i same]

theorem Touch.isDir (touch : Touch d v v') : v'.IsDir i ↔ v.IsDir i := by
  unfold IsDir
  rw [touch.live, touch.type]

theorem Touch.whole_other (touch : Touch d v v') (owned : v.Owned) (live : v.Live i)
    (apart : i ≠ d) (whole : v.Whole i) : v'.Whole i := by
  intro bn below
  rw [touch.other i apart] at below
  rw [touch.ptr_other owned live apart]
  exact whole bn below

/-- Directories stay neat when the one that changed does. -/
theorem Touch.neat (touch : Touch d v v') (owned : v.Owned) (neat : v.Neat)
    (own : v.IsDir d → v'.Whole d ∧ ∀ j, j < v'.slots d → (v'.entry d j).inum < v.sb.ninodes) : v'.Neat where
  whole i dir := by
    have was := touch.isDir.mp dir
    by_cases same : i = d
    · rw [same] at was ⊢
      exact (own was).1
    · exact touch.whole_other owned was.1 same (neat.whole i was)
  range i dir l below := by
    have was := touch.isDir.mp dir
    rw [touch.sb]
    by_cases same : i = d
    · subst same
      exact (own was).2 l below
    · rw [touch.slots_other same] at below
      rw [touch.entry_other owned was.1 same]
      exact neat.range i was l below

/-- Entry `j` of directory `d` became `de`. -/
structure Patched (d j : Nat) (de : Dirent) (v v' : Volume) : Prop where
  touch : Touch d v v'
  entry : ∀ l, v'.entry d l = if l = j then de else v.entry d l
  size : (v'.node d).size = max (v.node d).size (DIRENT * (j + 1))
  whole : v.Whole d → v'.Whole d
  owned : v.Owned → v'.Owned

theorem Patched.slots (patched : Patched d j de v v') : v'.slots d = max (v.slots d) (j + 1) := by
  unfold Volume.slots
  rw [patched.size]
  unfold DIRENT
  omega

theorem Patched.neat {de : Dirent} (patched : Patched d j de v v') (owned : v.Owned) (neat : v.Neat)
    (inside : j ≤ v.slots d) (named : de.inum < v.sb.ninodes) : v'.Neat := by
  refine patched.touch.neat owned neat fun dir => ⟨patched.whole (neat.whole d dir), fun l below => ?_⟩
  rw [patched.entry]
  split
  · exact named
  · rw [patched.slots] at below
    exact neat.range d dir l (by omega)

/-- Inode `i` at most got an empty indirect block. -/
structure Padded (i : Nat) (v v' : Volume) : Prop where
  touch : Touch i v v'
  byte : ∀ o, v'.byte i o = v.byte i o
  size : (v'.node i).size = (v.node i).size
  blocks : ∀ p, p ≤ MAXFILE → p ≠ NDIRECT → v'.ptr i p = v.ptr i p
  owned : v.Owned → v'.Owned

theorem Padded.whole (padded : Padded i v v') (whole : v.Whole i) : v'.Whole i := by
  intro bn below
  rw [padded.size] at below
  obtain ⟨limit, present⟩ := whole bn below
  refine ⟨limit, ?_⟩
  rw [padded.touch.kept _ (place_le limit) present]
  exact present

theorem Padded.slots (padded : Padded i v v') : v'.slots i = v.slots i := by
  unfold Volume.slots
  rw [padded.size]

theorem Padded.entry (padded : Padded i v v') (j : Nat) : v'.entry i j = v.entry i j :=
  entry_congr fun o _ _ => padded.byte o

theorem Padded.neat (padded : Padded d v v') (owned : v.Owned) (neat : v.Neat) : v'.Neat := by
  refine padded.touch.neat owned neat fun dir => ⟨padded.whole (neat.whole d dir), fun l below => ?_⟩
  rw [padded.slots] at below
  rw [padded.entry]
  exact neat.range d dir l below

end Volume

end PaddleOs
