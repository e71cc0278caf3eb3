import PaddleOs.FsFiles
import PaddleOs.Foundation.Runs

/-!
Disk images and the functions of the file system that change them. An image is consistent
when its regions are in order, its blocks are owned exactly and the entries of its
directories name inodes that exist. The functions of `fs.c` and `sysfile.c` that allocate
and free, called one after the other, lead from one consistent image to the next.
-/

namespace PaddleOs

open Foundation.Outcome Foundation.Runs
open Fs (Slot JState Good Loaded Represents diskNode)

section Images

/-- The volume on a disk of which nothing is in memory. -/
def Volume.onDisk (sb : Superblock) (block : Nat → Block) : Volume where
  sb
  used b := bitSet (block (sb.BBLOCK b)) (b % BPB)
  block
  node i := getDinode (block (sb.IBLOCK i)) (dinodeOffset i)

/-- The regions of the disk are in order, its blocks are owned exactly and its directories
name inodes that exist. -/
structure Consistent (sb : Superblock) (block : Nat → Block) : Prop where
  sane : sb.Sane
  owned : (Volume.onDisk sb block).Owned
  named : ∀ d, (Volume.onDisk sb block).IsDir d → ∀ j, j < (Volume.onDisk sb block).slots d →
    ((Volume.onDisk sb block).entry d j).inum < sb.ninodes

/-- The volume the blocks of a state show. -/
def Fs.shown (s : JState) : Volume := .onDisk s.sb s.store.block

variable {s : JState} {v : Volume}

/-- An empty inode table over a consistent image. -/
theorem Consistent.good (consistent : Consistent s.sb s.store.block)
    (whole : ∀ d, (Fs.shown s).IsDir d → (Fs.shown s).Whole d) (empty : ∀ k, (s.inode k).ref = 0) :
    Good s (Fs.shown s) where
  rep :=
    { sb := rfl
      sane := consistent.sane
      metadata := by
        intro b low
        have inside : b < s.sb.size := Nat.lt_of_lt_of_le low consistent.sane.data
        exact (consistent.owned.bitmap b inside).mpr (.inl low)
      bitmap := fun _ _ => rfl
      block := fun _ _ _ => rfl
      counts := fun k => (empty k).ge
      root := fun k used => absurd (empty k) (by omega)
      numbered := fun k used => absurd (empty k) (by omega)
      unique := fun j _ used => absurd (empty j) (by omega)
      copy := fun k _ loaded => absurd (empty k) (by have used := loaded.1; omega)
      allocated := fun k _ loaded => absurd (empty k) (by have used := loaded.1; omega)
      synced := fun _ _ _ => rfl
      fits := fun _ => getDinode_fits _ _ }
  owned := consistent.owned
  neat := ⟨whole, consistent.named⟩

/-- The blocks show the volume they represent. -/
theorem Good.shows (good : Good s v) {i : Nat} (inside : i < v.sb.ninodes) :
    (Fs.shown s).node i = v.node i :=
  good.rep.synced i inside fun _ _ => id

theorem Good.shown_live (good : Good s v) (i : Nat) : (Fs.shown s).Live i ↔ v.Live i := by
  unfold Volume.Live
  change i < s.sb.ninodes ∧ _ ↔ _
  rw [good.rep.sb]
  constructor
  · rintro ⟨inside, typed⟩
    rw [Good.shows good inside] at typed
    exact ⟨inside, typed⟩
  · rintro ⟨inside, typed⟩
    rw [← Good.shows good inside] at typed
    exact ⟨inside, typed⟩

theorem Good.shown_ptr (good : Good s v) {i : Nat} (live : v.Live i) (p : Nat) :
    (Fs.shown s).ptr i p = v.ptr i p := by
  have node := Good.shows good live.1
  refine Volume.ptr_congr (by rw [node]) fun some_ => ?_
  obtain ⟨low, high⟩ := good.owned.range i NDIRECT _ (Volume.tenant_indirect live some_)
  exact good.rep.block _ low high

theorem Good.shown_tenant (good : Good s v) (i p b : Nat) :
    (Fs.shown s).Tenant i p b ↔ v.Tenant i p b := by
  unfold Volume.Tenant
  rw [Good.shown_live good i]
  constructor
  · rintro ⟨live, place, at_, present⟩
    rw [Good.shown_ptr good live] at at_
    exact ⟨live, place, at_, present⟩
  · rintro ⟨live, place, at_, present⟩
    rw [← Good.shown_ptr good live] at at_
    exact ⟨live, place, at_, present⟩

theorem Good.shown_byte (good : Good s v) {i : Nat} (live : v.Live i) (o : Nat) :
    (Fs.shown s).byte i o = v.byte i o := by
  unfold Volume.byte
  rw [Good.shown_ptr good live]
  split
  · rename_i there
    obtain ⟨low, high⟩ := good.owned.range i _ _
      ⟨live, Volume.place_le there.1, rfl, there.2⟩
    exact congrFun (good.rep.block _ low high) _
  · rfl

theorem Good.shown_whole (good : Good s v) (whole : v.NoHoles) : (Fs.shown s).NoHoles := by
  intro i live bn below
  have lives := (Good.shown_live good i).mp live
  rw [Good.shows good lives.1] at below
  rw [Good.shown_ptr good lives]
  exact whole i lives bn below

theorem Good.consistent (good : Good s v) : Consistent s.sb s.store.block where
  sane := good.rep.sb ▸ good.rep.sane
  owned := by
    refine good.owned.same good.rep.sb (Good.shown_tenant good) fun b inside => ?_
    have bit := good.rep.bitmap b inside
    rw [← good.rep.sb] at bit
    exact bit
  named := by
    rintro d ⟨live, dir⟩ j below
    have lives := (Good.shown_live good d).mp live
    have node := Good.shows good lives.1
    have entry : (Fs.shown s).entry d j = v.entry d j :=
      Volume.entry_congr fun o _ _ => Good.shown_byte good lives o
    change (Fs.shown s).node d = _ at node
    change ((Fs.shown s).node d).type = T_DIR at dir
    change j < ((Fs.shown s).node d).size / DIRENT at below
    rw [node] at dir below
    change ((Fs.shown s).entry d j).inum < s.sb.ninodes
    rw [entry, good.rep.sb]
    exact good.neat.range d ⟨lives, dir⟩ j below

end Images

section Readers

namespace Fs

variable {s : JState} {v : Volume} {k : Slot} {i : Nat}

/-- What the readers and the writers of a locked inode do. -/
structure Readers (s : JState) (k : Slot) : Prop where
  readi : ∀ accepts off n, n < 2 ^ 32 → ∃ got, Fs.readi k accepts off n s = .ok got s
  dirlookup : ∀ name, outcome (Fs.dirlookup k name) (fun _ s' => Refers s s') (Stops s) s
  isdirempty : outcome (Fs.isdirempty k) (fun _ s' => s' = s) (Stops s) s
  writei : ∀ source off n, off < 2 ^ 32 → n < 2 ^ 32 →
    ∃ r s', Fs.writei k source off n s = .ok r s'

theorem readers_of_good (good : Good s v) (loaded : Loaded s k i) (whole : v.Whole i) : Readers s k where
  readi accepts off n count := by
    obtain ⟨got, after, ran, same⟩ := outcome_ok (read_spec good.rep good.owned loaded whole accepts off count)
    exact ⟨got, same ▸ ran⟩
  dirlookup := dirlookup_refers good loaded whole
  isdirempty := isdirempty_still good loaded whole
  writei source off n offset count := by
    have returns : outcome (Fs.writei k source off n) (fun _ _ => True) (fun _ _ => False) s :=
      outcome_mono (writei_returns k source offset count s) (fun _ _ _ => trivial) fun _ _ never => never trivial
    obtain ⟨r, after, ran, -⟩ := outcome_ok returns
    exact ⟨r, after, ran⟩

theorem ilock_valid (used : 0 < (s.inode k).ref) (free : (s.inode k).locked = false)
    (valid : (s.inode k).valid = true) :
    ilock k s = .ok () (s.setInode k { s.inode k with locked := true }) := by
  have ran : outcome (ilock k) (fun _ s' => s' = s.setInode k { s.inode k with locked := true })
      (fun _ _ => False) s := by
    unfold ilock
    rw [outcome_bind]
    refine inode_step ?_
    rw [if_neg (by omega), outcome_bind]
    unfold acquiresleep
    rw [outcome_bind]
    refine inode_step ?_
    rw [free, if_neg Bool.false_ne_true]
    refine modifyInode_step ?_
    rw [outcome_bind]
    refine inode_step ?_
    rw [setInode_same, if_neg (by simp [valid]), outcome_pure]
  obtain ⟨_, after, done, rfl⟩ := outcome_ok ran
  exact done

theorem iunlock_locked (used : 0 < (s.inode k).ref) (held : (s.inode k).locked = true) :
    iunlock k s = .ok () (s.setInode k { s.inode k with locked := false }) := by
  have ran : outcome (iunlock k) (fun _ s' => s' = s.setInode k { s.inode k with locked := false })
      (fun _ _ => False) s := by
    unfold iunlock
    rw [outcome_bind]
    refine inode_step ?_
    rw [held, if_neg (by simp; omega)]
    exact modifyInode_step rfl
  obtain ⟨_, after, done, rfl⟩ := outcome_ok ran
  exact done

end Fs

end Readers

section Smallest

/-- The volume with an empty root directory. -/
def tinyVolume : Volume := .onDisk tinySuperblock tinyDisk

theorem tiny_dead {i : Nat} (live : tinyVolume.Live i) : i = ROOTINO := by
  have dead : ∀ i, i < 8 → (tinyVolume.node i).type ≠ 0 → i = ROOTINO := by decide +kernel
  exact dead i live.1 live.2

theorem tiny_size : (tinyVolume.node ROOTINO).size = 0 := by decide +kernel

theorem tiny_vacant (i p b : Nat) : ¬ tinyVolume.Tenant i p b := by
  rintro ⟨live, -, at_, present⟩
  obtain rfl := tiny_dead live
  have direct : ∀ p, p < NDIRECT + 1 → (tinyVolume.node ROOTINO).addrs p = 0 := by decide +kernel
  refine present (at_.symm.trans ?_)
  by_cases near : p ≤ NDIRECT
  · rw [Volume.ptr_direct _ near]
    exact direct p (by omega)
  · exact Volume.ptr_none _ (by omega) (direct NDIRECT (by omega))

theorem tiny_whole : tinyVolume.NoHoles := by
  intro i live bn below
  obtain rfl := tiny_dead live
  rw [tiny_size] at below
  cases below

theorem tiny_consistent : Consistent tinySuperblock tinyDisk where
  sane := ⟨by decide +kernel, by decide, by decide, by decide, by decide⟩
  owned := by
    refine ⟨fun i p b held => absurd held (tiny_vacant i p b),
      fun i _ p _ b held _ => absurd held (tiny_vacant i p b), fun b inside => ?_⟩
    have bits : ∀ b, b < 40 → (tinyVolume.used b = true ↔ b < tinySuperblock.dataStart) := by decide +kernel
    refine (bits b inside).trans ⟨.inl, ?_⟩
    rintro (low | ⟨i, p, held⟩)
    · exact low
    · exact absurd held (tiny_vacant i p b)
  named := by
    rintro d ⟨live, -⟩ j below
    obtain rfl := tiny_dead live
    change j < (tinyVolume.node ROOTINO).size / DIRENT at below
    rw [tiny_size] at below
    cases below

end Smallest

section Operations

namespace Fs

/-- A call of a function of the file system. The functions that find, lock and unlock
inodes are there to reach the others. -/
inductive Request where
  | iget (inum : Nat)
  | idup (ip : Slot)
  | ilock (ip : Slot)
  | iunlock (ip : Slot)
  | iput (ip : Slot)
  | ialloc (type : Int16)
  | itrunc (ip : Slot)
  | writei (ip : Slot) (source : Nat → Nat → List UInt8 × Bool) (off n : Nat)
  | dirlink (dp : Slot) (name : Name) (inum : Nat)
  | create (cwd : Slot) (path : Path) (type major minor : Int16)
  | unlink (cwd : Slot) (path : Path)

def Request.perform : Request → FsM Journal Unit
  | .iget inum => (fun _ => ()) <$> Fs.iget ROOTDEV inum
  | .idup ip => (fun _ => ()) <$> Fs.idup ip
  | .ilock ip => Fs.ilock ip
  | .iunlock ip => Fs.iunlock ip
  | .iput ip => Fs.iput ip
  | .ialloc type => (fun _ => ()) <$> Fs.ialloc ROOTDEV type
  | .itrunc ip => Fs.itrunc ip
  | .writei ip source off n => (fun _ => ()) <$> Fs.writei ip source off n
  | .dirlink dp name inum => (fun _ => ()) <$> Fs.dirlink dp name inum
  | .create cwd path type major minor => (fun _ => ()) <$> Fs.create cwd path type major minor
  | .unlink cwd path => (fun _ => ()) <$> sysUnlink cwd (some path)

def Request.step (s : JState) (op : Request) : Option JState :=
  match op.perform s with
  | .ok _ next => some next
  | .error _ _ => none

/-- What the callers of these functions see to: inodes are in use, and locked where they
are changed; bytes go to files and devices, entries to directories; numbers are those of
inodes that exist. -/
def Request.Fits (s : JState) : Request → Prop
  | .iget inum => inum < s.sb.ninodes
  | .idup ip | .ilock ip | .iunlock ip | .iput ip => 0 < (s.inode ip).ref
  | .ialloc _ => True
  | .itrunc ip => 0 < (s.inode ip).ref ∧ (s.inode ip).valid = true
  | .writei ip _ off n => 0 < (s.inode ip).ref ∧ (s.inode ip).valid = true ∧ (s.inode ip).type ≠ T_DIR ∧
      off < 2 ^ 32 ∧ n < 2 ^ 32
  | .dirlink dp _ inum => 0 < (s.inode dp).ref ∧ (s.inode dp).valid = true ∧ inum < s.sb.ninodes
  | .create cwd _ type _ _ => 0 < (s.inode cwd).ref ∧ type ≠ 0
  | .unlink cwd _ => 0 < (s.inode cwd).ref

variable {s start final : JState} {v : Volume}

/-- No block is freed that is free. -/
def NoDoubleFree (stop : Stop) (_ : JState) : Prop := stop ≠ .freeingFreeBlock

/-- One call leads from one represented volume to the next. -/
theorem Request.good (good : Good s v) (op : Request) (fits : op.Fits s) :
    outcome op.perform (fun _ s' => ∃ v', Good s' v') NoDoubleFree s := by
  have atop := Over.refl good.rep
  have permitted : ∀ stop s', Permitted stop s' → NoDoubleFree stop s' := fun _ _ allowed => allowed.1
  cases op with
  | iget inum =>
      refine (outcome_map _ _ _ _ s).mpr (outcome_mono (iget_spec good.rep (good.rep.sb ▸ fits)) ?_ permitted)
      rintro _ s' ⟨rep, -⟩
      exact ⟨v, rep, good.owned, good.neat⟩
  | idup ip =>
      refine (outcome_map _ _ _ _ s).mpr (outcome_mono (idup_spec good.rep ⟨fits, rfl⟩) ?_ permitted)
      rintro _ s' ⟨-, rep, -⟩
      exact ⟨v, rep, good.owned, good.neat⟩
  | ilock ip =>
      refine outcome_mono (lock_spec good atop ⟨fits, rfl⟩) ?_ fun _ _ fault => fault.1
      rintro _ s' ⟨good', -⟩
      exact ⟨v, good'⟩
  | iunlock ip =>
      refine outcome_mono (unlock_spec good atop fits) ?_ permitted
      rintro _ s' ⟨good', -⟩
      exact ⟨v, good'⟩
  | iput ip =>
      refine outcome_mono (release_spec good (atop.lend fits) ⟨fits, rfl⟩) ?_ permitted
      rintro _ s' ⟨v', good', -⟩
      exact ⟨v', good'⟩
  | ialloc type =>
      refine (outcome_map _ _ _ _ s).mpr (outcome_mono (ialloc_spec type good) ?_ permitted)
      rintro (_ | k) s' result
      · exact ⟨v, result.1 ▸ good⟩
      · obtain ⟨i, allocated⟩ := result
        exact ⟨_, allocated.good⟩
  | itrunc ip =>
      refine outcome_mono (truncate_spec (fun _ => False) good atop ⟨fits.1, fits.2, rfl⟩) ?_ permitted
      rintro _ s' ⟨v', good', -⟩
      exact ⟨v', good'⟩
  | writei ip source off n =>
      obtain ⟨used, valid, plain, offset, count⟩ := fits
      have loaded : Loaded s ip (s.inode ip).inum := ⟨used, valid, rfl⟩
      rw [good.rep.copy ip _ loaded] at plain
      refine (outcome_map _ _ _ _ s).mpr (outcome_mono
        (write_spec (fun _ => False) good atop loaded plain source offset count) ?_ fun _ _ => False.elim)
      rintro _ s' ⟨v', good', -⟩
      exact ⟨v', good'⟩
  | dirlink dp name inum =>
      obtain ⟨used, valid, named⟩ := fits
      refine (outcome_map _ _ _ _ s).mpr (outcome_mono
        (link_spec good atop ⟨used, valid, rfl⟩ (good.rep.sb ▸ named)) ?_ permitted)
      rintro _ s' ⟨-, v', -, good', -⟩
      exact ⟨v', good'⟩
  | create cwd path type major minor =>
      have never : False → Anchored s.inode v := False.elim
      refine (outcome_map _ _ _ _ s).mpr (outcome_mono
        (create_spec cwd path type major minor good atop (fun _ => fits.1) fits.2 never) ?_
        fun _ _ fault => fault.1)
      rintro _ s' ⟨v', answer, made⟩
      exact ⟨v', made.good⟩
  | unlink cwd path =>
      have never : False → Anchored s.inode v := False.elim
      refine (outcome_map _ _ _ _ s).mpr (outcome_mono (sysUnlink_spec cwd path good atop fits never) ?_
        fun _ _ fault => fault.1)
      rintro _ s' ⟨v', ended, -⟩
      exact ⟨v', ended.good⟩

theorem Request.step_some {next : JState} {op : Request} (stepped : op.step s = some next) :
    op.perform s = .ok () next := by
  unfold Request.step at stepped
  split at stepped
  · rename_i performed
    cases stepped
    exact performed
  · cases stepped

/-- From a consistent image whose directories have no holes, the image is consistent after
each call, and no call frees a free block. -/
theorem ownership_exact {ops : List Request} (empty : ∀ k, (start.inode k).ref = 0)
    (consistent : Consistent start.sb start.store.block)
    (whole : ∀ d, (shown start).IsDir d → (shown start).Whole d)
    (ran : run Request.step start ops = some final)
    (fits : ∀ before op after middle, ops = before ++ op :: after →
      run Request.step start before = some middle → op.Fits middle) :
    Consistent final.sb final.store.block ∧
      ∀ op : Request, op.Fits final → outcome op.perform (fun _ _ => True) NoDoubleFree final := by
  have reached : ∃ v, Good final v := by
    refine run_invariant_where Request.step (fun s op => op.Fits s) (fun s => ∃ v, Good s v)
      ⟨_, consistent.good whole empty⟩ ?_ ran fits
    rintro s op next ⟨v, good⟩ met stepped
    have kept := outcome_of_ok (op.good good met) (Request.step_some stepped)
    exact kept
  obtain ⟨v, good⟩ := reached
  exact ⟨Good.consistent good, fun op met => outcome_post (op.good good met) fun _ _ _ => trivial⟩

/-- The zeroed inode table over a disk of the smallest size whose blocks are given. -/
def mounted (block : Nat → Block) : JState where
  store := { block, logged := [], outstanding := 0 }
  sb := tinySuperblock
  inode _ :=
    { type := 0, major := 0, minor := 0, nlink := 0, size := 0, addrs := fun _ => 0, dev := 0, inum := 0
      ref := 0, locked := false, valid := false }

/-- Whether the calls run from the image on and end in a state the test accepts. -/
def endsIn (block : Nat → Block) (requests : List Request) (test : JState → Bool) : Bool :=
  (run Request.step (mounted block) requests).any test

theorem endsIn_run {block : Nat → Block} {requests : List Request} {test : JState → Bool}
    (ends : endsIn block requests test = true) :
    ∃ final, run Request.step (mounted block) requests = some final ∧ test final = true :=
  (Option.any_eq_true _ _).mp ends

/-- The directory of the root is found, and a file is made in it. -/
theorem ownership_exact_create : ∃ final, run Request.step (mounted tinyDisk)
      [.iget ROOTINO, .create ⟨0, by decide⟩ [97] T_FILE 0 0] = some final ∧
    (shown final).used 34 = true ∧ Consistent final.sb final.store.block := by
  have ends : endsIn tinyDisk [.iget ROOTINO, .create ⟨0, by decide⟩ [97] T_FILE 0 0]
      (fun final => (shown final).used 34) = true := by decide +kernel
  obtain ⟨final, ran, used⟩ := endsIn_run ends
  have volume : shown (mounted tinyDisk) = tinyVolume := rfl
  have whole : ∀ d, (shown (mounted tinyDisk)).IsDir d → (shown (mounted tinyDisk)).Whole d := by
    rw [volume]
    exact fun d dir => tiny_whole d dir.1
  have empty : ∀ k, ((mounted tinyDisk).inode k).ref = 0 := fun _ => rfl
  refine ⟨final, ran, used, (ownership_exact empty tiny_consistent whole ran ?_).1⟩
  intro before request after middle split upTo
  match before, split with
  | [], split =>
      obtain ⟨rfl, -⟩ := List.cons.inj split
      obtain rfl : mounted tinyDisk = middle := Option.some.inj upTo
      exact (by decide : ROOTINO < 8)
  | [_], split =>
      obtain ⟨rfl, rest⟩ := List.cons.inj split
      obtain ⟨rfl, -⟩ := List.cons.inj rest
      have found : endsIn tinyDisk [.iget ROOTINO]
          (fun s => decide (0 < (s.inode ⟨0, by decide⟩).ref)) = true := by decide +kernel
      obtain ⟨there, reached, ref⟩ := endsIn_run found
      obtain rfl : there = middle := Option.some.inj (reached.symm.trans upTo)
      exact ⟨of_decide_eq_true ref, by decide⟩
  | _ :: _ :: _, split =>
      have lengths := congrArg List.length split
      simp at lengths

/-- A directory that has a size and no block. -/
def hollowDisk (blockno : Nat) : Block :=
  if blockno = 32 then putDinode (fun _ => 0) (dinodeOffset ROOTINO)
    { type := T_DIR, major := 0, minor := 0, nlink := 1, size := 32, addrs := fun _ => 0 }
  else tinyDisk blockno

/-- A directory whose entry `x` names an inode behind the last one: its place is taken by
the bitmap. -/
def strayDisk (blockno : Nat) : Block :=
  if blockno = 32 then putDinode (fun _ => 0) (dinodeOffset ROOTINO)
    { type := T_DIR, major := 0, minor := 0, nlink := 1, size := 16, addrs := fun p => if p = 0 then 34 else 0 }
  else if blockno = 33 then fun i => if i < 4 then 255 else if i = 4 then 7 else 0
  else if blockno = 34 then fun i => (putDirent [120] 16).getD i 0
  else tinyDisk blockno

theorem hollow_owned : (shown (mounted hollowDisk)).Owned := by
  have vacant : ∀ i p b, ¬ (shown (mounted hollowDisk)).Tenant i p b := by
    rintro i p b ⟨live, -, at_, present⟩
    have none_ : ∀ i, i < 8 → ∀ p, p < NDIRECT + 1 → ((shown (mounted hollowDisk)).node i).addrs p = 0 := by
      decide +kernel
    refine present (at_.symm.trans ?_)
    by_cases near : p ≤ NDIRECT
    · rw [Volume.ptr_direct _ near]
      exact none_ i live.1 p (by omega)
    · exact Volume.ptr_none _ (by omega) (none_ i live.1 NDIRECT (by omega))
  refine ⟨fun i p b held => absurd held (vacant i p b), fun i _ p _ b held _ => absurd held (vacant i p b),
    fun b inside => ?_⟩
  have bits : ∀ b, b < 40 → ((shown (mounted hollowDisk)).used b = true ↔ b < tinySuperblock.dataStart) := by
    decide +kernel
  refine (bits b inside).trans ⟨.inl, ?_⟩
  rintro (low | ⟨i, p, held⟩)
  · exact low
  · exact absurd held (vacant i p b)

theorem stray_owned : (shown (mounted strayDisk)).Owned := by
  have only : ∀ i p b, (shown (mounted strayDisk)).Tenant i p b ↔ i = ROOTINO ∧ p = 0 ∧ b = 34 := by
    have root : ∀ i, i < 8 → (((shown (mounted strayDisk)).node i).type ≠ 0 ↔ i = ROOTINO) := by
      decide +kernel
    have places : ∀ p, p < NDIRECT + 1 →
        ((shown (mounted strayDisk)).node ROOTINO).addrs p = if p = 0 then 34 else 0 := by decide +kernel
    intro i p b
    constructor
    · rintro ⟨⟨inside, typed⟩, -, at_, present⟩
      obtain rfl := (root i inside).mp typed
      by_cases near : p ≤ NDIRECT
      · rw [Volume.ptr_direct _ near, places p (by omega)] at at_
        split at at_
        · exact ⟨rfl, by assumption, at_.symm⟩
        · exact absurd at_.symm present
      · rw [Volume.ptr_none _ (by omega) (places NDIRECT (by decide))] at at_
        exact absurd at_.symm present
    · rintro ⟨rfl, rfl, rfl⟩
      refine ⟨⟨by decide, (root ROOTINO (by decide)).mpr rfl⟩, by decide, ?_, by decide⟩
      rw [Volume.ptr_direct _ (by decide)]
      exact places 0 (by decide)
  refine ⟨?_, ?_, fun b inside => ?_⟩
  · intro i p b held
    obtain ⟨-, -, rfl⟩ := (only i p b).mp held
    exact ⟨by decide, by decide⟩
  · intro i j p q b held held'
    obtain ⟨rfl, rfl, -⟩ := (only i p b).mp held
    obtain ⟨rfl, rfl, -⟩ := (only j q b).mp held'
    exact ⟨rfl, rfl⟩
  · have bits : ∀ b, b < 40 → ((shown (mounted strayDisk)).used b = true ↔
        b < tinySuperblock.dataStart ∨ b = 34) := by decide +kernel
    refine (bits b inside).trans (or_congr_right ?_)
    constructor
    · rintro rfl
      exact ⟨ROOTINO, 0, (only _ _ _).mpr ⟨rfl, rfl, rfl⟩⟩
    · rintro ⟨i, p, held⟩
      exact ((only i p b).mp held).2.2

/-- The boot block is marked free. -/
theorem not_owned_of_free {s : JState} (size : 0 < s.sb.size) (free : (shown s).used 0 = false) :
    ¬ (shown s).Owned := by
  intro owned
  have marked := (owned.bitmap 0 size).mpr (.inl (Superblock.dataStart_pos _))
  rw [free] at marked
  cases marked

/-- Exact ownership alone is lost by a lookup in a directory with a hole, by a name that
leads behind the last inode, and by bytes written into a directory as if it were a file. -/
theorem ownership_lost :
    (∃ final, (shown (mounted hollowDisk)).Owned ∧ run Request.step (mounted hollowDisk)
      [.iget ROOTINO, .unlink ⟨0, by decide⟩ [121]] = some final ∧ ¬ (shown final).Owned) ∧
    (∃ final, (shown (mounted strayDisk)).Owned ∧ run Request.step (mounted strayDisk)
      [.iget ROOTINO, .create ⟨0, by decide⟩ [120] T_FILE 0 0] = some final ∧ ¬ (shown final).Owned) ∧
    ∃ final, (shown (mounted tinyDisk)).Owned ∧ run Request.step (mounted tinyDisk)
      [.iget ROOTINO, .ilock ⟨0, by decide⟩,
        .writei ⟨0, by decide⟩ (kernelSource (putDirent [120] 16)) 0 16, .iunlock ⟨0, by decide⟩,
        .create ⟨0, by decide⟩ [120] T_FILE 0 0] = some final ∧ ¬ (shown final).Owned := by
  refine ⟨?_, ?_, ?_⟩
  · have ends : endsIn hollowDisk [.iget ROOTINO, .unlink ⟨0, by decide⟩ [121]]
        (fun s => decide (34 < s.sb.size ∧ s.sb.dataStart ≤ 34 ∧ s.sb.ninodes ≤ 8) &&
          (shown s).used 34 && (List.range 8).all fun i => (List.range (NDIRECT + 1)).all fun p =>
            ((shown s).node i).addrs p == 0) = true := by decide +kernel
    obtain ⟨final, ran, test⟩ := endsIn_run ends
    refine ⟨final, hollow_owned, ran, fun owned => ?_⟩
    obtain ⟨head, null⟩ := (Bool.and_eq_true _ _).mp test
    obtain ⟨layout, used⟩ := (Bool.and_eq_true _ _).mp head
    obtain ⟨inside, low, few⟩ := of_decide_eq_true layout
    have none_ : ∀ i, i < 8 → ∀ p, p < NDIRECT + 1 → ((shown final).node i).addrs p = 0 := by
      intro i limit p near
      have row := List.all_eq_true.mp null i (List.mem_range.mpr limit)
      exact beq_iff_eq.mp (List.all_eq_true.mp row p (List.mem_range.mpr near))
    rcases (owned.bitmap 34 inside).mp used with meta_ | ⟨i, p, ⟨live, -⟩, -, at_, present⟩
    · exact absurd (Nat.lt_of_lt_of_le meta_ low) (Nat.lt_irrefl _)
    · have limit : i < 8 := Nat.lt_of_lt_of_le live few
      by_cases near : p ≤ NDIRECT
      · rw [Volume.ptr_direct _ near, none_ i limit p (by omega)] at at_
        exact present at_.symm
      · rw [Volume.ptr_none _ (by omega) (none_ i limit NDIRECT (by omega))] at at_
        exact present at_.symm
  · have ends : endsIn strayDisk [.iget ROOTINO, .create ⟨0, by decide⟩ [120] T_FILE 0 0]
        (fun s => decide (0 < s.sb.size ∧ (shown s).used 0 = false)) = true := by decide +kernel
    obtain ⟨final, ran, test⟩ := endsIn_run ends
    obtain ⟨size, free⟩ := of_decide_eq_true test
    exact ⟨final, stray_owned, ran, not_owned_of_free size free⟩
  · have ends : endsIn tinyDisk [.iget ROOTINO, .ilock ⟨0, by decide⟩,
        .writei ⟨0, by decide⟩ (kernelSource (putDirent [120] 16)) 0 16, .iunlock ⟨0, by decide⟩,
        .create ⟨0, by decide⟩ [120] T_FILE 0 0]
        (fun s => decide (0 < s.sb.size ∧ (shown s).used 0 = false)) = true := by decide +kernel
    obtain ⟨final, ran, test⟩ := endsIn_run ends
    obtain ⟨size, free⟩ := of_decide_eq_true test
    exact ⟨final, tiny_consistent.owned, ran, not_owned_of_free size free⟩

end Fs

end Operations

end PaddleOs
