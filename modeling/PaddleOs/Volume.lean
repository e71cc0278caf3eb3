import PaddleOs.FsRecords
import Mathlib.Logic.Function.Basic

/-!
A file system without its encoding: which blocks are marked used, what the data blocks
hold, and the inodes. A place of an inode is one of its thirteen pointers or an entry
of its indirect block. Blocks are owned exactly when every used data block stands at
one place of one allocated inode.
-/

namespace PaddleOs

/-- The first block behind the bitmap. -/
def Superblock.dataStart (sb : Superblock) : Nat := sb.bmapstart + sb.size / BPB + 1

theorem Superblock.dataStart_pos (sb : Superblock) : 0 < sb.dataStart := Nat.succ_pos _

theorem Superblock.bmapstart_lt (sb : Superblock) : sb.bmapstart < sb.dataStart :=
  Nat.lt_succ_of_le (Nat.le_add_right _ _)

/-- The regions of the disk are in order. -/
structure Superblock.Sane (sb : Superblock) : Prop where
  inodes : ∀ i, i < sb.ninodes → sb.IBLOCK i < sb.bmapstart
  boot : 0 < sb.inodestart
  rootino : ROOTINO < sb.ninodes
  data : sb.dataStart ≤ sb.size
  small : sb.size < 2 ^ 32

structure Volume where
  sb : Superblock
  used : Nat → Bool
  block : Nat → Block
  node : Nat → Dinode

namespace Volume

def Live (v : Volume) (i : Nat) : Prop := i < v.sb.ninodes ∧ (v.node i).type ≠ 0

/-- The pointer at a place: the thirteen of the inode, then the indirect entries. -/
def ptr (v : Volume) (i p : Nat) : Nat :=
  if p ≤ NDIRECT then (v.node i).addrs p
  else if (v.node i).addrs NDIRECT = 0 then 0
  else getIndirect (v.block ((v.node i).addrs NDIRECT)) (p - NDIRECT - 1)

/-- No block is free. -/
def Full (v : Volume) : Prop := ∀ b, b < v.sb.size → v.used b = true

/-- Block `b` stands at place `p` of the allocated inode `i`. -/
def Tenant (v : Volume) (i p b : Nat) : Prop := v.Live i ∧ p ≤ MAXFILE ∧ v.ptr i p = b ∧ b ≠ 0

structure Owned (v : Volume) : Prop where
  range : ∀ i p b, v.Tenant i p b → v.sb.dataStart ≤ b ∧ b < v.sb.size
  apart : ∀ i j p q b, v.Tenant i p b → v.Tenant j q b → i = j ∧ p = q
  bitmap : ∀ b, b < v.sb.size →
    (v.used b = true ↔ b < v.sb.dataStart ∨ ∃ i p, v.Tenant i p b)

variable {v v' : Volume}

section Ownership

theorem Owned.same (owned : v.Owned) (sb : v'.sb = v.sb)
    (tenant : ∀ i p b, v'.Tenant i p b ↔ v.Tenant i p b)
    (used : ∀ b, b < v.sb.size → v'.used b = v.used b) : v'.Owned where
  range i p b held := by
    rw [sb]
    exact owned.range i p b ((tenant i p b).mp held)
  apart i j p q b left right :=
    owned.apart i j p q b ((tenant i p b).mp left) ((tenant j q b).mp right)
  bitmap b inside := by
    rw [sb] at inside ⊢
    rw [used b inside, owned.bitmap b inside]
    simp only [tenant]

/-- A free block is taken by one place. -/
theorem Owned.add (owned : v.Owned) (sb : v'.sb = v.sb) {i p b : Nat}
    (tenant : ∀ j q c, v'.Tenant j q c ↔ v.Tenant j q c ∨ (j = i ∧ q = p ∧ c = b))
    (free : v.used b = false) (inside : b < v.sb.size)
    (used : ∀ c, v'.used c = (decide (c = b) || v.used c)) : v'.Owned := by
  have vacant : ∀ j q, ¬ v.Tenant j q b := by
    intro j q held
    have taken := (owned.bitmap b inside).mpr (.inr ⟨j, q, held⟩)
    rw [free] at taken
    cases taken
  have data : v.sb.dataStart ≤ b := by
    by_contra before
    have taken := (owned.bitmap b inside).mpr (.inl (by omega))
    rw [free] at taken
    cases taken
  refine ⟨?_, ?_, ?_⟩
  · intro j q c held
    rw [sb]
    rcases (tenant j q c).mp held with old | ⟨-, -, rfl⟩
    · exact owned.range j q c old
    · exact ⟨data, inside⟩
  · intro j k q r c left right
    rcases (tenant j q c).mp left with old | ⟨rfl, rfl, rfl⟩
    · rcases (tenant k r c).mp right with old' | ⟨-, -, rfl⟩
      · exact owned.apart j k q r c old old'
      · exact absurd old (vacant j q)
    · rcases (tenant k r c).mp right with old' | ⟨rfl, rfl, -⟩
      · exact absurd old' (vacant k r)
      · exact ⟨rfl, rfl⟩
  · intro c within
    rw [sb] at within ⊢
    rw [used c, Bool.or_eq_true, decide_eq_true_eq, owned.bitmap c within]
    simp only [tenant]
    constructor
    · rintro (rfl | low | ⟨j, q, old⟩)
      · exact .inr ⟨i, p, .inr ⟨rfl, rfl, rfl⟩⟩
      · exact .inl low
      · exact .inr ⟨j, q, .inl old⟩
    · rintro (low | ⟨j, q, old | ⟨-, -, rfl⟩⟩)
      · exact .inr (.inl low)
      · exact .inr (.inr ⟨j, q, old⟩)
      · exact .inl rfl

/-- Some blocks are given back and leave their places. -/
theorem Owned.drop (owned : v.Owned) (sb : v'.sb = v.sb) (gone : Nat → Prop)
    (tenant : ∀ i p b, v'.Tenant i p b ↔ v.Tenant i p b ∧ ¬ gone b)
    (used : ∀ b, b < v.sb.size → (v'.used b = true ↔ v.used b = true ∧ ¬ gone b))
    (data : ∀ b, gone b → v.sb.dataStart ≤ b) : v'.Owned where
  range i p b held := by
    rw [sb]
    exact owned.range i p b ((tenant i p b).mp held).1
  apart i j p q b left right :=
    owned.apart i j p q b ((tenant i p b).mp left).1 ((tenant j q b).mp right).1
  bitmap b inside := by
    rw [sb] at inside ⊢
    rw [used b inside, owned.bitmap b inside]
    simp only [tenant]
    constructor
    · rintro ⟨low | ⟨i, p, held⟩, kept⟩
      · exact .inl low
      · exact .inr ⟨i, p, held, kept⟩
    · rintro (low | ⟨i, p, held, kept⟩)
      · refine ⟨.inl low, fun left => ?_⟩
        have high := data b left
        omega
      · exact ⟨.inr ⟨i, p, held⟩, kept⟩

/-- A free block below the end of the disk is a data block that stands nowhere. -/
theorem Owned.free (owned : v.Owned) {b : Nat} (free : v.used b = false) (inside : b < v.sb.size) :
    v.sb.dataStart ≤ b ∧ ∀ i p, ¬ v.Tenant i p b := by
  have none_ : ¬ (b < v.sb.dataStart ∨ ∃ i p, v.Tenant i p b) := by
    rw [← owned.bitmap b inside, free]
    decide
  rw [not_or] at none_
  exact ⟨by omega, fun i p held => none_.2 ⟨i, p, held⟩⟩

theorem Owned.taken (owned : v.Owned) {i p b : Nat} (held : v.Tenant i p b) : v.used b = true :=
  (owned.bitmap b (owned.range i p b held).2).mpr (.inr ⟨i, p, held⟩)

/-- A free block is put at a null place. -/
theorem Owned.attach (owned : v.Owned) (sb : v'.sb = v.sb) {i p b : Nat}
    (lives : ∀ j, v'.Live j ↔ v.Live j) (live : v.Live i) (place : p ≤ MAXFILE)
    (null : v.ptr i p = 0) (here : ∀ q, v'.ptr i q = if q = p then b else v.ptr i q)
    (there : ∀ j q, v.Live j → j ≠ i → v'.ptr j q = v.ptr j q)
    (free : v.used b = false) (inside : b < v.sb.size)
    (used : ∀ c, v'.used c = (decide (c = b) || v.used c)) : v'.Owned := by
  have present : b ≠ 0 := by
    have data := (owned.free free inside).1
    have first := v.sb.dataStart_pos
    omega
  refine owned.add (p := p) (i := i) (b := b) sb (fun j q c => ?_) free inside used
  unfold Tenant
  rw [lives]
  by_cases same : j = i
  · subst same
    rw [here]
    by_cases hit : q = p
    · subst hit
      rw [if_pos rfl, null]
      constructor
      · rintro ⟨-, -, rfl, -⟩
        exact .inr ⟨rfl, rfl, rfl⟩
      · rintro (⟨-, -, rfl, wrong⟩ | ⟨-, -, rfl⟩)
        · exact absurd rfl wrong
        · exact ⟨live, place, rfl, present⟩
    · rw [if_neg hit]
      constructor
      · exact .inl
      · rintro (old | ⟨-, wrong, -⟩)
        · exact old
        · exact absurd wrong hit
  · constructor
    · rintro ⟨alive, low, at_, nonzero⟩
      rw [there j q alive same] at at_
      exact .inl ⟨alive, low, at_, nonzero⟩
    · rintro (⟨alive, low, at_, nonzero⟩ | ⟨wrong, -, -⟩)
      · exact ⟨alive, low, (there j q alive same).trans at_, nonzero⟩
      · exact absurd wrong same

/-- The blocks at some places of one inode are given back. -/
theorem Owned.detach (owned : v.Owned) (sb : v'.sb = v.sb) {i : Nat} (leaves : Nat → Prop)
    (lives : ∀ j, v'.Live j ↔ v.Live j) (live : v.Live i)
    (cleared : ∀ q, leaves q → v'.ptr i q = 0)
    (kept : ∀ q, q ≤ MAXFILE → ¬ leaves q → v'.ptr i q = v.ptr i q)
    (there : ∀ j q, v.Live j → j ≠ i → v'.ptr j q = v.ptr j q)
    (used : ∀ b, b < v.sb.size →
      (v'.used b = true ↔ v.used b = true ∧ ¬ ∃ q, leaves q ∧ v.Tenant i q b)) : v'.Owned := by
  refine owned.drop sb (fun b => ∃ q, leaves q ∧ v.Tenant i q b) ?_ used ?_
  · intro j q b
    constructor
    · rintro ⟨alive, low, at_, nonzero⟩
      have lived := (lives j).mp alive
      have old : v.Tenant j q b := by
        by_cases same : j = i
        · subst same
          by_cases left : leaves q
          · rw [cleared q left] at at_
            exact absurd at_.symm nonzero
          · exact ⟨lived, low, (kept q low left).symm.trans at_, nonzero⟩
        · exact ⟨lived, low, (there j q lived same).symm.trans at_, nonzero⟩
      refine ⟨old, ?_⟩
      rintro ⟨r, left, other⟩
      obtain ⟨rfl, rfl⟩ := owned.apart i j r q b other old
      rw [cleared r left] at at_
      exact nonzero at_.symm
    · rintro ⟨⟨alive, low, at_, nonzero⟩, stays⟩
      refine ⟨(lives j).mpr alive, low, ?_, nonzero⟩
      by_cases same : j = i
      · subst same
        have staying : ¬ leaves q := fun left => stays ⟨q, left, alive, low, at_, nonzero⟩
        exact (kept q low staying).trans at_
      · exact (there j q alive same).trans at_
  · rintro b ⟨q, -, held⟩
    exact (owned.range i q b held).1

end Ownership

section Updates

/-- `balloc`: the block is marked and zeroed. -/
def alloc (v : Volume) (b : Nat) : Volume :=
  { v with used := Function.update v.used b true, block := Function.update v.block b zeroBlock }

/-- `bfree`. -/
def release (v : Volume) (b : Nat) : Volume := { v with used := Function.update v.used b false }

def setNode (v : Volume) (i : Nat) (d : Dinode) : Volume :=
  { v with node := Function.update v.node i d }

def setBlock (v : Volume) (b : Nat) (data : Block) : Volume :=
  { v with block := Function.update v.block b data }

/-- The pointer of the inode itself at place `p`. -/
def setAddr (v : Volume) (i p b : Nat) : Volume :=
  v.setNode i { v.node i with addrs := Function.update (v.node i).addrs p b }

/-- Entry `n` of the indirect block of the inode. -/
def setEntry (v : Volume) (i n b : Nat) : Volume :=
  v.setBlock ((v.node i).addrs NDIRECT) (putIndirect (v.block ((v.node i).addrs NDIRECT)) n b)

variable (v) {i j p q n b c : Nat}

theorem ptr_direct (near : p ≤ NDIRECT) : v.ptr i p = (v.node i).addrs p := if_pos near

theorem ptr_none (far : NDIRECT < p) (none_ : (v.node i).addrs NDIRECT = 0) : v.ptr i p = 0 := by
  rw [ptr, if_neg (by omega), if_pos none_]

theorem ptr_entry (far : NDIRECT < p) (some_ : (v.node i).addrs NDIRECT ≠ 0) :
    v.ptr i p = getIndirect (v.block ((v.node i).addrs NDIRECT)) (p - NDIRECT - 1) := by
  rw [ptr, if_neg (by omega), if_neg some_]

/-- The pointers of an inode depend on it and on its indirect block. -/
theorem ptr_congr {v v' : Volume} (node : (v'.node i).addrs = (v.node i).addrs)
    (indirect : (v.node i).addrs NDIRECT ≠ 0 →
      v'.block ((v.node i).addrs NDIRECT) = v.block ((v.node i).addrs NDIRECT)) :
    v'.ptr i p = v.ptr i p := by
  unfold ptr
  rw [node]
  by_cases near : p ≤ NDIRECT
  · rw [if_pos near, if_pos near]
  · rw [if_neg near, if_neg near]
    by_cases none_ : (v.node i).addrs NDIRECT = 0
    · rw [if_pos none_, if_pos none_]
    · rw [if_neg none_, if_neg none_, indirect none_]

theorem setNode_same (d : Dinode) : (v.setNode i d).node i = d := Function.update_self ..

theorem setNode_other (d : Dinode) (apart : j ≠ i) : (v.setNode i d).node j = v.node j :=
  Function.update_of_ne apart ..

theorem setBlock_same (data : Block) : (v.setBlock b data).block b = data :=
  Function.update_self ..

theorem setBlock_other (data : Block) (apart : c ≠ b) : (v.setBlock b data).block c = v.block c :=
  Function.update_of_ne apart ..

theorem alloc_other (apart : c ≠ b) : (v.alloc b).block c = v.block c :=
  Function.update_of_ne apart ..

theorem alloc_used : (v.alloc b).used c = (decide (c = b) || v.used c) := by
  change Function.update v.used b true c = _
  by_cases same : c = b
  · rw [same, Function.update_self]
    simp
  · rw [Function.update_of_ne same]
    simp [same]

theorem release_used : (v.release b).used c = (decide (c ≠ b) && v.used c) := by
  change Function.update v.used b false c = _
  by_cases same : c = b
  · rw [same, Function.update_self]
    simp
  · rw [Function.update_of_ne same]
    simp [same]

variable {v}

/-- The indirect block of an allocated inode is owned at its place. -/
theorem tenant_indirect (live : v.Live i) (some_ : (v.node i).addrs NDIRECT ≠ 0) :
    v.Tenant i NDIRECT ((v.node i).addrs NDIRECT) :=
  ⟨live, by decide, v.ptr_direct (Nat.le_refl _), some_⟩

theorem alloc_ptr (owned : v.Owned) (free : v.used b = false) (live : v.Live i) :
    (v.alloc b).ptr i p = v.ptr i p := by
  refine ptr_congr rfl fun some_ => v.alloc_other ?_
  intro same
  have taken := owned.taken (tenant_indirect live some_)
  rw [same, free] at taken
  cases taken

/-- A free block becomes a pointer of the inode that was null. -/
theorem attach_ptr (owned : v.Owned) (free : v.used b = false) (live : v.Live i)
    (near : p ≤ NDIRECT) (null : (v.node i).addrs p = 0) (present : b ≠ 0) :
    ((v.alloc b).setAddr i p b).ptr i q = if q = p then b else v.ptr i q := by
  have addrs : (((v.alloc b).setAddr i p b).node i).addrs = Function.update (v.node i).addrs p b := by
    rw [setAddr, setNode_same]
    rfl
  by_cases direct : q ≤ NDIRECT
  · rw [ptr_direct _ direct, ptr_direct _ direct, addrs, Function.update_apply]
  · have other : q ≠ p := by omega
    rw [if_neg other]
    by_cases last : p = NDIRECT
    · subst last
      have here : (((v.alloc b).setAddr i NDIRECT b).node i).addrs NDIRECT = b := by
        rw [addrs, Function.update_self]
      rw [ptr_none v (by omega) null, ptr_entry _ (by omega) (by rw [here]; exact present), here]
      have zeroed : ((v.alloc b).setAddr i NDIRECT b).block b = zeroBlock := Function.update_self ..
      rw [zeroed, getIndirect_zeroBlock]
    · have kept : (((v.alloc b).setAddr i p b).node i).addrs NDIRECT = (v.node i).addrs NDIRECT := by
        rw [addrs, Function.update_of_ne (Ne.symm last)]
      by_cases none_ : (v.node i).addrs NDIRECT = 0
      · rw [ptr_none v (by omega) none_, ptr_none _ (by omega) (by rw [kept]; exact none_)]
      · rw [ptr_entry v (by omega) none_, ptr_entry _ (by omega) (by rw [kept]; exact none_), kept]
        have old : ((v.alloc b).setAddr i p b).block ((v.node i).addrs NDIRECT) =
            v.block ((v.node i).addrs NDIRECT) := by
          refine v.alloc_other ?_
          intro same
          have taken := owned.taken (tenant_indirect live none_)
          rw [same, free] at taken
          cases taken
        rw [old]

theorem setAddr_live : (v.setAddr i p b).Live j ↔ v.Live j := by
  unfold Live
  by_cases same : j = i
  · subst same
    rw [setAddr, setNode_same]
    rfl
  · rw [setAddr, setNode_other _ _ same]
    rfl

theorem attach_owned (owned : v.Owned) (free : v.used b = false) (inside : b < v.sb.size)
    (live : v.Live i) (near : p ≤ NDIRECT) (null : (v.node i).addrs p = 0) :
    ((v.alloc b).setAddr i p b).Owned := by
  have present : b ≠ 0 := by
    have data := (owned.free free inside).1
    have first := v.sb.dataStart_pos
    omega
  refine owned.attach (p := p) rfl (fun j => setAddr_live) live (by unfold MAXFILE; omega)
    ((v.ptr_direct near).trans null) (fun q => attach_ptr owned free live near null present) ?_
    free inside fun c => v.alloc_used
  intro j q alive other
  rw [← alloc_ptr owned free alive]
  refine ptr_congr ?_ fun _ => rfl
  rw [setAddr, setNode_other _ _ other]

theorem setEntry_ptr (some_ : (v.node i).addrs NDIRECT ≠ 0) (small : b < 2 ^ 32) :
    (v.setEntry i n b).ptr i q = if q = NDIRECT + 1 + n then b else v.ptr i q := by
  by_cases direct : q ≤ NDIRECT
  · rw [ptr_direct _ direct, ptr_direct _ direct, if_neg (by omega)]
    rfl
  · have entry : (v.setEntry i n b).ptr i q =
        getIndirect ((v.setEntry i n b).block ((v.node i).addrs NDIRECT)) (q - NDIRECT - 1) :=
      ptr_entry _ (by omega) some_
    rw [entry, setEntry, setBlock_same, ptr_entry v (by omega) some_]
    by_cases here : q = NDIRECT + 1 + n
    · rw [if_pos here, here, show NDIRECT + 1 + n - NDIRECT - 1 = n by omega,
        getIndirect_putIndirect _ _ _ small]
    · rw [if_neg here, getIndirect_putIndirect_other _ _ _ _ (by omega)]

/-- A data block is not the indirect block of any inode. -/
theorem indirect_ne (owned : v.Owned) (held : v.Tenant i p b) (live : v.Live j)
    (some_ : (v.node j).addrs NDIRECT ≠ 0) (apart : j = i → p ≠ NDIRECT) :
    (v.node j).addrs NDIRECT ≠ b := by
  intro same
  have both := tenant_indirect live some_
  rw [same] at both
  obtain ⟨here, there⟩ := owned.apart j i NDIRECT p b both held
  exact apart here there.symm

theorem setEntry_ptr_other (owned : v.Owned) (live : v.Live i) (lives : v.Live j) (apart : j ≠ i)
    (some_ : (v.node i).addrs NDIRECT ≠ 0) : (v.setEntry i n b).ptr j q = v.ptr j q := by
  refine ptr_congr rfl fun present => v.setBlock_other _ ?_
  exact indirect_ne owned (tenant_indirect live some_) lives present fun same => absurd same apart

theorem attachEntry_owned (owned : v.Owned) (free : v.used b = false) (inside : b < v.sb.size)
    (small : v.sb.size < 2 ^ 32) (live : v.Live i) (some_ : (v.node i).addrs NDIRECT ≠ 0)
    (entry : n < NINDIRECT) (null : v.ptr i (NDIRECT + 1 + n) = 0) :
    ((v.alloc b).setEntry i n b).Owned := by
  have fresh : ∀ j, v.Live j → (v.node j).addrs NDIRECT ≠ 0 → (v.node j).addrs NDIRECT ≠ b := by
    intro j alive there same
    have taken := owned.taken (tenant_indirect alive there)
    rw [same, free] at taken
    cases taken
  refine owned.attach (p := NDIRECT + 1 + n) rfl (fun j => Iff.rfl) live
    (by unfold MAXFILE; omega) null (fun q => ?_) ?_ free inside fun c => v.alloc_used
  · rw [setEntry_ptr (v := v.alloc b) some_ (by omega), alloc_ptr owned free live]
  · intro j q alive other
    refine ptr_congr rfl fun there => ?_
    have far : (v.node j).addrs NDIRECT ≠ (v.node i).addrs NDIRECT :=
      indirect_ne owned (tenant_indirect live some_) alive there fun is => absurd is other
    exact ((v.alloc b).setBlock_other _ far).trans (v.alloc_other (fresh j alive there))

end Updates

section Growth

/-- Blocks were allocated for inode `i`, and nothing else happened. -/
structure Grow (i : Nat) (v v' : Volume) : Prop where
  sb : v'.sb = v.sb
  other : ∀ j, j ≠ i → v'.node j = v.node j
  fields : v'.node i = { v.node i with addrs := (v'.node i).addrs }
  kept : ∀ p, p ≤ MAXFILE → v.ptr i p ≠ 0 → v'.ptr i p = v.ptr i p
  used : ∀ b, v.used b = true → v'.used b = true
  block : ∀ b, v.used b = true → b ≠ v.ptr i NDIRECT → v'.block b = v.block b
  fresh : ∀ p, p ≤ MAXFILE → v.ptr i p = 0 → v'.ptr i p ≠ 0 → v.used (v'.ptr i p) = false
  zeroed : ∀ p, p ≤ MAXFILE → p ≠ NDIRECT → v.ptr i p = 0 → v'.ptr i p ≠ 0 →
    v'.block (v'.ptr i p) = zeroBlock

variable {i : Nat} {v₁ : Volume}

theorem Grow.refl (v : Volume) (i : Nat) : Grow i v v where
  sb := rfl
  other _ _ := rfl
  fields := rfl
  kept _ _ _ := rfl
  used _ taken := taken
  block _ _ _ := rfl
  fresh _ _ null some_ := absurd null some_
  zeroed _ _ _ null some_ := absurd null some_

theorem Grow.live (grow : Grow i v v') (j : Nat) : v'.Live j ↔ v.Live j := by
  unfold Live
  rw [grow.sb]
  by_cases same : j = i
  · rw [same, grow.fields]
  · rw [grow.other j same]

theorem Grow.trans (first : Grow i v v₁) (second : Grow i v₁ v') (owned : v₁.Owned)
    (live : v₁.Live i) : Grow i v v' where
  sb := second.sb.trans first.sb
  other j apart := (second.other j apart).trans (first.other j apart)
  fields := by rw [second.fields, first.fields]
  kept p inside some_ := by
    have same := first.kept p inside some_
    rw [second.kept p inside (by rwa [same]), same]
  used b taken := second.used b (first.used b taken)
  block b taken apart := by
    have far : b ≠ v₁.ptr i NDIRECT := by
      intro is
      by_cases null : v.ptr i NDIRECT = 0
      · by_cases null₁ : v₁.ptr i NDIRECT = 0
        · exact apart (is.trans (null₁.trans null.symm))
        · have unused := first.fresh NDIRECT (by decide) null null₁
          rw [← is, taken] at unused
          cases unused
      · exact apart (is.trans (first.kept NDIRECT (by decide) null))
    rw [second.block b (first.used b taken) far, first.block b taken apart]
  fresh p inside null some_ := by
    by_cases null₁ : v₁.ptr i p = 0
    · have unused := second.fresh p inside null₁ some_
      by_contra taken
      rw [first.used _ (by simpa using taken)] at unused
      cases unused
    · rw [second.kept p inside null₁]
      exact first.fresh p inside null null₁
  zeroed p inside direct null some_ := by
    by_cases null₁ : v₁.ptr i p = 0
    · exact second.zeroed p inside direct null₁ some_
    · have held : v₁.Tenant i p (v₁.ptr i p) := ⟨live, inside, rfl, null₁⟩
      rw [second.kept p inside null₁, second.block _ (owned.taken held), first.zeroed p inside direct null null₁]
      intro indirect
      have both : v₁.Tenant i NDIRECT (v₁.ptr i p) := by
        rw [indirect] at held ⊢
        exact ⟨live, by decide, rfl, held.2.2.2⟩
      exact direct (owned.apart i i p NDIRECT _ held both).2

theorem attach_grow {p b : Nat} (owned : v.Owned) (free : v.used b = false)
    (inside : b < v.sb.size) (live : v.Live i) (near : p ≤ NDIRECT)
    (null : (v.node i).addrs p = 0) : Grow i v ((v.alloc b).setAddr i p b) := by
  have present : b ≠ 0 := by
    have data := (owned.free free inside).1
    have first := v.sb.dataStart_pos
    omega
  have ptrs : ∀ q, ((v.alloc b).setAddr i p b).ptr i q = if q = p then b else v.ptr i q :=
    fun q => attach_ptr owned free live near null present
  refine ⟨rfl, ?_, ?_, ?_, ?_, ?_, ?_, ?_⟩
  · intro j apart
    rw [setAddr, setNode_other _ _ apart]
    rfl
  · rw [setAddr, setNode_same]
    rfl
  · intro q _ some_
    have other : q ≠ p := by
      rintro rfl
      exact some_ ((v.ptr_direct near).trans null)
    rw [ptrs, if_neg other]
  · intro c taken
    change (v.alloc b).used c = true
    rw [alloc_used, taken, Bool.or_true]
  · intro c taken _
    refine v.alloc_other ?_
    rintro rfl
    rw [free] at taken
    cases taken
  · intro q _ empty some_
    rw [ptrs] at some_ ⊢
    split at some_
    · rename_i here
      rw [if_pos here]
      exact free
    · exact absurd empty some_
  · intro q _ _ empty some_
    rw [ptrs] at some_ ⊢
    split at some_
    · rename_i here
      rw [if_pos here]
      exact Function.update_self ..
    · exact absurd empty some_

theorem attachEntry_grow {n b : Nat} (owned : v.Owned) (free : v.used b = false)
    (inside : b < v.sb.size) (small : v.sb.size < 2 ^ 32) (live : v.Live i)
    (some_ : (v.node i).addrs NDIRECT ≠ 0) (null : v.ptr i (NDIRECT + 1 + n) = 0) :
    Grow i v ((v.alloc b).setEntry i n b) := by
  have differs : b ≠ (v.node i).addrs NDIRECT := by
    intro same
    have taken := owned.taken (tenant_indirect live some_)
    rw [← same, free] at taken
    cases taken
  have ptrs : ∀ q, ((v.alloc b).setEntry i n b).ptr i q =
      if q = NDIRECT + 1 + n then b else v.ptr i q := by
    intro q
    rw [setEntry_ptr (v := v.alloc b) some_ (by omega), alloc_ptr owned free live]
  refine ⟨rfl, fun _ _ => rfl, rfl, ?_, ?_, ?_, ?_, ?_⟩
  · intro q _ present
    have other : q ≠ NDIRECT + 1 + n := by
      rintro rfl
      exact present null
    rw [ptrs, if_neg other]
  · intro c taken
    change (v.alloc b).used c = true
    rw [alloc_used, taken, Bool.or_true]
  · intro c taken apart
    rw [v.ptr_direct (Nat.le_refl _)] at apart
    have kept : c ≠ b := by
      rintro rfl
      rw [free] at taken
      cases taken
    exact ((v.alloc b).setBlock_other _ apart).trans (v.alloc_other kept)
  · intro q _ empty present
    rw [ptrs] at present ⊢
    split at present
    · rename_i here
      rw [if_pos here]
      exact free
    · exact absurd empty present
  · intro q _ _ empty present
    rw [ptrs] at present ⊢
    split at present
    · rename_i here
      rw [if_pos here]
      exact ((v.alloc b).setBlock_other _ differs).trans (Function.update_self ..)
    · exact absurd empty present

end Growth

section Content

/-- The place of block `bn` of a file. -/
def place (bn : Nat) : Nat := if bn < NDIRECT then bn else bn + 1

theorem place_le {bn : Nat} (limit : bn < MAXFILE) : place bn ≤ MAXFILE := by
  unfold place
  split <;> omega

theorem place_ne (bn : Nat) : place bn ≠ NDIRECT := by
  unfold place
  split <;> omega

theorem place_inj {m n : Nat} (same : place m = place n) : m = n := by
  unfold place at same
  split at same <;> split at same <;> omega

/-- Byte `o` of the file; a block that is not there reads as zeros. -/
def byte (v : Volume) (i o : Nat) : UInt8 :=
  if o / BSIZE < MAXFILE ∧ v.ptr i (place (o / BSIZE)) ≠ 0 then
    v.block (v.ptr i (place (o / BSIZE))) (o % BSIZE)
  else 0

/-- Inode `i` was written to: it may have got blocks, and its own blocks may have changed. -/
structure Touch (i : Nat) (v v' : Volume) : Prop where
  sb : v'.sb = v.sb
  other : ∀ j, j ≠ i → v'.node j = v.node j
  fields : v'.node i = { v.node i with addrs := (v'.node i).addrs, size := (v'.node i).size }
  kept : ∀ p, p ≤ MAXFILE → v.ptr i p ≠ 0 → v'.ptr i p = v.ptr i p
  used : ∀ b, v.used b = true → v'.used b = true
  fresh : ∀ p, p ≤ MAXFILE → v.ptr i p = 0 → v'.ptr i p ≠ 0 → v.used (v'.ptr i p) = false
  block : ∀ b, v.sb.dataStart ≤ b → v.used b = true → (∀ p, ¬ v.Tenant i p b) →
    v'.block b = v.block b

variable {i j p b : Nat} {v₁ : Volume}

theorem Touch.live (touch : Touch i v v') (j : Nat) : v'.Live j ↔ v.Live j := by
  unfold Live
  rw [touch.sb]
  by_cases same : j = i
  · rw [same, touch.fields]
  · rw [touch.other j same]

theorem Grow.touch (grow : Grow i v v') (live : v.Live i) : Touch i v v' where
  sb := grow.sb
  other := grow.other
  fields := by
    rw [grow.fields]
  kept := grow.kept
  used := grow.used
  fresh := grow.fresh
  block b low taken strange := by
    refine grow.block b taken ?_
    rintro rfl
    have first := v.sb.dataStart_pos
    exact strange NDIRECT ⟨live, by decide, rfl, by omega⟩

theorem Touch.trans (first : Touch i v v₁) (second : Touch i v₁ v') (live : v.Live i) :
    Touch i v v' where
  sb := second.sb.trans first.sb
  other j apart := (second.other j apart).trans (first.other j apart)
  fields := by rw [second.fields, first.fields]
  kept p inside some_ := by
    have same := first.kept p inside some_
    rw [second.kept p inside (by rwa [same]), same]
  used b taken := second.used b (first.used b taken)
  fresh p inside null some_ := by
    by_cases null₁ : v₁.ptr i p = 0
    · have unused := second.fresh p inside null₁ some_
      by_contra taken
      rw [first.used _ (by simpa using taken)] at unused
      cases unused
    · rw [second.kept p inside null₁]
      exact first.fresh p inside null null₁
  block b low taken strange := by
    rw [second.block b (by rw [first.sb]; exact low) (first.used b taken) ?_,
      first.block b low taken strange]
    rintro p ⟨-, inside, at_, present⟩
    by_cases null : v.ptr i p = 0
    · have unused := first.fresh p inside null (by rwa [at_])
      rw [at_, taken] at unused
      cases unused
    · refine strange p ⟨live, inside, ?_, present⟩
      rw [← first.kept p inside null, at_]

theorem Touch.tenant (touch : Touch i v v') (held : v.Tenant i p b) : v'.Tenant i p b := by
  obtain ⟨live, inside, rfl, present⟩ := held
  exact ⟨(touch.live i).mpr live, inside, touch.kept p inside present, present⟩

/-- The other files are as they were. -/
theorem Touch.ptr_other (touch : Touch i v v') (owned : v.Owned) (live : v.Live j)
    (apart : j ≠ i) : v'.ptr j p = v.ptr j p := by
  have node := touch.other j apart
  refine ptr_congr (by rw [node]) fun some_ => ?_
  have held := tenant_indirect live some_
  refine touch.block _ (owned.range _ _ _ held).1 (owned.taken held) fun q other => ?_
  exact apart (owned.apart j i _ _ _ held other).1

theorem Touch.block_other (touch : Touch i v v') (owned : v.Owned) (apart : j ≠ i)
    (held : v.Tenant j p b) : v'.block b = v.block b := by
  refine touch.block b (owned.range _ _ _ held).1 (owned.taken held) fun q other => ?_
  exact apart (owned.apart j i _ _ _ held other).1

theorem Touch.byte_other (touch : Touch i v v') (owned : v.Owned) (live : v.Live j)
    (apart : j ≠ i) (o : Nat) : v'.byte j o = v.byte j o := by
  unfold byte
  rw [touch.ptr_other owned live apart]
  by_cases mapped : o / BSIZE < MAXFILE ∧ v.ptr j (place (o / BSIZE)) ≠ 0
  · rw [if_pos mapped, if_pos mapped]
    rw [touch.block_other owned apart ⟨live, place_le mapped.1, rfl, mapped.2⟩]
  · rw [if_neg mapped, if_neg mapped]

theorem Grow.byte (grow : Grow i v v') (owned : v.Owned) (live : v.Live i) (o : Nat) :
    v'.byte i o = v.byte i o := by
  unfold Volume.byte
  by_cases limit : o / BSIZE < MAXFILE
  · have inside := place_le limit
    by_cases null : v.ptr i (place (o / BSIZE)) = 0
    · rw [if_neg (c := _ ∧ v.ptr i _ ≠ 0) (by simp [null])]
      by_cases null' : v'.ptr i (place (o / BSIZE)) = 0
      · rw [if_neg (by simp [null'])]
      · rw [if_pos ⟨limit, null'⟩, grow.zeroed _ inside (place_ne _) null null']
        rfl
    · have same := grow.kept _ inside null
      have held : v.Tenant i (place (o / BSIZE)) _ := ⟨live, inside, rfl, null⟩
      rw [same, if_pos ⟨limit, null⟩, if_pos ⟨limit, null⟩, grow.block _ (owned.taken held)]
      intro indirect
      have both : v.Tenant i NDIRECT (v.ptr i (place (o / BSIZE))) := ⟨live, by decide, indirect.symm, null⟩
      exact place_ne _ (owned.apart i i _ _ _ held both).2
  · rw [if_neg (by simp [limit]), if_neg (by simp [limit])]

/-- A store into a data block of a file. -/
theorem setBlock_ptr (owned : v.Owned) (held : v.Tenant i p b) (direct : p ≠ NDIRECT)
    (live : v.Live j) (data : Block) (q : Nat) : (v.setBlock b data).ptr j q = v.ptr j q := by
  refine ptr_congr rfl fun some_ => v.setBlock_other _ ?_
  exact indirect_ne owned held live some_ fun _ => direct

theorem setBlock_owned (owned : v.Owned) (held : v.Tenant i p b) (direct : p ≠ NDIRECT)
    (data : Block) : (v.setBlock b data).Owned := by
  refine owned.same rfl (fun j q c => ?_) fun _ _ => rfl
  unfold Tenant
  constructor
  · rintro ⟨live, rest⟩
    rw [setBlock_ptr owned held direct live] at rest
    exact ⟨live, rest⟩
  · rintro ⟨live, rest⟩
    rw [← setBlock_ptr owned held direct live data] at rest
    exact ⟨live, rest⟩

theorem setBlock_touch (owned : v.Owned) (held : v.Tenant i p b) (direct : p ≠ NDIRECT)
    (data : Block) : Touch i v (v.setBlock b data) where
  sb := rfl
  other _ _ := rfl
  fields := rfl
  kept q _ _ := setBlock_ptr owned held direct held.1 data q
  used _ taken := taken
  fresh q _ null some_ := by
    rw [setBlock_ptr owned held direct held.1] at some_
    exact absurd null some_
  block c _ _ strange := by
    refine v.setBlock_other _ ?_
    rintro rfl
    exact strange p held

theorem setBlock_byte (owned : v.Owned) {bn : Nat} (limit : bn < MAXFILE)
    (held : v.Tenant i (place bn) b) (data : Block) (o : Nat) :
    (v.setBlock b data).byte i o = if o / BSIZE = bn then data (o % BSIZE) else v.byte i o := by
  unfold Volume.byte
  rw [setBlock_ptr owned held (place_ne bn) held.1]
  by_cases here : o / BSIZE = bn
  · have at_ := held.2.2.1
    rw [if_pos here, here, at_, if_pos ⟨limit, held.2.2.2⟩, setBlock_same]
  · rw [if_neg here]
    by_cases mapped : o / BSIZE < MAXFILE ∧ v.ptr i (place (o / BSIZE)) ≠ 0
    · rw [if_pos mapped, if_pos mapped, v.setBlock_other]
      intro same
      have other : v.Tenant i (place (o / BSIZE)) b := ⟨held.1, place_le mapped.1, same, held.2.2.2⟩
      exact here (place_inj (owned.apart i i _ _ b other held).2)
    · rw [if_neg mapped, if_neg mapped]

/-- A change of the fields of an allocated inode other than its pointers. -/
theorem refield_ptr {d : Dinode} (addrs : d.addrs = (v.node i).addrs) (q : Nat) :
    (v.setNode i d).ptr j q = v.ptr j q := by
  refine ptr_congr ?_ fun _ => rfl
  by_cases same : j = i
  · rw [same, setNode_same, addrs]
  · rw [setNode_other _ _ same]

theorem refield_live {d : Dinode} (type : d.type = 0 ↔ (v.node i).type = 0) :
    (v.setNode i d).Live j ↔ v.Live j := by
  unfold Live
  by_cases same : j = i
  · subst same
    rw [setNode_same, ne_eq, ne_eq, type]
    rfl
  · rw [setNode_other _ _ same]
    rfl

theorem refield_owned (owned : v.Owned) {d : Dinode} (addrs : d.addrs = (v.node i).addrs)
    (type : d.type = 0 ↔ (v.node i).type = 0) : (v.setNode i d).Owned := by
  refine owned.same rfl (fun j q b => ?_) fun _ _ => rfl
  unfold Tenant
  rw [refield_live type, refield_ptr addrs]

theorem refield_byte {d : Dinode} (addrs : d.addrs = (v.node i).addrs) (o : Nat) :
    (v.setNode i d).byte j o = v.byte j o := by
  unfold byte
  rw [refield_ptr addrs]
  rfl

theorem resize_touch (size : Nat) :
    Touch i v (v.setNode i { v.node i with size }) := by
  have ptrs : ∀ p, (v.setNode i { v.node i with size }).ptr i p = v.ptr i p :=
    fun p => refield_ptr (d := { v.node i with size }) rfl p
  refine ⟨rfl, fun _ apart => v.setNode_other _ apart, ?_, fun p _ _ => ptrs p,
    fun _ taken => taken, ?_, fun _ _ _ _ => rfl⟩
  · rw [setNode_same]
  · intro p _ null some_
    rw [ptrs] at some_
    exact absurd null some_

end Content

section Freeing

/-- The blocks at the places `gone` of inode `i` were given back, and the inode is `d` now. -/
structure Freed (i : Nat) (gone : Nat → Prop) (d : Dinode) (v v' : Volume) : Prop where
  sb : v'.sb = v.sb
  other : ∀ j, j ≠ i → v'.node j = v.node j
  node : v'.node i = d
  block : v'.block = v.block
  used : ∀ b, v'.used b = true ↔ v.used b = true ∧ ¬ ∃ p, gone p ∧ v.Tenant i p b

variable {i p b : Nat} {gone : Nat → Prop} {d : Dinode} {v₁ : Volume}

theorem Freed.refl (v : Volume) (i : Nat) : Freed i (fun _ => False) (v.node i) v v where
  sb := rfl
  other _ _ := rfl
  node := rfl
  block := rfl
  used b := by simp

theorem Freed.congr (freed : Freed i gone d v v₁) {gone' : Nat → Prop}
    (same : ∀ p, p ≤ MAXFILE → v.ptr i p ≠ 0 → (gone p ↔ gone' p)) : Freed i gone' d v v₁ where
  sb := freed.sb
  other := freed.other
  node := freed.node
  block := freed.block
  used c := by
    rw [freed.used c]
    refine and_congr_right fun _ => not_congr (exists_congr fun q => and_congr_left fun held => ?_)
    exact same q held.2.1 (by rw [held.2.2.1]; exact held.2.2.2)

theorem Freed.release (freed : Freed i gone d v v₁) (held : v.Tenant i p b) :
    Freed i (fun q => gone q ∨ q = p) d v (v₁.release b) where
  sb := freed.sb
  other := freed.other
  node := freed.node
  block := freed.block
  used c := by
    rw [release_used, Bool.and_eq_true, decide_eq_true_eq, freed.used c]
    constructor
    · rintro ⟨apart, taken, stays⟩
      refine ⟨taken, ?_⟩
      rintro ⟨q, left | rfl, at_⟩
      · exact stays ⟨q, left, at_⟩
      · exact apart (at_.2.2.1.symm.trans held.2.2.1)
    · rintro ⟨taken, stays⟩
      refine ⟨?_, taken, fun ⟨q, left, at_⟩ => stays ⟨q, .inl left, at_⟩⟩
      rintro rfl
      exact stays ⟨p, .inr rfl, held⟩

theorem Freed.renode (freed : Freed i gone d v v₁) (d' : Dinode) :
    Freed i gone d' v (v₁.setNode i d') where
  sb := freed.sb
  other j apart := (v₁.setNode_other _ apart).trans (freed.other j apart)
  node := v₁.setNode_same _
  block := freed.block
  used := freed.used

theorem Freed.taken (freed : Freed i gone d v v₁) (owned : v.Owned) (held : v.Tenant i p b)
    (stays : ¬ gone p) : v₁.used b = true := by
  refine (freed.used b).mpr ⟨owned.taken held, ?_⟩
  rintro ⟨q, left, at_⟩
  rw [(owned.apart i i q p b at_ held).2] at left
  exact stays left

/-- An inode that has lost all its blocks. -/
theorem Freed.owned (freed : Freed i (fun _ => True) d v v') (owned : v.Owned) (live : v.Live i)
    (type : d.type ≠ 0) (null : ∀ p, p ≤ NDIRECT → d.addrs p = 0) : v'.Owned := by
  have ptrs : ∀ q, v'.ptr i q = 0 := by
    intro q
    by_cases near : q ≤ NDIRECT
    · rw [ptr_direct _ near, freed.node]
      exact null q near
    · refine ptr_none _ (by omega) ?_
      rw [freed.node]
      exact null NDIRECT (Nat.le_refl _)
  refine owned.detach freed.sb (fun _ => True) ?_ live (fun q _ => ptrs q)
    (fun q _ wrong => absurd trivial wrong) ?_ fun b _ => freed.used b
  · intro j
    unfold Live
    rw [freed.sb]
    by_cases same : j = i
    · rw [same, freed.node]
      exact and_congr_right fun _ => ⟨fun _ => live.2, fun _ => type⟩
    · rw [freed.other j same]
  · intro j q _ apart
    refine ptr_congr ?_ fun _ => by rw [freed.block]
    rw [freed.other j apart]

end Freeing

end Volume

end PaddleOs
