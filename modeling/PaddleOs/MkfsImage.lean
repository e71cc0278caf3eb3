import PaddleOs.FsRecords
import PaddleOs.Mkfs
import Mathlib.Algebra.BigOperators.Group.Finset.Basic
import Mathlib.Algebra.Order.BigOperators.Group.Finset
import Mathlib.Data.List.GetD

/-!
The image while `mkfs` builds it. A ledger `own` says for each block taken so far
whose it is; a file's blocks are numbered in the order `iappend` takes them, the
indirect block after the direct ones. `Layout` holds between any two steps of
`iappend`, with the local copy of the inode in the place of the one on disk.
-/

namespace PaddleOs.Mkfs

open Foundation.Outcome

inductive Owner where
  | data (inum bn : Nat)
  | index (inum : Nat)
  deriving DecidableEq

def Owner.inum : Owner → Nat
  | .data inum _ => inum
  | .index inum => inum

/-- How many blocks a file takes before its block `bn`. -/
def unit (bn : Nat) : Nat := if bn < NDIRECT then bn else bn + 1

/-- The file of inode `din` has taken `extent` blocks and holds `bytes`. -/
structure Stored (sector : Nat → Block) (own : Nat → Option Owner) (inum : Nat) (din : Dinode)
    (extent : Nat) (bytes : List UInt8) : Prop where
  mapped : ∀ bn, unit bn < extent → own (pointer sector din bn) = some (.data inum bn)
  vacant : ∀ bn, bn < MAXFILE → extent ≤ unit bn → pointer sector din bn = 0
  index : NDIRECT < extent → own (din.addrs NDIRECT) = some (.index inum)
  noIndex : extent ≤ NDIRECT → din.addrs NDIRECT = 0
  content : ∀ bn j, unit bn < extent → j < BSIZE →
    sector (pointer sector din bn) j = bytes.getD (bn * BSIZE + j) 0
  covered : ∀ bn, bn * BSIZE < bytes.length → unit bn < extent
  bounded : bytes.length ≤ MAXFILE * BSIZE
  fits : din.Fits

theorem Stored.frame {sector sector' : Nat → Block} {own own' : Nat → Option Owner} {inum : Nat}
    {din : Dinode} {extent : Nat} {bytes : List UInt8}
    (held : Stored sector own inum din extent bytes) (boot : sector' 0 = sector 0)
    (kept : ∀ b o, own b = some o → o.inum = inum → sector' b = sector b ∧ own' b = own b) :
    Stored sector' own' inum din extent bytes := by
  have same : ∀ bn, pointer sector' din bn = pointer sector din bn := by
    intro bn
    unfold pointer
    by_cases far : NDIRECT < extent
    · rw [(kept _ _ (held.index far) rfl).1]
    · rw [held.noIndex (by omega), boot]
  refine ⟨?_, ?_, ?_, held.noIndex, ?_, held.covered, held.bounded, held.fits⟩
  · intro bn taken
    have mine := held.mapped bn taken
    rw [same, (kept _ _ mine rfl).2, mine]
  · intro bn small free
    rw [same, held.vacant bn small free]
  · intro far
    have mine := held.index far
    rw [(kept _ _ mine rfl).2, mine]
  · intro bn j taken inside
    rw [same, (kept _ _ (held.mapped bn taken) rfl).1, held.content bn j taken inside]

section Take

variable {sector : Nat → Block} {own : Nat → Option Owner} {inum : Nat} {din : Dinode}
  {extent : Nat} {bytes : List UInt8} {b : Nat}

theorem Stored.past_end (held : Stored sector own inum din extent bytes) {bn : Nat}
    (free : extent ≤ unit bn) (j : Nat) : bytes.getD (bn * BSIZE + j) 0 = 0 := by
  have short : bytes.length ≤ bn * BSIZE := by
    by_contra long
    have reached := held.covered bn (by omega)
    omega
  exact List.getD_eq_default _ _ (by omega)

theorem Stored.mapped_ne (held : Stored sector own inum din extent bytes) (fresh : own b = none)
    {bn : Nat} (taken : unit bn < extent) : pointer sector din bn ≠ b := by
  intro same
  have mine := held.mapped bn taken
  rw [same, fresh] at mine
  cases mine

theorem Stored.takeDirect (held : Stored sector own inum din extent bytes)
    (near : extent < NDIRECT) (fresh : own b = none) (small : b < 2 ^ 32)
    (blank : sector b = zeroBlock) :
    Stored sector (Function.update own b (some (.data inum extent))) inum
      { din with addrs := Function.update din.addrs extent b } (extent + 1) bytes := by
  have same : ∀ bn, unit bn ≠ extent →
      pointer sector { din with addrs := Function.update din.addrs extent b } bn =
        pointer sector din bn := by
    intro bn other
    unfold pointer unit at *
    dsimp only
    rw [Function.update_of_ne (show NDIRECT ≠ extent by omega)]
    split
    · rw [Function.update_of_ne (by split at other <;> omega)]
    · rfl
  have new : ∀ bn, unit bn = extent → bn = extent ∧
      pointer sector { din with addrs := Function.update din.addrs extent b } bn = b := by
    intro bn this
    have is : bn = extent := by unfold unit at this; split at this <;> omega
    refine ⟨is, ?_⟩
    unfold pointer
    rw [is, if_pos near]
    exact Function.update_self _ _ _
  refine ⟨?_, ?_, ?_, ?_, ?_, ?_, held.bounded, held.fits.setAddr near.le small⟩
  · intro bn taken
    by_cases last : unit bn = extent
    · rw [(new bn last).2, (new bn last).1, Function.update_self]
    · have before : unit bn < extent := by omega
      rw [same bn last, Function.update_of_ne (held.mapped_ne fresh before), held.mapped bn before]
  · intro bn limit free
    rw [same bn (by omega), held.vacant bn limit (by omega)]
  · intro far
    omega
  · intro _
    dsimp only
    rw [Function.update_of_ne (by omega), held.noIndex (by omega)]
  · intro bn j taken inside
    by_cases last : unit bn = extent
    · rw [(new bn last).2, blank, held.past_end last.ge]
      rfl
    · rw [same bn last, held.content bn j (by omega) inside]
  · intro bn within
    have reached := held.covered bn within
    omega

theorem Stored.takeIndex (held : Stored sector own inum din extent bytes)
    (edge : extent = NDIRECT) (fresh : own b = none) (small : b < 2 ^ 32)
    (blank : sector b = zeroBlock) :
    Stored sector (Function.update own b (some (.index inum))) inum
      { din with addrs := Function.update din.addrs NDIRECT b } (extent + 1) bytes := by
  have direct : ∀ bn, bn < NDIRECT →
      pointer sector { din with addrs := Function.update din.addrs NDIRECT b } bn =
        pointer sector din bn := by
    intro bn near
    unfold pointer
    rw [if_pos near, if_pos near]
    exact Function.update_of_ne (by omega) _ _
  have reached : ∀ bn, unit bn < extent + 1 → bn < NDIRECT ∧ unit bn < extent := by
    intro bn taken
    unfold unit at *
    by_cases near : bn < NDIRECT
    · rw [if_pos near] at taken ⊢
      omega
    · rw [if_neg near] at taken
      omega
  refine ⟨?_, ?_, ?_, ?_, ?_, ?_, held.bounded, held.fits.setAddr (le_refl _) small⟩
  · intro bn taken
    obtain ⟨near, before⟩ := reached bn taken
    rw [direct bn near, Function.update_of_ne (held.mapped_ne fresh before), held.mapped bn before]
  · intro bn limit free
    unfold unit at free
    split at free
    · omega
    case isFalse far =>
      unfold pointer
      rw [if_neg far]
      dsimp only
      rw [Function.update_self, blank, getIndirect_zeroBlock]
  · intro _
    dsimp only
    rw [Function.update_self, Function.update_self]
  · intro near
    omega
  · intro bn j taken inside
    obtain ⟨near, before⟩ := reached bn taken
    rw [direct bn near, held.content bn j before inside]
  · intro bn within
    have before := held.covered bn within
    omega

theorem Stored.takeIndirect (held : Stored sector own inum din extent bytes)
    (far : NDIRECT < extent) (fresh : own b = none) (small : b < 2 ^ 32)
    (blank : sector b = zeroBlock) :
    Stored (Function.update sector (din.addrs NDIRECT)
        (putIndirect (sector (din.addrs NDIRECT)) (extent - 1 - NDIRECT) b))
      (Function.update own b (some (.data inum (extent - 1)))) inum din (extent + 1) bytes := by
  have index := held.index far
  have indexOther : ∀ bn, unit bn < extent → pointer sector din bn ≠ din.addrs NDIRECT := by
    intro bn taken same
    have mine := held.mapped bn taken
    rw [same, index] at mine
    cases mine
  have indexOld : din.addrs NDIRECT ≠ b := by
    intro same
    rw [same, fresh] at index
    cases index
  have same : ∀ bn, unit bn ≠ extent →
      pointer (Function.update sector (din.addrs NDIRECT)
        (putIndirect (sector (din.addrs NDIRECT)) (extent - 1 - NDIRECT) b)) din bn =
        pointer sector din bn := by
    intro bn other
    unfold pointer unit at *
    split
    · rfl
    case isFalse beyond =>
      rw [if_neg beyond] at other
      rw [Function.update_self, getIndirect_putIndirect_other _ _ _ _ (by omega)]
  have new : ∀ bn, unit bn = extent → bn = extent - 1 ∧
      pointer (Function.update sector (din.addrs NDIRECT)
        (putIndirect (sector (din.addrs NDIRECT)) (extent - 1 - NDIRECT) b)) din bn = b := by
    intro bn this
    have is : bn = extent - 1 := by unfold unit at this; split at this <;> omega
    refine ⟨is, ?_⟩
    unfold pointer
    rw [is, if_neg (by omega), Function.update_self, getIndirect_putIndirect _ _ _ small]
  refine ⟨?_, ?_, ?_, ?_, ?_, ?_, held.bounded, held.fits⟩
  · intro bn taken
    by_cases last : unit bn = extent
    · rw [(new bn last).2, (new bn last).1, Function.update_self]
    · have before : unit bn < extent := by omega
      rw [same bn last, Function.update_of_ne (held.mapped_ne fresh before), held.mapped bn before]
  · intro bn limit free
    rw [same bn (by omega), held.vacant bn limit (by omega)]
  · intro _
    rw [Function.update_of_ne indexOld, index]
  · intro near
    omega
  · intro bn j taken inside
    by_cases last : unit bn = extent
    · rw [(new bn last).2, Function.update_of_ne indexOld.symm, blank, held.past_end last.ge]
      rfl
    · have before : unit bn < extent := by omega
      rw [same bn last, Function.update_of_ne (indexOther bn before), held.content bn j before inside]
  · intro bn within
    have reached := held.covered bn within
    omega

/-- The bytes of one turn of `iappend`, stored in the block of the end of the file. -/
theorem Stored.write (held : Stored sector own inum din extent bytes) (boot : own 0 = none)
    {fbn : Nat} (chunk : List UInt8) (taken : unit fbn < extent) (limit : fbn < MAXFILE)
    (place : bytes.length / BSIZE = fbn)
    (room : bytes.length + chunk.length ≤ (fbn + 1) * BSIZE) :
    Stored (Function.update sector (pointer sector din fbn)
        (putBytes (sector (pointer sector din fbn)) (bytes.length - fbn * BSIZE) chunk))
      own inum din extent (bytes ++ chunk) := by
  have mine := held.mapped fbn taken
  have low : fbn * BSIZE ≤ bytes.length := by
    rw [← place]; exact Nat.div_mul_le_self _ _
  have same : ∀ bn, pointer (Function.update sector (pointer sector din fbn)
      (putBytes (sector (pointer sector din fbn)) (bytes.length - fbn * BSIZE) chunk)) din bn =
      pointer sector din bn := by
    intro bn
    have apart : din.addrs NDIRECT ≠ pointer sector din fbn := by
      intro clash
      by_cases far : NDIRECT < extent
      · have index := held.index far
        rw [clash, mine] at index
        cases index
      · rw [← clash, held.noIndex (by omega), boot] at mine
        cases mine
    unfold pointer at apart ⊢
    rw [Function.update_of_ne apart]
  refine ⟨?_, ?_, held.index, held.noIndex, ?_, ?_, ?_, held.fits⟩
  · intro bn before
    rw [same, held.mapped bn before]
  · intro bn small free
    rw [same, held.vacant bn small free]
  · intro bn j before inside
    rw [same]
    by_cases here : bn = fbn
    · subst here
      rw [Function.update_self, putBytes_apply]
      split
      case isTrue written =>
        rw [List.getD_append_right _ _ _ _ (by omega)]
        congr 1
        omega
      case isFalse old =>
        rw [held.content bn j before inside]
        by_cases early : bn * BSIZE + j < bytes.length
        · rw [List.getD_append _ _ _ _ early]
        · rw [List.getD_eq_default _ _ (by omega), List.getD_eq_default _ _ (by
            rw [List.length_append]; omega)]
    · have apart : pointer sector din bn ≠ pointer sector din fbn := by
        intro clash
        have his := held.mapped bn before
        rw [clash, mine] at his
        simp only [Option.some.injEq, Owner.data.injEq, true_and] at his
        exact here his.symm
      rw [Function.update_of_ne apart, held.content bn j before inside]
      by_cases early : bn < fbn
      · have far : (bn + 1) * BSIZE ≤ fbn * BSIZE := Nat.mul_le_mul_right _ early
        rw [Nat.succ_mul] at far
        rw [List.getD_append _ _ _ _ (by omega)]
      · have far : (fbn + 1) * BSIZE ≤ bn * BSIZE := Nat.mul_le_mul_right _ (by omega)
        rw [List.getD_eq_default _ _ (by omega), List.getD_eq_default _ _ (by
          rw [List.length_append]; omega)]
  · intro bn within
    rw [List.length_append] at within
    by_cases early : bn * BSIZE < bytes.length
    · exact held.covered bn early
    · have last : bn = fbn := by
        have below : bn * BSIZE < (fbn + 1) * BSIZE := by omega
        have upper := Nat.lt_of_mul_lt_mul_right below
        have above : bytes.length ≤ bn * BSIZE := by omega
        have : fbn * BSIZE ≤ bn * BSIZE := le_trans low above
        have := Nat.le_of_mul_le_mul_right this (by decide)
        omega
      rw [last]
      exact taken
  · rw [List.length_append]
    have : (fbn + 1) * BSIZE ≤ MAXFILE * BSIZE := Nat.mul_le_mul_right _ limit
    omega

end Take

/-- The blocks taken by the files of the inodes below `count`. -/
def total (extent : Nat → Nat) (count : Nat) : Nat := ∑ inum ∈ Finset.range count, extent inum

theorem total_update (extent : Nat → Nat) {count inum : Nat} (known : inum < count) (e : Nat) :
    total (Function.update extent inum e) count + extent inum = total extent count + e := by
  have inside : inum ∈ Finset.range count := Finset.mem_range.mpr known
  unfold total
  rw [← Finset.add_sum_erase _ _ inside, ← Finset.add_sum_erase _ extent inside,
    Function.update_self]
  have rest : ∑ x ∈ (Finset.range count).erase inum, Function.update extent inum e x =
      ∑ x ∈ (Finset.range count).erase inum, extent x := by
    refine Finset.sum_congr rfl fun x other => ?_
    rw [Function.update_of_ne (Finset.ne_of_mem_erase other)]
  omega

theorem total_mono (extent extent' : Nat → Nat) {count count' : Nat} (more : count ≤ count')
    (each : ∀ inum, inum < count → extent inum ≤ extent' inum) :
    total extent count ≤ total extent' count' := by
  unfold total
  calc ∑ inum ∈ Finset.range count, extent inum
      ≤ ∑ inum ∈ Finset.range count, extent' inum :=
        Finset.sum_le_sum fun inum inside => each inum (Finset.mem_range.mp inside)
    _ ≤ ∑ inum ∈ Finset.range count', extent' inum :=
        Finset.sum_le_sum_of_subset (Finset.range_mono more)

structure Layout (s : State) (own : Nat → Option Owner) (count : Nat) (dinode : Nat → Dinode)
    (extent : Nat → Nat) (held : Nat → List UInt8) : Prop where
  length : s.length = FSSIZE
  boot : s.sector 0 = zeroBlock
  stored : ∀ inum, inum ≠ 0 → inum < count →
    Stored s.sector own inum (dinode inum) (extent inum) (held inum)
  owned : ∀ b o, own b = some o → nmeta ≤ b ∧ b < s.freeblock
  blank : ∀ b, s.freeblock ≤ b → s.sector b = zeroBlock
  tally : s.freeblock = nmeta + total extent count

section Layout

variable {s : State} {own : Nat → Option Owner} {count inum : Nat}
  {dinode : Nat → Dinode} {extent : Nat → Nat} {held : Nat → List UInt8}

/-- A step that changes the file of one inode only. -/
theorem Layout.replace (lay : Layout s own count dinode extent held) (s' : State)
    (own' : Nat → Option Owner) {din : Dinode} {e : Nat}
    {bytes : List UInt8} (length : s'.length = s.length) (boot : s'.sector 0 = s.sector 0)
    (others : ∀ b o, own b = some o → o.inum ≠ inum → s'.sector b = s.sector b ∧ own' b = own b)
    (stored : Stored s'.sector own' inum din e bytes)
    (owned : ∀ b o, own' b = some o → nmeta ≤ b ∧ b < s'.freeblock)
    (blank : ∀ b, s'.freeblock ≤ b → s'.sector b = zeroBlock)
    (tally : s'.freeblock = nmeta + total (Function.update extent inum e) count) :
    Layout s' own' count (Function.update dinode inum din) (Function.update extent inum e)
      (Function.update held inum bytes) where
  length := length.trans lay.length
  boot := boot.trans lay.boot
  stored other positive known := by
    by_cases same : other = inum
    · subst same
      rw [Function.update_self, Function.update_self, Function.update_self]
      exact stored
    · rw [Function.update_of_ne same, Function.update_of_ne same, Function.update_of_ne same]
      refine (lay.stored other positive known).frame boot fun b o mine his => ?_
      exact others b o mine (by rw [his]; exact same)
  owned := owned
  blank := blank
  tally := tally

theorem nmeta_pos : 0 < nmeta := by decide

theorem Layout.fresh (lay : Layout s own count dinode extent held) : own s.freeblock = none := by
  cases taken : own s.freeblock with
  | none => rfl
  | some o => exact absurd (lay.owned _ _ taken).2 (lt_irrefl _)

/-- What a new owner of the next free block leaves of the ledger. -/
theorem Layout.enter_own (lay : Layout s own count dinode extent held) (o : Owner) (b : Nat)
    (o' : Owner) (taken : own b = some o') :
    Function.update own s.freeblock (some o) b = own b := by
  have below := (lay.owned _ _ taken).2
  rw [Function.update_of_ne (by omega)]

theorem Layout.enter_owned (lay : Layout s own count dinode extent held) (o : Owner) :
    ∀ b o', Function.update own s.freeblock (some o) b = some o' →
      nmeta ≤ b ∧ b < s.freeblock + 1 := by
  intro b o' taken
  by_cases new : b = s.freeblock
  · have low := lay.tally
    omega
  · rw [Function.update_of_ne new] at taken
    have old := lay.owned b o' taken
    omega

theorem Layout.enter_tally (lay : Layout s own count dinode extent held) (known : inum < count) :
    s.freeblock + 1 = nmeta + total (Function.update extent inum (extent inum + 1)) count := by
  have changed := total_update extent known (extent inum + 1)
  have before := lay.tally
  omega

theorem Layout.boot_free (lay : Layout s own count dinode extent held) : own 0 = none := by
  cases taken : own 0 with
  | none => rfl
  | some o => exact absurd (lay.owned _ _ taken).1 (by decide)

theorem Layout.takeDirect (lay : Layout s own count dinode extent held) (positive : inum ≠ 0)
    (known : inum < count) (near : extent inum < NDIRECT) (small : s.freeblock < 2 ^ 32) :
    Layout { s with freeblock := s.freeblock + 1 }
      (Function.update own s.freeblock (some (.data inum (extent inum)))) count
      (Function.update dinode inum { dinode inum with
        addrs := Function.update (dinode inum).addrs (extent inum) s.freeblock })
      (Function.update extent inum (extent inum + 1)) held := by
  have taken := lay.replace { s with freeblock := s.freeblock + 1 } _ rfl rfl
    (fun b o mine _ => ⟨rfl, lay.enter_own _ b o mine⟩)
    ((lay.stored inum positive known).takeDirect near lay.fresh small (lay.blank _ (le_refl _)))
    (lay.enter_owned _) (fun b above => lay.blank b (by dsimp only at above; omega))
    (lay.enter_tally known)
  rwa [Function.update_eq_self] at taken

theorem Layout.takeIndex (lay : Layout s own count dinode extent held) (positive : inum ≠ 0)
    (known : inum < count) (edge : extent inum = NDIRECT) (small : s.freeblock < 2 ^ 32) :
    Layout { s with freeblock := s.freeblock + 1 }
      (Function.update own s.freeblock (some (.index inum))) count
      (Function.update dinode inum { dinode inum with
        addrs := Function.update (dinode inum).addrs NDIRECT s.freeblock })
      (Function.update extent inum (extent inum + 1)) held := by
  have taken := lay.replace { s with freeblock := s.freeblock + 1 } _ rfl rfl
    (fun b o mine _ => ⟨rfl, lay.enter_own _ b o mine⟩)
    ((lay.stored inum positive known).takeIndex edge lay.fresh small (lay.blank _ (le_refl _)))
    (lay.enter_owned _) (fun b above => lay.blank b (by dsimp only at above; omega))
    (lay.enter_tally known)
  rwa [Function.update_eq_self] at taken

/-- A block with an owner is none of the boot block and the free ones. -/
theorem Layout.owned_apart (lay : Layout s own count dinode extent held) {b : Nat} {o : Owner}
    (taken : own b = some o) : b ≠ 0 ∧ b < s.freeblock ∧ nmeta ≤ b := by
  have range := lay.owned b o taken
  have := nmeta_pos
  omega

theorem Layout.takeIndirect (lay : Layout s own count dinode extent held) (positive : inum ≠ 0)
    (known : inum < count) (far : NDIRECT < extent inum) (small : s.freeblock < 2 ^ 32) :
    Layout { s with
        freeblock := s.freeblock + 1
        sector := Function.update s.sector ((dinode inum).addrs NDIRECT)
          (putIndirect (s.sector ((dinode inum).addrs NDIRECT)) (extent inum - 1 - NDIRECT)
            s.freeblock) }
      (Function.update own s.freeblock (some (.data inum (extent inum - 1)))) count dinode
      (Function.update extent inum (extent inum + 1)) held := by
  have mine := lay.stored inum positive known
  have index := lay.owned_apart (mine.index far)
  have taken := lay.replace { s with
        freeblock := s.freeblock + 1
        sector := Function.update s.sector ((dinode inum).addrs NDIRECT)
          (putIndirect (s.sector ((dinode inum).addrs NDIRECT)) (extent inum - 1 - NDIRECT)
            s.freeblock) } _ rfl
    (Function.update_of_ne index.1.symm _ _)
    (fun b o his other => by
      refine ⟨Function.update_of_ne ?_ _ _, lay.enter_own _ b o his⟩
      intro clash
      rw [clash, mine.index far] at his
      cases his
      exact other rfl)
    (mine.takeIndirect far lay.fresh small (lay.blank _ (le_refl _)))
    (lay.enter_owned _)
    (fun b above => by
      dsimp only at above ⊢
      rw [Function.update_of_ne (by omega), lay.blank b (by omega)])
    (lay.enter_tally known)
  rwa [Function.update_eq_self, Function.update_eq_self] at taken

theorem Layout.write (lay : Layout s own count dinode extent held) (positive : inum ≠ 0)
    (known : inum < count) {fbn : Nat} (chunk : List UInt8) (taken : unit fbn < extent inum)
    (limit : fbn < MAXFILE) (place : (held inum).length / BSIZE = fbn)
    (room : (held inum).length + chunk.length ≤ (fbn + 1) * BSIZE) :
    Layout { s with
        sector := Function.update s.sector (pointer s.sector (dinode inum) fbn)
          (putBytes (s.sector (pointer s.sector (dinode inum) fbn))
          ((held inum).length - fbn * BSIZE) chunk) }
      own count dinode extent (Function.update held inum (held inum ++ chunk)) := by
  have mine := lay.stored inum positive known
  have block := lay.owned_apart (mine.mapped fbn taken)
  have written := lay.replace { s with
      sector := Function.update s.sector (pointer s.sector (dinode inum) fbn)
        (putBytes (s.sector (pointer s.sector (dinode inum) fbn))
          ((held inum).length - fbn * BSIZE) chunk) } own rfl
    (Function.update_of_ne block.1.symm _ _)
    (fun b o his other => by
      refine ⟨Function.update_of_ne ?_ _ _, rfl⟩
      intro clash
      rw [clash, mine.mapped fbn taken] at his
      cases his
      exact other rfl)
    (mine.write lay.boot_free chunk taken limit place room) lay.owned
    (fun b above => by
      dsimp only at above ⊢
      rw [Function.update_of_ne (by omega), lay.blank b (by omega)])
    (by rw [Function.update_eq_self]; exact lay.tally)
  rwa [Function.update_eq_self, Function.update_eq_self] at written

end Layout

end PaddleOs.Mkfs
