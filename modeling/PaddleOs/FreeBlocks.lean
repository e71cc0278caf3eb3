import PaddleOs.FsBlocks

/-!
Free blocks, counted. An inode gets blocks only where it has none, each of them a free one,
and a write falls short only when no free block is left. So the number of free blocks
decides whether a block of a file can be mapped.
-/

namespace PaddleOs.Fs

open Volume (place place_le place_ne)

variable {v v₁ v' : Volume} {i off bn : Nat}

section Supply

/-- The blocks that nobody uses. -/
def spare (v : Volume) : Finset Nat := (Finset.range v.sb.size).filter fun b => v.used b = false

/-- The places at which inode `i` got a block. -/
def gained (i : Nat) (v v' : Volume) : Finset Nat :=
  (Finset.range (MAXFILE + 1)).filter fun p => v.ptr i p = 0 ∧ v'.ptr i p ≠ 0

theorem mem_spare {b : Nat} : b ∈ spare v ↔ b < v.sb.size ∧ v.used b = false := by
  unfold spare
  rw [Finset.mem_filter, Finset.mem_range]

theorem mem_gained {p : Nat} : p ∈ gained i v v' ↔ p ≤ MAXFILE ∧ v.ptr i p = 0 ∧ v'.ptr i p ≠ 0 := by
  unfold gained
  rw [Finset.mem_filter, Finset.mem_range, Nat.lt_succ_iff]

/-- Each block that was got had been free. -/
theorem gained_le (owned : v'.Owned) (touch : Volume.Touch i v v') (live : v.Live i) :
    (gained i v v').card ≤ (spare v).card := by
  have live' := (touch.live i).mpr live
  have tenant : ∀ p ∈ gained i v v', v'.Tenant i p (v'.ptr i p) := by
    intro p got
    obtain ⟨inside, -, some⟩ := mem_gained.mp got
    exact ⟨live', inside, rfl, some⟩
  refine Finset.card_le_card_of_injOn (v'.ptr i) (fun p got => ?_) fun p got q got' same => ?_
  · obtain ⟨inside, none_, some⟩ := mem_gained.mp got
    refine mem_spare.mpr ⟨?_, touch.fresh p inside none_ some⟩
    rw [← touch.sb]
    exact (owned.range i p _ (tenant p got)).2
  · have again := tenant q got'
    rw [← same] at again
    exact (owned.apart i i p q _ (tenant p got) again).2

/-- When no block is free any more, all that were free have been got. -/
theorem spare_le (owned : v.Owned) (owned' : v'.Owned) (touch : Volume.Touch i v v') (full : v'.Full) :
    (spare v).card ≤ (gained i v v').card := by
  refine Finset.card_le_card_of_surjOn (v'.ptr i) fun b free => ?_
  obtain ⟨inside, unused⟩ := mem_spare.mp free
  have unheld : ∀ j p, ¬ v.Tenant j p b := fun j p held => by
    rw [owned.taken held] at unused
    cases unused
  rcases (owned'.bitmap b (touch.sb ▸ inside)).mp (full b (touch.sb ▸ inside)) with low | ⟨j, p, held⟩
  · have meta_ := (owned.bitmap b inside).mpr (.inl (touch.sb ▸ low))
    rw [unused] at meta_
    cases meta_
  obtain ⟨live, place, is, some⟩ := held
  have live₀ := (touch.live j).mp live
  obtain rfl : j = i := by
    by_contra apart
    rw [touch.ptr_other owned live₀ apart] at is
    exact unheld j p ⟨live₀, place, is, some⟩
  refine ⟨p, mem_gained.mpr ⟨place, ?_, is ▸ some⟩, is⟩
  by_contra was
  rw [touch.kept p place was] at is
  exact unheld j p ⟨live₀, place, is, some⟩

/-- The blocks of the file from `off` to `goal` are there. -/
def Backed (i off goal : Nat) (v : Volume) : Prop :=
  ∀ o, off ≤ o → o < goal → o / BSIZE < MAXFILE ∧ v.ptr i (place (o / BSIZE)) ≠ 0

/-- The indirect block is there when one of its entries is. -/
theorem indirect_of_entry (far : NDIRECT ≤ bn) (some : v.ptr i (place bn) ≠ 0) : v.ptr i NDIRECT ≠ 0 := by
  intro none_
  refine some ?_
  rw [v.ptr_direct (Nat.le_refl _)] at none_
  refine v.ptr_none ?_ none_
  unfold place
  rw [if_neg (by omega)]
  omega

theorem Backed.spanned {goal p : Nat} (mapped : Backed i off goal v) (leads : spanned off goal p) :
    p ≤ MAXFILE ∧ v.ptr i p ≠ 0 := by
  obtain ⟨o, first, last, ⟨rfl, far⟩ | rfl⟩ := leads
  · obtain ⟨limit, some⟩ := mapped o first last
    exact ⟨by decide, indirect_of_entry far some⟩
  · obtain ⟨limit, some⟩ := mapped o first last
    exact ⟨place_le limit, some⟩

/-- There was room for the blocks from `off` to `goal`, so who needs no others gets them all. -/
theorem no_shortage {v₂ : Volume} {goal p : Nat} (owned : v.Owned) (live : v.Live i)
    (owned₁ : v₁.Owned) (touch₁ : Volume.Touch i v v₁) (gains : Gains i (spanned off goal) v v₁) (full : v₁.Full)
    (owned₂ : v₂.Owned) (touch₂ : Volume.Touch i v v₂) (mapped : Backed i off goal v₂)
    (leads : spanned off goal p) : v₁.ptr i p ≠ 0 := by
  intro stuck
  have inside : gained i v v₁ ⊆ gained i v v₂ := by
    intro q got
    obtain ⟨place, none_, some⟩ := mem_gained.mp got
    exact mem_gained.mpr ⟨place, none_, (mapped.spanned (gains q place none_ some)).2⟩
  obtain ⟨place, some⟩ := mapped.spanned leads
  have none_ : v.ptr i p = 0 := by
    by_contra was
    exact was (touch₁.kept p place was ▸ stuck)
  have further : p ∈ gained i v v₂ := mem_gained.mpr ⟨place, none_, some⟩
  have missing : p ∉ gained i v v₁ := fun got => (mem_gained.mp got).2.2 stuck
  have fewer := Finset.card_lt_card (Finset.ssubset_iff_of_subset inside |>.mpr ⟨p, further, missing⟩)
  have most := gained_le owned₂ touch₂ live
  have least := spare_le owned owned₁ touch₁ full
  omega

end Supply

section Room

instance (bn p : Nat) : Decidable (needed bn p) := inferInstanceAs (Decidable (_ ∨ _))

/-- The places on the way to block `bn` of inode `i` that have no block. -/
def missing (v : Volume) (i bn : Nat) : Finset Nat :=
  (Finset.range (MAXFILE + 1)).filter fun p => needed bn p ∧ v.ptr i p = 0

/-- Block `bn` of inode `i` is there, or there are free blocks for it. -/
def RoomFor (v : Volume) (i bn : Nat) : Prop := bn < MAXFILE ∧ (missing v i bn).card ≤ (spare v).card

theorem mem_missing {p : Nat} : p ∈ missing v i bn ↔ p ≤ MAXFILE ∧ needed bn p ∧ v.ptr i p = 0 := by
  unfold missing
  rw [Finset.mem_filter, Finset.mem_range, Nat.lt_succ_iff]

/-- What could be mapped had room. -/
theorem RoomFor.of_mapped (owned' : v'.Owned) (touch : Volume.Touch i v v') (live : v.Live i)
    (limit : bn < MAXFILE) (some : v'.ptr i (place bn) ≠ 0) : RoomFor v i bn := by
  refine ⟨limit, Nat.le_trans (Finset.card_le_card fun p lacks => ?_) (gained_le owned' touch live)⟩
  obtain ⟨inside, leads, none_⟩ := mem_missing.mp lacks
  refine mem_gained.mpr ⟨inside, none_, ?_⟩
  rcases leads with ⟨rfl, far⟩ | rfl
  · exact indirect_of_entry far some
  · exact some

/-- Where a disk ran full there was no room. -/
theorem not_room (owned : v.Owned) (owned' : v'.Owned) (touch : Volume.Touch i v v') (full : v'.Full)
    (gains : Gains i (needed bn) v v') (stuck : v'.ptr i (place bn) = 0) : ¬ RoomFor v i bn := by
  rintro ⟨limit, room⟩
  have here : place bn ∈ missing v i bn := by
    refine mem_missing.mpr ⟨place_le limit, .inr rfl, ?_⟩
    by_contra was
    exact was (touch.kept _ (place_le limit) was ▸ stuck)
  have inside : gained i v v' ⊆ missing v i bn := by
    intro p got
    obtain ⟨low, none_, some⟩ := mem_gained.mp got
    exact mem_missing.mpr ⟨low, gains p low none_ some, none_⟩
  have fewer := Finset.card_lt_card ((Finset.ssubset_iff_of_subset inside).mpr
    ⟨place bn, here, fun got => (mem_gained.mp got).2.2 stuck⟩)
  have least := spare_le owned owned' touch full
  omega

end Room

end PaddleOs.Fs
