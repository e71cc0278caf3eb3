import PaddleOs.Foundation.View
import PaddleOs.Vm

/-!
The bytes of the pages, whatever the page tables hold. The functions of `vm.c` that allocate
change only pages that were free, those that free only pages that are free afterwards.
-/

namespace PaddleOs.Vm

open Foundation.Outcome Foundation.View

/-- Pages have left the free list, and only theirs are new bytes. -/
structure Takes (ram after : Ram) : Prop where
  freelist : ∀ q, q ∈ after.freelist → q ∈ ram.freelist
  byte : ∀ q, q ∉ ram.freelist → after.byte q = ram.byte q

/-- Pages have come to the free list, and only theirs are new bytes. -/
structure Gives (ram after : Ram) : Prop where
  freelist : ∀ q, q ∈ ram.freelist → q ∈ after.freelist
  byte : ∀ q, q ∉ after.freelist → after.byte q = ram.byte q

theorem Takes.refl (ram : Ram) : Takes ram ram := ⟨fun _ free => free, fun _ _ => rfl⟩

theorem Gives.refl (ram : Ram) : Gives ram ram := ⟨fun _ free => free, fun _ _ => rfl⟩

theorem Takes.trans {ram middle after : Ram} (left : Takes ram middle) (right : Takes middle after) :
    Takes ram after where
  freelist q free := left.freelist q (right.freelist q free)
  byte q used := (right.byte q fun free => used (left.freelist q free)).trans (left.byte q used)

theorem Gives.trans {ram middle after : Ram} (left : Gives ram middle) (right : Gives middle after) :
    Gives ram after where
  freelist q free := right.freelist q (left.freelist q free)
  byte q used := (right.byte q used).trans (left.byte q fun free => used (right.freelist q free))

/-- What is taken and given back leaves the other pages alone. -/
theorem Takes.back {ram middle after : Ram} (left : Takes ram middle) (right : Gives middle after)
    {q : Nat} (before : q ∉ ram.freelist) (used : q ∉ after.freelist) : after.byte q = ram.byte q :=
  (right.byte q used).trans (left.byte q before)

/-- A page that was taken is written. -/
theorem Takes.write {ram middle after : Ram} (taken : Takes ram middle) {page : Nat}
    (free : page ∈ ram.freelist) (freelist : after.freelist = middle.freelist)
    (others : ∀ q, q ≠ page → after.byte q = middle.byte q) : Takes ram after where
  freelist q now := taken.freelist q (freelist ▸ now)
  byte q used := by
    have apart : q ≠ page := by
      rintro rfl
      exact used free
    exact (others q apart).trans (taken.byte q used)

theorem takes_closed : Closed fun ⦃α : Type⦄ (run : VmM α) => Along Takes run :=
  closed_along Takes.refl Takes.trans

theorem gives_closed : Closed fun ⦃α : Type⦄ (run : VmM α) => Along Gives run :=
  closed_along Gives.refl Gives.trans

section Allocation

/-- `kalloc` returns the first page of the free list. -/
theorem kalloc_first (ram : Ram) :
    outcome kalloc (fun got after => Takes ram after ∧ ∀ page, got = some page → page ∈ ram.freelist)
      (fun _ _ => True) ram := by
  unfold kalloc
  rw [outcome_bind, outcome_get]
  split
  · exact ⟨⟨fun _ free => free, fun _ _ => rfl⟩, by simp⟩
  · split
    · exact ⟨⟨fun _ free => free, fun _ _ => rfl⟩, by simp⟩
    · rename_i page rest list
      have first : page ∈ ram.freelist := by
        rw [list]
        exact List.mem_cons_self
      refine ⟨⟨fun q free => ?_, fun q used => ?_⟩, fun q same => ?_⟩
      · rw [list]
        exact List.mem_cons_of_mem _ free
      · refine Function.update_of_ne ?_ _ _
        rintro rfl
        exact used first
      · cases same
        exact first

theorem kalloc_takes : Along Takes kalloc :=
  fun ram => outcome_post (kalloc_first ram) fun _ _ taken => taken.1

theorem setPte_takes (page index : Nat) (pte : Pte) : Along Takes (setPte page index pte) :=
  along_modify fun _ => ⟨fun _ free => free, fun _ _ => rfl⟩

theorem getPte_takes (page index : Nat) : Along Takes (getPte page index) :=
  takes_closed.bind takes_closed.get fun _ => takes_closed.pure _

/-- A page that has just been allocated is cleared. -/
theorem kalloc_memzero {α : Type} {full : VmM α} {next : Nat → VmM α} (failed : Along Takes full)
    (rest : ∀ page, Along Takes (next page)) :
    Along Takes (do
      match ← kalloc with
      | none => full
      | some page =>
          memzero page
          next page) := by
  intro ram
  refine outcome_seq (kalloc_first ram) ?_
  rintro got middle ⟨taken, free⟩
  cases got with
  | none => exact outcome_post (failed middle) fun _ _ further => taken.trans further
  | some page =>
      have cleared : Takes ram (middle.memset page 0) :=
        taken.write (free page rfl) rfl fun q apart => Function.update_of_ne apart _ _
      exact outcome_post (rest page (middle.memset page 0)) fun _ _ further => cleared.trans further

theorem walkLevel_takes (pagetable level va : Nat) (alloc : Bool) :
    Along Takes (walkLevel pagetable level va alloc) := by
  unfold walkLevel
  refine takes_closed.bind (getPte_takes _ _) fun pte => ?_
  refine takes_closed.ite (takes_closed.pure _) (takes_closed.ite (takes_closed.pure _) ?_)
  refine kalloc_memzero (takes_closed.pure _) fun page => ?_
  exact takes_closed.bind (setPte_takes _ _ _) fun _ => takes_closed.pure _

theorem walk_takes (pagetable va : Nat) (alloc : Bool) : Along Takes (walk pagetable va alloc) := by
  unfold walk
  refine takes_closed.ite (along_throw _) ?_
  refine takes_closed.bind (walkLevel_takes _ _ _ _) fun middle => ?_
  cases middle with
  | none => exact takes_closed.pure _
  | some table =>
      refine takes_closed.bind (walkLevel_takes _ _ _ _) fun last => ?_
      cases last with
      | none => exact takes_closed.pure _
      | some last => exact takes_closed.pure _

theorem mappagesFrom_takes (pagetable : Nat) (perm : Perm) (count : Nat) :
    ∀ start page, Along Takes (mappagesFrom pagetable perm count start page) := by
  induction count with
  | zero => exact fun _ _ => takes_closed.pure _
  | succ count ih =>
      intro start page
      rw [mappagesFrom]
      refine takes_closed.bind (walk_takes _ _ _) fun found => ?_
      cases found with
      | none => exact takes_closed.pure _
      | some place =>
          refine takes_closed.bind (getPte_takes _ _) fun pte => ?_
          refine takes_closed.ite (along_throw _) ?_
          exact takes_closed.bind (setPte_takes _ _ _) fun _ => ih _ _

theorem mappages_takes (pagetable va page size : Nat) (perm : Perm) :
    Along Takes (mappages pagetable va page size perm) := by
  unfold mappages
  exact takes_closed.ite (along_throw _) (mappagesFrom_takes _ _ _ _ _)

end Allocation

section Release

theorem kfree_gives (page : Nat) : Along Gives (kfree page) := by
  intro ram
  unfold kfree
  rw [outcome_bind, outcome_get]
  split
  · trivial
  · refine ⟨fun q free => List.mem_cons_of_mem _ free, fun q used => ?_⟩
    refine Function.update_of_ne ?_ _ _
    rintro rfl
    exact used List.mem_cons_self

theorem setPte_gives (page index : Nat) (pte : Pte) : Along Gives (setPte page index pte) :=
  along_modify fun _ => ⟨fun _ free => free, fun _ _ => rfl⟩

theorem getPte_gives (page index : Nat) : Along Gives (getPte page index) :=
  gives_closed.bind gives_closed.get fun _ => gives_closed.pure _

theorem walkLevel_gives (pagetable level va : Nat) : Along Gives (walkLevel pagetable level va false) := by
  unfold walkLevel
  refine gives_closed.bind (getPte_gives _ _) fun pte => ?_
  exact gives_closed.ite (gives_closed.pure _) (gives_closed.pure _)

theorem walk_gives (pagetable va : Nat) : Along Gives (walk pagetable va false) := by
  unfold walk
  refine gives_closed.ite (along_throw _) ?_
  refine gives_closed.bind (walkLevel_gives _ _ _) fun middle => ?_
  cases middle with
  | none => exact gives_closed.pure _
  | some table =>
      refine gives_closed.bind (walkLevel_gives _ _ _) fun last => ?_
      cases last with
      | none => exact gives_closed.pure _
      | some last => exact gives_closed.pure _

theorem uvmunmapPage_gives (pagetable : Nat) (doFree : Bool) (va : Nat) :
    Along Gives (uvmunmapPage pagetable doFree va) := by
  unfold uvmunmapPage
  refine gives_closed.bind (walk_gives _ _) fun found => ?_
  cases found with
  | none => exact along_throw _
  | some place =>
      refine gives_closed.bind (getPte_gives _ _) fun pte => ?_
      refine gives_closed.ite (along_throw _) (gives_closed.ite (along_throw _) ?_)
      refine gives_closed.ite ?_ (setPte_gives _ _ _)
      exact gives_closed.bind (kfree_gives _) fun _ => setPte_gives _ _ _

theorem uvmunmap_gives (pagetable va npages : Nat) (doFree : Bool) :
    Along Gives (uvmunmap pagetable va npages doFree) := by
  unfold uvmunmap
  exact gives_closed.ite (along_throw _)
    (gives_closed.loop (fun _ => uvmunmapPage_gives _ _ _) _ _)

theorem uvmdealloc_gives (pagetable oldsz newsz : Nat) :
    Along Gives (uvmdealloc pagetable oldsz newsz) := by
  unfold uvmdealloc
  refine gives_closed.ite (gives_closed.pure _) (gives_closed.ite ?_ (gives_closed.pure _))
  exact gives_closed.bind (uvmunmap_gives _ _ _ _) fun _ => gives_closed.pure _

theorem freewalk_gives (depth : Nat) : ∀ pagetable, Along Gives (freewalk depth pagetable) := by
  induction depth with
  | zero => exact fun _ => along_throw _
  | succ depth ih =>
      intro pagetable
      rw [freewalk]
      refine gives_closed.bind (gives_closed.loop (fun i => ?_) _ _) fun _ => kfree_gives _
      refine gives_closed.bind (getPte_gives _ _) fun pte => gives_closed.ite ?_ ?_
      · exact gives_closed.bind (ih _) fun _ => setPte_gives _ _ _
      · exact gives_closed.ite (along_throw _) (gives_closed.pure _)

theorem uvmfree_gives (pagetable sz : Nat) : Along Gives (uvmfree pagetable sz) := by
  unfold uvmfree
  refine gives_closed.ite ?_ (freewalk_gives _ _)
  exact gives_closed.bind (uvmunmap_gives _ _ _ _) fun _ => freewalk_gives _ _

theorem procFreepagetable_gives (pagetable sz : Nat) :
    Along Gives (procFreepagetable pagetable sz) := by
  unfold procFreepagetable
  refine gives_closed.bind (uvmunmap_gives _ _ _ _) fun _ => ?_
  exact gives_closed.bind (uvmunmap_gives _ _ _ _) fun _ => uvmfree_gives _ _

end Release

end PaddleOs.Vm
