import PaddleOs.KernelSteps
import PaddleOs.Spaces

/-!
The pages of one process: `allocproc` takes a trapframe and a page table for it, `freeproc`
gives back whatever it has.
-/

namespace PaddleOs.Kernel

open Foundation.Outcome Foundation.View

variable {W : Type} {g g' : Vm.Ledger} {s : State W} {p : Pid}

/-- The slot as `freeproc` leaves it. -/
def Proc.cleared (proc : Proc) : Proc :=
  { proc with
    trapframe := 0, pagetable := 0, sz := 0, pid := 0, parent := none, name := [], killed := false
    xstate := 0, state := .unused }

/-- The page is the trapframe of the process or belongs to its page table. -/
def Proc.Has (proc : Proc) (g : Vm.Ledger) (q : Nat) : Prop :=
  proc.trapframe ≠ 0 ∧ q = proc.trapframe ∨ proc.pagetable ≠ 0 ∧ Vm.Pool proc.pagetable (g.owner q)

/-- All pages of the process are free. -/
structure Freed (proc : Proc) (g g' : Vm.Ledger) : Prop where
  first : g'.first = g.first
  trampoline : g'.trampoline = g.trampoline
  gone : ∀ q, proc.Has g q → g'.owner q = .free
  rest : ∀ q, ¬ proc.Has g q → g'.owner q = g.owner q
  none : proc.pagetable ≠ 0 → ∀ n, g'.space proc.pagetable n = none
  space : ∀ r, ¬ (proc.pagetable ≠ 0 ∧ r = proc.pagetable) → g'.space r = g.space r

/-- The pages of a process, as far as it has any. -/
structure Owned (proc : Proc) (g : Vm.Ledger) : Prop where
  frame : proc.trapframe ≠ 0 → g.owner proc.trapframe = .kept .trapframe
  root : proc.pagetable ≠ 0 → g.owner proc.pagetable = .table proc.pagetable []
  shape : proc.pagetable ≠ 0 → Vm.Shape (g.space proc.pagetable) g.trampoline proc.trapframe
    (Vm.pagesOf proc.sz)

/-- The address space of the process has its shape, in memory that agrees with a ledger. -/
def WellShaped (s : State W) (p : Pid) : Prop :=
  ∃ g, Vm.Agrees Vm.Strict s.ram g ∧
    g.owner (s.proc p).pagetable = .table (s.proc p).pagetable [] ∧
    Vm.Shape (g.space (s.proc p).pagetable) g.trampoline (s.proc p).trapframe
      (Vm.pagesOf (s.proc p).sz)

section Release

/-- The ledger once the trapframe of the process is free. -/
structure Unframed (proc : Proc) (g g' : Vm.Ledger) : Prop where
  first : g'.first = g.first
  trampoline : g'.trampoline = g.trampoline
  space : g'.space = g.space
  gone : proc.trapframe ≠ 0 → g'.owner proc.trapframe = .free
  rest : ∀ q, ¬ (proc.trapframe ≠ 0 ∧ q = proc.trapframe) → g'.owner q = g.owner q

theorem Unframed.assign {proc : Proc} (frame : proc.trapframe ≠ 0) :
    Unframed proc g (g.assign proc.trapframe .free) where
  first := rfl
  trampoline := rfl
  space := rfl
  gone _ := by simp
  rest q other := by rw [Vm.assign_owner, if_neg fun same => other ⟨frame, same⟩]

theorem Unframed.bare {proc : Proc} (bare : proc.trapframe = 0) : Unframed proc g g where
  first := rfl
  trampoline := rfl
  space := rfl
  gone frame := absurd bare frame
  rest _ _ := rfl

/-- No table and no user page is a trapframe. -/
theorem Unframed.pool {proc : Proc} (unframed : Unframed proc g g') (owned : Owned proc g) {r q : Nat}
    (pool : Vm.Pool r (g.owner q)) : g'.owner q = g.owner q := by
  refine unframed.rest q ?_
  rintro ⟨frame, rfl⟩
  rw [owned.frame frame] at pool
  exact pool

theorem Unframed.freed {proc : Proc} (unframed : Unframed proc g g') (bare : proc.pagetable = 0) :
    Freed proc g g' where
  first := unframed.first
  trampoline := unframed.trampoline
  gone q has := by
    rcases has with ⟨frame, rfl⟩ | ⟨used, -⟩
    · exact unframed.gone frame
    · exact absurd bare used
  rest q other := unframed.rest q fun frame => other (.inl frame)
  none used := absurd bare used
  space r _ := by rw [unframed.space]

theorem Unframed.fell {proc : Proc} {g'' : Vm.Ledger} (unframed : Unframed proc g g')
    (owned : Owned proc g) (used : proc.pagetable ≠ 0) (gone : Vm.Gone proc.pagetable g' g'') :
    Freed proc g g'' where
  first := gone.first.trans unframed.first
  trampoline := gone.trampoline.trans unframed.trampoline
  gone q has := by
    rcases has with ⟨frame, rfl⟩ | ⟨-, pool⟩
    · refine gone.gone _ ?_
      rw [unframed.gone frame]
      trivial
    · refine gone.gone q ?_
      rw [unframed.pool owned pool]
      exact pool
  rest q other := by
    have same := unframed.rest q fun frame => other (.inl frame)
    rw [gone.rest q, same]
    rw [same]
    exact fun pool => other (.inr ⟨used, pool⟩)
  none _ := gone.none
  space r other := by rw [gone.space r fun same => other ⟨used, same⟩, unframed.space]

/-- `freeproc` gives back all pages of the process. -/
theorem freeproc_spec (h : Vm.Agrees Vm.Strict s.ram g) (owned : Owned (s.proc p) g) :
    outcome (freeproc p)
      (fun _ s' => ∃ ram g', Vm.Agrees Vm.Strict ram g' ∧ Vm.Gives s.ram ram ∧
        Freed (s.proc p) g g' ∧
        s' = { s with ram, proc := Function.update s.proc p (s.proc p).cleared })
      NoFault s := by
  have rest : ∀ ram g₁, Vm.Agrees Vm.Strict ram g₁ → Vm.Gives s.ram ram → Unframed (s.proc p) g g₁ →
      outcome (do
        modifyProc p fun p => { p with trapframe := 0 }
        if (s.proc p).pagetable ≠ 0 then vm (Vm.procFreepagetable (s.proc p).pagetable (s.proc p).sz)
        modifyProc p fun p =>
          { p with pagetable := 0, sz := 0, pid := 0, parent := none, name := [], killed := false
                   xstate := 0, state := .unused })
        (fun _ s' => ∃ ram g', Vm.Agrees Vm.Strict ram g' ∧ Vm.Gives s.ram ram ∧
          Freed (s.proc p) g g' ∧
          s' = { s with ram, proc := Function.update s.proc p (s.proc p).cleared })
        NoFault { s with ram } := by
    intro ram g₁ agrees given unframed
    have final : ∀ after g', Vm.Agrees Vm.Strict after g' → Vm.Gives s.ram after →
        Freed (s.proc p) g g' →
        outcome (modifyProc p fun p =>
          { p with pagetable := 0, sz := 0, pid := 0, parent := none, name := [], killed := false
                   xstate := 0, state := .unused })
          (fun _ s' => ∃ ram g', Vm.Agrees Vm.Strict ram g' ∧ Vm.Gives s.ram ram ∧
            Freed (s.proc p) g g' ∧
            s' = { s with ram, proc := Function.update s.proc p (s.proc p).cleared })
          NoFault
          { s with ram := after, proc := Function.update s.proc p { s.proc p with trapframe := 0 } } := by
      intro after g' agrees' given' freed
      refine ⟨after, g', agrees', given', freed, ?_⟩
      simp only [Function.update_self, Function.update_idem]
      rfl
    refine modifyProc_then ?_
    rw [outcome_ite]
    constructor
    · intro used
      have root : g₁.owner (s.proc p).pagetable = .table (s.proc p).pagetable [] := by
        rw [unframed.pool owned (r := (s.proc p).pagetable), owned.root used]
        rw [owned.root used]
        rfl
      have shape := owned.shape used
      rw [← unframed.space] at shape
      refine vm_then ((Vm.procFreepagetable_gives _ _).and
        (Vm.procFreepagetable_spec agrees root shape)) ?_
      rintro - after ⟨⟨g', agrees', gone⟩, given'⟩
      exact final after g' agrees' (given.trans given') (unframed.fell owned used gone)
    · intro bare
      exact final ram g₁ agrees given (unframed.freed (Decidable.not_not.mp bare))
  unfold freeproc
  refine proc_then ?_
  rw [outcome_ite]
  constructor
  · intro frame
    refine vm_then ((Vm.kfree_gives _).and (Vm.kfree_spec h (owned.frame frame))) ?_
    rintro - ram ⟨agrees, given⟩
    exact rest ram _ agrees given (Unframed.assign frame)
  · intro bare
    exact rest s.ram g h (Vm.Gives.refl _) (Unframed.bare (Decidable.not_not.mp bare))

end Release

section Allocation

theorem Freed.nothing {proc : Proc} (freed : Freed proc g g') (frame : proc.trapframe = 0)
    (table : proc.pagetable = 0) : g' = g := by
  refine Vm.Ledger.ext freed.first freed.trampoline (funext fun q => freed.rest q ?_) (funext fun r => freed.space r ?_)
  · rintro (⟨framed, -⟩ | ⟨used, -⟩)
    · exact framed frame
    · exact used table
  · rintro ⟨used, -⟩
    exact used table

/-- Only the trapframe had been taken. -/
theorem Freed.frame {proc : Proc} (freed : Freed proc (g.assign proc.trapframe (.kept .trapframe)) g')
    (framed : proc.trapframe ≠ 0) (free : g.owner proc.trapframe = .free) (table : proc.pagetable = 0) :
    g' = g := by
  refine Vm.Ledger.ext freed.first freed.trampoline (funext fun q => ?_) (funext fun r => freed.space r ?_)
  · by_cases same : q = proc.trapframe
    · rw [freed.gone q (.inl ⟨framed, same⟩), same, free]
    · rw [freed.rest q, Vm.assign_owner, if_neg same]
      rintro (⟨-, frame⟩ | ⟨used, -⟩)
      · exact same frame
      · exact used table
  · rintro ⟨used, -⟩
    exact used table

/-- The slot, its pages and the ledger once `allocproc` has returned the slot. -/
structure Allocated (p : Pid) (g : Vm.Ledger) (s : State W) (trapframe r : Nat) (ram : Vm.Ram)
    (g' : Vm.Ledger) : Prop where
  unused : (s.proc p).state = .unused
  frame : g.owner trapframe = .free
  table : g.owner r = .free
  other : r ≠ trapframe
  takes : Vm.Takes s.ram ram
  edited : Vm.Edited r (g.assign trapframe (.kept .trapframe)) ram g'
  shape : Vm.Shape (g'.space r) g.trampoline trapframe 0

/-- Nothing belongs to a page table that is not there yet. -/
theorem no_pool {ram : Vm.Ram} (h : Vm.Agrees Vm.Strict ram g) {r q : Nat} (free : g.owner r = .free)
    (used : g.owner q ≠ .free) : ¬ Vm.Pool r (g.owner q) := by
  have absent : g.owner r ≠ .table r [] := by
    rw [free]
    exact fun same => nomatch same
  intro pool
  cases owned : g.owner q with
  | free => exact used owned
  | outside | kept _ => simp [Vm.Pool, owned] at pool
  | table r' path =>
      obtain rfl : r' = r := by simpa [Vm.Pool, owned] using pool
      exact absent (h.rooted owned)
  | user r' n =>
      obtain rfl : r' = r := by simpa [Vm.Pool, owned] using pool
      obtain ⟨-, pte, maps, -⟩ := h.mapped q r' n owned
      exact absent (h.space_rooted maps)

/-- Pages in use are the same as before. -/
theorem Allocated.keeps {trapframe r q : Nat} {ram : Vm.Ram} (made : Allocated p g s trapframe r ram g')
    (h : Vm.Agrees Vm.Strict s.ram g) (used : g.owner q ≠ .free) : g'.owner q = g.owner q := by
  have other : q ≠ trapframe := by
    rintro rfl
    exact used made.frame
  have before : (g.assign trapframe (.kept .trapframe)).owner q = g.owner q := by
    rw [Vm.assign_owner, if_neg other]
  rcases made.edited.moves.owner q with kept | ⟨pool, -⟩
  · rw [kept, before]
  · rw [before] at pool
    exact absurd pool (no_pool h made.table used)

/-- `allocproc` takes an unused slot, a trapframe and a page table, or no page at all. -/
theorem allocproc_spec (h : Vm.Agrees Vm.Strict s.ram g)
    (idle : ∀ q, (s.proc q).state = .unused → (s.proc q).pagetable = 0) :
    outcome allocproc
      (fun got s' =>
        match got with
        | none => s' = s ∨ ∃ p ram, (s.proc p).state = .unused ∧ Vm.Undone g s.ram ram ∧
            s' = { s with ram, nextpid := s.nextpid + 1
                          proc := Function.update s.proc p (s.proc p).cleared }
        | some p => ∃ trapframe r ram g', Allocated p g s trapframe r ram g' ∧
            s' = { s with
              ram, nextpid := s.nextpid + 1
              proc := Function.update s.proc p
                { s.proc p with pid := s.nextpid, state := .used, trapframe, pagetable := r } })
      NoFault s := by
  unfold allocproc
  refine get_then ?_
  cases slot : (List.finRange NPROC).find? fun p => decide ((s.proc p).state = .unused) with
  | none => exact .inl rfl
  | some p =>
      have found := List.find?_some slot
      have unused : (s.proc p).state = .unused := of_decide_eq_true found
      have bare := idle p unused
      -- The slot is given back with all that was taken for it.
      have giveUp : ∀ (ram : Vm.Ram) (g₁ : Vm.Ledger) (new : Proc), Vm.Agrees Vm.Strict ram g₁ →
          Owned new g₁ → (∀ g', Freed new g₁ g' → g' = g) → new.cleared = (s.proc p).cleared →
          (∀ q, g.owner q ≠ .free → ram.byte q = s.ram.byte q) →
          outcome (do
            freeproc p
            return (none : Option Pid))
            (fun got s' =>
              match got with
              | none => s' = s ∨ ∃ p ram, (s.proc p).state = .unused ∧ Vm.Undone g s.ram ram ∧
                  s' = { s with ram, nextpid := s.nextpid + 1
                                proc := Function.update s.proc p (s.proc p).cleared }
              | some p => ∃ trapframe r ram g', Allocated p g s trapframe r ram g' ∧
                  s' = { s with
                    ram, nextpid := s.nextpid + 1
                    proc := Function.update s.proc p
                      { s.proc p with pid := s.nextpid, state := .used, trapframe, pagetable := r } })
            NoFault
            { s with ram, nextpid := s.nextpid + 1, proc := Function.update s.proc p new } := by
        intro ram g₁ new agrees owned back same saved
        refine outcome_seq (freeproc_spec (g := g₁) agrees (by simpa only [Function.update_self] using owned)) ?_
        rintro - _ ⟨after, g', agrees', given, freed, rfl⟩
        simp only [Function.update_self] at freed
        obtain rfl := back g' freed
        refine .inr ⟨p, after, unused, ⟨agrees', fun q used => ?_⟩, ?_⟩
        · exact (given.byte q fun free => used ((agrees'.free q).mp free)).trans (saved q used)
        · simp only [Function.update_self, Function.update_idem, same]
      have bare := idle p unused
      dsimp only
      rw [outcome_bind, outcome_modify]
      refine modifyProc_then ?_
      refine vm_then ((Vm.kalloc_takes.and (Vm.kalloc_spec h))) ?_
      rintro got middle ⟨allocated, taken⟩
      have kept : ∀ q, g.owner q ≠ .free → middle.byte q = s.ram.byte q := fun q used =>
        taken.byte q fun free => used ((h.free q).mp free)
      cases got with
      | none =>
          refine modifyProc_then ?_
          simp only [Function.update_self, Function.update_idem]
          refine giveUp middle g _ allocated ⟨fun framed => absurd rfl framed, fun used => absurd bare used,
            fun used => absurd bare used⟩ (fun g' freed => freed.nothing rfl bare) ?_ kept
          rfl
      | some trapframe =>
          obtain ⟨free, held⟩ := allocated
          have framed : trapframe ≠ 0 := h.nonzero (by rw [free]; exact fun same => nomatch same)
          have agrees : Vm.Agrees Vm.Strict middle (g.assign trapframe (.kept .trapframe)) := by
            have again := @Vm.Agrees.reassign _ _ _ held trapframe (.kept .trapframe)
              (.inr ⟨.temporary, by simp⟩) (.inr ⟨_, rfl⟩) _ rfl rfl rfl held.nodup fun q => ?_
            · rwa [Vm.assign_assign] at again
            · rw [held.free, Vm.assign_owner, Vm.assign_owner, Vm.assign_owner]
              split <;> simp_all
          refine modifyProc_then ?_
          simp only [Function.update_self, Function.update_idem]
          refine vm_then (Vm.procPagetable_spec agrees trapframe) ?_
          intro got ram made
          cases got with
          | none =>
              refine modifyProc_then ?_
              simp only [Function.update_self, Function.update_idem]
              refine giveUp ram _ _ made.agrees ⟨fun _ => by simp, fun used => absurd rfl used,
                fun used => absurd rfl used⟩ (fun g' freed => freed.frame framed free rfl) ?_ fun q used => ?_
              · rfl
              · refine (made.byte q ?_).trans (kept q used)
                rw [Vm.assign_owner]
                split
                · exact fun same => nomatch same
                · exact used
          | some r =>
              obtain ⟨unowned, took, g', edited, shape⟩ := made
              have other : r ≠ trapframe := by
                rintro rfl
                simp at unowned
              rw [Vm.assign_owner, if_neg other] at unowned
              refine modifyProc_then ?_
              simp only [Function.update_self, Function.update_idem]
              exact ⟨trapframe, r, ram, g', ⟨unused, free, unowned, other, taken.trans took, edited, shape⟩, rfl⟩

/-- A slot that was allocated, and given back with all its pages. -/
theorem Freed.undo {proc : Proc} {ram : Vm.Ram} {g₁ : Vm.Ledger} (h : Vm.Agrees Vm.Strict ram g)
    (frame : g.owner proc.trapframe = .free) (table : g.owner proc.pagetable = .free)
    (moved : Vm.Moves proc.pagetable (g.assign proc.trapframe (.kept .trapframe)) g₁)
    (freed : Freed proc g₁ g') : g' = g := by
  have framed : proc.trapframe ≠ 0 := h.nonzero (by rw [frame]; exact fun same => nomatch same)
  have used : proc.pagetable ≠ 0 := h.nonzero (by rw [table]; exact fun same => nomatch same)
  have gone : Vm.Gone proc.pagetable g g' := by
    refine ⟨freed.first.trans moved.first, freed.trampoline.trans moved.trampoline, fun q pool => ?_,
      fun q outside => ?_, freed.none used, fun r other => ?_⟩
    · by_cases same : q = proc.trapframe
      · exact freed.gone q (.inl ⟨framed, same⟩)
      · refine freed.gone q (.inr ⟨used, ?_⟩)
        rcases moved.owner q with kept | ⟨-, pool'⟩
        · rwa [kept, Vm.assign_owner, if_neg same]
        · exact pool'
    · have other : q ≠ proc.trapframe := by
        rintro rfl
        rw [frame] at outside
        exact outside trivial
      have before : (g.assign proc.trapframe (.kept .trapframe)).owner q = g.owner q := by
        rw [Vm.assign_owner, if_neg other]
      have kept : g₁.owner q = g.owner q := by
        rcases moved.owner q with kept | ⟨pool, -⟩
        · rw [kept, before]
        · rw [before] at pool
          exact absurd pool outside
      rw [freed.rest q, kept]
      rintro (⟨-, same⟩ | ⟨-, pool⟩)
      · exact other same
      · rw [kept] at pool
        exact outside pool
    · rw [freed.space r fun both => other both.2, moved.space r other]
      rfl
  exact gone.undo h table

end Allocation

end PaddleOs.Kernel
