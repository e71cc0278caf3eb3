import PaddleOs.ExecImage
import PaddleOs.System

/-!
The first process. `userinit` runs on memory from which nobody has taken a page, so it gets all it
asks for: a trapframe, a page table and one page for the program.
-/

namespace PaddleOs.Kernel

open Foundation.Outcome Foundation.View

variable {W : Type} {s : State W}

/-- The slot that `allocproc` looks at. -/
def firstUnused (s : State W) : Option Pid :=
  (List.finRange NPROC).find? fun p => decide ((s.proc p).state = .unused)

theorem allocproc_supplied {n : Nat} (supply : Vm.Supply (n + 6) s.ram) :
    outcome allocproc (fun got s' => got = firstUnused s ∧ (got.isSome = true → Vm.Supply n s'.ram))
      (fun _ _ => True) s := by
  unfold allocproc firstUnused
  rw [outcome_bind, outcome_get]
  split
  · rename_i none_
    exact ⟨none_.symm, nofun⟩
  · rename_i p found
    rw [outcome_bind, outcome_modify, outcome_bind]
    unfold modifyProc
    rw [outcome_modify, outcome_bind]
    unfold vm
    rw [outcome_zoom]
    refine outcome_mono (Vm.kalloc_supply (n := n + 5) supply) ?_ fun _ _ _ => trivial
    rintro got ram ⟨some_, left⟩
    cases got with
    | none => cases some_
    | some frame =>
        dsimp only
        rw [outcome_bind, outcome_modify, outcome_bind, outcome_zoom]
        refine outcome_mono (Vm.procPagetable_within frame n _ left) ?_ fun _ _ _ => trivial
        rintro got ram ⟨some_, left⟩
        cases got with
        | none => cases some_
        | some r => exact ⟨found.symm, fun _ => left⟩

theorem firstUnused_cleared (cleared : Cleared s) : firstUnused s = some initproc := by
  have all : ∀ p, (s.proc p).state = .unused := fun p => (cleared.proc p).1
  unfold firstUnused
  simp only [all, decide_true]
  decide

/-- The pages of the first process and what else `userinit` has changed. -/
structure Born (s : State W) (trapframe r : Nat) (g' : Vm.Ledger) (s' : State W) : Prop where
  allocated : ∃ ram g, Allocated initproc (Vm.bootLedger s.ram) s trapframe r ram g ∧ Vm.Edited r g s'.ram g'
  shape : Vm.Shape (g'.space r) s.ram.trampoline trapframe 1
  body : ∀ q, (s'.proc q).body =
    if q = initproc then { state := .runnable, pid := s.nextpid, sz := PGSIZE, pagetable := r, trapframe }
    else (s.proc q).body
  pipe : s'.pipe = s.pipe
  plug : ∀ f, (s'.file f).plug = (s.file f).plug

/-- With nine pages to spare there is a first process. -/
theorem userinit_bears [BlockLayer W] (cleared : Cleared s) (clear : Vm.Clear s.ram)
    (supply : Vm.Supply 9 s.ram) (initcode : List UInt8) :
    outcome (userinit initcode) (fun _ s' => ∃ trapframe r g', Born s trapframe r g' s')
      (fun _ _ => True) s := by
  have agrees := Vm.bootLedger_agrees clear
  have idle : ∀ q, (s.proc q).state = .unused → (s.proc q).pagetable = 0 := fun q _ =>
    (cleared.proc q).2.2.2.2.2.1
  unfold userinit
  refine outcome_seq (outcome_mono
    (outcome_and (allocproc_spec agrees idle) (allocproc_supplied supply))
    (fun _ _ both => both) fun _ _ _ => trivial) ?_
  rintro got s₁ ⟨made, found, left⟩
  rw [firstUnused_cleared cleared] at found
  cases got with
  | none => cases found
  | some p =>
      obtain rfl := Option.some.inj found
      have left := left rfl
      obtain ⟨trapframe, r, ram, g₁, made, rfl⟩ := made
      dsimp only
      rw [outcome_bind]
      change outcome (vm _ >>= _) _ _ _
      simp only [Function.update_self]
      rw [outcome_bind]
      unfold vm
      rw [outcome_zoom]
      refine outcome_mono (Vm.uvmfirst_spec made.edited.agrees made.edited.root made.shape initcode left) ?_
        fun _ _ _ => trivial
      rintro - ram' ⟨g', edited, shape⟩
      rw [outcome_bind]
      unfold modifyProc
      rw [outcome_modify]
      refine outcome_seq (outcome_mono (calm_fs (Fs.iget ROOTDEV ROOTINO) _) (fun _ _ calm => calm)
        fun _ _ _ => trivial) ?_
      intro ip s₂ calm
      rw [outcome_modify]
      refine ⟨trapframe, r, g', ⟨ram, g₁, made, ?_⟩, shape, fun q => ?_, calm.pipe, calm.plug⟩
      · rw [calm.ram]
        exact edited
      · have body := calm.body q
        by_cases here : q = initproc
        · subst here
          rw [if_pos rfl]
          simp only [Function.update_self] at body ⊢
          have fields := Body.mk.inj body
          change Body.mk _ _ _ _ _ = _
          rw [Body.mk.injEq]
          exact ⟨rfl, fields.2.1, fields.2.2.1, fields.2.2.2.1, fields.2.2.2.2⟩
        · rw [if_neg here]
          simp only [Function.update_of_ne here] at body ⊢
          exact body

/-- The first process has a trapframe and a page table of the right shape. -/
theorem Born.housed {trapframe r : Nat} {g' : Vm.Ledger} {s' : State W}
    (born : Born s trapframe r g' s') : Housed s' initproc g' := by
  obtain ⟨ram, g, made, edited⟩ := born.allocated
  have body := born.body initproc
  rw [if_pos rfl] at body
  obtain ⟨-, -, size, table, frame⟩ := Body.mk.inj body
  have trampoline : g'.trampoline = s.ram.trampoline := by
    rw [edited.moves.trampoline, made.edited.moves.trampoline]
    rfl
  have taken : (Vm.Ledger.assign (Vm.bootLedger s.ram) trapframe (.kept .trapframe)).owner trapframe =
      .kept .trapframe := by
    rw [Vm.assign_owner, if_pos rfl]
  have used := made.edited.moves.keeps taken id
  refine ⟨edited.agrees, ?_, ?_, ?_⟩
  · rw [frame]
    exact edited.moves.keeps used id
  · rw [table]
    exact edited.root
  · rw [table, frame, size, trampoline]
    exact born.shape

end PaddleOs.Kernel
