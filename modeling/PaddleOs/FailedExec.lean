import PaddleOs.ExecArgs
import PaddleOs.InstalledPrograms

/-!
`exec` that returns -1. Each of its exits gives up the address space it was making; the pages
that hold the arguments go back too, and the process that called is as it was.
-/

namespace PaddleOs.Kernel

open Foundation.Outcome Foundation.View
open Fs (Path)

section Undoing

variable {W : Type} {s : State W} {p : Pid} {g₀ g : Vm.Ledger} {ram₀ : Vm.Ram} {r frame n : Nat}

theorem pushArgs_builds (shape : Vm.Shape (g.space r) g₀.trampoline frame n) (base : Nat)
    (argv : List (List UInt8)) :
    ∀ (s : State W) (sp : Nat) (ustack : List Nat), Vm.Built r g₀ ram₀ s.ram g →
      outcome (pushArgs r base argv sp ustack)
        (fun _ s' => ∃ ram, s' = { s with ram } ∧ Vm.Built r g₀ ram₀ ram g) NoFault s := by
  induction argv with
  | nil => exact fun s _ _ built => ⟨s.ram, rfl, built⟩
  | cons arg rest ih =>
      intro s sp ustack built
      unfold pushArgs
      rw [outcome_ite]
      refine ⟨fun _ => ⟨s.ram, rfl, built⟩, fun _ => ?_⟩
      dsimp only
      rw [outcome_ite]
      refine ⟨fun _ => ⟨s.ram, rfl, built⟩, fun _ => ?_⟩
      refine vm_then (Vm.copyout_builds built shape _ _) fun ok ram built' => ?_
      rw [outcome_ite]
      refine ⟨fun _ => ?_, fun _ => ⟨ram, rfl, built'⟩⟩
      refine outcome_post (ih { s with ram } _ _ built') ?_
      rintro _ _ ⟨ram', rfl, built''⟩
      exact ⟨ram', rfl, built''⟩

theorem buildStack_builds (built : Vm.Built r g₀ ram₀ s.ram g)
    (shape : Vm.Shape (g.space r) g₀.trampoline frame n) (sz : Nat) (argv : List (List UInt8)) :
    outcome (buildStack r sz argv)
      (fun _ s' => ∃ ram, s' = { s with ram } ∧ Vm.Built r g₀ ram₀ ram g) NoFault s := by
  unfold buildStack
  refine outcome_seq (pushArgs_builds shape _ argv s _ _ built) ?_
  rintro got _ ⟨ram, rfl, built'⟩
  cases got with
  | none => exact ⟨ram, rfl, built'⟩
  | some stack =>
      dsimp only
      rw [outcome_ite]
      refine ⟨fun _ => ⟨ram, rfl, built'⟩, fun _ => ?_⟩
      refine vm_then (s := { s with ram }) (Vm.copyout_builds built' shape _ _) fun ok ram' built'' => ?_
      rw [outcome_ite]
      exact ⟨fun _ => ⟨ram', rfl, built''⟩, fun _ => ⟨ram', rfl, built''⟩⟩

variable [BlockLayer W]

theorem execStart_undoes {image : Nat → UInt8} {fabric : Fabric}
    (woven : Woven s p g₀ ram₀ n image fabric s.ram g) (path : Path) (argv : List (List UInt8)) :
    outcome (execStart p path argv fabric) (fun result s' => result = -1 → Undoes s g₀ ram₀ s')
      (fun _ _ => True) s := by
  unfold execStart
  refine outcome_seq (outcome_mono (buildStack_builds woven.built woven.shape fabric.sz argv)
    (fun _ _ done => done) fun _ _ _ => trivial) ?_
  rintro got _ ⟨ram, rfl, built⟩
  cases got with
  | none =>
      have shape : Vm.Shape (g.space fabric.pagetable) g₀.trampoline (s.proc p).trapframe
          (Vm.pagesOf fabric.sz) := by
        rw [woven.size, Vm.pagesOf_mul]
        exact woven.shape
      exact outcome_mono (execBad_undoes (s := { s with ram }) built shape none)
        (fun _ _ undoes _ => undoes.of_step) fun _ _ _ => trivial
  | some sp =>
      have returned : ∀ start : State W, outcome (do
          let old ← proc p
          vm (Vm.putBytes old.trapframe Vm.TF_A1 (wordBytes sp))
          modifyProc p fun p =>
            { p with name := lastName path, pagetable := fabric.pagetable, sz := fabric.sz }
          vm (Vm.putBytes old.trapframe Vm.TF_EPC (wordBytes fabric.entry))
          vm (Vm.putBytes old.trapframe Vm.TF_SP (wordBytes sp))
          vm (Vm.procFreepagetable old.pagetable fabric.oldsz)
          return (argv.length : Int)) (fun result _ => result = argv.length) (fun _ _ => True) start := by
        intro start
        refine outcome_seq (follows_true _ start) fun old _ _ => ?_
        refine outcome_seq (follows_true _ _) fun _ _ _ => ?_
        refine outcome_seq (follows_true _ _) fun _ _ _ => ?_
        refine outcome_seq (follows_true _ _) fun _ _ _ => ?_
        refine outcome_seq (follows_true _ _) fun _ _ _ => ?_
        exact outcome_seq (follows_true _ _) fun _ _ _ => rfl
      refine outcome_post (returned { s with ram }) fun result s' is failed => ?_
      omega

/-- An `exec` that fails has touched the file system and free pages only. -/
theorem exec_undoes (housed : Housed s p g) (path : Path) (argv : List (List UInt8)) :
    outcome (exec p path argv) (fun result s' => result = -1 → Undoes s g s.ram s')
      (fun _ _ => True) s := by
  rw [exec_parts]
  refine outcome_seq (outcome_mono (execFabric_makes housed (opens_any s p path) delivers_any)
    (fun _ _ done => done) fun _ _ _ => trivial) ?_
  intro got s₁ made
  cases got with
  | none => exact fun _ => made
  | some fabric =>
      obtain ⟨fs, ram, g', n, image, rfl, woven, -⟩ := made
      refine outcome_post (execStart_undoes (s := { s with fs, ram })
        ⟨woven.built, woven.shape, woven.size, woven.guard, woven.holds, woven.oldsz, woven.entry⟩ path argv) ?_
      exact fun result s' undoes failed => (undoes failed).of_step

end Undoing

section Arguments

variable {W : Type} {s : State W} {p : Pid} {g g' : Vm.Ledger} {pages : List Nat} {page : Nat}

/-- The pages are on loan to the call; they were free. -/
structure Lent (g : Vm.Ledger) (pages : List Nat) (g' : Vm.Ledger) : Prop where
  first : g'.first = g.first
  trampoline : g'.trampoline = g.trampoline
  space : g'.space = g.space
  nodup : pages.Nodup
  free : ∀ q ∈ pages, g.owner q = .free
  owner : ∀ q, g'.owner q = if q ∈ pages then .kept .temporary else g.owner q

theorem Lent.nothing (g : Vm.Ledger) : Lent g [] g :=
  ⟨rfl, rfl, rfl, List.nodup_nil, fun _ none_ => absurd none_ List.not_mem_nil,
    fun _ => (if_neg List.not_mem_nil).symm⟩

theorem Lent.take (lent : Lent g pages g') (free : g'.owner page = .free) :
    Lent g (pages ++ [page]) (g'.assign page (.kept .temporary)) := by
  have new : page ∉ pages := by
    intro old
    rw [lent.owner, if_pos old] at free
    cases free
  refine ⟨lent.first, lent.trampoline, lent.space, ?_, fun q here => ?_, fun q => ?_⟩
  · rw [List.nodup_append]
    refine ⟨lent.nodup, List.nodup_singleton page, fun a inside b last => ?_⟩
    rw [List.mem_singleton.mp last]
    rintro rfl
    exact new inside
  · rcases List.mem_append.mp here with old | last
    · exact lent.free q old
    · rw [List.mem_singleton.mp last, ← free, lent.owner, if_neg new]
  · rw [Vm.assign_owner, lent.owner]
    by_cases here : q = page
    · rw [if_pos here, if_pos (by simp [here])]
    · rw [if_neg here]
      refine if_congr ?_ rfl rfl
      rw [List.mem_append, List.mem_singleton]
      exact ⟨.inl, fun either => either.resolve_right here⟩

theorem Lent.give {rest : List Nat} (lent : Lent g (page :: rest) g') :
    Lent g rest (g'.assign page .free) := by
  obtain ⟨new, nodup⟩ := List.nodup_cons.mp lent.nodup
  refine ⟨lent.first, lent.trampoline, lent.space, nodup, fun q here => ?_, fun q => ?_⟩
  · exact lent.free q (List.mem_cons_of_mem _ here)
  · rw [Vm.assign_owner, lent.owner]
    by_cases here : q = page
    · rw [if_pos here, here, if_neg new, lent.free page List.mem_cons_self]
    · rw [if_neg here]
      refine if_congr ?_ rfl rfl
      rw [List.mem_cons]
      exact ⟨fun either => either.resolve_left here, .inr⟩

theorem Lent.returned (lent : Lent g [] g') : g' = g :=
  Vm.Ledger.ext lent.first lent.trampoline
    (funext fun q => by rw [lent.owner, if_neg List.not_mem_nil]) lent.space

/-- What was in use is not on loan. -/
theorem Lent.keeps (lent : Lent g pages g') {q : Nat} (used : g.owner q ≠ .free) :
    g'.owner q = g.owner q := by
  rw [lent.owner, if_neg fun inside => used (lent.free q inside)]

theorem collectArgs_lends (args : Nat → Arg) (fuel : Nat) :
    ∀ (s : State W) (g' : Vm.Ledger) (i : Nat) (pages : List Nat) (argv : List (List UInt8)),
      Vm.Agrees Vm.Strict s.ram g' → Lent g pages g' →
      outcome (collectArgs args fuel i pages argv)
        (fun result s' => ∃ ram g'', s' = { s with ram } ∧ Vm.Agrees Vm.Strict ram g'' ∧
          Lent g result.1 g'' ∧ Vm.Takes s.ram ram) NoFault s := by
  induction fuel with
  | zero => exact fun s g' _ pages _ h lent => ⟨s.ram, g', rfl, h, lent, .refl _⟩
  | succ fuel ih =>
      intro s g' i pages argv h lent
      unfold collectArgs
      cases args i with
      | noAddress => exact ⟨s.ram, g', rfl, h, lent, .refl _⟩
      | null => exact ⟨s.ram, g', rfl, h, lent, .refl _⟩
      | noString =>
          refine vm_then (Vm.kalloc_takes.and (Vm.kalloc_spec h)) ?_
          rintro got ram ⟨agrees, taken⟩
          cases got with
          | none => exact ⟨ram, g', rfl, agrees, lent, taken⟩
          | some page => exact ⟨ram, _, rfl, agrees.2, lent.take agrees.1, taken⟩
      | string string =>
          refine vm_then (Vm.kalloc_takes.and (Vm.kalloc_spec h)) ?_
          rintro got ram ⟨agrees, taken⟩
          cases got with
          | none => exact ⟨ram, g', rfl, agrees, lent, taken⟩
          | some page =>
              refine outcome_post (ih { s with ram } _ _ _ _ agrees.2 (lent.take agrees.1)) ?_
              rintro result _ ⟨ram', g'', rfl, agrees', lent', taken'⟩
              exact ⟨ram', g'', rfl, agrees', lent', taken.trans taken'⟩

theorem freeArgs_returns (pages : List Nat) :
    ∀ (s : State W) (g' : Vm.Ledger), Vm.Agrees Vm.Strict s.ram g' → Lent g pages g' →
      outcome (freeArgs pages)
        (fun _ s' => ∃ ram, s' = { s with ram } ∧ Vm.Agrees Vm.Strict ram g ∧ Vm.Gives s.ram ram)
        NoFault s := by
  induction pages with
  | nil =>
      intro s g' h lent
      obtain rfl := lent.returned
      exact ⟨s.ram, rfl, h, .refl _⟩
  | cons page rest ih =>
      intro s g' h lent
      have kept : g'.owner page = .kept .temporary := by rw [lent.owner, if_pos List.mem_cons_self]
      unfold freeArgs
      refine vm_then ((Vm.kfree_gives page).and (Vm.kfree_spec h kept)) ?_
      rintro _ ram ⟨agrees, given⟩
      refine outcome_post (ih { s with ram } _ agrees lent.give) ?_
      rintro _ _ ⟨ram', rfl, agrees', given'⟩
      exact ⟨ram', rfl, agrees', given.trans given'⟩

theorem Housed.lent (housed : Housed s p g) {ram : Vm.Ram} (h : Vm.Agrees Vm.Strict ram g')
    (lent : Lent g pages g') : Housed { s with ram } p g' where
  agrees := h
  frame := by
    rw [lent.keeps]
    · exact housed.frame
    · rw [housed.frame]
      exact fun bad => nomatch bad
  root := by
    rw [lent.keeps]
    · exact housed.root
    · rw [housed.root]
      exact fun bad => nomatch bad
  shape := by
    rw [lent.space, lent.trampoline]
    exact housed.shape

end Arguments

section Failures

variable {W : Type} {s s' : State W} {p : Pid} {g : Vm.Ledger}

/-- The processes and the open files are the same, and so are the memory and the registers of the
process. -/
structure Spared (p : Pid) (s s' : State W) : Prop where
  proc : s'.proc = s.proc
  file : s'.file = s.file
  pipe : s'.pipe = s.pipe
  mapping : ∀ va, Vm.mapping s'.ram (s.proc p).pagetable va = Vm.mapping s.ram (s.proc p).pagetable va
  byte : ∀ va, va < TRAPFRAME →
    Vm.byteAt s'.ram (s.proc p).pagetable va = Vm.byteAt s.ram (s.proc p).pagetable va
  trapframe : s'.ram.byte (s.proc p).trapframe = s.ram.byte (s.proc p).trapframe

theorem Undoes.spared (undoes : Undoes s g s.ram s') (housed : Housed s p g) : Spared p s s' := by
  obtain ⟨fs, ram, rfl, undone⟩ := undoes
  have maps : ∀ va, Vm.mapping ram (s.proc p).pagetable va = Vm.mapping s.ram (s.proc p).pagetable va := by
    intro va
    by_cases bound : va < MAXVA
    · rw [Vm.mapping_space undone.agrees housed.root bound, Vm.mapping_space housed.agrees housed.root bound]
    · rw [Vm.mapping_high bound, Vm.mapping_high bound]
  refine ⟨rfl, rfl, rfl, maps, fun va low => ?_, undone.byte _ ?_⟩
  · have bound : va < MAXVA := Nat.lt_trans low (by decide)
    unfold Vm.byteAt
    rw [maps, Vm.mapping_space housed.agrees housed.root bound]
    cases found : g.space (s.proc p).pagetable (va / PGSIZE) with
    | none => rfl
    | some pte =>
        have page : va / PGSIZE < TRAPFRAME / PGSIZE := by
          rw [Vm.frame_page]
          unfold TRAPFRAME TRAMPOLINE MAXVA PGSIZE at low
          unfold PGSIZE
          omega
        have owned := (housed.agrees.target _ _ pte found).2 (Vm.ordinary_of_lt page)
        simp only [Option.map_some]
        rw [undone.byte _ (by rw [owned]; exact fun bad => nomatch bad)]
  · rw [housed.frame]
    exact fun bad => nomatch bad

/-- The pages of the arguments go back as well. -/
theorem freeArgs_undoes {g' : Vm.Ledger} {pages : List Nat} {ram₁ : Vm.Ram} (housed : Housed s p g)
    (lent : Lent g pages g') (taken : Vm.Takes s.ram ram₁) {s₁ : State W}
    (undoes : Undoes { s with ram := ram₁ } g' ram₁ s₁) :
    outcome (freeArgs pages) (fun _ s' => Undoes s g s.ram s') NoFault s₁ := by
  obtain ⟨fs, ram₂, rfl, undone⟩ := undoes
  refine outcome_post (freeArgs_returns pages { s with fs, ram := ram₂ } g' undone.agrees lent) ?_
  rintro _ _ ⟨ram₃, rfl, agrees, given⟩
  refine ⟨fs, ram₃, rfl, agrees, fun q used => ?_⟩
  rw [given.byte q fun free => used ((agrees.free q).mp free),
    undone.byte q (by rw [lent.keeps used]; exact used),
    taken.byte q fun free => used ((housed.agrees.free q).mp free)]

variable [BlockLayer W]

theorem sysExec_undoes (housed : Housed s p g) (path : Option Path) (args : Nat → Arg) :
    outcome (sysExec p path args) (fun result s' => result = -1 → Undoes s g s.ram s')
      (fun _ _ => True) s := by
  have same : Vm.Undone g s.ram s.ram := ⟨housed.agrees, fun _ _ => rfl⟩
  unfold sysExec
  cases path with
  | none => exact fun _ => ⟨s.fs, s.ram, rfl, same⟩
  | some path =>
      refine outcome_seq (outcome_mono (collectArgs_lends args MAXARG s g 0 [] [] housed.agrees (.nothing g))
        (fun _ _ done => done) fun _ _ _ => trivial) ?_
      rintro ⟨pages, got⟩ _ ⟨ram₁, g', rfl, agrees, lent, taken⟩
      cases got with
      | none =>
          refine outcome_seq (outcome_mono (freeArgs_undoes housed lent taken
            ⟨s.fs, ram₁, rfl, agrees, fun _ _ => rfl⟩) (fun _ _ done => done) fun _ _ _ => trivial) ?_
          exact fun _ s' undoes _ => undoes
      | some argv =>
          refine outcome_seq (exec_undoes (housed.lent agrees lent) path argv) ?_
          intro result s₂ undoes
          by_cases failed : result = -1
          · refine outcome_seq (outcome_mono (freeArgs_undoes housed lent taken (undoes failed))
              (fun _ _ done => done) fun _ _ _ => trivial) ?_
            exact fun _ s' undoes' _ => undoes'
          · refine outcome_seq (follows_true _ s₂) fun _ s' _ => ?_
            exact fun failed' => absurd failed' failed

/-- An `exec` that returns -1 leaves the process that called it as it was. -/
theorem failed_exec_spares (housed : Housed s p g) (path : Option Path) (args : Nat → Arg) :
    outcome (sysExec p path args) (fun result s' => result = -1 → Spared p s s') (fun _ _ => True) s :=
  outcome_post (sysExec_undoes housed path args) fun _ _ undoes failed => (undoes failed).spared housed

/-- A segment that ends behind the end of the file is found when its page is there already. -/
theorem short_file_spares : ∃ (s s' : State Journal) (args : Nat → Arg),
    sysExec initproc (some [97]) args s = .ok (-1) s' ∧ Spared initproc s s' := by
  obtain ⟨s, -, -, ⟨g, housed⟩, test⟩ := @installed_such (programFile 64 121)
    (returns (sysExec initproc (some [97]) fun i => if i = 0 then .string [98] else .null)
      fun r _ => decide (r = -1)) (by decide +kernel)
  obtain ⟨r, s', ran, test⟩ := returns_ok test
  obtain rfl := of_decide_eq_true test
  exact ⟨s, s', _, ran, outcome_of_ok (failed_exec_spares housed _ _) ran rfl⟩

end Failures

end PaddleOs.Kernel
