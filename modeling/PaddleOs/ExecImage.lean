import PaddleOs.ExecLoad

/-!
`exec` as two parts: the new address space with its stack, and the arguments on the stack
with the change to the new image. Each exit before the last steps gives up the new address
space and nothing else.
-/

namespace PaddleOs.Kernel

open Foundation.Outcome Foundation.Overlay Foundation.View
open Fs (Path)

variable {W : Type}

section Pages

variable {s s' : State W} {p : Pid} {g₀ : Vm.Ledger} {ram₀ ram : Vm.Ram} {fs : Fs.State W}

/-- The pages of the process: the trapframe, and an address space in its shape. -/
structure Housed (s : State W) (p : Pid) (g : Vm.Ledger) : Prop where
  agrees : Vm.Agrees Vm.Strict s.ram g
  frame : g.owner (s.proc p).trapframe = .kept .trapframe
  root : g.owner (s.proc p).pagetable = .table (s.proc p).pagetable []
  shape : Vm.Shape (g.space (s.proc p).pagetable) g.trampoline (s.proc p).trapframe
    (Vm.pagesOf (s.proc p).sz)

/-- Only the file system and free pages have been touched. -/
def Undoes (s : State W) (g₀ : Vm.Ledger) (ram₀ : Vm.Ram) (s' : State W) : Prop :=
  ∃ fs ram, s' = { s with fs, ram } ∧ Vm.Undone g₀ ram₀ ram

theorem Undoes.of_step (undoes : Undoes { s with fs, ram } g₀ ram₀ s') : Undoes s g₀ ram₀ s' := by
  obtain ⟨fs', ram', rfl, undone⟩ := undoes
  exact ⟨fs', ram', rfl, undone⟩

end Pages

section Parts

variable [BlockLayer W]

/-- The address space that `exec` has made: its page table, its size, the entry point of the
program, and the size of the old one. -/
structure Fabric where
  pagetable : Nat
  sz : Nat
  entry : Nat
  oldsz : Nat

/-- The two pages of the user stack. -/
def execRoom (p : Pid) (pagetable sz entry : Nat) : KernelM W (Option Fabric) := do
  let oldsz := (← proc p).sz
  let sz := PGROUNDUP sz
  let sz1 ← vm (Vm.uvmalloc pagetable sz (word64 (sz + 2 * PGSIZE)) true false)
  if sz1 = 0 then
    let _ ← execBad (W := W) (some pagetable) sz none
    return none
  vm (Vm.uvmclear pagetable (sz1 - 2 * PGSIZE))
  return some { pagetable, sz := sz1, entry, oldsz }

/-- `exec` as far as the arguments do not matter; none for -1. -/
def execFabric (p : Pid) (path : Path) : KernelM W (Option Fabric) := do
  fs Fs.beginOp
  match ← fs (Fs.namei (← cwd p) path) with
  | none =>
      fs Fs.endOp
      return none
  | some ip =>
      fs (Fs.ilock ip)
      let (r, bytes) ← fs (Fs.readi ip Fs.kernelAccepts 0 ELFHDR)
      if r ≠ (ELFHDR : Int) then
        let _ ← execBad (W := W) none 0 (some ip)
        return none
      let elf := getElfhdr bytes
      if elf.magic ≠ ELF_MAGIC then
        let _ ← execBad (W := W) none 0 (some ip)
        return none
      match ← vm (Vm.procPagetable (← proc p).trapframe) with
      | none =>
          let _ ← execBad (W := W) none 0 (some ip)
          return none
      | some pagetable =>
          let (loaded, sz) ← execSegments pagetable ip elf.phnum (elf.phoff % 2 ^ 32) 0
          if !loaded then
            let _ ← execBad (W := W) (some pagetable) sz (some ip)
            return none
          fs (Fs.iunlockput ip)
          fs Fs.endOp
          execRoom p pagetable sz elf.entry

/-- The rest of `exec`. -/
def execStart (p : Pid) (path : Path) (argv : List (List UInt8)) (fabric : Fabric) : KernelM W Int := do
  match ← buildStack fabric.pagetable fabric.sz argv with
  | none => execBad (some fabric.pagetable) fabric.sz none
  | some sp =>
      let old ← proc p
      vm (Vm.putBytes old.trapframe Vm.TF_A1 (wordBytes sp))
      modifyProc p fun p => { p with name := lastName path, pagetable := fabric.pagetable, sz := fabric.sz }
      vm (Vm.putBytes old.trapframe Vm.TF_EPC (wordBytes fabric.entry))
      vm (Vm.putBytes old.trapframe Vm.TF_SP (wordBytes sp))
      vm (Vm.procFreepagetable old.pagetable fabric.oldsz)
      return argv.length

theorem execBad_fails (pagetable : Option Nat) (sz : Nat) (ip : Option Fs.Slot) :
    execBad pagetable sz ip = (do
      let _ ← execBad (W := W) pagetable sz ip
      return -1) := by
  unfold execBad
  cases pagetable <;> cases ip <;> simp only [bind_assoc, pure_bind]

theorem execStack_parts (p : Pid) (pagetable sz : Nat) (path : Path) (entry : Nat) (argv : List (List UInt8)) :
    execStack (W := W) p pagetable sz path entry argv = (do
      match ← execRoom p pagetable sz entry with
      | none => return -1
      | some fabric => execStart p path argv fabric) := by
  unfold execStack execRoom
  simp only [bind_assoc]
  refine bind_congr fun proc => bind_congr fun sz1 => ?_
  split
  · rw [execBad_fails]
    simp only [bind_assoc, pure_bind]
  · simp only [bind_assoc, pure_bind]
    rfl

/-- `exec` is its two parts. -/
theorem exec_parts (p : Pid) (path : Path) (argv : List (List UInt8)) :
    exec (W := W) p path argv = (do
      match ← execFabric p path with
      | none => return -1
      | some fabric => execStart p path argv fabric) := by
  unfold exec execFabric
  simp only [bind_assoc]
  refine bind_congr fun _ => bind_congr fun home => bind_congr fun got => ?_
  cases got with
  | none => simp only [bind_assoc, pure_bind]
  | some ip =>
      simp only [bind_assoc]
      refine bind_congr fun _ => bind_congr fun read => ?_
      split
      · rw [execBad_fails]
        simp only [bind_assoc, pure_bind]
      · split
        · rw [execBad_fails]
          simp only [bind_assoc, pure_bind]
        · simp only [bind_assoc]
          refine bind_congr fun _ => bind_congr fun got => ?_
          cases got with
          | none =>
              rw [execBad_fails]
              simp only [bind_assoc, pure_bind]
          | some pagetable =>
              simp only [bind_assoc]
              refine bind_congr fun result => ?_
              split
              · rw [execBad_fails]
                simp only [bind_assoc, pure_bind]
              · simp only [bind_assoc]
                exact bind_congr fun _ => bind_congr fun _ => execStack_parts _ _ _ _ _ _

end Parts

section Making

variable [BlockLayer W] {s : State W} {p : Pid} {path : Path} {g₀ g : Vm.Ledger} {ram₀ : Vm.Ram} {r frame : Nat}
variable {steady : Fs.Slot → Fs.State W → Prop} {known : Prop} {file : List UInt8} {n : Nat}
variable {image : Nat → UInt8} {elf : Elfhdr}

/-- The file that `exec` finds is locked in a state of this kind. -/
def Opens (s : State W) (p : Pid) (path : Path) (steady : Fs.Slot → Fs.State W → Prop) : Prop :=
  ∀ home, (s.proc p).cwd = some home →
    outcome (do
      Fs.beginOp
      Fs.namei home path)
      (fun got fs => ∀ ip ∈ got, outcome (Fs.ilock ip) (fun _ fs' => steady ip fs') (fun _ _ => True) fs)
      (fun _ _ => True) s.fs

/-- What the file says of an image of `n` pages below the stack. -/
structure Described (file : List UInt8) (elf : Elfhdr) (n : Nat) (image : Nat → UInt8) : Prop where
  header : elf = getElfhdr (file.take ELFHDR) ∧ ELFHDR ≤ file.length
  magic : elf.magic = ELF_MAGIC
  bytes : image = imageByte file (headers file elf elf.phnum)
  top : n = Vm.pagesOf (topOf (headers file elf elf.phnum))
  table : ∀ i < elf.phnum, headerOffset elf i + PROGHDR ≤ file.length
  segments : SegmentsInside file (headers file elf elf.phnum)

/-- The new address space: `n` pages of the image, the guard page, and the page of the stack. -/
structure Woven (s : State W) (p : Pid) (g₀ : Vm.Ledger) (ram₀ : Vm.Ram) (n : Nat) (image : Nat → UInt8)
    (fabric : Fabric) (ram : Vm.Ram) (g : Vm.Ledger) : Prop where
  built : Vm.Built fabric.pagetable g₀ ram₀ ram g
  shape : Vm.Shape (g.space fabric.pagetable) g₀.trampoline (s.proc p).trapframe (n + 2)
  size : fabric.sz = (n + 2) * PGSIZE
  guard : ∃ pte, g.space fabric.pagetable n = some pte ∧ pte.perm.u = false
  holds : Vm.Shows ram (g.space fabric.pagetable) (fun k => k < n ∨ k = n + 1) image
  oldsz : fabric.oldsz = (s.proc p).sz
  entry : fabric.entry < 2 ^ 64

omit [BlockLayer W] in
theorem cwd_then {α : Type} {next : Fs.Slot → KernelM W α} {post : α → State W → Prop}
    (rest : ∀ home, (s.proc p).cwd = some home → outcome (next home) post NoFault s) :
    outcome (cwd p >>= next) post NoFault s := by
  rw [outcome_bind]
  unfold cwd
  refine proc_then ?_
  split
  · rename_i home at_
    exact rest home at_
  · rintro ⟨stop, same⟩
    cases same

theorem execBad_undoes (built : Vm.Built r g₀ ram₀ s.ram g) {trampoline sz : Nat}
    (shape : Vm.Shape (g.space r) trampoline frame (Vm.pagesOf sz)) (ip : Option Fs.Slot) :
    outcome (execBad (some r) sz ip) (fun _ s' => Undoes s g₀ ram₀ s') NoFault s := by
  unfold execBad
  refine vm_then (Vm.procFreepagetable_undoes built shape) fun _ ram undone => ?_
  cases ip with
  | none => exact ⟨s.fs, ram, rfl, undone⟩
  | some ip =>
      refine fs_then fun _ fs => fs_then fun _ fs' => ?_
      exact ⟨fs', ram, rfl, undone⟩

theorem execBad_returns (pagetable : Option Nat) (sz : Nat) (ip : Option Fs.Slot) (s : State W) :
    outcome (execBad pagetable sz ip) (fun result _ => result = -1) (fun _ _ => True) s := by
  rw [execBad_fails]
  exact outcome_seq (follows_true _ s) fun _ _ _ => rfl

theorem execBad_undone (undone : Vm.Undone g₀ ram₀ s.ram) (ip : Option Fs.Slot) :
    outcome (execBad none 0 ip) (fun _ s' => Undoes s g₀ ram₀ s') NoFault s := by
  unfold execBad
  cases ip with
  | none => exact ⟨s.fs, s.ram, rfl, undone⟩
  | some ip =>
      refine fs_then fun _ fs => fs_then fun _ fs' => ?_
      exact ⟨fs', s.ram, rfl, undone⟩

/-- The stack is added to the image. -/
theorem execRoom_makes {sz entry : Nat} (word : entry < 2 ^ 64)
    (site : Vm.Site r (s.proc p).trapframe g₀ ram₀ (Vm.pagesOf sz) image s.ram g) :
    outcome (execRoom p r sz entry)
      (fun got s' =>
        match got with
        | none => Undoes s g₀ ram₀ s'
        | some fabric => fabric.entry = entry ∧ fabric.pagetable = r ∧
            ∃ ram g', s' = { s with ram } ∧
              Woven s p g₀ ram₀ (Vm.pagesOf sz) image fabric ram g')
      NoFault s := by
  have few := site.few
  have round : PGROUNDUP sz = Vm.pagesOf sz * PGSIZE := Vm.roundup_eq (by
    unfold Vm.pagesOf PGSIZE at few
    unfold PGSIZE MAXVA
    omega)
  have top : word64 (PGROUNDUP sz + 2 * PGSIZE) = (Vm.pagesOf sz + 2) * PGSIZE := by
    rw [round, Nat.add_mul, Vm.word64_small]
    unfold PGSIZE MAXVA
    omega
  unfold execRoom
  refine proc_then ?_
  dsimp only
  rw [top]
  have start : Vm.Site r (s.proc p).trapframe g₀ ram₀ (Vm.pagesOf (PGROUNDUP sz)) image s.ram g := by
    rw [round, Vm.pagesOf_mul]
    exact site
  refine vm_then (start.uvmalloc _ true false) ?_
  rintro sz1 ram ⟨g', ended⟩
  rw [outcome_ite]
  refine ⟨fun zero => ?_, fun some => ?_⟩
  · obtain ⟨-, site'⟩ := ended.resolve_right fun done => by
      have := done.1
      unfold PGSIZE at this
      omega
    refine outcome_seq (execBad_undoes (s := { s with ram }) site'.built site'.shape none) ?_
    exact fun _ s' undoes => undoes.of_step
  · have done := ended.resolve_left fun failed => some failed.1
    have reached := done.1
    have site' := done.2
    have size : sz1 = (Vm.pagesOf sz + 2) * PGSIZE := by
      rw [round] at reached
      rw [reached]
      exact max_eq_right (Nat.mul_le_mul_right _ (by omega))
    have guard : sz1 - 2 * PGSIZE = Vm.pagesOf sz * PGSIZE := by
      rw [size, Nat.add_mul, Nat.add_sub_cancel]
    rw [size, Vm.pagesOf_mul] at site'
    rw [guard]
    refine vm_then site'.guard ?_
    rintro - ram' ⟨g₁, built, shape, hidden, holds⟩
    exact ⟨rfl, rfl, ram', g₁, rfl, built, shape, size, hidden, holds, rfl, word⟩

/-- What `execFabric` leaves. -/
def Makes (known : Prop) (file : List UInt8) (s : State W) (p : Pid) (g : Vm.Ledger) :
    Option Fabric → State W → Prop
  | none, s' => Undoes s g s.ram s'
  | some fabric, s' => ∃ fs ram g' n image, s' = { s with fs, ram } ∧
      Woven s p g s.ram n image fabric ram g' ∧
      (known → ∃ elf, Described file elf n image ∧ fabric.entry = elf.entry)

/-- `exec` from the file it has found and locked on. -/
theorem execFabric_reads (housed : Housed s p g) {ip : Fs.Slot} {fs₁ : Fs.State W}
    (delivers : Supplies ip (steady ip) known file) (calm : steady ip fs₁) :
    outcome (do
      let (r, bytes) ← fs (Fs.readi ip Fs.kernelAccepts 0 ELFHDR)
      if r ≠ (ELFHDR : Int) then
        let _ ← execBad (W := W) none 0 (some ip)
        return none
      let elf := getElfhdr bytes
      if elf.magic ≠ ELF_MAGIC then
        let _ ← execBad (W := W) none 0 (some ip)
        return none
      match ← vm (Vm.procPagetable (← proc p).trapframe) with
      | none =>
          let _ ← execBad (W := W) none 0 (some ip)
          return none
      | some pagetable =>
          let (loaded, sz) ← execSegments pagetable ip elf.phnum (elf.phoff % 2 ^ 32) 0
          if !loaded then
            let _ ← execBad (W := W) (some pagetable) sz (some ip)
            return none
          fs (Fs.iunlockput ip)
          fs Fs.endOp
          execRoom p pagetable sz elf.entry) (Makes known file s p g) NoFault { s with fs := fs₁ } := by
  have nothing : ∀ fs, outcome (do
      let _ ← execBad (W := W) none 0 (some ip)
      return none) (Makes known file s p g) NoFault { s with fs } := fun fs =>
    outcome_seq (execBad_undone (s := { s with fs }) ⟨housed.agrees, fun _ _ => rfl⟩ (some ip))
      fun _ _ undoes => undoes.of_step
  refine read_then (s := { s with fs := fs₁ }) delivers calm (by decide) (by decide) ?_
  rintro ⟨n, bytes⟩ fs₂ calm₂ read
  dsimp only
  rw [outcome_ite]
  refine ⟨fun _ => nothing fs₂, fun whole => ?_⟩
  rw [outcome_ite]
  refine ⟨fun _ => nothing fs₂, fun magic => ?_⟩
  refine proc_then ?_
  refine vm_then (Vm.procPagetable_spec housed.agrees _) ?_
  intro got ram made
  cases got with
  | none =>
      refine outcome_seq (execBad_undone (s := { s with fs := fs₂, ram }) made (some ip)) ?_
      exact fun _ _ undoes => undoes.of_step
  | some r =>
      obtain ⟨free, taken, g', edited, shape⟩ := made
      have built : Vm.Built r g s.ram ram g' :=
        ⟨housed.agrees, free, edited, fun q used =>
          taken.byte q fun inside => used ((housed.agrees.free q).mp inside)⟩
      have site : Vm.Site r (s.proc p).trapframe g s.ram (Vm.pagesOf 0) (fun _ => 0) ram g' :=
        ⟨built, shape, fun k none_ => absurd none_ (Nat.not_lt_zero k), fun _ _ => rfl⟩
      have first : headerOffset (getElfhdr bytes) 0 = (getElfhdr bytes).phoff % 2 ^ 32 := by
        unfold headerOffset
        rw [Nat.zero_mul, Nat.add_zero]
      dsimp only
      rw [← first]
      refine outcome_seq (execSegments_loads (s := { s with fs := fs₂, ram }) delivers _ 0 0 _ g' calm₂ site
        (Through.start known file _)) ?_
      rintro ⟨loaded, sz⟩ _ ⟨fs₃, ram₃, g₃, image, rfl, calm₃, site₃, through⟩
      dsimp only
      cases loaded with
      | false =>
          refine outcome_seq (execBad_undoes (s := { s with fs := fs₃, ram := ram₃ }) site₃.built site₃.shape
            (some ip)) ?_
          exact fun _ _ undoes => undoes.of_step
      | true =>
          refine fs_then fun _ fs₄ => fs_then fun _ fs₅ => ?_
          refine outcome_post (execRoom_makes (s := { s with fs := fs₅, ram := ram₃ }) (getLE_width _ _) site₃) ?_
          intro got s' ended
          cases got with
          | none => exact ended.of_step
          | some fabric =>
              obtain ⟨entry, -, ram₆, g₆, rfl, woven⟩ := ended
              refine ⟨fs₅, ram₆, g₆, _, image, rfl, ⟨woven.built, woven.shape, woven.size, woven.guard,
                woven.holds, woven.oldsz, woven.entry⟩, fun sure => ⟨_, ?_, entry⟩⟩
              have delivered := handed_whole (by decide) (by decide) (by decide)
                ((congrArg Prod.fst (read sure)).symm.trans (not_not.mp whole))
              have ended := through rfl
              rw [Nat.zero_add] at ended
              exact
                { header := by
                    refine ⟨?_, (Nat.zero_add ELFHDR).symm.trans_le delivered.1⟩
                    rw [← List.drop_zero (l := file), ← delivered.2, ← read sure]
                  magic := not_not.mp magic
                  bytes := ended.bytes sure
                  top := congrArg Vm.pagesOf (ended.top sure)
                  table := ended.table sure
                  segments := ended.segments sure }

theorem execFabric_makes (housed : Housed s p g) (opens : Opens s p path steady)
    (delivers : ∀ ip, Supplies ip (steady ip) known file) :
    outcome (execFabric p path) (Makes known file s p g) NoFault s := by
  have same : Vm.Undone g s.ram s.ram := ⟨housed.agrees, fun _ _ => rfl⟩
  unfold execFabric
  cases home : (s.proc p).cwd with
  | none =>
      refine fs_then fun _ fs₁ => cwd_then fun ip₀ at_ => ?_
      cases home.symm.trans at_
  | some ip₀ =>
      have found := opens ip₀ home
      rw [outcome_bind] at found
      refine fs_spec_then found fun _ fs₁ found₁ => cwd_then fun ip₁ at_ => ?_
      obtain rfl : ip₀ = ip₁ := Option.some.inj (home.symm.trans at_)
      refine fs_spec_then found₁ fun got fs₂ locks => ?_
      cases got with
      | none => exact fs_then fun _ fs₃ => ⟨fs₃, s.ram, rfl, same⟩
      | some ip =>
          refine fs_spec_then (locks ip rfl) fun _ fs₃ calm => ?_
          exact execFabric_reads housed (delivers ip) calm

/-- Whatever the file system does, it can be read. -/
theorem opens_any (s : State W) (p : Pid) (path : Path) : Opens s p path fun _ _ => True := fun _ _ =>
  outcome_mono (follows_true _ s.fs) (fun _ fs _ ip _ => follows_true (Fs.ilock ip) fs) fun _ _ _ => trivial

theorem delivers_any (ip : Fs.Slot) : Supplies (W := W) ip (fun _ => True) False [] where
  small no := no.elim
  reads fs off n _ _ _ := outcome_mono (follows_true (Fs.readi ip Fs.kernelAccepts off n) fs)
    (fun _ _ _ => ⟨trivial, fun no => no.elim⟩) fun _ _ _ => trivial

end Making

end PaddleOs.Kernel
