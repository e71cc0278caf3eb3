import PaddleOs.KernelQuiet

/-!
Steps through a system call for properties of the memory: calls into the file system leave
it alone, and calls into `vm.c` have their specifications.
-/

namespace PaddleOs.Kernel

open Foundation.Outcome Foundation.View

variable {W : Type} {s : State W}

/-- A panic of `vm.c` or `kalloc.c`. -/
def Fault (reason : Halt) : Prop := ∃ stop, reason = .vm stop

/-- The call does not stop in `vm.c` or `kalloc.c`. -/
def NoFault (reason : Halt) (_ : State W) : Prop := ¬ Fault reason

section Steps

variable {α β : Type} {post : β → State W → Prop}

theorem vm_then {run : Vm.VmM α} {middle : α → Vm.Ram → Prop} {next : α → KernelM W β}
    (spec : outcome run middle (fun _ _ => False) s.ram)
    (rest : ∀ value ram, middle value ram → outcome (next value) post NoFault { s with ram }) :
    outcome (vm run >>= next) post NoFault s := by
  rw [outcome_bind]
  unfold vm
  rw [outcome_zoom]
  exact outcome_mono spec (fun value ram done => rest value ram done) fun _ _ failed => failed.elim

theorem fs_then [BlockLayer W] {run : Fs.FsM W α} {next : α → KernelM W β}
    (rest : ∀ value fs, outcome (next value) post NoFault { s with fs }) :
    outcome (fs run >>= next) post NoFault s := by
  rw [outcome_bind]
  unfold fs
  rw [outcome_zoom]
  refine outcome_mono (follows_true run s.fs) (fun value fs _ => rest value fs) fun _ _ _ fault => ?_
  obtain ⟨stop, same⟩ := fault
  cases same

theorem proc_then {p : Pid} {next : Proc → KernelM W β} (rest : outcome (next (s.proc p)) post NoFault s) :
    outcome (proc p >>= next) post NoFault s := rest

theorem file_then {f : FileId} {next : File → KernelM W β} (rest : outcome (next (s.file f)) post NoFault s) :
    outcome (file f >>= next) post NoFault s := rest

theorem get_then {next : State W → KernelM W β} (rest : outcome (next s) post NoFault s) :
    outcome (get >>= next) post NoFault s := rest

theorem modifyProc_then {p : Pid} {change : Proc → Proc} {next : Unit → KernelM W β}
    (rest : outcome (next ()) post NoFault
      { s with proc := Function.update s.proc p (change (s.proc p)) }) :
    outcome (modifyProc p change >>= next) post NoFault s := rest

theorem modifyFile_then {f : FileId} {change : File → File} {next : Unit → KernelM W β}
    (rest : outcome (next ()) post NoFault
      { s with file := Function.update s.file f (change (s.file f)) }) :
    outcome (modifyFile f change >>= next) post NoFault s := rest

theorem modifyPipe_then {page : Nat} {change : Pipe → Pipe} {next : Unit → KernelM W β}
    (rest : outcome (next ()) post NoFault
      { s with pipe := Function.update s.pipe page (change (s.pipe page)) }) :
    outcome (modifyPipe page change >>= next) post NoFault s := rest

end Steps

section Calls

variable {α β : Type}

/-- The computation moves the state along the relation and does not stop in `vm.c`. -/
def Moved (order : State W → State W → Prop) ⦃α : Type⦄ (run : KernelM W α) : Prop :=
  ∀ s, outcome run (fun _ s' => order s s') NoFault s

theorem closed_moved {order : State W → State W → Prop} (refl : ∀ s, order s s)
    (trans : ∀ {first middle last}, order first middle → order middle last → order first last) :
    Closed (Moved order) where
  pure _ := fun s => refl s
  get := fun s => refl s
  bind first second := by
    intro s
    rw [outcome_bind]
    refine outcome_post (first s) fun value middle moved => ?_
    exact outcome_post (second value middle) fun _ _ further => trans moved further

theorem Moved.then {order : State W → State W → Prop} {run : KernelM W α} {next : α → KernelM W β}
    {post : β → State W → Prop} (moved : Moved order run)
    (rest : ∀ value s', order s s' → outcome (next value) post NoFault s') :
    outcome (run >>= next) post NoFault s :=
  outcome_seq (moved s) rest

/-- What the memory of a process depends on. -/
structure Body where
  state : ProcTable.ProcState
  pid : Int32
  sz : Nat
  pagetable : Nat
  trapframe : Nat

def Proc.body (proc : Proc) : Body :=
  { state := proc.state, pid := proc.pid, sz := proc.sz, pagetable := proc.pagetable
    trapframe := proc.trapframe }

/-- What the page of a pipe depends on. -/
structure Plug where
  type : FileType
  pipe : Nat
  writable : Bool
  deriving DecidableEq

def File.plug (file : File) : Plug :=
  { type := file.type, pipe := file.pipe, writable := file.writable }

/-- Nothing has happened to the memory, and files are open and shut as before. -/
structure Calm (s s' : State W) : Prop where
  ram : s'.ram = s.ram
  pipe : s'.pipe = s.pipe
  body : ∀ q, (s'.proc q).body = (s.proc q).body
  plug : ∀ f, (s'.file f).plug = (s.file f).plug
  ref : ∀ f, (s'.file f).ref = 0 ↔ (s.file f).ref = 0

theorem Calm.refl (s : State W) : Calm s s := ⟨rfl, rfl, fun _ => rfl, fun _ => rfl, fun _ => Iff.rfl⟩

theorem Calm.trans {s s' s'' : State W} (left : Calm s s') (right : Calm s' s'') : Calm s s'' where
  ram := right.ram.trans left.ram
  pipe := right.pipe.trans left.pipe
  body q := (right.body q).trans (left.body q)
  plug f := (right.plug f).trans (left.plug f)
  ref f := (right.ref f).trans (left.ref f)

theorem closed_calm : Closed (Moved (W := W) Calm) := closed_moved Calm.refl Calm.trans

theorem calm_fs [BlockLayer W] (run : Fs.FsM W α) : Moved Calm (fs run) := by
  intro s
  unfold fs
  rw [outcome_zoom]
  refine outcome_mono (follows_true run s.fs) (fun _ _ _ => ?_) fun _ _ _ same => ?_
  · exact ⟨rfl, rfl, fun _ => rfl, fun _ => rfl, fun _ => Iff.rfl⟩
  · obtain ⟨stop, same⟩ := same
    cases same

theorem calm_modifyProc (p : Pid) {change : Proc → Proc} (same : ∀ proc, (change proc).body = proc.body) :
    Moved (W := W) Calm (modifyProc p change) := by
  refine fun s => ⟨rfl, rfl, fun q => ?_, fun _ => rfl, fun _ => Iff.rfl⟩
  change (Function.update s.proc p (change (s.proc p)) q).body = _
  by_cases here : q = p
  · rw [here, Function.update_self, same]
  · rw [Function.update_of_ne here]

theorem calm_proc (p : Pid) : Moved (W := W) Calm (proc p) := fun s => Calm.refl s

theorem calm_file (f : FileId) : Moved (W := W) Calm (file f) := fun s => Calm.refl s

theorem calm_setOfile (p : Pid) (fd : Fin NOFILE) (f : Option FileId) :
    Moved (W := W) Calm (setOfile p fd f) := calm_modifyProc p fun _ => rfl

theorem calm_throw {reason : Halt} (other : ¬ Fault reason) : Moved (W := W) Calm (throw reason : KernelM W α) :=
  fun _ => other

theorem calm_filedup (f : FileId) : Moved (W := W) Calm (filedup f) := by
  intro s
  unfold filedup
  refine file_then ?_
  rw [outcome_ite]
  refine ⟨fun few => ?_, fun enough => ?_⟩
  · exact calm_throw (by rintro ⟨_, same⟩; cases same) s
  · refine ⟨rfl, rfl, fun _ => rfl, fun g => ?_, fun g => ?_⟩
    · change (Function.update s.file f _ g).plug = _
      by_cases here : g = f
      · rw [here, Function.update_self]
        rfl
      · rw [Function.update_of_ne here]
    · change (Function.update s.file f _ g).ref = 0 ↔ _
      by_cases here : g = f
      · rw [here, Function.update_self]
        change (s.file f).ref + 1 = 0 ↔ _
        omega
      · rw [Function.update_of_ne here]

theorem calm_cwd (p : Pid) : Moved (W := W) Calm (cwd p) := by
  unfold cwd
  refine closed_calm.bind (calm_proc p) fun proc => ?_
  split
  · exact closed_calm.pure _
  · exact calm_throw (by rintro ⟨_, same⟩; cases same)

theorem calm_forkFile (p np : Pid) (i : Nat) : Moved (W := W) Calm (forkFile p np i) := by
  unfold forkFile
  split
  · refine closed_calm.bind (calm_proc p) fun proc => ?_
    split
    · exact closed_calm.bind (calm_filedup _) fun _ => calm_setOfile np _ _
    · exact closed_calm.pure _
  · exact closed_calm.pure _

end Calls

end PaddleOs.Kernel
