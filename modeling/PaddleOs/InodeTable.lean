import PaddleOs.FsSlots
import PaddleOs.RefCounts

/-!
When a system call finds `itable` full. Between two calls the used slots are those that
open files and working directories refer to, and a call needs up to three more. The
limits on processes and open files leave room for more inodes in use than the table
has slots.
-/

namespace PaddleOs.Kernel

open Foundation.Outcome Foundation.View Foundation.Tally Foundation.Runs
open Fs (Path Slot Skeleton CountingLayer OwnStops noInodes)

/-- The panic of `iget`. -/
def tableFull (halt : Halt) : Prop := halt = .fs .igetNoInodes

theorem avoids_halt {σ α : Type} {halt : Halt} (other : halt ≠ .fs .igetNoInodes) :
    Avoids tableFull (throw halt : EStateM Halt σ α) := avoids_throw other

section Lifting

variable {W : Type}

theorem fs_outcome {α : Type} {run : Fs.FsM W α} {s : State W} (served : Fs.Served run s.fs) :
    outcome (fs run) (fun _ _ => True) (fun halt _ => ¬ tableFull halt) s := by
  refine (outcome_zoom _ _ _ _ _ _ _).mpr (outcome_mono served (fun _ _ _ => trivial) ?_)
  intro stop _ other full
  exact other (Halt.fs.inj full)

theorem fs_avoids {α : Type} {run : Fs.FsM W α} (avoids : Avoids noInodes run) :
    Avoids tableFull (fs run) := fun s => fs_outcome (avoids s.fs)

theorem vm_avoids {α : Type} (run : Vm.VmM α) : Avoids tableFull (vm (W := W) run) := by
  intro s
  refine (outcome_zoom _ _ _ _ _ _ _).mpr (outcome_mono (follows_true run s.ram) ?_ ?_)
  · intro _ _ _
    trivial
  · intro stop _ _ full
    cases full

theorem file_avoids (f : FileId) : Avoids tableFull (file (W := W) f) :=
  avoids_bind avoids_get fun _ => avoids_pure _

theorem proc_avoids (p : Pid) : Avoids tableFull (proc (W := W) p) :=
  avoids_bind avoids_get fun _ => avoids_pure _

theorem cwd_avoids (p : Pid) : Avoids tableFull (cwd (W := W) p) := by
  unfold cwd
  refine avoids_bind (proc_avoids p) fun proc => ?_
  cases proc.cwd with
  | some ip => exact avoids_pure _
  | none => exact avoids_halt (by decide)

theorem filealloc_avoids : Avoids tableFull (filealloc (W := W)) := by
  unfold filealloc
  refine avoids_bind avoids_get fun s => ?_
  split
  · exact avoids_bind (avoids_modify _) fun _ => avoids_pure _
  · exact avoids_pure _

theorem filedup_avoids (f : FileId) : Avoids tableFull (filedup (W := W) f) := by
  unfold filedup
  refine avoids_bind (file_avoids f) fun file => avoids_ite ?_ (avoids_modify _)
  exact avoids_bind (avoids_halt (by decide)) fun _ => avoids_modify _

theorem fdalloc_avoids (p : Pid) (f : FileId) : Avoids tableFull (fdalloc (W := W) p f) := by
  unfold fdalloc
  refine avoids_bind (proc_avoids p) fun proc => ?_
  split
  · exact avoids_bind (avoids_modify _) fun _ => avoids_pure _
  · exact avoids_pure _

theorem argfd_avoids (p : Pid) (fd : Int) : Avoids tableFull (argfd (W := W) p fd) := by
  unfold argfd
  refine avoids_bind (proc_avoids p) fun proc => ?_
  split
  · exact avoids_pure _
  · exact avoids_pure _

theorem sysDup_avoids (p : Pid) (fd : Int) : Avoids tableFull (sysDup (W := W) p fd) := by
  unfold sysDup
  refine avoids_bind (argfd_avoids p fd) fun got => ?_
  cases got with
  | none => exact avoids_pure _
  | some found =>
      refine avoids_bind (fdalloc_avoids p found.2) fun got => ?_
      cases got with
      | none => exact avoids_pure _
      | some fd => exact avoids_bind (filedup_avoids _) fun _ => avoids_pure _

theorem freeproc_avoids (p : Pid) : Avoids tableFull (freeproc (W := W) p) := by
  have clear : ∀ pagetable sz : Nat, Avoids tableFull (do
      modifyProc (W := W) p fun p => { p with trapframe := 0 }
      if pagetable ≠ 0 then vm (Vm.procFreepagetable pagetable sz)
      modifyProc p fun p =>
        { p with pagetable := 0, sz := 0, pid := 0, parent := none, name := [], killed := false, xstate := 0
                 state := .unused }) := by
    intro pagetable sz
    refine avoids_bind (avoids_modify _) fun _ => ?_
    exact avoids_ite (avoids_bind (vm_avoids _) fun _ => avoids_modify _) (avoids_modify _)
  unfold freeproc
  refine avoids_bind (proc_avoids p) fun proc => ?_
  exact avoids_ite (avoids_bind (vm_avoids _) fun _ => clear _ _) (clear _ _)

theorem allocproc_avoids : Avoids tableFull (allocproc (W := W)) := by
  unfold allocproc
  refine avoids_bind avoids_get fun s => ?_
  split
  · exact avoids_pure _
  rename_i p _
  have giveUp : Avoids tableFull (do
      freeproc (W := W) p
      return (none : Option Pid)) := avoids_bind (freeproc_avoids p) fun _ => avoids_pure _
  refine avoids_bind (avoids_modify _) fun _ => avoids_bind (avoids_modify _) fun _ => ?_
  refine avoids_bind (vm_avoids _) fun got => ?_
  cases got with
  | none => exact avoids_bind (avoids_modify _) fun _ => giveUp
  | some trapframe =>
      refine avoids_bind (avoids_modify _) fun _ => avoids_bind (vm_avoids _) fun got => ?_
      cases got with
      | none => exact avoids_bind (avoids_modify _) fun _ => giveUp
      | some pagetable => exact avoids_bind (avoids_modify _) fun _ => avoids_pure _

theorem wait_avoids (p : Pid) (addr : Nat) : Avoids tableFull (wait (W := W) p addr) := by
  unfold wait
  refine avoids_bind avoids_get fun s => ?_
  dsimp only
  split
  · rename_i pp _
    have reap : ∀ copied : Bool, Avoids tableFull (if copied then do
          freeproc (W := W) pp
          return some (s.proc pp).pid.toInt
        else return some (-1)) := fun copied =>
      avoids_ite (avoids_bind (freeproc_avoids pp) fun _ => avoids_pure _) (avoids_pure _)
    refine avoids_ite (avoids_bind (vm_avoids _) reap) ?_
    exact avoids_bind (avoids_pure true) reap
  · exact avoids_ite (avoids_pure _) (avoids_pure _)

theorem kill_avoids (pid : Int32) : Avoids tableFull (kill (W := W) pid) := by
  unfold kill
  refine avoids_bind avoids_get fun s => ?_
  split
  · exact avoids_bind (avoids_modify _) fun _ => avoids_pure _
  · exact avoids_pure _

end Lifting

variable {W : Type} [BlockLayer W] [OwnStops W]

omit [BlockLayer W] [OwnStops W] in
theorem table_quiet : Quiet fun ⦃α : Type⦄ (run : KernelM W α) => Avoids tableFull run where
  toClosed := closed_avoids tableFull
  halt := avoids_halt
  vm := vm_avoids
  modifyPipe _ _ := avoids_modify _
  modifyProc _ _ _ _ _ := avoids_modify _

theorem fsReadi_avoids (ip : Slot) (accepts : Nat → Nat → Bool) (off n : Nat) :
    Avoids tableFull (fs (W := W) (Fs.readi ip accepts off n)) :=
  fs_avoids (Fs.readi_quiet Fs.avoids_quiet ip accepts off n)

section Files

theorem endOp_avoids : Avoids tableFull (fs (W := W) Fs.endOp) := fs_avoids Fs.endOp_avoids

theorem putInode_avoids (ip : Slot) : Avoids tableFull (do
    fs (W := W) Fs.beginOp
    fs (Fs.iput ip)
    fs Fs.endOp) :=
  avoids_bind (fs_avoids Fs.beginOp_avoids) fun _ =>
    avoids_bind (fs_avoids (Fs.iput_avoids ip)) fun _ => endOp_avoids

theorem fileclose_avoids (f : FileId) : Avoids tableFull (fileclose (W := W) f) := by
  unfold fileclose
  refine avoids_bind (file_avoids f) fun file => avoids_ite (avoids_halt (by decide)) ?_
  refine avoids_bind (avoids_modify _) fun _ => avoids_bind (file_avoids f) fun ff => ?_
  refine avoids_ite (avoids_pure _) (avoids_bind (avoids_modify _) fun _ => ?_)
  cases ff.type with
  | none => exact avoids_pure _
  | pipe => exact pipeclose_quiet table_quiet _ _
  | inode => exact putInode_avoids ff.ip
  | device => exact putInode_avoids ff.ip

theorem sysClose_avoids (p : Pid) (fd : Int) : Avoids tableFull (sysClose (W := W) p fd) := by
  unfold sysClose
  refine avoids_bind (argfd_avoids p fd) fun got => ?_
  cases got with
  | none => exact avoids_pure _
  | some found =>
      refine avoids_bind (avoids_modify _) fun _ => ?_
      exact avoids_bind (fileclose_avoids found.2) fun _ => avoids_pure _

theorem fileread_avoids (p : Pid) (f : FileId) (addr : Nat) (n device : Int) :
    Avoids tableFull (fileread (W := W) p f addr n device) := by
  unfold fileread
  refine avoids_bind (file_avoids f) fun ff => avoids_ite (avoids_pure _) ?_
  cases ff.type with
  | none => exact avoids_halt (by decide)
  | pipe => exact piperead_quiet table_quiet p _ addr n
  | device => exact avoids_ite (avoids_pure _) (avoids_pure _)
  | inode =>
      have finish : ∀ r : Int, Avoids tableFull (do
          fs (W := W) (Fs.iunlock ff.ip)
          return some r) := fun r =>
        avoids_bind (fs_avoids (Fs.iunlock_avoids ff.ip)) fun _ => avoids_pure _
      refine avoids_bind (fs_avoids (Fs.ilock_avoids ff.ip)) fun _ => ?_
      refine avoids_bind (proc_avoids p) fun proc => avoids_bind avoids_get fun s => ?_
      refine avoids_bind (fsReadi_avoids _ _ _ _) fun read => ?_
      refine avoids_bind (vm_avoids _) fun _ => ?_
      exact avoids_ite (avoids_bind (avoids_modify _) fun _ => finish _) (finish _)

theorem sysRead_avoids (p : Pid) (fd : Int) (addr : Nat) (n device : Int) :
    Avoids tableFull (sysRead (W := W) p fd addr n device) := by
  unfold sysRead
  refine avoids_bind (argfd_avoids p fd) fun got => ?_
  cases got with
  | none => exact avoids_pure _
  | some found => exact fileread_avoids p found.2 addr n device

theorem filewriteFrom_avoids (p : Pid) (f : FileId) (addr n fuel i : Nat) :
    Avoids tableFull (filewriteFrom (W := W) p f addr n fuel i) := by
  induction fuel generalizing i with
  | zero => exact avoids_pure _
  | succ fuel ih =>
      unfold filewriteFrom
      refine avoids_ite ?_ (avoids_pure _)
      dsimp only
      refine avoids_bind (fs_avoids Fs.beginOp_avoids) fun _ => ?_
      refine avoids_bind (file_avoids f) fun ff => ?_
      refine avoids_bind (fs_avoids (Fs.ilock_avoids ff.ip)) fun _ => ?_
      refine avoids_bind avoids_get fun s => avoids_bind (proc_avoids p) fun proc => ?_
      refine avoids_bind (file_avoids f) fun ff' => ?_
      refine avoids_bind (fs_avoids (Fs.writei_quiet Fs.avoids_quiet _ _ _ _)) fun r => ?_
      have finish : Avoids tableFull (do
          fs (W := W) (Fs.iunlock ff.ip)
          fs Fs.endOp
          if r ≠ ((min (n - i) writeMax : Nat) : Int) then return i
          filewriteFrom p f addr n fuel (i + min (n - i) writeMax)) := by
        refine avoids_bind (fs_avoids (Fs.iunlock_avoids ff.ip)) fun _ => ?_
        refine avoids_bind endOp_avoids fun _ => ?_
        exact avoids_ite (avoids_pure _) (ih _)
      exact avoids_ite (avoids_bind (avoids_modify _) fun _ => finish) finish

theorem sysWrite_avoids (p : Pid) (fd : Int) (addr : Nat) (n device : Int) :
    Avoids tableFull (sysWrite (W := W) p fd addr n device) := by
  unfold sysWrite
  refine avoids_bind (argfd_avoids p fd) fun got => ?_
  cases got with
  | none => exact avoids_pure _
  | some found =>
      unfold filewrite
      refine avoids_bind (file_avoids _) fun ff => avoids_ite (avoids_pure _) ?_
      cases ff.type with
      | none => exact avoids_halt (by decide)
      | pipe => exact pipewriteFrom_quiet table_quiet p _ addr _ _
      | device => exact avoids_ite (avoids_pure _) (avoids_pure _)
      | inode =>
          exact avoids_bind (filewriteFrom_avoids p _ addr _ _ _) fun i => avoids_pure _

theorem pipealloc_avoids : Avoids tableFull (pipealloc (W := W)) := by
  have bad : ∀ f0 f1 : Option FileId, Avoids tableFull (pipeallocBad (W := W) f0 f1) := by
    have second : ∀ f1 : Option FileId, Avoids tableFull (pipeallocBad (W := W) none f1) := by
      intro f1
      cases f1 with
      | none => exact avoids_pure _
      | some f1 => exact avoids_bind (fileclose_avoids f1) fun _ => avoids_pure _
    intro f0 f1
    cases f0 with
    | none => exact second f1
    | some f0 => exact avoids_bind (fileclose_avoids f0) fun _ => second f1
  unfold pipealloc
  refine avoids_bind filealloc_avoids fun got => ?_
  cases got with
  | none => exact bad none none
  | some f0 =>
      refine avoids_bind filealloc_avoids fun got => ?_
      cases got with
      | none => exact bad (some f0) none
      | some f1 =>
          refine avoids_bind (vm_avoids _) fun got => ?_
          cases got with
          | none => exact bad (some f0) (some f1)
          | some page =>
              refine avoids_bind (avoids_modify _) fun _ => avoids_bind (avoids_modify _) fun _ => ?_
              exact avoids_bind (avoids_modify _) fun _ => avoids_pure _

theorem sysPipe_avoids (p : Pid) (fdarray : Nat) :
    Avoids tableFull (sysPipe (W := W) p fdarray) := by
  unfold sysPipe
  refine avoids_bind pipealloc_avoids fun got => ?_
  cases got with
  | none => exact avoids_pure _
  | some found =>
      obtain ⟨rf, wf⟩ := found
      have close : Avoids tableFull (do
          fileclose (W := W) rf
          fileclose wf
          return (-1 : Int)) :=
        avoids_bind (fileclose_avoids rf) fun _ =>
          avoids_bind (fileclose_avoids wf) fun _ => avoids_pure _
      refine avoids_bind (fdalloc_avoids p rf) fun got => ?_
      cases got with
      | none => exact close
      | some fd0 =>
          refine avoids_bind (fdalloc_avoids p wf) fun got => ?_
          cases got with
          | none => exact avoids_bind (avoids_modify _) fun _ => close
          | some fd1 =>
              have check : ∀ second : Bool, Avoids tableFull (do
                  if second then return (0 : Int)
                  setOfile (W := W) p fd0 none
                  setOfile p fd1 none
                  fileclose rf
                  fileclose wf
                  return -1) := fun second =>
                avoids_ite (avoids_pure _) (avoids_bind (avoids_modify _) fun _ =>
                  avoids_bind (avoids_modify _) fun _ => close)
              refine avoids_bind (proc_avoids p) fun proc => ?_
              refine avoids_bind (vm_avoids _) fun first => ?_
              exact avoids_ite (avoids_bind (vm_avoids _) check)
                (avoids_bind (avoids_pure false) check)

end Files

section Processes

omit [BlockLayer W] [OwnStops W] in
theorem fork_avoids (p : Pid) : Avoids tableFull (fork (W := W) p) := by
  have copy : ∀ np i, Avoids tableFull (forkFile (W := W) p np i) := by
    intro np i
    unfold forkFile
    split
    · refine avoids_bind (proc_avoids p) fun proc => ?_
      split
      · exact avoids_bind (filedup_avoids _) fun _ => avoids_modify _
      · exact avoids_pure _
    · exact avoids_pure _
  unfold fork
  refine avoids_bind allocproc_avoids fun got => ?_
  cases got with
  | none => exact avoids_pure _
  | some np =>
      refine avoids_bind (proc_avoids p) fun parent => avoids_bind (proc_avoids np) fun child => ?_
      refine avoids_bind (vm_avoids _) fun copied => avoids_ite ?_ ?_
      · refine avoids_bind (avoids_modify _) fun _ => avoids_bind (proc_avoids np) fun fresh => ?_
        refine avoids_bind (vm_avoids _) fun _ => avoids_bind (avoids_loop (copy np) _ _) fun _ => ?_
        refine avoids_bind (cwd_avoids p) fun dir => ?_
        refine avoids_bind (fs_avoids (Fs.idup_avoids dir)) fun ip => ?_
        refine avoids_bind (avoids_modify _) fun _ => avoids_bind (avoids_modify _) fun _ => ?_
        refine avoids_bind (avoids_modify _) fun _ => ?_
        exact avoids_bind (proc_avoids np) fun _ => avoids_pure _
      · exact avoids_bind (freeproc_avoids np) fun _ => avoids_pure _

theorem exit_avoids (p : Pid) (status : Int32) : Avoids tableFull (exit (W := W) p status) := by
  have close : ∀ i, Avoids tableFull (exitFile (W := W) p i) := by
    intro i
    unfold exitFile
    split
    · refine avoids_bind (proc_avoids p) fun proc => ?_
      split
      · exact avoids_bind (fileclose_avoids _) fun _ => avoids_modify _
      · exact avoids_pure _
    · exact avoids_pure _
  have rest : Avoids tableFull (do
      loop (exitFile (W := W) p) 0 NOFILE
      let ip ← cwd p
      fs Fs.beginOp
      fs (Fs.iput ip)
      fs Fs.endOp
      modifyProc p fun p => { p with cwd := none }
      reparent p
      modifyProc p fun p => { p with xstate := status, state := .zombie }) := by
    refine avoids_bind (avoids_loop close _ _) fun _ => avoids_bind (cwd_avoids p) fun ip => ?_
    refine avoids_bind (fs_avoids Fs.beginOp_avoids) fun _ => ?_
    refine avoids_bind (fs_avoids (Fs.iput_avoids ip)) fun _ => avoids_bind endOp_avoids fun _ => ?_
    refine avoids_bind (avoids_modify _) fun _ => avoids_bind (avoids_modify _) fun _ => ?_
    exact avoids_modify _
  unfold exit
  exact avoids_ite (avoids_bind (avoids_halt (by decide)) fun _ => rest) rest

end Processes

section Calls

variable [CountingLayer W]

/-- The call from `s` does not end in the panic of `iget`. -/
def Served {W α : Type} (run : KernelM W α) (s : State W) : Prop :=
  outcome run (fun _ _ => True) (fun halt _ => ¬ tableFull halt) s

/-- The empty slots of `itable`. -/
def vacancies (s : State W) : Nat := (books s).fs.vacancies

omit [OwnStops W] in
theorem served_then {α β : Type} {run : KernelM W α} {next : α → KernelM W β}
    {relation : Books → α → Books → Prop} {s : State W} (first : Served run s)
    (follows : Follows books run relation)
    (rest : ∀ value s', relation (books s) value (books s') → Served (next value) s') :
    Served (run >>= next) s := by
  refine (outcome_bind run next _ _ s).mpr ?_
  refine outcome_mono (outcome_and first (follows s)) ?_ fun _ _ failed => failed.1
  intro value s' done
  exact rest value s' done.2

theorem served_last {W α β : Type} {run : KernelM W α} {next : α → KernelM W β} {s : State W}
    (first : Served run s) (rest : ∀ value, Avoids tableFull (next value)) :
    Served (run >>= next) s :=
  (outcome_bind run next _ _ s).mpr (outcome_post first fun value s' _ => rest value s')

omit [OwnStops W] in
/-- A file-system call made in the working directory of the caller. -/
theorem inCwd_served {α β : Type} {p : Pid} {run : Slot → Fs.FsM W α} {next : α → KernelM W β}
    {s : State W} (served : ∀ dir (t : Fs.State W), Fs.skeleton t = (books s).fs →
      Fs.Served (run dir) t) (rest : ∀ value, Avoids tableFull (next value)) :
    Served (do
      let dir ← cwd p
      let value ← fs (run dir)
      next value) s := by
  refine served_then (cwd_avoids p s) (cwd_keeps p) fun dir s1 same => ?_
  exact served_last (fs_outcome (served dir s1.fs (congrArg Books.fs same))) rest

theorem openInode_served (p : Pid) (path : Path) (omode : Nat) {s : State W}
    (room : (if hasFlag omode O_CREATE then 3 else 2) ≤ vacancies s) :
    Served (openInode p path omode) s := by
  unfold openInode
  by_cases creating : hasFlag omode O_CREATE = true
  · rw [if_pos creating] at room ⊢
    refine served_then (cwd_avoids p s) (cwd_keeps p) fun dir s1 same => fs_outcome ?_
    refine Fs.create_served dir path T_FILE 0 0 ?_
    have spare : 3 ≤ (books s1).fs.vacancies := by rwa [same]
    exact spare
  · rw [if_neg creating] at room ⊢
    refine inCwd_served (fun dir t same => Fs.namei_served dir path ?_) fun got => ?_
    · rwa [same]
    cases got with
    | none => exact avoids_pure _
    | some ip =>
        refine avoids_bind (fs_avoids (Fs.ilock_avoids ip)) fun _ => ?_
        refine avoids_bind (fs_avoids (Fs.inode_avoids ip)) fun node => ?_
        refine avoids_ite ?_ (avoids_pure _)
        exact avoids_bind (fs_avoids (Fs.iunlockput_avoids ip)) fun _ => avoids_pure _

omit [CountingLayer W] in
theorem openBad_avoids (ip : Slot) : Avoids tableFull (openBad (W := W) ip) :=
  avoids_bind (fs_avoids (Fs.iunlockput_avoids ip)) fun _ =>
    avoids_bind endOp_avoids fun _ => avoids_pure _

omit [CountingLayer W] in
/-- `sys_open` once it has the locked inode. -/
theorem openFile_avoids (ip : Slot) (omode : Nat) (node : Fs.Inode) (f : FileId)
    (fd : Fin NOFILE) : Avoids tableFull (do
      if node.type = T_DEVICE then
        modifyFile (W := W) f fun f => { f with type := .device, major := node.major }
      else modifyFile f fun f => { f with type := .inode, off := 0 }
      modifyFile f fun f =>
        { f with ip
                 readable := !hasFlag omode O_WRONLY
                 writable := hasFlag omode O_WRONLY || hasFlag omode O_RDWR }
      if hasFlag omode O_TRUNC ∧ node.type = T_FILE then fs (Fs.itrunc ip)
      fs (Fs.iunlock ip)
      fs Fs.endOp
      return (fd.val : Int)) := by
  have finish : Avoids tableFull (do
      fs (W := W) (Fs.iunlock ip)
      fs Fs.endOp
      return (fd.val : Int)) :=
    avoids_bind (fs_avoids (Fs.iunlock_avoids ip)) fun _ =>
      avoids_bind endOp_avoids fun _ => avoids_pure _
  have trunc := fs_avoids (Fs.itrunc_quiet (Fs.avoids_quiet (W := W)) ip)
  have fill : Avoids tableFull (do
      modifyFile (W := W) f fun f =>
        { f with ip
                 readable := !hasFlag omode O_WRONLY
                 writable := hasFlag omode O_WRONLY || hasFlag omode O_RDWR }
      if hasFlag omode O_TRUNC ∧ node.type = T_FILE then fs (Fs.itrunc ip)
      fs (Fs.iunlock ip)
      fs Fs.endOp
      return (fd.val : Int)) :=
    avoids_bind (avoids_modify _) fun _ =>
      avoids_ite (avoids_bind trunc fun _ => finish) finish
  exact avoids_ite (avoids_bind (avoids_modify _) fun _ => fill)
    (avoids_bind (avoids_modify _) fun _ => fill)

theorem sysOpen_served (p : Pid) (path : Option Path) (omode : Nat) {s : State W}
    (room : (if hasFlag omode O_CREATE then 3 else 2) ≤ vacancies s) :
    Served (sysOpen p path omode) s := by
  unfold sysOpen
  cases path with
  | none => trivial
  | some path =>
      refine served_then (fs_avoids Fs.beginOp_avoids s) beginOp_opens fun _ s1 opened => ?_
      have room1 : (if hasFlag omode O_CREATE then 3 else 2) ≤ vacancies s1 := by
        unfold vacancies
        rw [opened]
        exact room
      refine served_last (openInode_served p path omode room1) fun got => ?_
      cases got with
      | none => exact avoids_bind endOp_avoids fun _ => avoids_pure _
      | some ip =>
          refine avoids_bind (fs_avoids (Fs.inode_avoids ip)) fun node => ?_
          refine avoids_ite (openBad_avoids ip) (avoids_bind filealloc_avoids fun got => ?_)
          cases got with
          | none => exact openBad_avoids ip
          | some f =>
              refine avoids_bind (fdalloc_avoids p f) fun got => ?_
              cases got with
              | none => exact avoids_bind (fileclose_avoids f) fun _ => openBad_avoids ip
              | some fd => exact openFile_avoids ip omode node f fd

theorem exec_served (p : Pid) (path : Path) (argv : List (List UInt8)) {s : State W}
    (room : 2 ≤ vacancies s) : Served (exec p path argv) s := by
  unfold exec
  refine served_then (fs_avoids Fs.beginOp_avoids s) beginOp_opens fun _ s1 opened => ?_
  refine inCwd_served (fun dir t same => Fs.namei_served dir path ?_) fun got => ?_
  · rw [same, opened]
    exact room
  cases got with
  | none => exact avoids_bind endOp_avoids fun _ => avoids_pure _
  | some ip =>
      have release : ∀ {α : Type} {next : KernelM W α}, Avoids tableFull next →
          Avoids tableFull (do
            fs (Fs.iunlockput ip)
            fs Fs.endOp
            next) := fun avoids =>
        avoids_bind (fs_avoids (Fs.iunlockput_avoids ip)) fun _ =>
          avoids_bind endOp_avoids fun _ => avoids
      have bad : ∀ pagetable sz, Avoids tableFull (execBad (W := W) pagetable sz (some ip)) := by
        intro pagetable sz
        cases pagetable with
        | none => exact release (avoids_pure _)
        | some pagetable => exact avoids_bind (vm_avoids _) fun _ => release (avoids_pure _)
      refine avoids_bind (fs_avoids (Fs.ilock_avoids ip)) fun _ => ?_
      refine avoids_bind (fsReadi_avoids _ _ _ _) fun read => avoids_ite (bad _ _) ?_
      refine avoids_ite (bad _ _) (avoids_bind (proc_avoids p) fun caller => ?_)
      refine avoids_bind (vm_avoids _) fun got => ?_
      cases got with
      | none => exact bad _ _
      | some pagetable =>
          refine avoids_bind (execSegments_quiet table_quiet _ (fun _ _ _ _ => fsReadi_avoids _ _ _ _) _ _ _) fun loaded => ?_
          exact avoids_ite (bad _ _) (release (execStack_quiet table_quiet p _ _ _ _ _))

theorem sysExec_served (p : Pid) (path : Option Path) (args : Nat → Arg) {s : State W}
    (room : 2 ≤ vacancies s) : Served (sysExec p path args) s := by
  unfold sysExec
  cases path with
  | none => trivial
  | some path =>
      refine served_then (collectArgs_quiet table_quiet args _ _ _ _ s)
        (collectArgs_keeps args _ _ _ _) fun collected s1 same => ?_
      obtain ⟨pages, argv⟩ := collected
      have finish : ∀ ret : Int, Avoids tableFull (do
          freeArgs (W := W) pages
          return ret) := fun ret =>
        avoids_bind (freeArgs_quiet table_quiet pages) fun _ => avoids_pure _
      cases argv with
      | none => exact finish (-1) s1
      | some argv =>
          refine served_last (exec_served p path argv ?_) finish
          unfold vacancies
          rwa [same]

/-- The empty slots a call may use up at once. -/
def Call.need : Call → Nat
  | .open _ omode => if hasFlag omode O_CREATE then 3 else 2
  | .link _ _ | .mkdir _ | .mknod _ _ _ => 3
  | .unlink _ | .chdir _ | .exec _ _ => 2
  | .close _ | .dup _ | .pipe _ | .read _ _ _ _ | .write _ _ _ _ | .fork | .exit _ | .wait _
  | .kill _ | .sbrk _ => 0

theorem perform_served (p : Pid) (call : Call) {s : State W} (room : call.need ≤ vacancies s) :
    Served (call.perform p) s := by
  cases call with
  | «open» path omode => exact (outcome_map _ _ _ _ _).mpr (sysOpen_served p path omode room)
  | close fd => exact avoids_map _ (sysClose_avoids p fd) s
  | dup fd => exact avoids_map _ (sysDup_avoids p fd) s
  | pipe fdarray => exact avoids_map _ (sysPipe_avoids p fdarray) s
  | read fd addr n device => exact sysRead_avoids p fd addr n device s
  | write fd addr n device => exact sysWrite_avoids p fd addr n device s
  | link old new =>
      refine (outcome_map _ _ _ _ _).mpr (inCwd_served (fun dir t same => ?_) fun _ => avoids_pure _)
      refine Fs.sysLink_served dir old new ?_
      rwa [same]
  | unlink path =>
      refine (outcome_map _ _ _ _ _).mpr (inCwd_served (fun dir t same => ?_) fun _ => avoids_pure _)
      refine Fs.sysUnlink_served dir path ?_
      rwa [same]
  | mkdir path =>
      refine (outcome_map _ _ _ _ _).mpr (inCwd_served (fun dir t same => ?_) fun _ => avoids_pure _)
      refine Fs.sysMake_served dir path T_DIR 0 0 ?_
      rwa [same]
  | mknod path major minor =>
      refine (outcome_map _ _ _ _ _).mpr (inCwd_served (fun dir t same => ?_) fun _ => avoids_pure _)
      refine Fs.sysMake_served dir path T_DEVICE major minor ?_
      rwa [same]
  | chdir path =>
      refine (outcome_map _ _ _ _ _).mpr (inCwd_served (fun dir t same => ?_) fun got => ?_)
      · refine Fs.sysChdir_served dir path ?_
        rwa [same]
      · cases got with
        | none => exact avoids_pure _
        | some ip => exact avoids_bind (avoids_modify _) fun _ => avoids_pure _
  | fork => exact avoids_map _ (fork_avoids p) s
  | exit status => exact avoids_map _ (exit_avoids p status) s
  | wait addr => exact wait_avoids p addr s
  | kill pid => exact avoids_map _ (kill_avoids pid) s
  | sbrk n => exact avoids_map _ (sysSbrk_quiet table_quiet p n) s
  | exec path args => exact (outcome_map _ _ _ _ _).mpr (sysExec_served p path args room)

end Calls

section Runs

/-- The machine of system calls with its panics: the state after the call, or the reason
the kernel stopped for. -/
def attempt {W : Type} [BlockLayer W] :
    Except Halt (State W) → Pid × Call → Option (Except Halt (State W))
  | .error _, _ => none
  | .ok s, (p, call) =>
      if (s.proc p).alive then
        match call.perform p s with
        | .ok _ next => some (.ok next)
        | .error halt _ => some (.error halt)
      else none

/-- The slots that an open file or a working directory refers to. -/
def inUse {W : Type} (s : State W) : Finset Slot :=
  Finset.univ.filter fun k =>
    (∃ f, 0 < (s.file f).ref ∧ ((s.file f).type = .inode ∨ (s.file f).type = .device) ∧
      (s.file f).ip = k) ∨ ∃ p, (s.proc p).cwd = some k

/-- Between two calls the other slots are empty. -/
theorem Exact.vacancies {s : State Store} (exact_ : Exact s) :
    (inUse s).card + vacancies s = NINODE := by
  have split : (inUse s).card + (inUse s)ᶜ.card = NINODE := by
    rw [Finset.card_add_card_compl, Fintype.card_fin]
  have empty : (inUse s)ᶜ = Finset.univ.filter fun k => (s.fs.inode k).ref = 0 := by
    ext k
    rw [Finset.mem_compl, Finset.mem_filter, inUse, Finset.mem_filter, exact_.inodes k]
    simp only [Finset.mem_univ, true_and]
    constructor
    · intro unused
      rw [not_or] at unused
      rw [Finset.filter_eq_empty_iff.mpr fun f _ held => unused.1 ⟨f, held⟩,
        Finset.filter_eq_empty_iff.mpr fun p _ held => unused.2 ⟨p, held⟩]
      rfl
    · rintro zero (⟨f, held⟩ | ⟨p, held⟩)
      · have some_ : 0 < (Finset.univ.filter fun f => 0 < (s.file f).ref ∧
            ((s.file f).type = .inode ∨ (s.file f).type = .device) ∧ (s.file f).ip = k).card :=
          Finset.card_pos.mpr ⟨f, Finset.mem_filter.mpr ⟨Finset.mem_univ f, held⟩⟩
        omega
      · have some_ : 0 < (Finset.univ.filter fun p => (s.proc p).cwd = some k).card :=
          Finset.card_pos.mpr ⟨p, Finset.mem_filter.mpr ⟨Finset.mem_univ p, held⟩⟩
        omega
  rw [empty] at split
  exact split

omit [OwnStops W] in
theorem attempt_settles {s next : State W} {label : Pid × Call} [CountingLayer W]
    (attempted : attempt (.ok s) label = some (.ok next)) (settled : Settled (books s)) :
    Settled (books next) := by
  obtain ⟨alive, result, performed⟩ :
      (s.proc label.1).alive = true ∧ ∃ result, label.2.perform label.1 s = .ok result next := by
    simp only [attempt] at attempted
    split at attempted
    next alive =>
      cases performed : label.2.perform label.1 s with
      | ok result s₁ =>
          rw [performed] at attempted
          cases attempted
          exact ⟨alive, result, rfl⟩
      | error halt s₁ =>
          rw [performed] at attempted
          cases attempted
    next => cases attempted
  have stepped : step s label = some next := by
    unfold step
    rw [if_pos alive, performed]
  exact step_settles stepped settled

/-- In every run of system calls from `userinit` on in which each call finds, beside the
inodes that open files and working directories refer to, as many slots of `itable` as it
may need, `iget` never panics. -/
theorem no_inode_panic {bss booted : State Store} {initcode : List UInt8}
    {calls : List (Pid × Call)} {final : Except Halt (State Store)} (cleared : Cleared bss)
    (idle : bss.fs.store.log.outstanding = 0) (boot : userinit initcode bss = .ok () booted)
    (ran : run attempt (.ok booted) calls = some final)
    (room : ∀ before label after s, calls = before ++ label :: after →
      run attempt (.ok booted) before = some (.ok s) →
      (inUse s).card + label.2.need ≤ NINODE) :
    final ≠ .error (.fs .igetNoInodes) := by
  have kept := run_invariant_where attempt
    (fun s label => ∀ t, s = .ok t → (inUse t).card + label.2.need ≤ NINODE)
    (fun s => (∀ t, s = .ok t → Settled (books t)) ∧ s ≠ .error (.fs .igetNoInodes))
    ⟨fun t is => by cases is; exact userinit_settles cleared idle boot, by simp⟩ ?_ ran ?_
  · exact kept.2
  · rintro s label next ⟨settled, -⟩ roomy attempted
    cases s with
    | error halt => cases attempted
    | ok s =>
        refine ⟨fun t is => ?_, fun panicked => ?_⟩
        · subst is
          exact attempt_settles attempted (settled s rfl)
        · subst panicked
          obtain ⟨p, call⟩ := label
          have counted := (settled s rfl).exact.vacancies
          have enough := roomy s rfl
          have served := perform_served p call (s := s) (by dsimp only at enough; omega)
          simp only [attempt] at attempted
          split at attempted
          · split at attempted
            · cases attempted
            · rename_i stopped
              cases attempted
              exact outcome_of_error served stopped rfl
          · cases attempted
  · intro before label after middle split reached t is
    subst is
    exact room before label after t split reached

/-- One open file and the directories of the walk fit. -/
theorem oneOpen_served : ∃ booted final,
    userinit [] (bss tinyStore tinySuperblock (tinyRam 40 [])) = .ok () booted ∧
    run attempt (.ok booted) [(initproc, .open (some [Fs.slash]) 0)] = some final ∧
    final ≠ .error (.fs .igetNoInodes) := by
  have runs : (match userinit [] (bss tinyStore tinySuperblock (tinyRam 40 [])) with
      | .ok _ booted =>
          (run attempt (.ok booted) [(initproc, .open (some [Fs.slash]) 0)]).isSome &&
            decide ((inUse booted).card + 2 ≤ NINODE)
      | .error _ _ => false) = true := by decide +kernel
  split at runs
  · rename_i booted boot
    obtain ⟨ended, room⟩ := Bool.and_eq_true_iff.mp runs
    obtain ⟨final, ran⟩ := Option.isSome_iff_exists.mp ended
    refine ⟨booted, final, boot, ran, no_inode_panic (bss_cleared _ _ _) rfl boot ran ?_⟩
    intro before label after s split reached
    cases before with
    | nil =>
        cases split
        cases reached
        exact of_decide_eq_true room
    | cons first rest => simp at split
  · cases runs

def nestedSuperblock : Superblock where
  magic := FSMAGIC
  size := 100
  nblocks := 63
  ninodes := 64
  nlog := 30
  logstart := 2
  inodestart := 32
  bmapstart := 36

/-- The directories of the root: `a`, `b` and `c` with 15 more below each, `d` and `e`. -/
def nestedHeads : List Nat := [2, 18, 34, 50, 51]

def nestedEntries (dir : Nat) : List (Nat × List UInt8) :=
  [(dir, Fs.dot), (if dir = ROOTINO ∨ dir ∈ nestedHeads then ROOTINO else dir - 1, Fs.dotdot)] ++
    if dir = ROOTINO then nestedHeads.zip [[97], [98], [99], [100], [101]]
    else if dir < 50 ∧ dir + 1 ∉ nestedHeads then [(dir + 1, [97])] else []

/-- An image with 51 directories, the data of inode `i` in block `36 + i`. -/
def nestedDisk (blockno : Nat) : Block :=
  if blockno = 1 then putSuperblock nestedSuperblock
  else if 32 ≤ blockno ∧ blockno < 36 then fun i =>
    let inum := (blockno - 32) * IPB + i / 64
    let entries := (nestedEntries inum).length
    if inum = 0 ∨ 51 < inum then 0
    else if i % 64 = 0 then 1
    else if i % 64 = 6 then UInt8.ofNat (entries - 1)
    else if i % 64 = 8 then UInt8.ofNat (entries * DIRENT)
    else if i % 64 = 12 then UInt8.ofNat (36 + inum)
    else 0
  else if blockno = 36 then fun i => if i < 11 then 255 else 0
  else if 37 ≤ blockno ∧ blockno < 88 then fun i =>
    let entry := (nestedEntries (blockno - 36)).getD (i / DIRENT) (0, [])
    if i % DIRENT = 0 then UInt8.ofNat entry.1
    else if i % DIRENT = 1 then 0
    else entry.2.getD (i % DIRENT - 2) 0
  else fun _ => 0

def nestedStore : Store :=
  binit nestedDisk
    { start := 2, size := 30, outstanding := 0, committing := false, dev := ROOTDEV
      lh := { n := 0, block := fun _ => 0 } }

/-- The process opens each directory on its way down and leaves it open. -/
def descend (p : Pid) (names : List UInt8) : List (Pid × Call) :=
  names.flatMap fun name => [(p, .open (some [name]) 0), (p, .chdir (some [name]))]

theorem one_lt_nproc : 1 < NPROC := by decide

theorem two_lt_nproc : 2 < NPROC := by decide

theorem three_lt_nproc : 3 < NPROC := by decide

/-- Three processes with 16 open directories each, and a fourth with one. -/
def fiftyOne : List (Pid × Call) :=
  List.replicate 3 (initproc, Call.fork) ++
    descend initproc (97 :: List.replicate 15 97) ++
    descend ⟨1, one_lt_nproc⟩ (98 :: List.replicate 15 97) ++
    descend ⟨2, two_lt_nproc⟩ (99 :: List.replicate 15 97) ++
    ([(⟨3, three_lt_nproc⟩, .open (some [100]) 0), (⟨3, three_lt_nproc⟩, .open (some [101]) 0)] :
      List (Pid × Call))

/-- The panic of `iget`. -/
def outOfInodes : Except Halt (State W) → Bool
  | .error (.fs .igetNoInodes) => true
  | _ => false

omit [BlockLayer W] [OwnStops W] in
theorem outOfInodes_iff {halted : Except Halt (State W)} :
    outOfInodes halted = true ↔ halted = .error (.fs .igetNoInodes) := by
  constructor
  · intro panicked
    unfold outOfInodes at panicked
    split at panicked
    · rfl
    · cases panicked
  · rintro rfl
    rfl

/-- Four processes with 49 open files between them, all within their limits, stop the
kernel: with the working directory of the fourth they use 50 inodes, and the last `open`
asks for one more. -/
theorem fiftyOne_panics : ∃ booted,
    userinit [] (bss nestedStore nestedSuperblock (tinyRam 60 [])) = .ok () booted ∧
    run attempt (.ok booted) fiftyOne = some (.error (.fs .igetNoInodes)) := by
  have runs : returns (userinit []) (fun _ booted => (run attempt (.ok booted) fiftyOne).any outOfInodes)
      (bss nestedStore nestedSuperblock (tinyRam 60 [])) = true := by decide +kernel
  obtain ⟨_, booted, boot, panics⟩ := returns_ok runs
  obtain ⟨halted, ran, panicked⟩ := (Option.any_eq_true _ _).mp panics
  exact ⟨booted, boot, by rw [ran, outOfInodes_iff.mp panicked]⟩

end Runs

end PaddleOs.Kernel
