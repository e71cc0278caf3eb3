import PaddleOs.Kernel
import PaddleOs.Foundation.Runs

/-!
The kernel as a machine that takes one system call after another. A label names the
process and its call with the arguments it passes; a call that stops the kernel has
no successor. The first state is the one `userinit` makes of cleared memory.
-/

namespace PaddleOs.Kernel

open ProcTable (ProcState)
open Fs (Path Slot)

variable {W : Type} [BlockLayer W]

inductive Call where
  | open (path : Option Path) (omode : Nat)
  | close (fd : Int)
  | dup (fd : Int)
  | pipe (fdarray : Nat)
  | read (fd : Int) (addr : Nat) (n device : Int)
  | write (fd : Int) (addr : Nat) (n device : Int)
  | link (old new : Option Path)
  | unlink (path : Option Path)
  | mkdir (path : Option Path)
  | mknod (path : Option Path) (major minor : Int16)
  | chdir (path : Option Path)
  | fork
  | exit (status : Int32)
  | wait (addr : Nat)
  | kill (pid : Int32)
  | sbrk (n : Int)
  | exec (path : Option Path) (args : Nat → Arg)

/-- The call made by `p`, with its result if it has one. -/
def Call.perform (p : Pid) : Call → KernelM W (Option Int)
  | .open path omode => some <$> sysOpen p path omode
  | .close fd => some <$> sysClose p fd
  | .dup fd => some <$> sysDup p fd
  | .pipe fdarray => some <$> sysPipe p fdarray
  | .read fd addr n device => sysRead p fd addr n device
  | .write fd addr n device => sysWrite p fd addr n device
  | .link old new => some <$> sysLink p old new
  | .unlink path => some <$> sysUnlink p path
  | .mkdir path => some <$> sysMkdir p path
  | .mknod path major minor => some <$> sysMknod p path major minor
  | .chdir path => some <$> sysChdir p path
  | .fork => some <$> Kernel.fork p
  | .exit status => (fun _ => none) <$> Kernel.exit p status
  | .wait addr => Kernel.wait p addr
  | .kill pid => some <$> Kernel.kill pid
  | .sbrk n => some <$> sysSbrk p n
  | .exec path args => some <$> sysExec p path args

/-- The process exists and has not called `exit`. -/
def Proc.alive (p : Proc) : Bool :=
  match p.state with
  | .sleeping | .runnable | .running => true
  | .unused | .used | .zombie => false

def step (s : State W) (label : Pid × Call) : Option (State W) :=
  if (s.proc label.1).alive then
    match label.2.perform label.1 s with
    | .ok _ next => some next
    | .error _ _ => none
  else none

theorem step_some {s next : State W} {label : Pid × Call} (stepped : step s label = some next) :
    (s.proc label.1).alive = true ∧ ∃ result, label.2.perform label.1 s = .ok result next := by
  unfold step at stepped
  split at stepped
  · rename_i alive
    split at stepped
    · rename_i result after performed
      cases stepped
      exact ⟨alive, result, performed⟩
    · cases stepped
  · cases stepped

/-- The memory `userinit` finds: every table is cleared, and the store is the one that
`fsinit` leaves. -/
structure Cleared (s : State W) : Prop where
  file : ∀ f, (s.file f).type = .none ∧ (s.file f).ref = 0
  inode : ∀ k, (s.fs.inode k).ref = 0 ∧ (s.fs.inode k).locked = false
  proc : ∀ p, (s.proc p).state = .unused ∧ (s.proc p).pid = 0 ∧ (s.proc p).killed = false ∧
    (s.proc p).parent = none ∧ (s.proc p).sz = 0 ∧ (s.proc p).pagetable = 0 ∧
    (s.proc p).trapframe = 0 ∧ (∀ fd, (s.proc p).ofile fd = none) ∧ (s.proc p).cwd = none

/-- Zeroed tables over a store and the physical memory. -/
def bss (store : W) (sb : Superblock) (ram : Vm.Ram) : State W where
  fs :=
    { store, sb
      inode := fun _ => { type := 0, major := 0, minor := 0, nlink := 0, size := 0
                          addrs := fun _ => 0, dev := 0, inum := 0, ref := 0, locked := false
                          valid := false } }
  ram
  file _ := { type := .none, ref := 0, readable := false, writable := false, pipe := 0
              ip := ⟨0, ninode_pos⟩, off := 0, major := 0 }
  pipe _ := { readopen := false, writeopen := false, nread := 0, nwrite := 0, data := fun _ => 0 }
  proc _ := { state := .unused, pid := 0, killed := false, xstate := 0, parent := none, sz := 0
              pagetable := 0, trapframe := 0, ofile := fun _ => none, cwd := none }
  nextpid := 1

omit [BlockLayer W] in
theorem bss_cleared (store : W) (sb : Superblock) (ram : Vm.Ram) : Cleared (bss store sb ram) where
  file _ := ⟨rfl, rfl⟩
  inode _ := ⟨rfl, rfl⟩
  proc _ := ⟨rfl, rfl, rfl, rfl, rfl, rfl, rfl, fun _ => rfl, rfl⟩

/-- Memory of `count` free pages from `0x80100` on. -/
def tinyRam (count : Nat) (faults : List Bool) : Vm.Ram where
  first := 0x80100
  trampoline := 0x80007
  freelist := (List.range count).map (0x80100 + ·)
  pte _ _ := .zero
  byte _ _ := 0
  faults := faults

/-- The cache and the log over that disk once the log has been recovered. -/
def tinyStore : Store :=
  binit tinyDisk
    { start := 2, size := 30, outstanding := 0, committing := false, dev := ROOTDEV
      lh := { n := 0, block := fun _ => 0 } }

/-- Whether the calls run from `userinit` on and end in a state the test accepts. -/
def runsTo (bss : State W) (calls : List (Pid × Call)) (test : State W → Bool) : Bool :=
  match userinit [] bss with
  | .ok _ booted => (Foundation.Runs.run step booted calls).any test
  | .error _ _ => false

theorem runsTo_run (bss : State W) (calls : List (Pid × Call)) (test : State W → Bool)
    (runs : runsTo bss calls test = true) :
    ∃ booted final, userinit [] bss = .ok () booted ∧
      Foundation.Runs.run step booted calls = some final ∧ test final = true := by
  unfold runsTo at runs
  split at runs
  · rename_i booted boot
    obtain ⟨final, ran, accepted⟩ := (Option.any_eq_true _ _).mp runs
    exact ⟨booted, final, boot, ran, accepted⟩
  · cases runs

end PaddleOs.Kernel
