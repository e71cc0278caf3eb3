import PaddleOs.Directory
import PaddleOs.Vm
import PaddleOs.ProcTable

/-!
Processes, open files and pipes over the file system and the physical memory:
`proc.c`, `file.c`, `pipe.c`, `exec.c` and the system calls of `sysfile.c` and
`sysproc.c`, one call at a time. A call that goes to sleep gives the processor up
where it stands and has no result yet (`none`); woken up it goes on as a call with
what is left to do. The strings and addresses a call gets from the user are
arguments; what a copy to or from user memory does is taken from the page table.
Device files are handled by drivers outside this model, which return `device`.
-/

namespace PaddleOs.Kernel

open Foundation.Outcome Foundation.LittleEndian
open ProcTable (ProcState)
open Fs (Path)

inductive Halt where
  | fs (stop : Stop)
  | vm (stop : Vm.Stop)
  | initExiting
  | filedup
  | fileclose
  | fileread
  | filewrite
  | kerneltrap
  deriving DecidableEq, Repr

inductive FileType where
  | none
  | pipe
  | inode
  | device
  deriving DecidableEq, Repr

abbrev FileId := Fin NFILE

abbrev Pid := Fin NPROC

structure File where
  type : FileType
  ref : Int
  readable : Bool
  writable : Bool
  pipe : Nat
  ip : Fs.Slot
  off : Nat
  major : Int16

/-- `struct pipe`, at the page that holds it. -/
structure Pipe where
  readopen : Bool
  writeopen : Bool
  nread : Nat
  nwrite : Nat
  data : Nat → UInt8

def PIPESIZE : Nat := 512

structure Proc where
  state : ProcState
  pid : Int32
  killed : Bool
  xstate : Int32
  parent : Option Pid
  sz : Nat
  pagetable : Nat
  trapframe : Nat
  ofile : Fin NOFILE → Option FileId
  cwd : Option Fs.Slot
  name : List UInt8 := []

structure State (W : Type) where
  fs : Fs.State W
  ram : Vm.Ram
  file : FileId → File
  pipe : Nat → Pipe
  proc : Pid → Proc
  nextpid : Int32

abbrev KernelM (W : Type) := EStateM Halt (State W)

variable {W : Type} [BlockLayer W]

def fs {α : Type} (run : Fs.FsM W α) : KernelM W α :=
  zoom State.fs (fun s fs => { s with fs }) Halt.fs run

def vm {α : Type} (run : Vm.VmM α) : KernelM W α :=
  zoom State.ram (fun s ram => { s with ram }) Halt.vm run

def modifyFile (f : FileId) (change : File → File) : KernelM W Unit :=
  modify fun s => { s with file := Function.update s.file f (change (s.file f)) }

def modifyProc (p : Pid) (change : Proc → Proc) : KernelM W Unit :=
  modify fun s => { s with proc := Function.update s.proc p (change (s.proc p)) }

def modifyPipe (page : Nat) (change : Pipe → Pipe) : KernelM W Unit :=
  modify fun s => { s with pipe := Function.update s.pipe page (change (s.pipe page)) }

def file (f : FileId) : KernelM W File := do return (← get).file f

def proc (p : Pid) : KernelM W Proc := do return (← get).proc p

def setOfile (p : Pid) (fd : Fin NOFILE) (f : Option FileId) : KernelM W Unit :=
  modifyProc p fun p => { p with ofile := Function.update p.ofile fd f }

section Files

def filealloc : KernelM W (Option FileId) := do
  let s ← get
  match (List.finRange NFILE).find? fun f => decide ((s.file f).ref = 0) with
  | some f =>
      modifyFile f fun f => { f with ref := 1 }
      return some f
  | none => return none

def filedup (f : FileId) : KernelM W Unit := do
  if (← file f).ref < 1 then throw .filedup
  modifyFile f fun f => { f with ref := f.ref + 1 }

/-- `pipeclose`; the wakeups find nobody asleep. -/
def pipeclose (page : Nat) (writable : Bool) : KernelM W Unit := do
  modifyPipe page fun pi =>
    if writable then { pi with writeopen := false } else { pi with readopen := false }
  let pi := (← get).pipe page
  if !pi.readopen ∧ !pi.writeopen then vm (Vm.kfree page)

def fileclose (f : FileId) : KernelM W Unit := do
  if (← file f).ref < 1 then throw .fileclose
  modifyFile f fun f => { f with ref := f.ref - 1 }
  let ff ← file f
  if ff.ref > 0 then return
  modifyFile f fun f => { f with ref := 0, type := .none }
  match ff.type with
  | .pipe => pipeclose ff.pipe ff.writable
  | .inode | .device =>
      fs Fs.beginOp
      fs (Fs.iput ff.ip)
      fs Fs.endOp
  | .none => return

def fdalloc (p : Pid) (f : FileId) : KernelM W (Option (Fin NOFILE)) := do
  let s ← proc p
  match (List.finRange NOFILE).find? fun fd => (s.ofile fd).isNone with
  | some fd =>
      setOfile p fd (some f)
      return some fd
  | none => return none

/-- `argfd`: the descriptor and its file. -/
def argfd (p : Pid) (fd : Int) : KernelM W (Option (Fin NOFILE × FileId)) := do
  let s ← proc p
  if h : 0 ≤ fd ∧ fd.toNat < NOFILE then
    return (s.ofile ⟨fd.toNat, h.2⟩).map fun f => (⟨fd.toNat, h.2⟩, f)
  else return none

def sysDup (p : Pid) (fd : Int) : KernelM W Int := do
  match ← argfd p fd with
  | none => return -1
  | some (_, f) =>
      match ← fdalloc p f with
      | none => return -1
      | some fd =>
          filedup f
          return fd.val

def sysClose (p : Pid) (fd : Int) : KernelM W Int := do
  match ← argfd p fd with
  | none => return -1
  | some (fd, f) =>
      setOfile p fd none
      fileclose f
      return 0

/-- What `copyin` from `addr + k` delivers for `m` bytes. -/
def userSource (ram : Vm.Ram) (pagetable addr : Nat) (k m : Nat) : List UInt8 × Bool :=
  match Vm.copyin pagetable (word64 (addr + k)) m ram with
  | .ok result _ => result
  | .error _ _ => ([], false)

/-- Whether `copyout` of `m` bytes to `addr + k` succeeds. -/
def userAccepts (ram : Vm.Ram) (pagetable addr : Nat) (k m : Nat) : Bool :=
  match Vm.copyout pagetable (word64 (addr + k)) (List.replicate m 0) ram with
  | .ok done _ => done
  | .error _ _ => false

/-- The loop of `piperead` from byte `i`, `count` bytes at most. -/
def pipereadFrom (page pagetable addr : Nat) : Nat → Nat → KernelM W Int
  | 0, i => return i
  | count + 1, i => do
      let pi := (← get).pipe page
      if pi.nread = pi.nwrite then return i
      modifyPipe page fun pi => { pi with nread := (pi.nread + 1) % 2 ^ 32 }
      if ← vm (Vm.copyout pagetable (word64 (addr + i)) [pi.data (pi.nread % PIPESIZE)]) then
        pipereadFrom page pagetable addr count (i + 1)
      else return i

def piperead (p : Pid) (page addr : Nat) (n : Int) : KernelM W (Option Int) := do
  let pi := (← get).pipe page
  if pi.nread = pi.nwrite ∧ pi.writeopen then
    if (← proc p).killed then return some (-1) else return none
  return some (← pipereadFrom page (← proc p).pagetable addr n.toNat 0)

/-- The loop of `pipewrite` from byte `i`, `count` bytes at most. -/
def pipewriteFrom (p : Pid) (page addr : Nat) : Nat → Nat → KernelM W (Option Int)
  | 0, i => return some i
  | count + 1, i => do
      let pi := (← get).pipe page
      if !pi.readopen ∨ (← proc p).killed then return some (-1)
      if pi.nwrite = (pi.nread + PIPESIZE) % 2 ^ 32 then return none
      let (bytes, copied) ← vm (Vm.copyin (← proc p).pagetable (word64 (addr + i)) 1)
      if copied then
        modifyPipe page fun pi =>
          { pi with data := Function.update pi.data (pi.nwrite % PIPESIZE) (bytes.getD 0 0)
                    nwrite := (pi.nwrite + 1) % 2 ^ 32 }
        pipewriteFrom p page addr count (i + 1)
      else return some i

/-- An `int` argument as the `uint` parameter it is passed to. -/
def asUint (n : Int) : Nat := (n % 2 ^ 32).toNat

def fileread (p : Pid) (f : FileId) (addr : Nat) (n device : Int) : KernelM W (Option Int) := do
  let ff ← file f
  if !ff.readable then return some (-1)
  match ff.type with
  | .pipe => piperead p ff.pipe addr n
  | .device => if ff.major < 0 ∨ ff.major ≥ 10 then return some (-1) else return some device
  | .inode =>
      fs (Fs.ilock ff.ip)
      let pagetable := (← proc p).pagetable
      let ram := (← get).ram
      let (r, bytes) ← fs (Fs.readi ff.ip (userAccepts ram pagetable addr) ff.off (asUint n))
      let _ ← vm (Vm.copyout pagetable addr bytes)
      if r > 0 then modifyFile f fun f => { f with off := (f.off + r.toNat) % 2 ^ 32 }
      fs (Fs.iunlock ff.ip)
      return some r
  | .none => throw .fileread

def sysRead (p : Pid) (fd : Int) (addr : Nat) (n device : Int) : KernelM W (Option Int) := do
  match ← argfd p fd with
  | none => return some (-1)
  | some (_, f) => fileread p f addr n device

/-- `((MAXOPBLOCKS - 1 - 1 - 2) / 2) * BSIZE` -/
def writeMax : Nat := (MAXOPBLOCKS - 1 - 1 - 2) / 2 * BSIZE

/-- The loop of `filewrite` from byte `i`, at most `fuel` transactions; the number
of bytes written. -/
def filewriteFrom (p : Pid) (f : FileId) (addr n : Nat) : Nat → Nat → KernelM W Nat
  | 0, i => return i
  | fuel + 1, i => do
      if i < n then
        let n1 := min (n - i) writeMax
        fs Fs.beginOp
        let ip := (← file f).ip
        fs (Fs.ilock ip)
        let source := userSource (← get).ram (← proc p).pagetable (word64 (addr + i))
        let r ← fs (Fs.writei ip source (← file f).off n1)
        if r > 0 then modifyFile f fun f => { f with off := (f.off + r.toNat) % 2 ^ 32 }
        fs (Fs.iunlock ip)
        fs Fs.endOp
        if r ≠ (n1 : Int) then return i
        filewriteFrom p f addr n fuel (i + n1)
      else return i

def filewrite (p : Pid) (f : FileId) (addr : Nat) (n device : Int) : KernelM W (Option Int) := do
  let ff ← file f
  if !ff.writable then return some (-1)
  match ff.type with
  | .pipe => pipewriteFrom p ff.pipe addr n.toNat 0
  | .device => if ff.major < 0 ∨ ff.major ≥ 10 then return some (-1) else return some device
  | .inode =>
      let i ← filewriteFrom p f addr n.toNat n.toNat 0
      return some (if (i : Int) = n then n else -1)
  | .none => throw .filewrite

def sysWrite (p : Pid) (fd : Int) (addr : Nat) (n device : Int) : KernelM W (Option Int) := do
  match ← argfd p fd with
  | none => return some (-1)
  | some (_, f) => filewrite p f addr n device

end Files

section Calls

/-- `myproc()->cwd`; a use of a null one faults in the kernel. -/
def cwd (p : Pid) : KernelM W Fs.Slot := do
  match (← proc p).cwd with
  | some ip => return ip
  | none => throw .kerneltrap

def asResult (done : Bool) : Int := if done then 0 else -1

def sysLink (p : Pid) (old new : Option Path) : KernelM W Int := do
  return asResult (← fs (Fs.sysLink (← cwd p) old new))

def sysUnlink (p : Pid) (path : Option Path) : KernelM W Int := do
  return asResult (← fs (Fs.sysUnlink (← cwd p) path))

def sysMkdir (p : Pid) (path : Option Path) : KernelM W Int := do
  return asResult (← fs (Fs.sysMkdir (← cwd p) path))

def sysMknod (p : Pid) (path : Option Path) (major minor : Int16) : KernelM W Int := do
  return asResult (← fs (Fs.sysMknod (← cwd p) path major minor))

def sysChdir (p : Pid) (path : Option Path) : KernelM W Int := do
  match ← fs (Fs.sysChdir (← cwd p) path) with
  | none => return -1
  | some ip =>
      modifyProc p fun p => { p with cwd := some ip }
      return 0

def O_WRONLY : Nat := 1
def O_RDWR : Nat := 2
def O_CREATE : Nat := 0x200
def O_TRUNC : Nat := 0x400

def hasFlag (omode flag : Nat) : Bool := omode &&& flag != 0

/-- The part of `sys_open` that finds or creates the inode; it comes back locked. -/
def openInode (p : Pid) (path : Path) (omode : Nat) : KernelM W (Option Fs.Slot) := do
  if hasFlag omode O_CREATE then fs (Fs.create (← cwd p) path T_FILE 0 0)
  else
    match ← fs (Fs.namei (← cwd p) path) with
    | none => return none
    | some ip =>
        fs (Fs.ilock ip)
        if (← fs (Fs.inode ip)).type = T_DIR ∧ omode ≠ 0 then
          fs (Fs.iunlockput ip)
          return none
        return some ip

/-- The exits of `sys_open` that give the inode back. -/
def openBad (ip : Fs.Slot) : KernelM W Int := do
  fs (Fs.iunlockput ip)
  fs Fs.endOp
  return -1

def sysOpen (p : Pid) (path : Option Path) (omode : Nat) : KernelM W Int := do
  match path with
  | none => return -1
  | some path =>
      fs Fs.beginOp
      match ← openInode p path omode with
      | none =>
          fs Fs.endOp
          return -1
      | some ip =>
          let node ← fs (Fs.inode ip)
          if node.type = T_DEVICE ∧ (node.major < 0 ∨ node.major ≥ 10) then
            return ← openBad ip
          match ← filealloc with
          | none => openBad ip
          | some f =>
              match ← fdalloc p f with
              | none =>
                  fileclose f
                  openBad ip
              | some fd =>
                  if node.type = T_DEVICE then
                    modifyFile f fun f => { f with type := .device, major := node.major }
                  else modifyFile f fun f => { f with type := .inode, off := 0 }
                  modifyFile f fun f =>
                    { f with ip
                             readable := !hasFlag omode O_WRONLY
                             writable := hasFlag omode O_WRONLY || hasFlag omode O_RDWR }
                  if hasFlag omode O_TRUNC ∧ node.type = T_FILE then fs (Fs.itrunc ip)
                  fs (Fs.iunlock ip)
                  fs Fs.endOp
                  return fd.val

/-- The exit `bad:` of `pipealloc`. -/
def pipeallocBad (f0 f1 : Option FileId) : KernelM W (Option (FileId × FileId)) := do
  match f0 with
  | some f => fileclose f
  | none => pure ()
  match f1 with
  | some f => fileclose f
  | none => pure ()
  return none

def pipealloc : KernelM W (Option (FileId × FileId)) := do
  match ← filealloc with
  | none => pipeallocBad none none
  | some f0 =>
      match ← filealloc with
      | none => pipeallocBad (some f0) none
      | some f1 =>
          match ← vm Vm.kalloc with
          | none => pipeallocBad (some f0) (some f1)
          | some page =>
              modifyPipe page fun pi =>
                { pi with readopen := true, writeopen := true, nwrite := 0, nread := 0 }
              modifyFile f0 fun f =>
                { f with type := .pipe, readable := true, writable := false, pipe := page }
              modifyFile f1 fun f =>
                { f with type := .pipe, readable := false, writable := true, pipe := page }
              return some (f0, f1)

def intBytes (n : Nat) : List UInt8 :=
  (List.range 4).map fun i => putLE (fun _ => 0) 0 4 n i

def sysPipe (p : Pid) (fdarray : Nat) : KernelM W Int := do
  match ← pipealloc with
  | none => return -1
  | some (rf, wf) =>
      match ← fdalloc p rf with
      | none =>
          fileclose rf
          fileclose wf
          return -1
      | some fd0 =>
          match ← fdalloc p wf with
          | none =>
              setOfile p fd0 none
              fileclose rf
              fileclose wf
              return -1
          | some fd1 =>
              let pagetable := (← proc p).pagetable
              let first ← vm (Vm.copyout pagetable fdarray (intBytes fd0))
              let second ← if first then
                  vm (Vm.copyout pagetable (word64 (fdarray + 4)) (intBytes fd1))
                else pure false
              if second then return 0
              setOfile p fd0 none
              setOfile p fd1 none
              fileclose rf
              fileclose wf
              return -1

end Calls

section Processes

def initproc : Pid := ⟨0, nproc_pos⟩

def freeproc (p : Pid) : KernelM W Unit := do
  let s ← proc p
  if s.trapframe ≠ 0 then vm (Vm.kfree s.trapframe)
  modifyProc p fun p => { p with trapframe := 0 }
  if s.pagetable ≠ 0 then vm (Vm.procFreepagetable s.pagetable s.sz)
  modifyProc p fun p =>
    { p with pagetable := 0, sz := 0, pid := 0, parent := none, name := [], killed := false
             xstate := 0, state := .unused }

def allocproc : KernelM W (Option Pid) := do
  let s ← get
  match (List.finRange NPROC).find? fun p => decide ((s.proc p).state = .unused) with
  | none => return none
  | some p =>
      modify fun s => { s with nextpid := s.nextpid + 1 }
      modifyProc p fun p => { p with pid := s.nextpid, state := .used }
      match ← vm Vm.kalloc with
      | none =>
          modifyProc p fun p => { p with trapframe := 0 }
          freeproc p
          return none
      | some trapframe =>
          modifyProc p fun p => { p with trapframe }
          match ← vm (Vm.procPagetable trapframe) with
          | none =>
              modifyProc p fun p => { p with pagetable := 0 }
              freeproc p
              return none
          | some pagetable =>
              modifyProc p fun p => { p with pagetable }
              return some p

/-- `"initcode"` -/
def initcodeName : List UInt8 := [105, 110, 105, 116, 99, 111, 100, 101]

/-- `userinit`, up to the registers of the first process. -/
def userinit (initcode : List UInt8) : KernelM W Unit := do
  match ← allocproc with
  | none => throw .kerneltrap
  | some p =>
      vm (Vm.uvmfirst (← proc p).pagetable initcode)
      modifyProc p fun p => { p with sz := PGSIZE }
      let ip ← fs (Fs.iget ROOTDEV ROOTINO)
      modifyProc p fun p =>
        { p with name := initcodeName, cwd := some ip, state := .runnable }

/-- One turn of the loop over the parent's open files. -/
def forkFile (p np : Pid) (i : Nat) : KernelM W Unit := do
  if h : i < NOFILE then
    match (← proc p).ofile ⟨i, h⟩ with
    | some f =>
        filedup f
        setOfile np ⟨i, h⟩ (some f)
    | none => return

def fork (p : Pid) : KernelM W Int := do
  match ← allocproc with
  | none => return -1
  | some np =>
      let parent ← proc p
      if ← vm (Vm.uvmcopy parent.pagetable (← proc np).pagetable parent.sz) then
        modifyProc np fun np => { np with sz := parent.sz }
        vm (Vm.copyTrapframe (← proc np).trapframe parent.trapframe)
        loop (forkFile p np) 0 NOFILE
        let ip ← fs (Fs.idup (← cwd p))
        modifyProc np fun np => { np with cwd := some ip, name := parent.name }
        modifyProc np fun np => { np with parent := some p }
        modifyProc np fun np => { np with state := .runnable }
        return (← proc np).pid.toInt
      else
        freeproc np
        return -1

/-- `reparent` without its wakeups. -/
def reparent (p : Pid) : KernelM W Unit :=
  modify fun s =>
    { s with proc := fun pp =>
               if (s.proc pp).parent = some p then { s.proc pp with parent := some initproc }
               else s.proc pp }

/-- One turn of the loop that closes the open files. -/
def exitFile (p : Pid) (i : Nat) : KernelM W Unit := do
  if h : i < NOFILE then
    match (← proc p).ofile ⟨i, h⟩ with
    | some f =>
        fileclose f
        setOfile p ⟨i, h⟩ none
    | none => return

def exit (p : Pid) (status : Int32) : KernelM W Unit := do
  if p = initproc then throw .initExiting
  loop (exitFile p) 0 NOFILE
  let ip ← cwd p
  fs Fs.beginOp
  fs (Fs.iput ip)
  fs Fs.endOp
  modifyProc p fun p => { p with cwd := none }
  reparent p
  modifyProc p fun p => { p with xstate := status, state := .zombie }

/-- The scan of `wait`: the first child that is a zombie, and whether there is a child. -/
def wait (p : Pid) (addr : Nat) : KernelM W (Option Int) := do
  let s ← get
  let kids := (List.finRange NPROC).filter fun pp => decide ((s.proc pp).parent = some p)
  match kids.find? fun pp => decide ((s.proc pp).state = .zombie) with
  | some pp =>
      let pid := (s.proc pp).pid
      let copied ← if addr ≠ 0 then
          vm (Vm.copyout (s.proc p).pagetable addr (intBytes (s.proc pp).xstate.toUInt32.toNat))
        else pure true
      if copied then
        freeproc pp
        return some pid.toInt
      else return some (-1)
  | none =>
      if kids = [] ∨ (s.proc p).killed then return some (-1) else return none

def kill (pid : Int32) : KernelM W Int := do
  let s ← get
  match (List.finRange NPROC).find? fun p => decide ((s.proc p).pid = pid) with
  | some p =>
      modifyProc p fun p =>
        { p with killed := true
                 state := if p.state = .sleeping then .runnable else p.state }
      return 0
  | none => return -1

/-- `growproc`; the size and the sum are `uint64`, `n` an `int`. -/
def growproc (p : Pid) (n : Int) : KernelM W Int := do
  let s ← proc p
  let newsz := ((s.sz + n) % 2 ^ 64).toNat
  if n > 0 then
    let sz ← vm (Vm.uvmalloc s.pagetable s.sz newsz true false)
    if sz = 0 then return -1
    modifyProc p fun p => { p with sz }
    return 0
  else if n < 0 then
    let sz ← vm (Vm.uvmdealloc s.pagetable s.sz newsz)
    modifyProc p fun p => { p with sz }
    return 0
  else return 0

def sysSbrk (p : Pid) (n : Int) : KernelM W Int := do
  let addr := (← proc p).sz
  if (← growproc p n) < 0 then return -1
  return addr

end Processes

section Exec

def ELF_MAGIC : Nat := 0x464C457F
def ELF_PROG_LOAD : Nat := 1

/-- The fields of `struct elfhdr` that `exec` reads. -/
structure Elfhdr where
  magic : Nat
  entry : Nat
  phoff : Nat
  phnum : Nat

structure Proghdr where
  type : Nat
  flags : Nat
  off : Nat
  vaddr : Nat
  filesz : Nat
  memsz : Nat

def bytesOf (bytes : List UInt8) : Bytes := fun i => bytes.getD i 0

def getElfhdr (bytes : List UInt8) : Elfhdr where
  magic := getLE (bytesOf bytes) 0 4
  entry := getLE (bytesOf bytes) 24 8
  phoff := getLE (bytesOf bytes) 32 8
  phnum := getLE (bytesOf bytes) 56 2

def getProghdr (bytes : List UInt8) : Proghdr where
  type := getLE (bytesOf bytes) 0 4
  flags := getLE (bytesOf bytes) 4 4
  off := getLE (bytesOf bytes) 8 8
  vaddr := getLE (bytesOf bytes) 16 8
  filesz := getLE (bytesOf bytes) 32 8
  memsz := getLE (bytesOf bytes) 40 8

def ELFHDR : Nat := 64
def PROGHDR : Nat := 56

/-- The loop of `loadseg` at `i`, for `count` more pages; false for -1. -/
def loadsegFrom (pagetable va : Nat) (ip : Fs.Slot) (offset sz : Nat) :
    Nat → Nat → KernelM W Bool
  | 0, _ => return true
  | count + 1, i => do
      let page ← vm (Vm.walkaddr pagetable (word64 (va + i)))
      if page = 0 then throw (.vm .loadsegAddress)
      let n := if sz - i < PGSIZE then sz - i else PGSIZE
      let (r, bytes) ← fs (Fs.readi ip Fs.kernelAccepts ((offset + i) % 2 ^ 32) n)
      vm (Vm.putBytes page 0 bytes)
      if r ≠ (n : Int) then return false
      loadsegFrom pagetable va ip offset sz count (i + PGSIZE)

/-- `loadseg`, whose offset and size are `uint` parameters. -/
def loadseg (pagetable va : Nat) (ip : Fs.Slot) (offset sz : Nat) : KernelM W Bool :=
  let sz := sz % 2 ^ 32
  loadsegFrom pagetable va ip (offset % 2 ^ 32) sz ((sz + PGSIZE - 1) / PGSIZE) 0

/-- The loop over the program headers, for `count` more of them at file offset `off`:
whether all were loaded, and the size reached. -/
def execSegments (pagetable : Nat) (ip : Fs.Slot) : Nat → Nat → Nat → KernelM W (Bool × Nat)
  | 0, _, sz => return (true, sz)
  | count + 1, off, sz => do
      let (r, bytes) ← fs (Fs.readi ip Fs.kernelAccepts off PROGHDR)
      if r ≠ (PROGHDR : Int) then return (false, sz)
      let ph := getProghdr bytes
      let next := (off + PROGHDR) % 2 ^ 32
      if ph.type ≠ ELF_PROG_LOAD then execSegments pagetable ip count next sz
      else if ph.memsz < ph.filesz then return (false, sz)
      else if word64 (ph.vaddr + ph.memsz) < ph.vaddr then return (false, sz)
      else if ph.vaddr % PGSIZE ≠ 0 then return (false, sz)
      else
        let sz1 ← vm (Vm.uvmalloc pagetable sz (word64 (ph.vaddr + ph.memsz))
          (ph.flags.testBit 1) (ph.flags.testBit 0))
        if sz1 = 0 then return (false, sz)
        if ← loadseg pagetable ph.vaddr ip ph.off ph.filesz then
          execSegments pagetable ip count next sz1
        else return (false, sz1)

/-- The exit `bad:` of `exec`. -/
def execBad (pagetable : Option Nat) (sz : Nat) (ip : Option Fs.Slot) : KernelM W Int := do
  match pagetable with
  | some pagetable => vm (Vm.procFreepagetable pagetable sz)
  | none => pure ()
  match ip with
  | some ip =>
      fs (Fs.iunlockput ip)
      fs Fs.endOp
  | none => pure ()
  return -1

def alignDown (sp : Nat) : Nat := sp - sp % 16

/-- The loop that copies the strings to the stack: their addresses and the stack
pointer, or none for `goto bad`. -/
def pushArgs (pagetable stackbase : Nat) :
    List (List UInt8) → Nat → List Nat → KernelM W (Option (List Nat × Nat))
  | [], sp, ustack => return some (ustack, sp)
  | arg :: rest, sp, ustack => do
      if ustack.length ≥ MAXARG then return none
      let sp := alignDown (word64 (sp + 2 ^ 64 - (arg.length + 1)))
      if sp < stackbase then return none
      if ← vm (Vm.copyout pagetable sp (arg ++ [0])) then
        pushArgs pagetable stackbase rest sp (ustack ++ [sp])
      else return none

def wordBytes (n : Nat) : List UInt8 :=
  (List.range 8).map fun i => putLE (fun _ => 0) 0 8 n i

/-- The argument strings and the array of their addresses; none for `goto bad`. -/
def buildStack (pagetable sz : Nat) (argv : List (List UInt8)) : KernelM W (Option Nat) := do
  let stackbase := sz - PGSIZE
  match ← pushArgs pagetable stackbase argv sz [] with
  | none => return none
  | some (ustack, sp) =>
      let sp := alignDown (word64 (sp + 2 ^ 64 - (ustack.length + 1) * 8))
      if sp < stackbase then return none
      if ← vm (Vm.copyout pagetable sp ((ustack ++ [0]).flatMap wordBytes)) then return some sp
      else return none

/-- What `safestrcpy` keeps in `p->name` of the last element of the path. -/
def lastName (path : Path) : List UInt8 :=
  ((path.reverse.takeWhile (· ≠ Fs.slash)).reverse).take 15

/-- `exec` from the allocation of the user stack on. -/
def execStack (p : Pid) (pagetable sz : Nat) (path : Path) (entry : Nat)
    (argv : List (List UInt8)) : KernelM W Int := do
  let oldsz := (← proc p).sz
  let sz := PGROUNDUP sz
  let sz1 ← vm (Vm.uvmalloc pagetable sz (word64 (sz + 2 * PGSIZE)) true false)
  if sz1 = 0 then return ← execBad (some pagetable) sz none
  vm (Vm.uvmclear pagetable (sz1 - 2 * PGSIZE))
  match ← buildStack pagetable sz1 argv with
  | none => execBad (some pagetable) sz1 none
  | some sp =>
      let old ← proc p
      vm (Vm.putBytes old.trapframe Vm.TF_A1 (wordBytes sp))
      modifyProc p fun p => { p with name := lastName path, pagetable, sz := sz1 }
      vm (Vm.putBytes old.trapframe Vm.TF_EPC (wordBytes entry))
      vm (Vm.putBytes old.trapframe Vm.TF_SP (wordBytes sp))
      vm (Vm.procFreepagetable old.pagetable oldsz)
      return argv.length

def exec (p : Pid) (path : Path) (argv : List (List UInt8)) : KernelM W Int := do
  fs Fs.beginOp
  match ← fs (Fs.namei (← cwd p) path) with
  | none =>
      fs Fs.endOp
      return -1
  | some ip =>
      fs (Fs.ilock ip)
      let (r, bytes) ← fs (Fs.readi ip Fs.kernelAccepts 0 ELFHDR)
      if r ≠ (ELFHDR : Int) then return ← execBad none 0 (some ip)
      let elf := getElfhdr bytes
      if elf.magic ≠ ELF_MAGIC then return ← execBad none 0 (some ip)
      match ← vm (Vm.procPagetable (← proc p).trapframe) with
      | none => execBad none 0 (some ip)
      | some pagetable =>
          let (loaded, sz) ← execSegments pagetable ip elf.phnum (elf.phoff % 2 ^ 32) 0
          if !loaded then return ← execBad (some pagetable) sz (some ip)
          fs (Fs.iunlockput ip)
          fs Fs.endOp
          execStack p pagetable sz path elf.entry argv

/-- What `fetchaddr` and `fetchstr` give for one element of the user's `argv`. -/
inductive Arg where
  | noAddress
  | null
  | noString
  | string (s : List UInt8)

def freeArgs : List Nat → KernelM W Unit
  | [] => return ()
  | page :: rest => do
      vm (Vm.kfree page)
      freeArgs rest

/-- The loop of `sys_exec` at element `i`, at most `fuel` of them, with the pages and
strings so far; none for `goto bad`. -/
def collectArgs (args : Nat → Arg) :
    Nat → Nat → List Nat → List (List UInt8) → KernelM W (List Nat × Option (List (List UInt8)))
  | 0, _, pages, _ => return (pages, none)
  | fuel + 1, i, pages, argv =>
      match args i with
      | .noAddress => return (pages, none)
      | .null => return (pages, some argv)
      | .noString => do
          match ← vm Vm.kalloc with
          | none => return (pages, none)
          | some page => return (pages ++ [page], none)
      | .string s => do
          match ← vm Vm.kalloc with
          | none => return (pages, none)
          | some page => collectArgs args fuel (i + 1) (pages ++ [page]) (argv ++ [s])

def sysExec (p : Pid) (path : Option Path) (args : Nat → Arg) : KernelM W Int := do
  match path with
  | none => return -1
  | some path =>
      match ← collectArgs args MAXARG 0 [] [] with
      | (pages, none) =>
          freeArgs pages
          return -1
      | (pages, some argv) =>
          let ret ← exec p path argv
          freeArgs pages
          return ret

end Exec

end PaddleOs.Kernel
