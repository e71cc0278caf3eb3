import PaddleOs.FsSkeleton
import PaddleOs.KernelQuiet
import PaddleOs.System
import PaddleOs.Foundation.Tally

/-!
Reference counts across whole system calls. The books are all that counts and is
counted: the skeleton of the file system, the open files and what each process
holds. A kernel function is specified by what it does to the books. What a count
has in excess of its uses is owed; a call may owe something while it runs, and
between two calls nothing is owed.
-/

namespace PaddleOs.Kernel

open Foundation.Outcome Foundation.View Foundation.Tally Foundation.Runs
open ProcTable (ProcState)
open Fs (Path Slot Skeleton CountingLayer)

variable {W : Type} [BlockLayer W] [CountingLayer W]

/-- The part of a `struct file` that decides who holds a reference to an inode. -/
@[ext]
structure Entry where
  type : FileType
  ref : Int
  ip : Slot

/-- What a process holds, with the state that says whether it may hold anything. -/
@[ext]
structure Holder where
  state : ProcState
  ofile : Fin NOFILE → Option FileId
  cwd : Option Slot

@[ext]
structure Books where
  fs : Skeleton
  file : FileId → Entry
  holder : Pid → Holder

def File.entry (f : File) : Entry := { type := f.type, ref := f.ref, ip := f.ip }

def Proc.holder (p : Proc) : Holder := { state := p.state, ofile := p.ofile, cwd := p.cwd }

def books (s : State W) : Books where
  fs := Fs.skeleton s.fs
  file f := (s.file f).entry
  holder p := (s.proc p).holder

/-- The entry keeps a reference to its inode. -/
def Entry.ofInode (e : Entry) : Bool := e.type == .inode || e.type == .device

namespace Books

def setFile (b : Books) (f : FileId) (e : Entry) : Books :=
  { b with file := Function.update b.file f e }

def setHolder (b : Books) (p : Pid) (h : Holder) : Books :=
  { b with holder := Function.update b.holder p h }

def setOfile (b : Books) (p : Pid) (fd : Fin NOFILE) (f : Option FileId) : Books :=
  b.setHolder p { b.holder p with ofile := Function.update (b.holder p).ofile fd f }

def setCwd (b : Books) (p : Pid) (ip : Option Slot) : Books :=
  b.setHolder p { b.holder p with cwd := ip }

def setState (b : Books) (p : Pid) (state : ProcState) : Books :=
  b.setHolder p { b.holder p with state }

/-- One reference to an open file given back, the last one with its inode. -/
def close (b : Books) (f : FileId) : Books :=
  let e := b.file f
  if e.ref - 1 > 0 then b.setFile f { e with ref := e.ref - 1 }
  else
    let b := b.setFile f { e with ref := 0, type := .none }
    if e.ofInode then { b with fs := b.fs.drop e.ip } else b

@[simp]
theorem setFile_fs (b : Books) (f : FileId) (e : Entry) : (b.setFile f e).fs = b.fs := rfl

@[simp]
theorem setFile_holder (b : Books) (f : FileId) (e : Entry) :
    (b.setFile f e).holder = b.holder := rfl

@[simp]
theorem setFile_same (b : Books) (f : FileId) (e : Entry) : (b.setFile f e).file f = e :=
  Function.update_self ..

@[simp]
theorem setHolder_fs (b : Books) (p : Pid) (h : Holder) : (b.setHolder p h).fs = b.fs := rfl

@[simp]
theorem setHolder_file (b : Books) (p : Pid) (h : Holder) : (b.setHolder p h).file = b.file := rfl

@[simp]
theorem setHolder_same (b : Books) (p : Pid) (h : Holder) : (b.setHolder p h).holder p = h :=
  Function.update_self ..

theorem setHolder_other (b : Books) {p q : Pid} (h : Holder) (apart : q ≠ p) :
    (b.setHolder p h).holder q = b.holder q := Function.update_of_ne apart ..

end Books

section Lifting

/-- A file-system function does to the books what it does to the skeleton. -/
theorem fs_follows {α : Type} {run : Fs.FsM W α} {relation : Skeleton → α → Skeleton → Prop}
    (follows : Follows Fs.skeleton run relation) :
    Follows books (fs run) fun before value after =>
      relation before.fs value after.fs ∧ after = { before with fs := after.fs } := by
  refine follows_zoom follows ?_
  intro s value after related
  exact ⟨related, rfl⟩

theorem fs_changes {α : Type} {run : Fs.FsM W α} {change : α → Skeleton → Skeleton}
    (follows : Follows Fs.skeleton run fun before value after => after = change value before) :
    Follows books (fs run) fun before value after =>
      after = { before with fs := change value before.fs } := by
  refine (fs_follows follows).mono ?_
  rintro before value after ⟨changed, framed⟩
  rw [framed, changed]

theorem fs_keeps {α : Type} {run : Fs.FsM W α} (keeps : Keeps Fs.skeleton run) :
    Keeps books (fs run) := fs_changes keeps

theorem vm_keeps {α : Type} (run : Vm.VmM α) : Keeps books (vm (W := W) run) := by
  have unseen : ∀ (s : State W) (ram : Vm.Ram), books { s with ram } = books s := fun _ _ => rfl
  exact keeps_zoom unseen run

theorem modifyPipe_keeps (page : Nat) (change : Pipe → Pipe) :
    Keeps books (modifyPipe (W := W) page change) := keeps_modify fun _ => rfl

theorem file_keeps (f : FileId) : Keeps books (file (W := W) f) :=
  keeps_bind keeps_get fun _ => keeps_pure _

theorem proc_keeps (p : Pid) : Keeps books (proc (W := W) p) :=
  keeps_bind keeps_get fun _ => keeps_pure _

theorem books_setFile (s : State W) (f : FileId) (file : File) :
    books { s with file := Function.update s.file f file } = (books s).setFile f file.entry := by
  ext g
  all_goals first | rfl | skip
  all_goals
    simp only [books, Books.setFile, Function.update_apply]
    split <;> rfl

theorem books_setProc (s : State W) (p : Pid) (proc : Proc) :
    books { s with proc := Function.update s.proc p proc } =
      (books s).setHolder p proc.holder := by
  ext q
  all_goals first | rfl | skip
  all_goals
    simp only [books, Books.setHolder, Function.update_apply]
    split <;> rfl

theorem Books.setHolder_self (b : Books) (p : Pid) : b.setHolder p (b.holder p) = b := by
  simp [Books.setHolder]

/-- A store into a process that changes nothing it holds. -/
theorem modifyProc_keeps (p : Pid) {change : Proc → Proc}
    (same : ∀ proc, (change proc).holder = proc.holder) :
    Keeps books (modifyProc (W := W) p change) := by
  refine keeps_modify fun s => ?_
  rw [books_setProc, same]
  exact Books.setHolder_self (books s) p

theorem Books.setFile_self (b : Books) (f : FileId) : b.setFile f (b.file f) = b := by
  simp [Books.setFile]

theorem modifyFile_keeps (f : FileId) {change : File → File}
    (same : ∀ file, (change file).entry = file.entry) :
    Keeps books (modifyFile (W := W) f change) := by
  refine keeps_modify fun s => ?_
  rw [books_setFile, same]
  exact Books.setFile_self (books s) f

theorem modifyProc_sets (p : Pid) {change : Proc → Proc} (shape : Holder → Holder)
    (shaped : ∀ proc, (change proc).holder = shape proc.holder) :
    Follows books (modifyProc (W := W) p change)
      fun before _ after => after = before.setHolder p (shape (before.holder p)) := by
  intro s
  refine (books_setProc s p _).trans ?_
  rw [shaped]
  rfl

theorem modifyFile_sets (f : FileId) {change : File → File} (shape : Entry → Entry)
    (shaped : ∀ file, (change file).entry = shape file.entry) :
    Follows books (modifyFile (W := W) f change)
      fun before _ after => after = before.setFile f (shape (before.file f)) := by
  intro s
  refine (books_setFile s f _).trans ?_
  rw [shaped]
  rfl

theorem setOfile_sets (p : Pid) (fd : Fin NOFILE) (f : Option FileId) :
    Follows books (setOfile (W := W) p fd f)
      fun before _ after => after = before.setOfile p fd f :=
  fun s => books_setProc s p _

theorem books_quiet : Quiet fun ⦃α : Type⦄ (run : KernelM W α) => Keeps books run where
  toClosed := closed_keeps books
  halt _ := keeps_throw _
  vm := vm_keeps
  modifyPipe := modifyPipe_keeps
  modifyProc p _ state ofile cwd := by
    refine modifyProc_keeps p fun proc => ?_
    ext1
    · exact state proc
    · exact ofile proc
    · exact cwd proc

end Lifting

section Files

theorem filealloc_allocates : Follows books (filealloc (W := W)) fun before got after =>
    match got with
    | none => after = before
    | some f => (before.file f).ref = 0 ∧ after = before.setFile f { before.file f with ref := 1 } := by
  intro s
  unfold filealloc
  rw [outcome_bind, outcome_get]
  cases free : (List.finRange NFILE).find? fun f => decide ((s.file f).ref = 0) with
  | none => rfl
  | some f =>
      refine ⟨?_, books_setFile s f _⟩
      have found := List.find?_some free
      exact of_decide_eq_true found

theorem filedup_counts (f : FileId) : Follows books (filedup (W := W) f) fun before _ after =>
    1 ≤ (before.file f).ref ∧
      after = before.setFile f { before.file f with ref := (before.file f).ref + 1 } := by
  intro s
  unfold filedup
  simp only [file, bind_assoc, pure_bind, outcome_bind, outcome_get]
  by_cases unheld : (s.file f).ref < 1
  · rw [if_pos unheld]
    trivial
  · rw [if_neg unheld]
    exact ⟨Int.not_lt.mp unheld, books_setFile s f _⟩

theorem pipeclose_keeps (page : Nat) (writable : Bool) :
    Keeps books (pipeclose (W := W) page writable) :=
  pipeclose_quiet books_quiet page writable

theorem beginOp_opens : Follows books (fs (W := W) Fs.beginOp)
    fun before _ after => after = { before with fs := before.fs.opened } :=
  fs_changes Fs.beginOp_opens

theorem endOp_closes : Follows books (fs (W := W) Fs.endOp)
    fun before _ after => after = { before with fs := before.fs.closed } :=
  fs_changes Fs.endOp_closes

theorem iput_drops (ip : Slot) : Follows books (fs (W := W) (Fs.iput ip))
    fun before _ after => after = { before with fs := before.fs.drop ip } :=
  fs_changes (Fs.iput_drops ip)

/-- `iput` as a transaction of its own. -/
theorem putInode_drops (ip : Slot) : Follows books (do
      fs (W := W) Fs.beginOp
      fs (Fs.iput ip)
      fs Fs.endOp)
    fun before _ after => after = { before with fs := before.fs.drop ip } := by
  intro s
  refine beginOp_opens.step fun _ s1 opened => ?_
  refine (iput_drops ip).step fun _ s2 dropped => ?_
  refine endOp_closes.last fun _ s3 closed => ?_
  rw [closed, dropped, opened]
  change { books s with fs := ((books s).fs.drop ip).opened.closed } = _
  rw [Skeleton.closed_opened]

theorem fileclose_closes (f : FileId) : Follows books (fileclose (W := W) f)
    fun before _ after => 1 ≤ (before.file f).ref ∧ after = before.close f := by
  intro s
  unfold fileclose
  simp only [file, bind_assoc, pure_bind, outcome_bind, outcome_get]
  by_cases unheld : (s.file f).ref < 1
  · rw [if_pos unheld]
    trivial
  rw [if_neg unheld]
  have held : 1 ≤ ((books s).file f).ref := Int.not_lt.mp unheld
  simp only [modifyFile, outcome_bind, outcome_modify, outcome_get, Function.update_self]
  by_cases more : (s.file f).ref - 1 > 0
  · rw [if_pos more]
    refine ⟨held, ?_⟩
    have more' : ((books s).file f).ref - 1 > 0 := more
    rw [books_setFile, Books.close, if_pos more']
    rfl
  · rw [if_neg more]
    simp only [outcome_bind, outcome_modify, Function.update_self, Function.update_idem]
    have last : (books s).close f =
        if ((books s).file f).ofInode then
          { (books s).setFile f { (books s).file f with ref := 0, type := .none } with
            fs := (books s).fs.drop ((books s).file f).ip }
        else (books s).setFile f { (books s).file f with ref := 0, type := .none } := by
      have last' : ¬ ((books s).file f).ref - 1 > 0 := more
      rw [Books.close, if_neg last']
      rfl
    have emptied := books_setFile s f { s.file f with ref := 0, type := .none }
    cases kind : (s.file f).type with
    | none =>
        refine ⟨held, emptied.trans ?_⟩
        rw [last, if_neg (by simp [books, File.entry, Entry.ofInode, kind])]
        rfl
    | pipe =>
        refine (pipeclose_keeps _ _).last fun _ after same => ⟨held, ?_⟩
        rw [same, last, if_neg (by simp [books, File.entry, Entry.ofInode, kind])]
        exact emptied
    | inode =>
        refine (putInode_drops (s.file f).ip).last fun _ after dropped => ⟨held, ?_⟩
        rw [dropped, last, if_pos (by simp [books, File.entry, Entry.ofInode, kind]), emptied]
        rfl
    | device =>
        refine (putInode_drops (s.file f).ip).last fun _ after dropped => ⟨held, ?_⟩
        rw [dropped, last, if_pos (by simp [books, File.entry, Entry.ofInode, kind]), emptied]
        rfl

theorem fdalloc_allocates (p : Pid) (f : FileId) : Follows books (fdalloc (W := W) p f)
    fun before got after =>
      match got with
      | none => after = before
      | some fd => (before.holder p).ofile fd = none ∧ after = before.setOfile p fd (some f) := by
  intro s
  unfold fdalloc
  simp only [proc, bind_assoc, pure_bind, outcome_bind, outcome_get]
  cases free : (List.finRange NOFILE).find? fun fd => ((s.proc p).ofile fd).isNone with
  | none => rfl
  | some fd =>
      have found := List.find?_some free
      refine (setOfile_sets p fd (some f)).step fun _ after set => ⟨?_, set⟩
      exact Option.isNone_iff_eq_none.mp found

theorem argfd_finds (p : Pid) (fd : Int) : Follows books (argfd (W := W) p fd)
    fun before got after => after = before ∧
      ∀ found ∈ got, (before.holder p).ofile found.1 = some found.2 := by
  intro s
  unfold argfd
  simp only [proc, bind_assoc, pure_bind, outcome_bind, outcome_get]
  split
  · refine ⟨rfl, ?_⟩
    intro found got
    obtain ⟨f, open_, rfl⟩ := Option.map_eq_some_iff.mp got
    exact open_
  · exact ⟨rfl, fun found got => by cases got⟩

end Files

section Owing

/-- One for the named object, nothing for the others. -/
def one {α : Type} [DecidableEq α] (named : Option α) : α → Int :=
  fun a => if named = some a then 1 else 0

@[simp]
theorem one_none {α : Type} [DecidableEq α] : one (none : Option α) = 0 := rfl

def Holder.descriptors (f : FileId) (h : Holder) : Int := tally (fun fd => one fd f) h.ofile

def Holder.workdir (k : Slot) (h : Holder) : Int := one h.cwd k

def Entry.use (k : Slot) (e : Entry) : Int := if 0 < e.ref ∧ e.ofInode ∧ e.ip = k then 1 else 0

namespace Books

def fileOwed (b : Books) : FileId → Int :=
  fun f => (b.file f).ref - tally (Holder.descriptors f) b.holder

def inodeOwed (b : Books) : Slot → Int :=
  fun k => b.fs.ref k - tally (Entry.use k) b.file - tally (Holder.workdir k) b.holder

/-- An unused file has no type, on which `filealloc` relies. -/
def Tidy (b : Books) : Prop := ∀ f, (b.file f).ref = 0 → (b.file f).type = .none

/-- The counts exceed their uses by exactly these amounts. -/
structure Owes (b : Books) (files : FileId → Int) (inodes : Slot → Int) : Prop where
  files : b.fileOwed = files
  inodes : b.inodeOwed = inodes
  tidy : b.Tidy

variable {b : Books} {files : FileId → Int} {inodes : Slot → Int}

theorem fileOwed_setFile (f : FileId) (e : Entry) : (b.setFile f e).fileOwed =
    fun g => b.fileOwed g + if g = f then e.ref - (b.file f).ref else 0 := by
  funext g
  simp only [fileOwed, setFile, Function.update_apply]
  split
  · rename_i same
    subst same
    omega
  · omega

theorem inodeOwed_setFile (f : FileId) (e : Entry) : (b.setFile f e).inodeOwed =
    fun k => b.inodeOwed k + (b.file f).use k - e.use k := by
  funext k
  simp only [inodeOwed, setFile, tally_update]
  omega

theorem tidy_setFile (tidy : b.Tidy) (f : FileId) {e : Entry} (empty : e.ref = 0 → e.type = .none) :
    (b.setFile f e).Tidy := by
  intro g zero
  by_cases same : g = f
  · subst same
    rw [setFile_same] at zero ⊢
    exact empty zero
  · have other : (b.setFile f e).file g = b.file g := Function.update_of_ne same ..
    rw [other] at zero ⊢
    exact tidy g zero

theorem fileOwed_setHolder (p : Pid) (h : Holder) : (b.setHolder p h).fileOwed =
    fun f => b.fileOwed f + (b.holder p).descriptors f - h.descriptors f := by
  funext f
  simp only [fileOwed, setHolder, tally_update]
  omega

theorem inodeOwed_setHolder (p : Pid) (h : Holder) : (b.setHolder p h).inodeOwed =
    fun k => b.inodeOwed k + (b.holder p).workdir k - h.workdir k := by
  funext k
  simp only [inodeOwed, setHolder, tally_update]
  omega

/-- `filealloc`: a reference that nothing points to yet. -/
theorem Owes.alloc (owes : b.Owes files inodes) {f : FileId} (free : (b.file f).ref = 0) :
    (b.setFile f { b.file f with ref := 1 }).Owes (files + one (some f)) inodes := by
  have none := owes.tidy f free
  refine ⟨?_, ?_, tidy_setFile owes.tidy f fun zero => by cases zero⟩
  · rw [fileOwed_setFile, owes.files]
    funext g
    simp only [free, Pi.add_apply, one, Option.some.injEq, eq_comm (a := g)]
    rfl
  · rw [inodeOwed_setFile, owes.inodes]
    funext k
    simp [Entry.use, Entry.ofInode, none]

theorem Owes.dup (owes : b.Owes files inodes) {f : FileId} (held : 1 ≤ (b.file f).ref) :
    (b.setFile f { b.file f with ref := (b.file f).ref + 1 }).Owes
      (files + one (some f)) inodes := by
  refine ⟨?_, ?_, tidy_setFile owes.tidy f fun zero => ?_⟩
  · rw [fileOwed_setFile, owes.files]
    funext g
    simp only [Pi.add_apply, one, Option.some.injEq, eq_comm (a := g)]
    split <;> omega
  · rw [inodeOwed_setFile, owes.inodes]
    funext k
    have before : 0 < (b.file f).ref := held
    have after : 0 < (b.file f).ref + 1 := by omega
    simp [Entry.use, Entry.ofInode, before, after]
  · change (b.file f).ref + 1 = 0 at zero
    omega

/-- A last reference goes with the reference the file has to its inode. -/
theorem Owes.close (owes : b.Owes files inodes) {f : FileId} (held : 1 ≤ (b.file f).ref) :
    (b.close f).Owes (files - one (some f)) inodes := by
  unfold Books.close
  dsimp only
  split
  · refine ⟨?_, ?_, tidy_setFile owes.tidy f fun zero => ?_⟩
    · rw [fileOwed_setFile, owes.files]
      funext g
      simp only [Pi.sub_apply, one, Option.some.injEq, eq_comm (a := g)]
      split <;> omega
    · rw [inodeOwed_setFile, owes.inodes]
      funext k
      have before : 0 < (b.file f).ref := held
      have after : 1 < (b.file f).ref := by omega
      simp [Entry.use, Entry.ofInode, before, after]
    · change (b.file f).ref - 1 = 0 at zero
      omega
  · have last : (b.file f).ref = 1 := by omega
    have emptied : (b.setFile f { b.file f with ref := 0, type := .none }).fileOwed =
        files - one (some f) := by
      rw [fileOwed_setFile, owes.files]
      funext g
      simp only [Pi.sub_apply, one, Option.some.injEq, eq_comm (a := g), last]
      split <;> omega
    have tidy := tidy_setFile owes.tidy f (e := { b.file f with ref := 0, type := .none })
      fun _ => rfl
    have inodes' : (b.setFile f { b.file f with ref := 0, type := .none }).inodeOwed =
        fun k => inodes k + (b.file f).use k := by
      rw [inodeOwed_setFile, owes.inodes]
      funext k
      simp [Entry.use]
    split
    · rename_i used
      refine ⟨emptied, ?_, tidy⟩
      funext k
      have owed := congrFun inodes' k
      simp only [inodeOwed, setFile_fs, Entry.use, used, last, Skeleton.drop,
        Function.update_apply] at owed ⊢
      by_cases same : k = (b.file f).ip
      · subst same
        simp at owed ⊢
        omega
      · have other : (b.file f).ip ≠ k := fun eq => same eq.symm
        simp [same, other] at owed ⊢
        exact owed
    · rename_i unused
      refine ⟨emptied, inodes'.trans ?_, tidy⟩
      funext k
      simp [Entry.use, unused]

theorem Owes.setOfile (owes : b.Owes files inodes) (p : Pid) (fd : Fin NOFILE)
    (f : Option FileId) : (b.setOfile p fd f).Owes
      (files + one ((b.holder p).ofile fd) - one f) inodes := by
  refine ⟨?_, ?_, owes.tidy⟩
  · rw [Books.setOfile, fileOwed_setHolder, owes.files]
    funext g
    simp only [Holder.descriptors, tally_update, Pi.add_apply, Pi.sub_apply]
    omega
  · rw [Books.setOfile, inodeOwed_setHolder, owes.inodes]
    funext k
    simp [Holder.workdir]

theorem Owes.setCwd (owes : b.Owes files inodes) (p : Pid) (ip : Option Slot) :
    (b.setCwd p ip).Owes files (inodes + one (b.holder p).cwd - one ip) := by
  refine ⟨?_, ?_, owes.tidy⟩
  · rw [Books.setCwd, fileOwed_setHolder, owes.files]
    funext g
    simp [Holder.descriptors]
  · rw [Books.setCwd, inodeOwed_setHolder, owes.inodes]
    funext k
    simp [Holder.workdir]

theorem Owes.setState (owes : b.Owes files inodes) (p : Pid) (state : ProcState) :
    (b.setState p state).Owes files inodes := by
  refine ⟨?_, ?_, owes.tidy⟩
  · rw [Books.setState, fileOwed_setHolder, owes.files]
    funext g
    simp [Holder.descriptors]
  · rw [Books.setState, inodeOwed_setHolder, owes.inodes]
    funext k
    simp [Holder.workdir]

/-- Only the counts of the skeleton are owed. -/
theorem Owes.setFs (owes : b.Owes files inodes) (sk : Skeleton) :
    { b with fs := sk }.Owes files (inodes + (sk.ref - b.fs.ref)) := by
  refine ⟨owes.files, ?_, owes.tidy⟩
  funext k
  have owed := congrFun owes.inodes k
  simp only [inodeOwed, Pi.add_apply, Pi.sub_apply] at owed ⊢
  omega

end Books

end Owing

section Settling

/-- The state is one of a process that can make calls. -/
def Holder.alive (h : Holder) : Bool :=
  match h.state with
  | .sleeping | .runnable | .running => true
  | .unused | .used | .zombie => false

@[simp]
theorem Books.setOfile_alive (b : Books) (p q : Pid) (fd : Fin NOFILE) (f : Option FileId) :
    ((b.setOfile p fd f).holder q).alive = (b.holder q).alive := by
  by_cases same : q = p
  · subst same
    simp [Books.setOfile, Holder.alive]
  · rw [Books.setOfile, Books.setHolder_other _ _ same]

@[simp]
theorem Books.setCwd_alive (b : Books) (p q : Pid) (ip : Option Slot) :
    ((b.setCwd p ip).holder q).alive = (b.holder q).alive := by
  by_cases same : q = p
  · subst same
    simp [Books.setCwd, Holder.alive]
  · rw [Books.setCwd, Books.setHolder_other _ _ same]

/-- The books between two calls. -/
structure Settled (b : Books) : Prop where
  owes : b.Owes 0 0
  unlocked : ∀ k, b.fs.locked k = false
  idle : b.fs.outstanding = 0
  dormant : ∀ p, (b.holder p).alive = false →
    (∀ fd, (b.holder p).ofile fd = none) ∧ (b.holder p).cwd = none

/-- A call by `p` that owes nothing at its end and gave every lock back. -/
theorem Settled.after {b b' : Books} (settled : Settled b) (p : Pid) (owes : b'.Owes 0 0)
    (locked : b'.fs.locked = b.fs.locked) (outstanding : b'.fs.outstanding = b.fs.outstanding)
    (alive : (b'.holder p).alive = true) (others : ∀ q, q ≠ p → b'.holder q = b.holder q) :
    Settled b' := by
  refine ⟨owes, ?_, outstanding.trans settled.idle, ?_⟩
  · intro k
    rw [locked]
    exact settled.unlocked k
  · intro q dead
    have other : q ≠ p := by
      rintro rfl
      rw [alive] at dead
      cases dead
    rw [others q other] at dead ⊢
    exact settled.dormant q dead

/-- What every call has to do. -/
def Settles {α : Type} (p : Pid) (run : KernelM W α) : Prop :=
  Follows books run fun before _ after =>
    Settled before → (before.holder p).alive = true → Settled after

theorem Settles.intro {α : Type} {p : Pid} {run : KernelM W α}
    (settles : ∀ s, Settled (books s) → ((books s).holder p).alive = true →
      outcome run (fun _ after => Settled (books after)) (fun _ _ => True) s) :
    Settles p run := by
  intro s
  by_cases ready : Settled (books s) ∧ ((books s).holder p).alive = true
  · exact outcome_post (settles s ready.1 ready.2) fun _ _ settled _ _ => settled
  · refine outcome_mono (follows_true run s) ?_ fun _ _ _ => trivial
    intro _ _ _ settled alive
    exact absurd ⟨settled, alive⟩ ready

theorem Settles.of_keeps {α : Type} (p : Pid) {run : KernelM W α} (keeps : Keeps books run) :
    Settles p run := by
  refine keeps.mono ?_
  rintro before _ after rfl settled _
  exact settled

@[simp]
theorem Books.close_holder (b : Books) (f : FileId) : (b.close f).holder = b.holder := by
  unfold Books.close
  dsimp only
  split
  · rfl
  · split <;> rfl

@[simp]
theorem Books.close_locked (b : Books) (f : FileId) : (b.close f).fs.locked = b.fs.locked := by
  unfold Books.close
  dsimp only
  split
  · rfl
  · split <;> rfl

@[simp]
theorem Books.close_outstanding (b : Books) (f : FileId) :
    (b.close f).fs.outstanding = b.fs.outstanding := by
  unfold Books.close
  dsimp only
  split
  · rfl
  · split <;> rfl

theorem sysDup_settles (p : Pid) (fd : Int) : Settles p (sysDup (W := W) p fd) := by
  intro s
  refine (argfd_finds p fd).step fun got s1 found => ?_
  cases got with
  | none =>
      intro settled _
      rwa [found.1]
  | some there =>
      obtain ⟨fd, f⟩ := there
      refine (fdalloc_allocates p f).step fun got s2 allocated => ?_
      rw [found.1] at allocated
      cases got with
      | none =>
          intro settled _
          change books s2 = books s at allocated
          rwa [allocated]
      | some fd =>
          obtain ⟨empty, pointed⟩ := allocated
          refine (filedup_counts f).step fun _ s3 duplicated => ?_
          intro settled alive
          have owes := (settled.owes.setOfile p fd (some f)).dup (pointed ▸ duplicated.1)
          rw [empty] at owes
          change Settled (books s3)
          rw [duplicated.2, pointed]
          refine settled.after p (by simpa using owes) rfl rfl ?_ ?_
          · simpa using alive
          · intro q other
            exact Books.setHolder_other _ _ other

theorem sysClose_settles (p : Pid) (fd : Int) : Settles p (sysClose (W := W) p fd) := by
  intro s
  refine (argfd_finds p fd).step fun got s1 found => ?_
  cases got with
  | none =>
      intro settled _
      rwa [found.1]
  | some there =>
      obtain ⟨fd, f⟩ := there
      have pointed : ((books s).holder p).ofile fd = some f := found.2 (fd, f) rfl
      refine (setOfile_sets p fd none).step fun _ s2 cleared => ?_
      rw [found.1] at cleared
      refine (fileclose_closes f).step fun _ s3 closed => ?_
      rw [cleared] at closed
      intro settled alive
      have owes := (settled.owes.setOfile p fd none).close closed.1
      rw [pointed] at owes
      change Settled (books s3)
      rw [closed.2]
      refine settled.after p (by simpa using owes) (by simp [Books.setOfile])
        (by simp [Books.setOfile]) ?_ ?_
      · simpa using alive
      · intro q other
        rw [Books.close_holder]
        exact Books.setHolder_other _ _ other

theorem cwd_finds (p : Pid) : Follows books (cwd (W := W) p) fun before ip after =>
    after = before ∧ (before.holder p).cwd = some ip := by
  intro s
  unfold cwd
  simp only [proc, bind_assoc, pure_bind, outcome_bind, outcome_get]
  cases there : (s.proc p).cwd with
  | none => trivial
  | some ip => exact ⟨rfl, there⟩

theorem cwd_keeps (p : Pid) : Keeps books (cwd (W := W) p) :=
  (cwd_finds p).mono fun _ _ _ found => found.1

theorem sysLink_settles (p : Pid) (old new : Option Path) :
    Settles p (sysLink (W := W) p old new) := by
  refine Settles.of_keeps p (keeps_bind (cwd_keeps p) fun ip => ?_)
  exact keeps_bind (fs_keeps (Fs.sysLink_keeps ip old new)) fun _ => keeps_pure _

theorem sysUnlink_settles (p : Pid) (path : Option Path) :
    Settles p (sysUnlink (W := W) p path) := by
  refine Settles.of_keeps p (keeps_bind (cwd_keeps p) fun ip => ?_)
  exact keeps_bind (fs_keeps (Fs.sysUnlink_keeps ip path)) fun _ => keeps_pure _

theorem sysMkdir_settles (p : Pid) (path : Option Path) :
    Settles p (sysMkdir (W := W) p path) := by
  refine Settles.of_keeps p (keeps_bind (cwd_keeps p) fun ip => ?_)
  exact keeps_bind (fs_keeps (Fs.sysMake_keeps ip path T_DIR 0 0)) fun _ => keeps_pure _

theorem sysMknod_settles (p : Pid) (path : Option Path) (major minor : Int16) :
    Settles p (sysMknod (W := W) p path major minor) := by
  refine Settles.of_keeps p (keeps_bind (cwd_keeps p) fun ip => ?_)
  exact keeps_bind (fs_keeps (Fs.sysMake_keeps ip path T_DEVICE major minor)) fun _ => keeps_pure _

@[simp]
theorem take_ref (sk : Skeleton) (k j : Slot) : (sk.take k).ref j = sk.ref j + one (some k) j := by
  simp only [Skeleton.take, Function.update_apply, one, Option.some.injEq]
  by_cases same : j = k
  · simp [same]
  · simp [same, Ne.symm same]

@[simp]
theorem drop_ref (sk : Skeleton) (k j : Slot) : (sk.drop k).ref j = sk.ref j - one (some k) j := by
  simp only [Skeleton.drop, Function.update_apply, one, Option.some.injEq]
  by_cases same : j = k
  · simp [same]
  · simp [same, Ne.symm same]

theorem sysChdir_settles (p : Pid) (path : Option Path) :
    Settles p (sysChdir (W := W) p path) := by
  intro s
  refine (cwd_finds p).step fun old s1 found => ?_
  refine (fs_follows (Fs.sysChdir_moves old path)).step fun got s2 moved => ?_
  rw [found.1] at moved
  cases got with
  | none =>
      intro settled _
      rw [moved.2, moved.1]
      exact settled
  | some ip =>
      change Settled (books s) → _ → Settled (books _)
      intro settled alive
      have owes := settled.owes.setFs (((books s).fs.take ip).drop old)
      rw [books_setProc]
      change Settled ((books s2).setCwd p (some ip))
      rw [moved.2, moved.1]
      refine settled.after p ?_ rfl rfl (by simpa using alive) ?_
      · have shifted := owes.setCwd p (some ip)
        have balanced : (0 : Slot → Int) + ((((books s).fs.take ip).drop old).ref -
            (books s).fs.ref) + one ((books s).holder p).cwd - one (some ip) = 0 := by
          funext k
          simp only [found.2, Pi.add_apply, Pi.sub_apply, Pi.zero_apply, take_ref, drop_ref]
          omega
        exact balanced ▸ shifted
      · intro q other
        exact Books.setHolder_other _ _ other

/-- What `openInode` leaves: nothing held on failure, the inode held and locked else. -/
theorem openInode_opens (p : Pid) (path : Path) (omode : Nat) :
    Follows books (openInode (W := W) p path omode) fun before got after =>
      Fs.Created before.fs got after.fs ∧ after = { before with fs := after.fs } := by
  unfold openInode
  refine follows_ite ?_ ?_
  · exact (cwd_keeps p).before fun ip => fs_follows (Fs.create_creates ip path T_FILE 0 0)
  · refine (cwd_keeps p).before fun ip => ?_
    intro s
    refine (fs_follows (Fs.namei_takes ip path)).step fun got s1 taken => ?_
    cases got with
    | none => exact taken
    | some ip =>
        refine (fs_follows (Fs.ilock_locks ip)).step fun _ s2 locked => ?_
        obtain ⟨⟨free, held⟩, framed⟩ := locked
        rw [taken.1] at free held
        rw [taken.2] at framed
        refine (fs_keeps (Fs.inode_keeps ip)).step fun node s3 same => ?_
        split
        · refine (fs_follows (Fs.iunlockput_drops ip)).step fun _ s4 dropped => ?_
          obtain ⟨⟨_, released⟩, framed'⟩ := dropped
          rw [same, held] at released
          rw [same, framed] at framed'
          exact ⟨released.trans (Skeleton.release_hold _ _ free), framed'⟩
        · change Fs.Created _ _ (books s3).fs ∧ books s3 = _
          rw [same]
          exact ⟨⟨free, held⟩, framed⟩

/-- An inode and the operation given back. -/
theorem release_then {ip : Slot} {α : Type} {rest : KernelM W α} {post : α → State W → Prop}
    {b : Books} {s : State W} (held : books s = { b with fs := b.fs.opened.hold ip })
    (free : b.fs.locked ip = false)
    (next : ∀ s', books s' = b → outcome rest post (fun _ _ => True) s') :
    outcome (do
        fs (Fs.iunlockput ip)
        fs Fs.endOp
        rest) post (fun _ _ => True) s := by
  refine (fs_follows (Fs.iunlockput_drops ip)).step fun _ s1 dropped => ?_
  obtain ⟨⟨_, released⟩, framed⟩ := dropped
  rw [held] at released framed
  have gone : (books s1).fs = b.fs.opened :=
    released.trans (Skeleton.release_hold b.fs.opened ip free)
  refine endOp_closes.step fun _ s2 closed => next s2 ?_
  rw [closed, framed, gone, Skeleton.closed_opened]

/-- The file of an inode takes over the reference `sys_open` holds. -/
theorem Books.Owes.attach {b : Books} {files : FileId → Int} {inodes : Slot → Int}
    (owes : b.Owes files inodes) {f : FileId} (fresh : (b.file f).type = .none)
    (held : (b.file f).ref = 1) {e : Entry} (ref : e.ref = 1) (kind : e.ofInode = true) :
    (b.setFile f e).Owes files (inodes - one (some e.ip)) := by
  refine ⟨?_, ?_, tidy_setFile owes.tidy f fun zero => ?_⟩
  · rw [fileOwed_setFile, owes.files]
    funext g
    simp [held, ref]
  · rw [inodeOwed_setFile, owes.inodes]
    funext k
    simp only [Entry.use, Entry.ofInode, fresh, held, ref, Pi.sub_apply, one, Option.some.injEq]
    unfold Entry.ofInode at kind
    simp [kind]
  · rw [ref] at zero
    cases zero

/-- A file that was allocated and closed again is as it was. -/
theorem Books.close_fresh {b : Books} (tidy : b.Tidy) {f : FileId} (free : (b.file f).ref = 0) :
    (b.setFile f { b.file f with ref := 1 }).close f = b := by
  have none := tidy f free
  have back : { b.file f with ref := 0, type := .none } = b.file f := by
    ext
    · exact none.symm
    · exact free.symm
    · rfl
  unfold Books.close
  simp only [setFile_same, Entry.ofInode, none]
  simp only [Books.setFile, Function.update_idem]
  conv_rhs => rw [← setFile_self b f]
  rw [← back]
  rfl

/-- The books of a successful `sys_open`. -/
theorem Settled.opened {b : Books} (settled : Settled b) {p : Pid}
    (alive : (b.holder p).alive = true) {f : FileId} (unused : (b.file f).ref = 0)
    {fd : Fin NOFILE} (empty : (b.holder p).ofile fd = none) {e : Entry} (ref : e.ref = 1)
    (kind : e.ofInode = true) :
    Settled ((({ b with fs := b.fs.take e.ip }.setFile f { b.file f with ref := 1 }).setOfile
      p fd (some f)).setFile f e) := by
  have taken := (settled.owes.setFs (b.fs.take e.ip)).alloc unused
  have pointed := (taken.setOfile p fd (some f)).attach (f := f) (e := e)
    (by simpa [Books.setOfile] using settled.owes.tidy f unused) (by simp [Books.setOfile]) ref kind
  refine settled.after p ?_ rfl rfl (by simpa using alive) ?_
  · have files : (0 : FileId → Int) + one (some f) + one ((b.holder p).ofile fd) -
        one (some f) = 0 := by
      rw [empty]
      simp
    have inodes : (0 : Slot → Int) + ((b.fs.take e.ip).ref - b.fs.ref) - one (some e.ip) = 0 := by
      funext k
      simp
    have owes := pointed
    rw [inodes] at owes
    exact files ▸ owes
  · intro q other
    exact Books.setHolder_other _ _ other

/-- `sys_open` once the file is attached to its inode. -/
theorem openEnd_settles {b : Books} (settled : Settled b) {p : Pid}
    (alive : (b.holder p).alive = true) {f : FileId} (unused : (b.file f).ref = 0)
    {fd : Fin NOFILE} (empty : (b.holder p).ofile fd = none) {e : Entry} (ref : e.ref = 1)
    (kind : e.ofInode = true) (free : b.fs.locked e.ip = false) (truncates : Prop)
    [Decidable truncates] {s : State W}
    (attached : books s = ((({ b with fs := b.fs.opened.hold e.ip }.setFile f
      { b.file f with ref := 1 }).setOfile p fd (some f)).setFile f e)) :
    outcome (do
        if truncates then fs (Fs.itrunc e.ip)
        fs (Fs.iunlock e.ip)
        fs Fs.endOp
        return (fd.val : Int))
      (fun _ after => Settled (books after)) (fun _ _ => True) s := by
  have unlock : ∀ s' : State W, books s' = books s →
      outcome (do
          fs (Fs.iunlock e.ip)
          fs Fs.endOp
          return (fd.val : Int))
        (fun _ after => Settled (books after)) (fun _ _ => True) s' := by
    intro s' same
    refine (fs_follows (Fs.iunlock_unlocks e.ip)).step fun _ s1 unlocked => ?_
    refine endOp_closes.step fun _ s2 closed => ?_
    have taken : (((b.fs.opened.hold e.ip).unlock e.ip)).closed = b.fs.take e.ip := by
      rw [Skeleton.hold, Skeleton.unlock_lock (b.fs.opened.take e.ip) e.ip free]
      exact Skeleton.closed_opened (b.fs.take e.ip)
    have final := settled.opened alive unused empty ref kind
    rw [← taken] at final
    change Settled (books s2)
    rw [closed, unlocked.2, unlocked.1.2, same, attached]
    exact final
  split
  · refine (fs_keeps (Fs.itrunc_keeps e.ip)).step fun _ s1 same => ?_
    exact unlock s1 same
  · exact unlock s rfl

theorem sysOpen_settles (p : Pid) (path : Option Path) (omode : Nat) :
    Settles p (sysOpen (W := W) p path omode) := by
  refine Settles.intro fun s settled alive => ?_
  unfold sysOpen
  cases path with
  | none => exact settled
  | some path =>
      refine beginOp_opens.step fun _ s1 opened => ?_
      refine (openInode_opens p path omode).step fun got s2 there => ?_
      rw [opened] at there
      cases got with
      | none =>
          refine endOp_closes.step fun _ s3 closed => ?_
          change Settled (books s3)
          have same : (books s2).fs = (books s).fs.opened := there.1
          rw [closed, there.2, same, Skeleton.closed_opened]
          exact settled
      | some ip =>
          obtain ⟨⟨free, held⟩, framed⟩ := there
          change (books s).fs.locked ip = false at free
          rw [held] at framed
          refine (fs_keeps (Fs.inode_keeps ip)).step fun node s3 same => ?_
          rw [framed] at same
          have giveUp : ∀ s' : State W,
              books s' = { books s with fs := (books s).fs.opened.hold ip } →
              outcome (openBad ip) (fun _ after => Settled (books after)) (fun _ _ => True) s' := by
            intro s' held'
            refine release_then held' free fun after same => ?_
            change Settled (books after)
            rw [same]
            exact settled
          dsimp only
          split
          · exact giveUp s3 same
          refine filealloc_allocates.step fun got s4 allocated => ?_
          rw [same] at allocated
          cases got with
          | none => exact giveUp s4 allocated
          | some f =>
              obtain ⟨unused, fresh⟩ := allocated
              refine (fdalloc_allocates p f).step fun got s5 pointed => ?_
              cases got with
              | none =>
                  refine (fileclose_closes f).step fun _ s6 closed => giveUp s6 ?_
                  change books s5 = books s4 at pointed
                  rw [closed.2, pointed, fresh]
                  exact Books.close_fresh (b := { books s with fs := (books s).fs.opened.hold ip })
                    settled.owes.tidy unused
              | some fd =>
                  obtain ⟨empty, pointed⟩ := pointed
                  rw [fresh] at empty pointed
                  have one_ref : (s5.file f).ref = 1 := by
                    have seen := congrArg (fun b => (b.file f).ref) pointed
                    simpa [Books.setOfile, books, File.entry] using seen
                  have attach : ∀ (s6 : State W) (e : Entry), e.ref = 1 → e.ofInode = true →
                      e.ip = ip → books s6 = (books s5).setFile f e →
                      outcome (do
                          if hasFlag omode O_TRUNC ∧ node.type = T_FILE then fs (Fs.itrunc ip)
                          fs (Fs.iunlock ip)
                          fs Fs.endOp
                          return (fd.val : Int))
                        (fun _ after => Settled (books after)) (fun _ _ => True) s6 := by
                    rintro s6 e ref kind rfl attached
                    rw [pointed] at attached
                    exact openEnd_settles settled alive unused empty ref kind free _ attached
                  refine (outcome_ite _ _ _ _ _ _).mpr ⟨fun _ => ?_, fun _ => ?_⟩
                  · simp only [modifyFile, outcome_bind, outcome_modify, Function.update_self,
                      Function.update_idem]
                    refine attach _ { type := .device, ref := 1, ip } rfl rfl rfl ?_
                    exact (books_setFile s5 f _).trans (by simp [File.entry, one_ref])
                  · simp only [modifyFile, outcome_bind, outcome_modify, Function.update_self,
                      Function.update_idem]
                    refine attach _ { type := .inode, ref := 1, ip } rfl rfl rfl ?_
                    exact (books_setFile s5 f _).trans (by simp [File.entry, one_ref])

/-- Inside a call of `p` that started from the books `b`: the descriptors of `p` so
far, and the open files that are owed. -/
structure Midway (b : Books) (p : Pid) (ofile : Fin NOFILE → Option FileId)
    (files : FileId → Int) (now : Books) : Prop where
  owes : now.Owes files 0
  locked : now.fs.locked = b.fs.locked
  outstanding : now.fs.outstanding = b.fs.outstanding
  holder : now.holder = Function.update b.holder p { b.holder p with ofile }

namespace Midway

variable {b now : Books} {p : Pid} {ofile : Fin NOFILE → Option FileId} {files : FileId → Int}

theorem start (settled : Settled b) (p : Pid) : Midway b p (b.holder p).ofile 0 b where
  owes := settled.owes
  locked := rfl
  outstanding := rfl
  holder := (Function.update_eq_self p b.holder).symm

theorem settled (mid : Midway b p ofile 0 now) (settled : Settled b)
    (alive : (b.holder p).alive = true) : Settled now := by
  refine settled.after p mid.owes mid.locked mid.outstanding ?_ ?_
  · rw [mid.holder, Function.update_self]
    exact alive
  · intro q other
    rw [mid.holder, Function.update_of_ne other]

theorem ofile_eq (mid : Midway b p ofile files now) : (now.holder p).ofile = ofile := by
  rw [mid.holder, Function.update_self]

theorem alloc (mid : Midway b p ofile files now) {f : FileId} (free : (now.file f).ref = 0) :
    Midway b p ofile (files + one (some f)) (now.setFile f { now.file f with ref := 1 }) :=
  { mid with owes := mid.owes.alloc free }

theorem close (mid : Midway b p ofile files now) {f : FileId} (held : 1 ≤ (now.file f).ref) :
    Midway b p ofile (files - one (some f)) (now.close f) where
  owes := mid.owes.close held
  locked := (now.close_locked f).trans mid.locked
  outstanding := (now.close_outstanding f).trans mid.outstanding
  holder := (now.close_holder f).trans mid.holder

theorem setOfile (mid : Midway b p ofile files now) (fd : Fin NOFILE) (f : Option FileId) :
    Midway b p (Function.update ofile fd f) (files + one (ofile fd) - one f)
      (now.setOfile p fd f) where
  owes := by
    have owes := mid.owes.setOfile p fd f
    rwa [mid.ofile_eq] at owes
  locked := mid.locked
  outstanding := mid.outstanding
  holder := by
    rw [Books.setOfile, Books.setHolder]
    simp only [mid.holder, Function.update_self, Function.update_idem]

/-- A file without type becomes an end of a pipe. -/
theorem piped (mid : Midway b p ofile files now) {f : FileId} (fresh : (now.file f).type = .none)
    (held : (now.file f).ref = 1) {e : Entry} (pipe : e.type = .pipe) (ref : e.ref = 1) :
    Midway b p ofile files (now.setFile f e) := by
  refine { mid with owes := ⟨?_, ?_, Books.tidy_setFile mid.owes.tidy f fun zero => ?_⟩ }
  · rw [Books.fileOwed_setFile, mid.owes.files]
    funext g
    simp [held, ref]
  · rw [Books.inodeOwed_setFile, mid.owes.inodes]
    funext k
    simp [Entry.use, Entry.ofInode, fresh, pipe]
  · rw [ref] at zero
    cases zero

end Midway

theorem pipeallocBad_settles {b : Books} {p : Pid} {ofile : Fin NOFILE → Option FileId}
    (f0 f1 : Option FileId) {s : State W} (mid : Midway b p ofile (one f0 + one f1) (books s)) :
    outcome (pipeallocBad f0 f1)
      (fun got after => got = none ∧ Midway b p ofile 0 (books after)) (fun _ _ => True) s := by
  have second : ∀ s' : State W, Midway b p ofile (one f1) (books s') →
      outcome (pipeallocBad none f1)
        (fun got after => got = none ∧ Midway b p ofile 0 (books after)) (fun _ _ => True) s' := by
    intro s' mid'
    cases f1 with
    | none => exact ⟨rfl, mid'⟩
    | some f =>
        refine (fileclose_closes f).step fun _ s'' closed => ⟨rfl, ?_⟩
        have mid'' := mid'.close closed.1
        rw [← closed.2, sub_self] at mid''
        exact mid''
  cases f0 with
  | none =>
      refine second s ?_
      rwa [one_none, zero_add] at mid
  | some f =>
      change outcome (fileclose f >>= fun _ => pipeallocBad none f1) _ _ _
      refine (fileclose_closes f).step fun _ s1 closed => second s1 ?_
      have mid1 := mid.close closed.1
      rwa [← closed.2, add_sub_cancel_left] at mid1

theorem pipealloc_allocates {b : Books} (p : Pid) {ofile : Fin NOFILE → Option FileId}
    {s : State W} (mid : Midway b p ofile 0 (books s)) :
    outcome pipealloc (fun got after => Midway b p ofile
        (one (got.map Prod.fst) + one (got.map Prod.snd)) (books after)) (fun _ _ => True) s := by
  have fail : ∀ (f0 f1 : Option FileId) (s' : State W),
      Midway b p ofile (one f0 + one f1) (books s') →
      outcome (pipeallocBad f0 f1) (fun got after => Midway b p ofile
        (one (got.map Prod.fst) + one (got.map Prod.snd)) (books after)) (fun _ _ => True) s' := by
    intro f0 f1 s' mid'
    refine outcome_post (pipeallocBad_settles f0 f1 mid') ?_
    rintro got after ⟨rfl, done⟩
    exact done
  unfold pipealloc
  refine filealloc_allocates.step fun got s1 first => ?_
  cases got with
  | none =>
      refine fail none none s1 ?_
      rwa [first]
  | some f0 =>
      obtain ⟨free0, first⟩ := first
      have mid1 := mid.alloc free0
      rw [← first, zero_add] at mid1
      refine filealloc_allocates.step fun got s2 second => ?_
      cases got with
      | none =>
          refine fail (some f0) none s2 ?_
          change books s2 = books s1 at second
          rwa [second, one_none, add_zero]
      | some f1 =>
          obtain ⟨free1, second⟩ := second
          have mid2 := mid1.alloc free1
          rw [← second] at mid2
          have apart : f1 ≠ f0 := by
            rintro rfl
            rw [first, Books.setFile_same] at free1
            cases free1
          refine (vm_keeps Vm.kalloc).step fun got s3 same => ?_
          rw [← same] at mid2
          cases got with
          | none => exact fail (some f0) (some f1) s3 mid2
          | some page =>
              refine (modifyPipe_keeps page _).step fun _ s4 same4 => ?_
              have at0 : (books s4).file f0 = { (books s).file f0 with ref := 1 } := by
                rw [same4, same, second, Books.setFile]
                simp only [Function.update_of_ne apart.symm]
                rw [first, Books.setFile_same]
              have at1 : (books s4).file f1 = { (books s).file f1 with ref := 1 } := by
                rw [same4, same, second, Books.setFile_same, first, Books.setFile]
                simp only [Function.update_of_ne apart]
              have free1' : ((books s).file f1).ref = 0 := by
                rw [first, Books.setFile] at free1
                simpa only [Function.update_of_ne apart] using free1
              rw [← same4] at mid2
              refine (modifyFile_sets f0 (fun e => { e with type := .pipe }) fun _ => rfl).step ?_
              intro _ s5 piped0
              refine (modifyFile_sets f1 (fun e => { e with type := .pipe }) fun _ => rfl).step ?_
              intro _ s6 piped1
              have mid5 := mid2.piped (f := f0) (e := { (books s4).file f0 with type := .pipe })
                (by rw [at0]; exact mid.owes.tidy f0 free0) (by rw [at0]) rfl (by rw [at0])
              rw [← piped0] at mid5
              have at1' : (books s5).file f1 = { (books s).file f1 with ref := 1 } := by
                rw [piped0, Books.setFile]
                simp only [Function.update_of_ne apart]
                exact at1
              have mid6 := mid5.piped (f := f1) (e := { (books s5).file f1 with type := .pipe })
                (by rw [at1']; exact mid.owes.tidy f1 free1') (by rw [at1']) rfl (by rw [at1'])
              rw [← piped1] at mid6
              exact mid6

theorem fdalloc_midway {b : Books} {p : Pid} {ofile : Fin NOFILE → Option FileId}
    {files : FileId → Int} (f : FileId) {α : Type} {next : Option (Fin NOFILE) → KernelM W α}
    {post : α → State W → Prop} {s : State W} (mid : Midway b p ofile files (books s))
    (full : ∀ s', Midway b p ofile files (books s') →
      outcome (next none) post (fun _ _ => True) s')
    (found : ∀ fd s', ofile fd = none →
      Midway b p (Function.update ofile fd (some f)) (files - one (some f)) (books s') →
      outcome (next (some fd)) post (fun _ _ => True) s') :
    outcome (fdalloc p f >>= next) post (fun _ _ => True) s := by
  refine (fdalloc_allocates p f).step fun got s' allocated => ?_
  cases got with
  | none =>
      refine full s' ?_
      rwa [allocated]
  | some fd =>
      obtain ⟨empty, pointed⟩ := allocated
      rw [mid.ofile_eq] at empty
      have mid' := mid.setOfile fd (some f)
      rw [empty, one_none, add_zero, ← pointed] at mid'
      exact found fd s' empty mid'

theorem fileclose_midway {b : Books} {p : Pid} {ofile : Fin NOFILE → Option FileId}
    {files : FileId → Int} (f : FileId) {α : Type} {next : KernelM W α}
    {post : α → State W → Prop} {s : State W} (mid : Midway b p ofile files (books s))
    (rest : ∀ s', Midway b p ofile (files - one (some f)) (books s') →
      outcome next post (fun _ _ => True) s') :
    outcome (fileclose f >>= fun _ => next) post (fun _ _ => True) s := by
  refine (fileclose_closes f).step fun _ s' closed => rest s' ?_
  rw [closed.2]
  exact mid.close closed.1

theorem setOfile_midway {b : Books} {p : Pid} {ofile : Fin NOFILE → Option FileId}
    {files : FileId → Int} (fd : Fin NOFILE) (f : Option FileId) {α : Type} {next : KernelM W α}
    {post : α → State W → Prop} {s : State W} (mid : Midway b p ofile files (books s))
    (rest : ∀ s', Midway b p (Function.update ofile fd f) (files + one (ofile fd) - one f)
      (books s') → outcome next post (fun _ _ => True) s') :
    outcome (setOfile p fd f >>= fun _ => next) post (fun _ _ => True) s := by
  refine (setOfile_sets p fd f).step fun _ s' set => rest s' ?_
  rw [set]
  exact mid.setOfile fd f

theorem sysPipe_settles (p : Pid) (fdarray : Nat) : Settles p (sysPipe (W := W) p fdarray) := by
  refine Settles.intro fun s settled alive => ?_
  unfold sysPipe
  rw [outcome_bind]
  refine outcome_post (pipealloc_allocates p (Midway.start settled p)) fun got s1 mid1 => ?_
  cases got with
  | none =>
      simp only [Option.map_none, one_none, add_zero] at mid1
      exact mid1.settled settled alive
  | some files =>
      obtain ⟨rf, wf⟩ := files
      change Midway _ p _ (one (some rf) + one (some wf)) (books s1) at mid1
      have giveUp : ∀ {ofile : Fin NOFILE → Option FileId} (s' : State W),
          Midway (books s) p ofile (one (some rf) + one (some wf)) (books s') →
          outcome (do
              fileclose rf
              fileclose wf
              return (-1 : Int))
            (fun _ after => Settled (books after)) (fun _ _ => True) s' := by
        intro ofile s' mid'
        refine fileclose_midway rf mid' fun s'' mid'' => ?_
        refine fileclose_midway wf mid'' fun s3 mid3 => ?_
        rw [add_sub_cancel_left, sub_self] at mid3
        exact mid3.settled settled alive
      refine fdalloc_midway rf mid1 (fun s2 mid2 => giveUp s2 mid2) fun fd0 s2 empty0 mid2 => ?_
      rw [add_sub_cancel_left] at mid2
      refine fdalloc_midway wf mid2 (fun s3 mid3 => ?_) fun fd1 s3 empty1 mid3 => ?_
      · refine setOfile_midway fd0 none mid3 fun s4 mid4 => ?_
        rw [Function.update_self, one_none, sub_zero, add_comm] at mid4
        exact giveUp s4 mid4
      have apart : fd0 ≠ fd1 := by
        rintro rfl
        rw [Function.update_self] at empty1
        cases empty1
      rw [sub_self] at mid3
      have undo : ∀ s' : State W, books s' = books s3 →
          outcome (do
              setOfile p fd0 none
              setOfile p fd1 none
              fileclose rf
              fileclose wf
              return (-1 : Int))
            (fun _ after => Settled (books after)) (fun _ _ => True) s' := by
        intro s' same
        rw [← same] at mid3
        refine setOfile_midway fd0 none mid3 fun s4 mid4 => ?_
        refine setOfile_midway fd1 none mid4 fun s5 mid5 => ?_
        simp only [Function.update_self, Function.update_of_ne apart,
          Function.update_of_ne apart.symm, one_none, zero_add, sub_zero] at mid5
        exact giveUp s5 mid5
      refine (proc_keeps p).step fun caller s4 same4 => ?_
      refine (vm_keeps _).step fun first s5 same5 => ?_
      have same : books s5 = books s3 := same5.trans same4
      split
      · refine (vm_keeps _).step fun second s6 same6 => ?_
        refine (outcome_ite _ _ _ _ _ _).mpr ⟨fun _ => ?_, fun _ => undo s6 (same6.trans same)⟩
        change Settled (books s6)
        rw [same6, same]
        exact mid3.settled settled alive
      · exact undo s5 same

theorem piperead_keeps (p : Pid) (page addr : Nat) (n : Int) :
    Keeps books (piperead (W := W) p page addr n) :=
  piperead_quiet books_quiet p page addr n

theorem pipewriteFrom_keeps (p : Pid) (page addr count i : Nat) :
    Keeps books (pipewriteFrom (W := W) p page addr count i) :=
  pipewriteFrom_quiet books_quiet p page addr count i

/-- What runs between `ilock` and `iunlock` of one inode, and on. -/
theorem ilock_then (ip : Slot) {α : Type} {rest : KernelM W α} {t : Skeleton → Skeleton}
    (unlocks : Follows books rest fun before _ after =>
      after = { before with fs := t (before.fs.unlock ip) }) :
    Follows books (do
        fs (Fs.ilock ip)
        rest) fun before _ after => after = { before with fs := t before.fs } := by
  intro s
  refine (fs_follows (Fs.ilock_locks ip)).step fun _ s1 locked => ?_
  refine unlocks.last fun _ s2 unlocked => ?_
  rw [unlocked, locked.2, locked.1.2, Skeleton.unlock_lock _ _ locked.1.1]

theorem iunlock_then (ip : Slot) {α : Type} {rest : KernelM W α} {t : Skeleton → Skeleton}
    (follows : Follows books rest fun before _ after =>
      after = { before with fs := t before.fs }) :
    Follows books (do
        fs (Fs.iunlock ip)
        rest) fun before _ after => after = { before with fs := t (before.fs.unlock ip) } := by
  intro s
  refine (fs_follows (Fs.iunlock_unlocks ip)).step fun _ s1 unlocked => ?_
  refine follows.last fun _ s2 changed => ?_
  rw [changed, unlocked.2, unlocked.1.2]

theorem beginOp_then {α : Type} {rest : KernelM W α}
    (closes : Follows books rest fun before _ after =>
      after = { before with fs := before.fs.closed }) :
    Keeps books (do
      fs Fs.beginOp
      rest) := by
  intro s
  refine beginOp_opens.step fun _ s1 opened => ?_
  refine closes.last fun _ s2 closed => ?_
  rw [closed, opened, Skeleton.closed_opened]

theorem endOp_then {α : Type} {rest : KernelM W α} (keeps : Keeps books rest) :
    Follows books (do
      fs Fs.endOp
      rest) fun before _ after => after = { before with fs := before.fs.closed } := by
  intro s
  refine endOp_closes.step fun _ s1 closed => ?_
  exact keeps.last fun _ s2 kept => kept.trans closed

theorem advance_keeps (f : FileId) (r : Int) : Keeps books
    (modifyFile (W := W) f fun f => { f with off := (f.off + r.toNat) % 2 ^ 32 }) :=
  modifyFile_keeps f fun _ => rfl

theorem fileread_keeps (p : Pid) (f : FileId) (addr : Nat) (n device : Int) :
    Keeps books (fileread (W := W) p f addr n device) := by
  unfold fileread
  refine keeps_bind (file_keeps f) fun ff => keeps_ite (keeps_pure _) ?_
  cases ff.type with
  | none => exact keeps_throw _
  | pipe => exact piperead_keeps p _ _ _
  | device => exact keeps_ite (keeps_pure _) (keeps_pure _)
  | inode =>
      refine ilock_then ff.ip (t := id) ?_
      refine (proc_keeps p).before fun caller => keeps_get.before fun s => ?_
      refine (fs_keeps (Fs.readi_keeps _ _ _ _)).before fun read => ?_
      refine (vm_keeps _).before fun _ => follows_ite ?_ ?_
      · refine (advance_keeps f _).before fun _ => ?_
        exact iunlock_then ff.ip (keeps_pure _)
      · exact iunlock_then ff.ip (keeps_pure _)

theorem sysRead_settles (p : Pid) (fd : Int) (addr : Nat) (n device : Int) :
    Settles p (sysRead (W := W) p fd addr n device) := by
  refine Settles.of_keeps p (keeps_bind ((argfd_finds p fd).mono fun _ _ _ found => found.1) ?_)
  intro got
  cases got with
  | none => exact keeps_pure _
  | some found => exact fileread_keeps p found.2 addr n device

theorem filewriteFrom_keeps (p : Pid) (f : FileId) (addr n fuel i : Nat) :
    Keeps books (filewriteFrom (W := W) p f addr n fuel i) := by
  induction fuel generalizing i with
  | zero => exact keeps_pure _
  | succ fuel ih =>
      unfold filewriteFrom
      refine keeps_ite ?_ (keeps_pure _)
      refine beginOp_then ((file_keeps f).before fun ff => ilock_then ff.ip ?_)
      refine keeps_get.before fun s => (proc_keeps p).before fun caller => ?_
      refine (file_keeps f).before fun ff' => ?_
      refine (fs_keeps (Fs.writei_keeps _ _ _ _)).before fun r => ?_
      have finish : ∀ n1 : Nat, Follows books (do
          fs (W := W) (Fs.iunlock ff.ip)
          fs Fs.endOp
          if r ≠ (n1 : Int) then return i
          filewriteFrom p f addr n fuel (i + n1))
          fun before _ after => after = { before with fs := (before.fs.unlock ff.ip).closed } := by
        intro n1
        refine iunlock_then ff.ip (endOp_then ?_)
        exact keeps_ite (keeps_pure _) (ih _)
      exact follows_ite ((advance_keeps f r).before fun _ => finish _) (finish _)

theorem sysWrite_settles (p : Pid) (fd : Int) (addr : Nat) (n device : Int) :
    Settles p (sysWrite (W := W) p fd addr n device) := by
  refine Settles.of_keeps p (keeps_bind ((argfd_finds p fd).mono fun _ _ _ found => found.1) ?_)
  intro got
  cases got with
  | none => exact keeps_pure _
  | some found =>
      change Keeps books (filewrite p found.2 addr n device)
      unfold filewrite
      refine keeps_bind (file_keeps _) fun ff => keeps_ite (keeps_pure _) ?_
      cases ff.type with
      | none => exact keeps_throw _
      | pipe => exact pipewriteFrom_keeps p _ _ _ _
      | device => exact keeps_ite (keeps_pure _) (keeps_pure _)
      | inode => exact keeps_bind (filewriteFrom_keeps p _ _ _ _ _) fun _ => keeps_pure _

theorem Books.setState_back (b : Books) {p : Pid} {state : ProcState}
    (was : (b.holder p).state = state) (other : ProcState) :
    (b.setState p other).setState p state = b := by
  have same : { (b.setState p other).holder p with state } = b.holder p := by
    rw [Books.setState, Books.setHolder_same, ← was]
  rw [Books.setState, same, Books.setState, Books.setHolder, Books.setHolder,
    Function.update_idem, Function.update_eq_self]

theorem freeproc_frees (p : Pid) : Follows books (freeproc (W := W) p)
    fun before _ after => after = before.setState p .unused := by
  have finish : ∀ sz pagetable : Nat, Follows books (do
      if pagetable ≠ 0 then vm (W := W) (Vm.procFreepagetable pagetable sz)
      modifyProc p fun p =>
        { p with pagetable := 0, sz := 0, pid := 0, parent := none, name := [], killed := false, xstate := 0
                 state := .unused })
      fun before _ after => after = before.setState p .unused := by
    intro sz pagetable
    exact follows_ite ((vm_keeps _).before fun _ s => books_setProc s p _)
      fun s => books_setProc s p _
  unfold freeproc
  refine (proc_keeps p).before fun s => follows_ite ?_ ?_
  · refine (vm_keeps _).before fun _ => (modifyProc_keeps p ?_).before fun _ => finish s.sz s.pagetable
    intro _
    rfl
  · refine (modifyProc_keeps p ?_).before fun _ => finish s.sz s.pagetable
    intro _
    rfl

/-- `allocproc` takes an unused slot, and gives it back when memory runs out. -/
theorem allocproc_allocates : Follows books (allocproc (W := W)) fun before got after =>
    match got with
    | none => after = before
    | some p => (before.holder p).state = .unused ∧ after = before.setState p .used := by
  intro s
  unfold allocproc
  rw [outcome_bind, outcome_get]
  cases free : (List.finRange NPROC).find? fun p => decide ((s.proc p).state = .unused) with
  | none => rfl
  | some p =>
      have found := List.find?_some free
      have unused : ((books s).holder p).state = .unused := of_decide_eq_true found
      have undo : ∀ s' : State W, books s' = (books s).setState p .used →
          outcome (do
              freeproc p
              return (none : Option Pid))
            (fun got after => match got with
              | none => books after = books s
              | some p => ((books s).holder p).state = .unused ∧
                  books after = (books s).setState p .used)
            (fun _ _ => True) s' := by
        intro s' used
        refine (freeproc_frees p).step fun _ s'' freed => ?_
        change books s'' = books s
        rw [freed, used]
        exact Books.setState_back _ unused _
      dsimp only
      rw [outcome_bind, outcome_modify, outcome_bind, modifyProc, outcome_modify]
      have used : ∀ proc : Proc, proc.holder = { (books s).holder p with state := .used } →
          books { s with nextpid := s.nextpid + 1, proc := Function.update s.proc p proc } =
            (books s).setState p .used := by
        intro proc held
        rw [Books.setState, ← held]
        exact books_setProc s p proc
      refine (vm_keeps Vm.kalloc).step fun got s1 same1 => ?_
      rw [used _ rfl] at same1
      cases got with
      | none =>
          refine Follows.step (modifyProc_keeps p fun _ => ?_) fun _ s2 same2 => undo s2 (same2.trans same1)
          rfl
      | some trapframe =>
          refine Follows.step (modifyProc_keeps p fun _ => ?_) fun _ s2 same2 => ?_
          · rfl
          refine (vm_keeps (Vm.procPagetable trapframe)).step fun got s3 same3 => ?_
          have here : books s3 = (books s).setState p .used := same3.trans (same2.trans same1)
          cases got with
          | none =>
              refine Follows.step (modifyProc_keeps p fun _ => ?_) fun _ s4 same4 => undo s4 (same4.trans here)
              rfl
          | some pagetable =>
              refine Follows.step (modifyProc_keeps p fun _ => ?_) fun _ s4 same4 => ?_
              · rfl
              exact ⟨unused, same4.trans here⟩

theorem growproc_keeps (p : Pid) (n : Int) : Keeps books (growproc (W := W) p n) :=
  growproc_quiet books_quiet p n

theorem sysSbrk_settles (p : Pid) (n : Int) : Settles p (sysSbrk (W := W) p n) := by
  refine Settles.of_keeps p (keeps_bind (proc_keeps p) fun s => ?_)
  exact keeps_bind (growproc_keeps p n) fun _ => keeps_ite (keeps_pure _) (keeps_pure _)

/-- A change of state that neither wakes a dead process nor kills a live one. -/
theorem Settled.setState {b : Books} (settled : Settled b) {p : Pid} {state : ProcState}
    (same : Holder.alive { b.holder p with state } = (b.holder p).alive) :
    Settled (b.setState p state) := by
  refine ⟨settled.owes.setState p state, settled.unlocked, settled.idle, ?_⟩
  intro q dead
  by_cases here : q = p
  · subst here
    rw [Books.setState, Books.setHolder_same] at dead ⊢
    exact settled.dormant q (same.symm.trans dead)
  · rw [Books.setState, Books.setHolder_other _ _ here] at dead ⊢
    exact settled.dormant q dead

theorem wait_settles (p : Pid) (addr : Nat) : Settles p (wait (W := W) p addr) := by
  refine Settles.intro fun s settled alive => ?_
  unfold wait
  rw [outcome_bind, outcome_get]
  dsimp only
  split
  · rename_i child found
    have zombie : ((books s).holder child).state = .zombie := by
      have accepted := List.find?_some found
      exact of_decide_eq_true accepted
    have reap : ∀ s' : State W, books s' = books s →
        outcome (do
            freeproc child
            return some (s.proc child).pid.toInt)
          (fun _ after => Settled (books after)) (fun _ _ => True) s' := by
      intro s' same
      refine (freeproc_frees child).step fun _ s'' freed => ?_
      change Settled (books s'')
      rw [freed, same]
      exact settled.setState (by simp [Holder.alive, zombie])
    split
    · refine (vm_keeps _).step fun copied s1 same => ?_
      refine (outcome_ite _ _ _ _ _ _).mpr ⟨fun _ => reap s1 same, fun _ => ?_⟩
      change Settled (books s1)
      rwa [same]
    · exact reap s rfl
  · split
    · exact settled
    · exact settled

theorem kill_settles (p : Pid) (pid : Int32) : Settles p (kill (W := W) pid) := by
  refine Settles.intro fun s settled alive => ?_
  unfold kill
  rw [outcome_bind, outcome_get]
  split
  · rename_i q found
    rw [outcome_bind, modifyProc, outcome_modify]
    change Settled (books _)
    rw [books_setProc]
    refine settled.setState (p := q) ?_
    change Holder.alive { (s.proc q).holder with
      state := if (s.proc q).state = .sleeping then .runnable else (s.proc q).state } =
      (s.proc q).holder.alive
    cases now : (s.proc q).state <;> simp [Holder.alive, Proc.holder, now]
  · exact settled

/-- One turn of the loop that gives the child the parent's open files. -/
theorem forkFile_midway {b : Books} (p np : Pid) {ofile : Fin NOFILE → Option FileId} (i : Nat)
    (empty : ∀ j : Fin NOFILE, i ≤ j.val → ofile j = none) {s : State W}
    (mid : Midway b np ofile 0 (books s)) :
    outcome (forkFile p np i) (fun _ after => ∃ ofile', Midway b np ofile' 0 (books after) ∧
      ∀ j : Fin NOFILE, i + 1 ≤ j.val → ofile' j = none) (fun _ _ => True) s := by
  have later : ∀ j : Fin NOFILE, i + 1 ≤ j.val → ofile j = none :=
    fun j above => empty j (by omega)
  unfold forkFile
  split
  · rename_i inside
    refine (proc_keeps p).step fun parent s1 same => ?_
    cases parent.ofile ⟨i, inside⟩ with
    | none => exact ⟨ofile, same ▸ mid, later⟩
    | some f =>
        refine (filedup_counts f).step fun _ s2 duplicated => ?_
        rw [same] at duplicated
        have counted : Midway b np ofile (one (some f)) (books s2) := by
          rw [duplicated.2]
          refine { mid with owes := ?_ }
          have owes := mid.owes.dup duplicated.1
          rwa [zero_add] at owes
        refine (setOfile_sets np ⟨i, inside⟩ (some f)).last fun _ s3 pointed => ?_
        have mid3 := counted.setOfile ⟨i, inside⟩ (some f)
        rw [empty _ (Nat.le_refl i), one_none, add_zero, sub_self, ← pointed] at mid3
        refine ⟨_, mid3, ?_⟩
        intro j above
        have other : j ≠ ⟨i, inside⟩ := by
          rintro rfl
          exact absurd above (by simp)
        rw [Function.update_of_ne other]
        exact later j above
  · exact ⟨ofile, mid, later⟩

theorem fork_settles (p : Pid) : Settles p (fork (W := W) p) := by
  refine Settles.intro fun s settled alive => ?_
  unfold fork
  refine allocproc_allocates.step fun got s1 allocated => ?_
  cases got with
  | none =>
      change books s1 = books s at allocated
      change Settled (books s1)
      rwa [allocated]
  | some np =>
      obtain ⟨unused, used⟩ := allocated
      have dead : ((books s).holder np).alive = false := by simp [Holder.alive, unused]
      have nothing := settled.dormant np dead
      have ready : Settled (books s1) := by
        rw [used]
        exact settled.setState (by simp [Holder.alive, unused])
      have undo : ∀ s' : State W, books s' = books s1 →
          outcome (do
              freeproc np
              return (-1 : Int))
            (fun _ after => Settled (books after)) (fun _ _ => True) s' := by
        intro s' same
        refine (freeproc_frees np).step fun _ s'' freed => ?_
        change Settled (books s'')
        rw [freed, same, used, Books.setState_back _ unused]
        exact settled
      refine (proc_keeps p).step fun parent s2 same2 => ?_
      refine (proc_keeps np).step fun child s3 same3 => ?_
      refine (vm_keeps _).step fun copied s4 same4 => ?_
      have here : books s4 = books s1 := same4.trans (same3.trans same2)
      refine (outcome_ite _ _ _ _ _ _).mpr ⟨fun _ => ?_, fun _ => undo s4 here⟩
      refine Follows.step (modifyProc_keeps np fun _ => ?_) fun _ s5 same5 => ?_
      · rfl
      refine (proc_keeps np).step fun fresh s5' same5' => ?_
      refine (vm_keeps _).step fun _ s5'' same5'' => ?_
      rw [outcome_bind]
      have none : ∀ j : Fin NOFILE, ((books s1).holder np).ofile j = none := by
        intro j
        rw [used, Books.setState, Books.setHolder_same]
        exact nothing.1 j
      refine outcome_post (loop_outcome (fun i state => ∃ ofile,
        Midway (books s1) np ofile 0 (books state) ∧
          ∀ j : Fin NOFILE, i ≤ j.val → ofile j = Option.none) NOFILE 0 s5'' ?_ ?_) ?_
      · refine ⟨((books s1).holder np).ofile, ?_, fun j _ => none j⟩
        rw [same5'', same5', same5, here]
        exact Midway.start ready np
      · rintro i state _ _ ⟨ofile, mid, empty⟩
        exact forkFile_midway p np i empty mid
      · rintro _ s6 ⟨ofile, mid, _⟩
        refine (cwd_finds p).step fun dir s7 found => ?_
        refine (fs_follows (Fs.idup_takes dir)).step fun ip s8 taken => ?_
        obtain ⟨⟨rfl, taken⟩, framed⟩ := taken
        rw [found.1] at taken framed
        have bare : ((books s8).holder np).cwd = Option.none := by
          rw [framed, mid.holder, Function.update_self, used, Books.setState, Books.setHolder_same]
          exact nothing.2
        have owes := mid.owes.setFs ((books s6).fs.take ip)
        rw [← taken, ← framed] at owes
        have moved := (owes.setCwd np (some ip)).setState np .runnable
        have balanced : (0 : Slot → Int) + ((books s8).fs.ref - (books s6).fs.ref) +
            one ((books s8).holder np).cwd - one (some ip) = 0 := by
          funext k
          simp [bare, taken]
        rw [balanced] at moved
        refine (modifyProc_sets np (fun h => { h with cwd := some ip }) fun _ => rfl).step ?_
        intro _ s9 placed
        refine Follows.step (modifyProc_keeps np fun _ => ?_) fun _ s10 same10 => ?_
        · rfl
        refine (modifyProc_sets np (fun h => { h with state := .runnable }) fun _ => rfl).step ?_
        intro _ s11 started
        refine (proc_keeps np).step fun child s12 same12 => ?_
        change Settled (books s12)
        rw [same12, started, same10, placed]
        refine ready.after np moved ?_ ?_ ?_ ?_
        · change (books s8).fs.locked = _
          rw [taken]
          exact mid.locked
        · change (books s8).fs.outstanding = _
          rw [taken]
          exact mid.outstanding
        · rw [Books.setHolder_same]
          rfl
        · intro q other
          rw [Books.setHolder_other _ _ other, Books.setHolder_other _ _ other, framed, mid.holder,
            Function.update_of_ne other]

/-- One turn of the loop that closes the open files. -/
theorem exitFile_midway {b : Books} (p : Pid) {ofile : Fin NOFILE → Option FileId} (i : Nat)
    (empty : ∀ j : Fin NOFILE, j.val < i → ofile j = none) {s : State W}
    (mid : Midway b p ofile 0 (books s)) :
    outcome (exitFile p i) (fun _ after => ∃ ofile', Midway b p ofile' 0 (books after) ∧
      ∀ j : Fin NOFILE, j.val < i + 1 → ofile' j = none) (fun _ _ => True) s := by
  unfold exitFile
  split
  · rename_i inside
    simp only [proc, bind_assoc, pure_bind, outcome_bind, outcome_get]
    have seen : (s.proc p).ofile ⟨i, inside⟩ = ofile ⟨i, inside⟩ := by
      rw [← mid.ofile_eq]
      rfl
    rw [seen]
    cases here : ofile ⟨i, inside⟩ with
    | none =>
        refine ⟨ofile, mid, fun j below => ?_⟩
        rcases Nat.lt_succ_iff_lt_or_eq.mp below with earlier | same
        · exact empty j earlier
        · have this : j = ⟨i, inside⟩ := Fin.ext same
          rw [this]
          exact here
    | some f =>
        refine fileclose_midway f mid fun s1 mid1 => ?_
        refine (setOfile_sets p ⟨i, inside⟩ none).last fun _ s2 cleared => ?_
        have mid2 := mid1.setOfile ⟨i, inside⟩ none
        rw [here, one_none, sub_zero, zero_sub, neg_add_cancel, ← cleared] at mid2
        refine ⟨_, mid2, fun j below => ?_⟩
        by_cases same : j = ⟨i, inside⟩
        · rw [same, Function.update_self]
        · rw [Function.update_of_ne same]
          refine empty j ?_
          have other : j.val ≠ i := fun eq => same (Fin.ext eq)
          omega
  · rename_i outside
    exact ⟨ofile, mid, fun j _ => empty j (by have := j.isLt; omega)⟩

theorem reparent_keeps (p : Pid) : Keeps books (reparent (W := W) p) := by
  refine keeps_modify fun s => ?_
  have same : (fun q => Proc.holder (if (s.proc q).parent = some p then
      { s.proc q with parent := some initproc } else s.proc q)) = fun q => (s.proc q).holder := by
    funext q
    split <;> rfl
  unfold books
  simp only [same]

theorem exit_settles (p : Pid) (status : Int32) : Settles p (exit (W := W) p status) := by
  refine Settles.intro fun s settled alive => ?_
  unfold exit
  split
  · trivial
  rw [outcome_bind]
  refine outcome_post (loop_outcome (fun i state => ∃ ofile,
    Midway (books s) p ofile 0 (books state) ∧
      ∀ j : Fin NOFILE, j.val < i → ofile j = Option.none) NOFILE 0 s ?_ ?_) ?_
  · exact ⟨_, Midway.start settled p, fun j below => by omega⟩
  · rintro i state _ _ ⟨ofile, mid, empty⟩
    exact exitFile_midway p i empty mid
  · rintro _ s1 ⟨ofile, mid, empty⟩
    refine (cwd_finds p).step fun ip s2 found => ?_
    refine beginOp_opens.step fun _ s3 opened => ?_
    refine (iput_drops ip).step fun _ s4 dropped => ?_
    refine endOp_closes.step fun _ s5 closed => ?_
    have gone : books s5 = { books s1 with fs := (books s1).fs.drop ip } := by
      rw [closed, dropped, opened, found.1]
      change { books s1 with fs := ((books s1).fs.drop ip).opened.closed } = _
      rw [Skeleton.closed_opened]
    refine (modifyProc_sets p (fun h => { h with cwd := none }) fun _ => rfl).step ?_
    intro _ s6 left
    refine (reparent_keeps p).step fun _ s7 same7 => ?_
    refine (modifyProc_sets p (fun h => { h with state := .zombie }) fun _ => rfl).last ?_
    intro _ s8 ended
    have owes := ((mid.owes.setFs ((books s1).fs.drop ip)).setCwd p none).setState p .zombie
    have balanced : (0 : Slot → Int) + (((books s1).fs.drop ip).ref - (books s1).fs.ref) +
        one ((books s1).holder p).cwd - one none = 0 := by
      funext k
      simp [found.2]
    have final : books s8 = ((books s5).setCwd p none).setState p .zombie := by
      rw [ended, same7, left]
      rfl
    rw [final, gone]
    refine ⟨balanced ▸ owes, ?_, ?_, ?_⟩
    · intro k
      change (books s1).fs.locked k = false
      rw [mid.locked]
      exact settled.unlocked k
    · exact mid.outstanding.trans settled.idle
    · intro q dead
      by_cases here : q = p
      · subst here
        rw [Books.setState, Books.setHolder_same, Books.setCwd, Books.setHolder_same]
        refine ⟨fun fd => ?_, rfl⟩
        change ((books s1).holder q).ofile fd = none
        rw [mid.ofile_eq]
        exact empty fd (by have := fd.isLt; omega)
      · rw [Books.setState, Books.setHolder_other _ _ here, Books.setCwd,
          Books.setHolder_other _ _ here] at dead ⊢
        change ((books s1).holder q).alive = false at dead
        change (∀ fd, ((books s1).holder q).ofile fd = none) ∧ ((books s1).holder q).cwd = none
        rw [mid.holder, Function.update_of_ne here] at dead ⊢
        exact settled.dormant q dead

theorem execSegments_keeps (pagetable : Nat) (ip : Slot) (count off sz : Nat) :
    Keeps books (execSegments (W := W) pagetable ip count off sz) :=
  execSegments_quiet books_quiet pagetable (fun _ _ _ _ => fs_keeps (Fs.readi_keeps _ _ _ _)) count off sz

theorem execStack_keeps (p : Pid) (pagetable sz : Nat) (path : Path) (entry : Nat)
    (argv : List (List UInt8)) : Keeps books (execStack (W := W) p pagetable sz path entry argv) :=
  execStack_quiet books_quiet p pagetable sz path entry argv

theorem exec_keeps (p : Pid) (path : Path) (argv : List (List UInt8)) :
    Keeps books (exec (W := W) p path argv) := by
  intro s
  unfold exec
  refine beginOp_opens.step fun _ s1 opened => ?_
  refine (cwd_keeps p).step fun dir s2 same2 => ?_
  refine (fs_follows (Fs.namei_takes dir path)).step fun got s3 taken => ?_
  rw [same2, opened] at taken
  cases got with
  | none =>
      refine endOp_closes.step fun _ s4 closed => ?_
      have same : (books s3).fs = (books s).fs.opened := taken.1
      change books s4 = books s
      rw [closed, taken.2, same, Skeleton.closed_opened]
  | some ip =>
      refine (fs_follows (Fs.ilock_locks ip)).step fun _ s4 locked => ?_
      obtain ⟨⟨free, held⟩, framed⟩ := locked
      rw [taken.1] at free held
      rw [taken.2, held] at framed
      have bad : ∀ (pagetable : Option Nat) (sz : Nat) (s' : State W), books s' = books s4 →
          outcome (execBad pagetable sz (some ip)) (fun _ after => books after = books s)
            (fun _ _ => True) s' := by
        intro pagetable sz s' same
        unfold execBad
        have release : ∀ s'' : State W, books s'' = books s4 →
            outcome (do
                fs (Fs.iunlockput ip)
                fs Fs.endOp
                return (-1 : Int)) (fun _ after => books after = books s) (fun _ _ => True) s'' := by
          intro s'' same''
          exact release_then (b := books s) (same''.trans framed) free fun _ back => back
        cases pagetable with
        | none => exact release s' same
        | some pagetable =>
            refine (vm_keeps _).step fun _ s'' same'' => ?_
            exact release s'' (same''.trans same)
      refine (fs_keeps (Fs.readi_keeps _ _ _ _)).step fun read s5 same5 => ?_
      refine (outcome_ite _ _ _ _ _ _).mpr ⟨fun _ => bad none 0 s5 same5, fun _ => ?_⟩
      refine (outcome_ite _ _ _ _ _ _).mpr ⟨fun _ => bad none 0 s5 same5, fun _ => ?_⟩
      refine (proc_keeps p).step fun caller s6 same6 => ?_
      refine (vm_keeps _).step fun got s7 same7 => ?_
      have here : books s7 = books s4 := same7.trans (same6.trans same5)
      cases got with
      | none => exact bad none 0 s7 here
      | some pagetable =>
          refine (execSegments_keeps _ _ _ _ _).step fun loaded s8 same8 => ?_
          refine (outcome_ite _ _ _ _ _ _).mpr
            ⟨fun _ => bad (some pagetable) _ s8 (same8.trans here), fun _ => ?_⟩
          refine release_then (b := books s) ((same8.trans here).trans framed) free ?_
          intro s9 back
          refine (execStack_keeps p _ _ _ _ _).last fun _ s10 same10 => ?_
          exact same10.trans back

theorem freeArgs_keeps (pages : List Nat) : Keeps books (freeArgs (W := W) pages) :=
  freeArgs_quiet books_quiet pages

theorem collectArgs_keeps (args : Nat → Arg) (fuel i : Nat) (pages : List Nat)
    (argv : List (List UInt8)) : Keeps books (collectArgs (W := W) args fuel i pages argv) :=
  collectArgs_quiet books_quiet args fuel i pages argv

theorem sysExec_settles (p : Pid) (path : Option Path) (args : Nat → Arg) :
    Settles p (sysExec (W := W) p path args) := by
  refine Settles.of_keeps p ?_
  unfold sysExec
  cases path with
  | none => exact keeps_pure _
  | some path =>
      refine keeps_bind (collectArgs_keeps args _ _ _ _) fun collected => ?_
      obtain ⟨pages, argv⟩ := collected
      cases argv with
      | none => exact keeps_bind (freeArgs_keeps pages) fun _ => keeps_pure _
      | some argv =>
          refine keeps_bind (exec_keeps p path argv) fun ret => ?_
          exact keeps_bind (freeArgs_keeps pages) fun _ => keeps_pure _



end Settling

section Runs

theorem Settles.map {α β : Type} {p : Pid} {run : KernelM W α} (settles : Settles p run)
    (change : α → β) : Settles p (change <$> run) := by
  intro s
  rw [outcome_map]
  exact settles s

theorem perform_settles (p : Pid) (call : Call) : Settles p (call.perform (W := W) p) := by
  cases call with
  | «open» path omode => exact (sysOpen_settles p path omode).map _
  | close fd => exact (sysClose_settles p fd).map _
  | dup fd => exact (sysDup_settles p fd).map _
  | pipe fdarray => exact (sysPipe_settles p fdarray).map _
  | read fd addr n device => exact sysRead_settles p fd addr n device
  | write fd addr n device => exact sysWrite_settles p fd addr n device
  | link old new => exact (sysLink_settles p old new).map _
  | unlink path => exact (sysUnlink_settles p path).map _
  | mkdir path => exact (sysMkdir_settles p path).map _
  | mknod path major minor => exact (sysMknod_settles p path major minor).map _
  | chdir path => exact (sysChdir_settles p path).map _
  | fork => exact (fork_settles p).map _
  | exit status => exact (exit_settles p status).map _
  | wait addr => exact wait_settles p addr
  | kill pid => exact (kill_settles p pid).map _
  | sbrk n => exact (sysSbrk_settles p n).map _
  | exec path args => exact (sysExec_settles p path args).map _

theorem step_settles {s next : State W} {label : Pid × Call} (stepped : step s label = some next)
    (settled : Settled (books s)) : Settled (books next) := by
  obtain ⟨alive, result, performed⟩ := step_some stepped
  exact outcome_of_ok (perform_settles label.1 label.2 s) performed settled alive

theorem cleared_settled {bss : State W} (cleared : Cleared bss)
    (idle : CountingLayer.outstanding bss.fs.store = 0) : Settled (books bss) := by
  refine ⟨⟨?_, ?_, ?_⟩, ?_, idle, ?_⟩
  · funext f
    have none : tally (Holder.descriptors f) (books bss).holder = 0 := by
      refine tally_zero fun p => tally_zero fun fd => ?_
      change one ((bss.proc p).ofile fd) f = 0
      rw [(cleared.proc p).2.2.2.2.2.2.2.1 fd]
      rfl
    change (bss.file f).ref - _ = 0
    rw [none, (cleared.file f).2]
    rfl
  · funext k
    have files : tally (Entry.use k) (books bss).file = 0 := by
      refine tally_zero fun f => ?_
      change Entry.use k (bss.file f).entry = 0
      simp [Entry.use, File.entry, (cleared.file f).2]
    have dirs : tally (Holder.workdir k) (books bss).holder = 0 := by
      refine tally_zero fun p => ?_
      change one (bss.proc p).cwd k = 0
      rw [(cleared.proc p).2.2.2.2.2.2.2.2]
      rfl
    change (bss.fs.inode k).ref - _ - _ = 0
    rw [files, dirs, (cleared.inode k).1]
    rfl
  · intro f _
    exact (cleared.file f).1
  · intro k
    exact (cleared.inode k).2
  · intro p _
    exact ⟨(cleared.proc p).2.2.2.2.2.2.2.1, (cleared.proc p).2.2.2.2.2.2.2.2⟩

/-- What `userinit` leaves holds the one reference to the root directory. -/
theorem userinit_settles {bss booted : State W} {initcode : List UInt8} (cleared : Cleared bss)
    (idle : CountingLayer.outstanding bss.fs.store = 0)
    (boot : userinit initcode bss = .ok () booted) : Settled (books booted) := by
  have start : Settled (books bss) := cleared_settled cleared idle
  suffices settles : outcome (userinit initcode) (fun _ after => Settled (books after))
      (fun _ _ => True) bss from outcome_of_ok settles boot
  unfold userinit
  refine allocproc_allocates.step fun got s1 allocated => ?_
  cases got with
  | none => trivial
  | some p =>
      obtain ⟨unused, used⟩ := allocated
      refine (proc_keeps p).step fun first s2 same2 => ?_
      refine (vm_keeps _).step fun _ s3 same3 => ?_
      refine Follows.step (modifyProc_keeps p fun _ => ?_) fun _ s4 same4 => ?_
      · rfl
      refine (fs_follows (Fs.iget_takes ROOTDEV ROOTINO)).step fun ip s5 taken => ?_
      refine (modifyProc_sets p (fun h => { h with cwd := some ip, state := .runnable })
        fun _ => rfl).last ?_
      intro _ s6 placed
      have here : books s4 = (books bss).setState p .used := by
        rw [same4, same3, same2, used]
      rw [here] at taken
      have owes := ((start.owes.setState p .used).setFs
        (((books bss).setState p .used).fs.take ip)).setCwd p (some ip)
      have moved := owes.setState p .runnable
      have bare : ((books bss).holder p).cwd = none := (start.dormant p (by
        simp [Holder.alive, unused])).2
      have balanced : (0 : Slot → Int) + ((((books bss).setState p .used).fs.take ip).ref -
          ((books bss).setState p .used).fs.ref) +
          one (((books bss).setState p .used).holder p).cwd - one (some ip) = 0 := by
        funext k
        simp [Books.setState, bare]
      rw [balanced] at moved
      have final : books s6 = ({ (books bss).setState p .used with
          fs := ((books bss).setState p .used).fs.take ip }.setCwd p (some ip)).setState
            p .runnable := by
        rw [placed, taken.2, taken.1]
        simp [Books.setState, Books.setCwd, Books.setHolder]
      rw [final]
      refine start.after p moved rfl rfl ?_ ?_
      · rw [Books.setState, Books.setHolder_same]
        rfl
      · intro q other
        rw [Books.setState, Books.setHolder_other _ _ other, Books.setCwd,
          Books.setHolder_other _ _ other]
        exact Books.setHolder_other _ _ other

/-- Every count is the number of its users, and nothing is held between two calls. -/
structure Exact (s : State Store) : Prop where
  files : ∀ f, (s.file f).ref =
    (Finset.univ.filter fun at_ : Pid × Fin NOFILE => (s.proc at_.1).ofile at_.2 = some f).card
  unused : ∀ f, (s.file f).ref = 0 → (s.file f).type = .none
  inodes : ∀ k, (s.fs.inode k).ref =
    (Finset.univ.filter fun f => 0 < (s.file f).ref ∧
      ((s.file f).type = .inode ∨ (s.file f).type = .device) ∧ (s.file f).ip = k).card +
    (Finset.univ.filter fun p => (s.proc p).cwd = some k).card
  unlocked : ∀ k, (s.fs.inode k).locked = false
  idle : s.fs.store.log.outstanding = 0

theorem Settled.exact {s : State Store} (settled : Settled (books s)) : Exact s where
  files f := by
    have owed : (s.file f).ref - tally (Holder.descriptors f) (books s).holder = 0 :=
      congrFun settled.owes.files f
    have counted : tally (Holder.descriptors f) (books s).holder =
        (Finset.univ.filter fun at_ : Pid × Fin NOFILE =>
          (s.proc at_.1).ofile at_.2 = some f).card := by
      rw [← tally_count (fun held : Option FileId => held = some f)
        fun at_ : Pid × Fin NOFILE => (s.proc at_.1).ofile at_.2]
      exact (Fintype.sum_prod_type fun at_ : Pid × Fin NOFILE =>
        one ((s.proc at_.1).ofile at_.2) f).symm
    omega
  unused f zero := settled.owes.tidy f zero
  inodes k := by
    have owed : (s.fs.inode k).ref - tally (Entry.use k) (books s).file -
        tally (Holder.workdir k) (books s).holder = 0 := congrFun settled.owes.inodes k
    have files : tally (Entry.use k) (books s).file = _ := tally_count (fun e : Entry =>
      0 < e.ref ∧ e.ofInode = true ∧ e.ip = k) (books s).file
    have dirs : tally (Holder.workdir k) (books s).holder = _ :=
      tally_count (fun h : Holder => h.cwd = some k) (books s).holder
    rw [files, dirs] at owed
    have kinds : (Finset.univ.filter fun f => 0 < ((books s).file f).ref ∧
        ((books s).file f).ofInode = true ∧ ((books s).file f).ip = k) =
        Finset.univ.filter fun f => 0 < (s.file f).ref ∧
          ((s.file f).type = .inode ∨ (s.file f).type = .device) ∧ (s.file f).ip = k := by
      refine Finset.filter_congr fun f _ => ?_
      simp [books, File.entry, Entry.ofInode]
    rw [kinds] at owed
    change (s.fs.inode k).ref - _ -
      ((Finset.univ.filter fun p => (s.proc p).cwd = some k).card : Int) = 0 at owed
    omega
  unlocked := settled.unlocked
  idle := settled.idle

/-- Whatever calls the processes make after `userinit`, in every state between two calls
the counts of open files and inodes are the numbers of their users, no inode is locked and
no operation of the log is open. -/
theorem counts_exact {bss booted final : State Store} {initcode : List UInt8}
    {calls : List (Pid × Call)} (cleared : Cleared bss)
    (idle : bss.fs.store.log.outstanding = 0) (boot : userinit initcode bss = .ok () booted)
    (ran : run step booted calls = some final) : Exact final := by
  refine (run_invariant step (fun _ s => Settled (books s)) ?_ ?_ ran).exact
  · exact userinit_settles cleared idle boot
  · intro _ s label next _ settled stepped
    exact step_settles stepped settled

/-- A file opened, duplicated, inherited by a child and closed once there. -/
theorem shared_file_exact : ∃ booted final,
    userinit [] (bss tinyStore tinySuperblock (tinyRam 40 [])) = .ok () booted ∧
    run step booted [(initproc, .open (some [Fs.slash]) 0), (initproc, .dup 0), (initproc, .fork),
      (initproc, .mkdir (some [97])), (initproc, .chdir (some [97])),
      (⟨1, by decide⟩, .close 1)] = some final ∧
    (final.file ⟨0, by decide⟩).ref = 3 ∧ Exact final := by
  obtain ⟨booted, final, boot, ran, three⟩ := runsTo_run
    (bss tinyStore tinySuperblock (tinyRam 40 []))
    [(initproc, .open (some [Fs.slash]) 0), (initproc, .dup 0), (initproc, .fork),
      (initproc, .mkdir (some [97])), (initproc, .chdir (some [97])), (⟨1, by decide⟩, .close 1)]
    (fun s => decide ((s.file ⟨0, by decide⟩).ref = 3)) (by decide +kernel)
  exact ⟨booted, final, boot, ran, of_decide_eq_true three,
    counts_exact (bss_cleared _ _ _) rfl boot ran⟩

end Runs

end PaddleOs.Kernel
