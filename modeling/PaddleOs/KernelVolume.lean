import PaddleOs.FsFiles
import PaddleOs.RefCounts

/-!
The volume under the kernel. Between the steps of every system call the blocks and the
inode table represent a volume in which blocks are owned exactly and no file has a hole,
and every open file refers to an inode in memory whose type fits the way it was opened.
The counts of references, which are exact, say that what a call gives back is not what an
open file still needs.
-/

namespace PaddleOs.Kernel

open Foundation.Outcome Foundation.View Foundation.Tally
open Fs (Path Slot JState Good Held Over Loaded Represents lent)

section Counts

variable {b : Books} {files : FileId → Int} {inodes : Slot → Int} {k : Slot} {f g : FileId} {p : Pid}

theorem Entry.use_nonneg (k : Slot) (e : Entry) : 0 ≤ e.use k := by
  unfold Entry.use
  split <;> decide

theorem Holder.workdir_nonneg (k : Slot) (h : Holder) : 0 ≤ h.workdir k := by
  unfold Holder.workdir one
  split <;> decide

theorem Holder.descriptors_nonneg (f : FileId) (h : Holder) : 0 ≤ h.descriptors f := by
  unfold Holder.descriptors tally one
  refine Finset.sum_nonneg fun fd _ => ?_
  dsimp only
  split <;> decide

theorem Books.Owes.ref_eq (owes : b.Owes files inodes) (k : Slot) :
    b.fs.ref k = inodes k + tally (Entry.use k) b.file + tally (Holder.workdir k) b.holder := by
  have owed : b.fs.ref k - tally (Entry.use k) b.file - tally (Holder.workdir k) b.holder = inodes k :=
    congrFun owes.inodes k
  omega

/-- A file with a type is in use. -/
theorem Books.Owes.use_one (owes : b.Owes files inodes) (least : ∀ f, 0 ≤ files f)
    (kind : (b.file f).ofInode = true) (at_ : (b.file f).ip = k) : (b.file f).use k = 1 := by
  have owed : (b.file f).ref - tally (Holder.descriptors f) b.holder = files f := congrFun owes.files f
  have users : 0 ≤ tally (Holder.descriptors f) b.holder :=
    Finset.sum_nonneg fun p _ => Holder.descriptors_nonneg f (b.holder p)
  have typed : (b.file f).ref ≠ 0 := by
    intro zero
    have none := owes.tidy f zero
    simp [Entry.ofInode, none] at kind
  have positive : 0 < (b.file f).ref := by
    have more := least f
    omega
  unfold Entry.use
  rw [if_pos ⟨positive, kind, at_⟩]

theorem Books.Owes.file_used (owes : b.Owes files inodes) (least : ∀ f, 0 ≤ files f) (more : 0 ≤ inodes k)
    (kind : (b.file f).ofInode = true) (at_ : (b.file f).ip = k) : 0 < b.fs.ref k := by
  have uses := le_tally (Entry.use_nonneg k) b.file f
  rw [owes.use_one least kind at_] at uses
  have dirs : 0 ≤ tally (Holder.workdir k) b.holder :=
    Finset.sum_nonneg fun p _ => Holder.workdir_nonneg k (b.holder p)
  have ref := owes.ref_eq k
  omega

theorem Books.Owes.cwd_used (owes : b.Owes files inodes) (least : 0 ≤ inodes k)
    (home : (b.holder p).cwd = some k) : 0 < b.fs.ref k := by
  have uses : 0 ≤ tally (Entry.use k) b.file := Finset.sum_nonneg fun f _ => Entry.use_nonneg k (b.file f)
  have dirs := le_tally (Holder.workdir_nonneg k) b.holder p
  have mine : (b.holder p).workdir k = 1 := by
    unfold Holder.workdir one
    rw [if_pos home]
  have ref := owes.ref_eq k
  omega

/-- A directory in which a process works is used once more than the open files use it. -/
theorem Books.Owes.file_beside_cwd (owes : b.Owes files inodes) (least : ∀ f, 0 ≤ files f)
    (more : 0 ≤ inodes k) (home : (b.holder p).cwd = some k) (kind : (b.file f).ofInode = true)
    (at_ : (b.file f).ip = k) : 2 ≤ b.fs.ref k := by
  have uses := le_tally (Entry.use_nonneg k) b.file f
  rw [owes.use_one least kind at_] at uses
  have dirs := le_tally (Holder.workdir_nonneg k) b.holder p
  have mine : (b.holder p).workdir k = 1 := by
    unfold Holder.workdir one
    rw [if_pos home]
  have ref := owes.ref_eq k
  omega

theorem Books.Owes.file_beside_file (owes : b.Owes files inodes) (least : ∀ f, 0 ≤ files f)
    (more : 0 ≤ inodes k) (apart : g ≠ f) (kind : (b.file f).ofInode = true) (at_ : (b.file f).ip = k)
    (kind' : (b.file g).ofInode = true) (at_' : (b.file g).ip = k) : 2 ≤ b.fs.ref k := by
  have rest := tally_update (Entry.use k) b.file f { b.file f with ref := 0 }
  have unused : Entry.use k { b.file f with ref := 0 } = 0 := by simp [Entry.use]
  have other := le_tally (Entry.use_nonneg k) (Function.update b.file f { b.file f with ref := 0 }) g
  rw [Function.update_of_ne apart, owes.use_one least kind' at_'] at other
  rw [unused, owes.use_one least kind at_] at rest
  have dirs : 0 ≤ tally (Holder.workdir k) b.holder :=
    Finset.sum_nonneg fun p _ => Holder.workdir_nonneg k (b.holder p)
  have ref := owes.ref_eq k
  omega

end Counts

section Volumes

/-- An open file of an inode can be read and written. -/
structure Usable (fs : JState) (v : Volume) (f : File) : Prop where
  used : 0 < (fs.inode f.ip).ref
  valid : (fs.inode f.ip).valid = true
  off : f.off < 2 ^ 32
  plain : f.writable = true → (v.node (fs.inode f.ip).inum).type ≠ T_DIR

structure Intact (s : State Journal) (v : Volume) : Prop where
  good : Good s.fs v
  whole : v.NoHoles
  files : ∀ f, (s.file f).type = .inode → Usable s.fs v (s.file f)

variable {s s' : State Journal} {fs fs' : JState} {v v' : Volume} {base : Slot → Fs.Inode}
variable {handles : List Slot} {k : Slot} {i : Nat} {f : File}

theorem Usable.loaded (usable : Usable fs v f) : Loaded fs f.ip (fs.inode f.ip).inum :=
  ⟨usable.used, usable.valid, rfl⟩

/-- What a file refers to stays while a reference to it stays. -/
theorem Usable.step (usable : Usable fs v f) (good : Good fs v)
    (agree : ∀ k, (base k).inum = (fs.inode k).inum ∧ (base k).valid = (fs.inode k).valid)
    (backed : 0 < (base f.ip).ref) (evolves : v.Evolves (Held base) v') (atop : Over base handles fs') :
    Usable fs' v' f := by
  have inum : (fs'.inode f.ip).inum = (fs.inode f.ip).inum := (atop.inum f.ip backed).trans (agree f.ip).1
  have ref := atop.ref f.ip
  refine ⟨by omega, atop.valid f.ip backed ((agree f.ip).2.trans usable.valid), usable.off, fun writes => ?_⟩
  rw [inum, (evolves.kept _ ⟨f.ip, backed, (agree f.ip).1⟩ (usable.loaded.live good.rep)).2]
  exact usable.plain writes

theorem Intact.step (intact : Intact s v)
    (agree : ∀ k, (base k).inum = (s.fs.inode k).inum ∧ (base k).valid = (s.fs.inode k).valid)
    (backed : ∀ f, (s.file f).type = .inode → 0 < (base (s.file f).ip).ref) (good : Good fs' v')
    (evolves : v.Evolves (Held base) v') (atop : Over base handles fs') : Intact { s with fs := fs' } v' :=
  ⟨good, evolves.whole intact.whole, fun f kind =>
    (intact.files f kind).step intact.good agree (backed f kind) evolves atop⟩

/-- A step that takes references or gives back those it took. -/
theorem Intact.run (intact : Intact s v) (good : Good fs' v') (evolves : v.Evolves (Held s.fs.inode) v')
    (atop : Over s.fs.inode handles fs') : Intact { s with fs := fs' } v' :=
  intact.step (fun _ => ⟨rfl, rfl⟩) (fun f kind => (intact.files f kind).used) good evolves atop

/-- A step that gives back a reference nobody needs. -/
theorem Intact.lose (intact : Intact s v)
    (spare : ∀ f, (s.file f).type = .inode → (s.file f).ip = k → 2 ≤ (s.fs.inode k).ref)
    (good : Good fs' v') (evolves : v.Evolves (Held (lent s.fs.inode k)) v')
    (atop : Over (lent s.fs.inode k) handles fs') : Intact { s with fs := fs' } v' := by
  refine intact.step (fun j => Fs.lent_same _ k j) (fun f kind => ?_) good evolves atop
  have used := (intact.files f kind).used
  rw [Fs.lent_ref]
  split
  · rename_i same
    have more := spare f kind same
    rw [same]
    omega
  · omega

/-- Nothing but the files and the file system matters. -/
theorem Intact.congr (intact : Intact s v) (same : s'.fs = s.fs)
    (files : ∀ f, (s'.file f).type = .inode → (s.file f).type = .inode ∧ (s'.file f).ip = (s.file f).ip ∧
      (s'.file f).off < 2 ^ 32 ∧ ((s'.file f).writable = true → (s.file f).writable = true)) :
    Intact s' v := by
  refine ⟨same ▸ intact.good, intact.whole, fun f kind => ?_⟩
  obtain ⟨was, ip, off, writable⟩ := files f kind
  have usable := intact.files f was
  rw [same]
  refine ⟨?_, ?_, off, fun writes => ?_⟩
  · rw [ip]
    exact usable.used
  · rw [ip]
    exact usable.valid
  · rw [ip]
    exact usable.plain (writable writes)

end Volumes

section Still

/-- Neither the file system nor an open file is touched. -/
def Still {α : Type} (fs₀ : JState) (file₀ : FileId → File) (run : KernelM Journal α) : Prop :=
  ∀ s, s.fs = fs₀ → s.file = file₀ →
    outcome run (fun _ s' => s'.fs = fs₀ ∧ s'.file = file₀) (fun _ _ => True) s

variable {fs₀ : JState} {file₀ : FileId → File}

theorem still_modifyProc (p : Pid) (change : Proc → Proc) :
    Still fs₀ file₀ (modifyProc p change) := fun _ fs file => ⟨fs, file⟩

theorem still_vm {α : Type} (run : Vm.VmM α) : Still fs₀ file₀ (vm run) := by
  intro s fs file
  unfold vm
  rw [outcome_zoom]
  unfold outcome
  cases run s.ram with
  | ok value after => exact ⟨fs, file⟩
  | error reason after => trivial

theorem still_quiet (fs₀ : JState) (file₀ : FileId → File) :
    Quiet fun ⦃α : Type⦄ (run : KernelM Journal α) => Still fs₀ file₀ run where
  pure _ _ fs file := ⟨fs, file⟩
  get _ fs file := ⟨fs, file⟩
  bind first second s fs file := by
    rw [outcome_bind]
    refine outcome_post (first s fs file) ?_
    rintro value s' ⟨fs', file'⟩
    exact second value s' fs' file'
  halt _ _ _ _ := trivial
  vm := still_vm
  modifyPipe _ _ _ fs file := ⟨fs, file⟩
  modifyProc p _ _ _ _ := still_modifyProc p _

theorem still_setOfile (p : Pid) (fd : Fin NOFILE) (f : Option FileId) :
    Still fs₀ file₀ (setOfile p fd f) := still_modifyProc p _

theorem still_argfd (p : Pid) (fd : Int) : Still fs₀ file₀ (argfd p fd) := by
  have quiet := still_quiet fs₀ file₀
  unfold argfd
  refine quiet.bind (proc_quiet quiet p) fun proc => ?_
  split
  · exact quiet.pure _
  · exact quiet.pure _

theorem still_fdalloc (p : Pid) (f : FileId) : Still fs₀ file₀ (fdalloc p f) := by
  have quiet := still_quiet fs₀ file₀
  unfold fdalloc
  refine quiet.bind (proc_quiet quiet p) fun proc => ?_
  split
  · exact quiet.bind (still_setOfile p _ _) fun _ => quiet.pure _
  · exact quiet.pure _

theorem still_freeproc (p : Pid) : Still fs₀ file₀ (freeproc p) := by
  have quiet := still_quiet fs₀ file₀
  unfold freeproc
  refine quiet.bind (proc_quiet quiet p) fun proc => ?_
  have rest : Still fs₀ file₀ (do
      modifyProc (W := Journal) p fun p => { p with trapframe := 0 }
      if proc.pagetable ≠ 0 then vm (Vm.procFreepagetable proc.pagetable proc.sz)
      modifyProc p fun p =>
        { p with pagetable := 0, sz := 0, pid := 0, parent := none, name := [], killed := false, xstate := 0
                 state := .unused }) := by
    refine quiet.bind (still_modifyProc p _) fun _ => ?_
    exact quiet.ite (quiet.bind (still_vm _) fun _ => still_modifyProc p _) (still_modifyProc p _)
  exact quiet.ite (quiet.bind (still_vm _) fun _ => rest) rest

theorem still_allocproc : Still fs₀ file₀ allocproc := by
  have quiet := still_quiet fs₀ file₀
  unfold allocproc
  refine quiet.bind quiet.get fun s => ?_
  split
  · exact quiet.pure _
  · refine quiet.bind (fun _ fs file => ⟨fs, file⟩) fun _ => ?_
    refine quiet.bind (still_modifyProc _ _) fun _ => quiet.bind (still_vm _) fun got => ?_
    split
    · exact quiet.bind (still_modifyProc _ _) fun _ => quiet.bind (still_freeproc _) fun _ => quiet.pure _
    · refine quiet.bind (still_modifyProc _ _) fun _ => quiet.bind (still_vm _) fun table => ?_
      split
      · exact quiet.bind (still_modifyProc _ _) fun _ => quiet.bind (still_freeproc _) fun _ => quiet.pure _
      · exact quiet.bind (still_modifyProc _ _) fun _ => quiet.pure _

theorem still_wait (p : Pid) (addr : Nat) : Still fs₀ file₀ (wait p addr) := by
  have quiet := still_quiet fs₀ file₀
  unfold wait
  refine quiet.bind quiet.get fun s => ?_
  dsimp only
  split
  · have free : ∀ pp (pid : Int32) copied, Still fs₀ file₀ (do
        if copied = true then
          freeproc (W := Journal) pp
          return some pid.toInt
        else return some (-1)) := by
      intro pp pid copied
      split
      · exact quiet.bind (still_freeproc _) fun _ => quiet.pure _
      · exact quiet.pure _
    exact quiet.ite (quiet.bind (still_vm _) fun copied => free _ _ copied) (free _ _ true)
  · exact quiet.ite (quiet.pure _) (quiet.pure _)

theorem still_kill (pid : Int32) : Still fs₀ file₀ (kill pid) := by
  have quiet := still_quiet fs₀ file₀
  unfold kill
  refine quiet.bind quiet.get fun s => ?_
  split
  · exact quiet.bind (still_modifyProc _ _) fun _ => quiet.pure _
  · exact quiet.pure _

end Still

section Steps

variable {α β : Type} {s : State Journal} {v : Volume} {fail : Halt → State Journal → Prop}

theorem file_step {f : FileId} {post : File → State Journal → Prop} (next : post (s.file f) s) :
    outcome (file f) post fail s := next

theorem proc_step {p : Pid} {post : Proc → State Journal → Prop} (next : post (s.proc p) s) :
    outcome (proc p) post fail s := next

theorem modifyFile_step {f : FileId} {change : File → File} {post : Unit → State Journal → Prop}
    (next : post () { s with file := Function.update s.file f (change (s.file f)) }) :
    outcome (modifyFile f change) post fail s := next

theorem modifyProc_step {p : Pid} {change : Proc → Proc} {post : Unit → State Journal → Prop}
    (next : post () { s with proc := Function.update s.proc p (change (s.proc p)) }) :
    outcome (modifyProc p change) post fail s := next

theorem setOfile_step {p : Pid} {fd : Fin NOFILE} {f : Option FileId} {post : Unit → State Journal → Prop}
    (next : ∀ proc, post () { s with proc }) : outcome (setOfile p fd f) post fail s := next _

/-- A specification of a file-system function is used in the kernel. -/
theorem fs_step {run : Fs.FsM Journal α} {middle : α → JState → Prop} {post : α → State Journal → Prop}
    {stop : Stop → JState → Prop} (holds : outcome run middle stop s.fs)
    (next : ∀ value fs', middle value fs' → post value { s with fs := fs' }) :
    outcome (fs run) post (fun _ _ => True) s := by
  unfold fs
  rw [outcome_zoom]
  exact outcome_mono holds next fun _ _ _ => trivial

theorem fs_seq {run : Fs.FsM Journal α} {next : α → Fs.FsM Journal β} {post : β → State Journal → Prop}
    (holds : outcome (fs (run >>= next)) post fail s) :
    outcome (do
      let value ← fs run
      fs (next value)) post fail s := by
  unfold fs at holds ⊢
  rw [outcome_zoom, outcome_bind] at holds
  rw [outcome_bind, outcome_zoom]
  refine outcome_mono holds (fun value fs' rest => ?_) fun _ _ => id
  rw [outcome_zoom]
  exact rest

end Steps

section Files

variable {s : State Journal} {v : Volume} {files : FileId → Int} {inodes : Slot → Int} {f : FileId} {p : Pid}

/-- What every part of a call does. -/
def Sound {α : Type} (run : KernelM Journal α) (s : State Journal) : Prop :=
  outcome run (fun _ s' => ∃ v', Intact s' v') (fun _ _ => True) s

theorem Still.sound {α : Type} {run : KernelM Journal α} (still : Still s.fs s.file run) (intact : Intact s v) :
    outcome run (fun _ s' => Intact s' v ∧ s'.fs = s.fs ∧ s'.file = s.file) (fun _ _ => True) s := by
  refine outcome_post (still s rfl rfl) ?_
  rintro _ s' ⟨fs, file⟩
  refine ⟨intact.congr fs fun g kind => ?_, fs, file⟩
  rw [file] at kind ⊢
  exact ⟨kind, rfl, (intact.files g kind).off, id⟩

/-- A file is stored into that is not one of an inode then, or keeps what it refers to. -/
theorem Intact.setFile (intact : Intact s v) {g : File}
    (kept : g.type = .inode → (s.file f).type = .inode ∧ g.ip = (s.file f).ip ∧ g.off < 2 ^ 32 ∧
      (g.writable = true → (s.file f).writable = true)) :
    Intact { s with file := Function.update s.file f g } v := by
  refine intact.congr rfl fun h kind => ?_
  by_cases same : h = f
  · subst same
    dsimp only at kind ⊢
    rw [Function.update_self] at kind ⊢
    exact kept kind
  · dsimp only at kind ⊢
    rw [Function.update_of_ne same] at kind ⊢
    exact ⟨kind, rfl, (intact.files h kind).off, id⟩

/-- The last reference to a file goes with the one the file has to its inode. -/
theorem putFile_sound {s₁ : State Journal} (intact : Intact s₁ v) (owes : (books s).Owes files inodes)
    (least : ∀ f, 0 ≤ files f) (more : ∀ k, 0 ≤ inodes k) (same : s₁.fs = s.fs)
    (other : ∀ g, g ≠ f → s₁.file g = s.file g) (gone : (s₁.file f).type = .none)
    (kind : ((books s).file f).ofInode = true) : Sound (do
      fs Fs.beginOp
      fs (Fs.iput (s.file f).ip)
      fs Fs.endOp) s₁ := by
  have used : 0 < (s₁.fs.inode (s.file f).ip).ref := by
    rw [same]
    exact owes.file_used least (more _) kind rfl
  refine fs_seq (fs_seq (fs_step (Fs.putInode_spec intact.good (Over.refl intact.good.rep) used) ?_))
  rintro _ fs' ⟨v', ended⟩
  refine ⟨v', intact.lose ?_ ended.good ended.evolves ended.atop⟩
  intro g inode at_
  have apart : g ≠ f := by
    rintro rfl
    rw [gone] at inode
    cases inode
  rw [other g apart] at inode at_
  have kind' : ((books s).file g).ofInode = true := by
    change (s.file g).entry.ofInode = true
    simp [Entry.ofInode, File.entry, inode]
  rw [same]
  exact owes.file_beside_file least (more _) apart kind rfl kind' at_

/-- The two ways of `fileclose`: a reference less, or the end of the file. -/
theorem fileclose_cases {post : Unit → State Journal → Prop}
    (shared : post () { s with file := Function.update s.file f { s.file f with ref := (s.file f).ref - 1 } })
    (last : outcome (match (s.file f).type with
      | .pipe => pipeclose (s.file f).pipe (s.file f).writable
      | .inode | .device => do
          fs Fs.beginOp
          fs (Fs.iput (s.file f).ip)
          fs Fs.endOp
      | .none => pure ()) post (fun _ _ => True)
      { s with file := Function.update s.file f { s.file f with ref := 0, type := .none } }) :
    outcome (fileclose f) post (fun _ _ => True) s := by
  unfold fileclose
  rw [outcome_bind]
  refine file_step ?_
  rw [outcome_ite]
  refine ⟨fun _ => trivial, fun _ => ?_⟩
  rw [outcome_bind]
  refine modifyFile_step ?_
  rw [outcome_bind]
  refine file_step ?_
  dsimp only
  rw [Function.update_self, outcome_ite]
  refine ⟨fun _ => shared, fun _ => ?_⟩
  rw [outcome_bind]
  refine modifyFile_step ?_
  dsimp only
  rw [Function.update_self, Function.update_idem]
  exact last

theorem Intact.unref (intact : Intact s v) (ref : Int) :
    Intact { s with file := Function.update s.file f { s.file f with ref } } v :=
  intact.setFile fun kind => ⟨kind, rfl, (intact.files f kind).off, id⟩

theorem Intact.close (intact : Intact s v) :
    Intact { s with file := Function.update s.file f { s.file f with ref := 0, type := .none } } v :=
  intact.setFile fun kind => by cases kind

theorem fileclose_sound (intact : Intact s v) (owes : (books s).Owes files inodes)
    (least : ∀ f, 0 ≤ files f) (more : ∀ k, 0 ≤ inodes k) : Sound (fileclose f) s := by
  refine fileclose_cases ⟨v, intact.unref _⟩ ?_
  have put := fun kind => putFile_sound (intact.close (f := f)) owes least more rfl
    (fun g apart => Function.update_of_ne apart _ _) (by simp) kind
  have named : ((books s).file f).type = (s.file f).type := rfl
  cases kind : (s.file f).type with
  | none => exact ⟨v, intact.close⟩
  | pipe =>
      refine outcome_post (Still.sound (pipeclose_quiet (still_quiet _ _) _ _) intact.close) ?_
      rintro _ s' ⟨intact', -⟩
      exact ⟨v, intact'⟩
  | inode => exact put (by simp [Entry.ofInode, named, kind])
  | device => exact put (by simp [Entry.ofInode, named, kind])

/-- A step that leaves the files and the file system alone, with what it does to the books. -/
theorem Still.then {α β : Type} {run : KernelM Journal α} {next : α → KernelM Journal β}
    {post : β → State Journal → Prop} {relation : Books → α → Books → Prop}
    (still : Still s.fs s.file run) (follows : Follows books run relation) (intact : Intact s v)
    (rest : ∀ value s', Intact s' v → s'.fs = s.fs → s'.file = s.file →
      relation (books s) value (books s') → outcome (next value) post (fun _ _ => True) s') :
    outcome (run >>= next) post (fun _ _ => True) s := by
  rw [outcome_bind]
  refine outcome_mono (outcome_and (still.sound intact) (follows s)) ?_ fun _ _ _ => trivial
  rintro value s' ⟨⟨intact', fs, file⟩, related⟩
  exact rest value s' intact' fs file related

theorem one_nonneg {α : Type} [DecidableEq α] (named : Option α) (a : α) : 0 ≤ one named a := by
  unfold one
  split <;> decide

theorem sysClose_sound (intact : Intact s v) (settled : Settled (books s)) (fd : Int) :
    Sound (sysClose p fd) s := by
  unfold Sound sysClose
  refine (still_argfd p fd).then (argfd_finds p fd) intact fun got s₁ intact₁ _ _ found => ?_
  cases got with
  | none => exact ⟨v, intact₁⟩
  | some at_ =>
      obtain ⟨fd, f⟩ := at_
      refine (still_setOfile p fd none).then (setOfile_sets p fd none) intact₁ fun _ s₂ intact₂ _ _ set => ?_
      rw [found.1] at set
      have owes := settled.owes.setOfile p fd none
      rw [← set] at owes
      refine outcome_seq (fileclose_sound intact₂ owes (fun f => ?_) fun k => ?_) ?_
      · simpa using one_nonneg _ f
      · exact Int.le_refl 0
      · intro _ s₃ sound
        exact sound

theorem filedup_sound (intact : Intact s v) :
    outcome (filedup f) (fun _ s' => Intact s' v ∧ s'.fs = s.fs) (fun _ _ => True) s := by
  unfold filedup
  rw [outcome_bind]
  refine file_step ?_
  rw [outcome_ite]
  refine ⟨fun _ => trivial, fun _ => modifyFile_step ⟨?_, rfl⟩⟩
  exact intact.setFile fun kind => ⟨kind, rfl, (intact.files f kind).off, id⟩

theorem sysDup_sound (intact : Intact s v) (fd : Int) : Sound (sysDup p fd) s := by
  unfold Sound sysDup
  refine (still_argfd p fd).then (argfd_finds p fd) intact fun got s₁ intact₁ _ _ _ => ?_
  cases got with
  | none => exact ⟨v, intact₁⟩
  | some at_ =>
      obtain ⟨fd, f⟩ := at_
      refine (still_fdalloc p f).then (fdalloc_allocates p f) intact₁ fun got s₂ intact₂ _ _ _ => ?_
      cases got with
      | none => exact ⟨v, intact₂⟩
      | some fd =>
          refine outcome_seq (filedup_sound intact₂) ?_
          rintro _ s₃ ⟨intact₃, -⟩
          exact ⟨v, intact₃⟩

/-- The file is not one of an inode. -/
def Bare (s : State Journal) (f : FileId) : Prop := (s.file f).type = .none ∨ (s.file f).type = .pipe

theorem Bare.setFile {g : FileId} (bare : Bare s g) {h : File}
    (kind : h.type = (s.file f).type ∨ h.type = .none ∨ h.type = .pipe) :
    Bare { s with file := Function.update s.file f h } g := by
  change (Function.update s.file f h g).type = .none ∨ (Function.update s.file f h g).type = .pipe
  by_cases same : g = f
  · subst same
    rw [Function.update_self]
    rcases kind with kept | other
    · rw [kept]
      exact bare
    · exact other
  · rw [Function.update_of_ne same]
    exact bare

/-- A file without inode is closed. -/
theorem fileclose_bare (intact : Intact s v) (bare : Bare s f) :
    outcome (fileclose f) (fun _ s' => Intact s' v ∧ s'.fs = s.fs ∧
      (∀ g, (s'.file g).type = .inode → (s.file g).type = .inode ∧ (s'.file g).ip = (s.file g).ip) ∧
      ∀ g, Bare s g → Bare s' g) (fun _ _ => True) s := by
  have kept : ∀ h : File, (h.type = .inode → (s.file f).type = .inode ∧ h.ip = (s.file f).ip) →
      ∀ g, (Function.update s.file f h g).type = .inode →
        (s.file g).type = .inode ∧ (Function.update s.file f h g).ip = (s.file g).ip := by
    intro h own g kind
    by_cases same : g = f
    · subst same
      rw [Function.update_self] at kind ⊢
      exact own kind
    · rw [Function.update_of_ne same] at kind ⊢
      exact ⟨kind, rfl⟩
  refine fileclose_cases ⟨intact.unref _, rfl, kept _ fun kind => ⟨kind, rfl⟩,
    fun g was => was.setFile (.inl rfl)⟩ ?_
  have gone := kept { s.file f with ref := 0, type := .none } fun kind => by cases kind
  have stays := fun g (was : Bare s g) => was.setFile (f := f) (h := { s.file f with ref := 0, type := .none })
    (.inr (.inl rfl))
  unfold Bare at bare
  cases kind : (s.file f).type with
  | none => exact ⟨intact.close, rfl, gone, stays⟩
  | pipe =>
      refine outcome_post (Still.sound (pipeclose_quiet (still_quiet _ _) _ _) intact.close) ?_
      rintro _ s' ⟨intact', fs, file⟩
      refine ⟨intact', fs, ?_, fun g was => ?_⟩
      · rw [file]
        exact gone
      · unfold Bare
        rw [file]
        exact stays g was
  | inode => simp [kind] at bare
  | device => simp [kind] at bare

theorem filealloc_sound (intact : Intact s v) (tidy : (books s).Tidy) :
    outcome filealloc (fun got s' => Intact s' v ∧ s'.fs = s.fs ∧ (books s').Tidy ∧
      (∀ g, (s'.file g).type = (s.file g).type ∧ (s'.file g).ip = (s.file g).ip) ∧
      ∀ f ∈ got, (s'.file f).type = .none)
      (fun _ _ => True) s := by
  unfold filealloc
  rw [outcome_bind, outcome_get]
  cases free : (List.finRange NFILE).find? fun f => decide ((s.file f).ref = 0) with
  | none => exact ⟨intact, rfl, tidy, fun _ => ⟨rfl, rfl⟩, fun _ none => by cases none⟩
  | some f =>
      have unused : (s.file f).ref = 0 := by simpa using List.find?_some free
      have none : (s.file f).type = .none := tidy f unused
      have kept : ∀ g, (Function.update s.file f { s.file f with ref := 1 } g).type = (s.file g).type ∧
          (Function.update s.file f { s.file f with ref := 1 } g).ip = (s.file g).ip := by
        intro g
        by_cases same : g = f
        · subst same
          simp
        · simp [same]
      refine ⟨intact.setFile fun kind => ⟨kind, rfl, (intact.files f kind).off, id⟩, rfl, fun g zero => ?_, kept,
        fun g got => ?_⟩
      · by_cases same : g = f
        · subst same
          change (Function.update s.file g _ g).ref = 0 at zero
          simp at zero
        · change (Function.update s.file f _ g).ref = 0 at zero
          rw [Function.update_of_ne same] at zero
          exact (kept g).1.trans (tidy g zero)
      · cases got
        exact (kept f).1.trans none

theorem Intact.pipe (intact : Intact s v) {h : File} (kind : h.type = .pipe) :
    Intact { s with file := Function.update s.file f h } v :=
  intact.setFile fun inode => by rw [kind] at inode; cases inode

/-- Files without inode are closed, as on the exits of `pipealloc` and `sys_pipe`. -/
theorem closeBare_sound {α : Type} {next : KernelM Journal α} {post : α → State Journal → Prop}
    (intact : Intact s v) (bare : Bare s f)
    (rest : ∀ s', Intact s' v → (∀ g, Bare s g → Bare s' g) → outcome next post (fun _ _ => True) s') :
    outcome (do
      fileclose f
      next) post (fun _ _ => True) s := by
  refine outcome_seq (fileclose_bare intact bare) ?_
  rintro _ s' ⟨intact', -, -, stays⟩
  exact rest s' intact' stays

theorem pipeallocBad_sound (f0 f1 : Option FileId) (intact : Intact s v) (bare0 : ∀ f ∈ f0, Bare s f)
    (bare1 : ∀ f ∈ f1, Bare s f) :
    outcome (pipeallocBad f0 f1) (fun got s' => got = none ∧ Intact s' v) (fun _ _ => True) s := by
  have second : ∀ s', Intact s' v → (∀ f ∈ f1, Bare s' f) → outcome (pipeallocBad none f1)
      (fun got s' => got = none ∧ Intact s' v) (fun _ _ => True) s' := by
    intro s' intact' bare
    cases f1 with
    | none => exact ⟨rfl, intact'⟩
    | some f => exact closeBare_sound intact' (bare f rfl) fun s'' intact'' _ => ⟨rfl, intact''⟩
  cases f0 with
  | none => exact second s intact bare1
  | some f =>
      change outcome (fileclose f >>= fun _ => pipeallocBad none f1) _ _ _
      refine closeBare_sound intact (bare0 f rfl) fun s' intact' stays => ?_
      exact second s' intact' fun g is => stays g (bare1 g is)

theorem pipealloc_sound (intact : Intact s v) (tidy : (books s).Tidy) :
    outcome pipealloc (fun got s' => Intact s' v ∧ ∀ f ∈ got, Bare s' f.1 ∧ Bare s' f.2)
      (fun _ _ => True) s := by
  have bad : ∀ f0 f1 s', Intact s' v → (∀ f ∈ f0, Bare s' f) → (∀ f ∈ f1, Bare s' f) →
      outcome (pipeallocBad f0 f1) (fun got s' => Intact s' v ∧ ∀ f ∈ got, Bare s' f.1 ∧ Bare s' f.2)
        (fun _ _ => True) s' := by
    intro f0 f1 s' intact' bare0 bare1
    refine outcome_post (pipeallocBad_sound f0 f1 intact' bare0 bare1) ?_
    rintro _ s'' ⟨rfl, intact''⟩
    exact ⟨intact'', fun _ none => by cases none⟩
  unfold pipealloc
  refine outcome_seq (filealloc_sound intact tidy) ?_
  rintro got s₁ ⟨intact₁, -, tidy₁, -, none₁⟩
  cases got with
  | none => exact bad _ _ s₁ intact₁ (fun _ none => by cases none) fun _ none => by cases none
  | some f0 =>
      refine outcome_seq (filealloc_sound intact₁ tidy₁) ?_
      rintro got s₂ ⟨intact₂, -, -, types₂, none₂⟩
      have bare0 : Bare s₂ f0 := .inl ((types₂ f0).1.trans (none₁ f0 rfl))
      have only0 : ∀ f ∈ some f0, Bare s₂ f := fun f is => Option.some.inj is ▸ bare0
      cases got with
      | none => exact bad _ _ s₂ intact₂ only0 fun _ none => by cases none
      | some f1 =>
          have bare1 : Bare s₂ f1 := .inl (none₂ f1 rfl)
          refine outcome_seq (Still.sound (still_vm _) intact₂) ?_
          rintro page s₃ ⟨intact₃, -, file⟩
          have same : ∀ g, Bare s₂ g → Bare s₃ g := fun g was => by
            unfold Bare
            rw [file]
            exact was
          cases page with
          | none =>
              exact bad _ _ s₃ intact₃ (fun f is => same f (only0 f is)) fun f is =>
                same f (Option.some.inj is ▸ bare1)
          | some page =>
              let opened : Pipe :=
                { s₃.pipe page with readopen := true, writeopen := true, nwrite := 0, nread := 0 }
              have intact₄ : Intact { s₃ with pipe := Function.update s₃.pipe page opened } v :=
                intact₃.congr rfl fun g kind => ⟨kind, rfl, (intact₃.files g kind).off, id⟩
              refine ⟨(intact₄.pipe rfl).pipe rfl, fun f is => ?_⟩
              cases is
              exact ⟨((same f0 bare0).setFile (.inr (.inr rfl))).setFile (.inr (.inr rfl)),
                ((same f1 bare1).setFile (.inr (.inr rfl))).setFile (.inr (.inr rfl))⟩

theorem sysPipe_sound (intact : Intact s v) (settled : Settled (books s)) (fdarray : Nat) :
    Sound (sysPipe p fdarray) s := by
  unfold Sound sysPipe
  refine outcome_seq (pipealloc_sound intact settled.owes.tidy) ?_
  rintro got s₁ ⟨intact₁, bare⟩
  cases got with
  | none => exact ⟨v, intact₁⟩
  | some ends =>
      obtain ⟨rf, wf⟩ := ends
      have both : ∀ s', Intact s' v → s'.file = s₁.file → outcome (do
          fileclose rf
          fileclose wf
          return (-1 : Int)) (fun _ s' => ∃ v', Intact s' v') (fun _ _ => True) s' := by
        intro s' intact' file
        have same : ∀ g, Bare s₁ g → Bare s' g := fun g was => by
          unfold Bare
          rw [file]
          exact was
        refine closeBare_sound intact' (same rf (bare _ rfl).1) fun s₅ intact₅ stays => ?_
        refine closeBare_sound intact₅ (stays wf (same wf (bare _ rfl).2)) fun s₆ intact₆ _ => ?_
        exact ⟨v, intact₆⟩
      refine outcome_seq (Still.sound (still_fdalloc p rf) intact₁) ?_
      rintro fd0 s₂ ⟨intact₂, -, file₂⟩
      cases fd0 with
      | none => exact both s₂ intact₂ file₂
      | some fd0 =>
          refine outcome_seq (Still.sound (still_fdalloc p wf) intact₂) ?_
          rintro fd1 s₃ ⟨intact₃, -, file₃⟩
          cases fd1 with
          | none =>
              refine outcome_seq (Still.sound (still_setOfile p fd0 none) intact₃) ?_
              rintro _ s₄ ⟨intact₄, -, file₄⟩
              exact both s₄ intact₄ (file₄.trans (file₃.trans file₂))
          | some fd1 =>
              have undo : ∀ second s', Intact s' v → s'.file = s₁.file → outcome (do
                  if second = true then return (0 : Int)
                  setOfile p fd0 none
                  setOfile p fd1 none
                  fileclose rf
                  fileclose wf
                  return (-1 : Int)) (fun _ s' => ∃ v', Intact s' v') (fun _ _ => True) s' := by
                intro second s' intact' file
                rw [outcome_ite]
                refine ⟨fun _ => ⟨v, intact'⟩, fun _ => ?_⟩
                refine outcome_seq (Still.sound (still_setOfile p fd0 none) intact') ?_
                rintro _ s₅ ⟨intact₅, -, file₅⟩
                refine outcome_seq (Still.sound (still_setOfile p fd1 none) intact₅) ?_
                rintro _ s₆ ⟨intact₆, -, file₆⟩
                exact both s₆ intact₆ (file₆.trans (file₅.trans file))
              rw [outcome_bind]
              refine proc_step ?_
              refine outcome_seq (Still.sound (still_vm _) intact₃) ?_
              rintro first s₄ ⟨intact₄, -, file₄⟩
              have file := file₄.trans (file₃.trans file₂)
              rw [outcome_ite]
              refine ⟨fun _ => ?_, fun _ => undo false s₄ intact₄ file⟩
              refine outcome_seq (Still.sound (still_vm _) intact₄) ?_
              rintro second s₅ ⟨intact₅, -, file₅⟩
              exact undo second s₅ intact₅ (file₅.trans file)

end Files

section Contents

variable {s : State Journal} {v : Volume} {f : FileId} {p : Pid}

/-- The log counts operations; the blocks stay. -/
theorem Intact.store (intact : Intact s v) {fs' : JState} (sb : fs'.sb = s.fs.sb)
    (inode : fs'.inode = s.fs.inode) (block : fs'.store.block = s.fs.store.block) :
    Intact { s with fs := fs' } v :=
  intact.run (intact.good.store sb inode block) (.refl _ _) ((Over.refl intact.good.rep).table inode)

theorem beginOp_next {α : Type} {next : KernelM Journal α} {post : α → State Journal → Prop}
    {fail : Halt → State Journal → Prop}
    (rest : outcome next post fail { s with fs := Fs.opened s.fs }) :
    outcome (do
      fs Fs.beginOp
      next) post fail s := rest

theorem endOp_next {α : Type} {next : KernelM Journal α} {post : α → State Journal → Prop}
    {fail : Halt → State Journal → Prop} (intact : Intact s v)
    (rest : ∀ fs', Intact { s with fs := fs' } v → outcome next post fail { s with fs := fs' }) :
    outcome (do
      fs Fs.endOp
      next) post fail s := rest _ (intact.store rfl rfl rfl)

theorem endOp_sound {α : Type} (intact : Intact s v) (value : α) : Sound (do
      fs Fs.endOp
      return value) s := endOp_next intact fun _ intact' => ⟨v, intact'⟩

theorem fsInode_next {α : Type} {k : Slot} {next : Fs.Inode → KernelM Journal α}
    {post : α → State Journal → Prop} {fail : Halt → State Journal → Prop}
    (rest : outcome (next (s.fs.inode k)) post fail s) :
    outcome (fs (Fs.inode k) >>= next) post fail s := rest

/-- An inode in use is locked. -/
theorem ilock_intact (intact : Intact s v) {k : Slot} (used : 0 < (s.fs.inode k).ref) :
    outcome (fs (Fs.ilock k)) (fun _ s' => Intact s' v ∧ s'.file = s.file ∧
      Loaded s'.fs k (s.fs.inode k).inum ∧ (∀ j i, Loaded s.fs j i → Loaded s'.fs j i) ∧
      Over s.fs.inode [] s'.fs) (fun _ _ => True) s := by
  refine fs_step (Fs.lock_spec intact.good (Over.refl intact.good.rep) ⟨used, rfl⟩) ?_
  rintro _ fs' ⟨good, keeps, loaded, -⟩
  exact ⟨intact.run good (.refl _ _) keeps.atop, rfl, loaded, keeps.loaded, keeps.atop⟩

theorem iunlock_intact (intact : Intact s v) {k : Slot} (used : 0 < (s.fs.inode k).ref) :
    outcome (fs (Fs.iunlock k)) (fun _ s' => Intact s' v ∧ s'.file = s.file ∧
      s'.fs.store = s.fs.store ∧ (∀ j i, Loaded s.fs j i → Loaded s'.fs j i)) (fun _ _ => True) s := by
  refine fs_step (Fs.unlock_spec intact.good (Over.refl intact.good.rep) used) ?_
  rintro _ fs' ⟨good, keeps, store⟩
  exact ⟨intact.run good (.refl _ _) keeps.atop, rfl, store, keeps.loaded⟩

theorem Intact.advance (intact : Intact s v) (r : Nat) :
    Intact { s with file := Function.update s.file f { s.file f with off := ((s.file f).off + r) % 2 ^ 32 } } v :=
  intact.setFile fun kind => ⟨kind, rfl, Nat.mod_lt _ (by decide), id⟩

theorem asUint_lt (n : Int) : asUint n < 2 ^ 32 := by
  unfold asUint
  omega

/-- A read leaves the whole state alone. -/
theorem readi_intact (intact : Intact s v) {k : Slot} {i : Nat} (loaded : Loaded s.fs k i)
    (accepts : Nat → Nat → Bool) (off : Nat) {n : Nat} (count : n < 2 ^ 32) :
    outcome (fs (Fs.readi k accepts off n)) (fun _ s' => s' = s) (fun _ _ => True) s := by
  refine fs_step (Fs.read_spec intact.good.rep intact.good.owned loaded
    (intact.whole i (loaded.live intact.good.rep)) accepts off count) ?_
  rintro _ fs' rfl
  rfl

theorem fileread_sound (intact : Intact s v) (addr : Nat) (n device : Int) :
    Sound (fileread p f addr n device) s := by
  unfold Sound fileread
  rw [outcome_bind]
  refine file_step ?_
  rw [outcome_ite]
  refine ⟨fun _ => ⟨v, intact⟩, fun _ => ?_⟩
  cases kind : (s.file f).type with
  | none => trivial
  | pipe =>
      refine outcome_post (Still.sound (piperead_quiet (still_quiet _ _) p _ addr n) intact) ?_
      rintro _ s' ⟨intact', -⟩
      exact ⟨v, intact'⟩
  | device =>
      dsimp only
      rw [outcome_ite]
      exact ⟨fun _ => ⟨v, intact⟩, fun _ => ⟨v, intact⟩⟩
  | inode =>
      have usable := intact.files f kind
      refine outcome_seq (ilock_intact intact usable.used) ?_
      rintro _ s₁ ⟨intact₁, file₁, loaded₁, -, -⟩
      rw [outcome_bind]
      refine proc_step ?_
      rw [outcome_bind, outcome_get]
      refine outcome_seq (readi_intact intact₁ loaded₁ _ _ (asUint_lt n)) ?_
      rintro ⟨r, bytes⟩ _ rfl
      refine outcome_seq (Still.sound (still_vm _) intact₁) ?_
      rintro _ s₂ ⟨intact₂, fs₂, -⟩
      have finish : ∀ s', Intact s' v → s'.fs = s₂.fs → outcome (do
          fs (Fs.iunlock (s.file f).ip)
          return some r) (fun _ s' => ∃ v', Intact s' v') (fun _ _ => True) s' := by
        intro s' intact' same
        have used : 0 < (s'.fs.inode (s.file f).ip).ref := by
          rw [same, fs₂]
          exact loaded₁.1
        refine outcome_seq (iunlock_intact intact' used) ?_
        rintro _ s'' ⟨intact'', -⟩
        exact ⟨v, intact''⟩
      rw [outcome_ite]
      refine ⟨fun _ => ?_, fun _ => finish s₂ intact₂ rfl⟩
      rw [outcome_bind]
      exact modifyFile_step (finish _ (intact₂.advance _) rfl)

theorem sysRead_sound (intact : Intact s v) (fd : Int) (addr : Nat) (n device : Int) :
    Sound (sysRead p fd addr n device) s := by
  unfold Sound sysRead
  refine outcome_seq (Still.sound (still_argfd p fd) intact) ?_
  rintro got s₁ ⟨intact₁, -⟩
  cases got with
  | none => exact ⟨v, intact₁⟩
  | some at_ => exact fileread_sound intact₁ addr n device

/-- The file is open for writing on an inode. -/
def Writes (s : State Journal) (f : FileId) : Prop :=
  (s.file f).type = .inode ∧ (s.file f).writable = true

/-- One transaction of `filewrite`. -/
theorem writeChunk_intact (intact : Intact s v) (writes : Writes s f)
    (source : Nat → Nat → List UInt8 × Bool) {n : Nat} (count : n < 2 ^ 32) {i : Nat}
    (loaded : Loaded s.fs (s.file f).ip i) :
    outcome (fs (Fs.writei (s.file f).ip source (s.file f).off n)) (fun _ s' => ∃ v', Intact s' v' ∧
      s'.file = s.file ∧ Loaded s'.fs (s.file f).ip i) (fun _ _ => True) s := by
  have usable := intact.files f writes.1
  have plain := usable.plain writes.2
  rw [loaded.2.2] at plain
  refine fs_step (Fs.write_spec (Held s.fs.inode) intact.good (Over.refl intact.good.rep) loaded plain
    source usable.off count) ?_
  rintro _ fs' ⟨v', good, evolves, keeps⟩
  exact ⟨v', intact.run good evolves keeps.atop, rfl, keeps.loaded _ _ loaded⟩

theorem filewriteFrom_sound (addr n fuel i : Nat) (intact : Intact s v) (writes : Writes s f) :
    Sound (filewriteFrom p f addr n fuel i) s := by
  induction fuel generalizing s v i with
  | zero => exact ⟨v, intact⟩
  | succ fuel ih =>
      unfold Sound filewriteFrom
      rw [outcome_ite]
      refine ⟨fun _ => ?_, fun _ => ⟨v, intact⟩⟩
      refine beginOp_next ?_
      have intact₀ : Intact { s with fs := Fs.opened s.fs } v := intact.store rfl rfl rfl
      have usable := intact₀.files f writes.1
      rw [outcome_bind]
      refine file_step ?_
      refine outcome_seq (ilock_intact intact₀ usable.used) ?_
      rintro _ s₁ ⟨intact₁, file₁, loaded₁, -, -⟩
      have writes₁ : Writes s₁ f := by
        unfold Writes
        rw [file₁]
        exact writes
      dsimp only at file₁ loaded₁ ⊢
      rw [← file₁] at loaded₁ ⊢
      rw [outcome_bind, outcome_get, outcome_bind]
      refine proc_step ?_
      rw [outcome_bind]
      refine file_step ?_
      have small : min (n - i) writeMax < 2 ^ 32 :=
        Nat.lt_of_le_of_lt (Nat.min_le_right ..) (by decide)
      refine outcome_seq (writeChunk_intact intact₁ writes₁ _ small loaded₁) ?_
      rintro r s₂ ⟨v₂, intact₂, file₂, loaded₂⟩
      have finish : ∀ s', Intact s' v₂ → s'.fs = s₂.fs → Writes s' f → outcome (do
          fs (Fs.iunlock (s₁.file f).ip)
          fs Fs.endOp
          if r ≠ ((min (n - i) writeMax : Nat) : Int) then return i
          filewriteFrom p f addr n fuel (i + min (n - i) writeMax))
            (fun _ s' => ∃ v', Intact s' v') (fun _ _ => True) s' := by
        intro s' intact' same writes'
        have used : 0 < (s'.fs.inode (s₁.file f).ip).ref := by
          rw [same]
          exact loaded₂.1
        refine outcome_seq (iunlock_intact intact' used) ?_
        rintro _ s₃ ⟨intact₃, file₃, -, -⟩
        refine endOp_next intact₃ fun fs' intact₄ => ?_
        rw [outcome_ite]
        refine ⟨fun _ => ⟨v₂, intact₄⟩, fun _ => ih _ intact₄ ?_⟩
        unfold Writes
        dsimp only
        rw [file₃]
        exact writes'
      have writes₂ : Writes s₂ f := by
        unfold Writes
        rw [file₂]
        exact writes₁
      rw [outcome_ite]
      refine ⟨fun _ => ?_, fun _ => finish s₂ intact₂ rfl writes₂⟩
      rw [outcome_bind]
      refine modifyFile_step (finish _ (intact₂.advance _) rfl ?_)
      unfold Writes
      dsimp only
      rw [Function.update_self]
      exact writes₂

theorem filewrite_sound (intact : Intact s v) (addr : Nat) (n device : Int) :
    Sound (filewrite p f addr n device) s := by
  unfold Sound filewrite
  rw [outcome_bind]
  refine file_step ?_
  rw [outcome_ite]
  refine ⟨fun _ => ⟨v, intact⟩, fun writable => ?_⟩
  cases kind : (s.file f).type with
  | none => trivial
  | pipe =>
      refine outcome_post (Still.sound (pipewriteFrom_quiet (still_quiet _ _) p _ addr _ _) intact) ?_
      rintro _ s' ⟨intact', -⟩
      exact ⟨v, intact'⟩
  | device =>
      dsimp only
      rw [outcome_ite]
      exact ⟨fun _ => ⟨v, intact⟩, fun _ => ⟨v, intact⟩⟩
  | inode =>
      refine outcome_seq (filewriteFrom_sound addr n.toNat n.toNat 0 intact ⟨kind, by simpa using writable⟩) ?_
      intro _ s' sound
      exact sound

theorem sysWrite_sound (intact : Intact s v) (fd : Int) (addr : Nat) (n device : Int) :
    Sound (sysWrite p fd addr n device) s := by
  unfold Sound sysWrite
  refine outcome_seq (Still.sound (still_argfd p fd) intact) ?_
  rintro got s₁ ⟨intact₁, -⟩
  cases got with
  | none => exact ⟨v, intact₁⟩
  | some at_ => exact filewrite_sound intact₁ addr n device

end Contents

section Paths

variable {s : State Journal} {v : Volume} {p : Pid}

theorem cwd_next {α : Type} {next : Slot → KernelM Journal α} {post : α → State Journal → Prop}
    (owes : (books s).Owes 0 0)
    (rest : ∀ ip, (s.proc p).cwd = some ip → 0 < (s.fs.inode ip).ref →
      outcome (next ip) post (fun _ _ => True) s) :
    outcome (cwd p >>= next) post (fun _ _ => True) s := by
  unfold cwd
  rw [outcome_bind, outcome_bind]
  refine proc_step ?_
  cases home : (s.proc p).cwd with
  | none => trivial
  | some ip => exact rest ip home (owes.cwd_used (Int.le_refl 0) home)

/-- A call on paths keeps the volume when its part in the file system does. -/
theorem fsCall_sound {α : Type} {run : Slot → Fs.FsM Journal α} (intact : Intact s v)
    (settled : Settled (books s)) (answer : α → Int)
    (holds : ∀ ip, 0 < (s.fs.inode ip).ref → outcome (run ip) (fun _ fs' => ∃ v', Good fs' v' ∧
      v.Evolves (Held s.fs.inode) v' ∧ Over s.fs.inode [] fs') (fun _ _ => True) s.fs) :
    Sound (do return answer (← fs (run (← cwd p)))) s := by
  unfold Sound
  refine cwd_next settled.owes fun ip _ used => ?_
  rw [outcome_bind]
  refine fs_step (holds ip used) ?_
  rintro value fs' ⟨v', good, evolves, atop⟩
  exact ⟨v', intact.run good evolves atop⟩

theorem same_fs (intact : Intact s v) : ∃ v', Good s.fs v' ∧ v.Evolves (Held s.fs.inode) v' ∧
    Over s.fs.inode [] s.fs :=
  ⟨v, intact.good, .refl _ _, Over.refl intact.good.rep⟩

theorem sysLink_sound (intact : Intact s v) (settled : Settled (books s)) (old new : Option Path) :
    Sound (sysLink p old new) s := by
  refine fsCall_sound intact settled asResult fun ip used => ?_
  cases old with
  | none => exact same_fs intact
  | some old =>
      cases new with
      | none => exact same_fs intact
      | some new =>
          refine outcome_mono (Fs.sysLink_spec ip old new intact.good
            (Over.refl intact.good.rep) used (fun never : False => never.elim)) ?_ fun _ _ _ => trivial
          rintro r fs' ⟨v', ended, -⟩
          exact ⟨v', ended.good, ended.evolves, ended.atop⟩

theorem sysUnlink_sound (intact : Intact s v) (settled : Settled (books s)) (path : Option Path) :
    Sound (sysUnlink p path) s := by
  refine fsCall_sound intact settled asResult fun ip used => ?_
  cases path with
  | none => exact same_fs intact
  | some path =>
      refine outcome_mono (Fs.sysUnlink_spec ip path intact.good
        (Over.refl intact.good.rep) used (fun never : False => never.elim)) ?_ fun _ _ _ => trivial
      rintro r fs' ⟨v', ended, -⟩
      exact ⟨v', ended.good, ended.evolves, ended.atop⟩

theorem sysMake_sound (intact : Intact s v) (ip : Slot) (used : 0 < (s.fs.inode ip).ref)
    (path : Option Path) (type major minor : Int16) (typed : type ≠ 0) :
    outcome (Fs.sysMake ip path type major minor) (fun _ fs' => ∃ v', Good fs' v' ∧
      v.Evolves (Held s.fs.inode) v' ∧ Over s.fs.inode [] fs') (fun _ _ => True) s.fs := by
  cases path with
  | none =>
      have same : Over s.fs.inode [] s.fs := Over.refl intact.good.rep
      exact ⟨v, intact.good.store rfl rfl rfl, .refl _ _, same.table rfl⟩
  | some path =>
      refine outcome_mono (Fs.sysMake_spec ip path type major minor intact.good
        (Over.refl intact.good.rep) used typed (fun never : False => never.elim)) ?_ fun _ _ _ => trivial
      rintro r fs' ⟨v', ended, -⟩
      exact ⟨v', ended.good, ended.evolves, ended.atop⟩

theorem sysMkdir_sound (intact : Intact s v) (settled : Settled (books s)) (path : Option Path) :
    Sound (sysMkdir p path) s :=
  fsCall_sound intact settled asResult fun ip used =>
    sysMake_sound intact ip used path T_DIR 0 0 (by decide)

theorem sysMknod_sound (intact : Intact s v) (settled : Settled (books s)) (path : Option Path)
    (major minor : Int16) : Sound (sysMknod p path major minor) s :=
  fsCall_sound intact settled asResult fun ip used =>
    sysMake_sound intact ip used path T_DEVICE major minor (by decide)

theorem sysChdir_sound (intact : Intact s v) (settled : Settled (books s)) (path : Option Path) :
    Sound (sysChdir p path) s := by
  unfold Sound sysChdir
  refine cwd_next settled.owes fun ip home used => ?_
  rw [outcome_bind]
  cases path with
  | none => exact ⟨v, intact.store rfl rfl rfl⟩
  | some path =>
      refine fs_step (Fs.sysChdir_spec ip path intact.good (Over.refl intact.good.rep) used
        (fun never : False => never.elim)) ?_
      rintro r fs' ⟨v', ends⟩
      cases r with
      | none => exact ⟨v', intact.run ends.1.good ends.1.evolves ends.1.atop⟩
      | some target =>
          have ended := ends.1
          have lost := intact.lose (k := ip) (fun f kind at_ => settled.owes.file_beside_cwd (f := f)
            (fun _ => Int.le_refl 0) (Int.le_refl 0) home (by simp [Entry.ofInode, books, File.entry, kind]) at_)
            ended.good ended.evolves ended.atop
          exact ⟨v', lost.congr rfl fun g kind => ⟨kind, rfl, (lost.files g kind).off, id⟩⟩

end Paths

section Opening

variable {s s' : State Journal} {v v' : Volume} {p : Pid} {f : FileId} {ip : Slot} {i : Nat}

/-- Besides the open files, the call holds a reference of its own. -/
def Spare (s : State Journal) (ip : Slot) : Prop :=
  ∀ g, (s.file g).type = .inode → (s.file g).ip = ip → 2 ≤ (s.fs.inode ip).ref

theorem Spare.congr (spare : Spare s ip) (fs : s'.fs = s.fs)
    (files : ∀ g, (s'.file g).type = .inode → (s.file g).type = .inode ∧ (s'.file g).ip = (s.file g).ip) :
    Spare s' ip := by
  intro g kind at_
  obtain ⟨was, same⟩ := files g kind
  rw [fs]
  exact spare g was (same ▸ at_)

/-- The call gives its reference back. -/
theorem drop_intact (intact : Intact s v) (loaded : Loaded s.fs ip i) (spare : Spare s ip) :
    outcome (fs (Fs.iunlockput ip)) (fun _ s' => ∃ v', Intact s' v' ∧ s'.file = s.file) (fun _ _ => True) s := by
  have atop : Over (lent s.fs.inode ip) [ip] s.fs := (Over.refl intact.good.rep).lend loaded.1
  refine fs_step (Fs.drop_spec intact.good atop loaded List.not_mem_nil) ?_
  rintro _ fs' ⟨v', good, atop', -, dropped, -⟩
  exact ⟨v', intact.lose spare good dropped.evolves atop', rfl⟩

theorem openBad_sound (intact : Intact s v) (loaded : Loaded s.fs ip i) (spare : Spare s ip) :
    Sound (openBad ip) s := by
  unfold Sound openBad
  refine outcome_seq (drop_intact intact loaded spare) ?_
  rintro _ s₁ ⟨v₁, intact₁, -⟩
  exact endOp_sound intact₁ _

/-- What `openInode` leaves. -/
def Opened (omode : Nat) (s : State Journal) (v : Volume) (got : Option Slot) : Prop :=
  ∀ ip ∈ got, Spare s ip ∧ ∃ i, Loaded s.fs ip i ∧ (omode ≠ 0 → (v.node i).type ≠ T_DIR)

theorem spare_over (intact : Intact s v) {fs' : JState} (atop : Over s.fs.inode [ip] fs') :
    Spare { s with fs := fs' } ip := by
  intro g kind at_
  have used := (intact.files g kind).used
  have ref := atop.ref ip
  rw [List.count_singleton_self] at ref
  change (s.file g).ip = ip at at_
  rw [at_] at used
  dsimp only
  omega

theorem hasFlag_some {omode flag : Nat} (flagged : hasFlag omode flag = true) : omode ≠ 0 := by
  rintro rfl
  simp [hasFlag] at flagged

theorem openInode_sound (intact : Intact s v) (owes : (books s).Owes 0 0) (path : Path) (omode : Nat) :
    outcome (openInode p path omode) (fun got s' => ∃ v', Intact s' v' ∧ s'.file = s.file ∧
      Opened omode s' v' got) (fun _ _ => True) s := by
  unfold openInode
  rw [outcome_ite]
  refine ⟨fun _ => ?_, fun _ => ?_⟩
  · refine cwd_next owes fun home _ used => ?_
    refine fs_step (Fs.create_spec home path T_FILE 0 0 intact.good (Over.refl intact.good.rep) (fun _ => used)
      (by decide) (fun never : False => never.elim)) ?_
    rintro got fs' ⟨v', answer, made⟩
    have handle := made.handle
    cases got with
    | none =>
        cases answer with
        | some i => exact handle.elim
        | none => exact ⟨v', intact.run made.good made.evolves handle, rfl, fun _ none => by cases none⟩
    | some ip =>
        cases answer with
        | none => exact handle.elim
        | some i =>
            obtain ⟨atop, loaded, plain⟩ := handle
            refine ⟨v', intact.run made.good made.evolves atop, rfl, fun at_ is => ?_⟩
            cases is
            exact ⟨spare_over intact atop, i, loaded, fun _ => plain rfl⟩
  · refine cwd_next owes fun home _ used => ?_
    rw [outcome_bind]
    refine fs_step (Fs.namei_spec home path intact.good (Over.refl intact.good.rep) used
      (fun never : False => never.elim)) ?_
    rintro got fs₁ ⟨v₁, good₁, spares₁, arrived⟩
    cases got with
    | none => exact ⟨v₁, intact.run good₁ spares₁.evolves arrived.1, rfl, fun _ none => by cases none⟩
    | some ip =>
        obtain ⟨atop₁, i, here₁, -⟩ := arrived
        have intact₁ := intact.run good₁ spares₁.evolves atop₁
        rw [outcome_bind]
        refine fs_step (Fs.lock_spec good₁ atop₁ here₁) ?_
        rintro _ fs₂ ⟨good₂, keeps₂, loaded₂, -⟩
        have intact₂ := intact.run good₂ spares₁.evolves keeps₂.atop
        have spare := spare_over intact keeps₂.atop
        refine fsInode_next ?_
        dsimp only
        rw [good₂.rep.copy ip i loaded₂, outcome_ite]
        refine ⟨fun _ => ?_, fun plain => ⟨v₁, intact₂, rfl, fun at_ is => ?_⟩⟩
        · refine outcome_seq (drop_intact intact₂ loaded₂ spare) ?_
          rintro _ s₃ ⟨v₃, intact₃, file₃⟩
          exact ⟨v₃, intact₃, file₃, fun _ none => by cases none⟩
        · cases is
          exact ⟨spare, i, loaded₂, fun writes dir => plain ⟨dir, writes⟩⟩

/-- A file is attached to the inode the call holds. -/
theorem Intact.attach (intact : Intact s v) (loaded : Loaded s.fs ip i) {h : File}
    (kind : h.type = .inode → h.off < 2 ^ 32) (at_ : h.ip = ip)
    (plain : h.writable = true → (v.node i).type ≠ T_DIR) :
    Intact { s with file := Function.update s.file f h } v := by
  refine ⟨intact.good, intact.whole, fun g inode => ?_⟩
  by_cases same : g = f
  · subst same
    dsimp only at inode ⊢
    rw [Function.update_self] at inode ⊢
    subst at_
    refine ⟨loaded.1, loaded.2.1, kind inode, fun writes => ?_⟩
    rw [loaded.2.2]
    exact plain writes
  · dsimp only at inode ⊢
    rw [Function.update_of_ne same] at inode ⊢
    exact intact.files g inode

/-- The end of `sys_open` once the file is attached. -/
theorem openEnd_sound (intact : Intact s v) (loaded : Loaded s.fs ip i) (truncates : Prop)
    [Decidable truncates] (value : Int) : Sound (do
      if truncates then fs (Fs.itrunc ip)
      fs (Fs.iunlock ip)
      fs Fs.endOp
      return value) s := by
  have finish : ∀ s₁ v₁, Intact s₁ v₁ → Loaded s₁.fs ip i → Sound (do
      fs (Fs.iunlock ip)
      fs Fs.endOp
      return value) s₁ := by
    intro s₁ v₁ intact₁ loaded₁
    refine outcome_seq (iunlock_intact intact₁ loaded₁.1) ?_
    rintro _ s₂ ⟨intact₂, -⟩
    exact endOp_sound intact₂ _
  unfold Sound
  rw [outcome_ite]
  refine ⟨fun _ => ?_, fun _ => finish s v intact loaded⟩
  rw [outcome_bind]
  refine fs_step (Fs.truncate_spec (Held s.fs.inode) intact.good (Over.refl intact.good.rep) loaded) ?_
  rintro _ fs' ⟨v', good, evolves, keeps⟩
  exact finish _ v' (intact.run good evolves keeps.atop) (keeps.loaded ip i loaded)

theorem sysOpen_sound (intact : Intact s v) (settled : Settled (books s)) (path : Option Path) (omode : Nat) :
    Sound (sysOpen p path omode) s := by
  unfold Sound sysOpen
  cases path with
  | none => exact ⟨v, intact⟩
  | some path =>
      refine beginOp_next ?_
      have intact₀ : Intact { s with fs := Fs.opened s.fs } v := intact.store rfl rfl rfl
      have owes₀ : (books { s with fs := Fs.opened s.fs }).Owes 0 0 :=
        ⟨settled.owes.files, settled.owes.inodes, settled.owes.tidy⟩
      refine outcome_seq (openInode_sound intact₀ owes₀ path omode) ?_
      rintro got s₁ ⟨v₁, intact₁, file₁, opened⟩
      cases got with
      | none => exact endOp_sound intact₁ _
      | some ip =>
          obtain ⟨spare₁, i, loaded₁, plain⟩ := opened ip rfl
          refine fsInode_next ?_
          rw [outcome_ite]
          refine ⟨fun _ => openBad_sound intact₁ loaded₁ spare₁, fun _ => ?_⟩
          have tidy : (books s₁).Tidy := by
            intro f
            change (s₁.file f).ref = 0 → (s₁.file f).type = .none
            rw [file₁]
            exact settled.owes.tidy f
          refine outcome_seq (filealloc_sound intact₁ tidy) ?_
          rintro got s₂ ⟨intact₂, fs₂, -, files₂, fresh⟩
          have loaded₂ : Loaded s₂.fs ip i := fs₂ ▸ loaded₁
          have spare₂ : Spare s₂ ip := spare₁.congr fs₂ fun g kind => ⟨(files₂ g).1 ▸ kind, (files₂ g).2⟩
          cases got with
          | none => exact openBad_sound intact₂ loaded₂ spare₂
          | some f =>
              refine outcome_seq (Still.sound (still_fdalloc p f) intact₂) ?_
              rintro got s₃ ⟨intact₃, fs₃, file₃⟩
              have loaded₃ : Loaded s₃.fs ip i := fs₃ ▸ loaded₂
              have spare₃ : Spare s₃ ip := spare₂.congr fs₃ fun g kind => by
                rw [file₃] at kind ⊢
                exact ⟨kind, rfl⟩
              cases got with
              | none =>
                  have bare : Bare s₃ f := by
                    unfold Bare
                    rw [file₃]
                    exact .inl (fresh f rfl)
                  refine outcome_seq (fileclose_bare intact₃ bare) ?_
                  rintro _ s₄ ⟨intact₄, fs₄, files₄, -⟩
                  exact openBad_sound intact₄ (fs₄ ▸ loaded₃) (spare₃.congr fs₄ files₄)
              | some fd =>
                  have finish : ∀ h : File, (h.type = .inode → h.off < 2 ^ 32) → Sound (do
                      modifyFile f fun f =>
                        { f with ip
                                 readable := !hasFlag omode O_WRONLY
                                 writable := hasFlag omode O_WRONLY || hasFlag omode O_RDWR }
                      if hasFlag omode O_TRUNC ∧ (s₁.fs.inode ip).type = T_FILE then fs (Fs.itrunc ip)
                      fs (Fs.iunlock ip)
                      fs Fs.endOp
                      return (fd.val : Int)) { s₃ with file := Function.update s₃.file f h } := by
                    intro h off
                    unfold Sound
                    rw [outcome_bind]
                    refine modifyFile_step ?_
                    dsimp only
                    rw [Function.update_self, Function.update_idem]
                    have attached := intact₃.attach (f := f) (h := { h with
                      ip
                      readable := !hasFlag omode O_WRONLY
                      writable := hasFlag omode O_WRONLY || hasFlag omode O_RDWR }) loaded₃ off rfl
                    refine openEnd_sound (attached fun writes => plain ?_) loaded₃ _ _
                    rcases Bool.or_eq_true_iff.mp writes with flagged | flagged
                    · exact hasFlag_some flagged
                    · exact hasFlag_some flagged
                  rw [outcome_ite]
                  refine ⟨fun _ => ?_, fun _ => ?_⟩
                  · rw [outcome_bind]
                    refine modifyFile_step (finish _ fun kind => ?_)
                    cases kind
                  · rw [outcome_bind]
                    refine modifyFile_step (finish _ fun _ => ?_)
                    dsimp only
                    decide

end Opening

section Executing

variable {s : State Journal} {v : Volume} {p : Pid} {ip : Slot} {i : Nat}

theorem reads_still (intact : Intact s v) (loaded : Loaded s.fs ip i) :
    Reads (fun ⦃α : Type⦄ (run : KernelM Journal α) => Still s.fs s.file run) ip := by
  intro accepts off n count s' fs' file'
  have whole := intact.whole i (loaded.live intact.good.rep)
  have read := Fs.read_spec intact.good.rep intact.good.owned loaded whole accepts off count
  rw [← fs'] at read
  refine fs_step read ?_
  rintro _ fs₁ rfl
  exact ⟨fs', file'⟩

theorem execBad_sound (intact : Intact s v) (loaded : Loaded s.fs ip i) (spare : Spare s ip)
    (pagetable : Option Nat) (sz : Nat) : Sound (execBad pagetable sz (some ip)) s := by
  have release : ∀ s', Intact s' v → s'.fs = s.fs → s'.file = s.file → Sound (do
      fs (Fs.iunlockput ip)
      fs Fs.endOp
      return (-1 : Int)) s' := by
    intro s' intact' fs' file'
    have spare' : Spare s' ip := spare.congr fs' fun g kind => by
      rw [file'] at kind ⊢
      exact ⟨kind, rfl⟩
    exact openBad_sound intact' (fs' ▸ loaded) spare'
  unfold Sound execBad
  cases pagetable with
  | none => exact release s intact rfl rfl
  | some pagetable =>
      refine outcome_seq (Still.sound (still_vm _) intact) ?_
      rintro _ s₁ ⟨intact₁, fs₁, file₁⟩
      exact release s₁ intact₁ fs₁ file₁

/-- `exec` from the file it has found and locked on. -/
theorem execFrom_sound (intact : Intact s v) (loaded : Loaded s.fs ip i) (spare : Spare s ip)
    (path : Path) (argv : List (List UInt8)) : Sound (do
      let (r, bytes) ← fs (Fs.readi ip Fs.kernelAccepts 0 ELFHDR)
      if r ≠ (ELFHDR : Int) then return ← execBad none 0 (some ip)
      let elf := getElfhdr bytes
      if elf.magic ≠ ELF_MAGIC then return ← execBad none 0 (some ip)
      match ← vm (Vm.procPagetable (← proc p).trapframe) with
      | none => execBad none 0 (some ip)
      | some pagetable =>
          let (loaded, sz) ← execSegments pagetable ip elf.phnum (elf.phoff % 2 ^ 32) 0
          if !loaded then return ← execBad (some pagetable) sz (some ip)
          fs (Fs.iunlockput ip)
          fs Fs.endOp
          execStack p pagetable sz path elf.entry argv) s := by
  unfold Sound
  refine outcome_seq (readi_intact intact loaded _ _ (by decide)) ?_
  rintro ⟨r, bytes⟩ _ rfl
  dsimp only
  rw [outcome_ite]
  refine ⟨fun _ => execBad_sound intact loaded spare _ _, fun _ => ?_⟩
  rw [outcome_ite]
  refine ⟨fun _ => execBad_sound intact loaded spare _ _, fun _ => ?_⟩
  rw [outcome_bind]
  refine proc_step ?_
  refine outcome_seq (Still.sound (still_vm _) intact) ?_
  rintro got s₁ ⟨intact₁, fs₁, file₁⟩
  have loaded₁ : Loaded s₁.fs ip i := fs₁ ▸ loaded
  have spare₁ : Spare s₁ ip := spare.congr fs₁ fun g kind => by
    rw [file₁] at kind ⊢
    exact ⟨kind, rfl⟩
  cases got with
  | none => exact execBad_sound intact₁ loaded₁ spare₁ _ _
  | some pagetable =>
      refine outcome_seq (Still.sound (execSegments_quiet (still_quiet _ _) pagetable
        (reads_still intact₁ loaded₁) _ _ _) intact₁) ?_
      rintro ⟨done, sz⟩ s₂ ⟨intact₂, fs₂, file₂⟩
      have loaded₂ : Loaded s₂.fs ip i := fs₂ ▸ loaded₁
      have spare₂ : Spare s₂ ip := spare₁.congr fs₂ fun g kind => by
        rw [file₂] at kind ⊢
        exact ⟨kind, rfl⟩
      dsimp only
      rw [outcome_ite]
      refine ⟨fun _ => execBad_sound intact₂ loaded₂ spare₂ _ _, fun _ => ?_⟩
      refine outcome_seq (drop_intact intact₂ loaded₂ spare₂) ?_
      rintro _ s₃ ⟨v₃, intact₃, -⟩
      refine endOp_next intact₃ fun fs' intact₄ => ?_
      refine outcome_post (Still.sound (execStack_quiet (still_quiet _ _) p pagetable sz path _ argv)
        intact₄) ?_
      rintro _ s₅ ⟨intact₅, -⟩
      exact ⟨v₃, intact₅⟩

theorem exec_sound (intact : Intact s v) (owes : (books s).Owes 0 0) (path : Path)
    (argv : List (List UInt8)) : Sound (exec p path argv) s := by
  unfold Sound exec
  refine beginOp_next ?_
  have intact₀ : Intact { s with fs := Fs.opened s.fs } v := intact.store rfl rfl rfl
  have owes₀ : (books { s with fs := Fs.opened s.fs }).Owes 0 0 := ⟨owes.files, owes.inodes, owes.tidy⟩
  refine cwd_next owes₀ fun home _ used => ?_
  rw [outcome_bind]
  refine fs_step (Fs.namei_spec home path intact₀.good (Over.refl intact₀.good.rep) used
    (fun never : False => never.elim)) ?_
  rintro got fs₁ ⟨v₁, good₁, spares₁, arrived⟩
  cases got with
  | none => exact endOp_sound (intact₀.run good₁ spares₁.evolves arrived.1) _
  | some ip =>
      obtain ⟨atop₁, i, here₁, -⟩ := arrived
      rw [outcome_bind]
      refine fs_step (Fs.lock_spec good₁ atop₁ here₁) ?_
      rintro _ fs₂ ⟨good₂, keeps₂, loaded₂, -⟩
      exact execFrom_sound (intact₀.run good₂ spares₁.evolves keeps₂.atop) loaded₂
        (spare_over intact₀ keeps₂.atop) path argv

theorem sysExec_sound (intact : Intact s v) (settled : Settled (books s)) (path : Option Path)
    (args : Nat → Arg) : Sound (sysExec p path args) s := by
  unfold Sound sysExec
  cases path with
  | none => exact ⟨v, intact⟩
  | some path =>
      refine Still.then (collectArgs_quiet (still_quiet _ _) args _ _ _ _) (collectArgs_keeps args _ _ _ _) intact
        fun got s₁ intact₁ _ _ same => ?_
      obtain ⟨pages, argv⟩ := got
      have free : ∀ (s' : State Journal) v' (value : Int), Intact s' v' → Sound (do
          freeArgs pages
          return value) s' := by
        intro s' v' value intact'
        refine outcome_seq (Still.sound (freeArgs_quiet (still_quiet _ _) pages) intact') ?_
        rintro _ s'' ⟨intact'', -⟩
        exact ⟨v', intact''⟩
      cases argv with
      | none => exact free s₁ v _ intact₁
      | some argv =>
          have owes : (books s₁).Owes 0 0 := by
            rw [same]
            exact settled.owes
          refine outcome_seq (exec_sound intact₁ owes path argv) ?_
          rintro ret s₂ ⟨v₂, intact₂⟩
          exact free s₂ v₂ ret intact₂

end Executing

section Processes

variable {s : State Journal} {v : Volume} {p : Pid}

/-- The volume and the books of one run are looked at together. -/
theorem with_books {α : Type} {run : KernelM Journal α} {post post' : α → State Journal → Prop}
    (left : outcome run post (fun _ _ => True) s) (right : outcome run post' (fun _ _ => True) s) :
    outcome run (fun value after => post value after ∧ post' value after) (fun _ _ => True) s :=
  outcome_mono (outcome_and left right) (fun _ _ => id) fun _ _ _ => trivial

theorem modifyProc_next {α : Type} {change : Proc → Proc} {next : KernelM Journal α}
    {post : α → State Journal → Prop} (intact : Intact s v)
    (rest : ∀ s', Intact s' v → outcome next post (fun _ _ => True) s') :
    outcome (do
      modifyProc p change
      next) post (fun _ _ => True) s := by
  refine outcome_seq (Still.sound (still_modifyProc p change) intact) ?_
  rintro _ s' ⟨intact', -⟩
  exact rest s' intact'

theorem forkFile_intact (p np : Pid) (i : Nat) (intact : Intact s v) :
    outcome (forkFile p np i) (fun _ s' => Intact s' v) (fun _ _ => True) s := by
  unfold forkFile
  split
  · rw [outcome_bind]
    refine proc_step ?_
    split
    · refine outcome_seq (filedup_sound intact) ?_
      rintro _ s₁ ⟨intact₁, -⟩
      refine outcome_post (Still.sound (still_setOfile np _ _) intact₁) ?_
      rintro _ s₂ ⟨intact₂, -⟩
      exact intact₂
    · exact intact
  · exact intact

theorem fork_sound (intact : Intact s v) (settled : Settled (books s)) : Sound (fork p) s := by
  unfold Sound fork
  refine still_allocproc.then allocproc_allocates intact fun got s₁ intact₁ _ _ allocated => ?_
  cases got with
  | none => exact ⟨v, intact₁⟩
  | some np =>
      obtain ⟨unused, used⟩ := allocated
      have dead : ((books s).holder np).alive = false := by simp [Holder.alive, unused]
      have ready : Settled (books s₁) := by
        rw [used]
        exact settled.setState (by simp [Holder.alive, unused])
      have nothing : ∀ j : Fin NOFILE, ((books s₁).holder np).ofile j = none := by
        intro j
        rw [used, Books.setState, Books.setHolder_same]
        exact (settled.dormant np dead).1 j
      rw [outcome_bind]
      refine proc_step ?_
      rw [outcome_bind]
      refine proc_step ?_
      refine (still_vm _).then (vm_keeps _) intact₁ fun copied s₂ intact₂ _ _ same₂ => ?_
      rw [outcome_ite]
      refine ⟨fun _ => ?_, fun _ => ?_⟩
      · refine (still_modifyProc np _).then (modifyProc_keeps np fun _ => ?_) intact₂
          fun _ s₃ intact₃ _ _ same₃ => ?_
        · rfl
        rw [outcome_bind]
        refine proc_step ?_
        refine (still_vm _).then (vm_keeps _) intact₃ fun _ s₃' intact₃' _ _ same₃' => ?_
        rw [outcome_bind]
        refine outcome_post (loop_outcome (fun i state => Intact state v ∧ ∃ ofile,
          Midway (books s₁) np ofile 0 (books state) ∧
            ∀ j : Fin NOFILE, i ≤ j.val → ofile j = Option.none) NOFILE 0 s₃' ?_ ?_) ?_
        · refine ⟨intact₃', ((books s₁).holder np).ofile, ?_, fun j _ => nothing j⟩
          rw [same₃', same₃, same₂]
          exact Midway.start ready np
        · rintro i state _ _ ⟨now, ofile, mid, empty⟩
          exact with_books (forkFile_intact p np i now) (forkFile_midway p np i empty mid)
        · rintro _ s₄ ⟨intact₄, ofile, mid, -⟩
          refine cwd_next mid.owes fun dir _ used => ?_
          rw [outcome_bind]
          refine fs_step (Fs.idup_spec intact₄.good.rep ⟨used, rfl⟩) ?_
          rintro ip fs' ⟨-, rep, took⟩
          have intact₅ := intact₄.run ⟨rep, intact₄.good.owned, intact₄.good.neat⟩ (.refl _ _)
            (took.atop intact₄.good.rep)
          refine modifyProc_next intact₅ fun s₆ intact₆ => modifyProc_next intact₆ fun s₇ intact₇ => ?_
          exact modifyProc_next intact₇ fun s₈ intact₈ => ⟨v, intact₈⟩
      · refine outcome_seq (Still.sound (still_freeproc np) intact₂) ?_
        rintro _ s₃ ⟨intact₃, -⟩
        exact ⟨v, intact₃⟩

theorem exitFile_sound (p : Pid) (i : Nat) (intact : Intact s v) (owes : (books s).Owes 0 0) :
    Sound (exitFile p i) s := by
  unfold Sound exitFile
  split
  · rw [outcome_bind]
    refine proc_step ?_
    split
    · refine outcome_seq (fileclose_sound intact owes (fun _ => Int.le_refl 0) fun _ => Int.le_refl 0) ?_
      rintro _ s₁ ⟨v₁, intact₁⟩
      refine outcome_post (Still.sound (still_setOfile p _ _) intact₁) ?_
      rintro _ s₂ ⟨intact₂, -⟩
      exact ⟨v₁, intact₂⟩
    · exact ⟨v, intact⟩
  · exact ⟨v, intact⟩

theorem exit_sound (intact : Intact s v) (settled : Settled (books s)) (status : Int32) :
    Sound (exit p status) s := by
  unfold Sound exit
  split
  · trivial
  rw [outcome_bind]
  refine outcome_post (loop_outcome (fun i state => (∃ v', Intact state v') ∧ ∃ ofile,
    Midway (books s) p ofile 0 (books state) ∧
      ∀ j : Fin NOFILE, j.val < i → ofile j = Option.none) NOFILE 0 s ?_ ?_) ?_
  · exact ⟨⟨v, intact⟩, _, Midway.start settled p, fun j below => by omega⟩
  · rintro i state _ _ ⟨⟨v', now⟩, ofile, mid, empty⟩
    exact with_books (exitFile_sound p i now mid.owes) (exitFile_midway p i empty mid)
  · rintro _ s₁ ⟨⟨v₁, intact₁⟩, ofile, mid, -⟩
    refine cwd_next mid.owes fun ip home used => ?_
    have put := Fs.putInode_spec intact₁.good (Over.refl intact₁.good.rep) used
    have dropped : outcome (do
        fs Fs.beginOp
        fs (Fs.iput ip)
        fs Fs.endOp) (fun _ s' => ∃ v', Intact s' v') (fun _ _ => True) s₁ := by
      refine fs_seq (fs_seq (fs_step put ?_))
      rintro _ fs' ⟨v', ended⟩
      refine ⟨v', intact₁.lose (fun g kind at_ => ?_) ended.good ended.evolves ended.atop⟩
      exact mid.owes.file_beside_cwd (fun _ => Int.le_refl 0) (Int.le_refl 0) home
        (by simp [Entry.ofInode, books, File.entry, kind]) at_
    have left : outcome ((do
        fs Fs.beginOp
        fs (Fs.iput ip)
        fs Fs.endOp) >>= fun _ => do
          modifyProc p fun p => { p with cwd := none }
          reparent p
          modifyProc p fun p => { p with xstate := status, state := .zombie })
        (fun _ s' => ∃ v', Intact s' v') (fun _ _ => True) s₁ := by
      refine outcome_seq dropped ?_
      rintro _ s₂ ⟨v₂, intact₂⟩
      refine modifyProc_next intact₂ fun s₃ intact₃ => ?_
      have intact₄ : Intact { s₃ with proc := fun pp => if (s₃.proc pp).parent = some p then
          { s₃.proc pp with parent := some initproc } else s₃.proc pp } v₂ :=
        intact₃.congr rfl fun g kind => ⟨kind, rfl, (intact₃.files g kind).off, id⟩
      refine ⟨v₂, intact₄.congr rfl fun g kind => ⟨kind, rfl, (intact₄.files g kind).off, id⟩⟩
    simpa only [bind_assoc] using left

end Processes

section Runs

variable {s next : State Journal} {v : Volume} {p : Pid}

theorem Sound.map {α β : Type} {run : KernelM Journal α} (sound : Sound run s) (change : α → β) :
    Sound (change <$> run) s := (outcome_map run change _ _ s).mpr sound

theorem Still.keeps {α : Type} {run : KernelM Journal α} (still : Still s.fs s.file run)
    (intact : Intact s v) : Sound run s :=
  outcome_post (still.sound intact) fun _ _ after => ⟨v, after.1⟩

theorem perform_sound (intact : Intact s v) (settled : Settled (books s)) (call : Call) :
    Sound (call.perform p) s := by
  cases call with
  | «open» path omode => exact (sysOpen_sound intact settled path omode).map _
  | close fd => exact (sysClose_sound intact settled fd).map _
  | dup fd => exact (sysDup_sound intact fd).map _
  | pipe fdarray => exact (sysPipe_sound intact settled fdarray).map _
  | read fd addr n device => exact sysRead_sound intact fd addr n device
  | write fd addr n device => exact sysWrite_sound intact fd addr n device
  | link old new => exact (sysLink_sound intact settled old new).map _
  | unlink path => exact (sysUnlink_sound intact settled path).map _
  | mkdir path => exact (sysMkdir_sound intact settled path).map _
  | mknod path major minor => exact (sysMknod_sound intact settled path major minor).map _
  | chdir path => exact (sysChdir_sound intact settled path).map _
  | fork => exact (fork_sound intact settled).map _
  | exit status => exact (exit_sound intact settled status).map _
  | wait addr => exact (still_wait p addr).keeps intact
  | kill pid => exact ((still_kill pid).keeps intact).map _
  | sbrk n => exact ((sysSbrk_quiet (still_quiet s.fs s.file) p n).keeps intact).map _
  | exec path args => exact (sysExec_sound intact settled path args).map _

/-- A call keeps the volume. -/
theorem step_intact {label : Pid × Call} (intact : Intact s v) (settled : Settled (books s))
    (stepped : step s label = some next) : ∃ v', Intact next v' := by
  obtain ⟨-, result, performed⟩ := step_some stepped
  exact outcome_of_ok (perform_sound intact settled label.2) performed

/-- `userinit` only takes the reference to the root directory. -/
theorem userinit_intact {initcode : List UInt8} (intact : Intact s v)
    (boot : userinit initcode s = .ok () next) : Intact next v := by
  have keeps : outcome (userinit initcode) (fun _ after => Intact after v) (fun _ _ => True) s := by
    unfold userinit
    refine outcome_seq (still_allocproc.sound intact) ?_
    rintro got s₁ ⟨intact₁, -⟩
    cases got with
    | none => trivial
    | some p =>
        rw [outcome_bind]
        refine proc_step ?_
        refine outcome_seq ((still_vm _).sound intact₁) ?_
        rintro _ s₂ ⟨intact₂, -⟩
        refine modifyProc_next intact₂ fun s₃ intact₃ => ?_
        rw [outcome_bind]
        refine fs_step (Fs.iget_spec intact₃.good.rep intact₃.good.rep.sane.rootino) ?_
        rintro ip fs' ⟨rep, took⟩
        have intact₄ : Intact { s₃ with fs := fs' } v :=
          intact₃.run ⟨rep, intact₃.good.owned, intact₃.good.neat⟩ (.refl _ _) (took.atop intact₃.good.rep)
        exact intact₄.congr rfl fun g kind => ⟨kind, rfl, (intact₄.files g kind).off, id⟩
  have kept := outcome_of_ok keeps boot
  exact kept

end Runs

end PaddleOs.Kernel
