import PaddleOs.FsUndo
import PaddleOs.KernelImages

/-!
System calls that return -1. A failed `link`, `mkdir` or `mknod` leaves the tree of files as
it was. So does a failed `open`, unless it has created a file before it found no free file
or no free descriptor.
-/

namespace PaddleOs.Kernel

open Foundation.Outcome
open Fs (Path Slot JState Good Held Over Loaded Linked Dropped shown MakesAt parentIn startOf RoomFor)
open Volume (SameFile SameTree Unchanged)

variable {s s' : State Journal} {v v' : Volume} {p : Pid} {path : Path} {omode : Nat}

/-- The file system between two calls: blocks are owned exactly, inodes have links or uses, and
each use is accounted for. -/
structure Orderly (s : State Journal) (v : Volume) : Prop where
  good : Good s.fs v
  linked : Linked (Held s.fs.inode) v
  settled : Settled (books s)

section Trees

/-- A call on the tree of files that fails has changed nothing. -/
theorem fails_unchanged (orderly : Orderly s v) (call : Slot → Fs.FsM Journal Bool)
    (undone : ∀ ip, 0 < (s.fs.inode ip).ref → outcome (call ip) (fun done fs' => done = false →
      ∃ v', Good fs' v' ∧ SameTree v v') (fun _ _ => True) s.fs) :
    outcome (do return asResult (← fs (call (← cwd p)))) (fun r s' => r = -1 →
      Unchanged (shown s.fs) (shown s'.fs)) (fun _ _ => True) s := by
  refine cwd_next orderly.settled.owes fun ip home used => ?_
  rw [outcome_bind]
  refine fs_step (undone ip used) ?_
  rintro done fs' result failed
  cases done with
  | true => cases failed
  | false =>
      obtain ⟨v', good', same⟩ := result rfl
      exact Fs.SameTree.shown same orderly.good good'

theorem sysMake_undone (orderly : Orderly s v) {type : Int16} (typed : type ≠ 0) (major minor : Int16)
    (path : Option Path) {ip : Slot} (used : 0 < (s.fs.inode ip).ref) :
    outcome (Fs.sysMake ip path type major minor) (fun done fs' => done = false →
      ∃ v', Good fs' v' ∧ SameTree v v') (fun _ _ => True) s.fs := by
  have good := orderly.good
  cases path with
  | none => exact fun _ => ⟨v, good.store rfl rfl rfl, .refl v⟩
  | some path =>
      refine outcome_mono (Fs.sysMake_spec ip path type major minor good (Over.refl good.rep) used typed
        (fun _ : True => orderly.linked.anchored)) ?_ fun _ _ _ => trivial
      rintro done fs' ⟨v', ended, effect⟩ rfl
      refine ⟨v', ended.good, ?_⟩
      cases effect trivial with
      | failed makes => exact makes.undone good.owned good.rep.sane good.neat orderly.linked

/-- Calls of `link`, `mkdir` and `mknod` that return -1 leave every file, every directory and every
link count as it was. -/
theorem failed_calls_change_nothing (orderly : Orderly s v) (p : Pid) :
    (∀ old new, outcome (sysLink p old new) (fun r s' => r = -1 →
      Unchanged (shown s.fs) (shown s'.fs)) (fun _ _ => True) s) ∧
    (∀ path, outcome (sysMkdir p path) (fun r s' => r = -1 →
      Unchanged (shown s.fs) (shown s'.fs)) (fun _ _ => True) s) ∧
    ∀ path major minor, outcome (sysMknod p path major minor) (fun r s' => r = -1 →
      Unchanged (shown s.fs) (shown s'.fs)) (fun _ _ => True) s := by
  have good := orderly.good
  refine ⟨fun old new => ?_, fun path => ?_, fun path major minor => ?_⟩
  · refine fails_unchanged orderly (fun ip => Fs.sysLink ip old new) fun ip used => ?_
    cases old with
    | none => exact fun _ => ⟨v, good, .refl v⟩
    | some old =>
        cases new with
        | none => exact fun _ => ⟨v, good, .refl v⟩
        | some new =>
            refine outcome_mono (Fs.sysLink_spec ip old new good (Over.refl good.rep) used
              (fun _ : True => orderly.linked.anchored)) ?_ fun _ _ _ => trivial
            rintro done fs' ⟨v', ended, effect⟩ rfl
            exact ⟨v', ended.good, (effect trivial).undone good.owned good.rep.sane good.neat orderly.linked⟩
  · exact fails_unchanged orderly (fun ip => Fs.sysMkdir ip path) fun ip used =>
      sysMake_undone orderly (by decide) 0 0 path used
  · exact fails_unchanged orderly (fun ip => Fs.sysMknod ip path major minor) fun ip used =>
      sysMake_undone orderly (by decide) major minor path used

/-- What can be read off a disk and an inode table with few inodes. -/
def allLinked (s : State Journal) : Bool :=
  (List.range s.fs.sb.ninodes).all (fun i =>
    decide (((shown s.fs).node i).type = 0 ∨ ((shown s.fs).node i).nlink ≠ 0)) &&
  (List.finRange NINODE).all fun k =>
    decide (0 < (s.fs.inode k).ref → ((shown s.fs).node (s.fs.inode k).inum).type ≠ 0)

theorem orderly_of_run {bss booted final : State Journal} {initcode : List UInt8} {calls : List (Pid × Call)}
    (fresh : Fresh bss) (boot : userinit initcode bss = .ok () booted)
    (ran : Foundation.Runs.run step booted calls = some final) (test : allLinked final = true) :
    ∃ v, Orderly final v := by
  obtain ⟨settled, v, intact⟩ := run_intact fresh boot ran
  unfold allLinked at test
  simp only [Bool.and_eq_true, List.all_eq_true, decide_eq_true_eq] at test
  obtain ⟨links, allocated⟩ := test
  have good := intact.good
  refine ⟨v, good, ⟨fun i live zero => ?_, ?_⟩, settled⟩
  · have same := Good.shows good live.1
    refine absurd zero ?_
    rw [← same]
    have below : i < final.fs.sb.ninodes := good.rep.sb.symm ▸ live.1
    exact (links i (List.mem_range.mpr below)).resolve_left (same ▸ live.2)
  · rintro _ ⟨k, used, rfl⟩
    have inside := good.rep.numbered k used
    exact ⟨inside, Good.shows good inside ▸ allocated k (List.mem_finRange k) used⟩

/-- A directory cannot be made twice. -/
theorem mkdir_twice_changes_nothing : ∃ (s s' : State Journal), sysMkdir initproc (some [97]) s = .ok (-1) s' ∧
    Unchanged (shown s.fs) (shown s'.fs) := by
  obtain ⟨booted, final, boot, ran, test⟩ := runsTo_run (imaged tinyDisk) [(initproc, .mkdir (some [97]))]
    (fun final => allLinked final && match sysMkdir initproc (some [97]) final with
      | .ok r _ => decide (r = -1)
      | .error _ _ => false) (by decide +kernel)
  rw [Bool.and_eq_true] at test
  obtain ⟨v, orderly⟩ := orderly_of_run tiny_fresh boot ran test.1
  cases again : sysMkdir initproc (some [97]) final with
  | ok r s' =>
      have failed := test.2
      rw [again] at failed
      obtain rfl := of_decide_eq_true failed
      exact ⟨final, s', again,
        outcome_of_ok ((failed_calls_change_nothing orderly initproc).2.1 (some [97])) again rfl⟩
  | error stop s' =>
      rw [again] at test
      cases test.2

end Trees

section Opening

/-- `open` would make a new file. -/
def Creates (v : Volume) (s : State Journal) (p : Pid) (path : Path) (omode : Nat) : Prop :=
  hasFlag omode O_CREATE = true ∧
    ∃ home, (s.proc p).cwd = some home ∧ Fs.NewFile v (startOf s.fs.inode home path) path

/-- There is no free file, or the process has no free descriptor. -/
def TablesFull (s : State Journal) (p : Pid) : Prop :=
  (∀ f, (s.file f).ref ≠ 0) ∨ ∀ fd, (s.proc p).ofile fd ≠ none

/-- What `openInode` leaves: an inode of the tree, or the one of a new file. -/
def Reached (v : Volume) (s : State Journal) (p : Pid) (path : Path) (omode : Nat) (fs' : JState) (v' : Volume) :
    Option Slot → Prop
  | none => Over s.fs.inode [] fs' ∧ SameTree v v' ∧ ¬ Creates v s p path omode
  | some ip => Over s.fs.inode [ip] fs' ∧ ∃ i, Loaded fs' ip i ∧
      (¬ Creates v s p path omode ∧ v' = v ∨
        Creates v s p path omode ∧ ¬ v.Live i ∧ v'.Live i ∧ (v'.node i).type = T_FILE ∧ (v'.node i).nlink ≠ 0)

theorem openInode_reaches (good : Good s.fs v) (linked : Linked (Held s.fs.inode) v) (owes : (books s).Owes 0 0)
    (path : Path) (omode : Nat) :
    outcome (openInode p path omode) (fun got s' => ∃ fs' v', s' = { s with fs := fs' } ∧ Good fs' v' ∧
      Reached v s p path omode fs' v' got) (fun _ _ => True) s := by
  unfold openInode
  rw [outcome_ite]
  refine ⟨fun creating => ?_, fun plain => ?_⟩
  · refine cwd_next owes fun home at_ used => ?_
    refine fs_step (Fs.create_spec home path T_FILE 0 0 good (Over.refl good.rep) (fun _ => used)
      (by decide) (fun _ : True => linked.anchored)) ?_
    rintro got fs' ⟨v', answer, made⟩
    have handle := made.handle
    have makes := made.exact trivial
    refine ⟨fs', v', rfl, made.good, ?_⟩
    have news : Creates v s p path omode ↔ Fs.NewFile v (startOf s.fs.inode home path) path := by
      unfold Creates
      constructor
      · rintro ⟨-, home', at', new⟩
        obtain rfl : home' = home := Option.some.inj (at'.symm.trans at_)
        exact new
      · exact fun new => ⟨creating, home, at_, new⟩
    cases got with
    | none =>
        cases answer with
        | some i => exact handle.elim
        | none =>
            exact ⟨handle, makes.undone good.owned good.rep.sane good.neat linked,
              fun new => makes.not_new good.rep.sane good.neat linked (news.mp new)⟩
    | some ip =>
        cases answer with
        | none => exact handle.elim
        | some i =>
            obtain ⟨atop, loaded, -⟩ := handle
            refine ⟨atop, i, loaded, ?_⟩
            rcases makes.new_or_found good.owned good.rep.sane good.neat linked with
              ⟨old, same⟩ | ⟨new, dead, live, node⟩
            · exact .inl ⟨fun new => old (news.mp new), same⟩
            · refine .inr ⟨news.mpr new, dead, live, ?_, ?_⟩
              · rw [node]
                rfl
              · rw [node]
                exact (by decide : (1 : Int16) ≠ 0)
  · have old : ¬ Creates v s p path omode := fun new => plain new.1
    refine cwd_next owes fun home _ used => ?_
    rw [outcome_bind]
    refine fs_step (Fs.namei_spec home path good (Over.refl good.rep) used
      (fun _ : True => linked.anchored)) ?_
    rintro got fs₁ ⟨v₁, good₁, spares₁, arrived⟩
    obtain ⟨rfl, -⟩ := spares₁.quiet trivial
    cases got with
    | none => exact ⟨fs₁, v₁, rfl, good₁, arrived.1, .refl v₁, old⟩
    | some ip =>
        obtain ⟨atop₁, i, here₁, -⟩ := arrived
        rw [outcome_bind]
        refine fs_step (Fs.lock_spec good₁ atop₁ here₁) ?_
        rintro _ fs₂ ⟨good₂, keeps₂, loaded₂, -⟩
        refine fsInode_next ?_
        dsimp only
        rw [outcome_ite]
        refine ⟨fun _ => ?_, fun _ => ⟨fs₂, v₁, rfl, good₂, keeps₂.atop, i, loaded₂, .inl ⟨old, rfl⟩⟩⟩
        rw [outcome_bind]
        refine fs_step (Fs.drop_spec good₂ keeps₂.atop loaded₂ List.not_mem_nil) ?_
        rintro _ fs₃ ⟨v₃, good₃, atop₃, -, dropped, -⟩
        obtain rfl := dropped.kept (linked.anchored i (loaded₂.live good₂.rep))
        exact ⟨fs₃, v₃, rfl, good₃, atop₃, .refl v₃, old⟩

/-- A run that returns this value if it returns. -/
def Gives {α : Type} (value : α) (run : KernelM Journal α) : Prop :=
  ∀ s, outcome run (fun r _ => r = value) (fun _ _ => True) s

theorem gives_pure {α : Type} (value : α) : Gives value (pure value) := fun _ => rfl

theorem gives_after {α β : Type} {value : β} (run : KernelM Journal α) {next : α → KernelM Journal β}
    (rest : ∀ a, Gives value (next a)) : Gives value (run >>= next) := fun s =>
  outcome_seq (Foundation.View.follows_true run s) fun a s' _ => rest a s'

theorem gives_ite {α : Type} {value : α} {choice : Prop} [Decidable choice] {yes no : KernelM Journal α}
    (left : Gives value yes) (right : Gives value no) : Gives value (if choice then yes else no) := by
  split
  · exact left
  · exact right

/-- What a call to `open` comes to: it fails, and then the files are those there were but for a new
one in full tables, or there was room in the tables. -/
inductive OpenEnds (v : Volume) (s : State Journal) (p : Pid) (path : Path) (omode : Nat) (r : Int)
    (s' : State Journal) : Prop where
  | fails {fs' : JState} {v' : Volume} (result : r = -1) (is : s' = { s with fs := fs' }) (good : Good fs' v')
      (atop : Over s.fs.inode [] fs')
      (effect : SameTree v v' ∧ ¬ (Creates v s p path omode ∧ TablesFull s p) ∨
        (Creates v s p path omode ∧ TablesFull s p) ∧ ∃ i, ¬ v.Live i ∧ v'.Live i) :
      OpenEnds v s p path omode r s'
  | opens (result : 0 ≤ r) (room : ¬ TablesFull s p) : OpenEnds v s p path omode r s'

/-- The inode is given back, but the tree keeps a new file. -/
theorem openBad_ends {ip : Slot} {fs' : JState} (linked : Linked (Held s.fs.inode) v) (good : Good fs' v')
    (reached : Reached v s p path omode fs' v' (some ip))
    (why : Creates v s p path omode → TablesFull s p) :
    outcome (openBad ip) (OpenEnds v s p path omode) (fun _ _ => True) { s with fs := fs' } := by
  obtain ⟨atop, i, loaded, which⟩ := reached
  unfold openBad
  rw [outcome_bind]
  refine fs_step (Fs.drop_spec good atop loaded List.not_mem_nil) ?_
  rintro _ fs₁ ⟨v₁, good₁, atop₁, -, dropped, -⟩
  have kept : v₁ = v' := dropped.kept fun zero => by
    rcases which with ⟨-, rfl⟩ | ⟨-, -, -, -, some⟩
    · exact linked.anchored i (loaded.live good.rep) zero
    · exact absurd zero some
  subst kept
  refine .fails rfl rfl (good₁.store rfl rfl rfl) (atop₁.table rfl) ?_
  rcases which with ⟨old, rfl⟩ | ⟨new, dead, live, -⟩
  · exact .inl ⟨.refl v₁, fun both => old both.1⟩
  · exact .inr ⟨⟨new, why new⟩, i, dead, live⟩

/-- A file that was just allocated is closed again. -/
theorem fileclose_fresh {f : FileId} (unused : (s.file f).ref = 0) (typeless : (s.file f).type = .none) :
    outcome (fileclose f) (fun _ s' => s' = s) (fun _ _ => True)
      { s with file := Function.update s.file f { s.file f with ref := 1 } } := by
  unfold fileclose
  rw [outcome_bind]
  refine file_step ?_
  dsimp only
  rw [Function.update_self, if_neg (by simp), outcome_bind]
  refine modifyFile_step ?_
  dsimp only
  rw [outcome_bind]
  refine file_step ?_
  simp only [Function.update_idem, Function.update_self]
  rw [if_neg (by simp), outcome_bind]
  refine modifyFile_step ?_
  dsimp only
  simp only [Function.update_idem, Function.update_self, typeless]
  have same : ({ s.file f with ref := 0, type := .none } : File) = s.file f := by
    rw [← unused, ← typeless]
  rw [outcome_pure, same, Function.update_eq_self]

theorem sysOpen_ends (orderly : Orderly s v) (path : Path) (omode : Nat) :
    outcome (sysOpen p (some path) omode) (OpenEnds v s p path omode) (fun _ _ => True) s := by
  have owes := orderly.settled.owes
  unfold sysOpen
  refine beginOp_next ?_
  refine outcome_seq (openInode_reaches (s := { s with fs := Fs.opened s.fs })
    (orderly.good.store rfl rfl rfl) orderly.linked ⟨owes.files, owes.inodes, owes.tidy⟩ path omode) ?_
  rintro got _ ⟨fs₁, v₁, rfl, good₁, reached⟩
  cases got with
  | none =>
      obtain ⟨atop, same, old⟩ := reached
      exact .fails rfl rfl (good₁.store rfl rfl rfl) (atop.table rfl) (.inl ⟨same, fun both => old both.1⟩)
  | some ip =>
      dsimp only
      refine fsInode_next ?_
      obtain ⟨-, i, loaded, which⟩ := id reached
      have node := good₁.rep.copy ip i loaded
      rw [outcome_ite]
      refine ⟨fun bad => ?_, fun _ => ?_⟩
      · refine openBad_ends orderly.linked good₁ reached fun new => ?_
        rcases which with ⟨old, -⟩ | ⟨-, -, -, file, -⟩
        · exact absurd new old
        · have kind := bad.1
          rw [node, file] at kind
          exact absurd kind (by decide)
      · unfold filealloc
        rw [outcome_bind, outcome_bind, outcome_get]
        cases free : (List.finRange NFILE).find? fun f => decide ((s.file f).ref = 0) with
        | none =>
            have full : ∀ f, (s.file f).ref ≠ 0 := by
              intro f
              have none_ := List.find?_eq_none.mp free f (List.mem_finRange f)
              simpa using none_
            exact openBad_ends orderly.linked good₁ reached fun _ => .inl full
        | some f =>
            have unused : (s.file f).ref = 0 := by simpa using List.find?_some free
            have typeless : (s.file f).type = .none := owes.tidy f unused
            dsimp only
            rw [outcome_bind]
            refine modifyFile_step ?_
            dsimp only
            unfold fdalloc
            rw [outcome_pure, outcome_bind, outcome_bind]
            refine proc_step ?_
            dsimp only
            cases vacant : (List.finRange NOFILE).find? fun fd => ((s.proc p).ofile fd).isNone with
            | none =>
                have full : ∀ fd, (s.proc p).ofile fd ≠ none := by
                  intro fd
                  have none_ := List.find?_eq_none.mp vacant fd (List.mem_finRange fd)
                  simpa using none_
                refine outcome_seq (fileclose_fresh (s := { s with fs := fs₁ }) unused typeless) ?_
                rintro _ _ rfl
                exact openBad_ends orderly.linked good₁ reached fun _ => .inr full
            | some fd =>
                have room : ¬ TablesFull s p := by
                  rintro (files | descriptors)
                  · exact files f unused
                  · refine descriptors fd ?_
                    simpa using List.find?_some vacant
                dsimp only
                rw [outcome_bind]
                refine outcome_post (Foundation.View.follows_true _ _) ?_
                rintro _ s₂ -
                rw [outcome_pure]
                dsimp only
                have gives : Gives (fd.val : Int) (do
                    if (fs₁.inode ip).type = T_DEVICE then
                      modifyFile f fun f => { f with type := .device, major := (fs₁.inode ip).major }
                    else modifyFile f fun f => { f with type := .inode, off := 0 }
                    modifyFile f fun f =>
                      { f with ip
                               readable := !hasFlag omode O_WRONLY
                               writable := hasFlag omode O_WRONLY || hasFlag omode O_RDWR }
                    if hasFlag omode O_TRUNC ∧ (fs₁.inode ip).type = T_FILE then fs (Fs.itrunc ip)
                    fs (Fs.iunlock ip)
                    fs Fs.endOp
                    return (fd.val : Int)) := by
                  have ends : Gives (fd.val : Int) (do
                      fs (Fs.iunlock ip)
                      fs Fs.endOp
                      return (fd.val : Int)) := gives_after _ fun _ => gives_after _ fun _ => gives_pure _
                  have attached := gives_after (modifyFile f fun f =>
                    { f with ip
                             readable := !hasFlag omode O_WRONLY
                             writable := hasFlag omode O_WRONLY || hasFlag omode O_RDWR }) fun _ =>
                    @gives_ite _ _ (hasFlag omode O_TRUNC ∧ (fs₁.inode ip).type = T_FILE) _ _ _
                      (gives_after (fs (Fs.itrunc ip)) fun _ => ends) ends
                  exact gives_ite (gives_after _ fun _ => attached) (gives_after _ fun _ => attached)
                refine outcome_post (gives s₂) ?_
                rintro r s' rfl
                exact .opens (Int.natCast_nonneg _) room

/-- A call to `open` has no effect: the tree of files, the tables and every count of references are as
they were. -/
structure Untouched (s s' : State Journal) : Prop where
  tree : Unchanged (shown s.fs) (shown s'.fs)
  proc : s'.proc = s.proc
  file : s'.file = s.file
  ref : ∀ k, (s'.fs.inode k).ref = (s.fs.inode k).ref

/-- A call to `open` that fails has no effect, except when it makes a new file while there is no free
file or no free descriptor. -/
theorem failed_open_untouched_iff (orderly : Orderly s v) {path : Option Path} {r : Int}
    (ran : sysOpen p path omode s = .ok r s') : (r = -1 → Untouched s s') ↔
      ¬ ∃ given, path = some given ∧ Creates v s p given omode ∧ TablesFull s p := by
  have good := orderly.good
  cases path with
  | none =>
      cases ran
      refine ⟨fun _ => ?_, fun _ _ => ⟨Fs.SameTree.shown (.refl v) good good, rfl, rfl, fun _ => rfl⟩⟩
      rintro ⟨given, wrong, -⟩
      cases wrong
  | some path =>
      have ends := outcome_of_ok (sysOpen_ends orderly path omode) ran
      have only : (∃ given, some path = some given ∧ Creates v s p given omode ∧ TablesFull s p) ↔
          Creates v s p path omode ∧ TablesFull s p := by
        constructor
        · rintro ⟨given, same, both⟩
          obtain rfl := Option.some.inj same
          exact both
        · exact fun both => ⟨path, rfl, both⟩
      rw [only]
      cases ends with
      | @fails fs' v' failed is good' atop effect =>
          subst is
          rcases effect with ⟨same, clear⟩ | ⟨both, i, dead, live⟩
          · refine ⟨fun _ => clear, fun _ _ => ⟨Fs.SameTree.shown same good good', rfl, rfl, fun k => ?_⟩⟩
            have ref := atop.ref k
            rwa [List.count_nil, Int.natCast_zero, Int.add_zero] at ref
          · refine ⟨fun untouched => ?_, fun clear => absurd both clear⟩
            have same := (untouched failed).tree.allocated i
            rw [Good.shown_live good', Good.shown_live good] at same
            exact absurd (same.mp live) dead
      | opens some room =>
          exact ⟨fun _ both => room both.2, fun _ failed => by omega⟩

/-- A file that is not there is not opened. -/
theorem missing_open_untouched : ∃ (s s' : State Journal), sysOpen initproc (some [97]) 0 s = .ok (-1) s' ∧
    Untouched s s' := by
  obtain ⟨booted, final, boot, ran, test⟩ := runsTo_run (imaged tinyDisk) []
    (fun final => allLinked final && match sysOpen initproc (some [97]) 0 final with
      | .ok r _ => decide (r = -1)
      | .error _ _ => false) (by decide +kernel)
  rw [Bool.and_eq_true] at test
  obtain ⟨v, orderly⟩ := orderly_of_run tiny_fresh boot ran test.1
  cases opened : sysOpen initproc (some [97]) 0 final with
  | ok r s' =>
      have failed := test.2
      rw [opened] at failed
      obtain rfl := of_decide_eq_true failed
      refine ⟨final, s', opened, (failed_open_untouched_iff orderly opened).mpr ?_ rfl⟩
      rintro ⟨_, -, creates, -⟩
      exact absurd creates.1 (by decide)
  | error stop s' =>
      rw [opened] at test
      cases test.2

/-- The root directory is opened once, and all other descriptors are duplicates. -/
def fillCalls : List (Pid × Call) :=
  (initproc, .open (some [47]) 0) :: List.replicate 15 (initproc, .dup 0)

/-- A process without a free descriptor opens a new file: it fails, and the file is there. -/
theorem failed_open_creates : ∃ (s s' : State Journal) (v : Volume), Orderly s v ∧
    sysOpen initproc (some [97]) 0x200 s = .ok (-1) s' ∧ ¬ Untouched s s' := by
  obtain ⟨booted, final, boot, ran, test⟩ := runsTo_run (imaged tinyDisk) fillCalls
    (fun final => allLinked final && match sysOpen initproc (some [97]) 0x200 final with
      | .ok r s' => decide (r = -1 ∧ 2 < s'.fs.sb.ninodes ∧ ((shown final.fs).node 2).type = 0 ∧
          ((shown s'.fs).node 2).type ≠ 0)
      | .error _ _ => false) (by decide +kernel)
  rw [Bool.and_eq_true] at test
  obtain ⟨v, orderly⟩ := orderly_of_run tiny_fresh boot ran test.1
  cases opened : sysOpen initproc (some [97]) 0x200 final with
  | ok r s' =>
      have failed := test.2
      rw [opened] at failed
      obtain ⟨rfl, inside, free, typed⟩ := of_decide_eq_true failed
      refine ⟨final, s', v, orderly, opened, fun untouched => ?_⟩
      exact ((untouched.tree.allocated 2).mp ⟨inside, typed⟩).2 free
  | error stop s' =>
      rw [opened] at test
      cases test.2

end Opening

end PaddleOs.Kernel
