import PaddleOs.Foundation.Runs
import PaddleOs.Params
import PaddleOs.ShellDerivations

/-!
`runcmd` of `user/sh.c`: a parsed line is run by a tree of processes, which take their steps in any
order. What a process does to its own descriptors between two forks is one step. A call that may fail
fails when the step says so; a program that has been started ends when it likes and leaves its
descriptors as they are. Nobody kills a process of the line. A command is named by the way to it from the
whole line, and an open file by the command it was opened for.
-/

namespace PaddleOs.Shell

open Foundation.Runs
open Grep (CString)

/-- The way from a command to a part of it. -/
inductive Side where
  | left
  | right
  | redirected
  | background
  deriving DecidableEq, Repr

abbrev Path : Type := List Side

inductive Opened where
  | inherited (fd : Nat)
  | redirection (node : Path) (file : Str) (mode : Nat)
  | readEnd (node : Path)
  | writeEnd (node : Path)
  deriving DecidableEq, Repr

abbrev Fds : Type := Nat → Option Opened

/-- The lowest free descriptor. -/
def fdalloc (fds : Fds) : Option Nat := (List.range NOFILE).find? fun fd => (fds fd).isNone

def close (fds : Fds) (fd : Nat) : Fds := Function.update fds fd none

def dup (fds : Fds) (fd : Nat) : Fds :=
  match fds fd, fdalloc fds with
  | some f, some new => Function.update fds new (some f)
  | _, _ => fds

/-- Opens a file, for `open` and for each end of `pipe`. -/
def install (fds : Fds) (f : Opened) : Option (Nat × Fds) :=
  (fdalloc fds).map fun fd => (fd, Function.update fds fd (some f))

/-- The calls of the left child of a pipe; `p0` and `p1` are `p[0]` and `p[1]`. -/
def plumbLeft (fds : Fds) (p0 p1 : Nat) : Fds := close (close (dup (close fds 1) p1) p0) p1

def plumbRight (fds : Fds) (p0 p1 : Nat) : Fds := close (close (dup (close fds 0) p0) p0) p1

/-- What a process does next. -/
inductive Code where
  | runcmd (cmd : Cmd)
  | listed (right : Cmd)
  | forkLeft (left right : Cmd) (p0 p1 : Nat)
  | forkRight (right : Cmd) (p0 p1 : Nat)
  | waiting (n : Nat)
  | program (argv : List Str)
  | exited
  deriving DecidableEq, Repr

structure Process where
  node : Path
  code : Code
  fds : Fds
  children : List Nat

structure Jobs where
  process : Nat → Option Process
  next : Nat

/-- Process `pid` makes its step; `ok` says whether the call in it succeeds, `child` which zombie `wait`
returns. -/
structure Turn where
  pid : Nat
  ok : Bool
  child : Nat
  deriving DecidableEq, Repr

def Jobs.set (s : Jobs) (pid : Nat) (p : Process) : Jobs :=
  { s with process := Function.update s.process pid (some p) }

/-- `exit` closes the files; the children go to `init`. -/
def Process.exit (p : Process) : Process := { p with code := .exited, fds := fun _ => none, children := [] }

def Jobs.add (s : Jobs) (child : Process) : Jobs := { s.set s.next child with next := s.next + 1 }

/-- `fork1` by a parent that becomes `p`. -/
def Jobs.fork (s : Jobs) (pid : Nat) (p child : Process) : Jobs :=
  (s.set pid { p with children := s.next :: p.children }).add child

/-- `wait(0)` of a process that goes on as `p`; it returns at once when there is no child. -/
def Jobs.wait (s : Jobs) (turn : Turn) (p : Process) : Option Jobs :=
  if p.children = [] then some (s.set turn.pid p)
  else if turn.child ∈ p.children ∧ (s.process turn.child).map Process.code = some .exited then
    some (s.set turn.pid { p with children := p.children.erase turn.child })
  else none

/-- The child of `p` that runs the part of its command on one side. -/
def Process.child (p : Process) (side : Side) (cmd : Cmd) (fds : Fds) : Process where
  node := p.node ++ [side]
  code := .runcmd cmd
  fds := fds
  children := []

/-- `runcmd(cmd)` up to its next fork or its end. -/
def Jobs.runcmd (s : Jobs) (turn : Turn) (p : Process) : Cmd → Jobs
  | .exec argv =>
      if argv ≠ [] ∧ turn.ok then s.set turn.pid { p with code := .program argv }
      else s.set turn.pid p.exit
  | .redir cmd file mode fd =>
      match install (close p.fds fd) (.redirection p.node file mode) with
      | some (_, fds) =>
          if turn.ok then
            s.set turn.pid { p with node := p.node ++ [.redirected], code := .runcmd cmd, fds }
          else s.set turn.pid p.exit
      | none => s.set turn.pid p.exit
  | .list left right =>
      if turn.ok then s.fork turn.pid { p with code := .listed right } (p.child .left left p.fds)
      else s.set turn.pid p.exit
  | .pipe left right =>
      match install p.fds (.readEnd p.node) with
      | some (p0, fds) =>
          match install fds (.writeEnd p.node) with
          | some (p1, fds) =>
              if turn.ok then s.set turn.pid { p with code := .forkLeft left right p0 p1, fds }
              else s.set turn.pid p.exit
          | none => s.set turn.pid p.exit
      | none => s.set turn.pid p.exit
  | .back cmd =>
      -- the child is with `init` at once
      if turn.ok then (s.set turn.pid p.exit).add (p.child .background cmd p.fds)
      else s.set turn.pid p.exit

def Jobs.advance (s : Jobs) (turn : Turn) (p : Process) : Option Jobs :=
  match p.code with
  | .runcmd cmd => some (s.runcmd turn p cmd)
  | .listed right => s.wait turn { p with node := p.node ++ [.right], code := .runcmd right }
  | .forkLeft left right p0 p1 =>
      if turn.ok then
        some (s.fork turn.pid { p with code := .forkRight right p0 p1 }
          (p.child .left left (plumbLeft p.fds p0 p1)))
      else some (s.set turn.pid p.exit)
  | .forkRight right p0 p1 =>
      if turn.ok then
        some (s.fork turn.pid { p with code := .waiting 2, fds := close (close p.fds p0) p1 }
          (p.child .right right (plumbRight p.fds p0 p1)))
      else some (s.set turn.pid p.exit)
  | .waiting 0 => some (s.set turn.pid p.exit)
  | .waiting (n + 1) => s.wait turn { p with code := .waiting n }
  | .program _ => some (s.set turn.pid p.exit)
  | .exited => none

def step (s : Jobs) (turn : Turn) : Option Jobs := (s.process turn.pid).bind (s.advance turn)

/-- The standard descriptors. -/
structure Io where
  stdin : Opened
  stdout : Opened
  stderr : Opened
  deriving DecidableEq, Repr

def Io.fds (io : Io) : Fds
  | 0 => some io.stdin
  | 1 => some io.stdout
  | 2 => some io.stderr
  | _ => none

/-- The shell has its three descriptors and forks a process for the line. -/
def shellIo : Io := ⟨.inherited 0, .inherited 1, .inherited 2⟩

def forked (cmd : Cmd) : Jobs where
  process pid := if pid = 0 then some ⟨[], .runcmd cmd, shellIo.fds, []⟩ else none
  next := 1

section Meaning

def Io.redirect (io : Io) (fd : Nat) (f : Opened) : Io :=
  if fd = 0 then { io with stdin := f } else { io with stdout := f }

/-- The part of a command at a path, with the files it is to have: a redirection replaces one of them,
the left side of a pipe writes into it and the right side reads from it. -/
def part : Cmd → Io → Path → Path → Option (Cmd × Io)
  | cmd, io, _, [] => some (cmd, io)
  | .redir cmd file mode fd, io, node, .redirected :: rest =>
      part cmd (io.redirect fd (.redirection node file mode)) (node ++ [.redirected]) rest
  | .pipe left _, io, node, .left :: rest =>
      part left { io with stdout := .writeEnd node } (node ++ [.left]) rest
  | .pipe _ right, io, node, .right :: rest =>
      part right { io with stdin := .readEnd node } (node ++ [.right]) rest
  | .list left _, io, node, .left :: rest => part left io (node ++ [.left]) rest
  | .list _ right, io, node, .right :: rest => part right io (node ++ [.right]) rest
  | .back cmd, io, node, .background :: rest => part cmd io (node ++ [.background]) rest
  | _, _, _, _ :: _ => none

/-- The redirections are of the standard input and output. -/
def Plain : Cmd → Prop
  | .exec _ => True
  | .redir cmd _ _ fd => fd ≤ 1 ∧ Plain cmd
  | .pipe left right => Plain left ∧ Plain right
  | .list left right => Plain left ∧ Plain right
  | .back cmd => Plain cmd

/-- The part of the line a file is opened for. -/
def Opened.reach : Opened → Path
  | .inherited _ => []
  | .redirection node _ _ => node ++ [.redirected]
  | .readEnd node => node ++ [.right]
  | .writeEnd node => node ++ [.left]

/-- The files are opened for what is around a path. -/
structure Io.Within (io : Io) (node : Path) : Prop where
  stdin : io.stdin.reach <+: node
  stdout : io.stdout.reach <+: node
  stderr : io.stderr.reach <+: node

variable {cmd sub left right : Cmd} {io io' : Io} {base node rest : Path} {side : Side}

/-- A command, its part on one side and the files of both. -/
inductive Beside : Cmd → Io → Path → Side → Cmd → Io → Prop
  | redir (cmd : Cmd) (file : Str) (mode fd : Nat) (io : Io) (node : Path) :
      Beside (.redir cmd file mode fd) io node .redirected cmd (io.redirect fd (.redirection node file mode))
  | pipeLeft (left right : Cmd) (io : Io) (node : Path) :
      Beside (.pipe left right) io node .left left { io with stdout := .writeEnd node }
  | pipeRight (left right : Cmd) (io : Io) (node : Path) :
      Beside (.pipe left right) io node .right right { io with stdin := .readEnd node }
  | listLeft (left right : Cmd) (io : Io) (node : Path) : Beside (.list left right) io node .left left io
  | listRight (left right : Cmd) (io : Io) (node : Path) : Beside (.list left right) io node .right right io
  | back (cmd : Cmd) (io : Io) (node : Path) : Beside (.back cmd) io node .background cmd io

theorem part_nil (cmd : Cmd) (io : Io) (base : Path) : part cmd io base [] = some (cmd, io) := by
  cases cmd <;> rfl

theorem part_cons : part cmd io base (side :: rest) = some (sub, io') ↔
    ∃ next nextIo, Beside cmd io base side next nextIo ∧
      part next nextIo (base ++ [side]) rest = some (sub, io') := by
  constructor
  · intro found
    cases cmd <;> cases side <;> first | cases found | exact ⟨_, _, by constructor, found⟩
  · rintro ⟨next, nextIo, beside, found⟩
    cases beside <;> exact found

theorem part_snoc {next : Cmd} {nextIo : Io} (found : part cmd io base node = some (sub, io'))
    (beside : Beside sub io' (base ++ node) side next nextIo) :
    part cmd io base (node ++ [side]) = some (next, nextIo) := by
  induction node generalizing cmd io base with
  | nil =>
      rw [part_nil] at found
      cases found
      rw [List.append_nil] at beside
      exact part_cons.mpr ⟨next, nextIo, beside, part_nil _ _ _⟩
  | cons first node ih =>
      obtain ⟨middle, middleIo, at_, onward⟩ := part_cons.mp found
      rw [List.append_cons] at beside
      exact part_cons.mpr ⟨middle, middleIo, at_, ih onward beside⟩

/-- What holds of a command and passes to the parts beside it holds of every part. -/
theorem part_induction (holds : Cmd → Io → Path → Prop) (start : holds cmd io base)
    (pass : ∀ cmd io node side next nextIo, holds cmd io node → Beside cmd io node side next nextIo →
      holds next nextIo (node ++ [side]))
    (found : part cmd io base node = some (sub, io')) : holds sub io' (base ++ node) := by
  induction node generalizing cmd io base with
  | nil =>
      rw [part_nil] at found
      cases found
      rw [List.append_nil]
      exact start
  | cons side node ih =>
      obtain ⟨next, nextIo, beside, onward⟩ := part_cons.mp found
      rw [List.append_cons]
      exact ih (pass cmd io base side next nextIo start beside) onward

theorem part_plain (plain : Plain cmd) (found : part cmd io base node = some (sub, io')) : Plain sub := by
  apply part_induction (fun cmd _ _ => Plain cmd) plain ?_ found
  intro cmd io node side next nextIo plain beside
  cases beside with
  | redir => exact plain.2
  | pipeLeft | listLeft => exact plain.1
  | pipeRight | listRight => exact plain.2
  | back => exact plain

theorem Io.Within.longer (within : io.Within node) (side : Side) : io.Within (node ++ [side]) where
  stdin := within.stdin.trans (List.prefix_append node [side])
  stdout := within.stdout.trans (List.prefix_append node [side])
  stderr := within.stderr.trans (List.prefix_append node [side])

theorem Io.Within.redirect (within : io.Within node) (fd : Nat) {f : Opened} (there : f.reach <+: node) :
    (io.redirect fd f).Within node := by
  rw [Io.redirect]
  split
  next => exact ⟨there, within.stdout, within.stderr⟩
  next => exact ⟨within.stdin, there, within.stderr⟩

/-- No file leaves the part of the line it is opened for. -/
theorem part_within (within : io.Within base) (found : part cmd io base node = some (sub, io')) :
    io'.Within (base ++ node) := by
  apply part_induction (fun _ io node => io.Within node) within ?_ found
  intro cmd io node side next nextIo within beside
  cases beside with
  | redir cmd file mode fd => exact (within.longer _).redirect fd (List.prefix_refl _)
  | pipeLeft => exact ⟨(within.longer _).stdin, List.prefix_refl _, (within.longer _).stderr⟩
  | pipeRight => exact ⟨List.prefix_refl _, (within.longer _).stdout, (within.longer _).stderr⟩
  | listLeft | listRight | back => exact within.longer _

end Meaning

section Descriptors

variable (io : Io) (node : Path)

/-- The descriptors between `pipe` and the second fork. -/
def Io.piped : Fds :=
  Function.update (Function.update io.fds 3 (some (.readEnd node))) 4 (some (.writeEnd node))

/-- A file opened in place of a standard descriptor. -/
theorem install_redirect {fd : Nat} (standard : fd ≤ 1) (f : Opened) :
    install (close io.fds fd) f = some (fd, (io.redirect fd f).fds) := by
  -- the descriptor just closed is the lowest free one
  have cases_ : fd = 0 ∨ fd = 1 := by omega
  rcases cases_ with rfl | rfl
  all_goals
    refine congrArg (fun fds => some (_, fds)) (funext fun i => ?_)
    rcases i with _ | _ | _ | i <;> rfl

theorem install_readEnd : install io.fds (.readEnd node) =
    some (3, Function.update io.fds 3 (some (.readEnd node))) := rfl

theorem install_writeEnd : install (Function.update io.fds 3 (some (.readEnd node))) (.writeEnd node) =
    some (4, io.piped node) := rfl

theorem close_piped : close (close (io.piped node) 3) 4 = io.fds := by
  funext i
  rcases i with _ | _ | _ | _ | _ | i <;> rfl

theorem plumbLeft_piped : plumbLeft (io.piped node) 3 4 = { io with stdout := .writeEnd node : Io }.fds := by
  funext i
  rcases i with _ | _ | _ | _ | _ | i <;> rfl

theorem plumbRight_piped : plumbRight (io.piped node) 3 4 = { io with stdin := .readEnd node : Io }.fds := by
  funext i
  rcases i with _ | _ | _ | _ | _ | i <;> rfl

end Descriptors

section Plumbing

variable {cmd sub : Cmd} {io io' : Io} {node : Path} {p p' : Process} {s s' : Jobs} {turn : Turn} {pid : Nat}

/-- What a process has opened that runs a part of the line with the files it is to have. Between `pipe`
and its second fork it has both ends as well. -/
inductive Plumbed (io : Io) (node : Path) : Code → Cmd → Fds → Prop
  | runcmd (cmd : Cmd) : Plumbed io node (.runcmd cmd) cmd io.fds
  | listed (left right : Cmd) : Plumbed io node (.listed right) (.list left right) io.fds
  | forkLeft (left right : Cmd) : Plumbed io node (.forkLeft left right 3 4) (.pipe left right) (io.piped node)
  | forkRight (left right : Cmd) : Plumbed io node (.forkRight right 3 4) (.pipe left right) (io.piped node)
  | waiting (n : Nat) (left right : Cmd) : Plumbed io node (.waiting n) (.pipe left right) io.fds
  | program (argv : List Str) : Plumbed io node (.program argv) (.exec argv) io.fds

/-- A process has exited, or it runs a part of the line. -/
def Fits (cmd : Cmd) (p : Process) : Prop :=
  (p.code = .exited ∧ p.fds = fun _ => none) ∨
    ∃ sub io, part cmd shellIo [] p.node = some (sub, io) ∧ Plumbed io p.node p.code sub p.fds

def AllFit (cmd : Cmd) (s : Jobs) : Prop := ∀ pid p, s.process pid = some p → Fits cmd p

theorem exit_fits (p : Process) : Fits cmd p.exit := Or.inl ⟨rfl, rfl⟩

theorem AllFit.set (all : AllFit cmd s) (pid : Nat) (fits : Fits cmd p) : AllFit cmd (s.set pid p) := by
  intro other q there
  change Function.update s.process pid (some p) other = some q at there
  by_cases here : other = pid
  · rw [here, Function.update_self] at there
    cases there
    exact fits
  · rw [Function.update_of_ne here] at there
    exact all other q there

theorem AllFit.add (all : AllFit cmd s) (child : Fits cmd p) : AllFit cmd (s.add p) := all.set s.next child

theorem AllFit.fork (all : AllFit cmd s) (pid : Nat) (parent : Fits cmd p) (child : Fits cmd p') :
    AllFit cmd (s.fork pid p p') := by
  have adopts : Fits cmd { p with children := s.next :: p.children } := parent
  exact (all.set pid adopts).add child

theorem AllFit.wait (all : AllFit cmd s) (fits : Fits cmd p) (waited : s.wait turn p = some s') :
    AllFit cmd s' := by
  rw [Jobs.wait] at waited
  split at waited
  next =>
    cases waited
    exact all.set turn.pid fits
  next =>
    split at waited
    next =>
      cases waited
      exact all.set turn.pid fits
    next => cases waited

/-- A process that begins with the part on one side, as a child or in place. -/
theorem begins_beside {side : Side} {next : Cmd} {nextIo : Io}
    (found : part cmd shellIo [] node = some (sub, io)) (beside : Beside sub io node side next nextIo)
    (children : List Nat) : Fits cmd ⟨node ++ [side], .runcmd next, nextIo.fds, children⟩ :=
  Or.inr ⟨next, nextIo, part_snoc found beside, .runcmd next⟩

theorem runcmd_fits (plain : Plain cmd) (all : AllFit cmd s)
    (found : part cmd shellIo [] p.node = some (sub, io)) (fds : p.fds = io.fds) :
    AllFit cmd (s.runcmd turn p sub) := by
  have gives_up : AllFit cmd (s.set turn.pid p.exit) := all.set turn.pid (exit_fits p)
  cases sub with
  | exec argv =>
      rw [Jobs.runcmd]
      split
      next => exact all.set turn.pid (Or.inr ⟨.exec argv, io, found, fds ▸ .program argv⟩)
      next => exact gives_up
  | redir sub file mode fd =>
      rw [Jobs.runcmd, fds, install_redirect io (part_plain plain found).1]
      dsimp only
      split
      next => exact all.set turn.pid (begins_beside found (.redir sub file mode fd io p.node) p.children)
      next => exact gives_up
  | list left right =>
      rw [Jobs.runcmd]
      split
      next =>
        apply all.fork turn.pid
        · exact Or.inr ⟨.list left right, io, found, fds ▸ .listed left right⟩
        · rw [fds]
          exact begins_beside found (.listLeft left right io p.node) []
      next => exact gives_up
  | pipe left right =>
      rw [Jobs.runcmd, fds, install_readEnd]
      dsimp only
      rw [install_writeEnd]
      dsimp only
      split
      next => exact all.set turn.pid (Or.inr ⟨.pipe left right, io, found, .forkLeft left right⟩)
      next => exact gives_up
  | back sub =>
      rw [Jobs.runcmd]
      split
      next =>
        apply gives_up.add
        rw [fds]
        exact begins_beside found (.back sub io p.node) []
      next => exact gives_up

theorem step_fits (plain : Plain cmd) (all : AllFit cmd s) (stepped : step s turn = some s') :
    AllFit cmd s' := by
  obtain ⟨p, here, moved⟩ := Option.bind_eq_some_iff.mp stepped
  have gives_up : AllFit cmd (s.set turn.pid p.exit) := all.set turn.pid (exit_fits p)
  obtain ⟨node, code, fds, children⟩ := p
  rcases all turn.pid _ here with ⟨rfl, -⟩ | ⟨sub, io, found, plumbed⟩
  -- who has exited makes no step
  · cases moved
  · dsimp only at found plumbed
    cases plumbed with
    | runcmd =>
        cases moved
        exact runcmd_fits plain all found rfl
    | listed left right => exact all.wait (begins_beside found (.listRight left right io node) children) moved
    | forkLeft left right =>
        simp only [Jobs.advance] at moved
        split at moved <;> cases moved
        next =>
          apply all.fork turn.pid
          · exact Or.inr ⟨.pipe left right, io, found, .forkRight left right⟩
          · rw [plumbLeft_piped]
            exact begins_beside found (.pipeLeft left right io node) []
        next => exact gives_up
    | forkRight left right =>
        simp only [Jobs.advance] at moved
        split at moved <;> cases moved
        next =>
          apply all.fork turn.pid
          · rw [close_piped]
            exact Or.inr ⟨.pipe left right, io, found, .waiting 2 left right⟩
          · rw [plumbRight_piped]
            exact begins_beside found (.pipeRight left right io node) []
        next => exact gives_up
    | waiting n left right =>
        cases n with
        | zero =>
            cases moved
            exact gives_up
        | succ n => exact all.wait (Or.inr ⟨.pipe left right, io, found, .waiting n left right⟩) moved
    | program argv =>
        cases moved
        exact gives_up

theorem run_fits {turns : List Turn} (plain : Plain cmd) (ran : run step (forked cmd) turns = some s) :
    AllFit cmd s := by
  apply run_invariant step (fun _ s => AllFit cmd s) ?_ ?_ ran
  · intro pid p there
    simp only [forked] at there
    split at there
    next =>
      cases there
      exact Or.inr ⟨cmd, shellIo, part_nil _ _ _, .runcmd cmd⟩
    next => cases there
  · intro _ s turn s' _ all stepped
    exact step_fits plain all stepped

end Plumbing

section Parsed

theorem redirected_plain {cmd : Cmd} (plain : Plain cmd) (redirs : List Redir) :
    Plain (redirected cmd redirs) := by
  induction redirs generalizing cmd with
  | nil => exact plain
  | cons redir redirs ih =>
      apply ih
      have standard : redir.op.fd ≤ 1 := by
        cases redir.op <;> decide
      exact ⟨standard, plain⟩

theorem inBackground_plain {cmd : Cmd} (plain : Plain cmd) (amps : Nat) :
    Plain (inBackground cmd amps) := by
  induction amps generalizing cmd with
  | zero => exact plain
  | succ amps ih => exact ih plain

mutual

theorem Line.plain (line : Line) : Plain line.cmd := by
  cases line with
  | last first amps => exact inBackground_plain first.plain amps
  | seq first amps rest => exact ⟨inBackground_plain first.plain amps, rest.plain⟩

theorem Pipeline.plain (pipe : Pipeline) : Plain pipe.cmd := by
  cases pipe with
  | last first => exact first.plain
  | pipe first rest => exact ⟨first.plain, rest.plain⟩

theorem Exec.plain (exec : Exec) : Plain exec.cmd := by
  cases exec with
  | block line redirs => exact redirected_plain line.plain redirs
  | simple redirs args few =>
      have plain : Plain (.exec (args.map Arg.word)) := trivial
      exact redirected_plain plain _

end

theorem parsed_plain {str : CString} {turns : Nat} {cmd : Cmd} {line : Nat → UInt8}
    (parsed : parsecmd str turns = some (.ok (cmd, line))) : Plain cmd := by
  obtain ⟨tree, -, made, -⟩ := parsecmd_reads str turns _ parsed
  dsimp only at made
  rw [← made]
  exact tree.plain

end Parsed

section Runs

variable {str : CString} {turns : Nat} {cmd : Cmd} {line : Nat → UInt8} {steps : List Turn} {s : Jobs}
variable {pid : Nat} {p : Process}

/-- Between `pipe` and the second fork. -/
def Code.forks : Code → Bool
  | .forkLeft _ _ _ _ => true
  | .forkRight _ _ _ => true
  | _ => false

theorem Io.Within.file {io : Io} {node : Path} (within : io.Within node) {fd : Nat} {f : Opened}
    (open_ : io.fds fd = some f) : f.reach <+: node := by
  rcases fd with _ | _ | _ | fd
  · exact Option.some.inj open_ ▸ within.stdin
  · exact Option.some.inj open_ ▸ within.stdout
  · exact Option.some.inj open_ ▸ within.stderr
  · cases open_

theorem piped_file {io : Io} {node : Path} (within : io.Within node) {fd : Nat} {f : Opened}
    (open_ : io.piped node fd = some f) : f.reach <+: node ∨ f = .readEnd node ∨ f = .writeEnd node := by
  rcases fd with _ | _ | _ | _ | _ | fd
  · exact Or.inl (within.file (show io.fds 0 = some f from open_))
  · exact Or.inl (within.file (show io.fds 1 = some f from open_))
  · exact Or.inl (within.file (show io.fds 2 = some f from open_))
  · exact Or.inr (Or.inl (Option.some.inj open_).symm)
  · exact Or.inr (Or.inr (Option.some.inj open_).symm)
  · cases open_

/-- `a|b>c` -/
def pipeToFile : CString := ⟨[97, 124, 98, 62, 99, 10], by decide⟩

def pipeToFileCmd : Cmd :=
  .pipe (.exec [⟨0, 1⟩]) (.redir (.exec [⟨2, 3⟩]) ⟨4, 5⟩ (O_WRONLY ||| O_CREATE ||| O_TRUNC) 1)

theorem pipeToFile_parsed : ∃ line, parsecmd pipeToFile 40 = some (.ok (pipeToFileCmd, line)) := by
  have parses : ((parsecmd pipeToFile 40 : Option _).any fun r =>
      r.toOption.any fun r => decide (r.1 = pipeToFileCmd)) = true := by
    decide +kernel
  obtain ⟨outcome, parsed, checks⟩ := (Option.any_eq_true _ _).mp parses
  cases outcome with
  | error e => cases checks
  | ok r => exact ⟨r.2, of_decide_eq_true checks ▸ parsed⟩

/-- The right side starts its program before the left side does anything. -/
def rightFirst : List Turn := [⟨0, true, 0⟩, ⟨0, true, 0⟩, ⟨0, true, 0⟩, ⟨2, true, 0⟩, ⟨2, true, 0⟩]

end Runs

section Waiting

variable {s s' : Jobs} {turn : Turn} {pid : Nat} {p child : Process}

/-- How many children a process will still wait for. -/
def Code.waits : Code → Nat
  | .listed _ => 1
  | .forkRight _ _ _ => 1
  | .waiting n => n
  | _ => 0

/-- A process has no more children than it will wait for, and a process of the foreground that has not
exited is a child of one of the foreground. -/
structure Family (s : Jobs) : Prop where
  fresh : ∀ pid, s.next ≤ pid → s.process pid = none
  waits : ∀ pid p, s.process pid = some p → p.children.length ≤ p.code.waits
  housed : ∀ pid p, s.process pid = some p → pid ≠ 0 → p.code ≠ .exited → .background ∉ p.node →
    ∃ q parent, q < pid ∧ s.process q = some parent ∧ pid ∈ parent.children ∧ .background ∉ parent.node

theorem Family.below (family : Family s) (here : s.process pid = some p) : pid < s.next := by
  by_contra beyond
  rw [family.fresh pid (by omega)] at here
  cases here

/-- The children a process no longer has must have exited. -/
theorem Family.set (family : Family s) (here : s.process pid = some p) (p' : Process)
    (waits : p'.children.length ≤ p'.code.waits) (node : Side.background ∈ p'.node ↔ .background ∈ p.node)
    (live : p.code ≠ .exited)
    (kept : ∀ i ∈ p.children, i ∈ p'.children ∨ (s.process i).map Process.code = some .exited) :
    Family (s.set pid p') where
  fresh other beyond := by
    have apart : other ≠ pid := by
      have below := family.below here
      have next : (s.set pid p').next = s.next := rfl
      omega
    exact (Function.update_of_ne apart _ _).trans (family.fresh other beyond)
  waits other q there := by
    change Function.update s.process pid (some p') other = some q at there
    by_cases same : other = pid
    · rw [same, Function.update_self] at there
      cases there
      exact waits
    · rw [Function.update_of_ne same] at there
      exact family.waits other q there
  housed other q there inner running front := by
    change Function.update s.process pid (some p') other = some q at there
    have before : ∃ old, s.process other = some old ∧ old.code ≠ .exited ∧ Side.background ∉ old.node := by
      by_cases same : other = pid
      · subst same
        rw [Function.update_self] at there
        cases there
        exact ⟨p, here, live, fun back => front (node.mpr back)⟩
      · rw [Function.update_of_ne same] at there
        exact ⟨q, there, running, front⟩
    obtain ⟨old, was, ran, ahead⟩ := before
    obtain ⟨g, parent, lower, above, member, leads⟩ := family.housed other old was inner ran ahead
    by_cases same : g = pid
    · subst same
      rw [here] at above
      cases above
      refine ⟨g, p', lower, Function.update_self _ _ _, ?_, fun back => leads (node.mp back)⟩
      rcases kept other member with stays | gone
      · exact stays
      · rw [was] at gone
        exact absurd (Option.some.inj gone) ran
    · exact ⟨g, parent, lower, (Function.update_of_ne same _ _).trans above, member, leads⟩

theorem Family.add (family : Family s) (childless : child.children = [])
    (housed : .background ∉ child.node → ∃ q parent, s.process q = some parent ∧ s.next ∈ parent.children ∧
      .background ∉ parent.node) : Family (s.add child) where
  fresh other beyond := by
    have next : (s.add child).next = s.next + 1 := rfl
    have apart : other ≠ s.next := by omega
    exact (Function.update_of_ne apart _ _).trans (family.fresh other (by omega))
  waits other q there := by
    change Function.update s.process s.next (some child) other = some q at there
    by_cases same : other = s.next
    · rw [same, Function.update_self] at there
      cases there
      rw [childless]
      exact Nat.zero_le _
    · rw [Function.update_of_ne same] at there
      exact family.waits other q there
  housed other q there inner running front := by
    change Function.update s.process s.next (some child) other = some q at there
    have older : ∀ {g parent}, s.process g = some parent → (s.add child).process g = some parent :=
      fun above => (Function.update_of_ne (Nat.ne_of_lt (family.below above)) _ _).trans above
    by_cases same : other = s.next
    · subst same
      rw [Function.update_self] at there
      cases there
      obtain ⟨g, parent, above, member, leads⟩ := housed front
      exact ⟨g, parent, family.below above, older above, member, leads⟩
    · rw [Function.update_of_ne same] at there
      obtain ⟨g, parent, lower, above, member, leads⟩ := family.housed other q there inner running front
      exact ⟨g, parent, lower, older above, member, leads⟩

theorem Family.fork (family : Family s) (here : s.process pid = some p) (p' : Process)
    (live : p.code ≠ .exited) (node : p'.node = p.node) (children : p'.children = p.children)
    (waits : p.children.length + 1 ≤ p'.code.waits) (side : Side) (cmd : Cmd) (fds : Fds) :
    Family (s.fork pid p' (p.child side cmd fds)) := by
  have adopts : Family (s.set pid { p' with children := s.next :: p'.children }) := by
    apply family.set here _ ?_ ?_ live ?_
    · dsimp only
      rw [children]
      exact waits
    · rw [node]
    · intro i member
      rw [children]
      exact Or.inl (List.mem_cons_of_mem _ member)
  apply adopts.add rfl
  intro ahead
  refine ⟨pid, _, Function.update_self _ _ _, List.mem_cons_self, fun back => ahead ?_⟩
  rw [node] at back
  exact List.mem_append_left _ back

theorem Family.exit (family : Family s) (here : s.process pid = some p) (live : p.code ≠ .exited)
    (alone : p.code.waits = 0) : Family (s.set pid p.exit) := by
  have node : Side.background ∈ p.exit.node ↔ .background ∈ p.node := Iff.rfl
  apply family.set here p.exit (Nat.zero_le _) node live
  intro i member
  have few := family.waits pid p here
  rw [alone, Nat.le_zero, List.length_eq_zero_iff] at few
  rw [few] at member
  cases member

theorem Family.wait (family : Family s) (here : s.process turn.pid = some p) (p' : Process)
    (live : p.code ≠ .exited) (node : Side.background ∈ p'.node ↔ .background ∈ p.node)
    (children : p'.children = p.children)
    (waits : p.code.waits ≤ p'.code.waits + 1) (waited : s.wait turn p' = some s') : Family s' := by
  have few := family.waits turn.pid p here
  rw [Jobs.wait, children] at waited
  split at waited
  next childless =>
    cases waited
    apply family.set here p' ?_ node live ?_
    · rw [children, childless]
      exact Nat.zero_le _
    · intro i member
      rw [children]
      exact Or.inl member
  next =>
    split at waited
    next reaped =>
      cases waited
      have shorter := List.length_erase_of_mem reaped.1
      have fits : (p.children.erase turn.child).length ≤ p'.code.waits := by omega
      refine family.set here { p' with children := p.children.erase turn.child } fits node live ?_
      intro i member
      by_cases same : i = turn.child
      · exact Or.inr (same ▸ reaped.2)
      · exact Or.inl ((List.mem_erase_of_ne same).mpr member)
    next => cases waited

/-- The second fork of a pipe does not fail. -/
def forksBoth (s : Jobs) (turn : Turn) : Bool :=
  match (s.process turn.pid).map Process.code with
  | some (.forkRight _ _ _) => turn.ok
  | _ => true

theorem runcmd_family (family : Family s) (here : s.process turn.pid = some p) {cmd : Cmd}
    (at_ : p.code = .runcmd cmd) : Family (s.runcmd turn p cmd) := by
  have live : p.code ≠ .exited := by
    rw [at_]
    nofun
  have alone : p.code.waits = 0 := by
    rw [at_]
    rfl
  have gives_up : Family (s.set turn.pid p.exit) := family.exit here live alone
  have few : p.children.length ≤ 0 := alone ▸ family.waits turn.pid p here
  have same : ∀ i ∈ p.children, i ∈ p.children ∨ (s.process i).map Process.code = some .exited :=
    fun _ => Or.inl
  have stays : ∀ code fds, Family (s.set turn.pid { p with code, fds }) := fun code fds =>
    family.set here { p with code, fds } (few.trans (Nat.zero_le _)) Iff.rfl live same
  cases cmd with
  | exec argv =>
      rw [Jobs.runcmd]
      split
      next => exact stays (.program argv) p.fds
      next => exact gives_up
  | redir cmd file mode fd =>
      simp only [Jobs.runcmd]
      split
      next new fds _ =>
        split
        next =>
          refine family.set here ⟨p.node ++ [.redirected], .runcmd cmd, fds, p.children⟩ few ?_ live same
          simp
        next => exact gives_up
      next => exact gives_up
  | list left right =>
      rw [Jobs.runcmd]
      split
      next =>
        have adopts : p.children.length + 1 ≤ 1 := Nat.succ_le_succ few
        exact family.fork here { p with code := .listed right } live rfl rfl adopts .left left p.fds
      next => exact gives_up
  | pipe left right =>
      simp only [Jobs.runcmd]
      split
      next p0 first _ =>
        split
        next p1 fds _ =>
          split
          next => exact stays (.forkLeft left right p0 p1) fds
          next => exact gives_up
        next => exact gives_up
      next => exact gives_up
  | back cmd =>
      rw [Jobs.runcmd]
      split
      next =>
        apply gives_up.add rfl
        intro front
        exact absurd (List.mem_append_right _ List.mem_cons_self) front
      next => exact gives_up

theorem step_family (family : Family s) (both : forksBoth s turn = true) (stepped : step s turn = some s') :
    Family s' := by
  obtain ⟨p, here, moved⟩ := Option.bind_eq_some_iff.mp stepped
  have few := family.waits turn.pid p here
  rw [forksBoth, here] at both
  obtain ⟨node, code, fds, children⟩ := p
  cases code with
  | runcmd cmd =>
      cases moved
      exact runcmd_family family here rfl
  | listed right =>
      have ahead : Side.background ∈ node ++ [Side.right] ↔ Side.background ∈ node := by simp
      exact family.wait here ⟨node ++ [.right], .runcmd right, fds, children⟩ nofun ahead rfl
        (Nat.le_refl 1) moved
  | forkLeft left right p0 p1 =>
      simp only [Jobs.advance] at moved
      split at moved <;> cases moved
      next =>
        have adopts : children.length + 1 ≤ 1 := Nat.succ_le_succ few
        exact family.fork here ⟨node, .forkRight right p0 p1, fds, children⟩ nofun rfl rfl adopts .left left _
      next => exact family.exit here nofun rfl
  | forkRight right p0 p1 =>
      simp only [Jobs.advance] at moved
      split at moved <;> cases moved
      next =>
        have adopts : children.length + 1 ≤ 2 := Nat.succ_le_succ few
        exact family.fork here ⟨node, .waiting 2, _, children⟩ nofun rfl rfl adopts .right right _
      next fails => exact absurd both fails
  | waiting n =>
      cases n with
      | zero =>
          cases moved
          exact family.exit here nofun rfl
      | succ n =>
          exact family.wait here ⟨node, .waiting n, fds, children⟩ nofun Iff.rfl rfl (Nat.le_refl _) moved
  | program argv =>
      cases moved
      exact family.exit here nofun rfl
  | exited => cases moved

theorem forked_family (cmd : Cmd) : Family (forked cmd) where
  fresh pid beyond := by
    have later : pid ≠ 0 := by
      have next : (forked cmd).next = 1 := rfl
      omega
    exact if_neg later
  waits pid p there := by
    simp only [forked] at there
    split at there <;> cases there
    exact Nat.le_refl 0
  housed pid p there inner := by
    simp only [forked, if_neg inner] at there
    cases there

/-- The right side ends and is waited for, then the left side. -/
def bothEnd : List Turn := rightFirst ++
  [⟨2, true, 0⟩, ⟨0, true, 2⟩, ⟨1, true, 0⟩, ⟨1, true, 0⟩, ⟨0, true, 1⟩, ⟨0, true, 0⟩]

/-- When the second fork fails, the shell prompts while the left side goes on. -/
example : ((run step (forked pipeToFileCmd) [⟨0, true, 0⟩, ⟨0, true, 0⟩, ⟨0, false, 0⟩]).map fun s =>
    [s.process 0, s.process 1].map fun p => p.map Process.code) =
      some [some .exited, some (.runcmd (.exec [⟨0, 1⟩]))] := by
  decide +kernel

end Waiting

end PaddleOs.Shell
