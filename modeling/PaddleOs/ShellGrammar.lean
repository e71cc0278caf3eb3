import PaddleOs.ShellTokens

/-!
The grammar of the shell as derivation trees,

    line  := pipe '&'* [';' line]
    pipe  := exec ['|' pipe]
    exec  := '(' line ')' redir* | redir* (word redir*)*
    redir := ('<' | '>' | '>>') word

with fewer than `MAXARGS` words in an exec. A tree has its tokens and the command it stands for.
-/

namespace PaddleOs.Shell

open Grep (CString)

inductive RedirOp where
  | input
  | output
  | append
  deriving DecidableEq, Repr

def RedirOp.symbol : RedirOp → UInt8
  | .input => LESS
  | .output => GREATER
  | .append => PLUS

def RedirOp.mode : RedirOp → Nat
  | .input => O_RDONLY
  | .output => O_WRONLY ||| O_CREATE ||| O_TRUNC
  | .append => O_WRONLY ||| O_CREATE

def RedirOp.fd : RedirOp → Nat
  | .input => 0
  | .output => 1
  | .append => 1

structure Redir where
  op : RedirOp
  file : Str
  deriving DecidableEq, Repr

def Redir.tokens (redir : Redir) : List Token := [.symbol redir.op.symbol, .word redir.file]

def Redir.around (cmd : Cmd) (redir : Redir) : Cmd := .redir cmd redir.file redir.op.mode redir.op.fd

/-- Each redirection is put around the command with those before it. -/
def redirected (cmd : Cmd) (redirs : List Redir) : Cmd := redirs.foldl Redir.around cmd

/-- A word of a command and the redirections after it. -/
structure Arg where
  word : Str
  redirs : List Redir

def Arg.tokens (arg : Arg) : List Token := .word arg.word :: arg.redirs.flatMap Redir.tokens

mutual

inductive Line where
  | last (first : Pipeline) (amps : Nat)
  | seq (first : Pipeline) (amps : Nat) (rest : Line)

inductive Pipeline where
  | last (first : Exec)
  | pipe (first : Exec) (rest : Pipeline)

inductive Exec where
  | block (line : Line) (redirs : List Redir)
  | simple (redirs : List Redir) (args : List Arg) (few : args.length < MAXARGS)

end

mutual

def Line.tokens : Line → List Token
  | .last first amps => first.tokens ++ List.replicate amps (Token.symbol AMP)
  | .seq first amps rest =>
      first.tokens ++ List.replicate amps (Token.symbol AMP) ++ Token.symbol SEMI :: rest.tokens

def Pipeline.tokens : Pipeline → List Token
  | .last first => first.tokens
  | .pipe first rest => first.tokens ++ Token.symbol BAR :: rest.tokens

def Exec.tokens : Exec → List Token
  | .block line redirs =>
      Token.symbol OPEN :: (line.tokens ++ Token.symbol CLOSE :: redirs.flatMap Redir.tokens)
  | .simple redirs args _ => redirs.flatMap Redir.tokens ++ args.flatMap Arg.tokens

end

/-- One `back` for each '&'. -/
def inBackground (cmd : Cmd) : Nat → Cmd
  | 0 => cmd
  | amps + 1 => inBackground (.back cmd) amps

mutual

def Line.cmd : Line → Cmd
  | .last first amps => inBackground first.cmd amps
  | .seq first amps rest => .list (inBackground first.cmd amps) rest.cmd

def Pipeline.cmd : Pipeline → Cmd
  | .last first => first.cmd
  | .pipe first rest => .pipe first.cmd rest.cmd

def Exec.cmd : Exec → Cmd
  | .block line redirs => redirected line.cmd redirs
  | .simple redirs args _ => redirected (.exec (args.map Arg.word)) (redirs ++ args.flatMap Arg.redirs)

end

/-- The whole line derives from the grammar, and this is its command. -/
def Derives (str : CString) (cmd : Cmd) : Prop := ∃ line : Line, line.tokens = tokens str 0 ∧ line.cmd = cmd

section Redirections

@[simp]
theorem redirected_nil (cmd : Cmd) : redirected cmd [] = cmd := rfl

@[simp]
theorem redirected_cons (cmd : Cmd) (redir : Redir) (redirs : List Redir) :
    redirected cmd (redir :: redirs) = redirected (redir.around cmd) redirs := rfl

theorem redirected_append (cmd : Cmd) (first second : List Redir) :
    redirected cmd (first ++ second) = redirected (redirected cmd first) second := List.foldl_append

/-- A word is added to the command inside its redirections. -/
theorem addArg_redirected {cmd : Cmd} (redirs : List Redir) (arg : Str) :
    addArg (redirected cmd redirs) arg = redirected (addArg cmd arg) redirs := by
  induction redirs generalizing cmd with
  | nil => rfl
  | cons redir redirs ih => exact ih

/-- What the calls of `redircmd` in `parseredirs` make of what `gettoken` returned. -/
theorem redir_of_symbol (op : RedirOp) (cmd : Cmd) (file : Str) :
    (if op.symbol = LESS then .redir cmd file O_RDONLY 0
      else if op.symbol = GREATER then .redir cmd file (O_WRONLY ||| O_CREATE ||| O_TRUNC) 1
      else if op.symbol = PLUS then .redir cmd file (O_WRONLY ||| O_CREATE) 1
      else cmd) = Redir.around cmd ⟨op, file⟩ := by
  cases op <;> rfl

/-- `peek` with "<>" finds the three operators. -/
theorem starts_redir {ts : List Token} (begins : starts [LESS, GREATER] ts = true) :
    ∃ (op : RedirOp) (rest : List Token), ts = .symbol op.symbol :: rest := by
  rcases ts with _ | ⟨_ | c, rest⟩
  · cases begins
  · cases begins
  · rw [starts, List.contains_iff_mem] at begins
    by_cases plus : c = PLUS
    · exact ⟨.append, rest, by rw [plus]; rfl⟩
    · rw [if_neg plus, List.mem_cons, List.mem_singleton] at begins
      rcases begins with less | greater
      · exact ⟨.input, rest, by rw [less]; rfl⟩
      · exact ⟨.output, rest, by rw [greater]; rfl⟩

theorem starts_of_redir (op : RedirOp) (rest : List Token) :
    starts [LESS, GREATER] (.symbol op.symbol :: rest) = true := by
  cases op <;> rfl

theorem symbol_injective : Function.Injective RedirOp.symbol := by
  intro op other same
  cases op <;> cases other <;> first | rfl | exact absurd same (by decide)

theorem redir_tokens_inj {redir other : Redir} {rest more : List Token}
    (same : redir.tokens ++ rest = other.tokens ++ more) : redir = other ∧ rest = more := by
  obtain ⟨op, file⟩ := redir
  obtain ⟨op', file'⟩ := other
  simp only [Redir.tokens, List.cons_append, List.nil_append, List.cons.injEq, Token.symbol.injEq,
    Token.word.injEq] at same
  obtain ⟨symbol, rfl, rfl⟩ := same
  rw [symbol_injective symbol]
  exact ⟨rfl, rfl⟩

end Redirections

end PaddleOs.Shell
