import Mathlib.Logic.Function.Basic
import PaddleOs.Foundation.Turns
import PaddleOs.RegexMatch

/-!
The parser of `user/sh.c`. Pointers into the line are indices, counted from its first character; the
cursor `*ps` is passed and returned. A call gets so many turns of its loops and nested calls and has no
result when it needs more. `malloc` does not fail.
-/

namespace PaddleOs.Shell

open Grep (CString)
open Foundation.Turns

def MAXARGS : Nat := 10

def O_RDONLY : Nat := 0x000
def O_WRONLY : Nat := 0x001
def O_CREATE : Nat := 0x200
def O_TRUNC : Nat := 0x400

def LESS : UInt8 := 60
def BAR : UInt8 := 124
def GREATER : UInt8 := 62
def AMP : UInt8 := 38
def SEMI : UInt8 := 59
def OPEN : UInt8 := 40
def CLOSE : UInt8 := 41

/-- The token `>>` is returned as '+'. -/
def PLUS : UInt8 := 43

/-- A word is returned as 'a'. -/
def WORD : UInt8 := 97

/-- " \\t\\r\\n\\v" -/
def whitespace : List UInt8 := [32, 9, 13, 10, 11]

/-- "<|>&;()" -/
def symbols : List UInt8 := [LESS, BAR, GREATER, AMP, SEMI, OPEN, CLOSE]

def strchr (s : List UInt8) (c : UInt8) : Bool := s.contains c

/-- The texts of the calls of `panic` are "syntax", "missing file for redirection", "parseblock",
"syntax - missing )" and "too many args". -/
inductive Panic where
  | syntaxError
  | missingFile
  | parseblock
  | missingClose
  | tooManyArgs
  deriving DecidableEq, Repr

/-- The first character of a string in the line and the end of it. -/
structure Str where
  q : Nat
  eq : Nat
  deriving DecidableEq, Repr

/-- `struct cmd` with its kinds; `argv` and `eargv` are one list. -/
inductive Cmd where
  | exec (argv : List Str)
  | redir (cmd : Cmd) (file : Str) (mode fd : Nat)
  | pipe (left right : Cmd)
  | list (left right : Cmd)
  | back (cmd : Cmd)
  deriving DecidableEq, Repr

section Tokens

variable (str : CString)

/-- The character at an index; behind the line it is the terminator. -/
def charAt (i : Nat) : UInt8 := str.chars.getD i 0

def scanFrom (p : UInt8 → Bool) : Nat → Nat → Nat
  | 0, s => s
  | n + 1, s => if p (charAt str s) then scanFrom p n (s + 1) else s

/-- `while (s < es && p(*s)) s++;` -/
def scan (p : UInt8 → Bool) (s : Nat) : Nat := scanFrom str p (str.chars.length - s) s

def wordChar (c : UInt8) : Bool := !strchr whitespace c && !strchr symbols c

/-- `gettoken` with what it returns through `q` and `eq`. -/
def gettoken (ps : Nat) : UInt8 × Str × Nat :=
  let q := scan str (strchr whitespace) ps
  let c := charAt str q
  let (ret, eq) :=
    if c = 0 then (c, q)
    else if c = BAR ∨ c = OPEN ∨ c = CLOSE ∨ c = SEMI ∨ c = AMP ∨ c = LESS then (c, q + 1)
    else if c = GREATER then
      if charAt str (q + 1) = GREATER then (PLUS, q + 2) else (c, q + 1)
    else (WORD, scan str wordChar q)
  (ret, ⟨q, eq⟩, scan str (strchr whitespace) eq)

def peek (ps : Nat) (toks : List UInt8) : Bool × Nat :=
  let s := scan str (strchr whitespace) ps
  (charAt str s ≠ 0 && strchr toks (charAt str s), s)

end Tokens

section Parser

variable (str : CString)

abbrev Parser := Limited Panic

def parseredirs : Nat → Cmd → Nat → Parser (Cmd × Nat)
  | 0, _, _ => outOfTurns
  | turns + 1, cmd, ps => do
      let (more, ps) := peek str ps [LESS, GREATER]
      if more then
        let (tok, _, ps) := gettoken str ps
        let (ret, file, ps) := gettoken str ps
        if ret ≠ WORD then throw .missingFile
        else
          let cmd :=
            if tok = LESS then .redir cmd file O_RDONLY 0
            else if tok = GREATER then .redir cmd file (O_WRONLY ||| O_CREATE ||| O_TRUNC) 1
            else if tok = PLUS then .redir cmd file (O_WRONLY ||| O_CREATE) 1
            else cmd
          parseredirs turns cmd ps
      else return (cmd, ps)

/-- `cmd->argv[argc] = q;` where `ret` is the command with its redirections around it. -/
def addArg : Cmd → Str → Cmd
  | .exec argv, arg => .exec (argv ++ [arg])
  | .redir cmd file mode fd, arg => .redir (addArg cmd arg) file mode fd
  | cmd, _ => cmd

/-- The loop of `parseexec`. -/
def parseargs : Nat → Nat → Cmd → Nat → Parser (Cmd × Nat)
  | 0, _, _, _ => outOfTurns
  | turns + 1, argc, ret, ps => do
      let (done, ps) := peek str ps [BAR, CLOSE, AMP, SEMI]
      if done then return (ret, ps)
      else
        let (tok, arg, ps) := gettoken str ps
        if tok = 0 then return (ret, ps)
        else if tok ≠ WORD then throw .syntaxError
        else
          let ret := addArg ret arg
          let argc := argc + 1
          if argc ≥ MAXARGS then throw .tooManyArgs
          else
            let (ret, ps) ← parseredirs str turns ret ps
            parseargs turns argc ret ps

/-- The loop of `parseline`. -/
def parseamps : Nat → Cmd → Nat → Parser (Cmd × Nat)
  | 0, _, _ => outOfTurns
  | turns + 1, cmd, ps => do
      let (more, ps) := peek str ps [AMP]
      if more then
        let (_, _, ps) := gettoken str ps
        parseamps turns (.back cmd) ps
      else return (cmd, ps)

mutual

def parseline : Nat → Nat → Parser (Cmd × Nat)
  | 0, _ => outOfTurns
  | turns + 1, ps => do
      let (cmd, ps) ← parsepipe turns ps
      let (cmd, ps) ← parseamps str turns cmd ps
      let (more, ps) := peek str ps [SEMI]
      if more then
        let (_, _, ps) := gettoken str ps
        let (right, ps) ← parseline turns ps
        return (.list cmd right, ps)
      else return (cmd, ps)

def parsepipe : Nat → Nat → Parser (Cmd × Nat)
  | 0, _ => outOfTurns
  | turns + 1, ps => do
      let (cmd, ps) ← parseexec turns ps
      let (more, ps) := peek str ps [BAR]
      if more then
        let (_, _, ps) := gettoken str ps
        let (right, ps) ← parsepipe turns ps
        return (.pipe cmd right, ps)
      else return (cmd, ps)

def parseblock : Nat → Nat → Parser (Cmd × Nat)
  | 0, _ => outOfTurns
  | turns + 1, ps => do
      let (more, ps) := peek str ps [OPEN]
      if more then
        let (_, _, ps) := gettoken str ps
        let (cmd, ps) ← parseline turns ps
        let (closed, ps) := peek str ps [CLOSE]
        if closed then
          let (_, _, ps) := gettoken str ps
          parseredirs str turns cmd ps
        else throw .missingClose
      else throw .parseblock

def parseexec : Nat → Nat → Parser (Cmd × Nat)
  | 0, _ => outOfTurns
  | turns + 1, ps => do
      let (block, ps) := peek str ps [OPEN]
      if block then parseblock turns ps
      else
        let (ret, ps) ← parseredirs str turns (.exec []) ps
        parseargs str turns 0 ret ps

end

/-- `*eargv[i] = 0;` and `*efile = 0;` for all strings of the command. -/
def nulterminate : Cmd → (Nat → UInt8) → Nat → UInt8
  | .exec argv, line => argv.foldl (fun line arg => Function.update line arg.eq 0) line
  | .redir cmd file _ _, line => Function.update (nulterminate cmd line) file.eq 0
  | .pipe left right, line => nulterminate right (nulterminate left line)
  | .list left right, line => nulterminate right (nulterminate left line)
  | .back cmd, line => nulterminate cmd line

/-- The command and the line as it is afterwards. -/
def parsecmd (turns : Nat) : Parser (Cmd × (Nat → UInt8)) := do
  let es := str.chars.length
  let (cmd, s) ← parseline str turns 0
  let (_, s) := peek str s []
  if s ≠ es then throw .syntaxError
  else return (cmd, nulterminate cmd (charAt str))

end Parser

end PaddleOs.Shell
