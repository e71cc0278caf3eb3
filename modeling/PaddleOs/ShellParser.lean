import PaddleOs.ShellGrammar

/-!
What one turn of each part of the parser does with the tokens that are left, and from it that the
parser reads derivation trees and needs no more turns than there are tokens, four to each.
-/

namespace PaddleOs.Shell

open Grep (CString)
open Foundation.Turns

variable {str : CString} {s : Nat} {ts rest : List Token}

/-- The cursor stands where these tokens begin. -/
structure At (str : CString) (s : Nat) (ts : List Token) : Prop where
  bound : s ≤ str.chars.length
  tokens : tokens str s = ts

section Cursor

theorem At.skip (here : At str s ts) : At str (skip str s) ts :=
  ⟨skip_le here.bound, (tokens_skip here.bound).trans here.tokens⟩

theorem At.peek (here : At str s ts) {toks : List UInt8} (known : toks ⊆ symbols) :
    (Shell.peek str s toks).1 = starts toks ts ∧ At str (Shell.peek str s toks).2 ts := by
  rw [peek_eq here.bound known, here.tokens]
  exact ⟨rfl, here.skip⟩

theorem At.symbol {c : UInt8} (here : At str s (.symbol c :: rest)) :
    (gettoken str s).1 = c ∧ At str (gettoken str s).2.2 rest := by
  obtain ⟨w, s', read, bound, tokens⟩ := gettoken_symbol here.bound here.tokens
  rw [read]
  exact ⟨rfl, bound, tokens⟩

theorem At.word {w : Str} (here : At str s (.word w :: rest)) :
    (gettoken str s).1 = WORD ∧ (gettoken str s).2.1 = w ∧ At str (gettoken str s).2.2 rest := by
  obtain ⟨s', read, bound, tokens⟩ := gettoken_word here.bound here.tokens
  rw [read]
  exact ⟨rfl, rfl, bound, tokens⟩

/-- What `gettoken` returns for a symbol is not what it returns for a word or for the end. -/
theorem At.symbol_plain {c : UInt8} (here : At str s (.symbol c :: rest)) : c ≠ 0 ∧ c ≠ WORD := by
  obtain ⟨ret, w, s', -, -, answers⟩ := gettoken_tokens here.bound
  rw [here.tokens] at answers
  rcases answers with ⟨-, found, -⟩ | ⟨-, found⟩ | ⟨nonzero, other, found⟩
  · cases found
  · cases found
  · cases found
    exact ⟨nonzero, other⟩

theorem At.finish (here : At str s []) : (gettoken str s).1 = 0 ∧ At str (gettoken str s).2.2 [] := by
  obtain ⟨w, s', read, bound, tokens⟩ := gettoken_end here.bound here.tokens
  rw [read]
  exact ⟨rfl, bound, tokens⟩

/-- A word is read exactly if one is there. -/
theorem At.word_iff (here : At str s ts) : (gettoken str s).1 = WORD ↔ ∃ w rest, ts = .word w :: rest := by
  obtain ⟨ret, w, s', read, -, answers⟩ := gettoken_tokens here.bound
  rw [here.tokens] at answers
  rw [read]
  constructor
  · intro word
    rcases answers with ⟨zero, -⟩ | ⟨-, found⟩ | ⟨-, other, -⟩
    · exact absurd (zero.symm.trans word) (by decide)
    · exact ⟨w, _, found⟩
    · exact absurd word other
  · rintro ⟨w', rest, rfl⟩
    rcases answers with ⟨-, found, -⟩ | ⟨word, -⟩ | ⟨-, -, found⟩
    · cases found
    · exact word
    · cases found

/-- `peek` finds the symbol, and `gettoken` takes it. -/
theorem At.take {c : UInt8} (here : At str s (.symbol c :: rest)) (known : [c] ⊆ symbols) :
    (Shell.peek str s [c]).1 = true ∧ At str (gettoken str (Shell.peek str s [c]).2).2.2 rest := by
  obtain ⟨answer, there⟩ := here.peek known
  obtain ⟨-, -, plus⟩ := Shell.symbol_plain c (known (List.mem_singleton_self c))
  refine ⟨?_, there.symbol.2⟩
  rw [answer, starts, if_neg plus, List.contains_iff_mem]
  exact List.mem_singleton_self c

/-- `peek` for one symbol and, if it is there, `gettoken`. -/
theorem At.peek_symbol (here : At str s ts) {c : UInt8} (known : [c] ⊆ symbols) (other : c ≠ GREATER) :
    (starts [c] ts = false ∧ (Shell.peek str s [c]).1 = false ∧ At str (Shell.peek str s [c]).2 ts) ∨
    ∃ rest, ts = .symbol c :: rest ∧ (Shell.peek str s [c]).1 = true ∧
      At str (gettoken str (Shell.peek str s [c]).2).2.2 rest := by
  cases begins : starts [c] ts with
  | false =>
      obtain ⟨answer, there⟩ := here.peek known
      exact .inl ⟨rfl, answer.trans begins, there⟩
  | true =>
      obtain ⟨rest, rfl⟩ := starts_single other begins
      exact .inr ⟨rest, rfl, here.take known⟩

end Cursor

section Turns

variable {turns : Nat} {cmd : Cmd}

theorem parseredirs_succ (turns : Nat) (cmd : Cmd) (s : Nat) : parseredirs str (turns + 1) cmd s =
    if (peek str s [LESS, GREATER]).1 = true then
      let tok := gettoken str (peek str s [LESS, GREATER]).2
      let word := gettoken str tok.2.2
      if word.1 ≠ WORD then throw .missingFile
      else
        parseredirs str turns
          (if tok.1 = LESS then .redir cmd word.2.1 O_RDONLY 0
            else if tok.1 = GREATER then .redir cmd word.2.1 (O_WRONLY ||| O_CREATE ||| O_TRUNC) 1
            else if tok.1 = PLUS then .redir cmd word.2.1 (O_WRONLY ||| O_CREATE) 1
            else cmd) word.2.2
    else pure (cmd, (peek str s [LESS, GREATER]).2) := rfl

/-- No redirection comes, one is read, or its file is missing. -/
theorem parseredirs_turn (here : At str s ts) (turns : Nat) (cmd : Cmd) :
    (starts [LESS, GREATER] ts = false ∧ ∃ s', At str s' ts ∧
      parseredirs str (turns + 1) cmd s = pure (cmd, s')) ∨
    (∃ (redir : Redir) (rest : List Token) (s' : Nat), ts = redir.tokens ++ rest ∧ At str s' rest ∧
      parseredirs str (turns + 1) cmd s = parseredirs str turns (redir.around cmd) s') ∨
    (starts [LESS, GREATER] ts = true ∧ (∀ (redir : Redir) rest, ts ≠ redir.tokens ++ rest) ∧
      parseredirs str (turns + 1) cmd s = throw .missingFile) := by
  obtain ⟨answer, there⟩ := here.peek (show [LESS, GREATER] ⊆ symbols by decide)
  rw [parseredirs_succ, answer]
  cases begins : starts [LESS, GREATER] ts with
  | false => exact .inl ⟨rfl, _, there, if_neg (by decide)⟩
  | true =>
      refine .inr ?_
      rw [if_pos rfl]
      obtain ⟨op, rest, rfl⟩ := starts_redir begins
      obtain ⟨tok, after⟩ := there.symbol
      dsimp only
      rw [tok]
      by_cases word : ∃ w more, rest = .word w :: more
      · obtain ⟨w, more, rfl⟩ := word
        obtain ⟨isWord, text, final⟩ := after.word
        refine .inl ⟨⟨op, w⟩, more, _, rfl, final, ?_⟩
        rw [if_neg (not_not.mpr isWord), text, redir_of_symbol]
      · refine .inr ⟨rfl, fun redir more same => ?_, if_pos fun isWord => word (after.word_iff.mp isWord)⟩
        exact word ⟨_, _, (List.cons.inj same).2⟩

theorem parseargs_succ (turns argc : Nat) (cmd : Cmd) (s : Nat) : parseargs str (turns + 1) argc cmd s =
    if (peek str s [BAR, CLOSE, AMP, SEMI]).1 = true then pure (cmd, (peek str s [BAR, CLOSE, AMP, SEMI]).2)
    else
      let tok := gettoken str (peek str s [BAR, CLOSE, AMP, SEMI]).2
      if tok.1 = 0 then pure (cmd, tok.2.2)
      else if tok.1 ≠ WORD then throw .syntaxError
      else if argc + 1 ≥ MAXARGS then throw .tooManyArgs
      else parseredirs str turns (addArg cmd tok.2.1) tok.2.2 >>= fun r =>
        parseargs str turns (argc + 1) r.1 r.2 := rfl

/-- What may follow the words of a command. -/
def Follows (toks : List UInt8) (ts : List Token) : Prop := ts = [] ∨ starts toks ts = true

/-- The words end, a word is read, there is one too many, or another symbol comes. -/
theorem parseargs_turn (here : At str s ts) (turns argc : Nat) (cmd : Cmd) :
    (Follows [BAR, CLOSE, AMP, SEMI] ts ∧ ∃ s', At str s' ts ∧
      parseargs str (turns + 1) argc cmd s = pure (cmd, s')) ∨
    (∃ w rest s', ts = .word w :: rest ∧ argc + 1 < MAXARGS ∧ At str s' rest ∧
      parseargs str (turns + 1) argc cmd s =
        parseredirs str turns (addArg cmd w) s' >>= fun r => parseargs str turns (argc + 1) r.1 r.2) ∨
    (∃ w rest, ts = .word w :: rest ∧ argc + 1 ≥ MAXARGS ∧
      parseargs str (turns + 1) argc cmd s = throw .tooManyArgs) ∨
    (∃ c rest, ts = .symbol c :: rest ∧ ¬ Follows [BAR, CLOSE, AMP, SEMI] ts ∧
      parseargs str (turns + 1) argc cmd s = throw .syntaxError) := by
  obtain ⟨answer, there⟩ := here.peek (show [BAR, CLOSE, AMP, SEMI] ⊆ symbols by decide)
  rw [parseargs_succ, answer]
  cases begins : starts [BAR, CLOSE, AMP, SEMI] ts with
  | true => exact .inl ⟨.inr begins, _, there, if_pos rfl⟩
  | false =>
      rw [if_neg (by decide)]
      dsimp only
      rcases ts with _ | ⟨w | c, rest⟩
      · obtain ⟨zero, final⟩ := there.finish
        exact .inl ⟨.inl rfl, _, final, if_pos zero⟩
      · obtain ⟨isWord, text, after⟩ := there.word
        rw [isWord, if_neg (by decide), if_neg (by decide), text]
        by_cases many : argc + 1 ≥ MAXARGS
        · exact .inr (.inr (.inl ⟨w, rest, rfl, many, if_pos many⟩))
        · exact .inr (.inl ⟨w, rest, _, rfl, Nat.lt_of_not_le many, after, if_neg many⟩)
      · obtain ⟨tok, -⟩ := there.symbol
        obtain ⟨nonzero, other⟩ := here.symbol_plain
        rw [tok, if_neg nonzero, if_pos other]
        refine .inr (.inr (.inr ⟨c, rest, rfl, ?_, rfl⟩))
        rintro (none | follows)
        · cases none
        · exact absurd (begins.symm.trans follows) (by decide)

theorem parseamps_succ (turns : Nat) (cmd : Cmd) (s : Nat) : parseamps str (turns + 1) cmd s =
    if (peek str s [AMP]).1 = true then
      parseamps str turns (.back cmd) (gettoken str (peek str s [AMP]).2).2.2
    else pure (cmd, (peek str s [AMP]).2) := rfl

theorem parseamps_turn (here : At str s ts) (turns : Nat) (cmd : Cmd) :
    (starts [AMP] ts = false ∧ ∃ s', At str s' ts ∧ parseamps str (turns + 1) cmd s = pure (cmd, s')) ∨
    (∃ rest s', ts = .symbol AMP :: rest ∧ At str s' rest ∧
      parseamps str (turns + 1) cmd s = parseamps str turns (.back cmd) s') := by
  rw [parseamps_succ]
  rcases here.peek_symbol (show [AMP] ⊆ symbols by decide) (by decide) with
    ⟨begins, answer, there⟩ | ⟨rest, rfl, answer, after⟩
  · exact .inl ⟨begins, _, there, if_neg (by rw [answer]; decide)⟩
  · exact .inr ⟨rest, _, rfl, after, if_pos answer⟩

theorem parseline_succ (turns s : Nat) : parseline str (turns + 1) s = (do
    let r ← parsepipe str turns s
    let r ← parseamps str turns r.1 r.2
    if (peek str r.2 [SEMI]).1 = true then do
      let right ← parseline str turns (gettoken str (peek str r.2 [SEMI]).2).2.2
      return (.list r.1 right.1, right.2)
    else return (r.1, (peek str r.2 [SEMI]).2)) := by
  rw [parseline]

theorem parsepipe_succ (turns s : Nat) : parsepipe str (turns + 1) s = (do
    let r ← parseexec str turns s
    if (peek str r.2 [BAR]).1 = true then do
      let right ← parsepipe str turns (gettoken str (peek str r.2 [BAR]).2).2.2
      return (.pipe r.1 right.1, right.2)
    else return (r.1, (peek str r.2 [BAR]).2)) := by
  rw [parsepipe]

theorem parseblock_succ (turns s : Nat) : parseblock str (turns + 1) s =
    if (peek str s [OPEN]).1 = true then do
      let r ← parseline str turns (gettoken str (peek str s [OPEN]).2).2.2
      if (peek str r.2 [CLOSE]).1 = true then
        parseredirs str turns r.1 (gettoken str (peek str r.2 [CLOSE]).2).2.2
      else throw .missingClose
    else throw .parseblock := by
  rw [parseblock]

theorem parseexec_succ (turns s : Nat) : parseexec str (turns + 1) s =
    if (peek str s [OPEN]).1 = true then parseblock str turns (peek str s [OPEN]).2
    else parseredirs str turns (.exec []) (peek str s [OPEN]).2 >>= fun r => parseargs str turns 0 r.1 r.2 := by
  rw [parseexec]

end Turns

section Reading

variable {turns : Nat}

/-- The tokens of a tree are consumed, and the command is that of the tree. -/
def Reads {T : Type} (str : CString) (tokensOf : T → List Token) (cmdOf : T → Cmd) (ts : List Token)
    (r : Cmd × Nat) : Prop :=
  ∃ tree rest, ts = tokensOf tree ++ rest ∧ At str r.2 rest ∧ r.1 = cmdOf tree

/-- Redirections are put around the command in the order in which they are read. -/
theorem parseredirs_reads (here : At str s ts) (cmd : Cmd) :
    Ensures (parseredirs str turns cmd s) (Reads str (List.flatMap Redir.tokens) (redirected cmd) ts) := by
  induction turns generalizing s ts cmd with
  | zero => exact ensures_none
  | succ turns ih =>
      rcases parseredirs_turn here turns cmd with
        ⟨-, s', there, result⟩ | ⟨redir, rest, s', rfl, there, result⟩ | ⟨-, -, result⟩ <;> rw [result]
      · exact ensures_pure ⟨[], ts, rfl, there, rfl⟩
      · refine (ih there (redir.around cmd)).mono ?_
        rintro r ⟨redirs, more, rfl, final, made⟩
        exact ⟨redir :: redirs, more, by simp, final, made⟩
      · exact ensures_throw _

/-- The words are added to the command inside the redirections. -/
theorem parseargs_reads (here : At str s ts) {argc : Nat} (argv : List Str) (redirs : List Redir)
    (few : argc < MAXARGS) :
    Ensures (parseargs str turns argc (redirected (.exec argv) redirs) s) fun r =>
      ∃ (args : List Arg) (rest : List Token), ts = args.flatMap Arg.tokens ++ rest ∧ At str r.2 rest ∧
        argc + args.length < MAXARGS ∧
        r.1 = redirected (.exec (argv ++ args.map Arg.word)) (redirs ++ args.flatMap Arg.redirs) := by
  induction turns generalizing s ts argc argv redirs with
  | zero => exact ensures_none
  | succ turns ih =>
      rcases parseargs_turn here turns argc (redirected (.exec argv) redirs) with ⟨-, s', there, result⟩ |
        ⟨w, rest, s', rfl, few', there, result⟩ | ⟨-, -, -, -, result⟩ | ⟨-, -, -, -, result⟩ <;> rw [result]
      · exact ensures_pure ⟨[], ts, rfl, there, few, by simp⟩
      · rw [addArg_redirected]
        refine (parseredirs_reads there _).bind ?_
        rintro r ⟨more, rest', rfl, there', made⟩
        rw [made, ← redirected_append]
        refine (ih there' (argv ++ [w]) (redirs ++ more) few').mono ?_
        rintro r' ⟨args, rest'', rfl, final, fits, made'⟩
        refine ⟨⟨w, more⟩ :: args, rest'', by simp [Arg.tokens], final, ?_, ?_⟩
        · rw [List.length_cons]
          omega
        · rw [made']
          simp
      · exact ensures_throw _
      · exact ensures_throw _

theorem parseamps_reads (here : At str s ts) (cmd : Cmd) : Ensures (parseamps str turns cmd s)
    (Reads str (fun amps => List.replicate amps (.symbol AMP)) (inBackground cmd) ts) := by
  induction turns generalizing s ts cmd with
  | zero => exact ensures_none
  | succ turns ih =>
      rcases parseamps_turn here turns cmd with ⟨-, s', there, result⟩ | ⟨rest, s', rfl, there, result⟩ <;>
        rw [result]
      · exact ensures_pure ⟨0, ts, rfl, there, rfl⟩
      · refine (ih there (.back cmd)).mono ?_
        rintro r ⟨amps, more, rfl, final, made⟩
        exact ⟨amps + 1, more, rfl, final, made⟩

/-- What the four procedures return is the command of a tree, and its tokens are consumed. -/
structure Sound (str : CString) (turns : Nat) : Prop where
  line : ∀ {s ts}, At str s ts → Ensures (parseline str turns s) (Reads str Line.tokens Line.cmd ts)
  pipe : ∀ {s ts}, At str s ts → Ensures (parsepipe str turns s) (Reads str Pipeline.tokens Pipeline.cmd ts)
  block : ∀ {s ts}, At str s ts → Ensures (parseblock str turns s) (Reads str Exec.tokens Exec.cmd ts)
  exec : ∀ {s ts}, At str s ts → Ensures (parseexec str turns s) (Reads str Exec.tokens Exec.cmd ts)

theorem Sound.line_succ (sound : Sound str turns) (here : At str s ts) :
    Ensures (parseline str (turns + 1) s) (Reads str Line.tokens Line.cmd ts) := by
  rw [parseline_succ]
  refine (sound.pipe here).bind ?_
  rintro ⟨cmd, s₁⟩ ⟨first, rest₁, rfl, there₁, rfl⟩
  refine (parseamps_reads there₁ first.cmd).bind ?_
  rintro ⟨cmd, s₂⟩ ⟨amps, rest₂, rfl, there₂, rfl⟩
  dsimp only at there₂ ⊢
  rcases there₂.peek_symbol (show [SEMI] ⊆ symbols by decide) (by decide) with
    ⟨-, answer, there⟩ | ⟨rest, rfl, answer, after⟩
  · rw [answer, if_neg (by decide)]
    exact ensures_pure ⟨.last first amps, rest₂, by simp [Line.tokens], there, rfl⟩
  · rw [if_pos answer]
    refine (sound.line after).bind ?_
    rintro ⟨cmd, s₃⟩ ⟨right, rest₃, rfl, there₃, rfl⟩
    exact ensures_pure ⟨.seq first amps right, rest₃, by simp [Line.tokens], there₃, rfl⟩

theorem Sound.pipe_succ (sound : Sound str turns) (here : At str s ts) :
    Ensures (parsepipe str (turns + 1) s) (Reads str Pipeline.tokens Pipeline.cmd ts) := by
  rw [parsepipe_succ]
  refine (sound.exec here).bind ?_
  rintro ⟨cmd, s₁⟩ ⟨first, rest₁, rfl, there₁, rfl⟩
  dsimp only at there₁ ⊢
  rcases there₁.peek_symbol (show [BAR] ⊆ symbols by decide) (by decide) with
    ⟨-, answer, there⟩ | ⟨rest, rfl, answer, after⟩
  · rw [answer, if_neg (by decide)]
    exact ensures_pure ⟨.last first, rest₁, by rw [Pipeline.tokens], there, rfl⟩
  · rw [if_pos answer]
    refine (sound.pipe after).bind ?_
    rintro ⟨cmd, s₂⟩ ⟨right, rest₂, rfl, there₂, rfl⟩
    exact ensures_pure ⟨.pipe first right, rest₂, by simp [Pipeline.tokens], there₂, rfl⟩

theorem Sound.block_succ (sound : Sound str turns) (here : At str s ts) :
    Ensures (parseblock str (turns + 1) s) (Reads str Exec.tokens Exec.cmd ts) := by
  rw [parseblock_succ]
  rcases here.peek_symbol (show [OPEN] ⊆ symbols by decide) (by decide) with
    ⟨-, answer, -⟩ | ⟨rest, rfl, answer, after⟩
  · rw [answer, if_neg (by decide)]
    exact ensures_throw _
  · rw [if_pos answer]
    refine (sound.line after).bind ?_
    rintro ⟨cmd, s₁⟩ ⟨line, rest₁, rfl, there₁, rfl⟩
    dsimp only at there₁ ⊢
    rcases there₁.peek_symbol (show [CLOSE] ⊆ symbols by decide) (by decide) with
      ⟨-, answer, -⟩ | ⟨rest₂, rfl, answer, after⟩
    · rw [answer, if_neg (by decide)]
      exact ensures_throw _
    · rw [if_pos answer]
      refine (parseredirs_reads after line.cmd).mono ?_
      rintro r ⟨redirs, rest₃, rfl, final, made⟩
      exact ⟨.block line redirs, rest₃, by simp [Exec.tokens], final, made⟩

theorem Sound.exec_succ (sound : Sound str turns) (here : At str s ts) :
    Ensures (parseexec str (turns + 1) s) (Reads str Exec.tokens Exec.cmd ts) := by
  rw [parseexec_succ]
  obtain ⟨answer, there⟩ := here.peek (show [OPEN] ⊆ symbols by decide)
  split
  next => exact sound.block there
  next =>
    refine (parseredirs_reads there (.exec [])).bind ?_
    rintro ⟨cmd, s₁⟩ ⟨redirs, rest₁, rfl, there₁, rfl⟩
    refine (parseargs_reads there₁ [] redirs (by decide)).mono ?_
    rintro r ⟨args, rest₂, rfl, final, few, made⟩
    exact ⟨.simple redirs args (by omega), rest₂, by simp [Exec.tokens], final, made⟩

theorem sound (str : CString) (turns : Nat) : Sound str turns := by
  induction turns with
  | zero =>
      refine ⟨fun _ => ?_, fun _ => ?_, fun _ => ?_, fun _ => ?_⟩
      · rw [parseline]; exact ensures_none
      · rw [parsepipe]; exact ensures_none
      · rw [parseblock]; exact ensures_none
      · rw [parseexec]; exact ensures_none
  | succ turns ih => exact ⟨ih.line_succ, ih.pipe_succ, ih.block_succ, ih.exec_succ⟩

end Reading

section Termination

variable {turns : Nat}

theorem parseredirs_finishes (here : At str s ts) (enough : ts.length < turns) (cmd : Cmd) :
    Finishes (parseredirs str turns cmd s) := by
  induction turns generalizing s ts cmd with
  | zero => omega
  | succ turns ih =>
      rcases parseredirs_turn here turns cmd with
        ⟨-, s', there, result⟩ | ⟨redir, rest, s', rfl, there, result⟩ | ⟨-, -, result⟩ <;> rw [result]
      · exact finishes_pure _
      · rw [List.length_append, Redir.tokens] at enough
        exact ih there (by simp at enough; omega) _
      · exact finishes_throw _

theorem parseargs_finishes (here : At str s ts) (enough : ts.length < turns) (argc : Nat) (cmd : Cmd) :
    Finishes (parseargs str turns argc cmd s) := by
  induction turns generalizing s ts argc cmd with
  | zero => omega
  | succ turns ih =>
      rcases parseargs_turn here turns argc cmd with ⟨-, s', there, result⟩ |
        ⟨w, rest, s', rfl, few', there, result⟩ | ⟨-, -, -, -, result⟩ | ⟨-, -, -, -, result⟩ <;> rw [result]
      · exact finishes_pure _
      · rw [List.length_cons] at enough
        refine (parseredirs_finishes there (by omega) _).bind (parseredirs_reads there _) ?_
        rintro r ⟨redirs, rest', rfl, there', -⟩
        rw [List.length_append] at enough
        exact ih there' (by omega) _ _
      · exact finishes_throw _
      · exact finishes_throw _

theorem parseamps_finishes (here : At str s ts) (enough : ts.length < turns) (cmd : Cmd) :
    Finishes (parseamps str turns cmd s) := by
  induction turns generalizing s ts cmd with
  | zero => omega
  | succ turns ih =>
      rcases parseamps_turn here turns cmd with ⟨-, s', there, result⟩ | ⟨rest, s', rfl, there, result⟩ <;>
        rw [result]
      · exact finishes_pure _
      · rw [List.length_cons] at enough
        exact ih there (by omega) _

/-- Four turns for each token are enough; the procedures that call the others need more. -/
structure Enough (str : CString) (turns : Nat) : Prop where
  line : ∀ {s ts}, At str s ts → 4 * ts.length + 4 ≤ turns → Finishes (parseline str turns s)
  pipe : ∀ {s ts}, At str s ts → 4 * ts.length + 3 ≤ turns → Finishes (parsepipe str turns s)
  block : ∀ {s ts}, At str s ts → 4 * ts.length + 1 ≤ turns → Finishes (parseblock str turns s)
  exec : ∀ {s ts}, At str s ts → 4 * ts.length + 2 ≤ turns → Finishes (parseexec str turns s)

theorem Enough.line_succ (enough : Enough str turns) (here : At str s ts)
    (many : 4 * ts.length + 4 ≤ turns + 1) : Finishes (parseline str (turns + 1) s) := by
  rw [parseline_succ]
  refine (enough.pipe here (by omega)).bind ((sound str turns).pipe here) ?_
  rintro ⟨cmd, s₁⟩ ⟨first, rest₁, rfl, there₁, rfl⟩
  rw [List.length_append] at many
  refine (parseamps_finishes there₁ (by omega) _).bind (parseamps_reads there₁ _) ?_
  rintro ⟨cmd, s₂⟩ ⟨amps, rest₂, rfl, there₂, rfl⟩
  rw [List.length_append] at many
  dsimp only at there₂ ⊢
  rcases there₂.peek_symbol (show [SEMI] ⊆ symbols by decide) (by decide) with
    ⟨-, answer, there⟩ | ⟨rest, rfl, answer, after⟩
  · rw [answer, if_neg (by decide)]
    exact finishes_pure _
  · rw [if_pos answer]
    rw [List.length_cons] at many
    exact (enough.line after (by omega)).bind ((sound str turns).line after) fun _ _ => finishes_pure _

theorem Enough.pipe_succ (enough : Enough str turns) (here : At str s ts)
    (many : 4 * ts.length + 3 ≤ turns + 1) : Finishes (parsepipe str (turns + 1) s) := by
  rw [parsepipe_succ]
  refine (enough.exec here (by omega)).bind ((sound str turns).exec here) ?_
  rintro ⟨cmd, s₁⟩ ⟨first, rest₁, rfl, there₁, rfl⟩
  rw [List.length_append] at many
  dsimp only at there₁ ⊢
  rcases there₁.peek_symbol (show [BAR] ⊆ symbols by decide) (by decide) with
    ⟨-, answer, there⟩ | ⟨rest, rfl, answer, after⟩
  · rw [answer, if_neg (by decide)]
    exact finishes_pure _
  · rw [if_pos answer]
    rw [List.length_cons] at many
    exact (enough.pipe after (by omega)).bind ((sound str turns).pipe after) fun _ _ => finishes_pure _

theorem Enough.block_succ (enough : Enough str turns) (here : At str s ts)
    (many : 4 * ts.length + 1 ≤ turns + 1) : Finishes (parseblock str (turns + 1) s) := by
  rw [parseblock_succ]
  rcases here.peek_symbol (show [OPEN] ⊆ symbols by decide) (by decide) with
    ⟨-, answer, -⟩ | ⟨rest, rfl, answer, after⟩
  · rw [answer, if_neg (by decide)]
    exact finishes_throw _
  · rw [if_pos answer]
    rw [List.length_cons] at many
    refine (enough.line after (by omega)).bind ((sound str turns).line after) ?_
    rintro ⟨cmd, s₁⟩ ⟨line, rest₁, rfl, there₁, rfl⟩
    dsimp only at there₁ ⊢
    rcases there₁.peek_symbol (show [CLOSE] ⊆ symbols by decide) (by decide) with
      ⟨-, answer, -⟩ | ⟨rest₂, rfl, answer, after⟩
    · rw [answer, if_neg (by decide)]
      exact finishes_throw _
    · rw [if_pos answer]
      rw [List.length_append, List.length_cons] at many
      exact parseredirs_finishes after (by omega) _

theorem Enough.exec_succ (enough : Enough str turns) (here : At str s ts)
    (many : 4 * ts.length + 2 ≤ turns + 1) : Finishes (parseexec str (turns + 1) s) := by
  rw [parseexec_succ]
  obtain ⟨answer, there⟩ := here.peek (show [OPEN] ⊆ symbols by decide)
  split
  next => exact enough.block there (by omega)
  next =>
    refine (parseredirs_finishes there (by omega) _).bind (parseredirs_reads there _) ?_
    rintro ⟨cmd, s₁⟩ ⟨redirs, rest₁, rfl, there₁, rfl⟩
    rw [List.length_append] at many
    exact parseargs_finishes there₁ (by omega) _ _

theorem enough (str : CString) (turns : Nat) : Enough str turns := by
  induction turns with
  | zero =>
      refine ⟨fun _ many => ?_, fun _ many => ?_, fun _ many => ?_, fun _ many => ?_⟩ <;>
        exact absurd many (by omega)
  | succ turns ih => exact ⟨ih.line_succ, ih.pipe_succ, ih.block_succ, ih.exec_succ⟩

end Termination

end PaddleOs.Shell
