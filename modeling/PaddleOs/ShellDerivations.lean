import PaddleOs.ShellParser
import PaddleOs.Foundation.Overlay

/-!
Every line that derives from the grammar is read as its derivation has it. What may follow a part tells
the parser where the part ends. The strings of the command are the words of the line, and terminating
one of them leaves the others as they are.
-/

namespace PaddleOs.Shell

open Grep (CString)
open Foundation.Turns
open Foundation.Overlay (Stands)

variable {str : CString} {s turns : Nat} {ts rest : List Token}

section Follow

theorem Follows.not_starts {toks other : List UInt8} (follows : Follows toks ts)
    (apart : toks.all (fun c => !other.contains c) = true) : starts other ts = false := by
  rcases follows with rfl | begins
  · rfl
  rcases ts with _ | ⟨_ | c, rest⟩
  · rfl
  · rfl
  · rw [starts, List.contains_iff_mem] at begins
    have absent := List.all_eq_true.mp apart _ begins
    rwa [Bool.not_eq_true'] at absent

theorem Follows.mono {toks more : List UInt8} (follows : Follows toks ts) (subset : toks ⊆ more) :
    Follows more ts := by
  rcases follows with none | begins
  · exact .inl none
  rcases ts with _ | ⟨_ | c, rest⟩
  · exact .inl rfl
  · cases begins
  · rw [starts, List.contains_iff_mem] at begins
    exact .inr (by rw [starts, List.contains_iff_mem]; exact subset begins)

theorem Follows.no_word {toks : List UInt8} {w : Str} : ¬ Follows toks (.word w :: rest) := by
  rintro (none | begins)
  · cases none
  · cases begins

theorem follows_symbol {toks : List UInt8} {c : UInt8} (listed : (if c = PLUS then GREATER else c) ∈ toks)
    (rest : List Token) : Follows toks (.symbol c :: rest) :=
  .inr (by rw [starts, List.contains_iff_mem]; exact listed)

theorem Follows.amps {toks : List UInt8} (follows : Follows toks ts) (listed : AMP ∈ toks) (amps : Nat) :
    Follows toks (List.replicate amps (.symbol AMP) ++ ts) := by
  cases amps with
  | zero => exact follows
  | succ amps => exact follows_symbol listed _

end Follow

section Completeness

theorem parseredirs_accepts (redirs : List Redir) (cmd : Cmd)
    (here : At str s (redirs.flatMap Redir.tokens ++ rest)) (stop : starts [LESS, GREATER] rest = false) :
    Succeeds (parseredirs str turns cmd s) fun r => r.1 = redirected cmd redirs ∧ At str r.2 rest := by
  induction redirs generalizing turns s cmd with
  | nil =>
      cases turns with
      | zero => exact succeeds_none
      | succ turns =>
          rcases parseredirs_turn here turns cmd with
            ⟨-, s', there, result⟩ | ⟨redir, more, s', same, -, -⟩ | ⟨begins, -, -⟩
          · rw [result]
            exact succeeds_pure ⟨rfl, there⟩
          · rw [List.flatMap_nil, List.nil_append] at same
            rw [same] at stop
            exact absurd (stop.symm.trans (starts_of_redir redir.op _)) (by decide)
          · exact absurd (stop.symm.trans begins) (by decide)
  | cons redir redirs ih =>
      cases turns with
      | zero => exact succeeds_none
      | succ turns =>
          rw [List.flatMap_cons, List.append_assoc] at here
          rcases parseredirs_turn here turns cmd with
            ⟨begins, -⟩ | ⟨redir', more, s', same, there, result⟩ | ⟨-, missing, -⟩
          · exact absurd (begins.symm.trans (starts_of_redir redir.op _)) (by decide)
          · obtain ⟨rfl, rfl⟩ := redir_tokens_inj same
            rw [result]
            exact ih (redir.around cmd) there
          · exact absurd rfl (missing redir _)

theorem follows_args (args : List Arg) (follows : Follows [BAR, CLOSE, AMP, SEMI] rest) :
    starts [LESS, GREATER] (args.flatMap Arg.tokens ++ rest) = false := by
  cases args with
  | nil => exact follows.not_starts (by decide)
  | cons arg args => rfl

theorem not_open (redirs : List Redir) (args : List Arg) (follows : Follows [BAR, CLOSE, AMP, SEMI] rest) :
    starts [OPEN] ((redirs.flatMap Redir.tokens ++ args.flatMap Arg.tokens) ++ rest) = false := by
  rcases redirs with _ | ⟨⟨op, file⟩, redirs⟩
  · cases args with
    | nil => exact follows.not_starts (by decide)
    | cons arg args => rfl
  · cases op <;> rfl

theorem parseargs_accepts (args : List Arg) {argc : Nat} (argv : List Str) (redirs : List Redir)
    (few : argc + args.length < MAXARGS) (here : At str s (args.flatMap Arg.tokens ++ rest))
    (follows : Follows [BAR, CLOSE, AMP, SEMI] rest) :
    Succeeds (parseargs str turns argc (redirected (.exec argv) redirs) s) fun r =>
      r.1 = redirected (.exec (argv ++ args.map Arg.word)) (redirs ++ args.flatMap Arg.redirs) ∧
        At str r.2 rest := by
  induction args generalizing turns s argc argv redirs with
  | nil =>
      cases turns with
      | zero => exact succeeds_none
      | succ turns =>
          rcases parseargs_turn here turns argc (redirected (.exec argv) redirs) with ⟨-, s', there, result⟩ |
            ⟨w, more, s', same, -⟩ | ⟨w, more, same, -⟩ | ⟨-, -, -, other, -⟩
          · rw [result]
            exact succeeds_pure ⟨by simp, there⟩
          · rw [List.flatMap_nil, List.nil_append] at same
            exact absurd (same ▸ follows) Follows.no_word
          · rw [List.flatMap_nil, List.nil_append] at same
            exact absurd (same ▸ follows) Follows.no_word
          · exact absurd follows other
  | cons arg args ih =>
      cases turns with
      | zero => exact succeeds_none
      | succ turns =>
          rw [List.length_cons] at few
          rw [List.flatMap_cons, List.append_assoc, Arg.tokens, List.cons_append] at here
          rcases parseargs_turn here turns argc (redirected (.exec argv) redirs) with ⟨ends, -⟩ |
            ⟨w, more, s', same, -, there, result⟩ | ⟨-, -, -, many, -⟩ | ⟨c, more, same, -⟩
          · exact absurd ends Follows.no_word
          · cases same
            rw [result, addArg_redirected, addArg]
            refine (parseredirs_accepts arg.redirs _ there (follows_args args follows)).bind ?_
            rintro ⟨cmd, s₁⟩ ⟨rfl, there₁⟩
            dsimp only at there₁ ⊢
            rw [← redirected_append]
            simpa using ih (argv ++ [arg.word]) (redirs ++ arg.redirs) (by omega) there₁
          · omega
          · cases same

theorem parseamps_accepts (amps : Nat) (cmd : Cmd) (here : At str s (List.replicate amps (.symbol AMP) ++ rest))
    (stop : starts [AMP] rest = false) :
    Succeeds (parseamps str turns cmd s) fun r => r.1 = inBackground cmd amps ∧ At str r.2 rest := by
  induction amps generalizing turns s cmd with
  | zero =>
      cases turns with
      | zero => exact succeeds_none
      | succ turns =>
          rcases parseamps_turn here turns cmd with ⟨-, s', there, result⟩ | ⟨more, s', same, -⟩
          · rw [result]
            exact succeeds_pure ⟨rfl, there⟩
          · rw [List.replicate_zero, List.nil_append] at same
            rw [same] at stop
            exact absurd stop (by simp [starts, AMP, PLUS])
  | succ amps ih =>
      cases turns with
      | zero => exact succeeds_none
      | succ turns =>
          rcases parseamps_turn here turns cmd with ⟨begins, -⟩ | ⟨more, s', same, there, result⟩
          · exact absurd begins (by simp [starts, AMP, PLUS, List.replicate_succ])
          · cases same
            rw [result]
            exact ih (.back cmd) there

mutual

theorem Line.accepted (line : Line) {turns s : Nat} {rest : List Token} (here : At str s (line.tokens ++ rest))
    (follows : Follows [CLOSE] rest) :
    Succeeds (parseline str turns s) fun r => r.1 = line.cmd ∧ At str r.2 rest := by
  cases turns with
  | zero => rw [parseline]; exact succeeds_none
  | succ turns =>
      rw [parseline_succ]
      cases line with
      | last first amps =>
          rw [Line.tokens, List.append_assoc] at here
          have after : Follows [CLOSE, AMP, SEMI] rest := follows.mono (by decide)
          refine (Pipeline.accepted first here (after.amps (by decide) amps)).bind ?_
          rintro ⟨cmd, s₁⟩ ⟨rfl, there₁⟩
          refine (parseamps_accepts amps _ there₁ (follows.not_starts (by decide))).bind ?_
          rintro ⟨cmd, s₂⟩ ⟨rfl, there₂⟩
          obtain ⟨answer, there⟩ := there₂.peek (show [SEMI] ⊆ symbols by decide)
          rw [answer, follows.not_starts (by decide), if_neg (by decide)]
          exact succeeds_pure ⟨rfl, there⟩
      | seq first amps right =>
          rw [Line.tokens, List.append_assoc, List.append_assoc, List.cons_append] at here
          have after : Follows [CLOSE, AMP, SEMI] (.symbol SEMI :: (right.tokens ++ rest)) :=
            follows_symbol (by decide) _
          refine (Pipeline.accepted first here (after.amps (by decide) amps)).bind ?_
          rintro ⟨cmd, s₁⟩ ⟨rfl, there₁⟩
          refine (parseamps_accepts amps _ there₁ rfl).bind ?_
          rintro ⟨cmd, s₂⟩ ⟨rfl, there₂⟩
          obtain ⟨answer, after⟩ := there₂.take (by decide)
          rw [if_pos answer]
          refine (Line.accepted right after follows).bind ?_
          rintro ⟨cmd, s₃⟩ ⟨rfl, there₃⟩
          exact succeeds_pure ⟨rfl, there₃⟩

theorem Pipeline.accepted (pipe : Pipeline) {turns s : Nat} {rest : List Token}
    (here : At str s (pipe.tokens ++ rest)) (follows : Follows [CLOSE, AMP, SEMI] rest) :
    Succeeds (parsepipe str turns s) fun r => r.1 = pipe.cmd ∧ At str r.2 rest := by
  cases turns with
  | zero => rw [parsepipe]; exact succeeds_none
  | succ turns =>
      rw [parsepipe_succ]
      cases pipe with
      | last first =>
          rw [Pipeline.tokens] at here
          refine (Exec.accepted first here (follows.mono (by decide))).bind ?_
          rintro ⟨cmd, s₁⟩ ⟨rfl, there₁⟩
          obtain ⟨answer, there⟩ := there₁.peek (show [BAR] ⊆ symbols by decide)
          rw [answer, follows.not_starts (by decide), if_neg (by decide)]
          exact succeeds_pure ⟨rfl, there⟩
      | pipe first right =>
          rw [Pipeline.tokens, List.append_assoc, List.cons_append] at here
          refine (Exec.accepted first here (follows_symbol (by decide) _)).bind ?_
          rintro ⟨cmd, s₁⟩ ⟨rfl, there₁⟩
          obtain ⟨answer, after⟩ := there₁.take (by decide)
          rw [if_pos answer]
          refine (Pipeline.accepted right after follows).bind ?_
          rintro ⟨cmd, s₂⟩ ⟨rfl, there₂⟩
          exact succeeds_pure ⟨rfl, there₂⟩

theorem Exec.accepted (exec : Exec) {turns s : Nat} {rest : List Token}
    (here : At str s (exec.tokens ++ rest)) (follows : Follows [BAR, CLOSE, AMP, SEMI] rest) :
    Succeeds (parseexec str turns s) fun r => r.1 = exec.cmd ∧ At str r.2 rest := by
  cases turns with
  | zero => rw [parseexec]; exact succeeds_none
  | succ turns =>
      rw [parseexec_succ]
      obtain ⟨answer, there⟩ := here.peek (show [OPEN] ⊆ symbols by decide)
      cases exec with
      | block line redirs =>
          rw [Exec.tokens, List.cons_append, List.append_assoc, List.cons_append] at here there
          rw [if_pos (here.take (by decide)).1]
          cases turns with
          | zero => rw [parseblock]; exact succeeds_none
          | succ turns =>
              rw [parseblock_succ]
              obtain ⟨opened, inside⟩ := there.take (by decide)
              rw [if_pos opened]
              refine (Line.accepted line inside (follows_symbol (by decide) _)).bind ?_
              rintro ⟨cmd, s₁⟩ ⟨rfl, there₁⟩
              obtain ⟨closed, behind⟩ := there₁.take (by decide)
              rw [if_pos closed]
              exact parseredirs_accepts redirs _ behind (follows.not_starts (by decide))
      | simple redirs args few =>
          rw [Exec.tokens] at answer there
          rw [answer, not_open redirs args follows, if_neg (by decide)]
          rw [List.append_assoc] at there
          refine (parseredirs_accepts redirs _ there (follows_args args follows)).bind ?_
          rintro ⟨cmd, s₁⟩ ⟨rfl, there₁⟩
          exact parseargs_accepts args [] redirs (by omega) there₁ follows

end

end Completeness

section Strings

/-- `argv` and the files, in the order in which `nulterminate` writes. -/
def Cmd.strings : Cmd → List Str
  | .exec argv => argv
  | .redir cmd file _ _ => cmd.strings ++ [file]
  | .pipe left right => left.strings ++ right.strings
  | .list left right => left.strings ++ right.strings
  | .back cmd => cmd.strings

/-- The characters of a string as the line has them. -/
def text (str : CString) (w : Str) : List UInt8 := (str.chars.drop w.q).take (w.eq - w.q)

theorem nulterminate_eq (cmd : Cmd) (line : Nat → UInt8) :
    nulterminate cmd line = cmd.strings.foldl (fun line arg => Function.update line arg.eq 0) line := by
  induction cmd generalizing line with
  | exec argv => rfl
  | redir cmd file mode fd ih =>
      rw [nulterminate, ih, Cmd.strings, List.foldl_append]
      rfl
  | pipe left right ihLeft ihRight => rw [nulterminate, ihLeft, ihRight, Cmd.strings, List.foldl_append]
  | list left right ihLeft ihRight => rw [nulterminate, ihLeft, ihRight, Cmd.strings, List.foldl_append]
  | back cmd ih => rw [nulterminate, ih, Cmd.strings]

/-- Zero is written where a string ends and nowhere else. -/
theorem terminated_at (strings : List Str) (line : Nat → UInt8) (i : Nat) :
    strings.foldl (fun line arg => Function.update line arg.eq 0) line i =
      if i ∈ strings.map Str.eq then 0 else line i := by
  induction strings generalizing line with
  | nil => rfl
  | cons w strings ih =>
      rw [List.foldl_cons, ih, List.map_cons]
      by_cases later : i ∈ strings.map Str.eq
      · rw [if_pos later, if_pos (List.mem_cons_of_mem _ later)]
      · rw [if_neg later]
        by_cases here : i = w.eq
        · rw [here, Function.update_self, if_pos (List.mem_cons_self)]
        · rw [Function.update_of_ne here, if_neg (by simp [here, later])]

theorem redirected_strings (cmd : Cmd) (redirs : List Redir) :
    (redirected cmd redirs).strings = cmd.strings ++ redirs.map Redir.file := by
  induction redirs generalizing cmd with
  | nil => simp
  | cons redir redirs ih => simp [ih, Redir.around, Cmd.strings]

theorem inBackground_strings (cmd : Cmd) (amps : Nat) : (inBackground cmd amps).strings = cmd.strings := by
  induction amps generalizing cmd with
  | zero => rfl
  | succ amps ih => exact ih (.back cmd)

theorem redir_word {redirs : List Redir} {w : Str} (listed : w ∈ redirs.map Redir.file) :
    .word w ∈ redirs.flatMap Redir.tokens := by
  obtain ⟨redir, member, rfl⟩ := List.mem_map.mp listed
  exact List.mem_flatMap.mpr ⟨redir, member, by simp [Redir.tokens]⟩

mutual

theorem Line.string_word (line : Line) {w : Str} (listed : w ∈ line.cmd.strings) : .word w ∈ line.tokens := by
  cases line with
  | last first amps =>
      rw [Line.cmd, inBackground_strings] at listed
      exact List.mem_append_left _ (Pipeline.string_word first listed)
  | seq first amps rest =>
      rw [Line.cmd, Cmd.strings, inBackground_strings, List.mem_append] at listed
      rcases listed with left | right
      · exact List.mem_append_left _ (List.mem_append_left _ (Pipeline.string_word first left))
      · exact List.mem_append_right _ (List.mem_cons_of_mem _ (Line.string_word rest right))

theorem Pipeline.string_word (pipe : Pipeline) {w : Str} (listed : w ∈ pipe.cmd.strings) :
    .word w ∈ pipe.tokens := by
  cases pipe with
  | last first => exact Exec.string_word first listed
  | pipe first rest =>
      rw [Pipeline.cmd, Cmd.strings, List.mem_append] at listed
      rcases listed with left | right
      · exact List.mem_append_left _ (Exec.string_word first left)
      · exact List.mem_append_right _ (List.mem_cons_of_mem _ (Pipeline.string_word rest right))

/-- The strings of a command are words that its tree has. -/
theorem Exec.string_word (exec : Exec) {w : Str} (listed : w ∈ exec.cmd.strings) : .word w ∈ exec.tokens := by
  cases exec with
  | block line redirs =>
      rw [Exec.cmd, redirected_strings, List.mem_append] at listed
      refine List.mem_cons_of_mem _ ?_
      rcases listed with inside | file
      · exact List.mem_append_left _ (Line.string_word line inside)
      · exact List.mem_append_right _ (List.mem_cons_of_mem _ (redir_word file))
  | simple redirs args few =>
      rw [Exec.cmd, redirected_strings, Cmd.strings, List.map_append, List.mem_append,
        List.mem_append] at listed
      rcases listed with argument | file | file
      · obtain ⟨arg, member, rfl⟩ := List.mem_map.mp argument
        exact List.mem_append_right _ (List.mem_flatMap.mpr ⟨arg, member, by simp [Arg.tokens]⟩)
      · exact List.mem_append_left _ (redir_word file)
      · rw [List.map_flatMap] at file
        obtain ⟨arg, member, inner⟩ := List.mem_flatMap.mp file
        exact List.mem_append_right _ (List.mem_flatMap.mpr ⟨arg, member,
          List.mem_cons_of_mem _ (redir_word inner)⟩)

end

/-- Every string of the command is a word of the line, and read in the line as it is now it has that
text and no more. -/
def Intact (str : CString) (cmd : Cmd) (line : Nat → UInt8) : Prop :=
  ∀ w ∈ cmd.strings, .word w ∈ tokens str 0 ∧ 0 ∉ text str w ∧ Stands line w.q (text str w ++ [0])

theorem text_length {w : Str} (whole : Whole str w) : (text str w).length = w.eq - w.q := by
  have inside := whole.inside
  rw [text, List.length_take, List.length_drop]
  omega

theorem text_char {w : Str} (whole : Whole str w) {i : Nat} (bound : i < (text str w).length) :
    (text str w)[i] = charAt str (w.q + i) := by
  have length := text_length whole
  have inside := whole.inside
  simp only [text, List.getElem_take, List.getElem_drop]
  rw [charAt, List.getD_eq_getElem?_getD, List.getElem?_eq_getElem (by omega), Option.getD_some]

theorem nulterminate_intact {line : Line} (derived : line.tokens = tokens str 0) :
    Intact str line.cmd (nulterminate line.cmd (charAt str)) := by
  have words : ∀ w ∈ line.cmd.strings, .word w ∈ tokens str 0 := fun w listed =>
    derived ▸ line.string_word listed
  have whole : ∀ w ∈ line.cmd.strings, Whole str w := fun w listed =>
    tokens_whole (Nat.zero_le _) (words w listed)
  intro w listed
  refine ⟨words w listed, ?_, ?_⟩
  · exact fun zero => str.nonzero (List.mem_of_mem_drop (List.mem_of_mem_take zero))
  · intro i bound
    have length := text_length (whole w listed)
    have some := (whole w listed).some
    rw [nulterminate_eq, terminated_at]
    by_cases last : i < (text str w).length
    · rw [if_neg, List.getElem_append_left last, text_char (whole w listed) last]
      intro ended
      obtain ⟨other, listed', ended⟩ := List.mem_map.mp ended
      have apart := (whole w listed).end_apart (whole other listed')
      omega
    · rw [List.length_append, List.length_singleton] at bound
      rw [if_pos (List.mem_map.mpr ⟨w, listed, by omega⟩), List.getElem_append_right (by omega)]
      simp

end Strings

section Command

theorem at_start (str : CString) : At str 0 (tokens str 0) := ⟨Nat.zero_le _, rfl⟩

theorem parsecmd_eq (str : CString) (turns : Nat) : parsecmd str turns = (do
    let r ← parseline str turns 0
    if skip str r.2 ≠ str.chars.length then throw .syntaxError
    else return (r.1, nulterminate r.1 (charAt str))) := rfl

theorem parsecmd_finishes (str : CString) {turns : Nat} (many : 4 * (tokens str 0).length + 4 ≤ turns) :
    Finishes (parsecmd str turns) := by
  rw [parsecmd_eq]
  refine ((enough str turns).line (at_start str) many).bind ((sound str turns).line (at_start str)) ?_
  intro r _
  split
  next => exact finishes_throw _
  next => exact finishes_pure _

/-- What is returned belongs to a tree of the whole line. -/
theorem parsecmd_reads (str : CString) (turns : Nat) : Ensures (parsecmd str turns) fun r =>
    ∃ line : Line, line.tokens = tokens str 0 ∧ line.cmd = r.1 ∧ r.2 = nulterminate line.cmd (charAt str) := by
  rw [parsecmd_eq]
  refine ((sound str turns).line (at_start str)).bind ?_
  rintro ⟨cmd, s⟩ ⟨line, rest, whole, there, rfl⟩
  split
  next => exact ensures_throw _
  next stop =>
    have none : rest = [] := there.tokens.symm.trans ((tokens_nil there.bound).mpr (not_not.mp stop))
    rw [none, List.append_nil] at whole
    exact ensures_pure ⟨line, whole.symm, rfl, rfl⟩

theorem parsecmd_accepts {line : Line} (derived : line.tokens = tokens str 0) (turns : Nat) :
    Succeeds (parsecmd str turns) fun r => r.1 = line.cmd := by
  rw [parsecmd_eq]
  have start : At str 0 (line.tokens ++ []) := by
    rw [List.append_nil, derived]
    exact at_start str
  refine (line.accepted start (.inl rfl)).bind ?_
  rintro ⟨cmd, s⟩ ⟨rfl, there⟩
  rw [if_neg (not_not.mpr ((tokens_nil there.bound).mp there.tokens))]
  exact succeeds_pure rfl

/-- Given turns enough, the parser comes to an end. It returns exactly the command of the derivation
when the whole line has one, and the strings of the command are then words of the line, intact. -/
theorem parsecmd_exact (str : CString) : ∃ enough, ∀ turns ≥ enough, ∃ outcome,
    parsecmd str turns = some outcome ∧
      (∀ cmd, (∃ line, outcome = .ok (cmd, line)) ↔ Derives str cmd) ∧
      ∀ cmd line, outcome = .ok (cmd, line) → Intact str cmd line := by
  refine ⟨4 * (tokens str 0).length + 4, fun turns many => ?_⟩
  have finishes := parsecmd_finishes str many
  obtain ⟨outcome, result⟩ := Option.ne_none_iff_exists'.mp finishes
  refine ⟨outcome, result, fun cmd => ⟨?_, ?_⟩, ?_⟩
  · rintro ⟨line, rfl⟩
    obtain ⟨tree, derived, made, -⟩ := parsecmd_reads str turns _ result
    exact ⟨tree, derived, made⟩
  · rintro ⟨tree, derived, rfl⟩
    obtain ⟨⟨cmd, line⟩, returned, made⟩ := (parsecmd_accepts derived turns).returns finishes
    cases result.symm.trans returned
    exact ⟨line, by rw [← made]⟩
  · rintro cmd line rfl
    obtain ⟨tree, derived, made, written⟩ := parsecmd_reads str turns _ result
    dsimp only at made written
    rw [← made, written]
    exact nulterminate_intact derived

end Command

end PaddleOs.Shell
