import Mathlib.Computability.Language

/-!
The regular expressions of `user/grep.c`. A pattern denotes a language in the usual way, and `match`
finds out whether some part of the text is in it. Strings are read through indices, and a read behind
the terminator has no result.
-/

namespace PaddleOs.Grep

/-- The characters of a string up to its terminator. -/
structure CString where
  chars : List UInt8
  nonzero : 0 ∉ chars

/-- `s[i]`, with the terminator; none behind it. -/
def CString.read (s : CString) (i : Nat) : Option UInt8 := (s.chars ++ [0])[i]?

def CARET : UInt8 := 94
def DOLLAR : UInt8 := 36
def STAR : UInt8 := 42
def DOT : UInt8 := 46

theorem CString.read_some {s : CString} {i : Nat} {c : UInt8} (here : s.read i = some c) :
    i ≤ s.chars.length := by
  obtain ⟨bound, -⟩ := List.getElem?_eq_some_iff.mp here
  rw [List.length_append, List.length_singleton] at bound
  omega

mutual

/-- `matchhere(re + j, text + i)` -/
def matchhere (re text : CString) (j i : Nat) : Option Bool :=
  match _here : re.read j with
  | none => none
  | some r₀ =>
      if r₀ = 0 then some true
      else
        match re.read (j + 1) with
        | none => none
        | some r₁ =>
            if r₁ = STAR then matchstar re text r₀ (j + 2) i
            else if r₀ = DOLLAR ∧ r₁ = 0 then (text.read i).map (· == 0)
            else
              match text.read i with
              | none => none
              | some t =>
                  if t ≠ 0 ∧ (r₀ = DOT ∨ r₀ = t) then matchhere re text (j + 1) (i + 1) else some false
termination_by (re.chars.length + 1 - j, text.chars.length + 1 - i, 0)
decreasing_by
  all_goals
    have bound := CString.read_some _here
    exact Prod.Lex.left _ _ (by omega)

/-- `matchstar(c, re + j, text + i)` -/
def matchstar (re text : CString) (c : UInt8) (j i : Nat) : Option Bool :=
  match matchhere re text j i with
  | none => none
  | some true => some true
  | some false =>
      match here : text.read i with
      | none => none
      | some t => if t ≠ 0 ∧ (t = c ∨ c = DOT) then matchstar re text c j (i + 1) else some false
termination_by (re.chars.length + 1 - j, text.chars.length + 1 - i, 1)
decreasing_by
  · exact Prod.Lex.right _ (Prod.Lex.right _ (by decide))
  · have bound := CString.read_some here
    exact Prod.Lex.right _ (Prod.Lex.left _ _ (by omega))

end

/-- The loop of `match` at `text + i`. -/
def matchFrom (re text : CString) (i : Nat) : Option Bool :=
  match matchhere re text 0 i with
  | none => none
  | some true => some true
  | some false =>
      match here : text.read i with
      | none => none
      | some t => if t ≠ 0 then matchFrom re text (i + 1) else some false
termination_by text.chars.length + 1 - i
decreasing_by
  have bound := CString.read_some here
  omega

/-- `match` -/
def matchRe (re text : CString) : Option Bool :=
  match re.read 0 with
  | none => none
  | some r₀ => if r₀ = CARET then matchhere re text 1 0 else matchFrom re text 0

section Languages

variable {α : Type} {P : α → Prop} {m : Language α} {w : List α}

/-- The words of one letter with the property. -/
def single (P : α → Prop) : Language α := {w | ∃ x, P x ∧ w = [x]}

theorem mem_single_mul : w ∈ single P * m ↔ ∃ x rest, w = x :: rest ∧ P x ∧ rest ∈ m := by
  rw [Language.mem_mul]
  constructor
  · rintro ⟨_, ⟨x, holds, rfl⟩, rest, member, rfl⟩
    exact ⟨x, rest, rfl, holds, member⟩
  · rintro ⟨x, rest, rfl, holds, member⟩
    exact ⟨[x], ⟨x, holds, rfl⟩, rest, member, rfl⟩

/-- A star gives no letter, or one and another star. -/
theorem mem_star_mul : w ∈ KStar.kstar (single P) * m ↔
    w ∈ m ∨ ∃ x rest, w = x :: rest ∧ P x ∧ rest ∈ KStar.kstar (single P) * m := by
  rw [← mem_single_mul, ← Language.mem_add, ← mul_assoc]
  conv_lhs => rw [← Language.one_add_self_mul_kstar_eq_kstar, add_mul, one_mul]

end Languages

section Patterns

/-- A character of the pattern stands for itself, a dot for any character. -/
def Fits (c x : UInt8) : Prop := c = DOT ∨ c = x

inductive Piece where
  | one (c : UInt8)
  | many (c : UInt8)

def Piece.language : Piece → Language UInt8
  | .one c => single (Fits c)
  | .many c => KStar.kstar (single (Fits c))

/-- A pattern with its anchors. -/
structure Pattern where
  atStart : Bool
  pieces : List Piece
  atEnd : Bool

/-- The pieces of a pattern behind a leading caret, and whether it ends in an anchor. -/
def parsePieces : List UInt8 → List Piece × Bool
  | [] => ([], false)
  | [c] => if c = DOLLAR then ([], true) else ([.one c], false)
  | c :: d :: rest =>
      if d = STAR then (.many c :: (parsePieces rest).1, (parsePieces rest).2)
      else (.one c :: (parsePieces (d :: rest)).1, (parsePieces (d :: rest)).2)

def parsePattern (re : List UInt8) : Pattern :=
  match re with
  | [] => { atStart := false, pieces := [], atEnd := false }
  | c :: rest =>
      if c = CARET then
        { atStart := true, pieces := (parsePieces rest).1, atEnd := (parsePieces rest).2 }
      else { atStart := false, pieces := (parsePieces re).1, atEnd := (parsePieces re).2 }

def Pattern.language (p : Pattern) : Language UInt8 := (p.pieces.map Piece.language).prod

/-- Some part of the text is in the language, where the anchors allow. -/
def Pattern.Matches (p : Pattern) (text : List UInt8) : Prop :=
  ∃ before middle after, text = before ++ (middle ++ after) ∧ middle ∈ p.language ∧
    (p.atStart = true → before = []) ∧ (p.atEnd = true → after = [])

/-- The text begins with a word of the pieces, and ends with it if it has to. -/
def Begins (pieces : List Piece × Bool) (text : List UInt8) : Prop :=
  ∃ middle after, text = middle ++ after ∧ middle ∈ (pieces.1.map Piece.language).prod ∧
    (pieces.2 = true → after = [])

variable {c : UInt8} {pieces : List Piece} {ended : Bool} {text : List UInt8}

theorem begins_nil : Begins ([], ended) text ↔ (ended = true → text = []) := by
  constructor
  · rintro ⟨middle, after, rfl, member, last⟩ must
    rw [List.map_nil, List.prod_nil, Language.mem_one] at member
    rw [member, last must, List.append_nil]
  · exact fun last => ⟨[], text, rfl, Language.nil_mem_one, last⟩

theorem begins_one : Begins (.one c :: pieces, ended) text ↔
    ∃ x rest, text = x :: rest ∧ Fits c x ∧ Begins (pieces, ended) rest := by
  constructor
  · rintro ⟨middle, after, rfl, member, last⟩
    rw [List.map_cons, List.prod_cons] at member
    obtain ⟨x, rest, rfl, fits, member⟩ := mem_single_mul.mp member
    exact ⟨x, rest ++ after, rfl, fits, rest, after, rfl, member, last⟩
  · rintro ⟨x, _, rfl, fits, middle, after, rfl, member, last⟩
    refine ⟨x :: middle, after, rfl, ?_, last⟩
    rw [List.map_cons, List.prod_cons]
    exact mem_single_mul.mpr ⟨x, middle, rfl, fits, member⟩

theorem begins_many : Begins (.many c :: pieces, ended) text ↔
    Begins (pieces, ended) text ∨
      ∃ x rest, text = x :: rest ∧ Fits c x ∧ Begins (.many c :: pieces, ended) rest := by
  have starred : ∀ w, w ∈ ((Piece.many c :: pieces).map Piece.language).prod ↔
      w ∈ (pieces.map Piece.language).prod ∨ ∃ x rest, w = x :: rest ∧ Fits c x ∧
        rest ∈ ((Piece.many c :: pieces).map Piece.language).prod := by
    intro w
    rw [List.map_cons, List.prod_cons]
    exact mem_star_mul
  constructor
  · rintro ⟨middle, after, rfl, member, last⟩
    rcases (starred middle).mp member with member | ⟨x, rest, rfl, fits, member⟩
    · exact .inl ⟨middle, after, rfl, member, last⟩
    · exact .inr ⟨x, rest ++ after, rfl, fits, rest, after, rfl, member, last⟩
  · rintro (⟨middle, after, rfl, member, last⟩ | ⟨x, _, rfl, fits, middle, after, rfl, member, last⟩)
    · exact ⟨middle, after, rfl, (starred middle).mpr (.inl member), last⟩
    · exact ⟨x :: middle, after, rfl, (starred _).mpr (.inr ⟨x, middle, rfl, fits, member⟩), last⟩

end Patterns

section Matching

variable {re text : CString} {c : UInt8} {i j : Nat}

/-- What an index into a string reads. -/
inductive Reads (s : CString) (i : Nat) : Prop
  | nul (read : s.read i = some 0) (rest : s.chars.drop i = [])
  | char (c : UInt8) (nonzero : c ≠ 0) (read : s.read i = some c) (below : i < s.chars.length)
      (rest : s.chars.drop i = c :: s.chars.drop (i + 1))

theorem CString.reads (s : CString) (inside : i ≤ s.chars.length) : Reads s i := by
  rcases Nat.lt_or_eq_of_le inside with below | rfl
  · refine .char s.chars[i] (fun zero => s.nonzero ?_) ?_ below (List.drop_eq_getElem_cons below)
    · rw [← zero]
      exact List.getElem_mem below
    · unfold CString.read
      rw [List.getElem?_append_left below, List.getElem?_eq_getElem below]
  · refine .nul ?_ (List.drop_length ..)
    unfold CString.read
    rw [List.getElem?_append_right (Nat.le_refl _), Nat.sub_self]
    rfl

/-- The computation reads no byte behind a terminator and finds out whether the property holds. -/
def Decides (result : Option Bool) (holds : Prop) : Prop := ∃ found, result = some found ∧ (found = true ↔ holds)

theorem decides_congr {result : Option Bool} {holds holds' : Prop} (same : holds ↔ holds')
    (decides : Decides result holds) : Decides result holds' := by
  obtain ⟨found, ran, agrees⟩ := decides
  exact ⟨found, ran, agrees.trans same⟩

theorem matchhere_step {r₀ : UInt8} (here : re.read j = some r₀) : matchhere re text j i =
    if r₀ = 0 then some true
    else
      match re.read (j + 1) with
      | none => none
      | some r₁ =>
          if r₁ = STAR then matchstar re text r₀ (j + 2) i
          else if r₀ = DOLLAR ∧ r₁ = 0 then (text.read i).map (· == 0)
          else
            match text.read i with
            | none => none
            | some t => if t ≠ 0 ∧ (r₀ = DOT ∨ r₀ = t) then matchhere re text (j + 1) (i + 1) else some false := by
  rw [matchhere]
  split
  · rename_i none_
    rw [here] at none_
    cases none_
  · rename_i r same
    rw [here] at same
    cases same
    rfl

theorem matchstar_step {t : UInt8} (ran : matchhere re text j i = some false) (here : text.read i = some t) :
    matchstar re text c j i =
      if t ≠ 0 ∧ (t = c ∨ c = DOT) then matchstar re text c j (i + 1) else some false := by
  rw [matchstar, ran]
  dsimp only
  split
  · rename_i none_
    rw [here] at none_
    cases none_
  · rename_i r same
    rw [here] at same
    cases same
    rfl

theorem matchFrom_step {t : UInt8} (ran : matchhere re text 0 i = some false) (here : text.read i = some t) :
    matchFrom re text i = if t ≠ 0 then matchFrom re text (i + 1) else some false := by
  rw [matchFrom, ran]
  dsimp only
  split
  · rename_i none_
    rw [here] at none_
    cases none_
  · rename_i r same
    rw [here] at same
    cases same
    rfl

/-- The star takes one character after the other as long as they fit. -/
theorem matchstar_decides
    (here : ∀ i, i ≤ text.chars.length →
      Decides (matchhere re text j i) (Begins (parsePieces (re.chars.drop j)) (text.chars.drop i)))
    (c : UInt8) (inside : i ≤ text.chars.length) :
    Decides (matchstar re text c j i)
      (Begins (.many c :: (parsePieces (re.chars.drop j)).1, (parsePieces (re.chars.drop j)).2)
        (text.chars.drop i)) := by
  induction left : text.chars.length - i using Nat.strongRecOn generalizing i with
  | ind n ih =>
      obtain ⟨found, ran, agrees⟩ := here i inside
      refine decides_congr begins_many.symm ?_
      cases found with
      | true =>
          refine ⟨true, ?_, iff_of_true rfl (.inl (agrees.mp rfl))⟩
          rw [matchstar, ran]
      | false =>
          have none_ : ¬ Begins (parsePieces (re.chars.drop j)) (text.chars.drop i) := fun begins =>
            nomatch agrees.mpr begins
          cases text.reads inside with
          | nul read rest =>
              rw [matchstar_step ran read, if_neg fun both => both.1 rfl]
              refine ⟨false, rfl, iff_of_false nofun ?_⟩
              rintro (begins | ⟨x, rest', same, -⟩)
              · exact none_ begins
              · rw [rest] at same
                cases same
          | char t nonzero read below rest =>
              have tested : (t ≠ 0 ∧ (t = c ∨ c = DOT)) ↔ Fits c t := by
                unfold Fits
                rw [and_iff_right nonzero, or_comm, eq_comm (a := t)]
              rw [matchstar_step ran read]
              by_cases fits : Fits c t
              · rw [if_pos (tested.mpr fits)]
                refine decides_congr ?_ (ih _ (by omega) below rfl)
                rw [rest]
                refine ⟨fun begins => .inr ⟨t, _, rfl, fits, begins⟩, ?_⟩
                rintro (begins | ⟨x, rest', same, -, begins⟩)
                · rw [rest] at none_
                  exact absurd begins none_
                · cases same
                  exact begins
              · rw [if_neg fun both => fits (tested.mp both)]
                refine ⟨false, rfl, iff_of_false nofun ?_⟩
                rintro (begins | ⟨x, rest', same, fits', -⟩)
                · exact none_ begins
                · rw [rest] at same
                  cases same
                  exact fits fits'

theorem matchhere_decides (inside : j ≤ re.chars.length) : ∀ {i}, i ≤ text.chars.length →
    Decides (matchhere re text j i) (Begins (parsePieces (re.chars.drop j)) (text.chars.drop i)) := by
  induction left : re.chars.length - j using Nat.strongRecOn generalizing j with
  | ind n ih =>
      intro i within
      cases re.reads inside with
      | nul read rest =>
          rw [matchhere_step read, rest]
          exact ⟨true, rfl, iff_of_true rfl (begins_nil.mpr nofun)⟩
      | char r₀ nonzero read below rest =>
          rw [matchhere_step read, if_neg nonzero, rest]
          have step : ∀ {i}, i ≤ text.chars.length → Decides (matchhere re text (j + 1) i)
              (Begins (parsePieces (re.chars.drop (j + 1))) (text.chars.drop i)) := ih _ (by omega) below rfl
          -- One character of the text for one of the pattern.
          have one : Decides (match text.read i with
              | none => none
              | some t => if t ≠ 0 ∧ (r₀ = DOT ∨ r₀ = t) then matchhere re text (j + 1) (i + 1) else some false)
              (Begins (.one r₀ :: (parsePieces (re.chars.drop (j + 1))).1, (parsePieces (re.chars.drop (j + 1))).2)
                (text.chars.drop i)) := by
            refine decides_congr begins_one.symm ?_
            cases text.reads within with
            | nul read' rest' =>
                rw [read', rest']
                exact ⟨false, rfl, iff_of_false nofun fun ⟨_, _, same, _⟩ => nomatch same⟩
            | char t nonzero' read' below' rest' =>
                rw [read', rest']
                by_cases fits : Fits r₀ t
                · obtain ⟨found, ran, agrees⟩ := step (i := i + 1) below'
                  refine ⟨found, (if_pos ⟨nonzero', fits⟩).trans ran, agrees.trans ?_⟩
                  refine ⟨fun begins => ⟨t, _, rfl, fits, begins⟩, ?_⟩
                  rintro ⟨x, rest'', same, -, begins⟩
                  cases same
                  exact begins
                · refine ⟨false, if_neg fun both => fits both.2, iff_of_false nofun ?_⟩
                  rintro ⟨x, rest'', same, fits', -⟩
                  cases same
                  exact fits fits'
          cases re.reads below with
          | nul read' rest' =>
              rw [rest'] at one ⊢
              rw [read']
              dsimp only
              rw [if_neg (by decide)]
              by_cases last : r₀ = DOLLAR
              · have anchored : parsePieces [r₀] = ([], true) := if_pos last
                rw [if_pos ⟨last, rfl⟩, anchored]
                refine decides_congr begins_nil.symm ?_
                cases text.reads within with
                | nul read'' rest'' =>
                    rw [read'', rest'']
                    exact ⟨true, rfl, iff_of_true rfl fun _ => rfl⟩
                | char t nonzero'' read'' below'' rest'' =>
                    rw [read'', rest'']
                    refine ⟨false, ?_, iff_of_false nofun fun empty => nomatch empty rfl⟩
                    exact congrArg some (beq_false_of_ne nonzero'')
              · have plain : parsePieces [r₀] = ([.one r₀], false) := if_neg last
                rw [if_neg fun both => last both.1, plain]
                exact one
          | char r₁ nonzero' read' below' rest' =>
              rw [read']
              dsimp only
              by_cases starred : r₁ = STAR
              · have many : parsePieces (r₀ :: r₁ :: re.chars.drop (j + 1 + 1)) =
                    (.many r₀ :: (parsePieces (re.chars.drop (j + 2))).1, (parsePieces (re.chars.drop (j + 2))).2) :=
                  if_pos starred
                rw [if_pos starred, rest', many]
                exact matchstar_decides (fun i within' => ih _ (by omega) below' rfl within') r₀ within
              · have plain : parsePieces (r₀ :: r₁ :: re.chars.drop (j + 1 + 1)) =
                    (.one r₀ :: (parsePieces (r₁ :: re.chars.drop (j + 1 + 1))).1,
                      (parsePieces (r₁ :: re.chars.drop (j + 1 + 1))).2) := if_neg starred
                rw [if_neg starred, if_neg fun both => nonzero' both.2, rest', plain, ← rest']
                exact one

theorem matchFrom_decides (inside : i ≤ text.chars.length) :
    Decides (matchFrom re text i)
      (∃ k, i ≤ k ∧ k ≤ text.chars.length ∧ Begins (parsePieces re.chars) (text.chars.drop k)) := by
  induction left : text.chars.length - i using Nat.strongRecOn generalizing i with
  | ind n ih =>
      obtain ⟨found, ran, agrees⟩ := matchhere_decides (Nat.zero_le re.chars.length) inside
      rw [List.drop_zero] at agrees
      cases found with
      | true =>
          refine ⟨true, ?_, iff_of_true rfl ⟨i, Nat.le_refl i, inside, agrees.mp rfl⟩⟩
          rw [matchFrom, ran]
      | false =>
          have none_ : ¬ Begins (parsePieces re.chars) (text.chars.drop i) := fun begins =>
            nomatch agrees.mpr begins
          cases text.reads inside with
          | nul read rest =>
              rw [matchFrom_step ran read, if_neg fun other => other rfl]
              refine ⟨false, rfl, iff_of_false nofun ?_⟩
              rintro ⟨k, least, within, begins⟩
              have last := List.drop_eq_nil_iff.mp rest
              obtain rfl : k = i := by omega
              exact none_ begins
          | char t nonzero read below rest =>
              rw [matchFrom_step ran read, if_pos nonzero]
              refine decides_congr ?_ (ih _ (by omega) below rfl)
              refine ⟨fun ⟨k, least, within, begins⟩ => ⟨k, by omega, within, begins⟩, ?_⟩
              rintro ⟨k, least, within, begins⟩
              rcases Nat.eq_or_lt_of_le least with rfl | later
              · exact absurd begins none_
              · exact ⟨k, later, within, begins⟩

theorem matches_anchored {pieces : List Piece × Bool} {text : List UInt8} :
    Pattern.Matches ⟨true, pieces.1, pieces.2⟩ text ↔ Begins pieces text := by
  constructor
  · rintro ⟨before, middle, after, rfl, member, first, last⟩
    rw [first rfl]
    exact ⟨middle, after, rfl, member, last⟩
  · rintro ⟨middle, after, rfl, member, last⟩
    exact ⟨[], middle, after, rfl, member, fun _ => rfl, last⟩

theorem matches_anywhere {pieces : List Piece × Bool} {text : List UInt8} :
    Pattern.Matches ⟨false, pieces.1, pieces.2⟩ text ↔
      ∃ k, 0 ≤ k ∧ k ≤ text.length ∧ Begins pieces (text.drop k) := by
  constructor
  · rintro ⟨before, middle, after, rfl, member, -, last⟩
    refine ⟨before.length, Nat.zero_le _, by simp, ?_⟩
    rw [List.drop_left]
    exact ⟨middle, after, rfl, member, last⟩
  · rintro ⟨k, -, -, middle, after, same, member, last⟩
    refine ⟨text.take k, middle, after, ?_, member, nofun, last⟩
    rw [← same, List.take_append_drop]

/-- `match` terminates, reads no byte behind either terminator and finds out whether the pattern
matches a part of the text. -/
theorem match_correct (re text : CString) :
    Decides (matchRe re text) ((parsePattern re.chars).Matches text.chars) := by
  have anywhere : Decides (matchFrom re text 0)
      (Pattern.Matches ⟨false, (parsePieces re.chars).1, (parsePieces re.chars).2⟩ text.chars) :=
    decides_congr matches_anywhere.symm (matchFrom_decides (Nat.zero_le _))
  unfold matchRe parsePattern
  cases re.reads (Nat.zero_le _) with
  | nul read rest =>
      rw [List.drop_zero] at rest
      rw [rest] at anywhere
      rw [read, rest]
      exact anywhere
  | char c nonzero read below rest =>
      rw [List.drop_zero] at rest
      rw [rest] at anywhere
      rw [read, rest]
      dsimp only
      by_cases caret : c = CARET
      · rw [if_pos caret, if_pos caret]
        refine decides_congr matches_anchored.symm ?_
        exact matchhere_decides below (Nat.zero_le _)
      · rw [if_neg caret, if_neg caret]
        exact anywhere

end Matching

end PaddleOs.Grep
