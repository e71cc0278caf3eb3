import PaddleOs.Shell

/-!
The tokens of a line as `gettoken` finds them one after the other. `peek` answers for the first of the
tokens that are left, and both leave the cursor where the rest of them begin.
-/

namespace PaddleOs.Shell

open Grep (CString)

variable {str : CString}

section Characters

theorem char_inside {i : Nat} (inside : i < str.chars.length) : charAt str i ≠ 0 := by
  intro zero
  unfold charAt at zero
  rw [List.getD_eq_getElem?_getD, List.getElem?_eq_getElem inside, Option.getD_some] at zero
  exact str.nonzero (zero ▸ List.getElem_mem inside)

theorem char_behind {i : Nat} (behind : str.chars.length ≤ i) : charAt str i = 0 := by
  unfold charAt
  rw [List.getD_eq_getElem?_getD, List.getElem?_eq_none behind, Option.getD_none]

theorem inside_of_char {i : Nat} (nonzero : charAt str i ≠ 0) : i < str.chars.length :=
  Nat.lt_of_not_le fun behind => nonzero (char_behind behind)

end Characters

section Scans

variable {p : UInt8 → Bool} {s : Nat}

theorem scanFrom_spec (str : CString) (p : UInt8 → Bool) (n s : Nat) :
    s ≤ scanFrom str p n s ∧ scanFrom str p n s ≤ s + n ∧
      (∀ i, s ≤ i → i < scanFrom str p n s → p (charAt str i) = true) ∧
      (scanFrom str p n s < s + n → p (charAt str (scanFrom str p n s)) = false) := by
  induction n generalizing s with
  | zero =>
      refine ⟨Nat.le_refl s, Nat.le_refl s, fun i above below => ?_, fun below => ?_⟩
      · exact absurd below (Nat.not_lt.mpr above)
      · exact absurd below (Nat.lt_irrefl s)
  | succ n ih =>
      rw [scanFrom]
      split
      next met =>
        obtain ⟨above, below, span, stop⟩ := ih (s + 1)
        refine ⟨by omega, by omega, fun i low high => ?_, fun short => stop (by omega)⟩
        rcases Nat.eq_or_lt_of_le low with rfl | later
        · exact met
        · exact span i later high
      next unmet =>
        refine ⟨Nat.le_refl s, by omega, fun i above below => ?_, fun _ => by simpa using unmet⟩
        exact absurd below (Nat.not_lt.mpr above)

theorem scan_ge (p : UInt8 → Bool) (s : Nat) : s ≤ scan str p s := (scanFrom_spec str p _ s).1

theorem scan_le (bound : s ≤ str.chars.length) : scan str p s ≤ str.chars.length := by
  have := (scanFrom_spec str p (str.chars.length - s) s).2.1
  unfold scan
  omega

theorem scan_span {i : Nat} (above : s ≤ i) (below : i < scan str p s) : p (charAt str i) = true :=
  (scanFrom_spec str p _ s).2.2.1 i above below

/-- A scan ends behind the line or before a character without the property. -/
theorem scan_end (str : CString) (p : UInt8 → Bool) (s : Nat) :
    str.chars.length ≤ scan str p s ∨ p (charAt str (scan str p s)) = false := by
  obtain ⟨-, -, -, stop⟩ := scanFrom_spec str p (str.chars.length - s) s
  by_cases short : scanFrom str p (str.chars.length - s) s < s + (str.chars.length - s)
  · exact .inr (stop short)
  · exact .inl (by unfold scan; omega)

theorem scan_stop (terminator : p 0 = false) (s : Nat) : p (charAt str (scan str p s)) = false := by
  rcases scan_end str p s with behind | unmet
  · rw [char_behind behind]
    exact terminator
  · exact unmet

theorem scan_stays (unmet : p (charAt str s) = false) : scan str p s = s := by
  unfold scan
  cases str.chars.length - s with
  | zero => rfl
  | succ n => rw [scanFrom, unmet, if_neg (by simp)]

theorem scan_moves (met : p (charAt str s) = true) (inside : s < str.chars.length) : s < scan str p s := by
  unfold scan
  obtain ⟨n, left⟩ : ∃ n, str.chars.length - s = n + 1 := ⟨str.chars.length - s - 1, by omega⟩
  rw [left, scanFrom, if_pos met]
  exact (scanFrom_spec str p n (s + 1)).1

end Scans

/-- The first character from `s` on that is not white space. -/
def skip (str : CString) (s : Nat) : Nat := scan str (strchr whitespace) s

theorem skip_ge (str : CString) (s : Nat) : s ≤ skip str s := scan_ge _ s

theorem skip_le {s : Nat} (bound : s ≤ str.chars.length) : skip str s ≤ str.chars.length := scan_le bound

theorem skip_skip (str : CString) (s : Nat) : skip str (skip str s) = skip str s :=
  scan_stays (scan_stop (by decide) s)

section Tokens

inductive Token where
  | word (w : Str)
  | symbol (c : UInt8)
  deriving DecidableEq, Repr

/-- What `gettoken` returned, and the string if it is a word. -/
def token (ret : UInt8) (w : Str) : Token := if ret = WORD then .word w else .symbol ret

def tokensFrom (str : CString) : Nat → Nat → List Token
  | 0, _ => []
  | n + 1, s =>
      let (ret, w, s) := gettoken str s
      if ret = 0 then [] else token ret w :: tokensFrom str n s

/-- The tokens from `s` on. -/
def tokens (str : CString) (s : Nat) : List Token := tokensFrom str (str.chars.length + 1 - s) s

theorem gettoken_skip (str : CString) (s : Nat) : gettoken str (skip str s) = gettoken str s := by
  unfold gettoken
  rw [show scan str (strchr whitespace) (skip str s) = scan str (strchr whitespace) s from skip_skip str s]

/-- The four ways of `gettoken`. -/
theorem gettoken_cases (str : CString) (s : Nat) :
    let q := skip str s
    let c := charAt str q
    (c = 0 ∧ gettoken str s = (0, ⟨q, q⟩, skip str q)) ∨
    (c ∈ symbols ∧ gettoken str s = (c, ⟨q, q + 1⟩, skip str (q + 1))) ∨
    (c = GREATER ∧ charAt str (q + 1) = GREATER ∧ gettoken str s = (PLUS, ⟨q, q + 2⟩, skip str (q + 2))) ∨
    (c ≠ 0 ∧ wordChar c = true ∧ gettoken str s =
      (WORD, ⟨q, scan str wordChar q⟩, skip str (scan str wordChar q))) := by
  intro q c
  have solid : strchr whitespace c = false := scan_stop (by decide) s
  unfold gettoken
  dsimp only
  rw [show scan str (strchr whitespace) s = q from rfl, show charAt str q = c from rfl]
  by_cases zero : c = 0
  · rw [if_pos zero]
    exact .inl ⟨zero, by rw [zero]; rfl⟩
  rw [if_neg zero]
  by_cases single : c = BAR ∨ c = OPEN ∨ c = CLOSE ∨ c = SEMI ∨ c = AMP ∨ c = LESS
  · rw [if_pos single]
    refine .inr (.inl ⟨?_, rfl⟩)
    rcases single with h | h | h | h | h | h <;> rw [h] <;> decide
  rw [if_neg single]
  by_cases greater : c = GREATER
  · rw [if_pos greater]
    by_cases double : charAt str (q + 1) = GREATER
    · rw [if_pos double]
      exact .inr (.inr (.inl ⟨greater, double, rfl⟩))
    · rw [if_neg double]
      exact .inr (.inl ⟨by rw [greater]; decide, rfl⟩)
  rw [if_neg greater]
  refine .inr (.inr (.inr ⟨zero, ?_, rfl⟩))
  unfold wordChar
  rw [solid]
  have : c ∉ symbols := by
    simp only [symbols, List.mem_cons, List.not_mem_nil, or_false]
    tauto
  simpa [strchr] using this

variable {s : Nat}

theorem symbol_plain (c : UInt8) (listed : c ∈ symbols) : c ≠ 0 ∧ c ≠ WORD ∧ c ≠ PLUS := by
  simp only [symbols, List.mem_cons, List.not_mem_nil, or_false] at listed
  rcases listed with rfl | rfl | rfl | rfl | rfl | rfl | rfl <;> decide

theorem wordChar_iff {c : UInt8} : wordChar c = true ↔ c ∉ whitespace ∧ c ∉ symbols := by
  simp [wordChar, strchr]

/-- A call of `gettoken` consumes something unless it finds the end. -/
theorem gettoken_advances (bound : s ≤ str.chars.length) :
    (gettoken str s).2.2 ≤ str.chars.length ∧
      ((gettoken str s).1 = 0 → skip str s = str.chars.length ∧ (gettoken str s).2.2 = str.chars.length) ∧
      ((gettoken str s).1 ≠ 0 → s < (gettoken str s).2.2) := by
  have low := skip_ge str s
  have high := skip_le bound
  rcases gettoken_cases str s with ⟨zero, found⟩ | ⟨symbol, found⟩ | ⟨greater, double, found⟩ |
    ⟨nonzero, solid, found⟩ <;> rw [found] <;> dsimp only
  · have stop : skip str s = str.chars.length :=
      Nat.le_antisymm high (Nat.le_of_not_lt fun inside => char_inside inside zero)
    have behind := skip_ge str (skip str s)
    have below := skip_le high
    exact ⟨below, fun _ => ⟨stop, by omega⟩, fun h => absurd rfl h⟩
  · obtain ⟨nonzero, -, -⟩ := symbol_plain _ symbol
    have inside := inside_of_char nonzero
    have behind := skip_ge str (skip str s + 1)
    exact ⟨skip_le (by omega), fun h => absurd h nonzero, fun _ => by omega⟩
  · have inside : skip str s + 1 < str.chars.length := inside_of_char (by rw [double]; decide)
    have behind := skip_ge str (skip str s + 2)
    exact ⟨skip_le (by omega), fun h => absurd h (by decide), fun _ => by omega⟩
  · have inside := inside_of_char nonzero
    have moves := scan_moves solid inside
    have behind := skip_ge str (scan str wordChar (skip str s))
    exact ⟨skip_le (scan_le high), fun h => absurd h (by decide), fun _ => by omega⟩

theorem tokensFrom_succ (n s : Nat) : tokensFrom str (n + 1) s =
    if (gettoken str s).1 = 0 then []
    else token (gettoken str s).1 (gettoken str s).2.1 :: tokensFrom str n (gettoken str s).2.2 := rfl

theorem tokensFrom_enough {n m : Nat} (bound : s ≤ str.chars.length) (enough : str.chars.length < n + s)
    (enough' : str.chars.length < m + s) : tokensFrom str n s = tokensFrom str m s := by
  induction n generalizing m s with
  | zero => omega
  | succ n ih =>
      obtain ⟨m, rfl⟩ : ∃ k, m = k + 1 := ⟨m - 1, by omega⟩
      rw [tokensFrom_succ, tokensFrom_succ]
      split
      next => rfl
      next more =>
        obtain ⟨bound', -, advance⟩ := gettoken_advances bound
        have := advance more
        rw [ih (m := m) bound' (by omega) (by omega)]

theorem tokens_step (bound : s ≤ str.chars.length) : tokens str s =
    if (gettoken str s).1 = 0 then []
    else token (gettoken str s).1 (gettoken str s).2.1 :: tokens str (gettoken str s).2.2 := by
  unfold tokens
  rw [show str.chars.length + 1 - s = str.chars.length - s + 1 by omega, tokensFrom_succ]
  split
  next => rfl
  next more =>
    obtain ⟨bound', -, advance⟩ := gettoken_advances bound
    have := advance more
    rw [tokensFrom_enough (n := str.chars.length - s) (m := str.chars.length + 1 - (gettoken str s).2.2)
      bound' (by omega) (by omega)]

example : tokens ⟨[97, 62, 62, 98, 32], by decide⟩ 0 = [.word ⟨0, 1⟩, .symbol PLUS, .word ⟨3, 4⟩] := by decide

theorem tokens_skip (bound : s ≤ str.chars.length) : tokens str (skip str s) = tokens str s := by
  rw [tokens_step (skip_le bound), gettoken_skip, ← tokens_step bound]

/-- The three answers of `gettoken`. -/
theorem gettoken_tokens (bound : s ≤ str.chars.length) : ∃ ret w s', gettoken str s = (ret, w, s') ∧
    s' ≤ str.chars.length ∧
      ((ret = 0 ∧ tokens str s = [] ∧ tokens str s' = []) ∨
        (ret = WORD ∧ tokens str s = .word w :: tokens str s') ∨
        (ret ≠ 0 ∧ ret ≠ WORD ∧ tokens str s = .symbol ret :: tokens str s')) := by
  refine ⟨(gettoken str s).1, (gettoken str s).2.1, (gettoken str s).2.2, Prod.ext rfl rfl,
    (gettoken_advances bound).1, ?_⟩
  obtain ⟨bound', final, -⟩ := gettoken_advances bound
  by_cases zero : (gettoken str s).1 = 0
  · refine .inl ⟨zero, by rw [tokens_step bound, if_pos zero], ?_⟩
    obtain ⟨stop, final⟩ := final zero
    have := tokens_skip bound
    rw [final, ← stop, this, tokens_step bound, if_pos zero]
  by_cases word : (gettoken str s).1 = WORD
  · exact .inr (.inl ⟨word, by rw [tokens_step bound, if_neg zero, token, if_pos word]⟩)
  · exact .inr (.inr ⟨zero, word, by rw [tokens_step bound, if_neg zero, token, if_neg word]⟩)

theorem gettoken_symbol {c : UInt8} {rest : List Token} (bound : s ≤ str.chars.length)
    (next : tokens str s = .symbol c :: rest) :
    ∃ w s', gettoken str s = (c, w, s') ∧ s' ≤ str.chars.length ∧ tokens str s' = rest := by
  obtain ⟨ret, w, s', read, bound', answers⟩ := gettoken_tokens bound
  rw [next] at answers
  rcases answers with ⟨-, none, -⟩ | ⟨-, word⟩ | ⟨-, -, symbol⟩
  · cases none
  · cases word
  · cases symbol
    exact ⟨w, s', read, bound', rfl⟩

theorem gettoken_word {w : Str} {rest : List Token} (bound : s ≤ str.chars.length)
    (next : tokens str s = .word w :: rest) :
    ∃ s', gettoken str s = (WORD, w, s') ∧ s' ≤ str.chars.length ∧ tokens str s' = rest := by
  obtain ⟨ret, w', s', read, bound', answers⟩ := gettoken_tokens bound
  rw [next] at answers
  rcases answers with ⟨-, none, -⟩ | ⟨rfl, word⟩ | ⟨-, -, symbol⟩
  · cases none
  · cases word
    exact ⟨s', read, bound', rfl⟩
  · cases symbol

theorem gettoken_end (bound : s ≤ str.chars.length) (next : tokens str s = []) :
    ∃ w s', gettoken str s = (0, w, s') ∧ s' ≤ str.chars.length ∧ tokens str s' = [] := by
  obtain ⟨ret, w, s', read, bound', answers⟩ := gettoken_tokens bound
  rw [next] at answers
  rcases answers with ⟨rfl, -, none⟩ | ⟨-, word⟩ | ⟨-, -, symbol⟩
  · exact ⟨w, s', read, bound', none⟩
  · cases word
  · cases symbol

/-- No tokens are left exactly if only white space is. -/
theorem tokens_nil (bound : s ≤ str.chars.length) : tokens str s = [] ↔ skip str s = str.chars.length := by
  obtain ⟨-, final, -⟩ := gettoken_advances bound
  constructor
  · intro none
    obtain ⟨w, s', read, -⟩ := gettoken_end bound none
    exact (final (by rw [read])).1
  · intro stop
    rw [tokens_step bound, if_pos]
    rcases gettoken_cases str s with ⟨-, found⟩ | ⟨symbol, -⟩ | ⟨greater, -⟩ | ⟨nonzero, -⟩
    · rw [found]
    · rw [stop, char_behind (Nat.le_refl _)] at symbol
      exact absurd symbol (by decide)
    · rw [stop, char_behind (Nat.le_refl _)] at greater
      exact absurd greater (by decide)
    · rw [stop] at nonzero
      exact absurd (char_behind (Nat.le_refl _)) nonzero

/-- The first character of the token is in `toks`; that of `>>` is '>'. -/
def starts (toks : List UInt8) : List Token → Bool
  | .symbol c :: _ => toks.contains (if c = PLUS then GREATER else c)
  | _ => false

theorem peek_eq {toks : List UInt8} (bound : s ≤ str.chars.length) (known : toks ⊆ symbols) :
    peek str s toks = (starts toks (tokens str s), skip str s) := by
  unfold peek
  rw [show scan str (strchr whitespace) s = skip str s from rfl, tokens_step bound]
  dsimp only
  congr 1
  rcases gettoken_cases str s with ⟨zero, found⟩ | ⟨symbol, found⟩ | ⟨greater, double, found⟩ |
    ⟨nonzero, solid, found⟩
  · rw [found, zero, if_pos rfl]
    rfl
  · obtain ⟨nonzero, word, plus⟩ := symbol_plain _ symbol
    rw [found, if_neg nonzero, token, if_neg word, starts, if_neg plus, decide_eq_true nonzero, Bool.true_and]
    rfl
  · rw [found, greater]
    rfl
  · have unknown : charAt str (skip str s) ∉ toks := fun named => (wordChar_iff.mp solid).2 (known named)
    rw [found, if_neg (show WORD ≠ 0 by decide), token, if_pos rfl]
    simp [starts, strchr, unknown]

/-- The token begins with the only character asked for, and `>>` with another. -/
theorem starts_single {c : UInt8} {ts : List Token} (other : c ≠ GREATER) (begins : starts [c] ts = true) :
    ∃ rest, ts = .symbol c :: rest := by
  rcases ts with _ | ⟨_ | symbol, rest⟩
  · cases begins
  · cases begins
  · rw [starts, List.contains_iff_mem, List.mem_singleton] at begins
    split at begins
    next => exact absurd begins.symm other
    next => exact ⟨rest, by rw [begins]⟩

end Tokens

section Words

/-- A word has characters, all of them inside the line, and it goes as far as it can. -/
structure Whole (str : CString) (w : Str) : Prop where
  some : w.q < w.eq
  inside : w.eq ≤ str.chars.length
  solid : ∀ i, w.q ≤ i → i < w.eq → wordChar (charAt str i) = true
  stop : w.eq = str.chars.length ∨ wordChar (charAt str w.eq) = false

theorem gettoken_whole {s s' : Nat} {w : Str} (bound : s ≤ str.chars.length)
    (read : gettoken str s = (WORD, w, s')) : Whole str w := by
  have high := skip_le bound
  rcases gettoken_cases str s with ⟨-, found⟩ | ⟨symbol, found⟩ | ⟨-, -, found⟩ |
    ⟨nonzero, solid, found⟩ <;> rw [read, Prod.mk.injEq, Prod.mk.injEq] at found
  · exact absurd found.1 (by decide)
  · exact absurd found.1.symm (symbol_plain _ symbol).2.1
  · exact absurd found.1 (by decide)
  · rw [found.2.1]
    refine ⟨scan_moves solid (inside_of_char nonzero), scan_le high, fun i => scan_span, ?_⟩
    have below : scan str wordChar (skip str s) ≤ str.chars.length := scan_le high
    exact (scan_end str wordChar (skip str s)).imp_left (Nat.le_antisymm below)

theorem tokensFrom_whole {n s : Nat} {w : Str} (bound : s ≤ str.chars.length)
    (listed : .word w ∈ tokensFrom str n s) : Whole str w := by
  induction n generalizing s with
  | zero => nomatch listed
  | succ n ih =>
      rw [tokensFrom_succ] at listed
      split at listed
      next => nomatch listed
      next =>
        rcases List.mem_cons.mp listed with first | later
        · unfold token at first
          split at first
          next word =>
            cases first
            exact gettoken_whole bound (Prod.ext word rfl)
          next => nomatch first
        · exact ih (gettoken_advances bound).1 later

/-- The words of the line. -/
theorem tokens_whole {s : Nat} {w : Str} (bound : s ≤ str.chars.length) (listed : .word w ∈ tokens str s) :
    Whole str w := tokensFrom_whole bound listed

/-- No word ends inside another one. -/
theorem Whole.end_apart {w other : Str} (whole : Whole str w) (whole' : Whole str other) :
    other.eq < w.q ∨ w.eq ≤ other.eq := by
  rcases Nat.lt_or_ge other.eq w.q with before | after
  · exact .inl before
  refine .inr (Nat.le_of_not_lt fun inside => ?_)
  rcases whole'.stop with last | stop
  · exact absurd whole.inside (by omega)
  · exact absurd (whole.solid other.eq after inside) (by rw [stop]; decide)

end Words

end PaddleOs.Shell
