import Mathlib.Data.List.TakeWhile
import PaddleOs.Foundation.Lines
import PaddleOs.MemMove
import PaddleOs.RegexMatch

/-!
The loop of `user/grep.c` over its input. Each turn reads behind what is left of the last line, prints
the lines that match and moves the rest to the front of the buffer. Indices count from the start of the
array `buf`; a scan that leaves it has no result.
-/

namespace PaddleOs.Grep

open Foundation.LittleEndian (Bytes)
open Foundation.Lines Foundation.Overlay

/-- `sizeof(buf)` -/
def BUFSIZE : Nat := 1024

def NEWLINE : UInt8 := 10

/-- `strchr(buf + s, c)` over at most `fuel` bytes. -/
def strchr (buf : Bytes) (c : UInt8) : Nat → Nat → Option (Option Nat)
  | 0, _ => none
  | fuel + 1, s =>
      if buf s = 0 then some none
      else if buf s = c then some (some s)
      else strchr buf c fuel (s + 1)

/-- What a C program takes the bytes for: the characters up to the first null byte. -/
def CString.ofBytes (bytes : List UInt8) : CString where
  chars := bytes.takeWhile (· ≠ 0)
  nonzero member := by simpa using List.mem_takeWhile_imp member

/-- The string that begins at `p`. -/
def stringAt (buf : Bytes) (p : Nat) : CString := .ofBytes (buffered buf p (BUFSIZE - p))

/-- The loop over the lines from `p` on, with what has been printed. It ends with the buffer and the
start of the line that is not complete. -/
def grepLines (pattern : CString) : Nat → Bytes → Nat → List UInt8 → Option (Bytes × Nat × List UInt8)
  | 0, _, _, _ => none
  | fuel + 1, buf, p, printed => do
      match ← strchr buf NEWLINE (BUFSIZE - p) p with
      | none => return (buf, p, printed)
      | some q =>
          let buf := Function.update buf q 0
          if ← matchRe pattern (stringAt buf p) then
            let buf := Function.update buf q NEWLINE
            grepLines pattern fuel buf (q + 1) (printed ++ buffered buf p (q + 1 - p))
          else grepLines pattern fuel buf (q + 1) printed

/-- How many bytes `read` delivers: none when none are asked for or left, and else as many as it
wishes, at least one. -/
def delivered (wish request left : Nat) : Nat := min (max 1 wish) (min request left)

/-- The loop of `grep` with `m` bytes in the buffer and `input` still to be read. `wish turn` is how
many bytes the read of that turn would deliver. -/
def grepFrom (pattern : CString) (wish : Nat → Nat) :
    Nat → Nat → Bytes → Nat → List UInt8 → List UInt8 → Option (List UInt8)
  | 0, _, _, _, _, _ => none
  | fuel + 1, turn, buf, m, input, printed => do
      let n := delivered (wish turn) (BUFSIZE - m - 1) input.length
      if n > 0 then
        let buf := overlay buf m (input.take n)
        let m := m + n
        let buf := Function.update buf m 0
        let (buf, p, printed) ← grepLines pattern BUFSIZE buf 0 printed
        let m' := if m > 0 then m - p else m
        let buf := if m > 0 then User.memmove 0 p m' buf else buf
        grepFrom pattern wish fuel (turn + 1) buf m' (input.drop n) printed
      else return printed

/-- `grep` on a buffer that may hold anything: what it prints. -/
def grep (pattern : CString) (wish : Nat → Nat) (fuel : Nat) (buf : Bytes) (input : List UInt8) :
    Option (List UInt8) :=
  grepFrom pattern wish fuel 0 buf 0 input []

/-- Whether `match` accepts the line. -/
def accepts (pattern : CString) (line : List UInt8) : Bool :=
  matchRe pattern (.ofBytes line) == some true

/-- The matching lines with their newlines. -/
def print (pattern : CString) (lines : List (List UInt8)) : List UInt8 :=
  (lines.filter (accepts pattern)).flatMap (· ++ [NEWLINE])

/-- The line and its newline fit in the buffer. -/
def fits (line : List UInt8) : Bool := line.length + 2 ≤ BUFSIZE

section Buffers

variable {buf : Bytes} {p q : Nat} {text line rest : List UInt8}

theorem CString.ext {s s' : CString} (same : s.chars = s'.chars) : s = s' := by
  cases s
  cases s'
  cases same
  rfl

theorem ofBytes_until (plain : 0 ∉ line) (rest : List UInt8) :
    (CString.ofBytes (line ++ 0 :: rest)).chars = line := by
  have nonzero : ∀ x ∈ line, decide (x ≠ 0) = true := fun x member =>
    decide_eq_true fun zero => plain (zero.subst member)
  change List.takeWhile _ (line ++ 0 :: rest) = line
  rw [List.takeWhile_append_of_pos nonzero]
  simp

theorem ofBytes_plain (plain : 0 ∉ line) : (CString.ofBytes line).chars = line :=
  List.takeWhile_eq_self_iff.mpr fun _ member => decide_eq_true fun zero => plain (zero.subst member)

theorem buffered_stands (stands : Stands buf p text) : buffered buf p text.length = text := by
  refine List.ext_getElem (by simp [buffered]) fun i bound bound' => ?_
  simp only [buffered, List.getElem_map, List.getElem_range]
  exact stands i bound'

theorem buffered_add (buf : Bytes) (p n k : Nat) :
    buffered buf p (n + k) = buffered buf p n ++ buffered buf (p + n) k := by
  simp only [buffered, List.range_add, List.map_append, List.map_map, Function.comp_def, Nat.add_assoc]

theorem stringAt_line (stands : Stands buf p (line ++ [0])) (plain : 0 ∉ line)
    (room : p + line.length < BUFSIZE) : stringAt buf p = .ofBytes line := by
  refine CString.ext (Eq.trans ?_ (ofBytes_plain plain).symm)
  have whole : BUFSIZE - p = (line ++ [0]).length + (BUFSIZE - p - line.length - 1) := by
    rw [List.length_append, List.length_singleton]
    omega
  unfold stringAt
  rw [whole, buffered_add, buffered_stands stands, List.append_assoc]
  exact ofBytes_until plain _

/-- The scan stops at the first of the two bytes it looks for. -/
theorem strchr_stops {c last : UInt8} (stop : last = 0 ∨ last = c) : ∀ {line : List UInt8} {p fuel : Nat},
    Stands buf p (line ++ [last]) → 0 ∉ line → c ∉ line → line.length < fuel →
    strchr buf c fuel p = some (if last = 0 then none else some (p + line.length)) := by
  intro line
  induction line with
  | nil =>
      intro p fuel stands _ _ enough
      obtain ⟨fuel, rfl⟩ := Nat.exists_eq_add_of_lt enough
      have here := (stands_cons.mp stands).1
      rw [List.length_nil, Nat.zero_add, strchr, here]
      rcases stop with rfl | rfl
      · rfl
      · rw [if_pos rfl]
        split <;> rfl
  | cons x line ih =>
      intro p fuel stands plain other enough
      obtain ⟨fuel, rfl⟩ := Nat.exists_eq_add_of_lt enough
      obtain ⟨here, stands⟩ := stands_cons.mp stands
      rw [List.mem_cons, not_or] at plain other
      have rest := @ih (p + 1) (line.length + 1 + fuel) stands plain.2 other.2 (by omega)
      rw [List.length_cons, strchr, here, if_neg (Ne.symm plain.1), if_neg (Ne.symm other.1), rest,
        Nat.add_right_comm, Nat.add_assoc]

end Buffers

section Lines

variable {pattern : CString} {buf : Bytes} {p : Nat} {text line rest : List UInt8}

/-- A byte is written behind the text. -/
theorem Stands.closed {value : UInt8} (stands : Stands buf p text) :
    Stands (Function.update buf (p + text.length) value) p (text ++ [value]) := by
  refine stands_append.mpr ⟨stands.congr fun i bound => ?_, ?_⟩
  · exact Function.update_of_ne (by omega) _ _
  · exact stands_cons.mpr ⟨Function.update_self _ _ _, stands_nil _ _⟩

theorem Stands.later {q : Nat} {value : UInt8} (stands : Stands buf p text) (before : q < p) :
    Stands (Function.update buf q value) p text :=
  stands.congr fun i _ => Function.update_of_ne (by omega) _ _

theorem print_append (first second : List (List UInt8)) :
    print pattern (first ++ second) = print pattern first ++ print pattern second := by
  unfold print
  rw [List.filter_append, List.flatMap_append]

theorem print_cons (line : List UInt8) (lines : List (List UInt8)) : print pattern (line :: lines) =
    (if accepts pattern line then line ++ [NEWLINE] else []) ++ print pattern lines := by
  unfold print
  rw [List.filter_cons]
  split
  · rfl
  · rfl

/-- The lines of the buffer are printed or not, and what is left stands where it stood. -/
theorem grepLines_spec (text : List UInt8) : ∀ {fuel : Nat} {buf : Bytes} {p : Nat} {printed : List UInt8},
    Stands buf p (text ++ [0]) → 0 ∉ text → p + text.length < BUFSIZE → text.length < fuel →
    ∃ buf' p', grepLines pattern fuel buf p printed =
        some (buf', p', printed ++ print pattern (lines NEWLINE text)) ∧
      p' + (lastPart NEWLINE text).length = p + text.length ∧
      Stands buf' p' (lastPart NEWLINE text) := by
  induction text using line_induction NEWLINE with
  | last tail plain =>
      intro fuel buf p printed stands nonzero room enough
      obtain ⟨fuel, rfl⟩ := Nat.exists_eq_add_of_lt enough
      have stops := @strchr_stops buf NEWLINE 0 (.inl rfl) tail p (BUFSIZE - p) stands nonzero plain (by omega)
      have whole := lastPart_tail plain
      refine ⟨buf, p, ?_, by rw [whole], ?_⟩
      · rw [grepLines, stops, lines_tail plain]
        simp [print]
      · rw [whole]
        exact (stands_append.mp stands).1
  | step line rest plain ih =>
      intro fuel buf p printed stands nonzero room enough
      obtain ⟨fuel, rfl⟩ := Nat.exists_eq_add_of_lt enough
      have length : (line ++ NEWLINE :: rest).length = line.length + (rest.length + 1) := by
        rw [List.length_append, List.length_cons]
      rw [List.mem_append, List.mem_cons, not_or, not_or] at nonzero
      rw [List.append_assoc, List.cons_append] at stands
      obtain ⟨front, back⟩ := stands_append.mp stands
      obtain ⟨newline, back⟩ := stands_cons.mp back
      have lineStands : Stands buf p (line ++ [NEWLINE]) :=
        stands_append.mpr ⟨front, stands_cons.mpr ⟨newline, stands_nil _ _⟩⟩
      have stops := @strchr_stops buf NEWLINE NEWLINE (.inr rfl) line p (BUFSIZE - p) lineStands nonzero.1 plain
        (by omega)
      have string := stringAt_line (Stands.closed front) nonzero.1 (by omega)
      obtain ⟨found, ran, -⟩ := match_correct pattern (.ofBytes line)
      have verdict : accepts pattern line = found := by
        unfold accepts
        rw [ran]
        cases found <;> rfl
      rw [grepLines, stops, if_neg (by decide)]
      simp only [Option.bind_eq_bind, Option.bind_some, string, ran]
      rw [lines_line plain, print_cons, verdict, lastPart_line plain]
      have after : p + line.length < p + line.length + 1 := Nat.lt_succ_self _
      cases found with
      | true =>
          have printed' : buffered (Function.update (Function.update buf (p + line.length) 0) (p + line.length)
              NEWLINE) p (p + line.length + 1 - p) = line ++ [NEWLINE] := by
            have width : p + line.length + 1 - p = (line ++ [NEWLINE]).length := by
              rw [List.length_append, List.length_singleton]
              omega
            rw [width]
            exact buffered_stands (Stands.closed (stands_append.mp (Stands.closed front)).1)
          obtain ⟨buf', p', ran', place, left⟩ := @ih ((line ++ NEWLINE :: rest).length + fuel) _ _
            (printed ++ (line ++ [NEWLINE])) (Stands.later (Stands.later back after) after) nonzero.2.2
            (by omega) (by omega)
          refine ⟨buf', p', ?_, by omega, left⟩
          rw [if_pos rfl, if_pos rfl, printed', ← List.append_assoc printed (line ++ [NEWLINE])]
          exact ran'
      | false =>
          obtain ⟨buf', p', ran', place, left⟩ := @ih ((line ++ NEWLINE :: rest).length + fuel) _ _ printed
            (Stands.later back after) nonzero.2.2 (by omega) (by omega)
          refine ⟨buf', p', ?_, by omega, left⟩
          rw [if_neg (by decide), if_neg (by decide), List.nil_append]
          exact ran'

end Lines

section Turns

variable {pattern : CString} {wish : Nat → Nat} {buf : Bytes} {input part : List UInt8}

/-- The lines in the buffer fit. -/
theorem fits_lines {text : List UInt8} (room : text.length < BUFSIZE) :
    ∀ line ∈ lines NEWLINE text, fits line = true := by
  intro line member
  have short := lines_short text line member
  unfold fits
  exact decide_eq_true (by omega)

/-- A line that fills the buffer does not fit. -/
theorem full_line (plain : NEWLINE ∉ part) (full : BUFSIZE ≤ part.length + 1) (input : List UInt8) :
    (lines NEWLINE (part ++ input)).takeWhile fits = [] := by
  have joined : ∀ {more}, NEWLINE ∉ more → NEWLINE ∉ part ++ more := fun free member =>
    (List.mem_append.mp member).elim plain free
  by_cases ends : NEWLINE ∈ input
  · obtain ⟨more, rest, rfl, free⟩ := List.eq_append_cons_of_mem ends
    have long : fits (part ++ more) = false := by
      unfold fits
      rw [List.length_append]
      exact decide_eq_false (by omega)
    rw [← List.append_assoc, lines_line (joined free), List.takeWhile_cons, long]
    rfl
  · rw [lines_tail (joined ends)]
    rfl

/-- What `read` delivers stands behind what is in the buffer, and a null byte behind that. -/
theorem Stands.refilled (stands : Stands buf 0 part) (chunk : List UInt8) :
    Stands (Function.update (overlay buf part.length chunk) (part.length + chunk.length) 0) 0
      ((part ++ chunk) ++ [0]) := by
  have whole : Stands (overlay buf part.length chunk) 0 (part ++ chunk) := by
    refine stands_append.mpr ⟨stands.overlay_apart (.inl (by omega)), ?_⟩
    rw [Nat.zero_add]
    exact overlay_stands buf part.length chunk
  have closed := @Stands.closed _ _ _ 0 whole
  rwa [Nat.zero_add, List.length_append] at closed

/-- The tail is moved to the front. -/
theorem Stands.fronted {p : Nat} (stands : Stands buf p part) (room : p + part.length ≤ BUFSIZE) :
    Stands (User.memmove 0 p part.length buf) 0 part := by
  have small : BUFSIZE ≤ 2 ^ 64 := by decide
  rw [User.memmove_moves (by omega) (by omega)]
  intro i bound
  exact (moved_inside buf p bound).trans (stands i bound)

/-- What the loop prints is what the lines say that are complete before the first that does not fit. -/
theorem grepFrom_spec (pattern : CString) (wish : Nat → Nat) (n : Nat) : ∀ (input : List UInt8) (fuel turn : Nat)
    (buf : Bytes) (part printed : List UInt8), input.length = n → n < fuel → Stands buf 0 part →
    NEWLINE ∉ part → 0 ∉ part → 0 ∉ input → part.length < BUFSIZE →
    grepFrom pattern wish fuel turn buf part.length input printed =
      some (printed ++ print pattern ((lines NEWLINE (part ++ input)).takeWhile fits)) := by
  induction n using Nat.strongRecOn with
  | ind n ih =>
      intro input fuel turn buf part printed length enough stands plain nonzero nonzero' room
      obtain ⟨fuel, rfl⟩ := Nat.exists_eq_add_of_lt enough
      rw [grepFrom]
      generalize count : delivered (wish turn) (BUFSIZE - part.length - 1) input.length = k
      have bounds : k ≤ input.length ∧ k ≤ BUFSIZE - part.length - 1 := by
        unfold delivered at count
        omega
      dsimp only
      by_cases reads : k > 0
      · have chunk : (input.take k).length = k := List.length_take_of_le bounds.1
        have text : (part ++ input.take k).length = part.length + k := by rw [List.length_append, chunk]
        have clean : 0 ∉ part ++ input.take k := fun member =>
          (List.mem_append.mp member).elim nonzero fun taken => nonzero' (List.mem_of_mem_take taken)
        have filled := Stands.refilled stands (input.take k)
        rw [chunk] at filled
        obtain ⟨buf', p', ran, place, left⟩ := @grepLines_spec pattern (part ++ input.take k) BUFSIZE _ 0 printed filled
          clean (by omega) (by omega)
        obtain ⟨free, front, same⟩ := lastPart_spec NEWLINE (part ++ input.take k)
        have size : part.length + k - p' = (lastPart NEWLINE (part ++ input.take k)).length := by omega
        have clean' : 0 ∉ lastPart NEWLINE (part ++ input.take k) := fun member =>
          clean (same ▸ List.mem_append_right _ member)
        rw [if_pos reads, ran]
        simp only [Option.bind_eq_bind, Option.bind_some]
        rw [if_pos (by omega), size, if_pos (by omega),
          ih (n - k) (by omega) (input.drop k) (n + fuel) (turn + 1) _ _ _ (by rw [List.length_drop]; omega) (by omega)
            (Stands.fronted left (by omega)) free clean' (fun member => nonzero' (List.mem_of_mem_drop member)) (by omega)]
        have whole : part ++ input = (part ++ input.take k) ++ input.drop k := by
          rw [List.append_assoc, List.take_append_drop]
        have split := @lines_append _ _ NEWLINE (part ++ input.take k) (input.drop k)
        rw [whole, split, List.takeWhile_append_of_pos (fits_lines (by omega)), print_append, List.append_assoc]
      · rw [if_neg reads]
        have nothing : (lines NEWLINE (part ++ input)).takeWhile fits = [] := by
          unfold delivered at count
          by_cases full : BUFSIZE ≤ part.length + 1
          · exact full_line plain full input
          · have empty : input = [] := List.length_eq_zero_iff.mp (by omega)
            rw [empty, List.append_nil, lines_tail plain]
            rfl
        rw [nothing, show print pattern [] = [] from rfl, List.append_nil]
        rfl

theorem grep_prints (pattern input : CString) (wish : Nat → Nat) (buf : Bytes) {fuel : Nat}
    (enough : input.chars.length < fuel) : grep pattern wish fuel buf input.chars =
      some (print pattern ((lines NEWLINE input.chars).takeWhile fits)) :=
  grepFrom_spec pattern wish input.chars.length input.chars fuel 0 buf [] [] rfl enough (stands_nil _ _)
    List.not_mem_nil List.not_mem_nil input.nonzero (by decide)

/-- What is accepted is what the pattern matches. -/
theorem accepts_iff (pattern line : CString) :
    accepts pattern line.chars = true ↔ (parsePattern pattern.chars).Matches line.chars := by
  have same : CString.ofBytes line.chars = line := CString.ext (ofBytes_plain line.nonzero)
  obtain ⟨found, ran, agrees⟩ := match_correct pattern line
  unfold accepts
  rw [same, ran, ← agrees]
  cases found <;> decide

theorem print_nothing {lines : List (List UInt8)} :
    print pattern lines = [] ↔ ∀ line ∈ lines, accepts pattern line = false := by
  unfold print
  rw [List.flatMap_eq_nil_iff]
  constructor
  · intro none_ line member
    by_contra accepted
    have printed := none_ line (List.mem_filter.mpr ⟨member, by simpa using accepted⟩)
    simp at printed
  · intro none_ line member
    obtain ⟨inside, accepted⟩ := List.mem_filter.mp member
    rw [none_ line inside] at accepted
    cases accepted

/-- However the input is cut into chunks, `grep` prints the same. These are the matching lines if none
of them comes after a line that does not fit in the buffer, or is one, and only then. -/
theorem grep_prints_matching_lines (pattern input : CString) :
    ∃ printed, (∀ wish buf fuel, input.chars.length < fuel →
        grep pattern wish fuel buf input.chars = some printed) ∧
      (printed = print pattern (lines NEWLINE input.chars) ↔
        ∀ line ∈ (lines NEWLINE input.chars).dropWhile fits, accepts pattern line = false) := by
  refine ⟨_, fun wish buf fuel enough => grep_prints pattern input wish buf enough, ?_⟩
  have whole : print pattern (lines NEWLINE input.chars) =
      print pattern ((lines NEWLINE input.chars).takeWhile fits) ++
        print pattern ((lines NEWLINE input.chars).dropWhile fits) := by
    rw [← print_append, List.takeWhile_append_dropWhile]
  rw [whole, ← print_nothing]
  constructor
  · exact fun same => List.self_eq_append_right.mp same
  · intro none_
    rw [none_, List.append_nil]

def letter : CString where
  chars := [97]
  nonzero := by decide

theorem letter_accepts (n : Nat) : accepts letter (List.replicate (n + 1) 97) = true := by
  have clean : (0 : UInt8) ∉ List.replicate (n + 1) 97 := by simp
  refine (accepts_iff letter ⟨_, clean⟩).mpr ⟨[], [97], List.replicate n 97, rfl, ?_, nofun, nofun⟩
  exact mem_single_mul.mpr ⟨97, [], rfl, .inr rfl, Language.nil_mem_one⟩

/-- One line of so many letters. -/
def letters (n : Nat) : CString where
  chars := List.replicate n 97 ++ NEWLINE :: []
  nonzero member := by simp [NEWLINE] at member

/-- A line of letters that does not fit matches, and is not printed. -/
theorem letters_lost {n : Nat} (long : 1022 ≤ n) (wish : Nat → Nat) (buf : Bytes) :
    grep letter wish (n + 3) buf (letters (n + 1)).chars = some [] ∧
    print letter (lines NEWLINE (letters (n + 1)).chars) ≠ [] := by
  have plain : NEWLINE ∉ List.replicate (n + 1) (97 : UInt8) := by simp [NEWLINE]
  have cuts : lines NEWLINE (letters (n + 1)).chars = List.replicate (n + 1) 97 :: [] := lines_line plain []
  have large : fits (List.replicate (n + 1) 97) = false := by
    unfold fits BUFSIZE
    rw [List.length_replicate]
    exact decide_eq_false (by omega)
  constructor
  · rw [grep_prints letter (letters (n + 1)) _ _ (by simp [letters]), cuts, List.takeWhile_cons, large]
    rfl
  · rw [cuts, Ne, print_nothing]
    intro rejected
    have accepted := letter_accepts n
    rw [rejected _ List.mem_cons_self] at accepted
    cases accepted

/-- The shortest line that is lost has 1023 letters. -/
theorem long_line_lost : grep letter (fun _ => 512) 1025 (fun _ => 0) (letters 1023).chars = some [] ∧
    print letter (lines NEWLINE (letters 1023).chars) ≠ [] :=
  letters_lost (n := 1022) (Nat.le_refl _) (fun _ => 512) (fun _ => 0)

end Turns

end PaddleOs.Grep
