import Mathlib.Data.Nat.Digits.Defs
import Mathlib.Data.Nat.Digits.Lemmas
import PaddleOs.RegexMatch

/-!
`vprintf` of `user/printf.c` and `atoi` of `user/ulib.c`. The characters written are collected in a
list. An `int` is a word of 32 bits. A store behind `buf`, or a `va_arg` of another type than was passed,
has no result.
-/

namespace PaddleOs.Printf

open Grep (CString)

/-- An argument behind the format; a null pointer is no string. -/
inductive Arg where
  | int (w : BitVec 32)
  | long (w : BitVec 64)
  | string (s : Option CString)

def digits : List UInt8 := [48, 49, 50, 51, 52, 53, 54, 55, 56, 57, 65, 66, 67, 68, 69, 70]

def digit (d : Nat) : UInt8 := digits.getD d 0

def MINUS : UInt8 := 45
def PERCENT : UInt8 := 37

/-- `"(null)"` -/
def null : List UInt8 := [40, 110, 117, 108, 108, 41]

/-- The loop of `printint`, with so much room left in `buf`. -/
def fill (base : Nat) : Nat → Nat → List UInt8 → Option (Nat × List UInt8)
  | 0, _, _ => none
  | room + 1, x, buf =>
      let buf := buf ++ [digit (x % base)]
      if x / base ≠ 0 then fill base room (x / base) buf else some (room, buf)

def printint (xx : BitVec 32) (base : Nat) (sgn : Bool) : Option (List UInt8) :=
  let neg := sgn && xx.slt 0
  let x := if neg then -xx else xx
  match fill base 16 x.toNat [] with
  | none => none
  | some (room, buf) =>
      if neg then if room = 0 then none else some (buf ++ [MINUS]).reverse
      else some buf.reverse

/-- The digits of a pointer, the highest first. -/
def printptrFrom : Nat → BitVec 64 → List UInt8
  | 0, _ => []
  | n + 1, x => digit (x >>> 60).toNat :: printptrFrom n (x <<< 4)

/-- `0x` and sixteen digits. -/
def printptr (x : BitVec 64) : List UInt8 := 48 :: 120 :: printptrFrom 16 x

/-- `va_arg` of each type. -/
def intArg : List Arg → Option (BitVec 32 × List Arg)
  | .int w :: args => some (w, args)
  | _ => none

def longArg : List Arg → Option (BitVec 64 × List Arg)
  | .long w :: args => some (w, args)
  | _ => none

def stringArg : List Arg → Option (Option CString × List Arg)
  | .string s :: args => some (s, args)
  | _ => none

/-- The part of `vprintf` behind a `%`: what is written for the letter and the arguments left. -/
def conversion (c : UInt8) (args : List Arg) : Option (List UInt8 × List Arg) :=
  if c = 100 then (intArg args).bind fun r => (printint r.1 10 true).map fun out => (out, r.2)
  else if c = 108 then
    -- the word is passed as an `int`
    (longArg args).bind fun r => (printint (r.1.setWidth 32) 10 false).map fun out => (out, r.2)
  else if c = 120 then (intArg args).bind fun r => (printint r.1 16 false).map fun out => (out, r.2)
  else if c = 112 then (longArg args).map fun r => (printptr r.1, r.2)
  else if c = 115 then (stringArg args).map fun r => (r.1.elim null CString.chars, r.2)
  else if c = 99 then (intArg args).map fun r => ([UInt8.ofNat r.1.toNat], r.2)
  else if c = PERCENT then some ([c], args)
  else some ([PERCENT, c], args)

/-- The loop of `vprintf`; `state` says whether the last character was the `%` of a conversion. -/
def vprintf : Bool → List UInt8 → List Arg → Option (List UInt8)
  | _, [], _ => some []
  | false, c :: fmt, args =>
      if c = PERCENT then vprintf true fmt args
      else (vprintf false fmt args).map fun out => c :: out
  | true, c :: fmt, args =>
      match conversion c args with
      | none => none
      | some (out, args) => (vprintf false fmt args).map fun later => out ++ later

/-- `'0' <= *s && *s <= '9'` -/
def isDigit (c : UInt8) : Bool := 48 ≤ c && c ≤ 57

/-- The loop of `atoi`. -/
def atoiFrom (n : BitVec 32) : List UInt8 → BitVec 32
  | [] => n
  | c :: s => if isDigit c then atoiFrom (n * 10 + BitVec.ofNat 32 c.toNat - 48) s else n

def atoi (s : CString) : BitVec 32 := atoiFrom 0 s.chars

section Numerals

/-- The digits of a number in a base, the highest first. -/
def numeral (base x : Nat) : List UInt8 := ((if x = 0 then [0] else Nat.digits base x).map digit).reverse

variable {base x room : Nat}

theorem numeral_digit (below : x < base) : numeral base x = [digit x] := by
  rw [numeral]
  by_cases zero : x = 0
  · rw [if_pos zero, zero]
    rfl
  · rw [if_neg zero, Nat.digits_of_lt base x zero below]
    rfl

theorem numeral_split (two : 2 ≤ base) (more : base ≤ x) :
    numeral base x = numeral base (x / base) ++ [digit (x % base)] := by
  have positive : 0 < x / base := Nat.div_pos more (by omega)
  rw [numeral, numeral, if_neg (by omega), if_neg (by omega), Nat.digits_def' (by omega) (by omega),
    List.map_cons, List.reverse_cons]

theorem fill_numeral (buf : List UInt8) (two : 2 ≤ base) (small : x < base ^ room) (positive : 0 < room) :
    ∃ left, fill base room x buf = some (left, buf ++ (numeral base x).reverse) ∧
      left + (numeral base x).length = room := by
  induction room generalizing x buf with
  | zero => cases positive
  | succ room ih =>
      rw [fill]
      by_cases last : x / base = 0
      · -- a single digit
        have below : x < base := (Nat.div_eq_zero_iff_lt (by omega)).mp last
        have one : numeral base x = [digit x] := numeral_digit below
        refine ⟨room, ?_, ?_⟩
        · simp only [last, ne_eq, not_true_eq_false, if_false, one, Nat.mod_eq_of_lt below,
            List.reverse_singleton]
        · rw [one]
          rfl
      · have wide : base ≤ x := by
          by_contra below
          exact last (Nat.div_eq_of_lt (by omega))
        have less : x / base < base ^ room := by
          rw [Nat.div_lt_iff_lt_mul (by omega)]
          rwa [pow_succ] at small
        have more : 0 < room := by
          by_contra full
          have empty : room = 0 := by omega
          rw [empty, pow_zero] at less
          exact last (Nat.lt_one_iff.mp less)
        have split := numeral_split two wide
        obtain ⟨left, filled, length⟩ := ih (buf ++ [digit (x % base)]) less more
        refine ⟨left, ?_, ?_⟩
        · simp only [last, ne_eq, not_false_eq_true, if_true]
          rw [filled, split, List.reverse_append]
          simp
        · rw [split, List.length_append]
          simp only [List.length_cons, List.length_nil]
          omega

/-- What `printint` writes: the numeral of the word, or a minus sign and the numeral of its magnitude. -/
def written (xx : BitVec 32) (base : Nat) (sgn : Bool) : List UInt8 :=
  if sgn && xx.slt 0 then MINUS :: numeral base (-xx).toNat else numeral base xx.toNat

theorem numeral_length (room : Nat) (two : 2 ≤ base) (small : x < base ^ room) (positive : 0 < room) :
    (numeral base x).length ≤ room := by
  obtain ⟨left, -, length⟩ := fill_numeral [] two small positive
  omega

/-- The buffer is large enough, also for a sign. -/
theorem printint_written (xx : BitVec 32) (ten : 10 ≤ base) (sgn : Bool) :
    printint xx base sgn = some (written xx base sgn) := by
  have power : 2 ^ 32 ≤ base ^ 15 := calc
    2 ^ 32 ≤ 10 ^ 15 := by norm_num
    _ ≤ base ^ 15 := Nat.pow_le_pow_left ten 15
  have bound : ∀ x : BitVec 32, x.toNat < base ^ 15 := fun x => lt_of_lt_of_le x.isLt power
  have fits : ∀ x : BitVec 32, ∃ left, left ≠ 0 ∧
      fill base 16 x.toNat [] = some (left, (numeral base x.toNat).reverse) := by
    intro x
    have wide : base ^ 15 ≤ base ^ 16 := Nat.pow_le_pow_right (by omega) (by norm_num)
    obtain ⟨left, filled, length⟩ := fill_numeral [] (by omega) ((bound x).trans_le wide) (by norm_num)
    have short := numeral_length 15 (by omega) (bound x) (by norm_num)
    exact ⟨left, by omega, filled⟩
  rw [printint, written]
  cases sign : sgn && xx.slt 0 with
  | true =>
      obtain ⟨left, room, filled⟩ := fits (-xx)
      simp only [if_true, filled, if_neg room, List.reverse_append, List.reverse_reverse,
        List.reverse_singleton, List.singleton_append]
  | false =>
      obtain ⟨left, -, filled⟩ := fits xx
      simp only [Bool.false_eq_true, if_false, filled, List.reverse_reverse]

end Numerals

section Reading

variable {n : BitVec 32} {x : Nat} {rest : List UInt8}

theorem digit_value {d : Nat} (small : d < 10) : isDigit (digit d) = true ∧ (digit d).toNat = 48 + d := by
  interval_cases d <;> decide

/-- `atoi` goes through a numeral as it was written. -/
theorem atoiFrom_numeral (n : BitVec 32) (x : Nat) (rest : List UInt8) :
    atoiFrom n (numeral 10 x ++ rest) =
      atoiFrom (n * BitVec.ofNat 32 (10 ^ (numeral 10 x).length) + BitVec.ofNat 32 x) rest := by
  induction x using Nat.strong_induction_on generalizing rest with
  | h x ih =>
      have step : ∀ (m : BitVec 32) (d : Nat) (rest : List UInt8), d < 10 →
          atoiFrom m (digit d :: rest) = atoiFrom (m * 10 + BitVec.ofNat 32 d) rest := by
        intro m d rest small
        obtain ⟨is, value⟩ := digit_value small
        rw [atoiFrom, if_pos is, value]
        congr 1
        bv_omega
      by_cases last : x < 10
      · rw [numeral_digit last]
        exact step n x rest last
      · have split : numeral 10 x = numeral 10 (x / 10) ++ [digit (x % 10)] :=
          numeral_split (by norm_num) (by omega)
        rw [split, List.append_assoc, ih (x / 10) (by omega), List.singleton_append,
          step _ _ _ (Nat.mod_lt _ (by omega)), List.length_append, List.length_singleton, pow_succ]
        congr 1
        have value : BitVec.ofNat 32 x = BitVec.ofNat 32 (x / 10) * 10 + BitVec.ofNat 32 (x % 10) := by
          rw [← Nat.div_add_mod' x 10, BitVec.ofNat_add, BitVec.ofNat_mul, Nat.div_add_mod' x 10]
          rfl
        have power : ∀ k, BitVec.ofNat 32 (10 ^ k * 10) = BitVec.ofNat 32 (10 ^ k) * 10 :=
          fun k => BitVec.ofNat_mul (10 ^ k) 10
        rw [value, power, BitVec.add_mul, BitVec.mul_assoc, BitVec.add_assoc]

/-- What `printint` wrote is read back, up to the first character that is no digit; a negative number is
read as 0. -/
theorem atoi_printint (w : BitVec 32) (sgn : Bool) {out : List UInt8} (wrote : printint w 10 sgn = some out)
    (s : CString) (chars : s.chars = out ++ rest) (stops : ∀ c ∈ rest.head?, isDigit c = false) :
    atoi s = if sgn && w.slt 0 then 0 else w := by
  rw [printint_written w (le_refl 10)] at wrote
  cases wrote
  rw [atoi, chars, written]
  split
  next => rfl
  next =>
    rw [atoiFrom_numeral, BitVec.ofNat_toNat, BitVec.setWidth_eq]
    have start : (0 : BitVec 32) * BitVec.ofNat 32 (10 ^ (numeral 10 w.toNat).length) + w = w := by
      exact (congrArg (· + w) BitVec.zero_mul).trans (BitVec.zero_add w)
    rw [start]
    cases rest with
    | nil => rfl
    | cons c rest =>
        have other : isDigit c = false := stops c rfl
        rw [atoiFrom, other]
        rfl

/-- `42` and a newline. -/
def fortyTwo : CString := ⟨[52, 50, 10], by decide⟩

theorem fortyTwo_read : atoi fortyTwo = if true && (42 : BitVec 32).slt 0 then 0 else 42 := by
  have wrote : printint 42 10 true = some [52, 50] := by decide
  have stops : ∀ c ∈ ([10] : List UInt8).head?, isDigit c = false := by
    intro c next
    cases next
    rfl
  have chars : fortyTwo.chars = [52, 50] ++ [10] := rfl
  exact atoi_printint 42 true wrote fortyTwo chars stops

end Reading

section Pointers

theorem printptrFrom_digits (n : Nat) (x : BitVec 64) :
    printptrFrom n x = (List.range n).map fun i => digit ((x <<< (4 * i)) >>> 60).toNat := by
  induction n generalizing x with
  | zero => rfl
  | succ n ih =>
      rw [printptrFrom, ih, List.range_succ_eq_map, List.map_cons, List.map_map]
      congr 1
      · rw [Nat.mul_zero, BitVec.shiftLeft_zero]
      · apply List.map_congr_left
        intro i _
        change digit ((x <<< 4 <<< (4 * i)) >>> 60).toNat = digit ((x <<< (4 * (i + 1))) >>> 60).toNat
        rw [← BitVec.shiftLeft_add, Nat.mul_succ, Nat.add_comm]

/-- All digits of a word in base 16, the highest first. -/
def address (x : BitVec 64) : List UInt8 :=
  48 :: 120 :: (List.range 16).map fun i => digit (x.toNat / 16 ^ (15 - i) % 16)

theorem printptr_address (x : BitVec 64) : printptr x = address x := by
  rw [printptr, address, printptrFrom_digits]
  congr 2
  apply List.map_congr_left
  intro i listed
  have below : i < 16 := List.mem_range.mp listed
  have bound := x.isLt
  rw [BitVec.toNat_ushiftRight, BitVec.toNat_shiftLeft, Nat.shiftLeft_eq, Nat.shiftRight_eq_div_pow]
  congr 1
  interval_cases i <;> norm_num <;> omega

end Pointers

section Formats

/-- A part of a format with what is passed for it. -/
inductive Piece where
  | text (c : UInt8) (plain : c ≠ PERCENT)
  | dec (w : BitVec 32)
  | long (w : BitVec 64)
  | hex (w : BitVec 32)
  | pointer (w : BitVec 64)
  | string (s : Option CString)
  | char (w : BitVec 32)
  | percent
  | unknown (c : UInt8) (other : c ∉ [100, 108, 120, 112, 115, 99, PERCENT])

def Piece.format : Piece → List UInt8
  | .text c _ => [c]
  | .dec _ => [PERCENT, 100]
  | .long _ => [PERCENT, 108]
  | .hex _ => [PERCENT, 120]
  | .pointer _ => [PERCENT, 112]
  | .string _ => [PERCENT, 115]
  | .char _ => [PERCENT, 99]
  | .percent => [PERCENT, PERCENT]
  | .unknown c _ => [PERCENT, c]

def Piece.args : Piece → List Arg
  | .dec w | .hex w | .char w => [.int w]
  | .long w | .pointer w => [.long w]
  | .string s => [.string s]
  | .text _ _ | .percent | .unknown _ _ => []

/-- What stands for it in the output. `%l` shows the low half of its word. -/
def Piece.output : Piece → List UInt8
  | .text c _ => [c]
  | .dec w => written w 10 true
  | .long w => numeral 10 (w.toNat % 2 ^ 32)
  | .hex w => numeral 16 w.toNat
  | .pointer w => address w
  | .string s => s.elim null CString.chars
  | .char w => [UInt8.ofNat w.toNat]
  | .percent => [PERCENT]
  | .unknown c _ => [PERCENT, c]

variable {c : UInt8} {fmt out : List UInt8} {args left : List Arg}

theorem written_unsigned (w : BitVec 32) (base : Nat) : written w base false = numeral base w.toNat := rfl

theorem intArg_iff {w : BitVec 32} : intArg args = some (w, left) ↔ args = .int w :: left := by
  constructor
  · intro taken
    rcases args with _ | ⟨first, args⟩
    · cases taken
    · cases first <;> cases taken
      rfl
  · rintro rfl
    rfl

theorem longArg_iff {w : BitVec 64} : longArg args = some (w, left) ↔ args = .long w :: left := by
  constructor
  · intro taken
    rcases args with _ | ⟨first, args⟩
    · cases taken
    · cases first <;> cases taken
      rfl
  · rintro rfl
    rfl

theorem stringArg_iff {s : Option CString} : stringArg args = some (s, left) ↔ args = .string s :: left := by
  constructor
  · intro taken
    rcases args with _ | ⟨first, args⟩
    · cases taken
    · cases first <;> cases taken
      rfl
  · rintro rfl
    rfl

/-- A letter behind a `%` is some piece of a format, and is written as that. -/
theorem conversion_piece (converts : conversion c args = some (out, left)) :
    ∃ piece : Piece, piece.format = [PERCENT, c] ∧ args = piece.args ++ left ∧ out = piece.output := by
  rw [conversion] at converts
  split_ifs at converts with d l x p s ch per
  · subst d
    obtain ⟨⟨w, rest⟩, taken, wrote⟩ := Option.bind_eq_some_iff.mp converts
    rw [printint_written w (le_refl 10)] at wrote
    cases wrote
    exact ⟨.dec w, rfl, intArg_iff.mp taken, rfl⟩
  · subst l
    obtain ⟨⟨w, rest⟩, taken, wrote⟩ := Option.bind_eq_some_iff.mp converts
    rw [printint_written _ (le_refl 10), written_unsigned, BitVec.toNat_setWidth] at wrote
    cases wrote
    exact ⟨.long w, rfl, longArg_iff.mp taken, rfl⟩
  · subst x
    obtain ⟨⟨w, rest⟩, taken, wrote⟩ := Option.bind_eq_some_iff.mp converts
    rw [printint_written w (by norm_num)] at wrote
    cases wrote
    exact ⟨.hex w, rfl, intArg_iff.mp taken, rfl⟩
  · subst p
    obtain ⟨⟨w, rest⟩, taken, wrote⟩ := Option.map_eq_some_iff.mp converts
    cases wrote
    exact ⟨.pointer w, rfl, longArg_iff.mp taken, printptr_address w⟩
  · subst s
    obtain ⟨⟨s, rest⟩, taken, wrote⟩ := Option.map_eq_some_iff.mp converts
    cases wrote
    exact ⟨.string s, rfl, stringArg_iff.mp taken, rfl⟩
  · subst ch
    obtain ⟨⟨w, rest⟩, taken, wrote⟩ := Option.map_eq_some_iff.mp converts
    cases wrote
    exact ⟨.char w, rfl, intArg_iff.mp taken, rfl⟩
  · subst per
    cases converts
    exact ⟨.percent, rfl, rfl, rfl⟩
  · cases converts
    exact ⟨.unknown c (by simp [*]), rfl, rfl, rfl⟩

theorem piece_conversion (piece : Piece) (spelled : piece.format = [PERCENT, c]) (left : List Arg) :
    conversion c (piece.args ++ left) = some (piece.output, left) := by
  cases piece with
  | text c plain => cases spelled
  | dec w =>
      cases spelled
      exact congrArg (Option.map fun out => (out, left)) (printint_written w (le_refl 10) true)
  | long w =>
      cases spelled
      have wrote := printint_written (w.setWidth 32) (le_refl 10) false
      rw [written_unsigned, BitVec.toNat_setWidth] at wrote
      exact congrArg (Option.map fun out => (out, left)) wrote
  | hex w =>
      cases spelled
      exact congrArg (Option.map fun out => (out, left)) (printint_written w (by norm_num) false)
  | pointer w =>
      cases spelled
      exact congrArg (fun out => some (out, left)) (printptr_address w)
  | string s => cases spelled; rfl
  | char w => cases spelled; rfl
  | percent => cases spelled; rfl
  | unknown c other =>
      cases spelled
      simp only [List.mem_cons, List.not_mem_nil, or_false, not_or] at other
      obtain ⟨d, l, x, p, s, ch, per⟩ := other
      rw [conversion, if_neg d, if_neg l, if_neg x, if_neg p, if_neg s, if_neg ch, if_neg per]
      rfl

theorem format_cases (piece : Piece) :
    (∃ c, c ≠ PERCENT ∧ piece.format = [c] ∧ piece.args = [] ∧ piece.output = [c]) ∨
      ∃ c, piece.format = [PERCENT, c] := by
  cases piece with
  | text c plain => exact Or.inl ⟨c, plain, rfl, rfl, rfl⟩
  | _ => exact Or.inr ⟨_, rfl⟩

/-- One piece, whatever comes behind it. -/
theorem vprintf_piece (piece : Piece) (fmt : List UInt8) (left : List Arg) :
    vprintf false (piece.format ++ fmt) (piece.args ++ left) =
      (vprintf false fmt left).map fun later => piece.output ++ later := by
  rcases format_cases piece with ⟨c, plain, format, args, output⟩ | ⟨c, format⟩
  · rw [format, args, output, List.singleton_append, vprintf, if_neg plain]
    rfl
  · rw [format, List.cons_append, List.singleton_append, vprintf, if_pos rfl, vprintf,
      piece_conversion piece format left]

theorem vprintf_pieces (pieces : List Piece) {last : List UInt8} (ends : last = [] ∨ last = [PERCENT])
    (more : List Arg) :
    vprintf false (pieces.flatMap Piece.format ++ last) (pieces.flatMap Piece.args ++ more) =
      some (pieces.flatMap Piece.output) := by
  induction pieces with
  | nil => rcases ends with rfl | rfl <;> rfl
  | cons piece pieces ih =>
      rw [List.flatMap_cons, List.flatMap_cons, List.append_assoc, List.append_assoc, vprintf_piece, ih,
        Option.map_some, List.flatMap_cons]

/-- Every format that is written out is made of pieces. -/
theorem pieces_vprintf (n : Nat) (few : fmt.length ≤ n) (writes : vprintf false fmt args = some out) :
    ∃ (pieces : List Piece) (last : List UInt8) (more : List Arg), (last = [] ∨ last = [PERCENT]) ∧
      fmt = pieces.flatMap Piece.format ++ last ∧ args = pieces.flatMap Piece.args ++ more ∧
      out = pieces.flatMap Piece.output := by
  induction n generalizing fmt args out with
  | zero =>
      have empty : fmt = [] := List.length_eq_zero_iff.mp (Nat.le_zero.mp few)
      subst empty
      cases writes
      exact ⟨[], [], args, Or.inl rfl, rfl, rfl, rfl⟩
  | succ n ih =>
      cases fmt with
      | nil =>
          cases writes
          exact ⟨[], [], args, Or.inl rfl, rfl, rfl, rfl⟩
      | cons c fmt =>
          rw [List.length_cons] at few
          rw [vprintf] at writes
          split at writes
          next percent =>
            cases fmt with
            | nil =>
                cases writes
                exact ⟨[], [PERCENT], args, Or.inr rfl, percent ▸ rfl, rfl, rfl⟩
            | cons letter fmt =>
                rw [vprintf] at writes
                split at writes
                next => cases writes
                next first left converts =>
                  obtain ⟨later, onward, rfl⟩ := Option.map_eq_some_iff.mp writes
                  obtain ⟨piece, spelled, passed, rfl⟩ := conversion_piece converts
                  rw [List.length_cons] at few
                  obtain ⟨pieces, last, more, ends, format, args', output⟩ := ih (by omega) onward
                  refine ⟨piece :: pieces, last, more, ends, ?_, ?_, ?_⟩
                  · rw [List.flatMap_cons, spelled, percent, format]
                    rfl
                  · rw [List.flatMap_cons, List.append_assoc, ← args', passed]
                  · rw [List.flatMap_cons, output]
          next plain =>
            obtain ⟨later, onward, rfl⟩ := Option.map_eq_some_iff.mp writes
            obtain ⟨pieces, last, more, ends, format, passed, output⟩ := ih (by omega) onward
            refine ⟨.text c plain :: pieces, last, more, ends, ?_, passed, ?_⟩
            · rw [List.flatMap_cons, List.append_assoc, ← format]
              rfl
            · rw [List.flatMap_cons, ← output]
              rfl

/-- What is written is what the pieces of the format stand for, in their order, each with the next
arguments; a `%` at the end stands for nothing. -/
theorem vprintf_iff : vprintf false fmt args = some out ↔
    ∃ (pieces : List Piece) (last : List UInt8) (more : List Arg), (last = [] ∨ last = [PERCENT]) ∧
      fmt = pieces.flatMap Piece.format ++ last ∧ args = pieces.flatMap Piece.args ++ more ∧
      out = pieces.flatMap Piece.output := by
  constructor
  · exact pieces_vprintf fmt.length (le_refl _)
  · rintro ⟨pieces, last, more, ends, rfl, rfl, rfl⟩
    exact vprintf_pieces pieces ends more

end Formats

end PaddleOs.Printf
