import PaddleOs.Foundation.Monitor
import PaddleOs.Foundation.Runs
import Mathlib.Tactic.NormNum

/-!
`consoleread` and `consoleintr` of `console.c` by any number of processes and interrupts.
A reader takes character by character under `cons.lock` and sleeps on `&cons.r` when there
is none; what its copies answer comes from outside. An interrupt edits the line behind `w`
and hands it over when it ends or the buffer is full. What goes out to the screen, the echo
and the list of processes, is not modelled.

The lists collect what happened: `line` is the input since the last hand-over without what
was erased, `committed` what was handed over, `consumed` what readers took, and `delivered`
what they got.
-/

namespace PaddleOs.Console

open Foundation.Monitor Foundation.Runs

variable {N : Nat}

def INPUT_BUF_SIZE : Nat := 128

/-- `C(x)`, the character that Control with a letter sends. -/
def C (x : Char) : UInt8 := UInt8.ofNat (x.toNat - '@'.toNat)

def newline : UInt8 := 10

def carriageReturn : UInt8 := 13

def delete : UInt8 := 0x7f

/-- `cons` without its lock; the indices are `uint`s. -/
structure Cons where
  buf : Nat → UInt8
  r : Nat
  w : Nat
  e : Nat

structure Tty (N : Nat) where
  cons : Cons
  killed : Fin N → Bool
  line : List UInt8
  committed : List UInt8
  consumed : List UInt8
  delivered : List UInt8
  reads : List (Int × List UInt8)

/-- Where a process or an interrupt stands. A reader carries `n`, `target` and what it got
so far. -/
inductive Site where
  | away
  | consoleread (n : Int32)
  | loop (n : Int) (target : Nat) (got : List UInt8)
  | leave (result : Int) (got : List UInt8)
  | consoleintr (c : UInt8)
  | intr (c : UInt8)
  | killLine
  | rouse
  | done
  deriving DecidableEq, Repr

inductive Input (N : Nat) where
  | consoleread (n : Int32)
  | consoleintr (c : UInt8)
  | kill (p : Fin N)
  | copyout (copied : Bool)
  | none
  deriving DecidableEq, Repr

/-- `cons.e--`. -/
def Cons.erase (c : Cons) : Cons := { c with e := (((c.e : Int) - 1) % 2 ^ 32).toNat }

/-- `cons.buf[cons.e++ % INPUT_BUF_SIZE] = ch`. -/
def Cons.put (c : Cons) (ch : UInt8) : Cons :=
  { c with buf := Function.update c.buf (c.e % INPUT_BUF_SIZE) ch, e := (c.e + 1) % 2 ^ 32 }

/-- `cons.w = cons.e`. -/
def Cons.commit (c : Cons) : Cons := { c with w := c.e }

/-- `cons.r++`. -/
def Cons.take (c : Cons) : Cons := { c with r := (c.r + 1) % 2 ^ 32 }

/-- `cons.r--`. -/
def Cons.back (c : Cons) : Cons := { c with r := (((c.r : Int) - 1) % 2 ^ 32).toNat }

/-- The difference of two `uint`s. -/
def dist (a b : Nat) : Nat := (((b : Int) - a) % 2 ^ 32).toNat

def enter : Site → Option Site
  | .consoleread n => some (.loop n.toInt (n.toInt % 2 ^ 32).toNat [])
  | .consoleintr c => some (.intr c)
  | _ => none

/-- What `consoleread` returns: `target - n` as an `int`. -/
def count (target : Nat) (n : Int) : Int := (Int32.ofInt ((target : Int) - n)).toInt

/-- The loop of `consoleread`. -/
def readLoop (t : Fin N) (input : Input N) (s : Tty N) (n : Int) (target : Nat) (got : List UInt8) :
    Option (Action Site (Tty N) Unit) :=
  if n > 0 then
    if s.cons.r = s.cons.w then
      if s.killed t then some (.release { s with reads := s.reads ++ [(-1, got)] } .away)
      else some (.sleep () (.loop n target got))
    else
      let c := s.cons.buf (s.cons.r % INPUT_BUF_SIZE)
      if c = C 'D' then
        if (n % 2 ^ 32).toNat < target then
          some (.move { s with cons := s.cons.take.back } (.leave (count target n) got))
        else
          some (.move { s with cons := s.cons.take, consumed := s.consumed ++ [c] } (.leave (count target n) got))
      else
        match input with
        | .copyout true =>
            let s := { s with cons := s.cons.take, consumed := s.consumed ++ [c], delivered := s.delivered ++ [c] }
            if c = newline then some (.move s (.leave (count target (n - 1)) (got ++ [c])))
            else some (.move s (.loop (n - 1) target (got ++ [c])))
        | .copyout false =>
            some (.move { s with cons := s.cons.take, consumed := s.consumed ++ [c] } (.leave (count target n) got))
        | _ => none
  else some (.move s (.leave (count target n) got))

/-- The default of the `switch` in `consoleintr`. -/
def accept (s : Tty N) (c : UInt8) : Action Site (Tty N) Unit :=
  if c ≠ 0 ∧ dist s.cons.r s.cons.e < INPUT_BUF_SIZE then
    let c := if c = carriageReturn then newline else c
    let cons := s.cons.put c
    if c = newline ∨ c = C 'D' ∨ dist cons.r cons.e = INPUT_BUF_SIZE then
      .move { s with cons := cons.commit, committed := s.committed ++ (s.line ++ [c]), line := [] } .rouse
    else .move { s with cons, line := s.line ++ [c] } .done
  else .move s .done

def inside (t : Fin N) (input : Input N) (s : Tty N) : Site → Option (Action Site (Tty N) Unit)
  | .loop n target got => readLoop t input s n target got
  | .leave result got => some (.release { s with reads := s.reads ++ [(result, got)] } .away)
  | .intr c =>
      if c = C 'P' then some (.move s .done)
      else if c = C 'U' then some (.move s .killLine)
      else if c = C 'H' ∨ c = delete then
        if s.cons.e ≠ s.cons.w then
          some (.move { s with cons := s.cons.erase, line := s.line.dropLast } .done)
        else some (.move s .done)
      else some (accept s c)
  | .killLine =>
      if s.cons.e ≠ s.cons.w ∧ s.cons.buf (s.cons.erase.e % INPUT_BUF_SIZE) ≠ newline then
        some (.move { s with cons := s.cons.erase, line := s.line.dropLast } .killLine)
      else some (.move s .done)
  | .rouse => some (.wakeup () .done)
  | .done => some (.release s .away)
  | _ => none

theorem inside_intr (t : Fin N) (input : Input N) (s : Tty N) (c : UInt8) : inside t input s (.intr c) =
    if c = C 'P' then some (.move s .done)
    else if c = C 'U' then some (.move s .killLine)
    else if c = C 'H' ∨ c = delete then
      if s.cons.e ≠ s.cons.w then
        some (.move { s with cons := s.cons.erase, line := s.line.dropLast } .done)
      else some (.move s .done)
    else some (accept s c) := rfl

theorem inside_killLine (t : Fin N) (input : Input N) (s : Tty N) : inside t input s .killLine =
    if s.cons.e ≠ s.cons.w ∧ s.cons.buf (s.cons.erase.e % INPUT_BUF_SIZE) ≠ newline then
      some (.move { s with cons := s.cons.erase, line := s.line.dropLast } .killLine)
    else some (.move s .done) := rfl

/-- The calls and interrupts. `kill` sets its victim's flag; the victim may be woken at any
time. -/
def outside (input : Input N) (s : Tty N) : Site → Option (Tty N × Site)
  | .away =>
      match input with
      | .consoleread n => some (s, .consoleread n)
      | .consoleintr c => some (s, .consoleintr c)
      | .kill p => some ({ s with killed := Function.update s.killed p true }, .away)
      | _ => none
  | _ => none

def program : Program N (Input N) Site (Tty N) Unit where
  enter _ := enter
  inside := inside
  outside _ := outside

/-- The zeroed `cons`. -/
def fresh : State N Site (Tty N) Unit where
  shared :=
    { cons := { buf := fun _ => 0, r := 0, w := 0, e := 0 }, killed := fun _ => false
      line := [], committed := [], consumed := [], delivered := [], reads := [] }
  holder := none
  pc _ := .outside .away

section Ring

/-- The characters from index `a` on. -/
def stretch (c : Cons) (a len : Nat) : List UInt8 := (List.range len).map fun k => c.buf ((a + k) % INPUT_BUF_SIZE)

/-- The indices are in order, the buffer holds what was handed over and not taken and behind
it the line, which has no end yet, and readers got all they took but Control-D. -/
structure Holds (s : Tty N) : Prop where
  r : s.cons.r < 2 ^ 32
  w : s.cons.w < 2 ^ 32
  e : s.cons.e < 2 ^ 32
  bounded : dist s.cons.r s.cons.w + dist s.cons.w s.cons.e ≤ INPUT_BUF_SIZE
  unread : s.consumed ++ stretch s.cons s.cons.r (dist s.cons.r s.cons.w) = s.committed
  line : stretch s.cons s.cons.w (dist s.cons.w s.cons.e) = s.line
  unended : newline ∉ s.line ∧ C 'D' ∉ s.line
  delivered : s.delivered = s.consumed.filter (· ≠ C 'D')

variable {s s' : Tty N} {c : Cons}

theorem dist_append (w : c.w < 2 ^ 32) (e : c.e < 2 ^ 32) (few : dist c.r c.w + dist c.w c.e ≤ INPUT_BUF_SIZE) :
    dist c.r c.e = dist c.r c.w + dist c.w c.e := by
  simp only [dist, INPUT_BUF_SIZE] at *
  omega

theorem dist_put {a : Nat} (ch : UInt8) (few : dist a c.e < INPUT_BUF_SIZE) :
    dist a (c.put ch).e = dist a c.e + 1 := by
  simp only [dist, Cons.put, INPUT_BUF_SIZE] at *
  omega

theorem dist_erase (w : c.w < 2 ^ 32) (e : c.e < 2 ^ 32) (some : c.e ≠ c.w) :
    dist c.w c.e = dist c.w c.erase.e + 1 := by
  simp only [dist, Cons.erase] at *
  omega

theorem dist_take (r : c.r < 2 ^ 32) (w : c.w < 2 ^ 32) (some : c.r ≠ c.w) :
    dist c.r c.w = dist c.take.r c.w + 1 := by
  simp only [dist, Cons.take] at *
  omega

/-- Control-D pushed back. -/
theorem take_back (r : c.r < 2 ^ 32) : c.take.back = c := by
  have same : ((((c.r + 1) % 2 ^ 32 : Nat) - 1 : Int) % 2 ^ 32).toNat = c.r := by omega
  simp only [Cons.take, Cons.back, same]

theorem stretch_erased (c : Cons) (a len : Nat) : stretch c.erase a len = stretch c a len := rfl

theorem stretch_append (c : Cons) (a first second : Nat) :
    stretch c a (first + second) = stretch c a first ++ stretch c (a + first) second := by
  unfold stretch
  rw [List.range_add, List.map_append, List.map_map]
  congr 1
  refine List.map_congr_left fun k _ => ?_
  change c.buf ((a + (first + k)) % INPUT_BUF_SIZE) = c.buf ((a + first + k) % INPUT_BUF_SIZE)
  rw [Nat.add_assoc]

theorem stretch_reaches (a b len : Nat) :
    stretch c (a + dist a b) len = stretch c b len := by
  refine List.map_congr_left fun k _ => congrArg c.buf ?_
  simp only [dist, INPUT_BUF_SIZE]
  omega

/-- What is put in stands behind everything before. -/
theorem stretch_put {a len : Nat} (ch : UInt8) (few : dist a c.e < INPUT_BUF_SIZE)
    (before : len ≤ dist a c.e) : stretch (c.put ch) a len = stretch c a len := by
  refine List.map_congr_left fun k member => ?_
  have below := List.mem_range.mp member
  refine Function.update_of_ne ?_ ..
  simp only [dist, INPUT_BUF_SIZE] at *
  omega

theorem stretch_put_last {a : Nat} (ch : UInt8) (few : dist a c.e < INPUT_BUF_SIZE) :
    stretch (c.put ch) a (dist a c.e + 1) = stretch c a (dist a c.e) ++ [ch] := by
  rw [stretch_append, stretch_put ch few (le_refl _), stretch_reaches]
  congr 1
  change [Function.update c.buf (c.e % INPUT_BUF_SIZE) ch ((c.e + 0) % INPUT_BUF_SIZE)] = [ch]
  rw [Nat.add_zero, Function.update_self]

theorem stretch_erase (w : c.w < 2 ^ 32) (e : c.e < 2 ^ 32) (some : c.e ≠ c.w) :
    stretch c.erase c.w (dist c.w c.erase.e) = (stretch c c.w (dist c.w c.e)).dropLast := by
  rw [dist_erase w e some, stretch_append, stretch_erased]
  have single : ∀ a, stretch c a 1 = [c.buf (a % INPUT_BUF_SIZE)] := fun _ => rfl
  rw [single, List.dropLast_concat]

theorem stretch_take (r : c.r < 2 ^ 32) (w : c.w < 2 ^ 32) (some : c.r ≠ c.w) :
    stretch c c.r (dist c.r c.w) =
      c.buf (c.r % INPUT_BUF_SIZE) :: stretch c.take c.take.r (dist c.take.r c.w) := by
  rw [dist_take r w some, Nat.add_comm, stretch_append]
  have next : stretch c (c.r + 1) (dist c.take.r c.w) =
      stretch c.take c.take.r (dist c.take.r c.w) := by
    refine List.map_congr_left fun k _ => congrArg c.buf ?_
    change (c.r + 1 + k) % INPUT_BUF_SIZE = ((c.r + 1) % 2 ^ 32 + k) % INPUT_BUF_SIZE
    simp only [INPUT_BUF_SIZE]
    omega
  rw [next]
  rfl

/-- The whole buffer, committed and edited. -/
theorem Holds.whole (holds : Holds s) :
    stretch s.cons s.cons.r (dist s.cons.r s.cons.e) =
      stretch s.cons s.cons.r (dist s.cons.r s.cons.w) ++ s.line := by
  rw [dist_append holds.w holds.e holds.bounded, stretch_append, stretch_reaches, holds.line]

theorem Holds.type (holds : Holds s) {ch : UInt8} (room : dist s.cons.r s.cons.e < INPUT_BUF_SIZE)
    (plain : ch ≠ newline ∧ ch ≠ C 'D') :
    Holds { s with cons := s.cons.put ch, line := s.line ++ [ch] } := by
  have total := dist_append holds.w holds.e holds.bounded
  have behind : dist s.cons.w s.cons.e < INPUT_BUF_SIZE := by omega
  refine ⟨holds.r, holds.w, Nat.mod_lt _ (by norm_num), ?_, ?_, ?_, ?_, holds.delivered⟩
  · change dist s.cons.r s.cons.w + dist s.cons.w (s.cons.put ch).e ≤ INPUT_BUF_SIZE
    rw [dist_put ch behind]
    omega
  · change s.consumed ++ stretch (s.cons.put ch) s.cons.r (dist s.cons.r s.cons.w) = s.committed
    rw [stretch_put ch room (by omega)]
    exact holds.unread
  · change stretch (s.cons.put ch) s.cons.w (dist s.cons.w (s.cons.put ch).e) = s.line ++ [ch]
    rw [dist_put ch behind, stretch_put_last ch behind, holds.line]
  · constructor <;> intro ends
    · rcases List.mem_append.mp ends with old | new
      · exact holds.unended.1 old
      · exact plain.1 (List.mem_singleton.mp new).symm
    · rcases List.mem_append.mp ends with old | new
      · exact holds.unended.2 old
      · exact plain.2 (List.mem_singleton.mp new).symm

/-- A line is handed over with its end. -/
theorem Holds.commit (holds : Holds s) {ch : UInt8} (room : dist s.cons.r s.cons.e < INPUT_BUF_SIZE) :
    Holds { s with cons := (s.cons.put ch).commit, committed := s.committed ++ (s.line ++ [ch]), line := [] } := by
  have fits : (s.cons.put ch).e < 2 ^ 32 := Nat.mod_lt _ (by norm_num)
  have none : dist (s.cons.put ch).e (s.cons.put ch).e = 0 := by simp [dist]
  refine ⟨holds.r, fits, fits, ?_, ?_, ?_, by simp, holds.delivered⟩
  · change dist s.cons.r (s.cons.put ch).e + dist (s.cons.put ch).e (s.cons.put ch).e ≤ INPUT_BUF_SIZE
    rw [none, dist_put ch room]
    exact room
  · change s.consumed ++ stretch (s.cons.put ch) s.cons.r (dist s.cons.r (s.cons.put ch).e) =
      s.committed ++ (s.line ++ [ch])
    rw [dist_put ch room, stretch_put_last ch room, holds.whole, ← holds.unread]
    simp only [List.append_assoc]
  · change stretch (s.cons.put ch) (s.cons.put ch).e (dist (s.cons.put ch).e (s.cons.put ch).e) = []
    rw [none]
    rfl

/-- An erased character stood behind `w`. -/
theorem Holds.erase (holds : Holds s) (some : s.cons.e ≠ s.cons.w) :
    Holds { s with cons := s.cons.erase, line := s.line.dropLast } := by
  have fewer := dist_erase holds.w holds.e some
  have bounded := holds.bounded
  have fits : s.cons.erase.e < 2 ^ 32 := by
    simp only [Cons.erase]
    omega
  refine ⟨holds.r, holds.w, fits, ?_, ?_, ?_, ?_, holds.delivered⟩
  · change dist s.cons.r s.cons.w + dist s.cons.w s.cons.erase.e ≤ INPUT_BUF_SIZE
    omega
  · change s.consumed ++ stretch s.cons.erase s.cons.r (dist s.cons.r s.cons.w) = s.committed
    rw [stretch_erased]
    exact holds.unread
  · change stretch s.cons.erase s.cons.w (dist s.cons.w s.cons.erase.e) = s.line.dropLast
    rw [stretch_erase holds.w holds.e some, holds.line]
  · exact ⟨fun ends => holds.unended.1 (List.dropLast_subset _ ends),
      fun ends => holds.unended.2 (List.dropLast_subset _ ends)⟩

/-- A reader takes the next character. -/
theorem Holds.take (holds : Holds s) (some : s.cons.r ≠ s.cons.w) {delivered : List UInt8}
    (gets : delivered = (s.consumed ++ [s.cons.buf (s.cons.r % INPUT_BUF_SIZE)]).filter (· ≠ C 'D')) :
    Holds { s with
      cons := s.cons.take
      consumed := s.consumed ++ [s.cons.buf (s.cons.r % INPUT_BUF_SIZE)]
      delivered := delivered } := by
  have fewer := dist_take holds.r holds.w some
  have bounded := holds.bounded
  refine ⟨Nat.mod_lt _ (by norm_num), holds.w, holds.e, ?_, ?_, holds.line, holds.unended, gets⟩
  · change dist s.cons.take.r s.cons.w + dist s.cons.w s.cons.e ≤ INPUT_BUF_SIZE
    omega
  · change s.consumed ++ [s.cons.buf (s.cons.r % INPUT_BUF_SIZE)] ++
      stretch s.cons.take s.cons.take.r (dist s.cons.take.r s.cons.w) = s.committed
    rw [← holds.unread, stretch_take holds.r holds.w some, List.append_assoc]
    rfl

theorem readLoop_holds {t : Fin N} {input : Input N} {n : Int} {target : Nat} {got : List UInt8}
    {action : Action Site (Tty N) Unit} (holds : Holds s) (copies : input ≠ .copyout false)
    (acts : readLoop t input s n target got = some action) : Holds (action.after s) := by
  unfold readLoop at acts
  split at acts
  · split at acts
    · split at acts
      · cases acts
        exact ⟨holds.r, holds.w, holds.e, holds.bounded, holds.unread, holds.line, holds.unended, holds.delivered⟩
      · cases acts
        exact holds
    · rename_i some
      dsimp only at acts
      split at acts
      · rename_i ends
        split at acts
        · cases acts
          rw [take_back holds.r]
          exact holds
        · cases acts
          refine holds.take some ?_
          rw [List.filter_append, ← holds.delivered]
          simp [ends]
      · rename_i goes
        have gets : s.delivered ++ [s.cons.buf (s.cons.r % INPUT_BUF_SIZE)] =
            (s.consumed ++ [s.cons.buf (s.cons.r % INPUT_BUF_SIZE)]).filter (· ≠ C 'D') := by
          rw [List.filter_append, ← holds.delivered]
          simp [goes]
        split at acts
        · split at acts
          · cases acts
            exact holds.take some gets
          · cases acts
            exact holds.take some gets
        · exact absurd rfl copies
        · cases acts
  · cases acts
    exact holds

theorem accept_holds (holds : Holds s) (c : UInt8) : Holds ((accept s c).after s) := by
  unfold accept
  split
  · rename_i accepts
    dsimp only
    generalize (if c = carriageReturn then newline else c) = ch
    split
    · exact holds.commit accepts.2
    · rename_i goes
      refine holds.type accepts.2 ⟨fun ends => goes (.inl ends), fun ends => goes (.inr (.inl ends))⟩
  · exact holds

theorem inside_holds {t : Fin N} {input : Input N} {site : Site} {action : Action Site (Tty N) Unit}
    (holds : Holds s) (copies : input ≠ .copyout false) (acts : inside t input s site = some action) :
    Holds (action.after s) := by
  cases site with
  | loop n target got => exact readLoop_holds holds copies acts
  | leave result got =>
      cases acts
      exact ⟨holds.r, holds.w, holds.e, holds.bounded, holds.unread, holds.line, holds.unended, holds.delivered⟩
  | intr c =>
      rw [inside_intr] at acts
      split at acts
      · cases acts
        exact holds
      · split at acts
        · cases acts
          exact holds
        · split at acts
          · split at acts
            · rename_i some
              cases acts
              exact holds.erase some
            · cases acts
              exact holds
          · cases acts
            exact accept_holds holds c
  | killLine =>
      rw [inside_killLine] at acts
      split at acts
      · rename_i more
        cases acts
        exact holds.erase more.1
      · cases acts
        exact holds
  | rouse => cases acts; exact holds
  | done => cases acts; exact holds
  | _ => cases acts

theorem outside_holds {input : Input N} {site next : Site} (holds : Holds s)
    (acts : outside input s site = some (s', next)) : Holds s' := by
  cases site with
  | away =>
      cases input with
      | kill p =>
          cases acts
          exact ⟨holds.r, holds.w, holds.e, holds.bounded, holds.unread, holds.line, holds.unended, holds.delivered⟩
      | consoleread n => cases acts; exact holds
      | consoleintr c => cases acts; exact holds
      | _ => cases acts
  | _ => cases acts

theorem step_holds {st st' : State N Site (Tty N) Unit} {label : Label N (Input N)} (holds : Holds st.shared)
    (copies : ∀ t, label ≠ .inside t (.copyout false)) (stepped : program.step st label = some st') :
    Holds st'.shared := by
  cases label with
  | inside t input =>
      obtain ⟨site, action, -, acts, rfl⟩ := step_inside stepped
      rw [act_shared]
      refine inside_holds holds ?_ acts
      rintro rfl
      exact copies t rfl
  | _ =>
      rcases step_outside stepped (by simp) with same | ⟨t, input, site, next, acts⟩
      · rw [same]
        exact holds
      · exact outside_holds holds acts

/-- Kill-line stops at the beginning of the line only. -/
theorem Holds.killed (holds : Holds s)
    (stops : ¬ (s.cons.e ≠ s.cons.w ∧ s.cons.buf (s.cons.erase.e % INPUT_BUF_SIZE) ≠ newline)) : s.line = [] := by
  by_cases none : s.cons.e = s.cons.w
  · rw [← holds.line, none]
    simp [dist, stretch]
  · have ends : s.cons.buf (s.cons.erase.e % INPUT_BUF_SIZE) = newline := by
      by_contra other
      exact stops ⟨none, other⟩
    have last : (s.cons.w + dist s.cons.w s.cons.erase.e) % INPUT_BUF_SIZE = s.cons.erase.e % INPUT_BUF_SIZE := by
      simp only [dist, INPUT_BUF_SIZE]
      omega
    refine absurd ?_ holds.unended.1
    rw [← holds.line, dist_erase holds.w holds.e none]
    refine List.mem_map.mpr ⟨dist s.cons.w s.cons.erase.e, List.mem_range.mpr (Nat.lt_succ_self _), ?_⟩
    rw [last, ends]

end Ring

section Reads

/-- A call returns what it got, which ends at the first end of a line, or -1 to a killed
process. -/
def Returned (read : Int × List UInt8) : Prop :=
  newline ∉ read.2.dropLast ∧ C 'D' ∉ read.2 ∧ (read.1 = read.2.length ∨ read.1 = -1)

/-- What a reader got so far has no end in it, and `n` is short of what was asked by it. -/
def Reading : Site → Prop
  | .loop n target got => newline ∉ got ∧ C 'D' ∉ got ∧
      ∃ asked : Int32, n + got.length = asked.toInt ∧ target = (asked.toInt % 2 ^ 32).toNat ∧ (got ≠ [] → 0 ≤ n)
  | .leave result got => Returned (result, got) ∧ result = got.length
  | _ => True

variable {s s' : Tty N} {n : Int} {target : Nat} {got : List UInt8}

theorem count_got {asked : Int32} (asks : n + got.length = asked.toInt)
    (targets : target = (asked.toInt % 2 ^ 32).toNat) (some : got ≠ [] → 0 ≤ n) : count target n = got.length := by
  have low := asked.le_toInt
  have high := asked.toInt_lt
  have short : (got.length : Int) < 2 ^ 31 := by
    by_cases none : got = []
    · rw [none]
      norm_num
    · have positive := some none
      omega
  have wraps : (target : Int) - n = got.length ∨ (target : Int) - n = got.length + 2 ^ 32 := by omega
  have size : Int32.size = 2 ^ 32 := rfl
  rw [count, Int32.toInt_ofInt, size, Int.bmod_def]
  rcases wraps with straight | past
  · rw [straight]
    omega
  · rw [past]
    omega

theorem Reading.leaves (reading : Reading (.loop n target got)) :
    Reading (.leave (count target n) got) := by
  obtain ⟨line, ends, asked, asks, targets, some⟩ := reading
  have counts := count_got asks targets some
  exact ⟨⟨fun member => line (List.dropLast_subset _ member), ends, .inl counts⟩, counts⟩

/-- One more character, which may end the line. -/
theorem Reading.gets (reading : Reading (.loop n target got)) (more : n > 0) {c : UInt8} (goes : c ≠ C 'D') :
    (c ≠ newline → Reading (.loop (n - 1) target (got ++ [c]))) ∧
      Reading (.leave (count target (n - 1)) (got ++ [c])) := by
  obtain ⟨line, ends, asked, asks, targets, some⟩ := reading
  have later : n - 1 + (got ++ [c]).length = asked.toInt := by
    rw [List.length_append, List.length_singleton, ← asks]
    push_cast
    omega
  have unended : C 'D' ∉ got ++ [c] := by
    intro member
    rcases List.mem_append.mp member with old | new
    · exact ends old
    · exact goes (List.mem_singleton.mp new).symm
  have counts := count_got later targets fun _ => by omega
  refine ⟨fun plain => ⟨?_, unended, asked, later, targets, fun _ => by omega⟩, ⟨?_, unended, .inl counts⟩, counts⟩
  · intro member
    rcases List.mem_append.mp member with old | new
    · exact line old
    · exact plain (List.mem_singleton.mp new).symm
  · rw [List.dropLast_concat]
    exact line

theorem readLoop_reads {t : Fin N} {input : Input N} {action : Action Site (Tty N) Unit}
    (reading : Reading (.loop n target got)) (returned : ∀ read ∈ s.reads, Returned read)
    (acts : readLoop t input s n target got = some action) :
    Reading action.next ∧ ∀ read ∈ (action.after s).reads, Returned read := by
  unfold readLoop at acts
  split at acts
  · rename_i more
    split at acts
    · split at acts
      · cases acts
        refine ⟨trivial, fun read member => ?_⟩
        rcases List.mem_append.mp member with old | new
        · exact returned read old
        · rw [List.mem_singleton.mp new]
          exact ⟨fun wrong => reading.1 (List.dropLast_subset _ wrong), reading.2.1, .inr rfl⟩
      · cases acts
        exact ⟨reading, returned⟩
    · dsimp only at acts
      split at acts
      · split at acts <;> cases acts <;> exact ⟨reading.leaves, returned⟩
      · rename_i goes
        split at acts
        · split at acts
          · cases acts
            exact ⟨(reading.gets more goes).2, returned⟩
          · rename_i plain
            cases acts
            exact ⟨(reading.gets more goes).1 plain, returned⟩
        · cases acts
          exact ⟨reading.leaves, returned⟩
        · cases acts
  · cases acts
    exact ⟨reading.leaves, returned⟩

theorem accept_reads (returned : ∀ read ∈ s.reads, Returned read) (c : UInt8) :
    Reading (accept s c).next ∧ ∀ read ∈ ((accept s c).after s).reads, Returned read := by
  unfold accept
  split
  · dsimp only
    generalize (if c = carriageReturn then newline else c) = ch
    split
    · exact ⟨trivial, returned⟩
    · exact ⟨trivial, returned⟩
  · exact ⟨trivial, returned⟩

theorem inside_reads {t : Fin N} {input : Input N} {site : Site} {action : Action Site (Tty N) Unit}
    (reading : Reading site) (returned : ∀ read ∈ s.reads, Returned read)
    (acts : inside t input s site = some action) :
    Reading action.next ∧ ∀ read ∈ (action.after s).reads, Returned read := by
  cases site with
  | loop n target got => exact readLoop_reads reading returned acts
  | leave result got =>
      cases acts
      refine ⟨trivial, fun read member => ?_⟩
      rcases List.mem_append.mp member with old | new
      · exact returned read old
      · rw [List.mem_singleton.mp new]
        exact reading.1
  | intr c =>
      rw [inside_intr] at acts
      split at acts
      · cases acts
        exact ⟨trivial, returned⟩
      · split at acts
        · cases acts
          exact ⟨trivial, returned⟩
        · split at acts
          · split at acts <;> cases acts <;> exact ⟨trivial, returned⟩
          · cases acts
            exact accept_reads returned c
  | killLine =>
      rw [inside_killLine] at acts
      split at acts <;> cases acts <;> exact ⟨trivial, returned⟩
  | rouse => cases acts; exact ⟨trivial, returned⟩
  | done => cases acts; exact ⟨trivial, returned⟩
  | _ => cases acts

theorem outside_reads {input : Input N} {site next : Site} (acts : outside input s site = some (s', next)) :
    Reading next ∧ s'.reads = s.reads := by
  cases site with
  | away =>
      cases input with
      | kill p => cases acts; exact ⟨trivial, rfl⟩
      | consoleread n => cases acts; exact ⟨trivial, rfl⟩
      | consoleintr c => cases acts; exact ⟨trivial, rfl⟩
      | _ => cases acts
  | _ => cases acts

/-- The readers under way and those that returned. -/
structure Honored (st : State N Site (Tty N) Unit) : Prop where
  reading : ∀ t, Reading (st.pc t).site
  returned : ∀ read ∈ st.shared.reads, Returned read

theorem step_honored {st st' : State N Site (Tty N) Unit} {label : Label N (Input N)} (honored : Honored st)
    (stepped : program.step st label = some st') : Honored st' := by
  rcases step_sites stepped with ⟨shared, sites⟩ | ⟨t, next, moves, sites⟩
  · refine ⟨fun u => ?_, shared ▸ honored.returned⟩
    have same : (st'.pc u).site = (st.pc u).site := congrFun sites u
    rw [same]
    exact honored.reading u
  · have own := honored.reading t
    have goes : Reading next ∧ ∀ read ∈ st'.shared.reads, Returned read := by
      generalize (st.pc t).site = site at moves own
      generalize st'.shared = after at moves ⊢
      cases moves with
      | enter enters =>
          refine ⟨?_, honored.returned⟩
          cases site <;> cases enters
          · exact ⟨by simp, by simp, _, by simp, rfl, by simp⟩
          · trivial
      | inside acts => exact inside_reads own honored.returned acts
      | outside acts =>
          obtain ⟨reading, same⟩ := outside_reads acts
          exact ⟨reading, same ▸ honored.returned⟩
    refine ⟨fun u => ?_, goes.2⟩
    have site : (st'.pc u).site = Function.update (fun u => (st.pc u).site) t next u := congrFun sites u
    rw [site]
    by_cases here : u = t
    · rw [here, Function.update_self]
      exact goes.1
    · rw [Function.update_of_ne here]
      exact honored.reading u

end Reads

section Sleeping

def Waiting (s : Tty N) (_ : Unit) : Prop := s.cons.r = s.cons.w

/-- The wakeup still to come after a line is handed over. -/
def Owing (site : Site) (_ : Unit) : Prop := site = .rouse

variable {st st' : State N Site (Tty N) Unit} {t : Fin N} {input : Input N}

theorem readLoop_honest {n : Int} {target : Nat} {got : List UInt8} {action : Action Site (Tty N) Unit}
    (acts : readLoop t input st.shared n target got = some action) :
    Honest Waiting Owing st (.loop n target got) action := by
  unfold readLoop at acts
  split at acts
  · split at acts
    · rename_i none
      split at acts
      · cases acts
        exact fun _ _ => ⟨nofun, id⟩
      · cases acts
        exact ⟨none, fun _ _ => nofun⟩
    · rename_i some
      dsimp only at acts
      split at acts
      · split at acts <;> cases acts <;> exact fun _ _ => ⟨nofun, fun waits => absurd waits some⟩
      · split at acts
        · split at acts <;> cases acts <;> exact fun _ _ => ⟨nofun, fun waits => absurd waits some⟩
        · cases acts
          exact fun _ _ => ⟨nofun, fun waits => absurd waits some⟩
        · cases acts
  · cases acts
    exact fun _ _ => ⟨nofun, .inl⟩

theorem accept_honest (c : UInt8) : Honest Waiting Owing st (.intr c) (accept st.shared c) := by
  unfold accept
  split
  · dsimp only
    generalize (if c = carriageReturn then newline else c) = ch
    split
    · exact fun _ _ => ⟨nofun, fun _ => .inr rfl⟩
    · exact fun _ _ => ⟨nofun, .inl⟩
  · exact fun _ _ => ⟨nofun, .inl⟩

theorem program_fair (label : Label N (Input N)) : Fair Waiting Owing program st label := by
  cases label with
  | inside t input =>
      intro site action _ acts
      change inside t input st.shared site = some action at acts
      cases site with
      | loop n target got => exact readLoop_honest acts
      | leave result got =>
          cases acts
          exact fun _ _ => ⟨nofun, id⟩
      | intr c =>
          rw [inside_intr] at acts
          split at acts
          · cases acts
            exact fun _ _ => ⟨nofun, .inl⟩
          · split at acts
            · cases acts
              exact fun _ _ => ⟨nofun, .inl⟩
            · split at acts
              · split at acts <;> cases acts <;> exact fun _ _ => ⟨nofun, .inl⟩
              · cases acts
                exact accept_honest c
      | killLine =>
          rw [inside_killLine] at acts
          split at acts <;> cases acts <;> exact fun _ _ => ⟨nofun, .inl⟩
      | rouse =>
          cases acts
          exact fun _ _ _ => .inl rfl
      | done =>
          cases acts
          exact fun _ _ => ⟨nofun, id⟩
      | _ => cases acts
  | outside t input =>
      intro site r _ acts chan waits
      change outside input st.shared site = some r at acts
      cases site with
      | away =>
          cases input with
          | kill p => cases acts; exact waits
          | consoleread n => cases acts; exact waits
          | consoleintr c => cases acts; exact waits
          | _ => cases acts
      | _ => cases acts
  | _ => trivial

end Sleeping

section Discipline

/-- What was handed over or delivered stays so. -/
structure Extends (s s' : Tty N) : Prop where
  committed : s.committed <+: s'.committed
  delivered : s.delivered <+: s'.delivered

variable {s s' : Tty N} {st st' : State N Site (Tty N) Unit} {t : Fin N} {input : Input N}

theorem Extends.refl (s : Tty N) : Extends s s := ⟨List.prefix_refl _, List.prefix_refl _⟩

theorem readLoop_extends {n : Int} {target : Nat} {got : List UInt8} {action : Action Site (Tty N) Unit}
    (acts : readLoop t input s n target got = some action) : Extends s (action.after s) := by
  unfold readLoop at acts
  split at acts
  · split at acts
    · split at acts <;> cases acts <;> exact ⟨List.prefix_refl _, List.prefix_refl _⟩
    · dsimp only at acts
      split at acts
      · split at acts <;> cases acts <;> exact ⟨List.prefix_refl _, List.prefix_refl _⟩
      · split at acts
        · split at acts <;> cases acts <;> exact ⟨List.prefix_refl _, List.prefix_append _ _⟩
        · cases acts
          exact ⟨List.prefix_refl _, List.prefix_refl _⟩
        · cases acts
  · cases acts
    exact .refl s

theorem accept_extends (s : Tty N) (c : UInt8) : Extends s ((accept s c).after s) := by
  unfold accept
  split
  · dsimp only
    generalize (if c = carriageReturn then newline else c) = ch
    split
    · exact ⟨List.prefix_append _ _, List.prefix_refl _⟩
    · exact ⟨List.prefix_refl _, List.prefix_refl _⟩
  · exact .refl s

theorem inside_extends {site : Site} {action : Action Site (Tty N) Unit}
    (acts : inside t input s site = some action) : Extends s (action.after s) := by
  cases site with
  | loop n target got => exact readLoop_extends acts
  | leave result got =>
      cases acts
      exact ⟨List.prefix_refl _, List.prefix_refl _⟩
  | intr c =>
      rw [inside_intr] at acts
      split at acts
      · cases acts
        exact .refl s
      · split at acts
        · cases acts
          exact .refl s
        · split at acts
          · split at acts <;> cases acts <;> exact ⟨List.prefix_refl _, List.prefix_refl _⟩
          · cases acts
            exact accept_extends s c
  | killLine =>
      rw [inside_killLine] at acts
      split at acts <;> cases acts <;> exact ⟨List.prefix_refl _, List.prefix_refl _⟩
  | rouse => cases acts; exact .refl s
  | done => cases acts; exact .refl s
  | _ => cases acts

theorem step_extends {label : Label N (Input N)} (stepped : program.step st label = some st') :
    Extends st.shared st'.shared := by
  rcases step_sites stepped with ⟨shared, -⟩ | ⟨t, next, moves, -⟩
  · rw [shared]
    exact .refl _
  · generalize (st.pc t).site = site at moves
    generalize st'.shared = after at moves ⊢
    cases moves with
    | enter _ => exact .refl _
    | inside acts => exact inside_extends acts
    | @outside input after next acts =>
        cases site with
        | away =>
            cases input with
            | kill p => cases acts; exact ⟨List.prefix_refl _, List.prefix_refl _⟩
            | consoleread n => cases acts; exact .refl _
            | consoleintr c => cases acts; exact .refl _
            | _ => cases acts
        | _ => cases acts

theorem run_extends {labels : List (Label N (Input N))} (ran : run program.step st labels = some st') :
    Extends st.shared st'.shared := by
  refine run_invariant program.step (fun _ later => Extends st.shared later.shared) (.refl _) ?_ ran
  intro _ middle _ next _ before stepped
  have after := step_extends stepped
  exact ⟨before.committed.trans after.committed, before.delivered.trans after.delivered⟩

/-- The process is about to erase: it runs backspace or delete, or kill-line. -/
def Erasing (st : State N Site (Tty N) Unit) (t : Fin N) : Prop :=
  st.pc t = .inside (.intr (C 'H')) ∨ st.pc t = .inside (.intr delete) ∨ st.pc t = .inside .killLine

/-- A step took at most the last character of the line, and kill-line goes on until it is
empty. -/
structure Shortened (st st' : State N Site (Tty N) Unit) (t : Fin N) : Prop where
  committed : st'.shared.committed = st.shared.committed
  unread : stretch st'.shared.cons st'.shared.cons.r (dist st'.shared.cons.r st'.shared.cons.w) =
    stretch st.shared.cons st.shared.cons.r (dist st.shared.cons.r st.shared.cons.w)
  line : st'.shared.line = st.shared.line.dropLast ∨ st'.shared.line = st.shared.line
  killLine : st.pc t = .inside .killLine → st'.pc t = .inside .killLine ∨ st'.shared.line = []

/-- The discipline of the line at one moment. -/
structure Disciplined (st : State N Site (Tty N) Unit) : Prop where
  /-- `r <= w <= e <= r + INPUT_BUF_SIZE`, with indices that wrap. -/
  ordered : dist st.shared.cons.r st.shared.cons.w + dist st.shared.cons.w st.shared.cons.e =
      dist st.shared.cons.r st.shared.cons.e ∧
    dist st.shared.cons.r st.shared.cons.e ≤ INPUT_BUF_SIZE
  /-- What was committed is what readers took, and behind it what waits from `r` to `w`. -/
  unread : st.shared.consumed ++
      stretch st.shared.cons st.shared.cons.r (dist st.shared.cons.r st.shared.cons.w) = st.shared.committed
  /-- The line still to be committed stands from `w` to `e`. -/
  line : stretch st.shared.cons st.shared.cons.w (dist st.shared.cons.w st.shared.cons.e) = st.shared.line
  /-- Readers get what they take, in its order, but no Control-D. -/
  delivered : st.shared.delivered = st.shared.consumed.filter (· ≠ C 'D')
  /-- No read goes past the end of a line. -/
  returned : ∀ read ∈ st.shared.reads, Returned read
  /-- A reader that meets Control-D leaves with what it got. -/
  ends : ∀ t n target got input st', st.pc t = .inside (.loop n target got) → n > 0 →
    st.shared.cons.r ≠ st.shared.cons.w →
    st.shared.cons.buf (st.shared.cons.r % INPUT_BUF_SIZE) = C 'D' →
    program.step st (.inside t input) = some st' →
    st'.pc t = .inside (.leave got.length got) ∧ st'.shared.delivered = st.shared.delivered
  /-- Erasing shortens the line and nothing else. -/
  erases : ∀ t input st', Erasing st t → program.step st (.inside t input) = some st' → Shortened st st' t
  /-- What was committed or delivered stays so. -/
  kept : ∀ more st', run program.step st more = some st' → Extends st.shared st'.shared
  /-- Nobody sleeps who could read. -/
  rested : st.holder = none → ∀ t next, st.pc t = .asleep () next → st.shared.cons.r = st.shared.cons.w

theorem Honored.ends (honored : Honored st) {n : Int} {target : Nat} {got : List UInt8}
    (here : st.pc t = .inside (.loop n target got)) (more : n > 0) (unempty : st.shared.cons.r ≠ st.shared.cons.w)
    (meets : st.shared.cons.buf (st.shared.cons.r % INPUT_BUF_SIZE) = C 'D')
    (stepped : program.step st (.inside t input) = some st') :
    st'.pc t = .inside (.leave got.length got) ∧ st'.shared.delivered = st.shared.delivered := by
  have reading : Reading (.loop n target got) := by
    have own := honored.reading t
    rw [here] at own
    exact own
  have counts : count target n = got.length := by
    obtain ⟨-, -, asked, asks, targets, some⟩ := reading
    exact count_got asks targets some
  obtain ⟨site, action, at_, acts, rfl⟩ := step_inside stepped
  rw [here] at at_
  cases at_
  change readLoop t input st.shared n target got = _ at acts
  rw [readLoop, if_pos more, if_neg unempty] at acts
  dsimp only at acts
  rw [if_pos meets, counts] at acts
  split at acts <;> cases acts
  · exact ⟨setPc_same _, rfl⟩
  · exact ⟨setPc_same _, rfl⟩

theorem Holds.erases (holds : Holds st.shared) (erasing : Erasing st t)
    (stepped : program.step st (.inside t input) = some st') : Shortened st st' t := by
  obtain ⟨site, action, at_, acts, rfl⟩ := step_inside stepped
  change inside t input st.shared site = some action at acts
  have back : ∀ c, c = C 'H' ∨ c = delete → site = .intr c →
      action = .move { st.shared with cons := st.shared.cons.erase, line := st.shared.line.dropLast } .done ∨
      action = .move st.shared .done := by
    rintro c key rfl
    have plain : c ≠ C 'P' ∧ c ≠ C 'U' := by rcases key with rfl | rfl <;> decide
    rw [inside_intr, if_neg plain.1, if_neg plain.2, if_pos key] at acts
    split at acts <;> cases acts
    · exact .inl rfl
    · exact .inr rfl
  have typed : ∀ c, c = C 'H' ∨ c = delete → st.pc t = .inside (.intr c) →
      Shortened st (act st t action) t := by
    intro c key here
    rw [at_] at here
    cases here
    rcases back c key rfl with rfl | rfl
    · exact ⟨rfl, rfl, .inl rfl, fun wrong => by rw [at_] at wrong; cases wrong⟩
    · exact ⟨rfl, rfl, .inr rfl, fun wrong => by rw [at_] at wrong; cases wrong⟩
  rcases erasing with here | here | here
  · exact typed _ (.inl rfl) here
  · exact typed _ (.inr rfl) here
  · rw [at_] at here
    cases here
    rw [inside_killLine] at acts
    split at acts <;> cases acts
    · exact ⟨rfl, rfl, .inl rfl, fun _ => .inl (setPc_same _)⟩
    · rename_i stops
      exact ⟨rfl, rfl, .inr rfl, fun _ => .inr (holds.killed stops)⟩

/-- What every step keeps while the copies succeed. -/
structure Inv (st : State N Site (Tty N) Unit) : Prop where
  holds : Holds st.shared
  honored : Honored st
  exclusive : Exclusive st
  waits : Waits Waiting Owing st

theorem fresh_inv : Inv (fresh : State N Site (Tty N) Unit) where
  holds := ⟨by norm_num [fresh], by norm_num [fresh], by norm_num [fresh], by norm_num [fresh, dist], rfl, rfl,
    ⟨by simp [fresh], by simp [fresh]⟩, rfl⟩
  honored := ⟨fun _ => trivial, by simp [fresh]⟩
  exclusive t := by simp [fresh, Pc.holds]
  waits := by
    refine ⟨fun t chan dormant => ?_, fun t chan next falls => by cases falls⟩
    obtain ⟨next, wrong | wrong⟩ := dormant <;> cases wrong

theorem step_inv {label : Label N (Input N)} (inv : Inv st) (copies : ∀ t, label ≠ .inside t (.copyout false))
    (stepped : program.step st label = some st') : Inv st' where
  holds := step_holds inv.holds copies stepped
  honored := step_honored inv.honored stepped
  exclusive := step_exclusive inv.exclusive stepped
  waits := step_waits inv.waits inv.exclusive stepped (program_fair label)

/-- Readers whose copies succeed get the edited input and nothing else, whatever is typed
and whenever they read. -/
theorem console_delivers {labels : List (Label N (Input N))} (ran : run program.step fresh labels = some st)
    (copies : ∀ t, Label.inside t (.copyout false) ∉ labels) : Disciplined st := by
  have inv : Inv st := by
    refine run_invariant_where program.step (fun _ label => ∀ t, label ≠ .inside t (.copyout false)) Inv fresh_inv
      (fun _ _ _ inv copies stepped => step_inv inv copies stepped) ran ?_
    rintro before label after middle rfl - t rfl
    exact copies t (List.mem_append_right _ List.mem_cons_self)
  have total := dist_append inv.holds.w inv.holds.e inv.holds.bounded
  exact {
    ordered := ⟨total.symm, total ▸ inv.holds.bounded⟩
    unread := inv.holds.unread
    line := inv.holds.line
    delivered := inv.holds.delivered
    returned := inv.honored.returned
    ends := fun _ _ _ _ _ _ here more unempty meets stepped =>
      inv.honored.ends here more unempty meets stepped
    erases := fun _ _ _ erasing stepped => inv.holds.erases erasing stepped
    kept := fun _ _ later => run_extends later
    rested := fun free _ _ sleeps => inv.waits.asleep inv.exclusive free sleeps }

/-- Two characters are typed and one of them erased, the line is ended, and a reader takes
the first character. -/
def typing : List (Label 1 (Input 1)) :=
  [.outside 0 (.consoleintr 65), .acquire 0, .inside 0 .none, .inside 0 .none,
    .outside 0 (.consoleintr 66), .acquire 0, .inside 0 .none, .inside 0 .none,
    .outside 0 (.consoleintr delete), .acquire 0, .inside 0 .none, .inside 0 .none,
    .outside 0 (.consoleintr carriageReturn), .acquire 0, .inside 0 .none, .inside 0 .none, .advance 0,
    .advance 0, .inside 0 .none,
    .outside 0 (.consoleread 5), .acquire 0, .inside 0 (.copyout true)]

theorem typing_delivers : ∃ st : State 1 Site (Tty 1) Unit, run program.step fresh typing = some st ∧
    st.shared.delivered = [65] ∧ st.shared.committed = [65, newline] ∧ Disciplined st := by
  have runs : ((run program.step fresh typing).any fun st : State 1 Site (Tty 1) Unit =>
      decide (st.shared.delivered = [65] ∧ st.shared.committed = [65, newline])) = true := by
    decide +kernel
  obtain ⟨st, ran, checks⟩ := (Option.any_eq_true _ _).mp runs
  obtain ⟨delivered, committed⟩ := of_decide_eq_true checks
  exact ⟨st, ran, delivered, committed, console_delivers ran (by decide)⟩

end Discipline

end PaddleOs.Console
