import PaddleOs.Foundation.Guarded
import PaddleOs.Params

/-!
The transmitter of `uart.c`: `uartputc` puts characters into the ring `uart_tx_buf`, `uartstart` moves
them to the device as long as that is idle, `uartintr` calls it when the device asks for it, and
`uartputc_sync` writes to the device past the ring and past `uart_tx_lock`. Any number of processes and
interrupt handlers run these at once; the device may become idle and the kernel may panic at any time.
`accepted` collects the characters put into the ring, `taken` those `uartstart` took out of it, and
`line` what was written to the transmit register, with its way there. `raised` remembers that the
device became idle after a handler last set out to empty the ring.
-/

namespace PaddleOs.Uart

open Foundation.Monitor Foundation.Runs

variable {N : Nat}

abbrev UART_TX_BUF_SIZE : Nat := 32

inductive Source where
  | ring
  | sync
  deriving DecidableEq, Repr

structure Port where
  uart_tx_buf : Nat → UInt8
  uart_tx_w : Nat
  uart_tx_r : Nat
  panicked : Bool
  idle : Bool
  raised : Bool
  accepted : List UInt8
  taken : List UInt8
  line : List (Source × UInt8)

/-- Where a process or a handler stands. `took` and `emit` carry the character that `uartstart` has in
its hand, `poll` and `ready` the one of `uartputc_sync`. -/
inductive Site where
  | away
  | uartputc (c : UInt8)
  | put (c : UInt8)
  | uartintr
  | service
  | start
  | took (c : UInt8)
  | emit (c : UInt8)
  | leave
  | poll (c : UInt8)
  | ready (c : UInt8)
  deriving DecidableEq, Repr

inductive Input where
  | uartputc (c : UInt8)
  | uartputcSync (c : UInt8)
  | interrupt
  | drained
  | panic
  | none
  deriving DecidableEq, Repr

/-- `uart_tx_buf[uart_tx_w % UART_TX_BUF_SIZE] = c; uart_tx_w += 1`. -/
def put (s : Port) (c : UInt8) : Port :=
  { s with
    uart_tx_buf := Function.update s.uart_tx_buf (s.uart_tx_w % UART_TX_BUF_SIZE) c
    uart_tx_w := (s.uart_tx_w + 1) % 2 ^ 64
    accepted := s.accepted ++ [c] }

def first (s : Port) : UInt8 := s.uart_tx_buf (s.uart_tx_r % UART_TX_BUF_SIZE)

/-- `c = uart_tx_buf[uart_tx_r % UART_TX_BUF_SIZE]; uart_tx_r += 1`. -/
def take (s : Port) : Port :=
  { s with uart_tx_r := (s.uart_tx_r + 1) % 2 ^ 64, taken := s.taken ++ [first s] }

/-- `regs->RBR_THR_DLL = c`. -/
def transmit (s : Port) (source : Source) (c : UInt8) : Port :=
  { s with line := s.line ++ [(source, c)], idle := false }

def enter : Site → Option Site
  | .uartputc c => some (.put c)
  | .uartintr => some .service
  | _ => none

def inside (s : Port) : Site → Option (Action Site Port Unit)
  | .put c =>
      -- a panicked kernel spins here and keeps the lock
      if s.panicked then none
      else if s.uart_tx_w = (s.uart_tx_r + UART_TX_BUF_SIZE) % 2 ^ 64 then some (.sleep () (.put c))
      else some (.move (put s c) .start)
  | .service => some (.move { s with raised := false } .start)
  | .start =>
      if s.uart_tx_w = s.uart_tx_r then some (.move s .leave)
      else if s.idle = false then some (.move s .leave)
      else some (.move (take s) (.took (first s)))
  | .took c => some (.wakeup () (.emit c))
  | .emit c => some (.move (transmit s .ring c) .start)
  | .leave => some (.release s .away)
  | _ => none

def outside (input : Input) (s : Port) : Site → Option (Port × Site)
  | .away =>
      match input with
      | .uartputc c => some (s, .uartputc c)
      | .interrupt => some (s, .uartintr)
      -- the check of `panicked` comes before the wait for the device
      | .uartputcSync c => if s.panicked then none else some (s, .poll c)
      | .drained => some ({ s with idle := true, raised := true }, .away)
      | .panic => some ({ s with panicked := true }, .away)
      | .none => none
  | .poll c => if s.idle then some (s, .ready c) else some (s, .poll c)
  | .ready c => some (transmit s .sync c, .away)
  | _ => none

def program : Program N Input Site Port Unit where
  enter _ := enter
  inside _ _ := inside
  outside _ := outside

/-- After `uartinit`: the ring is empty and the device idle. -/
def uartinit (buf : Nat → UInt8) : State N Site Port Unit where
  shared :=
    { uart_tx_buf := buf, uart_tx_w := 0, uart_tx_r := 0, panicked := false, idle := true
      raised := false, accepted := [], taken := [], line := [] }
  holder := none
  pc _ := .outside .away

section Queue

/-- `uart_tx_w - uart_tx_r` in 64-bit arithmetic. -/
def count (s : Port) : Nat := (((s.uart_tx_w : Int) - s.uart_tx_r) % 2 ^ 64).toNat

/-- The characters still in the ring, the oldest first. -/
def pending (s : Port) : List UInt8 :=
  (List.range (count s)).map fun k => s.uart_tx_buf ((s.uart_tx_r + k) % UART_TX_BUF_SIZE)

/-- What came to the device by way of the ring. -/
def sent (s : Port) : List UInt8 := (s.line.filter fun entry => entry.1 = Source.ring).map Prod.snd

structure Fifo (s : Port) : Prop where
  w : s.uart_tx_w < 2 ^ 64
  r : s.uart_tx_r < 2 ^ 64
  bounded : count s ≤ UART_TX_BUF_SIZE
  order : s.taken ++ pending s = s.accepted

variable {s : Port}

theorem count_put (c : UInt8) (room : count s < UART_TX_BUF_SIZE) : count (put s c) = count s + 1 := by
  simp only [count, put, UART_TX_BUF_SIZE] at *
  omega

theorem count_take (w : s.uart_tx_w < 2 ^ 64) (r : s.uart_tx_r < 2 ^ 64)
    (some : s.uart_tx_w ≠ s.uart_tx_r) : count s = count (take s) + 1 := by
  simp only [count, take] at *
  omega

theorem pending_put (c : UInt8) (room : count s < UART_TX_BUF_SIZE) :
    pending (put s c) = pending s ++ [c] := by
  -- the slot of the new character is that of no older one
  have slot : ∀ k ≤ count s,
      (s.uart_tx_r + k) % UART_TX_BUF_SIZE = s.uart_tx_w % UART_TX_BUF_SIZE ↔ k = count s := by
    intro k below
    simp only [count, UART_TX_BUF_SIZE] at *
    omega
  unfold pending
  rw [count_put c room, List.range_succ, List.map_append]
  congr 1
  · apply List.map_congr_left
    intro k member
    have below := List.mem_range.mp member
    apply Function.update_of_ne
    intro same
    exact absurd ((slot k (by omega)).mp same) (by omega)
  · change [Function.update s.uart_tx_buf _ c ((s.uart_tx_r + count s) % UART_TX_BUF_SIZE)] = [c]
    rw [(slot _ (le_refl _)).mpr rfl, Function.update_self]

theorem pending_take (w : s.uart_tx_w < 2 ^ 64) (r : s.uart_tx_r < 2 ^ 64)
    (some : s.uart_tx_w ≠ s.uart_tx_r) : pending s = first s :: pending (take s) := by
  unfold pending
  rw [count_take w r some, List.range_succ_eq_map, List.map_cons, List.map_map]
  congr 1
  apply List.map_congr_left
  intro k _
  change s.uart_tx_buf ((s.uart_tx_r + (k + 1)) % UART_TX_BUF_SIZE) =
    s.uart_tx_buf (((s.uart_tx_r + 1) % 2 ^ 64 + k) % UART_TX_BUF_SIZE)
  congr 1
  -- the counter may wrap here; the size of the ring divides 2 ^ 64
  simp only [UART_TX_BUF_SIZE]
  omega

theorem Fifo.put (fifo : Fifo s) (room : s.uart_tx_w ≠ (s.uart_tx_r + UART_TX_BUF_SIZE) % 2 ^ 64)
    (c : UInt8) : Fifo (put s c) := by
  have few : count s < UART_TX_BUF_SIZE := by
    have bounded := fifo.bounded
    have w := fifo.w
    have r := fifo.r
    simp only [count, UART_TX_BUF_SIZE] at *
    omega
  constructor
  · exact Nat.mod_lt _ (by norm_num)
  · exact fifo.r
  · rw [count_put c few]
    exact few
  · rw [pending_put c few, ← List.append_assoc]
    exact congrArg (· ++ [c]) fifo.order

theorem Fifo.take (fifo : Fifo s) (some : s.uart_tx_w ≠ s.uart_tx_r) : Fifo (take s) := by
  have fewer := count_take fifo.w fifo.r some
  have bounded := fifo.bounded
  constructor
  · exact fifo.w
  · exact Nat.mod_lt _ (by norm_num)
  · omega
  · change s.taken ++ [first s] ++ pending (Uart.take s) = s.accepted
    rw [← fifo.order, pending_take fifo.w fifo.r some, List.append_assoc]
    rfl

/-- The ring and the two histories alone matter. -/
theorem Fifo.same {s' : Port} (fifo : Fifo s) (w : s'.uart_tx_w = s.uart_tx_w)
    (r : s'.uart_tx_r = s.uart_tx_r) (buf : s'.uart_tx_buf = s.uart_tx_buf)
    (taken : s'.taken = s.taken) (accepted : s'.accepted = s.accepted) : Fifo s' := by
  have counts : count s' = count s := by simp only [count, w, r]
  have holds : pending s' = pending s := by simp only [pending, counts, r, buf]
  constructor
  · exact w ▸ fifo.w
  · exact r ▸ fifo.r
  · exact counts ▸ fifo.bounded
  · rw [taken, holds, accepted]
    exact fifo.order

theorem sent_ring (s : Port) (c : UInt8) : sent (transmit s .ring c) = sent s ++ [c] := by
  simp [sent, transmit]

theorem sent_sync (s : Port) (c : UInt8) : sent (transmit s .sync c) = sent s := by
  simp [sent, transmit]

end Queue

section Transmission

/-- Whatever is left in the ring, the device is busy or has asked for more. -/
def Flowing (s : Port) : Prop :=
  s.uart_tx_w = s.uart_tx_r ∨ s.idle = false ∨ s.raised = true

/-- `carry` has been taken out of the ring and is still to be given to the device. -/
structure Sound (carry : List UInt8) (s : Port) : Prop where
  fifo : Fifo s
  handed : sent s ++ carry = s.taken

def Free (s : Port) : Prop := Sound [] s ∧ Flowing s

/-- In the middle of `uartstart` nobody has to know that the device will ask for more. -/
def Local : Site → Port → Prop
  | .put _, s | .leave, s | .service, s => Free s
  | .start, s => Sound [] s
  | .took c, s | .emit c, s => Sound [c] s
  | _, _ => False

variable {s after : Port} {site next : Site} {input : Input}

theorem Sound.same {carry : List UInt8} {s' : Port} (sound : Sound carry s)
    (fifo : Fifo s') (line : sent s' = sent s) (taken : s'.taken = s.taken) : Sound carry s' := by
  constructor
  · exact fifo
  · rw [line, taken]
    exact sound.handed

/-- What happens without the lock leaves the ring alone, and the device only asks for more. -/
theorem outside_keeps (acts : outside input s site = some (after, next)) :
    (∀ carry, Sound carry s → Sound carry after) ∧ (Flowing s → Flowing after) := by
  have unchanged : (∀ carry, Sound carry s → Sound carry s) ∧ (Flowing s → Flowing s) :=
    ⟨fun _ => id, id⟩
  cases site with
  | away =>
      cases input with
      | uartputc c => cases acts; exact unchanged
      | interrupt => cases acts; exact unchanged
      | uartputcSync c =>
          rw [outside] at acts
          split at acts <;> cases acts
          exact unchanged
      | drained =>
          cases acts
          exact ⟨fun carry sound => sound.same (sound.fifo.same rfl rfl rfl rfl rfl) rfl rfl,
            fun _ => Or.inr (Or.inr rfl)⟩
      | panic =>
          cases acts
          exact ⟨fun carry sound => sound.same (sound.fifo.same rfl rfl rfl rfl rfl) rfl rfl, id⟩
      | none => cases acts
  | poll c =>
      rw [outside] at acts
      split at acts <;> cases acts <;> exact unchanged
  | ready c =>
      cases acts
      exact ⟨fun carry sound => sound.same (sound.fifo.same rfl rfl rfl rfl rfl) (sent_sync s c) rfl,
        fun _ => Or.inr (Or.inl rfl)⟩
  | _ => cases acts

theorem inside_put (s : Port) (c : UInt8) : inside s (.put c) =
    if s.panicked then none
    else if s.uart_tx_w = (s.uart_tx_r + UART_TX_BUF_SIZE) % 2 ^ 64 then some (.sleep () (.put c))
    else some (.move (put s c) .start) := rfl

theorem inside_start (s : Port) : inside s .start =
    if s.uart_tx_w = s.uart_tx_r then some (.move s .leave)
    else if s.idle = false then some (.move s .leave)
    else some (.move (take s) (.took (first s))) := rfl

/-- With the lock, `uartputc` sleeps or puts its character. -/
theorem put_cases {c : UInt8} {action : Action Site Port Unit} (acts : inside s (.put c) = some action) :
    (s.uart_tx_w = (s.uart_tx_r + UART_TX_BUF_SIZE) % 2 ^ 64 ∧ action = .sleep () (.put c)) ∨
      (s.uart_tx_w ≠ (s.uart_tx_r + UART_TX_BUF_SIZE) % 2 ^ 64 ∧ action = .move (put s c) .start) := by
  rw [inside_put] at acts
  split at acts
  · cases acts
  · split at acts
    · rename_i full
      exact Or.inl ⟨full, (Option.some.inj acts).symm⟩
    · rename_i room
      exact Or.inr ⟨room, (Option.some.inj acts).symm⟩

/-- `uartstart` stops at an empty ring or a busy device, or takes a character. -/
theorem start_cases {action : Action Site Port Unit} (acts : inside s .start = some action) :
    (s.uart_tx_w = s.uart_tx_r ∧ action = .move s .leave) ∨
      (s.uart_tx_w ≠ s.uart_tx_r ∧ s.idle = false ∧ action = .move s .leave) ∨
      (s.uart_tx_w ≠ s.uart_tx_r ∧ action = .move (take s) (.took (first s))) := by
  rw [inside_start] at acts
  split at acts
  · rename_i empty
    exact Or.inl ⟨empty, (Option.some.inj acts).symm⟩
  · rename_i some
    split at acts
    · rename_i busy
      exact Or.inr (Or.inl ⟨some, busy, (Option.some.inj acts).symm⟩)
    · exact Or.inr (Or.inr ⟨some, (Option.some.inj acts).symm⟩)

theorem inside_hands {action : Action Site Port Unit} (known : Local site s)
    (acts : inside s site = some action) : Hands Free Local s action := by
  cases site with
  | put c =>
      rcases put_cases acts with ⟨-, rfl⟩ | ⟨room, rfl⟩
      · exact ⟨known, fun _ free => free⟩
      · exact ⟨known.1.fifo.put room c, known.1.handed⟩
  | service =>
      cases acts
      exact known.1.same (known.1.fifo.same rfl rfl rfl rfl rfl) rfl rfl
  | start =>
      rcases start_cases acts with ⟨empty, rfl⟩ | ⟨-, busy, rfl⟩ | ⟨some, rfl⟩
      · exact ⟨known, Or.inl empty⟩
      · exact ⟨known, Or.inr (Or.inl busy)⟩
      · constructor
        · exact known.fifo.take some
        · have handed := known.handed
          rw [List.append_nil] at handed
          exact congrArg (· ++ [first s]) handed
  | took c => cases acts; exact known
  | emit c =>
      cases acts
      constructor
      · exact known.fifo.same rfl rfl rfl rfl rfl
      · rw [sent_ring, List.append_nil]
        exact known.handed
  | leave => cases acts; exact known
  | _ => cases acts

theorem program_guards : Guards Free Local (program : Program N Input Site Port Unit) where
  enter t at_ next enters any free := by
    change enter at_ = some next at enters
    cases at_ <;> cases enters
    · exact free
    · exact free
  inside t input s at_ action known acts := inside_hands known acts
  free t input s at_ after next acts free :=
    ⟨(outside_keeps acts).1 [] free.1, (outside_keeps acts).2 free.2⟩
  held t input s at_ after next acts place known := by
    obtain ⟨sound, flowing⟩ := outside_keeps acts
    cases place with
    | put c => exact ⟨sound _ known.1, flowing known.2⟩
    | leave => exact ⟨sound _ known.1, flowing known.2⟩
    | service => exact ⟨sound _ known.1, flowing known.2⟩
    | start => exact sound _ known
    | took c => exact sound _ known
    | emit c => exact sound _ known
    | _ => exact known

variable {st : State N Site Port Unit} {labels : List (Label N Input)}

theorem initial_free (buf : Nat → UInt8) : Free (uartinit buf : State N Site Port Unit).shared := by
  constructor
  · constructor
    · constructor
      · norm_num [uartinit]
      · norm_num [uartinit]
      · exact Nat.zero_le _
      · rfl
    · rfl
  · exact Or.inl rfl

theorem run_transmission {buf : Nat → UInt8} (ran : run program.step (uartinit buf) labels = some st) :
    Exclusive st ∧ Guarded Free Local st :=
  run_guarded program_guards (fun _ => ⟨.away, rfl⟩) rfl (initial_free buf) ran

/-- Whoever holds the lock has at most one character in hand. -/
theorem holder_sound {t : Fin N} (exclusive : Exclusive st) (guarded : Guarded Free Local st)
    (holder : st.holder = some t) : ∃ carry, carry.length ≤ 1 ∧ Sound carry st.shared := by
  have holds := (exclusive t).mpr holder
  have local_ : ∀ site, Local site st.shared → ∃ carry, carry.length ≤ 1 ∧ Sound carry st.shared := by
    intro site known
    cases site with
    | put c => exact ⟨[], Nat.zero_le 1, known.1⟩
    | leave => exact ⟨[], Nat.zero_le 1, known.1⟩
    | service => exact ⟨[], Nat.zero_le 1, known.1⟩
    | start => exact ⟨[], Nat.zero_le 1, known⟩
    | took c => exact ⟨[c], le_refl 1, known⟩
    | emit c => exact ⟨[c], le_refl 1, known⟩
    | _ => exact known.elim
  have knows := guarded.knows t
  cases pc : st.pc t with
  | inside site => rw [pc] at knows; exact local_ site knows
  | sweeping chan i next => rw [pc] at knows; exact local_ next knows
  | falling chan next => rw [pc] at knows; exact ⟨[], Nat.zero_le 1, knows.1.1⟩
  | _ => rw [pc] at holds; cases holds

/-- Two processes write, the device takes the first character and is busy with it, and a third writes
past the ring. -/
def twoWriters : List (Label 3 Input) :=
  [.outside 0 (.uartputc 65), .outside 1 (.uartputc 66), .acquire 0, .inside 0 .none, .inside 0 .none,
    .inside 0 .none, .advance 0, .advance 0, .advance 0, .advance 0, .inside 0 .none, .inside 0 .none,
    .inside 0 .none, .outside 2 (.uartputcSync 67), .acquire 1, .inside 1 .none, .inside 1 .none,
    .inside 1 .none]

end Transmission

section Waiting

variable {st st' : State N Site Port Unit} {labels : List (Label N Input)}

/-- What makes it right to sleep in `uartputc`. -/
def Full (s : Port) (_ : Unit) : Prop := s.uart_tx_w = (s.uart_tx_r + UART_TX_BUF_SIZE) % 2 ^ 64

/-- `uartstart` has taken a character and not yet woken the writers. -/
def Owing : Site → Unit → Prop
  | .took _, _ => True
  | _, _ => False

theorem outside_full {input : Input} {s after : Port} {site next : Site}
    (acts : outside input s site = some (after, next)) :
    after.uart_tx_w = s.uart_tx_w ∧ after.uart_tx_r = s.uart_tx_r := by
  cases site with
  | away =>
      cases input with
      | uartputcSync c =>
          rw [outside] at acts
          split at acts <;> cases acts
          exact ⟨rfl, rfl⟩
      | none => cases acts
      | _ => cases acts; exact ⟨rfl, rfl⟩
  | poll c =>
      rw [outside] at acts
      split at acts <;> cases acts <;> exact ⟨rfl, rfl⟩
  | ready c => cases acts; exact ⟨rfl, rfl⟩
  | _ => cases acts

theorem inside_honest {site : Site} {action : Action Site Port Unit}
    (acts : inside st.shared site = some action) : Honest Full Owing st site action := by
  cases site with
  | put c =>
      rcases put_cases acts with ⟨full, rfl⟩ | ⟨room, rfl⟩
      · exact ⟨full, fun _ _ owes => owes.elim⟩
      · exact fun _ _ => ⟨fun owes => owes.elim, fun full => absurd full room⟩
  | service => cases acts; exact fun _ _ => ⟨fun owes => owes.elim, Or.inl⟩
  | start =>
      rcases start_cases acts with ⟨-, rfl⟩ | ⟨-, -, rfl⟩ | ⟨-, rfl⟩
      · exact fun _ _ => ⟨fun owes => owes.elim, Or.inl⟩
      · exact fun _ _ => ⟨fun owes => owes.elim, Or.inl⟩
      · exact fun _ _ => ⟨fun owes => owes.elim, fun _ => Or.inr trivial⟩
  | took c => cases acts; exact fun _ _ _ => Or.inl rfl
  | emit c => cases acts; exact fun _ _ => ⟨fun owes => owes.elim, Or.inl⟩
  | leave => cases acts; exact fun _ _ => ⟨fun owes => owes.elim, id⟩
  | _ => cases acts

theorem program_fair (label : Label N Input) : Fair Full Owing program st label := by
  cases label with
  | inside t input => exact fun site action _ acts => inside_honest acts
  | outside t input =>
      intro site r _ acts chan full
      obtain ⟨w, r⟩ := outside_full acts
      rw [Full, w, r]
      exact full
  | _ => trivial

theorem run_waits {buf : Nat → UInt8} (ran : run program.step (uartinit buf) labels = some st) :
    Waits Full Owing st := by
  have both : Exclusive st ∧ Waits Full Owing st := by
    apply run_invariant program.step (fun _ st => Exclusive st ∧ Waits Full Owing st) ?_ ?_ ran
    · constructor
      · intro t
        simp [uartinit, Pc.holds]
      · constructor
        · rintro t chan ⟨next, wrong | wrong⟩ <;> cases wrong
        · intro t chan next wrong
          cases wrong
    · rintro _ middle label next - ⟨exclusive, waits⟩ stepped
      exact ⟨step_exclusive exclusive stepped, step_waits waits exclusive stepped (program_fair label)⟩
  exact both.2

/-- Thirty-three characters for a device that never gets done with its first. -/
def floods : List (Label 2 Input) :=
  [.outside 1 (.uartputcSync 64), .outside 1 .none, .outside 1 .none] ++
  (List.range 32).flatMap (fun _ => [.outside 0 (.uartputc 65), .acquire 0, .inside 0 .none,
    .inside 0 .none, .inside 0 .none]) ++
  [.outside 0 (.uartputc 66), .acquire 0, .inside 0 .none, .advance 0, .advance 0]

end Waiting

end PaddleOs.Uart
