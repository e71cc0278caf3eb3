import PaddleOs.GrowProc
import PaddleOs.MallocRuns
import PaddleOs.Spaces

/-!
The allocator on the `sbrk` of the kernel. The request passes from `uint` to `int` on its way, and the
kernel takes a negative one for memory that is given back.
-/

namespace PaddleOs.Malloc

open Foundation.Outcome Foundation.Runs Foundation.Tiling
open Kernel (Pid State WellShaped growproc)

variable {W : Type} {s s' : State W} {p : Pid} {n : Int32} {nbytes : UInt32}

/-- `sbrk` as the process calls it. The result -1 is no address; a kernel that stops returns none. -/
def sbrk (p : Pid) (n : Int32) (s : State W) : Option Nat × State W :=
  match Kernel.sysSbrk p n.toInt s with
  | .ok addr after => (if addr = -1 then none else some addr.toNat, after)
  | .error _ after => (none, after)

/-- The allocator in the process `p`. -/
def linked (base : Nat) (p : Pid) : Program (State W) where
  base := base
  sbrk := sbrk p

def brk (p : Pid) (s : State W) : Nat := (s.proc p).sz

/-- The size that `morecore` writes into the header of the new block. -/
def recorded (nbytes : UInt32) : Nat := if units nbytes < 4096 then 4096 else units nbytes

theorem morecore_asks {E : Type} (program : Program E) (turns : Nat) (nbytes : UInt32) (h : Heap E) :
    morecore program turns (units nbytes) h =
      match program.sbrk (Int32.ofNat (recorded nbytes * HEADER)) h.env with
      | (none, env) => some (0, { h with env })
      | (some hp, env) => do
          let h ← free turns (hp + HEADER)
            { h with size := Function.update h.size hp (recorded nbytes)
                     memory := (hp, (Int32.ofNat (recorded nbytes * HEADER)).toInt.toNat) :: h.memory
                     env }
          return (h.freep, h) := rfl

section Sbrk

theorem sbrk_result {post : Int → State W → Prop}
    (grows : outcome (growproc p n.toInt) post (fun _ _ => False) s) :
    ∃ r s', post r s' ∧ sbrk p n s = (if r < 0 then none else some (brk p s), s') := by
  unfold outcome at grows
  cases ran : growproc p n.toInt s with
  | error reason after =>
      rw [ran] at grows
      exact grows.elim
  | ok r after =>
      rw [ran] at grows
      refine ⟨r, after, grows, ?_⟩
      have returned : Kernel.sysSbrk p n.toInt s =
        .ok (if r < 0 then -1 else ((brk p s : Nat) : Int)) after := by
        change EStateM.bind (growproc p n.toInt) _ s = _
        unfold EStateM.bind
        rw [ran]
        dsimp only
        split
        · rfl
        · rfl
      unfold sbrk
      rw [returned]
      dsimp only
      split
      · rfl
      · rw [if_neg (by omega)]
        rfl

/-- `sbrk` gives out the old break. The new one lies `n` bytes higher, unless `n` is negative. -/
theorem sbrk_moves (shaped : WellShaped s p) {a : Nat} (granted : sbrk p n s = (some a, s')) :
    a = brk p s ∧ ((brk p s' : Int) = brk p s + n.toInt ∨ brk p s' = brk p s ∧ n.toInt < 0) := by
  have moves : outcome (growproc p n.toInt)
      (fun r s' => 0 ≤ r → (brk p s' : Int) = brk p s + n.toInt ∨ brk p s' = brk p s ∧ n.toInt < 0)
      (fun _ _ => False) s := by
    by_cases enough : 0 ≤ (brk p s : Int) + n.toInt
    · refine outcome_post ((Kernel.growproc_exact_iff shaped n).mpr enough) ?_
      intro r s' grown done
      rcases grown.results with zero | failed
      · exact .inl (grown.size zero)
      · omega
    · refine outcome_post (Kernel.growproc_wraps n.le_toInt (by
        unfold brk at enough
        omega)) ?_
      rintro r s' ⟨-, same⟩ -
      exact .inr ⟨same, by omega⟩
  obtain ⟨r, after, moved, result⟩ := sbrk_result moves
  obtain ⟨first, rfl⟩ := Prod.mk.inj (result.symm.trans granted)
  split at first
  · cases first
  · rename_i done
    exact ⟨(Option.some.inj first).symm, moved (Int.not_lt.mp done)⟩

/-- A positive request adds that many bytes or nothing. -/
theorem linked_extends {base : Nat} (somewhere : 0 < base) :
    Extends (linked (W := W) base p) (WellShaped · p) (brk p) where
  somewhere := somewhere
  grows n s a s' shaped more granted := by
    obtain ⟨r, after, shaped', result⟩ := sbrk_result (Kernel.growproc_shaped shaped more)
    obtain ⟨-, rfl⟩ := Prod.mk.inj (result.symm.trans granted)
    obtain ⟨rfl, moved⟩ := sbrk_moves shaped granted
    exact ⟨shaped', Nat.le_refl _, by omega⟩
  fails n s s' shaped more refused := by
    have both := outcome_and ((Kernel.growproc_exact_iff shaped n).mpr (by omega))
      (Kernel.growproc_shaped shaped more)
    obtain ⟨r, after, ⟨grown, shaped'⟩, result⟩ := sbrk_result (outcome_mono both
      (fun _ _ both => both) fun _ _ failed => failed.1)
    obtain ⟨first, rfl⟩ := Prod.mk.inj (result.symm.trans refused)
    refine ⟨shaped', ?_⟩
    split at first
    · rename_i negative
      rcases grown.results with rfl | failed
      · cases negative
      · exact Nat.le_of_eq (grown.sizeKept failed).symm
    · cases first

theorem linked_room (base : Nat) : Room (linked (W := W) base p) (WellShaped · p) (brk p) := by
  rintro s ⟨g, h, root, shape⟩
  have few := h.few shape.low shape.pages
  have size : (s.proc p).sz ≤ 0x8000000 := by
    unfold Vm.pagesOf PGSIZE at few
    omega
  exact Nat.le_trans size (Nat.le_trans (by decide) (Nat.le_add_left _ _))

end Sbrk

section Requests

theorem recorded_bounds (nbytes : UInt32) : recorded nbytes ≤ 2 ^ 28 + 1 ∧ 4096 ≤ recorded nbytes ∧
    (recorded nbytes * HEADER < 2 ^ 31 ↔ nbytes.toNat ≤ 2 ^ 31 - 32) := by
  have bound := nbytes.toNat_lt
  have size := units_eq nbytes
  unfold recorded HEADER
  split <;> omega

theorem small_iff (nbytes : UInt32) : Small nbytes ↔ nbytes.toNat ≤ 2 ^ 31 - 32 := by
  have size := units_eq nbytes
  unfold Small HEADER
  omega

/-- `sbrk` extends the process by what `morecore` writes into the header for requests of at most
`2 ^ 31 - 32` bytes, and for no others. -/
theorem sbrk_honest (shaped : WellShaped s p) {a : Nat}
    (granted : sbrk p (Int32.ofNat (recorded nbytes * HEADER)) s = (some a, s')) :
    brk p s' = brk p s + recorded nbytes * HEADER ↔ nbytes.toNat ≤ 2 ^ 31 - 32 := by
  obtain ⟨most, least, exact⟩ := recorded_bounds nbytes
  obtain ⟨-, moved⟩ := sbrk_moves shaped granted
  rw [← exact]
  unfold HEADER at *
  constructor
  · intro extended
    by_contra large
    have wrapped : (Int32.ofNat (recorded nbytes * 16)).toInt = (recorded nbytes * 16 : Nat) - 2 ^ 32 := by
      have size : Int32.size = 2 ^ 32 := rfl
      rw [Int32.toInt_ofNat', Int.bmod_def, size]
      split <;> omega
    omega
  · intro fits
    rw [Int32.toInt_ofNat_of_lt fits] at moved
    omega

theorem Served.below {E : Type} {base t q : Nat} {h : Heap E} {used : List (Nat × Nat)}
    (served : Served base t (units nbytes) h used q) : q = 0 ∨ q + nbytes.toNat ≤ t := by
  rcases served with ⟨null, -⟩ | ⟨free, x, rfl, layout⟩
  · exact .inl null
  · have inside := layout.below (x, units nbytes) (List.mem_append_right _ List.mem_cons_self)
    have cover := (units_cover nbytes).2
    unfold stop at inside
    dsimp only at inside
    exact .inr (by omega)

/-- A process of one page with half of it in use, which has not allocated anything. -/
theorem half_page : ∃ (p : Pid) (start : Client (State Unit)), brk p start.heap.env = 2048 ∧
    start.heap = { ptr := fun _ => 0, size := fun _ => 0, freep := 0, memory := [], env := start.heap.env } ∧
    Untouched (linked 256 p) (WellShaped · p) (brk p) start := by
  obtain ⟨ram, g, r, -, h, -, root, -, shape, -⟩ := Vm.two_spaces
  have shape' : Vm.Shape (g.space r) g.trampoline 0x80008 (Vm.pagesOf 2048) := shape
  let s : State Unit := { Kernel.bss () tinySuperblock ram with
    proc := fun _ =>
      { state := .running, pid := 1, killed := false, xstate := 0, parent := none, sz := 2048
        pagetable := r, trapframe := 0x80008, ofile := fun _ => none, cwd := none } }
  refine ⟨⟨0, by decide⟩,
    { heap := { ptr := fun _ => 0, size := fun _ => 0, freep := 0, memory := [], env := s }, live := [] },
    rfl, rfl, rfl, rfl, rfl, ⟨⟨g, h, root, shape'⟩, ?_⟩⟩
  change 256 + 16 ≤ 2048
  decide

/-- What `malloc` makes of the old break when it is all there is. -/
theorem malloc_at_break {E : Type} (program : Program E) (home : program.base = 256) {e e' : E}
    (granted : program.sbrk (Int32.ofNat (recorded 2147483648 * HEADER)) e = (some 2048, e')) :
    ∃ h, malloc program 4 2147483648 { ptr := fun _ => 0, size := fun _ => 0, freep := 0, memory := [], env :=
      e } =
      some (2064, h) ∧ h.env = e' := by
  obtain ⟨base, sbrk⟩ := program
  obtain rfl : base = 256 := home
  let h₀ : Heap E := { ptr := fun _ => 0, size := fun _ => 0, freep := 0, memory := [], env := e }
  have round : malloc ⟨256, sbrk⟩ 4 2147483648 h₀ =
      refill ⟨256, sbrk⟩ (units 2147483648) 3 (Malloc.start ⟨256, sbrk⟩ h₀) := rfl
  have env : (Malloc.start ⟨256, sbrk⟩ h₀).env = e := rfl
  change sbrk _ e = _ at granted
  rw [round, refill, morecore_asks, env]
  dsimp only
  rw [granted]
  exact ⟨_, rfl, rfl⟩

/-- For `2 ^ 31` bytes `sbrk` gets a negative number and gives out the old break. -/
theorem sbrk_huge (half : brk p s = 2048) :
    ∃ s', sbrk p (Int32.ofNat (recorded 2147483648 * HEADER)) s = (some 2048, s') ∧ brk p s' = 2048 := by
  have negative : (Int32.ofNat (recorded 2147483648 * HEADER)).toInt = -2147483632 := by decide
  have grows := Kernel.growproc_wraps (s := s) (p :=
    p) (Int32.ofNat (recorded 2147483648 * HEADER)).le_toInt (by
    unfold brk at half
    omega)
  obtain ⟨r, s', ⟨rfl, same⟩, result⟩ := sbrk_result grows
  refine ⟨s', ?_, same.trans half⟩
  rw [result, half]
  rfl

/-- `malloc` gets what it writes into the header exactly for requests of at most `2 ^ 31 - 32` bytes.
When a process makes no others, no block reaches beyond its break. -/
theorem malloc_claims_what_it_gets {W : Type} (p : Pid) :
    (∀ (s s' : State W) (nbytes : UInt32) (a : Nat), WellShaped s p →
      sbrk p (Int32.ofNat (recorded nbytes * HEADER)) s = (some a, s') →
      (brk p s' = brk p s + recorded nbytes * HEADER ↔ nbytes.toNat ≤ 2 ^ 31 - 32)) ∧
    ∀ (base : Nat) (start c : Client (State W)) (labels : List Label), 0 < base →
      Untouched (linked base p) (WellShaped · p) (brk p) start →
      (∀ nbytes turns, .malloc nbytes turns ∈ labels → nbytes.toNat ≤ 2 ^ 31 - 32) →
      run (step (linked base p)) start labels = some c →
      ∀ nbytes turns q h, nbytes.toNat ≤ 2 ^ 31 - 32 → malloc (linked base p) turns nbytes c.heap =
        some (q, h) →
        q = 0 ∨ q + nbytes.toNat ≤ brk p h.env := by
  refine ⟨fun s s' nbytes a shaped granted => sbrk_honest shaped granted, ?_⟩
  intro base start c labels somewhere untouched modest ran nbytes turns q h small returned
  have extend := linked_extends (W := W) (p := p) somewhere
  have room := linked_room (W := W) (p := p) base
  obtain ⟨order, ready⟩ := Ordered.run extend room untouched (fun label member => by
    cases label with
    | malloc nbytes turns => exact (small_iff nbytes).mpr (modest nbytes turns member)
    | free => trivial
    | store => trivial) ran
  obtain ⟨used, -, served, -⟩ := order.served extend room ready ((small_iff nbytes).mpr small) returned
  exact served.below

/-- A small and a large request of such a process. -/
theorem half_page_claims : ∃ (p : Pid) (start : Client (State Unit)) (s' : State Unit),
    (brk p s' = brk p start.heap.env + recorded 2147483648 * HEADER ↔
      (2147483648 : UInt32).toNat ≤ 2 ^ 31 - 32) ∧
    ∃ turns q h, malloc (linked 256 p) turns 8 start.heap = some (q, h) ∧
      (q = 0 ∨ q + (8 : UInt32).toNat ≤ brk p h.env) := by
  obtain ⟨p, start, half, -, untouched⟩ := half_page
  obtain ⟨s', granted, -⟩ := sbrk_huge half
  have extend := linked_extends (W := Unit) (p := p) (show 0 < 256 by decide)
  have order : Ordered (linked 256 p) (brk p) start := .inl ⟨untouched.freep, untouched.memory, untouched.live⟩
  obtain ⟨turns, serves⟩ :=
    order.serves extend (linked_room 256) untouched.ready ((small_iff 8).mpr (by decide))
  obtain ⟨q, h, -, returned, -⟩ := serves turns (Nat.le_refl _)
  have claims := malloc_claims_what_it_gets (W := Unit) p
  exact ⟨p, start, s', claims.1 _ s' _ _ untouched.ready.valid granted, turns, q, h, returned,
    claims.2 256 start start [] (by decide) untouched (fun _ _ member => absurd member List.not_mem_nil) rfl 8
      turns q h (by decide) returned⟩

/-- `malloc` gives out a block of `2 ^ 31` bytes at the break, and the break stays where it is. -/
theorem block_beyond_break : ∃ (p : Pid) (start : Client (State Unit)) (s' : State Unit)
    (h : Heap (State Unit)),
    Untouched (linked 256 p) (WellShaped · p) (brk p) start ∧
    sbrk p (Int32.ofNat (recorded 2147483648 * HEADER)) start.heap.env = (some 2048, s') ∧
    brk p s' ≠ brk p start.heap.env + recorded 2147483648 * HEADER ∧
    malloc (linked 256 p) 4 2147483648 start.heap = some (2064, h) ∧ brk p h.env = 2048 := by
  obtain ⟨p, start, half, blank, untouched⟩ := half_page
  obtain ⟨s', granted, same⟩ := sbrk_huge half
  obtain ⟨h, returned, env⟩ := malloc_at_break (linked 256 p) rfl granted
  refine ⟨p, start, s', h, untouched, granted, ?_, ?_, ?_⟩
  · rw [same, half]
    decide
  · rw [blank]
    exact returned
  · rw [env, same]

end Requests

end PaddleOs.Malloc
