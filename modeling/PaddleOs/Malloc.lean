import PaddleOs.Foundation.CircularList
import PaddleOs.Foundation.Runs
import PaddleOs.Foundation.Tiling
import Mathlib.Data.Nat.Cast.Basic

/-!
`malloc` and `free` of `user/umalloc.c`. A header is kept as its two fields, at the address where it
begins; `base` is the address of the header that is in no block. `sbrk` is a parameter. A call gets so
many turns of its loops and has no result when it needs more.
-/

namespace PaddleOs.Malloc

open Foundation.CircularList Foundation.Tiling

/-- `sizeof(Header)` -/
def HEADER : Nat := 16

/-- What the allocator is linked with: the address of `base` and `sbrk`, which returns the start of
the memory it adds, or none for -1. -/
structure Program (E : Type) where
  base : Nat
  sbrk : Int32 → E → Option Nat × E

/-- `memory` says what `sbrk` has been asked for with success: where it starts and how many bytes. -/
structure Heap (E : Type) where
  ptr : Nat → Nat
  size : Nat → Nat
  freep : Nat
  memory : List (Nat × Nat)
  env : E

variable {E : Type}

def uint32 (n : Nat) : Nat := n % 2 ^ 32

/-- The condition that ends the search of `free` at `p`. -/
def between (h : Heap E) (bp p : Nat) : Bool :=
  (bp > p && bp < h.ptr p) || (p ≥ h.ptr p && (bp > p || bp < h.ptr p))

/-- The block is joined to the one behind it, or points to it. -/
def linkNext (h : Heap E) (bp p : Nat) : Heap E :=
  if bp + HEADER * h.size bp = h.ptr p then
    { h with size := Function.update h.size bp (uint32 (h.size bp + h.size (h.ptr p)))
             ptr := Function.update h.ptr bp (h.ptr (h.ptr p)) }
  else { h with ptr := Function.update h.ptr bp (h.ptr p) }

/-- The block is joined to the one before it, or that one points to it. -/
def linkPrev (h : Heap E) (bp p : Nat) : Heap E :=
  if p + HEADER * h.size p = bp then
    { h with size := Function.update h.size p (uint32 (h.size p + h.size bp))
             ptr := Function.update h.ptr p (h.ptr bp) }
  else { h with ptr := Function.update h.ptr p bp }

def free (turns ap : Nat) (h : Heap E) : Option (Heap E) := do
  let bp := ap - HEADER
  let p ← seek h.ptr (between h bp) turns h.freep
  return { linkPrev (linkNext h bp p) bp p with freep := p }

/-- The null pointer is 0. -/
def morecore (program : Program E) (turns nu : Nat) (h : Heap E) : Option (Nat × Heap E) :=
  let nu := if nu < 4096 then 4096 else nu
  let n := Int32.ofNat (nu * HEADER)
  match program.sbrk n h.env with
  | (none, env) => some (0, { h with env })
  | (some hp, env) => do
      let h ← free turns (hp + HEADER)
        { h with size := Function.update h.size hp nu
                 memory := (hp, n.toInt.toNat) :: h.memory
                 env }
      return (h.freep, h)

/-- The block at `p`, behind `prevp`, or its end is taken from the list. -/
def take (nunits prevp p : Nat) (h : Heap E) : Nat × Heap E :=
  if h.size p = nunits then
    (p + HEADER, { h with ptr := Function.update h.ptr prevp (h.ptr p), freep := prevp })
  else
    let rest := h.size p - nunits
    let q := p + HEADER * rest
    (q + HEADER, { h with size := Function.update (Function.update h.size p rest) q nunits, freep := prevp })

def mallocFrom (program : Program E) (nunits : Nat) : Nat → Nat → Nat → Heap E → Option (Nat × Heap E)
  | 0, _, _, _ => none
  | turns + 1, prevp, p, h =>
      if h.size p ≥ nunits then some (take nunits prevp p h)
      else if p = h.freep then do
        let (q, h) ← morecore program turns nunits h
        if q = 0 then return (0, h)
        mallocFrom program nunits turns q (h.ptr q) h
      else mallocFrom program nunits turns p (h.ptr p) h

/-- `nunits`; the division is made in 64 bits. -/
def units (nbytes : UInt32) : Nat := uint32 ((nbytes.toNat + HEADER - 1) / HEADER + 1)

def start (program : Program E) (h : Heap E) : Heap E :=
  if h.freep = 0 then
    { h with ptr := Function.update h.ptr program.base program.base
             size := Function.update h.size program.base 0
             freep := program.base }
  else h

def malloc (program : Program E) (turns : Nat) (nbytes : UInt32) (h : Heap E) : Option (Nat × Heap E) :=
  let h := start program h
  mallocFrom program (units nbytes) turns h.freep (h.ptr h.freep) h

/-- A process that uses the allocator, with the pointers it has been given and has not freed. -/
structure Client (E : Type) where
  heap : Heap E
  live : List Nat

inductive Label where
  | malloc (nbytes : UInt32) (turns : Nat)
  | free (ap turns : Nat)
  | store (x ptr size : Nat)

/-- A header at `x` would lie in the block of one of the pointers, behind the start of its header. -/
def Payload (c : Client E) (x : Nat) : Prop :=
  ∃ ap ∈ c.live, ap - HEADER < x ∧ x < stop HEADER (ap - HEADER, c.heap.size (ap - HEADER))

instance (c : Client E) (x : Nat) : Decidable (Payload c x) := inferInstanceAs (Decidable (∃ ap ∈ c.live, _))

/-- The process allocates, frees what it has, and writes what it likes into its blocks. -/
def step (program : Program E) (c : Client E) : Label → Option (Client E)
  | .malloc nbytes turns => do
      let (p, heap) ← malloc program turns nbytes c.heap
      return { heap, live := if p = 0 then c.live else p :: c.live }
  | .free ap turns =>
      if ap ∈ c.live then do
        let heap ← free turns ap c.heap
        return { heap, live := c.live.erase ap }
      else none
  | .store x ptr size =>
      if Payload c x then
        some { c with heap := { c.heap with ptr := Function.update c.heap.ptr x ptr
                                            size := Function.update c.heap.size x size } }
      else none

end PaddleOs.Malloc
