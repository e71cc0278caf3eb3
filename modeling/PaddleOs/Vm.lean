import PaddleOs.Params
import PaddleOs.Foundation.Outcome
import Mathlib.Logic.Function.Basic

/-!
Physical pages and page tables of `kernel/kalloc.c` and `kernel/vm.c`. A physical
page is its page number, 0 for the null pointer. A page is used either as 512
page-table entries or as bytes, and the model keeps the two views apart; an entry
is kept as its fields. The free list that `kalloc.c` threads through the free
pages is the list `freelist`. `faults` says of the next calls of `kalloc` whether
they fail although pages are left.

Addresses are natural numbers; `uint64` arithmetic that may wrap says so.
-/

namespace PaddleOs

open Foundation.Outcome

def PGSIZE : Nat := 4096
def MAXVA : Nat := 2 ^ 38
def TRAMPOLINE : Nat := MAXVA - PGSIZE
def TRAPFRAME : Nat := TRAMPOLINE - PGSIZE

/-- `PHYMEMSTOP` as a page number. -/
def stopPage : Nat := (0x80000000 + 128 * 1024 * 1024) / PGSIZE

def word64 (n : Nat) : Nat := n % 2 ^ 64

def PGROUNDUP (sz : Nat) : Nat := word64 (sz + PGSIZE - 1) / PGSIZE * PGSIZE

def PGROUNDDOWN (a : Nat) : Nat := a / PGSIZE * PGSIZE

namespace Vm

inductive Stop where
  | freeMemory
  | walk
  | mappagesSize
  | remap
  | unmapNotAligned
  | unmapWalk
  | unmapNotMapped
  | unmapNotLeaf
  | freewalkLeaf
  | freewalkDepth
  | uvmclear
  | copyOldPte
  | copyNotPresent
  | loadsegAddress
  | uvmfirstSize
  | nullPage
  deriving DecidableEq, Repr

/-- The text of the panic; a `freewalk` that goes on below the third level and a store
through the null pointer have none. -/
def Stop.text : Stop → String
  | .freeMemory => "free memory error!"
  | .walk => "walk error!"
  | .mappagesSize => "mappages size error!"
  | .remap => "mappages: remap"
  | .unmapNotAligned => "uvmunmap: not aligned"
  | .unmapWalk => "uvmunmap: walk"
  | .unmapNotMapped => "uvmunmap: not mapped"
  | .unmapNotLeaf => "uvmunmap: not a leaf"
  | .freewalkLeaf => "freewalk error: leaf"
  | .freewalkDepth => ""
  | .uvmclear => "uvmclear"
  | .copyOldPte => "uvmcopy error: old pte should exist"
  | .copyNotPresent => "uvmcopy: page not present"
  | .loadsegAddress => "loadseg: address should exist"
  | .uvmfirstSize => "uvmfirst error: more than a page"
  | .nullPage => ""

/-- The bits `PTE_R`, `PTE_W`, `PTE_X` and `PTE_U`. -/
structure Perm where
  r : Bool
  w : Bool
  x : Bool
  u : Bool
  deriving DecidableEq, Repr

structure Pte where
  ppn : Nat
  v : Bool
  perm : Perm
  deriving DecidableEq, Repr

def Perm.none : Perm := { r := false, w := false, x := false, u := false }

def Pte.zero : Pte := { ppn := 0, v := false, perm := .none }

/-- `PA2PTE(pagetable) | PTE_V` -/
def Pte.table (page : Nat) : Pte := { ppn := page, v := true, perm := .none }

/-- An entry that points to a page-table page. -/
def Pte.isTable (pte : Pte) : Bool := pte.v && !(pte.perm.r || pte.perm.w || pte.perm.x)

/-- `first` is the first page at or above `end`, `trampoline` the page of the kernel's
text that holds `trampoline.S`. -/
structure Ram where
  first : Nat
  trampoline : Nat
  freelist : List Nat
  pte : Nat → Nat → Pte
  byte : Nat → Nat → UInt8
  faults : List Bool

abbrev VmM := EStateM Stop Ram

/-- The entry whose eight bytes are all `c`. -/
def Pte.ofByte (c : UInt8) : Pte where
  ppn := c.toNat * 0x0101010101010101 / 2 ^ 10
  v := c.toNat.testBit 0
  perm := { r := c.toNat.testBit 1, w := c.toNat.testBit 2
            x := c.toNat.testBit 3, u := c.toNat.testBit 4 }

/-- `memset(page, c, PGSIZE)` -/
def Ram.memset (ram : Ram) (page : Nat) (c : UInt8) : Ram :=
  { ram with pte := Function.update ram.pte page (fun _ => .ofByte c)
             byte := Function.update ram.byte page (fun _ => c) }

def kfree (page : Nat) : VmM Unit := do
  let ram ← get
  if page < ram.first ∨ page ≥ stopPage then throw .freeMemory
  set { ram.memset page 1 with freelist := page :: ram.freelist }

def kalloc : VmM (Option Nat) := do
  let ram ← get
  match ram.faults with
  | true :: faults =>
      set { ram with faults }
      return none
  | faults =>
      match ram.freelist with
      | [] =>
          set { ram with faults := faults.tail }
          return none
      | page :: freelist =>
          set { ram.memset page 3 with freelist, faults := faults.tail }
          return some page

def memzero (page : Nat) : VmM Unit := modify fun ram => ram.memset page 0

def setPte (page index : Nat) (pte : Pte) : VmM Unit :=
  modify fun ram =>
    { ram with pte := Function.update ram.pte page (Function.update (ram.pte page) index pte) }

def getPte (page index : Nat) : VmM Pte := do return (← get).pte page index

def PX (level va : Nat) : Nat := va / 2 ^ (12 + 9 * level) % 512

/-- One turn of the loop in `walk`: the page-table page one level down. -/
def walkLevel (pagetable level va : Nat) (alloc : Bool) : VmM (Option Nat) := do
  let pte ← getPte pagetable (PX level va)
  if pte.v then return some pte.ppn
  else if !alloc then return none
  else
    match ← kalloc with
    | none => return none
    | some page =>
        memzero page
        setPte pagetable (PX level va) (.table page)
        return some page

/-- `walk`: the page-table page and the index of the entry for `va`. -/
def walk (pagetable va : Nat) (alloc : Bool) : VmM (Option (Nat × Nat)) := do
  if va ≥ MAXVA then throw .walk
  match ← walkLevel pagetable 2 va alloc with
  | none => return none
  | some pagetable =>
      match ← walkLevel pagetable 1 va alloc with
      | none => return none
      | some pagetable => return some (pagetable, PX 0 va)

/-- The loop of `mappages`, for `count` more pages. -/
def mappagesFrom (pagetable : Nat) (perm : Perm) : Nat → Nat → Nat → VmM Bool
  | 0, _, _ => return true
  | count + 1, start, page => do
      match ← walk pagetable start true with
      | none => return false
      | some (table, index) =>
          if (← getPte table index).v then throw .remap
          setPte table index { ppn := page, v := true, perm }
          mappagesFrom pagetable perm count (word64 (start + PGSIZE)) (page + 1)

/-- `mappages`; false for -1. -/
def mappages (pagetable va page size : Nat) (perm : Perm) : VmM Bool := do
  if size = 0 then throw .mappagesSize
  let start := PGROUNDDOWN va
  let last := PGROUNDDOWN (word64 (va + size - 1))
  mappagesFrom pagetable perm (word64 (last + 2 ^ 64 - start) / PGSIZE + 1) start page

/-- `walkaddr`: the page, or 0. -/
def walkaddr (pagetable va : Nat) : VmM Nat := do
  if va ≥ MAXVA then return 0
  match ← walk pagetable va false with
  | none => return 0
  | some (table, index) =>
      let pte ← getPte table index
      if pte.v ∧ pte.perm.u then return pte.ppn else return 0

def uvmcreate : VmM (Option Nat) := do
  match ← kalloc with
  | none => return none
  | some page =>
      memzero page
      return some page

/-- One turn of `uvmunmap`. -/
def uvmunmapPage (pagetable : Nat) (doFree : Bool) (va : Nat) : VmM Unit := do
  match ← walk pagetable va false with
  | none => throw .unmapWalk
  | some (table, index) =>
      let pte ← getPte table index
      if !pte.v then throw .unmapNotMapped
      if pte.perm = .none then throw .unmapNotLeaf
      if doFree then kfree pte.ppn
      setPte table index .zero

def uvmunmap (pagetable va npages : Nat) (doFree : Bool) : VmM Unit := do
  if va % PGSIZE ≠ 0 then throw .unmapNotAligned
  loop (fun i => uvmunmapPage pagetable doFree (va + i * PGSIZE)) 0
    ((word64 (va + npages * PGSIZE) - va) / PGSIZE)

/-- `freewalk`, which goes down at most `depth` levels. -/
def freewalk : Nat → Nat → VmM Unit
  | 0, _ => throw .freewalkDepth
  | depth + 1, pagetable => do
      loop (fun i => do
        let pte ← getPte pagetable i
        if pte.isTable then
          freewalk depth pte.ppn
          setPte pagetable i .zero
        else if pte.v then throw .freewalkLeaf) 0 512
      kfree pagetable

def uvmfree (pagetable sz : Nat) : VmM Unit := do
  if sz > 0 then uvmunmap pagetable 0 (PGROUNDUP sz / PGSIZE) true
  freewalk 3 pagetable

def uvmdealloc (pagetable oldsz newsz : Nat) : VmM Nat := do
  if newsz ≥ oldsz then return oldsz
  if PGROUNDUP newsz < PGROUNDUP oldsz then
    uvmunmap pagetable (PGROUNDUP newsz) ((PGROUNDUP oldsz - PGROUNDUP newsz) / PGSIZE) true
  return newsz

/-- The loop of `uvmalloc` at `address`, for `count` more pages. -/
def uvmallocFrom (pagetable oldsz newsz : Nat) (perm : Perm) : Nat → Nat → VmM Nat
  | 0, _ => return newsz
  | count + 1, address => do
      match ← kalloc with
      | none =>
          let _ ← uvmdealloc pagetable address oldsz
          return 0
      | some mem =>
          memzero mem
          if ← mappages pagetable address mem PGSIZE perm then
            uvmallocFrom pagetable oldsz newsz perm count (address + PGSIZE)
          else
            kfree mem
            let _ ← uvmdealloc pagetable address oldsz
            return 0

/-- `PTE_R | PTE_U | xperm` -/
def userPerm (w x : Bool) : Perm := { r := true, w, x, u := true }

/-- `uvmalloc`; the number of turns is the number of pages from `PGROUNDUP(oldsz)`
below `newsz`. -/
def uvmalloc (pagetable oldsz newsz : Nat) (w x : Bool) : VmM Nat := do
  if newsz < oldsz then return oldsz
  let oldsz := PGROUNDUP oldsz
  uvmallocFrom pagetable oldsz newsz (userPerm w x) ((newsz - oldsz + PGSIZE - 1) / PGSIZE) oldsz

def uvmclear (pagetable va : Nat) : VmM Unit := do
  match ← walk pagetable va false with
  | none => throw .uvmclear
  | some (table, index) =>
      let pte ← getPte table index
      setPte table index { pte with perm := { pte.perm with u := false } }

/-- `memmove(mem, (char*)pa, PGSIZE)` -/
def copyPage (mem page : Nat) : VmM Unit :=
  modify fun ram =>
    { ram with pte := Function.update ram.pte mem (ram.pte page)
               byte := Function.update ram.byte mem (ram.byte page) }

/-- The loop of `uvmcopy` at `i`, for `count` more pages; false for -1. -/
def uvmcopyFrom (old new : Nat) : Nat → Nat → VmM Bool
  | 0, _ => return true
  | count + 1, i => do
      match ← walk old i false with
      | none => throw .copyOldPte
      | some (table, index) =>
          let pte ← getPte table index
          if !pte.v then throw .copyNotPresent
          match ← kalloc with
          | none =>
              uvmunmap new 0 (i / PGSIZE) true
              return false
          | some mem =>
              copyPage mem pte.ppn
              if ← mappages new i mem PGSIZE pte.perm then
                uvmcopyFrom old new count (i + PGSIZE)
              else
                kfree mem
                uvmunmap new 0 (i / PGSIZE) true
                return false

def uvmcopy (old new sz : Nat) : VmM Bool :=
  uvmcopyFrom old new ((sz + PGSIZE - 1) / PGSIZE) 0

/-- `memmove` into a physical page. -/
def putByte (page offset : Nat) (value : UInt8) : VmM Unit :=
  modify fun ram =>
    { ram with byte := Function.update ram.byte page
                 (Function.update (ram.byte page) offset value) }

def putBytes (page : Nat) : Nat → List UInt8 → VmM Unit
  | _, [] => return ()
  | offset, byte :: rest => do
      putByte page offset byte
      putBytes page (offset + 1) rest

/-- The offsets of `epc`, `sp`, `a0` and `a1` in `struct trapframe`, and its size. -/
def TF_EPC : Nat := 24
def TF_SP : Nat := 48
def TF_A0 : Nat := 112
def TF_A1 : Nat := 120
def TRAPFRAMESIZE : Nat := 288

/-- `*(np->trapframe) = *(p->trapframe)`, and then `a0 = 0`. -/
def copyTrapframe (np p : Nat) : VmM Unit := do
  modify fun ram =>
    { ram with byte := Function.update ram.byte np fun i =>
                 if i < TRAPFRAMESIZE then ram.byte p i else ram.byte np i }
  putBytes np TF_A0 (List.replicate 8 0)

/-- The loop of `copyout`, at most `fuel` pages; false for -1. -/
def copyoutFrom (pagetable : Nat) : Nat → Nat → List UInt8 → VmM Bool
  | 0, _, _ => return true
  | fuel + 1, dstva, src => do
      if src = [] then return true
      let va0 := PGROUNDDOWN dstva
      let page ← walkaddr pagetable va0
      if page = 0 then return false
      let n := min (PGSIZE - (dstva - va0)) src.length
      putBytes page (dstva - va0) (src.take n)
      copyoutFrom pagetable fuel (word64 (va0 + PGSIZE)) (src.drop n)

def copyout (pagetable dstva : Nat) (src : List UInt8) : VmM Bool :=
  copyoutFrom pagetable src.length dstva src

/-- The loop of `copyin`, at most `fuel` pages: what was copied, and whether all was. -/
def copyinFrom (pagetable : Nat) : Nat → Nat → Nat → List UInt8 → VmM (List UInt8 × Bool)
  | 0, _, _, copied => return (copied, true)
  | fuel + 1, srcva, len, copied => do
      if len = 0 then return (copied, true)
      let va0 := PGROUNDDOWN srcva
      let page ← walkaddr pagetable va0
      if page = 0 then return (copied, false)
      let n := min (PGSIZE - (srcva - va0)) len
      let ram ← get
      let bytes := (List.range n).map fun i => ram.byte page (srcva - va0 + i)
      copyinFrom pagetable fuel (word64 (va0 + PGSIZE)) (len - n) (copied ++ bytes)

def copyin (pagetable srcva len : Nat) : VmM (List UInt8 × Bool) :=
  copyinFrom pagetable len srcva len []

/-- The inner loop of `copyinstr`, `n` bytes of a page at most from `offset` on: what was
copied, and whether a NUL was. -/
def copyinstrPage (byte : Nat → UInt8) : Nat → Nat → List UInt8 × Bool
  | 0, _ => ([], false)
  | n + 1, offset =>
      if byte offset = 0 then ([0], true)
      else
        let (rest, gotNull) := copyinstrPage byte n (offset + 1)
        (byte offset :: rest, gotNull)

/-- The loop of `copyinstr`, at most `fuel` pages: what was copied, and whether the NUL was. -/
def copyinstrFrom (pagetable : Nat) : Nat → Nat → Nat → List UInt8 → VmM (List UInt8 × Bool)
  | 0, _, _, copied => return (copied, false)
  | fuel + 1, srcva, max, copied => do
      if max = 0 then return (copied, false)
      let va0 := PGROUNDDOWN srcva
      let page ← walkaddr pagetable va0
      if page = 0 then return (copied, false)
      let n := min (PGSIZE - (srcva - va0)) max
      let ram ← get
      let (bytes, gotNull) := copyinstrPage (ram.byte page) n (srcva - va0)
      if gotNull then return (copied ++ bytes, true)
      copyinstrFrom pagetable fuel (word64 (va0 + PGSIZE)) (max - n) (copied ++ bytes)

/-- `copyinstr`: the bytes stored at `dst`, and false for -1. -/
def copyinstr (pagetable srcva max : Nat) : VmM (List UInt8 × Bool) :=
  copyinstrFrom pagetable max srcva max []

def uvmfirst (pagetable : Nat) (src : List UInt8) : VmM Unit := do
  if src.length ≥ PGSIZE then throw .uvmfirstSize
  match ← kalloc with
  | none => throw .nullPage
  | some mem =>
      memzero mem
      let _ ← mappages pagetable 0 mem PGSIZE { r := true, w := true, x := true, u := true }
      putBytes mem 0 src

/-- `proc_pagetable` for the trapframe page of a process. -/
def procPagetable (trapframe : Nat) : VmM (Option Nat) := do
  match ← uvmcreate with
  | none => return none
  | some pagetable =>
      let trampoline := (← get).trampoline
      if ← mappages pagetable TRAMPOLINE trampoline PGSIZE
          { r := true, w := false, x := true, u := false } then
        if ← mappages pagetable TRAPFRAME trapframe PGSIZE
            { r := true, w := true, x := false, u := false } then
          return some pagetable
        else
          uvmunmap pagetable TRAMPOLINE 1 false
          uvmfree pagetable 0
          return none
      else
        uvmfree pagetable 0
        return none

def procFreepagetable (pagetable sz : Nat) : VmM Unit := do
  uvmunmap pagetable TRAMPOLINE 1 false
  uvmunmap pagetable TRAPFRAME 1 false
  uvmfree pagetable sz

end Vm

end PaddleOs
