import PaddleOs.Foundation.Refinement
import PaddleOs.Foundation.Riscv
import PaddleOs.Spaces

/-!
The way from user mode into the kernel and back: `uservec` and `userret` of `trampoline.S` around
`usertrap` and `usertrapret` of `trap.c`, for one process. What the kernel does in between is given
with each trap, as far as it may touch the process: it stores anywhere but into the trapframe, may come
back on another hart, returns a result from a system call, and `exec` sets three fields. A trap that
ends in `exit` does not come back and is left out.
-/

namespace PaddleOs.Trampoline

open Foundation.Riscv Foundation.SaveArea Foundation.Runs

/-- The members of `struct trapframe`. -/
inductive Field where
  | kernelSatp
  | kernelSp
  | kernelTrap
  | epc
  | kernelHartid
  | reg (r : Reg)
  deriving DecidableEq, Repr

def trapframe : List Field :=
  [.kernelSatp, .kernelSp, .kernelTrap, .epc, .kernelHartid, .reg .ra, .reg .sp, .reg .gp, .reg .tp,
    .reg .t0, .reg .t1, .reg .t2, .reg .s0, .reg .s1, .reg .a0, .reg .a1, .reg .a2, .reg .a3, .reg .a4,
    .reg .a5, .reg .a6, .reg .a7, .reg .s2, .reg .s3, .reg .s4, .reg .s5, .reg .s6, .reg .s7, .reg .s8,
    .reg .s9, .reg .s10, .reg .s11, .reg .t3, .reg .t4, .reg .t5, .reg .t6]

def offset (f : Field) : Nat := 8 * trapframe.idxOf f

section Code

/-- The registers `uservec` and `userret` move in a row; `a0` goes its own way. -/
def userSlots : List (Reg × Nat) :=
  [(.ra, 40), (.sp, 48), (.gp, 56), (.tp, 64), (.t0, 72), (.t1, 80), (.t2, 88), (.s0, 96), (.s1, 104),
    (.a1, 120), (.a2, 128), (.a3, 136), (.a4, 144), (.a5, 152), (.a6, 160), (.a7, 168), (.s2, 176),
    (.s3, 184), (.s4, 192), (.s5, 200), (.s6, 208), (.s7, 216), (.s8, 224), (.s9, 232), (.s10, 240),
    (.s11, 248), (.t3, 256), (.t4, 264), (.t5, 272), (.t6, 280)]

def trapframeVa : Word := BitVec.ofNat 64 TRAPFRAME

def uservecEntry : List Instr := [.csrw .sscratch .a0, .li .a0 trapframeVa]

def uservecExit : List Instr :=
  [.csrr .t0 .sscratch, .sd .t0 112 .a0, .ld .sp 8 .a0, .ld .tp 32 .a0, .ld .t0 16 .a0, .ld .t1 0 .a0,
    .sfence, .csrw .satp .t1, .sfence, .jr .t0]

def uservec : List Instr := uservecEntry ++ (saves .a0 userSlots ++ uservecExit)

def userretEntry : List Instr := [.sfence, .csrw .satp .a0, .sfence, .li .a0 trapframeVa]

def userretExit : List Instr := [.ld .a0 112 .a0, .sret]

def userret : List Instr := userretEntry ++ (loads .a0 userSlots ++ userretExit)

end Code

/-- What is fixed for a process: its trapframe page at `frame`, the translation of addresses, which
values of `satp` stand for its page tables, and the addresses that `usertrapret` uses. Each of its page
tables maps `TRAPFRAME` to the trapframe. -/
structure Setup where
  frame : Word
  view : Translation
  table : Word → Bool
  kernelSatp : Word
  kernelSp : Word
  usertrap : Word
  kernelvec : Word
  trampolineUservec : Word
  trampolineUserret : Word
  maps : ∀ satp, table satp = true → ∀ o, o < PGSIZE →
    view satp (BitVec.ofNat 64 (TRAPFRAME + o)) = some (frame + BitVec.ofNat 64 o)

section Traps

variable (k : Setup)

def Setup.place (o : Nat) : Word := k.frame + BitVec.ofNat 64 o

def Setup.field (m : Hart) (f : Field) : Word := m.mem (k.place (offset f))

/-- `p->trapframe->f = v` -/
def Setup.setField (m : Hart) (f : Field) (v : Word) : Hart :=
  { m with mem := Function.update m.mem (k.place (offset f)) v }

def Setup.words : List Word := (trapframe.map offset).map k.place

/-- The trapframe is not stored to. -/
def Setup.spared (writes : List (Word × Word)) : Bool := spares k.words writes

/-- The hart takes a trap. -/
def trapped (m : Hart) (scause : Word) : Hart :=
  { m with
    csrs := Function.update (Function.update m.csrs .sepc m.pc) .scause scause
    status := { m.status with spp := m.mode, spie := m.status.sie, sie := false }
    mode := .supervisor
    pc := m.csrs .stvec }

/-- What the kernel does in the middle of a trap: the hart it comes back on with its registers, its
stores, what a system call makes of the registers it finds in the trapframe, the entry point and the
stack pointer if that was an `exec`, and the page table of the process by then. -/
structure Inside where
  regs : Reg → Word
  csrs : Csr → Word
  status : Status
  writes : List (Word × Word)
  result : (Reg → Word) → Word
  exec : Option (Word × Word)
  pagetable : Word

/-- The kernel runs on its own page table, keeps the number of its hart in `tp`, gives the process
one of its page tables and leaves the trapframe alone. -/
def Setup.allows (inside : Inside) : Bool :=
  k.spared inside.writes && k.table inside.pagetable && inside.csrs .satp == k.kernelSatp &&
    inside.regs .tp == inside.csrs .mhartid

def kernelRuns (m : Hart) (inside : Inside) : Hart :=
  { m with regs := inside.regs, csrs := inside.csrs, status := inside.status
           mem := stores m.mem inside.writes }

/-- The stores of `exec` into the trapframe. -/
def Setup.execSets (m : Hart) : Option (Word × Word) → Hart
  | none => m
  | some (entry, sp) => k.setField (k.setField (k.setField m (.reg .a1) sp) .epc entry) (.reg .sp) sp

/-- `usertrapret` up to the jump to `userret`. -/
def Setup.usertrapret (m : Hart) (pagetable : Word) : Hart :=
  let m := m.setCsr .stvec k.trampolineUservec
  let m := k.setField m .kernelSatp (m.csrs .satp)
  let m := k.setField m .kernelSp k.kernelSp
  let m := k.setField m .kernelTrap k.usertrap
  let m := k.setField m .kernelHartid (m.regs .tp)
  let m := { m with status := { m.status with spp := .user, spie := true, sie := false } }
  let m := m.setCsr .sepc (k.field m .epc)
  { m.setReg .a0 pagetable with pc := k.trampolineUserret }

/-- The part of `usertrap` for a system call, which is cause 8. -/
def Setup.syscall (m : Hart) (inside : Inside) : Hart :=
  let m := k.setField m .epc (k.field m .epc + 4)
  let a0 := inside.result fun r => k.field m (.reg r)
  k.setField (k.execSets (kernelRuns m inside) inside.exec) (.reg .a0) a0

/-- `usertrap`; `none` for its panic. -/
def Setup.usertrapRuns (m : Hart) (inside : Inside) : Option Hart :=
  if m.status.spp ≠ .user then none
  else
    let m := k.setField (m.setCsr .stvec k.kernelvec) .epc (m.csrs .sepc)
    let m := if m.csrs .scause = 8 then k.syscall m inside else kernelRuns m inside
    some (k.usertrapret m inside.pagetable)

/-- From user mode to the first instruction of `usertrap`. -/
def Setup.enters (m : Hart) (scause : Word) : Option Hart :=
  if m.csrs .stvec = k.trampolineUservec then execs k.view (trapped m scause) uservec else none

/-- From `usertrapret` back to user mode. -/
def Setup.returns (m : Hart) : Option Hart :=
  if m.pc = k.trampolineUserret then execs k.view m userret else none

inductive Label where
  | compute (regs : Reg → Word) (pc : Word) (writes : List (Word × Word))
  | trap (scause : Word) (inside : Inside)

/-- The process computes in user mode, where the trapframe is out of its reach, or it traps and comes
back. -/
def Setup.step (m : Hart) : Label → Option Hart
  | .compute regs pc writes =>
      if m.mode = .user ∧ k.spared writes then
        some { m with regs, pc, mem := stores m.mem writes }
      else none
  | .trap scause inside =>
      if m.mode = .user ∧ k.allows inside then
        (k.enters m scause).bind fun m =>
          if m.pc = k.usertrap then (k.usertrapRuns m inside).bind k.returns else none
      else none

end Traps

section Frame

variable {k : Setup} {m : Hart}

theorem field_listed (f : Field) : f ∈ trapframe := by
  cases f with
  | reg r => cases r <;> decide
  | _ => decide

theorem offset_small (f : Field) : offset f < 288 := by
  have listed := List.idxOf_lt_length_of_mem (field_listed f)
  change 8 * trapframe.idxOf f < 288
  have length : trapframe.length = 36 := rfl
  omega

theorem offset_inj {f g : Field} (same : offset f = offset g) : f = g := by
  have index : trapframe.idxOf f = trapframe.idxOf g := by
    unfold offset at same
    omega
  exact (List.idxOf_inj (field_listed f)).mp index

theorem place_inj {a b : Nat} (below : a < 2 ^ 64) (under : b < 2 ^ 64) (same : k.place a = k.place b) :
    a = b := by
  have offsets : BitVec.ofNat 64 a = BitVec.ofNat 64 b := by
    simpa [Setup.place] using same
  have values := congrArg BitVec.toNat offsets
  rwa [BitVec.toNat_ofNat, BitVec.toNat_ofNat, Nat.mod_eq_of_lt below, Nat.mod_eq_of_lt under] at values

theorem place_offset_inj {f g : Field} (same : k.place (offset f) = k.place (offset g)) : f = g := by
  have left := offset_small f
  have right := offset_small g
  exact offset_inj (place_inj (by omega) (by omega) same)

@[simp] theorem field_setField (m : Hart) (f g : Field) (v : Word) :
    k.field (k.setField m f v) g = if g = f then v else k.field m g := by
  by_cases here : g = f
  · rw [if_pos here, here]
    exact Function.update_self ..
  · rw [if_neg here]
    apply Function.update_of_ne
    intro same
    exact here (place_offset_inj same)

@[simp] theorem field_setReg (m : Hart) (f : Field) (r : Reg) (v : Word) :
    k.field (m.setReg r v) f = k.field m f := rfl

@[simp] theorem field_setCsr (m : Hart) (f : Field) (c : Csr) (v : Word) :
    k.field (m.setCsr c v) f = k.field m f := rfl

@[simp] theorem setField_regs (m : Hart) (f : Field) (v : Word) : (k.setField m f v).regs = m.regs := rfl

@[simp] theorem setField_csrs (m : Hart) (f : Field) (v : Word) : (k.setField m f v).csrs = m.csrs := rfl

@[simp] theorem setField_status (m : Hart) (f : Field) (v : Word) :
    (k.setField m f v).status = m.status := rfl

@[simp] theorem setField_mode (m : Hart) (f : Field) (v : Word) : (k.setField m f v).mode = m.mode := rfl

theorem word_listed (f : Field) : k.place (offset f) ∈ k.words :=
  List.mem_map_of_mem (List.mem_map_of_mem (field_listed f))

/-- Stores that spare the trapframe. -/
theorem stores_field {writes : List (Word × Word)} (spared : k.spared writes = true) (mem : Word → Word)
    (f : Field) : stores mem writes (k.place (offset f)) = mem (k.place (offset f)) :=
  stores_spared spared mem (word_listed f)

theorem locate_frame (virtual : m.mode ≠ .machine) (table : k.table (m.csrs .satp) = true) {o : Nat}
    (aligned : o % 8 = 0) (inside : o < PGSIZE) :
    m.locate k.view (trapframeVa + BitVec.ofNat 64 o) = some (k.place o) := by
  have maps := k.maps _ table o inside
  rw [trapframeVa, ← BitVec.ofNat_add]
  have value : (BitVec.ofNat 64 (TRAPFRAME + o)).toNat = TRAPFRAME + o := by
    rw [BitVec.toNat_ofNat]
    apply Nat.mod_eq_of_lt
    simp only [TRAPFRAME, TRAMPOLINE, MAXVA, PGSIZE] at *
    omega
  unfold Hart.locate
  rw [value, if_pos (by simp only [TRAPFRAME, TRAMPOLINE, MAXVA, PGSIZE]; omega)]
  cases mode : m.mode with
  | machine => exact absurd mode virtual
  | user => exact maps
  | supervisor => exact maps

theorem slots_fit : ∀ o ∈ userSlots.map Prod.snd, o % 8 = 0 ∧ o < PGSIZE := by decide

theorem slots_fields : ∀ slot ∈ userSlots, slot.2 = offset (.reg slot.1) := by decide

theorem slots_registers : (userSlots.map Prod.fst).Nodup := by decide

/-- Every register but `a0` has its slot. -/
theorem slot_listed {r : Reg} (other : r ≠ .a0) : (r, offset (.reg r)) ∈ userSlots := by
  cases r <;> first | exact absurd rfl other | decide

theorem located_slots (virtual : m.mode ≠ .machine) (table : k.table (m.csrs .satp) = true) :
    Located k.view m (trapframeVa) k.place (userSlots.map Prod.snd) :=
  fun o member => locate_frame virtual table (slots_fit o member).1 (slots_fit o member).2

theorem slots_addresses : ((placed k.place userSlots).map Prod.snd).Nodup := by
  rw [snd_placed]
  apply List.Nodup.map_on
  · intro a member b other same
    have below := (slots_fit a member).2
    have under := (slots_fit b other).2
    simp only [PGSIZE] at below under
    exact place_inj (by omega) (by omega) same
  · decide

end Frame

section Entry

variable {k : Setup} {m : Hart}

/-- What the kernel finds when `uservec` is done. -/
structure Entered (k : Setup) (m m' : Hart) : Prop where
  saved : ∀ r, k.field m' (.reg r) = m.regs r
  kept : ∀ f, (∀ r, f ≠ .reg r) → k.field m' f = k.field m f
  sp : m'.regs .sp = k.field m .kernelSp
  tp : m'.regs .tp = k.field m .kernelHartid
  pc : m'.pc = k.field m .kernelTrap
  satp : m'.csrs .satp = k.field m .kernelSatp
  csrs : ∀ c, c ≠ .satp → c ≠ .sscratch → m'.csrs c = m.csrs c
  status : m'.status = m.status
  mode : m'.mode = m.mode

/-- The memory when all registers are in the trapframe. -/
def Setup.saved (k : Setup) (m : Hart) : Word → Word :=
  let m₁ := (m.setCsr .sscratch (m.regs .a0)).setReg .a0 (trapframeVa)
  Function.update (save m₁.regs (placed k.place userSlots) m.mem) (k.place 112) (m.regs .a0)

theorem saved_reg (m : Hart) (r : Reg) : k.saved m (k.place (offset (.reg r))) = m.regs r := by
  by_cases own : r = .a0
  · rw [own]
    exact Function.update_self ..
  · have apart : k.place (offset (.reg r)) ≠ k.place 112 := by
      intro same
      have field : Field.reg r = .reg .a0 := place_offset_inj same
      cases field
      exact own rfl
    have listed : (r, k.place (offset (.reg r))) ∈ placed k.place userSlots :=
      List.mem_map_of_mem (slot_listed own)
    unfold Setup.saved
    rw [Function.update_of_ne apart]
    rw [save_at slots_addresses listed]
    exact Function.update_of_ne own ..

theorem saved_kept (m : Hart) {f : Field} (other : ∀ r, f ≠ .reg r) :
    k.saved m (k.place (offset f)) = k.field m f := by
  have apart : k.place (offset f) ≠ k.place 112 := fun same =>
    other .a0 (place_offset_inj (f := f) (g := .reg .a0) same)
  unfold Setup.saved
  rw [Function.update_of_ne apart]
  apply save_apart
  rw [snd_placed]
  intro member
  obtain ⟨o, listed, same⟩ := List.mem_map.mp member
  obtain ⟨slot, entry, rfl⟩ := List.mem_map.mp listed
  rw [slots_fields slot entry] at same
  exact other slot.1 (place_offset_inj same).symm

/-- The code of `uservec` leaves its base register and the page table alone while it uses the trapframe. -/
structure Reaches (k : Setup) (m : Hart) : Prop where
  virtual : m.mode ≠ .machine
  table : k.table (m.csrs .satp) = true
  base : m.regs .a0 = trapframeVa

theorem Reaches.find (reaches : Reaches k m) {o : Nat} (aligned : o % 8 = 0) (small : o < PGSIZE) :
    m.locate k.view (m.regs .a0 + BitVec.ofNat 64 o) = some (k.place o) := by
  rw [reaches.base]
  exact locate_frame reaches.virtual reaches.table aligned small

theorem Reaches.setReg (reaches : Reaches k m) {r : Reg} (v : Word) (other : r ≠ .a0) :
    Reaches k (m.setReg r v) where
  virtual := reaches.virtual
  table := reaches.table
  base := (setReg_other m v (Ne.symm other)).trans reaches.base

theorem Reaches.stores (reaches : Reaches k m) (mem : Word → Word) : Reaches k { m with mem } where
  virtual := reaches.virtual
  table := reaches.table
  base := reaches.base

theorem Reaches.located (reaches : Reaches k m) :
    Located k.view m (m.regs .a0) k.place (userSlots.map Prod.snd) := by
  rw [reaches.base]
  exact located_slots reaches.virtual reaches.table

/-- A load of a trapframe field. -/
theorem Reaches.ld (reaches : Reaches k m) (rd : Reg) {f : Field} {o : Nat} (at_ : o = offset f) :
    exec k.view m (.ld rd o .a0) = some (m.setReg rd (k.field m f)) := by
  have small := offset_small f
  have aligned : o % 8 = 0 := by
    rw [at_]
    exact Nat.mul_mod_right 8 _
  rw [exec_ld (reaches.find aligned (by simp only [PGSIZE]; omega)), at_]
  rfl

/-- The registers of the kernel as `uservec` loads them. -/
def Setup.loaded (k : Setup) (m : Hart) : Hart :=
  (((m.setReg .sp (k.field m .kernelSp)).setReg .tp (k.field m .kernelHartid)).setReg .t0
    (k.field m .kernelTrap)).setReg .t1 (k.field m .kernelSatp)

theorem uservec_loads (reaches : Reaches k m) (rest : List Instr) :
    execs k.view m (.ld .sp 8 .a0 :: .ld .tp 32 .a0 :: .ld .t0 16 .a0 :: .ld .t1 0 .a0 :: rest) =
      execs k.view (k.loaded m) rest := by
  -- each load leaves the base in `a0` for the next
  have sp := reaches.ld .sp (f := .kernelSp) (o := 8) rfl
  have after₁ := reaches.setReg (r := .sp) (k.field m .kernelSp) (by decide)
  have tp := after₁.ld .tp (f := .kernelHartid) (o := 32) rfl
  have after₂ := after₁.setReg (r := .tp) (k.field m .kernelHartid) (by decide)
  have t0 := after₂.ld .t0 (f := .kernelTrap) (o := 16) rfl
  have after₃ := after₂.setReg (r := .t0) (k.field m .kernelTrap) (by decide)
  have t1 := after₃.ld .t1 (f := .kernelSatp) (o := 0) rfl
  exact (execs_step sp _).trans ((execs_step tp _).trans ((execs_step t0 _).trans (execs_step t1 rest)))

/-- The hart when all registers are in the trapframe. -/
def Setup.parked (k : Setup) (m : Hart) : Hart :=
  { ((m.setCsr .sscratch (m.regs .a0)).setReg .a0 trapframeVa).setReg .t0 (m.regs .a0) with
    mem := k.saved m }

theorem uservec_parks (virtual : m.mode ≠ .machine) (table : k.table (m.csrs .satp) = true) :
    Reaches k (k.parked m) ∧ execs k.view m uservec = execs k.view (k.parked m) (uservecExit.drop 2) := by
  -- `a0` waits in `sscratch` while it holds the base of the stores
  obtain ⟨m₁, first⟩ : ∃ m₁, m₁ = (m.setCsr .sscratch (m.regs .a0)).setReg .a0 trapframeVa := ⟨_, rfl⟩
  have reaches : Reaches k m₁ := by
    rw [first]
    exact ⟨virtual, table, setReg_same ..⟩
  have scratch : m₁.csrs .sscratch = m.regs .a0 := by
    rw [first, setReg_csrs, setCsr_same]
  have entry : execs k.view m uservec = execs k.view m₁ (saves .a0 userSlots ++ uservecExit) := by
    rw [first]
    exact (execs_step rfl _).trans (execs_step rfl _)
  obtain ⟨mem₁, stored⟩ : ∃ mem₁, mem₁ = save m₁.regs (placed k.place userSlots) m₁.mem := ⟨_, rfl⟩
  have reaches₁ : Reaches k { m₁ with mem := mem₁ } := reaches.stores mem₁
  -- then it is saved by way of `t0`, which has its place already
  have csrr : exec k.view { m₁ with mem := mem₁ } (.csrr .t0 .sscratch) =
      some ({ m₁ with mem := mem₁ }.setReg .t0 (m.regs .a0)) := by
    rw [← scratch]
    rfl
  have reaches₂ := reaches₁.setReg (r := .t0) (m.regs .a0) (by decide)
  have a0 := exec_sd .t0 (reaches₂.find (o := 112) (by decide) (by decide))
  rw [setReg_same] at a0
  have parked : k.parked m = { { m₁ with mem := mem₁ }.setReg .t0 (m.regs .a0) with
      mem := Function.update mem₁ (k.place 112) (m.regs .a0) } := by
    rw [stored, first]
    rfl
  constructor
  · rw [parked]
    exact reaches₂.stores _
  · rw [entry, execs_saves reaches.located, ← stored, parked]
    exact (execs_step csrr _).trans (execs_step a0 _)

theorem parked_field (m : Hart) (f : Field) (other : ∀ r, f ≠ .reg r) :
    k.field (k.parked m) f = k.field m f :=
  saved_kept m other

/-- The kernel is entered with its own stack, page table and hart number, and finds the registers of
the process in the trapframe. -/
theorem uservec_enters (virtual : m.mode ≠ .machine) (table : k.table (m.csrs .satp) = true) :
    ∃ m', execs k.view m uservec = some m' ∧ Entered k m m' := by
  obtain ⟨reaches, parks⟩ := uservec_parks virtual table
  have leaves : execs k.view (k.loaded (k.parked m)) (uservecExit.drop 6) =
      some { (k.loaded (k.parked m)).setCsr .satp ((k.loaded (k.parked m)).regs .t1) with
        pc := (k.loaded (k.parked m)).regs .t0 } :=
    (execs_step rfl _).trans ((execs_step rfl _).trans ((execs_step rfl _).trans (execs_step rfl _)))
  have loads : execs k.view (k.parked m) (uservecExit.drop 2) =
      execs k.view (k.loaded (k.parked m)) (uservecExit.drop 6) := uservec_loads reaches _
  refine ⟨_, parks.trans (loads.trans leaves), ?_⟩
  have sp := parked_field (k := k) m .kernelSp (by simp)
  have tp := parked_field (k := k) m .kernelHartid (by simp)
  have trap := parked_field (k := k) m .kernelTrap (by simp)
  have satp := parked_field (k := k) m .kernelSatp (by simp)
  constructor
  · exact saved_reg m
  · exact parked_field m
  · rw [← sp]
    rfl
  · rw [← tp]
    rfl
  · rw [← trap]
    rfl
  · rw [← satp]
    rfl
  · intro c other another
    exact (setCsr_other _ _ other).trans (setCsr_other _ _ another)
  · rfl
  · rfl

end Entry

section Return

variable {k : Setup} {m : Hart}

/-- What the process finds when `userret` is done. -/
structure Resumed (k : Setup) (m : Hart) (pagetable : Word) (m' : Hart) : Prop where
  regs : ∀ r, m'.regs r = k.field m (.reg r)
  pc : m'.pc = m.csrs .sepc
  mode : m'.mode = m.status.spp
  mem : m'.mem = m.mem
  satp : m'.csrs .satp = pagetable
  csrs : ∀ c, c ≠ .satp → m'.csrs c = m.csrs c

theorem userret_resumes {pagetable : Word} (virtual : m.mode ≠ .machine) (a0 : m.regs .a0 = pagetable)
    (table : k.table pagetable = true) :
    ∃ m', execs k.view m userret = some m' ∧ Resumed k m pagetable m' := by
  obtain ⟨m₁, first⟩ : ∃ m₁, m₁ = (m.setCsr .satp (m.regs .a0)).setReg .a0 trapframeVa := ⟨_, rfl⟩
  have satp : m₁.csrs .satp = pagetable := by rw [first, setReg_csrs, setCsr_same, a0]
  have reaches : Reaches k m₁ := by
    constructor
    · rw [first]
      exact virtual
    · rw [satp]
      exact table
    · rw [first]
      exact setReg_same ..
  have mem : m₁.mem = m.mem := by rw [first]; rfl
  have entry : execs k.view m userret = execs k.view m₁ (loads .a0 userSlots ++ userretExit) := by
    rw [first]
    exact (execs_step rfl _).trans ((execs_step rfl _).trans ((execs_step rfl _).trans (execs_step rfl _)))
  -- `a0` is the base of the loads and is loaded last
  have absent : ∀ o, (Reg.a0, o) ∉ userSlots := by
    intro o member
    have listed : Reg.a0 ∈ userSlots.map Prod.fst := List.mem_map_of_mem member
    revert listed
    decide
  obtain ⟨regs, loaded⟩ : ∃ regs, regs = restore m₁.mem (placed k.place userSlots) m₁.regs := ⟨_, rfl⟩
  have reaches₁ : Reaches k { m₁ with regs } := by
    constructor
    · exact reaches.virtual
    · exact reaches.table
    · rw [loaded]
      apply (restore_apart ?_).trans reaches.base
      rw [fst_placed]
      decide
  have last := reaches₁.ld .a0 (f := .reg .a0) (o := 112) rfl
  have runs : execs k.view m userret = some
      { { m₁ with regs }.setReg .a0 (k.field m (.reg .a0)) with
        pc := m₁.csrs .sepc
        mode := m₁.status.spp
        status := { m₁.status with sie := m₁.status.spie, spie := true, spp := .user } } := by
    have field : k.field { m₁ with regs } (.reg .a0) = k.field m (.reg .a0) := by
      unfold Setup.field
      rw [← mem]
    rw [entry, execs_loads reaches.located (fun o member => absurd member (absent o)), ← loaded]
    rw [field] at last
    exact (execs_step last _).trans (execs_step rfl [])
  refine ⟨_, runs, ?_⟩
  constructor
  · intro r
    change Function.update regs .a0 (k.field m (.reg .a0)) r = k.field m (.reg r)
    by_cases own : r = .a0
    · rw [own]
      exact Function.update_self ..
    · have listed : (r, k.place (offset (.reg r))) ∈ placed k.place userSlots :=
        List.mem_map_of_mem (slot_listed own)
      have registers : ((placed k.place userSlots).map Prod.fst).Nodup := by
        rw [fst_placed]
        exact slots_registers
      rw [Function.update_of_ne own, loaded, restore_at registers listed, mem]
      rfl
  · rw [first]
    rfl
  · rw [first]
    rfl
  · exact mem
  · exact satp
  · intro c other
    rw [first]
    exact setCsr_other m _ other

/-- The trapframe as the kernel leaves it when the process may run: the fields for the next trap are
those of the hart it runs on. -/
structure Ready (k : Setup) (m : Hart) : Prop where
  mode : m.mode = .user
  table : k.table (m.csrs .satp) = true
  stvec : m.csrs .stvec = k.trampolineUservec
  kernelSatp : k.field m .kernelSatp = k.kernelSatp
  kernelSp : k.field m .kernelSp = k.kernelSp
  kernelTrap : k.field m .kernelTrap = k.usertrap
  kernelHartid : k.field m .kernelHartid = m.csrs .mhartid

/-- `usertrapret` and `userret` make the process ready and give it the registers of the trapframe. -/
theorem returns_ready {pagetable : Word} (virtual : m.mode ≠ .machine) (table : k.table pagetable = true)
    (satp : m.csrs .satp = k.kernelSatp) (tp : m.regs .tp = m.csrs .mhartid) :
    ∃ m', k.returns (k.usertrapret m pagetable) = some m' ∧ Ready k m' ∧
      (∀ r, m'.regs r = k.field m (.reg r)) ∧ m'.pc = k.field m .epc := by
  obtain ⟨x, left⟩ : ∃ x, x = k.usertrapret m pagetable := ⟨_, rfl⟩
  have a0 : x.regs .a0 = pagetable := by
    rw [left]
    rfl
  have above : x.mode ≠ .machine := by
    rw [left]
    exact virtual
  obtain ⟨m', runs, resumed⟩ := userret_resumes above a0 table
  have field : ∀ f, k.field m' f = k.field x f := by
    intro f
    unfold Setup.field
    rw [resumed.mem]
  have fields : ∀ f, k.field x f = if f = .kernelHartid then m.regs .tp else if f = .kernelTrap then k.usertrap
      else if f = .kernelSp then k.kernelSp else if f = .kernelSatp then m.csrs .satp else k.field m f := by
    intro f
    rw [left]
    change k.field (k.setField (k.setField (k.setField (k.setField (m.setCsr .stvec _) _ _) _ _) _ _) _ _) f = _
    simp only [field_setField, field_setCsr, setCsr_regs, setField_regs,
      setCsr_other m k.trampolineUservec (show Csr.satp ≠ .stvec by decide)]
  have sepc : x.csrs .sepc = k.field m .epc := by
    rw [left]
    change k.field (k.setField (k.setField (k.setField (k.setField (m.setCsr .stvec _) _ _) _ _) _ _) _ _) .epc = _
    simp
  have stvec : x.csrs .stvec = k.trampolineUservec := by rw [left]; rfl
  have mhartid : x.csrs .mhartid = m.csrs .mhartid := by rw [left]; rfl
  have jumps : x.pc = k.trampolineUserret := by rw [left]; rfl
  refine ⟨m', ?_, ?_, ?_, ?_⟩
  · rw [← left, Setup.returns, if_pos jumps]
    exact runs
  · constructor
    · rw [resumed.mode, left]
      rfl
    · rw [resumed.satp]
      exact table
    · rw [resumed.csrs _ (by decide)]
      exact stvec
    · rw [field, fields]
      simpa using satp
    · rw [field, fields]
      rfl
    · rw [field, fields]
      rfl
    · rw [field, fields, resumed.csrs _ (by decide), mhartid]
      exact tp
  · intro r
    rw [resumed.regs, fields]
    simp
  · rw [resumed.pc]
    exact sepc

end Return

section Process

variable {k : Setup} {m m' : Hart}

/-- What a process knows of its hart. -/
structure Context where
  regs : Reg → Word
  pc : Word

/-- What happens to a process as it sees it. -/
inductive Event where
  | compute (regs : Reg → Word) (pc : Word)
  | call (result : (Reg → Word) → Word) (exec : Option (Word × Word))

/-- The machine a process believes to run on: a system call takes its arguments from the registers,
puts its result into `a0` and goes on behind the `ecall`; `exec` starts the new program. -/
def user (c : Context) : Event → Option Context
  | .compute regs pc => some ⟨regs, pc⟩
  | .call result none => some ⟨Function.update c.regs .a0 (result c.regs), c.pc + 4⟩
  | .call result (some (entry, sp)) =>
      some ⟨Function.update (Function.update (Function.update c.regs .a1 sp) .sp sp) .a0 (result c.regs), entry⟩

def context (m : Hart) : Context := ⟨m.regs, m.pc⟩

/-- Interrupts are not seen. -/
def seen (_ : Hart) : Label → Option Event
  | .compute regs pc _ => some (.compute regs pc)
  | .trap scause inside => if scause = 8 then some (.call inside.result inside.exec) else none

theorem stores_ready {writes : List (Word × Word)} (spared : k.spared writes = true) (regs : Reg → Word)
    (pc : Word) (ready : Ready k m) : Ready k { m with regs, pc, mem := stores m.mem writes } := by
  have field : ∀ f, k.field { m with regs, pc, mem := stores m.mem writes } f = k.field m f :=
    stores_field spared m.mem
  constructor
  · exact ready.mode
  · exact ready.table
  · exact ready.stvec
  · rw [field]
    exact ready.kernelSatp
  · rw [field]
    exact ready.kernelSp
  · rw [field]
    exact ready.kernelTrap
  · rw [field]
    exact ready.kernelHartid

theorem kernelRuns_field {inside : Inside} (spared : k.spared inside.writes = true) (m : Hart) (f : Field) :
    k.field (kernelRuns m inside) f = k.field m f :=
  stores_field spared m.mem f

theorem syscall_runs (k : Setup) (m : Hart) (inside : Inside) :
    (k.syscall m inside).regs = inside.regs ∧ (k.syscall m inside).csrs = inside.csrs ∧
      (k.syscall m inside).mode = m.mode := by
  unfold Setup.syscall
  cases inside.exec <;> exact ⟨rfl, rfl, rfl⟩

/-- The trapframe after a system call is the context the process believes in. -/
theorem syscall_field {inside : Inside} (spared : k.spared inside.writes = true) {c c' : Context}
    (regs : ∀ r, k.field m (.reg r) = c.regs r) (epc : k.field m .epc = c.pc)
    (runs : user c (.call inside.result inside.exec) = some c') :
    (∀ r, k.field (k.syscall m inside) (.reg r) = c'.regs r) ∧ k.field (k.syscall m inside) .epc = c'.pc := by
  have arguments : (fun r => k.field (k.setField m .epc (k.field m .epc + 4)) (.reg r)) = c.regs := by
    funext r
    simp [regs]
  unfold Setup.syscall
  dsimp only
  rw [arguments]
  cases exec : inside.exec with
  | none =>
      rw [exec] at runs
      cases runs
      constructor
      · intro r
        by_cases own : r = .a0
        · simp [own]
        · simp [own, Setup.execSets, kernelRuns_field spared, regs]
      · simp [Setup.execSets, kernelRuns_field spared, epc]
  | some image =>
      obtain ⟨entry, sp⟩ := image
      rw [exec] at runs
      cases runs
      constructor
      · intro r
        by_cases own : r = .a0
        · simp [own]
        · by_cases stack : r = .sp
          · simp [stack, Setup.execSets]
          · by_cases argument : r = .a1
            · simp [argument, Setup.execSets]
            · simp [own, stack, argument, Setup.execSets, kernelRuns_field spared, regs]
      · simp [Setup.execSets]

theorem allows_parts {inside : Inside} (allowed : k.allows inside = true) :
    k.spared inside.writes = true ∧ k.table inside.pagetable = true ∧
      inside.csrs .satp = k.kernelSatp ∧ inside.regs .tp = inside.csrs .mhartid := by
  simp only [Setup.allows, Bool.and_eq_true, beq_iff_eq] at allowed
  exact ⟨allowed.1.1.1, allowed.1.1.2, allowed.1.2, allowed.2⟩

/-- The first instruction of `usertrap` runs on the kernel's stack, page table and hart, with the
registers of the process in the trapframe. -/
theorem ready_enters (ready : Ready k m) (scause : Word) :
    ∃ m₁, k.enters m scause = some m₁ ∧ Entered k (trapped m scause) m₁ := by
  rw [Setup.enters, if_pos ready.stvec]
  exact uservec_enters (m := trapped m scause) (by simp [trapped]) ready.table

/-- A trap of any kind comes back, to the context the process expects. -/
theorem trap_returns {inside : Inside} (ready : Ready k m) (allowed : k.allows inside = true) (scause : Word)
    {c : Context} (expected : c = context m ∧ scause ≠ 8 ∨
      scause = 8 ∧ user (context m) (.call inside.result inside.exec) = some c) :
    ∃ m', k.step m (.trap scause inside) = some m' ∧ Ready k m' ∧ context m' = c := by
  obtain ⟨spared, table, satp, tp⟩ := allows_parts allowed
  obtain ⟨m₁, enters, entered⟩ := ready_enters ready scause
  have jumps : m₁.pc = k.usertrap := entered.pc.trans ready.kernelTrap
  have fromUser : m₁.status.spp = .user := by
    rw [entered.status]
    exact ready.mode
  have cause : m₁.csrs .scause = scause := by
    rw [entered.csrs _ (by decide) (by decide)]
    rfl
  have sepc : m₁.csrs .sepc = m.pc := by
    rw [entered.csrs _ (by decide) (by decide)]
    rfl
  have supervisor : m₁.mode = .supervisor := entered.mode
  -- `usertrap` keeps the pc before it does anything that may sleep
  obtain ⟨m₂, stores⟩ : ∃ m₂, m₂ = k.setField (m₁.setCsr .stvec k.kernelvec) .epc (m₁.csrs .sepc) := ⟨_, rfl⟩
  have regs₂ : ∀ r, k.field m₂ (.reg r) = (context m).regs r := by
    intro r
    rw [stores]
    simp only [field_setField, field_setCsr, reduceCtorEq, if_false]
    exact entered.saved r
  have epc₂ : k.field m₂ .epc = (context m).pc := by
    rw [stores, field_setField, if_pos rfl]
    exact sepc
  have cause₂ : m₂.csrs .scause = scause := by
    rw [stores]
    exact cause
  have mode₂ : m₂.mode ≠ .machine := by
    rw [stores, setField_mode, setCsr_mode, supervisor]
    decide
  obtain ⟨m₃, kernel⟩ : ∃ m₃, m₃ = if m₂.csrs .scause = 8 then k.syscall m₂ inside else kernelRuns m₂ inside :=
    ⟨_, rfl⟩
  have runs : k.usertrapRuns m₁ inside = some (k.usertrapret m₃ inside.pagetable) := by
    rw [kernel, stores, Setup.usertrapRuns, if_neg (by rw [fromUser]; decide)]
  -- the trapframe is now that of the context to come back to
  have known : m₃.regs = inside.regs ∧ m₃.csrs = inside.csrs ∧ m₃.mode = m₂.mode ∧
      (∀ r, k.field m₃ (.reg r) = c.regs r) ∧ k.field m₃ .epc = c.pc := by
    rw [kernel, cause₂]
    rcases expected with ⟨same, interrupt⟩ | ⟨call, result⟩
    · rw [if_neg interrupt, same]
      refine ⟨rfl, rfl, rfl, ?_, ?_⟩
      · intro r
        rw [kernelRuns_field spared]
        exact regs₂ r
      · rw [kernelRuns_field spared]
        exact epc₂
    · rw [if_pos call]
      obtain ⟨regs, csrs, mode⟩ := syscall_runs k m₂ inside
      exact ⟨regs, csrs, mode, syscall_field spared regs₂ epc₂ result⟩
  obtain ⟨regs₃, csrs₃, mode₃, saved, epc⟩ := known
  obtain ⟨m', back, ready', regs', pc'⟩ := returns_ready (k := k) (m := m₃) (by rw [mode₃]; exact mode₂) table
    (by rw [csrs₃]; exact satp) (by rw [regs₃, csrs₃]; exact tp)
  refine ⟨m', ?_, ready', ?_⟩
  · rw [Setup.step, if_pos ⟨ready.mode, allowed⟩, enters]
    change (if m₁.pc = k.usertrap then (k.usertrapRuns m₁ inside).bind k.returns else none) = some m'
    rw [if_pos jumps, runs]
    exact back
  · have regs : m'.regs = c.regs := funext fun r => (regs' r).trans (saved r)
    rw [context, regs, pc', epc]

/-- A step in user mode. -/
theorem compute_steps {regs : Reg → Word} {pc : Word} {writes : List (Word × Word)}
    (stepped : k.step m (.compute regs pc writes) = some m') :
    k.spared writes = true ∧ m' = { m with regs, pc, mem := stores m.mem writes } := by
  rw [Setup.step] at stepped
  split at stepped
  · rename_i may
    cases stepped
    exact ⟨may.2, rfl⟩
  · cases stepped

theorem user_goes_on (c : Context) (result : (Reg → Word) → Word) (exec : Option (Word × Word)) :
    ∃ c', user c (.call result exec) = some c' := by
  cases exec with
  | none => exact ⟨_, rfl⟩
  | some image => exact ⟨_, rfl⟩

/-- A trap: what the process expects of it, and that it is ready again. -/
theorem trap_steps {scause : Word} {inside : Inside} (ready : Ready k m)
    (stepped : k.step m (.trap scause inside) = some m') :
    Ready k m' ∧ (scause ≠ 8 → context m' = context m) ∧
      (scause = 8 → user (context m) (.call inside.result inside.exec) = some (context m')) := by
  have allowed : k.allows inside = true := by
    by_contra refused
    rw [Setup.step, if_neg fun may => refused may.2] at stepped
    cases stepped
  by_cases call : scause = 8
  · obtain ⟨c, result⟩ := user_goes_on (context m) inside.result inside.exec
    obtain ⟨final, returns, ready', same⟩ := trap_returns ready allowed scause (Or.inr ⟨call, result⟩)
    rw [returns] at stepped
    cases stepped
    exact ⟨ready', fun other => absurd call other, fun _ => same ▸ result⟩
  · obtain ⟨final, returns, ready', same⟩ := trap_returns ready allowed scause (Or.inl ⟨rfl, call⟩)
    rw [returns] at stepped
    cases stepped
    exact ⟨ready', fun _ => same, fun other => absurd other call⟩

/-- A process sees a machine without interrupts, whose system calls only take arguments and give back a
result. -/
theorem process_simulates (k : Setup) : Simulates k.step seen user context (Ready k) where
  keeps m label m' ready stepped := by
    cases label with
    | compute regs pc writes =>
        obtain ⟨spared, same⟩ := compute_steps stepped
        rw [same]
        exact stores_ready spared regs pc ready
    | trap scause inside => exact (trap_steps ready stepped).1
  shown m label m' event ready stepped visible := by
    cases label with
    | compute regs pc writes =>
        obtain ⟨-, same⟩ := compute_steps stepped
        cases visible
        rw [same]
        rfl
    | trap scause inside =>
        by_cases call : scause = 8
        · rw [seen, if_pos call] at visible
          cases visible
          exact (trap_steps ready stepped).2.2 call
        · rw [seen, if_neg call] at visible
          cases visible
  hidden m label m' ready stepped hides := by
    cases label with
    | compute regs pc writes => cases hides
    | trap scause inside =>
        by_cases call : scause = 8
        · rw [seen, if_pos call] at hides
          cases hides
        · exact (trap_steps ready stepped).2.1 call

/-- From the first `usertrapret` on, whatever interrupts the process and wherever the kernel runs it next,
its registers and its program counter move as on a machine of its own: an interrupt changes nothing, and
a system call takes its arguments from the registers and changes `a0` alone. Every trap that comes finds
the kernel's stack, page table and hart in place, and comes back. -/
theorem traps_transparent (k : Setup) {pagetable : Word} (virtual : m.mode ≠ .machine)
    (table : k.table pagetable = true) (satp : m.csrs .satp = k.kernelSatp)
    (tp : m.regs .tp = m.csrs .mhartid) :
    ∃ start, k.returns (k.usertrapret m pagetable) = some start ∧
      context start = ⟨fun r => k.field m (.reg r), k.field m .epc⟩ ∧
      ∀ labels final, run k.step start labels = some final →
        run user (context start) (trace k.step seen start labels) = some (context final) ∧
        ∀ scause, (∃ entry, k.enters final scause = some entry ∧ entry.pc = k.usertrap ∧
            entry.regs .sp = k.kernelSp ∧ entry.regs .tp = final.csrs .mhartid ∧
            entry.csrs .satp = k.kernelSatp ∧ ∀ r, k.field entry (.reg r) = final.regs r) ∧
          ∀ inside, k.allows inside = true → (k.step final (.trap scause inside)).isSome = true := by
  obtain ⟨start, returns, ready, regs, pc⟩ := returns_ready virtual table satp tp
  refine ⟨start, returns, ?_, ?_⟩
  · rw [context, pc]
    exact congrArg (Context.mk · _) (funext regs)
  intro labels final ran
  have ready' : Ready k final := (process_simulates k).run_invariant ready ran
  constructor
  · exact (process_simulates k).run_refines ready ran
  intro scause
  constructor
  · obtain ⟨entry, enters, entered⟩ := ready_enters ready' scause
    refine ⟨entry, enters, ?_, ?_, ?_, ?_, entered.saved⟩
    · exact entered.pc.trans ready'.kernelTrap
    · exact entered.sp.trans ready'.kernelSp
    · exact entered.tp.trans ready'.kernelHartid
    · exact entered.satp.trans ready'.kernelSatp
  · intro inside allowed
    by_cases call : scause = 8
    · obtain ⟨c, result⟩ := user_goes_on (context final) inside.result inside.exec
      obtain ⟨after, steps, -⟩ := trap_returns ready' allowed scause (Or.inr ⟨call, result⟩)
      rw [steps]
      rfl
    · obtain ⟨after, steps, -⟩ := trap_returns ready' allowed scause (Or.inl ⟨rfl, call⟩)
      rw [steps]
      rfl

end Process

section Spaces

open Vm

/-- The translation through the pages of an address space. -/
def translate (space : Nat → Option Pte) (va : Word) : Option Word :=
  (space (va.toNat / PGSIZE)).map fun pte => BitVec.ofNat 64 (pte.ppn * PGSIZE + va.toNat % PGSIZE)

variable {space : Nat → Option Pte} {trampoline trapframe count : Nat}

theorem translate_frame (shape : Shape space trampoline trapframe count) {o : Nat} (inside : o < PGSIZE) :
    translate space (BitVec.ofNat 64 (TRAPFRAME + o)) =
      some (BitVec.ofNat 64 (trapframe * PGSIZE) + BitVec.ofNat 64 o) := by
  have value : (BitVec.ofNat 64 (TRAPFRAME + o)).toNat = TRAPFRAME + o := by
    rw [BitVec.toNat_ofNat]
    apply Nat.mod_eq_of_lt
    simp only [TRAPFRAME, TRAMPOLINE, MAXVA, PGSIZE] at *
    omega
  have page : (TRAPFRAME + o) / PGSIZE = TRAPFRAME / PGSIZE := by
    simp only [TRAPFRAME, TRAMPOLINE, MAXVA, PGSIZE] at *
    omega
  have within : (TRAPFRAME + o) % PGSIZE = o := by
    simp only [TRAPFRAME, TRAMPOLINE, MAXVA, PGSIZE] at *
    omega
  rw [translate, value, page, shape.frame, within, ← BitVec.ofNat_add]
  rfl

/-- A process whose address space has its shape can trap. -/
def Setup.ofShape (shape : Shape space trampoline trapframe count) (user kernelSatp kernelSp usertrap kernelvec
    trampolineUservec trampolineUserret : Word) : Setup where
  frame := BitVec.ofNat 64 (trapframe * PGSIZE)
  view satp va := if satp = user then translate space va else some va
  table satp := satp == user
  kernelSatp := kernelSatp
  kernelSp := kernelSp
  usertrap := usertrap
  kernelvec := kernelvec
  trampolineUservec := trampolineUservec
  trampolineUserret := trampolineUserret
  maps satp table o inside := by
    rw [if_pos (beq_iff_eq.mp table)]
    exact translate_frame shape inside

/-- A hart in the kernel, about to return to the first process. -/
def idleHart : Hart where
  regs _ := 0
  csrs _ := 0
  status := { spp := .supervisor, spie := false, sie := false, mpp := .user, mpie := false, mie := true }
  mode := .supervisor
  pc := 0
  mem _ := 0

theorem shaped_transparent : ∃ (space : Nat → Option Pte) (trampoline trapframe : Nat)
    (shape : Shape space trampoline trapframe 1),
    let k := Setup.ofShape shape 7 0 0x3fffffe000 0x80002000 0x80005000 0x3ffffff000 0x3ffffff0a0
    ∃ start, k.returns (k.usertrapret idleHart 7) = some start ∧
      context start = ⟨fun r => k.field idleHart (.reg r), k.field idleHart .epc⟩ ∧
      ∀ labels final, run k.step start labels = some final →
        run user (context start) (trace k.step seen start labels) = some (context final) ∧
        ∀ scause, (∃ entry, k.enters final scause = some entry ∧ entry.pc = k.usertrap ∧
            entry.regs .sp = k.kernelSp ∧ entry.regs .tp = final.csrs .mhartid ∧
            entry.csrs .satp = k.kernelSatp ∧ ∀ r, k.field entry (.reg r) = final.regs r) ∧
          ∀ inside, k.allows inside = true → (k.step final (.trap scause inside)).isSome = true := by
  obtain ⟨ram, g, old, new, -, -, -, -, shape, -⟩ := two_spaces
  exact ⟨g.space old, g.trampoline, 0x80008, shape,
    traps_transparent (m := idleHart) _ (by decide) rfl rfl rfl⟩

end Spaces

end PaddleOs.Trampoline
