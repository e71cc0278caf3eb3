import PaddleOs.Foundation.SaveArea
import Mathlib.Data.BitVec

/-!
The instructions of a 64-bit RISC-V hart that straight-line assembly code for saving and restoring
state is made of. Memory is kept as doublewords at their physical addresses; a load or store has to be
aligned and goes through the translation that `satp` selects, except in machine mode. Memory is not
shared here. Nothing here names a particular program.
-/

namespace Foundation.Riscv

open SaveArea

abbrev Word : Type := BitVec 64

inductive Reg where
  | ra | sp | gp | tp | t0 | t1 | t2 | s0 | s1 | a0 | a1 | a2 | a3 | a4 | a5 | a6 | a7
  | s2 | s3 | s4 | s5 | s6 | s7 | s8 | s9 | s10 | s11 | t3 | t4 | t5 | t6
  deriving DecidableEq, Repr

inductive Csr where
  | satp | sscratch | stvec | sepc | scause | sip | mscratch | mepc | mhartid
  deriving DecidableEq, Repr

inductive Mode where
  | user | supervisor | machine
  deriving DecidableEq, Repr

/-- The fields of `mstatus` that traps and returns from them use. -/
structure Status where
  spp : Mode
  spie : Bool
  sie : Bool
  mpp : Mode
  mpie : Bool
  mie : Bool
  deriving DecidableEq, Repr

structure Hart where
  regs : Reg → Word
  csrs : Csr → Word
  status : Status
  mode : Mode
  pc : Word
  mem : Word → Word

inductive Instr where
  | sd (rs : Reg) (offset : Nat) (base : Reg)
  | ld (rd : Reg) (offset : Nat) (base : Reg)
  | add (rd rs1 rs2 : Reg)
  | addi (rd rs : Reg) (imm : Word)
  | li (rd : Reg) (imm : Word)
  | csrr (rd : Reg) (csr : Csr)
  | csrw (csr : Csr) (rs : Reg)
  | csrrw (rd : Reg) (csr : Csr) (rs : Reg)
  | sfence
  | jr (rs : Reg)
  | sret
  | mret
  deriving DecidableEq, Repr

/-- `satp` and a virtual address to the physical address. -/
abbrev Translation : Type := Word → Word → Option Word

section Execution

variable (view : Translation)

/-- Where a doubleword is in memory. -/
def Hart.locate (m : Hart) (va : Word) : Option Word :=
  if va.toNat % 8 = 0 then
    match m.mode with
    | .machine => some va
    | _ => view (m.csrs .satp) va
  else none

def Hart.setReg (m : Hart) (r : Reg) (v : Word) : Hart := { m with regs := Function.update m.regs r v }

def Hart.setCsr (m : Hart) (c : Csr) (v : Word) : Hart := { m with csrs := Function.update m.csrs c v }

def exec (m : Hart) : Instr → Option Hart
  | .sd rs offset base =>
      (m.locate view (m.regs base + BitVec.ofNat 64 offset)).map fun pa =>
        { m with mem := Function.update m.mem pa (m.regs rs) }
  | .ld rd offset base =>
      (m.locate view (m.regs base + BitVec.ofNat 64 offset)).map fun pa => m.setReg rd (m.mem pa)
  | .add rd rs1 rs2 => some (m.setReg rd (m.regs rs1 + m.regs rs2))
  | .addi rd rs imm => some (m.setReg rd (m.regs rs + imm))
  | .li rd imm => some (m.setReg rd imm)
  | .csrr rd csr => some (m.setReg rd (m.csrs csr))
  | .csrw csr rs => some (m.setCsr csr (m.regs rs))
  | .csrrw rd csr rs => some ((m.setCsr csr (m.regs rs)).setReg rd (m.csrs csr))
  | .sfence => some m
  | .jr rs => some { m with pc := m.regs rs }
  | .sret =>
      some { m with
        pc := m.csrs .sepc
        mode := m.status.spp
        status := { m.status with sie := m.status.spie, spie := true, spp := .user } }
  | .mret =>
      some { m with
        pc := m.csrs .mepc
        mode := m.status.mpp
        status := { m.status with mie := m.status.mpie, mpie := true, mpp := .user } }

/-- Runs a stretch of code without jumps inside it. -/
def execs (m : Hart) : List Instr → Option Hart
  | [] => some m
  | instr :: rest => (exec view m instr).bind fun next => execs next rest

def saves (base : Reg) (slots : List (Reg × Nat)) : List Instr :=
  slots.map fun slot => .sd slot.1 slot.2 base

def loads (base : Reg) (slots : List (Reg × Nat)) : List Instr :=
  slots.map fun slot => .ld slot.1 slot.2 base

/-- The slots with the addresses at which they lie in memory. -/
def placed (place : Nat → Word) (slots : List (Reg × Nat)) : List (Reg × Word) :=
  slots.map fun slot => (slot.1, place slot.2)

/-- The offsets of the slots from `base` are found at `place`. -/
def Located (m : Hart) (base : Word) (place : Nat → Word) (offsets : List Nat) : Prop :=
  ∀ offset ∈ offsets, m.locate view (base + BitVec.ofNat 64 offset) = some (place offset)

end Execution

/-- A row of stores by code that is not looked at. -/
def stores (mem : Word → Word) : List (Word × Word) → Word → Word
  | [] => mem
  | (a, v) :: rest => stores (Function.update mem a v) rest

/-- None of the words is stored to. -/
def spares (words : List Word) (writes : List (Word × Word)) : Bool :=
  writes.all fun write => !words.contains write.1

theorem stores_spared {words : List Word} {writes : List (Word × Word)} (spared : spares words writes = true)
    (mem : Word → Word) {a : Word} (listed : a ∈ words) : stores mem writes a = mem a := by
  induction writes generalizing mem with
  | nil => rfl
  | cons write rest ih =>
      simp only [spares, List.all_cons, Bool.and_eq_true] at spared
      change stores (Function.update mem write.1 write.2) rest a = mem a
      rw [ih spared.2]
      apply Function.update_of_ne
      intro same
      rw [← same] at spared
      simp [listed] at spared

variable {view : Translation} {m : Hart} {base : Reg} {place : Nat → Word} {slots : List (Reg × Nat)}

@[simp] theorem setReg_same (m : Hart) (r : Reg) (v : Word) : (m.setReg r v).regs r = v :=
  Function.update_self ..

theorem setReg_other {r r' : Reg} (m : Hart) (v : Word) (apart : r' ≠ r) :
    (m.setReg r v).regs r' = m.regs r' :=
  Function.update_of_ne apart ..

@[simp] theorem setReg_csrs (m : Hart) (r : Reg) (v : Word) : (m.setReg r v).csrs = m.csrs := rfl

@[simp] theorem setReg_status (m : Hart) (r : Reg) (v : Word) : (m.setReg r v).status = m.status := rfl

@[simp] theorem setReg_mode (m : Hart) (r : Reg) (v : Word) : (m.setReg r v).mode = m.mode := rfl

@[simp] theorem setReg_pc (m : Hart) (r : Reg) (v : Word) : (m.setReg r v).pc = m.pc := rfl

@[simp] theorem setReg_mem (m : Hart) (r : Reg) (v : Word) : (m.setReg r v).mem = m.mem := rfl

@[simp] theorem setCsr_same (m : Hart) (c : Csr) (v : Word) : (m.setCsr c v).csrs c = v :=
  Function.update_self ..

theorem setCsr_other {c c' : Csr} (m : Hart) (v : Word) (apart : c' ≠ c) :
    (m.setCsr c v).csrs c' = m.csrs c' :=
  Function.update_of_ne apart ..

@[simp] theorem setCsr_regs (m : Hart) (c : Csr) (v : Word) : (m.setCsr c v).regs = m.regs := rfl

@[simp] theorem setCsr_status (m : Hart) (c : Csr) (v : Word) : (m.setCsr c v).status = m.status := rfl

@[simp] theorem setCsr_mode (m : Hart) (c : Csr) (v : Word) : (m.setCsr c v).mode = m.mode := rfl

@[simp] theorem setCsr_pc (m : Hart) (c : Csr) (v : Word) : (m.setCsr c v).pc = m.pc := rfl

@[simp] theorem setCsr_mem (m : Hart) (c : Csr) (v : Word) : (m.setCsr c v).mem = m.mem := rfl

theorem execs_step {next : Hart} {instr : Instr} (step : exec view m instr = some next) (rest : List Instr) :
    execs view m (instr :: rest) = execs view next rest := by
  change (exec view m instr).bind _ = _
  rw [step]
  rfl

theorem exec_ld {rd : Reg} {offset : Nat} {pa : Word}
    (located : m.locate view (m.regs base + BitVec.ofNat 64 offset) = some pa) :
    exec view m (.ld rd offset base) = some (m.setReg rd (m.mem pa)) := by
  change (m.locate view _).map _ = _
  rw [located]
  rfl

theorem exec_sd (rs : Reg) {offset : Nat} {pa : Word}
    (located : m.locate view (m.regs base + BitVec.ofNat 64 offset) = some pa) :
    exec view m (.sd rs offset base) = some { m with mem := Function.update m.mem pa (m.regs rs) } := by
  change (m.locate view _).map _ = _
  rw [located]
  rfl

/-- A row of stores from one base register. -/
theorem execs_saves (located : Located view m (m.regs base) place (slots.map Prod.snd)) (rest : List Instr) :
    execs view m (saves base slots ++ rest) =
      execs view { m with mem := save m.regs (placed place slots) m.mem } rest := by
  induction slots generalizing m with
  | nil => rfl
  | cons slot slots ih =>
      have here := located slot.2 List.mem_cons_self
      have later : Located view { m with mem := Function.update m.mem (place slot.2) (m.regs slot.1) }
          (m.regs base) place (slots.map Prod.snd) :=
        fun offset member => located offset (List.mem_cons_of_mem _ member)
      change ((m.locate view (m.regs base + BitVec.ofNat 64 slot.2)).map _).bind _ = _
      rw [here]
      exact ih later

/-- A row of loads from one base register, which may be loaded too when that does not change it. -/
theorem execs_loads (located : Located view m (m.regs base) place (slots.map Prod.snd))
    (steady : ∀ offset, (base, offset) ∈ slots → m.mem (place offset) = m.regs base)
    (rest : List Instr) :
    execs view m (loads base slots ++ rest) =
      execs view { m with regs := restore m.mem (placed place slots) m.regs } rest := by
  induction slots generalizing m with
  | nil => rfl
  | cons slot slots ih =>
      have here := located slot.2 List.mem_cons_self
      have same : (m.setReg slot.1 (m.mem (place slot.2))).regs base = m.regs base := by
        by_cases loaded : base = slot.1
        · have kept := steady slot.2 (by rw [loaded]; exact List.mem_cons_self)
          change Function.update m.regs slot.1 _ base = m.regs base
          rw [← loaded, Function.update_self]
          exact kept
        · exact Function.update_of_ne loaded ..
      change ((m.locate view (m.regs base + BitVec.ofNat 64 slot.2)).map _).bind _ = _
      rw [here]
      apply ih
      · rw [same]
        exact fun offset member => located offset (List.mem_cons_of_mem _ member)
      · intro offset member
        rw [same]
        exact steady offset (List.mem_cons_of_mem _ member)

theorem fst_placed (place : Nat → Word) (slots : List (Reg × Nat)) :
    (placed place slots).map Prod.fst = slots.map Prod.fst := by
  simp [placed, Function.comp_def]

theorem snd_placed (place : Nat → Word) (slots : List (Reg × Nat)) :
    (placed place slots).map Prod.snd = (slots.map Prod.snd).map place := by
  simp [placed, Function.comp_def]

end Foundation.Riscv
