import PaddleOs.Foundation.Riscv
import PaddleOs.Foundation.Runs
import PaddleOs.Params

/-!
`swtch.S`: any number of kernel threads, among them the scheduler of each hart, change places on the
harts. A thread that is not running lies in its `struct context`; between two switches the harts compute
and store what they like, only not into the contexts. `allocproc` makes a context for a new thread.
`saved` remembers the registers with which each thread called `swtch`, or those `allocproc` gave it.
-/

namespace PaddleOs.ContextSwitch

open Foundation.Riscv Foundation.SaveArea Foundation.Runs

variable {H N : Nat}

/-- The members of `struct context`. -/
def slots : List (Reg × Nat) :=
  [(.ra, 0), (.sp, 8), (.s0, 16), (.s1, 24), (.s2, 32), (.s3, 40), (.s4, 48), (.s5, 56), (.s6, 64),
    (.s7, 72), (.s8, 80), (.s9, 88), (.s10, 96), (.s11, 104)]

def swtch : List Instr := saves .a0 slots ++ (loads .a1 slots ++ [.jr .ra])

/-- Where the contexts are: under the kernel's page table each member is a doubleword of its own. -/
structure Layout (N : Nat) where
  view : Translation
  satp : Word
  base : Fin N → Word
  place : Fin N → Nat → Word
  aligned : ∀ i, ∀ o ∈ slots.map Prod.snd, (base i + BitVec.ofNat 64 o).toNat % 8 = 0
  maps : ∀ i, ∀ o ∈ slots.map Prod.snd, view satp (base i + BitVec.ofNat 64 o) = some (place i o)
  apart : ∀ i j, ∀ o ∈ slots.map Prod.snd, ∀ p ∈ slots.map Prod.snd, place i o = place j p → i = j ∧ o = p

structure State (H N : Nat) where
  regs : Fin H → Reg → Word
  pc : Fin H → Word
  mem : Word → Word
  current : Fin H → Fin N
  saved : Fin N → Option (Reg → Word)

inductive Label (H N : Nat) where
  | compute (h : Fin H) (regs : Reg → Word) (pc : Word) (writes : List (Word × Word))
  | allocproc (i : Fin N) (forkret kstackTop : Word)
  | swtch (h : Fin H) (new : Fin N)

section Machine

variable (l : Layout N)

def Layout.words : List Word := (List.finRange N).flatMap fun i => (slots.map Prod.snd).map (l.place i)

/-- The hart in the kernel, with the arguments of `swtch(old, new)`. -/
def Layout.calls (s : State H N) (h : Fin H) (new : Fin N) : Hart where
  regs := Function.update (Function.update (s.regs h) .a0 (l.base (s.current h))) .a1 (l.base new)
  csrs := fun _ => l.satp
  status := { spp := .supervisor, spie := false, sie := false, mpp := .user, mpie := false, mie := true }
  mode := .supervisor
  pc := s.pc h
  mem := s.mem

/-- The registers of a context that `allocproc` has cleared. -/
def freshRegs (forkret kstackTop : Word) : Reg → Word
  | .ra => forkret
  | .sp => kstackTop
  | _ => 0

/-- A thread is switched to only while no hart runs it. -/
def Layout.step (s : State H N) : Label H N → Option (State H N)
  | .compute h regs pc writes =>
      if spares l.words writes then
        some { s with
          regs := Function.update s.regs h regs
          pc := Function.update s.pc h pc
          mem := stores s.mem writes }
      else none
  | .allocproc i forkret kstackTop =>
      if ∀ h, s.current h ≠ i then
        some { s with
          mem := save (freshRegs forkret kstackTop) (placed (l.place i) slots) s.mem
          saved := Function.update s.saved i (some (freshRegs forkret kstackTop)) }
      else none
  | .swtch h new =>
      if (∀ g, s.current g ≠ new) ∧ (s.saved new).isSome then
        (execs l.view (l.calls s h new) ContextSwitch.swtch).map fun m =>
          { s with
            regs := Function.update s.regs h m.regs
            pc := Function.update s.pc h m.pc
            mem := m.mem
            current := Function.update s.current h new
            saved := Function.update (Function.update s.saved (s.current h) (some (s.regs h))) new none }
      else none

end Machine

section Switch

variable {l : Layout N} {s s' : State H N} {h : Fin H} {i new : Fin N}

theorem slot_offset {slot : Reg × Nat} (listed : slot ∈ slots) : slot.2 ∈ slots.map Prod.snd :=
  List.mem_map_of_mem listed

theorem word_listed (l : Layout N) (i : Fin N) {o : Nat} (listed : o ∈ slots.map Prod.snd) :
    l.place i o ∈ l.words := by
  apply List.mem_flatMap.mpr
  exact ⟨i, List.mem_finRange i, List.mem_map_of_mem listed⟩

theorem registers : ((placed (l.place i) slots).map Prod.fst).Nodup := by
  rw [fst_placed]
  decide

theorem addresses : ((placed (l.place i) slots).map Prod.snd).Nodup := by
  rw [snd_placed]
  apply List.Nodup.map_on
  · intro o listed p other same
    exact (l.apart i i o listed p other same).2
  · decide

theorem slot_placed (l : Layout N) (i : Fin N) {slot : Reg × Nat} (listed : slot ∈ slots) :
    (slot.1, l.place i slot.2) ∈ placed (l.place i) slots :=
  List.mem_map_of_mem (f := fun slot : Reg × Nat => (slot.1, l.place i slot.2)) listed

/-- What the context of a thread holds. -/
def Holds (l : Layout N) (mem : Word → Word) (i : Fin N) (regs : Reg → Word) : Prop :=
  ∀ slot ∈ slots, mem (l.place i slot.2) = regs slot.1

theorem save_holds (l : Layout N) (i : Fin N) (regs : Reg → Word) (mem : Word → Word) :
    Holds l (save regs (placed (l.place i) slots) mem) i regs :=
  fun _ listed => save_at addresses (slot_placed l i listed)

/-- Saving one context leaves the others alone. -/
theorem save_other {j : Fin N} {regs regs' : Reg → Word} {mem : Word → Word} (apart : j ≠ i)
    (holds : Holds l mem j regs) : Holds l (save regs' (placed (l.place i) slots) mem) j regs := by
  intro slot listed
  rw [save_apart ?_]
  · exact holds slot listed
  · rw [snd_placed]
    intro member
    obtain ⟨o, other, same⟩ := List.mem_map.mp member
    exact apart (l.apart i j o other slot.2 (slot_offset listed) same).1.symm

theorem located (m : Hart) (mode : m.mode = .supervisor) (satp : m.csrs .satp = l.satp) (i : Fin N) :
    Located l.view m (l.base i) (l.place i) (slots.map Prod.snd) := by
  intro o listed
  unfold Hart.locate
  rw [if_pos (l.aligned i o listed), mode, satp]
  exact l.maps i o listed

/-- `swtch` saves the registers of the caller and loads those of the thread it returns to. -/
theorem swtch_runs (s : State H N) (h : Fin H) (new : Fin N) (apart : s.current h ≠ new)
    {regs : Reg → Word} (holds : Holds l s.mem new regs) :
    ∃ m, execs l.view (l.calls s h new) ContextSwitch.swtch = some m ∧
      (∀ r ∈ slots.map Prod.fst, m.regs r = regs r) ∧ m.pc = regs .ra ∧
      m.mem = save (s.regs h) (placed (l.place (s.current h)) slots) s.mem := by
  obtain ⟨m, start⟩ : ∃ m, m = l.calls s h new := ⟨_, rfl⟩
  have a0 : m.regs .a0 = l.base (s.current h) := by
    rw [start]
    rfl
  have a1 : m.regs .a1 = l.base new := by
    rw [start]
    rfl
  have mode : m.mode = .supervisor := by
    rw [start]
    rfl
  have satp : m.csrs .satp = l.satp := by
    rw [start]
    rfl
  obtain ⟨mem, stored⟩ : ∃ mem, mem = save m.regs (placed (l.place (s.current h)) slots) m.mem := ⟨_, rfl⟩
  have saves : mem = save (s.regs h) (placed (l.place (s.current h)) slots) s.mem := by
    rw [stored, start]
    apply save_congr
    rw [fst_placed]
    intro r listed
    -- the arguments are in registers without a slot
    have noA0 : r ≠ .a0 := fun same => absurd (same ▸ listed) (by decide)
    have noA1 : r ≠ .a1 := fun same => absurd (same ▸ listed) (by decide)
    exact (Function.update_of_ne noA1 ..).trans (Function.update_of_ne noA0 ..)
  have first : Located l.view m (m.regs .a0) (l.place (s.current h)) (slots.map Prod.snd) := by
    rw [a0]
    exact located m mode satp (s.current h)
  have second : Located l.view { m with mem } (m.regs .a1) (l.place new) (slots.map Prod.snd) := by
    rw [a1]
    exact located { m with mem } mode satp new
  -- the base of the loads is not among the registers loaded
  have absent : ∀ o, (Reg.a1, o) ∉ slots := by
    intro o member
    have listed : Reg.a1 ∈ slots.map Prod.fst := List.mem_map_of_mem member
    revert listed
    decide
  obtain ⟨after, loaded⟩ : ∃ after, after = restore mem (placed (l.place new) slots) m.regs := ⟨_, rfl⟩
  have kept : Holds l mem new regs := by
    rw [saves]
    exact save_other (Ne.symm apart) holds
  have restored : ∀ slot ∈ slots, after slot.1 = regs slot.1 := by
    intro slot listed
    rw [loaded, restore_at registers (slot_placed l new listed)]
    exact kept slot listed
  have runs : execs l.view m ContextSwitch.swtch = some { m with mem, regs := after, pc := after .ra } := by
    rw [ContextSwitch.swtch, execs_saves first, ← stored,
      execs_loads second (fun o member => absurd member (absent o)), ← loaded]
    rfl
  refine ⟨_, start ▸ runs, ?_, ?_, saves⟩
  · intro r listed
    obtain ⟨slot, member, rfl⟩ := List.mem_map.mp listed
    exact restored slot member
  · exact restored (.ra, 0) (by decide)

end Switch

section Threads

variable {l : Layout N} {s s' : State H N} {h : Fin H} {i new : Fin N}

structure Inv (l : Layout N) (s : State H N) : Prop where
  /-- No thread runs on two harts. -/
  single : ∀ g h, s.current g = s.current h → g = h
  holds : ∀ i regs, s.saved i = some regs → Holds l s.mem i regs
  away : ∀ i, (s.saved i).isSome = true → ∀ h, s.current h ≠ i

theorem swtch_inv (inv : Inv l s) (stepped : l.step s (.swtch h new) = some s') :
    Inv l s' ∧ ∃ regs, s.saved new = some regs ∧ (∀ r ∈ slots.map Prod.fst, s'.regs h r = regs r) ∧
      s'.pc h = regs .ra ∧ s'.current h = new ∧ s'.saved (s.current h) = some (s.regs h) := by
  rw [Layout.step] at stepped
  split at stepped
  · rename_i may
    obtain ⟨free, waits⟩ := may
    obtain ⟨regs, saved⟩ := Option.isSome_iff_exists.mp waits
    obtain ⟨m, runs, loaded, pc, mem⟩ := swtch_runs (l := l) s h new (free h) (inv.holds new regs saved)
    rw [runs] at stepped
    cases stepped
    have old : s.current h ≠ new := free h
    constructor
    · constructor
      · intro a b same
        by_cases left : a = h
        · by_cases right : b = h
          · rw [left, right]
          · subst left
            simp only [Function.update_self, Function.update_of_ne right] at same
            exact absurd same.symm (free b)
        · by_cases right : b = h
          · subst right
            simp only [Function.update_self, Function.update_of_ne left] at same
            exact absurd same (free a)
          · simp only [Function.update_of_ne left, Function.update_of_ne right] at same
            exact inv.single a b same
      · intro j kept given
        change Holds l m.mem j kept
        rw [mem]
        by_cases to_ : j = new
        · subst to_
          simp at given
        -- the thread switched from has just been saved, the others were saved before
        · by_cases from_ : j = s.current h
          · subst from_
            simp only [Function.update_of_ne to_, Function.update_self, Option.some.injEq] at given
            rw [← given]
            exact save_holds l (s.current h) (s.regs h) s.mem
          · simp only [Function.update_of_ne to_, Function.update_of_ne from_] at given
            exact save_other from_ (inv.holds j kept given)
      · intro j given g same
        by_cases to_ : j = new
        · subst to_
          simp at given
        · by_cases here : g = h
          · subst here
            simp only [Function.update_self] at same
            exact to_ same.symm
          · simp only [Function.update_of_ne here] at same
            by_cases from_ : j = s.current h
            · exact here (inv.single g h (same.trans from_))
            · simp only [Function.update_of_ne to_, Function.update_of_ne from_] at given
              exact inv.away j given g same
    · refine ⟨regs, saved, ?_, ?_, ?_, ?_⟩
      · intro r listed
        simp only [Function.update_self]
        exact loaded r listed
      · simp only [Function.update_self]
        exact pc
      · simp only [Function.update_self]
      · simp only [Function.update_of_ne old, Function.update_self]
  · cases stepped

theorem compute_inv {regs : Reg → Word} {pc : Word} {writes : List (Word × Word)} (inv : Inv l s)
    (stepped : l.step s (.compute h regs pc writes) = some s') : Inv l s' ∧ s'.saved = s.saved := by
  rw [Layout.step] at stepped
  split at stepped
  · rename_i spared
    cases stepped
    refine ⟨⟨inv.single, ?_, inv.away⟩, rfl⟩
    intro i kept given slot listed
    change stores s.mem writes (l.place i slot.2) = kept slot.1
    rw [stores_spared spared s.mem (word_listed l i (slot_offset listed))]
    exact inv.holds i kept given slot listed
  · cases stepped

theorem allocproc_inv {forkret kstackTop : Word} (inv : Inv l s)
    (stepped : l.step s (.allocproc i forkret kstackTop) = some s') : Inv l s' := by
  rw [Layout.step] at stepped
  split at stepped
  · rename_i free
    cases stepped
    constructor
    · exact inv.single
    · intro j kept given
      by_cases here : j = i
      · subst here
        simp only [Function.update_self, Option.some.injEq] at given
        rw [← given]
        exact save_holds l j _ s.mem
      · simp only [Function.update_of_ne here] at given
        exact save_other here (inv.holds j kept given)
    · intro j given
      by_cases here : j = i
      · exact here ▸ free
      · simp only [Function.update_of_ne here] at given
        exact inv.away j given
  · cases stepped

theorem step_inv {label : Label H N} (inv : Inv l s) (stepped : l.step s label = some s') : Inv l s' := by
  cases label with
  | compute h regs pc writes => exact (compute_inv inv stepped).1
  | allocproc i forkret kstackTop => exact allocproc_inv inv stepped
  | swtch h new => exact (swtch_inv inv stepped).1

/-- Each hart runs the thread of its scheduler, and there is no other thread yet. -/
def boot (schedulers : Fin H → Fin N) (mem : Word → Word) : State H N where
  regs _ _ := 0
  pc _ := 0
  mem := mem
  current := schedulers
  saved _ := none

/-- However the threads move over the harts, a thread that is switched to goes on where it called
`swtch`, or in `forkret`, with its stack and its callee-saved registers as they were then; the other
harts do not notice. -/
theorem swtch_resumes (l : Layout N) {schedulers : Fin H → Fin N} (single : Function.Injective schedulers)
    (mem : Word → Word) {labels : List (Label H N)} {s : State H N}
    (ran : run l.step (boot schedulers mem) labels = some s) (h : Fin H) (new : Fin N)
    (free : ∀ g, s.current g ≠ new) {regs : Reg → Word} (saved : s.saved new = some regs) :
    ∃ s', l.step s (.swtch h new) = some s' ∧ (∀ r ∈ slots.map Prod.fst, s'.regs h r = regs r) ∧
      s'.pc h = regs .ra ∧ s'.saved (s.current h) = some (s.regs h) ∧
      (∀ i, i ≠ new → i ≠ s.current h → s'.saved i = s.saved i) ∧
      ∀ g, g ≠ h → s'.regs g = s.regs g ∧ s'.pc g = s.pc g ∧ s'.current g = s.current g := by
  have inv : Inv l s := by
    apply run_invariant l.step (fun _ s => Inv l s) ?_ ?_ ran
    · constructor
      · exact fun g h same => single same
      · intro i kept given
        cases given
      · intro i given
        cases given
    · exact fun _ _ _ _ _ inv stepped => step_inv inv stepped
  obtain ⟨m, runs, loaded, pc, -⟩ := swtch_runs (l := l) s h new (free h) (inv.holds new regs saved)
  obtain ⟨s', stepped⟩ : ∃ s', l.step s (.swtch h new) = some s' := by
    rw [Layout.step, if_pos ⟨free, by rw [saved]; rfl⟩, runs]
    exact ⟨_, rfl⟩
  obtain ⟨-, regs', saved', loaded', pc', -, old⟩ := swtch_inv inv stepped
  rw [saved] at saved'
  cases saved'
  refine ⟨s', stepped, loaded', pc', old, ?_, ?_⟩
  · intro i other another
    rw [Layout.step, if_pos ⟨free, by rw [saved]; rfl⟩, runs] at stepped
    cases stepped
    simp only [Function.update_of_ne other, Function.update_of_ne another]
  · intro g apart
    rw [Layout.step, if_pos ⟨free, by rw [saved]; rfl⟩, runs] at stepped
    cases stepped
    simp only [Function.update_of_ne apart, and_self]

/-- The context of a scheduler and the one of a process, one behind the other. -/
def twoContexts : Layout 2 where
  view _ va := some va
  satp := 0
  base i := BitVec.ofNat 64 (0x80010000 + 112 * i)
  place i o := BitVec.ofNat 64 (0x80010000 + 112 * i) + BitVec.ofNat 64 o
  aligned := by decide +kernel
  maps _ _ _ := rfl
  apart := by decide +kernel

/-- The scheduler switches to the process that `allocproc` has just made. -/
theorem forkret_resumes : ∃ s : State 1 2, run twoContexts.step (boot (fun _ => 0) fun _ => 0)
      [.allocproc 1 0x80001234 0x3fffffb000] = some s ∧
    ∃ s', twoContexts.step s (.swtch 0 1) = some s' ∧
      (∀ r ∈ slots.map Prod.fst, s'.regs 0 r = freshRegs 0x80001234 0x3fffffb000 r) ∧
      s'.pc 0 = freshRegs 0x80001234 0x3fffffb000 .ra ∧ s'.saved (s.current 0) = some (s.regs 0) ∧
      (∀ i, i ≠ 1 → i ≠ s.current 0 → s'.saved i = s.saved i) ∧
      ∀ g, g ≠ 0 → s'.regs g = s.regs g ∧ s'.pc g = s.pc g ∧ s'.current g = s.current g := by
  have single : Function.Injective (fun _ : Fin 1 => (0 : Fin 2)) := fun _ _ _ => Subsingleton.elim _ _
  obtain ⟨s, ran, free, saved⟩ : ∃ s : State 1 2, run twoContexts.step (boot (fun _ => 0) fun _ => 0)
      [.allocproc 1 0x80001234 0x3fffffb000] = some s ∧ (∀ g, s.current g ≠ 1) ∧
      s.saved 1 = some (freshRegs 0x80001234 0x3fffffb000) := ⟨_, rfl, by decide, rfl⟩
  exact ⟨s, ran, swtch_resumes twoContexts single (fun _ => 0) ran 0 1 free saved⟩

end Threads

end PaddleOs.ContextSwitch
