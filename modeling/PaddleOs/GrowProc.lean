import PaddleOs.Mappings
import PaddleOs.ProcPages
import PaddleOs.System

/-!
`growproc`, which `sbrk` calls: what it does to the size and the memory of a process, and
the requests for which it reports a success that did not happen.
-/

namespace PaddleOs.Kernel

open Foundation.Outcome

variable {W : Type} {s : State W} {p : Pid}

/-- The byte of the process at `va`, by whatever page is mapped there. -/
def byteAt (s : State W) (p : Pid) (va : Nat) : Option UInt8 :=
  Vm.byteAt s.ram (s.proc p).pagetable va

/-- What is mapped at `va` is the same page with the same byte. -/
structure SameAt (p : Pid) (va : Nat) (s s' : State W) : Prop where
  mapping : Vm.mapping s'.ram (s'.proc p).pagetable va = Vm.mapping s.ram (s.proc p).pagetable va
  byte : byteAt s' p va = byteAt s p va

/-- At `va` there is a new zero byte that the process may write. -/
structure FreshAt (p : Pid) (va : Nat) (s' : State W) : Prop where
  mapping : ∃ pte, Vm.mapping s'.ram (s'.proc p).pagetable va = some pte ∧
    pte.perm.w = true ∧ pte.perm.u = true
  byte : byteAt s' p va = some 0

/-- All or nothing: the size has changed by `n` and the memory with it, or nothing has. -/
structure Grown (p : Pid) (n : Int) (result : Int) (s s' : State W) : Prop where
  results : result = 0 ∨ result = -1
  size : result = 0 → ((s'.proc p).sz : Int) = (s.proc p).sz + n
  kept : result = 0 → ∀ va, va < PGROUNDUP (s.proc p).sz → va < PGROUNDUP (s'.proc p).sz → SameAt p va s s'
  fresh : result = 0 → ∀ va, PGROUNDUP (s.proc p).sz ≤ va → va < PGROUNDUP (s'.proc p).sz →
    FreshAt p va s'
  sizeKept : result = -1 → (s'.proc p).sz = (s.proc p).sz
  mappings : result = -1 → ∀ va, Vm.mapping s'.ram (s'.proc p).pagetable va =
    Vm.mapping s.ram (s.proc p).pagetable va
  contents : result = -1 → ∀ va, va < PGROUNDUP (s.proc p).sz → byteAt s' p va = byteAt s p va

def GrowsExactly (p : Pid) (n : Int32) (s : State W) : Prop :=
  outcome (growproc p n.toInt) (fun result s' => Grown p n.toInt result s s') (fun _ _ => False) s

section Pages

variable {ram after : Vm.Ram} {g g' : Vm.Ledger} {r : Nat}

/-- The memory of a process whose page table has changed to the ledger `g'`. -/
structure Reaches (s s' : State W) (p : Pid) (g g' : Vm.Ledger) : Prop where
  before : Vm.Agrees Vm.Strict s.ram g
  root : g.owner (s.proc p).pagetable = .table (s.proc p).pagetable []
  after : Vm.Agrees Vm.Strict s'.ram g'
  root' : g'.owner (s.proc p).pagetable = .table (s.proc p).pagetable []
  pagetable : (s'.proc p).pagetable = (s.proc p).pagetable

theorem Reaches.mapping {s' : State W} (reaches : Reaches s s' p g g') {va : Nat} (bound : va < MAXVA) :
    Vm.mapping s'.ram (s'.proc p).pagetable va = g'.space (s.proc p).pagetable (va / PGSIZE) := by
  rw [reaches.pagetable, Vm.mapping_space reaches.after reaches.root' bound]

/-- A page that is mapped as before and keeps its bytes. -/
theorem Reaches.same {s' : State W} (reaches : Reaches s s' p g g') {va : Nat}
    (low : va / PGSIZE < 0x8000)
    (space : g'.space (s.proc p).pagetable (va / PGSIZE) = g.space (s.proc p).pagetable (va / PGSIZE))
    (bytes : ∀ pte, g.space (s.proc p).pagetable (va / PGSIZE) = some pte →
      s'.ram.byte pte.ppn = s.ram.byte pte.ppn) : SameAt p va s s' := by
  have bound := Vm.user_address low
  have mapping : Vm.mapping s'.ram (s'.proc p).pagetable va =
      Vm.mapping s.ram (s.proc p).pagetable va := by
    rw [reaches.mapping bound, space, Vm.mapping_space reaches.before reaches.root bound]
  refine ⟨mapping, ?_⟩
  unfold byteAt Vm.byteAt
  rw [mapping, Vm.mapping_space reaches.before reaches.root bound]
  cases maps : g.space (s.proc p).pagetable (va / PGSIZE) with
  | none => rfl
  | some pte => simp only [Option.map_some, bytes pte maps]

/-- A call that failed and left every mapping and every user page as it was. -/
theorem Reaches.unchanged {s' : State W} {n : Int} (reaches : Reaches s s' p g g')
    (few : Vm.pagesOf (s.proc p).sz ≤ 0x8000) (size : (s'.proc p).sz = (s.proc p).sz)
    (space : g'.space (s.proc p).pagetable = g.space (s.proc p).pagetable)
    (saved : Vm.Saved (s.proc p).pagetable g s.ram s'.ram) : Grown p n (-1) s s' where
  results := .inr rfl
  size same := by cases same
  kept same := by cases same
  fresh same := by cases same
  sizeKept _ := size
  mappings _ va := by
    by_cases bound : va < MAXVA
    · rw [reaches.mapping bound, space, Vm.mapping_space reaches.before reaches.root bound]
    · rw [Vm.mapping_high bound, Vm.mapping_high bound]
  contents _ va inside := by
    have low := (Vm.below_roundup few).mp inside
    have page : SameAt p va s s' := reaches.same (by omega) (by rw [space]) fun pte maps =>
      saved.mapped reaches.before (Vm.user_low (by omega)) maps
    exact page.byte

/-- A call that returned 0, with the pages it kept and those it added. -/
theorem Reaches.grown {s' : State W} {n : Int} (reaches : Reaches s s' p g g')
    (few : Vm.pagesOf (s.proc p).sz ≤ 0x8000) (few' : Vm.pagesOf (s'.proc p).sz ≤ 0x8000)
    (size : ((s'.proc p).sz : Int) = (s.proc p).sz + n)
    (space : ∀ k, k < Vm.pagesOf (s.proc p).sz → k < Vm.pagesOf (s'.proc p).sz →
      g'.space (s.proc p).pagetable k = g.space (s.proc p).pagetable k)
    (bytes : ∀ k pte, k < Vm.pagesOf (s.proc p).sz → k < Vm.pagesOf (s'.proc p).sz →
      g.space (s.proc p).pagetable k = some pte → s'.ram.byte pte.ppn = s.ram.byte pte.ppn)
    (fresh : ∀ k, Vm.pagesOf (s.proc p).sz ≤ k → k < Vm.pagesOf (s'.proc p).sz →
      ∃ page, g'.space (s.proc p).pagetable k =
        some { ppn := page, v := true, perm := Vm.userPerm true false } ∧
        s'.ram.byte page = fun _ => 0) : Grown p n 0 s s' where
  results := .inl rfl
  size _ := size
  kept _ va inside inside' := by
    have low := (Vm.below_roundup few).mp inside
    have low' := (Vm.below_roundup few').mp inside'
    exact reaches.same (by omega) (space _ low low') fun pte maps => bytes _ pte low low' maps
  fresh _ va outside inside := by
    have low := (Vm.below_roundup few').mp inside
    have high : ¬ va / PGSIZE < Vm.pagesOf (s.proc p).sz := fun below =>
      absurd ((Vm.below_roundup few).mpr below) (Nat.not_lt.mpr outside)
    obtain ⟨page, maps, zero⟩ := fresh (va / PGSIZE) (Nat.le_of_not_lt high) low
    have bound : va < MAXVA := Vm.user_address (by omega)
    have mapping := reaches.mapping bound
    rw [maps] at mapping
    refine ⟨⟨_, mapping, rfl, rfl⟩, ?_⟩
    unfold byteAt Vm.byteAt
    rw [mapping, Option.map_some, zero]
  sizeKept same := by cases same
  mappings same := by cases same
  contents same := by cases same

end Pages

section Growth

/-- What `growproc` does with a positive request. -/
theorem grows {n : Int} (more : 0 < n) {post : Int → State W → Prop} {fail : Halt → State W → Prop} :
    outcome (growproc p n) post fail s ↔ outcome (do
      let sz ← vm (Vm.uvmalloc (s.proc p).pagetable (s.proc p).sz (((s.proc p).sz + n) % 2 ^ 64).toNat true
        false)
      if sz = 0 then return -1
      modifyProc p fun p => { p with sz }
      return 0) post fail s := by
  have same : growproc p n s = (do
      let sz ← vm (Vm.uvmalloc (s.proc p).pagetable (s.proc p).sz (((s.proc p).sz + n) % 2 ^ 64).toNat true
        false)
      if sz = 0 then return -1
      modifyProc p fun p => { p with sz }
      return 0 : KernelM W Int) s := by
    have asked : n > 0 := more
    simp only [growproc, if_pos asked]
    rfl
  unfold outcome
  rw [same]

theorem grown_more {n : Int} (shaped : WellShaped s p) (more : 0 < n) (int : n < 2 ^ 31) :
    outcome (growproc p n) (fun result s' => Grown p n result s s') (fun _ _ => False) s := by
  obtain ⟨g, h, root, shape⟩ := shaped
  have few := h.few shape.low shape.pages
  have size : (s.proc p).sz ≤ 0x8000000 := by
    unfold Vm.pagesOf PGSIZE at few
    omega
  refine (grows more).mpr ?_
  generalize target : (((s.proc p).sz + n) % 2 ^ 64).toNat = newsz
  have reached : (newsz : Int) = (s.proc p).sz + n := by omega
  unfold vm
  rw [outcome_bind, outcome_zoom]
  refine outcome_mono (Vm.uvmalloc_spec h root shape true false) ?_ fun _ _ failed => failed.elim
  rintro value ram ⟨g', edited, result⟩
  have positive : 0 < max (s.proc p).sz newsz := by omega
  by_cases failed : value = 0
  · rw [if_pos failed]
    rcases result with ⟨-, space, saved⟩ | ⟨reached, -⟩
    · exact Reaches.unchanged ⟨h, root, edited.agrees, edited.root, rfl⟩ few rfl space saved
    · omega
  · rw [if_neg failed]
    rcases result with ⟨zero, -⟩ | ⟨enlarged, fits, extended, taken, blank⟩
    · exact absurd zero failed
    · have final : ∀ s' : State W, s'.ram = ram → s'.proc p = { s.proc p with sz := value } →
          Grown p n 0 s s' := by
        intro s' same now
        have reaches : Reaches s s' p g g' :=
          ⟨h, root, by rw [same]; exact edited.agrees, edited.root, by rw [now]⟩
        have size' : (s'.proc p).sz = value := by rw [now]
        refine reaches.grown few (by rw [size']; exact fits) (by rw [size']; omega) ?_ ?_ ?_
        · intro k below _
          exact extended.same k (by omega)
        · intro k pte below _ maps
          rw [same]
          exact taken.mapped h (Vm.user_low (by omega)) maps
        · intro k above below
          rw [size'] at below
          obtain ⟨page, maps⟩ := extended.fresh k above below
          refine ⟨page, maps, ?_⟩
          rw [same]
          exact blank k _ above below maps
      exact final _ rfl (Function.update_self _ _ _)

/-- What `growproc` does with a negative request. -/
theorem shrinks {n : Int} (less : n < 0) {post : Int → State W → Prop} {fail : Halt → State W → Prop} :
    outcome (growproc p n) post fail s ↔ outcome (do
      let sz ← vm (Vm.uvmdealloc (s.proc p).pagetable (s.proc p).sz (((s.proc p).sz + n) % 2 ^ 64).toNat)
      modifyProc p fun p => { p with sz }
      return 0) post fail s := by
  have never : ¬ n > 0 := by omega
  have same : growproc p n s = (do
      let sz ← vm (Vm.uvmdealloc (s.proc p).pagetable (s.proc p).sz (((s.proc p).sz + n) % 2 ^ 64).toNat)
      modifyProc p fun p => { p with sz }
      return 0 : KernelM W Int) s := by
    simp only [growproc, if_neg never, if_pos less]
    rfl
  unfold outcome
  rw [same]

theorem grown_less {n : Int} (shaped : WellShaped s p) (less : n < 0) (enough : 0 ≤ (s.proc p).sz + n) :
    outcome (growproc p n) (fun result s' => Grown p n result s s') (fun _ _ => False) s := by
  obtain ⟨g, h, root, shape⟩ := shaped
  have few := h.few shape.low shape.pages
  have size : (s.proc p).sz ≤ 0x8000000 := by
    unfold Vm.pagesOf PGSIZE at few
    omega
  refine (shrinks less).mpr ?_
  generalize target : (((s.proc p).sz + n) % 2 ^ 64).toNat = newsz
  have reached : (newsz : Int) = (s.proc p).sz + n := by omega
  have fewer : Vm.pagesOf newsz ≤ Vm.pagesOf (s.proc p).sz := by
    unfold Vm.pagesOf PGSIZE
    omega
  unfold vm
  rw [outcome_bind, outcome_zoom]
  refine outcome_mono ((Vm.uvmdealloc_gives _ _ newsz).and (Vm.uvmdealloc_spec h root shape.low
    fun k _ below => shape.pages k below)) ?_ fun _ _ failed => failed.elim
  rintro value ram ⟨⟨smaller, g', edited, space⟩, given⟩
  have final : ∀ s' : State W, s'.ram = ram → s'.proc p = { s.proc p with sz := value } →
      Grown p n 0 s s' := by
    intro s' same now
    have reaches : Reaches s s' p g g' :=
      ⟨h, root, by rw [same]; exact edited.agrees, edited.root, by rw [now]⟩
    have size' : (s'.proc p).sz = newsz := by
      rw [now]
      exact smaller.trans (Nat.min_eq_right (by omega))
    have kept : ∀ k, k < Vm.pagesOf newsz →
        g'.space (s.proc p).pagetable k = g.space (s.proc p).pagetable k := by
      intro k below
      rw [space, if_neg (by omega)]
    refine reaches.grown few (by rw [size']; omega) (by rw [size']; omega) ?_ ?_ ?_
    · intro k _ below
      rw [size'] at below
      exact kept k below
    · intro k pte _ below maps
      rw [size'] at below
      rw [same]
      exact given.mapped edited.agrees (Vm.user_low (k := k) (by omega)) (by rw [kept k below]; exact maps)
    · intro k above below
      rw [size'] at below
      omega
  exact final _ rfl (Function.update_self _ _ _)

/-- Nothing is asked for. -/
theorem grown_zero (shaped : WellShaped s p) :
    outcome (growproc p 0) (fun result s' => Grown p 0 result s s') (fun _ _ => False) s := by
  obtain ⟨g, h, root, shape⟩ := shaped
  have few := h.few shape.low shape.pages
  have reaches : Reaches s s p g g := ⟨h, root, h, root, rfl⟩
  refine reaches.grown few few (Int.add_zero _).symm (fun _ _ _ => rfl) (fun _ _ _ _ _ => rfl) ?_
  intro k above below
  omega

/-- A request for more than there is to give back: the unsigned sum is larger than the size,
nothing is given back, and the call reports success. -/
theorem growproc_wraps {n : Int} (int : -2 ^ 31 ≤ n) (under : (s.proc p).sz + n < 0) :
    outcome (growproc p n) (fun result s' => result = 0 ∧ (s'.proc p).sz = (s.proc p).sz)
      (fun _ _ => False) s := by
  refine (shrinks (by omega)).mpr ?_
  generalize target : (((s.proc p).sz + n) % 2 ^ 64).toNat = newsz
  have wraps : newsz ≥ (s.proc p).sz := by omega
  unfold vm Vm.uvmdealloc
  rw [if_pos wraps, outcome_bind, outcome_zoom]
  exact ⟨rfl, congrArg Proc.sz (Function.update_self _ _ _)⟩

theorem shrinks_inexactly {n : Int32} (under : ((s.proc p).sz : Int) + n.toInt < 0) :
    ¬ GrowsExactly p n s := by
  intro exact
  have both := outcome_and exact (growproc_wraps n.le_toInt under)
  unfold outcome at both
  cases ran : growproc p n.toInt s with
  | error reason after =>
      rw [ran] at both
      exact both.1
  | ok result after =>
      rw [ran] at both
      obtain ⟨grown, returned, size⟩ := both
      have changed := grown.size returned
      omega

/-- `growproc` is all or nothing, and exact, unless it is asked to give back more than the
process has. -/
theorem growproc_exact_iff (shaped : WellShaped s p) (n : Int32) :
    GrowsExactly p n s ↔ 0 ≤ ((s.proc p).sz : Int) + n.toInt := by
  have most := n.toInt_lt
  constructor
  · intro exact
    by_contra under
    exact shrinks_inexactly (by omega) exact
  · intro enough
    rcases lt_trichotomy n.toInt 0 with less | none | more
    · exact grown_less shaped less enough
    · unfold GrowsExactly
      rw [none]
      exact grown_zero shaped
    · exact grown_more shaped more (by omega)

/-- The address space keeps its shape. -/
theorem growproc_shaped {n : Int} (shaped : WellShaped s p) (more : 0 < n) :
    outcome (growproc p n) (fun _ s' => WellShaped s' p) (fun _ _ => False) s := by
  obtain ⟨g, h, root, shape⟩ := shaped
  refine (grows more).mpr ?_
  generalize target : (((s.proc p).sz + n) % 2 ^ 64).toNat = newsz
  unfold vm
  rw [outcome_bind, outcome_zoom]
  refine outcome_mono (Vm.uvmalloc_spec h root shape true false) ?_ fun _ _ failed => failed.elim
  rintro value ram ⟨g', edited, result⟩
  have trampoline := edited.moves.trampoline
  have same : (Vm.pagesOf (s.proc p).sz ≤ Vm.pagesOf value) →
      Vm.Extends (g.space (s.proc p).pagetable) (g'.space (s.proc p).pagetable) (fun _ =>
        Vm.userPerm true false)
        (Vm.pagesOf (s.proc p).sz) (Vm.pagesOf value) → Vm.pagesOf value ≤ 0x8000 →
      Vm.Shape (g'.space (s.proc p).pagetable) g'.trampoline (s.proc p).trapframe (Vm.pagesOf value) := by
    intro grows extended fits
    rw [trampoline]
    exact shape.extends extended grows (Nat.le_trans fits (by decide))
  by_cases failed : value = 0
  · rw [if_pos failed]
    rcases result with ⟨-, space, -⟩ | ⟨enlarged, fits, extended, -⟩
    · refine ⟨g', edited.agrees, edited.root, ?_⟩
      rw [space, trampoline]
      exact shape
    · have none : (s.proc p).sz = value := by omega
      refine ⟨g', edited.agrees, edited.root, ?_⟩
      have whole := same (Nat.le_of_eq (congrArg Vm.pagesOf none)) extended fits
      rw [← none] at whole
      exact whole
  · rw [if_neg failed]
    rcases result with ⟨zero, -⟩ | ⟨enlarged, fits, extended, -⟩
    · exact absurd zero failed
    · have whole := same (by unfold Vm.pagesOf PGSIZE; omega) extended fits
      have final : ∀ s' : State W, s'.ram = ram → s'.proc p = { s.proc p with sz := value } →
          WellShaped s' p := by
        intro s' same now
        refine ⟨g', same ▸ edited.agrees, ?_, ?_⟩
        · rw [now]
          exact edited.root
        · rw [now]
          exact whole
      exact final _ rfl (Function.update_self _ _ _)

/-- A process of no pages. -/
theorem empty_process : ∃ (s : State Unit) (p : Pid), WellShaped s p ∧ (s.proc p).sz = 0 := by
  obtain ⟨ram, g, -, r, h, -, -, root, -, shape⟩ := Vm.two_spaces
  have shape' : Vm.Shape (g.space r) g.trampoline 0x80009 (Vm.pagesOf 0) := shape
  refine ⟨{ bss () tinySuperblock ram with
    proc := fun _ =>
      { state := .running, pid := 1, killed := false, xstate := 0, parent := none, sz := 0
        pagetable := r, trapframe := 0x80009, ofile := fun _ => none, cwd := none } },
    ⟨0, by decide⟩, ⟨g, h, root, shape'⟩, rfl⟩

theorem growproc_one_byte :
    ∃ (s : State Unit) (p : Pid), (GrowsExactly p 1 s ↔ 0 ≤ ((s.proc p).sz : Int) + (1 : Int32).toInt) := by
  obtain ⟨s, p, shaped, -⟩ := empty_process
  exact ⟨s, p, growproc_exact_iff shaped 1⟩

/-- A process of no pages gives back one byte. -/
theorem growproc_below_zero :
    ∃ (s : State Unit) (p : Pid), WellShaped s p ∧ ¬ GrowsExactly p (-1) s := by
  obtain ⟨s, p, shaped, empty⟩ := empty_process
  refine ⟨s, p, shaped, shrinks_inexactly ?_⟩
  rw [empty]
  decide

end Growth

end PaddleOs.Kernel
