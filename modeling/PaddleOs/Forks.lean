import PaddleOs.Mappings
import PaddleOs.ProcPages
import PaddleOs.System

/-!
`fork` copies the memory of the parent: the child gets the same bytes under the same
permissions in pages of its own, and a `fork` that fails gives back every page it took.
-/

namespace PaddleOs.Vm

open Foundation.Outcome

variable {ram after : Ram} {g g' : Ledger} {old new sz : Nat} {trampoline trapframe : Nat}

/-- The user pages of `new` are copies of those of `old`, in pages that were free. -/
structure SpaceCopied (old new sz : Nat) (ram after : Ram) : Prop where
  flags : ∀ va, va < PGROUNDUP sz → ∃ pte page, mapping ram old va = some pte ∧
    mapping after new va = some { pte with ppn := page } ∧ page ∈ ram.freelist
  bytes : ∀ va, va < PGROUNDUP sz → byteAt after new va = byteAt ram old va
  distinct : ∀ va va' pte pte', va < PGROUNDUP sz → va' < PGROUNDUP sz →
    mapping after new va = some pte → mapping after new va' = some pte' → pte.ppn = pte'.ppn →
    va / PGSIZE = va' / PGSIZE
  mappings : ∀ va, mapping after old va = mapping ram old va
  contents : ∀ va, va < PGROUNDUP sz → byteAt after old va = byteAt ram old va
  unseenBelow : ∀ va va' value, va < PGROUNDUP sz → va' < PGROUNDUP sz →
    byteAt (storeAt after old va value) new va' = byteAt after new va'
  unseenAbove : ∀ va va' value, va < PGROUNDUP sz → va' < PGROUNDUP sz →
    byteAt (storeAt after new va value) old va' = byteAt after old va'

/-- The page is a page-table page of the tree at `r`. -/
def InTree (ram : Ram) (r q : Nat) : Prop :=
  q = r ∨ (∃ i, ram.pte r i = .table q) ∨ ∃ i j t, ram.pte r i = .table t ∧ ram.pte t j = .table q

/-- Nothing is mapped for the user of `new`, and what was taken is free or in its page table. -/
structure SpaceEmpty (old new sz : Nat) (ram after : Ram) : Prop where
  empty : ∀ va, va < TRAPFRAME → mapping after new va = none
  returned : ∀ q, q ∈ ram.freelist → q ∈ after.freelist ∨ InTree after new q
  mappings : ∀ va, mapping after old va = mapping ram old va
  contents : ∀ va, va < PGROUNDUP sz → byteAt after old va = byteAt ram old va

theorem inTree_of_table (h : Agrees Strict ram g) {r q : Nat} {path : List Nat}
    (owns : g.owner q = .table r path) : InTree ram r q := by
  match path with
  | [] => exact .inl (h.root q r owns)
  | [i] =>
      obtain ⟨-, -, t, owns', entry⟩ := h.up q r i [] owns
      obtain rfl := h.root t r owns'
      exact .inr (.inl ⟨i, entry⟩)
  | j :: i :: rest =>
      obtain ⟨short, -, t, owns', entry⟩ := h.up q r j (i :: rest) owns
      obtain ⟨-, -, u, owns'', entry'⟩ := h.up t r i rest owns'
      obtain rfl : rest = [] := by
        cases rest with
        | nil => rfl
        | cons _ _ =>
            simp only [List.length_cons] at short
            omega
      obtain rfl := h.root u r owns''
      exact .inr (.inr ⟨i, j, t, entry', entry⟩)

section Source

/-- The source keeps its mappings and its pages. -/
theorem source_mappings (h : Agrees Strict ram g) (root : g.owner old = .table old [])
    (agrees : Agrees Strict after g') (root' : g'.owner old = .table old [])
    (space : g'.space old = g.space old) (va : Nat) : mapping after old va = mapping ram old va := by
  by_cases bound : va < MAXVA
  · rw [mapping_space agrees root' bound, space, mapping_space h root bound]
  · rw [mapping_high bound, mapping_high bound]

theorem source_contents (h : Agrees Strict ram g) (root : g.owner old = .table old [])
    (agrees : Agrees Strict after g') (root' : g'.owner old = .table old [])
    (space : g'.space old = g.space old) (few : pagesOf sz ≤ 0x8000)
    (kept : ∀ k pte, k < pagesOf sz → g.space old k = some pte → after.byte pte.ppn = ram.byte pte.ppn)
    {va : Nat} (inside : va < PGROUNDUP sz) : byteAt after old va = byteAt ram old va := by
  have low := (below_roundup few).mp inside
  unfold byteAt
  rw [source_mappings h root agrees root' space, mapping_space h root (user_address (by omega))]
  cases maps : g.space old (va / PGSIZE) with
  | none => rfl
  | some pte => simp only [Option.map_some, kept _ pte low maps]

end Source

/-- What the ledger says of a copy, for the hardware. -/
theorem spaceCopied (h : Agrees Strict ram g) (root : g.owner old = .table old []) (apart : old ≠ new)
    (source : Shape (g.space old) trampoline trapframe (pagesOf sz))
    (agrees : Agrees Strict after g') (root' : g'.owner old = .table old [])
    (rootNew : g'.owner new = .table new []) (space : g'.space old = g.space old)
    (fresh : ∀ k pte, k < pagesOf sz → g.space old k = some pte →
      ∃ page, g'.space new k = some { pte with ppn := page } ∧ page ∈ ram.freelist ∧
        after.byte page = ram.byte pte.ppn)
    (kept : ∀ k pte, k < pagesOf sz → g.space old k = some pte → after.byte pte.ppn = ram.byte pte.ppn) :
    SpaceCopied old new sz ram after := by
  have few := h.few source.low source.pages
  have copied : ∀ va, va < PGROUNDUP sz → ∃ pte page, mapping ram old va = some pte ∧
      mapping after old va = some pte ∧ mapping after new va = some { pte with ppn := page } ∧
      page ∈ ram.freelist ∧ after.byte page = ram.byte pte.ppn ∧ after.byte pte.ppn = ram.byte pte.ppn ∧
      g'.owner pte.ppn = .user old (va / PGSIZE) ∧ g'.owner page = .user new (va / PGSIZE) := by
    intro va inside
    have low := (below_roundup few).mp inside
    have bound : va < MAXVA := user_address (by omega)
    have ordinary := ordinary_of_lt (user_low (k := va / PGSIZE) (by omega))
    obtain ⟨pte, maps⟩ := Option.isSome_iff_exists.mp (source.pages _ low)
    obtain ⟨page, now, free, bytes⟩ := fresh _ pte low maps
    have maps' : g'.space old (va / PGSIZE) = some pte := by rw [space, maps]
    have here := mapping_space h root bound
    have there := mapping_space agrees root' bound
    have copy := mapping_space agrees rootNew bound
    rw [maps] at here
    rw [maps'] at there
    rw [now] at copy
    exact ⟨pte, page, here, there, copy, free, bytes, kept _ pte low maps,
      (agrees.target old _ pte maps').2 ordinary, (agrees.target new _ _ now).2 ordinary⟩
  constructor
  · intro va inside
    obtain ⟨pte, page, here, -, copy, free, -⟩ := copied va inside
    exact ⟨pte, page, here, copy, free⟩
  · intro va inside
    obtain ⟨pte, page, here, -, copy, -, bytes, -⟩ := copied va inside
    unfold byteAt
    rw [here, copy, Option.map_some, Option.map_some, bytes]
  · intro va va' pte pte' inside inside' maps maps' same
    obtain ⟨_, page, -, -, copy, -, -, -, -, owned⟩ := copied va inside
    obtain ⟨_, page', -, -, copy', -, -, -, -, owned'⟩ := copied va' inside'
    obtain rfl := Option.some.inj (copy.symm.trans maps)
    obtain rfl := Option.some.inj (copy'.symm.trans maps')
    change page = page' at same
    rw [same, owned'] at owned
    exact (Owner.user.inj owned).2.symm
  · exact source_mappings h root agrees root' space
  · intro va inside
    exact source_contents h root agrees root' space few kept inside
  · intro va va' value inside inside'
    refine storeAt_apart value fun pte pte' maps maps' same => ?_
    obtain ⟨_, -, -, there, -, -, -, -, owned, -⟩ := copied va inside
    obtain ⟨_, page', -, -, copy', -, -, -, -, owned'⟩ := copied va' inside'
    obtain rfl := Option.some.inj (there.symm.trans maps)
    obtain rfl := Option.some.inj (copy'.symm.trans maps')
    change page' = _ at same
    rw [← same, owned'] at owned
    exact apart (Owner.user.inj owned).1.symm
  · intro va va' value inside inside'
    refine storeAt_apart value fun pte pte' maps maps' same => ?_
    obtain ⟨_, page, -, -, copy, -, -, -, -, owned⟩ := copied va inside
    obtain ⟨_, -, -, there', -, -, -, -, owned', -⟩ := copied va' inside'
    obtain rfl := Option.some.inj (copy.symm.trans maps)
    obtain rfl := Option.some.inj (there'.symm.trans maps')
    change _ = page at same
    rw [same, owned] at owned'
    exact apart (Owner.user.inj owned').1.symm

/-- `uvmcopy` copies every page, or leaves the new address space without any. -/
theorem uvmcopy_copies (h : Agrees Strict ram g) (root : g.owner old = .table old [])
    (rootNew : g.owner new = .table new []) (apart : old ≠ new) {trapframe' : Nat}
    (source : Shape (g.space old) trampoline trapframe (pagesOf sz))
    (shape : Shape (g.space new) trampoline trapframe' 0) :
    outcome (uvmcopy old new sz)
      (fun done after =>
        match done with
        | true => SpaceCopied old new sz ram after
        | false => SpaceEmpty old new sz ram after)
      (fun _ _ => False) ram := by
  have few := h.few source.low source.pages
  have foreign : ¬ Pool new (.table old []) := by simpa [Pool] using apart
  refine outcome_post (uvmcopy_spec h root rootNew apart source shape) ?_
  rintro done after ⟨g', edited, result⟩
  have space := edited.moves.space old apart
  have root' := edited.moves.keeps root foreign
  cases done with
  | true =>
      obtain ⟨-, extended, taken, copied⟩ := result
      refine spaceCopied h root apart source edited.agrees root' edited.root space ?_ ?_
      · intro k pte low maps
        obtain ⟨page, now⟩ := extended.fresh k (Nat.zero_le k) low
        obtain ⟨free, bytes⟩ := copied k pte _ low maps now
        refine ⟨page, ?_, free, bytes⟩
        rw [now, perms, maps, (h.inner old k pte maps).1]
        rfl
      · intro k pte low maps
        exact taken.mapped h (user_low (by omega)) maps
  | false =>
      obtain ⟨same, saved⟩ := result
      refine ⟨fun va below => ?_, fun q free => ?_, source_mappings h root edited.agrees root' space, ?_⟩
      · have low : va / PGSIZE < TRAPFRAME / PGSIZE := by
          unfold TRAPFRAME TRAMPOLINE MAXVA PGSIZE at *
          omega
        have bound : va < MAXVA := by
          unfold TRAPFRAME TRAMPOLINE PGSIZE at below
          omega
        rw [mapping_space edited.agrees edited.root bound, same]
        exact shape.vacant (Nat.zero_le _) low
      · have pool : Pool new (g'.owner q) := by
          rcases edited.moves.owner q with kept | ⟨-, pool⟩
          · rw [kept, (h.free q).mp free]
            trivial
          · exact pool
        cases owned : g'.owner q with
        | free => exact .inl ((edited.agrees.free q).mpr owned)
        | outside | kept _ => simp [Pool, owned] at pool
        | table r path =>
            obtain rfl : r = new := by simpa [Pool, owned] using pool
            exact .inr (inTree_of_table edited.agrees owned)
        | user r n =>
            obtain rfl : r = new := by simpa [Pool, owned] using pool
            obtain ⟨ordinary, pte, maps, -⟩ := edited.agrees.mapped q r n owned
            rw [same] at maps
            rcases shape.only n (by rw [maps]; rfl) with low | special
            · exact absurd low (Nat.not_lt_zero n)
            · exact absurd special ordinary
      · intro va inside
        refine source_contents h root edited.agrees root' space few (fun k pte low maps => ?_) inside
        exact saved.mapped h (user_low (k := k) (by omega)) maps

end PaddleOs.Vm

namespace PaddleOs.Kernel

open Foundation.Outcome Foundation.View

variable {W : Type} {g : Vm.Ledger} {s : State W} {p : Pid} {trampoline : Nat}

theorem copyTrapframe_bytes (np tf : Nat) (ram : Vm.Ram) :
    outcome (Vm.copyTrapframe np tf)
      (fun _ after => after = { ram with byte := after.byte } ∧ ∀ q, q ≠ np → after.byte q = ram.byte q)
      (fun _ _ => False) ram := by
  unfold Vm.copyTrapframe
  rw [outcome_bind, outcome_modify]
  refine outcome_post (Vm.putBytes_spec np _ _ _) ?_
  rintro - after ⟨same, changed, -⟩
  refine ⟨same, fun q other => ?_⟩
  funext o
  by_contra different
  refine other (changed q o fun equal => different ?_).1
  rw [equal]
  exact congrFun (Function.update_of_ne other _ _) o

/-- The slots that are not in use have no memory. -/
def Idle (s : State W) : Prop :=
  ∀ q, (s.proc q).state = .unused → (s.proc q).pagetable = 0 ∧ (s.proc q).sz = 0

/-- The child of a `fork` that succeeded. -/
structure ForkedTo (p np : Pid) (result : Int) (s s' : State W) : Prop where
  unused : (s.proc np).state = .unused
  runnable : (s'.proc np).state = .runnable
  pid : result = (s'.proc np).pid.toInt
  sz : (s'.proc np).sz = (s.proc p).sz
  others : ∀ q, q ≠ np → (s'.proc q).body = (s.proc q).body
  memory : Vm.SpaceCopied (s.proc p).pagetable (s'.proc np).pagetable (s.proc p).sz s.ram s'.ram

/-- A `fork` that failed. -/
structure ForkFailed (p : Pid) (result : Int) (s s' : State W) : Prop where
  result : result = -1
  unused : ∀ q, (s.proc q).state = .unused → (s'.proc q).state = .unused
  others : ∀ q, (s.proc q).state ≠ .unused → s'.proc q = s.proc q
  freelist : ∀ q, q ∈ s'.ram.freelist ↔ q ∈ s.ram.freelist
  mappings : ∀ va, Vm.mapping s'.ram (s.proc p).pagetable va = Vm.mapping s.ram (s.proc p).pagetable va
  contents : ∀ va, va < PGROUNDUP (s.proc p).sz →
    Vm.byteAt s'.ram (s.proc p).pagetable va = Vm.byteAt s.ram (s.proc p).pagetable va

theorem ForkFailed.unchanged {s' : State W} (h : Vm.Agrees Vm.Strict s.ram g)
    (root : g.owner (s.proc p).pagetable = .table (s.proc p).pagetable [])
    (shape : Vm.Shape (g.space (s.proc p).pagetable) trampoline (s.proc p).trapframe
      (Vm.pagesOf (s.proc p).sz))
    (undone : Vm.Undone g s.ram s'.ram)
    (unused : ∀ q, (s.proc q).state = .unused → (s'.proc q).state = .unused)
    (others : ∀ q, (s.proc q).state ≠ .unused → s'.proc q = s.proc q) : ForkFailed p (-1) s s' where
  result := rfl
  unused := unused
  others := others
  freelist q := (undone.agrees.free q).trans (h.free q).symm
  mappings := Vm.source_mappings h root undone.agrees root rfl
  contents va inside := by
    have few := h.few shape.low shape.pages
    refine Vm.source_contents h root undone.agrees root rfl few (fun k pte low maps => ?_) inside
    refine undone.byte _ ?_
    rw [(h.target _ k pte maps).2 (Vm.ordinary_of_lt (Vm.user_low (k := k) (by omega)))]
    exact fun same => nomatch same

theorem ForkFailed.slot {s' : State W} {np : Pid} (h : Vm.Agrees Vm.Strict s.ram g)
    (root : g.owner (s.proc p).pagetable = .table (s.proc p).pagetable [])
    (shape : Vm.Shape (g.space (s.proc p).pagetable) trampoline (s.proc p).trapframe
      (Vm.pagesOf (s.proc p).sz))
    (undone : Vm.Undone g s.ram s'.ram) (unused : (s.proc np).state = .unused)
    (slots : s'.proc = Function.update s.proc np (s.proc np).cleared) : ForkFailed p (-1) s s' := by
  refine ForkFailed.unchanged h root shape undone (fun q free => ?_) fun q busy => ?_
  · rw [slots]
    by_cases same : q = np
    · rw [same, Function.update_self]
      rfl
    · rw [Function.update_of_ne same, free]
  · rw [slots, Function.update_of_ne]
    rintro rfl
    exact busy unused

/-- The last step of a `fork` that succeeded. -/
theorem ForkedTo.started {s' last : State W} {np : Pid} (unused : (s.proc np).state = .unused)
    (sz : (s'.proc np).sz = (s.proc p).sz)
    (others : ∀ q, q ≠ np → (s'.proc q).body = (s.proc q).body)
    (memory : Vm.SpaceCopied (s.proc p).pagetable (s'.proc np).pagetable (s.proc p).sz s.ram s'.ram)
    (ram : last.ram = s'.ram)
    (slots : last.proc = Function.update s'.proc np { s'.proc np with state := .runnable }) :
    ForkedTo p np (last.proc np).pid.toInt s last := by
  have here : last.proc np = { s'.proc np with state := .runnable } := by
    rw [slots, Function.update_self]
  refine ⟨unused, by rw [here], rfl, by rw [here, sz], fun q other => ?_, ?_⟩
  · rw [slots, Function.update_of_ne other, others q other]
  · rw [here, ram]
    exact memory

/-- `fork` copies the memory of the parent, or takes no page. -/
theorem fork_spec [BlockLayer W] (h : Vm.Agrees Vm.Strict s.ram g)
    (root : g.owner (s.proc p).pagetable = .table (s.proc p).pagetable [])
    (shape : Vm.Shape (g.space (s.proc p).pagetable) g.trampoline (s.proc p).trapframe
      (Vm.pagesOf (s.proc p).sz)) (idle : Idle s) :
    outcome (fork p)
      (fun result s' => (∃ np, ForkedTo p np result s s') ∨ ForkFailed p result s s') NoFault s := by
  unfold fork
  refine outcome_seq (allocproc_spec h fun q unused => (idle q unused).1) ?_
  intro got s₁ allocated
  cases got with
  | none =>
      refine .inr ?_
      rcases allocated with rfl | ⟨np, ram, unused, undone, rfl⟩
      · exact ForkFailed.unchanged h root shape ⟨h, fun _ _ => rfl⟩ (fun _ unused => unused) fun _ _ => rfl
      · exact ForkFailed.slot h root shape undone unused rfl
  | some np =>
      obtain ⟨trapframe, r, ram₁, g₁, made, rfl⟩ := allocated
      have other : p ≠ np := by
        rintro rfl
        rw [(idle p made.unused).1] at root
        exact h.nonzero (by rw [root]; rintro ⟨⟩) rfl
      have apart : (s.proc p).pagetable ≠ r := by
        intro same
        rw [same, made.table] at root
        cases root
      have unframed : (s.proc p).pagetable ≠ trapframe := by
        intro same
        rw [same, made.frame] at root
        cases root
      have foreign : ¬ Vm.Pool r (.table (s.proc p).pagetable []) := by simpa [Vm.Pool] using apart
      have root₁ : g₁.owner (s.proc p).pagetable = .table (s.proc p).pagetable [] := by
        refine made.edited.moves.keeps ?_ foreign
        rw [Vm.assign_owner, if_neg unframed, root]
      have space₁ : g₁.space (s.proc p).pagetable = g.space (s.proc p).pagetable :=
        made.edited.moves.space _ apart
      refine proc_then (proc_then ?_)
      simp only [Function.update_self, Function.update_of_ne other]
      refine vm_then (Vm.uvmcopy_spec made.edited.agrees root₁ made.edited.root apart
        (by rw [space₁]; exact shape) made.shape) ?_
      rintro done ram₂ ⟨g₂, edited, result⟩
      have moved := made.edited.moves.trans edited.moves
      have frame₂ : g₂.owner trapframe = .kept .trapframe := (moved.kept trapframe .trapframe).mpr (by simp)
      cases done with
      | false =>
          obtain ⟨same, saved⟩ := result
          have bare := (idle np made.unused).2
          refine outcome_seq (freeproc_spec (g := g₂) edited.agrees ⟨?_, ?_, ?_⟩) ?_
          · intro _
            simp only [Function.update_self]
            exact frame₂
          · intro _
            simp only [Function.update_self]
            exact edited.root
          · intro _
            simp only [Function.update_self, bare, same]
            rw [moved.trampoline]
            exact made.shape
          · rintro - _ ⟨ram₃, g₃, agrees, given, freed, rfl⟩
            simp only [Function.update_self] at freed
            obtain rfl := freed.undo h made.frame made.table moved
            refine .inr (ForkFailed.slot h root shape ⟨agrees, fun q used => ?_⟩ made.unused ?_)
            · have kept := made.keeps h used
              refine (given.byte q fun free => used ((agrees.free q).mp free)).trans ((saved q ?_ ?_).trans ?_)
              · rw [kept]
                exact used
              · intro path table
                refine no_pool h made.table used ?_
                rw [← kept, table]
                rfl
              · exact made.takes.byte q fun free => used ((h.free q).mp free)
            · simp only [Function.update_self, Function.update_idem]
              rfl
      | true =>
          obtain ⟨-, extended, taken, copied⟩ := result
          refine modifyProc_then (proc_then ?_)
          simp only [Function.update_self, Function.update_idem]
          refine vm_then (copyTrapframe_bytes _ _ _) ?_
          rintro - ram₃ ⟨same, others⟩
          have space₂ : g₂.space (s.proc p).pagetable = g.space (s.proc p).pagetable :=
            (edited.moves.space _ apart).trans space₁
          have few := h.few shape.low shape.pages
          have userPage : ∀ k pte, k < Vm.pagesOf (s.proc p).sz →
              g.space (s.proc p).pagetable k = some pte →
              g.owner pte.ppn = .user (s.proc p).pagetable k ∧
              ram₃.byte pte.ppn = s.ram.byte pte.ppn := by
            intro k pte low maps
            have owned := (h.target _ k pte maps).2 (Vm.ordinary_of_lt (Vm.user_low (k := k) (by omega)))
            have used : g.owner pte.ppn ≠ .free := by
              rw [owned]
              rintro ⟨⟩
            have elsewhere : pte.ppn ≠ trapframe := by
              intro same
              rw [same] at used
              exact used made.frame
            refine ⟨owned, (others _ elsewhere).trans ((taken.byte _ ?_).trans (made.takes.byte _ ?_))⟩
            · intro free
              exact used (((h.free _).mp (made.takes.freelist _ free)))
            · exact fun free => used ((h.free _).mp free)
          have memory : Vm.SpaceCopied (s.proc p).pagetable r (s.proc p).sz s.ram ram₃ := by
            have agrees : Vm.Agrees Vm.Strict ram₃ g₂ := by
              refine edited.agrees.congr ?_ ?_ ?_ ?_ <;> rw [same]
            refine Vm.spaceCopied h root apart shape agrees (edited.moves.keeps root₁ foreign)
              edited.root space₂ ?_ fun k pte low maps => (userPage k pte low maps).2
            · intro k pte low maps
              obtain ⟨page, now⟩ := extended.fresh k (Nat.zero_le k) low
              obtain ⟨free, bytes⟩ := copied k pte _ low (by rw [space₁, maps]) now
              have elsewhere : page ≠ trapframe := by
                rintro rfl
                have free₁ := (made.edited.agrees.free _).mp free
                rw [(made.edited.moves.kept _ .trapframe).mpr (by simp)] at free₁
                cases free₁
              refine ⟨page, ?_, made.takes.freelist _ free, (others page elsewhere).trans (bytes.trans ?_)⟩
              · rw [now, Vm.perms, space₁, maps, (h.inner _ k pte maps).1]
                rfl
              · refine made.takes.byte _ fun unused => ?_
                have owned := (userPage k pte low maps).1
                rw [(h.free _).mp unused] at owned
                cases owned
          -- The files and the directory change nothing that the copy depends on.
          refine (closed_calm.loop (calm_forkFile p np) 0 NOFILE).then fun _ s₄ calm₁ => ?_
          refine (calm_cwd p).then fun ip s₅ calm₂ => ?_
          refine (calm_fs _).then fun ip' s₆ calm₃ => ?_
          refine Moved.then (calm_modifyProc np ?_) fun _ s₇ calm₄ => ?_
          · exact fun _ => rfl
          refine Moved.then (calm_modifyProc np ?_) fun _ s₈ calm₅ => ?_
          · exact fun _ => rfl
          have calm := calm₁.trans (calm₂.trans (calm₃.trans (calm₄.trans calm₅)))
          have body := calm.body np
          simp only [Function.update_self] at body
          have table : (s₈.proc np).pagetable = r := congrArg Body.pagetable body
          refine modifyProc_then (proc_then (.inl ⟨np, ?_⟩))
          have copied : Vm.SpaceCopied (s.proc p).pagetable (s₈.proc np).pagetable (s.proc p).sz s.ram s₈.ram := by
            rw [table, calm.ram]
            exact memory
          refine ForkedTo.started made.unused (congrArg Body.sz body) (fun q different => ?_) copied rfl rfl
          refine (calm.body q).trans ?_
          exact congrArg Proc.body (Function.update_of_ne different _ _)

/-- A new page table without user pages stands beside that of the process. -/
def Beside (s : State W) (p : Pid) (new : Nat) : Prop :=
  ∃ g trapframe, Vm.Agrees Vm.Strict s.ram g ∧
    g.owner (s.proc p).pagetable = .table (s.proc p).pagetable [] ∧
    Vm.Shape (g.space (s.proc p).pagetable) g.trampoline (s.proc p).trapframe
      (Vm.pagesOf (s.proc p).sz) ∧
    (s.proc p).pagetable ≠ new ∧ g.owner new = .table new [] ∧
    Vm.Shape (g.space new) g.trampoline trapframe 0

/-- `uvmcopy` gives the child the memory of the parent in pages of its own or no page at all,
and a `fork` that fails leaves nothing behind. -/
theorem fork_shares_nothing [BlockLayer W] (shaped : WellShaped s p) (idle : Idle s) {new : Nat}
    (beside : Beside s p new) :
    outcome (Vm.uvmcopy (s.proc p).pagetable new (s.proc p).sz)
      (fun done after =>
        match done with
        | true => Vm.SpaceCopied (s.proc p).pagetable new (s.proc p).sz s.ram after
        | false => Vm.SpaceEmpty (s.proc p).pagetable new (s.proc p).sz s.ram after)
      (fun _ _ => False) s.ram ∧
    outcome (fork p)
      (fun result s' => (∃ np, ForkedTo p np result s s') ∨ ForkFailed p result s s') NoFault s := by
  constructor
  · obtain ⟨g, trapframe, h, root, shape, apart, rootNew, empty⟩ := beside
    exact Vm.uvmcopy_copies h root rootNew apart shape empty
  · obtain ⟨g, h, root, shape⟩ := shaped
    exact fork_spec h root shape idle

theorem one_page_forks : ∃ (s : State Store) (p : Pid) (new : Nat),
    (s.proc p).sz = PGSIZE ∧
    outcome (Vm.uvmcopy (s.proc p).pagetable new (s.proc p).sz)
      (fun done after =>
        match done with
        | true => Vm.SpaceCopied (s.proc p).pagetable new (s.proc p).sz s.ram after
        | false => Vm.SpaceEmpty (s.proc p).pagetable new (s.proc p).sz s.ram after)
      (fun _ _ => False) s.ram ∧
    outcome (fork p)
      (fun result s' => (∃ np, ForkedTo p np result s s') ∨ ForkFailed p result s s') NoFault s := by
  obtain ⟨ram, g, old, new, h, apart, root, rootNew, shape, empty⟩ := Vm.two_spaces
  have shape' : Vm.Shape (g.space old) g.trampoline 0x80008 (Vm.pagesOf PGSIZE) := shape
  let s : State Store := { bss tinyStore tinySuperblock ram with
    proc := fun q =>
      if q = initproc then
        { state := .running, pid := 1, killed := false, xstate := 0, parent := none, sz := PGSIZE
          pagetable := old, trapframe := 0x80008, ofile := fun _ => none, cwd := none }
      else (bss tinyStore tinySuperblock ram).proc q }
  have idle : Idle s := by
    intro q unused
    by_cases first : q = initproc
    · simp only [s, if_pos first] at unused
      cases unused
    · simp only [s, if_neg first]
      exact ⟨rfl, rfl⟩
  exact ⟨s, initproc, new, rfl, fork_shares_nothing ⟨g, h, root, shape'⟩ idle
    ⟨g, _, h, root, shape', apart, rootNew, empty⟩⟩

end PaddleOs.Kernel
