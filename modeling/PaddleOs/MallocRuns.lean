import PaddleOs.MallocSearch

/-!
Runs of a process that allocates, frees and writes into its blocks. The allocator stays in order in
all of them.
-/

namespace PaddleOs.Malloc

open Foundation.CircularList Foundation.Tiling Foundation.Runs

variable {E : Type} {program : Program E} {valid : E → Prop} {top : E → Nat} {c c' : Client E} {h h' : Heap E}
variable {base t q turns : Nat} {nbytes : UInt32} {free used used' : List (Nat × Nat)}

/-- The pointer that `malloc` gives out for a block. -/
def pointer (b : Nat × Nat) : Nat := b.1 + HEADER

/-- Nothing has been asked for yet, or the blocks are in order and the process has those in use. -/
def Ordered (program : Program E) (top : E → Nat) (c : Client E) : Prop :=
  (c.heap.freep = 0 ∧ c.heap.memory = [] ∧ c.live = []) ∨
    ∃ free used, Layout program.base c.heap free used (top c.heap.env) ∧ c.live.Perm (used.map pointer)

/-- The request is small enough for `sbrk`. -/
def Small (nbytes : UInt32) : Prop := units nbytes * HEADER < 2 ^ 31

def Modest : Label → Prop
  | .malloc nbytes _ => Small nbytes
  | _ => True

theorem units_eq (nbytes : UInt32) : units nbytes = (nbytes.toNat + 15) / 16 + 1 := by
  have bound := nbytes.toNat_lt
  unfold units HEADER
  exact uint32_fits (by omega)

/-- The block has room for its header and what was asked for. -/
theorem units_cover (nbytes : UInt32) : 0 < units nbytes ∧ nbytes.toNat + HEADER ≤ HEADER * units nbytes := by
  rw [units_eq]
  unfold HEADER
  omega

section Changes

theorem Layout.perm (layout : Layout base h free used t) (same : used.Perm used') :
    Layout base h free used' t where
  circle := layout.circle
  empty := layout.empty
  rover := layout.rover
  sorted := layout.sorted
  tiles := layout.tiles.perm (same.append_left free)
  sizes b member := layout.sizes b (same.mem_iff.mpr member)
  above b member := layout.above b ((same.append_left free).mem_iff.mpr member)
  below b member := layout.below b ((same.append_left free).mem_iff.mpr member)

theorem Layout.high (layout : Layout base h free used t) : ∀ p ∈ nodes base free, base ≤ p := by
  intro p member
  rcases List.mem_cons.mp member with rfl | member
  · exact Nat.le_refl _
  · obtain ⟨b, inside, rfl⟩ := List.mem_map.mp member
    exact Nat.le_trans (Nat.le_add_right _ _) (layout.above b (List.mem_append_left _ inside))

/-- What a process writes into its blocks changes no header. -/
theorem Layout.store {x ptr size : Nat} (layout : Layout base h free used t) {b : Nat × Nat} (member : b ∈ used)
    (front : b.1 < x) (inside : x < stop HEADER b) :
    Layout base { h with ptr := Function.update h.ptr x ptr, size := Function.update h.size x size }
      free used t := by
  obtain ⟨clear, others⟩ := layout.inner (List.mem_append_right _ member) front inside
  have away : ∀ q ∈ nodes base free, q ≠ x := fun q node same => clear (same ▸ node)
  have lastNode := away _ (lastNode_mem base free)
  refine { layout with circle := ⟨?_, ?_⟩, empty := ?_, sizes := fun c other => ?_ }
  · exact layout.circle.1.congr (fun q node _ => Function.update_of_ne (away q node) _ _)
      (fun q node => Function.update_of_ne (away q (List.mem_cons_of_mem _ node)) _ _) layout.distinct
  · exact (Function.update_of_ne lastNode _ _).trans layout.circle.2
  · exact (Function.update_of_ne (away base List.mem_cons_self) _ _).trans layout.empty
  · exact (Function.update_of_ne (others c other) _ _).trans (layout.sizes c other)

/-- The first call of `malloc` makes a circle of `base` alone. -/
theorem start_layout (untouched : h.freep = 0) (nothing : h.memory = []) (t : Nat) :
    Layout program.base (start program h) [] [] t := by
  unfold start
  rw [if_pos untouched]
  refine ⟨⟨trivial, Function.update_self ..⟩, Function.update_self .., List.mem_cons_self, List.Pairwise.nil,
    ?_, ?_, ?_, ?_⟩
  · refine ⟨fun b none => absurd none List.not_mem_nil, List.Pairwise.nil, fun a => ?_⟩
    simp [Given, nothing]
  · exact fun b none => absurd none List.not_mem_nil
  · exact fun b none => absurd none List.not_mem_nil
  · exact fun b none => absurd none List.not_mem_nil

end Changes

section Calls

theorem start_rest (program : Program E) (h : Heap E) :
    (start program h).memory = h.memory ∧ (start program h).env = h.env := by
  unfold start
  split
  · exact ⟨rfl, rfl⟩
  · exact ⟨rfl, rfl⟩

/-- Every call begins with the blocks in order. -/
theorem Ordered.started (extend : Extends program valid top) (order : Ordered program top c) :
    ∃ free used, Layout program.base (start program c.heap) free used (top (start program c.heap).env) ∧
      c.live.Perm (used.map pointer) := by
  rcases order with ⟨untouched, nothing, none⟩ | ⟨free, used, layout, perm⟩
  · exact ⟨[], [], start_layout untouched nothing _, none ▸ List.Perm.refl _⟩
  · have other : ¬ c.heap.freep = 0 :=
      Nat.ne_of_gt (Nat.lt_of_lt_of_le extend.somewhere (layout.high _ layout.rover))
    have same : start program c.heap = c.heap := if_neg other
    exact ⟨free, used, same.symm ▸ layout, perm⟩

/-- `malloc` returns when it has enough turns, and serves the call. -/
theorem Ordered.serves (extend : Extends program valid top) (room : Room program valid top) (order : Ordered program top c)
    (ready : Ready program valid top c.heap.env) (small : Small nbytes) :
    ∃ enough, ∀ turns, enough ≤ turns → ∃ q h' used, malloc program turns nbytes c.heap = some (q, h') ∧
      c.live.Perm (used.map pointer) ∧ Served program.base (top h'.env) (units nbytes) h' used q ∧
      Ready program valid top h'.env := by
  obtain ⟨free, used, layout, perm⟩ := order.started extend
  have env := (start_rest program c.heap).2
  refine ⟨2 * free.length + 5, fun turns enough => ?_⟩
  obtain ⟨q, h', result, served, up⟩ :=
    mallocFrom_layout extend room layout (env.symm ▸ ready) (units_cover nbytes).1 small enough
  exact ⟨q, h', used, result, perm, served, up⟩

/-- So does a call that has returned with fewer turns. -/
theorem Ordered.served (extend : Extends program valid top) (room : Room program valid top) (order : Ordered program top c)
    (ready : Ready program valid top c.heap.env) (small : Small nbytes)
    (done : malloc program turns nbytes c.heap = some (q, h')) :
    ∃ used, c.live.Perm (used.map pointer) ∧ Served program.base (top h'.env) (units nbytes) h' used q ∧
      Ready program valid top h'.env := by
  obtain ⟨enough, serves⟩ := order.serves extend room ready small
  obtain ⟨q', h'', used, result, rest⟩ := serves (enough + turns) (Nat.le_add_right _ _)
  have same : malloc program (enough + turns) nbytes c.heap = some (q, h') :=
    mallocFrom_more done (Nat.le_add_left _ _)
  obtain ⟨rfl, rfl⟩ := Prod.mk.inj (Option.some.inj (result.symm.trans same))
  exact ⟨used, rest⟩

/-- `free` returns when it has enough turns, and the blocks are in order again. -/
theorem Ordered.frees (room : Room program valid top) (order : Ordered program top c)
    (ready : Ready program valid top c.heap.env) {ap : Nat}
    (member : ap ∈ c.live) :
    ∃ enough h', (∀ turns, enough ≤ turns → Malloc.free turns ap c.heap = some h') ∧ h'.env = c.heap.env ∧
      ∃ free used, Layout program.base h' free used (top h'.env) ∧
        (c.live.erase ap).Perm (used.map pointer) := by
  rcases order with ⟨-, -, none⟩ | ⟨free, used, layout, perm⟩
  · rw [none] at member
    cases member
  · obtain ⟨b, inside, rfl⟩ := List.mem_map.mp (perm.mem_iff.mp member)
    have split : used.Perm (b :: used.erase b) := List.perm_cons_erase inside
    obtain ⟨h', rest, freed, after, -, env, -⟩ :=
      free_layout (layout.perm split) (room c.heap.env ready.valid)
        (show free.length < free.length + 1 from Nat.lt_succ_self _)
    refine ⟨free.length + 1, h', fun turns enough => free_more freed enough, env, rest, used.erase b,
      env ▸ after, ?_⟩
    have moved := perm.trans (split.map pointer)
    exact (moved.erase (pointer b)).trans (by rw [List.map_cons, List.erase_cons_head])

end Calls

section Steps

/-- A block that `malloc` gives out: it holds what was asked for, lies in the memory that `sbrk` has
given, and shares nothing with the blocks the process has. -/
structure Allotted (live : List Nat) (nbytes : UInt32) (h : Heap E) (q : Nat) : Prop where
  size : nbytes.toNat + HEADER ≤ HEADER * h.size (q - HEADER)
  inside : ∀ a, q - HEADER ≤ a → a < q + nbytes.toNat → Given h.memory a
  apart : ∀ ap ∈ live, Apart HEADER (q - HEADER, h.size (q - HEADER)) (ap - HEADER, h.size (ap - HEADER))

theorem Served.allotted {live : List Nat} (served : Served base t (units nbytes) h used q)
    (perm : live.Perm (used.map pointer)) : q = 0 ∨ Allotted live nbytes h q := by
  rcases served with ⟨null, -⟩ | ⟨free, x, rfl, layout⟩
  · exact .inl null
  · have size : h.size x = units nbytes := layout.sizes (x, units nbytes) List.mem_cons_self
    have cover := (units_cover nbytes).2
    refine .inr ⟨?_, fun a from_ upto => ?_, fun ap member => ?_⟩
    · rw [Nat.add_sub_cancel, size]
      exact cover
    · rw [Nat.add_sub_cancel] at from_
      refine (layout.tiles.fills a).mpr ⟨(x, units nbytes), List.mem_append_right _ List.mem_cons_self,
        from_, ?_⟩
      unfold stop
      dsimp only
      omega
    · obtain ⟨b, inside, rfl⟩ := List.mem_map.mp (perm.mem_iff.mp member)
      have apart := (List.pairwise_append.mp layout.tiles.apart).2.1
      have here := (List.pairwise_cons.mp apart).1 b inside
      rw [Nat.add_sub_cancel, size, pointer, Nat.add_sub_cancel, layout.sizes b (List.mem_cons_of_mem _ inside)]
      exact here

/-- One step keeps the blocks in order. -/
theorem Ordered.step (extend : Extends program valid top) (room : Room program valid top) (order : Ordered program top c)
    (ready : Ready program valid top c.heap.env) {label : Label} (modest : Modest label)
    (done : step program c label = some c') : Ordered program top c' ∧
      Ready program valid top c'.heap.env := by
  cases label with
  | malloc nbytes turns =>
      obtain ⟨⟨q, h⟩, returned, same⟩ := Option.bind_eq_some_iff.mp done
      obtain rfl := Option.some.inj same
      obtain ⟨used, perm, served, up⟩ := order.served extend room ready modest returned
      refine ⟨.inr ?_, up⟩
      rcases served with ⟨null, free, layout⟩ | ⟨free, x, rfl, layout⟩
      · refine ⟨free, used, layout, ?_⟩
        rw [if_pos null]
        exact perm
      · refine ⟨free, (x, units nbytes) :: used, layout, ?_⟩
        rw [if_neg (show ¬ x + HEADER = 0 from Nat.succ_ne_zero _)]
        exact perm.cons _
  | free ap turns =>
      rw [Malloc.step] at done
      split at done
      · rename_i member
        obtain ⟨h, freed, same⟩ := Option.bind_eq_some_iff.mp done
        obtain rfl := Option.some.inj same
        obtain ⟨enough, h', frees, env, free, used, layout, perm⟩ := order.frees room ready member
        obtain rfl : h' = h := Option.some.inj
          ((frees (enough + turns) (Nat.le_add_right _ _)).symm.trans (free_more freed (Nat.le_add_left _ _)))
        exact ⟨.inr ⟨free, used, layout, perm⟩, env ▸ ready⟩
      · cases done
  | store x ptr size =>
      rw [Malloc.step] at done
      split at done
      · rename_i payload
        obtain rfl := Option.some.inj done
        obtain ⟨ap, member, front, inside⟩ := payload
        refine ⟨.inr ?_, ready⟩
        rcases order with ⟨-, -, none⟩ | ⟨free, used, layout, perm⟩
        · rw [none] at member
          cases member
        · obtain ⟨b, within, rfl⟩ := List.mem_map.mp (perm.mem_iff.mp member)
          rw [pointer, Nat.add_sub_cancel, layout.sizes b within] at inside
          rw [pointer, Nat.add_sub_cancel] at front
          exact ⟨free, used, layout.store within front inside, perm⟩
      · cases done

/-- A process that has not used the allocator yet. -/
structure Untouched (program : Program E) (valid : E → Prop) (top : E → Nat) (c : Client E) : Prop where
  freep : c.heap.freep = 0
  memory : c.heap.memory = []
  live : c.live = []
  ready : Ready program valid top c.heap.env

theorem Ordered.run (extend : Extends program valid top) (room : Room program valid top) {start : Client E}
    (untouched : Untouched program valid top start) {labels : List Label} (modest : ∀ label ∈ labels, Modest label)
    (ran : run (Malloc.step program) start labels = some c) :
    Ordered program top c ∧ Ready program valid top c.heap.env := by
  refine run_invariant_where (Malloc.step program) (fun _ label => Modest label)
    (fun c => Ordered program top c ∧ Ready program valid top c.heap.env)
    ⟨.inl ⟨untouched.freep, untouched.memory, untouched.live⟩, untouched.ready⟩ ?_ ran ?_
  · rintro state label next ⟨order, ready⟩ small stepped
    exact order.step extend room ready small stepped
  · rintro before label after - rfl -
    exact modest label (List.mem_append_right _ List.mem_cons_self)

/-- In every run of modest requests the blocks stay in order. `malloc` returns, with the null pointer
or with a block of its own, and so does `free`. -/
theorem malloc_stays_ordered (extend : Extends program valid top) (room : Room program valid top) {start : Client E}
    (untouched : Untouched program valid top start) {labels : List Label} (modest : ∀ label ∈ labels, Modest label)
    (ran : Foundation.Runs.run (Malloc.step program) start labels = some c) :
    Ordered program top c ∧
      (∀ nbytes, Small nbytes →
        (∃ enough, ∀ turns, enough ≤ turns → (malloc program turns nbytes c.heap).isSome) ∧
        ∀ turns q h, malloc program turns nbytes c.heap = some (q, h) → q = 0 ∨ Allotted c.live nbytes h q) ∧
      ∀ ap ∈ c.live, ∃ enough, ∀ turns, enough ≤ turns → (Malloc.free turns ap c.heap).isSome := by
  obtain ⟨order, ready⟩ := Ordered.run extend room untouched modest ran
  refine ⟨order, fun nbytes small => ⟨?_, fun turns q h returned => ?_⟩, fun ap member => ?_⟩
  · obtain ⟨enough, serves⟩ := order.serves extend room ready small
    refine ⟨enough, fun turns more => ?_⟩
    obtain ⟨q, h, -, returned, -⟩ := serves turns more
    exact Option.isSome_of_eq_some returned
  · obtain ⟨used, perm, served, -⟩ := order.served extend room ready small returned
    exact served.allotted perm
  · obtain ⟨enough, h, frees, -⟩ := order.frees room ready member
    exact ⟨enough, fun turns more => Option.isSome_of_eq_some (frees turns more)⟩

end Steps

section Runs

/-- A machine whose `sbrk` gives memory up to a limit. -/
def limited (limit : Nat) : Program Nat where
  base := 4096
  sbrk n brk := if brk + n.toInt.toNat ≤ limit then (some brk, brk + n.toInt.toNat) else (none, brk)

theorem limited_extends (limit : Nat) : Extends (limited limit) (· ≤ limit) id where
  somewhere := Nat.succ_pos 4095
  grows n brk a brk' _ _ granted := by
    unfold limited at granted
    dsimp only at granted
    split at granted
    · rename_i fits
      obtain ⟨same, rfl⟩ := Prod.mk.inj granted
      obtain rfl := Option.some.inj same
      exact ⟨fits, Nat.le_refl _, Nat.le_refl _⟩
    · cases granted
  fails n brk brk' inside _ refused := by
    unfold limited at refused
    dsimp only at refused
    split at refused
    · cases refused
    · obtain ⟨-, rfl⟩ := Prod.mk.inj refused
      exact ⟨inside, Nat.le_refl _⟩

def idle : Client Nat where
  heap := { ptr := fun _ => 0, size := fun _ => 0, freep := 0, memory := [], env := 8192 }
  live := []

theorem idle_untouched {limit : Nat} (space : 8192 ≤ limit) : Untouched (limited limit) (· ≤ limit) id idle where
  freep := rfl
  memory := rfl
  live := rfl
  ready := ⟨space, show 4096 + 16 ≤ 8192 by decide⟩

/-- Two blocks are allocated and the first is freed. -/
theorem two_blocks_ordered : ∃ c,
    Foundation.Runs.run (Malloc.step (limited (4096 + 2 ^ 36))) idle
        [.malloc 100 9, .malloc 40 9, .free 73616 9] = some c ∧
      Ordered (limited (4096 + 2 ^ 36)) id c ∧ c.live = [73552] := by
  have returns : ((Foundation.Runs.run (Malloc.step (limited (4096 + 2 ^ 36))) idle
      [.malloc 100 9, .malloc 40 9, .free 73616 9]).map Client.live) = some [73552] := by decide +kernel
  obtain ⟨c, ran, live⟩ := Option.map_eq_some_iff.mp returns
  refine ⟨c, ran, ?_, live⟩
  refine (malloc_stays_ordered (limited_extends _) (fun _ inside => inside) (idle_untouched (by decide)) ?_ ran).1
  simp [Modest, Small, units, HEADER, uint32]

/-- 33 blocks of `2 ^ 27 - 1` units. -/
def large : List Label :=
  List.replicate 33 (.malloc 2147483616 8) ++
    (List.range 33).map fun i => .free (8192 + 2147483632 * i + HEADER) 40

/-- Without the limit on all memory a free block may have `2 ^ 32` units or more, which `size` cannot
hold, and memory is lost. -/
theorem merged_size_wraps :
    (∀ label ∈ large, Modest label) ∧ ∃ limit c, Extends (limited limit) (· ≤ limit) id ∧
      Untouched (limited limit) (· ≤ limit) id idle ∧
      Foundation.Runs.run (Malloc.step (limited limit)) idle large = some c ∧
      ¬ Ordered (limited limit) id c := by
  have modest : ∀ label ∈ large, Modest label := by
    intro label member
    rcases List.mem_append.mp member with member | member
    · obtain rfl := List.eq_of_mem_replicate member
      unfold Modest Small
      decide
    · obtain ⟨i, -, rfl⟩ := List.mem_map.mp member
      trivial
  have final : ((Foundation.Runs.run (Malloc.step (limited (2 ^ 40))) idle large).map fun c =>
      (c.live, c.heap.ptr 4096, c.heap.ptr 8192, c.heap.size 8192)) = some ([], 8192, 4096, 134217695) := by
    decide +kernel
  have given : ((Foundation.Runs.run (Malloc.step (limited (2 ^ 40))) idle large).map fun c =>
      c.heap.memory.getLast?) = some (some (8192, 2147483632)) := by decide +kernel
  obtain ⟨c, ran, ends⟩ := Option.map_eq_some_iff.mp final
  simp only [Prod.mk.injEq] at ends
  obtain ⟨live, first, second, size⟩ := ends
  rw [ran] at given
  have member := List.mem_of_getLast? (Option.some.inj given)
  refine ⟨modest, 2 ^ 40, c, limited_extends _, idle_untouched (by decide), ran, ?_⟩
  rintro (⟨-, none, -⟩ | ⟨free, used, layout, perm⟩)
  · rw [none] at member
    cases member
  · rw [live] at perm
    obtain rfl : used = [] := List.map_eq_nil_iff.mp (List.nil_perm.mp perm)
    -- The circle has one block besides `base`.
    obtain rfl : free = [(8192, 134217695)] := by
      have circle : Circle c.heap.ptr c.heap.size 4096 free := layout.circle
      rcases free with _ | ⟨⟨x, n⟩, free⟩
      · have next : c.heap.ptr 4096 = 4096 := circle.2
        omega
      · obtain ⟨rfl, here, rest⟩ := leads_cons.mp circle
        rw [first] at *
        rcases free with _ | ⟨b, free⟩
        · rw [← here, size]
        · have next := (leads_cons.mp rest).1
          have above : 4096 + 16 ≤ b.1 := layout.above b (by simp)
          omega
    obtain ⟨b, only, inside⟩ :=
      (layout.tiles.fills (8192 + 16 * 134217695)).mp ⟨_, member, by decide, by decide⟩
    obtain rfl := List.mem_singleton.mp only
    exact absurd inside.2 (by decide)

end Runs

end PaddleOs.Malloc
