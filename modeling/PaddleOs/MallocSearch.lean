import PaddleOs.MallocFree

/-!
`malloc` takes the first block that is large enough behind `freep`. Where there is none it asks `sbrk`
for more, and then there is one.
-/

namespace PaddleOs.Malloc

open Foundation.CircularList Foundation.Tiling

variable {E : Type} {h : Heap E} {base top nunits : Nat} {free used before behind : List (Nat × Nat)}
  {b : Nat × Nat}

section Taking

/-- What stands in the circle behind a block. -/
theorem Layout.follows (layout : Layout base h (before ++ b :: behind) used top) :
    h.size b.1 = b.2 ∧ Leads h.ptr h.size b.1 behind base := by
  obtain ⟨-, rest⟩ := leads_append.mp layout.circle
  exact (leads_cons.mp rest).2

theorem Layout.front (layout : Layout base h (before ++ b :: behind) used top) :
    (nodes base before).Nodup ∧ ∀ q ∈ starts (b :: behind), q ∉ nodes base before := by
  have distinct := layout.distinct
  rw [nodes_append] at distinct
  obtain ⟨left, -, across⟩ := List.nodup_append.mp distinct
  exact ⟨left, fun q member inside => across q inside q member rfl⟩

/-- The block is taken as it is. -/
theorem Layout.exact (layout : Layout base h (before ++ b :: behind) used top) :
    Layout base { h with ptr := Function.update h.ptr (lastNode base before) (h.ptr b.1)
                         freep := lastNode base before }
      (before ++ behind) (b :: used) top := by
  obtain ⟨size, rest⟩ := layout.follows
  obtain ⟨distinct, apart⟩ := layout.front
  have fewer : (before ++ behind).Sublist (before ++ b :: behind) :=
    (List.sublist_cons_self b behind).append_left before
  have moved : (before ++ b :: behind ++ used).Perm (before ++ behind ++ b :: used) := by
    rw [List.append_assoc, List.append_assoc]
    exact List.perm_middle.symm.append_left before
  refine ⟨?_, layout.empty, ?_, layout.sorted.sublist fewer, layout.tiles.perm moved, fun c member => ?_,
    fun c member => layout.above c (moved.mem_iff.mpr member),
    fun c member => layout.below c (moved.mem_iff.mpr member)⟩
  · refine layout.circle.splice distinct (fun q _ other => Function.update_of_ne other _ _) (fun _ _ => rfl) ?_
    refine rest.restart (Function.update_self ..) (fun q member => Function.update_of_ne ?_ _ _) fun _ _ => rfl
    exact fun same => apart q (List.mem_cons_of_mem _ member) (same ▸ lastNode_mem base before)
  · rw [nodes_append]
    exact List.mem_append_left _ (lastNode_mem base before)
  · rcases List.mem_cons.mp member with rfl | member
    · exact size
    · exact layout.sizes c member

/-- The end of the block is taken. -/
theorem Layout.tail (layout : Layout base h (before ++ b :: behind) used top) (positive : 0 < nunits)
    (less : nunits < b.2) :
    Layout base { h with size := Function.update (Function.update h.size b.1 (b.2 - nunits))
                                  (b.1 + HEADER * (b.2 - nunits)) nunits
                         freep := lastNode base before }
      (before ++ (b.1, b.2 - nunits) :: behind) ((b.1 + HEADER * (b.2 - nunits), nunits) :: used) top := by
  obtain ⟨size, rest⟩ := layout.follows
  obtain ⟨distinct, apart⟩ := layout.front
  have here : b ∈ before ++ b :: behind := List.mem_append_right _ List.mem_cons_self
  have cut : stop HEADER (b.1 + HEADER * (b.2 - nunits), nunits) = stop HEADER b := by
    unfold stop HEADER
    omega
  have shorter : stop HEADER (b.1, b.2 - nunits) ≤ stop HEADER b := by
    unfold stop HEADER
    omega
  have start : b.1 < b.1 + HEADER * (b.2 - nunits) ∧ b.1 + HEADER * (b.2 - nunits) < stop HEADER b := by
    unfold stop HEADER
    omega
  obtain ⟨fresh, others⟩ := layout.inner (List.mem_append_left _ here) start.1 start.2
  have low := layout.above b (List.mem_append_left _ here)
  have whole : (before ++ b :: behind ++ used).Perm (b :: (before ++ behind ++ used)) := by
    rw [List.append_assoc, List.append_assoc]
    exact List.perm_middle
  have member : ∀ {c},
      c ∈ before ++ (b.1, b.2 - nunits) :: behind ++ (b.1 + HEADER * (b.2 - nunits), nunits) :: used →
        c = (b.1, b.2 - nunits) ∨ c = (b.1 + HEADER * (b.2 - nunits), nunits) ∨
          c ∈ before ++ b :: behind ++ used := by
    intro c inside
    simp only [List.mem_append, List.mem_cons] at inside ⊢
    tauto
  have first : b.1 ∉ starts behind ∧ b.1 ≠ base := by
    have distinct := layout.distinct
    rw [nodes_append] at distinct
    refine ⟨(List.nodup_cons.mp (List.nodup_append.mp distinct).2.1).1, Nat.ne_of_gt ?_⟩
    exact Nat.lt_of_lt_of_le (Nat.lt_add_of_pos_right (by decide)) low
  have changed : ∀ c, c ≠ b.1 + HEADER * (b.2 - nunits) → c ≠ b.1 →
      Function.update (Function.update h.size b.1 (b.2 - nunits)) (b.1 + HEADER * (b.2 - nunits)) nunits c =
        h.size c :=
    fun c far other => (Function.update_of_ne far _ _).trans (Function.update_of_ne other _ _)
  have away : ∀ c ∈ nodes base (before ++ b :: behind), c ≠ b.1 + HEADER * (b.2 - nunits) := fun c node same =>
    fresh (same ▸ node)
  refine ⟨?_, ?_, ?_, ?_, ?_, fun c inside => ?_, fun c inside => ?_, fun c inside => ?_⟩
  · refine layout.circle.splice distinct (fun _ _ _ => rfl) (fun q inside => ?_) (leads_cons.mpr ⟨?_, ?_, ?_⟩)
    · refine changed q (away q ?_) fun same =>
        apart b.1 List.mem_cons_self (same ▸ List.mem_cons_of_mem _ inside)
      rw [nodes_append]
      exact List.mem_append_left _ (List.mem_cons_of_mem _ inside)
    · exact (leads_cons.mp (leads_append.mp layout.circle).2).1
    · exact (Function.update_of_ne (Nat.ne_of_lt start.1) _ _).trans (Function.update_self ..)
    · refine rest.restart rfl (fun _ _ => rfl) fun q inside =>
        changed q (away q ?_) fun same => first.1 (same ▸ inside)
      rw [nodes_append]
      exact List.mem_append_right _ (List.mem_cons_of_mem _ inside)
  · exact (changed base (away base List.mem_cons_self) (Ne.symm first.2)).trans layout.empty
  · rw [nodes_append]
    exact List.mem_append_left _ (lastNode_mem base before)
  · obtain ⟨left, right, across⟩ := List.pairwise_append.mp layout.sorted
    obtain ⟨next, right⟩ := List.pairwise_cons.mp right
    refine List.pairwise_append.mpr ⟨left, List.pairwise_cons.mpr ⟨fun c inside => ?_, right⟩,
      fun c inside d last => ?_⟩
    · exact Nat.lt_of_le_of_lt shorter (next c inside)
    · rcases List.mem_cons.mp last with rfl | last
      · exact across c inside b List.mem_cons_self
      · exact across c inside d (List.mem_cons_of_mem _ last)
  · have joined : (b.1, b.2 - nunits + nunits) = b := by rw [Nat.sub_add_cancel (Nat.le_of_lt less)]
    have tiles := layout.tiles.perm whole
    rw [← joined] at tiles
    have pieces := (tiles_join (x := (b.1, b.2 - nunits)) (y := (b.1 + HEADER * (b.2 - nunits), nunits))
      (by decide)
      (Nat.sub_pos_of_lt less) positive rfl).mpr tiles
    refine pieces.perm ((List.perm_middle.symm.cons _).trans ?_)
    rw [List.append_assoc, List.append_assoc]
    exact List.perm_middle.symm
  · rcases List.mem_cons.mp inside with rfl | inside
    · exact Function.update_self ..
    · refine (changed c.1 (others c inside) fun same => layout.away c inside ?_).trans (layout.sizes c inside)
      rw [nodes_append, same]
      exact List.mem_append_right _ List.mem_cons_self
  · rcases member inside with rfl | rfl | inside
    · exact low
    · exact Nat.le_trans low (Nat.le_of_lt start.1)
    · exact layout.above c inside
  · have high := layout.below b (List.mem_append_left _ here)
    rcases member inside with rfl | rfl | inside
    · exact Nat.le_trans shorter high
    · exact cut ▸ high
    · exact layout.below c inside

/-- `malloc` takes what it asks for from a block that is large enough. -/
theorem take_layout (layout : Layout base h (before ++ b :: behind) used top) (positive : 0 < nunits)
    (fits : nunits ≤ b.2) :
    ∃ h' rest x, take nunits (lastNode base before) b.1 h = (x + HEADER, h') ∧
      Layout base h' rest ((x, nunits) :: used) top ∧ h'.memory = h.memory ∧ h'.env = h.env := by
  have size := layout.follows.1
  unfold take
  rw [size]
  split
  · rename_i same
    refine ⟨_, before ++ behind, b.1, rfl, ?_, rfl, rfl⟩
    have whole : b = (b.1, nunits) := by rw [← same]
    exact whole ▸ layout.exact
  · rename_i other
    exact ⟨_, _, _, rfl, layout.tail positive (Nat.lt_of_le_of_ne fits (Ne.symm other)), rfl, rfl⟩

end Taking

section Turns

/-- What `malloc` does when no block is large enough. -/
def refill (program : Program E) (nunits turns : Nat) (h : Heap E) : Option (Nat × Heap E) := do
  let (q, h) ← morecore program turns nunits h
  if q = 0 then return (0, h)
  mallocFrom program nunits turns q (h.ptr q) h

theorem mallocFrom_succ (program : Program E) (nunits turns prevp p : Nat) (h : Heap E) :
    mallocFrom program nunits (turns + 1) prevp p h =
      if h.size p ≥ nunits then some (take nunits prevp p h)
      else if p = h.freep then refill program nunits turns h
      else mallocFrom program nunits turns p (h.ptr p) h := rfl

variable {program : Program E} {turns more ap p q prevp nu : Nat} {h' : Heap E}

theorem free_more (done : Malloc.free turns ap h = some h') (enough : turns ≤ more) :
    Malloc.free more ap h = some h' := by
  obtain ⟨p, found, rest⟩ := Option.bind_eq_some_iff.mp done
  exact Option.bind_eq_some_iff.mpr ⟨p, seek_more found enough, rest⟩

theorem morecore_more (done : morecore program turns nu h = some (q, h')) (enough : turns ≤ more) :
    morecore program more nu h = some (q, h') := by
  unfold morecore at *
  dsimp only at *
  split
  · rename_i refused
    rwa [refused] at done
  · rename_i granted
    rw [granted] at done
    obtain ⟨h₁, freed, rest⟩ := Option.bind_eq_some_iff.mp done
    exact Option.bind_eq_some_iff.mpr ⟨h₁, free_more freed enough, rest⟩

/-- More turns change nothing once `malloc` has returned. -/
theorem mallocFrom_more (done : mallocFrom program nunits turns prevp p h = some (q, h'))
    (enough : turns ≤ more) :
    mallocFrom program nunits more prevp p h = some (q, h') := by
  induction turns generalizing prevp p h more with
  | zero => cases done
  | succ turns ih =>
      obtain ⟨more, rfl⟩ := Nat.exists_eq_add_of_le' enough
      have bound : turns ≤ more + turns := Nat.le_add_left _ _
      rw [← Nat.add_assoc, mallocFrom_succ]
      rw [mallocFrom_succ] at done
      split
      · rename_i large
        rwa [if_pos large] at done
      · rename_i small
        rw [if_neg small] at done
        split
        · rename_i round
          rw [if_pos round] at done
          obtain ⟨⟨r, h₁⟩, grown, rest⟩ := Option.bind_eq_some_iff.mp done
          refine Option.bind_eq_some_iff.mpr ⟨(r, h₁), morecore_more grown bound, ?_⟩
          dsimp only at rest ⊢
          split
          · rename_i null
            rwa [if_pos null] at rest
          · rename_i some
            rw [if_neg some] at rest
            exact ih rest bound
        · rename_i on
          rw [if_neg on] at done
          exact ih done bound

end Turns

section Search

variable {program : Program E}

/-- The search takes the first block that is large enough, or has seen all blocks. -/
theorem mallocFrom_search (program : Program E) {l : List (Nat × Nat)} {prevp turns : Nat}
    (leads : Leads h.ptr h.size prevp l h.freep)
    (away : h.freep ∉ starts l) (enough : l.length < turns) :
    (∃ q ∈ nodes prevp l, nunits ≤ h.size (h.ptr q) ∧
      mallocFrom program nunits turns prevp (h.ptr prevp) h = some (take nunits q (h.ptr q) h)) ∨
    (∀ p ∈ nodes h.freep l, h.size p < nunits) ∧ ∃ left, turns = left + l.length + 1 ∧
      mallocFrom program nunits turns prevp (h.ptr prevp) h = refill program nunits left h := by
  induction l generalizing prevp turns with
  | nil =>
      obtain ⟨turns, rfl⟩ := Nat.exists_eq_add_of_lt enough
      have round : h.ptr prevp = h.freep := leads.2
      rw [List.length_nil, Nat.zero_add, mallocFrom_succ]
      split
      · rename_i large
        exact .inl ⟨prevp, List.mem_cons_self, large, rfl⟩
      · rename_i small
        refine .inr ⟨fun p member => ?_, turns, rfl, rfl⟩
        rw [List.mem_singleton.mp member, ← round]
        exact Nat.lt_of_not_le small
  | cons b l ih =>
      obtain ⟨turns, rfl⟩ := Nat.exists_eq_add_of_lt enough
      obtain ⟨next, size, rest⟩ := leads_cons.mp leads
      have other : ¬ h.ptr prevp = h.freep := fun same => away (same ▸ next ▸ List.mem_cons_self)
      rw [mallocFrom_succ]
      split
      · rename_i large
        exact .inl ⟨prevp, List.mem_cons_self, large, rfl⟩
      · rename_i small
        rw [← next] at rest
        have less : l.length < (b :: l).length + turns := by
          simp only [List.length_cons]
          omega
        rcases ih rest (fun member => away (List.mem_cons_of_mem _ member)) less with
          ⟨q, member, large, taken⟩ | ⟨none, left, count, refilled⟩
        · rw [next] at member
          exact .inl ⟨q, List.mem_cons_of_mem _ member, large, taken⟩
        · refine .inr ⟨fun p member => ?_, left, ?_, refilled⟩
          · rcases List.mem_cons.mp member with same | member
            · exact same ▸ none _ List.mem_cons_self
            · rcases List.mem_cons.mp member with same | member
              · rw [same, ← next]
                exact Nat.lt_of_not_le small
              · exact none p (List.mem_cons_of_mem _ member)
          · simp only [List.length_cons] at *
            omega

end Search

section Growing

variable {program : Program E} {nu hp : Nat} {valid : E → Prop} {top : E → Nat}

/-- What the allocator relies on: `sbrk` fails or adds fresh memory above all it has given before. -/
structure Extends (program : Program E) (valid : E → Prop) (top : E → Nat) : Prop where
  somewhere : 0 < program.base
  grows : ∀ n e a e', valid e → 0 < n.toInt → program.sbrk n e = (some a, e') →
    valid e' ∧ top e ≤ a ∧ a + n.toInt.toNat ≤ top e'
  fails : ∀ n e e', valid e → 0 < n.toInt → program.sbrk n e = (none, e') → valid e' ∧ top e ≤ top e'

/-- All memory there is lies within `2 ^ 36` bytes. -/
def Room (program : Program E) (valid : E → Prop) (top : E → Nat) : Prop :=
  ∀ e, valid e → top e ≤ program.base + 2 ^ 36

/-- The memory to come lies above `base`. -/
structure Ready (program : Program E) (valid : E → Prop) (top : E → Nat) (e : E) : Prop where
  valid : valid e
  low : program.base + HEADER ≤ top e

/-- The memory that `sbrk` has given is a block in use until `free` has it. -/
theorem Layout.given {t t' : Nat} (layout : Layout base h free used t) (env : E) (positive : 0 < nu)
    (low : base + HEADER ≤ t)
    (start : t ≤ hp) (ends : stop HEADER (hp, nu) ≤ t') {n : Nat} (bytes : n = HEADER * nu) :
    Layout base { h with size := Function.update h.size hp nu, memory := (hp, n) :: h.memory, env }
      free ((hp, nu) :: used) t' := by
  have up : t ≤ t' := Nat.le_trans start (Nat.le_trans (Nat.le_add_right _ _) ends)
  have under : ∀ b ∈ free ++ used, stop HEADER b ≤ hp := fun b member =>
    Nat.le_trans (layout.below b member) start
  have moved : ((hp, nu) :: (free ++ used)).Perm (free ++ (hp, nu) :: used) := List.perm_middle.symm
  have other : ∀ b ∈ free ++ used, b.1 ≠ hp := fun b member =>
    Nat.ne_of_lt (Nat.lt_of_lt_of_le (start_lt_stop (by decide) (layout.tiles.positive b member))
      (under b member))
  have base_ne : base ≠ hp := by
    unfold HEADER at low
    omega
  refine ⟨⟨?_, layout.circle.2⟩, ?_, layout.rover, layout.sorted, ?_, fun b member => ?_, fun b member => ?_,
    fun b member => ?_⟩
  · refine layout.circle.1.congr (fun _ _ _ => rfl) (fun q member => Function.update_of_ne ?_ _ _)
      layout.distinct
    obtain ⟨b, inside, rfl⟩ := List.mem_map.mp member
    exact other b (List.mem_append_left _ inside)
  · exact (Function.update_of_ne base_ne _ _).trans layout.empty
  · have same : (fun a => Given h.memory a ∨ Inside HEADER (hp, nu) a) = Given ((hp, n) :: h.memory) := by
      funext a
      simp only [Given, List.exists_mem_cons_iff, Inside, stop, bytes, or_comm]
    exact same ▸ (layout.tiles.add positive under).perm moved
  · rcases List.mem_cons.mp member with rfl | member
    · exact Function.update_self ..
    · exact (Function.update_of_ne (other b (List.mem_append_right _ member)) _ _).trans (layout.sizes b member)
  · rcases List.mem_cons.mp (moved.symm.mem_iff.mp member) with rfl | member
    · exact Nat.le_trans low start
    · exact layout.above b member
  · rcases List.mem_cons.mp (moved.symm.mem_iff.mp member) with rfl | member
    · exact ends
    · exact Nat.le_trans (layout.below b member) up

/-- Nothing changes where `sbrk` fails. -/
theorem Layout.refused {t t' : Nat} (layout : Layout base h free used t) (env : E) (up : t ≤ t') :
    Layout base { h with env } free used t' :=
  { layout with below := fun b member => Nat.le_trans (layout.below b member) up }

theorem morecore_layout (extend : Extends program valid top) (room : Room program valid top)
    (layout : Layout program.base h free used (top h.env)) (ready : Ready program valid top h.env)
    (small : nunits * HEADER < 2 ^ 31) {turns : Nat} (enough : free.length < turns) :
    ∃ q h', morecore program turns nunits h = some (q, h') ∧ Ready program valid top h'.env ∧
      ((q = 0 ∧ Layout program.base h' free used (top h'.env)) ∨
        (q = h'.freep ∧ ∃ rest, Layout program.base h' rest used (top h'.env) ∧ (∃ b ∈ rest, nunits ≤ b.2) ∧
          rest.length ≤ free.length + 1)) := by
  obtain ⟨nu, same, more, positive, fits⟩ : ∃ nu, (if nunits < 4096 then 4096 else nunits) = nu ∧ nunits ≤ nu ∧
      0 < nu ∧ nu * HEADER < 2 ^ 31 := by
    refine ⟨_, rfl, ?_⟩
    unfold HEADER at *
    split <;> omega
  have bytes : (Int32.ofNat (nu * HEADER)).toInt = (nu * HEADER : Nat) := Int32.toInt_ofNat_of_lt fits
  have plus : 0 < (Int32.ofNat (nu * HEADER)).toInt := by
    rw [bytes]
    exact Int.natCast_pos.mpr (Nat.mul_pos positive (by decide))
  unfold morecore
  dsimp only
  rw [same]
  rcases asked : program.sbrk (Int32.ofNat (nu * HEADER)) h.env with ⟨_ | hp, env⟩
  · obtain ⟨still, up⟩ := extend.fails _ _ _ ready.valid plus asked
    exact ⟨0, { h with env }, rfl, ⟨still, Nat.le_trans ready.low up⟩, .inl ⟨rfl, layout.refused env up⟩⟩
  · obtain ⟨still, start, ends⟩ := extend.grows _ _ _ _ ready.valid plus asked
    rw [bytes, Int.toNat_natCast, Nat.mul_comm] at ends
    have given := layout.given env positive ready.low start ends (n := (Int32.ofNat (nu * HEADER)).toInt.toNat) (by
      rw [bytes, Int.toNat_natCast, Nat.mul_comm])
    obtain ⟨h', rest, freed, after, -, same, ⟨b, member, large⟩, count⟩ := free_layout given (room env still) enough
    have envs : h'.env = env := same
    refine ⟨h'.freep, h', ?_, ?_, .inr ⟨rfl, rest, envs ▸ after, ⟨b, member, Nat.le_trans more large⟩, count⟩⟩
    · exact Option.bind_eq_some_iff.mpr ⟨h', freed, rfl⟩
    · rw [envs]
      exact ⟨still, Nat.le_trans ready.low (Nat.le_trans start (Nat.le_trans (Nat.le_add_right _ _) ends))⟩

/-- What a call of `malloc` that asks for so many units comes to: nothing, or a block in use. -/
def Served (base top nunits : Nat) (h : Heap E) (used : List (Nat × Nat)) (q : Nat) : Prop :=
  (q = 0 ∧ ∃ free, Layout base h free used top) ∨
    ∃ free x, q = x + HEADER ∧ Layout base h free ((x, nunits) :: used) top

/-- A search that finds a block serves the call. -/
theorem Layout.found {t q : Nat} (layout : Layout base h free used t) (positive : 0 < nunits)
    (member : q ∈ nodes base free) (large : nunits ≤ h.size (h.ptr q)) :
    Served base t nunits (take nunits q (h.ptr q) h).2 used (take nunits q (h.ptr q) h).1 ∧
      (take nunits q (h.ptr q) h).2.env = h.env := by
  have inner : h.ptr q ≠ base := by
    intro same
    rw [same, layout.empty] at large
    exact absurd positive (Nat.not_lt_of_le large)
  obtain ⟨before, b, behind, rfl, last, next⟩ := layout.circle.split_after member inner
  rw [next, layout.follows.1] at large
  obtain ⟨h', rest, x, taken, after, -, env⟩ := take_layout layout positive large
  rw [next, ← last, taken]
  exact ⟨.inr ⟨rest, x, rfl, after⟩, env⟩

/-- From `freep` the search comes to a large enough block or sees them all. -/
theorem Layout.search (program : Program E) {t turns : Nat} (layout : Layout base h free used t)
    (positive : 0 < nunits)
    (enough : free.length < turns) :
    (∃ q h', mallocFrom program nunits turns h.freep (h.ptr h.freep) h = some (q, h') ∧
        Served base t nunits h' used q ∧ h'.env = h.env) ∨
      (∀ p ∈ nodes base free, h.size p < nunits) ∧ ∃ left, turns = left + free.length + 1 ∧
        mallocFrom program nunits turns h.freep (h.ptr h.freep) h = refill program nunits left h := by
  obtain ⟨l, leads, count, perm⟩ := layout.circle.rotate layout.rover
  have away : h.freep ∉ starts l := (List.nodup_cons.mp (perm.nodup_iff.mpr layout.distinct)).1
  rw [← count] at enough
  rcases mallocFrom_search program leads away enough with
    ⟨q, member, large, result⟩ | ⟨none, left, spent, result⟩
  · obtain ⟨served, env⟩ := layout.found positive (perm.mem_iff.mp member) large
    exact .inl ⟨_, _, result, served, env⟩
  · exact .inr ⟨fun p member => none p (perm.mem_iff.mpr member), left, count ▸ spent, result⟩

/-- `malloc` returns, with nothing or with a block. -/
theorem mallocFrom_layout (extend : Extends program valid top) (room : Room program valid top)
    (layout : Layout program.base h free used (top h.env)) (ready : Ready program valid top h.env)
    (positive : 0 < nunits) (small : nunits * HEADER < 2 ^ 31) {turns : Nat}
      (enough : 2 * free.length + 4 < turns) :
    ∃ q h', mallocFrom program nunits turns h.freep (h.ptr h.freep) h = some (q, h') ∧
      Served program.base (top h'.env) nunits h' used q ∧ Ready program valid top h'.env := by
  rcases layout.search program positive (show free.length < turns by omega) with
    ⟨q, h', result, served, env⟩ | ⟨-, left, spent, result⟩
  · exact ⟨q, h', result, env ▸ served, env ▸ ready⟩
  · obtain ⟨q, h₁, grown, up, ⟨rfl, after⟩ | ⟨rfl, rest, after, ⟨b, member, large⟩, count⟩⟩ :=
      morecore_layout extend room layout ready small (show free.length < left by omega)
    · refine ⟨0, h₁, ?_, .inl ⟨rfl, free, after⟩, up⟩
      rw [result, refill, grown]
      rfl
    · have here : h₁.freep ≠ 0 := by
        have above : ∀ p ∈ nodes program.base rest, program.base ≤ p := fun p inside => by
          rcases List.mem_cons.mp inside with rfl | inside
          · exact Nat.le_refl _
          · obtain ⟨c, within, rfl⟩ := List.mem_map.mp inside
            exact Nat.le_trans (Nat.le_add_right _ _) (after.above c (List.mem_append_left _ within))
        exact Nat.ne_of_gt (Nat.lt_of_lt_of_le extend.somewhere (above _ after.rover))
      have again : refill program nunits left h =
          mallocFrom program nunits left h₁.freep (h₁.ptr h₁.freep) h₁ := by
        rw [refill, grown]
        exact if_neg here
      rcases after.search program positive (show rest.length < left by omega) with
        ⟨q, h', last, served, env⟩ | ⟨none, -⟩
      · exact ⟨q, h', (result.trans again).trans last, env ▸ served, env ▸ up⟩
      · have short := none b.1 (List.mem_cons_of_mem _ (List.mem_map_of_mem member))
        rw [after.circle.1.value_of member] at short
        exact absurd large (Nat.not_le_of_lt short)

end Growing

end PaddleOs.Malloc
