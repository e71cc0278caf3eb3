import PaddleOs.MallocLayout

/-!
`free` puts the block into the circle where its address belongs, and joins it to its neighbours where
they touch.
-/

namespace PaddleOs.Malloc

open Foundation.CircularList Foundation.Tiling

variable {E : Type} {h : Heap E} {base top p : Nat} {free used before behind : List (Nat × Nat)}
variable {x a : Nat × Nat}

section Links

theorem uint32_fits {n : Nat} (fits : n < 2 ^ 32) : uint32 n = n := Nat.mod_eq_of_lt fits

theorem linkNext_other {bp q : Nat} (other : q ≠ bp) :
    (linkNext h bp p).ptr q = h.ptr q ∧ (linkNext h bp p).size q = h.size q := by
  unfold linkNext
  split
  · exact ⟨Function.update_of_ne other _ _, Function.update_of_ne other _ _⟩
  · exact ⟨Function.update_of_ne other _ _, rfl⟩

theorem linkPrev_other {bp q : Nat} (other : q ≠ p) :
    (linkPrev h bp p).ptr q = h.ptr q ∧ (linkPrev h bp p).size q = h.size q := by
  unfold linkPrev
  split
  · exact ⟨Function.update_of_ne other _ _, Function.update_of_ne other _ _⟩
  · exact ⟨Function.update_of_ne other _ _, rfl⟩

theorem linkNext_rest (bp : Nat) : (linkNext h bp p).memory = h.memory ∧ (linkNext h bp p).env = h.env := by
  unfold linkNext
  split
  · exact ⟨rfl, rfl⟩
  · exact ⟨rfl, rfl⟩

theorem linkPrev_rest (bp : Nat) : (linkPrev h bp p).memory = h.memory ∧ (linkPrev h bp p).env = h.env := by
  unfold linkPrev
  split
  · exact ⟨rfl, rfl⟩
  · exact ⟨rfl, rfl⟩

/-- After the first step the block, joined to the next one or not, leads to the blocks behind it. -/
theorem linkNext_leads (leads : Leads h.ptr h.size p behind base) (block : h.size x.1 = x.2) (high : base < x.1)
    (fresh : x.1 ∉ starts behind) (fits : ∀ b ∈ glue HEADER x behind, b.2 < 2 ^ 32) :
    ∃ n rest, glue HEADER x behind = (x.1, n) :: rest ∧ (linkNext h x.1 p).size x.1 = n ∧
      Leads (linkNext h x.1 p).ptr (linkNext h x.1 p).size x.1 rest base := by
  cases behind with
  | nil =>
      have next : h.ptr p = base := leads.2
      have apart : x.1 + HEADER * h.size x.1 ≠ h.ptr p := by
        rw [next]
        exact Nat.ne_of_gt (Nat.lt_of_lt_of_le high (Nat.le_add_right _ _))
      unfold linkNext
      rw [if_neg apart]
      refine ⟨x.2, [], rfl, block, trivial, ?_⟩
      exact (Function.update_self x.1 _ h.ptr).trans next
  | cons c rest =>
      obtain ⟨next, size, tail⟩ := leads_cons.mp leads
      obtain ⟨other, fresh⟩ : x.1 ≠ c.1 ∧ x.1 ∉ starts rest :=
        ⟨fun same => fresh (same ▸ List.mem_cons_self), fun member => fresh (List.mem_cons_of_mem _ member)⟩
      have away : ∀ q ∈ starts rest, q ≠ x.1 := fun q member same => fresh (same ▸ member)
      unfold linkNext
      rw [glue_cons] at fits ⊢
      rw [next, block, size]
      by_cases touch : stop HEADER x = c.1
      · rw [if_pos touch] at fits ⊢
        rw [if_pos (show x.1 + HEADER * x.2 = c.1 from touch), uint32_fits (fits _ List.mem_cons_self)]
        refine ⟨x.2 + c.2, rest, rfl, Function.update_self .., ?_⟩
        exact tail.restart (Function.update_self ..) (fun q member => Function.update_of_ne (away q member) _ _)
          fun q member => Function.update_of_ne (away q member) _ _
      · rw [if_neg touch, if_neg (show ¬ x.1 + HEADER * x.2 = c.1 from touch)]
        refine ⟨x.2, c :: rest, rfl, block, leads_cons.mpr ⟨Function.update_self .., size, ?_⟩⟩
        exact tail.restart (Function.update_of_ne (Ne.symm other) _ _)
          (fun q member => Function.update_of_ne (away q member) _ _) fun _ _ => rfl

/-- The block is the first of all. -/
theorem linkPrev_head (empty : h.size base = 0) (high : base < x.1) (block : h.size x.1 = x.2)
    (leads : Leads h.ptr h.size x.1 behind base) (fresh : base ∉ starts behind) :
    Circle (linkPrev h x.1 base).ptr (linkPrev h x.1 base).size base (x :: behind) := by
  have apart : base + HEADER * h.size base ≠ x.1 := by
    rw [empty]
    exact Nat.ne_of_lt high
  unfold linkPrev
  rw [if_neg apart]
  refine leads_cons.mpr ⟨Function.update_self .., block, ?_⟩
  refine leads.restart (Function.update_of_ne (Nat.ne_of_gt high) _ _) (fun q member => ?_) fun _ _ => rfl
  exact Function.update_of_ne (fun same : q = base => fresh (same ▸ member)) _ _

/-- The block comes behind `a`. -/
theorem linkPrev_block (chain : Chain h.ptr h.size base (before ++ [a])) (block : h.size x.1 = x.2)
    (leads : Leads h.ptr h.size x.1 behind base) (distinct : (nodes base (before ++ a :: x :: behind)).Nodup)
    (fits : ∀ b ∈ glue HEADER a (x :: behind), b.2 < 2 ^ 32) :
    Circle (linkPrev h x.1 a.1).ptr (linkPrev h x.1 a.1).size base (before ++ glue HEADER a (x :: behind)) := by
  have whole : nodes base (before ++ a :: x :: behind) =
    nodes base before ++ (a.1 :: x.1 :: starts behind) := by
    rw [nodes_append]
    rfl
  rw [whole] at distinct
  obtain ⟨front, back, apart⟩ := List.nodup_append.mp distinct
  obtain ⟨first, -⟩ := List.nodup_cons.mp back
  obtain ⟨-, size, -⟩ : h.ptr (lastNode base before) = a.1 ∧ h.size a.1 = a.2 ∧ True :=
    (chain_append.mp chain).2
  have early : ∀ q ∈ nodes base before, q ≠ a.1 := fun q member => apart q member a.1 List.mem_cons_self
  have late : ∀ q ∈ starts behind, q ≠ a.1 := fun q member same => first (same ▸ List.mem_cons_of_mem _ member)
  have other : x.1 ≠ a.1 := fun same => first (same ▸ List.mem_cons_self)
  obtain ⟨start, follows, -⟩ := chain_append.mp chain
  refine leads_append.mpr ⟨start.congr (fun q member _ => (linkPrev_other (early q member)).1)
    (fun q member => (linkPrev_other (early q (List.mem_cons_of_mem _ member))).2) front, ?_⟩
  have next : (linkPrev h x.1 a.1).ptr (lastNode base before) = a.1 :=
    (linkPrev_other (early _ (lastNode_mem base before))).1.trans follows
  have same : ∀ q ∈ starts behind,
      (linkPrev h x.1 a.1).ptr q = h.ptr q ∧ (linkPrev h x.1 a.1).size q = h.size q :=
    fun q member => linkPrev_other (late q member)
  rw [glue_cons] at fits ⊢
  by_cases touch : stop HEADER a = x.1
  · rw [if_pos touch] at fits ⊢
    have joined : a.1 + HEADER * h.size a.1 = x.1 := size.symm ▸ touch
    refine leads_cons.mpr ⟨next, ?_,
      leads.restart ?_ (fun q member => (same q member).1) fun q member => (same q member).2⟩
    · unfold linkPrev
      rw [if_pos joined, size, block, uint32_fits (fits _ List.mem_cons_self)]
      exact Function.update_self ..
    · unfold linkPrev
      rw [if_pos joined]
      exact Function.update_self ..
  · rw [if_neg touch]
    have gap : ¬ a.1 + HEADER * h.size a.1 = x.1 := size.symm ▸ touch
    refine leads_cons.mpr ⟨next, ?_, leads_cons.mpr ⟨?_, (linkPrev_other other).2.trans block,
      leads.restart (linkPrev_other other).1 (fun q member => (same q member).1)
        fun q member => (same q member).2⟩⟩
    · unfold linkPrev
      rw [if_neg gap]
      exact size
    · unfold linkPrev
      rw [if_neg gap]
      exact Function.update_self ..

end Links

section Freeing

theorem Layout.block (layout : Layout base h free (x :: used) top) :
    h.size x.1 = x.2 ∧ 0 < x.2 ∧ base + HEADER ≤ x.1 ∧ stop HEADER x ≤ top :=
  ⟨layout.sizes x List.mem_cons_self,
    layout.tiles.positive x (List.mem_append_right _ List.mem_cons_self),
    layout.above x (List.mem_append_right _ List.mem_cons_self),
    layout.below x (List.mem_append_right _ List.mem_cons_self)⟩

theorem Layout.apart (layout : Layout base h free (x :: used) top) : ∀ b ∈ free, Apart HEADER x b := by
  intro b member
  obtain ⟨-, -, across⟩ := List.pairwise_append.mp layout.tiles.apart
  exact (across b member x List.mem_cons_self).symm

/-- The place of a block between the free ones. -/
theorem Layout.place (layout : Layout base h free (x :: used) top) :
    ∃ before behind, free = before ++ behind ∧ (∀ b ∈ before, stop HEADER b ≤ x.1) ∧
      ∀ b ∈ behind, stop HEADER x ≤ b.1 := by
  obtain ⟨before, behind, rfl, lower, higher⟩ := split_at x.1
    (layout.sorted.imp_of_mem fun {b c} left _ order => sorted_lt (layout.positive b left) order)
  refine ⟨before, behind, rfl, fun b member => ?_, fun b member => ?_⟩
  · rcases layout.apart b (List.mem_append_left _ member) with past | under
    · have first := lower b member
      have width := start_lt_stop (u := HEADER) (by decide) layout.block.2.1
      omega
    · exact under
  · rcases layout.apart b (List.mem_append_right _ member) with past | under
    · exact past
    · have first := higher b member
      have width := start_lt_stop (u := HEADER) (by decide) (layout.positive b (List.mem_append_right _ member))
      omega

/-- The blocks once the one at its place is free. -/
theorem Layout.released {h' : Heap E} (layout : Layout base h (before ++ behind) (x :: used) top)
    (lower : ∀ b ∈ before, stop HEADER b ≤ x.1) (higher : ∀ b ∈ behind, stop HEADER x ≤ b.1)
    (circle : Circle h'.ptr h'.size base (merge HEADER (before ++ x :: behind))) (empty : h'.size base = 0)
    (rover : h'.freep ∈ nodes base (merge HEADER (before ++ x :: behind))) (memory : h'.memory = h.memory)
    (sizes : ∀ b ∈ used, h'.size b.1 = h.size b.1) :
    Layout base h' (merge HEADER (before ++ x :: behind)) used top := by
  have moved : (before ++ behind ++ x :: used).Perm (before ++ x :: behind ++ used) := by
    rw [List.append_assoc, List.append_assoc]
    exact List.perm_middle.append_left before
  obtain ⟨front, back, across⟩ := List.pairwise_append.mp layout.sorted
  have touch : (before ++ x :: behind).Pairwise fun b c => stop HEADER b ≤ c.1 := by
    refine List.pairwise_append.mpr ⟨front.imp Nat.le_of_lt,
      List.pairwise_cons.mpr ⟨higher, back.imp Nat.le_of_lt⟩, ?_⟩
    intro b member c inside
    rcases List.mem_cons.mp inside with rfl | inside
    · exact lower b member
    · exact Nat.le_of_lt (across b member c inside)
  have all : ∀ c ∈ before ++ x :: behind, c ∈ before ++ behind ++ x :: used := fun c member =>
    moved.mem_iff.mpr (List.mem_append_left _ member)
  have others : ∀ c ∈ used, c ∈ before ++ behind ++ x :: used := fun c member =>
    List.mem_append_right _ (List.mem_cons_of_mem _ member)
  refine ⟨circle, empty, rover, merge_clear touch, ?_,
    fun b member => ?_, fun b member => ?_, fun b member => ?_⟩
  · rw [memory]
    exact (layout.tiles.perm moved).merge (by decide)
  · rw [sizes b member]
    exact layout.sizes b (List.mem_cons_of_mem _ member)
  · rcases List.mem_append.mp member with member | member
    · obtain ⟨⟨c, inside, same⟩, -⟩ := mem_merge member
      exact same ▸ layout.above c (all c inside)
    · exact layout.above b (others b member)
  · rcases List.mem_append.mp member with member | member
    · obtain ⟨-, ⟨c, inside, same⟩⟩ := mem_merge member
      exact same ▸ layout.below c (all c inside)
    · exact layout.below b (others b member)

/-- A block has less than `2 ^ 32` units where all memory lies within `2 ^ 36` bytes. -/
theorem Layout.small {b : Nat × Nat} (layout : Layout base h (before ++ behind) (x :: used) top)
    (room : top ≤ base + 2 ^ 36) (ends : (∃ c ∈ before ++ x :: behind, c.1 = b.1) ∧
      ∃ c ∈ before ++ x :: behind, stop HEADER c = stop HEADER b) : b.2 < 2 ^ 32 := by
  have all : ∀ c ∈ before ++ x :: behind, c ∈ before ++ behind ++ x :: used := fun c inside => by
    simp only [List.mem_append, List.mem_cons] at inside ⊢
    tauto
  obtain ⟨⟨c, first, begins⟩, ⟨d, last, ends⟩⟩ := ends
  have low := layout.above c (all c first)
  have high := layout.below d (all d last)
  rw [begins] at low
  rw [ends] at high
  unfold stop HEADER at high
  unfold HEADER at low
  omega

/-- The search of `free` ends at the node behind which the block belongs. -/
theorem Layout.sought (layout : Layout base h (before ++ behind) (x :: used) top)
    (lower : ∀ b ∈ before, stop HEADER b ≤ x.1) (higher : ∀ b ∈ behind, stop HEADER x ≤ b.1) {turns : Nat}
    (enough : (before ++ behind).length < turns) :
    seek h.ptr (between h x.1) turns h.freep = some (lastNode base before) := by
  have width := start_lt_stop (u := HEADER) (by decide) layout.block.2.1
  have high : base < x.1 := Nat.lt_of_lt_of_le (Nat.lt_add_of_pos_right (by decide)) layout.block.2.2.1
  obtain ⟨i, bound, here⟩ := mem_node layout.rover
  have found := seek_finds layout.circle (k := before.length) (by simp)
    (fun j inside => between_iff layout.circle layout.ascending high
      (fun b member => Nat.lt_of_lt_of_le
        (start_lt_stop (by decide) (layout.positive b (List.mem_append_left _ member)))
        (lower b member))
      (fun b member => Nat.lt_of_lt_of_le width (higher b member)) inside) bound enough
  rw [here, node_front base before behind (Nat.le_refl _), node_last] at found
  exact found

/-- The nodes with the block among them. -/
theorem Layout.order (layout : Layout base h (before ++ behind) (x :: used) top)
    (lower : ∀ b ∈ before, stop HEADER b ≤ x.1) (higher : ∀ b ∈ behind, stop HEADER x ≤ b.1) :
    (nodes base (before ++ x :: behind)).Pairwise (· < ·) := by
  obtain ⟨-, positive, above, -⟩ := layout.block
  have old := layout.ascending
  rw [nodes_append] at old ⊢
  obtain ⟨left, right, across⟩ := List.pairwise_append.mp old
  have late : ∀ q ∈ starts behind, x.1 < q := fun q member => by
    obtain ⟨b, inside, rfl⟩ := List.mem_map.mp member
    exact Nat.lt_of_lt_of_le (start_lt_stop (by decide) positive) (higher b inside)
  refine List.pairwise_append.mpr ⟨left, List.pairwise_cons.mpr ⟨late, right⟩, fun q member r inside => ?_⟩
  rcases List.mem_cons.mp inside with rfl | inside
  · rcases List.mem_cons.mp member with rfl | member
    · exact Nat.lt_of_lt_of_le (Nat.lt_add_of_pos_right (by decide)) above
    · obtain ⟨b, within, rfl⟩ := List.mem_map.mp member
      exact Nat.lt_of_lt_of_le (start_lt_stop (by decide) (layout.positive b (List.mem_append_left _ within)))
        (lower b within)
  · exact across q member r inside

/-- The two steps of `free` behind its search. -/
theorem Layout.linked (layout : Layout base h (before ++ behind) (x :: used) top) (room : top ≤ base + 2 ^ 36)
    (lower : ∀ b ∈ before, stop HEADER b ≤ x.1) (higher : ∀ b ∈ behind, stop HEADER x ≤ b.1) (p : Nat)
    (last : lastNode base before = p) :
    Circle (linkPrev (linkNext h x.1 p) x.1 p).ptr (linkPrev (linkNext h x.1 p) x.1 p).size base
        (merge HEADER (before ++ x :: behind)) ∧
      (linkPrev (linkNext h x.1 p) x.1 p).size base = 0 ∧
        p ∈ nodes base (merge HEADER (before ++ x :: behind)) := by
  obtain ⟨block, positive, above, -⟩ := layout.block
  have high : base < x.1 := Nat.lt_of_lt_of_le (Nat.lt_add_of_pos_right (by decide)) above
  have distinct : (nodes base (before ++ x :: behind)).Nodup := (layout.order lower higher).imp Nat.ne_of_lt
  have absent : base ∉ starts (before ++ x :: behind) := (List.nodup_cons.mp distinct).1
  obtain ⟨first, second⟩ := leads_append.mp layout.circle
  rw [last] at second
  have tail : merge HEADER (x :: behind) = glue HEADER x behind := by
    rw [merge_cons, merge_self (List.pairwise_append.mp layout.sorted).2.1]
  have fresh : x.1 ∉ starts behind ∧ ∀ q ∈ nodes base before, q ≠ x.1 := by
    rw [nodes_append] at distinct
    obtain ⟨-, back, across⟩ := List.nodup_append.mp distinct
    exact ⟨(List.nodup_cons.mp back).1, fun q member => across q member x.1 List.mem_cons_self⟩
  obtain ⟨n, rest, whole, size, follows⟩ := linkNext_leads second block high fresh.1 fun b member => by
    obtain ⟨⟨c, first, begins⟩, ⟨d, last, ends⟩⟩ := mem_glue member
    exact layout.small room ⟨⟨c, List.mem_append_right _ first, begins⟩,
      ⟨d, List.mem_append_right _ last, ends⟩⟩
  have suffix := glue_suffix whole
  rcases List.eq_nil_or_concat before with rfl | ⟨init, a, rfl⟩
  · obtain rfl : base = p := last
    have less : ∀ q ∈ starts rest, q ∈ starts behind := (suffix.sublist.map Prod.fst).subset
    have empty : (linkNext h x.1 base).size base = 0 :=
      (linkNext_other (Nat.ne_of_lt high)).2.trans layout.empty
    have apart : ¬ base + HEADER * (linkNext h x.1 base).size base = x.1 := by
      rw [empty]
      exact Nat.ne_of_lt high
    rw [List.nil_append, tail, whole]
    refine ⟨linkPrev_head (x := (x.1, n)) empty high size follows
      fun member => absent (List.mem_cons_of_mem _ (less base member)), ?_, List.mem_cons_self⟩
    unfold linkPrev
    rw [if_neg apart]
    exact empty
  · rw [List.concat_eq_append] at *
    obtain rfl : a.1 = p := by
      rw [← last, lastNode_append]
      rfl
    obtain ⟨left, -, across⟩ := List.pairwise_append.mp (List.pairwise_append.mp layout.sorted).1
    have last : a ∈ init ++ [a] := List.mem_append_right _ List.mem_cons_self
    have ahead : ∀ b ∈ init, ∀ c ∈ a :: x :: behind, stop HEADER b < c.1 := by
      intro b member c inside
      have gap := across b member a List.mem_cons_self
      have width := start_lt_stop (u := HEADER) (by decide) (layout.positive a (List.mem_append_left _ last))
      have under := lower a last
      have own := start_lt_stop (u := HEADER) (by decide) positive
      rcases List.mem_cons.mp inside with rfl | inside
      · exact gap
      · rcases List.mem_cons.mp inside with rfl | inside
        · omega
        · have past := higher c inside
          omega
    have split : merge HEADER (init ++ [a] ++ x :: behind) = init ++ glue HEADER a ((x.1, n) :: rest) := by
      rw [List.append_assoc, List.singleton_append, merge_append left ahead, merge_cons, tail, whole]
    have chain : Chain (linkNext h x.1 a.1).ptr (linkNext h x.1 a.1).size base (init ++ [a]) := by
      refine first.congr (fun q member _ => (linkNext_other (fresh.2 q member)).1)
        (fun q member => (linkNext_other (fresh.2 q (List.mem_cons_of_mem _ member))).2) ?_
      rw [nodes_append] at distinct
      exact (List.nodup_append.mp distinct).1
    have fewer : (nodes base (init ++ a :: (x.1, n) :: rest)).Sublist
      (nodes base (init ++ [a] ++ x :: behind)) := by
      simpa [nodes, starts] using suffix.sublist.map Prod.fst
    have other : base ≠ a.1 ∧ base ≠ x.1 := by
      simp only [starts, List.mem_map, List.mem_append, List.mem_cons, not_exists, not_and] at absent
      exact ⟨Ne.symm (absent a (.inl (.inr (.inl rfl)))), Ne.symm (absent x (.inr (.inl rfl)))⟩
    have small : ∀ b ∈ glue HEADER a ((x.1, n) :: rest), b.2 < 2 ^ 32 := fun b member =>
      layout.small room (mem_merge (split ▸ List.mem_append_right _ member))
    rw [split]
    refine ⟨linkPrev_block (x := (x.1, n)) chain size follows (fewer.nodup distinct) small, ?_, ?_⟩
    · rw [(linkPrev_other other.1).2, (linkNext_other other.2).2]
      exact layout.empty
    · obtain ⟨m, others, same, -⟩ := glue_starts (u := HEADER) a ((x.1, n) :: rest)
      rw [same, nodes_append]
      exact List.mem_append_right _ List.mem_cons_self

/-- `free` leaves the allocator in order, with the block among the free ones. -/
theorem free_layout (layout : Layout base h free (x :: used) top) (room : top ≤ base + 2 ^ 36) {turns : Nat}
    (enough : free.length < turns) :
    ∃ h' rest, Malloc.free turns (x.1 + HEADER) h = some h' ∧ Layout base h' rest used top ∧
      h'.memory = h.memory ∧ h'.env = h.env ∧ (∃ b ∈ rest, x.2 ≤ b.2) ∧ rest.length ≤ free.length + 1 := by
  obtain ⟨before, behind, rfl, lower, higher⟩ := layout.place
  have memory : (linkPrev (linkNext h x.1 (lastNode base before)) x.1 (lastNode base before)).memory =
    h.memory :=
    (linkPrev_rest x.1).1.trans (linkNext_rest x.1).1
  have same : ∀ b ∈ used,
      (linkPrev (linkNext h x.1 (lastNode base before)) x.1 (lastNode base before)).size b.1 = h.size b.1 := by
    intro b member
    have away := layout.away b (List.mem_cons_of_mem _ member)
    rw [nodes_append] at away
    have other : b.1 ≠ lastNode base before := fun same =>
      away (List.mem_append_left _ (same ▸ lastNode_mem base before))
    exact (linkPrev_other other).2.trans (linkNext_other (layout.other b member)).2
  obtain ⟨circle, empty, rover⟩ := layout.linked room lower higher _ rfl
  refine ⟨{ linkPrev (linkNext h x.1 (lastNode base before)) x.1 (lastNode base before) with
      freep := lastNode base before }, merge HEADER (before ++ x :: behind), ?_,
      layout.released lower higher circle empty rover memory same, memory,
      (linkPrev_rest x.1).2.trans (linkNext_rest x.1).2,
      merge_covers (List.mem_append_right _ List.mem_cons_self), ?_⟩
  · simp only [Malloc.free, Nat.add_sub_cancel, layout.sought lower higher enough]
    rfl
  · refine Nat.le_trans (merge_length _) (Nat.le_of_eq ?_)
    simp only [List.length_append, List.length_cons, Nat.add_assoc]

end Freeing

end PaddleOs.Malloc
