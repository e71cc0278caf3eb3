import Mathlib.Logic.Function.Basic
import Mathlib.Data.List.GetD

/-!
Circular lists that are linked one way and carry a value at each node. The head has no value of its
own. Nothing here names a particular program.
-/

namespace Foundation.CircularList

variable {α β : Type} {next next' : α → α} {value value' : α → β}
variable {head p o x y : α} {v w : β} {l l' : List (α × β)}

/-- The nodes of the list follow each other from `p` on. -/
def Chain (next : α → α) (value : α → β) : α → List (α × β) → Prop
  | _, [] => True
  | p, (b :: l) => next p = b.1 ∧ value b.1 = b.2 ∧ Chain next value b.1 l

/-- The last node from `p` on. -/
def lastNode : α → List (α × β) → α
  | p, [] => p
  | _, (b :: l) => lastNode b.1 l

/-- The nodes follow each other from `p` on, and after them comes `head`. -/
def Leads (next : α → α) (value : α → β) (p : α) (l : List (α × β)) (head : α) : Prop :=
  Chain next value p l ∧ next (lastNode p l) = head

abbrev Circle (next : α → α) (value : α → β) (head : α) (l : List (α × β)) : Prop :=
    Leads next value head l head

def starts (l : List (α × β)) : List α := l.map Prod.fst

/-- All nodes, the head first. -/
def nodes (head : α) (l : List (α × β)) : List α := head :: starts l

section Parts

theorem lastNode_append (p : α) (l l' : List (α × β)) : lastNode p (l ++ l') = lastNode (lastNode p l) l' := by
  induction l generalizing p with
  | nil => rfl
  | cons b l ih => exact ih b.1

theorem chain_append : Chain next value p (l ++ l') ↔
    Chain next value p l ∧ Chain next value (lastNode p l) l' := by
  induction l generalizing p with
  | nil => simp [Chain, lastNode]
  | cons b l ih => simp only [List.cons_append, Chain, lastNode, ih, and_assoc]

theorem leads_append : Leads next value p (l ++ l') head ↔
    Chain next value p l ∧ Leads next value (lastNode p l) l' head := by
  unfold Leads
  rw [chain_append, lastNode_append, and_assoc]

theorem leads_cons : Leads next value p ((x, v) :: l) head ↔
    next p = x ∧ value x = v ∧ Leads next value x l head := by
  unfold Leads
  simp only [Chain, lastNode, and_assoc]

theorem lastNode_mem (p : α) (l : List (α × β)) : lastNode p l ∈ nodes p l := by
  induction l generalizing p with
  | nil => exact List.mem_cons_self
  | cons b l ih => exact List.mem_cons_of_mem _ (ih b.1)

theorem nodes_append (head : α) (l l' : List (α × β)) : nodes head (l ++ l') = nodes head l ++ starts l' := by
  simp [nodes, starts]

theorem Chain.value_of (chain : Chain next value p l) {b : α × β} (member : b ∈ l) : value b.1 = b.2 := by
  induction l generalizing p with
  | nil => cases member
  | cons c l ih =>
      rcases List.mem_cons.mp member with rfl | member
      · exact chain.2.1
      · exact ih chain.2.2 member

/-- A chain reads the pointers of all nodes but the last and the values of all but the first. -/
theorem Chain.congr (chain : Chain next value p l)
    (same : ∀ q ∈ nodes p l, q ≠ lastNode p l → next' q = next q)
    (values : ∀ q ∈ starts l, value' q = value q) (distinct : (nodes p l).Nodup) : Chain next' value' p l := by
  induction l generalizing p with
  | nil => trivial
  | cons b l ih =>
      obtain ⟨follows, here, rest⟩ := chain
      have apart : p ∉ nodes b.1 l := (List.nodup_cons.mp distinct).1
      have first : p ≠ lastNode b.1 l := fun equal => apart (equal ▸ lastNode_mem b.1 l)
      refine ⟨(same p List.mem_cons_self first).trans follows, (values b.1 List.mem_cons_self).trans here, ?_⟩
      exact ih rest (fun q member => same q (List.mem_cons_of_mem _ member))
        (fun q member => values q (List.mem_cons_of_mem _ member)) (List.nodup_cons.mp distinct).2

/-- Another node takes the place of the first. -/
theorem Leads.restart (leads : Leads next value o l head) (first : next' x = next o)
    (same : ∀ q ∈ starts l, next' q = next q) (values : ∀ q ∈ starts l, value' q = value q) :
    Leads next' value' x l head := by
  induction l generalizing o x with
  | nil => exact ⟨trivial, first.trans leads.2⟩
  | cons b l ih =>
      obtain ⟨follows, here, rest⟩ := leads_cons.mp leads
      refine leads_cons.mpr ⟨first.trans follows, (values b.1 List.mem_cons_self).trans here, ?_⟩
      exact ih rest (same b.1 List.mem_cons_self) (fun q member => same q (List.mem_cons_of_mem _ member))
        fun q member => values q (List.mem_cons_of_mem _ member)

end Parts

section Changes

/-- What stands behind the front of a circle is replaced: the last node of the front gets a new
pointer. -/
theorem Leads.splice {back back' : List (α × β)} (circle : Circle next value head (l ++ back))
    (distinct : (nodes head l).Nodup) (same : ∀ q ∈ nodes head l, q ≠ lastNode head l → next' q = next q)
    (values : ∀ q ∈ starts l, value' q = value q) (rest : Leads next' value' (lastNode head l) back' head) :
    Circle next' value' head (l ++ back') :=
  leads_append.mpr ⟨(leads_append.mp circle).1.congr same values distinct, rest⟩

/-- The circle as its node `x` sees it. -/
theorem Leads.rotate (circle : Circle next value head l) (member : x ∈ nodes head l) :
    ∃ l', Circle next value x l' ∧ l'.length = l.length ∧ (nodes x l').Perm (nodes head l) := by
  rcases List.mem_cons.mp member with rfl | inside
  · exact ⟨l, circle, rfl, List.Perm.refl _⟩
  · obtain ⟨⟨x, v⟩, within, rfl⟩ := List.mem_map.mp inside
    obtain ⟨front, back, rfl⟩ := List.append_of_mem within
    obtain ⟨first, rest⟩ := leads_append.mp circle
    obtain ⟨follows, -, rest⟩ := leads_cons.mp rest
    refine ⟨back ++ (head, value head) :: front, ?_, ?_, ?_⟩
    · exact leads_append.mpr ⟨rest.1, leads_cons.mpr ⟨rest.2, rfl, first, follows⟩⟩
    · simp only [List.length_append, List.length_cons]
      omega
    · have left : nodes x (back ++ (head, value head) :: front) =
        (x :: starts back) ++ head :: starts front := by
        simp [nodes, starts]
      have right : nodes head (front ++ (x, v) :: back) = (head :: starts front) ++ x :: starts back := by
        simp [nodes, starts]
      rw [left, right]
      exact List.perm_append_comm

end Changes

section Search

/-- The node at an index, the head at 0. -/
def node (head : α) (l : List (α × β)) (i : Nat) : α := (nodes head l).getD i head

/-- The index that follows in a circle of so many nodes and the head. -/
def after (n i : Nat) : Nat := if i < n then i + 1 else 0

theorem node_zero (head : α) (l : List (α × β)) : node head l 0 = head := rfl

theorem node_cons (head : α) (b : α × β) (l : List (α × β)) {i : Nat} (bound : i ≤ l.length) :
    node head (b :: l) (i + 1) = node b.1 l i := by
  have inside : i < (nodes b.1 l).length := by simpa [nodes, starts] using Nat.lt_succ_of_le bound
  change (nodes b.1 l).getD i head = (nodes b.1 l).getD i b.1
  rw [List.getD_eq_getElem _ _ inside, List.getD_eq_getElem _ _ inside]

theorem node_last (head : α) (l : List (α × β)) : node head l l.length = lastNode head l := by
  induction l generalizing head with
  | nil => rfl
  | cons b l ih => rw [List.length_cons, node_cons head b l (Nat.le_refl _), ih, lastNode]

theorem node_mem (head : α) (l : List (α × β)) {i : Nat} (bound : i ≤ l.length) :
    node head l i ∈ nodes head l := by
  have inside : i < (nodes head l).length := by simpa [nodes, starts] using Nat.lt_succ_of_le bound
  unfold node
  rw [List.getD_eq_getElem _ _ inside]
  exact List.getElem_mem inside

/-- Every node has an index. -/
theorem mem_node (member : x ∈ nodes head l) : ∃ i, i ≤ l.length ∧ node head l i = x := by
  obtain ⟨i, inside, here⟩ := List.getElem_of_mem member
  have bound : i ≤ l.length := by simpa [nodes, starts, Nat.lt_succ_iff] using inside
  refine ⟨i, bound, ?_⟩
  unfold node
  rw [List.getD_eq_getElem _ _ inside, here]

theorem node_front (head : α) (l l' : List (α × β)) {i : Nat} (bound : i ≤ l.length) :
    node head (l ++ l') i = node head l i := by
  have inside : i < (nodes head l).length := by simpa [nodes, starts] using Nat.lt_succ_of_le bound
  unfold node
  rw [nodes_append, List.getD_append _ _ _ _ inside]

theorem node_back (head : α) (l l' : List (α × β)) {i : Nat} (behind : l.length < i)
    (bound : i ≤ (l ++ l').length) : node head (l ++ l') i ∈ starts l' := by
  have front : (nodes head l).length ≤ i := by simpa [nodes, starts] using Nat.succ_le_of_lt behind
  have inside : i - (nodes head l).length < (starts l').length := by
    simp only [nodes, starts, List.length_append, List.length_cons, List.length_map] at *
    omega
  unfold node
  rw [nodes_append, List.getD_append_right _ _ _ _ front, List.getD_eq_getElem _ _ inside]
  exact List.getElem_mem inside

theorem chain_next (chain : Chain next value p l) {i : Nat} (bound : i < l.length) :
    next (node p l i) = node p l (i + 1) := by
  induction l generalizing p i with
  | nil => cases bound
  | cons b l ih =>
      have short : i ≤ l.length := Nat.le_of_lt_succ bound
      rw [node_cons p b l short]
      cases i with
      | zero => exact chain.1
      | succ i =>
          rw [node_cons p b l (by omega)]
          exact ih chain.2.2 short

theorem node_next (circle : Circle next value head l) {i : Nat} (bound : i ≤ l.length) :
    next (node head l i) = node head l (after l.length i) := by
  unfold after
  split
  · rename_i below
    exact chain_next circle.1 below
  · obtain rfl : i = l.length := by omega
    rw [node_last, circle.2, node_zero]

/-- A node that does not lead to the head leads to a node of the list. -/
theorem Leads.split_after (circle : Circle next value head l) (member : x ∈ nodes head l)
    (inner : next x ≠ head) :
    ∃ front b back, l = front ++ b :: back ∧ lastNode head front = x ∧ next x = b.1 := by
  obtain ⟨i, bound, rfl⟩ := mem_node member
  have step := node_next circle bound
  unfold after at step
  split at step
  · rename_i more
    have whole : l = l.take i ++ l[i] :: l.drop (i + 1) := by simp
    have short : (l.take i).length = i := List.length_take_of_le bound
    refine ⟨l.take i, l[i], l.drop (i + 1), whole, ?_, ?_⟩
    · rw [← node_last, short, ← node_front head _ (l[i] :: l.drop (i + 1)) (Nat.le_of_eq short.symm), ← whole]
    · have inside : i + 1 < (nodes head l).length := by simpa [nodes, starts] using more
      rw [step, node, List.getD_eq_getElem _ _ inside]
      simp [nodes, starts]
  · exact absurd (step.trans (node_zero head l)) inner

/-- `while (!stop(p)) p = next(p);`, at most `fuel` turns. -/
def seek (next : α → α) (stop : α → Bool) : Nat → α → Option α
  | 0, _ => none
  | fuel + 1, p => if stop p then some p else seek next stop fuel (next p)

/-- More turns change nothing once the search has ended. -/
theorem seek_more {stop : α → Bool} {fuel more : Nat} (found : seek next stop fuel p = some x)
    (enough : fuel ≤ more) :
    seek next stop more p = some x := by
  induction fuel generalizing p more with
  | zero => cases found
  | succ fuel ih =>
      obtain ⟨more, rfl⟩ := Nat.exists_eq_add_of_le' enough
      rw [← Nat.add_assoc, seek] at *
      split
      · rename_i here
        rwa [if_pos here] at found
      · rename_i on
        rw [if_neg on] at found
        exact ih found (Nat.le_add_left _ _)

/-- From every node the search comes to the one where it stops. -/
theorem seek_finds {stop : α → Bool} {k : Nat} (circle : Circle next value head l) (target : k ≤ l.length)
    (stops : ∀ i, i ≤ l.length → (stop (node head l i) = true ↔ i = k)) {i fuel : Nat} (bound : i ≤ l.length)
    (enough : l.length < fuel) : seek next stop fuel (node head l i) = some (node head l k) := by
  -- How far it is to the target, once around if need be.
  have steps : ∀ d i fuel, i ≤ l.length → (i + d = k ∨ i + d = l.length + 1 + k) → d < fuel →
      seek next stop fuel (node head l i) = some (node head l k) := by
    intro d
    induction d with
    | zero =>
        intro i fuel bound far enough
        obtain ⟨fuel, rfl⟩ := Nat.exists_eq_add_of_lt enough
        have here : i = k := by omega
        rw [Nat.zero_add, seek, if_pos ((stops i bound).mpr here), here]
    | succ d ih =>
        intro i fuel bound far enough
        obtain ⟨fuel, rfl⟩ := Nat.exists_eq_add_of_lt enough
        rw [Nat.add_right_comm d 1 fuel, seek]
        split
        · rename_i found
          rw [(stops i bound).mp found]
        · rw [node_next circle bound]
          unfold after
          split
          · exact ih (i + 1) _ (by omega) (by omega) (by omega)
          · exact ih 0 _ (by omega) (by omega) (by omega)
  by_cases before : i ≤ k
  · exact steps (k - i) i fuel bound (by omega) (by omega)
  · exact steps (l.length + 1 + k - i) i fuel bound (by omega) (by omega)

end Search

end Foundation.CircularList
