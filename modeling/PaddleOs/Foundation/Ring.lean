import Mathlib.Data.List.Nodup
import Mathlib.Logic.Function.Basic

/-!
A circular doubly linked list with a sentinel, as two pointer functions. `Between`
reads a stretch of the list in both directions at once; `Circle` is the whole list from
the sentinel back to it. Unlinking a node and linking it behind the sentinel are the
usual sequences of pointer stores, and a loop that follows the pointers is a search
in the list. Nothing here names a particular program.
-/

namespace Foundation.Ring

variable {α : Type} [DecidableEq α]

structure Links (α : Type) where
  next : α → α
  prev : α → α

def Links.setNext (k : Links α) (node target : α) : Links α :=
  { k with next := Function.update k.next node target }

def Links.setPrev (k : Links α) (node target : α) : Links α :=
  { k with prev := Function.update k.prev node target }

/-- `b->next->prev = b->prev; b->prev->next = b->next;` -/
def Links.unlink (k : Links α) (b : α) : Links α :=
  let k := k.setPrev (k.next b) (k.prev b)
  k.setNext (k.prev b) (k.next b)

/-- `b->next = head.next; b->prev = &head; head.next->prev = b; head.next = b;` -/
def Links.linkFirst (k : Links α) (head b : α) : Links α :=
  let k := k.setNext b (k.next head)
  let k := k.setPrev b head
  let k := k.setPrev (k.next head) b
  k.setNext head b

/-- The nodes of `l` lie between `p` and `q`, in this order forwards and in the
opposite order backwards. -/
def Between (k : Links α) : α → List α → α → Prop
  | p, [], q => k.next p = q ∧ k.prev q = p
  | p, a :: l, q => k.next p = a ∧ k.prev a = p ∧ Between k a l q

def Circle (k : Links α) (head : α) (l : List α) : Prop :=
  Between k head l head ∧ (head :: l).Nodup

omit [DecidableEq α] in
theorem between_append (k : Links α) (p a q : α) (l l' : List α) :
    Between k p (l ++ a :: l') q ↔ Between k p l a ∧ Between k a l' q := by
  induction l generalizing p with
  | nil => simp only [List.nil_append, Between, and_assoc]
  | cons b l ih => simp only [List.cons_append, Between, ih, and_assoc]

omit [DecidableEq α] in
/-- A stretch reads the `next` of all nodes but its end and the `prev` of all but its start. -/
theorem Between.congr {k k' : Links α} {p q : α} {l : List α} (between : Between k p l q)
    (nexts : ∀ x ∈ p :: l, k'.next x = k.next x) (prevs : ∀ x, x ∈ l ∨ x = q → k'.prev x = k.prev x) :
    Between k' p l q := by
  induction l generalizing p with
  | nil => exact ⟨(nexts p (by simp)).trans between.1, (prevs q (.inr rfl)).trans between.2⟩
  | cons a l ih =>
      obtain ⟨forth, back, rest⟩ := between
      refine ⟨(nexts p (by simp)).trans forth, (prevs a (.inl (by simp))).trans back, ih rest ?_ ?_⟩
      · intro x member
        exact nexts x (List.mem_cons_of_mem _ member)
      · intro x member
        exact prevs x (member.imp_left (List.mem_cons_of_mem _))

omit [DecidableEq α] in
theorem Between.last {k : Links α} {p q : α} {l : List α} (between : Between k p l q) :
    k.prev q ∈ p :: l := by
  induction l generalizing p with
  | nil => simp [between.2]
  | cons a l ih => exact List.mem_cons_of_mem _ (ih between.2.2)

omit [DecidableEq α] in
/-- A stretch gets a new end when the last node points to it and it points back. -/
theorem Between.redirect {k k' : Links α} {p q q' : α} {l : List α} (between : Between k p l q)
    (distinct : (p :: l).Nodup) (apart : q' ∉ l) (forth : k'.next (k.prev q) = q')
    (back : k'.prev q' = k.prev q) (nexts : ∀ x, x ≠ k.prev q → k'.next x = k.next x)
    (prevs : ∀ x, x ≠ q' → k'.prev x = k.prev x) : Between k' p l q' := by
  induction l generalizing p with
  | nil =>
      rw [between.2] at forth back
      exact ⟨forth, back⟩
  | cons a l ih =>
      obtain ⟨first, second, rest⟩ := between
      rw [List.nodup_cons] at distinct
      refine ⟨?_, ?_, ih rest distinct.2 fun member => apart (List.mem_cons_of_mem _ member)⟩
      · rw [nexts p, first]
        intro same
        exact distinct.1 (same ▸ rest.last)
      · rw [prevs a, second]
        rintro rfl
        exact apart (by simp)

/-- The two pointers that lead past a node that is taken out. -/
theorem unlink_apply (k : Links α) (b : α) (right : k.next b ≠ b) :
    (k.unlink b).next = Function.update k.next (k.prev b) (k.next b) ∧
      (k.unlink b).prev = Function.update k.prev (k.next b) (k.prev b) := by
  simp [Links.unlink, Links.setNext, Links.setPrev, Function.update_of_ne right.symm]

theorem Circle.unlink {k : Links α} {head b : α} {l l' : List α} (ring : Circle k head (l ++ b :: l')) :
    Circle (k.unlink b) head (l ++ l') := by
  obtain ⟨between, distinct⟩ := ring
  rw [between_append] at between
  obtain ⟨front, back⟩ := between
  have order : (head :: (l ++ l')).Nodup ∧ b ∉ head :: (l ++ l') := by
    have shuffled : (b :: (head :: l ++ l')).Nodup :=
      List.perm_middle.nodup_iff.mp (by simpa using distinct)
    rw [List.nodup_cons] at shuffled
    exact ⟨by simpa using shuffled.2, by simpa using shuffled.1⟩
  obtain ⟨fewer, fresh⟩ := order
  simp only [List.mem_cons, List.mem_append, not_or] at fresh
  have before : k.prev b ∈ head :: l := front.last
  have fewer' : (head :: l).Nodup ∧ l'.Nodup ∧ ∀ a ∈ head :: l, ∀ c ∈ l', a ≠ c := by
    rw [← List.cons_append, List.nodup_append] at fewer
    exact ⟨fewer.1, fewer.2.1, fewer.2.2⟩
  obtain ⟨distinctFront, distinctBack, disjoint⟩ := fewer'
  refine ⟨?_, fewer⟩
  cases l' with
  | nil =>
      obtain ⟨forth, _⟩ := back
      have right : k.next b ≠ b := by rw [forth]; exact fresh.1 ∘ Eq.symm
      obtain ⟨nexts, prevs⟩ := unlink_apply k b right
      rw [List.append_nil]
      refine front.redirect distinctFront (List.nodup_cons.mp distinctFront).1 ?_ ?_ ?_ ?_
      · rw [nexts, Function.update_self, forth]
      · rw [prevs, forth, Function.update_self]
      · intro x apart
        rw [nexts, Function.update_of_ne apart]
      · intro x apart
        rw [prevs, forth, Function.update_of_ne apart]
  | cons c l' =>
      obtain ⟨forth, _, rest⟩ := back
      have right : k.next b ≠ b := by
        rw [forth]
        rintro rfl
        exact fresh.2.2 (by simp)
      obtain ⟨nexts, prevs⟩ := unlink_apply k b right
      rw [forth] at nexts prevs
      rw [between_append]
      constructor
      · refine front.redirect distinctFront ?_ ?_ ?_ ?_ ?_
        · intro member
          exact disjoint c (List.mem_cons_of_mem _ member) c (by simp) rfl
        · rw [nexts, Function.update_self]
        · rw [prevs, Function.update_self]
        · intro x apart
          rw [nexts, Function.update_of_ne apart]
        · intro x apart
          rw [prevs, Function.update_of_ne apart]
      · refine rest.congr ?_ ?_
        · intro x member
          rw [nexts, Function.update_of_ne]
          rintro rfl
          exact disjoint _ before _ member rfl
        · intro x member
          rw [prevs, Function.update_of_ne]
          rintro rfl
          rcases member with inside | isHead
          · exact (List.nodup_cons.mp distinctBack).1 inside
          · exact disjoint head (by simp) x (by simp) isHead.symm

theorem Circle.linkFirst {k : Links α} {head b : α} {l : List α} (ring : Circle k head l)
    (fresh : b ∉ head :: l) : Circle (k.linkFirst head b) head (b :: l) := by
  obtain ⟨between, distinct⟩ := ring
  have notHead : head ≠ b := fun same => fresh (by simp [same])
  have first : k.next head ∈ l ∨ k.next head = head := by
    cases l with
    | nil => exact .inr between.1
    | cons a l => exact .inl (by simp [between.1])
  have firstFresh : k.next head ≠ b := by
    intro same
    rcases first with inside | isHead
    · exact fresh (List.mem_cons_of_mem _ (same ▸ inside))
    · exact notHead (isHead.symm.trans same)
  have nexts : (k.linkFirst head b).next =
      Function.update (Function.update k.next b (k.next head)) head b := rfl
  have prevs : (k.linkFirst head b).prev =
      Function.update (Function.update k.prev b head) (k.next head) b := by
    simp [Links.linkFirst, Links.setNext, Links.setPrev, Function.update_of_ne notHead]
  refine ⟨⟨?_, ?_, ?_⟩, ?_⟩
  · rw [nexts, Function.update_self]
  · rw [prevs, Function.update_of_ne firstFresh.symm, Function.update_self]
  · cases l with
    | nil =>
        refine ⟨?_, ?_⟩
        · rw [nexts, Function.update_of_ne notHead.symm, Function.update_self, between.1]
        · rw [prevs, between.1, Function.update_self]
    | cons a l =>
        obtain ⟨forth, back, rest⟩ := between
        simp only [List.nodup_cons, List.mem_cons, not_or] at distinct fresh
        refine ⟨?_, ?_, rest.congr ?_ ?_⟩
        · rw [nexts, Function.update_of_ne notHead.symm, Function.update_self, forth]
        · rw [prevs, forth, Function.update_self]
        · intro x member
          have apart : x ≠ head ∧ x ≠ b := by
            rcases List.mem_cons.mp member with rfl | inside
            · exact ⟨Ne.symm distinct.1.1, Ne.symm fresh.2.1⟩
            · exact ⟨fun same => distinct.1.2 (same ▸ inside), fun same => fresh.2.2 (same ▸ inside)⟩
          rw [nexts, Function.update_of_ne apart.1, Function.update_of_ne apart.2]
        · intro x member
          have apart : x ≠ a ∧ x ≠ b := by
            rcases member with inside | rfl
            · exact ⟨fun same => distinct.2.1 (same ▸ inside), fun same => fresh.2.2 (same ▸ inside)⟩
            · exact ⟨distinct.1.1, notHead⟩
          rw [prevs, forth, Function.update_of_ne apart.1, Function.update_of_ne apart.2]
  · have rotated : b ∉ l ∧ b ≠ head :=
      ⟨fun member => fresh (List.mem_cons_of_mem _ member), notHead.symm⟩
    rw [List.nodup_cons] at distinct
    simp only [List.nodup_cons, List.mem_cons, not_or]
    exact ⟨⟨notHead, distinct.1⟩, rotated.1, distinct.2⟩

/-- `for (; b != &head; b = step(b)) if (test(b)) return b;`, at most `fuel` turns. -/
def follow (step : α → α) (head : α) (test : α → Bool) : Nat → α → Option α
  | 0, _ => none
  | fuel + 1, b =>
      if b = head then none else if test b then some b else follow step head test fuel (step b)

theorem follow_next {k : Links α} {head p : α} {l : List α} (between : Between k p l head)
    (apart : head ∉ l) (test : α → Bool) {fuel : Nat} (enough : l.length < fuel) :
    follow k.next head test fuel (k.next p) = l.find? test := by
  induction l generalizing p fuel with
  | nil =>
      cases fuel with
      | zero => omega
      | succ fuel => simp [follow, between.1]
  | cons a l ih =>
      obtain ⟨forth, _, rest⟩ := between
      simp only [List.mem_cons, not_or] at apart
      cases fuel with
      | zero => omega
      | succ fuel =>
          rw [follow, forth, if_neg (Ne.symm apart.1), List.find?_cons]
          split
          · rename_i accepted
            simp [accepted]
          · rename_i refused
            simp only [Bool.not_eq_true] at refused
            rw [refused]
            exact ih rest apart.2 (by simpa using enough)

omit [DecidableEq α] in
/-- Read backwards a stretch is a stretch. -/
theorem Between.reverse {k : Links α} {p q : α} {l : List α} (between : Between k p l q) :
    Between ⟨k.prev, k.next⟩ q l.reverse p := by
  induction l generalizing p with
  | nil => exact ⟨between.2, between.1⟩
  | cons a l ih =>
      obtain ⟨forth, back, rest⟩ := between
      rw [List.reverse_cons, between_append]
      exact ⟨ih rest, back, forth⟩

theorem follow_prev {k : Links α} {head : α} {l : List α} (ring : Circle k head l)
    (test : α → Bool) {fuel : Nat} (enough : l.length < fuel) :
    follow k.prev head test fuel (k.prev head) = l.reverse.find? test := by
  have apart : head ∉ l.reverse := by simpa using (List.nodup_cons.mp ring.2).1
  exact follow_next ring.1.reverse apart test (by simpa using enough)

end Foundation.Ring
