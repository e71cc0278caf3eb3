import PaddleOs.Bio
import PaddleOs.Foundation.Ring
import PaddleOs.Foundation.Runs

/-!
The list through `bcache.head` with its pointers. A step is one stretch of `bget`,
`brelse`, `bpin` or `bunpin` under `bcache.lock`; steps of different processes come in
any order. The machine also counts the references and pins that are outstanding and
notes when a buffer was last released, which the code does not record.
-/

namespace PaddleOs.BufferRing

open Foundation.Ring Foundation.Runs

/-- A `struct buf *` into the list: a buffer, or `none` for `&bcache.head`. -/
abbrev Ptr := Option (Fin NBUF)

structure Entry where
  dev : Nat
  blockno : Nat
  valid : Bool
  refcnt : Nat

structure Bcache where
  links : Links Ptr
  buf : Fin NBUF → Entry

def Bcache.setBuf (c : Bcache) (b : Fin NBUF) (entry : Entry) : Bcache :=
  { c with buf := Function.update c.buf b entry }

def isBlock (c : Bcache) (dev blockno : Nat) : Ptr → Bool
  | some b => (c.buf b).dev == dev && (c.buf b).blockno == blockno
  | none => false

def isIdle (c : Bcache) : Ptr → Bool
  | some b => (c.buf b).refcnt == 0
  | none => false

/-- The first loop of `bget`. -/
def Bcache.lookup (c : Bcache) (dev blockno : Nat) : Option (Fin NBUF) :=
  (follow c.links.next none (isBlock c dev blockno) (NBUF + 1) (c.links.next none)).join

/-- The second loop of `bget`. -/
def Bcache.victim (c : Bcache) : Option (Fin NBUF) :=
  (follow c.links.prev none (isIdle c) (NBUF + 1) (c.links.prev none)).join

/-- `bget` up to the release of `bcache.lock`; none for the panic. -/
def bget (dev blockno : Nat) (c : Bcache) : Option (Fin NBUF × Bcache) :=
  match c.lookup dev blockno with
  | some b => some (b, c.setBuf b { c.buf b with refcnt := (c.buf b).refcnt + 1 })
  | none =>
      match c.victim with
      | some b => some (b, c.setBuf b { dev, blockno, valid := false, refcnt := 1 })
      | none => none

/-- The locked stretch of `brelse`. -/
def brelse (b : Fin NBUF) (c : Bcache) : Bcache :=
  let c := c.setBuf b { c.buf b with refcnt := (c.buf b).refcnt - 1 }
  if (c.buf b).refcnt = 0 then { c with links := (c.links.unlink (some b)).linkFirst none (some b) }
  else c

def bpin (b : Fin NBUF) (c : Bcache) : Bcache :=
  c.setBuf b { c.buf b with refcnt := (c.buf b).refcnt + 1 }

def bunpin (b : Fin NBUF) (c : Bcache) : Bcache :=
  c.setBuf b { c.buf b with refcnt := (c.buf b).refcnt - 1 }

/-- The loop of `binit` over the buffers. -/
def binitLinks : List (Fin NBUF) → Links Ptr → Links Ptr
  | [], links => links
  | b :: rest, links => binitLinks rest (links.linkFirst none (some b))

def binit : Bcache where
  links := binitLinks (List.finRange NBUF) { next := fun _ => none, prev := fun _ => none }
  buf _ := { dev := 0, blockno := 0, valid := false, refcnt := 0 }

/-- `idle` is the time of the last `brelse` that left the buffer without references,
`released` that of the last `brelse` or `bunpin` that did, 0 for never. -/
structure Machine where
  cache : Bcache
  clock : Nat
  refs : Fin NBUF → Nat
  pins : Fin NBUF → Nat
  used : Fin NBUF → Bool
  idle : Fin NBUF → Nat
  released : Fin NBUF → Nat

inductive Label where
  | bget (dev blockno : Nat)
  | brelse (b : Fin NBUF)
  | bpin (b : Fin NBUF)
  | bunpin (b : Fin NBUF)
  deriving DecidableEq, Repr

/-- A `brelse` gives back a reference of an earlier `bget`, a `bunpin` an earlier pin. -/
def step (m : Machine) : Label → Option Machine
  | .bget dev blockno =>
      (bget dev blockno m.cache).map fun (b, cache) =>
        { m with cache, clock := m.clock + 1
                 refs := Function.update m.refs b (m.refs b + 1)
                 used := Function.update m.used b true }
  | .brelse b =>
      if m.refs b = 0 then none
      else
        let cache := brelse b m.cache
        let empty := (cache.buf b).refcnt = 0
        some { m with cache, clock := m.clock + 1
                      refs := Function.update m.refs b (m.refs b - 1)
                      idle := if empty then Function.update m.idle b (m.clock + 1) else m.idle
                      released :=
                        if empty then Function.update m.released b (m.clock + 1) else m.released }
  | .bpin b =>
      some { m with cache := bpin b m.cache, clock := m.clock + 1
                    pins := Function.update m.pins b (m.pins b + 1)
                    used := Function.update m.used b true }
  | .bunpin b =>
      if m.pins b = 0 then none
      else
        let cache := bunpin b m.cache
        let empty := (cache.buf b).refcnt = 0
        some { m with cache, clock := m.clock + 1
                      pins := Function.update m.pins b (m.pins b - 1)
                      released :=
                        if empty then Function.update m.released b (m.clock + 1) else m.released }

def boot : Machine where
  cache := binit
  clock := 0
  refs _ := 0
  pins _ := 0
  used _ := false
  idle _ := 0
  released _ := 0

section Lists

/-- The pointers make up this list, in both directions. -/
def Linked (c : Bcache) (order : List (Fin NBUF)) : Prop :=
  Circle c.links none (order.map some) ∧ ∀ b, b ∈ order

theorem Linked.nodup {c : Bcache} {order : List (Fin NBUF)} (linked : Linked c order) :
    order.Nodup :=
  (List.nodup_map_iff (Option.some_injective _)).mp (List.nodup_cons.mp linked.1.2).2

theorem Linked.length {c : Bcache} {order : List (Fin NBUF)} (linked : Linked c order) :
    order.length = NBUF := by
  have perm : order.Perm (List.finRange NBUF) := by
    rw [List.perm_ext_iff_of_nodup linked.nodup (List.nodup_finRange NBUF)]
    intro b
    exact ⟨fun _ => List.mem_finRange b, fun _ => linked.2 b⟩
  rw [perm.length_eq, List.length_finRange]

theorem find_some_join (test : Ptr → Bool) (order : List (Fin NBUF)) :
    ((order.map some).find? test).join = order.find? fun b => test (some b) := by
  induction order with
  | nil => rfl
  | cons b rest ih =>
      rw [List.map_cons, List.find?_cons, List.find?_cons]
      cases test (some b) with
      | true => rfl
      | false => exact ih

theorem Linked.lookup {c : Bcache} {order : List (Fin NBUF)} (linked : Linked c order)
    (dev blockno : Nat) : c.lookup dev blockno =
      order.find? fun b => (c.buf b).dev == dev && (c.buf b).blockno == blockno := by
  unfold Bcache.lookup
  rw [follow_next linked.1.1 (by simp) _ (by simp [linked.length]), find_some_join]
  rfl

theorem Linked.victim {c : Bcache} {order : List (Fin NBUF)} (linked : Linked c order) :
    c.victim = order.reverse.find? fun b => (c.buf b).refcnt == 0 := by
  unfold Bcache.victim
  rw [follow_prev linked.1 _ (by simp [linked.length]), ← List.map_reverse, find_some_join]
  rfl

theorem Linked.setBuf {c : Bcache} {order : List (Fin NBUF)} (linked : Linked c order)
    (b : Fin NBUF) (entry : Entry) : Linked (c.setBuf b entry) order := linked

/-- Unlinking a buffer and linking it first moves it to the front of the list. -/
theorem Linked.moveFirst {c : Bcache} {near far : List (Fin NBUF)} {b : Fin NBUF}
    (linked : Linked c (near ++ b :: far)) :
    Linked { c with links := (c.links.unlink (some b)).linkFirst none (some b) }
      (b :: (near ++ far)) := by
  obtain ⟨circle, complete⟩ := linked
  have distinct := Linked.nodup ⟨circle, complete⟩
  have fresh : b ∉ near ++ far := (List.nodup_cons.mp (List.perm_middle.nodup_iff.mp distinct)).1
  rw [List.map_append, List.map_cons] at circle
  refine ⟨?_, fun a => ?_⟩
  · have moved := circle.unlink.linkFirst (b := some b) (by simpa using fresh)
    simpa using moved
  · have member := complete a
    simp only [List.mem_append, List.mem_cons] at member ⊢
    tauto

theorem binitLinks_circle (rest order : List (Fin NBUF)) (links : Links Ptr)
    (circle : Circle links none (order.map some)) (distinct : (rest ++ order).Nodup) :
    Circle (binitLinks rest links) none ((rest.reverse ++ order).map some) := by
  induction rest generalizing order links with
  | nil => exact circle
  | cons b rest ih =>
      have fresh : b ∉ rest ++ order := (List.nodup_cons.mp distinct).1
      have linked : Circle (links.linkFirst none (some b)) none ((b :: order).map some) := by
        refine circle.linkFirst ?_
        intro member
        simp only [List.mem_cons, reduceCtorEq, List.mem_map, Option.some.injEq, exists_eq_right,
          false_or] at member
        exact fresh (List.mem_append_right _ member)
      have result := ih (b :: order) _ linked (List.perm_middle.nodup_iff.mpr distinct)
      rw [binitLinks, List.reverse_cons, List.append_assoc]
      exact result

theorem binit_linked : Linked binit (List.finRange NBUF).reverse := by
  refine ⟨?_, fun b => by simp⟩
  have empty : Circle ({ next := fun _ => none, prev := fun _ => none } : Links Ptr) none
      (([] : List (Fin NBUF)).map some) := by
    refine ⟨⟨rfl, rfl⟩, ?_⟩
    simp
  have made := binitLinks_circle (List.finRange NBUF) [] _ empty (by simp [List.nodup_finRange])
  rwa [List.append_nil] at made

end Lists

section Invariant

/-- Everything `bget` can do: it finds the block, or gives an idle buffer to it. -/
theorem bget_cases {dev blockno : Nat} {c c' : Bcache} {b : Fin NBUF}
    (got : bget dev blockno c = some (b, c')) :
    c.lookup dev blockno = some b ∧
        c' = c.setBuf b { c.buf b with refcnt := (c.buf b).refcnt + 1 } ∨
      c.lookup dev blockno = none ∧ c.victim = some b ∧
        c' = c.setBuf b { dev, blockno, valid := false, refcnt := 1 } := by
  unfold bget at got
  split at got
  · rename_i found
    cases got
    exact .inl ⟨found, rfl⟩
  · rename_i absent
    split at got
    · rename_i idle
      cases got
      exact .inr ⟨absent, idle, rfl⟩
    · cases got

theorem Linked.lookup_none {c : Bcache} {order : List (Fin NBUF)} (linked : Linked c order)
    {dev blockno : Nat} (absent : c.lookup dev blockno = none) (b : Fin NBUF) :
    ¬ ((c.buf b).dev = dev ∧ (c.buf b).blockno = blockno) := by
  rw [linked.lookup, List.find?_eq_none] at absent
  simpa using absent b (linked.2 b)

/-- The victim is idle, and nothing behind it in the list is. -/
theorem Linked.victim_some {c : Bcache} {order : List (Fin NBUF)} (linked : Linked c order)
    {b : Fin NBUF} (chosen : c.victim = some b) :
    (c.buf b).refcnt = 0 ∧ ∃ near far, order = near ++ b :: far ∧
      ∀ a ∈ far, (c.buf a).refcnt ≠ 0 := by
  rw [linked.victim, List.find?_eq_some_iff_append] at chosen
  obtain ⟨idle, far, near, split, busy⟩ := chosen
  refine ⟨by simpa using idle, near.reverse, far.reverse, ?_, ?_⟩
  · have turned := congrArg List.reverse split
    simpa using turned
  · intro a member
    simpa using busy a (List.mem_reverse.mp member)

/-- Among two idle buffers of the list the one behind was released earlier, unless
neither ever was. -/
def Older (m : Machine) (b a : Fin NBUF) : Prop :=
  m.idle b < m.idle a ∨ m.idle b = 0 ∧ m.idle a = 0

structure Inv (m : Machine) (order : List (Fin NBUF)) : Prop where
  linked : Linked m.cache order
  unique : ∀ a b, (m.cache.buf a).dev = (m.cache.buf b).dev →
    (m.cache.buf a).blockno = (m.cache.buf b).blockno → (m.cache.buf a).dev ≠ 0 → a = b
  counts : ∀ b, (m.cache.buf b).refcnt = m.refs b + m.pins b
  sorted : order.Pairwise fun a b => Older m b a
  past : ∀ b, m.idle b ≤ m.clock
  untouched : ∀ b, m.used b = false →
    (m.cache.buf b).refcnt = 0 ∧ m.idle b = 0 ∧ m.released b = 0
  touched : ∀ b, m.used b = true → (m.cache.buf b).refcnt = 0 → 0 < m.released b

theorem boot_inv : Inv boot (List.finRange NBUF).reverse where
  linked := binit_linked
  unique a b _ _ real := absurd rfl real
  counts _ := rfl
  sorted := List.pairwise_of_forall fun _ _ => .inr ⟨rfl, rfl⟩
  past _ := Nat.le_refl _
  untouched _ _ := ⟨rfl, rfl, rfl⟩
  touched _ used := by cases used

@[simp]
theorem setBuf_buf (c : Bcache) (b a : Fin NBUF) (entry : Entry) :
    (c.setBuf b entry).buf a = if a = b then entry else c.buf a := by
  simp [Bcache.setBuf, Function.update_apply]

theorem brelse_buf (b : Fin NBUF) (c : Bcache) :
    (brelse b c).buf = (c.setBuf b { c.buf b with refcnt := (c.buf b).refcnt - 1 }).buf := by
  unfold brelse
  dsimp only
  split <;> rfl

/-- No step but `bget` on a miss touches what block a buffer is for. -/
theorem step_block {m next : Machine} {label : Label} (stepped : step m label = some next)
    (b : Fin NBUF) : ((next.cache.buf b).dev = (m.cache.buf b).dev ∧
        (next.cache.buf b).blockno = (m.cache.buf b).blockno) ∨
      ∃ dev blockno, label = .bget dev blockno ∧ m.cache.lookup dev blockno = none ∧
        m.cache.victim = some b ∧ (next.cache.buf b).dev = dev ∧
        (next.cache.buf b).blockno = blockno := by
  have kept : ∀ (a : Fin NBUF) (refcnt : Nat),
      ((m.cache.setBuf a { m.cache.buf a with refcnt }).buf b).dev = (m.cache.buf b).dev ∧
        ((m.cache.setBuf a { m.cache.buf a with refcnt }).buf b).blockno =
          (m.cache.buf b).blockno := by
    intro a refcnt
    by_cases same : b = a <;> simp [same]
  cases label with
  | bget dev blockno =>
      obtain ⟨⟨a, cache⟩, got, rfl⟩ := Option.map_eq_some_iff.mp stepped
      rcases bget_cases got with ⟨_, rfl⟩ | ⟨absent, chosen, rfl⟩
      · exact .inl (kept a _)
      · by_cases same : b = a
        · subst same
          exact .inr ⟨dev, blockno, rfl, absent, chosen, by simp, by simp⟩
        · exact .inl (by simp [same])
  | brelse a =>
      simp only [step] at stepped
      split at stepped
      · cases stepped
      · cases stepped
        refine .inl ?_
        simp only [brelse_buf]
        exact kept a _
  | bpin a =>
      cases stepped
      exact .inl (kept a _)
  | bunpin a =>
      simp only [step] at stepped
      split at stepped
      · cases stepped
      · cases stepped
        exact .inl (kept a _)

theorem step_unique {m next : Machine} {order : List (Fin NBUF)} (inv : Inv m order) {label : Label}
    (stepped : step m label = some next) (a b : Fin NBUF)
    (sameDev : (next.cache.buf a).dev = (next.cache.buf b).dev)
    (sameBlock : (next.cache.buf a).blockno = (next.cache.buf b).blockno)
    (real : (next.cache.buf a).dev ≠ 0) : a = b := by
  rcases step_block stepped a with ⟨devA, blockA⟩ | ⟨dev, blockno, rfl, absent, chosen, devA, blockA⟩
  · rcases step_block stepped b with ⟨devB, blockB⟩ | ⟨dev, blockno, rfl, absent, _, devB, blockB⟩
    · rw [devA, devB] at sameDev
      rw [blockA, blockB] at sameBlock
      exact inv.unique a b sameDev sameBlock (devA ▸ real)
    · refine absurd ⟨?_, ?_⟩ (inv.linked.lookup_none absent a)
      · rw [← devA, sameDev, devB]
      · rw [← blockA, sameBlock, blockB]
  · rcases step_block stepped b with ⟨devB, blockB⟩ | ⟨_, _, _, _, chosen', _, _⟩
    · refine absurd ⟨?_, ?_⟩ (inv.linked.lookup_none absent b)
      · rw [← devB, ← sameDev, devA]
      · rw [← blockB, ← sameBlock, blockA]
    · rw [chosen] at chosen'
      cases chosen'
      rfl

/-- A step that gives a buffer one more reference and leaves the list alone. -/
theorem Inv.gains {m next : Machine} {order : List (Fin NBUF)} (inv : Inv m order) (b : Fin NBUF)
    (unique : ∀ a b, (next.cache.buf a).dev = (next.cache.buf b).dev →
      (next.cache.buf a).blockno = (next.cache.buf b).blockno →
      (next.cache.buf a).dev ≠ 0 → a = b)
    (links : next.cache.links = m.cache.links)
    (others : ∀ a, a ≠ b → next.cache.buf a = m.cache.buf a ∧ next.refs a = m.refs a ∧
      next.pins a = m.pins a ∧ next.used a = m.used a)
    (here : (next.cache.buf b).refcnt = (m.cache.buf b).refcnt + 1 ∧
      next.refs b + next.pins b = m.refs b + m.pins b + 1 ∧ next.used b = true)
    (clock : next.clock = m.clock + 1) (idle : next.idle = m.idle)
    (released : next.released = m.released) : Inv next order where
  linked := ⟨by rw [links]; exact inv.linked.1, inv.linked.2⟩
  unique := unique
  counts a := by
    by_cases same : a = b
    · rw [same, here.1, here.2.1, inv.counts b]
    · obtain ⟨buf, refs, pins, _⟩ := others a same
      rw [buf, refs, pins, inv.counts a]
  sorted := by
    unfold Older
    rw [idle]
    exact inv.sorted
  past a := by
    rw [idle, clock]
    exact Nat.le_succ_of_le (inv.past a)
  untouched a unused := by
    by_cases same : a = b
    · rw [same, here.2.2] at unused
      cases unused
    · obtain ⟨buf, _, _, used⟩ := others a same
      rw [buf, idle, released]
      exact inv.untouched a (used ▸ unused)
  touched a isUsed empty := by
    by_cases same : a = b
    · rw [same, here.1] at empty
      omega
    · obtain ⟨buf, _, _, used⟩ := others a same
      rw [released]
      exact inv.touched a (used ▸ isUsed) (buf ▸ empty)

/-- A step that takes one reference away; with the last one the buffer is released. -/
theorem Inv.loses {m next : Machine} {order order' : List (Fin NBUF)} (inv : Inv m order)
    (b : Fin NBUF) (unique : ∀ a b, (next.cache.buf a).dev = (next.cache.buf b).dev →
      (next.cache.buf a).blockno = (next.cache.buf b).blockno →
      (next.cache.buf a).dev ≠ 0 → a = b)
    (linked : Linked next.cache order') (sorted : order'.Pairwise fun a b => Older next b a)
    (others : ∀ a, a ≠ b → next.cache.buf a = m.cache.buf a ∧ next.refs a = m.refs a ∧
      next.pins a = m.pins a ∧ next.idle a = m.idle a ∧ next.released a = m.released a)
    (here : (next.cache.buf b).refcnt + 1 = (m.cache.buf b).refcnt ∧
      next.refs b + next.pins b + 1 = m.refs b + m.pins b)
    (clock : next.clock = m.clock + 1) (used : next.used = m.used)
    (past : next.idle b ≤ next.clock)
    (last : (next.cache.buf b).refcnt = 0 → 0 < next.released b) : Inv next order' where
  linked := linked
  unique := unique
  counts a := by
    by_cases same : a = b
    · have before := inv.counts b
      rw [same]
      omega
    · obtain ⟨buf, refs, pins, _⟩ := others a same
      rw [buf, refs, pins, inv.counts a]
  sorted := sorted
  past a := by
    by_cases same : a = b
    · rw [same]
      exact past
    · rw [(others a same).2.2.2.1, clock]
      exact Nat.le_succ_of_le (inv.past a)
  untouched a unused := by
    rw [used] at unused
    by_cases same : a = b
    · have idle := (inv.untouched a unused).1
      rw [same] at idle
      omega
    · obtain ⟨buf, _, _, idle, released⟩ := others a same
      rw [buf, idle, released]
      exact inv.untouched a unused
  touched a isUsed empty := by
    by_cases same : a = b
    · rw [same] at empty ⊢
      exact last empty
    · obtain ⟨buf, _, _, _, released⟩ := others a same
      rw [released]
      exact inv.touched a (used ▸ isUsed) (buf ▸ empty)

theorem bget_inv {m next : Machine} {order : List (Fin NBUF)} (inv : Inv m order)
    {dev blockno : Nat} (stepped : step m (.bget dev blockno) = some next) : Inv next order := by
  have unique := step_unique inv stepped
  obtain ⟨⟨b, cache⟩, got, rfl⟩ := Option.map_eq_some_iff.mp stepped
  rcases bget_cases got with ⟨_, rfl⟩ | ⟨_, chosen, rfl⟩
  · refine inv.gains b unique rfl (fun a apart => ?_) ?_ rfl rfl rfl
    · simp [apart]
    · simp
      omega
  · have idle := (inv.linked.victim_some chosen).1
    refine inv.gains b unique rfl (fun a apart => ?_) ?_ rfl rfl rfl
    · simp [apart]
    · simp [idle]
      omega

theorem bpin_inv {m next : Machine} {order : List (Fin NBUF)} (inv : Inv m order) {b : Fin NBUF}
    (stepped : step m (.bpin b) = some next) : Inv next order := by
  have unique := step_unique inv stepped
  cases stepped
  refine inv.gains b unique rfl (fun a apart => ?_) ?_ rfl rfl rfl
  · simp [bpin, apart]
  · simp [bpin]
    omega

theorem bunpin_inv {m next : Machine} {order : List (Fin NBUF)} (inv : Inv m order) {b : Fin NBUF}
    (stepped : step m (.bunpin b) = some next) : Inv next order := by
  have unique := step_unique inv stepped
  have counted := inv.counts b
  simp only [step] at stepped
  split at stepped
  · cases stepped
  · rename_i pinned
    cases stepped
    refine inv.loses b unique (inv.linked.setBuf b _) inv.sorted (fun a apart => ?_) ?_ rfl rfl
      (Nat.le_succ_of_le (inv.past b)) fun empty => ?_
    · refine ⟨by simp [bunpin, apart], rfl, Function.update_of_ne apart .., rfl, ?_⟩
      dsimp only
      split
      · exact Function.update_of_ne apart ..
      · rfl
    · simp [bunpin]
      omega
    · dsimp only at empty ⊢
      rw [if_pos empty, Function.update_self]
      omega

theorem brelse_inv {m next : Machine} {order : List (Fin NBUF)} (inv : Inv m order) {b : Fin NBUF}
    (stepped : step m (.brelse b) = some next) : ∃ order', Inv next order' := by
  have unique := step_unique inv stepped
  have counted := inv.counts b
  simp only [step] at stepped
  split at stepped
  · cases stepped
  rename_i held
  cases stepped
  have left : ((brelse b m.cache).buf b).refcnt = (m.cache.buf b).refcnt - 1 := by
    simp [brelse_buf]
  have others : ∀ a, a ≠ b → (brelse b m.cache).buf a = m.cache.buf a := by
    intro a apart
    simp [brelse_buf, apart]
  by_cases empty : ((brelse b m.cache).buf b).refcnt = 0
  · obtain ⟨near, far, rfl⟩ := List.append_of_mem (inv.linked.2 b)
    have moved : Linked (brelse b m.cache) (b :: (near ++ far)) := by
      have first := (inv.linked.setBuf b
        { m.cache.buf b with refcnt := (m.cache.buf b).refcnt - 1 }).moveFirst
      unfold brelse
      dsimp only
      rw [if_pos]
      · exact first
      · rw [brelse_buf] at empty
        exact empty
    simp only [if_pos empty] at unique ⊢
    refine ⟨b :: (near ++ far), inv.loses b unique moved ?_ (fun a apart => ?_) ?_ rfl rfl ?_ ?_⟩
    · have rest : (near ++ far).Pairwise fun a c => Older m c a :=
        inv.sorted.sublist (List.Sublist.append_left (List.sublist_cons_self b far) near)
      have distinct := moved.nodup
      rw [List.nodup_cons] at distinct
      refine List.pairwise_cons.mpr ⟨fun a member => ?_, ?_⟩
      · refine .inl ?_
        have apart : a ≠ b := fun same => distinct.1 (same ▸ member)
        have bound := inv.past a
        simp only [Function.update_self, Function.update_of_ne apart]
        omega
      · refine rest.imp_of_mem ?_
        intro a c memberA memberC older
        have apartA : a ≠ b := fun same => distinct.1 (same ▸ memberA)
        have apartC : c ≠ b := fun same => distinct.1 (same ▸ memberC)
        simpa only [Older, Function.update_of_ne apartA, Function.update_of_ne apartC] using older
    · simp only [Function.update_of_ne apart]
      exact ⟨others a apart, trivial, trivial, trivial, trivial⟩
    · simp only [left, Function.update_self]
      omega
    · simp
    · simp
  · have stays : Linked (brelse b m.cache) order := by
      unfold brelse
      dsimp only
      rw [if_neg]
      · exact inv.linked.setBuf b _
      · rw [brelse_buf] at empty
        exact empty
    simp only [if_neg empty] at unique ⊢
    refine ⟨order, inv.loses b unique stays inv.sorted (fun a apart => ?_) ?_ rfl rfl
      (Nat.le_succ_of_le (inv.past b)) fun none => absurd none empty⟩
    · simp only [Function.update_of_ne apart]
      exact ⟨others a apart, trivial, trivial, trivial, trivial⟩
    · simp only [left, Function.update_self]
      omega

theorem step_inv {m next : Machine} {order : List (Fin NBUF)} (inv : Inv m order) {label : Label}
    (stepped : step m label = some next) : ∃ order', Inv next order' := by
  cases label with
  | bget dev blockno => exact ⟨order, bget_inv inv stepped⟩
  | brelse b => exact brelse_inv inv stepped
  | bpin b => exact ⟨order, bpin_inv inv stepped⟩
  | bunpin b => exact ⟨order, bunpin_inv inv stepped⟩

theorem run_inv {labels : List Label} {m : Machine} (ran : run step boot labels = some m) :
    ∃ order, Inv m order :=
  run_invariant step (fun _ m => ∃ order, Inv m order) ⟨_, boot_inv⟩
    (fun _ _ _ _ _ ⟨_, inv⟩ stepped => step_inv inv stepped) ran

end Invariant

section Refinement

/-- The list of `Store` is the one the pointers make up. -/
structure Represents (c : Bcache) (s : Store) : Prop where
  linked : Linked c s.lru
  buf : ∀ b, c.buf b = { dev := (s.buf b).dev, blockno := (s.buf b).blockno
                         valid := (s.buf b).valid, refcnt := (s.buf b).refcnt }

variable {c : Bcache} {s : Store}

theorem Represents.lookup (same : Represents c s) (dev blockno : Nat) :
    c.lookup dev blockno = s.cached dev blockno := by
  rw [same.linked.lookup, Store.cached]
  congr 1
  funext b
  rw [same.buf b]

theorem Represents.victim (same : Represents c s) : c.victim = s.recyclable := by
  rw [same.linked.victim, Store.recyclable]
  congr 1
  funext b
  rw [same.buf b]

theorem Represents.setBuf (same : Represents c s) (b : Fin NBUF) (value : Buf) :
    Represents (c.setBuf b { dev := value.dev, blockno := value.blockno, valid := value.valid
                             refcnt := value.refcnt }) (s.setBuf b value) where
  linked := same.linked
  buf a := by
    by_cases here : a = b
    · subst here
      simp
    · simp [here, Store.setBuf_other s value here, same.buf a]

/-- The pointer stores of `brelse` do what the list of `Store` says. -/
theorem Represents.release (same : Represents c s) (b : Fin NBUF) :
    Represents (brelse b c) (s.release b) := by
  have entry := same.buf b
  have counted := same.setBuf b
    { s.buf b with locked := false, refcnt := (s.buf b).refcnt - 1 }
  unfold brelse Store.release
  simp only [entry, setBuf_buf, if_true, Store.setBuf_same]
  by_cases last : (s.buf b).refcnt - 1 = 0
  · rw [if_pos last, if_pos last]
    refine ⟨?_, counted.buf⟩
    obtain ⟨near, far, split⟩ := List.append_of_mem (same.linked.2 b)
    have fresh : b ∉ near := by
      have distinct := same.linked.nodup
      rw [split] at distinct
      have shuffled := List.nodup_cons.mp (List.perm_middle.nodup_iff.mp distinct)
      exact fun member => shuffled.1 (List.mem_append_left _ member)
    have moved := counted.linked
    simp only [Store.setBuf_lru] at moved ⊢
    rw [split] at moved ⊢
    rw [List.erase_append_right _ fresh, List.erase_cons_head]
    exact moved.moveFirst
  · rw [if_neg last, if_neg last]
    exact counted

end Refinement

section Results

/-- What holds of the cache after any interleaving of its operations: the pointers
make up one list of all buffers in both directions; a block other than those of device
0 has at most one buffer; a count is the number of references and pins outstanding; no
step gives a buffer in use to another block; and the buffer `bget` recycles is the idle
one nearest the tail, the one released longest ago when no idle buffer was last released
by `bunpin`. -/
theorem cache_structure {labels : List Label} {m : Machine}
    (ran : run step boot labels = some m) :
    ∃ order : List (Fin NBUF), order.Nodup ∧ (∀ b, b ∈ order) ∧
      Circle m.cache.links none (order.map some) ∧
      (∀ a b, (m.cache.buf a).dev = (m.cache.buf b).dev →
        (m.cache.buf a).blockno = (m.cache.buf b).blockno → (m.cache.buf a).dev ≠ 0 → a = b) ∧
      (∀ b, (m.cache.buf b).refcnt = m.refs b + m.pins b) ∧
      (∀ label next b, step m label = some next → 0 < (m.cache.buf b).refcnt →
        (next.cache.buf b).dev = (m.cache.buf b).dev ∧
          (next.cache.buf b).blockno = (m.cache.buf b).blockno) ∧
      (∀ dev blockno b cache, bget dev blockno m.cache = some (b, cache) →
        m.cache.lookup dev blockno = none →
        ∃ near far, order = near ++ b :: far ∧ (m.cache.buf b).refcnt = 0 ∧
          (∀ a ∈ far, (m.cache.buf a).refcnt ≠ 0) ∧
          (∀ a, a ≠ b → (m.cache.buf a).refcnt = 0 → Older m b a) ∧
          ((∀ a, (m.cache.buf a).refcnt = 0 → m.released a = m.idle a) →
            ∀ a, a ≠ b → (m.cache.buf a).refcnt = 0 →
              m.released b < m.released a ∨ m.used b = false ∧ m.used a = false)) := by
  obtain ⟨order, inv⟩ := run_inv ran
  refine ⟨order, inv.linked.nodup, inv.linked.2, inv.linked.1, inv.unique, inv.counts, ?_, ?_⟩
  · intro label next b stepped busy
    rcases step_block stepped b with kept | ⟨_, _, _, _, chosen, _, _⟩
    · exact kept
    · have idle := (inv.linked.victim_some chosen).1
      omega
  · intro dev blockno b cache got absent
    have chosen : m.cache.victim = some b := by
      rcases bget_cases got with ⟨found, _⟩ | ⟨_, chosen, _⟩
      · rw [absent] at found
        cases found
      · exact chosen
    obtain ⟨idle, near, far, rfl, busy⟩ := inv.linked.victim_some chosen
    have oldest : ∀ a, a ≠ b → (m.cache.buf a).refcnt = 0 → Older m b a := by
      intro a apart unused
      have member := inv.linked.2 a
      simp only [List.mem_append, List.mem_cons, apart, false_or] at member
      rcases member with ahead | behind
      · exact (List.pairwise_append.mp inv.sorted).2.2 a ahead b (by simp)
      · exact absurd unused (busy a behind)
    refine ⟨near, far, rfl, idle, busy, oldest, fun proviso a apart unused => ?_⟩
    have never : ∀ c, (m.cache.buf c).refcnt = 0 → m.idle c = 0 → m.used c = false := by
      intro c empty zero
      cases isUsed : m.used c with
      | false => rfl
      | true =>
          have later := inv.touched c isUsed empty
          rw [proviso c empty, zero] at later
          omega
    rw [proviso a unused, proviso b idle]
    rcases oldest a apart unused with earlier | ⟨zeroB, zeroA⟩
    · exact .inl earlier
    · exact .inr ⟨never b idle zeroB, never a unused zeroA⟩

/-- Two processes on two blocks, one of them pinned by the log. -/
def twoBlocks : List Label :=
  let a : Fin NBUF := ⟨0, by decide⟩
  let b : Fin NBUF := ⟨1, by decide⟩
  [.bget 1 45, .bpin a, .brelse a, .bget 1 46, .bget 1 45, .brelse a, .brelse b, .bunpin a]

theorem twoBlocks_structured : ∃ m, run step boot twoBlocks = some m ∧
    ∃ order : List (Fin NBUF), order.Nodup ∧ (∀ b, b ∈ order) ∧
      Circle m.cache.links none (order.map some) := by
  have runs : (run step boot twoBlocks).isSome = true := by decide +kernel
  obtain ⟨m, ran⟩ := Option.isSome_iff_exists.mp runs
  obtain ⟨order, distinct, complete, circle, _⟩ := cache_structure ran
  exact ⟨m, ran, order, distinct, complete, circle⟩

end Results

end PaddleOs.BufferRing
