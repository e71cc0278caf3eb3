import PaddleOs.FileContents
import PaddleOs.Kernel

/-!
Processes that write through one open file, shared by `fork` or `dup`. `filewrite` writes in
chunks and gives the inode lock up between them, so that the chunks of several calls mix in
any order. The offset is read, used and advanced under the lock: every chunk lands where the
one before it ended.
-/

namespace PaddleOs.SharedWrites

open Foundation.Outcome
open Foundation.Runs
open Fs (JState Slot Represents clean At Loaded Sends writei ilock iunlock)
open Kernel (File writeMax)

variable {Process : Type}

/-- A call of `write`: `n` bytes in the memory of the caller, and what `copyin` delivers of
them. -/
structure Request where
  n : Int
  bytes : List UInt8
  copy : Nat → Nat → List UInt8 × Bool
  length : bytes.length = n.toNat
  sends : Sends copy bytes.length fun t => bytes.getD t 0

/-- `n1`, the number of bytes of the chunk at byte `i`. -/
def Request.n1 (req : Request) (i : Nat) : Nat := min (req.n.toNat - i) writeMax

def Request.source (req : Request) (i k m : Nat) : List UInt8 × Bool := req.copy (i + k) m

/-- Where a process stands in the loop of `filewrite`. -/
inductive Pc where
  | out
  | loop (req : Request) (i : Nat)
  | opened (req : Request) (i : Nat)
  | wrote (req : Request) (i : Nat) (r : Int)

/-- One call of `writei`: who made it, where, with which bytes, and what it returned. -/
structure Chunk (Process : Type) where
  writer : Process
  off : Nat
  bytes : List UInt8
  result : Int

/-- The open file and the processes that write to it, with the chunks and the calls so far. -/
structure Sharing (Process : Type) where
  fs : JState
  file : File
  pc : Process → Pc
  chunks : List (Chunk Process)
  calls : Process → List (List UInt8)

inductive Label (Process : Type) where
  | call (p : Process) (req : Request)
  | advance (p : Process)
  | elsewhere (fs : JState)

variable [DecidableEq Process]

def Sharing.setPc (s : Sharing Process) (p : Process) (pc : Pc) : Sharing Process :=
  { s with pc := Function.update s.pc p pc }

/-- The stretch between `ilock` and `iunlock`. -/
def locked (ip : Slot) (source : Nat → Nat → List UInt8 × Bool) (off n1 : Nat) : Fs.FsM Journal Int := do
  ilock ip
  let r ← writei ip source off n1
  iunlock ip
  return r

/-- `if (r > 0) f->off += r`. -/
def bump (f : File) (r : Int) : File := if r > 0 then { f with off := (f.off + r.toNat) % 2 ^ 32 } else f

def advance (s : Sharing Process) (p : Process) : Option (Sharing Process) :=
  match s.pc p with
  | .out => none
  | .loop req i =>
      if (i : Int) < req.n then
        match Fs.beginOp s.fs with
        | .ok _ fs => some ({ s with fs }.setPc p (.opened req i))
        | .error _ _ => none
      else some (s.setPc p .out)
  | .opened req i =>
      match locked s.file.ip (req.source i) s.file.off (req.n1 i) s.fs with
      | .ok r fs =>
          some ({ s with fs
                         file := bump s.file r
                         chunks := s.chunks ++ [⟨p, s.file.off, (req.bytes.drop i).take (req.n1 i), r⟩]
                  : Sharing Process }.setPc p (.wrote req i r))
      | .error _ _ => none
  | .wrote req i r =>
      match Fs.endOp s.fs with
      | .ok _ fs =>
          if r ≠ (req.n1 i : Int) then some ({ s with fs }.setPc p .out)
          else some ({ s with fs }.setPc p (.loop req (i + req.n1 i)))
      | .error _ _ => none

/-- `filewrite` is entered with a file of type `FD_INODE`; `elsewhere` is whatever the rest
of the kernel does to the file system. -/
def step (s : Sharing Process) : Label Process → Option (Sharing Process)
  | .call p req =>
      match s.pc p with
      | .out =>
          if s.file.type ≠ .inode then none
          else if !s.file.writable then some s
          else some ({ s with calls := Function.update s.calls p (s.calls p ++ [req.bytes]) }.setPc p (.loop req 0))
      | _ => none
  | .advance p => advance s p
  | .elsewhere fs => some { s with fs }

section Positions

/-- The chunks lie one behind the other from `off` on. -/
def Contiguous : Nat → List (Chunk Process) → Prop
  | _, [] => True
  | off, chunk :: rest => chunk.off = off ∧ Contiguous (off + chunk.bytes.length) rest

/-- The bytes of the chunks in the order in which they were written. -/
def payload (chunks : List (Chunk Process)) : List UInt8 := chunks.flatMap Chunk.bytes

omit [DecidableEq Process] in
theorem payload_append (chunks : List (Chunk Process)) (chunk : Chunk Process) :
    payload (chunks ++ [chunk]) = payload chunks ++ chunk.bytes := by
  unfold payload
  rw [List.flatMap_append, List.flatMap_singleton]

omit [DecidableEq Process] in
theorem contiguous_append {off : Nat} {chunks : List (Chunk Process)} {chunk : Chunk Process}
    (contiguous : Contiguous off chunks) (next : chunk.off = off + (payload chunks).length) :
    Contiguous off (chunks ++ [chunk]) := by
  induction chunks generalizing off with
  | nil => exact ⟨next, trivial⟩
  | cons first rest ih =>
      refine ⟨contiguous.1, ih contiguous.2 ?_⟩
      rw [next]
      unfold payload
      rw [List.flatMap_cons, List.length_append, Nat.add_assoc]

omit [DecidableEq Process] in
theorem Contiguous.bound {off : Nat} {chunks : List (Chunk Process)} (contiguous : Contiguous off chunks) :
    ∀ chunk ∈ chunks, off ≤ chunk.off := by
  induction chunks generalizing off with
  | nil => exact fun _ never => (List.not_mem_nil never).elim
  | cons first rest ih =>
      intro chunk member
      rcases List.mem_cons.mp member with rfl | later
      · exact contiguous.1.ge
      · exact (Nat.le_add_right ..).trans (ih contiguous.2 chunk later)

omit [DecidableEq Process] in
/-- Contiguous chunks do not overlap. -/
theorem Contiguous.disjoint {off : Nat} {chunks : List (Chunk Process)} (contiguous : Contiguous off chunks) :
    chunks.Pairwise fun a b => a.off + a.bytes.length ≤ b.off := by
  induction chunks generalizing off with
  | nil => exact .nil
  | cons first rest ih =>
      refine .cons (fun chunk later => ?_) (ih contiguous.2)
      rw [contiguous.1]
      exact contiguous.2.bound chunk later

end Positions

section Chunks

variable {fs fs' : JState} {v : Volume} {ip : Slot} {inum : Nat}

/-- The file system between two stretches: the file holds a reference to the inode. -/
structure Held (fs : JState) (ip : Slot) (inum : Nat) (v : Volume) : Prop where
  rep : Represents clean fs v
  owned : v.Owned
  whole : v.NoHoles
  at_ : At fs ip inum

omit [DecidableEq Process] in
theorem Request.chunk_length (req : Request) (i : Nat) :
    ((req.bytes.drop i).take (req.n1 i)).length = req.n1 i := by
  rw [List.length_take, List.length_drop, req.length]
  unfold Request.n1
  omega

theorem Request.source_sends (req : Request) {i : Nat} (below : (i : Int) < req.n) :
    Sends (req.source i) (req.n1 i) fun t => ((req.bytes.drop i).take (req.n1 i)).getD t 0 := by
  intro k m inside
  have least : req.n1 i ≤ req.n.toNat - i := Nat.min_le_left _ _
  obtain ⟨most, full, each⟩ := req.sends (i + k) m (by rw [req.length]; omega)
  refine ⟨most, full, fun t before => ?_⟩
  change t < (req.copy (i + k) m).1.length at before
  have here : k + t < req.n1 i := by omega
  refine (each t before).trans ?_
  dsimp only
  rw [List.getD_eq_getElem?_getD, List.getD_eq_getElem?_getD, List.getElem?_take, if_pos here,
    List.getElem?_drop, Nat.add_assoc]

theorem Held.store (held : Held fs ip inum v) (sb : fs'.sb = fs.sb) (inode : fs'.inode = fs.inode)
    (block : fs'.store.block = fs.store.block) : Held fs' ip inum v := by
  refine ⟨held.rep.store sb inode block, held.owned, held.whole, ?_⟩
  unfold At
  rw [inode]
  exact held.at_

/-- A chunk that was written whole took the place of what was behind the offset. -/
def Took (v v' : Volume) (inum off : Nat) (bytes : List UInt8) : Prop :=
  off ≤ (v.content inum).length ∧ off + bytes.length ≤ MAXFILE * BSIZE ∧
    v'.content inum = (v.content inum).take off ++ bytes ++ (v.content inum).drop (off + bytes.length)

theorem locked_spec (held : Held fs ip inum v) {source : Nat → Nat → List UInt8 × Bool} {off : Nat}
    {bytes : List UInt8} (sends : Sends source bytes.length fun t => bytes.getD t 0)
    (offset : off < 2 ^ 32) (count : bytes.length < 2 ^ 32) :
    outcome (locked ip source off bytes.length) (fun r fs' => ∃ v', Held fs' ip inum v' ∧
      (r = (bytes.length : Int) → Took v v' inum off bytes)) (fun _ _ => True) fs := by
  unfold locked
  rw [outcome_bind]
  refine outcome_mono (Fs.ilock_spec held.rep held.at_) ?_ fun _ _ _ => trivial
  rintro _ fs₁ ⟨rep₁, lock⟩
  have ready : Fs.Ready fs₁ v ip inum := ⟨rep₁, held.owned, held.whole, lock.loaded⟩
  have unlock : ∀ (r : Int) (fs₂ : JState) (v₂ : Volume), Fs.Ready fs₂ v₂ ip inum →
      (r = (bytes.length : Int) → Took v v₂ inum off bytes) →
      outcome (do iunlock ip; return r) (fun r fs' => ∃ v', Held fs' ip inum v' ∧
        (r = (bytes.length : Int) → Took v v' inum off bytes)) (fun _ _ => True) fs₂ := by
    intro r fs₂ v₂ ready₂ took
    rw [outcome_bind]
    refine outcome_mono (Fs.iunlock_spec ready₂.rep ready₂.loaded.1) ?_ fun _ _ _ => trivial
    rintro _ _ ⟨rep₃, rfl⟩
    rw [outcome_pure]
    refine ⟨v₂, ⟨rep₃, ready₂.owned, ready₂.whole, ?_⟩, took⟩
    unfold At
    rw [Fs.setInode_same]
    exact ready₂.loaded.at_
  rw [outcome_bind]
  by_cases small : off + bytes.length < 2 ^ 32
  · refine outcome_mono (Fs.writei_spec rep₁ held.owned lock.loaded source off bytes.length small) ?_
      fun _ _ _ => trivial
    rintro r fs₂ (⟨rfl, rfl, -⟩ | ⟨accepts, v₂, tot, rfl, wrote, stored, -⟩)
    · exact unlock _ _ v ready fun wrong => absurd wrong (by omega)
    · have evolves : v.Evolves (fun _ => False) v₂ := wrote.touch.evolves held.owned (stored.whole accepts)
      refine unlock _ _ v₂ ⟨wrote.rep, wrote.owned, evolves.whole held.whole, ?_⟩ fun all => ?_
      · exact Fs.loaded_update lock.loaded wrote.table
      · have whole : tot = bytes.length := by exact_mod_cast all
        refine ⟨?_, accepts.2, ?_⟩
        · rw [Volume.content_length]
          exact accepts.1
        · have content := stored.content accepts.1 sends (.inr whole)
          rw [whole, List.take_of_length_le (Nat.le_refl _)] at content
          exact content
  · have refuses : Fs.Refuses v inum off bytes.length := .inr (.inl (by omega))
    unfold outcome
    rw [Fs.writei_refuses ready source offset count refuses]
    exact unlock _ _ v ready fun wrong => absurd wrong (by omega)

end Chunks

section Runs

variable {s s' : Sharing Process} {off : Nat} {old : List UInt8} {ip : Slot} {inum : Nat}

/-- The bytes a process has written so far. -/
def mine (p : Process) (chunks : List (Chunk Process)) : List UInt8 :=
  payload (chunks.filter fun chunk => chunk.writer = p)

/-- A process has written the bytes of its calls in order, up to where it stands. -/
def Sent (mine : List UInt8) (calls : List (List UInt8)) : Pc → Prop
  | .out => mine = calls.flatten
  | .loop req i => ∃ earlier, calls = earlier ++ [req.bytes] ∧ mine = earlier.flatten ++ req.bytes.take i
  | .opened req i => (i : Int) < req.n ∧
      ∃ earlier, calls = earlier ++ [req.bytes] ∧ mine = earlier.flatten ++ req.bytes.take i
  | .wrote req i r => r = req.n1 i ∧
      ∃ earlier, calls = earlier ++ [req.bytes] ∧ mine = earlier.flatten ++ req.bytes.take (i + req.n1 i)

/-- The old bytes with the new ones in their place from `off` on. -/
def overlay (off : Nat) (old new : List UInt8) : List UInt8 := old.take off ++ new ++ old.drop (off + new.length)

theorem overlay_append {new bytes : List UInt8} (inside : off ≤ old.length) :
    (overlay off old new).take (off + new.length) ++ bytes ++
      (overlay off old new).drop (off + new.length + bytes.length) = overlay off old (new ++ bytes) := by
  have front : (old.take off ++ new).length = off + new.length := by
    rw [List.length_append, List.length_take, Nat.min_eq_left inside]
  unfold overlay
  rw [List.take_append_of_le_length front.ge, List.take_of_length_le front.le, ← List.drop_drop,
    List.drop_append_of_le_length front.ge, List.drop_of_length_le front.le, List.nil_append, List.drop_drop,
    List.length_append, ← List.append_assoc, Nat.add_assoc]

/-- The chunks so far lie one behind the other, the offset is behind the last, and the file
has the bytes of the chunks there. -/
structure Lined (off : Nat) (old : List UInt8) (ip : Slot) (inum : Nat) (s : Sharing Process) : Prop where
  slot : s.file.ip = ip
  contiguous : Contiguous off s.chunks
  offset : s.file.off = off + (payload s.chunks).length
  small : s.file.off < 2 ^ 32
  start : s.chunks ≠ [] → off ≤ old.length
  disk : ∃ v, Held s.fs ip inum v ∧ v.content inum = overlay off old (payload s.chunks)
  order : ∀ p, Sent (mine p s.chunks) (s.calls p) (s.pc p)

/-- Every `writei` wrote all it was asked to. -/
def Succeeds (s : Sharing Process) : Prop := ∀ chunk ∈ s.chunks, chunk.result = (chunk.bytes.length : Int)

/-- What goes on elsewhere leaves the inode alone: there is no other writer and no truncation. -/
def Alone (inum : Nat) (s : Sharing Process) : Label Process → Prop
  | .elsewhere fs => ∀ v, Held s.fs s.file.ip inum v →
      ∃ v', Held fs s.file.ip inum v' ∧ v'.content inum = v.content inum
  | _ => True

theorem Lined.move (lined : Lined off old ip inum s) {fs : JState} {p : Process} {pc : Pc}
    (held : ∀ v, Held s.fs ip inum v → Held fs ip inum v) (sent : Sent (mine p s.chunks) (s.calls p) pc) :
    Lined off old ip inum ({ s with fs }.setPc p pc) := by
  obtain ⟨v, here, content⟩ := lined.disk
  refine ⟨lined.slot, lined.contiguous, lined.offset, lined.small, lined.start, ⟨v, held v here, content⟩, fun q => ?_⟩
  change Sent (mine q s.chunks) (s.calls q) (Function.update s.pc p pc q)
  by_cases same : q = p
  · rw [same, Function.update_self]
    exact sent
  · rw [Function.update_of_ne same]
    exact lined.order q

theorem mine_append (p : Process) (chunks : List (Chunk Process)) (chunk : Chunk Process) :
    mine p (chunks ++ [chunk]) = if chunk.writer = p then mine p chunks ++ chunk.bytes else mine p chunks := by
  unfold mine
  rw [List.filter_append]
  by_cases own : chunk.writer = p
  · rw [if_pos own, List.filter_cons_of_pos (by simpa using own), List.filter_nil, payload_append]
  · rw [if_neg own, List.filter_cons_of_neg (by simpa using own), List.filter_nil, List.append_nil]

/-- A chunk that was written whole goes behind the others. -/
theorem Lined.write (lined : Lined off old ip inum s) {p : Process} {req : Request} {i : Nat} {r : Int}
    {fs : JState} {earlier : List (List UInt8)} (below : (i : Int) < req.n)
    (calls : s.calls p = earlier ++ [req.bytes])
    (sent : mine p s.chunks = earlier.flatten ++ req.bytes.take i)
    (wrote : locked s.file.ip (req.source i) s.file.off (req.n1 i) s.fs = .ok r fs)
    (all : r = (((req.bytes.drop i).take (req.n1 i)).length : Int)) :
    Lined off old ip inum ({ s with
      fs
      file := bump s.file r
      chunks := s.chunks ++ [⟨p, s.file.off, (req.bytes.drop i).take (req.n1 i), r⟩]
      : Sharing Process }.setPc p (.wrote req i r)) := by
  obtain ⟨v, held, content⟩ := lined.disk
  have length := req.chunk_length i
  have sends := req.source_sends below
  generalize chunk : (req.bytes.drop i).take (req.n1 i) = bytes at all length sends ⊢
  rw [lined.slot, ← length] at wrote
  rw [← length] at sends
  have limit : MAXFILE * BSIZE < 2 ^ 32 := by decide
  have short : bytes.length < 2 ^ 32 := by
    have most : req.n1 i ≤ writeMax := Nat.min_le_right _ _
    have bound : writeMax < 2 ^ 32 := by decide
    omega
  obtain ⟨v', held', took⟩ := outcome_of_ok (locked_spec held sends lined.small short) wrote
  obtain ⟨inside, fits, content'⟩ := took all
  rw [lined.offset] at fits inside content'
  have moved : (bump s.file r).off = off + (payload s.chunks).length + bytes.length := by
    have here := lined.offset
    unfold bump
    rw [all]
    split
    · dsimp only
      rw [Int.toNat_natCast, Nat.mod_eq_of_lt (by omega), here]
    · omega
  have slot : (bump s.file r).ip = ip := by
    unfold bump
    split
    · exact lined.slot
    · exact lined.slot
  have first : off ≤ old.length := by
    rcases List.eq_nil_or_concat s.chunks with none_ | some_
    · rw [content, none_] at inside
      unfold overlay payload at inside
      rw [List.flatMap_nil, List.append_nil, List.length_nil, Nat.add_zero, List.take_append_drop] at inside
      exact inside
    · obtain ⟨init, last, are⟩ := some_
      refine lined.start ?_
      rw [are, List.concat_eq_append]
      exact List.append_ne_nil_of_right_ne_nil _ (List.cons_ne_nil _ _)
  refine ⟨slot, contiguous_append lined.contiguous lined.offset, ?_, ?_, fun _ => first, ⟨v', held', ?_⟩, fun q => ?_⟩
  · change (bump s.file r).off = off + (payload (s.chunks ++ [_])).length
    rw [moved, payload_append, List.length_append, Nat.add_assoc]
  · change (bump s.file r).off < 2 ^ 32
    omega
  · change v'.content inum = overlay off old (payload (s.chunks ++ [_]))
    rw [content', content, overlay_append first, payload_append]
  · change Sent (mine q (s.chunks ++ [_])) (s.calls q) (Function.update s.pc p (.wrote req i r) q)
    rw [mine_append]
    by_cases same : q = p
    · subst same
      rw [if_pos rfl, Function.update_self]
      refine ⟨by rw [all, length], earlier, calls, ?_⟩
      rw [sent, List.append_assoc, List.take_add, chunk]
    · rw [if_neg (Ne.symm same), Function.update_of_ne same]
      exact lined.order q

theorem call_lined {p : Process} {req : Request} (lined : Lined off old ip inum s)
    (stepped : step s (.call p req) = some s') : Lined off old ip inum s' := by
  have order := lined.order p
  simp only [step] at stepped
  split at stepped
  · rename_i at_
    rw [at_] at order
    split at stepped
    · cases stepped
    · split at stepped
      · cases stepped
        exact lined
      · cases stepped
        refine ⟨lined.slot, lined.contiguous, lined.offset, lined.small, lined.start, lined.disk, fun q => ?_⟩
        change Sent (mine q s.chunks) (Function.update s.calls p (s.calls p ++ [req.bytes]) q)
          (Function.update s.pc p (.loop req 0) q)
        by_cases same : q = p
        · rw [same, Function.update_self, Function.update_self]
          refine ⟨s.calls p, rfl, ?_⟩
          rw [List.take_zero, List.append_nil]
          exact order
        · rw [Function.update_of_ne same, Function.update_of_ne same]
          exact lined.order q
  · cases stepped

theorem advance_lined {p : Process} (lined : Lined off old ip inum s) (ran : advance s p = some s')
    (succeeds : Succeeds s') : Lined off old ip inum s' := by
  have order := lined.order p
  unfold advance at ran
  split at ran
  · cases ran
  · rename_i req i at_
    rw [at_] at order
    split at ran
    · rename_i more
      split at ran
      · rename_i fs began
        cases ran
        refine lined.move (fun v held => ?_) ⟨more, order⟩
        cases began
        exact held.store rfl rfl rfl
      · cases ran
    · rename_i past
      cases ran
      obtain ⟨earlier, calls, sent⟩ := order
      refine lined.move (fun _ held => held) ?_
      change _ = _
      rw [sent, calls, List.take_of_length_le (by rw [req.length]; omega), List.flatten_append,
        List.flatten_singleton]
  · rename_i req i at_
    rw [at_] at order
    obtain ⟨below, earlier, calls, sent⟩ := order
    split at ran
    · rename_i r fs wrote
      cases ran
      exact lined.write below calls sent wrote (succeeds _ (List.mem_append_right _ (List.mem_singleton_self _)))
    · cases ran
  · rename_i req i r at_
    rw [at_] at order
    obtain ⟨rfl, earlier, calls, sent⟩ := order
    split at ran
    · rename_i fs ended
      rw [if_neg (by simp)] at ran
      cases ran
      refine lined.move (fun v held => ?_) ⟨earlier, calls, sent⟩
      cases ended
      exact held.store rfl rfl rfl
    · cases ran

theorem step_chunks {label : Label Process} (stepped : step s label = some s') : s.chunks ⊆ s'.chunks := by
  cases label with
  | call p req =>
      simp only [step] at stepped
      split at stepped
      · split at stepped
        · cases stepped
        · split at stepped
          · cases stepped
            exact List.Subset.refl _
          · cases stepped
            exact List.Subset.refl _
      · cases stepped
  | advance p =>
      simp only [step, advance] at stepped
      split at stepped
      · cases stepped
      · split at stepped
        · split at stepped
          · cases stepped
            exact List.Subset.refl _
          · cases stepped
        · cases stepped
          exact List.Subset.refl _
      · split at stepped
        · cases stepped
          exact List.subset_append_left _ _
        · cases stepped
      · split at stepped
        · split at stepped
          · cases stepped
            exact List.Subset.refl _
          · cases stepped
            exact List.Subset.refl _
        · cases stepped
  | elsewhere fs =>
      cases stepped
      exact List.Subset.refl _

theorem step_lined {label : Label Process} (lined : Lined off old ip inum s) (alone : Alone inum s label)
    (stepped : step s label = some s') (succeeds : Succeeds s') : Lined off old ip inum s' := by
  cases label with
  | call p req => exact call_lined lined stepped
  | advance p => exact advance_lined lined stepped succeeds
  | elsewhere fs =>
      cases stepped
      obtain ⟨v, held, content⟩ := lined.disk
      rw [← lined.slot] at held
      obtain ⟨v', held', content'⟩ := alone v held
      rw [lined.slot] at held'
      exact ⟨lined.slot, lined.contiguous, lined.offset, lined.small, lined.start,
        ⟨v', held', content'.trans content⟩, lined.order⟩

/-- Nobody is in `filewrite`, and nothing has been written. -/
structure Fresh (s : Sharing Process) : Prop where
  pc : ∀ p, s.pc p = .out
  chunks : s.chunks = []
  calls : ∀ p, s.calls p = []
  offset : s.file.off < 2 ^ 32

/-- The chunks of all writers lie one behind the other from the first offset on, whoever
wrote them; the offset ends behind the last, every process has written its bytes in order,
and all of them are in the file. -/
theorem writers_lose_nothing {start : Sharing Process} {v : Volume} {labels : List (Label Process)}
    (fresh : Fresh start) (held : Held start.fs start.file.ip inum v)
    (ran : run step start labels = some s) (succeeds : Succeeds s)
    (alone : ∀ before label after middle, labels = before ++ label :: after →
      run step start before = some middle → Alone inum middle label) :
    Contiguous start.file.off s.chunks ∧
    (s.chunks.Pairwise fun a b => a.off + a.bytes.length ≤ b.off) ∧
    s.file.off = start.file.off + (payload s.chunks).length ∧
    (∀ p, Sent (mine p s.chunks) (s.calls p) (s.pc p)) ∧
    ∃ v', Held s.fs start.file.ip inum v' ∧
      v'.content inum = overlay start.file.off (v.content inum) (payload s.chunks) := by
  have initial : Lined start.file.off (v.content inum) start.file.ip inum start := by
    refine ⟨rfl, ?_, ?_, fresh.offset, fun some_ => absurd fresh.chunks some_, ⟨v, held, ?_⟩, fun p => ?_⟩
    · rw [fresh.chunks]
      trivial
    · rw [fresh.chunks]
      rfl
    · rw [fresh.chunks]
      unfold overlay payload
      rw [List.flatMap_nil, List.append_nil, List.length_nil, Nat.add_zero, List.take_append_drop]
    · rw [fresh.chunks, fresh.calls, fresh.pc]
      rfl
  have lined : Lined start.file.off (v.content inum) start.file.ip inum s := by
    refine run_invariant_where step (Alone inum)
      (fun s => Succeeds s → Lined start.file.off (v.content inum) start.file.ip inum s)
      (fun _ => initial) ?_ ran alone succeeds
    intro s label s' before met stepped after
    exact step_lined (before fun chunk member => after chunk (step_chunks stepped member)) met stepped after
  exact ⟨lined.contiguous, lined.contiguous.disjoint, lined.offset, lined.order, lined.disk⟩

end Runs

section Example

open Fs (mounted shown)

/-- A call whose buffer is mapped. -/
def mapped (bytes : List UInt8) : Request where
  n := bytes.length
  bytes
  copy := Fs.kernelSource bytes
  length := (Int.toNat_natCast _).symm
  sends := Fs.kernelSource_sends bytes

/-- The inode of the root, found. -/
def found : JState :=
  match Fs.iget ROOTDEV ROOTINO (mounted tinyDisk) with
  | .ok _ s => s
  | .error _ s => s

/-- A file that is open on it. -/
def shared : Sharing Bool where
  fs := found
  file := { type := .inode, ref := 2, readable := true, writable := true, pipe := 0
            ip := ⟨0, ninode_pos⟩, off := 0, major := 0 }
  pc _ := .out
  chunks := []
  calls _ := []

/-- Both processes write, and the second comes first. -/
def turns : List (Label Bool) :=
  [.call false (mapped [1, 2]), .call true (mapped [3]), .advance false, .advance true, .advance true,
    .advance false, .advance false, .advance true]

theorem found_held : Held found ⟨0, by decide⟩ ROOTINO tinyVolume := by
  have whole : ∀ d, (shown (mounted tinyDisk)).IsDir d → (shown (mounted tinyDisk)).Whole d :=
    fun d dir => tiny_whole d dir.1
  have good : Fs.Good (mounted tinyDisk) tinyVolume := tiny_consistent.good whole fun _ => rfl
  have here : 0 < (found.inode ⟨0, by decide⟩).ref ∧ (found.inode ⟨0, by decide⟩).inum = ROOTINO := by
    decide +kernel
  refine ⟨?_, good.owned, tiny_whole, here⟩
  have spec := Fs.iget_spec good.rep good.rep.sane.rootino
  unfold found
  cases ran : Fs.iget ROOTDEV ROOTINO (mounted tinyDisk) with
  | ok k s =>
      have rep := (outcome_of_ok spec ran).1
      exact rep
  | error stop s =>
      have returns : (match Fs.iget ROOTDEV ROOTINO (mounted tinyDisk) with
        | .ok _ _ => true
        | .error _ _ => false) = true := by decide +kernel
      rw [ran] at returns
      cases returns

theorem writers_lose_nothing_turns : ∃ s, run step shared turns = some s ∧ s.file.off = 3 ∧
    ∃ v', Held s.fs ⟨0, by decide⟩ ROOTINO v' ∧ v'.content ROOTINO = [3, 1, 2] := by
  have ends : (run step shared turns).any (fun s => decide (payload s.chunks = [3, 1, 2]) &&
      s.chunks.all fun chunk => decide (chunk.result = chunk.bytes.length)) = true := by decide +kernel
  obtain ⟨s, ran, test⟩ := (Option.any_eq_true _ _).mp ends
  obtain ⟨order, results⟩ := (Bool.and_eq_true _ _).mp test
  have bytes := of_decide_eq_true order
  have fresh : Fresh shared := ⟨fun _ => rfl, rfl, fun _ => rfl, by decide⟩
  have succeeds : Succeeds s := fun chunk member =>
    of_decide_eq_true (List.all_eq_true.mp results chunk member)
  obtain ⟨-, -, off, -, v', held, content⟩ := writers_lose_nothing fresh found_held ran succeeds (by
    intro before label after middle split _
    cases label with
    | elsewhere fs =>
        have member : Label.elsewhere fs ∈ turns := by
          rw [split]
          exact List.mem_append_right _ (List.mem_cons_self ..)
        simp [turns] at member
    | _ => trivial)
  have empty : tinyVolume.content ROOTINO = [] := by
    unfold Volume.content
    rw [tiny_size]
    rfl
  rw [bytes] at off content
  rw [empty] at content
  exact ⟨s, ran, off, v', held, content⟩

end Example

end PaddleOs.SharedWrites
