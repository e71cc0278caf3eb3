import PaddleOs.Log

/-!
What the code above the buffer cache may rely on. `Tracks s want` says that
`want` describes the current contents of some blocks: every cached copy of
such a block has that content, and the disk has it too unless a pinned or held
copy keeps it in memory. Each primitive of `bio.c` preserves `Tracks`, so the
recycling of idle buffers is invisible for tracked blocks.
-/

namespace PaddleOs

open Foundation.Outcome

/-- Buffer `b` is assigned to block `blockno` of the log's device. -/
def Holds (s : Store) (b : Fin NBUF) (blockno : Nat) : Prop :=
  (s.buf b).dev = s.log.dev ∧ (s.buf b).blockno = blockno

structure WellFormed (s : Store) : Prop where
  linked : ∀ b, b ∈ s.lru
  unique : ∀ a b blockno, Holds s a blockno → Holds s b blockno → a = b

def Tracks (s : Store) (want : Nat → Block → Prop) : Prop :=
  ∀ blockno content, want blockno content →
    (∀ b, Holds s b blockno → (s.buf b).valid = true → (s.buf b).data = content) ∧
    (s.disk.now blockno = content ∨
      ∃ b, Holds s b blockno ∧ (s.buf b).valid = true ∧ 0 < (s.buf b).refcnt)

theorem Tracks.weaken {s : Store} {want want' : Nat → Block → Prop} (tracks : Tracks s want)
    (fewer : ∀ blockno content, want' blockno content → want blockno content) :
    Tracks s want' :=
  fun blockno content wanted => tracks blockno content (fewer blockno content wanted)

/-- Replacing one buffer without changing its block keeps the cache well formed. -/
theorem setBuf_wellFormed {s : Store} (valid : WellFormed s) (b : Fin NBUF) (value : Buf)
    (sameDev : value.dev = (s.buf b).dev) (sameBlock : value.blockno = (s.buf b).blockno) :
    WellFormed (s.setBuf b value) := by
  have holds : ∀ a blockno, Holds (s.setBuf b value) a blockno ↔ Holds s a blockno := by
    intro a blockno
    by_cases same : a = b
    · subst same
      simp [Holds, sameDev, sameBlock]
    · simp [Holds, Store.setBuf_other s value same]
  constructor
  · exact valid.linked
  · intro a c blockno left right
    exact valid.unique a c blockno ((holds a blockno).mp left) ((holds c blockno).mp right)

section Fetch

variable {s after : Store} {blockno : Nat} {b : Fin NBUF}

theorem fetched_disk (fetched : Fetched s s.log.dev blockno b after) :
    after.disk = s.disk := by
  cases fetched <;> rfl

theorem fetched_log (fetched : Fetched s s.log.dev blockno b after) :
    after.log = s.log := by
  cases fetched <;> rfl

theorem fetched_holds (fetched : Fetched s s.log.dev blockno b after) :
    Holds after b blockno := by
  cases fetched with
  | hit found => simpa [Holds] using cached_found found
  | miss => simp [Holds]

theorem fetched_held (fetched : Fetched s s.log.dev blockno b after) :
    (after.buf b).valid = true ∧ 0 < (after.buf b).refcnt := by
  cases fetched <;> simp

theorem fetched_other (fetched : Fetched s s.log.dev blockno b after) {a : Fin NBUF}
    (apart : a ≠ b) : after.buf a = s.buf a := by
  cases fetched <;> exact Store.setBuf_other s _ apart

/-- A buffer somebody uses is not recycled. -/
theorem fetched_in_use (fetched : Fetched s s.log.dev blockno b after) {a : Fin NBUF}
    {held : Nat} (assigned : Holds s a held) (used : 0 < (s.buf a).refcnt) :
    Holds after a held ∧ (a = b → held = blockno) := by
  cases fetched with
  | hit found =>
      by_cases same : a = b
      · subst same
        refine ⟨by simpa [Holds] using assigned, fun _ => ?_⟩
        exact assigned.2.symm.trans (cached_found found).2
      · refine ⟨?_, fun equal => absurd equal same⟩
        simpa [Holds, Store.setBuf_other s _ same] using assigned
  | miss absent idle =>
      have same : a ≠ b := by
        intro equal
        subst equal
        omega
      refine ⟨?_, fun equal => absurd equal same⟩
      simpa [Holds, Store.setBuf_other s _ same] using assigned

theorem fetched_wellFormed (valid : WellFormed s)
    (fetched : Fetched s s.log.dev blockno b after) : WellFormed after := by
  cases fetched with
  | hit found => exact setBuf_wellFormed valid b _ rfl rfl
  | miss absent idle =>
      have elsewhere : ∀ a, a ≠ b → ¬ Holds s a blockno := by
        intro a _ assigned
        exact cached_absent absent (valid.linked a) assigned.1 assigned.2
      constructor
      · exact valid.linked
      · intro a c held left right
        by_cases isA : a = b <;> by_cases isC : c = b
        · exact isA.trans isC.symm
        · subst isA
          have inNew : held = blockno := by simpa [Holds] using left.2.symm
          have inOld : Holds s c held := by
            simpa [Holds, Store.setBuf_other s _ isC] using right
          exact absurd (inNew ▸ inOld) (elsewhere c isC)
        · subst isC
          have inNew : held = blockno := by simpa [Holds] using right.2.symm
          have inOld : Holds s a held := by
            simpa [Holds, Store.setBuf_other s _ isA] using left
          exact absurd (inNew ▸ inOld) (elsewhere a isA)
        · exact valid.unique a c held
            (by simpa [Holds, Store.setBuf_other s _ isA] using left)
            (by simpa [Holds, Store.setBuf_other s _ isC] using right)

theorem fetched_tracks {want : Nat → Block → Prop} (valid : WellFormed s)
    (tracks : Tracks s want) (fetched : Fetched s s.log.dev blockno b after) :
    Tracks after want := by
  intro tracked content wanted
  obtain ⟨copies, stored⟩ := tracks tracked content wanted
  cases fetched with
  | hit found =>
      have assigned : Holds s b blockno := cached_found found
      constructor
      · intro a holder isValid
        by_cases same : a = b
        · subst same
          have here : Holds s a tracked := by simpa [Holds] using holder
          cases filled : (s.buf a).valid with
          | true => simpa [filled] using copies a here filled
          | false =>
              -- an empty buffer of a tracked block is filled from a disk that has it
              rcases stored with onDisk | ⟨c, pinned, full, _⟩
              · simpa [filled, here.2] using onDisk
              · have equal := valid.unique c a tracked pinned here
                subst equal
                simp [filled] at full
        · rw [Store.setBuf_other s _ same] at isValid ⊢
          exact copies a (by simpa [Holds, Store.setBuf_other s _ same] using holder) isValid
      · rcases stored with onDisk | ⟨c, pinned, full, used⟩
        · exact Or.inl onDisk
        · refine Or.inr ⟨c, ?_⟩
          by_cases same : c = b
          · subst same
            simpa [Holds] using pinned
          · simpa [Holds, Store.setBuf_other s _ same] using ⟨pinned, full, used⟩
  | miss absent idle =>
      have kept : s.disk.now tracked = content ∨
          ∃ c, c ≠ b ∧ Holds s c tracked ∧ (s.buf c).valid = true ∧ 0 < (s.buf c).refcnt := by
        rcases stored with onDisk | ⟨c, pinned, full, used⟩
        · exact Or.inl onDisk
        · refine Or.inr ⟨c, ?_, pinned, full, used⟩
          intro same
          subst same
          omega
      constructor
      · intro a holder isValid
        by_cases same : a = b
        · subst same
          have here : tracked = blockno := by simpa [Holds] using holder.2.symm
          subst here
          rcases kept with onDisk | ⟨c, _, pinned, _, _⟩
          · simpa using onDisk
          · exact absurd pinned.2 (cached_absent absent (valid.linked c) pinned.1)
        · rw [Store.setBuf_other s _ same] at isValid ⊢
          exact copies a (by simpa [Holds, Store.setBuf_other s _ same] using holder) isValid
      · rcases kept with onDisk | ⟨c, same, pinned, full, used⟩
        · exact Or.inl onDisk
        · exact Or.inr ⟨c, by
            simpa [Holds, Store.setBuf_other s _ same] using ⟨pinned, full, used⟩⟩

/-- `bread` of a tracked block returns its content, in a buffer that either
mirrors the disk or is still pinned once the caller gives it back. -/
theorem fetched_content {want : Nat → Block → Prop} {content : Block}
    (valid : WellFormed s) (tracks : Tracks s want)
    (fetched : Fetched s s.log.dev blockno b after) (wanted : want blockno content) :
    (after.buf b).data = content ∧
      (after.disk.now blockno = content ∨ 2 ≤ (after.buf b).refcnt) := by
  constructor
  · exact (fetched_tracks valid tracks fetched blockno content wanted).1 b
      (fetched_holds fetched) (fetched_held fetched).1
  · rcases (tracks blockno content wanted).2 with onDisk | ⟨c, pinned, full, used⟩
    · exact Or.inl ((fetched_disk fetched).symm ▸ onDisk)
    · right
      cases fetched with
      | hit found =>
          have same := valid.unique c b blockno pinned (cached_found found)
          subst same
          simp
          omega
      | miss absent => exact absurd pinned.2 (cached_absent absent (valid.linked c) pinned.1)

end Fetch

section Primitives

variable {s : Store} {b : Fin NBUF} {blockno : Nat} {want want' : Nat → Block → Prop}

/-- One buffer changes in place. Its own block may be tracked to a new content
if the buffer shows it and either the disk has it or the buffer stays in use. -/
theorem setBuf_tracks (valid : WellFormed s) (tracks : Tracks s want)
    (holder : Holds s b blockno) (value : Buf)
    (sameDev : value.dev = (s.buf b).dev) (sameBlock : value.blockno = (s.buf b).blockno)
    (changes : ∀ tracked content, want' tracked content →
      (tracked ≠ blockno ∧ want tracked content) ∨
      (tracked = blockno ∧ (value.valid = true → value.data = content) ∧
        (s.disk.now blockno = content ∨ (value.valid = true ∧ 0 < value.refcnt)))) :
    Tracks (s.setBuf b value) want' := by
  have moved : Holds (s.setBuf b value) b blockno := by
    simpa [Holds, sameDev, sameBlock] using holder
  have still : ∀ a held, a ≠ b → (Holds (s.setBuf b value) a held ↔ Holds s a held) := by
    intro a held apart
    simp [Holds, Store.setBuf_other s _ apart]
  intro tracked content wanted
  rcases changes tracked content wanted with ⟨elsewhere, old⟩ | ⟨here, shows, kept⟩
  · obtain ⟨copies, stored⟩ := tracks tracked content old
    have apart : ∀ a, Holds s a tracked → a ≠ b := by
      intro a assigned same
      subst same
      exact elsewhere (assigned.2.symm.trans holder.2)
    constructor
    · intro a assigned full
      by_cases same : a = b
      · subst same
        exact absurd (assigned.2.symm.trans moved.2) elsewhere
      · rw [Store.setBuf_other s _ same] at full ⊢
        exact copies a ((still a tracked same).mp assigned) full
    · rcases stored with onDisk | ⟨c, pinned, full, used⟩
      · exact Or.inl onDisk
      · refine Or.inr ⟨c, (still c tracked (apart c pinned)).mpr pinned, ?_⟩
        rw [Store.setBuf_other s _ (apart c pinned)]
        exact ⟨full, used⟩
  · subst here
    constructor
    · intro a assigned full
      by_cases same : a = b
      · subst same
        rw [Store.setBuf_same] at full ⊢
        exact shows full
      · exact absurd (valid.unique a b tracked ((still a tracked same).mp assigned) holder) same
    · rcases kept with onDisk | inUse
      · exact Or.inl onDisk
      · exact Or.inr ⟨b, moved, by simpa using inUse⟩

theorem setData_tracks (valid : WellFormed s) (tracks : Tracks s want)
    (holder : Holds s b blockno)
    (held : (s.buf b).valid = true ∧ 0 < (s.buf b).refcnt) (content : Block)
    (changes : ∀ tracked value, want' tracked value →
      (tracked ≠ blockno ∧ want tracked value) ∨ (tracked = blockno ∧ content = value)) :
    Tracks (s.setBuf b { s.buf b with data := content }) want' := by
  refine setBuf_tracks valid tracks holder _ rfl rfl ?_
  intro tracked value wanted
  rcases changes tracked value wanted with elsewhere | ⟨here, equal⟩
  · exact Or.inl elsewhere
  · exact Or.inr ⟨here, fun _ => equal, Or.inr held⟩

/-- A use of the buffer ends while the disk has its content or another use remains. -/
theorem drop_tracks (valid : WellFormed s) (tracks : Tracks s want)
    (holder : Holds s b blockno) (full : (s.buf b).valid = true) (locked : Bool)
    (safe : ∀ content, want blockno content →
      s.disk.now blockno = content ∨ 2 ≤ (s.buf b).refcnt) :
    Tracks (s.setBuf b { s.buf b with locked, refcnt := (s.buf b).refcnt - 1 }) want := by
  refine setBuf_tracks valid tracks holder _ rfl rfl ?_
  intro tracked content wanted
  by_cases here : tracked = blockno
  · subst here
    refine Or.inr ⟨rfl, (tracks tracked content wanted).1 b holder, ?_⟩
    rcases safe content wanted with onDisk | more
    · exact Or.inl onDisk
    · exact Or.inr ⟨full, by simp; omega⟩
  · exact Or.inl ⟨here, wanted⟩

theorem release_wellFormed (valid : WellFormed s) : WellFormed (s.release b) := by
  have inPlace := setBuf_wellFormed valid b
    { s.buf b with locked := false, refcnt := (s.buf b).refcnt - 1 } rfl rfl
  constructor
  · intro a
    exact Store.release_lru s b a (valid.linked a)
  · intro a c held left right
    unfold Holds at left right
    rw [Store.release_buf, Store.release_log] at left right
    exact inPlace.unique a c held left right

theorem release_tracks (valid : WellFormed s) (tracks : Tracks s want)
    (holder : Holds s b blockno) (full : (s.buf b).valid = true)
    (safe : ∀ content, want blockno content →
      s.disk.now blockno = content ∨ 2 ≤ (s.buf b).refcnt) :
    Tracks (s.release b) want := by
  have inPlace := drop_tracks valid tracks holder full false safe
  unfold Tracks Holds at inPlace ⊢
  rw [Store.release_buf, Store.release_log, Store.release_disk]
  exact inPlace

theorem bwrite_tracks (tracks : Tracks s want)
    (holder : Holds s b blockno) (full : (s.buf b).valid = true) :
    Tracks { s with disk := s.disk.write blockno (s.buf b).data } want := by
  intro tracked content wanted
  obtain ⟨copies, stored⟩ := tracks tracked content wanted
  refine ⟨copies, ?_⟩
  by_cases here : tracked = blockno
  · subst here
    left
    simpa [Disk.write] using copies b holder full
  · rcases stored with onDisk | pinned
    · exact Or.inl (by simpa [Disk.write, here] using onDisk)
    · exact Or.inr pinned

end Primitives

end PaddleOs
