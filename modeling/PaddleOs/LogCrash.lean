import PaddleOs.CacheTracking

/-!
Crash atomicity of `commit` and `recover_from_log`. A crash between two
`bwrite` calls leaves one of the contents the disk has had during the run, and
nothing of the memory. The two invariants `Before` and `Committed` describe the
disks on either side of the first `write_head`; each is kept by every later
write, and recovery ends from either with an empty header.
-/

namespace PaddleOs

open Foundation.LittleEndian
open Foundation.Outcome

/-- What the cache keeps across one block write: it is well formed and tracks `want`. -/
structure Kept (log : Log) (want : Nat → Block → Prop) (s : Store) : Prop where
  formed : WellFormed s
  tracks : Tracks s want
  sameLog : s.log = log

section Steps

variable {log : Log} {want want' : Nat → Block → Prop} {s : Store} {b : Fin NBUF} {blockno : Nat}

theorem bwrite_kept (kept : Kept log want s) (holder : Holds s b blockno)
    (full : (s.buf b).valid = true) :
    outcome (bwrite b)
      (fun _ after => Kept log want after ∧ after.buf = s.buf ∧
        after.disk = s.disk.write blockno (s.buf b).data)
      (fun _ after => after.disk = s.disk) s := by
  refine outcome_mono (bwrite_outcome b s) ?_ (fun _ after same => by rw [same])
  rintro _ after rfl
  rw [holder.2]
  exact ⟨⟨⟨kept.formed.linked, kept.formed.unique⟩, bwrite_tracks kept.tracks holder full,
    kept.sameLog⟩, rfl, rfl⟩

theorem brelse_kept (kept : Kept log want s) (holder : Holds s b blockno)
    (full : (s.buf b).valid = true)
    (safe : ∀ content, want blockno content →
      s.disk.now blockno = content ∨ 2 ≤ (s.buf b).refcnt) :
    outcome (brelse b)
      (fun _ after => Kept log want after ∧ after.disk = s.disk ∧
        ∀ a, a ≠ b → after.buf a = s.buf a)
      (fun _ after => after.disk = s.disk) s := by
  refine outcome_mono (brelse_outcome b s) ?_ (fun _ after same => by rw [same])
  rintro _ after rfl
  refine ⟨⟨release_wellFormed kept.formed,
    release_tracks kept.formed kept.tracks holder full safe,
    (Store.release_log s b).trans kept.sameLog⟩, Store.release_disk s b, ?_⟩
  intro a apart
  rw [Store.release_buf, Store.setBuf_other s _ apart]

/-- The block of a buffer is the same in two states that agree on it. -/
theorem Kept.holds {after : Store} (kept : Kept log want s) (later : Kept log want' after)
    (holder : Holds s b blockno) (sameDev : (after.buf b).dev = (s.buf b).dev)
    (sameBlock : (after.buf b).blockno = (s.buf b).blockno) : Holds after b blockno := by
  constructor
  · rw [sameDev, later.sameLog, ← kept.sameLog]
    exact holder.1
  · exact sameBlock.trans holder.2

/-- The cache depends on `log.dev` only. -/
theorem Kept.relog (kept : Kept log want s) (log' : Log) (sameDev : log'.dev = log.dev) :
    Kept log' want { s with log := log' } := by
  have holds : ∀ c held, Holds { s with log := log' } c held ↔ Holds s c held := by
    intro c held
    unfold Holds
    rw [kept.sameLog]
    change _ = log'.dev ∧ _ ↔ _
    rw [sameDev]
  refine ⟨⟨kept.formed.linked, ?_⟩, ?_, rfl⟩
  · intro a c held left right
    exact kept.formed.unique a c held ((holds a held).mp left) ((holds c held).mp right)
  · intro tracked content wanted
    simpa only [holds] using kept.tracks tracked content wanted

/-- Two `bread` calls on different blocks: both buffers are held at the end. -/
theorem bread_pair (kept : Kept log want s) (first second : Nat) (apart : second ≠ first)
    (post : Fin NBUF → Fin NBUF → Store → Prop) (fail : Stop → Store → Prop)
    (clean : ∀ stop after, after.disk = s.disk → fail stop after)
    (fetched : ∀ a c after, Kept log want after → after.disk = s.disk → a ≠ c →
      Holds after a first → (after.buf a).valid = true ∧ 0 < (after.buf a).refcnt →
      Holds after c second → (after.buf c).valid = true ∧ 0 < (after.buf c).refcnt →
      (∀ content, want first content → (after.buf a).data = content ∧
        (after.disk.now first = content ∨ 2 ≤ (after.buf a).refcnt)) →
      (∀ content, want second content → (after.buf c).data = content ∧
        (after.disk.now second = content ∨ 2 ≤ (after.buf c).refcnt)) →
      post a c after) :
    outcome (bread log.dev first)
      (fun a middle => outcome (bread log.dev second) (fun c after => post a c after) fail middle)
      fail s := by
  obtain ⟨formed, tracks, rfl⟩ := kept
  refine outcome_mono (bread_outcome _ _ s) ?_ clean
  intro a s1 fetchedA
  have log1 := fetched_log fetchedA
  have formed1 := fetched_wellFormed formed fetchedA
  have tracks1 := fetched_tracks formed tracks fetchedA
  refine outcome_mono (bread_outcome _ _ s1) ?_
    (fun stop after same => clean stop after (same.trans (fetched_disk fetchedA)))
  intro c s2 fetchedC
  rw [← log1] at fetchedC
  obtain ⟨holdsA, sameBlock⟩ := fetched_in_use fetchedC (fetched_holds fetchedA)
    (fetched_held fetchedA).2
  have distinct : a ≠ c := fun same => apart (sameBlock same).symm
  have unmoved : s2.buf a = s1.buf a := fetched_other fetchedC distinct
  apply fetched a c s2
  · exact ⟨fetched_wellFormed formed1 fetchedC, fetched_tracks formed1 tracks1 fetchedC,
      (fetched_log fetchedC).trans log1⟩
  · exact (fetched_disk fetchedC).trans (fetched_disk fetchedA)
  · exact distinct
  · exact holdsA
  · rw [unmoved]
    exact fetched_held fetchedA
  · exact fetched_holds fetchedC
  · exact fetched_held fetchedC
  · intro content wanted
    rw [unmoved, fetched_disk fetchedC]
    exact fetched_content formed tracks fetchedA wanted
  · intro content wanted
    exact fetched_content formed1 tracks1 fetchedC wanted

/-- `memmove` into a held buffer followed by its `bwrite`. -/
theorem copy_written (kept : Kept log want s) (holder : Holds s b blockno)
    (held : (s.buf b).valid = true ∧ 0 < (s.buf b).refcnt) (content : Block)
    (changes : ∀ tracked value, want' tracked value →
      (tracked ≠ blockno ∧ want tracked value) ∨ (tracked = blockno ∧ content = value)) :
    outcome (bwrite b)
      (fun _ after => Kept log want' after ∧ (∀ a, a ≠ b → after.buf a = s.buf a) ∧
        after.buf b = { s.buf b with data := content } ∧
        after.disk = s.disk.write blockno content)
      (fun _ after => after.disk = s.disk) (s.setBuf b { s.buf b with data := content }) := by
  have copied : Kept log want' (s.setBuf b { s.buf b with data := content }) :=
    ⟨setBuf_wellFormed kept.formed b _ rfl rfl,
      setData_tracks kept.formed kept.tracks holder held content changes, kept.sameLog⟩
  have still : Holds (s.setBuf b { s.buf b with data := content }) b blockno := by
    simpa [Holds] using holder
  refine outcome_post (bwrite_kept copied still (by simpa using held.1)) ?_
  rintro _ after ⟨later, bufs, disk⟩
  refine ⟨later, ?_, ?_, ?_⟩
  · intro a apart
    rw [bufs, Store.setBuf_other s _ apart]
  · rw [bufs, Store.setBuf_same]
  · simpa using disk

/-- Both buffers of a copy are given back, the source first. -/
theorem release_pair {c : Fin NBUF} {other : Nat} (kept : Kept log want s) (apart : b ≠ c)
    (holdsB : Holds s b blockno) (fullB : (s.buf b).valid = true)
    (safeB : ∀ content, want blockno content →
      s.disk.now blockno = content ∨ 2 ≤ (s.buf b).refcnt)
    (holdsC : Holds s c other) (fullC : (s.buf c).valid = true)
    (safeC : ∀ content, want other content → s.disk.now other = content)
    (post : Store → Prop) (fail : Stop → Store → Prop)
    (done : ∀ after, Kept log want after → after.disk = s.disk → post after)
    (bad : ∀ stop after, after.disk = s.disk → fail stop after) :
    outcome (brelse b)
      (fun _ middle => outcome (brelse c) (fun _ after => post after) fail middle) fail s := by
  refine outcome_mono (brelse_kept kept holdsB fullB safeB) ?_ bad
  rintro _ middle ⟨keptM, diskM, others⟩
  have unmoved := others c apart.symm
  have holdsM : Holds middle c other :=
    kept.holds keptM holdsC (by rw [unmoved]) (by rw [unmoved])
  refine outcome_mono (brelse_kept keptM holdsM (by rw [unmoved]; exact fullC) ?_) ?_
    (fun stop after same => bad stop after (same.trans diskM))
  · intro content wanted
    left
    rw [diskM]
    exact safeC content wanted
  · rintro _ after ⟨keptA, diskA, _⟩
    exact done after keptA (diskA.trans diskM)

theorem write_log_step (kept : Kept log want s) (tail : Nat) (content : Block)
    (wanted : want (log.lh.block tail) content)
    (apart : log.lh.block tail ≠ log.start + tail + 1)
    (changes : ∀ tracked value, want' tracked value →
      (tracked ≠ log.start + tail + 1 ∧ want tracked value) ∨
      (tracked = log.start + tail + 1 ∧ content = value)) :
    outcome (writeLogStep tail)
      (fun _ after => Kept log want' after ∧
        after.disk = s.disk.write (log.start + tail + 1) content)
      (fun _ after => after.disk = s.disk ∨
        after.disk = s.disk.write (log.start + tail + 1) content) s := by
  unfold writeLogStep
  simp only [outcome_bind, outcome_get, kept.sameLog]
  refine bread_pair kept (log.start + tail + 1) (log.lh.block tail) apart _ _
    (fun _ _ same => Or.inl same) ?_
  intro toBuf fromBuf s2 kept2 disk2 distinct holdsTo heldTo holdsFrom heldFrom _ contentFrom
  simp only [setData, outcome_modify, (contentFrom content wanted).1]
  refine outcome_mono (copy_written kept2 holdsTo heldTo content changes) ?_
    (fun _ _ same => Or.inl (same.trans disk2))
  rintro _ s4 ⟨kept4, others, written, disk4⟩
  rw [disk2] at disk4
  have unmoved := others fromBuf distinct.symm
  refine release_pair kept4 distinct.symm
    (kept2.holds kept4 holdsFrom (by rw [unmoved]) (by rw [unmoved]))
    (by rw [unmoved]; exact heldFrom.1) ?_
    (kept2.holds kept4 holdsTo (by rw [written]) (by rw [written]))
    (by rw [written]; exact heldTo.1) ?_ _ _
    (fun after keptA same => ⟨keptA, same.trans disk4⟩)
    (fun _ _ same => Or.inr (same.trans disk4))
  · intro value now
    rcases changes _ _ now with ⟨_, old⟩ | ⟨same, _⟩
    · rw [unmoved, disk4]
      simpa [Disk.write, apart, ← disk2] using (contentFrom value old).2
    · exact absurd same apart
  · intro value now
    rcases changes _ _ now with ⟨elsewhere, _⟩ | ⟨_, equal⟩
    · exact absurd rfl elsewhere
    · rw [disk4]
      simpa [Disk.write] using equal

theorem install_trans_step (recovering : Bool) (kept : Kept log want s) (tail : Nat)
    (content : Block) (wanted : want (log.start + tail + 1) content)
    (apart : log.lh.block tail ≠ log.start + tail + 1)
    (changes : ∀ tracked value, want' tracked value →
      (tracked ≠ log.lh.block tail ∧ want tracked value) ∨
      (tracked = log.lh.block tail ∧ content = value)) :
    outcome (installTransStep recovering tail)
      (fun _ after => Kept log want' after ∧
        after.disk = s.disk.write (log.lh.block tail) content)
      (fun _ after => after.disk = s.disk ∨
        after.disk = s.disk.write (log.lh.block tail) content) s := by
  unfold installTransStep
  simp only [outcome_bind, outcome_get, kept.sameLog]
  refine bread_pair kept (log.start + tail + 1) (log.lh.block tail) apart _ _
    (fun _ _ same => Or.inl same) ?_
  intro lbuf dbuf s2 kept2 disk2 distinct holdsL heldL holdsD heldD contentL _
  simp only [setData, outcome_modify, (contentL content wanted).1]
  refine outcome_mono (copy_written kept2 holdsD heldD content changes) ?_
    (fun _ _ same => Or.inl (same.trans disk2))
  rintro _ s4 ⟨kept4, others, written, disk4⟩
  rw [disk2] at disk4
  have onDisk : ∀ value, want' (log.lh.block tail) value →
      s4.disk.now (log.lh.block tail) = value := by
    intro value now
    rcases changes _ _ now with ⟨elsewhere, _⟩ | ⟨_, equal⟩
    · exact absurd rfl elsewhere
    · rw [disk4]
      simpa [Disk.write] using equal
  have holdsD4 : Holds s4 dbuf (log.lh.block tail) :=
    kept2.holds kept4 holdsD (by rw [written]) (by rw [written])
  have fullD4 : (s4.buf dbuf).valid = true := by rw [written]; exact heldD.1
  -- `bunpin` is skipped during recovery; the disk already has the block either way
  have unpinned : ∀ s5 : Store, Kept log want' s5 → s5.disk = s4.disk →
      s5.buf lbuf = s2.buf lbuf → Holds s5 dbuf (log.lh.block tail) →
      (s5.buf dbuf).valid = true →
      outcome (brelse lbuf) (fun _ middle => outcome (brelse dbuf)
        (fun _ after => Kept log want' after ∧
          after.disk = s.disk.write (log.lh.block tail) content)
        (fun _ after => after.disk = s.disk ∨
          after.disk = s.disk.write (log.lh.block tail) content) middle)
        (fun _ after => after.disk = s.disk ∨
          after.disk = s.disk.write (log.lh.block tail) content) s5 := by
    intro s5 kept5 disk5 unmoved holdsD5 fullD5
    refine release_pair kept5 distinct
      (kept2.holds kept5 holdsL (by rw [unmoved]) (by rw [unmoved]))
      (by rw [unmoved]; exact heldL.1) ?_ holdsD5 fullD5
      (fun value now => by rw [disk5]; exact onDisk value now) _ _
      (fun after keptA same => ⟨keptA, same.trans (disk5.trans disk4)⟩)
      (fun _ _ same => Or.inr (same.trans (disk5.trans disk4)))
    intro value now
    rcases changes _ _ now with ⟨_, old⟩ | ⟨same, _⟩
    · rw [unmoved, disk5, disk4]
      simpa [Disk.write, apart.symm, ← disk2] using (contentL value old).2
    · exact absurd same.symm apart
  cases recovering with
  | true =>
      simp only [Bool.not_true, Bool.false_eq_true, ↓reduceIte, outcome_bind]
      exact unpinned s4 kept4 rfl (others lbuf distinct) holdsD4 fullD4
  | false =>
      simp only [Bool.not_false, ↓reduceIte, bunpin, outcome_bind, outcome_modify]
      apply unpinned
      · exact ⟨setBuf_wellFormed kept4.formed dbuf _ rfl rfl,
          drop_tracks kept4.formed kept4.tracks holdsD4 fullD4 _
            (fun value now => Or.inl (onDisk value now)), kept4.sameLog⟩
      · rfl
      · rw [Store.setBuf_other s4 _ distinct]
        exact others lbuf distinct
      · simpa [Holds] using holdsD4
      · simpa using fullD4

/-- `write_head` stores the header over whatever else its block holds. -/
theorem write_head_outcome (kept : Kept log want s)
    (changes : ∀ tracked value, want' tracked value →
      tracked ≠ log.start ∧ want tracked value) :
    outcome writeHead
      (fun _ after => Kept log want' after ∧
        ∃ data, after.disk = s.disk.write log.start (putHeader log.lh data))
      (fun _ after => after.disk = s.disk ∨
        ∃ data, after.disk = s.disk.write log.start (putHeader log.lh data)) s := by
  obtain ⟨formed, tracks, rfl⟩ := kept
  unfold writeHead
  simp only [outcome_bind, outcome_get]
  refine outcome_mono (bread_outcome _ _ s) ?_ (fun _ _ same => Or.inl same)
  intro b s1 fetched
  have disk1 := fetched_disk fetched
  have kept1 : Kept s.log want s1 := ⟨fetched_wellFormed formed fetched,
    fetched_tracks formed tracks fetched, fetched_log fetched⟩
  simp only [setData, outcome_modify]
  refine outcome_mono (copy_written kept1 (fetched_holds fetched) (fetched_held fetched) _
    (fun tracked value now => Or.inl (changes tracked value now))) ?_
    (fun _ _ same => Or.inl (same.trans disk1))
  rintro _ s2 ⟨kept2, _, written, disk2⟩
  rw [disk1] at disk2
  refine outcome_mono (brelse_kept kept2
    (kept1.holds kept2 (fetched_holds fetched) (by rw [written]) (by rw [written]))
    (by rw [written]; exact (fetched_held fetched).1)
    (fun value now => absurd rfl (changes _ value now).1)) ?_
    (fun _ _ same => Or.inr ⟨_, same.trans disk2⟩)
  rintro _ after ⟨keptA, diskA, _⟩
  exact ⟨keptA, _, diskA.trans disk2⟩

end Steps

section Transactions

/-- The blocks `log.start`, …, `log.start + log.size - 1`. -/
def InLog (log : Log) (blockno : Nat) : Prop :=
  log.start ≤ blockno ∧ (blockno : Int) < log.start + log.size

/-- The header of a transaction of `n` blocks as `log_write` builds it. -/
structure Transaction (log : Log) (n : Nat) : Prop where
  count : log.lh.n = n
  positive : 0 < n
  room : (n : Int) ≤ log.size - 1
  array : n ≤ LOGSIZE
  distinct : ∀ i < n, ∀ j < n, log.lh.block i = log.lh.block j → i = j
  outside : ∀ i < n, ¬ InLog log (log.lh.block i)
  words : ∀ i < n, log.lh.block i < 2 ^ 32

/-- No transaction is recorded on the disk and no home block has moved. -/
def Before (log : Log) (origin disk : Nat → Block) : Prop :=
  headerCount (disk log.start) = 0 ∧
    ∀ blockno, ¬ InLog log blockno → disk blockno = origin blockno

/-- The header and the log area hold the whole transaction. -/
def Logged (log : Log) (n : Nat) (content : Nat → Block) (disk : Nat → Block) : Prop :=
  headerCount (disk log.start) = n ∧
    (∀ i < n, headerBlock (disk log.start) i = log.lh.block i) ∧
    ∀ i < n, disk (log.start + i + 1) = content i

/-- The header is empty again and every block of the transaction is at home. -/
def Installed (log : Log) (n : Nat) (content : Nat → Block) (disk : Nat → Block) : Prop :=
  headerCount (disk log.start) = 0 ∧ ∀ i < n, disk (log.lh.block i) = content i

def Untouched (log : Log) (n : Nat) (origin disk : Nat → Block) : Prop :=
  ∀ blockno, ¬ InLog log blockno → (∀ i < n, log.lh.block i ≠ blockno) →
    disk blockno = origin blockno

/-- The transaction is decided: it is in the log or it is installed. -/
def Committed (log : Log) (n : Nat) (content : Nat → Block) (origin disk : Nat → Block) :
    Prop :=
  Untouched log n origin disk ∧ (Logged log n content disk ∨ Installed log n content disk)

variable {log : Log} {n : Nat} {content : Nat → Block} {origin disk : Nat → Block}

theorem slot_in_log (plan : Transaction log n) {i : Nat} (below : i < n) :
    InLog log (log.start + i + 1) := by
  have room := plan.room
  constructor
  · omega
  · push_cast
    omega

theorem start_in_log (plan : Transaction log n) : InLog log log.start := by
  have room := plan.room
  constructor
  · exact Nat.le_refl _
  · omega

theorem ne_of_in_log {inside other : Nat} (member : InLog log inside)
    (outside : ¬ InLog log other) : other ≠ inside :=
  fun same => outside (same ▸ member)

theorem home_ne_slot (plan : Transaction log n) {i j : Nat} (below : i < n) (other : j < n) :
    log.lh.block i ≠ log.start + j + 1 :=
  ne_of_in_log (slot_in_log plan other) (plan.outside i below)

theorem home_ne_start (plan : Transaction log n) {i : Nat} (below : i < n) :
    log.lh.block i ≠ log.start :=
  ne_of_in_log (start_in_log plan) (plan.outside i below)

theorem before_write_slot (plan : Transaction log n) (before : Before log origin disk)
    {i : Nat} (below : i < n) (data : Block) :
    Before log origin (Function.update disk (log.start + i + 1) data) := by
  constructor
  · rw [Function.update_of_ne (by omega)]
    exact before.1
  · intro blockno outside
    rw [Function.update_of_ne (ne_of_in_log (slot_in_log plan below) outside)]
    exact before.2 blockno outside

/-- The first `write_head` decides the transaction in one block write. -/
theorem write_head_commits (plan : Transaction log n) (before : Before log origin disk)
    (slots : ∀ i < n, disk (log.start + i + 1) = content i) (data : Block) :
    Untouched log n origin (Function.update disk log.start (putHeader log.lh data)) ∧
      Logged log n content (Function.update disk log.start (putHeader log.lh data)) := by
  have small : log.lh.n ≤ LOGSIZE := by
    rw [plan.count]
    exact_mod_cast plan.array
  have length : log.lh.n.toNat = n := by
    rw [plan.count]
    exact Int.toNat_natCast n
  refine ⟨?_, ?_, ?_, ?_⟩
  · intro blockno outside _
    rw [Function.update_of_ne (ne_of_in_log (start_in_log plan) outside)]
    exact before.2 blockno outside
  · rw [Function.update_self, headerCount_putHeader _ _ (by rw [plan.count]; omega) small,
      plan.count]
  · intro i below
    rw [Function.update_self, headerBlock_putHeader _ _ _ _ (by omega)]
    intro j other
    exact plan.words j (by omega)
  · intro i below
    rw [Function.update_of_ne (by omega)]
    exact slots i below

theorem install_keeps_logged (plan : Transaction log n)
    (untouched : Untouched log n origin disk) (logged : Logged log n content disk)
    {i : Nat} (below : i < n) (data : Block) :
    Untouched log n origin (Function.update disk (log.lh.block i) data) ∧
      Logged log n content (Function.update disk (log.lh.block i) data) := by
  refine ⟨?_, ?_, ?_, ?_⟩
  · intro blockno outside other
    rw [Function.update_of_ne (other i below).symm]
    exact untouched blockno outside other
  · rw [Function.update_of_ne (home_ne_start plan below).symm]
    exact logged.1
  · rw [Function.update_of_ne (home_ne_start plan below).symm]
    exact logged.2.1
  · intro j other
    rw [Function.update_of_ne (home_ne_slot plan below other).symm]
    exact logged.2.2 j other

/-- The last `write_head` erases a transaction whose blocks are all at home. -/
theorem clear_head_installs (plan : Transaction log n)
    (untouched : Untouched log n origin disk)
    (home : ∀ i < n, disk (log.lh.block i) = content i) (data : Block) (lh : LogHeader)
    (empty : lh.n = 0) :
    Untouched log n origin (Function.update disk log.start (putHeader lh data)) ∧
      Installed log n content (Function.update disk log.start (putHeader lh data)) := by
  refine ⟨?_, ?_, ?_⟩
  · intro blockno outside other
    rw [Function.update_of_ne (ne_of_in_log (start_in_log plan) outside)]
    exact untouched blockno outside other
  · rw [Function.update_self, headerCount_putHeader _ _ (by omega) (by rw [empty]; decide), empty]
  · intro i below
    rw [Function.update_of_ne (home_ne_start plan below)]
    exact home i below

end Transactions

section Commit

variable {log : Log} {n : Nat} {content : Nat → Block} {origin : Nat → Block} {s : Store}

/-- The contents of the disk in order: the first `n + 1` precede the commit point. -/
def CrashSafe (log : Log) (n : Nat) (content : Nat → Block) (origin : Nat → Block)
    (contents : List (Nat → Block)) : Prop :=
  ∀ k disk, contents[k]? = some disk →
    (k ≤ n → Before log origin disk) ∧ (n < k → Committed log n content origin disk)

theorem crash_safe_write {disk : Disk} {blockno : Nat} {data : Block}
    (safe : CrashSafe log n content origin disk.contents)
    (early : disk.contents.length ≤ n →
      Before log origin (Function.update disk.now blockno data))
    (late : n < disk.contents.length →
      Committed log n content origin (Function.update disk.now blockno data)) :
    CrashSafe log n content origin (disk.write blockno data).contents := by
  intro k point found
  rw [Disk.contents_write] at found
  rcases Nat.lt_trichotomy k disk.contents.length with less | equal | more
  · rw [List.getElem?_append_left less] at found
    exact safe k point found
  · subst equal
    rw [List.getElem?_append_right (Nat.le_refl _)] at found
    simp only [Nat.sub_self, List.getElem?_cons_zero, Option.some.injEq] at found
    subst found
    exact ⟨early, late⟩
  · rw [List.getElem?_append_right (by omega)] at found
    have tooFar : ([Function.update disk.now blockno data] : List (Nat → Block)).length ≤
        k - disk.contents.length := by simp; omega
    rw [List.getElem?_eq_none tooFar] at found
    cases found

/-- The homes of the transaction, and the first `count` slots of the log. -/
def wantLogged (log : Log) (n : Nat) (content : Nat → Block) (count : Nat)
    (tracked : Nat) (value : Block) : Prop :=
  (∃ i < n, tracked = log.lh.block i ∧ value = content i) ∨
    ∃ i < count, tracked = log.start + i + 1 ∧ value = content i

structure LogWritten (log : Log) (n : Nat) (content : Nat → Block) (origin : Nat → Block)
    (count : Nat) (s : Store) : Prop where
  kept : Kept log (wantLogged log n content count) s
  length : s.disk.contents.length = count + 1
  safe : CrashSafe log n content origin s.disk.contents
  before : Before log origin s.disk.now
  slots : ∀ i < count, s.disk.now (log.start + i + 1) = content i

theorem write_log_pass (plan : Transaction log n) {tail : Nat} (below : tail < n)
    (written : LogWritten log n content origin tail s) :
    outcome (writeLogStep tail)
      (fun _ after => LogWritten log n content origin (tail + 1) after)
      (fun _ after => CrashSafe log n content origin after.disk.contents) s := by
  have next := before_write_slot plan written.before below (content tail)
  have safe : CrashSafe log n content origin
      (s.disk.write (log.start + tail + 1) (content tail)).contents :=
    crash_safe_write written.safe (fun _ => next)
      (fun later => by rw [written.length] at later; omega)
  have changes : ∀ tracked value, wantLogged log n content (tail + 1) tracked value →
      (tracked ≠ log.start + tail + 1 ∧ wantLogged log n content tail tracked value) ∨
      (tracked = log.start + tail + 1 ∧ content tail = value) := by
    rintro tracked value (⟨i, small, rfl, rfl⟩ | ⟨i, small, rfl, rfl⟩)
    · exact Or.inl ⟨home_ne_slot plan small below, Or.inl ⟨i, small, rfl, rfl⟩⟩
    · by_cases last : i = tail
      · subst last
        exact Or.inr ⟨rfl, rfl⟩
      · exact Or.inl ⟨by omega, Or.inr ⟨i, by omega, rfl, rfl⟩⟩
  refine outcome_mono (write_log_step written.kept tail (content tail)
    (Or.inl ⟨tail, below, rfl, rfl⟩) (home_ne_slot plan below below) changes) ?_ ?_
  · rintro _ after ⟨kept, disk⟩
    refine ⟨kept, ?_, disk ▸ safe, ?_, ?_⟩
    · rw [disk, Disk.contents_write, List.length_append, written.length]
      rfl
    · rw [disk]
      exact next
    · intro i small
      rw [disk]
      by_cases last : i = tail
      · subst last
        simp
      · rw [Disk.write_now, Function.update_of_ne (by omega)]
        exact written.slots i (by omega)
  · rintro _ after (same | same)
    · exact same ▸ written.safe
    · exact same ▸ safe

/-- During `install_trans` the log area stays tracked and the first `count` homes are done. -/
structure Installing (log : Log) (n : Nat) (content : Nat → Block) (origin : Nat → Block)
    (count : Nat) (s : Store) : Prop where
  kept : Kept log (wantLogged log n content n) s
  length : n < s.disk.contents.length
  safe : CrashSafe log n content origin s.disk.contents
  untouched : Untouched log n origin s.disk.now
  logged : Logged log n content s.disk.now
  home : ∀ i < count, s.disk.now (log.lh.block i) = content i

theorem install_trans_pass (plan : Transaction log n) {tail : Nat} (below : tail < n)
    (installing : Installing log n content origin tail s) :
    outcome (installTransStep false tail)
      (fun _ after => Installing log n content origin (tail + 1) after)
      (fun _ after => CrashSafe log n content origin after.disk.contents) s := by
  have next := install_keeps_logged plan installing.untouched installing.logged below
    (content tail)
  have safe : CrashSafe log n content origin
      (s.disk.write (log.lh.block tail) (content tail)).contents :=
    crash_safe_write installing.safe
      (fun early => absurd installing.length (by omega)) (fun _ => ⟨next.1, Or.inl next.2⟩)
  have changes : ∀ tracked value, wantLogged log n content n tracked value →
      (tracked ≠ log.lh.block tail ∧ wantLogged log n content n tracked value) ∨
      (tracked = log.lh.block tail ∧ content tail = value) := by
    rintro tracked value wanted
    by_cases here : tracked = log.lh.block tail
    · refine Or.inr ⟨here, ?_⟩
      rcases wanted with ⟨i, small, rfl, rfl⟩ | ⟨i, small, rfl, rfl⟩
      · rw [plan.distinct i small tail below here]
      · exact absurd here.symm (home_ne_slot plan below small)
    · exact Or.inl ⟨here, wanted⟩
  refine outcome_mono (install_trans_step false installing.kept tail (content tail)
    (Or.inr ⟨tail, below, rfl, rfl⟩) (home_ne_slot plan below below) changes) ?_ ?_
  · rintro _ after ⟨kept, disk⟩
    refine ⟨kept, ?_, disk ▸ safe, ?_, ?_, ?_⟩
    · rw [disk, Disk.contents_write, List.length_append]
      exact Nat.lt_add_right _ installing.length
    · rw [disk]
      exact next.1
    · rw [disk]
      exact next.2
    · intro i small
      rw [disk, Disk.write_now]
      by_cases last : i = tail
      · subst last
        simp
      · rw [Function.update_of_ne (fun same =>
          last (plan.distinct i (by omega) tail below same))]
        exact installing.home i (by omega)
  · rintro _ after (same | same)
    · exact same ▸ installing.safe
    · exact same ▸ safe

/-- The state `end_op` finds when it calls `commit`: the header describes a
transaction and every block of it is cached, pinned by `log_write`. -/
structure ReadyToCommit (s : Store) (n : Nat) (content : Nat → Block) : Prop where
  formed : WellFormed s
  plan : Transaction s.log n
  pinned : ∀ i < n, ∃ b, Holds s b (s.log.lh.block i) ∧ (s.buf b).valid = true ∧
    0 < (s.buf b).refcnt ∧ (s.buf b).data = content i
  empty : headerCount (s.disk.now s.log.start) = 0

theorem ready_tracks (ready : ReadyToCommit s n content) :
    Tracks s (wantLogged s.log n content 0) := by
  rintro tracked value (⟨i, small, rfl, rfl⟩ | ⟨i, impossible, _⟩)
  · obtain ⟨b, holder, full, used, data⟩ := ready.pinned i small
    constructor
    · intro a assigned _
      rw [ready.formed.unique a b _ assigned holder]
      exact data
    · exact Or.inr ⟨b, holder, full, used⟩
  · omega

theorem clear_kept {want : Nat → Block → Prop} (kept : Kept log want s) :
    Kept log.cleared want { s with log := s.log.cleared } := by
  rw [kept.sameLog]
  exact kept.relog log.cleared rfl

theorem clear_head_outcome (plan : Transaction log n)
    (installing : Installing log n content origin n s) :
    outcome (do clearHeader; writeHead)
      (fun _ after => CrashSafe log n content origin after.disk.contents)
      (fun _ after => CrashSafe log n content origin after.disk.contents) s := by
  have written : ∀ data, CrashSafe log n content origin
      (s.disk.write log.start (putHeader log.cleared.lh data)).contents := by
    intro data
    have next := clear_head_installs plan installing.untouched installing.home data
      log.cleared.lh rfl
    exact crash_safe_write installing.safe
      (fun early => absurd installing.length (by omega)) (fun _ => ⟨next.1, Or.inr next.2⟩)
  unfold clearHeader
  simp only [outcome_bind, outcome_modify]
  refine outcome_mono (write_head_outcome (clear_kept installing.kept)
    (fun _ _ (never : False) => never.elim)) ?_ ?_
  · rintro _ after ⟨_, data, disk⟩
    exact disk ▸ written data
  · rintro _ after (same | ⟨data, disk⟩)
    · exact same ▸ installing.safe
    · exact disk ▸ written data

theorem commit_crash_safe (ready : ReadyToCommit s n content) (fresh : s.disk.past = []) :
    outcome commit
      (fun _ after => CrashSafe s.log n content s.disk.now after.disk.contents)
      (fun _ after => CrashSafe s.log n content s.disk.now after.disk.contents) s := by
  have plan := ready.plan
  have count : s.log.lh.n.toNat = n := by
    rw [plan.count]
    exact Int.toNat_natCast n
  have positive : s.log.lh.n > 0 := by
    rw [plan.count]
    exact_mod_cast plan.positive
  have start : LogWritten s.log n content s.disk.now 0 s := by
    refine ⟨⟨ready.formed, ready_tracks ready, rfl⟩, ?_, ?_, ⟨ready.empty, fun _ _ => rfl⟩, ?_⟩
    · simp [Disk.contents, fresh]
    · intro k point found
      have first : k = 0 := by
        have bound := (List.getElem?_eq_some_iff.mp found).1
        simpa [Disk.contents, fresh] using bound
      subst first
      have initial : point = s.disk.now := by
        simpa [Disk.contents, fresh] using found.symm
      subst initial
      exact ⟨fun _ => ⟨ready.empty, fun _ _ => rfl⟩, fun late => absurd late (by omega)⟩
    · intro i impossible
      omega
  unfold commit writeLog installTrans
  simp only [outcome_bind, outcome_get, positive, ↓reduceIte, count]
  refine outcome_post (loop_outcome (LogWritten s.log n content s.disk.now) n 0 s start
    (fun tail state _ high held => write_log_pass plan (by omega) held)) ?_
  intro _ s1 logged
  rw [Nat.zero_add] at logged
  have written : ∀ data, CrashSafe s.log n content s.disk.now
      (s1.disk.write s.log.start (putHeader s.log.lh data)).contents := by
    intro data
    have next := write_head_commits plan logged.before logged.slots data
    exact crash_safe_write logged.safe
      (fun early => absurd early (by rw [logged.length]; omega))
      (fun _ => ⟨next.1, Or.inl next.2⟩)
  have changes : ∀ tracked value, wantLogged s.log n content n tracked value →
      tracked ≠ s.log.start ∧ wantLogged s.log n content n tracked value := by
    rintro tracked value wanted
    refine ⟨?_, wanted⟩
    rcases wanted with ⟨i, small, rfl, _⟩ | ⟨i, small, rfl, _⟩
    · exact home_ne_start plan small
    · omega
  refine outcome_mono (write_head_outcome logged.kept changes) ?_ ?_
  · rintro _ s2 ⟨kept, data, disk⟩
    have next := write_head_commits plan logged.before logged.slots data
    have entered : Installing s.log n content s.disk.now 0 s2 := by
      refine ⟨kept, ?_, disk ▸ written data, ?_, ?_, fun i small => absurd small (by omega)⟩
      · rw [disk, Disk.contents_write, List.length_append, logged.length]
        exact Nat.lt_add_right _ (Nat.lt_succ_self n)
      · rw [disk]
        exact next.1
      · rw [disk]
        exact next.2
    simp only [kept.sameLog, count]
    refine outcome_post (loop_outcome (Installing s.log n content s.disk.now) n 0 s2 entered
      (fun tail state _ high held => install_trans_pass plan (by omega) held)) ?_
    intro _ s3 installed
    rw [Nat.zero_add] at installed
    have cleared := clear_head_outcome plan installed
    rwa [outcome_bind] at cleared
  · rintro _ after (same | ⟨data, disk⟩)
    · exact same ▸ logged.safe
    · exact disk ▸ written data

end Commit

section Recovery

variable {log : Log} {n : Nat} {content : Nat → Block} {origin : Nat → Block} {s : Store}

/-- Memory after a restart: the cache holds nothing that the disk does not, and
`initlog` has set the place of the log. -/
structure Boot (log : Log) (disk : Nat → Block) (s : Store) : Prop where
  formed : WellFormed s
  device : s.disk = { now := disk, past := [] }
  clean : ∀ b, (s.buf b).dev = s.log.dev → (s.buf b).valid = true →
    (s.buf b).data = disk (s.buf b).blockno
  start : s.log.start = log.start

def mirrors (s : Store) (tracked : Nat) (value : Block) : Prop := s.disk.now tracked = value

theorem boot_kept {disk : Nat → Block} (boot : Boot log disk s) : Kept s.log (mirrors s) s := by
  refine ⟨boot.formed, ?_, rfl⟩
  intro tracked value onDisk
  refine ⟨?_, Or.inl onDisk⟩
  intro b holder full
  rw [boot.clean b holder.1 full, holder.2, ← onDisk, boot.device]

theorem read_head_outcome (kept : Kept log (mirrors s) s) :
    outcome readHead
      (fun _ after => after.disk = s.disk ∧
        Kept (log.withHeader (s.disk.now log.start)) (mirrors after) after)
      (fun _ after => after.disk = s.disk) s := by
  obtain ⟨formed, tracks, rfl⟩ := kept
  unfold readHead
  simp only [outcome_bind, outcome_get]
  refine outcome_post (bread_outcome _ _ s) ?_
  intro b s1 fetched
  have disk1 := fetched_disk fetched
  have data := (fetched_content formed tracks fetched rfl).1
  have kept1 : Kept s.log (mirrors s) s1 := ⟨fetched_wellFormed formed fetched,
    fetched_tracks formed tracks fetched, fetched_log fetched⟩
  simp only [outcome_modify, data, fetched_log fetched]
  generalize same : s.log.withHeader (s.disk.now s.log.start) = read
  have sameDev : read.dev = s.log.dev := by rw [← same, withHeader_dev]
  have kept2 := kept1.relog read sameDev
  have holder : Holds { s1 with log := read } b s.log.start :=
    ⟨(fetched_holds fetched).1.trans ((fetched_log fetched) ▸ sameDev.symm),
      (fetched_holds fetched).2⟩
  refine outcome_mono (brelse_kept kept2 holder (fetched_held fetched).1 ?_) ?_
    (fun _ _ same => same.trans disk1)
  · intro value onDisk
    left
    rw [← onDisk, disk1]
  · rintro _ after ⟨kept3, disk3, _⟩
    have same : after.disk = s.disk := disk3.trans disk1
    refine ⟨same, kept3.formed, kept3.tracks.weaken ?_, kept3.sameLog⟩
    intro tracked value onDisk
    rw [mirrors, ← same]
    exact onDisk

/-- Every content the disk had since the restart satisfies `good`. -/
def Throughout (good : (Nat → Block) → Prop) (disk : Disk) : Prop :=
  ∀ point ∈ disk.contents, good point

theorem throughout_write {good : (Nat → Block) → Prop} {disk : Disk} {blockno : Nat}
    {data : Block} (held : Throughout good disk)
    (next : good (Function.update disk.now blockno data)) :
    Throughout good (disk.write blockno data) := by
  intro point member
  rw [Disk.contents_write, List.mem_append, List.mem_singleton] at member
  rcases member with old | rfl
  · exact held point old
  · exact next

theorem clear_recovers {good : (Nat → Block) → Prop} (kept : Kept log (mirrors s) s)
    (held : Throughout good s.disk)
    (next : ∀ data, good (Function.update s.disk.now log.start
      (putHeader log.cleared.lh data))) :
    outcome (do clearHeader; writeHead)
      (fun _ after => Throughout good after.disk ∧ good after.disk.now ∧
        headerCount (after.disk.now log.start) = 0)
      (fun _ after => Throughout good after.disk) s := by
  have empty : ∀ data, headerCount (putHeader log.cleared.lh data) = 0 := by
    intro data
    exact headerCount_putHeader log.cleared.lh data (Int.le_refl 0)
      (by change (0 : Int) ≤ (LOGSIZE : Int); decide)
  unfold clearHeader
  simp only [outcome_bind, outcome_modify]
  refine outcome_mono (write_head_outcome (clear_kept kept)
    (fun _ _ (never : False) => never.elim)) ?_ ?_
  · rintro _ after ⟨_, data, disk⟩
    refine ⟨disk ▸ throughout_write held (next data), ?_, ?_⟩
    · rw [disk]
      exact next data
    · rw [disk, Disk.write_now]
      change headerCount (Function.update s.disk.now log.start _ log.start) = 0
      rw [Function.update_self]
      exact empty data
  · rintro _ after (same | ⟨data, disk⟩)
    · exact same ▸ held
    · exact disk ▸ throughout_write held (next data)

/-- Recovery with an empty header on the disk writes an empty header again. -/
theorem recover_empty {good : (Nat → Block) → Prop} {disk : Nat → Block}
    (boot : Boot log disk s) (empty : headerCount (disk log.start) = 0) (held : good disk)
    (next : ∀ data lh, lh.n = 0 →
      good (Function.update disk log.start (putHeader lh data))) :
    outcome recoverFromLog
      (fun _ after => Throughout good after.disk ∧ good after.disk.now ∧
        headerCount (after.disk.now log.start) = 0)
      (fun _ after => Throughout good after.disk) s := by
  have onlyNow : Throughout good s.disk := by
    intro point member
    rw [boot.device] at member
    have same : point = disk := by simpa [Disk.contents] using member
    exact same ▸ held
  unfold recoverFromLog installTrans
  simp only [outcome_bind, outcome_get]
  refine outcome_mono (read_head_outcome (boot_kept boot)) ?_ (fun _ _ same => same ▸ onlyNow)
  rintro _ s1 ⟨same, kept⟩
  have none : s1.log.lh.n.toNat = 0 := by
    rw [kept.sameLog, withHeader_count, boot.device, boot.start, empty]
    rfl
  rw [none, loop, outcome_pure, ← outcome_bind]
  have start : s1.log.start = log.start := by
    rw [kept.sameLog, withHeader_start, boot.start]
  rw [← start]
  refine clear_recovers (kept.sameLog ▸ kept) (same ▸ onlyNow) ?_
  intro data
  rw [same, boot.device, start]
  exact next data _ rfl

/-- Everything up to the last `write_head` of a recovery that replays the log. -/
structure Replaying (log : Log) (n : Nat) (content : Nat → Block) (origin : Nat → Block)
    (memory : Log) (count : Nat) (s : Store) : Prop where
  kept : Kept memory (mirrors s) s
  throughout : Throughout (Committed log n content origin) s.disk
  untouched : Untouched log n origin s.disk.now
  logged : Logged log n content s.disk.now
  home : ∀ i < count, s.disk.now (log.lh.block i) = content i

theorem replay_pass (plan : Transaction log n) {memory : Log} (start : memory.start = log.start)
    (blocks : ∀ i < n, memory.lh.block i = log.lh.block i) {tail : Nat} (below : tail < n)
    (replaying : Replaying log n content origin memory tail s) :
    outcome (installTransStep true tail)
      (fun _ after => Replaying log n content origin memory (tail + 1) after)
      (fun _ after => Throughout (Committed log n content origin) after.disk) s := by
  have next := install_keeps_logged plan replaying.untouched replaying.logged below
    (content tail)
  have written : Throughout (Committed log n content origin)
      (s.disk.write (log.lh.block tail) (content tail)) :=
    throughout_write replaying.throughout ⟨next.1, Or.inl next.2⟩
  have changes : ∀ tracked value,
      Function.update s.disk.now (memory.lh.block tail) (content tail) tracked = value →
      (tracked ≠ memory.lh.block tail ∧ mirrors s tracked value) ∨
      (tracked = memory.lh.block tail ∧ content tail = value) := by
    rintro tracked value rfl
    by_cases here : tracked = memory.lh.block tail
    · subst here
      exact Or.inr ⟨rfl, by simp⟩
    · exact Or.inl ⟨here, by simp [mirrors, here]⟩
  have source : mirrors s (memory.start + tail + 1) (content tail) := by
    rw [start]
    exact replaying.logged.2.2 tail below
  refine outcome_mono (install_trans_step true replaying.kept tail (content tail) source
    (by rw [start, blocks tail below]; exact home_ne_slot plan below below) changes) ?_ ?_
  · rintro _ after ⟨kept, disk⟩
    rw [blocks tail below] at disk kept
    refine ⟨⟨kept.formed, kept.tracks.weaken ?_, kept.sameLog⟩, disk ▸ written, ?_, ?_, ?_⟩
    · intro tracked value onDisk
      rw [mirrors, disk] at onDisk
      exact onDisk
    · rw [disk]
      exact next.1
    · rw [disk]
      exact next.2
    · intro i small
      rw [disk, Disk.write_now]
      by_cases last : i = tail
      · subst last
        simp
      · rw [Function.update_of_ne (fun same =>
          last (plan.distinct i (by omega) tail below same))]
        exact replaying.home i (by omega)
  · rintro _ after (same | same)
    · exact same ▸ replaying.throughout
    · rw [blocks tail below] at same
      exact same ▸ written

theorem recover_logged (plan : Transaction log n) {disk : Nat → Block}
    (boot : Boot log disk s) (untouched : Untouched log n origin disk)
    (logged : Logged log n content disk) :
    outcome recoverFromLog
      (fun _ after => Throughout (Committed log n content origin) after.disk ∧
        Committed log n content origin after.disk.now ∧
        headerCount (after.disk.now log.start) = 0)
      (fun _ after => Throughout (Committed log n content origin) after.disk) s := by
  have onlyNow : Throughout (Committed log n content origin) s.disk := by
    intro point member
    rw [boot.device] at member
    have same : point = disk := by simpa [Disk.contents] using member
    exact same ▸ ⟨untouched, Or.inl logged⟩
  unfold recoverFromLog installTrans
  simp only [outcome_bind, outcome_get]
  refine outcome_mono (read_head_outcome (boot_kept boot)) ?_ (fun _ _ same => same ▸ onlyNow)
  rintro _ s1 ⟨same, kept⟩
  rw [boot.device, boot.start] at kept
  have count : s1.log.lh.n.toNat = n := by
    rw [kept.sameLog, withHeader_count, logged.1, Int.toNat_natCast]
  have start : s1.log.start = log.start := by
    rw [kept.sameLog, withHeader_start, boot.start]
  have blocks : ∀ i < n, s1.log.lh.block i = log.lh.block i := by
    intro i below
    rw [kept.sameLog]
    have inside : (i : Int) < headerCount (disk log.start) := by
      rw [logged.1]
      exact_mod_cast below
    exact (withHeader_block s.log _ i inside).trans (logged.2.1 i below)
  have entered : Replaying log n content origin s1.log 0 s1 := by
    refine ⟨kept.sameLog ▸ kept, same ▸ onlyNow, ?_, ?_, fun i small => absurd small (by omega)⟩
    · rw [same, boot.device]
      exact untouched
    · rw [same, boot.device]
      exact logged
  rw [count]
  refine outcome_post (loop_outcome (Replaying log n content origin s1.log) n 0 s1 entered
    (fun tail state _ high held => replay_pass plan start blocks (by omega) held)) ?_
  intro _ s2 replayed
  rw [Nat.zero_add] at replayed
  rw [← outcome_bind, ← start]
  refine clear_recovers replayed.kept replayed.throughout ?_
  intro data
  have done := clear_head_installs plan replayed.untouched replayed.home data
    s1.log.cleared.lh rfl
  rw [start]
  exact ⟨done.1, Or.inr done.2⟩

theorem recover_before (plan : Transaction log n) {disk : Nat → Block} (boot : Boot log disk s)
    (before : Before log origin disk) :
    outcome recoverFromLog
      (fun _ after => Throughout (Before log origin) after.disk ∧
        Before log origin after.disk.now ∧ headerCount (after.disk.now log.start) = 0)
      (fun _ after => Throughout (Before log origin) after.disk) s := by
  refine recover_empty boot before.1 before ?_
  intro data lh empty
  constructor
  · rw [Function.update_self,
      headerCount_putHeader _ _ (by omega) (by rw [empty]; decide), empty]
  · intro blockno outside
    rw [Function.update_of_ne (ne_of_in_log (start_in_log plan) outside)]
    exact before.2 blockno outside

theorem recover_committed (plan : Transaction log n) {disk : Nat → Block}
    (boot : Boot log disk s) (decided : Committed log n content origin disk) :
    outcome recoverFromLog
      (fun _ after => Throughout (Committed log n content origin) after.disk ∧
        Committed log n content origin after.disk.now ∧
        headerCount (after.disk.now log.start) = 0)
      (fun _ after => Throughout (Committed log n content origin) after.disk) s := by
  rcases decided with ⟨untouched, logged | installed⟩
  · exact recover_logged plan boot untouched logged
  · refine recover_empty boot installed.1 ⟨untouched, Or.inr installed⟩ ?_
    intro data lh empty
    have done := clear_head_installs plan untouched installed.2 data lh empty
    exact ⟨done.1, Or.inr done.2⟩

/-- The state a run leaves, whether it returned or stopped. -/
def left {α : Type} : EStateM.Result Stop Store α → Store
  | .ok _ after => after
  | .error _ after => after

/-- Restarts after a crash: each recovery but the last crashes at some content
the disk had while it ran; the last one completes. -/
inductive Recovers (log : Log) : (Nat → Block) → (Nat → Block) → Prop
  | completes {disk : Nat → Block} {memory after : Store} (boot : Boot log disk memory)
      (ran : recoverFromLog memory = .ok () after) : Recovers log disk after.disk.now
  | crashes {disk point result : Nat → Block} {memory : Store} (boot : Boot log disk memory)
      (crash : point ∈ (left (recoverFromLog memory)).disk.contents)
      (restart : Recovers log point result) : Recovers log disk result

/-- An assertion on disks that one recovery keeps throughout, and that it ends
with an empty header, survives any number of crashes during recovery. -/
theorem recovers_keeps {good : (Nat → Block) → Prop} {disk result : Nat → Block}
    (once : ∀ disk memory, Boot log disk memory → good disk →
      outcome recoverFromLog
        (fun _ after => Throughout good after.disk ∧ good after.disk.now ∧
          headerCount (after.disk.now log.start) = 0)
        (fun _ after => Throughout good after.disk) memory)
    (restarts : Recovers log disk result) (held : good disk) :
    good result ∧ headerCount (result log.start) = 0 := by
  induction restarts with
  | completes boot ran =>
      exact (outcome_of_ok (once _ _ boot held) ran).2
  | @crashes disk point result memory boot crash restart ih =>
      apply ih
      have run := once _ _ boot held
      unfold outcome at run
      cases ran : recoverFromLog memory with
      | ok value after =>
          rw [ran] at run crash
          exact run.1 point crash
      | error stop after =>
          rw [ran] at run crash
          exact run point crash

/-- A commit interrupted after any `k` block writes and recovered through any
number of further crashes is atomic: up to the `n`-th write, the last of
`write_log`, nothing outside the log has changed; from the next one, the first
`write_head`, on everything has. -/
theorem crash_atomic {s : Store} {n : Nat} {content : Nat → Block}
    (ready : ReadyToCommit s n content) (fresh : s.disk.past = []) (k : Nat)
    (point : Nat → Block)
    (crash : (left (commit s)).disk.contents[k]? = some point)
    (result : Nat → Block) (recovery : Recovers s.log point result) :
    headerCount (result s.log.start) = 0 ∧
    (k ≤ n → ∀ blockno, ¬ InLog s.log blockno → result blockno = s.disk.now blockno) ∧
    (n < k →
      (∀ i < n, result (s.log.lh.block i) = content i) ∧
      ∀ blockno, ¬ InLog s.log blockno → (∀ i < n, s.log.lh.block i ≠ blockno) →
        result blockno = s.disk.now blockno) := by
  have run := commit_crash_safe ready fresh
  have safe : CrashSafe s.log n content s.disk.now (left (commit s)).disk.contents := by
    unfold outcome at run
    cases ran : commit s <;> rw [ran] at run <;> exact run
  obtain ⟨early, late⟩ := safe k point crash
  have plan := ready.plan
  rcases Nat.lt_or_ge n k with decided | undecided
  · obtain ⟨committed, empty⟩ := recovers_keeps
      (fun _ _ boot held => recover_committed plan boot held) recovery (late decided)
    refine ⟨empty, fun small => absurd small (by omega), fun _ => ⟨?_, committed.1⟩⟩
    rcases committed.2 with logged | installed
    · -- a logged transaction has a header with `n > 0`
      have positive := plan.positive
      rw [logged.1] at empty
      omega
    · exact installed.2
  · obtain ⟨before, empty⟩ := recovers_keeps
      (fun _ _ boot held => recover_before plan boot held) recovery (early undecided)
    exact ⟨empty, fun _ => before.2, fun big => absurd big (by omega)⟩

/-- A log of 30 blocks at block 2 that records block 50, pinned in buffer 0. -/
def oneBlockCommit : Store :=
  let log : Log := { start := 2, size := 30, outstanding := 0, committing := true,
                     dev := ROOTDEV, lh := { n := 1, block := fun _ => 50 } }
  (binit (fun _ _ => 0) log).setBuf ⟨0, nbuf_pos⟩
    { dev := ROOTDEV, blockno := 50, valid := true, locked := false, refcnt := 1,
      data := fun _ => 7 }

/-- The disk of `oneBlockCommit` right after the first `write_head`. -/
def interruptedDisk : Nat → Block :=
  ((left (commit oneBlockCommit)).disk.contents[2]?).getD fun _ _ => 0

theorem one_block_ready : ReadyToCommit oneBlockCommit 1 fun _ _ => 7 := by
  have assigned : ∀ b blockno, Holds oneBlockCommit b blockno → b = ⟨0, by decide⟩ := by
    intro b blockno holder
    by_contra apart
    have device := holder.1
    rw [oneBlockCommit, Store.setBuf_other _ _ apart] at device
    have impossible : (0 : Nat) = 1 := device
    cases impossible
  refine ⟨⟨?_, ?_⟩, ⟨rfl, by decide, by decide, by decide, ?_, ?_, ?_⟩, ?_, by decide +kernel⟩
  · intro b
    exact List.mem_reverse.mpr (List.mem_finRange b)
  · intro a b blockno left right
    rw [assigned a blockno left, assigned b blockno right]
  · intro i small j other _
    omega
  · rintro i - ⟨_, inside⟩
    have impossible : (50 : Int) < 2 + 30 := inside
    omega
  · intro i _
    exact (by decide : 50 < 2 ^ 32)
  · intro i _
    exact ⟨⟨0, by decide⟩, ⟨rfl, rfl⟩, rfl, by decide, rfl⟩

def returned {α : Type} : EStateM.Result Stop Store α → Bool
  | .ok _ _ => true
  | .error _ _ => false

theorem returned_left {α : Type} {run : EStateM.Result Stop Store α}
    (done : returned run = true) : ∃ value, run = .ok value (left run) := by
  cases run with
  | ok value after => exact ⟨value, rfl⟩
  | error stop after => cases done

theorem interrupted_recovers :
    Recovers oneBlockCommit.log interruptedDisk
      (left (recoverFromLog (binit interruptedDisk oneBlockCommit.log))).disk.now := by
  have boot : Boot oneBlockCommit.log interruptedDisk
      (binit interruptedDisk oneBlockCommit.log) := by
    refine ⟨⟨fun b => List.mem_reverse.mpr (List.mem_finRange b), ?_⟩, rfl, ?_, rfl⟩
    · rintro a b blockno ⟨device, _⟩ _
      have impossible : (0 : Nat) = 1 := device
      cases impossible
    · intro b _ full
      cases full
  have done : returned (recoverFromLog (binit interruptedDisk oneBlockCommit.log)) = true := by
    decide +kernel
  obtain ⟨_, ran⟩ := returned_left done
  exact Recovers.completes boot ran

/-- A crash after the commit point of `oneBlockCommit` does not lose block 50. -/
theorem interrupted_commit_survives :
    ∃ result, Recovers oneBlockCommit.log interruptedDisk result ∧
      headerCount (result oneBlockCommit.log.start) = 0 ∧
      result (oneBlockCommit.log.lh.block 0) = fun _ => 7 := by
  have crash : (left (commit oneBlockCommit)).disk.contents[2]? = some interruptedDisk := by
    have some : ((left (commit oneBlockCommit)).disk.contents[2]?).isSome = true := by
      decide +kernel
    obtain ⟨point, found⟩ := Option.isSome_iff_exists.mp some
    rw [interruptedDisk, found]
    rfl
  have atomic := crash_atomic one_block_ready rfl 2 interruptedDisk crash _ interrupted_recovers
  exact ⟨_, interrupted_recovers, atomic.1, (atomic.2.2 (by decide)).1 0 (by decide)⟩

end Recovery

end PaddleOs
