import PaddleOs.CacheTracking

/-!
Coherence of the buffer cache with the disk. Every valid buffer shows what the disk
has, except where its block is excused (it waits in the log) or the buffer itself is
dirty (its holder has stored into it and not yet called `log_write`). The primitives of
`bio.c` and `log.c` say how the two exceptions grow and shrink; `commit` and recovery end
with none.
-/

namespace PaddleOs

open Foundation.Outcome

/-- The block is one of `log.lh.block[0..lh.n)`. -/
def Log.lists (log : Log) (blockno : Nat) : Prop :=
  ∃ i : Nat, (i : Int) < log.lh.n ∧ log.lh.block i = blockno

structure Coheres (excused : Nat → Prop) (dirty : Fin NBUF → Prop) (s : Store) : Prop where
  wellFormed : WellFormed s
  device : ∀ b, (s.buf b).valid = true → (s.buf b).dev = s.log.dev
  clean : ∀ b, (s.buf b).valid = true → ¬ dirty b → ¬ excused (s.buf b).blockno →
    (s.buf b).data = s.disk.now (s.buf b).blockno

/-- No buffer is dirty. -/
def spotless : Fin NBUF → Prop := fun _ => False

/-- No block is excused. -/
def noBlock : Nat → Prop := fun _ => False

namespace Coheres

variable {s after : Store} {excused excused' : Nat → Prop} {dirty dirty' : Fin NBUF → Prop}

theorem weaken (coheres : Coheres excused dirty s)
    (blocks : ∀ blockno, excused blockno → excused' blockno)
    (buffers : ∀ b, dirty b → dirty' b) : Coheres excused' dirty' s where
  wellFormed := coheres.wellFormed
  device := coheres.device
  clean b valid tidy listed :=
    coheres.clean b valid (fun bad => tidy (buffers b bad)) fun bad => listed (blocks _ bad)

/-- Only the log changed, and neither its device nor what it excuses. -/
theorem withLog (coheres : Coheres excused dirty s) {log : Log} (dev : log.dev = s.log.dev) :
    Coheres excused dirty { s with log } where
  wellFormed := by
    refine ⟨coheres.wellFormed.linked, ?_⟩
    intro a b blockno left right
    unfold Holds at left right
    simp only [dev] at left right
    exact coheres.wellFormed.unique a b blockno left right
  device b valid := (coheres.device b valid).trans dev.symm
  clean := coheres.clean

/-- A buffer changes in place; if it shows another content it counts as dirty. -/
theorem setBuf (coheres : Coheres excused dirty s) (b : Fin NBUF) (value : Buf)
    (sameDev : value.dev = (s.buf b).dev) (sameBlock : value.blockno = (s.buf b).blockno)
    (sameValid : value.valid = (s.buf b).valid)
    (changes : value.data = (s.buf b).data ∨ dirty' b) (buffers : ∀ a, dirty a → dirty' a) :
    Coheres excused dirty' (s.setBuf b value) where
  wellFormed := setBuf_wellFormed coheres.wellFormed b value sameDev sameBlock
  device a valid := by
    by_cases same : a = b
    · subst same
      rw [Store.setBuf_same] at valid ⊢
      rw [sameDev]
      exact coheres.device a (sameValid ▸ valid)
    · rw [Store.setBuf_other s value same] at valid ⊢
      exact coheres.device a valid
  clean a valid tidy listed := by
    by_cases same : a = b
    · subst same
      rw [Store.setBuf_same] at valid listed ⊢
      rcases changes with still | bad
      · rw [still, sameBlock]
        rw [sameBlock] at listed
        exact coheres.clean a (sameValid ▸ valid) (fun bad => tidy (buffers a bad)) listed
      · exact absurd bad tidy
    · rw [Store.setBuf_other s value same] at valid listed ⊢
      exact coheres.clean a valid (fun bad => tidy (buffers a bad)) listed

theorem fetch (coheres : Coheres excused dirty s) {blockno : Nat} {b : Fin NBUF}
    (fetched : Fetched s s.log.dev blockno b after) : Coheres excused dirty after where
  wellFormed := fetched_wellFormed coheres.wellFormed fetched
  device a valid := by
    by_cases same : a = b
    · subst same
      exact (fetched_holds fetched).1
    · rw [fetched_other fetched same] at valid ⊢
      rw [fetched_log fetched]
      exact coheres.device a valid
  clean a valid tidy listed := by
    by_cases same : a = b
    · subst same
      cases fetched with
      | hit found unlocked =>
          simp only [Store.setBuf_same, Store.setBuf_disk] at listed ⊢
          split
          · rename_i full
            exact coheres.clean a full tidy listed
          · rfl
      | miss absent idle unlocked => simp
    · rw [fetched_other fetched same] at valid listed ⊢
      rw [fetched_disk fetched]
      exact coheres.clean a valid tidy listed

/-- A buffer written to the disk is neither dirty nor in need of an excuse. -/
theorem write (coheres : Coheres excused dirty s) (b : Fin NBUF)
    (valid : (s.buf b).valid = true) :
    Coheres (fun blockno => excused blockno ∧ blockno ≠ (s.buf b).blockno)
      (fun a => dirty a ∧ a ≠ b)
      { s with disk := s.disk.write (s.buf b).blockno (s.buf b).data } where
  wellFormed := ⟨coheres.wellFormed.linked, coheres.wellFormed.unique⟩
  device := coheres.device
  clean a full tidy listed := by
    by_cases same : a = b
    · subst same
      simp
    · have apart : (s.buf a).blockno ≠ (s.buf b).blockno := fun equal => same
        (coheres.wellFormed.unique a b _ ⟨coheres.device a full, equal⟩
          ⟨coheres.device b valid, rfl⟩)
      rw [Disk.write_now, Function.update_of_ne apart]
      exact coheres.clean a full (fun bad => tidy ⟨bad, same⟩) fun bad => listed ⟨bad, apart⟩

theorem release (coheres : Coheres excused dirty s) (b : Fin NBUF) :
    Coheres excused dirty (s.release b) := by
  have inPlace := coheres.setBuf b
    { s.buf b with locked := false, refcnt := (s.buf b).refcnt - 1 } rfl rfl rfl (Or.inl rfl)
    fun _ bad => bad
  refine ⟨release_wellFormed coheres.wellFormed, ?_, ?_⟩
  · intro a valid
    rw [Store.release_buf] at valid ⊢
    rw [Store.release_log]
    exact inPlace.device a valid
  · intro a valid tidy listed
    rw [Store.release_buf] at valid listed ⊢
    rw [Store.release_disk]
    exact inPlace.clean a valid tidy listed

end Coheres

section Primitives

variable {s : Store} {excused : Nat → Prop} {dirty : Fin NBUF → Prop}

/-- What a caller of `bread` gets on top of coherence. -/
structure Fetches (s : Store) (blockno : Nat) (b : Fin NBUF) (after : Store) : Prop where
  log : after.log = s.log
  disk : after.disk = s.disk
  valid : (after.buf b).valid = true
  used : 0 < (after.buf b).refcnt
  blockno : (after.buf b).blockno = blockno
  /-- Buffers in use keep their block. -/
  others : ∀ a, (s.buf a).valid = true → 0 < (s.buf a).refcnt →
    (after.buf a).valid = true ∧ 0 < (after.buf a).refcnt ∧
      (after.buf a).blockno = (s.buf a).blockno

theorem bread_coheres (coheres : Coheres excused dirty s) (blockno : Nat) :
    outcome (bread s.log.dev blockno)
      (fun b after => Coheres excused dirty after ∧ Fetches s blockno b after)
      (fun _ _ => True) s := by
  refine outcome_mono (bread_outcome s.log.dev blockno s) ?_ fun _ _ _ => trivial
  intro b after fetched
  refine ⟨coheres.fetch fetched, fetched_log fetched, fetched_disk fetched,
    (fetched_held fetched).1, (fetched_held fetched).2, (fetched_holds fetched).2, ?_⟩
  intro a full used
  by_cases same : a = b
  · subst same
    have kept := fetched_in_use fetched ⟨coheres.device a full, rfl⟩ used
    exact ⟨(fetched_held fetched).1, (fetched_held fetched).2, kept.1.2⟩
  · rw [fetched_other fetched same]
    exact ⟨full, used, rfl⟩

theorem setData_coheres (coheres : Coheres excused dirty s) (b : Fin NBUF) (data : Block) :
    outcome (setData b data)
      (fun _ after => Coheres excused (fun a => dirty a ∨ a = b) after ∧
        after = s.setBuf b { s.buf b with data })
      (fun _ _ => True) s :=
  ⟨coheres.setBuf b _ rfl rfl rfl (Or.inr (Or.inr rfl)) fun _ bad => Or.inl bad, rfl⟩

theorem brelse_coheres (coheres : Coheres excused dirty s) (b : Fin NBUF) :
    outcome (brelse b) (fun _ after => Coheres excused dirty after ∧ after.log = s.log)
      (fun _ _ => True) s := by
  refine outcome_mono (brelse_outcome b s) ?_ fun _ _ _ => trivial
  rintro _ after rfl
  exact ⟨coheres.release b, Store.release_log s b⟩

/-- A store into a buffer that goes to the disk at once. -/
theorem writeThrough_coheres (coheres : Coheres excused dirty s) {b : Fin NBUF}
    (valid : (s.buf b).valid = true) (data : Block) :
    outcome (do
        setData b data
        bwrite b)
      (fun _ after => Coheres (fun blockno => excused blockno ∧ blockno ≠ (s.buf b).blockno)
          dirty after ∧ after.log = s.log)
      (fun _ _ => True) s := by
  refine outcome_seq (setData_coheres coheres b data) ?_
  rintro _ s1 ⟨stored, rfl⟩
  refine outcome_mono (bwrite_outcome b _) ?_ fun _ _ _ => trivial
  rintro _ after rfl
  have written := stored.write b (by simpa using valid)
  refine ⟨written.weaken ?_ ?_, rfl⟩
  · intro blockno listed
    simpa using listed
  · rintro a ⟨bad | same, other⟩
    · exact bad
    · exact absurd same other

end Primitives

section LogWrite

theorem position_lists (lh : LogHeader) (blockno : Nat) :
    lh.position blockno = lh.n.toNat ∨
      (lh.position blockno < lh.n.toNat ∧ lh.block (lh.position blockno) = blockno) := by
  unfold LogHeader.position
  cases found : (List.range lh.n.toNat).find? fun i => lh.block i == blockno with
  | none => exact Or.inl rfl
  | some i =>
      refine Or.inr ⟨List.mem_range.mp (List.mem_of_find?_eq_some found), ?_⟩
      have here := List.find?_some found
      simpa using here

/-- `log_write` lists the block of the buffer, and what was listed stays listed. -/
theorem record_lists {log log' : Log} {blockno : Nat} {pin : Bool} (counted : 0 ≤ log.lh.n)
    (recorded : log.record blockno = .ok (log', pin)) :
    log'.lists blockno ∧ (∀ other, log.lists other → log'.lists other) ∧
      0 ≤ log'.lh.n ∧ log'.dev = log.dev := by
  unfold Log.record at recorded
  split at recorded
  · cases recorded
  split at recorded
  · cases recorded
  dsimp only at recorded
  rcases position_lists log.lh blockno with fresh | ⟨below, there⟩
  · rw [if_pos fresh] at recorded
    cases recorded
    have appended : ∀ i : Nat, (i : Int) < log.lh.n →
        Function.update log.lh.block (log.lh.position blockno) blockno i = log.lh.block i := by
      intro i inside
      exact Function.update_of_ne (by omega) ..
    refine ⟨?_, ?_, Int.add_nonneg counted (by decide), rfl⟩
    · refine ⟨log.lh.position blockno, ?_, Function.update_self ..⟩
      change (log.lh.position blockno : Int) < log.lh.n + 1
      omega
    · rintro other ⟨i, inside, same⟩
      refine ⟨i, ?_, (appended i inside).trans same⟩
      change (i : Int) < log.lh.n + 1
      omega
  · rw [if_neg (by omega)] at recorded
    cases recorded
    have unchanged : Function.update log.lh.block (log.lh.position blockno) blockno =
        log.lh.block := by
      funext i
      by_cases same : i = log.lh.position blockno
      · rw [same, Function.update_self, there]
      · exact Function.update_of_ne same ..
    refine ⟨⟨_, ?_, Function.update_self ..⟩, ?_, counted, rfl⟩
    · change (log.lh.position blockno : Int) < log.lh.n
      omega
    · rintro other ⟨i, inside, same⟩
      refine ⟨i, inside, ?_⟩
      change Function.update log.lh.block _ _ i = other
      rw [unchanged, same]

theorem bpin_coheres {s : Store} {excused : Nat → Prop} {dirty : Fin NBUF → Prop}
    (coheres : Coheres excused dirty s) (b : Fin NBUF) (refcnt : Nat) :
    Coheres excused dirty (s.setBuf b { s.buf b with refcnt }) :=
  coheres.setBuf b _ rfl rfl rfl (Or.inl rfl) fun _ bad => bad

/-- Between two stretches of the file system that store into buffers: everything that is
not on the disk is in the log. -/
structure Coherent (dirty : Fin NBUF → Prop) (s : Store) : Prop where
  coheres : Coheres s.log.lists dirty s
  counted : 0 ≤ s.log.lh.n

theorem logWrite_coheres {s : Store} {dirty : Fin NBUF → Prop} (coherent : Coherent dirty s)
    (b : Fin NBUF) :
    outcome (logWrite b)
      (fun _ after => Coherent (fun a => dirty a ∧ a ≠ b) after ∧ after.log.dev = s.log.dev)
      (fun _ _ => True) s := by
  unfold logWrite
  rw [outcome_bind, outcome_get]
  cases recorded : s.log.record (s.buf b).blockno with
  | error stop => trivial
  | ok result =>
      obtain ⟨log, pin⟩ := result
      obtain ⟨listed, kept, counted, dev⟩ := record_lists coherent.counted recorded
      have logged : Coheres log.lists (fun a => dirty a ∧ a ≠ b) { s with log } := by
        have moved := (coherent.coheres.weaken kept fun _ bad => bad).withLog dev
        refine ⟨moved.wellFormed, moved.device, fun a valid tidy unlisted => ?_⟩
        by_cases same : a = b
        · subst same
          exact absurd listed unlisted
        · exact moved.clean a valid (fun bad => tidy ⟨bad, same⟩) unlisted
      cases pin with
      | false => exact ⟨⟨logged, counted⟩, dev⟩
      | true => exact ⟨⟨bpin_coheres logged b _, counted⟩, dev⟩

end LogWrite

section Commit

variable {s : Store} {excused : Nat → Prop}

/-- Copying one block of the log, in either direction: the target shows it afterwards. -/
theorem copyBlock_coheres (coheres : Coheres excused spotless s) {target : Fin NBUF}
    (valid : (s.buf target).valid = true) (data : Block) {α : Type} {rest : StoreM α}
    {post : α → Store → Prop}
    (next : ∀ after, Coheres (fun blockno => excused blockno ∧ blockno ≠ (s.buf target).blockno)
      spotless after → after.log = s.log → outcome rest post (fun _ _ => True) after) :
    outcome (do
        setData target data
        bwrite target
        rest) post (fun _ _ => True) s := by
  have through := writeThrough_coheres coheres valid data
  rw [← bind_assoc]
  refine outcome_seq through ?_
  rintro _ after ⟨written, same⟩
  exact next after written same

theorem brelse_then {dirty : Fin NBUF → Prop} (coheres : Coheres excused dirty s) (b : Fin NBUF)
    {α : Type} {rest : StoreM α} {post : α → Store → Prop}
    (next : ∀ after, Coheres excused dirty after → after.log = s.log →
      outcome rest post (fun _ _ => True) after) :
    outcome (do
        brelse b
        rest) post (fun _ _ => True) s := by
  refine outcome_seq (brelse_coheres coheres b) ?_
  rintro _ after ⟨released, same⟩
  exact next after released same

theorem writeLogStep_coheres (coheres : Coheres excused spotless s) (tail : Nat) :
    outcome (writeLogStep tail)
      (fun _ after => Coheres excused spotless after ∧ after.log = s.log)
      (fun _ _ => True) s := by
  unfold writeLogStep
  rw [outcome_bind, outcome_get]
  refine outcome_seq (bread_coheres coheres _) ?_
  rintro target s1 ⟨coheres1, fetched⟩
  rw [← fetched.log]
  refine outcome_seq (bread_coheres coheres1 _) ?_
  rintro source s2 ⟨coheres2, fetched2⟩
  rw [outcome_bind, outcome_get]
  have still := fetched2.others target fetched.valid fetched.used
  refine copyBlock_coheres coheres2 still.1 _ fun s3 coheres3 same3 => ?_
  have wide := coheres3.weaken (fun _ listed => listed.1) fun _ bad => bad
  refine brelse_then wide source fun s4 coheres4 same4 => ?_
  refine outcome_post (brelse_coheres coheres4 target) ?_
  rintro _ s5 ⟨coheres5, same5⟩
  exact ⟨coheres5, same5.trans (same4.trans (same3.trans fetched2.log))⟩

/-- Installing a block takes the excuse from it. -/
theorem installTransStep_coheres (coheres : Coheres excused spotless s) (recovering : Bool)
    (tail : Nat) :
    outcome (installTransStep recovering tail)
      (fun _ after => Coheres (fun blockno => excused blockno ∧ blockno ≠ s.log.lh.block tail)
        spotless after ∧ after.log = s.log)
      (fun _ _ => True) s := by
  unfold installTransStep
  rw [outcome_bind, outcome_get]
  refine outcome_seq (bread_coheres coheres _) ?_
  rintro lbuf s1 ⟨coheres1, fetched⟩
  rw [← fetched.log]
  refine outcome_seq (bread_coheres coheres1 _) ?_
  rintro dbuf s2 ⟨coheres2, fetched2⟩
  rw [outcome_bind, outcome_get]
  refine copyBlock_coheres coheres2 fetched2.valid _ fun s3 coheres3 same3 => ?_
  rw [fetched2.blockno] at coheres3
  have log3 : s3.log = s1.log := same3.trans fetched2.log
  have finish : ∀ s4, Coheres (fun blockno => excused blockno ∧ blockno ≠ s1.log.lh.block tail)
      spotless s4 → s4.log = s1.log →
      outcome (do
          brelse lbuf
          brelse dbuf)
        (fun _ after => Coheres (fun blockno => excused blockno ∧
          blockno ≠ s1.log.lh.block tail) spotless after ∧ after.log = s1.log)
        (fun _ _ => True) s4 := by
    intro s4 coheres4 same4
    refine brelse_then coheres4 lbuf fun s5 coheres5 same5 => ?_
    refine outcome_post (brelse_coheres coheres5 dbuf) ?_
    rintro _ s6 ⟨coheres6, same6⟩
    exact ⟨coheres6, same6.trans (same5.trans same4)⟩
  split
  · exact finish _ (bpin_coheres coheres3 dbuf _) log3
  · exact finish s3 coheres3 log3

theorem writeHead_coheres (coheres : Coheres excused spotless s) :
    outcome writeHead (fun _ after => Coheres excused spotless after ∧ after.log = s.log)
      (fun _ _ => True) s := by
  unfold writeHead
  rw [outcome_bind, outcome_get]
  refine outcome_seq (bread_coheres coheres _) ?_
  rintro b s1 ⟨coheres1, fetched⟩
  rw [outcome_bind, outcome_get]
  refine copyBlock_coheres coheres1 fetched.valid _ fun s2 coheres2 same2 => ?_
  have wide := coheres2.weaken (fun _ listed => listed.1) fun _ bad => bad
  refine outcome_post (brelse_coheres wide b) ?_
  rintro _ s3 ⟨coheres3, same3⟩
  exact ⟨coheres3, same3.trans (same2.trans fetched.log)⟩

theorem writeLog_coheres (coheres : Coheres excused spotless s) :
    outcome writeLog (fun _ after => Coheres excused spotless after ∧ after.log = s.log)
      (fun _ _ => True) s := by
  unfold writeLog
  rw [outcome_bind, outcome_get]
  refine loop_outcome (fun _ state => Coheres excused spotless state ∧ state.log = s.log)
    _ 0 s ⟨coheres, rfl⟩ ?_
  rintro tail state _ _ ⟨held, same⟩
  refine outcome_post (writeLogStep_coheres held tail) ?_
  rintro _ after ⟨kept, log⟩
  exact ⟨kept, log.trans same⟩

/-- After `install_trans` no block of the log needs an excuse. -/
theorem installTrans_coheres (recovering : Bool) (coheres : Coheres s.log.lists spotless s) :
    outcome (installTrans recovering)
      (fun _ after => Coheres noBlock spotless after ∧ after.log = s.log) (fun _ _ => True) s := by
  unfold installTrans
  rw [outcome_bind, outcome_get]
  refine outcome_post (loop_outcome (fun i state => Coheres (fun blockno => ∃ j : Nat, i ≤ j ∧
    (j : Int) < s.log.lh.n ∧ s.log.lh.block j = blockno) spotless state ∧ state.log = s.log)
    s.log.lh.n.toNat 0 s ⟨?_, rfl⟩ ?_) ?_
  · refine coheres.weaken ?_ fun _ bad => bad
    rintro blockno ⟨i, inside, same⟩
    exact ⟨i, Nat.zero_le i, inside, same⟩
  · rintro tail state _ _ ⟨held, same⟩
    refine outcome_post (installTransStep_coheres held recovering tail) ?_
    rintro _ after ⟨kept, log⟩
    refine ⟨kept.weaken ?_ fun _ bad => bad, log.trans same⟩
    rintro blockno ⟨⟨j, low, inside, there⟩, other⟩
    have later : j ≠ tail := by
      rintro rfl
      rw [same] at other
      exact other there.symm
    exact ⟨j, by omega, inside, there⟩
  · rintro _ after ⟨kept, log⟩
    refine ⟨kept.weaken ?_ fun _ bad => bad, log⟩
    rintro blockno ⟨j, low, inside, _⟩
    omega

theorem clearHeader_coheres (coheres : Coheres noBlock spotless s) :
    outcome clearHeader (fun _ after => Coheres noBlock spotless after ∧
      after.log.lh.n = 0 ∧ after.log.dev = s.log.dev) (fun _ _ => True) s :=
  ⟨coheres.withLog rfl, rfl, rfl⟩

/-- An empty log with a cache that shows the disk. -/
theorem Coheres.coherent (coheres : Coheres noBlock spotless s) (empty : s.log.lh.n = 0) :
    Coherent spotless s :=
  ⟨coheres.weaken (fun _ bad => absurd bad id) fun _ bad => bad, empty ▸ Int.le_refl 0⟩

theorem commit_coheres (coherent : Coherent spotless s) :
    outcome commit (fun _ after => Coherent spotless after ∧ after.log.dev = s.log.dev)
      (fun _ _ => True) s := by
  unfold commit
  rw [outcome_bind, outcome_get]
  split
  · refine outcome_seq (writeLog_coheres coherent.coheres) ?_
    rintro _ s1 ⟨coheres1, same1⟩
    refine outcome_seq (writeHead_coheres coheres1) ?_
    rintro _ s2 ⟨coheres2, same2⟩
    have log2 : s2.log = s.log := same2.trans same1
    rw [← log2] at coheres2
    refine outcome_seq (installTrans_coheres false coheres2) ?_
    rintro _ s3 ⟨coheres3, same3⟩
    refine outcome_seq (clearHeader_coheres coheres3) ?_
    rintro _ s4 ⟨coheres4, empty, dev⟩
    refine outcome_post (writeHead_coheres coheres4) ?_
    rintro _ s5 ⟨coheres5, same5⟩
    refine ⟨coheres5.coherent (same5 ▸ empty), ?_⟩
    rw [same5, dev, same3, log2]
  · exact ⟨coherent, rfl⟩

theorem Coherent.withLog {dirty : Fin NBUF → Prop} (coherent : Coherent dirty s) {log : Log}
    (header : log.lh = s.log.lh) (dev : log.dev = s.log.dev) : Coherent dirty { s with log } := by
  have same : ∀ blockno, s.log.lists blockno → log.lists blockno := by
    rintro blockno ⟨i, inside, there⟩
    exact ⟨i, header ▸ inside, header ▸ there⟩
  exact ⟨(coherent.coheres.weaken same fun _ bad => bad).withLog dev, by
    change 0 ≤ log.lh.n
    rw [header]
    exact coherent.counted⟩

theorem beginOp_coheres {dirty : Fin NBUF → Prop} (coherent : Coherent dirty s) :
    outcome beginOp (fun _ after => Coherent dirty after ∧ after.log.dev = s.log.dev)
      (fun _ _ => True) s := by
  unfold beginOp
  rw [outcome_bind, outcome_get]
  split
  · exact ⟨coherent.withLog rfl rfl, rfl⟩
  · trivial

theorem endOp_coheres (coherent : Coherent spotless s) :
    outcome endOp (fun _ after => Coherent spotless after ∧ after.log.dev = s.log.dev)
      (fun _ _ => True) s := by
  unfold endOp
  rw [outcome_bind, outcome_get]
  cases finished : s.log.finish with
  | error stop => trivial
  | ok result =>
      obtain ⟨log, doCommit⟩ := result
      have kept : log.lh = s.log.lh ∧ log.dev = s.log.dev := by
        unfold Log.finish at finished
        dsimp only at finished
        split at finished
        · cases finished
        split at finished <;> cases finished <;> exact ⟨rfl, rfl⟩
      have moved := coherent.withLog kept.1 kept.2
      cases doCommit with
      | false => exact ⟨moved, kept.2⟩
      | true =>
          rw [outcome_bind, outcome_set]
          refine outcome_seq (commit_coheres moved) ?_
          rintro _ s1 ⟨done, dev⟩
          exact ⟨done.withLog rfl rfl, dev.trans kept.2⟩

/-- Recovery reads whatever header the disk has and still ends with a cache that shows
the disk. -/
theorem recoverFromLog_coheres (coheres : Coheres noBlock spotless s) :
    outcome recoverFromLog
      (fun _ after => Coherent spotless after ∧ after.log.dev = s.log.dev) (fun _ _ => True) s := by
  unfold recoverFromLog
  have read : outcome readHead (fun _ after => Coheres noBlock spotless after ∧
      after.log.dev = s.log.dev) (fun _ _ => True) s := by
    unfold readHead
    rw [outcome_bind, outcome_get]
    refine outcome_seq (bread_coheres coheres _) ?_
    rintro b s1 ⟨coheres1, fetched⟩
    rw [outcome_bind, outcome_get, outcome_bind, outcome_modify]
    refine outcome_post (brelse_coheres (coheres1.withLog (withHeader_dev _ _)) b) ?_
    rintro _ s2 ⟨coheres2, same2⟩
    refine ⟨coheres2, ?_⟩
    rw [same2]
    exact (withHeader_dev _ _).trans (congrArg Log.dev fetched.log)
  refine outcome_seq read ?_
  rintro _ s1 ⟨coheres1, dev1⟩
  have excused : Coheres s1.log.lists spotless s1 :=
    coheres1.weaken (fun _ bad => absurd bad id) fun _ bad => bad
  refine outcome_seq (installTrans_coheres true excused) ?_
  rintro _ s2 ⟨coheres2, same2⟩
  refine outcome_seq (clearHeader_coheres coheres2) ?_
  rintro _ s3 ⟨coheres3, empty, dev3⟩
  refine outcome_post (writeHead_coheres coheres3) ?_
  rintro _ s4 ⟨coheres4, same4⟩
  refine ⟨coheres4.coherent (same4 ▸ empty), ?_⟩
  rw [same4, dev3, same2, dev1]

end Commit

end PaddleOs
