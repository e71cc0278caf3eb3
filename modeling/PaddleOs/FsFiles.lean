import PaddleOs.FsCalls
import PaddleOs.FsSlots

/-!
Contents of files: `readi`, `writei` and `itrunc` as the calls on open files use them. On a
volume without holes `readi` finds every block it looks for, so it changes nothing; `writei`
and `itrunc` change one file and leave no hole in it. None of the three can leave the
range of `bmap`.
-/

namespace PaddleOs

namespace Volume

variable {v v' : Volume} {i : Nat} {held : Nat → Prop}

/-- A file that lost its blocks keeps its type. -/
theorem Freed.evolves {gone : Nat → Prop} {d : Dinode} (freed : Freed i gone d v v')
    (type : d.type = (v.node i).type) (empty : d.size = 0) : v.Evolves held v' := by
  have live : ∀ j, v'.Live j ↔ v.Live j := by
    intro j
    unfold Live
    rw [freed.sb]
    by_cases same : j = i
    · rw [same, freed.node, type]
    · rw [freed.other j same]
  refine ⟨freed.sb, fun whole j there bn below => ?_, fun j _ was => ⟨(live j).mpr was, ?_⟩⟩
  · by_cases same : j = i
    · rw [same, freed.node, empty] at below
      omega
    · rw [freed.other j same] at below
      have ptr : v'.ptr j (place bn) = v.ptr j (place bn) :=
        ptr_congr (by rw [freed.other j same]) fun _ => by rw [freed.block]
      rw [ptr]
      exact whole j ((live j).mp there) bn below
  · by_cases same : j = i
    · rw [same, freed.node, type]
    · rw [freed.other j same]

/-- An emptied directory has no entries. -/
theorem Freed.neat {gone : Nat → Prop} {d : Dinode} (freed : Freed i gone d v v') (neat : v.Neat)
    (empty : d.size = 0) : v'.Neat := by
  have dirs : ∀ j, j ≠ i → v'.IsDir j → v.IsDir j := by
    rintro j apart ⟨⟨inside, typed⟩, is⟩
    rw [freed.sb] at inside
    rw [freed.other j apart] at typed is
    exact ⟨⟨inside, typed⟩, is⟩
  have ptr : ∀ j, j ≠ i → ∀ p, v'.ptr j p = v.ptr j p := fun j apart p =>
    ptr_congr (by rw [freed.other j apart]) fun _ => by rw [freed.block]
  refine ⟨fun j dir bn below => ?_, fun j dir l below => ?_⟩
  · by_cases same : j = i
    · rw [same, freed.node, empty] at below
      omega
    · rw [freed.other j same] at below
      rw [ptr j same]
      exact neat.whole j (dirs j same dir) bn below
  · unfold slots at below
    by_cases same : j = i
    · rw [same, freed.node, empty, Nat.zero_div] at below
      omega
    · have entry : v'.entry j l = v.entry j l := entry_congr fun o _ _ => by
        unfold byte
        rw [ptr j same, freed.block]
      rw [freed.other j same] at below
      rw [entry, freed.sb]
      exact neat.range j (dirs j same dir) l below

end Volume

namespace Fs

open Foundation.Outcome Foundation.View
open Volume (place place_le)

variable {s s' : JState} {v v' : Volume} {k : Slot} {i : Nat}
variable {base : Slot → Inode} {handles : List Slot}

section Returning

/-- Every stop. -/
def anyStop (_ : Stop) : Prop := True

theorem bread_returns (dev blockno : Nat) : Avoids anyStop (bread (W := Journal) dev blockno) :=
  fun _ => trivial

theorem setData_returns (b : Nat) (data : Block) : Avoids anyStop (setData (W := Journal) b data) :=
  fun _ => trivial

theorem logWrite_returns (b : Nat) : Avoids anyStop (logWrite (W := Journal) b) := fun _ => trivial

theorem brelse_returns (b : Nat) : Avoids anyStop (brelse (W := Journal) b) := fun _ => trivial

theorem data_returns (b : Nat) : Avoids anyStop (data (W := Journal) b) := fun _ => trivial

theorem inode_returns (k : Slot) : Avoids anyStop (inode (W := Journal) k) := fun _ => trivial

theorem modifyInode_returns (k : Slot) (change : Inode → Inode) :
    Avoids anyStop (modifyInode (W := Journal) k change) := fun _ => trivial

theorem ballocFrom_returns (dev b count : Nat) : Avoids anyStop (ballocFrom (W := Journal) dev b count) := by
  induction count generalizing b with
  | zero => exact avoids_pure _
  | succ count ih =>
      unfold ballocFrom
      refine avoids_bind avoids_get fun s => avoids_bind avoids_get fun s' => ?_
      refine avoids_bind (bread_returns dev _) fun bp => avoids_bind (data_returns bp) fun data => ?_
      split
      · exact fun _ => trivial
      · exact avoids_bind (brelse_returns bp) fun _ => ih _

theorem balloc_returns (dev : Nat) : Avoids anyStop (balloc (W := Journal) dev) :=
  avoids_bind avoids_get fun _ => ballocFrom_returns dev _ _

theorem bmapDirect_returns (k : Slot) (bn : Nat) : Avoids anyStop (bmapDirect (W := Journal) k bn) := by
  unfold bmapDirect
  refine avoids_bind (inode_returns k) fun ip => avoids_ite ?_ (avoids_pure _)
  refine avoids_bind (balloc_returns _) fun addr => avoids_ite ?_ (avoids_pure _)
  exact avoids_bind (modifyInode_returns k _) fun _ => avoids_pure _

theorem bmapIndirect_returns (k : Slot) (bn : Nat) : Avoids anyStop (bmapIndirect (W := Journal) k bn) := by
  unfold bmapIndirect
  refine avoids_bind (bmapDirect_returns k _) fun addr => avoids_ite (avoids_pure _) ?_
  refine avoids_bind (inode_returns k) fun ip => avoids_bind (bread_returns _ _) fun bp => ?_
  refine avoids_bind (data_returns bp) fun data => avoids_ite ?_ fun _ => trivial
  exact avoids_bind (balloc_returns _) fun addr => avoids_ite (fun _ => trivial) fun _ => trivial

theorem bmap_returns (k : Slot) {bn : Nat} (inside : bn < MAXFILE) :
    Avoids anyStop (bmap (W := Journal) k bn) := by
  unfold bmap
  split
  · exact bmapDirect_returns k bn
  · rw [if_pos (by unfold MAXFILE at inside; omega)]
    exact bmapIndirect_returns k _

theorem readiFrom_returns (k : Slot) (accepts : Nat → Nat → Bool) (n fuel tot off : Nat)
    (read : List UInt8) (limit : off + (n - tot) ≤ MAXFILE * BSIZE) :
    Avoids anyStop (readiFrom (W := Journal) k accepts n fuel tot off read) := by
  induction fuel generalizing tot off read with
  | zero => exact avoids_pure _
  | succ fuel ih =>
      unfold readiFrom
      by_cases more : tot < n
      · rw [if_pos more]
        have inside : off / BSIZE < MAXFILE := Nat.div_lt_of_lt_mul (by rw [Nat.mul_comm]; omega)
        refine avoids_bind (bmap_returns k inside) fun addr => avoids_ite (avoids_pure _) ?_
        refine avoids_bind (inode_returns k) fun ip => avoids_bind (bread_returns _ _) fun bp => ?_
        refine avoids_bind (data_returns bp) fun data => avoids_bind (brelse_returns bp) fun _ => ?_
        exact avoids_ite (ih _ _ _ (by omega)) (avoids_pure _)
      · rw [if_neg more]
        exact avoids_pure _

theorem writeiFrom_returns (k : Slot) (source : Nat → Nat → List UInt8 × Bool) (n fuel tot off : Nat)
    (limit : off + (n - tot) ≤ MAXFILE * BSIZE) :
    Avoids anyStop (writeiFrom (W := Journal) k source n fuel tot off) := by
  induction fuel generalizing tot off with
  | zero => exact avoids_pure _
  | succ fuel ih =>
      unfold writeiFrom
      by_cases more : tot < n
      · rw [if_pos more]
        have inside : off / BSIZE < MAXFILE := Nat.div_lt_of_lt_mul (by rw [Nat.mul_comm]; omega)
        refine avoids_bind (bmap_returns k inside) fun addr => avoids_ite (avoids_pure _) ?_
        refine avoids_bind (inode_returns k) fun ip => avoids_bind (bread_returns _ _) fun bp => ?_
        refine avoids_bind (data_returns bp) fun data => avoids_bind (setData_returns bp _) fun _ => ?_
        refine avoids_ite ?_ (avoids_bind (brelse_returns bp) fun _ => avoids_pure _)
        refine avoids_bind (logWrite_returns bp) fun _ => avoids_bind (brelse_returns bp) fun _ => ?_
        exact ih _ _ (by omega)
      · rw [if_neg more]
        exact avoids_pure _

theorem iupdate_returns (k : Slot) : Avoids anyStop (iupdate (W := Journal) k) := fun _ => trivial

/-- The checks of `writei` keep `bmap` in its range. -/
theorem writei_returns (k : Slot) (source : Nat → Nat → List UInt8 × Bool) {off n : Nat}
    (offset : off < 2 ^ 32) (count : n < 2 ^ 32) : Avoids anyStop (writei (W := Journal) k source off n) := by
  unfold writei
  refine avoids_bind (inode_returns k) fun ip => ?_
  by_cases outside : off > ip.size ∨ (off + n) % 2 ^ 32 < off
  · rw [if_pos outside]
    exact avoids_pure _
  rw [if_neg outside]
  by_cases large : (off + n) % 2 ^ 32 > MAXFILE * BSIZE
  · rw [if_pos large]
    exact avoids_pure _
  rw [if_neg large]
  have limit : off + (n - 0) ≤ MAXFILE * BSIZE := by omega
  refine avoids_bind (writeiFrom_returns k source n n 0 off limit) fun done => ?_
  refine avoids_bind (inode_returns k) fun ip => ?_
  split
  · exact fun _ => trivial
  · exact avoids_bind (iupdate_returns k) fun _ => avoids_pure _

end Returning

section Contents

/-- A read of a file without holes returns and changes nothing. -/
theorem read_spec (rep : Represents clean s v) (owned : v.Owned) (loaded : Loaded s k i)
    (whole : v.Whole i) (accepts : Nat → Nat → Bool) (off : Nat) {n : Nat} (count : n < 2 ^ 32) :
    outcome (readi k accepts off n) (fun _ s' => s' = s) (fun _ _ => False) s := by
  have limit := Whole.limit whole
  have copy := rep.copy k i loaded
  by_cases small : off + n < 2 ^ 32
  · have returns : outcome (readi k accepts off n) (fun _ _ => True) (fun reason _ => ¬ anyStop reason) s := by
      unfold readi
      rw [outcome_bind]
      refine inode_step ?_
      rw [copy]
      dsimp only
      split
      · exact trivial
      · rename_i inside
        refine readiFrom_returns k accepts _ _ 0 off [] ?_ s
        split <;> omega
    refine outcome_mono (outcome_and (readi_spec rep owned loaded whole accepts off n small) returns)
      ?_ ?_
    · rintro r s' ⟨⟨same, -⟩, -⟩
      exact same
    · rintro stop s' ⟨-, never⟩
      exact never trivial
  · unfold readi
    rw [outcome_bind]
    refine inode_step ?_
    have size : (s.inode k).size ≤ MAXFILE * BSIZE := by
      rw [copy]
      exact limit
    have bound : MAXFILE * BSIZE < 2 ^ 32 := by decide
    rw [if_pos (by omega), outcome_pure]

theorem Stored.whole {source : Nat → Nat → List UInt8 × Bool} {off n tot : Nat}
    (stored : Stored source i off n tot v v') (accepts : Accepts v i off n) (whole : v.Whole i) :
    v'.Whole i := by
  intro bn below
  rw [stored.size] at below
  by_cases old : bn * BSIZE < (v.node i).size
  · obtain ⟨limit, present⟩ := whole bn old
    refine ⟨limit, ?_⟩
    rw [stored.touch.kept _ (place_le limit) present]
    exact present
  · have reached := stored.mapped (bn * BSIZE) (by have := accepts.1; omega) (by omega)
    rwa [Nat.mul_div_cancel bn (by decide : 0 < BSIZE)] at reached

theorem write_spec (held : Nat → Prop) (good : Good s v) (atop : Over base handles s) (loaded : Loaded s k i)
    (plain : (v.node i).type ≠ T_DIR) (source : Nat → Nat → List UInt8 × Bool) {off n : Nat}
    (offset : off < 2 ^ 32) (count : n < 2 ^ 32) :
    outcome (writei k source off n) (fun _ s' => ∃ v', Good s' v' ∧ v.Evolves held v' ∧
      Keeps base handles s s') (fun _ _ => False) s := by
  have same : Keeps base handles s s := ⟨atop, fun _ _ => id, fun _ _ => id⟩
  by_cases small : off + n < 2 ^ 32
  · refine outcome_mono (outcome_and (writei_spec good.rep good.owned loaded source off n small)
      (writei_returns k source offset count s)) ?_ ?_
    · rintro r s' ⟨⟨-, rfl, -⟩ | ⟨accepts, v', tot, -, wrote, stored, -⟩, -⟩
      · exact ⟨v, good, .refl _ _, same⟩
      · have neat : v'.Neat := wrote.touch.neat good.owned good.neat fun dir => absurd dir.2 plain
        exact ⟨v', ⟨wrote.rep, wrote.owned, neat⟩, wrote.touch.evolves good.owned (stored.whole accepts),
          keeps_update atop wrote.table rfl rfl rfl⟩
    · rintro stop s' ⟨-, never⟩
      exact never trivial
  · unfold writei
    rw [outcome_bind]
    refine inode_step ?_
    rw [if_pos (.inr (by omega)), outcome_pure]
    exact ⟨v, good, .refl _ _, same⟩

theorem truncate_spec (held : Nat → Prop) (good : Good s v) (atop : Over base handles s)
    (loaded : Loaded s k i) :
    outcome (itrunc k) (fun _ s' => ∃ v', Good s' v' ∧ v.Evolves held v' ∧ Keeps base handles s s')
      Permitted s := by
  refine outcome_post (itrunc_spec good.rep good.owned loaded) ?_
  rintro _ s' ⟨v', truncated⟩
  exact ⟨v', ⟨truncated.rep, truncated.owned, truncated.freed.neat good.neat rfl⟩,
    truncated.freed.evolves rfl rfl, keeps_update atop truncated.table rfl rfl rfl⟩

end Contents

section Reading

/-- A reference was taken: the disk, the log and every inode in use are as they were. -/
structure Refers (s s' : JState) : Prop where
  sb : s'.sb = s.sb
  store : s'.store = s.store
  copies : ∀ j, 0 < (s.inode j).ref → (s'.inode j).toDinode = (s.inode j).toDinode ∧
    (s'.inode j).inum = (s.inode j).inum ∧ (s'.inode j).valid = (s.inode j).valid

theorem Refers.refl (s : JState) : Refers s s := ⟨rfl, rfl, fun _ _ => ⟨rfl, rfl, rfl⟩⟩

theorem Refers.setInode (s : JState) (k : Slot) {ip : Inode}
    (kept : 0 < (s.inode k).ref → ip.toDinode = (s.inode k).toDinode ∧ ip.inum = (s.inode k).inum ∧
      ip.valid = (s.inode k).valid) : Refers s (s.setInode k ip) := by
  refine ⟨rfl, rfl, fun j used => ?_⟩
  by_cases here : j = k
  · rw [here, setInode_same]
    exact kept (here ▸ used)
  · rw [setInode_other _ here]
    exact ⟨rfl, rfl, rfl⟩

/-- A panic that is not the one of `bmap`, in the state of the call. -/
def Stops (s : JState) (stop : Stop) (s' : JState) : Prop := s' = s ∧ stop ≠ .bmapOutOfRange

theorem iget_refers (dev inum : Nat) (s : JState) :
    outcome (iget dev inum) (fun _ s' => Refers s s') (Stops s) s := by
  unfold iget
  rw [outcome_bind, outcome_get]
  split
  · rename_i k found
    rw [outcome_bind]
    exact modifyInode_step (.setInode s k fun _ => ⟨rfl, rfl, rfl⟩)
  · split
    · exact ⟨rfl, by decide⟩
    · rename_i k found
      rw [outcome_bind]
      refine modifyInode_step (.setInode s k fun used => ?_)
      have free := List.find?_some found
      rw [decide_eq_true_eq] at free
      omega

variable (good : Good s v) (loaded : Loaded s k i) (whole : v.Whole i)
include good loaded whole

theorem readDirent_still (off : Nat) {panic : Stop} (own : panic ≠ .bmapOutOfRange) :
    outcome (readDirent k off panic) (fun _ s' => s' = s) (Stops s) s := by
  unfold readDirent
  refine outcome_seq (outcome_mono (read_spec good.rep good.owned loaded whole kernelAccepts off (by decide))
    (fun _ _ same => same) fun _ _ never => never.elim) ?_
  rintro ⟨r, bytes⟩ _ rfl
  rw [outcome_ite]
  exact ⟨fun _ => ⟨rfl, own⟩, fun _ => rfl⟩

theorem dirlookupFrom_refers (name : Name) (fuel off : Nat) :
    outcome (dirlookupFrom k name fuel off) (fun _ s' => Refers s s') (Stops s) s := by
  induction fuel generalizing off with
  | zero => exact .refl s
  | succ fuel ih =>
      rw [dirlookupFrom, outcome_bind]
      refine inode_step ?_
      rw [outcome_ite]
      refine ⟨fun _ => ?_, fun _ => .refl s⟩
      refine outcome_seq (readDirent_still good loaded whole off (by decide)) ?_
      rintro de s₁ same
      rw [same, outcome_ite]
      refine ⟨fun _ => ?_, fun _ => ih (off + DIRENT)⟩
      rw [outcome_bind]
      refine inode_step ?_
      refine outcome_seq (iget_refers _ _ s) ?_
      exact fun _ _ refers => refers

/-- Looking a name up only takes a reference. -/
theorem dirlookup_refers (name : Name) :
    outcome (dirlookup k name) (fun _ s' => Refers s s') (Stops s) s := by
  unfold dirlookup
  rw [outcome_bind]
  refine inode_step ?_
  rw [outcome_ite]
  exact ⟨fun _ => ⟨rfl, by decide⟩, fun _ => dirlookupFrom_refers good loaded whole name _ 0⟩

theorem isdiremptyFrom_still (fuel off : Nat) :
    outcome (isdiremptyFrom k fuel off) (fun _ s' => s' = s) (Stops s) s := by
  induction fuel generalizing off with
  | zero => exact rfl
  | succ fuel ih =>
      rw [isdiremptyFrom, outcome_bind]
      refine inode_step ?_
      rw [outcome_ite]
      refine ⟨fun _ => ?_, fun _ => rfl⟩
      refine outcome_seq (readDirent_still good loaded whole off (by decide)) ?_
      rintro de _ rfl
      rw [outcome_ite]
      exact ⟨fun _ => rfl, fun _ => ih (off + DIRENT)⟩

theorem isdirempty_still : outcome (isdirempty k) (fun _ s' => s' = s) (Stops s) s := by
  unfold isdirempty
  rw [outcome_bind]
  exact inode_step (isdiremptyFrom_still good loaded whole _ _)

end Reading

end Fs

end PaddleOs
