import PaddleOs.FsImages

/-!
A file as an array of bytes. On a disk whose blocks are owned exactly and that has no holes
the bytes of an inode are the list of its contents; `readi` returns a slice of that list,
and `writei` replaces the bytes behind its offset, fewer than it was asked for only when
the disk is full.
-/

namespace PaddleOs

namespace Volume

variable {v v' : Volume} {i : Nat}

/-- The bytes of a file. -/
def content (v : Volume) (i : Nat) : List UInt8 := v.bytes i 0 (v.node i).size

theorem content_length (v : Volume) (i : Nat) : (v.content i).length = (v.node i).size := by
  unfold content bytes
  rw [List.length_map, List.length_range]

theorem content_getElem? (v : Volume) (i o : Nat) :
    (v.content i)[o]? = if o < (v.node i).size then some (v.byte i o) else none := by
  unfold content bytes
  rw [List.getElem?_map]
  by_cases inside : o < (v.node i).size
  · rw [if_pos inside, List.getElem?_range inside, Option.map_some, Nat.zero_add]
  · rw [if_neg inside, List.getElem?_eq_none (by rw [List.length_range]; omega), Option.map_none]

/-- What is read at an offset is a slice of the contents. -/
theorem bytes_slice (v : Volume) (i off n : Nat) :
    v.bytes i off (min n ((v.node i).size - off)) = ((v.content i).drop off).take n := by
  refine List.ext_getElem? fun o => ?_
  rw [List.getElem?_take, List.getElem?_drop, content_getElem?]
  unfold bytes
  rw [List.getElem?_map]
  by_cases inside : o < min n ((v.node i).size - off)
  · rw [List.getElem?_range inside, Option.map_some, if_pos (by omega), if_pos (by omega)]
  · rw [List.getElem?_eq_none (by rw [List.length_range]; omega), Option.map_none]
    by_cases early : o < n
    · rw [if_pos early, if_neg (by omega)]
    · rw [if_neg early]

end Volume

namespace Fs

open Foundation.Outcome

variable {s s' : JState} {v v' : Volume} {k : Slot} {i : Nat}

/-- The disk and the inode table are as the callers of `readi` and `writei` find them. -/
structure Ready (s : JState) (v : Volume) (k : Slot) (i : Nat) : Prop where
  rep : Represents clean s v
  owned : v.Owned
  whole : v.NoHoles
  loaded : Loaded s k i

/-- `writei` refuses the range. -/
def Refuses (v : Volume) (i off n : Nat) : Prop :=
  off > (v.node i).size ∨ 2 ^ 32 ≤ off + n ∨ off + n > MAXFILE * BSIZE

/-- The first `tot` bytes were stored at `off` of inode `i`, and nothing else changed. -/
structure Overwrites (i off tot : Nat) (bytes : List UInt8) (v v' : Volume) : Prop where
  count : tot ≤ bytes.length
  short : tot < bytes.length → v'.Full
  content : v'.content i = (v.content i).take off ++ bytes.take tot ++ (v.content i).drop (off + tot)
  size : (v'.node i).size = max (v.node i).size (off + tot)
  others : ∀ j, j ≠ i → v.Live j → v'.content j = v.content j

theorem readi_whole (rep : Represents clean s v) (owned : v.Owned) (loaded : Loaded s k i)
    (whole : v.Whole i) {off n : Nat} (small : off + n < 2 ^ 32) :
    readi k kernelAccepts off n s =
      .ok ((min n ((v.node i).size - off) : Nat), ((v.content i).drop off).take n) s := by
  have limit := Whole.limit whole
  have bound : MAXFILE * BSIZE < 2 ^ 31 := by decide
  obtain ⟨⟨r, bytes⟩, after, ran, same⟩ := outcome_ok
    (read_spec rep owned loaded whole kernelAccepts off (show n < 2 ^ 32 by omega))
  have result := outcome_of_ok (readi_spec rep owned loaded whole kernelAccepts off n small) ran
  have is := result.2 fun _ _ => rfl
  rw [asInt_small (by omega), Volume.bytes_slice] at is
  rw [ran, is, same]

theorem readi_slice (ready : Ready s v k i) {off n : Nat} (small : off + n < 2 ^ 32) :
    readi k kernelAccepts off n s =
      .ok ((min n ((v.node i).size - off) : Nat), ((v.content i).drop off).take n) s :=
  readi_whole ready.rep ready.owned ready.loaded (ready.whole i (ready.loaded.live ready.rep)) small

/-- The bytes a write leaves, as a list. -/
theorem Stored.content {source : Nat → Nat → List UInt8 × Bool} {off tot : Nat} {bytes : List UInt8}
    (stored : Stored source i off bytes.length tot v v') (start : off ≤ (v.node i).size)
    (sends : Sends source bytes.length fun t => bytes.getD t 0)
    (whole : Reliable source ∨ tot = bytes.length) :
    v'.content i = (v.content i).take off ++ bytes.take tot ++ (v.content i).drop (off + tot) := by
  obtain ⟨reached, least, most, sure, each⟩ := stored.bytes _ sends
  have count := stored.count
  have stop : reached = off + tot := by
    rcases whole with reliable | all
    · exact sure reliable
    · omega
  have before : ((v.content i).take off).length = off := by
    rw [List.length_take, Volume.content_length]
    omega
  have middle : (bytes.take tot).length = tot := by
    rw [List.length_take]
    omega
  refine List.ext_getElem? fun o => ?_
  rw [Volume.content_getElem?, each o, stored.size, stop, List.append_assoc]
  by_cases low : o < off
  · have inside : o < max (v.node i).size (off + tot) := by omega
    rw [List.getElem?_append_left (by omega), List.getElem?_take, if_pos low, Volume.content_getElem?,
      if_pos inside, if_neg (by omega), if_pos (by omega)]
  rw [List.getElem?_append_right (by omega), before]
  by_cases inside : o < off + tot
  · have there : o < max (v.node i).size (off + tot) := by omega
    rw [List.getElem?_append_left (by omega), List.getElem?_take, if_pos there, if_pos ⟨by omega, inside⟩,
      if_pos (by omega), List.getElem?_eq_getElem (by omega), List.getD_eq_getElem _ _ (by omega)]
  · have after : ¬ (off ≤ o ∧ o < off + tot) := by omega
    rw [List.getElem?_append_right (by omega), middle, List.getElem?_drop, Volume.content_getElem?,
      if_neg after, show off + tot + (o - off - tot) = o by omega]
    by_cases old : o < (v.node i).size
    · rw [if_pos (by omega), if_pos old]
    · rw [if_neg (by omega), if_neg old]

theorem Stored.others {source : Nat → Nat → List UInt8 × Bool} {off n tot j : Nat}
    (stored : Stored source i off n tot v v') (owned : v.Owned) (apart : j ≠ i) (live : v.Live j) :
    v'.content j = v.content j := by
  unfold Volume.content
  rw [stored.touch.other j apart]
  exact Volume.bytes_congr fun o _ _ => stored.touch.byte_other owned live apart o

theorem writei_refuses (ready : Ready s v k i) (source : Nat → Nat → List UInt8 × Bool) {off n : Nat}
    (offset : off < 2 ^ 32) (count : n < 2 ^ 32) (refuses : Refuses v i off n) :
    writei k source off n s = .ok (-1) s := by
  have size : (s.inode k).size = (v.node i).size := by rw [ready.rep.copy k i ready.loaded]
  have ran : outcome (writei k source off n) (fun r s' => r = -1 ∧ s' = s) (fun _ _ => False) s := by
    unfold writei
    rw [outcome_bind]
    refine inode_step ?_
    rw [size, outcome_ite]
    refine ⟨fun _ => ⟨rfl, rfl⟩, fun passed => ?_⟩
    rw [outcome_ite]
    refine ⟨fun _ => ⟨rfl, rfl⟩, fun short => ?_⟩
    unfold Refuses at refuses
    omega
  obtain ⟨r, after, done, rfl, rfl⟩ := outcome_ok ran
  exact done

/-- A range that is accepted is written, up to what the disk has room for. -/
theorem writei_stores (ready : Ready s v k i) {off : Nat} {bytes : List UInt8}
    (accepted : ¬ Refuses v i off bytes.length) :
    ∃ (tot : Nat) (s' : JState) (v' : Volume),
      writei k (kernelSource bytes) off bytes.length s = .ok (tot : Int) s' ∧ Ready s' v' k i ∧
      Wrote clean k i s s' v v' ∧ Stored (kernelSource bytes) i off bytes.length tot v v' := by
  have small : off + bytes.length < 2 ^ 32 := by
    unfold Refuses at accepted
    omega
  have returns : outcome (writei k (kernelSource bytes) off bytes.length) (fun _ _ => True)
      (fun _ _ => False) s :=
    outcome_mono (writei_returns k (kernelSource bytes) (by omega) (by omega) s) (fun _ _ _ => trivial)
      fun _ _ never => never trivial
  obtain ⟨r, s', ran, -⟩ := outcome_ok returns
  have result := outcome_of_ok
    (writei_spec ready.rep ready.owned ready.loaded (kernelSource bytes) off bytes.length small) ran
  rcases result with ⟨-, -, refused⟩ | ⟨accepts, v', tot, rfl, wrote, stored, -⟩
  · unfold Refuses at accepted
    exact absurd ⟨by omega, by omega⟩ refused
  · have evolves : v.Evolves (fun _ => False) v' := wrote.touch.evolves ready.owned (stored.whole accepts)
    refine ⟨tot, s', v', ran, ⟨wrote.rep, wrote.owned, evolves.whole ready.whole, ?_⟩, wrote, stored⟩
    exact loaded_update ready.loaded wrote.table

theorem writei_overwrites (ready : Ready s v k i) {off : Nat} {bytes : List UInt8}
    (accepted : ¬ Refuses v i off bytes.length) :
    ∃ (tot : Nat) (s' : JState) (v' : Volume),
      writei k (kernelSource bytes) off bytes.length s = .ok (tot : Int) s' ∧ Ready s' v' k i ∧
      Overwrites i off tot bytes v v' := by
  obtain ⟨tot, s', v', ran, ready', -, stored⟩ := writei_stores ready accepted
  have start : off ≤ (v.node i).size := by
    unfold Refuses at accepted
    omega
  exact ⟨tot, s', v', ran, ready', stored.count, stored.short fun _ _ => rfl,
    stored.content start (kernelSource_sends bytes) (.inl fun _ _ => rfl), stored.size,
    fun j apart live => stored.others ready.owned apart live⟩

/-- The root directory of the smallest disk, found and locked. -/
theorem tiny_ready : ∃ s, Ready s tinyVolume ⟨0, by decide⟩ ROOTINO := by
  have whole : ∀ d, (shown (mounted tinyDisk)).IsDir d → (shown (mounted tinyDisk)).Whole d :=
    fun d dir => tiny_whole d dir.1
  have good : Good (mounted tinyDisk) tinyVolume := tiny_consistent.good whole fun _ => rfl
  have ends : endsIn tinyDisk [.iget ROOTINO, .ilock ⟨0, by decide⟩] (fun s =>
      decide (0 < (s.inode ⟨0, by decide⟩).ref ∧ (s.inode ⟨0, by decide⟩).valid = true ∧
        (s.inode ⟨0, by decide⟩).inum = ROOTINO)) = true := by decide +kernel
  have first : endsIn tinyDisk [.iget ROOTINO] (fun s => decide (0 < (s.inode ⟨0, by decide⟩).ref)) = true := by
    decide +kernel
  obtain ⟨s₁, ran₁, used⟩ := endsIn_run first
  obtain ⟨s₂, ran, test⟩ := endsIn_run ends
  obtain ⟨found, stepped, rest⟩ := Option.bind_eq_some_iff.mp ran
  obtain ⟨locked, stepped', last⟩ := Option.bind_eq_some_iff.mp rest
  obtain rfl : found = s₁ := by
    obtain ⟨again, stepped₁, last₁⟩ := Option.bind_eq_some_iff.mp ran₁
    exact Option.some.inj (stepped.symm.trans (stepped₁.trans last₁))
  obtain rfl : locked = s₂ := Option.some.inj last
  have rep₁ := outcome_of_ok ((outcome_map _ (fun _ => ()) (fun _ s' => Represents clean s' tinyVolume) _ _).mpr
    (outcome_post (iget_spec good.rep good.rep.sane.rootino) fun _ _ took => took.1))
    (Request.step_some stepped)
  have rep₂ := outcome_of_ok (ilock_spec rep₁ ⟨of_decide_eq_true used, rfl⟩) (Request.step_some stepped')
  have loaded := of_decide_eq_true test
  exact ⟨locked, rep₂.1, good.owned, tiny_whole, loaded⟩

end Fs

end PaddleOs
