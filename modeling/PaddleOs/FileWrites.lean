import PaddleOs.FreeBlocks
import PaddleOs.UserReads

/-!
`write` to a file from the memory of a process. `filewrite` cuts the range into transactions
of at most `writeMax` bytes, each of them a `writei` at the offset the one before has left.
Together they store what one `writei` stores: both run out of free blocks at the same
place, since both map the same blocks of the file.
-/

namespace PaddleOs.Fs

open Foundation.Outcome
open Volume (place place_le place_ne)

variable {s s' : JState} {v v₁ v' : Volume} {k : Slot} {i off : Nat} {bytes more : List UInt8}

section OneWrite

/-- The bytes stand at `off` of inode `i`, in blocks of the file, and nothing else changed. -/
structure Extends (i off : Nat) (bytes : List UInt8) (v v' : Volume) : Prop where
  touch : Volume.Touch i v v'
  content : v'.content i = (v.content i).take off ++ bytes ++ (v.content i).drop (off + bytes.length)
  mapped : Backed i off (off + bytes.length) v'

theorem Extends.nothing (live : v.Live i) (off : Nat) : Extends i off [] v v where
  touch := (Volume.Grow.refl v i).touch live
  content := by
    rw [List.append_nil]
    exact (List.take_append_drop off _).symm
  mapped o first last := absurd last (Nat.not_lt.mpr first)

theorem Extends.append (first : Extends i off bytes v v₁)
    (second : Extends i (off + bytes.length) more v₁ v') (start : off ≤ (v.node i).size) (live : v.Live i) :
    Extends i off (bytes ++ more) v v' where
  touch := first.touch.trans second.touch live
  content := by
    have before : ((v.content i).take off).length = off := by
      rw [List.length_take, Volume.content_length]
      omega
    have front : ((v.content i).take off ++ bytes).length = off + bytes.length := by
      rw [List.length_append, before]
    rw [second.content, first.content, List.take_left' front, ← front, List.drop_length_add_append,
      List.drop_drop, front, List.length_append, ← Nat.add_assoc]
    simp only [List.append_assoc]
  mapped o low high := by
    by_cases early : o < off + bytes.length
    · obtain ⟨limit, some⟩ := first.mapped o low early
      exact ⟨limit, second.touch.kept _ (place_le limit) some ▸ some⟩
    · refine second.mapped o (by omega) ?_
      rw [List.length_append] at high
      omega

theorem Extends.others (extends_ : Extends i off bytes v v') (owned : v.Owned) {j : Nat} (apart : j ≠ i)
    (live : v.Live j) : v'.content j = v.content j := by
  unfold Volume.content
  rw [extends_.touch.other j apart]
  exact Volume.bytes_congr fun o _ _ => extends_.touch.byte_other owned live apart o

/-- What one `writei` has stored. -/
theorem Stored.extends {tot : Nat} (stored : Stored (kernelSource bytes) i off bytes.length tot v v')
    (start : off ≤ (v.node i).size) : Extends i off (bytes.take tot) v v' := by
  have length : (bytes.take tot).length = tot := by
    rw [List.length_take]
    exact Nat.min_eq_left stored.count
  refine ⟨stored.touch, ?_, ?_⟩
  · rw [length]
    exact stored.content start (kernelSource_sends bytes) (.inl fun _ _ => rfl)
  · rw [length]
    exact stored.mapped

/-- A `writei` of bytes that have found room otherwise stores all of them. -/
theorem Extends.one_write (extends_ : Extends i off bytes v v') (ready : Ready s v k i) (owned' : v'.Owned)
    (offset : off < 2 ^ 32) (start : bytes ≠ [] → off ≤ (v.node i).size) :
    ∃ (r : Int) (s₁ : JState) (v₁ : Volume), writei k (kernelSource bytes) off bytes.length s = .ok r s₁ ∧
      (bytes ≠ [] → r = bytes.length) ∧ Ready s₁ v₁ k i ∧ v₁.content i = v'.content i := by
  have live := ready.loaded.live ready.rep
  have limit := Whole.limit (ready.whole i live)
  have room : off + bytes.length ≤ MAXFILE * BSIZE ∨ bytes = [] := by
    by_cases empty : bytes = []
    · exact .inr empty
    have some := List.length_pos_iff.mpr empty
    have last := (extends_.mapped (off + bytes.length - 1) (by omega) (by omega)).1
    have below := (Nat.div_lt_iff_lt_mul (by decide)).mp last
    exact .inl (by omega)
  by_cases refuses : Refuses v i off bytes.length
  · obtain rfl : bytes = [] := by
      by_contra some
      have := start some
      have large : MAXFILE * BSIZE < 2 ^ 32 := by decide
      unfold Refuses at refuses
      rcases room with room | empty
      · omega
      · exact some empty
    refine ⟨-1, s, v, writei_refuses ready _ offset (by decide) refuses, fun some => absurd rfl some, ready, ?_⟩
    rw [extends_.content]
    exact (Extends.nothing live off).content
  · obtain ⟨tot, s₁, v₁, ran, ready₁, wrote, stored⟩ := writei_stores ready refuses
    have begins : off ≤ (v.node i).size := by
      unfold Refuses at refuses
      omega
    obtain rfl : tot = bytes.length := by
      by_contra fewer
      have less : tot < bytes.length := Nat.lt_of_le_of_ne stored.count fewer
      refine no_shortage ready.owned live ready₁.owned stored.touch stored.gains
        (stored.short (fun _ _ => rfl) less) owned' extends_.touch extends_.mapped
        ⟨off + tot, by omega, by omega, .inr rfl⟩ (stored.stuck (fun _ _ => rfl) less)
    have same := (stored.extends begins).content
    rw [List.take_length] at same
    exact ⟨_, s₁, v₁, ran, fun _ => rfl, ready₁, same.trans extends_.content.symm⟩

end OneWrite

section Sources

variable {W : Type} {source source' : Nat → Nat → List UInt8 × Bool} {n : Nat}

/-- Only the bytes of the range are asked for. -/
theorem writeiFrom_congr [BlockLayer W] (k : Slot) (same : ∀ a m, a + m ≤ n → source a m = source' a m)
    (fuel tot off : Nat) :
    writeiFrom (W := W) k source n fuel tot off = writeiFrom k source' n fuel tot off := by
  induction fuel generalizing tot off with
  | zero => rfl
  | succ fuel ih =>
      unfold writeiFrom
      by_cases more : tot < n
      · have inside : tot + min (n - tot) (BSIZE - off % BSIZE) ≤ n := by omega
        simp only [same _ _ inside, ih]
      · rw [if_neg more, if_neg more]

theorem writei_congr [BlockLayer W] (k : Slot) (same : ∀ a m, a + m ≤ n → source a m = source' a m) (off : Nat) :
    writei (W := W) k source off n = writei k source' off n := by
  unfold writei
  simp only [writeiFrom_congr k same]

end Sources

section Locking

theorem Ready.store (ready : Ready s v k i) (sb : s'.sb = s.sb) (inode : s'.inode = s.inode)
    (block : s'.store.block = s.store.block) : Ready s' v k i where
  rep := ready.rep.store sb inode block
  owned := ready.owned
  whole := ready.whole
  loaded := by
    unfold Loaded
    rw [inode]
    exact ready.loaded

theorem Ready.relock (ready : Ready s v k i) (locked : Bool) :
    Ready (s.setInode k { s.inode k with locked }) v k i where
  rep := ready.rep.touch ready.loaded.1 (by have := ready.loaded.1; dsimp only; omega) rfl rfl rfl rfl fun _ => id
  owned := ready.owned
  whole := ready.whole
  loaded := by
    unfold Loaded
    rw [setInode_same]
    exact ready.loaded

end Locking

end PaddleOs.Fs

namespace PaddleOs.Kernel

open Foundation.Outcome
open Fs (Ready Extends)

/-- The bytes of a process from `addr` on. -/
def userBytes (ram : Vm.Ram) (r addr n : Nat) : List UInt8 :=
  (List.range n).map fun j => Vm.userByte ram r (addr + j)

section Bytes

variable {ram : Vm.Ram} {r addr n : Nat}

theorem userBytes_length (ram : Vm.Ram) (r addr n : Nat) : (userBytes ram r addr n).length = n := by
  unfold userBytes
  rw [List.length_map, List.length_range]

theorem userBytes_append (ram : Vm.Ram) (r addr a b : Nat) :
    userBytes ram r addr (a + b) = userBytes ram r addr a ++ userBytes ram r (addr + a) b := by
  unfold userBytes
  rw [List.range_add, List.map_append, List.map_map]
  congr 1
  refine List.map_congr_left fun j _ => ?_
  rw [Function.comp_apply, Nat.add_assoc]

theorem userBytes_slice (ram : Vm.Ram) (r addr : Nat) {a m : Nat} (inside : a + m ≤ n) :
    ((userBytes ram r addr n).drop a).take m = userBytes ram r (addr + a) m := by
  obtain ⟨rest, rfl⟩ := Nat.exists_eq_add_of_le inside
  rw [userBytes_append ram r addr (a + m) rest, userBytes_append ram r addr a m, List.append_assoc,
    List.drop_left' (userBytes_length ram r addr a), List.take_left' (userBytes_length ram r (addr + a) m)]

/-- A range that is mapped is copied as the list of its bytes. -/
theorem userSource_mapped (map : Vm.UserMap ram r) (mapped : ∀ j < n, Vm.Accessible ram r (addr + j))
    {a m : Nat} (inside : a + m ≤ n) :
    userSource ram r (word64 addr) a m = Fs.kernelSource (userBytes ram r addr n) a m := by
  obtain ⟨dst, ok, -, ran, short, all, bytes⟩ := Vm.copyin_exact map (word64 (word64 addr + a)) m
  have is : userSource ram r (word64 addr) a m = (dst, ok) := by
    unfold userSource
    rw [ran]
  have sent : Fs.kernelSource (userBytes ram r addr n) a m = (userBytes ram r (addr + a) m, true) := by
    unfold Fs.kernelSource
    rw [userBytes_slice ram r addr inside]
  rw [is, sent]
  by_cases nothing : m = 0
  · subst nothing
    have sure : ok = true := all.mpr fun j below => absurd below (Nat.not_lt_zero j)
    obtain rfl : dst = [] := List.length_eq_zero_iff.mp (Nat.le_zero.mp short)
    rw [sure]
    rfl
  · have top : MAXVA < 2 ^ 64 := by decide
    have low := Vm.accessible_low (mapped a (by omega))
    have straight : word64 (word64 addr + a) = addr + a := by
      unfold word64
      rw [Nat.mod_eq_of_lt (show addr < 2 ^ 64 by omega), Nat.mod_eq_of_lt (by omega)]
    rw [straight] at all bytes
    have sure : ok = true := all.mpr fun j below => by
      rw [Nat.add_assoc]
      exact mapped (a + j) (by omega)
    rw [sure, bytes sure]
    rfl

end Bytes

section Filewrite

variable {s s' : State Journal} {v v' : Volume} {p : Pid} {f : FileId} {addr n : Nat}

/-- The inode of an open file that can be written to. -/
structure Unlocked (s : State Journal) (v : Volume) (f : FileId) (i : Nat) : Prop where
  ready : Ready s.fs v (s.file f).ip i
  free : (s.fs.inode (s.file f).ip).locked = false
  off : (s.file f).off < 2 ^ 32

/-- The state after a write that has moved the offset to `off`. -/
def movedTo (s : State Journal) (f : FileId) (fs' : Fs.JState) (off : Nat) : State Journal :=
  { s with fs := fs', file := Function.update s.file f { s.file f with off } }

theorem movedTo_file (s : State Journal) (f : FileId) (fs' : Fs.JState) (off : Nat) :
    (movedTo s f fs' off).file f = { s.file f with off } := Function.update_self ..

theorem movedTo_movedTo (s : State Journal) (f : FileId) (fs₁ fs' : Fs.JState) (off₁ off : Nat) :
    movedTo (movedTo s f fs₁ off₁) f fs' off = movedTo s f fs' off := by
  unfold movedTo
  simp only [Function.update_self, Function.update_idem]

theorem movedTo_stays (s : State Journal) (f : FileId) (fs' : Fs.JState) :
    movedTo s f fs' (s.file f).off = { s with fs := fs' } := by
  unfold movedTo
  simp only [Function.update_eq_self]

/-- What a loop of transactions does that stores the first bytes of `bytes` and no more. -/
structure Advances (f : FileId) (i : Nat) (bytes : List UInt8) (s : State Journal) (v : Volume)
    (s' : State Journal) (v' : Volume) (m : Nat) : Prop where
  count : m ≤ bytes.length
  extends_ : Extends i (s.file f).off (bytes.take m) v v'
  start : m ≠ 0 → (s.file f).off ≤ (v.node i).size
  moved : s' = movedTo s f s'.fs ((s.file f).off + m)
  unlocked : Unlocked s' v' f i

theorem Unlocked.live {i : Nat} (unlocked : Unlocked s v f i) : v.Live i :=
  unlocked.ready.loaded.live unlocked.ready.rep

theorem Advances.nothing {i : Nat} (unlocked : Unlocked s v f i) (bytes : List UInt8) :
    Advances f i bytes s v s v 0 where
  count := Nat.zero_le _
  extends_ := .nothing unlocked.live _
  start some := absurd rfl some
  moved := (movedTo_stays s f s.fs).symm
  unlocked := unlocked

/-- One transaction: the inode is locked, written to and unlocked. -/
theorem transaction_stores {i : Nat} (unlocked : Unlocked s v f i) {bytes : List UInt8}
    (small : bytes.length < 2 ^ 32) : ∃ (r : Int) (m : Nat) (fs₁ fs' : Fs.JState) (v' : Volume),
    Fs.ilock (s.file f).ip (Fs.opened s.fs) = .ok ()
      ((Fs.opened s.fs).setInode (s.file f).ip { s.fs.inode (s.file f).ip with locked := true }) ∧
    Fs.writei (s.file f).ip (Fs.kernelSource bytes) (s.file f).off bytes.length
      ((Fs.opened s.fs).setInode (s.file f).ip { s.fs.inode (s.file f).ip with locked := true }) = .ok r fs₁ ∧
    Fs.iunlock (s.file f).ip fs₁ = .ok () fs' ∧ Ready fs' v' (s.file f).ip i ∧
    (fs'.inode (s.file f).ip).locked = false ∧ m ≤ bytes.length ∧
    Extends i (s.file f).off (bytes.take m) v v' ∧ (s.file f).off + m < 2 ^ 32 ∧
    (r = -1 ∧ m = 0 ∨ r = m ∧ (s.file f).off ≤ (v.node i).size) := by
  have ready := unlocked.ready
  have locking := Fs.ilock_valid (s := Fs.opened s.fs) ready.loaded.1 unlocked.free ready.loaded.2.1
  have begun : Ready (Fs.opened s.fs) v (s.file f).ip i := ready.store rfl rfl rfl
  have locked : Ready ((Fs.opened s.fs).setInode (s.file f).ip
      { s.fs.inode (s.file f).ip with locked := true }) v (s.file f).ip i := begun.relock true
  have unlocking : ∀ {fs₁ : Fs.JState} {v₁ : Volume}, Ready fs₁ v₁ (s.file f).ip i →
      (fs₁.inode (s.file f).ip).locked = true → ∃ fs', Fs.iunlock (s.file f).ip fs₁ = .ok () fs' ∧
        Ready fs' v₁ (s.file f).ip i ∧ (fs'.inode (s.file f).ip).locked = false := by
    intro fs₁ v₁ ready₁ held
    refine ⟨_, Fs.iunlock_locked ready₁.loaded.1 held, ready₁.relock false, ?_⟩
    rw [Fs.setInode_same]
  by_cases refuses : Fs.Refuses v i (s.file f).off bytes.length
  · obtain ⟨fs', unlock, ready', free⟩ := unlocking locked (by rw [Fs.setInode_same])
    exact ⟨-1, 0, _, fs', v, locking, Fs.writei_refuses locked _ unlocked.off small refuses, unlock, ready', free,
      Nat.zero_le _, .nothing (ready.loaded.live ready.rep) _, unlocked.off, .inl ⟨rfl, rfl⟩⟩
  · obtain ⟨tot, fs₁, v₁, ran, ready₁, wrote, stored⟩ := Fs.writei_stores locked refuses
    have start : (s.file f).off ≤ (v.node i).size := by
      unfold Fs.Refuses at refuses
      omega
    obtain ⟨fs', unlock, ready', free⟩ := unlocking ready₁ (by
      rw [wrote.table, Function.update_self, Fs.setInode_same])
    have limit := Fs.Whole.limit (ready₁.whole i (ready₁.loaded.live ready₁.rep))
    have large : MAXFILE * BSIZE < 2 ^ 32 := by decide
    have reached := stored.size
    exact ⟨tot, tot, fs₁, fs', v₁, locking, ran, unlock, ready', free, stored.count, stored.extends start,
      by omega, .inr ⟨rfl, start⟩⟩

/-- The state `end_op` leaves. -/
def ended (s : Fs.JState) : Fs.JState :=
  { s with store := { s.store with outstanding := s.store.outstanding - 1 } }

theorem endOp_leaves {α : Type} {next : KernelM Journal α} {post : α → State Journal → Prop}
    {fail : Halt → State Journal → Prop} (rest : outcome next post fail { s with fs := ended s.fs }) :
    outcome (do
      fs Fs.endOp
      next) post fail s := rest

/-- The loop stores the bytes of the range from the front on, all of them when it gets to its end. -/
theorem filewriteFrom_stores {i a fuel : Nat} (unlocked : Unlocked s v f i)
    (map : Vm.UserMap s.ram (s.proc p).pagetable)
    (mapped : ∀ j < n, Vm.Accessible s.ram (s.proc p).pagetable (addr + j)) (enough : n - a ≤ fuel)
    (inside : a ≤ n) :
    outcome (filewriteFrom p f addr n fuel a) (fun r s' => ∃ m v', r ≤ n ∧ (r = n ↔ m = n - a) ∧
      Advances f i (userBytes s.ram (s.proc p).pagetable (addr + a) (n - a)) s v s' v' m) (fun _ _ => False) s := by
  induction fuel generalizing a s v with
  | zero =>
      obtain rfl : a = n := by omega
      exact ⟨0, v, Nat.le_refl _, by simp, .nothing unlocked _⟩
  | succ fuel ih =>
      unfold filewriteFrom
      rw [outcome_ite]
      refine ⟨fun more => ?_, fun done => ?_⟩
      · generalize width : min (n - a) writeMax = n₁
        obtain ⟨left, split⟩ : ∃ left, n - a = n₁ + left := ⟨n - a - n₁, by omega⟩
        have whole := userBytes_append s.ram (s.proc p).pagetable (addr + a) n₁ left
        have length := userBytes_length s.ram (s.proc p).pagetable (addr + a) n₁
        have wide : writeMax < 2 ^ 32 := by decide
        have positive : 0 < writeMax := by decide
        obtain ⟨r, m, fs₁, fs', v₁, lock, write, unlock, ready', free', most, stores, small, result⟩ :=
          @transaction_stores _ _ _ _ unlocked (userBytes s.ram (s.proc p).pagetable (addr + a) n₁)
            (by rw [length]; omega)
        have same := Fs.writei_congr (W := Journal) (s.file f).ip (fun b m inside => userSource_mapped map
          (fun j below => by
            rw [Nat.add_assoc]
            exact mapped (a + j) (by omega)) (n := n₁) inside) (s.file f).off
        rw [length] at write most
        rw [← same] at write
        have front : (userBytes s.ram (s.proc p).pagetable (addr + a) (n - a)).take m =
            (userBytes s.ram (s.proc p).pagetable (addr + a) n₁).take m := by
          rw [split, whole, List.take_append_of_le_length (by omega)]
        have unlocked' : Unlocked (movedTo s f (ended fs') ((s.file f).off + m)) v₁ f i := by
          refine ⟨?_, ?_, ?_⟩
          · rw [movedTo_file]
            exact ready'.store rfl rfl rfl
          · rw [movedTo_file]
            exact free'
          · rw [movedTo_file]
            exact small
        have finish : outcome (do
            fs (Fs.iunlock (s.file f).ip)
            fs Fs.endOp
            if r ≠ (n₁ : Int) then return a
            filewriteFrom p f addr n fuel (a + n₁)) (fun r s' => ∃ m v', r ≤ n ∧ (r = n ↔ m = n - a) ∧
              Advances f i (userBytes s.ram (s.proc p).pagetable (addr + a) (n - a)) s v s' v' m)
              (fun _ _ => False) (movedTo s f fs₁ ((s.file f).off + m)) := by
          refine fs_ran_then unlock ?_
          refine endOp_leaves ?_
          rw [outcome_ite]
          refine ⟨fun short => ?_, fun full => ?_⟩
          · refine ⟨m, v₁, inside, ?_, ?_, ?_, ?_, rfl, unlocked'⟩
            · omega
            · rw [userBytes_length]
              omega
            · rw [front]
              exact stores
            · omega
          · obtain rfl : m = n₁ := by omega
            have start : (s.file f).off ≤ (v.node i).size := by omega
            refine outcome_mono (ih (s := movedTo s f (ended fs') ((s.file f).off + m)) unlocked' map mapped
              (by omega) (by omega)) ?_ fun _ _ never => never
            rintro r₂ s₂ ⟨m₂, v₂, most₂, all₂, advances⟩
            have count₂ := advances.count
            have more₂ := advances.extends_
            have moved₂ := advances.moved
            rw [userBytes_length] at count₂
            rw [movedTo_file] at more₂ moved₂
            refine ⟨m + m₂, v₂, most₂, by omega, ?_, ?_, fun _ => start, ?_, advances.unlocked⟩
            · rw [userBytes_length]
              omega
            · rw [split, whole, List.take_append, length, List.take_of_length_le (by omega),
                Nat.add_sub_cancel_left]
              rw [show left = n - (a + m) by omega, Nat.add_assoc]
              rw [List.take_of_length_le (by omega)] at stores
              exact stores.append (by rw [length]; exact more₂) start unlocked.live
            · rw [moved₂, movedTo_movedTo]
              dsimp only [movedTo]
              rw [Nat.add_assoc]
        refine beginOp_next ?_
        rw [outcome_bind]
        refine file_step ?_
        refine fs_ran_then lock ?_
        rw [outcome_bind, outcome_get, outcome_bind]
        refine proc_step ?_
        rw [outcome_bind]
        refine file_step ?_
        refine fs_ran_then write ?_
        rw [outcome_ite]
        refine ⟨fun some => ?_, fun none_ => ?_⟩
        · rw [outcome_bind]
          refine modifyFile_step ?_
          have count : r.toNat = m := by omega
          rw [count, Nat.mod_eq_of_lt small]
          exact finish
        · obtain rfl : m = 0 := by omega
          rw [Nat.add_zero, movedTo_stays] at finish
          exact finish
      · obtain rfl : a = n := by omega
        exact ⟨0, v, Nat.le_refl _, by simp, .nothing unlocked _⟩

/-- The file is one of an inode, open for writing, and nobody has the inode locked. -/
structure Writable (s : State Journal) (f : FileId) : Prop where
  type : (s.file f).type = .inode
  writable : (s.file f).writable = true
  free : (s.fs.inode (s.file f).ip).locked = false

/-- The bytes were written as by one `writei` at the offset of the file, and the offset has moved
behind them. -/
structure WritesOnce (f : FileId) (bytes : List UInt8) (s : State Journal) (v : Volume) (s' : State Journal)
    (v' : Volume) : Prop where
  single : ∃ (r : Int) (fs₁ : Fs.JState) (v₁ : Volume),
    Fs.writei (s.file f).ip (Fs.kernelSource bytes) (s.file f).off bytes.length s.fs = .ok r fs₁ ∧
    (bytes ≠ [] → r = bytes.length) ∧ Ready fs₁ v₁ (s.file f).ip (inumOf s f) ∧
    v'.content (inumOf s f) = v₁.content (inumOf s f) ∧
    (v'.node (inumOf s f)).size = (v₁.node (inumOf s f)).size
  content : v'.content (inumOf s f) = (v.content (inumOf s f)).take (s.file f).off ++ bytes ++
    (v.content (inumOf s f)).drop ((s.file f).off + bytes.length)
  others : ∀ j, j ≠ inumOf s f → v.Live j → v'.content j = v.content j
  moved : s' = movedTo s f s'.fs ((s.file f).off + bytes.length)
  ready : Ready s'.fs v' (s.file f).ip (inumOf s f)

theorem Advances.writes_once {bytes : List UInt8} {m : Nat} (unlocked : Unlocked s v f (inumOf s f))
    (advances : Advances f (inumOf s f) bytes s v s' v' m) : WritesOnce f (bytes.take m) s v s' v' := by
  have length : (bytes.take m).length = m := by
    rw [List.length_take]
    exact Nat.min_eq_left advances.count
  have ready' := advances.unlocked.ready
  rw [advances.moved, movedTo_file] at ready'
  obtain ⟨r, fs₁, v₁, ran, all, ready₁, same⟩ := advances.extends_.one_write unlocked.ready ready'.owned
    unlocked.off fun some => advances.start fun none_ => some (by rw [none_, List.take_zero])
  refine ⟨⟨r, fs₁, v₁, ran, all, ready₁, same.symm, ?_⟩, advances.extends_.content,
    fun j apart live => advances.extends_.others unlocked.ready.owned apart live, ?_, ready'⟩
  · rw [← Volume.content_length, ← Volume.content_length, same]
  · rw [length]
    exact advances.moved

/-- A `write` that returns its count has done what one `writei` of all the bytes does; one that
fails has done what one `writei` of fewer of them does; a negative count changes nothing. -/
theorem filewrite_is_one_write (intact : Intact s v) (opened : Writable s f)
    (map : Vm.UserMap s.ram (s.proc p).pagetable) (addr : Nat) (n device : Int)
    (mapped : ∀ j < n.toNat, Vm.Accessible s.ram (s.proc p).pagetable (addr + j)) :
    ∃ (r : Int) (s' : State Journal) (v' : Volume), filewrite p f addr n device s = .ok (some r) s' ∧
      (n < 0 → r = -1 ∧ s' = s) ∧
      (0 ≤ n →
        r = n ∧ WritesOnce f (userBytes s.ram (s.proc p).pagetable addr n.toNat) s v s' v' ∨
        r = -1 ∧ ∃ k < n.toNat, WritesOnce f (userBytes s.ram (s.proc p).pagetable addr k) s v s' v') := by
  have usable := intact.files f opened.type
  have unlocked : Unlocked s v f (inumOf s f) :=
    ⟨⟨intact.good.rep, intact.good.owned, intact.whole, usable.loaded⟩, opened.free, usable.off⟩
  have returns : outcome (filewrite p f addr n device) (fun result s' => ∃ (r : Int) (v' : Volume),
      result = some r ∧ (n < 0 → r = -1 ∧ s' = s) ∧ (0 ≤ n →
        r = n ∧ WritesOnce f (userBytes s.ram (s.proc p).pagetable addr n.toNat) s v s' v' ∨
        r = -1 ∧ ∃ k < n.toNat, WritesOnce f (userBytes s.ram (s.proc p).pagetable addr k) s v s' v'))
      (fun _ _ => False) s := by
    unfold filewrite
    rw [outcome_bind]
    refine file_step ?_
    rw [opened.writable, if_neg (by simp)]
    simp only [opened.type]
    by_cases negative : n < 0
    · rw [Int.toNat_of_nonpos (by omega), filewriteFrom]
      exact ⟨-1, v, by simp; omega, fun _ => ⟨rfl, rfl⟩, fun positive => by omega⟩
    refine outcome_seq (filewriteFrom_stores unlocked map mapped (a := 0) (by omega) (Nat.zero_le _)) ?_
    rintro r s' ⟨m, v', most, all, advances⟩
    have count := advances.count
    have writes := advances.writes_once unlocked
    have slice := userBytes_slice s.ram (s.proc p).pagetable addr (a := 0) (m := m) (n := n.toNat) (by
      rw [userBytes_length] at count
      omega)
    rw [List.drop_zero, Nat.add_zero] at slice
    rw [Nat.add_zero, Nat.sub_zero] at writes count
    rw [slice] at writes
    rw [userBytes_length] at count
    refine ⟨if (r : Int) = n then n else -1, v', rfl, fun below => absurd below negative, fun _ => ?_⟩
    by_cases done : (r : Int) = n
    · obtain rfl : m = n.toNat := by omega
      exact .inl ⟨if_pos done, writes⟩
    · exact .inr ⟨if_neg done, m, by omega, writes⟩
  obtain ⟨_, s', ran, r, v', rfl, result⟩ := outcome_ok returns
  exact ⟨r, s', v', ran, result⟩

/-- A new file, opened for writing by a process of one page. -/
theorem created_opened : ∃ (s : State Journal) (v : Volume) (f : FileId), Intact s v ∧ Writable s f ∧
    s.ram = Vm.onePage ∧ (s.proc initproc).pagetable = 1 := by
  obtain ⟨booted, final, boot, ran, test⟩ := runsTo_run (imaged tinyDisk)
    [(initproc, .open (some [97]) 0x201)]
    (fun final => decide ((final.file ⟨0, by decide⟩).type = .inode ∧
      (final.file ⟨0, by decide⟩).writable = true ∧
      (final.fs.inode (final.file ⟨0, by decide⟩).ip).locked = false)) (by decide +kernel)
  obtain ⟨kind, writable, free⟩ := of_decide_eq_true test
  obtain ⟨-, v, intact⟩ := run_intact tiny_fresh boot ran
  exact ⟨{ final with ram := Vm.onePage, proc := fun p => { final.proc p with pagetable := 1 } }, v,
    ⟨0, by decide⟩, intact.congr rfl fun f kind => ⟨kind, rfl, (intact.files f kind).off, id⟩,
    ⟨kind, writable, free⟩, rfl, rfl⟩

/-- A whole page is written to it. -/
theorem page_is_one_write : ∃ (s : State Journal) (v : Volume) (f : FileId),
    ∃ (r : Int) (s' : State Journal) (v' : Volume), filewrite initproc f 0 4096 0 s = .ok (some r) s' ∧
      (r = 4096 ∧ WritesOnce f (userBytes s.ram 1 0 4096) s v s' v' ∨
        r = -1 ∧ ∃ k < 4096, WritesOnce f (userBytes s.ram 1 0 k) s v s' v') := by
  obtain ⟨s, v, f, intact, opened, ram, table⟩ := created_opened
  have map : Vm.UserMap s.ram (s.proc initproc).pagetable := by
    rw [ram, table]
    exact Vm.onePage_map
  obtain ⟨r, s', v', ran, -, done⟩ := filewrite_is_one_write intact opened map 0 4096 0 fun j below => by
    rw [ram, table, Nat.zero_add]
    exact onePage_accessible (show j < PGSIZE from below)
  rw [table] at done
  exact ⟨s, v, f, r, s', v', ran, done (by decide)⟩

end Filewrite

end PaddleOs.Kernel
