import PaddleOs.FileContents
import PaddleOs.KernelImages
import PaddleOs.UserCopies

/-!
`read` of a file into the memory of a process. The count is an `int` for the process and a
`uint` for `readi`, which reads what is left of the file up to that many bytes; a negative
count is a large one there, unless the sum with the offset wraps around.
-/

namespace PaddleOs.Fs

open Foundation.Outcome

variable {s : JState} {v : Volume} {k : Slot} {i : Nat}

/-- How many bytes `readi` is willing to read. -/
def readable (size off n : Nat) : Nat :=
  if off > size ∨ (off + n) % 2 ^ 32 < off then 0
  else if (off + n) % 2 ^ 32 > size then size - off
  else n

theorem readable_le {size off n : Nat} (offset : off < 2 ^ 32) (count : n < 2 ^ 32) :
    readable size off n ≤ n ∧ readable size off n ≤ size - off := by
  unfold readable
  split
  · omega
  · split <;> omega

/-- `readi` always returns, and hands out a slice of the file. -/
theorem readi_hands (rep : Represents clean s v) (owned : v.Owned) (loaded : Loaded s k i)
    (whole : v.Whole i) (accepts : Nat → Nat → Bool) {off n : Nat} (offset : off < 2 ^ 32)
    (count : n < 2 ^ 32) : ∃ r, readi k accepts off n s = .ok r s ∧
      Copies accepts (readable (v.node i).size off n) 0 (v.bytes i off) r := by
  have size : (s.inode k).size = (v.node i).size := by rw [rep.copy k i loaded]
  obtain ⟨r, s', ran, rfl⟩ := outcome_ok (read_spec rep owned loaded whole accepts off count)
  refine ⟨r, ran, ?_⟩
  by_cases small : off + n < 2 ^ 32
  · have copies := (outcome_of_ok (readi_copies rep owned loaded whole accepts off n small) ran).2
    have width : readable (v.node i).size off n = min n ((v.node i).size - off) := by
      unfold readable
      rw [Nat.mod_eq_of_lt small]
      split
      · omega
      · split <;> omega
    rwa [width]
  · have wraps : (off + n) % 2 ^ 32 < off := by omega
    have none_ : readable (v.node i).size off n = 0 := by
      unfold readable
      rw [if_pos (.inr wraps)]
    have nothing : outcome (readi k accepts off n) (fun r _ => r = (0, [])) (fun _ _ => False) s' := by
      unfold readi
      rw [outcome_bind]
      refine inode_step ?_
      rw [if_pos (.inr wraps)]
      rfl
    obtain rfl := outcome_of_ok nothing ran
    rw [none_]
    exact .all fun j _ high => by omega

/-- A copy of a range that is accepted when every byte of it is `good`. -/
theorem Copies.delivered {accepts : Nat → Nat → Bool} {n : Nat} {slice : Nat → List UInt8}
    {r : Int × List UInt8} {good : Nat → Prop} (copies : Copies accepts n 0 slice r)
    (yes : (∀ j < n, ∃ t m, t ≤ j ∧ j < t + m ∧ accepts t m = true) → ∀ j < n, good j)
    (no : ∀ t m, 0 < m → accepts t m = false → ∃ j, t ≤ j ∧ j < t + m ∧ ¬ good j) :
    (∀ j < n, good j) ∧ r = (asInt n, slice n) ∨
      ∃ t e, t < e ∧ e ≤ n ∧ ¬ good t ∧ r = (-1, slice e) := by
  cases copies with
  | all sure => exact .inl ⟨yes fun j below => sure j (Nat.zero_le j) below, rfl⟩
  | @refused t m here some inside refusal =>
      obtain ⟨j, low, high, bad⟩ := no t m some refusal
      exact .inr ⟨j, t + m, high, inside, bad, rfl⟩

/-- A lock that is taken and given back. -/
theorem relocked (free : (s.inode k).locked = false) :
    (s.setInode k { s.inode k with locked := true }).setInode k { s.inode k with locked := false } = s := by
  have same : { s.inode k with locked := false } = s.inode k := by rw [← free]
  unfold State.setInode
  rw [Function.update_idem, same, Function.update_eq_self]

end PaddleOs.Fs

namespace PaddleOs.Vm

open Foundation.Outcome

variable {ram : Ram} {r : Nat}

theorem accessible_low {va : Nat} (mapped : Accessible ram r va) : va < MAXVA := by
  obtain ⟨pte, found, -⟩ := mapped
  by_contra high
  unfold lookup at found
  rw [if_pos (by omega)] at found
  cases found

/-- What `copyout` leaves: the bytes it got to are written, the others are untouched. -/
theorem copyout_writes (map : UserMap ram r) (va : Nat) (src : List UInt8) : ∃ ok after,
    copyout r va src ram = .ok ok after ∧ after = { ram with byte := after.byte } ∧
    (ok = true ↔ ∀ i < src.length, Accessible ram r (va + i)) ∧
    (∀ i (bound : i < src.length), (∀ j ≤ i, Accessible ram r (va + j)) →
      userByte after r (va + i) = src[i]) ∧
    ∀ page offset, after.byte page offset ≠ ram.byte page offset →
      ∃ i < src.length, (∀ j ≤ i, Accessible ram r (va + j)) ∧
        page = target ram r (va + i) ∧ offset = (va + i) % PGSIZE := by
  obtain ⟨ok, after, ran, done, exact⟩ := outcome_ok (outcome_mono (outcome_and
    (copyoutFrom_spec (r := r) src.length ram va src (Nat.le_refl _))
    (copyoutFrom_exact map.singly src.length ram va src rfl (Nat.le_refl _)))
    (fun _ _ both => both) fun _ _ failed => failed.1)
  refine ⟨ok, after, ran, done.same, ?_, fun i bound mapped => ?_, fun page offset changed => ?_⟩
  · rw [done.all]
    exact forall₂_congr fun i _ => (map.accessible (va + i)).symm
  · exact exact i bound fun j upto => (map.accessible (va + j)).mp (mapped j upto)
  · obtain ⟨i, below, reached, place, place'⟩ := done.change page offset changed
    exact ⟨i, below, fun j upto => (map.accessible (va + j)).mpr (reached j upto), place.symm, place'.symm⟩

end PaddleOs.Vm

namespace PaddleOs.Kernel

open Foundation.Outcome
open Fs (Slot Loaded readable asInt)

section Ran

variable {W α β : Type} {s : State W} {value : α} {post : β → State W → Prop} {fail : Halt → State W → Prop}

theorem fs_ran_then {run : Fs.FsM W α} {next : α → KernelM W β} {fs' : Fs.State W}
    (ran : run s.fs = .ok value fs') (rest : outcome (next value) post fail { s with fs := fs' }) :
    outcome (fs run >>= next) post fail s := by
  rw [outcome_bind]
  unfold fs
  rw [outcome_zoom]
  unfold outcome
  rw [ran]
  exact rest

theorem vm_ran_then {run : Vm.VmM α} {next : α → KernelM W β} {ram : Vm.Ram}
    (ran : run s.ram = .ok value ram) (rest : outcome (next value) post fail { s with ram }) :
    outcome (vm run >>= next) post fail s := by
  rw [outcome_bind]
  unfold vm
  rw [outcome_zoom]
  unfold outcome
  rw [ran]
  exact rest

end Ran

section Reads

variable {W : Type} {ram : Vm.Ram} {r : Nat}

theorem userAccepts_iff (map : Vm.UserMap ram r) (addr t m : Nat) :
    userAccepts ram r addr t m = true ↔ ∀ j < m, Vm.Accessible ram r (word64 (addr + t) + j) := by
  obtain ⟨ok, after, ran, -, all, -⟩ := Vm.copyout_writes map (word64 (addr + t)) (List.replicate m 0)
  unfold userAccepts
  rw [ran]
  simpa using all

/-- A copy to the user of a range of bytes, in the terms of its addresses. -/
theorem user_delivered (map : Vm.UserMap ram r) {addr n : Nat} (address : addr < 2 ^ 64)
    {slice : Nat → List UInt8} {got : Int × List UInt8}
    (copies : Fs.Copies (userAccepts ram r addr) n 0 slice got) :
    (∀ j < n, Vm.Accessible ram r (addr + j)) ∧ got = (asInt n, slice n) ∨
      ∃ t e, t < e ∧ e ≤ n ∧ ¬ Vm.Accessible ram r (addr + t) ∧ got = (-1, slice e) := by
  have top : MAXVA < 2 ^ 64 := by decide
  -- A chunk whose address has not wrapped around is accepted byte by byte.
  have chunk : ∀ t m j, addr + t < 2 ^ 64 → t ≤ j → j < t + m → userAccepts ram r addr t m = true →
      Vm.Accessible ram r (addr + j) := by
    intro t m j low here inside yes
    have mapped := (userAccepts_iff map addr t m).mp yes (j - t) (by omega)
    unfold word64 at mapped
    rwa [Nat.mod_eq_of_lt low, show addr + t + (j - t) = addr + j by omega] at mapped
  refine copies.delivered (fun accepted j below => ?_) fun t m some no => ?_
  · obtain ⟨t, m, here, inside, yes⟩ := accepted j below
    by_cases low : addr + t < 2 ^ 64
    · exact chunk t m j low here inside yes
    · obtain ⟨t', m', here', inside', yes'⟩ := accepted (MAXVA - addr) (by omega)
      have mapped := chunk t' m' _ (by omega) here' inside' yes'
      have bound := Vm.accessible_low mapped
      omega
  · by_cases low : addr + t < 2 ^ 64
    · by_contra all
      have yes : userAccepts ram r addr t m = true := by
        refine (userAccepts_iff map addr t m).mpr fun j below => ?_
        unfold word64
        rw [Nat.mod_eq_of_lt low, Nat.add_assoc]
        by_contra bad
        exact all ⟨t + j, by omega, by omega, bad⟩
      rw [yes] at no
      cases no
    · refine ⟨t, Nat.le_refl t, by omega, fun mapped => ?_⟩
      have bound := Vm.accessible_low mapped
      omega

/-- The file is one of an inode, open for reading, and nobody has the inode locked. -/
structure Readable (s : State W) (f : FileId) : Prop where
  type : (s.file f).type = .inode
  readable : (s.file f).readable = true
  free : (s.fs.inode (s.file f).ip).locked = false

/-- The number of the inode behind the file. -/
def inumOf (s : State W) (f : FileId) : Nat := (s.fs.inode (s.file f).ip).inum

/-- How many bytes of the file `readi` is asked for in the end. -/
def wanted (v : Volume) (s : State W) (f : FileId) (n : Int) : Nat :=
  readable (v.node (inumOf s f)).size (s.file f).off (asUint n)

/-- The state after a `read` that answers `r` and leaves the memory `after`. -/
def readTo (s : State W) (f : FileId) (r : Int) (after : Vm.Ram) : State W :=
  { s with
    ram := after
    file := if r > 0 then
        Function.update s.file f { s.file f with off := ((s.file f).off + r.toNat) % 2 ^ 32 }
      else s.file }

/-- What a read of `want` bytes does: each byte that can be reached from `addr` on is the one of
the file, and nothing else is written. -/
structure Fetched (v : Volume) (s : State W) (p : Pid) (f : FileId) (addr want : Nat) (r : Int)
    (after : Vm.Ram) : Prop where
  same : after = { s.ram with byte := after.byte }
  answer : r = want ∧ (∀ j < want, Vm.Accessible s.ram (s.proc p).pagetable (addr + j)) ∨
    r = -1 ∧ ∃ j < want, ¬ Vm.Accessible s.ram (s.proc p).pagetable (addr + j)
  stored : ∀ j < want, (∀ l ≤ j, Vm.Accessible s.ram (s.proc p).pagetable (addr + l)) →
    Vm.userByte after (s.proc p).pagetable (addr + j) = v.byte (inumOf s f) ((s.file f).off + j)
  changed : ∀ page offset, after.byte page offset ≠ s.ram.byte page offset → ∃ j < want,
    (∀ l ≤ j, Vm.Accessible s.ram (s.proc p).pagetable (addr + l)) ∧
    page = Vm.target s.ram (s.proc p).pagetable (addr + j) ∧ offset = (addr + j) % PGSIZE

end Reads

section Fileread

variable {s : State Journal} {v : Volume} {p : Pid} {f : FileId} {addr : Nat}

theorem bytes_getElem (v : Volume) (i off e : Nat) {j : Nat} (bound : j < (v.bytes i off e).length) :
    (v.bytes i off e)[j] = v.byte i (off + j) := by
  simp [Volume.bytes]

theorem bytes_length (v : Volume) (i off e : Nat) : (v.bytes i off e).length = e := by
  simp [Volume.bytes]

/-- `fileread` returns, and this is what it has done. -/
theorem fileread_fetches (intact : Intact s v) (opened : Readable s f)
    (map : Vm.UserMap s.ram (s.proc p).pagetable) (address : addr < 2 ^ 64) (n device : Int) :
    ∃ r after, fileread p f addr n device s = .ok (some r) (readTo s f r after) ∧
      Fetched v s p f addr (wanted v s f n) r after := by
  have usable := intact.files f opened.type
  have loaded := usable.loaded
  have whole := intact.whole _ (loaded.live intact.good.rep)
  have small : wanted v s f n ≤ MAXFILE * BSIZE := by
    have least : Fs.readable (v.node (inumOf s f)).size (s.file f).off (asUint n) ≤
        (v.node (inumOf s f)).size - (s.file f).off := (Fs.readable_le usable.off (asUint_lt n)).2
    have limit := Fs.Whole.limit whole
    unfold wanted inumOf at *
    omega
  -- The lock changes nothing that `readi` looks at.
  let locked := s.fs.setInode (s.file f).ip { s.fs.inode (s.file f).ip with locked := true }
  have rep : Fs.Represents Fs.clean locked v :=
    intact.good.rep.touch usable.used (by have := usable.used; dsimp only; omega) rfl rfl rfl rfl fun _ => id
  have loaded' : Loaded locked (s.file f).ip (inumOf s f) := by
    unfold Loaded
    rw [Fs.setInode_same]
    exact loaded
  have lock := Fs.ilock_valid usable.used opened.free usable.valid
  have unlock : Fs.iunlock (s.file f).ip locked = .ok () s.fs := by
    have ran := Fs.iunlock_locked (k := (s.file f).ip) (s := locked) loaded'.1 (by rw [Fs.setInode_same])
    rw [Fs.setInode_same] at ran
    rw [ran]
    exact congrArg _ (Fs.relocked opened.free)
  obtain ⟨⟨r, bytes⟩, read, copies⟩ := Fs.readi_hands rep intact.good.owned loaded' whole
    (userAccepts s.ram (s.proc p).pagetable addr) usable.off (asUint_lt n)
  obtain ⟨ok, after, copied, same, -, stored, changed⟩ := Vm.copyout_writes map addr bytes
  have returns : outcome (fileread p f addr n device) (fun result s' => result = some r ∧
      s' = readTo s f r after) (fun _ _ => False) s := by
    unfold fileread
    rw [outcome_bind]
    refine file_step ?_
    rw [opened.readable, if_neg (by simp)]
    simp only [opened.type]
    refine fs_ran_then lock ?_
    rw [outcome_bind]
    refine proc_step ?_
    rw [outcome_bind, outcome_get]
    refine fs_ran_then read (vm_ran_then copied ?_)
    unfold readTo
    by_cases more : r > 0
    · rw [if_pos more, if_pos more, outcome_bind]
      exact modifyFile_step (fs_ran_then unlock ⟨rfl, rfl⟩)
    · rw [if_neg more, if_neg more]
      exact fs_ran_then unlock ⟨rfl, rfl⟩
  obtain ⟨_, _, ran, rfl, rfl⟩ := outcome_ok returns
  -- The bytes handed out reach as far as the process can be written to.
  obtain ⟨e, most, rfl, reached, answer⟩ : ∃ e ≤ wanted v s f n,
      bytes = v.bytes (inumOf s f) (s.file f).off e ∧
      (∀ j < wanted v s f n, (∀ l ≤ j, Vm.Accessible s.ram (s.proc p).pagetable (addr + l)) → j < e) ∧
      (r = wanted v s f n ∧ (∀ j < wanted v s f n, Vm.Accessible s.ram (s.proc p).pagetable (addr + j)) ∨
        r = -1 ∧ ∃ j < wanted v s f n, ¬ Vm.Accessible s.ram (s.proc p).pagetable (addr + j)) := by
    rcases user_delivered map address copies with ⟨sure, all⟩ | ⟨t, e, before, most, bad, part⟩
    · obtain ⟨rfl, rfl⟩ := Prod.mk.inj all
      exact ⟨_, Nat.le_refl _, rfl, fun j below _ => below, .inl ⟨Fs.asInt_small small, sure⟩⟩
    · obtain ⟨rfl, rfl⟩ := Prod.mk.inj part
      refine ⟨e, most, rfl, fun j _ mapped => ?_, .inr ⟨rfl, t, Nat.lt_of_lt_of_le before most, bad⟩⟩
      by_contra beyond
      exact bad (mapped t (by omega))
  refine ⟨r, after, ran, same, answer, fun j below mapped => ?_, fun page offset different => ?_⟩
  · have inside : j < (v.bytes (inumOf s f) (s.file f).off e).length := by
      rw [bytes_length]
      exact reached j below mapped
    rw [stored j inside mapped, bytes_getElem]
  · obtain ⟨j, below, mapped, place⟩ := changed page offset different
    rw [bytes_length] at below
    exact ⟨j, by omega, mapped, place⟩

/-- No more is delivered than was asked for. -/
structure Asked (p : Pid) (f : FileId) (addr : Nat) (n : Int) (result : Option Int)
    (s s' : State Journal) : Prop where
  answer : result = some (-1) ∨ ∃ r, result = some r ∧ 0 ≤ r ∧ r ≤ max n 0
  memory : ∀ page offset, s'.ram.byte page offset ≠ s.ram.byte page offset → ∃ j : Nat, (j : Int) < n ∧
    page = Vm.target s.ram (s.proc p).pagetable (addr + j) ∧ offset = (addr + j) % PGSIZE
  offset : ∀ r, result = some r → ((s'.file f).off : Int) = (s.file f).off + max r 0

def ReadsAsAsked (p : Pid) (f : FileId) (addr : Nat) (n : Int32) (device : Int) (s : State Journal) : Prop :=
  outcome (fileread p f addr n.toInt device) (fun result s' => Asked p f addr n.toInt result s s')
    (fun _ _ => False) s

/-- The count is not negative, or `readi` refuses it, or there is nothing left to read, or what
gets to the process before a copy fails is what it has there already. -/
def Harmless (v : Volume) (p : Pid) (f : FileId) (addr : Nat) (n : Int32) (s : State Journal) : Prop :=
  let left := (v.node (inumOf s f)).size - (s.file f).off
  0 ≤ n.toInt ∨ (s.file f).readable = false ∨ 0 ≤ (s.file f).off + n.toInt ∨ left = 0 ∨
    (∃ j < left, ¬ Vm.Accessible s.ram (s.proc p).pagetable (addr + j)) ∧
    ∀ j < left, (∀ l ≤ j, Vm.Accessible s.ram (s.proc p).pagetable (addr + l)) →
      Vm.userByte s.ram (s.proc p).pagetable (addr + j) = v.byte (inumOf s f) ((s.file f).off + j)

/-- A negative count is the rest of the file, when the sum with the offset does not wrap. -/
theorem wanted_negative (intact : Intact s v) (kind : (s.file f).type = .inode) {n : Int32}
    (negative : n.toInt < 0) :
    wanted v s f n.toInt =
      if 0 ≤ (s.file f).off + n.toInt then 0 else (v.node (inumOf s f)).size - (s.file f).off := by
  have usable := intact.files f kind
  have limit := Fs.Whole.limit (intact.whole _ (usable.loaded.live intact.good.rep))
  have bound : MAXFILE * BSIZE < 2 ^ 31 := by decide
  have least := n.le_toInt
  have offset := usable.off
  have count : (asUint n.toInt : Int) = 2 ^ 32 + n.toInt := by
    unfold asUint
    omega
  change (v.node (inumOf s f)).size ≤ MAXFILE * BSIZE at limit
  unfold wanted readable
  generalize asUint n.toInt = u at count ⊢
  by_cases wraps : 0 ≤ (s.file f).off + n.toInt
  · rw [if_pos wraps, if_pos (.inr (by omega))]
  · rw [if_neg wraps, Nat.mod_eq_of_lt (by omega)]
    split
    · omega
    · rw [if_pos (by omega)]

theorem wanted_positive (intact : Intact s v) (kind : (s.file f).type = .inode) {n : Int32}
    (positive : 0 ≤ n.toInt) : (wanted v s f n.toInt : Int) ≤ n.toInt := by
  have least : Fs.readable (v.node (inumOf s f)).size (s.file f).off (asUint n.toInt) ≤ asUint n.toInt :=
    (Fs.readable_le (intact.files f kind).off (asUint_lt n.toInt)).1
  have most := n.toInt_lt
  have count : (asUint n.toInt : Int) = n.toInt := by
    unfold asUint
    omega
  unfold wanted
  omega

theorem wanted_offset (intact : Intact s v) (kind : (s.file f).type = .inode) (n : Int) :
    wanted v s f n = 0 ∨ (s.file f).off + wanted v s f n < 2 ^ 32 := by
  have usable := intact.files f kind
  have limit := Fs.Whole.limit (intact.whole _ (usable.loaded.live intact.good.rep))
  have bound : MAXFILE * BSIZE < 2 ^ 31 := by decide
  have least : Fs.readable (v.node (inumOf s f)).size (s.file f).off (asUint n) ≤
      (v.node (inumOf s f)).size - (s.file f).off := (Fs.readable_le usable.off (asUint_lt n)).2
  change (v.node (inumOf s f)).size ≤ MAXFILE * BSIZE at limit
  unfold wanted
  omega

theorem readTo_off (r : Int) (after : Vm.Ram) (fits : r > 0 → (s.file f).off + r.toNat < 2 ^ 32) :
    (((readTo s f r after).file f).off : Int) = (s.file f).off + max r 0 := by
  unfold readTo
  by_cases more : r > 0
  · dsimp only
    rw [if_pos more, Function.update_self]
    dsimp only
    rw [Nat.mod_eq_of_lt (fits more)]
    omega
  · dsimp only
    rw [if_neg more]
    omega

/-- A read that stays within the count and the file, or that fails and writes nothing new. -/
theorem Fetched.asked {n r : Int} {after : Vm.Ram} {want : Nat} (fetched : Fetched v s p f addr want r after)
    (fits : want = 0 ∨ (s.file f).off + want < 2 ^ 32)
    (answer : r = -1 ∨ (want : Int) ≤ max n 0)
    (silent : (want : Int) ≤ max n 0 ∨ ∀ page offset, after.byte page offset = s.ram.byte page offset) :
    Asked p f addr n (some r) s (readTo s f r after) where
  answer := by
    rcases fetched.answer with ⟨rfl, -⟩ | ⟨rfl, -⟩
    · rcases answer with failed | few
      · omega
      · exact .inr ⟨_, rfl, Int.natCast_nonneg _, few⟩
    · exact .inl rfl
  memory page offset different := by
    rcases silent with few | same
    · obtain ⟨j, below, -, place⟩ := fetched.changed page offset different
      exact ⟨j, by omega, place⟩
    · exact absurd (same page offset) different
  offset got same := by
    obtain rfl := Option.some.inj same
    refine readTo_off _ _ fun more => ?_
    rcases fetched.answer with ⟨rfl, -⟩ | ⟨rfl, -⟩
    · omega
    · omega

/-- What is stored before the copy fails is what was there. -/
theorem Fetched.silent {want : Nat} {r : Int} {after : Vm.Ram} (fetched : Fetched v s p f addr want r after)
    (same : ∀ j < want, (∀ l ≤ j, Vm.Accessible s.ram (s.proc p).pagetable (addr + l)) →
      Vm.userByte s.ram (s.proc p).pagetable (addr + j) = v.byte (inumOf s f) ((s.file f).off + j))
    (page offset : Nat) : after.byte page offset = s.ram.byte page offset := by
  by_contra different
  obtain ⟨j, below, mapped, rfl, rfl⟩ := fetched.changed page offset different
  have stored := fetched.stored j below mapped
  rw [← same j below mapped] at stored
  have entries : after.pte = s.ram.pte := by rw [fetched.same]
  unfold Vm.userByte at stored
  rw [Vm.target_congr entries] at stored
  exact different stored

/-- A negative count with which the rest of the file gets to the process. -/
theorem reads_too_much (intact : Intact s v) (opened : Readable s f)
    (map : Vm.UserMap s.ram (s.proc p).pagetable) (address : addr < 2 ^ 64) {n : Int32} (device : Int)
    (unbounded : ¬ Harmless v p f addr n s) : ¬ ReadsAsAsked p f addr n device s := by
  intro asked
  obtain ⟨r, after, ran, fetched⟩ := fileread_fetches intact opened map address n.toInt device
  have kept := outcome_of_ok asked ran
  unfold Harmless at unbounded
  dsimp only at unbounded
  push Not at unbounded
  obtain ⟨negative, -, small, rest, seen⟩ := unbounded
  rw [wanted_negative intact opened.type negative, if_neg (by omega)] at fetched
  rcases fetched.answer with ⟨rfl, -⟩ | ⟨-, bad⟩
  · rcases kept.answer with failed | ⟨r, same, -, most⟩
    · have := Option.some.inj failed
      omega
    · have := Option.some.inj same
      omega
  · obtain ⟨j, below, mapped, differs⟩ := seen bad
    have stored := fetched.stored j below mapped
    have changed : after.byte (Vm.target s.ram (s.proc p).pagetable (addr + j)) ((addr + j) % PGSIZE) ≠
        s.ram.byte (Vm.target s.ram (s.proc p).pagetable (addr + j)) ((addr + j) % PGSIZE) := by
      have entries : after.pte = s.ram.pte := by rw [fetched.same]
      unfold Vm.userByte at stored differs
      rw [Vm.target_congr entries] at stored
      rw [stored]
      exact differs.symm
    obtain ⟨l, few, -⟩ := kept.memory _ _ changed
    omega

/-- `read` of a file delivers no more than was asked for exactly when the count is not negative,
or the negative count does no harm. -/
theorem fileread_as_asked_iff (intact : Intact s v) (kind : (s.file f).type = .inode)
    (free : (s.fs.inode (s.file f).ip).locked = false) (map : Vm.UserMap s.ram (s.proc p).pagetable)
    (address : addr < 2 ^ 64) (n : Int32) (device : Int) :
    ReadsAsAsked p f addr n device s ↔ Harmless v p f addr n s := by
  constructor
  · intro asked
    by_contra unbounded
    have readable : (s.file f).readable = true := by
      by_contra closed
      exact unbounded (.inr (.inl (by simpa using closed)))
    exact reads_too_much intact ⟨kind, readable, free⟩ map address device unbounded asked
  · intro harmless
    by_cases readable : (s.file f).readable = true
    · obtain ⟨r, after, ran, fetched⟩ :=
        @fileread_fetches _ _ p _ addr intact ⟨kind, readable, free⟩ map address n.toInt device
      have fits := wanted_offset intact kind n.toInt
      suffices kept : Asked p f addr n.toInt (some r) s (readTo s f r after) by
        unfold ReadsAsAsked outcome
        rw [ran]
        exact kept
      have few : ∀ want : Nat, wanted v s f n.toInt = want → (want : Int) ≤ max n.toInt 0 →
          Asked p f addr n.toInt (some r) s (readTo s f r after) := by
        rintro _ rfl bound
        exact fetched.asked fits (.inr bound) (.inl bound)
      by_cases positive : 0 ≤ n.toInt
      · have bound := wanted_positive intact kind positive
        exact few _ rfl (by omega)
      · have want := wanted_negative intact kind (n := n) (by omega)
        rcases harmless with count | closed | wraps | past | ⟨bad, same⟩
        · omega
        · rw [closed] at readable
          cases readable
        · rw [if_pos wraps] at want
          exact few 0 want (by omega)
        · refine few 0 ?_ (by omega)
          rw [want]
          split
          · rfl
          · exact past
        · by_cases wraps : 0 ≤ (s.file f).off + n.toInt
          · rw [if_pos wraps] at want
            exact few 0 want (by omega)
          · rw [if_neg wraps] at want
            rw [want] at fetched fits
            refine fetched.asked fits (.inl ?_) (.inr (fetched.silent same))
            rcases fetched.answer with ⟨-, sure⟩ | ⟨failed, -⟩
            · obtain ⟨j, below, missing⟩ := bad
              exact absurd (sure j below) missing
            · exact failed
    · have closed : (s.file f).readable = false := by simpa using readable
      unfold ReadsAsAsked fileread
      rw [outcome_bind]
      refine file_step ?_
      rw [closed, if_pos (by simp)]
      exact ⟨.inl rfl, fun _ _ different => absurd rfl different, fun r same => by
        obtain rfl := Option.some.inj same
        omega⟩

/-- The root directory, opened by a process of one page. -/
theorem root_opened : ∃ (s : State Journal) (v : Volume) (f : FileId), Intact s v ∧
    (s.file f).type = .inode ∧ (s.file f).readable = true ∧ (s.file f).off = 0 ∧
    (s.fs.inode (s.file f).ip).locked = false ∧ 0 < (v.node (inumOf s f)).size ∧
    (v.node (inumOf s f)).size < PGSIZE ∧ s.ram = Vm.onePage ∧ (s.proc initproc).pagetable = 1 := by
  obtain ⟨booted, final, boot, ran, test⟩ := runsTo_run (imaged tinyDisk)
    [(initproc, .mkdir (some [97])), (initproc, .open (some [47]) 0)]
    (fun final => decide ((final.file ⟨0, by decide⟩).type = .inode ∧
      (final.file ⟨0, by decide⟩).readable = true ∧ (final.file ⟨0, by decide⟩).off = 0 ∧
      (final.fs.inode (final.file ⟨0, by decide⟩).ip).locked = false ∧
      0 < (final.fs.inode (final.file ⟨0, by decide⟩).ip).size ∧
      (final.fs.inode (final.file ⟨0, by decide⟩).ip).size < PGSIZE)) (by decide +kernel)
  obtain ⟨kind, readable, start, free, some, small⟩ := of_decide_eq_true test
  obtain ⟨-, v, intact⟩ := run_intact tiny_fresh boot ran
  have usable := intact.files _ kind
  have size := congrArg Dinode.size (intact.good.rep.copy _ _ usable.loaded)
  refine ⟨{ final with ram := Vm.onePage, proc := fun p => { final.proc p with pagetable := 1 } }, v,
    ⟨0, by decide⟩, intact.congr rfl fun f kind => ⟨kind, rfl, (intact.files f kind).off, id⟩, kind, readable,
    start, free, ?_, ?_, rfl, rfl⟩
  · exact size ▸ some
  · exact size ▸ small

theorem onePage_accessible {j : Nat} (below : j < PGSIZE) : Vm.Accessible Vm.onePage 1 j := by
  refine ⟨{ ppn := 9, v := true, perm := Vm.userPerm true false }, ?_, rfl, rfl⟩
  have first : j / PGSIZE = 0 / PGSIZE := by rw [Nat.div_eq_of_lt below, Nat.zero_div]
  rw [Vm.lookup_page first]
  rfl

/-- Asked for ten bytes, it delivers ten at most. -/
theorem fileread_as_asked_root : ∃ (s : State Journal) (v : Volume) (f : FileId),
    Harmless v initproc f 0 10 s ∧ ReadsAsAsked initproc f 0 10 0 s := by
  obtain ⟨s, v, f, intact, kind, -, -, free, -, -, ram, table⟩ := root_opened
  have map : Vm.UserMap s.ram (s.proc initproc).pagetable := by
    rw [ram, table]
    exact Vm.onePage_map
  have harmless : Harmless v initproc f 0 10 s := .inl (by decide)
  exact ⟨s, v, f, harmless, (fileread_as_asked_iff intact kind free map (by decide) 10 0).mpr harmless⟩

/-- Asked for minus one byte, it delivers the whole directory. -/
theorem fileread_negative : ∃ (s : State Journal) (v : Volume) (f : FileId), Intact s v ∧
    (s.file f).type = .inode ∧ Vm.UserMap s.ram (s.proc initproc).pagetable ∧
    ¬ ReadsAsAsked initproc f 0 (-1) 0 s := by
  obtain ⟨s, v, f, intact, kind, readable, start, free, some, small, ram, table⟩ := root_opened
  have map : Vm.UserMap s.ram (s.proc initproc).pagetable := by
    rw [ram, table]
    exact Vm.onePage_map
  refine ⟨s, v, f, intact, kind, map, reads_too_much intact ⟨kind, readable, free⟩ map (by decide) 0 ?_⟩
  rintro (count | closed | wraps | past | ⟨⟨j, below, bad⟩, -⟩)
  · exact absurd count (by decide)
  · rw [closed] at readable
    cases readable
  · rw [start] at wraps
    exact absurd wraps (by decide)
  · omega
  · refine bad ?_
    rw [ram, table, Nat.zero_add]
    exact onePage_accessible (by omega)

end Fileread

end PaddleOs.Kernel
