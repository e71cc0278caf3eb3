import PaddleOs.Params
import PaddleOs.Foundation.Outcome

/-!
The buffer cache of `kernel/bio.c` over the disk of `kernel/virtio_disk.c`.
`bcache.buf` is the array `buf`; the doubly linked list through `bcache.head`
is the list `lru`, read from `head.next` to `head.prev`, and a `struct buf *`
is an index of the array. The disk keeps every content it has had, so that a
crash between two `bwrite` calls is a choice among `Disk.contents`.
-/

namespace PaddleOs

structure Buf where
  dev : Nat
  blockno : Nat
  valid : Bool
  locked : Bool
  refcnt : Nat
  data : Block

structure Disk where
  now : Nat → Block
  past : List (Nat → Block)

/-- Every content of the disk, oldest first, the present one last. -/
def Disk.contents (disk : Disk) : List (Nat → Block) := disk.past ++ [disk.now]

def Disk.write (disk : Disk) (blockno : Nat) (data : Block) : Disk :=
  { now := Function.update disk.now blockno data
    past := disk.past ++ [disk.now] }

/-- `struct logheader`; `block` is the array, used below `n` only. -/
structure LogHeader where
  n : Int
  block : Nat → Nat

/-- `struct log` without its spin-lock. -/
structure Log where
  start : Nat
  size : Int
  outstanding : Int
  committing : Bool
  dev : Nat
  lh : LogHeader

structure Store where
  buf : Fin NBUF → Buf
  lru : List (Fin NBUF)
  disk : Disk
  log : Log

abbrev StoreM := EStateM Stop Store

def Store.setBuf (s : Store) (b : Fin NBUF) (value : Buf) : Store :=
  { s with buf := Function.update s.buf b value }

/-- `acquiresleep`: with nobody left to call `releasesleep` the caller stays asleep. -/
def acquiresleep (b : Fin NBUF) : StoreM Unit := do
  let s ← get
  if (s.buf b).locked then throw .asleep
  set (s.setBuf b { s.buf b with locked := true })

/-- `virtio_disk_rw(b, write)` including the wait for the completion interrupt. -/
def virtioDiskRw (b : Fin NBUF) (write : Bool) : StoreM Unit :=
  modify fun s =>
    if write then { s with disk := s.disk.write (s.buf b).blockno (s.buf b).data }
    else s.setBuf b { s.buf b with data := s.disk.now (s.buf b).blockno }

def Store.cached (s : Store) (dev blockno : Nat) : Option (Fin NBUF) :=
  s.lru.find? fun b => (s.buf b).dev == dev && (s.buf b).blockno == blockno

def Store.recyclable (s : Store) : Option (Fin NBUF) :=
  s.lru.reverse.find? fun b => (s.buf b).refcnt == 0

def bget (dev blockno : Nat) : StoreM (Fin NBUF) := do
  let s ← get
  match s.cached dev blockno with
  | some b =>
      set (s.setBuf b { s.buf b with refcnt := (s.buf b).refcnt + 1 })
      acquiresleep b
      return b
  | none =>
      match s.recyclable with
      | some b =>
          set (s.setBuf b { s.buf b with dev, blockno, valid := false, refcnt := 1 })
          acquiresleep b
          return b
      | none => throw .bgetNoBuffers

def bread (dev blockno : Nat) : StoreM (Fin NBUF) := do
  let b ← bget dev blockno
  let s ← get
  if !(s.buf b).valid then
    virtioDiskRw b false
    modify fun s => s.setBuf b { s.buf b with valid := true }
  return b

def bwrite (b : Fin NBUF) : StoreM Unit := do
  let s ← get
  if !(s.buf b).locked then throw .bwriteUnlocked
  virtioDiskRw b true

/-- `releasesleep` and the locked stretch of `brelse`: a buffer nobody uses any
more becomes the head of the list. -/
def Store.release (s : Store) (b : Fin NBUF) : Store :=
  let s := s.setBuf b { s.buf b with locked := false, refcnt := (s.buf b).refcnt - 1 }
  if (s.buf b).refcnt = 0 then { s with lru := b :: s.lru.erase b } else s

def brelse (b : Fin NBUF) : StoreM Unit := do
  let s ← get
  if !(s.buf b).locked then throw .brelseUnlocked
  set (s.release b)

def bpin (b : Fin NBUF) : StoreM Unit :=
  modify fun s => s.setBuf b { s.buf b with refcnt := (s.buf b).refcnt + 1 }

def bunpin (b : Fin NBUF) : StoreM Unit :=
  modify fun s => s.setBuf b { s.buf b with refcnt := (s.buf b).refcnt - 1 }

/-- A store of the caller into `b->data`. -/
def setData (b : Fin NBUF) (data : Block) : StoreM Unit :=
  modify fun s => s.setBuf b { s.buf b with data }

/-- The state `binit` leaves: every buffer is unused and `head.next` is the last one linked. -/
def binit (disk : Nat → Block) (log : Log) : Store where
  buf _ := { dev := 0, blockno := 0, valid := false, locked := false, refcnt := 0,
             data := fun _ => 0 }
  lru := (List.finRange NBUF).reverse
  disk := { now := disk, past := [] }
  log := log

section Specifications

open Foundation.Outcome

@[simp]
theorem Disk.write_now (disk : Disk) (blockno : Nat) (data : Block) :
    (disk.write blockno data).now = Function.update disk.now blockno data := rfl

theorem Disk.contents_write (disk : Disk) (blockno : Nat) (data : Block) :
    (disk.write blockno data).contents =
      disk.contents ++ [Function.update disk.now blockno data] := by
  simp [Disk.contents, Disk.write]

@[simp]
theorem Store.setBuf_disk (s : Store) (b : Fin NBUF) (value : Buf) :
    (s.setBuf b value).disk = s.disk := rfl

@[simp]
theorem Store.setBuf_log (s : Store) (b : Fin NBUF) (value : Buf) :
    (s.setBuf b value).log = s.log := rfl

@[simp]
theorem Store.setBuf_lru (s : Store) (b : Fin NBUF) (value : Buf) :
    (s.setBuf b value).lru = s.lru := rfl

@[simp]
theorem Store.setBuf_same (s : Store) (b : Fin NBUF) (value : Buf) :
    (s.setBuf b value).buf b = value := Function.update_self ..

@[simp]
theorem Store.setBuf_setBuf (s : Store) (b : Fin NBUF) (first second : Buf) :
    (s.setBuf b first).setBuf b second = s.setBuf b second := by
  simp [Store.setBuf]

theorem Store.setBuf_other (s : Store) {a b : Fin NBUF} (value : Buf) (apart : a ≠ b) :
    (s.setBuf b value).buf a = s.buf a := Function.update_of_ne apart ..

@[simp]
theorem Store.release_disk (s : Store) (b : Fin NBUF) : (s.release b).disk = s.disk := by
  unfold Store.release
  dsimp only
  split <;> rfl

@[simp]
theorem Store.release_log (s : Store) (b : Fin NBUF) : (s.release b).log = s.log := by
  unfold Store.release
  dsimp only
  split <;> rfl

theorem Store.release_buf (s : Store) (b : Fin NBUF) :
    (s.release b).buf = (s.setBuf b
      { s.buf b with locked := false, refcnt := (s.buf b).refcnt - 1 }).buf := by
  unfold Store.release
  dsimp only
  split <;> rfl

theorem Store.release_lru (s : Store) (b a : Fin NBUF) (member : a ∈ s.lru) :
    a ∈ (s.release b).lru := by
  unfold Store.release
  dsimp only
  split
  · by_cases same : a = b
    · exact List.mem_cons.mpr (Or.inl same)
    · exact List.mem_cons.mpr (Or.inr ((List.mem_erase_of_ne same).mpr member))
  · exact member

theorem acquiresleep_outcome (b : Fin NBUF) (s : Store) :
    outcome (acquiresleep b)
      (fun _ after => (s.buf b).locked = false ∧
        after = s.setBuf b { s.buf b with locked := true })
      (fun _ after => after = s) s := by
  unfold acquiresleep
  cases held : (s.buf b).locked <;> simp [held]

/-- Everything `bread` can return: a cached buffer, filled from the disk if it
held no data yet, or an idle buffer given to the block. -/
inductive Fetched (s : Store) (dev blockno : Nat) (b : Fin NBUF) : Store → Prop
  | hit (found : s.cached dev blockno = some b) (unlocked : (s.buf b).locked = false) :
      Fetched s dev blockno b (s.setBuf b
        { s.buf b with
          valid := true, locked := true, refcnt := (s.buf b).refcnt + 1
          data := if (s.buf b).valid then (s.buf b).data else s.disk.now (s.buf b).blockno })
  | miss (absent : s.cached dev blockno = none) (idle : (s.buf b).refcnt = 0)
      (unlocked : (s.buf b).locked = false) :
      Fetched s dev blockno b (s.setBuf b
        { dev, blockno, valid := true, locked := true, refcnt := 1,
          data := s.disk.now blockno })

theorem bread_outcome (dev blockno : Nat) (s : Store) :
    outcome (bread dev blockno) (fun b after => Fetched s dev blockno b after)
      (fun _ after => after.disk = s.disk) s := by
  unfold bread bget
  simp only [outcome_bind, outcome_get]
  cases found : s.cached dev blockno with
  | some b =>
      simp only [outcome_bind, outcome_set]
      refine outcome_mono (acquiresleep_outcome b _) ?_ ?_
      · rintro _ after ⟨unlocked, rfl⟩
        have free : (s.buf b).locked = false := by simpa using unlocked
        cases valid : (s.buf b).valid <;> simp [virtioDiskRw]
        · simpa [valid] using Fetched.hit found free
        · simpa [valid] using Fetched.hit found free
      · rintro _ after rfl
        rfl
  | none =>
      cases idle : s.recyclable with
      | none => simp
      | some b =>
          simp only [outcome_bind, outcome_set]
          refine outcome_mono (acquiresleep_outcome b _) ?_ ?_
          · rintro _ after ⟨unlocked, rfl⟩
            have free : (s.buf b).locked = false := by simpa using unlocked
            have unused : (s.buf b).refcnt = 0 := by
              simpa using List.find?_some idle
            simpa [virtioDiskRw] using Fetched.miss found unused free
          · rintro _ after rfl
            rfl

theorem bwrite_outcome (b : Fin NBUF) (s : Store) :
    outcome (bwrite b)
      (fun _ after => after =
        { s with disk := s.disk.write (s.buf b).blockno (s.buf b).data })
      (fun _ after => after = s) s := by
  unfold bwrite
  cases held : (s.buf b).locked <;> simp [held, virtioDiskRw]

theorem brelse_outcome (b : Fin NBUF) (s : Store) :
    outcome (brelse b) (fun _ after => after = s.release b) (fun _ after => after = s) s := by
  unfold brelse
  cases held : (s.buf b).locked <;> simp [held]

theorem cached_found {s : Store} {dev blockno : Nat} {b : Fin NBUF}
    (found : s.cached dev blockno = some b) :
    (s.buf b).dev = dev ∧ (s.buf b).blockno = blockno := by
  simpa using List.find?_some found

theorem cached_absent {s : Store} {dev blockno : Nat} (absent : s.cached dev blockno = none)
    {b : Fin NBUF} (linked : b ∈ s.lru) (sameDev : (s.buf b).dev = dev) :
    (s.buf b).blockno ≠ blockno := by
  have miss := List.find?_eq_none.mp absent b linked
  simpa [sameDev] using miss

end Specifications

end PaddleOs
