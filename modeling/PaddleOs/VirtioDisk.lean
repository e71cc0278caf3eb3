import PaddleOs.Params
import PaddleOs.Foundation.Runs
import Mathlib.Data.Fintype.Card
import Mathlib.Data.List.Perm.Basic
import Mathlib.Data.List.Range
import Mathlib.Data.Finset.Prod
import Mathlib.Tactic.IntervalCases

/-!
`virtio_disk_rw` and `virtio_disk_intr` of `virtio_disk.c` with the device. A stretch of
`virtio_disk_rw` under `vdisk_lock`, from `acquire` or from where `sleep` returns to the next
`sleep` or to `release`, is one step; of `virtio_disk_intr` every turn of the loop is one,
and the device may go on between them. The callers hold the lock of their buffer, so two
calls under way have different ones.

The device takes the heads from the avail ring in their order and posts them to the used
ring in any order, each after it wrote status 0 where the third descriptor of the chain
points. What it does with the data is left out, and so are its registers.

`submitted` collects the requests, and the place of a request there is its ticket. `taken`
counts what the device took, `posted` is what it posted, with the tickets, and `handled` what
`virtio_disk_intr` read there with the buffer whose flag it cleared.
-/

namespace PaddleOs.VirtioDisk

open Foundation.Runs

variable {N : Nat} {B : Type}

def NUM : Nat := 8
def VRING_DESC_F_NEXT : Nat := 1
def VRING_DESC_F_WRITE : Nat := 2
def VIRTIO_BLK_T_IN : Nat := 0
def VIRTIO_BLK_T_OUT : Nat := 1

/-- What a descriptor may point to: `disk.ops[i]`, the data of a buffer, or
`disk.info[i].status`. -/
inductive Addr (B : Type) where
  | null
  | ops (i : Nat)
  | data (b : B)
  | status (i : Nat)
  deriving DecidableEq

structure VirtqDesc (B : Type) where
  addr : Addr B
  len : Nat
  flags : Nat
  next : Nat

structure VirtioBlkReq where
  type : Nat
  reserved : Nat
  sector : Nat
  deriving DecidableEq, Repr

structure Disk (B : Type) where
  desc : Nat → VirtqDesc B
  availIdx : Nat
  availRing : Nat → Nat
  usedIdx : Nat
  usedRing : Nat → Nat
  free : Nat → Bool
  used_idx : Nat
  infoB : Nat → Option B
  infoStatus : Nat → UInt8
  ops : Nat → VirtioBlkReq

/-- `idx[0]`, `idx[1]` and `idx[2]` of `virtio_disk_rw`. -/
structure Idx where
  head : Nat
  data : Nat
  status : Nat
  deriving DecidableEq, Repr

structure Request (B : Type) where
  b : B
  write : Bool
  sector : Nat
  idx : Idx

/-- Where a process stands in `virtio_disk_rw`. It is `napping` on `&disk.free[0]` and
`waiting` on its buffer. -/
inductive Pc (B : Type) where
  | away
  | rw (b : B) (write : Bool) (sector : Nat)
  | napping (b : B) (write : Bool) (sector : Nat)
  | waiting (request : Request B) (ticket : Nat)
  | woken (request : Request B) (ticket : Nat)

structure State (N : Nat) (B : Type) where
  disk : Disk B
  flag : B → Bool
  pc : Fin N → Pc B
  handling : Bool
  panicked : Option String
  seen : Nat
  working : List (Nat × Nat)
  submitted : List (Request B)
  taken : Nat
  posted : List (Nat × Nat)
  handled : List (Nat × B)

inductive Label (N : Nat) (B : Type) where
  | call (t : Fin N) (b : B) (write : Bool) (blockno : UInt32)
  | rw (t : Fin N)
  | resume (t : Fin N)
  | wake (t : Fin N)
  | intr
  | handle
  | consume
  | post (k : Nat)

section Code

variable [DecidableEq B]

/-- `wakeup(&disk.free[0])` on one process. -/
def Pc.wokenFree : Pc B → Pc B
  | .napping b write sector => .rw b write sector
  | pc => pc

/-- `wakeup(b)` on one process. -/
def Pc.wokenOn (b : B) : Pc B → Pc B
  | .waiting request ticket => if request.b = b then .woken request ticket else .waiting request ticket
  | pc => pc

def State.setPc (s : State N B) (t : Fin N) (pc : Pc B) : State N B := { s with pc := Function.update s.pc t pc }

def allocDesc (d : Disk B) : Option Nat × Disk B :=
  match (List.range NUM).find? d.free with
  | some i => (some i, { d with free := Function.update d.free i false })
  | none => (none, d)

/-- The descriptor cleared and free again, and everybody woken who waits for one. -/
def State.freed (s : State N B) (i : Nat) : State N B :=
  { s with
    disk := { s.disk with
      desc := Function.update s.disk.desc i ⟨.null, 0, 0, 0⟩
      free := Function.update s.disk.free i true }
    pc := fun t => (s.pc t).wokenFree }

def freeDesc (i : Nat) (s : State N B) : Except String (State N B) :=
  if NUM ≤ i then .error "free_desc 1"
  else if s.disk.free i then .error "free_desc 2"
  else .ok (s.freed i)

/-- A descriptor met twice is free the second time, so the fuel is never used up. -/
def freeChainFrom : Nat → Nat → State N B → Except String (State N B)
  | 0, _, _ => .error "out of fuel"
  | fuel + 1, i, s => do
      let flag := (s.disk.desc i).flags
      let nxt := (s.disk.desc i).next
      let s ← freeDesc i s
      if flag &&& VRING_DESC_F_NEXT ≠ 0 then freeChainFrom fuel nxt s else .ok s

def freeChain (i : Nat) (s : State N B) : Except String (State N B) := freeChainFrom (NUM + 1) i s

/-- The turns of the loop of `alloc3_desc` still to come, with what the turns before got. -/
def allocLoop : Nat → List Nat → State N B → Except String (Option (List Nat) × State N B)
  | 0, got, s => .ok (some got, s)
  | left + 1, got, s =>
      match allocDesc s.disk with
      | (some i, d) => allocLoop left (got ++ [i]) { s with disk := d }
      | (none, d) => do
          let s ← got.foldlM (fun s j => freeDesc j s) { s with disk := d }
          .ok (none, s)

def alloc3Desc (s : State N B) : Except String (Option Idx × State N B) := do
  match ← allocLoop 3 [] s with
  | (some [head, data, status], s) => .ok (some ⟨head, data, status⟩, s)
  | (_, s) => .ok (none, s)

/-- The three descriptors and the operation as `virtio_disk_rw` formats them. -/
def format (d : Disk B) (r : Request B) : Disk B :=
  let type := if r.write then VIRTIO_BLK_T_OUT else VIRTIO_BLK_T_IN
  let d := { d with ops := Function.update d.ops r.idx.head ⟨type, 0, r.sector⟩ }
  let desc := Function.update d.desc r.idx.head ⟨.ops r.idx.head, 16, VRING_DESC_F_NEXT, r.idx.data % 2 ^ 16⟩
  let flags := (if r.write then 0 else VRING_DESC_F_WRITE) ||| VRING_DESC_F_NEXT
  let desc := Function.update desc r.idx.data ⟨.data r.b, BSIZE, flags, r.idx.status % 2 ^ 16⟩
  let d := { d with infoStatus := Function.update d.infoStatus r.idx.head 0xff }
  { d with desc := Function.update desc r.idx.status ⟨.status r.idx.head, 1, VRING_DESC_F_WRITE, 0⟩ }

/-- The request made known to `virtio_disk_intr` and to the device. -/
def submit (s : State N B) (r : Request B) : State N B :=
  let d := { format s.disk r with infoB := Function.update s.disk.infoB r.idx.head (some r.b) }
  let d := { d with availRing := Function.update d.availRing (d.availIdx % NUM) (r.idx.head % 2 ^ 16) }
  { s with
    flag := Function.update s.flag r.b true
    disk := { d with availIdx := (d.availIdx + 1) % 2 ^ 16 }
    submitted := s.submitted ++ [r] }

/-- The end of `virtio_disk_rw` from `while(b->disk == 1)` on. -/
def await (t : Fin N) (r : Request B) (ticket : Nat) (s : State N B) : Except String (State N B) :=
  if s.flag r.b then .ok (s.setPc t (.waiting r ticket))
  else do
    let s := { s with disk := { s.disk with infoB := Function.update s.disk.infoB r.idx.head none } }
    let s ← freeChain r.idx.head s
    .ok (s.setPc t .away)

/-- `virtio_disk_rw` from where it has the lock and no descriptors. -/
def virtioDiskRw (t : Fin N) (b : B) (write : Bool) (sector : Nat) (s : State N B) :
    Except String (State N B) := do
  match ← alloc3Desc s with
  | (some idx, s) => await t ⟨b, write, sector, idx⟩ s.submitted.length (submit s ⟨b, write, sector, idx⟩)
  | (none, s) => .ok (s.setPc t (.napping b write sector))

/-- One turn of the loop of `virtio_disk_intr`, or its end. -/
def virtioDiskIntr (s : State N B) : Except String (State N B) :=
  if s.disk.used_idx ≠ s.disk.usedIdx then
    let id := s.disk.usedRing (s.disk.used_idx % NUM)
    if s.disk.infoStatus id ≠ 0 then .error "virtio_disk_intr status"
    else
      match s.disk.infoB id with
      | some b =>
          .ok { s with
            flag := Function.update s.flag b false
            pc := fun t => (s.pc t).wokenOn b
            disk := { s.disk with used_idx := (s.disk.used_idx + 1) % 2 ^ 16 }
            handled := s.handled ++ [(id, b)] }
      | none => .error "kerneltrap"
  else .ok { s with handling := false }

/-- The device takes the next head from the avail ring. -/
def consume (s : State N B) : Option (State N B) :=
  if s.seen ≠ s.disk.availIdx then
    some { s with
      seen := (s.seen + 1) % 2 ^ 16
      working := s.working ++ [(s.disk.availRing (s.seen % NUM), s.taken)]
      taken := s.taken + 1 }
  else none

/-- The status byte of the chain that begins at `head`, written by the device. -/
def writeStatus (d : Disk B) (head : Nat) : Nat → UInt8 :=
  match (d.desc (d.desc (d.desc head).next).next).addr with
  | .status i => Function.update d.infoStatus i 0
  | _ => d.infoStatus

/-- The device is done with one of the heads it took. -/
def post (s : State N B) (k : Nat) : Option (State N B) :=
  (s.working[k]?).map fun e =>
    { s with
      disk := { s.disk with
        infoStatus := writeStatus s.disk e.1
        usedRing := Function.update s.disk.usedRing (s.disk.usedIdx % NUM) e.1
        usedIdx := (s.disk.usedIdx + 1) % 2 ^ 16 }
      working := s.working.eraseIdx k
      posted := s.posted ++ [e] }

/-- The buffer of a call under way. -/
def Pc.buf : Pc B → Option B
  | .away => none
  | .rw b _ _ | .napping b _ _ => some b
  | .waiting r _ | .woken r _ => some r.b

/-- The end of a stretch, or a panic. -/
def settle (s : State N B) : Except String (State N B) → State N B
  | .ok after => after
  | .error text => { s with panicked := some text }

def move (s : State N B) : Label N B → Option (State N B)
  | .call t b write blockno =>
      match s.pc t with
      | .away =>
          if ∀ u, (s.pc u).buf ≠ some b then
            some (s.setPc t (.rw b write (blockno.toNat * (BSIZE / 512) % 2 ^ 32)))
          else none
      | _ => none
  | .rw t =>
      match s.pc t with
      | .rw b write sector => if s.handling then none else some (settle s (virtioDiskRw t b write sector s))
      | _ => none
  | .resume t =>
      match s.pc t with
      | .woken r ticket => if s.handling then none else some (settle s (await t r ticket s))
      | _ => none
  | .wake t =>
      match s.pc t with
      | .napping b write sector => some (s.setPc t (.rw b write sector))
      | .waiting r ticket => some (s.setPc t (.woken r ticket))
      | _ => none
  | .intr => if s.handling then none else some { s with handling := true }
  | .handle => if s.handling then some (settle s (virtioDiskIntr s)) else none
  | .consume => consume s
  | .post k => post s k

/-- Nothing goes on after a panic. -/
def step (s : State N B) (label : Label N B) : Option (State N B) :=
  match s.panicked with
  | none => move s label
  | some _ => none

end Code

/-- After `virtio_disk_init`. -/
def fresh : State N B where
  disk :=
    { desc := fun _ => ⟨.null, 0, 0, 0⟩, availIdx := 0, availRing := fun _ => 0, usedIdx := 0
      usedRing := fun _ => 0, free := fun i => decide (i < NUM), used_idx := 0, infoB := fun _ => none
      infoStatus := fun _ => 0, ops := fun _ => ⟨0, 0, 0⟩ }
  flag _ := false
  pc _ := .away
  handling := false
  panicked := none
  seen := 0
  working := []
  submitted := []
  taken := 0
  posted := []
  handled := []

section Descriptors

variable {s s' : State N B} {d : Disk B} {i j : Nat}

/-- The three descriptors of a request, taken and linked. -/
structure Chain (d : Disk B) (r : Request B) : Prop where
  below : r.idx.head < NUM ∧ r.idx.data < NUM ∧ r.idx.status < NUM
  distinct : r.idx.head ≠ r.idx.data ∧ r.idx.head ≠ r.idx.status ∧ r.idx.data ≠ r.idx.status
  taken : d.free r.idx.head = false ∧ d.free r.idx.data = false ∧ d.free r.idx.status = false
  head : d.desc r.idx.head = ⟨.ops r.idx.head, 16, VRING_DESC_F_NEXT, r.idx.data⟩
  data : d.desc r.idx.data =
    ⟨.data r.b, BSIZE, (if r.write then 0 else VRING_DESC_F_WRITE) ||| VRING_DESC_F_NEXT, r.idx.status⟩
  status : d.desc r.idx.status = ⟨.status r.idx.head, 1, VRING_DESC_F_WRITE, 0⟩
  ops : d.ops r.idx.head = ⟨if r.write then VIRTIO_BLK_T_OUT else VIRTIO_BLK_T_IN, 0, r.sector⟩

/-- A failed `alloc3_desc`: only free descriptors were touched, and sleepers woken. -/
structure Idled (s s' : State N B) : Prop where
  rest : s' = { s with disk := { s.disk with desc := s'.disk.desc }, pc := s'.pc }
  desc : ∀ i, s.disk.free i = false → s'.disk.desc i = s.disk.desc i
  pc : s'.pc = s.pc ∨ s'.pc = fun t => (s.pc t).wokenFree

def Disk.claim (d : Disk B) (i : Nat) : Disk B := { d with free := Function.update d.free i false }

theorem claim_same (d : Disk B) (i : Nat) : (d.claim i).free i = false := Function.update_self ..

theorem claim_other (apart : j ≠ i) : (d.claim i).free j = d.free j := Function.update_of_ne apart ..

theorem claim_free (free : (d.claim i).free j = true) : j ≠ i ∧ d.free j = true := by
  have apart : j ≠ i := by
    rintro rfl
    rw [claim_same] at free
    cases free
  exact ⟨apart, claim_other apart ▸ free⟩

theorem allocDesc_spec (d : Disk B) : allocDesc d = (none, d) ∨
    ∃ i, i < NUM ∧ d.free i = true ∧ allocDesc d = (some i, d.claim i) := by
  unfold allocDesc
  cases found : (List.range NUM).find? d.free with
  | none => exact .inl rfl
  | some i =>
      refine .inr ⟨i, List.mem_range.mp (List.mem_of_find?_eq_some found), List.find?_some found, rfl⟩

theorem freeDesc_ok (below : i < NUM) (taken : s.disk.free i = false) : freeDesc i s = .ok (s.freed i) := by
  rw [freeDesc, if_neg (by omega), taken]
  rfl

theorem wokenFree_twice (pc : Pc B) : pc.wokenFree.wokenFree = pc.wokenFree := by
  cases pc <;> rfl

/-- One descriptor was taken and given back. -/
theorem idled_one (free : s.disk.free i = true) : Idled s ({ s with disk := s.disk.claim i }.freed i) where
  rest := by
    simp only [State.freed, Disk.claim, Function.update_idem]
    rw [← free, Function.update_eq_self]
  desc k taken := by
    refine Function.update_of_ne ?_ ..
    rintro rfl
    rw [free] at taken
    cases taken
  pc := .inr rfl

theorem idled_two (free : s.disk.free i = true) (free' : s.disk.free j = true) (apart : j ≠ i) :
    Idled s (({ s with disk := (s.disk.claim i).claim j }.freed i).freed j) where
  rest := by
    have same : Function.update (Function.update (Function.update (Function.update s.disk.free i false)
        j false) i true) j true = s.disk.free := by
      funext k
      by_cases last : k = j
      · rw [last, Function.update_self, free']
      · rw [Function.update_of_ne last]
        by_cases first : k = i
        · rw [first, Function.update_self, free]
        · rw [Function.update_of_ne first, Function.update_of_ne last, Function.update_of_ne first]
    simp only [State.freed, Disk.claim, same]
  desc k taken := by
    have others : k ≠ i ∧ k ≠ j := by
      constructor <;> rintro rfl
      · rw [free] at taken
        cases taken
      · rw [free'] at taken
        cases taken
    exact (Function.update_of_ne others.2 ..).trans (Function.update_of_ne others.1 ..)
  pc := .inr (funext fun t => wokenFree_twice (s.pc t))

theorem allocLoop_got {left : Nat} {got : List Nat} (takes : allocDesc s.disk = (some i, s.disk.claim i)) :
    allocLoop (left + 1) got s = allocLoop left (got ++ [i]) { s with disk := s.disk.claim i } := by
  rw [allocLoop, takes]

theorem allocLoop_none {left : Nat} {got : List Nat} (lacks : allocDesc s.disk = (none, s.disk)) :
    allocLoop (left + 1) got s = (got.foldlM (fun s j => freeDesc j s) s).map (none, ·) := by
  rw [allocLoop, lacks]
  change Except.bind (got.foldlM (fun s j => freeDesc j s) s) _ = _
  cases got.foldlM (fun s j => freeDesc j s) s <;> rfl

def Disk.claims (d : Disk B) (idx : Idx) : Disk B := ((d.claim idx.head).claim idx.data).claim idx.status

/-- Three different descriptors that are free. -/
structure Spare (d : Disk B) (idx : Idx) : Prop where
  below : idx.head < NUM ∧ idx.data < NUM ∧ idx.status < NUM
  distinct : idx.head ≠ idx.data ∧ idx.head ≠ idx.status ∧ idx.data ≠ idx.status
  free : d.free idx.head = true ∧ d.free idx.data = true ∧ d.free idx.status = true

/-- `alloc3_desc` takes three free descriptors or none. -/
theorem alloc3Desc_spec (s : State N B) : (∃ s', alloc3Desc s = .ok (none, s') ∧ Idled s s') ∨
    ∃ idx, alloc3Desc s = .ok (some idx, { s with disk := s.disk.claims idx }) ∧ Spare s.disk idx := by
  rw [alloc3Desc]
  rcases allocDesc_spec s.disk with lacks | ⟨i, below₁, free₁, first⟩
  · refine .inl ⟨s, ?_, ⟨rfl, fun _ _ => rfl, .inl rfl⟩⟩
    rw [allocLoop_none lacks]
    rfl
  rw [allocLoop_got first]
  rcases allocDesc_spec (s.disk.claim i) with lacks | ⟨j, below₂, free₂, second⟩
  · refine .inl ⟨_, ?_, idled_one free₁⟩
    have back := freeDesc_ok (s := { s with disk := s.disk.claim i }) below₁ (claim_same ..)
    rw [allocLoop_none (s := { s with disk := s.disk.claim i }) lacks]
    simp only [List.nil_append, List.foldlM_cons, List.foldlM_nil, back]
    rfl
  rw [allocLoop_got (s := { s with disk := s.disk.claim i }) second]
  obtain ⟨apart₂, free₂⟩ := claim_free free₂
  rcases allocDesc_spec ((s.disk.claim i).claim j) with lacks | ⟨k, below₃, free₃, third⟩
  · refine .inl ⟨_, ?_, idled_two free₁ free₂ apart₂⟩
    have back := freeDesc_ok (s := { s with disk := (s.disk.claim i).claim j }) below₁
      ((claim_other (Ne.symm apart₂)).trans (claim_same ..))
    have again := freeDesc_ok (s := State.freed { s with disk := (s.disk.claim i).claim j } i) below₂
      ((Function.update_of_ne apart₂ ..).trans (claim_same ..))
    rw [allocLoop_none (s := { s with disk := (s.disk.claim i).claim j }) lacks]
    simp only [List.nil_append, List.cons_append, List.foldlM_cons, List.foldlM_nil, back]
    change Except.bind (Except.map _ (Except.bind (freeDesc j _) _)) _ = _
    rw [again]
    rfl
  rw [allocLoop_got (s := { s with disk := (s.disk.claim i).claim j }) third]
  obtain ⟨apart₃, free₃⟩ := claim_free free₃
  obtain ⟨apart₄, free₃⟩ := claim_free free₃
  exact .inr ⟨⟨i, j, k⟩, rfl, ⟨below₁, below₂, below₃⟩, ⟨Ne.symm apart₂, Ne.symm apart₄, Ne.symm apart₃⟩,
    ⟨free₁, free₂, free₃⟩⟩

theorem freeChainFrom_step {fuel : Nat} (below : i < NUM) (taken : s.disk.free i = false) :
    freeChainFrom (fuel + 1) i s =
      if (s.disk.desc i).flags &&& VRING_DESC_F_NEXT ≠ 0 then freeChainFrom fuel (s.disk.desc i).next (s.freed i)
      else .ok (s.freed i) := by
  rw [freeChainFrom, freeDesc_ok below taken]
  rfl

/-- The whole chain of a request is given back. -/
theorem freeChain_ok {r : Request B} (chain : Chain s.disk r) :
    freeChain r.idx.head s = .ok (((s.freed r.idx.head).freed r.idx.data).freed r.idx.status) := by
  obtain ⟨below₁, below₂, below₃⟩ := chain.below
  obtain ⟨apart₁, apart₂, apart₃⟩ := chain.distinct
  obtain ⟨taken₁, taken₂, taken₃⟩ := chain.taken
  have second : (s.freed r.idx.head).disk.desc r.idx.data = s.disk.desc r.idx.data :=
    Function.update_of_ne (Ne.symm apart₁) ..
  have third : ((s.freed r.idx.head).freed r.idx.data).disk.desc r.idx.status = s.disk.desc r.idx.status :=
    (Function.update_of_ne (Ne.symm apart₃) ..).trans (Function.update_of_ne (Ne.symm apart₂) ..)
  have free₂ : (s.freed r.idx.head).disk.free r.idx.data = false :=
    (Function.update_of_ne (Ne.symm apart₁) ..).trans taken₂
  have free₃ : ((s.freed r.idx.head).freed r.idx.data).disk.free r.idx.status = false :=
    ((Function.update_of_ne (Ne.symm apart₃) ..).trans (Function.update_of_ne (Ne.symm apart₂) ..)).trans taken₃
  have more : ∀ write : Bool,
      ((if write then 0 else VRING_DESC_F_WRITE) ||| VRING_DESC_F_NEXT) &&& VRING_DESC_F_NEXT ≠ 0 := by decide
  have links : VRING_DESC_F_NEXT &&& VRING_DESC_F_NEXT ≠ 0 := by decide
  have ends : ¬ (VRING_DESC_F_WRITE &&& VRING_DESC_F_NEXT ≠ 0) := by decide
  rw [freeChain, freeChainFrom_step below₁ taken₁, chain.head, if_pos links]
  rw [NUM, freeChainFrom_step below₂ free₂, second, chain.data, if_pos (more r.write)]
  rw [freeChainFrom_step below₃ free₃, third, chain.status, if_neg ends]

end Descriptors

section Invariant

/-- The request of a call that submitted one, with its ticket. -/
def Pc.flying : Pc B → Option (Request B × Nat)
  | .waiting r ticket | .woken r ticket => some (r, ticket)
  | _ => none

/-- The tickets of the completions that `virtio_disk_intr` processed. -/
def State.done (s : State N B) : List Nat := (s.posted.take s.handled.length).map (·.2)

def Idx.Has (idx : Idx) (k : Nat) : Prop := k = idx.head ∨ k = idx.data ∨ k = idx.status

/-- No descriptor of one is one of the other. -/
def Idx.Apart (i j : Idx) : Prop := ∀ k, i.Has k → ¬ j.Has k

/-- The counters and the rings against what happened. -/
structure Rings (s : State N B) : Prop where
  available : s.disk.availIdx = s.submitted.length % 2 ^ 16
  seen : s.seen = s.taken % 2 ^ 16
  used : s.disk.usedIdx = s.posted.length % 2 ^ 16
  looked : s.disk.used_idx = s.handled.length % 2 ^ 16
  taken : s.taken ≤ s.submitted.length
  handled : s.handled.length ≤ s.posted.length
  once : (s.posted.map (·.2) ++ s.working.map (·.2)).Perm (List.range s.taken)
  heads : ∀ e ∈ s.posted ++ s.working, ∃ r, s.submitted[e.2]? = some r ∧ e.1 = r.idx.head
  unconsumed : ∀ j r, s.taken ≤ j → s.submitted[j]? = some r → s.disk.availRing (j % NUM) = r.idx.head
  unlooked : ∀ j e, s.handled.length ≤ j → s.posted[j]? = some e → s.disk.usedRing (j % NUM) = e.1
  answers : ∀ (j : Nat) h, s.handled[j]? = some h → ∃ (e : Nat × Nat) (r : Request B), s.posted[j]? = some e ∧
    s.submitted[e.2]? = some r ∧ h = (e.1, r.b)

/-- A request under way is known to the driver and to the device as its call made it. -/
structure Owned (s : State N B) (r : Request B) (ticket : Nat) : Prop where
  submitted : s.submitted[ticket]? = some r
  chain : Chain s.disk r
  info : s.disk.infoB r.idx.head = some r.b
  flag : s.flag r.b = true ↔ ticket ∉ s.done
  status : ticket ∈ s.posted.map (·.2) → s.disk.infoStatus r.idx.head = 0

structure Owners (s : State N B) : Prop where
  owned : ∀ t r ticket, (s.pc t).flying = some (r, ticket) → Owned s r ticket
  apart : ∀ t u r r' ticket ticket', t ≠ u → (s.pc t).flying = some (r, ticket) →
    (s.pc u).flying = some (r', ticket') → r.idx.Apart r'.idx
  live : ∀ ticket, ticket < s.submitted.length → ticket ∉ s.done → ∃ t r, (s.pc t).flying = some (r, ticket)
  buffers : ∀ t u b, t ≠ u → (s.pc t).buf = some b → (s.pc u).buf ≠ some b

structure Inv (s : State N B) : Prop where
  calm : s.panicked = none
  rings : Rings s
  owners : Owners s

variable {s s' : State N B} {r r' : Request B} {ticket ticket' : Nat} {t u : Fin N}

theorem flying_buf {pc : Pc B} (flies : pc.flying = some (r, ticket)) : pc.buf = some r.b := by
  cases pc with
  | waiting r ticket => cases flies; rfl
  | woken r ticket => cases flies; rfl
  | _ => cases flies

theorem Idx.Apart.head {i j : Idx} (apart : i.Apart j) : i.head ≠ j.head := fun same => apart _ (.inl rfl) (.inl same)

theorem Rings.length (rings : Rings s) : s.posted.length + s.working.length = s.taken := by
  have lengths := rings.once.length_eq
  simpa using lengths

theorem Rings.nodup (rings : Rings s) : (s.posted.map (·.2) ++ s.working.map (·.2)).Nodup :=
  rings.once.nodup_iff.mpr List.nodup_range

theorem Rings.done_length (rings : Rings s) : s.done.length = s.handled.length := by
  have handled := rings.handled
  simp only [State.done, List.length_map, List.length_take]
  omega

theorem done_posted (member : ticket ∈ s.done) : ticket ∈ s.posted.map (·.2) :=
  List.map_subset _ (List.take_subset ..) member

theorem Rings.done_nodup (rings : Rings s) : s.done.Nodup := by
  have posted := (List.nodup_append.mp rings.nodup).1
  exact posted.sublist ((List.take_sublist ..).map _)

theorem Rings.posted_taken (rings : Rings s) (member : ticket ∈ s.posted.map (·.2)) : ticket < s.taken :=
  List.mem_range.mp (rings.once.subset (List.mem_append_left _ member))

/-- Two calls under way have different tickets. -/
theorem Owners.tickets (owners : Owners s) (flies : (s.pc t).flying = some (r, ticket))
    (flies' : (s.pc u).flying = some (r', ticket)) : t = u := by
  by_contra other
  have first := (owners.owned t r ticket flies).submitted
  rw [(owners.owned u r' ticket flies').submitted] at first
  cases first
  exact (owners.apart t u r r ticket ticket other flies flies').head rfl

def Idx.nth (idx : Idx) : Nat → Nat
  | 0 => idx.head
  | 1 => idx.data
  | _ => idx.status

theorem Idx.nth_mem (idx : Idx) (i : Nat) : idx.Has (idx.nth i) := by
  match i with
  | 0 => exact .inl rfl
  | 1 => exact .inr (.inl rfl)
  | _ + 2 => exact .inr (.inr rfl)

theorem Chain.nth_below {d : Disk B} (chain : Chain d r) (i : Nat) : r.idx.nth i < NUM := by
  obtain ⟨below₁, below₂, below₃⟩ := chain.below
  rcases r.idx.nth_mem i with same | same | same <;> rw [same] <;> assumption

theorem Chain.nth_inj {d : Disk B} (chain : Chain d r) {i j : Nat} (i_lt : i < 3) (j_lt : j < 3)
    (same : r.idx.nth i = r.idx.nth j) : i = j := by
  obtain ⟨apart₁, apart₂, apart₃⟩ := chain.distinct
  interval_cases i <;> interval_cases j <;> first
    | rfl
    | exact absurd same apart₁
    | exact absurd same apart₂
    | exact absurd same apart₃
    | exact absurd same.symm apart₁
    | exact absurd same.symm apart₂
    | exact absurd same.symm apart₃

/-- The requests submitted and not processed. -/
def State.unprocessed (s : State N B) : Finset Nat := (Finset.range s.submitted.length).filter (· ∉ s.done)

theorem Inv.unprocessed_card (inv : Inv s) : s.submitted.length ≤ s.unprocessed.card + s.handled.length := by
  have split := Finset.card_filter_add_card_filter_not (s := Finset.range s.submitted.length) (· ∉ s.done)
  have closed : ((Finset.range s.submitted.length).filter (¬ · ∉ s.done)).card ≤ s.done.toFinset.card := by
    refine Finset.card_le_card fun k member => ?_
    exact List.mem_toFinset.mpr (not_not.mp (Finset.mem_filter.mp member).2)
  have bound := List.toFinset_card_le s.done
  rw [inv.rings.done_length] at bound
  rw [Finset.card_range] at split
  unfold State.unprocessed
  omega

/-- Descriptors come in threes: at most two requests are submitted and not processed. -/
theorem Inv.few (inv : Inv s) : s.submitted.length ≤ s.handled.length + 2 := by
  have owner : ∀ k ∈ s.unprocessed, ∃ t r, (s.pc t).flying = some (r, k) := by
    intro k member
    obtain ⟨below, open_⟩ := Finset.mem_filter.mp member
    exact inv.owners.live k (Finset.mem_range.mp below) open_
  let place : Nat × Nat → Nat := fun p => (s.submitted[p.1]?).elim 0 fun r => r.idx.nth p.2
  have placed : ∀ {k i t r}, (s.pc t).flying = some (r, k) → place (k, i) = r.idx.nth i := by
    intro k i t r flies
    simp only [place, (inv.owners.owned t r k flies).submitted, Option.elim]
  have fits : (s.unprocessed ×ˢ Finset.range 3).card ≤ (Finset.range NUM).card := by
    refine Finset.card_le_card_of_injOn place ?_ ?_
    · rintro ⟨k, i⟩ member
      obtain ⟨t, r, flies⟩ := owner k (Finset.mem_product.mp member).1
      rw [placed flies]
      exact Finset.mem_coe.mpr (Finset.mem_range.mpr ((inv.owners.owned t r k flies).chain.nth_below i))
    · rintro ⟨k, i⟩ member ⟨k', i'⟩ member' same
      obtain ⟨left, right⟩ := Finset.mem_product.mp member
      obtain ⟨left', right'⟩ := Finset.mem_product.mp member'
      obtain ⟨t, r, flies⟩ := owner k left
      obtain ⟨u, r', flies'⟩ := owner k' left'
      rw [placed flies, placed flies'] at same
      by_cases here : t = u
      · subst here
        rw [flies] at flies'
        cases flies'
        have chain := (inv.owners.owned t r k flies).chain
        exact congrArg (Prod.mk k) (chain.nth_inj (Finset.mem_range.mp right) (Finset.mem_range.mp right') same)
      · have there := inv.owners.apart t u r r' k k' here flies flies' _ (r.idx.nth_mem i)
        rw [same] at there
        exact absurd (r'.idx.nth_mem i') there
  rw [Finset.card_product, Finset.card_range, Finset.card_range, NUM] at fits
  have count := inv.unprocessed_card
  omega

theorem Chain.frame {d d' : Disk B} (chain : Chain d r)
    (same : ∀ i, r.idx.Has i → d'.free i = d.free i ∧ d'.desc i = d.desc i)
    (ops : d'.ops r.idx.head = d.ops r.idx.head) : Chain d' r := by
  obtain ⟨free₁, desc₁⟩ := same _ (.inl rfl)
  obtain ⟨free₂, desc₂⟩ := same _ (.inr (.inl rfl))
  obtain ⟨free₃, desc₃⟩ := same _ (.inr (.inr rfl))
  exact ⟨chain.below, chain.distinct, by rw [free₁, free₂, free₃]; exact chain.taken, desc₁.trans chain.head,
    desc₂.trans chain.data, desc₃.trans chain.status, ops.trans chain.ops⟩

/-- The rings and the history alone matter. -/
theorem Rings.frame (rings : Rings s) (available : s'.disk.availIdx = s.disk.availIdx)
    (availRing : s'.disk.availRing = s.disk.availRing) (used : s'.disk.usedIdx = s.disk.usedIdx)
    (usedRing : s'.disk.usedRing = s.disk.usedRing) (looked : s'.disk.used_idx = s.disk.used_idx)
    (seen : s'.seen = s.seen) (working : s'.working = s.working) (submitted : s'.submitted = s.submitted)
    (taken : s'.taken = s.taken) (posted : s'.posted = s.posted) (handled : s'.handled = s.handled) : Rings s' := by
  refine ⟨?_, ?_, ?_, ?_, ?_, ?_, ?_, ?_, ?_, ?_, ?_⟩
  · rw [available, submitted]; exact rings.available
  · rw [seen, taken]; exact rings.seen
  · rw [used, posted]; exact rings.used
  · rw [looked, handled]; exact rings.looked
  · rw [taken, submitted]; exact rings.taken
  · rw [handled, posted]; exact rings.handled
  · rw [posted, working, taken]; exact rings.once
  · rw [posted, working, submitted]; exact rings.heads
  · rw [taken, submitted, availRing]; exact rings.unconsumed
  · rw [handled, posted, usedRing]; exact rings.unlooked
  · rw [handled, posted, submitted]; exact rings.answers

/-- Every call keeps its buffer and its request, and nothing of a request changes. -/
theorem Owners.frame (owners : Owners s) (flying : ∀ t, (s'.pc t).flying = (s.pc t).flying)
    (buf : ∀ t, (s'.pc t).buf = (s.pc t).buf) (submitted : s'.submitted = s.submitted)
    (posted : s'.posted = s.posted) (handled : s'.handled = s.handled) (flag : s'.flag = s.flag)
    (infoB : s'.disk.infoB = s.disk.infoB) (infoStatus : s'.disk.infoStatus = s.disk.infoStatus)
    (chain : ∀ r, Chain s.disk r → Chain s'.disk r) : Owners s' := by
  have done : s'.done = s.done := by rw [State.done, State.done, posted, handled]
  refine ⟨fun t r ticket flies => ?_, fun t u r r' ticket ticket' other flies flies' => ?_,
    fun ticket below open_ => ?_, fun t u b other own => ?_⟩
  · rw [flying] at flies
    have owned := owners.owned t r ticket flies
    exact ⟨submitted ▸ owned.submitted, chain r owned.chain, infoB ▸ owned.info,
      by rw [flag, done]; exact owned.flag, by rw [posted, infoStatus]; exact owned.status⟩
  · rw [flying] at flies flies'
    exact owners.apart t u r r' ticket ticket' other flies flies'
  · rw [submitted] at below
    rw [done] at open_
    obtain ⟨t, r, flies⟩ := owners.live ticket below open_
    exact ⟨t, r, (flying t).trans flies⟩
  · rw [buf] at own ⊢
    exact owners.buffers t u b other own

theorem wokenFree_flying (pc : Pc B) : pc.wokenFree.flying = pc.flying := by cases pc <;> rfl

theorem wokenFree_buf (pc : Pc B) : pc.wokenFree.buf = pc.buf := by cases pc <;> rfl

theorem setPc_same (pc : Pc B) : (s.setPc t pc).pc t = pc := Function.update_self ..

theorem setPc_other (pc : Pc B) (apart : u ≠ t) : (s.setPc t pc).pc u = s.pc u := Function.update_of_ne apart ..

theorem setPc_flying {pc : Pc B} (same : pc.flying = (s.pc t).flying) (u : Fin N) :
    ((s.setPc t pc).pc u).flying = (s.pc u).flying := by
  by_cases here : u = t
  · rw [here, setPc_same]
    exact same
  · rw [setPc_other pc here]

theorem setPc_buf {pc : Pc B} (same : pc.buf = (s.pc t).buf) (u : Fin N) :
    ((s.setPc t pc).pc u).buf = (s.pc u).buf := by
  by_cases here : u = t
  · rw [here, setPc_same]
    exact same
  · rw [setPc_other pc here]

/-- A process goes on or falls asleep with its request. -/
theorem Inv.setPc (inv : Inv s) {pc : Pc B} (flying : pc.flying = (s.pc t).flying)
    (buf : pc.buf = (s.pc t).buf) : Inv (s.setPc t pc) where
  calm := inv.calm
  rings := inv.rings.frame rfl rfl rfl rfl rfl rfl rfl rfl rfl rfl rfl
  owners := inv.owners.frame (setPc_flying flying) (setPc_buf buf) rfl rfl rfl rfl rfl rfl fun _ => id

/-- A call begins on a buffer no other call has. -/
theorem Inv.call (inv : Inv s) {b : B} {write : Bool} {sector : Nat} (at_ : s.pc t = .away)
    (alone : ∀ u, (s.pc u).buf ≠ some b) : Inv (s.setPc t (.rw b write sector)) where
  calm := inv.calm
  rings := inv.rings.frame rfl rfl rfl rfl rfl rfl rfl rfl rfl rfl rfl
  owners := by
    have flying : ∀ u, ((s.setPc t (.rw b write sector)).pc u).flying = (s.pc u).flying :=
      setPc_flying (by rw [at_]; rfl)
    refine ⟨fun u r ticket flies => ?_, fun u v r r' ticket ticket' other flies flies' => ?_,
      fun ticket below open_ => ?_, fun u v c other has => ?_⟩
    · rw [flying] at flies
      have owned := inv.owners.owned u r ticket flies
      exact ⟨owned.submitted, owned.chain, owned.info, owned.flag, owned.status⟩
    · rw [flying] at flies flies'
      exact inv.owners.apart u v r r' ticket ticket' other flies flies'
    · obtain ⟨u, r, flies⟩ := inv.owners.live ticket below open_
      exact ⟨u, r, (flying u).trans flies⟩
    · by_cases here : u = t
      · subst here
        rw [setPc_same] at has
        cases has
        rw [setPc_other _ (Ne.symm other)]
        exact alone v
      · rw [setPc_other _ here] at has
        by_cases there : v = t
        · subst there
          rw [setPc_same]
          rintro same
          cases same
          exact alone u has
        · rw [setPc_other _ there]
          exact inv.owners.buffers u v c other has

/-- `alloc3_desc` found too few. -/
theorem Inv.idled (inv : Inv s) (idled : Idled s s') : Inv s' := by
  have pcs : (∀ t, (s'.pc t).flying = (s.pc t).flying) ∧ ∀ t, (s'.pc t).buf = (s.pc t).buf := by
    rcases idled.pc with same | woken
    · rw [same]
      exact ⟨fun _ => rfl, fun _ => rfl⟩
    · rw [woken]
      exact ⟨fun t => wokenFree_flying (s.pc t), fun t => wokenFree_buf (s.pc t)⟩
  have rest := idled.rest
  have desc := idled.desc
  rw [rest]
  refine ⟨inv.calm, inv.rings.frame rfl rfl rfl rfl rfl rfl rfl rfl rfl rfl rfl, ?_⟩
  refine inv.owners.frame pcs.1 pcs.2 rfl rfl rfl rfl rfl rfl fun r chain => ?_
  obtain ⟨taken₁, taken₂, taken₃⟩ := chain.taken
  refine chain.frame ?_ rfl
  rintro i (rfl | rfl | rfl)
  · exact ⟨rfl, desc _ taken₁⟩
  · exact ⟨rfl, desc _ taken₂⟩
  · exact ⟨rfl, desc _ taken₃⟩

/-- A taken descriptor is none of three free ones. -/
theorem Spare.taken {d : Disk B} {idx : Idx} {k : Nat} (spare : Spare d idx) (taken : d.free k = false) :
    ¬ idx.Has k := by
  obtain ⟨free₁, free₂, free₃⟩ := spare.free
  rintro (rfl | rfl | rfl)
  · rw [free₁] at taken; cases taken
  · rw [free₂] at taken; cases taken
  · rw [free₃] at taken; cases taken

theorem Chain.has_taken {d : Disk B} (chain : Chain d r) {k : Nat} (has : r.idx.Has k) : d.free k = false := by
  obtain ⟨taken₁, taken₂, taken₃⟩ := chain.taken
  rcases has with rfl | rfl | rfl <;> assumption

/-- The descriptors of a request are none of three free ones. -/
theorem Spare.apart {d : Disk B} {idx : Idx} (spare : Spare d idx) (chain : Chain d r) : r.idx.Apart idx :=
  fun _ has => spare.taken (chain.has_taken has)

theorem Idx.Apart.symm {i j : Idx} (apart : i.Apart j) : j.Apart i := fun k there here => apart k here there

theorem Idx.not_has {idx : Idx} {k : Nat} (out : ¬ idx.Has k) : k ≠ idx.head ∧ k ≠ idx.data ∧ k ≠ idx.status :=
  ⟨fun same => out (.inl same), fun same => out (.inr (.inl same)), fun same => out (.inr (.inr same))⟩

theorem claims_other {d : Disk B} {idx : Idx} {k : Nat} (out : ¬ idx.Has k) : (d.claims idx).free k = d.free k := by
  obtain ⟨first, second, third⟩ := Idx.not_has out
  exact (claim_other third).trans ((claim_other second).trans (claim_other first))

theorem format_other {d : Disk B} {k : Nat} (out : ¬ r.idx.Has k) : (format d r).desc k = d.desc k := by
  obtain ⟨first, second, third⟩ := Idx.not_has out
  simp only [format, Function.update_of_ne third, Function.update_of_ne second, Function.update_of_ne first]

/-- What the device finds. -/
theorem format_chain {d : Disk B} (spare : Spare d r.idx) : Chain (format (d.claims r.idx) r) r := by
  obtain ⟨below₁, below₂, below₃⟩ := spare.below
  obtain ⟨apart₁, apart₂, apart₃⟩ := spare.distinct
  have small : r.idx.data % 2 ^ 16 = r.idx.data ∧ r.idx.status % 2 ^ 16 = r.idx.status := by
    rw [NUM] at below₂ below₃
    omega
  refine ⟨spare.below, spare.distinct, ⟨?_, ?_, ?_⟩, ?_, ?_, ?_, ?_⟩
  · exact (claim_other apart₂).trans ((claim_other apart₁).trans (claim_same ..))
  · exact (claim_other apart₃).trans (claim_same ..)
  · exact claim_same ..
  · simp only [format, Function.update_of_ne apart₂, Function.update_of_ne apart₁, Function.update_self, small.1]
  · simp only [format, Function.update_of_ne apart₃, Function.update_self, small.2]
  · simp only [format, Function.update_self]
  · simp only [format, Function.update_self]

theorem getElem?_snoc {α : Type} {l : List α} {x y : α} {j : Nat} :
    (l ++ [x])[j]? = some y ↔ l[j]? = some y ∨ j = l.length ∧ x = y := by
  rcases Nat.lt_or_ge j l.length with below | beyond
  · rw [List.getElem?_append_left below]
    exact ⟨.inl, fun found => found.resolve_right fun last => absurd last.1 (Nat.ne_of_lt below)⟩
  · rw [List.getElem?_append_right beyond, List.getElem?_eq_none beyond]
    by_cases last : j = l.length
    · rw [last, Nat.sub_self]
      simp
    · rw [List.getElem?_eq_none (by simp; omega)]
      simp [last]

theorem done_frame (posted : s'.posted = s.posted) (handled : s'.handled = s.handled) : s'.done = s.done := by
  rw [State.done, State.done, posted, handled]

theorem Inv.few_taken (inv : Inv s) : s.submitted.length ≤ s.taken + 2 := by
  have few := inv.few
  have handled := inv.rings.handled
  have length := inv.rings.length
  omega

variable [DecidableEq B]

/-- What `submit` and the claim before it leave alone. -/
theorem submit_rings (inv : Inv s) (below : r.idx.head < NUM) :
    Rings (submit { s with disk := s.disk.claims r.idx } r) := by
  have rings := inv.rings
  have few := inv.few_taken
  have room : ∀ j, s.taken ≤ j → j < s.submitted.length → j % NUM ≠ s.disk.availIdx % NUM := by
    intro j from_ below
    rw [rings.available, NUM]
    omega
  refine ⟨?_, rings.seen, rings.used, rings.looked, ?_, rings.handled, rings.once, ?_, ?_, rings.unlooked, ?_⟩
  · change (s.disk.availIdx + 1) % 2 ^ 16 = (s.submitted ++ [r]).length % 2 ^ 16
    rw [rings.available, List.length_append, List.length_singleton]
    omega
  · change s.taken ≤ (s.submitted ++ [r]).length
    rw [List.length_append]
    have taken := rings.taken
    omega
  · intro e member
    obtain ⟨r', known, head⟩ := rings.heads e member
    exact ⟨r', getElem?_snoc.mpr (.inl known), head⟩
  · intro j r' from_ known
    change Function.update s.disk.availRing (s.disk.availIdx % NUM) (r.idx.head % 2 ^ 16) (j % NUM) = r'.idx.head
    rcases getElem?_snoc.mp known with old | ⟨last, same⟩
    · rw [Function.update_of_ne (room j from_ (List.getElem?_eq_some_iff.mp old).1)]
      exact rings.unconsumed j r' from_ old
    · have slot : j % NUM = s.disk.availIdx % NUM := by
        change j = s.submitted.length at last
        rw [rings.available, NUM]
        omega
      rw [slot, Function.update_self, ← same]
      rw [NUM] at below
      omega
  · intro j h known
    obtain ⟨e, r', posted, submitted, same⟩ := rings.answers j h known
    exact ⟨e, r', posted, getElem?_snoc.mpr (.inl submitted), same⟩

/-- A request submitted keeps all others. -/
theorem submit_owners (inv : Inv s) (spare : Spare s.disk r.idx) (at_ : s.pc t = .rw r.b r.write r.sector) :
    Owners ((submit { s with disk := s.disk.claims r.idx } r).setPc t (.waiting r s.submitted.length)) := by
  have owners := inv.owners
  have fresh : s.submitted.length ∉ s.posted.map (·.2) := by
    intro member
    have early := inv.rings.posted_taken member
    have taken := inv.rings.taken
    omega
  have grounded : (s.pc t).flying = none := by rw [at_]; rfl
  refine ⟨fun u r' ticket flies => ?_, fun u v r₁ r₂ k₁ k₂ other flies flies' => ?_,
    fun ticket below open_ => ?_, fun u v b other has => ?_⟩
  · by_cases here : u = t
    · rw [here, setPc_same] at flies
      cases flies
      refine ⟨getElem?_snoc.mpr (.inr ⟨rfl, rfl⟩), ?_, Function.update_self .., ?_, fun wrong => absurd wrong fresh⟩
      · exact (format_chain spare).frame (fun _ _ => ⟨rfl, rfl⟩) rfl
      · exact iff_of_true (Function.update_self ..) fun wrong => fresh (done_posted wrong)
    · rw [setPc_other _ here] at flies
      change (s.pc u).flying = some (r', ticket) at flies
      have owned := owners.owned u r' ticket flies
      have apart := spare.apart owned.chain
      have buffer : r'.b ≠ r.b := by
        intro same
        refine owners.buffers u t r'.b here (flying_buf flies) ?_
        rw [at_, same]
        rfl
      refine ⟨getElem?_snoc.mpr (.inl owned.submitted), ?_, ?_, ?_, ?_⟩
      · refine owned.chain.frame (fun i has => ⟨claims_other (apart i has), format_other (apart i has)⟩) ?_
        exact Function.update_of_ne apart.head ..
      · exact (Function.update_of_ne apart.head ..).trans owned.info
      · change Function.update s.flag r.b true r'.b = true ↔ ticket ∉ s.done
        rw [Function.update_of_ne buffer]
        exact owned.flag
      · intro member
        exact (Function.update_of_ne apart.head ..).trans (owned.status member)
  · by_cases first : u = t
    · subst first
      rw [setPc_same] at flies
      rw [setPc_other _ (Ne.symm other)] at flies'
      cases flies
      exact (spare.apart (owners.owned v r₂ k₂ flies').chain).symm
    · rw [setPc_other _ first] at flies
      by_cases second : v = t
      · subst second
        rw [setPc_same] at flies'
        cases flies'
        exact spare.apart (owners.owned u r₁ k₁ flies).chain
      · rw [setPc_other _ second] at flies'
        exact owners.apart u v r₁ r₂ k₁ k₂ other flies flies'
  · by_cases last : ticket = s.submitted.length
    · exact ⟨t, r, by rw [setPc_same, last]; rfl⟩
    · have older : ticket < s.submitted.length := by
        have all : ticket < (s.submitted ++ [r]).length := below
        rw [List.length_append, List.length_singleton] at all
        omega
      obtain ⟨u, r', flies⟩ := owners.live ticket older open_
      have other : u ≠ t := by
        rintro rfl
        rw [grounded] at flies
        cases flies
      exact ⟨u, r', by rw [setPc_other _ other]; exact flies⟩
  · have buf : ∀ w, (((submit { s with disk := s.disk.claims r.idx } r).setPc t
        (.waiting r s.submitted.length)).pc w).buf = (s.pc w).buf :=
      setPc_buf (by change _ = (s.pc t).buf; rw [at_]; rfl)
    rw [buf] at has ⊢
    exact owners.buffers u v b other has

theorem Inv.virtioDiskRw (inv : Inv s) {b : B} {write : Bool} {sector : Nat} (at_ : s.pc t = .rw b write sector) :
    Inv (settle s (VirtioDisk.virtioDiskRw t b write sector s)) := by
  rcases alloc3Desc_spec s with ⟨s', lacks, idled⟩ | ⟨idx, takes, spare⟩
  · have napping : VirtioDisk.virtioDiskRw t b write sector s = .ok (s'.setPc t (.napping b write sector)) := by
      rw [VirtioDisk.virtioDiskRw, lacks]
      rfl
    have same : s'.pc t = .rw b write sector := by
      rcases idled.pc with same | woken
      · rw [same, at_]
      · rw [woken]
        change (s.pc t).wokenFree = _
        rw [at_]
        rfl
    rw [napping]
    exact (inv.idled idled).setPc (by rw [same]; rfl) (by rw [same]; rfl)
  · have submits : VirtioDisk.virtioDiskRw t b write sector s =
        .ok ((submit { s with disk := s.disk.claims idx } ⟨b, write, sector, idx⟩).setPc t
          (.waiting ⟨b, write, sector, idx⟩ s.submitted.length)) := by
      rw [VirtioDisk.virtioDiskRw, takes]
      change await t _ s.submitted.length (submit { s with disk := s.disk.claims idx } _) = _
      rw [await]
      exact if_pos (Function.update_self ..)
    rw [submits]
    have rings := submit_rings (r := ⟨b, write, sector, idx⟩) inv spare.below.1
    exact ⟨inv.calm, rings.frame rfl rfl rfl rfl rfl rfl rfl rfl rfl rfl rfl,
      submit_owners (r := ⟨b, write, sector, idx⟩) inv spare at_⟩

omit [DecidableEq B] in
/-- A call ends when its request is processed. -/
theorem Inv.finish (inv : Inv s) (flies : (s.pc t).flying = some (r, ticket)) (processed : ticket ∈ s.done)
    {d : Disk B} {pc : Fin N → Pc B} (away : pc t = .away)
    (others : ∀ u, u ≠ t → (pc u).flying = (s.pc u).flying ∧ (pc u).buf = (s.pc u).buf)
    (rings : d.availIdx = s.disk.availIdx ∧ d.availRing = s.disk.availRing ∧ d.usedIdx = s.disk.usedIdx ∧
      d.usedRing = s.disk.usedRing ∧ d.used_idx = s.disk.used_idx)
    (out : ∀ k, ¬ r.idx.Has k → d.free k = s.disk.free k ∧ d.desc k = s.disk.desc k ∧ d.ops k = s.disk.ops k ∧
      d.infoB k = s.disk.infoB k ∧ d.infoStatus k = s.disk.infoStatus k) :
    Inv { s with disk := d, pc := pc } := by
  obtain ⟨ring₁, ring₂, ring₃, ring₄, ring₅⟩ := rings
  have owners := inv.owners
  have staying : ∀ u r' k, (pc u).flying = some (r', k) → u ≠ t ∧ (s.pc u).flying = some (r', k) := by
    intro u r' k flies'
    have other : u ≠ t := by
      rintro rfl
      rw [away] at flies'
      cases flies'
    exact ⟨other, (others u other).1 ▸ flies'⟩
  refine ⟨inv.calm, inv.rings.frame ring₁ ring₂ ring₃ ring₄ ring₅ rfl rfl rfl rfl rfl rfl, ?_⟩
  refine ⟨fun u r' k flies' => ?_, fun u v r₁ r₂ k₁ k₂ other flies₁ flies₂ => ?_, fun k below open_ => ?_,
    fun u v b other has => ?_⟩
  · obtain ⟨other, flies'⟩ := staying u r' k flies'
    have owned := owners.owned u r' k flies'
    have apart := owners.apart u t r' r k ticket other flies' flies
    obtain ⟨-, -, ops, info, status⟩ := out _ (apart _ (.inl rfl))
    refine ⟨owned.submitted, ?_, info.trans owned.info, owned.flag, fun member => status.trans (owned.status member)⟩
    exact owned.chain.frame (fun i has => ⟨(out i (apart i has)).1, (out i (apart i has)).2.1⟩) ops
  · exact owners.apart u v r₁ r₂ k₁ k₂ other (staying u r₁ k₁ flies₁).2 (staying v r₂ k₂ flies₂).2
  · obtain ⟨u, r', flies'⟩ := owners.live k below open_
    have other : u ≠ t := by
      rintro rfl
      rw [flies] at flies'
      cases flies'
      exact open_ processed
    exact ⟨u, r', (others u other).1.trans flies'⟩
  · have first : u ≠ t := by
      rintro rfl
      change (pc u).buf = some b at has
      rw [away] at has
      cases has
    by_cases second : v = t
    · subst second
      change (pc v).buf ≠ some b
      rw [away]
      exact nofun
    · change (pc u).buf = some b at has
      change (pc v).buf ≠ some b
      rw [(others u first).2] at has
      rw [(others v second).2]
      exact owners.buffers u v b other has

omit [DecidableEq B] in
theorem Inv.await (inv : Inv s) (at_ : s.pc t = .woken r ticket) : Inv (settle s (VirtioDisk.await t r ticket s)) := by
  have flies : (s.pc t).flying = some (r, ticket) := by rw [at_]; rfl
  have owned := inv.owners.owned t r ticket flies
  by_cases busy : s.flag r.b = true
  · have sleeps : VirtioDisk.await t r ticket s = .ok (s.setPc t (.waiting r ticket)) := by
      rw [VirtioDisk.await, if_pos busy]
    rw [sleeps]
    exact inv.setPc (by rw [at_]; rfl) (by rw [at_]; rfl)
  · have processed : ticket ∈ s.done := by
      by_contra open_
      exact busy (owned.flag.mpr open_)
    let s₁ : State N B :=
      { s with disk := { s.disk with infoB := Function.update s.disk.infoB r.idx.head none } }
    have chain : Chain s₁.disk r := owned.chain.frame (fun _ _ => ⟨rfl, rfl⟩) rfl
    have ends : VirtioDisk.await t r ticket s =
        .ok ((((s₁.freed r.idx.head).freed r.idx.data).freed r.idx.status).setPc t .away) := by
      rw [VirtioDisk.await, if_neg busy]
      change (freeChain r.idx.head s₁ >>= _) = _
      rw [freeChain_ok chain]
      rfl
    rw [ends]
    refine inv.finish flies processed (setPc_same _) (fun u other => ?_) ⟨rfl, rfl, rfl, rfl, rfl⟩ fun k out => ?_
    · rw [Function.update_of_ne other]
      simp only [State.freed, wokenFree_flying, wokenFree_buf]
      exact ⟨rfl, rfl⟩
    · obtain ⟨first, second, third⟩ := Idx.not_has out
      refine ⟨?_, ?_, rfl, Function.update_of_ne first .., rfl⟩
      · exact (Function.update_of_ne third ..).trans ((Function.update_of_ne second ..).trans
          (Function.update_of_ne first ..))
      · exact (Function.update_of_ne third ..).trans ((Function.update_of_ne second ..).trans
          (Function.update_of_ne first ..))

omit [DecidableEq B] in
/-- The completion that `virtio_disk_intr` looks at belongs to a call that waits for it. -/
theorem Inv.next (inv : Inv s) (more : s.disk.used_idx ≠ s.disk.usedIdx) : ∃ t r ticket,
    (s.pc t).flying = some (r, ticket) ∧ s.posted[s.handled.length]? = some (r.idx.head, ticket) ∧
    s.disk.usedRing (s.disk.used_idx % NUM) = r.idx.head := by
  have rings := inv.rings
  have behind : s.handled.length < s.posted.length := by
    rcases Nat.lt_or_ge s.handled.length s.posted.length with behind | level
    · exact behind
    · refine absurd ?_ more
      rw [rings.looked, rings.used, Nat.le_antisymm rings.handled level]
  obtain ⟨e, found⟩ : ∃ e, s.posted[s.handled.length]? = some e := ⟨_, List.getElem?_eq_getElem behind⟩
  have split : s.posted = s.posted.take s.handled.length ++ e :: s.posted.drop (s.handled.length + 1) := by
    obtain ⟨below, same⟩ := List.getElem?_eq_some_iff.mp found
    rw [← same, ← List.drop_eq_getElem_cons below, List.take_append_drop]
  have open_ : e.2 ∉ s.done := by
    have posted := (List.nodup_append.mp rings.nodup).1
    rw [split, List.map_append] at posted
    intro processed
    exact (List.nodup_append.mp posted).2.2 e.2 processed e.2 List.mem_cons_self rfl
  have member : e ∈ s.posted := List.mem_of_getElem? found
  have early := rings.posted_taken (List.mem_map_of_mem member)
  obtain ⟨t, r, flies⟩ := inv.owners.live e.2 (Nat.lt_of_lt_of_le early rings.taken) open_
  obtain ⟨r', known, head⟩ := rings.heads e (List.mem_append_left _ member)
  rw [(inv.owners.owned t r e.2 flies).submitted] at known
  cases known
  refine ⟨t, r, e.2, flies, head ▸ found, ?_⟩
  have slot : s.disk.used_idx % NUM = s.handled.length % NUM := by
    rw [rings.looked, NUM]
    omega
  rw [slot, rings.unlooked _ e (le_refl _) found, head]

theorem wokenOn_flying (b : B) (pc : Pc B) : (pc.wokenOn b).flying = pc.flying := by
  cases pc with
  | waiting r ticket =>
      rw [Pc.wokenOn]
      split <;> rfl
  | _ => rfl

theorem wokenOn_buf (b : B) (pc : Pc B) : (pc.wokenOn b).buf = pc.buf := by
  cases pc with
  | waiting r ticket =>
      rw [Pc.wokenOn]
      split <;> rfl
  | _ => rfl

/-- The state after one completion. -/
def State.processed (s : State N B) (r : Request B) : State N B :=
  { s with
    flag := Function.update s.flag r.b false
    pc := fun t => (s.pc t).wokenOn r.b
    disk := { s.disk with used_idx := (s.disk.used_idx + 1) % 2 ^ 16 }
    handled := s.handled ++ [(r.idx.head, r.b)] }

theorem processed_done (found : s.posted[s.handled.length]? = some (r.idx.head, ticket)) :
    (s.processed r).done = s.done ++ [ticket] := by
  change (s.posted.take (s.handled ++ [(r.idx.head, r.b)]).length).map (·.2) = s.done ++ [ticket]
  rw [List.length_append, List.length_singleton, List.take_add_one, found, List.map_append]
  rfl

theorem processed_rings (inv : Inv s) (submitted : s.submitted[ticket]? = some r)
    (found : s.posted[s.handled.length]? = some (r.idx.head, ticket)) : Rings (s.processed r) := by
  have rings := inv.rings
  have behind := (List.getElem?_eq_some_iff.mp found).1
  have longer : (s.handled ++ [(r.idx.head, r.b)]).length = s.handled.length + 1 := by simp
  refine ⟨rings.available, rings.seen, rings.used, ?_, rings.taken, ?_, rings.once, rings.heads, rings.unconsumed,
    ?_, ?_⟩
  · change (s.disk.used_idx + 1) % 2 ^ 16 = (s.handled ++ [(r.idx.head, r.b)]).length % 2 ^ 16
    rw [rings.looked, longer]
    omega
  · change (s.handled ++ [(r.idx.head, r.b)]).length ≤ s.posted.length
    rw [longer]
    exact behind
  · intro j e from_ known
    change (s.handled ++ [(r.idx.head, r.b)]).length ≤ j at from_
    rw [longer] at from_
    exact rings.unlooked j e (by omega) known
  · intro j h known
    rcases getElem?_snoc.mp known with old | ⟨last, same⟩
    · exact rings.answers j h old
    · exact ⟨(r.idx.head, ticket), r, last ▸ found, submitted, same.symm⟩

theorem processed_owners (inv : Inv s) (flies : (s.pc t).flying = some (r, ticket))
    (found : s.posted[s.handled.length]? = some (r.idx.head, ticket)) : Owners (s.processed r) := by
  have owners := inv.owners
  have done := processed_done (s := s) found
  refine ⟨fun u r' k flies' => ?_, fun u v r₁ r₂ k₁ k₂ other flies₁ flies₂ => ?_, fun k below open_ => ?_,
    fun u v b other has => ?_⟩
  · rw [State.processed, wokenOn_flying] at flies'
    have owned := owners.owned u r' k flies'
    refine ⟨owned.submitted, owned.chain.frame (fun _ _ => ⟨rfl, rfl⟩) rfl, owned.info, ?_, owned.status⟩
    rw [done]
    change Function.update s.flag r.b false r'.b = true ↔ k ∉ s.done ++ [ticket]
    by_cases here : u = t
    · subst here
      rw [flies] at flies'
      cases flies'
      rw [Function.update_self]
      simp
    · have buffer : r'.b ≠ r.b := by
        intro same
        refine owners.buffers u t r'.b here (flying_buf flies') ?_
        rw [same]
        exact flying_buf flies
      have other : k ≠ ticket := by
        rintro rfl
        exact here (owners.tickets flies' flies)
      rw [Function.update_of_ne buffer, owned.flag]
      simp [other]
  · rw [State.processed, wokenOn_flying] at flies₁ flies₂
    exact owners.apart u v r₁ r₂ k₁ k₂ other flies₁ flies₂
  · rw [done] at open_
    obtain ⟨u, r', flies'⟩ := owners.live k below fun wrong => open_ (List.mem_append_left _ wrong)
    exact ⟨u, r', (wokenOn_flying _ _).trans flies'⟩
  · rw [State.processed, wokenOn_buf] at has ⊢
    exact owners.buffers u v b other has

/-- A turn of the loop processes the completion of a call that waits for it. -/
theorem Inv.completes (inv : Inv s) (more : s.disk.used_idx ≠ s.disk.usedIdx) : ∃ t r ticket,
    (s.pc t).flying = some (r, ticket) ∧ s.posted[s.handled.length]? = some (r.idx.head, ticket) ∧
    VirtioDisk.virtioDiskIntr s = .ok (s.processed r) := by
  obtain ⟨t, r, ticket, flies, found, head⟩ := inv.next more
  have owned := inv.owners.owned t r ticket flies
  have status : s.disk.infoStatus r.idx.head = 0 :=
    owned.status (List.mem_map_of_mem (f := (·.2)) (List.mem_of_getElem? found))
  refine ⟨t, r, ticket, flies, found, ?_⟩
  rw [VirtioDisk.virtioDiskIntr, if_pos more, head]
  dsimp only
  rw [status, owned.info]
  rfl

theorem Inv.virtioDiskIntr (inv : Inv s) : Inv (settle s (VirtioDisk.virtioDiskIntr s)) := by
  by_cases more : s.disk.used_idx ≠ s.disk.usedIdx
  · obtain ⟨t, r, ticket, flies, found, processes⟩ := inv.completes more
    have submitted := (inv.owners.owned t r ticket flies).submitted
    rw [processes]
    exact ⟨inv.calm, processed_rings inv submitted found, processed_owners inv flies found⟩
  · have ends : VirtioDisk.virtioDiskIntr s = .ok { s with handling := false } := by
      rw [VirtioDisk.virtioDiskIntr, if_neg more]
    rw [ends]
    exact ⟨inv.calm, inv.rings.frame rfl rfl rfl rfl rfl rfl rfl rfl rfl rfl rfl,
      inv.owners.frame (fun _ => rfl) (fun _ => rfl) rfl rfl rfl rfl rfl rfl fun _ => id⟩

omit [DecidableEq B] in
theorem Inv.consume (inv : Inv s) (consumes : VirtioDisk.consume s = some s') : Inv s' := by
  unfold VirtioDisk.consume at consumes
  split at consumes
  · rename_i more
    cases consumes
    have rings := inv.rings
    have behind : s.taken < s.submitted.length := by
      rcases Nat.lt_or_ge s.taken s.submitted.length with behind | level
      · exact behind
      · refine absurd ?_ more
        rw [rings.seen, rings.available, Nat.le_antisymm rings.taken level]
    have slot : s.seen % NUM = s.taken % NUM := by
      rw [rings.seen, NUM]
      omega
    refine ⟨inv.calm, ⟨rings.available, ?_, rings.used, rings.looked, behind, rings.handled, ?_, ?_, ?_,
      rings.unlooked, rings.answers⟩, ?_⟩
    · change (s.seen + 1) % 2 ^ 16 = (s.taken + 1) % 2 ^ 16
      rw [rings.seen]
      omega
    · change (s.posted.map (·.2) ++
        (s.working ++ [(s.disk.availRing (s.seen % NUM), s.taken)]).map (·.2)).Perm (List.range (s.taken + 1))
      rw [List.map_append, ← List.append_assoc, List.range_succ]
      exact rings.once.append_right _
    · intro e member
      rcases List.mem_append.mp member with posted | working
      · exact rings.heads e (List.mem_append_left _ posted)
      · rcases List.mem_append.mp working with old | new
        · exact rings.heads e (List.mem_append_right _ old)
        · rw [List.mem_singleton.mp new, slot]
          have known := List.getElem?_eq_getElem behind
          exact ⟨_, known, rings.unconsumed _ _ (le_refl _) known⟩
    · intro j r from_ known
      change s.taken + 1 ≤ j at from_
      exact rings.unconsumed j r (by omega) known
    · exact inv.owners.frame (fun _ => rfl) (fun _ => rfl) rfl rfl rfl rfl rfl rfl fun _ => id
  · cases consumes

omit [DecidableEq B] in
/-- The device writes the status of the request whose chain it follows. -/
theorem Owned.writeStatus (owned : Owned s r ticket) :
    VirtioDisk.writeStatus s.disk r.idx.head = Function.update s.disk.infoStatus r.idx.head 0 := by
  simp only [VirtioDisk.writeStatus, owned.chain.head, owned.chain.data, owned.chain.status]

omit [DecidableEq B] in
theorem Inv.post (inv : Inv s) {k : Nat} (posts : VirtioDisk.post s k = some s') : Inv s' := by
  obtain ⟨e, found, rfl⟩ := Option.map_eq_some_iff.mp posts
  have rings := inv.rings
  have owners := inv.owners
  have few := inv.few
  have length := rings.length
  have taken := rings.taken
  have member : e ∈ s.working := List.mem_of_getElem? found
  obtain ⟨within, at_⟩ := List.getElem?_eq_some_iff.mp found
  have perm : (e :: s.working.eraseIdx k).Perm s.working := at_ ▸ List.getElem_cons_eraseIdx_perm within
  have unposted : e.2 ∉ s.posted.map (·.2) := fun wrong =>
    (List.nodup_append.mp rings.nodup).2.2 e.2 wrong e.2 (List.mem_map_of_mem member) rfl
  have early : e.2 < s.taken := List.mem_range.mp
    (rings.once.subset (List.mem_append_right _ (List.mem_map_of_mem member)))
  obtain ⟨t, r, flies⟩ := owners.live e.2 (Nat.lt_of_lt_of_le early taken) fun wrong => unposted (done_posted wrong)
  have owned := owners.owned t r e.2 flies
  have head : e.1 = r.idx.head := by
    obtain ⟨r', known, head⟩ := rings.heads e (List.mem_append_right _ member)
    rw [owned.submitted] at known
    cases known
    exact head
  have room : ∀ j, s.handled.length ≤ j → j < s.posted.length → j % NUM ≠ s.disk.usedIdx % NUM := by
    intro j from_ below
    rw [rings.used, NUM]
    omega
  have longer : (s.posted ++ [e]).length = s.posted.length + 1 := by simp
  refine ⟨inv.calm, ⟨rings.available, rings.seen, ?_, rings.looked, rings.taken, ?_, ?_, ?_, rings.unconsumed,
    ?_, ?_⟩, ?_⟩
  · change (s.disk.usedIdx + 1) % 2 ^ 16 = (s.posted ++ [e]).length % 2 ^ 16
    rw [rings.used, longer]
    omega
  · change s.handled.length ≤ (s.posted ++ [e]).length
    rw [longer]
    exact Nat.le_succ_of_le rings.handled
  · change ((s.posted ++ [e]).map (·.2) ++ (s.working.eraseIdx k).map (·.2)).Perm (List.range s.taken)
    refine List.Perm.trans ?_ rings.once
    rw [List.map_append, List.append_assoc]
    exact List.Perm.append_left _ (perm.map Prod.snd)
  · intro f among
    refine rings.heads f ?_
    rcases List.mem_append.mp among with posted | working
    · rcases List.mem_append.mp posted with old | new
      · exact List.mem_append_left _ old
      · exact List.mem_append_right _ (List.mem_singleton.mp new ▸ member)
    · exact List.mem_append_right _ (List.eraseIdx_subset working)
  · intro j f from_ known
    change Function.update s.disk.usedRing (s.disk.usedIdx % NUM) e.1 (j % NUM) = f.1
    rcases getElem?_snoc.mp known with old | ⟨last, same⟩
    · rw [Function.update_of_ne (room j from_ (List.getElem?_eq_some_iff.mp old).1)]
      exact rings.unlooked j f from_ old
    · have slot : j % NUM = s.disk.usedIdx % NUM := by
        change j = s.posted.length at last
        rw [rings.used, NUM]
        omega
      rw [slot, Function.update_self, same]
  · intro j h known
    obtain ⟨f, r', posted, submitted, same⟩ := rings.answers j h known
    exact ⟨f, r', getElem?_snoc.mpr (.inl posted), submitted, same⟩
  · have done : ((s.posted ++ [e]).take s.handled.length).map (·.2) = s.done := by
      rw [List.take_append_of_le_length rings.handled]
      rfl
    refine ⟨fun u r' k' flies' => ?_, owners.apart, fun k' below open_ => ?_, owners.buffers⟩
    · have owned' := owners.owned u r' k' flies'
      refine ⟨owned'.submitted, owned'.chain.frame (fun _ _ => ⟨rfl, rfl⟩) rfl, owned'.info, ?_, fun among => ?_⟩
      · change s.flag r'.b = true ↔ k' ∉ ((s.posted ++ [e]).take s.handled.length).map (·.2)
        rw [done]
        exact owned'.flag
      · change VirtioDisk.writeStatus s.disk e.1 r'.idx.head = 0
        rw [head, owned.writeStatus]
        by_cases same : r'.idx.head = r.idx.head
        · rw [same, Function.update_self]
        · rw [Function.update_of_ne same]
          refine owned'.status ?_
          change k' ∈ (s.posted ++ [e]).map (·.2) at among
          rw [List.map_append] at among
          refine (List.mem_append.mp among).resolve_right fun new => same ?_
          have ticket : k' = e.2 := List.mem_singleton.mp new
          subst ticket
          have here := owners.tickets flies' flies
          subst here
          rw [flies] at flies'
          cases flies'
          rfl
    · refine owners.live k' below fun wrong => open_ ?_
      change k' ∈ ((s.posted ++ [e]).take s.handled.length).map (·.2)
      rw [done]
      exact wrong

theorem step_inv {label : Label N B} (inv : Inv s) (stepped : step s label = some s') : Inv s' := by
  rw [step, inv.calm] at stepped
  change move s label = some s' at stepped
  cases label with
  | call t b write blockno =>
      rw [move] at stepped
      split at stepped
      · rename_i at_
        split at stepped
        · rename_i alone
          cases stepped
          exact inv.call at_ alone
        · cases stepped
      · cases stepped
  | rw t =>
      rw [move] at stepped
      split at stepped
      · rename_i at_
        split at stepped
        · cases stepped
        · cases stepped
          exact inv.virtioDiskRw at_
      · cases stepped
  | resume t =>
      rw [move] at stepped
      split at stepped
      · rename_i at_
        split at stepped
        · cases stepped
        · cases stepped
          exact inv.await at_
      · cases stepped
  | wake t =>
      rw [move] at stepped
      split at stepped
      · rename_i at_
        cases stepped
        exact inv.setPc (by rw [at_]; rfl) (by rw [at_]; rfl)
      · rename_i at_
        cases stepped
        exact inv.setPc (by rw [at_]; rfl) (by rw [at_]; rfl)
      · cases stepped
  | intr =>
      rw [move] at stepped
      split at stepped
      · cases stepped
      · cases stepped
        exact ⟨inv.calm, inv.rings.frame rfl rfl rfl rfl rfl rfl rfl rfl rfl rfl rfl,
          inv.owners.frame (fun _ => rfl) (fun _ => rfl) rfl rfl rfl rfl rfl rfl fun _ => id⟩
  | handle =>
      rw [move] at stepped
      split at stepped
      · cases stepped
        exact inv.virtioDiskIntr
      · cases stepped
  | consume => exact inv.consume stepped
  | post k => exact inv.post stepped

end Invariant

section Matching

variable [DecidableEq B] {s : State N B}

/-- The difference of two `uint16`s. -/
def dist (a b : Nat) : Nat := (((b : Int) - a) % 2 ^ 16).toNat

/-- Completions and requests at one moment. -/
structure Matched (s : State N B) : Prop where
  /-- Neither `free_desc` nor anything else panicked. -/
  calm : s.panicked = none
  /-- The device sees the chain of every request under way with the buffer of its call, and
  `virtio_disk_intr` will find that buffer. -/
  chains : ∀ t r ticket, (s.pc t).flying = some (r, ticket) →
    s.submitted[ticket]? = some r ∧ Chain s.disk r ∧ s.disk.infoB r.idx.head = some r.b
  /-- No two of them share a descriptor. -/
  disjoint : ∀ t u r r' ticket ticket', t ≠ u → (s.pc t).flying = some (r, ticket) →
    (s.pc u).flying = some (r', ticket') → r.idx.Apart r'.idx ∧ ticket ≠ ticket'
  /-- A flag is cleared once the device completed that very request. -/
  cleared : ∀ t r ticket, (s.pc t).flying = some (r, ticket) →
    (s.flag r.b = false ↔ ticket ∈ s.done) ∧ (s.flag r.b = false → (r.idx.head, ticket) ∈ s.posted)
  /-- The device posted every request at most once. -/
  posted : (s.posted.map (·.2)).Nodup
  /-- The completions were processed one by one in their order, each for the buffer of its
  request. -/
  handled : ∀ (j : Nat) h, s.handled[j]? = some h → ∃ (e : Nat × Nat) (r : Request B), s.posted[j]? = some e ∧
    s.submitted[e.2]? = some r ∧ h = (e.1, r.b)
  /-- `virtio_disk_intr` leaves none of them. -/
  leaves : ∀ s', step s .handle = some s' → s'.handling = false → s'.handled.length = s'.posted.length
  /-- The used ring holds what is not yet processed, and the next entry goes elsewhere. -/
  used : ∀ j < dist s.disk.used_idx s.disk.usedIdx,
    (s.disk.used_idx + j) % NUM ≠ s.disk.usedIdx % NUM ∧
    ∃ e, s.posted[s.handled.length + j]? = some e ∧ s.disk.usedRing ((s.disk.used_idx + j) % NUM) = e.1
  /-- So does the avail ring with what the device did not take. -/
  avail : ∀ j < dist s.seen s.disk.availIdx,
    (s.seen + j) % NUM ≠ s.disk.availIdx % NUM ∧
    ∃ r, s.submitted[s.taken + j]? = some r ∧ s.disk.availRing ((s.seen + j) % NUM) = r.idx.head

omit [DecidableEq B] in
theorem fresh_inv : Inv (fresh : State N B) where
  calm := rfl
  rings := ⟨rfl, rfl, rfl, rfl, le_refl _, le_refl _, List.Perm.refl _, by simp [fresh], by simp [fresh],
    by simp [fresh], by simp [fresh]⟩
  owners := by
    refine ⟨fun _ _ _ wrong => ?_, fun _ _ _ _ _ _ _ wrong => ?_, fun _ wrong => ?_, fun _ _ _ _ wrong => ?_⟩
    · cases wrong
    · cases wrong
    · exact absurd wrong (Nat.not_lt_zero _)
    · cases wrong

omit [DecidableEq B] in
theorem Inv.used_entries (inv : Inv s) {j : Nat} (below : j < dist s.disk.used_idx s.disk.usedIdx) :
    (s.disk.used_idx + j) % NUM ≠ s.disk.usedIdx % NUM ∧
    ∃ e, s.posted[s.handled.length + j]? = some e ∧ s.disk.usedRing ((s.disk.used_idx + j) % NUM) = e.1 := by
  have few := inv.few
  have handled := inv.rings.handled
  have length := inv.rings.length
  have taken := inv.rings.taken
  rw [inv.rings.looked, inv.rings.used] at below ⊢
  have within : s.handled.length + j < s.posted.length := by
    simp only [dist] at below
    omega
  have slot : (s.handled.length % 2 ^ 16 + j) % NUM = (s.handled.length + j) % NUM := by
    rw [NUM]
    omega
  refine ⟨by rw [NUM]; omega, _, List.getElem?_eq_getElem within, ?_⟩
  rw [slot]
  exact inv.rings.unlooked _ _ (Nat.le_add_right ..) (List.getElem?_eq_getElem within)

omit [DecidableEq B] in
theorem Inv.avail_entries (inv : Inv s) {j : Nat} (below : j < dist s.seen s.disk.availIdx) :
    (s.seen + j) % NUM ≠ s.disk.availIdx % NUM ∧
    ∃ r, s.submitted[s.taken + j]? = some r ∧ s.disk.availRing ((s.seen + j) % NUM) = r.idx.head := by
  have few := inv.few_taken
  have taken := inv.rings.taken
  rw [inv.rings.seen, inv.rings.available] at below ⊢
  have within : s.taken + j < s.submitted.length := by
    simp only [dist] at below
    omega
  have slot : (s.taken % 2 ^ 16 + j) % NUM = (s.taken + j) % NUM := by
    rw [NUM]
    omega
  refine ⟨by rw [NUM]; omega, _, List.getElem?_eq_getElem within, ?_⟩
  rw [slot]
  exact inv.rings.unconsumed _ _ (Nat.le_add_right ..) (List.getElem?_eq_getElem within)

theorem Inv.leaves (inv : Inv s) {s' : State N B} (stepped : step s .handle = some s')
    (left : s'.handling = false) : s'.handled.length = s'.posted.length := by
  rw [step, inv.calm] at stepped
  change (if s.handling then some (settle s (VirtioDisk.virtioDiskIntr s)) else none) = some s' at stepped
  split at stepped
  · rename_i handling
    cases stepped
    by_cases more : s.disk.used_idx ≠ s.disk.usedIdx
    · obtain ⟨t, r, ticket, -, -, processes⟩ := inv.completes more
      rw [processes] at left
      change s.handling = false at left
      rw [handling] at left
      cases left
    · have few := inv.few
      have handled := inv.rings.handled
      have length := inv.rings.length
      have taken := inv.rings.taken
      rw [VirtioDisk.virtioDiskIntr, if_neg more]
      change s.handled.length = s.posted.length
      rw [not_not, inv.rings.looked, inv.rings.used] at more
      omega
  · cases stepped

/-- The driver matches completions to requests, whatever the order of calls, interrupts and
the steps of the device. -/
theorem completions_match {labels : List (Label N B)} (ran : run step fresh labels = some s) : Matched s := by
  have inv : Inv s := run_invariant step (fun _ s => Inv s) fresh_inv
    (fun _ _ _ _ _ inv stepped => step_inv inv stepped) ran
  have owners := inv.owners
  refine ⟨inv.calm, fun t r ticket flies => ?_, fun t u r r' ticket ticket' other flies flies' => ⟨?_, ?_⟩,
    fun t r ticket flies => ?_, (List.nodup_append.mp inv.rings.nodup).1, inv.rings.answers,
    fun _ stepped left => inv.leaves stepped left, fun _ below => inv.used_entries below,
    fun _ below => inv.avail_entries below⟩
  · have owned := owners.owned t r ticket flies
    exact ⟨owned.submitted, owned.chain, owned.info⟩
  · exact owners.apart t u r r' ticket ticket' other flies flies'
  · rintro rfl
    exact other (owners.tickets flies flies')
  · have owned := owners.owned t r ticket flies
    have clear : s.flag r.b = false ↔ ticket ∈ s.done := by
      rw [← Bool.not_eq_true, owned.flag, not_not]
    refine ⟨clear, fun cleared => ?_⟩
    obtain ⟨e, posted, same⟩ := List.mem_map.mp (done_posted (clear.mp cleared))
    obtain ⟨r', known, head⟩ := inv.rings.heads e (List.mem_append_left _ posted)
    rw [same, owned.submitted] at known
    cases known
    rw [← head, ← same]
    exact posted

/-- One request from the call to the cleared flag. -/
def oneRequest : List (Label 1 Nat) :=
  [.call 0 5 false 7, .rw 0, .consume, .post 0, .intr, .handle, .handle]

theorem oneRequest_matches : ∃ s : State 1 Nat, run step fresh oneRequest = some s ∧
    s.handled = [(0, 5)] ∧ s.flag 5 = false ∧ Matched s := by
  have runs : ((run step fresh oneRequest).any fun s : State 1 Nat =>
      decide (s.handled = [(0, 5)] ∧ s.flag 5 = false)) = true := by
    decide +kernel
  obtain ⟨s, ran, checks⟩ := (Option.any_eq_true _ _).mp runs
  obtain ⟨handled, cleared⟩ := of_decide_eq_true checks
  exact ⟨s, ran, handled, cleared, completions_match ran⟩

end Matching

end PaddleOs.VirtioDisk
