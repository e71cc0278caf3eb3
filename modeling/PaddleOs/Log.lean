import PaddleOs.Bio

/-!
The write-ahead log of `kernel/log.c`. The on-disk header is the block
`log.start`: the word at offset 0 is `n`, the word at `4 * (i + 1)` is
`block[i]`. The gate that `begin_op`, `end_op` and `log_write` keep under
`log.lock` is stated on `Log` alone, so that the same definitions run one
process after another here and interleaved in `LogGate`.
-/

namespace PaddleOs

open Foundation.LittleEndian
open Foundation.Outcome

def headerCount (data : Block) : Int := getInt data 0

def headerBlock (data : Block) (index : Nat) : Nat := getLE data (4 * (index + 1)) 4

/-- The first `count` entries of `block` stored over the header's array. -/
def putHeaderBlocks (block : Nat → Nat) : Nat → Block → Block
  | 0, data => data
  | count + 1, data =>
      putLE (putHeaderBlocks block count data) (4 * (count + 1)) 4 (block count)

def putHeader (lh : LogHeader) (data : Block) : Block :=
  putHeaderBlocks lh.block lh.n.toNat (putInt data 0 lh.n)

/-- The copy of the on-disk header into `log.lh`. -/
def Log.withHeader (log : Log) (data : Block) : Log :=
  { log with lh :=
    { n := headerCount data
      block := fun i =>
        if (i : Int) < headerCount data then headerBlock data i else log.lh.block i } }

def readHead : StoreM Unit := do
  let log := (← get).log
  let b ← bread log.dev log.start
  let data := ((← get).buf b).data
  modify fun s => { s with log := s.log.withHeader data }
  brelse b

def writeHead : StoreM Unit := do
  let log := (← get).log
  let b ← bread log.dev log.start
  setData b (putHeader log.lh ((← get).buf b).data)
  bwrite b
  brelse b

def installTransStep (recovering : Bool) (tail : Nat) : StoreM Unit := do
  let log := (← get).log
  let lbuf ← bread log.dev (log.start + tail + 1)
  let dbuf ← bread log.dev (log.lh.block tail)
  setData dbuf ((← get).buf lbuf).data
  bwrite dbuf
  if !recovering then bunpin dbuf
  brelse lbuf
  brelse dbuf

def installTrans (recovering : Bool) : StoreM Unit := do
  loop (installTransStep recovering) 0 (← get).log.lh.n.toNat

def Log.cleared (log : Log) : Log := { log with lh := { log.lh with n := 0 } }

/-- `log.lh.n = 0`. -/
def clearHeader : StoreM Unit := modify fun s => { s with log := s.log.cleared }

def recoverFromLog : StoreM Unit := do
  readHead
  installTrans true
  clearHeader
  writeHead

def writeLogStep (tail : Nat) : StoreM Unit := do
  let log := (← get).log
  let toBuf ← bread log.dev (log.start + tail + 1)
  let fromBuf ← bread log.dev (log.lh.block tail)
  setData toBuf ((← get).buf fromBuf).data
  bwrite toBuf
  brelse fromBuf
  brelse toBuf

def writeLog : StoreM Unit := do
  loop writeLogStep 0 (← get).log.lh.n.toNat

def commit : StoreM Unit := do
  if (← get).log.lh.n > 0 then
    writeLog
    writeHead
    installTrans false
    clearHeader
    writeHead

/-- `begin_op` goes past its waiting loop. -/
def Log.admits (log : Log) : Bool :=
  !log.committing && decide (¬ log.lh.n + (log.outstanding + 1) * MAXOPBLOCKS > LOGSIZE)

def Log.begin (log : Log) : Log := { log with outstanding := log.outstanding + 1 }

/-- The first locked stretch of `end_op`; the flag is `do_commit`. -/
def Log.finish (log : Log) : Except Stop (Log × Bool) :=
  let log := { log with outstanding := log.outstanding - 1 }
  if log.committing then .error .logCommitting
  else if log.outstanding = 0 then .ok ({ log with committing := true }, true)
  else .ok (log, false)

/-- The second locked stretch of `end_op`, after `commit`. -/
def Log.committed (log : Log) : Log := { log with committing := false }

/-- The index `log_write` stops its search at: the first recorded position, or `n`. -/
def LogHeader.position (lh : LogHeader) (blockno : Nat) : Nat :=
  ((List.range lh.n.toNat).find? fun i => lh.block i == blockno).getD lh.n.toNat

/-- `log_write` on the header; the flag says that the buffer is to be pinned. -/
def Log.record (log : Log) (blockno : Nat) : Except Stop (Log × Bool) :=
  if log.lh.n ≥ LOGSIZE ∨ log.lh.n ≥ log.size - 1 then .error .tooBigTransaction
  else if log.outstanding < 1 then .error .logWriteOutsideTrans
  else
    let i := log.lh.position blockno
    let block := Function.update log.lh.block i blockno
    if i = log.lh.n.toNat then
      .ok ({ log with lh := { n := log.lh.n + 1, block } }, true)
    else
      .ok ({ log with lh := { log.lh with block } }, false)

def beginOp : StoreM Unit := do
  let s ← get
  if s.log.admits then set { s with log := s.log.begin } else throw .asleep

def endOp : StoreM Unit := do
  let s ← get
  match s.log.finish with
  | .error stop => throw stop
  | .ok (log, doCommit) =>
      set { s with log }
      if doCommit then
        commit
        modify fun s => { s with log := s.log.committed }

def logWrite (b : Fin NBUF) : StoreM Unit := do
  let s ← get
  match s.log.record (s.buf b).blockno with
  | .error stop => throw stop
  | .ok (log, pin) =>
      set { s with log }
      if pin then bpin b

/-- `initlog` on a superblock's `logstart` and `nlog`. -/
def initlog (dev logstart nlog : Nat) : StoreM Unit := do
  modify fun s => { s with log := { s.log with start := logstart, size := nlog, dev } }
  recoverFromLog

section Header

theorem withHeader_count (log : Log) (data : Block) :
    (log.withHeader data).lh.n = headerCount data := by
  cases log
  rfl

theorem withHeader_start (log : Log) (data : Block) :
    (log.withHeader data).start = log.start := by
  cases log
  rfl

theorem withHeader_dev (log : Log) (data : Block) : (log.withHeader data).dev = log.dev := by
  cases log
  rfl

theorem withHeader_block (log : Log) (data : Block) (index : Nat)
    (inside : (index : Int) < headerCount data) :
    (log.withHeader data).lh.block index = headerBlock data index := by
  simp [Log.withHeader, inside]

theorem putHeaderBlocks_count (block : Nat → Nat) (count : Nat) (data : Block) :
    getInt (putHeaderBlocks block count data) 0 = getInt data 0 := by
  induction count with
  | zero => rfl
  | succ count ih =>
      rw [putHeaderBlocks, getInt_putLE_disjoint _ _ _ _ _ (by omega), ih]

theorem putHeaderBlocks_block (block : Nat → Nat) (count : Nat) (data : Block)
    (words : ∀ i < count, block i < 2 ^ 32) (index : Nat) (below : index < count) :
    headerBlock (putHeaderBlocks block count data) index = block index := by
  induction count with
  | zero => omega
  | succ count ih =>
      by_cases last : index = count
      · subst last
        exact getLE_putLE_same _ _ _ _ (by simpa using words index below)
      · have earlier := ih (fun i small => words i (by omega)) (by omega)
        rw [headerBlock, putHeaderBlocks, getLE_putLE_disjoint _ _ _ _ _ _ (by omega)]
        exact earlier

/-- What `write_head` stores is what `read_head` gets back. -/
theorem headerCount_putHeader (lh : LogHeader) (data : Block) (nonneg : 0 ≤ lh.n)
    (small : lh.n ≤ LOGSIZE) : headerCount (putHeader lh data) = lh.n := by
  have bound : lh.n ≤ 30 := small
  rw [headerCount, putHeader, putHeaderBlocks_count,
    getInt_putInt_same _ _ _ (by omega) (by omega)]

theorem headerBlock_putHeader (lh : LogHeader) (data : Block)
    (words : ∀ i < lh.n.toNat, lh.block i < 2 ^ 32) (index : Nat)
    (below : index < lh.n.toNat) : headerBlock (putHeader lh data) index = lh.block index :=
  putHeaderBlocks_block lh.block lh.n.toNat _ words index below

end Header

end PaddleOs
