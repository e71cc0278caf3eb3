import PaddleOs.FsLayout
import PaddleOs.Log

/-!
Blocks and inodes of `kernel/fs.c`. The functions are written over a block layer:
what `bread`, a store into `b->data`, `log_write`, `brelse`, `begin_op` and
`end_op` do to the store below. `Store` is the buffer cache and the log of
`bio.c` and `log.c`; `Image` has the same blocks without cache and log.

A `struct inode *` is an index of `itable.inode`. A sleep-lock is a flag, since
nothing else runs; taking it twice leaves the caller asleep. A user address is
not looked at here: `accepts k m` says whether the copy of `m` bytes to the
`k`-th byte of the caller's buffer succeeds, `source k m` what a copy of `m` bytes
from there delivers and whether it succeeds.
-/

namespace PaddleOs

open Foundation.Outcome Foundation.LittleEndian

class BlockLayer (W : Type) where
  Handle : Type
  bread : Nat → Nat → EStateM Stop W Handle
  data : W → Handle → Block
  setData : Handle → Block → EStateM Stop W Unit
  logWrite : Handle → EStateM Stop W Unit
  brelse : Handle → EStateM Stop W Unit
  beginOp : EStateM Stop W Unit
  endOp : EStateM Stop W Unit

instance : BlockLayer Store where
  Handle := Fin NBUF
  bread := bread
  data s b := (s.buf b).data
  setData := setData
  logWrite := logWrite
  brelse := brelse
  beginOp := beginOp
  endOp := endOp

/-- The blocks as `bread` returns them. -/
structure Image where
  block : Nat → Block
  outstanding : Int

instance : BlockLayer Image where
  Handle := Nat
  bread _ blockno := pure blockno
  data s blockno := s.block blockno
  setData blockno data := modify fun s => { s with block := Function.update s.block blockno data }
  logWrite _ := pure ()
  brelse _ := pure ()
  beginOp := modify fun s => { s with outstanding := s.outstanding + 1 }
  endOp := modify fun s => { s with outstanding := s.outstanding - 1 }

namespace Fs

/-- An entry of `itable`. -/
structure Inode extends Dinode where
  dev : Nat
  inum : Nat
  ref : Int
  locked : Bool
  valid : Bool

abbrev Slot := Fin NINODE

structure State (W : Type) where
  store : W
  sb : Superblock
  inode : Slot → Inode

abbrev FsM (W : Type) := EStateM Stop (State W)

variable {W : Type} [BlockLayer W]

open BlockLayer (Handle)

def onStore {α : Type} (run : EStateM Stop W α) : FsM W α :=
  zoom State.store (fun s store => { s with store }) id run

def bread (dev blockno : Nat) : FsM W (Handle W) := onStore (BlockLayer.bread dev blockno)

def data (bp : Handle W) : FsM W Block := do return BlockLayer.data (← get).store bp

def setData (bp : Handle W) (data : Block) : FsM W Unit := onStore (BlockLayer.setData bp data)

def logWrite (bp : Handle W) : FsM W Unit := onStore (BlockLayer.logWrite bp)

def brelse (bp : Handle W) : FsM W Unit := onStore (BlockLayer.brelse bp)

def beginOp : FsM W Unit := onStore BlockLayer.beginOp

def endOp : FsM W Unit := onStore BlockLayer.endOp

def State.setInode (s : State W) (k : Slot) (ip : Inode) : State W :=
  { s with inode := Function.update s.inode k ip }

/-- A store of the caller into `*ip`. -/
def modifyInode (k : Slot) (change : Inode → Inode) : FsM W Unit :=
  modify fun s => s.setInode k (change (s.inode k))

def inode (k : Slot) : FsM W Inode := do return (← get).inode k

def readsb (dev : Nat) : FsM W Superblock := do
  let bp ← bread dev 1
  let data ← data bp
  brelse bp
  return getSuperblock data

def fsinit (dev : Nat) : FsM Store Unit := do
  let sb ← readsb dev
  modify fun s => { s with sb }
  if sb.magic ≠ FSMAGIC then throw .invalidFileSystem
  onStore (initlog dev sb.logstart sb.nlog)

def bzero (dev bno : Nat) : FsM W Unit := do
  let bp ← bread dev bno
  setData bp zeroBlock
  logWrite bp
  brelse bp

/-- The outer loop of `balloc` from the bitmap block of `b`, `count` blocks on. -/
def ballocFrom (dev : Nat) : Nat → Nat → FsM W Nat
  | _, 0 => return 0
  | b, count + 1 => do
      let size := (← get).sb.size
      let bp ← bread dev ((← get).sb.BBLOCK b)
      let data ← data bp
      match (List.range (min BPB (size - b))).find? fun bi => !bitSet data bi with
      | some bi =>
          setData bp (setBit data bi)
          logWrite bp
          brelse bp
          bzero dev (b + bi)
          return b + bi
      | none =>
          brelse bp
          ballocFrom dev (b + BPB) count

def balloc (dev : Nat) : FsM W Nat := do
  ballocFrom dev 0 (((← get).sb.size + BPB - 1) / BPB)

def bfree (dev b : Nat) : FsM W Unit := do
  let bp ← bread dev ((← get).sb.BBLOCK b)
  let bi := b % BPB
  let data ← data bp
  if bitSet data bi then
    setData bp (clearBit data bi)
    logWrite bp
    brelse bp
  else throw .freeingFreeBlock

/-- The slot `iget` stops at: one in use for the inode. -/
def State.cached (s : State W) (dev inum : Nat) : Option Slot :=
  (List.finRange NINODE).find? fun k =>
    decide ((s.inode k).ref > 0 ∧ (s.inode k).dev = dev ∧ (s.inode k).inum = inum)

def State.empty (s : State W) : Option Slot :=
  (List.finRange NINODE).find? fun k => decide ((s.inode k).ref = 0)

def iget (dev inum : Nat) : FsM W Slot := do
  let s ← get
  match s.cached dev inum with
  | some k =>
      modifyInode k fun ip => { ip with ref := ip.ref + 1 }
      return k
  | none =>
      match s.empty with
      | none => throw .igetNoInodes
      | some k =>
          modifyInode k fun ip => { ip with dev, inum, ref := 1, valid := false }
          return k

def idup (k : Slot) : FsM W Slot := do
  modifyInode k fun ip => { ip with ref := ip.ref + 1 }
  return k

/-- The loop of `ialloc` from `inum`, `count` inodes on. -/
def iallocFrom (dev : Nat) (type : Int16) : Nat → Nat → FsM W (Option Slot)
  | _, 0 => return none
  | inum, count + 1 => do
      let bp ← bread dev ((← get).sb.IBLOCK inum)
      let data ← data bp
      if (getDinode data (dinodeOffset inum)).type = 0 then
        setData bp (putDinode data (dinodeOffset inum) (Dinode.blank type))
        logWrite bp
        brelse bp
        return some (← iget dev inum)
      else
        brelse bp
        iallocFrom dev type (inum + 1) count

def ialloc (dev : Nat) (type : Int16) : FsM W (Option Slot) := do
  iallocFrom dev type 1 ((← get).sb.ninodes - 1)

def iupdate (k : Slot) : FsM W Unit := do
  let ip ← inode k
  let bp ← bread ip.dev ((← get).sb.IBLOCK ip.inum)
  let data ← data bp
  setData bp (putDinode data (dinodeOffset ip.inum) ip.toDinode)
  logWrite bp
  brelse bp

def acquiresleep (k : Slot) : FsM W Unit := do
  if (← inode k).locked then throw .asleep
  modifyInode k fun ip => { ip with locked := true }

def releasesleep (k : Slot) : FsM W Unit :=
  modifyInode k fun ip => { ip with locked := false }

def ilock (k : Slot) : FsM W Unit := do
  if (← inode k).ref < 1 then throw .ilock
  acquiresleep k
  let ip ← inode k
  if !ip.valid then
    let bp ← bread ip.dev ((← get).sb.IBLOCK ip.inum)
    let dip := getDinode (← data bp) (dinodeOffset ip.inum)
    modifyInode k fun ip => { ip with toDinode := dip }
    brelse bp
    modifyInode k fun ip => { ip with valid := true }
    if dip.type = 0 then throw .ilockNoType

def iunlock (k : Slot) : FsM W Unit := do
  let ip ← inode k
  if !ip.locked ∨ ip.ref < 1 then throw .iunlock
  releasesleep k

/-- `bmap` of an index below `NDIRECT`. -/
def bmapDirect (k : Slot) (bn : Nat) : FsM W Nat := do
  let ip ← inode k
  if ip.addrs bn = 0 then
    let addr ← balloc ip.dev
    if addr ≠ 0 then
      modifyInode k fun ip => { ip with addrs := Function.update ip.addrs bn addr }
    return addr
  else return ip.addrs bn

/-- `bmap` of the entry `bn` of the indirect block, which `bmap` allocates like a
direct one. -/
def bmapIndirect (k : Slot) (bn : Nat) : FsM W Nat := do
  let addr ← bmapDirect k NDIRECT
  if addr = 0 then return 0
  let dev := (← inode k).dev
  let bp ← bread dev addr
  let entry := getIndirect (← data bp) bn
  if entry = 0 then
    let addr ← balloc dev
    if addr ≠ 0 then
      setData bp (putIndirect (← data bp) bn addr)
      logWrite bp
    brelse bp
    return addr
  else
    brelse bp
    return entry

def bmap (k : Slot) (bn : Nat) : FsM W Nat :=
  if bn < NDIRECT then bmapDirect k bn
  else if bn - NDIRECT < NINDIRECT then bmapIndirect k (bn - NDIRECT)
  else throw .bmapOutOfRange

/-- One turn of the first loop of `itrunc`. -/
def itruncDirect (k : Slot) (i : Nat) : FsM W Unit := do
  let ip ← inode k
  if ip.addrs i ≠ 0 then
    bfree ip.dev (ip.addrs i)
    modifyInode k fun ip => { ip with addrs := Function.update ip.addrs i 0 }

/-- One turn of the loop over the indirect block `bp`. -/
def itruncIndirect (dev : Nat) (bp : Handle W) (j : Nat) : FsM W Unit := do
  let entry := getIndirect (← data bp) j
  if entry ≠ 0 then bfree dev entry

def itrunc (k : Slot) : FsM W Unit := do
  loop (itruncDirect k) 0 NDIRECT
  let ip ← inode k
  if ip.addrs NDIRECT ≠ 0 then
    let bp ← bread ip.dev (ip.addrs NDIRECT)
    loop (itruncIndirect ip.dev bp) 0 NINDIRECT
    brelse bp
    bfree ip.dev (ip.addrs NDIRECT)
    modifyInode k fun ip => { ip with addrs := Function.update ip.addrs NDIRECT 0 }
  modifyInode k fun ip => { ip with size := 0 }
  iupdate k

def iput (k : Slot) : FsM W Unit := do
  let ip ← inode k
  if ip.ref = 1 ∧ ip.valid ∧ ip.nlink = 0 then
    acquiresleep k
    itrunc k
    modifyInode k fun ip => { ip with type := 0 }
    iupdate k
    modifyInode k fun ip => { ip with valid := false }
    releasesleep k
  modifyInode k fun ip => { ip with ref := ip.ref - 1 }

def iunlockput (k : Slot) : FsM W Unit := do
  iunlock k
  iput k

/-- The result of a 32-bit unsigned counter returned as an `int`. -/
def asInt (tot : Nat) : Int := (Int32.ofNat tot).toInt

/-- The loop of `readi`, with the bytes handed out so far. -/
def readiFrom (k : Slot) (accepts : Nat → Nat → Bool) (n : Nat) :
    Nat → Nat → Nat → List UInt8 → FsM W (Int × List UInt8)
  | 0, tot, _, read => return (asInt tot, read)
  | fuel + 1, tot, off, read => do
      if tot < n then
        let addr ← bmap k (off / BSIZE)
        if addr = 0 then return (asInt tot, read)
        let bp ← bread (← inode k).dev addr
        let m := min (n - tot) (BSIZE - off % BSIZE)
        let bytes := getBytes (← data bp) (off % BSIZE) m
        brelse bp
        if accepts tot m then readiFrom k accepts n fuel (tot + m) (off + m) (read ++ bytes)
        else return (-1, read ++ bytes)
      else return (asInt tot, read)

/-- `readi`: the result and the bytes it tried to deliver, in order. -/
def readi (k : Slot) (accepts : Nat → Nat → Bool) (off n : Nat) : FsM W (Int × List UInt8) := do
  let size := (← inode k).size
  if off > size ∨ (off + n) % 2 ^ 32 < off then return (0, [])
  let n := if (off + n) % 2 ^ 32 > size then size - off else n
  readiFrom k accepts n n 0 off []

/-- A kernel buffer takes every copy. -/
def kernelAccepts : Nat → Nat → Bool := fun _ _ => true

/-- A kernel buffer delivers its bytes. -/
def kernelSource (bytes : List UInt8) : Nat → Nat → List UInt8 × Bool :=
  fun k m => ((bytes.drop k).take m, true)

/-- The loop of `writei`; the result is `tot` and `off` when it ends. -/
def writeiFrom (k : Slot) (source : Nat → Nat → List UInt8 × Bool) (n : Nat) :
    Nat → Nat → Nat → FsM W (Nat × Nat)
  | 0, tot, off => return (tot, off)
  | fuel + 1, tot, off => do
      if tot < n then
        let addr ← bmap k (off / BSIZE)
        if addr = 0 then return (tot, off)
        let bp ← bread (← inode k).dev addr
        let m := min (n - tot) (BSIZE - off % BSIZE)
        let (bytes, copied) := source tot m
        setData bp (putBytes (← data bp) (off % BSIZE) bytes)
        if copied then
          logWrite bp
          brelse bp
          writeiFrom k source n fuel (tot + m) (off + m)
        else
          brelse bp
          return (tot, off)
      else return (tot, off)

def writei (k : Slot) (source : Nat → Nat → List UInt8 × Bool) (off n : Nat) : FsM W Int := do
  let size := (← inode k).size
  if off > size ∨ (off + n) % 2 ^ 32 < off then return -1
  if (off + n) % 2 ^ 32 > MAXFILE * BSIZE then return -1
  let (tot, off) ← writeiFrom k source n n 0 off
  if off > (← inode k).size then modifyInode k fun ip => { ip with size := off }
  iupdate k
  return asInt tot

end Fs

end PaddleOs
