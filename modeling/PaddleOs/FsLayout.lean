import PaddleOs.Params

/-!
The on-disk format of `includes/fs.h`: the superblock, an inode of 64 bytes, a
directory entry of 16 bytes and the free-block bitmap, read from and stored
into a block's bytes as the kernel does through its struct pointers.
-/

namespace PaddleOs

open Foundation.LittleEndian

def NDIRECT : Nat := 12
def NINDIRECT : Nat := BSIZE / 4
def MAXFILE : Nat := NDIRECT + NINDIRECT
def IPB : Nat := BSIZE / 64
def BPB : Nat := BSIZE * 8
def DIRSIZ : Nat := 14
def FSMAGIC : Nat := 0x00627778

def T_DIR : Int16 := 1
def T_FILE : Int16 := 2
def T_DEVICE : Int16 := 3

structure Superblock where
  magic : Nat
  size : Nat
  nblocks : Nat
  ninodes : Nat
  nlog : Nat
  logstart : Nat
  inodestart : Nat
  bmapstart : Nat
  deriving DecidableEq, Repr

def getSuperblock (data : Block) : Superblock where
  magic := getLE data 0 4
  size := getLE data 4 4
  nblocks := getLE data 8 4
  ninodes := getLE data 12 4
  nlog := getLE data 16 4
  logstart := getLE data 20 4
  inodestart := getLE data 24 4
  bmapstart := getLE data 28 4

def Superblock.IBLOCK (sb : Superblock) (inum : Nat) : Nat := inum / IPB + sb.inodestart

def Superblock.BBLOCK (sb : Superblock) (b : Nat) : Nat := b / BPB + sb.bmapstart

/-- `struct dinode`, and the fields `struct inode` copies from it. `addrs` is used
below `NDIRECT + 1` only. -/
structure Dinode where
  type : Int16
  major : Int16
  minor : Int16
  nlink : Int16
  size : Nat
  addrs : Nat → Nat

def getShort (data : Block) (offset : Nat) : Int16 := Int16.ofNat (getLE data offset 2)

def putShort (data : Block) (offset : Nat) (value : Int16) : Block :=
  putLE data offset 2 value.toUInt16.toNat

/-- The inode at byte `offset`. Entries past the array are not part of it. -/
def getDinode (data : Block) (offset : Nat) : Dinode where
  type := getShort data offset
  major := getShort data (offset + 2)
  minor := getShort data (offset + 4)
  nlink := getShort data (offset + 6)
  size := getLE data (offset + 8) 4
  addrs i := if i ≤ NDIRECT then getLE data (offset + 12 + 4 * i) 4 else 0

def putAddrs (addrs : Nat → Nat) (offset : Nat) : Nat → Block → Block
  | 0, data => data
  | count + 1, data => putLE (putAddrs addrs offset count data) (offset + 4 * count) 4 (addrs count)

def putDinode (data : Block) (offset : Nat) (dip : Dinode) : Block :=
  let data := putShort data offset dip.type
  let data := putShort data (offset + 2) dip.major
  let data := putShort data (offset + 4) dip.minor
  let data := putShort data (offset + 6) dip.nlink
  let data := putLE data (offset + 8) 4 dip.size
  putAddrs dip.addrs (offset + 12) (NDIRECT + 1) data

/-- What `memset(dip, 0, sizeof(*dip)); dip->type = type` leaves. -/
def Dinode.blank (type : Int16) : Dinode where
  type := type
  major := 0
  minor := 0
  nlink := 0
  size := 0
  addrs _ := 0

def dinodeOffset (inum : Nat) : Nat := 64 * (inum % IPB)

/-- `m = 1 << (bi % 8)` -/
def bitMask (bi : Nat) : UInt8 := 1 <<< UInt8.ofNat (bi % 8)

def bitSet (data : Block) (bi : Nat) : Bool := data (bi / 8) &&& bitMask bi != 0

def setBit (data : Block) (bi : Nat) : Block :=
  Function.update data (bi / 8) (data (bi / 8) ||| bitMask bi)

def clearBit (data : Block) (bi : Nat) : Block :=
  Function.update data (bi / 8) (data (bi / 8) &&& ~~~ bitMask bi)

def zeroBlock : Block := fun _ => 0

/-- Entry `bn` of an indirect block. -/
def getIndirect (data : Block) (bn : Nat) : Nat := getLE data (4 * bn) 4

def putIndirect (data : Block) (bn addr : Nat) : Block := putLE data (4 * bn) 4 addr

def getBytes (data : Block) (offset count : Nat) : List UInt8 :=
  (List.range count).map fun i => data (offset + i)

def putBytes (data : Block) (offset : Nat) : List UInt8 → Block
  | [] => data
  | byte :: rest => putBytes (Function.update data offset byte) (offset + 1) rest

/-- A file name: at most `DIRSIZ` bytes without a NUL. -/
abbrev Name := List UInt8

structure Dirent where
  inum : Nat
  name : Name
  deriving DecidableEq, Repr

/-- The size of `struct dirent`. -/
def DIRENT : Nat := 16

/-- What `strncmp(_, _, DIRSIZ)` looks at. -/
def cutName (name : List UInt8) : Name := (name.take DIRSIZ).takeWhile (· ≠ 0)

def getDirent (bytes : List UInt8) : Dirent where
  inum := (bytes.getD 0 0).toNat + 256 * (bytes.getD 1 0).toNat
  name := cutName (bytes.drop 2)

/-- `strncpy(de.name, name, DIRSIZ); de.inum = inum`, with `inum` cut to a `ushort`. -/
def putDirent (name : Name) (inum : Nat) : List UInt8 :=
  let chars := cutName name
  [UInt8.ofNat inum, UInt8.ofNat (inum / 256)] ++ chars ++
    List.replicate (DIRSIZ - chars.length) 0

def namecmp (s t : List UInt8) : Bool := decide (cutName s = cutName t)

/-- The superblock as `mkfs` writes it. -/
def putSuperblock (sb : Superblock) : Block :=
  let data : Block := putLE (fun _ => 0) 0 4 sb.magic
  let data := putLE data 4 4 sb.size
  let data := putLE data 8 4 sb.nblocks
  let data := putLE data 12 4 sb.ninodes
  let data := putLE data 16 4 sb.nlog
  let data := putLE data 20 4 sb.logstart
  let data := putLE data 24 4 sb.inodestart
  putLE data 28 4 sb.bmapstart

/-- The superblock of the smallest disk with a root directory: the log from block 2, one
block of inodes, one bitmap block. -/
def tinySuperblock : Superblock where
  magic := FSMAGIC
  size := 40
  nblocks := 6
  ninodes := 8
  nlog := 30
  logstart := 2
  inodestart := 32
  bmapstart := 33

/-- The blocks of that disk: the root directory is empty and everything up to the bitmap
is allocated. -/
def tinyDisk (blockno : Nat) : Block :=
  if blockno = 1 then putSuperblock tinySuperblock
  else if blockno = 32 then
    putDinode (fun _ => 0) (dinodeOffset ROOTINO)
      { type := T_DIR, major := 0, minor := 0, nlink := 1, size := 0, addrs := fun _ => 0 }
  else if blockno = 33 then fun i => if i < 4 then 255 else if i = 4 then 3 else 0
  else fun _ => 0

end PaddleOs
