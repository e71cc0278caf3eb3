import PaddleOs.Foundation.LittleEndian

/-!
Constants of `includes/params.h`, `includes/fs.h` and `mkfs/mkfs.c`, and the
ways a kernel thread stops without returning. `Stop.asleep` stands for a
thread that waits for an event no other step of the model will produce; every
other constructor is one `panic` call and carries its text in `Stop.text`.
-/

namespace PaddleOs

open Foundation.LittleEndian (Bytes)

def NPROC : Nat := 64
def MAXOPBLOCKS : Nat := 10
def LOGSIZE : Nat := MAXOPBLOCKS * 3
def NBUF : Nat := MAXOPBLOCKS * 3
def FSSIZE : Nat := 2000
def ROOTDEV : Nat := 1
def ROOTINO : Nat := 1
def BSIZE : Nat := 1024
def NINODE : Nat := 50
def NFILE : Nat := 100
def NOFILE : Nat := 16
def NDEV : Nat := 10
def MAXARG : Nat := 32

theorem nproc_pos : 0 < NPROC := by decide

theorem ninode_pos : 0 < NINODE := by decide

theorem nbuf_pos : 0 < NBUF := by decide

/-- The small configurations that the examples run have one, two or three parties. -/
instance one_party : NeZero 1 := ⟨by decide⟩

instance two_parties : NeZero 2 := ⟨by decide⟩

instance three_parties : NeZero 3 := ⟨by decide⟩

/-- A disk block; only the offsets below `BSIZE` are ever used. -/
abbrev Block := Bytes

inductive Stop where
  | asleep
  | bgetNoBuffers
  | bwriteUnlocked
  | brelseUnlocked
  | logCommitting
  | tooBigTransaction
  | logWriteOutsideTrans
  | freeingFreeBlock
  | igetNoInodes
  | ilock
  | ilockNoType
  | iunlock
  | bmapOutOfRange
  | dirlookupNotDir
  | dirlookupRead
  | dirlinkRead
  | isdiremptyReadi
  | unlinkNlink
  | unlinkWritei
  | invalidFileSystem
  deriving DecidableEq, Repr

def Stop.text : Stop → String
  | .asleep => ""
  | .bgetNoBuffers => "bget: no buffers"
  | .bwriteUnlocked => "bwrite"
  | .brelseUnlocked => "brelse"
  | .logCommitting => "log.committing"
  | .tooBigTransaction => "too big a transaction"
  | .logWriteOutsideTrans => "log_write outside of trans"
  | .freeingFreeBlock => "freeing free block"
  | .igetNoInodes => "iget: no inodes"
  | .ilock => "ilock"
  | .ilockNoType => "ilock: no type"
  | .iunlock => "iunlock"
  | .bmapOutOfRange => "bmap: out of range"
  | .dirlookupNotDir => "dirlookup not DIR"
  | .dirlookupRead => "dirlookup read"
  | .dirlinkRead => "dirlink read"
  | .isdiremptyReadi => "isdirempty: readi"
  | .unlinkNlink => "unlink: nlink < 1"
  | .unlinkWritei => "unlink: writei"
  | .invalidFileSystem => "invalid file system"

end PaddleOs
