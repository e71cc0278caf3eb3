import PaddleOs.Directory

/-!
`mkfs/mkfs.c`: the program that makes the disk image. The image is the file
`fs.img` as an array of sectors with its length; `lseek` and `write` on it succeed,
and `read` past its end is short, which `rsect` answers with `die`. An input is a
regular file named by an argument, or one `open` refuses.
-/

namespace PaddleOs.Mkfs

open Foundation.Outcome

def NINODES : Nat := 200

def nbitmap : Nat := FSSIZE / (BSIZE * 8) + 1
def ninodeblocks : Nat := NINODES / IPB + 1
def nlog : Nat := LOGSIZE
def nmeta : Nat := 2 + nlog + ninodeblocks + nbitmap
def nblocks : Nat := FSSIZE - nmeta

def sb : Superblock where
  magic := FSMAGIC
  size := FSSIZE
  nblocks := nblocks
  ninodes := NINODES
  nlog := nlog
  logstart := 2
  inodestart := 2 + nlog
  bmapstart := 2 + nlog + ninodeblocks

/-- How `mkfs` ends without an image: a `die` or a failed `assert`. -/
inductive Failure where
  | dieRead
  | dieOpen (path : List UInt8)
  | assertRootino
  | assertNoSlash
  | assertMaxfile
  | assertBitmap
  deriving DecidableEq, Repr

structure State where
  sector : Nat → Block
  length : Nat
  freeinode : Nat
  freeblock : Nat

abbrev MkfsM := EStateM Failure State

/-- A `uint`. -/
def word (n : Nat) : Nat := n % 2 ^ 32

/-- The sector `lseek(fsfd, sec * BSIZE, 0)` reaches; the product is a `uint`. -/
def seek (sec : Nat) : Nat := word (sec * BSIZE) / BSIZE

def wsect (sec : Nat) (buf : Block) : MkfsM Unit :=
  modify fun s => { s with
    sector := Function.update s.sector (seek sec) buf
    length := max s.length (seek sec + 1) }

def rsect (sec : Nat) : MkfsM Block := do
  let s ← get
  if seek sec < s.length then return s.sector (seek sec) else throw .dieRead

def winode (inum : Nat) (ip : Dinode) : MkfsM Unit := do
  let bn := sb.IBLOCK inum
  let buf ← rsect bn
  wsect bn (putDinode buf (dinodeOffset inum) ip)

def rinode (inum : Nat) : MkfsM Dinode := do
  let buf ← rsect (sb.IBLOCK inum)
  return getDinode buf (dinodeOffset inum)

/-- `freeblock++` -/
def takeBlock : MkfsM Nat := do
  let b := (← get).freeblock
  modify fun s => { s with freeblock := word (b + 1) }
  return b

def ialloc (type : Int16) : MkfsM Nat := do
  let inum := (← get).freeinode
  modify fun s => { s with freeinode := word (inum + 1) }
  winode inum { Dinode.blank type with nlink := 1 }
  return inum

def balloc (used : Int) : MkfsM Unit := do
  if ¬ used < (BSIZE * 8 : Nat) then throw .assertBitmap
  wsect sb.bmapstart ((List.range used.toNat).foldl setBit zeroBlock)

/-- The indirect block of `din`, allocated on its first use. -/
def iappendIndex (din : Dinode) : MkfsM Dinode := do
  if din.addrs NDIRECT = 0 then
    let x ← takeBlock
    return { din with addrs := Function.update din.addrs NDIRECT x }
  else return din

/-- The block `x` of one turn of `iappend`, with the inode that maps it. -/
def iappendBlock (din : Dinode) (fbn : Nat) : MkfsM (Dinode × Nat) := do
  if fbn < NDIRECT then
    if din.addrs fbn = 0 then
      let x ← takeBlock
      return ({ din with addrs := Function.update din.addrs fbn x }, x)
    else return (din, din.addrs fbn)
  else
    let din ← iappendIndex din
    let indirect ← rsect (din.addrs NDIRECT)
    if getIndirect indirect (fbn - NDIRECT) = 0 then
      let x ← takeBlock
      wsect (din.addrs NDIRECT) (putIndirect indirect (fbn - NDIRECT) x)
      return (din, x)
    else return (din, getIndirect indirect (fbn - NDIRECT))

/-- The loop of `iappend` on the bytes `p`; at most `fuel` turns. -/
def iappendFrom : Nat → Dinode → List UInt8 → Nat → MkfsM (Dinode × Nat)
  | 0, din, _, off => return (din, off)
  | fuel + 1, din, p, off => do
      if p = [] then return (din, off)
      let fbn := off / BSIZE
      if ¬ fbn < MAXFILE then throw .assertMaxfile
      let (din, x) ← iappendBlock din fbn
      let n1 := min p.length ((fbn + 1) * BSIZE - off)
      let buf ← rsect x
      wsect x (putBytes buf (off - fbn * BSIZE) (p.take n1))
      iappendFrom fuel din (p.drop n1) (off + n1)

def iappend (inum : Nat) (p : List UInt8) : MkfsM Unit := do
  let din ← rinode inum
  let (din, off) ← iappendFrom p.length din p din.size
  winode inum { din with size := off }

structure Input where
  path : List UInt8
  contents : Option (List UInt8)

/-- `"user/"` -/
def userDir : List UInt8 := [117, 115, 101, 114, 47]

/-- `".paddle"` -/
def paddleSuffix : List UInt8 := [46, 112, 97, 100, 100, 108, 101]

/-- `'_'` -/
def underscore : UInt8 := 95

def shortname (path : List UInt8) : List UInt8 :=
  if path.take 5 = userDir then path.drop 5 else path

/-- The name of the directory entry, before `strncpy` cuts it. -/
def entryName (path : List UInt8) : List UInt8 :=
  let name := shortname path
  let name := if name.head? = some underscore then name.tail else name
  if name.length ≥ 7 ∧ name.drop (name.length - 7) = paddleSuffix then
    name.take (name.length - 7)
  else name

/-- The loop that reads a file by `BSIZE` bytes; at most `fuel` reads. -/
def copyFile (inum : Nat) : Nat → List UInt8 → MkfsM Unit
  | 0, _ => return ()
  | fuel + 1, rest => do
      if rest = [] then return ()
      iappend inum (rest.take BSIZE)
      copyFile inum fuel (rest.drop BSIZE)

/-- One turn of the loop over the arguments. -/
def addFile (rootino : Nat) (file : Input) : MkfsM Unit := do
  if Fs.slash ∈ shortname file.path then throw .assertNoSlash
  match file.contents with
  | none => throw (.dieOpen file.path)
  | some bytes =>
      let inum ← ialloc T_FILE
      iappend rootino (putDirent (entryName file.path) inum)
      copyFile inum bytes.length bytes

def addFiles (rootino : Nat) : List Input → MkfsM Unit
  | [] => return ()
  | file :: rest => do
      addFile rootino file
      addFiles rootino rest

/-- "fix size of root inode dir" -/
def fixRoot (rootino : Nat) : MkfsM Unit := do
  let din ← rinode rootino
  winode rootino { din with size := word ((din.size / BSIZE + 1) * BSIZE) }

/-- The head of `main`: every block is zeroed and the superblock written. -/
@[irreducible]
def format : MkfsM Unit := do
  modify fun s => { s with freeblock := nmeta }
  loop (fun i => wsect i zeroBlock) 0 FSSIZE
  wsect 1 (putSuperblock sb)

def main (files : List Input) : MkfsM Unit := do
  format
  let rootino ← ialloc T_DIR
  if rootino ≠ ROOTINO then throw .assertRootino
  iappend rootino (putDirent Fs.dot rootino)
  iappend rootino (putDirent Fs.dotdot rootino)
  addFiles rootino files
  fixRoot rootino
  balloc (Fs.asInt (← get).freeblock)

/-- The state `main` starts in: `O_TRUNC` leaves `fs.img` empty. -/
def start : State where
  sector _ := zeroBlock
  length := 0
  freeinode := 1
  freeblock := 0

/-- `fs.img` and the counters when a run reaches `exit(0)`. -/
def finalState : EStateM.Result Failure State Unit → Option State
  | .ok _ s => some s
  | .error _ _ => none

/-- What `mkfs fs.img files...` leaves when it reaches `exit(0)`. -/
def mkfs (files : List Input) : Option State := finalState (main files start)

end PaddleOs.Mkfs
