import PaddleOs.Inode

/-!
Directories and path names of `kernel/fs.c`, and the parts of `kernel/sysfile.c`
that work on inodes alone. A path is the string `argstr` fetched, without its
NUL; `cwd` is the slot of `myproc()->cwd`.
-/

namespace PaddleOs.Fs

open Foundation.Outcome

variable {W : Type} [BlockLayer W]

abbrev Path := List UInt8

def slash : UInt8 := 47

def dot : Name := [46]

def dotdot : Name := [46, 46]

/-- A directory entry read by `readi` at `off`, or the panic of the caller. -/
def readDirent (dp : Slot) (off : Nat) (panic : Stop) : FsM W Dirent := do
  let (r, bytes) ← readi dp kernelAccepts off DIRENT
  if r ≠ (DIRENT : Int) then throw panic
  return getDirent bytes

/-- The loop of `dirlookup` from `off`, `fuel` entries at most. -/
def dirlookupFrom (dp : Slot) (name : Name) : Nat → Nat → FsM W (Option (Slot × Nat))
  | 0, _ => return none
  | fuel + 1, off => do
      if off < (← inode dp).size then
        let de ← readDirent dp off .dirlookupRead
        if de.inum ≠ 0 ∧ namecmp name de.name then
          return some (← iget (← inode dp).dev de.inum, off)
        else dirlookupFrom dp name fuel (off + DIRENT)
      else return none

/-- `dirlookup`: the inode and the offset of its entry. -/
def dirlookup (dp : Slot) (name : Name) : FsM W (Option (Slot × Nat)) := do
  let ip ← inode dp
  if ip.type ≠ T_DIR then throw .dirlookupNotDir
  dirlookupFrom dp name (ip.size / DIRENT + 1) 0

/-- The offset of the first empty entry, or the first offset past the end. -/
def emptyFrom (dp : Slot) : Nat → Nat → FsM W Nat
  | 0, off => return off
  | fuel + 1, off => do
      if off < (← inode dp).size then
        let de ← readDirent dp off .dirlinkRead
        if de.inum = 0 then return off else emptyFrom dp fuel (off + DIRENT)
      else return off

/-- `dirlink`; false for -1. -/
def dirlink (dp : Slot) (name : Name) (inum : Nat) : FsM W Bool := do
  match ← dirlookup dp name with
  | some (ip, _) =>
      iput ip
      return false
  | none =>
      let off ← emptyFrom dp ((← inode dp).size / DIRENT + 1) 0
      let r ← writei dp (kernelSource (putDirent name inum)) off DIRENT
      return r = (DIRENT : Int)

/-- `skipelem`: the first element, cut to `DIRSIZ` bytes, and the rest of the path. -/
def skipelem (path : Path) : Option (Name × Path) :=
  let path := path.dropWhile (· = slash)
  if path = [] then none
  else some ((path.takeWhile (· ≠ slash)).take DIRSIZ,
    (path.dropWhile (· ≠ slash)).dropWhile (· = slash))

/-- The loop of `namex` at the inode `ip`, `fuel` elements at most, with the last
name `skipelem` stored. -/
def namexFrom (parent : Bool) : Nat → Slot → Path → Name → FsM W (Option (Slot × Name))
  | 0, ip, _, name => return some (ip, name)
  | fuel + 1, ip, path, last => do
      match skipelem path with
      | none =>
          if parent then
            iput ip
            return none
          else return some (ip, last)
      | some (name, rest) =>
          ilock ip
          if (← inode ip).type ≠ T_DIR then
            iunlockput ip
            return none
          if parent ∧ rest = [] then
            iunlock ip
            return some (ip, name)
          match ← dirlookup ip name with
          | none =>
              iunlockput ip
              return none
          | some (next, _) =>
              iunlockput ip
              namexFrom parent fuel next rest name

def namex (cwd : Slot) (path : Path) (parent : Bool) : FsM W (Option (Slot × Name)) := do
  let ip ← if path.head? = some slash then iget ROOTDEV ROOTINO else idup cwd
  namexFrom parent (path.length + 1) ip path []

def namei (cwd : Slot) (path : Path) : FsM W (Option Slot) := do
  return (← namex cwd path false).map Prod.fst

def nameiparent (cwd : Slot) (path : Path) : FsM W (Option (Slot × Name)) := namex cwd path true

/-- The exit `fail:` of `create`. -/
def createFail (dp ip : Slot) : FsM W (Option Slot) := do
  modifyInode ip fun ip => { ip with nlink := 0 }
  iupdate ip
  iunlockput ip
  iunlockput dp
  return none

/-- `create` after `dirlookup` found no entry and `ialloc` gave `ip`. -/
def createNew (dp ip : Slot) (name : Name) (type major minor : Int16) : FsM W (Option Slot) := do
  ilock ip
  modifyInode ip fun ip => { ip with major, minor, nlink := 1 }
  iupdate ip
  if type = T_DIR then
    if !(← dirlink ip dot (← inode ip).inum) then return ← createFail dp ip
    if !(← dirlink ip dotdot (← inode dp).inum) then return ← createFail dp ip
  if !(← dirlink dp name (← inode ip).inum) then return ← createFail dp ip
  if type = T_DIR then
    modifyInode dp fun dp => { dp with nlink := dp.nlink + 1 }
    iupdate dp
  iunlockput dp
  return some ip

/-- `create`; the inode it returns is locked. -/
def create (cwd : Slot) (path : Path) (type major minor : Int16) : FsM W (Option Slot) := do
  match ← nameiparent cwd path with
  | none => return none
  | some (dp, name) =>
      ilock dp
      match ← dirlookup dp name with
      | some (ip, _) =>
          iunlockput dp
          ilock ip
          let found := (← inode ip).type
          if type = T_FILE ∧ (found = T_FILE ∨ found = T_DEVICE) then return some ip
          iunlockput ip
          return none
      | none =>
          match ← ialloc (← inode dp).dev type with
          | none =>
              iunlockput dp
              return none
          | some ip => createNew dp ip name type major minor

/-- The exit `bad:` of `sys_link`. -/
def linkBad (ip : Slot) : FsM W Bool := do
  ilock ip
  modifyInode ip fun ip => { ip with nlink := ip.nlink - 1 }
  iupdate ip
  iunlockput ip
  endOp
  return false

/-- `sys_link`; false for -1. -/
def sysLink (cwd : Slot) (old new : Option Path) : FsM W Bool := do
  match old, new with
  | some old, some new =>
      beginOp
      match ← namei cwd old with
      | none =>
          endOp
          return false
      | some ip =>
          ilock ip
          if (← inode ip).type = T_DIR then
            iunlockput ip
            endOp
            return false
          modifyInode ip fun ip => { ip with nlink := ip.nlink + 1 }
          iupdate ip
          iunlock ip
          match ← nameiparent cwd new with
          | none => linkBad ip
          | some (dp, name) =>
              ilock dp
              if (← inode dp).dev ≠ (← inode ip).dev then
                iunlockput dp
                return ← linkBad ip
              if !(← dirlink dp name (← inode ip).inum) then
                iunlockput dp
                return ← linkBad ip
              iunlockput dp
              iput ip
              endOp
              return true
  | _, _ => return false

/-- The loop of `isdirempty` from `off`, `fuel` entries at most. -/
def isdiremptyFrom (dp : Slot) : Nat → Nat → FsM W Bool
  | 0, _ => return true
  | fuel + 1, off => do
      if off < (← inode dp).size then
        let de ← readDirent dp off .isdiremptyReadi
        if de.inum ≠ 0 then return false else isdiremptyFrom dp fuel (off + DIRENT)
      else return true

def isdirempty (dp : Slot) : FsM W Bool := do
  isdiremptyFrom dp ((← inode dp).size / DIRENT + 1) (2 * DIRENT)

/-- The exit `bad:` of `sys_unlink`. -/
def unlinkBad (dp : Slot) : FsM W Bool := do
  iunlockput dp
  endOp
  return false

/-- `sys_unlink` once the entry at `off` of `dp` has led to `ip`. -/
def unlinkEntry (dp ip : Slot) (off : Nat) : FsM W Bool := do
  ilock ip
  if (← inode ip).nlink < 1 then throw .unlinkNlink
  if (← inode ip).type = T_DIR then
    if !(← isdirempty ip) then
      iunlockput ip
      return ← unlinkBad dp
  let r ← writei dp (kernelSource (List.replicate DIRENT 0)) off DIRENT
  if r ≠ (DIRENT : Int) then throw .unlinkWritei
  if (← inode ip).type = T_DIR then
    modifyInode dp fun dp => { dp with nlink := dp.nlink - 1 }
    iupdate dp
  iunlockput dp
  modifyInode ip fun ip => { ip with nlink := ip.nlink - 1 }
  iupdate ip
  iunlockput ip
  endOp
  return true

/-- `sys_unlink`; false for -1. -/
def sysUnlink (cwd : Slot) (path : Option Path) : FsM W Bool := do
  match path with
  | none => return false
  | some path =>
      beginOp
      match ← nameiparent cwd path with
      | none =>
          endOp
          return false
      | some (dp, name) =>
          ilock dp
          if namecmp name dot ∨ namecmp name dotdot then return ← unlinkBad dp
          match ← dirlookup dp name with
          | none => unlinkBad dp
          | some (ip, off) => unlinkEntry dp ip off

/-- `sys_mkdir` and `sys_mknod`; false for -1. -/
def sysMake (cwd : Slot) (path : Option Path) (type major minor : Int16) : FsM W Bool := do
  beginOp
  match path with
  | none =>
      endOp
      return false
  | some path =>
      match ← create cwd path type major minor with
      | none =>
          endOp
          return false
      | some ip =>
          iunlockput ip
          endOp
          return true

def sysMkdir (cwd : Slot) (path : Option Path) : FsM W Bool := sysMake cwd path T_DIR 0 0

def sysMknod (cwd : Slot) (path : Option Path) (major minor : Int16) : FsM W Bool :=
  sysMake cwd path T_DEVICE major minor

/-- `sys_chdir` on the inode side: the new `cwd`, or none for -1. -/
def sysChdir (cwd : Slot) (path : Option Path) : FsM W (Option Slot) := do
  beginOp
  match path with
  | none =>
      endOp
      return none
  | some path =>
      match ← namei cwd path with
      | none =>
          endOp
          return none
      | some ip =>
          ilock ip
          if (← inode ip).type ≠ T_DIR then
            iunlockput ip
            endOp
            return none
          iunlock ip
          iput cwd
          endOp
          return some ip

end PaddleOs.Fs
