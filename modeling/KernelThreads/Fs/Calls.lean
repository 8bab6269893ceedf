import KernelThreads.Fs.Name
import KernelThreads.Lib.Transition

namespace KernelThreads.Fs

open Lib

/-! The system calls of `sysfile.c` that name files, for the process `p`, and the
file table of `file.c`. -/

def O_RDONLY : BitVec 32 := 0
def O_WRONLY : BitVec 32 := 1
def O_RDWR : BitVec 32 := 2
def O_CREATE : BitVec 32 := 0x200

def beginOp : FsProgram Unit := modify fun s => { s with ops := s.ops + 1 }

def endOp : FsProgram Unit := modify fun s => { s with ops := s.ops - 1 }

def putFile (f : FilePtr) (file : File) : FsProgram Unit :=
  modify fun s => { s with ftable := setSlot s.ftable f file }

def filealloc : FsProgram (Option FilePtr) := do
  let s ← get
  match firstSlot fun f => (s.ftable f).ref = 0 with
  | none => return none
  | some f =>
      putFile f { s.ftable f with ref := 1 }
      return some f

def putProc (p : Slot) (edit : FsProc → FsProc) : FsProgram Unit :=
  modify fun s => { s with proc := setSlot s.proc p (edit (s.proc p)) }

def setOfile (p : Slot) (fd : Fin NOFILE) (f : Option FilePtr) : FsProgram Unit :=
  putProc p fun proc => { proc with ofile := Function.update proc.ofile fd f }

def fdalloc (p : Slot) (f : FilePtr) : FsProgram (Option (Fin NOFILE)) := do
  let s ← get
  match firstSlot fun fd => (s.proc p).ofile fd = none with
  | none => return none
  | some fd =>
      setOfile p fd (some f)
      return some fd

section Calls

variable (sb : Superblock)

/-- `fileclose`; a pipe is not part of this state. -/
def fileclose (f : FilePtr) : FsProgram Unit := do
  let file := (← get).ftable f
  if file.ref < 1 then throw .fileclose
  else if 0 < file.ref - 1 then
    putFile f { file with ref := file.ref - 1 }
  else
    putFile f { file with ref := 0, type := .none }
    match file.type, file.ip with
    | .inode, some ip =>
        beginOp
        iput sb ip
        endOp
    | .inode, none => throw .nullPointer
    | _, _ => return ()

def emptyFrom (dp : InodePtr) : Nat → Nat → FsProgram Bool
  | 0, _ => return true
  | turns + 1, off => do
      if off < (← getInode dp).di.size.toNat then
        let de ← readDirent sb .isdirempty dp off
        if de.inum ≠ 0 then return false
        else emptyFrom dp turns (off + DESIZE)
      else return true

def isdirempty (dp : InodePtr) : FsProgram Bool := do
  let size := (← getInode dp).di.size.toNat
  emptyFrom sb dp (size / DESIZE + 1) (2 * DESIZE)

def clearEntry (dp : InodePtr) (off : Nat) : FsProgram Unit := do
  match ← writei sb dp (Dirent.bytes {}) off with
  | .done n => if n = DESIZE then return () else throw .unlinkWritei
  | _ => throw .unlinkWritei

def addLinks (ip : InodePtr) (change : BitVec 16) : FsProgram Unit := do
  editDinode ip fun di => { di with nlink := di.nlink + change }
  iupdate sb ip

def linkBad (ip : InodePtr) : FsProgram Int := do
  ilock sb ip
  addLinks sb ip (-1)
  iunlockput sb ip
  endOp
  return -1

def linkName (p : Slot) (ip : InodePtr) (new : Path) : FsProgram Int := do
  match ← nameiparent sb p new with
  | none => linkBad sb ip
  | some (dp, name) =>
      ilock sb dp
      if ← dirlink sb dp name (← getInode ip).inum then
        iunlockput sb dp
        iput sb ip
        endOp
        return 0
      else
        iunlockput sb dp
        linkBad sb ip

def linkPaths (p : Slot) (old new : Path) : FsProgram Int := do
  beginOp
  match ← namei sb p old with
  | none =>
      endOp
      return -1
  | some ip =>
      ilock sb ip
      if (← getInode ip).di.type = T_DIR then
        iunlockput sb ip
        endOp
        return -1
      else
        addLinks sb ip 1
        iunlock ip
        linkName sb p ip new

/-- `sys_link`; `none` is an argument that `argstr` does not accept. -/
def sysLink (p : Slot) : Option Path → Option Path → FsProgram Int
  | some old, some new => linkPaths sb p old new
  | _, _ => return -1

def dropDotDot (dp ip : InodePtr) : FsProgram Unit := do
  if (← getInode ip).di.type = T_DIR then addLinks sb dp (-1) else return ()

def unlinkEntry (dp ip : InodePtr) (off : Nat) : FsProgram Int := do
  clearEntry sb dp off
  dropDotDot sb dp ip
  iunlockput sb dp
  addLinks sb ip (-1)
  iunlockput sb ip
  endOp
  return 0

def unlinkBad (dp : InodePtr) : FsProgram Int := do
  iunlockput sb dp
  endOp
  return -1

def unlinkFound (dp ip : InodePtr) (off : Nat) : FsProgram Int := do
  let di := (← getInode ip).di
  if di.nlink.toInt < 1 then throw .unlinkNlink
  else if di.type = T_DIR then
    if ← isdirempty sb ip then unlinkEntry sb dp ip off
    else
      iunlockput sb ip
      unlinkBad sb dp
  else unlinkEntry sb dp ip off

def unlinkPath (p : Slot) (path : Path) : FsProgram Int := do
  beginOp
  match ← nameiparent sb p path with
  | none =>
      endOp
      return -1
  | some (dp, name) =>
      ilock sb dp
      if namecmp name DOT || namecmp name DOTDOT then unlinkBad sb dp
      else
        match ← dirlookup sb dp name with
        | none => unlinkBad sb dp
        | some (ip, off) =>
            ilock sb ip
            unlinkFound sb dp ip off

def sysUnlink (p : Slot) : Option Path → FsProgram Int
  | some path => unlinkPath sb p path
  | none => return -1

def makeDots (dp ip : InodePtr) (type : BitVec 16) : FsProgram Unit := do
  if type = T_DIR then
    addLinks sb dp 1
    if ← dirlink sb ip DOT (← getInode ip).inum then
      if ← dirlink sb ip DOTDOT (← getInode dp).inum then return ()
      else throw .createDots
    else throw .createDots
  else return ()

def createNew (dp : InodePtr) (name : Name) (type major minor : BitVec 16) :
    FsProgram InodePtr := do
  let ip ← ialloc sb type
  ilock sb ip
  editDinode ip fun di => { di with major := major, minor := minor, nlink := 1 }
  iupdate sb ip
  makeDots sb dp ip type
  if ← dirlink sb dp name (← getInode ip).inum then
    iunlockput sb dp
    return ip
  else throw .createDirlink

def create (p : Slot) (path : Path) (type major minor : BitVec 16) :
    FsProgram (Option InodePtr) := do
  match ← nameiparent sb p path with
  | none => return none
  | some (dp, name) =>
      ilock sb dp
      match ← dirlookup sb dp name with
      | some (ip, _) =>
          iunlockput sb dp
          ilock sb ip
          if type = T_FILE ∧ (← getInode ip).di.type = T_FILE then return some ip
          else
            iunlockput sb ip
            return none
      | none => return some (← createNew sb dp name type major minor)

def openInode (p : Slot) (path : Path) (omode : BitVec 32) :
    FsProgram (Option InodePtr) := do
  if omode &&& O_CREATE ≠ 0 then create sb p path T_FILE 0 0
  else
    match ← namei sb p path with
    | none => return none
    | some ip =>
        ilock sb ip
        if (← getInode ip).di.type = T_DIR ∧ omode ≠ O_RDONLY then
          iunlockput sb ip
          return none
        else return some ip

def openPath (p : Slot) (path : Path) (omode : BitVec 32) : FsProgram Int := do
  beginOp
  match ← openInode sb p path omode with
  | none =>
      endOp
      return -1
  | some ip =>
      match ← filealloc with
      | none =>
          iunlockput sb ip
          endOp
          return -1
      | some f =>
          match ← fdalloc p f with
          | none =>
              fileclose sb f
              iunlockput sb ip
              endOp
              return -1
          | some fd =>
              iunlock ip
              endOp
              let file := (← get).ftable f
              putFile f { file with
                type := .inode
                ip := some ip
                readable := omode &&& O_WRONLY = 0
                writable := omode &&& O_WRONLY ≠ 0 || omode &&& O_RDWR ≠ 0 }
              return fd.val

def sysOpen (p : Slot) : Option (Path × BitVec 32) → FsProgram Int
  | some (path, omode) => openPath sb p path omode
  | none => return -1

/-- A call whose arguments cannot be fetched after `begin_op`. -/
def badArguments : FsProgram Int := do
  endOp
  return -1

def makeNode (p : Slot) (path : Option Path) (type major minor : BitVec 16) :
    FsProgram Int := do
  beginOp
  match path with
  | none => badArguments
  | some path =>
      match ← create sb p path type major minor with
      | none =>
          endOp
          return -1
      | some ip =>
          iunlockput sb ip
          endOp
          return 0

def sysMkdir (p : Slot) (path : Option Path) : FsProgram Int := makeNode sb p path T_DIR 0 0

/-- `sys_mknod`; `none` stands for any argument that cannot be fetched. -/
def sysMknod (p : Slot) (path : Option Path) (major minor : BitVec 16) : FsProgram Int :=
  makeNode sb p path T_DEV major minor

/-- `sys_chdir` of a string that could be fetched, after `begin_op`. -/
def chdirPath (p : Slot) (path : Path) : FsProgram Int := do
  match ← namei sb p path with
  | none =>
      endOp
      return -1
  | some ip =>
      ilock sb ip
      if (← getInode ip).di.type ≠ T_DIR then
        iunlockput sb ip
        endOp
        return -1
      else
        iunlock ip
        match ((← get).proc p).cwd with
        | none => throw .nullPointer
        | some cwd =>
            iput sb cwd
            endOp
            putProc p fun proc => { proc with cwd := some ip }
            return 0

def sysChdir (p : Slot) (path : Option Path) : FsProgram Int := do
  beginOp
  match path with
  | none => badArguments
  | some path => chdirPath sb p path

end Calls

end KernelThreads.Fs
