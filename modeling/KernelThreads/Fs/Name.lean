import KernelThreads.Fs.Inode

namespace KernelThreads.Fs

open Lib

/-! Directories and path names. -/

abbrev DIRSIZ : Nat := 14

abbrev Name := Bytes DIRSIZ

abbrev Path := List Byte

structure Dirent where
  inum : BitVec 16 := 0
  name : Name := fun _ => 0
  deriving DecidableEq

abbrev DESIZE : Nat := 16

namespace Dirent

def ofBytes (data : List Byte) : Dirent where
  inum := data.getD 1 0 ++ data.getD 0 0
  name j := data.getD (2 + j) 0

def bytes (de : Dirent) : List Byte :=
  de.inum.extractLsb' 0 8 :: de.inum.extractLsb' 8 8 :: List.ofFn de.name

end Dirent

def strncmpFrom (p q : Nat → Byte) : Nat → Nat → Bool
  | 0, _ => true
  | n + 1, i =>
      if p i ≠ 0 ∧ p i = q i then strncmpFrom p q n (i + 1) else p i = q i

def namecmp (s t : Name) : Bool := strncmpFrom s.byte t.byte DIRSIZ 0

/-- `strncpy(de.name, name, DIRSIZ)`: NULs from the first one on. -/
def strncpy (name : Name) : Name := fun j =>
  if ∀ k, k < j → name k ≠ 0 then name j else 0

def nameOf (element : List Byte) : Name := fun j => element.getD j 0

def DOT : Name := nameOf [46]

def DOTDOT : Name := nameOf [46, 46]

def SLASH : Byte := 47

def skipelem (path : Path) : Option (Name × Path) :=
  let path := path.dropWhile (· = SLASH)
  if path = [] then none
  else
    let element := path.takeWhile (· ≠ SLASH)
    let rest := path.dropWhile (· ≠ SLASH)
    some (nameOf element, rest.dropWhile (· = SLASH))

section Directories

variable (sb : Superblock)

/-- Read the entry at `off`, or panic. -/
def readDirent (stop : FsStop) (dp : InodePtr) (off : Nat) : FsProgram Dirent := do
  match ← readi sb dp off DESIZE with
  | .done data => if data.length = DESIZE then return .ofBytes data else throw stop
  | _ => throw stop

def findEntry (dp : InodePtr) (name : Name) :
    Nat → Nat → FsProgram (Option (Nat × Nat))
  | 0, _ => return none
  | turns + 1, off => do
      if off < (← getInode dp).di.size.toNat then
        let de ← readDirent sb .dirlookupRead dp off
        if de.inum ≠ 0 ∧ namecmp name de.name then
          return some (de.inum.toNat, off)
        else findEntry dp name turns (off + DESIZE)
      else return none

def dirlookup (dp : InodePtr) (name : Name) :
    FsProgram (Option (InodePtr × Nat)) := do
  let di := (← getInode dp).di
  if di.type ≠ T_DIR then throw .dirlookupNotDir
  else
    match ← findEntry sb dp name (di.size.toNat / DESIZE + 1) 0 with
    | none => return none
    | some (inum, off) => return some (← iget inum, off)

def findEmpty (dp : InodePtr) : Nat → Nat → FsProgram Nat
  | 0, off => return off
  | turns + 1, off => do
      if off < (← getInode dp).di.size.toNat then
        let de ← readDirent sb .dirlinkRead dp off
        if de.inum = 0 then return off
        else findEmpty dp turns (off + DESIZE)
      else return off

def dirlink (dp : InodePtr) (name : Name) (inum : Nat) : FsProgram Bool := do
  match ← dirlookup sb dp name with
  | some (ip, _) =>
      iput sb ip
      return false
  | none =>
      let size := (← getInode dp).di.size.toNat
      let off ← findEmpty sb dp (size / DESIZE + 1) 0
      let de : Dirent := { inum := .ofNat 16 inum, name := strncpy name }
      match ← writei sb dp de.bytes off with
      | .done n => if n = DESIZE then return true else throw .dirlink
      | _ => throw .dirlink

/-- The loop of `namex`; with `parent` it stops one level early. -/
def walk (parent : Bool) : Nat → InodePtr → Path → Name →
    FsProgram (Option (InodePtr × Name))
  | 0, _, _, _ => return none
  | turns + 1, ip, path, last => do
      match skipelem path with
      | none =>
          if parent then
            iput sb ip
            return none
          else return some (ip, last)
      | some (name, path) =>
          ilock sb ip
          if (← getInode ip).di.type ≠ T_DIR then
            iunlockput sb ip
            return none
          else if parent ∧ path = [] then
            iunlock ip
            return some (ip, name)
          else
            match ← dirlookup sb ip name with
            | none =>
                iunlockput sb ip
                return none
            | some (next, _) =>
                iunlockput sb ip
                walk parent turns next path name

def namex (p : Slot) (path : Path) (parent : Bool) :
    FsProgram (Option (InodePtr × Name)) := do
  let start ←
    if path.head? = some SLASH then iget ROOTINO
    else
      match ((← get).proc p).cwd with
      | none => throw .nullPointer
      | some cwd => idup cwd
  walk sb parent (path.length + 1) start path fun _ => 0

def namei (p : Slot) (path : Path) : FsProgram (Option InodePtr) := do
  return (← namex sb p path false).map Prod.fst

def nameiparent (p : Slot) (path : Path) : FsProgram (Option (InodePtr × Name)) :=
  namex sb p path true

end Directories

end KernelThreads.Fs
