import KernelThreads.Fs.Layout
import KernelThreads.Lib.Program
import KernelThreads.Proc.Table

namespace KernelThreads.Fs

open Lib

/-! The state of the file system and the code of `fs.c` for blocks and inodes.
There is one device.  Calls run one at a time: a sleep-lock that is taken stays
taken until the running call gives it up. -/

abbrev NINODE : Nat := 50
abbrev NFILE : Nat := 100
abbrev NOFILE : Nat := 16

abbrev InodePtr := Fin NINODE

abbrev FilePtr := Fin NFILE

structure Inode where
  inum : Nat := 0
  ref : Int := 0
  locked : Bool := false
  valid : Bool := false
  di : Dinode := {}
  deriving DecidableEq

inductive FdType where
  | none | pipe | inode
  deriving DecidableEq, Repr

structure File where
  type : FdType := .none
  ref : Int := 0
  readable : Bool := false
  writable : Bool := false
  ip : Option InodePtr := none
  deriving DecidableEq

structure FsProc where
  cwd : Option InodePtr := none
  ofile : Fin NOFILE → Option FilePtr := fun _ => none
  deriving DecidableEq

structure FsState where
  /-- The blocks as `bread` returns them. -/
  disk : Nat → Block
  icache : InodePtr → Inode
  ftable : FilePtr → File
  proc : Slot → FsProc
  /-- How many calls of `begin_op` have no `end_op` yet. -/
  ops : Int := 0

/-- The panics of the code, and two ways to stop without one. -/
inductive FsStop where
  | outOfBlocks | freeingFree | noInodes | igetNoInodes | ilock | noType | iunlock
  | bmapRange | dirlookupNotDir | dirlookupRead | dirlinkRead | dirlink
  | isdirempty | unlinkNlink | unlinkWritei | createDots | createDirlink
  | fileclose | fileread | filewrite | initExiting
  /-- The caller waits for a sleep-lock that it holds. -/
  | deadlock
  | nullPointer
  deriving DecidableEq, Repr

abbrev FsProgram := Program FsStop FsState

namespace FsState

def write (s : FsState) (b : Nat) (block : Block) : FsState :=
  { s with disk := Function.update s.disk b block }

def setNode (s : FsState) (ip : InodePtr) (node : Inode) : FsState :=
  { s with icache := setSlot s.icache ip node }

end FsState

def bread (b : Nat) : FsProgram Block := do
  return (← get).disk b

def logWrite (b : Nat) (block : Block) : FsProgram Unit :=
  modify fun s => s.write b block

def bzero (b : Nat) : FsProgram Unit := logWrite b fun _ => 0

section Blocks

variable (sb : Superblock)

def freeBlock (disk : Nat → Block) : Option Nat :=
  (List.range sb.size).find? fun b => !testBit (disk (sb.bblock b)) (b % BPB)

def balloc : FsProgram BlockNo := do
  match freeBlock sb (← get).disk with
  | none => throw .outOfBlocks
  | some b =>
      logWrite (sb.bblock b) (setBit (← bread (sb.bblock b)) (b % BPB))
      bzero b
      return .ofNat 32 b

def bfree (b : BlockNo) : FsProgram Unit := do
  let bp ← bread (sb.bblock b.toNat)
  if testBit bp (b.toNat % BPB) then
    logWrite (sb.bblock b.toNat) (clearBit bp (b.toNat % BPB))
  else
    throw .freeingFree

end Blocks

def getInode (ip : InodePtr) : FsProgram Inode := do
  return (← get).icache ip

def putInode (ip : InodePtr) (node : Inode) : FsProgram Unit :=
  modify fun s => s.setNode ip node

def editDinode (ip : InodePtr) (edit : Dinode → Dinode) : FsProgram Unit := do
  let node ← getInode ip
  putInode ip { node with di := edit node.di }

def iget (inum : Nat) : FsProgram InodePtr := do
  let s ← get
  match firstSlot fun ip => 0 < (s.icache ip).ref ∧ (s.icache ip).inum = inum with
  | some ip =>
      putInode ip { s.icache ip with ref := (s.icache ip).ref + 1 }
      return ip
  | none =>
      match firstSlot fun ip => (s.icache ip).ref = 0 with
      | none => throw .igetNoInodes
      | some ip =>
          putInode ip { s.icache ip with inum := inum, ref := 1, valid := false }
          return ip

def idup (ip : InodePtr) : FsProgram InodePtr := do
  let node ← getInode ip
  putInode ip { node with ref := node.ref + 1 }
  return ip

def acquiresleep (ip : InodePtr) : FsProgram Unit := do
  let node ← getInode ip
  if node.locked then throw .deadlock
  else putInode ip { node with locked := true }

def releasesleep (ip : InodePtr) : FsProgram Unit := do
  let node ← getInode ip
  putInode ip { node with locked := false }

def iunlock (ip : InodePtr) : FsProgram Unit := do
  let node ← getInode ip
  if !node.locked || node.ref < 1 then throw .iunlock
  else releasesleep ip

section Inodes

variable (sb : Superblock)

def iupdate (ip : InodePtr) : FsProgram Unit := do
  let node ← getInode ip
  let bp ← bread (sb.iblock node.inum)
  logWrite (sb.iblock node.inum) (putDinode bp (node.inum % IPB) node.di)

def freeInode (disk : Nat → Block) : Option Nat :=
  (List.range' 1 (sb.ninodes - 1)).find? fun inum =>
    (getDinode (disk (sb.iblock inum)) (inum % IPB)).type = 0

def ialloc (type : BitVec 16) : FsProgram InodePtr := do
  match freeInode sb (← get).disk with
  | none => throw .noInodes
  | some inum =>
      let bp ← bread (sb.iblock inum)
      logWrite (sb.iblock inum) (putDinode bp (inum % IPB) { type := type })
      iget inum

def fillInode (ip : InodePtr) : FsProgram Unit := do
  let node ← getInode ip
  if node.valid then return ()
  else
    let bp ← bread (sb.iblock node.inum)
    let di := getDinode bp (node.inum % IPB)
    putInode ip { node with di := di, valid := true }
    if di.type = 0 then throw .noType else return ()

def ilock (ip : InodePtr) : FsProgram Unit := do
  let node ← getInode ip
  if node.ref < 1 then throw .ilock
  else
    acquiresleep ip
    fillInode sb ip

def addrOrAlloc (ip : InodePtr) (k : Fin (NDIRECT + 1)) : FsProgram BlockNo := do
  let addr := (← getInode ip).di.addrs k
  if addr = 0 then
    let addr ← balloc sb
    editDinode ip fun di => { di with addrs := Function.update di.addrs k addr }
    return addr
  else return addr

def bmap (ip : InodePtr) (bn : Nat) : FsProgram BlockNo := do
  if h : bn < NDIRECT then
    addrOrAlloc sb ip ⟨bn, by omega⟩
  else if bn - NDIRECT < NINDIRECT then
    let table ← addrOrAlloc sb ip (Fin.last NDIRECT)
    let addr := (← bread table.toNat).word (bn - NDIRECT)
    if addr = 0 then
      let addr ← balloc sb
      let bp ← bread table.toNat
      logWrite table.toNat (bp.setWord (bn - NDIRECT) addr)
      return addr
    else return addr
  else throw .bmapRange

def freeAddr (ip : InodePtr) (k : Fin (NDIRECT + 1)) : FsProgram Unit := do
  let addr := (← getInode ip).di.addrs k
  if addr = 0 then return ()
  else
    bfree sb addr
    editDinode ip fun di => { di with addrs := Function.update di.addrs k 0 }

def freeDirect (ip : InodePtr) : List (Fin NDIRECT) → FsProgram Unit
  | [] => return ()
  | i :: rest => do
      freeAddr sb ip i.castSucc
      freeDirect ip rest

def freeWords (a : Block) : List (Fin NINDIRECT) → FsProgram Unit
  | [] => return ()
  | j :: rest => do
      if a.word j = 0 then freeWords a rest
      else
        bfree sb (a.word j)
        freeWords a rest

def freeIndirect (ip : InodePtr) : FsProgram Unit := do
  let table := (← getInode ip).di.addrs (Fin.last NDIRECT)
  if table = 0 then return ()
  else
    let a ← bread table.toNat
    freeWords sb a (List.finRange NINDIRECT)
    freeAddr sb ip (Fin.last NDIRECT)

def itrunc (ip : InodePtr) : FsProgram Unit := do
  freeDirect sb ip (List.finRange NDIRECT)
  freeIndirect sb ip
  editDinode ip fun di => { di with size := 0 }
  iupdate sb ip

/-- The part of `iput` for an inode without links and other references. -/
def dropInode (ip : InodePtr) : FsProgram Unit := do
  let node ← getInode ip
  if node.valid ∧ node.di.nlink = 0 ∧ node.ref = 1 then
    itrunc sb ip
    editDinode ip fun di => { di with type := 0 }
    iupdate sb ip
    let node ← getInode ip
    putInode ip { node with valid := false }
  else return ()

def iput (ip : InodePtr) : FsProgram Unit := do
  acquiresleep ip
  dropInode sb ip
  releasesleep ip
  let node ← getInode ip
  putInode ip { node with ref := node.ref - 1 }

def iunlockput (ip : InodePtr) : FsProgram Unit := do
  iunlock ip
  iput sb ip

/-- What `readi` and `writei` return: -1, the answer of a device driver, or what
was read or written. -/
inductive Io (α : Type) where
  | error
  | device
  | done (value : α)
  deriving DecidableEq, Repr

def readBlocks (ip : InodePtr) : Nat → Nat → Nat → FsProgram (List Byte)
  | 0, _, _ => return []
  | turns + 1, off, n => do
      if n = 0 then return []
      else
        let bp ← bread (← bmap sb ip (off / BSIZE)).toNat
        let m := min n (BSIZE - off % BSIZE)
        let data := (List.range m).map fun i => bp.byte (off % BSIZE + i)
        return data ++ (← readBlocks ip turns (off + m) (n - m))

/-- The test of `major` and of the driver; only the console has one. -/
def hasDriver (di : Dinode) : Bool := di.major = 1

def readi (ip : InodePtr) (off n : Nat) : FsProgram (Io (List Byte)) := do
  let di := (← getInode ip).di
  if di.type = T_DEV then
    return if hasDriver di then .device else .error
  else if di.size.toNat < off ∨ 2 ^ 32 ≤ off + n then
    return .error
  else
    let n := if di.size.toNat < off + n then di.size.toNat - off else n
    return .done (← readBlocks sb ip n off n)

def copyInto (block : Block) (at_ : Nat) (src : List Byte) : Block := fun j =>
  if at_ ≤ j.val ∧ j.val < at_ + src.length then src.getD (j.val - at_) 0
  else block j

def writeBlocks (ip : InodePtr) : Nat → Nat → List Byte → FsProgram Unit
  | 0, _, _ => return ()
  | turns + 1, off, src => do
      if src = [] then return ()
      else
        let b ← bmap sb ip (off / BSIZE)
        let bp ← bread b.toNat
        let m := min src.length (BSIZE - off % BSIZE)
        logWrite b.toNat (copyInto bp (off % BSIZE) (src.take m))
        writeBlocks ip turns (off + m) (src.drop m)

def growTo (ip : InodePtr) (n off : Nat) : FsProgram Unit := do
  if 0 < n ∧ (← getInode ip).di.size.toNat < off then
    editDinode ip fun di => { di with size := .ofNat 32 off }
    iupdate sb ip
  else return ()

def writei (ip : InodePtr) (src : List Byte) (off : Nat) : FsProgram (Io Nat) := do
  let di := (← getInode ip).di
  let n := src.length
  if di.type = T_DEV then
    return if hasDriver di then .device else .error
  else if di.size.toNat < off ∨ 2 ^ 32 ≤ off + n ∨ MAXFILE * BSIZE < off + n then
    return .error
  else
    writeBlocks sb ip n off src
    growTo sb ip n (off + n)
    return .done n

end Inodes

end KernelThreads.Fs
