import KernelThreads.Fs.Inode
import KernelThreads.Lib.Meets

namespace KernelThreads.Fs

open Lib Program

/-! What the raw blocks say: the bitmap, the inodes and the data blocks, and how
each write of the code changes them. -/

namespace Superblock

/-- The inode blocks, the bitmap and the data blocks follow each other. -/
structure Sound (sb : Superblock) : Prop where
  inodes : sb.iblock sb.ninodes < sb.bmapstart
  bitmap : sb.nmeta ≤ sb.size
  small : sb.size ≤ 2 ^ 32
  root : ROOTINO < sb.ninodes
  numbers : sb.ninodes ≤ 2 ^ 16

variable {sb : Superblock} {i b : Nat}

end Superblock

section Disk

variable (sb : Superblock) (disk : Nat → Block)

def bitsOf (b : Nat) : Bool :=
  if b < sb.size then testBit (disk (sb.bblock b)) (b % BPB) else true

def tableOf (i : Nat) : Dinode :=
  if i < sb.ninodes then getDinode (disk (sb.iblock i)) (i % IPB) else {}

def dataOf (b : Nat) : Block := if b < sb.nmeta then fun _ => 0 else disk b

variable {sb disk} {i b : Nat}

theorem tableOf_of_lt (hi : i < sb.ninodes) :
    tableOf sb disk i = getDinode (disk (sb.iblock i)) (i % IPB) := if_pos hi

theorem dataOf_of_le (hb : sb.nmeta ≤ b) : dataOf sb disk b = disk b :=
  if_neg (not_lt.mpr hb)

end Disk

/-- The bitmap, the inodes as the kernel sees them, and the data blocks. -/
structure Store where
  bit : Nat → Bool
  inode : Nat → Dinode
  data : Nat → Block

/-- Everything in memory but the copies of inodes. -/
structure Shape where
  inum : InodePtr → Nat
  ref : InodePtr → Int
  locked : InodePtr → Bool
  valid : InodePtr → Bool
  ftable : FilePtr → File
  proc : Slot → FsProc

namespace FsState

def shape (s : FsState) : Shape where
  inum ip := (s.icache ip).inum
  ref ip := (s.icache ip).ref
  locked ip := (s.icache ip).locked
  valid ip := (s.icache ip).valid
  ftable := s.ftable
  proc := s.proc

end FsState

def Shape.cached (shape : Shape) (i : Nat) : Option InodePtr :=
  firstSlot fun ip => 0 < shape.ref ip ∧ shape.valid ip = true ∧ shape.inum ip = i

namespace FsState

def current (sb : Superblock) (s : FsState) (i : Nat) : Dinode :=
  match s.shape.cached i with
  | some ip => (s.icache ip).di
  | none => tableOf sb s.disk i

theorem current_cached {sb : Superblock} {s : FsState} {i : Nat} {ip : InodePtr}
    (h : s.shape.cached i = some ip) : s.current sb i = (s.icache ip).di := by
  simp only [current, h]

theorem current_uncached {sb : Superblock} {s : FsState} {i : Nat}
    (h : s.shape.cached i = none) : s.current sb i = tableOf sb s.disk i := by
  simp only [current, h]

def store (sb : Superblock) (s : FsState) : Store where
  bit := bitsOf sb s.disk
  inode := s.current sb
  data := dataOf sb s.disk

end FsState

structure Works (sb : Superblock) (shape : Shape) (ip : InodePtr) (i : Nat) :
    Prop where
  ref : 0 < shape.ref ip
  valid : shape.valid ip = true
  inum : shape.inum ip = i
  range : i < sb.ninodes
  alone : ∀ jp, 0 < shape.ref jp → shape.inum jp = i → jp = ip

theorem bread_run (s : FsState) (b : Nat) : bread b s = .ok (s.disk b, s) := rfl

theorem getInode_run (s : FsState) (ip : InodePtr) :
    getInode ip s = .ok (s.icache ip, s) := rfl

theorem putInode_run (s : FsState) (ip : InodePtr) (node : Inode) :
    putInode ip node s = .ok ((), s.setNode ip node) := rfl

section Works

variable {sb : Superblock} {s next : FsState} {ip : InodePtr} {i : Nat}

theorem Works.cached {shape : Shape} (h : Works sb shape ip i) :
    shape.cached i = some ip := by
  apply firstSlot_unique
  · simp [h.ref, h.valid, h.inum]
  · intro jp hjp
    simp only [decide_eq_true_eq] at hjp
    exact h.alone jp hjp.1 hjp.2.2

theorem Works.current (h : Works sb s.shape ip i) :
    (s.store sb).inode i = (s.icache ip).di := by
  simp only [FsState.store, FsState.current, h.cached]

end Works

end KernelThreads.Fs
