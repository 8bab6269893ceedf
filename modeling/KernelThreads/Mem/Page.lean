import KernelThreads.Lib.Program
import KernelThreads.Proc.Table

namespace KernelThreads

open Lib

/-! Physical memory and its allocator, `kalloc.c`. -/

def PGSIZE : Nat := 4096
def KERNBASE : Nat := 0xC800000
def PHYSTOP : Nat := 0xE000000
def EXTMEM : Nat := 0x100000
def DEVSPACE : Nat := 0xFE000000

inductive Stop where
  | kfree
  | remap
  | freevm
  | clearpteu
  | copyuvm
  | guardPage
  | noStack
  | noGuard
  | loaduvm
  | nullPointer
  | forever
  | trap
  deriving DecidableEq, Repr

abbrev Word := BitVec 32

/-- An index into a page of words: `PDX(va)`, `PTX(va)`. -/
abbrev Index := Fin 1024

instance Index.instNeZero : NeZero 1024 := ⟨by decide⟩

abbrev PteFlags := BitVec 12

def PTE_P : PteFlags := 1
def PTE_W : PteFlags := 2
def PTE_U : PteFlags := 4

namespace Word

def pte (frame : Frame) (flags : PteFlags) : Word := frame ++ flags

def addr (word : Word) : Frame := word.extractLsb' 12 20

def flags (word : Word) : PteFlags := word.extractLsb' 0 12

def has (word : Word) (flag : PteFlags) : Bool := word.flags &&& flag ≠ 0

@[simp] theorem addr_pte (frame : Frame) (flags : PteFlags) :
    (pte frame flags).addr = frame := by
  simp only [addr, pte]
  exact BitVec.extractLsb'_append_eq_left

@[simp] theorem flags_pte (frame : Frame) (flags : PteFlags) :
    (pte frame flags).flags = flags := by
  simp only [Word.flags, pte]
  exact BitVec.extractLsb'_append_eq_right

end Word

/-- Symbols of the linker script, as pages: `data`, and the first page past
`end`. -/
structure Image where
  data : Frame
  kend : Frame
  text : EXTMEM / PGSIZE < data.toNat
  fits : data.toNat < PHYSTOP / PGSIZE

def Image.sample : Image := ⟨0x110, 0x120, by decide, by decide⟩

/-- Physical memory by pages of words, and the free list of `kmem`. -/
structure Mem where
  image : Image
  freelist : List Frame
  page : Frame → Index → Word

abbrev MemProgram := Program Stop Mem

namespace Mem

def setPage (m : Mem) (frame : Frame) (content : Index → Word) : Mem :=
  { m with page := Function.update m.page frame content }

def setWord (m : Mem) (frame : Frame) (i : Index) (word : Word) : Mem :=
  m.setPage frame (Function.update (m.page frame) i word)

def fill (m : Mem) (frame : Frame) (byte : BitVec 8) : Mem :=
  m.setPage frame fun _ => (byte ++ byte ++ byte ++ byte : BitVec 32)

end Mem

def load (frame : Frame) (i : Index) : MemProgram Word := do
  return (← get).page frame i

def store (frame : Frame) (i : Index) (word : Word) : MemProgram Unit :=
  modify (·.setWord frame i word)

def memset (frame : Frame) (byte : BitVec 8) : MemProgram Unit :=
  modify (·.fill frame byte)

def copyPage (target source : Frame) : MemProgram Unit :=
  modify fun m => m.setPage target (m.page source)

def kfree (frame : Frame) : MemProgram Unit := do
  let m ← get
  if frame < m.image.kend ∨ PHYSTOP / PGSIZE ≤ frame.toNat then
    throw .kfree
  else
    memset frame 1
    modify fun m => { m with freelist := frame :: m.freelist }

def kalloc : MemProgram (Option Frame) := do
  let m ← get
  match m.freelist with
  | [] => return none
  | frame :: rest =>
      modify fun m => { m with freelist := rest }
      return some frame

end KernelThreads
