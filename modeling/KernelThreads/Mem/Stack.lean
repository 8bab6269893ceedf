import KernelThreads.Mem.Paging

namespace KernelThreads

open Lib

/-! Stacks of threads, and writes to user memory, `vm.c`. -/

/-- The search of `cloneuvm` from the top of user memory downwards.  It passes
no page twice before it meets one without a table. -/
def findStack (pgdir : Frame) (size : Nat) : Nat → Nat → MemProgram Nat
  | 0, _ => throw .forever
  | turns + 1, va => do
      match ← walkpgdir pgdir va false with
      | none => return va
      | some (table, i) =>
          let pte ← load table i
          if !pte.has PTE_P then
            return va
          else if va < size then
            return va
          else
            findStack pgdir size turns (sub32 va PGSIZE)

def cloneGuard (pgdir : Frame) (va guardPage : Nat) (stackPage : Frame) :
    MemProgram Nat := do
  match ← walkpgdir pgdir (sub32 va PGSIZE) true with
  | none =>
      -- The entry of the stack page stays.
      kfree stackPage
      return 0
  | some (table, i) =>
      match ← walkpgdir pgdir guardPage false with
      | none => throw .guardPage
      | some (leaderTable, j) =>
          let pte ← load leaderTable j
          store table i pte
          return (va + PGSIZE) % 2 ^ 32

def cloneuvm (pgdir : Frame) (size guardPage : Nat) : MemProgram Nat := do
  let va ← findStack pgdir size (2 ^ 20) (KERNBASE - PGSIZE)
  if va < size then
    return 0
  else
    match ← walkpgdir pgdir va true with
    | none => return 0
    | some (table, i) =>
        match ← kalloc with
        | none => return 0
        | some stackPage =>
            memset stackPage 0
            store table i (.pte stackPage (PTE_U ||| PTE_W ||| PTE_P))
            if sub32 va PGSIZE < size then
              store table i 0
              kfree stackPage
              return 0
            else
              cloneGuard pgdir va guardPage stackPage

def freecloneuvm (pgdir : Frame) (tstack : Nat) : MemProgram Unit := do
  match ← walkpgdir pgdir (sub32 tstack PGSIZE) false with
  | none => throw .noStack
  | some (table, i) =>
      let pte ← load table i
      kfree pte.addr
      store table i 0
      match ← walkpgdir pgdir (sub32 tstack (2 * PGSIZE)) false with
      | none => throw .noGuard
      | some (guardTable, j) => store guardTable j 0

def presentPage (pgdir : Frame) (va : Nat) : MemProgram (Option Frame) := do
  match ← walkpgdir pgdir va false with
  | none => return none
  | some (table, i) =>
      let pte ← load table i
      return if pte.has PTE_P then some pte.addr else none

def copyThreadStack (dest : Frame) (destStack : Nat) (src : Frame)
    (srcStack : Nat) : MemProgram Bool := do
  match ← presentPage src srcStack with
  | none => return false
  | some source =>
      match ← presentPage dest destStack with
      | none => return false
      | some target =>
          copyPage target source
          return true

/-- The word at address 0 of a directory, or a fault in the kernel. -/
def nullWord (pgdir : Frame) : MemProgram Word := do
  match ← presentPage pgdir 0 with
  | none => throw .nullPointer
  | some frame => load frame 0

abbrev nullStop : MemProgram Word := throw .nullPointer

/-- `uva2ka` does not test the entry pointer it gets from `walkpgdir`; without a table
it goes on with what is at address 0 of the process that runs. -/
def uva2ka (null : MemProgram Word) (pgdir : Frame) (uva : Nat) :
    MemProgram (Option Frame) := do
  let pte ← match ← walkpgdir pgdir uva false with
    | none => null
    | some (table, i) => load table i
  return if pte.has PTE_P && pte.has PTE_U then some pte.addr else none

abbrev Byte := BitVec 8

def Word.setByte (word : Word) (k : Nat) (byte : Byte) : Word :=
  word &&& ~~~((0xFF : Word) <<< (8 * k)) ||| byte.zeroExtend 32 <<< (8 * k)

def Mem.writeBytes (m : Mem) (frame : Frame) : Nat → List Byte → Mem
  | _, [] => m
  | offset, byte :: rest =>
      let i : Index := ⟨offset / 4 % 1024, Nat.mod_lt _ (by decide)⟩
      (m.setWord frame i
        ((m.page frame i).setByte (offset % 4) byte)).writeBytes frame
          (offset + 1) rest

def moveBytes (frame : Frame) (offset : Nat) (bytes : List Byte) :
    MemProgram Unit :=
  modify (·.writeBytes frame offset bytes)

/-- The loop of `copyout`; every turn writes a byte or more. -/
def copyBytes (null : MemProgram Word) (pgdir : Frame) :
    Nat → Nat → List Byte → MemProgram Bool
  | 0, _, _ => return true
  | turns + 1, va, bytes => do
      if bytes = [] then
        return true
      else
        let va0 := pgRoundDown va
        match ← uva2ka null pgdir va0 with
        | none => return false
        | some frame =>
            let n := min (PGSIZE - (va - va0)) bytes.length
            moveBytes frame (va - va0) (bytes.take n)
            copyBytes null pgdir turns ((va0 + PGSIZE) % 2 ^ 32) (bytes.drop n)

def copyout (null : MemProgram Word) (pgdir : Frame) (va : Nat) (bytes : List Byte) :
    MemProgram Bool :=
  copyBytes null pgdir bytes.length va bytes

def Word.bytes (word : Word) : List Byte :=
  [word.extractLsb' 0 8, word.extractLsb' 8 8, word.extractLsb' 16 8,
    word.extractLsb' 24 8]

end KernelThreads
