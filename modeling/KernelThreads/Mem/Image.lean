import KernelThreads.Mem.Stack

namespace KernelThreads

open Lib

/-! The loading part of `exec`, which builds the new address space. -/

def MAXARG : Nat := 32
def ELF_MAGIC : Nat := 0x464C457F
def ELF_PROG_LOAD : Nat := 1

/-- `readi`: the bytes it delivers at an offset, at most as many as asked for.
Every caller in `exec` takes fewer for an error. -/
abbrev Readi := Nat → Nat → List Byte

def field (header : List Byte) (offset size : Nat) : Nat :=
  ((header.drop offset).take size).foldr
    (fun byte rest => byte.toNat + 256 * rest) 0

def loadPages (pgdir : Frame) (addr : Nat) (readi : Readi) (offset sz : Nat) :
    Nat → Nat → MemProgram Bool
  | 0, _ => return true
  | turns + 1, i => do
      if i < sz then
        match ← walkpgdir pgdir (addr + i) false with
        | none => throw .loaduvm
        | some (table, j) =>
            let pte ← load table j
            let n := min (sz - i) PGSIZE
            let bytes := (readi ((offset + i) % 2 ^ 32) n).take n
            moveBytes pte.addr 0 bytes
            if bytes.length ≠ n then
              return false
            else
              loadPages pgdir addr readi offset sz turns (i + PGSIZE)
      else
        return true

def loaduvm (pgdir : Frame) (addr : Nat) (readi : Readi) (offset sz : Nat) :
    MemProgram Bool :=
  if addr % PGSIZE ≠ 0 then throw .loaduvm
  else loadPages pgdir addr readi offset sz (sz / PGSIZE + 1) 0

structure Proghdr where
  type : Nat
  off : Nat
  vaddr : Nat
  filesz : Nat
  memsz : Nat

def proghdr (bytes : List Byte) : Proghdr where
  type := field bytes 0 4
  off := field bytes 4 4
  vaddr := field bytes 8 4
  filesz := field bytes 16 4
  memsz := field bytes 20 4

def loadSegment (readi : Readi) (pgdir : Frame) (ph : Proghdr) (sz : Nat) :
    MemProgram (Option Nat) := do
  if ph.type ≠ ELF_PROG_LOAD then
    return some sz
  else if ph.memsz < ph.filesz ∨ 2 ^ 32 ≤ ph.vaddr + ph.memsz then
    return none
  else
    let sz ← allocuvm pgdir sz (ph.vaddr + ph.memsz)
    if sz = 0 ∨ ph.vaddr % PGSIZE ≠ 0 then
      return none
    else if ← loaduvm pgdir ph.vaddr readi ph.off ph.filesz then
      return some sz
    else
      return none

def loadSegments (readi : Readi) (pgdir : Frame) :
    Nat → Nat → Nat → MemProgram (Option Nat)
  | 0, _, sz => return some sz
  | more + 1, off, sz => do
      let bytes := readi off 32
      if bytes.length ≠ 32 then
        return none
      else
        match ← loadSegment readi pgdir (proghdr bytes) sz with
        | none => return none
        | some sz => loadSegments readi pgdir more ((off + 32) % 2 ^ 32) sz

def pushArgs (null : MemProgram Word) (pgdir : Frame) :
    List (List Byte) → Nat → List Nat → MemProgram (Option (Nat × List Nat))
  | [], sp, ustack => return some (sp, ustack)
  | arg :: rest, sp, ustack => do
      if MAXARG ≤ ustack.length then
        return none
      else
        let sp := sub32 sp (arg.length + 1) / 4 * 4
        if ← copyout null pgdir sp (arg ++ [0]) then
          pushArgs null pgdir rest sp (ustack ++ [sp])
        else
          return none

def argFrame (sp : Nat) (ustack : List Nat) : List Byte :=
  let argc := ustack.length
  let words := 0xffffffff :: argc :: sub32 sp ((argc + 1) * 4) :: ustack ++ [0]
  words.flatMap fun word => Word.bytes (.ofNat 32 word)

def setupStack (null : MemProgram Word) (pgdir : Frame) (sz : Nat) (argv : List (List Byte)) :
    MemProgram (Option (Nat × Nat)) := do
  let sz := pgRoundUp sz
  let sz ← allocuvm pgdir sz (sz + 2 * PGSIZE)
  if sz = 0 then
    return none
  else
    clearpteu pgdir (sz - 2 * PGSIZE)
    match ← pushArgs null pgdir argv sz [] with
    | none => return none
    | some (sp, ustack) =>
        let top := sub32 sp ((3 + ustack.length + 1) * 4)
        if ← copyout null pgdir top (argFrame sp ustack) then
          return some (sz, top)
        else
          return none

/-- What `exec` commits: directory, size, entry point and stack pointer. -/
structure Loaded where
  pgdir : Frame
  sz : Nat
  eip : Nat
  esp : Nat

def buildImage (null : MemProgram Word) (readi : Readi) (elf : List Byte)
    (pgdir : Frame) (argv : List (List Byte)) : MemProgram (Option Loaded) := do
  match ← loadSegments readi pgdir (field elf 44 2) (field elf 28 4) 0 with
  | none => return none
  | some sz =>
      match ← setupStack null pgdir sz argv with
      | none => return none
      | some (sz, sp) => return some ⟨pgdir, sz, field elf 24 4, sp⟩

def loadImage (null : MemProgram Word) (file : Option Readi) (argv : List (List Byte)) :
    MemProgram (Option Loaded) := do
  match file with
  | none => return none
  | some readi =>
      let elf := readi 0 52
      if elf.length ≠ 52 ∨ field elf 0 4 ≠ ELF_MAGIC then
        return none
      else
        match ← setupkvm with
        | none => return none
        | some pgdir =>
            match ← buildImage null readi elf pgdir argv with
            | none =>
                freevm (some pgdir)
                return none
            | some loaded => return some loaded

end KernelThreads
