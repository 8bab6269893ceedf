import KernelThreads.Mem.Image
import KernelThreads.Sched.System

namespace KernelThreads

open Lib

/-! The kernel with its memory.  A step is a step of the process table, whose
memory outcomes are now those of the calls into `vm.c` and `kalloc.c`. -/

structure Machine where
  sys : Sys
  mem : Mem

/-- Arguments of the system calls that the process table does not see. -/
structure Inputs where
  args : Word := 0
  sbrk : Option Int := none
  file : Option Readi := none
  argv : List (List Byte) := []

def kfreePointer : Option Frame → MemProgram Unit
  | none => throw .kfree
  | some frame => kfree frame

def onDir (pgdir : Option Frame) (call : Frame → MemProgram α) : MemProgram α :=
  match pgdir with
  | none => throw .nullPointer
  | some dir => call dir

namespace Table

def pushThreadFrame (null : MemProgram Word) (pgdir : Option Frame) (tstack : Nat)
    (args : Word) : MemProgram Bool :=
  onDir pgdir fun dir =>
    copyout null dir (sub32 tstack 8) (Word.bytes 0xffffffff ++ args.bytes)

def cloneShared (t : Table) (q tleader : Slot) (childStack : Nat) (args : Word) :
    MemProgram VmResult := do
  let p := t tleader
  let null := onDir (t q).pgdir nullWord
  if childStack = 0 then
    let tstack ← onDir p.pgdir fun dir =>
      cloneuvm dir p.sz (sub32 p.tstack (2 * PGSIZE))
    if tstack = 0 then
      return .cloneuvmFails
    else if ← pushThreadFrame null p.pgdir tstack args then
      return .ok 0 tstack
    else
      return .copyoutFails tstack
  else if ← pushThreadFrame null p.pgdir childStack args then
    return .ok 0 0
  else
    return .copyoutFails 0

def cloneCopied (t : Table) (q tleader : Slot) : MemProgram VmResult := do
  let p := t tleader
  match ← onDir p.pgdir fun dir => copyuvm dir p.sz with
  | none => return .copyuvmFails
  | some copy =>
      if q = tleader then
        return .ok copy 0
      else if ← onDir p.pgdir fun dir =>
          copyThreadStack copy (sub32 p.tstack PGSIZE) dir
            (sub32 (t q).tstack PGSIZE) then
        return .ok copy 0
      else
        return .stackCopyFails copy

def cloneVm (t : Table) (q tleader np : Slot) (flags : Flags)
    (childStack : Nat) (args : Word) : MemProgram VmResult := do
  let result ←
    if flags.has CLONE_VM then t.cloneShared q tleader childStack args
    else t.cloneCopied q tleader
  match result with
  | .copyuvmFails | .cloneuvmFails | .copyoutFails _ =>
      kfreePointer (t np).kstack
      return result
  | .ok .. | .stackCopyFails _ => return result

def reapChild (p : Proc) : MemProgram Unit := do
  kfreePointer p.kstack
  freevm p.pgdir

def reapThread (p : Proc) : MemProgram Unit := do
  kfreePointer p.kstack
  if p.tstackalloc then
    onDir p.pgdir fun dir => freecloneuvm dir p.tstack
  else
    return ()

def waitMem (t : Table) (q : Slot) (nullHit : Slot → Bool) : MemProgram Unit :=
  match t.waitFind q nullHit with
  | none => return ()
  | some p => reapChild (t p)

def joinMem (t : Table) (q p : Slot) : MemProgram Unit :=
  if !(t q).killed && (t p).state = .zombie then reapThread (t p)
  else return ()

def tgkillReapedSlots (t : Table) (cur : Slot) : List Slot :=
  (List.finRange NPROC).filter fun p =>
    t.isPeer cur p && (t p).state = .zombie && passed (t.tgkillLive cur) p

def reapThreads (t : Table) : List Slot → MemProgram Unit
  | [] => return ()
  | p :: rest => do
      reapThread (t p)
      t.reapThreads rest

def tgkillMem (t : Table) (cur : Slot) : MemProgram Unit :=
  t.reapThreads (t.tgkillReapedSlots cur)

def resized (sz : Nat) (n : Int) : Nat := (((sz : Int) + n) % 2 ^ 32).toNat

def growproc (t : Table) (q tleader : Slot) (n : Int) :
    MemProgram (Option Nat) := do
  let sz := (t tleader).sz
  if n = 0 then
    return some sz
  else
    let sz ← onDir (t q).pgdir fun dir =>
      if 0 < n then allocuvm dir sz (resized sz n)
      else deallocuvm dir sz (resized sz n)
    return if sz = 0 then none else some sz

def execLockMem (p : Proc) : MemProgram Unit :=
  if p.tid ≠ -1 ∧ p.tstackalloc = true then
    onDir p.pgdir fun dir => freecloneuvm dir p.tstack
  else return ()

def execMem (p : Proc) (file : Option Readi) (argv : List (List Byte)) :
    MemProgram (Option (Frame × Nat)) := do
  match ← loadImage (onDir p.pgdir nullWord) file argv with
  | none => return none
  | some loaded =>
      freevm p.pgdir
      return some (loaded.pgdir, loaded.sz)

end Table

namespace Machine

/-- What the code at a point does to memory, with the outcomes that the
process table sees. -/
def memory (s : Sys) (q : Slot) (x : Choice) (i : Inputs) :
    Pc → MemProgram Choice
  | .kernel =>
      match i.sbrk, s.proc.threadLeader q with
      | some n, some tleader => do
          match ← s.proc.growproc q tleader n with
          | none => return { x with kernel := .ret (-1) }
          | some sz => return { x with kernel := .grow sz }
      | some _, none => throw .nullPointer
      | none, _ =>
          match x.kernel with
          | .grow _ => return { x with kernel := .ret 0 }
          | .ret _ | .chdir _ => return x
  | .cloneKstack .. => do
      let kstack ← kalloc
      return { x with kalloc := kstack }
  | .cloneSetup np flags childStack =>
      match s.proc.threadLeader q with
      | none => throw .nullPointer
      | some tleader => do
          let vm ← s.proc.cloneVm q tleader np flags childStack i.args
          return { x with vm := vm }
  | .waitLock | .waitSlept => do
      s.proc.waitMem q x.nullHit
      return x
  | .joinLock p _ _ | .joinSlept p _ _ => do
      s.proc.joinMem q p
      return x
  | .tgkillLock _ => do
      (s.proc.tgkillMark q).tgkillMem q
      return x
  | .tgkillSlept _ => do
      s.proc.tgkillMem q
      return x
  | .execLock _ => do
      Table.execLockMem (s.proc q)
      return x
  | .execLoad => do
      let image ← Table.execMem (s.proc q) i.file i.argv
      return { x with load := image }
  | _ => return x

def turn (m : Machine) (c : Cpu) (q : Slot) (x : Choice) (i : Inputs) :
    Option Machine :=
  match memory m.sys q x i (m.sys.pc q) m.mem with
  | .error _ => none
  | .ok (x, mem) => (m.sys.thread c q x (m.sys.pc q)).map fun sys => ⟨sys, mem⟩

def step (m : Machine) : Label × Inputs → Option Machine
  | (.run c x, i) =>
      match (m.sys.cpu c).proc with
      | none => none
      | some q => m.turn c q x i
  | (label, _) => (m.sys.step label).map fun sys => ⟨sys, m.mem⟩

end Machine

end KernelThreads
