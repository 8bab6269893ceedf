import KernelThreads.Lib.Memory
import KernelThreads.Lib.Program
import KernelThreads.Mem.Page

namespace KernelThreads.User

open Lib

/-! The allocator of user programs, `umalloc.c`.  A header is two words, the
pointer and then the size in units of a header. -/

/-- The loops run out of turns, or an access is outside the memory of the
process. -/
inductive HeapStop where
  | outOfFuel
  | fault
  deriving DecidableEq, Repr

/-- What the kernel keeps of a process is `κ`: the system call, with -1 for
failure, and the first address that is not mapped. -/
structure Breaks (κ : Type) where
  sbrk : Word → κ → Word × κ
  limit : κ → Nat

structure Heap (κ : Type) where
  mem : Memory
  freep : Word
  kernel : κ

abbrev HeapProgram (κ : Type) := Program HeapStop (Heap κ)

def TURNS : Nat := 2 ^ 32

def unit (p k : Word) : Word := p + 8 * k

section Umalloc

variable {κ : Type} (sys : Breaks κ) (base : Word)

def load (a : Word) : HeapProgram κ Word := do
  let h ← get
  if a.toNat + 4 ≤ sys.limit h.kernel then return h.mem.word a
  else throw .fault

def store (a w : Word) : HeapProgram κ Unit := do
  let h ← get
  if a.toNat + 4 ≤ sys.limit h.kernel then
    set { h with mem := h.mem.setWord a w }
  else throw .fault

def loadPtr (p : Word) : HeapProgram κ Word := load sys p

def loadSize (p : Word) : HeapProgram κ Word := load sys (p + 4)

def storePtr (p w : Word) : HeapProgram κ Unit := store sys p w

def storeSize (p w : Word) : HeapProgram κ Unit := store sys (p + 4) w

def setFreep (p : Word) : HeapProgram κ Unit := do
  let h ← get
  set { h with freep := p }

def findPlace (bp : Word) : Nat → Word → HeapProgram κ Word
  | 0, _ => throw .outOfFuel
  | turns + 1, p => do
      let next ← loadPtr sys p
      if p < bp ∧ bp < next then return p
      else if next ≤ p ∧ (p < bp ∨ bp < next) then return p
      else findPlace bp turns next

def joinNext (p bp : Word) : HeapProgram κ Unit := do
  let size ← loadSize sys bp
  let next ← loadPtr sys p
  if unit bp size = next then
    storeSize sys bp (size + (← loadSize sys next))
    storePtr sys bp (← loadPtr sys next)
  else
    storePtr sys bp next

def joinPrev (p bp : Word) : HeapProgram κ Unit := do
  let size ← loadSize sys p
  if unit p size = bp then
    storeSize sys p (size + (← loadSize sys bp))
    storePtr sys p (← loadPtr sys bp)
  else
    storePtr sys p bp

def free (ap : Word) : HeapProgram κ Unit := do
  let bp := ap - 8
  let p ← findPlace sys bp TURNS (← get).freep
  joinNext sys p bp
  joinPrev sys p bp
  setFreep p

def sbrk (n : Word) : HeapProgram κ Word := do
  let h ← get
  let (p, kernel) := sys.sbrk n h.kernel
  set { h with kernel }
  return p

def morecore (nu : Word) : HeapProgram κ Word := do
  let nu := if nu < 4096 then 4096 else nu
  let p ← sbrk sys (nu * 8)
  if p = -1 then return 0
  else
    storeSize sys p nu
    free sys (p + 8)
    return (← get).freep

/-- The end of the search: a block of `nunits` from the block at `p`, which comes
after `prevp`. -/
def take (nunits prevp p : Word) : HeapProgram κ Word := do
  let size ← loadSize sys p
  if size = nunits then
    storePtr sys prevp (← loadPtr sys p)
    setFreep prevp
    return p + 8
  else
    storeSize sys p (size - nunits)
    let p := unit p (size - nunits)
    storeSize sys p nunits
    setFreep prevp
    return p + 8

def search (nunits : Word) : Nat → Word → Word → HeapProgram κ Word
  | 0, _, _ => throw .outOfFuel
  | turns + 1, prevp, p => do
      let size ← loadSize sys p
      if nunits ≤ size then take sys nunits prevp p
      else if p = (← get).freep then
        let p ← morecore sys nunits
        if p = 0 then return 0
        else search nunits turns p (← loadPtr sys p)
      else search nunits turns p (← loadPtr sys p)

def nunits (nbytes : Word) : Word := (nbytes + 8 - 1) / 8 + 1

def malloc (nbytes : Word) : HeapProgram κ Word := do
  let freep := (← get).freep
  if freep = 0 then
    setFreep base
    storePtr sys base base
    storeSize sys base 0
    search sys (nunits nbytes) TURNS base (← loadPtr sys base)
  else
    search sys (nunits nbytes) TURNS freep (← loadPtr sys freep)

end Umalloc

end KernelThreads.User
