import Mathlib.Algebra.GroupWithZero.Nat
import KernelThreads.Lib.Scan

namespace KernelThreads

open Lib

/-! The process table of `proc.h` and the loops over it that run inside one
`ptable.lock` critical section. -/

abbrev NPROC : Nat := 64

instance : NeZero NPROC := ⟨by decide⟩

/-- A pointer into `ptable.proc`; null pointers are `none` of `Option Slot`. -/
abbrev Slot := Fin NPROC

/-- A page of physical memory, named by the upper 20 bits of its address. -/
abbrev Frame := BitVec 20

inductive ProcState where
  | unused | embryo | sleeping | runnable | running | zombie
  deriving DecidableEq, Repr

/-- Sleep channels: the address of a process slot, or any other address. -/
inductive Chan where
  | proc (slot : Slot)
  | other (address : Nat)
  deriving DecidableEq, Repr

structure Proc where
  sz : Nat := 0
  pgdir : Option Frame := none
  kstack : Option Frame := none
  state : ProcState := .unused
  pid : Int := 0
  tid : Int := 0
  tstack : Nat := 0
  tstackalloc : Bool := false
  parent : Option Slot := none
  chan : Option Chan := none
  killed : Bool := false
  cwd : Option Nat := none
  deriving DecidableEq, Repr

abbrev Table := Slot → Proc

/-- `initproc`: `userinit` runs on the all-zero table and takes slot 0. -/
def initproc : Slot := 0

abbrev Flags := BitVec 32

def CLONE_VM : Flags := 1
def CLONE_FS : Flags := 2
def CLONE_FILES : Flags := 4
def CLONE_THREAD : Flags := 8
def CLONE_PARENT : Flags := 16

def TFLAGS : Flags := CLONE_VM ||| CLONE_FS ||| CLONE_FILES ||| CLONE_THREAD

def FORKFLAGS : Flags := CLONE_FS ||| CLONE_FILES

def Flags.has (flags flag : Flags) : Bool := flags &&& flag != 0

namespace Proc

def markKilled (p : Proc) : Proc :=
  { p with
    killed := true
    state := if p.state = .sleeping then .runnable else p.state }

/-- The first loop of `tgkill` also forgets the channel of a sleeper. -/
def markGroupKilled (p : Proc) : Proc :=
  { p.markKilled with
    chan := if p.state = .sleeping then none else p.chan }

/-- Fields reset by every reaper; `wait` and `tgkill` reset no more. -/
def reap (p : Proc) : Proc :=
  { p with
    kstack := none
    pid := 0
    tid := 0
    tstack := 0
    parent := none
    killed := false
    state := .unused }

def joinReap (p : Proc) : Proc :=
  { p.reap with pgdir := none }

end Proc

namespace Table

def threadLeader (t : Table) (p : Slot) : Option Slot :=
  if (t p).tid = -1 then some p else (t p).parent

def slotChan (p : Option Slot) : Option Chan := p.map .proc

def wakeup1 (t : Table) (chan : Option Chan) : Table := fun p =>
  if (t p).state = .sleeping ∧ (t p).chan = chan then
    { t p with state := .runnable }
  else t p

def findUnused (t : Table) : Option Slot :=
  firstSlot fun p => (t p).state = .unused

def setSize (t : Table) (cur tleader : Slot) (sz : Nat) : Table := fun p =>
  if p = cur ∨ p = tleader then { t p with sz := sz } else t p

def killFind (t : Table) (pid : Int) : Option Slot :=
  firstSlot fun p => (t p).pid = pid ∧ (t p).tid = -1

def tkillFind (t : Table) (cur : Slot) (tid : Int) : Option Slot :=
  firstSlot fun p => (t p).pid = (t cur).pid ∧ (t p).tid = tid

def killSlot (t : Table) (p : Slot) : Table :=
  setSlot t p (t p).markKilled

def isPeer (t : Table) (cur p : Slot) : Bool :=
  (t p).pid = (t cur).pid ∧ (t p).tid ≠ -1

def tgkillMark (t : Table) (cur : Slot) : Table := fun p =>
  if t.isPeer cur p then (t p).markGroupKilled else t p

/-- The peer at which the reaping loop breaks: `havethreads` is 1 exactly when
there is one. -/
def tgkillLive (t : Table) (cur : Slot) : Option Slot :=
  firstSlot fun p => t.isPeer cur p ∧ (t p).state ≠ .zombie

def passed (stop : Option Slot) (p : Slot) : Bool :=
  match stop with
  | none => true
  | some live => p < live

def tgkillReap (t : Table) (cur : Slot) : Table := fun p =>
  if t.isPeer cur p ∧ (t p).state = .zombie ∧ passed (t.tgkillLive cur) p then
    (t p).reap
  else t p

/-! `wait`.  For a slot whose leader pointer is null the test reads the user's
page 0; `nullHit` says whether the word found there is the caller's leader. -/

def waitKid (t : Table) (cur : Slot) (nullHit : Slot → Bool) (p : Slot) : Bool :=
  match t.threadLeader p with
  | some leader => (t leader).parent = t.threadLeader cur
  | none => nullHit p

def waitFind (t : Table) (cur : Slot) (nullHit : Slot → Bool) : Option Slot :=
  firstSlot fun p =>
    t.waitKid cur nullHit p ∧ (t p).state = .zombie ∧ (t p).tid = -1

def havekids (t : Table) (cur : Slot) (nullHit : Slot → Bool) : Bool :=
  (firstSlot fun p => t.waitKid cur nullHit p).isSome

def joinFind (t : Table) (cur : Slot) (tid : Int) : Option Slot :=
  firstSlot fun p => (t p).tid = tid ∧ (t p).parent = t.threadLeader cur

def tresumeFind (t : Table) (cur : Slot) (tid : Int) : Option Slot :=
  firstSlot fun p => (t p).tid = tid ∧ (t p).pid = (t cur).pid

/-- The locked section of `tresume`; it does not look at the state. -/
def tresumeSlot (t : Table) (p : Slot) : Table :=
  setSlot t p { t p with state := .runnable, chan := none }

/-- Wake the leader, if the caller is a peer, and then the parent. -/
def exitWakeup (t : Table) (cur : Slot) : Table :=
  let t :=
    if (t cur).tid ≠ -1 then t.wakeup1 (slotChan (t.threadLeader cur)) else t
  t.wakeup1 (slotChan (t cur).parent)

def isChild (t : Table) (cur p : Slot) : Bool :=
  (t p).parent = some cur ∧ (t p).tid = -1

def passToInit (t : Table) (cur : Slot) : Table := fun p =>
  if t.isChild cur p then { t p with parent := some initproc } else t p

/-- Pass abandoned children to init; waking init inside the loop changes
nothing that the loop tests. -/
def exitReparent (t : Table) (cur : Slot) : Table :=
  if (firstSlot fun p => t.isChild cur p ∧ (t p).state = .zombie).isSome then
    (t.passToInit cur).wakeup1 (slotChan (some initproc))
  else t.passToInit cur

def exitSlot (t : Table) (cur : Slot) : Table :=
  let t := (t.exitWakeup cur).exitReparent cur
  setSlot t cur { t cur with state := .zombie }

/-! The hand-off of leadership at the start of `exec`, for a caller with
`tid != -1` and the leader pointer it read before taking the lock. -/

/-- The leader takes the caller's `tid`; the caller takes its place. -/
def handOffSwap (t : Table) (cur tleader : Slot) : Table :=
  let t := setSlot t tleader { t tleader with tid := (t cur).tid }
  setSlot t cur { t cur with tid := -1, parent := (t tleader).parent }

def handOffChildren (t : Table) (cur tleader : Slot) : Table := fun p =>
  if (t p).parent = some tleader ∧ (t p).tid = -1 then
    { t p with parent := some cur }
  else t p

def handOffPeers (t : Table) (cur : Slot) : Table := fun p =>
  if (t p).pid = (t cur).pid ∧ p ≠ cur then
    { t p with parent := some cur, killed := true }
  else t p

def handOff (t : Table) (cur tleader : Slot) : Table :=
  ((t.handOffSwap cur tleader).handOffChildren cur tleader).handOffPeers cur

end Table

end KernelThreads
