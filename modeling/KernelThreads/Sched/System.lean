import Mathlib.Tactic.Simps.Basic
import KernelThreads.Lib.Transition
import KernelThreads.Proc.Table

namespace KernelThreads

open Lib

/-! The kernel as a transition system.  One step is one `ptable.lock` critical
section, up to the switch that ends it, or the unlocked code between two of
them.  Memory is seen only through the outcomes of its calls.  What a call takes from
user page 0 through a null leader pointer is left out. -/

abbrev Cpu := Nat

structure CpuState where
  proc : Option Slot := none
  scan : Nat := 0
  deriving DecidableEq, Repr

inductive TgkillCaller where
  | syscall | exit | exec
  deriving DecidableEq, Repr

inductive Pc where
  | user
  | trapret (eax : Int)
  | kernel
  | forkret
  | yielded (next : Pc)
  | asleep (next : Pc)
  | allocproc (flags : Flags) (childStack : Nat)
  | cloneKstack (np : Slot) (flags : Flags) (childStack : Nat)
  | cloneSetup (np : Slot) (flags : Flags) (childStack : Nat)
  | cloneIds (np : Slot) (flags : Flags)
  | clonePublish (np : Slot) (retid : Int)
  | exitFiles
  | exitGroup
  | exitLock
  | exited
  | waitLock
  | waitSlept
  | joinScan (tid : Int)
  | joinLock (p : Slot) (tid : Int) (tleader : Option Slot)
  | joinSlept (p : Slot) (tid : Int) (tleader : Option Slot)
  | killLock (pid : Int)
  | tkillLock (tid : Int)
  | tgkillCheck (caller : TgkillCaller)
  | tgkillLock (caller : TgkillCaller)
  | tgkillSlept (caller : TgkillCaller)
  | tsuspendCheck
  | tsuspendLock
  | tsuspendSlept
  | tresumeScan (tid : Int)
  | tresumeLock (p : Slot)
  | execLeader
  | execLock (tleader : Option Slot)
  | execLoad
  deriving DecidableEq, Repr

/-- The point a thread returns to, looking through a preemption or a sleep on
a channel that is not a process slot. -/
def Pc.base : Pc → Pc
  | .yielded next => next.base
  | .asleep next => next.base
  | pc => pc

structure Sys where
  proc : Table
  /-- An `int` in C: that a new `pid` or `tid` is new is for fewer than 2 ^ 31 calls of
  `allocproc`. -/
  nextpid : Int
  /-- The holder of `ptable.lock`. -/
  lock : Option Cpu
  cpu : Cpu → CpuState
  pc : Slot → Pc
  /-- Page directories that are allocated. -/
  dirs : Frame → Bool
  /-- References held on each inode. -/
  iref : Nat → Nat

inductive Syscall where
  | clone (flags : Flags) (childStack : Nat)
  | fork
  | exit
  | wait
  | join (tid : Int)
  | kill (pid : Int)
  | tkill (tid : Int)
  | tgkill
  | tsuspend
  | tresume (tid : Int)
  | exec
  | other
  deriving DecidableEq, Repr

/-- The first code of the call once `trap` has dispatched it. -/
def Syscall.entry : Syscall → Pc
  | .clone flags childStack => .allocproc flags childStack
  | .fork => .allocproc FORKFLAGS 0
  | .exit => .exitFiles
  | .wait => .waitLock
  | .join tid => .joinScan tid
  | .kill pid => .killLock pid
  | .tkill tid => if tid = -1 then .trapret (-1) else .tkillLock tid
  | .tgkill => .tgkillCheck .syscall
  | .tsuspend => .tsuspendCheck
  | .tresume tid => .tresumeScan tid
  | .exec => .execLeader
  | .other => .kernel

inductive UserAct where
  | call (call : Syscall)
  | fault
  deriving DecidableEq, Repr

inductive KernelAct where
  | ret (eax : Int)
  | grow (sz : Nat)
  | chdir (inode : Nat)
  deriving DecidableEq, Repr

inductive VmResult where
  | ok (dir : Frame) (tstack : Nat)
  | copyuvmFails
  | cloneuvmFails
  | copyoutFails (tstack : Nat)
  | stackCopyFails (dir : Frame)
  deriving DecidableEq, Repr

structure Choice where
  user : UserAct := .call .other
  kernel : KernelAct := .ret 0
  kalloc : Option Frame := some 0
  vm : VmResult := .ok 0 0
  nullHit : Slot → Bool := fun _ => false
  /-- The image `exec` loads, and its size. -/
  load : Option (Frame × Nat) := none

inductive Label where
  | schedAcquire (c : Cpu)
  | schedScan (c : Cpu)
  | wakeup (address : Nat)
  | preempt (c : Cpu)
  | block (c : Cpu) (address : Nat)
  | run (c : Cpu) (choice : Choice)

namespace Sys

@[simps -fullyApplied] def goto (s : Sys) (q : Slot) (pc : Pc) : Sys :=
  { s with pc := setSlot s.pc q pc }

@[simps -fullyApplied] def finish (s : Sys) (q : Slot) (pc : Pc) : Sys :=
  { s with lock := none, pc := setSlot s.pc q pc }

/-- `sched`: the lock stays with the CPU, whose scheduler loop goes on at the
next slot; the thread resumes at `pc`. -/
@[simps -fullyApplied] def sched (s : Sys) (c : Cpu) (q : Slot) (pc : Pc) : Sys :=
  { s with
    lock := some c
    cpu := Function.update s.cpu c { proc := none, scan := q + 1 }
    pc := setSlot s.pc q pc }

@[simps -fullyApplied] def setProc (s : Sys) (q : Slot) (p : Proc) : Sys :=
  { s with proc := setSlot s.proc q p }

def sleep (s : Sys) (c : Cpu) (q : Slot) (chan : Option Chan) (pc : Pc) : Sys :=
  (s.setProc q { s.proc q with chan := chan, state := .sleeping }).sched c q pc

def tidy (s : Sys) (q : Slot) : Sys :=
  s.setProc q { s.proc q with chan := none }

def acquire (s : Sys) (next : Option Sys) : Option Sys :=
  if s.lock = none then next else none

def resume (s : Sys) (c : Cpu) (next : Option Sys) : Option Sys :=
  if s.lock = some c then next else none

def allocproc (s : Sys) (q : Slot) (flags : Flags) (childStack : Nat) : Sys :=
  match s.proc.findUnused with
  | none => s.finish q (.trapret (-1))
  | some np =>
      { s with
        proc := setSlot s.proc np
          { s.proc np with state := .embryo, pid := s.nextpid }
        nextpid := s.nextpid + 1 }.finish q (.cloneKstack np flags childStack)

def cloneKstack (s : Sys) (q np : Slot) (flags : Flags) (childStack : Nat) :
    Option Frame → Sys
  | none =>
      (s.setProc np { s.proc np with kstack := none, state := .unused }).goto q
        (.trapret (-1))
  | some kstack =>
      ((s.setProc np
        { s.proc np with
          kstack := some kstack
          tid := -1
          tstack := 0
          tstackalloc := false }).goto np .forkret).goto q
            (.cloneSetup np flags childStack)

/-- How the memory part of `clone` ends, with the slot as it leaves it. -/
inductive Setup where
  | done (p : Proc) (dir : Option Frame)
  | undone (p : Proc)
  | left (p : Proc) (dir : Frame)

/-- Parent, address space and stack of the new thread; `tleader` is the
caller's leader. -/
def setupVm (t : Table) (q tleader np : Slot) (flags : Flags)
    (childStack : Nat) (vm : VmResult) : Option Setup :=
  let p : Proc :=
    { t np with
      sz := (t tleader).sz
      parent :=
        if flags.has CLONE_PARENT then (t tleader).parent else some tleader }
  if flags.has CLONE_VM then
    let p := { p with pgdir := (t tleader).pgdir }
    let onStack (tstack : Nat) : Proc :=
      if childStack = 0 then { p with tstack := tstack, tstackalloc := true }
      else { p with tstack := childStack }
    match vm with
    | .ok _ tstack => some (.done (onStack tstack) none)
    | .cloneuvmFails =>
        if childStack = 0 then some (.undone { p with tstack := 0 }) else none
    | .copyoutFails tstack => some (.undone (onStack tstack))
    | _ => none
  else
    match vm with
    | .ok dir _ =>
        some (.done { p with pgdir := some dir, tstack := (t tleader).tstack }
          (some dir))
    | .copyuvmFails => some (.undone { p with pgdir := none })
    -- The one failure that returns without undoing what was done.
    | .stackCopyFails dir =>
        if q ≠ tleader then
          some (.left
            { p with pgdir := some dir, tstack := (t tleader).tstack } dir)
        else none
    | _ => none

def undo (p : Proc) : Proc := { p with kstack := none, state := .unused }

/-- `copyuvm` returns a page that is not in use as a directory. -/
def dirFree (s : Sys) : Option Frame → Bool
  | none => true
  | some dir => !s.dirs dir

def addDir (s : Sys) : Option Frame → Frame → Bool
  | none => s.dirs
  | some dir => Function.update s.dirs dir true

/-- On a null pointer `idup` and `iput` count in a word of the caller's page 0
and reach no inode. -/
def idup (iref : Nat → Nat) (ip : Option Nat) (inode : Nat) : Nat :=
  if ip = some inode then iref inode + 1 else iref inode

def iput (iref : Nat → Nat) (ip : Option Nat) (inode : Nat) : Nat :=
  if ip = some inode then iref inode - 1 else iref inode

def cloneCwd (s : Sys) (q : Slot) (flags : Flags) (p : Proc) : Proc × (Nat → Nat) :=
  if flags.has CLONE_FS then
    ({ p with cwd := (s.proc q).cwd }, idup s.iref (s.proc q).cwd)
  else (p, s.iref)

def cloneSetup (s : Sys) (q np : Slot) (flags : Flags) (childStack : Nat)
    (vm : VmResult) : Option Sys :=
  match s.proc.threadLeader q with
  | none => none
  | some tleader =>
      match setupVm s.proc q tleader np flags childStack vm with
      | none => none
      | some (.undone p) =>
          some ((s.setProc np (undo p)).goto q (.trapret (-1)))
      | some (.left p dir) =>
          if s.dirFree (some dir) then
            some ({ s.setProc np p with dirs := s.addDir (some dir) }.goto q
              (.trapret (-1)))
          else none
      | some (.done p dir) =>
          if s.dirFree dir then
            let (built, iref) := s.cloneCwd q flags p
            some ({ s.setProc np built with
              dirs := s.addDir dir
              iref := iref }.goto q (.cloneIds np flags))
          else none

def cloneIds (s : Sys) (q np : Slot) (flags : Flags) : Sys :=
  if flags.has CLONE_THREAD then
    (s.setProc np
      { s.proc np with tid := (s.proc np).pid, pid := (s.proc q).pid }).goto q
        (.clonePublish np (s.proc np).pid)
  else
    (s.setProc np { s.proc np with tid := -1 }).goto q
      (.clonePublish np (s.proc np).pid)

def clonePublish (s : Sys) (q np : Slot) (retid : Int) : Sys :=
  (s.setProc np { s.proc np with state := .runnable }).finish q (.trapret retid)

def exitFiles (s : Sys) (q : Slot) : Option Sys :=
  if q = initproc then none
  else
    some ({ s.setProc q { s.proc q with cwd := none } with
      iref := iput s.iref (s.proc q).cwd }.goto q .exitGroup)

def exitGroup (s : Sys) (q : Slot) : Sys :=
  s.goto q (if (s.proc q).tid = -1 then .tgkillCheck .exit else .exitLock)

def exitLock (s : Sys) (c : Cpu) (q : Slot) : Sys :=
  { s with proc := s.proc.exitSlot q }.sched c q .exited

def freevm (s : Sys) : Option Frame → Option Sys
  | none => none
  | some dir => some { s with dirs := Function.update s.dirs dir false }

def waitTurn (s : Sys) (c : Cpu) (q : Slot) (nullHit : Slot → Bool) :
    Option Sys :=
  match s.proc.waitFind q nullHit with
  | some p =>
      (s.freevm (s.proc p).pgdir).map fun freed =>
        (freed.setProc p (s.proc p).reap).finish q (.trapret (s.proc p).pid)
  | none =>
      if !s.proc.havekids q nullHit || (s.proc q).killed then
        some (s.finish q (.trapret (-1)))
      else
        some (s.sleep c q (Table.slotChan (s.proc.threadLeader q)) .waitSlept)

def joinScan (s : Sys) (q : Slot) (tid : Int) : Sys :=
  if tid = -1 then s.goto q (.trapret (-1))
  else
    match s.proc.joinFind q tid with
    | none => s.goto q (.trapret (-1))
    | some p =>
        if (s.proc q).killed then s.goto q (.trapret (-1))
        else s.goto q (.joinLock p tid (s.proc.threadLeader q))

def joinTurn (s : Sys) (c : Cpu) (q p : Slot) (tid : Int)
    (tleader : Option Slot) : Sys :=
  if (s.proc q).killed then s.finish q (.trapret (-1))
  else if (s.proc p).state = .zombie then
    (s.setProc p (s.proc p).joinReap).finish q (.trapret (s.proc p).tid)
  else s.sleep c q (Table.slotChan tleader) (.joinSlept p tid tleader)

def killFound (s : Sys) (q : Slot) : Option Slot → Sys
  | none => s.finish q (.trapret (-1))
  | some p => { s with proc := s.proc.killSlot p }.finish q (.trapret 0)

def kill (s : Sys) (q : Slot) (pid : Int) : Sys :=
  s.killFound q (s.proc.killFind pid)

def tkill (s : Sys) (q : Slot) (tid : Int) : Sys :=
  s.killFound q (s.proc.tkillFind q tid)

def tgkillReturn : TgkillCaller → Int → Pc
  | .syscall, result => .trapret result
  | .exit, _ => .exitLock
  | .exec, _ => .execLoad

def tgkillCheck (s : Sys) (q : Slot) (caller : TgkillCaller) : Sys :=
  s.goto q
    (if s.proc.threadLeader q = some q then .tgkillLock caller
      else tgkillReturn caller (-1))

def tgkillTurn (s : Sys) (c : Cpu) (q : Slot) (caller : TgkillCaller) : Sys :=
  let reaped := { s with proc := s.proc.tgkillReap q }
  match s.proc.tgkillLive q with
  | none => reaped.finish q (tgkillReturn caller 0)
  | some _ =>
      if (s.proc q).killed then reaped.finish q (tgkillReturn caller (-1))
      else reaped.sleep c q (some (.proc q)) (.tgkillSlept caller)

def tgkillMark (s : Sys) (q : Slot) : Sys :=
  { s with proc := s.proc.tgkillMark q }

def tsuspendCheck (s : Sys) (q : Slot) : Sys :=
  s.goto q
    (if s.proc.threadLeader q = some q then .trapret (-1) else .tsuspendLock)

def tresumeScan (s : Sys) (q : Slot) (tid : Int) : Sys :=
  if tid = -1 then s.goto q (.trapret (-1))
  else
    match s.proc.tresumeFind q tid with
    | none => s.goto q (.trapret (-1))
    | some p =>
        if (s.proc q).killed then s.goto q (.trapret (-1))
        else s.goto q (.tresumeLock p)

def tresumeLock (s : Sys) (q p : Slot) : Sys :=
  { s with proc := s.proc.tresumeSlot p }.finish q (.trapret 0)

def execLock (s : Sys) (q : Slot) (tleader : Option Slot) : Option Sys :=
  if (s.proc q).tid = -1 then some (s.finish q (.tgkillCheck .exec))
  else
    match tleader with
    | none => none
    | some leader =>
        some ({ s with proc := s.proc.handOff q leader }.finish q
          (.tgkillCheck .exec))

def execLoad (s : Sys) (q : Slot) : Option (Frame × Nat) → Option Sys
  | none => some (s.goto q (.trapret (-1)))
  | some (dir, sz) =>
      if s.dirFree (some dir) then
        let committed := { s.setProc q
            { s.proc q with
              pgdir := some dir
              sz := sz
              tstack := sz
              tstackalloc := false } with
          dirs := s.addDir (some dir) }
        (committed.freevm (s.proc q).pgdir).map (·.goto q (.trapret 0))
      else none

def userAct (s : Sys) (q : Slot) : UserAct → Sys
  | .call call =>
      s.goto q (if (s.proc q).killed then .exitFiles else call.entry)
  | .fault =>
      (s.setProc q { s.proc q with killed := true }).goto q .exitFiles

def kernelAct (s : Sys) (q : Slot) : KernelAct → Option Sys
  | .ret eax => some (s.goto q (.trapret eax))
  -- `sbrk` returns the old size of the leader.
  | .grow sz =>
      (s.proc.threadLeader q).map fun tleader =>
        { s with proc := s.proc.setSize q tleader sz }.goto q
          (.trapret (s.proc tleader).sz)
  | .chdir inode =>
      some ({ s.setProc q { s.proc q with cwd := some inode } with
        iref := iput (idup s.iref (some inode)) (s.proc q).cwd }.goto q (.trapret 0))

def thread (s : Sys) (c : Cpu) (q : Slot) (x : Choice) : Pc → Option Sys
  | .user => some (s.userAct q x.user)
  | .trapret _ =>
      some (s.goto q (if (s.proc q).killed then .exitFiles else .user))
  | .kernel => s.kernelAct q x.kernel
  | .forkret => s.resume c (some (s.finish q .user))
  | .yielded next => s.resume c (some (s.finish q next))
  | .asleep next => s.resume c (some ((s.tidy q).finish q next))
  | .allocproc flags childStack =>
      s.acquire (some (s.allocproc q flags childStack))
  | .cloneKstack np flags childStack =>
      some (s.cloneKstack q np flags childStack x.kalloc)
  | .cloneSetup np flags childStack => s.cloneSetup q np flags childStack x.vm
  | .cloneIds np flags => some (s.cloneIds q np flags)
  | .clonePublish np retid => s.acquire (some (s.clonePublish q np retid))
  | .exitFiles => s.exitFiles q
  | .exitGroup => some (s.exitGroup q)
  | .exitLock => s.acquire (some (s.exitLock c q))
  -- Past `sched` in `exit` there is only `panic("zombie exit")`.
  | .exited => none
  | .waitLock => s.acquire (s.waitTurn c q x.nullHit)
  | .waitSlept => s.resume c ((s.tidy q).waitTurn c q x.nullHit)
  | .joinScan tid => some (s.joinScan q tid)
  | .joinLock p tid tleader => s.acquire (some (s.joinTurn c q p tid tleader))
  | .joinSlept p tid tleader =>
      s.resume c (some ((s.tidy q).joinTurn c q p tid tleader))
  | .killLock pid => s.acquire (some (s.kill q pid))
  | .tkillLock tid => s.acquire (some (s.tkill q tid))
  | .tgkillCheck caller => some (s.tgkillCheck q caller)
  | .tgkillLock caller =>
      s.acquire (some ((s.tgkillMark q).tgkillTurn c q caller))
  | .tgkillSlept caller => s.resume c (some ((s.tidy q).tgkillTurn c q caller))
  | .tsuspendCheck => some (s.tsuspendCheck q)
  | .tsuspendLock =>
      s.acquire (some (s.sleep c q (some (.proc q)) .tsuspendSlept))
  | .tsuspendSlept => s.resume c (some ((s.tidy q).finish q (.trapret 0)))
  | .tresumeScan tid => some (s.tresumeScan q tid)
  | .tresumeLock p => s.acquire (some (s.tresumeLock q p))
  | .execLeader => some (s.goto q (.execLock (s.proc.threadLeader q)))
  | .execLock tleader => s.acquire (s.execLock q tleader)
  | .execLoad => s.execLoad q x.load

/-- `scheduler` after `acquire`: the next runnable slot is switched to, or the
loop ends and the lock is released. -/
def schedScan (s : Sys) (c : Cpu) : Option Sys :=
  match firstSlot fun p =>
      (s.cpu c).scan ≤ p.val ∧ (s.proc p).state = .runnable with
  | none => some { s with lock := none }
  | some p =>
      -- `switchuvm` panics on a null kernel stack or page directory.
      if (s.proc p).kstack = none ∨ (s.proc p).pgdir = none then none
      else
        some { s.setProc p { s.proc p with state := .running } with
          cpu := Function.update s.cpu c { proc := some p, scan := p.val } }

/-- Points at which a thread waits inside `sched`, or has never run. -/
def switchedOut : Pc → Bool
  | .forkret | .yielded _ | .asleep _ | .exited
  | .waitSlept | .joinSlept .. | .tgkillSlept _ | .tsuspendSlept => true
  | _ => false

/-- A timer interrupt: `yield`, unless a killed thread is sent to `exit`. -/
def preempt (s : Sys) (c : Cpu) (q : Slot) : Option Sys :=
  if s.pc q = .user ∧ (s.proc q).killed then some (s.goto q .exitFiles)
  else if switchedOut (s.pc q) ∨ (s.proc q).state ≠ .running then none
  else
    s.acquire (some
      ((s.setProc q { s.proc q with state := .runnable }).sched c q
        (.yielded (s.pc q))))

def mayBlock : Pc → Bool
  | .kernel | .exitFiles | .execLoad => true
  | _ => false

def block (s : Sys) (c : Cpu) (q : Slot) (address : Nat) : Option Sys :=
  if mayBlock (s.pc q) then
    s.acquire (some (s.sleep c q (some (.other address)) (.asleep (s.pc q))))
  else none

def onCpu (s : Sys) (c : Cpu) (body : Slot → Option Sys) : Option Sys :=
  match (s.cpu c).proc with
  | none => none
  | some q => body q

def step (s : Sys) : Label → Option Sys
  | .schedAcquire c =>
      if (s.cpu c).proc = none then
        s.acquire (some { s with
          lock := some c
          cpu := Function.update s.cpu c { proc := none, scan := 0 } })
      else none
  | .schedScan c =>
      if (s.cpu c).proc = none then s.resume c (s.schedScan c) else none
  | .wakeup address =>
      s.acquire (some { s with proc := s.proc.wakeup1 (some (.other address)) })
  | .preempt c => s.onCpu c fun q => s.preempt c q
  | .block c address => s.onCpu c fun q => s.block c q address
  | .run c x => s.onCpu c fun q => s.thread c q x (s.pc q)

end Sys

def ROOTINO : Nat := 1

/-- Slot 0 after `userinit`; the two pages are the ones `kalloc` gave it. -/
def userinitProc (kstack pgdir : Frame) : Proc where
  sz := 4096
  pgdir := some pgdir
  kstack := some kstack
  state := .runnable
  pid := 1
  tid := -1
  tstack := 4096
  cwd := some ROOTINO

def userinit (kstack pgdir : Frame) : Sys where
  proc := setSlot (fun _ => {}) initproc (userinitProc kstack pgdir)
  nextpid := 2
  lock := none
  cpu := fun _ => {}
  pc := setSlot (fun _ => .exited) initproc .forkret
  dirs := fun dir => dir = pgdir
  iref := fun inode => if inode = ROOTINO then 1 else 0

/-- The same with the image that `exec` has loaded for init. -/
def started (kstack pgdir : Frame) (sz : Nat) : Sys :=
  { userinit kstack pgdir with
    proc := setSlot (fun _ => {}) initproc
      { userinitProc kstack pgdir with sz := sz, tstack := sz } }

end KernelThreads
