import Mathlib.Algebra.GroupWithZero.Nat
import KernelThreads.Fs.Buffer
import KernelThreads.Lib.DList

namespace KernelThreads.Fs

open Lib Sync

/-! The buffer cache under any interleaving of its users.  A step is a section
under `bcache.lock`, the acquisition or the release of a buffer's sleep-lock, a
request to the disk, or an access by the process that holds the buffer. -/

abbrev NBUF : Nat := MAXOPBLOCKS * 3

instance : NeZero NBUF := ⟨by decide⟩

abbrev BufId := Fin NBUF

inductive BufPc where
  | idle
  /-- In `bget`, before it has the lock of the buffer it found. -/
  | waiting (b : BufId) (blockno : BlockNo)
  /-- Back in `bread`, before the test of `B_VALID`. -/
  | locked (b : BufId) (blockno : BlockNo)
  /-- Before the `iderw` of `bread`. -/
  | reading (b : BufId) (blockno : BlockNo)
  /-- Before the `iderw` of `bwrite`. -/
  | writing (b : BufId)
  /-- In `brelse`, after `releasesleep`. -/
  | releasing (b : BufId)
  deriving DecidableEq, Repr

inductive BufAct (Data : Type) where
  | bget (blockno : BlockNo)
  | acquiresleep
  | test
  | iderw
  | modify (b : BufId) (data : Data)
  | bwrite (b : BufId)
  | logWrite (b : BufId)
  | brelse (b : BufId)
  | unref
  /-- `begin_op`, `end_op` and `commit` change the log. -/
  | relog (log : Log)

structure Bcache (Thread Data : Type) where
  buf : BufId → Buf Data
  /-- The `prev` and `next` of the buffers and of `bcache.head`. -/
  links : DList BufId
  disk : BlockNo → Data
  log : Log
  pc : Thread → BufPc
  /-- Who has the buffer's lock. -/
  holder : BufId → Option Thread
  /-- What the last `brelse` of a buffer for the block left in it, until the buffer
  is recycled. -/
  left : BlockNo → Option Data
  panicked : Bool := false

namespace Bcache

variable {Thread Data : Type}

def binit (data : BufId → Data) (disk : BlockNo → Data) (log : Log) :
    Bcache Thread Data where
  buf b := { data := data b }
  links := (List.finRange NBUF).foldl DList.push DList.empty
  disk := disk
  log := log
  pc _ := .idle
  holder _ := none
  left _ := none

def Cached (s : Bcache Thread Data) (blockno : BlockNo) (b : BufId) : Prop :=
  (s.buf b).dev = ROOTDEV ∧ (s.buf b).blockno = blockno

instance (s : Bcache Thread Data) (blockno : BlockNo) (b : BufId) :
    Decidable (s.Cached blockno b) := by
  unfold Cached
  infer_instance

def Unused (s : Bcache Thread Data) (b : BufId) : Prop :=
  (s.buf b).refcnt = 0 ∧ (s.buf b).dirty = false

instance (s : Bcache Thread Data) (b : BufId) : Decidable (s.Unused b) := by
  unfold Unused
  infer_instance

section Steps

def panic (s : Bcache Thread Data) : Bcache Thread Data := { s with panicked := true }

def rename (s : Bcache Thread Data) (b : BufId) (blockno : BlockNo) :
    Bcache Thread Data :=
  { s with
    buf := Function.update s.buf b
      { s.buf b with dev := ROOTDEV, blockno := blockno, valid := false, dirty := false }
    left :=
      if (s.buf b).dev = ROOTDEV then Function.update s.left (s.buf b).blockno none
      else s.left }

variable [DecidableEq Thread] (pid : Thread → Int)

def edit (s : Bcache Thread Data) (t : Thread) (pc : BufPc) (b : BufId)
    (buf : Buf Data) : Bcache Thread Data :=
  { s with
    pc := Function.update s.pc t pc
    buf := Function.update s.buf b buf }

def goto (s : Bcache Thread Data) (t : Thread) (pc : BufPc) : Bcache Thread Data :=
  { s with pc := Function.update s.pc t pc }

def bget (s : Bcache Thread Data) (t : Thread) (blockno : BlockNo) :
    Option (Bcache Thread Data) :=
  match DList.search s.links.next (fun b => s.Cached blockno b) (NBUF + 1)
      (s.links.next none) with
  | .found b =>
      some (s.edit t (.waiting b blockno) b
        { s.buf b with refcnt := (s.buf b).refcnt + 1 })
  | .missing =>
      match DList.search s.links.prev (fun b => s.Unused b) (NBUF + 1)
          (s.links.prev none) with
      | .found b =>
          let s := s.rename b blockno
          some (s.edit t (.waiting b blockno) b { s.buf b with refcnt := 1 })
      | .missing => some s.panic
      | .endless => none
  | .endless => none

def acquiresleep (s : Bcache Thread Data) (t : Thread) (b : BufId) (blockno : BlockNo) :
    Option (Bcache Thread Data) :=
  if (s.buf b).lock.locked then none
  else
    some { s.edit t (.locked b blockno) b
        { s.buf b with lock := { locked := true, pid := pid t } } with
      holder := Function.update s.holder b (some t) }

def iderw (s : Bcache Thread Data) (t : Thread) (b : BufId) : Bcache Thread Data :=
  match (s.buf b).iderw FSSIZE (pid t) s.disk with
  | none => s.panic
  | some (buf, disk) => { s.edit t .idle b buf with disk := disk }

def bwrite (s : Bcache Thread Data) (t : Thread) (b : BufId) : Bcache Thread Data :=
  if (s.buf b).holdingsleep (pid t) then
    s.edit t (.writing b) b { s.buf b with dirty := true }
  else s.panic

def logWrite (s : Bcache Thread Data) (t : Thread) (b : BufId) : Bcache Thread Data :=
  if s.log.lh.length ≥ LOGSIZE ∨ (s.log.lh.length : Int) ≥ s.log.size - 1 then s.panic
  else if s.log.outstanding < 1 then s.panic
  else
    { s.edit t .idle b { s.buf b with dirty := true } with
      log := s.log.record (s.buf b).blockno }

def brelse (s : Bcache Thread Data) (t : Thread) (b : BufId) : Bcache Thread Data :=
  if (s.buf b).holdingsleep (pid t) then
    { s.edit t (.releasing b) b { s.buf b with lock := { locked := false, pid := 0 } } with
      holder := Function.update s.holder b none
      left := Function.update s.left (s.buf b).blockno (some (s.buf b).data) }
  else s.panic

def unref (s : Bcache Thread Data) (t : Thread) (b : BufId) : Bcache Thread Data :=
  let next := s.edit t .idle b { s.buf b with refcnt := (s.buf b).refcnt - 1 }
  if (s.buf b).refcnt - 1 = 0 then
    { next with links := (s.links.unlink b).push b }
  else next

def step (s : Bcache Thread Data) (label : Thread × BufAct Data) :
    Option (Bcache Thread Data) :=
  let t := label.1
  if s.panicked then none
  else
    match s.pc t, label.2 with
    | .idle, .bget blockno => s.bget t blockno
    | .waiting b blockno, .acquiresleep => s.acquiresleep pid t b blockno
    | .locked b blockno, .test =>
        some (s.goto t (if (s.buf b).valid then .idle else .reading b blockno))
    | .reading b _, .iderw => some (s.iderw pid t b)
    | .idle, .modify b data => some (s.edit t .idle b { s.buf b with data := data })
    | .idle, .bwrite b => some (s.bwrite pid t b)
    | .writing b, .iderw => some (s.iderw pid t b)
    | .idle, .logWrite b => some (s.logWrite t b)
    | .idle, .brelse b => some (s.brelse pid t b)
    | .releasing b, .unref => some (s.unref t b)
    | _, .relog log => some { s with log := log }
    | _, _ => none

def returns (s : Bcache Thread Data) (label : Thread × BufAct Data) :
    Option (BufId × BlockNo) :=
  match s.pc label.1, label.2 with
  | .locked b blockno, .test => if (s.buf b).valid then some (b, blockno) else none
  | .reading b blockno, .iderw =>
      ((s.buf b).iderw FSSIZE (pid label.1) s.disk).map fun _ => (b, blockno)
  | _, _ => none

end Steps

/-- A process works on buffers that it holds.  `bwrite` and `brelse` test this
themselves, but cannot tell the threads with one `pid` apart. -/
def Allowed (pid : Thread → Int) (s : Bcache Thread Data)
    (label : Thread × BufAct Data) : Prop :=
  match label.2 with
  | .modify b _ | .logWrite b => s.holder b = some label.1
  | .bwrite b | .brelse b =>
      (s.buf b).holdingsleep (pid label.1) = true → s.holder b = some label.1
  | _ => True

instance [DecidableEq Thread] (pid : Thread → Int) (s : Bcache Thread Data)
    (label : Thread × BufAct Data) : Decidable (Allowed pid s label) := by
  unfold Allowed
  split <;> infer_instance

end Bcache

end KernelThreads.Fs
