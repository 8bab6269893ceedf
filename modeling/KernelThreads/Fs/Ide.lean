import KernelThreads.Fs.Buffer
import KernelThreads.Fs.Crash
import KernelThreads.Lib.Queue

namespace KernelThreads.Fs

open Lib Sync

/-! The driver `ide.c`: requests wait in a queue of buffers, the request at its head
is the one that the device works on, and the interrupt at its end starts the next.
A step is a section under `idelock`, or one of the device. -/

def SECTOR_SIZE : Nat := 512

def sectorPerBlock : Nat := BSIZE / SECTOR_SIZE

def IDE_CMD_READ : BitVec 8 := 0x20
def IDE_CMD_WRITE : BitVec 8 := 0x30
def IDE_CMD_RDMUL : BitVec 8 := 0xc4
def IDE_CMD_WRMUL : BitVec 8 := 0xc5

inductive Command (Data : Type) where
  | read
  | write (data : Data)

/-- The device with its two drives; a sector has the contents of a block. -/
structure Device (Data : Type) where
  disk : Bool → Nat → Data
  /-- Port `0x3f6`; the device interrupts while bit 1 is clear. -/
  control : BitVec 8
  /-- Ports `0x1f2` to `0x1f6`. -/
  count : BitVec 8
  lbaLow : BitVec 8
  lbaMid : BitVec 8
  lbaHigh : BitVec 8
  head : BitVec 8
  /-- The command that keeps the device busy. -/
  running : Option (Command Data)
  /-- What `insl` reads from port `0x1f0`. -/
  output : Data
  irq : Bool

namespace Device

variable {Data : Type}

def drive (d : Device Data) : Bool := d.head.getLsbD 4

def sector (d : Device Data) : Nat :=
  d.lbaLow.toNat + 2 ^ 8 * d.lbaMid.toNat + 2 ^ 16 * d.lbaHigh.toNat +
    2 ^ 24 * (d.head &&& 0x0f).toNat

def command (d : Device Data) (cmd : BitVec 8) (sent : Data) : Device Data :=
  if cmd = IDE_CMD_WRITE ∨ cmd = IDE_CMD_WRMUL then { d with running := some (.write sent) }
  else if cmd = IDE_CMD_READ ∨ cmd = IDE_CMD_RDMUL then { d with running := some .read }
  else d

def execute (d : Device Data) : Option (Device Data) :=
  match d.running with
  | none => none
  | some .read =>
      some { d with
        running := none
        output := d.disk d.drive d.sector
        irq := !d.control.getLsbD 1 }
  | some (.write data) =>
      some { d with
        running := none
        disk := Function.update d.disk d.drive
          (Function.update (d.disk d.drive) d.sector data)
        irq := !d.control.getLsbD 1 }

def start (d : Device Data) (b : Buf Data) : Device Data :=
  let sector := b.blockno * BitVec.ofNat 32 sectorPerBlock
  let readCmd := if sectorPerBlock = 1 then IDE_CMD_READ else IDE_CMD_RDMUL
  let writeCmd := if sectorPerBlock = 1 then IDE_CMD_WRITE else IDE_CMD_WRMUL
  let d := { d with
    control := 0
    count := BitVec.ofNat 8 sectorPerBlock
    lbaLow := (sector &&& 0xff).setWidth 8
    lbaMid := ((sector >>> 8) &&& 0xff).setWidth 8
    lbaHigh := ((sector >>> 16) &&& 0xff).setWidth 8
    head := (0xe0#32 ||| ((b.dev &&& 1) <<< 4) ||| ((sector >>> 24) &&& 0x0f)).setWidth 8 }
  d.command (if b.dirty then writeCmd else readCmd) b.data

end Device

structure Request (nbuf : Nat) (Data : Type) where
  b : Fin nbuf
  pid : Int
  buf : Buf Data

inductive IdePc (nbuf : Nat) where
  | idle
  /-- In `iderw`, before the test of its loop, for the call of this number. -/
  | waiting (b : Fin nbuf) (call : Nat)
  | asleep (b : Fin nbuf) (call : Nat)
  deriving DecidableEq, Repr

namespace IdePc

variable {nbuf : Nat}

def request : IdePc nbuf → Option (Fin nbuf × Nat)
  | .idle => none
  | .waiting b call | .asleep b call => some (b, call)

def inside (pc : IdePc nbuf) (b : Fin nbuf) : Bool :=
  match pc.request with
  | none => false
  | some (c, _) => c = b

def wakeup (pc : IdePc nbuf) (b : Fin nbuf) : IdePc nbuf :=
  match pc with
  | .asleep c call => if c = b then .waiting c call else .asleep c call
  | _ => pc

end IdePc

structure Ide (Thread : Type) (nbuf : Nat) (Data : Type) where
  buf : Fin nbuf → Buf Data
  /-- `idequeue` and the links `qnext`. -/
  queue : Queue (Fin nbuf)
  device : Device Data
  havedisk1 : Bool
  pc : Thread → IdePc nbuf
  /-- The calls, in the order in which they were queued. -/
  requests : List (Request nbuf Data) := []
  /-- The buffers whose requests the interrupt handler has finished. -/
  completed : List (Fin nbuf) := []
  panicked : Bool := false

inductive IdeAct (Thread : Type) (nbuf : Nat) (Data : Type) where
  /-- Whatever is done with a buffer outside of `iderw`. -/
  | prepare (b : Fin nbuf) (buf : Buf Data)
  | iderw (t : Thread) (b : Fin nbuf)
  | test (t : Thread)
  /-- A wake-up by `kill`, or for any other reason. -/
  | wake (t : Thread)
  | execute
  | ideintr

def serial {nbuf : Nat} {Data : Type} (disk : BlockNo → Data) :
    List (Request nbuf Data) → Option ((BlockNo → Data) × List (Buf Data))
  | [] => some (disk, [])
  | r :: rest => do
      let (buf, disk) ← r.buf.iderw FSSIZE r.pid disk
      let (disk, bufs) ← serial disk rest
      return (disk, buf :: bufs)

namespace Ide

variable {Thread Data : Type} {nbuf : Nat}

def start (buf : Fin nbuf → Buf Data) (qnext : Fin nbuf → Option (Fin nbuf))
    (device : Device Data) : Ide Thread nbuf Data where
  buf := buf
  queue := { head := none, next := qnext }
  device := { device with running := none, irq := false }
  havedisk1 := true
  pc _ := .idle

def panic (s : Ide Thread nbuf Data) : Ide Thread nbuf Data := { s with panicked := true }

/-- `none` while `idewait` spins. -/
def idestart (s : Ide Thread nbuf Data) : Option (Fin nbuf) → Option (Ide Thread nbuf Data)
  | none => some s.panic
  | some b =>
      if (s.buf b).blockno.toNat ≥ FSSIZE then some s.panic
      else if sectorPerBlock > 7 then some s.panic
      else if s.device.running.isSome then none
      else some { s with device := s.device.start (s.buf b) }

def ideintr (s : Ide Thread nbuf Data) : Option (Ide Thread nbuf Data) :=
  match s.queue.head with
  | none => some s
  | some b =>
      if !(s.buf b).dirty && s.device.running.isSome then none
      else
        let data := if (s.buf b).dirty then (s.buf b).data else s.device.output
        let s := { s with
          queue := { s.queue with head := s.queue.next b }
          buf := Function.update s.buf b
            { s.buf b with data := data, valid := true, dirty := false }
          pc := fun t => (s.pc t).wakeup b
          completed := s.completed ++ [b] }
        if s.queue.head.isSome then s.idestart s.queue.head else some s

section Steps

variable [DecidableEq Thread] (pid : Thread → Int)

def iderw (s : Ide Thread nbuf Data) (t : Thread) (b : Fin nbuf) :
    Option (Ide Thread nbuf Data) :=
  if !(s.buf b).holdingsleep (pid t) then some s.panic
  else if (s.buf b).valid && !(s.buf b).dirty then some s.panic
  else if (s.buf b).dev ≠ 0 ∧ s.havedisk1 = false then some s.panic
  else
    match s.queue.append (nbuf + 1) b with
    | none => none
    | some queue =>
        let s := { s with
          queue := queue
          pc := Function.update s.pc t (.waiting b s.requests.length)
          requests := s.requests ++ [{ b := b, pid := pid t, buf := s.buf b }] }
        if queue.head = some b then s.idestart queue.head else some s

def ends (s : Ide Thread nbuf Data) (b : Fin nbuf) : Bool :=
  (s.buf b).valid && !(s.buf b).dirty

def step (s : Ide Thread nbuf Data) (act : IdeAct Thread nbuf Data) :
    Option (Ide Thread nbuf Data) :=
  if s.panicked then none
  else
    match act with
    | .prepare b buf => some { s with buf := Function.update s.buf b buf }
    | .iderw t b =>
        match s.pc t with
        | .idle => s.iderw pid t b
        | _ => none
    | .test t =>
        match s.pc t with
        | .waiting b call =>
            some { s with
              pc := Function.update s.pc t (if s.ends b then .idle else .asleep b call) }
        | _ => none
    | .wake t =>
        match s.pc t with
        | .asleep b call => some { s with pc := Function.update s.pc t (.waiting b call) }
        | _ => none
    | .execute => s.device.execute.map fun device => { s with device := device }
    | .ideintr =>
        if s.device.irq then
          ideintr { s with device := { s.device with irq := false } }
        else none

end Steps

/-- Buffers are used by the one process that has locked them, and `iderw` is called
for blocks of the disk. -/
def Allowed (s : Ide Thread nbuf Data) : IdeAct Thread nbuf Data → Prop
  | .prepare b _ => ∀ t, (s.pc t).inside b = false
  | .iderw _ b =>
      (∀ t, (s.pc t).inside b = false) ∧ (s.buf b).dev = 1 ∧
        (s.buf b).blockno.toNat < FSSIZE
  | _ => True

instance [Fintype Thread] (s : Ide Thread nbuf Data) (act : IdeAct Thread nbuf Data) :
    Decidable (s.Allowed act) := by
  unfold Allowed
  split <;> infer_instance

def executed (s : Ide Thread nbuf Data) : Nat := s.completed.length + s.device.irq.toNat

end Ide

end KernelThreads.Fs
