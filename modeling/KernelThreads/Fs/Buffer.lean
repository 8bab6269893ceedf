import KernelThreads.Fs.Log
import KernelThreads.Sync.SleepLock

namespace KernelThreads.Fs

open Sync

/-! Buffers of the block cache, and the disk driver that keeps the disk in
memory. -/

def ROOTDEV : BitVec 32 := 1

abbrev FSSIZE : Nat := 1000

/-- `struct buf` without its links; `valid` and `dirty` are the bits of `flags`. -/
structure Buf (Data : Type) where
  valid : Bool := false
  dirty : Bool := false
  dev : BitVec 32 := 0
  blockno : BlockNo := 0
  lock : SleepLock := {}
  refcnt : Nat := 0
  data : Data

namespace Buf

variable {Data : Type}

def holdingsleep (b : Buf Data) (pid : Int) : Bool :=
  b.lock.locked && b.lock.pid = pid

/-- `memide.c:iderw` by a process with this `pid`; `none` is a panic. -/
def iderw (disksize : Nat) (pid : Int) (b : Buf Data) (disk : BlockNo → Data) :
    Option (Buf Data × (BlockNo → Data)) :=
  if !b.holdingsleep pid then none
  else if b.valid && !b.dirty then none
  else if b.dev ≠ 1 then none
  else if b.blockno.toNat ≥ disksize then none
  else if b.dirty then
    some ({ b with dirty := false, valid := true },
      Function.update disk b.blockno b.data)
  else some ({ b with data := disk b.blockno, valid := true }, disk)

theorem iderw_some {disksize : Nat} {pid : Int} {b next : Buf Data}
    {disk disk' : BlockNo → Data}
    (h : b.iderw disksize pid disk = some (next, disk')) :
    next = { b with
      valid := true
      dirty := false
      data := if b.dirty then b.data else disk b.blockno } ∧
    disk' = if b.dirty then Function.update disk b.blockno b.data else disk := by
  unfold iderw at h
  split at h
  · contradiction
  split at h
  · contradiction
  split at h
  · contradiction
  split at h
  · contradiction
  cases hdirty : b.dirty <;> simp only [hdirty] at h <;> cases h
  · simp
  · simp

end Buf

end KernelThreads.Fs
