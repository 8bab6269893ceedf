import Mathlib.Data.List.Perm.Subperm
import KernelThreads.Lib.Ring
import KernelThreads.Lib.Transition

namespace KernelThreads

open Lib

/-! The semaphores of `ulock.c`, used by any number of threads of one group.  Left out
are the test of `killed` in `tresume` and its write of `RUNNABLE` over a thread that
runs. -/

def MAX_QUEUE_SIZE : Nat := 1024

instance : NeZero MAX_QUEUE_SIZE := ⟨by decide⟩

abbrev Queue := RingBuffer Int MAX_QUEUE_SIZE

namespace Queue

def initQueue (q : Queue) : Queue := { q with front := 0, rear := 0 }

def isempty (q : Queue) : Bool := q.front = q.rear

def enqueue (q : Queue) (value : Int) : Int × Queue :=
  if q.front + 1 = q.rear then (-1, q) else (0, q.push value)

def dequeue (q : Queue) : Int × Queue :=
  if q.front = q.rear then (-1, q) else (q.cells q.rear, q.pop)

theorem toList_enqueue {q : Queue} (hroom : q.front + 1 ≠ q.rear) (value : Int) :
    (q.enqueue value).2.toList = q.toList ++ [value] := by
  rw [enqueue, if_neg hroom]
  exact RingBuffer.toList_push q value hroom

theorem toList_dequeue {q : Queue} (hsome : q.isempty = false) :
    q.toList = q.dequeue.1 :: q.dequeue.2.toList := by
  have hne : q.front ≠ q.rear := by simpa [isempty] using hsome
  rw [dequeue, if_neg hne]
  exact RingBuffer.toList_pop q hne

theorem toList_of_isempty {q : Queue} (hempty : q.isempty = true) :
    q.toList = [] := by
  rw [RingBuffer.toList_eq_nil]
  simpa [isempty] using hempty

end Queue

structure Semaphore where
  val : Int
  q : Queue
  /-- The spinlock `sl`. -/
  locked : Bool

def Semaphore.init (s : Semaphore) (initval : Int) : Semaphore where
  val := initval
  q := s.q.initQueue
  locked := false

/-- The threads of a group.  `gettid` is the `pid` for the leader; `find` is the
scan of `tresume`, which looks for other threads only. -/
structure ThreadGroup (τ : Type) where
  gettid : τ → Int
  leader : τ → Bool
  find : Int → Option τ
  valid : ∀ t, gettid t ≠ -1
  find_iff : ∀ tid t, tid ≠ -1 →
    (find tid = some t ↔ leader t = false ∧ gettid t = tid)

theorem ThreadGroup.find_gettid {τ : Type} (g : ThreadGroup τ) {t : τ}
    (hpeer : g.leader t = false) : g.find (g.gettid t) = some t :=
  (g.find_iff _ _ (g.valid t)).mpr ⟨hpeer, rfl⟩

theorem ThreadGroup.gettid_inj {τ : Type} (g : ThreadGroup τ) {t u : τ}
    (ht : g.leader t = false) (hu : g.leader u = false)
    (h : g.gettid t = g.gettid u) : t = u := by
  have hfind := g.find_gettid ht
  rw [h, g.find_gettid hu] at hfind
  exact (Option.some.inj hfind).symm

/-- Where a thread is in `semaphore_wait` or `semaphore_signal`. -/
inductive SemPc (τ : Type) where
  | idle
  /-- In `block`, before the lock section of `tsuspend`. -/
  | suspend
  | asleep
  /-- In `block`, before `acquire_splock`. -/
  | awake
  /-- In `tresume`, before its scan. -/
  | scan (tid : Int)
  /-- In `tresume`, before its lock section. -/
  | resume (p : τ)
  | release
  deriving DecidableEq

/-- The semaphore and its threads, with the calls of `semaphore_wait` that have
been made and that have returned, and the calls of `semaphore_signal` that have
raised `val` and that are complete. -/
structure SemSys (τ : Type) where
  sem : Semaphore
  pc : τ → SemPc τ
  called : List τ
  returned : List τ
  raised : List τ
  completed : List τ

inductive SemLabel (τ : Type) where
  | wait (t : τ)
  | signal (t : τ)
  /-- The thread goes on with its call. -/
  | go (t : τ)
  /-- A wake-up that is not from `tresume`. -/
  | wake (t : τ)

namespace SemSys

variable {τ : Type} [DecidableEq τ]

def init (s : Semaphore) (v : Nat) : SemSys τ where
  sem := s.init v
  pc := fun _ => .idle
  called := []
  returned := []
  raised := []
  completed := []

def goto (s : SemSys τ) (t : τ) (pc : SemPc τ) : SemSys τ :=
  { s with pc := Function.update s.pc t pc }

def enter (s : SemSys τ) (t : τ) : SemSys τ :=
  { s with
    sem := { s.sem with val := s.sem.val - 1 }
    called := t :: s.called }

def leave (s : SemSys τ) (t : τ) : SemSys τ :=
  { s with returned := t :: s.returned }.goto t .idle

def block (s : SemSys τ) (g : ThreadGroup τ) (t : τ) : SemSys τ :=
  { s with
    sem := { s.sem with q := (s.sem.q.enqueue (g.gettid t)).2 } }.goto t .suspend

def test (s : SemSys τ) (g : ThreadGroup τ) (t : τ) : SemSys τ :=
  if s.sem.val < 0 then s.block g t else s.leave t

def increment (s : SemSys τ) (t : τ) : SemSys τ :=
  { s with
    sem := { s.sem with val := s.sem.val + 1 }
    raised := t :: s.raised }

/-- The lock stays with the thread while it calls `tresume`. -/
def dequeue (s : SemSys τ) (t : τ) : SemSys τ :=
  { s with
    sem := { s.sem with q := s.sem.q.dequeue.2, locked := true } }.goto t
      (.scan s.sem.q.dequeue.1)

def finish (s : SemSys τ) (t : τ) : SemSys τ :=
  { s with
    sem := { s.sem with locked := false }
    completed := t :: s.completed }.goto t .idle

def raise (s : SemSys τ) (t : τ) : SemSys τ :=
  if s.sem.q.isempty then (s.increment t).finish t else (s.increment t).dequeue t

/-- The thread is made runnable; only a sleeper notices. -/
def rouse (s : SemSys τ) (p : τ) : SemSys τ :=
  if s.pc p = .asleep then s.goto p .awake else s

def go (s : SemSys τ) (g : ThreadGroup τ) (t : τ) : Option (SemSys τ) :=
  match s.pc t with
  | .idle | .asleep => none
  -- The leader cannot be suspended.
  | .suspend => some (s.goto t (if g.leader t then .awake else .asleep))
  | .awake => if s.sem.locked then none else some (s.test g t)
  | .scan tid =>
      if tid = -1 then some (s.goto t .release)
      else
        match g.find tid with
        | none => some (s.goto t .release)
        | some p => some (s.goto t (.resume p))
  | .resume p => some ((s.rouse p).goto t .release)
  | .release => some (s.finish t)

def step (g : ThreadGroup τ) (s : SemSys τ) : SemLabel τ → Option (SemSys τ)
  | .wait t =>
      if s.pc t = .idle ∧ s.sem.locked = false then some ((s.enter t).test g t)
      else none
  | .signal t =>
      if s.pc t = .idle ∧ s.sem.locked = false then some (s.raise t) else none
  | .go t => s.go g t
  | .wake t => if s.pc t = .asleep then some (s.goto t .awake) else none

end SemSys

end KernelThreads
