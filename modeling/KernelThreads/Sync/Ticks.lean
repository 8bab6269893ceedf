import Mathlib.Algebra.Ring.Int.Defs
import KernelThreads.Lib.Transition

namespace KernelThreads.Sync

open Lib

variable {Thread : Type}

/-! `sys_sleep` and the timer interrupt.  `tickslock` is held from the tests of the loop
until `sleep` has the thread asleep; `kill` does not take it. -/

inductive TickPc where
  | user
  | tested
  | asleep
  | woken
  | returned (result : Int)
  deriving DecidableEq

structure TickThread where
  pc : TickPc := .user
  killed : Bool := false
  n : Int := 0
  ticks0 : Int := 0

/-- The counter of the code is `ticks` modulo 2 ^ 32. -/
structure TickSys (Thread : Type) where
  ticks : Int := 0
  /-- The holder of `tickslock`. -/
  lock : Option Thread := none
  thread : Thread → TickThread := fun _ => {}

inductive TickAct (Thread : Type) where
  | sysSleep (t : Thread) (n : Int)
  | go (t : Thread)
  | sleep (t : Thread)
  | timer
  | kill (t : Thread)
  /-- Of a thread that is asleep. -/
  | tresume (t : Thread)

namespace TickThread

/-- One turn of the loop; the comparison is unsigned. -/
def test (me : TickThread) (ticks : Int) : TickThread :=
  if (ticks - me.ticks0) % 2 ^ 32 < me.n % 2 ^ 32 then
    { me with pc := if me.killed then .returned (-1) else .tested }
  else { me with pc := .returned 0 }

def wake (me : TickThread) : TickThread :=
  if me.pc = .asleep then { me with pc := .woken } else me

structure Timed (me : TickThread) (ticks : Int) : Prop where
  began : me.ticks0 ≤ ticks
  asleep : me.pc = .tested ∨ me.pc = .asleep → (ticks - me.ticks0) % 2 ^ 32 < me.n % 2 ^ 32
  returned : ∀ r, me.pc = .returned r →
    r = 0 ∧ me.n % 2 ^ 32 ≤ ticks - me.ticks0 ∨ r = -1 ∧ me.killed = true

namespace Timed

variable {me : TickThread} {ticks : Int}

theorem test (hbegan : me.ticks0 ≤ ticks) : (me.test ticks).Timed ticks := by
  rw [TickThread.test]
  split
  · rename_i hearly
    exact ⟨hbegan, fun _ => hearly, fun r hr => .inr (by grind)⟩
  · exact ⟨hbegan, by simp, fun r hr => .inl ⟨by grind, by dsimp only; omega⟩⟩

/-- Whoever sleeps is woken before the count goes on, and nobody is about to. -/
theorem wake (h : me.Timed ticks) {later : Int} (hlater : ticks ≤ later)
    (htested : me.pc = .tested → later = ticks) : me.wake.Timed later := by
  have hbegan := Int.le_trans h.began hlater
  rw [TickThread.wake]
  split
  · exact ⟨hbegan, by simp, by simp⟩
  · rename_i hawake
    refine ⟨hbegan, fun hpc => ?_, fun r hr => ?_⟩
    · have hpc := hpc.resolve_right hawake
      rw [htested hpc]
      exact h.asleep (.inl hpc)
    · exact (h.returned r hr).imp_left fun hdone => ⟨hdone.1, by omega⟩

end Timed

end TickThread

namespace TickSys

variable [DecidableEq Thread]

def set (s : TickSys Thread) (t : Thread) (me : TickThread) : TickSys Thread :=
  { s with thread := Function.update s.thread t me }

/-- A section of the loop, up to the call of `sleep` or to the return. -/
def loop (s : TickSys Thread) (t : Thread) (me : TickThread) : Option (TickSys Thread) :=
  if s.lock = none then
    let me := me.test s.ticks
    some { s.set t me with lock := if me.pc = .tested then some t else none }
  else none

def step (s : TickSys Thread) : TickAct Thread → Option (TickSys Thread)
  | .sysSleep t n =>
      match (s.thread t).pc with
      | .user | .returned _ => s.loop t { s.thread t with n := n, ticks0 := s.ticks }
      | _ => none
  | .go t => if (s.thread t).pc = .woken then s.loop t (s.thread t) else none
  | .sleep t =>
      if (s.thread t).pc = .tested then
        some { s.set t { s.thread t with pc := .asleep } with lock := none }
      else none
  | .timer =>
      if s.lock = none then
        some { s with ticks := s.ticks + 1, thread := fun t => (s.thread t).wake }
      else none
  | .kill t => some (s.set t { (s.thread t).wake with killed := true })
  | .tresume t =>
      if (s.thread t).pc = .asleep then some (s.set t (s.thread t).wake) else none

structure Timed (s : TickSys Thread) : Prop where
  timed : ∀ t, (s.thread t).Timed s.ticks
  holds : ∀ t, (s.thread t).pc = .tested → s.lock = some t

variable {s next : TickSys Thread}

namespace Timed

theorem set (h : s.Timed) {t : Thread} {me : TickThread} {lock : Option Thread}
    (hme : me.Timed s.ticks) (hown : me.pc = .tested → lock = some t)
    (hothers : ∀ u, u ≠ t → (s.thread u).pc = .tested → lock = some u) :
    Timed { s.set t me with lock := lock } := by
  refine ⟨fun u => ?_, fun u hu => ?_⟩ <;> by_cases heq : u = t
  · simpa [TickSys.set, heq] using hme
  · simpa [TickSys.set, heq] using h.timed u
  · simp only [TickSys.set, heq, Function.update_self] at hu
    simpa [heq] using hown hu
  · simp only [TickSys.set, Function.update_of_ne heq] at hu
    exact hothers u heq hu

theorem loop (h : s.Timed) {t : Thread} {me : TickThread} (hbegan : me.ticks0 ≤ s.ticks)
    (hloop : s.loop t me = some next) : next.Timed := by
  rw [TickSys.loop] at hloop
  split at hloop <;> cases hloop
  rename_i hfree
  refine h.set (.test hbegan) (fun hpc => if_pos hpc) fun u _ hu => ?_
  rw [h.holds u hu] at hfree
  cases hfree

theorem step (h : s.Timed) {act : TickAct Thread} (hstep : s.step act = some next) :
    next.Timed := by
  have hwake := fun t => (h.timed t).wake (Int.le_refl _) fun _ => rfl
  cases act with
  | sysSleep t n =>
      rw [TickSys.step] at hstep
      split at hstep
      case h_3 => cases hstep
      all_goals exact h.loop (Int.le_refl _) hstep
  | go t =>
      rw [TickSys.step] at hstep
      split at hstep
      · exact h.loop (h.timed t).began hstep
      · cases hstep
  | sleep t =>
      rw [TickSys.step] at hstep
      split at hstep <;> cases hstep
      rename_i htested
      have hme := h.timed t
      refine h.set ⟨hme.began, fun _ => hme.asleep (.inl htested), by simp⟩ (by simp)
        fun u hu hpc => ?_
      cases (h.holds t htested).symm.trans (h.holds u hpc)
      exact absurd rfl hu
  | timer =>
      rw [TickSys.step] at hstep
      split at hstep <;> cases hstep
      rename_i hfree
      have hnone : ∀ t, (s.thread t).pc ≠ .tested := by
        intro t ht
        rw [h.holds t ht] at hfree
        cases hfree
      refine ⟨fun t => (h.timed t).wake (Int.le_add_one (Int.le_refl _)) fun ht =>
        absurd ht (hnone t), fun t ht => ?_⟩
      simp only [TickThread.wake] at ht
      split at ht
      · cases ht
      · exact absurd ht (hnone t)
  | kill t =>
      cases hstep
      have hme := hwake t
      refine h.set ⟨hme.began, hme.asleep, fun r hr => ?_⟩ (fun ht => ?_) fun u _ => h.holds u
      · exact (hme.returned r hr).imp_right fun hkilled => ⟨hkilled.1, rfl⟩
      · simp only [TickThread.wake] at ht
        split at ht
        · cases ht
        · exact h.holds t ht
  | tresume t =>
      rw [TickSys.step] at hstep
      split at hstep <;> cases hstep
      rename_i hasleep
      exact h.set (hwake t) (by simp [TickThread.wake, hasleep]) fun u _ => h.holds u

end Timed

end TickSys

end KernelThreads.Sync
