import Mathlib.Logic.Function.Basic
import KernelThreads.Lib.Transition

namespace KernelThreads.Sync

open Lib

/-! Sleep-locks shared by the threads of any number of groups.  A step is one
section under the spinlock `lk->lk`; threads of one group have one `pid`. -/

variable {Thread Lock : Type}

/-- The fields of `struct sleeplock` that the code tests. -/
structure SleepLock where
  locked : Bool := false
  pid : Int := 0
  deriving DecidableEq, Repr

inductive LockPc (Lock : Type) where
  | idle
  /-- In `acquiresleep`, about to test `lk->locked`. -/
  | acquiring (lk : Lock)
  /-- In the `sleep` of its loop. -/
  | asleep (lk : Lock)
  deriving DecidableEq, Repr

inductive LockAct (Lock : Type) where
  | acquiresleep (lk : Lock)
  | test
  /-- `kill`, or any other wake-up. -/
  | wake
  | releasesleep (lk : Lock)
  | holdingsleep (lk : Lock)
  deriving DecidableEq, Repr

structure LockSys (Thread Lock : Type) where
  lock : Lock → SleepLock
  pc : Thread → LockPc Lock
  /-- Between a returned `acquiresleep` and the `releasesleep` that follows. -/
  held : Thread → Lock → Bool

namespace LockSys

section Steps

variable [DecidableEq Thread] [DecidableEq Lock] (pid : Thread → Int)

def goto (s : LockSys Thread Lock) (t : Thread) (pc : LockPc Lock) :
    LockSys Thread Lock :=
  { s with pc := Function.update s.pc t pc }

def setHeld (s : LockSys Thread Lock) (t : Thread) (lk : Lock) (held : Bool) :
    LockSys Thread Lock :=
  { s with held := Function.update s.held t (Function.update (s.held t) lk held) }

def test (s : LockSys Thread Lock) (t : Thread) (lk : Lock) : LockSys Thread Lock :=
  if (s.lock lk).locked then s.goto t (.asleep lk)
  else
    ({ s with lock := Function.update s.lock lk { locked := true, pid := pid t } }
      |>.setHeld t lk true).goto t .idle

def wakeup (s : LockSys Thread Lock) (lk : Lock) : LockSys Thread Lock :=
  { s with pc := fun t =>
      if s.pc t = .asleep lk then .acquiring lk else s.pc t }

def releasesleep (s : LockSys Thread Lock) (t : Thread) (lk : Lock) :
    LockSys Thread Lock :=
  ({ s with lock := Function.update s.lock lk { locked := false, pid := 0 } }
    |>.setHeld t lk false).wakeup lk

def holdingsleep (s : LockSys Thread Lock) (t : Thread) (lk : Lock) : Bool :=
  (s.lock lk).locked && (s.lock lk).pid = pid t

/-- A thread releases only a lock it has acquired. -/
def step (s : LockSys Thread Lock) (label : Thread × LockAct Lock) :
    Option (LockSys Thread Lock) :=
  let t := label.1
  match s.pc t, label.2 with
  | .idle, .acquiresleep lk => some (s.goto t (.acquiring lk))
  | .acquiring lk, .test => some (s.test pid t lk)
  | .asleep lk, .wake => some (s.goto t (.acquiring lk))
  | .idle, .releasesleep lk =>
      if s.held t lk then some (s.releasesleep t lk) else none
  | .idle, .holdingsleep _ => some s
  | _, _ => none

end Steps

def start : LockSys Thread Lock where
  lock _ := {}
  pc _ := .idle
  held _ _ := false

/-- `holdingsleep` is not asked by a peer of the thread that holds the lock. -/
def NoPeerAsks (pid : Thread → Int) (s : LockSys Thread Lock)
    (label : Thread × LockAct Lock) : Prop :=
  ∀ lk, label.2 = .holdingsleep lk → ∀ u, s.held u lk = true → u ≠ label.1 →
    pid u ≠ pid label.1

/-- The lock is locked exactly while one thread holds it, and has its `pid`. -/
structure Owned (pid : Thread → Int) (s : LockSys Thread Lock) : Prop where
  exclusive : ∀ lk t u, s.held t lk = true → s.held u lk = true → t = u
  locked : ∀ lk, (s.lock lk).locked = true → ∃ t, s.held t lk = true
  holds : ∀ lk t, s.held t lk = true →
    (s.lock lk).locked = true ∧ (s.lock lk).pid = pid t

namespace Owned

variable {pid : Thread → Int} {s next : LockSys Thread Lock} {t : Thread} {lk : Lock}

theorem start : (LockSys.start : LockSys Thread Lock).Owned pid where
  exclusive _ _ _ hheld := by contradiction
  locked _ hlocked := by contradiction
  holds _ _ hheld := by contradiction

theorem same (h : s.Owned pid) (hlock : next.lock = s.lock)
    (hheld : next.held = s.held) : next.Owned pid := by
  constructor
  · rw [hheld]
    exact h.exclusive
  · rw [hlock, hheld]
    exact h.locked
  · rw [hlock, hheld]
    exact h.holds

theorem idle (h : s.Owned pid) (hfree : (s.lock lk).locked = false) (u : Thread) :
    s.held u lk = false := by
  by_contra hheld
  rw [Bool.not_eq_false] at hheld
  rw [(h.holds lk u hheld).1] at hfree
  contradiction

section Steps

variable [DecidableEq Thread] [DecidableEq Lock]

theorem setHeld_apply (s : LockSys Thread Lock) (t u : Thread) (lk l : Lock)
    (held : Bool) : (s.setHeld t lk held).held u l =
      if u = t ∧ l = lk then held else s.held u l := by
  simp only [setHeld, Function.update_apply]
  by_cases ht : u = t
  · subst ht
    by_cases hl : l = lk <;> simp [hl]
  · simp [ht]

theorem update (h : s.Owned pid) {held : Bool} {lock : SleepLock}
    (hlock : next.lock = Function.update s.lock lk lock)
    (hheld : ∀ u l, next.held u l = if u = t ∧ l = lk then held else s.held u l)
    (hothers : ∀ u, u ≠ t → s.held u lk = false)
    (hlocked : lock.locked = held) (hpid : held = true → lock.pid = pid t) :
    next.Owned pid := by
  have hlk : ∀ u, next.held u lk = true → u = t ∧ held = true := by
    intro u hu
    rw [hheld] at hu
    by_cases heq : u = t
    · subst heq
      rw [if_pos ⟨rfl, rfl⟩] at hu
      exact ⟨rfl, hu⟩
    · rw [if_neg fun hboth => heq hboth.1, hothers u heq] at hu
      contradiction
  have hother : ∀ l, l ≠ lk → (∀ u, next.held u l = s.held u l) ∧
      next.lock l = s.lock l := by
    intro l hne
    refine ⟨fun u => ?_, ?_⟩
    · rw [hheld, if_neg fun hboth => hne hboth.2]
    · rw [hlock, Function.update_of_ne hne]
  constructor
  · intro l u v hu hv
    by_cases heq : l = lk
    · subst heq
      rw [(hlk u hu).1, (hlk v hv).1]
    · rw [(hother l heq).1] at hu hv
      exact h.exclusive l u v hu hv
  · intro l hl
    by_cases heq : l = lk
    · subst heq
      rw [hlock, Function.update_self, hlocked] at hl
      refine ⟨t, ?_⟩
      rw [hheld, if_pos ⟨rfl, rfl⟩]
      exact hl
    · rw [(hother l heq).2] at hl
      obtain ⟨u, hu⟩ := h.locked l hl
      exact ⟨u, ((hother l heq).1 u).trans hu⟩
  · intro l u hu
    by_cases heq : l = lk
    · subst heq
      obtain ⟨rfl, hmine⟩ := hlk u hu
      rw [hlock, Function.update_self]
      exact ⟨hlocked.trans hmine, hpid hmine⟩
    · rw [(hother l heq).1] at hu
      rw [(hother l heq).2]
      exact h.holds l u hu

theorem step {label : Thread × LockAct Lock} (h : s.Owned pid)
    (hstep : s.step pid label = some next) : next.Owned pid := by
  obtain ⟨t, act⟩ := label
  unfold LockSys.step at hstep
  dsimp only at hstep
  split at hstep
  next =>
    cases hstep
    exact h.same rfl rfl
  next lk _ =>
    cases hstep
    unfold test
    split
    next => exact h.same rfl rfl
    next hfree =>
      rw [Bool.not_eq_true] at hfree
      exact h.update rfl (fun u l => setHeld_apply ..) (fun u _ => h.idle hfree u)
        rfl fun _ => rfl
  next =>
    cases hstep
    exact h.same rfl rfl
  next lk _ =>
    split at hstep
    next hmine =>
      cases hstep
      refine h.update rfl (fun u l => setHeld_apply ..) (fun u hne => ?_) rfl nofun
      by_contra hu
      rw [Bool.not_eq_false] at hu
      exact hne (h.exclusive _ u t hu hmine)
    next => contradiction
  next =>
    cases hstep
    exact h
  next => contradiction

end Steps

theorem answers (h : s.Owned pid)
    (hask : s.NoPeerAsks pid (t, .holdingsleep lk)) :
    s.holdingsleep pid t lk = true ↔ s.held t lk = true := by
  unfold holdingsleep
  rw [Bool.and_eq_true, decide_eq_true_eq]
  constructor
  · rintro ⟨hlocked, hpid⟩
    obtain ⟨u, hu⟩ := h.locked lk hlocked
    by_cases heq : u = t
    · rwa [← heq]
    · exact absurd ((h.holds lk u hu).2.symm.trans hpid) (hask lk rfl u hu heq)
  · intro hheld
    exact h.holds lk t hheld

end Owned

section Ownership

variable [DecidableEq Thread] [DecidableEq Lock]

/-- A sleep-lock has one owner, and `holdingsleep` tells the owner from every
thread of another group. -/
theorem sleeplock_owned {pid : Thread → Int} {s : LockSys Thread Lock}
    (hreach : Reach (step pid) (NoPeerAsks pid) start s) :
    (∀ lk t u, s.held t lk = true → s.held u lk = true → t = u) ∧
      ∀ t lk, s.NoPeerAsks pid (t, .holdingsleep lk) →
        (s.holdingsleep pid t lk = true ↔ s.held t lk = true) := by
  have h : s.Owned pid := by
    refine hreach.invariant (Owned pid) .start ?_
    intro state label next howned _ hstep
    exact howned.step hstep
  exact ⟨h.exclusive, fun t lk hask => h.answers hask⟩

end Ownership

/-- Thread `false` takes the lock; `true` is of another group. -/
theorem sleeplock_owned_twoGroups :
    ∃ s : LockSys Bool Unit, s.held false () = true ∧
      s.holdingsleep (fun t => if t then 7 else 5) false () = true ∧
      s.holdingsleep (fun t => if t then 7 else 5) true () = false := by
  have hrun : ((run (step fun t => if t then (7 : Int) else 5)
      (fun _ label => label.2 = .acquiresleep () ∨ label.2 = .test) start
      [(false, .acquiresleep ()), (false, .test)]).any
      fun s : LockSys Bool Unit => s.held false () = true ∧ s.held true () = false) =
        true := by
    decide +kernel
  obtain ⟨s, hreach, hheld, hnot⟩ := reach_of_run_any hrun
  have howned := sleeplock_owned (hreach.mono fun state label hguard lk hask => by
    rw [hask] at hguard
    contradiction)
  refine ⟨s, hheld, (howned.2 false () ?_).mpr hheld, ?_⟩
  · intro _ _ u _ hne
    cases u <;> simp_all
  · rw [← Bool.not_eq_true, howned.2 true () ?_, hnot]
    · simp
    · intro _ _ u _ hne
      cases u <;> simp_all

/-- A peer of the owner is told that it holds the lock. -/
theorem holdingsleep_accepts_peer :
    ¬ ∀ (pid : Bool → Int) (s : LockSys Bool Unit),
      Reach (step pid) (fun _ _ => True) start s →
        ∀ t lk, s.holdingsleep pid t lk = true ↔ s.held t lk = true := by
  intro hexact
  have hrun : ((run (step fun _ => (5 : Int)) (fun _ _ => true) start
      [(false, .acquiresleep ()), (false, .test)]).any
      fun s : LockSys Bool Unit => s.held true () = false ∧
        s.holdingsleep (fun _ => 5) true () = true) = true := by
    decide +kernel
  obtain ⟨s, hreach, hnot, hanswer⟩ := reach_of_run_any hrun
  rw [hexact (fun _ => 5) s (hreach.mono fun _ _ _ => trivial), hnot] at hanswer
  contradiction

end LockSys

end KernelThreads.Sync
