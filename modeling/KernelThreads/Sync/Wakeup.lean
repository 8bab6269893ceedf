import Mathlib.Logic.Function.Basic
import KernelThreads.Lib.Transition
import KernelThreads.Proc.Table

namespace KernelThreads.Sync

open Lib

/-! `sleep` and `wakeup`, one step for each access to shared memory, with any
spinlocks and any other code around them. -/

variable {Thread Lock Cpu : Type}

inductive SleepPc (Lock : Type) where
  /-- Code outside `sleep`, `wakeup` and `yield`. -/
  | run
  /-- It has tested its condition under `lk`, and calls `sleep`. -/
  | evaluated (chan : Chan) (lk : Lock)
  | lockTable (chan : Chan) (lk : Lock)
  | unlock (chan : Chan) (lk : Lock)
  | setChan (chan : Chan) (lk : Lock)
  | setState (chan : Chan) (lk : Lock)
  | sched (chan : Chan) (lk : Lock)
  /-- Inside `sched`, switched out or just resumed. -/
  | asleep (chan : Chan) (lk : Lock)
  | unlockTable (chan : Chan) (lk : Lock)
  | relock (chan : Chan) (lk : Lock)
  | wakeLock (chan : Chan)
  | wake1 (chan : Chan)
  | wakeUnlock
  /-- Inside the `sched` of `yield`, or never run. -/
  | yielded
  deriving DecidableEq

inductive SleepAct (Thread Lock : Type) where
  | acquire (lk : Lock)
  | release (lk : Lock)
  | evaluate (chan : Chan) (lk : Lock)
  | wakeup (chan : Chan)
  | wakeup1 (chan : Chan)
  | kill (p : Thread)
  | tresume (p : Thread)
  | yield
  | go

inductive SleepLabel (Thread Lock Cpu : Type) where
  | run (c : Cpu) (act : SleepAct Thread Lock)
  | schedAcquire (c : Cpu)
  | schedPick (c : Cpu) (p : Thread)
  | schedRelease (c : Cpu)

structure SleepSys (Thread Lock Cpu : Type) where
  /-- The CPU that holds a spinlock. -/
  holder : Lock → Option Cpu
  ncli : Cpu → Nat
  proc : Cpu → Option Thread
  pc : Thread → SleepPc Lock
  state : Thread → ProcState
  chan : Thread → Option Chan
  /-- Made runnable since it last called `sleep`. -/
  woken : Thread → Bool

namespace SleepSys

section Steps

variable [DecidableEq Thread] [DecidableEq Lock] [DecidableEq Cpu]

def goto (s : SleepSys Thread Lock Cpu) (t : Thread) (pc : SleepPc Lock) :
    SleepSys Thread Lock Cpu :=
  { s with pc := Function.update s.pc t pc }

def acquire (s : SleepSys Thread Lock Cpu) (c : Cpu) (lk : Lock) :
    Option (SleepSys Thread Lock Cpu) :=
  if s.holder lk = none then
    some { s with
      holder := Function.update s.holder lk (some c)
      ncli := Function.update s.ncli c (s.ncli c + 1) }
  else none

def release (s : SleepSys Thread Lock Cpu) (c : Cpu) (lk : Lock) :
    Option (SleepSys Thread Lock Cpu) :=
  if s.holder lk = some c then
    some { s with
      holder := Function.update s.holder lk none
      ncli := Function.update s.ncli c (s.ncli c - 1) }
  else none

def wakeup1 (s : SleepSys Thread Lock Cpu) (chan : Chan) :
    SleepSys Thread Lock Cpu :=
  let found p := decide (s.state p = .sleeping ∧ s.chan p = some chan)
  { s with
    state := fun p => if found p then .runnable else s.state p
    woken := fun p => found p || s.woken p }

/-- What `kill`, `tkill` and `tresume` do to a thread that sleeps. -/
def rouse (s : SleepSys Thread Lock Cpu) (p : Thread) : SleepSys Thread Lock Cpu :=
  if s.state p = .sleeping then
    { s with
      state := Function.update s.state p .runnable
      woken := Function.update s.woken p true }
  else s

/-- `sched`: panics unless exactly `ptable.lock` is held and the state has been
changed; the lock goes over to the scheduler. -/
def sched (ptable : Lock) (s : SleepSys Thread Lock Cpu) (c : Cpu) (t : Thread) :
    Option (SleepSys Thread Lock Cpu) :=
  if s.holder ptable = some c ∧ s.ncli c = 1 ∧ s.state t ≠ .running then
    some { s with proc := Function.update s.proc c none }
  else none

def giveUp (ptable : Lock) (s : SleepSys Thread Lock Cpu) (c : Cpu) (t : Thread) :
    Option (SleepSys Thread Lock Cpu) :=
  sched ptable { s with state := Function.update s.state t .runnable } c t

def thread (ptable : Lock) (s : SleepSys Thread Lock Cpu) (c : Cpu) (t : Thread) :
    SleepPc Lock → SleepAct Thread Lock → Option (SleepSys Thread Lock Cpu)
  | .run, .acquire lk => (s.acquire c lk).map (·.goto t .run)
  | .run, .release lk => (s.release c lk).map (·.goto t .run)
  | .run, .evaluate chan lk =>
      if s.holder lk = some c then
        some ({ s with woken := Function.update s.woken t false }.goto t
          (.evaluated chan lk))
      else none
  | .evaluated chan lk, .go =>
      some (s.goto t (if lk = ptable then .setChan chan lk else .lockTable chan lk))
  | .lockTable chan lk, .go =>
      (s.acquire c ptable).map (·.goto t (.unlock chan lk))
  | .unlock chan lk, .go => (s.release c lk).map (·.goto t (.setChan chan lk))
  | .setChan chan lk, .go =>
      some ({ s with chan := Function.update s.chan t (some chan) }.goto t
        (.setState chan lk))
  | .setState chan lk, .go =>
      some ({ s with state := Function.update s.state t .sleeping }.goto t
        (.sched chan lk))
  | .sched chan lk, .go => (s.sched ptable c t).map (·.goto t (.asleep chan lk))
  | .asleep chan lk, .go =>
      some ({ s with chan := Function.update s.chan t none }.goto t
        (if lk = ptable then .run else .unlockTable chan lk))
  | .unlockTable chan lk, .go =>
      (s.release c ptable).map (·.goto t (.relock chan lk))
  | .relock _ lk, .go => (s.acquire c lk).map (·.goto t .run)
  | .run, .wakeup chan => some (s.goto t (.wakeLock chan))
  | .wakeLock chan, .go => (s.acquire c ptable).map (·.goto t (.wake1 chan))
  | .wake1 chan, .go => some ((s.wakeup1 chan).goto t .wakeUnlock)
  | .wakeUnlock, .go => (s.release c ptable).map (·.goto t .run)
  -- Code that holds `ptable.lock` calls `wakeup1` itself.
  | .run, .wakeup1 chan =>
      if s.holder ptable = some c then some (s.wakeup1 chan) else none
  -- The whole locked sections of `kill` and `tresume`.
  | .run, .kill p => if s.holder ptable = none then some (s.rouse p) else none
  | .run, .tresume p =>
      if s.holder ptable = none ∧ s.state p = .sleeping then
        some { s.rouse p with chan := Function.update s.chan p none }
      else none
  | .run, .yield =>
      (s.acquire c ptable).bind fun locked =>
        (locked.giveUp ptable c t).map (·.goto t .yielded)
  | .yielded, .go => (s.release c ptable).map (·.goto t .run)
  | _, _ => none

def step (ptable : Lock) (s : SleepSys Thread Lock Cpu) :
    SleepLabel Thread Lock Cpu → Option (SleepSys Thread Lock Cpu)
  | .run c act =>
      match s.proc c with
      | none => none
      | some t => s.thread ptable c t (s.pc t) act
  | .schedAcquire c => if s.proc c = none then s.acquire c ptable else none
  | .schedPick c p =>
      if s.proc c = none ∧ s.holder ptable = some c ∧ s.state p = .runnable then
        some { s with
          proc := Function.update s.proc c (some p)
          state := Function.update s.state p .running }
      else none
  | .schedRelease c => if s.proc c = none then s.release c ptable else none

end Steps

/-- All locks free and all CPUs in their schedulers; every thread is about to
run for the first time, or not in use. -/
def start (used : Thread → Bool) : SleepSys Thread Lock Cpu where
  holder _ := none
  ncli _ := 0
  proc _ := none
  pc _ := .yielded
  state t := if used t then .runnable else .unused
  chan _ := none
  woken _ := false

def needs (ptable : Lock) : SleepPc Lock → Lock → Prop
  | .evaluated _ lk, l | .lockTable _ lk, l => l = lk
  | .unlock _ lk, l => l = lk ∨ l = ptable
  | .setChan .., l | .setState .., l | .sched .., l | .asleep .., l
  | .unlockTable .., l | .wake1 _, l | .wakeUnlock, l | .yielded, l => l = ptable
  | _, _ => False

def Own (ptable : Lock) : SleepPc Lock → ProcState → Option Chan → Bool → Prop
  | .lockTable _ lk, state, _, _ | .unlock _ lk, state, _, _ =>
      state ≠ .sleeping ∧ lk ≠ ptable
  | .setState chan _, state, held, _ => state ≠ .sleeping ∧ held = some chan
  | .sched chan _, state, held, _ => state = .sleeping ∧ held = some chan
  | .asleep chan _, state, held, woken =>
      state = .sleeping ∧ held = some chan ∨ state ≠ .sleeping ∧ woken = true
  | .unlockTable .., state, _, woken | .relock .., state, _, woken =>
      state ≠ .sleeping ∧ woken = true
  | _, state, _, _ => state ≠ .sleeping

def out : SleepPc Lock → Bool
  | .asleep .. | .yielded => true
  | _ => false

structure Sound (ptable : Lock) (s : SleepSys Thread Lock Cpu) : Prop where
  own : ∀ t, Own ptable (s.pc t) (s.state t) (s.chan t) (s.woken t)
  running : ∀ c t, s.proc c = some t →
    s.state t = .running ∨ ∃ chan lk, s.pc t = .sched chan lk
  single : ∀ c other t, s.proc c = some t → s.proc other = some t → c = other
  placed : ∀ t, out (s.pc t) = false → ∃ c, s.proc c = some t
  locks : ∀ c t l, s.proc c = some t → needs ptable (s.pc t) l →
    s.holder l = some c

namespace Sound

variable {ptable : Lock} {s next : SleepSys Thread Lock Cpu} {c : Cpu} {t : Thread}

theorem start (used : Thread → Bool) :
    (SleepSys.start used : SleepSys Thread Lock Cpu).Sound ptable where
  own t := by
    change (if used t = true then ProcState.runnable else .unused) ≠ .sleeping
    split <;> simp
  running c t hproc := by contradiction
  single c other t hproc := by contradiction
  placed t hout := by contradiction
  locks c t l hproc := by contradiction

theorem move (h : s.Sound ptable) (hproc : s.proc c = some t)
    (hothers : ∀ u, u ≠ t → next.pc u = s.pc u ∧ next.state u = s.state u ∧
      next.chan u = s.chan u ∧ next.woken u = s.woken u)
    (hstays : next.proc = s.proc)
    (hholder : ∀ other l, other ≠ c → s.holder l = some other →
      next.holder l = some other)
    (hown : Own ptable (next.pc t) (next.state t) (next.chan t) (next.woken t))
    (hrunning : next.state t = .running ∨ ∃ chan lk, next.pc t = .sched chan lk)
    (hlocks : ∀ l, needs ptable (next.pc t) l → next.holder l = some c) :
    next.Sound ptable := by
  constructor
  case own =>
    intro u
    by_cases heq : u = t
    · rw [heq]
      exact hown
    · obtain ⟨hpc, hstate, hchan, hwoken⟩ := hothers u heq
      rw [hpc, hstate, hchan, hwoken]
      exact h.own u
  case running =>
    intro other u hu
    by_cases heq : u = t
    · rw [heq]
      exact hrunning
    · obtain ⟨hpc, hstate, _⟩ := hothers u heq
      rw [hstays] at hu
      rw [hpc, hstate]
      exact h.running other u hu
  case single =>
    rw [hstays]
    exact h.single
  case placed =>
    intro u hout
    rw [hstays]
    by_cases heq : u = t
    · rw [heq]
      exact ⟨c, hproc⟩
    · rw [(hothers u heq).1] at hout
      exact h.placed u hout
  case locks =>
    intro other u l hu hneeds
    rw [hstays] at hu
    by_cases heq : u = t
    · subst heq
      rw [h.single other c u hu hproc]
      exact hlocks l hneeds
    · rw [(hothers u heq).1] at hneeds
      refine hholder other l ?_ (h.locks other u l hu hneeds)
      rintro rfl
      rw [hproc, Option.some.injEq] at hu
      exact heq hu.symm

theorem switch [DecidableEq Cpu] (h : s.Sound ptable) (hproc : s.proc c = some t)
    (hothers : ∀ u, u ≠ t → next.pc u = s.pc u ∧ next.state u = s.state u ∧
      next.chan u = s.chan u ∧ next.woken u = s.woken u)
    (hstays : next.proc = Function.update s.proc c none)
    (hholder : ∀ other l, other ≠ c → s.holder l = some other →
      next.holder l = some other)
    (hown : Own ptable (next.pc t) (next.state t) (next.chan t) (next.woken t))
    (hout : out (next.pc t) = true) : next.Sound ptable := by
  have hon : ∀ {other u}, next.proc other = some u →
      s.proc other = some u ∧ other ≠ c ∧ u ≠ t := by
    intro other u hu
    rw [hstays] at hu
    by_cases heq : other = c
    · rw [heq, Function.update_self] at hu
      contradiction
    · rw [Function.update_of_ne heq] at hu
      refine ⟨hu, heq, ?_⟩
      rintro rfl
      exact heq (h.single other c u hu hproc)
  constructor
  case own =>
    intro u
    by_cases heq : u = t
    · rw [heq]
      exact hown
    · obtain ⟨hpc, hstate, hchan, hwoken⟩ := hothers u heq
      rw [hpc, hstate, hchan, hwoken]
      exact h.own u
  case running =>
    intro other u hu
    obtain ⟨hwas, _, hne⟩ := hon hu
    obtain ⟨hpc, hstate, _⟩ := hothers u hne
    rw [hpc, hstate]
    exact h.running other u hwas
  case single =>
    intro first second u hfirst hsecond
    exact h.single first second u (hon hfirst).1 (hon hsecond).1
  case placed =>
    intro u hstay
    have hne : u ≠ t := by
      rintro rfl
      rw [hout] at hstay
      contradiction
    rw [(hothers u hne).1] at hstay
    obtain ⟨other, hu⟩ := h.placed u hstay
    refine ⟨other, ?_⟩
    rw [hstays, Function.update_of_ne]
    · exact hu
    · rintro rfl
      rw [hproc, Option.some.injEq] at hu
      exact hne hu.symm
  case locks =>
    intro other u l hu hneeds
    obtain ⟨hwas, hother, hne⟩ := hon hu
    rw [(hothers u hne).1] at hneeds
    exact hholder other l hother (h.locks other u l hwas hneeds)

theorem wakes (h : s.Sound ptable)
    (hnone : ∀ u chan lk, s.pc u ≠ .sched chan lk)
    (hpc : next.pc = s.pc) (hproc : next.proc = s.proc)
    (hholder : next.holder = s.holder)
    (hwakes : ∀ u, next.state u = s.state u ∧ next.chan u = s.chan u ∧
        next.woken u = s.woken u ∨
      s.state u = .sleeping ∧ next.state u = .runnable ∧ next.woken u = true) :
    next.Sound ptable := by
  constructor
  case own =>
    intro u
    have hown := h.own u
    rw [hpc]
    rcases hwakes u with ⟨hstate, hchan, hwoken⟩ | ⟨hslept, hstate, hwoken⟩
    · rw [hstate, hchan, hwoken]
      exact hown
    · rw [hstate, hwoken]
      rw [hslept] at hown
      cases hpoint : s.pc u with
      | asleep => exact .inr ⟨by simp, rfl⟩
      | sched chan lk => exact absurd hpoint (hnone u chan lk)
      | unlockTable | relock | setState | lockTable | unlock =>
          rw [hpoint] at hown
          exact absurd rfl hown.1
      | _ =>
          rw [hpoint] at hown
          exact absurd rfl hown
  case running =>
    intro c t hct
    rw [hproc] at hct
    rcases h.running c t hct with hrunning | ⟨chan, lk, hsched⟩
    · rcases hwakes t with ⟨hstate, _⟩ | ⟨hslept, _⟩
      · exact .inl (hstate.trans hrunning)
      · rw [hrunning] at hslept
        contradiction
    · exact absurd hsched (hnone t chan lk)
  case single =>
    rw [hproc]
    exact h.single
  case placed =>
    rw [hpc, hproc]
    exact h.placed
  case locks =>
    rw [hpc, hproc, hholder]
    exact h.locks

/-- While `ptable.lock` is free, or held by a CPU whose thread does something
else, nobody is on its way to sleep. -/
theorem none_sched (h : s.Sound ptable)
    (hlock : s.holder ptable = none ∨ s.holder ptable = some c ∧
      ∀ u chan lk, s.proc c = some u → s.pc u ≠ .sched chan lk)
    (u : Thread) (chan : Chan) (lk : Lock) : s.pc u ≠ .sched chan lk := by
  intro hpc
  obtain ⟨other, hu⟩ := h.placed u (by rw [hpc]; rfl)
  have hheld := h.locks other u ptable hu (by rw [hpc]; rfl)
  rcases hlock with hfree | ⟨hmine, hnot⟩
  · rw [hheld] at hfree
    contradiction
  · rw [hheld, Option.some.injEq] at hmine
    subst hmine
    exact hnot u chan lk hu hpc

theorem pick [DecidableEq Cpu] [DecidableEq Thread] {p : Thread}
    (h : s.Sound ptable) (hidle : s.proc c = none)
    (hheld : s.holder ptable = some c) (hrunnable : s.state p = .runnable) :
    Sound ptable { s with
      proc := Function.update s.proc c (some p)
      state := Function.update s.state p .running } := by
  have hoff : ∀ other, s.proc other ≠ some p := by
    intro other hp
    rcases h.running other p hp with hrunning | ⟨chan, lk, hsched⟩
    · rw [hrunnable] at hrunning
      contradiction
    · have hown := h.own p
      rw [hsched, hrunnable] at hown
      exact absurd hown.1 nofun
  have hout : out (s.pc p) = true := by
    by_contra hin
    rw [Bool.not_eq_true] at hin
    obtain ⟨other, hp⟩ := h.placed p hin
    exact hoff other hp
  have hon : ∀ {other u}, Function.update s.proc c (some p) other = some u →
      other = c ∧ u = p ∨ s.proc other = some u ∧ u ≠ p := by
    intro other u hu
    by_cases heq : other = c
    · rw [heq, Function.update_self, Option.some.injEq] at hu
      exact .inl ⟨heq, hu.symm⟩
    · rw [Function.update_of_ne heq] at hu
      refine .inr ⟨hu, ?_⟩
      rintro rfl
      exact hoff other hu
  constructor
  case own =>
    intro u
    by_cases heq : u = p
    · subst heq
      have hown := h.own u
      rw [hrunnable] at hown
      dsimp only
      rw [Function.update_self]
      cases hpoint : s.pc u with
      | asleep =>
          rw [hpoint] at hown
          rcases hown with ⟨hslept, _⟩ | ⟨_, hwoken⟩
          · contradiction
          · exact .inr ⟨nofun, hwoken⟩
      | yielded => exact nofun
      | _ =>
          rw [hpoint] at hout
          contradiction
    · dsimp only
      rw [Function.update_of_ne heq]
      exact h.own u
  case running =>
    intro other u hu
    dsimp only at hu ⊢
    rcases hon hu with ⟨_, rfl⟩ | ⟨hwas, hne⟩
    · rw [Function.update_self]
      exact .inl rfl
    · rw [Function.update_of_ne hne]
      exact h.running other u hwas
  case single =>
    intro first second u hfirst hsecond
    rcases hon hfirst with ⟨rfl, rfl⟩ | ⟨hwas, hne⟩
    · rcases hon hsecond with ⟨heq, _⟩ | ⟨_, hne⟩
      · exact heq.symm
      · exact absurd rfl hne
    · rcases hon hsecond with ⟨_, heq⟩ | ⟨hwas', _⟩
      · exact absurd heq hne
      · exact h.single first second u hwas hwas'
  case placed =>
    intro u hin
    obtain ⟨other, hu⟩ := h.placed u hin
    refine ⟨other, ?_⟩
    dsimp only
    rw [Function.update_of_ne]
    · exact hu
    · rintro rfl
      rw [hidle] at hu
      contradiction
  case locks =>
    intro other u l hu hneeds
    rcases hon hu with ⟨rfl, rfl⟩ | ⟨hwas, _⟩
    · have hl : l = ptable := by
        dsimp only at hneeds
        cases hpoint : s.pc u <;> rw [hpoint] at hneeds hout <;>
          first | exact hneeds | contradiction
      rw [hl]
      exact hheld
    · exact h.locks other u l hwas hneeds

section Locks

variable [DecidableEq Thread] [DecidableEq Lock] [DecidableEq Cpu] {lk : Lock}

theorem acquire {taken : SleepSys Thread Lock Cpu} {pc : SleepPc Lock}
    (h : s.Sound ptable) (hproc : s.proc c = some t)
    (htaken : s.acquire c lk = some taken)
    (hrunning : s.state t = .running) (hown : Own ptable pc .running (s.chan t) (s.woken t))
    (hneeds : ∀ l, needs ptable pc l → l = lk ∨ needs ptable (s.pc t) l) :
    (taken.goto t pc).Sound ptable := by
  unfold SleepSys.acquire at htaken
  split at htaken
  next hfree =>
    cases htaken
    refine h.move hproc (fun u hne => ?_) rfl ?_ ?_ ?_ ?_
    · exact ⟨Function.update_of_ne hne .., rfl, rfl, rfl⟩
    · intro other l _ hheld
      refine (Function.update_of_ne ?_ ..).trans hheld
      rintro rfl
      rw [hfree] at hheld
      contradiction
    · simpa [goto, hrunning] using hown
    · exact .inl hrunning
    · intro l hl
      simp only [goto, Function.update_self] at hl
      simp only [goto, Function.update_apply]
      split
      · rfl
      next hne => exact h.locks c t l hproc ((hneeds l hl).resolve_left hne)
  · contradiction

theorem release {freed : SleepSys Thread Lock Cpu} {pc : SleepPc Lock}
    (h : s.Sound ptable) (hproc : s.proc c = some t)
    (hfreed : s.release c lk = some freed)
    (hrunning : s.state t = .running) (hown : Own ptable pc .running (s.chan t) (s.woken t))
    (hneeds : ∀ l, needs ptable pc l → l ≠ lk ∧ needs ptable (s.pc t) l) :
    (freed.goto t pc).Sound ptable := by
  unfold SleepSys.release at hfreed
  split at hfreed
  next hmine =>
    cases hfreed
    refine h.move hproc (fun u hne => ?_) rfl ?_ ?_ ?_ ?_
    · exact ⟨Function.update_of_ne hne .., rfl, rfl, rfl⟩
    · intro other l hother hheld
      refine (Function.update_of_ne ?_ ..).trans hheld
      rintro rfl
      rw [hmine, Option.some.injEq] at hheld
      exact hother hheld.symm
    · simpa [goto, hrunning] using hown
    · exact .inl hrunning
    · intro l hl
      simp only [goto, Function.update_self] at hl
      obtain ⟨hne, hwas⟩ := hneeds l hl
      exact (Function.update_of_ne hne ..).trans (h.locks c t l hproc hwas)
  · contradiction

omit [DecidableEq Lock] [DecidableEq Cpu] in
theorem write {pc : SleepPc Lock} (h : s.Sound ptable) (hproc : s.proc c = some t)
    (hothers : ∀ u, u ≠ t → next.state u = s.state u ∧ next.chan u = s.chan u ∧
      next.woken u = s.woken u)
    (hpc : next.pc = s.pc) (hstays : next.proc = s.proc)
    (hholder : next.holder = s.holder)
    (hown : Own ptable pc (next.state t) (next.chan t) (next.woken t))
    (hrunning : next.state t = .running ∨ ∃ chan lk, pc = .sched chan lk)
    (hneeds : ∀ l, needs ptable pc l → s.holder l = some c) :
    (next.goto t pc).Sound ptable := by
  have hself : (next.goto t pc).pc t = pc := Function.update_self ..
  refine h.move hproc (fun u hne => ?_) hstays ?_ ?_ ?_ ?_
  · refine ⟨(Function.update_of_ne hne ..).trans (by rw [hpc]), hothers u hne⟩
  · intro other l _ hheld
    exact (congrFun hholder l).trans hheld
  · rw [hself]
    exact hown
  · rw [hself]
    exact hrunning
  · intro l hl
    rw [hself] at hl
    exact (congrFun hholder l).trans (hneeds l hl)

omit [DecidableEq Thread] [DecidableEq Lock] [DecidableEq Cpu] in
theorem wakeup1 (h : s.Sound ptable) (hproc : s.proc c = some t)
    (hheld : s.holder ptable = some c) (hpc : ∀ chan lk, s.pc t ≠ .sched chan lk)
    (chan : Chan) : (s.wakeup1 chan).Sound ptable := by
  refine h.wakes (h.none_sched (.inr ⟨hheld, ?_⟩)) rfl rfl rfl fun u => ?_
  · intro u chan lk hu
    rw [hproc, Option.some.injEq] at hu
    rw [← hu]
    exact hpc chan lk
  · by_cases hfound : s.state u = .sleeping ∧ s.chan u = some chan
    · refine .inr ⟨hfound.1, ?_, ?_⟩ <;> simp [SleepSys.wakeup1, hfound]
    · refine .inl ⟨?_, ?_, ?_⟩ <;> simp [SleepSys.wakeup1, hfound]

omit [DecidableEq Lock] [DecidableEq Cpu] in
theorem rouse (h : s.Sound ptable) (c : Cpu) (hfree : s.holder ptable = none)
    (p : Thread) {chan : Thread → Option Chan}
    (hchan : ∀ u, chan u = s.chan u ∨ u = p ∧ s.state p = .sleeping) :
    Sound ptable { s.rouse p with chan := chan } := by
  have hnone : ∀ u chan lk, s.pc u ≠ .sched chan lk :=
    h.none_sched (c := c) (.inl hfree)
  unfold SleepSys.rouse
  split
  next hslept =>
    refine h.wakes hnone rfl rfl rfl fun u => ?_
    by_cases heq : u = p
    · subst heq
      exact .inr ⟨hslept, Function.update_self .., Function.update_self ..⟩
    · refine .inl ⟨Function.update_of_ne heq .., ?_, Function.update_of_ne heq ..⟩
      exact (hchan u).resolve_right fun hp => heq hp.1
  next hawake =>
    refine h.wakes hnone rfl rfl rfl fun u => .inl ⟨rfl, ?_, rfl⟩
    exact (hchan u).resolve_right fun hp => hawake hp.2

omit [DecidableEq Lock] in
theorem sched {gone : SleepSys Thread Lock Cpu} {pc : SleepPc Lock}
    (h : s.Sound ptable) (hproc : s.proc c = some t)
    (hgone : s.sched ptable c t = some gone)
    (hown : Own ptable pc (s.state t) (s.chan t) (s.woken t)) (hout : out pc = true) :
    (gone.goto t pc).Sound ptable := by
  unfold SleepSys.sched at hgone
  split at hgone
  · cases hgone
    refine h.switch hproc (fun u hne => ?_) rfl (fun _ _ _ hheld => hheld) ?_ ?_
    · exact ⟨Function.update_of_ne hne .., rfl, rfl, rfl⟩
    · simpa [goto] using hown
    · simpa [goto] using hout
  · contradiction

theorem yield {locked gone : SleepSys Thread Lock Cpu}
    (h : s.Sound ptable) (hproc : s.proc c = some t)
    (hlocked : s.acquire c ptable = some locked)
    (hgone : locked.giveUp ptable c t = some gone) :
    (gone.goto t .yielded).Sound ptable := by
  unfold SleepSys.acquire at hlocked
  split at hlocked
  next hfree =>
    cases hlocked
    unfold giveUp SleepSys.sched at hgone
    split at hgone
    · cases hgone
      refine h.switch hproc (fun u hne => ?_) rfl ?_ ?_ ?_
      · exact ⟨Function.update_of_ne hne .., Function.update_of_ne hne .., rfl, rfl⟩
      · intro other l _ hheld
        refine (Function.update_of_ne ?_ ..).trans hheld
        rintro rfl
        rw [hfree] at hheld
        contradiction
      · simp [goto, Own]
      · simp [goto, out]
    · contradiction
  · contradiction

theorem thread {act : SleepAct Thread Lock} (h : s.Sound ptable)
    (hproc : s.proc c = some t)
    (hstep : s.thread ptable c t (s.pc t) act = some next) :
    next.Sound ptable := by
  have hown := h.own t
  have hlocks := fun l => h.locks c t l hproc
  have hruns := h.running c t hproc
  generalize hpc : s.pc t = pc at hstep
  rw [hpc] at hown hlocks hruns
  -- Off the way into `sched` the thread is in state `RUNNING`.
  have hrunning : (∀ chan lk, pc ≠ .sched chan lk) → s.state t = .running := by
    intro hnot
    rcases hruns with hrunning | ⟨chan, lk, hsched⟩
    · exact hrunning
    · exact absurd hsched (hnot chan lk)
  have hsame : ∀ u, u ≠ t → s.state u = s.state u ∧ s.chan u = s.chan u ∧
      s.woken u = s.woken u := fun _ _ => ⟨rfl, rfl, rfl⟩
  unfold SleepSys.thread at hstep
  split at hstep
  next lk =>
    obtain ⟨taken, htaken, rfl⟩ := Option.map_eq_some_iff.mp hstep
    exact h.acquire hproc htaken (hrunning nofun) nofun nofun
  next lk =>
    obtain ⟨freed, hfreed, rfl⟩ := Option.map_eq_some_iff.mp hstep
    exact h.release hproc hfreed (hrunning nofun) nofun nofun
  next chan lk =>
    split at hstep
    next hheld =>
      cases hstep
      refine h.write hproc (fun u hne => ⟨rfl, rfl, Function.update_of_ne hne ..⟩)
        rfl rfl rfl ?_ (.inl (hrunning nofun)) ?_
      · rw [show _ = ProcState.running from hrunning nofun]
        exact nofun
      · rintro l rfl
        exact hheld
    · contradiction
  next chan lk =>
    cases hstep
    refine h.write hproc hsame rfl rfl rfl ?_ (.inl (hrunning nofun)) ?_
    · rw [hrunning nofun]
      split
      · exact nofun
      next hne => exact ⟨nofun, hne⟩
    · split
      next heq =>
        rintro l rfl
        exact hlocks _ heq.symm
      next => exact hlocks
  next chan lk =>
    obtain ⟨taken, htaken, rfl⟩ := Option.map_eq_some_iff.mp hstep
    refine h.acquire hproc htaken (hrunning nofun) ⟨nofun, hown.2⟩ fun l hl => ?_
    rw [hpc]
    exact hl.symm
  next chan lk =>
    obtain ⟨freed, hfreed, rfl⟩ := Option.map_eq_some_iff.mp hstep
    refine h.release hproc hfreed (hrunning nofun) nofun fun l hl => ?_
    rw [hpc]
    exact ⟨hl ▸ hown.2.symm, .inr hl⟩
  next chan lk =>
    cases hstep
    refine h.write hproc (fun u hne => ⟨rfl, Function.update_of_ne hne .., rfl⟩)
      rfl rfl rfl ⟨?_, Function.update_self ..⟩ (.inl (hrunning nofun)) hlocks
    rw [show _ = ProcState.running from hrunning nofun]
    exact nofun
  next chan lk =>
    cases hstep
    refine h.write hproc (fun u hne => ⟨Function.update_of_ne hne .., rfl, rfl⟩)
      rfl rfl rfl ⟨Function.update_self .., hown.2⟩ (.inr ⟨chan, lk, rfl⟩) hlocks
  next chan lk =>
    obtain ⟨gone, hgone, rfl⟩ := Option.map_eq_some_iff.mp hstep
    exact h.sched hproc hgone (.inl hown) rfl
  next chan lk =>
    cases hstep
    have hwoken : s.woken t = true := by
      rcases hown with ⟨hslept, _⟩ | ⟨_, hwoken⟩
      · rw [hrunning nofun] at hslept
        contradiction
      · exact hwoken
    refine h.write hproc (fun u hne => ⟨rfl, Function.update_of_ne hne .., rfl⟩)
      rfl rfl rfl ?_ (.inl (hrunning nofun)) ?_
    · rw [show _ = ProcState.running from hrunning nofun]
      split
      · exact nofun
      · exact ⟨nofun, hwoken⟩
    · split
      · exact nofun
      · exact hlocks
  next chan lk =>
    obtain ⟨freed, hfreed, rfl⟩ := Option.map_eq_some_iff.mp hstep
    exact h.release hproc hfreed (hrunning nofun) ⟨nofun, hown.2⟩ nofun
  next chan lk =>
    obtain ⟨taken, htaken, rfl⟩ := Option.map_eq_some_iff.mp hstep
    exact h.acquire hproc htaken (hrunning nofun) nofun nofun
  next chan =>
    cases hstep
    refine h.write hproc hsame rfl rfl rfl ?_ (.inl (hrunning nofun)) nofun
    rw [hrunning nofun]
    exact nofun
  next chan =>
    obtain ⟨taken, htaken, rfl⟩ := Option.map_eq_some_iff.mp hstep
    exact h.acquire hproc htaken (hrunning nofun) nofun fun l hl => .inl hl
  next chan =>
    cases hstep
    have hheld := hlocks ptable rfl
    have hwakes := h.wakeup1 hproc hheld (by rw [hpc]; exact nofun) chan
    have hstate : (s.wakeup1 chan).state t = .running := by
      simp [SleepSys.wakeup1, hrunning nofun]
    refine hwakes.write hproc (fun _ _ => ⟨rfl, rfl, rfl⟩) rfl rfl rfl ?_
      (.inl hstate) hlocks
    rw [hstate]
    exact nofun
  next =>
    obtain ⟨freed, hfreed, rfl⟩ := Option.map_eq_some_iff.mp hstep
    exact h.release hproc hfreed (hrunning nofun) nofun nofun
  next chan =>
    split at hstep
    next hheld =>
      cases hstep
      exact h.wakeup1 hproc hheld (by rw [hpc]; exact nofun) chan
    · contradiction
  next p =>
    split at hstep
    next hfree =>
      cases hstep
      have hchan : ∀ u, (s.rouse p).chan u = s.chan u := by
        intro u
        unfold SleepSys.rouse
        split <;> rfl
      exact h.rouse c hfree p fun u => .inl (hchan u)
    · contradiction
  next p =>
    split at hstep
    next hfree =>
      cases hstep
      refine h.rouse c hfree.1 p fun u => ?_
      by_cases heq : u = p
      · exact .inr ⟨heq, hfree.2⟩
      · exact .inl (Function.update_of_ne heq ..)
    · contradiction
  next =>
    obtain ⟨locked, hlocked, hrest⟩ := Option.bind_eq_some_iff.mp hstep
    obtain ⟨gone, hgone, rfl⟩ := Option.map_eq_some_iff.mp hrest
    exact h.yield hproc hlocked hgone
  next =>
    obtain ⟨freed, hfreed, rfl⟩ := Option.map_eq_some_iff.mp hstep
    exact h.release hproc hfreed (hrunning nofun) nofun nofun
  next => contradiction

omit [DecidableEq Thread] [DecidableEq Lock] [DecidableEq Cpu] in
theorem idle (h : s.Sound ptable) (hidle : s.proc c = none)
    (hpc : next.pc = s.pc) (hproc : next.proc = s.proc)
    (hslots : next.state = s.state ∧ next.chan = s.chan ∧ next.woken = s.woken)
    (hholder : ∀ other l, other ≠ c → s.holder l = some other →
      next.holder l = some other) : next.Sound ptable := by
  obtain ⟨hstate, hchan, hwoken⟩ := hslots
  constructor
  · rw [hpc, hstate, hchan, hwoken]
    exact h.own
  · rw [hproc, hstate, hpc]
    exact h.running
  · rw [hproc]
    exact h.single
  · rw [hpc, hproc]
    exact h.placed
  · intro other u l hu hneeds
    rw [hproc] at hu
    rw [hpc] at hneeds
    refine hholder other l ?_ (h.locks other u l hu hneeds)
    rintro rfl
    rw [hidle] at hu
    contradiction

theorem step {label : SleepLabel Thread Lock Cpu} (h : s.Sound ptable)
    (hstep : s.step ptable label = some next) : next.Sound ptable := by
  cases label with
  | run c act =>
      simp only [SleepSys.step] at hstep
      split at hstep
      · contradiction
      next t hproc => exact h.thread hproc hstep
  | schedAcquire c =>
      simp only [SleepSys.step, SleepSys.acquire] at hstep
      split at hstep
      next hidle =>
        split at hstep
        next hfree =>
          cases hstep
          refine h.idle hidle rfl rfl ⟨rfl, rfl, rfl⟩ fun other l _ hheld => ?_
          refine (Function.update_of_ne ?_ ..).trans hheld
          rintro rfl
          rw [hfree] at hheld
          contradiction
        · contradiction
      · contradiction
  | schedPick c p =>
      simp only [SleepSys.step] at hstep
      split at hstep
      next hpick =>
        cases hstep
        exact h.pick hpick.1 hpick.2.1 hpick.2.2
      · contradiction
  | schedRelease c =>
      simp only [SleepSys.step, SleepSys.release] at hstep
      split at hstep
      next hidle =>
        split at hstep
        next hmine =>
          cases hstep
          refine h.idle hidle rfl rfl ⟨rfl, rfl, rfl⟩ fun other l hother hheld => ?_
          refine (Function.update_of_ne ?_ ..).trans hheld
          rintro rfl
          rw [hmine, Option.some.injEq] at hheld
          exact hother hheld.symm
        · contradiction
      · contradiction

end Locks

end Sound

def waits : SleepPc Lock → Option (Chan × Lock)
  | .evaluated chan lk | .lockTable chan lk | .unlock chan lk | .setChan chan lk
  | .setState chan lk | .sched chan lk | .asleep chan lk | .unlockTable chan lk
  | .relock chan lk => some (chan, lk)
  | _ => none

section Wakes

variable [DecidableEq Thread] [DecidableEq Lock] [DecidableEq Cpu]
  {ptable : Lock} {s next : SleepSys Thread Lock Cpu}

def WakesUp (s : SleepSys Thread Lock Cpu) (c : Cpu)
    (act : SleepAct Thread Lock) (chan : Chan) : Prop :=
  ∃ t, s.proc c = some t ∧
    (s.pc t = .wake1 chan ∧ act = .go ∨ s.pc t = .run ∧ act = .wakeup1 chan)

omit [DecidableEq Thread] [DecidableEq Lock] [DecidableEq Cpu] in
theorem Sound.same_thread {c : Cpu} {t p : Thread} {l : Lock}
    (h : s.Sound ptable) (hproc : s.proc c = some t)
    (hheld : s.holder l = some c) (hin : out (s.pc p) = false)
    (hneeds : needs ptable (s.pc p) l) : p = t := by
  obtain ⟨other, hp⟩ := h.placed p hin
  have hother := h.locks other p l hp hneeds
  rw [hheld, Option.some.injEq] at hother
  subst hother
  rw [hproc, Option.some.injEq] at hp
  exact hp.symm

omit [DecidableEq Thread] [DecidableEq Lock] [DecidableEq Cpu] in
theorem Sound.finds {c : Cpu} {t p : Thread} {chan : Chan} {lk : Lock}
    (h : s.Sound ptable) (hproc : s.proc c = some t)
    (htable : s.holder ptable = some c) (hheld : s.holder lk = some c)
    (hwaits : waits (s.pc p) = some (chan, lk)) (hnot : waits (s.pc t) = none) :
    s.state p = .sleeping ∧ s.chan p = some chan ∨ s.woken p = true := by
  have hne : p ≠ t := by
    rintro rfl
    rw [hwaits] at hnot
    contradiction
  have hown := h.own p
  cases hpc : s.pc p with
  | evaluated | lockTable =>
      -- It still holds `lk`, on another CPU.
      rw [hpc] at hwaits
      cases hwaits
      exact absurd (h.same_thread hproc hheld (by rw [hpc]; rfl) (by rw [hpc]; rfl))
        hne
  | unlock =>
      exact absurd (h.same_thread hproc htable (by rw [hpc]; rfl)
        (by rw [hpc]; exact .inr rfl)) hne
  | setChan | setState | sched =>
      exact absurd (h.same_thread hproc htable (by rw [hpc]; rfl) (by rw [hpc]; rfl))
        hne
  | asleep =>
      rw [hpc] at hwaits hown
      cases hwaits
      exact hown.imp_right And.right
  | unlockTable | relock =>
      rw [hpc] at hown
      exact .inr hown.2
  | _ =>
      rw [hpc] at hwaits
      contradiction

/-- Whoever waits under `lk` is found by a `wakeup1` of a thread that holds
`lk`, unless it has been made runnable before. -/
theorem wakeup_not_lost {used : Thread → Bool} {c : Cpu}
    {act : SleepAct Thread Lock} {chan : Chan} {lk : Lock} {p : Thread}
    (hreach : Reach (step ptable) (fun _ _ => True) (start used) s)
    (hwaits : waits (s.pc p) = some (chan, lk)) (hheld : s.holder lk = some c)
    (hwakes : s.WakesUp c act chan)
    (hstep : s.step ptable (.run c act) = some next) :
    s.state p = .sleeping ∧ s.chan p = some chan ∧ next.state p = .runnable ∨
      s.woken p = true := by
  have h : s.Sound ptable := by
    refine hreach.invariant (Sound ptable) (.start used) ?_
    intro state label next hsound _ hnext
    exact hsound.step hnext
  obtain ⟨t, hproc, hpoint⟩ := hwakes
  have hresult : s.holder ptable = some c ∧ waits (s.pc t) = none ∧
      next.state = (s.wakeup1 chan).state := by
    simp only [step, hproc] at hstep
    rcases hpoint with ⟨hpc, rfl⟩ | ⟨hpc, rfl⟩
    · rw [hpc] at hstep ⊢
      cases hstep
      exact ⟨h.locks c t ptable hproc (by rw [hpc]; rfl), rfl, rfl⟩
    · rw [hpc] at hstep ⊢
      simp only [thread] at hstep
      split at hstep
      next htable =>
        cases hstep
        exact ⟨htable, rfl, rfl⟩
      · contradiction
  obtain ⟨htable, hnot, hnext⟩ := hresult
  refine (h.finds hproc htable hheld hwaits hnot).imp_left fun hfound => ?_
  refine ⟨hfound.1, hfound.2, ?_⟩
  rw [hnext]
  simp [wakeup1, hfound]

end Wakes

/-- Thread 0 sleeps under lock `false` on CPU 0; thread 1 takes that lock on
CPU 1 and calls `wakeup`.  Lock `true` is `ptable.lock`. -/
def sleepThenWake : List (SleepLabel Nat Bool Nat) :=
  [.schedAcquire 0, .schedPick 0 0, .run 0 .go, .run 0 (.acquire false),
    .run 0 (.evaluate (.other 8) false), .run 0 .go, .run 0 .go, .run 0 .go,
    .run 0 .go, .run 0 .go, .run 0 .go, .schedRelease 0, .schedAcquire 1,
    .schedPick 1 1, .run 1 .go, .run 1 (.acquire false),
    .run 1 (.wakeup (.other 8)), .run 1 .go]

theorem wakeup_not_lost_sleepThenWake :
    ∃ s next : SleepSys Nat Bool Nat, s.pc 1 = .wake1 (.other 8) ∧
      s.state 0 = .sleeping ∧ s.step true (.run 1 .go) = some next ∧
        next.state 0 = .runnable := by
  have hrun : ((run (step true) (fun _ _ => true) (start fun _ => true)
      sleepThenWake).any fun s : SleepSys Nat Bool Nat =>
        (waits (s.pc 0) = some (.other 8, false) ∧ s.holder false = some 1 ∧
          s.proc 1 = some 1 ∧ s.pc 1 = .wake1 (.other 8) ∧ s.woken 0 = false) ∧
        ((s.step true (.run 1 .go)).isSome)) = true := by
    decide +kernel
  obtain ⟨s, hreach, ⟨hwaits, hheld, hproc, hpc, hwoken⟩, hsome⟩ := reach_of_run_any hrun
  obtain ⟨next, hstep⟩ := Option.isSome_iff_exists.mp hsome
  have hwakes : s.WakesUp 1 .go (.other 8) := ⟨1, hproc, .inl ⟨hpc, rfl⟩⟩
  rcases wakeup_not_lost (hreach.mono fun _ _ _ => trivial) hwaits hheld hwakes
    hstep with ⟨hslept, _, hnext⟩ | hwas
  · exact ⟨s, next, hpc, hslept, hstep, hnext⟩
  · rw [hwoken] at hwas
    contradiction

end SleepSys

end KernelThreads.Sync
