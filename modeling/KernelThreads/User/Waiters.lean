import Mathlib.Data.List.Count
import KernelThreads.Lib.Scan
import KernelThreads.User.Permits

namespace KernelThreads

open Lib

namespace SemSys

variable {τ : Type} [DecidableEq τ] {g : ThreadGroup τ} {s next : SemSys τ}
  {label : SemLabel τ} {t : τ} {v : Nat}

def resumesAsleep (s : SemSys τ) : SemLabel τ → Bool
  | .go t =>
      match s.pc t with
      | .resume p => s.pc p = .asleep
      | _ => true
  | _ => true

def hasRoom (s : SemSys τ) : SemLabel τ → Bool
  | .wait _ => 0 < s.sem.val ∨ s.sem.q.front + 1 ≠ s.sem.q.rear
  | .go t => s.pc t ≠ .awake ∨ 0 ≤ s.sem.val ∨ s.sem.q.front + 1 ≠ s.sem.q.rear
  | _ => true

def pending (s : SemSys τ) (g : ThreadGroup τ) (t : τ) : Prop :=
  ∃ u, s.pc u = .scan (g.gettid t) ∨ s.pc u = .resume t

/-- Threads on their way to sleep, or asleep, will be resumed. -/
structure Queued (g : ThreadGroup τ) (s : SemSys τ) : Prop where
  peer : ∀ t, s.pc t = .asleep → g.leader t = false
  listed : ∀ t, g.leader t = false → s.pc t = .suspend ∨ s.pc t = .asleep →
    g.gettid t ∈ s.sem.q.toList ∨ s.pending g t

omit [DecidableEq τ] in
theorem Queued.init (sem : Semaphore) (v : Nat) :
    Queued g (SemSys.init sem v : SemSys τ) :=
  ⟨nofun, fun _ _ hpc => by rcases hpc with hpc | hpc <;> cases hpc⟩

def SemPc.resumes : SemPc τ → Bool
  | .scan _ | .resume _ => true
  | _ => false

theorem pending_of_other {pc : SemPc τ} {u : τ} (h : s.pending g u)
    (hpc : s.pc t ≠ .scan (g.gettid u) ∧ s.pc t ≠ .resume u) :
    (s.goto t pc).pending g u := by
  obtain ⟨w, hw⟩ := h
  have hne : w ≠ t := by
    rintro rfl
    rcases hw with hw | hw
    · exact hpc.1 hw
    · exact hpc.2 hw
  refine ⟨w, ?_⟩
  rw [goto_pc, Function.update_of_ne hne]
  exact hw

theorem pending_update {pc : SemPc τ} {u : τ} (h : s.pending g u)
    (hpc : SemPc.resumes (s.pc t) = false) : (s.goto t pc).pending g u := by
  refine pending_of_other h ⟨fun heq => ?_, fun heq => ?_⟩ <;>
    rw [heq] at hpc <;> cases hpc

theorem Queued.leads (h : Queued g s) {pc : SemPc τ}
    (hkeeps : ∀ u, g.leader u = false → s.pc u = .suspend ∨ s.pc u = .asleep →
      s.pending g u → (s.goto t pc).pending g u)
    (hsuspend : pc ≠ .suspend) (hasleep : pc ≠ .asleep) :
    Queued g (s.goto t pc) := by
  refine ⟨fun u hu => ?_, fun u hpeer hu => ?_⟩
  · rw [goto_pc, Function.update_apply] at hu
    split at hu
    · exact absurd hu hasleep
    · exact h.peer u hu
  · rw [goto_pc, Function.update_apply] at hu
    split at hu
    · exact absurd hu (not_or.mpr ⟨hsuspend, hasleep⟩)
    · rcases h.listed u hpeer hu with hin | hpending
      · exact .inl hin
      · exact .inr (hkeeps u hpeer hu hpending)

theorem Queued.goto (h : Queued g s) {pc : SemPc τ}
    (hpc : SemPc.resumes (s.pc t) = false) (hsuspend : pc ≠ .suspend)
    (hasleep : pc ≠ .asleep) : Queued g (s.goto t pc) :=
  h.leads (fun _ _ _ hpending => pending_update hpending hpc) hsuspend hasleep

theorem Queued.test (h : Queued g s) (hpc : SemPc.resumes (s.pc t) = false)
    (hroom : s.sem.val < 0 → s.sem.q.front + 1 ≠ s.sem.q.rear) :
    Queued g (s.test g t) := by
  unfold SemSys.test
  split
  next hneg =>
    have hlist := Queue.toList_enqueue (hroom hneg) (g.gettid t)
    refine ⟨fun u hu => ?_, fun u hpeer hu => ?_⟩
    · simp only [block, goto_pc, Function.update_apply] at hu
      split at hu
      · cases hu
      · exact h.peer u hu
    · simp only [block, goto_sem, hlist, List.mem_append, List.mem_singleton]
      simp only [block, goto_pc, Function.update_apply] at hu
      split at hu
      next heq =>
        rw [heq]
        exact .inl (.inr rfl)
      next =>
        rcases h.listed u hpeer hu with hin | hpending
        · exact .inl (.inl hin)
        · exact .inr (pending_update (s := { s with
            sem := { s.sem with q := (s.sem.q.enqueue (g.gettid t)).2 } })
            hpending hpc)
  next =>
    exact Queued.goto (s := { s with returned := t :: s.returned })
      ⟨h.peer, h.listed⟩ hpc (by simp) (by simp)

theorem Queued.dequeue (h : Queued g s) (hpc : SemPc.resumes (s.pc t) = false)
    (hsome : s.sem.q.isempty = false) :
    Queued g (s.dequeue t) := by
  have hlist := Queue.toList_dequeue hsome
  refine ⟨fun u hu => ?_, fun u hpeer hu => ?_⟩
  · simp only [SemSys.dequeue, goto_pc, Function.update_apply] at hu
    split at hu
    · cases hu
    · exact h.peer u hu
  · simp only [SemSys.dequeue, goto_pc, Function.update_apply] at hu
    split at hu
    · rcases hu with hu | hu <;> cases hu
    · rcases h.listed u hpeer hu with hin | hpending
      · rw [hlist, List.mem_cons] at hin
        rcases hin with hhead | htail
        · refine .inr ⟨t, .inl ?_⟩
          rw [hhead]
          exact Function.update_self ..
        · exact .inl htail
      · exact .inr (pending_update (s := { s with
          sem := { s.sem with q := s.sem.q.dequeue.2, locked := true } })
          hpending hpc)

theorem Queued.step (h : Queued g s) (hasleep : s.resumesAsleep label = true)
    (hroom : s.hasRoom label = true) (hstep : step g s label = some next) :
    Queued g next := by
  cases does_of_step hstep with
  | @wait t hpc =>
      refine Queued.test (s := s.enter t) ⟨h.peer, h.listed⟩ ?_ fun hneg => ?_
      · show SemPc.resumes (s.pc t) = false
        rw [hpc]
        rfl
      · simp only [hasRoom, decide_eq_true_eq] at hroom
        simp only [enter] at hneg
        exact hroom.resolve_left (by omega)
  | @signal t hpc =>
      have hquiet : SemPc.resumes (s.pc t) = false := by
        rw [hpc]
        rfl
      unfold SemSys.raise
      split
      · exact Queued.goto (s := { s.increment t with
          sem := { (s.increment t).sem with locked := false }
          completed := t :: s.completed }) ⟨h.peer, h.listed⟩ hquiet (by simp) (by simp)
      next hsome =>
        exact Queued.dequeue (s := s.increment t) ⟨h.peer, h.listed⟩ hquiet
          (by simpa [increment] using hsome)
  | @suspend t hpc =>
      have hquiet : SemPc.resumes (s.pc t) = false := by
        rw [hpc]
        rfl
      refine ⟨fun u hu => ?_, fun u hpeer hu => ?_⟩
      · rw [goto_pc, Function.update_apply] at hu
        split at hu
        next heq =>
          subst heq
          split at hu
          · cases hu
          next hleader => simpa using hleader
        next => exact h.peer u hu
      · have hbefore : s.pc u = .suspend ∨ s.pc u = .asleep := by
          rw [goto_pc, Function.update_apply] at hu
          split at hu
          next heq =>
            rw [heq]
            exact .inl hpc
          next => exact hu
        rcases h.listed u hpeer hbefore with hin | hpending
        · exact .inl hin
        · exact .inr (pending_update hpending hquiet)
  | @retry t hpc =>
      refine h.test (by rw [hpc]; rfl) fun hneg => ?_
      simp only [hasRoom, hpc, decide_eq_true_eq] at hroom
      rcases hroom with hroom | hroom | hroom
      · exact absurd rfl hroom
      · exact absurd hneg (not_lt.mpr hroom)
      · exact hroom
  | @unfound t tid hpc hgone =>
      refine h.leads (fun u hpeer _ hpending => ?_) (by simp) (by simp)
      refine pending_of_other hpending ?_
      rw [hpc]
      exact ⟨fun heq => hgone u hpeer (SemPc.scan.inj heq).symm, (by simp)⟩
  | @found t p tid hpc hp htid =>
      refine h.leads (fun u hpeer _ hpending => ?_) (by simp) (by simp)
      by_cases hu : u = p
      · rw [hu]
        exact ⟨t, .inr (Function.update_self ..)⟩
      · refine pending_of_other hpending ?_
        rw [hpc]
        refine ⟨fun heq => hu ?_, (by simp)⟩
        exact g.gettid_inj hpeer hp ((SemPc.scan.inj heq).symm.trans htid.symm)
  | @resume t p hpc =>
      have hp : s.pc p = .asleep := by
        simpa [resumesAsleep, hpc] using hasleep
      have htp : t ≠ p := by
        rintro rfl
        rw [hp] at hpc
        cases hpc
      have hroused : Queued g (s.goto p .awake) :=
        h.goto (by rw [hp]; rfl) (by simp) (by simp)
      rw [rouse, if_pos hp]
      refine hroused.leads (fun u _ hu hpending => ?_) (by simp) (by simp)
      refine pending_of_other hpending ?_
      rw [goto_pc, Function.update_of_ne htp, hpc]
      refine ⟨(by simp), fun heq => ?_⟩
      rw [← SemPc.resume.inj heq, goto_pc, Function.update_self] at hu
      rcases hu with hu | hu <;> cases hu
  | @release t hpc =>
      exact Queued.goto (s := { s with
        sem := { s.sem with locked := false }
        completed := t :: s.completed }) ⟨h.peer, h.listed⟩
        (by show SemPc.resumes (s.pc t) = false; rw [hpc]; rfl) (by simp) (by simp)
  | wake hpc => exact h.goto (by rw [hpc]; rfl) (by simp) (by simp)

theorem queued_invariant {sem : Semaphore} {guard : SemSys τ → SemLabel τ → Prop}
    (hguard : ∀ s label, guard s label →
      s.resumesAsleep label = true ∧ s.hasRoom label = true)
    (hreach : Reach (step g) guard (init sem v) s) : Queued g s :=
  hreach.invariant (Queued g) (.init sem v) fun h hstate hstep =>
    h.step (hguard _ _ hstate).1 (hguard _ _ hstate).2 hstep

/-- A thread asleep in `block` is in the queue, or about to be resumed. -/
theorem resume_not_lost {sem : Semaphore}
    (hreach : Reach (step g)
      (fun s label => (s.resumesAsleep label && s.hasRoom label) = true)
      (init sem v) s) (hasleep : s.pc t = .asleep) :
    g.gettid t ∈ s.sem.q.toList ∨ s.pending g t := by
  have hqueued : Queued g s := queued_invariant (fun _ _ h => by
    simpa only [Bool.and_eq_true] using h) hreach
  exact hqueued.listed t (hqueued.peer t hasleep) (.inr hasleep)

end SemSys

def threePeers : ThreadGroup (Fin 3) where
  gettid := fun t => t.val + 2
  leader := fun _ => false
  find := fun tid => firstSlot fun t => ((t.val : Int) + 2 = tid : Bool)
  valid := by decide
  find_iff := by
    intro tid t _
    refine ⟨fun hfind => ⟨rfl, by simpa using firstSlot_some hfind⟩, ?_⟩
    rintro ⟨_, rfl⟩
    refine firstSlot_unique (by simp) fun other hother => Fin.ext ?_
    have hsame : (other.val : Int) = t.val := by simpa using hother
    exact_mod_cast hsame

def SemLabel.genuine {τ : Type} : SemLabel τ → Bool
  | .wake _ => false
  | _ => true

def emptySemaphore : Semaphore where
  val := 0
  q := { cells := fun _ => 0, front := 0, rear := 0 }
  locked := false

namespace SemSys

/-- Two threads wait; after one signal the first of them is resumed, finds
`val` below zero and waits again. -/
def twoWaiters : List (SemLabel (Fin 3)) :=
  [.wait 0, .go 0, .wait 1, .go 1, .signal 2, .go 2, .go 2, .go 2, .go 0, .go 0]

def resumedEarly : List (SemLabel (Fin 3)) :=
  [.wait 0, .signal 1, .go 1, .go 1, .go 1, .go 0]

set_option maxRecDepth 4000

theorem resume_not_lost_sleeper : ∃ s : SemSys (Fin 3),
    s.pc 0 = .asleep ∧ (2 ∈ s.sem.q.toList ∨ s.pending threePeers 0) := by
  have hrun : ((run (step threePeers)
      (fun s label => s.resumesAsleep label && s.hasRoom label)
      (init emptySemaphore 0) twoWaiters).any fun s => s.pc 0 = .asleep) = true := by
    decide +kernel
  obtain ⟨s, hreach, hasleep⟩ := reach_of_run_any hrun
  exact ⟨s, hasleep, resume_not_lost hreach hasleep⟩

/-- The signal has no effect, and the thread sleeps for good. -/
theorem early_resume_lost :
    ¬ ∀ (s : SemSys (Fin 3)) t, Reach (step threePeers)
        (fun _ label => label.genuine = true) (init emptySemaphore 0) s →
      s.pc t = .asleep →
      threePeers.gettid t ∈ s.sem.q.toList ∨ s.pending threePeers t := by
  intro hkept
  have hrun : ((run (step threePeers) (fun _ label => label.genuine)
      (init emptySemaphore 0) resumedEarly).any fun s => s.pc 0 = .asleep ∧ s.sem.q.isempty = true ∧
        ∀ u, s.pc u = .asleep ∨ s.pc u = .idle) = true := by
    decide +kernel
  obtain ⟨s, hreach, hasleep, hempty, hquiet⟩ := reach_of_run_any hrun
  rcases hkept s 0 hreach hasleep with hin | ⟨u, hpending⟩
  · rw [Queue.toList_of_isempty hempty] at hin
    cases hin
  · rcases hquiet u with hu | hu <;> rw [hu] at hpending <;>
      rcases hpending with h | h <;> cases h

section Balanced

variable {τ : Type} [DecidableEq τ] {g : ThreadGroup τ} {s next : SemSys τ}
  {label : SemLabel τ} {t : τ} {v : Nat}

def retestsFree (s : SemSys τ) : SemLabel τ → Bool
  | .go t => s.pc t ≠ .awake ∨ 0 ≤ s.sem.val
  | _ => true

def SemPc.holds : SemPc τ → Bool
  | .scan _ | .resume _ | .release => true
  | _ => false

structure Balanced (s : SemSys τ) : Prop where
  length : (s.sem.q.toList.length : Int) = max 0 (-s.sem.val)
  holder : ∀ t, SemPc.holds (s.pc t) = true →
    s.sem.locked = true ∧ ∀ u, SemPc.holds (s.pc u) = true → u = t
  signals : s.raised.length = s.completed.length + if s.sem.locked then 1 else 0

omit [DecidableEq τ] in
theorem Balanced.init (sem : Semaphore) (v : Nat) :
    Balanced (SemSys.init sem v : SemSys τ) := by
  have hempty : (SemSys.init sem v : SemSys τ).sem.q.toList = [] :=
    Queue.toList_of_isempty (decide_eq_true rfl)
  refine ⟨?_, nofun, rfl⟩
  rw [hempty]
  simp [SemSys.init, Semaphore.init]

theorem Balanced.goto (h : Balanced s) {pc : SemPc τ}
    (hsame : SemPc.holds pc = SemPc.holds (s.pc t)) : Balanced (s.goto t pc) := by
  have hholds : ∀ u, SemPc.holds ((s.goto t pc).pc u) = SemPc.holds (s.pc u) := by
    intro u
    rw [goto_pc, Function.update_apply]
    split
    next heq => rw [heq, hsame]
    next => rfl
  refine ⟨h.length, fun u hu => ?_, h.signals⟩
  rw [hholds] at hu
  obtain ⟨hlocked, hunique⟩ := h.holder u hu
  refine ⟨hlocked, fun w hw => ?_⟩
  rw [hholds] at hw
  exact hunique w hw

omit [DecidableEq τ] in
theorem Balanced.free (h : Balanced s) (hfree : s.sem.locked = false) (t : τ) :
    SemPc.holds (s.pc t) = false := by
  by_contra hholds
  rw [Bool.not_eq_false] at hholds
  rw [(h.holder t hholds).1] at hfree
  cases hfree

theorem Balanced.wait (h : Balanced s) (hpc : s.pc t = .idle)
    (hroom : s.hasRoom (.wait t) = true) : Balanced ((s.enter t).test g t) := by
  have hlength := h.length
  unfold SemSys.test
  split
  next hneg =>
    simp only [enter] at hneg
    have hroom : s.sem.q.front + 1 ≠ s.sem.q.rear := by
      simp only [hasRoom, decide_eq_true_eq] at hroom
      exact hroom.resolve_left (by omega)
    refine Balanced.goto (s := { s.enter t with
      sem := { (s.enter t).sem with q := (s.sem.q.enqueue (g.gettid t)).2 } })
      ⟨?_, h.holder, h.signals⟩ ?_
    · simp only [enter, Queue.toList_enqueue hroom, List.length_append,
        List.length_singleton]
      omega
    · show SemPc.holds .suspend = SemPc.holds (s.pc t)
      rw [hpc]
      rfl
  next hnonneg =>
    simp only [enter] at hnonneg
    refine Balanced.goto (s := { s.enter t with returned := t :: s.returned })
      ⟨?_, h.holder, h.signals⟩ ?_
    · simp only [enter]
      omega
    · show SemPc.holds .idle = SemPc.holds (s.pc t)
      rw [hpc]

theorem Balanced.raise (h : Balanced s) (hpc : s.pc t = .idle)
    (hfree : s.sem.locked = false) : Balanced (s.raise t) := by
  have hlength := h.length
  have hsignals := h.signals
  rw [hfree] at hsignals
  unfold SemSys.raise
  split
  next hempty =>
    rw [Queue.toList_of_isempty hempty] at hlength
    refine Balanced.goto (s := { s.increment t with
      sem := { (s.increment t).sem with locked := false }
      completed := t :: s.completed }) ⟨?_, ?_, ?_⟩ ?_
    · simp only [increment, Queue.toList_of_isempty hempty]
      simp only [List.length_nil] at hlength ⊢
      omega
    · intro u hu
      exact absurd hu (Bool.not_eq_true _ ▸ h.free hfree u)
    · simpa [increment] using hsignals
    · show SemPc.holds .idle = SemPc.holds (s.pc t)
      rw [hpc]
  next hsome =>
    have hlist := Queue.toList_dequeue (by simpa using hsome)
    rw [hlist, List.length_cons] at hlength
    have hother : ∀ u, SemPc.holds (((s.increment t).dequeue t).pc u) = true →
        u = t := by
      intro u hu
      by_contra hne
      simp only [SemSys.dequeue, goto_pc, Function.update_of_ne hne, increment] at hu
      rw [h.free hfree u] at hu
      cases hu
    refine ⟨?_, fun u hu => ⟨rfl, fun w hw => ?_⟩, ?_⟩
    · simp only [SemSys.dequeue, goto_sem, increment]
      omega
    · rw [hother u hu, hother w hw]
    · simpa [SemSys.dequeue, increment] using hsignals

theorem Balanced.finish (h : Balanced s) (hpc : s.pc t = .release) :
    Balanced (s.finish t) := by
  obtain ⟨hlocked, hunique⟩ := h.holder t (by rw [hpc]; rfl)
  have hsignals := h.signals
  rw [hlocked] at hsignals
  refine ⟨h.length, fun u hu => ?_, ?_⟩
  · simp only [SemSys.finish, goto_pc, Function.update_apply] at hu
    split at hu
    · cases hu
    next hne => exact absurd (hunique u hu) hne
  · simpa [SemSys.finish] using hsignals

theorem Balanced.step (h : Balanced s) (hroom : s.hasRoom label = true)
    (hretest : s.retestsFree label = true) (hstep : step g s label = some next) :
    Balanced next := by
  cases does_of_step hstep with
  | wait hpc => exact h.wait hpc hroom
  | signal hpc hfree => exact h.raise hpc hfree
  | suspend hpc =>
      refine h.goto ?_
      rw [hpc]
      split <;> rfl
  | @retry t hpc =>
      have hnonneg : 0 ≤ s.sem.val := by
        simpa [retestsFree, hpc] using hretest
      rw [test, if_neg (not_lt.mpr hnonneg)]
      exact Balanced.goto (s := { s with returned := t :: s.returned })
        ⟨h.length, h.holder, h.signals⟩ (by
          show SemPc.holds .idle = SemPc.holds (s.pc t)
          rw [hpc]
          rfl)
  | unfound hpc => exact h.goto (by rw [hpc]; rfl)
  | found hpc => exact h.goto (by rw [hpc]; rfl)
  | @resume t p hpc =>
      unfold SemSys.rouse
      split
      next hp =>
        refine Balanced.goto (h.goto (by rw [hp]; rfl)) ?_
        rw [goto_pc, Function.update_apply]
        split
        next heq =>
          rw [heq, hp] at hpc
          cases hpc
        next =>
          rw [hpc]
          rfl
      next => exact h.goto (by rw [hpc]; rfl)
  | release hpc => exact h.finish hpc
  | wake hpc => exact h.goto (by rw [hpc]; rfl)

/-- The lock is free, and whoever is in `semaphore_wait` is suspended. -/
def Quiescent (s : SemSys τ) : Prop :=
  s.sem.locked = false ∧ ∀ t, s.pc t = .idle ∨ s.pc t = .asleep

theorem unreturned_le (hpeers : ∀ t, g.leader t = false) (hqueued : Queued g s)
    (haccounts : Accounts v s) (hquiet : s.Quiescent) :
    s.called.length ≤ s.returned.length + s.sem.q.toList.length := by
  obtain ⟨_, hquiet⟩ := hquiet
  have hcount : ∀ t ∈ s.returned, s.returned.count t ≤ s.called.count t := by
    intro t _
    rw [haccounts.waits t]
    exact Nat.le_add_right ..
  have hperm := List.subperm_append_diff_self_of_count_le hcount
  have hblocked : ∀ t, (s.called.diff s.returned).count t =
      if (s.pc t).blocked then 1 else 0 := by
    intro t
    rw [List.count_diff, haccounts.waits t, Nat.add_sub_cancel_left]
  -- Every one of them is asleep, and so in the queue.
  have hasleep : ∀ t ∈ s.called.diff s.returned, s.pc t = .asleep := by
    intro t ht
    rw [← List.count_pos_iff, hblocked t] at ht
    rcases hquiet t with hpc | hpc
    · simp [hpc, SemPc.blocked] at ht
    · exact hpc
  have hnodup : ((s.called.diff s.returned).map g.gettid).Nodup := by
    refine List.Nodup.map_on (fun t _ u _ heq => ?_) ?_
    · exact g.gettid_inj (hpeers t) (hpeers u) heq
    · rw [List.nodup_iff_count_le_one]
      intro t
      rw [hblocked t]
      split <;> omega
  have hsubset : (s.called.diff s.returned).map g.gettid ⊆ s.sem.q.toList := by
    intro tid htid
    obtain ⟨t, ht, rfl⟩ := List.mem_map.mp htid
    rcases hqueued.listed t (hpeers t) (.inr (hasleep t ht)) with hin | ⟨u, hu⟩
    · exact hin
    · rcases hquiet u with hpc | hpc <;> rw [hpc] at hu <;>
        rcases hu with hu | hu <;> cases hu
  have hlength := (hnodup.subperm hsubset).length_le
  rw [List.length_map] at hlength
  rw [← hperm.length_eq, List.length_append]
  omega

/-- No thread stays suspended while there is a permit for it. -/
theorem permits_not_lost {sem : Semaphore} (hpeers : ∀ t, g.leader t = false)
    (hreach : Reach (step g) (fun s label => (s.resumesAsleep label &&
      s.hasRoom label && s.retestsFree label) = true) (init sem v) s)
    (hquiet : s.Quiescent) :
    s.returned.length = min s.called.length (v + s.completed.length) := by
  have haccounts : Accounts v s := hreach.invariant (Accounts v) (.init sem v)
    fun h _ hstep => h.step hstep
  have hqueued : Queued g s := queued_invariant (fun _ _ h => by
    simp only [Bool.and_eq_true] at h
    exact h.1) hreach
  have hbalanced : Balanced s := hreach.invariant Balanced (.init sem v) (by
    intro state label next h hguard hstep
    simp only [Bool.and_eq_true] at hguard
    exact h.step hguard.1.2 hguard.2 hstep)
  have hunreturned := unreturned_le hpeers hqueued haccounts hquiet
  have hlength := hbalanced.length
  have hsignals := hbalanced.signals
  rw [hquiet.1] at hsignals
  have hval := haccounts.val
  have hgranted := haccounts.granted
  have hreturned : s.returned.length ≤ s.called.length := by
    have hsub : s.returned.Subperm s.called := by
      rw [List.subperm_iff_count]
      intro t
      rw [haccounts.waits t]
      exact Nat.le_add_right ..
    exact hsub.length_le
  simp only [Bool.false_eq_true, ↓reduceIte, Nat.add_zero] at hsignals
  omega

end Balanced

instance {n : Nat} (s : SemSys (Fin n)) : Decidable s.Quiescent :=
  inferInstanceAs (Decidable (s.sem.locked = false ∧
    ∀ t, s.pc t = .idle ∨ s.pc t = .asleep))

def oneWaiter : List (SemLabel (Fin 3)) :=
  [.wait 0, .go 0, .signal 1, .go 1, .go 1, .go 1, .go 0]

set_option maxRecDepth 4000

theorem permits_not_lost_oneWaiter : ∃ s : SemSys (Fin 3), s.Quiescent ∧
    s.called.length = 1 ∧ s.returned.length = min 1 (0 + s.completed.length) := by
  have hrun : ((run (step threePeers) (fun s label => s.resumesAsleep label &&
      s.hasRoom label && s.retestsFree label) (init emptySemaphore 0)
      oneWaiter).any fun s => s.Quiescent ∧ s.called.length = 1) = true := by
    decide +kernel
  obtain ⟨s, hreach, hquiet, hcalled⟩ := reach_of_run_any hrun
  refine ⟨s, hquiet, hcalled, ?_⟩
  have hpermits := permits_not_lost (fun _ => rfl) hreach hquiet
  rw [hcalled] at hpermits
  exact hpermits

/-- The permit of the signal is lost. -/
theorem second_waiter_blocks :
    ¬ ∀ (v : Nat) (s : SemSys (Fin 3)), Reach (step threePeers)
        (fun _ label => label.genuine = true) (init emptySemaphore v) s →
      s.Quiescent →
        s.returned.length = min s.called.length (v + s.completed.length) := by
  intro hkept
  have hrun : ((run (step threePeers) (fun _ label => label.genuine)
      (init emptySemaphore 0) twoWaiters).any fun s => s.Quiescent ∧
        s.returned.length = 0 ∧ s.called.length = 2 ∧
          s.completed.length = 1) = true := by
    decide +kernel
  obtain ⟨s, hreach, hquiet, hreturned, hcalled, hcompleted⟩ := reach_of_run_any hrun
  have hsame := hkept 0 s hreach hquiet
  rw [hreturned, hcalled, hcompleted] at hsame
  cases hsame

end SemSys

end KernelThreads
