import KernelThreads.User.Semaphore

namespace KernelThreads

open Lib

namespace SemSys

variable {τ : Type} [DecidableEq τ] {g : ThreadGroup τ} {s next : SemSys τ}
  {label : SemLabel τ} {t : τ} {v : Nat}

@[simp] theorem goto_sem (pc : SemPc τ) : (s.goto t pc).sem = s.sem := rfl
@[simp] theorem goto_called (pc : SemPc τ) : (s.goto t pc).called = s.called := rfl
@[simp] theorem goto_returned (pc : SemPc τ) :
    (s.goto t pc).returned = s.returned := rfl
@[simp] theorem goto_raised (pc : SemPc τ) : (s.goto t pc).raised = s.raised := rfl
@[simp] theorem goto_completed (pc : SemPc τ) :
    (s.goto t pc).completed = s.completed := rfl
@[simp] theorem goto_pc (pc : SemPc τ) :
    (s.goto t pc).pc = Function.update s.pc t pc := rfl

inductive Does (g : ThreadGroup τ) (s : SemSys τ) :
    SemLabel τ → SemSys τ → Prop
  | wait {t : τ} (hpc : s.pc t = .idle) (hfree : s.sem.locked = false) :
      Does g s (.wait t) ((s.enter t).test g t)
  | signal {t : τ} (hpc : s.pc t = .idle) (hfree : s.sem.locked = false) :
      Does g s (.signal t) (s.raise t)
  | suspend {t : τ} (hpc : s.pc t = .suspend) :
      Does g s (.go t) (s.goto t (if g.leader t then .awake else .asleep))
  | retry {t : τ} (hpc : s.pc t = .awake) (hfree : s.sem.locked = false) :
      Does g s (.go t) (s.test g t)
  | unfound {t : τ} {tid : Int} (hpc : s.pc t = .scan tid)
      (hgone : ∀ p, g.leader p = false → g.gettid p ≠ tid) :
      Does g s (.go t) (s.goto t .release)
  | found {t p : τ} {tid : Int} (hpc : s.pc t = .scan tid)
      (hpeer : g.leader p = false) (htid : g.gettid p = tid) :
      Does g s (.go t) (s.goto t (.resume p))
  | resume {t p : τ} (hpc : s.pc t = .resume p) :
      Does g s (.go t) ((s.rouse p).goto t .release)
  | release {t : τ} (hpc : s.pc t = .release) : Does g s (.go t) (s.finish t)
  | wake {t : τ} (hpc : s.pc t = .asleep) : Does g s (.wake t) (s.goto t .awake)

theorem does_of_step (h : step g s label = some next) : Does g s label next := by
  cases label with
  | wait t =>
      simp only [step, Option.ite_none_right_eq_some, Option.some.injEq] at h
      obtain ⟨⟨hpc, hfree⟩, rfl⟩ := h
      exact .wait hpc hfree
  | signal t =>
      simp only [step, Option.ite_none_right_eq_some, Option.some.injEq] at h
      obtain ⟨⟨hpc, hfree⟩, rfl⟩ := h
      exact .signal hpc hfree
  | wake t =>
      simp only [step, Option.ite_none_right_eq_some, Option.some.injEq] at h
      obtain ⟨hpc, rfl⟩ := h
      exact .wake hpc
  | go t =>
      simp only [step, go] at h
      cases hpc : s.pc t with
      | idle => simp [hpc] at h
      | asleep => simp [hpc] at h
      | suspend =>
          simp only [hpc, Option.some.injEq] at h
          subst h
          exact .suspend hpc
      | awake =>
          simp only [hpc, Option.ite_none_left_eq_some, Option.some.injEq,
            Bool.not_eq_true] at h
          obtain ⟨hfree, rfl⟩ := h
          exact .retry hpc hfree
      | scan tid =>
          simp only [hpc] at h
          split at h
          next hnone =>
            cases h
            refine .unfound hpc fun p _ => ?_
            rw [hnone]
            exact g.valid p
          next hsome =>
            cases hfind : g.find tid with
            | none =>
                simp only [hfind, Option.some.injEq] at h
                subst h
                refine .unfound hpc fun p hpeer htid => ?_
                rw [(g.find_iff tid p hsome).mpr ⟨hpeer, htid⟩] at hfind
                cases hfind
            | some p =>
                simp only [hfind, Option.some.injEq] at h
                subst h
                obtain ⟨hpeer, htid⟩ := (g.find_iff tid p hsome).mp hfind
                exact .found hpc hpeer htid
      | resume p =>
          simp only [hpc, Option.some.injEq] at h
          subst h
          exact .resume hpc
      | release =>
          simp only [hpc, Option.some.injEq] at h
          subst h
          exact .release hpc

end SemSys

def SemPc.blocked {τ : Type} : SemPc τ → Bool
  | .suspend | .asleep | .awake => true
  | .idle | .scan _ | .resume _ | .release => false

namespace SemSys

variable {τ : Type} [DecidableEq τ] {g : ThreadGroup τ} {s next : SemSys τ}
  {label : SemLabel τ} {t : τ} {v : Nat}

structure Accounts (v : Nat) (s : SemSys τ) : Prop where
  val : s.sem.val + s.called.length = v + s.raised.length
  waits : ∀ t, s.called.count t =
    s.returned.count t + if (s.pc t).blocked then 1 else 0
  granted : (s.returned.length : Int) ≤ v + s.raised.length

theorem Accounts.init (sem : Semaphore) (v : Nat) :
    Accounts v (SemSys.init sem v : SemSys τ) :=
  ⟨rfl, fun _ => rfl, by simp [SemSys.init]⟩

theorem Accounts.goto (h : Accounts v s) {pc : SemPc τ}
    (hsame : pc.blocked = (s.pc t).blocked) : Accounts v (s.goto t pc) := by
  refine ⟨h.val, fun u => ?_, h.granted⟩
  rw [goto_pc, Function.update_apply]
  split
  next heq =>
    rw [hsame, ← heq]
    exact h.waits u
  next => exact h.waits u

theorem length_returned_lt (h : ∀ u, s.called.count u =
    s.returned.count u + if u = t ∨ (s.pc u).blocked = true then 1 else 0) :
    s.returned.length < s.called.length := by
  have hsub : (t :: s.returned).Subperm s.called := by
    rw [List.subperm_iff_count]
    intro u
    rw [h u, List.count_cons]
    by_cases heq : u = t
    · simp [heq]
    · simp [Ne.symm heq]
  exact hsub.length_le

theorem Accounts.test
    (hval : s.sem.val + s.called.length = v + s.raised.length)
    (hwaits : ∀ u, s.called.count u =
      s.returned.count u + if u = t ∨ (s.pc u).blocked = true then 1 else 0)
    (hgranted : (s.returned.length : Int) ≤ v + s.raised.length) :
    Accounts v (s.test g t) := by
  unfold SemSys.test
  split
  · refine ⟨hval, fun u => ?_, hgranted⟩
    have hu := hwaits u
    simp only [block, goto_pc, goto_called, goto_returned, Function.update_apply]
    by_cases heq : u = t
    · simpa [heq, SemPc.blocked] using hu
    · simpa [heq] using hu
  next hnonneg =>
    have hlt := length_returned_lt hwaits
    refine ⟨hval, fun u => ?_, ?_⟩
    · have hu := hwaits u
      simp only [leave, goto_pc, goto_called, goto_returned,
        Function.update_apply, List.count_cons]
      by_cases heq : u = t
      · simpa [heq, SemPc.blocked] using hu
      · simpa [heq, Ne.symm heq] using hu
    · simp only [leave, goto_returned, goto_raised, List.length_cons]
      omega

theorem Accounts.finish (h : Accounts v s) (hpc : (s.pc t).blocked = false) :
    Accounts v (s.finish t) :=
  Accounts.goto (s := { s with
    sem := { s.sem with locked := false }
    completed := t :: s.completed }) ⟨h.val, h.waits, h.granted⟩ hpc.symm

theorem Accounts.raise (h : Accounts v s) (hpc : s.pc t = .idle) :
    Accounts v (s.raise t) := by
  have hraised : Accounts v (s.increment t) := by
    obtain ⟨hval, hwaits, hgranted⟩ := h
    refine ⟨?_, hwaits, ?_⟩ <;> simp only [increment, List.length_cons] <;> omega
  unfold SemSys.raise
  split
  · exact hraised.finish (by rw [increment, hpc]; rfl)
  · exact Accounts.goto (s := { s.increment t with
      sem := { (s.increment t).sem with q := s.sem.q.dequeue.2, locked := true } })
      ⟨hraised.val, hraised.waits, hraised.granted⟩ (by
        rw [increment, hpc]
        rfl)

theorem Accounts.step (h : Accounts v s) (hstep : step g s label = some next) :
    Accounts v next := by
  cases does_of_step hstep with
  | @wait t hpc =>
      refine .test ?_ (fun u => ?_) h.granted
      · have hval := h.val
        simp only [enter, List.length_cons]
        omega
      · have hu := h.waits u
        simp only [enter, List.count_cons]
        by_cases heq : u = t
        · subst heq
          simpa [hpc, SemPc.blocked] using hu
        · simpa [heq, Ne.symm heq] using hu
  | signal hpc => exact h.raise hpc
  | suspend hpc =>
      refine h.goto ?_
      rw [hpc]
      split <;> rfl
  | @retry t hpc =>
      refine .test h.val (fun u => ?_) h.granted
      rw [h.waits u]
      by_cases heq : u = t
      · simp [heq, hpc, SemPc.blocked]
      · simp [heq]
  | unfound hpc => exact h.goto (by rw [hpc]; rfl)
  | found hpc => exact h.goto (by rw [hpc]; rfl)
  | @resume t p hpc =>
      unfold SemSys.rouse
      split
      next hp =>
        refine Accounts.goto (h.goto (by rw [hp]; rfl)) ?_
        rw [goto_pc, Function.update_apply]
        split
        next heq =>
          rw [heq, hp] at hpc
          cases hpc
        next =>
          rw [hpc]
          rfl
      next => exact h.goto (by rw [hpc]; rfl)
  | release hpc =>
      exact h.finish (by rw [hpc]; rfl)
  | wake hpc => exact h.goto (by rw [hpc]; rfl)

/-- A thread between a wait that has returned and its signal. -/
def between (s : SemSys τ) (t : τ) : Prop :=
  s.raised.count t < s.returned.count t

instance (s : SemSys τ) (t : τ) : Decidable (s.between t) :=
  inferInstanceAs (Decidable (s.raised.count t < s.returned.count t))

/-- Only a thread whose wait has returned calls `semaphore_signal`. -/
def paired (s : SemSys τ) : SemLabel τ → Bool
  | .signal t => s.between t
  | _ => true

@[simp] theorem test_raised : (s.test g t).raised = s.raised := by
  unfold test
  split <;> rfl

@[simp] theorem raise_raised : (s.raise t).raised = t :: s.raised := by
  unfold raise
  split <;> rfl

@[simp] theorem raise_returned : (s.raise t).returned = s.returned := by
  unfold raise
  split <;> rfl

@[simp] theorem rouse_logs (p : τ) : (s.rouse p).raised = s.raised ∧
    (s.rouse p).returned = s.returned := by
  unfold rouse
  split <;> exact ⟨rfl, rfl⟩

theorem count_returned_test (u : τ) :
    s.returned.count u ≤ (s.test g t).returned.count u := by
  unfold test
  split
  · exact le_rfl
  · exact List.count_le_count_cons

theorem count_raised_le (h : ∀ u, s.raised.count u ≤ s.returned.count u)
    (hpaired : s.paired label = true) (hstep : step g s label = some next)
    (u : τ) : next.raised.count u ≤ next.returned.count u := by
  cases does_of_step hstep with
  | wait =>
      rw [test_raised]
      exact le_trans (h u) (count_returned_test (s := s.enter _) u)
  | @signal t hpc hfree =>
      have hbetween : s.between t := by simpa [paired] using hpaired
      rw [raise_raised, raise_returned, List.count_cons]
      split
      next heq =>
        rw [← beq_iff_eq.mp heq]
        exact hbetween
      next => exact h u
  | retry =>
      rw [test_raised]
      exact le_trans (h u) (count_returned_test u)
  | @resume t p =>
      simp only [goto_raised, goto_returned, rouse_logs]
      exact h u
  | suspend => exact h u
  | unfound => exact h u
  | found => exact h u
  | release => exact h u
  | wake => exact h u

/-- A semaphore grants no more than it has permits for; with one permit, and
signals by their holders only, it excludes. -/
theorem semaphore_safe (g : ThreadGroup τ) (sem : Semaphore) (v : Nat) :
    (∀ s, Reach (step g) (fun _ _ => True) (init sem v) s →
      s.returned.length ≤ v + s.raised.length) ∧
    (v = 1 → ∀ s, Reach (step g) (fun s label => s.paired label = true)
      (init sem v) s → ∀ t u, s.between t → s.between u → t = u) := by
  have hgranted : ∀ {guard s}, Reach (step g) guard (init sem v) s →
      s.returned.length ≤ v + s.raised.length := by
    intro guard s hreach
    have haccounts := hreach.invariant (Accounts v) (.init sem v)
      fun h _ hstep => h.step hstep
    exact_mod_cast haccounts.granted
  refine ⟨fun s => hgranted, ?_⟩
  intro hone s hreach t u ht hu
  have hcounts := hreach.invariant (fun s => ∀ t, s.raised.count t ≤ s.returned.count t)
    (fun _ => le_rfl) fun h hpaired hstep => count_raised_le h hpaired hstep
  by_contra hne
  -- Two threads between their calls are two permits in use.
  have hsub : (t :: u :: s.raised).Subperm s.returned := by
    rw [List.subperm_iff_count]
    intro w
    rw [List.count_cons, List.count_cons]
    by_cases hwt : w = t
    · subst hwt
      simpa [Ne.symm hne] using Nat.succ_le_of_lt ht
    · by_cases hwu : w = u
      · subst hwu
        simpa [hne] using Nat.succ_le_of_lt hu
      · simpa [Ne.symm hwt, Ne.symm hwu] using hcounts w
  have hlength := hsub.length_le
  have hbound := hgranted hreach
  simp only [List.length_cons] at hlength
  omega

end SemSys

end KernelThreads
