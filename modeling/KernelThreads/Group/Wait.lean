import KernelThreads.Sched.Calls
import KernelThreads.Sched.Safety
import KernelThreads.Group.Step

namespace KernelThreads

open Lib

namespace Sys

/-! Guards that hold because no thread is inside the call they are about. -/

section Vacuous

variable {allows : Syscall → Bool} {s : Sys}

theorem actor_of {label : Label} {test : Slot → Pc → Bool}
    (h : ∀ q, s.acting label = some q → test q (s.pc q) = true) :
    s.actor label test = true := by
  unfold actor
  split
  · rfl
  next q hact => exact h q hact

theorem resumesSleeper_of_within (h : s.Within fun _ => allows)
    (hno : ∀ tid, allows (.tresume tid) = false) (label : Label) :
    s.resumesSleeper label = true := by
  refine actor_of fun q _ => ?_
  have hq := h q
  split
  next p hpc =>
    rw [hpc] at hq
    obtain ⟨tid, (htid : allows (.tresume tid) = true)⟩ := hq
    rw [hno] at htid
    contradiction
  next => rfl

theorem handsOffFresh_of_within (h : s.Within fun _ => allows)
    (hno : allows .exec = false) (label : Label) :
    s.handsOffFresh label = true := by
  refine actor_of fun q _ => ?_
  have hq := h q
  split
  next leader hpc =>
    rw [hpc] at hq
    rw [show allows .exec = true from hq] at hno
    contradiction
  next => rfl

theorem execsLed_of_within (h : s.Within fun _ => allows)
    (hno : allows .exec = false) (label : Label) : s.execsLed label = true := by
  refine actor_of fun q _ => ?_
  have hq := h q
  split
  next leader hpc =>
    rw [hpc] at hq
    rw [show allows .exec = true from hq] at hno
    contradiction
  next => rfl

theorem clonesApart_of_within (h : s.Within fun _ => allows)
    (hapart : ∀ flags : Flags, flags.allowed allows → flagsApart flags = true)
    (label : Label) : s.clonesApart label = true := by
  refine actor_of fun q _ => ?_
  have hq := h q
  split
  next np flags childStack hpc =>
    rw [hpc] at hq
    exact hapart flags hq
  next => rfl

end Vacuous

/-- Processes and threads, without `exec` and `tresume`: `clone` makes threads
only. -/
def groupCalls : Syscall → Bool
  | .clone flags _ => flags = TFLAGS
  | .exec | .tresume _ => false
  | _ => true

theorem groupCalls_apart (flags : Flags) (h : flags.allowed groupCalls) :
    flagsApart flags = true := by
  obtain ⟨_, rfl⟩ | ⟨_, h⟩ := h
  · decide
  · have heq : flags = TFLAGS := by simpa [groupCalls] using h
    subst heq
    decide

theorem group_invariant {kstack pgdir : Frame} {s : Sys}
    (hreach : Reach Sys.step
      (fun s label => (s.makes groupCalls label && s.keepsPeers label) = true)
      (userinit kstack pgdir) s) :
    s.Core ∧ s.Grouped ∧ s.Within fun _ => groupCalls := by
  refine hreach.invariant (fun s => s.Core ∧ s.Grouped ∧ s.Within fun _ => groupCalls)
    ⟨userinit_core .., userinit_grouped .., userinit_within _ _⟩ ?_
  intro state label next ⟨hcore, hgrouped, hwithin⟩ hguard hstep
  simp only [Bool.and_eq_true] at hguard
  obtain ⟨hmakes, hpeers⟩ := hguard
  have hsleeper := resumesSleeper_of_within hwithin (fun _ => rfl) label
  have hfresh := handsOffFresh_of_within hwithin rfl label
  have hapart := clonesApart_of_within hwithin groupCalls_apart label
  exact ⟨hcore.step hsleeper hstep,
    hgrouped.step hcore hpeers hfresh hapart (hcore.effect hsleeper hstep),
    hwithin.makes hmakes hstep⟩

def WaitReturns (s : Sys) (label : Label) (next : Sys) (pid : Int) : Prop :=
  s.step label = some next ∧ pid ≠ -1 ∧
    ∃ q, s.acting label = some q ∧ next.pc q = .trapret pid ∧
      (s.pc q = .waitLock ∨ s.pc q = .waitSlept)

theorem wait_ends_of_step {s next : Sys} {label : Label} {q : Slot}
    (hcore : s.Core) (hstep : s.step label = some next)
    (hact : s.acting label = some q)
    (hpc : s.pc q = .waitLock ∨ s.pc q = .waitSlept) :
    ∃ nullHit, s.WaitEnds q nullHit next := by
  have hactive := ProcState.active_of_running (running_of_acting hcore hact)
  cases does_of_step hstep with
  | acts hq hacts =>
      cases hq.symm.trans hact
      generalize hpoint : s.pc q = point at hacts hpc
      cases hacts with
      | waitLock _ hturn => exact ⟨_, wait_ends hactive hturn⟩
      | waitSlept _ hturn =>
          exact ⟨_, (wait_ends (tidy_active hactive) hturn).of_tidy⟩
      | _ => rcases hpc with hpc | hpc <;> contradiction
  | leaves _ hleaves => cases hleaves <;> contradiction
  | _ => contradiction

theorem WaitReturns.reaped {s next : Sys} {label : Label} {pid : Int}
    (h : s.WaitReturns label next pid) (hcore : s.Core) :
    ∃ q p, (s.proc p).state = .zombie ∧ (s.proc p).tid = -1 ∧
      (s.proc p).pid = pid ∧ s.Reaps next q fun other => other = p := by
  obtain ⟨hstep, hne, q, hact, hnext, hpc⟩ := h
  obtain ⟨nullHit, hends⟩ := wait_ends_of_step hcore hstep hact hpc
  cases hends with
  | reaped _ hzombie hleader _ hreaps _ hreturn =>
      rw [hnext, Pc.trapret.injEq] at hreturn
      exact ⟨q, _, hzombie, hleader, hreturn.symm, hreaps⟩
  | quiet _ hreturn =>
      rw [hnext] at hreturn
      rcases hreturn with hreturn | hreturn
      · exact absurd (Pc.trapret.inj hreturn) hne
      · contradiction

/-- `wait` returns once the whole group of the child is gone. -/
theorem wait_whole_group {kstack pgdir : Frame} {s next : Sys} {label : Label}
    {pid : Int}
    (hreach : Reach Sys.step
      (fun s label => (s.makes groupCalls label && s.keepsPeers label) = true)
      (userinit kstack pgdir) s)
    (hwait : s.WaitReturns label next pid) :
    ∃ p, (s.proc p).state = .zombie ∧ (s.proc p).tid = -1 ∧
      (s.proc p).pid = pid ∧ (next.proc p).state = .unused ∧
        ∀ r, r ≠ p → (next.proc r).state ≠ .unused →
          (next.proc r).pid ≠ pid := by
  obtain ⟨hcore, hgrouped, _⟩ := group_invariant hreach
  obtain ⟨q, p, hzombie, htid, hpid, hreaps⟩ := hwait.reaped hcore
  have hcleared : (next.proc p).state = .unused := by
    rcases hreaps.proc p with ⟨_, hclear⟩ | ⟨hne, _⟩
    · exact hclear.state
    · exact absurd rfl hne
  refine ⟨p, hzombie, htid, hpid, hcleared, fun r hrp hr hrpid => ?_⟩
  rcases hreaps.proc r with ⟨heq, _⟩ | ⟨_, hsame⟩
  · exact hrp heq
  · have hlive : (s.proc r).state ≠ .unused := by
      intro hunused
      exact hr ((hsame.state_eq rfl).mpr hunused)
    refine hrp (hgrouped.alone ?_ htid ?_ (.inl hzombie) hlive ?_)
    · rw [hzombie]
      simp
    · intro creator hcreates
      have hembryo := hcore.embryo (Pc.creates_of_unnamed hcreates)
      rw [hzombie] at hembryo
      contradiction
    · rw [← hsame.pid, hrpid, hpid]

def killedLeader : List Label :=
  startOn 0 ++ cloneOn 0 .fork (.ok 3 0) ++ startOn 1 ++
    cloneOn 1 (.clone TFLAGS 0) (.ok 0 8192) ++
    [.run 0 { user := .call (.kill 2) }, .run 0 {}, .run 0 {},
      .run 1 {}, .run 1 {}, .run 1 {}, .run 1 {}, .run 1 {}, .run 1 {},
      .schedScan 1, .run 1 {}, .run 0 { user := .call .wait }]

/-- The leader exits while its thread lives: it marks the thread, sleeps until
that is dead and reaps it. -/
def exitWithPeer : List Label :=
  startOn 0 ++ cloneOn 0 .fork (.ok 3 0) ++ startOn 1 ++
    cloneOn 1 (.clone TFLAGS 0) (.ok 0 8192) ++
    .run 1 { user := .call .exit } :: List.replicate 4 (.run 1 {}) ++
    .schedScan 1 :: List.replicate 5 (.run 1 {}) ++
    [.schedScan 1, .schedAcquire 1, .schedScan 1, .run 1 {}, .run 1 {}, .schedScan 1,
      .run 0 { user := .call .wait }]

set_option maxRecDepth 4000

theorem wait_whole_group_exitWithPeer :
    ∃ s next : Sys, s.WaitReturns (.run 0 {}) next 2 ∧ s.nextpid = 4 ∧
      ∀ r, (next.proc r).state ≠ .unused → (next.proc r).pid ≠ 2 := by
  have hrun : ((run Sys.step
      (fun s label => s.makes groupCalls label && s.keepsPeers label)
      (userinit 1 2) exitWithPeer).any fun s => s.pc 0 = .waitLock ∧ s.nextpid = 4 ∧
        s.acting (.run 0 {}) = some 0 ∧
        ((s.step (.run 0 {})).any fun next => next.pc 0 = .trapret 2)) = true := by
    decide +kernel
  obtain ⟨s, hreach, hpc, hids, hact, hany⟩ := reach_of_run_any hrun
  obtain ⟨next, hstep, hnext⟩ := exists_of_any hany
  have hwait : s.WaitReturns (.run 0 {}) next 2 :=
    ⟨hstep, by decide, 0, hact, hnext, .inl hpc⟩
  obtain ⟨p, _, _, _, hunused, hothers⟩ := wait_whole_group hreach hwait
  refine ⟨s, next, hwait, hids, fun r hr => hothers r ?_ hr⟩
  rintro rfl
  exact hr hunused

/-- A leader that has been killed does not wait for its peers, and `wait` reaps
it while one of them still runs. -/
theorem wait_reaps_killed_leader :
    ¬ ∀ (s next : Sys) label pid, Reach Sys.step
        (fun s label => s.makes groupCalls label = true) (userinit 1 2) s →
      s.WaitReturns label next pid →
        ∀ r, (next.proc r).state ≠ .unused → (next.proc r).pid ≠ pid := by
  intro hwhole
  have hrun : ((run Sys.step (fun s label => s.makes groupCalls label)
      (userinit 1 2) killedLeader).any fun s => s.pc 0 = .waitLock ∧
        s.acting (.run 0 {}) = some 0 ∧
        ((s.step (.run 0 {})).any fun next => next.pc 0 = .trapret 2 ∧
          (next.proc 2).state = .running ∧ (next.proc 2).pid = 2)) = true := by
    decide +kernel
  obtain ⟨s, hreach, hpc, hact, hany⟩ := reach_of_run_any hrun
  obtain ⟨next, hstep, hreturn, hstate, hpid⟩ := exists_of_any hany
  refine hwhole s next (.run 0 {}) 2 hreach
    ⟨hstep, by decide, 0, hact, hreturn, .inl hpc⟩ 2 ?_ hpid
  rw [hstate]
  simp

end Sys

end KernelThreads
