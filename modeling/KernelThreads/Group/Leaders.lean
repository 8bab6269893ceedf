import KernelThreads.Group.Slots

namespace KernelThreads

open Lib

namespace Sys

/-! What `wait` answers, and the leader pointers it goes through. -/

def Kid (s : Sys) (q p : Slot) : Prop :=
  (s.proc p).state ≠ .unused ∧ ∃ leader, s.proc.threadLeader p = some leader ∧
    (s.proc leader).parent = s.proc.threadLeader q

def DeadKid (s : Sys) (q p : Slot) : Prop :=
  s.Kid q p ∧ (s.proc p).state = .zombie ∧ (s.proc p).tid = -1

structure Answers (s : Sys) (q : Slot) (turn : Option Sys) : Prop where
  alone : (∀ p, ¬ s.Kid q p) →
    ∃ next, turn = some next ∧ next.pc q = .trapret (-1)
  reaps : ∀ next, turn = some next → (∃ p, s.DeadKid q p) →
    ∃ p, s.DeadKid q p ∧ next.pc q = .trapret (s.proc p).pid ∧
      (next.proc p).state = .unused
  sleeps : (∃ p, s.Kid q p) → (∀ p, ¬ s.DeadKid q p) →
    ∃ next, turn = some next ∧ next.pc q = .waitSlept ∧
      (next.proc q).state = .sleeping

section Turn

variable {s next : Sys} {c : Cpu} {q p : Slot}

theorem waitKid_iff (hvacant : ∀ p, (s.proc p).state = .unused → (s.proc p).Vacant)
    {nullHit : Slot → Bool} (hnull : ∀ p, nullHit p = false) :
    s.proc.waitKid q nullHit p = true ↔ s.Kid q p := by
  unfold Table.waitKid Kid
  cases hleader : s.proc.threadLeader p with
  | none => simp [hnull]
  | some leader =>
      have hused : (s.proc p).state ≠ .unused := by
        intro hunused
        have hp := hvacant p hunused
        rw [Table.threadLeader, if_neg hp.tid, hp.parent] at hleader
        contradiction
      simp [hused]

theorem waitTurn_answers
    (hvacant : ∀ p, (s.proc p).state = .unused → (s.proc p).Vacant)
    (hkilled : (s.proc q).killed = false)
    {nullHit : Slot → Bool} (hnull : ∀ p, nullHit p = false) :
    s.Answers q (s.waitTurn c q nullHit) := by
  have hkid : ∀ p, s.proc.waitKid q nullHit p = true ↔ s.Kid q p :=
    fun p => waitKid_iff hvacant hnull
  have hnone : s.proc.waitFind q nullHit = none ↔ ∀ p, ¬ s.DeadKid q p := by
    simp only [Table.waitFind, firstSlot_eq_none_iff, decide_eq_false_iff_not,
      hkid, DeadKid]
  have hkids : s.proc.havekids q nullHit = false ↔ ∀ p, ¬ s.Kid q p := by
    simp only [Table.havekids, Option.isSome_eq_false_iff,
      Option.isNone_iff_eq_none, firstSlot_eq_none_iff, ← hkid,
      Bool.not_eq_true]
  constructor
  · intro halone
    have hfind := hnone.mpr fun p hdead => halone p hdead.1
    refine ⟨s.finish q (.trapret (-1)), ?_, by simp⟩
    simp [waitTurn, hfind, hkids.mpr halone]
  · intro next hturn hsome
    obtain ⟨dead, hdead⟩ := hsome
    cases hfind : s.proc.waitFind q nullHit with
    | none => exact absurd hdead (hnone.mp hfind dead)
    | some p =>
        have htest := of_decide_eq_true (firstSlot_some hfind)
        rw [hkid] at htest
        simp only [waitTurn, hfind] at hturn
        obtain ⟨freed, _, rfl⟩ := Option.map_eq_some_iff.mp hturn
        refine ⟨p, htest, ?_, ?_⟩
        · simp
        · simp [Proc.reap]
  · intro hsome hdead
    obtain ⟨kid, hthere⟩ := hsome
    have hhave : s.proc.havekids q nullHit = true := by
      rw [← Bool.not_eq_false, hkids]
      exact fun hall => hall kid hthere
    refine ⟨s.sleep c q (Table.slotChan (s.proc.threadLeader q)) .waitSlept,
      ?_, by simp [sleep], by simp [sleep]⟩
    simp [waitTurn, hnone.mpr hdead, hhave, hkilled]

theorem Answers.of_tidy {turn : Option Sys} (h : (s.tidy q).Answers q turn) :
    s.Answers q turn := by
  have hkid : ∀ p, (s.tidy q).Kid q p ↔ s.Kid q p := by
    intro p
    simp [Kid, tidy_threadLeader]
  have hdead : ∀ p, (s.tidy q).DeadKid q p ↔ s.DeadKid q p := by
    intro p
    simp [DeadKid, hkid]
  constructor
  · simpa only [hkid] using h.alone
  · simpa only [hdead, tidy_pid] using h.reaps
  · simpa only [hkid, hdead] using h.sleeps

end Turn

def WaitsOn (s : Sys) (c : Cpu) (q : Slot) : Prop :=
  (s.cpu c).proc = some q ∧
    (s.pc q = .waitLock ∧ s.lock = none ∨ s.pc q = .waitSlept ∧ s.lock = some c)

/-- Through a null leader pointer, `wait` does not find the caller's leader. -/
def missesNull (s : Sys) (label : Label) : Bool :=
  s.chooses label fun point x =>
    match point with
    | .waitLock | .waitSlept => ∀ p, x.nullHit p = false
    | _ => true

theorem waitsOn_answers {s : Sys} {c : Cpu} {q : Slot} {x : Choice}
    (hclean : s.Clean) (hmisses : s.missesNull (.run c x) = true)
    (hwaits : s.WaitsOn c q) (hkilled : (s.proc q).killed = false) :
    s.Answers q (s.step (.run c x)) := by
  obtain ⟨hq, hpoint⟩ := hwaits
  have hvacant : ∀ p, (s.proc p).state = .unused → (s.proc p).Vacant :=
    fun p => (hclean.sound p).free
  rcases hpoint with ⟨hpc, hlock⟩ | ⟨hpc, hlock⟩
  · have hnull : ∀ p, x.nullHit p = false := by
      simpa [missesNull, chooses, hq, hpc] using hmisses
    have hstep : s.step (.run c x) = s.waitTurn c q x.nullHit := by
      simp [step, onCpu, hq, hpc, thread, acquire, hlock]
    rw [hstep]
    exact waitTurn_answers hvacant hkilled hnull
  · have hnull : ∀ p, x.nullHit p = false := by
      simpa [missesNull, chooses, hq, hpc] using hmisses
    have hstep : s.step (.run c x) = (s.tidy q).waitTurn c q x.nullHit := by
      simp [step, onCpu, hq, hpc, thread, resume, hlock]
    rw [hstep]
    refine .of_tidy (waitTurn_answers (fun p hunused => ?_) (by simpa) hnull)
    rw [tidy_state] at hunused
    have hp := hvacant p hunused
    exact ⟨by simpa using hp.pid, by simpa using hp.tid, by simpa using hp.parent⟩

/-- `wait` returns -1 without children, the `pid` of a dead child which it
reaps, and otherwise sleeps. -/
theorem wait_exact {kstack pgdir : Frame} {s : Sys} {c : Cpu} {q : Slot}
    {x : Choice}
    (hreach : Reach Sys.step (fun s label => (s.makes bornCalls label &&
      s.clonesWhole label && s.missesNull label) = true) (userinit kstack pgdir) s)
    (hmisses : s.missesNull (.run c x) = true) (hwaits : s.WaitsOn c q)
    (hkilled : (s.proc q).killed = false) :
    s.Answers q (s.step (.run c x)) := by
  have hinv : s.Core ∧ s.Clean ∧ s.Within fun _ => bornCalls := by
    refine hreach.invariant
      (fun s => s.Core ∧ s.Clean ∧ s.Within fun _ => bornCalls)
      ⟨userinit_core .., userinit_clean .., userinit_within _ _⟩ ?_
    intro state label next ⟨hcore, hclean, hwithin⟩ hguard hstep
    simp only [Bool.and_eq_true] at hguard
    obtain ⟨⟨hmakes, hwhole⟩, _⟩ := hguard
    have hsleeper := resumesSleeper_of_within hwithin (fun _ => rfl) label
    exact ⟨hcore.step hsleeper hstep, hclean.step hcore hsleeper hwhole hstep,
      hwithin.makes hmakes hstep⟩
  exact waitsOn_answers hinv.2.1 hmisses hwaits hkilled

def deadChild : List Label :=
  startOn 0 ++ cloneOn 0 .fork (.ok 3 0) ++ startOn 1 ++
    [.run 1 { user := .call .exit }, .run 1 {}, .run 1 {}, .run 1 {}, .run 1 {},
      .run 1 {}, .schedScan 1, .run 0 { user := .call .wait }]

set_option maxRecDepth 4000

theorem wait_exact_deadChild :
    ∃ s : Sys, s.WaitsOn 0 0 ∧ s.DeadKid 0 1 ∧
      s.Answers 0 (s.step (.run 0 {})) := by
  have hrun : ((run Sys.step (fun s label => s.makes bornCalls label &&
      s.clonesWhole label && s.missesNull label) (userinit 1 2) deadChild).any
        fun s => ((s.cpu 0).proc = some 0 ∧ s.pc 0 = .waitLock ∧ s.lock = none) ∧
          ((s.proc 1).state = .zombie ∧ (s.proc 1).tid = -1 ∧
            (s.proc 1).parent = some 0 ∧ (s.proc 0).tid = -1) ∧
          (s.proc 0).killed = false ∧ s.missesNull (.run 0 {})) = true := by
    decide +kernel
  obtain ⟨s, hreach,
    ⟨hq, hpc, hlock⟩, ⟨hzombie, htid, hparent, hleader⟩, hkilled, hmisses⟩ := reach_of_run_any hrun
  have hwaits : s.WaitsOn 0 0 := ⟨hq, .inl ⟨hpc, hlock⟩⟩
  refine ⟨s, hwaits, ⟨⟨by simp [hzombie], 1, ?_, ?_⟩, hzombie, htid⟩,
    wait_exact hreach hmisses hwaits hkilled⟩
  · rw [Table.threadLeader, if_pos htid]
  · rw [hparent, Table.threadLeader, if_pos hleader]

def childlessWait : List Label :=
  startOn 0 ++ [.run 0 { user := .call .fork }, .run 0 {}, .run 0 {},
    .run 0 { vm := .copyuvmFails }, .run 0 {}, .run 0 { user := .call .wait }]

/-- The slot of a `clone` that failed still has its parent, and `wait` sleeps
for it. -/
theorem wait_sleeps_childless :
    ¬ ∀ s c q x, Reach Sys.step (fun s label =>
        (s.makes bornCalls label && s.missesNull label) = true) (userinit 1 2) s →
      s.missesNull (.run c x) = true → s.WaitsOn c q →
        (s.proc q).killed = false → s.Answers q (s.step (.run c x)) := by
  intro hanswers
  have hrun : ((run Sys.step (fun s label => s.makes bornCalls label &&
      s.missesNull label) (userinit 1 2) childlessWait).any
        fun s => ((s.cpu 0).proc = some 0 ∧ s.pc 0 = .waitLock ∧ s.lock = none) ∧
          ((s.proc 0).tid = -1 ∧ (s.proc 0).parent = none ∧
            ∀ p, p ≠ 0 → (s.proc p).state = .unused) ∧
          (s.proc 0).killed = false ∧ s.missesNull (.run 0 {}) ∧
          (s.step (.run 0 {})).any fun next => next.pc 0 = .waitSlept) = true := by
    decide +kernel
  obtain ⟨s, hreach,
    ⟨hq, hpc, hlock⟩, ⟨htid, hparent, hunused⟩, hkilled, hmisses, hany⟩ := reach_of_run_any hrun
  have halone : ∀ p, ¬ s.Kid 0 p := by
    rintro p ⟨hused, leader, hleader, hkid⟩
    by_cases hp : p = 0
    · subst hp
      rw [Table.threadLeader, if_pos htid] at hleader hkid
      cases hleader
      rw [hparent] at hkid
      contradiction
    · exact hused (hunused p hp)
  obtain ⟨next, hstep, hreturn⟩ := (hanswers s 0 0 {} hreach hmisses
    ⟨hq, .inl ⟨hpc, hlock⟩⟩ hkilled).alone halone
  rw [hstep, Option.any_some, decide_eq_true_eq, hreturn] at hany
  contradiction

/-- Points from which `wait`, `join`, `growproc`, `clone`, `sys_clone`,
`sys_sbrk` or `tgkill` reads `THREAD_LEADER(curproc)`. -/
def readsLeader : Pc → Bool
  | .waitLock | .waitSlept | .joinScan _ | .joinLock .. | .joinSlept ..
  | .kernel | .allocproc .. | .cloneKstack .. | .cloneSetup ..
  | .tgkillCheck _ | .tgkillLock _ | .tgkillSlept _ => true
  | _ => false

/-- The slots that the loop of `wait` looks at before it ends. -/
def waitScans (t : Table) (cur : Slot) (nullHit : Slot → Bool) (p : Slot) :
    Bool :=
  match t.waitFind cur nullHit with
  | none => true
  | some found => p ≤ found

def takes : Pc → Option Slot
  | .cloneKstack np .. => some np
  | _ => none

/-- `wait` looks only at slots in use, past the start of `allocproc`. -/
def scansUsed (s : Sys) (label : Label) : Bool :=
  match label with
  | .run _ x => s.actor label fun q point =>
      match point with
      | .waitLock | .waitSlept => ∀ p, waitScans s.proc q x.nullHit p →
          (s.proc p).state ≠ .unused ∧ ∀ r, takes (s.pc r).base ≠ some p
      | _ => true
  | _ => true

/-- What keeps the groups in order, and `wait` away from free slots. -/
def leadersOrderly (s : Sys) (label : Label) : Bool :=
  s.keepsPeers label && s.handsOffFresh label && s.clonesApart label &&
    s.resumesSleeper label && s.scansUsed label

/-- The leader pointers that a step of `q` goes through. -/
structure LeadersThere (s : Sys) (x : Choice) (q : Slot) : Prop where
  scanned : s.pc q = .waitLock ∨ s.pc q = .waitSlept →
    ∀ p, waitScans s.proc q x.nullHit p = true → s.proc.threadLeader p ≠ none
  caller : readsLeader (s.pc q) = true →
    ∃ leader, s.proc.threadLeader q = some leader ∧
      (s.proc leader).state ≠ .unused ∧ (s.proc leader).pid = (s.proc q).pid

section Leaders

variable {s : Sys} {c : Cpu} {x : Choice} {q p : Slot}

theorem Grouped.leader_of_used (h : s.Grouped) (hused : (s.proc p).state ≠ .unused)
    (htakes : ∀ r, takes (s.pc r).base ≠ some p) :
    s.proc.threadLeader p ≠ none := by
  rw [Table.threadLeader]
  split
  next => simp
  next htid =>
    rcases h.peers p hused htid with ⟨r, hr⟩ | ⟨leader, hparent, _⟩
    · -- The slot is still inside `clone`, which has set its `tid` by then.
      have hbare : (s.pc r).base.bare = some p := by
        generalize hpoint : (s.pc r).base = point at hr
        cases point with
        | cloneKstack np =>
            rw [Pc.unnamed, Option.some.injEq] at hr
            refine absurd ?_ (htakes r)
            rw [hpoint, takes, hr]
        | cloneSetup | cloneIds => exact hr
        | _ => contradiction
      exact absurd (h.bare r p hbare) htid
    · rw [hparent]
      simp

theorem scans_used (h : s.scansUsed (.run c x) = true)
    (hq : (s.cpu c).proc = some q)
    (hpc : s.pc q = .waitLock ∨ s.pc q = .waitSlept)
    (hscans : waitScans s.proc q x.nullHit p = true) :
    (s.proc p).state ≠ .unused ∧ ∀ r, takes (s.pc r).base ≠ some p := by
  simp only [scansUsed] at h
  have htest := actor_test h hq
  rcases hpc with hpc | hpc
  · rw [hpc] at htest
    exact of_decide_eq_true htest p hscans
  · rw [hpc] at htest
    exact of_decide_eq_true htest p hscans

end Leaders

/-- Every leader pointer that the kernel goes through is there. -/
theorem leaders_there {kstack pgdir : Frame} {s : Sys} {c : Cpu} {x : Choice}
    {q : Slot}
    (hreach : Reach Sys.step (fun s label => s.leadersOrderly label = true)
      (userinit kstack pgdir) s)
    (hguard : s.leadersOrderly (.run c x) = true)
    (hq : (s.cpu c).proc = some q) : s.LeadersThere x q := by
  have hinv : s.Core ∧ s.Grouped := by
    refine hreach.invariant (fun s => s.Core ∧ s.Grouped)
      ⟨userinit_core .., userinit_grouped ..⟩ ?_
    intro state label next ⟨hcore, hgrouped⟩ hguard hstep
    simp only [leadersOrderly, Bool.and_eq_true] at hguard
    obtain ⟨⟨⟨⟨hpeers, hfresh⟩, hapart⟩, hsleeper⟩, _⟩ := hguard
    exact ⟨hcore.step hsleeper hstep, hgrouped.step hcore hpeers hfresh hapart
      (hcore.effect hsleeper hstep)⟩
  obtain ⟨hcore, hgrouped⟩ := hinv
  simp only [leadersOrderly, Bool.and_eq_true] at hguard
  constructor
  · intro hpc p hscans
    obtain ⟨hused, htakes⟩ := scans_used hguard.2 hq hpc hscans
    exact hgrouped.leader_of_used hused htakes
  · intro hreads
    have hactive := ProcState.active_of_running (hcore.running hq)
    have hstay : (s.pc q).base ≠ .exitLock := by
      intro hbase
      cases hpc : s.pc q <;> rw [hpc] at hreads hbase <;> contradiction
    obtain ⟨leader, hleader, hleads⟩ :=
      hgrouped.leads_of_active hcore hactive hstay
    exact ⟨leader, hleader, ProcState.ne_unused hleads.active, hleads.pid⟩

set_option maxRecDepth 4000

theorem leaders_there_deadChild :
    ∃ s : Sys, s.pc 0 = .waitLock ∧ waitScans s.proc 0 (fun _ => false) 1 = true ∧
      s.LeadersThere {} 0 := by
  have hrun : ((run Sys.step leadersOrderly (userinit 1 2) deadChild).any
      fun s => (s.cpu 0).proc = some 0 ∧ s.pc 0 = .waitLock ∧
        waitScans s.proc 0 (fun _ => false) 1 = true ∧
        s.leadersOrderly (.run 0 {})) = true := by
    decide +kernel
  obtain ⟨s, hreach, hq, hpc, hscans, hguard⟩ := reach_of_run_any hrun
  exact ⟨s, hpc, hscans, leaders_there hreach hguard hq⟩

/-- The free slots of the boot table have no leader, and `wait` goes through
their pointers. -/
theorem wait_reads_null :
    ¬ ∀ s c x q, Reach Sys.step (fun s label => (s.keepsPeers label &&
        s.handsOffFresh label && s.clonesApart label &&
          s.resumesSleeper label) = true) (userinit 1 2) s →
      (s.cpu c).proc = some q → s.LeadersThere x q := by
  intro hthere
  have hrun : ((run Sys.step (fun s label => s.keepsPeers label &&
      s.handsOffFresh label && s.clonesApart label && s.resumesSleeper label)
        (userinit 1 2)
        (startOn 0 ++ [.run 0 { user := .call .wait }])).any fun s =>
      (s.cpu 0).proc = some 0 ∧ s.pc 0 = .waitLock ∧
        waitScans s.proc 0 (fun _ => false) 1 = true ∧
        s.proc.threadLeader 1 = none) = true := by
    decide +kernel
  obtain ⟨s, hreach, hq, hpc, hscans, hnone⟩ := reach_of_run_any hrun
  exact (hthere s 0 {} 0 hreach hq).scanned (.inl hpc) 1 hscans hnone

end Sys

end KernelThreads
