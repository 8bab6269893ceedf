import KernelThreads.Sched.Effect

namespace KernelThreads

open Lib

def Pc.mapped : Pc → Option Slot
  | .cloneIds np _ | .clonePublish np _ => some np
  | _ => none

theorem Pc.creates_of_mapped {pc : Pc} {np : Slot} (h : pc.mapped = some np) :
    pc.creates = some np := by
  cases pc <;> simp_all [Pc.mapped, Pc.creates]

namespace Sys

/-! Kernel stacks and page directories of the threads that can run. -/

structure Stocked (s : Sys) : Prop where
  active : ∀ p, (s.proc p).state.active = true →
    (s.proc p).kstack ≠ none ∧ (s.proc p).pgdir ≠ none
  kstack : ∀ q np, (s.pc q).base.prepared = some np → (s.proc np).kstack ≠ none
  pgdir : ∀ q np, (s.pc q).base.mapped = some np → (s.proc np).pgdir ≠ none

/-- A `clone` that shares the address space of its leader finds one. -/
def sharesMapped (s : Sys) (label : Label) : Bool :=
  s.actor label fun q point =>
    match point with
    | .cloneSetup _ flags _ =>
        match s.proc.threadLeader q with
        | none => true
        | some tleader =>
            !flags.has CLONE_VM || (s.proc tleader).pgdir.isSome
    | _ => true

theorem shares_mapped {s : Sys} {label : Label} {q np tleader : Slot}
    {flags : Flags} {childStack : Nat} (h : s.sharesMapped label = true)
    (hact : s.acting label = some q)
    (hpc : s.pc q = .cloneSetup np flags childStack)
    (hleader : s.proc.threadLeader q = some tleader)
    (hvm : flags.has CLONE_VM = true) : (s.proc tleader).pgdir ≠ none := by
  have htest := actor_test h hact
  simp only [hpc, hleader, hvm, Bool.not_true, Bool.false_or] at htest
  exact Option.isSome_iff_ne_none.mp htest

namespace Stocked

variable {s next : Sys} {label : Label} {q np : Slot}

theorem keep (h : s.Stocked) (hcore : s.Core) (hpc : s.SameChildren next)
    (hactive : ∀ p, (next.proc p).state.active = true →
      (s.proc p).state.active = true)
    (hkept : ∀ p, (s.proc p).state ≠ .zombie →
      ((s.proc p).kstack ≠ none → (next.proc p).kstack ≠ none) ∧
        ((s.proc p).pgdir ≠ none → (next.proc p).pgdir ≠ none)) :
    next.Stocked := by
  constructor
  case active =>
    intro p hp
    have hbefore := hactive p hp
    have hzombie : (s.proc p).state ≠ .zombie := by
      intro heq
      rw [heq] at hbefore
      contradiction
    obtain ⟨hkstack, hpgdir⟩ := h.active p hbefore
    exact ⟨(hkept p hzombie).1 hkstack, (hkept p hzombie).2 hpgdir⟩
  case kstack =>
    intro p np hprepared
    have hcreates := Pc.creates_of_prepared hprepared
    rw [hpc.creates hcreates] at hprepared hcreates
    refine (hkept np ?_).1 (h.kstack p np hprepared)
    rw [hcore.embryo hcreates]
    simp
  case pgdir =>
    intro p np hmapped
    have hcreates := Pc.creates_of_mapped hmapped
    rw [hpc.creates hcreates] at hmapped hcreates
    refine (hkept np ?_).2 (h.pgdir p np hmapped)
    rw [hcore.embryo hcreates]
    simp

theorem own (h : s.Stocked) (hcore : s.Core) (hpc : s.SameChildren next)
    (hstate : ∀ p, (next.proc p).state = (s.proc p).state)
    (hkstack : ∀ p, (next.proc p).kstack = (s.proc p).kstack)
    (hpgdir : ∀ p, (next.proc p).pgdir = (s.proc p).pgdir ∨
      (next.proc p).pgdir ≠ none) : next.Stocked := by
  refine h.keep hcore hpc (fun p hp => ?_) fun p _ => ⟨fun hp => ?_, fun hp => ?_⟩
  · rwa [hstate p] at hp
  · rwa [hkstack p]
  · rcases hpgdir p with heq | hsome
    · rwa [heq]
    · exact hsome

theorem reaps (h : s.Stocked) (hcore : s.Core) (hpc : s.SameChildren next)
    {reaped : Slot → Prop} (hreaps : s.proc.Reaps next.proc reaped) :
    next.Stocked := by
  refine h.keep hcore hpc ?_ ?_
  · intro p hp
    rcases hreaps p with ⟨_, hclear⟩ | ⟨_, hsame⟩
    · rw [hclear.state] at hp
      contradiction
    · exact hsame.active.symm.trans hp
  · intro p hzombie
    rcases hreaps p with ⟨_, hclear⟩ | ⟨_, hsame⟩
    · exact absurd hclear.zombie hzombie
    · rw [hsame.kstack, hsame.pgdir]
      exact ⟨id, id⟩

theorem child (h : s.Stocked) (hcore : s.Core) (hon : s.OnChild next q np)
    (hborn : (next.proc np).state.active = true →
      (next.proc np).kstack ≠ none ∧ (next.proc np).pgdir ≠ none)
    (hkstack : ∀ made, (next.pc q).base.prepared = some made →
      (next.proc np).kstack ≠ none)
    (hpgdir : ∀ made, (next.pc q).base.mapped = some made →
      (next.proc np).pgdir ≠ none) : next.Stocked := by
  constructor
  case active =>
    intro p hp
    by_cases heq : p = np
    · subst heq
      exact hborn hp
    · rw [hon.proc p heq] at hp ⊢
      exact h.active p hp
  case kstack =>
    intro p made hmade
    by_cases heq : p = q
    · subst heq
      rw [← hon.now made (Pc.creates_of_prepared hmade)]
      exact hkstack made hmade
    · obtain ⟨hsame, _, hne⟩ :=
        hon.others hcore heq (Pc.creates_of_prepared hmade)
      rw [hsame] at hmade
      rw [hon.proc made hne]
      exact h.kstack p made hmade
  case pgdir =>
    intro p made hmade
    by_cases heq : p = q
    · subst heq
      rw [← hon.now made (Pc.creates_of_mapped hmade)]
      exact hpgdir made hmade
    · obtain ⟨hsame, _, hne⟩ :=
        hon.others hcore heq (Pc.creates_of_mapped hmade)
      rw [hsame] at hmade
      rw [hon.proc made hne]
      exact h.pgdir p made hmade

theorem setup (h : s.Stocked) (hcore : s.Core) {flags : Flags}
    {childStack : Nat} (hact : s.acting label = some q)
    (hguard : s.sharesMapped label = true)
    (hpc : s.pc q = .cloneSetup np flags childStack)
    (hends : s.SetupEnds q np flags next) : next.Stocked := by
  have hbase : (s.pc q).base = .cloneSetup np flags childStack := by
    rw [hpc]
    rfl
  have hstack : (s.proc np).kstack ≠ none := by
    apply h.kstack q
    rw [hbase]
    rfl
  have hembryo := hcore.embryo (creates_at hpc rfl)
  refine h.child hcore (.setup hcore hpc hends) ?_ ?_ ?_
  all_goals
    cases hends with
    | undone =>
        simp [Pc.base, Pc.prepared, Pc.mapped, ProcState.active, undo]
    | left _ hbuilds =>
        simp [Pc.base, Pc.prepared, Pc.mapped, ProcState.active,
          hbuilds.state, hembryo]
    | @done tleader p dir built refs hleader hbuilds hdir _ hcwd =>
        obtain ⟨hstate, _, _, _, hkstack, hpgdir, _⟩ :=
          cloneCwd_builds hcwd hbuilds
        have hmapped : built.pgdir ≠ none := by
          rw [hpgdir]
          unfold BuildsDir at hdir
          split at hdir
          next hvm =>
            rw [hdir.1]
            exact shares_mapped hguard hact hpc hleader hvm
          next =>
            obtain ⟨made, hmade, _⟩ := hdir
            rw [hmade]
            simp
        simp [Pc.base, Pc.prepared, Pc.mapped, ProcState.active, hstate,
          hembryo, hkstack, hstack, hmapped]

theorem step (h : s.Stocked) (hcore : s.Core)
    (hguard : s.sharesMapped label = true) (heffect : s.Effect label next) :
    next.Stocked := by
  cases heffect with
  | quiet hquiet hflow =>
      exact h.reaps hcore (sameChildren_of_flow hquiet.pc hflow) hquiet.proc
  | allocates hact hpc hfound =>
      have hrunning := running_of_acting hcore hact
      refine h.child hcore (.allocates hcore hrunning hpc hfound) ?_ ?_ ?_ <;>
        simp [Pc.base, Pc.prepared, Pc.mapped, ProcState.active]
  | @kstack q np flags childStack frame hact hpc =>
      have hembryo := hcore.embryo (creates_at hpc rfl)
      cases frame <;> refine h.child hcore (.kstack hcore hpc _) ?_ ?_ ?_ <;>
        simp [cloneKstack, Pc.base, Pc.prepared, Pc.mapped, ProcState.active,
          hembryo]
  | setup hact hpc hends => exact h.setup hcore hact hguard hpc hends
  | @ids q np flags hact hpc =>
      have hbase : (s.pc q).base = .cloneIds np flags := by
        rw [hpc]
        rfl
      have hstack := h.kstack q np (by rw [hbase]; rfl)
      have hmapped := h.pgdir q np (by rw [hbase]; rfl)
      have hembryo := hcore.embryo (creates_at hpc rfl)
      refine h.child hcore (.ids hcore hpc) ?_ ?_ ?_ <;> unfold cloneIds <;>
        split <;> simp [Pc.base, Pc.prepared, Pc.mapped, ProcState.active,
          hembryo, hstack, hmapped]
  | @publish q np retid hact hpc =>
      have hbase : (s.pc q).base = .clonePublish np retid := by
        rw [hpc]
        rfl
      have hstack := h.kstack q np (by rw [hbase]; rfl)
      have hmapped := h.pgdir q np (by rw [hbase]; rfl)
      refine h.child hcore (.publish hcore hpc) ?_ ?_ ?_ <;>
        simp [clonePublish, Pc.base, Pc.prepared, Pc.mapped, hstack, hmapped]
  | waited _ hpc _ _ _ _ hreaps _ hnext
  | joined _ hpc _ _ hreaps _ hnext =>
      exact h.reaps hcore (hreaps.sameChildren hpc hnext rfl rfl) hreaps.proc
  | tgkilled _ hpc hends =>
      exact h.reaps hcore (hends.sameChildren hpc) hends.reaps.proc
  | files _ hpc | chdir _ hpc =>
      refine h.own hcore (sameChildren_setSlot rfl hpc rfl rfl) ?_ ?_ fun p => .inl ?_
      · exact setSlot_field _ _ rfl
      · exact setSlot_field _ _ rfl
      · refine setSlot_field _ Proc.pgdir ?_ p
        rfl
  | commit _ hpc =>
      refine h.own hcore (sameChildren_setSlot rfl hpc rfl rfl) ?_ ?_ fun p => ?_
      · exact setSlot_field _ _ rfl
      · exact setSlot_field _ _ rfl
      · simp only [goto_proc, setProc_proc, setSlot_apply]
        split <;> simp
  | @handOff q leader _ hpc =>
      have hrewired := s.proc.rewired_handOff q leader
      exact h.own hcore (sameChildren_setSlot rfl hpc rfl rfl) (fun p => (hrewired p).state)
        (fun p => (hrewired p).kstack) fun p => .inl (hrewired p).pgdir
  | @exit q c _ hpc =>
      have hfields := s.proc.exitSlot_fields q
      refine h.keep hcore (sameChildren_setSlot rfl hpc rfl rfl) (fun p hp => ?_) fun p _ => ?_
      · by_cases heq : p = q
        · subst heq
          simp [exitLock, s.proc.exitSlot_zombie, ProcState.active] at hp
        · exact (s.proc.keeps_exitSlot heq).active.symm.trans hp
      · exact ⟨(hfields p).kstack.symm ▸ id, (hfields p).pgdir.symm ▸ id⟩

end Stocked

theorem userinit_stocked (kstack pgdir : Frame) :
    (userinit kstack pgdir).Stocked := by
  have hpc := userinit_creates kstack pgdir
  constructor
  case active =>
    intro p hactive
    simp only [userinit, setSlot_apply] at hactive ⊢
    split at hactive
    next heq => simp [heq, userinitProc]
    next => simp [ProcState.active] at hactive
  case kstack =>
    intro q np h
    have hcreates := Pc.creates_of_prepared h
    rw [hpc] at hcreates
    contradiction
  case pgdir =>
    intro q np h
    have hcreates := Pc.creates_of_mapped h
    rw [hpc] at hcreates
    contradiction

def reapsAt : Pc → Bool
  | .waitLock | .waitSlept | .joinLock .. | .joinSlept .. | .tgkillLock _
  | .tgkillSlept _ => true
  | _ => false

theorem zombie_of_reaps {s next : Sys} {q p : Slot} {reaped : Slot → Prop}
    (hreaps : s.Reaps next q reaped) (hzombie : (s.proc p).state = .zombie) :
    (next.proc p).state = .zombie ∨ (next.proc p).state = .unused := by
  rcases hreaps.proc p with ⟨_, hclear⟩ | ⟨_, hsame⟩
  · exact .inr hclear.state
  · exact .inl ((hsame.state_eq rfl).mpr hzombie)

theorem OnChild.zombie {s next : Sys} {q np p : Slot}
    (hon : s.OnChild next q np) (hne : (s.proc np).state ≠ .zombie)
    (hzombie : (s.proc p).state = .zombie) :
    (next.proc p).state = .zombie := by
  rw [hon.proc p, hzombie]
  rintro rfl
  exact hne hzombie

theorem Effect.zombie {s next : Sys} {label : Label} {p : Slot}
    (heffect : s.Effect label next) (hcore : s.Core)
    (hzombie : (s.proc p).state = .zombie) :
    (next.proc p).state = .zombie ∨
      ((next.proc p).state = .unused ∧
        ∃ q, s.acting label = some q ∧ reapsAt (s.pc q) = true) := by
  have hembryo : ∀ {q np}, (s.pc q).base.creates = some np →
      (s.proc np).state ≠ .zombie := by
    intro q np hcreates
    rw [hcore.embryo hcreates]
    simp
  have hreaper : ∀ {q}, s.acting label = some q → reapsAt (s.pc q) = true →
      (next.proc p).state = .zombie ∨ (next.proc p).state = .unused →
      (next.proc p).state = .zombie ∨
        ((next.proc p).state = .unused ∧
          ∃ q, s.acting label = some q ∧ reapsAt (s.pc q) = true) := by
    intro q hact hat hends
    exact hends.imp_right fun hunused => ⟨hunused, q, hact, hat⟩
  cases heffect with
  | quiet hquiet =>
      exact .inl (((hquiet.same p).state_eq rfl).mpr hzombie)
  | allocates hact hpc hfound =>
      refine .inl ((OnChild.allocates hcore (running_of_acting hcore hact) hpc
        hfound).zombie ?_ hzombie)
      have hunused := firstSlot_some hfound
      simp only [decide_eq_true_eq] at hunused
      simp [hunused]
  | kstack _ hpc =>
      exact .inl ((OnChild.kstack hcore hpc _).zombie
        (hembryo (by rw [hpc]; rfl)) hzombie)
  | setup _ hpc hends =>
      exact .inl ((OnChild.setup hcore hpc hends).zombie
        (hembryo (by rw [hpc]; rfl)) hzombie)
  | ids _ hpc =>
      exact .inl ((OnChild.ids hcore hpc).zombie
        (hembryo (by rw [hpc]; rfl)) hzombie)
  | publish _ hpc =>
      exact .inl ((OnChild.publish hcore hpc).zombie
        (hembryo (by rw [hpc]; rfl)) hzombie)
  | files | chdir | commit =>
      refine .inl (Eq.trans ?_ hzombie)
      refine setSlot_field _ Proc.state ?_ p
      rfl
  | @handOff q leader =>
      exact .inl ((s.proc.rewired_handOff q leader p).state.trans hzombie)
  | @exit q c =>
      left
      by_cases heq : p = q
      · subst heq
        exact s.proc.exitSlot_zombie p
      · exact ((s.proc.keeps_exitSlot heq).state_eq rfl).mpr hzombie
  | waited hact hpc _ _ _ _ hreaps =>
      refine hreaper hact ?_ (zombie_of_reaps hreaps hzombie)
      rcases hpc with hpc | hpc <;> rw [hpc] <;> rfl
  | joined hact hpc _ _ hreaps =>
      refine hreaper hact ?_ (zombie_of_reaps hreaps hzombie)
      rcases hpc with hpc | hpc <;> rw [hpc] <;> rfl
  | tgkilled hact hpc hends =>
      refine hreaper hact ?_ (zombie_of_reaps hends.reaps hzombie)
      rcases hpc with hpc | hpc <;> rw [hpc] <;> rfl

/-- Every `tresume` finds its thread asleep, and every `clone` that shares an
address space finds one. -/
def orderly (s : Sys) (label : Label) : Bool :=
  s.resumesSleeper label && s.sharesMapped label

structure SchedulingSafe (s : Sys) : Prop where
  /-- No slot runs on two CPUs. -/
  single : ∀ c other p, (s.cpu c).proc = some p →
    (s.cpu other).proc = some p → c = other
  /-- A slot that runs is not offered to another scheduler. -/
  running : ∀ c p, s.lock = none → (s.cpu c).proc = some p →
    (s.proc p).state ≠ .runnable
  /-- A zombie is reaped, and nothing else happens to it. -/
  zombie : ∀ label next p, s.orderly label = true →
    s.step label = some next → (s.proc p).state = .zombie →
      (next.proc p).state = .zombie ∨
        ((next.proc p).state = .unused ∧
          ∃ q, s.acting label = some q ∧ reapsAt (s.pc q) = true)
  /-- A runnable thread can be switched to, and has not exited. -/
  runnable : ∀ p, (s.proc p).state = .runnable →
    (s.proc p).kstack ≠ none ∧ (s.proc p).pgdir ≠ none ∧
      (s.pc p).base ≠ .exited
  /-- The loop of `scheduler` does not panic. -/
  scheduler : ∀ c, (s.cpu c).proc = none → s.lock = some c →
    s.step (.schedScan c) ≠ none

theorem orderly_invariant {kstack pgdir : Frame} {s : Sys}
    (hreach : Reach Sys.step (fun s label => s.orderly label = true)
      (userinit kstack pgdir) s) : s.Core ∧ s.Stocked := by
  refine hreach.invariant (fun s => s.Core ∧ s.Stocked)
    ⟨userinit_core .., userinit_stocked ..⟩ ?_
  intro state label next ⟨hcore, hstocked⟩ hguard hstep
  simp only [orderly, Bool.and_eq_true] at hguard
  obtain ⟨hsleeper, hshares⟩ := hguard
  exact ⟨hcore.step hsleeper hstep,
    hstocked.step hcore hshares (hcore.effect hsleeper hstep)⟩

theorem Stocked.schedScan {s : Sys} (h : s.Stocked) {c : Cpu}
    (hidle : (s.cpu c).proc = none) (held : s.lock = some c) :
    s.step (.schedScan c) ≠ none := by
  simp only [Sys.step, hidle, if_true, resume, held, Sys.schedScan]
  split
  · simp
  next p hfound =>
    have htest := firstSlot_some hfound
    simp only [decide_eq_true_eq] at htest
    have hactive : (s.proc p).state.active = true := by
      rw [htest.2]
      rfl
    obtain ⟨hkstack, hpgdir⟩ := h.active p hactive
    simp [hkstack, hpgdir]

theorem scheduling_safe {kstack pgdir : Frame} {s : Sys}
    (hreach : Reach Sys.step (fun s label => s.orderly label = true)
      (userinit kstack pgdir) s) : s.SchedulingSafe := by
  obtain ⟨hcore, hstocked⟩ := orderly_invariant hreach
  constructor
  case single => exact fun c other p => hcore.single
  case running =>
    intro c p _ hp
    rw [hcore.running hp]
    simp
  case zombie =>
    intro label next p hguard hstep hzombie
    simp only [orderly, Bool.and_eq_true] at hguard
    exact (hcore.effect hguard.1 hstep).zombie hcore hzombie
  case runnable =>
    intro p hrunnable
    have hactive : (s.proc p).state.active = true := by
      rw [hrunnable]
      rfl
    obtain ⟨hkstack, hpgdir⟩ := hstocked.active p hactive
    exact ⟨hkstack, hpgdir, hcore.alive hactive⟩
  case scheduler => exact fun c => hstocked.schedScan

def startOn (c : Cpu) : List Label := [.schedAcquire c, .schedScan c, .run c {}]

/-- The thread on CPU `c` runs `clone` from the system call to its return. -/
def cloneOn (c : Cpu) (call : Syscall) (vm : VmResult) : List Label :=
  [.run c { user := .call call }, .run c {}, .run c {}, .run c { vm := vm },
    .run c {}, .run c {}, .run c {}]

/-- init makes a thread, which runs on the other CPU and suspends itself; init
resumes it. -/
def suspendResume : List Label :=
  startOn 0 ++ cloneOn 0 (.clone TFLAGS 0) (.ok 0 8192) ++ startOn 1 ++
    [.run 1 { user := .call .tsuspend }, .run 1 {}, .run 1 {}, .schedScan 1,
      .run 0 { user := .call (.tresume 2) }, .run 0 {}, .run 0 {}]

set_option maxRecDepth 4000

theorem scheduling_safe_suspendResume :
    ∃ s, Reach Sys.step (fun s label => s.orderly label = true) (userinit 1 2) s ∧
      (s.proc 1).state = .runnable ∧ s.SchedulingSafe := by
  have hrun : ((run Sys.step orderly (userinit 1 2) suspendResume).any
      fun s => (s.proc 1).state = .runnable) = true := by decide +kernel
  obtain ⟨s, hreach, hrunnable⟩ := reach_of_run_any hrun
  exact ⟨s, hreach, by simpa using hrunnable, scheduling_safe hreach⟩

/-- init makes a thread and resumes it while it runs on the other CPU. -/
def resumeRunning : List Label :=
  startOn 0 ++ cloneOn 0 (.clone TFLAGS 0) (.ok 0 8192) ++ startOn 1 ++
    [.run 0 { user := .call (.tresume 2) }, .run 0 {}, .run 0 {}]

/-- `tresume` sets RUNNABLE whatever the state: the running thread is then
offered to every scheduler. -/
theorem tresume_running_offered :
    ¬ ∀ s, Reach Sys.step (fun _ _ => True) (userinit 1 2) s →
      ∀ c p, s.lock = none → (s.cpu c).proc = some p →
        (s.proc p).state ≠ .runnable := by
  intro hsafe
  have hrun : ((run Sys.step (fun _ _ => true) (userinit 1 2) resumeRunning).any
      fun s => s.lock = none ∧ (s.cpu 1).proc = some 1 ∧
        (s.proc 1).state = .runnable) = true := by decide +kernel
  obtain ⟨s, hreach, hend⟩ := reach_of_run_any hrun
  exact hsafe s (hreach.mono fun _ _ _ => trivial) 1 1 hend.1 hend.2.1 hend.2.2

end Sys

end KernelThreads
