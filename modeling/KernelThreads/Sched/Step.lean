import KernelThreads.Sched.System

namespace KernelThreads

open Lib

namespace Sys

theorem acquire_eq_some {s next : Sys} {result : Option Sys}
    (h : s.acquire result = some next) : s.lock = none ∧ result = some next := by
  unfold acquire at h
  split at h
  · exact ⟨‹_›, h⟩
  · contradiction

theorem resume_eq_some {s next : Sys} {c : Cpu} {result : Option Sys}
    (h : s.resume c result = some next) :
    s.lock = some c ∧ result = some next := by
  unfold resume at h
  split at h
  · exact ⟨‹_›, h⟩
  · contradiction

theorem onCpu_eq_some {s next : Sys} {c : Cpu} {body : Slot → Option Sys}
    (h : s.onCpu c body = some next) :
    ∃ q, (s.cpu c).proc = some q ∧ body q = some next := by
  unfold onCpu at h
  split at h
  · contradiction
  · exact ⟨_, ‹_›, h⟩

/-! What a step can do, said once: the cases of `thread` and `step` with their
guards. -/

theorem exitFiles_eq_some {s next : Sys} {q : Slot} (h : s.exitFiles q = some next) :
    q ≠ initproc ∧ next = { s.setProc q { s.proc q with cwd := none } with
      iref := iput s.iref (s.proc q).cwd }.goto q .exitGroup := by
  unfold exitFiles at h
  split at h
  · contradiction
  next hinit =>
    cases h
    exact ⟨hinit, rfl⟩

inductive WaitTurns (s : Sys) (c : Cpu) (q : Slot) (nullHit : Slot → Bool) : Sys → Prop
  | reaped (hfound : s.proc.waitFind q nullHit = some p)
      (hzombie : (s.proc p).state = .zombie) (hleader : (s.proc p).tid = -1)
      (hdir : (s.proc p).pgdir = some dir) :
      WaitTurns s c q nullHit
        (({ s with dirs := Function.update s.dirs dir false }.setProc p
          (s.proc p).reap).finish q (.trapret (s.proc p).pid))
  | returned (hnone : s.proc.waitFind q nullHit = none) :
      WaitTurns s c q nullHit (s.finish q (.trapret (-1)))
  | sleeps (hnone : s.proc.waitFind q nullHit = none)
      (hkilled : (s.proc q).killed = false) :
      WaitTurns s c q nullHit
        (s.sleep c q (Table.slotChan (s.proc.threadLeader q)) .waitSlept)

theorem waitTurns_of_waitTurn {s next : Sys} {c : Cpu} {q : Slot} {nullHit : Slot → Bool}
    (h : s.waitTurn c q nullHit = some next) : s.WaitTurns c q nullHit next := by
  unfold waitTurn at h
  split at h
  next p hfound =>
    obtain ⟨freed, hfreed, rfl⟩ := Option.map_eq_some_iff.mp h
    have htest := firstSlot_some hfound
    simp only [decide_eq_true_eq] at htest
    cases hdir : (s.proc p).pgdir with
    | none => simp [hdir, freevm] at hfreed
    | some dir =>
        simp only [hdir, freevm] at hfreed
        cases hfreed
        exact .reaped hfound htest.2.1 htest.2.2 hdir
  next hnone =>
    split at h
    · cases h
      exact .returned hnone
    next hkilled =>
      cases h
      simp only [Bool.or_eq_true, not_or, Bool.not_eq_true] at hkilled
      exact .sleeps hnone hkilled.2

inductive KernelActs (s : Sys) (q : Slot) : KernelAct → Sys → Prop
  | ret : KernelActs s q (.ret eax) (s.goto q (.trapret eax))
  | grow (hleader : s.proc.threadLeader q = some tleader) :
      KernelActs s q (.grow sz) ({ s with proc := s.proc.setSize q tleader sz }.goto q
        (.trapret (s.proc tleader).sz))
  | chdir :
      KernelActs s q (.chdir inode) ({ s.setProc q { s.proc q with cwd := some inode } with
        iref := iput (idup s.iref (some inode)) (s.proc q).cwd }.goto q (.trapret 0))

theorem kernelActs_of_kernelAct {s next : Sys} {q : Slot} {act : KernelAct}
    (h : s.kernelAct q act = some next) : s.KernelActs q act next := by
  cases act with
  | ret eax =>
      cases h
      exact .ret
  | grow sz =>
      obtain ⟨tleader, hleader, rfl⟩ := Option.map_eq_some_iff.mp h
      exact .grow hleader
  | chdir inode =>
      cases h
      exact .chdir

inductive ExecLocks (s : Sys) (q : Slot) : Option Slot → Sys → Prop
  | leads (htid : (s.proc q).tid = -1) :
      ExecLocks s q tleader (s.finish q (.tgkillCheck .exec))
  | handOff (htid : (s.proc q).tid ≠ -1) :
      ExecLocks s q (some leader)
        ({ s with proc := s.proc.handOff q leader }.finish q (.tgkillCheck .exec))

theorem execLocks_of_execLock {s next : Sys} {q : Slot} {tleader : Option Slot}
    (h : s.execLock q tleader = some next) : s.ExecLocks q tleader next := by
  unfold execLock at h
  split at h
  next htid =>
    cases h
    exact .leads htid
  next htid =>
    cases tleader with
    | none => contradiction
    | some leader =>
        cases h
        exact .handOff htid

/-- How the load of `exec` ends: with no image, or with one that is committed. -/
inductive Loads (s : Sys) (q : Slot) : Option (Frame × Nat) → Sys → Prop
  | failed : Loads s q none (s.goto q (.trapret (-1)))
  | done (hfree : s.dirs dir = false) (hold : (s.proc q).pgdir = some old) :
      Loads s q (some (dir, sz))
        ({ s.setProc q
            { s.proc q with
              pgdir := some dir
              sz := sz
              tstack := sz
              tstackalloc := false } with
          dirs := Function.update (Function.update s.dirs dir true) old
            false }.goto q (.trapret 0))

theorem loads_of_execLoad {s next : Sys} {q : Slot} {image : Option (Frame × Nat)}
    (h : s.execLoad q image = some next) : s.Loads q image next := by
  cases image with
  | none =>
      cases h
      exact .failed
  | some image =>
      simp only [execLoad] at h
      split at h
      next hfree =>
        obtain ⟨freed, hfreed, rfl⟩ := Option.map_eq_some_iff.mp h
        cases hold : (s.proc q).pgdir with
        | none => simp [hold, freevm] at hfreed
        | some old =>
            simp only [hold, freevm] at hfreed
            cases hfreed
            exact .done (by simpa [dirFree] using hfree) hold
      next => contradiction

inductive Acts (s : Sys) (c : Cpu) (q : Slot) (x : Choice) : Pc → Sys → Prop
  | user : Acts s c q x .user (s.userAct q x.user)
  | trapret : Acts s c q x (.trapret eax)
      (s.goto q (if (s.proc q).killed then .exitFiles else .user))
  | kernel (h : s.kernelAct q x.kernel = some next) :
      Acts s c q x .kernel next
  | forkret (held : s.lock = some c) :
      Acts s c q x .forkret (s.finish q .user)
  | yielded (held : s.lock = some c) :
      Acts s c q x (.yielded resumed) (s.finish q resumed)
  | asleep (held : s.lock = some c) :
      Acts s c q x (.asleep resumed) ((s.tidy q).finish q resumed)
  | allocproc (free : s.lock = none) :
      Acts s c q x (.allocproc flags childStack)
        (s.allocproc q flags childStack)
  | cloneKstack : Acts s c q x (.cloneKstack np flags childStack)
      (s.cloneKstack q np flags childStack x.kalloc)
  | cloneSetup (h : s.cloneSetup q np flags childStack x.vm = some next) :
      Acts s c q x (.cloneSetup np flags childStack) next
  | cloneIds : Acts s c q x (.cloneIds np flags) (s.cloneIds q np flags)
  | clonePublish (free : s.lock = none) :
      Acts s c q x (.clonePublish np retid) (s.clonePublish q np retid)
  | exitFiles (h : s.exitFiles q = some next) : Acts s c q x .exitFiles next
  | exitGroup : Acts s c q x .exitGroup (s.exitGroup q)
  | exitLock (free : s.lock = none) : Acts s c q x .exitLock (s.exitLock c q)
  | waitLock (free : s.lock = none)
      (h : s.waitTurn c q x.nullHit = some next) : Acts s c q x .waitLock next
  | waitSlept (held : s.lock = some c)
      (h : (s.tidy q).waitTurn c q x.nullHit = some next) :
      Acts s c q x .waitSlept next
  | joinScan : Acts s c q x (.joinScan tid) (s.joinScan q tid)
  | joinLock (free : s.lock = none) :
      Acts s c q x (.joinLock p tid tleader) (s.joinTurn c q p tid tleader)
  | joinSlept (held : s.lock = some c) :
      Acts s c q x (.joinSlept p tid tleader)
        ((s.tidy q).joinTurn c q p tid tleader)
  | killLock (free : s.lock = none) :
      Acts s c q x (.killLock pid) (s.kill q pid)
  | tkillLock (free : s.lock = none) :
      Acts s c q x (.tkillLock tid) (s.tkill q tid)
  | tgkillCheck : Acts s c q x (.tgkillCheck caller) (s.tgkillCheck q caller)
  | tgkillLock (free : s.lock = none) :
      Acts s c q x (.tgkillLock caller)
        ((s.tgkillMark q).tgkillTurn c q caller)
  | tgkillSlept (held : s.lock = some c) :
      Acts s c q x (.tgkillSlept caller) ((s.tidy q).tgkillTurn c q caller)
  | tsuspendCheck : Acts s c q x .tsuspendCheck (s.tsuspendCheck q)
  | tsuspendLock (free : s.lock = none) :
      Acts s c q x .tsuspendLock (s.sleep c q (some (.proc q)) .tsuspendSlept)
  | tsuspendSlept (held : s.lock = some c) :
      Acts s c q x .tsuspendSlept ((s.tidy q).finish q (.trapret 0))
  | tresumeScan : Acts s c q x (.tresumeScan tid) (s.tresumeScan q tid)
  | tresumeLock (free : s.lock = none) :
      Acts s c q x (.tresumeLock p) (s.tresumeLock q p)
  | execLeader : Acts s c q x .execLeader
      (s.goto q (.execLock (s.proc.threadLeader q)))
  | execLock (free : s.lock = none) (h : s.execLock q tleader = some next) :
      Acts s c q x (.execLock tleader) next
  | execLoad (h : s.execLoad q x.load = some next) :
      Acts s c q x .execLoad next

theorem acts_of_thread {s next : Sys} {c : Cpu} {q : Slot} {x : Choice}
    {pc : Pc} (h : s.thread c q x pc = some next) : s.Acts c q x pc next := by
  cases pc <;> simp only [thread] at h
  case kernel => exact .kernel h
  case cloneSetup => exact .cloneSetup h
  case exitFiles => exact .exitFiles h
  case execLoad => exact .execLoad h
  case waitLock =>
    obtain ⟨free, h⟩ := acquire_eq_some h
    exact .waitLock free h
  case waitSlept =>
    obtain ⟨held, h⟩ := resume_eq_some h
    exact .waitSlept held h
  case execLock =>
    obtain ⟨free, h⟩ := acquire_eq_some h
    exact .execLock free h
  case exited => contradiction
  -- The others end in one state each, with or without a condition on the lock.
  all_goals
    first
    | (obtain ⟨held, h⟩ := resume_eq_some h; cases h; constructor; exact held)
    | (obtain ⟨free, h⟩ := acquire_eq_some h; cases h; constructor; exact free)
    | (cases h; constructor)

inductive Leaves (s : Sys) (c : Cpu) (q : Slot) : Label → Sys → Prop
  | killed (huser : s.pc q = .user) (hkilled : (s.proc q).killed = true) :
      Leaves s c q (.preempt c) (s.goto q .exitFiles)
  | preempt (hpc : switchedOut (s.pc q) = false)
      (hrunning : (s.proc q).state = .running) (free : s.lock = none) :
      Leaves s c q (.preempt c)
        ((s.setProc q { s.proc q with state := .runnable }).sched c q
          (.yielded (s.pc q)))
  | block (hpc : mayBlock (s.pc q) = true) (free : s.lock = none) :
      Leaves s c q (.block c address)
        (s.sleep c q (some (.other address)) (.asleep (s.pc q)))

inductive Does (s : Sys) : Label → Sys → Prop
  | schedAcquire (hidle : (s.cpu c).proc = none) (free : s.lock = none) :
      Does s (.schedAcquire c) { s with
        lock := some c
        cpu := Function.update s.cpu c { proc := none, scan := 0 } }
  | schedRelease (hidle : (s.cpu c).proc = none) (held : s.lock = some c) :
      Does s (.schedScan c) { s with lock := none }
  | schedPick (hidle : (s.cpu c).proc = none) (held : s.lock = some c)
      (hrunnable : (s.proc p).state = .runnable) :
      Does s (.schedScan c) { s.setProc p { s.proc p with state := .running } with
        cpu := Function.update s.cpu c { proc := some p, scan := p.val } }
  | wakeup (free : s.lock = none) :
      Does s (.wakeup address)
        { s with proc := s.proc.wakeup1 (some (.other address)) }
  | leaves (hq : (s.cpu c).proc = some q) (h : s.Leaves c q label next) :
      Does s label next
  | acts (hq : (s.cpu c).proc = some q) (h : s.Acts c q x (s.pc q) next) :
      Does s (.run c x) next

theorem schedScan_does {s next : Sys} {c : Cpu}
    (hidle : (s.cpu c).proc = none) (held : s.lock = some c)
    (h : s.schedScan c = some next) : s.Does (.schedScan c) next := by
  unfold schedScan at h
  split at h
  next =>
    cases h
    exact .schedRelease hidle held
  next p hfound =>
    split at h
    · contradiction
    · cases h
      have htest := firstSlot_some hfound
      simp only [decide_eq_true_eq] at htest
      exact .schedPick hidle held htest.2

theorem preempt_leaves {s next : Sys} {c : Cpu} {q : Slot}
    (h : s.preempt c q = some next) : s.Leaves c q (.preempt c) next := by
  unfold preempt at h
  split at h
  next hkilled =>
    cases h
    exact .killed hkilled.1 hkilled.2
  next =>
    split at h
    · contradiction
    next hrunning =>
      obtain ⟨free, h⟩ := acquire_eq_some h
      cases h
      simp only [not_or, Bool.not_eq_true, not_not] at hrunning
      exact .preempt hrunning.1 hrunning.2 free

theorem block_leaves {s next : Sys} {c : Cpu} {q : Slot} {address : Nat}
    (h : s.block c q address = some next) :
    s.Leaves c q (.block c address) next := by
  unfold block at h
  split at h
  next hpc =>
    obtain ⟨free, h⟩ := acquire_eq_some h
    cases h
    exact .block hpc free
  · contradiction

theorem does_of_step {s next : Sys} {label : Label}
    (h : s.step label = some next) : s.Does label next := by
  cases label with
  | schedAcquire c =>
      simp only [step] at h
      split at h
      next hidle =>
        obtain ⟨free, h⟩ := acquire_eq_some h
        cases h
        exact .schedAcquire hidle free
      · contradiction
  | schedScan c =>
      simp only [step] at h
      split at h
      next hidle =>
        obtain ⟨held, h⟩ := resume_eq_some h
        exact schedScan_does hidle held h
      · contradiction
  | wakeup address =>
      obtain ⟨free, h⟩ := acquire_eq_some h
      cases h
      exact .wakeup free
  | preempt c =>
      obtain ⟨q, hq, h⟩ := onCpu_eq_some h
      exact .leaves hq (preempt_leaves h)
  | block c address =>
      obtain ⟨q, hq, h⟩ := onCpu_eq_some h
      exact .leaves hq (block_leaves h)
  | run c x =>
      obtain ⟨q, hq, h⟩ := onCpu_eq_some h
      exact .acts hq (acts_of_thread h)

end Sys

end KernelThreads
