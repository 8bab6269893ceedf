import KernelThreads.Sched.Sleep
import KernelThreads.Sched.Calls
import KernelThreads.Sched.Safety

namespace KernelThreads

open Lib

/-! A mark set by `kill`, `tkill` or `tgkill`, and the calls that sleep. -/

namespace Pc

def blocks : Pc → Bool
  | .waitSlept | .joinSlept .. | .tgkillSlept _ | .tsuspendSlept => true
  | _ => false

/-- Inside one of these calls, at a point from which it may go to sleep or
comes back from it. -/
def waits : Pc → Bool
  | .waitLock | .waitSlept | .joinScan _ | .joinLock .. | .joinSlept ..
  | .tgkillLock _ | .tgkillSlept _
  | .tsuspendCheck | .tsuspendLock | .tsuspendSlept => true
  | _ => false

def suspends : Pc → Bool
  | .tsuspendCheck | .tsuspendLock => true
  | _ => false

end Pc

namespace Table

theorem wakeup1_killed (t : Table) (chan : Option Chan) (p : Slot) :
    (t.wakeup1 chan p).killed = (t p).killed := by
  simp only [wakeup1]
  split <;> rfl

theorem exitSlot_killed (t : Table) (cur p : Slot) :
    (t.exitSlot cur p).killed = (t p).killed := by
  have hwakes : (t.exitWakeup cur p).killed = (t p).killed := by
    simp only [exitWakeup, wakeup1_killed]
    split
    · exact wakeup1_killed ..
    · rfl
  have hpassed : ∀ t : Table, (t.exitReparent cur p).killed = (t p).killed := by
    intro t
    have hpass : (t.passToInit cur p).killed = (t p).killed := by
      simp only [passToInit]
      split <;> rfl
    simp only [exitReparent]
    split
    · rw [wakeup1_killed, hpass]
    · exact hpass
  rw [← hwakes, ← hpassed (t.exitWakeup cur)]
  refine setSlot_field _ Proc.killed ?_ p
  rfl

end Table

namespace Sys

def marks (s : Sys) (q : Slot) (point : Pc) (p : Slot) : Bool :=
  match point with
  | .killLock pid => s.proc.killFind pid = some p
  | .tkillLock tid => s.proc.tkillFind q tid = some p
  | .tgkillLock _ => s.proc.isPeer q p
  | .execLock _ =>
      (s.proc q).tid ≠ -1 ∧ (s.proc p).pid = (s.proc q).pid ∧ p ≠ q
  | _ => false

/-- Nobody is marked between its call of `tsuspend` and its sleep there. -/
def sparesSuspending (s : Sys) (label : Label) : Bool :=
  s.actor label fun q point =>
    ∀ p, s.marks q point p = true → (s.pc p).base.suspends = false

/-- What a step of `q` does to the marks: it sets those of its victims, or its
own after a fault, and only a reaper clears one. -/
structure Marks (s : Sys) (q : Slot) (point : Pc) (next : Sys) : Prop where
  sets : ∀ p, (next.proc p).killed = true → (s.proc p).killed = true ∨
    s.marks q point p = true ∨ p = q ∧ next.pc q = .exitFiles
  keeps : ∀ p, (s.proc p).killed = true → (next.proc p).killed = true ∨
    (s.proc p).state = .zombie

namespace Marks

variable {s next : Sys} {c : Cpu} {q p : Slot} {x : Choice} {point : Pc}

theorem same (h : ∀ p, (next.proc p).killed = (s.proc p).killed) :
    s.Marks q point next where
  sets p hp := .inl ((h p).symm.trans hp)
  keeps p hp := .inl ((h p).trans hp)

theorem write {value : Proc} (hproc : next.proc = setSlot s.proc p value)
    (h : value.killed = (s.proc p).killed) : s.Marks q point next := by
  refine .same fun r => ?_
  rw [hproc]
  exact setSlot_field _ Proc.killed h r

theorem sleep {chan : Option Chan} {pc : Pc} :
    s.Marks q point (s.sleep c q chan pc) :=
  .same (setSlot_field _ Proc.killed rfl)

theorem reaps (h : ∀ p, (next.proc p).killed = (s.proc p).killed ∨
      (s.proc p).state = .zombie ∧ (next.proc p).killed = false) :
    s.Marks q point next where
  sets p hp := by
    rcases h p with hsame | ⟨_, hcleared⟩
    · exact .inl (hsame.symm.trans hp)
    · rw [hcleared] at hp
      contradiction
  keeps p hp := by
    rcases h p with hsame | ⟨hzombie, _⟩
    · exact .inl (hsame.trans hp)
    · exact .inr hzombie

theorem reap {value : Proc} (hproc : next.proc = setSlot s.proc p value)
    (hzombie : (s.proc p).state = .zombie) (hvalue : value.killed = false) :
    s.Marks q point next := by
  refine .reaps fun r => ?_
  rw [hproc, setSlot_apply]
  split
  next heq =>
    rw [heq]
    exact .inr ⟨hzombie, hvalue⟩
  next => exact .inl rfl

theorem of_tidy (h : (s.tidy q).Marks q point next)
    (hpoint : ∀ p, (s.tidy q).marks q point p = s.marks q point p) :
    s.Marks q point next where
  sets p hp := by
    have hbefore := h.sets p hp
    rwa [tidy_killed, hpoint] at hbefore
  keeps p hp := by
    have hafter := h.keeps p (by rwa [tidy_killed])
    rwa [tidy_state] at hafter

theorem waitTurn {nullHit : Slot → Bool}
    (h : s.waitTurn c q nullHit = some next) : s.Marks q point next := by
  cases waitTurns_of_waitTurn h with
  | reaped _ hzombie => exact .reap rfl hzombie rfl
  | returned => exact .same fun _ => rfl
  | sleeps => exact .sleep

theorem joinTurn {tid : Int} {tleader : Option Slot} :
    s.Marks q point (s.joinTurn c q p tid tleader) := by
  unfold Sys.joinTurn
  split
  · exact .same fun _ => rfl
  · split
    next hzombie => exact .reap rfl hzombie rfl
    next => exact .sleep

theorem tgkillTurn {caller : TgkillCaller} :
    s.Marks q point (s.tgkillTurn c q caller) := by
  have hreap : ∀ r, (s.proc.tgkillReap q r).killed = (s.proc r).killed ∨
      (s.proc r).state = .zombie ∧ (s.proc.tgkillReap q r).killed = false := by
    intro r
    simp only [Table.tgkillReap]
    split
    next hr => exact .inr ⟨hr.2.1, rfl⟩
    next => exact .inl rfl
  unfold Sys.tgkillTurn
  dsimp only
  split
  · exact .reaps hreap
  · split
    · exact .reaps hreap
    · refine .reaps fun r => ?_
      have hsleep : (({ s with proc := s.proc.tgkillReap q }.sleep c q
          (some (.proc q)) (.tgkillSlept caller)).proc r).killed =
            (s.proc.tgkillReap q r).killed := by
        refine setSlot_field _ Proc.killed ?_ r
        rfl
      rw [hsleep]
      exact hreap r

theorem killFound {found : Option Slot}
    (h : ∀ p, found = some p → s.marks q point p = true) :
    s.Marks q point (s.killFound q found) := by
  cases found with
  | none => exact .same fun _ => rfl
  | some p =>
      constructor
      · intro r hr
        by_cases heq : r = p
        · subst heq
          exact .inr (.inl (h r rfl))
        · simp only [Sys.killFound, Table.killSlot, finish_proc,
            setSlot_other _ _ heq] at hr
          exact .inl hr
      · intro r hr
        left
        simp only [Sys.killFound, Table.killSlot, finish_proc, setSlot_apply]
        split
        · rfl
        · exact hr

theorem tgkillMark {caller : TgkillCaller} :
    s.Marks q (.tgkillLock caller) ((s.tgkillMark q).tgkillTurn c q caller) := by
  have hturn : (s.tgkillMark q).Marks q .exited
      ((s.tgkillMark q).tgkillTurn c q caller) := .tgkillTurn
  have hmark : ∀ r, ((s.tgkillMark q).proc r).killed = true →
      (s.proc r).killed = true ∨ s.proc.isPeer q r = true := by
    intro r hr
    simp only [Sys.tgkillMark, Table.tgkillMark] at hr
    split at hr
    next hpeer => exact .inr hpeer
    next => exact .inl hr
  constructor
  · intro r hr
    rcases hturn.sets r hr with hbefore | hnone | hfault
    · exact (hmark r hbefore).imp_right .inl
    · contradiction
    · exact .inr (.inr hfault)
  · intro r hr
    refine (hturn.keeps r ((s.proc.same_tgkillMark q r).killed hr)).imp_right ?_
    exact mark_zombie.mp

theorem execLock {tleader : Option Slot} (h : s.execLock q tleader = some next) :
    s.Marks q (.execLock tleader) next := by
  cases execLocks_of_execLock h with
  | leads => exact .same fun _ => rfl
  | handOff htid =>
      constructor
      · intro r hr
        rw [finish_proc, Table.handOff_killed, Bool.or_eq_true,
          decide_eq_true_eq] at hr
        refine hr.imp_right fun hvictim => .inl ?_
        simp [marks, htid, hvictim]
      · intro r hr
        left
        rw [finish_proc, Table.handOff_killed, hr, Bool.true_or]

theorem kernelAct {act : KernelAct} (h : s.kernelAct q act = some next) :
    s.Marks q point next := by
  cases kernelActs_of_kernelAct h with
  | ret => exact .same fun _ => rfl
  | grow =>
      refine .same fun p => ?_
      simp only [goto_proc, Table.setSize]
      split <;> rfl
  | chdir => exact .write rfl rfl

theorem exitFiles (h : s.exitFiles q = some next) : s.Marks q point next := by
  obtain ⟨_, rfl⟩ := exitFiles_eq_some h
  exact .write rfl rfl

theorem execLoad {image : Option (Frame × Nat)}
    (h : s.execLoad q image = some next) : s.Marks q point next := by
  cases loads_of_execLoad h with
  | failed => exact .same fun _ => rfl
  | done => exact .write rfl rfl

theorem of_acts (hacts : s.Acts c q x point next) : s.Marks q point next := by
  cases hacts with
  | user =>
      cases x.user with
      | call call => exact .same fun _ => rfl
      | fault =>
          constructor
          · intro r hr
            by_cases heq : r = q
            · exact .inr (.inr ⟨heq, by simp [userAct]⟩)
            · simp only [userAct, goto_proc, setProc_proc,
                setSlot_other _ _ heq] at hr
              exact .inl hr
          · intro r hr
            left
            simp only [userAct, goto_proc, setProc_proc, setSlot_apply]
            split
            · rfl
            · exact hr
  | kernel h => exact .kernelAct h
  | asleep => exact .of_tidy (.same fun _ => rfl) fun _ => rfl
  | allocproc =>
      unfold Sys.allocproc
      split
      · exact .same fun _ => rfl
      · exact .write rfl rfl
  | cloneKstack => cases x.kalloc <;> exact .write rfl rfl
  | cloneSetup h =>
      cases setup_ends h with
      | undone _ hbuilds => exact .write rfl hbuilds.killed
      | left _ hbuilds => exact .write rfl hbuilds.killed
      | done _ hbuilds _ _ hcwd =>
          exact .write rfl (cloneCwd_builds hcwd hbuilds).2.2.2.1
  | cloneIds =>
      unfold Sys.cloneIds
      split <;> exact .write rfl rfl
  | clonePublish => exact .write rfl rfl
  | exitFiles h => exact .exitFiles h
  | exitLock => exact .same (s.proc.exitSlot_killed q)
  | waitLock _ h => exact .waitTurn h
  | waitSlept _ h => exact .of_tidy (.waitTurn h) fun _ => rfl
  | joinScan =>
      unfold Sys.joinScan
      split
      · exact .same fun _ => rfl
      · split
        · exact .same fun _ => rfl
        · split <;> exact .same fun _ => rfl
  | joinLock => exact .joinTurn
  | joinSlept => exact .of_tidy .joinTurn fun _ => rfl
  | killLock | tkillLock =>
      refine .killFound fun p hp => ?_
      simpa [marks] using hp
  | tgkillLock => exact .tgkillMark
  | tgkillSlept => exact .of_tidy .tgkillTurn fun _ => rfl
  | tsuspendLock => exact .sleep
  | tsuspendSlept => exact .of_tidy (.same fun _ => rfl) fun _ => rfl
  | tresumeScan =>
      unfold Sys.tresumeScan
      split
      · exact .same fun _ => rfl
      · split
        · exact .same fun _ => rfl
        · split <;> exact .same fun _ => rfl
  | tresumeLock => exact .write rfl rfl
  | execLock _ h => exact .execLock h
  | execLoad h => exact .execLoad h
  | _ => exact .same fun _ => rfl

end Marks

def runsOn (call : Syscall) : Bool := call ≠ .tsuspend

theorem runsOn_within {point : Pc} (h : point.suspends = false)
    (hslept : point ≠ .tsuspendSlept) : point.within runsOn := by
  cases point with
  | tgkillCheck caller | tgkillLock caller | tgkillSlept caller =>
      cases caller <;> first | exact trivial | rfl
  | allocproc | cloneKstack | cloneSetup | cloneIds => exact .inr ⟨0, rfl⟩
  | tresumeLock => exact ⟨0, rfl⟩
  | tsuspendCheck | tsuspendLock => contradiction
  | tsuspendSlept => exact absurd rfl hslept
  | _ => first | exact trivial | rfl

/-- A thread comes to these points of `tsuspend` from user code, if it is not
marked, or from one of them. -/
theorem Acts.suspends {s next : Sys} {c : Cpu} {q : Slot} {x : Choice}
    (hacts : s.Acts c q x (s.pc q) next)
    (h : (next.pc q).base.suspends = true) :
    (s.pc q).base.suspends = true ∨
      s.pc q = .user ∧ (s.proc q).killed = false := by
  by_cases hbefore : (s.pc q).base.suspends = true
  · exact .inl hbefore
  rw [Bool.not_eq_true] at hbefore
  right
  by_cases huser : s.pc q = .user
  · refine ⟨huser, ?_⟩
    rw [huser] at hacts
    by_contra hkilled
    rw [Bool.not_eq_false] at hkilled
    cases hacts
    cases hact : x.user <;>
      simp [hact, userAct, hkilled, Pc.base, Pc.suspends] at h
  by_cases hslept : (s.pc q).base = .tsuspendSlept
  · generalize s.pc q = pc at hacts hbefore hslept
    cases hacts with
    | yielded | asleep =>
        simp only [finish_pc, setSlot_same] at h
        exact absurd (h.symm.trans hbefore) (by simp)
    | tsuspendSlept => simp [Pc.base, Pc.suspends] at h
    | _ => contradiction
  have hstays : Stays (fun _ => runsOn) s.pc next.pc :=
    hacts.stays (fun hpc => absurd hpc huser) (runsOn_within hbefore hslept)
  rcases hstays q with hwithin | hsame
  · cases hpoint : (next.pc q).base <;> rw [hpoint] at h hwithin <;> contradiction
  · rw [hsame, hbefore] at h
    contradiction

/-- Steps other than those of a thread's own code leave the marks alone, and
move a thread only behind a preemption, a sleep or to its exit. -/
theorem marks_of_step {s next : Sys} {label : Label}
    (hstep : s.step label = some next) :
    (∃ c x q, s.acting label = some q ∧ s.Acts c q x (s.pc q) next) ∨
      (∀ p, (next.proc p).killed = (s.proc p).killed) ∧
        ∀ p, (next.pc p).base = (s.pc p).base ∨ next.pc p = .exitFiles := by
  cases does_of_step hstep with
  | acts hq hacts => exact .inl ⟨_, _, _, hq, hacts⟩
  | schedAcquire | schedRelease => exact .inr ⟨fun _ => rfl, fun _ => .inl rfl⟩
  | schedPick =>
      refine .inr ⟨setSlot_field _ Proc.killed ?_, fun _ => .inl rfl⟩
      rfl
  | wakeup => exact .inr ⟨s.proc.wakeup1_killed _, fun _ => .inl rfl⟩
  | @leaves _ q _ _ _ hleaves =>
      have hpc : ∀ {pcs : Slot → Pc} {pc : Pc} (p : Slot),
          pc.base = (pcs q).base ∨ pc = .exitFiles →
            (setSlot pcs q pc p).base = (pcs p).base ∨
              setSlot pcs q pc p = .exitFiles := by
        intro pcs pc p h
        rw [setSlot_apply]
        split
        next heq =>
          rw [heq]
          exact h
        next => exact .inl rfl
      right
      cases hleaves with
      | killed => exact ⟨fun _ => rfl, fun p => hpc p (.inr rfl)⟩
      | preempt | block =>
          refine ⟨setSlot_field _ Proc.killed ?_, fun p => hpc p (.inl rfl)⟩
          rfl

def Unmarked (s : Sys) : Prop :=
  ∀ p, (s.pc p).base.suspends = true → (s.proc p).killed = false

theorem Unmarked.step {s next : Sys} {label : Label} (h : s.Unmarked)
    (hguard : s.sparesSuspending label = true)
    (hstep : s.step label = some next) : next.Unmarked := by
  intro p hp
  rcases marks_of_step hstep with ⟨c, x, q, hq, hacts⟩ | ⟨hkilled, hpc⟩
  · have hspares : ∀ p, s.marks q (s.pc q) p = true →
        (s.pc p).base.suspends = false := by
      simpa using actor_test hguard hq
    -- The thread was at such a point before, unless it comes from user code.
    have hwas : (s.pc p).base.suspends = true ∨
        p = q ∧ s.pc q = .user ∧ (s.proc q).killed = false := by
      by_cases heq : p = q
      · subst heq
        exact (hacts.suspends hp).imp_right fun h => ⟨rfl, h⟩
      · left
        rcases (Dozes.of_acts hq hacts).pc p heq with hsame | hnew
        · rwa [← hsame]
        · rw [hnew] at hp
          contradiction
    by_contra hmarked
    rw [Bool.not_eq_false] at hmarked
    rcases (Marks.of_acts hacts).sets p hmarked with hbefore | hvictim | hfault
    · rcases hwas with hwas | ⟨rfl, _, hkilled⟩
      · rw [h p hwas] at hbefore
        contradiction
      · rw [hkilled] at hbefore
        contradiction
    · rcases hwas with hwas | ⟨_, huser, _⟩
      · rw [hspares p hvictim] at hwas
        contradiction
      · rw [huser] at hvictim
        contradiction
    · rw [hfault.1, hfault.2] at hp
      contradiction
  · rw [hkilled]
    refine h p ?_
    rcases hpc p with hsame | hexit
    · rwa [← hsame]
    · rw [hexit] at hp
      contradiction

theorem userinit_unmarked (kstack pgdir : Frame) :
    (userinit kstack pgdir).Unmarked := by
  intro p _
  simp only [userinit, setSlot_apply]
  split <;> rfl

structure Heeds (s : Sys) : Prop where
  /-- A marked thread does not go to sleep in one of the four calls. -/
  awake : ∀ label next p, s.step label = some next →
    (s.proc p).killed = true → (s.proc p).state ≠ .sleeping →
      (next.pc p).blocks = true → (next.proc p).state ≠ .sleeping
  /-- The mark stays until the thread is a zombie. -/
  marked : ∀ label next p, s.step label = some next →
    (s.proc p).killed = true →
      (next.proc p).killed = true ∨ (s.proc p).state = .zombie
  /-- Its next step inside one of the calls ends the call. -/
  returns : ∀ label next q, s.step label = some next →
    s.acting label = some q → (s.proc q).killed = true →
      (s.pc q).waits = true →
        ∃ result, next.pc q = .trapret result ∨
          ∃ caller, next.pc q = tgkillReturn caller result
  /-- From the return of its system call it goes to `exit`. -/
  exits : ∀ label next q result, s.step label = some next →
    s.acting label = some q → (s.proc q).killed = true →
      s.pc q = .trapret result → next.pc q = .exitFiles

theorem Unmarked.awake {s next : Sys} {label : Label} {p : Slot}
    (h : s.Unmarked) (hstep : s.step label = some next)
    (hkilled : (s.proc p).killed = true) (hawake : (s.proc p).state ≠ .sleeping)
    (hblocks : (next.pc p).blocks = true) :
    (next.proc p).state ≠ .sleeping := by
  intro hsleeps
  rcases slept_or_falls hstep hsleeps with ⟨hslept, _⟩ | hfalls
  · exact hawake hslept
  · cases hfalls with
    | wait _ _ hnot | join _ _ hnot | tgkill _ _ hnot =>
        rw [hkilled] at hnot
        contradiction
    | tsuspend _ hpc =>
        rw [h p (by rw [hpc]; rfl)] at hkilled
        contradiction
    | block hnext =>
        rw [hnext] at hblocks
        contradiction

section Turns

variable {s next : Sys} {c : Cpu} {q : Slot}

theorem waitTurn_killed {nullHit : Slot → Bool}
    (hkilled : (s.proc q).killed = true)
    (h : s.waitTurn c q nullHit = some next) :
    ∃ result, next.pc q = .trapret result := by
  cases waitTurns_of_waitTurn h with
  | reaped => exact ⟨_, setSlot_same ..⟩
  | returned => exact ⟨_, setSlot_same ..⟩
  | sleeps _ hnot =>
      rw [hkilled] at hnot
      contradiction

theorem joinTurn_killed {p : Slot} {tid : Int} {tleader : Option Slot}
    (hkilled : (s.proc q).killed = true) :
    (s.joinTurn c q p tid tleader).pc q = .trapret (-1) := by
  rw [joinTurn, if_pos hkilled]
  exact setSlot_same ..

theorem tgkillTurn_killed {caller : TgkillCaller}
    (hkilled : (s.proc q).killed = true) :
    ∃ result, (s.tgkillTurn c q caller).pc q = tgkillReturn caller result := by
  unfold tgkillTurn
  dsimp only
  split
  · exact ⟨_, setSlot_same ..⟩
  · rw [if_pos hkilled]
    exact ⟨_, setSlot_same ..⟩

end Turns

theorem acts_of_acting {s next : Sys} {label : Label} {q : Slot}
    (hstep : s.step label = some next) (hact : s.acting label = some q) :
    ∃ c x, s.Acts c q x (s.pc q) next := by
  cases does_of_step hstep with
  | acts hq hacts =>
      cases hq.symm.trans hact
      exact ⟨_, _, hacts⟩
  | leaves _ hleaves => cases hleaves <;> contradiction
  | _ => contradiction

theorem Unmarked.returns {s next : Sys} {label : Label} {q : Slot}
    (h : s.Unmarked) (hstep : s.step label = some next)
    (hact : s.acting label = some q) (hkilled : (s.proc q).killed = true)
    (hwaits : (s.pc q).waits = true) :
    ∃ result, next.pc q = .trapret result ∨
      ∃ caller, next.pc q = tgkillReturn caller result := by
  obtain ⟨c, x, hacts⟩ := acts_of_acting hstep hact
  have htidy : ((s.tidy q).proc q).killed = true := by rwa [tidy_killed]
  have hmark : ((s.tgkillMark q).proc q).killed = true :=
    (s.proc.same_tgkillMark q q).killed hkilled
  have hsuspends : (s.pc q).suspends = false := by
    by_contra hpc
    rw [Bool.not_eq_false] at hpc
    have hbase : (s.pc q).base.suspends = true := by
      cases hpoint : s.pc q <;> rw [hpoint] at hpc <;> first | rfl | contradiction
    rw [h q hbase] at hkilled
    contradiction
  generalize s.pc q = pc at hacts hwaits hsuspends
  cases hacts with
  | waitLock _ hturn => exact (waitTurn_killed hkilled hturn).imp fun _ => .inl
  | waitSlept _ hturn => exact (waitTurn_killed htidy hturn).imp fun _ => .inl
  | joinScan =>
      refine ⟨-1, .inl ?_⟩
      simp only [joinScan, hkilled, if_true]
      split
      · exact setSlot_same ..
      · split <;> exact setSlot_same ..
  | joinLock => exact ⟨-1, .inl (joinTurn_killed hkilled)⟩
  | joinSlept => exact ⟨-1, .inl (joinTurn_killed htidy)⟩
  | @tgkillLock caller =>
      exact (tgkillTurn_killed hmark).imp fun _ hpc => .inr ⟨caller, hpc⟩
  | @tgkillSlept caller =>
      exact (tgkillTurn_killed htidy).imp fun _ hpc => .inr ⟨caller, hpc⟩
  | tsuspendSlept => exact ⟨0, .inl (setSlot_same ..)⟩
  | _ => contradiction

theorem Unmarked.heeds {s : Sys} (h : s.Unmarked) : s.Heeds where
  awake _ _ _ hstep hkilled hawake hblocks := h.awake hstep hkilled hawake hblocks
  marked label next p hstep hkilled := by
    rcases marks_of_step hstep with ⟨c, x, q, _, hacts⟩ | ⟨hsame, _⟩
    · exact (Marks.of_acts hacts).keeps p hkilled
    · exact .inl ((hsame p).trans hkilled)
  returns _ _ _ hstep hact hkilled hwaits := h.returns hstep hact hkilled hwaits
  exits label next q result hstep hact hkilled hpc := by
    obtain ⟨c, x, hacts⟩ := acts_of_acting hstep hact
    rw [hpc] at hacts
    cases hacts
    rw [if_pos hkilled]
    exact setSlot_same ..

/-- A mark is not slept through, if it never hits a thread on its way into the
sleep of `tsuspend`. -/
theorem kill_heeded {kstack pgdir : Frame} {s : Sys}
    (hreach : Reach Sys.step (fun s label => s.sparesSuspending label = true)
      (userinit kstack pgdir) s) : s.Heeds := by
  have hunmarked : s.Unmarked := hreach.invariant Unmarked
    (userinit_unmarked kstack pgdir) fun h hguard hstep => h.step hguard hstep
  exact hunmarked.heeds

/-- init makes a thread; the thread calls `tsuspend`, and sleeps before or after
init has killed it. -/
def suspendOn (c : Cpu) : List Label :=
  startOn 0 ++ cloneOn 0 (.clone TFLAGS 0) (.ok 0 8192) ++ startOn c ++
    [.run c { user := .call .tsuspend }, .run c {}]

def tkillOn (c : Cpu) (tid : Int) : List Label :=
  [.run c { user := .call (.tkill tid) }, .run c {}]

set_option maxRecDepth 4000

/-- Killed asleep, the thread returns from `tsuspend`. -/
theorem kill_heeded_asleep :
    ∃ s next : Sys, s.Heeds ∧ s.step (.run 1 {}) = some next ∧
      (s.proc 1).killed = true ∧ s.pc 1 = .tsuspendSlept ∧
        ∃ result, next.pc 1 = .trapret result := by
  have hrun : ((run Sys.step sparesSuspending (userinit 1 2)
      (suspendOn 1 ++ [.run 1 {}, .schedScan 1] ++ tkillOn 0 2 ++
        [.schedAcquire 1, .schedScan 1])).any fun s =>
          (s.proc 1).killed ∧ s.pc 1 = .tsuspendSlept ∧
            ((s.step (.run 1 {})).any fun next => next.pc 1 = .trapret 0)) =
              true := by
    decide +kernel
  obtain ⟨s, hreach, hkilled, hpc, hany⟩ := reach_of_run_any hrun
  obtain ⟨next, hstep, hnext⟩ := exists_of_any hany
  exact ⟨s, next, kill_heeded hreach, hstep, hkilled, hpc, 0, hnext⟩

/-- Killed on its way into the sleep, it sleeps through the mark. -/
theorem tsuspend_sleeps_killed :
    ¬ ∀ (s next : Sys) label p,
      Reach Sys.step (fun _ _ => True) (userinit 1 2) s →
      s.step label = some next → (s.proc p).killed = true →
      (s.proc p).state ≠ .sleeping → (next.pc p).blocks = true →
        (next.proc p).state ≠ .sleeping := by
  intro hawake
  have hrun : ((run Sys.step (fun _ _ => true) (userinit 1 2)
      (suspendOn 1 ++ tkillOn 0 2)).any fun s =>
        (s.proc 1).killed ∧ (s.proc 1).state ≠ .sleeping ∧
          ((s.step (.run 1 {})).any fun next => (next.pc 1).blocks ∧
            (next.proc 1).state = .sleeping)) = true := by
    decide +kernel
  obtain ⟨s, hreach, hkilled, hstate, hany⟩ := reach_of_run_any hrun
  obtain ⟨next, hstep, hnext⟩ := exists_of_any hany
  exact hawake s next _ 1 (hreach.mono fun _ _ _ => trivial) hstep hkilled hstate
    hnext.1 hnext.2

end Sys

end KernelThreads
