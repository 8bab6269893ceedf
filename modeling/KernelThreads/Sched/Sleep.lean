import KernelThreads.Sched.Effect

namespace KernelThreads

open Lib

/-! A thread goes to sleep only by its own step, and stays on its channel until
it is woken. -/

namespace Table

def Rests (t next : Table) : Prop :=
  ∀ p, (next p).state = .sleeping →
    (t p).state = .sleeping ∧ (next p).chan = (t p).chan

namespace Rests

theorem refl (t : Table) : t.Rests t := fun _ hp => ⟨hp, rfl⟩

theorem trans {first second third : Table} (hfirst : first.Rests second)
    (hsecond : second.Rests third) : first.Rests third := by
  intro p hp
  obtain ⟨hmiddle, hchan⟩ := hsecond p hp
  obtain ⟨hbefore, hchan'⟩ := hfirst p hmiddle
  exact ⟨hbefore, hchan.trans hchan'⟩

theorem write {t : Table} {slot : Slot} {value : Proc}
    (h : value.state = .sleeping →
      (t slot).state = .sleeping ∧ value.chan = (t slot).chan) :
    t.Rests (Lib.setSlot t slot value) := by
  intro p hp
  rw [setSlot_apply] at hp ⊢
  split at hp
  next heq =>
    rw [if_pos heq, heq]
    exact h hp
  next hne =>
    rw [if_neg hne]
    exact ⟨hp, rfl⟩

theorem setSlot (t : Table) {slot : Slot} {value : Proc}
    (h : value.state ≠ .sleeping) : t.Rests (Lib.setSlot t slot value) :=
  write fun hp => absurd hp h

theorem wakeup1 (t : Table) (chan : Option Chan) : t.Rests (t.wakeup1 chan) := by
  intro p hp
  simp only [Table.wakeup1] at hp ⊢
  split at hp
  · contradiction
  next hneither =>
    rw [if_neg hneither]
    exact ⟨hp, rfl⟩

theorem setSize (t : Table) (cur tleader : Slot) (sz : Nat) :
    t.Rests (t.setSize cur tleader sz) := by
  intro p hp
  unfold Table.setSize at hp ⊢
  split
  next heq =>
    rw [if_pos heq] at hp
    exact ⟨hp, rfl⟩
  next hne =>
    rw [if_neg hne] at hp
    exact ⟨hp, rfl⟩

theorem tgkillMark (t : Table) (cur : Slot) : t.Rests (t.tgkillMark cur) := by
  intro p hp
  simp only [Table.tgkillMark] at hp ⊢
  split at hp
  next hpeer =>
    simp only [Proc.markGroupKilled, Proc.markKilled] at hp
    split at hp
    · contradiction
    · exact absurd hp ‹_›
  next hpeer =>
    rw [if_neg hpeer]
    exact ⟨hp, rfl⟩

theorem tgkillReap (t : Table) (cur : Slot) : t.Rests (t.tgkillReap cur) := by
  intro p hp
  simp only [Table.tgkillReap] at hp ⊢
  split at hp
  · contradiction
  next hkept =>
    rw [if_neg hkept]
    exact ⟨hp, rfl⟩

theorem exitWakeup (t : Table) (cur : Slot) : t.Rests (t.exitWakeup cur) := by
  simp only [Table.exitWakeup]
  split
  · exact (wakeup1 t _).trans (wakeup1 _ _)
  · exact wakeup1 t _

theorem passToInit (t : Table) (cur : Slot) : t.Rests (t.passToInit cur) := by
  intro p hp
  simp only [Table.passToInit] at hp ⊢
  split at hp <;> split <;> exact ⟨hp, rfl⟩

theorem exitReparent (t : Table) (cur : Slot) :
    t.Rests (t.exitReparent cur) := by
  simp only [Table.exitReparent]
  split
  · exact (passToInit t cur).trans (wakeup1 _ _)
  · exact passToInit t cur

theorem exitSlot (t : Table) (cur : Slot) : t.Rests (t.exitSlot cur) :=
  ((exitWakeup t cur).trans (exitReparent _ cur)).trans (setSlot _ (by simp))

theorem handOff (t : Table) (cur tleader : Slot) :
    t.Rests (t.handOff cur tleader) := by
  intro p hp
  have hrewired := t.rewired_handOff cur tleader p
  rw [hrewired.state] at hp
  exact ⟨hp, hrewired.chan⟩

theorem killSlot (t : Table) (p : Slot) : t.Rests (t.killSlot p) := by
  refine setSlot t ?_
  simp only [Proc.markKilled]
  split
  · simp
  · assumption

theorem awake {t middle next : Table} {chan : Option Chan} {p : Slot}
    (hfirst : t.Rests middle) (hrest : (middle.wakeup1 chan).Rests next)
    (hp : (next p).state = .sleeping) : (t p).chan ≠ chan := by
  intro hchan
  have hmiddle := (hrest p hp).1
  have hslept := (wakeup1 middle chan p hmiddle).1
  rw [← (hfirst p hslept).2] at hchan
  simp [Table.wakeup1, hslept, hchan] at hmiddle

end Rests

theorem exitSlot_wakes (t : Table) {cur p : Slot} (htid : (t cur).tid ≠ -1)
    (hp : (t.exitSlot cur p).state = .sleeping) :
    (t p).chan ≠ slotChan (t.threadLeader cur) := by
  have hrest : (t.wakeup1 (slotChan (t.threadLeader cur))).Rests
      (t.exitSlot cur) := by
    refine (Rests.trans ?_ (Rests.exitReparent _ cur)).trans
      (Rests.setSlot _ (by simp))
    rw [exitWakeup, if_pos htid]
    exact .wakeup1 _ _
  exact (Rests.refl t).awake hrest hp

theorem exitSlot_wakes_parent (t : Table) {cur p : Slot}
    (hp : (t.exitSlot cur p).state = .sleeping) :
    (t p).chan ≠ slotChan (t cur).parent := by
  have hrest : ∀ woken : Table, t.Rests woken →
      (woken cur).parent = (t cur).parent → ((woken.wakeup1
        (slotChan (woken cur).parent)).Rests (t.exitSlot cur)) →
          (t p).chan ≠ slotChan (t cur).parent := by
    intro woken hfirst hparent hrest
    rw [← hparent]
    exact hfirst.awake hrest hp
  have hends : (t.exitWakeup cur).Rests (t.exitSlot cur) :=
    (Rests.exitReparent _ cur).trans (.setSlot _ (by simp))
  rw [exitWakeup] at hends
  split at hends
  · exact hrest _ (.wakeup1 _ _) (same_wakeup1 _ _ _).parent hends
  · exact hrest t (.refl t) rfl hends

theorem exitSlot_wakes_init (t : Table) {cur child p : Slot}
    (hchild : t.isChild cur child = true) (hzombie : (t child).state = .zombie)
    (hp : (t.exitSlot cur p).state = .sleeping) :
    (t p).chan ≠ slotChan (some initproc) := by
  have hwoken := same_exitWakeup t cur child
  have hsome : (firstSlot fun p => (t.exitWakeup cur).isChild cur p ∧
      ((t.exitWakeup cur) p).state = .zombie).isSome = true := by
    rw [Option.isSome_iff_ne_none]
    intro hnone
    have htest := firstSlot_eq_none_iff.mp hnone child
    simp [isChild, hwoken.parent, hwoken.tid, (hwoken.state_eq rfl).mpr hzombie]
      at htest hchild
    exact htest hchild.1 hchild.2
  have hpassed : (t.exitWakeup cur).Rests ((t.exitWakeup cur).passToInit cur) := by
    exact .passToInit _ _
  refine ((Rests.exitWakeup t cur).trans hpassed).awake ?_ hp
  rw [exitSlot, exitReparent, if_pos hsome]
  exact .setSlot _ (by simp)

end Table

namespace Sys

/-- How a thread goes to sleep: in one turn of a loop, in `tsuspend`, or on a
channel that is not a process slot. -/
inductive Falls (s : Sys) (label : Label) (next : Sys) (q : Slot) : Prop
  | wait (hact : s.acting label = some q)
      (hpc : s.pc q = .waitLock ∨ s.pc q = .waitSlept)
      (hkilled : (s.proc q).killed = false)
      (hnone : s.proc.waitFind q nullHit = none)
      (hnext : next.pc q = .waitSlept)
      (hchan : (next.proc q).chan = Table.slotChan (s.proc.threadLeader q))
  | join (hact : s.acting label = some q)
      (hpc : s.pc q = .joinLock p tid tleader ∨
        s.pc q = .joinSlept p tid tleader)
      (hkilled : (s.proc q).killed = false)
      (hzombie : (s.proc p).state ≠ .zombie)
      (hnext : next.pc q = .joinSlept p tid tleader)
      (hchan : (next.proc q).chan = Table.slotChan tleader)
  | tgkill (hact : s.acting label = some q)
      (hpc : s.pc q = .tgkillLock caller ∨ s.pc q = .tgkillSlept caller)
      (hkilled : (s.proc q).killed = false)
      (hlive : s.proc.tgkillLive q ≠ none)
      (hnext : next.pc q = .tgkillSlept caller)
      (hchan : (next.proc q).chan = some (.proc q))
  | tsuspend (hact : s.acting label = some q) (hpc : s.pc q = .tsuspendLock)
      (hnext : next.pc q = .tsuspendSlept)
  | block (hnext : next.pc q = .asleep (s.pc q))

/-- A step of `q` puts nobody else to sleep, and moves nobody but the thread
that it creates. -/
structure Dozes (s : Sys) (label : Label) (next : Sys) (q : Slot) : Prop where
  others : ∀ p, p ≠ q → (next.proc p).state = .sleeping →
    (s.proc p).state = .sleeping ∧ (next.proc p).chan = (s.proc p).chan
  pc : ∀ p, p ≠ q → next.pc p = s.pc p ∨ next.pc p = .forkret
  self : (next.proc q).state = .sleeping →
    (s.proc q).state = .sleeping ∨ s.Falls label next q

namespace Falls

variable {s next : Sys} {label : Label} {q : Slot}

theorem of_tidy (h : (s.tidy q).Falls label next q) : s.Falls label next q := by
  cases h with
  | wait hact hpc hkilled hnone hnext hchan =>
      rw [tidy_killed] at hkilled
      rw [tidy_waitFind] at hnone
      rw [tidy_threadLeader] at hchan
      exact .wait hact hpc hkilled hnone hnext hchan
  | join hact hpc hkilled hzombie hnext hchan =>
      rw [tidy_killed] at hkilled
      rw [tidy_state] at hzombie
      exact .join hact hpc hkilled hzombie hnext hchan
  | tgkill hact hpc hkilled hlive hnext hchan =>
      rw [tidy_killed] at hkilled
      rw [tidy_tgkillLive] at hlive
      exact .tgkill hact hpc hkilled hlive hnext hchan
  | tsuspend hact hpc hnext => exact .tsuspend hact hpc hnext
  | block hnext => exact .block hnext

end Falls

namespace Dozes

variable {s next : Sys} {label : Label} {c : Cpu} {q p : Slot} {x : Choice}

theorem stays (hrests : s.proc.Rests next.proc)
    (hpc : ∀ p, p ≠ q → next.pc p = s.pc p ∨ next.pc p = .forkret) :
    s.Dozes label next q where
  others p _ hp := hrests p hp
  pc := hpc
  self hq := .inl (hrests q hq).1

theorem goto (s : Sys) (label : Label) (q : Slot) (pc : Pc) : s.Dozes label (s.goto q pc) q :=
  .stays (.refl _) fun _ hne => .inl (setSlot_other _ _ hne)

theorem finish {t : Table} (hrests : s.proc.Rests t) (pc : Pc) :
    s.Dozes label ({ s with proc := t }.finish q pc) q :=
  .stays hrests fun _ hne => .inl (setSlot_other _ _ hne)

theorem sleep {t : Table} (hrests : s.proc.Rests t) {chan : Option Chan} {pc : Pc}
    (hfalls : s.Falls label ({ s with proc := t }.sleep c q chan pc) q) :
    s.Dozes label ({ s with proc := t }.sleep c q chan pc) q where
  others p hne hp := by
    simp only [Sys.sleep, sched_proc, setProc_proc, setSlot_other _ _ hne] at hp ⊢
    exact hrests p hp
  pc _ hne := .inl (setSlot_other _ _ hne)
  self _ := .inr hfalls

theorem of_tidy (h : (s.tidy q).Dozes label next q) : s.Dozes label next q where
  others p hne hp := by
    have hbefore := h.others p hne hp
    simpa only [tidy, setProc_proc, setSlot_other _ _ hne] using hbefore
  pc := h.pc
  self hq := by
    refine (h.self hq).imp (fun hslept => ?_) Falls.of_tidy
    rwa [tidy_state] at hslept

theorem child {value : Proc} {pc : Pc} {lock : Option Cpu} {nextpid : Int}
    {dirs : Frame → Bool} {iref : Nat → Nat}
    (h : value.state = .sleeping →
      (s.proc p).state = .sleeping ∧ value.chan = (s.proc p).chan) :
    s.Dozes label { s with
      proc := setSlot s.proc p value
      pc := setSlot s.pc q pc
      lock := lock
      nextpid := nextpid
      dirs := dirs
      iref := iref } q :=
  .stays (.write h) fun _ hne => .inl (setSlot_other _ _ hne)

theorem waitTurn {nullHit : Slot → Bool} (hact : s.acting label = some q)
    (hpc : s.pc q = .waitLock ∨ s.pc q = .waitSlept)
    (h : s.waitTurn c q nullHit = some next) : s.Dozes label next q := by
  cases waitTurns_of_waitTurn h with
  | reaped => exact .child fun hsleeps => by cases hsleeps
  | returned => exact .finish (.refl _) _
  | sleeps hnone hkilled =>
      exact .sleep (.refl _) (.wait hact hpc hkilled hnone (by simp [Sys.sleep])
        (by simp [Sys.sleep]))

theorem joinTurn {tid : Int} {tleader : Option Slot}
    (hact : s.acting label = some q)
    (hpc : s.pc q = .joinLock p tid tleader ∨ s.pc q = .joinSlept p tid tleader) :
    s.Dozes label (s.joinTurn c q p tid tleader) q := by
  unfold Sys.joinTurn
  split
  next => exact .finish (.refl _) _
  next hkilled =>
    split
    next => exact .child nofun
    next hzombie =>
      exact .sleep (.refl _) (.join hact hpc (by simpa using hkilled) hzombie
        (by simp [Sys.sleep]) (by simp [Sys.sleep]))

theorem tgkillTurn {t : Table} {caller : TgkillCaller}
    (hact : s.acting label = some q)
    (hpc : s.pc q = .tgkillLock caller ∨ s.pc q = .tgkillSlept caller)
    (hrests : s.proc.Rests t)
    (hkilled : (s.proc q).killed = true → (t q).killed = true)
    (hlive : t.tgkillLive q = s.proc.tgkillLive q) :
    s.Dozes label ({ s with proc := t }.tgkillTurn c q caller) q := by
  have hreap : s.proc.Rests (t.tgkillReap q) := hrests.trans (.tgkillReap _ _)
  unfold Sys.tgkillTurn
  dsimp only
  rw [hlive]
  split
  · exact .finish hreap _
  next hsome =>
    split
    · exact .finish hreap _
    next hnot =>
      refine .sleep hreap (.tgkill hact hpc ?_ ?_ (by simp [Sys.sleep])
        (by simp [Sys.sleep]))
      · exact Bool.eq_false_iff.mpr fun hq => hnot (hkilled hq)
      · rw [hsome]
        simp

theorem killFound (found : Option Slot) : s.Dozes label (s.killFound q found) q := by
  cases found with
  | none => exact .finish (.refl _) _
  | some p => exact .finish (.killSlot _ _) _

theorem setup {np : Slot} {flags : Flags} (hends : s.SetupEnds q np flags next) :
    s.Dozes label next q := by
  cases hends with
  | undone => exact .child nofun
  | left _ hbuilds =>
      refine .child fun hp => ⟨hbuilds.state.symm.trans hp, hbuilds.chan⟩
  | done _ hbuilds _ _ hcwd =>
      refine .child fun hp => ?_
      obtain ⟨rfl, _⟩ | ⟨_, rfl, _⟩ := cloneCwd_cases hcwd
      all_goals exact ⟨hbuilds.state.symm.trans hp, hbuilds.chan⟩

theorem exitFiles (h : s.exitFiles q = some next) : s.Dozes label next q := by
  obtain ⟨_, rfl⟩ := exitFiles_eq_some h
  exact .child fun hp => ⟨hp, rfl⟩

theorem kernelAct {act : KernelAct} (h : s.kernelAct q act = some next) :
    s.Dozes label next q := by
  cases kernelActs_of_kernelAct h with
  | ret => exact .goto ..
  | grow => exact .stays (.setSize _ _ _ _) fun _ hne => .inl (setSlot_other _ _ hne)
  | chdir => exact .child fun hp => ⟨hp, rfl⟩

theorem execLock {tleader : Option Slot} (h : s.execLock q tleader = some next) :
    s.Dozes label next q := by
  cases execLocks_of_execLock h with
  | leads => exact .finish (.refl _) _
  | handOff => exact .finish (.handOff _ _ _) _

theorem execLoad {image : Option (Frame × Nat)}
    (h : s.execLoad q image = some next) : s.Dozes label next q := by
  cases loads_of_execLoad h with
  | failed => exact .goto ..
  | done => exact .child fun hp => ⟨hp, rfl⟩

theorem of_acts (hact : s.acting label = some q)
    (hacts : s.Acts c q x (s.pc q) next) : s.Dozes label next q := by
  generalize hpc : s.pc q = pc at hacts
  cases hacts with
  | user =>
      cases x.user with
      | call call => exact .goto ..
      | fault => exact .child fun hp => ⟨hp, rfl⟩
  | kernel h => exact .kernelAct h
  | asleep => exact .of_tidy (.finish (.refl _) _)
  | allocproc =>
      unfold Sys.allocproc
      split
      · exact .finish (.refl _) _
      · exact .child fun hsleeps => by cases hsleeps
  | @cloneKstack np =>
      cases x.kalloc with
      | none => exact .child fun hsleeps => by cases hsleeps
      | some frame =>
          refine .stays (.write fun hp => ⟨hp, rfl⟩) fun p hne => ?_
          simp only [cloneKstack, goto_pc, setProc_pc, setSlot_other _ _ hne]
          by_cases heq : p = np
          · exact .inr (by rw [heq, setSlot_same])
          · exact .inl (setSlot_other _ _ heq)
  | cloneSetup h => exact .setup (setup_ends h)
  | cloneIds =>
      unfold Sys.cloneIds
      split <;> exact .child fun hp => ⟨hp, rfl⟩
  | clonePublish => exact .child fun hsleeps => by cases hsleeps
  | exitFiles h => exact .exitFiles h
  | exitLock =>
      exact .stays (.exitSlot _ _) fun _ hne => .inl (setSlot_other _ _ hne)
  | waitLock _ h => exact .waitTurn hact (.inl hpc) h
  | waitSlept _ h => exact .of_tidy (.waitTurn hact (.inr hpc) h)
  | joinScan =>
      unfold Sys.joinScan
      split
      · exact .goto ..
      · split
        · exact .goto ..
        · split <;> exact .goto ..
  | joinLock => exact .joinTurn hact (.inl hpc)
  | joinSlept => exact .of_tidy (.joinTurn hact (.inr hpc))
  | killLock | tkillLock => exact .killFound _
  | tgkillLock =>
      exact .tgkillTurn hact (.inl hpc) (.tgkillMark _ _)
        (s.proc.same_tgkillMark q q).killed mark_tgkillLive
  | tgkillSlept =>
      exact .of_tidy (.tgkillTurn hact (.inr hpc) (.refl _) id rfl)
  | tsuspendLock =>
      exact .sleep (.refl _) (.tsuspend hact hpc (by simp [Sys.sleep]))
  | tsuspendSlept => exact .of_tidy (.finish (.refl _) _)
  | tresumeScan =>
      unfold Sys.tresumeScan
      split
      · exact .goto ..
      · split
        · exact .goto ..
        · split <;> exact .goto ..
  | tresumeLock => exact .finish (.setSlot _ (by simp)) _
  | execLock _ h => exact .execLock h
  | execLoad h => exact .execLoad h
  | forkret | yielded => exact .finish (.refl _) _
  | _ => exact .goto ..

theorem of_leaves (hleaves : s.Leaves c q label next) : s.Dozes label next q := by
  cases hleaves with
  | killed => exact .goto ..
  | preempt =>
      exact .stays (.setSlot _ (by simp)) fun _ hne =>
        .inl (setSlot_other _ _ hne)
  | block => exact .sleep (.refl _) (.block (by simp [Sys.sleep]))

end Dozes

/-- A thread that sleeps after a step slept before it, or goes to sleep by
itself. -/
theorem slept_or_falls {s next : Sys} {label : Label} {q : Slot}
    (hstep : s.step label = some next)
    (hsleeps : (next.proc q).state = .sleeping) :
    (s.proc q).state = .sleeping ∧
        ((next.proc q).chan = (s.proc q).chan ∧
            (next.pc q = s.pc q ∨ next.pc q = .forkret) ∨
          ∃ c, (s.cpu c).proc = some q) ∨
      s.Falls label next q := by
  -- Schedulers and wakeups put nobody to sleep and move nobody.
  have hidle : s.proc.Rests next.proc → next.pc = s.pc →
      (s.proc q).state = .sleeping ∧ ((next.proc q).chan = (s.proc q).chan ∧
          (next.pc q = s.pc q ∨ next.pc q = .forkret) ∨
        ∃ c, (s.cpu c).proc = some q) := by
    intro hrests hsame
    obtain ⟨hbefore, hchan⟩ := hrests q hsleeps
    exact ⟨hbefore, .inl ⟨hchan, .inl (by rw [hsame])⟩⟩
  have hruns : ∀ {c actor}, (s.cpu c).proc = some actor →
      s.Dozes label next actor →
        (s.proc q).state = .sleeping ∧ ((next.proc q).chan = (s.proc q).chan ∧
            (next.pc q = s.pc q ∨ next.pc q = .forkret) ∨
          ∃ c, (s.cpu c).proc = some q) ∨ s.Falls label next q := by
    intro c actor hactor hdozes
    by_cases heq : q = actor
    · subst heq
      exact (hdozes.self hsleeps).imp_left fun hbefore =>
        ⟨hbefore, .inr ⟨c, hactor⟩⟩
    · obtain ⟨hbefore, hchan⟩ := hdozes.others q heq hsleeps
      exact .inl ⟨hbefore, .inl ⟨hchan, hdozes.pc q heq⟩⟩
  cases does_of_step hstep with
  | schedAcquire => exact .inl (hidle (.refl _) rfl)
  | schedRelease => exact .inl (hidle (.refl _) rfl)
  | schedPick => exact .inl (hidle (.setSlot _ (by simp)) rfl)
  | wakeup => exact .inl (hidle (.wakeup1 _ _) rfl)
  | leaves hq hleaves => exact hruns hq (.of_leaves hleaves)
  | acts hq hacts => exact hruns hq (.of_acts hq hacts)

theorem Core.slept_or_falls {s next : Sys} {label : Label} {q : Slot}
    (hcore : s.Core) (hstep : s.step label = some next)
    (hsleeps : (next.proc q).state = .sleeping)
    (hpc : next.pc q ≠ .forkret) :
    ((s.proc q).state = .sleeping ∧ (next.proc q).chan = (s.proc q).chan ∧
        next.pc q = s.pc q) ∨ s.Falls label next q := by
  rcases Sys.slept_or_falls hstep hsleeps with ⟨hslept, hstays | ⟨c, hq⟩⟩ | hfalls
  · exact .inl ⟨hslept, hstays.1, hstays.2.resolve_right hpc⟩
  · rw [hcore.running hq] at hslept
    contradiction
  · exact .inr hfalls

/-- A thread that sleeps inside `join` after a step slept there before, or has
just run a turn of the loop. -/
theorem join_sleeper {s next : Sys} {label : Label} {q p : Slot} {tid : Int}
    {tleader : Option Slot} (hcore : s.Core) (hstep : s.step label = some next)
    (hsleeps : (next.proc q).state = .sleeping)
    (hpc : next.pc q = .joinSlept p tid tleader) :
    (s.proc q).state = .sleeping ∧ (next.proc q).chan = (s.proc q).chan ∧
        s.pc q = .joinSlept p tid tleader ∨
      s.acting label = some q ∧
        (s.pc q = .joinLock p tid tleader ∨ s.pc q = .joinSlept p tid tleader) ∧
          (s.proc q).killed = false ∧ (s.proc p).state ≠ .zombie ∧
            (next.proc q).chan = Table.slotChan tleader := by
  rcases hcore.slept_or_falls hstep hsleeps (by rw [hpc]; simp) with
    ⟨hslept, hchan, hsame⟩ | hfalls
  · exact .inl ⟨hslept, hchan, by rw [← hsame, hpc]⟩
  · right
    cases hfalls with
    | join hact hpoint hkilled hzombie hnext hchan =>
        cases hpc.symm.trans hnext
        exact ⟨hact, hpoint, hkilled, hzombie, hchan⟩
    | wait _ _ _ _ hnext | tgkill _ _ _ _ hnext | tsuspend _ _ hnext
    | block hnext => cases hpc.symm.trans hnext

end Sys

end KernelThreads
