import KernelThreads.Sched.Kill
import KernelThreads.Group.Wait

namespace KernelThreads

open Lib

/-! What `clone` and the reapers leave in slots that are free, and what `kill`,
`wait` and the next `clone` make of it. -/

namespace Proc

/-- A free slot has no owner that `kill` or `wait` could take for a process. -/
structure Vacant (p : Proc) : Prop where
  pid : p.pid = 0
  tid : p.tid ≠ -1
  parent : p.parent = none

structure Sound (p : Proc) : Prop where
  free : p.state = .unused → p.Vacant
  used : p.state ≠ .unused → 0 < p.pid

namespace Sound

variable {before after : Proc}

theorem same (h : before.Sound) (hsame : before.Same after) : after.Sound where
  free hunused := by
    have hvacant := h.free ((hsame.state_eq rfl).mp hunused)
    exact ⟨hsame.pid.trans hvacant.pid, by rw [hsame.tid]; exact hvacant.tid,
      hsame.parent.trans hvacant.parent⟩
  used hused := by
    rw [hsame.pid]
    exact h.used fun hunused => hused ((hsame.state_eq rfl).mpr hunused)

theorem cleared (h : before.Cleared after) : after.Sound where
  free _ := ⟨h.pid, by rw [h.tid]; decide, h.parent⟩
  used hused := absurd h.state hused

theorem live (hstate : after.state ≠ .unused) (hpid : 0 < after.pid) :
    after.Sound where
  free hunused := absurd hunused hstate
  used _ := hpid

theorem write {array : Table} {slot : Slot} (h : ∀ p, (array p).Sound)
    (hslot : after.Sound) (p : Slot) : (setSlot array slot after p).Sound := by
  rw [setSlot_apply]
  split
  · exact hslot
  · exact h p

end Sound

end Proc

/-- The life of a slot: taken by `allocproc`, published, left by `exit` and
cleared by a reaper. -/
inductive Proc.Lives (before after : Proc) : Prop
  | same (h : after.state = before.state)
  | active (hbefore : before.state.active = true)
      (hafter : after.state.active = true)
  | taken (hbefore : before.state = .unused) (hafter : after.state = .embryo)
  | published (hbefore : before.state = .embryo)
      (hafter : after.state = .runnable)
  | exits (hafter : after.state = .zombie)
  | cleared (h : before.Cleared after)

namespace Sys

def chooses (s : Sys) (label : Label) (test : Pc → Choice → Bool) : Bool :=
  match label with
  | .run c x =>
      match (s.cpu c).proc with
      | none => true
      | some q => test (s.pc q) x
  | _ => true

theorem chooses_test {s next : Sys} {label : Label}
    {test : Pc → Choice → Bool} {q : Slot} (h : s.chooses label test = true)
    (hact : s.acting label = some q) (hstep : s.step label = some next) :
    ∃ c x, label = .run c x ∧ test (s.pc q) x = true ∧
      s.thread c q x (s.pc q) = some next := by
  cases label with
  | run c x =>
      have hq : (s.cpu c).proc = some q := hact
      obtain ⟨other, hother, hthread⟩ := onCpu_eq_some hstep
      rw [hq, Option.some.injEq] at hother
      subst hother
      simp only [chooses, hq] at h
      exact ⟨c, x, rfl, h, hthread⟩
  | _ => contradiction

/-- A `clone` that has taken a slot gets the memory it asks for. -/
def clonesWhole (s : Sys) (label : Label) : Bool :=
  s.chooses label fun point x =>
    match point, x.vm with
    | .cloneKstack .., _ => x.kalloc.isSome
    | .cloneSetup .., .ok .. => true
    | .cloneSetup .., _ => false
    | _, _ => true

section Whole

variable {s next : Sys} {label : Label} {q np : Slot} {flags : Flags}
  {childStack : Nat}

theorem whole_kstack (h : s.clonesWhole label = true)
    (hact : s.acting label = some q) (hstep : s.step label = some next)
    (hpc : s.pc q = .cloneKstack np flags childStack) :
    ∃ frame, next = s.cloneKstack q np flags childStack (some frame) := by
  obtain ⟨c, x, _, htest, hthread⟩ := chooses_test h hact hstep
  rw [hpc] at htest hthread
  obtain ⟨frame, hframe⟩ := Option.isSome_iff_exists.mp htest
  simp only [thread, hframe, Option.some.injEq] at hthread
  exact ⟨frame, hthread.symm⟩

theorem setupVm_ok (t : Table) (q tleader np : Slot) (flags : Flags)
    (childStack : Nat) (dir : Frame) (tstack : Nat) :
    ∃ p made, setupVm t q tleader np flags childStack (.ok dir tstack) =
      some (.done p made) := by
  unfold setupVm
  dsimp only
  split
  · exact ⟨_, _, rfl⟩
  · exact ⟨_, _, rfl⟩

theorem whole_setup (h : s.clonesWhole label = true)
    (hact : s.acting label = some q) (hstep : s.step label = some next)
    (hpc : s.pc q = .cloneSetup np flags childStack) :
    ∃ built dirs refs, built.state = (s.proc np).state ∧
      built.pid = (s.proc np).pid ∧
      next = { s.setProc np built with dirs := dirs, iref := refs }.goto q
        (.cloneIds np flags) := by
  obtain ⟨c, x, _, htest, hthread⟩ := chooses_test h hact hstep
  rw [hpc] at htest hthread
  cases hvm : x.vm <;> simp only [hvm] at htest
  case ok dir tstack =>
    simp only [thread, hvm, cloneSetup] at hthread
    split at hthread
    · contradiction
    next tleader _ =>
      obtain ⟨p, made, hdone⟩ := setupVm_ok s.proc q tleader np flags childStack
        dir tstack
      rw [hdone] at hthread
      dsimp only at hthread
      split at hthread
      · cases hthread
        have hbuilds := cloneCwd_builds (s := s) (q := q) rfl (setupVm_builds hdone)
        exact ⟨_, _, _, hbuilds.1, hbuilds.2.1, rfl⟩
      · contradiction
  all_goals contradiction

end Whole

section Lives

variable {s next : Sys} {label : Label} {q p : Slot} {reaped : Slot → Prop}

theorem lives_setSlot {array : Table} {slot : Slot} {value : Proc}
    (h : (array slot).Lives value) (p : Slot) :
    (array p).Lives (setSlot array slot value p) := by
  rw [setSlot_apply]
  split
  next heq =>
    rw [heq]
    exact h
  next => exact .same rfl

theorem lives_same {before after : Proc} (h : before.Same after) :
    before.Lives after := by
  rcases h.state with hstate | ⟨hbefore, hafter⟩
  · exact .same hstate
  · exact .active hbefore hafter

theorem Reaps.lives (h : s.Reaps next q reaped) (p : Slot) :
    (s.proc p).Lives (next.proc p) := by
  rcases h.proc p with ⟨_, hcleared⟩ | ⟨_, hsame⟩
  · exact .cleared hcleared
  · exact lives_same hsame

theorem lives_exit (t : Table) (cur p : Slot) :
    (t p).Lives (t.exitSlot cur p) := by
  by_cases heq : p = cur
  · rw [heq]
    exact .exits (t.exitSlot_zombie cur)
  · rcases (t.keeps_exitSlot heq).state with hstate | ⟨hbefore, hafter⟩
    · exact .same hstate
    · exact .active hbefore hafter

theorem lives_step (hcore : s.Core) (hsleeper : s.resumesSleeper label = true)
    (hwhole : s.clonesWhole label = true) (hstep : s.step label = some next)
    (p : Slot) : (s.proc p).Lives (next.proc p) := by
  cases hcore.effect hsleeper hstep with
  | quiet hquiet => exact lives_same (hquiet.same p)
  | allocates _ _ hfound =>
      refine lives_setSlot (.taken ?_ ?_) p
      · exact of_decide_eq_true (firstSlot_some hfound)
      · rfl
  | kstack hact hpc =>
      obtain ⟨frame, hnext⟩ := whole_kstack hwhole hact hstep hpc
      rw [hnext]
      refine lives_setSlot (.same ?_) p
      rfl
  | setup hact hpc =>
      obtain ⟨built, _, _, hstate, _, rfl⟩ := whole_setup hwhole hact hstep hpc
      exact lives_setSlot (.same hstate) p
  | ids =>
      unfold cloneIds
      split <;> refine lives_setSlot (.same ?_) p <;> rfl
  | @publish q np _ _ hpc =>
      refine lives_setSlot (.published (hcore.embryo (q := q) ?_) ?_) p
      · rw [hpc]
        rfl
      · rfl
  | files | chdir | commit =>
      refine lives_setSlot (.same ?_) p
      rfl
  | exit => exact lives_exit s.proc _ p
  | waited _ _ _ _ _ _ hreaps => exact hreaps.lives p
  | joined _ _ _ _ hreaps => exact hreaps.lives p
  | tgkilled _ _ hends => exact hends.reaps.lives p
  | handOff => exact .same (s.proc.rewired_handOff _ _ p).state

theorem marked_step (hcore : s.Core) (hstep : s.step label = some next)
    (hkilled : (next.proc p).killed = true) :
    (s.proc p).killed = true ∨ (s.proc p).state = .running ∨
      ∃ q, s.acting label = some q ∧ s.marks q (s.pc q) p = true := by
  rcases marks_of_step hstep with ⟨c, x, q, hact, hacts⟩ | ⟨hsame, _⟩
  · rcases (Marks.of_acts hacts).sets p hkilled with hbefore | hmarks | hfault
    · exact .inl hbefore
    · exact .inr (.inr ⟨q, hact, hmarks⟩)
    · rw [hfault.1]
      exact .inr (.inl (running_of_acting hcore hact))
  · exact .inl ((hsame p).symm.trans hkilled)

end Lives

structure Clean (s : Sys) : Prop where
  sound : ∀ p, (s.proc p).Sound
  killed : ∀ p, (s.proc p).state = .unused → (s.proc p).killed = false
  nextpid : 0 < s.nextpid

namespace Clean

variable {s next : Sys} {label : Label} {q p np : Slot}

theorem pid_pos (h : s.Clean) (hcore : s.Core) (hact : s.acting label = some q) :
    0 < (s.proc q).pid := by
  refine (h.sound q).used ?_
  rw [running_of_acting hcore hact]
  simp

theorem marks_used (h : s.Clean) (hpid : 0 < (s.proc q).pid) {point : Pc}
    (hmarks : s.marks q point p = true) : (s.proc p).state ≠ .unused := by
  intro hunused
  have hvacant := (h.sound p).free hunused
  have hother : (s.proc p).pid ≠ (s.proc q).pid := by
    rw [hvacant.pid]
    exact hpid.ne
  cases point with
  | killLock pid =>
      have htest := firstSlot_some (of_decide_eq_true hmarks)
      exact hvacant.tid (of_decide_eq_true htest).2
  | tkillLock tid =>
      have htest := firstSlot_some (of_decide_eq_true hmarks)
      exact hother (of_decide_eq_true htest).1
  | tgkillLock => exact hother (of_decide_eq_true hmarks).1
  | execLock => exact hother (of_decide_eq_true hmarks).2.1
  | _ => contradiction

theorem handOff_vacant {t : Table} {tleader : Slot} (hp : (t p).Vacant)
    (hpid : 0 < (t q).pid) (htid : (t q).tid ≠ -1) :
    (t.handOff q tleader p).Vacant := by
  have hother : (t p).pid ≠ (t q).pid := by
    rw [hp.pid]
    exact hpid.ne
  have hne : p ≠ q := fun heq => hother (by rw [heq])
  constructor
  · rw [(t.rewired_handOff q tleader p).pid]
    exact hp.pid
  · rw [Table.handOff_tid, if_neg hne]
    split
    · exact htid
    · exact hp.tid
  · have hgroup : ((t.handOffSwap q tleader).handOffChildren q tleader p).pid ≠
        ((t.handOffSwap q tleader).handOffChildren q tleader q).pid := by
      simpa only [(Table.handOffChildren_fields _ _ _ _).2.1,
        Table.handOffSwap_pid] using hother
    rw [Table.handOff, Table.handOffPeers, if_neg fun h => hgroup h.1,
      Table.handOffChildren_parent, Table.handOffSwap_parent, if_neg hne,
      hp.parent]
    simp

theorem sound_own (h : s.Clean) (hcore : s.Core) (hact : s.acting label = some q)
    {value : Proc} (hstate : value.state = (s.proc q).state)
    (hpid : value.pid = (s.proc q).pid) (p : Slot) :
    (setSlot s.proc q value p).Sound := by
  refine .write h.sound (.live ?_ ?_) p
  · rw [hstate, running_of_acting hcore hact]
    simp
  · rw [hpid]
    exact h.pid_pos hcore hact

theorem sound_child (h : s.Clean) (hcore : s.Core)
    (hcreates : (s.pc q).base.creates = some np) {value : Proc}
    (hstate : value.state = (s.proc np).state ∨ value.state = .runnable)
    (hpid : 0 < (s.proc np).pid → 0 < value.pid) (p : Slot) :
    (setSlot s.proc np value p).Sound := by
  have hembryo := hcore.embryo hcreates
  refine .write h.sound (.live ?_ (hpid ((h.sound np).used ?_))) p
  · rcases hstate with hstate | hstate <;> rw [hstate]
    · rw [hembryo]
      simp
    · simp
  · rw [hembryo]
    simp

theorem sound_reaps (h : s.Clean) {reaped : Slot → Prop}
    (hreaps : s.Reaps next q reaped) (p : Slot) : (next.proc p).Sound := by
  rcases hreaps.proc p with ⟨_, hcleared⟩ | ⟨_, hsame⟩
  · exact .cleared hcleared
  · exact (h.sound p).same hsame

theorem sound_exit (h : s.Clean) (hpid : 0 < (s.proc q).pid) (p : Slot) :
    (s.proc.exitSlot q p).Sound := by
  by_cases heq : p = q
  · subst heq
    refine .live ?_ ?_
    · rw [Table.exitSlot_zombie]
      simp
    · rw [(Table.exitSlot_fields s.proc p p).pid]
      exact hpid
  · have hkeeps := s.proc.keeps_exitSlot heq
    constructor
    · intro hunused
      have hvacant := (h.sound p).free ((hkeeps.state_eq rfl).mp hunused)
      have hchild : s.proc.isChild q p = false := by
        simp [Table.isChild, hvacant.tid]
      refine ⟨hkeeps.pid.trans hvacant.pid, ?_, ?_⟩
      · rw [hkeeps.tid]
        exact hvacant.tid
      · rw [Table.exitSlot_parent, hchild]
        exact hvacant.parent
    · intro hused
      rw [hkeeps.pid]
      exact (h.sound p).used fun hunused => hused ((hkeeps.state_eq rfl).mpr hunused)

theorem sound_step (h : s.Clean) (hcore : s.Core)
    (hsleeper : s.resumesSleeper label = true)
    (hwhole : s.clonesWhole label = true) (hstep : s.step label = some next)
    (p : Slot) : (next.proc p).Sound := by
  cases hcore.effect hsleeper hstep with
  | quiet hquiet => exact (h.sound p).same (hquiet.same p)
  | allocates =>
      refine .write h.sound (.live ?_ h.nextpid) p
      simp
  | @kstack q np _ _ _ hact hpc =>
      obtain ⟨frame, hnext⟩ := whole_kstack hwhole hact hstep hpc
      have hcreates := creates_at hpc rfl
      rw [hnext]
      refine h.sound_child hcore hcreates (.inl ?_) ?_ p
      · rfl
      · exact id
  | @setup q np _ _ _ hact hpc =>
      obtain ⟨built, dirs, refs, hstate, hpid, rfl⟩ :=
        whole_setup hwhole hact hstep hpc
      have hcreates := creates_at hpc rfl
      refine h.sound_child hcore hcreates (.inl hstate) ?_ p
      rw [hpid]
      exact id
  | @ids q np _ hact hpc =>
      have hpid := h.pid_pos hcore hact
      have hcreates := creates_at hpc rfl
      unfold cloneIds
      split
      · refine h.sound_child hcore hcreates (.inl ?_) (fun _ => ?_) p
        · rfl
        · exact hpid
      · refine h.sound_child hcore hcreates (.inl ?_) ?_ p
        · rfl
        · exact id
  | @publish q np _ _ hpc =>
      have hcreates := creates_at hpc rfl
      refine h.sound_child hcore hcreates (.inr ?_) ?_ p
      · rfl
      · exact id
  | files hact | chdir hact | commit hact =>
      refine h.sound_own hcore hact ?_ ?_ p
      · rfl
      · rfl
  | exit hact => exact h.sound_exit (h.pid_pos hcore hact) p
  | waited _ _ _ _ _ _ hreaps => exact h.sound_reaps hreaps p
  | joined _ _ _ _ hreaps => exact h.sound_reaps hreaps p
  | tgkilled _ _ hends => exact h.sound_reaps hends.reaps p
  | @handOff q leader hact _ htid =>
      have hrewired := s.proc.rewired_handOff q leader p
      constructor
      · intro hunused
        exact handOff_vacant ((h.sound p).free (hrewired.state.symm.trans hunused))
          (h.pid_pos hcore hact) htid
      · intro hused
        rw [finish_proc, hrewired.pid]
        exact (h.sound p).used fun hunused => hused (hrewired.state.trans hunused)

theorem nextpid_step (h : s.Clean) (hcore : s.Core)
    (hsleeper : s.resumesSleeper label = true)
    (hstep : s.step label = some next) : 0 < next.nextpid := by
  have hpos := h.nextpid
  cases hcore.effect hsleeper hstep with
  | quiet hquiet =>
      rw [hquiet.nextpid]
      exact hpos
  | allocates => exact Int.add_pos hpos one_pos
  | @kstack _ _ _ _ frame => cases frame <;> exact hpos
  | setup _ _ hends => cases hends <;> exact hpos
  | ids =>
      unfold cloneIds
      split <;> exact hpos
  | waited _ _ _ _ _ _ hreaps | joined _ _ _ _ hreaps =>
      rw [hreaps.nextpid]
      exact hpos
  | tgkilled _ _ hends =>
      rw [hends.reaps.nextpid]
      exact hpos
  | _ => exact hpos

theorem step (h : s.Clean) (hcore : s.Core)
    (hsleeper : s.resumesSleeper label = true)
    (hwhole : s.clonesWhole label = true) (hstep : s.step label = some next) :
    next.Clean where
  sound := h.sound_step hcore hsleeper hwhole hstep
  nextpid := h.nextpid_step hcore hsleeper hstep
  killed p hunused := by
    by_contra hmarked
    rw [Bool.not_eq_false] at hmarked
    have hbefore : (s.proc p).state = .unused := by
      cases lives_step hcore hsleeper hwhole hstep p with
      | same hstate => rw [← hstate, hunused]
      | active _ hactive =>
          rw [hunused] at hactive
          contradiction
      | cleared hcleared =>
          rw [hcleared.killed] at hmarked
          contradiction
      | taken _ hstate | published _ hstate | exits hstate =>
          rw [hunused] at hstate
          contradiction
    rcases marked_step hcore hstep hmarked with hwas | hrunning | ⟨q, hact, hmarks⟩
    · rw [h.killed p hbefore] at hwas
      contradiction
    · rw [hbefore] at hrunning
      contradiction
    · exact h.marks_used (h.pid_pos hcore hact) hmarks hbefore

end Clean

theorem userinit_clean (kstack pgdir : Frame) : (userinit kstack pgdir).Clean where
  sound p := by
    have hzero : ∀ _ : Slot, Proc.Sound {} := by
      intro _
      refine ⟨fun _ => ⟨rfl, ?_, rfl⟩, fun hused => absurd rfl hused⟩
      decide
    refine .write hzero (.live ?_ ?_) p
    · simp [userinitProc]
    · simp [userinitProc]
  killed p _ := by
    simp only [userinit, setSlot_apply]
    split <;> rfl
  nextpid := by simp [userinit]

inductive SlotEvent where
  | chosen (p : Slot)
  | marked (p : Slot)
  deriving DecidableEq, Repr

/-- `allocproc` chooses a slot; `kill`, `tkill`, `tgkill` and `exec` mark some. -/
def slotEvents (s : Sys) (label : Label) (_ : Sys) : List SlotEvent :=
  match s.acting label with
  | none => []
  | some q =>
      match s.pc q with
      | .allocproc .. => (s.proc.findUnused.map .chosen).toList
      | point => ((List.finRange NPROC).filter (s.marks q point)).map .marked

def MarkedSince (log : List SlotEvent) (p : Slot) : Prop :=
  ∃ before after, log = before ++ .marked p :: after ∧ .chosen p ∉ after

section Events

variable {s next : Sys} {label : Label} {q p : Slot} {log : List SlotEvent}

theorem chosen_unused (h : .chosen p ∈ s.slotEvents label next) :
    (s.proc p).state = .unused := by
  unfold slotEvents at h
  split at h
  · contradiction
  · split at h
    · rw [Option.mem_toList, Option.map_eq_some_iff] at h
      obtain ⟨found, hfound, heq⟩ := h
      cases heq
      exact of_decide_eq_true (firstSlot_some hfound)
    · simp at h

theorem MarkedSince.append {later : List SlotEvent} (h : MarkedSince log p)
    (hlater : .chosen p ∉ later) : MarkedSince (log ++ later) p := by
  obtain ⟨before, after, rfl, hafter⟩ := h
  refine ⟨before, after ++ later, by simp, ?_⟩
  simp [hafter, hlater]

theorem markedSince_of_marks (hact : s.acting label = some q)
    (hmarks : s.marks q (s.pc q) p = true) (hused : (s.proc p).state ≠ .unused) :
    MarkedSince (log ++ s.slotEvents label next) p := by
  have hmem : .marked p ∈ s.slotEvents label next := by
    simp only [slotEvents, hact]
    split
    next hpc =>
      rw [hpc] at hmarks
      contradiction
    next => simpa using hmarks
  obtain ⟨before, after, heq⟩ := List.append_of_mem hmem
  refine ⟨log ++ before, after, by rw [heq, List.append_assoc], fun hchosen => ?_⟩
  have hfree : .chosen p ∈ s.slotEvents label next := by
    rw [heq]
    simp [hchosen]
  exact hused (chosen_unused hfree)

end Events

def bornCalls : Syscall → Bool
  | .tresume _ => false
  | _ => true

structure BornAlive (log : List SlotEvent) (s : Sys) : Prop where
  kill : ∀ label next q pid, s.step label = some next →
    s.acting label = some q → s.pc q = .killLock pid → next.pc q = .trapret 0 →
      ∃ p, (s.proc p).state ≠ .unused ∧ (s.proc p).pid = pid
  tkill : ∀ label next q tid, s.step label = some next →
    s.acting label = some q → s.pc q = .tkillLock tid → next.pc q = .trapret 0 →
      ∃ p, (s.proc p).state ≠ .unused ∧ (s.proc p).tid = tid
  born : ∀ q np retid, s.pc q = .clonePublish np retid →
    (s.proc np).killed = true → MarkedSince log np

section Born

variable {s next : Sys} {label : Label} {q : Slot} {log : List SlotEvent}

theorem killFound_zero {found : Option Slot}
    (h : (s.killFound q found).pc q = .trapret 0) : ∃ p, found = some p := by
  cases found with
  | none => simp [killFound] at h
  | some p => exact ⟨p, rfl⟩

theorem kill_zero (hcore : s.Core) (hclean : s.Clean) (hstep : s.step label = some next)
    (hact : s.acting label = some q) (hreturn : next.pc q = .trapret 0) :
    (∀ pid, s.pc q = .killLock pid →
      ∃ p, (s.proc p).state ≠ .unused ∧ (s.proc p).pid = pid) ∧
    (∀ tid, s.pc q = .tkillLock tid →
      ∃ p, (s.proc p).state ≠ .unused ∧ (s.proc p).tid = tid) := by
  have hpid := hclean.pid_pos hcore hact
  cases does_of_step hstep with
  | acts hq hacts =>
      cases hq.symm.trans hact
      generalize hpc : s.pc q = point at hacts
      cases hacts with
      | @killLock pid =>
          obtain ⟨p, hp⟩ := killFound_zero hreturn
          have hmarks : s.marks q (.killLock pid) p = true := decide_eq_true hp
          refine ⟨fun pid hpoint => ⟨p, hclean.marks_used hpid hmarks, ?_⟩, nofun⟩
          cases hpoint
          exact (of_decide_eq_true (firstSlot_some hp)).1
      | @tkillLock tid =>
          obtain ⟨p, hp⟩ := killFound_zero hreturn
          have hmarks : s.marks q (.tkillLock tid) p = true := decide_eq_true hp
          refine ⟨nofun, fun tid hpoint => ⟨p, hclean.marks_used hpid hmarks, ?_⟩⟩
          cases hpoint
          exact (of_decide_eq_true (firstSlot_some hp)).2
      | _ => exact ⟨nofun, nofun⟩
  | leaves _ hleaves => cases hleaves <;> contradiction
  | _ => contradiction

def MarksKnown (log : List SlotEvent) (s : Sys) : Prop :=
  ∀ p, (s.proc p).state = .embryo → (s.proc p).killed = true →
    MarkedSince log p

theorem MarksKnown.step (h : s.MarksKnown log) (hcore : s.Core)
    (hclean : s.Clean) (hsleeper : s.resumesSleeper label = true)
    (hwhole : s.clonesWhole label = true) (hstep : s.step label = some next) :
    next.MarksKnown (log ++ s.slotEvents label next) := by
  intro p hembryo hkilled
  have hbefore : (s.proc p).state = .embryo ∨ (s.proc p).state = .unused := by
    cases lives_step hcore hsleeper hwhole hstep p with
    | same hstate => exact .inl (hstate.symm.trans hembryo)
    | active _ hactive =>
        rw [hembryo] at hactive
        contradiction
    | taken hunused => exact .inr hunused
    | published _ hstate | exits hstate =>
        rw [hembryo] at hstate
        contradiction
    | cleared hcleared =>
        rw [hcleared.killed] at hkilled
        contradiction
  rcases marked_step hcore hstep hkilled with hwas | hrunning | ⟨q, hact, hmarks⟩
  · rcases hbefore with hbefore | hunused
    · refine (h p hbefore hwas).append fun hchosen => ?_
      rw [chosen_unused hchosen] at hbefore
      contradiction
    · rw [hclean.killed p hunused] at hwas
      contradiction
  · rcases hbefore with hbefore | hbefore <;> rw [hrunning] at hbefore <;>
      contradiction
  · exact markedSince_of_marks hact hmarks
      (hclean.marks_used (hclean.pid_pos hcore hact) hmarks)

end Born

/-- Processes and threads are born alive, and `kill` and `tkill` succeed only
for those that exist. -/
theorem born_alive {kstack pgdir : Frame} {log : List SlotEvent} {s : Sys}
    (hhistory : History Sys.step
      (fun s label => (s.makes bornCalls label && s.clonesWhole label) = true)
      slotEvents (userinit kstack pgdir) log s) : s.BornAlive log := by
  have hinv : s.Core ∧ s.Clean ∧ (s.Within fun _ => bornCalls) ∧
      s.MarksKnown log := by
    refine hhistory.invariant (fun log s => s.Core ∧ s.Clean ∧
        (s.Within fun _ => bornCalls) ∧ s.MarksKnown log)
      ⟨userinit_core .., userinit_clean .., userinit_within _ _, ?_⟩ ?_
    · intro p _ hkilled
      simp only [userinit, setSlot_apply] at hkilled
      split at hkilled <;> contradiction
    · rintro log state label next ⟨hcore, hclean, hwithin, hknown⟩ hguard hstep
      simp only [Bool.and_eq_true] at hguard
      obtain ⟨hmakes, hwhole⟩ := hguard
      have hsleeper := resumesSleeper_of_within hwithin (fun _ => rfl) label
      exact ⟨hcore.step hsleeper hstep, hclean.step hcore hsleeper hwhole hstep,
        hwithin.makes hmakes hstep,
        hknown.step hcore hclean hsleeper hwhole hstep⟩
  obtain ⟨hcore, hclean, _, hknown⟩ := hinv
  refine ⟨?_, ?_, fun q np retid hpc hkilled => hknown np ?_ hkilled⟩
  · intro label next q pid hstep hact hpc hreturn
    exact (kill_zero hcore hclean hstep hact hreturn).1 pid hpc
  · intro label next q tid hstep hact hpc hreturn
    exact (kill_zero hcore hclean hstep hact hreturn).2 tid hpc
  · apply hcore.embryo (q := q)
    rw [hpc]
    rfl

def killedEmbryo : List Label :=
  startOn 0 ++ cloneOn 0 .fork (.ok 3 0) ++ startOn 1 ++
    [.run 1 { user := .call .fork }, .run 1 {}, .run 1 {},
      .run 1 { vm := .ok 4 0 }, .run 1 {},
      .run 0 { user := .call (.kill 3) }, .run 0 {}]

set_option maxRecDepth 4000

theorem born_alive_killedEmbryo :
    ∃ (log : List SlotEvent) (s : Sys), s.pc 1 = .clonePublish 2 3 ∧
      (s.proc 2).killed = true ∧ MarkedSince log 2 := by
  have hrun : ((runLog Sys.step
      (fun s label => s.makes bornCalls label && s.clonesWhole label)
      slotEvents (userinit 1 2) killedEmbryo).any fun result =>
        result.2.pc 1 = .clonePublish 2 3 ∧ (result.2.proc 2).killed = true) =
          true := by
    decide +kernel
  obtain ⟨log, s, hhistory, hpc, hkilled⟩ := history_of_runLog hrun
  exact ⟨log, s, hpc, hkilled, (born_alive hhistory).born 1 2 3 hpc hkilled⟩

/-- init forks without memory for the new address space, and kills the `pid`
that the attempt has drawn. -/
def killedAttempt : List Label :=
  startOn 0 ++ [.run 0 { user := .call .fork }, .run 0 {}, .run 0 {},
    .run 0 { vm := .copyuvmFails }, .run 0 {},
    .run 0 { user := .call (.kill 2) }]

/-- The slot of a `clone` that failed still has its `pid`, and `kill` finds
it. -/
theorem kill_finds_unused :
    ¬ ∀ log s, History Sys.step
        (fun s label => s.makes bornCalls label = true) slotEvents
        (userinit 1 2) log s → s.BornAlive log := by
  intro hborn
  have hrun : ((runLog Sys.step (fun s label => s.makes bornCalls label)
      slotEvents (userinit 1 2) killedAttempt).any fun result =>
        result.2.acting (.run 0 {}) = some 0 ∧ result.2.pc 0 = .killLock 2 ∧
        ((result.2.step (.run 0 {})).any fun next => next.pc 0 = .trapret 0) ∧
        ∀ p, (result.2.proc p).state ≠ .unused → (result.2.proc p).pid ≠ 2) =
          true := by
    decide +kernel
  obtain ⟨log, s, hhistory, hact, hpc, hany, hnone⟩ := history_of_runLog hrun
  obtain ⟨next, hstep, hnext⟩ := exists_of_any hany
  obtain ⟨p, hused, hpid⟩ := (hborn log s hhistory).kill (.run 0 {}) next 0 2
    hstep hact hpc hnext
  exact hnone p hused hpid

end Sys

end KernelThreads
