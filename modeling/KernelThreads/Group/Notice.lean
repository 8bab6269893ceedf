import KernelThreads.Group.Join
import KernelThreads.Group.Kin

namespace KernelThreads

open Lib

/-! Whoever waits for an exit is awake when it has happened. -/

namespace Sys

theorem Kin.numbered {s : Sys} (h : s.Kin) : s.Numbered where
  pids p hp := ⟨h.pids p hp, h.below p⟩
  fresh c np p hnp _ hne hpid := by
    rw [(h.fresh c np p (Pc.creates_of_unnamed hnp) hne hpid).1] at hnp
    contradiction
  bare := h.bare

section Steps

variable {s next : Sys} {label : Label} {q p : Slot}

theorem Effect.was_zombie (heffect : s.Effect label next) (hcore : s.Core)
    (hexec : s.execsLed label = true) (hp : (next.proc p).state = .zombie) :
    (∃ q c, s.acting label = some q ∧ s.pc q = .exitLock ∧
        next = s.exitLock c q) ∨
      (s.proc p).state = .zombie ∧ (next.proc p).tid = (s.proc p).tid ∧
        (next.proc p).parent = (s.proc p).parent := by
  have hreaps : ∀ {q : Slot} {reaped : Slot → Prop}, s.Reaps next q reaped →
      (s.proc p).state = .zombie ∧ (next.proc p).tid = (s.proc p).tid ∧
        (next.proc p).parent = (s.proc p).parent := by
    intro q reaped hreaps
    rcases hreaps.proc p with ⟨_, hclear⟩ | ⟨_, hsame⟩
    · rw [hclear.state] at hp
      contradiction
    · exact ⟨(hsame.state_eq rfl).mp hp, hsame.tid, hsame.parent⟩
  have hchild : ∀ {q np : Slot}, s.OnChild next q np →
      (next.proc np).state ≠ .zombie →
        (s.proc p).state = .zombie ∧ (next.proc p).tid = (s.proc p).tid ∧
          (next.proc p).parent = (s.proc p).parent := by
    intro q np hon hborn
    have hne : p ≠ np := by
      rintro rfl
      exact hborn hp
    rw [hon.proc p hne] at hp ⊢
    exact ⟨hp, rfl, rfl⟩
  have hembryo : ∀ {q np : Slot}, (s.pc q).base.creates = some np →
      (s.proc np).state = .embryo := hcore.embryo
  cases heffect with
  | quiet hquiet => exact .inr (hreaps hquiet.toReaps)
  | waited _ _ _ _ _ _ hreaped => exact .inr (hreaps hreaped)
  | joined _ _ _ _ hreaped => exact .inr (hreaps hreaped)
  | tgkilled _ _ hends => exact .inr (hreaps hends.reaps)
  | allocates hact hpc hfound =>
      exact .inr (hchild (.allocates hcore (running_of_acting hcore hact) hpc hfound)
        (by simp))
  | @kstack q np _ _ frame _ hpc =>
      have hembryo := hembryo (q := q) (by rw [hpc]; rfl)
      refine .inr (hchild (.kstack hcore hpc frame) ?_)
      cases frame <;> simp [cloneKstack, hembryo]
  | @setup q np _ _ _ _ hpc hends =>
      have hembryo := hembryo (q := q) (by rw [hpc]; rfl)
      refine .inr (hchild (.setup hcore hpc hends) ?_)
      cases hends with
      | undone => simp [undo]
      | left _ hbuilds => simp [hbuilds.state, hembryo]
      | done _ hbuilds _ _ hcwd =>
          simp [(cloneCwd_builds hcwd hbuilds).1, hembryo]
  | @ids q np _ _ hpc =>
      have hembryo := hembryo (q := q) (by rw [hpc]; rfl)
      refine .inr (hchild (.ids hcore hpc) ?_)
      unfold cloneIds
      split <;> simp [hembryo]
  | publish _ hpc =>
      exact .inr (hchild (.publish hcore hpc) (by simp [clonePublish]))
  | files | chdir | commit =>
      refine .inr ⟨Eq.trans (Eq.symm ?_) hp, setSlot_field _ Proc.tid ?_ p,
        setSlot_field _ Proc.parent ?_ p⟩
      · refine setSlot_field _ Proc.state ?_ p
        rfl
      all_goals rfl
  | exit hact hpc => exact .inl ⟨_, _, hact, hpc, rfl⟩
  | handOff hact hpc htid => exact absurd (execs_led hexec hact hpc) htid

theorem Effect.parent_kept (heffect : s.Effect label next) (hcore : s.Core)
    (hexec : s.execsLed label = true) (hused : (s.proc p).state ≠ .unused)
    (hnamed : ∀ c, (s.pc c).base.unnamed ≠ some p)
    (htid : (s.proc p).tid ≠ -1) (hlive : (next.proc p).state ≠ .unused) :
    (next.proc p).parent = (s.proc p).parent := by
  by_cases hzombie : (s.proc p).state = .zombie
  · rcases heffect.zombie hcore hzombie with hstays | ⟨hunused, _⟩
    · rcases heffect.was_zombie hcore hexec hstays with
        ⟨q, c, _, _, rfl⟩ | ⟨_, _, hparent⟩
      · refine (s.proc.exitSlot_parent q p).trans (if_neg ?_)
        simp [Table.isChild, htid]
      · exact hparent
    · exact absurd hunused hlive
  · exact (heffect.carried hcore hexec hused hzombie hnamed).parent htid

theorem Effect.leader_kept (heffect : s.Effect label next) (hcore : s.Core)
    (hexec : s.execsLed label = true)
    (hactive : (s.proc p).state.active = true) :
    (next.proc p).tid = (s.proc p).tid ∧
      (next.proc p).pid = (s.proc p).pid ∧
        next.proc.threadLeader p = s.proc.threadLeader p := by
  have hcarried : s.Carried label next p := by
    refine heffect.carried hcore hexec (ProcState.ne_unused hactive) ?_ ?_
    · intro hzombie
      rw [hzombie] at hactive
      contradiction
    · intro c hc
      rw [hcore.embryo (Pc.creates_of_unnamed hc)] at hactive
      contradiction
  refine ⟨hcarried.tid, hcarried.pid, ?_⟩
  rw [Table.threadLeader, Table.threadLeader, hcarried.tid]
  split
  next => rfl
  next htid => exact hcarried.parent htid

end Steps

def exitsRooted (s : Sys) (label : Label) : Bool :=
  s.actor label fun q point =>
    match point with
    | .exitLock => (s.proc q).parent ≠ some q
    | _ => true

theorem exits_rooted {s : Sys} {label : Label} {q : Slot}
    (h : s.exitsRooted label = true) (hact : s.acting label = some q)
    (hpc : s.pc q = .exitLock) : (s.proc q).parent ≠ some q := by
  have htest := actor_test h hact
  simpa [hpc] using htest

def Live (s : Sys) (p : Slot) : Prop :=
  (s.proc p).state ≠ .unused ∧ (s.proc p).state ≠ .zombie

/-- Nobody sleeps in `wait`, `join` or `tgkill` when what it waits for has
happened. -/
structure Notices (s : Sys) : Prop where
  wait : ∀ q p, (s.proc q).state = .sleeping → s.pc q = .waitSlept →
    (s.proc p).state = .zombie → (s.proc p).tid = -1 →
      (s.proc p).parent ≠ s.proc.threadLeader q
  join : ∀ q p tid tleader, (s.proc q).state = .sleeping →
    s.pc q = .joinSlept p tid tleader → (s.proc p).state = .zombie →
      (s.proc p).tid ≠ tid
  tgkill : ∀ q caller, (s.proc q).state = .sleeping → (s.proc q).tid = -1 →
    s.pc q = .tgkillSlept caller →
      ∃ p, (s.proc p).pid = (s.proc q).pid ∧ (s.proc p).tid ≠ -1 ∧ s.Live p

/-- The channels on which they sleep, and what a thread in `join` knows of the
slot it has found. -/
structure Channels (s : Sys) : Prop where
  wait : ∀ q, (s.proc q).state = .sleeping → s.pc q = .waitSlept →
    (s.proc q).chan = Table.slotChan (s.proc.threadLeader q)
  join : ∀ q p tid tleader, (s.proc q).state = .sleeping →
    s.pc q = .joinSlept p tid tleader →
      (s.proc q).chan = Table.slotChan tleader
  tgkill : ∀ q caller, (s.proc q).state = .sleeping →
    s.pc q = .tgkillSlept caller → (s.proc q).chan = some (.proc q)
  sought : ∀ q p tid tleader, (s.proc q).state.active = true →
    (s.pc q).base.joins = some (p, tid, tleader) →
      tid ≠ -1 ∧ tid < s.nextpid ∧
        (∀ c np, (s.pc c).base.unnamed = some np → (s.proc np).pid ≠ tid) ∧
        ((s.proc p).tid = tid → tid ≠ 0 → (s.proc p).parent = tleader)

theorem Channels.step {s next : Sys} {label : Label} (h : s.Channels)
    (hcore : s.Core) (hkin : s.Kin) (hidentified : s.Identified)
    (hidentified' : next.Identified) (hexec : s.execsLed label = true)
    (heffect : s.Effect label next) (hstep : s.step label = some next) :
    next.Channels := by
  constructor
  case wait =>
    intro q hsleeps hpc
    rcases hcore.slept_or_falls hstep hsleeps (by rw [hpc]; simp) with
      ⟨hslept, hchan, hsame⟩ | hfalls
    · obtain ⟨_, _, hleader⟩ :=
        heffect.leader_kept hcore hexec (p := q) (by rw [hslept]; rfl)
      rw [hchan, hleader]
      exact h.wait q hslept (hsame.symm.trans hpc)
    · cases hfalls with
      | wait hact _ _ _ _ hchan =>
          have hrunning := running_of_acting hcore hact
          obtain ⟨_, _, hleader⟩ :=
            heffect.leader_kept hcore hexec (p := q) (by rw [hrunning]; rfl)
          rw [hchan, hleader]
      | join _ _ _ _ hnext | tgkill _ _ _ _ hnext | tsuspend _ _ hnext
      | block hnext => cases hpc.symm.trans hnext
  case join =>
    intro q p tid tleader hsleeps hpc
    rcases join_sleeper hcore hstep hsleeps hpc with
      ⟨hslept, hchan, hsame⟩ | ⟨_, _, _, _, hchan⟩
    · exact hchan.trans (h.join q p tid tleader hslept hsame)
    · exact hchan
  case tgkill =>
    intro q caller hsleeps hpc
    rcases hcore.slept_or_falls hstep hsleeps (by rw [hpc]; simp) with
      ⟨hslept, hchan, hsame⟩ | hfalls
    · exact hchan.trans (h.tgkill q caller hslept (hsame.symm.trans hpc))
    · cases hfalls with
      | tgkill _ _ _ _ _ hchan => exact hchan
      | wait _ _ _ _ hnext | join _ _ _ _ hnext | tsuspend _ _ hnext
      | block hnext => cases hpc.symm.trans hnext
  case sought =>
    intro q p tid tleader hactive hjoins
    obtain ⟨hbefore, hfound⟩ := heffect.joins hcore hactive hjoins
    have hdraws := Draws.of_effect hcore hexec heffect
    have hnextpid := hdraws.nextpid
    have hknown : tid ≠ -1 ∧ tid < s.nextpid ∧
        (∀ c np, (s.pc c).base.unnamed = some np → (s.proc np).pid ≠ tid) ∧
        ((s.proc p).tid = tid → tid ≠ 0 → (s.proc p).parent = tleader) := by
      rcases hfound with hsame | ⟨hne, heq, hfind⟩
      · exact h.sought q p tid tleader hbefore hsame
      · have htest := firstSlot_some hfind
        simp only [decide_eq_true_eq] at htest
        refine ⟨hne, ?_, fun c np hnp hpid => ?_, fun _ _ => ?_⟩
        · by_cases hzero : tid = 0
          · have hpos := hkin.pids q (ProcState.ne_unused hbefore)
            have hbelow := hkin.below q
            omega
          · rw [← htest.1] at hne hzero ⊢
            exact (hidentified.range p hne hzero).2.1
        · exact hidentified.fresh c np p hnp (htest.1.trans hpid.symm)
        · exact htest.2.trans heq.symm
    obtain ⟨hne, hbelow, hpending, hparent⟩ := hknown
    refine ⟨hne, by omega, fun c np hnp hpid => ?_, fun htid hzero => ?_⟩
    · rcases hdraws.pending c np hnp with ⟨hwas, hsame⟩ | hfresh
      · exact hpending c np hwas (hsame.symm.trans hpid)
      · omega
    · -- The slot had this `tid` before, and is not reaped.
      have hwas : (s.proc p).tid = tid := by
        rcases hdraws.tids p with ⟨hsame, _⟩ | hsame | hsame | ⟨c, np, hnp, hsame⟩
        · exact hsame.symm.trans htid
        · exact absurd (htid.symm.trans hsame) hzero
        · exact absurd (htid.symm.trans hsame) hne
        · exact absurd (hsame.symm.trans htid) (hpending c np hnp)
      have hused := (hidentified.range p (by rwa [hwas]) (by rwa [hwas])).2.2
      have hlive := (hidentified'.range p (by rwa [htid]) (by rwa [htid])).2.2
      have hnamed : ∀ c, (s.pc c).base.unnamed ≠ some p := by
        intro c hc
        rcases hidentified.blank c p hc with hblank | hblank
        · exact hne (hwas.symm.trans hblank)
        · exact hzero (hwas.symm.trans hblank)
      rw [heffect.parent_kept hcore hexec hused hnamed (by rwa [hwas]) hlive]
      exact hparent hwas hzero

section Noticed

variable {s next : Sys} {label : Label} {q p : Slot}

theorem zombie_of_exit (t : Table) {cur p q : Slot} {leader : Option Slot}
    (hrooted : (t cur).parent ≠ some cur)
    (hq : (t.exitSlot cur q).state = .sleeping)
    (hchan : (t q).chan = Table.slotChan leader)
    (hp : (t.exitSlot cur p).state = .zombie)
    (hparent : (t.exitSlot cur p).parent = leader) :
    (t p).state = .zombie ∧ (t p).parent = leader := by
  rw [t.exitSlot_parent] at hparent
  by_cases heq : p = cur
  · subst heq
    rw [if_neg (by simp [Table.isChild, hrooted])] at hparent
    rw [← hparent] at hchan
    exact absurd hchan (t.exitSlot_wakes_parent hq)
  · have hwas := ((t.keeps_exitSlot heq).state_eq rfl).mp hp
    split at hparent
    next hchild =>
      rw [← hparent] at hchan
      exact absurd hchan (t.exitSlot_wakes_init hchild hwas hq)
    next => exact ⟨hwas, hparent⟩

theorem Notices.wait_step (h : s.Notices) (hchannels : s.Channels)
    (hcore : s.Core) (hexec : s.execsLed label = true)
    (hrooted : s.exitsRooted label = true)
    (heffect : s.Effect label next) (hstep : s.step label = some next)
    (hsleeps : (next.proc q).state = .sleeping) (hpc : next.pc q = .waitSlept)
    (hzombie : (next.proc p).state = .zombie) (htid : (next.proc p).tid = -1) :
    (next.proc p).parent ≠ next.proc.threadLeader q := by
  intro hparent
  rcases hcore.slept_or_falls hstep hsleeps (by rw [hpc]; simp) with
    ⟨hslept, _, hsame⟩ | hfalls
  · rw [hpc] at hsame
    have hchan := hchannels.wait q hslept hsame.symm
    obtain ⟨_, _, hleader⟩ :=
      heffect.leader_kept hcore hexec (p := q) (by rw [hslept]; rfl)
    rw [hleader] at hparent
    have hwas : (s.proc p).state = .zombie ∧ (s.proc p).tid = -1 ∧
        (s.proc p).parent = s.proc.threadLeader q := by
      rcases heffect.was_zombie hcore hexec hzombie with
        ⟨r, c, hact, hexit, rfl⟩ | ⟨hwas, htid', hparent'⟩
      · have htid' : (s.proc p).tid = -1 :=
          (s.proc.exitSlot_fields r p).tid.symm.trans htid
        obtain ⟨hwas, hled⟩ := zombie_of_exit s.proc
          (exits_rooted hrooted hact hexit) hsleeps hchan hzombie hparent
        exact ⟨hwas, htid', hled⟩
      · exact ⟨hwas, htid'.symm.trans htid, hparent'.symm.trans hparent⟩
    exact h.wait q p hslept hsame.symm hwas.1 hwas.2.1 hwas.2.2
  · cases hfalls with
    | wait hact hpoint _ hnone =>
        have hrunning := running_of_acting hcore hact
        obtain ⟨_, _, hleader⟩ :=
          heffect.leader_kept hcore hexec (p := q) (by rw [hrunning]; rfl)
        rw [hleader] at hparent
        rcases heffect.was_zombie hcore hexec hzombie with
          ⟨r, c, hact', hexit, _⟩ | ⟨hwas, htid', hparent'⟩
        · cases hact.symm.trans hact'
          rw [hexit] at hpoint
          rcases hpoint with hpoint | hpoint <;> contradiction
        · rw [htid'] at htid
          rw [hparent'] at hparent
          have htest := firstSlot_eq_none_iff.mp hnone p
          have hself : s.proc.threadLeader p = some p := by
            rw [Table.threadLeader, if_pos htid]
          simp [Table.waitKid, hself, htid, hwas, hparent] at htest
    | join _ _ _ _ hnext | tgkill _ _ _ _ hnext | tsuspend _ _ hnext
    | block hnext => cases hpc.symm.trans hnext

theorem Notices.join_step (h : s.Notices) (hchannels : s.Channels)
    (hcore : s.Core) (hidentified : s.Identified)
    (hexec : s.execsLed label = true) (heffect : s.Effect label next)
    (hstep : s.step label = some next) {tid : Int} {tleader : Option Slot}
    (hsleeps : (next.proc q).state = .sleeping)
    (hpc : next.pc q = .joinSlept p tid tleader)
    (hzombie : (next.proc p).state = .zombie) : (next.proc p).tid ≠ tid := by
  intro htid
  rcases join_sleeper hcore hstep hsleeps hpc with
    ⟨hslept, _, hwas⟩ | ⟨hact, hpoint, _, hlives, _⟩
  · rcases heffect.was_zombie hcore hexec hzombie with
      ⟨r, c, hact, hexit, rfl⟩ | ⟨hzombie', htid', _⟩
    · have htid' : (s.proc p).tid = tid :=
        (s.proc.exitSlot_fields r p).tid.symm.trans htid
      by_cases heq : p = r
      · -- The thread that is joined exits, and wakes its leader.
        subst heq
        have hrunning := running_of_acting hcore hact
        obtain ⟨hne, _, _, hparent⟩ := hchannels.sought q p tid tleader
          (by rw [hslept]; rfl) (by rw [hwas]; rfl)
        have hzero := hidentified.tid_ne_zero hcore (p := p)
          (by rw [hrunning]; simp) (by rw [hrunning]; simp)
        rw [← htid'] at hne
        refine s.proc.exitSlot_wakes hne hsleeps ?_
        rw [Table.threadLeader, if_neg hne, hparent htid' (by rwa [← htid'])]
        exact hchannels.join q p tid tleader hslept hwas
      · refine h.join q p tid tleader hslept hwas ?_ htid'
        exact ((s.proc.keeps_exitSlot heq).state_eq rfl).mp hzombie
    · exact h.join q p tid tleader hslept hwas hzombie' (htid'.symm.trans htid)
  · rcases heffect.was_zombie hcore hexec hzombie with
      ⟨r, c, hact', hexit, _⟩ | ⟨hzombie', _⟩
    · cases hact.symm.trans hact'
      rw [hexit] at hpoint
      rcases hpoint with hpoint | hpoint <;> contradiction
    · exact hlives hzombie'

theorem Notices.tgkill_step (h : s.Notices) (hchannels : s.Channels)
    (hcore : s.Core) (hkin : s.Kin) (hexec : s.execsLed label = true)
    (heffect : s.Effect label next) (hstep : s.step label = some next)
    {caller : TgkillCaller} (hsleeps : (next.proc q).state = .sleeping)
    (htid : (next.proc q).tid = -1) (hpc : next.pc q = .tgkillSlept caller) :
    ∃ p, (next.proc p).pid = (next.proc q).pid ∧ (next.proc p).tid ≠ -1 ∧
      next.Live p := by
  -- Before the step a thread of `q` lives; if it is the one that exits, `q` is
  -- not left asleep.
  have hwas : (s.proc q).state.active = true ∧
      ∃ p, (s.proc p).pid = (s.proc q).pid ∧ (s.proc p).tid ≠ -1 ∧
        (s.proc p).state ≠ .zombie ∧
          (s.acting label = some p →
            (s.proc q).chan = Table.slotChan (some q)) := by
    rcases hcore.slept_or_falls hstep hsleeps (by rw [hpc]; simp) with
      ⟨hslept, _, hsame⟩ | hfalls
    · have hactive : (s.proc q).state.active = true := by
        rw [hslept]
        rfl
      rw [hpc] at hsame
      obtain ⟨htid', _⟩ := heffect.leader_kept hcore hexec hactive
      obtain ⟨p, hpid, hpeer, hlive⟩ :=
        h.tgkill q caller hslept (htid'.symm.trans htid) hsame.symm
      exact ⟨hactive, p, hpid, hpeer, hlive.2,
        fun _ => hchannels.tgkill q caller hslept hsame.symm⟩
    · cases hfalls with
      | tgkill hact _ _ hlive =>
          have hactive := ProcState.active_of_running (running_of_acting hcore hact)
          obtain ⟨p, hfound⟩ := Option.ne_none_iff_exists'.mp hlive
          have htest := firstSlot_some hfound
          simp only [Table.isPeer, decide_eq_true_eq] at htest
          obtain ⟨⟨hpid, hpeer⟩, hzombie⟩ := htest
          refine ⟨hactive, p, hpid, hpeer, hzombie, fun hact' => ?_⟩
          cases hact.symm.trans hact'
          obtain ⟨htid', _⟩ := heffect.leader_kept hcore hexec hactive
          exact absurd (htid'.symm.trans htid) hpeer
      | wait _ _ _ _ hnext | join _ _ _ _ hnext | tsuspend _ _ hnext
      | block hnext => cases hpc.symm.trans hnext
  obtain ⟨hactive, p, hpid, hpeer, hzombie, hchan⟩ := hwas
  obtain ⟨htid', hpid', _⟩ := heffect.leader_kept hcore hexec hactive
  have hleader : s.LeaderLives q := ⟨hactive, htid'.symm.trans htid⟩
  have hne : p ≠ q := by
    rintro rfl
    exact hpeer hleader.2
  obtain ⟨_, hused, hparent, hnamed⟩ := hkin.group q p hleader hpid hne
  have hcarried := heffect.carried hcore hexec hused hzombie hnamed
  refine ⟨p, by rw [hcarried.pid, hpid', hpid], by rwa [hcarried.tid],
    hcarried.live, fun hdies => ?_⟩
  obtain ⟨hact, _, c, rfl⟩ := hcarried.dies hdies
  refine s.proc.exitSlot_wakes hpeer hsleeps ?_
  rw [Table.threadLeader, if_neg hpeer, hparent]
  exact hchan hact

theorem Notices.step (h : s.Notices) (hchannels : s.Channels) (hcore : s.Core)
    (hkin : s.Kin) (hidentified : s.Identified)
    (hexec : s.execsLed label = true) (hrooted : s.exitsRooted label = true)
    (heffect : s.Effect label next) (hstep : s.step label = some next) :
    next.Notices where
  wait _ _ hsleeps hpc hzombie htid :=
    h.wait_step hchannels hcore hexec hrooted heffect hstep hsleeps hpc hzombie
      htid
  join _ _ _ _ hsleeps hpc hzombie :=
    h.join_step hchannels hcore hidentified hexec heffect hstep hsleeps hpc
      hzombie
  tgkill _ _ hsleeps htid hpc :=
    h.tgkill_step hchannels hcore hkin hexec heffect hstep hsleeps htid hpc

end Noticed

theorem userinit_awake (kstack pgdir : Frame) (q : Slot) :
    ((userinit kstack pgdir).proc q).state ≠ .sleeping := by
  simp only [userinit, setSlot_apply]
  split <;> simp [userinitProc]

theorem userinit_channels (kstack pgdir : Frame) :
    (userinit kstack pgdir).Channels where
  wait q hsleeps := absurd hsleeps (userinit_awake kstack pgdir q)
  join q _ _ _ hsleeps := absurd hsleeps (userinit_awake kstack pgdir q)
  tgkill q _ hsleeps := absurd hsleeps (userinit_awake kstack pgdir q)
  sought q p tid tleader _ hjoins := by
    simp only [userinit, setSlot_apply] at hjoins
    split at hjoins <;> contradiction

theorem userinit_notices (kstack pgdir : Frame) :
    (userinit kstack pgdir).Notices where
  wait q _ hsleeps := absurd hsleeps (userinit_awake kstack pgdir q)
  join q _ _ _ hsleeps := absurd hsleeps (userinit_awake kstack pgdir q)
  tgkill q _ hsleeps := absurd hsleeps (userinit_awake kstack pgdir q)

/-- Every call but `tresume`; `clone` makes threads only. -/
def noticeCalls : Syscall → Bool
  | .clone flags _ => flags = TFLAGS
  | .tresume _ => false
  | _ => true

theorem noticeCalls_apart (flags : Flags) (h : flags.allowed noticeCalls) :
    flagsApart flags = true := by
  obtain ⟨_, rfl⟩ | ⟨_, h⟩ := h
  · decide
  · have heq : flags = TFLAGS := by simpa [noticeCalls] using h
    subst heq
    decide

/-- `exec` by leaders, and no exit of a process that is its own parent. -/
def noticeOrderly (s : Sys) (label : Label) : Bool :=
  s.makes noticeCalls label && s.execsLed label && s.exitsRooted label

/-- No exit goes unnoticed. -/
theorem exits_noticed {kstack pgdir : Frame} {s : Sys}
    (hreach : Reach Sys.step (fun s label => s.noticeOrderly label = true)
      (userinit kstack pgdir) s) : s.Notices := by
  have hinv : (s.Core ∧ s.Kin ∧ s.Within fun _ => noticeCalls) ∧
      s.Identified ∧ s.Channels ∧ s.Notices := by
    refine hreach.invariant (fun s =>
      (s.Core ∧ s.Kin ∧ s.Within fun _ => noticeCalls) ∧
        s.Identified ∧ s.Channels ∧ s.Notices)
      ⟨⟨userinit_core .., userinit_kin .., userinit_within _ _⟩,
        userinit_identified .., userinit_channels .., userinit_notices ..⟩ ?_
    rintro state label next
      ⟨⟨hcore, hkin, hwithin⟩, hidentified, hchannels, hnotices⟩ hguard hstep
    simp only [noticeOrderly, Bool.and_eq_true] at hguard
    obtain ⟨⟨hmakes, hexec⟩, hrooted⟩ := hguard
    have hsleeper := resumesSleeper_of_within hwithin (fun _ => rfl) label
    have hapart := clonesApart_of_within hwithin noticeCalls_apart label
    have heffect := hcore.effect hsleeper hstep
    have hidentified' : next.Identified := by
      refine hidentified.steps hcore hkin.numbered (fun hact hpc htid => ?_)
        heffect
      exact absurd (execs_led hexec hact hpc) htid
    exact ⟨⟨hcore.step hsleeper hstep, hkin.step hcore hexec hapart heffect,
      hwithin.makes hmakes hstep⟩, hidentified',
      hchannels.step hcore hkin hidentified hidentified' hexec heffect hstep,
      hnotices.step hchannels hcore hkin hidentified hexec hrooted heffect hstep⟩
  exact hinv.2.2.2

def waitOn (c : Cpu) : List Label := [.run c { user := .call .wait }, .run c {}]

def exitLeaderOn (c : Cpu) : List Label :=
  [.run c { user := .call .exit }, .run c {}, .run c {}, .run c {}, .run c {},
    .run c {}, .schedScan c]

def waitChild : List Label :=
  startOn 0 ++ cloneOn 0 .fork (.ok 3 0) ++ startOn 1 ++ waitOn 0 ++ [.schedScan 0]

set_option maxRecDepth 4000

theorem exits_noticed_waitChild :
    ∃ s : Sys, s.Notices ∧ s.lock = none ∧ (s.proc 0).state = .sleeping ∧
      s.pc 0 = .waitSlept ∧ (s.proc 1).state = .running ∧
        (s.proc 1).parent = s.proc.threadLeader 0 := by
  have hrun : ((run Sys.step noticeOrderly (userinit 1 2) waitChild).any fun s =>
      s.lock = none ∧ (s.proc 0).state = .sleeping ∧ s.pc 0 = .waitSlept ∧
        (s.proc 1).state = .running ∧
          (s.proc 1).parent = s.proc.threadLeader 0) = true := by
    decide +kernel
  obtain ⟨s, hreach, hend⟩ := reach_of_run_any hrun
  exact ⟨s, exits_noticed hreach, hend⟩

/-- A thread of init's first child has been preempted inside `fork` when init
kills the child and reaps it.  The second child's `fork`, under way, takes the
freed directory for its process, which grows to the end of user space.  The
thread goes on: the slot goes to the new process, which becomes its own parent.
init waits for its second child when that process faults and exits. -/
def ownParent : List Label :=
  startOn 0 ++ cloneOn 0 .fork (.ok 3 0) ++ startOn 1 ++
    cloneOn 1 (.clone TFLAGS 4096) (.ok 0 0) ++ startOn 2 ++
    cloneOn 0 .fork (.ok 4 0) ++ startOn 3 ++
    [.run 2 { user := .call .fork }, .preempt 2, .schedScan 2,
      .run 3 { user := .call .fork }, .run 3 {}, .run 3 {},
      .run 0 { user := .call (.kill 2) }, .run 0 {}, .run 0 {}] ++
    exitLeaderOn 1 ++ [.run 1 {}, .preempt 1, .schedScan 1] ++ waitOn 0 ++ [.run 0 {}] ++
    [.run 3 { vm := .ok 3 0 }, .run 3 {}, .run 3 {}] ++ startOn 1 ++ startOn 2 ++
    [.run 2 {}, .run 2 { kernel := .grow 0xC7FFFFF },
      .run 1 {}, .run 1 {}, .run 1 { vm := .ok 5 0 }, .run 1 {}, .run 1 {}] ++
    startOn 4 ++ waitOn 0 ++
    [.schedScan 0, .run 4 { user := .fault }, .run 4 {}, .run 4 {}, .run 4 {}, .run 4 {},
      .run 4 {}, .schedScan 4]

/-- Its exit gives it to init, and wakes nobody. -/
theorem wait_sleeps_on :
    ¬ ∀ s q p, Reach Sys.step (fun s label => s.makes groupCalls label = true)
        (userinit 1 2) s → s.lock = none →
      (s.proc q).state = .sleeping → s.pc q = .waitSlept →
      (s.proc p).state = .zombie → (s.proc p).tid = -1 →
        (s.proc p).parent ≠ s.proc.threadLeader q := by
  intro hnotices
  have hrun : ((run Sys.step (fun s label => s.makes groupCalls label)
      (userinit 1 2) ownParent).any fun s => s.lock = none ∧
        (s.proc 0).state = .sleeping ∧ s.pc 0 = .waitSlept ∧
        (s.proc 1).state = .zombie ∧ (s.proc 1).tid = -1 ∧
          (s.proc 1).parent = s.proc.threadLeader 0) = true := by
    decide +kernel
  obtain ⟨s, hreach, hlock, hsleeps, hpc, hzombie, htid, hparent⟩ := reach_of_run_any hrun
  exact hnotices s 0 1 hreach hlock hsleeps hpc hzombie htid hparent

end Sys

end KernelThreads
