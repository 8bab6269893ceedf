import KernelThreads.Sched.Sleep
import KernelThreads.Group.Identity
import KernelThreads.Group.Wait

namespace KernelThreads

open Lib

def Pc.joins : Pc → Option (Slot × Int × Option Slot)
  | .joinLock p tid tleader | .joinSlept p tid tleader => some (p, tid, tleader)
  | _ => none

theorem Pc.joins_plain {point : Pc} (h : Sys.plain point = true) :
    point.joins = none := by
  cases point <;> first | rfl | contradiction

namespace Sys

/-- The slot found by the scan still holds the thread asked for: it has its
`tid`, and the caller's leader as its parent. -/
def joinsFresh (s : Sys) (label : Label) : Bool :=
  s.actor label fun q point =>
    match point.joins with
    | some (p, tid, tleader) =>
        (s.proc q).killed ∨ (s.proc p).tid = tid ∧ (s.proc p).parent = tleader
    | none => true

theorem joins_fresh {s : Sys} {label : Label} {q p : Slot} {tid : Int}
    {tleader : Option Slot} (h : s.joinsFresh label = true)
    (hact : s.acting label = some q)
    (hpc : (s.pc q).joins = some (p, tid, tleader))
    (hkilled : (s.proc q).killed = false) :
    (s.proc p).tid = tid ∧ (s.proc p).parent = tleader := by
  have htest := actor_test h hact
  simpa [hpc, hkilled] using htest

structure Joining (s : Sys) : Prop where
  scanned : ∀ q p tid tleader, (s.proc q).state.active = true →
    (s.pc q).base.joins = some (p, tid, tleader) →
      tid ≠ -1 ∧ s.proc.threadLeader q = tleader
  waits : ∀ q p tid tleader, (s.proc q).state = .sleeping →
    s.pc q = .joinSlept p tid tleader →
      ((s.proc p).state ≠ .unused ∧ (s.proc p).state ≠ .zombie) ∧
        ((s.proc p).tid = tid ∧ (s.proc p).parent = tleader) ∧
          (s.proc q).chan = Table.slotChan tleader
  orphan : ∀ p, (s.proc p).tid = 0 → (s.proc p).parent = none

section Named

variable {s next : Sys} {label : Label} {q p : Slot}

structure Carried (s : Sys) (label : Label) (next : Sys) (p : Slot) : Prop where
  pid : (next.proc p).pid = (s.proc p).pid
  tid : (next.proc p).tid = (s.proc p).tid
  parent : (s.proc p).tid ≠ -1 → (next.proc p).parent = (s.proc p).parent
  live : (next.proc p).state ≠ .unused
  dies : (next.proc p).state = .zombie →
    s.acting label = some p ∧ s.pc p = .exitLock ∧ ∃ c, next = s.exitLock c p

theorem Carried.same (hunused : (s.proc p).state ≠ .unused)
    (hzombie : (s.proc p).state ≠ .zombie)
    (hsame : (s.proc p).Same (next.proc p)) : s.Carried label next p where
  pid := hsame.pid
  tid := hsame.tid
  parent _ := hsame.parent
  live hp := hunused ((hsame.state_eq rfl).mp hp)
  dies hp := absurd ((hsame.state_eq rfl).mp hp) hzombie

theorem Carried.own (hunused : (s.proc p).state ≠ .unused)
    (hzombie : (s.proc p).state ≠ .zombie)
    (hstate : (next.proc p).state = (s.proc p).state)
    (hpid : (next.proc p).pid = (s.proc p).pid)
    (htid : (next.proc p).tid = (s.proc p).tid)
    (hparent : (next.proc p).parent = (s.proc p).parent) :
    s.Carried label next p where
  pid := hpid
  tid := htid
  parent _ := hparent
  live := by rwa [hstate]
  dies hp := absurd (hstate.symm.trans hp) hzombie

theorem Carried.refl (hunused : (s.proc p).state ≠ .unused)
    (hzombie : (s.proc p).state ≠ .zombie)
    (heq : next.proc p = s.proc p) : s.Carried label next p := by
  refine .own hunused hzombie ?_ ?_ ?_ ?_ <;> rw [heq]

theorem Effect.carried (heffect : s.Effect label next) (hcore : s.Core)
    (hexec : s.execsLed label = true)
    (hunused : (s.proc p).state ≠ .unused) (hzombie : (s.proc p).state ≠ .zombie)
    (hnamed : ∀ q, (s.pc q).base.unnamed ≠ some p) : s.Carried label next p := by
  have hother : ∀ {q np : Slot} {value : Proc},
      (s.pc q).base.unnamed = some np →
        setSlot s.proc np value p = s.proc p := by
    intro q np value hq
    refine setSlot_other _ _ ?_
    rintro rfl
    exact hnamed q hq
  have hreaps : ∀ {q : Slot} {reaped : Slot → Prop}, s.Reaps next q reaped →
      s.Carried label next p := by
    intro q reaped hreaps
    rcases hreaps.proc p with ⟨_, hclear⟩ | ⟨_, hsame⟩
    · exact absurd hclear.zombie hzombie
    · exact .same hunused hzombie hsame
  cases heffect with
  | quiet hquiet => exact hreaps hquiet.toReaps
  | waited _ _ _ _ _ _ hreaped => exact hreaps hreaped
  | joined _ _ _ _ hreaped => exact hreaps hreaped
  | tgkilled _ _ hends => exact hreaps hends.reaps
  | allocates _ _ hfound =>
      refine .refl hunused hzombie (setSlot_other _ _ ?_)
      rintro rfl
      exact hunused (by simpa using firstSlot_some hfound)
  | @kstack _ _ _ _ frame _ hpc =>
      refine .refl hunused hzombie ?_
      cases frame <;> exact hother (by rw [hpc]; rfl)
  | setup _ hpc hends =>
      refine .refl hunused hzombie ?_
      cases hends <;> exact hother (by rw [hpc]; rfl)
  | ids _ hpc =>
      refine .refl hunused hzombie ?_
      unfold cloneIds
      split <;> exact hother (by rw [hpc]; rfl)
  | @publish q np retid _ hpc =>
      have hfield : ∀ {α : Type} (field : Proc → α),
          (∀ state, field { s.proc np with state := state } = field (s.proc np)) →
            field ((s.clonePublish q np retid).proc p) = field (s.proc p) :=
        fun field hsame => setSlot_field _ field (hsame _) p
      refine ⟨hfield Proc.pid fun _ => rfl, hfield Proc.tid fun _ => rfl,
        fun _ => hfield Proc.parent fun _ => rfl, ?_, ?_⟩ <;>
        simp only [clonePublish, finish_proc, setProc_proc, setSlot_apply] <;>
        split <;> simp_all
  | files | chdir | commit =>
      refine .own hunused hzombie (setSlot_field _ Proc.state ?_ p)
        (setSlot_field _ Proc.pid ?_ p) (setSlot_field _ Proc.tid ?_ p)
        (setSlot_field _ Proc.parent ?_ p) <;> rfl
  | @exit q c hact hpc =>
      have hfields := s.proc.exitSlot_fields q p
      refine ⟨hfields.pid, hfields.tid, fun htid => ?_, ?_, ?_⟩
      · refine (s.proc.exitSlot_parent q p).trans (if_neg ?_)
        simp [Table.isChild, htid]
      · intro hp
        refine hunused ((s.proc.exitSlot_unused ?_ p).mp hp)
        rw [running_of_acting hcore hact]
        simp
      · intro hp
        by_cases heq : p = q
        · subst heq
          exact ⟨hact, hpc, c, rfl⟩
        · exact absurd (((s.proc.keeps_exitSlot heq).state_eq rfl).mp hp) hzombie
  | handOff hact hpc htid => exact absurd (execs_led hexec hact hpc) htid

theorem Flow.joins {t : Table} {before after : Pc}
    {found : Slot × Int × Option Slot} (hflow : Flow t q before after)
    (hjoins : after.joins = some found) :
    before.joins = some found ∨ found.2.1 ≠ -1 ∧
      found.2.2 = t.threadLeader q ∧ t.joinFind q found.2.1 = some found.1 := by
  cases hflow with
  | same => exact .inl hjoins
  | plain _ hto =>
      rw [Pc.joins_plain hto] at hjoins
      contradiction
  | joinScan htid hfound =>
      cases hjoins
      exact .inr ⟨htid, rfl, hfound⟩
  | joinSlept => exact .inl hjoins
  | @peer caller _ => cases caller <;> contradiction
  | _ => contradiction

theorem TgkillEnds.joins {caller : TgkillCaller}
    (hends : s.TgkillEnds q caller next) : (next.pc q).base.joins = none := by
  rcases hends.pc with ⟨_, hnext⟩ | ⟨_, _, hnext⟩ | ⟨_, _, hnext⟩ <;>
    rw [hnext] <;> cases caller <;> rfl

theorem Effect.joins (heffect : s.Effect label next) (hcore : s.Core)
    {found : Slot × Int × Option Slot}
    (hactive : (next.proc p).state.active = true)
    (hjoins : (next.pc p).base.joins = some found) :
    (s.proc p).state.active = true ∧ ((s.pc p).base.joins = some found ∨
      found.2.1 ≠ -1 ∧ found.2.2 = s.proc.threadLeader p ∧
        s.proc.joinFind p found.2.1 = some found.1) := by
  -- A step of `q` that ends outside the loop.
  have hpoint : ∀ {q : Slot}, (∀ r, r ≠ q → next.pc r = s.pc r) →
      (next.pc q).base.joins = none → (s.pc p).base.joins = some found := by
    intro q hpc hnone
    have hne : p ≠ q := by
      rintro rfl
      rw [hnone] at hjoins
      contradiction
    rwa [hpc p hne] at hjoins
  have hchild : ∀ {q np : Slot}, s.OnChild next q np →
      (next.pc q).base.joins = none →
      ((next.proc np).state.active = true → (next.pc np).base.joins = none) →
        (s.proc p).state.active = true ∧ ((s.pc p).base.joins = some found ∨
          found.2.1 ≠ -1 ∧ found.2.2 = s.proc.threadLeader p ∧
            s.proc.joinFind p found.2.1 = some found.1) := by
    intro q np hon hnone hborn
    have hnp : p ≠ np := by
      rintro rfl
      rw [hborn hactive] at hjoins
      contradiction
    have hpq : p ≠ q := by
      rintro rfl
      rw [hnone] at hjoins
      contradiction
    rw [hon.proc p hnp] at hactive
    rw [hon.pc p hpq hnp] at hjoins
    exact ⟨hactive, .inl hjoins⟩
  have hembryo : ∀ {q np : Slot}, (s.pc q).base.creates = some np →
      (s.proc np).state = .embryo := hcore.embryo
  have hreaps : ∀ {q : Slot} {reaped : Slot → Prop}, s.Reaps next q reaped →
      (s.proc p).state.active = true := by
    intro q reaped hreaps
    rcases hreaps.proc p with ⟨_, hclear⟩ | ⟨_, hsame⟩
    · rw [hclear.state] at hactive
      contradiction
    · exact hsame.active.symm.trans hactive
  cases heffect with
  | @quiet _ q hquiet hflow =>
      refine ⟨hreaps hquiet.toReaps, ?_⟩
      by_cases heq : p = q
      · subst heq
        exact hflow.joins hjoins
      · rw [hquiet.pc p heq] at hjoins
        exact .inl hjoins
  | allocates hact hpc hfound =>
      exact hchild (.allocates hcore (running_of_acting hcore hact) hpc hfound)
        (by simp [Pc.base, Pc.joins]) (by simp [ProcState.active])
  | @kstack q np _ _ frame hact hpc =>
      have hembryo := hembryo (q := q) (by rw [hpc]; rfl)
      refine hchild (.kstack hcore hpc frame) ?_ ?_ <;> cases frame <;>
        simp [cloneKstack, Pc.base, Pc.joins, ProcState.active, hembryo]
  | @setup q np _ _ _ hact hpc hends =>
      have hembryo := hembryo (q := q) (by rw [hpc]; rfl)
      have hon := OnChild.setup hcore hpc hends
      cases hends with
      | undone _ hbuilds =>
          refine hchild hon ?_ ?_ <;>
            simp [undo, Pc.base, Pc.joins, ProcState.active]
      | left _ hbuilds =>
          refine hchild hon ?_ ?_ <;>
            simp [Pc.base, Pc.joins, ProcState.active, hbuilds.state, hembryo]
      | done _ hbuilds _ _ hcwd =>
          refine hchild hon ?_ ?_ <;>
            simp [Pc.base, Pc.joins, ProcState.active, hembryo,
              (cloneCwd_builds hcwd hbuilds).1]
  | @ids q np _ hact hpc =>
      have hembryo := hembryo (q := q) (by rw [hpc]; rfl)
      refine hchild (.ids hcore hpc) ?_ ?_ <;> unfold cloneIds <;> split <;>
        simp [Pc.base, Pc.joins, ProcState.active, hembryo]
  | @publish q np _ hact hpc =>
      have hforkret := hcore.prepared_at hpc rfl
      have hne : np ≠ q := by
        apply hcore.creator_ne
        rw [hpc]
        rfl
      refine hchild (.publish hcore hpc) ?_ ?_ <;>
        simp [clonePublish, setSlot_other, hne, hforkret, Pc.base, Pc.joins]
  | files _ hpc | chdir _ hpc | commit _ hpc =>
      refine ⟨?_, .inl (hpoint (fun _ hne => setSlot_other _ _ hne) ?_)⟩
      · refine Eq.trans (congrArg _ (Eq.symm ?_)) hactive
        refine setSlot_field _ Proc.state ?_ p
        rfl
      · simp [Pc.base, Pc.joins]
  | @exit q c hact hpc =>
      have hpq : p ≠ q := by
        rintro rfl
        simp [exitLock, s.proc.exitSlot_zombie, ProcState.active] at hactive
      exact ⟨(s.proc.keeps_exitSlot hpq).active.symm.trans hactive, .inl (hpoint
        (fun _ hne => setSlot_other _ _ hne)
        (by simp [exitLock, Pc.base, Pc.joins]))⟩
  | waited _ _ _ _ _ _ hreaped _ hnext =>
      exact ⟨hreaps hreaped, .inl (hpoint hreaped.pc (by rw [hnext]; rfl))⟩
  | joined _ _ _ _ hreaped _ hnext =>
      exact ⟨hreaps hreaped, .inl (hpoint hreaped.pc (by rw [hnext]; rfl))⟩
  | tgkilled _ _ hends =>
      exact ⟨hreaps hends.reaps, .inl (hpoint hends.reaps.pc hends.joins)⟩
  | handOff =>
      rw [finish_proc, (s.proc.rewired_handOff _ _ p).state] at hactive
      exact ⟨hactive, .inl (hpoint (fun _ hne => setSlot_other _ _ hne)
        (by simp [Pc.base, Pc.joins]))⟩

end Named

namespace Joining

variable {s next : Sys} {label : Label} {q p : Slot}

theorem orphan_step (h : s.Joining) (hcore : s.Core) (hgrouped : s.Grouped)
    (hexec : s.execsLed label = true)
    (heffect : s.Effect label next) (htid : (next.proc p).tid = 0) :
    (next.proc p).parent = none := by
  -- A write to one slot that keeps its identity, or gives it one.
  have hwrite : ∀ {slot : Slot} {value : Proc},
      next.proc = setSlot s.proc slot value →
      (value.tid = 0 → value.tid = (s.proc slot).tid ∧
        value.parent = (s.proc slot).parent) → (next.proc p).parent = none := by
    intro slot value hproc hvalue
    rw [hproc, setSlot_apply] at htid ⊢
    split at htid
    next heq =>
      obtain ⟨hsame, hparent⟩ := hvalue htid
      rw [if_pos heq, hparent]
      exact h.orphan slot (hsame.symm.trans htid)
    next heq =>
      rw [if_neg heq]
      exact h.orphan p htid
  have hreaps : ∀ {q : Slot} {reaped : Slot → Prop}, s.Reaps next q reaped →
      (next.proc p).parent = none := by
    intro q reaped hreaps
    rcases hreaps.proc p with ⟨_, hclear⟩ | ⟨_, hsame⟩
    · exact hclear.parent
    · rw [hsame.tid] at htid
      rw [hsame.parent]
      exact h.orphan p htid
  cases heffect with
  | quiet hquiet => exact hreaps hquiet.toReaps
  | waited _ _ _ _ _ _ hreaped => exact hreaps hreaped
  | joined _ _ _ _ hreaped => exact hreaps hreaped
  | tgkilled _ _ hends => exact hreaps hends.reaps
  | allocates => exact hwrite rfl fun _ => ⟨rfl, rfl⟩
  | @kstack _ _ _ _ frame =>
      cases frame with
      | none => exact hwrite rfl fun _ => ⟨rfl, rfl⟩
      | some frame => exact hwrite rfl nofun
  | @setup q np _ _ _ _ hpc hends =>
      have hbare : (s.proc np).tid = -1 := by
        apply hgrouped.bare q
        rw [hpc]
        rfl
      cases hends with
      | undone _ hbuilds =>
          refine hwrite rfl fun hzero => absurd (hbuilds.tid.symm.trans hzero) ?_
          rw [hbare]
          decide
      | left _ hbuilds =>
          refine hwrite rfl fun hzero => absurd (hbuilds.tid.symm.trans hzero) ?_
          rw [hbare]
          decide
      | done _ hbuilds _ _ hcwd =>
          have hsame := (cloneCwd_builds hcwd hbuilds).2.2.1
          refine hwrite rfl fun hzero => absurd (hsame.symm.trans hzero) ?_
          rw [hbare]
          decide
  | @ids q np flags _ hpc =>
      have hembryo := hcore.embryo (creates_at hpc rfl)
      have hpos := (hgrouped.pids np (by rw [hembryo]; simp)).1
      obtain ⟨value, hproc, htids⟩ := s.cloneIds_proc q np flags
      refine hwrite hproc fun hzero => absurd hzero ?_
      rcases htids with htids | htids <;> rw [htids] <;> omega
  | publish | files | chdir | commit => exact hwrite rfl fun _ => ⟨rfl, rfl⟩
  | @exit q c hact hpc =>
      have hsame : (s.proc.exitSlot q p).tid = (s.proc p).tid :=
        (s.proc.exitSlot_fields q p).tid
      have hzero : (s.proc p).tid = 0 := hsame.symm.trans htid
      refine (s.proc.exitSlot_parent q p).trans ?_
      rw [if_neg]
      · exact h.orphan p hzero
      · simp [Table.isChild, hzero]
  | handOff hact hpc hpeer => exact absurd (execs_led hexec hact hpc) hpeer

theorem target (h : s.Joining) (hcore : s.Core) (hgrouped : s.Grouped)
    (hidentified : s.Identified) {tid : Int} {tleader : Option Slot}
    (hactive : (s.proc q).state.active = true)
    (hjoins : (s.pc q).base.joins = some (p, tid, tleader))
    (htid : (s.proc p).tid = tid) (hparent : (s.proc p).parent = tleader) :
    (s.proc p).state ≠ .unused ∧ (∀ other, (s.pc other).base.unnamed ≠ some p) ∧
      (s.proc p).tid ≠ -1 ∧ (s.proc p).pid = (s.proc q).pid := by
  obtain ⟨hne, hleader⟩ := h.scanned q p tid tleader hactive hjoins
  obtain ⟨leader, hled, hleader'⟩ := hgrouped.leads_of_active hcore hactive
    (by rintro hexit; rw [hexit] at hjoins; contradiction)
  have hzero : (s.proc p).tid ≠ 0 := by
    intro hzero
    rw [h.orphan p hzero] at hparent
    rw [← hparent, hled] at hleader
    contradiction
  rw [← htid] at hne
  obtain ⟨_, _, hlive⟩ := hidentified.range p hne hzero
  have hnamed : ∀ other, (s.pc other).base.unnamed ≠ some p := by
    intro other hother
    exact (hidentified.blank other p hother).elim hne hzero
  refine ⟨hlive, hnamed, hne, ?_⟩
  rcases hgrouped.peers p hlive hne with ⟨other, hother⟩ | ⟨found, hfound, hleads⟩
  · exact absurd hother (hnamed other)
  · rw [hparent, ← hleader, hled] at hfound
    cases hfound
    rw [← hleads.pid, hleader'.pid]

theorem step (h : s.Joining) (hcore : s.Core) (hgrouped : s.Grouped)
    (hidentified : s.Identified) (hexec : s.execsLed label = true)
    (hguard : s.joinsFresh label = true) (heffect : s.Effect label next)
    (hstep : s.step label = some next) : next.Joining := by
  constructor
  case orphan =>
    exact fun p htid => h.orphan_step hcore hgrouped hexec heffect htid
  case scanned =>
    intro q p tid tleader hactive hjoins
    obtain ⟨hbefore, hfound⟩ := heffect.joins hcore hactive hjoins
    have hcarried : s.Carried label next q := by
      refine heffect.carried hcore hexec (ProcState.ne_unused hbefore) ?_ ?_
      · intro hzombie
        rw [hzombie] at hbefore
        contradiction
      · intro other hother
        rw [hcore.embryo (Pc.creates_of_unnamed hother)] at hbefore
        contradiction
    have hleader : next.proc.threadLeader q = s.proc.threadLeader q := by
      rw [Table.threadLeader, Table.threadLeader, hcarried.tid]
      split
      next => rfl
      next htid => exact hcarried.parent htid
    rw [hleader]
    rcases hfound with hsame | ⟨htid, heq, _⟩
    · exact h.scanned q p tid tleader hbefore hsame
    · exact ⟨htid, heq.symm⟩
  case waits =>
    intro q p tid tleader hsleeps hpc
    have hjoins : ∀ {point : Pc}, point = .joinLock p tid tleader ∨
        point = .joinSlept p tid tleader →
          point.base.joins = some (p, tid, tleader) := by
      rintro point (rfl | rfl) <;> rfl
    -- Before the step the slot holds the thread, and it is no zombie.
    have hbefore : (s.proc q).state.active = true ∧
        (s.pc q).base.joins = some (p, tid, tleader) ∧
        (s.proc p).state ≠ .zombie ∧ (s.proc p).tid = tid ∧
        (s.proc p).parent = tleader ∧
        (next.proc q).chan = Table.slotChan tleader ∧
        ((s.proc q).state = .sleeping → (s.proc q).chan = (next.proc q).chan) := by
      rcases join_sleeper hcore hstep hsleeps hpc with
        ⟨hslept, hchan, hwas⟩ | ⟨hact, hpoint, hkilled, hzombie, hchan⟩
      · obtain ⟨⟨_, hzombie⟩, ⟨htid, hparent⟩, hchanq⟩ :=
          h.waits q p tid tleader hslept hwas
        exact ⟨by rw [hslept]; rfl, hjoins (.inr hwas), hzombie, htid, hparent,
          hchan.trans hchanq, fun _ => hchan.symm⟩
      · have hpoint' : (s.pc q).joins = some (p, tid, tleader) := by
          rcases hpoint with hpoint | hpoint <;> rw [hpoint] <;> rfl
        obtain ⟨htid, hparent⟩ := joins_fresh hguard hact hpoint' hkilled
        have hrunning := running_of_acting hcore hact
        refine ⟨by rw [hrunning]; rfl, hjoins hpoint, hzombie, htid, hparent,
          hchan, fun hslept => ?_⟩
        rw [hrunning] at hslept
        contradiction
    obtain ⟨hactive, hpoint, hzombie, htid, hparent, hchan, hslept⟩ := hbefore
    obtain ⟨hlive, hnamed, hne, _⟩ :=
      h.target hcore hgrouped hidentified hactive hpoint htid hparent
    have hcarried := heffect.carried hcore hexec hlive hzombie hnamed
    refine ⟨⟨hcarried.live, fun hdies => ?_⟩, ⟨hcarried.tid.trans htid,
      (hcarried.parent hne).trans hparent⟩, hchan⟩
    -- The thread that exits wakes whoever sleeps on its leader.
    obtain ⟨_, hexit, c, rfl⟩ := hcarried.dies hdies
    have hrest := Table.Rests.exitSlot s.proc p q hsleeps
    refine s.proc.exitSlot_wakes hne hsleeps ?_
    rw [hslept hrest.1, hchan, Table.threadLeader, if_neg hne, hparent]

end Joining

theorem userinit_joining (kstack pgdir : Frame) :
    (userinit kstack pgdir).Joining := by
  constructor
  case scanned =>
    intro q p tid tleader _ hjoins
    simp only [userinit, setSlot_apply] at hjoins
    split at hjoins <;> contradiction
  case waits =>
    intro q p tid tleader _ hpc
    simp only [userinit, setSlot_apply] at hpc
    split at hpc <;> contradiction
  case orphan =>
    intro p _
    simp only [userinit, setSlot_apply]
    split <;> rfl

/-! Every thread is reaped once: its identifier does not come back. -/

def reapedTids (s : Sys) (_ : Label) (next : Sys) : List Int :=
  ((List.finRange NPROC).filter fun p => (s.proc p).state = .zombie ∧
    (next.proc p).state = .unused ∧ (s.proc p).tid ≠ -1).map
      fun p => (s.proc p).tid

structure Draws (s next : Sys) : Prop where
  tids : ∀ p, (next.proc p).tid = (s.proc p).tid ∧
      ((s.proc p).state = .zombie → (next.proc p).state ≠ .unused) ∨
    (next.proc p).tid = 0 ∨ (next.proc p).tid = -1 ∨
      ∃ q np, (s.pc q).base.unnamed = some np ∧
        (next.proc p).tid = (s.proc np).pid
  pending : ∀ q np, (next.pc q).base.unnamed = some np →
    (s.pc q).base.unnamed = some np ∧ (next.proc np).pid = (s.proc np).pid ∨
      (next.proc np).pid = s.nextpid
  nextpid : s.nextpid ≤ next.nextpid

namespace Draws

variable {s next : Sys} {label : Label} {q np : Slot}

theorem reaps (hcore : s.Core) {reaped : Slot → Prop}
    (hreaps : s.Reaps next q reaped) (hchildren : s.SameChildren next) :
    s.Draws next where
  tids p := by
    rcases hreaps.proc p with ⟨_, hclear⟩ | ⟨_, hsame⟩
    · exact .inr (.inl hclear.tid)
    · refine .inl ⟨hsame.tid, fun hzombie hunused => ?_⟩
      rw [(hsame.state_eq rfl).mp hunused] at hzombie
      contradiction
  pending creator np hnp := by
    have hwas := Identified.unnamed_of_children hchildren hnp
    have hembryo := hcore.embryo (Pc.creates_of_unnamed hwas)
    refine .inl ⟨hwas, ?_⟩
    rcases hreaps.proc np with ⟨_, hclear⟩ | ⟨_, hsame⟩
    · rw [hclear.zombie] at hembryo
      contradiction
    · exact hsame.pid
  nextpid := le_of_eq hreaps.nextpid.symm

theorem own (hchildren : s.SameChildren next)
    (hunused : ∀ p, (next.proc p).state = .unused ↔ (s.proc p).state = .unused)
    (hpid : ∀ p, (next.proc p).pid = (s.proc p).pid)
    (htid : ∀ p, (next.proc p).tid = (s.proc p).tid)
    (hnextpid : s.nextpid ≤ next.nextpid) : s.Draws next where
  tids p := by
    refine .inl ⟨htid p, fun hzombie hu => ?_⟩
    rw [(hunused p).mp hu] at hzombie
    contradiction
  pending creator np hnp :=
    .inl ⟨Identified.unnamed_of_children hchildren hnp, hpid np⟩
  nextpid := hnextpid

theorem child (hcore : s.Core) (hon : s.OnChild next q np)
    (htid : (next.proc np).tid = (s.proc np).tid ∧
        (s.proc np).state ≠ .zombie ∨ (next.proc np).tid = -1 ∨
      (s.pc q).base.unnamed = some np ∧ (next.proc np).tid = (s.proc np).pid)
    (hpending : ∀ made, (next.pc q).base.unnamed = some made →
      (s.pc q).base.unnamed = some np ∧ (next.proc np).pid = (s.proc np).pid ∨
        (next.proc np).pid = s.nextpid)
    (hnextpid : s.nextpid ≤ next.nextpid) : s.Draws next where
  tids p := by
    by_cases heq : p = np
    · subst heq
      rcases htid with ⟨hsame, hzombie⟩ | hnone | ⟨hwas, hpid⟩
      · exact .inl ⟨hsame, fun hp => absurd hp hzombie⟩
      · exact .inr (.inr (.inl hnone))
      · exact .inr (.inr (.inr ⟨q, p, hwas, hpid⟩))
    · rw [hon.proc p heq]
      refine .inl ⟨rfl, fun hzombie hunused => ?_⟩
      rw [hunused] at hzombie
      contradiction
  pending creator made hmade := by
    by_cases hcq : creator = q
    · subst hcq
      obtain rfl := hon.now made (Pc.creates_of_unnamed hmade)
      exact hpending np hmade
    · obtain ⟨hsame, _, hne⟩ := hon.others hcore hcq (Pc.creates_of_unnamed hmade)
      rw [hsame] at hmade
      exact .inl ⟨hmade, by rw [hon.proc made hne]⟩
  nextpid := hnextpid

theorem of_effect (hcore : s.Core)
    (hexec : s.execsLed label = true)
    (heffect : s.Effect label next) : s.Draws next := by
  cases heffect with
  | quiet hquiet hflow =>
      exact .reaps hcore hquiet.toReaps (sameChildren_of_flow hquiet.pc hflow)
  | @allocates q flags childStack np hact hpc hfound =>
      have hunused : (s.proc np).state = .unused := by
        simpa using firstSlot_some hfound
      refine .child hcore (.allocates hcore (running_of_acting hcore hact) hpc hfound)
        ?_ ?_ ?_
      · simp [hunused]
      · simp [Pc.base, Pc.unnamed]
      · simp only [finish_nextpid]
        omega
  | @kstack q np _ _ frame _ hpc =>
      have hembryo := hcore.embryo (creates_at hpc rfl)
      refine .child hcore (.kstack hcore hpc frame) ?_ ?_ ?_ <;> cases frame <;>
        simp [cloneKstack, hpc, hembryo, Pc.base, Pc.unnamed]
  | @setup q np _ _ _ _ hpc hends =>
      have hembryo := hcore.embryo (creates_at hpc rfl)
      have hon := OnChild.setup hcore hpc hends
      cases hends with
      | undone _ hbuilds =>
          refine .child hcore hon ?_ ?_ le_rfl <;>
            simp [undo, hbuilds.tid, hembryo, Pc.base, Pc.unnamed]
      | left _ hbuilds =>
          refine .child hcore hon ?_ ?_ le_rfl <;>
            simp [hbuilds.tid, hembryo, Pc.base, Pc.unnamed]
      | done _ hbuilds _ _ hcwd =>
          obtain ⟨_, hpid, htid, _⟩ := cloneCwd_builds hcwd hbuilds
          refine .child hcore hon ?_ ?_ le_rfl <;>
            simp [hpc, hpid, htid, hembryo, Pc.base, Pc.unnamed]
  | ids _ hpc =>
      refine .child hcore (.ids hcore hpc) ?_ ?_ ?_ <;> unfold cloneIds <;>
        split <;> simp [hpc, Pc.base, Pc.unnamed]
  | @publish q np retid _ hpc =>
      have hembryo := hcore.embryo (creates_at hpc rfl)
      refine .child hcore (.publish hcore hpc) ?_ ?_ le_rfl <;>
        simp [clonePublish, hembryo, Pc.base, Pc.unnamed]
  | files _ hpc | chdir _ hpc | commit _ hpc =>
      refine .own (sameChildren_setSlot rfl hpc rfl rfl) (fun p => ?_) (setSlot_field _ _ rfl)
        (setSlot_field _ _ rfl) le_rfl
      refine iff_of_eq (congrArg (· = _) (setSlot_field _ Proc.state ?_ p))
      rfl
  | @exit q c hact hpc =>
      have hfields := s.proc.exitSlot_fields q
      refine .own (sameChildren_setSlot rfl hpc rfl rfl) (s.proc.exitSlot_unused ?_)
        (fun p => (hfields p).pid) (fun p => (hfields p).tid) le_rfl
      rw [running_of_acting hcore hact]
      simp
  | waited _ hpc _ _ _ _ hreaps _ hnext
  | joined _ hpc _ _ hreaps _ hnext =>
      exact .reaps hcore hreaps (hreaps.sameChildren hpc hnext rfl rfl)
  | tgkilled _ hpc hends =>
      exact .reaps hcore hends.reaps (hends.sameChildren hpc)
  | handOff hact hpc htid => exact absurd (execs_led hexec hact hpc) htid

end Draws

structure Logged (log : List Int) (s : Sys) : Prop where
  nodup : log.Nodup
  below : ∀ tid ∈ log, tid < s.nextpid
  named : ∀ tid ∈ log, tid ≠ 0 ∧ tid ≠ -1
  gone : ∀ tid ∈ log, ∀ p, (s.proc p).tid ≠ tid
  pending : ∀ tid ∈ log, ∀ q np, (s.pc q).base.unnamed = some np →
    (s.proc np).pid ≠ tid

theorem Logged.step {log : List Int} {s next : Sys} {label : Label}
    (h : Logged log s) (hcore : s.Core) (hidentified : s.Identified)
    (hdraws : s.Draws next) :
    Logged (log ++ s.reapedTids label next) next := by
  have hreaped : ∀ tid ∈ s.reapedTids label next, ∃ p,
      (s.proc p).tid = tid ∧ (s.proc p).state = .zombie ∧
        (next.proc p).state = .unused ∧ tid ≠ -1 ∧ tid ≠ 0 := by
    intro tid htid
    simp only [reapedTids, List.mem_map, List.mem_filter, decide_eq_true_eq]
      at htid
    obtain ⟨p, ⟨_, hzombie, hunused, hne⟩, rfl⟩ := htid
    exact ⟨p, rfl, hzombie, hunused, hne, hidentified.tid_ne_zero hcore
      (by rw [hzombie]; simp) (by rw [hzombie]; simp)⟩
  constructor
  case nodup =>
    refine List.nodup_append.mpr ⟨h.nodup, ?_, ?_⟩
    · refine (List.nodup_map_iff_inj_on
        ((List.nodup_finRange NPROC).filter _)).mpr ?_
      intro p hp r _ hpr
      simp only [List.mem_filter, decide_eq_true_eq] at hp
      obtain ⟨_, hzombie, _, hne⟩ := hp
      refine hidentified.unique p r hne (hidentified.tid_ne_zero hcore ?_ ?_) hpr
        <;> rw [hzombie] <;> simp
    · rintro tid hlog _ hnew rfl
      obtain ⟨p, hp, _⟩ := hreaped tid hnew
      exact h.gone tid hlog p hp
  case below =>
    intro tid htid
    have hnextpid := hdraws.nextpid
    rcases List.mem_append.mp htid with hlog | hnew
    · have hlt := h.below tid hlog
      omega
    · obtain ⟨p, rfl, _, _, hne, hzero⟩ := hreaped tid hnew
      have hlt := (hidentified.range p hne hzero).2.1
      omega
  case named =>
    intro tid htid
    rcases List.mem_append.mp htid with hlog | hnew
    · exact h.named tid hlog
    · obtain ⟨_, _, _, _, hne, hzero⟩ := hreaped tid hnew
      exact ⟨hzero, hne⟩
  case gone =>
    intro tid htid p hp
    rcases List.mem_append.mp htid with hlog | hnew
    · obtain ⟨hzero, hne⟩ := h.named tid hlog
      rcases hdraws.tids p with ⟨hsame, _⟩ | hsame | hsame | ⟨q, np, hwas, hsame⟩
      · exact h.gone tid hlog p (hsame.symm.trans hp)
      · exact hzero (hp.symm.trans hsame)
      · exact hne (hp.symm.trans hsame)
      · exact h.pending tid hlog q np hwas (hsame.symm.trans hp)
    · obtain ⟨r, rfl, hzombie, hunused, hne, hzero⟩ := hreaped tid hnew
      rcases hdraws.tids p with ⟨hsame, hkept⟩ | hsame | hsame | ⟨q, np, hwas, hsame⟩
      · have heq := hidentified.unique r p hne hzero (hp.symm.trans hsame)
        subst heq
        exact hkept hzombie hunused
      · exact hzero (hp.symm.trans hsame)
      · exact hne (hp.symm.trans hsame)
      · exact hidentified.fresh q np r hwas (hp.symm.trans hsame)
  case pending =>
    intro tid htid q np hq hpid
    rcases hdraws.pending q np hq with ⟨hwas, hsame⟩ | hfresh
    · rcases List.mem_append.mp htid with hlog | hnew
      · exact h.pending tid hlog q np hwas (hsame.symm.trans hpid)
      · obtain ⟨r, rfl, _⟩ := hreaped tid hnew
        exact hidentified.fresh q np r hwas (hpid.symm.trans hsame)
    · have hlt : tid < s.nextpid := by
        rcases List.mem_append.mp htid with hlog | hnew
        · exact h.below tid hlog
        · obtain ⟨r, rfl, _, _, hne, hzero⟩ := hreaped tid hnew
          exact (hidentified.range r hne hzero).2.1
      omega

theorem logged_nil (s : Sys) : Logged [] s :=
  ⟨.nil, by simp, by simp, by simp, by simp⟩

def JoinReturns (s : Sys) (label : Label) (next : Sys) (q : Slot)
    (tid value : Int) : Prop :=
  s.step label = some next ∧ value ≠ -1 ∧ s.acting label = some q ∧
    next.pc q = .trapret value ∧
      ∃ p tleader, s.pc q = .joinLock p tid tleader ∨
        s.pc q = .joinSlept p tid tleader

theorem JoinReturns.reaped {s next : Sys} {label : Label} {q : Slot}
    {tid value : Int} (h : s.JoinReturns label next q tid value)
    (hcore : s.Core) :
    ∃ p tleader, (s.pc q = .joinLock p tid tleader ∨
        s.pc q = .joinSlept p tid tleader) ∧ (s.proc q).killed = false ∧
      (s.proc p).state = .zombie ∧ (s.proc p).tid = value ∧
        s.Reaps next q fun other => other = p := by
  obtain ⟨hstep, hne, hact, hnext, p, tleader, hpc⟩ := h
  have hactive := ProcState.active_of_running (running_of_acting hcore hact)
  have hends : s.JoinEnds q p tid tleader next := by
    cases does_of_step hstep with
    | acts hq hacts =>
        cases hq.symm.trans hact
        generalize hpoint : s.pc q = point at hacts hpc
        cases hacts with
        | joinLock =>
            rcases hpc with hpc | hpc <;> cases hpc
            exact join_ends hactive
        | joinSlept =>
            rcases hpc with hpc | hpc <;> cases hpc
            exact (join_ends (tidy_active hactive)).of_tidy
        | _ => rcases hpc with hpc | hpc <;> contradiction
    | leaves _ hleaves => cases hleaves <;> contradiction
    | _ => contradiction
  cases hends with
  | killed _ _ hreturn =>
      rw [hnext] at hreturn
      exact absurd (Pc.trapret.inj hreturn) hne
  | reaped hkilled hzombie hreaps _ hreturn =>
      rw [hnext, Pc.trapret.injEq] at hreturn
      exact ⟨p, tleader, hpc, hkilled, hzombie, hreturn.symm, hreaps⟩
  | sleeps _ _ _ hreturn =>
      rw [hnext] at hreturn
      contradiction

/-- The conditions of the group invariant, with `exec` by leaders only, and the
slot of every `join` still the one asked for. -/
def joinOrderly (s : Sys) (label : Label) : Bool :=
  s.sound label && s.execsLed label && s.joinsFresh label

structure JoinServes (s : Sys) : Prop where
  returns : ∀ label next q tid value, s.joinOrderly label = true →
    s.JoinReturns label next q tid value → value = tid ∧
      ∃ p, (s.proc p).state = .zombie ∧ (s.proc p).tid = tid ∧
        (s.proc p).pid = (s.proc q).pid ∧ (next.proc p).state = .unused
  waits : ∀ q p tid tleader, (s.proc q).state = .sleeping →
    s.pc q = .joinSlept p tid tleader →
      ∃ r, (s.proc r).state ≠ .unused ∧ (s.proc r).tid = tid ∧
        (s.proc r).pid = (s.proc q).pid

theorem joinServes_of {s : Sys} (hcore : s.Core) (hgrouped : s.Grouped)
    (hidentified : s.Identified) (hjoining : s.Joining) : s.JoinServes := by
  have hpoint : ∀ {q p : Slot} {tid : Int} {tleader : Option Slot},
      s.pc q = .joinLock p tid tleader ∨ s.pc q = .joinSlept p tid tleader →
        (s.pc q).joins = some (p, tid, tleader) ∧
          (s.pc q).base.joins = some (p, tid, tleader) := by
    rintro q p tid tleader (hpc | hpc) <;> rw [hpc] <;> exact ⟨rfl, rfl⟩
  constructor
  case returns =>
    intro label next q tid value hguard hreturns
    obtain ⟨p, tleader, hpc, hkilled, hzombie, hvalue, hreaps⟩ :=
      hreturns.reaped hcore
    obtain ⟨_, _, hact, _⟩ := hreturns
    simp only [joinOrderly, Bool.and_eq_true] at hguard
    obtain ⟨htid, hparent⟩ :=
      joins_fresh hguard.2 hact (hpoint hpc).1 hkilled
    have hactive := ProcState.active_of_running (running_of_acting hcore hact)
    obtain ⟨_, _, _, hpid⟩ := hjoining.target hcore hgrouped hidentified hactive
      (hpoint hpc).2 htid hparent
    refine ⟨hvalue.symm.trans htid, p, hzombie, htid, hpid, ?_⟩
    rcases hreaps.proc p with ⟨_, hclear⟩ | ⟨hne, _⟩
    · exact hclear.state
    · exact absurd rfl hne
  case waits =>
    intro q p tid tleader hsleeps hpc
    obtain ⟨⟨hlive, _⟩, ⟨htid, hparent⟩, _⟩ :=
      hjoining.waits q p tid tleader hsleeps hpc
    obtain ⟨_, _, _, hpid⟩ := hjoining.target hcore hgrouped hidentified
      (by rw [hsleeps]; rfl) (hpoint (.inr hpc)).2 htid hparent
    exact ⟨p, hlive, htid, hpid⟩

/-- `join` reaps the thread it was asked for and no other, every thread is
reaped once, and nobody waits for a thread that is gone. -/
theorem join_serves {kstack pgdir : Frame} {log : List Int} {s : Sys}
    (hhistory : History Sys.step (fun s label => s.joinOrderly label = true)
      reapedTids (userinit kstack pgdir) log s) : log.Nodup ∧ s.JoinServes := by
  have hinv : (s.Core ∧ s.Grouped) ∧ s.Identified ∧ s.Joining ∧ Logged log s := by
    refine hhistory.invariant
      (fun log s => (s.Core ∧ s.Grouped) ∧ s.Identified ∧ s.Joining ∧ Logged log s)
      ⟨⟨userinit_core .., userinit_grouped ..⟩, userinit_identified ..,
        userinit_joining .., logged_nil _⟩ ?_
    rintro log state label next
      ⟨⟨hcore, hgrouped⟩, hidentified, hjoining, hlogged⟩ hguard hstep
    simp only [joinOrderly, Bool.and_eq_true] at hguard
    obtain ⟨⟨hsound, hexec⟩, hjoins⟩ := hguard
    have hnext := sound_step hcore hgrouped hsound hstep
    simp only [sound, Bool.and_eq_true] at hsound
    obtain ⟨⟨⟨hsleeper, _⟩, hfresh⟩, _⟩ := hsound
    have heffect := hcore.effect hsleeper hstep
    exact ⟨hnext, hidentified.step hcore hgrouped hfresh heffect,
      hjoining.step hcore hgrouped hidentified hexec hjoins heffect hstep,
      hlogged.step hcore hidentified (.of_effect hcore hexec heffect)⟩
  obtain ⟨⟨hcore, hgrouped⟩, hidentified, hjoining, hlogged⟩ := hinv
  exact ⟨hlogged.nodup, joinServes_of hcore hgrouped hidentified hjoining⟩

def twoThreads : List Label :=
  startOn 0 ++ cloneOn 0 (.clone TFLAGS 0) (.ok 0 8192) ++
    cloneOn 0 (.clone TFLAGS 0) (.ok 0 12288) ++ startOn 1 ++ startOn 2

def joinOn (c : Cpu) (tid : Int) : List Label :=
  [.run c { user := .call (.join tid) }, .run c {}, .run c {}, .schedScan c]

def exitOn (c : Cpu) : List Label :=
  [.run c { user := .call .exit }, .run c {}, .run c {}, .run c {}, .schedScan c]

def oneJoiner : List Label := twoThreads ++ joinOn 2 2 ++ exitOn 1

set_option maxRecDepth 4000

theorem join_serves_oneJoiner :
    ∃ s next : Sys, s.JoinReturns (.run 1 {}) next 2 2 2 ∧ s.JoinServes := by
  have hrun : ((runLog Sys.step joinOrderly reapedTids (userinit 1 2)
      oneJoiner).any fun result => result.2.acting (.run 1 {}) = some 2 ∧
        result.2.pc 2 = .joinSlept 1 2 (some 0) ∧
        ((result.2.step (.run 1 {})).any fun next => next.pc 2 = .trapret 2)) =
          true := by
    decide +kernel
  obtain ⟨log, s, hhistory, hact, hpc, hany⟩ := history_of_runLog hrun
  obtain ⟨next, hstep, hnext⟩ := exists_of_any hany
  exact ⟨s, next, ⟨hstep, by decide, hact, hnext, 1, some 0, .inr hpc⟩,
    (join_serves hhistory).2⟩

/-- init and the second thread both join the first; the second thread is
scheduled first. -/
def twoJoiners : List Label :=
  twoThreads ++ joinOn 2 2 ++ joinOn 0 2 ++ exitOn 1 ++
    [.run 1 {}, .schedAcquire 0, .schedScan 0, .run 0 {}]

/-- The joiner that comes second sleeps on, with nobody left to wake it. -/
theorem join_sleeps_for_nobody :
    ¬ ∀ s q p tid tleader,
      Reach Sys.step (fun s label => s.makes groupCalls label = true)
        (userinit 1 2) s →
      (s.proc q).state = .sleeping → s.pc q = .joinSlept p tid tleader →
        ∃ r, (s.proc r).state ≠ .unused ∧ (s.proc r).tid = tid ∧
          (s.proc r).pid = (s.proc q).pid := by
  intro hwaits
  have hrun : ((run Sys.step (fun s label => s.makes groupCalls label)
      (userinit 1 2) twoJoiners).any fun s => (s.proc 0).state = .sleeping ∧
        s.pc 0 = .joinSlept 1 2 (some 0) ∧
        ∀ r, (s.proc r).tid ≠ 2) = true := by
    decide +kernel
  obtain ⟨s, hreach, hsleeps, hpc, hnone⟩ := reach_of_run_any hrun
  obtain ⟨r, _, htid, _⟩ := hwaits s 0 1 2 (some 0) hreach hsleeps hpc
  exact hnone r htid

end Sys

end KernelThreads
