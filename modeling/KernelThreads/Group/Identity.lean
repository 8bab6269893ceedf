import KernelThreads.Group.Step

namespace KernelThreads

open Lib

def Pc.raw : Pc → Option Slot
  | .cloneKstack np _ _ => some np
  | _ => none

theorem Pc.creates_of_raw {pc : Pc} {np : Slot} (h : pc.raw = some np) :
    pc.creates = some np := by
  cases pc <;> simp_all [Pc.raw, Pc.creates]

namespace Sys

/-! Thread identifiers: `clone` draws them from `nextpid`, so no two threads
ever have the same one. -/

/-- What the numbering of threads needs of the rest of the table. -/
structure Numbered (s : Sys) : Prop where
  pids : ∀ p, (s.proc p).state ≠ .unused →
    0 < (s.proc p).pid ∧ (s.proc p).pid < s.nextpid
  fresh : ∀ q np p, (s.pc q).base.unnamed = some np →
    (s.proc p).state ≠ .unused → p ≠ np → (s.proc p).pid ≠ (s.proc np).pid
  bare : ∀ q np, (s.pc q).base.bare = some np → (s.proc np).tid = -1

theorem Grouped.numbered {s : Sys} (h : s.Grouped) : s.Numbered :=
  ⟨h.pids, h.fresh, h.bare⟩

structure Identified (s : Sys) : Prop where
  range : ∀ p, (s.proc p).tid ≠ -1 → (s.proc p).tid ≠ 0 →
    0 < (s.proc p).tid ∧ (s.proc p).tid < s.nextpid ∧
      (s.proc p).state ≠ .unused
  unique : ∀ p r, (s.proc p).tid ≠ -1 → (s.proc p).tid ≠ 0 →
    (s.proc p).tid = (s.proc r).tid → p = r
  fresh : ∀ q np p, (s.pc q).base.unnamed = some np →
    (s.proc p).tid ≠ (s.proc np).pid
  blank : ∀ q np, (s.pc q).base.unnamed = some np →
    (s.proc np).tid = -1 ∨ (s.proc np).tid = 0
  named : ∀ p, (s.proc p).tid = 0 →
    (s.proc p).state = .unused ∨ ∃ q, (s.pc q).base.raw = some p

namespace Identified

variable {s next : Sys} {label : Label} {q np : Slot}

theorem keep (h : s.Identified) (hcore : s.Core) (hnumbered : s.Numbered)
    (hnextpid : next.nextpid = s.nextpid)
    (hpc : ∀ q np, (next.pc q).base.unnamed = some np →
      (s.pc q).base.unnamed = some np)
    (hraw : ∀ q np, (s.pc q).base.raw = some np →
      (next.pc q).base.raw = some np)
    (htid : ∀ p, (next.proc p).tid = (s.proc p).tid ∧
        ((next.proc p).state = .unused ↔ (s.proc p).state = .unused) ∨
      (next.proc p).tid = 0 ∧ (next.proc p).state = .unused)
    (hpid : ∀ p, (s.proc p).state = .embryo →
      (next.proc p).pid = (s.proc p).pid) : next.Identified := by
  have hsame : ∀ p, (next.proc p).tid ≠ 0 →
      (next.proc p).tid = (s.proc p).tid ∧
        ((next.proc p).state = .unused ↔ (s.proc p).state = .unused) :=
    fun p hp => (htid p).resolve_right fun hzero => hp hzero.1
  constructor
  case range =>
    intro p hp hp0
    obtain ⟨heq, hlive⟩ := hsame p hp0
    rw [heq] at hp hp0 ⊢
    obtain ⟨hpos, hlt, hbefore⟩ := h.range p hp hp0
    exact ⟨hpos, by rwa [hnextpid], fun hunused => hbefore (hlive.mp hunused)⟩
  case unique =>
    intro p r hp hp0 hpr
    have heq := (hsame p hp0).1
    have heqr := (hsame r (by rwa [← hpr])).1
    rw [heq] at hp hp0
    rw [heq, heqr] at hpr
    exact h.unique p r hp hp0 hpr
  case fresh =>
    intro q np p hq
    have hbefore := hpc q np hq
    have hembryo := hcore.embryo (Pc.creates_of_unnamed hbefore)
    rw [hpid np hembryo]
    rcases htid p with ⟨heq, _⟩ | ⟨hzero, _⟩
    · rw [heq]
      exact h.fresh q np p hbefore
    · have hpos := (hnumbered.pids np (by rw [hembryo]; simp)).1
      omega
  case blank =>
    intro q np hq
    rcases htid np with ⟨heq, _⟩ | ⟨hzero, _⟩
    · rw [heq]
      exact h.blank q np (hpc q np hq)
    · exact .inr hzero
  case named =>
    intro p hp
    rcases htid p with ⟨heq, hunused⟩ | ⟨_, hunused⟩
    · rw [heq] at hp
      exact (h.named p hp).imp hunused.mpr fun ⟨q, hq⟩ => ⟨q, hraw q p hq⟩
    · exact .inl hunused

theorem unnamed_of_children (h : s.SameChildren next)
    (hq : (next.pc q).base.unnamed = some np) :
    (s.pc q).base.unnamed = some np := by
  rwa [← h.creates (Pc.creates_of_unnamed hq)]

theorem raw_of_children (h : s.SameChildren next) (q np : Slot)
    (hq : (s.pc q).base.raw = some np) : (next.pc q).base.raw = some np := by
  rcases h q with heq | ⟨hnone, _⟩
  · rw [heq]
    exact hq
  · rw [Pc.creates_of_raw hq] at hnone
    contradiction

theorem reaps (h : s.Identified) (hcore : s.Core) (hnumbered : s.Numbered)
    {reaped : Slot → Prop} (hreaps : s.Reaps next q reaped)
    (hchildren : s.SameChildren next) : next.Identified := by
  refine h.keep hcore hnumbered hreaps.nextpid
    (fun _ _ => unnamed_of_children hchildren) (raw_of_children hchildren)
    (fun p => ?_) fun p hembryo => ?_
  · rcases hreaps.proc p with ⟨_, hclear⟩ | ⟨_, hsame⟩
    · exact .inr ⟨hclear.tid, hclear.state⟩
    · exact .inl ⟨hsame.tid, hsame.state_eq rfl⟩
  · rcases hreaps.proc p with ⟨_, hclear⟩ | ⟨_, hsame⟩
    · rw [hclear.zombie] at hembryo
      contradiction
    · exact hsame.pid

theorem own (h : s.Identified) (hcore : s.Core) (hnumbered : s.Numbered)
    (hnextpid : next.nextpid = s.nextpid) (hchildren : s.SameChildren next)
    (hunused : ∀ p, (next.proc p).state = .unused ↔ (s.proc p).state = .unused)
    (hpid : ∀ p, (next.proc p).pid = (s.proc p).pid)
    (htid : ∀ p, (next.proc p).tid = (s.proc p).tid) : next.Identified :=
  h.keep hcore hnumbered hnextpid (fun _ _ => unnamed_of_children hchildren)
    (raw_of_children hchildren) (fun p => .inl ⟨htid p, hunused p⟩)
      fun p _ => hpid p

theorem child (h : s.Identified) (hcore : s.Core) (hnumbered : s.Numbered)
    (hon : s.OnChild next q np) (hnextpid : s.nextpid ≤ next.nextpid)
    (hrange : (next.proc np).tid ≠ -1 → (next.proc np).tid ≠ 0 →
      0 < (next.proc np).tid ∧ (next.proc np).tid < next.nextpid ∧
        (next.proc np).state ≠ .unused ∧
        (∀ p, (s.proc p).tid ≠ (next.proc np).tid) ∧
        ∀ other made, other ≠ q → (s.pc other).base.unnamed = some made →
          (next.proc np).tid ≠ (s.proc made).pid)
    (hfresh : (next.pc q).base.unnamed = some np →
      0 < (next.proc np).pid ∧ ∀ p, (s.proc p).tid ≠ (next.proc np).pid)
    (hblank : (next.pc q).base.unnamed = some np →
      (next.proc np).tid = -1 ∨ (next.proc np).tid = 0)
    (hnamed : (next.proc np).tid = 0 →
      (next.proc np).state = .unused ∨ (next.pc q).base.raw = some np) :
    next.Identified := by
  constructor
  case range =>
    intro p hp hp0
    by_cases heq : p = np
    · subst heq
      obtain ⟨hpos, hlt, hlive, _⟩ := hrange hp hp0
      exact ⟨hpos, hlt, hlive⟩
    · rw [hon.proc p heq] at hp hp0 ⊢
      obtain ⟨hpos, hlt, hlive⟩ := h.range p hp hp0
      exact ⟨hpos, by omega, hlive⟩
  case unique =>
    intro p r hp hp0 hpr
    by_cases hpnp : p = np <;> by_cases hrnp : r = np
    · rw [hpnp, hrnp]
    · subst hpnp
      rw [hon.proc r hrnp] at hpr
      exact absurd hpr.symm ((hrange hp hp0).2.2.2.1 r)
    · subst hrnp
      rw [hpr] at hp hp0
      rw [hon.proc p hpnp] at hpr
      exact absurd hpr ((hrange hp hp0).2.2.2.1 p)
    · rw [hon.proc p hpnp] at hp hp0 hpr
      rw [hon.proc r hrnp] at hpr
      exact h.unique p r hp hp0 hpr
  case fresh =>
    intro creator made p hcreates
    by_cases hcq : creator = q
    · subst hcq
      obtain rfl := hon.now made (Pc.creates_of_unnamed hcreates)
      obtain ⟨hpos, hall⟩ := hfresh hcreates
      by_cases hp : p = np
      · subst hp
        rcases hblank hcreates with hb | hb <;> omega
      · rw [hon.proc p hp]
        exact hall p
    · obtain ⟨hbefore, hmade⟩ := hon.others_unnamed hcore hcq hcreates
      rw [hon.proc made hmade]
      by_cases hp : p = np
      · subst hp
        by_cases hp1 : (next.proc p).tid = -1 ∨ (next.proc p).tid = 0
        · have hembryo := hcore.embryo (Pc.creates_of_unnamed hbefore)
          have hpos := (hnumbered.pids made (by rw [hembryo]; simp)).1
          omega
        · rw [not_or] at hp1
          exact (hrange hp1.1 hp1.2).2.2.2.2 creator made hcq hbefore
      · rw [hon.proc p hp]
        exact h.fresh creator made p hbefore
  case blank =>
    intro creator made hcreates
    by_cases hcq : creator = q
    · subst hcq
      obtain rfl := hon.now made (Pc.creates_of_unnamed hcreates)
      exact hblank hcreates
    · obtain ⟨hbefore, hmade⟩ := hon.others_unnamed hcore hcq hcreates
      rw [hon.proc made hmade]
      exact h.blank creator made hbefore
  case named =>
    intro p hp
    by_cases heq : p = np
    · subst heq
      exact (hnamed hp).imp_right fun hraw => ⟨q, hraw⟩
    · rw [hon.proc p heq] at hp ⊢
      refine (h.named p hp).imp_right fun hmade => ?_
      obtain ⟨creator, hcreates⟩ := hmade
      refine ⟨creator, ?_⟩
      have hcq : creator ≠ q := by
        rintro rfl
        exact heq (hon.was p (Pc.creates_of_raw hcreates)).symm
      have hcnp := hon.ne_of_active (hcore.creator (Pc.creates_of_raw hcreates))
      rwa [hon.pc creator hcq hcnp]

theorem allocates (h : s.Identified) (hcore : s.Core) (hnumbered : s.Numbered)
    {flags : Flags} {childStack : Nat} (hrunning : (s.proc q).state = .running)
    (hpc : s.pc q = .allocproc flags childStack)
    (hfound : s.proc.findUnused = some np) :
    Identified ({ s with
      proc := setSlot s.proc np
        { s.proc np with state := .embryo, pid := s.nextpid }
      nextpid := s.nextpid + 1 }.finish q (.cloneKstack np flags childStack)) := by
  have hunused : (s.proc np).state = .unused := by
    simpa using firstSlot_some hfound
  have hblank : (s.proc np).tid = -1 ∨ (s.proc np).tid = 0 := by
    by_contra hsome
    rw [not_or] at hsome
    exact (h.range np hsome.1 hsome.2).2.2 hunused
  have hpid := hnumbered.pids q (by rw [hrunning]; simp)
  refine h.child hcore hnumbered (.allocates hcore hrunning hpc hfound) ?_ ?_ ?_ ?_ ?_
  · simp only [finish_nextpid]
    omega
  · intro htid htid0
    simp only [finish_proc, setSlot_same] at htid htid0
    exact absurd hblank (by simp [htid, htid0])
  · intro _
    simp only [finish_proc, setSlot_same]
    refine ⟨by omega, fun p hp => ?_⟩
    have hlt := (h.range p (by omega) (by omega)).2.1
    omega
  · intro _
    simpa using hblank
  · simp [Pc.base, Pc.raw]

theorem kstack (h : s.Identified) (hcore : s.Core) (hnumbered : s.Numbered)
    {flags : Flags} {childStack : Nat}
    (hpc : s.pc q = .cloneKstack np flags childStack) (frame : Option Frame) :
    (s.cloneKstack q np flags childStack frame).Identified := by
  have hunnamed : (s.pc q).base.unnamed = some np := by
    rw [hpc]
    rfl
  have hpos := (hnumbered.pids np
    (by rw [hcore.embryo (Pc.creates_of_unnamed hunnamed)]; simp)).1
  have hfresh := fun p => h.fresh q np p hunnamed
  have hblank := h.blank q np hunnamed
  refine h.child hcore hnumbered (.kstack hcore hpc frame) ?_ ?_ ?_ ?_ ?_ <;>
    cases frame
  all_goals simp [cloneKstack, Pc.base, Pc.unnamed, Pc.raw, hpos]
  · exact hblank.resolve_left
  · exact hfresh

theorem setup (h : s.Identified) (hcore : s.Core) (hnumbered : s.Numbered)
    {flags : Flags} {childStack : Nat}
    (hpc : s.pc q = .cloneSetup np flags childStack)
    (hends : s.SetupEnds q np flags next) : next.Identified := by
  have hunnamed : (s.pc q).base.unnamed = some np := by
    rw [hpc]
    rfl
  have hpos := (hnumbered.pids np
    (by rw [hcore.embryo (Pc.creates_of_unnamed hunnamed)]; simp)).1
  have hfresh := fun p => h.fresh q np p hunnamed
  have hbare : (s.proc np).tid = -1 := by
    apply hnumbered.bare q
    rw [hpc]
    rfl
  have hon := OnChild.setup hcore hpc hends
  cases hends with
  | undone _ hbuilds =>
      refine h.child hcore hnumbered hon le_rfl ?_ ?_ ?_ ?_ <;>
        simp [undo, Pc.base, Pc.unnamed, Pc.raw, hbuilds.tid, hbare]
  | left _ hbuilds =>
      refine h.child hcore hnumbered hon le_rfl ?_ ?_ ?_ ?_ <;>
        simp [Pc.base, Pc.unnamed, Pc.raw, hbuilds.tid, hbare]
  | done _ hbuilds _ _ hcwd =>
      obtain ⟨_, hpid, htid, _⟩ := cloneCwd_builds hcwd hbuilds
      refine h.child hcore hnumbered hon le_rfl ?_ ?_ ?_ ?_ <;>
        simp [Pc.base, Pc.unnamed, Pc.raw, htid, hbare, hpid, hpos]
      exact hfresh

theorem ids (h : s.Identified) (hcore : s.Core) (hnumbered : s.Numbered)
    {flags : Flags} (hpc : s.pc q = .cloneIds np flags) :
    (s.cloneIds q np flags).Identified := by
  have hunnamed : (s.pc q).base.unnamed = some np := by
    rw [hpc]
    rfl
  have hcreates := Pc.creates_of_unnamed hunnamed
  have hembryo := hcore.embryo hcreates
  have hlive : (s.proc np).state ≠ .unused := by
    rw [hembryo]
    simp
  have hon := OnChild.ids hcore hpc
  by_cases hflags : flags.has CLONE_THREAD = true
  · simp only [cloneIds, hflags, if_true] at hon ⊢
    refine h.child hcore hnumbered hon le_rfl ?_ ?_ ?_ ?_
    · intro _ _
      simp only [goto_proc, setProc_proc, setSlot_same, goto_nextpid,
        setProc_nextpid]
      obtain ⟨hpos, hlt⟩ := hnumbered.pids np hlive
      refine ⟨hpos, hlt, hlive, fun p => h.fresh q np p hunnamed, ?_⟩
      intro other made hne hmade
      refine hnumbered.fresh other made np hmade hlive ?_
      rintro rfl
      exact hne (hcore.owner (Pc.creates_of_unnamed hmade) hcreates)
    · simp [Pc.base, Pc.unnamed]
    · simp [Pc.base, Pc.unnamed]
    · have hpos := (hnumbered.pids np hlive).1
      intro hzero
      simp only [goto_proc, setProc_proc, setSlot_same] at hzero
      omega
  · simp only [cloneIds, hflags] at hon ⊢
    refine h.child hcore hnumbered hon le_rfl ?_ ?_ ?_ ?_ <;>
      simp [Pc.base, Pc.unnamed, Pc.raw]

theorem publish (h : s.Identified) (hcore : s.Core) (hnumbered : s.Numbered)
    {retid : Int} (hpc : s.pc q = .clonePublish np retid) :
    (s.clonePublish q np retid).Identified := by
  have hembryo := hcore.embryo (creates_at hpc rfl)
  refine h.keep hcore hnumbered rfl ?_ ?_ (fun p => .inl ⟨?_, ?_⟩) fun p _ => ?_
  · intro p made hmade
    have hpq : p ≠ q := by
      rintro rfl
      simp [clonePublish, Pc.base, Pc.unnamed] at hmade
    rwa [clonePublish, finish_pc, setProc_pc, setSlot_other _ _ hpq] at hmade
  · intro p made hmade
    have hpq : p ≠ q := by
      rintro rfl
      simp [hpc, Pc.base, Pc.raw] at hmade
    rwa [clonePublish, finish_pc, setProc_pc, setSlot_other _ _ hpq]
  · refine setSlot_field _ Proc.tid ?_ p
    rfl
  · simp only [clonePublish, finish_proc, setProc_proc, setSlot_apply]
    split
    next heq => simp [heq, hembryo]
    next => rfl
  · refine setSlot_field _ Proc.pid ?_ p
    rfl

theorem tid_ne_zero (h : s.Identified) (hcore : s.Core) {p : Slot}
    (hunused : (s.proc p).state ≠ .unused) (hembryo : (s.proc p).state ≠ .embryo) :
    (s.proc p).tid ≠ 0 := by
  intro hzero
  rcases h.named p hzero with hp | ⟨q, hq⟩
  · exact hunused hp
  · exact hembryo (hcore.embryo (Pc.creates_of_raw hq))

theorem handOff (h : s.Identified) (hcore : s.Core) (hnumbered : s.Numbered)
    {leader : Slot} (hrunning : (s.proc q).state = .running)
    (hpc : s.pc q = .execLock (some leader))
    (hactive : (s.proc leader).state.active = true) :
    Identified ({ s with proc := s.proc.handOff q leader }.finish q
      (.tgkillCheck .exec)) := by
  have hrewired := s.proc.rewired_handOff q leader
  have hunnamed : ∀ {p np}, ((s.finish q (.tgkillCheck .exec)).pc p).base.unnamed =
      some np → (s.pc p).base.unnamed = some np := by
    intro p np hp
    have hpq : p ≠ q := by
      rintro rfl
      simp [Pc.base, Pc.unnamed] at hp
    rwa [finish_pc, setSlot_other _ _ hpq] at hp
  -- The identifiers are the ones there were, of the caller's at the old leader.
  have htid : ∀ p, (s.proc.handOff q leader p).tid ≠ -1 → p ≠ q ∧
      (s.proc.handOff q leader p).tid =
        (s.proc (if p = leader then q else p)).tid := by
    intro p hp
    rw [Table.handOff_tid] at hp ⊢
    split at hp
    · contradiction
    next hpq =>
      rw [if_neg hpq]
      refine ⟨hpq, ?_⟩
      split <;> rfl
  have hinj : ∀ {p r : Slot}, p ≠ q → r ≠ q →
      (if p = leader then q else p) = (if r = leader then q else r) → p = r := by
    intro p r hp hr heq
    split at heq <;> split at heq <;> simp_all
  constructor
  case range =>
    intro p hp hp0
    rw [finish_proc] at hp hp0 ⊢
    obtain ⟨_, heq⟩ := htid p hp
    rw [heq] at hp hp0 ⊢
    obtain ⟨hpos, hlt, hlive⟩ := h.range _ hp hp0
    refine ⟨hpos, hlt, ?_⟩
    rw [(hrewired p).state]
    split at hlive
    next heq =>
      rw [heq]
      exact ProcState.ne_unused hactive
    next => exact hlive
  case unique =>
    intro p r hp hp0 hpr
    simp only [finish_proc] at hp hp0 hpr
    obtain ⟨hpq, heq⟩ := htid p hp
    obtain ⟨hrq, heqr⟩ := htid r (by rwa [← hpr])
    rw [heq] at hp hp0
    rw [heq, heqr] at hpr
    exact hinj hpq hrq (h.unique _ _ hp hp0 hpr)
  case fresh =>
    intro creator np p hcreates
    have hbefore := hunnamed hcreates
    rw [finish_proc, (hrewired np).pid]
    by_cases hp : (s.proc.handOff q leader p).tid = -1
    · have hembryo := hcore.embryo (Pc.creates_of_unnamed hbefore)
      have hpos := (hnumbered.pids np (by rw [hembryo]; simp)).1
      rw [hp]
      omega
    · rw [(htid p hp).2]
      exact h.fresh creator np _ hbefore
  case blank =>
    intro creator np hcreates
    have hbefore := hunnamed hcreates
    have hembryo := hcore.embryo (Pc.creates_of_unnamed hbefore)
    rw [finish_proc]
    by_cases hp : (s.proc.handOff q leader np).tid = -1
    · exact .inl hp
    · rw [(htid np hp).2, if_neg]
      · exact h.blank creator np hbefore
      · rintro rfl
        rw [hembryo] at hactive
        contradiction
  case named =>
    intro p hp
    rw [finish_proc] at hp ⊢
    obtain ⟨hpq, heq⟩ := htid p (by rw [hp]; decide)
    rw [heq] at hp
    split at hp
    · exact absurd hp
        (h.tid_ne_zero hcore (by rw [hrunning]; simp) (by rw [hrunning]; simp))
    · rw [(hrewired p).state]
      refine (h.named p hp).imp_right fun hmade => ?_
      obtain ⟨creator, hcreates⟩ := hmade
      refine ⟨creator, ?_⟩
      have hcq : creator ≠ q := by
        rintro rfl
        simp [hpc, Pc.base, Pc.raw] at hcreates
      rwa [finish_pc, setSlot_other _ _ hcq]

theorem steps (h : s.Identified) (hcore : s.Core) (hnumbered : s.Numbered)
    (hhands : ∀ {q leader}, s.acting label = some q →
      s.pc q = .execLock (some leader) → (s.proc q).tid ≠ -1 →
        (s.proc leader).state.active = true)
    (heffect : s.Effect label next) : next.Identified := by
  cases heffect with
  | quiet hquiet hflow =>
      exact h.reaps hcore hnumbered hquiet.toReaps
        (sameChildren_of_flow hquiet.pc hflow)
  | allocates hact hpc hfound =>
      exact h.allocates hcore hnumbered (running_of_acting hcore hact) hpc hfound
  | kstack _ hpc => exact h.kstack hcore hnumbered hpc _
  | setup _ hpc hends => exact h.setup hcore hnumbered hpc hends
  | ids _ hpc => exact h.ids hcore hnumbered hpc
  | publish _ hpc => exact h.publish hcore hnumbered hpc
  | files _ hpc | chdir _ hpc | commit _ hpc =>
      refine h.own hcore hnumbered rfl (sameChildren_setSlot rfl hpc rfl rfl) ?_ ?_ ?_
      · intro p
        refine iff_of_eq (congrArg (· = _) (setSlot_field _ Proc.state ?_ p))
        rfl
      all_goals exact setSlot_field _ _ rfl
  | @exit q c hact hpc =>
      have hfields := s.proc.exitSlot_fields q
      have hrunning := running_of_acting hcore hact
      exact h.own hcore hnumbered rfl (sameChildren_setSlot rfl hpc rfl rfl)
        (s.proc.exitSlot_unused (by rw [hrunning]; simp)) (fun p => (hfields p).pid)
          fun p => (hfields p).tid
  | waited _ hpc _ _ _ _ hreaps _ hnext
  | joined _ hpc _ _ hreaps _ hnext =>
      exact h.reaps hcore hnumbered hreaps (hreaps.sameChildren hpc hnext rfl rfl)
  | tgkilled _ hpc hends =>
      exact h.reaps hcore hnumbered hends.reaps (hends.sameChildren hpc)
  | handOff hact hpc htid =>
      exact h.handOff hcore hnumbered (running_of_acting hcore hact) hpc
        (hhands hact hpc htid)

theorem step (h : s.Identified) (hcore : s.Core) (hgrouped : s.Grouped)
    (hfresh : s.handsOffFresh label = true) (heffect : s.Effect label next) :
    next.Identified := by
  refine h.steps hcore hgrouped.numbered (fun hact hpc htid => ?_) heffect
  have hrunning := running_of_acting hcore hact
  obtain ⟨leader, hled, hleads⟩ :=
    hgrouped.led hcore (by rw [hrunning]; rfl) htid
  rw [hands_off_fresh hfresh hact hpc htid] at hled
  cases hled
  exact hleads.active

end Identified

theorem userinit_identified (kstack pgdir : Frame) :
    (userinit kstack pgdir).Identified := by
  have hpc : ∀ q, ((userinit kstack pgdir).pc q).base.unnamed = none := by
    intro q
    simp only [userinit, setSlot_apply]
    split <;> rfl
  have htid : ∀ p, ((userinit kstack pgdir).proc p).tid = -1 ∨
      ((userinit kstack pgdir).proc p).tid = 0 := by
    intro p
    simp only [userinit, setSlot_apply]
    split
    · exact .inl rfl
    · exact .inr rfl
  constructor
  case range => exact fun p hp hp0 => absurd ((htid p).resolve_left hp) hp0
  case unique => exact fun p r hp hp0 => absurd ((htid p).resolve_left hp) hp0
  case fresh => simp [hpc]
  case blank => simp [hpc]
  case named =>
    intro p hp
    simp only [userinit, setSlot_apply] at hp ⊢
    split at hp
    · contradiction
    next hne => simp [hne]

end Sys

end KernelThreads
