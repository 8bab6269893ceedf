import KernelThreads.Group.Wait

namespace KernelThreads

open Lib

/-! What stays true of thread groups when a leader may die before its threads:
a leader that lives still is the parent of every thread with its `pid`. -/

/-- The same identity, in the same place of the process tree as far as threads
are concerned. -/
structure Proc.Holds (before after : Proc) : Prop where
  pid : after.pid = before.pid
  tid : after.tid = before.tid
  unused : after.state = .unused ↔ before.state = .unused
  active : after.state.active = true → before.state.active = true

theorem Proc.Keeps.holds (h : Proc.Keeps before after) :
    Proc.Holds before after where
  pid := h.pid
  tid := h.tid
  unused := h.state_eq rfl
  active hactive := h.active.symm.trans hactive

namespace Sys

def LeaderLives (s : Sys) (q : Slot) : Prop :=
  (s.proc q).state.active = true ∧ (s.proc q).tid = -1

structure ThreadOf (s : Sys) (q p : Slot) : Prop where
  tid : (s.proc p).tid ≠ -1
  used : (s.proc p).state ≠ .unused
  parent : (s.proc p).parent = some q
  named : ∀ c, (s.pc c).base.unnamed ≠ some p

structure Kin (s : Sys) : Prop where
  below : ∀ p, (s.proc p).pid < s.nextpid
  pids : ∀ p, (s.proc p).state ≠ .unused → 0 < (s.proc p).pid
  fresh : ∀ c np p, (s.pc c).base.creates = some np → p ≠ np →
    (s.proc p).pid = (s.proc np).pid →
      (s.pc c).base.unnamed = none ∧ (s.proc np).tid ≠ -1
  bare : ∀ c np, (s.pc c).base.bare = some np → (s.proc np).tid = -1
  group : ∀ q p, s.LeaderLives q → (s.proc p).pid = (s.proc q).pid → p ≠ q →
    s.ThreadOf q p
  adopted : ∀ c np flags q, (s.pc c).base = .cloneIds np flags →
    flags.has CLONE_THREAD = true → s.LeaderLives q →
      (s.proc q).pid = (s.proc c).pid → (s.proc np).parent = some q

/-- The slot `np` and its maker `q` after a step of `clone`. -/
structure Reared (s next : Sys) (q np : Slot) : Prop where
  idle : (next.proc np).state.active = false
  bare : (next.pc q).base.bare = some np → (next.proc np).tid = -1
  adopted : ∀ flags r, (next.pc q).base = .cloneIds np flags →
    flags.has CLONE_THREAD = true → s.LeaderLives r →
      (s.proc r).pid = (s.proc q).pid → (next.proc np).parent = some r

namespace Kin

variable {s next : Sys} {label : Label} {q np p : Slot}

/-- Steps that keep every identity or clear it.  A slot changes its parent only
if that was a leader which dies in this step. -/
theorem keep (h : s.Kin) (hcore : s.Core)
    (hnextpid : next.nextpid = s.nextpid) (hchildren : s.SameChildren next)
    (hproc : ∀ p, (s.proc p).Cleared (next.proc p) ∨
      (s.proc p).Holds (next.proc p))
    (hparent : ∀ p, (next.proc p).state ≠ .unused →
      (next.proc p).parent = (s.proc p).parent ∨ (s.proc p).tid = -1 ∧
        ∃ r, (s.proc p).parent = some r ∧
          (next.proc r).state.active = false) : next.Kin := by
  have hholds : ∀ {p}, (s.proc p).state ≠ .zombie →
      (s.proc p).Holds (next.proc p) := by
    intro p hzombie
    rcases hproc p with hclear | hholds
    · exact absurd hclear.zombie hzombie
    · exact hholds
  have hused : ∀ {p}, (next.proc p).state ≠ .unused →
      (s.proc p).Holds (next.proc p) := by
    intro p hused
    rcases hproc p with hclear | hholds
    · exact absurd hclear.state hused
    · exact hholds
  have hlives : ∀ {q}, next.LeaderLives q →
      s.LeaderLives q ∧ (s.proc q).Holds (next.proc q) := by
    intro q hq
    have hholds := hused (ProcState.ne_unused hq.1)
    exact ⟨⟨hholds.active hq.1, hholds.tid.symm.trans hq.2⟩, hholds⟩
  have hmade : ∀ {c np}, (next.pc c).base.creates = some np →
      (next.pc c).base = (s.pc c).base ∧ (s.pc c).base.creates = some np ∧
        (s.proc np).Holds (next.proc np) := by
    intro c np hcreates
    have hsame := hchildren.creates hcreates
    rw [hsame] at hcreates
    exact ⟨hsame, hcreates, hholds (by rw [hcore.embryo hcreates]; simp)⟩
  have hpos : ∀ {p r}, (next.proc p).state ≠ .unused →
      (s.proc p).Holds (next.proc p) → (next.proc r).pid = (next.proc p).pid →
        (s.proc r).Holds (next.proc r) := by
    intro p r hp hholds hpid
    rcases hproc r with hclear | hkept
    · have hlt := h.pids p fun hunused => hp (hholds.unused.mpr hunused)
      rw [hclear.pid, hholds.pid] at hpid
      omega
    · exact hkept
  constructor
  case below =>
    intro p
    rw [hnextpid]
    rcases hproc p with hclear | hkept
    · have hlt := h.pids p (by rw [hclear.zombie]; simp)
      have hbelow := h.below p
      rw [hclear.pid]
      omega
    · rw [hkept.pid]
      exact h.below p
  case pids =>
    intro p hp
    have hkept := hused hp
    rw [hkept.pid]
    exact h.pids p fun hunused => hp (hkept.unused.mpr hunused)
  case fresh =>
    intro c np p hcreates hne hpid
    obtain ⟨hsame, hwas, hnp⟩ := hmade hcreates
    have hembryo : (next.proc np).state ≠ .unused := by
      rw [ne_eq, hnp.unused, hcore.embryo hwas]
      simp
    have hp := hpos hembryo hnp hpid
    rw [hp.pid, hnp.pid] at hpid
    rw [hsame, hnp.tid]
    exact h.fresh c np p hwas hne hpid
  case bare =>
    intro c np hbare
    obtain ⟨hsame, _, hnp⟩ :=
      hmade (Pc.creates_of_unnamed (Pc.unnamed_of_bare hbare))
    rw [hsame] at hbare
    rw [hnp.tid]
    exact h.bare c np hbare
  case group =>
    intro q p hq hpid hne
    obtain ⟨hbefore, hholdsq⟩ := hlives hq
    have hp := hpos (ProcState.ne_unused hq.1) hholdsq hpid
    rw [hp.pid, hholdsq.pid] at hpid
    obtain ⟨htid, hlive, hled, hnamed⟩ := h.group q p hbefore hpid hne
    have hlive' : (next.proc p).state ≠ .unused := by rwa [ne_eq, hp.unused]
    refine ⟨by rwa [hp.tid], hlive', ?_, fun c hc => ?_⟩
    · rcases hparent p hlive' with hsame | ⟨hleader, _⟩
      · exact hsame.trans hled
      · exact absurd hleader htid
    · obtain ⟨hsame, _⟩ := hmade (Pc.creates_of_unnamed hc)
      rw [hsame] at hc
      exact hnamed c hc
  case adopted =>
    intro c np flags q hids hthread hq hpid
    have hcreates : (next.pc c).base.creates = some np := by
      rw [hids]
      rfl
    obtain ⟨hsame, hwas, hnp⟩ := hmade hcreates
    obtain ⟨hbefore, hholdsq⟩ := hlives hq
    have hc : (s.proc c).Holds (next.proc c) := by
      apply hholds
      intro hzombie
      have hactive := hcore.creator hwas
      rw [hzombie] at hactive
      contradiction
    rw [hholdsq.pid, hc.pid] at hpid
    rw [hsame] at hids
    have hled := h.adopted c np flags q hids hthread hbefore hpid
    have hlive : (next.proc np).state ≠ .unused := by
      rw [ne_eq, hnp.unused, hcore.embryo hwas]
      simp
    rcases hparent np hlive with hkept | ⟨_, r, hr, hdead⟩
    · exact hkept.trans hled
    · rw [hled] at hr
      cases hr
      rw [hq.1] at hdead
      contradiction

theorem reaps (h : s.Kin) (hcore : s.Core) {reaped : Slot → Prop}
    (hreaps : s.Reaps next q reaped) (hchildren : s.SameChildren next) :
    next.Kin := by
  refine h.keep hcore hreaps.nextpid hchildren (fun p => ?_) fun p hp => .inl ?_
  · rcases hreaps.proc p with ⟨_, hclear⟩ | ⟨_, hsame⟩
    · exact .inl hclear
    · exact .inr hsame.toKeeps.holds
  · rcases hreaps.proc p with ⟨_, hclear⟩ | ⟨_, hsame⟩
    · exact absurd hclear.state hp
    · exact hsame.parent

theorem own (h : s.Kin) (hcore : s.Core) (hnextpid : next.nextpid = s.nextpid)
    (hchildren : s.SameChildren next)
    (hstate : ∀ p, (next.proc p).state = (s.proc p).state)
    (hpid : ∀ p, (next.proc p).pid = (s.proc p).pid)
    (htid : ∀ p, (next.proc p).tid = (s.proc p).tid)
    (hparent : ∀ p, (next.proc p).parent = (s.proc p).parent) : next.Kin := by
  refine h.keep hcore hnextpid hchildren (fun p => .inr ?_)
    fun p _ => .inl (hparent p)
  exact ⟨hpid p, htid p, by rw [hstate], by rw [hstate]; exact id⟩

theorem exit (h : s.Kin) (hcore : s.Core) {c : Cpu}
    (hrunning : (s.proc q).state = .running) (hpc : s.pc q = .exitLock) :
    (s.exitLock c q).Kin := by
  have hfields := s.proc.exitSlot_fields q
  have hzombie : (s.proc.exitSlot q q).state.active = false := by
    rw [s.proc.exitSlot_zombie]
    rfl
  refine h.keep hcore rfl (sameChildren_setSlot rfl hpc rfl rfl) (fun p => .inr ?_) fun p _ => ?_
  · refine ⟨(hfields p).pid, (hfields p).tid,
      s.proc.exitSlot_unused (by rw [hrunning]; simp) p, fun hactive => ?_⟩
    by_cases heq : p = q
    · subst heq
      exact absurd (hactive.symm.trans hzombie) (by simp)
    · exact (s.proc.keeps_exitSlot heq).active.symm.trans hactive
  · have hparent := s.proc.exitSlot_parent q p
    by_cases hchild : s.proc.isChild q p = true
    · simp only [Table.isChild, decide_eq_true_eq] at hchild
      exact .inr ⟨hchild.2, q, hchild.1, hzombie⟩
    · rw [if_neg hchild] at hparent
      exact .inl hparent

theorem onChild (h : s.Kin) (hcore : s.Core) (hon : s.OnChild next q np)
    (hnextpid : s.nextpid ≤ next.nextpid)
    (hbelow : (next.proc np).pid < next.nextpid) (hpos : 0 < (next.proc np).pid)
    (hself : ∀ p, p ≠ np → (s.proc p).pid = (next.proc np).pid →
      (next.pc q).base.unnamed = none ∧ (next.proc np).tid ≠ -1)
    (hothers : ∀ c made, (s.pc c).base.creates = some made → made ≠ np →
      (next.proc np).pid = (s.proc made).pid →
        (s.pc c).base.unnamed = none ∧ (s.proc made).tid ≠ -1)
    (hgroup : ∀ r, s.LeaderLives r → (next.proc np).pid = (s.proc r).pid →
      next.ThreadOf r np)
    (hreared : s.Reared next q np) : next.Kin := by
  have hother : ∀ {p}, p ≠ np → next.proc p = s.proc p := fun hne =>
    hon.proc _ hne
  have hlives : ∀ {r}, next.LeaderLives r → r ≠ np ∧ s.LeaderLives r := by
    intro r hr
    have hne : r ≠ np := by
      rintro rfl
      exact absurd (hr.1.symm.trans hreared.idle) nofun
    refine ⟨hne, ?_⟩
    rw [LeaderLives, hother hne] at hr
    exact hr
  constructor
  case below =>
    intro p
    by_cases heq : p = np
    · rw [heq]
      exact hbelow
    · rw [hother heq]
      exact lt_of_lt_of_le (h.below p) hnextpid
  case pids =>
    intro p hp
    by_cases heq : p = np
    · rw [heq]
      exact hpos
    · rw [hother heq] at hp ⊢
      exact h.pids p hp
  case fresh =>
    intro c made p hmade hne hpid
    by_cases hcq : c = q
    · subst hcq
      obtain rfl := hon.now made hmade
      rw [hother hne] at hpid
      exact hself p hne hpid
    · obtain ⟨hsame, hwas, hnp⟩ := hon.others hcore hcq hmade
      rw [hother hnp] at hpid
      by_cases heq : p = np
      · rw [hsame, hother hnp]
        rw [heq] at hpid
        exact hothers c made hwas hnp hpid
      · rw [hother heq] at hpid
        rw [hsame, hother hnp]
        exact h.fresh c made p hwas hne hpid
  case bare =>
    intro c made hmade
    have hmade' := Pc.creates_of_unnamed (Pc.unnamed_of_bare hmade)
    by_cases hcq : c = q
    · subst hcq
      obtain rfl := hon.now made hmade'
      exact hreared.bare hmade
    · obtain ⟨hsame, _, hnp⟩ := hon.others hcore hcq hmade'
      rw [hsame] at hmade
      rw [hother hnp]
      exact h.bare c made hmade
  case group =>
    intro r p hr hpid hne
    obtain ⟨hrnp, hr⟩ := hlives hr
    rw [hother hrnp] at hpid
    by_cases hp : p = np
    · subst hp
      exact hgroup r hr hpid
    rw [hother hp] at hpid
    obtain ⟨htid, hused, hparent, hnamed⟩ := h.group r p hr hpid hne
    refine ⟨?_, ?_, ?_, fun c hc => ?_⟩
    · rwa [hother hp]
    · rwa [hother hp]
    · rwa [hother hp]
    · by_cases hcq : c = q
      · subst hcq
        exact hp (hon.now p (Pc.creates_of_unnamed hc)).symm
      · rw [(hon.others hcore hcq (Pc.creates_of_unnamed hc)).1] at hc
        exact hnamed c hc
  case adopted =>
    intro c made flags r hids hthread hr hpid
    have hmade : (next.pc c).base.creates = some made := by
      rw [hids]
      rfl
    obtain ⟨hrnp, hr⟩ := hlives hr
    rw [hother hrnp] at hpid
    by_cases hcq : c = q
    · subst hcq
      obtain rfl := hon.now made hmade
      rw [hother hon.ne.symm] at hpid
      exact hreared.adopted flags r hids hthread hr hpid
    · obtain ⟨hsame, hwas, hnp⟩ := hon.others hcore hcq hmade
      rw [hsame] at hids
      rw [hother (hon.ne_of_active (hcore.creator hwas))] at hpid
      rw [hother hnp]
      exact h.adopted c made flags r hids hthread hr hpid

theorem child (h : s.Kin) (hcore : s.Core) (hon : s.OnChild next q np)
    (hnextpid : s.nextpid ≤ next.nextpid)
    (hbelow : (next.proc np).pid < next.nextpid) (hpos : 0 < (next.proc np).pid)
    (hfresh : ∀ p, p ≠ np → (s.proc p).pid ≠ (next.proc np).pid)
    (hreared : s.Reared next q np) : next.Kin := by
  refine h.onChild hcore hon hnextpid hbelow hpos ?_ ?_ ?_ hreared
  · intro p hne hpid
    exact absurd hpid (hfresh p hne)
  · intro c made _ hne hpid
    exact absurd hpid.symm (hfresh made hne)
  · intro r hr hpid
    refine absurd hpid.symm (hfresh r ?_)
    rintro rfl
    exact absurd (hr.1.symm.trans hon.idle) nofun

theorem unnamed (h : s.Kin) (hcore : s.Core) (hon : s.OnChild next q np)
    (hq : (s.pc q).base.unnamed = some np) (hnextpid : next.nextpid = s.nextpid)
    (hpid : (next.proc np).pid = (s.proc np).pid)
    (hreared : s.Reared next q np) : next.Kin := by
  have hwas := Pc.creates_of_unnamed hq
  refine h.child hcore hon hnextpid.ge ?_ ?_ ?_ hreared
  · rw [hpid, hnextpid]
    exact h.below np
  · rw [hpid]
    exact h.pids np (by rw [hcore.embryo hwas]; simp)
  · intro p hne hsame
    rw [hpid] at hsame
    rw [(h.fresh q np p hwas hne hsame).1] at hq
    contradiction

theorem allocates (h : s.Kin) (hcore : s.Core) {flags : Flags}
    {childStack : Nat} (hrunning : (s.proc q).state = .running)
    (hpc : s.pc q = .allocproc flags childStack)
    (hfound : s.proc.findUnused = some np) :
    Kin ({ s with
      proc := setSlot s.proc np
        { s.proc np with state := .embryo, pid := s.nextpid }
      nextpid := s.nextpid + 1 }.finish q (.cloneKstack np flags childStack)) := by
  have hpos := h.pids q (by rw [hrunning]; simp)
  have hbelow := h.below q
  refine h.child hcore (.allocates hcore hrunning hpc hfound) ?_ ?_ ?_ ?_
    ⟨?_, ?_, ?_⟩
  · simp only [finish_nextpid]
    omega
  · simp only [finish_proc, finish_nextpid, setSlot_same]
    omega
  · simp only [finish_proc, setSlot_same]
    omega
  · intro p _
    have hlt := h.below p
    simp only [finish_proc, setSlot_same]
    omega
  all_goals simp [Pc.base, Pc.bare, ProcState.active]

theorem kstack (h : s.Kin) (hcore : s.Core) {flags : Flags} {childStack : Nat}
    (hpc : s.pc q = .cloneKstack np flags childStack) (frame : Option Frame) :
    (s.cloneKstack q np flags childStack frame).Kin := by
  have hon := OnChild.kstack hcore hpc frame
  have hidle := hon.idle
  have hq : (s.pc q).base.unnamed = some np := by
    rw [hpc]
    rfl
  cases frame with
  | none =>
      refine h.unnamed hcore hon hq rfl ?_ ⟨?_, ?_, ?_⟩ <;>
        simp [cloneKstack, Pc.base, Pc.bare, ProcState.active]
  | some frame =>
      refine h.unnamed hcore hon hq rfl ?_ ⟨?_, ?_, ?_⟩ <;>
        simp [cloneKstack, Pc.base, hidle]

theorem threadLeader_eq (h : s.Kin) {leader r : Slot} (hr : s.LeaderLives r)
    (hpid : (s.proc r).pid = (s.proc q).pid)
    (hleader : s.proc.threadLeader q = some leader) : leader = r := by
  by_cases heq : q = r
  · subst heq
    rw [Table.threadLeader, if_pos hr.2] at hleader
    exact (Option.some.inj hleader).symm
  · obtain ⟨htid, _, hparent, _⟩ := h.group r q hr hpid.symm heq
    rw [Table.threadLeader, if_neg htid, hparent] at hleader
    exact (Option.some.inj hleader).symm

theorem setup (h : s.Kin) (hcore : s.Core) {flags : Flags} {childStack : Nat}
    (hact : s.acting label = some q) (hguard : s.clonesApart label = true)
    (hpc : s.pc q = .cloneSetup np flags childStack)
    (hends : s.SetupEnds q np flags next) : next.Kin := by
  have hon := OnChild.setup hcore hpc hends
  have hidle := hon.idle
  have hq : (s.pc q).base.unnamed = some np := by
    rw [hpc]
    rfl
  have hbare : (s.proc np).tid = -1 := by
    apply h.bare q
    rw [hpc]
    rfl
  cases hends with
  | undone _ hbuilds =>
      refine h.unnamed hcore hon hq rfl ?_ ⟨?_, ?_, ?_⟩ <;>
        simp [undo, Pc.base, Pc.bare, ProcState.active, hbuilds.pid]
  | left _ hbuilds =>
      refine h.unnamed hcore hon hq rfl ?_ ⟨?_, ?_, ?_⟩ <;>
        simp [Pc.base, Pc.bare, hbuilds.pid, hbuilds.state, hidle]
  | done hleader hbuilds _ _ hcwd =>
      obtain ⟨hstate, hpid, htid, _, _, _, hparent⟩ := cloneCwd_builds hcwd hbuilds
      refine h.unnamed hcore hon hq rfl ?_ ⟨?_, ?_, ?_⟩
      · simpa using hpid
      · simp [hstate, hidle]
      · simp [htid, hbare]
      · intro named r hnamed hthread hr hpid
        simp only [goto_pc, setSlot_same, Pc.base, Pc.cloneIds.injEq] at hnamed
        obtain ⟨_, rfl⟩ := hnamed
        have hapart := clones_apart hguard hact hpc hthread
        have heq := h.threadLeader_eq hr hpid hleader
        simp [hparent, hbuilds.parent, hapart, heq]

theorem ids (h : s.Kin) (hcore : s.Core) {flags : Flags}
    (hrunning : (s.proc q).state = .running)
    (hpc : s.pc q = .cloneIds np flags) : (s.cloneIds q np flags).Kin := by
  have hon := OnChild.ids hcore hpc
  have hidle := hon.idle
  have hbase : (s.pc q).base = .cloneIds np flags := by
    rw [hpc]
    rfl
  have hq : (s.pc q).base.unnamed = some np := by
    rw [hbase]
    rfl
  by_cases hthread : flags.has CLONE_THREAD = true
  · simp only [cloneIds, hthread, if_true] at hon ⊢
    have hused : (s.proc np).state ≠ .unused := by
      rw [hcore.embryo (Pc.creates_of_unnamed hq)]
      simp
    have htid := h.pids np hused
    refine h.onChild hcore hon le_rfl ?_ ?_ ?_ ?_ ?_ ⟨?_, ?_, ?_⟩
    · simpa using h.below q
    · simpa using h.pids q (by rw [hrunning]; simp)
    · intro p _ _
      simp only [goto_pc, goto_proc, setProc_proc, setSlot_same]
      exact ⟨rfl, by omega⟩
    · intro c made hmade _ hpid
      simp only [goto_proc, setProc_proc, setSlot_same] at hpid
      refine h.fresh c made q hmade ?_ hpid
      rintro rfl
      rw [hcore.embryo hmade] at hrunning
      contradiction
    · intro r hr hpid
      simp only [goto_proc, setProc_proc, setSlot_same] at hpid
      have hparent := h.adopted q np flags r hbase hthread hr hpid.symm
      refine ⟨?_, ?_, ?_, fun c hc => ?_⟩
      · simp only [goto_proc, setProc_proc, setSlot_same]
        omega
      · simpa using hused
      · simpa using hparent
      · by_cases hcq : c = q
        · subst hcq
          simp [Pc.base, Pc.unnamed] at hc
        · exact (hon.others hcore hcq (Pc.creates_of_unnamed hc)).2.2 rfl
    all_goals simp [Pc.base, Pc.bare, hidle]
  · simp only [cloneIds, hthread] at hon ⊢
    refine h.unnamed hcore hon hq rfl ?_ ⟨?_, ?_, ?_⟩ <;>
      simp [Pc.base, Pc.bare, hidle]

theorem publish (h : s.Kin) (hcore : s.Core) {retid : Int}
    (hpc : s.pc q = .clonePublish np retid) :
    (s.clonePublish q np retid).Kin := by
  have hon := OnChild.publish hcore hpc
  have hwas : (s.pc q).base.creates = some np := by
    rw [hpc]
    rfl
  have hembryo := hcore.embryo hwas
  have hfield : ∀ {α : Type} (field : Proc → α) (p : Slot),
      (∀ state, field { s.proc np with state := state } = field (s.proc np)) →
        field ((s.clonePublish q np retid).proc p) = field (s.proc p) :=
    fun field p hsame => setSlot_field _ field (hsame _) p
  have hpid := fun p => hfield Proc.pid p fun _ => rfl
  have htid := fun p => hfield Proc.tid p fun _ => rfl
  have hparent := fun p => hfield Proc.parent p fun _ => rfl
  have hused : ∀ {p}, ((s.clonePublish q np retid).proc p).state ≠ .unused →
      (s.proc p).state ≠ .unused := by
    intro p hp
    by_cases heq : p = np
    · rw [heq, hembryo]
      simp
    · rwa [hon.proc p heq] at hp
  have hothers : ∀ {c made},
      ((s.clonePublish q np retid).pc c).base.creates = some made →
        (s.clonePublish q np retid).pc c = s.pc c ∧
          (s.pc c).base.creates = some made := by
    intro c made hmade
    have hcq : c ≠ q := by
      rintro rfl
      simp [clonePublish, Pc.base, Pc.creates] at hmade
    obtain ⟨hsame, hmade, _⟩ := hon.others hcore hcq hmade
    exact ⟨hsame, hmade⟩
  -- A leader that lives afterwards is the new process, or lived before.
  have hlives : ∀ {r}, (s.clonePublish q np retid).LeaderLives r →
      r = np ∧ (s.proc np).tid = -1 ∨ s.LeaderLives r := by
    intro r hr
    by_cases heq : r = np
    · exact .inl ⟨heq, by rw [← heq, ← htid, hr.2]⟩
    · rw [LeaderLives, hon.proc r heq] at hr
      exact .inr hr
  constructor
  case below =>
    intro p
    rw [hpid]
    exact h.below p
  case pids =>
    intro p hp
    rw [hpid]
    exact h.pids p (hused hp)
  case fresh =>
    intro c made p hmade hne hsame
    obtain ⟨hpc, hmade⟩ := hothers hmade
    rw [hpid, hpid] at hsame
    rw [hpc, htid]
    exact h.fresh c made p hmade hne hsame
  case bare =>
    intro c made hbare
    obtain ⟨hpc, _⟩ := hothers (Pc.creates_of_unnamed (Pc.unnamed_of_bare hbare))
    rw [hpc] at hbare
    rw [htid]
    exact h.bare c made hbare
  case group =>
    intro r p hr hsame hne
    rw [hpid, hpid] at hsame
    rcases hlives hr with ⟨rfl, hleader⟩ | hr
    · exact absurd hleader (h.fresh q r p hwas hne hsame).2
    · obtain ⟨hpeer, hlive, hled, hnamed⟩ := h.group r p hr hsame hne
      refine ⟨by rwa [htid], ?_, by rwa [hparent], fun c hc => ?_⟩
      · by_cases heq : p = np
        · simp [heq, clonePublish]
        · rwa [hon.proc p heq]
      · rw [(hothers (Pc.creates_of_unnamed hc)).1] at hc
        exact hnamed c hc
  case adopted =>
    intro c made flags r hids hthread hr hsame
    have hmade : ((s.clonePublish q np retid).pc c).base.creates = some made := by
      rw [hids]
      rfl
    obtain ⟨hpc, hwas'⟩ := hothers hmade
    rw [hpc] at hids
    rw [hpid, hpid] at hsame
    rw [hparent]
    rcases hlives hr with ⟨rfl, hleader⟩ | hr
    · refine absurd hleader (h.fresh q r c hwas ?_ hsame.symm).2
      rintro rfl
      have hactive := hcore.creator hwas'
      rw [hembryo] at hactive
      contradiction
    · exact h.adopted c made flags r hids hthread hr hsame

end Kin

theorem Kin.step {s next : Sys} {label : Label} (h : s.Kin) (hcore : s.Core)
    (hexec : s.execsLed label = true) (hapart : s.clonesApart label = true)
    (heffect : s.Effect label next) : next.Kin := by
  cases heffect with
  | quiet hquiet hflow =>
      exact h.reaps hcore hquiet.toReaps (sameChildren_of_flow hquiet.pc hflow)
  | allocates hact hpc hfound =>
      exact h.allocates hcore (running_of_acting hcore hact) hpc hfound
  | kstack _ hpc => exact h.kstack hcore hpc _
  | setup hact hpc hends => exact h.setup hcore hact hapart hpc hends
  | ids hact hpc => exact h.ids hcore (running_of_acting hcore hact) hpc
  | publish _ hpc => exact h.publish hcore hpc
  | files _ hpc | chdir _ hpc | commit _ hpc =>
      refine h.own hcore rfl (sameChildren_setSlot rfl hpc rfl rfl) ?_ ?_ ?_ ?_ <;>
        exact setSlot_field _ _ rfl
  | exit hact hpc => exact h.exit hcore (running_of_acting hcore hact) hpc
  | waited _ hpc _ _ _ _ hreaps _ hnext
  | joined _ hpc _ _ hreaps _ hnext =>
      exact h.reaps hcore hreaps (hreaps.sameChildren hpc hnext rfl rfl)
  | tgkilled _ hpc hends =>
      exact h.reaps hcore hends.reaps (hends.sameChildren hpc)
  | handOff hact hpc htid => exact absurd (execs_led hexec hact hpc) htid

theorem userinit_kin (kstack pgdir : Frame) : (userinit kstack pgdir).Kin := by
  have hpc := userinit_creates kstack pgdir
  have hblank : ∀ p, p ≠ initproc → (userinit kstack pgdir).proc p = {} := by
    intro p hne
    simp [userinit, setSlot_other, hne]
  constructor
  case below =>
    intro p
    by_cases heq : p = initproc
    · simp [heq, userinit, userinitProc]
    · rw [hblank p heq]
      show (0 : Int) < 2
      decide
  case pids =>
    intro p hp
    by_cases heq : p = initproc
    · simp [heq, userinit, userinitProc]
    · rw [hblank p heq] at hp
      contradiction
  case fresh =>
    intro c np p hcreates
    rw [hpc] at hcreates
    contradiction
  case bare =>
    intro c np hbare
    have hcreates := Pc.creates_of_unnamed (Pc.unnamed_of_bare hbare)
    rw [hpc] at hcreates
    contradiction
  case group =>
    intro q p hq hpid hne
    have heq : q = initproc := by
      by_contra hq'
      rw [LeaderLives, hblank q hq'] at hq
      exact absurd hq.1 (by decide)
    subst heq
    rw [hblank p hne] at hpid
    simp [userinit, userinitProc] at hpid
  case adopted =>
    intro c np flags q hids
    have hnone := hpc c
    rw [hids] at hnone
    contradiction

end Sys

end KernelThreads
