import KernelThreads.Sched.Effect

namespace KernelThreads

open Lib

/-! Thread groups: slots with one `pid`, of which one, the leader, has
`tid == -1` and is the parent of the others. -/

def Pc.unnamed : Pc → Option Slot
  | .cloneKstack np _ _ | .cloneSetup np _ _ | .cloneIds np _ => some np
  | _ => none

def Pc.bare : Pc → Option Slot
  | .cloneSetup np _ _ | .cloneIds np _ => some np
  | _ => none

theorem Pc.creates_of_unnamed {pc : Pc} {np : Slot} (h : pc.unnamed = some np) :
    pc.creates = some np := by
  cases pc <;> simp_all [Pc.unnamed, Pc.creates]

theorem Pc.unnamed_of_bare {pc : Pc} {np : Slot} (h : pc.bare = some np) :
    pc.unnamed = some np := by
  cases pc <;> simp_all [Pc.unnamed, Pc.bare]

theorem Pc.unnamed_none {pc : Pc} (h : pc.creates = none) :
    pc.unnamed = none := by
  cases pc <;> simp_all [Pc.unnamed, Pc.creates]

theorem ProcState.ne_unused {state : ProcState} (h : state.active = true) :
    state ≠ .unused := by
  rintro rfl
  contradiction

namespace Sys

structure Leads (s : Sys) (leader p : Slot) : Prop where
  active : (s.proc leader).state.active = true
  tid : (s.proc leader).tid = -1
  pid : (s.proc leader).pid = (s.proc p).pid
  staying : (s.pc leader).base ≠ .exitLock

structure Grouped (s : Sys) : Prop where
  pids : ∀ p, (s.proc p).state ≠ .unused →
    0 < (s.proc p).pid ∧ (s.proc p).pid < s.nextpid
  leaders : ∀ p r, (s.proc p).state ≠ .unused → (s.proc r).state ≠ .unused →
    (s.proc p).tid = -1 → (s.proc r).tid = -1 →
      (s.proc p).pid = (s.proc r).pid → p = r
  peers : ∀ p, (s.proc p).state ≠ .unused → (s.proc p).tid ≠ -1 →
    (∃ q, (s.pc q).base.unnamed = some p) ∨
      ∃ leader, (s.proc p).parent = some leader ∧ s.Leads leader p
  fresh : ∀ q np p, (s.pc q).base.unnamed = some np →
    (s.proc p).state ≠ .unused → p ≠ np → (s.proc p).pid ≠ (s.proc np).pid
  bare : ∀ q np, (s.pc q).base.bare = some np → (s.proc np).tid = -1
  adopted : ∀ q np flags, (s.pc q).base = .cloneIds np flags →
    flags.has CLONE_THREAD = true → (s.proc np).parent = s.proc.threadLeader q

theorem OnChild.others_unnamed {s next : Sys} {q np other made : Slot}
    (hon : s.OnChild next q np) (hcore : s.Core) (hne : other ≠ q)
    (hmade : (next.pc other).base.unnamed = some made) :
    (s.pc other).base.unnamed = some made ∧ made ≠ np := by
  obtain ⟨hsame, _, hnp⟩ := hon.others hcore hne (Pc.creates_of_unnamed hmade)
  rw [hsame] at hmade
  exact ⟨hmade, hnp⟩

namespace Grouped

variable {s next : Sys} {label : Label} {q np p : Slot}

theorem led (h : s.Grouped) (hcore : s.Core)
    (hactive : (s.proc p).state.active = true) (htid : (s.proc p).tid ≠ -1) :
    ∃ leader, (s.proc p).parent = some leader ∧ s.Leads leader p := by
  rcases h.peers p (ProcState.ne_unused hactive) htid with ⟨q, hq⟩ | hled
  · rw [hcore.embryo (Pc.creates_of_unnamed hq)] at hactive
    contradiction
  · exact hled

theorem alone (h : s.Grouped) {leader : Slot}
    (hlive : (s.proc leader).state ≠ .unused) (htid : (s.proc leader).tid = -1)
    (hpc : ∀ q, (s.pc q).base.unnamed ≠ some leader)
    (hends : (s.proc leader).state = .zombie ∨ (s.pc leader).base = .exitLock)
    (hp : (s.proc p).state ≠ .unused) (hpid : (s.proc p).pid = (s.proc leader).pid) :
    p = leader := by
  by_cases htid' : (s.proc p).tid = -1
  · exact h.leaders p leader hp hlive htid' htid hpid
  · rcases h.peers p hp htid' with ⟨q, hq⟩ | ⟨other, _, hleads⟩
    · by_contra hne
      exact h.fresh q p leader hq hlive (Ne.symm hne) hpid.symm
    · have hother := ProcState.ne_unused hleads.active
      have heq := h.leaders other leader hother hlive hleads.tid htid
        (hleads.pid.trans hpid)
      subst heq
      rcases hends with hzombie | hleaving
      · have hactive := hleads.active
        rw [hzombie] at hactive
        contradiction
      · exact absurd hleaving hleads.staying

/-- Steps after which every slot has the identity it had, or has been
reaped. -/
theorem keep (h : s.Grouped) (hcore : s.Core)
    (hnextpid : next.nextpid = s.nextpid)
    (hpc : ∀ p, (next.pc p).base = (s.pc p).base ∨
      (s.pc p).base.unnamed = none ∧ (next.pc p).base.unnamed = none)
    (hproc : ∀ p, (next.proc p).state ≠ .unused → (s.proc p).state ≠ .unused ∧
      (next.proc p).pid = (s.proc p).pid ∧ (next.proc p).tid = (s.proc p).tid ∧
        ((s.proc p).tid ≠ -1 → (next.proc p).parent = (s.proc p).parent))
    (hembryo : ∀ p, (s.proc p).state = .embryo → (next.proc p).state ≠ .unused)
    (hleads : ∀ leader p, (next.proc p).state ≠ .unused →
      (next.proc p).tid ≠ -1 → s.Leads leader p →
        (next.proc leader).state.active = true ∧
          (next.pc leader).base ≠ .exitLock)
    (hadopted : ∀ q np flags, (s.pc q).base = .cloneIds np flags →
      (s.proc np).parent = s.proc.threadLeader q →
        (next.proc np).parent = next.proc.threadLeader q) : next.Grouped := by
  have hunnamed : ∀ {q np}, (next.pc q).base.unnamed = some np →
      (next.pc q).base = (s.pc q).base := by
    intro q np hq
    rcases hpc q with heq | ⟨_, hnone⟩
    · exact heq
    · rw [hnone] at hq
      contradiction
  constructor
  case pids =>
    intro p hlive
    obtain ⟨hbefore, hpid, _⟩ := hproc p hlive
    rw [hpid, hnextpid]
    exact h.pids p hbefore
  case leaders =>
    intro p r hp hr htp htr hpid
    obtain ⟨hp', hpidp, htidp, _⟩ := hproc p hp
    obtain ⟨hr', hpidr, htidr, _⟩ := hproc r hr
    rw [htidp] at htp
    rw [htidr] at htr
    rw [hpidp, hpidr] at hpid
    exact h.leaders p r hp' hr' htp htr hpid
  case peers =>
    intro p hp htp
    obtain ⟨hp', hpid, htid, hparent⟩ := hproc p hp
    have htid' : (s.proc p).tid ≠ -1 := by rwa [← htid]
    rcases h.peers p hp' htid' with ⟨q, hq⟩ | ⟨leader, hled, hlead⟩
    · left
      refine ⟨q, ?_⟩
      rcases hpc q with heq | ⟨hnone, _⟩
      · rw [heq]
        exact hq
      · rw [hnone] at hq
        contradiction
    · right
      obtain ⟨hactive, hstaying⟩ := hleads leader p hp htp hlead
      obtain ⟨_, hpidl, htidl, _⟩ := hproc leader (ProcState.ne_unused hactive)
      exact ⟨leader, (hparent htid').trans hled, hactive,
        htidl.trans hlead.tid, by rw [hpidl, hpid, hlead.pid], hstaying⟩
  case fresh =>
    intro q np p hq hp hne
    have hsame := hunnamed hq
    rw [hsame] at hq
    have hnp := hembryo np (hcore.embryo (Pc.creates_of_unnamed hq))
    obtain ⟨_, hpidnp, _⟩ := hproc np hnp
    obtain ⟨hp', hpid, _⟩ := hproc p hp
    rw [hpid, hpidnp]
    exact h.fresh q np p hq hp' hne
  case bare =>
    intro q np hq
    have hsame := hunnamed (Pc.unnamed_of_bare hq)
    rw [hsame] at hq
    have hcreates := Pc.creates_of_unnamed (Pc.unnamed_of_bare hq)
    obtain ⟨_, _, htid, _⟩ := hproc np (hembryo np (hcore.embryo hcreates))
    rw [htid]
    exact h.bare q np hq
  case adopted =>
    intro q np flags hq hflags
    have hnamed : (next.pc q).base.unnamed = some np := by
      rw [hq]
      rfl
    rw [hunnamed hnamed] at hq
    exact hadopted q np flags hq (h.adopted q np flags hq hflags)

theorem unnamed_of_children (h : s.SameChildren next) (p : Slot) :
    (next.pc p).base = (s.pc p).base ∨
      (s.pc p).base.unnamed = none ∧ (next.pc p).base.unnamed = none :=
  (h p).imp_right fun hnone =>
    ⟨Pc.unnamed_none hnone.1, Pc.unnamed_none hnone.2⟩

theorem reaps (h : s.Grouped) (hcore : s.Core) {reaped : Slot → Prop}
    (hreaps : s.Reaps next q reaped) (hchildren : s.SameChildren next)
    (hleave : (s.proc q).tid = -1 → (next.pc q).base = .exitLock →
      (s.pc q).base = .exitLock ∨
        ∀ p, (next.proc p).state ≠ .unused → (next.proc p).tid ≠ -1 →
          (next.proc p).pid ≠ (s.proc q).pid) : next.Grouped := by
  have hsame : ∀ p, (next.proc p).state ≠ .unused →
      (s.proc p).Same (next.proc p) := by
    intro p hlive
    rcases hreaps.proc p with ⟨_, hclear⟩ | ⟨_, hsame⟩
    · exact absurd hclear.state hlive
    · exact hsame
  have hkept : ∀ p, (s.proc p).state ≠ .zombie →
      (s.proc p).Same (next.proc p) := by
    intro p hzombie
    rcases hreaps.proc p with ⟨_, hclear⟩ | ⟨_, hsame⟩
    · exact absurd hclear.zombie hzombie
    · exact hsame
  have hactive : ∀ p, (s.proc p).state.active = true →
      (s.proc p).Same (next.proc p) := by
    intro p hp
    apply hkept
    intro hzombie
    rw [hzombie] at hp
    contradiction
  refine h.keep hcore hreaps.nextpid (unnamed_of_children hchildren) ?_ ?_ ?_ ?_
  · intro p hlive
    have hp := hsame p hlive
    refine ⟨?_, hp.pid, hp.tid, fun _ => hp.parent⟩
    intro hunused
    exact hlive ((hp.state_eq rfl).mpr hunused)
  · intro p hembryo hunused
    have hp := hkept p (by rw [hembryo]; simp)
    rw [(hp.state_eq rfl).mp hunused] at hembryo
    contradiction
  · intro leader p hp htp hleads
    have hleader := hactive leader hleads.active
    refine ⟨hleader.active.trans hleads.active, fun hexit => ?_⟩
    by_cases heq : leader = q
    · subst heq
      rcases hleave hleads.tid hexit with hbefore | hnone
      · exact hleads.staying hbefore
      · refine hnone p hp htp ?_
        rw [(hsame p hp).pid, hleads.pid]
    · rw [hreaps.pc leader heq] at hexit
      exact hleads.staying hexit
  · intro creator np flags hcreator hparent
    have hcreates : (s.pc creator).base.creates = some np := by
      rw [hcreator]
      rfl
    have hnp := hkept np (by rw [hcore.embryo hcreates]; simp)
    have hc := hactive creator (hcore.creator hcreates)
    rw [hnp.parent, hparent, Table.threadLeader, Table.threadLeader, hc.tid,
      hc.parent]

theorem own (h : s.Grouped) (hcore : s.Core)
    (hnextpid : next.nextpid = s.nextpid) (hchildren : s.SameChildren next)
    (hpc : ∀ p, p ≠ q → next.pc p = s.pc p)
    (hstay : (next.pc q).base ≠ .exitLock)
    (hstate : ∀ p, (next.proc p).state = (s.proc p).state)
    (hpid : ∀ p, (next.proc p).pid = (s.proc p).pid)
    (htid : ∀ p, (next.proc p).tid = (s.proc p).tid)
    (hparent : ∀ p, (next.proc p).parent = (s.proc p).parent) :
    next.Grouped := by
  refine h.keep hcore hnextpid (unnamed_of_children hchildren) ?_ ?_ ?_ ?_
  · intro p hlive
    rw [hstate] at hlive
    exact ⟨hlive, hpid p, htid p, fun _ => hparent p⟩
  · intro p hembryo
    rw [hstate, hembryo]
    simp
  · intro leader p _ _ hleads
    refine ⟨by rw [hstate, hleads.active], fun hexit => ?_⟩
    by_cases heq : leader = q
    · subst heq
      exact hstay hexit
    · rw [hpc leader heq] at hexit
      exact hleads.staying hexit
  · intro creator np flags _ hadopted
    rw [hparent, hadopted, Table.threadLeader, Table.threadLeader, htid, hparent]

theorem exit (h : s.Grouped) (hcore : s.Core) {c : Cpu}
    (hrunning : (s.proc q).state = .running) (hpc : s.pc q = .exitLock) :
    (s.exitLock c q).Grouped := by
  have hbase : (s.pc q).base = .exitLock := by
    rw [hpc]
    rfl
  have hfields := s.proc.exitSlot_fields q
  have hunused : ∀ p, (s.proc.exitSlot q p).state = .unused ↔
      (s.proc p).state = .unused :=
    s.proc.exitSlot_unused (by rw [hrunning]; simp)
  have hother : ∀ {p}, (s.proc p).tid ≠ -1 ∨ (s.proc p).parent ≠ some q →
      (s.proc.exitSlot q p).parent = (s.proc p).parent := by
    intro p hp
    rw [Table.exitSlot_parent, if_neg]
    simp only [Table.isChild, decide_eq_true_eq]
    intro hchild
    exact hp.elim (· hchild.2) (· hchild.1)
  have hnotleader : ∀ {leader p}, s.Leads leader p → leader ≠ q := by
    rintro leader p hleads rfl
    exact hleads.staying hbase
  have hchildren : s.SameChildren (s.exitLock c q) := by
    refine sameChildren_of_none (fun _ hne => setSlot_other _ _ hne) ?_ ?_
    · rw [hbase]
      rfl
    · simp [exitLock, Pc.base, Pc.creates]
  refine h.keep hcore rfl (unnamed_of_children hchildren) ?_ ?_ ?_ ?_
  · intro p hlive
    exact ⟨fun hu => hlive ((hunused p).mpr hu), (hfields p).pid,
      (hfields p).tid, fun htid => hother (.inl htid)⟩
  · intro p hembryo hu
    rw [(hunused p).mp hu] at hembryo
    contradiction
  · intro leader p _ _ hleads
    have hne := hnotleader hleads
    refine ⟨(s.proc.keeps_exitSlot hne).active.trans hleads.active, ?_⟩
    simpa [exitLock, setSlot_other, hne] using hleads.staying
  · intro creator np flags hcreator hparent
    have hactive : (s.proc creator).state.active = true := by
      apply hcore.creator
      rw [hcreator]
      rfl
    -- The leader of a creator is not the thread that exits.
    have hleader : s.proc.threadLeader creator ≠ some q := by
      rw [Table.threadLeader]
      split
      next =>
        rintro ⟨⟩
        rw [hbase] at hcreator
        contradiction
      next htid =>
        intro hq
        obtain ⟨leader, hled, hleads⟩ := h.led hcore hactive htid
        rw [hq] at hled
        cases hled
        exact hnotleader hleads rfl
    have hnp := hother (p := np) (.inr (by rwa [hparent]))
    have htid : (s.proc.exitSlot q creator).tid = (s.proc creator).tid :=
      (hfields creator).tid
    refine hnp.trans (hparent.trans ?_)
    simp only [Table.threadLeader, exitLock, sched_proc, htid]
    split
    next => rfl
    next htid => rw [hother (.inl htid)]

theorem threadLeader_eq (h : s.Grouped) (hcore : s.Core) {leader : Slot}
    (hp : (s.proc p).state.active = true)
    (hlive : (s.proc leader).state ≠ .unused) (htid : (s.proc leader).tid = -1) :
    s.proc.threadLeader p = some leader ↔
      (s.proc p).pid = (s.proc leader).pid := by
  rw [Table.threadLeader]
  split
  next htidp =>
    constructor
    · rintro ⟨⟩
      rfl
    · intro hpid
      rw [h.leaders p leader (ProcState.ne_unused hp) hlive htidp htid hpid]
  next htidp =>
    obtain ⟨other, hled, hleads⟩ := h.led hcore hp htidp
    rw [hled]
    constructor
    · rintro ⟨⟩
      exact hleads.pid.symm
    · intro hpid
      rw [h.leaders other leader (ProcState.ne_unused hleads.active) hlive
        hleads.tid htid (hleads.pid.trans hpid)]

theorem handOff_threadLeader (h : s.Grouped) (hcore : s.Core) {leader : Slot}
    (htid : (s.proc q).tid ≠ -1) (hleads : s.Leads leader q)
    (hp : (s.proc p).state.active = true) (hpq : p ≠ q) :
    (s.proc.handOff q leader).threadLeader p =
      if s.proc.threadLeader p = some leader then some q
      else s.proc.threadLeader p := by
  have hlive := ProcState.ne_unused hleads.active
  have hgroup := h.threadLeader_eq hcore hp hlive hleads.tid
  rw [hleads.pid] at hgroup
  by_cases hpid : (s.proc p).pid = (s.proc q).pid
  · have hpeer : (s.proc.handOff q leader p).tid ≠ -1 := by
      rw [Table.handOff_tid, if_neg hpq]
      split
      next => exact htid
      next hpl =>
        intro htidp
        exact hpl (h.leaders p leader (ProcState.ne_unused hp) hlive htidp
          hleads.tid (hpid.trans hleads.pid.symm))
    rw [if_pos (hgroup.mpr hpid), Table.threadLeader, if_neg hpeer]
    exact (s.proc.handOff_peer hpid hpq).1
  · have hpl : p ≠ leader := by
      rintro rfl
      exact hpid hleads.pid
    rw [if_neg fun hl => hpid (hgroup.mp hl), Table.threadLeader,
      Table.threadLeader, Table.handOff_tid, if_neg hpq, if_neg hpl]
    split
    next => rfl
    next htidp =>
      rw [(s.proc.handOff_foreign hpid hpl).1,
        if_neg fun hchild => htidp hchild.2]

theorem handOff (h : s.Grouped) (hcore : s.Core) {leader : Slot}
    (hrunning : (s.proc q).state = .running)
    (hpc : s.pc q = .execLock (some leader)) (htid : (s.proc q).tid ≠ -1)
    (hparent : (s.proc q).parent = some leader) :
    Grouped ({ s with proc := s.proc.handOff q leader }.finish q
      (.tgkillCheck .exec)) := by
  have hactive := ProcState.active_of_running hrunning
  have hleads : s.Leads leader q := by
    obtain ⟨other, hled, hleads⟩ := h.led hcore hactive htid
    rw [hparent] at hled
    cases hled
    exact hleads
  have hlive := ProcState.ne_unused hleads.active
  have hne : q ≠ leader := fun heq => htid (by rw [heq, hleads.tid])
  have hrewired := s.proc.rewired_handOff q leader
  have hnewtid := s.proc.handOff_tid q leader
  have hothertid : ∀ {p}, p ≠ q → p ≠ leader →
      (s.proc.handOff q leader p).tid = (s.proc p).tid := by
    intro p hpq hpl
    rw [hnewtid, if_neg hpq, if_neg hpl]
  -- A slot that leads afterwards is the caller, or led before.
  have hled : ∀ {p}, (s.proc.handOff q leader p).tid = -1 → p ≠ q →
      p ≠ leader ∧ (s.proc p).tid = -1 := by
    intro p hp hpq
    have hpl : p ≠ leader := by
      rintro rfl
      rw [hnewtid, if_neg hpq, if_pos rfl] at hp
      exact htid hp
    exact ⟨hpl, (hothertid hpq hpl).symm.trans hp⟩
  have hcreator : ∀ {p np}, (((s.finish q (.tgkillCheck .exec)).pc p).base.creates =
      some np) → p ≠ q ∧ (s.pc p).base.creates = some np := by
    intro p np hcreates
    have hpq : p ≠ q := by
      rintro rfl
      simp [Pc.base, Pc.creates] at hcreates
    rw [finish_pc, setSlot_other _ _ hpq] at hcreates
    exact ⟨hpq, hcreates⟩
  constructor
  case pids =>
    intro p hp
    rw [finish_proc, (hrewired p).state] at hp
    rw [finish_proc, (hrewired p).pid]
    exact h.pids p hp
  case leaders =>
    intro p r hp hr htp htr hpid
    rw [finish_proc, (hrewired p).state] at hp
    rw [finish_proc, (hrewired r).state] at hr
    simp only [finish_proc, (hrewired _).pid] at hpid
    by_cases hpq : p = q <;> by_cases hrq : r = q
    · rw [hpq, hrq]
    · obtain ⟨hrl, htr⟩ := hled htr hrq
      refine absurd (h.leaders r leader hr hlive htr hleads.tid ?_) hrl
      rw [← hpid, hpq, hleads.pid]
    · obtain ⟨hpl, htp⟩ := hled htp hpq
      refine absurd (h.leaders p leader hp hlive htp hleads.tid ?_) hpl
      rw [hpid, hrq, hleads.pid]
    · exact h.leaders p r hp hr (hled htp hpq).2 (hled htr hrq).2 hpid
  case peers =>
    intro p hp htp
    rw [finish_proc, (hrewired p).state] at hp
    have hpq : p ≠ q := by
      rintro rfl
      rw [finish_proc, hnewtid, if_pos rfl] at htp
      exact htp rfl
    by_cases hgroup : (s.proc p).pid = (s.proc q).pid
    · right
      refine ⟨q, (s.proc.handOff_peer hgroup hpq).1, ?_, ?_, ?_, ?_⟩
      · rw [finish_proc, (hrewired q).state]
        exact hactive
      · rw [finish_proc, hnewtid, if_pos rfl]
      · rw [finish_proc, (hrewired q).pid, (hrewired p).pid, hgroup]
      · simp [Pc.base]
    · have hpl : p ≠ leader := by
        rintro rfl
        exact hgroup hleads.pid
      rw [finish_proc, hothertid hpq hpl] at htp
      rcases h.peers p hp htp with ⟨creator, hcreates⟩ | ⟨other, hother, hlead⟩
      · left
        refine ⟨creator, ?_⟩
        have hcq : creator ≠ q := by
          rintro rfl
          rw [hpc] at hcreates
          contradiction
        rw [finish_pc, setSlot_other _ _ hcq]
        exact hcreates
      · right
        have hoq : other ≠ q := fun heq => htid (by rw [← heq, hlead.tid])
        have hol : other ≠ leader := by
          rintro rfl
          exact hgroup (hlead.pid.symm.trans hleads.pid)
        refine ⟨other, ?_, ?_, ?_, ?_, ?_⟩
        · rw [finish_proc, (s.proc.handOff_foreign hgroup hpl).1,
            if_neg fun hchild => htp hchild.2]
          exact hother
        · rw [finish_proc, (hrewired other).state]
          exact hlead.active
        · rw [finish_proc, hothertid hoq hol]
          exact hlead.tid
        · rw [finish_proc, (hrewired other).pid, (hrewired p).pid]
          exact hlead.pid
        · rw [finish_pc, setSlot_other _ _ hoq]
          exact hlead.staying
  case fresh =>
    intro creator np p hcreates hp hpnp
    obtain ⟨hcq, _⟩ := hcreator (Pc.creates_of_unnamed hcreates)
    rw [finish_pc, setSlot_other _ _ hcq] at hcreates
    rw [finish_proc, (hrewired p).state] at hp
    rw [finish_proc, (hrewired p).pid, (hrewired np).pid]
    exact h.fresh creator np p hcreates hp hpnp
  case bare =>
    intro creator np hcreates
    obtain ⟨hcq, hbefore⟩ :=
      hcreator (Pc.creates_of_unnamed (Pc.unnamed_of_bare hcreates))
    have hembryo := hcore.embryo hbefore
    rw [finish_pc, setSlot_other _ _ hcq] at hcreates
    rw [finish_proc, hothertid]
    · exact h.bare creator np hcreates
    · rintro rfl
      rw [hembryo] at hrunning
      contradiction
    · rintro rfl
      have hlead := hleads.active
      rw [hembryo] at hlead
      contradiction
  case adopted =>
    intro creator np flags hcreates hflags
    have hmakes : ((s.finish q (.tgkillCheck .exec)).pc creator).base.creates =
        some np := by
      rw [finish_pc] at hcreates ⊢
      rw [hcreates]
      rfl
    obtain ⟨hcq, hbefore⟩ := hcreator hmakes
    rw [finish_pc, setSlot_other _ _ hcq] at hcreates
    have hnamed : (s.pc creator).base.unnamed = some np := by
      rw [hcreates]
      rfl
    have hnptid := h.bare creator np (by rw [hcreates]; rfl)
    have hnpq : q ≠ np := by
      rintro rfl
      exact htid hnptid
    have hnpl : np ≠ leader := by
      rintro rfl
      have hlead := hleads.active
      rw [hcore.embryo hbefore] at hlead
      contradiction
    have hforeign := h.fresh creator np q hnamed (ProcState.ne_unused hactive)
      hnpq
    rw [finish_proc, (s.proc.handOff_foreign hforeign.symm hnpl).1,
      h.handOff_threadLeader hcore htid hleads (hcore.creator hbefore) hcq,
      h.adopted creator np flags hcreates hflags]
    simp only [hnptid, and_true]

theorem child (h : s.Grouped) (hcore : s.Core) (hon : s.OnChild next q np)
    (hrunning : (s.proc q).state = .running)
    (hnextpid : s.nextpid ≤ next.nextpid)
    (hstay : (next.pc q).base ≠ .exitLock)
    (hpid : (next.proc np).state ≠ .unused →
      0 < (next.proc np).pid ∧ (next.proc np).pid < next.nextpid)
    (hlead : (next.proc np).state ≠ .unused → (next.proc np).tid = -1 →
      ∀ p, p ≠ np → (s.proc p).state ≠ .unused → (s.proc p).tid = -1 →
        (s.proc p).pid ≠ (next.proc np).pid)
    (hpeer : (next.proc np).state ≠ .unused → (next.proc np).tid ≠ -1 →
      (next.pc q).base.unnamed = some np ∨
        ∃ leader, (next.proc np).parent = some leader ∧ s.Leads leader q ∧
          (next.proc np).pid = (s.proc q).pid)
    (hfresh : (next.pc q).base.unnamed = some np →
      ∀ p, p ≠ np → (s.proc p).state ≠ .unused →
        (s.proc p).pid ≠ (next.proc np).pid)
    (hothers : (next.proc np).state ≠ .unused →
      ∀ other made, other ≠ q → (s.pc other).base.unnamed = some made →
        (next.proc np).pid ≠ (s.proc made).pid)
    (hbare : ∀ made, (next.pc q).base.bare = some made →
      (next.proc np).tid = -1)
    (hadopted : ∀ made flags, (next.pc q).base = .cloneIds made flags →
      flags.has CLONE_THREAD = true →
        (next.proc np).parent = s.proc.threadLeader q) : next.Grouped := by
  -- A leader of a slot other than the new one leads on.
  have hleads : ∀ {leader p}, s.Leads leader p →
      (next.proc p).pid = (s.proc p).pid → next.Leads leader p := by
    intro leader p hleads hsame
    have hne := hon.ne_of_active hleads.active
    refine ⟨?_, ?_, ?_, ?_⟩
    · rw [hon.proc leader hne]
      exact hleads.active
    · rw [hon.proc leader hne]
      exact hleads.tid
    · rw [hon.proc leader hne, hsame]
      exact hleads.pid
    · by_cases heq : leader = q
      · rw [heq]
        exact hstay
      · rw [hon.pc leader heq hne]
        exact hleads.staying
  constructor
  case pids =>
    intro p hp
    by_cases heq : p = np
    · subst heq
      exact hpid hp
    · rw [hon.proc p heq] at hp ⊢
      obtain ⟨hpos, hlt⟩ := h.pids p hp
      exact ⟨hpos, lt_of_lt_of_le hlt hnextpid⟩
  case leaders =>
    intro p r hp hr htp htr hpr
    by_cases hpnp : p = np <;> by_cases hrnp : r = np
    · rw [hpnp, hrnp]
    · subst hpnp
      rw [hon.proc r hrnp] at hr htr hpr
      exact absurd hpr.symm (hlead hp htp r hrnp hr htr)
    · subst hrnp
      rw [hon.proc p hpnp] at hp htp hpr
      exact absurd hpr (hlead hr htr p hpnp hp htp)
    · rw [hon.proc p hpnp] at hp htp hpr
      rw [hon.proc r hrnp] at hr htr hpr
      exact h.leaders p r hp hr htp htr hpr
  case peers =>
    intro p hp htp
    by_cases heq : p = np
    · subst heq
      rcases hpeer hp htp with hnamed | ⟨leader, hparent, hlead, hgroup⟩
      · exact .inl ⟨q, hnamed⟩
      · have hqp := hon.proc q hon.ne.symm
        have hnext := hleads hlead (by rw [hqp])
        exact .inr ⟨leader, hparent, hnext.active, hnext.tid,
          by rw [hnext.pid, hqp, hgroup], hnext.staying⟩
    · have hsame := hon.proc p heq
      rw [hsame] at hp htp ⊢
      rcases h.peers p hp htp with ⟨creator, hcreates⟩ | ⟨leader, hparent, hlead⟩
      · left
        have hcq : creator ≠ q := by
          rintro rfl
          exact heq (hon.was p (Pc.creates_of_unnamed hcreates)).symm
        have hcnp := hon.ne_of_active (hcore.creator (Pc.creates_of_unnamed hcreates))
        exact ⟨creator, by rw [hon.pc creator hcq hcnp]; exact hcreates⟩
      · exact .inr ⟨leader, hparent, hleads hlead (by rw [hsame])⟩
  case fresh =>
    intro creator made p hcreates hp hne
    by_cases hcq : creator = q
    · subst hcq
      obtain rfl := hon.now made (Pc.creates_of_unnamed hcreates)
      rw [hon.proc p hne] at hp ⊢
      exact hfresh hcreates p hne hp
    · obtain ⟨hbefore, hmade⟩ := hon.others_unnamed hcore hcq hcreates
      rw [hon.proc made hmade]
      by_cases hpnp : p = np
      · subst hpnp
        exact hothers hp creator made hcq hbefore
      · rw [hon.proc p hpnp] at hp ⊢
        exact h.fresh creator made p hbefore hp hne
  case bare =>
    intro creator made hcreates
    by_cases hcq : creator = q
    · subst hcq
      rw [← hon.now made (Pc.creates_of_unnamed (Pc.unnamed_of_bare hcreates))]
      exact hbare made hcreates
    · obtain ⟨hsame, _, hmade⟩ := hon.others hcore hcq
        (Pc.creates_of_unnamed (Pc.unnamed_of_bare hcreates))
      rw [hsame] at hcreates
      rw [hon.proc made hmade]
      exact h.bare creator made hcreates
  case adopted =>
    intro creator made flags hcreates hflags
    have hleader : ∀ {p}, (s.proc p).state.active = true →
        next.proc.threadLeader p = s.proc.threadLeader p := by
      intro p hp
      rw [Table.threadLeader, Table.threadLeader, hon.proc p (hon.ne_of_active hp)]
    have hnamed : (next.pc creator).base.unnamed = some made := by
      rw [hcreates]
      rfl
    by_cases hcq : creator = q
    · subst hcq
      rw [← hon.now made (Pc.creates_of_unnamed hnamed), hadopted made flags hcreates hflags,
        hleader (ProcState.active_of_running hrunning)]
    · obtain ⟨hsame, hbefore, hmade⟩ := hon.others hcore hcq
        (Pc.creates_of_unnamed hnamed)
      rw [hsame] at hcreates
      rw [hon.proc made hmade, hleader (hcore.creator hbefore)]
      exact h.adopted creator made flags hcreates hflags

theorem unnamed (h : s.Grouped) (hcore : s.Core) (hon : s.OnChild next q np)
    (hrunning : (s.proc q).state = .running)
    (hnextpid : s.nextpid ≤ next.nextpid)
    (hq : (s.pc q).base.unnamed = some np)
    (hsame : (next.proc np).pid = (s.proc np).pid)
    (hstay : (next.pc q).base ≠ .exitLock)
    (hpeer : (next.proc np).state ≠ .unused → (next.proc np).tid ≠ -1 →
      (next.pc q).base.unnamed = some np)
    (hbare : ∀ made, (next.pc q).base.bare = some made →
      (next.proc np).tid = -1)
    (hadopted : ∀ made flags, (next.pc q).base = .cloneIds made flags →
      flags.has CLONE_THREAD = true →
        (next.proc np).parent = s.proc.threadLeader q) : next.Grouped := by
  have hlive : (s.proc np).state ≠ .unused := by
    rw [hcore.embryo (Pc.creates_of_unnamed hq)]
    simp
  refine h.child hcore hon hrunning hnextpid hstay ?_ ?_ ?_ ?_ ?_ hbare hadopted
  · intro _
    rw [hsame]
    obtain ⟨hpos, hlt⟩ := h.pids np hlive
    exact ⟨hpos, lt_of_lt_of_le hlt hnextpid⟩
  · intro _ _ p hne hp _
    rw [hsame]
    exact h.fresh q np p hq hp hne
  · exact fun hp htp => .inl (hpeer hp htp)
  · intro _ p hne hp
    rw [hsame]
    exact h.fresh q np p hq hp hne
  · intro _ other made hne hmade
    rw [hsame]
    refine h.fresh other made np hmade hlive ?_
    rintro rfl
    exact hne (hcore.owner (Pc.creates_of_unnamed hmade)
      (Pc.creates_of_unnamed hq))

end Grouped

end Sys

end KernelThreads
