import KernelThreads.Group.Invariant

namespace KernelThreads

open Lib

namespace Sys

/-! Conditions on a step under which groups stay whole. -/

/-- A leader that exits is not marked killed while it has live peers: `tgkill`
would return before they have died. -/
def keepsPeers (s : Sys) (label : Label) : Bool :=
  s.actor label fun q point =>
    match point with
    | .tgkillLock .exit | .tgkillSlept .exit =>
        (s.proc q).tid ≠ -1 ∨ (s.proc q).killed = false ∨
          s.proc.tgkillLive q = none
    | _ => true

/-- The leader that `exec` read before it took the lock still leads the
caller. -/
def handsOffFresh (s : Sys) (label : Label) : Bool :=
  s.actor label fun q point =>
    match point with
    | .execLock leader => (s.proc q).tid = -1 ∨ (s.proc q).parent = leader
    | _ => true

/-- `exec` is called by leaders only. -/
def execsLed (s : Sys) (label : Label) : Bool :=
  s.actor label fun q point =>
    match point with
    | .execLock _ => (s.proc q).tid = -1
    | _ => true

/-- `CLONE_THREAD` and `CLONE_PARENT` are not used together. -/
def flagsApart (flags : Flags) : Bool :=
  !(flags.has CLONE_THREAD && flags.has CLONE_PARENT)

def clonesApart (s : Sys) (label : Label) : Bool :=
  s.actor label fun _ point =>
    match point with
    | .cloneSetup _ flags _ => flagsApart flags
    | _ => true

section Guards

variable {s : Sys} {label : Label} {q : Slot}

theorem keeps_peers (h : s.keepsPeers label = true)
    (hact : s.acting label = some q)
    (hpc : s.pc q = .tgkillLock .exit ∨ s.pc q = .tgkillSlept .exit)
    (htid : (s.proc q).tid = -1) (hlive : s.proc.tgkillLive q ≠ none) :
    (s.proc q).killed = false := by
  have htest := actor_test h hact
  rcases hpc with hpc | hpc <;> simpa [hpc, htid, hlive] using htest

theorem hands_off_fresh {leader : Slot} (h : s.handsOffFresh label = true)
    (hact : s.acting label = some q) (hpc : s.pc q = .execLock (some leader))
    (htid : (s.proc q).tid ≠ -1) : (s.proc q).parent = some leader := by
  have htest := actor_test h hact
  simpa [hpc, htid] using htest

theorem execs_led {leader : Option Slot} (h : s.execsLed label = true)
    (hact : s.acting label = some q) (hpc : s.pc q = .execLock leader) :
    (s.proc q).tid = -1 := by
  have htest := actor_test h hact
  simpa [hpc] using htest

theorem clones_apart {np : Slot} {flags : Flags} {childStack : Nat}
    (h : s.clonesApart label = true) (hact : s.acting label = some q)
    (hpc : s.pc q = .cloneSetup np flags childStack)
    (hthread : flags.has CLONE_THREAD = true) :
    flags.has CLONE_PARENT = false := by
  have htest := actor_test h hact
  simpa [hpc, flagsApart, hthread] using htest

end Guards

theorem Flow.leave {t : Table} {q : Slot} {before : Pc}
    (hflow : Flow t q before .exitLock) (htid : (t q).tid = -1) :
    before = .exitLock := by
  generalize hafter : Pc.exitLock = after at hflow
  cases hflow with
  | same => rfl
  | plain _ hto =>
      subst hafter
      contradiction
  | exitPeer hpeer => exact absurd htid hpeer
  | peer hpeer =>
      refine absurd ?_ hpeer
      rw [Table.threadLeader, if_pos htid]
  | _ => contradiction

theorem TgkillEnds.none_left {s next : Sys} {q p : Slot} {caller : TgkillCaller}
    (hends : s.TgkillEnds q caller next) (hnone : s.proc.tgkillLive q = none)
    (hp : (next.proc p).state ≠ .unused) (htid : (next.proc p).tid ≠ -1) :
    (next.proc p).pid ≠ (s.proc q).pid := by
  intro hpid
  rcases hends.reaps.proc p with ⟨_, hclear⟩ | ⟨hkept, hsame⟩
  · exact hp hclear.state
  · rw [hsame.pid] at hpid
    rw [hsame.tid] at htid
    have htest := firstSlot_eq_none_iff.mp hnone p
    have hpeer : s.proc.isPeer q p = true := by
      simp [Table.isPeer, hpid, htid]
    have hzombie : (s.proc p).state = .zombie := by
      simpa [hpeer] using htest
    refine hkept ⟨hpeer, hzombie, ?_⟩
    rw [hnone]
    rfl

theorem TgkillEnds.leave {s next : Sys} {label : Label} {q : Slot}
    {caller : TgkillCaller} (hends : s.TgkillEnds q caller next)
    (hguard : s.keepsPeers label = true) (hact : s.acting label = some q)
    (hpc : s.pc q = .tgkillLock caller ∨ s.pc q = .tgkillSlept caller)
    (htid : (s.proc q).tid = -1) (hexit : (next.pc q).base = .exitLock) :
    ∀ p, (next.proc p).state ≠ .unused → (next.proc p).tid ≠ -1 →
      (next.proc p).pid ≠ (s.proc q).pid := by
  intro p hp htp
  rcases hends.pc with ⟨hnone, _⟩ | ⟨hlive, hif, hnext⟩ | ⟨_, _, hnext⟩
  · exact hends.none_left hnone hp htp
  · have hcaller : caller = .exit := by
      rw [hnext] at hexit
      cases caller <;> simp_all [tgkillReturn, Pc.base]
    subst hcaller
    have hkilled := keeps_peers hguard hact hpc htid hlive
    rw [hkilled] at hif
    simp [htid] at hif
  · rw [hnext] at hexit
    contradiction

namespace Grouped

variable {s next : Sys} {label : Label} {q np : Slot}

theorem allocates (h : s.Grouped) (hcore : s.Core) {flags : Flags}
    {childStack : Nat} (hrunning : (s.proc q).state = .running)
    (hpc : s.pc q = .allocproc flags childStack)
    (hfound : s.proc.findUnused = some np) :
    Grouped ({ s with
      proc := setSlot s.proc np
        { s.proc np with state := .embryo, pid := s.nextpid }
      nextpid := s.nextpid + 1 }.finish q (.cloneKstack np flags childStack)) := by
  have hlive : (s.proc q).state ≠ .unused := by
    rw [hrunning]
    simp
  have hpid := h.pids q hlive
  refine h.child hcore (.allocates hcore hrunning hpc hfound) hrunning ?_ ?_ ?_ ?_
    ?_ ?_ ?_ ?_ ?_
  · simp only [finish_nextpid]
    omega
  · simp [Pc.base]
  · simp only [finish_proc, finish_nextpid, setSlot_same]
    omega
  · intro _ _ p _ hp _
    have hlt := (h.pids p hp).2
    simp only [finish_proc, setSlot_same]
    omega
  · simp [Pc.base, Pc.unnamed]
  · intro _ p _ hp
    have hlt := (h.pids p hp).2
    simp only [finish_proc, setSlot_same]
    omega
  · intro _ other made _ hmade
    have hembryo : (s.proc made).state ≠ .unused := by
      rw [hcore.embryo (Pc.creates_of_unnamed hmade)]
      simp
    have hlt := (h.pids made hembryo).2
    simp only [finish_proc, setSlot_same]
    omega
  · simp [Pc.base, Pc.bare]
  · simp [Pc.base]

theorem kstack (h : s.Grouped) (hcore : s.Core) {flags : Flags}
    {childStack : Nat} (hrunning : (s.proc q).state = .running)
    (hpc : s.pc q = .cloneKstack np flags childStack) (frame : Option Frame) :
    (s.cloneKstack q np flags childStack frame).Grouped := by
  have hon := OnChild.kstack hcore hpc frame
  have hq : (s.pc q).base.unnamed = some np := by
    rw [hpc]
    rfl
  cases frame with
  | none =>
      refine h.unnamed hcore hon hrunning le_rfl hq ?_ ?_ ?_ ?_ ?_ <;>
        simp [cloneKstack, Pc.base, Pc.unnamed, Pc.bare]
  | some frame =>
      refine h.unnamed hcore hon hrunning le_rfl hq ?_ ?_ ?_ ?_ ?_ <;>
        simp [cloneKstack, Pc.base, Pc.unnamed]

theorem setup (h : s.Grouped) (hcore : s.Core) {flags : Flags}
    {childStack : Nat} (hact : s.acting label = some q)
    (hguard : s.clonesApart label = true)
    (hpc : s.pc q = .cloneSetup np flags childStack)
    (hends : s.SetupEnds q np flags next) : next.Grouped := by
  have hrunning := running_of_acting hcore hact
  have hon := OnChild.setup hcore hpc hends
  have hq : (s.pc q).base.unnamed = some np := by
    rw [hpc]
    rfl
  have hbare : (s.proc np).tid = -1 := by
    apply h.bare q
    rw [hpc]
    rfl
  cases hends with
  | undone _ hbuilds =>
      refine h.unnamed hcore hon hrunning le_rfl hq ?_ ?_ ?_ ?_ ?_ <;>
        simp [undo, Pc.base, Pc.unnamed, Pc.bare, hbuilds.pid]
  | left _ hbuilds =>
      refine h.unnamed hcore hon hrunning le_rfl hq ?_ ?_ ?_ ?_ ?_ <;>
        simp [Pc.base, Pc.unnamed, Pc.bare, hbuilds.pid, hbuilds.tid, hbare]
  | @done tleader p dir built refs hleader hbuilds _ _ hcwd =>
      obtain ⟨_, hpid, htid, _, _, _, hparent⟩ := cloneCwd_builds hcwd hbuilds
      refine h.unnamed hcore hon hrunning le_rfl hq ?_ ?_ ?_ ?_ ?_
      · simpa using hpid
      · simp [Pc.base]
      · simp [Pc.base, Pc.unnamed]
      · simp [htid, hbare]
      · intro made named hnamed hthread
        simp only [goto_pc, setSlot_same, Pc.base, Pc.cloneIds.injEq] at hnamed
        obtain ⟨_, rfl⟩ := hnamed
        have hapart := clones_apart hguard hact hpc hthread
        simp [hparent, hbuilds.parent, hapart, hleader]

theorem leads_of_active (h : s.Grouped) (hcore : s.Core)
    (hactive : (s.proc q).state.active = true)
    (hstay : (s.pc q).base ≠ .exitLock) :
    ∃ leader, s.proc.threadLeader q = some leader ∧ s.Leads leader q := by
  rw [Table.threadLeader]
  split
  next htid => exact ⟨q, rfl, hactive, htid, rfl, hstay⟩
  next htid => exact h.led hcore hactive htid

theorem ids (h : s.Grouped) (hcore : s.Core) {flags : Flags}
    (hrunning : (s.proc q).state = .running)
    (hpc : s.pc q = .cloneIds np flags) : (s.cloneIds q np flags).Grouped := by
  have hon := OnChild.ids hcore hpc
  have hbase : (s.pc q).base = .cloneIds np flags := by
    rw [hpc]
    rfl
  have hq : (s.pc q).base.unnamed = some np := by
    rw [hbase]
    rfl
  have hactive := ProcState.active_of_running hrunning
  by_cases hflags : flags.has CLONE_THREAD = true
  · have hadopted := h.adopted q np flags hbase hflags
    simp only [cloneIds, hflags, if_true] at hon ⊢
    have hembryo : (s.proc np).state ≠ .unused := by
      rw [hcore.embryo (Pc.creates_of_unnamed hq)]
      simp
    have hpid := h.pids np hembryo
    refine h.child hcore hon hrunning le_rfl ?_ ?_ ?_ ?_ ?_ ?_ ?_ ?_
    · simp [Pc.base]
    · intro _
      simpa using h.pids q (ProcState.ne_unused hactive)
    · simp only [goto_proc, setProc_proc, setSlot_same]
      omega
    · intro _ _
      right
      obtain ⟨leader, hleader, hleads⟩ := h.leads_of_active hcore hactive
        (by rw [hbase]; simp)
      refine ⟨leader, ?_, hleads, ?_⟩
      · simpa [hadopted] using hleader
      · simp
    · simp [Pc.base, Pc.unnamed]
    · intro _ other made hne hmade
      simp only [goto_proc, setProc_proc, setSlot_same]
      refine h.fresh other made q hmade (ProcState.ne_unused hactive) ?_
      rintro rfl
      rw [hcore.embryo (Pc.creates_of_unnamed hmade)] at hactive
      contradiction
    · simp [Pc.base, Pc.bare]
    · simp [Pc.base]
  · simp only [cloneIds, hflags] at hon ⊢
    refine h.unnamed hcore hon hrunning le_rfl hq ?_ ?_ ?_ ?_ ?_ <;>
      simp [Pc.base, Pc.unnamed, Pc.bare]

theorem publish (h : s.Grouped) (hcore : s.Core) {retid : Int}
    (hpc : s.pc q = .clonePublish np retid) :
    (s.clonePublish q np retid).Grouped := by
  have hon := OnChild.publish hcore hpc
  have hcreates := creates_at hpc rfl
  have hembryo := hcore.embryo hcreates
  have hother : ∀ {p}, p ≠ q → (s.clonePublish q np retid).pc p = s.pc p := by
    intro p hne
    exact setSlot_other _ _ hne
  have hfield : ∀ {α : Type} (field : Proc → α) (p : Slot),
      (∀ state, field { s.proc np with state := state } = field (s.proc np)) →
        field ((s.clonePublish q np retid).proc p) = field (s.proc p) :=
    fun field p hsame => setSlot_field _ field (hsame _) p
  refine h.keep hcore rfl ?_ ?_ ?_ ?_ ?_
  · intro p
    by_cases heq : p = q
    · subst heq
      right
      rw [hpc]
      simp [clonePublish, Pc.base, Pc.unnamed]
    · rw [hother heq]
      exact .inl rfl
  · intro p hp
    refine ⟨?_, hfield Proc.pid p fun _ => rfl, hfield Proc.tid p fun _ => rfl,
      fun _ => hfield Proc.parent p fun _ => rfl⟩
    by_cases heq : p = np
    · rw [heq, hembryo]
      simp
    · rwa [hon.proc p heq] at hp
  · intro p hp
    by_cases heq : p = np
    · simp [heq, clonePublish]
    · rw [hon.proc p heq, hp]
      simp
  · intro leader p _ _ hleads
    have hne : leader ≠ np := by
      rintro rfl
      have hactive := hleads.active
      rw [hembryo] at hactive
      contradiction
    refine ⟨by rw [hon.proc leader hne, hleads.active], ?_⟩
    by_cases heq : leader = q
    · simp [heq, clonePublish, Pc.base]
    · rw [hother heq]
      exact hleads.staying
  · intro creator made flags hmakes hadopted
    rw [hfield Proc.parent made fun _ => rfl, hadopted, Table.threadLeader,
      Table.threadLeader, hfield Proc.tid creator fun _ => rfl,
      hfield Proc.parent creator fun _ => rfl]

theorem step (h : s.Grouped) (hcore : s.Core)
    (hpeers : s.keepsPeers label = true) (hfresh : s.handsOffFresh label = true)
    (hapart : s.clonesApart label = true) (heffect : s.Effect label next) :
    next.Grouped := by
  cases heffect with
  | quiet hquiet hflow =>
      refine h.reaps hcore hquiet.toReaps
        (sameChildren_of_flow hquiet.pc hflow) fun htid hexit => .inl ?_
      rw [hexit] at hflow
      exact hflow.leave htid
  | allocates hact hpc hfound =>
      exact h.allocates hcore (running_of_acting hcore hact) hpc hfound
  | kstack hact hpc =>
      exact h.kstack hcore (running_of_acting hcore hact) hpc _
  | setup hact hpc hends => exact h.setup hcore hact hapart hpc hends
  | ids hact hpc => exact h.ids hcore (running_of_acting hcore hact) hpc
  | publish _ hpc => exact h.publish hcore hpc
  | files _ hpc | chdir _ hpc | commit _ hpc =>
      refine h.own hcore rfl (sameChildren_setSlot rfl hpc rfl rfl)
        (fun _ hne => setSlot_other _ _ hne) ?_ ?_ ?_ ?_ ?_
      · simp [Pc.base]
      all_goals exact setSlot_field _ _ rfl
  | exit hact hpc => exact h.exit hcore (running_of_acting hcore hact) hpc
  | waited _ hpc _ _ _ _ hreaps _ hnext
  | joined _ hpc _ _ hreaps _ hnext =>
      refine h.reaps hcore hreaps (hreaps.sameChildren hpc hnext rfl rfl) ?_
      simp [hnext, Pc.base]
  | tgkilled hact hpc hends =>
      exact h.reaps hcore hends.reaps (hends.sameChildren hpc)
        fun htid hexit => .inr (hends.leave hpeers hact hpc htid hexit)
  | handOff hact hpc htid =>
      exact h.handOff hcore (running_of_acting hcore hact) hpc htid
        (hands_off_fresh hfresh hact hpc htid)

end Grouped

theorem userinit_grouped (kstack pgdir : Frame) :
    (userinit kstack pgdir).Grouped := by
  have hpc := userinit_creates kstack pgdir
  have hinit : ∀ p, ((userinit kstack pgdir).proc p).state ≠ .unused →
      p = initproc := by
    intro p hp
    by_contra hne
    simp [userinit, setSlot_other, hne] at hp
  have hunnamed : ∀ q, ((userinit kstack pgdir).pc q).base.unnamed = none :=
    fun q => Pc.unnamed_none (hpc q)
  constructor
  case pids =>
    intro p hp
    rw [hinit p hp]
    simp [userinit, userinitProc]
  case leaders =>
    intro p r hp hr _ _ _
    rw [hinit p hp, hinit r hr]
  case peers =>
    intro p hp htid
    rw [hinit p hp] at htid
    simp [userinit, userinitProc] at htid
  case fresh => simp [hunnamed]
  case bare =>
    intro q np hbare
    have hnamed := Pc.unnamed_of_bare hbare
    rw [hunnamed] at hnamed
    contradiction
  case adopted =>
    intro q np flags hids
    have hnone := hpc q
    rw [hids] at hnone
    contradiction

/-- The conditions under which the whole table stays grouped. -/
def sound (s : Sys) (label : Label) : Bool :=
  s.resumesSleeper label && s.keepsPeers label && s.handsOffFresh label &&
    s.clonesApart label

theorem sound_step {s next : Sys} {label : Label} (hcore : s.Core) (hgrouped : s.Grouped)
    (hguard : s.sound label = true) (hstep : s.step label = some next) :
    next.Core ∧ next.Grouped := by
  simp only [sound, Bool.and_eq_true] at hguard
  obtain ⟨⟨⟨hsleeper, hpeers⟩, hfresh⟩, hapart⟩ := hguard
  exact ⟨hcore.step hsleeper hstep, hgrouped.step hcore hpeers hfresh hapart
    (hcore.effect hsleeper hstep)⟩

theorem sound_invariant {kstack pgdir : Frame} {s : Sys}
    (hreach : Reach Sys.step (fun s label => s.sound label = true)
      (userinit kstack pgdir) s) : s.Core ∧ s.Grouped := by
  refine hreach.invariant (fun s => s.Core ∧ s.Grouped)
    ⟨userinit_core .., userinit_grouped ..⟩ ?_
  intro state label next ⟨hcore, hgrouped⟩
  exact sound_step hcore hgrouped

end Sys

end KernelThreads
