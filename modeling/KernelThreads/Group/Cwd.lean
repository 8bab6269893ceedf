import KernelThreads.Sched.Safety
import KernelThreads.Group.Identity

namespace KernelThreads

open Lib

def Table.holders (t : Table) (inode : Nat) : Nat :=
  countSlots fun p => (t p).cwd = some inode

theorem Table.holders_congr {t next : Table}
    (h : ∀ p, (next p).cwd = (t p).cwd) (inode : Nat) :
    next.holders inode = t.holders inode := by
  simp only [Table.holders, h]

theorem Table.holders_setSlot (t : Table) (slot : Slot) (p : Proc) (inode : Nat) :
    Table.holders (setSlot t slot p) inode +
        (if (t slot).cwd = some inode then 1 else 0) =
      t.holders inode + if p.cwd = some inode then 1 else 0 := by
  simpa [Table.holders] using
    countSlots_setSlot t slot p fun p => decide (p.cwd = some inode)

namespace Sys

/-! Working directories: every slot that has one holds a reference of its own
on the inode. -/

structure Referenced (s : Sys) : Prop where
  counted : ∀ inode, s.proc.holders inode ≤ s.iref inode
  present : ∀ p, (s.proc p).state.active = true →
    exiting (s.pc p).base = false → (s.proc p).cwd ≠ none
  mapped : ∀ q np, (s.pc q).base.mapped = some np → (s.proc np).cwd ≠ none

/-- Every `clone` has `CLONE_FS`: without it `clone` sets no working
directory. -/
def clonesFs (s : Sys) (label : Label) : Bool :=
  s.actor label fun _ point =>
    match point with
    | .cloneSetup _ flags _ => flags.has CLONE_FS
    | _ => true

theorem clones_fs {s : Sys} {label : Label} {q np : Slot} {flags : Flags}
    {childStack : Nat} (h : s.clonesFs label = true)
    (hact : s.acting label = some q)
    (hpc : s.pc q = .cloneSetup np flags childStack) :
    flags.has CLONE_FS = true := by
  have htest := actor_test h hact
  simpa only [hpc] using htest

theorem exiting_of_plain {point : Pc} (h : plain point = true) :
    exiting point = false := by
  cases point with
  | tgkillCheck caller => cases caller <;> first | rfl | contradiction
  | _ => first | rfl | contradiction

theorem Flow.exiting_eq {t : Table} {q : Slot} {before after : Pc}
    (hflow : Flow t q before after) : exiting after = exiting before := by
  cases hflow with
  | plain hfrom hto =>
      rw [exiting_of_plain hto]
      simp only [free, Bool.and_eq_true, Bool.not_eq_true'] at hfrom
      exact hfrom.1.symm
  | @leader caller _ => cases caller <;> rfl
  | @peer caller _ => cases caller <;> rfl
  | _ => rfl

theorem TgkillEnds.exiting_eq {s next : Sys} {q : Slot} {caller : TgkillCaller}
    (hends : s.TgkillEnds q caller next)
    (hpc : s.pc q = .tgkillLock caller ∨ s.pc q = .tgkillSlept caller) :
    exiting (next.pc q).base = exiting (s.pc q).base := by
  rcases hpc with hpc | hpc <;>
    rcases hends.pc with ⟨_, hnext⟩ | ⟨_, _, hnext⟩ | ⟨_, _, hnext⟩ <;>
      rw [hpc, hnext] <;> cases caller <;> rfl

namespace Referenced

variable {s next : Sys} {label : Label} {q np : Slot}

theorem keep (h : s.Referenced)
    (hcwd : ∀ p, (next.proc p).cwd = (s.proc p).cwd) (hiref : next.iref = s.iref)
    (hactive : ∀ p, (next.proc p).state.active = true →
      exiting (next.pc p).base = false →
        (s.proc p).state.active = true ∧ exiting (s.pc p).base = false ∨
          ∃ q, (s.pc q).base.mapped = some p)
    (hmapped : ∀ q np, (next.pc q).base.mapped = some np →
      (s.pc q).base.mapped = some np) : next.Referenced where
  counted inode := by
    rw [Table.holders_congr hcwd, hiref]
    exact h.counted inode
  present p hp hstay := by
    rw [hcwd]
    rcases hactive p hp hstay with ⟨hbefore, hstayed⟩ | ⟨q, hq⟩
    · exact h.present p hbefore hstayed
    · exact h.mapped q p hq
  mapped q np hq := by
    rw [hcwd]
    exact h.mapped q np (hmapped q np hq)

theorem mapped_of_children (h : s.SameChildren next) (q np : Slot)
    (hq : (next.pc q).base.mapped = some np) :
    (s.pc q).base.mapped = some np := by
  rwa [← h.creates (Pc.creates_of_mapped hq)]

theorem outside (h : s.Referenced)
    (hcwd : ∀ p, (next.proc p).cwd = (s.proc p).cwd) (hiref : next.iref = s.iref)
    (hactive : ∀ p, (next.proc p).state.active = true →
      (s.proc p).state.active = true)
    (hpc : ∀ p, p ≠ q → next.pc p = s.pc p)
    (hexit : (next.proc q).state.active = true →
      exiting (next.pc q).base = false → exiting (s.pc q).base = false)
    (hchildren : s.SameChildren next) : next.Referenced := by
  refine h.keep hcwd hiref (fun p hp hstay => .inl ⟨hactive p hp, ?_⟩)
    (mapped_of_children hchildren)
  by_cases heq : p = q
  · subst heq
    exact hexit hp hstay
  · rwa [hpc p heq] at hstay

theorem reaps (h : s.Referenced) {reaped : Slot → Prop}
    (hreaps : s.Reaps next q reaped) (hchildren : s.SameChildren next)
    (hexit : exiting (next.pc q).base = exiting (s.pc q).base) :
    next.Referenced := by
  refine h.outside (fun p => ?_) hreaps.iref (fun p hp => ?_) hreaps.pc
    (fun _ hstay => hexit.symm.trans hstay) hchildren
  · rcases hreaps.proc p with ⟨_, hclear⟩ | ⟨_, hsame⟩
    · exact hclear.cwd
    · exact hsame.cwd
  · rcases hreaps.proc p with ⟨_, hclear⟩ | ⟨_, hsame⟩
    · rw [hclear.state] at hp
      contradiction
    · exact hsame.active.symm.trans hp

theorem counted_setSlot (h : s.Referenced) {p : Proc}
    (hcwd : p.cwd = (s.proc np).cwd) (inode : Nat) :
    Table.holders (setSlot s.proc np p) inode ≤ s.iref inode := by
  rw [Table.holders_congr (setSlot_field _ Proc.cwd hcwd)]
  exact h.counted inode

theorem child (h : s.Referenced) (hcore : s.Core) (hon : s.OnChild next q np)
    (hcounted : ∀ inode, next.proc.holders inode ≤ next.iref inode)
    (hstay : exiting (s.pc q).base = false)
    (hidle : (next.proc np).state.active = false)
    (hmapped : ∀ made, (next.pc q).base.mapped = some made →
      (next.proc np).cwd ≠ none) : next.Referenced := by
  constructor
  case counted => exact hcounted
  case present =>
    intro p hp hstaying
    have hne : p ≠ np := by
      rintro rfl
      rw [hidle] at hp
      contradiction
    rw [hon.proc p hne] at hp ⊢
    by_cases hpq : p = q
    · subst hpq
      exact h.present p hp hstay
    · rw [hon.pc p hpq hne] at hstaying
      exact h.present p hp hstaying
  case mapped =>
    intro creator made hmade
    by_cases hcq : creator = q
    · subst hcq
      rw [← hon.now made (Pc.creates_of_mapped hmade)]
      exact hmapped made hmade
    · obtain ⟨hsame, _, hne⟩ := hon.others hcore hcq (Pc.creates_of_mapped hmade)
      rw [hsame] at hmade
      rw [hon.proc made hne]
      exact h.mapped creator made hmade

theorem setup (h : s.Referenced) (hcore : s.Core) {flags : Flags}
    {childStack : Nat} (hact : s.acting label = some q)
    (hguard : s.clonesFs label = true)
    (hpc : s.pc q = .cloneSetup np flags childStack)
    (hends : s.SetupEnds q np flags next) : next.Referenced := by
  have hon := OnChild.setup hcore hpc hends
  have hembryo := hcore.embryo (creates_at hpc rfl)
  have hstay : exiting (s.pc q).base = false := by
    rw [hpc]
    rfl
  cases hends with
  | undone _ hbuilds =>
      refine h.child hcore hon (h.counted_setSlot hbuilds.cwd) hstay ?_ ?_ <;>
        simp [undo, ProcState.active, Pc.base, Pc.mapped]
  | left _ hbuilds =>
      refine h.child hcore hon (h.counted_setSlot hbuilds.cwd) hstay ?_ ?_ <;>
        simp [hbuilds.state, hembryo, ProcState.active, Pc.base, Pc.mapped]
  | done _ hbuilds _ _ hcwd =>
      have hfs := clones_fs hguard hact hpc
      obtain ⟨rfl, rfl⟩ | ⟨hnone, _⟩ := cloneCwd_cases hcwd
      · refine h.child hcore hon (fun other => ?_) hstay ?_ ?_
        · refine (Nat.le_add_right _ _).trans
            ((Table.holders_setSlot s.proc np _ other).trans_le ?_)
          have hcounted := h.counted other
          simp only [goto_iref, idup]
          split <;> omega
        · simp [hbuilds.state, hembryo, ProcState.active]
        · have hrunning := running_of_acting hcore hact
          have hpresent := h.present q (by rw [hrunning]; rfl) (by rw [hpc]; rfl)
          simp [Pc.base, Pc.mapped, hpresent]
      · rw [hfs] at hnone
        contradiction

theorem ids (h : s.Referenced) (hcore : s.Core) {flags : Flags}
    (hpc : s.pc q = .cloneIds np flags) :
    (s.cloneIds q np flags).Referenced := by
  have hbase : (s.pc q).base = .cloneIds np flags := by
    rw [hpc]
    rfl
  have hembryo := hcore.embryo (creates_at hpc rfl)
  have hcwd := h.mapped q np (by rw [hbase]; rfl)
  have hon := OnChild.ids hcore hpc
  unfold cloneIds at hon ⊢
  split
  all_goals
    next hthread =>
      simp only [hthread] at hon
      refine h.child hcore hon (h.counted_setSlot rfl) ?_ ?_ ?_
      · rw [hbase]
        rfl
      · simp [hembryo, ProcState.active]
      · simp [Pc.base, Pc.mapped, hcwd]

theorem publish (h : s.Referenced) (hcore : s.Core) {retid : Int}
    (hpc : s.pc q = .clonePublish np retid) :
    (s.clonePublish q np retid).Referenced := by
  have hbase : (s.pc q).base = .clonePublish np retid := by
    rw [hpc]
    rfl
  refine h.keep ?_ rfl (fun p hp hstay => ?_) fun p made hmade => ?_
  · refine setSlot_field _ Proc.cwd ?_
    rfl
  · by_cases hpnp : p = np
    · subst hpnp
      exact .inr ⟨q, by rw [hbase]; rfl⟩
    · have hon := OnChild.publish hcore hpc
      rw [hon.proc p hpnp] at hp
      refine .inl ⟨hp, ?_⟩
      by_cases hpq : p = q
      · rw [hpq, hbase]
        rfl
      · rwa [hon.pc p hpq hpnp] at hstay
  · have hpq : p ≠ q := by
      rintro rfl
      simp [clonePublish, Pc.base, Pc.mapped] at hmade
    rwa [clonePublish, finish_pc, setProc_pc, setSlot_other _ _ hpq] at hmade

theorem own (h : s.Referenced) (hcore : s.Core)
    {cwd : Option Nat} {point : Pc} {taken : Nat → Nat}
    (hrunning : (s.proc q).state = .running)
    (hbefore : (s.pc q).base.creates = none)
    (hafter : point.base.creates = none)
    (hgone : exiting point.base = false → cwd ≠ none)
    (htaken : ∀ other, s.iref other + (if cwd = some other then 1 else 0) ≤
      taken other) :
    Referenced ({ s.setProc q { s.proc q with cwd := cwd } with
      iref := iput taken (s.proc q).cwd }.goto q point) := by
  constructor
  case counted =>
    intro other
    have hholders := Table.holders_setSlot s.proc q { s.proc q with cwd := cwd }
      other
    have hcounted := h.counted other
    have hother := htaken other
    simp only [goto_proc, setProc_proc, goto_iref, iput]
    split <;> grind
  case present =>
    intro p hp hstay
    by_cases heq : p = q
    · subst heq
      simp only [goto_pc, setSlot_same] at hstay
      simpa using hgone hstay
    · simp only [goto_proc, setProc_proc, goto_pc, setProc_pc,
        setSlot_other _ _ heq] at hp hstay ⊢
      exact h.present p hp hstay
  case mapped =>
    intro p np hmapped
    have hchildren : s.SameChildren (s.goto q point) :=
      sameChildren_of_none (fun _ hne => setSlot_other _ _ hne) hbefore
        (by simpa using hafter)
    have hwas := mapped_of_children hchildren p np hmapped
    simp only [goto_proc, setProc_proc, setSlot_apply]
    split
    next heq =>
      have hembryo := hcore.embryo (Pc.creates_of_mapped hwas)
      rw [heq, hrunning] at hembryo
      contradiction
    next => exact h.mapped p np hwas

theorem step (h : s.Referenced) (hcore : s.Core)
    (hguard : s.clonesFs label = true) (heffect : s.Effect label next) :
    next.Referenced := by
  cases heffect with
  | quiet hquiet hflow =>
      exact h.reaps hquiet.toReaps (sameChildren_of_flow hquiet.pc hflow)
        hflow.exiting_eq
  | allocates hact hpc hfound =>
      refine h.child hcore
        (.allocates hcore (running_of_acting hcore hact) hpc hfound) ?_ ?_ ?_ ?_
      · exact h.counted_setSlot rfl
      · rw [hpc]
        rfl
      · simp [ProcState.active]
      · simp [Pc.base, Pc.mapped]
  | @kstack q np flags childStack frame _ hpc =>
      refine h.child hcore (.kstack hcore hpc frame) ?_ ?_ ?_ ?_
      · cases frame <;> exact h.counted_setSlot rfl
      · rw [hpc]
        rfl
      · have hembryo := hcore.embryo (creates_at hpc rfl)
        cases frame <;> simp [cloneKstack, ProcState.active, hembryo]
      · cases frame <;> simp [cloneKstack, Pc.base, Pc.mapped]
  | setup hact hpc hends => exact h.setup hcore hact hguard hpc hends
  | ids _ hpc => exact h.ids hcore hpc
  | publish _ hpc => exact h.publish hcore hpc
  | files hact hpc =>
      refine h.own hcore (running_of_acting hcore hact) ?_ rfl ?_ ?_
      · rw [hpc]
        rfl
      · simp [exiting, Pc.base]
      · simp
  | chdir hact hpc =>
      refine h.own hcore (running_of_acting hcore hact) ?_ rfl ?_
        fun other => by grind [idup]
      · rw [hpc]
        rfl
      · simp
  | @exit q c hact hpc =>
      have hfields := s.proc.exitSlot_fields q
      refine h.outside (fun p => (hfields p).cwd) rfl ?_
        (fun _ hne => setSlot_other _ _ hne) ?_ (sameChildren_setSlot rfl hpc rfl rfl)
      · intro p hp
        by_cases heq : p = q
        · subst heq
          simp [exitLock, s.proc.exitSlot_zombie, ProcState.active] at hp
        · exact (s.proc.keeps_exitSlot heq).active.symm.trans hp
      · simp [exitLock, Pc.base, exiting]
  | waited _ hpc _ _ _ _ hreaps _ hnext
  | joined _ hpc _ _ hreaps _ hnext =>
      refine h.reaps hreaps (hreaps.sameChildren hpc hnext rfl rfl) ?_
      rcases hpc with hpc | hpc <;> rw [hpc, hnext] <;> rfl
  | tgkilled _ hpc hends =>
      exact h.reaps hends.reaps (hends.sameChildren hpc) (hends.exiting_eq hpc)
  | @handOff q leader _ hpc =>
      have hrewired := s.proc.rewired_handOff q leader
      refine h.outside (fun p => (hrewired p).cwd) rfl (fun p hp => ?_)
        (fun _ hne => setSlot_other _ _ hne) ?_ (sameChildren_setSlot rfl hpc rfl rfl)
      · rwa [finish_proc, (hrewired p).state] at hp
      · simp [hpc, Pc.base, exiting]
  | commit _ hpc =>
      refine h.outside ?_ rfl (fun p hp => ?_)
        (fun _ hne => setSlot_other _ _ hne) ?_ (sameChildren_setSlot rfl hpc rfl rfl)
      · refine setSlot_field _ Proc.cwd ?_
        rfl
      · refine Eq.trans (congrArg _ (Eq.symm ?_)) hp
        refine setSlot_field _ Proc.state ?_ p
        rfl
      · simp [hpc, Pc.base, exiting]

end Referenced

theorem userinit_referenced (kstack pgdir : Frame) :
    (userinit kstack pgdir).Referenced := by
  constructor
  case counted =>
    intro inode
    have hholders := Table.holders_setSlot (fun _ => {}) initproc
      (userinitProc kstack pgdir) inode
    have hnone : Table.holders (fun _ => {}) inode = 0 := by
      simp [Table.holders, countSlots]
    simp only [userinit, userinitProc] at hholders ⊢
    rw [hnone] at hholders
    by_cases heq : inode = ROOTINO
    · simp_all
    · simp_all [Ne.symm heq]
  case present =>
    intro p hp _
    simp only [userinit, setSlot_apply] at hp ⊢
    split at hp
    next heq => simp [heq, userinitProc]
    next => contradiction
  case mapped =>
    intro q np hmapped
    simp only [userinit, setSlot_apply] at hmapped
    split at hmapped <;> contradiction

structure WellMade (s : Sys) (np : Slot) : Prop where
  runnable : (s.proc np).state = .runnable
  cwd : ∃ inode, (s.proc np).cwd = some inode ∧
    s.proc.holders inode ≤ s.iref inode
  leader : (s.proc np).tid ≠ -1 → ∃ leader,
    s.proc.threadLeader np = some leader ∧
      (s.proc leader).state.active = true ∧ (s.proc leader).tid = -1 ∧
        (s.proc leader).pid = (s.proc np).pid

/-- What follows for them when they exit or are joined. -/
structure SlotsServe (s : Sys) : Prop where
  made : ∀ q np retid, s.pc q = .clonePublish np retid →
    (s.clonePublish q np retid).WellMade np
  exit : ∀ q, (s.proc q).state = .running → s.pc q = .exitFiles →
    ∃ inode, (s.proc q).cwd = some inode ∧ 0 < s.iref inode
  found : ∀ p cur, (s.proc p).state ≠ .unused → (s.proc p).state ≠ .embryo →
    (s.proc p).tid ≠ -1 → (s.proc cur).state.active = true →
      (s.proc cur).pid = (s.proc p).pid →
        s.proc.joinFind cur (s.proc p).tid = some p ∧
          s.proc.isPeer cur p = true
  reaped : ∀ p cur, (s.proc p).state = .zombie → (s.proc p).tid ≠ -1 →
    (s.proc cur).pid = (s.proc p).pid →
      (∀ c, (s.proc cur).killed = false →
        ((s.joinTurn c cur p (s.proc p).tid (s.proc.threadLeader cur)).proc
          p).state = .unused) ∧
      (s.proc.tgkillLive cur = none →
        (s.proc.tgkillReap cur p).state = .unused)

theorem joinFind_group {s : Sys} (hcore : s.Core) (hgrouped : s.Grouped)
    (hidentified : s.Identified) {p cur : Slot}
    (hunused : (s.proc p).state ≠ .unused) (hembryo : (s.proc p).state ≠ .embryo)
    (htid : (s.proc p).tid ≠ -1) (hcur : (s.proc cur).state.active = true)
    (hpid : (s.proc cur).pid = (s.proc p).pid) :
    s.proc.joinFind cur (s.proc p).tid = some p := by
  have hzero := hidentified.tid_ne_zero hcore hunused hembryo
  have hparent : (s.proc p).parent = s.proc.threadLeader cur := by
    rcases hgrouped.peers p hunused htid with ⟨q, hq⟩ | ⟨leader, hled, hleads⟩
    · exact absurd (hcore.embryo (Pc.creates_of_unnamed hq)) hembryo
    · have hlive := ProcState.ne_unused hleads.active
      rw [hled, (hgrouped.threadLeader_eq hcore hcur hlive hleads.tid).mpr]
      rw [hpid, hleads.pid]
  refine firstSlot_unique (by simp [hparent]) fun other hother => ?_
  simp only [decide_eq_true_eq] at hother
  exact (hidentified.unique p other htid hzero hother.1.symm).symm

theorem WellMade.publish {s : Sys} (hcore : s.Core) (hgrouped : s.Grouped)
    (hreferenced : s.Referenced) {q np : Slot} {retid : Int}
    (hpc : s.pc q = .clonePublish np retid) :
    (s.clonePublish q np retid).WellMade np := by
  have hbase : (s.pc q).base = .clonePublish np retid := by
    rw [hpc]
    rfl
  have hembryo := hcore.embryo (creates_at hpc rfl)
  have hon := OnChild.publish hcore hpc
  have hnp : (s.clonePublish q np retid).proc np =
      { s.proc np with state := .runnable } := setSlot_same ..
  constructor
  case runnable => rw [hnp]
  case cwd =>
    have hcwd := hreferenced.mapped q np (by rw [hbase]; rfl)
    obtain ⟨inode, hinode⟩ := Option.ne_none_iff_exists'.mp hcwd
    refine ⟨inode, by rw [hnp, ← hinode], ?_⟩
    refine hreferenced.counted_setSlot ?_ inode
    rfl
  case leader =>
    intro htid
    rw [hnp] at htid
    rcases hgrouped.peers np (by rw [hembryo]; simp) htid with
      ⟨other, hother⟩ | ⟨leader, hled, hleads⟩
    · have heq := hcore.owner (Pc.creates_of_unnamed hother)
        (show (s.pc q).base.creates = some np by rw [hbase]; rfl)
      rw [heq, hbase] at hother
      contradiction
    · have hne : leader ≠ np := by
        rintro rfl
        have hactive := hleads.active
        rw [hembryo] at hactive
        contradiction
      refine ⟨leader, ?_, ?_⟩
      · rw [Table.threadLeader, hnp, if_neg htid]
        exact hled
      · rw [hon.proc leader hne, hnp]
        exact ⟨hleads.active, hleads.tid, hleads.pid⟩

/-- Whatever the flags, as long as `CLONE_FS` is among them and `CLONE_THREAD`
is without `CLONE_PARENT`. -/
theorem clone_slots_serve {kstack pgdir : Frame} {s : Sys}
    (hreach : Reach Sys.step
      (fun s label => (s.sound label && s.clonesFs label) = true)
      (userinit kstack pgdir) s) : s.SlotsServe := by
  have hinv : s.Core ∧ s.Grouped ∧ s.Identified ∧ s.Referenced := by
    refine hreach.invariant
      (fun s => s.Core ∧ s.Grouped ∧ s.Identified ∧ s.Referenced)
      ⟨userinit_core .., userinit_grouped .., userinit_identified ..,
        userinit_referenced ..⟩ ?_
    intro state label next ⟨hcore, hgrouped, hidentified, hreferenced⟩ hguard hstep
    simp only [sound, Bool.and_eq_true] at hguard
    obtain ⟨⟨⟨⟨hsleeper, hpeers⟩, hfresh⟩, hapart⟩, hfs⟩ := hguard
    have heffect := hcore.effect hsleeper hstep
    exact ⟨hcore.step hsleeper hstep,
      hgrouped.step hcore hpeers hfresh hapart heffect,
      hidentified.step hcore hgrouped hfresh heffect,
      hreferenced.step hcore hfs heffect⟩
  obtain ⟨hcore, hgrouped, hidentified, hreferenced⟩ := hinv
  constructor
  case made => exact fun q np retid hpc => .publish hcore hgrouped hreferenced hpc
  case exit =>
    intro q hrunning hpc
    have hcwd := hreferenced.present q (by rw [hrunning]; rfl) (by rw [hpc]; rfl)
    obtain ⟨inode, hinode⟩ := Option.ne_none_iff_exists'.mp hcwd
    refine ⟨inode, hinode, lt_of_lt_of_le ?_ (hreferenced.counted inode)⟩
    exact countSlots_pos (decide_eq_true hinode)
  case found =>
    intro p cur hunused hembryo htid hcur hpid
    refine ⟨joinFind_group hcore hgrouped hidentified hunused hembryo htid hcur
      hpid, ?_⟩
    simp [Table.isPeer, hpid, htid]
  case reaped =>
    intro p cur hzombie htid hpid
    constructor
    · intro c hkilled
      simp [joinTurn, hkilled, hzombie, Proc.joinReap, Proc.reap]
    · intro hlive
      simp [Table.tgkillReap, Table.isPeer, hlive, Table.passed, hpid, htid, hzombie,
        Proc.reap]

def makeThread : List Label :=
  startOn 0 ++ cloneOn 0 (.clone TFLAGS 0) (.ok 0 8192)

set_option maxRecDepth 4000

theorem clone_slots_serve_makeThread :
    ∃ s, Reach Sys.step
        (fun s label => (s.sound label && s.clonesFs label) = true)
        (userinit 1 2) s ∧ (s.proc 1).tid = 2 ∧ s.SlotsServe := by
  have hrun : ((run Sys.step (fun s label => s.sound label && s.clonesFs label)
      (userinit 1 2) makeThread).any fun s => (s.proc 1).tid = 2) = true := by
    decide +kernel
  obtain ⟨s, hreach, htid⟩ := reach_of_run_any hrun
  exact ⟨s, hreach, by simpa using htid, clone_slots_serve hreach⟩

def cloneBare : List Label :=
  startOn 0 ++ (cloneOn 0 (.clone 0 0) (.ok 3 0)).take 5

/-- Without `CLONE_FS` the new slot has no working directory, and `exit` has
nothing to give back. -/
theorem clone_without_fs :
    ¬ ∀ s q np retid, Reach Sys.step (fun _ _ => True) (userinit 1 2) s →
      s.pc q = .clonePublish np retid →
        ((s.clonePublish q np retid).proc np).cwd ≠ none := by
  intro hcwd
  have hrun : ((run Sys.step (fun _ _ => true) (userinit 1 2) cloneBare).any
      fun s => s.pc 0 = .clonePublish 1 2 ∧
        ((s.clonePublish 0 1 2).proc 1).cwd = none) = true := by decide +kernel
  obtain ⟨s, hreach, hend⟩ := reach_of_run_any hrun
  exact hcwd s 0 1 2 (hreach.mono fun _ _ _ => trivial) hend.1 hend.2

end Sys

end KernelThreads
