import KernelThreads.Group.Wait

namespace KernelThreads

open Lib

def Pc.unmapped : Pc → Option Slot
  | .cloneKstack np _ _ | .cloneSetup np _ _ => some np
  | _ => none

theorem Pc.unnamed_of_unmapped {pc : Pc} {np : Slot}
    (h : pc.unmapped = some np) : pc.unnamed = some np := by
  cases pc <;> simp_all [Pc.unmapped, Pc.unnamed]

theorem Pc.unmapped_or_bare {pc : Pc} {np : Slot} (h : pc.unnamed = some np) :
    pc.unmapped = some np ∨ pc.bare = some np := by
  cases pc <;> simp_all [Pc.unmapped, Pc.unnamed, Pc.bare]

namespace Sys

/-! Page directories: a leader owns one, and its threads share it. -/

/-- A slot with an address space: what an unused slot, or one that is still
being built, has in `pgdir` is what its last user left there. -/
def Fitted (s : Sys) (p : Slot) : Prop :=
  (s.proc p).state ≠ .unused ∧ ∀ q, (s.pc q).base.unmapped ≠ some p

def Owns (s : Sys) (p : Slot) : Prop :=
  s.Fitted p ∧ (s.proc p).tid = -1 ∧
    ∀ q flags, (s.pc q).base = .cloneIds p flags → flags.has CLONE_VM = false

structure Housed (s : Sys) : Prop where
  dirs : ∀ p, s.Fitted p → ∃ dir, (s.proc p).pgdir = some dir ∧ s.dirs dir = true
  own : ∀ p r, s.Owns p → s.Owns r → (s.proc p).pgdir = (s.proc r).pgdir → p = r
  shared : ∀ p, s.Fitted p → (s.proc p).tid ≠ -1 → ∀ leader,
    (s.proc p).parent = some leader → (s.proc p).pgdir = (s.proc leader).pgdir
  sharing : ∀ q np flags leader, (s.pc q).base = .cloneIds np flags →
    flags.has CLONE_VM = true → s.proc.threadLeader q = some leader →
      (s.proc np).pgdir = (s.proc leader).pgdir
  used : ∀ dir, s.dirs dir = true → ∃ p, s.Owns p ∧ (s.proc p).pgdir = some dir

/-- Calls without `exec` and `tresume`, where `clone` shares the address space
exactly with the threads it makes. -/
def dirCalls : Syscall → Bool
  | .clone flags _ =>
      flags.has CLONE_VM = flags.has CLONE_THREAD ∧ flagsApart flags
  | .exec | .tresume _ => false
  | _ => true

theorem dirCalls_flags (flags : Flags) (h : flags.allowed dirCalls) :
    flags.has CLONE_VM = flags.has CLONE_THREAD ∧ flagsApart flags = true := by
  obtain ⟨_, rfl⟩ | ⟨_, h⟩ := h
  · decide
  · simpa [dirCalls] using h

def joinsThreads (s : Sys) (label : Label) : Bool :=
  s.actor label fun q point =>
    match point with
    | .joinLock p _ _ | .joinSlept p _ _ =>
        (s.proc q).killed ∨ (s.proc p).state ≠ .zombie ∨ (s.proc p).tid ≠ -1
    | _ => true

/-- `exec` commits for a leader whose group has no other slot in use. -/
def commitsAlone (s : Sys) (label : Label) : Bool :=
  s.actor label fun q point =>
    match point with
    | .execLoad => (s.proc q).tid = -1 ∧ ∀ p, p ≠ q →
        (s.proc p).state ≠ .unused → (s.proc p).pid ≠ (s.proc q).pid
    | _ => true

theorem commits_alone {s : Sys} {label : Label} {q : Slot}
    (h : s.commitsAlone label = true) (hact : s.acting label = some q)
    (hpc : s.pc q = .execLoad) : (s.proc q).tid = -1 ∧ ∀ p, p ≠ q →
      (s.proc p).state ≠ .unused → (s.proc p).pid ≠ (s.proc q).pid := by
  have htest := actor_test h hact
  simpa [hpc] using htest

theorem commitsAlone_of_within {s : Sys} {allows : Syscall → Bool}
    (h : s.Within fun _ => allows) (hexec : allows .exec = false) (label : Label) :
    s.commitsAlone label = true := by
  refine actor_of fun q _ => ?_
  have hq := h q
  split
  next hpc =>
    rw [hpc] at hq
    rw [show allows .exec = true from hq] at hexec
    contradiction
  next => rfl

section Steps

variable {s next : Sys} {q np p made other : Slot}

/-! A step changes who has an address space only where it reaps a slot or
builds one. -/

theorem SameChildren.unmapped (h : s.SameChildren next) :
    (next.pc q).base.unmapped = some p ↔ (s.pc q).base.unmapped = some p := by
  rcases h q with heq | ⟨hbefore, hafter⟩
  · rw [heq]
  · constructor <;> intro hq <;>
      have hcreates := Pc.creates_of_unnamed (Pc.unnamed_of_unmapped hq)
    · rw [hafter] at hcreates
      contradiction
    · rw [hbefore] at hcreates
      contradiction

theorem SameChildren.ids (h : s.SameChildren next) {flags : Flags} :
    (next.pc q).base = .cloneIds p flags ↔ (s.pc q).base = .cloneIds p flags := by
  rcases h q with heq | ⟨hbefore, hafter⟩
  · rw [heq]
  · constructor <;> intro hq
    · rw [hq] at hafter
      contradiction
    · rw [hq] at hbefore
      contradiction

namespace OnChild

theorem creator (hon : s.OnChild next q np) (hcore : s.Core)
    (hne : made ≠ np) (hmade : (next.pc other).base.creates = some made ∨
      (s.pc other).base.creates = some made) : next.pc other = s.pc other := by
  have hoq : other ≠ q := by
    rintro rfl
    rcases hmade with hmade | hmade
    · exact hne (hon.now made hmade).symm
    · exact hne (hon.was made hmade).symm
  rcases hmade with hmade | hmade
  · exact (hon.others hcore hoq hmade).1
  · exact hon.pc other hoq (hon.ne_of_active (hcore.creator hmade))

theorem fitted (hon : s.OnChild next q np) (hcore : s.Core)
    (hne : p ≠ np) : next.Fitted p ↔ s.Fitted p := by
  unfold Fitted
  rw [hon.proc p hne]
  refine and_congr_right fun _ => forall_congr' fun other => not_congr ?_
  constructor <;> intro hother <;>
    have hcreates := Pc.creates_of_unnamed (Pc.unnamed_of_unmapped hother)
  · rwa [← hon.creator hcore hne (.inl hcreates)]
  · rwa [hon.creator hcore hne (.inr hcreates)]

theorem owns (hon : s.OnChild next q np) (hcore : s.Core)
    (hne : p ≠ np) : next.Owns p ↔ s.Owns p := by
  unfold Owns
  rw [hon.fitted hcore hne, hon.proc p hne]
  refine and_congr_right fun _ => and_congr_right fun _ =>
    forall_congr' fun other => forall_congr' fun flags => ?_
  constructor <;> intro hflags hother <;> refine hflags ?_
  · rwa [hon.creator hcore hne (.inr (by rw [hother]; rfl))]
  · rwa [← hon.creator hcore hne (.inl (by rw [hother]; rfl))]

theorem fitted_child (hon : s.OnChild next q np) (hcore : s.Core)
    (hlive : (next.proc np).state ≠ .unused)
    (hunmapped : (next.pc q).base.unmapped = none) : next.Fitted np := by
  refine ⟨hlive, fun other hother => ?_⟩
  have hcreates := Pc.creates_of_unnamed (Pc.unnamed_of_unmapped hother)
  by_cases heq : other = q
  · rw [heq, hunmapped] at hother
    contradiction
  · exact (hon.others hcore heq hcreates).2.2 rfl

theorem owns_child (hon : s.OnChild next q np) (hcore : s.Core)
    (hfitted : next.Fitted np) (htid : (next.proc np).tid = -1)
    (hids : ∀ flags, (next.pc q).base = .cloneIds np flags →
      flags.has CLONE_VM = false) : next.Owns np := by
  refine ⟨hfitted, htid, fun other flags hother => ?_⟩
  by_cases heq : other = q
  · rw [heq] at hother
    exact hids flags hother
  · exact absurd rfl (hon.others hcore heq (by rw [hother]; rfl)).2.2

end OnChild

theorem fitted_of_creates (hcore : s.Core)
    (hcreates : (s.pc q).base.creates = some np)
    (hmapped : (s.pc q).base.unmapped = none) : s.Fitted np := by
  refine ⟨by rw [hcore.embryo hcreates]; simp, fun other hother => ?_⟩
  have heq := hcore.owner
    (Pc.creates_of_unnamed (Pc.unnamed_of_unmapped hother)) hcreates
  rw [heq, hmapped] at hother
  contradiction

end Steps

namespace Housed

variable {s next : Sys} {label : Label} {q np p r : Slot}

theorem fitted_active (hcore : s.Core) (hp : (s.proc p).state.active = true) :
    s.Fitted p := by
  refine ⟨ProcState.ne_unused hp, fun q hq => ?_⟩
  rw [hcore.embryo (Pc.creates_of_unnamed (Pc.unnamed_of_unmapped hq))] at hp
  contradiction

theorem owns_of (hcore : s.Core) (hfitted : s.Fitted p)
    (hembryo : (s.proc p).state ≠ .embryo) (htid : (s.proc p).tid = -1) :
    s.Owns p := by
  refine ⟨hfitted, htid, fun q flags hq => absurd (hcore.embryo (q := q) ?_) hembryo⟩
  rw [hq]
  rfl

theorem led (hgrouped : s.Grouped) (hfitted : s.Fitted p)
    (htid : (s.proc p).tid ≠ -1) :
    ∃ leader, (s.proc p).parent = some leader ∧ s.Leads leader p := by
  rcases hgrouped.peers p hfitted.1 htid with ⟨q, hq⟩ | hled
  · rcases Pc.unmapped_or_bare hq with hunmapped | hbare
    · exact absurd hunmapped (hfitted.2 q)
    · exact absurd (hgrouped.bare q p hbare) htid
  · exact hled

theorem sole_of (h : s.Housed) (hcore : s.Core) (hgrouped : s.Grouped)
    (howns : s.Owns p) (hfree : (s.pc p).base.creates = none)
    (halone : ∀ r leader, r ≠ p → (s.proc r).state ≠ .unused →
      s.Leads leader r → (s.proc leader).pgdir ≠ (s.proc p).pgdir)
    (hr : s.Fitted r) (hdir : (s.proc r).pgdir = (s.proc p).pgdir) : r = p := by
  by_contra hne
  by_cases htidr : (s.proc r).tid = -1
  · by_cases hpending : ∃ q flags, (s.pc q).base = .cloneIds r flags ∧
        flags.has CLONE_VM = true
    · obtain ⟨q, flags, hq, hvm⟩ := hpending
      have hactive : (s.proc q).state.active = true :=
        hcore.creator (show (s.pc q).base.creates = some r by rw [hq]; rfl)
      obtain ⟨leader, hled, hleads⟩ :=
        hgrouped.leads_of_active hcore hactive (by rw [hq]; simp)
      refine halone q leader ?_ (ProcState.ne_unused hactive) hleads ?_
      · rintro rfl
        rw [hq] at hfree
        contradiction
      · rw [← h.sharing q r flags leader hq hvm hled, hdir]
    · refine hne (h.own r p ⟨hr, htidr, fun q flags hq => ?_⟩ howns hdir)
      by_contra hvm
      exact hpending ⟨q, flags, hq, by simpa using hvm⟩
  · obtain ⟨leader, hparent, hleads⟩ := led hgrouped hr htidr
    refine halone r leader hne hr.1 hleads ?_
    rw [← h.shared r hr htidr leader hparent, hdir]

theorem owns_leader (hcore : s.Core) {leader : Slot} (hleads : s.Leads leader r) :
    s.Owns leader := by
  refine owns_of hcore (fitted_active hcore hleads.active) ?_ hleads.tid
  intro hembryo
  have hactive := hleads.active
  rw [hembryo] at hactive
  contradiction

theorem sole (h : s.Housed) (hcore : s.Core) (hgrouped : s.Grouped)
    (hzombie : (s.proc p).state = .zombie) (htid : (s.proc p).tid = -1)
    (hr : s.Fitted r) (hdir : (s.proc r).pgdir = (s.proc p).pgdir) : r = p := by
  have hp : s.Fitted p := by
    refine ⟨by rw [hzombie]; simp, fun q hq => ?_⟩
    rw [hcore.embryo (Pc.creates_of_unnamed (Pc.unnamed_of_unmapped hq))] at hzombie
    contradiction
  have howns := owns_of hcore hp (by rw [hzombie]; simp) htid
  have hfree : (s.pc p).base.creates = none := by
    by_contra hsome
    obtain ⟨np, hnp⟩ := Option.ne_none_iff_exists'.mp hsome
    have hactive := hcore.creator hnp
    rw [hzombie] at hactive
    contradiction
  refine h.sole_of hcore hgrouped howns hfree ?_ hr hdir
  -- No living leader has the directory.
  intro other leader _ _ hleads hsame
  have hactive := hleads.active
  rw [h.own leader p (owns_leader hcore hleads) howns hsame, hzombie] at hactive
  contradiction

theorem keep (h : s.Housed) (hcore : s.Core) (hgrouped : s.Grouped)
    (hchildren : s.SameChildren next)
    (hkept : ∀ p, (next.proc p).state ≠ .unused → (s.proc p).state ≠ .unused ∧
      (next.proc p).pgdir = (s.proc p).pgdir ∧
        (next.proc p).tid = (s.proc p).tid ∧
          ((s.proc p).tid ≠ -1 → (next.proc p).parent = (s.proc p).parent))
    (hlive : ∀ p, (s.proc p).state.active = true ∨ (s.proc p).state = .embryo →
      (next.proc p).state ≠ .unused)
    (hdirs : ∀ p dir, (next.proc p).state ≠ .unused → s.Fitted p →
      (s.proc p).pgdir = some dir → s.dirs dir = true → next.dirs dir = true)
    (hused : ∀ dir, next.dirs dir = true → s.dirs dir = true ∧
      ∀ p, s.Owns p → (s.proc p).pgdir = some dir →
        (next.proc p).state ≠ .unused) : next.Housed := by
  have hfitted : ∀ {p}, next.Fitted p → s.Fitted p := fun hp =>
    ⟨(hkept _ hp.1).1, fun q hq => hp.2 q (hchildren.unmapped.mpr hq)⟩
  have howns : ∀ {p}, next.Owns p → s.Owns p := fun ⟨hp, htid, hpending⟩ =>
    ⟨hfitted hp, (hkept _ hp.1).2.2.1.symm.trans htid,
      fun q flags hq => hpending q flags (hchildren.ids.mpr hq)⟩
  have hpgdir : ∀ {p}, (next.proc p).state ≠ .unused →
      (next.proc p).pgdir = (s.proc p).pgdir := fun hp => (hkept _ hp).2.1
  constructor
  case dirs =>
    intro p hp
    obtain ⟨dir, hdir, hthere⟩ := h.dirs p (hfitted hp)
    exact ⟨dir, (hpgdir hp.1).trans hdir, hdirs p dir hp.1 (hfitted hp) hdir hthere⟩
  case own =>
    intro p r hp hr hsame
    rw [hpgdir hp.1.1, hpgdir hr.1.1] at hsame
    exact h.own p r (howns hp) (howns hr) hsame
  case shared =>
    intro p hp htid leader hparent
    obtain ⟨_, hdir, hsame, hkeeps⟩ := hkept p hp.1
    rw [hsame] at htid
    rw [hkeeps htid] at hparent
    obtain ⟨found, hfound, hleads⟩ := led hgrouped (hfitted hp) htid
    rw [hparent] at hfound
    cases hfound
    rw [hdir, hpgdir (hlive leader (.inl hleads.active))]
    exact h.shared p (hfitted hp) htid leader hparent
  case sharing =>
    intro q np flags leader hq hvm hleader
    rw [hchildren.ids] at hq
    have hcreates : (s.pc q).base.creates = some np := by
      rw [hq]
      rfl
    have hactive := hcore.creator hcreates
    obtain ⟨_, _, hsame, hkeeps⟩ := hkept q (hlive q (.inl hactive))
    have hled : s.proc.threadLeader q = some leader := by
      rw [← hleader, Table.threadLeader, Table.threadLeader, hsame]
      split
      next => rfl
      next htid => exact (hkeeps htid).symm
    obtain ⟨found, hfound, hleads⟩ := hgrouped.leads_of_active hcore hactive
      (by rw [hq]; simp)
    rw [hled] at hfound
    cases hfound
    rw [hpgdir (hlive np (.inr (hcore.embryo hcreates))),
      hpgdir (hlive leader (.inl hleads.active))]
    exact h.sharing q np flags leader hq hvm hled
  case used =>
    intro dir hdir
    obtain ⟨hthere, hstays⟩ := hused dir hdir
    obtain ⟨p, ⟨hp, htid, hpending⟩, hpdir⟩ := h.used dir hthere
    have hnext := hstays p ⟨hp, htid, hpending⟩ hpdir
    refine ⟨p, ⟨⟨hnext, fun q hq => hp.2 q (hchildren.unmapped.mp hq)⟩,
      (hkept p hnext).2.2.1.trans htid, fun q flags hq =>
        hpending q flags (hchildren.ids.mp hq)⟩, (hpgdir hnext).trans hpdir⟩

theorem child (h : s.Housed) (hcore : s.Core) (hgrouped : s.Grouped)
    (hon : s.OnChild next q np) (hrunning : (s.proc q).state = .running)
    (hmono : ∀ dir, s.dirs dir = true → next.dirs dir = true)
    (hdirs : next.Fitted np →
      ∃ dir, (next.proc np).pgdir = some dir ∧ next.dirs dir = true)
    (hown : next.Owns np → ∀ p, p ≠ np → s.Owns p →
      (s.proc p).pgdir ≠ (next.proc np).pgdir)
    (hshared : next.Fitted np → (next.proc np).tid ≠ -1 → ∀ leader,
      (next.proc np).parent = some leader →
        leader ≠ np ∧ (next.proc np).pgdir = (s.proc leader).pgdir)
    (hsharing : ∀ flags leader, (next.pc q).base = .cloneIds np flags →
      flags.has CLONE_VM = true → s.proc.threadLeader q = some leader →
        leader ≠ np ∧ (next.proc np).pgdir = (s.proc leader).pgdir)
    (hused : ∀ dir, next.dirs dir = true →
      next.Owns np ∧ (next.proc np).pgdir = some dir ∨
        s.dirs dir = true ∧ (s.Owns np → (s.proc np).pgdir ≠ some dir)) :
    next.Housed := by
  have hactive_ne : ∀ {p}, (s.proc p).state.active = true → p ≠ np := hon.ne_of_active
  have hfitted : ∀ {p}, p ≠ np → (next.Fitted p ↔ s.Fitted p) := hon.fitted hcore
  have howns : ∀ {p}, p ≠ np → (next.Owns p ↔ s.Owns p) := hon.owns hcore
  constructor
  case dirs =>
    intro p hp
    by_cases hne : p = np
    · subst hne
      exact hdirs hp
    · obtain ⟨dir, hdir, hthere⟩ := h.dirs p ((hfitted hne).mp hp)
      rw [hon.proc p hne]
      exact ⟨dir, hdir, hmono dir hthere⟩
  case own =>
    intro p r hp hr hsame
    by_cases hpnp : p = np <;> by_cases hrnp : r = np
    · rw [hpnp, hrnp]
    · subst hpnp
      rw [hon.proc r hrnp] at hsame
      exact absurd hsame.symm (hown hp r hrnp ((howns hrnp).mp hr))
    · subst hrnp
      rw [hon.proc p hpnp] at hsame
      exact absurd hsame (hown hr p hpnp ((howns hpnp).mp hp))
    · rw [hon.proc p hpnp, hon.proc r hrnp] at hsame
      exact h.own p r ((howns hpnp).mp hp) ((howns hrnp).mp hr) hsame
  case shared =>
    intro p hp htid leader hparent
    by_cases hne : p = np
    · subst hne
      obtain ⟨hlp, hdir⟩ := hshared hp htid leader hparent
      rw [hon.proc leader hlp, hdir]
    · have hbefore := (hfitted hne).mp hp
      rw [hon.proc p hne] at htid hparent ⊢
      obtain ⟨found, hfound, hleads⟩ := led hgrouped hbefore htid
      rw [hparent] at hfound
      cases hfound
      rw [hon.proc leader (hactive_ne hleads.active)]
      exact h.shared p hbefore htid leader hparent
  case sharing =>
    intro creator made flags leader hcreates hvm hleader
    have hsame : ∀ {p}, (s.proc p).state.active = true →
        next.proc.threadLeader p = s.proc.threadLeader p := by
      intro p hp
      rw [Table.threadLeader, Table.threadLeader, hon.proc p (hactive_ne hp)]
    have hmakes : (next.pc creator).base.creates = some made := by
      rw [hcreates]
      rfl
    by_cases hcq : creator = q
    · subst hcq
      obtain rfl := hon.now made hmakes
      rw [hsame (by rw [hrunning]; rfl)] at hleader
      obtain ⟨hlnp, hdir⟩ := hsharing flags leader hcreates hvm hleader
      rw [hon.proc leader hlnp, hdir]
    · obtain ⟨hpc, hbefore, hmade⟩ := hon.others hcore hcq hmakes
      rw [hpc] at hcreates
      have hactive := hcore.creator hbefore
      rw [hsame hactive] at hleader
      obtain ⟨found, hfound, hleads⟩ := hgrouped.leads_of_active hcore hactive
        (by rw [hcreates]; simp)
      rw [hleader] at hfound
      cases hfound
      rw [hon.proc made hmade, hon.proc leader (hactive_ne hleads.active)]
      exact h.sharing creator made flags leader hcreates hvm hleader
  case used =>
    intro dir hdir
    rcases hused dir hdir with ⟨hnp, hpdir⟩ | ⟨hthere, hnot⟩
    · exact ⟨np, hnp, hpdir⟩
    · obtain ⟨p, hp, hpdir⟩ := h.used dir hthere
      have hne : p ≠ np := by
        rintro rfl
        exact hnot hp hpdir
      exact ⟨p, (howns hne).mpr hp, by rw [hon.proc p hne, hpdir]⟩

theorem unfitted (h : s.Housed) (hcore : s.Core) (hgrouped : s.Grouped)
    (hon : s.OnChild next q np) (hrunning : (s.proc q).state = .running)
    (hdirs : next.dirs = s.dirs) (hbefore : ¬ s.Fitted np)
    (hafter : ¬ next.Fitted np)
    (hids : ∀ flags, (next.pc q).base ≠ .cloneIds np flags) : next.Housed := by
  refine h.child hcore hgrouped hon hrunning ?_ ?_ ?_ ?_ ?_ ?_
  · simp [hdirs]
  · exact fun hp => absurd hp hafter
  · exact fun hp => absurd hp.1 hafter
  · exact fun hp => absurd hp hafter
  · exact fun flags _ hq => absurd hq (hids flags)
  · intro dir hdir
    rw [hdirs] at hdir
    exact .inr ⟨hdir, fun hp => absurd hp.1 hbefore⟩

theorem reaps (h : s.Housed) (hcore : s.Core) (hgrouped : s.Grouped)
    {reaped : Slot → Prop} (hreaps : s.Reaps next q reaped)
    (hchildren : s.SameChildren next)
    (hdirs : ∀ p dir, ¬ reaped p → s.Fitted p → (s.proc p).pgdir = some dir →
      s.dirs dir = true → next.dirs dir = true)
    (hused : ∀ dir, next.dirs dir = true → s.dirs dir = true ∧
      ∀ p, s.Owns p → (s.proc p).pgdir = some dir → ¬ reaped p) :
    next.Housed := by
  have hsame : ∀ {p}, (next.proc p).state ≠ .unused →
      ¬ reaped p ∧ (s.proc p).Same (next.proc p) := by
    intro p hp
    rcases hreaps.proc p with ⟨_, hclear⟩ | ⟨hnot, hsame⟩
    · exact absurd hclear.state hp
    · exact ⟨hnot, hsame⟩
  have hlive : ∀ {p}, ¬ reaped p → (s.proc p).state ≠ .unused →
      (next.proc p).state ≠ .unused := by
    intro p hnot hp
    rcases hreaps.proc p with ⟨hyes, _⟩ | ⟨_, hsame⟩
    · exact absurd hyes hnot
    · exact fun hu => hp ((hsame.state_eq rfl).mp hu)
  refine h.keep hcore hgrouped hchildren ?_ ?_ ?_ ?_
  · intro p hp
    obtain ⟨_, hsame⟩ := hsame hp
    exact ⟨fun hu => hp ((hsame.state_eq rfl).mpr hu), hsame.pgdir, hsame.tid,
      fun _ => hsame.parent⟩
  · intro p hp
    rcases hreaps.proc p with ⟨_, hclear⟩ | ⟨hnot, _⟩
    · rw [hclear.zombie] at hp
      simp [ProcState.active] at hp
    · refine hlive hnot ?_
      rintro hu
      rw [hu] at hp
      simp [ProcState.active] at hp
  · exact fun p dir hp hfitted => hdirs p dir (hsame hp).1 hfitted
  · intro dir hdir
    obtain ⟨hthere, hnot⟩ := hused dir hdir
    exact ⟨hthere, fun p hp hpdir => hlive (hnot p hp hpdir) hp.1.1⟩

theorem own_fields (h : s.Housed) (hcore : s.Core) (hgrouped : s.Grouped)
    (hchildren : s.SameChildren next) (hdirs : next.dirs = s.dirs)
    (hunused : ∀ p, (next.proc p).state = .unused ↔ (s.proc p).state = .unused)
    (hpgdir : ∀ p, (next.proc p).pgdir = (s.proc p).pgdir)
    (htid : ∀ p, (next.proc p).tid = (s.proc p).tid)
    (hparent : ∀ p, (s.proc p).tid ≠ -1 →
      (next.proc p).parent = (s.proc p).parent) : next.Housed := by
  refine h.keep hcore hgrouped hchildren ?_ ?_ ?_ ?_
  · exact fun p hp => ⟨fun hu => hp ((hunused p).mpr hu), hpgdir p, htid p,
      hparent p⟩
  · intro p hp hu
    rw [(hunused p).mp hu] at hp
    simp [ProcState.active] at hp
  · intro p dir _ _ _ hdir
    rwa [hdirs]
  · intro dir hdir
    rw [hdirs] at hdir
    exact ⟨hdir, fun p hp _ hu => hp.1.1 ((hunused p).mp hu)⟩

theorem commit (h : s.Housed) (hcore : s.Core) (hgrouped : s.Grouped)
    (hrunning : (s.proc q).state = .running) (hpc : s.pc q = .execLoad)
    (htid : (s.proc q).tid = -1)
    (halone : ∀ p, p ≠ q → (s.proc p).state ≠ .unused →
      (s.proc p).pid ≠ (s.proc q).pid) {dir old : Frame}
    (hfree : s.dirs dir = false) (hold : (s.proc q).pgdir = some old)
    (hothers : ∀ p, p ≠ q → next.proc p = s.proc p ∧ next.pc p = s.pc p)
    (hstate : (next.proc q).state = (s.proc q).state)
    (hself : (next.proc q).tid = -1) (hdir : (next.proc q).pgdir = some dir)
    (hout : (next.pc q).base.creates = none)
    (hdirs : next.dirs =
      Function.update (Function.update s.dirs dir true) old false) :
    next.Housed := by
  have hactive := ProcState.active_of_running hrunning
  have hq : s.Fitted q := fitted_active hcore hactive
  have howns : s.Owns q := owns_of hcore hq (by rw [hrunning]; simp) htid
  have hsole : ∀ {r}, s.Fitted r → (s.proc r).pgdir = some old → r = q := by
    intro r hr hrdir
    refine h.sole_of hcore hgrouped howns (by rw [hpc]; rfl) ?_ hr
      (hrdir.trans hold.symm)
    intro other leader hne hused hleads hsame
    have heq := h.own leader q (owns_leader hcore hleads) howns hsame
    refine halone other hne hused ?_
    rw [← hleads.pid, heq]
  obtain ⟨there, hthere, hused⟩ := h.dirs q hq
  rw [hold, Option.some.injEq] at hthere
  subst hthere
  have hne : dir ≠ old := by
    rintro rfl
    rw [hfree] at hused
    contradiction
  have hpcs : ∀ {c np}, (next.pc c).base.creates = some np ∨
      (s.pc c).base.creates = some np → c ≠ q ∧ next.pc c = s.pc c := by
    intro c np hc
    have hcq : c ≠ q := by
      rintro rfl
      rw [hout, hpc] at hc
      rcases hc with hc | hc <;> cases hc
    exact ⟨hcq, (hothers c hcq).2⟩
  have htids : ∀ p, (next.proc p).tid = (s.proc p).tid := by
    intro p
    by_cases hpq : p = q
    · rw [hpq, hself, htid]
    · rw [(hothers p hpq).1]
  have hstates : ∀ p, (next.proc p).state = (s.proc p).state := by
    intro p
    by_cases hpq : p = q
    · rw [hpq, hstate]
    · rw [(hothers p hpq).1]
  have hfitted : ∀ {p}, next.Fitted p → s.Fitted p := by
    intro p hp
    refine ⟨by rw [← hstates]; exact hp.1, fun c hc => hp.2 c ?_⟩
    rw [(hpcs (.inr (Pc.creates_of_unnamed (Pc.unnamed_of_unmapped hc)))).2]
    exact hc
  have hfitted' : ∀ {p}, s.Fitted p → next.Fitted p := by
    intro p hp
    refine ⟨by rw [hstates]; exact hp.1, fun c hc => hp.2 c ?_⟩
    rw [← (hpcs (.inl (Pc.creates_of_unnamed (Pc.unnamed_of_unmapped hc)))).2]
    exact hc
  have hdirof : ∀ {p}, s.Fitted p → p ≠ q → (next.proc p).pgdir = (s.proc p).pgdir ∧
      (next.proc p).pgdir ≠ some dir ∧ (next.proc p).pgdir ≠ some old := by
    intro p hp hpq
    rw [(hothers p hpq).1]
    refine ⟨rfl, fun hpdir => ?_, fun hpdir => hpq (hsole hp hpdir)⟩
    obtain ⟨there, hthere, hused⟩ := h.dirs p hp
    rw [hpdir, Option.some.injEq] at hthere
    rw [← hthere, hfree] at hused
    contradiction
  have howns' : ∀ {p}, next.Owns p → s.Owns p := by
    rintro p ⟨hp, hleads, hown⟩
    refine ⟨hfitted hp, by rw [← htids]; exact hleads, fun c flags hc => ?_⟩
    refine hown c flags ?_
    rw [(hpcs (.inr (by rw [hc]; rfl))).2]
    exact hc
  constructor
  case dirs =>
    intro p hp
    by_cases hpq : p = q
    · refine ⟨dir, by rw [hpq, hdir], ?_⟩
      rw [hdirs, Function.update_of_ne hne, Function.update_self]
    · obtain ⟨hsame, hnew, hgone⟩ := hdirof (hfitted hp) hpq
      obtain ⟨there, hthere, hused⟩ := h.dirs p (hfitted hp)
      rw [hsame, hthere] at hnew hgone
      refine ⟨there, hsame.trans hthere, ?_⟩
      rw [hdirs, Function.update_of_ne fun heq => hgone (by rw [heq]),
        Function.update_of_ne fun heq => hnew (by rw [heq])]
      exact hused
  case own =>
    intro p r hp hr hsame
    by_cases hpq : p = q <;> by_cases hrq : r = q
    · rw [hpq, hrq]
    · rw [hpq, hdir] at hsame
      exact absurd hsame.symm (hdirof (hfitted hr.1) hrq).2.1
    · rw [hrq, hdir] at hsame
      exact absurd hsame (hdirof (hfitted hp.1) hpq).2.1
    · refine h.own p r (howns' hp) (howns' hr) ?_
      rw [← (hdirof (hfitted hp.1) hpq).1, ← (hdirof (hfitted hr.1) hrq).1]
      exact hsame
  case shared =>
    intro p hp hthread leader hparent
    have hpq : p ≠ q := by
      rintro rfl
      exact hthread hself
    obtain ⟨hsame, _, hgone⟩ := hdirof (hfitted hp) hpq
    rw [htids] at hthread
    rw [(hothers p hpq).1] at hparent
    have hdirs := h.shared p (hfitted hp) hthread leader hparent
    have hlq : leader ≠ q := by
      rintro rfl
      rw [hsame, hdirs] at hgone
      exact hgone hold
    rw [hsame, hdirs, (hothers leader hlq).1]
  case sharing =>
    intro c np flags leader hc hvm hled
    obtain ⟨hcq, hpcs⟩ := hpcs (.inl (by rw [hc]; rfl))
    rw [hpcs] at hc
    have hled : s.proc.threadLeader c = some leader := by
      simpa only [Table.threadLeader, (hothers c hcq).1] using hled
    have hcreates : (s.pc c).base.creates = some np := by
      rw [hc]
      rfl
    have hembryo := hcore.embryo hcreates
    have hnq : np ≠ q := by
      rintro rfl
      rw [hrunning] at hembryo
      contradiction
    have hdirs := h.sharing c np flags leader hc hvm hled
    have hnp : s.Fitted np := fitted_of_creates hcore hcreates (by rw [hc]; rfl)
    obtain ⟨hsame, _, hgone⟩ := hdirof hnp hnq
    have hlq : leader ≠ q := by
      rintro rfl
      rw [hsame, hdirs] at hgone
      exact hgone hold
    rw [hsame, hdirs, (hothers leader hlq).1]
  case used =>
    intro there hthere
    rw [hdirs, Function.update_apply] at hthere
    split at hthere
    · contradiction
    next hold' =>
      have howns_of : ∀ {p}, s.Owns p → next.Owns p := by
        rintro p ⟨hp, hleads, hown⟩
        refine ⟨hfitted' hp, by rw [htids]; exact hleads, fun c flags hc => ?_⟩
        refine hown c flags ?_
        rw [← (hpcs (.inl (by rw [hc]; rfl))).2]
        exact hc
      rw [Function.update_apply] at hthere
      split at hthere
      next heq => exact ⟨q, howns_of howns, by rw [hdir, heq]⟩
      next =>
        obtain ⟨p, hp, hpdir⟩ := h.used there hthere
        refine ⟨p, howns_of hp, ?_⟩
        by_cases hpq : p = q
        · rw [hpq, hold, Option.some.injEq] at hpdir
          exact absurd hpdir.symm hold'
        · rw [(hothers p hpq).1, hpdir]

theorem fresh (h : s.Housed) (hcore : s.Core) (hgrouped : s.Grouped)
    (hon : s.OnChild next q np) (hrunning : (s.proc q).state = .running)
    (hbefore : ¬ s.Fitted np) {dir : Frame} (hfree : s.dirs dir = false)
    (hdirs : next.dirs = Function.update s.dirs dir true)
    (hdir : (next.proc np).pgdir = some dir)
    (hembryo : (next.proc np).state = .embryo) (htid : (next.proc np).tid = -1)
    (hunmapped : (next.pc q).base.unmapped = none)
    (hids : ∀ flags, (next.pc q).base = .cloneIds np flags →
      flags.has CLONE_VM = false) : next.Housed := by
  have howns : next.Owns np :=
    hon.owns_child hcore
      (hon.fitted_child hcore (by rw [hembryo]; simp) hunmapped) htid hids
  refine h.child hcore hgrouped hon hrunning ?_ ?_ ?_ ?_ ?_ ?_
  · intro other hthere
    rw [hdirs, Function.update_apply]
    split
    · rfl
    · exact hthere
  · exact fun _ => ⟨dir, hdir, by rw [hdirs, Function.update_self]⟩
  · intro _ p _ hp hsame
    obtain ⟨there, hthere, hused⟩ := h.dirs p hp.1
    rw [hthere, hdir] at hsame
    cases hsame
    rw [hfree] at hused
    contradiction
  · exact fun _ hthread => absurd htid hthread
  · intro flags leader hq hvm
    rw [hids flags hq] at hvm
    contradiction
  · intro other hthere
    rw [hdirs, Function.update_apply] at hthere
    split at hthere
    next heq => exact .inl ⟨howns, by rw [heq, hdir]⟩
    next => exact .inr ⟨hthere, fun hp => absurd hp.1 hbefore⟩

theorem steady (h : s.Housed) (hcore : s.Core) (hgrouped : s.Grouped)
    (hon : s.OnChild next q np) (hrunning : (s.proc q).state = .running)
    (hwas : (s.pc q).base.creates = some np)
    (hdirs : next.dirs = s.dirs) (hfitted : s.Fitted np)
    (hdir : (next.proc np).pgdir = (s.proc np).pgdir)
    (htid : (next.proc np).tid = (s.proc np).tid)
    (hparent : (next.proc np).parent = (s.proc np).parent)
    (hlive : (next.proc np).state ≠ .unused)
    (hunmapped : (next.pc q).base.unmapped = none)
    (hids : ∀ flags, (next.pc q).base ≠ .cloneIds np flags)
    (hvm : ∀ flags, (s.pc q).base = .cloneIds np flags →
      flags.has CLONE_VM = false) : next.Housed := by
  have howns : (s.proc np).tid = -1 → next.Owns np ∧ s.Owns np := by
    intro hleads
    refine ⟨hon.owns_child hcore (hon.fitted_child hcore hlive hunmapped)
      (htid.trans hleads) fun flags hq => absurd hq (hids flags), hfitted, hleads,
      fun other flags hq => ?_⟩
    have heq := hcore.owner
      (show (s.pc other).base.creates = some np by rw [hq]; rfl) hwas
    rw [heq] at hq
    exact hvm flags hq
  refine h.child hcore hgrouped hon hrunning ?_ ?_ ?_ ?_ ?_ ?_
  · simp [hdirs]
  · rw [hdir, hdirs]
    exact fun _ => h.dirs np hfitted
  · intro hp p hne howner hsame
    rw [hdir] at hsame
    exact hne (h.own p np howner (howns (htid.symm.trans hp.2.1)).2 hsame)
  · intro _ hthread leader hled
    rw [htid] at hthread
    rw [hparent] at hled
    obtain ⟨found, hfound, hleads⟩ := led hgrouped hfitted hthread
    rw [hled] at hfound
    cases hfound
    refine ⟨?_, hdir.trans (h.shared np hfitted hthread leader hled)⟩
    rintro rfl
    exact hthread hleads.tid
  · exact fun flags _ hq => absurd hq (hids flags)
  · intro dir hthere
    rw [hdirs] at hthere
    by_cases hmine : s.Owns np ∧ (s.proc np).pgdir = some dir
    · exact .inl ⟨(howns hmine.1.2.1).1, hdir.trans hmine.2⟩
    · exact .inr ⟨hthere, fun hp hpdir => hmine ⟨hp, hpdir⟩⟩

theorem setup (h : s.Housed) (hcore : s.Core) (hgrouped : s.Grouped)
    {flags : Flags} {childStack : Nat} (hrunning : (s.proc q).state = .running)
    (hpc : s.pc q = .cloneSetup np flags childStack)
    (hends : s.SetupEnds q np flags next) : next.Housed := by
  have hon := OnChild.setup hcore hpc hends
  have hunmapped : (s.pc q).base.unmapped = some np := by
    rw [hpc]
    rfl
  have hcreates := Pc.creates_of_unnamed (Pc.unnamed_of_unmapped hunmapped)
  have hembryo := hcore.embryo hcreates
  have hbefore : ¬ s.Fitted np := fun hp => hp.2 q hunmapped
  have hbare : (s.proc np).tid = -1 := by
    apply hgrouped.bare q
    rw [hpc]
    rfl
  cases hends with
  | undone _ hbuilds =>
      refine h.unfitted hcore hgrouped hon hrunning rfl hbefore ?_ ?_
      · exact fun hp => hp.1 (by simp [undo])
      · simp [Pc.base]
  | left _ hbuilds _ hdir hfree =>
      refine h.fresh hcore hgrouped hon hrunning hbefore hfree rfl ?_ ?_ ?_ ?_ ?_
      · simpa using hdir
      · simp [hbuilds.state, hembryo]
      · simp [hbuilds.tid, hbare]
      · simp [Pc.base, Pc.unmapped]
      · simp [Pc.base]
  | @done tleader p dir built refs hleader hbuilds hdir hfree hcwd =>
      obtain ⟨hstate, _, htid, _, _, hpgdir, hparent⟩ := cloneCwd_builds hcwd hbuilds
      unfold BuildsDir at hdir
      split at hdir
      next hvm =>
        obtain ⟨hshare, rfl⟩ := hdir
        have hsame : built.pgdir = (s.proc tleader).pgdir := hpgdir.trans hshare
        have hactive := ProcState.active_of_running hrunning
        obtain ⟨found, hfound, hleads⟩ := hgrouped.leads_of_active hcore hactive
          (by rw [hpc]; simp [Pc.base])
        rw [hleader] at hfound
        cases hfound
        have hne : tleader ≠ np := by
          rintro rfl
          have hbeats := hleads.active
          rw [hembryo] at hbeats
          contradiction
        refine h.child hcore hgrouped hon hrunning ?_ ?_ ?_ ?_ ?_ ?_
        · exact fun _ hthere => hthere
        · obtain ⟨dir, hthere, hused⟩ :=
            h.dirs tleader (fitted_active hcore hleads.active)
          exact fun _ => ⟨dir, by simpa using hsame.trans hthere, hused⟩
        · intro hp
          have hnot := hp.2.2 q flags (by simp [Pc.base])
          rw [hvm] at hnot
          contradiction
        · intro _ hthread
          simp [htid, hbare] at hthread
        · intro flags leader _ _ hled
          rw [hleader] at hled
          cases hled
          exact ⟨hne, by simpa using hsame⟩
        · exact fun dir hthere => .inr ⟨hthere, fun hp => absurd hp.1 hbefore⟩
      next hvm =>
        obtain ⟨made, hmade, rfl⟩ := hdir
        refine h.fresh hcore hgrouped hon hrunning hbefore ?_ rfl ?_ ?_ ?_ ?_ ?_
        · simpa [dirFree] using hfree
        · simp [hpgdir, hmade]
        · simp [hstate, hembryo]
        · simp [htid, hbare]
        · simp [Pc.base, Pc.unmapped]
        · simpa [Pc.base] using hvm

theorem ids (h : s.Housed) (hcore : s.Core) (hgrouped : s.Grouped)
    {flags : Flags} (hrunning : (s.proc q).state = .running)
    (hpc : s.pc q = .cloneIds np flags)
    (hflags : flags.has CLONE_VM = flags.has CLONE_THREAD) :
    (s.cloneIds q np flags).Housed := by
  have hbase : (s.pc q).base = .cloneIds np flags := by
    rw [hpc]
    rfl
  have hcreates : (s.pc q).base.creates = some np := by
    rw [hbase]
    rfl
  have hembryo := hcore.embryo hcreates
  have hfitted : s.Fitted np :=
    fitted_of_creates hcore hcreates (by rw [hbase]; rfl)
  have hbare : (s.proc np).tid = -1 := by
    apply hgrouped.bare q
    rw [hbase]
    rfl
  have hon := OnChild.ids hcore hpc
  by_cases hthread : flags.has CLONE_THREAD = true
  · rw [hthread] at hflags
    have hadopted := hgrouped.adopted q np flags hbase hthread
    obtain ⟨leader, hled, hleads⟩ := hgrouped.leads_of_active hcore
      (hcore.creator hcreates) (by rw [hbase]; simp)
    have hpos := (hgrouped.pids np (by rw [hembryo]; simp)).1
    simp only [cloneIds, hthread, if_true] at hon ⊢
    refine h.child hcore hgrouped hon hrunning ?_ ?_ ?_ ?_ ?_ ?_
    · exact fun _ hthere => hthere
    · obtain ⟨dir, hdir, hthere⟩ := h.dirs np hfitted
      exact fun _ => ⟨dir, by simpa using hdir, hthere⟩
    · intro hp
      have htid := hp.2.1
      simp only [goto_proc, setProc_proc, setSlot_same] at htid
      omega
    · intro _ _ other hother
      simp only [goto_proc, setProc_proc, setSlot_same] at hother ⊢
      rw [hadopted, hled] at hother
      cases hother
      refine ⟨?_, h.sharing q np flags leader hbase hflags hled⟩
      rintro rfl
      have hactive := hleads.active
      rw [hembryo] at hactive
      contradiction
    · simp [Pc.base]
    · refine fun dir hthere => .inr ⟨hthere, fun hp => ?_⟩
      have hnot := hp.2.2 q flags hbase
      rw [hflags] at hnot
      contradiction
  · simp only [cloneIds, hthread] at hon ⊢
    refine h.steady hcore hgrouped hon hrunning hcreates rfl hfitted ?_ ?_ ?_ ?_ ?_ ?_ ?_
    · simp
    · simp [hbare]
    · simp
    · simp [hembryo]
    · simp [Pc.base, Pc.unmapped]
    · simp [Pc.base]
    · intro other hother
      rw [hbase] at hother
      cases hother
      simpa [hflags] using hthread

theorem publish (h : s.Housed) (hcore : s.Core) (hgrouped : s.Grouped)
    {retid : Int} (hrunning : (s.proc q).state = .running)
    (hpc : s.pc q = .clonePublish np retid) :
    (s.clonePublish q np retid).Housed := by
  have hbase : (s.pc q).base = .clonePublish np retid := by
    rw [hpc]
    rfl
  have hcreates : (s.pc q).base.creates = some np := by
    rw [hbase]
    rfl
  have hfitted : s.Fitted np :=
    fitted_of_creates hcore hcreates (by rw [hbase]; rfl)
  refine h.steady hcore hgrouped (.publish hcore hpc) hrunning hcreates rfl
    hfitted ?_ ?_ ?_ ?_ ?_ ?_ ?_
  all_goals simp [clonePublish, Pc.base, Pc.unmapped, hpc]

theorem step (h : s.Housed) (hcore : s.Core) (hgrouped : s.Grouped)
    (hflags : ∀ q np flags, s.pc q = .cloneIds np flags →
      flags.has CLONE_VM = flags.has CLONE_THREAD)
    (hled : s.execsLed label = true) (halone : s.commitsAlone label = true)
    (hjoin : s.joinsThreads label = true) (heffect : s.Effect label next) :
    next.Housed := by
  have hquiet : ∀ {q : Slot} {reaped : Slot → Prop}, s.Reaps next q reaped →
      s.SameChildren next → next.dirs = s.dirs →
      (∀ p, reaped p → (s.proc p).tid ≠ -1) → next.Housed := by
    intro q reaped hreaps hchildren hdirs htid
    refine h.reaps hcore hgrouped hreaps hchildren ?_ ?_
    · intro p dir _ _ _ hthere
      rwa [hdirs]
    · intro dir hthere
      rw [hdirs] at hthere
      exact ⟨hthere, fun p hp _ hyes => htid p hyes hp.2.1⟩
  cases heffect with
  | quiet hsame hflow =>
      exact hquiet hsame.toReaps (sameChildren_of_flow hsame.pc hflow) hsame.dirs
        nofun
  | @allocates q flags childStack np hact hpc hfound =>
      have hrunning := running_of_acting hcore hact
      have hunused : (s.proc np).state = .unused := by
        simpa using firstSlot_some hfound
      refine h.unfitted hcore hgrouped (.allocates hcore hrunning hpc hfound) hrunning
        rfl ?_ ?_ ?_
      · exact fun hp => hp.1 hunused
      · exact fun hp => hp.2 q (by simp [Pc.base, Pc.unmapped])
      · simp [Pc.base]
  | @kstack q np _ _ frame hact hpc =>
      refine h.unfitted hcore hgrouped (.kstack hcore hpc frame)
        (running_of_acting hcore hact) ?_ ?_ ?_ ?_
      · cases frame <;> rfl
      · exact fun hp => hp.2 q (by simp [hpc, Pc.base, Pc.unmapped])
      · cases frame with
        | none => exact fun hp => hp.1 (by simp [cloneKstack])
        | some frame =>
            exact fun hp => hp.2 q (by simp [cloneKstack, Pc.base, Pc.unmapped])
      · cases frame <;> simp [cloneKstack, Pc.base]
  | setup hact hpc hends =>
      exact h.setup hcore hgrouped (running_of_acting hcore hact) hpc hends
  | @ids q np flags hact hpc =>
      exact h.ids hcore hgrouped (running_of_acting hcore hact) hpc
        (hflags q np flags hpc)
  | publish hact hpc =>
      exact h.publish hcore hgrouped (running_of_acting hcore hact) hpc
  | files _ hpc | chdir _ hpc =>
      refine h.own_fields hcore hgrouped (sameChildren_setSlot rfl hpc rfl rfl) rfl (fun p => ?_)
        (setSlot_field _ _ rfl) (setSlot_field _ _ rfl)
          fun p _ => setSlot_field _ Proc.parent ?_ p
      · refine iff_of_eq (congrArg (· = _) (setSlot_field _ Proc.state ?_ p))
        rfl
      · rfl
  | @exit q c hact hpc =>
      have hfields := s.proc.exitSlot_fields q
      refine h.own_fields hcore hgrouped (sameChildren_setSlot rfl hpc rfl rfl) rfl
        (s.proc.exitSlot_unused ?_) (fun p => (hfields p).pgdir) (fun p => (hfields p).tid)
          fun p htid => ?_
      · rw [running_of_acting hcore hact]
        simp
      · refine (s.proc.exitSlot_parent q p).trans (if_neg ?_)
        simp [Table.isChild, htid]
  | @waited q nullHit p dir next hact hpc hfound hzombie hleader hdir hreaps hdirs
      hnext =>
      refine h.reaps hcore hgrouped hreaps (hreaps.sameChildren hpc hnext rfl rfl) ?_ ?_
      · intro r other hr hfitted hrdir hthere
        rw [hdirs, Function.update_apply, if_neg]
        · exact hthere
        · rintro rfl
          exact hr (h.sole hcore hgrouped hzombie hleader hfitted
            (hrdir.trans hdir.symm))
      · intro other hthere
        rw [hdirs, Function.update_apply] at hthere
        split at hthere
        · contradiction
        next hne =>
          refine ⟨hthere, fun r _ hrdir heq => ?_⟩
          rw [heq, hdir] at hrdir
          cases hrdir
          exact hne rfl
  | @joined q p tid tleader next hact hpc hkilled hzombie hreaps hdirs hnext =>
      refine hquiet hreaps (hreaps.sameChildren hpc hnext rfl rfl) hdirs ?_
      rintro r rfl
      have htest := actor_test hjoin hact
      rcases hpc with hpc | hpc <;> simpa [hpc, hkilled, hzombie] using htest
  | tgkilled _ hpc hends =>
      refine hquiet hends.reaps (hends.sameChildren hpc) hends.dirs fun p hp => ?_
      have hpeer := hp.1
      simp only [Table.isPeer, decide_eq_true_eq] at hpeer
      exact hpeer.2
  | handOff hact hpc htid => exact absurd (execs_led hled hact hpc) htid
  | @commit q dir old sz hact hpc hfree hold =>
      obtain ⟨htid, hothers⟩ := commits_alone halone hact hpc
      refine h.commit hcore hgrouped (running_of_acting hcore hact) hpc htid hothers
        hfree hold (fun p hne => ⟨setSlot_other _ _ hne, setSlot_other _ _ hne⟩)
        ?_ ?_ ?_ ?_ rfl
      all_goals simp [htid, Pc.base, Pc.creates]

end Housed

theorem userinit_housed (kstack pgdir : Frame) :
    (userinit kstack pgdir).Housed := by
  have hpc := userinit_creates kstack pgdir
  have hids : ∀ q p flags, ((userinit kstack pgdir).pc q).base ≠
      .cloneIds p flags := by
    intro q p flags hq
    have hnone := hpc q
    rw [hq] at hnone
    contradiction
  have hinit : ∀ p, ((userinit kstack pgdir).proc p).state ≠ .unused →
      p = initproc := by
    intro p hp
    by_contra hne
    simp [userinit, setSlot_other, hne] at hp
  constructor
  case dirs =>
    intro p hp
    refine ⟨pgdir, ?_, by simp [userinit]⟩
    rw [hinit p hp.1]
    simp [userinit, userinitProc]
  case own =>
    intro p r hp hr _
    rw [hinit p hp.1.1, hinit r hr.1.1]
  case shared =>
    intro p hp htid
    rw [hinit p hp.1] at htid
    simp [userinit, userinitProc] at htid
  case sharing => exact fun q np flags leader hq => absurd hq (hids q np flags)
  case used =>
    intro dir hdir
    have heq : dir = pgdir := by simpa [userinit] using hdir
    refine ⟨initproc, ⟨⟨?_, fun q hq => ?_⟩, ?_, fun q flags hq => ?_⟩, ?_⟩
    · simp [userinit, userinitProc]
    · have hcreates := Pc.creates_of_unnamed (Pc.unnamed_of_unmapped hq)
      rw [hpc] at hcreates
      contradiction
    · simp [userinit, userinitProc]
    · exact absurd hq (hids q initproc flags)
    · simp [userinit, userinitProc, heq]

def WaitReaps (s : Sys) (label : Label) (next : Sys) (p : Slot) : Prop :=
  s.step label = some next ∧ (s.proc p).state = .zombie ∧
    (next.proc p).state = .unused ∧ ∃ q, s.acting label = some q ∧
      (s.pc q = .waitLock ∨ s.pc q = .waitSlept)

theorem WaitReaps.leader {s next : Sys} {label : Label} {p : Slot}
    (h : s.WaitReaps label next p) (hcore : s.Core) : (s.proc p).tid = -1 := by
  obtain ⟨hstep, hzombie, hunused, q, hact, hpc⟩ := h
  obtain ⟨nullHit, hends⟩ := wait_ends_of_step hcore hstep hact hpc
  have hkept : (s.proc p).Same (next.proc p) → False := by
    intro hsame
    rw [(hsame.state_eq rfl).mp hunused] at hzombie
    contradiction
  cases hends with
  | reaped _ _ hleader _ hreaps =>
      rcases hreaps.proc p with ⟨rfl, _⟩ | ⟨_, hsame⟩
      · exact hleader
      · exact (hkept hsame).elim
  | quiet hquiet => exact (hkept (hquiet.same p)).elim

def dirOrderly (s : Sys) (label : Label) : Bool :=
  s.makes dirCalls label && s.keepsPeers label && s.joinsThreads label

structure DirsServe (s : Sys) : Prop where
  freed : ∀ label next p r, s.WaitReaps label next p → r ≠ p →
    (s.proc r).state ≠ .unused → (∀ q, (s.pc q).base.unmapped ≠ some r) →
      (s.proc r).pgdir ≠ (s.proc p).pgdir
  used : ∀ dir, s.dirs dir = true →
    ∃ p, (s.proc p).state ≠ .unused ∧ (s.proc p).pgdir = some dir
  released : ∀ label next dir, s.dirOrderly label = true →
    s.step label = some next → s.dirs dir = true →
      (∀ p, (next.proc p).state ≠ .unused → (next.proc p).pgdir ≠ some dir) →
        next.dirs dir = false

def DirsKept (s : Sys) : Prop :=
  s.Core ∧ s.Grouped ∧ (s.Within fun _ => dirCalls) ∧ s.Housed

theorem DirsKept.step {s next : Sys} {label : Label} (h : s.DirsKept)
    (hguard : s.dirOrderly label = true) (hstep : s.step label = some next) :
    next.DirsKept := by
  obtain ⟨hcore, hgrouped, hwithin, hhoused⟩ := h
  simp only [dirOrderly, Bool.and_eq_true] at hguard
  obtain ⟨⟨hmakes, hpeers⟩, hjoins⟩ := hguard
  have hsleeper := resumesSleeper_of_within hwithin (fun _ => rfl) label
  have hfresh := handsOffFresh_of_within hwithin rfl label
  have hapart := clonesApart_of_within hwithin
    (fun flags hflags => (dirCalls_flags flags hflags).2) label
  have heffect := hcore.effect hsleeper hstep
  refine ⟨hcore.step hsleeper hstep,
    hgrouped.step hcore hpeers hfresh hapart heffect,
    hwithin.makes hmakes hstep,
    hhoused.step hcore hgrouped (fun q np flags hpc => ?_)
      (execsLed_of_within hwithin rfl label)
      (commitsAlone_of_within hwithin rfl label) hjoins heffect⟩
  have hq := hwithin q
  rw [hpc] at hq
  exact (dirCalls_flags flags hq).1

theorem DirsKept.used {s : Sys} (h : s.DirsKept) {dir : Frame}
    (hdir : s.dirs dir = true) :
    ∃ p, (s.proc p).state ≠ .unused ∧ (s.proc p).pgdir = some dir := by
  obtain ⟨p, hp, hpdir⟩ := h.2.2.2.used dir hdir
  exact ⟨p, hp.1.1, hpdir⟩

/-- A directory is freed by the `wait` that reaps its last user, and by no
other step. -/
theorem dir_lifetime {kstack pgdir : Frame} {s : Sys}
    (hreach : Reach Sys.step (fun s label => s.dirOrderly label = true)
      (userinit kstack pgdir) s) : s.DirsServe := by
  have hkept : s.DirsKept :=
    hreach.invariant DirsKept ⟨userinit_core .., userinit_grouped ..,
      userinit_within _ _, userinit_housed ..⟩ fun h hguard hstep =>
        h.step hguard hstep
  constructor
  case freed =>
    intro label next p r hreaps hne hr hmapped hdir
    obtain ⟨hcore, hgrouped, _, hhoused⟩ := hkept
    exact hne (hhoused.sole hcore hgrouped hreaps.2.1 (hreaps.leader hcore)
      ⟨hr, hmapped⟩ hdir)
  case used => exact fun dir hdir => hkept.used hdir
  case released =>
    intro label next dir hguard hstep _ hnone
    by_contra hthere
    obtain ⟨p, hp, hpdir⟩ :=
      (hkept.step hguard hstep).used (by simpa using hthere)
    exact hnone p hp hpdir

def cloneWait (call : Syscall) : List Label :=
  startOn 0 ++ cloneOn 0 call (.ok 3 8192) ++ startOn 1 ++
    [.run 1 { user := .call .exit }, .run 1 {}, .run 1 {}, .run 1 {}, .run 1 {},
      .run 1 {}, .schedScan 1, .run 0 { user := .call .wait }]

set_option maxRecDepth 4000

theorem dir_lifetime_fork :
    ∃ s next : Sys, s.WaitReaps (.run 0 {}) next 1 ∧ s.DirsServe := by
  have hrun : ((run Sys.step dirOrderly (userinit 1 2) (cloneWait .fork)).any
      fun s => (s.proc 1).state = .zombie ∧ s.acting (.run 0 {}) = some 0 ∧
        s.pc 0 = .waitLock ∧ ((s.step (.run 0 {})).any fun next =>
          (next.proc 1).state = .unused)) = true := by
    decide +kernel
  obtain ⟨s, hreach, hzombie, hact, hpc, hany⟩ := reach_of_run_any hrun
  obtain ⟨next, hstep, hnext⟩ := exists_of_any hany
  exact ⟨s, next, ⟨hstep, hzombie, hnext, 0, hact, .inl hpc⟩, dir_lifetime hreach⟩

/-- A process made with `CLONE_VM` but without `CLONE_THREAD` takes the
directory of its parent with it. -/
theorem wait_frees_shared_dir :
    ¬ ∀ (s next : Sys) label p r, Reach Sys.step (fun _ _ => True)
        (userinit 1 2) s → s.WaitReaps label next p → r ≠ p →
      (s.proc r).state ≠ .unused → (∀ q, (s.pc q).base.unmapped ≠ some r) →
        (s.proc r).pgdir ≠ (s.proc p).pgdir := by
  intro hfreed
  have hrun : ((run Sys.step (fun _ _ => true) (userinit 1 2)
      (cloneWait (.clone (CLONE_VM ||| CLONE_FS ||| CLONE_FILES) 0))).any
      fun s => (s.proc 1).state = .zombie ∧ s.acting (.run 0 {}) = some 0 ∧
        s.pc 0 = .waitLock ∧ (s.proc 0).state = .running ∧
        (s.proc 0).pgdir = (s.proc 1).pgdir ∧
        (∀ q, (s.pc q).base.unmapped ≠ some 0) ∧
        ((s.step (.run 0 {})).any fun next =>
          (next.proc 1).state = .unused)) = true := by
    decide +kernel
  obtain ⟨s, hreach,
    hzombie, hact, hpc, hrunning, hdir, hmapped, hany⟩ := reach_of_run_any hrun
  obtain ⟨next, hstep, hnext⟩ := exists_of_any hany
  refine hfreed s next (.run 0 {}) 1 0 (hreach.mono fun _ _ _ => trivial)
    ⟨hstep, hzombie, hnext, 0, hact, .inl hpc⟩ (by decide) ?_ hmapped hdir
  rw [hrunning]
  simp

end Sys

end KernelThreads
