import KernelThreads.Proc.HandOff
import KernelThreads.Sched.Clone

namespace KernelThreads

open Lib

/-! Which states a slot can be in when a CPU, a scheduler or a creator refers
to it. -/

def ProcState.active : ProcState → Bool
  | .sleeping | .runnable | .running => true
  | _ => false

theorem ProcState.active_of_running {state : ProcState} (h : state = .running) :
    state.active = true := by
  rw [h]
  rfl

def Pc.creates : Pc → Option Slot
  | .cloneKstack np _ _ | .cloneSetup np _ _ | .cloneIds np _
  | .clonePublish np _ => some np
  | _ => none

def Pc.prepared : Pc → Option Slot
  | .cloneSetup np _ _ | .cloneIds np _ | .clonePublish np _ => some np
  | _ => none

theorem Pc.creates_of_prepared {pc : Pc} {np : Slot}
    (h : pc.prepared = some np) : pc.creates = some np := by
  cases pc <;> simp_all [Pc.prepared, Pc.creates]

/-- What a critical section may do to the state of a slot other than the
caller's and one being created. -/
inductive StateMove : ProcState → ProcState → Prop
  | same : StateMove state state
  | wake : StateMove .sleeping .runnable
  | reap : StateMove .zombie .unused

namespace StateMove

theorem trans (hfirst : StateMove first second)
    (hsecond : StateMove second third) : StateMove first third := by
  cases hfirst with
  | same => exact hsecond
  | wake => cases hsecond; exact .wake
  | reap => cases hsecond; exact .reap

theorem of_eq (h : second = first) : StateMove first second := by
  rw [h]
  exact .same

theorem eq_of_running (h : StateMove .running second) : second = .running := by
  cases h
  rfl

theorem eq_of_embryo (h : StateMove .embryo second) : second = .embryo := by
  cases h
  rfl

theorem active_iff (h : StateMove first second) :
    second.active = first.active := by
  cases h <;> rfl

end StateMove

namespace Table

def Moves (t next : Table) : Prop :=
  ∀ p, StateMove (t p).state (next p).state

theorem Moves.trans {first second third : Table}
    (hfirst : first.Moves second) (hsecond : second.Moves third) :
    first.Moves third :=
  fun p => (hfirst p).trans (hsecond p)

theorem Moves.refl (t : Table) : t.Moves t := fun _ => .same

theorem moves_wakeup1 (t : Table) (chan : Option Chan) :
    t.Moves (t.wakeup1 chan) := by
  intro p
  simp only [wakeup1]
  split
  next hsleeps =>
    rw [hsleeps.1]
    exact .wake
  next => exact .same

theorem move_markKilled (p : Proc) :
    StateMove p.state p.markKilled.state := by
  simp only [Proc.markKilled]
  split
  next hsleeps =>
    rw [hsleeps]
    exact .wake
  next => exact .same

theorem moves_setSlot {t : Table} {slot : Slot} {value : Proc}
    (h : StateMove (t slot).state value.state) :
    t.Moves (setSlot t slot value) := by
  intro p
  rw [setSlot_apply]
  split
  next heq =>
    subst heq
    exact h
  next => exact .same

theorem moves_setSize (t : Table) (cur tleader : Slot) (sz : Nat) :
    t.Moves (t.setSize cur tleader sz) := by
  intro p
  simp only [setSize]
  split <;> exact .same

theorem moves_tgkillMark (t : Table) (cur : Slot) :
    t.Moves (t.tgkillMark cur) := by
  intro p
  simp only [tgkillMark]
  split
  · exact move_markKilled (t p)
  · exact .same

theorem moves_tgkillReap (t : Table) (cur : Slot) :
    t.Moves (t.tgkillReap cur) := by
  intro p
  simp only [tgkillReap]
  split
  next hreaped =>
    rw [hreaped.2.1]
    exact .reap
  next => exact .same

theorem moves_exitWakeup (t : Table) (cur : Slot) :
    t.Moves (t.exitWakeup cur) := by
  simp only [exitWakeup]
  split
  · exact (moves_wakeup1 t _).trans (moves_wakeup1 _ _)
  · exact moves_wakeup1 t _

theorem moves_exitReparent (t : Table) (cur : Slot) :
    t.Moves (t.exitReparent cur) := by
  have hparents : t.Moves (t.passToInit cur) := by
    intro p
    simp only [passToInit]
    split <;> exact .same
  simp only [exitReparent]
  split
  · exact hparents.trans (moves_wakeup1 _ _)
  · exact hparents

end Table

namespace Sys

theorem creates_at {s : Sys} {q np : Slot} {pc : Pc} (hpc : s.pc q = pc)
    (hcreates : pc.base.creates = some np) : (s.pc q).base.creates = some np := by
  rw [hpc]
  exact hcreates

/-- The part of the scheduling invariant that does not mention memory. -/
structure Core (s : Sys) : Prop where
  running : ∀ {c p}, (s.cpu c).proc = some p → (s.proc p).state = .running
  single : ∀ {c other p}, (s.cpu c).proc = some p →
    (s.cpu other).proc = some p → c = other
  embryo : ∀ {q np}, (s.pc q).base.creates = some np →
    (s.proc np).state = .embryo
  creator : ∀ {q np}, (s.pc q).base.creates = some np →
    (s.proc q).state.active = true
  owner : ∀ {q other np}, (s.pc q).base.creates = some np →
    (s.pc other).base.creates = some np → q = other
  prepared : ∀ {q np}, (s.pc q).base.prepared = some np → s.pc np = .forkret
  alive : ∀ {p}, (s.proc p).state.active = true → (s.pc p).base ≠ .exited

namespace Core

variable {s next : Sys} {c : Cpu} {q np : Slot}

theorem prepared_at {pc : Pc} (h : s.Core) (hpc : s.pc q = pc)
    (hprepared : pc.base.prepared = some np) : s.pc np = .forkret := by
  rw [← hpc] at hprepared
  exact h.prepared hprepared

theorem creator_ne (h : s.Core) (hcreates : (s.pc q).base.creates = some np) :
    np ≠ q := by
  intro heq
  have hembryo := h.embryo hcreates
  have hactive := h.creator hcreates
  rw [heq] at hembryo
  rw [hembryo] at hactive
  contradiction

/-- A step of `q` that creates no slot and leaves the other threads where they
are. -/
theorem update (h : s.Core) (hq : (s.cpu c).proc = some q)
    (hcpu : ∀ {other p}, (next.cpu other).proc = some p →
      (s.cpu other).proc = some p ∧ (p = q → (next.proc q).state = .running))
    (hpc : ∀ p, p ≠ q → next.pc p = s.pc p)
    (hmoves : ∀ p, p ≠ q → StateMove (s.proc p).state (next.proc p).state)
    (hback : (next.pc q).base = (s.pc q).base ∨
      (next.pc q).base.creates = none)
    (hself : (next.proc q).state.active = true ∨
      (next.pc q).base.creates = none)
    (halive : (next.proc q).state.active = true →
      (next.pc q).base ≠ .exited) : next.Core := by
  have hrunning := h.running hq
  have hinherit : ∀ {other np}, (next.pc other).base.creates = some np →
      (s.pc other).base.creates = some np := by
    intro other np hcreates
    by_cases heq : other = q
    · subst heq
      rcases hback with hback | hback
      · rwa [hback] at hcreates
      · rw [hback] at hcreates
        contradiction
    · rwa [hpc other heq] at hcreates
  have hembryo : ∀ {np : Slot}, (s.proc np).state = .embryo →
      np ≠ q ∧ (next.proc np).state = .embryo := by
    intro np hnp
    have hne : np ≠ q := by
      intro heq
      rw [heq, hrunning] at hnp
      contradiction
    refine ⟨hne, ?_⟩
    have hmove := hmoves np hne
    rw [hnp] at hmove
    exact hmove.eq_of_embryo
  constructor
  case running =>
    intro other p hp
    obtain ⟨hbefore, hif⟩ := hcpu hp
    by_cases heq : p = q
    · subst heq
      exact hif rfl
    · have hmove := hmoves p heq
      rw [h.running hbefore] at hmove
      exact hmove.eq_of_running
  case single =>
    intro first second p hfirst hsecond
    exact h.single (hcpu hfirst).1 (hcpu hsecond).1
  case embryo =>
    intro other np hcreates
    exact (hembryo (h.embryo (hinherit hcreates))).2
  case creator =>
    intro other np hcreates
    by_cases heq : other = q
    · subst heq
      rcases hself with hactive | hnone
      · exact hactive
      · rw [hnone] at hcreates
        contradiction
    · rw [(hmoves other heq).active_iff]
      exact h.creator (hinherit hcreates)
  case owner =>
    intro first second np hfirst hsecond
    exact h.owner (hinherit hfirst) (hinherit hsecond)
  case prepared =>
    intro other np hprepared
    have hcreates := hinherit (Pc.creates_of_prepared hprepared)
    have hbefore : (s.pc other).base.prepared = some np := by
      by_cases heq : other = q
      · subst heq
        rcases hback with hback | hback
        · rwa [hback] at hprepared
        · rw [Pc.creates_of_prepared hprepared] at hback
          contradiction
      · rwa [hpc other heq] at hprepared
    rw [hpc np (hembryo (h.embryo hcreates)).1]
    exact h.prepared hbefore
  case alive =>
    intro p hactive
    by_cases heq : p = q
    · subst heq
      exact halive hactive
    · rw [hpc p heq]
      rw [(hmoves p heq).active_iff] at hactive
      exact h.alive hactive

theorem keep (h : s.Core) (hq : (s.cpu c).proc = some q)
    (hcpu : next.cpu = s.cpu) (hpc : ∀ p, p ≠ q → next.pc p = s.pc p)
    (hmoves : s.proc.Moves next.proc)
    (hback : (next.pc q).base = (s.pc q).base ∨
      (next.pc q).base.creates = none)
    (halive : (next.pc q).base ≠ .exited) : next.Core := by
  have hrunning : (next.proc q).state = .running := by
    have hmove := hmoves q
    rw [h.running hq] at hmove
    exact hmove.eq_of_running
  refine h.update hq ?_ hpc (fun p _ => hmoves p) hback ?_ fun _ => halive
  · intro other p hp
    rw [hcpu] at hp
    exact ⟨hp, fun _ => hrunning⟩
  · left
    rw [hrunning]
    rfl

theorem leave (h : s.Core) (hq : (s.cpu c).proc = some q) {scan : Nat}
    (hcpu : next.cpu = Function.update s.cpu c { proc := none, scan := scan })
    (hpc : ∀ p, p ≠ q → next.pc p = s.pc p)
    (hmoves : ∀ p, p ≠ q → StateMove (s.proc p).state (next.proc p).state)
    (hback : (next.pc q).base = (s.pc q).base ∨
      (next.pc q).base.creates = none)
    (hself : (next.proc q).state.active = true ∨
      (next.pc q).base.creates = none)
    (halive : (next.proc q).state.active = true →
      (next.pc q).base ≠ .exited) : next.Core := by
  refine h.update hq ?_ hpc hmoves hback hself halive
  intro other p hp
  rw [hcpu, Function.update_apply] at hp
  split at hp
  · contradiction
  next hne =>
    refine ⟨hp, fun heq => ?_⟩
    subst heq
    exact absurd (h.single hp hq) hne

theorem goto (h : s.Core) (hq : (s.cpu c).proc = some q) {pc : Pc}
    (hcreates : pc.base.creates = none) (halive : pc.base ≠ .exited) :
    (s.goto q pc).Core := by
  refine h.keep hq rfl ?_ (.refl _) ?_ ?_
  · intro p hne
    simp [setSlot_other, hne]
  · right
    simpa using hcreates
  · simpa using halive

theorem finish (h : s.Core) (hq : (s.cpu c).proc = some q) {t : Table} {pc : Pc}
    (hmoves : s.proc.Moves t)
    (hback : pc.base = (s.pc q).base ∨ pc.base.creates = none)
    (halive : pc.base ≠ .exited) :
    ({ s with proc := t }.finish q pc).Core := by
  refine h.keep hq rfl ?_ hmoves ?_ ?_
  · intro p hne
    simp [setSlot_other, hne]
  · simpa using hback
  · simpa using halive

theorem sched (h : s.Core) (hq : (s.cpu c).proc = some q) {t : Table} {pc : Pc}
    {p : Proc} (hmoves : s.proc.Moves t) (hactive : p.state.active = true)
    (hback : pc.base = (s.pc q).base ∨ pc.base.creates = none)
    (halive : pc.base ≠ .exited) :
    (({ s with proc := t }.setProc q p).sched c q pc).Core := by
  refine h.leave hq rfl ?_ ?_ ?_ ?_ ?_
  · intro p hne
    simp [setSlot_other, hne]
  · intro p hne
    simpa [setSlot_other, hne] using hmoves p
  · simpa using hback
  · left
    simpa using hactive
  · intro _
    simpa using halive

theorem sleep (h : s.Core) (hq : (s.cpu c).proc = some q) {t : Table} {pc : Pc}
    {chan : Option Chan} (hmoves : s.proc.Moves t)
    (hback : pc.base = (s.pc q).base ∨ pc.base.creates = none)
    (halive : pc.base ≠ .exited) :
    ({ s with proc := t }.sleep c q chan pc).Core :=
  h.sched hq hmoves rfl hback halive

theorem tidy (h : s.Core) (hq : (s.cpu c).proc = some q) :
    (s.tidy q).Core := by
  refine h.keep hq rfl (fun _ _ => rfl) ?_ (.inl rfl) (h.alive ?_)
  · exact Table.moves_setSlot .same
  · rw [h.running hq]
    rfl

theorem base_alive (h : s.Core) (hq : (s.cpu c).proc = some q) :
    (s.pc q).base ≠ .exited := by
  apply h.alive
  rw [h.running hq]
  rfl

theorem creating (h : s.Core) (hcreates : (s.pc q).base.creates = some np) :
    np ≠ q ∧ (s.proc np).state.active = false ∧
      ∀ other, other ≠ q → (s.pc other).base.creates ≠ some np := by
  refine ⟨h.creator_ne hcreates, ?_, ?_⟩
  · rw [h.embryo hcreates]
    rfl
  · intro other hne hother
    exact hne (h.owner hother hcreates)

end Core

structure OnChild (s next : Sys) (q np : Slot) : Prop where
  ne : np ≠ q
  idle : (s.proc np).state.active = false
  sole : ∀ other, other ≠ q → (s.pc other).base.creates ≠ some np
  cpu : next.cpu = s.cpu
  proc : ∀ p, p ≠ np → next.proc p = s.proc p
  pc : ∀ p, p ≠ q → p ≠ np → next.pc p = s.pc p
  child : next.pc np = s.pc np ∨ next.pc np = .forkret
  was : ∀ made, (s.pc q).base.creates = some made → np = made
  now : ∀ made, (next.pc q).base.creates = some made → np = made

namespace OnChild

variable {s next : Sys} {q np p : Slot} {flags : Flags} {childStack : Nat}

theorem ne_of_active (h : s.OnChild next q np)
    (hactive : (s.proc p).state.active = true) : p ≠ np := by
  rintro rfl
  rw [h.idle] at hactive
  contradiction

theorem creates_none (h : s.OnChild next q np) (hcore : s.Core) :
    (next.pc np).base.creates = none := by
  rcases h.child with hchild | hchild
  · rw [hchild]
    by_contra hsome
    obtain ⟨made, hmade⟩ := Option.ne_none_iff_exists'.mp hsome
    exact h.ne_of_active (hcore.creator hmade) rfl
  · rw [hchild]
    rfl

theorem others (h : s.OnChild next q np) (hcore : s.Core) {other made : Slot}
    (hne : other ≠ q) (hmade : (next.pc other).base.creates = some made) :
    next.pc other = s.pc other ∧ (s.pc other).base.creates = some made ∧
      made ≠ np := by
  have hnp : other ≠ np := by
    rintro rfl
    rw [h.creates_none hcore] at hmade
    contradiction
  rw [h.pc other hne hnp] at hmade
  refine ⟨h.pc other hne hnp, hmade, ?_⟩
  rintro rfl
  exact h.sole other hne hmade

theorem allocates (hcore : s.Core) (hrunning : (s.proc q).state = .running)
    (hpc : s.pc q = .allocproc flags childStack)
    (hfound : s.proc.findUnused = some np) {p : Proc} {nextpid : Int} :
    s.OnChild ({ s with
      proc := setSlot s.proc np p
      nextpid := nextpid }.finish q (.cloneKstack np flags childStack)) q np := by
  have hunused : (s.proc np).state = .unused := by
    simpa using firstSlot_some hfound
  have hne : np ≠ q := by
    rintro rfl
    rw [hrunning] at hunused
    contradiction
  constructor
  case ne => exact hne
  case idle =>
    rw [hunused]
    rfl
  case sole =>
    intro other _ hcreates
    have hembryo := hcore.embryo hcreates
    rw [hunused] at hembryo
    contradiction
  case cpu => rfl
  case proc => exact fun p hp => setSlot_other _ _ hp
  case pc => exact fun p hp _ => setSlot_other _ _ hp
  case child => exact .inl (setSlot_other _ _ hne)
  case was => simp [hpc, Pc.base, Pc.creates]
  case now => simp [Pc.base, Pc.creates]

theorem builds (hcore : s.Core) (hcreates : (s.pc q).base.creates = some np)
    {p : Proc} {pc : Pc} {lock : Option Cpu} {dirs : Frame → Bool}
    {iref : Nat → Nat} (hnow : ∀ made, pc.base.creates = some made → np = made) :
    s.OnChild { s with
      proc := setSlot s.proc np p
      pc := setSlot s.pc q pc
      lock := lock
      dirs := dirs
      iref := iref } q np := by
  obtain ⟨hne, hidle, hsole⟩ := hcore.creating hcreates
  exact {
    ne := hne
    idle := hidle
    sole := hsole
    cpu := rfl
    proc := fun p hp => setSlot_other _ _ hp
    pc := fun p hp _ => setSlot_other _ _ hp
    child := .inl (setSlot_other _ _ hne)
    was := by simp [hcreates]
    now := by simpa using hnow }

theorem kstack (hcore : s.Core)
    (hpc : s.pc q = .cloneKstack np flags childStack) (frame : Option Frame) :
    s.OnChild (s.cloneKstack q np flags childStack frame) q np := by
  have hcreates := creates_at hpc rfl
  cases frame with
  | none => exact builds hcore hcreates nofun
  | some frame =>
      obtain ⟨hne, hidle, hsole⟩ := hcore.creating hcreates
      exact {
        ne := hne
        idle := hidle
        sole := hsole
        cpu := rfl
        proc := fun p hp => setSlot_other _ _ hp
        pc := fun p hp hnp => by simp [cloneKstack, setSlot_other, hp, hnp]
        child := .inr (by simp [cloneKstack, setSlot_other, hne])
        was := by simp [hcreates]
        now := by simp [cloneKstack, Pc.base, Pc.creates] }

theorem setup (hcore : s.Core) (hpc : s.pc q = .cloneSetup np flags childStack)
    (hends : s.SetupEnds q np flags next) : s.OnChild next q np := by
  have hcreates := creates_at hpc rfl
  cases hends with
  | undone | left => exact builds hcore hcreates nofun
  | done => exact builds hcore hcreates fun _ => Option.some.inj

theorem ids (hcore : s.Core)
    (hpc : s.pc q = .cloneIds np flags) :
    s.OnChild (s.cloneIds q np flags) q np := by
  have hcreates := creates_at hpc rfl
  unfold cloneIds
  split <;> exact builds hcore hcreates fun _ => Option.some.inj

theorem publish (hcore : s.Core) {retid : Int}
    (hpc : s.pc q = .clonePublish np retid) :
    s.OnChild (s.clonePublish q np retid) q np :=
  builds hcore (creates_at hpc rfl) nofun

end OnChild

namespace Core

variable {s next : Sys} {c : Cpu} {q np : Slot}

theorem child (h : s.Core) (hq : (s.cpu c).proc = some q)
    (hon : s.OnChild next q np)
    (hembryo : ∀ made, (next.pc q).base.creates = some made →
      (next.proc np).state = .embryo)
    (hprepared : ∀ made, (next.pc q).base.prepared = some made →
      next.pc np = .forkret)
    (hborn : (next.proc np).state.active = true → next.pc np = .forkret)
    (halive : (next.pc q).base ≠ .exited) : next.Core := by
  have hrunning := h.running hq
  constructor
  case running =>
    intro other p hp
    rw [hon.cpu] at hp
    have hp' := h.running hp
    rw [hon.proc p (hon.ne_of_active (ProcState.active_of_running hp')), hp']
  case single =>
    intro first second p hfirst hsecond
    rw [hon.cpu] at hfirst hsecond
    exact h.single hfirst hsecond
  case embryo =>
    intro other made hmade
    by_cases hoq : other = q
    · subst hoq
      rw [← hon.now made hmade]
      exact hembryo made hmade
    · obtain ⟨_, hbefore, hnmade⟩ := hon.others h hoq hmade
      rw [hon.proc made hnmade]
      exact h.embryo hbefore
  case creator =>
    intro other made hmade
    by_cases hoq : other = q
    · subst hoq
      rw [hon.proc other hon.ne.symm, hrunning]
      rfl
    · obtain ⟨_, hbefore, _⟩ := hon.others h hoq hmade
      have hactive := h.creator hbefore
      rw [hon.proc other (hon.ne_of_active hactive)]
      exact hactive
  case owner =>
    intro first second made hfirst hsecond
    by_cases hfq : first = q <;> by_cases hsq : second = q
    · rw [hfq, hsq]
    · subst hfq
      exact absurd (hon.now made hfirst).symm (hon.others h hsq hsecond).2.2
    · subst hsq
      exact absurd (hon.now made hsecond).symm (hon.others h hfq hfirst).2.2
    · exact h.owner (hon.others h hfq hfirst).2.1 (hon.others h hsq hsecond).2.1
  case prepared =>
    intro other made hmade
    have hcreating := Pc.creates_of_prepared hmade
    by_cases hoq : other = q
    · subst hoq
      rw [← hon.now made hcreating]
      exact hprepared made hmade
    · obtain ⟨hsame, hbefore, hnmade⟩ := hon.others h hoq hcreating
      have hmq : made ≠ q := by
        rintro rfl
        have hembryo := h.embryo hbefore
        rw [hrunning] at hembryo
        contradiction
      rw [hon.pc made hmq hnmade]
      rw [hsame] at hmade
      exact h.prepared hmade
  case alive =>
    intro p hactive
    by_cases hpq : p = q
    · subst hpq
      exact halive
    · by_cases hpnp : p = np
      · subst hpnp
        rw [hborn hactive]
        simp [Pc.base]
      · rw [hon.pc p hpq hpnp]
        rw [hon.proc p hpnp] at hactive
        exact h.alive hactive

theorem allocproc (h : s.Core) (hq : (s.cpu c).proc = some q) {flags : Flags}
    {childStack : Nat} (hpc : s.pc q = .allocproc flags childStack) :
    (s.allocproc q flags childStack).Core := by
  unfold Sys.allocproc
  split
  next => exact h.finish hq (.refl _) (.inr rfl) (by simp [Pc.base])
  next np hfound =>
    refine h.child hq (.allocates h (h.running hq) hpc hfound) ?_ ?_ ?_ ?_ <;>
      simp [Pc.base, Pc.creates, Pc.prepared, ProcState.active]

theorem cloneKstack (h : s.Core) (hq : (s.cpu c).proc = some q)
    {flags : Flags} {childStack : Nat}
    (hpc : s.pc q = .cloneKstack np flags childStack) (kstack : Option Frame) :
    (s.cloneKstack q np flags childStack kstack).Core := by
  have hcreates := creates_at hpc rfl
  have hne := h.creator_ne hcreates
  have hembryo := h.embryo hcreates
  cases kstack <;> refine h.child hq (.kstack h hpc _) ?_ ?_ ?_ ?_ <;>
    simp [Sys.cloneKstack, setSlot_other, hne, Pc.base, Pc.creates, Pc.prepared,
      ProcState.active, hembryo]

theorem cloneSetup (h : s.Core) (hq : (s.cpu c).proc = some q)
    {flags : Flags} {childStack : Nat}
    (hpc : s.pc q = .cloneSetup np flags childStack)
    (hends : s.SetupEnds q np flags next) : next.Core := by
  have hcreates := creates_at hpc rfl
  have hforkret := h.prepared_at hpc rfl
  have hne := h.creator_ne hcreates
  have hembryo := h.embryo hcreates
  refine h.child hq (.setup h hpc hends) ?_ ?_ ?_ ?_
  all_goals
    cases hends with
    | undone =>
        simp [Pc.base, Pc.creates, Pc.prepared, ProcState.active, undo]
    | left _ hbuilds =>
        simp [Pc.base, Pc.creates, Pc.prepared, ProcState.active, hembryo,
          hbuilds.state]
    | done _ hbuilds _ _ hcwd =>
        have hstate := (cloneCwd_builds hcwd hbuilds).1
        simp [setSlot_other, hne, Pc.base, Pc.creates, ProcState.active,
          hembryo, hstate, hforkret]

theorem cloneIds (h : s.Core) (hq : (s.cpu c).proc = some q) {flags : Flags}
    (hpc : s.pc q = .cloneIds np flags) : (s.cloneIds q np flags).Core := by
  have hcreates := creates_at hpc rfl
  have hforkret := h.prepared_at hpc rfl
  have hne := h.creator_ne hcreates
  have hembryo := h.embryo hcreates
  refine h.child hq (.ids h hpc) ?_ ?_ ?_ ?_ <;> unfold Sys.cloneIds <;>
    split <;> simp [setSlot_other, hne, Pc.base, Pc.creates, ProcState.active,
      hembryo, hforkret]

theorem clonePublish (h : s.Core) (hq : (s.cpu c).proc = some q) {retid : Int}
    (hpc : s.pc q = .clonePublish np retid) :
    (s.clonePublish q np retid).Core := by
  have hne : np ≠ q := by
    apply h.creator_ne
    rw [hpc]
    rfl
  have hforkret := h.prepared_at hpc rfl
  refine h.child hq (.publish h hpc) ?_ ?_ ?_ ?_ <;>
    simp [Sys.clonePublish, setSlot_other, hne, Pc.base, Pc.creates, Pc.prepared,
      hforkret]

theorem setOwn (h : s.Core) (hq : (s.cpu c).proc = some q) {p : Proc} {pc : Pc}
    {dirs : Frame → Bool} {iref : Nat → Nat}
    (hstate : p.state = (s.proc q).state)
    (hcreates : pc.base.creates = none) (halive : pc.base ≠ .exited) :
    ({ s.setProc q p with dirs := dirs, iref := iref }.goto q pc).Core := by
  refine h.keep hq rfl ?_ ?_ ?_ ?_
  · intro p hne
    simp [setSlot_other, hne]
  · exact Table.moves_setSlot (.of_eq hstate)
  · right
    simpa using hcreates
  · simpa using halive

theorem exitLock (h : s.Core) (hq : (s.cpu c).proc = some q) :
    (s.exitLock c q).Core := by
  refine h.leave hq rfl ?_ ?_ (.inr ?_) (.inr ?_) ?_
  · intro p hne
    simp [Sys.exitLock, setSlot_other, hne]
  · intro p hne
    simp only [Sys.exitLock, sched_proc, Table.exitSlot, setSlot_other _ _ hne]
    exact ((Table.moves_exitWakeup _ _).trans
      (Table.moves_exitReparent _ _)) p
  · simp [Sys.exitLock, Pc.base, Pc.creates]
  · simp [Sys.exitLock, Pc.base, Pc.creates]
  · simp [Sys.exitLock, Table.exitSlot, ProcState.active]

theorem waitTurn (h : s.Core) (hq : (s.cpu c).proc = some q)
    {nullHit : Slot → Bool} (hturn : s.waitTurn c q nullHit = some next) :
    next.Core := by
  cases waitTurns_of_waitTurn hturn with
  | reaped _ hzombie =>
      refine h.keep hq rfl ?_ (Table.moves_setSlot ?_) (.inr ?_) ?_
      · intro other hne
        simp [setSlot_other, hne]
      · rw [hzombie]
        exact .reap
      · simp [Pc.base, Pc.creates]
      · simp [Pc.base]
  | returned => exact h.finish hq (.refl _) (.inr rfl) (by simp [Pc.base])
  | sleeps => exact h.sleep hq (.refl _) (.inr rfl) (by simp [Pc.base])

theorem joinTurn (h : s.Core) (hq : (s.cpu c).proc = some q) {p : Slot}
    {tid : Int} {tleader : Option Slot} :
    (s.joinTurn c q p tid tleader).Core := by
  unfold Sys.joinTurn
  split
  · exact h.finish hq (.refl _) (.inr rfl) (by simp [Pc.base])
  · split
    next hzombie =>
      refine h.finish hq (Table.moves_setSlot ?_) (.inr rfl) (by simp [Pc.base])
      rw [hzombie]
      exact .reap
    next => exact h.sleep hq (.refl _) (.inr rfl) (by simp [Pc.base])

theorem joinScan (h : s.Core) (hq : (s.cpu c).proc = some q) {tid : Int} :
    (s.joinScan q tid).Core := by
  unfold Sys.joinScan
  split
  · exact h.goto hq rfl (by simp [Pc.base])
  · split
    · exact h.goto hq rfl (by simp [Pc.base])
    · split <;> exact h.goto hq rfl (by simp [Pc.base])

theorem killFound (h : s.Core) (hq : (s.cpu c).proc = some q)
    (found : Option Slot) : (s.killFound q found).Core := by
  cases found with
  | none => exact h.finish hq (.refl _) (.inr rfl) (by simp [Pc.base])
  | some p =>
      exact h.finish hq (Table.moves_setSlot (Table.move_markKilled _))
        (.inr rfl) (by simp [Pc.base])

theorem tgkillReturn_base (caller : TgkillCaller) (result : Int) :
    (tgkillReturn caller result).base.creates = none ∧
      (tgkillReturn caller result).base ≠ .exited := by
  cases caller <;> simp [tgkillReturn, Pc.base, Pc.creates]

theorem tgkillTurn (h : s.Core) (hq : (s.cpu c).proc = some q)
    {caller : TgkillCaller} : (s.tgkillTurn c q caller).Core := by
  have hmoves := Table.moves_tgkillReap s.proc q
  have hreturn := tgkillReturn_base caller
  unfold Sys.tgkillTurn
  dsimp only
  split
  · exact h.finish hq hmoves (.inr (hreturn 0).1) (hreturn 0).2
  · split
    · exact h.finish hq hmoves (.inr (hreturn (-1)).1) (hreturn (-1)).2
    · exact h.sleep hq hmoves (.inr rfl) (by simp [Pc.base])

theorem tgkillMark (h : s.Core) (hq : (s.cpu c).proc = some q) :
    (s.tgkillMark q).Core :=
  h.keep hq rfl (fun _ _ => rfl) (Table.moves_tgkillMark _ _) (.inl rfl)
    (h.base_alive hq)

theorem tresumeScan (h : s.Core) (hq : (s.cpu c).proc = some q) {tid : Int} :
    (s.tresumeScan q tid).Core := by
  unfold Sys.tresumeScan
  split
  · exact h.goto hq rfl (by simp [Pc.base])
  · split
    · exact h.goto hq rfl (by simp [Pc.base])
    · split <;> exact h.goto hq rfl (by simp [Pc.base])

theorem tresumeLock (h : s.Core) (hq : (s.cpu c).proc = some q) {p : Slot}
    (hsleeps : (s.proc p).state = .sleeping) : (s.tresumeLock q p).Core := by
  refine h.finish hq (Table.moves_setSlot ?_) (.inr rfl) (by simp [Pc.base])
  rw [hsleeps]
  exact .wake

theorem execLock (h : s.Core) (hq : (s.cpu c).proc = some q)
    {tleader : Option Slot} (hlock : s.execLock q tleader = some next) :
    next.Core := by
  cases execLocks_of_execLock hlock with
  | leads => exact h.finish hq (.refl _) (.inr rfl) (by simp [Pc.base])
  | @handOff leader =>
      refine h.finish hq (fun p => .of_eq ?_) (.inr rfl) (by simp [Pc.base])
      exact (Table.rewired_handOff s.proc q leader p).state

theorem userAct (h : s.Core) (hq : (s.cpu c).proc = some q) (act : UserAct) :
    (s.userAct q act).Core := by
  cases act with
  | call call =>
      unfold Sys.userAct
      dsimp only
      split
      · exact h.goto hq rfl (by simp [Pc.base])
      · cases call <;> simp only [Syscall.entry]
        case tkill => split <;> exact h.goto hq rfl (by simp [Pc.base])
        all_goals exact h.goto hq rfl (by simp [Pc.base])
  | fault => exact h.setOwn hq rfl rfl (by simp [Pc.base])

theorem kernelAct (h : s.Core) (hq : (s.cpu c).proc = some q) {act : KernelAct}
    (hact : s.kernelAct q act = some next) : next.Core := by
  cases kernelActs_of_kernelAct hact with
  | ret => exact h.goto hq rfl (by simp [Pc.base])
  | grow =>
      refine h.keep hq rfl ?_ (Table.moves_setSize _ _ _ _) (.inr ?_) ?_
      · intro p hne
        simp [setSlot_other, hne]
      · simp [Pc.base, Pc.creates]
      · simp [Pc.base]
  | chdir => exact h.setOwn hq rfl rfl (by simp [Pc.base])

theorem exitFiles (h : s.Core) (hq : (s.cpu c).proc = some q)
    (hfiles : s.exitFiles q = some next) : next.Core := by
  obtain ⟨_, rfl⟩ := exitFiles_eq_some hfiles
  exact h.setOwn hq rfl rfl (by simp [Pc.base])

theorem execLoad (h : s.Core) (hq : (s.cpu c).proc = some q)
    {image : Option (Frame × Nat)} (hload : s.execLoad q image = some next) :
    next.Core := by
  cases loads_of_execLoad hload with
  | failed => exact h.goto hq rfl (by simp [Pc.base])
  | done => exact h.setOwn hq rfl rfl (by simp [Pc.base])

theorem acts (h : s.Core) (hq : (s.cpu c).proc = some q) {x : Choice}
    (hsleeper : ∀ p, s.pc q = .tresumeLock p → (s.proc p).state = .sleeping)
    (hacts : s.Acts c q x (s.pc q) next) : next.Core := by
  generalize hpc : s.pc q = pc at hacts
  cases hacts with
  | user => exact h.userAct hq _
  | trapret => split <;> exact h.goto hq rfl (by simp [Pc.base])
  | kernel hact => exact h.kernelAct hq hact
  | forkret => exact h.finish hq (.refl _) (.inr rfl) (by simp [Pc.base])
  | @yielded resumed =>
      have hbase : (s.pc q).base = resumed.base := by rw [hpc, Pc.base]
      refine h.finish hq (.refl _) (.inl hbase.symm) ?_
      rw [← hbase]
      exact h.base_alive hq
  | @asleep resumed =>
      have hbase : (s.pc q).base = resumed.base := by rw [hpc, Pc.base]
      refine (h.tidy hq).finish hq (.refl _) (.inl hbase.symm) ?_
      rw [← hbase]
      exact h.base_alive hq
  | allocproc => exact h.allocproc hq hpc
  | cloneKstack => exact h.cloneKstack hq hpc _
  | cloneSetup hsetup => exact h.cloneSetup hq hpc (setup_ends hsetup)
  | cloneIds => exact h.cloneIds hq hpc
  | clonePublish => exact h.clonePublish hq hpc
  | exitFiles hfiles => exact h.exitFiles hq hfiles
  | exitGroup =>
      unfold Sys.exitGroup
      split <;> exact h.goto hq rfl (by simp [Pc.base])
  | exitLock => exact h.exitLock hq
  | waitLock _ hturn => exact h.waitTurn hq hturn
  | waitSlept _ hturn => exact (h.tidy hq).waitTurn hq hturn
  | joinScan => exact h.joinScan hq
  | joinLock => exact h.joinTurn hq
  | joinSlept => exact (h.tidy hq).joinTurn hq
  | killLock => exact h.killFound hq _
  | tkillLock => exact h.killFound hq _
  | tgkillCheck =>
      unfold Sys.tgkillCheck
      split
      · exact h.goto hq rfl (by simp [Pc.base])
      · exact h.goto hq (tgkillReturn_base _ _).1 (tgkillReturn_base _ _).2
  | tgkillLock => exact (h.tgkillMark hq).tgkillTurn hq
  | tgkillSlept => exact (h.tidy hq).tgkillTurn hq
  | tsuspendCheck =>
      unfold Sys.tsuspendCheck
      split <;> exact h.goto hq rfl (by simp [Pc.base])
  | tsuspendLock => exact h.sleep hq (.refl _) (.inr rfl) (by simp [Pc.base])
  | tsuspendSlept =>
      exact (h.tidy hq).finish hq (.refl _) (.inr rfl) (by simp [Pc.base])
  | tresumeScan => exact h.tresumeScan hq
  | tresumeLock => exact h.tresumeLock hq (hsleeper _ hpc)
  | execLeader => exact h.goto hq rfl (by simp [Pc.base])
  | execLock _ hlock => exact h.execLock hq hlock
  | execLoad hload => exact h.execLoad hq hload

theorem leaves (h : s.Core) (hq : (s.cpu c).proc = some q) {label : Label}
    (hleaves : s.Leaves c q label next) : next.Core := by
  have halive := h.base_alive hq
  cases hleaves with
  | killed => exact h.goto hq rfl (by simp [Pc.base])
  | preempt => exact h.sched hq (.refl _) rfl (.inl rfl) halive
  | block => exact h.sleep hq (.refl _) (.inl rfl) halive

end Core

def acting (s : Sys) : Label → Option Slot
  | .run c _ => (s.cpu c).proc
  | _ => none

/-- A condition on the thread whose code a step runs, at the point it has
reached. -/
def actor (s : Sys) (label : Label) (test : Slot → Pc → Bool) : Bool :=
  match s.acting label with
  | none => true
  | some q => test q (s.pc q)

theorem actor_test {s : Sys} {label : Label} {test : Slot → Pc → Bool} {q : Slot}
    (h : s.actor label test = true) (hact : s.acting label = some q) :
    test q (s.pc q) = true := by
  simpa only [actor, hact] using h

/-- A `tresume` takes effect only on a thread that still sleeps. -/
def resumesSleeper (s : Sys) (label : Label) : Bool :=
  s.actor label fun _ point =>
    match point with
    | .tresumeLock p => (s.proc p).state = .sleeping
    | _ => true

theorem resumes_sleeper {s : Sys} {label : Label} {q p : Slot}
    (h : s.resumesSleeper label = true) (hact : s.acting label = some q)
    (hpc : s.pc q = .tresumeLock p) : (s.proc p).state = .sleeping := by
  have htest := actor_test h hact
  simpa [hpc] using htest

namespace Core

variable {s next : Sys} {label : Label}

theorem schedPick (h : s.Core) {c : Cpu} {p : Slot}
    (hrunnable : (s.proc p).state = .runnable) :
    Core { s.setProc p { s.proc p with state := .running } with
      cpu := Function.update s.cpu c { proc := some p, scan := p.val } } := by
  have hnobody : ∀ other, (s.cpu other).proc ≠ some p := by
    intro other hother
    rw [h.running hother] at hrunnable
    contradiction
  have hactive : ∀ other, (setSlot s.proc p
      { s.proc p with state := .running } other).state.active =
        (s.proc other).state.active := by
    intro other
    rw [setSlot_apply]
    split
    · subst other
      rw [hrunnable]
      rfl
    · rfl
  constructor
  case running =>
    intro other q hother
    simp only [Function.update_apply] at hother
    split at hother
    · cases hother
      simp
    · have hne : q ≠ p := by
        rintro rfl
        exact hnobody other hother
      simpa [setSlot_other, hne] using h.running hother
  case single =>
    intro first second q hfirst hsecond
    simp only [Function.update_apply] at hfirst hsecond
    split at hfirst <;> split at hsecond
    · simp_all
    · cases hfirst
      exact absurd hsecond (hnobody second)
    · cases hsecond
      exact absurd hfirst (hnobody first)
    · exact h.single hfirst hsecond
  case embryo =>
    intro q np hcreates
    have hembryo := h.embryo hcreates
    have hne : np ≠ p := by
      rintro rfl
      rw [hembryo] at hrunnable
      contradiction
    simpa [setSlot_other, hne] using hembryo
  case creator =>
    intro q np hcreates
    exact (hactive q).trans (h.creator hcreates)
  case owner => exact h.owner
  case prepared => exact h.prepared
  case alive =>
    intro q hq
    exact h.alive ((hactive q).symm.trans hq)

theorem wakeup (h : s.Core) (chan : Option Chan) :
    Core { s with proc := s.proc.wakeup1 chan } := by
  have hmoves := Table.moves_wakeup1 s.proc chan
  constructor
  case running =>
    intro c p hp
    have hmove := hmoves p
    rw [h.running hp] at hmove
    exact hmove.eq_of_running
  case single => exact h.single
  case embryo =>
    intro q np hcreates
    have hmove := hmoves np
    rw [h.embryo hcreates] at hmove
    exact hmove.eq_of_embryo
  case creator =>
    intro q np hcreates
    exact (hmoves q).active_iff.trans (h.creator hcreates)
  case owner => exact h.owner
  case prepared => exact h.prepared
  case alive =>
    intro p hactive
    exact h.alive ((hmoves p).active_iff.symm.trans hactive)

theorem idle (h : s.Core) {c : Cpu} (hidle : (s.cpu c).proc = none)
    {lock : Option Cpu} {scan : Nat} :
    Core { s with
      lock := lock
      cpu := Function.update s.cpu c { proc := none, scan := scan } } := by
  have hcpu : ∀ other, (Function.update s.cpu c
      { proc := none, scan := scan } other).proc = (s.cpu other).proc := by
    intro other
    rw [Function.update_apply]
    split
    · subst other
      exact hidle.symm
    · rfl
  constructor
  case running =>
    intro other p hp
    exact h.running ((hcpu other).symm.trans hp)
  case single =>
    intro first second p hfirst hsecond
    exact h.single ((hcpu first).symm.trans hfirst)
      ((hcpu second).symm.trans hsecond)
  case embryo => exact h.embryo
  case creator => exact h.creator
  case owner => exact h.owner
  case prepared => exact h.prepared
  case alive => exact h.alive

theorem release (h : s.Core) : Core { s with lock := none } :=
  ⟨h.running, h.single, h.embryo, h.creator, h.owner, h.prepared, h.alive⟩

theorem step (h : s.Core) (hguard : s.resumesSleeper label = true)
    (hstep : s.step label = some next) : next.Core := by
  cases does_of_step hstep with
  | schedAcquire hidle => exact h.idle hidle
  | schedRelease => exact h.release
  | schedPick _ _ hrunnable => exact h.schedPick hrunnable
  | wakeup => exact h.wakeup _
  | leaves hq hleaves => exact h.leaves hq hleaves
  | acts hq hacts => exact h.acts hq (fun p => resumes_sleeper hguard hq) hacts

end Core

theorem userinit_creates (kstack pgdir : Frame) (q : Slot) :
    ((userinit kstack pgdir).pc q).base.creates = none := by
  simp only [userinit, setSlot_apply]
  split <;> rfl

theorem userinit_core (kstack pgdir : Frame) : (userinit kstack pgdir).Core := by
  have hpc := userinit_creates kstack pgdir
  constructor
  case running => simp [userinit]
  case single => simp [userinit]
  case embryo => simp [hpc]
  case creator => simp [hpc]
  case owner => simp [hpc]
  case prepared =>
    intro q np hprepared
    have hcreates := Pc.creates_of_prepared hprepared
    rw [hpc] at hcreates
    contradiction
  case alive =>
    intro p hactive
    simp only [userinit, setSlot_apply] at hactive ⊢
    split at hactive
    next heq => simp [heq, Pc.base]
    next => simp [ProcState.active] at hactive

end Sys

end KernelThreads
