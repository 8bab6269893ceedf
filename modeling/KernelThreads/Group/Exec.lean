import KernelThreads.Group.Wait

namespace KernelThreads

open Lib

/-! Concurrent calls of `exec` in one thread group. -/

namespace Pc

def inExec : Pc → Bool
  | .execLeader | .execLock _ | .tgkillCheck .exec | .tgkillLock .exec
  | .tgkillSlept .exec | .execLoad => true
  | _ => false

def execWaits : Pc → Bool
  | .tgkillCheck .exec | .tgkillLock .exec | .tgkillSlept .exec => true
  | _ => false

theorem execWaits_of_not_inExec {point : Pc} (h : point.inExec = false) :
    point.execWaits = false ∧ point ≠ .execLoad := by
  cases point <;> first | contradiction | exact ⟨rfl, by simp⟩ | skip
  all_goals
    rename_i caller
    cases caller <;> first | contradiction | exact ⟨rfl, by simp⟩

end Pc

def Label.loads : Label → Bool
  | .run _ x => x.load.isSome
  | _ => false

namespace Sys

/-- The group starts no `exec` beyond those under way. -/
def startsNoExec (pid : Int) (s : Sys) (label : Label) : Bool :=
  s.actor label fun q _ => (s.proc q).pid ≠ pid || s.calls label ≠ some .exec

/-- A thread that is marked killed commits only when no other thread of its
group is alive. -/
def commitsLast (s : Sys) (label : Label) : Bool :=
  s.actor label fun q point =>
    !(point = .execLoad && label.loads) || !(s.proc q).killed ||
      ∀ p, (s.proc p).state.active = true → (s.proc p).pid = (s.proc q).pid → p = q

def commits (pid : Int) (s : Sys) (label : Label) (_ : Sys) : List Slot :=
  match s.acting label with
  | none => []
  | some q =>
      if (s.proc q).pid = pid ∧ s.pc q = .execLoad ∧ label.loads = true then [q] else []

/-- The conditions of the group invariant, no further `exec` in the group, and
no commit by a marked thread that has others beside it. -/
def execOrderly (pid : Int) (s : Sys) (label : Label) : Bool :=
  s.sound label && s.startsNoExec pid label && s.commitsLast label

section Guards

variable {s next : Sys} {label : Label} {pid : Int} {q p : Slot}

theorem commits_last (h : s.commitsLast label = true) (hact : s.acting label = some q)
    (hpc : s.pc q = .execLoad) (hloads : label.loads = true)
    (hmarked : (s.proc q).killed = true) (hp : (s.proc p).state.active = true)
    (hpid : (s.proc p).pid = (s.proc q).pid) : p = q := by
  have htest := actor_test h hact
  simp only [hpc, hloads, hmarked, Bool.and_self, decide_true, Bool.not_true, Bool.false_or,
    decide_eq_true_eq] at htest
  exact htest p hp hpid

def notExec : Syscall → Bool
  | .exec => false
  | _ => true

theorem within_notExec (point : Pc) :
    point.within notExec ↔ point.inExec = false := by
  cases point
  case tgkillCheck caller | tgkillLock caller | tgkillSlept caller =>
    cases caller
    case exec => exact ⟨nofun, nofun⟩
    case syscall => exact ⟨fun _ => rfl, fun _ => rfl⟩
    case exit => exact ⟨fun _ => rfl, fun _ => trivial⟩
  case execLeader | execLock | execLoad => exact ⟨nofun, nofun⟩
  case allocproc | cloneKstack | cloneSetup | cloneIds =>
    exact ⟨fun _ => rfl, fun _ => .inr ⟨0, rfl⟩⟩
  case tresumeLock => exact ⟨fun _ => rfl, fun _ => ⟨0, rfl⟩⟩
  all_goals first
    | exact ⟨fun _ => rfl, fun _ => rfl⟩
    | exact ⟨fun _ => rfl, fun _ => trivial⟩

theorem within_all (point : Pc) : point.within fun _ => true := by
  cases point
  case tgkillCheck caller | tgkillLock caller | tgkillSlept caller =>
    cases caller <;> first | rfl | exact trivial
  case allocproc | cloneKstack | cloneSetup | cloneIds => exact .inr ⟨0, rfl⟩
  case tresumeLock => exact ⟨0, rfl⟩
  all_goals first | rfl | exact trivial

theorem inExec_of_step (hguard : s.startsNoExec pid label = true)
    (hstep : s.step label = some next) (hpid : (s.proc p).pid = pid)
    (hp : (s.pc p).base.inExec = false) : (next.pc p).base.inExec = false := by
  let free : Slot → Bool := fun p => (s.pc p).base.inExec || (s.proc p).pid ≠ pid
  let allows : Slot → Syscall → Bool := fun p call => free p || notExec call
  have hwithin : s.Within allows := by
    intro p
    cases hfree : free p with
    | true => simpa [allows, hfree] using within_all _
    | false =>
        have hout := (Bool.or_eq_false_iff.mp hfree).1
        simpa [allows, hfree] using (within_notExec _).mpr hout
  have hnext := hwithin.step (fun q call hact hcall => ?_) hstep p
  · simp only [allows, free, hp, hpid, ne_eq, not_true_eq_false, decide_false,
      Bool.false_or] at hnext
    exact (within_notExec _).mp hnext
  · have htest := actor_test hguard hact
    rw [hcall] at htest
    cases call <;> simp_all [allows, free, notExec]

end Guards

/-- What an unmarked thread in `exec` can rely on: it leads while it waits for
the others, and is alone when it is about to commit. -/
def ExecSafe (s : Sys) (p : Slot) : Prop :=
  (s.proc p).killed = false →
    ((s.pc p).base.execWaits = true → (s.proc p).tid = -1) ∧
    ((s.pc p).base = .execLoad → ∀ r, (s.proc r).state ≠ .unused →
      (s.proc r).pid = (s.proc p).pid → r = p)

theorem execSafe_of_not_inExec {s : Sys} {p : Slot}
    (h : (s.pc p).base.inExec = false) : s.ExecSafe p := by
  obtain ⟨hwaits, hload⟩ := Pc.execWaits_of_not_inExec h
  exact fun _ => ⟨by simp [hwaits], fun hpc => absurd hpc hload⟩

structure Execs (pid : Int) (log : List Slot) (s : Sys) : Prop where
  core : s.Core
  grouped : s.Grouped
  safe : ∀ p, (s.proc p).state.active = true → (s.proc p).pid = pid → s.ExecSafe p
  once : log.length ≤ 1
  done : log ≠ [] → ∀ p, (s.proc p).state.active = true → (s.proc p).pid = pid →
    (s.pc p).base.inExec = false

theorem Flow.execWaits {t : Table} {q : Slot} {before after : Pc}
    (hflow : Flow t q before after) (h : after.execWaits = true) :
    before.execWaits = true ∨ (t q).tid = -1 := by
  cases hflow with
  | same => exact .inl h
  | plain _ hto =>
      cases after
      case tgkillCheck caller => cases caller <;> contradiction
      all_goals contradiction
  | @leader caller _ => cases caller <;> first | exact .inl rfl | contradiction
  | @peer caller _ => cases caller <;> contradiction
  | execLock htid => exact .inr htid
  | _ => contradiction

theorem Flow.execLoad {t : Table} {q : Slot} {before : Pc}
    (hflow : Flow t q before .execLoad) :
    before = .execLoad ∨ before.execWaits = true ∧ (t q).tid ≠ -1 := by
  generalize hafter : Pc.execLoad = after at hflow
  cases hflow with
  | same => exact .inl rfl
  | plain _ hto =>
      subst hafter
      contradiction
  | @peer caller hpeer =>
      cases caller
      case exec =>
        refine .inr ⟨rfl, fun htid => hpeer ?_⟩
        rw [Table.threadLeader, if_pos htid]
      all_goals contradiction
  | _ => contradiction

/-- Where a thread that is active after a step stood before it. -/
def ExecMoves (s next : Sys) (p : Slot) : Prop :=
  (next.pc p).base.inExec = false ∨
    (s.proc p).state.active = true ∧ (next.proc p).pid = (s.proc p).pid ∧
      (next.ExecSafe p ∨ (next.proc p).tid = (s.proc p).tid ∧
        ((next.proc p).killed = false → (s.proc p).killed = false) ∧
        Flow s.proc p (s.pc p).base (next.pc p).base)

theorem execMoves_of_keeps {s next : Sys} {p : Slot} (h : (s.proc p).Keeps (next.proc p))
    (hp : (next.proc p).state.active = true)
    (hflow : Flow s.proc p (s.pc p).base (next.pc p).base) : s.ExecMoves next p :=
  .inr ⟨h.active.symm.trans hp, h.pid, .inr ⟨h.tid, h.unmarked, hflow⟩⟩

/-- Where the group of a slot that is used after a step was before it: with the
slot itself, with its creator, or nowhere. -/
def JoinsGroup (s next : Sys) (r : Slot) : Prop :=
  (∃ other, (s.proc other).state ≠ .unused ∧
    (s.proc other).pid = (next.proc r).pid ∧
      (other = r ∨ (s.pc other).base ≠ .execLoad)) ∨
  ∀ p, (s.proc p).state ≠ .unused → (s.proc p).pid ≠ (next.proc r).pid

theorem JoinsGroup.self {s next : Sys} {p : Slot}
    (hlive : (next.proc p).state ≠ .unused → (s.proc p).state ≠ .unused)
    (hpid : (next.proc p).pid = (s.proc p).pid) (hp : (next.proc p).state ≠ .unused) :
    s.JoinsGroup next p :=
  .inl ⟨p, hlive hp, hpid.symm, .inl rfl⟩

namespace Execs

section Steps

variable {s next : Sys} {label : Label} {pid : Int} {log : List Slot} {q : Slot}
  (h : Execs pid log s) (hcore : next.Core) (hgrouped : next.Grouped)
  (hexec : ∀ p, (s.proc p).pid = pid → (s.pc p).base.inExec = false →
    (next.pc p).base.inExec = false)

include h hcore hgrouped hexec

theorem keep
    (hmoves : ∀ p, (next.proc p).state.active = true → (next.proc p).pid = pid →
      s.ExecMoves next p)
    (hjoins : ∀ r, (next.proc r).state ≠ .unused → s.JoinsGroup next r) :
    Execs pid log next := by
  refine ⟨hcore, hgrouped, fun p hp hgroup => ?_, h.once, fun hlog p hp hpid => ?_⟩
  · rcases hmoves p hp hgroup with hout | ⟨hactive, hpid, hsafe | ⟨htid, hkilled, hflow⟩⟩
    · exact execSafe_of_not_inExec hout
    · exact hsafe
    · intro hunmarked
      have hbefore := h.safe p hactive (hpid.symm.trans hgroup) (hkilled hunmarked)
      refine ⟨fun hwaits => ?_, fun hload r hr hrpid => ?_⟩
      · rw [htid]
        exact (hflow.execWaits hwaits).elim hbefore.1 id
      · rw [hload] at hflow
        rw [hpid] at hrpid
        rcases hflow.execLoad with hpc | ⟨hwaits, hpeer⟩
        · have hlive := ProcState.ne_unused hactive
          rcases hjoins r hr with ⟨other, hother, hsame, hat⟩ | hnone
          · have heq := hbefore.2 hpc other hother (hsame.trans hrpid)
            rcases hat with rfl | hat
            · exact heq
            · rw [heq] at hat
              exact absurd hpc hat
          · exact absurd hrpid.symm (hnone p hlive)
        · exact absurd (hbefore.1 hwaits) hpeer
  · rcases hmoves p hp hpid with hout | ⟨hactive, hsame, _⟩
    · exact hout
    · rw [hsame] at hpid
      exact hexec p hpid (h.done hlog p hactive hpid)

theorem reaps {reaped : Slot → Prop}
    (hreaps : s.Reaps next q reaped)
    (hq : (next.proc q).state.active = true → (next.proc q).pid = pid →
      s.ExecMoves next q) : Execs pid log next := by
  refine h.keep hcore hgrouped hexec (fun p hp hgroup => ?_) fun r hr => ?_
  · by_cases heq : p = q
    · subst heq
      exact hq hp hgroup
    · rcases hreaps.proc p with ⟨_, hclear⟩ | ⟨_, hsame⟩
      · rw [hclear.state] at hp
        contradiction
      · refine execMoves_of_keeps hsame.toKeeps hp ?_
        rw [hreaps.pc p heq]
        exact .same
  · rcases hreaps.proc r with ⟨_, hclear⟩ | ⟨_, hsame⟩
    · exact absurd hclear.state hr
    · exact .self (fun hlive => mt (hsame.state_eq rfl).mpr hlive) hsame.pid hr

/-- A step that writes one slot, by a thread that is outside `exec` after it. -/
theorem writes {np : Slot}
    (hproc : ∀ p, p ≠ np → next.proc p = s.proc p)
    (hpc : ∀ p, p ≠ q → p ≠ np → next.pc p = s.pc p)
    (hout : (next.pc q).base.inExec = false)
    (hchild : (next.proc np).state.active = true → (next.pc np).base.inExec = false)
    (hjoins : (next.proc np).state ≠ .unused → s.JoinsGroup next np) :
    Execs pid log next := by
  refine h.keep hcore hgrouped hexec (fun p hp _ => ?_) fun r hr => ?_
  · by_cases hnp : p = np
    · subst hnp
      exact .inl (hchild hp)
    · by_cases heq : p = q
      · subst heq
        exact .inl hout
      · refine execMoves_of_keeps ?_ hp ?_
        · rw [hproc p hnp]
          exact (Proc.Same.refl _).toKeeps
        · rw [hpc p heq hnp]
          exact .same
  · by_cases hnp : r = np
    · subst hnp
      exact hjoins hr
    · have hsame := hproc r hnp
      exact .self (by rw [hsame]; exact id) (by rw [hsame]) hr

theorem tgkilled {caller : TgkillCaller}
    (hrunning : (s.proc q).state = .running) (hends : s.TgkillEnds q caller next)
    (hpc : s.pc q = .tgkillLock caller ∨ s.pc q = .tgkillSlept caller) :
    Execs pid log next := by
  refine h.reaps hcore hgrouped hexec hends.reaps fun _ hgroup => ?_
  have hactive := ProcState.active_of_running hrunning
  have hq : (s.proc q).Same (next.proc q) := by
    rcases hends.reaps.proc q with ⟨_, hclear⟩ | ⟨_, hsame⟩
    · rw [hclear.zombie] at hrunning
      contradiction
    · exact hsame
  refine .inr ⟨hactive, hq.pid, .inl fun hunmarked => ?_⟩
  have hkilled := hq.unmarked hunmarked
  have hleads : caller = .exec → (s.proc q).tid = -1 := by
    rintro rfl
    apply (h.safe q hactive (hq.pid.symm.trans hgroup) hkilled).1
    rcases hpc with hpc | hpc <;> rw [hpc] <;> rfl
  have hcaller : (next.pc q).base.inExec = true → caller = .exec := by
    intro hin
    rcases hends.pc with ⟨_, hnext⟩ | ⟨_, _, hnext⟩ | ⟨_, _, hnext⟩ <;>
      rw [hnext] at hin <;> cases caller <;> first | rfl | contradiction
  refine ⟨fun hwaits => ?_, fun hload r hr hrpid => ?_⟩
  · rw [hq.tid]
    apply hleads
    apply hcaller
    by_contra hout
    rw [(Pc.execWaits_of_not_inExec (by simpa using hout)).1] at hwaits
    contradiction
  · have htid := hleads (hcaller (by rw [hload]; rfl))
    rw [hq.pid] at hrpid
    rcases hends.pc with ⟨hnone, _⟩ | ⟨_, hif, _⟩ | ⟨_, _, hnext⟩
    · by_cases htr : (next.proc r).tid = -1
      · refine hgrouped.leaders r q hr ?_ htr (hq.tid.trans htid) (hrpid.trans hq.pid.symm)
        exact ProcState.ne_unused (hq.active.trans hactive)
      · exact absurd hrpid (hends.none_left hnone hr htr)
    · rcases hif with hif | hif
      · rw [hkilled] at hif
        contradiction
      · exact absurd htid hif
    · rw [hnext] at hload
      contradiction

end Steps

theorem handOff {s : Sys} {pid : Int} {log : List Slot} {q : Slot} (h : Execs pid log s)
    {leader : Slot}
    (hcore : Core ({ s with proc := s.proc.handOff q leader }.finish q (.tgkillCheck .exec)))
    (hgrouped : Grouped
      ({ s with proc := s.proc.handOff q leader }.finish q (.tgkillCheck .exec)))
    (hexec : ∀ p, (s.proc p).pid = pid → (s.pc p).base.inExec = false →
      (setSlot s.pc q (.tgkillCheck .exec) p).base.inExec = false)
    (hleader : (s.proc leader).pid = (s.proc q).pid) :
    Execs pid log
      ({ s with proc := s.proc.handOff q leader }.finish q (.tgkillCheck .exec)) := by
  have hrewired := s.proc.rewired_handOff q leader
  have htid := s.proc.handOff_tid q leader
  refine h.keep hcore hgrouped hexec (fun p hp _ => .inr ?_) fun r => ?_
  · refine ⟨by rw [← (hrewired p).state]; exact hp, (hrewired p).pid, ?_⟩
    by_cases hpid : (s.proc p).pid = (s.proc q).pid
    · left
      intro hunmarked
      have hpq : p = q := by
        by_contra hpq
        rw [finish_proc, (s.proc.handOff_peer hpid hpq).2] at hunmarked
        contradiction
      subst hpq
      refine ⟨fun _ => ?_, fun hload => ?_⟩
      · rw [finish_proc, htid, if_pos rfl]
      · rw [finish_pc, setSlot_same] at hload
        contradiction
    · right
      have hpq : p ≠ q := fun heq => hpid (by rw [heq])
      have hpl : p ≠ leader := fun heq => hpid (by rw [heq, hleader])
      refine ⟨?_, fun hunmarked => ?_, ?_⟩
      · rw [finish_proc, htid, if_neg hpq, if_neg hpl]
      · rwa [finish_proc, (s.proc.handOff_foreign hpid hpl).2] at hunmarked
      · rw [finish_pc, setSlot_other _ _ hpq]
        exact .same
  · exact .self (by rw [finish_proc, (hrewired r).state]; exact id) (hrewired r).pid

theorem effect {s next : Sys} {label : Label} {pid : Int} {log : List Slot}
    (h : Execs pid log s) (hcore : next.Core) (hgrouped : next.Grouped)
    (hfresh : s.handsOffFresh label = true)
    (hexec : ∀ p, (s.proc p).pid = pid → (s.pc p).base.inExec = false →
      (next.pc p).base.inExec = false)
    (heffect : s.Effect label next) : Execs pid log next := by
  cases heffect with
  | quiet hquiet hflow =>
      exact h.reaps hcore hgrouped hexec hquiet.toReaps fun hp _ =>
        execMoves_of_keeps (hquiet.same _).toKeeps hp hflow
  | waited _ _ _ _ _ _ hreaps _ hnext | joined _ _ _ _ hreaps _ hnext =>
      refine h.reaps hcore hgrouped hexec hreaps fun _ _ => .inl ?_
      rw [hnext]
      rfl
  | tgkilled hact hpc hends =>
      exact h.tgkilled hcore hgrouped hexec (running_of_acting h.core hact) hends hpc
  | @exit q c hact hpc =>
      have hlive : (s.proc q).state ≠ .unused := by
        rw [running_of_acting h.core hact]
        simp
      refine h.keep hcore hgrouped hexec (fun p hp _ => ?_) fun r =>
        .self (mt (s.proc.exitSlot_unused hlive r).mpr) (s.proc.exitSlot_fields q r).pid
      by_cases heq : p = q
      · refine .inl ?_
        rw [heq, exitLock, sched_pc, setSlot_same]
        rfl
      · refine execMoves_of_keeps (s.proc.keeps_exitSlot heq) hp ?_
        rw [exitLock, sched_pc, setSlot_other _ _ heq]
        exact .same
  | handOff hact hpc htid =>
      obtain ⟨other, hled, hleads⟩ := h.grouped.led h.core
        (by rw [running_of_acting h.core hact]; rfl) htid
      cases (hands_off_fresh hfresh hact hpc htid).symm.trans hled
      exact h.handOff hcore hgrouped hexec hleads.pid
  | files | chdir | commit =>
      refine h.writes hcore hgrouped hexec (fun _ hne => setSlot_other _ _ hne)
        (fun _ hne _ => setSlot_other _ _ hne) ?_ (fun _ => ?_) (.self ?_ ?_) <;>
        simp [Pc.base, Pc.inExec]
  | allocates hact hpc hfound =>
      refine h.writes hcore hgrouped hexec (fun _ hne => setSlot_other _ _ hne)
        (fun _ hne _ => setSlot_other _ _ hne) ?_ ?_ fun _ => .inr ?_
      · simp [Pc.base, Pc.inExec]
      · simp [ProcState.active]
      · intro p hp
        have hlt := (h.grouped.pids p hp).2
        simp only [finish_proc, setSlot_same]
        omega
  | @kstack q np flags childStack frame hact hpc =>
      have hembryo := h.core.embryo (creates_at hpc rfl)
      have hon := OnChild.kstack h.core hpc frame
      refine h.writes hcore hgrouped hexec hon.proc hon.pc ?_ ?_ (.self ?_ ?_) <;>
        cases frame <;> simp [cloneKstack, Pc.base, Pc.inExec, ProcState.active, hembryo]
  | @setup q np flags childStack next hact hpc hends =>
      have hembryo := h.core.embryo (creates_at hpc rfl)
      have hon := OnChild.setup h.core hpc hends
      cases hends with
      | undone _ hbuilds | left _ hbuilds =>
          refine h.writes hcore hgrouped hexec hon.proc hon.pc ?_ ?_ (.self ?_ ?_) <;>
            simp [Pc.base, Pc.inExec, undo, hbuilds.state, hbuilds.pid, hembryo,
              ProcState.active]
      | done _ hbuilds _ _ hcwd =>
          obtain ⟨hstate, hpid, _⟩ := cloneCwd_builds hcwd hbuilds
          refine h.writes hcore hgrouped hexec hon.proc hon.pc ?_ ?_ (.self ?_ ?_) <;>
            simp [Pc.base, Pc.inExec, hstate, hpid, hembryo, ProcState.active]
  | @ids q np flags hact hpc =>
      have hembryo := h.core.embryo (creates_at hpc rfl)
      have hrunning := running_of_acting h.core hact
      have hon := OnChild.ids h.core hpc
      refine h.writes hcore hgrouped hexec hon.proc hon.pc ?_ ?_ fun _ => ?_
      · unfold cloneIds
        split <;> simp [Pc.base, Pc.inExec]
      · unfold cloneIds
        split <;> simp [hembryo, ProcState.active]
      · by_cases hthread : flags.has CLONE_THREAD = true
        · refine .inl ⟨q, by rw [hrunning]; simp, ?_, .inr ?_⟩
          · simp [cloneIds, hthread]
          · simp [hpc, Pc.base]
        · refine .inl ⟨np, by rw [hembryo]; simp, ?_, .inl rfl⟩
          simp [cloneIds, hthread]
  | @publish q np retid hact hpc =>
      have hembryo := h.core.embryo (creates_at hpc rfl)
      have hpoint := h.core.prepared_at hpc rfl
      have hon := OnChild.publish h.core hpc
      refine h.writes hcore hgrouped hexec hon.proc hon.pc ?_ (fun _ => ?_) fun _ => ?_
      · simp [clonePublish, Pc.base, Pc.inExec]
      · have hsame : (s.clonePublish q np retid).pc np = s.pc np :=
          setSlot_other _ _ hon.ne
        rw [hsame, hpoint]
        rfl
      · refine .inl ⟨np, by rw [hembryo]; simp, ?_, .inl rfl⟩
        simp [clonePublish]

end Execs

theorem execLoad_commit {s next : Sys} {q : Slot} {image : Frame × Nat}
    (h : s.execLoad q (some image) = some next) :
    next.pc = setSlot s.pc q (.trapret 0) ∧
      ∀ p, (next.proc p).state = (s.proc p).state ∧
        (next.proc p).pid = (s.proc p).pid := by
  cases loads_of_execLoad h with
  | done =>
      refine ⟨rfl, fun p => ⟨?_, ?_⟩⟩
      · refine setSlot_field _ Proc.state ?_ p
        rfl
      · refine setSlot_field _ Proc.pid ?_ p
        rfl

theorem commit_of_step {s next : Sys} {label : Label} {q : Slot}
    (hstep : s.step label = some next) (hact : s.acting label = some q)
    (hpc : s.pc q = .execLoad) (hloads : label.loads = true) :
    next.pc = setSlot s.pc q (.trapret 0) ∧
      ∀ p, (next.proc p).state = (s.proc p).state ∧
        (next.proc p).pid = (s.proc p).pid := by
  cases does_of_step hstep with
  | acts hq hacts =>
      cases hq.symm.trans hact
      rw [hpc] at hacts
      cases hacts with
      | execLoad h =>
          obtain ⟨image, himage⟩ := Option.isSome_iff_exists.mp hloads
          rw [himage] at h
          exact execLoad_commit h
  | leaves _ hleaves => cases hleaves <;> contradiction
  | _ => contradiction

theorem Execs.step {s next : Sys} {label : Label} {pid : Int} {log : List Slot}
    (h : Execs pid log s) (hguard : s.execOrderly pid label = true)
    (hstep : s.step label = some next) :
    Execs pid (log ++ s.commits pid label next) next := by
  simp only [execOrderly, Bool.and_eq_true] at hguard
  obtain ⟨⟨hsound, hstarts⟩, hlast⟩ := hguard
  obtain ⟨hcore, hgrouped⟩ := sound_step h.core h.grouped hsound hstep
  simp only [sound, Bool.and_eq_true] at hsound
  have hnext := h.effect hcore hgrouped hsound.1.2
    (fun p => inExec_of_step hstarts hstep) (h.core.effect hsound.1.1.1 hstep)
  cases hact : s.acting label with
  | none => simpa [commits, hact] using hnext
  | some q =>
      simp only [commits, hact]
      split
      next hcommit =>
        obtain ⟨hpid, hpc, hloads⟩ := hcommit
        have hactive := ProcState.active_of_running (running_of_acting h.core hact)
        have hload : (s.pc q).base = .execLoad := by
          rw [hpc]
          rfl
        have hlog : log = [] := by
          by_contra hlog
          have hdone := h.done hlog q hactive hpid
          rw [hload] at hdone
          contradiction
        obtain ⟨hpcs, hprocs⟩ := commit_of_step hstep hact hpc hloads
        refine { hnext with once := by simp [hlog], done := fun _ p hp hpp => ?_ }
        rw [(hprocs p).1] at hp
        rw [(hprocs p).2, ← hpid] at hpp
        have hpq : p = q := by
          cases hkilled : (s.proc q).killed with
          | true => exact commits_last hlast hact hpc hloads hkilled hp hpp
          | false =>
              exact (h.safe q hactive hpid hkilled).2 hload p (ProcState.ne_unused hp) hpp
        rw [hpq, hpcs, setSlot_same]
        rfl
      next => simpa using hnext

/-- Threads of one group that call `exec` at the same time: one of them leads,
and one at most commits. -/
theorem exec_once {kstack pgdir : Frame} {pid : Int} {start s : Sys}
    {log : List Slot}
    (hstart : Reach Sys.step (fun s label => s.sound label = true)
      (userinit kstack pgdir) start)
    (hentry : ∀ p, (start.proc p).state.active = true → (start.proc p).pid = pid →
      (start.pc p).base.inExec = true → (start.pc p).base = .execLeader)
    (hrun : History Sys.step (fun s label => s.execOrderly pid label = true)
      (commits pid) start log s) :
    (∀ p r, (s.proc p).state ≠ .unused → (s.proc r).state ≠ .unused →
      (s.proc p).pid = pid → (s.proc r).pid = pid → (s.proc p).tid = -1 →
        (s.proc r).tid = -1 → p = r) ∧ log.length ≤ 1 := by
  obtain ⟨hcore, hgrouped⟩ := sound_invariant hstart
  have hexecs : Execs pid log s := by
    refine hrun.invariant (Execs pid) ⟨hcore, hgrouped, fun p hp hpid => ?_, ?_, ?_⟩ Execs.step
    · cases hin : (start.pc p).base.inExec with
      | false => exact execSafe_of_not_inExec hin
      | true =>
          have hpc := hentry p hp hpid hin
          exact fun _ => ⟨by simp [hpc, Pc.execWaits], by simp [hpc]⟩
    · exact Nat.zero_le 1
    · exact fun hlog => absurd rfl hlog
  exact ⟨fun p r hp hr hpid hrpid htp htr =>
    hexecs.grouped.leaders p r hp hr htp htr (hpid.trans hrpid.symm), hexecs.once⟩

/-- A process with two threads: its leader sleeps in `join`, both threads are at
the entry of `exec`. -/
def twoExec : List Label :=
  startOn 0 ++ cloneOn 0 .fork (.ok 3 0) ++ startOn 1 ++
    cloneOn 1 (.clone TFLAGS 0) (.ok 0 8192) ++ cloneOn 1 (.clone TFLAGS 0) (.ok 0 16384) ++
    startOn 2 ++ startOn 3 ++
    [.run 1 { user := .call (.join 3) }, .run 1 {}, .run 1 {}, .schedScan 1,
      .run 2 { user := .call .exec }, .run 3 { user := .call .exec }]

/-- The second thread takes over from the first, whose image does not load, and
commits when that one and the old leader have died. -/
def oneCommit : List Label :=
  [.run 2 {}, .run 2 {}, .run 3 {}, .run 3 {}, .run 3 {}, .run 3 {},
    .run 2 {}, .run 2 {}, .run 2 {}, .run 2 {}, .run 2 {}, .run 2 {}, .schedScan 2,
    .schedAcquire 1, .schedScan 1, .run 1 {}, .run 1 {}, .run 1 {}, .run 1 {}, .run 1 {},
    .schedScan 1, .run 3 { load := some (9, 4096) }]

set_option maxRecDepth 8000

theorem exec_once_oneCommit :
    ∃ start s log, Reach Sys.step (fun s label => s.sound label = true)
        (userinit 1 2) start ∧
      start.pc 2 = .execLeader ∧ start.pc 3 = .execLeader ∧
      History Sys.step (fun s label => s.execOrderly 2 label = true) (commits 2) start
        log s ∧ log = [3] ∧
      (∀ p r, (s.proc p).state ≠ .unused → (s.proc r).state ≠ .unused →
        (s.proc p).pid = 2 → (s.proc r).pid = 2 → (s.proc p).tid = -1 →
          (s.proc r).tid = -1 → p = r) ∧ log.length ≤ 1 := by
  have hrun : ((run Sys.step sound (userinit 1 2) twoExec).any fun start =>
      (start.pc 2 = .execLeader ∧ start.pc 3 = .execLeader) ∧
      (∀ p, (start.proc p).state.active = true → (start.proc p).pid = 2 →
        (start.pc p).base.inExec = true → (start.pc p).base = .execLeader) ∧
      (runLog Sys.step (execOrderly 2) (commits 2) start oneCommit).any
        fun result => result.1 = [3]) = true := by decide +kernel
  obtain ⟨start, hstart, ⟨hfirst, hsecond⟩, hentry, hany⟩ := reach_of_run_any hrun
  obtain ⟨log, s, hhistory, hlog⟩ := history_of_runLog hany
  exact ⟨start, s, log, hstart, hfirst, hsecond, hhistory, hlog,
    exec_once hstart hentry hhistory⟩

def twoHandOffs : List Label := [.run 2 {}, .run 3 {}, .run 2 {}, .run 3 {}]

/-- Both threads hand leadership off from the same old leader, and both are
leaders afterwards. -/
theorem exec_two_leaders :
    ¬ ∀ (start s : Sys) (log : List Slot),
      Reach Sys.step (fun s label => s.sound label = true) (userinit 1 2) start →
      (∀ p, (start.proc p).state.active = true → (start.proc p).pid = 2 →
        (start.pc p).base.inExec = true → (start.pc p).base = .execLeader) →
      History Sys.step (fun s label => s.startsNoExec 2 label = true) (commits 2) start
        log s →
      (∀ p r, (s.proc p).state ≠ .unused → (s.proc r).state ≠ .unused →
        (s.proc p).pid = 2 → (s.proc r).pid = 2 → (s.proc p).tid = -1 →
          (s.proc r).tid = -1 → p = r) ∧ log.length ≤ 1 := by
  intro honce
  have hrun : ((run Sys.step sound (userinit 1 2) twoExec).any fun start =>
      (∀ p, (start.proc p).state.active = true → (start.proc p).pid = 2 →
        (start.pc p).base.inExec = true → (start.pc p).base = .execLeader) ∧
      (runLog Sys.step (startsNoExec 2) (commits 2) start twoHandOffs).any
        fun result => ∀ p : Slot, p = 2 ∨ p = 3 →
          (result.2.proc p).state = .running ∧ (result.2.proc p).pid = 2 ∧
            (result.2.proc p).tid = -1) = true := by decide +kernel
  obtain ⟨start, hstart, hentry, hany⟩ := reach_of_run_any hrun
  obtain ⟨log, s, hhistory, hboth⟩ := history_of_runLog hany
  obtain ⟨hfirst, hpid, htid⟩ := hboth 2 (.inl rfl)
  obtain ⟨hsecond, hpid', htid'⟩ := hboth 3 (.inr rfl)
  have heq := (honce start s log hstart hentry hhistory).1 2 3
    (by rw [hfirst]; simp) (by rw [hsecond]; simp) hpid hpid' htid htid'
  contradiction

end Sys

end KernelThreads
