import KernelThreads.Sched.Core

namespace KernelThreads

open Lib

/-! Most steps keep the identity of every slot: they move threads between
sleeping, runnable and running, mark them killed, or reap zombies. -/

namespace Proc

structure Keeps (before after : Proc) : Prop where
  pgdir : after.pgdir = before.pgdir
  kstack : after.kstack = before.kstack
  pid : after.pid = before.pid
  tid : after.tid = before.tid
  tstack : after.tstack = before.tstack
  tstackalloc : after.tstackalloc = before.tstackalloc
  cwd : after.cwd = before.cwd
  state : after.state = before.state ∨
    before.state.active = true ∧ after.state.active = true
  killed : before.killed = true → after.killed = true

structure Same (before after : Proc) : Prop extends Keeps before after where
  parent : after.parent = before.parent

namespace Keeps

theorem active (h : Keeps before after) :
    after.state.active = before.state.active := by
  rcases h.state with heq | ⟨hbefore, hafter⟩
  · rw [heq]
  · rw [hbefore, hafter]

theorem state_eq (h : Keeps before after) {state : ProcState}
    (hstate : state.active = false) :
    after.state = state ↔ before.state = state := by
  rcases h.state with heq | ⟨hbefore, hafter⟩
  · rw [heq]
  · constructor
    · intro heq
      rw [heq, hstate] at hafter
      contradiction
    · intro heq
      rw [heq, hstate] at hbefore
      contradiction

theorem unmarked (h : Keeps before after) (hafter : after.killed = false) :
    before.killed = false := by
  by_contra hmarked
  rw [h.killed (by simpa using hmarked)] at hafter
  contradiction

theorem trans (hfirst : Keeps first second) (hsecond : Keeps second third) :
    Keeps first third where
  pgdir := hsecond.pgdir.trans hfirst.pgdir
  kstack := hsecond.kstack.trans hfirst.kstack
  pid := hsecond.pid.trans hfirst.pid
  tid := hsecond.tid.trans hfirst.tid
  tstack := hsecond.tstack.trans hfirst.tstack
  tstackalloc := hsecond.tstackalloc.trans hfirst.tstackalloc
  cwd := hsecond.cwd.trans hfirst.cwd
  state := by
    rcases hsecond.state with heq | ⟨hbefore, hafter⟩
    · rw [heq]
      exact hfirst.state
    · exact .inr ⟨hfirst.active.symm.trans hbefore, hafter⟩
  killed := fun h => hsecond.killed (hfirst.killed h)

end Keeps

theorem Same.trans (hfirst : Same first second) (hsecond : Same second third) :
    Same first third :=
  { hfirst.toKeeps.trans hsecond.toKeeps with
    parent := hsecond.parent.trans hfirst.parent }

theorem same_of_with (p : Proc) {state : ProcState} {chan : Option Chan}
    {killed : Bool} (hstate : state = p.state ∨
      p.state.active = true ∧ state.active = true)
    (hkilled : p.killed = true → killed = true) :
    p.Same { p with state := state, chan := chan, killed := killed } :=
  { pgdir := rfl, kstack := rfl, pid := rfl, tid := rfl
    tstack := rfl, tstackalloc := rfl, cwd := rfl, parent := rfl
    state := hstate, killed := hkilled }

theorem Same.refl (p : Proc) : p.Same p := same_of_with p (.inl rfl) id

theorem same_markKilled (p : Proc) : p.Same p.markKilled := by
  apply same_of_with
  · split
    next hsleeps => exact .inr ⟨by rw [hsleeps]; rfl, rfl⟩
    next => exact .inl rfl
  · exact fun _ => rfl

theorem same_markGroupKilled (p : Proc) : p.Same p.markGroupKilled := by
  refine (same_markKilled p).trans (same_of_with _ (.inl rfl) id)

structure Cleared (before after : Proc) : Prop where
  zombie : before.state = .zombie
  state : after.state = .unused
  pid : after.pid = 0
  tid : after.tid = 0
  parent : after.parent = none
  killed : after.killed = false
  kstack : after.kstack = none
  cwd : after.cwd = before.cwd

theorem cleared_reap {p : Proc} (h : p.state = .zombie) : p.Cleared p.reap :=
  ⟨h, rfl, rfl, rfl, rfl, rfl, rfl, rfl⟩

theorem cleared_joinReap {p : Proc} (h : p.state = .zombie) :
    p.Cleared p.joinReap :=
  ⟨h, rfl, rfl, rfl, rfl, rfl, rfl, rfl⟩

end Proc

namespace Table

def Reaps (t next : Table) (reaped : Slot → Prop) : Prop :=
  ∀ p, (reaped p ∧ (t p).Cleared (next p)) ∨
    (¬ reaped p ∧ (t p).Same (next p))

theorem Reaps.refl (t : Table) : t.Reaps t fun _ => False :=
  fun p => .inr ⟨id, .refl (t p)⟩

theorem Reaps.trans {t middle next : Table} {reaped : Slot → Prop}
    (hfirst : t.Reaps middle fun _ => False)
    (hsecond : middle.Reaps next reaped) : t.Reaps next reaped := by
  intro p
  have hsame := ((hfirst p).resolve_left (·.1)).2
  rcases hsecond p with ⟨hreaped, hclear⟩ | ⟨hkept, hnext⟩
  · refine .inl ⟨hreaped, ?_⟩
    exact { hclear with
      zombie := (hsame.state_eq rfl).mp hclear.zombie
      cwd := hclear.cwd.trans hsame.cwd }
  · exact .inr ⟨hkept, hsame.trans hnext⟩

theorem reaps_of_same {t next : Table} (h : ∀ p, (t p).Same (next p)) :
    t.Reaps next fun _ => False :=
  fun p => .inr ⟨id, h p⟩

theorem same_wakeup1 (t : Table) (chan : Option Chan) (p : Slot) :
    (t p).Same (t.wakeup1 chan p) := by
  simp only [wakeup1]
  split
  next hsleeps =>
    exact Proc.same_of_with _ (.inr ⟨by rw [hsleeps.1]; rfl, rfl⟩) id
  next => exact .refl _

theorem same_setSlot {t : Table} {slot : Slot} {value : Proc}
    (h : (t slot).Same value) (p : Slot) :
    (t p).Same (setSlot t slot value p) := by
  rw [setSlot_apply]
  split
  next heq =>
    subst heq
    exact h
  next => exact .refl _

theorem same_setSize (t : Table) (cur tleader : Slot) (sz : Nat) (p : Slot) :
    (t p).Same (t.setSize cur tleader sz p) := by
  simp only [setSize]
  split
  · exact { Proc.Same.refl (t p) with }
  · exact .refl _

theorem same_tgkillMark (t : Table) (cur p : Slot) :
    (t p).Same (t.tgkillMark cur p) := by
  simp only [tgkillMark]
  split
  · exact Proc.same_markGroupKilled _
  · exact .refl _

theorem keeps_exitReparent (t : Table) (cur p : Slot) :
    (t p).Keeps (t.exitReparent cur p) := by
  have hpassed : (t p).Keeps (t.passToInit cur p) := by
    simp only [passToInit]
    split
    · exact { (Proc.Same.refl (t p)).toKeeps with }
    · exact (Proc.Same.refl (t p)).toKeeps
  simp only [exitReparent]
  split
  · exact hpassed.trans (same_wakeup1 _ _ _).toKeeps
  · exact hpassed

theorem exitReparent_parent (t : Table) (cur p : Slot) :
    (t.exitReparent cur p).parent =
      if t.isChild cur p then some initproc else (t p).parent := by
  have hpassed : (t.passToInit cur p).parent =
      if t.isChild cur p then some initproc else (t p).parent := by
    simp only [passToInit]
    split <;> rfl
  simp only [exitReparent]
  split
  · rw [(same_wakeup1 _ _ _).parent]
    exact hpassed
  · exact hpassed

theorem same_exitWakeup (t : Table) (cur p : Slot) :
    (t p).Same (t.exitWakeup cur p) := by
  simp only [exitWakeup]
  split
  · exact (same_wakeup1 _ _ _).trans (same_wakeup1 _ _ _)
  · exact same_wakeup1 _ _ _

theorem keeps_exitSlot (t : Table) {cur p : Slot} (hne : p ≠ cur) :
    (t p).Keeps (t.exitSlot cur p) := by
  simp only [exitSlot, setSlot_other _ _ hne]
  exact (same_exitWakeup t cur p).toKeeps.trans (keeps_exitReparent _ _ _)

theorem exitSlot_parent (t : Table) (cur p : Slot) :
    (t.exitSlot cur p).parent =
      if t.isChild cur p then some initproc else (t p).parent := by
  have hwake := same_exitWakeup t cur p
  have hparent := exitReparent_parent (t.exitWakeup cur) cur p
  simp only [isChild, hwake.parent, hwake.tid] at hparent
  simp only [exitSlot, setSlot_apply]
  split
  · subst p
    exact hparent
  · exact hparent

theorem exitSlot_fields (t : Table) (cur p : Slot) :
    (t p).Keeps { t.exitSlot cur p with state := (t p).state } := by
  have hkeeps := (same_exitWakeup t cur p).toKeeps.trans
    (keeps_exitReparent (t.exitWakeup cur) cur p)
  simp only [exitSlot, setSlot_apply]
  split
  next heq =>
    subst heq
    exact { hkeeps with state := .inl rfl }
  next => exact { hkeeps with state := .inl rfl }

theorem exitSlot_zombie (t : Table) (cur : Slot) :
    (t.exitSlot cur cur).state = .zombie := by
  simp [exitSlot]

theorem exitSlot_unused (t : Table) {cur : Slot} (hcur : (t cur).state ≠ .unused)
    (p : Slot) : (t.exitSlot cur p).state = .unused ↔ (t p).state = .unused := by
  by_cases heq : p = cur
  · subst heq
    simp [exitSlot_zombie, hcur]
  · exact (keeps_exitSlot t heq).state_eq rfl

def tgkillReaped (t : Table) (cur p : Slot) : Prop :=
  t.isPeer cur p = true ∧ (t p).state = .zombie ∧
    passed (t.tgkillLive cur) p = true

theorem reaps_tgkillReap (t : Table) (cur : Slot) :
    t.Reaps (t.tgkillReap cur) (t.tgkillReaped cur) := by
  intro p
  simp only [tgkillReap]
  split
  next hreaped => exact .inl ⟨hreaped, Proc.cleared_reap hreaped.2.1⟩
  next hkept => exact .inr ⟨hkept, .refl _⟩

theorem reaps_setSlot {t : Table} {slot : Slot} {value : Proc}
    (h : (t slot).Cleared value) :
    t.Reaps (setSlot t slot value) fun p => p = slot := by
  intro p
  rw [setSlot_apply]
  split
  next heq =>
    subst heq
    exact .inl ⟨rfl, h⟩
  next hne => exact .inr ⟨hne, .refl _⟩

end Table

namespace Sys

structure Reaps (s next : Sys) (q : Slot) (reaped : Slot → Prop) : Prop where
  proc : s.proc.Reaps next.proc reaped
  pc : ∀ p, p ≠ q → next.pc p = s.pc p
  nextpid : next.nextpid = s.nextpid
  iref : next.iref = s.iref

structure Quiet (s next : Sys) (q : Slot) : Prop extends
    Reaps s next q fun _ => False where
  dirs : next.dirs = s.dirs

namespace Quiet

variable {s next : Sys} {q : Slot} {c : Cpu}

theorem same (h : s.Quiet next q) (p : Slot) :
    (s.proc p).Same (next.proc p) :=
  ((h.proc p).resolve_left (·.1)).2

theorem goto (s : Sys) (q : Slot) (pc : Pc) : s.Quiet (s.goto q pc) q where
  proc := .refl _
  pc := fun _ hne => setSlot_other _ _ hne
  nextpid := rfl
  iref := rfl
  dirs := rfl

theorem resize (q tleader : Slot) (sz : Nat) (pc : Pc) :
    s.Quiet ({ s with proc := s.proc.setSize q tleader sz }.goto q pc) q where
  proc := Table.reaps_of_same (Table.same_setSize s.proc q tleader sz)
  pc := fun _ hne => setSlot_other _ _ hne
  nextpid := rfl
  iref := rfl
  dirs := rfl

theorem finish {t : Table} (h : ∀ p, (s.proc p).Same (t p)) (pc : Pc) :
    s.Quiet ({ s with proc := t }.finish q pc) q where
  proc := Table.reaps_of_same h
  pc := fun _ hne => setSlot_other _ _ hne
  nextpid := rfl
  iref := rfl
  dirs := rfl

theorem sched {t : Table} {p : Proc} (h : ∀ p, (s.proc p).Same (t p))
    (hself : (t q).Same p) (pc : Pc) :
    s.Quiet (({ s with proc := t }.setProc q p).sched c q pc) q where
  proc := Table.reaps_of_same fun other =>
    (h other).trans (Table.same_setSlot hself other)
  pc := fun _ hne => setSlot_other _ _ hne
  nextpid := rfl
  iref := rfl
  dirs := rfl

theorem sleep {t : Table} (h : ∀ p, (s.proc p).Same (t p))
    (hactive : (s.proc q).state.active = true) (chan : Option Chan) (pc : Pc) :
    s.Quiet ({ s with proc := t }.sleep c q chan pc) q := by
  refine .sched h (Proc.same_of_with _ (.inr ⟨?_, rfl⟩) id) pc
  exact (h q).active.trans hactive

theorem tidy (s : Sys) (q : Slot) (p : Slot) :
    (s.proc p).Same ((s.tidy q).proc p) :=
  Table.same_setSlot (Proc.same_of_with _ (.inl rfl) id) p

end Quiet

/-- One turn of `wait`: a zombie leader is reaped and its directory freed, or
the call returns -1 or sleeps. -/
inductive WaitEnds (s : Sys) (q : Slot) (nullHit : Slot → Bool) :
    Sys → Prop
  | reaped (hfound : s.proc.waitFind q nullHit = some p)
      (hzombie : (s.proc p).state = .zombie) (hleader : (s.proc p).tid = -1)
      (hdir : (s.proc p).pgdir = some dir)
      (hreaps : s.Reaps next q fun other => other = p)
      (hdirs : next.dirs = Function.update s.dirs dir false)
      (hpc : next.pc q = .trapret (s.proc p).pid) : WaitEnds s q nullHit next
  | quiet (hquiet : s.Quiet next q)
      (hpc : next.pc q = .trapret (-1) ∨ next.pc q = .waitSlept) :
      WaitEnds s q nullHit next

inductive JoinEnds (s : Sys) (q p : Slot) (tid : Int) (tleader : Option Slot) :
    Sys → Prop
  | killed (hkilled : (s.proc q).killed = true) (hquiet : s.Quiet next q)
      (hpc : next.pc q = .trapret (-1)) : JoinEnds s q p tid tleader next
  | reaped (hkilled : (s.proc q).killed = false)
      (hzombie : (s.proc p).state = .zombie)
      (hreaps : s.Reaps next q fun other => other = p)
      (hdirs : next.dirs = s.dirs)
      (hpc : next.pc q = .trapret (s.proc p).tid) :
      JoinEnds s q p tid tleader next
  | sleeps (hkilled : (s.proc q).killed = false)
      (hzombie : (s.proc p).state ≠ .zombie) (hquiet : s.Quiet next q)
      (hpc : next.pc q = .joinSlept p tid tleader) :
      JoinEnds s q p tid tleader next

structure TgkillEnds (s : Sys) (q : Slot) (caller : TgkillCaller) (next : Sys) :
    Prop where
  reaps : s.Reaps next q (s.proc.tgkillReaped q)
  dirs : next.dirs = s.dirs
  pc :
    (s.proc.tgkillLive q = none ∧ next.pc q = tgkillReturn caller 0) ∨
    (s.proc.tgkillLive q ≠ none ∧
      ((s.proc q).killed = true ∨ (s.proc q).tid ≠ -1) ∧
      next.pc q = tgkillReturn caller (-1)) ∨
    (s.proc.tgkillLive q ≠ none ∧ (s.proc q).killed = false ∧
      next.pc q = .tgkillSlept caller)

section Turns

variable {s next : Sys} {c : Cpu} {q : Slot} {x : Choice} {pc : Pc}

theorem wait_ends {nullHit : Slot → Bool}
    (hactive : (s.proc q).state.active = true)
    (h : s.waitTurn c q nullHit = some next) : s.WaitEnds q nullHit next := by
  cases waitTurns_of_waitTurn h with
  | reaped hfound hzombie hleader hdir =>
      refine .reaped hfound hzombie hleader hdir ?_ rfl (setSlot_same ..)
      exact ⟨Table.reaps_setSlot (Proc.cleared_reap hzombie),
        fun _ hne => setSlot_other _ _ hne, rfl, rfl⟩
  | returned => exact .quiet (.finish (fun p => .refl _) _) (.inl (setSlot_same ..))
  | sleeps =>
      exact .quiet (.sleep (fun p => .refl _) hactive _ _) (.inr (setSlot_same ..))

theorem join_ends {p : Slot} {tid : Int} {tleader : Option Slot}
    (hactive : (s.proc q).state.active = true) :
    s.JoinEnds q p tid tleader (s.joinTurn c q p tid tleader) := by
  unfold joinTurn
  split
  next hkilled =>
    exact .killed hkilled (.finish (fun p => .refl _) _) (setSlot_same ..)
  next hkilled =>
    simp only [Bool.not_eq_true] at hkilled
    split
    next hzombie =>
      refine .reaped hkilled hzombie ?_ rfl (setSlot_same ..)
      exact ⟨Table.reaps_setSlot (Proc.cleared_joinReap hzombie),
        fun _ hne => setSlot_other _ _ hne, rfl, rfl⟩
    next hzombie =>
      exact .sleeps hkilled hzombie (.sleep (fun p => .refl _) hactive _ _)
        (setSlot_same ..)

theorem tgkill_ends {caller : TgkillCaller}
    (hrunning : (s.proc q).state = .running) :
    s.TgkillEnds q caller (s.tgkillTurn c q caller) := by
  have hreaps := Table.reaps_tgkillReap s.proc q
  have hself : (s.proc q).Same (s.proc.tgkillReap q q) := by
    rcases hreaps q with ⟨_, hclear⟩ | ⟨_, hsame⟩
    · rw [hclear.zombie] at hrunning
      contradiction
    · exact hsame
  unfold tgkillTurn
  dsimp only
  split
  next hlive =>
    refine ⟨⟨hreaps, fun _ hne => setSlot_other _ _ hne, rfl, rfl⟩, rfl, ?_⟩
    exact .inl ⟨hlive, setSlot_same ..⟩
  next live hlive =>
    have hsome : s.proc.tgkillLive q ≠ none := by simp [hlive]
    split
    next hkilled =>
      refine ⟨⟨hreaps, fun _ hne => setSlot_other _ _ hne, rfl, rfl⟩, rfl, ?_⟩
      exact .inr (.inl ⟨hsome, .inl hkilled, setSlot_same ..⟩)
    next hkilled =>
      refine ⟨⟨?_, fun _ hne => setSlot_other _ _ hne, rfl, rfl⟩, rfl, ?_⟩
      · intro p
        simp only [sleep, sched_proc, setProc_proc, setSlot_apply]
        split
        next heq =>
          subst heq
          refine .inr ⟨?_, hself.trans (Proc.same_of_with _ (.inr ⟨?_, rfl⟩) id)⟩
          · intro hreaped
            rw [hreaped.2.1] at hrunning
            contradiction
          · rw [hself.active, hrunning]
            rfl
        next => exact hreaps p
      · exact .inr (.inr ⟨hsome, by simpa using hkilled, setSlot_same ..⟩)

theorem Reaps.of_tidy {reaped : Slot → Prop}
    (h : (s.tidy q).Reaps next q reaped) : s.Reaps next q reaped :=
  ⟨(Table.reaps_of_same (Quiet.tidy s q)).trans h.proc, h.pc, h.nextpid, h.iref⟩

theorem Quiet.of_tidy (h : (s.tidy q).Quiet next q) : s.Quiet next q :=
  { toReaps := h.toReaps.of_tidy, dirs := h.dirs }

theorem tidy_active (h : (s.proc q).state.active = true) :
    ((s.tidy q).proc q).state.active = true := by
  rw [(Quiet.tidy s q q).active]
  exact h

end Turns

/-- Points outside `clone`, `exec`, `join` and the end of `exit`. -/
def plain : Pc → Bool
  | .user | .trapret _ | .kernel | .forkret | .allocproc .. | .exitFiles
  | .waitLock | .waitSlept | .joinScan _ | .killLock _ | .tkillLock _
  | .tgkillCheck .syscall | .tsuspendCheck | .tsuspendLock | .tsuspendSlept
  | .tresumeScan _ | .tresumeLock _ | .execLeader => true
  | _ => false

/-- Points of `exit` after the working directory has been given up. -/
def exiting : Pc → Bool
  | .exitGroup | .tgkillCheck .exit | .tgkillLock .exit | .tgkillSlept .exit
  | .exitLock | .exited => true
  | _ => false

def free (point : Pc) : Bool := !exiting point && point.creates.isNone

inductive Flow (t : Table) (q : Slot) : Pc → Pc → Prop
  | same : Flow t q point point
  | plain (hfrom : free point = true) (hto : plain resumed = true) :
      Flow t q point resumed
  | exitGroup (htid : (t q).tid = -1) : Flow t q .exitGroup (.tgkillCheck .exit)
  | exitPeer (htid : (t q).tid ≠ -1) : Flow t q .exitGroup .exitLock
  | leader (h : t.threadLeader q = some q) :
      Flow t q (.tgkillCheck caller) (.tgkillLock caller)
  | peer (h : t.threadLeader q ≠ some q) :
      Flow t q (.tgkillCheck caller) (tgkillReturn caller (-1))
  | joinScan (htid : tid ≠ -1) (hfound : t.joinFind q tid = some p) :
      Flow t q (.joinScan tid) (.joinLock p tid (t.threadLeader q))
  | joinSlept : Flow t q (.joinLock p tid tleader) (.joinSlept p tid tleader)
  | execLeader : Flow t q .execLeader (.execLock (t.threadLeader q))
  | execLock (htid : (t q).tid = -1) :
      Flow t q (.execLock tleader) (.tgkillCheck .exec)

/-- What a step does to the table: it keeps every identity, or it is one of
the few sections that create, hand over or give up something. -/
inductive Effect (s : Sys) (label : Label) : Sys → Prop
  | quiet (hquiet : s.Quiet next q)
      (hflow : Flow s.proc q (s.pc q).base (next.pc q).base) :
      Effect s label next
  | allocates (hact : s.acting label = some q)
      (hpc : s.pc q = .allocproc flags childStack)
      (hfound : s.proc.findUnused = some np) :
      Effect s label
        ({ s with
          proc := setSlot s.proc np
            { s.proc np with state := .embryo, pid := s.nextpid }
          nextpid := s.nextpid + 1 }.finish q (.cloneKstack np flags childStack))
  | kstack (hact : s.acting label = some q)
      (hpc : s.pc q = .cloneKstack np flags childStack) :
      Effect s label (s.cloneKstack q np flags childStack frame)
  | setup (hact : s.acting label = some q)
      (hpc : s.pc q = .cloneSetup np flags childStack)
      (hends : s.SetupEnds q np flags next) : Effect s label next
  | ids (hact : s.acting label = some q) (hpc : s.pc q = .cloneIds np flags) :
      Effect s label (s.cloneIds q np flags)
  | publish (hact : s.acting label = some q)
      (hpc : s.pc q = .clonePublish np retid) :
      Effect s label (s.clonePublish q np retid)
  | files (hact : s.acting label = some q) (hpc : s.pc q = .exitFiles)
      (hinit : q ≠ initproc) :
      Effect s label
        ({ s.setProc q { s.proc q with cwd := none } with
          iref := iput s.iref (s.proc q).cwd }.goto q .exitGroup)
  | chdir (hact : s.acting label = some q) (hpc : s.pc q = .kernel) :
      Effect s label
        ({ s.setProc q { s.proc q with cwd := some inode } with
          iref := iput (idup s.iref (some inode)) (s.proc q).cwd }.goto q (.trapret 0))
  | exit (hact : s.acting label = some q) (hpc : s.pc q = .exitLock) :
      Effect s label (s.exitLock c q)
  | waited (hact : s.acting label = some q)
      (hpc : s.pc q = .waitLock ∨ s.pc q = .waitSlept)
      (hfound : s.proc.waitFind q nullHit = some p)
      (hzombie : (s.proc p).state = .zombie) (hleader : (s.proc p).tid = -1)
      (hdir : (s.proc p).pgdir = some dir)
      (hreaps : s.Reaps next q fun other => other = p)
      (hdirs : next.dirs = Function.update s.dirs dir false)
      (hnext : next.pc q = .trapret (s.proc p).pid) : Effect s label next
  | joined (hact : s.acting label = some q)
      (hpc : s.pc q = .joinLock p tid tleader ∨ s.pc q = .joinSlept p tid tleader)
      (hkilled : (s.proc q).killed = false)
      (hzombie : (s.proc p).state = .zombie)
      (hreaps : s.Reaps next q fun other => other = p)
      (hdirs : next.dirs = s.dirs)
      (hnext : next.pc q = .trapret (s.proc p).tid) : Effect s label next
  | tgkilled (hact : s.acting label = some q)
      (hpc : s.pc q = .tgkillLock caller ∨ s.pc q = .tgkillSlept caller)
      (hends : s.TgkillEnds q caller next) : Effect s label next
  | handOff (hact : s.acting label = some q)
      (hpc : s.pc q = .execLock (some leader)) (htid : (s.proc q).tid ≠ -1) :
      Effect s label
        ({ s with proc := s.proc.handOff q leader }.finish q
          (.tgkillCheck .exec))
  | commit (hact : s.acting label = some q) (hpc : s.pc q = .execLoad)
      (hfree : s.dirs dir = false) (hold : (s.proc q).pgdir = some old) :
      Effect s label
        ({ s.setProc q
            { s.proc q with
              pgdir := some dir
              sz := sz
              tstack := sz
              tstackalloc := false } with
          dirs := Function.update (Function.update s.dirs dir true) old
            false }.goto q (.trapret 0))

section Steps

variable {s next : Sys} {label : Label} {c : Cpu} {q p : Slot} {x : Choice}
  {pc : Pc}

theorem running_of_acting (hcore : s.Core) (hact : s.acting label = some q) :
    (s.proc q).state = .running := by
  cases label with
  | run c x => exact hcore.running hact
  | _ => contradiction

@[simp] theorem tidy_pid : ((s.tidy q).proc p).pid = (s.proc p).pid :=
  (Quiet.tidy s q p).pid

@[simp] theorem tidy_tid : ((s.tidy q).proc p).tid = (s.proc p).tid :=
  (Quiet.tidy s q p).tid

@[simp] theorem tidy_parent : ((s.tidy q).proc p).parent = (s.proc p).parent :=
  (Quiet.tidy s q p).parent

@[simp] theorem tidy_pgdir : ((s.tidy q).proc p).pgdir = (s.proc p).pgdir :=
  (Quiet.tidy s q p).pgdir

@[simp] theorem tidy_state : ((s.tidy q).proc p).state = (s.proc p).state := by
  simp only [tidy, setProc_proc, setSlot_apply]
  split
  · subst p
    rfl
  · rfl

@[simp] theorem tidy_killed : ((s.tidy q).proc p).killed = (s.proc p).killed := by
  simp only [tidy, setProc_proc, setSlot_apply]
  split
  · subst p
    rfl
  · rfl

theorem tidy_threadLeader :
    (s.tidy q).proc.threadLeader p = s.proc.threadLeader p := by
  simp [Table.threadLeader]

theorem tidy_waitFind {nullHit : Slot → Bool} :
    (s.tidy q).proc.waitFind p nullHit = s.proc.waitFind p nullHit := by
  have hkid : ∀ other, (s.tidy q).proc.waitKid p nullHit other =
      s.proc.waitKid p nullHit other := by
    simp [Table.waitKid, tidy_threadLeader]
  simp only [Table.waitFind, hkid, tidy_state, tidy_tid]

theorem tidy_tgkillLive :
    (s.tidy q).proc.tgkillLive p = s.proc.tgkillLive p := by
  simp [Table.tgkillLive, Table.isPeer]

theorem tidy_tgkillReaped :
    (s.tidy q).proc.tgkillReaped p = s.proc.tgkillReaped p := by
  funext other
  simp [Table.tgkillReaped, Table.isPeer, tidy_tgkillLive]

theorem mark_isPeer : (s.tgkillMark q).proc.isPeer q p = s.proc.isPeer q p := by
  have hsame := Table.same_tgkillMark s.proc q
  simp only [Table.isPeer, tgkillMark, (hsame _).pid, (hsame _).tid]

theorem mark_zombie :
    ((s.tgkillMark q).proc p).state = .zombie ↔ (s.proc p).state = .zombie :=
  (Table.same_tgkillMark s.proc q p).state_eq rfl

theorem mark_tgkillLive :
    (s.tgkillMark q).proc.tgkillLive q = s.proc.tgkillLive q := by
  simp only [Table.tgkillLive, mark_isPeer, ne_eq, mark_zombie]

theorem mark_tgkillReaped :
    (s.tgkillMark q).proc.tgkillReaped q = s.proc.tgkillReaped q := by
  funext other
  simp only [Table.tgkillReaped, mark_isPeer, mark_zombie, mark_tgkillLive]

theorem mark_killed (htid : (s.proc q).tid = -1) :
    ((s.tgkillMark q).proc q).killed = (s.proc q).killed := by
  simp [tgkillMark, Table.tgkillMark, Table.isPeer, htid]

theorem WaitEnds.of_tidy {nullHit : Slot → Bool}
    (h : (s.tidy q).WaitEnds q nullHit next) : s.WaitEnds q nullHit next := by
  cases h with
  | reaped hfound hzombie hleader hdir hreaps hdirs hpc =>
      rw [tidy_waitFind] at hfound
      simp only [tidy_state, tidy_tid, tidy_pgdir, tidy_pid] at *
      exact .reaped hfound hzombie hleader hdir hreaps.of_tidy hdirs hpc
  | quiet hquiet hpc => exact .quiet hquiet.of_tidy hpc

theorem JoinEnds.of_tidy {tid : Int} {tleader : Option Slot}
    (h : (s.tidy q).JoinEnds q p tid tleader next) :
    s.JoinEnds q p tid tleader next := by
  cases h with
  | killed hkilled hquiet hpc =>
      rw [tidy_killed] at hkilled
      exact .killed hkilled hquiet.of_tidy hpc
  | reaped hkilled hzombie hreaps hdirs hpc =>
      simp only [tidy_state, tidy_tid, tidy_killed] at *
      exact .reaped hkilled hzombie hreaps.of_tidy hdirs hpc
  | sleeps hkilled hzombie hquiet hpc =>
      simp only [tidy_state, tidy_killed] at *
      exact .sleeps hkilled hzombie hquiet.of_tidy hpc

theorem TgkillEnds.of_tidy {caller : TgkillCaller}
    (h : (s.tidy q).TgkillEnds q caller next) : s.TgkillEnds q caller next where
  reaps := by
    have hreaps := h.reaps.of_tidy
    rwa [tidy_tgkillReaped] at hreaps
  dirs := h.dirs
  pc := by simpa [tidy_tgkillLive] using h.pc

theorem TgkillEnds.of_mark {caller : TgkillCaller}
    (h : (s.tgkillMark q).TgkillEnds q caller next) :
    s.TgkillEnds q caller next where
  reaps := by
    have hreaps := h.reaps
    rw [mark_tgkillReaped] at hreaps
    have hmarked := Table.reaps_of_same (Table.same_tgkillMark s.proc q)
    exact ⟨hmarked.trans hreaps.proc, hreaps.pc, hreaps.nextpid, hreaps.iref⟩
  dirs := h.dirs
  pc := by
    have htid := (Table.same_tgkillMark s.proc q q).tid
    have hkilled := (Table.same_tgkillMark s.proc q q).killed
    have hpc := h.pc
    rw [mark_tgkillLive] at hpc
    rcases hpc with hnone | ⟨hlive, hif, hnext⟩ | ⟨hlive, hif, hnext⟩
    · exact .inl hnone
    · refine .inr (.inl ⟨hlive, ?_, hnext⟩)
      by_cases hleader : (s.proc q).tid = -1
      · rcases hif with hif | hif
        · rw [mark_killed hleader] at hif
          exact .inl hif
        · exact absurd (htid.trans hleader) hif
      · exact .inr hleader
    · refine .inr (.inr ⟨hlive, ?_, hnext⟩)
      by_contra hmarked
      have htrue := hkilled (by simpa using hmarked)
      exact absurd (hif.symm.trans htrue) (by simp)

theorem Effect.goto {resumed : Pc}
    (hflow : Flow s.proc q (s.pc q).base resumed.base) :
    s.Effect label (s.goto q resumed) :=
  .quiet (.goto ..) (by simpa using hflow)

theorem Effect.finish {t : Table} {resumed : Pc}
    (hsame : ∀ p, (s.proc p).Same (t p))
    (hflow : Flow s.proc q (s.pc q).base resumed.base) :
    s.Effect label ({ s with proc := t }.finish q resumed) :=
  .quiet (.finish hsame _) (by simpa using hflow)

theorem Effect.sleep {chan : Option Chan} {resumed : Pc}
    (hactive : (s.proc q).state.active = true)
    (hflow : Flow s.proc q (s.pc q).base resumed.base) :
    s.Effect label (s.sleep c q chan resumed) :=
  .quiet (.sleep (fun _ => .refl _) hactive _ _)
    (by simpa [Sys.sleep] using hflow)

theorem plain_entry (call : Syscall) : plain call.entry.base = true := by
  cases call
  case tkill tid =>
    simp only [Syscall.entry]
    split <;> rfl
  all_goals rfl

theorem userAct_effect (hpc : s.pc q = .user) (act : UserAct) :
    s.Effect label (s.userAct q act) := by
  have hfrom : free (s.pc q).base = true := by
    rw [hpc]
    rfl
  cases act with
  | call call =>
      refine .goto (.plain hfrom ?_)
      split
      · rfl
      · exact plain_entry call
  | fault =>
      have hsame : (s.proc q).Same { s.proc q with killed := true } :=
        Proc.same_of_with _ (.inl rfl) fun _ => rfl
      refine .quiet (q := q) ?_ (.plain hfrom ?_)
      · exact { proc := Table.reaps_of_same (Table.same_setSlot hsame)
                pc := fun _ hne => setSlot_other _ _ hne
                nextpid := rfl
                iref := rfl
                dirs := rfl }
      · simp [userAct, Pc.base, plain]

theorem killFound_effect (hfrom : free (s.pc q).base = true)
    (found : Option Slot) : s.Effect label (s.killFound q found) := by
  cases found with
  | none => exact .finish (fun _ => .refl _) (.plain hfrom rfl)
  | some p =>
      exact .finish (Table.same_setSlot (Proc.same_markKilled _))
        (.plain hfrom rfl)

theorem joinScan_effect {tid : Int} (hpc : s.pc q = .joinScan tid) :
    s.Effect label (s.joinScan q tid) := by
  have hbase : (s.pc q).base = .joinScan tid := by
    rw [hpc]
    rfl
  have hfrom : free (s.pc q).base = true := by
    rw [hbase]
    rfl
  unfold joinScan
  split
  · exact .goto (.plain hfrom rfl)
  next htid =>
    split
    · exact .goto (.plain hfrom rfl)
    next p hfound =>
      split
      · exact .goto (.plain hfrom rfl)
      · refine .goto ?_
        rw [hbase]
        exact .joinScan htid hfound

theorem tresumeScan_effect {tid : Int} (hpc : s.pc q = .tresumeScan tid) :
    s.Effect label (s.tresumeScan q tid) := by
  have hfrom : free (s.pc q).base = true := by
    rw [hpc]
    rfl
  unfold tresumeScan
  split
  · exact .goto (.plain hfrom rfl)
  · split
    · exact .goto (.plain hfrom rfl)
    · split <;> exact .goto (.plain hfrom rfl)

theorem waitTurn_effect {nullHit : Slot → Bool} {resumed : Sys}
    (hact : s.acting label = some q)
    (hpc : s.pc q = .waitLock ∨ s.pc q = .waitSlept)
    (hends : s.WaitEnds q nullHit resumed) : s.Effect label resumed := by
  cases hends with
  | reaped hfound hzombie hleader hdir hreaps hdirs hnext =>
      exact .waited hact hpc hfound hzombie hleader hdir hreaps hdirs hnext
  | quiet hquiet hnext =>
      refine .quiet hquiet (.plain ?_ ?_)
      · rcases hpc with hpc | hpc <;> rw [hpc] <;> rfl
      · rcases hnext with hnext | hnext <;> rw [hnext] <;> rfl

theorem joinTurn_effect {tid : Int} {tleader : Option Slot} {resumed : Sys}
    (hact : s.acting label = some q)
    (hpc : s.pc q = .joinLock p tid tleader ∨ s.pc q = .joinSlept p tid tleader)
    (hends : s.JoinEnds q p tid tleader resumed) : s.Effect label resumed := by
  cases hends with
  | killed _ hquiet hnext =>
      refine .quiet hquiet (.plain ?_ ?_)
      · rcases hpc with hpc | hpc <;> rw [hpc] <;> rfl
      · rw [hnext]
        rfl
  | reaped hkilled hzombie hreaps hdirs hnext =>
      exact .joined hact hpc hkilled hzombie hreaps hdirs hnext
  | sleeps _ _ hquiet hnext =>
      refine .quiet hquiet ?_
      rw [hnext]
      rcases hpc with hpc | hpc <;> rw [hpc]
      · exact .joinSlept
      · exact .same

theorem execLock_effect {tleader : Option Slot}
    (hact : s.acting label = some q) (hpc : s.pc q = .execLock tleader)
    (h : s.execLock q tleader = some next) : s.Effect label next := by
  cases execLocks_of_execLock h with
  | leads htid =>
      refine .finish (fun _ => .refl _) ?_
      rw [hpc]
      exact .execLock htid
  | handOff htid => exact .handOff hact hpc htid

theorem execLoad_effect {image : Option (Frame × Nat)}
    (hact : s.acting label = some q) (hpc : s.pc q = .execLoad)
    (h : s.execLoad q image = some next) : s.Effect label next := by
  cases loads_of_execLoad h with
  | failed =>
      refine .goto (.plain ?_ rfl)
      rw [hpc]
      rfl
  | done hfree hold => exact .commit hact hpc hfree hold

theorem kernelAct_effect {act : KernelAct} (hact : s.acting label = some q)
    (hpc : s.pc q = .kernel) (h : s.kernelAct q act = some next) :
    s.Effect label next := by
  cases kernelActs_of_kernelAct h with
  | ret =>
      refine .goto (.plain ?_ rfl)
      rw [hpc]
      rfl
  | @grow tleader sz =>
      refine .quiet (.resize q tleader sz _) (.plain ?_ ?_)
      · rw [hpc]
        rfl
      · rw [goto_pc, setSlot_same]
        rfl
  | chdir => exact .chdir hact hpc

theorem exitFiles_effect (hact : s.acting label = some q)
    (hpc : s.pc q = .exitFiles) (h : s.exitFiles q = some next) :
    s.Effect label next := by
  obtain ⟨hinit, rfl⟩ := exitFiles_eq_some h
  exact .files hact hpc hinit

theorem allocproc_effect {flags : Flags} {childStack : Nat}
    (hact : s.acting label = some q)
    (hpc : s.pc q = .allocproc flags childStack) :
    s.Effect label (s.allocproc q flags childStack) := by
  unfold allocproc
  split
  next =>
    refine .finish (fun _ => .refl _) (.plain ?_ rfl)
    rw [hpc]
    rfl
  next np hfound => exact .allocates hact hpc hfound

theorem tgkillCheck_effect {caller : TgkillCaller}
    (hpc : s.pc q = .tgkillCheck caller) :
    s.Effect label (s.tgkillCheck q caller) := by
  have hreturn : (tgkillReturn caller (-1)).base = tgkillReturn caller (-1) := by
    cases caller <;> rfl
  refine .goto ?_
  rw [hpc]
  split
  next hleader => exact .leader hleader
  next hpeer =>
    rw [hreturn]
    exact .peer hpeer

theorem Acts.effect (hcore : s.Core) (hact : s.acting label = some q)
    (hsleeper : ∀ p, s.pc q = .tresumeLock p → (s.proc p).state = .sleeping)
    (hacts : s.Acts c q x (s.pc q) next) : s.Effect label next := by
  have hrunning := running_of_acting hcore hact
  have hactive := ProcState.active_of_running hrunning
  generalize hpc : s.pc q = pc at hacts
  have hplain : free pc.base = true → free (s.pc q).base = true := by
    rw [hpc]
    exact id
  cases hacts with
  | user => exact userAct_effect hpc _
  | trapret =>
      refine .goto (.plain (hplain rfl) ?_)
      split <;> rfl
  | kernel h => exact kernelAct_effect hact hpc h
  | forkret => exact .finish (fun _ => .refl _) (.plain (hplain rfl) rfl)
  | yielded =>
      refine .finish (fun _ => .refl _) ?_
      rw [hpc]
      exact .same
  | asleep =>
      refine .finish (Quiet.tidy s q) ?_
      rw [hpc]
      exact .same
  | allocproc => exact allocproc_effect hact hpc
  | cloneKstack => exact .kstack hact hpc
  | cloneSetup h => exact .setup hact hpc (setup_ends h)
  | cloneIds => exact .ids hact hpc
  | clonePublish => exact .publish hact hpc
  | exitFiles h => exact exitFiles_effect hact hpc h
  | exitGroup =>
      refine .goto ?_
      rw [hpc]
      split
      next htid => exact .exitGroup htid
      next htid => exact .exitPeer htid
  | exitLock => exact .exit hact hpc
  | waitLock _ h =>
      exact waitTurn_effect hact (.inl hpc) (wait_ends hactive h)
  | waitSlept _ h =>
      exact waitTurn_effect hact (.inr hpc)
        (wait_ends (tidy_active hactive) h).of_tidy
  | joinScan => exact joinScan_effect hpc
  | joinLock => exact joinTurn_effect hact (.inl hpc) (join_ends hactive)
  | joinSlept =>
      exact joinTurn_effect hact (.inr hpc)
        (join_ends (tidy_active hactive)).of_tidy
  | killLock => exact killFound_effect (hplain rfl) _
  | tkillLock => exact killFound_effect (hplain rfl) _
  | tgkillCheck => exact tgkillCheck_effect hpc
  | tgkillLock =>
      have hmove := Table.moves_tgkillMark s.proc q q
      rw [hrunning] at hmove
      exact .tgkilled hact (.inl hpc) (tgkill_ends hmove.eq_of_running).of_mark
  | tgkillSlept =>
      refine .tgkilled hact (.inr hpc) (tgkill_ends ?_).of_tidy
      simpa using hrunning
  | tsuspendCheck =>
      refine .goto (.plain (hplain rfl) ?_)
      split <;> rfl
  | tsuspendLock => exact .sleep hactive (.plain (hplain rfl) rfl)
  | tsuspendSlept => exact .finish (Quiet.tidy s q) (.plain (hplain rfl) rfl)
  | tresumeScan => exact tresumeScan_effect hpc
  | tresumeLock =>
      have hsleeps := hsleeper _ hpc
      refine .finish (Table.same_setSlot (Proc.same_of_with _ (.inr ⟨?_, rfl⟩) id))
        (.plain (hplain rfl) rfl)
      rw [hsleeps]
      rfl
  | execLeader =>
      refine .goto ?_
      rw [hpc]
      exact .execLeader
  | execLock _ h => exact execLock_effect hact hpc h
  | execLoad h => exact execLoad_effect hact hpc h

theorem Leaves.effect (hcore : s.Core) (hq : (s.cpu c).proc = some q)
    (hleaves : s.Leaves c q label next) : s.Effect label next := by
  have hactive := ProcState.active_of_running (hcore.running hq)
  cases hleaves with
  | killed huser =>
      refine .goto (.plain ?_ rfl)
      rw [huser]
      rfl
  | preempt =>
      refine .quiet (q := q) ?_ ?_
      · exact .sched (fun p => .refl _)
          (Proc.same_of_with _ (.inr ⟨hactive, rfl⟩) id) _
      · simpa [Pc.base] using Flow.same
  | block => exact .sleep hactive .same

theorem Effect.idle {t : Table} {lock : Option Cpu} {cpu : Cpu → CpuState}
    (hsame : ∀ p, (s.proc p).Same (t p)) :
    s.Effect label { s with proc := t, lock := lock, cpu := cpu } :=
  .quiet (q := initproc)
    { proc := Table.reaps_of_same hsame
      pc := fun _ _ => rfl
      nextpid := rfl
      iref := rfl
      dirs := rfl } .same

theorem Core.effect (h : s.Core) (hguard : s.resumesSleeper label = true)
    (hstep : s.step label = some next) : s.Effect label next := by
  cases does_of_step hstep with
  | schedAcquire => exact .idle fun _ => .refl _
  | schedRelease => exact .idle fun _ => .refl _
  | schedPick _ _ hrunnable =>
      refine .idle (Table.same_setSlot (Proc.same_of_with _ (.inr ⟨?_, rfl⟩) id))
      rw [hrunnable]
      rfl
  | wakeup => exact .idle (Table.same_wakeup1 _ _)
  | leaves hq hleaves => exact hleaves.effect h hq
  | acts hq hacts => exact hacts.effect h hq fun p => resumes_sleeper hguard hq

def SameChildren (s next : Sys) : Prop :=
  ∀ p, (next.pc p).base = (s.pc p).base ∨
    (s.pc p).base.creates = none ∧ (next.pc p).base.creates = none

theorem SameChildren.creates (h : s.SameChildren next) {np : Slot}
    (hcreates : (next.pc p).base.creates = some np) :
    (next.pc p).base = (s.pc p).base := by
  rcases h p with heq | ⟨_, hnone⟩
  · exact heq
  · rw [hnone] at hcreates
    contradiction

theorem Flow.children {t : Table} {before after : Pc}
    (hflow : Flow t q before after) :
    after = before ∨ before.creates = none ∧ after.creates = none := by
  cases hflow with
  | same => exact .inl rfl
  | plain hfrom hto =>
      refine .inr ⟨?_, ?_⟩
      · simp only [free, Bool.and_eq_true] at hfrom
        exact Option.isNone_iff_eq_none.mp hfrom.2
      · cases after <;> simp_all [Sys.plain, Pc.creates]
  | @peer caller _ => cases caller <;> exact .inr ⟨rfl, rfl⟩
  | _ => exact .inr ⟨rfl, rfl⟩

theorem sameChildren_of_none (hpc : ∀ p, p ≠ q → next.pc p = s.pc p)
    (hbefore : (s.pc q).base.creates = none)
    (hafter : (next.pc q).base.creates = none) : s.SameChildren next := by
  intro p
  by_cases heq : p = q
  · subst heq
    exact .inr ⟨hbefore, hafter⟩
  · rw [hpc p heq]
    exact .inl rfl

theorem sameChildren_setSlot {point pc : Pc} (hnext : next.pc = setSlot s.pc q pc)
    (hpc : s.pc q = point) (hbefore : point.base.creates = none)
    (hafter : pc.base.creates = none) : s.SameChildren next := by
  refine sameChildren_of_none (fun p hne => ?_) (by rwa [hpc]) ?_
  · rw [hnext, setSlot_other _ _ hne]
  · rwa [hnext, setSlot_same]

/-- Nobody is created where a reaper returns. -/
theorem Reaps.sameChildren {reaped : Slot → Prop} {first second : Pc} {retid : Int}
    (h : s.Reaps next q reaped) (hpc : s.pc q = first ∨ s.pc q = second)
    (hnext : next.pc q = .trapret retid) (hfirst : first.base.creates = none)
    (hsecond : second.base.creates = none) : s.SameChildren next := by
  refine sameChildren_of_none h.pc ?_ (by rw [hnext]; rfl)
  rcases hpc with hpc | hpc <;> rwa [hpc]

theorem sameChildren_of_flow (hpc : ∀ p, p ≠ q → next.pc p = s.pc p)
    (hflow : Flow s.proc q (s.pc q).base (next.pc q).base) :
    s.SameChildren next := by
  intro p
  by_cases heq : p = q
  · subst heq
    exact hflow.children
  · rw [hpc p heq]
    exact .inl rfl

theorem TgkillEnds.creates {caller : TgkillCaller}
    (h : s.TgkillEnds q caller next) : (next.pc q).base.creates = none := by
  rcases h.pc with ⟨_, hpc⟩ | ⟨_, _, hpc⟩ | ⟨_, _, hpc⟩
  · rw [hpc]
    exact (Core.tgkillReturn_base caller 0).1
  · rw [hpc]
    exact (Core.tgkillReturn_base caller (-1)).1
  · rw [hpc]
    rfl

theorem TgkillEnds.sameChildren {caller : TgkillCaller}
    (h : s.TgkillEnds q caller next)
    (hpc : s.pc q = .tgkillLock caller ∨ s.pc q = .tgkillSlept caller) :
    s.SameChildren next := by
  refine sameChildren_of_none h.reaps.pc ?_ h.creates
  rcases hpc with hpc | hpc <;> rw [hpc] <;> rfl

end Steps

end Sys

end KernelThreads
