import KernelThreads.Sched.Effect

namespace KernelThreads

open Lib

/-! Runs in which threads make only some of the system calls. -/

def Flags.allowed (flags : Flags) (allows : Syscall → Bool) : Prop :=
  allows .fork = true ∧ flags = FORKFLAGS ∨
    ∃ childStack, allows (.clone flags childStack) = true

def Pc.within (allows : Syscall → Bool) : Pc → Prop
  | .allocproc flags _ | .cloneKstack _ flags _ | .cloneSetup _ flags _
  | .cloneIds _ flags => flags.allowed allows
  | .waitLock | .waitSlept => allows .wait = true
  | .joinScan tid | .joinLock _ tid _ | .joinSlept _ tid _ =>
      allows (.join tid) = true
  | .killLock pid => allows (.kill pid) = true
  | .tkillLock tid => allows (.tkill tid) = true
  | .tgkillCheck .syscall | .tgkillLock .syscall | .tgkillSlept .syscall =>
      allows .tgkill = true
  | .tgkillCheck .exec | .tgkillLock .exec | .tgkillSlept .exec
  | .execLeader | .execLock _ | .execLoad => allows .exec = true
  | .tsuspendCheck | .tsuspendLock | .tsuspendSlept => allows .tsuspend = true
  | .tresumeScan tid => allows (.tresume tid) = true
  | .tresumeLock _ => ∃ tid, allows (.tresume tid) = true
  | _ => True

namespace Sys

def calls (s : Sys) : Label → Option Syscall
  | .run c x =>
      match (s.cpu c).proc, x.user with
      | some q, .call call => if s.pc q = .user then some call else none
      | _, _ => none
  | _ => none

def makes (allows : Syscall → Bool) (s : Sys) (label : Label) : Bool :=
  match s.calls label with
  | none => true
  | some call => allows call

/-- Each thread is outside every call, or inside one allowed to it. -/
def Within (allows : Slot → Syscall → Bool) (s : Sys) : Prop :=
  ∀ p, (s.pc p).base.within (allows p)

section Within

variable {allows : Slot → Syscall → Bool} {s next : Sys} {label : Label} {c : Cpu}
  {q : Slot} {x : Choice} {pc : Pc}

theorem within_entry {allows : Syscall → Bool} {call : Syscall}
    (h : allows call = true) : call.entry.base.within allows := by
  cases call
  case clone childStack => exact .inr ⟨_, h⟩
  case fork => exact .inl ⟨h, rfl⟩
  case tkill tid =>
    simp only [Syscall.entry]
    split
    · exact trivial
    · exact h
  case exit | other => exact trivial
  all_goals exact h

theorem within_tgkillReturn {allows : Syscall → Bool} {caller : TgkillCaller}
    (result : Int) (h : (Pc.tgkillLock caller).within allows) :
    (tgkillReturn caller result).base.within allows := by
  cases caller <;> first | exact h | exact trivial

/-- Every thread is where it was, or at a point allowed to it. -/
def Stays (allows : Slot → Syscall → Bool) (before after : Slot → Pc) : Prop :=
  ∀ p, (after p).base.within (allows p) ∨ after p = before p

theorem stays_setSlot {pcs : Slot → Pc} {resumed : Pc}
    (h : resumed.base.within (allows q)) :
    Stays allows pcs (setSlot pcs q resumed) := by
  intro p
  rw [setSlot_apply]
  split
  next heq =>
    rw [heq]
    exact .inl h
  next => exact .inr rfl

theorem Stays.trans {first second third : Slot → Pc}
    (hfirst : Stays allows first second) (hsecond : Stays allows second third) :
    Stays allows first third := by
  intro p
  rcases hsecond p with hp | hp
  · exact .inl hp
  · rw [hp]
    exact hfirst p

theorem stays_userAct {act : UserAct}
    (h : ∀ call, act = .call call → allows q call = true) :
    Stays allows s.pc (s.userAct q act).pc := by
  cases act with
  | call call =>
      apply stays_setSlot
      split
      · exact trivial
      · exact within_entry (h call rfl)
  | fault => exact stays_setSlot trivial

theorem stays_setup {np : Slot} {flags : Flags}
    (hends : s.SetupEnds q np flags next) (h : flags.allowed (allows q)) :
    Stays allows s.pc next.pc := by
  cases hends with
  | undone => exact stays_setSlot trivial
  | left => exact stays_setSlot trivial
  | done => exact stays_setSlot h

theorem stays_waitTurn {nullHit : Slot → Bool} (h : allows q .wait = true)
    (hturn : s.waitTurn c q nullHit = some next) :
    Stays allows s.pc next.pc := by
  cases waitTurns_of_waitTurn hturn with
  | reaped => exact stays_setSlot trivial
  | returned => exact stays_setSlot trivial
  | sleeps => exact stays_setSlot h

theorem stays_joinTurn {p : Slot} {tid : Int} {tleader : Option Slot}
    (h : allows q (.join tid) = true) :
    Stays allows s.pc (s.joinTurn c q p tid tleader).pc := by
  unfold joinTurn
  split
  · exact stays_setSlot trivial
  · split
    · exact stays_setSlot trivial
    · exact stays_setSlot h

theorem stays_tgkillTurn {caller : TgkillCaller}
    (h : (Pc.tgkillLock caller).within (allows q)) :
    Stays allows s.pc (s.tgkillTurn c q caller).pc := by
  unfold tgkillTurn
  dsimp only
  split
  · exact stays_setSlot (within_tgkillReturn 0 h)
  · split
    · exact stays_setSlot (within_tgkillReturn (-1) h)
    · refine stays_setSlot ?_
      cases caller <;> exact h

theorem stays_killFound (found : Option Slot) :
    Stays allows s.pc (s.killFound q found).pc := by
  cases found <;> exact stays_setSlot trivial

theorem stays_kernelAct {act : KernelAct}
    (h : s.kernelAct q act = some next) : Stays allows s.pc next.pc := by
  cases kernelActs_of_kernelAct h with
  | ret => exact stays_setSlot trivial
  | grow => exact stays_setSlot trivial
  | chdir => exact stays_setSlot trivial

theorem stays_exitFiles (h : s.exitFiles q = some next) :
    Stays allows s.pc next.pc := by
  obtain ⟨_, rfl⟩ := exitFiles_eq_some h
  exact stays_setSlot trivial

theorem stays_execLock {tleader : Option Slot} (hexec : allows q .exec = true)
    (h : s.execLock q tleader = some next) :
    Stays allows s.pc next.pc := by
  cases execLocks_of_execLock h with
  | leads => exact stays_setSlot hexec
  | handOff => exact stays_setSlot hexec

theorem stays_execLoad {image : Option (Frame × Nat)}
    (h : s.execLoad q image = some next) : Stays allows s.pc next.pc := by
  cases loads_of_execLoad h with
  | failed => exact stays_setSlot trivial
  | done => exact stays_setSlot trivial

theorem Acts.stays (hacts : s.Acts c q x pc next)
    (hcall : pc = .user → ∀ call, x.user = .call call → allows q call = true)
    (h : pc.base.within (allows q)) : Stays allows s.pc next.pc := by
  cases hacts with
  | user => exact stays_userAct (hcall rfl)
  | trapret =>
      apply stays_setSlot
      split <;> exact trivial
  | kernel hact => exact stays_kernelAct hact
  | forkret => exact stays_setSlot trivial
  | yielded => exact stays_setSlot h
  | asleep => exact stays_setSlot h
  | allocproc =>
      unfold Sys.allocproc
      split
      · exact stays_setSlot trivial
      · exact stays_setSlot h
  | @cloneKstack np flags childStack =>
      cases x.kalloc with
      | none => exact stays_setSlot trivial
      | some frame =>
          have hchild : Stays allows s.pc (setSlot s.pc np .forkret) :=
            stays_setSlot trivial
          exact hchild.trans (stays_setSlot h)
  | cloneSetup hsetup => exact stays_setup (setup_ends hsetup) h
  | cloneIds =>
      unfold Sys.cloneIds
      split <;> exact stays_setSlot trivial
  | clonePublish => exact stays_setSlot trivial
  | exitFiles hfiles => exact stays_exitFiles hfiles
  | exitGroup =>
      apply stays_setSlot
      split <;> exact trivial
  | exitLock => exact stays_setSlot trivial
  | waitLock _ hturn => exact stays_waitTurn h hturn
  | waitSlept _ hturn =>
      have hstays := stays_waitTurn h hturn
      exact hstays
  | joinScan =>
      unfold Sys.joinScan
      split
      · exact stays_setSlot trivial
      · split
        · exact stays_setSlot trivial
        · split
          · exact stays_setSlot trivial
          · exact stays_setSlot h
  | joinLock => exact stays_joinTurn h
  | joinSlept => exact stays_joinTurn h
  | killLock => exact stays_killFound _
  | tkillLock => exact stays_killFound _
  | @tgkillCheck caller =>
      have hlock : (Pc.tgkillLock caller).within (allows q) := by
        cases caller <;> exact h
      apply stays_setSlot
      split
      · exact hlock
      · exact within_tgkillReturn (-1) hlock
  | tgkillLock => exact stays_tgkillTurn h
  | @tgkillSlept caller =>
      apply stays_tgkillTurn
      cases caller <;> exact h
  | tsuspendCheck =>
      apply stays_setSlot
      split
      · exact trivial
      · exact h
  | tsuspendLock => exact stays_setSlot h
  | tsuspendSlept => exact stays_setSlot trivial
  | @tresumeScan tid =>
      unfold Sys.tresumeScan
      split
      · exact stays_setSlot trivial
      · split
        · exact stays_setSlot trivial
        · split
          · exact stays_setSlot trivial
          · exact stays_setSlot ⟨tid, h⟩
  | tresumeLock => exact stays_setSlot trivial
  | execLeader => exact stays_setSlot h
  | execLock _ hlock => exact stays_execLock h hlock
  | execLoad hload => exact stays_execLoad hload

theorem Leaves.stays (hleaves : s.Leaves c q label next)
    (h : s.Within allows) : Stays allows s.pc next.pc := by
  cases hleaves with
  | killed => exact stays_setSlot trivial
  | preempt => exact stays_setSlot (h q)
  | block => exact stays_setSlot (h q)

theorem Within.step (h : s.Within allows)
    (hcalls : ∀ q call, s.acting label = some q → s.calls label = some call →
      allows q call = true)
    (hstep : s.step label = some next) : next.Within allows := by
  have hstays : Stays allows s.pc next.pc := by
    cases does_of_step hstep with
    | leaves _ hleaves => exact hleaves.stays h
    | @acts c q x next hq hacts =>
        refine hacts.stays (fun hpc call hcall => hcalls q call hq ?_) (h _)
        simp [calls, hq, hpc, hcall]
    | _ => exact fun _ => .inr rfl
  intro p
  rcases hstays p with hp | hp
  · exact hp
  · rw [hp]
    exact h p

theorem Within.makes {allows : Syscall → Bool} (h : s.Within fun _ => allows)
    (hguard : s.makes allows label = true)
    (hstep : s.step label = some next) : next.Within fun _ => allows := by
  refine h.step (fun q call _ hcall => ?_) hstep
  simpa only [Sys.makes, hcall] using hguard

theorem userinit_within (kstack pgdir : Frame) :
    (userinit kstack pgdir).Within allows := by
  intro p
  simp only [userinit, setSlot_apply]
  split <;> exact trivial

end Within

end Sys

end KernelThreads
