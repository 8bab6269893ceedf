import KernelThreads.Sched.Step

namespace KernelThreads

open Lib

namespace Sys

/-! What the unlocked middle of `clone` does to the slot it builds. -/

def Setup.proc : Setup → Proc
  | .done p _ => p
  | .undone p => p
  | .left p _ => p

/-- The memory part leaves identity and kernel stack alone and sets the
parent. -/
structure Builds (t : Table) (tleader np : Slot) (flags : Flags) (p : Proc) :
    Prop where
  state : p.state = (t np).state
  pid : p.pid = (t np).pid
  tid : p.tid = (t np).tid
  killed : p.killed = (t np).killed
  kstack : p.kstack = (t np).kstack
  cwd : p.cwd = (t np).cwd
  chan : p.chan = (t np).chan
  parent : p.parent =
    if flags.has CLONE_PARENT then (t tleader).parent else some tleader

def BuildsDir (t : Table) (tleader : Slot) (flags : Flags) (p : Proc)
    (dir : Option Frame) : Prop :=
  if flags.has CLONE_VM then p.pgdir = (t tleader).pgdir ∧ dir = none
  else ∃ made, p.pgdir = some made ∧ dir = some made

theorem setupVm_builds {t : Table} {q tleader np : Slot} {flags : Flags}
    {childStack : Nat} {vm : VmResult} {result : Setup}
    (h : setupVm t q tleader np flags childStack vm = some result) :
    Builds t tleader np flags result.proc := by
  unfold setupVm at h
  dsimp only at h
  split at h
  · cases vm <;> simp only at h
    case ok => cases h; constructor <;> simp only [Setup.proc] <;> split <;> rfl
    case cloneuvmFails =>
      split at h
      · cases h; constructor <;> rfl
      · contradiction
    case copyoutFails =>
      cases h; constructor <;> simp only [Setup.proc] <;> split <;> rfl
    all_goals contradiction
  · cases vm <;> simp only at h
    case ok => cases h; constructor <;> rfl
    case copyuvmFails => cases h; constructor <;> rfl
    case stackCopyFails =>
      split at h
      · cases h; constructor <;> rfl
      · contradiction
    all_goals contradiction

theorem setupVm_done {t : Table} {q tleader np : Slot} {flags : Flags}
    {childStack : Nat} {vm : VmResult} {p : Proc} {dir : Option Frame}
    (h : setupVm t q tleader np flags childStack vm = some (.done p dir)) :
    BuildsDir t tleader flags p dir := by
  unfold setupVm at h
  dsimp only at h
  unfold BuildsDir
  split at h
  next hvm =>
    rw [if_pos hvm]
    cases vm <;> simp only at h
    case ok => cases h; exact ⟨by split <;> rfl, rfl⟩
    case cloneuvmFails => split at h <;> cases h
    all_goals cases h
  next hvm =>
    rw [if_neg hvm]
    cases vm <;> simp only at h
    case ok made _ => cases h; exact ⟨made, rfl, rfl⟩
    case stackCopyFails => split at h <;> cases h
    all_goals cases h

theorem setupVm_left {t : Table} {q tleader np : Slot} {flags : Flags}
    {childStack : Nat} {vm : VmResult} {p : Proc} {dir : Frame}
    (h : setupVm t q tleader np flags childStack vm = some (.left p dir)) :
    flags.has CLONE_VM = false ∧ p.pgdir = some dir := by
  unfold setupVm at h
  dsimp only at h
  split at h
  next =>
    cases vm <;> simp only at h
    case cloneuvmFails => split at h <;> cases h
    all_goals cases h
  next hvm =>
    cases vm <;> simp only at h
    case stackCopyFails =>
      split at h
      · cases h; exact ⟨by simpa using hvm, rfl⟩
      · contradiction
    all_goals cases h

inductive SetupEnds (s : Sys) (q np : Slot) (flags : Flags) : Sys → Prop
  | undone (hleader : s.proc.threadLeader q = some tleader)
      (hbuilds : Builds s.proc tleader np flags p) :
      SetupEnds s q np flags ((s.setProc np (undo p)).goto q (.trapret (-1)))
  | left (hleader : s.proc.threadLeader q = some tleader)
      (hbuilds : Builds s.proc tleader np flags p)
      (hvm : flags.has CLONE_VM = false) (hdir : p.pgdir = some dir)
      (hfree : s.dirs dir = false) :
      SetupEnds s q np flags
        ({ s.setProc np p with dirs := s.addDir (some dir) }.goto q
          (.trapret (-1)))
  | done (hleader : s.proc.threadLeader q = some tleader)
      (hbuilds : Builds s.proc tleader np flags p)
      (hdir : BuildsDir s.proc tleader flags p dir)
      (hfree : s.dirFree dir = true)
      (hcwd : s.cloneCwd q flags p = (built, refs)) :
      SetupEnds s q np flags
        ({ s.setProc np built with dirs := s.addDir dir, iref := refs }.goto q
          (.cloneIds np flags))

theorem setup_ends {s next : Sys} {q np : Slot} {flags : Flags}
    {childStack : Nat} {vm : VmResult}
    (h : s.cloneSetup q np flags childStack vm = some next) :
    s.SetupEnds q np flags next := by
  unfold cloneSetup at h
  split at h
  next => contradiction
  next tleader hleader =>
    split at h
    next => contradiction
    next p hvm =>
      cases h
      exact .undone hleader (setupVm_builds hvm)
    next p dir hvm =>
      split at h
      next hfree =>
        cases h
        obtain ⟨hflag, hdir⟩ := setupVm_left hvm
        refine .left hleader (setupVm_builds hvm) hflag hdir ?_
        simpa [dirFree] using hfree
      next => contradiction
    next p dir hvm =>
      split at h
      next hfree =>
        cases h
        exact .done hleader (setupVm_builds hvm) (setupVm_done hvm) hfree rfl
      next => contradiction

theorem cloneCwd_cases {s : Sys} {q : Slot} {flags : Flags} {p built : Proc}
    {refs : Nat → Nat} (h : s.cloneCwd q flags p = (built, refs)) :
    (built = { p with cwd := (s.proc q).cwd } ∧ refs = idup s.iref (s.proc q).cwd) ∨
    (flags.has CLONE_FS = false ∧ built = p ∧ refs = s.iref) := by
  unfold cloneCwd at h
  split at h
  · cases h
    exact .inl ⟨rfl, rfl⟩
  next hfs =>
    cases h
    exact .inr ⟨by simpa using hfs, rfl, rfl⟩

theorem cloneCwd_builds {s : Sys} {q tleader np : Slot} {flags : Flags}
    {p built : Proc} {refs : Nat → Nat}
    (h : s.cloneCwd q flags p = (built, refs))
    (hbuilds : Builds s.proc tleader np flags p) :
    built.state = (s.proc np).state ∧ built.pid = (s.proc np).pid ∧
      built.tid = (s.proc np).tid ∧ built.killed = (s.proc np).killed ∧
      built.kstack = (s.proc np).kstack ∧ built.pgdir = p.pgdir ∧
      built.parent = p.parent := by
  obtain ⟨rfl, _⟩ | ⟨_, rfl, _⟩ := cloneCwd_cases h
  all_goals
    exact ⟨hbuilds.state, hbuilds.pid, hbuilds.tid, hbuilds.killed,
      hbuilds.kstack, rfl, rfl⟩

theorem cloneIds_proc (s : Sys) (q np : Slot) (flags : Flags) :
    ∃ value, (s.cloneIds q np flags).proc = setSlot s.proc np value ∧
      (value.tid = (s.proc np).pid ∨ value.tid = -1) := by
  unfold cloneIds
  split
  · exact ⟨_, rfl, .inl rfl⟩
  · exact ⟨_, rfl, .inr rfl⟩

end Sys

end KernelThreads
