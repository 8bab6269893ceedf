import Mathlib.Data.List.Nodup
import KernelThreads.Lib.Transition

namespace KernelThreads.Sync

open Lib

/-! The spinlocks of `spinlock.c` on any number of CPUs.  A step is one write to a lock,
or one test of `holding`, with what the CPU does by itself around it. -/

variable {Cpu Lock : Type}

/-- The flag `FL_IF`, and the fields of `struct cpu` that belong to it. -/
structure Cli where
  ifl : Bool
  ncli : Int := 0
  intena : Bool := false

inductive CliPanic where
  | interruptible | popcli
  deriving DecidableEq

namespace Cli

def pushcli (k : Cli) : Cli where
  ifl := false
  ncli := k.ncli + 1
  intena := if k.ncli = 0 then k.ifl else k.intena

def popcli (k : Cli) : Except CliPanic Cli :=
  if k.ifl then .error .interruptible
  else if k.ncli - 1 < 0 then .error .popcli
  else
    .ok { k with
      ncli := k.ncli - 1
      ifl := k.ncli - 1 = 0 ∧ k.intena = true }

/-- What `holding` does besides its test. -/
def holding (k : Cli) : Except CliPanic Cli := k.pushcli.popcli

/-- Interrupts are off at a positive depth, and will be as they were. -/
structure Nests (k : Cli) (depth : Nat) (flag : Bool) : Prop where
  ncli : k.ncli = depth
  outside : depth = 0 → k.ifl = flag
  inside : depth ≠ 0 → k.ifl = false ∧ k.intena = flag

namespace Nests

variable {k : Cli} {depth : Nat} {flag : Bool}

theorem pushcli (h : k.Nests depth flag) : k.pushcli.Nests (depth + 1) flag where
  ncli := by rw [Cli.pushcli, h.ncli, Int.natCast_succ]
  outside hzero := by contradiction
  inside _ := by
    refine ⟨rfl, ?_⟩
    rw [Cli.pushcli, h.ncli]
    by_cases hzero : depth = 0
    · rw [if_pos (by omega), h.outside hzero]
    · rw [if_neg (by omega), (h.inside hzero).2]

theorem popcli (h : k.Nests (depth + 1) flag) :
    ∃ after, k.popcli = .ok after ∧ after.Nests depth flag := by
  obtain ⟨hoff, hintena⟩ := h.inside (Nat.succ_ne_zero depth)
  have hncli := h.ncli
  rw [Cli.popcli, hoff, if_neg Bool.false_ne_true, if_neg (by omega)]
  refine ⟨_, rfl, by dsimp only; omega, fun hzero => ?_, fun hpos => ⟨?_, hintena⟩⟩
  · rw [hintena]
    cases flag <;> simp [hncli, hzero]
  · simp only [decide_eq_false_iff_not, not_and]
    omega

theorem holding (h : k.Nests depth flag) :
    ∃ after, k.holding = .ok after ∧ after.Nests depth flag := h.pushcli.popcli

end Nests

end Cli

structure SpinLock (Cpu : Type) where
  locked : Bool := false
  cpu : Option Cpu := none

inductive SpinPanic (Lock : Type) where
  | acquire (lk : Lock)
  | release (lk : Lock)
  | cli (panic : CliPanic)
  deriving DecidableEq

/-- Where a CPU is in `acquire` and `release`: before `xchg` has returned 0, before
`lk->cpu = mycpu()`, before `lk->cpu = 0`, before `lk->locked = 0`, before `popcli`. -/
inductive SpinPc (Lock : Type) where
  | running
  | spinning (lk : Lock)
  | taken (lk : Lock)
  | releasing (lk : Lock)
  | dropping (lk : Lock)
  | dropped
  | panicked (panic : SpinPanic Lock)
  deriving DecidableEq

inductive SpinAct (Lock : Type) where
  | acquire (lk : Lock)
  | release (lk : Lock)
  | pushcli
  | popcli
  /-- Go on with `acquire` or `release`. -/
  | go
  /-- `sti`, `cli`, a trap or its return; inside one `pushcli`, the end of `sched`, where
  the CPU gets the `intena` of another process. -/
  | outside (flag : Bool)

structure SpinCpu (Lock : Type) where
  cli : Cli
  pc : SpinPc Lock := .running
  /-- The locks that it has taken and not given back. -/
  held : List Lock := []
  /-- Its calls of `pushcli` that have no `popcli` yet. -/
  pushed : Nat := 0
  /-- What `FL_IF` is when `ncli` is 0. -/
  flag : Bool

structure SpinSys (Cpu Lock : Type) where
  lock : Lock → SpinLock Cpu
  cpu : Cpu → SpinCpu Lock

/-- The lock that a CPU has while its field `cpu` is 0. -/
@[simp]
def SpinPc.unrecorded : SpinPc Lock → Option Lock
  | .taken lk | .dropping lk => some lk
  | _ => none

namespace SpinCpu

/-- Go on at `pc`, unless `popcli` panics. -/
def after (me : SpinCpu Lock) (cli : Except CliPanic Cli) (pc : SpinPc Lock) : SpinCpu Lock :=
  match cli with
  | .error panic => { me with pc := .panicked (.cli panic) }
  | .ok cli => { me with cli := cli, pc := pc }

/-- `popcli`, with `pushed` calls of `pushcli` left. -/
def leave (me : SpinCpu Lock) (pushed : Nat) : SpinCpu Lock :=
  { me.after me.cli.popcli .running with pushed := pushed }

/-- How deep in calls of `pushcli` the CPU is. -/
@[simp]
def depth (me : SpinCpu Lock) : Nat :=
  me.held.length + me.pushed + match me.pc with
    | .spinning _ | .dropped | .panicked (.acquire _) => 1
    | _ => 0

@[simp]
def Records (me : SpinCpu Lock) (lk : Lock) : Prop :=
  lk ∈ me.held ∧ me.pc.unrecorded ≠ some lk

structure Sound (me : SpinCpu Lock) : Prop where
  cli : me.cli.Nests me.depth me.flag
  nodup : me.held.Nodup
  busy : ∀ lk, me.pc = .taken lk ∨ me.pc = .releasing lk ∨ me.pc = .dropping lk → lk ∈ me.held
  panic : ∀ p, me.pc = .panicked p →
    ∃ lk, p = .acquire lk ∧ lk ∈ me.held ∨ p = .release lk ∧ lk ∉ me.held

end SpinCpu

namespace SpinSys

section Steps

variable [DecidableEq Cpu] [DecidableEq Lock]

def setCpu (s : SpinSys Cpu Lock) (c : Cpu) (me : SpinCpu Lock) : SpinSys Cpu Lock :=
  { s with cpu := Function.update s.cpu c me }

def setLock (s : SpinSys Cpu Lock) (lk : Lock) (lock : SpinLock Cpu) : SpinSys Cpu Lock :=
  { s with lock := Function.update s.lock lk lock }

/-- The test of `holding`. -/
def holding (s : SpinSys Cpu Lock) (c : Cpu) (lk : Lock) : Bool :=
  (s.lock lk).locked && (s.lock lk).cpu = some c

/-- A CPU calls `popcli` only to undo a `pushcli` of its own. -/
def step (s : SpinSys Cpu Lock) (label : Cpu × SpinAct Lock) : Option (SpinSys Cpu Lock) :=
  let c := label.1
  let me := s.cpu c
  match me.pc, label.2 with
  | .running, .acquire lk =>
      some (s.setCpu c (me.after me.cli.pushcli.holding
        (if s.holding c lk then .panicked (.acquire lk) else .spinning lk)))
  | .spinning lk, .go =>
      if (s.lock lk).locked then some s
      else
        some ((s.setLock lk { s.lock lk with locked := true }).setCpu c
          { me with pc := .taken lk, held := lk :: me.held })
  | .taken lk, .go =>
      some ((s.setLock lk { s.lock lk with cpu := some c }).setCpu c { me with pc := .running })
  | .running, .release lk =>
      some (s.setCpu c (me.after me.cli.holding
        (if s.holding c lk then .releasing lk else .panicked (.release lk))))
  | .releasing lk, .go =>
      some ((s.setLock lk { s.lock lk with cpu := none }).setCpu c { me with pc := .dropping lk })
  | .dropping lk, .go =>
      some ((s.setLock lk { s.lock lk with locked := false }).setCpu c
        { me with pc := .dropped, held := me.held.erase lk })
  | .dropped, .go => some (s.setCpu c (me.leave me.pushed))
  | .running, .pushcli =>
      some (s.setCpu c { me with cli := me.cli.pushcli, pushed := me.pushed + 1 })
  | .running, .popcli =>
      if me.pushed = 0 then none
      else some (s.setCpu c (me.leave (me.pushed - 1)))
  | .running, .outside flag =>
      if me.cli.ncli = 0 then
        some (s.setCpu c { me with cli := { me.cli with ifl := flag }, flag := flag })
      else if me.cli.ncli = 1 then
        some (s.setCpu c { me with cli := { me.cli with intena := flag }, flag := flag })
      else none
  | _, _ => none

end Steps

/-- Every lock is free, and interrupts are on where `flags` says so. -/
def start (flags : Cpu → Bool) : SpinSys Cpu Lock where
  lock _ := {}
  cpu c := { cli := { ifl := flags c }, flag := flags c }

structure Sound (s : SpinSys Cpu Lock) : Prop where
  cpu : ∀ c, (s.cpu c).Sound
  exclusive : ∀ lk c d, lk ∈ (s.cpu c).held → lk ∈ (s.cpu d).held → c = d
  locked : ∀ lk, (s.lock lk).locked = true ↔ ∃ c, lk ∈ (s.cpu c).held
  owner : ∀ lk c, (s.lock lk).cpu = some c ↔ (s.cpu c).Records lk

namespace Sound

variable {s next : SpinSys Cpu Lock} {c : Cpu} {me : SpinCpu Lock} {lk : Lock}

theorem start (flags : Cpu → Bool) : (start flags : SpinSys Cpu Lock).Sound where
  cpu _ := ⟨⟨rfl, fun _ => rfl, fun hne => absurd rfl hne⟩, .nil, by simp [SpinSys.start],
    by simp [SpinSys.start]⟩
  exclusive := by simp [SpinSys.start]
  locked := by simp [SpinSys.start]
  owner := by simp [SpinSys.start]

theorem others (h : s.Sound) (hheld : lk ∈ (s.cpu c).held) (d : Cpu) (hd : d ≠ c) :
    lk ∉ (s.cpu d).held := fun hlk => hd (h.exclusive lk d c hlk hheld)

variable [DecidableEq Cpu]

/-- One CPU moves: a lock is as before, to the CPU too, or no other CPU has it. -/
theorem turn (h : s.Sound) (hcpu : ∀ d, next.cpu d = if d = c then me else s.cpu d)
    (hme : me.Sound)
    (hlock : ∀ lk,
      next.lock lk = s.lock lk ∧ (lk ∈ me.held ↔ lk ∈ (s.cpu c).held) ∧
          (me.Records lk ↔ (s.cpu c).Records lk) ∨
        (∀ d, d ≠ c → lk ∉ (s.cpu d).held) ∧
          ((next.lock lk).locked = true ↔ lk ∈ me.held) ∧
          ∀ d, (next.lock lk).cpu = some d ↔ d = c ∧ me.Records lk) : next.Sound where
  cpu d := by
    rw [hcpu]
    split
    · exact hme
    · exact h.cpu d
  exclusive lk a b ha hb := by
    have := h.exclusive lk
    rcases hlock lk with hlk | hlk <;> grind
  locked lk := by
    have := h.locked lk
    rcases hlock lk with hlk | hlk <;> grind
  owner lk d := by
    have := h.owner lk d
    have : (s.cpu d).Records lk → lk ∈ (s.cpu d).held := And.left
    rcases hlock lk with hlk | hlk <;> grind

theorem holding_iff (h : s.Sound) (lk : Lock) (hrunning : (s.cpu c).pc = .running) :
    s.holding c lk = true ↔ lk ∈ (s.cpu c).held := by
  have hlocked := h.locked lk
  have howner := h.owner lk c
  simp only [SpinCpu.Records, hrunning, SpinPc.unrecorded] at howner
  rw [SpinSys.holding]
  grind

/-- A CPU moves by itself, away from the fields of the locks. -/
theorem alone (h : s.Sound) (hme : me.Sound) (hheld : me.held = (s.cpu c).held)
    (hpc : me.pc.unrecorded = (s.cpu c).pc.unrecorded) : (s.setCpu c me).Sound :=
  h.turn (fun _ => Function.update_apply ..) hme fun lk => .inl
    ⟨rfl, by rw [hheld], by rw [SpinCpu.Records, SpinCpu.Records, hheld, hpc]⟩

theorem leave (h : s.Sound) {pushed : Nat} (hpc : (s.cpu c).pc.unrecorded = none)
    (hdepth : (s.cpu c).depth = (s.cpu c).held.length + pushed + 1) :
    (s.setCpu c ((s.cpu c).leave pushed)).Sound := by
  obtain ⟨cli, hok, hnests⟩ := (hdepth ▸ (h.cpu c).cli).popcli
  simp only [SpinCpu.leave, hok, SpinCpu.after]
  exact h.alone ⟨hnests, (h.cpu c).nodup, by simp, by simp⟩ rfl hpc.symm

variable [DecidableEq Lock]

/-- A CPU writes a field of a lock that no other CPU has. -/
theorem writes (h : s.Sound) {lock : SpinLock Cpu} (hme : me.Sound)
    (hfree : ∀ d, d ≠ c → lk ∉ (s.cpu d).held)
    (hother : ∀ l, l ≠ lk → (l ∈ me.held ↔ l ∈ (s.cpu c).held) ∧
      (me.Records l ↔ (s.cpu c).Records l))
    (hlocked : lock.locked = true ↔ lk ∈ me.held)
    (hcpu : ∀ d, lock.cpu = some d ↔ d = c ∧ me.Records lk) :
    ((s.setLock lk lock).setCpu c me).Sound := by
  refine h.turn (fun _ => Function.update_apply ..) hme fun l => ?_
  by_cases hl : l = lk
  · subst hl
    refine .inr ⟨hfree, ?_⟩
    rw [show ((s.setLock l lock).setCpu c me).lock l = lock from Function.update_self ..]
    exact ⟨hlocked, hcpu⟩
  · exact .inl ⟨Function.update_of_ne hl .., hother l hl⟩

theorem step (h : s.Sound) {label : Cpu × SpinAct Lock} (hstep : s.step label = some next) :
    next.Sound := by
  obtain ⟨c, act⟩ := label
  obtain ⟨hcli, hnodup, hbusy, _⟩ := h.cpu c
  rw [SpinSys.step] at hstep
  dsimp only at hstep
  split at hstep <;> rename_i hpc
  case h_1 lk => -- `acquire`
    obtain ⟨cli, hok, hnests⟩ := hcli.pushcli.holding
    have hholding := h.holding_iff lk hpc
    cases hstep
    simp only [hok, SpinCpu.after]
    split
    all_goals
      refine h.alone ⟨?_, hnodup, by simp, by simp_all⟩ rfl (by rw [hpc]; rfl)
      simpa [hpc] using hnests
  case h_2 lk => -- `xchg`
    split at hstep <;> cases hstep
    · exact h
    · rename_i hlocked
      have hfree : ∀ d, lk ∉ (s.cpu d).held :=
        fun d hlk => hlocked ((h.locked lk).mpr ⟨d, hlk⟩)
      refine h.writes ⟨?_, hnodup.cons (hfree c), by simp, by simp⟩ (fun d _ => hfree d)
        (fun l hl => ?_) (by simp) fun d => ?_
      · simpa [hpc, Nat.add_right_comm] using hcli
      · simp [hpc, hl, Ne.symm hl]
      · rw [h.owner lk d]
        simp [hfree d]
  case h_3 lk => -- `lk->cpu = mycpu()`
    have hheld := hbusy lk (.inl hpc)
    cases hstep
    refine h.writes ⟨?_, hnodup, by simp, by simp⟩ (h.others hheld) (fun l hl => ⟨.rfl, ?_⟩)
      ⟨fun _ => hheld, fun _ => (h.locked lk).mpr ⟨c, hheld⟩⟩ fun d => ?_
    · simpa [hpc] using hcli
    · simp [hpc, Ne.symm hl]
    · simp [hheld, eq_comm]
  case h_4 lk => -- `release`
    obtain ⟨cli, hok, hnests⟩ := hcli.holding
    have hholding := h.holding_iff lk hpc
    cases hstep
    simp only [hok, SpinCpu.after]
    split
    all_goals
      refine h.alone ⟨?_, hnodup, by simp_all, by simp_all⟩ rfl (by rw [hpc]; rfl)
      simpa [hpc] using hnests
  case h_5 lk => -- `lk->cpu = 0`
    have hheld := hbusy lk (.inr (.inl hpc))
    cases hstep
    refine h.writes ⟨?_, hnodup, by simpa using hheld, by simp⟩ (h.others hheld)
      (fun l hl => ⟨.rfl, ?_⟩) ⟨fun _ => hheld, fun _ => (h.locked lk).mpr ⟨c, hheld⟩⟩
      fun d => by simp
    · simpa [hpc] using hcli
    · simp [hpc, Ne.symm hl]
  case h_6 lk => -- `lk->locked = 0`
    have hheld := hbusy lk (.inr (.inr hpc))
    have hlength := List.length_erase_add_one hheld
    cases hstep
    refine h.writes ⟨?_, hnodup.erase lk, by simp, by simp⟩ (h.others hheld) (fun l hl => ?_)
      (by simp [hnodup.not_mem_erase]) fun d => ?_
    · simp only [SpinCpu.depth, hpc, ← hlength] at hcli ⊢
      simpa [Nat.add_right_comm] using hcli
    · simp [hpc, Ne.symm hl, List.mem_erase_of_ne hl]
    · rw [h.owner lk d]
      by_cases hd : d = c
      · simp [hd, hpc, hnodup.not_mem_erase]
      · simp [hd, h.others hheld d hd]
  case h_7 =>
    cases hstep
    exact h.leave (by rw [hpc]; rfl) (by simp [hpc])
  case h_8 =>
    cases hstep
    refine h.alone ⟨?_, hnodup, hbusy, by simp [hpc]⟩ rfl rfl
    simpa [hpc, Nat.add_assoc] using hcli.pushcli
  case h_9 =>
    split at hstep <;> cases hstep
    refine h.leave (by rw [hpc]; rfl) ?_
    simp only [SpinCpu.depth, hpc]
    omega
  case h_10 flag =>
    have hncli := hcli.ncli
    split at hstep
    · have hzero : (s.cpu c).depth = 0 := by omega
      cases hstep
      exact h.alone ⟨⟨hncli, fun _ => rfl, fun hne => absurd hzero hne⟩, hnodup, hbusy,
        by simp [hpc]⟩ rfl rfl
    · have hone : (s.cpu c).depth ≠ 0 := by omega
      split at hstep <;> cases hstep
      exact h.alone ⟨⟨hncli, fun hzero => absurd hzero hone,
        fun _ => ⟨(hcli.inside hone).1, rfl⟩⟩, hnodup, hbusy, by simp [hpc]⟩ rfl rfl
  case h_11 => contradiction

end Sound

variable [DecidableEq Cpu] [DecidableEq Lock] {flags : Cpu → Bool} {s : SpinSys Cpu Lock}

theorem reach_sound (hreach : Reach step (fun _ _ => True) (start flags) s) : s.Sound :=
  hreach.invariant Sound (.start flags) fun h _ hstep => h.step hstep

/-- A lock has one holder at a time, `holding` is true for it alone, and no CPU panics
except to take a lock that it has or to give back one that it has not. -/
theorem spinlock_exclusive (hreach : Reach step (fun _ _ => True) (start flags) s) :
    (∀ lk c d, lk ∈ (s.cpu c).held → lk ∈ (s.cpu d).held → c = d) ∧
      (∀ lk c, (s.cpu c).pc = .running → (s.holding c lk = true ↔ lk ∈ (s.cpu c).held)) ∧
      ∀ c p, (s.cpu c).pc = .panicked p →
        ∃ lk, p = .acquire lk ∧ lk ∈ (s.cpu c).held ∨ p = .release lk ∧ lk ∉ (s.cpu c).held := by
  have h := reach_sound hreach
  exact ⟨h.exclusive, fun lk c => h.holding_iff lk, fun c => (h.cpu c).panic⟩

/-- CPU `true` waits for the lock that CPU `false` has. -/
theorem contended : ∃ s : SpinSys Bool Unit,
    Reach step (fun _ _ => True) (start fun _ => true) s ∧ (s.cpu false).held = [()] ∧
      (s.cpu false).pc = .running ∧ (s.cpu false).pushed = 0 ∧
      (s.cpu true).pc = .spinning () := by
  have hrun : ((run step (fun _ _ => true) (start fun _ => true)
      [(false, .acquire ()), (true, .acquire ()), (false, .go), (true, .go), (false, .go)]).any
      fun s : SpinSys Bool Unit => (s.cpu false).held = [()] ∧ (s.cpu false).pc = .running ∧
        (s.cpu false).pushed = 0 ∧ (s.cpu true).pc = .spinning ()) = true := by
    decide +kernel
  obtain ⟨s, hreach, hend⟩ := reach_of_run_any hrun
  exact ⟨s, hreach.mono fun _ _ _ => trivial, hend⟩

theorem spinlock_exclusive_contended : ∃ s : SpinSys Bool Unit,
    s.holding false () = true ∧ (s.cpu true).pc = .spinning () := by
  obtain ⟨s, hreach, hheld, hrunning, _, hspinning⟩ := contended
  refine ⟨s, ((spinlock_exclusive hreach).2.1 () false hrunning).mpr ?_, hspinning⟩
  simp [hheld]

/-- Interrupts are off on a CPU that has or waits for a lock, and as they were outside
once it has given back its last one. -/
theorem spinlock_masks_interrupts
    (hreach : Reach step (fun _ _ => True) (start flags) s) (c : Cpu) :
    (s.cpu c).cli.ncli = (s.cpu c).depth ∧
      ((s.cpu c).depth ≠ 0 → (s.cpu c).cli.ifl = false) ∧
      ((s.cpu c).depth = 0 → (s.cpu c).cli.ifl = (s.cpu c).flag) := by
  have h := ((reach_sound hreach).cpu c).cli
  exact ⟨h.ncli, fun hne => (h.inside hne).1, h.outside⟩

theorem spinlock_masks_interrupts_contended : ∃ s : SpinSys Bool Unit,
    (s.cpu false).held = [()] ∧ (s.cpu false).cli.ncli = 1 ∧ (s.cpu true).cli.ifl = false := by
  obtain ⟨s, hreach, hheld, hrunning, hpushed, hspinning⟩ := contended
  refine ⟨s, hheld, ?_, (spinlock_masks_interrupts hreach true).2.1 ?_⟩
  · simp [(spinlock_masks_interrupts hreach false).1, hheld, hrunning, hpushed]
  · simp [hspinning]

end SpinSys

end KernelThreads.Sync
