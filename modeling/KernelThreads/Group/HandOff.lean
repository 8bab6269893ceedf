import KernelThreads.Proc.Tree
import KernelThreads.Sched.System

namespace KernelThreads

open Lib

namespace Sys

/-! The hand-off of leadership in `exec`, and the `tgkill` that follows it. -/

/-- `tgkill` by `q`, from the start of its loop to its return of 0.  While it
sleeps the table becomes any one in which `q` has kept its `pid` and no other
slot leads with it.  `exec` drops the result, so it is read where the system
call has it. -/
inductive TgkillZero (q : Slot) : Sys → Sys → Prop
  | returns {s : Sys} (c : Cpu)
      (hzero : (s.tgkillTurn c q .syscall).pc q = .trapret 0) :
      TgkillZero q s (s.tgkillTurn c q .syscall)
  | sleeps {s next : Sys} (c : Cpu) (woken : Sys)
      (hsleeps : (s.tgkillTurn c q .syscall).pc q = .tgkillSlept .syscall)
      (hleads : (woken.tidy q).proc.LeadsAlone q)
      (hpid : ((woken.tidy q).proc q).pid = (s.proc q).pid)
      (hrest : TgkillZero q (woken.tidy q) next) : TgkillZero q s next

variable {s next : Sys} {q p : Slot}

theorem tgkillLive_of_zero {c : Cpu}
    (hzero : (s.tgkillTurn c q .syscall).pc q = .trapret 0) :
    s.proc.tgkillLive q = none ∧
      (s.tgkillTurn c q .syscall).proc = s.proc.tgkillReap q := by
  unfold tgkillTurn at hzero ⊢
  cases hlive : s.proc.tgkillLive q with
  | none => exact ⟨rfl, rfl⟩
  | some live =>
      simp only [hlive] at hzero
      split at hzero <;> simp [tgkillReturn, sleep] at hzero

theorem TgkillZero.alone (hzero : TgkillZero q s next) (hleads : s.proc.LeadsAlone q) :
    next.proc.Live p ∧ (next.proc p).pid = (s.proc q).pid ↔ p = q := by
  induction hzero with
  | returns c hzero =>
      obtain ⟨hnone, hproc⟩ := tgkillLive_of_zero hzero
      rw [hproc]
      exact hleads.alone hnone
  | sleeps c woken _ hwakes hpid _ ih =>
      rw [← hpid]
      exact ih hwakes

/-- The first locked section of `exec`, called by a peer, keeps the group and
the process tree; the `tgkill` that follows leaves it alone in its group. -/
theorem exec_hand_off {leader : Slot} (h : s.proc.WellFormed) (hlive : s.proc.Live q)
    (hpeer : (s.proc q).tid ≠ -1) (hparent : (s.proc q).parent = some leader)
    (hpid : (s.proc q).pid ≠ 0) (hself : (s.proc leader).parent ≠ some leader) :
    ∃ next, s.execLock q (s.proc.threadLeader q) = some next ∧
      s.proc.HandedOff next.proc q leader ∧ next.proc.WellFormed ∧
      ∀ final, TgkillZero q (next.tgkillMark q) final →
        ∀ p, final.proc.Live p ∧ (final.proc p).pid = (s.proc q).pid ↔
          p = q := by
  have hsucceeds : s.proc.Succeeds q leader := ⟨hlive, hpeer, hparent⟩
  have hexec : s.execLock q (s.proc.threadLeader q) =
      some ({ s with proc := s.proc.handOff q leader }.finish q
        (.tgkillCheck .exec)) := by
    simp only [execLock, Table.threadLeader, if_neg hpeer, hparent]
  have hwell := h.handOff hpid hself hsucceeds
  refine ⟨_, hexec, h.handedOff hself hsucceeds, hwell, fun final hzero p => ?_⟩
  have hkept : ((s.proc.handOff q leader).tgkillMark q q).pid = (s.proc q).pid :=
    (Table.tgkillMark_same q).1.trans (Table.handOff_pid q)
  rw [← hkept]
  exact hzero.alone (hwell.handOff_leadsAlone hsucceeds).mark

def threeSlots (pid : Int) : Table := fun p =>
  if p = 0 then { state := .sleeping, pid := 1, tid := -1 }
  else if p = 1 then
    { state := .sleeping, pid := pid, tid := -1, parent := some 0 }
  else if p = 2 then
    { state := .running, pid := pid, tid := 7, parent := some 1 }
  else if p = 3 then
    { state := .zombie, pid := 8, tid := -1, parent := some 1 }
  else {}

/-- The thread waits in `tgkill` until the old leader is a zombie. -/
theorem exec_hand_off_threeSlots :
    ∃ next final, { userinit 1 2 with proc := threeSlots 5 }.execLock 2
        (Table.threadLeader (threeSlots 5) 2) = some next ∧
      (threeSlots 5).HandedOff next.proc 2 1 ∧ next.proc.WellFormed ∧
        (next.proc 3).parent = some 2 ∧ TgkillZero 2 (next.tgkillMark 2) final ∧
          ∀ p, final.proc.Live p ∧ (final.proc p).pid = 5 ↔ p = 2 := by
  obtain ⟨next, hnext, hhanded, hwell, halone⟩ :=
    exec_hand_off (s := { userinit 1 2 with proc := threeSlots 5 }) (q := 2)
      (by decide +kernel) (by decide) (by decide)
      (show (threeSlots 5 2).parent = some 1 from rfl) (by decide) (by decide)
  have hzero : ∃ final, TgkillZero 2 (next.tgkillMark 2) final := by
    cases hnext
    let marked := Sys.tgkillMark ({ userinit 1 2 with
      proc := (threeSlots 5).handOff 2 1 }.finish 2 (.tgkillCheck .exec)) 2
    let woken := marked.setProc 1 { marked.proc 1 with state := .zombie }
    exact ⟨_, .sleeps 0 woken (by decide +kernel) (by decide +kernel) (by decide)
      (.returns 0 (by decide +kernel))⟩
  obtain ⟨final, hzero⟩ := hzero
  refine ⟨next, final, hnext, hhanded, hwell, ?_, hzero, halone final hzero⟩
  rw [hhanded.children 3 (by decide) (by decide) rfl]

/-- From a leader that is its own parent the thread does not get that parent,
but itself. -/
theorem hand_off_self_parent :
    ¬ ∀ (s next : Sys) (q leader : Slot), s.proc.WellFormed → (s.proc q).pid ≠ 0 →
      s.proc.Live q → (s.proc q).tid ≠ -1 → (s.proc q).parent = some leader →
      s.execLock q (s.proc.threadLeader q) = some next →
        (next.proc q).parent = (s.proc leader).parent := by
  intro hkept
  let t : Table := setSlot (threeSlots 5) 1 { threeSlots 5 1 with parent := some 1 }
  have hparent := hkept { userinit 1 2 with proc := t }
    ({ userinit 1 2 with proc := t.handOff 2 1 }.finish 2 (.tgkillCheck .exec)) 2 1
    (by decide +kernel) (by decide) (by decide) (by decide) rfl rfl
  revert hparent
  decide

/-- In a group with the `pid` of unused slots the hand-off also takes those. -/
theorem hand_off_takes_unused :
    ¬ ∀ (s next : Sys) (q leader : Slot), s.proc.WellFormed →
      s.proc.Live q → (s.proc q).tid ≠ -1 → (s.proc q).parent = some leader →
      s.execLock q (s.proc.threadLeader q) = some next →
        next.proc.WellFormed := by
  intro hkept
  have hwell := hkept { userinit 1 2 with proc := threeSlots 0 }
    ({ userinit 1 2 with proc := (threeSlots 0).handOff 2 1 }.finish 2
      (.tgkillCheck .exec)) 2 1 (by decide +kernel) (by decide) (by decide) rfl rfl
  have hnone := (hwell.unused 4 (by decide)).1
  revert hnone
  decide

end Sys

end KernelThreads
