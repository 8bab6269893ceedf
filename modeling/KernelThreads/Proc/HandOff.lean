import KernelThreads.Proc.Table

namespace KernelThreads

open Lib

namespace Table

/-! The hand-off, field by field. -/

section HandOff

variable (t : Table) {cur tleader : Slot}

theorem handOffSwap_tid (cur tleader p : Slot) :
    (t.handOffSwap cur tleader p).tid =
      if p = cur then -1 else if p = tleader then (t cur).tid else (t p).tid := by
  simp only [handOffSwap, setSlot_apply]
  split
  next => rfl
  next =>
    split
    next => rfl
    next => rfl

theorem handOffSwap_parent (p : Slot) :
    (t.handOffSwap cur tleader p).parent =
      if p = cur then (t tleader).parent else (t p).parent := by
  simp only [handOffSwap, setSlot_apply]
  split
  next => simp
  next =>
    split
    next heq => rw [heq]
    next => rfl

theorem handOffSwap_pid (cur tleader p : Slot) :
    (t.handOffSwap cur tleader p).pid = (t p).pid := by
  refine (setSlot_field _ Proc.pid ?_ p).trans (setSlot_field _ Proc.pid ?_ p)
  all_goals rfl

theorem handOffSwap_killed (cur tleader p : Slot) :
    (t.handOffSwap cur tleader p).killed = (t p).killed := by
  refine (setSlot_field _ Proc.killed ?_ p).trans
    (setSlot_field _ Proc.killed ?_ p)
  all_goals rfl

theorem handOffChildren_fields (cur tleader p : Slot) :
    (t.handOffChildren cur tleader p).tid = (t p).tid ∧
      (t.handOffChildren cur tleader p).pid = (t p).pid ∧
      (t.handOffChildren cur tleader p).killed = (t p).killed := by
  unfold handOffChildren
  split <;> exact ⟨rfl, rfl, rfl⟩

theorem handOffChildren_parent (cur tleader p : Slot) :
    (t.handOffChildren cur tleader p).parent =
      if (t p).parent = some tleader ∧ (t p).tid = -1 then some cur
      else (t p).parent := by
  unfold handOffChildren
  split <;> rfl

theorem handOffPeers_tid (cur p : Slot) :
    (t.handOffPeers cur p).tid = (t p).tid := by
  unfold handOffPeers
  split <;> rfl

theorem handOff_tid (cur tleader p : Slot) :
    (t.handOff cur tleader p).tid =
      if p = cur then -1 else if p = tleader then (t cur).tid else (t p).tid := by
  rw [handOff, handOffPeers_tid, (handOffChildren_fields _ _ _ _).1,
    handOffSwap_tid]

theorem handOff_peer {p : Slot} (hpid : (t p).pid = (t cur).pid)
    (hp : p ≠ cur) :
    (t.handOff cur tleader p).parent = some cur ∧
      (t.handOff cur tleader p).killed = true := by
  have hgroup : ((t.handOffSwap cur tleader).handOffChildren cur tleader p).pid =
      ((t.handOffSwap cur tleader).handOffChildren cur tleader cur).pid := by
    simp only [(handOffChildren_fields _ _ _ _).2.1, handOffSwap_pid, hpid]
  rw [handOff, handOffPeers, if_pos ⟨hgroup, hp⟩]
  exact ⟨rfl, rfl⟩

/-- A slot of another group keeps its mark, and its parent unless that was the
leader. -/
theorem handOff_foreign {p : Slot} (hpid : (t p).pid ≠ (t cur).pid)
    (hleader : p ≠ tleader) :
    (t.handOff cur tleader p).parent =
        (if (t p).parent = some tleader ∧ (t p).tid = -1 then some cur
          else (t p).parent) ∧
      (t.handOff cur tleader p).killed = (t p).killed := by
  have hp : p ≠ cur := fun heq => hpid (by rw [heq])
  have hgroup : ((t.handOffSwap cur tleader).handOffChildren cur tleader p).pid ≠
      ((t.handOffSwap cur tleader).handOffChildren cur tleader cur).pid := by
    simpa only [(handOffChildren_fields _ _ _ _).2.1, handOffSwap_pid] using hpid
  rw [handOff, handOffPeers, if_neg fun h => hgroup h.1]
  constructor
  · rw [handOffChildren_parent, handOffSwap_parent, handOffSwap_tid, if_neg hp,
      if_neg hp, if_neg hleader]
  · rw [(handOffChildren_fields _ _ _ _).2.2, handOffSwap_killed]

theorem handOff_killed (cur tleader p : Slot) :
    (t.handOff cur tleader p).killed = ((t p).killed ||
      decide ((t p).pid = (t cur).pid ∧ p ≠ cur)) := by
  have hfields := handOffChildren_fields (t.handOffSwap cur tleader) cur tleader
  simp only [handOff, handOffPeers, (hfields _).2.1, handOffSwap_pid]
  split
  next hgroup => simp [hgroup]
  next hforeign =>
    rw [(hfields p).2.2, handOffSwap_killed, decide_eq_false hforeign,
      Bool.or_false]

end HandOff

/-- A slot of which only `tid`, `parent` and `killed` have changed. -/
structure Rewired (before after : Proc) : Prop where
  sz : after.sz = before.sz
  pgdir : after.pgdir = before.pgdir
  kstack : after.kstack = before.kstack
  state : after.state = before.state
  pid : after.pid = before.pid
  tstack : after.tstack = before.tstack
  tstackalloc : after.tstackalloc = before.tstackalloc
  chan : after.chan = before.chan
  cwd : after.cwd = before.cwd

theorem rewired_with (p : Proc) (tid : Int) (parent : Option Slot)
    (killed : Bool) :
    Rewired p { p with tid := tid, parent := parent, killed := killed } := by
  constructor <;> rfl

theorem Rewired.trans (hfirst : Rewired first second)
    (hsecond : Rewired second third) : Rewired first third where
  sz := hsecond.sz.trans hfirst.sz
  pgdir := hsecond.pgdir.trans hfirst.pgdir
  kstack := hsecond.kstack.trans hfirst.kstack
  state := hsecond.state.trans hfirst.state
  pid := hsecond.pid.trans hfirst.pid
  tstack := hsecond.tstack.trans hfirst.tstack
  tstackalloc := hsecond.tstackalloc.trans hfirst.tstackalloc
  chan := hsecond.chan.trans hfirst.chan
  cwd := hsecond.cwd.trans hfirst.cwd

theorem rewired_setSlot {t : Table} {slot : Slot} {value : Proc}
    (h : Rewired (t slot) value) (p : Slot) :
    Rewired (t p) (setSlot t slot value p) := by
  rw [setSlot_apply]
  split
  next heq =>
    rw [heq]
    exact h
  next => exact rewired_with ..

theorem rewired_handOff (t : Table) (cur tleader p : Slot) :
    Rewired (t p) (t.handOff cur tleader p) := by
  have hswap : Rewired (t p) (t.handOffSwap cur tleader p) :=
    (rewired_setSlot (rewired_with ..) p).trans
      (rewired_setSlot (rewired_with ..) p)
  have hchildren : ∀ t : Table,
      Rewired (t p) (t.handOffChildren cur tleader p) := by
    intro t
    unfold handOffChildren
    split <;> exact rewired_with ..
  have hpeers : ∀ t : Table, Rewired (t p) (t.handOffPeers cur p) := by
    intro t
    unfold handOffPeers
    split <;> exact rewired_with ..
  exact (hswap.trans (hchildren _)).trans (hpeers _)

end Table

end KernelThreads
