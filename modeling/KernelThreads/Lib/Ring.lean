import Mathlib.Algebra.Group.Fin.Basic
import Mathlib.Algebra.GroupWithZero.Nat
import Mathlib.Logic.Function.Basic

namespace KernelThreads.Lib

/-! Ring buffers.  Values are written at `front` and read at `rear`; one cell
stays free, so that a full buffer differs from an empty one. -/

structure RingBuffer (α : Type) (n : Nat) where
  cells : Fin n → α
  front : Fin n
  rear : Fin n

namespace RingBuffer

variable {α : Type} {n : Nat}

def length (ring : RingBuffer α n) : Nat := (ring.front - ring.rear).val

theorem length_lt (ring : RingBuffer α n) : ring.length < n :=
  (ring.front - ring.rear).isLt

variable [NeZero n]

def toList (ring : RingBuffer α n) : List α :=
  (List.range ring.length).map fun k => ring.cells (ring.rear + Fin.ofNat n k)

def push (ring : RingBuffer α n) (value : α) : RingBuffer α n :=
  { ring with
    cells := Function.update ring.cells ring.front value
    front := ring.front + 1 }

def pop (ring : RingBuffer α n) : RingBuffer α n :=
  { ring with rear := ring.rear + 1 }

@[simp] theorem length_toList (ring : RingBuffer α n) :
    ring.toList.length = ring.length := by
  simp [toList]

theorem toList_eq_nil (ring : RingBuffer α n) :
    ring.toList = [] ↔ ring.front = ring.rear := by
  rw [← List.length_eq_zero_iff, length_toList, length, Fin.val_eq_zero_iff,
    sub_eq_zero]

theorem rear_add_length (ring : RingBuffer α n) :
    ring.rear + Fin.ofNat n ring.length = ring.front := by
  have hcast : Fin.ofNat n ring.length = ring.front - ring.rear := by
    simp [length]
  rw [hcast]
  exact add_sub_cancel ring.rear ring.front

theorem val_succ {i : Fin n} (hne : i + 1 ≠ 0) : (i + 1).val = i.val + 1 := by
  have hsucc : (i + 1).val = (i.val + 1) % n := by
    rw [Fin.val_add, Fin.val_one', Nat.add_mod_mod]
  have hlt : i.val + 1 < n := by
    refine lt_of_le_of_ne i.isLt fun hwrap => hne ?_
    rw [Fin.ext_iff, hsucc, hwrap, Nat.mod_self]
    rfl
  rw [hsucc, Nat.mod_eq_of_lt hlt]

theorem length_push (ring : RingBuffer α n) (value : α)
    (hroom : ring.front + 1 ≠ ring.rear) :
    (ring.push value).length = ring.length + 1 := by
  have hnext : ring.front + 1 - ring.rear = ring.front - ring.rear + 1 :=
    add_sub_right_comm ..
  change (ring.front + 1 - ring.rear).val = _
  rw [hnext]
  refine val_succ fun hzero => hroom ?_
  rw [← hnext, sub_eq_zero] at hzero
  exact hzero

theorem length_pop (ring : RingBuffer α n) (hsome : ring.front ≠ ring.rear) :
    ring.length = ring.pop.length + 1 := by
  have hnext : ring.front - (ring.rear + 1) + 1 = ring.front - ring.rear := by
    rw [sub_add_eq_sub_sub, sub_add_cancel]
  change (ring.front - ring.rear).val = (ring.front - (ring.rear + 1)).val + 1
  rw [← hnext]
  refine val_succ fun hzero => hsome ?_
  rw [hnext, sub_eq_zero] at hzero
  exact hzero

theorem length_of_full (ring : RingBuffer α n)
    (hfull : ring.front + 1 = ring.rear) : ring.length + 1 = n := by
  have hlast : ring.front - ring.rear + 1 = 0 := by
    rw [← add_sub_right_comm, hfull, sub_self]
  have hwrap : (ring.length + 1) % n = 0 := by
    have hval := congrArg Fin.val hlast
    rw [Fin.val_add, Fin.val_one', Nat.add_mod_mod] at hval
    exact hval
  have hle : ring.length + 1 ≤ n := ring.length_lt
  rcases Nat.lt_or_eq_of_le hle with hlt | heq
  · rw [Nat.mod_eq_of_lt hlt] at hwrap
    exact absurd hwrap (Nat.succ_ne_zero _)
  · exact heq

theorem toList_push (ring : RingBuffer α n) (value : α)
    (hroom : ring.front + 1 ≠ ring.rear) :
    (ring.push value).toList = ring.toList ++ [value] := by
  rw [toList, length_push ring value hroom, List.range_succ, List.map_append]
  congr 1
  · refine List.map_congr_left fun k hk => ?_
    rw [List.mem_range] at hk
    -- A cell before the end is not the one that is written.
    refine Function.update_of_ne (fun heq => ?_) ..
    rw [← ring.rear_add_length] at heq
    have hsame := congrArg Fin.val (add_left_cancel heq)
    simp only [Fin.val_ofNat, Nat.mod_eq_of_lt (lt_trans hk ring.length_lt),
      Nat.mod_eq_of_lt ring.length_lt] at hsame
    exact absurd hsame (ne_of_lt hk)
  · have hlast : (ring.push value).cells
        (ring.rear + Fin.ofNat n ring.length) = value := by
      rw [ring.rear_add_length]
      exact Function.update_self ..
    rw [List.map_singleton]
    exact congrArg (fun last => [last]) hlast

theorem toList_pop (ring : RingBuffer α n) (hsome : ring.front ≠ ring.rear) :
    ring.toList = ring.cells ring.rear :: ring.pop.toList := by
  rw [toList, length_pop ring hsome, List.range_succ_eq_map, List.map_cons,
    List.map_map]
  congr 1
  · simp
  · refine List.map_congr_left fun k _ => ?_
    have hstep : ring.rear + Fin.ofNat n (k + 1) =
        ring.rear + 1 + Fin.ofNat n k := by
      rw [add_assoc]
      congr 1
      rw [Fin.ext_iff, Fin.val_add, Fin.val_one']
      simp [Nat.add_comm k 1]
    exact congrArg ring.cells hstep

end RingBuffer

end KernelThreads.Lib
