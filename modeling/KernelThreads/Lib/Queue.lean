import Mathlib.Logic.Function.Basic
import Mathlib.Data.List.Induction
import Mathlib.Data.List.Nodup

namespace KernelThreads.Lib

/-! Queues of linked nodes, with new nodes appended at the end. -/

variable {β : Type}

def Path (next : β → Option β) : Option β → List β → Prop
  | p, [] => p = none
  | p, x :: xs => p = some x ∧ Path next (next x) xs

structure Queue (β : Type) where
  head : Option β
  next : β → Option β

namespace Queue

def Holds (q : Queue β) (xs : List β) : Prop := Path q.next q.head xs

def read (q : Queue β) : Option β → Option β
  | none => q.head
  | some c => q.next c

def findEnd (q : Queue β) : Nat → Option β → Option (Option β)
  | 0, _ => none
  | turns + 1, place =>
      match q.read place with
      | none => some place
      | some c => q.findEnd turns (some c)

section Append

variable [DecidableEq β]

def write (q : Queue β) (place : Option β) (b : β) : Queue β :=
  match place with
  | none => { q with head := some b }
  | some c => { q with next := Function.update q.next c (some b) }

def append (q : Queue β) (turns : Nat) (b : β) : Option (Queue β) :=
  let q := { q with next := Function.update q.next b none }
  (q.findEnd turns none).map fun place => q.write place b

end Append

variable {q : Queue β} {xs ys : List β} {b c : β}

theorem path_frame {next next' : β → Option β} {p : Option β}
    (h : Path next p xs) (hsame : ∀ x ∈ xs, next' x = next x) : Path next' p xs := by
  induction xs generalizing p with
  | nil => exact h
  | cons x xs ih =>
      refine ⟨h.1, ?_⟩
      rw [hsame x List.mem_cons_self]
      exact ih h.2 fun y hy => hsame y (List.mem_cons_of_mem _ hy)

theorem findEnd_path {place : Option β} {turns : Nat} (h : Path q.next (q.read place) xs)
    (hturns : xs.length < turns) :
    q.findEnd turns place = some (xs.getLast?.or place) := by
  induction xs generalizing place turns with
  | nil =>
      obtain ⟨turns, rfl⟩ := Nat.exists_eq_succ_of_ne_zero (Nat.ne_of_gt hturns)
      have hnone : q.read place = none := h
      simp [findEnd, hnone]
  | cons x xs ih =>
      obtain ⟨turns, rfl⟩ := Nat.exists_eq_succ_of_ne_zero (Nat.ne_zero_of_lt hturns)
      have hrest : q.findEnd turns (some x) = some (xs.getLast?.or (some x)) :=
        ih h.2 (Nat.lt_of_succ_lt_succ hturns)
      rw [findEnd, h.1]
      change q.findEnd turns (some x) = _
      rw [hrest]
      cases xs with
      | nil => rfl
      | cons y ys => simp [List.getLast?_cons]

theorem path_append [DecidableEq β] {next : β → Option β} {p : Option β}
    (h : Path next p (xs ++ [c])) (hnodup : (xs ++ [c]).Nodup) (hb : next b = none)
    (hnot : b ∉ xs ++ [c]) : Path (Function.update next c (some b)) p (xs ++ [c, b]) := by
  induction xs generalizing p with
  | nil =>
      have hne : b ≠ c := by simpa using hnot
      exact ⟨h.1, by rw [Function.update_self], by rw [Function.update_of_ne hne]; exact hb⟩
  | cons x xs ih =>
      have hsplit := List.nodup_cons.mp hnodup
      have hne : x ≠ c := by
        rintro rfl
        exact hsplit.1 (by simp)
      refine ⟨h.1, ?_⟩
      rw [Function.update_of_ne hne]
      exact ih h.2 hsplit.2 fun hmem => hnot (List.mem_cons_of_mem _ hmem)

theorem Holds.append [DecidableEq β] (h : q.Holds xs) (hnodup : xs.Nodup) (hb : b ∉ xs)
    {turns : Nat} (hturns : xs.length < turns) :
    ∃ next, q.append turns b = some next ∧ next.Holds (xs ++ [b]) := by
  have hcleared : Path (Function.update q.next b none) q.head xs :=
    path_frame h fun x hx => Function.update_of_ne (ne_of_mem_of_not_mem hx hb) ..
  have hend : findEnd { q with next := Function.update q.next b none } turns none =
      some (xs.getLast?.or none) := findEnd_path hcleared hturns
  refine ⟨_, by rw [Queue.append, hend]; rfl, ?_⟩
  induction xs using List.reverseRecOn with
  | nil => exact ⟨rfl, Function.update_self ..⟩
  | append_singleton xs c _ =>
      simp only [List.getLast?_append, List.getLast?_singleton, Option.some_or, write]
      rw [List.append_assoc]
      exact path_append hcleared hnodup (Function.update_self ..) hb

end Queue

end KernelThreads.Lib
