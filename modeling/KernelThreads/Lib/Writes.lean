import Mathlib.Data.List.Nodup
import Mathlib.Logic.Function.Basic

namespace KernelThreads.Lib

/-! Sequences of writes to a store that maps keys to values. -/

variable {Key Value : Type} [DecidableEq Key]

def writes (store : Key → Value) (log : List (Key × Value)) : Key → Value :=
  log.foldl (fun store entry => Function.update store entry.1 entry.2) store

@[simp] theorem writes_nil (store : Key → Value) : writes store [] = store := rfl

@[simp] theorem writes_cons (store : Key → Value) (entry : Key × Value)
    (log : List (Key × Value)) :
    writes store (entry :: log) =
      writes (Function.update store entry.1 entry.2) log := rfl

theorem writes_append (store : Key → Value) (first second : List (Key × Value)) :
    writes store (first ++ second) = writes (writes store first) second :=
  List.foldl_append ..

theorem writes_other (store : Key → Value) {log : List (Key × Value)} {key : Key}
    (h : ∀ entry ∈ log, entry.1 ≠ key) : writes store log key = store key := by
  induction log generalizing store with
  | nil => rfl
  | cons entry log ih =>
      rw [writes_cons, ih _ fun other hother => h other (List.mem_cons_of_mem _ hother)]
      exact Function.update_of_ne (h entry List.mem_cons_self).symm _ _

theorem writes_mem (store : Key → Value) {log : List (Key × Value)}
    {entry : Key × Value} (hnodup : (log.map Prod.fst).Nodup)
    (hmem : entry ∈ log) : writes store log entry.1 = entry.2 := by
  induction log generalizing store with
  | nil => contradiction
  | cons head log ih =>
      rw [List.map_cons, List.nodup_cons] at hnodup
      rw [writes_cons]
      rcases List.mem_cons.mp hmem with rfl | hlater
      · rw [writes_other]
        · exact Function.update_self ..
        · intro other hother heq
          exact hnodup.1 (heq ▸ List.mem_map_of_mem hother)
      · exact ih _ hnodup.2 hlater

end KernelThreads.Lib
