import Mathlib.Data.Set.Insert
import KernelThreads.Mem.Load
import KernelThreads.Mem.Stack

namespace KernelThreads

open Lib Program

/-! The address space of a thread group: the heap from 0 upwards, with the
leader's stack and its guard page in it, and above it the pairs that `clone`
has made, each over a guard entry that is a copy of the leader's. -/

def guardPage (tstack : Nat) : Nat := tstack / PGSIZE - 2

/-- `sz` and `tstack` are the leader's; `pairs` has the stack pages of its
threads. -/
structure Laid (home : Nat → Nat) (map : Nat → Word) (sz tstack : Nat)
    (pairs : Set Nat) : Prop where
  below : sz ≤ KERNBASE
  filled : Filled map sz
  aligned : tstack % PGSIZE = 0
  pos : 0 < tstack
  inside : tstack ≤ pgRoundUp sz
  fence : 2 * PGSIZE ≤ tstack → (map (guardPage tstack)).has PTE_U = false
  guarded : pairs.Nonempty → 2 * PGSIZE ≤ tstack
  high : ∀ v ∈ pairs, sz + PGSIZE ≤ v * PGSIZE ∧ v * PGSIZE < KERNBASE
  apart : ∀ v ∈ pairs, v + 1 ∉ pairs
  stack : ∀ v ∈ pairs, (map v).flags = PTE_W ||| PTE_U ||| PTE_P
  copied : ∀ v ∈ pairs, map (v - 1) = map (guardPage tstack)
  bare : ∀ page, sz ≤ page * PGSIZE → page * PGSIZE < KERNBASE →
    page ∉ pairs → page + 1 ∉ pairs → (map page).has PTE_P = false
  own : ∀ page, page + 1 ∉ pairs → home page = page
  shared : ∀ page, page + 1 ∈ pairs → home page = guardPage tstack

namespace Laid

variable {home : Nat → Nat} {map : Nat → Word} {sz tstack page v : Nat}
  {pairs : Set Nat}

theorem guard_below (h : Laid home map sz tstack pairs)
    (hguard : 2 * PGSIZE ≤ tstack) : (guardPage tstack + 1) * PGSIZE < sz := by
  have haligned := h.aligned
  have hinside := h.inside
  simp only [guardPage, pgRoundUp, PGSIZE] at *
  omega

theorem guard_present (h : Laid home map sz tstack pairs)
    (hguard : 2 * PGSIZE ≤ tstack) :
    (map (guardPage tstack)).has PTE_P = true := by
  have hbelow := h.guard_below hguard
  refine h.filled _ (lt_trans ?_ hbelow)
  simp only [PGSIZE]
  omega

theorem stack_pos (h : Laid home map sz tstack pairs) (hv : v ∈ pairs) :
    0 < v := by
  have hhigh := (h.high v hv).1
  simp only [PGSIZE] at hhigh
  omega

theorem not_stack (h : Laid home map sz tstack pairs)
    (hpage : page * PGSIZE < sz + PGSIZE) : page ∉ pairs := by
  intro hv
  have hhigh := (h.high page hv).1
  omega

theorem private_page {home : Frame → Nat → Nat} {d : Frame}
    (h : Laid (home d) map sz tstack pairs) (hpage : page + 1 ∉ pairs)
    (hne : pairs.Nonempty → page ≠ guardPage tstack) : Private home d page := by
  intro other
  by_cases hother : other + 1 ∈ pairs
  · rw [h.shared other hother]
    refine iff_of_false (Ne.symm (hne ⟨_, hother⟩)) ?_
    rintro rfl
    exact hpage hother
  · rw [h.own other hother]

end Laid

end KernelThreads
