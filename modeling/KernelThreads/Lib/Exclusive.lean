import Mathlib.Logic.Function.Basic

namespace KernelThreads.Lib

/-! Items that are free, reserved, or held by exactly one place. -/

variable {Place Item : Type}

structure Exclusive (used : Item → Bool) (reserved : Item → Prop)
    (owner : Place → Option Item) : Prop where
  unique : ∀ p q item, owner p = some item → owner q = some item → p = q
  unreserved : ∀ p item, owner p = some item → ¬ reserved item
  marked : ∀ item, used item = true ↔ reserved item ∨ ∃ p, owner p = some item

namespace Exclusive

variable {used : Item → Bool} {reserved : Item → Prop}
variable {owner : Place → Option Item} {place : Place} {item : Item}

theorem free (h : Exclusive used reserved owner) (hfree : used item = false) :
    ¬ reserved item ∧ ∀ p, owner p ≠ some item := by
  have hmarked := h.marked item
  rw [hfree] at hmarked
  simpa [not_or] using hmarked

theorem used_of_owner (h : Exclusive used reserved owner)
    (howner : owner place = some item) : used item = true :=
  (h.marked item).mpr (.inr ⟨place, howner⟩)

variable [DecidableEq Place] [DecidableEq Item]

theorem attach (h : Exclusive used reserved owner) (hfree : used item = false)
    (hnone : owner place = none) :
    Exclusive (Function.update used item true) reserved
      (Function.update owner place (some item)) := by
  obtain ⟨hopen, hothers⟩ := h.free hfree
  constructor
  · intro p q other hp hq
    rw [Function.update_apply] at hp hq
    split at hp
    next hpp =>
      cases hp
      split at hq
      next hqq => rw [hpp, hqq]
      next => exact absurd hq (hothers q)
    next =>
      split at hq
      next =>
        cases hq
        exact absurd hp (hothers p)
      next => exact h.unique p q other hp hq
  · intro p other hp
    rw [Function.update_apply] at hp
    split at hp
    · cases hp
      exact hopen
    · exact h.unreserved p other hp
  · intro other
    rw [Function.update_apply]
    split
    next heq =>
      subst heq
      simp only [true_iff]
      exact .inr ⟨place, by simp⟩
    next hne =>
      rw [h.marked]
      refine or_congr_right ⟨?_, ?_⟩
      · rintro ⟨p, hp⟩
        refine ⟨p, ?_⟩
        rw [Function.update_of_ne ?_]
        · exact hp
        · rintro rfl
          rw [hnone] at hp
          cases hp
      · rintro ⟨p, hp⟩
        rw [Function.update_apply] at hp
        split at hp
        · cases hp
          contradiction
        · exact ⟨p, hp⟩

theorem detach (h : Exclusive used reserved owner)
    (howner : owner place = some item) :
    Exclusive (Function.update used item false) reserved
      (Function.update owner place none) := by
  have hkept : ∀ {p other}, Function.update owner place none p = some other →
      p ≠ place ∧ owner p = some other := by
    intro p other hp
    rw [Function.update_apply] at hp
    split at hp
    · cases hp
    next hne => exact ⟨hne, hp⟩
  constructor
  · intro p q other hp hq
    exact h.unique p q other (hkept hp).2 (hkept hq).2
  · intro p other hp
    exact h.unreserved p other (hkept hp).2
  · intro other
    rw [Function.update_apply]
    split
    next heq =>
      subst heq
      simp only [Bool.false_eq_true, false_iff, not_or, not_exists]
      refine ⟨h.unreserved place other howner, fun p hp => ?_⟩
      exact (hkept hp).1 (h.unique p place other (hkept hp).2 howner)
    next hne =>
      rw [h.marked]
      refine or_congr_right ⟨?_, ?_⟩
      · rintro ⟨p, hp⟩
        refine ⟨p, ?_⟩
        rw [Function.update_of_ne ?_]
        · exact hp
        · rintro rfl
          rw [howner] at hp
          cases hp
          contradiction
      · rintro ⟨p, hp⟩
        exact ⟨p, (hkept hp).2⟩

end Exclusive

end KernelThreads.Lib
