import Mathlib.Algebra.BigOperators.Group.Finset.Piecewise
import Mathlib.Data.Fintype.Basic
import Mathlib.Data.List.FinRange
import Mathlib.Logic.Function.Basic

namespace KernelThreads.Lib

/-! Loops over a fixed array of slots: the first slot that passes a test, and
an update of one slot or of every slot that passes a test. -/

/-- The slot at which `for(p = a; p < &a[n]; p++) if(test p) break;` stops. -/
def firstSlot (test : Fin n → Bool) : Option (Fin n) :=
  (List.finRange n).find? test

theorem firstSlot_some {test : Fin n → Bool} {slot : Fin n}
    (h : firstSlot test = some slot) : test slot = true :=
  List.find?_some h

theorem firstSlot_eq_none_iff {test : Fin n → Bool} :
    firstSlot test = none ↔ ∀ slot, test slot = false := by
  simp [firstSlot]

theorem firstSlot_min {test : Fin n → Bool} {slot earlier : Fin n}
    (h : firstSlot test = some slot) (hlt : earlier < slot) :
    test earlier = false := by
  obtain ⟨_, before, after, hsplit, hbefore⟩ :=
    List.find?_eq_some_iff_append.mp h
  have hsorted : (before ++ slot :: after).Pairwise (· < ·) := by
    rw [← hsplit]
    exact List.pairwise_lt_finRange n
  have hmem : earlier ∈ before ++ slot :: after := by
    rw [← hsplit]
    exact List.mem_finRange earlier
  rcases List.mem_append.mp hmem with hin | hin
  · simpa using hbefore earlier hin
  · exfalso
    rcases List.mem_cons.mp hin with heq | hin
    · exact absurd heq (ne_of_lt hlt)
    · have htail := (List.pairwise_append.mp hsorted).2.1
      have hlater := (List.pairwise_cons.mp htail).1 earlier hin
      exact absurd hlt (not_lt_of_gt hlater)

theorem firstSlot_unique {test : Fin n → Bool} {slot : Fin n}
    (h : test slot = true) (hunique : ∀ other, test other = true → other = slot) :
    firstSlot test = some slot := by
  cases hfirst : firstSlot test with
  | none =>
      rw [firstSlot_eq_none_iff.mp hfirst slot] at h
      contradiction
  | some other => rw [hunique other (firstSlot_some hfirst)]

def setSlot (array : Fin n → α) (slot : Fin n) (value : α) : Fin n → α :=
  Function.update array slot value

@[simp] theorem setSlot_same (array : Fin n → α) (slot : Fin n) (value : α) :
    setSlot array slot value slot = value := by
  simp [setSlot]

theorem setSlot_other (array : Fin n → α) {slot other : Fin n} (value : α)
    (hne : other ≠ slot) : setSlot array slot value other = array other := by
  simp [setSlot, hne]

theorem setSlot_apply (array : Fin n → α) (slot other : Fin n) (value : α) :
    setSlot array slot value other =
      if other = slot then value else array other := by
  simp [setSlot, Function.update_apply]

theorem setSlot_field (array : Fin n → α) {slot : Fin n} {value : α}
    (field : α → β) (h : field value = field (array slot)) (other : Fin n) :
    field (setSlot array slot value other) = field (array other) := by
  rw [setSlot_apply]
  split
  next heq => rw [heq, h]
  next => rfl

def countSlots (test : Fin n → Bool) : Nat :=
  (Finset.univ.filter fun slot => test slot).card

theorem countSlots_pos {test : Fin n → Bool} {slot : Fin n}
    (h : test slot = true) : 0 < countSlots test :=
  Finset.card_pos.mpr ⟨slot, Finset.mem_filter.mpr ⟨Finset.mem_univ slot, h⟩⟩

theorem countSlots_eq_zero {test : Fin n → Bool} (h : ∀ slot, test slot = false) :
    countSlots test = 0 := by
  simp [countSlots, h]

theorem countSlots_setSlot (array : Fin n → α) (slot : Fin n) (value : α)
    (test : α → Bool) :
    (countSlots fun other => test (setSlot array slot value other)) +
        (if test (array slot) then 1 else 0) =
      (countSlots fun other => test (array other)) +
        if test value then 1 else 0 := by
  have hrest : ∀ other ∈ Finset.univ.erase slot,
      (if test (setSlot array slot value other) then 1 else 0) =
        if test (array other) then 1 else 0 := by
    intro other hother
    rw [setSlot_other _ _ (Finset.ne_of_mem_erase hother)]
  simp only [countSlots, Finset.card_filter]
  rw [← Finset.add_sum_erase _ _ (Finset.mem_univ slot),
    ← Finset.add_sum_erase _ _ (Finset.mem_univ slot), Finset.sum_congr rfl hrest,
    setSlot_same]
  omega

end KernelThreads.Lib
