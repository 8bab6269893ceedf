import Mathlib.Data.Set.Lattice
import Mathlib.Order.CompletePartialOrder
import Mathlib.Data.List.Pairwise

namespace KernelThreads.Lib

/-! Regions that are divided into parts. -/

variable {α : Type} {region s t : Set α} {parts others : List (Set α)}

structure Tiles (region : Set α) (parts : List (Set α)) : Prop where
  disjoint : parts.Pairwise Disjoint
  covers : ∀ a, a ∈ region ↔ ∃ s ∈ parts, a ∈ s

namespace Tiles

theorem nil : Tiles (∅ : Set α) [] :=
  ⟨List.Pairwise.nil, fun _ => ⟨nofun, fun ⟨_, hmem, _⟩ => absurd hmem List.not_mem_nil⟩⟩

theorem perm (h : Tiles region parts) (hperm : parts.Perm others) : Tiles region others :=
  ⟨(hperm.pairwise_iff fun hst => hst.symm).mp h.disjoint,
    fun a => (h.covers a).trans (by simp only [hperm.mem_iff])⟩

theorem cons_empty : Tiles region (∅ :: parts) ↔ Tiles region parts := by
  constructor
  · rintro ⟨hdisjoint, hcovers⟩
    refine ⟨(List.pairwise_cons.mp hdisjoint).2, fun a => (hcovers a).trans ?_⟩
    simp
  · rintro ⟨hdisjoint, hcovers⟩
    refine ⟨List.pairwise_cons.mpr ⟨fun s _ => Set.empty_disjoint s, hdisjoint⟩,
      fun a => (hcovers a).trans ?_⟩
    simp

theorem cons_union (h : Tiles region (s :: t :: parts)) : Tiles region ((s ∪ t) :: parts) := by
  obtain ⟨hs, hrest⟩ := List.pairwise_cons.mp h.disjoint
  obtain ⟨ht, hparts⟩ := List.pairwise_cons.mp hrest
  refine ⟨List.pairwise_cons.mpr ⟨?_, hparts⟩, fun a => (h.covers a).trans ?_⟩
  · intro u hu
    exact Set.disjoint_union_left.mpr ⟨hs u (List.mem_cons_of_mem _ hu), ht u hu⟩
  · simp only [List.mem_cons, exists_eq_or_imp, Set.mem_union]
    tauto

theorem cons_split (h : Tiles region ((s ∪ t) :: parts)) (hst : Disjoint s t) :
    Tiles region (s :: t :: parts) := by
  obtain ⟨hunion, hparts⟩ := List.pairwise_cons.mp h.disjoint
  refine ⟨List.pairwise_cons.mpr ⟨?_, List.pairwise_cons.mpr ⟨?_, hparts⟩⟩,
    fun a => (h.covers a).trans ?_⟩
  · intro u hu
    rcases List.mem_cons.mp hu with rfl | hu
    · exact hst
    · exact (Set.disjoint_union_left.mp (hunion u hu)).1
  · intro u hu
    exact (Set.disjoint_union_left.mp (hunion u hu)).2
  · simp only [List.mem_cons, exists_eq_or_imp, Set.mem_union]
    tauto

theorem extend (h : Tiles region parts) (hnew : Disjoint region s) :
    Tiles (region ∪ s) (s :: parts) := by
  refine ⟨List.pairwise_cons.mpr ⟨?_, h.disjoint⟩, fun a => ?_⟩
  · intro t ht
    refine Set.disjoint_left.mpr fun a has hat => ?_
    exact Set.disjoint_left.mp hnew ((h.covers a).mpr ⟨t, ht, hat⟩) has
  · rw [Set.mem_union, h.covers a]
    simp only [List.mem_cons, exists_eq_or_imp]
    exact or_comm

end Tiles

end KernelThreads.Lib
