import Mathlib.Data.List.Chain

namespace KernelThreads.Lib

/-! Circular lists, as rings of links between nodes. -/

variable {α : Type} {R S : α → α → Prop} {a b c : α} {xs ys : List α}

/-- Each node is linked to the one after it, and the last to the first. -/
def Ring (R : α → α → Prop) (a : α) (xs : List α) : Prop :=
  List.IsChain R (a :: (xs ++ [a]))

theorem ring_nil : Ring R a [] ↔ R a a := by
  unfold Ring
  simp

theorem ring_rotate : Ring R a (xs ++ b :: ys) ↔ Ring R b (ys ++ a :: xs) := by
  have hleft : List.IsChain R (a :: (xs ++ b :: (ys ++ [a]))) ↔
      List.IsChain R (a :: (xs ++ [b])) ∧ List.IsChain R (b :: (ys ++ [a])) :=
    List.isChain_cons_split
  have hright : List.IsChain R (b :: (ys ++ a :: (xs ++ [b]))) ↔
      List.IsChain R (b :: (ys ++ [a])) ∧ List.IsChain R (a :: (xs ++ [b])) :=
    List.isChain_cons_split
  unfold Ring
  rw [List.append_assoc, List.cons_append, hleft, List.append_assoc, List.cons_append,
    hright]
  exact and_comm

theorem chain_relink (h : List.IsChain R (a :: (xs ++ [c])))
    (hfirst : ∀ y, R a y → S b y) (hrest : ∀ x ∈ xs, ∀ y, R x y → S x y) :
    List.IsChain S (b :: (xs ++ [c])) := by
  induction xs generalizing a b with
  | nil =>
      rw [List.nil_append, List.isChain_pair] at h ⊢
      exact hfirst c h
  | cons x xs ih =>
      rw [List.cons_append, List.isChain_cons_cons] at h ⊢
      refine ⟨hfirst x h.1, ih h.2 (hrest x List.mem_cons_self) ?_⟩
      exact fun y hy => hrest y (List.mem_cons_of_mem _ hy)

theorem chain_imp (h : List.IsChain R (a :: (xs ++ [c])))
    (himp : ∀ x ∈ a :: xs, ∀ y ∈ xs ++ [c], R x y → S x y) :
    List.IsChain S (a :: (xs ++ [c])) := by
  induction xs generalizing a with
  | nil =>
      rw [List.nil_append, List.isChain_pair] at h ⊢
      exact himp a List.mem_cons_self c List.mem_cons_self h
  | cons x xs ih =>
      rw [List.cons_append, List.isChain_cons_cons] at h ⊢
      refine ⟨himp a List.mem_cons_self x List.mem_cons_self h.1, ih h.2 ?_⟩
      exact fun u hu v hv => himp u (List.mem_cons_of_mem _ hu) v (List.mem_cons_of_mem _ hv)

theorem chain_reend (h : List.IsChain R (a :: (xs ++ [c])))
    (hinner : ∀ x, ∀ y ∈ xs, R x y → S x y) (hlast : ∀ x, R x c → S x b) :
    List.IsChain S (a :: (xs ++ [b])) := by
  induction xs generalizing a with
  | nil =>
      rw [List.nil_append, List.isChain_pair] at h ⊢
      exact hlast a h
  | cons x xs ih =>
      rw [List.cons_append, List.isChain_cons_cons] at h ⊢
      refine ⟨hinner a x List.mem_cons_self h.1, ih h.2 ?_⟩
      exact fun u v hv => hinner u v (List.mem_cons_of_mem _ hv)

theorem ring_pred (h : Ring R a xs) : ∃ x, R x a := by
  induction xs using List.reverseRecOn with
  | nil => exact ⟨a, ring_nil.mp h⟩
  | append_singleton us u _ =>
      have hturned : Ring R u (a :: us) := ring_rotate.mp h
      exact ⟨u, (List.isChain_cons_cons.mp hturned).1⟩

theorem exists_last {P : α → Prop} {l : List α} (h : ∃ x ∈ l, P x) :
    ∃ us x vs, l = us ++ x :: vs ∧ P x ∧ ∀ v ∈ vs, ¬ P v := by
  induction l with
  | nil =>
      obtain ⟨x, hx, -⟩ := h
      cases hx
  | cons y l ih =>
      by_cases hlater : ∃ x ∈ l, P x
      · obtain ⟨us, x, vs, rfl, hx, hvs⟩ := ih hlater
        exact ⟨y :: us, x, vs, rfl, hx, hvs⟩
      · obtain ⟨x, hx, hP⟩ := h
        rcases List.mem_cons.mp hx with rfl | hx
        · exact ⟨[], x, l, rfl, hP, fun v hv hPv => hlater ⟨v, hv, hPv⟩⟩
        · exact absurd ⟨x, hx, hP⟩ hlater

end KernelThreads.Lib
