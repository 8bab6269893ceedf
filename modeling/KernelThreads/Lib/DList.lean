import Mathlib.Logic.Function.Basic
import Mathlib.Data.List.Nodup
import KernelThreads.Lib.Links

namespace KernelThreads.Lib

/-! Doubly linked circular lists through a head, which is the node `none`. -/

variable {β : Type}

structure DList (β : Type) where
  next : Option β → Option β
  prev : Option β → Option β

namespace DList

def empty : DList β where
  next _ := none
  prev _ := none

def Linked (l : DList β) (x y : Option β) : Prop := l.next x = y ∧ l.prev y = x

def Holds (l : DList β) (xs : List β) : Prop := Ring l.Linked none (xs.map some)

variable {l : DList β} {xs us vs : List β} {b : β}

theorem holds_empty : (empty : DList β).Holds [] := ring_nil.mpr ⟨rfl, rfl⟩

section Edits

variable [DecidableEq β]

def push (l : DList β) (b : β) : DList β :=
  let l := { l with next := Function.update l.next (some b) (l.next none) }
  let l := { l with prev := Function.update l.prev (some b) none }
  let l := { l with prev := Function.update l.prev (l.next none) (some b) }
  { l with next := Function.update l.next none (some b) }

def unlink (l : DList β) (b : β) : DList β :=
  let l := { l with prev := Function.update l.prev (l.next (some b)) (l.prev (some b)) }
  { l with next := Function.update l.next (l.prev (some b)) (l.next (some b)) }

theorem next_push (l : DList β) (b : β) :
    (l.push b).next =
      Function.update (Function.update l.next (some b) (l.next none)) none (some b) := rfl

theorem prev_push (l : DList β) (b : β) :
    (l.push b).prev =
      Function.update (Function.update l.prev (some b) none) (l.next none) (some b) := by
  have hhead : Function.update l.next (some b) (l.next none) none = l.next none :=
    Function.update_of_ne (by simp) _ _
  simp only [push, hhead]

theorem Holds.push (h : l.Holds xs) (hnodup : xs.Nodup) (hb : b ∉ xs) :
    (l.push b).Holds (b :: xs) := by
  unfold Holds Ring at h ⊢
  cases xs with
  | nil =>
      obtain ⟨hnext, hprev⟩ : l.Linked none none := by simpa using h
      have hchain : (l.push b).Linked none (some b) ∧ (l.push b).Linked (some b) none := by
        simp [Linked, next_push, prev_push, hnext]
      simpa using hchain
  | cons x xs =>
      rw [List.map_cons, List.cons_append, List.isChain_cons_cons] at h
      obtain ⟨⟨hfirst, -⟩, hrest⟩ := h
      have hne : some b ≠ some x := fun heq => hb (by simp [Option.some.inj heq])
      rw [List.map_cons, List.map_cons, List.cons_append, List.cons_append,
        List.isChain_cons_cons, List.isChain_cons_cons]
      refine ⟨⟨by simp [next_push], ?_⟩, ⟨?_, ?_⟩, ?_⟩
      · rw [prev_push, hfirst, Function.update_of_ne hne, Function.update_self]
      · rw [next_push, Function.update_of_ne (by simp), Function.update_self, hfirst]
      · rw [prev_push, hfirst, Function.update_self]
      · refine chain_imp hrest ?_
        rintro u hu v hv ⟨hnext, hprev⟩
        have hu' : u ≠ none ∧ u ≠ some b := by
          constructor
          · rintro rfl
            simp at hu
          · rintro rfl
            exact hb (by simpa using hu)
        have hv' : v ≠ some x ∧ v ≠ some b := by
          constructor
          · rintro rfl
            exact (List.nodup_cons.mp hnodup).1 (by simpa using hv)
          · rintro rfl
            exact hb (List.mem_cons_of_mem _ (by simpa using hv))
        constructor
        · rw [next_push, Function.update_of_ne hu'.1, Function.update_of_ne hu'.2, hnext]
        · rw [prev_push, hfirst, Function.update_of_ne hv'.1, Function.update_of_ne hv'.2,
            hprev]

theorem ring_unlink {y : Option β} {ys : List (Option β)}
    (h : Ring l.Linked (some b) (y :: ys)) (hnodup : (some b :: y :: ys).Nodup) :
    Ring (l.unlink b).Linked y ys := by
  obtain ⟨q, hq, hq'⟩ := ring_pred h
  unfold Ring at h ⊢
  rw [List.cons_append, List.isChain_cons_cons] at h
  obtain ⟨⟨hy, -⟩, hrest⟩ := h
  obtain ⟨hb, hys⟩ := List.nodup_cons.mp hnodup
  have hby : some b ≠ y := fun heq => hb (by simp [heq])
  have hprev : (l.unlink b).prev = Function.update l.prev y q := by
    simp only [unlink, hy, hq']
  have hnext : (l.unlink b).next = Function.update l.next q y := by
    simp only [unlink, hy, hq', Function.update_of_ne hby]
  refine chain_reend hrest ?_ ?_
  · rintro u v hv ⟨hu, hv'⟩
    have hne : u ≠ q := by
      rintro rfl
      exact hb (List.mem_cons_of_mem _ (hq ▸ hu ▸ hv))
    have hne' : v ≠ y := by
      rintro rfl
      exact (List.nodup_cons.mp hys).1 hv
    exact ⟨by rw [hnext, Function.update_of_ne hne, hu],
      by rw [hprev, Function.update_of_ne hne', hv']⟩
  · rintro u ⟨-, hu⟩
    have heq : u = q := hu.symm.trans hq'
    exact ⟨by rw [hnext, heq, Function.update_self], by rw [hprev, heq, Function.update_self]⟩

theorem Holds.unlink (h : l.Holds (us ++ b :: vs)) (hnodup : (us ++ b :: vs).Nodup) :
    (l.unlink b).Holds (us ++ vs) := by
  unfold Holds at h ⊢
  rw [List.map_append, List.map_cons, ring_rotate] at h
  have hdistinct : (some b :: (vs.map some ++ none :: us.map some)).Nodup := by
    have hperm : (some b :: (vs.map some ++ none :: us.map some)).Perm
        (none :: (us ++ b :: vs).map some) := by
      rw [List.map_append, List.map_cons]
      refine List.perm_iff_count.mpr fun x => ?_
      simp only [List.count_cons, List.count_append]
      omega
    refine hperm.nodup_iff.mpr (List.nodup_cons.mpr ⟨by simp, ?_⟩)
    exact hnodup.map fun _ _ heq => Option.some.inj heq
  cases vs with
  | nil => simpa using ring_unlink h hdistinct
  | cons v vs =>
      have hring : Ring (l.unlink b).Linked (some v) (vs.map some ++ none :: us.map some) :=
        ring_unlink h hdistinct
      rw [List.map_append, List.map_cons]
      exact ring_rotate.mp hring

end Edits

inductive Search (β : Type) where
  | found (b : β)
  /-- The walk is back at the head. -/
  | missing
  | endless
  deriving DecidableEq, Repr

def search (go : Option β → Option β) (test : β → Bool) : Nat → Option β → Search β
  | 0, _ => .endless
  | _ + 1, none => .missing
  | turns + 1, some b =>
      if test b then .found b else search go test turns (go (some b))

def firstOf (test : β → Bool) (xs : List β) : Search β :=
  match xs.find? test with
  | some b => .found b
  | none => .missing

theorem search_path {go : Option β → Option β} {test : β → Bool} {xs : List β}
    {x : Option β} (h : List.IsChain (fun x y => go x = y) (x :: (xs.map some ++ [none]))) :
    search go test (xs.length + 1) (go x) = firstOf test xs := by
  induction xs generalizing x with
  | nil =>
      have hx : go x = none := by simpa using h
      rw [hx]
      rfl
  | cons y xs ih =>
      rw [List.map_cons, List.cons_append, List.isChain_cons_cons] at h
      rw [h.1, List.length_cons, search, firstOf, List.find?_cons]
      cases test y with
      | true => rfl
      | false => exact ih h.2

theorem Holds.search_next {test : β → Bool} (h : l.Holds xs) :
    search l.next test (xs.length + 1) (l.next none) = firstOf test xs :=
  search_path (h.imp fun _ _ hlink => hlink.1)

theorem Holds.search_prev {test : β → Bool} (h : l.Holds xs) :
    search l.prev test (xs.length + 1) (l.prev none) = firstOf test xs.reverse := by
  rw [← List.length_reverse]
  refine search_path ?_
  have hback : List.IsChain (fun x y => l.prev x = y) (none :: (xs.map some ++ [none])).reverse :=
    List.isChain_reverse.mpr (h.imp fun _ _ hlink => hlink.2)
  simpa using hback

end DList

end KernelThreads.Lib
