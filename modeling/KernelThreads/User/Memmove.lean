import KernelThreads.Lib.Copy

namespace KernelThreads

open Lib Memory

/-! `memmove` of the kernel (`string.c`) and of the user library (`ulib.c`). -/

/-- The kernel's: downwards where the target is above the source and in it. -/
def memmove (m : Memory) (dst src n : BitVec 32) : Memory :=
  if src < dst ∧ src + n > dst then copyDown m (dst + n) (src + n) n.toNat
  else copyUp m dst src n.toNat

/-- The user library's: upwards, and the length is an `int`. -/
def Ulib.memmove (m : Memory) (dst src : BitVec 32) (n : Int) : Memory :=
  copyUp m dst src n.toNat

variable {m : Memory} {dst src n : BitVec 32}

theorem memmove_moved (hdst : dst.toNat + n.toNat ≤ 2 ^ 32)
    (hsrc : src.toNat + n.toNat ≤ 2 ^ 32) :
    Moved m (memmove m dst src n) dst src n.toNat := by
  have hself : BitVec.ofNat 32 n.toNat = n := by simp
  unfold memmove
  by_cases hover : src < dst ∧ src + n > dst
  · rw [if_pos hover]
    have hlt : src.toNat < dst.toNat := hover.1
    have hmoved := copyDown_moved (m := m) hlt hdst
    rwa [hself] at hmoved
  · rw [if_neg hover]
    by_cases hlt : src.toNat < dst.toNat
    · -- The target starts where the source has ended.
      refine (copyUp_moved_iff hlt hdst).mpr fun i hi => ?_
      have hend : (src + n).toNat = src.toNat + n.toNat := by
        rw [BitVec.toNat_add]
        omega
      have hapart : ¬ dst.toNat < (src + n).toNat := fun habove => hover ⟨hlt, habove⟩
      omega
    · exact copyUp_below (not_lt.mp hlt) hsrc

/-- The number of bytes that the user library's `memmove` overwrites before it
reads them, or does not copy at all. -/
def spoiled (dst src n : BitVec 32) : Nat :=
  if n.toInt < 0 then n.toNat
  else if src.toNat < dst.toNat then n.toNat - (dst.toNat - src.toNat)
  else 0

theorem ulib_memmove_moved_iff (hdst : dst.toNat + n.toNat ≤ 2 ^ 32)
    (hsrc : src.toNat + n.toNat ≤ 2 ^ 32) :
    Moved m (Ulib.memmove m dst src n.toInt) dst src n.toNat ↔
      ∀ i < spoiled dst src n, m (dst + .ofNat 32 i) = m (src + .ofNat 32 i) := by
  unfold Ulib.memmove spoiled
  by_cases hneg : n.toInt < 0
  · rw [if_pos hneg, Int.toNat_of_nonpos hneg.le]
    exact ⟨fun hmoved => hmoved.copied, fun hsame => ⟨hsame, fun _ _ => rfl⟩⟩
  · have hlength : n.toInt.toNat = n.toNat := by
      rw [BitVec.toInt_eq_toNat_cond] at hneg ⊢
      split at hneg <;> omega
    rw [if_neg hneg, hlength]
    by_cases hlt : src.toNat < dst.toNat
    · rw [if_pos hlt]
      exact copyUp_moved_iff hlt hdst
    · rw [if_neg hlt]
      exact ⟨fun _ i hi => absurd hi (Nat.not_lt_zero i),
        fun _ => copyUp_below (not_lt.mp hlt) hsrc⟩

/-- The kernel's `memmove` is right, and the user library's agrees with it if
and only if the bytes that it spoils are equal to those to be copied. -/
theorem memmove_agree_iff (m : Memory) (dst src n : BitVec 32)
    (hdst : dst.toNat + n.toNat ≤ 2 ^ 32) (hsrc : src.toNat + n.toNat ≤ 2 ^ 32) :
    Moved m (memmove m dst src n) dst src n.toNat ∧
      (Ulib.memmove m dst src n.toInt = memmove m dst src n ↔
        ∀ i < spoiled dst src n, m (dst + .ofNat 32 i) = m (src + .ofNat 32 i)) := by
  have hkernel : Moved m (memmove m dst src n) dst src n.toNat := memmove_moved hdst hsrc
  refine ⟨hkernel, ?_⟩
  rw [← ulib_memmove_moved_iff hdst hsrc]
  constructor
  · intro hsame
    rw [hsame]
    exact hkernel
  · intro huser
    exact huser.unique hkernel

/-- A copy of three bytes two places down. -/
theorem memmove_agree_down :
    Ulib.memmove (fun a => a.setWidth 8) 10 12 3 = memmove (fun a => a.setWidth 8) 10 12 3 :=
  (memmove_agree_iff _ 10 12 3 (by decide) (by decide)).2.mpr
    fun _ hi => absurd hi (Nat.not_lt_zero _)

/-- A copy of two bytes one place up: the second is a copy of the first. -/
theorem memmove_differ_up :
    memmove (fun a => if a = 10 then 1 else 2) 11 10 2 12 = 2 ∧
      Ulib.memmove (fun a => if a = 10 then 1 else 2) 11 10 2 12 = 1 := by
  decide

end KernelThreads
