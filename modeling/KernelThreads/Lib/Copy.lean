import KernelThreads.Lib.Memory

namespace KernelThreads.Lib.Memory

/-! Byte-by-byte copies, upwards and downwards. -/

def copyUp (m : Memory) (dst src : BitVec 32) : Nat → Memory
  | 0 => m
  | n + 1 => copyUp (Function.update m dst (m src)) (dst + 1) (src + 1) n

def copyDown (m : Memory) (dst src : BitVec 32) : Nat → Memory
  | 0 => m
  | n + 1 => copyDown (Function.update m (dst - 1) (m (src - 1))) (dst - 1) (src - 1) n

/-- The bytes of a range are in another one, and nothing else has changed. -/
structure Moved (m next : Memory) (dst src : BitVec 32) (n : Nat) : Prop where
  copied : ∀ i < n, next (dst + .ofNat 32 i) = m (src + .ofNat 32 i)
  kept : ∀ a : BitVec 32, a.toNat < dst.toNat ∨ dst.toNat + n ≤ a.toNat → next a = m a

variable {m next other : Memory} {dst src a : BitVec 32} {n i : Nat}

theorem toNat_offset (h : a.toNat + i < 2 ^ 32) :
    (a + BitVec.ofNat 32 i).toNat = a.toNat + i := by
  rw [BitVec.toNat_add, BitVec.toNat_ofNat]
  omega

theorem offset_succ (a : BitVec 32) (i : Nat) :
    a + 1 + BitVec.ofNat 32 i = a + BitVec.ofNat 32 (i + 1) := by
  rw [BitVec.ofNat_add, BitVec.add_assoc, BitVec.add_comm 1]
  rfl

theorem offset_cases (dst : BitVec 32) (n : Nat) (a : BitVec 32) :
    (a.toNat < dst.toNat ∨ dst.toNat + n ≤ a.toNat) ∨
      ∃ i < n, a = dst + BitVec.ofNat 32 i := by
  by_cases hin : dst.toNat ≤ a.toNat ∧ a.toNat < dst.toNat + n
  · refine .inr ⟨a.toNat - dst.toNat, by omega, ?_⟩
    apply BitVec.eq_of_toNat_eq
    rw [toNat_offset (by omega)]
    omega
  · exact .inl (by omega)

theorem Moved.unique (h : Moved m next dst src n) (hother : Moved m other dst src n) :
    next = other := by
  funext a
  rcases offset_cases dst n a with hout | ⟨i, hi, rfl⟩
  · rw [h.kept a hout, hother.kept a hout]
  · rw [h.copied i hi, hother.copied i hi]

theorem copyUp_succ (m : Memory) (dst src : BitVec 32) (n : Nat) :
    copyUp m dst src (n + 1) =
      Function.update (copyUp m dst src n) (dst + .ofNat 32 n)
        (copyUp m dst src n (src + .ofNat 32 n)) := by
  induction n generalizing m dst src with
  | zero => simp [copyUp]
  | succ n ih =>
      rw [copyUp, ih, offset_succ, offset_succ]
      rfl

theorem copyUp_kept (hout : a.toNat < dst.toNat ∨ dst.toNat + n ≤ a.toNat)
    (hdst : dst.toNat + n ≤ 2 ^ 32) : copyUp m dst src n a = m a := by
  induction n with
  | zero => rfl
  | succ n ih =>
      rw [copyUp_succ, Function.update_of_ne, ih (by omega) (by omega)]
      rintro rfl
      rw [toNat_offset (by omega)] at hout
      omega

theorem copyUp_below (hle : dst.toNat ≤ src.toNat) (hsrc : src.toNat + n ≤ 2 ^ 32) :
    Moved m (copyUp m dst src n) dst src n := by
  refine ⟨fun i hi => ?_, fun a hout => copyUp_kept hout (by omega)⟩
  induction n with
  | zero => omega
  | succ n ih =>
      rw [copyUp_succ]
      by_cases hlast : i = n
      · subst hlast
        rw [Function.update_self]
        refine copyUp_kept (.inr ?_) (by omega)
        rw [toNat_offset (by omega)]
        omega
      · rw [Function.update_of_ne, ih (by omega) (by omega)]
        intro heq
        have hsame := congrArg BitVec.toNat heq
        rw [toNat_offset (by omega), toNat_offset (by omega)] at hsame
        omega

/-- After a copy to a higher address the two ranges are equal, whatever the
source has become. -/
theorem copyUp_above (hlt : src.toNat < dst.toNat) (hdst : dst.toNat + n ≤ 2 ^ 32)
    (hi : i < n) :
    copyUp m dst src n (dst + .ofNat 32 i) = copyUp m dst src n (src + .ofNat 32 i) := by
  induction n with
  | zero => omega
  | succ n ih =>
      have hsource : src + BitVec.ofNat 32 i ≠ dst + BitVec.ofNat 32 n := by
        intro heq
        have hsame := congrArg BitVec.toNat heq
        rw [toNat_offset (by omega), toNat_offset (by omega)] at hsame
        omega
      rw [copyUp_succ, Function.update_of_ne hsource]
      by_cases hlast : i = n
      · subst hlast
        rw [Function.update_self]
      · rw [Function.update_of_ne, ih (by omega) (by omega)]
        intro heq
        have hsame := congrArg BitVec.toNat heq
        rw [toNat_offset (by omega), toNat_offset (by omega)] at hsame
        omega

/-- An upward copy to a higher address is right if and only if the bytes that it
writes before it reads them are those that stood there. -/
theorem copyUp_moved_iff (hlt : src.toNat < dst.toNat) (hdst : dst.toNat + n ≤ 2 ^ 32) :
    Moved m (copyUp m dst src n) dst src n ↔
      ∀ i < n - (dst.toNat - src.toNat), m (dst + .ofNat 32 i) = m (src + .ofNat 32 i) := by
  -- A target byte is the source byte `dst - src` further on.
  have hshift : ∀ i, dst + BitVec.ofNat 32 i =
      src + BitVec.ofNat 32 (i + (dst.toNat - src.toNat)) := by
    intro i
    apply BitVec.eq_of_toNat_eq
    simp only [BitVec.toNat_add, BitVec.toNat_ofNat]
    omega
  constructor
  · intro hmoved i hi
    rw [← hmoved.copied i (by omega), hshift i, copyUp_above hlt hdst (by omega) |>.symm,
      hmoved.copied _ (by omega)]
  · intro hsame
    refine ⟨fun i => ?_, fun a hout => copyUp_kept hout hdst⟩
    induction i using Nat.strong_induction_on with
    | _ i ih =>
        intro hi
        rw [copyUp_above hlt hdst hi]
        by_cases hbefore : i < dst.toNat - src.toNat
        · refine copyUp_kept (.inl ?_) hdst
          rw [toNat_offset (by omega)]
          omega
        · have hback := hshift (i - (dst.toNat - src.toNat))
          rw [Nat.sub_add_cancel (not_lt.mp hbefore)] at hback
          rw [← hback, ih _ (by omega) (by omega), hsame _ (by omega)]

theorem copyDown_moved (hlt : src.toNat < dst.toNat) (hdst : dst.toNat + n ≤ 2 ^ 32) :
    Moved m (copyDown m (dst + .ofNat 32 n) (src + .ofNat 32 n) n) dst src n := by
  induction n generalizing m with
  | zero => exact ⟨fun i hi => absurd hi (Nat.not_lt_zero i), fun _ _ => rfl⟩
  | succ n ih =>
      have hend : ∀ a : BitVec 32, a + BitVec.ofNat 32 (n + 1) - 1 = a + .ofNat 32 n := by
        intro a
        rw [BitVec.ofNat_add, ← BitVec.add_assoc]
        exact BitVec.add_sub_cancel _ _
      rw [copyDown, hend, hend]
      have hmoved := ih (by omega) (m := Function.update m (dst + .ofNat 32 n)
        (m (src + .ofNat 32 n)))
      constructor
      · intro i hi
        by_cases hlast : i = n
        · subst hlast
          rw [hmoved.kept _ (.inr (by rw [toNat_offset (by omega)])), Function.update_self]
        · rw [hmoved.copied i (by omega), Function.update_of_ne]
          intro heq
          have hsame := congrArg BitVec.toNat heq
          rw [toNat_offset (by omega), toNat_offset (by omega)] at hsame
          omega
      · intro a hout
        rw [hmoved.kept a (by omega), Function.update_of_ne]
        rintro rfl
        rw [toNat_offset (by omega)] at hout
        omega

end KernelThreads.Lib.Memory
