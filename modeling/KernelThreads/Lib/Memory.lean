import KernelThreads.Lib.Bytes

namespace KernelThreads.Lib

/-! A memory with 32-bit addresses, and the little-endian words in it. -/

abbrev Memory := BitVec 32 → BitVec 8

namespace Memory

variable {m next : Memory} {a b : BitVec 32}

def word (m : Memory) (a : BitVec 32) : BitVec 32 :=
  m (a + 3) ++ m (a + 2) ++ m (a + 1) ++ m a

def setWord (m : Memory) (a w : BitVec 32) : Memory := fun b =>
  if (b - a).toNat < 4 then w.extractLsb' (8 * (b - a).toNat) 8 else m b

theorem word_congr (h : ∀ k, k < 4 →
    next (a + BitVec.ofNat 32 k) = m (a + BitVec.ofNat 32 k)) : next.word a = m.word a := by
  have hlow : next (a + 0) = m (a + 0) := h 0 (by decide)
  have hone : next (a + 1) = m (a + 1) := h 1 (by decide)
  have htwo : next (a + 2) = m (a + 2) := h 2 (by decide)
  have hthree : next (a + 3) = m (a + 3) := h 3 (by decide)
  rw [add_zero] at hlow
  unfold word
  rw [hlow, hone, htwo, hthree]

theorem setWord_other (w : BitVec 32) (h : 4 ≤ (b - a).toNat) :
    m.setWord a w b = m b :=
  if_neg (not_lt.mpr h)

theorem word_setWord_same (m : Memory) (a w : BitVec 32) : (m.setWord a w).word a = w := by
  have hbyte : ∀ k, k < 4 →
      m.setWord a w (a + BitVec.ofNat 32 k) = w.extractLsb' (8 * k) 8 := by
    intro k hk
    have hoffset : (a + BitVec.ofNat 32 k - a).toNat = k := by
      rw [BitVec.add_comm, BitVec.add_sub_cancel, BitVec.toNat_ofNat]
      omega
    unfold setWord
    rw [hoffset, if_pos hk]
  have hlow : m.setWord a w (a + 0) = w.extractLsb' 0 8 := hbyte 0 (by decide)
  have hone : m.setWord a w (a + 1) = w.extractLsb' 8 8 := hbyte 1 (by decide)
  have htwo : m.setWord a w (a + 2) = w.extractLsb' 16 8 := hbyte 2 (by decide)
  have hthree : m.setWord a w (a + 3) = w.extractLsb' 24 8 := hbyte 3 (by decide)
  rw [add_zero] at hlow
  unfold word
  rw [hlow, hone, htwo, hthree]
  exact Bytes.append_extract w

theorem word_setWord_other (w : BitVec 32)
    (ha : a.toNat + 4 ≤ 2 ^ 32) (hb : b.toNat + 4 ≤ 2 ^ 32)
    (h : a.toNat + 4 ≤ b.toNat ∨ b.toNat + 4 ≤ a.toNat) :
    (m.setWord a w).word b = m.word b := by
  apply word_congr
  intro k hk
  apply setWord_other
  rw [BitVec.toNat_sub, BitVec.toNat_add, BitVec.toNat_ofNat]
  omega

end Memory

end KernelThreads.Lib
