import Mathlib.Data.BitVec

namespace KernelThreads.Lib

/-! Byte arrays, with the words that little-endian code keeps in them. -/

abbrev Bytes (n : Nat) := Fin n → BitVec 8

namespace Bytes

variable {n : Nat}

/-- The byte at an offset; past the end there is nothing to read. -/
def byte (b : Bytes n) (i : Nat) : BitVec 8 :=
  if h : i < n then b ⟨i, h⟩ else 0

theorem byte_of_lt (b : Bytes n) {i : Nat} (h : i < n) : b.byte i = b ⟨i, h⟩ :=
  dif_pos h

def word (b : Bytes n) (i : Nat) : BitVec 32 :=
  b.byte (4 * i + 3) ++ b.byte (4 * i + 2) ++ b.byte (4 * i + 1) ++ b.byte (4 * i)

def setWord (b : Bytes n) (i : Nat) (w : BitVec 32) : Bytes n := fun j =>
  if j.val / 4 = i then w.extractLsb' (8 * (j.val % 4)) 8 else b j

theorem append_extract (w : BitVec 32) :
    w.extractLsb' 24 8 ++ w.extractLsb' 16 8 ++ w.extractLsb' 8 8 ++
      w.extractLsb' 0 8 = w := by
  ext i hi
  simp only [BitVec.getElem_append, BitVec.getElem_extractLsb']
  split
  · rw [← BitVec.getLsbD_eq_getElem]
    congr 1
    omega
  · split
    · rw [← BitVec.getLsbD_eq_getElem]
      congr 1
      omega
    · split
      · rw [← BitVec.getLsbD_eq_getElem]
        congr 1
        omega
      · rw [← BitVec.getLsbD_eq_getElem]
        congr 1
        omega

theorem byte_setWord_same (b : Bytes n) {i k : Nat} (w : BitVec 32) (hk : k < 4)
    (h : 4 * i + k < n) :
    (b.setWord i w).byte (4 * i + k) = w.extractLsb' (8 * k) 8 := by
  have hdiv : (4 * i + k) / 4 = i := by omega
  have hmod : (4 * i + k) % 4 = k := by omega
  rw [byte_of_lt _ h, setWord, if_pos hdiv, hmod]

theorem byte_setWord_other (b : Bytes n) {i j : Nat} (w : BitVec 32)
    (h : j / 4 ≠ i) : (b.setWord i w).byte j = b.byte j := by
  unfold byte
  split
  · exact if_neg h
  · rfl

theorem word_setWord_same (b : Bytes n) {i : Nat} (w : BitVec 32)
    (h : 4 * i + 3 < n) : (b.setWord i w).word i = w := by
  have hlow : (b.setWord i w).byte (4 * i) = w.extractLsb' 0 8 :=
    b.byte_setWord_same w (show 0 < 4 by omega) (by omega)
  rw [word, byte_setWord_same b w (by omega) h,
    byte_setWord_same b w (by omega) (by omega),
    byte_setWord_same b w (by omega) (by omega), hlow]
  exact append_extract w

theorem word_setWord_other (b : Bytes n) {i j : Nat} (w : BitVec 32)
    (h : j ≠ i) : (b.setWord i w).word j = b.word j := by
  have hbyte : ∀ k, k < 4 →
      (b.setWord i w).byte (4 * j + k) = b.byte (4 * j + k) := by
    intro k hk
    apply byte_setWord_other
    omega
  have hlow := hbyte 0 (by omega)
  rw [Nat.add_zero] at hlow
  rw [word, hbyte 3 (by omega), hbyte 2 (by omega), hbyte 1 (by omega), hlow, word]

end Bytes

end KernelThreads.Lib
