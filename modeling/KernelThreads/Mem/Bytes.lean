import KernelThreads.Lib.Bytes
import KernelThreads.Mem.Load

namespace KernelThreads

theorem byteIndex_lt (offset : Nat) : offset / 4 % 1024 < 1024 := Nat.mod_lt _ (by decide)

def pageByte (page : Index → Word) (offset : Nat) : Byte :=
  (page ⟨offset / 4 % 1024, byteIndex_lt offset⟩).extractLsb' (8 * (offset % 4)) 8

theorem pageByte_mod (page : Index → Word) (va : Nat) :
    pageByte page va = pageByte page (va % PGSIZE) := by
  have hindex : va % 4096 / 4 % 1024 = va / 4 % 1024 := by omega
  have hrest : va % 4096 % 4 = va % 4 := by omega
  simp only [pageByte, PGSIZE, hindex, hrest]

theorem Word.extract_setByte (w : Word) (b : Byte) {k j : Nat} (hk : k < 4) (hj : j < 4) :
    (w.setByte k b).extractLsb' (8 * j) 8 =
      if j = k then b else w.extractLsb' (8 * j) 8 := by
  have hmask : ∀ n < 32, (0xFF : Word).getLsbD n = decide (n < 8) := by decide
  refine BitVec.eq_of_getLsbD_eq fun i hi => ?_
  have hbit : (w.setByte k b).getLsbD (8 * j + i) =
      if j = k then b.getLsbD i else w.getLsbD (8 * j + i) := by
    simp only [Word.setByte, BitVec.getLsbD_or, BitVec.getLsbD_and, BitVec.getLsbD_not,
      BitVec.getLsbD_shiftLeft, BitVec.truncate_eq_setWidth, BitVec.getLsbD_setWidth]
    have hlt : 8 * j + i < 32 := by omega
    by_cases hjk : j = k
    · subst hjk
      have hhigh : ¬ 8 * j + i < 8 * j := by omega
      rw [Nat.add_sub_cancel_left, hmask i (by omega)]
      simp [hi, hlt, hhigh, show i < 32 by omega]
    · rw [if_neg hjk]
      by_cases hlow : 8 * j + i < 8 * k
      · simp [hlow, hlt]
      · rw [hmask _ (by omega), BitVec.getLsbD_of_ge b _ (by omega)]
        simp [hlt]
        omega
  rw [BitVec.getLsbD_extractLsb', hbit]
  by_cases hjk : j = k
  · rw [if_pos hjk, if_pos hjk]
    simp [hi]
  · rw [if_neg hjk, if_neg hjk, BitVec.getLsbD_extractLsb']

def Mem.peek (m : Mem) (d : Frame) (va : Nat) : Byte := pageByte (m.page (m.pte d va).addr) va

theorem pageByte_ext {page page' : Index → Word}
    (h : ∀ offset < PGSIZE, pageByte page offset = pageByte page' offset) :
    page = page' := by
  funext i
  have hbyte : ∀ k < 4, (page i).extractLsb' (8 * k) 8 = (page' i).extractLsb' (8 * k) 8 := by
    intro k hk
    have hoffset := h (4 * i + k) (by
      simp only [PGSIZE]
      omega)
    have hindex : (⟨(4 * i + k) / 4 % 1024, byteIndex_lt _⟩ : Index) = i := by
      apply Fin.ext
      show (4 * i.val + k) / 4 % 1024 = i
      omega
    have hrest : (4 * i.val + k) % 4 = k := by omega
    simp only [pageByte, hindex, hrest] at hoffset
    exact hoffset
  rw [← Lib.Bytes.append_extract (page i), ← Lib.Bytes.append_extract (page' i)]
  rw [hbyte 3 (by omega), hbyte 2 (by omega), hbyte 1 (by omega), hbyte 0 (by omega)]

def putBytes (page : Index → Word) : Nat → List Byte → Index → Word
  | _, [] => page
  | offset, byte :: rest =>
      let i : Index := ⟨offset / 4 % 1024, byteIndex_lt offset⟩
      putBytes (Function.update page i ((page i).setByte (offset % 4) byte)) (offset + 1) rest

theorem Mem.setPage_setPage (m : Mem) (f : Frame) (page page' : Index → Word) :
    (m.setPage f page).setPage f page' = m.setPage f page' := by
  simp [Mem.setPage]

theorem Mem.writeBytes_page (m : Mem) (f : Frame) (offset : Nat) (bytes : List Byte) :
    m.writeBytes f offset bytes = m.setPage f (putBytes (m.page f) offset bytes) := by
  induction bytes generalizing m offset with
  | nil => simp [Mem.writeBytes, putBytes, Mem.setPage]
  | cons byte rest ih =>
      rw [Mem.writeBytes, ih]
      simp only [Mem.setWord, putBytes, Mem.setPage_same, Mem.setPage_setPage]

theorem pageByte_update (page : Index → Word) (byte : Byte) {offset o : Nat}
    (hoffset : offset < PGSIZE) (ho : o < PGSIZE) :
    pageByte (Function.update page ⟨offset / 4 % 1024, byteIndex_lt offset⟩
      ((page ⟨offset / 4 % 1024, byteIndex_lt offset⟩).setByte (offset % 4) byte)) o =
      if o = offset then byte else pageByte page o := by
  simp only [PGSIZE] at hoffset ho
  unfold pageByte
  by_cases hindex : o / 4 % 1024 = offset / 4 % 1024
  · have hsame : (⟨o / 4 % 1024, byteIndex_lt o⟩ : Index) =
        ⟨offset / 4 % 1024, byteIndex_lt offset⟩ := Fin.ext hindex
    rw [hsame, Function.update_self,
      Word.extract_setByte _ _ (Nat.mod_lt _ (by decide)) (Nat.mod_lt _ (by decide))]
    refine if_congr ?_ rfl rfl
    omega
  · have hother : (⟨o / 4 % 1024, byteIndex_lt o⟩ : Index) ≠
        ⟨offset / 4 % 1024, byteIndex_lt offset⟩ := fun h => hindex (Fin.mk.inj h)
    rw [Function.update_of_ne hother, if_neg]
    rintro rfl
    exact hindex rfl

theorem pageByte_putBytes (page : Index → Word) {offset o : Nat} {bytes : List Byte}
    (hfits : offset + bytes.length ≤ PGSIZE) (ho : o < PGSIZE) :
    pageByte (putBytes page offset bytes) o =
      if offset ≤ o ∧ o < offset + bytes.length then bytes.getD (o - offset) 0
      else pageByte page o := by
  induction bytes generalizing page offset with
  | nil => rw [putBytes, if_neg (by simp)]
  | cons byte rest ih =>
      rw [List.length_cons] at hfits ⊢
      rw [putBytes, ih _ (by omega), pageByte_update page byte (by omega) ho]
      by_cases hhead : o = offset
      · rw [if_neg (by omega), if_pos hhead, if_pos (by omega), hhead, Nat.sub_self]
        rfl
      · rw [if_neg hhead]
        refine ite_congr (by rw [eq_iff_iff]; omega) (fun hin => ?_) fun _ => rfl
        have hnext : o - offset = o - (offset + 1) + 1 := by omega
        rw [hnext, List.getD_cons_succ]

end KernelThreads
