import Mathlib.Data.BitVec
import Mathlib.Logic.Function.Basic

namespace KernelThreads.Lib

/-! Ring buffers whose counters run on.  The counters have `w` bits and wrap
around; a value is kept in the cell of its number modulo the size `n`, which
divides `2 ^ w`. -/

structure StreamBuffer (α : Type) (n w : Nat) where
  cells : Fin n → α
  read : BitVec w
  write : BitVec w

namespace StreamBuffer

variable {α : Type} {n w : Nat} [NeZero n]

def cell (number : BitVec w) : Fin n := Fin.ofNat n number.toNat

def length (buffer : StreamBuffer α n w) : Nat := (buffer.write - buffer.read).toNat

def toList (buffer : StreamBuffer α n w) : List α :=
  (List.range buffer.length).map fun k =>
    buffer.cells (cell (buffer.read + BitVec.ofNat w k))

def push (buffer : StreamBuffer α n w) (value : α) : StreamBuffer α n w :=
  { buffer with
    cells := Function.update buffer.cells (cell buffer.write) value
    write := buffer.write + 1 }

def pop (buffer : StreamBuffer α n w) : StreamBuffer α n w :=
  { buffer with read := buffer.read + 1 }

omit [NeZero n] in
theorem read_add_length (buffer : StreamBuffer α n w) :
    buffer.read + BitVec.ofNat w buffer.length = buffer.write := by
  have hcast : BitVec.ofNat w buffer.length = buffer.write - buffer.read := by
    rw [length, BitVec.ofNat_toNat, BitVec.setWidth_eq]
  rw [hcast]
  exact add_sub_cancel buffer.read buffer.write

theorem cell_add (hdvd : n ∣ 2 ^ w) (number : BitVec w) (k : Nat) :
    (cell (number + BitVec.ofNat w k) : Fin n).val = (number.toNat + k) % n := by
  simp [cell, Nat.mod_mod_of_dvd _ hdvd]

@[simp] theorem length_toList (buffer : StreamBuffer α n w) :
    buffer.toList.length = buffer.length := by
  simp [toList]

omit [NeZero n] in
theorem length_eq_zero {buffer : StreamBuffer α n w} :
    buffer.length = 0 ↔ buffer.read = buffer.write := by
  constructor
  · intro hzero
    have hwrite := buffer.read_add_length
    rw [hzero] at hwrite
    rw [← hwrite, BitVec.add_zero]
  · intro heq
    rw [length, heq, BitVec.sub_self]
    rfl

omit [NeZero n] in
theorem length_eq_iff {buffer : StreamBuffer α n w} {k : Nat} (hk : k < 2 ^ w) :
    buffer.length = k ↔ buffer.write = buffer.read + BitVec.ofNat w k := by
  constructor
  · rintro rfl
    exact buffer.read_add_length.symm
  · intro heq
    rw [length, heq, add_sub_cancel_left, BitVec.toNat_ofNat, Nat.mod_eq_of_lt hk]

theorem length_push {buffer : StreamBuffer α n w} (value : α)
    (hroom : buffer.length + 1 < 2 ^ w) :
    (buffer.push value).length = buffer.length + 1 := by
  rw [length_eq_iff hroom]
  change buffer.write + 1 = buffer.read + _
  have hsplit : BitVec.ofNat w (buffer.length + 1) =
      BitVec.ofNat w buffer.length + 1 := by
    rw [BitVec.ofNat_add]
    rfl
  rw [hsplit, ← add_assoc, buffer.read_add_length]

omit [NeZero n] in
theorem length_pop {buffer : StreamBuffer α n w} (hsome : buffer.read ≠ buffer.write) :
    buffer.length = buffer.pop.length + 1 := by
  have hpos : buffer.length ≠ 0 := fun hzero => hsome (length_eq_zero.mp hzero)
  obtain ⟨k, hk⟩ := Nat.exists_eq_succ_of_ne_zero hpos
  have hlt : buffer.length < 2 ^ w := (buffer.write - buffer.read).isLt
  rw [hk, Nat.succ_eq_add_one, Nat.add_right_cancel_iff, eq_comm,
    length_eq_iff (by omega)]
  change buffer.write = buffer.read + 1 + _
  have hsplit : BitVec.ofNat w (k + 1) = BitVec.ofNat w k + 1 := by
    rw [BitVec.ofNat_add]
    rfl
  rw [← buffer.read_add_length, hk, Nat.succ_eq_add_one, hsplit, add_assoc,
    add_comm (BitVec.ofNat w k)]

theorem toList_push {buffer : StreamBuffer α n w} (value : α) (hdvd : n ∣ 2 ^ w)
    (hroom : buffer.length < n) (hn : n < 2 ^ w) :
    (buffer.push value).toList = buffer.toList ++ [value] := by
  rw [toList, length_push value (by omega), List.range_succ, List.map_append]
  congr 1
  · refine List.map_congr_left fun k hk => ?_
    rw [List.mem_range] at hk
    -- A cell before the end is not the one that is written.
    refine Function.update_of_ne (fun heq => ?_) ..
    rw [← buffer.read_add_length] at heq
    have hsame := congrArg Fin.val heq
    rw [push, cell_add hdvd, cell_add hdvd] at hsame
    have hmod : k ≡ buffer.length [MOD n] := Nat.ModEq.add_left_cancel' _ hsame
    have heq' := Nat.ModEq.eq_of_lt_of_lt hmod (hk.trans hroom) hroom
    omega
  · have hlast : (buffer.push value).cells
        (cell (buffer.read + BitVec.ofNat w buffer.length)) = value := by
      rw [buffer.read_add_length]
      exact Function.update_self ..
    rw [List.map_singleton]
    exact congrArg (fun last => [last]) hlast

theorem toList_pop {buffer : StreamBuffer α n w}
    (hsome : buffer.read ≠ buffer.write) :
    buffer.toList = buffer.cells (cell buffer.read) :: buffer.pop.toList := by
  rw [toList, length_pop hsome, List.range_succ_eq_map, List.map_cons, List.map_map]
  congr 1
  · rw [BitVec.add_zero]
  · refine List.map_congr_left fun k _ => ?_
    have hsplit : BitVec.ofNat w (k + 1) = 1 + BitVec.ofNat w k := by
      rw [Nat.add_comm, BitVec.ofNat_add]
      rfl
    change buffer.cells (cell (buffer.read + BitVec.ofNat w (k + 1))) =
      buffer.cells (cell (buffer.read + 1 + BitVec.ofNat w k))
    rw [hsplit, add_assoc]

def back (buffer : StreamBuffer α n w) : StreamBuffer α n w :=
  { buffer with write := buffer.write - 1 }

theorem toList_back {buffer : StreamBuffer α n w} (hsome : buffer.read ≠ buffer.write) :
    buffer.toList = buffer.back.toList ++ [buffer.cells (cell (buffer.write - 1))] := by
  have hpos : buffer.length ≠ 0 := fun hzero => hsome (length_eq_zero.mp hzero)
  obtain ⟨k, hk⟩ := Nat.exists_eq_succ_of_ne_zero hpos
  have hlt : buffer.length < 2 ^ w := (buffer.write - buffer.read).isLt
  have hlast : buffer.read + BitVec.ofNat w k = buffer.write - 1 := by
    have hsplit : BitVec.ofNat w (k + 1) = BitVec.ofNat w k + 1 := by
      rw [BitVec.ofNat_add]
      rfl
    rw [← buffer.read_add_length, hk, Nat.succ_eq_add_one, hsplit, ← add_assoc,
      add_sub_cancel_right]
  have hback : buffer.back.length = k := (length_eq_iff (by omega)).mpr hlast.symm
  rw [toList, toList, hback, hk, Nat.succ_eq_add_one, List.range_succ, List.map_append,
    List.map_singleton, hlast]
  rfl

end StreamBuffer

end KernelThreads.Lib
