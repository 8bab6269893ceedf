import KernelThreads.Fs.Owned

namespace KernelThreads.Fs

open Lib Program

/-! The bytes of a file, and `readi`. -/

namespace Store

variable (sb : Superblock) (st : Store)

def block (i bn : Nat) : BlockNo :=
  match blockRef bn with
  | some r => st.pointer i r
  | none => 0

def byteAt (i off : Nat) : Byte :=
  (st.data (st.block i (off / BSIZE)).toNat).byte (off % BSIZE)

def size (i : Nat) : Nat := (st.inode i).size.toNat

def contents (i : Nat) : List Byte := (List.range (st.size i)).map (st.byteAt i)

def Mapped : Prop :=
  ∀ i, st.Allocated sb i → ∀ bn, bn * BSIZE < st.size i → st.block i bn ≠ 0

end Store

namespace Store

variable {sb : Superblock} {st : Store} {i : Nat}

theorem block_ref {bn : Nat} (h : st.block i bn ≠ 0) :
    ∃ r, blockRef bn = some r ∧ st.block i bn = st.pointer i r := by
  unfold block at h ⊢
  split at h
  next r hr => exact ⟨r, hr, rfl⟩
  next => exact absurd rfl h

theorem block_eq {bn : Nat} {r : Ref} (hr : blockRef bn = some r) :
    st.block i bn = st.pointer i r := by
  simp only [block, hr]

theorem length_contents : (st.contents i).length = st.size i := by
  simp [contents]

theorem getD_contents {off : Nat} (h : off < st.size i) (d : Byte) :
    (st.contents i).getD off d = st.byteAt i off := by
  simp [contents, h]

theorem slice_contents (off n : Nat) :
    ((st.contents i).drop off).take n =
      (List.range (min n (st.size i - off))).map fun k => st.byteAt i (off + k) := by
  apply List.ext_getElem
  · simp [contents]
  · intro k hleft hright
    simp [contents]

theorem Mapped.byte (h : st.Mapped sb) (hi : st.Allocated sb i) {off : Nat}
    (hoff : off < st.size i) : st.block i (off / BSIZE) ≠ 0 :=
  h i hi _ (lt_of_le_of_lt (Nat.div_mul_le_self off BSIZE) hoff)

end Store

section Read

variable {sb : Superblock} {s : FsState} {ip : InodePtr} {i : Nat}

theorem byteAt_add {st : Store} {off k : Nat} (h : off % BSIZE + k < BSIZE) :
    st.byteAt i (off + k) =
      (st.data (st.block i (off / BSIZE)).toNat).byte (off % BSIZE + k) := by
  have hdiv : (off + k) / BSIZE = off / BSIZE := by
    simp only [BSIZE] at h ⊢
    omega
  have hmod : (off + k) % BSIZE = off % BSIZE + k := by
    simp only [BSIZE] at h ⊢
    omega
  rw [Store.byteAt, hdiv, hmod]

theorem readBlocks_run (hworks : Works sb s.shape ip i)
    (howned : (s.store sb).Owned sb) (hi : (s.store sb).Allocated sb i)
    {turns off n : Nat} (hturns : n ≤ turns)
    (hmapped : ∀ k, k < n → (s.store sb).block i ((off + k) / BSIZE) ≠ 0) :
    readBlocks sb ip turns off n s =
      .ok ((List.range n).map fun k => (s.store sb).byteAt i (off + k), s) := by
  induction turns generalizing off n with
  | zero =>
      have hn : n = 0 := by omega
      subst hn
      rfl
  | succ turns ih =>
      unfold readBlocks
      split
      next hn =>
        subst hn
        rfl
      next hn =>
        have hblock := hmapped 0 (by omega)
        rw [Nat.add_zero] at hblock
        obtain ⟨r, hr, hpointer⟩ := Store.block_ref hblock
        rw [hpointer] at hblock
        have hdata := (howned.pointer_range hi hblock).1
        generalize hm : min n (BSIZE - off % BSIZE) = m
        have hpos : 0 < BSIZE - off % BSIZE :=
          Nat.sub_pos_of_lt (Nat.mod_lt _ (by decide))
        have hrest : ∀ k, k < n - m →
            (s.store sb).block i ((off + m + k) / BSIZE) ≠ 0 := by
          intro k hk
          rw [Nat.add_assoc]
          exact hmapped _ (by omega)
        have hhead : (List.range m).map (fun k => (s.disk
            ((s.store sb).pointer i r).toNat).byte (off % BSIZE + k)) =
              (List.range m).map fun k => (s.store sb).byteAt i (off + k) := by
          apply List.map_congr_left
          intro k hk
          rw [List.mem_range] at hk
          rw [byteAt_add (by omega), Works.disk_data hdata, hpointer]
        have hparts : (List.range n).map (fun k => (s.store sb).byteAt i (off + k)) =
            (List.range m).map (fun k => (s.store sb).byteAt i (off + k)) ++
              (List.range (n - m)).map fun k =>
                (s.store sb).byteAt i (off + m + k) := by
          have hsplit : List.range n = List.range (m + (n - m)) := by
            congr 1
            omega
          rw [hsplit, List.range_add, List.map_append, List.map_map]
          congr 2
          funext k
          rw [Function.comp_apply, Nat.add_assoc]
        rw [bind_of_ok (bmap_run hworks howned hi hr hblock),
          bind_of_ok (bread_run ..), hhead,
          bind_of_ok (ih (show n - m ≤ turns by omega) hrest), hparts]
        rfl

theorem readi_run (hworks : Works sb s.shape ip i)
    (howned : (s.store sb).Owned sb) (hmapped : (s.store sb).Mapped sb)
    (hi : (s.store sb).Allocated sb i) (off n : Nat) :
    readi sb ip off n s = .ok (
      if ((s.store sb).inode i).type = T_DEV then
        if hasDriver ((s.store sb).inode i) then .device else .error
      else if (s.store sb).size i < off ∨ 2 ^ 32 ≤ off + n then .error
      else .done ((((s.store sb).contents i).drop off).take n), s) := by
  unfold readi
  rw [bind_of_ok (getInode_run s ip), ← hworks.current]
  by_cases hdev : ((s.store sb).inode i).type = T_DEV
  · rw [if_pos hdev, if_pos hdev]
    rfl
  rw [if_neg hdev, if_neg hdev]
  change (if (s.store sb).size i < off ∨ 2 ^ 32 ≤ off + n then _ else _ :
    FsProgram (Io (List Byte))) s = _
  by_cases hout : (s.store sb).size i < off ∨ 2 ^ 32 ≤ off + n
  · rw [if_pos hout, if_pos hout]
    rfl
  rw [if_neg hout, if_neg hout, Store.slice_contents]
  have hcount : (if (s.store sb).size i < off + n then (s.store sb).size i - off else n) =
      min n ((s.store sb).size i - off) := by
    split <;> omega
  change (do
    let data ← readBlocks sb ip (if (s.store sb).size i < off + n then
      (s.store sb).size i - off else n) off (if (s.store sb).size i < off + n then
        (s.store sb).size i - off else n)
    pure (Io.done data) : FsProgram (Io (List Byte))) s = _
  rw [hcount, bind_of_ok (readBlocks_run hworks howned hi le_rfl ?_)]
  · rfl
  · intro k hk
    exact hmapped.byte hi (by omega)

end Read

end KernelThreads.Fs
