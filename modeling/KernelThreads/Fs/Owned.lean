import KernelThreads.Fs.Store
import KernelThreads.Lib.Exclusive

namespace KernelThreads.Fs

open Lib Program

/-! Which inode refers to which block, and from where. -/

/-- A place that holds a block number: `addrs[k]`, or a word of the indirect
block. -/
inductive Ref where
  | addr (k : Fin (NDIRECT + 1))
  | word (j : Fin NINDIRECT)
  deriving DecidableEq

abbrev Ref.table : Ref := .addr (Fin.last NDIRECT)

namespace Store

variable (sb : Superblock) (st : Store)

def Allocated (i : Nat) : Prop := i < sb.ninodes ∧ (st.inode i).type ≠ 0

instance (i : Nat) : Decidable (st.Allocated sb i) :=
  inferInstanceAs (Decidable (_ ∧ _))

def pointer (i : Nat) : Ref → BlockNo
  | .addr k => (st.inode i).addrs k
  | .word j =>
      let table := (st.inode i).addrs (Fin.last NDIRECT)
      if table = 0 then 0 else (st.data table.toNat).word j

def owner (place : Nat × Ref) : Option Nat :=
  if st.Allocated sb place.1 ∧ st.pointer place.1 place.2 ≠ 0 then
    some (st.pointer place.1 place.2).toNat
  else none

end Store

def Superblock.Reserved (sb : Superblock) (b : Nat) : Prop :=
  b < sb.nmeta ∨ sb.size ≤ b

/-- The bitmap marks the metadata and the blocks that inodes refer to, and each
of those is referred to once. -/
def Store.Owned (sb : Superblock) (st : Store) : Prop :=
  Exclusive st.bit sb.Reserved (st.owner sb)

namespace Store

variable {sb : Superblock} {st next : Store} {i b : Nat} {r : Ref}

theorem owner_eq_some : st.owner sb (i, r) = some b ↔
    st.Allocated sb i ∧ st.pointer i r ≠ 0 ∧ (st.pointer i r).toNat = b := by
  unfold owner
  split
  next h =>
    constructor
    · intro heq
      exact ⟨h.1, h.2, Option.some.inj heq⟩
    · intro hall
      exact congrArg some hall.2.2
  next h =>
    simp only [reduceCtorEq, false_iff]
    exact fun hall => h ⟨hall.1, hall.2.1⟩

theorem Owned.pointer_owner (hi : st.Allocated sb i) (hne : st.pointer i r ≠ 0) :
    st.owner sb (i, r) = some (st.pointer i r).toNat :=
  owner_eq_some.mpr ⟨hi, hne, rfl⟩

theorem Owned.pointer_range (h : st.Owned sb) (hi : st.Allocated sb i)
    (hne : st.pointer i r ≠ 0) :
    sb.nmeta ≤ (st.pointer i r).toNat ∧ (st.pointer i r).toNat < sb.size := by
  have hopen := h.unreserved _ _ (Owned.pointer_owner hi hne)
  unfold Superblock.Reserved at hopen
  omega

end Store

def blockRef (bn : Nat) : Option Ref :=
  if h : bn < NDIRECT then some (.addr ⟨bn, Nat.lt_add_one_of_lt h⟩)
  else if h : bn - NDIRECT < NINDIRECT then some (.word ⟨bn - NDIRECT, h⟩)
  else none

section Bmap

variable {sb : Superblock} {s : FsState} {ip : InodePtr} {i : Nat}

theorem Works.pointer (hworks : Works sb s.shape ip i) (k : Fin (NDIRECT + 1)) :
    (s.store sb).pointer i (.addr k) = (s.icache ip).di.addrs k := by
  unfold Store.pointer
  rw [hworks.current]

theorem Works.disk_data {b : Nat} (hb : sb.nmeta ≤ b) :
    s.disk b = (s.store sb).data b := (dataOf_of_le hb).symm

theorem addrOrAlloc_run (hworks : Works sb s.shape ip i) {k : Fin (NDIRECT + 1)}
    (hne : (s.store sb).pointer i (.addr k) ≠ 0) :
    addrOrAlloc sb ip k s = .ok ((s.store sb).pointer i (.addr k), s) := by
  unfold addrOrAlloc
  rw [bind_of_ok (getInode_run s ip), ← hworks.pointer, if_neg hne]
  rfl

theorem bmap_run (hworks : Works sb s.shape ip i)
    (howned : (s.store sb).Owned sb) (hi : (s.store sb).Allocated sb i)
    {bn : Nat} {r : Ref} (hr : blockRef bn = some r)
    (hne : (s.store sb).pointer i r ≠ 0) :
    bmap sb ip bn s = .ok ((s.store sb).pointer i r, s) := by
  unfold bmap
  unfold blockRef at hr
  split at hr
  next hdirect =>
    cases hr
    rw [dif_pos hdirect]
    exact addrOrAlloc_run hworks hne
  next hdirect =>
    rw [dif_neg hdirect]
    split at hr
    next hindirect =>
      cases hr
      have htable : (s.store sb).pointer i Ref.table ≠ 0 :=
        fun hzero => hne (if_pos hzero)
      have hrange := (howned.pointer_range hi htable).1
      have hword : (s.store sb).pointer i (.word ⟨bn - NDIRECT, hindirect⟩) =
          (s.disk ((s.store sb).pointer i Ref.table).toNat).word (bn - NDIRECT) := by
        rw [Works.disk_data hrange]
        exact if_neg htable
      rw [if_pos hindirect, bind_of_ok (addrOrAlloc_run hworks htable),
        bind_of_ok (bread_run ..), ← hword, if_neg hne]
      rfl
    next => cases hr

end Bmap

end KernelThreads.Fs
