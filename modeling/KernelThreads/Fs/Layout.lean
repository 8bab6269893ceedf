import KernelThreads.Fs.Crash

namespace KernelThreads.Fs

open Lib

/-! The format of the file system on disk, from `fs.h`. -/

abbrev Byte := BitVec 8

abbrev ROOTINO : Nat := 1
abbrev NDIRECT : Nat := 12
abbrev NINDIRECT : Nat := 128
abbrev MAXFILE : Nat := NDIRECT + NINDIRECT

abbrev IPB : Nat := 8

abbrev BPB : Nat := BSIZE * 8

structure Superblock where
  size : Nat
  ninodes : Nat
  inodestart : Nat
  bmapstart : Nat
  deriving DecidableEq, Repr

structure Dinode where
  type : BitVec 16 := 0
  major : BitVec 16 := 0
  minor : BitVec 16 := 0
  nlink : BitVec 16 := 0
  size : BitVec 32 := 0
  addrs : Fin (NDIRECT + 1) → BlockNo := fun _ => 0
  deriving DecidableEq

def T_DIR : BitVec 16 := 1
def T_FILE : BitVec 16 := 2
def T_DEV : BitVec 16 := 3

namespace Superblock

def iblock (sb : Superblock) (inum : Nat) : Nat := inum / IPB + sb.inodestart

def bblock (sb : Superblock) (b : Nat) : Nat := b / BPB + sb.bmapstart

def nmeta (sb : Superblock) : Nat := sb.bmapstart + (sb.size / BPB + 1)

end Superblock

def testBit (block : Block) (bi : Nat) : Bool :=
  (block.byte (bi / 8)).getLsbD (bi % 8)

def setBit (block : Block) (bi : Nat) : Block := fun j =>
  if j.val = bi / 8 then block j ||| 1#8 <<< (bi % 8) else block j

def clearBit (block : Block) (bi : Nat) : Block := fun j =>
  if j.val = bi / 8 then block j &&& ~~~(1#8 <<< (bi % 8)) else block j

namespace Dinode

def word (di : Dinode) (k : Nat) : BitVec 32 :=
  match k with
  | 0 => di.major ++ di.type
  | 1 => di.nlink ++ di.minor
  | 2 => di.size
  | k + 3 => if h : k < NDIRECT + 1 then di.addrs ⟨k, h⟩ else 0

end Dinode

def getDinode (block : Block) (slot : Nat) : Dinode where
  type := (block.word (16 * slot)).extractLsb' 0 16
  major := (block.word (16 * slot)).extractLsb' 16 16
  minor := (block.word (16 * slot + 1)).extractLsb' 0 16
  nlink := (block.word (16 * slot + 1)).extractLsb' 16 16
  size := block.word (16 * slot + 2)
  addrs k := block.word (16 * slot + 3 + k)

def putDinode (block : Block) (slot : Nat) (di : Dinode) : Block := fun j =>
  if j.val / 64 = slot then
    (di.word (j.val / 4 % 16)).extractLsb' (8 * (j.val % 4)) 8
  else block j

theorem word_putDinode_same (block : Block) {slot k : Nat} (di : Dinode)
    (hslot : slot < IPB) (hk : k < 16) :
    (putDinode block slot di).word (16 * slot + k) = di.word k := by
  have hbyte : ∀ t, t < 4 → (putDinode block slot di).byte (4 * (16 * slot + k) + t) =
      (di.word k).extractLsb' (8 * t) 8 := by
    intro t ht
    have hlt : 4 * (16 * slot + k) + t < BSIZE := by
      simp only [IPB, BSIZE] at hslot ⊢
      omega
    have hdiv : (4 * (16 * slot + k) + t) / 64 = slot := by omega
    have hword : (4 * (16 * slot + k) + t) / 4 % 16 = k := by omega
    have hmod : (4 * (16 * slot + k) + t) % 4 = t := by omega
    rw [Bytes.byte_of_lt _ hlt, putDinode, if_pos hdiv, hword, hmod]
  have hlow := hbyte 0 (by omega)
  rw [Nat.add_zero] at hlow
  rw [Bytes.word, hbyte 3 (by omega), hbyte 2 (by omega), hbyte 1 (by omega), hlow]
  exact Bytes.append_extract (di.word k)

theorem word_putDinode_other (block : Block) {slot other k : Nat} (di : Dinode)
    (hne : other ≠ slot) (hk : k < 16) :
    (putDinode block slot di).word (16 * other + k) = block.word (16 * other + k) := by
  have hbyte : ∀ t, t < 4 →
      (putDinode block slot di).byte (4 * (16 * other + k) + t) =
        block.byte (4 * (16 * other + k) + t) := by
    intro t ht
    unfold Bytes.byte
    split
    · rw [putDinode, if_neg ?_]
      change ¬ (4 * (16 * other + k) + t) / 64 = slot
      omega
    · rfl
  have hlow := hbyte 0 (by omega)
  rw [Nat.add_zero] at hlow
  rw [Bytes.word, hbyte 3 (by omega), hbyte 2 (by omega), hbyte 1 (by omega), hlow,
    Bytes.word]

theorem getDinode_putDinode_same (block : Block) {slot : Nat} (di : Dinode)
    (hslot : slot < IPB) : getDinode (putDinode block slot di) slot = di := by
  have hword : ∀ {k}, k < 16 →
      (putDinode block slot di).word (16 * slot + k) = di.word k :=
    fun hk => word_putDinode_same block di hslot hk
  have hfirst := hword (show 0 < 16 by omega)
  rw [Nat.add_zero] at hfirst
  have haddrs : (fun k : Fin (NDIRECT + 1) =>
      (putDinode block slot di).word (16 * slot + 3 + k)) = di.addrs := by
    funext k
    rw [Nat.add_assoc, hword (Nat.add_lt_add_left k.isLt 3), Nat.add_comm 3]
    exact dif_pos k.isLt
  unfold getDinode
  rw [hfirst, hword (by omega), hword (by omega), haddrs]
  simp only [Dinode.word, BitVec.extractLsb'_append_eq_right,
    BitVec.extractLsb'_append_eq_left]

theorem getDinode_putDinode_other (block : Block) {slot other : Nat} (di : Dinode)
    (hne : other ≠ slot) :
    getDinode (putDinode block slot di) other = getDinode block other := by
  have hword : ∀ {k}, k < 16 →
      (putDinode block slot di).word (16 * other + k) = block.word (16 * other + k) :=
    fun hk => word_putDinode_other block di hne hk
  have hfirst := hword (show 0 < 16 by omega)
  rw [Nat.add_zero] at hfirst
  have haddrs : (fun k : Fin (NDIRECT + 1) =>
      (putDinode block slot di).word (16 * other + 3 + k)) =
        fun k : Fin (NDIRECT + 1) => block.word (16 * other + 3 + k) := by
    funext k
    rw [Nat.add_assoc, hword (Nat.add_lt_add_left k.isLt 3)]
  unfold getDinode
  rw [hfirst, hword (by omega), hword (by omega), haddrs]

end KernelThreads.Fs
