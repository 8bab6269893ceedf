import KernelThreads.Fs.Calls
import KernelThreads.Fs.Content
import Mathlib.Data.List.GetD

namespace KernelThreads.Fs

open Lib Program

/-! The entries of a directory, and the loops that look through them. -/

/-! Names are compared as strings. -/

def cstrFrom (p : Nat → Byte) (n i : Nat) : List Byte :=
  ((List.range' i n).map p).takeWhile (· ≠ 0)

def cstr (name : Name) : List Byte := cstrFrom name.byte DIRSIZ 0

theorem cstrFrom_succ (p : Nat → Byte) (n i : Nat) :
    cstrFrom p (n + 1) i = if p i = 0 then [] else p i :: cstrFrom p n (i + 1) := by
  unfold cstrFrom
  rw [List.range'_succ, List.map_cons, List.takeWhile_cons]
  by_cases hzero : p i = 0 <;> simp [hzero]

theorem strncmpFrom_iff (p q : Nat → Byte) (n i : Nat) :
    strncmpFrom p q n i = true ↔ cstrFrom p n i = cstrFrom q n i := by
  induction n generalizing i with
  | zero => simp [strncmpFrom, cstrFrom]
  | succ n ih =>
      rw [cstrFrom_succ, cstrFrom_succ, strncmpFrom]
      by_cases heq : p i = q i
      · by_cases hzero : p i = 0
        · have hcond : ¬(p i ≠ 0 ∧ p i = q i) := fun h => h.1 hzero
          rw [if_neg hcond, if_pos hzero, if_pos (heq ▸ hzero)]
          simp [heq]
        · rw [if_pos ⟨hzero, heq⟩, ih, if_neg hzero, if_neg (heq ▸ hzero), ← heq,
            List.cons_inj_right]
      · have hcond : ¬(p i ≠ 0 ∧ p i = q i) := fun h => heq h.2
        rw [if_neg hcond]
        simp only [heq, decide_false, Bool.false_eq_true, false_iff]
        by_cases hp : p i = 0
        · have hq : q i ≠ 0 := fun hq => heq (hp.trans hq.symm)
          rw [if_pos hp, if_neg hq]
          exact (List.cons_ne_nil _ _).symm
        · rw [if_neg hp]
          by_cases hq : q i = 0
          · rw [if_pos hq]
            exact List.cons_ne_nil _ _
          · rw [if_neg hq]
            exact fun hcons => heq (List.cons.inj hcons).1

theorem namecmp_iff (s t : Name) : namecmp s t = true ↔ cstr s = cstr t :=
  strncmpFrom_iff ..

namespace Dirent

theorem ofBytes_bytes (de : Dirent) : ofBytes de.bytes = de := by
  obtain ⟨inum, name⟩ := de
  simp only [ofBytes, bytes, List.getD_cons_zero, List.getD_cons_succ, mk.injEq]
  constructor
  · exact BitVec.extractLsb'_append_extractLsb'
  · funext j
    rw [Nat.add_comm, List.getD_cons_succ, List.getD_cons_succ,
      List.getD_eq_getElem _ _ (by rw [List.length_ofFn]; exact j.isLt),
      List.getElem_ofFn]

theorem ofBytes_congr {l l' : List Byte}
    (h : ∀ j, j < DESIZE → l.getD j 0 = l'.getD j 0) : ofBytes l = ofBytes l' := by
  simp only [ofBytes, mk.injEq]
  constructor
  · rw [h 0 (by decide), h 1 (by decide)]
  · funext j
    have hj := j.isLt
    refine h (2 + j) ?_
    simp only [DESIZE, DIRSIZ] at hj ⊢
    omega

end Dirent

namespace Store

variable (st : Store) (d : Nat)

def count : Nat := st.size d / DESIZE

def entry (k : Nat) : Dirent :=
  if k < st.count d then
    .ofBytes (((st.contents d).drop (k * DESIZE)).take DESIZE)
  else {}

abbrev Named (name : Name) (k : Nat) : Prop :=
  (st.entry d k).inum ≠ 0 ∧ namecmp name (st.entry d k).name

def findName (name : Name) : Option Nat :=
  (List.range (st.count d)).find? fun k => st.Named d name k

variable {st d} {sb : Superblock} {next : Store}

theorem findName_eq_none {name : Name} :
    st.findName d name = none ↔ ∀ k, k < st.count d → ¬st.Named d name k := by
  simp only [findName, List.find?_range_eq_none, Bool.not_eq_true', decide_eq_false_iff_not]

theorem findName_eq_some {name : Name} {k : Nat} :
    st.findName d name = some k ↔
      k < st.count d ∧ st.Named d name k ∧ ∀ j, j < k → ¬st.Named d name j := by
  simp only [findName, List.find?_range_eq_some, List.mem_range, Bool.not_eq_true',
    decide_eq_false_iff_not, decide_eq_true_eq]
  tauto

theorem entry_of_le {k : Nat} (h : st.count d ≤ k) : st.entry d k = {} :=
  if_neg (by omega)

theorem entry_eq {k : Nat} (hk : k < st.count d) {l : List Byte}
    (h : ∀ j, j < DESIZE → (st.contents d).getD (k * DESIZE + j) 0 = l.getD j 0) :
    st.entry d k = .ofBytes l := by
  unfold entry
  rw [if_pos hk]
  apply Dirent.ofBytes_congr
  intro j hj
  rw [← h j hj]
  simp [hj]

end Store

section Loops

variable {sb : Superblock} {s : FsState} {dp : InodePtr} {d : Nat}

structure Readable (sb : Superblock) (s : FsState) (dp : InodePtr) (d : Nat) :
    Prop where
  works : Works sb s.shape dp d
  owned : (s.store sb).Owned sb
  mapped : (s.store sb).Mapped sb
  allocated : (s.store sb).Allocated sb d
  type : ((s.store sb).inode d).type = T_DIR

theorem size_le {st : Store} (hmapped : st.Mapped sb) (hd : st.Allocated sb d) :
    st.size d ≤ MAXFILE * BSIZE := by
  by_contra hlarge
  have hblock := hmapped d hd MAXFILE (by omega)
  obtain ⟨r, hr, -⟩ := Store.block_ref hblock
  revert hr
  unfold blockRef
  rw [dif_neg (by decide), dif_neg (by decide)]
  simp

theorem Readable.size (h : Readable sb s dp d) :
    (s.icache dp).di.size.toNat = (s.store sb).size d := by
  unfold Store.size
  rw [h.works.current]

theorem readDirent_run (h : Readable sb s dp d) (stop : FsStop) {k : Nat}
    (hk : k * DESIZE < (s.store sb).size d) :
    readDirent sb stop dp (k * DESIZE) s =
      if k < (s.store sb).count d then .ok ((s.store sb).entry d k, s)
      else .error stop := by
  have hbound := size_le h.mapped h.allocated
  have hdev : ((s.store sb).inode d).type ≠ T_DEV := by
    rw [h.type]
    decide
  have hin : ¬((s.store sb).size d < k * DESIZE ∨ 2 ^ 32 ≤ k * DESIZE + DESIZE) := by
    simp only [DESIZE, MAXFILE, BSIZE, NDIRECT, NINDIRECT] at hk hbound ⊢
    omega
  have hlength : ((((s.store sb).contents d).drop (k * DESIZE)).take DESIZE).length =
      DESIZE ↔ k < (s.store sb).count d := by
    rw [List.length_take, List.length_drop, Store.length_contents]
    unfold Store.count
    simp only [DESIZE]
    omega
  unfold readDirent
  rw [bind_of_ok (readi_run h.works h.owned h.mapped h.allocated _ _), if_neg hdev,
    if_neg hin]
  dsimp only
  by_cases hlt : k < (s.store sb).count d
  · rw [if_pos (hlength.mpr hlt), if_pos hlt]
    unfold Store.entry
    rw [if_pos hlt]
    rfl
  · rw [if_neg fun heq => hlt (hlength.mp heq), if_neg hlt]
    rfl

/-- A panic where the size of the directory is no multiple of an entry's. -/
def FsState.Ragged (sb : Superblock) (s : FsState) (d : Nat) (stop stopped : FsStop) : Prop :=
  stopped = stop ∧ (s.store sb).size d % DESIZE ≠ 0

theorem meets_readDirent (h : Readable sb s dp d) (stop : FsStop) {k : Nat}
    (hk : k * DESIZE < (s.store sb).size d) :
    Meets (readDirent sb stop dp (k * DESIZE)) (s.Ragged sb d stop) s fun de next =>
      next = s ∧ k < (s.store sb).count d ∧ de = (s.store sb).entry d k := by
  unfold Meets
  rw [readDirent_run h stop hk]
  by_cases hlt : k < (s.store sb).count d
  · rw [if_pos hlt]
    exact ⟨rfl, hlt, rfl⟩
  · rw [if_neg hlt]
    refine ⟨rfl, ?_⟩
    unfold Store.count at hlt
    simp only [DESIZE] at hk hlt ⊢
    omega

theorem count_le_of_size_le {st : Store} {k : Nat} (h : st.size d ≤ k * DESIZE) :
    st.count d ≤ k := by
  unfold Store.count
  simp only [DESIZE] at h ⊢
  omega

theorem meets_findEntry (h : Readable sb s dp d) (name : Name) {turns k : Nat}
    (hturns : (s.store sb).count d < turns + k)
    (hbelow : ∀ j, j < k → ¬(s.store sb).Named d name j) :
    Meets (findEntry sb dp name turns (k * DESIZE)) (s.Ragged sb d .dirlookupRead) s
      fun r next => next = s ∧ r = ((s.store sb).findName d name).map fun k =>
        (((s.store sb).entry d k).inum.toNat, k * DESIZE) := by
  induction turns generalizing k with
  | zero =>
      have hnone : (s.store sb).findName d name = none :=
        Store.findName_eq_none.mpr fun j hj => hbelow j (by omega)
      refine Meets.pure ⟨rfl, ?_⟩
      rw [hnone]
      rfl
  | succ turns ih =>
      unfold findEntry
      refine Meets.bind_ok (getInode_run ..) ?_
      rw [h.size]
      split
      next hlt =>
        refine Meets.bind (meets_readDirent h _ hlt) ?_
        rintro de s ⟨rfl, hk, rfl⟩
        split
        next hmatch =>
          have hfound : (s.store sb).findName d name = some k :=
            Store.findName_eq_some.mpr ⟨hk, hmatch, hbelow⟩
          refine Meets.pure ⟨rfl, ?_⟩
          rw [hfound]
          rfl
        next hmatch =>
          rw [← Nat.succ_mul]
          refine ih (by omega) fun j hj => ?_
          by_cases hjk : j = k
          · rw [hjk]
            exact hmatch
          · exact hbelow j (by omega)
      next hge =>
        have hcount := count_le_of_size_le (not_lt.mp hge)
        have hnone : (s.store sb).findName d name = none :=
          Store.findName_eq_none.mpr fun j hj => hbelow j (by omega)
        refine Meets.pure ⟨rfl, ?_⟩
        rw [hnone]
        rfl

end Loops

end KernelThreads.Fs
