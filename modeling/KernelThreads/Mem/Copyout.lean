import Mathlib.Data.List.GetD
import KernelThreads.Mem.Bytes
import KernelThreads.Mem.Duplicate

namespace KernelThreads

open Lib Program

/-! `copyout`, at any address. -/

def Word.user (w : Word) : Bool := w.has PTE_P && w.has PTE_U

/-- The pages for the user are different pages, and neither the directory nor
one of its tables. -/
structure Mem.Honest (m : Mem) (d : Frame) : Prop where
  apart : ∀ va < 2 ^ 32, ∀ other < 2 ^ 32, (m.pte d va).user = true →
    (m.pte d other).user = true → (m.pte d va).addr = (m.pte d other).addr →
      va / PGSIZE = other / PGSIZE
  dir : ∀ va < 2 ^ 32, (m.pte d va).user = true → (m.pte d va).addr ≠ d
  table : ∀ va < 2 ^ 32, (m.pte d va).user = true → ∀ i,
    (m.page d i).has PTE_P = true → (m.pte d va).addr ≠ (m.page d i).addr

def nth (va k : Nat) : Nat := (va + k) % 2 ^ 32

theorem nth_lt (va k : Nat) : nth va k < 2 ^ 32 := Nat.mod_lt _ (by decide)

theorem nth_inj {va k k' : Nat} (hk : k < 2 ^ 32) (hk' : k' < 2 ^ 32)
    (h : nth va k = nth va k') : k = k' := by
  simp only [nth] at h
  omega

theorem pgRoundDown_page (va : Nat) : pgRoundDown va / PGSIZE = va / PGSIZE := by
  simp only [pgRoundDown, PGSIZE]
  omega

theorem uva2ka_present {m : Mem} {d : Frame} {va : Nat}
    (h : (m.page d (pdx va)).has PTE_P = true) :
    uva2ka nullStop d va m =
      .ok (if (m.pte d va).user = true then some (m.pte d va).addr else none, m) := by
  have hloc : Located m d va (m.page d (pdx va)).addr (ptx va) := ⟨h, rfl, rfl⟩
  unfold uva2ka
  rw [bind_of_ok (walkpgdir_present h), hloc.pte]
  rfl

theorem uva2ka_absent {m : Mem} {d : Frame} {va : Nat}
    (h : (m.page d (pdx va)).has PTE_P = false) : uva2ka nullStop d va m = .error .nullPointer := by
  unfold uva2ka
  rw [bind_of_ok (walkpgdir_absent h)]
  rfl

structure Wrote (m : Mem) (d : Frame) (va : Nat) (bytes : List Byte) (next : Mem) :
    Prop where
  freelist : next.freelist = m.freelist
  image : next.image = m.image
  user : ∀ k < bytes.length, (m.pte d (nth va k)).user = true
  data : ∀ k < bytes.length,
    pageByte (next.page (m.pte d (nth va k)).addr) (nth va k) = bytes.getD k 0
  kept : ∀ f, ∀ o < PGSIZE,
    (∀ k < bytes.length, ¬ ((m.pte d (nth va k)).addr = f ∧ nth va k % PGSIZE = o)) →
      pageByte (next.page f) o = pageByte (m.page f) o

variable {m next : Mem} {d : Frame} {va : Nat} {bytes done : List Byte}

namespace Wrote

theorem nil (m : Mem) (d : Frame) (va : Nat) : Wrote m d va [] m where
  freelist := rfl
  image := rfl
  user := nofun
  data := nofun
  kept _ _ _ _ := rfl

theorem page (h : Wrote m d va bytes next) {f : Frame}
    (hf : ∀ k < bytes.length, (m.pte d (nth va k)).addr ≠ f) :
    next.page f = m.page f :=
  pageByte_ext fun o ho => h.kept f o ho fun k hk hat => hf k hk hat.1

theorem dir (h : Wrote m d va bytes next) (hhonest : m.Honest d) :
    next.page d = m.page d :=
  h.page fun k hk => hhonest.dir _ (nth_lt va k) (h.user k hk)

theorem pte (h : Wrote m d va bytes next) (hhonest : m.Honest d) (x : Nat) :
    next.pte d x = m.pte d x :=
  Mem.pte_of_pages (h.dir hhonest) (fun i hi => h.page fun k hk =>
    hhonest.table _ (nth_lt va k) (h.user k hk) i hi) x

theorem step {chunk : List Byte} (h : Wrote m d va done next) (hhonest : m.Honest d)
    (hlen : done.length + chunk.length < 2 ^ 32)
    (huser : (m.pte d (nth va done.length)).user = true)
    (hfits : nth va done.length % PGSIZE + chunk.length ≤ PGSIZE) :
    Wrote m d va (done ++ chunk)
      (next.writeBytes (m.pte d (nth va done.length)).addr
        (nth va done.length % PGSIZE) chunk) := by
  have hat : ∀ i < chunk.length,
      nth va (done.length + i) = nth va done.length + i := by
    intro i hi
    simp only [nth, PGSIZE] at *
    omega
  have hpage : ∀ i < chunk.length,
      m.pte d (nth va (done.length + i)) = m.pte d (nth va done.length) := by
    intro i hi
    refine m.pte_congr d ?_
    rw [hat i hi]
    simp only [PGSIZE] at *
    omega
  have hoffset : ∀ i < chunk.length, nth va (done.length + i) % PGSIZE =
      nth va done.length % PGSIZE + i := by
    intro i hi
    rw [hat i hi]
    simp only [PGSIZE] at *
    omega
  generalize hva : nth va done.length = v at *
  have hnew : ∀ f, (next.writeBytes (m.pte d v).addr (v % PGSIZE) chunk).page f =
      if f = (m.pte d v).addr then putBytes (next.page (m.pte d v).addr) (v % PGSIZE) chunk
      else next.page f := by
    intro f
    rw [Mem.writeBytes_page]
    by_cases hf : f = (m.pte d v).addr
    · rw [if_pos hf, hf, Mem.setPage_same]
    · rw [if_neg hf, Mem.setPage_other _ _ hf]
  constructor
  case freelist =>
    rw [Mem.writeBytes_page]
    exact h.freelist
  case image =>
    rw [Mem.writeBytes_page]
    exact h.image
  case user =>
    intro k hk
    by_cases hold : k < done.length
    · exact h.user k hold
    · rw [List.length_append] at hk
      obtain ⟨i, rfl⟩ := Nat.exists_eq_add_of_le (not_lt.mp hold)
      rw [hpage i (by omega)]
      exact huser
  case data =>
    intro k hk
    rw [List.length_append] at hk
    by_cases hold : k < done.length
    · rw [hnew, List.getD_append _ _ _ _ hold, ← h.data k hold]
      by_cases hframe : (m.pte d (nth va k)).addr = (m.pte d v).addr
      · -- In one page, the earlier bytes are at other offsets.
        have hsame : nth va k / PGSIZE = v / PGSIZE := by
          refine hhonest.apart _ (nth_lt va k) _ ?_ (h.user k hold) huser hframe
          rw [← hva]
          exact nth_lt ..
        rw [if_pos hframe, pageByte_mod, pageByte_putBytes _ hfits (Nat.mod_lt _ (by decide)),
          if_neg, ← pageByte_mod, hframe]
        intro hin
        have hk' : nth va k = nth va (done.length + (nth va k % PGSIZE - v % PGSIZE)) := by
          rw [hat _ (by omega)]
          simp only [PGSIZE] at *
          omega
        have hinj := nth_inj (by omega) (by omega) hk'
        omega
      · rw [if_neg hframe]
    · obtain ⟨i, rfl⟩ := Nat.exists_eq_add_of_le (not_lt.mp hold)
      have hi : i < chunk.length := by omega
      rw [hpage i hi, hnew, if_pos rfl, pageByte_mod, hoffset i hi,
        pageByte_putBytes _ hfits (by omega), if_pos (by omega),
        List.getD_append_right _ _ _ _ (Nat.le_add_right ..), Nat.add_sub_cancel_left,
        Nat.add_sub_cancel_left]
  case kept =>
    intro f o ho hnone
    rw [List.length_append] at hnone
    rw [hnew, ← h.kept f o ho fun k hk => hnone k (by omega)]
    split
    next hf =>
      rw [pageByte_putBytes _ hfits ho, if_neg, hf]
      intro hin
      refine hnone (done.length + (o - v % PGSIZE)) (by omega) ⟨?_, ?_⟩
      · rw [hpage _ (by omega), hf]
      · rw [hoffset _ (by omega)]
        omega
    next => rfl

end Wrote

/-- How `copyout` may end: all is written, or it meets a page that is not for
the user, or it dereferences the null pointer where there is no table. -/
def Copied (m : Mem) (d : Frame) (va : Nat) (bytes : List Byte) (success : Bool)
    (next : Mem) : Prop :=
  if success = true then Wrote m d va bytes next
  else ∃ j < bytes.length, Wrote m d va (bytes.take j) next ∧
    (m.pte d (nth va j)).user = false ∧ (m.page d (pdx (nth va j))).has PTE_P = true

def Nulled (m : Mem) (d : Frame) (va : Nat) (bytes : List Byte) (stop : Stop) : Prop :=
  stop = .nullPointer ∧ ∃ j < bytes.length,
    (∀ k < j, (m.pte d (nth va k)).user = true) ∧
      (m.page d (pdx (nth va j))).has PTE_P = false

theorem meets_copyBytes {turns v : Nat} {rest : List Byte} (hhonest : m.Honest d)
    (h : Wrote m d va done next) (hbytes : bytes = done ++ rest)
    (hlen : bytes.length < 2 ^ 32) (hturns : rest.length ≤ turns)
    (hv : rest ≠ [] → v = nth va done.length) :
    Meets (copyBytes nullStop d turns v rest) (Nulled m d va bytes) next
      (Copied m d va bytes) := by
  induction turns generalizing v done rest next with
  | zero =>
      have hrest : rest = [] := List.eq_nil_of_length_eq_zero (Nat.le_zero.mp hturns)
      rw [hrest, List.append_nil] at hbytes
      refine Meets.pure ?_
      rw [Copied, if_pos rfl, hbytes]
      exact h
  | succ turns ih =>
      unfold copyBytes
      by_cases hrest : rest = []
      · rw [if_pos hrest]
        rw [hrest, List.append_nil] at hbytes
        refine Meets.pure ?_
        rw [Copied, if_pos rfl, hbytes]
        exact h
      rw [if_neg hrest]
      obtain rfl := hv hrest
      have hpos : 0 < rest.length := List.length_pos_of_ne_nil hrest
      have hlength : bytes.length = done.length + rest.length := by
        rw [hbytes, List.length_append]
      have hdone : bytes.take done.length = done := by
        rw [hbytes, List.take_left]
      have hround : pgRoundDown (nth va done.length) / PGSIZE = nth va done.length / PGSIZE :=
        pgRoundDown_page _
      have hpdx : pdx (pgRoundDown (nth va done.length)) = pdx (nth va done.length) := by
        simp only [pdx, PGSIZE, Fin.mk.injEq] at hround ⊢
        omega
      have hpte : next.pte d (pgRoundDown (nth va done.length)) =
          m.pte d (nth va done.length) := by
        rw [next.pte_congr d hround, h.pte hhonest]
      by_cases htable : (m.page d (pdx (nth va done.length))).has PTE_P = true
      · have hrun := @uva2ka_present next d (pgRoundDown (nth va done.length)) (by
          rw [hpdx, h.dir hhonest]
          exact htable)
        rw [hpte] at hrun
        refine Meets.bind_ok hrun ?_
        by_cases huser : (m.pte d (nth va done.length)).user = true
        · rw [if_pos huser]
          have hoff : nth va done.length - pgRoundDown (nth va done.length) =
              nth va done.length % PGSIZE := by
            simp only [pgRoundDown, PGSIZE]
            omega
          simp only [hoff]
          have hmod : nth va done.length % PGSIZE < PGSIZE := Nat.mod_lt _ (by decide)
          generalize hn : min (PGSIZE - nth va done.length % PGSIZE) rest.length = n
          have htake : (rest.take n).length = n := by
            rw [List.length_take]
            omega
          refine Meets.bind_ok (rfl : moveBytes _ _ _ next = .ok ((), next.writeBytes _ _ _)) ?_
          refine ih (h.step hhonest (by omega) huser (by omega)) ?_ ?_ ?_
          · rw [hbytes, List.append_assoc, List.take_append_drop]
          · rw [List.length_drop]
            omega
          · intro hmore
            have hleft : n < rest.length := by
              by_contra hall
              exact hmore (List.drop_eq_nil_of_le (not_lt.mp hall))
            rw [List.length_append, htake]
            simp only [nth, pgRoundDown, PGSIZE] at *
            omega
        · rw [if_neg huser]
          refine Meets.pure ?_
          rw [Copied, if_neg (by simp)]
          refine ⟨done.length, by omega, ?_, by simpa using huser, htable⟩
          rw [hdone]
          exact h
      · have hrun := @uva2ka_absent next d (pgRoundDown (nth va done.length)) (by
          rw [hpdx, h.dir hhonest]
          simpa using htable)
        unfold Meets
        rw [bind_of_error hrun]
        exact ⟨rfl, done.length, by omega, h.user, by simpa using htable⟩

theorem meets_copyout (hhonest : m.Honest d) (hva : va < 2 ^ 32)
    (hlen : bytes.length < 2 ^ 32) :
    Meets (copyout nullStop d va bytes) (Nulled m d va bytes) m (Copied m d va bytes) := by
  refine meets_copyBytes hhonest (.nil m d va) rfl hlen le_rfl fun _ => ?_
  rw [nth, List.length_nil, add_zero, Nat.mod_eq_of_lt hva]

/-- What `copyout` is to do: it succeeds if all bytes go to pages of the user, and
then it has written them; in any case it has written no other byte. -/
structure CopyoutExact (m : Mem) (d : Frame) (va : Nat) (bytes : List Byte)
    (success : Bool) (next : Mem) : Prop where
  returns : success = true ↔ ∀ k < bytes.length, (m.pte d (nth va k)).user = true
  data : success = true → ∀ k < bytes.length,
    pageByte (next.page (m.pte d (nth va k)).addr) (nth va k) = bytes.getD k 0
  kept : ∀ f, ∀ o < PGSIZE,
    (∀ k < bytes.length, (m.pte d (nth va k)).user = true →
      ¬ ((m.pte d (nth va k)).addr = f ∧ nth va k % PGSIZE = o)) →
      pageByte (next.page f) o = pageByte (m.page f) o
  entries : ∀ x, next.pte d x = m.pte d x
  freelist : next.freelist = m.freelist

theorem Copied.exact {success : Bool} (hhonest : m.Honest d)
    (h : Copied m d va bytes success next) : CopyoutExact m d va bytes success next := by
  cases success with
  | true =>
      exact ⟨⟨fun _ => h.user, fun _ => rfl⟩, fun _ => h.data, fun f o ho hnone =>
        h.kept f o ho fun k hk => hnone k hk (h.user k hk), h.pte hhonest, h.freelist⟩
  | false =>
      obtain ⟨j, hj, hwrote, hno, _⟩ := h
      refine ⟨⟨nofun, fun hall => ?_⟩, nofun, fun f o ho hnone => ?_, hwrote.pte hhonest,
        hwrote.freelist⟩
      · rw [hall j hj] at hno
        cases hno
      · refine hwrote.kept f o ho fun k hk => hnone k ?_ (hwrote.user k hk)
        rw [List.length_take] at hk
        omega

theorem user_of_absent (h : (m.page d (pdx va)).has PTE_P = false) :
    (m.pte d va).user = false := by
  simp [Mem.pte, h, Word.user]

theorem copyout_null {j : Nat} (hhonest : m.Honest d) (hva : va < 2 ^ 32)
    (hlen : bytes.length < 2 ^ 32) (hj : j < bytes.length)
    (hbefore : ∀ k < j, (m.pte d (nth va k)).user = true)
    (habsent : (m.page d (pdx (nth va j))).has PTE_P = false) :
    copyout nullStop d va bytes m = .error .nullPointer := by
  cases hrun : copyout nullStop d va bytes m with
  | error stop => rw [((meets_copyout hhonest hva hlen).error hrun).1]
  | ok reached =>
      exfalso
      obtain ⟨success, next⟩ := reached
      have hno := user_of_absent habsent
      have hcopied := (meets_copyout hhonest hva hlen).ok hrun
      cases success with
      | true =>
          rw [hcopied.user j hj] at hno
          cases hno
      | false =>
          obtain ⟨i, hi, hwrote, hstop, htable⟩ := hcopied
          rcases lt_trichotomy i j with hlt | rfl | hlt
          · rw [hbefore i hlt] at hstop
            cases hstop
          · rw [habsent] at htable
            cases htable
          · rw [hwrote.user j (by rw [List.length_take]; omega)] at hno
            cases hno

/-- `copyout` is exact just if the first page that is not for the user has a
page table. -/
theorem copyout_exact_iff (m : Mem) (d : Frame) (va : Nat) (bytes : List Byte)
    (hhonest : m.Honest d) (hva : va < 2 ^ 32) (hlen : bytes.length < 2 ^ 32) :
    (∃ success next, copyout nullStop d va bytes m = .ok (success, next) ∧
        CopyoutExact m d va bytes success next) ↔
      ∀ j < bytes.length, (∀ k < j, (m.pte d (nth va k)).user = true) →
        (m.pte d (nth va j)).user = false →
          (m.page d (pdx (nth va j))).has PTE_P = true := by
  constructor
  · rintro ⟨success, next, hrun, _⟩ j hj hbefore _
    by_contra habsent
    rw [copyout_null hhonest hva hlen hj hbefore (by simpa using habsent)] at hrun
    cases hrun
  · intro htables
    cases hrun : copyout nullStop d va bytes m with
    | ok reached =>
        exact ⟨reached.1, reached.2, rfl,
          ((meets_copyout hhonest hva hlen).ok hrun).exact hhonest⟩
    | error stop =>
        obtain ⟨_, j, hj, hbefore, habsent⟩ := (meets_copyout hhonest hva hlen).error hrun
        rw [htables j hj hbefore (user_of_absent habsent)] at habsent
        cases habsent

/-- The test of `sys_clone` on a stack that the user supplies, for a leader of
size `sz`. -/
def acceptsStack (sz childStack : Nat) : Bool :=
  !(decide (sz ≤ childStack) && decide (sz < sub32 childStack PGSIZE))

/-- A process of 4 MB: one page table, and all its entries are for the user. -/
def fourMegMem : Mem where
  image := .sample
  freelist := []
  page f i :=
    if f = 500 ∧ i = 0 then .pte 501 (PTE_P ||| PTE_W ||| PTE_U)
    else if f = 501 then .pte (600 + .ofNat 20 i) (PTE_P ||| PTE_W ||| PTE_U)
    else 0

theorem fourMegMem_pte (va : Nat) : fourMegMem.pte 500 va =
    if pdx va = 0 then .pte (600 + .ofNat 20 (ptx va)) (PTE_P ||| PTE_W ||| PTE_U)
    else 0 := by
  rw [Mem.pte]
  by_cases hpdx : pdx va = 0
  · rw [if_pos hpdx, hpdx]
    rfl
  · rw [if_neg hpdx]
    simp [fourMegMem, hpdx]

theorem fourMegMem_user {va : Nat} (h : (fourMegMem.pte 500 va).user = true) :
    pdx va = 0 ∧ (fourMegMem.pte 500 va).addr = 600 + .ofNat 20 (ptx va) := by
  rw [fourMegMem_pte] at h ⊢
  by_cases hpdx : pdx va = 0
  · rw [if_pos hpdx]
    exact ⟨hpdx, Word.addr_pte ..⟩
  · rw [if_neg hpdx] at h
    simp [Word.user] at h

theorem fourMegMem_honest : fourMegMem.Honest 500 where
  apart := by
    intro va hva other hother huser huser' heq
    obtain ⟨hpdx, haddr⟩ := fourMegMem_user huser
    obtain ⟨hpdx', haddr'⟩ := fourMegMem_user huser'
    rw [haddr, haddr'] at heq
    have hptx := congrArg BitVec.toNat (add_left_cancel heq)
    simp only [pdx, ptx, PGSIZE, Fin.ext_iff, Fin.val_zero, BitVec.toNat_ofNat] at *
    omega
  dir := by
    intro va _ huser heq
    obtain ⟨_, haddr⟩ := fourMegMem_user huser
    rw [haddr] at heq
    have hptx := congrArg BitVec.toNat heq
    have hlt := (ptx va).isLt
    simp [BitVec.toNat_add] at hptx
    omega
  table := by
    intro va _ huser i hi heq
    obtain ⟨_, haddr⟩ := fourMegMem_user huser
    by_cases hzero : i = 0
    · rw [haddr, hzero] at heq
      have hptx := congrArg BitVec.toNat heq
      have hlt := (ptx va).isLt
      simp [fourMegMem, BitVec.toNat_add] at hptx
      omega
    · simp [fourMegMem, hzero] at hi

/-- The frame of a thread in the last page of the process. -/
theorem copyout_exact_fourMeg :
    ∃ success next, copyout nullStop 500 (sub32 0x400000 8)
        (Word.bytes 0xffffffff ++ Word.bytes 0) fourMegMem = .ok (success, next) ∧
      CopyoutExact fourMegMem 500 (sub32 0x400000 8) (Word.bytes 0xffffffff ++ Word.bytes 0)
        success next := by
  refine (copyout_exact_iff fourMegMem 500 (sub32 0x400000 8)
    (Word.bytes 0xffffffff ++ Word.bytes 0) fourMegMem_honest (by decide) (by decide)).mpr ?_
  decide +kernel

/-- The stack page that `sys_clone` accepts right above the 4 MB has no table. -/
theorem copyout_nulls_fourMeg :
    acceptsStack 0x400000 0x401000 = true ∧
      (∀ va, (fourMegMem.pte 500 va).user = true ↔ va % 2 ^ 32 < 0x400000) ∧
      ¬ ∃ success next, copyout nullStop 500 (sub32 0x401000 8)
          (Word.bytes 0xffffffff ++ Word.bytes 0) fourMegMem = .ok (success, next) ∧
        CopyoutExact fourMegMem 500 (sub32 0x401000 8)
          (Word.bytes 0xffffffff ++ Word.bytes 0) success next := by
  refine ⟨by decide, fun va => ?_, ?_⟩
  · have hpdx : pdx va = 0 ↔ va % 2 ^ 32 < 0x400000 := by
      simp only [pdx, Fin.ext_iff, Fin.val_zero]
      omega
    rw [fourMegMem_pte, ← hpdx]
    by_cases hzero : pdx va = 0
    · rw [if_pos hzero, Word.user, Word.has_pte, Word.has_pte, iff_true_right hzero]
      decide
    · simp [hzero, Word.user]
  · rintro ⟨success, next, hrun, _⟩
    rw [copyout_null fourMegMem_honest (by decide) (by decide) (show 0 < _ by decide)
      (fun k hk => absurd hk (Nat.not_lt_zero k)) (by decide)] at hrun
    cases hrun

end KernelThreads
