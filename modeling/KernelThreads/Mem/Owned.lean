import Mathlib.Data.List.Nodup
import Mathlib.Logic.Function.Basic
import KernelThreads.Mem.Paging

namespace KernelThreads

open Lib

/-! Ownership of physical pages: every page has one role, and what page
directories refer to has the role that goes with the place it is found at. -/

inductive Role where
  | free
  /-- Allocated, and in no page directory. -/
  | loose
  | dir
  | table (dir : Frame) (i : Index)
  | user (dir : Frame) (page : Nat)
  deriving DecidableEq

def Role.of : Role → Option Frame
  | .table d _ | .user d _ => some d
  | .free | .loose | .dir => none

/-- An entry maps the page that `home` names: its own, unless it is an alias. -/
structure Owned (home : Frame → Nat → Nat) (role : Frame → Role) (m : Mem) :
    Prop where
  nodup : m.freelist.Nodup
  free : ∀ f, f ∈ m.freelist ↔ role f = .free
  live : ∀ f d, (role f).of = some d → role d = .dir
  table : ∀ d i, role d = .dir → (m.page d i).has PTE_P = true →
    role (m.page d i).addr = .table d i
  user : ∀ d va, role d = .dir → va < KERNBASE → (m.pte d va).has PTE_P = true →
    role (m.pte d va).addr = .user d (home d (va / PGSIZE))
  kernel : ∀ d va, role d = .dir → KERNBASE ≤ va → va < 2 ^ 32 →
    (m.pte d va).has PTE_P = true → (m.pte d va).has PTE_U = false

structure Plain (role : Frame → Role) (m : Mem) (f : Frame) : Prop where
  dir : role f ≠ .dir
  table : ∀ d i, role d = .dir → (m.page d i).has PTE_P = true →
    (m.page d i).addr ≠ f

structure Unref (role : Frame → Role) (m : Mem) (f : Frame) : Prop
    extends Plain role m f where
  user : ∀ d va, role d = .dir → va < KERNBASE →
    (m.pte d va).has PTE_P = true → (m.pte d va).addr ≠ f

/-- The page and the index at which the entry for an address is kept. -/
structure Located (m : Mem) (d : Frame) (va : Nat) (t : Frame) (j : Index) :
    Prop where
  present : (m.page d (pdx va)).has PTE_P = true
  addr : (m.page d (pdx va)).addr = t
  index : j = ptx va

theorem div_mul_of_aligned {a : Nat} (haligned : a % PGSIZE = 0) :
    a / PGSIZE * PGSIZE = a :=
  Nat.div_mul_cancel (Nat.dvd_of_mod_eq_zero haligned)

theorem page_eq {va other : Nat} (hva : va < 2 ^ 32) (hother : other < 2 ^ 32)
    (hd : pdx va = pdx other) (ht : ptx va = ptx other) :
    va / PGSIZE = other / PGSIZE := by
  simp only [pdx, ptx, PGSIZE, Fin.mk.injEq] at *
  omega

theorem page_of_index {va : Nat} (hva : va < 2 ^ 32) :
    va / PGSIZE = (pdx va).val * 1024 + (ptx va).val := by
  have hsize : 2 ^ 22 = 4194304 := rfl
  simp only [pdx, ptx, PGSIZE, hsize] at *
  omega

theorem pdx_eq {va other : Nat} (h : va / PGSIZE = other / PGSIZE) :
    pdx va = pdx other ∧ ptx va = ptx other := by
  simp only [pdx, ptx, PGSIZE, Fin.mk.injEq] at *
  omega

theorem Mem.pte_congr (m : Mem) (d : Frame) {va other : Nat}
    (h : va / PGSIZE = other / PGSIZE) : m.pte d va = m.pte d other := by
  simp only [Mem.pte, (pdx_eq h).1, (pdx_eq h).2]

theorem Located.pte {m : Mem} {d t : Frame} {va : Nat} {j : Index}
    (h : Located m d va t j) : m.pte d va = m.page t j := by
  simp only [Mem.pte, if_pos h.present, h.addr, h.index]

@[simp] theorem zero_absent : Word.has 0#32 PTE_P = false := by decide

@[simp] theorem Mem.setPage_same (m : Mem) (f : Frame) (content : Index → Word) :
    (m.setPage f content).page f = content := by
  simp [Mem.setPage]

theorem Mem.setPage_other (m : Mem) {f g : Frame} (content : Index → Word)
    (hne : g ≠ f) : (m.setPage f content).page g = m.page g := by
  simp [Mem.setPage, Function.update_of_ne hne]

theorem Mem.setWord_other (m : Mem) {f g : Frame} (i : Index) (w : Word)
    (hne : g ≠ f) : (m.setWord f i w).page g = m.page g :=
  m.setPage_other _ hne

theorem Mem.setWord_apply (m : Mem) (f : Frame) (i j : Index) (w : Word) :
    (m.setWord f i w).page f j = if j = i then w else m.page f j := by
  simp [Mem.setWord, Function.update_apply]

theorem Mem.pte_of_pages {m next : Mem} {d : Frame}
    (hdir : next.page d = m.page d)
    (htables : ∀ i, (m.page d i).has PTE_P = true →
      next.page (m.page d i).addr = m.page (m.page d i).addr) (va : Nat) :
    next.pte d va = m.pte d va := by
  simp only [Mem.pte, hdir]
  split
  next hpresent => rw [htables _ hpresent]
  next => rfl

namespace Owned

variable {home : Frame → Nat → Nat} {role : Frame → Role} {m next : Mem}
  {d t f : Frame} {va : Nat} {j : Index}

theorem plain (h : Owned home role m) (hdir : role f ≠ .dir)
    (htable : ∀ d i, role f ≠ .table d i) : Plain role m f := by
  refine ⟨hdir, ?_⟩
  rintro d i hd hpresent rfl
  exact htable d i (h.table d i hd hpresent)

theorem unref (h : Owned home role m) (hdir : role f ≠ .dir)
    (hof : (role f).of = none) : Unref role m f := by
  refine ⟨h.plain hdir ?_, ?_⟩
  · intro d i hf
    rw [hf] at hof
    contradiction
  · rintro d va hd hva hpresent rfl
    rw [h.user d va hd hva hpresent] at hof
    contradiction

theorem unref_loose (h : Owned home role m) (hf : role f = .loose) :
    Unref role m f :=
  h.unref (by simp [hf]) (by rw [hf]; rfl)

theorem pte_setPage (hf : Plain role m f) (hd : role d = .dir)
    (content : Index → Word) (va : Nat) :
    (m.setPage f content).pte d va = m.pte d va := by
  refine Mem.pte_of_pages (m.setPage_other _ ?_) (fun i hpresent => ?_) va
  · rintro rfl
    exact hf.dir hd
  · exact m.setPage_other _ (hf.table d i hd hpresent)

theorem setPage (h : Owned home role m) (hf : Plain role m f)
    (content : Index → Word) : Owned home role (m.setPage f content) := by
  have hpage : ∀ {d}, role d = .dir → (m.setPage f content).page d = m.page d := by
    intro d hd
    refine m.setPage_other _ ?_
    rintro rfl
    exact hf.dir hd
  constructor
  case nodup => exact h.nodup
  case free => exact h.free
  case live => exact h.live
  case table =>
    intro d i hd
    rw [hpage hd]
    exact h.table d i hd
  case user =>
    intro d va hd
    rw [pte_setPage hf hd]
    exact h.user d va hd
  case kernel =>
    intro d va hd
    rw [pte_setPage hf hd]
    exact h.kernel d va hd

/-- A page without references takes another role, on the free list or off
it. -/
theorem retag (h : Owned home role m) (hf : Unref role m f)
    (tag : Role) (htag : tag ≠ .dir) (hof : ∀ d, tag.of = some d → role d = .dir)
    {freelist : List Frame} (hnodup : freelist.Nodup)
    (hfree : ∀ g, g ∈ freelist ↔ Function.update role f tag g = .free) :
    Owned home (Function.update role f tag)
      { m with freelist := freelist } := by
  have hdirs : ∀ {d}, Function.update role f tag d = .dir → role d = .dir := by
    intro d hd
    rw [Function.update_apply] at hd
    split at hd
    · exact absurd hd htag
    · exact hd
  have hlive : ∀ {d}, role d = .dir → Function.update role f tag d = .dir := by
    intro d hd
    rw [Function.update_of_ne]
    · exact hd
    · rintro rfl
      exact hf.dir hd
  constructor
  case nodup => exact hnodup
  case free => exact hfree
  case live =>
    intro g d hg
    rw [Function.update_apply] at hg
    split at hg
    · exact hlive (hof d hg)
    · exact hlive (h.live g d hg)
  case table =>
    intro d i hd hpresent
    have hd := hdirs hd
    rw [Function.update_of_ne (hf.table d i hd hpresent)]
    exact h.table d i hd hpresent
  case user =>
    intro d va hd hva hpresent
    have hd := hdirs hd
    refine (Function.update_of_ne (hf.user d va hd hva hpresent) ..).trans ?_
    exact h.user d va hd hva hpresent
  case kernel => exact fun d va hd => h.kernel d va (hdirs hd)

theorem reassign (h : Owned home role m) (hf : Unref role m f)
    (hused : role f ≠ .free) (tag : Role) (hfree : tag ≠ .free)
    (htag : tag ≠ .dir) (hof : ∀ d, tag.of = some d → role d = .dir) :
    Owned home (Function.update role f tag) m := by
  refine h.retag hf tag htag hof h.nodup fun g => ?_
  rw [h.free, Function.update_apply]
  split
  next heq =>
    rw [heq]
    exact iff_of_false hused hfree
  next => rfl

theorem kalloc {rest : List Frame} (h : Owned home role m)
    (hlist : m.freelist = f :: rest) :
    Owned home (Function.update role f .loose)
      { m with freelist := rest } := by
  have hf : role f = .free := (h.free f).mp (by simp [hlist])
  have hnodup := h.nodup
  rw [hlist, List.nodup_cons] at hnodup
  have hunref := h.unref (f := f) (by simp [hf]) (by rw [hf]; rfl)
  refine h.retag hunref .loose nofun nofun hnodup.2 fun g => ?_
  rw [Function.update_apply]
  split
  next heq =>
    rw [heq]
    exact iff_of_false hnodup.1 nofun
  next hne =>
    rw [← h.free, hlist, List.mem_cons]
    simp [hne]

theorem kfree (h : Owned home role m) (hf : Unref role m f)
    (hused : role f ≠ .free) (content : Index → Word) :
    Owned home (Function.update role f .free)
      { m.setPage f content with freelist := f :: m.freelist } := by
  have hunref : Unref role (m.setPage f content) f := by
    refine ⟨⟨hf.dir, fun d i hd => ?_⟩, fun d va hd => ?_⟩
    · rw [m.setPage_other]
      · exact hf.table d i hd
      · rintro rfl
        exact hf.dir hd
    · rw [pte_setPage hf.toPlain hd]
      exact hf.user d va hd
  refine (h.setPage hf.toPlain content).retag hunref .free nofun nofun ?_
    fun g => ?_
  · rw [List.nodup_cons]
    exact ⟨fun hmem => hused ((h.free f).mp hmem), h.nodup⟩
  · rw [List.mem_cons, Function.update_apply]
    split
    next heq => exact iff_of_true (.inl heq) rfl
    next hne =>
      rw [← h.free]
      simp [hne]

theorem located_role (h : Owned home role m) (hd : role d = .dir)
    (hloc : Located m d va t j) : role t = .table d (pdx va) := by
  rw [← hloc.addr]
  exact h.table d _ hd hloc.present

/-- A write to one entry changes what is mapped at one page of one
directory. -/
theorem pte_setWord (h : Owned home role m) (hd : role d = .dir)
    (hloc : Located m d va t j) (hva : va < 2 ^ 32) (w : Word) {g : Frame}
    {other : Nat} (hg : role g = .dir) (hother : other < 2 ^ 32) :
    (m.setWord t j w).pte g other =
      if g = d ∧ other / PGSIZE = va / PGSIZE then w else m.pte g other := by
  have ht := h.located_role hd hloc
  have hgt : g ≠ t := by
    rintro rfl
    rw [hg] at ht
    contradiction
  have hpage := m.setWord_other j w hgt
  simp only [Mem.pte, hpage]
  by_cases hpresent : (m.page g (pdx other)).has PTE_P = true
  · rw [if_pos hpresent, if_pos hpresent]
    by_cases haddr : (m.page g (pdx other)).addr = t
    · have hrole := h.table g _ hg hpresent
      rw [haddr, ht, Role.table.injEq] at hrole
      obtain ⟨rfl, hpdx⟩ := hrole
      rw [haddr, m.setWord_apply, hloc.index]
      congr 1
      refine propext ⟨fun hptx => ⟨rfl, ?_⟩, fun hsame => ?_⟩
      · exact page_eq hother hva hpdx.symm hptx
      · exact (pdx_eq hsame.2).2
    · rw [m.setWord_other j w haddr, if_neg]
      rintro ⟨rfl, hsame⟩
      rw [(pdx_eq hsame).1] at haddr
      exact haddr hloc.addr
  · rw [if_neg hpresent, if_neg hpresent, if_neg]
    rintro ⟨rfl, hsame⟩
    rw [(pdx_eq hsame).1] at hpresent
    exact hpresent hloc.present

theorem setEntry (h : Owned home role m) (hd : role d = .dir)
    (hloc : Located m d va t j) (hva : va < 2 ^ 32) {w : Word}
    (huser : va < KERNBASE → w.has PTE_P = true →
      role w.addr = .user d (home d (va / PGSIZE)))
    (hkernel : KERNBASE ≤ va → w.has PTE_P = true → w.has PTE_U = false) :
    Owned home role (m.setWord t j w) := by
  have ht := h.located_role hd hloc
  have hpage : ∀ {g}, role g = .dir → (m.setWord t j w).page g = m.page g := by
    intro g hg
    refine m.setWord_other j w ?_
    rintro rfl
    rw [hg] at ht
    contradiction
  constructor
  case nodup => exact h.nodup
  case free => exact h.free
  case live => exact h.live
  case table =>
    intro g i hg
    rw [hpage hg]
    exact h.table g i hg
  case user =>
    intro g other hg hother
    have hlt : other < 2 ^ 32 := lt_trans hother (by decide)
    rw [h.pte_setWord hd hloc hva w hg hlt]
    split
    next hsame =>
      obtain ⟨rfl, hsame⟩ := hsame
      rw [hsame]
      refine huser ?_
      simp only [PGSIZE, KERNBASE] at *
      omega
    next => exact h.user g other hg hother
  case kernel =>
    intro g other hg hother hlt
    rw [h.pte_setWord hd hloc hva w hg hlt]
    split
    next hsame =>
      refine hkernel ?_
      obtain ⟨_, hsame⟩ := hsame
      simp only [PGSIZE, KERNBASE] at *
      omega
    next => exact h.kernel g other hg hother hlt

theorem pte_newTable (h : Owned home role m) (hd : role d = .dir) {i : Index}
    (habsent : (m.page d i).has PTE_P = false) (htd : t ≠ d)
    (hzero : m.page t = fun _ => 0) (flags : PteFlags) {g : Frame} (hg : role g = .dir) (va : Nat) :
    (m.setWord d i (.pte t flags)).pte g va = m.pte g va := by
  by_cases hgd : g = d
  · subst hgd
    have htables : ∀ k, (m.page g k).has PTE_P = true →
        (m.setWord g i (.pte t flags)).page (m.page g k).addr =
          m.page (m.page g k).addr := by
      intro k hpresent
      refine m.setWord_other _ _ ?_
      intro heq
      have hrole := h.table g k hg hpresent
      rw [heq, hg] at hrole
      contradiction
    by_cases hi : pdx va = i
    · subst hi
      have hpde : (m.setWord g (pdx va) (.pte t flags)).page g (pdx va) =
          .pte t flags := by
        rw [m.setWord_apply, if_pos rfl]
      simp only [Mem.pte, hpde, Word.addr_pte, m.setWord_other _ _ htd, hzero,
        habsent]
      split <;> rfl
    · simp only [Mem.pte, m.setWord_apply, if_neg hi]
      split
      next hpresent => rw [htables _ hpresent]
      next => rfl
  · refine Mem.pte_of_pages (m.setWord_other _ _ hgd) (fun k hpresent => ?_) va
    refine m.setWord_other _ _ ?_
    intro heq
    have hrole := h.table g k hg hpresent
    rw [heq, hd] at hrole
    contradiction

theorem newTable (h : Owned home role m) (hd : role d = .dir) {i : Index}
    (habsent : (m.page d i).has PTE_P = false) (ht : role t = .loose)
    (hzero : m.page t = fun _ => 0) (flags : PteFlags) :
    Owned home (Function.update role t (.table d i))
      (m.setWord d i (.pte t flags)) := by
  have htd : t ≠ d := by
    rintro rfl
    rw [hd] at ht
    contradiction
  have htagged : Owned home (Function.update role t (.table d i)) m :=
    h.reassign (h.unref_loose ht) (by simp [ht]) _ nofun nofun (by
      rintro _ ⟨⟩
      exact hd)
  have hd : Function.update role t (.table d i) d = .dir := by
    rw [Function.update_of_ne htd.symm, hd]
  generalize hrole : Function.update role t (.table d i) = tagged at *
  constructor
  case nodup => exact h.nodup
  case free => exact htagged.free
  case live => exact htagged.live
  case table =>
    intro g k hg
    by_cases hgd : g = d
    · subst hgd
      rw [m.setWord_apply]
      split
      next hk =>
        subst hk
        intro _
        rw [Word.addr_pte, ← hrole, Function.update_self]
      next => exact htagged.table g k hg
    · rw [m.setWord_other _ _ hgd]
      exact htagged.table g k hg
  case user =>
    intro g va hg
    rw [htagged.pte_newTable hd habsent htd hzero flags hg]
    exact htagged.user g va hg
  case kernel =>
    intro g va hg
    rw [htagged.pte_newTable hd habsent htd hzero flags hg]
    exact htagged.kernel g va hg

theorem newDir (h : Owned home role m) (hf : role f = .loose)
    (hzero : m.page f = fun _ => 0) :
    Owned home (Function.update role f .dir) m := by
  have hempty : ∀ va, m.pte f va = 0 := by
    intro va
    simp [Mem.pte, hzero]
  have hother : ∀ {g tag}, role g = tag → tag ≠ .loose →
      Function.update role f .dir g = tag := by
    intro g tag hg htag
    rw [Function.update_of_ne]
    · exact hg
    · rintro rfl
      exact htag (hg.symm.trans hf)
  have hdirs : ∀ {g}, g ≠ f → Function.update role f .dir g = .dir →
      role g = .dir := by
    intro g hne hg
    rwa [Function.update_of_ne hne] at hg
  constructor
  case nodup => exact h.nodup
  case free =>
    intro g
    rw [h.free, Function.update_apply]
    split
    next heq =>
      rw [heq, hf]
      exact iff_of_false nofun nofun
    next => rfl
  case live =>
    intro g d hg
    refine hother (h.live g d ?_) nofun
    rw [Function.update_apply] at hg
    split at hg
    · contradiction
    · exact hg
  case table =>
    intro g i hg hpresent
    by_cases hgf : g = f
    · subst hgf
      simp [hzero] at hpresent
    · exact hother (h.table g i (hdirs hgf hg) hpresent) nofun
  case user =>
    intro g va hg hva hpresent
    by_cases hgf : g = f
    · subst hgf
      simp [hempty] at hpresent
    · exact hother (h.user g va (hdirs hgf hg) hva hpresent) nofun
  case kernel =>
    intro g va hg hva hlt hpresent
    by_cases hgf : g = f
    · subst hgf
      simp [hempty] at hpresent
    · exact h.kernel g va (hdirs hgf hg) hva hlt hpresent

def dropped (role : Frame → Role) (d f : Frame) : Role :=
  if f = d ∨ (role f).of = some d then .loose else role f

theorem dropDir (h : Owned home role m) (hd : role d = .dir) :
    Owned home (dropped role d) m := by
  have hdirs : ∀ {g}, dropped role d g = .dir → g ≠ d ∧ role g = .dir := by
    intro g hg
    unfold dropped at hg
    split at hg
    · contradiction
    next hne => exact ⟨fun heq => hne (.inl heq), hg⟩
  have hkept : ∀ {g f}, g ≠ d → (role f).of = some g →
      dropped role d f = role f := by
    intro g f hgd hf
    rw [dropped, if_neg]
    rintro (rfl | hof)
    · rw [hd] at hf
      contradiction
    · rw [hf, Option.some.injEq] at hof
      exact hgd hof
  constructor
  case nodup => exact h.nodup
  case free =>
    intro g
    rw [h.free]
    unfold dropped
    split
    next hg =>
      refine iff_of_false (fun hfree => ?_) nofun
      rcases hg with rfl | hg
      · rw [hd] at hfree
        contradiction
      · rw [hfree] at hg
        contradiction
    next => rfl
  case live =>
    intro f g hf
    unfold dropped at hf
    split at hf
    · contradiction
    next hne =>
      rw [dropped, if_neg]
      · exact h.live f g hf
      · rintro (rfl | hof)
        · exact hne (.inr hf)
        · rw [h.live f g hf] at hof
          contradiction
  case table =>
    intro g i hg hpresent
    obtain ⟨hgd, hg⟩ := hdirs hg
    have hrole := h.table g i hg hpresent
    rw [hkept hgd (by rw [hrole]; rfl), hrole]
  case user =>
    intro g va hg hva hpresent
    obtain ⟨hgd, hg⟩ := hdirs hg
    have hrole := h.user g va hg hva hpresent
    rw [hkept hgd (by rw [hrole]; rfl), hrole]
  case kernel => exact fun g va hg => h.kernel g va (hdirs hg).2

end Owned

end KernelThreads
