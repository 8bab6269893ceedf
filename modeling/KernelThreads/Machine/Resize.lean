import KernelThreads.Machine.Grow
import KernelThreads.Mem.Duplicate

namespace KernelThreads

open Lib Program

/-! `sbrk` in a process without other threads. -/

/-- `sys_sbrk`, apart from its lock; with it comes the table afterwards. -/
def Table.sysSbrk (t : Table) (q : Slot) (n : Int) : MemProgram (Int × Table) :=
  match t.threadLeader q with
  | none => throw .nullPointer
  | some tleader => do
      let addr := (t tleader).sz
      match ← t.growproc q tleader n with
      | none => return (-1, t)
      | some sz => return (addr, t.setSize q tleader sz)

/-- The directory `d`, its tables and the pages it maps for the user are
different pages in use, and ones that `kfree` takes. -/
structure Mem.Sole (m : Mem) (d : Frame) : Prop extends m.Ready where
  unique : ∀ p p' f, m.places d (m.entry d) none p = some f →
    m.places d (m.entry d) none p' = some f → p = p'
  used : ∀ p f, m.places d (m.entry d) none p = some f → f ∉ m.freelist
  taken : ∀ p f, m.places d (m.entry d) none p = some f → m.image.allocates f

def Mem.pool (m : Mem) (d f : Frame) : Prop :=
  f ∈ m.freelist ∨ ∃ p, m.places d (m.entry d) none p = some f

def Mem.data (m : Mem) (d : Frame) (page : Nat) : Content := m.page (m.entry d page).addr

theorem Mem.Sole.vm {m : Mem} {d : Frame} (h : m.Sole d) :
    Vm (m.pool d) m d (m.entry d) (m.data d) none m where
  pooled := by
    rintro f (hfree | ⟨p, hp⟩)
    · exact h.frees f hfree
    · exact h.taken p f hp
  nodup := h.nodup
  owned := by
    refine ⟨h.unique, fun p f hp hout => hout (.inr ⟨p, hp⟩), fun f => ?_⟩
    rw [decide_eq_true_eq]
    constructor
    · intro hused
      by_cases hplace : ∃ p, m.places d (m.entry d) none p = some f
      · exact .inr hplace
      · exact .inl (not_or.mpr ⟨hused, hplace⟩)
    · rintro (hout | ⟨p, hp⟩)
      · exact fun hfree => hout (.inl hfree)
      · exact h.used p f hp
  image := rfl
  kept _ _ := rfl
  view va _ := (m.entry_page d va).symm
  contents _ _ _ := rfl
  holding := nofun

/-- The pages mapped for the user are those of `[0, PGROUNDUP(sz))`. -/
def Mem.Spans (m : Mem) (d : Frame) (sz : Nat) : Prop :=
  ∀ va < KERNBASE, (m.pte d va).has PTE_P = true ↔ va < pgRoundUp sz

structure Mem.Resized (m : Mem) (d : Frame) (sz newsz : Nat) (next : Mem) : Prop where
  spans : next.Spans d newsz
  kept : ∀ va < pgRoundUp sz, va < pgRoundUp newsz → next.pte d va = m.pte d va ∧
    next.page (next.pte d va).addr = m.page (m.pte d va).addr
  zero : ∀ va, pgRoundUp sz ≤ va → va < pgRoundUp newsz →
    next.page (next.pte d va).addr = fun _ => 0

/-- The user part of the directory is as before, and so are the free pages, apart
from page tables. -/
structure Mem.Unchanged (m : Mem) (d : Frame) (next : Mem) : Prop where
  present : ∀ va < KERNBASE, (next.pte d va).has PTE_P = (m.pte d va).has PTE_P
  kept : ∀ va < KERNBASE, (m.pte d va).has PTE_P = true → next.pte d va = m.pte d va ∧
    next.page (next.pte d va).addr = m.page (m.pte d va).addr
  free : ∀ f, (∀ i, (m.page d i).target ≠ some f) → (∀ i, (next.page d i).target ≠ some f) →
    (f ∈ next.freelist ↔ f ∈ m.freelist)

def SbrkContract (t : Table) (q : Slot) (d : Frame) (n : Int) (m : Mem)
    (returned : Int × Table) (next : Mem) : Prop :=
  (returned.1 = (t q).sz ∧ ∃ newsz : Nat, (newsz : Int) = (t q).sz + n ∧
      (returned.2 q).sz = newsz ∧ m.Resized d (t q).sz newsz next) ∨
    returned.1 = -1 ∧ (returned.2 q).sz = (t q).sz ∧ m.Unchanged d next

namespace Vm

variable {m next : Mem} {d : Frame} {after : Nat → Word} {data : Nat → Content}
  {sz newsz : Nat}

theorem unchanged (h : Vm (m.pool d) m d after (m.data d) none next) (hsole : m.Sole d)
    (hpresent : ∀ page, page * PGSIZE < KERNBASE → (m.entry d page).has PTE_P = true →
      after page = m.entry d page)
    (habsent : ∀ page, page * PGSIZE < KERNBASE → (m.entry d page).has PTE_P = false →
      (after page).has PTE_P = false) : m.Unchanged d next := by
  have hview : ∀ va < KERNBASE, next.pte d va = after (va / PGSIZE) := fun va hva =>
    h.view va (lt_two_pow hva)
  constructor
  case present =>
    intro va hva
    rw [hview va hva, ← m.entry_page]
    cases hold : (m.entry d (va / PGSIZE)).has PTE_P with
    | false => exact habsent _ (user_page hva) hold
    | true => rw [hpresent _ (user_page hva) hold, hold]
  case kept =>
    intro va hva hold
    rw [← m.entry_page] at hold
    have hsame := hpresent _ (user_page hva) hold
    have hcontents := h.contents _ (user_page hva) (by rw [hsame, hold])
    rw [hview va hva, hcontents, hsame, ← m.entry_page]
    exact ⟨rfl, rfl⟩
  case free =>
    intro f hbefore hafter
    rw [h.free_iff]
    constructor
    · rintro ⟨hfree | ⟨p, hp⟩, hnone⟩
      · exact hfree
      · exfalso
        cases p with
        | dir => exact hnone .dir hp
        | table i => exact hbefore i hp
        | user page =>
            simp only [placed] at hp
            split at hp
            next hpage =>
              have hold := (Word.target_eq_some.mp hp).1
              refine hnone (.user page) ?_
              simp only [placed, if_pos hpage, hpresent page hpage hold]
              exact hp
            next => cases hp
        | held => cases hp
    · intro hfree
      refine ⟨.inl hfree, fun p hp => ?_⟩
      cases p with
      | dir => exact hsole.used .dir f hp hfree
      | table i => exact hafter i hp
      | user page =>
          simp only [placed] at hp
          split at hp
          next hpage =>
            have hnew := (Word.target_eq_some.mp hp).1
            cases hold : (m.entry d page).has PTE_P with
            | false =>
                rw [habsent page hpage hold] at hnew
                cases hnew
            | true =>
                rw [hpresent page hpage hold] at hp
                exact hsole.used (.user page) f (by simp only [placed, if_pos hpage, hp]) hfree
          next => cases hp
      | held => cases hp

theorem spans_entry (hspans : m.Spans d sz) {page : Nat} (hpage : page * PGSIZE < KERNBASE) :
    (m.entry d page).has PTE_P = true ↔ page * PGSIZE < sz := by
  rw [Mem.entry, hspans _ hpage, lt_pgRoundUp_iff, Nat.mul_div_cancel _ (by decide)]

theorem grown (h : Vm (m.pool d) m d after data none next) (hspans : m.Spans d sz)
    (hle : sz ≤ newsz) (hzeroed : Zeroed (m.entry d) after (m.data d) data
      (pgRoundUp sz) (max (pgRoundUp sz) (pgRoundUp newsz))) (hsz : newsz ≤ KERNBASE) :
    m.Resized d sz newsz next := by
  have hround : pgRoundUp sz ≤ pgRoundUp newsz := pgRoundUp_le_aligned
    (Space.pgRoundUp_aligned _) (hle.trans (Space.le_pgRoundUp _))
  rw [max_eq_right hround] at hzeroed
  have hbelow : ∀ va, va < pgRoundUp newsz → va < KERNBASE := fun va hva =>
    lt_of_lt_of_le hva (pgRoundUp_le_aligned (by decide) hsz)
  have hview : ∀ va < KERNBASE, next.pte d va = after (va / PGSIZE) := fun va hva =>
    h.view va (lt_two_pow hva)
  have hpage : ∀ va low, low % PGSIZE = 0 → (low ≤ va / PGSIZE * PGSIZE ↔ low ≤ va) := by
    intro va low hlow
    simp only [PGSIZE] at *
    omega
  have hold : ∀ va, ¬ (pgRoundUp sz ≤ va ∧ va < pgRoundUp newsz) →
      ¬ (pgRoundUp sz ≤ va / PGSIZE * PGSIZE ∧ va / PGSIZE * PGSIZE < pgRoundUp newsz) := by
    intro va hva hin
    refine hva ⟨(hpage va _ (Space.pgRoundUp_aligned _)).mp hin.1, ?_⟩
    by_contra hout
    exact absurd hin.2 (not_lt.mpr ((hpage va _ (Space.pgRoundUp_aligned _)).mpr
      (not_lt.mp hout)))
  have hnew : ∀ va, pgRoundUp sz ≤ va → va < pgRoundUp newsz →
      (after (va / PGSIZE)).has PTE_P = true := by
    intro va hlow hhigh
    exact (Word.has_of_flags (hzeroed.flags _
      ((hpage va _ (Space.pgRoundUp_aligned _)).mpr hlow)
      (lt_of_le_of_lt (Nat.div_mul_le_self ..) hhigh))).1
  constructor
  case spans =>
    intro va hva
    rw [hview va hva]
    by_cases hin : pgRoundUp sz ≤ va ∧ va < pgRoundUp newsz
    · exact ⟨fun _ => hin.2, fun _ => hnew va hin.1 hin.2⟩
    · rw [hzeroed.same _ (hold va hin), m.entry_page, hspans va hva]
      omega
  case kept =>
    intro va hlow hva
    have hin := hold va fun hin => absurd hlow (not_lt.mpr hin.1)
    have hthere := (hspans va (hbelow va hva)).mpr hlow
    rw [← m.entry_page, ← hzeroed.same _ hin] at hthere
    rw [hview va (hbelow va hva), h.contents _ (user_page (hbelow va hva)) hthere,
      hzeroed.same _ hin, hzeroed.kept _ hin, ← m.entry_page]
    exact ⟨rfl, rfl⟩
  case zero =>
    intro va hlow hva
    rw [hview va (hbelow va hva),
      h.contents _ (user_page (hbelow va hva)) (hnew va hlow hva)]
    exact hzeroed.zero _ ((hpage va _ (Space.pgRoundUp_aligned _)).mpr hlow)
      (lt_of_le_of_lt (Nat.div_mul_le_self ..) hva)

theorem shrunk (h : Vm (m.pool d) m d (cleared (m.entry d) (pgRoundUp newsz) sz) (m.data d)
      none next) (hspans : m.Spans d sz) (hle : newsz ≤ sz) (hsz : sz ≤ KERNBASE) :
    m.Resized d sz newsz next := by
  have hround : pgRoundUp newsz ≤ pgRoundUp sz := pgRoundUp_le_aligned
    (Space.pgRoundUp_aligned _) (hle.trans (Space.le_pgRoundUp _))
  have hbelow : ∀ va, va < pgRoundUp newsz → va < KERNBASE := fun va hva =>
    lt_of_lt_of_le hva (hround.trans (pgRoundUp_le_aligned (by decide) hsz))
  have hview : ∀ va < KERNBASE, next.pte d va =
      cleared (m.entry d) (pgRoundUp newsz) sz (va / PGSIZE) := fun va hva =>
    h.view va (lt_two_pow hva)
  have hlow : ∀ va, va < pgRoundUp newsz →
      cleared (m.entry d) (pgRoundUp newsz) sz (va / PGSIZE) = m.pte d va := by
    intro va hva
    rw [← m.entry_page]
    refine Space.outside_cleared (fun _ _ => rfl) _ fun hin => ?_
    exact absurd (lt_of_le_of_lt (Nat.div_mul_le_self ..) hva) (not_lt.mpr hin.1)
  constructor
  case spans =>
    intro va hva
    rw [hview va hva]
    by_cases hin : va < pgRoundUp newsz
    · rw [hlow va hin, hspans va hva]
      exact ⟨fun _ => hin, fun _ => lt_of_lt_of_le hin hround⟩
    · refine ⟨fun hthere => ?_, fun hthere => absurd hthere hin⟩
      have hup : pgRoundUp newsz ≤ va / PGSIZE * PGSIZE := by
        have haligned := Space.pgRoundUp_aligned newsz
        simp only [PGSIZE] at *
        omega
      by_cases hold : va / PGSIZE * PGSIZE < sz
      · rw [Space.cleared_absent hup hold] at hthere
        cases hthere
      · rw [Space.outside_cleared (fun _ _ => rfl) _ fun hin => hold hin.2,
          spans_entry hspans (user_page hva)] at hthere
        exact absurd hthere hold
  case kept =>
    intro va hva hnew
    have hthere := (hspans va (hbelow va hnew)).mpr hva
    rw [← hlow va hnew] at hthere
    rw [hview va (hbelow va hnew), h.contents _ (user_page (hbelow va hnew)) hthere,
      hlow va hnew, Mem.data, m.entry_page]
    exact ⟨rfl, rfl⟩
  case zero =>
    intro va hold hnew
    exact absurd (lt_of_lt_of_le hnew hround) (not_lt.mpr hold)

end Vm

namespace Table

variable {t : Table} {q : Slot} {d : Frame} {n : Int} {m next : Mem}

theorem setSize_same (t : Table) (q : Slot) (sz : Nat) : (t.setSize q q sz q).sz = sz := by
  simp [setSize]

theorem meets_sysSbrk {post : Int × Table → Mem → Prop} (grown : Nat → Mem → Prop)
    (hleader : (t q).tid = -1) (hdir : (t q).pgdir = some d) (hn : n ≠ 0)
    (hgrown : Meets (if 0 < n then allocuvm d (t q).sz (resized (t q).sz n)
      else deallocuvm d (t q).sz (resized (t q).sz n)) (fun _ => False) m grown)
    (hnone : ∀ next, grown 0 next → post (-1, t) next)
    (hsome : ∀ sz next, sz ≠ 0 → grown sz next → post ((t q).sz, t.setSize q q sz) next) :
    Meets (t.sysSbrk q n) (fun _ => False) m post := by
  have hthread : t.threadLeader q = some q := if_pos hleader
  have hresult : Meets (t.growproc q q n) (fun _ => False) m fun result next =>
      (result = none ∧ grown 0 next) ∨ ∃ sz ≠ 0, result = some sz ∧ grown sz next := by
    rw [growproc_eq hdir hn]
    refine Meets.bind hgrown fun sz next hnext => Meets.pure ?_
    by_cases hsz : sz = 0
    · rw [if_pos hsz]
      exact .inl ⟨rfl, hsz ▸ hnext⟩
    · rw [if_neg hsz]
      exact .inr ⟨sz, hsz, rfl, hnext⟩
  unfold sysSbrk
  rw [hthread]
  refine Meets.bind hresult ?_
  rintro result next (⟨rfl, hnext⟩ | ⟨sz, hsz, rfl, hnext⟩)
  · exact Meets.pure (hnone next hnext)
  · exact Meets.pure (hsome sz next hsz hnext)

/-- A process without other threads: its directory `d` maps the pages of its
size. -/
structure Alone (t : Table) (q : Slot) (d : Frame) (m : Mem) : Prop where
  leader : (t q).tid = -1
  pgdir : (t q).pgdir = some d
  size : (t q).sz ≤ KERNBASE
  sole : m.Sole d
  spans : m.Spans d (t q).sz

namespace Alone

theorem refused (h : t.Alone q d m) : SbrkContract t q d n m (-1, t) m :=
  .inr ⟨rfl, rfl, h.sole.vm.unchanged h.sole (fun _ _ _ => rfl) fun _ _ habsent => habsent⟩

theorem meets_same (h : t.Alone q d m) :
    Meets (t.sysSbrk q 0) (fun _ => False) m (SbrkContract t q d 0 m) := by
  have hthread : t.threadLeader q = some q := if_pos h.leader
  have hrun : t.sysSbrk q 0 m = .ok (((t q).sz, t.setSize q q (t q).sz), m) := by
    unfold sysSbrk
    rw [hthread]
    rfl
  refine Meets.of_ok hrun (.inl ⟨rfl, (t q).sz, (add_zero _).symm, setSize_same .., ?_⟩)
  exact h.sole.vm.grown h.spans le_rfl (by
    rw [max_self]
    exact .refl ..) h.size

theorem meets_grow (h : t.Alone q d m) (hn : 0 < n) (hint : n < 2 ^ 31) :
    Meets (t.sysSbrk q n) (fun _ => False) m (SbrkContract t q d n m) := by
  have hsize := h.size
  have hsum : (resized (t q).sz n : Int) = (t q).sz + n := by
    simp only [resized, KERNBASE] at *
    omega
  by_cases hbig : KERNBASE ≤ resized (t q).sz n
  · refine meets_sysSbrk (fun sz next => sz = 0 ∧ next = m) h.leader h.pgdir
      (ne_of_gt hn) ?_ ?_ ?_
    · rw [if_pos hn, allocuvm, if_pos hbig]
      exact Meets.pure ⟨rfl, rfl⟩
    · rintro next ⟨_, rfl⟩
      exact h.refused
    · rintro sz next hsz ⟨hzero, _⟩
      exact absurd hzero hsz
  · have hle : (t q).sz ≤ resized (t q).sz n := by omega
    have hlt := not_le.mp hbig
    have habsent : ∀ page, pgRoundUp (t q).sz ≤ page * PGSIZE →
        page * PGSIZE < resized (t q).sz n → (m.entry d page).has PTE_P = false := by
      intro page hpage hhigh
      rw [← Bool.not_eq_true, Vm.spans_entry h.spans (lt_trans hhigh hlt), not_lt]
      exact (Space.le_pgRoundUp _).trans hpage
    have halloc := h.sole.vm.meets_allocuvm hlt hle habsent
    refine meets_sysSbrk _ h.leader h.pgdir (ne_of_gt hn)
      (by rw [if_pos hn]; exact halloc) ?_ ?_
    · intro next hnext
      rcases hnext with ⟨hzero, _⟩ | ⟨_, _, after, hemptied, hvm⟩
      · omega
      · refine .inr ⟨rfl, rfl, hvm.unchanged h.sole ?_ ?_⟩
        · intro page hpage hthere
          rw [Vm.spans_entry h.spans hpage] at hthere
          exact hemptied.same page fun hin => absurd
            (lt_of_lt_of_le hthere (Space.le_pgRoundUp _)) (not_lt.mpr hin.1)
        · intro page hpage hgone
          by_cases hin : pgRoundUp (t q).sz ≤ page * PGSIZE ∧
              page * PGSIZE < resized (t q).sz n
          · exact hemptied.gone page hin.1 hin.2
          · rw [hemptied.same page hin, hgone]
    · intro sz next hsz hnext
      rcases hnext with ⟨rfl, after, data, hzeroed, hvm⟩ | ⟨hzero, _⟩
      · exact .inl ⟨rfl, _, hsum, setSize_same .., hvm.grown h.spans hle hzeroed
          (le_of_lt hlt)⟩
      · exact absurd hzero hsz

theorem meets_shrink {post : Int × Table → Mem → Prop} (h : t.Alone q d m) (hn : n < 0)
    (hnone : ∀ next, min (t q).sz (resized (t q).sz n) = 0 →
      Vm (m.pool d) m d (cleared (m.entry d) (pgRoundUp (resized (t q).sz n)) (t q).sz)
        (m.data d) none next → post (-1, t) next)
    (hsome : ∀ next, min (t q).sz (resized (t q).sz n) ≠ 0 →
      Vm (m.pool d) m d (cleared (m.entry d) (pgRoundUp (resized (t q).sz n)) (t q).sz)
        (m.data d) none next →
      post ((t q).sz, t.setSize q q (min (t q).sz (resized (t q).sz n))) next) :
    Meets (t.sysSbrk q n) (fun _ => False) m post := by
  have hfree := h.sole.vm.meets_deallocuvm (resized (t q).sz n) h.size
  refine meets_sysSbrk _ h.leader h.pgdir (ne_of_lt hn)
    (by rw [if_neg (not_lt.mpr (le_of_lt hn))]; exact hfree) ?_ ?_
  · rintro next ⟨hzero, hvm⟩
    exact hnone next hzero.symm hvm
  · rintro sz next hsz ⟨rfl, hvm⟩
    exact hsome next hsz hvm

theorem meets_fits (h : t.Alone q d m) (hn : n < 0) (hpos : 0 < (t q).sz + n) :
    Meets (t.sysSbrk q n) (fun _ => False) m (SbrkContract t q d n m) := by
  have hsize := h.size
  have hsum : (resized (t q).sz n : Int) = (t q).sz + n := by
    simp only [resized, KERNBASE] at *
    omega
  have hle : resized (t q).sz n ≤ (t q).sz := by omega
  refine h.meets_shrink hn (fun next hzero => ?_) fun next _ hvm => ?_
  · rw [min_eq_right hle] at hzero
    omega
  · rw [min_eq_right hle]
    exact .inl ⟨rfl, _, hsum, setSize_same .., hvm.shrunk h.spans hle h.size⟩

theorem meets_empty (h : t.Alone q d m) (hn : n < 0) (hempty : (t q).sz = 0) :
    Meets (t.sysSbrk q n) (fun _ => False) m (SbrkContract t q d n m) := by
  refine h.meets_shrink hn (fun next _ hvm => ?_) fun next hpos => ?_
  · rw [hempty, cleared_empty (Nat.zero_le _)] at hvm
    exact .inr ⟨rfl, rfl, hvm.unchanged h.sole (fun _ _ _ => rfl) fun _ _ hgone => hgone⟩
  · rw [hempty] at hpos
    exact absurd (Nat.zero_min _) hpos

theorem meets_breach_zero (h : t.Alone q d m) (hn : n < 0) (hzero : (t q).sz + n = 0) :
    Meets (t.sysSbrk q n) (fun _ => False) m fun returned next =>
      ¬ SbrkContract t q d n m returned next := by
  have hresized : resized (t q).sz n = 0 := by
    rw [resized, hzero]
    rfl
  have hstart : 0 / PGSIZE * PGSIZE = 0 := by decide
  refine h.meets_shrink hn (fun next _ hvm => ?_) fun next hpos => ?_
  · rintro (⟨hreturned, _⟩ | ⟨_, _, hsame⟩)
    · have hnat : (-1 : Int) = ((t q).sz : Nat) := hreturned
      omega
    · have hbefore : (m.pte d 0).has PTE_P = true := by
        rw [h.spans 0 (by decide), lt_pgRoundUp_iff, hstart]
        omega
      have hround : pgRoundUp 0 ≤ 0 / PGSIZE * PGSIZE := by decide
      rw [← hsame.present 0 (by decide), hvm.view 0 (by decide), hresized,
        Space.cleared_absent hround (by omega)] at hbefore
      cases hbefore
  · rw [hresized] at hpos
    exact absurd (Nat.min_zero _) hpos

theorem meets_breach_wrap (h : t.Alone q d m) (hint : -2 ^ 31 ≤ n)
    (hneg : (t q).sz + n < 0) (hpos : 0 < (t q).sz) :
    Meets (t.sysSbrk q n) (fun _ => False) m fun returned next =>
      ¬ SbrkContract t q d n m returned next := by
  have hsize := h.size
  have hle : (t q).sz ≤ resized (t q).sz n := by
    simp only [resized, KERNBASE] at *
    omega
  refine h.meets_shrink (by omega) (fun next hzero => ?_) fun next _ _ => ?_
  · rw [min_eq_left hle] at hzero
    omega
  · rintro (⟨_, newsz, hsum, _⟩ | ⟨hreturned, _⟩)
    · omega
    · have hnat : (((t q).sz : Nat) : Int) = -1 := hreturned
      omega

end Alone

/-- `sbrk` keeps its contract just if it does not give back everything. -/
theorem sysSbrk_contract_iff (t : Table) (q : Slot) (d : Frame) (n : Int) (m : Mem)
    (h : t.Alone q d m) (hlow : -2 ^ 31 ≤ n) (hhigh : n < 2 ^ 31) :
    (∃ returned next, t.sysSbrk q n m = .ok (returned, next) ∧
        SbrkContract t q d n m returned next) ↔
      0 ≤ n ∨ 0 < (t q).sz + n ∨ (t q).sz = 0 := by
  constructor
  · rintro ⟨returned, next, hrun, hcontract⟩
    by_contra hcond
    have hsum : (t q).sz + n = 0 ∨ (t q).sz + n < 0 := by omega
    rcases hsum with hzero | hneg
    · exact (h.meets_breach_zero (by omega) hzero).ok hrun hcontract
    · exact (h.meets_breach_wrap hlow hneg (by omega)).ok hrun hcontract
  · intro hcond
    rcases lt_trichotomy n 0 with hn | rfl | hn
    · rcases hcond with hle | hpos | hempty
      · omega
      · exact (h.meets_fits hn hpos).returns
      · exact (h.meets_empty hn hempty).returns
    · exact h.meets_same.returns
    · exact (h.meets_grow hn hhigh).returns

end Table

section Sample

theorem onePageMem_entry {page : Nat} (hpage : page * PGSIZE < KERNBASE) :
    onePageMem.entry 500 page = if page = 0 then .pte 502 (PTE_P ||| PTE_W) else 0 := by
  by_cases hzero : page = 0
  · rw [if_pos hzero, hzero]
    rfl
  rw [if_neg hzero, Mem.entry, Mem.pte]
  by_cases hpdx : pdx (page * PGSIZE) = 0
  · have hptx : ptx (page * PGSIZE) ≠ 0 := by
      simp only [pdx, ptx, PGSIZE, KERNBASE, ne_eq, Fin.ext_iff, Fin.val_zero] at *
      omega
    simp [onePageMem, roomyMem, hpdx, hptx]
  · simp [onePageMem, roomyMem, hpdx]

theorem onePageMem_places {p : Place} {f : Frame}
    (h : onePageMem.places 500 (onePageMem.entry 500) none p = some f) :
    (p = .dir ∧ f = 500) ∨ (p = .table 0 ∧ f = 501) ∨ p = .user 0 ∧ f = 502 := by
  cases p with
  | dir =>
      cases h
      exact .inl ⟨rfl, rfl⟩
  | table i =>
      obtain ⟨hpresent, haddr⟩ := Word.target_eq_some.mp h
      by_cases hi : i = 0
      · subst hi
        exact .inr (.inl ⟨rfl, haddr.symm⟩)
      · simp [onePageMem, roomyMem, hi] at hpresent
  | user page =>
      simp only [placed] at h
      split at h
      next hpage =>
        rw [onePageMem_entry hpage] at h
        by_cases hzero : page = 0
        · subst hzero
          exact .inr (.inr ⟨rfl, (Word.target_eq_some.mp h).2.symm⟩)
        · rw [if_neg hzero] at h
          simp [Word.target] at h
      next => cases h
  | held => cases h

theorem onePageMem_sole : onePageMem.Sole 500 where
  toReady := onePageMem_ready
  unique := by
    intro p p' f hp hp'
    rcases onePageMem_places hp with ⟨rfl, rfl⟩ | ⟨rfl, rfl⟩ | ⟨rfl, rfl⟩ <;>
      rcases onePageMem_places hp' with ⟨rfl, hf⟩ | ⟨rfl, hf⟩ | ⟨rfl, hf⟩ <;>
        first | rfl | exact absurd hf (by decide)
  used := by
    intro p f hp
    rcases onePageMem_places hp with ⟨_, rfl⟩ | ⟨_, rfl⟩ | ⟨_, rfl⟩ <;>
      exact roomyMem_used (by decide) (by decide)
  taken := by
    intro p f hp
    rcases onePageMem_places hp with ⟨_, rfl⟩ | ⟨_, rfl⟩ | ⟨_, rfl⟩ <;>
      exact ⟨by decide, by decide⟩

def onePageTable : Table := fun _ => { sz := 1, pgdir := some 500, tid := -1 }

theorem onePageTable_alone : onePageTable.Alone 0 500 onePageMem where
  leader := rfl
  pgdir := rfl
  size := by decide
  sole := onePageMem_sole
  spans := by
    intro va hva
    rw [← Mem.entry_page, onePageMem_entry (Vm.user_page hva), lt_pgRoundUp_iff]
    by_cases hzero : va / PGSIZE = 0
    · rw [if_pos hzero, hzero]
      decide
    · rw [if_neg hzero]
      have hbig : ¬ va / PGSIZE * PGSIZE < (onePageTable 0).sz := by
        simp only [onePageTable, PGSIZE] at *
        omega
      simp [hbig]

/-- Two pages more. -/
theorem sysSbrk_contract_onePage :
    ∃ t next, onePageTable.sysSbrk 0 8192 onePageMem = .ok ((1, t), next) ∧
      SbrkContract onePageTable 0 500 8192 onePageMem (1, t) next := by
  obtain ⟨⟨returned, t⟩, next, hrun, hcontract⟩ := (Table.sysSbrk_contract_iff onePageTable 0
    500 8192 onePageMem onePageTable_alone (by decide) (by decide)).mpr (.inl (by decide))
  have hgrown : (match onePageTable.sysSbrk 0 8192 onePageMem with
      | .ok ((returned, _), _) => returned
      | .error _ => 0) = 1 := by
    decide +kernel
  rw [hrun] at hgrown
  cases hgrown
  exact ⟨t, next, hrun, hcontract⟩

/-- `sbrk(-1)` of the last byte. -/
theorem sysSbrk_breach :
    ¬ ∀ (t : Table) (q : Slot) (d : Frame) (n : Int) (m : Mem), t.Alone q d m →
      -2 ^ 31 ≤ n → n < 2 ^ 31 →
      ∃ returned next, t.sysSbrk q n m = .ok (returned, next) ∧
        SbrkContract t q d n m returned next := by
  intro hall
  obtain ⟨returned, next, hrun, hcontract⟩ :=
    hall onePageTable 0 500 (-1) onePageMem onePageTable_alone (by decide) (by decide)
  have hbreach := onePageTable_alone.meets_breach_zero (n := -1) (by decide) (by decide)
  exact hbreach.ok hrun hcontract

end Sample

/-! The pages of a process from `fork` to the `wait` of its parent. -/

def Table.sbrkAll (q : Slot) : Table → List Int → MemProgram Unit
  | _, [] => return ()
  | t, n :: rest => do
      let (_, after) ← t.sysSbrk q n
      sbrkAll q after rest

/-- `fork` by a leader copies its address space, the child calls `sbrk`, and `wait` frees
the copy. -/
def Table.lifetime (t : Table) (q : Slot) (src : Frame) (sz : Nat) (ns : List Int) :
    MemProgram Unit := do
  match ← copyuvm src sz with
  | none => return ()
  | some d =>
      sbrkAll q (Function.update t q { t q with pgdir := some d, sz := sz, tid := -1 }) ns
      freevm (some d)

/-- The directory `d` maps nothing between the size and the kernel. -/
def EndsAt (pool : Frame → Prop) (m₀ : Mem) (d : Frame) (sz : Nat) (m : Mem) : Prop :=
  sz < KERNBASE ∧ ∃ map data, Vm pool m₀ d map data none m ∧
    ∀ page, sz ≤ page * PGSIZE → page * PGSIZE < KERNBASE → (map page).has PTE_P = false

section Lifetime

variable {pool : Frame → Prop} {m₀ m : Mem} {d : Frame} {sz : Nat} {t : Table} {q : Slot}

theorem EndsAt.meets_resize (h : EndsAt pool m₀ d sz m) (grow : Prop) [Decidable grow]
    (newsz : Nat) :
    Meets (if grow then allocuvm d sz newsz else deallocuvm d sz newsz) (fun _ => False) m
      fun result next => EndsAt pool m₀ d (if result = 0 then sz else result) next := by
  obtain ⟨hsize, map, data, hvm, habove⟩ := id h
  split
  · by_cases hbig : KERNBASE ≤ newsz
    · rw [allocuvm, if_pos hbig]
      exact Meets.pure h
    by_cases hless : newsz < sz
    · rw [allocuvm, if_neg hbig, if_pos hless]
      exact Meets.pure (by rwa [ite_self])
    refine (hvm.meets_allocuvm (not_le.mp hbig) (not_lt.mp hless) fun page hlow hhigh =>
      habove page ((Space.le_pgRoundUp _).trans hlow) (by omega)).weaken ?_
    rintro _ next (⟨rfl, after, data', hzeroed, hnext⟩ | ⟨rfl, _, after, hemptied, hnext⟩)
    · refine ⟨by split <;> omega, after, data', hnext, fun page hlow hhigh => ?_⟩
      rw [hzeroed.same page fun hin => ?_]
      · exact habove page (by split at hlow <;> omega) hhigh
      · simp only [pgRoundUp, PGSIZE] at *
        split at hlow <;> omega
    · refine ⟨hsize, after, data, hnext, fun page hlow hhigh => ?_⟩
      by_cases hin : pgRoundUp sz ≤ page * PGSIZE ∧ page * PGSIZE < newsz
      · exact hemptied.gone page hin.1 hin.2
      · rw [hemptied.same page hin]
        exact habove page hlow hhigh
  · refine (hvm.meets_deallocuvm newsz (le_of_lt hsize)).weaken ?_
    rintro _ next ⟨rfl, hnext⟩
    refine ⟨by split <;> omega, _, data, hnext, fun page hlow hhigh => ?_⟩
    by_cases hin : pgRoundUp newsz ≤ page * PGSIZE ∧ page * PGSIZE < sz
    · exact Space.cleared_absent hin.1 hin.2
    · rw [cleared, if_neg fun hpage => hin ⟨hpage.1, hpage.2.1⟩]
      refine habove page ?_ hhigh
      simp only [pgRoundUp, PGSIZE] at *
      split at hlow <;> omega

theorem Table.meets_sbrkAll (ns : List Int) (hleader : (t q).tid = -1)
    (hdir : (t q).pgdir = some d) (h : EndsAt pool m₀ d (t q).sz m) :
    Meets (t.sbrkAll q ns) (fun _ => False) m fun _ next => ∃ sz, EndsAt pool m₀ d sz next := by
  induction ns generalizing t m with
  | nil => exact Meets.pure ⟨_, h⟩
  | cons n rest ih =>
      have hset : ∀ {sz next}, EndsAt pool m₀ d sz next →
          (t.setSize q q sz q).tid = -1 ∧ (t.setSize q q sz q).pgdir = some d ∧
            EndsAt pool m₀ d (t.setSize q q sz q).sz next := by
        intro sz next hnext
        simp [setSize, hleader, hdir, hnext]
      have hsbrk : Meets (t.sysSbrk q n) (fun _ => False) m fun result next =>
          (result.2 q).tid = -1 ∧ (result.2 q).pgdir = some d ∧
            EndsAt pool m₀ d (result.2 q).sz next := by
        by_cases hn : n = 0
        · have hrun : t.sysSbrk q 0 m = .ok (((t q).sz, t.setSize q q (t q).sz), m) := by
            rw [sysSbrk, show t.threadLeader q = some q from if_pos hleader]
            rfl
          exact hn ▸ Meets.of_ok hrun (hset h)
        · refine meets_sysSbrk _ hleader hdir hn (h.meets_resize ..) ?_ ?_
          · exact fun next hnext => ⟨hleader, hdir, hnext⟩
          · exact fun sz next hsz hnext => hset (by rwa [if_neg hsz] at hnext)
      exact Meets.bind hsbrk fun result next hnext => ih hnext.1 hnext.2.1 hnext.2.2

/-- Every page that `fork` and `sbrk` take for a process is free again when its parent
has waited for it, and nothing else has changed. -/
theorem lifetime_returns (t : Table) (q : Slot) (src : Frame) (sz : Nat) (ns : List Int)
    (m : Mem) (hready : m.Ready) (hsource : Standing (· ∈ m.freelist) m src sz)
    (hsz : sz < KERNBASE) :
    ∃ next, t.lifetime q src sz ns m = .ok ((), next) ∧ next.freelist.Perm m.freelist ∧
      ∀ f ∉ m.freelist, next.page f = m.page f := by
  have hlife : Meets (t.lifetime q src sz ns) (fun _ => False) m
      fun _ next => Released (· ∈ m.freelist) m next := by
    refine Meets.bind (meets_copyuvm hready hsource (le_of_lt hsz)) ?_
    rintro _ middle (⟨rfl, hreleased, _⟩ | ⟨d, map, data, rfl, hvm, hdouble⟩)
    · exact Meets.pure hreleased
    · have hends : EndsAt (· ∈ m.freelist) m d sz middle :=
        ⟨hsz, map, data, hvm, fun page hlow hhigh => by
          simp [hdouble.copied.above page hlow hhigh]⟩
      refine Meets.bind (Table.meets_sbrkAll ns (by simp) (d := d) (by simp)
        (by simpa using hends)) ?_
      rintro _ last ⟨_, _, _, _, hlast, _⟩
      exact hlast.meets_freevm
  obtain ⟨_, next, hrun, hreleased⟩ := hlife.returns
  exact ⟨next, hrun, (List.perm_ext_iff_of_nodup hreleased.nodup hready.nodup).mpr
    hreleased.free, hreleased.kept⟩

theorem lifetime_returns_onePageMem :
    (∃ d next, copyuvm 500 1 onePageMem = .ok (some d, next)) ∧
    ∃ next, onePageTable.lifetime 1 500 1 [5000, -1] onePageMem = .ok ((), next) ∧
      next.freelist.Perm onePageMem.freelist ∧
      ∀ f ∉ onePageMem.freelist, next.page f = onePageMem.page f :=
  ⟨onePageMem_copies, lifetime_returns onePageTable 1 500 1 [5000, -1] onePageMem
    onePageMem_ready onePageMem_standing (by decide)⟩

end Lifetime

end KernelThreads
