import KernelThreads.Mem.Copy
import KernelThreads.Mem.Setup

namespace KernelThreads

open Lib Program

/-! `copyuvm` makes a private copy. -/

variable {pool : Frame → Prop} {m₀ m next : Mem} {d src : Frame} {map : Nat → Word}
  {data : Nat → Content} {i sz : Nat}

theorem kernelMap_user (image : Image) {page : Nat} (hpage : page * PGSIZE < KERNBASE) :
    kernelMap image page = 0 := by
  have hfold : ∀ ks : List Kmap, (∀ k ∈ ks, k.High) → ∀ map : Nat → Word,
      ks.foldl Kmap.onto map page = map page := by
    intro ks
    induction ks with
    | nil => exact fun _ _ => rfl
    | cons k rest ih =>
        intro hhigh map
        rw [List.forall_mem_cons] at hhigh
        rw [List.foldl_cons, ih hhigh.2, Kmap.onto_user hhigh.1 hpage]
  exact hfold (kmap image) (kmap_high image) fun _ => 0

theorem Mem.pde_present {m : Mem} {d : Frame} {va : Nat}
    (h : (m.pte d va).has PTE_P = true) : (m.page d (pdx va)).has PTE_P = true := by
  by_contra habsent
  simp [Mem.pte, habsent] at h

/-- A directory to copy from: its pages below `sz` are there, and what it
consists of lies outside the pool. -/
structure Standing (pool : Frame → Prop) (m : Mem) (src : Frame) (sz : Nat) : Prop where
  dir : ¬ pool src
  table : ∀ i, (m.page src i).has PTE_P = true → ¬ pool (m.page src i).addr
  present : Filled (m.entry src) sz
  user : ∀ page, page * PGSIZE < sz → ¬ pool (m.entry src page).addr

theorem Standing.entry (hsource : Standing pool m₀ src sz)
    (hkept : ∀ f, ¬ pool f → m.page f = m₀.page f) (page : Nat) :
    m.entry src page = m₀.entry src page :=
  Mem.pte_of_pages (hkept _ hsource.dir) (fun i hi => hkept _ (hsource.table i hi)) _

structure Double (m₀ : Mem) (src : Frame) (map : Nat → Word) (data : Nat → Content)
    (i : Nat) : Prop where
  copied : Space.Copied (m₀.entry src) map i
  data : ∀ page, page * PGSIZE < i → data page = m₀.page (m₀.entry src page).addr
  kernel : ∀ page, KERNBASE ≤ page * PGSIZE → map page = kernelMap m₀.image page

theorem Double.step {f : Frame} (h : Double m₀ src map data i)
    (haligned : i % PGSIZE = 0) (hva : i < KERNBASE)
    (hpresent : (m₀.entry src (i / PGSIZE)).has PTE_P = true) :
    Double m₀ src
      (Function.update map (i / PGSIZE) (.pte f ((m₀.entry src (i / PGSIZE)).flags ||| PTE_P)))
      (Function.update data (i / PGSIZE) (m₀.page (m₀.entry src (i / PGSIZE)).addr))
      (i + PGSIZE) := by
  have hback := div_mul_of_aligned haligned
  refine ⟨h.copied.step haligned hpresent, ?_, ?_⟩
  · intro page hpage
    by_cases heq : page = i / PGSIZE
    · rw [heq, Function.update_self]
    · rw [Function.update_of_ne heq]
      refine h.data page ?_
      simp only [PGSIZE] at *
      omega
  · intro page hpage
    rw [Function.update_of_ne]
    · exact h.kernel page hpage
    · rintro rfl
      rw [hback] at hpage
      exact absurd hva (not_lt.mpr hpage)

theorem Double.size (h : Double m₀ src map data i) (haligned : i % PGSIZE = 0)
    (hle : sz ≤ i) (hlt : i < sz + PGSIZE) : Double m₀ src map data sz where
  copied := h.copied.size haligned hle hlt
  data := fun page hpage => h.data page (lt_of_lt_of_le hpage hle)
  kernel := h.kernel

def Copies (pool : Frame → Prop) (m₀ : Mem) (src : Frame) (sz : Nat)
    (result : Option Frame) (next : Mem) : Prop :=
  (result = none ∧ Released pool m₀ next ∧
      m₀.freelist.length ≤ 1026 + pgRoundUp sz / PGSIZE) ∨
    ∃ d map data, result = some d ∧ Vm pool m₀ d map data none next ∧
      Double m₀ src map data sz

theorem Double.short {held : Option (Frame × Content)} (hdouble : Double m₀ src map data i)
    (h : Vm pool m₀ d map data held m) (hi : i < sz) (hpool : ∀ f ∈ m₀.freelist, pool f)
    (hnodup : m₀.freelist.Nodup) (hempty : m.freelist = []) :
    m₀.freelist.length ≤ 1026 + pgRoundUp sz / PGSIZE := by
  refine h.exhausted _ hpool hnodup hempty fun page hpage hthere => ?_
  have hlow : page * PGSIZE < i := by
    by_contra hout
    rw [hdouble.copied.above page (not_lt.mp hout) hpage] at hthere
    simp at hthere
  simp only [pgRoundUp, PGSIZE] at *
  omega

theorem Vm.meets_copyPages {turns : Nat} (hpool : ∀ f ∈ m₀.freelist, pool f)
    (hnodup : m₀.freelist.Nodup) (hsource : Standing pool m₀ src sz)
    (hsz : sz ≤ KERNBASE) (h : Vm pool m₀ d map data none m)
    (hdouble : Double m₀ src map data i) (haligned : i % PGSIZE = 0)
    (hnear : i < sz + PGSIZE) (hturns : sz ≤ i + turns * PGSIZE) :
    Meets (copyPages d src sz turns i) (fun _ => False) m (Copies pool m₀ src sz) := by
  induction turns generalizing i map data m with
  | zero =>
      exact Meets.pure (.inr ⟨d, map, data, rfl, h, hdouble.size haligned (by omega) hnear⟩)
  | succ turns ih =>
      unfold copyPages
      split
      next hlow =>
        have hva : i < KERNBASE := lt_of_lt_of_le hlow hsz
        have hback := div_mul_of_aligned haligned
        have hthere : (m₀.entry src (i / PGSIZE)).has PTE_P = true :=
          hsource.present _ (by rwa [hback])
        -- The source is still what it was at the beginning.
        have hentry : m.pte src i = m₀.entry src (i / PGSIZE) := by
          rw [← hsource.entry h.kept, Mem.entry, hback]
        have hpde : (m.page src (pdx i)).has PTE_P = true := by
          rw [← hentry] at hthere
          exact Mem.pde_present hthere
        have hloc : Located m src i (m.page src (pdx i)).addr (ptx i) := ⟨hpde, rfl, rfl⟩
        have hcontent : m.page (m₀.entry src (i / PGSIZE)).addr =
            m₀.page (m₀.entry src (i / PGSIZE)).addr :=
          h.kept _ (hsource.user _ (by rwa [hback]))
        refine Meets.bind_ok (walkpgdir_present hpde) ?_
        refine Meets.bind_ok (rfl : load _ _ m = .ok (m.page _ _, m)) ?_
        rw [← hloc.pte, hentry, if_neg (by simp [hthere])]
        cases hlist : m.freelist with
        | nil =>
            refine Meets.bind_ok (kalloc_nil hlist) ?_
            refine Meets.bind h.meets_freevm ?_
            intro _ next hnext
            exact Meets.pure (.inl ⟨rfl, hnext, hdouble.short h hlow hpool hnodup hlist⟩)
        | cons mem rest =>
            refine Meets.bind_ok (kalloc_cons hlist) ?_
            have hheld := (h.kalloc hlist).setHeld (m₀.page (m₀.entry src (i / PGSIZE)).addr)
            rw [← hcontent] at hheld
            refine Meets.bind_ok (rfl : copyPage mem _ { m with freelist := rest } =
              .ok ((), Mem.setPage { m with freelist := rest } mem (m.page _))) ?_
            have hfresh : (map (i / PGSIZE)).has PTE_P = false := by
              rw [hdouble.copied.above _ (by rw [hback]) (by rwa [hback])]
              simp
            rw [Space.mappages_page haligned hva]
            refine Meets.bind (hheld.meets_mapPage hva hfresh) ?_
            intro done mapped hmapped
            cases done with
            | false =>
                refine Meets.bind (Vm.meets_kfreeHeld hmapped.1) ?_
                intro _ left hleft
                refine Meets.bind hleft.meets_freevm ?_
                intro _ next hnext
                exact Meets.pure (.inl ⟨rfl, hnext,
                  hdouble.short hmapped.1 hlow hpool hnodup hmapped.2⟩)
            | true =>
                rw [if_pos rfl, hcontent] at hmapped
                refine ih hmapped (hdouble.step haligned hva hthere)
                  (by rw [Nat.add_mod_right, haligned]) (by omega) ?_
                rw [Nat.succ_mul] at hturns
                omega
      next hhigh =>
        exact Meets.pure
          (.inr ⟨d, map, data, rfl, h, hdouble.size haligned (not_lt.mp hhigh) hnear⟩)

/-- The free list holds each page once, and only pages that `kfree` takes. -/
structure Mem.Ready (m : Mem) : Prop where
  nodup : m.freelist.Nodup
  frees : ∀ f ∈ m.freelist, m.image.allocates f

theorem meets_copyuvm (hready : m.Ready) (hsource : Standing (· ∈ m.freelist) m src sz)
    (hsz : sz ≤ KERNBASE) :
    Meets (copyuvm src sz) (fun _ => False) m (Copies (· ∈ m.freelist) m src sz) := by
  unfold copyuvm
  refine Meets.bind (meets_setupkvm hready.nodup hready.frees fun _ _ => 0) ?_
  rintro result middle (⟨rfl, hnone, hshort⟩ | ⟨d, rfl, hmiddle⟩)
  · exact Meets.pure (.inl ⟨rfl, hnone, hshort.trans (Nat.le_add_right ..)⟩)
  · have hempty : Double m src (kernelMap m.image) (fun _ _ => 0) 0 :=
      ⟨⟨nofun, nofun, fun page _ => kernelMap_user _⟩, nofun, fun _ _ => rfl⟩
    refine hmiddle.meets_copyPages (fun _ hf => hf) hready.nodup hsource hsz hempty
      (by decide) (by simp [PGSIZE]) ?_
    simp only [PGSIZE]
    omega

def Mem.KernelPart (m : Mem) (d : Frame) : Prop :=
  ∀ va, KERNBASE ≤ va → va < 2 ^ 32 → m.pte d va = kernelMap m.image (va / PGSIZE)

/-- In `next`, the directory `d` is a private copy of `src` in `m`. -/
structure PrivateCopy (m : Mem) (src : Frame) (sz : Nat) (d : Frame) (next : Mem) :
    Prop where
  pages : ∀ va < KERNBASE, (next.pte d va).has PTE_P = true ↔ va < pgRoundUp sz
  flags : ∀ va < pgRoundUp sz, (next.pte d va).flags = (m.pte src va).flags
  contents : ∀ va < pgRoundUp sz,
    next.page (next.pte d va).addr = m.page (m.pte src va).addr
  /-- The frames are none of the source's, which are not free. -/
  fresh : ∀ va < pgRoundUp sz, (next.pte d va).addr ∈ m.freelist
  apart : ∀ va < pgRoundUp sz, ∀ other < pgRoundUp sz,
    (next.pte d va).addr = (next.pte d other).addr → va / PGSIZE = other / PGSIZE
  /-- A write through the copy reaches neither its directory nor its tables. -/
  user : ∀ va < pgRoundUp sz, (next.pte d va).addr ≠ d ∧
    ∀ i, (next.page d i).has PTE_P = true → (next.pte d va).addr ≠ (next.page d i).addr
  kernel : next.KernelPart d
  same : m.KernelPart src → ∀ va, KERNBASE ≤ va → va < 2 ^ 32 →
    next.pte d va = m.pte src va

theorem lt_pgRoundUp_iff {va sz : Nat} : va < pgRoundUp sz ↔ va / PGSIZE * PGSIZE < sz := by
  simp only [pgRoundUp, PGSIZE]
  omega

theorem Mem.entry_page (m : Mem) (d : Frame) (va : Nat) :
    m.entry d (va / PGSIZE) = m.pte d va := by
  have hpdx : pdx (va / PGSIZE * PGSIZE) = pdx va := by
    simp only [pdx, PGSIZE, Fin.mk.injEq]
    omega
  have hptx : ptx (va / PGSIZE * PGSIZE) = ptx va := by
    simp only [ptx, PGSIZE, Fin.mk.injEq]
    omega
  rw [Mem.entry, Mem.pte, Mem.pte, hpdx, hptx]

theorem Vm.privateCopy (h : Vm (· ∈ m.freelist) m d map data none next)
    (hdouble : Double m src map data sz) (hsource : Filled (m.entry src) sz)
    (hsz : sz ≤ KERNBASE) : PrivateCopy m src sz d next := by
  have hbelow : ∀ va, va < pgRoundUp sz → va < KERNBASE := fun va hva =>
    lt_of_lt_of_le hva (pgRoundUp_le_aligned (by decide) hsz)
  have hview : ∀ va, va < KERNBASE → next.pte d va = map (va / PGSIZE) := fun va hva =>
    h.view va (lt_two_pow hva)
  have hflags : ∀ va, va < pgRoundUp sz → (next.pte d va).flags = (m.pte src va).flags := by
    intro va hva
    rw [hview va (hbelow va hva), ← Mem.entry_page]
    exact hdouble.copied.same _ (lt_pgRoundUp_iff.mp hva)
  have hpresent : ∀ va, va < pgRoundUp sz → (next.pte d va).has PTE_P = true := by
    intro va hva
    rw [Word.has, hflags va hva, ← Word.has, ← Mem.entry_page]
    exact hsource _ (lt_pgRoundUp_iff.mp hva)
  have hplace : ∀ va, va < pgRoundUp sz →
      next.places d map none (.user (va / PGSIZE)) = some (next.pte d va).addr := by
    intro va hva
    have hthere := hpresent va hva
    rw [hview va (hbelow va hva)] at hthere ⊢
    exact user_placed next d none (user_page (hbelow va hva)) hthere
  have hkernel : ∀ va, KERNBASE ≤ va → va < 2 ^ 32 →
      next.pte d va = kernelMap m.image (va / PGSIZE) := by
    intro va hlow hhigh
    rw [h.view va hhigh]
    refine hdouble.kernel _ ?_
    simp only [KERNBASE, PGSIZE] at *
    omega
  constructor
  case pages =>
    intro va hva
    refine ⟨fun hthere => ?_, hpresent va⟩
    by_contra hout
    rw [lt_pgRoundUp_iff, not_lt] at hout
    rw [hview va hva, hdouble.copied.above _ hout (user_page hva)] at hthere
    simp at hthere
  case flags => exact hflags
  case contents =>
    intro va hva
    have hthere := hpresent va hva
    rw [hview va (hbelow va hva)] at hthere ⊢
    rw [h.contents _ (user_page (hbelow va hva)) hthere,
      hdouble.data _ (lt_pgRoundUp_iff.mp hva), Mem.entry_page]
  case fresh => exact fun va hva => h.pool_placed (hplace va hva)
  case apart =>
    intro va hva other hother heq
    have hplaces := h.owned.unique _ _ _ (hplace va hva) (heq ▸ hplace other hother)
    exact Place.user.inj hplaces
  case user =>
    intro va hva
    refine ⟨h.ne_dir (hplace va hva) (by simp), fun i hi => ?_⟩
    exact h.ne_of_placed (hplace va hva) (table_placed map none hi) (by simp)
  case kernel =>
    intro va hlow hhigh
    rw [h.image]
    exact hkernel va hlow hhigh
  case same =>
    intro hpart va hlow hhigh
    rw [hkernel va hlow hhigh, hpart va hlow hhigh]

/-- `copyuvm` copies exactly, or gives back all it took, and the source is
unchanged. -/
theorem copyuvm_exact (m : Mem) (src : Frame) (sz : Nat) (hready : m.Ready)
    (hsource : Standing (· ∈ m.freelist) m src sz) (hsz : sz < KERNBASE) :
    ∃ result next, copyuvm src sz m = .ok (result, next) ∧
      (∀ f ∉ m.freelist, next.page f = m.page f) ∧
      match result with
      | some d => PrivateCopy m src sz d next
      | none => next.freelist.Perm m.freelist := by
  obtain ⟨result, next, hrun, hpost⟩ :=
    (meets_copyuvm hready hsource (le_of_lt hsz)).returns
  refine ⟨result, next, hrun, ?_⟩
  rcases hpost with ⟨rfl, hreleased, _⟩ | ⟨d, map, data, rfl, hvm, hdouble⟩
  · exact ⟨hreleased.kept, (List.perm_ext_iff_of_nodup hreleased.nodup hready.nodup).mpr
      hreleased.free⟩
  · exact ⟨hvm.kept, hvm.privateCopy hdouble hsource.present (le_of_lt hsz)⟩

theorem copyuvm_copies (hready : m.Ready) (hsource : Standing (· ∈ m.freelist) m src sz)
    (hsz : sz ≤ KERNBASE) (hroom : 1026 + pgRoundUp sz / PGSIZE < m.freelist.length) :
    ∃ d next, copyuvm src sz m = .ok (some d, next) := by
  obtain ⟨_, next, hrun, ⟨_, _, hshort⟩ | ⟨d, _, _, rfl, _⟩⟩ :=
    (meets_copyuvm hready hsource hsz).returns
  · exact absurd hshort hroom.not_ge
  · exact ⟨d, next, hrun⟩

def roomyMem (n : Nat) (page : Frame → Index → Word) : Mem where
  image := .sample
  freelist := (List.range n).map fun i => .ofNat 20 (1000 + i)
  page := page

theorem roomyMem_ready {n : Nat} {page : Frame → Index → Word} (hn : n ≤ 2000) :
    (roomyMem n page).Ready := by
  have hnat : ∀ i < n, (BitVec.ofNat 20 (1000 + i)).toNat = 1000 + i := by
    intro i hi
    rw [BitVec.toNat_ofNat]
    omega
  constructor
  case nodup =>
    refine List.Nodup.map_on (fun i hi j hj heq => ?_) List.nodup_range
    have hsame := congrArg BitVec.toNat heq
    rw [hnat i (List.mem_range.mp hi), hnat j (List.mem_range.mp hj)] at hsame
    omega
  case frees =>
    intro f hf
    obtain ⟨i, hi, rfl⟩ := List.mem_map.mp hf
    rw [List.mem_range] at hi
    have hframe := hnat i hi
    refine ⟨?_, fun hzero => ?_⟩
    · rintro (hlow | hhigh)
      · have hlow := BitVec.lt_def.mp hlow
        rw [hframe] at hlow
        have hkend : (roomyMem n page).image.kend.toNat = 0x120 := rfl
        omega
      · rw [hframe] at hhigh
        simp only [PHYSTOP, PGSIZE] at hhigh
        omega
    · have hzero := congrArg BitVec.toNat hzero
      rw [hframe] at hzero
      simp at hzero

theorem roomyMem_used {n : Nat} {page : Frame → Index → Word} (hn : n ≤ 2000) {f : Frame}
    (hf : f.toNat < 1000) : f ∉ (roomyMem n page).freelist := by
  intro hfree
  obtain ⟨i, hi, rfl⟩ := List.mem_map.mp hfree
  rw [List.mem_range] at hi
  rw [BitVec.toNat_ofNat] at hf
  omega

def onePageMem : Mem :=
  roomyMem 1100 fun f i =>
    if f = 500 ∧ i = 0 then .pte 501 PTE_P
    else if f = 501 ∧ i = 0 then .pte 502 (PTE_P ||| PTE_W)
    else 0

theorem onePageMem_ready : onePageMem.Ready := roomyMem_ready (by decide)

theorem onePageMem_standing : Standing (· ∈ onePageMem.freelist) onePageMem 500 1 where
  dir := by decide +kernel
  table := by decide +kernel
  present := by
    intro page hpage
    obtain rfl : page = 0 := by
      simp only [PGSIZE] at hpage
      omega
    decide
  user := by
    intro page hpage
    obtain rfl : page = 0 := by
      simp only [PGSIZE] at hpage
      omega
    decide +kernel

theorem onePageMem_copies : ∃ d next, copyuvm 500 1 onePageMem = .ok (some d, next) := by
  refine copyuvm_copies onePageMem_ready onePageMem_standing (by decide) ?_
  simp only [onePageMem, roomyMem, List.length_map, List.length_range]
  decide

theorem copyuvm_exact_onePageMem :
    ∃ d next, copyuvm 500 1 onePageMem = .ok (some d, next) ∧
      (∀ f ∉ onePageMem.freelist, next.page f = onePageMem.page f) ∧
        PrivateCopy onePageMem 500 1 d next := by
  obtain ⟨d, next, hrun⟩ := onePageMem_copies
  obtain ⟨_, _, hrun', hkept, hcopy⟩ :=
    copyuvm_exact onePageMem 500 1 onePageMem_ready onePageMem_standing (by decide)
  cases hrun.symm.trans hrun'
  exact ⟨d, next, hrun, hkept, hcopy⟩

/-! The free list that boot makes. -/

/-- The loop of `freerange`; addresses are physical. -/
def freePages (vend p : Nat) : MemProgram Unit :=
  if p + PGSIZE ≤ vend then do
    kfree (.ofNat 20 (p / PGSIZE))
    freePages vend (p + PGSIZE)
  else return ()
termination_by vend - p
decreasing_by
  simp only [PGSIZE] at *
  omega

/-- `kinit1` and `kinit2` call it before there are other CPUs to lock out. -/
def freerange (vstart vend : Nat) : MemProgram Unit := freePages vend (pgRoundUp vstart)

/-- The pages that lie in a range have become free. -/
structure Freed (vstart vend : Nat) (m next : Mem) : Prop where
  ready : next.Ready
  free : ∀ f, f ∈ next.freelist ↔
    f ∈ m.freelist ∨ vstart ≤ f.toNat * PGSIZE ∧ (f.toNat + 1) * PGSIZE ≤ vend
  pages : ∀ f, f.toNat * PGSIZE < vstart → next.page f = m.page f
  image : next.image = m.image

theorem meets_freePages {vend p : Nat} (hready : m.Ready) (haligned : p % PGSIZE = 0)
    (hpos : 0 < p) (hkend : m.image.kend.toNat * PGSIZE ≤ p) (hvend : vend ≤ PHYSTOP)
    (hbelow : ∀ f ∈ m.freelist, f.toNat * PGSIZE < p) :
    Meets (freePages vend p) (fun _ => False) m fun _ next => Freed p vend m next := by
  induction hn : vend - p using Nat.strong_induction_on generalizing p m with
  | _ n ih =>
      rw [freePages]
      split
      next hroom =>
        have hframe : (BitVec.ofNat 20 (p / PGSIZE)).toNat * PGSIZE = p := by
          simp only [BitVec.toNat_ofNat, PGSIZE, PHYSTOP] at *
          omega
        generalize BitVec.ofNat 20 (p / PGSIZE) = f at hframe
        have hallocates : m.image.allocates f := by
          refine ⟨fun hbad => ?_, fun hzero => ?_⟩
          · rw [BitVec.lt_def] at hbad
            simp only [PGSIZE, PHYSTOP] at *
            omega
          · rw [hzero] at hframe
            exact hpos.ne' (hframe.symm.trans (Nat.zero_mul _))
        have hnew : f ∉ m.freelist := fun hf => (hbelow f hf).ne hframe
        have hrest : p ≤ p + PGSIZE := Nat.le_add_right ..
        refine Meets.bind_ok (kfree_of_allocates hallocates)
          ((ih _ ?_ ⟨?_, ?_⟩ ?_ ?_ ?_ ?_ rfl).weaken fun _ next hfreed =>
            ⟨hfreed.ready, fun g => ?_, fun g hg => ?_, hfreed.image⟩)
        · simp only [PGSIZE] at *
          omega
        · exact List.nodup_cons.mpr ⟨hnew, hready.nodup⟩
        · exact List.forall_mem_cons.mpr ⟨hallocates, hready.frees⟩
        · rw [Nat.add_mod_right]
          exact haligned
        · omega
        · exact hkend.trans hrest
        · refine List.forall_mem_cons.mpr ⟨?_, fun g hg => (hbelow g hg).trans_le hrest⟩
          simp only [PGSIZE] at *
          omega
        · have hpage : g.toNat = f.toNat ∨ p + PGSIZE ≤ g.toNat * PGSIZE ∧
              (g.toNat + 1) * PGSIZE ≤ vend ↔
                p ≤ g.toNat * PGSIZE ∧ (g.toNat + 1) * PGSIZE ≤ vend := by
            simp only [PGSIZE] at *
            omega
          rw [hfreed.free, List.mem_cons, ← BitVec.toNat_inj, or_right_comm, hpage, or_comm]
        · rw [hfreed.pages g (by omega)]
          refine Function.update_of_ne (fun heq => ?_) ..
          rw [heq] at hg
          omega
      next hend =>
        refine Meets.pure ⟨hready, fun f => ⟨.inl, ?_⟩, fun _ _ => rfl, rfl⟩
        rintro (hf | ⟨hlow, hhigh⟩)
        · exact hf
        · simp only [PGSIZE] at *
          omega

/-- Whatever has been taken from the pages below, `freerange` adds the pages that lie in
its range, each once, and touches none below. -/
theorem freerange_ready (m : Mem) (vstart vend : Nat) (hready : m.Ready) (hpos : 0 < vstart)
    (hkend : m.image.kend.toNat * PGSIZE ≤ pgRoundUp vstart) (hvend : vend ≤ PHYSTOP)
    (hbelow : ∀ f ∈ m.freelist, f.toNat * PGSIZE < vstart) :
    ∃ next, freerange vstart vend m = .ok ((), next) ∧ Freed vstart vend m next := by
  have hup := Space.le_pgRoundUp vstart
  have hround : ∀ f : Frame, f.toNat * PGSIZE < vstart ↔ f.toNat * PGSIZE < pgRoundUp vstart := by
    intro f
    simp only [pgRoundUp, PGSIZE]
    omega
  obtain ⟨_, next, hrun, hfreed⟩ := (meets_freePages hready (Space.pgRoundUp_aligned vstart)
    (hpos.trans_le hup) hkend hvend fun f hf => (hround f).mp (hbelow f hf)).returns
  refine ⟨next, hrun, hfreed.ready, fun f => ?_, fun f hf => ?_, hfreed.image⟩
  · rw [hfreed.free, ← not_lt, ← hround, not_lt]
  · exact hfreed.pages f ((hround f).mp hf)

/-- The two calls of `main`, for a kernel that ends within a page, and `kvmalloc` in
between. -/
theorem freerange_ready_main :
    ∃ first kpgdir middle second,
      freerange 0x11f800 0x400000 ⟨.sample, [], fun _ _ => 0⟩ = .ok ((), first) ∧
      setupkvm first = .ok (kpgdir, middle) ∧
      freerange 0x400000 PHYSTOP middle = .ok ((), second) ∧ second.Ready := by
  obtain ⟨first, hfirst, hfreed⟩ := freerange_ready ⟨.sample, [], fun _ _ => 0⟩ 0x11f800 0x400000
    ⟨List.nodup_nil, nofun⟩ (by decide) (by decide) (by decide) nofun
  have hready := hfreed.ready
  obtain ⟨kpgdir, middle, hsetup, hpost⟩ :=
    (meets_setupkvm hready.nodup hready.frees fun _ _ => 0).returns
  obtain ⟨hnodup, hless, himage⟩ : middle.freelist.Nodup ∧
      (∀ f ∈ middle.freelist, f ∈ first.freelist) ∧ middle.image = first.image := by
    rcases hpost with ⟨_, hreleased, _⟩ | ⟨d, _, hvm⟩
    · exact ⟨hreleased.nodup, fun f => (hreleased.free f).mp, hreleased.image⟩
    · exact ⟨hvm.nodup, fun f hf => hvm.pool_free hf, hvm.image⟩
  have hbelow : ∀ f ∈ middle.freelist, f.toNat * PGSIZE < 0x400000 := by
    intro f hf
    have hin := ((hfreed.free f).mp (hless f hf)).resolve_left (by simp)
    simp only [PGSIZE] at *
    omega
  obtain ⟨second, hsecond, hlast, _⟩ := freerange_ready middle 0x400000 PHYSTOP
    ⟨hnodup, fun f hf => himage ▸ hready.frees f (hless f hf)⟩ (by decide)
    (by rw [himage, hfreed.image]; decide) le_rfl hbelow
  exact ⟨first, kpgdir, middle, second, hfirst, hsetup, hsecond, hlast⟩

end KernelThreads
