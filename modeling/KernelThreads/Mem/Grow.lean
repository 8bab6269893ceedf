import KernelThreads.Mem.Layout

namespace KernelThreads

open Lib Program

/-! A thread group whose heap grows and shrinks. -/

namespace Laid

variable {home : Nat → Nat} {map : Nat → Word} {sz newsz tstack page : Nat}
  {pairs : Set Nat}

theorem size_pos (h : Laid home map sz tstack pairs) : 0 < sz := by
  have hpos := h.pos
  have hinside := h.inside
  simp only [pgRoundUp, PGSIZE] at hinside
  omega

theorem guard_ne (h : Laid home map sz tstack pairs) (hsome : pairs.Nonempty)
    (hpage : tstack ≤ page * PGSIZE) : page ≠ guardPage tstack := by
  rintro rfl
  have hguard := h.guarded hsome
  simp only [guardPage, PGSIZE] at hpage hguard
  omega

theorem private_heap {home : Frame → Nat → Nat} {d : Frame}
    (h : Laid (home d) map sz tstack pairs)
    (hclear : ∀ v ∈ pairs, newsz + PGSIZE ≤ v * PGSIZE)
    (hpage : page * PGSIZE < newsz) (hlow : tstack ≤ page * PGSIZE) :
    Private home d page := by
  refine h.private_page (fun hin => ?_) fun hsome => h.guard_ne hsome hlow
  have hin := hclear _ hin
  rw [Nat.succ_mul] at hin
  omega

end Laid

/-! Frees that run into what threads use.  They end, and the pages they meet
are on the free list. -/

def Image.allocates (image : Image) (f : Frame) : Prop :=
  ¬ (f < image.kend ∨ PHYSTOP / PGSIZE ≤ f.toNat) ∧ f ≠ 0

def Mem.entry (m : Mem) (d : Frame) (page : Nat) : Word := m.pte d (page * PGSIZE)

/-- A directory whose entries from `low` to `high` map pages that can be freed,
and that are no tables of it. -/
structure Freeable (m : Mem) (d : Frame) (low high : Nat) : Prop where
  tables : ∀ i, (m.page d i).has PTE_P = true → (m.page d i).addr ≠ d
  distinct : ∀ i j, (m.page d i).has PTE_P = true →
    (m.page d j).has PTE_P = true → (m.page d i).addr = (m.page d j).addr → i = j
  pages : ∀ page, low ≤ page * PGSIZE → page * PGSIZE < high →
    (m.entry d page).has PTE_P = true →
      m.image.allocates (m.entry d page).addr ∧ (m.entry d page).addr ≠ d ∧
        ∀ i, (m.page d i).has PTE_P = true →
          (m.page d i).addr ≠ (m.entry d page).addr

theorem walkpgdir_present {m : Mem} {d : Frame} {va : Nat} {alloc : Bool}
    (h : (m.page d (pdx va)).has PTE_P = true) :
    walkpgdir d va alloc m = .ok (some ((m.page d (pdx va)).addr, ptx va), m) := by
  rw [walkpgdir, bind_of_ok rfl, if_pos h]
  rfl

theorem walkpgdir_absent {m : Mem} {d : Frame} {va : Nat}
    (h : (m.page d (pdx va)).has PTE_P = false) :
    walkpgdir d va false m = .ok (none, m) := by
  rw [walkpgdir, bind_of_ok rfl, if_neg (by simp [h])]
  rfl

theorem kfree_of_allocates {m : Mem} {f : Frame} (h : m.image.allocates f) :
    kfree f m = .ok ((), { m.fill f 1 with freelist := f :: m.freelist }) := by
  rw [kfree, bind_of_ok rfl, if_neg h.1]
  rfl

def Mem.freed (m : Mem) (f t : Frame) (j : Index) : Mem :=
  Mem.setWord { m.fill f 1 with freelist := f :: m.freelist } t j 0

namespace Freeable

variable {m : Mem} {d t : Frame} {a high page turns : Nat} {j : Index}

theorem step (h : Freeable m d a high) (haligned : a % PGSIZE = 0)
    (ha : a < high) (hhigh : high ≤ KERNBASE)
    (hloc : Located m d a t j) (hpresent : (m.page t j).has PTE_P = true) :
    m.image.allocates (m.page t j).addr ∧
      Freeable (m.freed (m.page t j).addr t j) d (a + PGSIZE) high ∧
        ∀ page, a + PGSIZE ≤ page * PGSIZE → page * PGSIZE < high →
          (m.freed (m.page t j).addr t j).entry d page = m.entry d page := by
  have hback := div_mul_of_aligned haligned
  have hentry : m.entry d (a / PGSIZE) = m.page t j := by
    rw [Mem.entry, hback, hloc.pte]
  obtain ⟨hallocates, hfd, hft⟩ := h.pages (a / PGSIZE) (le_of_eq hback.symm)
    (by rw [hback]; exact ha) (by rw [hentry]; exact hpresent)
  rw [hentry] at hallocates hfd hft
  generalize hf : (m.page t j).addr = f at *
  have htd : t ≠ d := by
    rw [← hloc.addr]
    exact h.tables _ hloc.present
  have hdir : (m.freed f t j).page d = m.page d := by
    rw [Mem.freed, Mem.setWord_other _ _ _ htd.symm]
    exact Mem.setPage_other _ _ hfd.symm
  -- A table other than `t`, and `t` but for one entry, are as they were.
  have hkept : ∀ page, a + PGSIZE ≤ page * PGSIZE → page * PGSIZE < high →
      (m.freed f t j).entry d page = m.entry d page := by
    intro page hlow hpage
    have hlt : page * PGSIZE < 2 ^ 32 :=
      lt_trans (lt_of_lt_of_le hpage hhigh) (by decide)
    simp only [Mem.entry, Mem.pte, hdir]
    split
    next hthere =>
      have hfill : ∀ i, ({ m.fill f 1 with freelist := f :: m.freelist } : Mem).page
          (m.page d (pdx (page * PGSIZE))).addr i =
            m.page (m.page d (pdx (page * PGSIZE))).addr i := fun i =>
        congrFun (Mem.setPage_other _ _ (hft _ hthere)) i
      by_cases htable : (m.page d (pdx (page * PGSIZE))).addr = t
      · rw [htable] at hfill ⊢
        rw [Mem.freed, Mem.setWord_apply, if_neg, hfill]
        intro hptx
        have hpdx := h.distinct _ _ hthere hloc.present
          (htable.trans hloc.addr.symm)
        have hsame := page_eq hlt (lt_trans (lt_of_lt_of_le ha hhigh) (by decide))
          hpdx (hptx.trans hloc.index)
        rw [Nat.mul_div_cancel _ (by decide)] at hsame
        rw [hsame, hback] at hlow
        simp only [PGSIZE] at hlow
        omega
      · rw [Mem.freed, Mem.setWord_other _ _ _ htable]
        exact hfill _
    next => rfl
  refine ⟨hallocates, ⟨?_, ?_, ?_⟩, hkept⟩
  · rw [hdir]
    exact h.tables
  · rw [hdir]
    exact h.distinct
  · intro page hlow hpage
    rw [hkept page hlow hpage, hdir]
    exact h.pages page (by omega) hpage

theorem deallocPages (h : Freeable m d a high) (haligned : a % PGSIZE = 0)
    (hhigh : high ≤ KERNBASE) (hturns : high ≤ a + turns * PGSIZE) :
    ∃ next, KernelThreads.deallocPages d high turns a m = .ok ((), next) ∧
      next.image = m.image ∧ m.freelist ⊆ next.freelist ∧
        ∀ page, a ≤ page * PGSIZE → page * PGSIZE < high →
          (m.entry d page).has PTE_P = true →
            (m.entry d page).addr ∈ next.freelist := by
  induction turns generalizing a m with
  | zero =>
      refine ⟨m, rfl, rfl, List.Subset.refl _, fun page hlow hpage => ?_⟩
      omega
  | succ turns ih =>
      unfold KernelThreads.deallocPages
      split
      next ha =>
        have hback := div_mul_of_aligned haligned
        have hbound : high ≤ a + PGSIZE + turns * PGSIZE := by
          rw [Nat.succ_mul] at hturns
          omega
        have hpages : ∀ {page}, a ≤ page * PGSIZE → page * PGSIZE < a + PGSIZE →
            page = a / PGSIZE := by
          intro page hlow hpage
          simp only [PGSIZE] at hlow hpage haligned ⊢
          omega
        cases htable : (m.page d (pdx a)).has PTE_P with
        | false =>
            obtain ⟨hjump, hnext⟩ := Space.next_table haligned
            rw [bind_of_ok (walkpgdir_absent htable)]
            obtain ⟨next, hop, himage, hlist, hfreed⟩ :=
              ih (a := (a / 2 ^ 22 + 1) * 2 ^ 22) ⟨h.tables, h.distinct,
                fun page hlow => h.pages page (by omega)⟩ hnext
                (hbound.trans (Nat.add_le_add_right hjump _))
            refine ⟨next, hop, himage, hlist, fun page hlow hpage hpresent => ?_⟩
            by_cases hskip : page * PGSIZE < (a / 2 ^ 22 + 1) * 2 ^ 22
            · have hpdx : pdx (page * PGSIZE) = pdx a := by
                have hsize : 2 ^ 22 = 4194304 := rfl
                simp only [pdx, hsize, Fin.mk.injEq] at hskip ⊢
                congr 1
                omega
              simp [Mem.entry, Mem.pte, hpdx, htable] at hpresent
            · exact hfreed page (not_lt.mp hskip) hpage hpresent
        | true =>
            have hloc : Located m d a (m.page d (pdx a)).addr (ptx a) :=
              ⟨htable, rfl, rfl⟩
            have hentry : m.entry d (a / PGSIZE) =
                m.page (m.page d (pdx a)).addr (ptx a) := by
              rw [Mem.entry, hback, hloc.pte]
            have hnext : (a + PGSIZE) % PGSIZE = 0 := by
              rw [Nat.add_mod_right, haligned]
            rw [bind_of_ok (walkpgdir_present htable)]
            dsimp only
            rw [bind_of_ok rfl]
            split
            next hpresent =>
              obtain ⟨hallocates, hafter, hkept⟩ :=
                h.step haligned ha hhigh hloc hpresent
              rw [if_neg hallocates.2, bind_of_ok (kfree_of_allocates hallocates),
                bind_of_ok rfl]
              obtain ⟨next, hop, himage, hlist, hfreed⟩ := ih hafter hnext hbound
              refine ⟨next, hop, himage,
                fun f hf => hlist (List.mem_cons_of_mem _ hf),
                fun page hlow hpage hthere => ?_⟩
              by_cases hhere : page * PGSIZE < a + PGSIZE
              · rw [hpages hlow hhere, hentry]
                exact hlist List.mem_cons_self
              · rw [← hkept page (not_lt.mp hhere) hpage] at hthere ⊢
                exact hfreed page (not_lt.mp hhere) hpage hthere
            next habsent =>
              obtain ⟨next, hop, himage, hlist, hfreed⟩ :=
                ih (a := a + PGSIZE) ⟨h.tables, h.distinct,
                  fun page hlow => h.pages page (by omega)⟩ hnext hbound
              refine ⟨next, hop, himage, hlist, fun page hlow hpage hthere => ?_⟩
              by_cases hhere : page * PGSIZE < a + PGSIZE
              · rw [hpages hlow hhere, hentry] at hthere
                exact absurd hthere habsent
              · exact hfreed page (not_lt.mp hhere) hpage hthere
      next hend =>
        refine ⟨m, rfl, rfl, List.Subset.refl _, fun page hlow hpage => ?_⟩
        omega

theorem deallocuvm {newsz : Nat} (h : Freeable m d (pgRoundUp newsz) high)
    (hlt : newsz < high) (hhigh : high ≤ KERNBASE) :
    ∃ next, KernelThreads.deallocuvm d high newsz m = .ok (newsz, next) ∧
      next.image = m.image ∧ ∀ page, pgRoundUp newsz ≤ page * PGSIZE →
        page * PGSIZE < high → (m.entry d page).has PTE_P = true →
          (m.entry d page).addr ∈ next.freelist := by
  have hturns : high ≤ pgRoundUp newsz + (high / PGSIZE + 1) * PGSIZE := by
    simp only [PGSIZE]
    omega
  obtain ⟨next, hop, himage, _, hfreed⟩ :=
    h.deallocPages (Space.pgRoundUp_aligned _) hhigh hturns
  refine ⟨next, ?_, himage, hfreed⟩
  rw [KernelThreads.deallocuvm, if_neg (not_le.mpr hlt), bind_of_ok hop]
  rfl

end Freeable

theorem kalloc_nil {m : Mem} (h : m.freelist = []) : kalloc m = .ok (none, m) := by
  rw [kalloc, bind_of_ok rfl, h]
  rfl

theorem kalloc_cons {m : Mem} {f : Frame} {rest : List Frame}
    (h : m.freelist = f :: rest) :
    kalloc m = .ok (some f, { m with freelist := rest }) := by
  rw [kalloc, bind_of_ok rfl, h]
  rfl

theorem mapPage_present {m : Mem} {d f : Frame} {a : Nat} {perm : PteFlags}
    (h : (m.pte d a).has PTE_P = true) : mapPage d a f perm m = .error .remap := by
  have htable : (m.page d (pdx a)).has PTE_P = true := by
    by_contra habsent
    simp [Mem.pte, habsent] at h
  simp only [Mem.pte, if_pos htable] at h
  rw [mapPage, bind_of_ok (walkpgdir_present htable)]
  dsimp only
  rw [bind_of_ok rfl, if_pos h]
  rfl

theorem kalloc_returns {m : Mem} {stop : Stop} : kalloc m ≠ .error stop := by
  cases hlist : m.freelist with
  | nil =>
      rw [kalloc_nil hlist]
      nofun
  | cons f rest =>
      rw [kalloc_cons hlist]
      nofun

theorem walkpgdir_returns {m : Mem} {d : Frame} {va : Nat} {alloc : Bool}
    {stop : Stop} : walkpgdir d va alloc m ≠ .error stop := by
  intro h
  rcases bind_error h with hload | ⟨pde, _, _, h⟩
  · cases hload
  · split at h
    · cases h
    · cases alloc with
      | false => cases h
      | true =>
          rcases bind_error h with hkalloc | ⟨found, _, hkalloc, h⟩
          · exact kalloc_returns hkalloc
          · cases found <;> cases h

theorem kfree_error {m : Mem} {f : Frame} {stop : Stop}
    (h : kfree f m = .error stop) : stop = .kfree := by
  rcases bind_error h with hget | ⟨_, _, _, h⟩
  · cases hget
  · split at h
    · cases h
      rfl
    · cases h

theorem deallocPages_error {m : Mem} {d : Frame} {high turns a : Nat} {stop : Stop}
    (h : deallocPages d high turns a m = .error stop) : stop = .kfree := by
  induction turns generalizing a m with
  | zero => cases h
  | succ turns ih =>
      unfold deallocPages at h
      split at h
      · rcases bind_error h with hwalk | ⟨found, _, _, h⟩
        · exact absurd hwalk walkpgdir_returns
        · cases found with
          | none => exact ih h
          | some place =>
              rcases bind_error h with hload | ⟨pte, _, _, h⟩
              · cases hload
              · split at h
                · split at h
                  · cases h
                    rfl
                  · rcases bind_error h with hkfree | ⟨_, _, _, h⟩
                    · exact kfree_error hkfree
                    · rcases bind_error h with hstore | ⟨_, _, _, h⟩
                      · cases hstore
                      · exact ih h
                · exact ih h
      · cases h

theorem deallocuvm_error {m : Mem} {d : Frame} {oldsz newsz : Nat} {stop : Stop}
    (h : deallocuvm d oldsz newsz m = .error stop) : stop = .kfree := by
  unfold deallocuvm at h
  split at h
  · cases h
  · rcases bind_error h with hpages | ⟨_, _, _, h⟩
    · exact deallocPages_error hpages
    · cases h

theorem mapPage_error {m : Mem} {d f : Frame} {a : Nat} {perm : PteFlags}
    {stop : Stop} (h : mapPage d a f perm m = .error stop) : stop = .remap := by
  rcases bind_error h with hwalk | ⟨found, _, _, h⟩
  · exact absurd hwalk walkpgdir_returns
  · cases found with
    | none => cases h
    | some place =>
        rcases bind_error h with hload | ⟨pte, _, _, h⟩
        · cases hload
        · split at h <;> cases h
          rfl

theorem mapPage_keeps {m next : Mem} {d f : Frame} {a : Nat} {perm : PteFlags}
    {done : Bool} (h : mapPage d a f perm m = .ok (done, next)) :
    next.image = m.image ∧ next.freelist ⊆ m.freelist := by
  obtain ⟨found, walked, hwalk, hrest⟩ := bind_ok h
  have hwalked : walked.image = m.image ∧ walked.freelist ⊆ m.freelist := by
    rcases walkpgdir_ok hwalk with ⟨_, rfl, _⟩ | ⟨_, ⟨_, rfl⟩ | ⟨_, t, rest, hlist, _, rfl⟩⟩
    · exact ⟨rfl, List.Subset.refl _⟩
    · exact ⟨rfl, List.Subset.refl _⟩
    · refine ⟨rfl, ?_⟩
      rw [hlist]
      exact List.subset_cons_self ..
  cases found with
  | none =>
      cases hrest
      exact hwalked
  | some place =>
      have hgo := load_bind hrest
      split at hgo
      · cases hgo
      · cases hgo
        exact hwalked

theorem Owned.space {home : Frame → Nat → Nat} {role : Frame → Role} {m : Mem}
    {d : Frame} (h : Owned home role m) (hd : role d = .dir) :
    Space home role m d (m.entry d) none m := by
  refine ⟨role, ⟨⟨h, fun _ _ => ⟨rfl, rfl⟩⟩, hd⟩, fun va _ => ?_, nofun⟩
  rw [Mem.entry]
  refine m.pte_congr d ?_
  rw [Nat.mul_div_cancel _ (by decide)]

namespace Space

variable {home : Frame → Nat → Nat} {role₀ : Frame → Role} {m₀ m next : Mem}
  {d f : Frame} {map : Nat → Word} {held : Option Frame}
  {sz newsz page low high a turns : Nat}

theorem view (h : Space home role₀ m₀ d map held m)
    (hpage : page * PGSIZE < KERNBASE) : m.entry d page = map page := by
  obtain ⟨_, _, hview, _⟩ := h
  rw [Mem.entry, hview _ (lt_trans hpage (by decide)),
    Nat.mul_div_cancel _ (by decide)]

theorem not_free (h : Space home role₀ m₀ d map held m)
    (hpage : page * PGSIZE < KERNBASE) (hpresent : (map page).has PTE_P = true) :
    (map page).addr ∉ m.freelist := by
  have hview := h.view hpage
  obtain ⟨role, hwithin, _, _⟩ := h
  rw [← hview] at hpresent ⊢
  rw [hwithin.owned.free, Mem.entry, hwithin.owned.user d _ hwithin.dir hpage hpresent]
  nofun

theorem freeable (h : Space home role₀ m₀ d map held m) (hhigh : high ≤ KERNBASE)
    (hframes : ∀ page, low ≤ page * PGSIZE → page * PGSIZE < high →
      (map page).has PTE_P = true → m.image.allocates (map page).addr) :
    Freeable m d low high := by
  have hview : ∀ {page}, page * PGSIZE < high → m.entry d page = map page :=
    fun hpage => h.view (lt_of_lt_of_le hpage hhigh)
  obtain ⟨role, hwithin, _, _⟩ := h
  constructor
  case tables =>
    intro i hpresent heq
    have hrole := hwithin.owned.table d i hwithin.dir hpresent
    rw [heq, hwithin.dir] at hrole
    cases hrole
  case distinct =>
    intro i j hi hj heq
    have hrole := hwithin.owned.table d i hwithin.dir hi
    rw [heq, hwithin.owned.table d j hwithin.dir hj, Role.table.injEq] at hrole
    exact hrole.2.symm
  case pages =>
    intro page hlow hpage hpresent
    have hrole := hwithin.owned.user d _ hwithin.dir
      (lt_of_lt_of_le hpage hhigh) hpresent
    rw [show m.pte d (page * PGSIZE) = m.entry d page from rfl, hview hpage] at hrole
    rw [hview hpage] at hpresent ⊢
    refine ⟨hframes page hlow hpage hpresent, fun heq => ?_, fun i hi heq => ?_⟩
    · rw [heq, hwithin.dir] at hrole
      cases hrole
    · rw [← heq, hwithin.owned.table d i hwithin.dir hi] at hrole
      cases hrole

theorem mapPage_over {va : Nat} {perm : PteFlags} {stop : Stop}
    (h : Space home role₀ m₀ d map held m) (hva : va < 2 ^ 32)
    (hop : mapPage d va f perm m = .error stop) :
    (map (va / PGSIZE)).has PTE_P = true := by
  rcases bind_error hop with hwalk | ⟨found, _, hwalk, hrest⟩
  · exact absurd hwalk walkpgdir_returns
  · obtain ⟨hspace, hfound, _⟩ := h.walk hwalk
    cases found with
    | none => cases hrest
    | some place =>
        have hloc := hfound place.1 place.2 rfl
        have hgo := load_bind hrest
        rw [hspace.entry hloc hva] at hgo
        split at hgo
        next hpresent => exact hpresent
        next => cases hgo

theorem allocPages_clear {after : Nat → Word}
    (h : Space home role₀ m₀ d after none m) (haligned : a % PGSIZE = 0)
    (hsz : newsz < KERNBASE)
    (hprivate : ∀ page, a ≤ page * PGSIZE → page * PGSIZE < newsz →
      Private home d page)
    (habsent : ∀ page, a ≤ page * PGSIZE → page * PGSIZE < newsz →
      (after page).has PTE_P = false) :
    KernelThreads.allocPages d sz newsz turns a m ≠ .error .remap := by
  induction turns generalizing a after m with
  | zero => nofun
  | succ turns ih =>
      intro hop
      unfold KernelThreads.allocPages at hop
      split at hop
      next hnew =>
        have hva : a < KERNBASE := lt_trans hnew hsz
        have hback := div_mul_of_aligned haligned
        have hmine := hprivate (a / PGSIZE) (le_of_eq hback.symm)
          (by rw [hback]; exact hnew)
        have hhere := habsent (a / PGSIZE) (le_of_eq hback.symm)
          (by rw [hback]; exact hnew)
        rcases bind_error hop with hkalloc | ⟨found, _, hkalloc, hrest⟩
        · exact kalloc_returns hkalloc
        · rcases kalloc_ok hkalloc with ⟨rfl, rfl⟩ | ⟨f, rest, hlist, rfl, rfl⟩
          · rcases bind_error hrest with hdealloc | ⟨_, _, _, hrest⟩
            · cases deallocuvm_error hdealloc
            · cases hrest
          · have hheld := (h.kalloc hlist).setHeld
              fun _ => ((0 : BitVec 8) ++ (0 : BitVec 8) ++ (0 : BitVec 8) ++
                (0 : BitVec 8) : BitVec 32)
            rcases bind_error hrest with hmemset | ⟨_, _, hmemset, hrest⟩
            · cases hmemset
            · cases hmemset
              rw [mappages_page haligned hva] at hrest
              rcases bind_error hrest with hmap | ⟨done, _, hmap, hrest⟩
              · rw [hheld.mapPage_over (lt_trans hva (by decide)) hmap] at hhere
                cases hhere
              · rcases hheld.mapPageUser hva hmine hmap with
                  ⟨rfl, hspace⟩ | ⟨rfl, _, hspace⟩
                · rcases bind_error hrest with hdealloc | ⟨_, _, _, hrest⟩
                  · cases deallocuvm_error hdealloc
                  · rcases bind_error hrest with hkfree | ⟨_, _, _, hrest⟩
                    · cases kfree_error hkfree
                    · cases hrest
                · refine ih hspace (by rw [Nat.add_mod_right, haligned])
                    (fun page hpage => hprivate page (by omega)) ?_ hrest
                  intro page hpage hpage'
                  rw [Function.update_of_ne]
                  · exact habsent page (by omega) hpage'
                  · rintro rfl
                    rw [hback] at hpage
                    simp only [PGSIZE] at hpage
                    omega
      next => cases hop

/-- `allocuvm` meets a page of a thread: it panics, or memory runs out before
that and the page is freed with the rest of the request. -/
theorem allocPages_hits {after : Nat → Word} {w : Nat}
    (h : Space home role₀ m₀ d after none m) (pairs : Set Nat) (haligned : a % PGSIZE = 0)
    (hlow : pgRoundUp sz ≤ a) (ha : a ≤ w * PGSIZE) (hw : w * PGSIZE < newsz)
    (hsz : newsz < KERNBASE) (hturns : newsz ≤ a + turns * PGSIZE)
    (hpresent : (after w).has PTE_P = true)
    (hprivate : ∀ page, pgRoundUp sz ≤ page * PGSIZE → page * PGSIZE < newsz →
      page + 1 ∉ pairs → Private home d page)
    (hguards : ∀ page, page + 1 ∈ pairs → (after page).has PTE_P = true)
    (hframes : ∀ page, pgRoundUp sz ≤ page * PGSIZE → page * PGSIZE < newsz →
      (after page).has PTE_P = true → m.image.allocates (after page).addr)
    (hlist : ∀ f ∈ m.freelist, m.image.allocates f) :
    KernelThreads.allocPages d sz newsz turns a m = .error .remap ∨
      ∃ next, KernelThreads.allocPages d sz newsz turns a m = .ok (0, next) ∧
        (after w).addr ∈ next.freelist := by
  induction turns generalizing a after m with
  | zero => omega
  | succ turns ih =>
      have hnew : a < newsz := lt_of_le_of_lt ha hw
      have hva : a < KERNBASE := lt_trans hnew hsz
      have hold : sz < newsz := lt_of_le_of_lt ((le_pgRoundUp sz).trans hlow) hnew
      have hback := div_mul_of_aligned haligned
      have hin : pgRoundUp sz ≤ w * PGSIZE := hlow.trans ha
      have hview : m.entry d w = after w := h.view (lt_trans hw hsz)
      unfold KernelThreads.allocPages
      rw [if_pos hnew]
      cases hfree : m.freelist with
      | nil =>
          obtain ⟨next, hop, _, hfreed⟩ :=
            (h.freeable (le_of_lt hsz) hframes).deallocuvm hold (le_of_lt hsz)
          refine .inr ⟨next, ?_, ?_⟩
          · rw [bind_of_ok (kalloc_nil hfree)]
            dsimp only
            rw [bind_of_ok hop]
            rfl
          · rw [← hview] at hpresent ⊢
            exact hfreed w hin hw hpresent
      | cons f rest =>
          rw [bind_of_ok (kalloc_cons hfree)]
          dsimp only
          rw [bind_of_ok rfl, mappages_page haligned hva]
          have hheld := (h.kalloc hfree).setHeld
            fun _ => ((0 : BitVec 8) ++ (0 : BitVec 8) ++ (0 : BitVec 8) ++
              (0 : BitVec 8) : BitVec 32)
          rw [hfree] at hlist
          cases hmap : mapPage d a f (PTE_W ||| PTE_U)
              (Mem.fill { m with freelist := rest } f 0) with
          | error stop =>
              rw [mapPage_error hmap] at hmap
              exact .inl (bind_of_error hmap)
          | ok reached =>
              obtain ⟨done, mapped⟩ := reached
              rw [bind_of_ok hmap]
              have habsent : (after (a / PGSIZE)).has PTE_P = false := by
                by_contra hthere
                have hentry : _ = after (a / PGSIZE) :=
                  hheld.view (by rw [hback]; exact hva)
                rw [Mem.entry, hback] at hentry
                refine absurd ((mapPage_present ?_).symm.trans hmap) (by simp)
                refine (congrArg (Word.has · PTE_P) hentry).trans ?_
                simpa using hthere
              have hne : a / PGSIZE ≠ w := by
                intro heq
                rw [heq, hpresent] at habsent
                cases habsent
              have hmine : Private home d (a / PGSIZE) := by
                refine hprivate _ (by rw [hback]; exact hlow)
                  (by rw [hback]; exact hnew) fun hin => ?_
                rw [hguards _ hin] at habsent
                cases habsent
              obtain ⟨himage, hsub⟩ := mapPage_keeps hmap
              have hallocates : ∀ f ∈ mapped.freelist,
                  mapped.image.allocates f := by
                rw [himage]
                exact fun f hf => hlist f (List.mem_cons_of_mem _ (hsub hf))
              have hf : mapped.image.allocates f := by
                rw [himage]
                exact hlist f List.mem_cons_self
              have hframes' : ∀ page, pgRoundUp sz ≤ page * PGSIZE →
                  page * PGSIZE < newsz → (after page).has PTE_P = true →
                    mapped.image.allocates (after page).addr := by
                rw [himage]
                exact hframes
              rcases hheld.mapPageUser hva hmine hmap with
                ⟨rfl, hspace⟩ | ⟨rfl, _, hspace⟩
              · obtain ⟨next, hop, himage', hfreed⟩ :=
                  (hspace.freeable (le_of_lt hsz) hframes').deallocuvm hold
                    (le_of_lt hsz)
                rw [← himage'] at hf
                refine .inr ⟨{ next.fill f 1 with freelist := f :: next.freelist },
                  ?_, ?_⟩
                · rw [if_neg (by simp), bind_of_ok hop,
                    bind_of_ok (kfree_of_allocates hf)]
                  rfl
                · rw [← hspace.view (lt_trans hw hsz)] at hpresent ⊢
                  exact List.mem_cons_of_mem _ (hfreed w hin hw hpresent)
              · have hkept : Function.update after (a / PGSIZE)
                    (.pte f (PTE_W ||| PTE_U ||| PTE_P)) w = after w :=
                  Function.update_of_ne hne.symm ..
                rw [if_pos rfl, ← hkept]
                refine ih hspace (by rw [Nat.add_mod_right, haligned]) (by omega) ?_
                  ?_ (by rw [hkept]; exact hpresent) ?_ ?_ hallocates
                · simp only [PGSIZE] at ha hne haligned ⊢
                  omega
                · rw [Nat.succ_mul] at hturns
                  omega
                · intro page hpage
                  rw [Function.update_apply]
                  split
                  · simp only [Word.has, Word.flags_pte]
                    decide
                  · exact hguards page hpage
                · intro page hpage hpage' hthere
                  rw [Function.update_apply] at hthere ⊢
                  split
                  · rw [Word.addr_pte]
                    exact hf
                  next hother =>
                    rw [if_neg hother] at hthere
                    exact hframes' page hpage hpage' hthere

end Space

end KernelThreads
