import KernelThreads.Machine.System
import KernelThreads.Mem.Grow

namespace KernelThreads

open Lib Program

/-! `sbrk` in a group whose threads have stacks from `clone`. -/

/-- The memory of a thread group, whose pages are ones that `kfree` takes. -/
structure Mem.Serves (m : Mem) (d : Frame) (sz tstack : Nat) (pairs : Set Nat) :
    Prop where
  laid : ∃ home role, Owned home role m ∧ role d = .dir ∧
    Laid (home d) (m.entry d) sz tstack pairs
  free : ∀ f ∈ m.freelist, m.image.allocates f
  mapped : ∀ page, page * PGSIZE < KERNBASE →
    (m.entry d page).has PTE_P = true → m.image.allocates (m.entry d page).addr

/-- A call of `growproc(n)` that respects the stack pages in `pairs` and the
guard entries below them. -/
structure GrowSpares (m : Mem) (d : Frame) (sz : Nat) (pairs : Set Nat) (n : Int)
    (call : Except Stop (Option Nat × Mem)) : Prop where
  remap : call ≠ .error .remap
  kept : ∀ result next, call = .ok (result, next) → ∀ v ∈ pairs, ∀ page,
    page = v ∨ page + 1 = v → next.entry d page = m.entry d page ∧
      (m.entry d page).addr ∉ next.freelist
  refused : ∀ result next, call = .ok (result, next) → 0 < n →
    (∃ v ∈ pairs, ((v * PGSIZE : Nat) : Int) < sz + n + PGSIZE) → result = none

/-- The heap ends below every stack made by `clone`, and it keeps the leader's
guard page as long as there is one. -/
def GrowsClear (sz tstack : Nat) (pairs : Set Nat) (n : Int) : Prop :=
  (0 < n → (sz : Int) + n < KERNBASE →
    ∀ v ∈ pairs, (sz : Int) + n + PGSIZE ≤ (v * PGSIZE : Nat)) ∧
  (n < 0 → 0 ≤ (sz : Int) + n → pairs.Nonempty →
    ((guardPage tstack * PGSIZE : Nat) : Int) < sz + n)

theorem Laid.pair_page {home : Nat → Nat} {map : Nat → Word}
    {sz tstack v page : Nat} {pairs : Set Nat}
    (h : Laid home map sz tstack pairs) (hv : v ∈ pairs)
    (hpage : page = v ∨ page + 1 = v) :
    sz ≤ page * PGSIZE ∧ page * PGSIZE < KERNBASE ∧
      (map page).has PTE_P = true := by
  obtain ⟨hlow, hhigh⟩ := h.high v hv
  rcases hpage with rfl | rfl
  · exact ⟨by omega, hhigh, (Word.has_of_flags (h.stack page hv)).1⟩
  · rw [Nat.succ_mul] at hlow hhigh
    refine ⟨by omega, by omega, ?_⟩
    have hcopied := h.copied _ hv
    rw [Nat.add_sub_cancel] at hcopied
    rw [hcopied]
    exact h.guard_present (h.guarded ⟨_, hv⟩)

theorem Space.spares {home : Frame → Nat → Nat} {role : Frame → Role}
    {m next : Mem} {d : Frame} {after : Nat → Word} {sz tstack v page : Nat}
    {pairs : Set Nat} (h : Space home role m d after none next)
    (hlaid : Laid (home d) (m.entry d) sz tstack pairs) (hv : v ∈ pairs)
    (hpage : page = v ∨ page + 1 = v) (hsame : after page = m.entry d page) :
    next.entry d page = m.entry d page ∧
      (m.entry d page).addr ∉ next.freelist := by
  obtain ⟨_, hkern, hpresent⟩ := hlaid.pair_page hv hpage
  refine ⟨(h.view hkern).trans hsame, ?_⟩
  rw [← hsame] at hpresent ⊢
  exact h.not_free hkern hpresent

namespace Table

variable {t : Table} {q tleader : Slot} {d : Frame} {n : Int} {m : Mem}

theorem growproc_eq (hdir : (t q).pgdir = some d) (hn : n ≠ 0) :
    t.growproc q tleader n =
      (if 0 < n then allocuvm d (t tleader).sz (resized (t tleader).sz n)
        else deallocuvm d (t tleader).sz (resized (t tleader).sz n)) >>=
        fun sz => pure (if sz = 0 then none else some sz) := by
  simp only [growproc, if_neg hn, hdir, onDir]

theorem resized_of_nonneg {sz newsz : Nat} (hsum : (sz : Int) + n = newsz)
    (hlt : newsz < 2 ^ 32) : resized sz n = newsz := by
  rw [resized, hsum]
  omega

variable {sz newsz tstack v : Nat} {pairs : Set Nat}

theorem grow_hits (hserves : m.Serves d sz tstack pairs) (hle : sz ≤ newsz)
    (hlt : newsz < KERNBASE) (hv : v ∈ pairs)
    (hhit : v * PGSIZE < newsz + PGSIZE) :
    allocuvm d sz newsz m = .error .remap ∨ ∃ next,
      allocuvm d sz newsz m = .ok (0, next) ∧
        (m.entry d (v - 1)).addr ∈ next.freelist := by
  obtain ⟨home, role, howned, hd, hlaid⟩ := hserves.laid
  have hpos := hlaid.stack_pos hv
  obtain ⟨hlow, hkern, hpresent⟩ :=
    hlaid.pair_page hv (.inr (Nat.sub_add_cancel hpos))
  rw [allocuvm, if_neg (not_le.mpr hlt), if_neg (not_lt.mpr hle)]
  refine (howned.space hd).allocPages_hits pairs (Space.pgRoundUp_aligned _) le_rfl
    ?_ ?_ hlt ?_ hpresent ?_ ?_ (fun page _ hpage => hserves.mapped page ?_)
    hserves.free
  · simp only [pgRoundUp, PGSIZE] at hlow ⊢
    omega
  · have hsz := hlaid.size_pos
    rw [Nat.sub_one_mul]
    omega
  · simp only [PGSIZE]
    omega
  · intro page hpage hpage' hnot
    exact hlaid.private_page hnot fun hsome =>
      hlaid.guard_ne hsome (hlaid.inside.trans hpage)
  · exact fun page hin => (hlaid.pair_page hin (.inr rfl)).2.2
  · exact lt_trans hpage hlt

theorem shrink_hits (hserves : m.Serves d sz tstack pairs)
    (hlt : newsz < sz) (hv : v ∈ pairs)
    (hhit : newsz ≤ guardPage tstack * PGSIZE) :
    ∃ next, deallocuvm d sz newsz m = .ok (newsz, next) ∧
      (m.entry d (v - 1)).addr ∈ next.freelist := by
  obtain ⟨home, role, howned, hd, hlaid⟩ := hserves.laid
  have hguard := hlaid.guarded ⟨v, hv⟩
  obtain ⟨next, hop, _, hfreed⟩ := ((howned.space hd).freeable hlaid.below
    fun page _ hpage => hserves.mapped page (lt_of_lt_of_le hpage hlaid.below)).deallocuvm
      hlt hlaid.below
  refine ⟨next, hop, ?_⟩
  rw [hlaid.copied v hv]
  refine hfreed _ ?_ ?_ (hlaid.guard_present hguard)
  · simp only [pgRoundUp, PGSIZE] at hhit ⊢
    omega
  · refine lt_of_le_of_lt ?_ (hlaid.guard_below hguard)
    exact Nat.mul_le_mul_right _ (Nat.le_succ _)

theorem grow_clear (hserves : m.Serves d sz tstack pairs) (hle : sz ≤ newsz)
    (hclear : newsz < KERNBASE → ∀ v ∈ pairs, newsz + PGSIZE ≤ v * PGSIZE) :
    allocuvm d sz newsz m ≠ .error .remap ∧ ∀ result next,
      allocuvm d sz newsz m = .ok (result, next) →
        (KERNBASE ≤ newsz → result = 0) ∧ ∀ v ∈ pairs, ∀ page,
          page = v ∨ page + 1 = v → next.entry d page = m.entry d page ∧
            (m.entry d page).addr ∉ next.freelist := by
  obtain ⟨home, role, howned, hd, hlaid⟩ := hserves.laid
  have hspace := howned.space hd
  by_cases hbig : KERNBASE ≤ newsz
  · rw [allocuvm, if_pos hbig]
    refine ⟨nofun, fun result next hop => ?_⟩
    cases hop
    exact ⟨fun _ => rfl, fun v hv page hpage => hspace.spares hlaid hv hpage rfl⟩
  · have hlt := not_le.mp hbig
    have hclear := hclear hlt
    have hprivate : ∀ page, pgRoundUp sz ≤ page * PGSIZE →
        page * PGSIZE < newsz → Private home d page := fun page hlow hpage =>
      hlaid.private_heap hclear hpage (hlaid.inside.trans hlow)
    refine ⟨?_, fun result next hop => ⟨fun hbig' => absurd hbig' hbig, ?_⟩⟩
    · rw [allocuvm, if_neg hbig, if_neg (not_lt.mpr hle)]
      refine hspace.allocPages_clear (Space.pgRoundUp_aligned _) hlt hprivate ?_
      intro page hlow hpage
      refine hlaid.bare page ((Space.le_pgRoundUp _).trans hlow)
        (lt_trans hpage hlt) (fun hin => ?_) fun hin => ?_
      · have hin := hclear _ hin
        omega
      · have hin := hclear _ hin
        rw [Nat.succ_mul] at hin
        omega
    · intro v hv page hpage
      have hhigh : newsz ≤ page * PGSIZE := by
        have hv := hclear v hv
        rcases hpage with rfl | rfl
        · omega
        · rw [Nat.succ_mul] at hv
          omega
      have hout : ¬ (pgRoundUp sz ≤ page * PGSIZE ∧ page * PGSIZE < newsz) :=
        fun hin => absurd hin.2 (not_lt.mpr hhigh)
      cases hspace.allocuvm hprivate hop with
      | refused _ hafter | smaller _ hafter =>
          exact hafter.spares hlaid hv hpage rfl
      | failed _ hafter hsame | done _ _ hafter hsame =>
          exact hafter.spares hlaid hv hpage (hsame page hout)

theorem shrink_clear (hserves : m.Serves d sz tstack pairs)
    (hclear : newsz < sz → pairs.Nonempty → guardPage tstack * PGSIZE < newsz)
    {result : Nat} {next : Mem} (hop : deallocuvm d sz newsz m = .ok (result, next))
    {page : Nat} (hv : v ∈ pairs) (hpage : page = v ∨ page + 1 = v) :
    next.entry d page = m.entry d page ∧
      (m.entry d page).addr ∉ next.freelist := by
  obtain ⟨home, role, howned, hd, hlaid⟩ := hserves.laid
  have hprivate : ∀ page, pgRoundUp newsz ≤ page * PGSIZE →
      page * PGSIZE < sz → Private home d page := by
    intro page hlow hpage
    refine hlaid.private_page (hlaid.not_stack ?_) ?_
    · rw [Nat.succ_mul]
      exact Nat.add_lt_add_right hpage _
    · rintro hsome rfl
      have hle := (Space.le_pgRoundUp newsz).trans hlow
      exact absurd (hclear (lt_of_le_of_lt hle hpage) hsome) (not_lt.mpr hle)
  obtain ⟨_, hafter⟩ := (howned.space hd).deallocuvm hlaid.below hprivate hop
  refine hafter.spares hlaid hv hpage ?_
  have hlow := (hlaid.pair_page hv hpage).1
  rw [cleared, if_neg]
  omega

theorem sized_error {call : MemProgram Nat} {stop : Stop} :
    (call >>= fun sz => pure (if sz = 0 then none else some sz)) m =
      .error stop ↔ call m = .error stop := by
  refine ⟨fun h => ?_, bind_of_error⟩
  rcases bind_error h with h | ⟨_, _, _, h⟩
  · exact h
  · cases h

theorem sized_ok {call : MemProgram Nat} {result : Option Nat} {next : Mem} :
    (call >>= fun sz => pure (if sz = 0 then none else some sz)) m =
      .ok (result, next) ↔ ∃ sz, call m = .ok (sz, next) ∧
        result = if sz = 0 then none else some sz := by
  constructor
  · intro h
    obtain ⟨sz, _, hcall, hrest⟩ := bind_ok h
    cases hrest
    exact ⟨sz, hcall, rfl⟩
  · rintro ⟨sz, hcall, rfl⟩
    rw [bind_of_ok hcall]
    rfl

/-- A request to grow is harmless exactly if it ends below the stacks, or is
refused for its size. -/
theorem grow_spares (t : Table) (q tleader : Slot)
    (hserves : m.Serves d (t tleader).sz tstack pairs)
    (hdir : (t q).pgdir = some d) (hpos : 0 < n)
    (hsum : ((t tleader).sz : Int) + n = newsz) (hlt : newsz < 2 ^ 32) :
    GrowSpares m d (t tleader).sz pairs n (t.growproc q tleader n m) ↔
      (newsz < KERNBASE → ∀ v ∈ pairs, newsz + PGSIZE ≤ v * PGSIZE) := by
  obtain ⟨_, _, _, _, hlaid⟩ := hserves.laid
  have hle : (t tleader).sz ≤ newsz := by omega
  rw [growproc_eq hdir hpos.ne', if_pos hpos, resized_of_nonneg hsum hlt]
  constructor
  · intro hspares hkern v hv
    by_contra hhit
    rcases grow_hits hserves hle hkern hv (not_le.mp hhit) with
      hremap | ⟨next, hop, hfreed⟩
    · exact hspares.remap (sized_error.mpr hremap)
    · exact (hspares.kept _ _ (sized_ok.mpr ⟨0, hop, rfl⟩) v hv (v - 1)
        (.inr (Nat.sub_add_cancel (hlaid.stack_pos hv)))).2 hfreed
  · intro hclear
    obtain ⟨hremap, hkept⟩ := grow_clear hserves hle hclear
    refine ⟨fun herror => hremap (sized_error.mp herror), ?_, ?_⟩
    · intro result next hop v hv page hpage
      obtain ⟨sz, hcall, _⟩ := sized_ok.mp hop
      exact (hkept sz next hcall).2 v hv page hpage
    · rintro result next hop _ ⟨v, hv, hhit⟩
      obtain ⟨sz, hcall, rfl⟩ := sized_ok.mp hop
      have hbig : KERNBASE ≤ newsz := by
        by_contra hsmall
        have hclear := hclear (not_le.mp hsmall) v hv
        omega
      rw [(hkept sz next hcall).1 hbig]
      rfl

theorem shrink_spares (hserves : m.Serves d (t tleader).sz tstack pairs)
    (hdir : (t q).pgdir = some d) (hneg : n < 0)
    (hresized : resized (t tleader).sz n = newsz) :
    GrowSpares m d (t tleader).sz pairs n (t.growproc q tleader n m) ↔
      (newsz < (t tleader).sz → pairs.Nonempty →
        guardPage tstack * PGSIZE < newsz) := by
  obtain ⟨_, _, _, _, hlaid⟩ := hserves.laid
  rw [growproc_eq hdir hneg.ne, if_neg (not_lt.mpr hneg.le), hresized]
  constructor
  · rintro hspares hlt ⟨v, hv⟩
    by_contra hhit
    obtain ⟨next, hop, hfreed⟩ := shrink_hits hserves hlt hv (not_lt.mp hhit)
    exact (hspares.kept _ _ (sized_ok.mpr ⟨newsz, hop, rfl⟩) v hv (v - 1)
      (.inr (Nat.sub_add_cancel (hlaid.stack_pos hv)))).2 hfreed
  · intro hclear
    refine ⟨fun herror => ?_, ?_, fun _ _ _ hpos => absurd hpos (not_lt.mpr hneg.le)⟩
    · cases deallocuvm_error (sized_error.mp herror)
    · intro result next hop v hv page hpage
      obtain ⟨sz, hcall, _⟩ := sized_ok.mp hop
      exact shrink_clear hserves hclear hcall hv hpage

/-- `growproc(n)` leaves the stacks of the threads alone exactly if the heap
stays clear of them and of the guard page they share. -/
theorem growproc_spares (t : Table) (q tleader : Slot)
    (hserves : m.Serves d (t tleader).sz tstack pairs)
    (hdir : (t q).pgdir = some d) (hlow : -2 ^ 31 ≤ n) (hhigh : n < 2 ^ 31) :
    GrowSpares m d (t tleader).sz pairs n (t.growproc q tleader n m) ↔
      GrowsClear (t tleader).sz tstack pairs n := by
  obtain ⟨_, _, howned, hd, hlaid⟩ := hserves.laid
  have hsz := hlaid.below
  rcases lt_trichotomy n 0 with hneg | rfl | hpos
  · rw [shrink_spares hserves hdir hneg rfl]
    have hclear : (resized (t tleader).sz n < (t tleader).sz →
          pairs.Nonempty → guardPage tstack * PGSIZE < resized (t tleader).sz n) ↔
        (0 ≤ ((t tleader).sz : Int) + n → pairs.Nonempty →
          ((guardPage tstack * PGSIZE : Nat) : Int) < (t tleader).sz + n) := by
      -- Below 0 the sum wraps round, and nothing is given back.
      simp only [resized, KERNBASE] at hsz ⊢
      generalize guardPage tstack * PGSIZE = guard
      constructor <;> intro h hle hsome <;> have h := fun hle => h hle hsome <;> omega
    rw [hclear]
    exact ⟨fun h => ⟨fun hpos => absurd hpos (not_lt.mpr hneg.le), fun _ => h⟩,
      fun h => h.2 hneg⟩
  · refine iff_of_true ⟨?_, ?_, fun _ _ _ hpos => absurd hpos (lt_irrefl _)⟩
      ⟨fun hpos => absurd hpos (lt_irrefl _), fun hneg => absurd hneg (lt_irrefl _)⟩
    · intro hremap
      cases hremap
    · intro result next hop v hv page hpage
      cases hop
      exact (howned.space hd).spares hlaid hv hpage rfl
  · obtain ⟨newsz, hsum⟩ := Int.eq_ofNat_of_zero_le
      (show 0 ≤ ((t tleader).sz : Int) + n by omega)
    have hlt : newsz < 2 ^ 32 := by
      simp only [KERNBASE] at hsz
      omega
    rw [grow_spares t q tleader hserves hdir hpos hsum hlt]
    simp only [GrowsClear, hsum]
    constructor
    · refine fun h => ⟨fun _ hkern v hv => ?_, fun hneg => absurd hneg
        (not_lt.mpr hpos.le)⟩
      exact_mod_cast h (by exact_mod_cast hkern) v hv
    · intro h hkern v hv
      exact_mod_cast h.1 hpos (by exact_mod_cast hkern) v hv

end Table

def sampleMem (thread : Bool) (free : List Frame) : Mem where
  image := ⟨300, 50, by decide, by decide⟩
  freelist := free
  page := fun f i =>
    if f = 100 then
      if i = 0 then .pte 101 7 else if i = 49 ∧ thread = true then .pte 102 7 else 0
    else if f = 101 then
      if i = 0 then .pte 103 7 else if i = 1 then .pte 104 3
      else if i = 2 then .pte 105 7 else 0
    else if f = 102 then
      if i = 1023 then .pte 106 7 else if i = 1022 then .pte 104 3 else 0
    else 0

def sampleRole (thread : Bool) (free : List Frame) (f : Frame) : Role :=
  if f = 100 then .dir else if f = 101 then .table 100 0
  else if f = 103 then .user 100 0 else if f = 104 then .user 100 1
  else if f = 105 then .user 100 2
  else if f = 102 then if thread then .table 100 49 else .loose
  else if f = 106 then if thread then .user 100 51199 else .loose
  else if f ∈ free then .free else .loose

section Sample

variable {thread : Bool} {free : List Frame} {va : Nat}

theorem sampleMem_dir (i : Index) : (sampleMem thread free).page 100 i =
    if i = 0 then .pte 101 7 else if i = 49 ∧ thread = true then .pte 102 7
      else 0 := rfl

theorem sampleMem_pte (va : Nat) : (sampleMem thread free).pte 100 va =
    if pdx va = 0 then (sampleMem thread free).page 101 (ptx va)
    else if pdx va = 49 ∧ thread = true then
      (sampleMem thread free).page 102 (ptx va)
    else 0 := by
  rw [Mem.pte, sampleMem_dir]
  by_cases hlow : pdx va = 0
  · rw [if_pos hlow, if_pos hlow, Word.addr_pte, if_pos (by decide)]
  · rw [if_neg hlow, if_neg hlow]
    by_cases hhigh : pdx va = 49 ∧ thread = true
    · rw [if_pos hhigh, if_pos hhigh, Word.addr_pte, if_pos (by decide)]
    · rw [if_neg hhigh, if_neg hhigh, if_neg (by decide)]

theorem sampleMem_present (hva : va < 2 ^ 32)
    (h : ((sampleMem thread free).pte 100 va).has PTE_P = true) :
    (va / PGSIZE, (sampleMem thread free).pte 100 va) ∈
        [(0, Word.pte 103 7), (1, .pte 104 3), (2, .pte 105 7)] ∨
      thread = true ∧ (va / PGSIZE, (sampleMem thread free).pte 100 va) ∈
        [(51198, Word.pte 104 3), (51199, .pte 106 7)] := by
  have hlow : ∀ j : Index, ((sampleMem true []).page 101 j).has PTE_P = true →
      (0 * 1024 + j.val, (sampleMem true []).page 101 j) ∈
        [(0, Word.pte 103 7), (1, .pte 104 3), (2, .pte 105 7)] := by
    decide +kernel
  have hhigh : ∀ j : Index, ((sampleMem true []).page 102 j).has PTE_P = true →
      (49 * 1024 + j.val, (sampleMem true []).page 102 j) ∈
        [(51198, Word.pte 104 3), (51199, .pte 106 7)] := by
    decide +kernel
  rw [page_of_index hva]
  rw [sampleMem_pte] at h ⊢
  split at h
  next hpdx =>
    rw [if_pos hpdx, hpdx]
    exact .inl (hlow _ h)
  next hne =>
    split at h
    next hpdx =>
      rw [if_neg hne, if_pos hpdx, hpdx.1]
      exact .inr ⟨hpdx.2, hhigh _ h⟩
    next => simp at h

theorem sampleRole_dir {d : Frame} (h : sampleRole thread free d = .dir) :
    d = 100 := by
  by_contra hne
  simp only [sampleRole, if_neg hne] at h
  split_ifs at h

theorem sampleMem_owned (hnodup : free.Nodup) (hfree : ∀ f ∈ free, 106 < f) :
    Owned (fun _ page => if page = 51198 ∧ thread = true then 1 else page)
      (sampleRole thread free) (sampleMem thread free) := by
  constructor
  case nodup => exact hnodup
  case free =>
    intro f
    change f ∈ free ↔ _
    by_cases hf : f ∈ free
    · have hlt := hfree f hf
      refine iff_of_true hf ?_
      simp only [sampleRole, if_pos hf]
      rw [if_neg, if_neg, if_neg, if_neg, if_neg, if_neg, if_neg] <;>
        rintro rfl <;> exact absurd hlt (by decide)
    · refine iff_of_false hf ?_
      simp only [sampleRole, if_neg hf]
      split_ifs <;> nofun
  case live =>
    intro f d h
    have hd : d = 100 := by
      simp only [sampleRole] at h
      split_ifs at h <;> cases h <;> rfl
    rw [hd]
    rfl
  case table =>
    intro d i hd h
    rw [sampleRole_dir hd] at h ⊢
    rw [sampleMem_dir] at h ⊢
    split at h
    next hi =>
      rw [if_pos hi, Word.addr_pte, hi]
      rfl
    next hne =>
      split at h
      next hi =>
        rw [if_neg hne, if_pos hi, Word.addr_pte, hi.1]
        simp [sampleRole, hi.2]
      next => simp at h
  case user =>
    intro d va hd hva h
    rw [sampleRole_dir hd] at h ⊢
    have hmem := sampleMem_present (lt_trans hva (by decide)) h
    simp only [List.mem_cons, List.not_mem_nil, or_false, Prod.mk.injEq] at hmem
    rcases hmem with (⟨hp, hw⟩ | ⟨hp, hw⟩ | ⟨hp, hw⟩) | ⟨rfl, ⟨hp, hw⟩ | ⟨hp, hw⟩⟩ <;>
      rw [hp, hw, Word.addr_pte]
    · cases thread <;> rfl
    · cases thread <;> rfl
    · cases thread <;> rfl
    · rfl
    · rfl
  case kernel =>
    intro d va hd hva hlt h
    rw [sampleRole_dir hd] at h ⊢
    have hmem := sampleMem_present hlt h
    simp only [List.mem_cons, List.not_mem_nil, or_false, Prod.mk.injEq] at hmem
    have hpage : 51200 ≤ va / PGSIZE := by
      simp only [PGSIZE, KERNBASE] at hva ⊢
      omega
    omega

def samplePairs (thread : Bool) : Set Nat := {v | v = 51199 ∧ thread = true}

theorem sampleMem_pages (thread : Bool) (free : List Frame) :
    let entry := (sampleMem thread free).entry 100
    entry 0 = .pte 103 7 ∧ entry 1 = .pte 104 3 ∧ entry 2 = .pte 105 7 ∧
      (thread = true → entry 51198 = .pte 104 3 ∧ entry 51199 = .pte 106 7) := by
  have hsample : ∀ thread, let entry := (sampleMem thread []).entry 100
      entry 0 = .pte 103 7 ∧ entry 1 = .pte 104 3 ∧ entry 2 = .pte 105 7 ∧
        (thread = true → entry 51198 = .pte 104 3 ∧ entry 51199 = .pte 106 7) := by
    decide +kernel
  exact hsample thread

theorem sampleMem_laid :
    Laid (fun page => if page = 51198 ∧ thread = true then 1 else page)
      ((sampleMem thread free).entry 100) 12288 12288 (samplePairs thread) := by
  have hguard : guardPage 12288 = 1 := by decide
  have hpresent : ∀ {page}, page * PGSIZE < 2 ^ 32 →
      ((sampleMem thread free).entry 100 page).has PTE_P = true →
        page < 3 ∨ thread = true ∧ (page = 51198 ∨ page = 51199) := by
    intro page hpage h
    have hmem := sampleMem_present hpage h
    rw [Nat.mul_div_cancel _ (by decide)] at hmem
    simp only [List.mem_cons, List.not_mem_nil, or_false, Prod.mk.injEq] at hmem
    rcases hmem with (⟨hp, _⟩ | ⟨hp, _⟩ | ⟨hp, _⟩) | ⟨ht, ⟨hp, _⟩ | ⟨hp, _⟩⟩
    · exact .inl (by omega)
    · exact .inl (by omega)
    · exact .inl (by omega)
    · exact .inr ⟨ht, .inl hp⟩
    · exact .inr ⟨ht, .inr hp⟩
  obtain ⟨hfirst, hsecond, hthird, hstack⟩ := sampleMem_pages thread free
  constructor
  case below => decide
  case filled =>
    intro page hpage
    have hpage : page = 0 ∨ page = 1 ∨ page = 2 := by
      simp only [PGSIZE] at hpage
      omega
    rcases hpage with rfl | rfl | rfl
    · rw [hfirst]
      decide
    · rw [hsecond]
      decide
    · rw [hthird]
      decide
  case aligned => decide
  case pos => decide
  case inside => decide
  case fence =>
    intro _
    rw [hguard, hsecond]
    decide
  case guarded => exact fun _ => by decide
  case high =>
    rintro v ⟨rfl, _⟩
    decide
  case apart =>
    rintro v ⟨rfl, _⟩ ⟨heq, _⟩
    contradiction
  case stack =>
    rintro v ⟨rfl, ht⟩
    rw [(hstack ht).2]
    decide
  case copied =>
    rintro v ⟨rfl, ht⟩
    rw [hguard, hsecond]
    exact (hstack ht).1
  case bare =>
    intro page hlow hkern hnot hnot'
    by_contra hthere
    have hcases := hpresent (lt_trans hkern (by decide)) (by simpa using hthere)
    rcases hcases with hsmall | ⟨ht, rfl | rfl⟩
    · simp only [PGSIZE] at hlow
      omega
    · exact hnot' ⟨rfl, ht⟩
    · exact hnot ⟨rfl, ht⟩
  case own =>
    intro page hpage
    refine if_neg fun hin => hpage ⟨?_, hin.2⟩
    rw [hin.1]
  case shared =>
    rintro page ⟨hpage, ht⟩
    exact if_pos ⟨by omega, ht⟩

theorem sampleMem_serves (hnodup : free.Nodup)
    (hfree : ∀ f ∈ free, 106 < f ∧ f < 50000) :
    (sampleMem thread free).Serves 100 12288 12288 (samplePairs thread) := by
  have hallocates : ∀ f : Frame, 100 ≤ f → f < 50000 →
      (sampleMem thread free).image.allocates f := by
    intro f hlow hhigh
    refine ⟨?_, ?_⟩
    · rintro (hsmall | hbig)
      · have hsmall : f < 50 := hsmall
        bv_omega
      · simp only [PHYSTOP, PGSIZE] at hbig
        bv_omega
    · rintro rfl
      bv_omega
  constructor
  case laid =>
    exact ⟨_, _, sampleMem_owned hnodup fun f hf => (hfree f hf).1, rfl,
      sampleMem_laid⟩
  case free =>
    intro f hf
    obtain ⟨hlow, hhigh⟩ := hfree f hf
    exact hallocates f (by bv_omega) hhigh
  case mapped =>
    intro page hpage h
    have hmem := sampleMem_present (lt_trans hpage (by decide)) h
    simp only [List.mem_cons, List.not_mem_nil, or_false, Prod.mk.injEq] at hmem
    rcases hmem with (⟨_, hw⟩ | ⟨_, hw⟩ | ⟨_, hw⟩) | ⟨_, ⟨_, hw⟩ | ⟨_, hw⟩⟩ <;>
      rw [Mem.entry, hw, Word.addr_pte] <;>
        exact hallocates _ (by decide) (by decide)

def sampleTable : Table := fun p =>
  if p = 0 then
    { sz := 12288, pgdir := some 100, state := .running, pid := 1, tid := -1
      tstack := 12288 }
  else if p = 1 then
    { sz := 12288, pgdir := some 100, state := .runnable, pid := 1, tid := 2
      parent := some 0, tstack := KERNBASE, tstackalloc := true }
  else {}

theorem sampleTable_serves (free : List Frame) (hnodup : free.Nodup)
    (hfree : ∀ f ∈ free, 106 < f ∧ f < 50000) :
    (sampleMem true free).Serves 100 (sampleTable 0).sz 12288 (samplePairs true) := by
  rw [show (sampleTable 0).sz = 12288 from rfl]
  exact sampleMem_serves hnodup hfree

/-- One more page of heap. -/
theorem growproc_spares_page :
    (sampleMem true [107]).Serves 100 (sampleTable 0).sz 12288 (samplePairs true) ∧
      GrowSpares (sampleMem true [107]) 100 (sampleTable 0).sz (samplePairs true)
        4096 (sampleTable.growproc 1 0 4096 (sampleMem true [107])) := by
  have hserves := sampleTable_serves [107] (by decide) (by simp)
  have hdir : (sampleTable 1).pgdir = some 100 := rfl
  refine ⟨hserves, (Table.growproc_spares sampleTable 1 0 hserves hdir (by decide)
    (by decide)).mpr ⟨?_, fun hneg => absurd hneg (by decide)⟩⟩
  rintro _ _ v ⟨rfl, _⟩
  decide

/-- Out of memory, a request for the rest of user memory gives the thread's
stack back. -/
theorem growproc_frees_stack :
    ¬ ∀ (m : Mem) (t : Table) (q tleader : Slot) (d : Frame) (n : Int)
        (tstack : Nat) (pairs : Set Nat),
      m.Serves d (t tleader).sz tstack pairs → (t q).pgdir = some d →
      -2 ^ 31 ≤ n → n < 2 ^ 31 →
        GrowSpares m d (t tleader).sz pairs n (t.growproc q tleader n m) := by
  intro hspares
  have hserves := sampleTable_serves [] List.nodup_nil (by simp)
  have hdir : (sampleTable 0).pgdir = some 100 := rfl
  have hsum : ((sampleTable 0).sz : Int) + 209702911 = (209715199 : Nat) := rfl
  have hgrows := hspares _ sampleTable 0 0 100 209702911 12288 _ hserves hdir
    (by decide) (by decide)
  rw [Table.grow_spares sampleTable 0 0 hserves hdir (by decide) hsum (by decide)] at hgrows
  exact absurd (hgrows (by decide) 51199 ⟨rfl, rfl⟩) (by decide)

end Sample

end KernelThreads
