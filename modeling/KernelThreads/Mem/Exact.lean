import KernelThreads.Mem.Frames

namespace KernelThreads

open Lib Program

/-! What the calls of `vm.c` do to an address space and to the free list.  None
of them panics, and none of them loses a page. -/

theorem walkpgdir_run (d : Frame) (va : Nat) (m : Mem) :
    walkpgdir d va false m = .ok (if (m.page d (pdx va)).has PTE_P = true then
      some ((m.page d (pdx va)).addr, ptx va) else none, m) := by
  split
  next hpresent => exact walkpgdir_present hpresent
  next habsent => exact walkpgdir_absent (by simpa using habsent)

namespace Vm

variable {pool : Frame → Prop} {m₀ m next : Mem} {d f t : Frame} {map : Nat → Word}
  {data : Nat → Content} {held : Option (Frame × Content)} {va page a : Nat}
  {perm : PteFlags} {c : Content}

theorem allocates (h : Vm pool m₀ d map data held m) (hf : pool f) :
    m.image.allocates f := by
  rw [h.image]
  exact h.pooled f hf

theorem meets_walk (h : Vm pool m₀ d map data held m) (va : Nat) :
    Meets (walkpgdir d va true) (fun _ => False) m fun found next =>
      Vm pool m₀ d map data held next ∧
        (∀ t j, found = some (t, j) → Located next d va t j) ∧
          (found = none → next.freelist = []) := by
  by_cases hpresent : (m.page d (pdx va)).has PTE_P = true
  · refine Meets.of_ok (walkpgdir_present hpresent) ⟨h, ?_, nofun⟩
    rintro t j ⟨⟩
    exact ⟨hpresent, rfl, rfl⟩
  rw [Bool.not_eq_true] at hpresent
  unfold walkpgdir
  refine Meets.bind_ok (rfl : load d (pdx va) m = .ok (m.page d (pdx va), m)) ?_
  rw [if_neg (by simp [hpresent]), if_neg (by simp)]
  cases hlist : m.freelist with
  | nil =>
      refine Meets.bind_ok (kalloc_nil hlist) (Meets.pure ⟨h, nofun, fun _ => hlist⟩)
  | cons t rest =>
      have hflags : (PTE_P ||| PTE_W ||| PTE_U) &&& PTE_P ≠ 0 := by decide
      have hnew := h.newTable hlist hpresent hflags
      refine Meets.bind_ok (kalloc_cons hlist) (Meets.of_ok rfl ⟨hnew, ?_, nofun⟩)
      rintro t' j ⟨⟩
      refine ⟨?_, ?_, rfl⟩
      · rw [Mem.setWord_apply, if_pos rfl, Word.has_pte]
        exact decide_eq_true hflags
      · rw [Mem.setWord_apply, if_pos rfl, Word.addr_pte]

theorem meets_kfreeHeld (h : Vm pool m₀ d map data (some (f, c)) m) :
    Meets (kfree f) (fun _ => False) m fun _ next =>
      Vm pool m₀ d map data none next :=
  Meets.of_ok (kfree_of_allocates (h.allocates (h.pool_placed (p := .held) rfl)))
    (h.kfreeHeld _)

theorem meets_mapPage (h : Vm pool m₀ d map data (some (f, c)) m) (hva : va < KERNBASE)
    (habsent : (map (va / PGSIZE)).has PTE_P = false) :
    Meets (mapPage d va f perm) (fun _ => False) m fun done next =>
      if done = true then
        Vm pool m₀ d (Function.update map (va / PGSIZE) (.pte f (perm ||| PTE_P)))
          (Function.update data (va / PGSIZE) c) none next
      else Vm pool m₀ d map data (some (f, c)) next ∧ next.freelist = [] := by
  refine Meets.bind (h.meets_walk va) ?_
  rintro found walked ⟨hwalked, hfound, hnone⟩
  cases found with
  | none =>
      refine Meets.pure ?_
      rw [if_neg (by simp)]
      exact ⟨hwalked, hnone rfl⟩
  | some place =>
      obtain ⟨t, j⟩ := place
      have hloc := hfound t j rfl
      refine Meets.bind_ok (rfl : load t j walked = .ok (walked.page t j, walked)) ?_
      rw [hwalked.entry hloc (lt_two_pow hva), if_neg (by simp [habsent])]
      refine Meets.of_ok rfl ?_
      rw [if_pos rfl]
      exact hwalked.mapUser hloc hva habsent (present_or perm)

theorem absent_of_table (h : Vm pool m₀ d map data held m)
    (habsent : (m.page d (pdx a)).has PTE_P = false) (page : Nat)
    (hlow : a ≤ page * PGSIZE) (hhigh : page * PGSIZE < (a / 2 ^ 22 + 1) * 2 ^ 22)
    (hlt : page * PGSIZE < 2 ^ 32) : (map page).has PTE_P = false := by
  have hpdx : pdx (page * PGSIZE) = pdx a := by
    simp only [pdx, PGSIZE, Fin.mk.injEq] at *
    omega
  have hpage := h.view _ hlt
  rw [Nat.mul_div_cancel _ (by decide)] at hpage
  rw [← hpage]
  simp [Mem.pte, hpdx, habsent]

theorem meets_deallocPages {turns oldsz : Nat} (h : Vm pool m₀ d map data held m)
    (haligned : a % PGSIZE = 0) (hturns : oldsz ≤ a + turns * PGSIZE)
    (hsz : oldsz ≤ KERNBASE) :
    Meets (deallocPages d oldsz turns a) (fun _ => False) m fun _ next =>
      Vm pool m₀ d (cleared map a oldsz) data held next := by
  induction turns generalizing a map m with
  | zero =>
      refine Meets.pure ?_
      rw [cleared_empty (by simpa using hturns)]
      exact h
  | succ turns ih =>
      unfold deallocPages
      split
      next hlow =>
        have hva : a < KERNBASE := lt_of_lt_of_le hlow hsz
        have hbound : oldsz ≤ a + PGSIZE + turns * PGSIZE := by
          rw [Nat.succ_mul] at hturns
          omega
        have hback := div_mul_of_aligned haligned
        have hnext : (a + PGSIZE) % PGSIZE = 0 := by
          rw [Nat.add_mod_right, haligned]
        refine Meets.bind_ok (walkpgdir_run d a m) ?_
        by_cases htable : (m.page d (pdx a)).has PTE_P = true
        · rw [if_pos htable]
          have hloc : Located m d a (m.page d (pdx a)).addr (ptx a) := ⟨htable, rfl, rfl⟩
          refine Meets.bind_ok (rfl : load (m.page d (pdx a)).addr (ptx a) m = .ok (_, m)) ?_
          rw [h.entry hloc (lt_two_pow hva)]
          split
          next hpresent =>
            have hframe := h.allocates (h.pool_placed
              (user_placed m d held (user_page hva) hpresent))
            rw [if_neg hframe.2]
            refine Meets.bind_ok (kfree_of_allocates hframe) ?_
            refine Meets.bind_ok (rfl : store _ _ 0 _ = .ok ((), _)) ?_
            rw [← cleared_step haligned hlow hpresent]
            exact ih (h.unmap hloc hva hpresent _) hnext hbound
          next hpresent =>
            rw [← cleared_skip (Nat.le_add_right a PGSIZE) fun page hpage hpage' => ?_]
            · exact ih h hnext hbound
            · have heq : page = a / PGSIZE := by
                simp only [PGSIZE] at *
                omega
              rw [heq]
              simpa using hpresent
        · rw [if_neg htable]
          obtain ⟨hjump, haligned'⟩ := Space.next_table haligned
          rw [← cleared_skip (le_trans (Nat.le_add_right ..) hjump)
            fun page hpage hpage' => ?_]
          · exact ih h haligned' (hbound.trans (Nat.add_le_add_right hjump _))
          · refine h.absent_of_table (by simpa using htable) page hpage hpage' ?_
            simp only [PGSIZE, KERNBASE] at *
            omega
      next hhigh =>
        refine Meets.pure ?_
        rw [cleared_empty (not_lt.mp hhigh)]
        exact h

theorem meets_deallocuvm {oldsz : Nat} (newsz : Nat) (h : Vm pool m₀ d map data held m)
    (hsz : oldsz ≤ KERNBASE) :
    Meets (deallocuvm d oldsz newsz) (fun _ => False) m fun result next =>
      result = min oldsz newsz ∧
        Vm pool m₀ d (cleared map (pgRoundUp newsz) oldsz) data held next := by
  unfold deallocuvm
  split
  next hle =>
    refine Meets.pure ⟨(min_eq_left hle).symm, ?_⟩
    rw [cleared_empty (le_trans hle (Space.le_pgRoundUp newsz))]
    exact h
  next hlt =>
    have hturns : oldsz ≤ pgRoundUp newsz + (oldsz / PGSIZE + 1) * PGSIZE := by
      simp only [PGSIZE]
      omega
    refine Meets.bind (h.meets_deallocPages (Space.pgRoundUp_aligned _) hturns hsz) ?_
    intro _ next hnext
    exact Meets.pure ⟨(min_eq_right (le_of_not_ge hlt)).symm, hnext⟩

theorem pgRoundUp_le_aligned {n : Nat} (haligned : a % PGSIZE = 0) (hle : n ≤ a) :
    pgRoundUp n ≤ a := by
  simp only [pgRoundUp, PGSIZE] at *
  omega

theorem next_le_pgRoundUp {n : Nat} (haligned : a % PGSIZE = 0) (hlt : a < n) :
    a + PGSIZE ≤ pgRoundUp n := by
  simp only [pgRoundUp, PGSIZE] at *
  omega

structure Zeroed (map after : Nat → Word) (data data' : Nat → Content)
    (low high : Nat) : Prop where
  same : Space.Outside map after low high
  kept : ∀ page, ¬ (low ≤ page * PGSIZE ∧ page * PGSIZE < high) → data' page = data page
  flags : ∀ page, low ≤ page * PGSIZE → page * PGSIZE < high →
    (after page).flags = PTE_W ||| PTE_U ||| PTE_P
  zero : ∀ page, low ≤ page * PGSIZE → page * PGSIZE < high → data' page = fun _ => 0

theorem Zeroed.refl (map : Nat → Word) (data : Nat → Content) (low : Nat) :
    Zeroed map map data data low low where
  same _ _ := rfl
  kept _ _ := rfl
  flags _ hlow hhigh := absurd hlow (not_le.mpr hhigh)
  zero _ hlow hhigh := absurd hlow (not_le.mpr hhigh)

theorem Zeroed.step {after : Nat → Word} {data' : Nat → Content} {low : Nat} {f : Frame}
    (h : Zeroed map after data data' low a) (hlow : low ≤ a) (haligned : a % PGSIZE = 0) :
    Zeroed map (Function.update after (a / PGSIZE) (.pte f (PTE_W ||| PTE_U ||| PTE_P)))
      data (Function.update data' (a / PGSIZE) fun _ => 0) low (a + PGSIZE) := by
  have hback := div_mul_of_aligned haligned
  have hlast : ∀ page, page * PGSIZE < a + PGSIZE → page ≠ a / PGSIZE →
      page * PGSIZE < a := by
    intro page hpage hne
    clear h hlow
    simp only [PGSIZE] at *
    omega
  have hout : ∀ page, ¬ (low ≤ page * PGSIZE ∧ page * PGSIZE < a + PGSIZE) →
      page ≠ a / PGSIZE ∧ ¬ (low ≤ page * PGSIZE ∧ page * PGSIZE < a) := by
    intro page hpage
    refine ⟨?_, fun hin => hpage ⟨hin.1, Nat.lt_add_right _ hin.2⟩⟩
    rintro rfl
    rw [hback] at hpage
    exact hpage ⟨hlow, Nat.lt_add_of_pos_right (by decide)⟩
  constructor
  case same =>
    intro page hpage
    rw [Function.update_of_ne (hout page hpage).1]
    exact h.same page (hout page hpage).2
  case kept =>
    intro page hpage
    rw [Function.update_of_ne (hout page hpage).1]
    exact h.kept page (hout page hpage).2
  case flags =>
    intro page hpage hhigh
    by_cases heq : page = a / PGSIZE
    · rw [heq, Function.update_self, Word.flags_pte]
    · rw [Function.update_of_ne heq]
      exact h.flags page hpage (hlast page hhigh heq)
  case zero =>
    intro page hpage hhigh
    by_cases heq : page = a / PGSIZE
    · rw [heq, Function.update_self]
    · rw [Function.update_of_ne heq]
      exact h.zero page hpage (hlast page hhigh heq)

structure Emptied (map after : Nat → Word) (low high : Nat) : Prop where
  same : Space.Outside map after low high
  gone : ∀ page, low ≤ page * PGSIZE → page * PGSIZE < high →
    (after page).has PTE_P = false

/-- The free list has been empty, while nothing above `newsz` was mapped. -/
def Exhausts (pool : Frame → Prop) (m₀ : Mem) (d : Frame) (map : Nat → Word)
    (newsz : Nat) : Prop :=
  ∃ after data held m, Vm pool m₀ d after data held m ∧ m.freelist = [] ∧
    ∀ page, page * PGSIZE < KERNBASE → (after page).has PTE_P = true →
      (map page).has PTE_P = true ∨ page * PGSIZE < newsz

def Grows (pool : Frame → Prop) (m₀ : Mem) (d : Frame) (map : Nat → Word)
    (data : Nat → Content) (oldsz newsz result : Nat) (next : Mem) : Prop :=
  (result = newsz ∧ ∃ after data', Zeroed map after data data' (pgRoundUp oldsz)
      (max (pgRoundUp oldsz) (pgRoundUp newsz)) ∧ Vm pool m₀ d after data' none next) ∨
    result = 0 ∧ Exhausts pool m₀ d map newsz ∧
      ∃ after, Emptied map after (pgRoundUp oldsz) newsz ∧ Vm pool m₀ d after data none next

theorem meets_allocFails {after : Nat → Word} {data' : Nat → Content} {oldsz newsz : Nat}
    (h : Vm pool m₀ d after data' held m) (hzeroed : Zeroed map after data data'
      (pgRoundUp oldsz) a) (ha : a < newsz) (hsz : newsz < KERNBASE) :
    Meets (deallocuvm d newsz oldsz) (fun _ => False) m fun _ next =>
      ∃ left, Emptied map left (pgRoundUp oldsz) newsz ∧
        Vm pool m₀ d left data held next := by
  refine (h.meets_deallocuvm oldsz (le_of_lt hsz)).weaken ?_
  rintro _ next ⟨_, hnext⟩
  have hsame : Space.Outside map after (pgRoundUp oldsz) newsz := fun page hpage =>
    hzeroed.same page fun hin => hpage ⟨hin.1, lt_trans hin.2 ha⟩
  refine ⟨_, ⟨Space.outside_cleared hsame, fun page => Space.cleared_absent⟩, ?_⟩
  refine { hnext with contents := fun page hpage hpresent => ?_ }
  have hcontents := hnext.contents page hpage hpresent
  rw [hcontents]
  refine hzeroed.kept page fun hin => ?_
  rw [Space.cleared_absent hin.1 (lt_trans hin.2 ha)] at hpresent
  contradiction

theorem meets_allocPages {after : Nat → Word} {data' : Nat → Content}
    {turns oldsz newsz : Nat} (h : Vm pool m₀ d after data' none m)
    (hzeroed : Zeroed map after data data' (pgRoundUp oldsz) a)
    (haligned : a % PGSIZE = 0) (hlow : pgRoundUp oldsz ≤ a)
    (hhigh : a ≤ max (pgRoundUp oldsz) (pgRoundUp newsz))
    (hturns : newsz ≤ a + turns * PGSIZE) (hsz : newsz < KERNBASE)
    (habsent : ∀ page, pgRoundUp oldsz ≤ page * PGSIZE → page * PGSIZE < newsz →
      (map page).has PTE_P = false) :
    Meets (allocPages d oldsz newsz turns a) (fun _ => False) m
      (Grows pool m₀ d map data oldsz newsz) := by
  induction turns generalizing a after data' m with
  | zero =>
      have hround := pgRoundUp_le_aligned haligned (show newsz ≤ a by simpa using hturns)
      rw [le_antisymm hhigh (max_le hlow hround)] at hzeroed
      exact Meets.pure (.inl ⟨rfl, _, _, hzeroed, h⟩)
  | succ turns ih =>
      unfold allocPages
      split
      next ha =>
        have hva : a < KERNBASE := lt_trans ha hsz
        have hback := div_mul_of_aligned haligned
        have hfresh : (after (a / PGSIZE)).has PTE_P = false := by
          rw [hzeroed.same _ (by rw [hback]; omega)]
          exact habsent _ (by rw [hback]; exact hlow) (by rw [hback]; exact ha)
        have hgone : ∀ {data held mid}, Vm pool m₀ d after data held mid →
            mid.freelist = [] → Exhausts pool m₀ d map newsz := by
          intro data held mid hmid hlist
          refine ⟨after, data, held, mid, hmid, hlist, fun page _ hthere => ?_⟩
          by_cases hin : pgRoundUp oldsz ≤ page * PGSIZE ∧ page * PGSIZE < a
          · exact .inr (lt_trans hin.2 ha)
          · rw [hzeroed.same page hin] at hthere
            exact .inl hthere
        cases hlist : m.freelist with
        | nil =>
            refine Meets.bind_ok (kalloc_nil hlist) ?_
            refine Meets.bind (h.meets_allocFails hzeroed ha hsz) ?_
            rintro _ next hleft
            exact Meets.pure (.inr ⟨rfl, hgone h hlist, hleft⟩)
        | cons mem rest =>
            have hheld := (h.kalloc hlist).setHeld fun _ => 0
            refine Meets.bind_ok (kalloc_cons hlist) ?_
            refine Meets.bind_ok (rfl : memset mem 0 { m with freelist := rest } =
              .ok ((), Mem.setPage { m with freelist := rest } mem fun _ => 0)) ?_
            rw [Space.mappages_page haligned hva]
            refine Meets.bind (hheld.meets_mapPage hva hfresh) ?_
            intro done mapped hmapped
            cases done with
            | false =>
                refine Meets.bind (meets_allocFails hmapped.1 hzeroed ha hsz) ?_
                rintro _ left ⟨after, hafter, hleft⟩
                refine Meets.bind hleft.meets_kfreeHeld ?_
                intro _ next hnext
                exact Meets.pure (.inr ⟨rfl, hgone hmapped.1 hmapped.2, after, hafter, hnext⟩)
            | true =>
                have hstep := hzeroed.step (f := mem) hlow haligned
                refine ih hmapped hstep (by rw [Nat.add_mod_right, haligned])
                  (le_trans hlow (Nat.le_add_right ..))
                  (le_trans (next_le_pgRoundUp haligned ha) (le_max_right ..)) ?_
                rw [Nat.succ_mul] at hturns
                omega
      next ha =>
        have hround := pgRoundUp_le_aligned haligned (not_lt.mp ha)
        rw [le_antisymm hhigh (max_le hlow hround)] at hzeroed
        exact Meets.pure (.inl ⟨rfl, _, _, hzeroed, h⟩)

theorem meets_allocuvm {oldsz newsz : Nat} (h : Vm pool m₀ d map data none m)
    (hsz : newsz < KERNBASE) (hle : oldsz ≤ newsz)
    (habsent : ∀ page, pgRoundUp oldsz ≤ page * PGSIZE → page * PGSIZE < newsz →
      (map page).has PTE_P = false) :
    Meets (allocuvm d oldsz newsz) (fun _ => False) m
      (Grows pool m₀ d map data oldsz newsz) := by
  unfold allocuvm
  rw [if_neg (not_le.mpr hsz), if_neg (not_lt.mpr hle)]
  refine h.meets_allocPages (.refl map data _) (Space.pgRoundUp_aligned _) le_rfl
    (le_max_left ..) ?_ hsz habsent
  simp only [PGSIZE]
  omega

end Vm

end KernelThreads
