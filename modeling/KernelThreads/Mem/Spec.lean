import KernelThreads.Mem.Space

namespace KernelThreads

open Lib Program

/-! What the calls of `vm.c` do to an address space. -/

theorem present_or (flags : PteFlags) : (flags ||| PTE_P) &&& PTE_P ≠ 0 := by
  intro h
  have hbit := congrArg (BitVec.getLsbD · 0) h
  simp [PTE_P] at hbit

def cleared (map : Nat → Word) (low high : Nat) : Nat → Word := fun page =>
  if low ≤ page * PGSIZE ∧ page * PGSIZE < high ∧ (map page).has PTE_P = true
    then 0
  else map page

theorem cleared_empty {map : Nat → Word} {low high : Nat} (h : high ≤ low) :
    cleared map low high = map := by
  funext page
  rw [cleared, if_neg]
  omega

theorem cleared_skip {map : Nat → Word} {low middle high : Nat}
    (hle : low ≤ middle) (habsent : ∀ page, low ≤ page * PGSIZE →
      page * PGSIZE < middle → (map page).has PTE_P = false) :
    cleared map middle high = cleared map low high := by
  funext page
  unfold cleared
  by_cases hlow : low ≤ page * PGSIZE ∧ page * PGSIZE < middle
  · have hpage := habsent page hlow.1 hlow.2
    simp [hpage]
  · have hsame : middle ≤ page * PGSIZE ↔ low ≤ page * PGSIZE := by omega
    simp only [hsame]

theorem cleared_step {map : Nat → Word} {low high : Nat}
    (haligned : low % PGSIZE = 0) (hlt : low < high)
    (hpresent : (map (low / PGSIZE)).has PTE_P = true) :
    cleared (Function.update map (low / PGSIZE) 0) (low + PGSIZE) high =
      cleared map low high := by
  funext page
  simp only [cleared, Function.update_apply]
  by_cases hpage : page = low / PGSIZE
  · have hback : page * PGSIZE = low := by
      rw [hpage]
      exact div_mul_of_aligned haligned
    rw [← hpage] at hpresent
    simp [hpage.symm, hback, hlt, hpresent]
  · have hsame : low + PGSIZE ≤ page * PGSIZE ↔ low ≤ page * PGSIZE := by
      simp only [PGSIZE] at *
      omega
    simp only [if_neg hpage, hsame]

namespace Space

variable {home : Frame → Nat → Nat} {role₀ : Frame → Role} {m₀ m next : Mem}
  {d f : Frame} {map : Nat → Word} {held : Option Frame} {va a sz oldsz newsz : Nat}
  {perm : PteFlags}

theorem mapPageUser {done : Bool} (h : Space home role₀ m₀ d map (some f) m)
    (hva : va < KERNBASE) (hprivate : Private home d (va / PGSIZE))
    (hop : mapPage d va f perm m = .ok (done, next)) :
    done = false ∧ Space home role₀ m₀ d map (some f) next ∨
      done = true ∧ (map (va / PGSIZE)).has PTE_P = false ∧
        Space home role₀ m₀ d
          (Function.update map (va / PGSIZE) (.pte f (perm ||| PTE_P))) none
          next := by
  have hlt : va < 2 ^ 32 := lt_trans hva (by decide)
  obtain ⟨found, walked, hwalk, hrest⟩ := bind_ok hop
  obtain ⟨hspace, hfound, _⟩ := h.walk hwalk
  cases found with
  | none =>
      cases hrest
      exact .inl ⟨rfl, hspace⟩
  | some place =>
      have hloc := hfound place.1 place.2 rfl
      have hrest := load_bind hrest
      rw [hspace.entry hloc hlt] at hrest
      split at hrest
      · contradiction
      next habsent =>
        cases hrest
        exact .inr ⟨rfl, by simpa using habsent, hspace.mapUser hloc hva hprivate _⟩

/-- `after` has the pages of `map`, and those of a range if it is `done`. -/
structure Maps (map after : Nat → Word) (done : Bool) (low high : Nat) : Prop where
  kept : ∀ page, (map page).has PTE_P = true → (after page).has PTE_P = true
  made : done = true → ∀ va, low ≤ va → va < high → (after (va / PGSIZE)).has PTE_P = true

theorem mapPageKernel {done : Bool} (h : Space home role₀ m₀ d map held m)
    (hva : KERNBASE ≤ va) (hlt : va < 2 ^ 32) (haligned : va % PGSIZE = 0)
    (hperm : (perm ||| PTE_P) &&& PTE_U = 0)
    (hop : mapPage d va f perm m = .ok (done, next)) :
    ∃ after, Space home role₀ m₀ d after held next ∧ Maps map after done va (va + PGSIZE) := by
  obtain ⟨found, walked, hwalk, hrest⟩ := bind_ok hop
  obtain ⟨hspace, hfound, _⟩ := h.walk hwalk
  cases found with
  | none =>
      cases hrest
      exact ⟨map, hspace, fun _ hpage => hpage, nofun⟩
  | some place =>
      have hloc := hfound place.1 place.2 rfl
      have hrest := load_bind hrest
      split at hrest
      · contradiction
      · cases hrest
        have hnew : (Word.pte f (perm ||| PTE_P)).has PTE_P = true := by
          simpa [Word.has] using present_or perm
        refine ⟨_, hspace.mapKernel hloc hva hlt ?_, fun page hpage => ?_,
          fun _ x hlow hhigh => ?_⟩
        · simp [Word.has, hperm]
        · rw [Function.update_apply]
          split
          · exact hnew
          · exact hpage
        · rw [show x / PGSIZE = va / PGSIZE by simp only [PGSIZE] at *; omega,
            Function.update_self]
          exact hnew

theorem absent_of_table (h : Space home role₀ m₀ d map held m)
    (habsent : (m.page d (pdx a)).has PTE_P = false) (page : Nat)
    (hlow : a ≤ page * PGSIZE) (hhigh : page * PGSIZE < (a / 2 ^ 22 + 1) * 2 ^ 22)
    (hlt : page * PGSIZE < 2 ^ 32) : (map page).has PTE_P = false := by
  obtain ⟨_, _, hview, _⟩ := h
  have hpdx : pdx (page * PGSIZE) = pdx a := by
    simp only [pdx, PGSIZE, Fin.mk.injEq] at *
    omega
  have hpage := hview _ hlt
  rw [Nat.mul_div_cancel _ (by decide)] at hpage
  rw [← hpage]
  simp [Mem.pte, hpdx, habsent]

theorem next_table (haligned : a % PGSIZE = 0) :
    a + PGSIZE ≤ (a / 2 ^ 22 + 1) * 2 ^ 22 ∧
      (a / 2 ^ 22 + 1) * 2 ^ 22 % PGSIZE = 0 := by
  have hsize : 2 ^ 22 = 4194304 := rfl
  simp only [PGSIZE, hsize] at *
  omega

theorem deallocPages {turns : Nat} {result : Unit}
    (h : Space home role₀ m₀ d map held m) (haligned : a % PGSIZE = 0)
    (hturns : oldsz ≤ a + turns * PGSIZE) (hsz : oldsz ≤ KERNBASE)
    (hprivate : ∀ page, a ≤ page * PGSIZE → page * PGSIZE < oldsz →
      Private home d page)
    (hop : KernelThreads.deallocPages d oldsz turns a m = .ok (result, next)) :
    Space home role₀ m₀ d (cleared map a oldsz) held next := by
  induction turns generalizing a map m with
  | zero =>
      cases hop
      rw [cleared_empty (by simpa using hturns)]
      exact h
  | succ turns ih =>
      unfold KernelThreads.deallocPages at hop
      split at hop
      next hlow =>
        have hva : a < KERNBASE := lt_of_lt_of_le hlow hsz
        have hlt : a < 2 ^ 32 := lt_trans hva (by decide)
        obtain ⟨found, walked, hwalk, hrest⟩ := bind_ok hop
        obtain ⟨hspace, hfound, hnone⟩ := h.walk hwalk
        have hbound : oldsz ≤ a + PGSIZE + turns * PGSIZE := by
          rw [Nat.succ_mul] at hturns
          omega
        cases found with
        | none =>
            obtain ⟨hjump, hnext⟩ := next_table haligned
            rw [← cleared_skip (le_trans (Nat.le_add_right ..) hjump)
              fun page hpage hpage' => ?_]
            · refine ih hspace hnext (hbound.trans (Nat.add_le_add_right hjump _))
                (fun page hpage => hprivate page ?_) hrest
              exact le_trans (le_trans (Nat.le_add_right ..) hjump) hpage
            · refine hspace.absent_of_table (hnone rfl) page hpage hpage' ?_
              simp only [PGSIZE, KERNBASE] at *
              omega
        | some place =>
            have hloc := hfound place.1 place.2 rfl
            have hrest := load_bind hrest
            rw [hspace.entry hloc hlt] at hrest
            have hback := div_mul_of_aligned haligned
            have hnext : (a + PGSIZE) % PGSIZE = 0 := by
              rw [Nat.add_mod_right, haligned]
            split at hrest
            next hpresent =>
              split at hrest
              · cases hrest
              · obtain ⟨_, freed, hkfree, hrest⟩ := bind_ok hrest
                obtain ⟨_, _, hstore, hrest⟩ := bind_ok hrest
                cases hstore
                have hunmapped := hspace.unmap hloc hva
                  (hprivate _ (le_of_eq hback.symm) (by rw [hback]; exact hlow))
                  hpresent hkfree
                rw [← cleared_step haligned hlow hpresent]
                exact ih hunmapped hnext hbound
                  (fun page hpage => hprivate page (by omega)) hrest
            next hpresent =>
              rw [← cleared_skip (Nat.le_add_right a PGSIZE)
                fun page hpage hpage' => ?_]
              · exact ih hspace hnext hbound
                  (fun page hpage => hprivate page (by omega)) hrest
              · have heq : page = a / PGSIZE := by
                  simp only [PGSIZE] at *
                  omega
                rw [heq]
                simpa using hpresent
      next hhigh =>
        cases hop
        rw [cleared_empty (not_lt.mp hhigh)]
        exact h

theorem pgRoundUp_aligned (a : Nat) : pgRoundUp a % PGSIZE = 0 :=
  Nat.mul_mod_left ..

theorem le_pgRoundUp (a : Nat) : a ≤ pgRoundUp a := by
  simp only [pgRoundUp, PGSIZE]
  omega

theorem deallocuvm {result : Nat} (h : Space home role₀ m₀ d map held m)
    (hsz : oldsz ≤ KERNBASE)
    (hprivate : ∀ page, pgRoundUp newsz ≤ page * PGSIZE →
      page * PGSIZE < oldsz → Private home d page)
    (hop : KernelThreads.deallocuvm d oldsz newsz m = .ok (result, next)) :
    result = min oldsz newsz ∧
      Space home role₀ m₀ d (cleared map (pgRoundUp newsz) oldsz) held next := by
  unfold KernelThreads.deallocuvm at hop
  split at hop
  next hle =>
    cases hop
    rw [cleared_empty (le_trans hle (le_pgRoundUp newsz))]
    exact ⟨(min_eq_left hle).symm, h⟩
  next hlt =>
    obtain ⟨_, _, hdealloc, hrest⟩ := bind_ok hop
    cases hrest
    refine ⟨(min_eq_right (le_of_not_ge hlt)).symm,
      h.deallocPages (pgRoundUp_aligned _) ?_ hsz hprivate hdealloc⟩
    simp only [PGSIZE]
    omega

theorem sub32_of_le {b : Nat} (hle : b ≤ a) (hlt : a < 2 ^ 32) :
    sub32 a b = a - b := by
  rw [sub32, Nat.mod_eq_of_lt (lt_of_le_of_lt hle hlt), Nat.sub_add_comm hle,
    Nat.add_mod_right, Nat.mod_eq_of_lt (lt_of_le_of_lt (Nat.sub_le ..) hlt)]

theorem mappages_page (haligned : a % PGSIZE = 0) (hlt : a < KERNBASE) :
    mappages d a PGSIZE f perm = mapPage d a f perm := by
  have hdown : pgRoundDown a = a :=
    div_mul_of_aligned haligned
  have hfits : a + PGSIZE < 2 ^ 32 := by
    simp only [PGSIZE, KERNBASE] at *
    omega
  have hlast : pgRoundDown (sub32 (a + PGSIZE) 1) = a := by
    rw [sub32_of_le (by simp [PGSIZE]) hfits]
    clear hdown hfits hlt
    simp only [pgRoundDown, PGSIZE] at *
    omega
  have hmore : sub32 a a / PGSIZE = 0 := by
    rw [sub32_of_le le_rfl (by omega), Nat.sub_self, Nat.zero_div]
  simp only [mappages, hdown, hlast, hmore, mapPages]

def Outside (map after : Nat → Word) (low high : Nat) : Prop :=
  ∀ page, ¬ (low ≤ page * PGSIZE ∧ page * PGSIZE < high) → after page = map page

inductive Allocates (home : Frame → Nat → Nat) (role₀ : Frame → Role) (m₀ : Mem)
    (d : Frame) (map : Nat → Word) (oldsz newsz : Nat) (next : Mem) :
    Nat → Prop
  | refused (hbig : KERNBASE ≤ newsz)
      (hspace : Space home role₀ m₀ d map none next) :
      Allocates home role₀ m₀ d map oldsz newsz next 0
  | smaller (hlt : newsz < oldsz) (hspace : Space home role₀ m₀ d map none next) :
      Allocates home role₀ m₀ d map oldsz newsz next oldsz
  | failed {after : Nat → Word} (hlt : newsz < KERNBASE)
      (hspace : Space home role₀ m₀ d after none next)
      (hsame : Outside map after (pgRoundUp oldsz) newsz)
      (hgone : ∀ page, pgRoundUp oldsz ≤ page * PGSIZE → page * PGSIZE < newsz →
        (after page).has PTE_P = false) :
      Allocates home role₀ m₀ d map oldsz newsz next 0
  | done {after : Nat → Word} (hle : oldsz ≤ newsz) (hlt : newsz < KERNBASE)
      (hspace : Space home role₀ m₀ d after none next)
      (hsame : Outside map after (pgRoundUp oldsz) newsz)
      (hnew : ∀ page, pgRoundUp oldsz ≤ page * PGSIZE → page * PGSIZE < newsz →
        (after page).flags = PTE_W ||| PTE_U ||| PTE_P) :
      Allocates home role₀ m₀ d map oldsz newsz next newsz

theorem outside_cleared {after : Nat → Word} {low high : Nat}
    (h : Outside map after low high) :
    Outside map (cleared after low high) low high := by
  intro page hpage
  rw [cleared, if_neg fun hin => hpage ⟨hin.1, hin.2.1⟩]
  exact h page hpage

theorem cleared_absent {low high page : Nat} (hlow : low ≤ page * PGSIZE)
    (hhigh : page * PGSIZE < high) :
    (cleared map low high page).has PTE_P = false := by
  unfold cleared
  split
  · simp
  next hnot =>
    by_contra hpresent
    exact hnot ⟨hlow, hhigh, by simpa using hpresent⟩

theorem allocFails {after : Nat → Word} {result : Nat}
    (h : Space home role₀ m₀ d after held m) (hsz : newsz < KERNBASE)
    (hprivate : ∀ page, pgRoundUp oldsz ≤ page * PGSIZE →
      page * PGSIZE < newsz → Private home d page)
    (hsame : Outside map after (pgRoundUp oldsz) newsz)
    (hop : KernelThreads.deallocuvm d newsz oldsz m = .ok (result, next)) :
    ∃ left, Space home role₀ m₀ d left held next ∧
      Outside map left (pgRoundUp oldsz) newsz ∧
        ∀ page, pgRoundUp oldsz ≤ page * PGSIZE → page * PGSIZE < newsz →
          (left page).has PTE_P = false :=
  ⟨_, (h.deallocuvm (le_of_lt hsz) hprivate hop).2, outside_cleared hsame,
    fun _ => cleared_absent⟩

theorem allocPages {turns result : Nat} {after : Nat → Word}
    (h : Space home role₀ m₀ d after none m) (haligned : a % PGSIZE = 0)
    (hlow : pgRoundUp oldsz ≤ a) (hle : oldsz ≤ newsz)
    (hturns : newsz ≤ a + turns * PGSIZE) (hsz : newsz < KERNBASE)
    (hprivate : ∀ page, pgRoundUp oldsz ≤ page * PGSIZE →
      page * PGSIZE < newsz → Private home d page)
    (hsame : Outside map after (pgRoundUp oldsz) newsz)
    (hnew : ∀ page, pgRoundUp oldsz ≤ page * PGSIZE → page * PGSIZE < a →
      (after page).flags = PTE_W ||| PTE_U ||| PTE_P)
    (hop : KernelThreads.allocPages d oldsz newsz turns a m = .ok (result, next)) :
    Allocates home role₀ m₀ d map oldsz newsz next result := by
  induction turns generalizing a after m with
  | zero =>
      cases hop
      exact .done hle hsz h hsame fun page hpage hhigh =>
        hnew page hpage (by omega)
  | succ turns ih =>
      unfold KernelThreads.allocPages at hop
      split at hop
      next hhigh =>
        have hva : a < KERNBASE := lt_trans hhigh hsz
        have hback := div_mul_of_aligned haligned
        have hmine : Private home d (a / PGSIZE) :=
          hprivate _ (by rw [hback]; exact hlow) (by rw [hback]; exact hhigh)
        obtain ⟨found, taken, hkalloc, hrest⟩ := bind_ok hop
        rcases kalloc_ok hkalloc with ⟨rfl, rfl⟩ | ⟨mem, rest, hlist, rfl, rfl⟩
        · obtain ⟨_, _, hdealloc, hrest⟩ := bind_ok hrest
          cases hrest
          obtain ⟨left, hleft, hsame, hgone⟩ :=
            h.allocFails hsz hprivate hsame hdealloc
          exact .failed hsz hleft hsame hgone
        · obtain ⟨_, _, hmemset, hrest⟩ := bind_ok hrest
          cases hmemset
          obtain ⟨done, mapped, hmap, hrest⟩ := bind_ok hrest
          rw [mappages_page haligned hva] at hmap
          have hheld := (h.kalloc hlist).setHeld
            fun _ => ((0 : BitVec 8) ++ (0 : BitVec 8) ++ (0 : BitVec 8) ++
              (0 : BitVec 8) : BitVec 32)
          rcases hheld.mapPageUser hva hmine hmap with
            ⟨rfl, hspace⟩ | ⟨rfl, _, hspace⟩
          · obtain ⟨_, _, hdealloc, hrest⟩ := bind_ok hrest
            obtain ⟨_, _, hkfree, hrest⟩ := bind_ok hrest
            cases hrest
            obtain ⟨left, hleft, hsame, hgone⟩ :=
              hspace.allocFails hsz hprivate hsame hdealloc
            exact .failed hsz (hleft.kfreeHeld hkfree) hsame hgone
          · refine ih hspace (by rw [Nat.add_mod_right, haligned]) (by omega) ?_
              ?_ ?_ hrest
            · rw [Nat.succ_mul] at hturns
              omega
            · intro page hpage
              rw [Function.update_of_ne]
              · exact hsame page hpage
              · rintro rfl
                rw [hback] at hpage
                exact hpage ⟨hlow, hhigh⟩
            · intro page hpage hpage'
              rw [Function.update_apply]
              split
              · exact Word.flags_pte ..
              · refine hnew page hpage ?_
                simp only [PGSIZE] at *
                omega
      next hhigh =>
        cases hop
        exact .done hle hsz h hsame fun page hpage hpage' =>
          hnew page hpage (by omega)

theorem allocuvm {result : Nat} (h : Space home role₀ m₀ d map none m)
    (hprivate : ∀ page, pgRoundUp oldsz ≤ page * PGSIZE →
      page * PGSIZE < newsz → Private home d page)
    (hop : KernelThreads.allocuvm d oldsz newsz m = .ok (result, next)) :
    Allocates home role₀ m₀ d map oldsz newsz next result := by
  unfold KernelThreads.allocuvm at hop
  split at hop
  next hbig =>
    cases hop
    exact .refused hbig h
  next hsmall =>
    split at hop
    next hlt =>
      cases hop
      exact .smaller hlt h
    next hge =>
      refine h.allocPages (pgRoundUp_aligned _) le_rfl (le_of_not_gt hge) ?_
        (lt_of_not_ge hsmall) hprivate (fun _ _ => rfl) ?_ hop
      · simp only [PGSIZE]
        omega
      · intro page hpage hpage'
        omega

end Space

end KernelThreads
