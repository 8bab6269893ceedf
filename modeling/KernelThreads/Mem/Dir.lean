import KernelThreads.Mem.Spec

namespace KernelThreads

open Lib Program

/-! Directories: `freevm` and `setupkvm`. -/

section

variable {home : Frame → Nat → Nat} {role₀ role : Frame → Role} {m₀ m next : Mem}
  {d : Frame} {map : Nat → Word} {held : Option Frame}

structure Doomed (role₀ role : Frame → Role) (m : Mem) (d : Frame)
    (indices : List Index) : Prop where
  loose : ∀ i ∈ indices, (m.page d i).has PTE_P = true →
    role (m.page d i).addr = .loose ∧ (m.page d i).addr ≠ d ∧
      Belongs d (m.page d i).addr (role₀ (m.page d i).addr)
  distinct : ∀ i ∈ indices, ∀ j ∈ indices, (m.page d i).has PTE_P = true →
    (m.page d j).has PTE_P = true → (m.page d i).addr = (m.page d j).addr → i = j

theorem Apart.freeTables {indices : List Index} {result : Unit}
    (hnodup : indices.Nodup) (h : Apart home role₀ m₀ d role m)
    (hd : role d = .loose) (hdoomed : Doomed role₀ role m d indices)
    (hop : KernelThreads.freeTables d indices m = .ok (result, next)) :
    ∃ after, Apart home role₀ m₀ d after next ∧ after d = .loose := by
  induction indices generalizing m role with
  | nil =>
      cases hop
      exact ⟨role, h, hd⟩
  | cons i rest ih =>
      rw [List.nodup_cons] at hnodup
      have hrest := load_bind hop
      split at hrest
      next hpresent =>
        obtain ⟨_, freed, hkfree, hrest⟩ := bind_ok hrest
        obtain ⟨hloose, hne, hmine⟩ := hdoomed.loose i (by simp) hpresent
        obtain ⟨hfreed, hpages⟩ := h.kfree hloose hmine hkfree
        have hdir := hpages d hne.symm
        refine ih hnodup.2 hfreed ?_ ⟨?_, ?_⟩ hrest
        · rw [Function.update_of_ne hne.symm]
          exact hd
        · intro j hj
          rw [hdir]
          intro hset
          rw [Function.update_of_ne]
          · exact hdoomed.loose j (by simp [hj]) hset
          · intro heq
            have hsame := hdoomed.distinct j (by simp [hj]) i (by simp) hset
              hpresent heq
            rw [hsame] at hj
            exact hnodup.1 hj
        · intro j hj k hk
          rw [hdir]
          exact hdoomed.distinct j (by simp [hj]) k (by simp [hk])
      next =>
        exact ih hnodup.2 h hd
          ⟨fun j hj => hdoomed.loose j (by simp [hj]),
            fun j hj k hk => hdoomed.distinct j (by simp [hj]) k (by simp [hk])⟩
          hrest

theorem Within.dropDir (h : Within home role₀ m₀ d role m) :
    Apart home role₀ m₀ d (Owned.dropped role d) m := by
  refine ⟨h.owned.dropDir h.dir, fun f hf => ?_⟩
  have hkept := h.kept f hf
  rw [Owned.dropped, if_neg]
  · exact hkept
  · rintro (rfl | hof)
    · exact hf (.inr (.inl rfl))
    · rw [hkept.1] at hof
      exact hf (.inr (.inr hof))

theorem Within.doomed (h : Within home role₀ m₀ d role m) :
    Doomed role₀ (Owned.dropped role d) m d (List.finRange 1024) := by
  refine ⟨fun i _ hpresent => ?_, fun i _ j _ hi hj heq => ?_⟩
  · have htable := h.owned.table d i h.dir hpresent
    have hof : (role (m.page d i).addr).of = some d := by
      rw [htable]
      rfl
    refine ⟨if_pos (.inr hof), ?_, h.belongs (.inr (.inr hof))⟩
    intro heq
    rw [heq, h.dir] at htable
    cases htable
  · have hrole := h.owned.table d i h.dir hi
    rw [heq, h.owned.table d j h.dir hj, Role.table.injEq] at hrole
    exact hrole.2.symm

theorem Space.freevm {result : Unit} (h : Space home role₀ m₀ d map held m)
    (hprivate : ∀ page, Private home d page)
    (hop : KernelThreads.freevm (some d) m = .ok (result, next)) :
    ∃ after, Apart home role₀ m₀ d after next := by
  obtain ⟨_, _, hdealloc, hrest⟩ := bind_ok hop
  obtain ⟨_, emptied, htables, hkfree⟩ := bind_ok hrest
  obtain ⟨_, role, hwithin, _⟩ :=
    h.deallocuvm le_rfl (fun page _ _ => hprivate page) hdealloc
  obtain ⟨after, hafter, hd⟩ := hwithin.dropDir.freeTables
    (List.nodup_finRange 1024) (if_pos (.inl rfl)) hwithin.doomed htables
  exact ⟨_, (hafter.kfree hd (.inr (.inl rfl)) hkfree).1⟩

/-- A range that ends where addresses end, and that users cannot reach. -/
structure Kmap.High (k : Kmap) : Prop where
  low : KERNBASE ≤ k.virt
  aligned : k.virt % PGSIZE = 0
  pos : 0 < sub32 k.physEnd k.physStart
  fits : k.virt + sub32 k.physEnd k.physStart ≤ 2 ^ 32
  perm : (k.perm ||| PTE_P) &&& PTE_U = 0

theorem Kmap.high_of_phys {start stop : Nat} {perm : PteFlags}
    (haligned : start % PGSIZE = 0) (hlt : start < stop) (hstop : stop ≤ PHYSTOP)
    (hperm : (perm ||| PTE_P) &&& PTE_U = 0) :
    Kmap.High ⟨KERNBASE + start, start, stop, perm⟩ := by
  have hsize : sub32 stop start = stop - start :=
    Space.sub32_of_le (le_of_lt hlt) (lt_of_le_of_lt hstop (by decide))
  refine ⟨Nat.le_add_right .., ?_, ?_, ?_, hperm⟩
  · rw [Nat.add_mod, haligned]
    decide
  · show 0 < sub32 stop start
    omega
  · show KERNBASE + start + sub32 stop start ≤ 2 ^ 32
    simp only [hsize, PHYSTOP, KERNBASE] at *
    omega

theorem kmap_high (image : Image) : ∀ k ∈ kmap image, k.High := by
  have htext := image.text
  have hfits := image.fits
  have hdata : image.data.toNat * PGSIZE % PGSIZE = 0 := Nat.mul_mod_left ..
  intro k hk
  simp only [kmap, List.mem_cons, List.not_mem_nil, or_false] at hk
  rcases hk with rfl | rfl | rfl | rfl
  · constructor <;> decide
  · refine Kmap.high_of_phys rfl ?_ ?_ (by decide)
    · simp only [EXTMEM, PGSIZE] at *
      omega
    · simp only [PHYSTOP, PGSIZE] at *
      omega
  · refine Kmap.high_of_phys hdata ?_ le_rfl (by decide)
    simp only [PHYSTOP, PGSIZE] at *
    omega
  · constructor <;> decide

theorem Space.mapPages {more : Nat} {a : Nat} {frame : Frame} {perm : PteFlags}
    {done : Bool} (h : Space home role₀ m₀ d map held m) (hva : KERNBASE ≤ a)
    (haligned : a % PGSIZE = 0) (hlt : a + more * PGSIZE < 2 ^ 32)
    (hperm : (perm ||| PTE_P) &&& PTE_U = 0)
    (hop : KernelThreads.mapPages d perm more a frame m = .ok (done, next)) :
    ∃ after, Space home role₀ m₀ d after held next ∧
      Space.Maps map after done a (a + more * PGSIZE + PGSIZE) := by
  induction more generalizing a frame map m with
  | zero =>
      rw [Nat.zero_mul, Nat.add_zero] at hlt ⊢
      exact h.mapPageKernel hva hlt haligned hperm hop
  | succ more ih =>
      rw [Nat.succ_mul] at hlt ⊢
      obtain ⟨mapped, _, hmap, hrest⟩ := bind_ok hop
      obtain ⟨after, hafter, hfirst⟩ := h.mapPageKernel hva (by omega) haligned hperm hmap
      cases mapped with
      | false =>
          cases hrest
          exact ⟨after, hafter, hfirst.kept, nofun⟩
      | true =>
          obtain ⟨last, hlast, hmaps⟩ := ih hafter (by omega)
            (by rw [Nat.add_mod_right]; exact haligned) (by omega) hrest
          refine ⟨last, hlast, fun page hpage => hmaps.kept page (hfirst.kept page hpage),
            fun hdone va hlow hhigh => ?_⟩
          by_cases hva : va < a + PGSIZE
          · exact hmaps.kept _ (hfirst.made rfl va hlow hva)
          · exact hmaps.made hdone va (not_lt.mp hva) (by omega)

theorem Space.mapRange {k : Kmap} {frame : Frame} {done : Bool} (hk : k.High)
    (h : Space home role₀ m₀ d map held m)
    (hop : mappages d k.virt (sub32 k.physEnd k.physStart) frame k.perm m =
      .ok (done, next)) :
    ∃ after, Space home role₀ m₀ d after held next ∧
      Space.Maps map after done k.virt (k.virt + sub32 k.physEnd k.physStart) := by
  obtain ⟨hlow, haligned, hpos, hfits, hperm⟩ := hk
  generalize sub32 k.physEnd k.physStart = size at *
  have hdown : pgRoundDown k.virt = k.virt :=
    div_mul_of_aligned haligned
  -- The last page starts within the range.
  have hend : sub32 (k.virt + size) 1 = k.virt + size - 1 := by
    simp only [sub32]
    omega
  have hlast : pgRoundDown (k.virt + size - 1) ≤ k.virt + size - 1 :=
    Nat.div_mul_le_self ..
  have hfirst : k.virt ≤ pgRoundDown (k.virt + size - 1) := by
    conv_lhs => rw [← hdown]
    exact Nat.mul_le_mul_right _ (Nat.div_le_div_right (by omega))
  rw [mappages, hdown, hend, Space.sub32_of_le hfirst (by omega)] at hop
  have hmore := Nat.div_mul_le_self (pgRoundDown (k.virt + size - 1) - k.virt) PGSIZE
  obtain ⟨after, hafter, hmaps⟩ := h.mapPages hlow haligned (by omega) hperm hop
  refine ⟨after, hafter, hmaps.kept, fun hdone va hlow hhigh =>
    hmaps.made hdone va hlow (hhigh.trans_le ?_)⟩
  simp only [pgRoundDown, PGSIZE] at *
  omega

theorem Space.mapKernelRanges {ks : List Kmap} {result : Option Frame}
    (hks : ∀ k ∈ ks, k.High) (h : Space home role₀ m₀ d map none m)
    (hprivate : ∀ page, Private home d page)
    (hop : KernelThreads.mapKernel d ks m = .ok (result, next)) :
    (result = none ∧ ∃ role, Apart home role₀ m₀ d role next) ∨
      ∃ after, result = some d ∧ Space home role₀ m₀ d after none next ∧
        (∀ page, (map page).has PTE_P = true → (after page).has PTE_P = true) ∧
          ∀ k ∈ ks, Space.Maps map after true k.virt (k.virt + sub32 k.physEnd k.physStart) := by
  induction ks generalizing map m with
  | nil =>
      cases hop
      exact .inr ⟨map, rfl, h, fun _ hpage => hpage, nofun⟩
  | cons k rest ih =>
      obtain ⟨mapped, _, hmap, hrest⟩ := bind_ok hop
      obtain ⟨after, hafter, hfirst⟩ := h.mapRange (hks k (by simp)) hmap
      cases mapped with
      | false =>
          obtain ⟨_, _, hfree, hrest⟩ := bind_ok hrest
          cases hrest
          exact .inl ⟨rfl, hafter.freevm hprivate hfree⟩
      | true =>
          rcases ih (fun k hk => hks k (by simp [hk])) hafter hrest with
            hnone | ⟨last, hsome, hlast, hkept, hmaps⟩
          · exact .inl hnone
          · have hboth := fun page hpage => hkept page (hfirst.kept page hpage)
            refine .inr ⟨last, hsome, hlast, hboth, fun other hother => ?_⟩
            rcases List.mem_cons.mp hother with rfl | hother
            · exact ⟨hboth, fun _ va hlow hhigh => hkept _ (hfirst.made rfl va hlow hhigh)⟩
            · exact ⟨hboth, (hmaps other hother).made⟩

def FreeOnly (home : Frame → Nat → Nat) (role₀ : Frame → Role) (m₀ next : Mem) :
    Prop :=
  ∃ role, Owned home role next ∧ ∀ f, role₀ f ≠ .free →
    role f = role₀ f ∧ next.page f = m₀.page f

theorem Owned.belongs_free (h : Owned home role₀ m₀) (hd : role₀ d = .free)
    {f : Frame} (hf : Belongs d f (role₀ f)) : role₀ f = .free := by
  rcases hf with hf | rfl | hf
  · exact hf
  · exact hd
  · have hdir := h.live f d hf
    rw [hd] at hdir
    cases hdir

theorem Apart.freeOnly (h : Apart home role₀ m₀ d role m)
    (hbefore : Owned home role₀ m₀) (hd : role₀ d = .free) :
    FreeOnly home role₀ m₀ m :=
  ⟨role, h.owned, fun f hf =>
    h.kept f fun hmine => hf (hbefore.belongs_free hd hmine)⟩

theorem Owned.emptyDir {rest : List Frame} (h : Owned home role₀ m₀)
    (hlist : m₀.freelist = d :: rest) :
    Space home role₀ m₀ d (fun _ => 0) none
      (Mem.setPage { m₀ with freelist := rest } d fun _ => 0) := by
  have hd : role₀ d = .free := (h.free d).mp (by simp [hlist])
  have htaken := h.kalloc hlist
  have hloose : Function.update role₀ d .loose d = .loose :=
    Function.update_self ..
  have hclear := htaken.setPage (htaken.unref_loose hloose).toPlain fun _ => 0
  have hzero : (Mem.setPage { m₀ with freelist := rest } d fun _ => 0).page d =
      fun _ => 0 := Mem.setPage_same ..
  have hdir := hclear.newDir hloose hzero
  rw [Function.update_idem] at hdir
  refine ⟨_, ⟨⟨hdir, fun f hf => ?_⟩, Function.update_self ..⟩, ?_, nofun⟩
  · have hne : f ≠ d := fun heq => hf (.inr (.inl heq))
    rw [Function.update_of_ne hne, Mem.setPage_other _ _ hne]
    exact ⟨rfl, rfl⟩
  · intro va _
    simp [Mem.pte]

theorem Owned.setupkvm {result : Option Frame} (h : Owned home role₀ m₀)
    (hfresh : ∀ d, role₀ d = .free → ∀ page, Private home d page)
    (hop : KernelThreads.setupkvm m₀ = .ok (result, next)) :
    (result = none ∧ FreeOnly home role₀ m₀ next) ∨
      ∃ d map, result = some d ∧ role₀ d = .free ∧
        Space home role₀ m₀ d map none next ∧
          ∀ va, DEVSPACE ≤ va → va < 2 ^ 32 → (map (va / PGSIZE)).has PTE_P = true := by
  obtain ⟨found, _, hkalloc, hrest⟩ := bind_ok hop
  rcases kalloc_ok hkalloc with ⟨rfl, rfl⟩ | ⟨d, rest, hlist, rfl, rfl⟩
  · cases hrest
    exact .inl ⟨rfl, role₀, h, fun _ _ => ⟨rfl, rfl⟩⟩
  · obtain ⟨_, _, hmemset, hrest⟩ := bind_ok hrest
    cases hmemset
    obtain ⟨_, _, hget, hrest⟩ := bind_ok hrest
    cases hget
    have hd : role₀ d = .free := (h.free d).mp (by simp [hlist])
    rcases (h.emptyDir hlist).mapKernelRanges (kmap_high _) (hfresh d hd) hrest with
      ⟨rfl, role, hapart⟩ | ⟨after, rfl, hafter, _, hmaps⟩
    · exact .inl ⟨rfl, hapart.freeOnly h hd⟩
    · have hdevice : ⟨DEVSPACE, DEVSPACE, 0, PTE_W⟩ ∈ kmap m₀.image := by simp [kmap]
      exact .inr ⟨d, after, rfl, hd, hafter, (hmaps _ hdevice).made rfl⟩

end

end KernelThreads
