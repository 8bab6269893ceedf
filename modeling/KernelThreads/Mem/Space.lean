import KernelThreads.Mem.Owned

namespace KernelThreads

open Lib Program

/-! What the primitives of `vm.c` return. -/

theorem load_bind {α : Type} {f : Frame} {i : Index} {rest : Word → MemProgram α} {m : Mem}
    {result : Except Stop (α × Mem)} (h : (load f i >>= rest) m = result) :
    rest (m.page f i) m = result := h

theorem kalloc_ok {result : Option Frame} {m next : Mem}
    (h : kalloc m = .ok (result, next)) :
    result = none ∧ next = m ∨ ∃ f rest, m.freelist = f :: rest ∧
      result = some f ∧ next = { m with freelist := rest } := by
  obtain ⟨_, _, hget, h⟩ := bind_ok h
  cases hget
  cases hlist : m.freelist with
  | nil =>
      rw [hlist] at h
      cases h
      exact .inl ⟨rfl, rfl⟩
  | cons f rest =>
      rw [hlist] at h
      cases h
      exact .inr ⟨f, rest, rfl, rfl, rfl⟩

theorem kfree_ok {f : Frame} {result : Unit} {m next : Mem}
    (h : kfree f m = .ok (result, next)) : ∃ content,
      next = { m.setPage f content with freelist := f :: m.freelist } := by
  obtain ⟨_, _, hget, h⟩ := bind_ok h
  cases hget
  split at h
  · contradiction
  · cases h
    exact ⟨_, rfl⟩

theorem walkpgdir_ok {d : Frame} {va : Nat} {alloc : Bool}
    {result : Option PteAddr} {m next : Mem}
    (h : walkpgdir d va alloc m = .ok (result, next)) :
    ((m.page d (pdx va)).has PTE_P = true ∧ next = m ∧
      result = some ((m.page d (pdx va)).addr, ptx va)) ∨
    (m.page d (pdx va)).has PTE_P = false ∧ (result = none ∧ next = m ∨
      alloc = true ∧ ∃ t rest, m.freelist = t :: rest ∧
        result = some (t, ptx va) ∧
        next = (Mem.setPage { m with freelist := rest } t fun _ => 0).setWord d
          (pdx va) (.pte t (PTE_P ||| PTE_W ||| PTE_U))) := by
  have h := load_bind h
  split at h
  next hpresent =>
    cases h
    exact .inl ⟨hpresent, rfl, rfl⟩
  next habsent =>
    refine .inr ⟨by simpa using habsent, ?_⟩
    cases alloc with
    | false =>
        cases h
        exact .inl ⟨rfl, rfl⟩
    | true =>
        obtain ⟨found, _, hkalloc, hrest⟩ := bind_ok h
        rcases kalloc_ok hkalloc with ⟨rfl, rfl⟩ | ⟨t, rest, hlist, rfl, rfl⟩
        · cases hrest
          exact .inl ⟨rfl, rfl⟩
        · cases hrest
          exact .inr ⟨rfl, t, rest, hlist, rfl, rfl⟩

/-! One address space as a map from pages to entries, with the rest of memory
as it was. -/

/-- Pages that calls on the directory `d` may write to or give a new role. -/
def Belongs (d f : Frame) (tag : Role) : Prop :=
  tag = .free ∨ f = d ∨ tag.of = some d

/-- Calls on `d` have led to `m` from a memory `m₀` with other roles. -/
structure Apart (home : Frame → Nat → Nat) (role₀ : Frame → Role) (m₀ : Mem)
    (d : Frame) (role : Frame → Role) (m : Mem) : Prop where
  owned : Owned home role m
  kept : ∀ f, ¬ Belongs d f (role₀ f) →
    role f = role₀ f ∧ m.page f = m₀.page f

structure Within (home : Frame → Nat → Nat) (role₀ : Frame → Role) (m₀ : Mem)
    (d : Frame) (role : Frame → Role) (m : Mem) : Prop
    extends Apart home role₀ m₀ d role m where
  dir : role d = .dir

/-- The directory `d` maps pages by `map`; `held` is a page that has been
allocated for it and is not mapped yet. -/
def Space (home : Frame → Nat → Nat) (role₀ : Frame → Role) (m₀ : Mem)
    (d : Frame) (map : Nat → Word) (held : Option Frame) (m : Mem) : Prop :=
  ∃ role, Within home role₀ m₀ d role m ∧
    (∀ va < 2 ^ 32, m.pte d va = map (va / PGSIZE)) ∧
      ∀ f, held = some f → role f = .loose ∧ Belongs d f (role₀ f)

def Private (home : Frame → Nat → Nat) (d : Frame) (page : Nat) : Prop :=
  ∀ other, home d other = page ↔ other = page

section

variable {home : Frame → Nat → Nat} {role₀ role : Frame → Role} {m₀ m next : Mem}
  {d f t : Frame} {map : Nat → Word} {held : Option Frame} {va : Nat} {j : Index}

theorem Within.belongs (h : Within home role₀ m₀ d role m)
    (hf : Belongs d f (role f)) : Belongs d f (role₀ f) := by
  by_contra hnot
  rw [(h.kept f hnot).1] at hf
  exact hnot hf

theorem Within.located (h : Within home role₀ m₀ d role m)
    (hloc : Located m d va t j) : Belongs d t (role₀ t) :=
  h.belongs (.inr (.inr (by rw [h.owned.located_role h.dir hloc]; rfl)))

theorem Apart.retag (h : Apart home role₀ m₀ d role m) {tag : Role}
    (howned : Owned home (Function.update role f tag) next)
    (hf : Belongs d f (role₀ f)) (ht : Belongs d t (role₀ t))
    (hpages : ∀ g, g ≠ f → g ≠ t → next.page g = m.page g) :
    Apart home role₀ m₀ d (Function.update role f tag) next := by
  refine ⟨howned, fun g hg => ?_⟩
  have hgf : g ≠ f := by
    rintro rfl
    exact hg hf
  have hgt : g ≠ t := by
    rintro rfl
    exact hg ht
  rw [Function.update_of_ne hgf, hpages g hgf hgt]
  exact h.kept g hg

theorem Apart.kfree (h : Apart home role₀ m₀ d role m) {result : Unit}
    (hf : role f = .loose) (hmine : Belongs d f (role₀ f))
    (hop : KernelThreads.kfree f m = .ok (result, next)) :
    Apart home role₀ m₀ d (Function.update role f .free) next ∧
      ∀ g, g ≠ f → next.page g = m.page g := by
  obtain ⟨content, rfl⟩ := kfree_ok hop
  have hpages : ∀ g, g ≠ f → (m.setPage f content).page g = m.page g :=
    fun g hg => m.setPage_other _ hg
  exact ⟨h.retag (h.owned.kfree (h.owned.unref_loose hf) (by simp [hf]) content)
    hmine hmine fun g hg _ => hpages g hg, hpages⟩

theorem Within.retag (h : Within home role₀ m₀ d role m) {tag : Role}
    (howned : Owned home (Function.update role f tag) next)
    (hf : Belongs d f (role₀ f)) (hfd : f ≠ d) (ht : Belongs d t (role₀ t))
    (hpages : ∀ g, g ≠ f → g ≠ t → next.page g = m.page g) :
    Within home role₀ m₀ d (Function.update role f tag) next := by
  refine ⟨h.toApart.retag howned hf ht hpages, ?_⟩
  rw [Function.update_of_ne hfd.symm]
  exact h.dir

theorem Within.write (h : Within home role₀ m₀ d role m)
    (howned : Owned home role next) (ht : Belongs d t (role₀ t))
    (hpages : ∀ g, g ≠ t → next.page g = m.page g) :
    Within home role₀ m₀ d role next := by
  refine ⟨⟨howned, fun g hg => ?_⟩, h.dir⟩
  rw [hpages g (by rintro rfl; exact hg ht)]
  exact h.kept g hg

namespace Space

theorem ne_dir (h : Within home role₀ m₀ d role m) {tag : Role}
    (hf : role f = tag) (htag : tag ≠ .dir) : f ≠ d := by
  rintro rfl
  exact htag (hf.symm.trans h.dir)

theorem kalloc {rest : List Frame} (h : Space home role₀ m₀ d map none m)
    (hlist : m.freelist = f :: rest) :
    Space home role₀ m₀ d map (some f) { m with freelist := rest } := by
  obtain ⟨role, hwithin, hview, _⟩ := h
  have hf : role f = .free := (hwithin.owned.free f).mp (by simp [hlist])
  have hmine := hwithin.belongs (.inl hf)
  refine ⟨_, hwithin.retag (hwithin.owned.kalloc hlist) hmine
    (ne_dir hwithin hf nofun) hmine fun _ _ _ => rfl, hview, ?_⟩
  rintro g ⟨⟩
  exact ⟨Function.update_self .., hmine⟩

theorem walk {alloc : Bool} {result : Option PteAddr}
    (h : Space home role₀ m₀ d map held m)
    (hop : walkpgdir d va alloc m = .ok (result, next)) :
    Space home role₀ m₀ d map held next ∧
      (∀ t j, result = some (t, j) → Located next d va t j) ∧
      (result = none → (next.page d (pdx va)).has PTE_P = false) := by
  rcases walkpgdir_ok hop with ⟨hpresent, rfl, rfl⟩ |
    ⟨habsent, ⟨rfl, rfl⟩ | ⟨_, t, rest, hlist, rfl, rfl⟩⟩
  · refine ⟨h, ?_, nofun⟩
    rintro t j ⟨⟩
    exact ⟨hpresent, rfl, rfl⟩
  · exact ⟨h, nofun, fun _ => habsent⟩
  · obtain ⟨role, hwithin, hview, hheld⟩ := h
    have ht : role t = .free := (hwithin.owned.free t).mp (by simp [hlist])
    have htd := ne_dir hwithin ht nofun
    have hmine := hwithin.belongs (.inl ht)
    -- The page is taken, cleared, and entered in the directory.
    have htaken := hwithin.owned.kalloc hlist
    have hloose : Function.update role t .loose t = .loose :=
      Function.update_self ..
    have hdir : Function.update role t .loose d = .dir := by
      rw [Function.update_of_ne htd.symm, hwithin.dir]
    have hplain := (htaken.unref_loose hloose).toPlain
    have hclear := htaken.setPage hplain fun _ => 0
    have hzero : (Mem.setPage { m with freelist := rest } t
        fun _ => 0).page t = fun _ => 0 := Mem.setPage_same ..
    have habsent' : ((Mem.setPage { m with freelist := rest } t
        fun _ => 0).page d (pdx va)).has PTE_P = false := by
      rw [Mem.setPage_other _ _ htd.symm]
      exact habsent
    have howned := hclear.newTable hdir habsent' hloose hzero
      (PTE_P ||| PTE_W ||| PTE_U)
    rw [Function.update_idem] at howned
    refine ⟨⟨_, hwithin.retag howned hmine htd (.inr (.inl rfl)) ?_, ?_, ?_⟩,
      ?_, nofun⟩
    · intro g hgt hgd
      rw [Mem.setWord_other _ _ _ hgd, Mem.setPage_other _ _ hgt]
    · intro other hother
      rw [← hview other hother]
      refine (hclear.pte_newTable hdir habsent' htd hzero _ hdir other).trans ?_
      exact Owned.pte_setPage hplain hdir _ other
    · intro g hg
      obtain ⟨hg, hmine⟩ := hheld g hg
      rw [Function.update_of_ne]
      · exact ⟨hg, hmine⟩
      · rintro rfl
        rw [ht] at hg
        contradiction
    · rintro t' j ⟨⟩
      refine ⟨?_, ?_, rfl⟩
      · rw [Mem.setWord_apply, if_pos rfl]
        simp [Word.has]
        decide
      · rw [Mem.setWord_apply, if_pos rfl, Word.addr_pte]

theorem setHeld (h : Space home role₀ m₀ d map (some f) m)
    (content : Index → Word) :
    Space home role₀ m₀ d map (some f) (m.setPage f content) := by
  obtain ⟨role, hwithin, hview, hheld⟩ := h
  obtain ⟨hf, hmine⟩ := hheld f rfl
  have hplain := (hwithin.owned.unref_loose hf).toPlain
  refine ⟨role, hwithin.write (hwithin.owned.setPage hplain _)
    hmine fun g hg => m.setPage_other _ hg, fun va hva => ?_, hheld⟩
  rw [← hview va hva]
  exact Owned.pte_setPage hplain hwithin.dir _ va

theorem kfreeHeld (h : Space home role₀ m₀ d map (some f) m) {result : Unit}
    (hop : KernelThreads.kfree f m = .ok (result, next)) :
    Space home role₀ m₀ d map none next := by
  obtain ⟨content, rfl⟩ := kfree_ok hop
  obtain ⟨role, hwithin, hview, hheld⟩ := h
  obtain ⟨hf, hmine⟩ := hheld f rfl
  have hunref := hwithin.owned.unref_loose hf
  refine ⟨_, hwithin.retag (hwithin.owned.kfree hunref (by simp [hf]) content)
    hmine (ne_dir hwithin hf nofun) hmine fun g hg _ => m.setPage_other _ hg,
    fun va hva => ?_, nofun⟩
  rw [← hview va hva]
  exact Owned.pte_setPage hunref.toPlain hwithin.dir _ va

theorem entry (h : Space home role₀ m₀ d map held m)
    (hloc : Located m d va t j) (hva : va < 2 ^ 32) :
    m.page t j = map (va / PGSIZE) := by
  obtain ⟨_, _, hview, _⟩ := h
  rw [← hloc.pte, hview va hva]

theorem view_setWord (hwithin : Within home role₀ m₀ d role m)
    (hview : ∀ va < 2 ^ 32, m.pte d va = map (va / PGSIZE))
    (hloc : Located m d va t j) (hva : va < 2 ^ 32) (w : Word) :
    ∀ other < 2 ^ 32, (m.setWord t j w).pte d other =
      Function.update map (va / PGSIZE) w (other / PGSIZE) := by
  intro other hother
  rw [hwithin.owned.pte_setWord hwithin.dir hloc hva w hwithin.dir hother,
    hview other hother, Function.update_apply]
  simp

theorem mapUser (h : Space home role₀ m₀ d map (some f) m)
    (hloc : Located m d va t j) (hva : va < KERNBASE)
    (hprivate : Private home d (va / PGSIZE)) (flags : PteFlags) :
    Space home role₀ m₀ d
      (Function.update map (va / PGSIZE) (.pte f flags)) none
      (m.setWord t j (.pte f flags)) := by
  obtain ⟨role, hwithin, hview, hheld⟩ := h
  obtain ⟨hf, hmine⟩ := hheld f rfl
  have hlt : va < 2 ^ 32 := lt_trans hva (by decide)
  have hfd := ne_dir hwithin hf nofun
  have htagged := hwithin.owned.reassign (hwithin.owned.unref_loose hf)
    (by simp [hf]) (.user d (va / PGSIZE)) nofun nofun (by
      rintro _ ⟨⟩
      exact hwithin.dir)
  have howned := htagged.setEntry (w := .pte f flags)
    (by rw [Function.update_of_ne hfd.symm, hwithin.dir]) hloc hlt
    (fun _ _ => by
      rw [Word.addr_pte, Function.update_self, (hprivate _).mpr rfl])
    (fun hkernel => absurd hva (not_lt_of_ge hkernel))
  exact ⟨_, hwithin.retag howned hmine hfd (hwithin.located hloc)
    fun g _ hg => m.setWord_other _ _ hg,
    view_setWord hwithin hview hloc hlt _, nofun⟩

theorem mapKernel (h : Space home role₀ m₀ d map held m)
    (hloc : Located m d va t j) (hva : KERNBASE ≤ va) (hlt : va < 2 ^ 32)
    {w : Word} (hw : w.has PTE_U = false) :
    Space home role₀ m₀ d (Function.update map (va / PGSIZE) w) held
      (m.setWord t j w) := by
  obtain ⟨role, hwithin, hview, hheld⟩ := h
  have howned := hwithin.owned.setEntry (w := w) hwithin.dir hloc hlt
    (fun huser => absurd huser (not_lt_of_ge hva)) fun _ _ => hw
  exact ⟨role, hwithin.write howned (hwithin.located hloc)
    fun g hg => m.setWord_other _ _ hg,
    view_setWord hwithin hview hloc hlt _, hheld⟩

theorem remap (h : Space home role₀ m₀ d map held m)
    (hloc : Located m d va t j) (hva : va < KERNBASE) {w : Word}
    (hw : w.has PTE_P = true → (map (va / PGSIZE)).has PTE_P = true ∧
      w.addr = (map (va / PGSIZE)).addr) :
    Space home role₀ m₀ d (Function.update map (va / PGSIZE) w) held
      (m.setWord t j w) := by
  obtain ⟨role, hwithin, hview, hheld⟩ := h
  have hlt : va < 2 ^ 32 := lt_trans hva (by decide)
  have howned := hwithin.owned.setEntry (w := w) hwithin.dir hloc hlt
    (fun _ hpresent => by
      obtain ⟨hold, haddr⟩ := hw hpresent
      rw [haddr, ← hview va hlt]
      rw [← hview va hlt] at hold
      exact hwithin.owned.user d va hwithin.dir hva hold)
    (fun hkernel => absurd hva (not_lt_of_ge hkernel))
  exact ⟨role, hwithin.write howned (hwithin.located hloc)
    fun g hg => m.setWord_other _ _ hg,
    view_setWord hwithin hview hloc hlt _, hheld⟩

theorem write (h : Space home role₀ m₀ d map held m) (hva : va < KERNBASE)
    (hpresent : (map (va / PGSIZE)).has PTE_P = true)
    (content : Index → Word) :
    Space home role₀ m₀ d map held
      (m.setPage (map (va / PGSIZE)).addr content) := by
  obtain ⟨role, hwithin, hview, hheld⟩ := h
  have hlt : va < 2 ^ 32 := lt_trans hva (by decide)
  rw [← hview va hlt] at hpresent ⊢
  have hrole := hwithin.owned.user d va hwithin.dir hva hpresent
  have hmine := hwithin.belongs (.inr (.inr (by rw [hrole]; rfl)))
  have hplain := hwithin.owned.plain (f := (m.pte d va).addr) (by simp [hrole])
    (by simp [hrole])
  refine ⟨role, hwithin.write (hwithin.owned.setPage hplain content) hmine
    fun g hg => m.setPage_other _ hg, fun other hother => ?_, hheld⟩
  rw [← hview other hother]
  exact Owned.pte_setPage hplain hwithin.dir _ other

theorem unmap (h : Space home role₀ m₀ d map held m)
    (hloc : Located m d va t j) (hva : va < KERNBASE)
    (hprivate : Private home d (va / PGSIZE))
    (hpresent : (map (va / PGSIZE)).has PTE_P = true) {result : Unit}
    (hop : KernelThreads.kfree (map (va / PGSIZE)).addr m = .ok (result, next)) :
    Space home role₀ m₀ d (Function.update map (va / PGSIZE) 0) held
      (next.setWord t j 0) := by
  obtain ⟨content, rfl⟩ := kfree_ok hop
  have hlt : va < 2 ^ 32 := lt_trans hva (by decide)
  obtain ⟨role, hwithin, hview, hheld⟩ := h
  have ht := hwithin.owned.located_role hwithin.dir hloc
  rw [← hview va hlt] at hpresent ⊢
  have hrole := hwithin.owned.user d va hwithin.dir hva hpresent
  generalize hf : (m.pte d va).addr = f at hrole ⊢
  have hft : f ≠ t := by
    rintro rfl
    rw [hrole] at ht
    contradiction
  have hfd := ne_dir hwithin hrole nofun
  have hmine := hwithin.belongs (.inr (.inr (by rw [hrole]; rfl)))
  -- The entry might as well be cleared before the page is freed.
  have hclear : Owned home role (m.setWord t j 0) :=
    hwithin.owned.setEntry hwithin.dir hloc hlt (by simp) (by simp)
  have hunref : Unref role (m.setWord t j 0) f := by
    refine ⟨hclear.plain (by simp [hrole]) (by simp [hrole]), ?_⟩
    rintro g other hg hother hset rfl
    have hlt' : other < 2 ^ 32 := lt_trans hother (by decide)
    have huser := hclear.user g other hg hother hset
    rw [hrole, Role.user.injEq] at huser
    obtain ⟨rfl, hsame⟩ := huser
    rw [hwithin.owned.pte_setWord hwithin.dir hloc hlt 0 hg hlt'] at hset
    split at hset
    · simp at hset
    next hother' =>
      refine hother' ⟨rfl, (hprivate _).mp (hsame.symm.trans ?_)⟩
      exact (hprivate _).mpr rfl
  have howned := hclear.kfree hunref (by simp [hrole]) content
  have hswap : ({ m.setPage f content with freelist := f :: m.freelist } : Mem).setWord
      t j 0 = { (m.setWord t j 0).setPage f content with
        freelist := f :: (m.setWord t j 0).freelist } := by
    simp only [Mem.setWord, Mem.setPage, Function.update_of_ne hft.symm,
      Function.update_comm hft]
  rw [hswap]
  refine ⟨_, hwithin.retag howned hmine hfd (hwithin.located hloc) ?_, ?_, ?_⟩
  · intro g hgf hgt
    exact (Mem.setPage_other _ _ hgf).trans (m.setWord_other _ _ hgt)
  · intro other hother
    refine (Owned.pte_setPage hunref.toPlain hwithin.dir _ other).trans ?_
    exact view_setWord hwithin hview hloc hlt 0 other hother
  · intro g hg
    obtain ⟨hg, hmine⟩ := hheld g hg
    rw [Function.update_of_ne]
    · exact ⟨hg, hmine⟩
    · rintro rfl
      rw [hrole] at hg
      contradiction

end Space

end

end KernelThreads
