import KernelThreads.Lib.Exclusive
import KernelThreads.Lib.Meets
import KernelThreads.Mem.Grow

namespace KernelThreads

open Lib Program

/-! One address space and the free list.  Every page of a fixed pool is free or
at one place of the address space, and the pages of users hold known contents. -/

inductive Place where
  | dir
  | table (i : Index)
  | user (page : Nat)
  /-- Allocated, and not mapped yet. -/
  | held
  deriving DecidableEq

def Word.target (w : Word) : Option Frame := if w.has PTE_P then some w.addr else none

/-- Who has which page, from the words of the directory and the entries. -/
def placed (d : Frame) (pde : Index → Word) (map : Nat → Word)
    (held : Option Frame) : Place → Option Frame
  | .dir => some d
  | .table i => (pde i).target
  | .user page => if page * PGSIZE < KERNBASE then (map page).target else none
  | .held => held

abbrev Content := Index → Word

/-- The places of the directory `d`, with the page that is held. -/
abbrev Mem.places (m : Mem) (d : Frame) (map : Nat → Word)
    (held : Option (Frame × Content)) : Place → Option Frame :=
  placed d (m.page d) map (held.map Prod.fst)

/-- The address space of the directory `d`: `map` has its entries, `data` what
the pages of users hold, and `held` is a page on its way in or out.  Pages
outside the pool are as in `m₀`. -/
structure Vm (pool : Frame → Prop) (m₀ : Mem) (d : Frame) (map : Nat → Word)
    (data : Nat → Content) (held : Option (Frame × Content)) (m : Mem) : Prop where
  /-- `kfree` takes back the pages of the pool. -/
  pooled : ∀ f, pool f → m₀.image.allocates f
  nodup : m.freelist.Nodup
  owned : Exclusive (fun f => decide (f ∉ m.freelist)) (fun f => ¬ pool f)
    (m.places d map held)
  image : m.image = m₀.image
  kept : ∀ f, ¬ pool f → m.page f = m₀.page f
  view : ∀ va < 2 ^ 32, m.pte d va = map (va / PGSIZE)
  contents : ∀ page, page * PGSIZE < KERNBASE → (map page).has PTE_P = true →
    m.page (map page).addr = data page
  holding : ∀ p, held = some p → m.page p.1 = p.2

structure Released (pool : Frame → Prop) (m₀ m : Mem) : Prop where
  nodup : m.freelist.Nodup
  free : ∀ f, f ∈ m.freelist ↔ pool f
  image : m.image = m₀.image
  kept : ∀ f, ¬ pool f → m.page f = m₀.page f

theorem Word.target_present {w : Word} (h : w.has PTE_P = true) :
    w.target = some w.addr := if_pos h

theorem Word.target_absent {w : Word} (h : w.has PTE_P = false) :
    w.target = none := if_neg (by simp [h])

theorem Word.target_eq_some {w : Word} {f : Frame} :
    w.target = some f ↔ w.has PTE_P = true ∧ w.addr = f := by
  unfold Word.target
  split
  next h => simp [h]
  next h => simp [h]

@[simp] theorem Word.has_pte (f : Frame) (flags flag : PteFlags) :
    (Word.pte f flags).has flag = decide (flags &&& flag ≠ 0) := by
  simp [Word.has]

theorem used_pop {freelist rest : List Frame} {f : Frame} (hlist : freelist = f :: rest)
    (hnodup : freelist.Nodup) :
    (fun g => decide (g ∉ rest)) =
      Function.update (fun g => decide (g ∉ freelist)) f true := by
  rw [hlist, List.nodup_cons] at hnodup
  funext g
  by_cases hg : g = f
  · rw [hg, Function.update_self]
    exact decide_eq_true hnodup.1
  · rw [Function.update_of_ne hg, hlist]
    simp [hg]

theorem used_push (freelist : List Frame) (f : Frame) :
    (fun g => decide (g ∉ f :: freelist)) =
      Function.update (fun g => decide (g ∉ freelist)) f false := by
  funext g
  by_cases hg : g = f
  · simp [hg]
  · rw [Function.update_of_ne hg]
    simp [hg]

section Placed

variable {d f : Frame} {pde : Index → Word} {map : Nat → Word} {held : Option Frame}
  {i : Index} {page : Nat} {w : Word}

theorem placed_held (f : Option Frame) :
    placed d pde map f = Function.update (placed d pde map held) .held f := by
  funext p
  cases p with
  | held => simp [placed]
  | _ => rfl

theorem placed_table :
    placed d (Function.update pde i w) map held =
      Function.update (placed d pde map held) (.table i) w.target := by
  funext p
  cases p with
  | table j =>
      by_cases hj : j = i
      · subst hj
        simp [placed]
      · rw [Function.update_of_ne (by simp [hj])]
        simp only [placed, Function.update_of_ne hj]
  | _ => rfl

theorem placed_user (hpage : page * PGSIZE < KERNBASE) :
    placed d pde (Function.update map page w) held =
      Function.update (placed d pde map held) (.user page) w.target := by
  funext p
  cases p with
  | user other =>
      by_cases hother : other = page
      · subst hother
        simp [placed, hpage]
      · rw [Function.update_of_ne (by simp [hother])]
        simp only [placed, Function.update_of_ne hother]
  | _ => rfl

theorem placed_kernel (hpage : KERNBASE ≤ page * PGSIZE) :
    placed d pde (Function.update map page w) held = placed d pde map held := by
  funext p
  cases p with
  | user other =>
      simp only [placed]
      split
      next hother =>
        rw [Function.update_of_ne]
        rintro rfl
        omega
      next => rfl
  | _ => rfl

end Placed

namespace Vm

variable {pool : Frame → Prop} {m₀ m next : Mem} {d f t : Frame} {map : Nat → Word}
  {data : Nat → Content} {held : Option (Frame × Content)} {va page : Nat} {j : Index}

theorem pool_placed (h : Vm pool m₀ d map data held m) {p : Place}
    (hp : m.places d map held p = some f) : pool f :=
  not_not.mp (h.owned.unreserved p f hp)

theorem placed_dir : m.places d map held .dir = some d := rfl

theorem pool_dir (h : Vm pool m₀ d map data held m) : pool d :=
  h.pool_placed (p := .dir) rfl

theorem free_placed (h : Vm pool m₀ d map data held m) (hf : f ∈ m.freelist) (p : Place) :
    m.places d map held p ≠ some f :=
  (h.owned.free (by simpa using hf)).2 p

theorem pool_free (h : Vm pool m₀ d map data held m) (hf : f ∈ m.freelist) : pool f :=
  not_not.mp (h.owned.free (by simpa using hf)).1

theorem ne_of_placed (h : Vm pool m₀ d map data held m) {p q : Place} {g : Frame}
    (hp : m.places d map held p = some f)
    (hq : m.places d map held q = some g) (hne : p ≠ q) :
    f ≠ g := by
  rintro rfl
  exact hne (h.owned.unique p q f hp hq)

theorem ne_dir (h : Vm pool m₀ d map data held m) {p : Place}
    (hp : m.places d map held p = some f) (hne : p ≠ .dir) : f ≠ d :=
  h.ne_of_placed hp placed_dir hne

theorem free_iff (h : Vm pool m₀ d map data held m) :
    f ∈ m.freelist ↔ pool f ∧
      ∀ p, m.places d map held p ≠ some f := by
  constructor
  · intro hf
    exact ⟨h.pool_free hf, h.free_placed hf⟩
  · rintro ⟨hpool, hnone⟩
    by_contra hf
    rcases (h.owned.marked f).mp (by simpa using hf) with hout | ⟨p, hp⟩
    · exact hout hpool
    · exact hnone p hp

theorem user_placed (m : Mem) (d : Frame) (held : Option (Frame × Content))
    (hpage : page * PGSIZE < KERNBASE) (hpresent : (map page).has PTE_P = true) :
    m.places d map held (.user page) = some (map page).addr := by
  simp only [placed, if_pos hpage, Word.target_present hpresent]

theorem table_placed (map : Nat → Word) (held : Option (Frame × Content)) {i : Index}
    (hpresent : (m.page d i).has PTE_P = true) :
    m.places d map held (.table i) = some (m.page d i).addr :=
  Word.target_present hpresent

theorem located_placed (map : Nat → Word) (held : Option (Frame × Content))
    (hloc : Located m d va t j) : m.places d map held (.table (pdx va)) = some t := by
  rw [table_placed map held hloc.present, hloc.addr]

theorem held_placed (m : Mem) (d : Frame) (map : Nat → Word) {q : Frame × Content}
    (h : held = some q) :
    m.places d map held .held = some q.1 := by
  rw [h]
  rfl

theorem entry (h : Vm pool m₀ d map data held m) (hloc : Located m d va t j)
    (hva : va < 2 ^ 32) : m.page t j = map (va / PGSIZE) := by
  rw [← hloc.pte, h.view va hva]

theorem view_setPage (h : Vm pool m₀ d map data held m) {p : Place}
    (hp : m.places d map held p = some f)
    (hdir : p ≠ .dir) (htable : ∀ i, p ≠ .table i) (content : Content) (va : Nat) :
    (m.setPage f content).pte d va = m.pte d va := by
  refine Mem.pte_of_pages (m.setPage_other _ ?_) (fun i hpresent => m.setPage_other _ ?_) va
  · exact (h.ne_dir hp hdir).symm
  · exact (h.ne_of_placed hp (table_placed map held hpresent) (htable i)).symm

theorem dir_setPage (h : Vm pool m₀ d map data held m) {p : Place}
    (hp : m.places d map held p = some f)
    (hdir : p ≠ .dir) (content : Content) : (m.setPage f content).page d = m.page d :=
  m.setPage_other _ (h.ne_dir hp hdir).symm

theorem kalloc {rest : List Frame} (h : Vm pool m₀ d map data none m)
    (hlist : m.freelist = f :: rest) :
    Vm pool m₀ d map data (some (f, m.page f)) { m with freelist := rest } where
  pooled := h.pooled
  nodup := by
    have hnodup := h.nodup
    rw [hlist, List.nodup_cons] at hnodup
    exact hnodup.2
  owned := by
    have hfree : decide (f ∉ m.freelist) = false := by simp [hlist]
    have hnone : m.places d map none .held = none := rfl
    have hattached := h.owned.attach hfree hnone
    rw [← used_pop hlist h.nodup, ← placed_held] at hattached
    exact hattached
  image := h.image
  kept := h.kept
  view := h.view
  contents := h.contents
  holding := by
    rintro p ⟨⟩
    rfl

theorem newTable {rest : List Frame} {i : Index} {flags : PteFlags}
    (h : Vm pool m₀ d map data held m) (hlist : m.freelist = t :: rest)
    (habsent : (m.page d i).has PTE_P = false) (hflags : flags &&& PTE_P ≠ 0) :
    Vm pool m₀ d map data held
      ((Mem.setPage { m with freelist := rest } t fun _ => 0).setWord d i
        (.pte t flags)) := by
  have hfree : t ∈ m.freelist := by simp [hlist]
  have hout := h.free_placed hfree
  have htd : t ≠ d := fun heq => hout .dir (congrArg some heq.symm)
  generalize hnext : (Mem.setPage { m with freelist := rest } t fun _ => 0).setWord d i
    (.pte t flags) = next
  have hother : ∀ g, g ≠ t → g ≠ d → next.page g = m.page g := by
    intro g hgt hgd
    rw [← hnext, Mem.setWord_other _ _ _ hgd, Mem.setPage_other _ _ hgt]
  have hzero : next.page t = fun _ => 0 := by
    rw [← hnext, Mem.setWord_other _ _ _ htd, Mem.setPage_same]
  have hdir : next.page d = Function.update (m.page d) i (.pte t flags) := by
    funext k
    rw [← hnext, Mem.setWord_apply, Mem.setPage_other _ _ htd.symm, Function.update_apply]
  have hplaced : ∀ {p g}, m.places d map held p = some g →
      g ≠ t := by
    rintro p g hp rfl
    exact hout p hp
  constructor
  case pooled => exact h.pooled
  case nodup =>
    have hnodup := h.nodup
    rw [hlist, List.nodup_cons] at hnodup
    rw [← hnext]
    exact hnodup.2
  case owned =>
    have hunused : decide (t ∉ m.freelist) = false := by simp [hlist]
    have hnone : m.places d map held (.table i) = none := Word.target_absent habsent
    have hattached := h.owned.attach hunused hnone
    rw [← used_pop hlist h.nodup] at hattached
    have htarget : (Word.pte t flags).target = some t := by
      rw [Word.target_present (by simpa using hflags), Word.addr_pte]
    rw [← htarget, ← placed_table, ← hdir] at hattached
    rw [← hnext] at hattached ⊢
    exact hattached
  case image =>
    rw [← hnext]
    exact h.image
  case kept =>
    intro g hg
    rw [hother, h.kept g hg]
    · rintro rfl
      exact hg (h.pool_free hfree)
    · rintro rfl
      exact hg h.pool_dir
  case view =>
    intro va hva
    rw [← h.view va hva]
    simp only [Mem.pte, hdir, Function.update_apply]
    by_cases hi : pdx va = i
    · rw [if_pos hi, hi, habsent, Word.addr_pte, hzero]
      simp
    · rw [if_neg hi]
      split
      next hpresent =>
        have htable := table_placed map held hpresent
        rw [hother _ (hplaced htable) (h.ne_dir htable (by simp))]
      next => rfl
  case contents =>
    intro page hpage hpresent
    have huser := user_placed m d held hpage hpresent
    rw [hother _ (hplaced huser) (h.ne_dir huser (by simp))]
    exact h.contents page hpage hpresent
  case holding =>
    intro p hp
    have hheld := held_placed m d map hp
    rw [hother _ (hplaced hheld) (h.ne_dir hheld (by simp))]
    exact h.holding p hp

theorem setHeld {c : Content} (h : Vm pool m₀ d map data (some (f, c)) m)
    (content : Content) :
    Vm pool m₀ d map data (some (f, content)) (m.setPage f content) := by
  have hheld : m.places d map (some (f, c)) .held = some f := rfl
  constructor
  case pooled => exact h.pooled
  case nodup => exact h.nodup
  case owned =>
    unfold Mem.places
    rw [h.dir_setPage hheld nofun]
    exact h.owned
  case image => exact h.image
  case kept =>
    intro g hg
    rw [m.setPage_other _ (by rintro rfl; exact hg (h.pool_placed hheld))]
    exact h.kept g hg
  case view =>
    intro va hva
    rw [h.view_setPage hheld nofun nofun]
    exact h.view va hva
  case contents =>
    intro page hpage hpresent
    have huser := user_placed m d (some (f, c)) hpage hpresent
    rw [m.setPage_other _ (h.ne_of_placed huser hheld nofun)]
    exact h.contents page hpage hpresent
  case holding =>
    rintro p ⟨⟩
    exact m.setPage_same f content

theorem kfreeHeld {c : Content} (h : Vm pool m₀ d map data (some (f, c)) m)
    (content : Content) :
    Vm pool m₀ d map data none
      { m.setPage f content with freelist := f :: m.freelist } := by
  have hheld : m.places d map (some (f, c)) .held = some f := rfl
  have hset := h.setHeld content
  have hstill : (m.setPage f content).places d map (some (f, content)) .held = some f := rfl
  constructor
  case pooled => exact h.pooled
  case nodup =>
    rw [List.nodup_cons]
    exact ⟨fun hf => h.free_placed hf .held hheld, h.nodup⟩
  case owned =>
    have hdetached := hset.owned.detach hstill
    rw [← used_push, ← placed_held] at hdetached
    exact hdetached
  case image => exact h.image
  case kept => exact hset.kept
  case view => exact hset.view
  case contents => exact hset.contents
  case holding => nofun

theorem view_setWord (h : Vm pool m₀ d map data held m) (hloc : Located m d va t j)
    (hva : va < 2 ^ 32) (w : Word) :
    ∀ other < 2 ^ 32, (m.setWord t j w).pte d other =
      Function.update map (va / PGSIZE) w (other / PGSIZE) := by
  intro other hother
  have htable := located_placed map held hloc
  have htd := h.ne_dir htable nofun
  rw [Function.update_apply, ← h.view other hother]
  simp only [Mem.pte, m.setWord_other _ _ htd.symm]
  by_cases hi : pdx other = pdx va
  · rw [hi, if_pos hloc.present, if_pos hloc.present, hloc.addr, m.setWord_apply, hloc.index]
    refine if_congr ?_ rfl rfl
    constructor
    · intro hptx
      exact page_eq hother hva hi hptx
    · intro hsame
      exact (pdx_eq hsame).2
  · rw [if_neg (fun hsame => hi (pdx_eq hsame).1)]
    split
    next hpresent =>
      have hdiffer := h.ne_of_placed (table_placed map held hpresent) htable
        (by simpa using hi)
      rw [m.setWord_other _ _ hdiffer]
    next => rfl

/-- An entry is written.  What the page tables then refer to has to be at one
place, and to hold what `data'` says. -/
theorem setEntry {held' : Option (Frame × Content)} {data' : Nat → Content} {w : Word}
    (h : Vm pool m₀ d map data held m) (hloc : Located m d va t j) (hva : va < 2 ^ 32)
    (howned : Exclusive (fun f => decide (f ∉ m.freelist)) (fun f => ¬ pool f)
      (m.places d (Function.update map (va / PGSIZE) w) held'))
    (hcontents : ∀ page, page * PGSIZE < KERNBASE →
      (Function.update map (va / PGSIZE) w page).has PTE_P = true →
        m.page (Function.update map (va / PGSIZE) w page).addr = data' page)
    (hholding : ∀ p, held' = some p → m.page p.1 = p.2) :
    Vm pool m₀ d (Function.update map (va / PGSIZE) w) data' held' (m.setWord t j w) := by
  have htable := located_placed map held hloc
  have htd := h.ne_dir htable nofun
  have hother : ∀ {p g}, m.places d (Function.update map (va / PGSIZE) w) held' p = some g → p ≠ .table (pdx va) →
        (m.setWord t j w).page g = m.page g := by
    rintro p g hp hne
    refine m.setWord_other _ _ ?_
    rintro rfl
    exact hne (howned.unique _ _ _ hp (located_placed _ held' hloc))
  constructor
  case pooled => exact h.pooled
  case nodup => exact h.nodup
  case owned =>
    unfold Mem.places
    rw [m.setWord_other _ _ htd.symm]
    exact howned
  case image => exact h.image
  case kept =>
    intro g hg
    rw [m.setWord_other _ _ (by rintro rfl; exact hg (h.pool_placed htable))]
    exact h.kept g hg
  case view => exact h.view_setWord hloc hva w
  case contents =>
    intro page hpage hpresent
    rw [hother (user_placed m d held' hpage hpresent) nofun]
    exact hcontents page hpage hpresent
  case holding =>
    intro p hp
    rw [hother (held_placed m d _ hp) nofun]
    exact hholding p hp

theorem user_page (hva : va < KERNBASE) : va / PGSIZE * PGSIZE < KERNBASE :=
  lt_of_le_of_lt (Nat.div_mul_le_self ..) hva

theorem lt_two_pow (hva : va < KERNBASE) : va < 2 ^ 32 := lt_trans hva (by decide)

theorem mapUser {c : Content} {flags : PteFlags}
    (h : Vm pool m₀ d map data (some (f, c)) m) (hloc : Located m d va t j)
    (hva : va < KERNBASE) (habsent : (map (va / PGSIZE)).has PTE_P = false)
    (hflags : flags &&& PTE_P ≠ 0) :
    Vm pool m₀ d (Function.update map (va / PGSIZE) (.pte f flags))
      (Function.update data (va / PGSIZE) c) none (m.setWord t j (.pte f flags)) := by
  have huser := user_page hva
  refine h.setEntry hloc (lt_two_pow hva) ?_ ?_ nofun
  · -- The page moves from one place to the other.
    have hheld : m.places d map (some (f, c)) .held = some f := rfl
    have hunused : Function.update (fun g => decide (g ∉ m.freelist)) f false f = false :=
      Function.update_self ..
    have hnone : Function.update (m.places d map (some (f, c))) .held none
        (.user (va / PGSIZE)) = none := by
      rw [Function.update_of_ne (by simp)]
      simp only [placed, if_pos huser, Word.target_absent habsent]
    have hmoved := (h.owned.detach hheld).attach hunused hnone
    have hused : Function.update (Function.update (fun g => decide (g ∉ m.freelist)) f false)
        f true = fun g => decide (g ∉ m.freelist) := by
      rw [Function.update_idem]
      refine Function.update_eq_self_iff.mpr ?_
      have hnot : f ∉ m.freelist := fun hf => h.free_placed hf .held hheld
      simp [hnot]
    have htarget : (Word.pte f flags).target = some f := by
      rw [Word.target_present (by simpa using hflags), Word.addr_pte]
    rw [hused, ← placed_held, ← htarget, ← placed_user huser] at hmoved
    exact hmoved
  · intro page hpage hpresent
    by_cases heq : page = va / PGSIZE
    · subst heq
      rw [Function.update_self, Function.update_self, Word.addr_pte]
      exact h.holding _ rfl
    · rw [Function.update_of_ne heq] at hpresent ⊢
      rw [Function.update_of_ne heq]
      exact h.contents page hpage hpresent

theorem mapKernel {w : Word} (h : Vm pool m₀ d map data held m)
    (hloc : Located m d va t j) (hva : KERNBASE ≤ va) (hlt : va < 2 ^ 32) :
    Vm pool m₀ d (Function.update map (va / PGSIZE) w) data held (m.setWord t j w) := by
  have hpage : KERNBASE ≤ va / PGSIZE * PGSIZE := by
    simp only [KERNBASE, PGSIZE] at *
    omega
  refine h.setEntry hloc hlt ?_ (fun page huser => ?_) h.holding
  · unfold Mem.places
    rw [placed_kernel hpage]
    exact h.owned
  · have hne : page ≠ va / PGSIZE := by
      rintro rfl
      omega
    rw [Function.update_of_ne hne]
    exact h.contents page huser

theorem reflag {w : Word} (h : Vm pool m₀ d map data held m) (hloc : Located m d va t j)
    (hva : va < KERNBASE) (hpresent : (map (va / PGSIZE)).has PTE_P = true)
    (hw : w.has PTE_P = true) (haddr : w.addr = (map (va / PGSIZE)).addr) :
    Vm pool m₀ d (Function.update map (va / PGSIZE) w) data held (m.setWord t j w) := by
  have htarget : w.target = (map (va / PGSIZE)).target := by
    rw [Word.target_present hw, Word.target_present hpresent, haddr]
  refine h.setEntry hloc (lt_two_pow hva) ?_ (fun page huser hset => ?_) h.holding
  · unfold Mem.places
    rw [placed_user (user_page hva), htarget]
    have hsame : Function.update (m.places d map held) (.user (va / PGSIZE))
        (map (va / PGSIZE)).target = m.places d map held := by
      refine Function.update_eq_self_iff.mpr ?_
      simp only [placed, if_pos (user_page hva)]
    rw [hsame]
    exact h.owned
  · by_cases heq : page = va / PGSIZE
    · subst heq
      rw [Function.update_self, haddr]
      exact h.contents _ huser hpresent
    · rw [Function.update_of_ne heq] at hset ⊢
      exact h.contents page huser hset

theorem write (h : Vm pool m₀ d map data held m) (hpage : page * PGSIZE < KERNBASE)
    (hpresent : (map page).has PTE_P = true) (content : Content) :
    Vm pool m₀ d map (Function.update data page content) held
      (m.setPage (map page).addr content) := by
  have huser := user_placed m d held hpage hpresent
  constructor
  case pooled => exact h.pooled
  case nodup => exact h.nodup
  case owned =>
    unfold Mem.places
    rw [h.dir_setPage huser nofun]
    exact h.owned
  case image => exact h.image
  case kept =>
    intro g hg
    rw [m.setPage_other _ (by rintro rfl; exact hg (h.pool_placed huser))]
    exact h.kept g hg
  case view =>
    intro va hva
    rw [h.view_setPage huser nofun nofun]
    exact h.view va hva
  case contents =>
    intro other hother hset
    by_cases heq : other = page
    · subst heq
      rw [m.setPage_same, Function.update_self]
    · rw [Function.update_of_ne heq, m.setPage_other]
      · exact h.contents other hother hset
      · exact h.ne_of_placed (user_placed m d held hother hset) huser (by simpa using heq)
  case holding =>
    intro p hp
    rw [m.setPage_other]
    · exact h.holding p hp
    · exact h.ne_of_placed (held_placed m d map hp) huser nofun

theorem unmap (h : Vm pool m₀ d map data held m) (hloc : Located m d va t j)
    (hva : va < KERNBASE) (hpresent : (map (va / PGSIZE)).has PTE_P = true)
    (content : Content) :
    Vm pool m₀ d (Function.update map (va / PGSIZE) 0) data held
      (Mem.setWord { m.setPage (map (va / PGSIZE)).addr content with
        freelist := (map (va / PGSIZE)).addr :: m.freelist } t j 0) := by
  have huser := user_page hva
  have hplaced := user_placed m d held huser hpresent
  generalize hf : (map (va / PGSIZE)).addr = f at hplaced ⊢
  have htable := located_placed map held hloc
  have hft : f ≠ t := h.ne_of_placed hplaced htable nofun
  have hfd : f ≠ d := h.ne_dir hplaced nofun
  have htd := h.ne_dir htable nofun
  have hview := h.view_setWord hloc (lt_two_pow hva) 0
  generalize hnext : Mem.setWord { m.setPage f content with freelist := f :: m.freelist } t j 0 =
    next
  have hother : ∀ g, g ≠ f → g ≠ t → next.page g = m.page g := by
    intro g hgf hgt
    rw [← hnext, Mem.setWord_other _ _ _ hgt]
    exact m.setPage_other _ hgf
  have htables : next.page t = (m.setWord t j 0).page t := by
    funext k
    rw [← hnext, Mem.setWord_apply, Mem.setWord_apply]
    refine ite_congr rfl (fun _ => rfl) fun _ => ?_
    exact congrFun (m.setPage_other content hft.symm) k
  constructor
  case pooled => exact h.pooled
  case nodup =>
    rw [← hnext]
    exact List.nodup_cons.mpr ⟨fun hin => h.free_placed hin _ hplaced, h.nodup⟩
  case owned =>
    have hdetached := h.owned.detach hplaced
    have htarget : Word.target 0 = none := Word.target_absent (by simp)
    rw [← used_push, ← htarget, ← placed_user huser, ← hother d hfd.symm htd.symm] at hdetached
    rw [← hnext] at hdetached ⊢
    exact hdetached
  case image =>
    rw [← hnext]
    exact h.image
  case kept =>
    intro g hg
    rw [hother, h.kept g hg]
    · rintro rfl
      exact hg (h.pool_placed hplaced)
    · rintro rfl
      exact hg (h.pool_placed htable)
  case view =>
    intro other hlt
    rw [← hview other hlt]
    refine Mem.pte_of_pages ?_ (fun i hset => ?_) other
    · rw [hother d hfd.symm htd.symm, m.setWord_other _ _ htd.symm]
    · rw [m.setWord_other _ _ htd.symm] at hset ⊢
      by_cases heq : (m.page d i).addr = t
      · rw [heq]
        exact htables
      · rw [m.setWord_other _ _ heq]
        refine hother _ ?_ heq
        exact (h.ne_of_placed hplaced (table_placed map held hset) nofun).symm
  case contents =>
    intro page hpage hset
    have hne : page ≠ va / PGSIZE := by
      rintro rfl
      simp at hset
    rw [Function.update_of_ne hne] at hset ⊢
    have hat := user_placed m d held hpage hset
    rw [hother _ (h.ne_of_placed hat hplaced (by simpa using hne))
      (h.ne_of_placed hat htable nofun)]
    exact h.contents page hpage hset
  case holding =>
    intro p hp
    have hheld := held_placed m d map hp
    rw [hother _ (h.ne_of_placed hheld hplaced nofun) (h.ne_of_placed hheld htable nofun)]
    exact h.holding p hp

end Vm

end KernelThreads
