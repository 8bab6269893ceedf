import KernelThreads.Mem.Exact

namespace KernelThreads

open Lib Program

/-! Address spaces come from the free list and go back to it: `freevm` and
`setupkvm`. -/

/-- The places of a directory without users, as far as the loop of `freevm` has
not come yet. -/
def doomed (d : Frame) (pde : Content) (indices : List Index) : Place → Option Frame
  | .dir => some d
  | .table i => if i ∈ indices then (pde i).target else none
  | .user _ | .held => none

/-- A state of the loop of `freevm`; the directory itself is still whole. -/
structure Doom (pool : Frame → Prop) (m₀ : Mem) (d : Frame) (pde : Content)
    (indices : List Index) (m : Mem) : Prop where
  pooled : ∀ f, pool f → m₀.image.allocates f
  nodup : m.freelist.Nodup
  owned : Exclusive (fun f => decide (f ∉ m.freelist)) (fun f => ¬ pool f)
    (doomed d pde indices)
  image : m.image = m₀.image
  kept : ∀ f, ¬ pool f → m.page f = m₀.page f
  dir : m.page d = pde

variable {pool : Frame → Prop} {m₀ m next : Mem} {d f : Frame} {map : Nat → Word}
  {data : Nat → Content} {held : Option (Frame × Content)} {a : Nat} {perm : PteFlags}

namespace Doom

variable {pde : Content} {indices : List Index} {i : Index}

theorem skip (h : Doom pool m₀ d pde (i :: indices) m)
    (habsent : (pde i).has PTE_P = false) : Doom pool m₀ d pde indices m := by
  have hsame : doomed d pde (i :: indices) = doomed d pde indices := by
    funext p
    cases p with
    | table k =>
        by_cases hk : k = i
        · subst hk
          simp [doomed, Word.target_absent habsent]
        · simp [doomed, hk]
    | _ => rfl
  have howned := h.owned
  rw [hsame] at howned
  exact { h with owned := howned }

theorem kfree (h : Doom pool m₀ d pde (i :: indices) m) (hnew : i ∉ indices)
    (hpresent : (pde i).has PTE_P = true) (content : Content) :
    Doom pool m₀ d pde indices
      { m.setPage (pde i).addr content with freelist := (pde i).addr :: m.freelist } := by
  have hplace : doomed d pde (i :: indices) (.table i) = some (pde i).addr := by
    simp [doomed, Word.target_present hpresent]
  have hused := h.owned.used_of_owner hplace
  have hne : (pde i).addr ≠ d := by
    intro heq
    have hsame := h.owned.unique (.table i) .dir d (heq ▸ hplace) rfl
    cases hsame
  have hrest : Function.update (doomed d pde (i :: indices)) (.table i) none =
      doomed d pde indices := by
    funext p
    cases p with
    | table k =>
        by_cases hk : k = i
        · subst hk
          simp [doomed, hnew]
        · rw [Function.update_of_ne (by simp [hk])]
          simp [doomed, hk]
    | _ => rfl
  constructor
  case pooled => exact h.pooled
  case nodup => exact List.nodup_cons.mpr ⟨of_decide_eq_true hused, h.nodup⟩
  case owned =>
    have hdetached := h.owned.detach hplace
    rw [← used_push, hrest] at hdetached
    exact hdetached
  case image => exact h.image
  case kept =>
    intro g hg
    have hpool := not_not.mp (h.owned.unreserved _ _ hplace)
    exact (m.setPage_other _ (by rintro rfl; exact hg hpool)).trans (h.kept g hg)
  case dir => exact (m.setPage_other _ hne.symm).trans h.dir

theorem meets_freeTables (hnodup : indices.Nodup) (h : Doom pool m₀ d pde indices m) :
    Meets (freeTables d indices) (fun _ => False) m fun _ next =>
      Doom pool m₀ d pde [] next := by
  induction indices generalizing m with
  | nil => exact Meets.pure h
  | cons i rest ih =>
      rw [List.nodup_cons] at hnodup
      unfold freeTables
      refine Meets.bind_ok (rfl : load d i m = .ok (m.page d i, m)) ?_
      rw [h.dir]
      split
      next hpresent =>
        have hplace : doomed d pde (i :: rest) (.table i) = some (pde i).addr := by
          simp [doomed, Word.target_present hpresent]
        have hframe := h.pooled _ (not_not.mp (h.owned.unreserved _ _ hplace))
        rw [← h.image] at hframe
        refine Meets.bind_ok (kfree_of_allocates hframe) ?_
        exact ih hnodup.2 (h.kfree hnodup.1 hpresent _)
      next habsent => exact ih hnodup.2 (h.skip (by simpa using habsent))

theorem meets_kfreeDir (h : Doom pool m₀ d pde [] m) :
    Meets (KernelThreads.kfree d) (fun _ => False) m fun _ next =>
      Released pool m₀ next := by
  have hplace : doomed d pde [] .dir = some d := rfl
  have hpool := not_not.mp (h.owned.unreserved _ _ hplace)
  have hframe := h.pooled d hpool
  rw [← h.image] at hframe
  refine Meets.of_ok (kfree_of_allocates hframe) ?_
  have hdetached := h.owned.detach hplace
  rw [← used_push] at hdetached
  constructor
  case nodup =>
    exact List.nodup_cons.mpr ⟨of_decide_eq_true (h.owned.used_of_owner hplace), h.nodup⟩
  case free =>
    intro g
    have hmarked := hdetached.marked g
    have hnone : ¬ ∃ p, Function.update (doomed d pde []) .dir none p = some g := by
      rintro ⟨p, hp⟩
      cases p with
      | table k =>
          rw [Function.update_of_ne (by simp)] at hp
          simp [doomed] at hp
      | _ => simp [doomed] at hp
    rw [or_iff_left hnone, decide_eq_true_eq] at hmarked
    exact not_iff_not.mp hmarked
  case image => exact h.image
  case kept =>
    intro g hg
    exact (m.setPage_other _ (by rintro rfl; exact hg hpool)).trans (h.kept g hg)

end Doom

namespace Vm

theorem doom (h : Vm pool m₀ d map data none m)
    (hempty : ∀ page, page * PGSIZE < KERNBASE → (map page).has PTE_P = false) :
    Doom pool m₀ d (m.page d) (List.finRange 1024) m := by
  have hsame : m.places d map none = doomed d (m.page d) (List.finRange 1024) := by
    funext p
    cases p with
    | user page =>
        simp only [placed, doomed]
        split
        next hpage => exact Word.target_absent (hempty page hpage)
        next => rfl
    | table i => simp [placed, doomed]
    | _ => rfl
  have howned := h.owned
  rw [hsame] at howned
  exact ⟨h.pooled, h.nodup, howned, h.image, h.kept, rfl⟩

theorem meets_freevm (h : Vm pool m₀ d map data none m) :
    Meets (freevm (some d)) (fun _ => False) m fun _ next => Released pool m₀ next := by
  unfold freevm
  refine Meets.bind (h.meets_deallocuvm 0 le_rfl) ?_
  intro _ emptied hemptied
  have hdoom := hemptied.2.doom fun page hpage =>
    Space.cleared_absent (by simp [pgRoundUp, PGSIZE]) hpage
  have hnodup : (List.finRange 1024 : List Index).Nodup := List.nodup_finRange 1024
  -- The list of the indices is not to be unfolded.
  generalize (List.finRange 1024 : List Index) = indices at hdoom hnodup ⊢
  refine Meets.bind (hdoom.meets_freeTables hnodup) ?_
  intro _ freed hfreed
  exact hfreed.meets_kfreeDir

theorem meets_mapPageKernel (h : Vm pool m₀ d map data held m) (hva : KERNBASE ≤ a)
    (hlt : a < 2 ^ 32) (habsent : (map (a / PGSIZE)).has PTE_P = false) :
    Meets (mapPage d a f perm) (fun _ => False) m fun done next =>
      if done = true then
        Vm pool m₀ d (Function.update map (a / PGSIZE) (.pte f (perm ||| PTE_P))) data
          held next
      else Vm pool m₀ d map data held next ∧ next.freelist = [] := by
  refine Meets.bind (h.meets_walk a) ?_
  rintro found walked ⟨hwalked, hfound, hnone⟩
  cases found with
  | none =>
      refine Meets.pure ?_
      rw [if_neg (by simp)]
      exact ⟨hwalked, hnone rfl⟩
  | some place =>
      obtain ⟨t, j⟩ := place
      have hloc := hfound t j rfl
      refine Meets.bind_ok (rfl : load t j walked = .ok (walked.page t j, walked)) ?_
      rw [hwalked.entry hloc hlt, if_neg (by simp [habsent])]
      refine Meets.of_ok rfl ?_
      rw [if_pos rfl]
      exact hwalked.mapKernel hloc hva hlt

end Vm

/-- The entries of `count` pages from the page `first` on, for consecutive pages
of physical memory. -/
def mapRange (map : Nat → Word) (first : Nat) (frame : Frame) (perm : PteFlags)
    (count : Nat) : Nat → Word := fun page =>
  if first ≤ page ∧ page < first + count then
    .pte (frame + .ofNat 20 (page - first)) (perm ||| PTE_P)
  else map page

theorem mapRange_one (map : Nat → Word) (first : Nat) (frame : Frame) :
    mapRange map first frame perm 1 =
      Function.update map first (.pte frame (perm ||| PTE_P)) := by
  funext page
  rw [mapRange, Function.update_apply]
  by_cases hpage : page = first
  · rw [if_pos hpage, if_pos (by omega), hpage, Nat.sub_self]
    simp
  · rw [if_neg hpage, if_neg (by omega)]

theorem mapRange_succ (map : Nat → Word) (first count : Nat) (frame : Frame) :
    mapRange (Function.update map first (.pte frame (perm ||| PTE_P))) (first + 1)
      (frame + 1) perm count = mapRange map first frame perm (count + 1) := by
  funext page
  simp only [mapRange]
  by_cases hpage : page = first
  · rw [if_neg (by omega), if_pos (by omega), hpage, Function.update_self, Nat.sub_self]
    simp
  · rw [Function.update_of_ne hpage]
    refine ite_congr (by rw [eq_iff_iff]; omega) (fun hin => ?_) fun _ => rfl
    have hoffset : page - first = page - (first + 1) + 1 := by omega
    rw [hoffset, BitVec.ofNat_add, BitVec.add_assoc, BitVec.add_comm 1]
    rfl

def Stuck (pool : Frame → Prop) (m₀ : Mem) (d : Frame) (map : Nat → Word)
    (data : Nat → Content) (m : Mem) : Prop :=
  m.freelist = [] ∧ ∃ after, Vm pool m₀ d after data none m ∧
    ∀ page, page * PGSIZE < KERNBASE → after page = map page

theorem Vm.meets_mapPages (h : Vm pool m₀ d map data none m) (perm : PteFlags)
    (frame : Frame) (more : Nat) (haligned : a % PGSIZE = 0) (hva : KERNBASE ≤ a)
    (hlt : a + more * PGSIZE < 2 ^ 32)
    (habsent : ∀ page, a / PGSIZE ≤ page → page ≤ a / PGSIZE + more →
      (map page).has PTE_P = false) :
    Meets (mapPages d perm more a frame) (fun _ => False) m fun done next =>
      if done = true then
        Vm pool m₀ d (mapRange map (a / PGSIZE) frame perm (more + 1)) data none next
      else Stuck pool m₀ d map data next := by
  induction more generalizing a frame map m with
  | zero =>
      refine (h.meets_mapPageKernel hva (by omega) (habsent _ le_rfl le_rfl)).weaken ?_
      intro done next hnext
      cases done with
      | true =>
          rw [mapRange_one]
          exact hnext
      | false => exact ⟨hnext.2, map, hnext.1, fun _ _ => rfl⟩
  | succ more ih =>
      rw [Nat.succ_mul] at hlt
      have hpage : (a + PGSIZE) / PGSIZE = a / PGSIZE + 1 :=
        Nat.add_div_right a (by decide)
      refine Meets.bind
        (h.meets_mapPageKernel hva (by omega) (habsent _ le_rfl (Nat.le_add_right ..))) ?_
      intro done middle hmiddle
      cases done with
      | false => exact Meets.pure ⟨hmiddle.2, map, hmiddle.1, fun _ _ => rfl⟩
      | true =>
          rw [← mapRange_succ, ← hpage]
          refine (ih hmiddle (frame + 1) (by rw [Nat.add_mod_right, haligned]) (by omega) (by omega)
            ?_).weaken ?_
          · intro page hlow hhigh
            rw [Function.update_of_ne (by omega)]
            exact habsent page (by omega) (by omega)
          · intro done next hnext
            cases done with
            | true => exact hnext
            | false =>
                obtain ⟨hlist, after, hafter, hsame⟩ := hnext
                refine ⟨hlist, after, hafter, fun page hlow => ?_⟩
                rw [hsame page hlow, Function.update_of_ne]
                rintro rfl
                exact absurd hlow (not_lt.mpr (by
                  rw [div_mul_of_aligned haligned]
                  exact hva))

namespace Kmap

def first (k : Kmap) : Nat := k.virt / PGSIZE

def count (k : Kmap) : Nat := sub32 k.physEnd k.physStart / PGSIZE

def onto (map : Nat → Word) (k : Kmap) : Nat → Word :=
  mapRange map k.first (.ofNat 20 (k.physStart / PGSIZE)) k.perm k.count

end Kmap

def kernelMap (image : Image) : Nat → Word := (kmap image).foldl Kmap.onto fun _ => 0

theorem kmap_whole (image : Image) :
    ∀ k ∈ kmap image, sub32 k.physEnd k.physStart % PGSIZE = 0 := by
  have htext := image.text
  have hfits := image.fits
  intro k hk
  simp only [kmap, List.mem_cons, List.not_mem_nil, or_false] at hk
  simp only [EXTMEM, PHYSTOP, PGSIZE] at htext hfits
  rcases hk with rfl | rfl | rfl | rfl
  · decide
  · rw [Space.sub32_of_le] <;> simp only [EXTMEM, PGSIZE] <;> omega
  · rw [Space.sub32_of_le] <;> simp only [PHYSTOP, PGSIZE] <;> omega
  · decide

theorem kmap_ordered (image : Image) :
    (kmap image).Pairwise fun k l => k.first + k.count ≤ l.first := by
  have htext := image.text
  have hfits := image.fits
  simp only [EXTMEM, PHYSTOP, PGSIZE] at htext hfits
  have hsecond : sub32 (image.data.toNat * PGSIZE) EXTMEM =
      image.data.toNat * PGSIZE - EXTMEM := by
    rw [Space.sub32_of_le] <;> simp only [EXTMEM, PGSIZE] <;> omega
  have hthird : sub32 PHYSTOP (image.data.toNat * PGSIZE) =
      PHYSTOP - image.data.toNat * PGSIZE := by
    rw [Space.sub32_of_le] <;> simp only [PHYSTOP, PGSIZE] <;> omega
  have hlow : sub32 EXTMEM 0 = EXTMEM := by decide
  simp only [kmap, List.pairwise_cons, List.mem_cons, List.not_mem_nil, or_false,
    forall_eq_or_imp, forall_eq, Kmap.first, Kmap.count, hsecond, hthird, hlow,
    IsEmpty.forall_iff, implies_true, List.Pairwise.nil, and_true]
  simp only [EXTMEM, PHYSTOP, PGSIZE, KERNBASE, DEVSPACE]
  omega

theorem Vm.meets_mapKmap {k : Kmap} (hk : k.High)
    (hwhole : sub32 k.physEnd k.physStart % PGSIZE = 0)
    (h : Vm pool m₀ d map data none m)
    (habsent : ∀ page, k.first ≤ page → page < k.first + k.count →
      (map page).has PTE_P = false) :
    Meets (mappages d k.virt (sub32 k.physEnd k.physStart)
        (.ofNat 20 (k.physStart / PGSIZE)) k.perm) (fun _ => False) m fun done next =>
      if done = true then Vm pool m₀ d (Kmap.onto map k) data none next
      else Stuck pool m₀ d map data next := by
  obtain ⟨hlow, haligned, hpos, hfits, _⟩ := hk
  have hcount : k.count = sub32 k.physEnd k.physStart / PGSIZE := rfl
  unfold Kmap.onto
  generalize sub32 k.physEnd k.physStart = size at *
  have hdown : pgRoundDown k.virt = k.virt :=
    div_mul_of_aligned haligned
  have hend : sub32 (k.virt + size) 1 = k.virt + size - 1 := by
    simp only [sub32]
    omega
  have hlast : pgRoundDown (k.virt + size - 1) = k.virt + size - PGSIZE := by
    clear habsent hdown
    simp only [pgRoundDown, PGSIZE] at *
    omega
  have hsize : PGSIZE ≤ size := by
    clear habsent hdown hlast
    simp only [PGSIZE] at *
    omega
  have hmore : sub32 (k.virt + size - PGSIZE) k.virt / PGSIZE = k.count - 1 := by
    have hbelow : k.virt + size - PGSIZE < 2 ^ 32 :=
      lt_of_lt_of_le (Nat.sub_lt (by omega) (by decide)) hfits
    rw [Space.sub32_of_le (by omega) hbelow, hcount]
    clear habsent hdown hlast
    simp only [PGSIZE] at *
    omega
  have hpositive : 0 < k.count := by
    rw [hcount]
    exact Nat.div_pos hsize (by decide)
  rw [mappages, hdown, hend, hlast, hmore]
  have hpages := h.meets_mapPages k.perm (.ofNat 20 (k.physStart / PGSIZE))
    (k.count - 1) haligned hlow ?_ ?_
  · rwa [Nat.sub_add_cancel hpositive] at hpages
  · clear habsent hdown hlast hmore
    simp only [PGSIZE] at *
    omega
  · intro page hpage hpage'
    refine habsent page hpage ?_
    have hfirst : k.first = k.virt / PGSIZE := rfl
    omega

theorem Kmap.onto_other {k : Kmap} {page : Nat}
    (hpage : ¬ (k.first ≤ page ∧ page < k.first + k.count)) :
    Kmap.onto map k page = map page := if_neg hpage

theorem Kmap.onto_user {k : Kmap} (hk : k.High) {page : Nat}
    (hpage : page * PGSIZE < KERNBASE) : Kmap.onto map k page = map page := by
  refine Kmap.onto_other fun hin => ?_
  have hlow := hk.low
  have haligned := hk.aligned
  have hfirst : k.first = k.virt / PGSIZE := rfl
  simp only [PGSIZE, KERNBASE] at *
  omega

theorem meets_mapKernel {ks : List Kmap} (hhigh : ∀ k ∈ ks, k.High)
    (hwhole : ∀ k ∈ ks, sub32 k.physEnd k.physStart % PGSIZE = 0)
    (hordered : ks.Pairwise fun k l => k.first + k.count ≤ l.first)
    (h : Vm pool m₀ d map data none m)
    (habsent : ∀ k ∈ ks, ∀ page, k.first ≤ page → page < k.first + k.count →
      (map page).has PTE_P = false) :
    Meets (mapKernel d ks) (fun _ => False) m fun result next =>
      (result = none ∧ Released pool m₀ next ∧ ∃ mid, Stuck pool m₀ d map data mid) ∨
        result = some d ∧ Vm pool m₀ d (ks.foldl Kmap.onto map) data none next := by
  induction ks generalizing map m with
  | nil => exact Meets.pure (.inr ⟨rfl, h⟩)
  | cons k rest ih =>
      rw [List.pairwise_cons] at hordered
      obtain ⟨hfirst, hothers⟩ := List.forall_mem_cons.mp habsent
      rw [List.forall_mem_cons] at hhigh hwhole
      refine Meets.bind (h.meets_mapKmap hhigh.1 hwhole.1 hfirst) ?_
      intro done middle hmiddle
      cases done with
      | false =>
          obtain ⟨hlist, after, hafter, hsame⟩ := hmiddle
          refine Meets.bind hafter.meets_freevm ?_
          intro _ next hnext
          exact Meets.pure (.inl ⟨rfl, hnext, middle, hlist, after, hafter, hsame⟩)
      | true =>
          refine (ih hhigh.2 hwhole.2 hordered.2 hmiddle ?_).weaken ?_
          · intro l hl page hlow hpage
            have hafter := hordered.1 l hl
            rw [Kmap.onto_other (by omega)]
            exact hothers l hl page hlow hpage
          · rintro result next (⟨hnone, hreleased, mid, hlist, after, hafter, hsame⟩ | hsome)
            · refine .inl ⟨hnone, hreleased, mid, hlist, after, hafter, fun page hpage => ?_⟩
              rw [hsame page hpage, Kmap.onto_user hhigh.1 hpage]
            · exact .inr hsome

theorem Vm.emptyDir {rest : List Frame} (hnodup : m₀.freelist.Nodup)
    (hpooled : ∀ f ∈ m₀.freelist, m₀.image.allocates f) (hlist : m₀.freelist = d :: rest)
    (data : Nat → Content) :
    Vm (· ∈ m₀.freelist) m₀ d (fun _ => 0) data none
      (Mem.setPage { m₀ with freelist := rest } d fun _ => 0) := by
  have hzero : (Mem.setPage { m₀ with freelist := rest } d fun _ => 0).page d =
      fun _ => 0 := Mem.setPage_same ..
  have hplaces : (Mem.setPage { m₀ with freelist := rest } d fun _ => 0).places d
      (fun _ => 0) none = Function.update (fun _ => none) .dir (some d) := by
    funext p
    cases p with
    | dir => rfl
    | table i => simp [Mem.places, placed, Word.target]
    | user page => simp [placed, Word.target]
    | held => rfl
  constructor
  case pooled => exact hpooled
  case nodup =>
    rw [hlist, List.nodup_cons] at hnodup
    exact hnodup.2
  case owned =>
    have hempty : Exclusive (fun f => decide (f ∉ m₀.freelist)) (fun f => ¬ f ∈ m₀.freelist)
        (fun _ : Place => none) := ⟨by simp, by simp, by simp⟩
    have hfree : decide (d ∉ m₀.freelist) = false := by simp [hlist]
    rw [hplaces]
    show Exclusive (fun f => decide (f ∉ rest)) _ _
    rw [used_pop hlist hnodup]
    exact hempty.attach hfree rfl
  case image => rfl
  case kept =>
    intro f hf
    rw [Mem.setPage_other]
    rintro rfl
    simp [hlist] at hf
  case view =>
    intro va _
    simp [Mem.pte]
  case contents =>
    intro page _ hpresent
    simp at hpresent
  case holding =>
    intro p hp
    cases hp

/-- When the free list is empty, its pages are the directory, tables, pages of the
user, and the one that is held. -/
theorem Vm.exhausted (pages : Nat) (h : Vm pool m₀ d map data held m)
    (hpool : ∀ f ∈ m₀.freelist, pool f) (hnodup : m₀.freelist.Nodup)
    (hempty : m.freelist = [])
    (hpages : ∀ page, page * PGSIZE < KERNBASE → (map page).has PTE_P = true →
      page < pages) : m₀.freelist.length ≤ 1026 + pages := by
  let places : List Place := .dir :: .held :: (List.finRange 1024).map .table ++
    (List.range pages).map .user
  have hsub : m₀.freelist ⊆ places.filterMap (m.places d map held) := by
    intro f hf
    have hused : decide (f ∉ m.freelist) = true := by simp [hempty]
    rcases (h.owned.marked f).mp hused with hout | ⟨p, hp⟩
    · exact absurd (hpool f hf) hout
    refine List.mem_filterMap.mpr ⟨p, ?_, hp⟩
    cases p with
    | dir => simp [places]
    | held => simp [places]
    | table i => simp [places]
    | user page =>
        simp only [placed] at hp
        split at hp
        next hpage =>
          have hpresent := (Word.target_eq_some.mp hp).1
          simp [places, hpages page hpage hpresent]
        next => cases hp
  have hlength : places.length = 1026 + pages := by
    simp only [places, List.cons_append, List.length_cons, List.length_append,
      List.length_map, List.length_finRange, List.length_range]
    omega
  calc m₀.freelist.length ≤ (places.filterMap (m.places d map held)).length :=
        (hnodup.subperm hsub).length_le
    _ ≤ places.length := List.length_filterMap_le ..
    _ = 1026 + pages := hlength

/-- `setupkvm` makes an address space with the kernel's entries, or takes
nothing. -/
theorem meets_setupkvm (hnodup : m₀.freelist.Nodup)
    (hpooled : ∀ f ∈ m₀.freelist, m₀.image.allocates f) (data : Nat → Content) :
    Meets setupkvm (fun _ => False) m₀ fun result next =>
      (result = none ∧ Released (· ∈ m₀.freelist) m₀ next ∧
          m₀.freelist.length ≤ 1026) ∨
        ∃ d, result = some d ∧
          Vm (· ∈ m₀.freelist) m₀ d (kernelMap m₀.image) data none next := by
  unfold setupkvm
  cases hlist : m₀.freelist with
  | nil =>
      refine Meets.bind_ok (kalloc_nil hlist) (Meets.pure (.inl ⟨rfl, ?_, by simp⟩))
      exact ⟨hnodup, fun f => by rw [hlist], rfl, fun _ _ => rfl⟩
  | cons d rest =>
      rw [← hlist]
      refine Meets.bind_ok (kalloc_cons hlist) ?_
      refine Meets.bind_ok (rfl : memset d 0 { m₀ with freelist := rest } =
        .ok ((), Mem.setPage { m₀ with freelist := rest } d fun _ => 0)) ?_
      refine Meets.bind_ok (rfl : (get : MemProgram Mem) _ = .ok (_, _)) ?_
      refine (meets_mapKernel (kmap_high _) (kmap_whole _) (kmap_ordered _)
        (Vm.emptyDir hnodup hpooled hlist data) (by simp)).weaken ?_
      rintro result next (⟨hnone, hreleased, mid, hempty, after, hafter, hsame⟩ | hsome)
      · have hshort := hafter.exhausted 0 (fun _ hf => hf) hnodup hempty fun page hpage hthere => ?_
        · exact .inl ⟨hnone, hreleased, hshort⟩
        · rw [hsame page hpage] at hthere
          simp at hthere
      · exact .inr ⟨d, hsome⟩

end KernelThreads
