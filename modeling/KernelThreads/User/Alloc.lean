import KernelThreads.User.FreeList

namespace KernelThreads.User

open Lib Program

/-! `malloc` on the list of free blocks. -/

/-- A block of `nunits` is the whole of a free block, or its tail. -/
inductive Cuts (nunits : Word) (x : Block) : List Block → Block → Prop
  | whole : x.size = nunits → Cuts nunits x [] x
  | tail {taken : Block} : nunits < x.size → taken.size = nunits →
      taken.addr = unit x.addr (x.size - nunits) →
        Cuts nunits x [⟨x.addr, x.size - nunits⟩] taken

section Take

variable {κ : Type} {sys : Breaks κ} {h : Heap κ} {nunits : Word}
variable {base : Word} {top : Nat} {frees us vs : List Block} {q x : Block}

theorem toNat_tail (hpos : 0 < nunits.toNat) (hlt : nunits < x.size)
    (hx : x.stop ≤ 2 ^ 32) :
    (x.size - nunits).toNat = x.size.toNat - nunits.toNat ∧
      (unit x.addr (x.size - nunits)).toNat =
        x.addr.toNat + 8 * (x.size.toNat - nunits.toNat) := by
  rw [BitVec.lt_def] at hlt
  have hsub : (x.size - nunits).toNat = x.size.toNat - nunits.toNat := by
    rw [BitVec.toNat_sub_of_le (BitVec.le_def.mpr hlt.le)]
  refine ⟨hsub, ?_⟩
  have hunit := toNat_unit ⟨x.addr, x.size - nunits⟩
  unfold Block.stop at hunit hx
  dsimp only at hunit
  rw [hsub] at hunit
  omega

theorem exists_nodes {ws : List Block} (ws' : List Block)
    (hsplit : nodes base frees = us ++ q :: ws) :
    ∃ frees', nodes base frees' = us ++ q :: ws' := by
  cases us with
  | nil =>
      obtain ⟨rfl, -⟩ := List.cons.inj hsplit
      exact ⟨ws', rfl⟩
  | cons u us =>
      rw [nodes, List.cons_append] at hsplit
      obtain ⟨rfl, -⟩ := List.cons.inj hsplit
      exact ⟨us ++ q :: ws', rfl⟩

theorem pairwise_shrink {y : Block} (h : (us ++ x :: vs).Pairwise Block.Below)
    (haddr : y.addr = x.addr) (hstop : y.stop ≤ x.stop) :
    (us ++ y :: vs).Pairwise Block.Below := by
  obtain ⟨hus, hxvs, hacross⟩ := List.pairwise_append.mp h
  obtain ⟨hx, hvs⟩ := List.pairwise_cons.mp hxvs
  refine List.pairwise_append.mpr ⟨hus, List.pairwise_cons.mpr ⟨?_, hvs⟩, ?_⟩
  · intro v hv
    have hbelow := hx v hv
    refine ⟨haddr ▸ hbelow.header, lt_of_le_of_lt hstop hbelow.gap⟩
  · intro u hu c hc
    rcases List.mem_cons.mp hc with rfl | hc
    · have hbelow := hacross u hu x List.mem_cons_self
      exact ⟨haddr ▸ hbelow.header, haddr ▸ hbelow.gap⟩
    · exact hacross u hu c (List.mem_cons_of_mem _ hc)

variable (hfree : FreeList base top h.mem frees)
variable (hsplit : nodes base frees = us ++ q :: x :: vs)
variable (hlimit : top ≤ sys.limit h.kernel) (hfits : sys.limit h.kernel ≤ 2 ^ 32)

include hsplit

theorem mem_split : q ∈ nodes base frees ∧ x ∈ nodes base frees ∧
    ∀ c ∈ vs ++ us, c ∈ nodes base frees := by
  rw [hsplit]
  refine ⟨by simp, by simp, fun c hc => ?_⟩
  simp only [List.mem_append, List.mem_cons] at hc ⊢
  tauto

include hfree

theorem FreeList.full_second : 0 < x.size.toNat := by
  cases us with
  | nil =>
      obtain ⟨-, rfl⟩ := List.cons.inj hsplit
      exact hfree.full x List.mem_cons_self
  | cons u us =>
      rw [nodes, List.cons_append] at hsplit
      obtain ⟨-, rfl⟩ := List.cons.inj hsplit
      exact hfree.full x (by simp)

theorem FreeList.around_block : ∀ c ∈ q :: (vs ++ us),
    c.addr.toNat + 8 ≤ x.addr.toNat ∨ x.addr.toNat + 8 ≤ c.addr.toNat ∧
      x.stop ≤ c.addr.toNat := by
  have horder := hfree.order
  rw [hsplit, List.append_cons] at horder
  obtain ⟨-, hxvs, hacross⟩ := List.pairwise_append.mp horder
  intro c hc
  simp only [List.mem_cons, List.mem_append] at hc
  rcases hc with rfl | hc | hc
  · exact .inl (hacross c (by simp) x List.mem_cons_self).header
  · have hbelow := (List.pairwise_cons.mp hxvs).1 c hc
    exact .inr ⟨hbelow.header, hbelow.gap.le⟩
  · exact .inl (hacross c (by simp [hc]) x List.mem_cons_self).header

include hlimit hfits

theorem FreeList.take_whole (hsize : x.size = nunits) :
    ∃ frees' next, nodes base frees' = us ++ q :: vs ∧
      User.take sys nunits q.addr x.addr h =
        .ok (x.addr + 8, { h with mem := next, freep := q.addr }) ∧
      FreeList base top next frees' ∧ SameBut q.addr h.mem next := by
  have htop := hlimit.trans hfits
  obtain ⟨hq, hx, hothers⟩ := mem_split hsplit
  obtain ⟨frees', hnodes⟩ := exists_nodes vs hsplit
  have hsame : SameBut q.addr h.mem (putNext h.mem q.addr (nextOf h.mem x.addr)) :=
    sameBut_putNext _ (hfree.fits htop hq)
  have hxlimit := (hfree.header x hx).trans hlimit
  have hqlimit := (hfree.header q hq).trans hlimit
  have horder := hfree.order
  rw [hsplit] at horder
  obtain ⟨-, hqxvs, hacross⟩ := List.pairwise_append.mp horder
  have hapart : ∀ c ∈ vs ++ us, Apart q.addr c.addr := by
    intro c hc
    rcases List.mem_append.mp hc with hc | hc
    · exact ((List.pairwise_cons.mp hqxvs).1 c (List.mem_cons_of_mem _ hc)).apart
    · exact (hacross c hc q List.mem_cons_self).apart.symm
  refine ⟨frees', _, hnodes, ?_, hfree.rebuild hnodes ?_ ?_ ?_ ?_, hsame⟩
  · unfold User.take
    rw [bind_of_ok (loadSize_run hfits hxlimit), if_pos ((hfree.sizes x hx).trans hsize),
      bind_of_ok (loadPtr_run hxlimit), bind_of_ok (storePtr_run _ hqlimit)]
    rfl
  · have hchain := (List.isChain_cons_cons.mp (hfree.ring_at hsplit)).2
    refine chain_relink hchain ?_ ?_
    · intro y hy
      rw [← hy]
      exact nextOf_putNext ..
    · intro a ha y hy
      obtain ⟨c, hc, rfl⟩ := List.mem_map.mp ha
      rw [hsame.nextOf (hfree.fits htop (hothers c hc)) (hapart c hc)]
      exact hy
  · intro c hc
    by_cases hcq : c = q
    · rw [hcq]
      exact (unitsOf_putNext _ (hfree.fits htop hq)).trans (hfree.sizes q hq)
    · have hc' : c ∈ vs ++ us := by
        simp only [List.mem_append, List.mem_cons] at hc ⊢
        tauto
      rw [hsame.unitsOf (hfree.fits htop (hothers c hc')) (hapart c hc')]
      exact hfree.sizes c (hothers c hc')
  · refine horder.sublist (List.Sublist.append_left ?_ us)
    exact (List.sublist_cons_self x vs).cons_cons q
  · intro c hc
    by_cases hcq : c = q
    · exact .inl (hcq ▸ hq)
    · refine .inl (hothers c ?_)
      simp only [List.mem_append, List.mem_cons] at hc ⊢
      tauto

theorem FreeList.take_tail (hpos : 0 < nunits.toNat) (hlt : nunits < x.size) :
    ∃ frees' next, nodes base frees' = us ++ q :: ⟨x.addr, x.size - nunits⟩ :: vs ∧
      User.take sys nunits q.addr x.addr h =
        .ok (unit x.addr (x.size - nunits) + 8, { h with mem := next, freep := q.addr }) ∧
      FreeList base top next frees' ∧
      unitsOf next (unit x.addr (x.size - nunits)) = nunits ∧
      ∀ a, Outside [x, ⟨unit x.addr (x.size - nunits), nunits⟩] a → next a = h.mem a := by
  have htop := hlimit.trans hfits
  obtain ⟨hq, hx, hothers⟩ := mem_split hsplit
  have hxstop := hfree.within x hx
  obtain ⟨hsub, htail⟩ := toNat_tail hpos hlt (hxstop.trans htop)
  obtain ⟨frees', hnodes⟩ :=
    exists_nodes (⟨x.addr, x.size - nunits⟩ :: vs) hsplit
  rw [BitVec.lt_def] at hlt
  have hxfits := hfree.fits htop hx
  have hxlimit := (hfree.header x hx).trans hlimit
  have haround := hfree.around_block hsplit
  unfold Block.stop at hxstop
  have htailtop : (unit x.addr (x.size - nunits)).toNat + 8 ≤ top := by omega
  generalize htaken : unit x.addr (x.size - nunits) = taken at *
  have htfits : Fits taken := htailtop.trans htop
  have hxt : Apart taken x.addr := .inr (by omega)
  have hfirst : SameBut x.addr h.mem (putUnits h.mem x.addr (x.size - nunits)) :=
    sameBut_putUnits _ hxfits
  have hsecond : SameBut taken (putUnits h.mem x.addr (x.size - nunits))
      (putUnits (putUnits h.mem x.addr (x.size - nunits)) taken nunits) :=
    sameBut_putUnits _ htfits
  have hclear : ∀ c ∈ q :: (vs ++ us), Apart x.addr c.addr ∧ Apart taken c.addr ∧
      Fits c.addr := by
    intro c hc
    have hplace := haround c hc
    unfold Block.stop at hplace
    refine ⟨?_, ?_, ?_⟩
    · unfold Apart
      omega
    · unfold Apart
      omega
    · apply hfree.fits htop
      rcases List.mem_cons.mp hc with rfl | hc
      · exact hq
      · exact hothers c hc
  refine ⟨frees', putUnits (putUnits h.mem x.addr (x.size - nunits)) taken nunits,
    hnodes, ?_, hfree.rebuild hnodes ?_ ?_ ?_ ?_, unitsOf_putUnits .., ?_⟩
  · have hne : x.size ≠ nunits := by
      intro heq
      rw [heq] at hlt
      omega
    unfold User.take
    rw [bind_of_ok (loadSize_run hfits hxlimit), hfree.sizes x hx, if_neg hne,
      bind_of_ok (storeSize_run hfits _ hxlimit)]
    rw [htaken, bind_of_ok (storeSize_run (h := { h with mem := putUnits h.mem x.addr _ })
      hfits nunits (htailtop.trans hlimit))]
    rfl
  · have hring := hfree.ring_at hsplit
    refine chain_relink hring ?_ ?_
    · intro y hy
      obtain ⟨hqx, hqt, hqfits⟩ := hclear q List.mem_cons_self
      rw [hsecond.nextOf hqfits hqt, hfirst.nextOf hqfits hqx]
      exact hy
    · intro a ha y hy
      obtain ⟨c, hc, rfl⟩ := List.mem_map.mp ha
      rcases List.mem_cons.mp hc with rfl | hc
      · rw [hsecond.nextOf hxfits hxt, nextOf_putUnits _ hxfits]
        exact hy
      · obtain ⟨hcx, hct, hcfits⟩ := hclear c (List.mem_cons_of_mem _ hc)
        rw [hsecond.nextOf hcfits hct, hfirst.nextOf hcfits hcx]
        exact hy
  · intro c hc
    by_cases hcx : c = ⟨x.addr, x.size - nunits⟩
    · rw [hcx, hsecond.unitsOf hxfits hxt]
      exact unitsOf_putUnits ..
    · have hc' : c ∈ q :: (vs ++ us) := by
        simp only [List.mem_append, List.mem_cons] at hc ⊢
        tauto
      obtain ⟨hcx, hct, hcfits⟩ := hclear c hc'
      rw [hsecond.unitsOf hcfits hct, hfirst.unitsOf hcfits hcx]
      apply hfree.sizes
      rcases List.mem_cons.mp hc' with rfl | hc'
      · exact hq
      · exact hothers c hc'
  · have horder := hfree.order
    rw [hsplit, List.append_cons] at horder
    rw [List.append_cons]
    refine pairwise_shrink horder rfl ?_
    unfold Block.stop
    dsimp only
    omega
  · intro c hc
    by_cases hcx : c = ⟨x.addr, x.size - nunits⟩
    · refine .inr ?_
      rw [hcx]
      unfold Block.stop
      dsimp only
      omega
    · refine .inl ?_
      simp only [List.mem_append, List.mem_cons] at hc
      rcases hc with hc | rfl | rfl | hc
      · exact hothers c (List.mem_append_right _ hc)
      · exact hq
      · exact absurd rfl hcx
      · exact hothers c (List.mem_append_left _ hc)
  · intro a ha
    rw [hsecond a (ha ⟨taken, nunits⟩ (by simp))]
    exact hfirst a (ha x (by simp))

theorem FreeList.take (hpos : 0 < nunits.toNat) (hlarge : nunits ≤ x.size) :
    ∃ rest taken frees' next, Cuts nunits x rest taken ∧
      nodes base frees' = us ++ q :: (rest ++ vs) ∧
      User.take sys nunits q.addr x.addr h =
        .ok (taken.addr + 8, { h with mem := next, freep := q.addr }) ∧
      FreeList base top next frees' ∧ unitsOf next taken.addr = nunits ∧
      ∀ a, Outside [q, x, taken] a → next a = h.mem a := by
  have htop := hlimit.trans hfits
  obtain ⟨hq, hx, -⟩ := mem_split hsplit
  by_cases hsize : x.size = nunits
  · obtain ⟨frees', next, hnodes, hrun, hnew, hsame⟩ :=
      hfree.take_whole hsplit hlimit hfits hsize
    refine ⟨[], x, frees', next, .whole hsize, hnodes, hrun, hnew, ?_, ?_⟩
    · have hplace := hfree.around_block hsplit q List.mem_cons_self
      have hapart : Apart q.addr x.addr := by
        unfold Apart
        omega
      rw [hsame.unitsOf (hfree.fits htop hx) hapart, hfree.sizes x hx, hsize]
    · exact fun a ha => hsame a (ha q (by simp))
  · have hlt : nunits < x.size := by
      rw [BitVec.le_def] at hlarge
      rw [← BitVec.toNat_inj] at hsize
      rw [BitVec.lt_def]
      omega
    obtain ⟨frees', next, hnodes, hrun, hnew, hunits, hsame⟩ :=
      hfree.take_tail hsplit hlimit hfits hpos hlt
    refine ⟨_, ⟨unit x.addr (x.size - nunits), nunits⟩, frees', next, .tail hlt rfl rfl,
      hnodes, hrun, hnew, hunits, fun a ha => hsame a fun c hc => ha c ?_⟩
    exact List.mem_cons_of_mem _ hc

end Take

section Search

variable {κ : Type} {sys : Breaks κ} {h : Heap κ} {nunits : Word}
variable {base : Word} {top : Nat} {frees : List Block}

def grow (sys : Breaks κ) (nunits : Word) (turns : Nat) : HeapProgram κ Word := do
  let p ← morecore sys nunits
  if p = 0 then return 0
  else search sys nunits turns p (← loadPtr sys p)

theorem search_run (nunits : Word) {walk : List Word} {prevp : Word} {turns : Nat}
    (hchain : List.IsChain (fun a b => nextOf h.mem a = b) (prevp :: (walk ++ [h.freep])))
    (hmapped : ∀ q ∈ walk ++ [h.freep], q.toNat + 8 ≤ sys.limit h.kernel)
    (hfits : sys.limit h.kernel ≤ 2 ^ 32) (hfreep : h.freep ∉ walk)
    (hturns : walk.length < turns) :
    (∃ q ∈ prevp :: walk, nextOf h.mem q ∈ walk ++ [h.freep] ∧
      nunits ≤ unitsOf h.mem (nextOf h.mem q) ∧
      search sys nunits turns prevp (nextOf h.mem prevp) h =
        take sys nunits q (nextOf h.mem q) h) ∨
    (∀ x ∈ walk ++ [h.freep], unitsOf h.mem x < nunits) ∧
      search sys nunits turns prevp (nextOf h.mem prevp) h =
        grow sys nunits (turns - (walk.length + 1)) h := by
  induction walk generalizing prevp turns with
  | nil =>
      obtain ⟨turns, rfl⟩ := Nat.exists_eq_succ_of_ne_zero (by omega : turns ≠ 0)
      have hnext : nextOf h.mem prevp = h.freep := (List.isChain_cons_cons.mp hchain).1
      unfold search
      rw [bind_of_ok (loadSize_run hfits (hnext ▸ hmapped h.freep (by simp)))]
      by_cases hlarge : nunits ≤ unitsOf h.mem (nextOf h.mem prevp)
      · refine .inl ⟨prevp, List.mem_cons_self, ?_, hlarge, congrFun (if_pos hlarge) h⟩
        exact List.mem_singleton.mpr hnext
      · refine .inr ⟨?_, ?_⟩
        · intro x hx
          obtain rfl := List.mem_singleton.mp hx
          rw [← hnext]
          exact BitVec.not_le.mp hlarge
        · rw [if_neg hlarge, bind_of_ok rfl, if_pos hnext]
          rfl
  | cons q walk ih =>
      obtain ⟨turns, rfl⟩ := Nat.exists_eq_succ_of_ne_zero (by omega : turns ≠ 0)
      rw [List.cons_append, List.isChain_cons_cons] at hchain
      obtain ⟨hnext, hrest⟩ := hchain
      have hqlimit := hmapped q (by simp)
      obtain ⟨hne, hlater⟩ := not_or.mp (mt List.mem_cons.mpr hfreep)
      have hfewer : walk.length < turns := Nat.lt_of_succ_lt_succ hturns
      unfold search
      rw [hnext, bind_of_ok (loadSize_run hfits hqlimit)]
      by_cases hlarge : nunits ≤ unitsOf h.mem q
      · refine .inl ⟨prevp, List.mem_cons_self, ?_, hnext.symm ▸ hlarge, ?_⟩
        · rw [hnext]
          exact List.mem_cons_self
        · rw [hnext]
          exact congrFun (if_pos hlarge) h
      · rw [if_neg hlarge, bind_of_ok rfl, if_neg (Ne.symm hne),
          bind_of_ok (loadPtr_run hqlimit)]
        have hsteps : turns + 1 - ((q :: walk).length + 1) = turns - (walk.length + 1) := by
          rw [List.length_cons]
          omega
        rcases ih hrest (fun x hx => hmapped x (List.mem_cons_of_mem _ hx)) hlater hfewer with
          ⟨x, hx, hafter, hlarge', hrun⟩ | ⟨hsmall, hrun⟩
        · exact .inl ⟨x, List.mem_cons_of_mem _ hx, List.mem_cons_of_mem _ hafter, hlarge',
            hrun⟩
        · refine .inr ⟨?_, ?_⟩
          · intro x hx
            rcases List.mem_cons.mp hx with rfl | hx
            · exact BitVec.not_le.mp hlarge
            · exact hsmall x hx
          · rw [Nat.succ_eq_add_one, hsteps]
            exact hrun

theorem FreeList.search (hfree : FreeList base top h.mem frees)
    (hfreep : h.freep ∈ (nodes base frees).map Block.addr)
    (hlimit : top ≤ sys.limit h.kernel) (hfits : sys.limit h.kernel ≤ 2 ^ 32)
    (hpos : 0 < nunits.toNat) {turns : Nat} (hturns : frees.length < turns) :
    (∃ us q x vs, nodes base frees = us ++ q :: x :: vs ∧ nunits ≤ x.size ∧
      User.search sys nunits turns h.freep (nextOf h.mem h.freep) h =
        User.take sys nunits q.addr x.addr h) ∨
    (∀ x ∈ frees, x.size < nunits) ∧
      User.search sys nunits turns h.freep (nextOf h.mem h.freep) h =
        grow sys nunits (turns - (frees.length + 1)) h := by
  obtain ⟨walk, hring, hwalk, hnot, hlength⟩ := hfree.walk hfreep
  have hmem : ∀ x, x ∈ walk ++ [h.freep] ↔ x ∈ h.freep :: walk := by
    intro x
    simp only [List.mem_append, List.mem_cons, List.not_mem_nil, or_false]
    exact or_comm
  have hmapped : ∀ q ∈ walk ++ [h.freep], q.toNat + 8 ≤ sys.limit h.kernel := by
    intro q hq
    obtain ⟨c, hc, rfl⟩ := (hwalk q).mp ((hmem q).mp hq)
    exact (hfree.header c hc).trans hlimit
  rw [← hlength] at hturns ⊢
  rcases search_run nunits hring hmapped hfits hnot hturns with
    ⟨q, hq, -, hlarge, hrun⟩ | ⟨hsmall, hrun⟩
  · obtain ⟨c, hc, rfl⟩ := (hwalk q).mp hq
    obtain ⟨us, rest, hsplit⟩ := List.append_of_mem hc
    refine .inl ?_
    cases rest with
    | nil =>
        -- The node after the last one is `base`, which is empty.
        rw [hfree.next_last hsplit, hfree.sizes ⟨base, 0⟩ List.mem_cons_self] at hlarge
        have hzero : nunits.toNat ≤ 0 := BitVec.le_def.mp hlarge
        omega
    | cons x vs =>
        rw [hfree.next_cons hsplit] at hlarge hrun
        have hx : x ∈ nodes base frees := by
          rw [hsplit]
          simp
        rw [hfree.sizes x hx] at hlarge
        exact ⟨us, c, x, vs, hsplit, hlarge, hrun⟩
  · refine .inr ⟨?_, hrun⟩
    intro x hx
    have hx' : x ∈ nodes base frees := List.mem_cons_of_mem _ hx
    rw [← hfree.sizes x hx']
    exact hsmall x.addr ((hmem _).mpr ((hwalk _).mpr ⟨x, hx', rfl⟩))

end Search

def Allocates (base nunits : Word) (frees frees' : List Block) (taken : Block) : Prop :=
  ∃ us q x vs rest, nodes base frees = us ++ q :: x :: vs ∧ Cuts nunits x rest taken ∧
    nodes base frees' = us ++ q :: (rest ++ vs)

def Clear (base : Word) (frees : List Block) (a : Word) : Prop :=
  (a.toNat < base.toNat ∨ base.toNat + 8 ≤ a.toNat) ∧
    ∀ c ∈ frees, a.toNat < c.addr.toNat ∨ c.stop ≤ a.toNat

def units (nunits : Word) : Word := if nunits < 4096 then 4096 else nunits

section Malloc

variable {κ : Type} {sys : Breaks κ} {h : Heap κ} {nunits : Word}
variable {base : Word} {top : Nat} {frees frees' : List Block} {m : Memory} {b : Block}

theorem toNat_nunits (nbytes : Word) :
    (User.nunits nbytes).toNat = (nbytes.toNat + 7) % 2 ^ 32 / 8 + 1 := by
  have hseven : (nbytes + 8 - 1).toNat = (nbytes.toNat + 7) % 2 ^ 32 := by
    rw [BitVec.toNat_sub, BitVec.toNat_add]
    change (2 ^ 32 - 1 + (nbytes.toNat + 8) % 2 ^ 32) % 2 ^ 32 = _
    omega
  unfold User.nunits
  rw [BitVec.toNat_add, BitVec.toNat_udiv, hseven]
  change ((nbytes.toNat + 7) % 2 ^ 32 / 8 + 1) % 2 ^ 32 = _
  omega

theorem le_units (nunits : Word) : nunits.toNat ≤ (units nunits).toNat ∧
    0 < (units nunits).toNat := by
  unfold units
  split
  next hlt =>
    rw [BitVec.lt_def] at hlt
    exact ⟨hlt.le, by decide⟩
  next hge =>
    rw [BitVec.lt_def] at hge
    have hpos : 0 < (4096 : Word).toNat := by decide
    omega

theorem FreeList.outside (hfree : FreeList base top m frees) {a : Word}
    (ha : Clear base frees a) : Outside (nodes base frees) a := by
  intro c hc
  rcases List.mem_cons.mp hc with rfl | hc
  · exact ha.1
  · have hfull := hfree.full c hc
    have hplace := ha.2 c hc
    unfold Block.stop at hplace
    omega

structure Taking (base nunits : Word) (top : Nat) (frees : List Block) (h : Heap κ)
    (result : Except HeapStop (Word × Heap κ)) (taken : Block) (frees' : List Block)
    (next : Heap κ) : Prop where
  run : result = .ok (taken.addr + 8, next)
  allocates : Allocates base nunits frees frees' taken
  list : FreeList base top next.mem frees'
  freep : next.freep ∈ (nodes base frees').map Block.addr
  kernel : next.kernel = h.kernel
  size : unitsOf next.mem taken.addr = nunits
  same : ∀ a, Clear base frees a → next.mem a = h.mem a

theorem Cuts.stop {x taken : Block} {rest : List Block} (h : Cuts nunits x rest taken)
    (hpos : 0 < nunits.toNat) (hx : x.stop ≤ 2 ^ 32) :
    taken.size = nunits ∧ taken.stop = x.stop ∧ x.addr.toNat ≤ taken.addr.toNat := by
  cases h with
  | whole hsize => exact ⟨hsize, rfl, le_rfl⟩
  | tail hlt hsize haddr =>
      obtain ⟨-, htail⟩ := toNat_tail hpos hlt hx
      rw [BitVec.lt_def] at hlt
      refine ⟨hsize, ?_, ?_⟩
      · unfold Block.stop at hx ⊢
        rw [haddr, hsize]
        omega
      · rw [haddr]
        omega

theorem Taking.within {result : Except HeapStop (Word × Heap κ)} {taken : Block}
    {next : Heap κ} (h' : Taking base nunits top frees h result taken frees' next)
    (hfree : FreeList base top h.mem frees) (hpos : 0 < nunits.toNat)
    (htop : top < 2 ^ 32) :
    (taken.addr + 8).toNat = taken.addr.toNat + 8 ∧
      taken.addr.toNat + 8 * nunits.toNat ≤ top := by
  obtain ⟨us, q, x, vs, left, hsplit, hcuts, -⟩ := h'.allocates
  have hwithin := hfree.within x (mem_split hsplit).2.1
  obtain ⟨hsize, hstop, -⟩ := hcuts.stop hpos (hwithin.trans htop.le)
  have hend : taken.addr.toNat + 8 * nunits.toNat ≤ top := by
    rw [← hstop] at hwithin
    unfold Block.stop at hwithin
    rw [hsize] at hwithin
    exact hwithin
  refine ⟨?_, hend⟩
  rw [BitVec.toNat_add]
  change (taken.addr.toNat + 8) % 2 ^ 32 = _
  omega

variable (hfree : FreeList base top h.mem frees)
variable (hfreep : h.freep ∈ (nodes base frees).map Block.addr)
variable (hlimit : top ≤ sys.limit h.kernel) (hfits : sys.limit h.kernel ≤ 2 ^ 32)

include hfree hfreep hlimit hfits

theorem FreeList.taking (hpos : 0 < nunits.toNat) {turns : Nat}
    (hturns : frees.length < turns) :
    (∃ taken frees' next, Taking base nunits top frees h
      (User.search sys nunits turns h.freep (nextOf h.mem h.freep) h) taken frees' next) ∨
    (∀ x ∈ frees, x.size < nunits) ∧
      User.search sys nunits turns h.freep (nextOf h.mem h.freep) h =
        grow sys nunits (turns - (frees.length + 1)) h := by
  rcases hfree.search hfreep hlimit hfits hpos hturns with
    ⟨us, q, x, vs, hsplit, hlarge, hrun⟩ | hgrow
  · obtain ⟨rest, taken, frees', next, hcuts, hnodes, hrun', hnew, hunits, hsame⟩ :=
      hfree.take hsplit hlimit hfits hpos hlarge
    obtain ⟨hq, hx, -⟩ := mem_split hsplit
    have hxstop := hfree.within x hx
    obtain ⟨hsize, hstop, haddr⟩ := hcuts.stop hpos (hxstop.trans (hlimit.trans hfits))
    refine .inl ⟨taken, frees', { h with mem := next, freep := q.addr },
      hrun.trans hrun', ⟨us, q, x, vs, rest, hsplit, hcuts, hnodes⟩, hnew, ?_, rfl,
      hunits, ?_⟩
    · rw [hnodes]
      exact List.mem_map.mpr ⟨q, by simp, rfl⟩
    · intro a ha
      refine hsame a fun c hc => ?_
      have hout := hfree.outside ha
      simp only [List.mem_cons, List.not_mem_nil, or_false] at hc
      rcases hc with rfl | rfl | rfl
      · exact hout c hq
      · exact hout c hx
      · have hfull := hfree.full_second hsplit
        rcases List.mem_cons.mp hx with rfl | hin
        · exact absurd hfull (by simp)
        · have hplace := ha.2 x hin
          unfold Block.stop at hstop hplace
          rw [hsize] at hstop
          omega
  · exact .inr hgrow

theorem FreeList.morecore (hbase : 0 < base.toNat) {p : Word} {kernel : κ}
    (hsbrk : sys.sbrk (units nunits * 8) h.kernel = (p, kernel)) (hp : p ≠ -1)
    (htop : top ≤ p.toNat) (hroom : p.toNat + 8 * (units nunits).toNat ≤ sys.limit kernel)
    (hfits' : sys.limit kernel ≤ 2 ^ 32) :
    ∃ q frees' next, Inserts base ⟨p, units nunits⟩ frees frees' ∧
      User.morecore sys nunits h = .ok (q, ⟨next, q, kernel⟩) ∧
      FreeList base (p.toNat + 8 * (units nunits).toNat) next frees' ∧
      q ∈ (nodes base frees').map Block.addr ∧ (∃ x ∈ frees', nunits ≤ x.size) ∧
      ∀ a, Outside (⟨p, units nunits⟩ :: nodes base frees) a → next a = h.mem a := by
  obtain ⟨-, hunits⟩ := le_units nunits
  have hplimit : p.toNat + 8 ≤ sys.limit kernel := by omega
  have hpfits : Fits p := hplimit.trans hfits'
  -- The header of the new block.
  have hsame : SameBut p h.mem (putUnits h.mem p (units nunits)) :=
    sameBut_putUnits _ hpfits
  have hhigher : ∀ c ∈ nodes base frees, c.addr.toNat + 8 ≤ p.toNat := fun c hc =>
    (hfree.header c hc).trans htop
  have hlist : FreeList base top (putUnits h.mem p (units nunits)) frees := by
    refine hfree.frame (hlimit.trans hfits) fun a ha => hsame a ?_
    by_contra hin
    refine ha fun c hc => ?_
    have hheader := hhigher c hc
    omega
  have hbefore : ∀ c ∈ frees, c.stop ≤ p.toNat ∨
      (⟨p, units nunits⟩ : Block).stop ≤ c.addr.toNat := fun c hc =>
    .inl ((hfree.within c (List.mem_cons_of_mem _ hc)).trans htop)
  have hgrown : FreeList base (p.toNat + 8 * (units nunits).toNat)
      (putUnits h.mem p (units nunits)) frees := hlist.mono (by omega)
  obtain ⟨q, frees', next, hinserts, hrun, hnew, hq, ⟨x, hx, hlow, hhigh⟩, hkept⟩ :=
    FreeList.free
      (h := ⟨putUnits h.mem p (units nunits), h.freep, kernel⟩) (b := ⟨p, units nunits⟩)
      hgrown hfreep hbase hroom hfits' (unitsOf_putUnits ..) hunits le_rfl
      (hhigher ⟨base, 0⟩ List.mem_cons_self) hbefore
  refine ⟨q, frees', next, hinserts, ?_, hnew, hq, ⟨x, hx, ?_⟩, ?_⟩
  · unfold User.morecore
    have hask : User.sbrk sys (units nunits * 8) h = .ok (p, { h with kernel }) := by
      unfold User.sbrk
      rw [bind_of_ok rfl, hsbrk]
      rfl
    rw [← units, bind_of_ok hask, if_neg hp,
      bind_of_ok (storeSize_run (h := { h with kernel }) hfits' _ hplimit), bind_of_ok hrun]
    rfl
  · have hle := (le_units nunits).1
    unfold Block.stop at hhigh
    dsimp only at hlow hhigh
    rw [BitVec.le_def]
    omega
  · intro a ha
    rw [hkept a ha]
    exact hsame a (ha ⟨p, units nunits⟩ List.mem_cons_self)

theorem FreeList.grow (hbase : 0 < base.toNat) (hpos : 0 < nunits.toNat) {turns : Nat}
    (hturns : 2 ^ 29 ≤ turns) {p : Word} {kernel : κ}
    (hsbrk : sys.sbrk (units nunits * 8) h.kernel = (p, kernel)) (hp : p ≠ -1)
    (htop : top ≤ p.toNat) (hroom : p.toNat + 8 * (units nunits).toNat ≤ sys.limit kernel)
    (hfits' : sys.limit kernel ≤ 2 ^ 32) :
    ∃ grown middle taken frees' next, Inserts base ⟨p, units nunits⟩ frees grown ∧
      FreeList base (p.toNat + 8 * (units nunits).toNat) middle.mem grown ∧
      middle.freep ∈ (nodes base grown).map Block.addr ∧ middle.kernel = kernel ∧
      (∀ a, Outside (⟨p, units nunits⟩ :: nodes base frees) a →
        middle.mem a = h.mem a) ∧
      Taking base nunits (p.toNat + 8 * (units nunits).toNat) grown middle
        (User.grow sys nunits turns h) taken frees' next := by
  obtain ⟨q, grown, mem, hinserts, hrun, hlist, hq, ⟨x, hx, hlarge⟩, hsame⟩ :=
    hfree.morecore hfreep hlimit hfits hbase hsbrk hp htop hroom hfits'
  have hq' : q ≠ 0 ∧ q.toNat + 8 ≤ sys.limit kernel := by
    obtain ⟨c, hc, rfl⟩ := List.mem_map.mp hq
    refine ⟨fun hzero => ?_, (hlist.header c hc).trans hroom⟩
    have hle := hlist.base_le hc
    rw [hzero] at hle
    have hnone : (0 : Word).toNat = 0 := rfl
    omega
  have hmany := hlist.length_lt (hroom.trans hfits')
  have hstep : User.grow sys nunits turns h =
      User.search sys nunits turns q (nextOf mem q) ⟨mem, q, kernel⟩ := by
    unfold User.grow
    rw [bind_of_ok hrun, if_neg hq'.1,
      bind_of_ok (loadPtr_run (h := ⟨mem, q, kernel⟩) hq'.2)]
  rcases FreeList.taking (h := ⟨mem, q, kernel⟩) hlist hq hroom hfits' hpos
      (by omega : grown.length < turns) with
    ⟨taken, frees', next, htaking⟩ | ⟨hsmall, -⟩
  · rw [hstep]
    exact ⟨grown, ⟨mem, q, kernel⟩, taken, frees', next, hinserts, hlist, hq, rfl,
      hsame, htaking⟩
  · exact absurd hlarge (BitVec.not_le.mpr (hsmall x hx))

omit hfree hfreep hlimit hfits in
theorem grow_refused {turns : Nat} {kernel : κ}
    (hsbrk : sys.sbrk (units nunits * 8) h.kernel = (-1, kernel)) :
    User.grow sys nunits turns h = .ok (0, { h with kernel }) := by
  have hask : User.sbrk sys (units nunits * 8) h = .ok (-1, { h with kernel }) := by
    unfold User.sbrk
    rw [bind_of_ok rfl, hsbrk]
    rfl
  have hrun : User.morecore sys nunits h = .ok (0, { h with kernel }) := by
    unfold User.morecore
    rw [← units, bind_of_ok hask, if_pos rfl]
    rfl
  unfold User.grow
  rw [bind_of_ok hrun, if_pos rfl]
  rfl

omit hfits in
theorem FreeList.malloc_eq (hbase : 0 < base.toNat) (nbytes : Word) :
    malloc sys base nbytes h =
      User.search sys (User.nunits nbytes) TURNS h.freep (nextOf h.mem h.freep) h := by
  obtain ⟨c, hc, haddr⟩ := List.mem_map.mp hfreep
  have hle := hfree.base_le hc
  have hne : h.freep ≠ 0 := by
    intro hzero
    rw [← haddr] at hzero
    rw [hzero] at hle
    have hnone : (0 : Word).toNat = 0 := rfl
    omega
  unfold malloc
  have hmapped : h.freep.toNat + 8 ≤ sys.limit h.kernel := by
    rw [← haddr]
    exact (hfree.header c hc).trans hlimit
  rw [bind_of_ok rfl, if_neg hne, bind_of_ok (loadPtr_run hmapped)]

end Malloc

def started (base : Word) (m : Memory) : Memory := putUnits (putNext m base base) base 0

section First

variable {κ : Type} {sys : Breaks κ} {h : Heap κ} {base : Word} {top : Nat}

theorem freeList_started {m : Memory} (hheader : base.toNat + 8 ≤ top)
    (htop : top ≤ 2 ^ 32) : FreeList base top (started base m) [] := by
  have hfits : Fits base := hheader.trans htop
  refine ⟨?_, ?_, ?_, ?_, ?_, ?_⟩
  · refine ring_nil.mpr ?_
    exact (nextOf_putUnits _ hfits).trans (nextOf_putNext ..)
  · intro b hb
    obtain rfl := List.mem_singleton.mp hb
    exact unitsOf_putUnits ..
  · exact List.pairwise_singleton _ _
  · exact fun b hb => absurd hb List.not_mem_nil
  · intro b hb
    obtain rfl := List.mem_singleton.mp hb
    exact hheader
  · intro b hb
    obtain rfl := List.mem_singleton.mp hb
    change base.toNat + 8 * 0 ≤ top
    omega

theorem malloc_first (hfreep : h.freep = 0) (hmapped : base.toNat + 8 ≤ sys.limit h.kernel)
    (hfits : sys.limit h.kernel ≤ 2 ^ 32) (nbytes : Word) :
    malloc sys base nbytes h =
      search sys (nunits nbytes) TURNS base (nextOf (started base h.mem) base)
        ⟨started base h.mem, base, h.kernel⟩ := by
  unfold malloc
  rw [bind_of_ok rfl, if_pos hfreep, bind_of_ok rfl]
  rw [bind_of_ok (storePtr_run (h := { h with freep := base }) base hmapped)]
  rw [bind_of_ok (storeSize_run (h := ⟨putNext h.mem base base, base, h.kernel⟩) hfits 0
    hmapped)]
  exact bind_of_ok (loadPtr_run (h := ⟨started base h.mem, base, h.kernel⟩) hmapped)

end First

end KernelThreads.User
