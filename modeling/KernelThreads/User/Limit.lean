import KernelThreads.Machine.Grow
import KernelThreads.User.Alloc

namespace KernelThreads.User

open Lib Program

/-! `malloc` over `sys_sbrk`, with the size that the kernel keeps of the process. -/

def newPages (oldsz newsz : Nat) : List Nat :=
  (List.range ((pgRoundUp newsz - pgRoundUp oldsz) / PGSIZE)).map fun i =>
    pgRoundUp oldsz + i * PGSIZE

/-- The result of `allocuvm`, where `kalloc` tells for which pages there is memory. -/
def allocSize (kalloc : Nat → Bool) (oldsz newsz : Nat) : Nat :=
  if KERNBASE ≤ newsz then 0
  else if newsz < oldsz then oldsz
  else if (newPages oldsz newsz).all kalloc then newsz else 0

def deallocSize (oldsz newsz : Nat) : Nat := if oldsz ≤ newsz then oldsz else newsz

def growproc (kalloc : Nat → Bool) (n : Int) (sz : Nat) : Option Nat :=
  if n = 0 then some sz
  else
    let newsz :=
      if 0 < n then allocSize kalloc sz (Table.resized sz n)
      else deallocSize sz (Table.resized sz n)
    if newsz = 0 then none else some newsz

def sysSbrk (kalloc : Nat → Bool) (n : Word) (sz : Nat) : Word × Nat :=
  match growproc kalloc n.toInt sz with
  | none => (-1, sz)
  | some newsz => (BitVec.ofNat 32 sz, newsz)

/-- The pages of a process are mapped up to the end of the one it ends in. -/
def sizes (kalloc : Nat → Bool) : Breaks Nat where
  sbrk := sysSbrk kalloc
  limit := pgRoundUp

/-! A block at the break whose size says nothing about the memory behind it. -/

section Oversize

variable {κ : Type} {sys : Breaks κ} {h : Heap κ} {nunits bp base : Word} {top : Nat}
variable {frees us : List Block} {p : Block} {m : Memory}

theorem FreeList.linkNext_top (hfree : FreeList base top m frees)
    (hsplit : nodes base frees = us ++ [p]) (htop : top ≤ bp.toNat) (hbp : Fits bp)
    (hsize : unitsOf m bp = nunits) :
    ∃ walk, (∀ x ∈ walk, ∃ c ∈ us, c.addr = x) ∧ walk.length ≤ us.length ∧
      List.IsChain (fun a b => nextOf (User.linkNext m p.addr bp) a = b)
        (bp :: (walk ++ [p.addr])) ∧
      unitsOf (User.linkNext m p.addr bp) bp = nunits ∧
      SameBut bp m (User.linkNext m p.addr bp) := by
  have hmem : ∀ c ∈ us ++ [p], c ∈ nodes base frees := fun c hc => hsplit ▸ hc
  have hbaseNode : (⟨base, 0⟩ : Block) ∈ nodes base frees := List.mem_cons_self
  have hapart : ∀ c ∈ nodes base frees, Apart bp c.addr ∧ Fits c.addr := by
    intro c hc
    have hheader := hfree.header c hc
    have hbp' := bp.isLt
    unfold Apart Fits
    omega
  have hkept : ∀ {next : Memory}, SameBut bp m next → ∀ {cs : List Block},
      (∀ c ∈ cs, c ∈ nodes base frees) → ∀ x ∈ cs.map Block.addr, ∀ y,
        nextOf m x = y → nextOf next x = y := by
    intro next hsame cs hcs x hx y hxy
    obtain ⟨c, hc, rfl⟩ := List.mem_map.mp hx
    rw [hsame.nextOf (hapart c (hcs c hc)).2 (hapart c (hcs c hc)).1]
    exact hxy
  have hring := hfree.ring_at hsplit
  rw [List.nil_append] at hring
  unfold User.linkNext
  rw [hsize, hfree.next_last hsplit]
  by_cases hwrap : unit bp nunits = base
  · rw [if_pos hwrap]
    have hunits : SameBut bp m (putUnits m bp nunits) := sameBut_putUnits _ hbp
    have hempty : unitsOf m base = 0 := hfree.sizes ⟨base, 0⟩ hbaseNode
    obtain ⟨hbase, hbasefits⟩ := hapart _ hbaseNode
    dsimp only
    rw [hempty, show nunits + 0 = nunits from BitVec.add_zero _,
      show nextOf (putUnits m bp nunits) base = nextOf m base from
        hunits.nextOf hbasefits hbase]
    have hsame := hunits.trans (sameBut_putNext (nextOf m base) hbp)
    have hsize' : unitsOf (putNext (putUnits m bp nunits) bp (nextOf m base)) bp = nunits :=
      (unitsOf_putNext _ hbp).trans (unitsOf_putUnits ..)
    cases us with
    | nil =>
        obtain ⟨rfl, -⟩ := List.cons.inj hsplit
        refine ⟨[], nofun, le_rfl, ?_, hsize', hsame⟩
        refine List.isChain_cons_cons.mpr ⟨?_, List.isChain_singleton _⟩
        rw [nextOf_putNext]
        exact ring_nil.mp hring
    | cons u us =>
        rw [nodes, List.cons_append] at hsplit
        obtain ⟨rfl, hfrees⟩ := List.cons.inj hsplit
        refine ⟨us.map Block.addr, ?_, ?_, ?_, hsize', hsame⟩
        · intro x hx
          obtain ⟨c, hc, rfl⟩ := List.mem_map.mp hx
          exact ⟨c, List.mem_cons_of_mem _ hc, rfl⟩
        · simp
        · have hchain := (List.isChain_cons_cons.mp hring).2
          refine chain_relink hchain ?_ (hkept hsame fun c hc => hmem c (by simp [hc]))
          intro y hy
          rw [← hy]
          exact nextOf_putNext ..
  · rw [if_neg hwrap]
    have hsame : SameBut bp m (putNext m bp base) := sameBut_putNext _ hbp
    refine ⟨us.map Block.addr, ?_, by simp, ?_, (unitsOf_putNext _ hbp).trans hsize, hsame⟩
    · intro x hx
      obtain ⟨c, hc, rfl⟩ := List.mem_map.mp hx
      exact ⟨c, hc, rfl⟩
    · refine chain_relink hring ?_ (hkept hsame fun c hc => hmem c (by simp [hc]))
      intro y hy
      rw [← hy, hfree.next_last hsplit]
      exact nextOf_putNext ..

/-- The block before it takes it in, or points to it; either way the loop of `malloc`
finds it. -/
theorem search_top {k : κ} {walk : List Word} {turns : Nat} {size : Word}
    (hchain : List.IsChain (fun a b => nextOf m a = b) (bp :: (walk ++ [p.addr])))
    (hunits : unitsOf m bp = nunits) (hp : unitsOf m p.addr = size)
    (hsum : size.toNat + nunits.toNat < 2 ^ 32)
    (htouch : unit p.addr size = bp → 0 < size.toNat)
    (hwalk : ∀ x ∈ walk, unitsOf m x < nunits ∧ x.toNat + 8 ≤ sys.limit k ∧
      Apart p.addr x)
    (hbp : bp.toNat + 8 ≤ sys.limit k) (hplimit : p.addr.toNat + 8 ≤ sys.limit k)
    (hapart : Apart p.addr bp) (hfits : sys.limit k ≤ 2 ^ 32)
    (hturns : walk.length + 1 < turns) :
    ∃ next, search sys nunits turns p.addr (nextOf (linkPrev m p.addr bp) p.addr)
      ⟨linkPrev m p.addr bp, p.addr, k⟩ = .ok (bp + 8, next) ∧ next.kernel = k := by
  have hpfits : Fits p.addr := hplimit.trans hfits
  have hbfits : Fits bp := hbp.trans hfits
  unfold linkPrev
  rw [hp, hunits]
  by_cases hjoin : unit p.addr size = bp
  · -- The loop goes round to `p`, and cuts the block off again.
    rw [if_pos hjoin]
    have hsame : SameBut p.addr m (putUnits m p.addr (size + nunits)) :=
      sameBut_putUnits _ hpfits
    dsimp only
    rw [hsame.nextOf hbfits hapart]
    have hlast := hsame.trans (sameBut_putNext (nextOf m bp) hpfits)
    have hpsize : unitsOf (putNext (putUnits m p.addr (size + nunits)) p.addr
        (nextOf m bp)) p.addr = size + nunits :=
      (unitsOf_putNext _ hpfits).trans (unitsOf_putUnits ..)
    generalize hmem : putNext (putUnits m p.addr (size + nunits)) p.addr
      (nextOf m bp) = last at *
    have hring : List.IsChain (fun a b => nextOf last a = b)
        (p.addr :: (walk ++ [p.addr])) := by
      refine chain_relink hchain ?_ ?_
      · intro y hy
        rw [← hmem, ← hy]
        exact nextOf_putNext ..
      · intro x hx y hy
        obtain ⟨-, hlimit, hx⟩ := hwalk x hx
        rw [hlast.nextOf (hlimit.trans hfits) hx]
        exact hy
    have hsum' : (size + nunits).toNat = size.toNat + nunits.toNat := by
      rw [BitVec.toNat_add, Nat.mod_eq_of_lt hsum]
    have hnotin : p.addr ∉ walk := by
      intro hin
      obtain ⟨-, -, hself⟩ := hwalk _ hin
      unfold Apart at hself
      omega
    have hmapped : ∀ q ∈ walk ++ [p.addr], q.toNat + 8 ≤ sys.limit k := by
      intro q hq
      rcases List.mem_append.mp hq with hq | hq
      · exact (hwalk q hq).2.1
      · obtain rfl := List.mem_singleton.mp hq
        exact hplimit
    rcases search_run (h := ⟨last, p.addr, k⟩) nunits hring hmapped hfits hnotin
        (by omega : walk.length < turns) with ⟨q, hq, hnext, hlarge, hrun⟩ | ⟨hsmall, -⟩
    · dsimp only at hnext hlarge hrun
      have hback : nextOf last q = p.addr := by
        rcases List.mem_append.mp hnext with hnext | hnext
        · obtain ⟨hsmall, hlimit, hx⟩ := hwalk _ hnext
          rw [← hlast.unitsOf (hlimit.trans hfits) hx] at hsmall
          exact absurd hlarge (BitVec.not_le.mpr hsmall)
        · exact List.mem_singleton.mp hnext
      rw [hback] at hrun
      have hne : size + nunits ≠ nunits := by
        intro heq
        have hsize := congrArg BitVec.toNat heq
        have hfull := htouch hjoin
        omega
      have hleft : size + nunits - nunits = size := BitVec.add_sub_cancel ..
      rw [hrun]
      unfold take
      rw [bind_of_ok (loadSize_run (h := ⟨last, p.addr, k⟩) hfits hplimit)]
      dsimp only
      rw [hpsize, if_neg hne, hleft, hjoin]
      rw [bind_of_ok (storeSize_run (h := ⟨last, p.addr, k⟩) hfits _ hplimit)]
      rw [bind_of_ok (storeSize_run (h := ⟨putUnits last p.addr size, p.addr, k⟩) hfits _
        hbp)]
      exact ⟨_, rfl, rfl⟩
    · have hsmall := hsmall p.addr (by simp)
      dsimp only at hsmall
      rw [hpsize, BitVec.lt_def, hsum'] at hsmall
      omega
  · rw [if_neg hjoin, nextOf_putNext]
    obtain ⟨turns, rfl⟩ := Nat.exists_eq_succ_of_ne_zero (by omega : turns ≠ 0)
    have hsame : SameBut p.addr m (putNext m p.addr bp) := sameBut_putNext _ hpfits
    have hsize : unitsOf (putNext m p.addr bp) bp = nunits := by
      rw [hsame.unitsOf hbfits hapart, hunits]
    unfold search
    rw [bind_of_ok (loadSize_run (h := ⟨putNext m p.addr bp, p.addr, k⟩) hfits hbp)]
    rw [if_pos (hsize ▸ BitVec.le_refl _)]
    unfold take
    rw [bind_of_ok (loadSize_run (h := ⟨putNext m p.addr bp, p.addr, k⟩) hfits hbp)]
    rw [if_pos hsize,
      bind_of_ok (loadPtr_run (h := ⟨putNext m p.addr bp, p.addr, k⟩) hbp),
      bind_of_ok (storePtr_run (h := ⟨putNext m p.addr bp, p.addr, k⟩) _ hplimit)]
    exact ⟨_, rfl, rfl⟩

theorem FreeList.grow_top (hfree : FreeList base top h.mem frees)
    (hfreep : h.freep ∈ (nodes base frees).map Block.addr) {kernel : κ} {turns : Nat}
    (hsbrk : sys.sbrk (units nunits * 8) h.kernel = (bp, kernel)) (hne : bp ≠ -1)
    (hunits : units nunits = nunits) (hpos : 0 < nunits.toNat)
    (hsmall : ∀ x ∈ frees, x.size < nunits) (hlarge : top + nunits.toNat < 2 ^ 32)
    (htop : top ≤ bp.toNat) (hbp : bp.toNat + 8 ≤ sys.limit kernel)
    (hfits : sys.limit kernel ≤ 2 ^ 32) (hbase : 0 < base.toNat) (hturns : 2 ^ 30 ≤ turns) :
    ∃ next, User.grow sys nunits turns h = .ok (bp + 8, next) ∧ next.kernel = kernel := by
  have hbfits : Fits bp := hbp.trans hfits
  have hlimit : top ≤ sys.limit kernel := by omega
  have hheader : ∀ c ∈ nodes base frees, c.addr.toNat + 8 ≤ bp.toNat := fun c hc =>
    (hfree.header c hc).trans htop
  have hfirst : base.toNat + 8 ≤ bp.toNat := hheader ⟨base, 0⟩ List.mem_cons_self
  have hsame : SameBut bp h.mem (putUnits h.mem bp nunits) := sameBut_putUnits _ hbfits
  have hlist : FreeList base top (putUnits h.mem bp nunits) frees := by
    refine hfree.frame (hlimit.trans hfits) fun a ha => hsame a ?_
    by_contra hin
    refine ha fun c hc => ?_
    have hle := hheader c hc
    omega
  have hlow : base.toNat < bp.toNat := by omega
  have hother : ∀ c ∈ nodes base frees, c.addr ≠ bp := by
    intro c hc heq
    have hle := hheader c hc
    rw [heq] at hle
    omega
  obtain ⟨us, p, vs, hsplit, -, hvs, hplace⟩ :=
    FreeList.findPlace (h := ⟨putUnits h.mem bp nunits, h.freep, kernel⟩) hlist hfreep
      hlimit (hlimit.trans hfits) hlow hother
  have hnil : vs = [] := by
    refine List.eq_nil_iff_forall_not_mem.mpr fun v hv => ?_
    have hlt := hvs v hv
    have hle := hheader v (by rw [hsplit]; simp [hv])
    omega
  subst hnil
  have hmem : ∀ c ∈ us ++ [p], c ∈ nodes base frees := fun c hc => hsplit ▸ hc
  have hpnode := hmem p (by simp)
  have hplimit : p.addr.toNat + 8 ≤ sys.limit kernel := (hfree.header p hpnode).trans hlimit
  obtain ⟨walk, hwalk, hlength, hchain, hsize, hlinked⟩ :=
    hlist.linkNext_top hsplit htop hbfits (unitsOf_putUnits ..)
  have hmany := hfree.length_lt (hlimit.trans hfits)
  have hapart : ∀ c ∈ nodes base frees, Apart bp c.addr := fun c hc => .inr (hheader c hc)
  have hkept : ∀ c ∈ nodes base frees,
      unitsOf (User.linkNext (putUnits h.mem bp nunits) p.addr bp) c.addr = c.size := by
    intro c hc
    rw [hlinked.unitsOf (hfree.fits (hlimit.trans hfits) hc) (hapart c hc)]
    exact hlist.sizes c hc
  have hlengths : us.length = frees.length := by
    have hsame := congrArg List.length hsplit
    simp only [nodes, List.length_cons, List.length_append, List.length_nil] at hsame
    omega
  have hsum : p.size.toNat + nunits.toNat < 2 ^ 32 := by
    have hwithin := hfree.within p hpnode
    unfold Block.stop at hwithin
    omega
  have htouch : unit p.addr p.size = bp → 0 < p.size.toNat := by
    intro hjoin
    by_contra hzero
    have hzero : p.size = 0 := BitVec.toNat_inj.mp (by simpa using hzero)
    have hle := hheader p hpnode
    rw [hzero, unit, mul_zero, add_zero] at hjoin
    rw [hjoin] at hle
    omega
  have hothers : ∀ x ∈ walk,
      unitsOf (User.linkNext (putUnits h.mem bp nunits) p.addr bp) x < nunits ∧
        x.toNat + 8 ≤ sys.limit kernel ∧ Apart p.addr x := by
    intro x hx
    obtain ⟨c, hc, rfl⟩ := hwalk x hx
    have hcnode := hmem c (List.mem_append_left _ hc)
    refine ⟨?_, (hfree.header c hcnode).trans hlimit, ?_⟩
    · rw [hkept c hcnode]
      rcases List.mem_cons.mp hcnode with rfl | hin
      · exact BitVec.lt_def.mpr hpos
      · exact hsmall c hin
    · have horder := hfree.order
      rw [hsplit] at horder
      have hbelow := (List.pairwise_append.mp horder).2.2 c hc p List.mem_cons_self
      exact hbelow.apart.symm
  have hleft : walk.length + 1 < turns := by omega
  obtain ⟨next, hsearch, hkernel⟩ := search_top hchain hsize (hkept p hpnode) hsum htouch
    hothers hbp hplimit (hapart p hpnode).symm hfits hleft
  refine ⟨next, ?_, hkernel⟩
  have hask : User.sbrk sys (nunits * 8) h = .ok (bp, { h with kernel }) := by
    unfold User.sbrk
    rw [hunits] at hsbrk
    rw [bind_of_ok rfl, hsbrk]
    rfl
  have hnext : nextOf (putUnits h.mem bp nunits) p.addr = base := hlist.next_last hsplit
  have hfreed : User.free sys (bp + 8) ⟨putUnits h.mem bp nunits, h.freep, kernel⟩ =
      .ok ((), ⟨linkPrev (User.linkNext (putUnits h.mem bp nunits) p.addr bp) p.addr bp,
        p.addr, kernel⟩) := by
    unfold User.free
    rw [BitVec.add_sub_cancel, bind_of_ok rfl, bind_of_ok hplace]
    rw [bind_of_ok (joinNext_run
      (h := ⟨putUnits h.mem bp nunits, h.freep, kernel⟩) hfits hplimit hbp
      (by dsimp only; rw [hnext]; omega))]
    rw [bind_of_ok (joinPrev_run
      (h := ⟨User.linkNext (putUnits h.mem bp nunits) p.addr bp, h.freep, kernel⟩)
      hfits hplimit hbp)]
    rfl
  have hmore : User.morecore sys nunits h = .ok (p.addr,
      ⟨linkPrev (User.linkNext (putUnits h.mem bp nunits) p.addr bp) p.addr bp,
        p.addr, kernel⟩) := by
    unfold User.morecore
    rw [← units, hunits, bind_of_ok hask, if_neg hne,
      bind_of_ok (storeSize_run (h := { h with kernel }) hfits _ hbp), bind_of_ok hfreed]
    rfl
  have hpne : p.addr ≠ 0 := by
    intro hzero
    have hle := hfree.base_le hpnode
    rw [hzero] at hle
    have hnone : (0 : Word).toNat = 0 := rfl
    omega
  unfold User.grow
  rw [bind_of_ok hmore, if_neg hpne, bind_of_ok (loadPtr_run (h := ⟨linkPrev
    (User.linkNext (putUnits h.mem bp nunits) p.addr bp) p.addr bp, p.addr, kernel⟩)
    hplimit)]
  exact hsearch

end Oversize

def shrunk (sz k : Nat) : Nat := if k ≤ sz then sz - k else sz

section Amounts

variable {kalloc : Nat → Bool} {u : Word} {sz : Nat}

theorem toNat_amount (u : Word) : (u * 8).toNat = 8 * u.toNat % 2 ^ 32 := by
  rw [BitVec.toNat_mul, Nat.mul_comm]
  rfl

theorem sysSbrk_grow (hpos : 0 < u.toNat) (hu : 8 * u.toNat < 2 ^ 31) (hsz : sz < KERNBASE) :
    growproc kalloc (8 * u.toNat : Nat) sz = none ∧ sysSbrk kalloc (u * 8) sz = (-1, sz) ∨
    growproc kalloc (8 * u.toNat : Nat) sz = some (sz + 8 * u.toNat) ∧
      sz + 8 * u.toNat < KERNBASE ∧
      sysSbrk kalloc (u * 8) sz = (BitVec.ofNat 32 sz, sz + 8 * u.toNat) := by
  have hamount : (u * 8).toNat = 8 * u.toNat := by
    rw [toNat_amount]
    omega
  have hint : (u * 8).toInt = (8 * u.toNat : Nat) := by
    rw [BitVec.toInt_eq_toNat_of_lt (by omega), hamount]
  have hnew : Table.resized sz (8 * u.toNat : Nat) = sz + 8 * u.toNat := by
    unfold Table.resized
    unfold KERNBASE at hsz
    omega
  unfold sysSbrk
  rw [hint]
  have hgrow : growproc kalloc (8 * u.toNat : Nat) sz =
      if allocSize kalloc sz (sz + 8 * u.toNat) = 0 then none
      else some (allocSize kalloc sz (sz + 8 * u.toNat)) := by
    have hne : ((8 * u.toNat : Nat) : Int) ≠ 0 := by omega
    have hgt : 0 < ((8 * u.toNat : Nat) : Int) := by omega
    unfold growproc
    simp only [if_neg hne, if_pos hgt, hnew]
  have hsize : allocSize kalloc sz (sz + 8 * u.toNat) = 0 ∨
      sz + 8 * u.toNat < KERNBASE ∧
        allocSize kalloc sz (sz + 8 * u.toNat) = sz + 8 * u.toNat := by
    unfold allocSize
    split
    · exact .inl rfl
    · rw [if_neg (by omega)]
      split
      · exact .inr ⟨by omega, rfl⟩
      · exact .inl rfl
  rcases hsize with hzero | ⟨hbelow, hsize⟩
  · rw [if_pos hzero] at hgrow
    rw [hgrow]
    exact .inl ⟨rfl, rfl⟩
  · rw [hsize, if_neg (by omega)] at hgrow
    rw [hgrow]
    exact .inr ⟨rfl, hbelow, rfl⟩

theorem sysSbrk_shrink (hlow : 2 ^ 28 ≤ u.toNat) (hhigh : u.toNat ≤ 2 ^ 29)
    (hpos : 0 < sz) (hsz : sz < KERNBASE) :
    sysSbrk kalloc (u * 8) sz =
      if shrunk sz (2 ^ 32 - 8 * u.toNat) = 0 then (-1, sz)
      else (BitVec.ofNat 32 sz, shrunk sz (2 ^ 32 - 8 * u.toNat)) := by
  unfold KERNBASE at hsz
  have hint : (u * 8).toInt = -((2 ^ 32 - 8 * u.toNat : Nat) : Int) := by
    rw [BitVec.toInt_eq_toNat_cond, toNat_amount]
    split <;> omega
  have hgrow : growproc kalloc (-((2 ^ 32 - 8 * u.toNat : Nat) : Int)) sz =
      if shrunk sz (2 ^ 32 - 8 * u.toNat) = 0 then none
      else some (shrunk sz (2 ^ 32 - 8 * u.toNat)) := by
    unfold growproc
    by_cases hzero : 2 ^ 32 - 8 * u.toNat = 0
    · have hsame : shrunk sz (2 ^ 32 - 8 * u.toNat) = sz := by
        unfold shrunk
        rw [hzero]
        rfl
      rw [if_pos (by omega), hsame, if_neg hpos.ne']
    · have hnew : deallocSize sz
          (Table.resized sz (-((2 ^ 32 - 8 * u.toNat : Nat) : Int))) =
          shrunk sz (2 ^ 32 - 8 * u.toNat) := by
        unfold deallocSize shrunk Table.resized
        split <;> split <;> omega
      have hne : -((2 ^ 32 - 8 * u.toNat : Nat) : Int) ≠ 0 := by omega
      have hle : ¬ 0 < -((2 ^ 32 - 8 * u.toNat : Nat) : Int) := by omega
      simp only [if_neg hne, if_neg hle, hnew]
  unfold sysSbrk
  rw [hint, hgrow]
  by_cases hzero : shrunk sz (2 ^ 32 - 8 * u.toNat) = 0
  · simp only [if_pos hzero]
  · simp only [if_neg hzero]

end Amounts

/-- The heap of a process: not used yet, or with a list of free blocks below the size
of the process. -/
structure ProcessHeap (base : Word) (h : Heap Nat) (frees : List Block) : Prop where
  nonnull : 0 < base.toNat
  data : base.toNat + 8 ≤ h.kernel
  size : h.kernel < KERNBASE
  state : h.freep = 0 ∧ frees = [] ∨
    FreeList base h.kernel h.mem frees ∧ h.freep ∈ (nodes base frees).map Block.addr

/-- `malloc` returns 0 or a pointer to `nbytes` bytes below the size of the process; a
process that touches other memory is killed. -/
def Bounded (nbytes : Word) : Except HeapStop (Word × Heap Nat) → Prop
  | .ok (p, next) => p = 0 ∨ p.toNat + nbytes.toNat ≤ next.kernel
  | .error .fault => True
  | .error .outOfFuel => False

section Call

variable {base nbytes : Word} {h : Heap Nat} {frees : List Block} {kalloc : Nat → Bool}

theorem ProcessHeap.begin (hheap : ProcessHeap base h frees) (nbytes : Word)
    (kalloc : Nat → Bool) :
    ∃ start : Heap Nat, start.kernel = h.kernel ∧
      FreeList base h.kernel start.mem frees ∧
      start.freep ∈ (nodes base frees).map Block.addr ∧
      h.kernel ≤ (sizes kalloc).limit start.kernel ∧
      (sizes kalloc).limit start.kernel ≤ 2 ^ 32 ∧
      malloc (sizes kalloc) base nbytes h =
        search (sizes kalloc) (nunits nbytes) TURNS start.freep
          (nextOf start.mem start.freep) start := by
  have hsize := hheap.size
  have hdata := hheap.data
  have hlow : h.kernel ≤ (sizes kalloc).limit h.kernel := Space.le_pgRoundUp _
  have hhigh : (sizes kalloc).limit h.kernel ≤ 2 ^ 32 := by
    change pgRoundUp h.kernel ≤ 2 ^ 32
    simp only [pgRoundUp, PGSIZE, KERNBASE] at hsize ⊢
    omega
  rcases hheap.state with ⟨hfreep, rfl⟩ | ⟨hlist, hfreep⟩
  · have hfits : h.kernel ≤ 2 ^ 32 := hlow.trans hhigh
    refine ⟨⟨started base h.mem, base, h.kernel⟩, rfl, freeList_started hdata hfits,
      List.mem_cons_self, hlow, hhigh, ?_⟩
    exact malloc_first hfreep (hdata.trans hlow) hhigh nbytes
  · exact ⟨h, rfl, hlist, hfreep, hlow, hhigh,
      hlist.malloc_eq hfreep hlow hheap.nonnull nbytes⟩

theorem FreeList.turns_left {top : Nat} {m : Memory} (hfree : FreeList base top m frees)
    (htop : top ≤ 2 ^ 32) :
    frees.length < TURNS ∧ 2 ^ 30 ≤ TURNS - (frees.length + 1) := by
  have hmany := hfree.length_lt htop
  unfold TURNS
  omega

/-- The result when the kernel grants what `morecore` asks for as a positive number, or
when a free block is large enough. -/
theorem ProcessHeap.small (hheap : ProcessHeap base h frees)
    (hu : 8 * (units (nunits nbytes)).toNat < 2 ^ 31) :
    (∃ p next, malloc (sizes kalloc) base nbytes h = .ok (p, next) ∧ 8 < p.toNat ∧
      p.toNat + 8 * (nunits nbytes).toNat ≤ next.kernel + 8 ∧ next.kernel < KERNBASE ∧
      (frees = [] → growproc kalloc (8 * (units (nunits nbytes)).toNat : Nat) h.kernel ≠
        none)) ∨
    (∃ next, malloc (sizes kalloc) base nbytes h = .ok (0, next)) ∧
      (∀ x ∈ frees, x.size < nunits nbytes) ∧
      growproc kalloc (8 * (units (nunits nbytes)).toNat : Nat) h.kernel = none := by
  have hsize := hheap.size
  have hnunits := toNat_nunits nbytes
  have hpos : 0 < (nunits nbytes).toNat := by omega
  obtain ⟨start, hkernel, hlist, hfreep, hlow, hhigh, hrun⟩ := hheap.begin nbytes kalloc
  have hfits : h.kernel < 2 ^ 32 := by
    unfold KERNBASE at hsize
    omega
  obtain ⟨hturns, hleft⟩ := hlist.turns_left hfits.le
  have hptr : ∀ {top : Nat} {frees frees' : List Block} {middle next : Heap Nat}
      {result : Except HeapStop (Word × Heap Nat)} {taken : Block},
      FreeList base top middle.mem frees → top < 2 ^ 32 →
      Taking base (nunits nbytes) top frees middle result taken frees' next →
      8 < (taken.addr + 8).toNat ∧
        (taken.addr + 8).toNat + 8 * (nunits nbytes).toNat ≤ top + 8 := by
    intro top frees frees' middle next result taken hlist htop htaking
    obtain ⟨hptr, hend⟩ := htaking.within hlist hpos htop
    obtain ⟨us, q, x, vs, left, hsplit, hcuts, -⟩ := htaking.allocates
    have hx := (mem_split hsplit).2.1
    obtain ⟨-, -, haddr⟩ := hcuts.stop hpos ((hlist.within x hx).trans htop.le)
    have hbase := hlist.base_le hx
    have hnonnull := hheap.nonnull
    omega
  rw [hrun]
  rcases hlist.taking hfreep hlow hhigh hpos hturns with
    ⟨taken, frees', next, htaking⟩ | ⟨hsmall, hgrow⟩
  · obtain ⟨hlarge, hend⟩ := hptr hlist hfits htaking
    refine .inl ⟨_, next, htaking.run, hlarge, ?_, ?_, ?_⟩
    · rw [htaking.kernel, hkernel]
      exact hend
    · rw [htaking.kernel, hkernel]
      exact hsize
    · rintro rfl
      obtain ⟨us, q, x, vs, left, hsplit, -⟩ := htaking.allocates
      have hlength := congrArg List.length hsplit
      simp only [nodes, List.length_cons, List.length_nil, List.length_append] at hlength
      omega
  · rw [hgrow]
    have hunits := (le_units (nunits nbytes)).2
    rcases @sysSbrk_grow kalloc _ _ hunits hu hsize with
      ⟨hnone, hsbrk⟩ | ⟨hsome, hbelow, hsbrk⟩
    · rw [← hkernel] at hsbrk
      exact .inr ⟨⟨_, grow_refused hsbrk⟩, hsmall, hnone⟩
    · rw [← hkernel] at hsbrk
      have hbrk : (BitVec.ofNat 32 start.kernel).toNat = h.kernel := by
        rw [hkernel, BitVec.toNat_ofNat]
        exact Nat.mod_eq_of_lt hfits
      have hne : BitVec.ofNat 32 start.kernel ≠ -1 := by
        intro heq
        rw [heq] at hbrk
        unfold KERNBASE at hsize
        rw [← hbrk] at hsize
        revert hsize
        decide
      have hlimit : h.kernel + 8 * (units (nunits nbytes)).toNat ≤
          (sizes kalloc).limit (h.kernel + 8 * (units (nunits nbytes)).toNat) :=
        Space.le_pgRoundUp _
      have hlimit' : (sizes kalloc).limit
          (h.kernel + 8 * (units (nunits nbytes)).toNat) ≤ 2 ^ 32 := by
        change pgRoundUp _ ≤ 2 ^ 32
        simp only [pgRoundUp, PGSIZE, KERNBASE] at hbelow ⊢
        omega
      rw [hkernel] at hbrk hsbrk hne
      obtain ⟨grown, middle, taken, frees', next, -, hgrown, -, hmiddle, -, htaking⟩ :=
        hlist.grow hfreep hlow hhigh hheap.nonnull hpos
          (by omega : 2 ^ 29 ≤ TURNS - (frees.length + 1)) (hkernel.symm ▸ hsbrk) hne
          hbrk.ge (by rw [hbrk]; exact hlimit) hlimit'
      have htop : (BitVec.ofNat 32 h.kernel).toNat + 8 * (units (nunits nbytes)).toNat <
          2 ^ 32 := by
        unfold KERNBASE at hbelow
        omega
      obtain ⟨hlarge, hend⟩ := hptr hgrown htop htaking
      refine .inl ⟨_, next, htaking.run, hlarge, ?_, ?_, ?_⟩
      · rw [htaking.kernel, hmiddle, ← hbrk]
        exact hend
      · rw [htaking.kernel, hmiddle]
        exact hbelow
      · intro _
        rw [hsome]
        exact Option.some_ne_none _

/-- The result when the amount is not positive as an `int`: the header of a block that
is not there may lie in the rest of the last page. -/
theorem ProcessHeap.large (hheap : ProcessHeap base h frees)
    (hlow : 2 ^ 28 ≤ (nunits nbytes).toNat) (hhigh : (nunits nbytes).toNat ≤ 2 ^ 29) :
    if h.kernel + 8 ≤ pgRoundUp (shrunk h.kernel (2 ^ 32 - 8 * (nunits nbytes).toNat)) then
      ∃ p next, malloc (sizes kalloc) base nbytes h = .ok (p, next) ∧
        p.toNat = h.kernel + 8 ∧ next.kernel ≤ h.kernel
    else malloc (sizes kalloc) base nbytes h = .error .fault ∨
      ∃ next, malloc (sizes kalloc) base nbytes h = .ok (0, next) := by
  have hsize := hheap.size
  have hdata := hheap.data
  have hpos : 0 < (nunits nbytes).toNat := by omega
  have hunits : units (nunits nbytes) = nunits nbytes := by
    unfold units
    rw [if_neg]
    rw [BitVec.lt_def]
    change ¬ _ < 4096
    omega
  obtain ⟨start, hkernel, hlist, hfreep, hmapped, hfits, hrun⟩ := hheap.begin nbytes kalloc
  have hlt : h.kernel < 2 ^ 28 := by
    unfold KERNBASE at hsize
    omega
  obtain ⟨hturns, hleft⟩ := hlist.turns_left (by omega)
  have hsmall : ∀ x ∈ frees, x.size < nunits nbytes := by
    intro x hx
    have hwithin := hlist.within x (List.mem_cons_of_mem _ hx)
    unfold Block.stop at hwithin
    rw [BitVec.lt_def]
    omega
  have hgrow : malloc (sizes kalloc) base nbytes h =
      grow (sizes kalloc) (nunits nbytes) (TURNS - (frees.length + 1)) start := by
    rw [hrun]
    rcases hlist.search hfreep hmapped hfits hpos hturns with
      ⟨us, q, x, vs, hsplit, hlarge, -⟩ | ⟨-, hgrow⟩
    · rcases List.mem_cons.mp (mem_split hsplit).2.1 with rfl | hx
      · have hzero : (nunits nbytes).toNat ≤ 0 := BitVec.le_def.mp hlarge
        omega
      · exact absurd hlarge (BitVec.not_le.mpr (hsmall x hx))
    · exact hgrow
  have hsbrk := @sysSbrk_shrink kalloc _ _ hlow hhigh (by omega : 0 < h.kernel) hsize
  have hshrunk : shrunk h.kernel (2 ^ 32 - 8 * (nunits nbytes).toNat) ≤ h.kernel := by
    unfold shrunk
    split <;> omega
  generalize shrunk h.kernel (2 ^ 32 - 8 * (nunits nbytes).toNat) = newsz at *
  rw [hgrow]
  by_cases hzero : newsz = 0
  · rw [if_neg (by rw [hzero]; simp only [pgRoundUp, PGSIZE]; omega)]
    rw [if_pos hzero, ← hunits, ← hkernel] at hsbrk
    exact .inr ⟨_, @grow_refused _ (sizes kalloc) _ _ _ _ hsbrk⟩
  · rw [if_neg hzero, ← hunits, ← hkernel] at hsbrk
    have hbrk : (BitVec.ofNat 32 start.kernel).toNat = h.kernel := by
      rw [hkernel, BitVec.toNat_ofNat]
      omega
    have hne : BitVec.ofNat 32 start.kernel ≠ -1 := by
      intro heq
      rw [heq] at hbrk
      rw [← hbrk] at hlt
      revert hlt
      decide
    have hlimit : (sizes kalloc).limit newsz ≤ 2 ^ 32 := by
      change pgRoundUp newsz ≤ 2 ^ 32
      simp only [pgRoundUp, PGSIZE]
      omega
    split
    next hroom =>
      rw [← hbrk] at hroom
      have hsbrk : (sizes kalloc).sbrk _ start.kernel = _ := hsbrk
      obtain ⟨next, hresult, hnext⟩ := hlist.grow_top hfreep hsbrk hne hunits hpos hsmall
        (by omega) hbrk.ge hroom hlimit hheap.nonnull hleft
      refine ⟨_, next, hresult, ?_, hnext.le.trans hshrunk⟩
      rw [BitVec.toNat_add, hbrk]
      change (h.kernel + 8) % 2 ^ 32 = _
      omega
    next hroom =>
      refine .inl ?_
      have hask : sbrk (sizes kalloc) (nunits nbytes * 8) start =
          .ok (BitVec.ofNat 32 start.kernel, { start with kernel := newsz }) := by
        unfold sbrk
        rw [hunits] at hsbrk
        rw [bind_of_ok rfl]
        have hsbrk : (sizes kalloc).sbrk (nunits nbytes * 8) start.kernel = _ := hsbrk
        rw [hsbrk]
        rfl
      have hfault : storeSize (sizes kalloc) (BitVec.ofNat 32 start.kernel) (nunits nbytes)
          { start with kernel := newsz } = .error .fault := by
        have hheader : (BitVec.ofNat 32 start.kernel + 4).toNat = h.kernel + 4 := by
          rw [BitVec.toNat_add, hbrk]
          change (h.kernel + 4) % 2 ^ 32 = _
          omega
        have hout : ¬ (BitVec.ofNat 32 start.kernel + 4).toNat + 4 ≤
            (sizes kalloc).limit newsz := by
          rw [hheader]
          exact hroom
        unfold storeSize store
        rw [bind_of_ok rfl, if_neg hout]
        rfl
      unfold grow
      refine bind_of_error ?_
      unfold morecore
      rw [← units, hunits, bind_of_ok hask, if_neg hne]
      exact bind_of_error hfault

/-- When `malloc` keeps its promise: for requests that stay positive as an `int`; for
larger ones, if the 8 bytes at the end of the process are not all mapped after it has
been resized by the amount that the kernel sees; and for the largest ones, which are
taken for a request of one unit, only if there is none to be had. -/
def Kept (kalloc : Nat → Bool) (nbytes : Word) (sz : Nat) (frees : List Block) : Prop :=
  nbytes.toNat < 2 ^ 31 - 15 ∨
  nbytes.toNat ≤ 2 ^ 32 - 8 ∧
    pgRoundUp (shrunk sz (2 ^ 32 - 8 * ((nbytes.toNat + 7) / 8 + 1))) < sz + 8 ∨
  2 ^ 32 - 8 < nbytes.toNat ∧ frees = [] ∧ growproc kalloc 32768 sz = none

theorem malloc_bounded_iff (kalloc : Nat → Bool) (nbytes : Word)
    (hheap : ProcessHeap base h frees) :
    Bounded nbytes (malloc (sizes kalloc) base nbytes h) ↔
      Kept kalloc nbytes h.kernel frees := by
  have hnunits := toNat_nunits nbytes
  have hsize := hheap.size
  have hbytes := nbytes.isLt
  unfold Kept
  by_cases hwrap : 2 ^ 32 - 8 < nbytes.toNat
  · -- `nunits` is 1.
    have hone : (nunits nbytes).toNat = 1 := by omega
    have hunits : units (nunits nbytes) = 4096 := by
      unfold units
      rw [if_pos]
      rw [BitVec.lt_def, hone]
      decide
    have hamount : ((8 * (units (nunits nbytes)).toNat : Nat) : Int) = 32768 := by
      rw [hunits]
      rfl
    have hu : 8 * (units (nunits nbytes)).toNat < 2 ^ 31 := by
      rw [hunits]
      decide
    rcases @ProcessHeap.small base nbytes h frees kalloc hheap hu with
      ⟨p, next, hrun, hp, -, hnext, hgranted⟩ | ⟨⟨next, hrun⟩, hsmall, hnone⟩
    · rw [hrun]
      rw [hamount] at hgranted
      have hne : p ≠ 0 := by
        rintro rfl
        exact absurd hp (by decide)
      unfold KERNBASE at hnext
      constructor
      · rintro (hzero | hle)
        · exact absurd hzero hne
        · omega
      · rintro (hlt | ⟨hle, -⟩ | ⟨-, hfrees, hnone⟩)
        · omega
        · omega
        · exact absurd hnone (hgranted hfrees)
    · rw [hrun]
      rw [hamount] at hnone
      refine ⟨fun _ => .inr (.inr ⟨hwrap, ?_, hnone⟩), fun _ => .inl rfl⟩
      rcases hheap.state with ⟨-, hfrees⟩ | ⟨hlist, -⟩
      · exact hfrees
      · refine List.eq_nil_iff_forall_not_mem.mpr fun x hx => ?_
        have hlt := BitVec.lt_def.mp (hsmall x hx)
        have hfull := hlist.full x hx
        omega
  · by_cases hsmall : nbytes.toNat < 2 ^ 31 - 15
    · refine iff_of_true ?_ (.inl hsmall)
      have hu : 8 * (units (nunits nbytes)).toNat < 2 ^ 31 := by
        unfold units
        split
        · decide
        · omega
      rcases @ProcessHeap.small base nbytes h frees kalloc hheap hu with
        ⟨p, next, hrun, -, hend, -⟩ | ⟨⟨next, hrun⟩, -⟩
      · rw [hrun]
        exact .inr (by omega)
      · rw [hrun]
        exact .inl rfl
    · have hdiv : (nunits nbytes).toNat = (nbytes.toNat + 7) / 8 + 1 := by omega
      have hlarge := @ProcessHeap.large base nbytes h frees kalloc hheap (by omega)
        (by omega)
      rw [hdiv] at hlarge
      split at hlarge
      next hroom =>
        obtain ⟨p, next, hrun, hp, hnext⟩ := hlarge
        rw [hrun]
        have hne : p ≠ 0 := by
          rintro rfl
          have hnone : (0 : Word).toNat = 0 := rfl
          omega
        constructor
        · rintro (hzero | hle)
          · exact absurd hzero hne
          · omega
        · omega
      next hroom =>
        refine iff_of_true ?_ (.inr (.inl ⟨by omega, by omega⟩))
        rcases hlarge with hrun | ⟨next, hrun⟩
        · rw [hrun]
          trivial
        · rw [hrun]
          exact .inl rfl

def twoPages : Heap Nat where
  mem _ := 0
  freep := 0
  kernel := 2 * PGSIZE

theorem processHeap_twoPages : ProcessHeap 4080 twoPages [] where
  nonnull := by decide
  data := by decide
  size := by decide
  state := .inl ⟨rfl, rfl⟩

theorem malloc_bounded_iff_twoPages :
    Bounded 100 (malloc (sizes fun _ => true) 4080 100 twoPages) :=
  (malloc_bounded_iff (fun _ => true) 100 processHeap_twoPages).mpr (.inl (by decide))

/-- A request of `2 ^ 32 - 1` bytes is rounded to one unit, and granted. -/
theorem malloc_largest_request :
    ∃ p next, malloc (sizes fun _ => true) 4080 0xffffffff twoPages = .ok (p, next) ∧
      p ≠ 0 ∧ next.kernel < p.toNat + (0xffffffff : Word).toNat := by
  have hu : 8 * (units (nunits 0xffffffff)).toNat < 2 ^ 31 := by decide
  rcases processHeap_twoPages.small hu with
    ⟨p, next, hrun, hp, -, hnext, -⟩ | ⟨-, -, hnone⟩
  · refine ⟨p, next, hrun, ?_, ?_⟩
    · rintro rfl
      exact absurd hp (by decide)
    · have hbytes : (0xffffffff : Word).toNat = 2 ^ 32 - 1 := rfl
      unfold KERNBASE at hnext
      omega
  · exact absurd hnone (by decide)

end Call

end KernelThreads.User
