import KernelThreads.Lib.Links
import KernelThreads.Lib.Meets
import KernelThreads.User.Malloc

namespace KernelThreads.User

open Lib Program

def nextOf (m : Memory) (p : Word) : Word := m.word p

def unitsOf (m : Memory) (p : Word) : Word := m.word (p + 4)

def putNext (m : Memory) (p w : Word) : Memory := m.setWord p w

def putUnits (m : Memory) (p w : Word) : Memory := m.setWord (p + 4) w

def Fits (p : Word) : Prop := p.toNat + 8 ≤ 2 ^ 32

def Apart (p q : Word) : Prop := p.toNat + 8 ≤ q.toNat ∨ q.toNat + 8 ≤ p.toNat

theorem Apart.symm {p q : Word} (h : Apart p q) : Apart q p := Or.symm h

def SameBut (p : Word) (m next : Memory) : Prop := ∀ a : Word,
  (a.toNat < p.toNat ∨ p.toNat + 8 ≤ a.toNat) → next a = m a

section Headers

variable {m next : Memory} {p q : Word} (w : Word)

theorem Fits.toNat_size (hp : Fits p) : (p + 4).toNat = p.toNat + 4 := by
  unfold Fits at hp
  rw [BitVec.toNat_add]
  change (p.toNat + 4) % 2 ^ 32 = _
  omega

@[simp] theorem nextOf_putNext (m : Memory) (p : Word) : nextOf (putNext m p w) p = w :=
  Memory.word_setWord_same ..

@[simp] theorem unitsOf_putUnits (m : Memory) (p : Word) :
    unitsOf (putUnits m p w) p = w :=
  Memory.word_setWord_same ..

theorem nextOf_putUnits (hp : Fits p) : nextOf (putUnits m p w) p = nextOf m p := by
  have hsize := hp.toNat_size
  unfold Fits at hp
  exact Memory.word_setWord_other w (by omega) (by omega) (by omega)

theorem unitsOf_putNext (hp : Fits p) : unitsOf (putNext m p w) p = unitsOf m p := by
  have hsize := hp.toNat_size
  unfold Fits at hp
  exact Memory.word_setWord_other w (by omega) (by omega) (by omega)

theorem SameBut.trans {last : Memory} (h : SameBut p m next) (h' : SameBut p next last) :
    SameBut p m last := fun a ha => (h' a ha).trans (h a ha)

theorem sameBut_putNext (hp : Fits p) : SameBut p m (putNext m p w) := by
  intro a ha
  unfold Fits at hp
  apply Memory.setWord_other
  rw [BitVec.toNat_sub]
  omega

theorem sameBut_putUnits (hp : Fits p) : SameBut p m (putUnits m p w) := by
  intro a ha
  have hsize := hp.toNat_size
  unfold Fits at hp
  apply Memory.setWord_other
  rw [BitVec.toNat_sub, hsize]
  omega

theorem SameBut.word (h : SameBut p m next) {a : Word} (ha : a.toNat + 4 ≤ 2 ^ 32)
    (hapart : a.toNat + 4 ≤ p.toNat ∨ p.toNat + 8 ≤ a.toNat) :
    next.word a = m.word a := by
  apply Memory.word_congr
  intro k hk
  apply h
  rw [BitVec.toNat_add, BitVec.toNat_ofNat]
  omega

theorem SameBut.nextOf (h : SameBut p m next) (hq : Fits q) (hapart : Apart p q) :
    nextOf next q = nextOf m q := by
  unfold Fits at hq
  unfold Apart at hapart
  exact h.word (by omega) (by omega)

theorem SameBut.unitsOf (h : SameBut p m next) (hq : Fits q) (hapart : Apart p q) :
    unitsOf next q = unitsOf m q := by
  have hsize := hq.toNat_size
  unfold Fits at hq
  unfold Apart at hapart
  exact h.word (by omega) (by omega)

end Headers

/-! The list of free blocks, in ascending order after `base`, which has size 0. -/

structure Block where
  addr : Word
  size : Word
  deriving DecidableEq, Repr

namespace Block

def stop (b : Block) : Nat := b.addr.toNat + 8 * b.size.toNat

structure Below (b c : Block) : Prop where
  header : b.addr.toNat + 8 ≤ c.addr.toNat
  gap : b.stop < c.addr.toNat

theorem Below.apart {b c : Block} (h : Below b c) : Apart b.addr c.addr := .inl h.header

theorem Below.trans {b c d : Block} (h : Below b c) (h' : Below c d) : Below b d := by
  have hheader := h.header
  have hheader' := h'.header
  have hgap := h.gap
  exact ⟨by omega, by omega⟩

end Block

def nodes (base : Word) (frees : List Block) : List Block := ⟨base, 0⟩ :: frees

structure FreeList (base : Word) (top : Nat) (m : Memory) (frees : List Block) :
    Prop where
  ring : Ring (fun a b => nextOf m a = b) base (frees.map Block.addr)
  sizes : ∀ b ∈ nodes base frees, unitsOf m b.addr = b.size
  order : (nodes base frees).Pairwise Block.Below
  full : ∀ b ∈ frees, 0 < b.size.toNat
  header : ∀ b ∈ nodes base frees, b.addr.toNat + 8 ≤ top
  within : ∀ b ∈ nodes base frees, b.stop ≤ top

section Split

variable {base : Word} {top : Nat} {m : Memory} {frees us vs : List Block}
variable {p : Block} {R : Word → Word → Prop}

theorem ring_split (h : nodes base frees = us ++ p :: vs) :
    Ring R base (frees.map Block.addr) ↔
      Ring R p.addr ((vs ++ us).map Block.addr) := by
  cases us with
  | nil =>
      obtain ⟨rfl, rfl⟩ := List.cons.inj h
      rw [List.append_nil]
  | cons u us =>
      rw [nodes, List.cons_append] at h
      obtain ⟨rfl, rfl⟩ := List.cons.inj h
      rw [List.map_append, List.map_append, List.map_cons, List.map_cons]
      exact ring_rotate

theorem FreeList.ring_at (hfree : FreeList base top m frees)
    (h : nodes base frees = us ++ p :: vs) :
    Ring (fun a b => nextOf m a = b) p.addr ((vs ++ us).map Block.addr) :=
  (ring_split h).mp hfree.ring

theorem FreeList.next_cons {v : Block} (hfree : FreeList base top m frees)
    (h : nodes base frees = us ++ p :: v :: vs) : nextOf m p.addr = v.addr :=
  (List.isChain_cons_cons.mp (hfree.ring_at h)).1

theorem FreeList.next_last (hfree : FreeList base top m frees)
    (h : nodes base frees = us ++ [p]) : nextOf m p.addr = base := by
  have hring := hfree.ring_at h
  cases us with
  | nil =>
      obtain ⟨rfl, -⟩ := List.cons.inj h
      exact ring_nil.mp hring
  | cons u us =>
      obtain ⟨rfl, -⟩ := List.cons.inj h
      exact (List.isChain_cons_cons.mp hring).1

theorem FreeList.walk (hfree : FreeList base top m frees) {q : Word}
    (hq : q ∈ (nodes base frees).map Block.addr) :
    ∃ walk, Ring (fun a b => nextOf m a = b) q walk ∧
      (∀ x, x ∈ q :: walk ↔ ∃ c ∈ nodes base frees, c.addr = x) ∧ q ∉ walk ∧
      walk.length = frees.length := by
  obtain ⟨start, hstart, rfl⟩ := List.mem_map.mp hq
  obtain ⟨us, vs, hsplit⟩ := List.append_of_mem hstart
  refine ⟨(vs ++ us).map Block.addr, hfree.ring_at hsplit, ?_, ?_, ?_⟩
  · intro x
    rw [hsplit, ← List.map_cons, List.mem_map]
    simp only [List.mem_cons, List.mem_append]
    grind
  · intro hin
    obtain ⟨c, hc, haddr⟩ := List.mem_map.mp hin
    have horder := hfree.order
    rw [hsplit] at horder
    obtain ⟨-, hafter, hacross⟩ := List.pairwise_append.mp horder
    rcases List.mem_append.mp hc with hc | hc
    · have hheader := ((List.pairwise_cons.mp hafter).1 c hc).header
      rw [haddr] at hheader
      omega
    · have hheader := (hacross c hc start List.mem_cons_self).header
      rw [haddr] at hheader
      omega
  · have hsame := congrArg List.length hsplit
    simp only [nodes, List.length_map, List.length_cons, List.length_append] at hsame ⊢
    omega

theorem FreeList.fits (hfree : FreeList base top m frees) (htop : top ≤ 2 ^ 32)
    {b : Block} (hb : b ∈ nodes base frees) : Fits b.addr :=
  (hfree.header b hb).trans htop

theorem FreeList.base_le (hfree : FreeList base top m frees) {b : Block}
    (hb : b ∈ nodes base frees) : base.toNat ≤ b.addr.toNat := by
  rcases List.mem_cons.mp hb with rfl | hin
  · exact le_rfl
  · have hbelow := ((List.pairwise_cons.mp hfree.order).1 b hin).header
    exact (Nat.le_add_right _ 8).trans hbelow

theorem length_nodes_le {b : Block} {bs : List Block}
    (horder : (b :: bs).Pairwise Block.Below)
    (hheader : ∀ c ∈ b :: bs, c.addr.toNat + 8 ≤ top) :
    b.addr.toNat + 8 * (bs.length + 1) ≤ top := by
  induction bs generalizing b with
  | nil => exact hheader b List.mem_cons_self
  | cons c bs ih =>
      obtain ⟨hfirst, hrest⟩ := List.pairwise_cons.mp horder
      have hlast := ih hrest fun d hd => hheader d (List.mem_cons_of_mem _ hd)
      have hgap := (hfirst c List.mem_cons_self).header
      rw [List.length_cons]
      omega

theorem FreeList.length_lt (hfree : FreeList base top m frees) (htop : top ≤ 2 ^ 32) :
    8 * (frees.length + 1) ≤ 2 ^ 32 := by
  have hlength := length_nodes_le hfree.order hfree.header
  omega

end Split

def Outside (blocks : List Block) (a : Word) : Prop := ∀ c ∈ blocks,
  a.toNat < c.addr.toNat ∨ c.addr.toNat + 8 ≤ a.toNat

section Frame

variable {base : Word} {top : Nat} {m next : Memory} {frees : List Block}

theorem word_of_bytes {p a : Word} (hp : Fits p)
    (h : ∀ x : Word, p.toNat ≤ x.toNat → x.toNat < p.toNat + 8 → next x = m x)
    (hlow : p.toNat ≤ a.toNat) (hhigh : a.toNat + 4 ≤ p.toNat + 8) :
    next.word a = m.word a := by
  unfold Fits at hp
  apply Memory.word_congr
  intro k hk
  apply h
  · rw [BitVec.toNat_add, BitVec.toNat_ofNat]
    omega
  · rw [BitVec.toNat_add, BitVec.toNat_ofNat]
    omega

theorem FreeList.frame (hfree : FreeList base top m frees) (htop : top ≤ 2 ^ 32)
    (h : ∀ a, ¬ Outside (nodes base frees) a → next a = m a) :
    FreeList base top next frees := by
  have hbytes : ∀ c ∈ nodes base frees, ∀ x : Word, c.addr.toNat ≤ x.toNat →
      x.toNat < c.addr.toNat + 8 → next x = m x := by
    intro c hc x hlow hhigh
    refine h x fun hout => ?_
    have hplace := hout c hc
    omega
  have hnext : ∀ c ∈ nodes base frees, nextOf next c.addr = nextOf m c.addr := by
    intro c hc
    exact word_of_bytes (hfree.fits htop hc) (hbytes c hc) le_rfl (by omega)
  have hunits : ∀ c ∈ nodes base frees, unitsOf next c.addr = unitsOf m c.addr := by
    intro c hc
    have hsize := (hfree.fits htop hc).toNat_size
    exact word_of_bytes (hfree.fits htop hc) (hbytes c hc) (by omega) (by omega)
  refine ⟨?_, ?_, hfree.order, hfree.full, hfree.header, hfree.within⟩
  · refine chain_relink hfree.ring ?_ ?_
    · intro y hy
      exact (hnext _ List.mem_cons_self).trans hy
    · intro x hx y hy
      obtain ⟨c, hc, rfl⟩ := List.mem_map.mp hx
      exact (hnext c (List.mem_cons_of_mem _ hc)).trans hy
  · intro c hc
    rw [hunits c hc]
    exact hfree.sizes c hc

theorem FreeList.mono {top' : Nat} (hfree : FreeList base top m frees) (h : top ≤ top') :
    FreeList base top' m frees :=
  ⟨hfree.ring, hfree.sizes, hfree.order, hfree.full,
    fun b hb => (hfree.header b hb).trans h, fun b hb => (hfree.within b hb).trans h⟩

end Frame

section Place

variable {κ : Type} {sys : Breaks κ} {h : Heap κ} {a p bp : Word}

theorem load_run (ha : a.toNat + 4 ≤ sys.limit h.kernel) :
    load sys a h = .ok (h.mem.word a, h) := by
  unfold load
  rw [bind_of_ok rfl, if_pos ha]
  rfl

theorem store_run (w : Word) (ha : a.toNat + 4 ≤ sys.limit h.kernel) :
    store sys a w h = .ok ((), { h with mem := h.mem.setWord a w }) := by
  unfold store
  rw [bind_of_ok rfl, if_pos ha]
  rfl

def Stops (m : Memory) (bp p : Word) : Prop :=
  p < bp ∧ bp < nextOf m p ∨ nextOf m p ≤ p ∧ (p < bp ∨ bp < nextOf m p)

theorem findPlace_run {walk : List Word} {last : Word} {turns : Nat}
    (hchain : List.IsChain (fun a b => nextOf h.mem a = b) (p :: (walk ++ [last])))
    (hmapped : ∀ q ∈ p :: walk, q.toNat + 4 ≤ sys.limit h.kernel)
    (hstop : ∃ q ∈ p :: walk, Stops h.mem bp q) (hturns : walk.length < turns) :
    ∃ q ∈ p :: walk, Stops h.mem bp q ∧ findPlace sys bp turns p h = .ok (q, h) := by
  induction walk generalizing p turns with
  | nil =>
      obtain ⟨turns, rfl⟩ := Nat.exists_eq_succ_of_ne_zero (by omega : turns ≠ 0)
      obtain ⟨q, hq, hstop⟩ := hstop
      obtain rfl := List.mem_singleton.mp hq
      refine ⟨q, hq, hstop, ?_⟩
      unfold findPlace
      rw [loadPtr, bind_of_ok (load_run (hmapped q hq))]
      rcases hstop with hbetween | hwrap
      · exact congrFun (if_pos hbetween) h
      · split
        · rfl
        · exact congrFun (if_pos hwrap) h
  | cons q walk ih =>
      obtain ⟨turns, rfl⟩ := Nat.exists_eq_succ_of_ne_zero (by omega : turns ≠ 0)
      rw [List.cons_append, List.isChain_cons_cons] at hchain
      unfold findPlace
      rw [loadPtr, bind_of_ok (load_run (hmapped p List.mem_cons_self))]
      by_cases hhere : Stops h.mem bp p
      · refine ⟨p, List.mem_cons_self, hhere, ?_⟩
        rcases hhere with hbetween | hwrap
        · exact congrFun (if_pos hbetween) h
        · split
          · rfl
          · exact congrFun (if_pos hwrap) h
      · obtain ⟨hbetween, hwrap⟩ := not_or.mp hhere
        have hlater : ∃ x ∈ q :: walk, Stops h.mem bp x := by
          obtain ⟨x, hx, hstop⟩ := hstop
          rcases List.mem_cons.mp hx with rfl | hx
          · exact absurd hstop hhere
          · exact ⟨x, hx, hstop⟩
        have hfewer : walk.length < turns := Nat.lt_of_succ_lt_succ hturns
        obtain ⟨x, hx, hstops, hrun⟩ := ih hchain.2
          (fun x hx => hmapped x (List.mem_cons_of_mem _ hx)) hlater hfewer
        refine ⟨x, List.mem_cons_of_mem _ hx, hstops, ?_⟩
        rw [← hchain.1] at hrun
        exact ((congrFun (if_neg hbetween) h).trans (congrFun (if_neg hwrap) h)).trans hrun

variable {base : Word} {top : Nat} {frees us vs : List Block} {m : Memory} {b : Block}

theorem FreeList.stops_iff (hfree : FreeList base top m frees)
    (hsplit : nodes base frees = us ++ b :: vs) (hbase : base.toNat < bp.toNat) :
    Stops m bp b.addr ↔ b.addr.toNat < bp.toNat ∧ ∀ v ∈ vs, bp.toNat < v.addr.toNat := by
  have horder := hfree.order
  rw [hsplit] at horder
  have hafter := (List.pairwise_append.mp horder).2.1
  have hlow := hfree.base_le (b := b) (by rw [hsplit]; simp)
  unfold Stops
  simp only [BitVec.lt_def, BitVec.le_def]
  cases vs with
  | nil =>
      rw [hfree.next_last hsplit]
      simp only [List.not_mem_nil, false_implies, implies_true, and_true]
      omega
  | cons v vs =>
      rw [hfree.next_cons hsplit]
      obtain ⟨hfirst, hrest⟩ := List.pairwise_cons.mp hafter
      have hnext := (hfirst v List.mem_cons_self).header
      constructor
      · intro hstops
        have hlt : bp.toNat < v.addr.toNat := by omega
        refine ⟨by omega, fun w hw => ?_⟩
        rcases List.mem_cons.mp hw with rfl | hw
        · exact hlt
        · have hlater := ((List.pairwise_cons.mp hrest).1 w hw).header
          omega
      · rintro ⟨hbefore, hall⟩
        have hlt := hall v List.mem_cons_self
        omega

theorem FreeList.findPlace (hfree : FreeList base top h.mem frees)
    (hfreep : h.freep ∈ (nodes base frees).map Block.addr)
    (hlimit : top ≤ sys.limit h.kernel) (htop : top ≤ 2 ^ 32)
    (hbase : base.toNat < bp.toNat) (hne : ∀ c ∈ nodes base frees, c.addr ≠ bp) :
    ∃ us p vs, nodes base frees = us ++ p :: vs ∧
      (∀ u ∈ us ++ [p], u.addr.toNat < bp.toNat) ∧
      (∀ v ∈ vs, bp.toNat < v.addr.toNat) ∧
      findPlace sys bp TURNS h.freep h = .ok (p.addr, h) := by
  -- The node at which the loop ends.
  have hsome : ∃ c ∈ nodes base frees, c.addr.toNat < bp.toNat :=
    ⟨_, List.mem_cons_self, hbase⟩
  obtain ⟨us, p, vs, hsplit, hp, hvs⟩ := exists_last hsome
  have hvs' : ∀ v ∈ vs, bp.toNat < v.addr.toNat := by
    intro v hv
    have hle := hvs v hv
    have hother := hne v (by rw [hsplit]; simp [hv])
    rw [ne_eq, ← BitVec.toNat_inj] at hother
    omega
  obtain ⟨walk, hring, hwalk, -, hlength⟩ := hfree.walk hfreep
  have hmany := hfree.length_lt htop
  have hmapped : ∀ q ∈ h.freep :: walk, q.toNat + 4 ≤ sys.limit h.kernel := by
    intro q hq
    obtain ⟨c, hc, rfl⟩ := (hwalk q).mp hq
    have hheader := hfree.header c hc
    omega
  have hstop : ∃ q ∈ h.freep :: walk, Stops h.mem bp q :=
    ⟨p.addr, (hwalk _).mpr ⟨p, by rw [hsplit]; simp, rfl⟩,
      (hfree.stops_iff hsplit hbase).mpr ⟨hp, hvs'⟩⟩
  have hturns : walk.length < TURNS := by
    rw [hlength]
    unfold TURNS
    omega
  obtain ⟨q, hq, hstops, hrun⟩ := findPlace_run hring hmapped hstop hturns
  obtain ⟨c, hc, rfl⟩ := (hwalk q).mp hq
  obtain ⟨us', vs', hsplit''⟩ := List.append_of_mem hc
  obtain ⟨hlt, hlater⟩ := (hfree.stops_iff hsplit'' hbase).mp hstops
  refine ⟨us', c, vs', hsplit'', ?_, hlater, hrun⟩
  intro u hu
  rcases List.mem_append.mp hu with hu | hu
  · have horder := hfree.order
    rw [hsplit''] at horder
    have hheader := ((List.pairwise_append.mp horder).2.2 u hu c List.mem_cons_self).header
    omega
  · obtain rfl := List.mem_singleton.mp hu
    exact hlt

end Place

def linkNext (m : Memory) (p bp : Word) : Memory :=
  if unit bp (unitsOf m bp) = nextOf m p then
    let joined := putUnits m bp (unitsOf m bp + unitsOf m (nextOf m p))
    putNext joined bp (nextOf joined (nextOf m p))
  else putNext m bp (nextOf m p)

def linkPrev (m : Memory) (p bp : Word) : Memory :=
  if unit p (unitsOf m p) = bp then
    let joined := putUnits m p (unitsOf m p + unitsOf m bp)
    putNext joined p (nextOf joined bp)
  else putNext m p bp

section Runs

variable {κ : Type} {sys : Breaks κ} {h : Heap κ} {p bp : Word}

theorem loadPtr_run (hp : p.toNat + 8 ≤ sys.limit h.kernel) :
    loadPtr sys p h = .ok (nextOf h.mem p, h) :=
  load_run (by omega)

theorem storePtr_run (w : Word) (hp : p.toNat + 8 ≤ sys.limit h.kernel) :
    storePtr sys p w h = .ok ((), { h with mem := putNext h.mem p w }) :=
  store_run w (by omega)

variable (hfits : sys.limit h.kernel ≤ 2 ^ 32)

include hfits

theorem loadSize_run (hp : p.toNat + 8 ≤ sys.limit h.kernel) :
    loadSize sys p h = .ok (unitsOf h.mem p, h) := by
  have hsize : (p + 4).toNat = p.toNat + 4 := Fits.toNat_size (hp.trans hfits)
  exact load_run (by omega)

theorem storeSize_run (w : Word) (hp : p.toNat + 8 ≤ sys.limit h.kernel) :
    storeSize sys p w h = .ok ((), { h with mem := putUnits h.mem p w }) := by
  have hsize : (p + 4).toNat = p.toNat + 4 := Fits.toNat_size (hp.trans hfits)
  exact store_run w (by omega)

theorem joinNext_run (hp : p.toNat + 8 ≤ sys.limit h.kernel)
    (hbp : bp.toNat + 8 ≤ sys.limit h.kernel)
    (hnext : (nextOf h.mem p).toNat + 8 ≤ sys.limit h.kernel) :
    joinNext sys p bp h = .ok ((), { h with mem := linkNext h.mem p bp }) := by
  unfold joinNext linkNext
  rw [bind_of_ok (loadSize_run hfits hbp), bind_of_ok (loadPtr_run hp)]
  split
  · rw [bind_of_ok (loadSize_run hfits hnext), bind_of_ok (storeSize_run hfits _ hbp)]
    rw [bind_of_ok (loadPtr_run (h := { h with mem := putUnits h.mem bp _ }) hnext)]
    exact storePtr_run (h := { h with mem := putUnits h.mem bp _ }) _ hbp
  · exact storePtr_run _ hbp

theorem joinPrev_run (hp : p.toNat + 8 ≤ sys.limit h.kernel)
    (hbp : bp.toNat + 8 ≤ sys.limit h.kernel) :
    joinPrev sys p bp h = .ok ((), { h with mem := linkPrev h.mem p bp }) := by
  unfold joinPrev linkPrev
  rw [bind_of_ok (loadSize_run hfits hp)]
  split
  · rw [bind_of_ok (loadSize_run hfits hbp), bind_of_ok (storeSize_run hfits _ hp)]
    rw [bind_of_ok (loadPtr_run (h := { h with mem := putUnits h.mem p _ }) hbp)]
    exact storePtr_run (h := { h with mem := putUnits h.mem p _ }) _ hp
  · exact storePtr_run _ hp

end Runs

/-- The block together with the one after it, if they touch. -/
def joinRight (b : Block) : List Block → Block × List Block
  | v :: vs =>
      if b.stop = v.addr.toNat then (⟨b.addr, b.size + v.size⟩, vs) else (b, v :: vs)
  | [] => (b, [])

/-- The block together with the one before it, if they touch. -/
def joinLeft (p b : Block) (vs : List Block) : List Block :=
  if p.stop = b.addr.toNat then ⟨p.addr, p.size + b.size⟩ :: vs else p :: b :: vs

theorem toNat_unit (b : Block) : (unit b.addr b.size).toNat = b.stop % 2 ^ 32 := by
  unfold unit Block.stop
  rw [BitVec.toNat_add, BitVec.toNat_mul]
  change (b.addr.toNat + 8 * b.size.toNat % 2 ^ 32) % 2 ^ 32 = _
  omega

theorem unit_eq_iff {b : Block} {q : Word} (hstop : b.stop ≤ 2 ^ 32) (hq : 0 < q.toNat) :
    unit b.addr b.size = q ↔ b.stop = q.toNat := by
  rw [← BitVec.toNat_inj, toNat_unit]
  have hlt := q.isLt
  omega

theorem stop_join {b c : Block} (h : b.stop = c.addr.toNat) (hstop : c.stop ≤ 2 ^ 32) :
    (⟨b.addr, b.size + c.size⟩ : Block).stop = c.stop := by
  unfold Block.stop at h hstop ⊢
  rw [BitVec.toNat_add]
  dsimp only
  omega

section Insert

variable {base : Word} {top : Nat} {m : Memory} {frees us vs : List Block} {p b : Block}

structure Lies (top : Nat) (m : Memory) (us : List Block) (p b : Block)
    (vs : List Block) : Prop where
  size : unitsOf m b.addr = b.size
  full : 0 < b.size.toNat
  header : ∀ u ∈ us ++ [p], u.addr.toNat + 8 ≤ b.addr.toNat
  before : ∀ u ∈ us ++ [p], u.stop ≤ b.addr.toNat
  after : ∀ v ∈ vs, b.stop ≤ v.addr.toNat
  within : b.stop ≤ top

structure Hangs (top : Nat) (m : Memory) (us : List Block) (p b : Block)
    (vs : List Block) : Prop where
  chain : List.IsChain (fun a b => nextOf m a = b)
    (b.addr :: ((vs ++ us).map Block.addr ++ [p.addr]))
  size : unitsOf m b.addr = b.size
  full : 0 < b.size.toNat
  within : b.stop ≤ top
  below : ∀ v ∈ vs, b.Below v

theorem Lies.header_le (h : Lies top m us p b vs) : b.addr.toNat + 8 ≤ b.stop := by
  have hfull := h.full
  unfold Block.stop
  omega

theorem addr_joinRight (b : Block) (vs : List Block) : (joinRight b vs).1.addr = b.addr := by
  cases vs with
  | nil => rfl
  | cons v vs =>
      simp only [joinRight]
      split <;> rfl

theorem suffix_joinRight (b : Block) (vs : List Block) : (joinRight b vs).2 <:+ vs := by
  cases vs with
  | nil => exact List.suffix_rfl
  | cons v vs =>
      simp only [joinRight]
      split
      · exact List.suffix_cons v vs
      · exact List.suffix_rfl

theorem FreeList.linkNext (hfree : FreeList base top m frees)
    (hsplit : nodes base frees = us ++ p :: vs) (hlies : Lies top m us p b vs)
    (htop : top ≤ 2 ^ 32) (hbase : 0 < base.toNat) :
    Hangs top (linkNext m p.addr b.addr) us p (joinRight b vs).1 (joinRight b vs).2 ∧
      SameBut b.addr m (linkNext m p.addr b.addr) := by
  have hstop : b.stop ≤ 2 ^ 32 := hlies.within.trans htop
  have hfits : Fits b.addr := hlies.header_le.trans hstop
  have hring := hfree.ring_at hsplit
  have hmem : ∀ c ∈ us ++ p :: vs, c ∈ nodes base frees := fun c hc => hsplit ▸ hc
  -- The other headers are not touched.
  have hapart : ∀ c ∈ vs ++ us, Apart b.addr c.addr := by
    intro c hc
    rcases List.mem_append.mp hc with hc | hc
    · exact .inl (hlies.header_le.trans (hlies.after c hc))
    · exact .inr (hlies.header c (List.mem_append_left _ hc))
  have hfitsAll : ∀ c ∈ vs ++ us, Fits c.addr := by
    intro c hc
    apply hfree.fits htop
    apply hmem
    simp only [List.mem_append, List.mem_cons] at hc ⊢
    tauto
  have hkept : ∀ {next : Memory}, SameBut b.addr m next → ∀ {cs : List Block},
      (∀ c ∈ cs, c ∈ vs ++ us) → ∀ x ∈ cs.map Block.addr, ∀ y,
        nextOf m x = y → nextOf next x = y := by
    intro next hsame cs hcs x hx y hxy
    obtain ⟨c, hc, rfl⟩ := List.mem_map.mp hx
    rw [hsame.nextOf (hfitsAll c (hcs c hc)) (hapart c (hcs c hc))]
    exact hxy
  unfold User.linkNext
  rw [hlies.size]
  cases vs with
  | nil =>
      have hnext := hfree.next_last hsplit
      have hlow : base.toNat < b.stop := by
        have hp := hlies.header p (by simp)
        have hle := hfree.base_le (hmem p (by simp))
        have hheader := hlies.header_le
        omega
      rw [hnext, if_neg (mt (unit_eq_iff hstop hbase).mp (by omega))]
      have hsame : SameBut b.addr m (putNext m b.addr base) := sameBut_putNext _ hfits
      refine ⟨⟨?_, ?_, hlies.full, hlies.within, ?_⟩, hsame⟩
      · refine chain_relink hring ?_ (hkept hsame fun c hc => hc)
        intro y hy
        rw [← hy, hnext]
        exact nextOf_putNext ..
      · exact (unitsOf_putNext _ hfits).trans hlies.size
      · exact fun v hv => absurd hv List.not_mem_nil
  | cons v vs =>
      have hv : v ∈ nodes base frees := hmem v (by simp)
      have hnext := hfree.next_cons hsplit
      have hvpos : 0 < v.addr.toNat := lt_of_lt_of_le hbase (hfree.base_le hv)
      have horder := hfree.order
      rw [hsplit] at horder
      have hlater : (v :: vs).Pairwise Block.Below :=
        (List.pairwise_cons.mp (List.pairwise_append.mp horder).2.1).2
      have hvs := (List.pairwise_cons.mp hlater).1
      rw [hnext]
      by_cases htouch : b.stop = v.addr.toNat
      · rw [if_pos ((unit_eq_iff hstop hvpos).mpr htouch)]
        simp only [joinRight, if_pos htouch]
        have hvstop : v.stop ≤ 2 ^ 32 := (hfree.within v hv).trans htop
        have hjoin := stop_join htouch hvstop
        have hin : v ∈ v :: vs ++ us := by simp
        have hunits : SameBut b.addr m
            (putUnits m b.addr (b.size + unitsOf m v.addr)) := sameBut_putUnits _ hfits
        rw [hunits.nextOf (hfitsAll v hin) (hapart v hin), hfree.sizes v hv] at *
        have hsame := hunits.trans (sameBut_putNext (nextOf m v.addr) hfits)
        refine ⟨⟨?_, ?_, ?_, ?_, ?_⟩, hsame⟩
        · have hchain := (List.isChain_cons_cons.mp hring).2
          refine chain_relink hchain ?_ (hkept hsame ?_)
          · intro y hy
            rw [← hy]
            exact nextOf_putNext ..
          · intro c hc
            simp only [List.cons_append, List.mem_cons]
            exact .inr hc
        · exact (unitsOf_putNext _ hfits).trans (unitsOf_putUnits ..)
        · have hfull := hlies.full
          unfold Block.stop at hjoin htouch
          dsimp only at hjoin ⊢
          omega
        · rw [hjoin]
          exact hfree.within v hv
        · intro w hw
          have hbelow := hvs w hw
          have hgap := hbelow.gap
          have hheader := hbelow.header
          have hle := hlies.header_le
          refine ⟨?_, ?_⟩
          · change b.addr.toNat + 8 ≤ _
            omega
          · rw [hjoin]
            exact hgap
      · rw [if_neg (mt (unit_eq_iff hstop hvpos).mp htouch)]
        simp only [joinRight, if_neg htouch]
        have hsame : SameBut b.addr m (putNext m b.addr v.addr) := sameBut_putNext _ hfits
        refine ⟨⟨?_, ?_, hlies.full, hlies.within, ?_⟩, hsame⟩
        · refine chain_relink hring ?_ (hkept hsame fun c hc => hc)
          intro y hy
          rw [← hy, hnext]
          exact nextOf_putNext ..
        · exact (unitsOf_putNext _ hfits).trans hlies.size
        · intro w hw
          have hle := hlies.after w hw
          have hheader := hlies.header_le
          refine ⟨by omega, ?_⟩
          rcases List.mem_cons.mp hw with rfl | hw
          · omega
          · have hlast := (hvs w hw).header
            have hfirst := hlies.after v List.mem_cons_self
            omega

def inserted (us : List Block) (p b : Block) (vs : List Block) : List Block :=
  us ++ joinLeft p (joinRight b vs).1 (joinRight b vs).2

theorem inserted_nodes (hsplit : nodes base frees = us ++ p :: vs)
    (hheader : ∀ u ∈ us ++ [p], u.addr.toNat + 8 ≤ b.addr.toNat) :
    ∃ frees', nodes base frees' = inserted us p b vs := by
  unfold inserted
  cases us with
  | nil =>
      obtain ⟨rfl, rfl⟩ := List.cons.inj hsplit
      have hbefore : base.toNat + 8 ≤ b.addr.toNat :=
        hheader ⟨base, 0⟩ (List.mem_singleton.mpr rfl)
      refine ⟨(joinRight b frees).1 :: (joinRight b frees).2, ?_⟩
      have hstop : (⟨base, 0⟩ : Block).stop ≠ (joinRight b frees).1.addr.toNat := by
        rw [addr_joinRight]
        change base.toNat + 8 * 0 ≠ _
        omega
      rw [List.nil_append, joinLeft, if_neg hstop]
      rfl
  | cons u us =>
      rw [nodes, List.cons_append] at hsplit
      obtain ⟨rfl, -⟩ := List.cons.inj hsplit
      exact ⟨us ++ joinLeft p (joinRight b vs).1 (joinRight b vs).2, rfl⟩

/-- The blocks around the new one, with what they say of its place. -/
structure Around (top : Nat) (us : List Block) (p b : Block) (vs : List Block) :
    Prop where
  order : (us ++ p :: vs).Pairwise Block.Below
  header : ∀ u ∈ us ++ [p], u.addr.toNat + 8 ≤ b.addr.toNat
  before : ∀ u ∈ us ++ [p], u.stop ≤ b.addr.toNat
  below : ∀ v ∈ vs, b.Below v
  within : b.stop ≤ top

theorem Around.touch (h : Around top us p b vs) (htouch : p.stop = b.addr.toNat)
    (htop : top ≤ 2 ^ 32) :
    (us ++ (⟨p.addr, p.size + b.size⟩ : Block) :: vs).Pairwise Block.Below := by
  have hjoin := stop_join htouch (h.within.trans htop)
  obtain ⟨hus, hpvs, hacross⟩ := List.pairwise_append.mp h.order
  obtain ⟨hp, hvs⟩ := List.pairwise_cons.mp hpvs
  refine List.pairwise_append.mpr ⟨hus, List.pairwise_cons.mpr ⟨?_, hvs⟩, ?_⟩
  · intro v hv
    refine ⟨(hp v hv).header, ?_⟩
    rw [hjoin]
    exact (h.below v hv).gap
  · intro u hu c hc
    rcases List.mem_cons.mp hc with rfl | hc
    · have hbelow := hacross u hu p List.mem_cons_self
      exact ⟨hbelow.header, hbelow.gap⟩
    · exact hacross u hu c (List.mem_cons_of_mem _ hc)

theorem Around.apart (h : Around top us p b vs) (htouch : p.stop ≠ b.addr.toNat) :
    (us ++ p :: b :: vs).Pairwise Block.Below := by
  obtain ⟨hus, hpvs, hacross⟩ := List.pairwise_append.mp h.order
  obtain ⟨hp, hvs⟩ := List.pairwise_cons.mp hpvs
  have hpb : p.Below b := by
    have hle := h.before p (by simp)
    exact ⟨h.header p (by simp), by omega⟩
  have hub : ∀ u ∈ us, u.Below b := fun u hu =>
    (hacross u hu p List.mem_cons_self).trans hpb
  refine List.pairwise_append.mpr ⟨hus, List.pairwise_cons.mpr ⟨?_,
    List.pairwise_cons.mpr ⟨h.below, hvs⟩⟩, ?_⟩
  · intro c hc
    rcases List.mem_cons.mp hc with rfl | hc
    · exact hpb
    · exact hp c hc
  · intro u hu c hc
    rcases List.mem_cons.mp hc with rfl | hc
    · exact hacross u hu c List.mem_cons_self
    · rcases List.mem_cons.mp hc with rfl | hc
      · exact hub u hu
      · exact hacross u hu c (List.mem_cons_of_mem _ hc)

theorem FreeList.around (hfree : FreeList base top m frees)
    (hsplit : nodes base frees = us ++ p :: vs) (hlies : Lies top m us p b vs)
    {next : Memory}
    (hhangs : Hangs top next us p (joinRight b vs).1 (joinRight b vs).2) :
    Around top us p (joinRight b vs).1 (joinRight b vs).2 := by
  have horder := hfree.order
  rw [hsplit] at horder
  refine ⟨?_, ?_, ?_, hhangs.below, hhangs.within⟩
  · refine horder.sublist (List.Sublist.append_left ?_ us)
    exact (suffix_joinRight b vs).sublist.cons_cons p
  · rw [addr_joinRight]
    exact hlies.header
  · rw [addr_joinRight]
    exact hlies.before

theorem FreeList.rebuild (hfree : FreeList base top m frees) {next : Memory}
    {frees' : List Block} (hnodes : nodes base frees' = us ++ p :: vs)
    (hring : Ring (fun a b => nextOf next a = b) p.addr ((vs ++ us).map Block.addr))
    (hsizes : ∀ c ∈ us ++ p :: vs, unitsOf next c.addr = c.size)
    (horder : (us ++ p :: vs).Pairwise Block.Below)
    (hblocks : ∀ c ∈ us ++ p :: vs, c ∈ nodes base frees ∨
      0 < c.size.toNat ∧ c.stop ≤ top) :
    FreeList base top next frees' := by
  rw [← hnodes] at hsizes horder hblocks
  refine ⟨(ring_split hnodes).mpr hring, hsizes, horder, ?_, ?_, ?_⟩
  · intro c hc
    rcases hblocks c (List.mem_cons_of_mem _ hc) with hold | ⟨hfull, -⟩
    · have hbelow := ((List.pairwise_cons.mp horder).1 c hc).header
      rcases List.mem_cons.mp hold with rfl | hin
      · dsimp only at hbelow
        omega
      · exact hfree.full c hin
    · exact hfull
  · intro c hc
    rcases hblocks c hc with hold | ⟨hfull, hwithin⟩
    · exact hfree.header c hold
    · unfold Block.stop at hwithin
      omega
  · intro c hc
    rcases hblocks c hc with hold | ⟨-, hwithin⟩
    · exact hfree.within c hold
    · exact hwithin

theorem FreeList.inserted_covers (hfree : FreeList base top m frees)
    (hsplit : nodes base frees = us ++ p :: vs) (hlies : Lies top m us p b vs)
    (htop : top ≤ 2 ^ 32) (hbase : 0 < base.toNat) :
    ∃ x ∈ inserted us p b vs, x.addr.toNat ≤ b.addr.toNat ∧ b.stop ≤ x.stop := by
  obtain ⟨hhangs, -⟩ := hfree.linkNext hsplit hlies htop hbase
  have haddr := addr_joinRight b vs
  have hright : b.stop ≤ (joinRight b vs).1.stop := by
    cases vs with
    | nil => exact le_rfl
    | cons v vs =>
        simp only [joinRight]
        split
        next htouch =>
          have hv : v ∈ nodes base frees := by
            rw [hsplit]
            simp
          rw [stop_join htouch ((hfree.within v hv).trans htop)]
          unfold Block.stop at htouch ⊢
          omega
        next => exact le_rfl
  have hwithin := hhangs.within
  unfold inserted joinLeft
  generalize (joinRight b vs).1 = b' at *
  split
  next htouch =>
    refine ⟨_, List.mem_append_right _ List.mem_cons_self, ?_, ?_⟩
    · have hheader := hlies.header p (by simp)
      dsimp only
      omega
    · rw [stop_join htouch (hwithin.trans htop)]
      exact hright
  next => exact ⟨b', by simp, haddr ▸ le_rfl, hright⟩

theorem FreeList.insert (hfree : FreeList base top m frees)
    (hsplit : nodes base frees = us ++ p :: vs) (hlies : Lies top m us p b vs)
    (htop : top ≤ 2 ^ 32) (hbase : 0 < base.toNat) {frees' : List Block}
    (hnodes : nodes base frees' = inserted us p b vs) :
    FreeList base top (linkPrev (User.linkNext m p.addr b.addr) p.addr b.addr) frees' ∧
      SameBut p.addr (User.linkNext m p.addr b.addr)
        (linkPrev (User.linkNext m p.addr b.addr) p.addr b.addr) := by
  obtain ⟨hhangs, hsame⟩ := hfree.linkNext hsplit hlies htop hbase
  have haround := hfree.around hsplit hlies hhangs
  have haddr := addr_joinRight b vs
  have hsub : ∀ c ∈ (joinRight b vs).2, c ∈ vs := (suffix_joinRight b vs).subset
  unfold inserted at hnodes
  generalize User.linkNext m p.addr b.addr = next at *
  generalize (joinRight b vs).1 = b' at *
  generalize (joinRight b vs).2 = vs' at *
  rw [← haddr] at hsame ⊢
  have hmem : ∀ c ∈ us ++ p :: vs', c ∈ nodes base frees := by
    intro c hc
    rw [hsplit]
    simp only [List.mem_append, List.mem_cons] at hc ⊢
    rcases hc with hc | rfl | hc
    · exact .inl hc
    · exact .inr (.inl rfl)
    · exact .inr (.inr (hsub c hc))
  have hpnode : p ∈ nodes base frees := hmem p (by simp)
  have hpfits : Fits p.addr := hfree.fits htop hpnode
  have hbpos : 0 < b'.addr.toNat := by
    have hheader := haround.header p (by simp)
    omega
  have hbfits : Fits b'.addr := by
    have hwithin := haround.within
    have hfull := hhangs.full
    unfold Block.stop at hwithin
    unfold Fits
    omega
  have hpb : Apart p.addr b'.addr := .inl (haround.header p (by simp))
  -- The headers that keep what they had.
  have hothers : ∀ c ∈ vs' ++ us, Apart p.addr c.addr ∧ Apart b'.addr c.addr ∧
      Fits c.addr := by
    intro c hc
    obtain ⟨hus, hpvs, hacross⟩ := List.pairwise_append.mp haround.order
    refine ⟨?_, ?_, ?_⟩
    · rcases List.mem_append.mp hc with hc | hc
      · exact ((List.pairwise_cons.mp hpvs).1 c hc).apart
      · exact (hacross c hc p List.mem_cons_self).apart.symm
    · rcases List.mem_append.mp hc with hc | hc
      · exact (haround.below c hc).apart
      · exact .inr (haround.header c (List.mem_append_left _ hc))
    · apply hfree.fits htop
      apply hmem
      simp only [List.mem_append, List.mem_cons] at hc ⊢
      tauto
  have hsizes : ∀ c ∈ vs' ++ us, unitsOf next c.addr = c.size := by
    intro c hc
    obtain ⟨-, hapart, hfits⟩ := hothers c hc
    rw [hsame.unitsOf hfits hapart]
    apply hfree.sizes
    apply hmem
    simp only [List.mem_append, List.mem_cons] at hc ⊢
    tauto
  have hpsize : unitsOf next p.addr = p.size := by
    rw [hsame.unitsOf hpfits hpb.symm]
    exact hfree.sizes p hpnode
  have hkept : ∀ {last : Memory}, SameBut p.addr next last →
      ∀ x ∈ (vs' ++ us).map Block.addr, ∀ y, nextOf next x = y → nextOf last x = y := by
    intro last hlast x hx y hxy
    obtain ⟨c, hc, rfl⟩ := List.mem_map.mp hx
    rw [hlast.nextOf (hothers c hc).2.2 (hothers c hc).1]
    exact hxy
  have hkeptSize : ∀ {last : Memory}, SameBut p.addr next last →
      ∀ c ∈ vs' ++ us, unitsOf last c.addr = c.size := by
    intro last hlast c hc
    rw [hlast.unitsOf (hothers c hc).2.2 (hothers c hc).1]
    exact hsizes c hc
  unfold linkPrev
  rw [hpsize, hhangs.size]
  by_cases htouch : p.stop = b'.addr.toNat
  · rw [if_pos ((unit_eq_iff (htouch.le.trans (le_of_lt b'.addr.isLt)) hbpos).mpr htouch)]
    simp only [joinLeft, if_pos htouch] at hnodes
    have hunits : SameBut p.addr next (putUnits next p.addr (p.size + b'.size)) :=
      sameBut_putUnits _ hpfits
    dsimp only
    rw [hunits.nextOf hbfits hpb]
    have hlast := hunits.trans (sameBut_putNext (nextOf next b'.addr) hpfits)
    have hjoin := stop_join htouch (haround.within.trans htop)
    refine ⟨hfree.rebuild hnodes ?_ ?_ (haround.touch htouch htop) ?_, hlast⟩
    · refine chain_relink hhangs.chain ?_ (hkept hlast)
      intro y hy
      rw [← hy]
      exact nextOf_putNext ..
    · intro c hc
      rcases List.mem_append.mp hc with hc | hc
      · exact hkeptSize hlast c (List.mem_append_right _ hc)
      · rcases List.mem_cons.mp hc with rfl | hc
        · exact (unitsOf_putNext _ hpfits).trans (unitsOf_putUnits ..)
        · exact hkeptSize hlast c (List.mem_append_left _ hc)
    · intro c hc
      rcases List.mem_append.mp hc with hc | hc
      · exact .inl (hmem c (List.mem_append_left _ hc))
      · rcases List.mem_cons.mp hc with rfl | hc
        · refine .inr ⟨?_, ?_⟩
          · have hfull := hhangs.full
            unfold Block.stop at hjoin htouch
            dsimp only at hjoin ⊢
            omega
          · rw [hjoin]
            exact haround.within
        · exact .inl (hmem c (by simp [hc]))
  · have hpstop : p.stop ≤ 2 ^ 32 :=
      (haround.before p (by simp)).trans (le_of_lt b'.addr.isLt)
    rw [if_neg (mt (unit_eq_iff hpstop hbpos).mp htouch)]
    simp only [joinLeft, if_neg htouch] at hnodes
    have hlast : SameBut p.addr next (putNext next p.addr b'.addr) := sameBut_putNext _ hpfits
    refine ⟨hfree.rebuild hnodes ?_ ?_ (haround.apart htouch) ?_, hlast⟩
    · refine List.isChain_cons_cons.mpr ⟨nextOf_putNext .., ?_⟩
      refine chain_relink hhangs.chain ?_ (hkept hlast)
      intro y hy
      rw [hlast.nextOf hbfits hpb]
      exact hy
    · intro c hc
      rcases List.mem_append.mp hc with hc | hc
      · exact hkeptSize hlast c (List.mem_append_right _ hc)
      · rcases List.mem_cons.mp hc with rfl | hc
        · exact (unitsOf_putNext _ hpfits).trans hpsize
        · rcases List.mem_cons.mp hc with rfl | hc
          · rw [hlast.unitsOf hbfits hpb]
            exact hhangs.size
          · exact hkeptSize hlast c (List.mem_append_left _ hc)
    · intro c hc
      rcases List.mem_append.mp hc with hc | hc
      · exact .inl (hmem c (List.mem_append_left _ hc))
      · rcases List.mem_cons.mp hc with rfl | hc
        · exact .inl hpnode
        · rcases List.mem_cons.mp hc with rfl | hc
          · exact .inr ⟨hhangs.full, hhangs.within⟩
          · exact .inl (hmem c (by simp [hc]))

end Insert

def Inserts (base : Word) (b : Block) (frees frees' : List Block) : Prop :=
  ∃ us p vs, nodes base frees = us ++ p :: vs ∧ nodes base frees' = inserted us p b vs

section Free

variable {κ : Type} {sys : Breaks κ} {h : Heap κ}
variable {base : Word} {top : Nat} {frees : List Block} {b : Block}

theorem FreeList.free (hfree : FreeList base top h.mem frees)
    (hfreep : h.freep ∈ (nodes base frees).map Block.addr) (hbase : 0 < base.toNat)
    (hlimit : top ≤ sys.limit h.kernel) (hfits : sys.limit h.kernel ≤ 2 ^ 32)
    (hsize : unitsOf h.mem b.addr = b.size) (hfull : 0 < b.size.toNat)
    (hwithin : b.stop ≤ top) (hfirst : base.toNat + 8 ≤ b.addr.toNat)
    (hlies : ∀ c ∈ frees, c.stop ≤ b.addr.toNat ∨ b.stop ≤ c.addr.toNat) :
    ∃ p frees' next, Inserts base b frees frees' ∧
      User.free sys (b.addr + 8) h = .ok ((), { h with mem := next, freep := p }) ∧
      FreeList base top next frees' ∧ p ∈ (nodes base frees').map Block.addr ∧
      (∃ x ∈ frees', x.addr.toNat ≤ b.addr.toNat ∧ b.stop ≤ x.stop) ∧
      ∀ a, Outside (b :: nodes base frees) a → next a = h.mem a := by
  have htop : top ≤ 2 ^ 32 := hlimit.trans hfits
  have hheader : ∀ c ∈ frees, c.addr.toNat + 8 ≤ c.stop := by
    intro c hc
    have hcfull := hfree.full c hc
    unfold Block.stop
    omega
  have hbheader : b.addr.toNat + 8 ≤ b.stop := by
    unfold Block.stop
    omega
  have hcases : ∀ c ∈ nodes base frees,
      c.addr.toNat + 8 ≤ b.addr.toNat ∧ c.stop ≤ b.addr.toNat ∨ b.stop ≤ c.addr.toNat := by
    intro c hc
    rcases List.mem_cons.mp hc with rfl | hc
    · refine .inl ⟨hfirst, ?_⟩
      change base.toNat + 8 * 0 ≤ _
      omega
    · have hle := hheader c hc
      rcases hlies c hc with hbefore | hafter
      · exact .inl ⟨by omega, hbefore⟩
      · exact .inr hafter
  have hne : ∀ c ∈ nodes base frees, c.addr ≠ b.addr := by
    intro c hc heq
    have hplace := hcases c hc
    rw [heq] at hplace
    omega
  obtain ⟨us, p, vs, hsplit, hbefore, hafter, hrun⟩ :=
    hfree.findPlace hfreep hlimit htop (by omega : base.toNat < b.addr.toNat) hne
  have hmem : ∀ c ∈ us ++ p :: vs, c ∈ nodes base frees := fun c hc => hsplit ▸ hc
  have hplace : Lies top h.mem us p b vs := by
    have hus : ∀ u ∈ us ++ [p], u.addr.toNat + 8 ≤ b.addr.toNat ∧
        u.stop ≤ b.addr.toNat := by
      intro u hu
      have hlt := hbefore u hu
      have hin : u ∈ us ++ p :: vs := by
        simp only [List.mem_append, List.mem_cons, List.not_mem_nil, or_false] at hu ⊢
        tauto
      rcases hcases u (hmem u hin) with hplace | hplace
      · exact hplace
      · omega
    refine ⟨hsize, hfull, fun u hu => (hus u hu).1, fun u hu => (hus u hu).2, ?_, hwithin⟩
    intro v hv
    have hlt := hafter v hv
    rcases hcases v (hmem v (by simp [hv])) with hplace | hplace
    · omega
    · exact hplace
  obtain ⟨frees', hnodes⟩ := inserted_nodes hsplit hplace.header
  obtain ⟨hnew, hsamep⟩ := hfree.insert hsplit hplace htop hbase hnodes
  have hsameb := (hfree.linkNext hsplit hplace htop hbase).2
  have hpnode : p ∈ nodes base frees := hmem p (by simp)
  refine ⟨p.addr, frees', _, ⟨us, p, vs, hsplit, hnodes⟩, ?_, hnew, ?_, ?_, ?_⟩
  · have hpheader := (hfree.header p hpnode).trans hlimit
    have hbmapped : b.addr.toNat + 8 ≤ sys.limit h.kernel := by omega
    have hnext : (nextOf h.mem p.addr).toNat + 8 ≤ sys.limit h.kernel := by
      cases vs with
      | nil =>
          rw [hfree.next_last hsplit]
          exact (hfree.header ⟨base, 0⟩ List.mem_cons_self).trans hlimit
      | cons v vs =>
          rw [hfree.next_cons hsplit]
          exact (hfree.header v (hmem v (by simp))).trans hlimit
    unfold User.free
    rw [BitVec.add_sub_cancel, bind_of_ok rfl, bind_of_ok hrun,
      bind_of_ok (joinNext_run hfits hpheader hbmapped hnext)]
    rw [bind_of_ok (joinPrev_run (h := { h with mem := User.linkNext h.mem p.addr b.addr })
      hfits hpheader hbmapped)]
    rfl
  · have haddr : ∃ c ∈ inserted us p b vs, c.addr = p.addr := by
      unfold inserted joinLeft
      split
      · exact ⟨_, List.mem_append_right _ List.mem_cons_self, rfl⟩
      · exact ⟨p, List.mem_append_right _ List.mem_cons_self, rfl⟩
    rw [hnodes]
    exact List.mem_map.mpr haddr
  · obtain ⟨x, hx, hlow, hhigh⟩ := hfree.inserted_covers hsplit hplace htop hbase
    rw [← hnodes] at hx
    rcases List.mem_cons.mp hx with rfl | hx
    · change b.stop ≤ base.toNat + 8 * 0 at hhigh
      omega
    · exact ⟨x, hx, hlow, hhigh⟩
  · intro a ha
    rw [hsamep a (ha p (List.mem_cons_of_mem _ hpnode))]
    exact hsameb a (ha b List.mem_cons_self)

end Free

end KernelThreads.User
