import Mathlib.Order.Interval.Set.Disjoint
import Mathlib.Order.Interval.Set.LinearOrder
import KernelThreads.Lib.Tiling
import KernelThreads.Lib.Transition
import KernelThreads.User.Alloc

namespace KernelThreads.User

open Lib Program

/-! Runs of `malloc` and `free` by one thread, which also writes to the blocks it
has. -/

structure Arena where
  base : Word
  start : Nat
  nonnull : 0 < base.toNat
  above : base.toNat + 8 ≤ start
  aligned : start % PGSIZE = 0
  fits : start < 2 ^ 32

/-- `sbrk` returns -1, or it returns the old break and extends the heap. -/
def breaks (grants : Nat → Bool) : Breaks Nat where
  sbrk n brk :=
    if grants brk = true ∧ brk + n.toNat < 2 ^ 32 then
      (BitVec.ofNat 32 brk, brk + n.toNat)
    else (-1, brk)
  limit brk := brk

def Refuses (grants : Nat → Bool) (brk : Nat) (nbytes : Word) : Prop :=
  ¬ (grants brk = true ∧ brk + (units (nunits nbytes) * 8).toNat < 2 ^ 32)

/-- A pointer returned by `malloc` and not yet freed, with the bytes asked for. -/
structure Live where
  ptr : Word
  nbytes : Word
  deriving DecidableEq, Repr

structure UserHeap where
  heap : Heap Nat
  live : List Live

inductive HeapEvent where
  | malloc (nbytes : Word) (grants : Nat → Bool)
  /-- `free` of a live pointer. -/
  | free (i : Nat)
  | write (a : Word) (byte : BitVec 8)

namespace UserHeap

variable (arena : Arena)

def start (m : Memory) : UserHeap where
  heap := { mem := m, freep := 0, kernel := arena.start }
  live := []

def step (s : UserHeap) : HeapEvent → Option UserHeap
  | .malloc nbytes grants =>
      match User.malloc (breaks grants) arena.base nbytes s.heap with
      | .ok (p, heap) =>
          some { heap, live := if p = 0 then s.live else ⟨p, nbytes⟩ :: s.live }
      | .error _ => none
  | .free i =>
      match s.live[i]? with
      | none => none
      | some l =>
          match User.free (breaks fun _ => false) l.ptr s.heap with
          | .ok (_, heap) => some { heap, live := s.live.eraseIdx i }
          | .error _ => none
  | .write a byte =>
      some { s with heap := { s.heap with mem := Function.update s.heap.mem a byte } }

/-- Requests up to `KERNBASE`, and writes to live blocks. -/
def Allowed (s : UserHeap) : HeapEvent → Prop
  | .malloc nbytes _ => nbytes.toNat ≤ KERNBASE
  | .free _ => True
  | .write a _ => ∃ l ∈ s.live, l.ptr.toNat ≤ a.toNat ∧ a.toNat < l.ptr.toNat + l.nbytes.toNat

def blockAt (m : Memory) (l : Live) : Block := ⟨l.ptr - 8, unitsOf m (l.ptr - 8)⟩

def blocks (s : UserHeap) : List Block := s.live.map (blockAt s.heap.mem)

end UserHeap

def Block.range (b : Block) : Set Nat := Set.Ico b.addr.toNat b.stop

/-- The free list is in order, its blocks and the live ones make up what `sbrk` has
given, and the live ones are as large as was asked. -/
structure UserHeap.Consistent (arena : Arena) (s : UserHeap) (frees : List Block) :
    Prop where
  list : FreeList arena.base s.heap.kernel s.heap.mem frees
  freep : s.heap.freep ∈ (nodes arena.base frees).map Block.addr
  tiles : Tiles (Set.Ico arena.start s.heap.kernel)
    ((frees ++ s.blocks).map Block.range)
  aligned : ∀ b ∈ frees ++ s.blocks, b.addr.toNat % 8 = 0
  room : ∀ l ∈ s.live, 8 ≤ l.ptr.toNat ∧
    l.nbytes.toNat + 8 ≤ 8 * (UserHeap.blockAt s.heap.mem l).size.toNat
  breakAligned : s.heap.kernel % 8 = 0
  extent : arena.start ≤ s.heap.kernel
  fits : s.heap.kernel < 2 ^ 32

section Division

variable {region : Set Nat} {us vs rest : List Block} {b c p : Block} {base : Word}

theorem Block.addr_le_stop (b : Block) : b.addr.toNat ≤ b.stop := Nat.le_add_right ..

theorem range_join (htouch : b.stop = c.addr.toNat) (hc : c.stop ≤ 2 ^ 32) :
    (⟨b.addr, b.size + c.size⟩ : Block).range = b.range ∪ c.range := by
  unfold Block.range
  rw [stop_join htouch hc, ← htouch]
  refine (Set.Ico_union_Ico_eq_Ico b.addr_le_stop ?_).symm
  rw [htouch]
  exact c.addr_le_stop

theorem tiles_middle {x : Block} :
    Tiles region ((us ++ x :: vs).map Block.range) ↔
      Tiles region (x.range :: (us ++ vs).map Block.range) := by
  have hperm : ((us ++ x :: vs).map Block.range).Perm
      (x.range :: (us ++ vs).map Block.range) := List.perm_middle.map Block.range
  exact ⟨fun h => h.perm hperm, fun h => h.perm hperm.symm⟩

theorem tiles_join (us vs : List Block) (htouch : b.stop = c.addr.toNat) (hc : c.stop ≤ 2 ^ 32) :
    Tiles region ((us ++ b :: c :: vs).map Block.range) ↔
      Tiles region ((us ++ (⟨b.addr, b.size + c.size⟩ : Block) :: vs).map Block.range) := by
  have hdisjoint : Disjoint b.range c.range := by
    unfold Block.range
    rw [Set.Ico_disjoint_Ico]
    have hle := c.addr_le_stop
    have hle' := b.addr_le_stop
    omega
  have hperm : ((us ++ b :: c :: vs).map Block.range).Perm
      (b.range :: c.range :: (us ++ vs).map Block.range) :=
    (List.perm_middle.trans (List.perm_middle.cons b)).map Block.range
  rw [tiles_middle (x := ⟨b.addr, b.size + c.size⟩), range_join htouch hc]
  exact ⟨fun h => (h.perm hperm).cons_union,
    fun h => (h.cons_split hdisjoint).perm hperm.symm⟩

theorem tiles_nodes (base : Word) {frees : List Block} :
    Tiles region ((nodes base frees ++ rest).map Block.range) ↔
      Tiles region ((frees ++ rest).map Block.range) := by
  have hempty : (⟨base, 0⟩ : Block).range = ∅ := by
    unfold Block.range Block.stop
    exact Set.Ico_self _
  rw [nodes, List.cons_append, List.map_cons, hempty]
  exact Tiles.cons_empty

theorem tiles_inserted (hvs : ∀ v ∈ vs, v.stop ≤ 2 ^ 32) (hb : b.stop ≤ 2 ^ 32)
    (h : Tiles region ((us ++ p :: b :: vs ++ rest).map Block.range)) :
    Tiles region ((inserted us p b vs ++ rest).map Block.range) := by
  have hright : (joinRight b vs).1.stop ≤ 2 ^ 32 ∧ Tiles region
      ((us ++ p :: (joinRight b vs).1 :: (joinRight b vs).2 ++ rest).map Block.range) := by
    cases vs with
    | nil => exact ⟨hb, h⟩
    | cons v vs =>
        simp only [joinRight]
        split
        next htouch =>
          have hv := hvs v List.mem_cons_self
          refine ⟨(stop_join htouch hv).le.trans hv, ?_⟩
          have htogether : Tiles region
              ((us ++ [p] ++ b :: v :: (vs ++ rest)).map Block.range) := by
            simpa using h
          simpa using (tiles_join (us ++ [p]) (vs ++ rest) htouch hv).mp htogether
        next => exact ⟨hb, h⟩
  unfold inserted joinLeft
  generalize (joinRight b vs).1 = b' at *
  generalize (joinRight b vs).2 = vs' at *
  split
  next htouch =>
    have htogether : Tiles region ((us ++ p :: b' :: (vs' ++ rest)).map Block.range) := by
      simpa using hright.2
    simpa using (tiles_join us (vs' ++ rest) htouch hright.1).mp htogether
  next => exact hright.2

theorem Inserts.tiles {frees frees' : List Block} (h : Inserts base b frees frees')
    (hfrees : ∀ v ∈ frees, v.stop ≤ 2 ^ 32) (hb : b.stop ≤ 2 ^ 32)
    (htiles : Tiles region ((b :: frees ++ rest).map Block.range)) :
    Tiles region ((frees' ++ rest).map Block.range) := by
  obtain ⟨us, p, vs, hsplit, hnodes⟩ := h
  refine (tiles_nodes base).mp ?_
  rw [hnodes]
  refine tiles_inserted ?_ hb ?_
  · intro v hv
    cases us with
    | nil =>
        obtain ⟨-, rfl⟩ := List.cons.inj hsplit
        exact hfrees v hv
    | cons u us =>
        rw [nodes, List.cons_append] at hsplit
        obtain ⟨-, rfl⟩ := List.cons.inj hsplit
        exact hfrees v (by simp [hv])
  · have hall : Tiles region ((nodes base frees ++ b :: rest).map Block.range) := by
      refine (tiles_nodes base).mpr (htiles.perm ?_)
      exact List.perm_middle.symm.map Block.range
    rw [hsplit] at hall
    refine hall.perm (List.Perm.map _ ?_)
    have hperm : (us ++ [p] ++ (vs ++ b :: rest)).Perm (us ++ [p] ++ (b :: (vs ++ rest))) :=
      List.perm_middle.append_left _
    simpa using hperm

theorem Allocates.tiles {frees frees' : List Block} {nunits : Word} {taken : Block}
    (h : Allocates base nunits frees frees' taken) (hpos : 0 < nunits.toNat)
    (hfrees : ∀ v ∈ nodes base frees, v.stop ≤ 2 ^ 32)
    (htiles : Tiles region ((frees ++ rest).map Block.range)) :
    Tiles region ((frees' ++ taken :: rest).map Block.range) := by
  obtain ⟨us, q, x, vs, left, hsplit, hcuts, hnodes⟩ := h
  refine (tiles_nodes base).mp ?_
  have hall := (tiles_nodes base).mpr htiles
  have hx := hfrees x (mem_split hsplit).2.1
  rw [hnodes]
  rw [hsplit] at hall
  have hcut : Tiles region ((us ++ q :: (left ++ taken :: vs) ++ rest).map Block.range) := by
    cases hcuts with
    | whole => exact hall
    | tail hlt hsize haddr =>
        obtain ⟨hsub, htail⟩ := toNat_tail hpos hlt hx
        have htouch : (⟨x.addr, x.size - nunits⟩ : Block).stop = taken.addr.toNat := by
          unfold Block.stop
          rw [haddr, htail, hsub]
        have hstop : taken.stop ≤ 2 ^ 32 := by
          obtain ⟨-, hstop, -⟩ := (Cuts.tail hlt hsize haddr).stop hpos hx
          exact hstop.le.trans hx
        have hwhole : (⟨x.addr, x.size - nunits + taken.size⟩ : Block) = x := by
          rw [hsize, BitVec.sub_add_cancel]
        have htogether : Tiles region ((us ++ [q] ++
            (⟨x.addr, x.size - nunits + taken.size⟩ : Block) :: (vs ++ rest)).map
              Block.range) := by
          rw [hwhole]
          simpa using hall
        simpa using (tiles_join (us ++ [q]) (vs ++ rest) htouch hstop).mpr htogether
  refine hcut.perm (List.Perm.map _ ?_)
  have hperm : (us ++ q :: left ++ (taken :: (vs ++ rest))).Perm
      (us ++ q :: left ++ (vs ++ taken :: rest)) :=
    List.perm_middle.symm.append_left _
  simpa using hperm

theorem Inserts.addr {frees frees' : List Block} (h : Inserts base b frees frees')
    {x : Block} (hx : x ∈ nodes base frees') :
    ∃ c ∈ b :: nodes base frees, c.addr = x.addr := by
  obtain ⟨us, p, vs, hsplit, hnodes⟩ := h
  rw [hnodes] at hx
  rw [hsplit]
  have haddr := addr_joinRight b vs
  have hsub : ∀ c ∈ (joinRight b vs).2, c ∈ vs := (suffix_joinRight b vs).subset
  rcases List.mem_append.mp hx with hx | hx
  · exact ⟨x, by simp [hx], rfl⟩
  · unfold joinLeft at hx
    split at hx
    · rcases List.mem_cons.mp hx with rfl | hx
      · exact ⟨p, by simp, rfl⟩
      · exact ⟨x, by simp [hsub x hx], rfl⟩
    · rcases List.mem_cons.mp hx with rfl | hx
      · exact ⟨x, by simp, rfl⟩
      · rcases List.mem_cons.mp hx with rfl | hx
        · exact ⟨b, by simp, haddr.symm⟩
        · exact ⟨x, by simp [hsub x hx], rfl⟩

theorem Allocates.addr {frees frees' : List Block} {nunits : Word} {taken : Block}
    (h : Allocates base nunits frees frees' taken) {x : Block}
    (hx : x ∈ nodes base frees') : ∃ c ∈ nodes base frees, c.addr = x.addr := by
  obtain ⟨us, q, y, vs, left, hsplit, hcuts, hnodes⟩ := h
  rw [hnodes] at hx
  rw [hsplit]
  simp only [List.mem_append, List.mem_cons] at hx
  rcases hx with hx | rfl | hx | hx
  · exact ⟨x, by simp [hx], rfl⟩
  · exact ⟨x, by simp, rfl⟩
  · cases hcuts with
    | whole => exact absurd hx List.not_mem_nil
    | tail =>
        obtain rfl := List.mem_singleton.mp hx
        exact ⟨y, by simp, rfl⟩
  · exact ⟨x, by simp [hx], rfl⟩

end Division

namespace UserHeap

variable {arena : Arena} {s : UserHeap} {frees frees' : List Block}

theorem blockAt_congr {m next : Memory} {l : Live} (hl : 8 ≤ l.ptr.toNat)
    (h : ∀ a : Word, l.ptr.toNat ≤ a.toNat + 8 → a.toNat < l.ptr.toNat → next a = m a) :
    blockAt next l = blockAt m l := by
  have haddr : (l.ptr - 8).toNat = l.ptr.toNat - 8 :=
    BitVec.toNat_sub_of_le (BitVec.le_def.mpr hl)
  have hlt := l.ptr.isLt
  have hfits : Fits (l.ptr - 8) := by
    unfold Fits
    omega
  have hsize := hfits.toNat_size
  have hunits : unitsOf next (l.ptr - 8) = unitsOf m (l.ptr - 8) := by
    refine word_of_bytes hfits ?_ (by omega) (by omega)
    intro x hlow hhigh
    exact h x (by omega) (by omega)
  unfold blockAt
  rw [hunits]

structure Placed (arena : Arena) (s : UserHeap) (frees : List Block) (l : Live) : Prop where
  addr : (blockAt s.heap.mem l).addr.toNat + 8 = l.ptr.toNat
  low : arena.start ≤ (blockAt s.heap.mem l).addr.toNat
  high : (blockAt s.heap.mem l).stop ≤ s.heap.kernel
  full : 0 < (blockAt s.heap.mem l).size.toNat
  apart : ∀ c ∈ frees, c.stop ≤ (blockAt s.heap.mem l).addr.toNat ∨
    (blockAt s.heap.mem l).stop ≤ c.addr.toNat

theorem ordered_of_disjoint {b c : Block} (hb : 0 < b.size.toNat) (hc : 0 < c.size.toNat)
    (h : Disjoint b.range c.range) : b.stop ≤ c.addr.toNat ∨ c.stop ≤ b.addr.toNat := by
  unfold Block.range at h
  rw [Set.Ico_disjoint_Ico] at h
  unfold Block.stop at h ⊢
  omega

namespace Consistent

variable (h : s.Consistent arena frees)

include h

theorem placed {l : Live} (hl : l ∈ s.live) : Placed arena s frees l := by
  obtain ⟨hptr, hroom⟩ := h.room l hl
  have hfull : 0 < (blockAt s.heap.mem l).size.toNat := by omega
  have hin : blockAt s.heap.mem l ∈ s.blocks := List.mem_map_of_mem hl
  have hinside : ∀ a ∈ (blockAt s.heap.mem l).range,
      a ∈ Set.Ico arena.start s.heap.kernel := by
    intro a ha
    refine (h.tiles.covers a).mpr ⟨_, List.mem_map_of_mem ?_, ha⟩
    exact List.mem_append_right _ hin
  have hstop : (blockAt s.heap.mem l).stop =
    (blockAt s.heap.mem l).addr.toNat + 8 * (blockAt s.heap.mem l).size.toNat := rfl
  have hfirst := hinside (blockAt s.heap.mem l).addr.toNat ⟨le_rfl, by omega⟩
  have hlast := hinside ((blockAt s.heap.mem l).stop - 1) ⟨by omega, by omega⟩
  refine ⟨?_, hfirst.1, ?_, hfull, ?_⟩
  · have haddr : (l.ptr - 8).toNat = l.ptr.toNat - 8 :=
      BitVec.toNat_sub_of_le (BitVec.le_def.mpr hptr)
    change (l.ptr - 8).toNat + 8 = _
    omega
  · have hlt := hlast.2
    omega
  · intro c hc
    have hpairs := h.tiles.disjoint
    rw [List.map_append] at hpairs
    have hdisjoint := (List.pairwise_append.mp hpairs).2.2 _ (List.mem_map_of_mem hc) _
      (List.mem_map_of_mem hin)
    exact ordered_of_disjoint (h.list.full c hc) hfull hdisjoint

theorem clear {l : Live} (hl : l ∈ s.live) {a : Word}
    (hlow : (blockAt s.heap.mem l).addr.toNat ≤ a.toNat)
    (hhigh : a.toNat < (blockAt s.heap.mem l).stop) : Clear arena.base frees a := by
  have hplaced := h.placed hl
  have habove := arena.above
  have hstart := hplaced.low
  refine ⟨.inr (by omega), fun c hc => ?_⟩
  have hapart := hplaced.apart c hc
  omega

theorem blocks_same {next : Memory} {live : List Live} (hlive : ∀ l ∈ live, l ∈ s.live)
    (hsame : ∀ l ∈ live, ∀ a : Word, (blockAt s.heap.mem l).addr.toNat ≤ a.toNat →
      a.toNat < (blockAt s.heap.mem l).addr.toNat + 8 → next a = s.heap.mem a) :
    live.map (blockAt next) = live.map (blockAt s.heap.mem) := by
  refine List.map_congr_left fun l hl => ?_
  have haddr := (h.placed (hlive l hl)).addr
  refine blockAt_congr (h.room l (hlive l hl)).1 fun a hlow hhigh => ?_
  exact hsame l hl a (by omega) (by omega)

theorem aligned_of_addr {base : Word} {top : Nat} {m : Memory}
    (hlist : FreeList base top m frees') (hbase : base = arena.base) {x : Block}
    (hx : x ∈ frees') (haddr : ∃ c ∈ nodes arena.base frees, c.addr = x.addr) :
    x.addr.toNat % 8 = 0 := by
  obtain ⟨c, hc, haddr⟩ := haddr
  rw [← haddr]
  rcases List.mem_cons.mp hc with rfl | hc
  · have hbelow := ((List.pairwise_cons.mp hlist.order).1 x hx).header
    rw [← haddr, hbase] at hbelow
    dsimp only at hbelow
    omega
  · exact h.aligned c (List.mem_append_left _ hc)

theorem taking {nunits nbytes : Word} {result : Except HeapStop (Word × Heap Nat)}
    {taken : Block} {next : Heap Nat}
    (htaking : Taking arena.base nunits s.heap.kernel frees s.heap result taken frees' next)
    (hroom : nbytes.toNat + 8 ≤ 8 * nunits.toNat) :
    (taken.addr + 8).toNat = taken.addr.toNat + 8 ∧
      Consistent arena ⟨next, ⟨taken.addr + 8, nbytes⟩ :: s.live⟩ frees' := by
  have hpos : 0 < nunits.toNat := by omega
  have hstops : ∀ v ∈ nodes arena.base frees, v.stop ≤ 2 ^ 32 := fun v hv =>
    (h.list.within v hv).trans h.fits.le
  obtain ⟨us, q, x, vs, left, hsplit, hcuts, hnodes⟩ := htaking.allocates
  have hx := (mem_split hsplit).2.1
  obtain ⟨hsize, hstop, haddr⟩ := hcuts.stop hpos (hstops x hx)
  have hptr := (htaking.within h.list hpos h.fits).1
  have hblock : blockAt next.mem ⟨taken.addr + 8, nbytes⟩ = taken := by
    unfold blockAt
    dsimp only
    rw [BitVec.add_sub_cancel, htaking.size, ← hsize]
  have hlive : s.live.map (blockAt next.mem) = s.live.map (blockAt s.heap.mem) := by
    refine h.blocks_same (fun l hl => hl) fun l hl a hlow hhigh => htaking.same a ?_
    refine h.clear hl hlow ?_
    have hfull := (h.placed hl).full
    unfold Block.stop
    omega
  have hblocks : (⟨next, ⟨taken.addr + 8, nbytes⟩ :: s.live⟩ : UserHeap).blocks =
      taken :: s.blocks := by
    unfold blocks
    rw [List.map_cons, hblock, hlive]
  refine ⟨hptr, ⟨?_, htaking.freep, ?_, ?_, ?_, ?_, ?_, ?_⟩⟩
  · rw [htaking.kernel]
    exact htaking.list
  · rw [hblocks, htaking.kernel]
    exact htaking.allocates.tiles hpos hstops h.tiles
  · rw [hblocks]
    intro b hb
    rcases List.mem_append.mp hb with hb | hb
    · exact h.aligned_of_addr htaking.list rfl hb
        (htaking.allocates.addr (List.mem_cons_of_mem _ hb))
    · rcases List.mem_cons.mp hb with rfl | hb
      · have hxfull := h.list.full_second hsplit
        have hxaligned : x.addr.toNat % 8 = 0 := by
          rcases List.mem_cons.mp hx with rfl | hx
          · exact absurd hxfull (by simp)
          · exact h.aligned x (List.mem_append_left _ hx)
        unfold Block.stop at hstop
        omega
      · exact h.aligned b (List.mem_append_right _ hb)
  · intro l hl
    rcases List.mem_cons.mp hl with rfl | hl
    · rw [hblock, hsize]
      dsimp only
      omega
    · have hsame : blockAt next.mem l = blockAt s.heap.mem l :=
        List.map_inj_left.mp hlive l hl
      rw [hsame]
      exact h.room l hl
  · rw [htaking.kernel]
    exact h.breakAligned
  · rw [htaking.kernel]
    exact h.extent
  · rw [htaking.kernel]
    exact h.fits

theorem grown {nu : Word} {middle : Heap Nat}
    (hinserts : Inserts arena.base ⟨BitVec.ofNat 32 s.heap.kernel, nu⟩ frees frees')
    (hlist : FreeList arena.base middle.kernel middle.mem frees')
    (hfreep : middle.freep ∈ (nodes arena.base frees').map Block.addr)
    (hkernel : middle.kernel = s.heap.kernel + 8 * nu.toNat)
    (hsame : ∀ a, Outside (⟨BitVec.ofNat 32 s.heap.kernel, nu⟩ ::
      nodes arena.base frees) a → middle.mem a = s.heap.mem a)
    (hfits : middle.kernel < 2 ^ 32) :
    Consistent arena ⟨middle, s.live⟩ frees' := by
  have hextent := h.extent
  have hnew : (BitVec.ofNat 32 s.heap.kernel).toNat = s.heap.kernel := by
    rw [BitVec.toNat_ofNat]
    exact Nat.mod_eq_of_lt h.fits
  have hrange : (⟨BitVec.ofNat 32 s.heap.kernel, nu⟩ : Block).range =
      Set.Ico s.heap.kernel middle.kernel := by
    unfold Block.range Block.stop
    rw [hnew, hkernel]
  have hstop : (⟨BitVec.ofNat 32 s.heap.kernel, nu⟩ : Block).stop = middle.kernel := by
    unfold Block.stop
    rw [hnew, hkernel]
  have hlive : s.live.map (blockAt middle.mem) = s.live.map (blockAt s.heap.mem) := by
    refine h.blocks_same (fun l hl => hl) fun l hl a hlow hhigh => hsame a ?_
    have hplaced := h.placed hl
    have hhigh' : a.toNat < (blockAt s.heap.mem l).stop := by
      have hfull := hplaced.full
      unfold Block.stop
      omega
    intro c hc
    rcases List.mem_cons.mp hc with rfl | hc
    · have hbelow := hplaced.high
      dsimp only
      omega
    · exact h.list.outside (h.clear hl hlow hhigh') c hc
  have hblocks : (⟨middle, s.live⟩ : UserHeap).blocks = s.blocks := hlive
  refine ⟨hlist, hfreep, ?_, ?_, ?_, ?_, ?_, hfits⟩
  · rw [hblocks]
    refine hinserts.tiles ?_ (hstop.le.trans hfits.le) ?_
    · exact fun v hv => (h.list.within v (List.mem_cons_of_mem _ hv)).trans h.fits.le
    · rw [List.cons_append, List.map_cons, hrange]
      have hregion : Set.Ico arena.start middle.kernel =
          Set.Ico arena.start s.heap.kernel ∪ Set.Ico s.heap.kernel middle.kernel :=
        (Set.Ico_union_Ico_eq_Ico hextent (by omega)).symm
      dsimp only
      rw [hregion]
      refine h.tiles.extend ?_
      rw [Set.Ico_disjoint_Ico]
      omega
  · rw [hblocks]
    intro b hb
    rcases List.mem_append.mp hb with hb | hb
    · obtain ⟨c, hc, haddr⟩ := hinserts.addr (List.mem_cons_of_mem _ hb)
      rcases List.mem_cons.mp hc with rfl | hc
      · rw [← haddr, hnew]
        exact h.breakAligned
      · exact h.aligned_of_addr hlist rfl hb ⟨c, hc, haddr⟩
    · exact h.aligned b (List.mem_append_right _ hb)
  · intro l hl
    have hkept : blockAt middle.mem l = blockAt s.heap.mem l :=
      List.map_inj_left.mp hlive l hl
    rw [hkept]
    exact h.room l hl
  · have haligned := h.breakAligned
    dsimp only
    omega
  · dsimp only
    omega

theorem free {i : Nat} {l : Live} (hl : s.live[i]? = some l) (sys : Breaks Nat)
    (hsys : sys.limit = id) :
    ∃ heap frees', User.free sys l.ptr s.heap = .ok ((), heap) ∧
      Consistent arena ⟨heap, s.live.eraseIdx i⟩ frees' := by
  obtain ⟨hi, hget⟩ := List.getElem?_eq_some_iff.mp hl
  have hmem : l ∈ s.live := List.mem_of_getElem? hl
  have hplaced := h.placed hmem
  have hlimit : sys.limit s.heap.kernel = s.heap.kernel := by rw [hsys]; rfl
  have hbase := arena.nonnull
  have habove := arena.above
  have hlow := hplaced.low
  have hptr : l.ptr = (blockAt s.heap.mem l).addr + 8 := (BitVec.sub_add_cancel ..).symm
  obtain ⟨p, frees', next, hinserts, hrun, hlist, hp, -, hsame⟩ :=
    FreeList.free (h := s.heap) (b := blockAt s.heap.mem l) h.list h.freep hbase
      hlimit.ge (hlimit.le.trans h.fits.le) rfl hplaced.full hplaced.high (by omega)
      hplaced.apart
  -- The other live blocks.
  have hperm : s.live.Perm (l :: s.live.eraseIdx i) := by
    have hback := List.getElem_cons_eraseIdx_perm hi
    rw [hget] at hback
    exact hback.symm
  have hsub : ∀ k ∈ s.live.eraseIdx i, k ∈ s.live := fun k hk =>
    hperm.mem_iff.mpr (List.mem_cons_of_mem _ hk)
  have htiles : Tiles (Set.Ico arena.start s.heap.kernel)
      ((blockAt s.heap.mem l :: frees ++
        (s.live.eraseIdx i).map (blockAt s.heap.mem)).map Block.range) := by
    refine h.tiles.perm (List.Perm.map _ ?_)
    have hmap := hperm.map (blockAt s.heap.mem)
    exact (hmap.append_left frees).trans List.perm_middle
  have hothers : ∀ k ∈ s.live.eraseIdx i,
      Disjoint (blockAt s.heap.mem l).range (blockAt s.heap.mem k).range := by
    intro k hk
    have hpairs := htiles.disjoint
    rw [List.cons_append, List.map_cons] at hpairs
    refine (List.pairwise_cons.mp hpairs).1 _ (List.mem_map_of_mem ?_)
    exact List.mem_append_right _ (List.mem_map_of_mem hk)
  have hlive : (s.live.eraseIdx i).map (blockAt next) =
      (s.live.eraseIdx i).map (blockAt s.heap.mem) := by
    refine h.blocks_same hsub fun k hk a hlow hhigh => hsame a ?_
    have hkplaced := h.placed (hsub k hk)
    have hkfull := hkplaced.full
    have hlfull := hplaced.full
    have hhigh' : a.toNat < (blockAt s.heap.mem k).stop := by
      unfold Block.stop
      omega
    intro c hc
    rcases List.mem_cons.mp hc with rfl | hc
    · have hapart := ordered_of_disjoint hlfull hkfull (hothers k hk)
      unfold Block.stop at hapart
      omega
    · exact h.list.outside (h.clear (hsub k hk) hlow hhigh') c hc
  refine ⟨{ s.heap with mem := next, freep := p }, frees', hptr ▸ hrun, hlist, hp, ?_, ?_,
    ?_, h.breakAligned, h.extent, h.fits⟩
  · change Tiles _ ((frees' ++ (s.live.eraseIdx i).map (blockAt next)).map Block.range)
    rw [hlive]
    refine hinserts.tiles ?_ (hplaced.high.trans h.fits.le) htiles
    exact fun v hv => (h.list.within v (List.mem_cons_of_mem _ hv)).trans h.fits.le
  · intro b hb
    have hb : b ∈ frees' ++ (s.live.eraseIdx i).map (blockAt next) := hb
    rw [hlive] at hb
    rcases List.mem_append.mp hb with hb | hb
    · obtain ⟨c, hc, haddr⟩ := hinserts.addr (List.mem_cons_of_mem _ hb)
      rcases List.mem_cons.mp hc with rfl | hc
      · rw [← haddr]
        exact h.aligned _ (List.mem_append_right _ (List.mem_map_of_mem hmem))
      · exact h.aligned_of_addr hlist rfl hb ⟨c, hc, haddr⟩
    · obtain ⟨k, hk, rfl⟩ := List.mem_map.mp hb
      exact h.aligned _ (List.mem_append_right _ (List.mem_map_of_mem (hsub k hk)))
  · intro k hk
    have hkept : blockAt next k = blockAt s.heap.mem k := List.map_inj_left.mp hlive k hk
    change 8 ≤ k.ptr.toNat ∧ k.nbytes.toNat + 8 ≤ 8 * (blockAt next k).size.toNat
    rw [hkept]
    exact h.room k (hsub k hk)

theorem write {a : Word} (byte : BitVec 8) {l : Live} (hl : l ∈ s.live)
    (hlow : l.ptr.toNat ≤ a.toNat) (hhigh : a.toNat < l.ptr.toNat + l.nbytes.toNat) :
    Consistent arena
      { s with heap := { s.heap with mem := Function.update s.heap.mem a byte } } frees := by
  have hplaced := h.placed hl
  have haddr := hplaced.addr
  have hroom := (h.room l hl).2
  have hstop : a.toNat < (blockAt s.heap.mem l).stop := by
    unfold Block.stop
    omega
  have hlive : s.live.map (blockAt (Function.update s.heap.mem a byte)) =
      s.live.map (blockAt s.heap.mem) := by
    refine h.blocks_same (fun k hk => hk) fun k hk x hxlow hxhigh => ?_
    refine Function.update_of_ne ?_ ..
    rintro rfl
    -- The header of one live block and the bytes of another.
    by_cases hkl : k = l
    · rw [hkl] at hxhigh
      omega
    · have hpairs := h.tiles.disjoint
      rw [List.map_append] at hpairs
      have hblocks := (List.pairwise_append.mp hpairs).2.1
      rw [blocks, List.map_map, List.pairwise_map] at hblocks
      have hdisjoint : Disjoint (blockAt s.heap.mem k).range
          (blockAt s.heap.mem l).range := by
        obtain ⟨before, after, hsplit⟩ := List.append_of_mem hl
        rw [hsplit] at hblocks hk
        obtain ⟨-, hcons, hacross⟩ := List.pairwise_append.mp hblocks
        simp only [List.mem_append, List.mem_cons] at hk
        rcases hk with hk | hk | hk
        · exact hacross k hk l List.mem_cons_self
        · exact absurd hk hkl
        · exact ((List.pairwise_cons.mp hcons).1 k hk).symm
      have hkfull := (h.placed hk).full
      have hapart := ordered_of_disjoint hkfull hplaced.full hdisjoint
      unfold Block.stop at hapart hstop
      omega
  have hkept : ∀ k ∈ s.live, blockAt (Function.update s.heap.mem a byte) k =
      blockAt s.heap.mem k := List.map_inj_left.mp hlive
  have hblocks : UserHeap.blocks { s with
      heap := { s.heap with mem := Function.update s.heap.mem a byte } } = s.blocks := hlive
  have hclear := h.clear hl (by omega) hstop
  refine ⟨?_, h.freep, ?_, ?_, ?_, h.breakAligned, h.extent, h.fits⟩
  · refine h.list.frame h.fits.le fun x hx => Function.update_of_ne ?_ ..
    rintro rfl
    exact hx (h.list.outside hclear)
  · rw [hblocks]
    exact h.tiles
  · rw [hblocks]
    exact h.aligned
  · intro k hk
    dsimp only
    rw [hkept k hk]
    exact h.room k hk

theorem search {nbytes : Word} (hbytes : nbytes.toNat ≤ KERNBASE) (grants : Nat → Bool) :
    ∃ p heap, User.search (breaks grants) (User.nunits nbytes) TURNS s.heap.freep
        (nextOf s.heap.mem s.heap.freep) s.heap = .ok (p, heap) ∧
      (p = 0 ∧ heap = s.heap ∧ Refuses grants s.heap.kernel nbytes ∨
        p ≠ 0 ∧ ∃ frees', Consistent arena ⟨heap, ⟨p, nbytes⟩ :: s.live⟩ frees') := by
  have hnunits := toNat_nunits nbytes
  have hsmall : nbytes.toNat + 7 < 2 ^ 32 := by
    unfold KERNBASE at hbytes
    omega
  rw [Nat.mod_eq_of_lt hsmall] at hnunits
  have hroom : nbytes.toNat + 8 ≤ 8 * (User.nunits nbytes).toNat := by omega
  have hpos : 0 < (User.nunits nbytes).toNat := by omega
  have hfits : (breaks grants).limit s.heap.kernel ≤ 2 ^ 32 := h.fits.le
  have hmany := h.list.length_lt h.fits.le
  have hturns : frees.length < TURNS := by
    unfold TURNS
    omega
  have hfound : ∀ {s : UserHeap} {frees frees' : List Block} {next : Heap Nat}
      {result : Except HeapStop (Word × Heap Nat)} {taken : Block},
      s.Consistent arena frees →
      Taking arena.base (User.nunits nbytes) s.heap.kernel frees s.heap result taken
        frees' next →
      taken.addr + 8 ≠ 0 ∧ ∃ frees',
        Consistent arena ⟨next, ⟨taken.addr + 8, nbytes⟩ :: s.live⟩ frees' := by
    intro s frees frees' next result taken hcons htaking
    obtain ⟨hptr, hnext⟩ := hcons.taking htaking hroom
    refine ⟨fun hzero => ?_, frees', hnext⟩
    rw [hzero] at hptr
    have hnone : (0 : Word).toNat = 0 := rfl
    omega
  have hlimit : s.heap.kernel ≤ (breaks grants).limit s.heap.kernel := le_rfl
  rcases h.list.taking h.freep hlimit hfits hpos hturns with
    ⟨taken, frees', next, htaking⟩ | ⟨-, hrun⟩
  · exact ⟨_, next, htaking.run, .inr (hfound h htaking)⟩
  · rw [hrun]
    have hunits : (units (User.nunits nbytes) * 8).toNat =
        8 * (units (User.nunits nbytes)).toNat ∧
          8 * (units (User.nunits nbytes)).toNat < 2 ^ 32 := by
      have hle : (units (User.nunits nbytes)).toNat ≤ 2 ^ 28 := by
        unfold units
        split
        · decide
        · unfold KERNBASE at hbytes
          omega
      rw [BitVec.toNat_mul]
      change (units (User.nunits nbytes)).toNat * 8 % 2 ^ 32 = _ ∧ _
      omega
    by_cases hgrants : grants s.heap.kernel = true ∧
        s.heap.kernel + (units (User.nunits nbytes) * 8).toNat < 2 ^ 32
    · have hsbrk : (breaks grants).sbrk (units (User.nunits nbytes) * 8) s.heap.kernel =
          (BitVec.ofNat 32 s.heap.kernel,
            s.heap.kernel + 8 * (units (User.nunits nbytes)).toNat) := by
        unfold breaks
        dsimp only
        rw [if_pos hgrants, hunits.1]
      have hbrk : (BitVec.ofNat 32 s.heap.kernel).toNat = s.heap.kernel := by
        rw [BitVec.toNat_ofNat]
        exact Nat.mod_eq_of_lt h.fits
      have hne : BitVec.ofNat 32 s.heap.kernel ≠ -1 := by
        intro heq
        rw [heq] at hbrk
        have haligned := h.breakAligned
        rw [← hbrk] at haligned
        revert haligned
        decide
      rw [hunits.1] at hgrants
      have hleft : 2 ^ 29 ≤ TURNS - (frees.length + 1) := by
        unfold TURNS
        omega
      obtain ⟨grown, middle, taken, frees', next, hinserts, hlist, hfreep, hkernel, hsame,
        htaking⟩ := h.list.grow h.freep hlimit hfits arena.nonnull hpos hleft hsbrk hne
          hbrk.ge (by rw [hbrk]; exact le_rfl) hgrants.2.le
      rw [hbrk, ← hkernel] at hlist
      have hmiddle : Consistent arena ⟨middle, s.live⟩ grown :=
        h.grown hinserts hlist hfreep hkernel hsame (hkernel ▸ hgrants.2)
      rw [hbrk, ← hkernel] at htaking
      exact ⟨_, next, htaking.run, .inr (hfound (s := ⟨middle, s.live⟩) hmiddle htaking)⟩
    · have hsbrk : (breaks grants).sbrk (units (User.nunits nbytes) * 8) s.heap.kernel =
          (-1, s.heap.kernel) := by
        unfold breaks
        dsimp only
        rw [if_neg hgrants]
      exact ⟨0, s.heap, grow_refused hsbrk, .inl ⟨rfl, rfl, hgrants⟩⟩

end Consistent

structure Fresh (arena : Arena) (s : UserHeap) : Prop where
  freep : s.heap.freep = 0
  live : s.live = []
  kernel : s.heap.kernel = arena.start

theorem Fresh.started (h : s.Fresh arena) :
    Consistent arena ⟨⟨User.started arena.base s.heap.mem, arena.base, s.heap.kernel⟩, []⟩
      [] := by
  have hfits := arena.fits
  have hkernel := h.kernel
  refine ⟨freeList_started ?_ ?_, List.mem_cons_self, ?_, ?_, ?_, ?_, ?_, ?_⟩
  · rw [hkernel]
    exact arena.above
  · dsimp only
    omega
  · change Tiles (Set.Ico arena.start s.heap.kernel) []
    rw [hkernel, Set.Ico_self]
    exact Tiles.nil
  · exact fun b hb => absurd hb List.not_mem_nil
  · exact fun l hl => absurd hl List.not_mem_nil
  · have haligned := arena.aligned
    unfold PGSIZE at haligned
    dsimp only
    omega
  · exact hkernel.ge
  · dsimp only
    omega

def Ok (arena : Arena) (s : UserHeap) : Prop :=
  s.Fresh arena ∨ ∃ frees, s.Consistent arena frees

theorem Ok.malloc (h : s.Ok arena) {nbytes : Word} (hbytes : nbytes.toNat ≤ KERNBASE)
    (grants : Nat → Bool) :
    ∃ p heap, User.malloc (breaks grants) arena.base nbytes s.heap = .ok (p, heap) ∧
      (p = 0 ∧ Refuses grants s.heap.kernel nbytes ∧
          (∃ frees, Consistent arena ⟨heap, s.live⟩ frees) ∨
        p ≠ 0 ∧ ∃ frees, Consistent arena ⟨heap, ⟨p, nbytes⟩ :: s.live⟩ frees) := by
  rcases h with hfresh | ⟨frees, hcons⟩
  · have hstart := hfresh.started
    have hmapped : arena.base.toNat + 8 ≤ (breaks grants).limit s.heap.kernel := by
      change _ ≤ s.heap.kernel
      rw [hfresh.kernel]
      exact arena.above
    have hfits : (breaks grants).limit s.heap.kernel ≤ 2 ^ 32 := hstart.fits.le
    obtain ⟨p, heap, hrun, hcases⟩ := hstart.search hbytes grants
    rw [malloc_first hfresh.freep hmapped hfits, hfresh.live]
    refine ⟨p, heap, hrun, ?_⟩
    rcases hcases with ⟨hzero, rfl, hrefuses⟩ | hfound
    · exact .inl ⟨hzero, hrefuses, [], hstart⟩
    · exact .inr hfound
  · have hlimit : s.heap.kernel ≤ (breaks grants).limit s.heap.kernel := le_rfl
    obtain ⟨p, heap, hrun, hcases⟩ := hcons.search hbytes grants
    rw [hcons.list.malloc_eq hcons.freep hlimit arena.nonnull]
    refine ⟨p, heap, hrun, ?_⟩
    rcases hcases with ⟨hzero, rfl, hrefuses⟩ | hfound
    · exact .inl ⟨hzero, hrefuses, frees, hcons⟩
    · exact .inr hfound

theorem Ok.free (h : s.Ok arena) {i : Nat} {l : Live} (hl : s.live[i]? = some l) :
    ∃ heap, User.free (breaks fun _ => false) l.ptr s.heap = .ok ((), heap) ∧
      Ok arena ⟨heap, s.live.eraseIdx i⟩ := by
  rcases h with hfresh | ⟨frees, hcons⟩
  · rw [hfresh.live] at hl
    cases hl
  · obtain ⟨heap, frees', hrun, hnext⟩ := hcons.free hl (breaks fun _ => false) rfl
    exact ⟨heap, hrun, .inr ⟨frees', hnext⟩⟩

theorem ok_step {next : UserHeap} {e : HeapEvent} (h : s.Ok arena) (hallowed : s.Allowed e)
    (hstep : s.step arena e = some next) : next.Ok arena := by
  cases e with
  | malloc nbytes grants =>
      obtain ⟨p, heap, hrun, hcases⟩ := h.malloc hallowed grants
      simp only [step, hrun, Option.some.injEq] at hstep
      subst hstep
      rcases hcases with ⟨hzero, -, hcons⟩ | ⟨hne, hcons⟩
      · rw [if_pos hzero]
        exact .inr hcons
      · rw [if_neg hne]
        exact .inr hcons
  | free i =>
      simp only [step] at hstep
      split at hstep
      next => cases hstep
      next l hl =>
        obtain ⟨heap, hrun, hok⟩ := h.free hl
        simp only [hrun, Option.some.injEq] at hstep
        subst hstep
        exact hok
  | write a byte =>
      obtain ⟨l, hl, hlow, hhigh⟩ := hallowed
      cases hstep
      rcases h with hfresh | ⟨frees, hcons⟩
      · rw [hfresh.live] at hl
        cases hl
      · exact .inr ⟨frees, hcons.write byte hl hlow hhigh⟩

/-- In every run the heap stays consistent, and every call returns: `malloc` with 0 if
`sbrk` refuses, or with an aligned block that is large enough and disjoint from all live
ones. -/
theorem heap_consistent (arena : Arena) (m : Memory) {s : UserHeap}
    (hreach : Reach (step arena) Allowed (start arena m) s) :
    (s.Fresh arena ∨ ∃ frees, s.Consistent arena frees) ∧
    (∀ nbytes grants, nbytes.toNat ≤ KERNBASE → ∃ p heap,
      User.malloc (breaks grants) arena.base nbytes s.heap = .ok (p, heap) ∧
      (p = 0 ∧ Refuses grants s.heap.kernel nbytes ∨ p ≠ 0 ∧ p.toNat % 8 = 0 ∧
        (blockAt heap.mem ⟨p, nbytes⟩).addr.toNat + 8 = p.toNat ∧
        p.toNat + nbytes.toNat ≤ (blockAt heap.mem ⟨p, nbytes⟩).stop ∧
        ∀ l ∈ s.live, Disjoint (blockAt heap.mem ⟨p, nbytes⟩).range
          (blockAt heap.mem l).range)) ∧
    ∀ (i : Nat) (l : Live), s.live[i]? = some l → ∃ heap,
      User.free (breaks fun _ => false) l.ptr s.heap = .ok ((), heap) := by
  have hok : s.Ok arena := hreach.invariant (Ok arena) (.inl ⟨rfl, rfl, rfl⟩) ok_step
  refine ⟨hok, ?_, ?_⟩
  · intro nbytes grants hbytes
    obtain ⟨p, heap, hrun, hcases⟩ := hok.malloc hbytes grants
    refine ⟨p, heap, hrun, ?_⟩
    rcases hcases with ⟨hzero, hrefuses, -⟩ | ⟨hne, frees, hcons⟩
    · exact .inl ⟨hzero, hrefuses⟩
    · have hplaced := hcons.placed (l := ⟨p, nbytes⟩) List.mem_cons_self
      have haddr := hplaced.addr
      have hroom := (hcons.room ⟨p, nbytes⟩ List.mem_cons_self).2
      have haligned := hcons.aligned (blockAt heap.mem ⟨p, nbytes⟩)
        (List.mem_append_right _ List.mem_cons_self)
      refine .inr ⟨hne, ?_, haddr, ?_, ?_⟩
      · dsimp only at haddr
        omega
      · unfold Block.stop
        dsimp only at haddr hroom ⊢
        omega
      · intro l hl
        have hpairs := hcons.tiles.disjoint
        rw [List.map_append] at hpairs
        have hblocks := (List.pairwise_append.mp hpairs).2.1
        rw [blocks, List.map_cons, List.map_cons] at hblocks
        exact (List.pairwise_cons.mp hblocks).1 _
          (List.mem_map_of_mem (List.mem_map_of_mem hl))
  · intro i l hl
    obtain ⟨heap, hrun, -⟩ := hok.free hl
    exact ⟨heap, hrun⟩

def pageArena : Arena where
  base := 4080
  start := 8192
  nonnull := by decide
  above := by decide
  aligned := by decide
  fits := by decide

/-- After a first `malloc` the block can be freed. -/
theorem heap_consistent_oneBlock :
    ∃ s, Reach (step pageArena) Allowed (start pageArena fun _ => 0) s ∧
      (∃ p, p ≠ 0 ∧ s.live = [⟨p, 20⟩]) ∧ (∃ frees, s.Consistent pageArena frees) ∧
      ∃ next, s.step pageArena (.free 0) = some next ∧ next.live = [] := by
  obtain ⟨-, hmalloc, -⟩ := heap_consistent pageArena (fun _ => 0) .refl
  have hsmall : (20 : Word).toNat ≤ KERNBASE := by decide
  obtain ⟨p, heap, hrun, hcases⟩ := hmalloc 20 (fun _ => true) hsmall
  have hp : p ≠ 0 := by
    rcases hcases with ⟨-, hrefuses⟩ | ⟨hne, -⟩
    · exact absurd ⟨rfl, by decide⟩ hrefuses
    · exact hne
  have hreach : Reach (step pageArena) Allowed (start pageArena fun _ => 0)
      ⟨heap, [⟨p, 20⟩]⟩ := by
    have hallowed : (start pageArena fun _ => 0).Allowed (.malloc 20 fun _ => true) := hsmall
    refine .tail .refl hallowed ?_
    simp only [step, hrun, if_neg hp]
    rfl
  obtain ⟨hok, -, hfree⟩ := heap_consistent pageArena (fun _ => 0) hreach
  refine ⟨_, hreach, ⟨p, hp, rfl⟩, ?_, ?_⟩
  · rcases hok with hfresh | hcons
    · cases hfresh.live
    · exact hcons
  · obtain ⟨next, hrun⟩ := hfree 0 ⟨p, 20⟩ rfl
    refine ⟨⟨next, []⟩, ?_, rfl⟩
    simp only [step, List.getElem?_cons_zero, hrun, List.eraseIdx_cons_zero]

end UserHeap

end KernelThreads.User
