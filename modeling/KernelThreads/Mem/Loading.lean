import Mathlib.Data.List.GetD
import KernelThreads.Mem.Copyout

namespace KernelThreads

open Lib Program

/-! The loading phase of `exec`: what it leaves in memory is the file's segments
over zeros. -/

def Readi.ofFile (file : List Byte) : Readi := fun off n =>
  if file.length < off ∨ 2 ^ 32 ≤ off + n then [] else (file.drop off).take n

def copyIn (memory : Nat → Byte) (start : Nat) (bytes : List Byte) : Nat → Byte := fun va =>
  if start ≤ va ∧ va < start + bytes.length then bytes.getD (va - start) 0 else memory va

theorem copyIn_nil (memory : Nat → Byte) (start : Nat) : copyIn memory start [] = memory := by
  funext va
  exact if_neg (by simp)

theorem copyIn_append (memory : Nat → Byte) (start : Nat) (bytes more : List Byte) :
    copyIn (copyIn memory start bytes) (start + bytes.length) more =
      copyIn memory start (bytes ++ more) := by
  funext va
  simp only [copyIn, List.length_append]
  by_cases hmore : start + bytes.length ≤ va ∧ va < start + bytes.length + more.length
  · rw [if_pos hmore, if_pos (by omega), List.getD_append_right _ _ _ _ (by omega)]
    congr 1
    omega
  · rw [if_neg hmore]
    by_cases hbytes : start ≤ va ∧ va < start + bytes.length
    · rw [if_pos hbytes, if_pos (by omega), List.getD_append _ _ _ _ (by omega)]
    · rw [if_neg hbytes, if_neg (by omega)]

def bytesOf (data : Nat → Content) : Nat → Byte := fun va => pageByte (data (va / PGSIZE)) va

theorem bytesOf_update (data : Nat → Content) (page : Nat) {offset : Nat} {bytes : List Byte}
    (hfits : offset + bytes.length ≤ PGSIZE) :
    bytesOf (Function.update data page (putBytes (data page) offset bytes)) =
      copyIn (bytesOf data) (page * PGSIZE + offset) bytes := by
  funext va
  have hmod : va % PGSIZE < PGSIZE := Nat.mod_lt _ (by decide)
  have hva := Nat.div_add_mod va PGSIZE
  rw [Nat.mul_comm] at hva
  simp only [bytesOf, copyIn]
  by_cases hpage : va / PGSIZE = page
  · rw [hpage, Function.update_self, pageByte_mod, pageByte_putBytes _ hfits hmod]
    rw [hpage] at hva
    refine ite_congr (by rw [eq_iff_iff]; omega) (fun _ => ?_) fun _ => (pageByte_mod _ _).symm
    congr 1
    omega
  · rw [Function.update_of_ne hpage, if_neg]
    intro hin
    apply hpage
    simp only [PGSIZE] at *
    omega

variable {pool : Frame → Prop} {m₀ m next : Mem} {d : Frame} {map : Nat → Word}
  {data : Nat → Content} {file : List Byte}

def slice (file : List Byte) (off n : Nat) : List Byte := (file.drop off).take n

theorem slice_zero (file : List Byte) (off : Nat) : slice file off 0 = [] := List.take_zero

theorem slice_append (file : List Byte) (off n k : Nat) :
    slice file off n ++ slice file (off + n) k = slice file off (n + k) := by
  simp only [slice]
  rw [List.take_add, List.drop_drop]

theorem length_slice {off n : Nat} (h : off + n ≤ file.length) :
    (slice file off n).length = n := by
  rw [slice, List.length_take, List.length_drop]
  omega

theorem Readi.ofFile_full {off n : Nat} (hpos : 0 < n)
    (h : ((Readi.ofFile file off n).take n).length = n) :
    Readi.ofFile file off n = slice file off n ∧ off + n ≤ file.length := by
  unfold Readi.ofFile at h ⊢
  split
  next hbad =>
    rw [if_pos hbad] at h
    simp at h
    omega
  next hgood =>
    rw [if_neg hgood, List.length_take, List.length_take, List.length_drop] at h
    exact ⟨rfl, by omega⟩

namespace Vm

theorem moveBytes {page offset : Nat} {bytes : List Byte}
    (h : Vm pool m₀ d map data none m) (hpage : page * PGSIZE < KERNBASE)
    (hpresent : (map page).has PTE_P = true) :
    Vm pool m₀ d map (Function.update data page (putBytes (data page) offset bytes)) none
      (m.writeBytes (map page).addr offset bytes) := by
  rw [Mem.writeBytes_page, h.contents page hpage hpresent]
  exact h.write hpage hpresent _

def Loads (pool : Frame → Prop) (m₀ : Mem) (d : Frame) (map : Nat → Word)
    (memory : Nat → Byte) (file : List Byte) (addr off sz : Nat) (success : Bool)
    (next : Mem) : Prop :=
  if success = true then
    (sz ≠ 0 → off + sz ≤ file.length) ∧ ∃ data', Vm pool m₀ d map data' none next ∧
      bytesOf data' = copyIn memory addr (slice file off sz)
  else (sz ≠ 0 ∧ file.length < off + sz) ∧ ∃ data', Vm pool m₀ d map data' none next

theorem meets_loadPages {addr off sz turns i : Nat} {memory : Nat → Byte}
    (hfile : file.length < 2 ^ 32) (hoff : off < 2 ^ 32)
    (h : Vm pool m₀ d map data none m) (haddr : addr % PGSIZE = 0)
    (hpages : ∀ page, addr ≤ page * PGSIZE → page * PGSIZE < addr + sz →
      (map page).has PTE_P = true) (hsz : addr + sz ≤ KERNBASE)
    (haligned : i % PGSIZE = 0) (hnear : i < sz + PGSIZE)
    (hturns : sz ≤ i + turns * PGSIZE)
    (hread : 0 < i → off + min i sz ≤ file.length)
    (hbytes : bytesOf data = copyIn memory addr (slice file off (min i sz))) :
    Meets (loadPages d addr (Readi.ofFile file) off sz turns i) (fun _ => False) m
      (Loads pool m₀ d map memory file addr off sz) := by
  have hdone : ∀ {m : Mem} {data : Nat → Content} {i : Nat}, sz ≤ i →
      Vm pool m₀ d map data none m → (0 < i → off + min i sz ≤ file.length) →
      bytesOf data = copyIn memory addr (slice file off (min i sz)) →
        Loads pool m₀ d map memory file addr off sz true m := by
    intro m data i hi hvm hread hbytes
    rw [min_eq_right hi] at hread hbytes
    refine (if_pos rfl).mpr ⟨fun hne => hread (by omega), data, hvm, hbytes⟩
  induction turns generalizing i data m with
  | zero => exact Meets.pure (hdone (by omega) h hread hbytes)
  | succ turns ih =>
      unfold loadPages
      split
      next hi =>
        have hva : addr + i < KERNBASE := by omega
        have hback : (addr + i) / PGSIZE * PGSIZE = addr + i := by
          refine Nat.div_mul_cancel (Nat.dvd_of_mod_eq_zero ?_)
          rw [Nat.add_mod, haddr, haligned]
          rfl
        have hthere : (map ((addr + i) / PGSIZE)).has PTE_P = true :=
          hpages _ (by omega) (by omega)
        have hview := h.view (addr + i) (lt_two_pow hva)
        have hpde : (m.page d (pdx (addr + i))).has PTE_P = true :=
          Mem.pde_present (by rw [hview, hthere])
        have hloc : Located m d (addr + i) (m.page d (pdx (addr + i))).addr (ptx (addr + i)) :=
          ⟨hpde, rfl, rfl⟩
        refine Meets.bind_ok (walkpgdir_present hpde) ?_
        refine Meets.bind_ok (rfl : load _ _ m = .ok (m.page _ _, m)) ?_
        rw [← hloc.pte, hview]
        refine Meets.bind_ok (rfl : KernelThreads.moveBytes _ _ _ m = .ok ((), m.writeBytes _ _ _)) ?_
        generalize hn : min (sz - i) PGSIZE = n
        have hmoved := @moveBytes _ _ _ _ _ _ ((addr + i) / PGSIZE) 0
          ((Readi.ofFile file ((off + i) % 2 ^ 32) n).take n) h (by omega) hthere
        split
        next hshort =>
          refine Meets.pure ⟨⟨by omega, not_le.mp fun hin => hshort ?_⟩, _, hmoved⟩
          rw [Nat.mod_eq_of_lt (by omega), Readi.ofFile, if_neg (by omega), List.take_take,
            Nat.min_self]
          exact length_slice (by omega)
        next hfull =>
          have hpos : 0 < n := by
            have hpage : 0 < PGSIZE := by decide
            omega
          have hfull : ((Readi.ofFile file ((off + i) % 2 ^ 32) n).take n).length = n :=
            not_not.mp hfull
          obtain ⟨hslice, hend⟩ := Readi.ofFile_full hpos hfull
          -- The pages before this one are from the file, so the sum does not wrap.
          have hmin : min i sz = i := min_eq_left (le_of_lt hi)
          have hwrap : (off + i) % 2 ^ 32 = off + i := by
            refine Nat.mod_eq_of_lt ?_
            by_cases hzero : i = 0
            · omega
            · have hbefore := hread (by omega)
              omega
          rw [hwrap] at hslice hend hmoved
          have hnext : min (i + PGSIZE) sz = i + n := by omega
          have hlength : (slice file off i).length = i := by
            by_cases hzero : i = 0
            · rw [hzero, slice_zero]
              rfl
            · rw [hmin] at hread
              exact length_slice (hread (by omega))
          have htake : (Readi.ofFile file (off + i) n).take n = slice file (off + i) n := by
            rw [hslice]
            exact List.take_of_length_le (le_of_eq (length_slice hend))
          rw [hwrap, htake]
          rw [htake] at hmoved
          refine ih hmoved (by rw [Nat.add_mod_right, haligned]) (by omega) ?_ ?_ ?_
          · rw [Nat.succ_mul] at hturns
            omega
          · intro _
            rw [hnext]
            omega
          · rw [bytesOf_update _ _ (by rw [length_slice hend]; omega), hbytes, hback, hmin, hnext,
              ← slice_append, ← copyIn_append, hlength]
            rfl
      next hi => exact Meets.pure (hdone (not_lt.mp hi) h hread hbytes)

theorem meets_loaduvm {addr off sz : Nat} (hfile : file.length < 2 ^ 32)
    (hoff : off < 2 ^ 32) (h : Vm pool m₀ d map data none m) (haddr : addr % PGSIZE = 0)
    (hpages : ∀ page, addr ≤ page * PGSIZE → page * PGSIZE < addr + sz →
      (map page).has PTE_P = true) (hsz : addr + sz ≤ KERNBASE) :
    Meets (loaduvm d addr (Readi.ofFile file) off sz) (fun _ => False) m
      (Loads pool m₀ d map (bytesOf data) file addr off sz) := by
  unfold loaduvm
  rw [if_neg (by simp [haddr])]
  refine h.meets_loadPages hfile hoff haddr hpages hsz (by decide) (by simp [PGSIZE]) ?_ ?_ ?_
  · simp only [PGSIZE]
    omega
  · exact fun hpos => absurd hpos (lt_irrefl 0)
  · rw [Nat.zero_min, slice_zero, copyIn_nil]

end Vm

def overlay (file : List Byte) (memory : Nat → Byte) (ph : Proghdr) : Nat → Byte :=
  if ph.type = ELF_PROG_LOAD then copyIn memory ph.vaddr (slice file ph.off ph.filesz)
  else memory

def Proghdr.extend (sz : Nat) (ph : Proghdr) : Nat :=
  if ph.type = ELF_PROG_LOAD then max sz (ph.vaddr + ph.memsz) else sz

structure Proghdr.Fits (file : List Byte) (ph : Proghdr) : Prop where
  aligned : ph.type = ELF_PROG_LOAD → ph.vaddr % PGSIZE = 0
  memory : ph.type = ELF_PROG_LOAD → ph.filesz ≤ ph.memsz
  below : ph.type = ELF_PROG_LOAD → ph.vaddr + ph.memsz < KERNBASE
  file : ph.type = ELF_PROG_LOAD → ph.filesz ≠ 0 → ph.off + ph.filesz ≤ file.length

/-- What the loop asks of a header. -/
def Proghdr.Loadable (file : List Byte) (ph : Proghdr) : Prop :=
  ph.type = ELF_PROG_LOAD → ph.vaddr % PGSIZE = 0 ∧ ph.filesz ≤ ph.memsz ∧
    0 < ph.vaddr + ph.memsz ∧ ph.vaddr + ph.memsz < KERNBASE ∧
      (ph.filesz ≠ 0 → ph.off + ph.filesz ≤ file.length)

instance (file : List Byte) (ph : Proghdr) : Decidable (ph.Loadable file) :=
  inferInstanceAs (Decidable (_ → _))

structure Filling (image : Image) (map : Nat → Word) (data : Nat → Content)
    (memory : Nat → Byte) (sz : Nat) : Prop where
  user : ∀ page, page * PGSIZE < pgRoundUp sz → (map page).flags = PTE_W ||| PTE_U ||| PTE_P
  above : ∀ page, pgRoundUp sz ≤ page * PGSIZE → map page = kernelMap image page
  bytes : ∀ va < pgRoundUp sz, bytesOf data va = memory va
  zero : ∀ va, sz ≤ va → memory va = 0
  below : sz ≤ KERNBASE

def Spoiled (pool : Frame → Prop) (m₀ : Mem) (d : Frame) (next : Mem) : Prop :=
  ∃ map data, Vm pool m₀ d map data none next

def Holding (pool : Frame → Prop) (m₀ : Mem) (d : Frame) (memory : Nat → Byte)
    (sz : Nat) (next : Mem) : Prop :=
  ∃ map data, Vm pool m₀ d map data none next ∧ Filling m₀.image map data memory sz

variable {memory : Nat → Byte} {sz newsz : Nat}

theorem page_lt_iff {va bound : Nat} (h : bound % PGSIZE = 0) :
    va / PGSIZE * PGSIZE < bound ↔ va < bound := by
  simp only [PGSIZE] at *
  omega

theorem pgRoundUp_mono {n k : Nat} (h : n ≤ k) : pgRoundUp n ≤ pgRoundUp k := by
  simp only [pgRoundUp, PGSIZE]
  omega

theorem pageByte_zero (va : Nat) : pageByte (fun _ => 0) va = 0 := by
  simp [pageByte]

namespace Filling

variable {image : Image}

theorem start (image : Image) :
    Filling image (kernelMap image) (fun _ _ => 0) (fun _ => 0) 0 := by
  have hzero : pgRoundUp 0 = 0 := by decide
  refine ⟨?_, fun _ _ => rfl, ?_, fun _ _ => rfl, Nat.zero_le _⟩
  · rw [hzero]
    exact fun _ hpage => absurd hpage (Nat.not_lt_zero _)
  · rw [hzero]
    exact fun _ hva => absurd hva (Nat.not_lt_zero _)

theorem present (h : Filling image map data memory sz) {page : Nat}
    (hpage : page * PGSIZE < pgRoundUp sz) : (map page).has PTE_P = true :=
  (Word.has_of_flags (h.user page hpage)).1

theorem round_le (h : Filling image map data memory sz) : pgRoundUp sz ≤ KERNBASE :=
  Vm.pgRoundUp_le_aligned (by decide) h.below

theorem absent (h : Filling image map data memory sz) {page : Nat}
    (hpage : pgRoundUp sz ≤ page * PGSIZE) (huser : page * PGSIZE < KERNBASE) :
    (map page).has PTE_P = false := by
  rw [h.above page hpage, kernelMap_user _ huser]
  simp

theorem round (h : Filling image map data memory sz) :
    Filling image map data memory (pgRoundUp sz) where
  user := by rw [pgRoundUp_idem]; exact h.user
  above := by rw [pgRoundUp_idem]; exact h.above
  bytes := by rw [pgRoundUp_idem]; exact h.bytes
  zero va hva := h.zero va ((Space.le_pgRoundUp sz).trans hva)
  below := h.round_le

theorem grow {after : Nat → Word} {data' : Nat → Content}
    (h : Filling image map data memory sz) (hle : sz ≤ newsz) (hsz : newsz ≤ KERNBASE)
    (hzeroed : Vm.Zeroed map after data data' (pgRoundUp sz)
      (max (pgRoundUp sz) (pgRoundUp newsz))) :
    Filling image after data' memory newsz := by
  rw [max_eq_right (pgRoundUp_mono hle)] at hzeroed
  constructor
  case user =>
    intro page hpage
    by_cases hold : page * PGSIZE < pgRoundUp sz
    · rw [hzeroed.same page fun hin => absurd hold (not_lt.mpr hin.1)]
      exact h.user page hold
    · exact hzeroed.flags page (not_lt.mp hold) hpage
  case above =>
    intro page hpage
    rw [hzeroed.same page fun hin => absurd hin.2 (not_lt.mpr hpage)]
    exact h.above page ((pgRoundUp_mono hle).trans hpage)
  case bytes =>
    intro va hva
    have hpage : va / PGSIZE * PGSIZE < pgRoundUp sz ↔ va < pgRoundUp sz :=
      page_lt_iff (Space.pgRoundUp_aligned sz)
    by_cases hold : va < pgRoundUp sz
    · rw [bytesOf, hzeroed.kept _ fun hin => absurd (hpage.mpr hold) (not_lt.mpr hin.1)]
      exact h.bytes va hold
    · have hnew : va / PGSIZE * PGSIZE < pgRoundUp newsz :=
        (page_lt_iff (Space.pgRoundUp_aligned newsz)).mpr hva
      rw [bytesOf, hzeroed.zero _ (not_lt.mp fun hlt => hold (hpage.mp hlt)) hnew,
        pageByte_zero, h.zero va ((Space.le_pgRoundUp sz).trans (not_lt.mp hold))]
  case zero => exact fun va hva => h.zero va (hle.trans hva)
  case below => exact hsz

theorem load {data' : Nat → Content} {addr : Nat} {bytes : List Byte}
    (h : Filling image map data memory sz) (hend : addr + bytes.length ≤ sz)
    (hdata : bytesOf data' = copyIn (bytesOf data) addr bytes) :
    Filling image map data' (copyIn memory addr bytes) sz where
  user := h.user
  above := h.above
  bytes := by
    intro va hva
    simp only [hdata, copyIn, h.bytes va hva]
  zero := by
    intro va hva
    rw [copyIn, if_neg (by omega), h.zero va hva]
  below := h.below

theorem short (h : Filling m₀.image map data memory sz)
    (hpool : ∀ f ∈ m₀.freelist, pool f) (hnodup : m₀.freelist.Nodup)
    (hle : sz ≤ newsz) (hempty : Vm.Exhausts pool m₀ d map newsz) :
    m₀.freelist.length ≤ 1026 + pgRoundUp newsz / PGSIZE := by
  obtain ⟨after, data', held, mid, hvm, hlist, hpages⟩ := hempty
  refine hvm.exhausted _ hpool hnodup hlist fun page hpage hthere => ?_
  have hbelow : page * PGSIZE < pgRoundUp newsz := by
    rcases hpages page hpage hthere with hold | hnew
    · by_contra hout
      rw [h.absent ((pgRoundUp_mono hle).trans (not_lt.mp hout)) hpage] at hold
      cases hold
    · exact lt_of_lt_of_le hnew (Space.le_pgRoundUp _)
  simp only [pgRoundUp, PGSIZE] at *
  omega

theorem meets_allocuvm (h : Filling m₀.image map data memory sz)
    (hpool : ∀ f ∈ m₀.freelist, pool f) (hnodup : m₀.freelist.Nodup)
    (hvm : Vm pool m₀ d map data none m) :
    Meets (allocuvm d sz newsz) (fun _ => False) m fun result next =>
      (result = 0 ∧ Spoiled pool m₀ d next ∧ (0 < newsz → newsz < KERNBASE →
          m₀.freelist.length ≤ 1026 + pgRoundUp newsz / PGSIZE)) ∨
        result ≠ 0 ∧ result = max sz newsz ∧ newsz < KERNBASE ∧
          Holding pool m₀ d memory result next := by
  by_cases hbig : KERNBASE ≤ newsz
  · rw [allocuvm, if_pos hbig]
    exact Meets.pure (.inl ⟨rfl, ⟨map, data, hvm⟩, fun _ hlt => absurd hbig (not_le.mpr hlt)⟩)
  by_cases hless : newsz < sz
  · rw [allocuvm, if_neg hbig, if_pos hless]
    exact Meets.pure (.inr ⟨by omega, (max_eq_left (le_of_lt hless)).symm, not_le.mp hbig,
      map, data, hvm, h⟩)
  have hle := not_lt.mp hless
  have hlt := not_le.mp hbig
  refine (hvm.meets_allocuvm hlt hle fun page hlow hhigh =>
    h.absent hlow (lt_trans hhigh hlt)).weaken ?_
  intro result next hgrows
  rcases hgrows with ⟨rfl, after, data', hzeroed, hnext⟩ | ⟨rfl, hempty, after, _, hnext⟩
  · by_cases hzero : result = 0
    · exact .inl ⟨hzero, ⟨after, data', hnext⟩, fun hpos => absurd hzero (ne_of_gt hpos)⟩
    · exact .inr ⟨hzero, (max_eq_right hle).symm, hlt, after, data', hnext,
        h.grow hle (le_of_lt hlt) hzeroed⟩
  · exact .inl ⟨rfl, ⟨after, data, hnext⟩, fun _ _ => h.short hpool hnodup hle hempty⟩

end Filling

/-- What a step of the loading phase leaves: an image of the given size, or
something to give up, for want of memory if the file is `loadable`. -/
def Extends (pool : Frame → Prop) (m₀ : Mem) (d : Frame) (accepted loadable : Prop)
    (memory : Nat → Byte) (sz : Nat) (result : Option Nat) (next : Mem) : Prop :=
  match result with
  | none => Spoiled pool m₀ d next ∧
      (loadable → m₀.freelist.length ≤ 1026 + pgRoundUp sz / PGSIZE)
  | some size => size = sz ∧ accepted ∧ Holding pool m₀ d memory sz next

theorem pages_mono {n k : Nat} (h : n ≤ k) : pgRoundUp n / PGSIZE ≤ pgRoundUp k / PGSIZE :=
  Nat.div_le_div_right (pgRoundUp_mono h)

theorem meets_loadSegment {ph : Proghdr} (hpool : ∀ f ∈ m₀.freelist, pool f)
    (hnodup : m₀.freelist.Nodup) (hfile : file.length < 2 ^ 32)
    (hoff : ph.off < 2 ^ 32) (h : Holding pool m₀ d memory sz m) :
    Meets (loadSegment (Readi.ofFile file) d ph sz) (fun _ => False) m
      (Extends pool m₀ d (ph.Fits file) (ph.Loadable file) (overlay file memory ph)
        (ph.extend sz)) := by
  obtain ⟨map, data, hvm, hfilling⟩ := h
  unfold loadSegment overlay Proghdr.extend
  by_cases htype : ph.type = ELF_PROG_LOAD
  · rw [if_neg (not_not.mpr htype), if_pos htype, if_pos htype]
    split
    next hbad =>
      refine Meets.pure ⟨⟨map, data, hvm⟩, fun hload => ?_⟩
      obtain ⟨_, hsizes, _, hbelow, _⟩ := hload htype
      simp only [KERNBASE] at hbelow
      omega
    next hgood =>
      refine Meets.bind (hfilling.meets_allocuvm hpool hnodup hvm) ?_
      rintro size grown (⟨rfl, hspoiled, hshort⟩ | ⟨hne, hsize, hlt, map', data', hvm', hfilling'⟩)
      · rw [if_pos (.inl rfl)]
        refine Meets.pure ⟨hspoiled, fun hload => ?_⟩
        obtain ⟨_, _, hpos, hbelow, _⟩ := hload htype
        have hmore := pages_mono (le_max_right sz (ph.vaddr + ph.memsz))
        exact (hshort hpos hbelow).trans (Nat.add_le_add_left hmore _)
      · split
        next hbad =>
          refine Meets.pure ⟨⟨map', data', hvm'⟩, fun hload => ?_⟩
          exact absurd hbad (not_or.mpr ⟨hne, not_not.mpr (hload htype).1⟩)
        next haligned =>
          have haligned : ph.vaddr % PGSIZE = 0 := by
            by_contra hno
            exact haligned (.inr hno)
          have hend : ph.vaddr + ph.filesz ≤ size := by omega
          refine Meets.bind (hvm'.meets_loaduvm hfile hoff haligned (fun page _ hpage =>
            hfilling'.present (lt_of_lt_of_le hpage (hend.trans (Space.le_pgRoundUp _))))
            (by omega)) ?_
          intro success loaded hloads
          cases success with
          | false =>
              obtain ⟨⟨hsome, hbeyond⟩, data'', hvm''⟩ := hloads
              refine Meets.pure ⟨⟨map', data'', hvm''⟩, fun hload => ?_⟩
              exact absurd ((hload htype).2.2.2.2 hsome) (not_le.mpr hbeyond)
          | true =>
              obtain ⟨hread, data'', hvm'', hbytes⟩ := hloads
              refine Meets.pure ⟨hsize, ⟨fun _ => haligned, fun _ => by omega,
                fun _ => hlt, fun _ => hread⟩, map', data'', hvm'', ?_⟩
              rw [← hsize]
              refine hfilling'.load ?_ hbytes
              by_cases hempty : ph.filesz = 0
              · rw [hempty, slice_zero, List.length_nil]
                omega
              · rw [length_slice (hread hempty)]
                exact hend
  · rw [if_pos htype, if_neg htype, if_neg htype]
    exact Meets.pure ⟨rfl, ⟨fun h => absurd h htype, fun h => absurd h htype,
      fun h => absurd h htype, fun h => absurd h htype⟩, map, data, hvm, hfilling⟩

def headersFrom (file : List Byte) : Nat → Nat → List Proghdr
  | 0, _ => []
  | more + 1, off =>
      proghdr (slice file off 32) :: headersFrom file more ((off + 32) % 2 ^ 32)

theorem field_lt (bytes : List Byte) (offset size : Nat) :
    field bytes offset size < 2 ^ (8 * size) := by
  have hfold : ∀ bytes : List Byte,
      bytes.foldr (fun byte rest => byte.toNat + 256 * rest) 0 < 2 ^ (8 * bytes.length) := by
    intro bytes
    induction bytes with
    | nil => decide
    | cons byte rest ih =>
        have hbyte := byte.isLt
        rw [List.foldr_cons, List.length_cons, Nat.mul_succ, Nat.pow_add]
        omega
  refine lt_of_lt_of_le (hfold _) (Nat.pow_le_pow_right (by decide) ?_)
  rw [List.length_take]
  omega

theorem extend_mono (phs : List Proghdr) (sz : Nat) : sz ≤ phs.foldl Proghdr.extend sz := by
  induction phs generalizing sz with
  | nil => exact le_rfl
  | cons ph rest ih =>
      refine le_trans ?_ (ih _)
      unfold Proghdr.extend
      split
      · exact le_max_left ..
      · exact le_rfl

theorem meets_loadSegments {count off : Nat} (hpool : ∀ f ∈ m₀.freelist, pool f)
    (hnodup : m₀.freelist.Nodup) (hfile : file.length < 2 ^ 32)
    (h : Holding pool m₀ d memory sz m) :
    Meets (loadSegments (Readi.ofFile file) d count off sz) (fun _ => False) m
      (Extends pool m₀ d (∀ ph ∈ headersFrom file count off, ph.Fits file)
        (off + 32 * count ≤ file.length ∧
          ∀ ph ∈ headersFrom file count off, ph.Loadable file)
        ((headersFrom file count off).foldl (overlay file) memory)
        ((headersFrom file count off).foldl Proghdr.extend sz)) := by
  induction count generalizing off memory sz m with
  | zero => exact Meets.pure ⟨rfl, nofun, h⟩
  | succ count ih =>
      obtain ⟨map, data, hvm, hfilling⟩ := h
      unfold loadSegments
      dsimp only
      split
      next hbad =>
        refine Meets.pure ⟨⟨map, data, hvm⟩, fun hload => absurd ?_ hbad⟩
        rw [Readi.ofFile, if_neg (by omega)]
        exact length_slice (by omega)
      next hread =>
        have hlength : ((Readi.ofFile file off 32).take 32).length = 32 := by
          rw [List.length_take, not_not.mp hread]
          rfl
        rw [(Readi.ofFile_full (by decide) hlength).1]
        refine Meets.bind (meets_loadSegment hpool hnodup hfile (field_lt _ 4 4)
          ⟨map, data, hvm, hfilling⟩) ?_
        intro result loaded hloaded
        cases result with
        | none =>
            refine Meets.pure ⟨hloaded.1, fun hload => ?_⟩
            refine (hloaded.2 (hload.2 _ List.mem_cons_self)).trans (Nat.add_le_add_left ?_ _)
            exact pages_mono (extend_mono ..)
        | some size =>
            obtain ⟨rfl, hfits, hholding⟩ := hloaded
            refine (ih hholding).weaken ?_
            intro result next hnext
            cases result with
            | none =>
                refine ⟨hnext.1, fun hload => hnext.2 ⟨?_, fun ph hph => ?_⟩⟩
                · rw [Nat.mod_eq_of_lt (by omega)]
                  omega
                · exact hload.2 ph (List.mem_cons_of_mem _ hph)
            | some size =>
                obtain ⟨hsize, hall, hlast⟩ := hnext
                exact ⟨hsize, List.forall_mem_cons.mpr ⟨hfits, hall⟩, hlast⟩

/-- The guard page and the stack page; the new size.  The sum of the sizes is not
to be computed in unary. -/
@[irreducible] def stackPages (pgdir : Frame) (sz : Nat) : MemProgram (Option Nat) := do
  let sz := pgRoundUp sz
  let sz ← allocuvm pgdir sz (sz + 2 * PGSIZE)
  if sz = 0 then
    return none
  else
    clearpteu pgdir (sz - 2 * PGSIZE)
    return some sz

def loadPhase (readi : Readi) : MemProgram (Option (Frame × Nat)) := do
  let elf := readi 0 52
  if elf.length ≠ 52 ∨ field elf 0 4 ≠ ELF_MAGIC then
    return none
  else
    match ← setupkvm with
    | none => return none
    | some pgdir =>
        match ← loadSegments readi pgdir (field elf 44 2) (field elf 28 4) 0 with
        | none =>
            freevm (some pgdir)
            return none
        | some sz =>
            match ← stackPages pgdir sz with
            | none =>
                freevm (some pgdir)
                return none
            | some sz => return some (pgdir, sz)

structure Stacked (image : Image) (map : Nat → Word) (data : Nat → Content)
    (memory : Nat → Byte) (low : Nat) : Prop where
  aligned : low % PGSIZE = 0
  below : low + 2 * PGSIZE < KERNBASE
  user : ∀ page, page * PGSIZE < low + 2 * PGSIZE → page * PGSIZE ≠ low →
    (map page).flags = PTE_W ||| PTE_U ||| PTE_P
  guard : ∀ page, page * PGSIZE = low → (map page).flags = PTE_W ||| PTE_P
  above : ∀ page, low + 2 * PGSIZE ≤ page * PGSIZE → map page = kernelMap image page
  bytes : ∀ va < low + 2 * PGSIZE, bytesOf data va = memory va

theorem Filling.stacked {image : Image} {low : Nat}
    (h : Filling image map data memory (low + 2 * PGSIZE)) (haligned : low % PGSIZE = 0)
    (hbelow : low + 2 * PGSIZE < KERNBASE) :
    Stacked image (Function.update map (low / PGSIZE) (.pte (map (low / PGSIZE)).addr
      ((map (low / PGSIZE)).flags &&& ~~~PTE_U))) data memory low := by
  have hround : pgRoundUp (low + 2 * PGSIZE) = low + 2 * PGSIZE := by
    clear h hbelow
    simp only [pgRoundUp, PGSIZE] at *
    omega
  have hback := div_mul_of_aligned haligned
  have hpage : ∀ page, page = low / PGSIZE ↔ page * PGSIZE = low := by
    intro page
    clear h hbelow hround
    simp only [PGSIZE] at *
    omega
  have hlow : low < low + 2 * PGSIZE := Nat.lt_add_of_pos_right (by decide)
  obtain ⟨huser, habove, hbytes, _, _⟩ := h
  rw [hround] at huser habove hbytes
  refine ⟨haligned, hbelow, fun page hlt hne => ?_, fun page heq => ?_, fun page hle => ?_,
    hbytes⟩
  · rw [Function.update_of_ne fun heq => hne ((hpage page).mp heq)]
    exact huser page hlt
  · rw [(hpage page).mpr heq, Function.update_self, Word.flags_pte,
      huser _ (by rw [hback]; exact hlow)]
    decide
  · rw [Function.update_of_ne fun heq => ?_]
    · exact habove page hle
    · rw [(hpage page).mp heq] at hle
      omega

def Ready (pool : Frame → Prop) (m₀ : Mem) (d : Frame) (memory : Nat → Byte) (low : Nat)
    (next : Mem) : Prop :=
  ∃ map data, Vm pool m₀ d map data none next ∧ Stacked m₀.image map data memory low

theorem Vm.meets_clearpteu {va : Nat} (h : Vm pool m₀ d map data none m)
    (hva : va < KERNBASE) (hpresent : (map (va / PGSIZE)).has PTE_P = true) :
    Meets (clearpteu d va) (fun _ => False) m fun _ next =>
      Vm pool m₀ d (Function.update map (va / PGSIZE) (.pte (map (va / PGSIZE)).addr
        ((map (va / PGSIZE)).flags &&& ~~~PTE_U))) data none next := by
  have hview := h.view va (lt_two_pow hva)
  have hpde : (m.page d (pdx va)).has PTE_P = true :=
    Mem.pde_present (by rw [hview, hpresent])
  have hloc : Located m d va (m.page d (pdx va)).addr (ptx va) := ⟨hpde, rfl, rfl⟩
  have hclear : ∀ flags : PteFlags, flags &&& PTE_P ≠ 0 →
      (flags &&& ~~~PTE_U) &&& PTE_P ≠ 0 := by
    intro flags hflags
    rwa [BitVec.and_assoc, show ~~~PTE_U &&& PTE_P = PTE_P by decide]
  unfold clearpteu
  refine Meets.bind_ok (walkpgdir_present hpde) ?_
  refine Meets.bind_ok (rfl : load _ _ m = .ok (m.page _ _, m)) ?_
  rw [← hloc.pte, hview]
  refine Meets.of_ok rfl (h.reflag hloc hva hpresent ?_ (Word.addr_pte ..))
  rw [Word.has_pte, decide_eq_true_eq]
  exact hclear _ (by simpa [Word.has] using hpresent)

def StackEnds (pool : Frame → Prop) (m₀ : Mem) (d : Frame) (memory : Nat → Byte)
    (sz : Nat) (result : Option Nat) (next : Mem) : Prop :=
  match result with
  | none => Spoiled pool m₀ d next ∧ (pgRoundUp sz + 2 * PGSIZE < KERNBASE →
      m₀.freelist.length ≤ 1026 + pgRoundUp (pgRoundUp sz + 2 * PGSIZE) / PGSIZE)
  | some size =>
      size = pgRoundUp sz + 2 * PGSIZE ∧ Ready pool m₀ d memory (pgRoundUp sz) next

theorem meets_clearGuard {size : Nat}
    (h : (size = 0 ∧ Spoiled pool m₀ d m ∧ (0 < pgRoundUp sz + 2 * PGSIZE →
      pgRoundUp sz + 2 * PGSIZE < KERNBASE → m₀.freelist.length ≤
        1026 + pgRoundUp (pgRoundUp sz + 2 * PGSIZE) / PGSIZE)) ∨ size ≠ 0 ∧
      size = max (pgRoundUp sz) (pgRoundUp sz + 2 * PGSIZE) ∧
        pgRoundUp sz + 2 * PGSIZE < KERNBASE ∧ Holding pool m₀ d memory size m) :
    Meets (if size = 0 then pure none else do
      clearpteu d (size - 2 * PGSIZE)
      return some size) (fun _ => False) m (StackEnds pool m₀ d memory sz) := by
  rcases h with ⟨hzero, hspoiled, hempty⟩ | ⟨hne, hsize, hlt, map, data, hvm, hfilling⟩
  · rw [if_pos hzero]
    refine Meets.pure ⟨hspoiled, fun hlt => hempty ?_ hlt⟩
    exact lt_of_lt_of_le (by decide) (Nat.le_add_left ..)
  · rw [if_neg hne]
    rw [max_eq_right (Nat.le_add_right ..)] at hsize
    subst hsize
    rw [Nat.add_sub_cancel]
    have hback := div_mul_of_aligned (Space.pgRoundUp_aligned sz)
    have hpresent : (map (pgRoundUp sz / PGSIZE)).has PTE_P = true := by
      refine hfilling.present ?_
      rw [hback]
      exact lt_of_lt_of_le (Nat.lt_add_of_pos_right (by decide)) (Space.le_pgRoundUp _)
    refine Meets.bind (hvm.meets_clearpteu (by omega) hpresent) ?_
    intro _ cleared hcleared
    exact Meets.pure ⟨rfl, _, data, hcleared,
      hfilling.stacked (Space.pgRoundUp_aligned sz) hlt⟩

theorem Holding.meets {α : Type} {program : MemProgram α} {post : α → Mem → Prop}
    (h : Holding pool m₀ d memory sz m)
    (hall : ∀ map data, Vm pool m₀ d map data none m →
      Filling m₀.image map data memory sz → Meets program (fun _ => False) m post) :
    Meets program (fun _ => False) m post := by
  obtain ⟨map, data, hvm, hfilling⟩ := h
  exact hall map data hvm hfilling

theorem meets_growStack {size : Nat} (hpool : ∀ f ∈ m₀.freelist, pool f)
    (hnodup : m₀.freelist.Nodup) (hsize : size = pgRoundUp sz + 2 * PGSIZE)
    (h : Holding pool m₀ d memory sz m) :
    Meets (allocuvm d (pgRoundUp sz) size >>= fun size => if size = 0 then pure none else do
      clearpteu d (size - 2 * PGSIZE)
      return some size) (fun _ => False) m (StackEnds pool m₀ d memory sz) := by
  refine h.meets fun map data hvm hfilling => ?_
  refine Meets.bind (hfilling.round.meets_allocuvm hpool hnodup hvm) ?_
  intro size grown hgrown
  subst hsize
  exact meets_clearGuard hgrown

theorem meets_stackPages (hpool : ∀ f ∈ m₀.freelist, pool f) (hnodup : m₀.freelist.Nodup)
    (h : Holding pool m₀ d memory sz m) :
    Meets (stackPages d sz) (fun _ => False) m (StackEnds pool m₀ d memory sz) := by
  unfold stackPages
  dsimp only
  generalize hsize : pgRoundUp sz + 2 * PGSIZE = size
  exact meets_growStack hpool hnodup hsize.symm h

def headers (file : List Byte) : List Proghdr :=
  headersFrom file (field (slice file 0 52) 44 2) (field (slice file 0 52) 28 4)

/-- Zeros, overwritten by the segments of the file in order. -/
def imageBytes (file : List Byte) : Nat → Byte :=
  (headers file).foldl (overlay file) fun _ => 0

def imageEnd (file : List Byte) : Nat := (headers file).foldl Proghdr.extend 0

/-- A file that every check of the loading phase passes. -/
def Loadable (file : List Byte) : Prop :=
  52 ≤ file.length ∧ field (slice file 0 52) 0 4 = ELF_MAGIC ∧
    field (slice file 0 52) 28 4 + 32 * field (slice file 0 52) 44 2 ≤ file.length ∧
    (∀ ph ∈ headers file, ph.Loadable file) ∧
      pgRoundUp (imageEnd file) + 2 * PGSIZE < KERNBASE

instance (file : List Byte) : Decidable (Loadable file) :=
  inferInstanceAs (Decidable (_ ∧ _))

def PhaseEnds (m : Mem) (file : List Byte) (result : Option (Frame × Nat)) (next : Mem) :
    Prop :=
  match result with
  | none => Released (· ∈ m.freelist) m next ∧ (Loadable file →
      m.freelist.length ≤ 1026 + pgRoundUp (pgRoundUp (imageEnd file) + 2 * PGSIZE) / PGSIZE)
  | some (d, sz) => sz = pgRoundUp (imageEnd file) + 2 * PGSIZE ∧
      (∀ ph ∈ headers file, ph.Fits file) ∧
        Ready (· ∈ m.freelist) m d (imageBytes file) (pgRoundUp (imageEnd file)) next

theorem meets_loadPhase (hready : m.Ready) (hfile : file.length < 2 ^ 32) :
    Meets (loadPhase (Readi.ofFile file)) (fun _ => False) m (PhaseEnds m file) := by
  have hreleased : Released (· ∈ m.freelist) m m :=
    ⟨hready.nodup, fun _ => Iff.rfl, rfl, fun _ _ => rfl⟩
  have hspoiled : ∀ {d : Frame} {middle : Mem}, Spoiled (· ∈ m.freelist) m d middle →
      (Loadable file → m.freelist.length ≤
        1026 + pgRoundUp (pgRoundUp (imageEnd file) + 2 * PGSIZE) / PGSIZE) →
      Meets (freevm (some d) >>= fun _ => pure none) (fun _ => False) middle
        (PhaseEnds m file) := by
    rintro d middle ⟨map, data, hvm⟩ hshort
    refine Meets.bind hvm.meets_freevm ?_
    intro _ next hnext
    exact Meets.pure ⟨hnext, hshort⟩
  have hpool : ∀ f ∈ m.freelist, (· ∈ m.freelist) f := fun _ hf => hf
  unfold loadPhase
  dsimp only
  split
  next hbad =>
    refine Meets.pure ⟨hreleased, fun hload => absurd hbad ?_⟩
    rw [Readi.ofFile, if_neg (by have := hload.1; omega)]
    exact not_or.mpr ⟨not_not.mpr (length_slice (by simpa using hload.1)), not_not.mpr hload.2.1⟩
  next hgood =>
    have hlength : ((Readi.ofFile file 0 52).take 52).length = 52 := by
      rw [List.length_take, not_not.mp (not_or.mp hgood).1]
      rfl
    rw [(Readi.ofFile_full (by decide) hlength).1]
    refine Meets.bind (meets_setupkvm hready.nodup hready.frees fun _ _ => 0) ?_
    rintro made middle (⟨rfl, hnone, hshort⟩ | ⟨d, rfl, hmiddle⟩)
    · exact Meets.pure ⟨hnone, fun _ => hshort.trans (Nat.le_add_right ..)⟩
    refine Meets.bind (meets_loadSegments hpool hready.nodup hfile
      ⟨_, _, hmiddle, Filling.start m.image⟩) ?_
    intro loaded after hloaded
    cases loaded with
    | none =>
        refine hspoiled hloaded.1 fun hload => ?_
        refine (hloaded.2 ⟨hload.2.2.1, hload.2.2.2.1⟩).trans (Nat.add_le_add_left ?_ _)
        exact pages_mono ((Space.le_pgRoundUp _).trans (Nat.le_add_right ..))
    | some sz =>
        have hsize : sz = imageEnd file := hloaded.1
        rw [hsize]
        refine Meets.bind (meets_stackPages hpool hready.nodup hloaded.2.2) ?_
        intro stack last hlast
        cases stack with
        | none => exact hspoiled hlast.1 fun hload => hlast.2 hload.2.2.2.2
        | some size => exact Meets.pure ⟨hlast.1, hloaded.2.1, hlast.2⟩

theorem segment_le {phs : List Proghdr} {ph : Proghdr} (hph : ph ∈ phs)
    (hload : ph.type = ELF_PROG_LOAD) (sz : Nat) :
    ph.vaddr + ph.memsz ≤ phs.foldl Proghdr.extend sz := by
  induction phs generalizing sz with
  | nil => cases hph
  | cons first rest ih =>
      rcases List.mem_cons.mp hph with rfl | hrest
      · refine le_trans ?_ (extend_mono rest _)
        rw [Proghdr.extend, if_pos hload]
        exact le_max_right ..
      · exact ih hrest _

/-- In `next`, the directory `d` maps the image of the file, its guard page and its
stack page, and nothing else for the user. -/
structure ExactImage (file : List Byte) (d : Frame) (sz : Nat) (next : Mem) : Prop where
  fits : ∀ ph ∈ headers file, ph.Fits file
  inside : ∀ ph ∈ headers file, ph.type = ELF_PROG_LOAD →
    ph.vaddr + ph.memsz ≤ imageEnd file
  size : sz = pgRoundUp (imageEnd file) + 2 * PGSIZE
  below : sz < KERNBASE
  pages : ∀ va < KERNBASE, (next.pte d va).has PTE_P = true ↔ va < sz
  user : ∀ va < KERNBASE, (next.pte d va).user = true ↔ va < pgRoundUp (imageEnd file) ∨
    pgRoundUp (imageEnd file) + PGSIZE ≤ va ∧ va < sz
  bytes : ∀ va < sz, next.peek d va = imageBytes file va

theorem Vm.peek {va : Nat} (h : Vm pool m₀ d map data none m) (hva : va < KERNBASE)
    (hpresent : (map (va / PGSIZE)).has PTE_P = true) : m.peek d va = bytesOf data va := by
  rw [Mem.peek, h.view va (lt_two_pow hva), h.contents _ (user_page hva) hpresent]
  rfl

theorem Stacked.flags {image : Image} {low va : Nat} (h : Stacked image map data memory low)
    (hva : va < low + 2 * PGSIZE) : (map (va / PGSIZE)).flags =
      if low ≤ va ∧ va < low + PGSIZE then PTE_W ||| PTE_P else PTE_W ||| PTE_U ||| PTE_P := by
  have haligned := h.aligned
  have hpage : va / PGSIZE * PGSIZE = low ↔ low ≤ va ∧ va < low + PGSIZE := by
    simp only [PGSIZE] at *
    omega
  by_cases hguard : low ≤ va ∧ va < low + PGSIZE
  · rw [if_pos hguard]
    exact h.guard _ (hpage.mpr hguard)
  · rw [if_neg hguard]
    exact h.user _ (lt_of_le_of_lt (Nat.div_mul_le_self ..) hva) fun heq =>
      hguard (hpage.mp heq)

theorem Stacked.absent {image : Image} {low va : Nat} (h : Stacked image map data memory low)
    (hva : low + 2 * PGSIZE ≤ va) (huser : va < KERNBASE) : map (va / PGSIZE) = 0 := by
  have haligned := h.aligned
  rw [h.above, kernelMap_user _ (Vm.user_page huser)]
  simp only [PGSIZE] at *
  omega

theorem flags_user {w : Word} {flags : PteFlags} (h : w.flags = flags) :
    w.user = (decide (flags &&& PTE_P ≠ 0) && decide (flags &&& PTE_U ≠ 0)) := by
  rw [Word.user, Word.has, Word.has, h]

theorem Stacked.user_iff {image : Image} {low va : Nat}
    (h : Stacked image map data memory low) (hva : va < KERNBASE) :
    (map (va / PGSIZE)).user = true ↔
      va < low ∨ low + PGSIZE ≤ va ∧ va < low + 2 * PGSIZE := by
  by_cases hin : va < low + 2 * PGSIZE
  · rw [flags_user (h.flags hin)]
    by_cases hguard : low ≤ va ∧ va < low + PGSIZE
    · rw [if_pos hguard]
      refine iff_of_false (by decide) ?_
      omega
    · rw [if_neg hguard]
      refine iff_of_true (by decide) ?_
      omega
  · rw [h.absent (not_lt.mp hin) hva]
    refine iff_of_false (by simp [Word.user]) ?_
    omega

theorem Stacked.present_iff {image : Image} {low va : Nat}
    (h : Stacked image map data memory low) (hva : va < KERNBASE) :
    (map (va / PGSIZE)).has PTE_P = true ↔ va < low + 2 * PGSIZE := by
  by_cases hin : va < low + 2 * PGSIZE
  · rw [Word.has, h.flags hin]
    refine iff_of_true ?_ hin
    split <;> decide
  · rw [h.absent (not_lt.mp hin) hva]
    exact iff_of_false (by simp) hin

/-- The loading phase panics nowhere; if it succeeds, memory holds the segments of
the file over zeros. -/
theorem loadPhase_exact (m : Mem) (file : List Byte) (hready : m.Ready)
    (hfile : file.length < 2 ^ 32) :
    ∃ result next, loadPhase (Readi.ofFile file) m = .ok (result, next) ∧
      (∀ f ∉ m.freelist, next.page f = m.page f) ∧
      match result with
      | none => next.freelist.Perm m.freelist
      | some (d, sz) => ExactImage file d sz next := by
  obtain ⟨result, next, hrun, hpost⟩ := (meets_loadPhase hready hfile).returns
  refine ⟨result, next, hrun, ?_⟩
  cases result with
  | none =>
      have hpost := hpost.1
      exact ⟨hpost.kept, (List.perm_ext_iff_of_nodup hpost.nodup hready.nodup).mpr hpost.free⟩
  | some loaded =>
      obtain ⟨d, sz⟩ := loaded
      obtain ⟨rfl, hfits, map, data, hvm, hstacked⟩ := hpost
      refine ⟨hvm.kept, hfits, fun ph hph hload => segment_le hph hload 0, rfl,
        hstacked.below, fun va hva => ?_, fun va hva => ?_, fun va hva => ?_⟩
      · rw [hvm.view va (Vm.lt_two_pow hva)]
        exact hstacked.present_iff hva
      · rw [hvm.view va (Vm.lt_two_pow hva)]
        exact hstacked.user_iff hva
      · have hlow := lt_trans hva hstacked.below
        rw [hvm.peek hlow ((hstacked.present_iff hlow).mpr hva)]
        exact hstacked.bytes va hva

theorem loadPhase_returns (hready : m.Ready) (hfile : file.length < 2 ^ 32)
    (hload : Loadable file) (hroom : 1026 +
      pgRoundUp (pgRoundUp (imageEnd file) + 2 * PGSIZE) / PGSIZE < m.freelist.length) :
    ∃ loaded next, loadPhase (Readi.ofFile file) m = .ok (some loaded, next) := by
  obtain ⟨result, next, hrun, hpost⟩ := (meets_loadPhase hready hfile).returns
  cases result with
  | some loaded => exact ⟨loaded, next, hrun⟩
  | none => exact absurd (hpost.2 hload) (not_le.mpr hroom)

/-- Three bytes at address 0, in a segment of five, and two at 4096. -/
def twoSegments : List Byte :=
  let words : List Nat := [ELF_MAGIC, 0, 0, 0, 0, 0, 0, 52, 0, 0, 0, 2, 0,
    ELF_PROG_LOAD, 116, 0, 0, 3, 5, 0, 0, ELF_PROG_LOAD, 119, 4096, 0, 2, 2, 0, 0]
  words.flatMap (fun word => Word.bytes (.ofNat 32 word)) ++ [1, 2, 3, 4, 5]

def blankMem : Mem := roomyMem 1100 fun _ _ => 0

theorem blankMem_ready : blankMem.Ready := roomyMem_ready (by decide)

theorem blankMem_loads :
    ∃ loaded next, loadPhase (Readi.ofFile twoSegments) blankMem =
      .ok (some loaded, next) := by
  refine loadPhase_returns blankMem_ready (by decide) (by decide +kernel) ?_
  have hpages : pgRoundUp (pgRoundUp (imageEnd twoSegments) + 2 * PGSIZE) / PGSIZE = 4 := by
    decide +kernel
  simp only [hpages, blankMem, roomyMem, List.length_map, List.length_range]
  decide

theorem loadPhase_exact_twoSegments :
    ∃ d next, loadPhase (Readi.ofFile twoSegments) blankMem =
        .ok (some (d, 16384), next) ∧ ExactImage twoSegments d 16384 next ∧
      next.peek d 2 = 3 ∧ next.peek d 3 = 0 ∧ next.peek d 4097 = 5 := by
  obtain ⟨⟨d, sz⟩, next, hloaded⟩ := blankMem_loads
  obtain ⟨result, last, hrun, _, hresult⟩ :=
    loadPhase_exact blankMem twoSegments blankMem_ready (by decide)
  rw [hloaded] at hrun
  cases hrun
  have hsize : sz = 16384 := hresult.size.trans (by decide +kernel)
  subst hsize
  refine ⟨d, next, hloaded, hresult, ?_, ?_, ?_⟩
  all_goals
    rw [hresult.bytes _ (by decide)]
    decide +kernel

end KernelThreads
