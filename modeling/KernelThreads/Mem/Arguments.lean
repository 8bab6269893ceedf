import Mathlib.Algebra.Order.Ring.Nat
import Mathlib.Algebra.Order.BigOperators.Group.List
import KernelThreads.Mem.Loading

namespace KernelThreads

open Lib Program

/-! The arguments of `exec`, on the stack of the new image. -/

variable {pool : Frame → Prop} {m₀ m next : Mem} {d : Frame} {map : Nat → Word}
  {data : Nat → Content} {memory : Nat → Byte} {low va : Nat} {bytes : List Byte}

theorem kernelMap_not_user (image : Image) (page : Nat) :
    (kernelMap image page).user = false := by
  have hfold : ∀ ks : List Kmap, (∀ k ∈ ks, k.High) → ∀ map : Nat → Word,
      (map page).user = false → (ks.foldl Kmap.onto map page).user = false := by
    intro ks
    induction ks with
    | nil => exact fun _ _ hmap => hmap
    | cons k rest ih =>
        intro hhigh map hmap
        rw [List.forall_mem_cons] at hhigh
        refine ih hhigh.2 _ ?_
        unfold Kmap.onto mapRange
        split
        · rw [flags_user (Word.flags_pte ..), hhigh.1.perm]
          simp
        · exact hmap
  exact hfold (kmap image) (kmap_high image) _ (by simp [Word.user])

namespace Stacked

variable {image : Image}

theorem user_low (h : Stacked image map data memory low) (hva : va < 2 ^ 32)
    (huser : (map (va / PGSIZE)).user = true) : va < KERNBASE := by
  by_contra hhigh
  have haligned := h.aligned
  have hbelow := h.below
  rw [h.above, kernelMap_not_user] at huser
  · cases huser
  · simp only [PGSIZE, KERNBASE] at *
    omega

end Stacked

theorem Vm.honest (h : Vm pool m₀ d map data none m)
    (hlow : ∀ va < 2 ^ 32, (map (va / PGSIZE)).user = true → va < KERNBASE) :
    m.Honest d := by
  have hplace : ∀ va < 2 ^ 32, (m.pte d va).user = true →
      m.places d map none (.user (va / PGSIZE)) = some (m.pte d va).addr := by
    intro va hva huser
    rw [h.view va hva] at huser ⊢
    exact user_placed m d none (user_page (hlow va hva huser))
      (by rw [Word.user, Bool.and_eq_true] at huser; exact huser.1)
  constructor
  case apart =>
    intro va hva other hother huser huser' heq
    have hsame := h.owned.unique _ _ _ (hplace va hva huser)
      (heq ▸ hplace other hother huser')
    exact Place.user.inj hsame
  case dir =>
    intro va hva huser
    exact h.ne_dir (hplace va hva huser) (by simp)
  case table =>
    intro va hva huser i hi
    exact h.ne_of_placed (hplace va hva huser) (table_placed map none hi) (by simp)

theorem Vm.wrote (h : Vm pool m₀ d map data none m) (hhonest : m.Honest d)
    (hwrote : Wrote m d va bytes next) (hend : va + bytes.length ≤ KERNBASE) :
    ∃ data', Vm pool m₀ d map data' none next ∧
      ∀ x < KERNBASE, (map (x / PGSIZE)).has PTE_P = true →
        bytesOf data' x = copyIn (bytesOf data) va bytes x := by
  have hat : ∀ k < bytes.length, nth va k = va + k := fun k hk =>
    Nat.mod_eq_of_lt (lt_two_pow (by omega))
  have hpresent : ∀ k < bytes.length, (map (nth va k / PGSIZE)).has PTE_P = true := by
    intro k hk
    have huser := hwrote.user k hk
    rw [h.view _ (nth_lt va k), Word.user, Bool.and_eq_true] at huser
    exact huser.1
  have hbelow : ∀ k < bytes.length, nth va k < KERNBASE := by
    intro k hk
    rw [hat k hk]
    omega
  have hplace : ∀ x < KERNBASE, (map (x / PGSIZE)).has PTE_P = true →
      m.places d map none (.user (x / PGSIZE)) = some (m.pte d x).addr := by
    intro x hx hthere
    rw [h.view x (lt_two_pow hx)]
    exact user_placed m d none (user_page hx) hthere
  refine ⟨fun page => next.page (map page).addr, ?_, ?_⟩
  · constructor
    case pooled => exact h.pooled
    case nodup =>
      rw [hwrote.freelist]
      exact h.nodup
    case owned =>
      unfold Mem.places
      rw [hwrote.freelist, hwrote.dir hhonest]
      exact h.owned
    case image => exact hwrote.image.trans h.image
    case kept =>
      intro f hf
      rw [hwrote.page fun k hk heq => hf ?_, h.kept f hf]
      rw [← heq]
      exact h.pool_placed (hplace _ (hbelow k hk) (hpresent k hk))
    case view =>
      intro x hx
      rw [hwrote.pte hhonest, h.view x hx]
    case contents => exact fun _ _ _ => rfl
    case holding => exact fun _ hp => absurd hp (by simp)
  · intro x hx hthere
    have hview := h.view x (lt_two_pow hx)
    rw [bytesOf, copyIn]
    by_cases hin : va ≤ x ∧ x < va + bytes.length
    · have hdata := hwrote.data (x - va) (by omega)
      rw [hat _ (by omega), Nat.add_sub_cancel' hin.1, hview] at hdata
      rw [if_pos hin, ← hdata]
    · rw [if_neg hin, pageByte_mod, hwrote.kept _ _ (Nat.mod_lt _ (by decide)),
        ← pageByte_mod, h.contents _ (user_page hx) hthere]
      · rfl
      · rintro k hk ⟨haddr, hoffset⟩
        -- The same byte of the same frame is the same address.
        have hsame := h.owned.unique _ _ _ (hplace _ (hbelow k hk) (hpresent k hk))
          (by rw [hplace x hx hthere, hview, ← haddr])
        have hpage := Place.user.inj hsame
        rw [hat k hk] at hpage hoffset
        have hx' := Nat.div_add_mod x PGSIZE
        have hk' := Nat.div_add_mod (va + k) PGSIZE
        rw [hpage, hoffset, hx'] at hk'
        omega

theorem Ready.copyout (h : Ready pool m₀ d memory low m) (hva : va < 2 ^ 32)
    (hlen : bytes.length < 2 ^ 32)
    (hrun : KernelThreads.copyout nullStop d va bytes m = .ok (true, next)) :
    (∀ k < bytes.length, nth va k < low ∨
      low + PGSIZE ≤ nth va k ∧ nth va k < low + 2 * PGSIZE) ∧
    (va + bytes.length ≤ KERNBASE → Ready pool m₀ d (copyIn memory va bytes) low next) := by
  obtain ⟨map, data, hvm, hstacked⟩ := h
  have hhonest := hvm.honest fun va hva => hstacked.user_low hva
  have hwrote : Wrote m d va bytes next := (meets_copyout hhonest hva hlen).ok hrun
  constructor
  · intro k hk
    have huser := hwrote.user k hk
    rw [hvm.view _ (nth_lt va k)] at huser
    exact (hstacked.user_iff (hstacked.user_low (nth_lt va k) huser)).mp huser
  · intro hend
    obtain ⟨data', hvm', hbytes⟩ := hvm.wrote hhonest hwrote hend
    refine ⟨map, data', hvm', { hstacked with bytes := fun x hx => ?_ }⟩
    have hlow := lt_trans hx hstacked.below
    rw [hbytes x hlow ((hstacked.present_iff hlow).mpr hx), copyIn, copyIn, hstacked.bytes x hx]

/-- What is written at the top of the stack page stays in it: the guard page is
not for the user. -/
theorem stack_fits {sp n : Nat} (haligned : low % PGSIZE = 0)
    (hbelow : low + 2 * PGSIZE < KERNBASE) (hsp : sp % 4 = 0) (hlow : low + PGSIZE ≤ sp)
    (hhigh : sp ≤ low + 2 * PGSIZE) (hpos : 0 < n) (hn : n < 2 ^ 32)
    (huser : ∀ k < n, nth (sub32 sp n / 4 * 4) k < low ∨
      low + PGSIZE ≤ nth (sub32 sp n / 4 * 4) k ∧
        nth (sub32 sp n / 4 * 4) k < low + 2 * PGSIZE) :
    low + PGSIZE ≤ sub32 sp n / 4 * 4 ∧ sub32 sp n / 4 * 4 + n ≤ sp := by
  have hlast := huser (n - 1) (by omega)
  simp only [nth, sub32, PGSIZE, KERNBASE] at *
  by_cases hfits : low + 4096 + n ≤ sp
  · omega
  · exfalso
    -- The last byte is within three bytes of `sp`; if it is not in the guard page,
    -- the last byte of the guard page comes before it.
    by_cases htail : (((sp + 2 ^ 32 - n % 2 ^ 32) % 2 ^ 32) / 4 * 4 + (n - 1)) % 2 ^ 32 <
        low + 4096
    · omega
    · have hguard := huser (n - 1 - ((((sp + 2 ^ 32 - n % 2 ^ 32) % 2 ^ 32) / 4 * 4 +
        (n - 1)) % 2 ^ 32 - (low + 4095))) (by omega)
      omega

def StringAt (memory : Nat → Byte) (a : Nat) (s : List Byte) : Prop :=
  ∀ k < s.length + 1, memory (a + k) = (s ++ [0]).getD k 0

theorem copyIn_other {a x : Nat} (h : ¬ (a ≤ x ∧ x < a + bytes.length)) :
    copyIn memory a bytes x = memory x := if_neg h

theorem copyIn_at {a k : Nat} (hk : k < bytes.length) :
    copyIn memory a bytes (a + k) = bytes.getD k 0 := by
  rw [copyIn, if_pos (by omega), Nat.add_sub_cancel_left]

structure Strings (memory : Nat → Byte) (base sz : Nat) (pushed : List (Nat × List Byte))
    (sp : Nat) : Prop where
  aligned : sp % 4 = 0
  low : base ≤ sp
  high : sp ≤ sz
  each : ∀ p ∈ pushed, p.1 % 4 = 0 ∧ sp ≤ p.1 ∧ p.1 + p.2.length + 1 ≤ sz ∧
    StringAt memory p.1 p.2
  apart : pushed.Pairwise fun p q => q.1 + q.2.length + 1 ≤ p.1

namespace Strings

variable {base sz sp a : Nat} {pushed : List (Nat × List Byte)} {s : List Byte}

theorem copyIn (h : Strings memory base sz pushed sp) (haligned : a % 4 = 0)
    (hlow : base ≤ a) (hend : a + bytes.length ≤ sp) :
    Strings (KernelThreads.copyIn memory a bytes) base sz pushed a where
  aligned := haligned
  low := hlow
  high := by
    have hhigh := h.high
    omega
  each := by
    intro p hp
    obtain ⟨hp4, hsp, hsz, hstring⟩ := h.each p hp
    refine ⟨hp4, by omega, hsz, fun k hk => ?_⟩
    rw [copyIn_other (by omega)]
    exact hstring k hk
  apart := h.apart

theorem push (h : Strings memory base sz pushed sp) (haligned : a % 4 = 0)
    (hlow : base ≤ a) (hend : a + (s.length + 1) ≤ sp) :
    Strings (KernelThreads.copyIn memory a (s ++ [0])) base sz (pushed ++ [(a, s)]) a := by
  have hlength : (s ++ [0]).length = s.length + 1 := by simp
  have hkept : Strings (KernelThreads.copyIn memory a (s ++ [0])) base sz pushed a :=
    h.copyIn haligned hlow (by omega)
  have hhigh := h.high
  refine ⟨haligned, hlow, hkept.high, ?_, ?_⟩
  · intro p hp
    rcases List.mem_append.mp hp with hold | hnew
    · exact hkept.each p hold
    · rw [List.mem_singleton.mp hnew]
      refine ⟨haligned, le_rfl, ?_, fun k hk => copyIn_at ?_⟩
      · show a + s.length + 1 ≤ sz
        omega
      · rw [hlength]
        exact hk
  · refine List.pairwise_append.mpr ⟨h.apart, List.pairwise_singleton .., ?_⟩
    intro p hp q hq
    rw [List.mem_singleton.mp hq]
    have hsp := (h.each p hp).2.1
    show a + s.length + 1 ≤ p.1
    omega

end Strings

/-- The image with the strings pushed so far, and memory as before below them. -/
structure Pushed (pool : Frame → Prop) (m₀ : Mem) (d : Frame) (image : Nat → Byte)
    (low : Nat) (pushed : List (Nat × List Byte)) (sp : Nat) (memory : Nat → Byte)
    (m : Mem) : Prop where
  ready : Ready pool m₀ d memory low m
  strings : Strings memory (low + PGSIZE) (low + 2 * PGSIZE) pushed sp
  below : ∀ va < low + PGSIZE, memory va = image va

variable {image : Nat → Byte} {sp : Nat} {pushed : List (Nat × List Byte)}

theorem Ready.bounds (h : Ready pool m₀ d memory low m) :
    low % PGSIZE = 0 ∧ low + 2 * PGSIZE < KERNBASE := by
  obtain ⟨_, _, _, hstacked⟩ := h
  exact ⟨hstacked.aligned, hstacked.below⟩

theorem Pushed.copyout (h : Pushed pool m₀ d image low pushed sp memory m)
    (hpos : 0 < bytes.length) (hlen : bytes.length < 2 ^ 32)
    (hrun : KernelThreads.copyout nullStop d (sub32 sp bytes.length / 4 * 4) bytes m =
      .ok (true, next)) :
    low + PGSIZE ≤ sub32 sp bytes.length / 4 * 4 ∧
      sub32 sp bytes.length / 4 * 4 + bytes.length ≤ sp ∧
        Pushed pool m₀ d image low pushed (sub32 sp bytes.length / 4 * 4)
          (copyIn memory (sub32 sp bytes.length / 4 * 4) bytes) next := by
  obtain ⟨haligned, hbelow⟩ := h.ready.bounds
  have hhigh := h.strings.high
  have hva : sub32 sp bytes.length / 4 * 4 < 2 ^ 32 :=
    lt_of_le_of_lt (Nat.div_mul_le_self ..) (sub32_lt ..)
  obtain ⟨huser, hready⟩ := h.ready.copyout hva hlen hrun
  obtain ⟨hlow, hend⟩ := stack_fits haligned hbelow h.strings.aligned h.strings.low hhigh
    hpos hlen huser
  refine ⟨hlow, hend, hready (by omega), h.strings.copyIn (Nat.mul_mod_left ..) hlow hend, ?_⟩
  intro va hva
  rw [copyIn_other (by omega)]
  exact h.below va hva

def wordAt (memory : Nat → Byte) (a : Nat) : Word :=
  memory (a + 3) ++ memory (a + 2) ++ memory (a + 1) ++ memory a

theorem getD_flatMap_bytes (words : List Nat) {i k : Nat} (hk : k < 4) :
    (words.flatMap fun word => Word.bytes (.ofNat 32 word)).getD (4 * i + k) 0 =
      if i < words.length then (Word.bytes (.ofNat 32 (words.getD i 0))).getD k 0 else 0 := by
  have hfour : ∀ word : Nat, (Word.bytes (.ofNat 32 word)).length = 4 := fun _ => rfl
  induction words generalizing i with
  | nil => simp
  | cons word rest ih =>
      rw [List.flatMap_cons]
      cases i with
      | zero =>
          rw [Nat.mul_zero, Nat.zero_add, List.getD_append _ _ _ _ (by rw [hfour]; exact hk),
            if_pos (by simp)]
          rfl
      | succ i =>
          rw [List.getD_append_right _ _ _ _ (by rw [hfour]; omega), hfour,
            show 4 * (i + 1) + k - 4 = 4 * i + k by omega, ih]
          simp only [List.length_cons, Nat.add_lt_add_iff_right, List.getD_cons_succ]

theorem wordAt_copyIn {a i : Nat} {words : List Nat} (hi : i < words.length) :
    wordAt (copyIn memory a (words.flatMap fun word => Word.bytes (.ofNat 32 word)))
      (a + 4 * i) = .ofNat 32 (words.getD i 0) := by
  have hbyte : ∀ k < 4, copyIn memory a (words.flatMap fun word => Word.bytes (.ofNat 32 word))
      (a + 4 * i + k) = (Word.bytes (.ofNat 32 (words.getD i 0))).getD k 0 := by
    intro k hk
    rw [Nat.add_assoc, copyIn_at (by rw [length_flatMap_bytes]; omega),
      getD_flatMap_bytes _ hk, if_pos hi]
  have hlow := hbyte 0 (by omega)
  rw [Nat.add_zero] at hlow
  rw [wordAt, hbyte 3 (by omega), hbyte 2 (by omega), hbyte 1 (by omega), hlow]
  exact Lib.Bytes.append_extract _

/-- What a new program finds at its stack pointer, in a stack page below `sz`. -/
structure ArgsPassed (argv : List (List Byte)) (sz esp : Nat) (memory : Nat → Byte) :
    Prop where
  aligned : esp % 4 = 0
  low : sz - PGSIZE ≤ esp
  high : esp + 12 + 4 * (argv.length + 1) ≤ sz
  returnPc : wordAt memory esp = 0xffffffff
  argc : wordAt memory (esp + 4) = .ofNat 32 argv.length
  vector : wordAt memory (esp + 8) = .ofNat 32 (esp + 12)
  /-- The strings, with their addresses in the vector. -/
  strings : ∃ addrs : List Nat, addrs.length = argv.length ∧
    (∀ i < argv.length,
      wordAt memory (esp + 12 + 4 * i) = .ofNat 32 (addrs.getD i 0) ∧
        addrs.getD i 0 % 4 = 0 ∧ esp + 12 + 4 * (argv.length + 1) ≤ addrs.getD i 0 ∧
          addrs.getD i 0 + (argv.getD i []).length + 1 ≤ sz ∧
            StringAt memory (addrs.getD i 0) (argv.getD i [])) ∧
    ∀ i j, i < j → j < argv.length →
      addrs.getD j 0 + (argv.getD j []).length + 1 ≤ addrs.getD i 0
  last : wordAt memory (esp + 12 + 4 * argv.length) = 0

theorem Strings.passed {base sz sp top : Nat} {all : List (Nat × List Byte)}
    (h : Strings memory base sz all sp) (hsz : sz < 2 ^ 32) (hbase : base = sz - PGSIZE)
    (htop : top % 4 = 0) (hlow : base ≤ top) (hend : top + 4 * (all.length + 4) = sp) :
    ArgsPassed (all.map Prod.snd) sz top
      (KernelThreads.copyIn memory top (argFrame sp (all.map Prod.fst))) := by
  have hhigh := h.high
  have hlength : (all.map Prod.fst).length = all.length := List.length_map ..
  have hpointer : sub32 sp ((all.length + 1) * 4) = top + 12 := by
    rw [Space.sub32_of_le (by omega) (by omega)]
    omega
  have hframe : (argFrame sp (all.map Prod.fst)).length = 4 * (all.length + 4) := by
    rw [length_argFrame, hlength]
    omega
  have hkept : Strings (KernelThreads.copyIn memory top (argFrame sp (all.map Prod.fst)))
      base sz all top := h.copyIn htop hlow (by omega)
  have hword : ∀ i < all.length + 4,
      wordAt (KernelThreads.copyIn memory top (argFrame sp (all.map Prod.fst))) (top + 4 * i) =
        .ofNat 32 ((0xffffffff :: all.length :: (top + 12) :: all.map Prod.fst ++ [0]).getD
          i 0) := by
    intro i hi
    rw [argFrame_eq, hlength, hpointer, wordAt_copyIn]
    simp only [List.length_append, List.length_cons, List.length_map, List.length_nil]
    omega
  have hat : ∀ i (hi : i < all.length),
      (all.map Prod.fst).getD i 0 = all[i].1 ∧ (all.map Prod.snd).getD i [] = all[i].2 := by
    intro i hi
    rw [List.getD_eq_getElem _ _ (by simpa using hi), List.getD_eq_getElem _ _ (by simpa using hi),
      List.getElem_map, List.getElem_map]
    exact ⟨rfl, rfl⟩
  constructor
  case aligned => exact htop
  case low => exact hbase ▸ hlow
  case high =>
    rw [List.length_map]
    omega
  case returnPc => exact hword 0 (by omega)
  case argc =>
    rw [List.length_map]
    exact hword 1 (by omega)
  case vector => exact hword 2 (by omega)
  case strings =>
    refine ⟨all.map Prod.fst, by simp, fun i hi => ?_, fun i j hij hj => ?_⟩
    · rw [List.length_map] at hi ⊢
      obtain ⟨hfst, hsnd⟩ := hat i hi
      obtain ⟨hp4, hsp, hin, hstring⟩ := hkept.each all[i] (List.getElem_mem hi)
      have habove := (h.each all[i] (List.getElem_mem hi)).2.1
      have hentry := hword (i + 3) (by omega)
      rw [show top + 4 * (i + 3) = top + 12 + 4 * i by omega, List.getD_append _ _ _ _ (by
        simpa using hi)] at hentry
      rw [hfst, hsnd]
      refine ⟨?_, hp4, by omega, hin, hstring⟩
      rw [hentry, ← hfst]
      rfl
    · rw [List.length_map] at hj
      rw [(hat i (by omega)).1, (hat j hj).1, (hat j hj).2]
      exact List.pairwise_iff_getElem.mp h.apart i j (by omega) hj hij
  case last =>
    have hentry := hword (all.length + 3) (by omega)
    rw [List.getD_append_right _ _ _ _ (by simp)] at hentry
    rw [List.length_map, show top + 12 + 4 * all.length = top + 4 * (all.length + 3) by omega,
      hentry]
    simp

theorem Ready.start (h : Ready pool m₀ d memory low m) :
    Pushed pool m₀ d memory low [] (low + 2 * PGSIZE) memory m := by
  obtain ⟨haligned, hbelow⟩ := h.bounds
  refine ⟨h, ⟨?_, ?_, le_rfl, nofun, List.Pairwise.nil⟩, fun _ _ => rfl⟩
  · simp only [PGSIZE] at *
    omega
  · omega

theorem wordAt_congr {memory' : Nat → Byte} {a bound : Nat} (ha : a + 3 < bound)
    (heq : ∀ va < bound, memory' va = memory va) : wordAt memory' a = wordAt memory a := by
  unfold wordAt
  rw [heq (a + 3) ha, heq (a + 2) (by omega), heq (a + 1) (by omega), heq a (by omega)]

theorem ArgsPassed.congr {argv : List (List Byte)} {sz esp : Nat} {memory' : Nat → Byte}
    (h : ArgsPassed argv sz esp memory) (heq : ∀ va < sz, memory' va = memory va) :
    ArgsPassed argv sz esp memory' := by
  have hhigh := h.high
  obtain ⟨addrs, hlength, heach, hapart⟩ := h.strings
  refine ⟨h.aligned, h.low, hhigh, ?_, ?_, ?_, ⟨addrs, hlength, fun i hi => ?_, hapart⟩, ?_⟩
  · rw [wordAt_congr (by omega) heq, h.returnPc]
  · rw [wordAt_congr (by omega) heq, h.argc]
  · rw [wordAt_congr (by omega) heq, h.vector]
  · obtain ⟨hword, hfour, habove, hin, hstring⟩ := heach i hi
    refine ⟨?_, hfour, habove, hin, fun k hk => ?_⟩
    · rw [wordAt_congr (by omega) heq, hword]
    · rw [heq _ (by omega), hstring k hk]
  · rw [wordAt_congr (by omega) heq, h.last]

end KernelThreads
