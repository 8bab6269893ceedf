import KernelThreads.Mem.Dir
import KernelThreads.Mem.Image

namespace KernelThreads

open Lib Program

/-! What the loading part of `exec` leaves in memory. -/

theorem Mem.writeBytes_eq (m : Mem) (f : Frame) (offset : Nat) (bytes : List Byte) :
    ∃ content, m.writeBytes f offset bytes = m.setPage f content := by
  induction bytes generalizing m offset with
  | nil =>
      refine ⟨m.page f, ?_⟩
      simp [Mem.writeBytes, Mem.setPage]
  | cons byte rest ih =>
      obtain ⟨content, heq⟩ := ih (m.setWord f
        ⟨offset / 4 % 1024, Nat.mod_lt _ (by decide)⟩
        ((m.page f ⟨offset / 4 % 1024, Nat.mod_lt _ (by decide)⟩).setByte
          (offset % 4) byte)) (offset + 1)
      refine ⟨content, heq.trans ?_⟩
      simp [Mem.setWord, Mem.setPage]

theorem sub32_lt (a b : Nat) : sub32 a b < 2 ^ 32 := Nat.mod_lt _ (by decide)

def Filled (map : Nat → Word) (sz : Nat) : Prop :=
  ∀ page, page * PGSIZE < sz → (map page).has PTE_P = true

structure Sized (map : Nat → Word) (sz : Nat) : Prop where
  below : sz ≤ KERNBASE
  filled : Filled map sz
  device : ∀ va, DEVSPACE ≤ va → va < 2 ^ 32 → (map (va / PGSIZE)).has PTE_P = true

theorem Word.has_of_flags {w : Word} (h : w.flags = PTE_W ||| PTE_U ||| PTE_P) :
    w.has PTE_P = true ∧ w.has PTE_U = true ∧ w.has PTE_W = true := by
  simp only [Word.has, h]
  decide

theorem has_present_clear (f : Frame) (w : Word) :
    (Word.pte f (w.flags &&& ~~~PTE_U)).has PTE_P = w.has PTE_P := by
  simp only [Word.has, Word.flags_pte, BitVec.and_assoc]
  rfl

theorem pgRoundUp_le {sz : Nat} (h : sz ≤ KERNBASE) : pgRoundUp sz ≤ KERNBASE := by
  simp only [pgRoundUp, PGSIZE, KERNBASE] at *
  omega

theorem pgRoundUp_idem (sz : Nat) : pgRoundUp (pgRoundUp sz) = pgRoundUp sz := by
  simp only [pgRoundUp, PGSIZE]
  omega

theorem lt_of_lt_pgRoundUp {page sz : Nat} (h : page * PGSIZE < pgRoundUp sz) :
    page * PGSIZE < sz := by
  simp only [pgRoundUp, PGSIZE] at *
  omega

theorem length_flatMap_bytes (words : List Nat) :
    (words.flatMap fun word => Word.bytes (.ofNat 32 word)).length = 4 * words.length := by
  induction words with
  | nil => rfl
  | cons word rest ih =>
      rw [List.flatMap_cons, List.length_append, ih, List.length_cons, Nat.mul_succ, Nat.add_comm]
      rfl

theorem argFrame_eq (sp : Nat) (ustack : List Nat) :
    argFrame sp ustack = (0xffffffff :: ustack.length ::
      sub32 sp ((ustack.length + 1) * 4) :: ustack ++ [0]).flatMap fun word =>
        Word.bytes (.ofNat 32 word) := rfl

theorem length_argFrame (sp : Nat) (ustack : List Nat) :
    (argFrame sp ustack).length = (3 + ustack.length + 1) * 4 := by
  rw [argFrame_eq, length_flatMap_bytes]
  simp
  omega

namespace Space

variable {home : Frame → Nat → Nat} {role₀ : Frame → Role} {m₀ m next : Mem}
  {d : Frame} {map : Nat → Word} {held : Option Frame} {va sz : Nat}

theorem lt_of_user (h : Space home role₀ m₀ d map held m) (hva : va < 2 ^ 32)
    (hpresent : (map (va / PGSIZE)).has PTE_P = true)
    (huser : (map (va / PGSIZE)).has PTE_U = true) : va < KERNBASE := by
  obtain ⟨role, hwithin, hview, _⟩ := h
  by_contra hkernel
  rw [← hview va hva] at hpresent huser
  rw [hwithin.owned.kernel d va hwithin.dir (not_lt.mp hkernel) hva hpresent] at huser
  cases huser

theorem writeBytes (h : Space home role₀ m₀ d map held m) (hva : va < KERNBASE)
    (hpresent : (map (va / PGSIZE)).has PTE_P = true) (offset : Nat)
    (bytes : List Byte) :
    Space home role₀ m₀ d map held
      (m.writeBytes (map (va / PGSIZE)).addr offset bytes) := by
  obtain ⟨content, heq⟩ := m.writeBytes_eq (map (va / PGSIZE)).addr offset bytes
  rw [heq]
  exact h.write hva hpresent content

theorem clearpteu {result : Unit} (h : Space home role₀ m₀ d map held m)
    (hva : va < KERNBASE)
    (hop : KernelThreads.clearpteu d va m = .ok (result, next)) :
    Space home role₀ m₀ d (Function.update map (va / PGSIZE)
      (.pte (map (va / PGSIZE)).addr ((map (va / PGSIZE)).flags &&& ~~~PTE_U)))
      held next := by
  obtain ⟨found, _, hwalk, hrest⟩ := bind_ok hop
  obtain ⟨hspace, hfound, _⟩ := h.walk hwalk
  cases found with
  | none => cases hrest
  | some place =>
      have hloc := hfound place.1 place.2 rfl
      have hrest := load_bind hrest
      cases hrest
      rw [hspace.entry hloc (lt_trans hva (by decide))]
      refine hspace.remap hloc hva fun hpresent => ⟨?_, Word.addr_pte ..⟩
      rw [← has_present_clear (map (va / PGSIZE)).addr]
      exact hpresent

theorem loadPages {readi : Readi} {addr offset size turns i : Nat} {done : Bool}
    (h : Space home role₀ m₀ d map held m) (hfilled : Filled map sz)
    (hsz : sz ≤ KERNBASE) (hend : addr + size ≤ sz)
    (hop : KernelThreads.loadPages d addr readi offset size turns i m =
      .ok (done, next)) :
    Space home role₀ m₀ d map held next := by
  induction turns generalizing i m with
  | zero =>
      cases hop
      exact h
  | succ turns ih =>
      unfold KernelThreads.loadPages at hop
      split at hop
      next hi =>
        have hva : addr + i < KERNBASE := by omega
        obtain ⟨found, _, hwalk, hrest⟩ := bind_ok hop
        obtain ⟨hspace, hfound, _⟩ := h.walk hwalk
        cases found with
        | none => cases hrest
        | some place =>
            have hloc := hfound place.1 place.2 rfl
            have hrest := load_bind hrest
            rw [hspace.entry hloc (lt_trans hva (by decide))] at hrest
            obtain ⟨_, _, hmove, hrest⟩ := bind_ok hrest
            cases hmove
            have hwritten := hspace.writeBytes hva
              (hfilled _ (lt_of_le_of_lt (Nat.div_mul_le_self ..) (by omega))) 0
              ((readi ((offset + i) % 2 ^ 32) (min (size - i) PGSIZE)).take
                (min (size - i) PGSIZE))
            split at hrest
            · cases hrest
              exact hwritten
            · exact ih hwritten hrest
      next =>
        cases hop
        exact h

theorem loaduvm {readi : Readi} {addr offset size : Nat} {done : Bool}
    (h : Space home role₀ m₀ d map held m) (hfilled : Filled map sz)
    (hsz : sz ≤ KERNBASE) (hend : addr + size ≤ sz)
    (hop : KernelThreads.loaduvm d addr readi offset size m = .ok (done, next)) :
    Space home role₀ m₀ d map held next := by
  unfold KernelThreads.loaduvm at hop
  split at hop
  · cases hop
  · exact h.loadPages hfilled hsz hend hop

theorem uva2ka {null : MemProgram Word} {found : Option Frame}
    (h : Space home role₀ m₀ d map held m) (hva : va < 2 ^ 32)
    (hpresent : (map (va / PGSIZE)).has PTE_P = true)
    (hop : KernelThreads.uva2ka null d va m = .ok (found, next)) :
    Space home role₀ m₀ d map held next ∧ ∀ frame, found = some frame →
      frame = (map (va / PGSIZE)).addr ∧ (map (va / PGSIZE)).has PTE_U = true := by
  obtain ⟨place, _, hwalk, hrest⟩ := bind_ok hop
  obtain ⟨hspace, hfound, hnone⟩ := h.walk hwalk
  cases place with
  | none =>
      -- The page is there, and so is its table.
      obtain ⟨_, _, hview, _⟩ := hspace
      rw [← hview va hva] at hpresent
      simp [Mem.pte, hnone rfl] at hpresent
  | some place =>
      have hloc := hfound place.1 place.2 rfl
      have hrest := load_bind hrest
      rw [hspace.entry hloc hva] at hrest
      cases hrest
      refine ⟨hspace, fun frame hsome => ?_⟩
      rw [Option.ite_none_right_eq_some, Bool.and_eq_true] at hsome
      exact ⟨(Option.some.inj hsome.2).symm, hsome.1.2⟩

section Arguments

variable {null : MemProgram Word} {bytes : List Byte} {argv : List (List Byte)} {done : Bool}

theorem copyBytes {turns : Nat} (h : Space home role₀ m₀ d map held m)
    (hsized : Sized map sz) (hend : bytes ≠ [] → va + bytes.length ≤ sz)
    (hop : KernelThreads.copyBytes null d turns va bytes m = .ok (done, next)) :
    Space home role₀ m₀ d map held next := by
  induction turns generalizing va bytes m with
  | zero =>
      cases hop
      exact h
  | succ turns ih =>
      unfold KernelThreads.copyBytes at hop
      split at hop
      · cases hop
        exact h
      next hbytes =>
        have hend := hend hbytes
        have hpos := List.length_pos_of_ne_nil hbytes
        have hbelow := hsized.below
        have hdown : pgRoundDown va ≤ va := Nat.div_mul_le_self ..
        have hlow : pgRoundDown va < KERNBASE := by omega
        have hpresent := hsized.filled (pgRoundDown va / PGSIZE)
          (lt_of_le_of_lt (Nat.div_mul_le_self ..) (by omega))
        obtain ⟨found, _, huva, hrest⟩ := bind_ok hop
        obtain ⟨hspace, hfound⟩ := h.uva2ka (lt_trans hlow (by decide)) hpresent huva
        cases found with
        | none =>
            cases hrest
            exact hspace
        | some frame =>
            obtain ⟨rfl, _⟩ := hfound frame rfl
            obtain ⟨_, _, hmove, hrest⟩ := bind_ok hrest
            cases hmove
            refine ih (hspace.writeBytes hlow hpresent _ _) (fun hmore => ?_) hrest
            have hleft := List.length_pos_of_ne_nil hmore
            rw [List.length_drop] at hleft ⊢
            simp only [pgRoundDown, PGSIZE, KERNBASE] at *
            omega

/-- Nothing from DEVSPACE on is for the user. -/
theorem copyout (h : Space home role₀ m₀ d map held m) (hsized : Sized map sz)
    (hva : va < 2 ^ 32) (hbytes : bytes ≠ [])
    (hplace : va + bytes.length ≤ sz ∨ DEVSPACE ≤ va)
    (hop : KernelThreads.copyout null d va bytes m = .ok (done, next)) :
    Space home role₀ m₀ d map held next ∧ (done = true → va + bytes.length ≤ sz) := by
  rcases hplace with hend | hdevice
  · exact ⟨h.copyBytes hsized (fun _ => hend) hop, fun _ => hend⟩
  · obtain ⟨turns, hturns⟩ :=
      Nat.exists_eq_succ_of_ne_zero (List.length_pos_of_ne_nil hbytes).ne'
    rw [KernelThreads.copyout, hturns, KernelThreads.copyBytes, if_neg hbytes] at hop
    have hdown : DEVSPACE ≤ pgRoundDown va ∧ pgRoundDown va < 2 ^ 32 := by
      simp only [pgRoundDown, PGSIZE, DEVSPACE] at *
      omega
    have hpresent := hsized.device _ hdown.1 hdown.2
    obtain ⟨found, _, huva, hrest⟩ := bind_ok hop
    obtain ⟨hspace, hfound⟩ := h.uva2ka hdown.2 hpresent huva
    cases found with
    | none =>
        cases hrest
        refine ⟨hspace, fun hdone => ?_⟩
        contradiction
    | some frame =>
        have hlow := hspace.lt_of_user hdown.2 hpresent (hfound frame rfl).2
        exact absurd (hdown.1.trans_lt hlow) (by decide)

/-- What is pushed lies in the image, or has wrapped around to DEVSPACE. -/
theorem place {sp n : Nat} (hsized : Sized map sz) (hsp : sp ≤ sz) (hn : n + 3 ≤ 2 ^ 25)
    (hlow : va ≤ sub32 sp n) (hhigh : sub32 sp n ≤ va + 3) :
    va + n ≤ sz ∨ DEVSPACE ≤ va := by
  have hbelow := hsized.below
  simp only [sub32, DEVSPACE, KERNBASE] at *
  omega

theorem pushArgs {sp : Nat} {ustack : List Nat} {result : Option (Nat × List Nat)}
    (h : Space home role₀ m₀ d map held m) (hsized : Sized map sz) (hsp : sp ≤ sz)
    (hargs : ∀ arg ∈ argv, arg.length + 4 ≤ 2 ^ 25) (hcount : ustack.length ≤ MAXARG)
    (hop : KernelThreads.pushArgs null d argv sp ustack m = .ok (result, next)) :
    Space home role₀ m₀ d map held next ∧ ∀ frame, result = some frame →
      frame.1 ≤ sz ∧ frame.2.length ≤ MAXARG := by
  induction argv generalizing sp ustack m with
  | nil =>
      cases hop
      refine ⟨h, ?_⟩
      rintro frame ⟨⟩
      exact ⟨hsp, hcount⟩
  | cons arg rest ih =>
      rw [List.forall_mem_cons] at hargs
      unfold KernelThreads.pushArgs at hop
      split at hop
      · cases hop
        exact ⟨h, nofun⟩
      next hroom =>
        obtain ⟨done, _, hcopy, hrest⟩ := bind_ok hop
        have hlength : (arg ++ [0]).length = arg.length + 1 := by simp
        have hdown := Nat.div_mul_le_self (sub32 sp (arg.length + 1)) 4
        obtain ⟨hcopied, hend⟩ := h.copyout hsized (hdown.trans_lt (sub32_lt ..)) (by simp)
          (place hsized hsp (by omega) (by rw [hlength]; exact hdown)
            (by rw [hlength]; omega)) hcopy
        cases done with
        | false =>
            cases hrest
            exact ⟨hcopied, nofun⟩
        | true =>
            refine ih hcopied (by have hend := hend rfl; omega) hargs.2 ?_ hrest
            rw [List.length_append, List.length_singleton]
            omega

end Arguments

theorem Allocates.space {oldsz newsz result : Nat}
    (h : Allocates home role₀ m₀ d map oldsz newsz next result) :
    ∃ after, Space home role₀ m₀ d after none next := by
  cases h with
  | refused _ hspace => exact ⟨_, hspace⟩
  | smaller _ hspace => exact ⟨_, hspace⟩
  | failed _ hspace => exact ⟨_, hspace⟩
  | done _ _ hspace => exact ⟨_, hspace⟩

theorem Allocates.sized {oldsz newsz result : Nat}
    (h : Allocates home role₀ m₀ d map oldsz newsz next result)
    (hsized : Sized map oldsz) (hresult : result ≠ 0) :
    result = max oldsz newsz ∧ ∃ after, Space home role₀ m₀ d after none next ∧
      Sized after result := by
  cases h with
  | refused => exact absurd rfl hresult
  | failed => exact absurd rfl hresult
  | smaller hlt hspace =>
      exact ⟨(max_eq_left (le_of_lt hlt)).symm, map, hspace, hsized⟩
  | @done after hle hlt hspace hsame hnew =>
      refine ⟨(max_eq_right hle).symm, after, hspace, ⟨le_of_lt hlt, ?_, ?_⟩⟩
      · intro page hpage
        by_cases hlow : pgRoundUp oldsz ≤ page * PGSIZE
        · exact (Word.has_of_flags (hnew page hlow hpage)).1
        · rw [hsame page fun hin => hlow hin.1]
          exact hsized.filled page (lt_of_lt_pgRoundUp (not_le.mp hlow))
      · intro va hdevice hva
        rw [hsame _ fun hin => ?_]
        · exact hsized.device va hdevice hva
        · simp only [PGSIZE, DEVSPACE, KERNBASE] at *
          omega

theorem loadSegment {readi : Readi} {ph : Proghdr} {result : Option Nat}
    (h : Space home role₀ m₀ d map none m)
    (hprivate : ∀ page, Private home d page) (hsized : Sized map sz)
    (hop : KernelThreads.loadSegment readi d ph sz m = .ok (result, next)) :
    ∃ after, Space home role₀ m₀ d after none next ∧
      ∀ size, result = some size → Sized after size := by
  unfold KernelThreads.loadSegment at hop
  split at hop
  · cases hop
    refine ⟨map, h, ?_⟩
    rintro size ⟨⟩
    exact hsized
  · split at hop
    · cases hop
      exact ⟨map, h, nofun⟩
    next hsizes =>
      rw [not_or, not_lt] at hsizes
      obtain ⟨grown, _, halloc, hrest⟩ := bind_ok hop
      have halloc := h.allocuvm (fun page _ _ => hprivate page) halloc
      split at hrest
      · cases hrest
        obtain ⟨after, hafter⟩ := halloc.space
        exact ⟨after, hafter, nofun⟩
      next hok =>
        rw [not_or] at hok
        obtain ⟨hgrown, after, hafter, hsized⟩ := halloc.sized hsized hok.1
        obtain ⟨done, _, hload, hrest⟩ := bind_ok hrest
        have hloaded := hafter.loaduvm hsized.filled hsized.below
          (by omega) hload
        cases done with
        | false =>
            cases hrest
            exact ⟨after, hloaded, nofun⟩
        | true =>
            cases hrest
            refine ⟨after, hloaded, ?_⟩
            rintro size ⟨⟩
            exact hsized

theorem loadSegments {readi : Readi} {more off : Nat} {result : Option Nat}
    (h : Space home role₀ m₀ d map none m)
    (hprivate : ∀ page, Private home d page) (hsized : Sized map sz)
    (hop : KernelThreads.loadSegments readi d more off sz m = .ok (result, next)) :
    ∃ after, Space home role₀ m₀ d after none next ∧
      ∀ size, result = some size → Sized after size := by
  induction more generalizing off sz map m with
  | zero =>
      cases hop
      refine ⟨map, h, ?_⟩
      rintro size ⟨⟩
      exact hsized
  | succ more ih =>
      unfold KernelThreads.loadSegments at hop
      simp only at hop
      split at hop
      · cases hop
        exact ⟨map, h, nofun⟩
      · obtain ⟨loaded, _, hload, hrest⟩ := bind_ok hop
        obtain ⟨after, hafter, hsized⟩ := h.loadSegment hprivate hsized hload
        cases loaded with
        | none =>
            cases hrest
            exact ⟨after, hafter, nofun⟩
        | some size => exact ih hafter (hsized size rfl) hrest

theorem sized_clear (h : Sized map sz) (page : Nat) :
    Sized (Function.update map page (.pte (map page).addr ((map page).flags &&& ~~~PTE_U)))
      sz := by
  have hpresent : ∀ other, (map other).has PTE_P = true → (Function.update map page
      (.pte (map page).addr ((map page).flags &&& ~~~PTE_U)) other).has PTE_P = true := by
    intro other hother
    rw [Function.update_apply]
    split
    next heq =>
      rw [has_present_clear, ← heq]
      exact hother
    next => exact hother
  exact ⟨h.below, fun other hlow => hpresent other (h.filled other hlow),
    fun va hdevice hva => hpresent _ (h.device va hdevice hva)⟩

theorem setupStack {null : MemProgram Word} {argv : List (List Byte)}
    {result : Option (Nat × Nat)} (h : Space home role₀ m₀ d map none m)
    (hprivate : ∀ page, Private home d page) (hsized : Sized map sz)
    (hargs : ∀ arg ∈ argv, arg.length + 4 ≤ 2 ^ 25)
    (hop : KernelThreads.setupStack null d sz argv m = .ok (result, next)) :
    ∃ after, Space home role₀ m₀ d after none next := by
  obtain ⟨grown, _, halloc, hrest⟩ := bind_ok hop
  have halloc := h.allocuvm (fun page _ _ => hprivate page) halloc
  split at hrest
  · cases hrest
    exact halloc.space
  next hok =>
    have hrounded : Sized map (pgRoundUp sz) :=
      ⟨pgRoundUp_le hsized.below, fun page hpage =>
        hsized.filled page (lt_of_lt_pgRoundUp hpage), hsized.device⟩
    obtain ⟨hgrown, after, hafter, hsized⟩ := halloc.sized hrounded hok
    rw [max_eq_right (Nat.le_add_right ..)] at hgrown
    subst hgrown
    obtain ⟨_, _, hclear, hrest⟩ := bind_ok hrest
    rw [Nat.add_sub_cancel] at hclear
    have hcleared := hafter.clearpteu (lt_of_lt_of_le (by simp [PGSIZE]) hsized.below) hclear
    have hsized := sized_clear hsized (pgRoundUp sz / PGSIZE)
    obtain ⟨pushed, _, hpush, hrest⟩ := bind_ok hrest
    obtain ⟨hpushed, hframe⟩ := hcleared.pushArgs hsized le_rfl hargs (Nat.zero_le _) hpush
    cases pushed with
    | none =>
        cases hrest
        exact ⟨_, hpushed⟩
    | some frame =>
        obtain ⟨hsp, hcount⟩ := hframe frame rfl
        obtain ⟨done, _, hcopy, hrest⟩ := bind_ok hrest
        have hlength := length_argFrame frame.1 frame.2
        have hcopied := (hpushed.copyout hsized (sub32_lt ..)
          (List.ne_nil_of_length_pos (by omega))
          (place hsized hsp (by simp only [MAXARG] at hcount; omega) (by rw [hlength])
            (by rw [hlength]; omega)) hcopy).1
        cases done <;> cases hrest <;> exact ⟨_, hcopied⟩

theorem buildImage {null : MemProgram Word} {readi : Readi} {elf : List Byte}
    {argv : List (List Byte)} {result : Option Loaded}
    (h : Space home role₀ m₀ d map none m) (hprivate : ∀ page, Private home d page)
    (hdevice : ∀ va, DEVSPACE ≤ va → va < 2 ^ 32 → (map (va / PGSIZE)).has PTE_P = true)
    (hargs : ∀ arg ∈ argv, arg.length + 4 ≤ 2 ^ 25)
    (hop : KernelThreads.buildImage null readi elf d argv m = .ok (result, next)) :
    ∃ after, Space home role₀ m₀ d after none next := by
  obtain ⟨segments, _, hload, hrest⟩ := bind_ok hop
  obtain ⟨after, hafter, hsized⟩ := h.loadSegments hprivate
    ⟨Nat.zero_le _, fun _ hpage => absurd hpage (Nat.not_lt_zero _), hdevice⟩ hload
  cases segments with
  | none =>
      cases hrest
      exact ⟨after, hafter⟩
  | some size =>
      obtain ⟨stack, _, hstack, hrest⟩ := bind_ok hrest
      obtain ⟨last, hlast⟩ := hafter.setupStack hprivate (hsized size rfl) hargs hstack
      cases stack <;> cases hrest <;> exact ⟨last, hlast⟩

end Space

end KernelThreads
