import KernelThreads.Machine.Grow
import KernelThreads.Sched.Safety

namespace KernelThreads

open Lib Program

/-! Arguments of system calls, `syscall.c`. -/

theorem wordIndex_lt (va : Nat) : va / 4 % 1024 < 1024 := Nat.mod_lt _ (by decide)

def Mem.byte (m : Mem) (pgdir : Frame) (va : Nat) : Option Byte :=
  let pte := m.pte pgdir va
  if pte.has PTE_P then
    some ((m.page pte.addr ⟨va / 4 % 1024, wordIndex_lt va⟩).extractLsb'
      (8 * (va % 4)) 8)
  else none

/-- The kernel reads user memory through the page directory of the thread; a
page that is absent ends in `panic("trap")`. -/
def loadByte (pgdir : Frame) (va : Nat) : MemProgram Byte := do
  let m ← get
  match m.byte pgdir va with
  | none => throw .trap
  | some byte => return byte

def loadBytes (pgdir : Frame) : Nat → Nat → MemProgram (List Byte)
  | 0, _ => return []
  | n + 1, va => do
      let byte ← loadByte pgdir va
      let rest ← loadBytes pgdir n ((va + 1) % 2 ^ 32)
      return byte :: rest

/-- The loop of `fetchstr`: `left` is the distance from `s` to `ep`. -/
def scanString (pgdir : Frame) (addr : Nat) : Nat → Nat → MemProgram (Option Nat)
  | 0, _ => return none
  | left + 1, s => do
      let byte ← loadByte pgdir s
      if byte = 0 then
        return some (s - addr)
      else
        scanString pgdir addr left (s + 1)

namespace Proc

def limit (p : Proc) : Nat := if p.tid = -1 then p.sz else p.tstack

def fetchint (p : Proc) (addr : Nat) : MemProgram (Option Nat) := do
  if p.limit ≤ addr ∨ p.limit < (addr + 4) % 2 ^ 32 then
    return none
  else
    let bytes ← onDir p.pgdir fun dir => loadBytes dir 4 addr
    return some (field bytes 0 4)

/-- `fetchstr`; none for -1.  The scan ends at the size of the thread itself. -/
def fetchstr (p : Proc) (addr : Nat) : MemProgram (Option Nat) :=
  if p.limit ≤ addr then
    return none
  else
    onDir p.pgdir fun dir => scanString dir addr (p.sz - addr) addr

/-- `argint`, with the stack pointer that the user had at the call. -/
def argint (p : Proc) (esp n : Nat) : MemProgram (Option Nat) :=
  p.fetchint ((esp + 4 + 4 * n) % 2 ^ 32)

def argptr (p : Proc) (esp n : Nat) (size : Int) : MemProgram (Option Nat) := do
  match ← p.argint esp n with
  | none => return none
  | some i =>
      if size < 0 ∨ p.limit ≤ i ∨ p.limit < (i + size.toNat) % 2 ^ 32 then
        return none
      else
        return some i

end Proc

def Mem.Mapped (m : Mem) (d : Frame) (va : Nat) : Prop :=
  va < KERNBASE ∧ (m.pte d va).has PTE_P = true

/-- What the checks let through is mapped, and no check makes the kernel
fault. -/
structure ArgsSound (m : Mem) (p : Proc) (d : Frame) : Prop where
  int : ∀ addr, p.fetchint addr m ≠ .error .trap ∧
    ∀ value next, p.fetchint addr m = .ok (some value, next) →
      ∀ k < 4, m.Mapped d (addr + k)
  ptr : ∀ esp n (size : Int), size < 2 ^ 31 →
    p.argptr esp n size m ≠ .error .trap ∧
      ∀ i next, p.argptr esp n size m = .ok (some i, next) →
        ∀ k : Nat, k < size → m.Mapped d (i + k)
  str : ∀ addr, p.fetchstr addr m ≠ .error .trap ∧
    ∀ len next, p.fetchstr addr m = .ok (some len, next) →
      ∀ k ≤ len, m.Mapped d (addr + k)

/-- Every page below the limit is mapped, and a string that begins below the
limit ends before the scan meets a page that is absent. -/
structure ArgsMapped (m : Mem) (p : Proc) (d : Frame) : Prop where
  pages : 4 ≤ p.limit → ∀ va < p.limit, m.Mapped d va
  strings : ∀ addr va, addr < p.limit → addr ≤ va → va < p.sz →
    m.byte d va = none → ∃ s, addr ≤ s ∧ s < va ∧ m.byte d s = some 0

section Reads

variable {m : Mem} {d : Frame} {va n addr left s : Nat} {p : Proc}

theorem Mem.byte_none_iff :
    m.byte d va = none ↔ (m.pte d va).has PTE_P = false := by
  simp only [Mem.byte]
  split
  next h => simp [h]
  next h => simpa using h

theorem loadByte_none (h : m.byte d va = none) :
    loadByte d va m = .error .trap := by
  have hget : (get : MemProgram Mem) m = .ok (m, m) := rfl
  unfold loadByte
  rw [bind_of_ok hget, h]
  rfl

theorem loadByte_some {byte : Byte} (h : m.byte d va = some byte) :
    loadByte d va m = .ok (byte, m) := by
  have hget : (get : MemProgram Mem) m = .ok (m, m) := rfl
  unfold loadByte
  rw [bind_of_ok hget, h]
  rfl

theorem loadBytes_cases (hfits : va + n ≤ 2 ^ 32) :
    (∃ bytes, loadBytes d n va m = .ok (bytes, m) ∧
      ∀ k < n, m.byte d (va + k) ≠ none) ∨
    loadBytes d n va m = .error .trap ∧ ∃ k < n, m.byte d (va + k) = none := by
  induction n generalizing va with
  | zero => exact .inl ⟨[], rfl, nofun⟩
  | succ n ih =>
      unfold loadBytes
      cases hbyte : m.byte d va with
      | none =>
          exact .inr ⟨bind_of_error (loadByte_none hbyte), 0, Nat.succ_pos _, hbyte⟩
      | some byte =>
          rw [bind_of_ok (loadByte_some hbyte)]
          cases n with
          | zero =>
              refine .inl ⟨[byte], rfl, fun k hk => ?_⟩
              rw [Nat.lt_one_iff.mp hk, Nat.add_zero, hbyte]
              nofun
          | succ n =>
              have hnext : (va + 1) % 2 ^ 32 = va + 1 :=
                Nat.mod_eq_of_lt (by omega)
              rw [hnext]
              rcases ih (show va + 1 + (n + 1) ≤ 2 ^ 32 by omega) with
                ⟨bytes, hbytes, hall⟩ | ⟨htrap, k, hk, hnone⟩
              · refine .inl ⟨byte :: bytes, bind_of_ok hbytes, fun k hk => ?_⟩
                cases k with
                | zero =>
                    rw [Nat.add_zero, hbyte]
                    nofun
                | succ k =>
                    rw [Nat.add_comm k, ← Nat.add_assoc]
                    exact hall k (by omega)
              · refine .inr ⟨bind_of_error htrap, k + 1, by omega, ?_⟩
                rw [Nat.add_comm k, ← Nat.add_assoc]
                exact hnone

inductive Scans (m : Mem) (d : Frame) (addr s stop : Nat) :
    Except Stop (Option Nat × Mem) → Prop
  | found {e : Nat} (hlow : s ≤ e) (hhigh : e < stop) (hnul : m.byte d e = some 0)
      (hbefore : ∀ u, s ≤ u → u < e → m.byte d u ≠ none ∧ m.byte d u ≠ some 0) :
      Scans m d addr s stop (.ok (some (e - addr), m))
  | missing (hall : ∀ u, s ≤ u → u < stop →
      m.byte d u ≠ none ∧ m.byte d u ≠ some 0) :
      Scans m d addr s stop (.ok (none, m))
  | fault {e : Nat} (hlow : s ≤ e) (hhigh : e < stop) (hnone : m.byte d e = none)
      (hbefore : ∀ u, s ≤ u → u < e → m.byte d u ≠ none ∧ m.byte d u ≠ some 0) :
      Scans m d addr s stop (.error .trap)

theorem scanString_scans :
    Scans m d addr s (s + left) (scanString d addr left s m) := by
  induction left generalizing s with
  | zero => exact .missing fun u hlow hhigh => absurd hhigh (not_lt.mpr hlow)
  | succ left ih =>
      unfold scanString
      cases hbyte : m.byte d s with
      | none =>
          rw [bind_of_error (loadByte_none hbyte)]
          exact .fault le_rfl (by omega) hbyte fun u hlow hhigh =>
            absurd hhigh (not_lt.mpr hlow)
      | some byte =>
          rw [bind_of_ok (loadByte_some hbyte)]
          split
          next hzero =>
            subst hzero
            exact .found le_rfl (by omega) hbyte fun u hlow hhigh =>
              absurd hhigh (not_lt.mpr hlow)
          next hother =>
            have hfirst : ∀ {u}, s ≤ u → ¬ s + 1 ≤ u →
                m.byte d u ≠ none ∧ m.byte d u ≠ some 0 := by
              intro u hlow hhigh
              rw [show u = s by omega, hbyte]
              exact ⟨nofun, fun heq => hother (Option.some.inj heq)⟩
            have hrest := ih (s := s + 1)
            rw [Nat.add_right_comm, Nat.add_assoc] at hrest
            revert hrest
            generalize scanString d addr left (s + 1) m = result
            intro hrest
            cases hrest with
            | found hlow hhigh hnul hbefore =>
                refine .found (by omega) hhigh hnul fun u hu hu' => ?_
                by_cases hs : s + 1 ≤ u
                · exact hbefore u hs hu'
                · exact hfirst hu hs
            | missing hall =>
                refine .missing fun u hu hu' => ?_
                by_cases hs : s + 1 ≤ u
                · exact hall u hs hu'
                · exact hfirst hu hs
            | fault hlow hhigh hnone hbefore =>
                refine .fault (by omega) hhigh hnone fun u hu hu' => ?_
                by_cases hs : s + 1 ≤ u
                · exact hbefore u hs hu'
                · exact hfirst hu hs

end Reads

namespace Proc

variable {m : Mem} {p : Proc} {d : Frame} {addr : Nat}

theorem fetchint_refused
    (h : p.limit ≤ addr ∨ p.limit < (addr + 4) % 2 ^ 32) :
    p.fetchint addr m = .ok (none, m) := by
  unfold fetchint
  rw [if_pos h]
  rfl

theorem fetchint_accepted (hdir : p.pgdir = some d) (hlimit : p.limit < 2 ^ 32)
    (h : addr + 4 ≤ p.limit) : p.fetchint addr m =
      (loadBytes d 4 addr >>= fun bytes => pure (some (field bytes 0 4))) m := by
  have hsum : (addr + 4) % 2 ^ 32 = addr + 4 :=
    Nat.mod_eq_of_lt (lt_of_le_of_lt h hlimit)
  unfold fetchint
  rw [if_neg (by rw [hsum]; omega), hdir]
  rfl

theorem fetchint_cases (hdir : p.pgdir = some d) (hlimit : p.limit < 2 ^ 32)
    (h : addr + 4 ≤ p.limit) :
    (∃ value, p.fetchint addr m = .ok (some value, m) ∧
      ∀ k < 4, m.byte d (addr + k) ≠ none) ∨
    p.fetchint addr m = .error .trap ∧ ∃ k < 4, m.byte d (addr + k) = none := by
  rw [fetchint_accepted hdir hlimit h]
  rcases loadBytes_cases (m := m) (d := d) (show addr + 4 ≤ 2 ^ 32 by omega) with
    ⟨bytes, hbytes, hall⟩ | ⟨htrap, hnone⟩
  · rw [bind_of_ok hbytes]
    exact .inl ⟨_, rfl, hall⟩
  · exact .inr ⟨bind_of_error htrap, hnone⟩

theorem fetchstr_refused (h : p.limit ≤ addr) :
    p.fetchstr addr m = .ok (none, m) := by
  unfold fetchstr
  rw [if_pos h]
  rfl

theorem fetchstr_accepted (hdir : p.pgdir = some d) (h : addr < p.limit) :
    p.fetchstr addr m = scanString d addr (p.sz - addr) addr m := by
  unfold fetchstr
  rw [if_neg (not_le.mpr h), hdir]
  rfl

end Proc

theorem Mem.mapped_iff {m : Mem} {d : Frame} {va : Nat} (hva : va < KERNBASE) :
    m.Mapped d va ↔ m.byte d va ≠ none := by
  rw [Ne, Mem.byte_none_iff, Mem.Mapped, and_iff_right hva, Bool.not_eq_false]

namespace ArgsMapped

variable {m : Mem} {p : Proc} {d : Frame}

theorem below (h : ArgsMapped m p d) (hfour : 4 ≤ p.limit) :
    p.limit ≤ KERNBASE := by
  have hlast := (h.pages hfour (p.limit - 1) (by omega)).1
  omega

theorem fetches (h : ArgsMapped m p d) (hdir : p.pgdir = some d) (addr : Nat) :
    ∃ result, p.fetchint addr m = .ok (result, m) ∧
      (result ≠ none → ∀ k < 4, m.Mapped d (addr + k)) := by
  by_cases hfits : addr + 4 ≤ p.limit
  · have hbelow := h.below (by omega)
    have hpages := h.pages (by omega)
    rcases Proc.fetchint_cases (m := m) hdir (lt_of_le_of_lt hbelow (by decide))
        hfits with ⟨value, hvalue, _⟩ | ⟨_, k, hk, hnone⟩
    · exact ⟨_, hvalue, fun _ k hk => hpages _ (by omega)⟩
    · have hmapped := hpages (addr + k) (by omega)
      rw [Mem.mapped_iff (by omega)] at hmapped
      exact absurd hnone hmapped
  · have hrefused : p.limit ≤ addr ∨ p.limit < (addr + 4) % 2 ^ 32 := by
      by_cases hfour : 4 ≤ p.limit
      · have hbelow := h.below hfour
        simp only [KERNBASE] at hbelow
        omega
      · omega
    exact ⟨none, Proc.fetchint_refused hrefused, fun hne => absurd rfl hne⟩

theorem int (h : ArgsMapped m p d) (hdir : p.pgdir = some d) (addr : Nat) :
    p.fetchint addr m ≠ .error .trap ∧
      ∀ value next, p.fetchint addr m = .ok (some value, next) →
        ∀ k < 4, m.Mapped d (addr + k) := by
  obtain ⟨result, hresult, hmapped⟩ := h.fetches hdir addr
  rw [hresult]
  refine ⟨nofun, ?_⟩
  rintro value next ⟨⟩
  exact hmapped nofun

theorem ptr (h : ArgsMapped m p d) (hdir : p.pgdir = some d) (esp n : Nat)
    {size : Int} (hsize : size < 2 ^ 31) :
    p.argptr esp n size m ≠ .error .trap ∧
      ∀ i next, p.argptr esp n size m = .ok (some i, next) →
        ∀ k : Nat, k < size → m.Mapped d (i + k) := by
  obtain ⟨result, hresult, _⟩ := h.fetches hdir ((esp + 4 + 4 * n) % 2 ^ 32)
  unfold Proc.argptr Proc.argint
  rw [bind_of_ok hresult]
  cases result with
  | none => exact ⟨nofun, nofun⟩
  | some i =>
      dsimp only
      split
      · exact ⟨nofun, nofun⟩
      next haccept =>
        refine ⟨nofun, ?_⟩
        rintro j next ⟨⟩ k hk
        -- The pointer is below the limit, so that its sum with the size is
        -- taken without a carry.
        by_cases hfour : 4 ≤ p.limit
        · have hbelow := h.below hfour
          refine h.pages hfour _ ?_
          simp only [KERNBASE] at hbelow
          omega
        · rw [Proc.fetchint_refused (by omega)] at hresult
          cases hresult

theorem str (h : ArgsMapped m p d) (hdir : p.pgdir = some d)
    (hsz : p.sz ≤ KERNBASE) (addr : Nat) :
    p.fetchstr addr m ≠ .error .trap ∧
      ∀ len next, p.fetchstr addr m = .ok (some len, next) →
        ∀ k ≤ len, m.Mapped d (addr + k) := by
  by_cases hlimit : addr < p.limit
  · rw [Proc.fetchstr_accepted hdir hlimit]
    have hscans : Scans m d addr addr (addr + (p.sz - addr))
        (scanString d addr (p.sz - addr) addr m) := scanString_scans
    revert hscans
    generalize scanString d addr (p.sz - addr) addr m = result
    intro hscans
    cases hscans with
    | @found e hlow hhigh hnul hbefore =>
        refine ⟨nofun, ?_⟩
        rintro len next ⟨⟩ k hk
        rw [Mem.mapped_iff (by omega)]
        by_cases hlast : addr + k < e
        · exact (hbefore _ (Nat.le_add_right ..) hlast).1
        · rw [show addr + k = e by omega, hnul]
          nofun
    | missing => exact ⟨nofun, nofun⟩
    | @fault e hlow hhigh hnone hbefore =>
        obtain ⟨s, hs, hse, hnul⟩ :=
          h.strings addr e hlimit hlow (by omega) hnone
        exact absurd hnul (hbefore s hs hse).2
  · rw [Proc.fetchstr_refused (not_lt.mp hlimit)]
    exact ⟨nofun, nofun⟩

end ArgsMapped

/-- The argument checks of a thread are sound exactly if nothing below its
limit is missing. -/
theorem Proc.args_sound {m : Mem} {p : Proc} {d : Frame}
    (hdir : p.pgdir = some d) (hsz : p.sz ≤ KERNBASE)
    (hstack : p.tstack < 2 ^ 32) : ArgsSound m p d ↔ ArgsMapped m p d := by
  refine ⟨fun h => ⟨?_, ?_⟩, fun h => ⟨h.int hdir, fun esp n _ => h.ptr hdir esp n,
    h.str hdir hsz⟩⟩
  · intro hfour va hva
    have hlimit : p.limit < 2 ^ 32 := by
      unfold Proc.limit
      split
      · exact lt_of_le_of_lt hsz (by decide)
      · exact hstack
    -- Four bytes around the address that are still below the limit.
    obtain ⟨hsafe, hmapped⟩ := h.int (min va (p.limit - 4))
    have hfits : min va (p.limit - 4) + 4 ≤ p.limit := by omega
    rcases Proc.fetchint_cases (m := m) hdir hlimit hfits with
      ⟨value, hvalue, _⟩ | ⟨htrap, _⟩
    · have hbyte := hmapped value m hvalue (va - min va (p.limit - 4)) (by omega)
      rwa [Nat.add_sub_cancel' (Nat.min_le_left ..)] at hbyte
    · exact absurd htrap hsafe
  · intro addr va haddr hle hva hnone
    by_contra hno
    have hsafe := (h.str addr).1
    rw [fetchstr_accepted hdir haddr] at hsafe
    have hscans : Scans m d addr addr (addr + (p.sz - addr))
        (scanString d addr (p.sz - addr) addr m) := scanString_scans
    revert hscans hsafe
    generalize scanString d addr (p.sz - addr) addr m = result
    intro hsafe hscans
    cases hscans with
    | @found e hlow hhigh hnul hbefore =>
        by_cases hve : va < e
        · exact (hbefore va hle hve).1 hnone
        · refine hno ⟨e, hlow, lt_of_le_of_ne (not_lt.mp hve) ?_, hnul⟩
          rintro rfl
          rw [hnul] at hnone
          cases hnone
    | missing hall => exact (hall va hle (by omega)).1 hnone
    | fault => exact hsafe rfl

theorem Filled.mapped {m : Mem} {d : Frame} {size va : Nat}
    (h : Filled (m.entry d) size) (hsize : size ≤ KERNBASE) (hva : va < size) :
    m.Mapped d va := by
  refine ⟨lt_of_lt_of_le hva hsize, ?_⟩
  have hpage := h (va / PGSIZE) (lt_of_le_of_lt (Nat.div_mul_le_self ..) hva)
  rwa [Mem.entry, m.pte_congr d (Nat.mul_div_cancel _ (by decide))] at hpage

theorem ArgsMapped.of_filled {m : Mem} {p : Proc} {d : Frame} {size : Nat}
    (hfilled : Filled (m.entry d) size) (hsize : size ≤ KERNBASE)
    (hlimit : p.limit ≤ size) (hsz : p.sz ≤ size) : ArgsMapped m p d := by
  refine ⟨fun _ va hva => hfilled.mapped hsize (by omega),
    fun addr va _ _ hva hnone => ?_⟩
  have hbyte := hfilled.mapped hsize (show va < size by omega)
  exact absurd hnone ((Mem.mapped_iff hbyte.1).mp hbyte)

/-- The leader, and a thread that has its stack in the heap. -/
theorem args_sound_heap :
    ArgsSound (sampleMem true []) (sampleTable 0) 100 ∧
      ArgsSound (sampleMem true [])
        { sampleTable 1 with tstack := 12000, tstackalloc := false } 100 := by
  have hfilled : Filled ((sampleMem true []).entry 100) 12288 :=
    sampleMem_laid.filled
  exact ⟨(Proc.args_sound rfl (by decide) (by decide)).mpr
      (.of_filled hfilled (by decide) (by decide) (by decide)),
    (Proc.args_sound rfl (by decide) (by decide)).mpr
      (.of_filled hfilled (by decide) (by decide) (by decide))⟩

def sampleStart (free : List Frame) : Machine where
  sys := started 99 100 12288
  mem := sampleMem false free

def sampleClone (childStack : Nat) : List (Label × Inputs) :=
  (Sys.startOn 0 ++ Sys.cloneOn 0 (.clone TFLAGS childStack) (.ok 0 0)).map
    fun label => (label, {})

set_option maxRecDepth 4000 in
/-- A thread with its stack below the kernel passes any address in between. -/
theorem args_fault_below_stack :
    ¬ ∀ (m : Machine) q d, Reach Machine.step (fun _ _ => True)
        (sampleStart [107, 108, 109]) m → (m.sys.proc q).state.active = true →
      (m.sys.proc q).pgdir = some d → ArgsSound m.mem (m.sys.proc q) d := by
  intro hsound
  have hrun : ((run Machine.step (fun _ _ => true) (sampleStart [107, 108, 109])
      (sampleClone 0)).any fun m => (m.sys.proc 1).state.active = true ∧
        (m.sys.proc 1).pgdir = some 100 ∧ (m.sys.proc 1).limit = KERNBASE ∧
          m.mem.byte 100 12288 = none) = true := by
    decide +kernel
  obtain ⟨m, hreach, hactive, hdir, hlimit, hnone⟩ := reach_of_run_any hrun
  have hargs := hsound m 1 100 (hreach.mono fun _ _ _ => trivial) hactive hdir
  have hfits : 12288 + 4 ≤ (m.sys.proc 1).limit := by
    rw [hlimit]
    decide
  rcases Proc.fetchint_cases (m := m.mem) hdir (by rw [hlimit]; decide) hfits with
    ⟨_, _, hall⟩ | ⟨htrap, _⟩
  · exact hall 0 (by decide) hnone
  · exact (hargs.int 12288).1 htrap

namespace Table

def threads (t : Table) (leader : Slot) : Set Slot :=
  {q | (t q).state.active = true ∧ t.threadLeader q = some leader}

instance (t : Table) (leader q : Slot) : Decidable (q ∈ t.threads leader) :=
  inferInstanceAs (Decidable (_ ∧ _))

/-- The addresses from `low` up to `high` lie in what the group shares, or in
the stack page that `clone` has made for the thread. -/
def Inside (t : Table) (leader q : Slot) (low high : Nat) : Prop :=
  high ≤ (t leader).sz ∨
    (t q).tstackalloc = true ∧ (t q).tstack ≤ low + PGSIZE ∧ high ≤ (t q).tstack

end Table

/-- Every thread of the group can pass what lies in shared memory, or on its
own stack; what lies in shared memory means the same to all of them. -/
structure ArgsUniform (m : Mem) (t : Table) (leader : Slot) (d : Frame) : Prop where
  int : ∀ q ∈ t.threads leader, ∀ addr, t.Inside leader q addr (addr + 4) →
    ∃ value, (t q).fetchint addr m = .ok (some value, m)
  ptr : ∀ q ∈ t.threads leader, ∀ esp n i (size : Nat), 0 < size →
    t.Inside leader q i (i + size) → (t q).argint esp n m = .ok (some i, m) →
      (t q).argptr esp n size m = .ok (some i, m)
  str : ∀ q ∈ t.threads leader, ∀ addr len,
    t.Inside leader q addr (addr + len + 1) →
    (∀ k < len, m.byte d (addr + k) ≠ none ∧ m.byte d (addr + k) ≠ some 0) →
      m.byte d (addr + len) = some 0 → (t q).fetchstr addr m = .ok (some len, m)
  same : ∀ q ∈ t.threads leader, ∀ r ∈ t.threads leader, ∀ addr,
    addr + 4 ≤ (t leader).sz → (t q).fetchint addr m = (t r).fetchint addr m

/-- The limit of a thread is above what it may pass, all of which is mapped;
and no string ends at or above the thread's own size. -/
structure ArgsReach (m : Mem) (t : Table) (leader : Slot) (d : Frame) (q : Slot) :
    Prop where
  heap : 4 ≤ (t leader).sz → (t leader).sz ≤ (t q).limit ∧
    ∀ va < (t leader).sz, m.byte d va ≠ none
  stack : (t q).tstackalloc = true → (t q).tstack ≤ (t q).limit ∧
    ∀ va, (t q).tstack ≤ va + PGSIZE → va < (t q).tstack → m.byte d va ≠ none
  strings : ∀ e, t.Inside leader q e (e + 1) → m.byte d e = some 0 →
    e < (t q).limit ∧ e < (t q).sz

namespace ArgsReach

variable {m : Mem} {t : Table} {leader q : Slot} {d : Frame} {low high addr len : Nat}

theorem range (h : ArgsReach m t leader d q) (hfour : low + 4 ≤ high)
    (hinside : t.Inside leader q low high) : high ≤ (t q).limit ∧
      ∀ va, low ≤ va → va < high → m.byte d va ≠ none := by
  rcases hinside with hheap | ⟨halloc, hlow, hhigh⟩
  · obtain ⟨hlimit, hmapped⟩ := h.heap (by omega)
    exact ⟨by omega, fun va _ hva => hmapped va (by omega)⟩
  · obtain ⟨hlimit, hmapped⟩ := h.stack halloc
    exact ⟨by omega, fun va hva hva' => hmapped va (by omega) (by omega)⟩

theorem fetches (h : ArgsReach m t leader d q) (hdir : (t q).pgdir = some d)
    (hlimit : (t q).limit < 2 ^ 32)
    (hinside : t.Inside leader q addr (addr + 4)) :
    ∃ value, (t q).fetchint addr m = .ok (some value, m) := by
  obtain ⟨hbelow, hmapped⟩ := h.range le_rfl hinside
  rcases Proc.fetchint_cases (m := m) hdir hlimit hbelow with
    ⟨value, hvalue, _⟩ | ⟨_, k, hk, hnone⟩
  · exact ⟨value, hvalue⟩
  · exact absurd hnone (hmapped _ (Nat.le_add_right ..) (by omega))

theorem points (h : ArgsReach m t leader d q) (hlimit : (t q).limit < 2 ^ 32)
    {esp n i size : Nat} (hsize : 0 < size)
    (hinside : t.Inside leader q i (i + size))
    (harg : (t q).argint esp n m = .ok (some i, m)) :
    (t q).argptr esp n size m = .ok (some i, m) := by
  have hfour : 4 ≤ (t q).limit := by
    by_contra hlow
    unfold Proc.argint at harg
    rw [Proc.fetchint_refused (by omega)] at harg
    cases harg
  have hfits : i + size ≤ (t q).limit := by
    rcases hinside with hheap | ⟨halloc, _, hhigh⟩
    · by_cases hsmall : 4 ≤ (t leader).sz
      · exact hheap.trans (h.heap hsmall).1
      · omega
    · exact hhigh.trans (h.stack halloc).1
  unfold Proc.argptr
  rw [bind_of_ok harg]
  dsimp only
  rw [if_neg]
  · rfl
  · rw [Int.toNat_natCast, Nat.mod_eq_of_lt (by omega)]
    omega

theorem scans (h : ArgsReach m t leader d q) (hdir : (t q).pgdir = some d)
    (hinside : t.Inside leader q addr (addr + len + 1))
    (hbytes : ∀ k < len, m.byte d (addr + k) ≠ none ∧ m.byte d (addr + k) ≠ some 0)
    (hnul : m.byte d (addr + len) = some 0) :
    (t q).fetchstr addr m = .ok (some len, m) := by
  have hend : t.Inside leader q (addr + len) (addr + len + 1) :=
    hinside.imp_right fun ⟨halloc, hlow, hhigh⟩ => ⟨halloc, by omega, hhigh⟩
  obtain ⟨hlimit, hsz⟩ := h.strings _ hend hnul
  have hbefore : ∀ u, addr ≤ u → u < addr + len →
      m.byte d u ≠ none ∧ m.byte d u ≠ some 0 := by
    intro u hu hu'
    have hbyte := hbytes (u - addr) (by omega)
    rwa [Nat.add_sub_cancel' hu] at hbyte
  rw [Proc.fetchstr_accepted hdir (by omega)]
  have hscans : Scans m d addr addr (addr + ((t q).sz - addr))
      (scanString d addr ((t q).sz - addr) addr m) := scanString_scans
  revert hscans
  generalize scanString d addr ((t q).sz - addr) addr m = result
  intro hscans
  cases hscans with
  | @found e hlow _ he hrest =>
      have heq : e = addr + len := by
        rcases lt_trichotomy e (addr + len) with hlt | heq | hgt
        · exact absurd he (hbefore e hlow hlt).2
        · exact heq
        · exact absurd hnul (hrest _ (Nat.le_add_right ..) hgt).2
      rw [heq, Nat.add_sub_cancel_left]
  | missing hall => exact absurd hnul (hall _ (Nat.le_add_right ..) (by omega)).2
  | @fault e hlow _ he hrest =>
      rcases lt_trichotomy e (addr + len) with hlt | heq | hgt
      · exact absurd he (hbefore e hlow hlt).1
      · rw [heq, hnul] at he
        cases he
      · exact absurd hnul (hrest _ (Nat.le_add_right ..) hgt).2

end ArgsReach

theorem Proc.fetchint_some {m : Mem} {p : Proc} {d : Frame} {addr value : Nat}
    (hdir : p.pgdir = some d) (hlimit : p.limit < 2 ^ 32)
    (hfits : addr + 4 < 2 ^ 32)
    (h : p.fetchint addr m = .ok (some value, m)) :
    addr + 4 ≤ p.limit ∧ ∀ k < 4, m.byte d (addr + k) ≠ none := by
  have hbelow : addr + 4 ≤ p.limit := by
    by_contra hnot
    rw [fetchint_refused (.inr (by rw [Nat.mod_eq_of_lt hfits]; omega))] at h
    cases h
  rcases fetchint_cases (m := m) hdir hlimit hbelow with ⟨_, _, hall⟩ | ⟨htrap, _⟩
  · exact ⟨hbelow, hall⟩
  · rw [h] at htrap
    cases htrap

theorem Proc.fetchstr_some {m : Mem} {p : Proc} {addr len : Nat} {d : Frame}
    (hdir : p.pgdir = some d) (h : p.fetchstr addr m = .ok (some len, m)) :
    addr < p.limit ∧ addr < p.sz := by
  have hlimit : addr < p.limit := by
    by_contra hnot
    rw [fetchstr_refused (not_lt.mp hnot)] at h
    cases h
  refine ⟨hlimit, ?_⟩
  by_contra hnot
  rw [fetchstr_accepted hdir hlimit, Nat.sub_eq_zero_of_le (not_lt.mp hnot)] at h
  cases h

/-- The checks are uniform over a group exactly if every thread of it reaches
all that it may pass. -/
theorem Table.args_uniform {m : Mem} {t : Table} {leader : Slot} {d : Frame}
    (hdir : ∀ q ∈ t.threads leader, (t q).pgdir = some d)
    (hsz : ∀ q, (t q).sz < 2 ^ 32) (hstack : ∀ q, (t q).tstack < 2 ^ 32)
    (hpage : ∀ q, (t q).tstackalloc = true → PGSIZE ≤ (t q).tstack) :
    ArgsUniform m t leader d ↔ ∀ q ∈ t.threads leader, ArgsReach m t leader d q := by
  have hlimit : ∀ q, (t q).limit < 2 ^ 32 := by
    intro q
    unfold Proc.limit
    split
    · exact hsz q
    · exact hstack q
  constructor
  · intro h q hq
    constructor
    case heap =>
      intro hfour
      have hleader := hsz leader
      have hread : ∀ addr, addr + 4 ≤ (t leader).sz → addr + 4 ≤ (t q).limit ∧
          ∀ k < 4, m.byte d (addr + k) ≠ none := by
        intro addr haddr
        obtain ⟨value, hvalue⟩ := h.int q hq addr (.inl haddr)
        exact Proc.fetchint_some (hdir q hq) (hlimit q) (by omega) hvalue
      refine ⟨by have := (hread ((t leader).sz - 4) (by omega)).1; omega,
        fun va hva => ?_⟩
      have hbyte := (hread (min va ((t leader).sz - 4)) (by omega)).2
        (va - min va ((t leader).sz - 4)) (by omega)
      rwa [Nat.add_sub_cancel' (Nat.min_le_left ..)] at hbyte
    case stack =>
      intro halloc
      have htop := hstack q
      have hsize := hpage q halloc
      have hread : ∀ addr, (t q).tstack ≤ addr + PGSIZE →
          addr + 4 ≤ (t q).tstack → addr + 4 ≤ (t q).limit ∧
            ∀ k < 4, m.byte d (addr + k) ≠ none := by
        intro addr hlow hhigh
        obtain ⟨value, hvalue⟩ := h.int q hq addr (.inr ⟨halloc, hlow, hhigh⟩)
        exact Proc.fetchint_some (hdir q hq) (hlimit q) (by omega) hvalue
      simp only [PGSIZE] at hsize hread ⊢
      refine ⟨by have := (hread ((t q).tstack - 4) (by omega) (by omega)).1; omega,
        fun va hlow hhigh => ?_⟩
      have hbyte := (hread (min va ((t q).tstack - 4)) (by omega) (by omega)).2
        (va - min va ((t q).tstack - 4)) (by omega)
      rwa [Nat.add_sub_cancel' (Nat.min_le_left ..)] at hbyte
    case strings =>
      intro e hinside hnul
      exact Proc.fetchstr_some (hdir q hq) (h.str q hq e 0 hinside (by simp) hnul)
  · intro h
    constructor
    case int => exact fun q hq addr => (h q hq).fetches (hdir q hq) (hlimit q)
    case ptr => exact fun q hq esp n i size => (h q hq).points (hlimit q)
    case str => exact fun q hq addr len => (h q hq).scans (hdir q hq)
    case same =>
      intro q hq r hr addr haddr
      rw [Proc.fetchint_accepted (hdir q hq) (hlimit q)
          ((h q hq).range le_rfl (.inl haddr)).1,
        Proc.fetchint_accepted (hdir r hr) (hlimit r)
          ((h r hr).range le_rfl (.inl haddr)).1]

/-- A leader, and a thread on a stack of its own at the end of the heap. -/
def heapTable : Table := fun p =>
  if p = 1 then { sampleTable 1 with tstack := 12288, tstackalloc := false }
  else sampleTable p

theorem args_uniform_heap : ArgsUniform (sampleMem true []) heapTable 0 100 := by
  have hfilled : Filled ((sampleMem true []).entry 100) 12288 :=
    sampleMem_laid.filled
  refine (Table.args_uniform (by decide) (by decide) (by decide)
    (by decide)).mpr fun q hq => ?_
  have hq : (heapTable q).limit = 12288 ∧ (heapTable q).sz = 12288 ∧
      (heapTable q).tstackalloc = false := by
    revert q
    decide
  obtain ⟨hlimit, hsz, halloc⟩ := hq
  constructor
  case heap =>
    refine fun _ => ⟨le_of_eq hlimit.symm, fun va hva => ?_⟩
    exact (Mem.mapped_iff (lt_trans hva (by decide))).mp (hfilled.mapped (by decide) hva)
  case stack =>
    rw [halloc]
    nofun
  case strings =>
    rintro e (hheap | ⟨htrue, _⟩) _
    · rw [hlimit, hsz]
      exact ⟨hheap, hheap⟩
    · rw [halloc] at htrue
      cases htrue

set_option maxRecDepth 4000 in
/-- The scan for the end of a string stops at the size of the thread, below a
stack that `clone` has made for it. -/
theorem args_refuse_own_stack :
    ¬ ∀ (m : Machine) leader d, Reach Machine.step (fun _ _ => True)
        (sampleStart [107, 108, 109]) m → (m.sys.proc leader).tid = -1 →
      (m.sys.proc leader).pgdir = some d →
        ArgsUniform m.mem m.sys.proc leader d := by
  intro huniform
  have hrun : ((run Machine.step (fun _ _ => true) (sampleStart [107, 108, 109])
      (sampleClone 0)).any fun m => (m.sys.proc 0).tid = -1 ∧
        (m.sys.proc 0).pgdir = some 100 ∧ 1 ∈ m.sys.proc.threads 0 ∧
        (m.sys.proc 1).pgdir = some 100 ∧ (m.sys.proc 1).sz = 12288 ∧
        (m.sys.proc 1).tstackalloc = true ∧ (m.sys.proc 1).tstack = KERNBASE ∧
          m.mem.byte 100 (KERNBASE - PGSIZE) = some 0) = true := by
    decide +kernel
  obtain ⟨m, hreach,
    hleads, hdir, hthread, hshares, hsz, halloc, hstack, hnul⟩ := reach_of_run_any hrun
  have hargs := huniform m 0 100 (hreach.mono fun _ _ _ => trivial) hleads hdir
  have hempty := hargs.str 1 hthread (KERNBASE - PGSIZE) 0
    (.inr ⟨halloc, by rw [hstack]; decide, by rw [hstack]; decide⟩) nofun hnul
  have hbelow := (Proc.fetchstr_some hshares hempty).2
  rw [hsz] at hbelow
  revert hbelow
  decide

end KernelThreads
