import KernelThreads.Lib.Transition
import KernelThreads.Machine.System
import KernelThreads.Proc.HandOff

namespace KernelThreads.Sync

open Lib Program

/-! `sys_sbrk` and the hand-off in `exec`, by the threads of one group.  Both
name the leader through `THREAD_LEADER`, under different locks. -/

inductive SbrkPc where
  | idle
  /-- It spins for the `tlock` of the slot it has read. -/
  | acquiring (lock : Slot) (n : Int)
  | reading (lock : Slot) (n : Int)
  | growing (lock : Slot) (n : Int) (addr : Nat)
  /-- The call will return the address, or -1. -/
  | releasing (lock : Slot) (n : Int) (addr : Option Nat)
  /-- `exec` has read its leader, and takes `ptable.lock`. -/
  | handing (tleader : Slot)
  | loading
  deriving DecidableEq, Repr

def SbrkPc.inSbrk : SbrkPc → Bool
  | .acquiring .. | .reading .. | .growing .. | .releasing .. => true
  | _ => false

def SbrkPc.holds : SbrkPc → Option Slot
  | .reading lock _ | .growing lock _ _ | .releasing lock _ _ => some lock
  | _ => none

inductive SbrkAct where
  | sbrk (n : Int)
  | exec
  | acquire
  | addr
  /-- `growproc`, with the memory it finds. -/
  | growproc (m : Mem)
  | release
  | handOff
  /-- `exec` fails after the hand-off. -/
  | execFails

structure SbrkSys where
  proc : Table
  /-- The thread that runs on the CPU that holds the `tlock` of a slot. -/
  tlock : Slot → Option Slot
  pc : Slot → SbrkPc
  /-- `release` or `acquire` has panicked. -/
  panicked : Bool

namespace SbrkSys

def start (t : Table) : SbrkSys where
  proc := t
  tlock _ := none
  pc _ := .idle
  panicked := false

def goto (s : SbrkSys) (q : Slot) (pc : SbrkPc) : SbrkSys :=
  { s with pc := setSlot s.pc q pc }

def acquire (s : SbrkSys) (q lock : Slot) (n : Int) : Option SbrkSys :=
  match s.tlock lock with
  | none =>
      some ({ s with tlock := setSlot s.tlock lock (some q) }.goto q
        (.reading lock n))
  | some holder => if holder = q then some { s with panicked := true } else none

def release (s : SbrkSys) (q lock : Slot) : SbrkSys :=
  if s.tlock lock = some q then
    { s with tlock := setSlot s.tlock lock none }.goto q .idle
  else { s with panicked := true }

/-- `growproc`; another panic of the kernel ends the run. -/
def growproc (s : SbrkSys) (q tleader lock : Slot) (n : Int) (addr : Nat)
    (m : Mem) : Option SbrkSys :=
  match s.proc.growproc q tleader n m with
  | .error _ => none
  | .ok (none, _) => some (s.goto q (.releasing lock n none))
  | .ok (some sz, _) =>
      some ({ s with proc := s.proc.setSize q tleader sz }.goto q
        (.releasing lock n (some addr)))

def handOff (s : SbrkSys) (q tleader : Slot) : SbrkSys :=
  (if (s.proc q).tid ≠ -1 then { s with proc := s.proc.handOff q tleader }
    else s).goto q .loading

/-- The next step of a thread whose `THREAD_LEADER` is `tleader`. -/
def thread (s : SbrkSys) (q tleader : Slot) : SbrkPc → SbrkAct → Option SbrkSys
  -- `trap` sends a killed thread to `exit` before the call.
  | .idle, .sbrk n =>
      if (s.proc q).killed = false ∧ -2 ^ 31 ≤ n ∧ n < 2 ^ 31 then
        some (s.goto q (.acquiring tleader n))
      else none
  | .idle, .exec =>
      if (s.proc q).killed = false then some (s.goto q (.handing tleader))
      else none
  | .acquiring lock n, .acquire => s.acquire q lock n
  | .reading lock n, .addr => some (s.goto q (.growing lock n (s.proc tleader).sz))
  | .growing lock n addr, .growproc m => s.growproc q tleader lock n addr m
  | .releasing .., .release => some (s.release q tleader)
  | .handing leader, .handOff => some (s.handOff q leader)
  | .loading, .execFails => some (s.goto q .idle)
  | _, _ => none

def step (group : Int) (s : SbrkSys) (label : Slot × SbrkAct) : Option SbrkSys :=
  if s.panicked = false ∧ (s.proc label.1).pid = group then
    (s.proc.threadLeader label.1).bind fun tleader =>
      s.thread label.1 tleader (s.pc label.1) label.2
  else none

structure Grown where
  addr : Nat
  n : Int
  deriving DecidableEq, Repr

def returned (s : SbrkSys) (label : Slot × SbrkAct) (next : SbrkSys) :
    List Grown :=
  match s.pc label.1, label.2 with
  | .releasing _ n (some addr), .release =>
      if next.panicked then [] else [⟨addr, n⟩]
  | _, _ => []

def Grown.Apart (a b : Grown) : Prop :=
  (a.addr : Int) + a.n ≤ b.addr ∨ (b.addr : Int) + b.n ≤ a.addr

instance (a b : Grown) : Decidable (a.Apart b) :=
  inferInstanceAs (Decidable (_ ∨ _))

/-- No `sbrk` shrinks.  Leadership is handed off while no thread of the group is
inside `sys_sbrk`, by a peer of the leader it has read, to the leader's size. -/
def clear (s : SbrkSys) (label : Slot × SbrkAct) : Bool :=
  match s.pc label.1, label.2 with
  | .idle, .sbrk n => decide (0 ≤ n)
  | .handing tleader, .handOff =>
      decide ((s.proc label.1).tid ≠ -1 →
        (s.proc label.1).parent = some tleader ∧
          (s.proc label.1).sz = (s.proc tleader).sz ∧
            ∀ p, (s.proc p).pid = (s.proc label.1).pid →
              (s.pc p).inSbrk = false)
  | _, _ => true

end SbrkSys

structure Led (t : Table) (group : Int) (leader : Slot) : Prop where
  pid : (t leader).pid = group
  tid : (t leader).tid = -1
  peers : ∀ p, (t p).pid = group → p ≠ leader →
    (t p).tid ≠ -1 ∧ (t p).parent = some leader

namespace Led

variable {t next : Table} {group : Int} {leader q : Slot}

theorem threadLeader (h : Led t group leader) (hq : (t q).pid = group) :
    t.threadLeader q = some leader := by
  unfold Table.threadLeader
  by_cases heq : q = leader
  · rw [heq, if_pos h.tid]
  · rw [if_neg (h.peers q hq heq).1, (h.peers q hq heq).2]

theorem setSize (h : Led t group leader) (cur tleader : Slot) (sz : Nat) :
    Led (t.setSize cur tleader sz) group leader := by
  have hsame : ∀ p, (t.setSize cur tleader sz p).pid = (t p).pid ∧
      (t.setSize cur tleader sz p).tid = (t p).tid ∧
      (t.setSize cur tleader sz p).parent = (t p).parent := by
    intro p
    unfold Table.setSize
    split <;> exact ⟨rfl, rfl, rfl⟩
  constructor
  · rw [(hsame leader).1, h.pid]
  · rw [(hsame leader).2.1, h.tid]
  · intro p hp hne
    rw [(hsame p).1] at hp
    rw [(hsame p).2.1, (hsame p).2.2]
    exact h.peers p hp hne

theorem handOff (h : Led t group leader) (hq : (t q).pid = group)
    (hne : q ≠ leader) : Led (t.handOff q leader) group q := by
  have hpid : ∀ p, (t.handOff q leader p).pid = (t p).pid :=
    fun p => (t.rewired_handOff q leader p).pid
  constructor
  · rw [hpid, hq]
  · rw [t.handOff_tid, if_pos rfl]
  · intro p hp hpq
    rw [hpid] at hp
    refine ⟨?_, (t.handOff_peer (hp.trans hq.symm) hpq).1⟩
    rw [t.handOff_tid, if_neg hpq]
    split
    · exact (h.peers q hq hne).1
    next hpl => exact (h.peers p hp hpl).1

end Led

theorem allocPages_result {pgdir : Frame} {oldsz newsz turns a result : Nat}
    {m next : Mem}
    (h : allocPages pgdir oldsz newsz turns a m = .ok (result, next)) :
    result = 0 ∨ result = newsz := by
  induction turns generalizing a m with
  | zero =>
      cases h
      exact .inr rfl
  | succ turns ih =>
      unfold allocPages at h
      split at h
      next =>
        obtain ⟨page, allocated, _, h⟩ := bind_ok h
        cases page with
        | none =>
            obtain ⟨_, _, _, h⟩ := bind_ok h
            cases h
            exact .inl rfl
        | some page =>
            obtain ⟨_, _, _, h⟩ := bind_ok h
            obtain ⟨mapped, _, _, h⟩ := bind_ok h
            cases mapped with
            | true => exact ih h
            | false =>
                obtain ⟨_, _, _, h⟩ := bind_ok h
                obtain ⟨_, _, _, h⟩ := bind_ok h
                cases h
                exact .inl rfl
      next =>
        cases h
        exact .inr rfl

theorem growproc_size {t : Table} {q tleader : Slot} {n : Int} {sz : Nat}
    {m next : Mem} (h : t.growproc q tleader n m = .ok (some sz, next))
    (hn : 0 ≤ n) (hint : n < 2 ^ 31) (hsz : (t tleader).sz < KERNBASE) :
    (sz : Int) = (t tleader).sz + n ∧ sz < KERNBASE := by
  have hsum : (Table.resized (t tleader).sz n : Int) = (t tleader).sz + n := by
    simp only [Table.resized, KERNBASE] at hsz ⊢
    omega
  unfold Table.growproc at h
  split at h
  next hzero =>
    cases h
    exact ⟨by omega, hsz⟩
  next hzero =>
    obtain ⟨result, _, hdir, h⟩ := bind_ok h
    have hresult : result ≠ 0 ∧ sz = result := by
      split at h
      · cases h
      next hne =>
        cases h
        exact ⟨hne, rfl⟩
    obtain ⟨hne, rfl⟩ := hresult
    cases hpgdir : (t q).pgdir with
    | none =>
        rw [hpgdir] at hdir
        cases hdir
    | some dir =>
        rw [hpgdir] at hdir
        simp only [onDir, if_pos (show 0 < n by omega)] at hdir
        unfold allocuvm at hdir
        split at hdir
        · cases hdir
          contradiction
        · rw [if_neg (by omega)] at hdir
          have hnew := (allocPages_result hdir).resolve_left hne
          rw [hnew]
          exact ⟨hsum, by omega⟩

namespace SbrkSys

variable {s next : SbrkSys} {group : Int} {leader q : Slot} {log : List Grown}

/-- What a thread inside a call relies on.  `size` is the leader's, and the
intervals of `log` have been returned. -/
def Fits (leader : Slot) (size : Nat) (log : List Grown) : SbrkPc → Prop
  | .acquiring lock n | .reading lock n => lock = leader ∧ 0 ≤ n ∧ n < 2 ^ 31
  | .growing lock n addr =>
      lock = leader ∧ 0 ≤ n ∧ n < 2 ^ 31 ∧ addr = size
  | .releasing lock n addr =>
      lock = leader ∧ ∀ a, addr = some a → 0 ≤ n ∧ (a : Int) + n ≤ size ∧
        ∀ e ∈ log, (e.addr : Int) + e.n ≤ a
  | _ => True

theorem Fits.change {size size' : Nat} {log log' : List Grown} {pc : SbrkPc}
    (h : Fits leader size log pc) (hholds : pc.holds = none) :
    Fits leader size' log' pc := by
  cases pc with
  | reading | growing | releasing => cases hholds
  | _ => exact h

theorem fits_outside {size : Nat} {pc : SbrkPc} (h : pc.inSbrk = false) :
    Fits leader size log pc := by
  cases pc with
  | acquiring | reading | growing | releasing => cases h
  | _ => trivial

structure Paired (group : Int) (log : List Grown) (leader : Slot) (s : SbrkSys) :
    Prop where
  calm : s.panicked = false
  led : Led s.proc group leader
  members : ∀ p, (s.pc p).inSbrk = true → (s.proc p).pid = group
  small : ∀ p, (s.proc p).sz < KERNBASE
  fits : ∀ p, Fits leader (s.proc leader).sz log (s.pc p)
  held : ∀ lock p, s.tlock lock = some p ↔ (s.pc p).holds = some lock
  below : ∀ e ∈ log, (e.addr : Int) + e.n ≤ (s.proc leader).sz
  apart : log.Pairwise Grown.Apart

namespace Paired

theorem holds_leader (h : s.Paired group log leader) {lock : Slot}
    (hholds : (s.pc q).holds = some lock) : lock = leader := by
  have hfits := h.fits q
  cases hpc : s.pc q with
  | reading | growing | releasing =>
      rw [hpc] at hholds hfits
      cases hholds
      exact hfits.1
  | _ =>
      rw [hpc] at hholds
      cases hholds

theorem holder_unique (h : s.Paired group log leader) {lock : Slot}
    (hholds : (s.pc q).holds = some lock) {p : Slot} (hp : p ≠ q) :
    (s.pc p).holds = none := by
  cases hother : (s.pc p).holds with
  | none => rfl
  | some other =>
      have hq := (h.held lock q).mpr hholds
      have hp' := (h.held other p).mpr hother
      rw [h.holds_leader hholds] at hq
      rw [h.holds_leader hother, hq] at hp'
      cases hp'
      contradiction

theorem goto (h : s.Paired group log leader) {pc : SbrkPc}
    (hmember : (s.proc q).pid = group) (hholds : pc.holds = (s.pc q).holds)
    (hfits : Fits leader (s.proc leader).sz log pc) :
    (s.goto q pc).Paired group log leader where
  calm := h.calm
  led := h.led
  small := h.small
  below := h.below
  apart := h.apart
  members := by
    refine (Function.forall_update_iff s.pc fun p pc =>
      pc.inSbrk = true → (s.proc p).pid = group).mpr ?_
    exact ⟨fun _ => hmember, fun p _ => h.members p⟩
  fits := by
    refine (Function.forall_update_iff s.pc fun _ pc =>
      Fits leader (s.proc leader).sz log pc).mpr ?_
    exact ⟨hfits, fun p _ => h.fits p⟩
  held := by
    intro lock
    refine (Function.forall_update_iff s.pc fun p pc =>
      s.tlock lock = some p ↔ pc.holds = some lock).mpr ?_
    refine ⟨?_, fun p _ => h.held lock p⟩
    rw [hholds]
    exact h.held lock q

theorem free (h : s.Paired group log leader) {lock : Slot}
    (hfree : s.tlock lock = none) (p : Slot) : (s.pc p).holds ≠ some lock := by
  rw [Ne, ← h.held, hfree]
  simp

theorem acquire {lock : Slot} {n : Int} (h : s.Paired group log leader)
    (hpc : s.pc q = .acquiring lock n) (hnext : s.acquire q lock n = some next) :
    next.Paired group log leader := by
  have hfits := h.fits q
  have hmember := h.members q
  rw [hpc] at hfits hmember
  unfold SbrkSys.acquire at hnext
  split at hnext
  next hfree =>
    cases hnext
    refine ⟨h.calm, h.led, ?_, h.small, ?_, ?_, h.below, h.apart⟩
    · refine (Function.forall_update_iff s.pc fun p pc =>
        pc.inSbrk = true → (s.proc p).pid = group).mpr ?_
      exact ⟨fun _ => hmember rfl, fun p _ => h.members p⟩
    · refine (Function.forall_update_iff s.pc fun _ pc =>
        Fits leader (s.proc leader).sz log pc).mpr ?_
      exact ⟨hfits, fun p _ => h.fits p⟩
    · refine (Function.forall_update_iff s.tlock fun other holder => ∀ p,
        holder = some p ↔
          (setSlot s.pc q (.reading lock n) p).holds = some other).mpr ?_
      constructor
      · intro p
        rw [setSlot_apply]
        split
        next heq => simp [heq, SbrkPc.holds]
        next hne => simp [h.free hfree p, Ne.symm hne]
      · intro other hother p
        rw [h.held, setSlot_apply]
        split
        next heq => simp [heq, hpc, SbrkPc.holds, hother.symm]
        next => rfl
  next holder hheld =>
    split at hnext
    next heq =>
      rw [heq, h.held, hpc] at hheld
      cases hheld
    next => cases hnext

theorem growproc {lock : Slot} {n : Int} {addr : Nat} {m : Mem}
    (h : s.Paired group log leader) (hpc : s.pc q = .growing lock n addr)
    (hnext : s.growproc q leader lock n addr m = some next) :
    next.Paired group log leader := by
  have hfits := h.fits q
  have hmember := h.members q
  rw [hpc] at hfits hmember
  obtain ⟨hlock, hn, hint, rfl⟩ := hfits
  unfold SbrkSys.growproc at hnext
  split at hnext
  · cases hnext
  · cases hnext
    refine h.goto (hmember rfl) (by rw [hpc]; rfl) ⟨hlock, ?_⟩
    intro a ha
    cases ha
  next sz _ hgrow =>
    cases hnext
    obtain ⟨hsz, hsmall⟩ := growproc_size hgrow hn hint (h.small leader)
    have hleader : (s.proc.setSize q leader sz leader).sz = sz := by
      simp [Table.setSize]
    have hpid : ∀ p, (s.proc.setSize q leader sz p).pid = (s.proc p).pid := by
      intro p
      unfold Table.setSize
      split <;> rfl
    refine ⟨h.calm, h.led.setSize q leader sz, ?_, ?_, ?_, ?_, ?_, h.apart⟩
    · refine (Function.forall_update_iff s.pc fun p pc => pc.inSbrk = true →
        (s.proc.setSize q leader sz p).pid = group).mpr ?_
      simp only [hpid]
      exact ⟨fun _ => hmember rfl, fun p _ => h.members p⟩
    · intro p
      change (s.proc.setSize q leader sz p).sz < KERNBASE
      unfold Table.setSize
      split
      · exact hsmall
      · exact h.small p
    · refine (Function.forall_update_iff s.pc fun _ pc =>
        Fits leader (s.proc.setSize q leader sz leader).sz log pc).mpr ?_
      rw [hleader]
      refine ⟨⟨hlock, ?_⟩, fun p hp => ?_⟩
      · intro a ha
        cases ha
        exact ⟨hn, le_of_eq hsz.symm, h.below⟩
      · have hholds : (s.pc q).holds = some lock := by
          rw [hpc]
          rfl
        exact (h.fits p).change (h.holder_unique hholds hp)
    · intro other
      refine (Function.forall_update_iff s.pc fun p pc =>
        s.tlock other = some p ↔ pc.holds = some other).mpr ?_
      refine ⟨?_, fun p _ => h.held other p⟩
      rw [h.held, hpc]
      rfl
    · intro e he
      change _ ≤ (((s.proc.setSize q leader sz leader).sz : Nat) : Int)
      rw [hleader, hsz]
      have := h.below e he
      omega

theorem logged (h : s.Paired group log leader) {lock : Slot} {n : Int}
    {addr : Option Nat} (hpc : s.pc q = .releasing lock n addr) :
    (∀ e ∈ log ++ (addr.map fun a => ⟨a, n⟩).toList,
      (e.addr : Int) + e.n ≤ (s.proc leader).sz) ∧
      (log ++ (addr.map fun a => Grown.mk a n).toList).Pairwise Grown.Apart := by
  have hfits := h.fits q
  rw [hpc] at hfits
  cases addr with
  | none => simpa using ⟨h.below, h.apart⟩
  | some a =>
      obtain ⟨_, hend, habove⟩ := hfits.2 a rfl
      constructor
      · intro e he
        rcases List.mem_append.mp he with he | he
        · exact h.below e he
        · cases List.mem_singleton.mp he
          exact hend
      · refine List.pairwise_append.mpr ⟨h.apart, List.pairwise_singleton .., ?_⟩
        intro e he new hnew
        cases List.mem_singleton.mp hnew
        exact .inl (habove e he)

theorem release {lock : Slot} {n : Int} {addr : Option Nat}
    (h : s.Paired group log leader) (hpc : s.pc q = .releasing lock n addr) :
    (s.release q leader).Paired group
      (log ++ (addr.map fun a => Grown.mk a n).toList) leader := by
  have hholds : (s.pc q).holds = some leader := by
    have hlock : lock = leader := h.holds_leader (by rw [hpc]; rfl)
    rw [hpc, ← hlock]
    rfl
  obtain ⟨hbelow, hapart⟩ := h.logged hpc
  unfold SbrkSys.release
  rw [if_pos ((h.held leader q).mpr hholds)]
  refine ⟨h.calm, h.led, ?_, h.small, ?_, ?_, hbelow, hapart⟩
  · refine (Function.forall_update_iff s.pc fun p pc =>
      pc.inSbrk = true → (s.proc p).pid = group).mpr ?_
    exact ⟨nofun, fun p _ => h.members p⟩
  · refine (Function.forall_update_iff s.pc fun _ pc =>
      Fits leader (s.proc leader).sz _ pc).mpr ?_
    exact ⟨trivial, fun p hp => (h.fits p).change (h.holder_unique hholds hp)⟩
  · refine (Function.forall_update_iff s.tlock fun other holder => ∀ p,
      holder = some p ↔ (setSlot s.pc q .idle p).holds = some other).mpr ?_
    constructor
    · intro p
      rw [setSlot_apply]
      split
      · simp [SbrkPc.holds]
      next hne => simp [h.holder_unique hholds hne]
    · intro other hother p
      rw [h.held, setSlot_apply]
      split
      next heq =>
        rw [heq, hholds]
        simp [SbrkPc.holds, hother.symm]
      next => rfl

/-- While nobody is inside `sys_sbrk`, leadership can pass to a peer of the
leader's size. -/
theorem passOn (h : s.Paired group log leader)
    (hmember : (s.proc q).pid = group) (hne : q ≠ leader)
    (hsz : (s.proc q).sz = (s.proc leader).sz)
    (hout : ∀ p, (s.pc p).inSbrk = false) :
    { s with proc := s.proc.handOff q leader }.Paired group log q where
  calm := h.calm
  led := h.led.handOff hmember hne
  members := by
    intro p hin
    rw [hout p] at hin
    contradiction
  small := by
    intro p
    rw [(s.proc.rewired_handOff q leader p).sz]
    exact h.small p
  fits p := fits_outside (hout p)
  held := h.held
  below := by
    rw [(s.proc.rewired_handOff q leader q).sz, hsz]
    exact h.below
  apart := h.apart

theorem handOff {tleader : Slot} (h : s.Paired group log leader)
    (hmember : (s.proc q).pid = group) (hpc : s.pc q = .handing tleader)
    (hclear : s.clear (q, .handOff) = true) :
    ∃ leader', (s.handOff q tleader).Paired group log leader' := by
  unfold SbrkSys.handOff
  split
  next htid =>
    simp only [clear, hpc, decide_eq_true_eq] at hclear
    obtain ⟨hparent, hsz, houtside⟩ := hclear htid
    rw [hmember] at houtside
    have hne : q ≠ leader := fun heq => htid (by rw [heq, h.led.tid])
    rw [(h.led.peers q hmember hne).2] at hparent
    cases hparent
    have hout : ∀ p, (s.pc p).inSbrk = false := by
      intro p
      cases hin : (s.pc p).inSbrk with
      | false => rfl
      | true => rw [← hin, houtside p (h.members p hin)]
    have hpassed := h.passOn hmember hne hsz hout
    refine ⟨q, hpassed.goto ?_ (by rw [hpc]; rfl) trivial⟩
    exact hpassed.led.pid
  next => exact ⟨leader, h.goto hmember (by rw [hpc]; rfl) trivial⟩

theorem step {label : Slot × SbrkAct} (h : s.Paired group log leader)
    (hclear : s.clear label = true) (hstep : s.step group label = some next) :
    ∃ leader', next.Paired group (log ++ s.returned label next) leader' := by
  obtain ⟨q, act⟩ := label
  unfold SbrkSys.step at hstep
  split at hstep
  next hon =>
    have hmember := hon.2
    rw [h.led.threadLeader hmember] at hstep
    simp only [Option.bind_some] at hstep
    have hfits := h.fits q
    unfold SbrkSys.thread at hstep
    split at hstep
    next n hpc =>
      simp only [returned, clear, hpc, List.append_nil] at hclear ⊢
      split at hstep
      next hcall =>
        cases hstep
        refine ⟨leader, h.goto hmember (by rw [hpc]; rfl) ⟨rfl, ?_⟩⟩
        exact ⟨of_decide_eq_true hclear, hcall.2.2⟩
      next => cases hstep
    next hpc =>
      simp only [returned, hpc, List.append_nil]
      split at hstep
      · cases hstep
        exact ⟨leader, h.goto hmember (by rw [hpc]; rfl) trivial⟩
      · cases hstep
    next lock n hpc =>
      simp only [returned, hpc, List.append_nil]
      exact ⟨leader, h.acquire hpc hstep⟩
    next lock n hpc =>
      simp only [returned, hpc, List.append_nil]
      rw [hpc] at hfits
      cases hstep
      refine ⟨leader, h.goto hmember (by rw [hpc]; rfl) ?_⟩
      exact ⟨hfits.1, hfits.2.1, hfits.2.2, rfl⟩
    next lock n addr m hpc =>
      simp only [returned, hpc, List.append_nil]
      exact ⟨leader, h.growproc hpc hstep⟩
    next lock n addr hpc =>
      cases hstep
      have hreleased := h.release hpc
      refine ⟨leader, ?_⟩
      cases addr with
      | none =>
          simp only [returned, hpc]
          exact hreleased
      | some a =>
          simp only [returned, hpc, hreleased.calm]
          exact hreleased
    next tleader hpc =>
      simp only [returned, hpc, List.append_nil]
      cases hstep
      exact h.handOff hmember hpc hclear
    next hpc =>
      simp only [returned, hpc, List.append_nil]
      cases hstep
      exact ⟨leader, h.goto hmember (by rw [hpc]; rfl) trivial⟩
    next => cases hstep
  next => cases hstep

end Paired

theorem paired_start {t : Table} (hled : Led t group leader)
    (hsmall : ∀ p, (t p).sz < KERNBASE) : (start t).Paired group [] leader where
  calm := rfl
  led := hled
  members p hin := by cases hin
  small := hsmall
  fits _ := trivial
  held lock p := by simp [start, SbrkPc.holds]
  below := nofun
  apart := .nil

/-- Every call releases the lock it has acquired, and successful calls return
disjoint intervals. -/
theorem sbrk_paired {t : Table} (hled : Led t group leader)
    (hsmall : ∀ p, (t p).sz < KERNBASE)
    (hrun : History (step group) (fun s label => s.clear label = true) returned
      (start t) log s) :
    s.panicked = false ∧
      (∀ q lock, (s.pc q).holds = some lock →
        s.proc.threadLeader q = some lock ∧ s.tlock lock = some q) ∧
      log.Pairwise Grown.Apart := by
  have h : ∃ leader, s.Paired group log leader := by
    refine hrun.invariant (fun log s => ∃ leader, s.Paired group log leader)
      ⟨leader, paired_start hled hsmall⟩ ?_
    intro log state label next hpaired hclear hstep
    obtain ⟨leader, hpaired⟩ := hpaired
    exact hpaired.step hclear hstep
  obtain ⟨leader, h⟩ := h
  refine ⟨h.calm, fun q lock hholds => ?_, h.apart⟩
  have hin : (s.pc q).inSbrk = true := by
    cases hpc : s.pc q with
    | reading | growing | releasing => rfl
    | _ =>
        rw [hpc] at hholds
        cases hholds
  rw [h.led.threadLeader (h.members q hin), h.holds_leader hholds]
  refine ⟨rfl, (h.held leader q).mpr ?_⟩
  rw [hholds, h.holds_leader hholds]

def threeThreads : Table := fun p =>
  if p = 0 then { sz := 100, pgdir := some 9, pid := 5, tid := -1 }
  else if p = 1 ∨ p = 2 then
    { sz := 100, pgdir := some 9, pid := 5, tid := p, parent := some 0 }
  else {}

theorem led_threeThreads : Led threeThreads 5 0 where
  pid := rfl
  tid := rfl
  peers := by decide +kernel

theorem small_threeThreads : ∀ p, (threeThreads p).sz < KERNBASE := by
  decide +kernel

def fullMem : Mem where
  image := .sample
  freelist := []
  page _ _ := 0

def sbrkCall (q : Slot) (n : Int) : List (Slot × SbrkAct) :=
  [(q, .sbrk n), (q, .acquire), (q, .addr), (q, .growproc fullMem), (q, .release)]

/-- The leader and a peer grow; the peer takes over in an `exec` that fails, and
grows again. -/
theorem sbrk_paired_threeCalls :
    ∃ s, History (step 5) (fun s label => s.clear label = true) returned
        (start threeThreads) [⟨100, 8⟩, ⟨108, 16⟩, ⟨124, 4⟩] s ∧
      s.panicked = false ∧
        [⟨100, 8⟩, ⟨108, 16⟩, ⟨124, 4⟩].Pairwise Grown.Apart := by
  have hrun : ((runLog (step 5) clear returned (start threeThreads)
      (sbrkCall 0 8 ++ sbrkCall 1 16 ++
        [(1, .exec), (1, .handOff), (1, .execFails)] ++ sbrkCall 1 4)).any
      fun result => result.1 = [⟨100, 8⟩, ⟨108, 16⟩, ⟨124, 4⟩]) = true := by
    decide +kernel
  obtain ⟨log, s, hhistory, hlog⟩ := history_of_runLog hrun
  subst hlog
  have hpaired := sbrk_paired led_threeThreads small_threeThreads hhistory
  exact ⟨s, hhistory, hpaired.1, hpaired.2.2⟩

/-- A peer becomes the leader between the two evaluations of `THREAD_LEADER`. -/
theorem sbrk_releases_other :
    ¬ ∀ (t : Table) (group : Int) (leader : Slot), Led t group leader →
      (∀ p, (t p).sz < KERNBASE) → ∀ s,
        Reach (step group) (fun _ _ => True) (start t) s → s.panicked = false := by
  intro hsafe
  have hrun : ((run (step 5) (fun _ _ => true) (start threeThreads)
      [(1, .sbrk 8), (1, .acquire), (2, .exec), (2, .handOff), (1, .addr),
        (1, .growproc fullMem), (1, .release)]).any fun s => s.panicked = true) = true := by
    decide +kernel
  obtain ⟨s, hreach, hend⟩ := reach_of_run_any hrun
  have hcalm := hsafe threeThreads 5 0 led_threeThreads small_threeThreads s
    (hreach.mono fun _ _ _ => trivial)
  rw [hcalm] at hend
  contradiction

end SbrkSys

end KernelThreads.Sync
