import KernelThreads.Machine.Clone
import KernelThreads.Mem.Load
import KernelThreads.Proc.Tree

namespace KernelThreads

open Lib Program

namespace Table

variable {t : Table} {cur leader p : Slot}

theorem handOff_self : (t.handOff cur leader cur).tid = -1 ∧
    (t.handOff cur leader cur).killed = (t cur).killed := by
  have hswap : (t.handOffSwap cur leader cur).tid = -1 ∧
      (t.handOffSwap cur leader cur).killed = (t cur).killed := by
    simp only [handOffSwap, setSlot_same, setSlot_apply]
    refine ⟨trivial, ?_⟩
    split
    next heq => rw [heq]
    next => rfl
  have hchildren : (t.handOffSwap cur leader).handOffChildren cur leader cur =
      { t.handOffSwap cur leader cur with
        parent := ((t.handOffSwap cur leader).handOffChildren cur leader
          cur).parent } := by
    unfold handOffChildren
    split <;> rfl
  rw [handOff, handOffPeers, if_neg (by simp), hchildren]
  exact hswap

theorem tgkillMark_self (htid : (t cur).tid = -1) : t.tgkillMark cur cur = t cur := by
  simp [tgkillMark, isPeer, htid]

theorem isPeer_of_same {after : Table} (hcur : (after cur).pid = (t cur).pid)
    (hpid : (after p).pid = (t p).pid) (htid : (after p).tid = (t p).tid) :
    after.isPeer cur p = t.isPeer cur p := by
  simp only [isPeer, hcur, hpid, htid]

theorem tgkillMark_isPeer (t : Table) (cur p : Slot) :
    (t.tgkillMark cur).isPeer cur p = t.isPeer cur p :=
  isPeer_of_same (tgkillMark_same cur).1 (tgkillMark_same p).1
    (tgkillMark_same p).2

theorem tgkillReap_cases (t : Table) (cur p : Slot) :
    t.tgkillReap cur p = t p ∨ t.isPeer cur p = true ∧ (t p).state = .zombie ∧
      passed (t.tgkillLive cur) p = true ∧ t.tgkillReap cur p = (t p).reap := by
  unfold tgkillReap
  split
  next h => exact .inr ⟨h.1, h.2.1, h.2.2, rfl⟩
  next => exact .inl rfl

theorem tgkillReap_none (hnone : t.tgkillLive cur = none)
    (hpeer : t.isPeer cur p = true) : t.tgkillReap cur p = (t p).reap := by
  have hzombie : (t p).state = .zombie := by
    simpa [hpeer] using firstSlot_eq_none_iff.mp hnone p
  rw [tgkillReap, if_pos ⟨hpeer, hzombie, by rw [hnone]; rfl⟩]

def Marked (t : Table) (cur : Slot) : Prop :=
  (t cur).killed = true ∨ (t cur).state = .unused ∨
    (t cur).tid = -1 ∧ ∀ p, t.isPeer cur p = true → (t p).pid = 0

theorem tgkillReap_marked
    (h : t.tgkillLive cur = none ∨ (t cur).killed = true) :
    (t.tgkillReap cur).Marked cur := by
  rcases t.tgkillReap_cases cur cur with hself | ⟨_, _, _, hself⟩
  · rcases h with hnone | hkilled
    · by_cases htid : (t cur).tid = -1
      · refine .inr (.inr ⟨by rw [hself]; exact htid, fun p hp => ?_⟩)
        by_cases hpeer : t.isPeer cur p = true
        · rw [tgkillReap_none hnone hpeer]
          rfl
        · rcases t.tgkillReap_cases cur p with hp' | ⟨hpeer', _⟩
          · rw [isPeer_of_same (by rw [hself]) (by rw [hp']) (by rw [hp'])] at hp
            exact absurd hp hpeer
          · exact absurd hpeer' hpeer
      · have hpeer : t.isPeer cur cur = true := by
          simp [isPeer, htid]
        rw [Marked, tgkillReap_none hnone hpeer]
        exact .inr (.inl rfl)
    · rw [Marked, hself]
      exact .inl hkilled
  · rw [Marked, hself]
    exact .inr (.inl rfl)

end Table

namespace Machine

/-- A call of `exec` by `q`, run to its return.  While it sleeps in `tgkill`,
anything may happen to the rest of the machine. -/
inductive ExecReturns (c : Cpu) (q : Slot) (i : Inputs) :
    Machine → Int → Machine → Prop
  | trapret {m : Machine} {eax : Int} (hpc : m.sys.pc q = .trapret eax) :
      ExecReturns c q i m eax m
  | turn {m next last : Machine} {eax : Int} (x : Choice)
      (hpc : ∀ eax, m.sys.pc q ≠ .trapret eax)
      (hturn : m.turn c q x i = some next)
      (hrest : ExecReturns c q i next eax last) : ExecReturns c q i m eax last
  | waits {m other last : Machine} {eax : Int}
      (hpc : m.sys.pc q = .tgkillSlept .exec) (hsame : other.sys.pc q = m.sys.pc q)
      (hrest : ExecReturns c q i other eax last) : ExecReturns c q i m eax last

/-- What a failed `exec` should leave behind: the group's slots, the caller's
mappings, and all its user memory, with the stack wherever it is. -/
structure ExecAtomic (m last : Machine) (q : Slot) : Prop where
  slots : ∀ p, (m.sys.proc p).pid = (m.sys.proc q).pid →
    (last.sys.proc p).pid = (m.sys.proc p).pid ∧
    (last.sys.proc p).tid = (m.sys.proc p).tid ∧
    (last.sys.proc p).parent = (m.sys.proc p).parent ∧
    (last.sys.proc p).killed = (m.sys.proc p).killed ∧
    (last.sys.proc p).state = (m.sys.proc p).state
  mappings : ∀ dir, (m.sys.proc q).pgdir = some dir → ∀ va < KERNBASE,
    last.mem.pte dir va = m.mem.pte dir va
  memory : ∀ dir, (m.sys.proc q).pgdir = some dir → ∀ va < KERNBASE,
    (m.mem.pte dir va).has PTE_P = true →
      last.mem.page (m.mem.pte dir va).addr = m.mem.page (m.mem.pte dir va).addr

/-- A leader that has nobody to kill, or that is being killed together with
its peers. -/
def ExecSpares (t : Table) (q : Slot) : Prop :=
  (t q).tid = -1 ∧ ((∀ p, t.isPeer q p = false) ∨
    (t q).killed = true ∧
      (∀ p, t.isPeer q p = true → (t p).killed = true ∧ (t p).state ≠ .sleeping) ∧
      ∃ live, t.isPeer q live = true ∧ (t live).state ≠ .zombie ∧
        ∀ p, t.isPeer q p = true → (t p).state = .zombie → live < p)

section Stages

variable {m last : Machine} {c : Cpu} {q : Slot} {i : Inputs} {eax : Int}

theorem ExecReturns.eax_eq (h : ExecReturns c q i m eax last) {retid : Int}
    (hpc : m.sys.pc q = .trapret retid) : eax = retid ∧ last = m := by
  cases h with
  | trapret hpc' =>
      rw [hpc, Pc.trapret.injEq] at hpc'
      exact ⟨hpc'.symm, rfl⟩
  | turn x hne => exact absurd hpc (hne retid)
  | waits hslept =>
      rw [hpc] at hslept
      cases hslept

theorem ExecReturns.goes (h : ExecReturns c q i m eax last)
    (hpc : ∀ eax, m.sys.pc q ≠ .trapret eax)
    (hslept : m.sys.pc q ≠ .tgkillSlept .exec) :
    ∃ x y sys mem, memory m.sys q x i (m.sys.pc q) m.mem = .ok (y, mem) ∧
      m.sys.thread c q y (m.sys.pc q) = some sys ∧
      ExecReturns c q i ⟨sys, mem⟩ eax last := by
  cases h with
  | trapret hpc' => exact absurd hpc' (hpc eax)
  | @turn _ next _ _ x _ hturn hrest =>
      obtain ⟨y, hmem, hsys⟩ := turn_eq hturn
      exact ⟨x, y, next.sys, next.mem, hmem, hsys, hrest⟩
  | waits hpc' => exact absurd hpc' hslept

theorem ExecReturns.load (h : ExecReturns c q i m (-1) last)
    (hpc : m.sys.pc q = .execLoad) :
    last.sys.proc = m.sys.proc ∧
      ∃ null, loadImage null i.file i.argv m.mem = .ok (none, last.mem) := by
  obtain ⟨x, y, sys, mem, hmem, hsys, hrest⟩ :=
    h.goes (by simp [hpc]) (by simp [hpc])
  rw [hpc] at hmem hsys
  obtain ⟨image, _, hexec, hret⟩ := bind_ok hmem
  cases hret
  obtain ⟨loaded, _, hload, hexec⟩ := bind_ok hexec
  cases loaded with
  | none =>
      cases hexec
      cases hsys
      obtain ⟨_, rfl⟩ := hrest.eax_eq (setSlot_same ..)
      exact ⟨rfl, _, hload⟩
  | some loaded =>
      obtain ⟨_, _, _, hexec⟩ := bind_ok hexec
      cases hexec
      simp only [Sys.thread, Sys.execLoad] at hsys
      split at hsys
      · obtain ⟨freed, _, rfl⟩ := Option.map_eq_some_iff.mp hsys
        obtain ⟨heax, _⟩ := hrest.eax_eq (setSlot_same ..)
        cases heax
      · cases hsys

theorem tgkillTurn_cases (s : Sys) (c : Cpu) (q : Slot) :
    ((s.tgkillTurn c q .exec).pc q = .execLoad ∧
      (s.tgkillTurn c q .exec).proc = s.proc.tgkillReap q ∧
        (s.proc.tgkillLive q = none ∨ (s.proc q).killed = true)) ∨
    (s.tgkillTurn c q .exec).pc q = .tgkillSlept .exec ∧
      s.proc.tgkillLive q ≠ none ∧ (s.proc q).killed = false := by
  unfold Sys.tgkillTurn
  dsimp only
  split
  next hnone => exact .inl ⟨setSlot_same .., rfl, .inl hnone⟩
  next live hlive =>
    split
    next hkilled => exact .inl ⟨setSlot_same .., rfl, .inr hkilled⟩
    next hkilled =>
      exact .inr ⟨setSlot_same .., by simp [hlive], by simpa using hkilled⟩

theorem ExecReturns.slept (h : ExecReturns c q i m (-1) last)
    (hpc : m.sys.pc q = .tgkillSlept .exec) : last.sys.proc.Marked q := by
  generalize heax : (-1 : Int) = eax at h
  induction h with
  | trapret hpc' =>
      rw [hpc] at hpc'
      cases hpc'
  | @turn m next last eax x _ hturn hrest ih =>
      subst heax
      obtain ⟨y, _, hsys⟩ := turn_eq hturn
      rw [hpc] at hsys
      obtain ⟨_, hsys⟩ := Sys.resume_eq_some hsys
      have hnext : (m.sys.tidy q).tgkillTurn c q .exec = next.sys :=
        Option.some.inj hsys
      rcases tgkillTurn_cases (m.sys.tidy q) c q with
        ⟨hload, hproc, hend⟩ | ⟨hslept, _⟩
      · rw [hnext] at hload hproc
        rw [(hrest.load hload).1, hproc]
        exact Table.tgkillReap_marked hend
      · rw [hnext] at hslept
        exact ih hslept rfl
  | waits _ hsame _ ih => exact ih (hsame.trans hpc) heax

theorem ExecReturns.start (h : ExecReturns c q i m (-1) last)
    (hpc : m.sys.pc q = .execLeader) :
    ∃ start : Machine, start.sys.pc q = .tgkillLock .exec ∧
      ExecReturns c q i start (-1) last ∧ (start.sys.proc q).tid = -1 ∧
      (start.sys.proc q).killed = (m.sys.proc q).killed ∧
      ((m.sys.proc q).tid = -1 →
        start.sys.proc = m.sys.proc ∧ start.mem = m.mem) := by
  obtain ⟨x, y, sys, mem, hmem, hsys, hrest⟩ :=
    h.goes (by simp [hpc]) (by simp [hpc])
  rw [hpc] at hmem hsys
  cases hmem
  cases hsys
  -- The lock section.
  obtain ⟨x, y, sys, mem, hmem, hsys, hrest⟩ := hrest.goes (by simp) (by simp)
  simp only [Sys.goto_pc, setSlot_same] at hmem hsys
  obtain ⟨_, _, hlock, hret⟩ := bind_ok hmem
  cases hret
  obtain ⟨_, hsys⟩ := Sys.acquire_eq_some hsys
  have hlocked : sys.pc q = .tgkillCheck .exec ∧ (sys.proc q).tid = -1 ∧
      (sys.proc q).killed = (m.sys.proc q).killed ∧
      ((m.sys.proc q).tid = -1 → sys.proc = m.sys.proc ∧ mem = m.mem) := by
    simp only [Sys.execLock, Sys.goto_proc] at hsys
    split at hsys
    next htid =>
      cases hsys
      refine ⟨setSlot_same .., htid, rfl, fun _ => ⟨rfl, ?_⟩⟩
      simp only [Table.execLockMem, Sys.goto_proc, htid] at hlock
      cases hlock
      rfl
    next htid =>
      split at hsys
      · cases hsys
      · cases hsys
        exact ⟨setSlot_same .., Table.handOff_self.1, Table.handOff_self.2,
          fun hleader => absurd hleader htid⟩
  obtain ⟨hcheck, htid, hkilled, hsame⟩ := hlocked
  -- The check that the caller is the leader.
  obtain ⟨x, y, sys', mem', hmem, hsys, hrest⟩ :=
    hrest.goes (by simp [hcheck]) (by simp [hcheck])
  simp only [hcheck] at hmem hsys
  cases hmem
  cases hsys
  refine ⟨_, ?_, hrest, htid, hkilled, hsame⟩
  simp [Sys.tgkillCheck, Table.threadLeader, htid]

theorem ExecReturns.locked (h : ExecReturns c q i m (-1) last)
    (hpc : m.sys.pc q = .tgkillLock .exec) :
    (∃ mem, (m.sys.proc.tgkillMark q).tgkillMem q m.mem = .ok ((), mem) ∧
      last.sys.proc = (m.sys.proc.tgkillMark q).tgkillReap q ∧
      (∃ null, loadImage null i.file i.argv mem = .ok (none, last.mem)) ∧
      ((m.sys.proc.tgkillMark q).tgkillLive q = none ∨
        (m.sys.proc.tgkillMark q q).killed = true)) ∨
    (m.sys.proc.tgkillMark q).tgkillLive q ≠ none ∧
      (m.sys.proc.tgkillMark q q).killed = false ∧ last.sys.proc.Marked q := by
  obtain ⟨x, y, sys, mem, hmem, hsys, hrest⟩ :=
    h.goes (by simp [hpc]) (by simp [hpc])
  rw [hpc] at hmem hsys
  obtain ⟨_, _, htgkill, hret⟩ := bind_ok hmem
  cases hret
  obtain ⟨_, hsys⟩ := Sys.acquire_eq_some hsys
  cases hsys
  rcases tgkillTurn_cases (m.sys.tgkillMark q) c q with
    ⟨hload, hproc, hend⟩ | ⟨hslept, hlive, hkilled⟩
  · obtain ⟨hlast, hloaded⟩ := hrest.load hload
    exact .inl ⟨mem, htgkill, hlast.trans hproc, hloaded, hend⟩
  · exact .inr ⟨hlive, hkilled, hrest.slept hslept⟩

end Stages

namespace ExecSpares

variable {t : Table} {q p : Slot}

theorem peer (h : ExecSpares t q) (hp : t.isPeer q p = true) :
    (t q).killed = true ∧ (t p).killed = true ∧ (t p).state ≠ .sleeping := by
  rcases h.2 with hnone | ⟨hkilled, hpeers, _⟩
  · rw [hnone p] at hp
    cases hp
  · exact ⟨hkilled, hpeers p hp⟩

theorem mark (h : ExecSpares t q) : t.tgkillMark q = t := by
  funext p
  unfold Table.tgkillMark
  split
  next hp =>
    obtain ⟨_, hkilled, hstate⟩ := h.peer hp
    simp only [Proc.markGroupKilled, Proc.markKilled, if_neg hstate]
    rw [← hkilled]
  next => rfl

theorem ends (h : ExecSpares t q) :
    t.tgkillLive q = none ∨ (t q).killed = true := by
  rcases h.2 with hnone | ⟨hkilled, _⟩
  · refine .inl (firstSlot_eq_none_iff.mpr fun p => ?_)
    simp [hnone p]
  · exact .inr hkilled

theorem unreaped (h : ExecSpares t q) (hp : t.isPeer q p = true)
    (hzombie : (t p).state = .zombie) :
    Table.passed (t.tgkillLive q) p = false := by
  rcases h.2 with hnone | ⟨_, _, live, hpeer, halive, hfirst⟩
  · rw [hnone p] at hp
    cases hp
  · cases hlive : t.tgkillLive q with
    | none =>
        have htest := firstSlot_eq_none_iff.mp hlive live
        simp [hpeer, halive] at htest
    | some found =>
        -- The loop stops at the living peer, or before it.
        have hle : found ≤ live := by
          by_contra hlt
          have htest := firstSlot_min hlive (not_le.mp hlt)
          simp [hpeer, halive] at htest
        have hlt := lt_of_le_of_lt hle (hfirst p hp hzombie)
        simpa [Table.passed] using le_of_lt hlt

theorem reap (h : ExecSpares t q) : t.tgkillReap q = t := by
  funext p
  rcases t.tgkillReap_cases q p with heq | ⟨hp, hzombie, hpassed, _⟩
  · exact heq
  · rw [h.unreaped hp hzombie] at hpassed
    cases hpassed

end ExecSpares

section Traces

variable {m last : Machine} {q : Slot}

theorem ExecAtomic.peer (h : ExecAtomic m last q) {p : Slot}
    (hp : m.sys.proc.isPeer q p = true) :
    last.sys.proc.isPeer q p = true ∧
      (last.sys.proc p).pid = (m.sys.proc q).pid := by
  have hgroup : (m.sys.proc p).pid = (m.sys.proc q).pid := by
    simp only [Table.isPeer, decide_eq_true_eq] at hp
    exact hp.1
  have hslot := h.slots p hgroup
  rw [Table.isPeer_of_same (h.slots q rfl).1 hslot.1 hslot.2.1]
  exact ⟨hp, hslot.1.trans hgroup⟩

theorem ExecAtomic.spares (h : ExecAtomic m last q)
    (hpid : (m.sys.proc q).pid ≠ 0) (htid : (m.sys.proc q).tid = -1)
    (hlast : last.sys.proc = (m.sys.proc.tgkillMark q).tgkillReap q)
    (hend : (m.sys.proc.tgkillMark q).tgkillLive q = none ∨
      (m.sys.proc.tgkillMark q q).killed = true) :
    ExecSpares m.sys.proc q := by
  have hmark := fun p => m.sys.proc.tgkillMark_isPeer q p
  -- A peer that was reaped has no pid any more.
  have hkept : ∀ p, m.sys.proc.isPeer q p = true →
      (m.sys.proc.tgkillMark q).tgkillReap q p ≠ (m.sys.proc.tgkillMark q p).reap := by
    intro p hp hreaped
    have hsame := (h.peer hp).2
    rw [hlast, hreaped] at hsame
    exact hpid hsame.symm
  have hpeers : ∀ p, m.sys.proc.isPeer q p = true →
      (m.sys.proc p).killed = true ∧ (m.sys.proc p).state ≠ .sleeping := by
    intro p hp
    have hgroup : (m.sys.proc p).pid = (m.sys.proc q).pid := by
      simp only [Table.isPeer, decide_eq_true_eq] at hp
      exact hp.1
    obtain ⟨_, _, _, hkilled, hstate⟩ := h.slots p hgroup
    rcases Table.tgkillReap_cases (m.sys.proc.tgkillMark q) q p with
      heq | ⟨_, _, _, heq⟩
    · rw [hlast, heq, Table.tgkillMark, if_pos hp] at hkilled hstate
      refine ⟨hkilled.symm, fun hsleeping => ?_⟩
      simp only [Proc.markGroupKilled, Proc.markKilled, hsleeping] at hstate
      cases hstate
    · exact absurd heq (hkept p hp)
  refine ⟨htid, ?_⟩
  by_cases hnone : ∀ p, m.sys.proc.isPeer q p = false
  · exact .inl hnone
  · simp only [not_forall, Bool.not_eq_false] at hnone
    obtain ⟨p, hp⟩ := hnone
    cases hlive : (m.sys.proc.tgkillMark q).tgkillLive q with
    | none => exact absurd (Table.tgkillReap_none hlive ((hmark p).trans hp)) (hkept p hp)
    | some live =>
        rw [hlive, Table.tgkillMark_self htid] at hend
        have htest := firstSlot_some hlive
        simp only [hmark, decide_eq_true_eq] at htest
        have hstate : ∀ p, m.sys.proc.isPeer q p = true →
            (m.sys.proc.tgkillMark q p).state = (m.sys.proc p).state := by
          intro p hp
          simp only [Table.tgkillMark, if_pos hp, Proc.markGroupKilled,
            Proc.markKilled, if_neg (hpeers p hp).2]
        refine .inr ⟨hend.resolve_left (by simp), hpeers, live, htest.1, ?_, ?_⟩
        · rw [← hstate live htest.1]
          exact htest.2
        · intro p hp hzombie
          rw [← hstate p hp] at hzombie
          rcases lt_trichotomy live p with hlt | rfl | hgt
          · exact hlt
          · exact absurd hzombie htest.2
          · have hpassed : Table.passed
                ((m.sys.proc.tgkillMark q).tgkillLive q) p = true := by
              simp [hlive, Table.passed, hgt]
            exact absurd (if_pos ⟨(hmark p).trans hp, hzombie, hpassed⟩) (hkept p hp)

end Traces

end Machine

namespace Machine

end Machine

end KernelThreads
