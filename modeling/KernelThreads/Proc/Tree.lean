import Mathlib.Data.Fintype.Basic
import Mathlib.Logic.Equiv.Basic
import KernelThreads.Proc.HandOff

namespace KernelThreads

open Lib

namespace Table

/-! Well-formed tables, and the hand-off on them. -/

/-- The number by which a thread is known: its `tid`, or `pid` for a leader. -/
def identity (t : Table) (p : Slot) : Int :=
  if (t p).tid = -1 then (t p).pid else (t p).tid

def Live (t : Table) (p : Slot) : Prop := (t p).state ≠ .unused

def IsLeader (t : Table) (p : Slot) : Prop := t.Live p ∧ (t p).tid = -1

instance (t : Table) (p : Slot) : Decidable (t.Live p) :=
  inferInstanceAs (Decidable ((t p).state ≠ .unused))

instance (t : Table) (p : Slot) : Decidable (t.IsLeader p) :=
  inferInstanceAs (Decidable (t.Live p ∧ (t p).tid = -1))

@[mk_iff] structure WellFormed (t : Table) : Prop where
  leader : ∀ p, t.Live p → ∃! leader, t.IsLeader leader ∧
    (t leader).pid = (t p).pid
  peers : ∀ p, t.Live p → (t p).tid ≠ -1 → ∃ leader,
    (t p).parent = some leader ∧ t.IsLeader leader ∧
      (t leader).pid = (t p).pid
  processes : ∀ p leader, t.IsLeader p → (t p).parent = some leader →
    t.IsLeader leader
  unused : ∀ p, ¬ t.Live p → (t p).parent = none ∧ (t p).pid = 0
  identities : ∀ p r, t.Live p → t.Live r → t.identity p = t.identity r → p = r

/-- The only slot of its group with `tid` -1. -/
def LeadsAlone (t : Table) (cur : Slot) : Prop :=
  t.IsLeader cur ∧ ∀ p, t.IsLeader p → (t p).pid = (t cur).pid → p = cur

instance (test : Slot → Prop) [DecidablePred test] : Decidable (∃! p, test p) :=
  inferInstanceAs (Decidable (∃ p, test p ∧ ∀ r, test r → r = p))

instance (t : Table) : Decidable t.WellFormed :=
  decidable_of_iff' _ (t.wellFormed_iff)

instance (t : Table) (cur : Slot) : Decidable (t.LeadsAlone cur) :=
  inferInstanceAs (Decidable (_ ∧ _))

structure HandedOff (t next : Table) (cur leader : Slot) : Prop where
  caller : next cur = { t cur with tid := -1, parent := (t leader).parent }
  deposed : (next leader).tid = (t cur).tid
  group : ∀ p, t.Live p → (t p).pid = (t cur).pid → p ≠ cur →
    (next p).parent = some cur ∧ (next p).killed = true
  children : ∀ p, t.IsLeader p → p ≠ leader → (t p).parent = some leader →
    next p = { t p with parent := some cur }
  others : ∀ p, (t p).pid ≠ (t cur).pid →
    ¬ (t.IsLeader p ∧ (t p).parent = some leader) → next p = t p

section HandOff

variable {t : Table} {cur leader p r : Slot}

structure Succeeds (t : Table) (cur leader : Slot) : Prop where
  live : t.Live cur
  peer : (t cur).tid ≠ -1
  parent : (t cur).parent = some leader

theorem WellFormed.led (h : t.WellFormed) (hsucceeds : t.Succeeds cur leader) :
    t.IsLeader leader ∧ (t leader).pid = (t cur).pid := by
  obtain ⟨found, hfound, hleads, hpid⟩ :=
    h.peers cur hsucceeds.live hsucceeds.peer
  rw [hsucceeds.parent] at hfound
  cases hfound
  exact ⟨hleads, hpid⟩

theorem WellFormed.leader_unique (h : t.WellFormed) (hp : t.IsLeader p)
    (hr : t.IsLeader r) (hpid : (t p).pid = (t r).pid) : p = r := by
  refine h.identities p r hp.1 hr.1 ?_
  rw [identity, identity, if_pos hp.2, if_pos hr.2, hpid]

theorem handOff_caller (hne : cur ≠ leader)
    (hself : (t leader).parent ≠ some leader) :
    t.handOff cur leader cur =
      { t cur with tid := -1, parent := (t leader).parent } := by
  rw [handOff, handOffPeers, if_neg fun h => h.2 rfl, handOffChildren, if_neg]
  · simp [handOffSwap, setSlot_other _ _ hne]
  · rw [handOffSwap_parent, if_pos rfl]
    exact fun h => hself h.1

theorem handOff_other (hpid : (t p).pid ≠ (t cur).pid) (hleader : p ≠ leader) :
    t.handOff cur leader p =
      if (t p).parent = some leader ∧ (t p).tid = -1 then
        { t p with parent := some cur }
      else t p := by
  have hcur : p ≠ cur := fun heq => hpid (by rw [heq])
  have hswap : t.handOffSwap cur leader p = t p := by
    simp [handOffSwap, setSlot_other _ _ hcur, setSlot_other _ _ hleader]
  have hgroup : ((t.handOffSwap cur leader).handOffChildren cur leader p).pid ≠
      ((t.handOffSwap cur leader).handOffChildren cur leader cur).pid := by
    simpa only [(handOffChildren_fields _ _ _ _).2.1, handOffSwap_pid] using hpid
  rw [handOff, handOffPeers, if_neg fun h => hgroup h.1, handOffChildren, hswap]

theorem handOff_live (p : Slot) : (t.handOff cur leader).Live p ↔ t.Live p := by
  rw [Live, Live, (t.rewired_handOff cur leader p).state]

theorem handOff_pid (p : Slot) : (t.handOff cur leader p).pid = (t p).pid :=
  (t.rewired_handOff cur leader p).pid

theorem WellFormed.handedOff (h : t.WellFormed)
    (hself : (t leader).parent ≠ some leader) (hsucceeds : t.Succeeds cur leader) :
    t.HandedOff (t.handOff cur leader) cur leader := by
  obtain ⟨hleader, hpid⟩ := h.led hsucceeds
  have hne : cur ≠ leader := fun heq => hsucceeds.peer (by rw [heq, hleader.2])
  -- Unused slots are in no group and nobody's children.
  have hforeign : ∀ {p}, (t p).pid ≠ (t cur).pid → p ≠ leader := by
    rintro p hp rfl
    exact hp hpid
  constructor
  case caller => exact handOff_caller hne hself
  case deposed => rw [handOff_tid, if_neg hne.symm, if_pos rfl]
  case group => exact fun p _ hp hcur => t.handOff_peer hp hcur
  case children =>
    intro p hp hpl hchild
    have hgroup : (t p).pid ≠ (t cur).pid := fun heq =>
      hpl (h.leader_unique hp hleader (heq.trans hpid.symm))
    rw [handOff_other hgroup hpl, if_pos ⟨hchild, hp.2⟩]
  case others =>
    intro p hp hchild
    rw [handOff_other hp (hforeign hp), if_neg]
    rintro ⟨hparent, htid⟩
    refine hchild ⟨⟨fun hunused => ?_, htid⟩, hparent⟩
    rw [(h.unused p (not_not.mpr hunused)).1] at hparent
    contradiction

theorem WellFormed.handOff_identity (h : t.WellFormed)
    (hsucceeds : t.Succeeds cur leader) (p : Slot) :
    (t.handOff cur leader).identity p = t.identity (Equiv.swap cur leader p) := by
  obtain ⟨hleader, hpid⟩ := h.led hsucceeds
  rw [identity, identity, handOff_tid, handOff_pid]
  by_cases hcur : p = cur
  · subst hcur
    rw [Equiv.swap_apply_left, if_pos rfl, if_pos rfl, if_pos hleader.2, hpid]
  · by_cases hp : p = leader
    · subst hp
      rw [Equiv.swap_apply_right, if_neg hcur, if_pos rfl,
        if_neg hsucceeds.peer, if_neg hsucceeds.peer]
    · rw [Equiv.swap_apply_of_ne_of_ne hcur hp, if_neg hcur, if_neg hp]

theorem handOff_isLeader (hsucceeds : t.Succeeds cur leader) :
    (t.handOff cur leader).IsLeader p ↔
      p = cur ∨ t.IsLeader p ∧ p ≠ leader := by
  unfold IsLeader
  rw [handOff_live, handOff_tid]
  by_cases hcur : p = cur
  · subst hcur
    simp [hsucceeds.live]
  · by_cases hp : p = leader
    · subst hp
      simp [hcur, hsucceeds.peer]
    · simp [hcur, hp]

theorem WellFormed.handOff_identities (h : t.WellFormed)
    (hsucceeds : t.Succeeds cur leader) (hp : (t.handOff cur leader).Live p)
    (hr : (t.handOff cur leader).Live r)
    (hsame : (t.handOff cur leader).identity p =
      (t.handOff cur leader).identity r) : p = r := by
  have hswap : ∀ {p}, (t.handOff cur leader).Live p →
      t.Live (Equiv.swap cur leader p) := by
    intro p hp
    rw [handOff_live] at hp
    rw [Equiv.swap_apply_def]
    split
    · exact (h.led hsucceeds).1.1
    · split
      · exact hsucceeds.live
      · exact hp
  rw [h.handOff_identity hsucceeds, h.handOff_identity hsucceeds] at hsame
  exact (Equiv.swap cur leader).injective
    (h.identities _ _ (hswap hp) (hswap hr) hsame)

theorem WellFormed.handOff_parent (h : t.WellFormed)
    (hsucceeds : t.Succeeds cur leader) (hp : (t p).pid ≠ (t cur).pid) :
    (t.handOff cur leader p).parent = (t p).parent ∧
        ¬ ((t p).parent = some leader ∧ (t p).tid = -1) ∨
      (t.handOff cur leader p).parent = some cur := by
  have hpl : p ≠ leader := by
    rintro rfl
    exact hp (h.led hsucceeds).2
  rw [handOff_other hp hpl]
  split
  next => exact .inr rfl
  next hchild => exact .inl ⟨rfl, hchild⟩

theorem WellFormed.handOff_leader (h : t.WellFormed)
    (hsucceeds : t.Succeeds cur leader) (hp : t.Live p) :
    ∃ found, (t.handOff cur leader).IsLeader found ∧
      (t found).pid = (t p).pid := by
  by_cases hgroup : (t p).pid = (t cur).pid
  · exact ⟨cur, (handOff_isLeader hsucceeds).mpr (.inl rfl), hgroup.symm⟩
  · obtain ⟨found, ⟨hfound, hsame⟩, _⟩ := h.leader p hp
    refine ⟨found, (handOff_isLeader hsucceeds).mpr (.inr ⟨hfound, ?_⟩), hsame⟩
    rintro rfl
    exact hgroup (hsame.symm.trans (h.led hsucceeds).2)

theorem WellFormed.handOff (h : t.WellFormed) (hzero : (t cur).pid ≠ 0)
    (hself : (t leader).parent ≠ some leader) (hsucceeds : t.Succeeds cur leader) :
    (t.handOff cur leader).WellFormed := by
  obtain ⟨hleader, hpid⟩ := h.led hsucceeds
  have hhanded := h.handedOff hself hsucceeds
  have hleads := fun {p} => handOff_isLeader (p := p) hsucceeds
  constructor
  case leader =>
    intro p hp
    obtain ⟨found, hfound, hsame⟩ :=
      h.handOff_leader hsucceeds ((handOff_live p).mp hp)
    refine ⟨found, ⟨hfound, by rw [handOff_pid, handOff_pid, hsame]⟩, ?_⟩
    rintro other ⟨hother, hpids⟩
    refine h.handOff_identities hsucceeds hother.1 hfound.1 ?_
    rw [identity, identity, if_pos hother.2, if_pos hfound.2, hpids, handOff_pid,
      handOff_pid, hsame]
  case peers =>
    intro p hp htid
    have hpcur : p ≠ cur := by
      rintro rfl
      exact htid (hleads.mpr (.inl rfl)).2
    by_cases hgroup : (t p).pid = (t cur).pid
    · refine ⟨cur, (t.handOff_peer hgroup hpcur).1, hleads.mpr (.inl rfl), ?_⟩
      rw [handOff_pid, handOff_pid, hgroup]
    · have hpl : p ≠ leader := by
        rintro rfl
        exact hgroup hpid
      rw [handOff_tid, if_neg hpcur, if_neg hpl] at htid
      obtain ⟨found, hfound, hleads', hsame⟩ :=
        h.peers p ((handOff_live p).mp hp) htid
      refine ⟨found, ?_, hleads.mpr (.inr ⟨hleads', ?_⟩), ?_⟩
      · rw [handOff_other hgroup hpl, if_neg fun hchild => htid hchild.2]
        exact hfound
      · rintro rfl
        exact hgroup (hsame.symm.trans hpid)
      · rw [handOff_pid, handOff_pid, hsame]
  case processes =>
    intro p found hp hfound
    rcases hleads.mp hp with rfl | ⟨hbefore, hpl⟩
    · rw [hhanded.caller] at hfound
      refine hleads.mpr (.inr ⟨h.processes leader found hleader hfound, ?_⟩)
      rintro rfl
      exact hself hfound
    · have hgroup : (t p).pid ≠ (t cur).pid := fun heq =>
        hpl (h.leader_unique hbefore hleader (heq.trans hpid.symm))
      rcases h.handOff_parent hsucceeds hgroup with ⟨hsame, hchild⟩ | hsame
      · rw [hsame] at hfound
        refine hleads.mpr (.inr ⟨h.processes p found hbefore hfound, ?_⟩)
        rintro rfl
        exact hchild ⟨hfound, hbefore.2⟩
      · rw [hsame] at hfound
        cases hfound
        exact hleads.mpr (.inl rfl)
  case unused =>
    intro p hp
    rw [handOff_live] at hp
    have hunused := h.unused p hp
    have hgroup : (t p).pid ≠ (t cur).pid := by
      rw [hunused.2]
      exact hzero.symm
    rw [hhanded.others p hgroup fun hchild => hp hchild.1.1]
    exact hunused
  case identities => exact fun p r => h.handOff_identities hsucceeds

theorem WellFormed.handOff_leadsAlone (h : (t.handOff cur leader).WellFormed)
    (hsucceeds : t.Succeeds cur leader) : (t.handOff cur leader).LeadsAlone cur := by
  have hleads := (handOff_isLeader hsucceeds).mpr (.inl rfl)
  exact ⟨hleads, fun p hp => h.leader_unique hp hleads⟩

end HandOff

section Tgkill

variable {t : Table} {cur p : Slot}

theorem tgkillMark_live (p : Slot) : (t.tgkillMark cur).Live p ↔ t.Live p := by
  unfold Live tgkillMark Proc.markGroupKilled Proc.markKilled
  split
  · dsimp only
    split <;> simp_all
  · rfl

theorem tgkillMark_same (p : Slot) : (t.tgkillMark cur p).pid = (t p).pid ∧
    (t.tgkillMark cur p).tid = (t p).tid := by
  unfold tgkillMark
  split <;> exact ⟨rfl, rfl⟩

theorem LeadsAlone.mark (h : t.LeadsAlone cur) : (t.tgkillMark cur).LeadsAlone cur := by
  have hpid : ∀ p, (t.tgkillMark cur p).pid = (t p).pid := fun p => (tgkillMark_same p).1
  have htid : ∀ p, (t.tgkillMark cur p).tid = (t p).tid := fun p => (tgkillMark_same p).2
  simpa only [LeadsAlone, IsLeader, tgkillMark_live, hpid, htid] using h

theorem LeadsAlone.alone (h : t.LeadsAlone cur)
    (hnone : t.tgkillLive cur = none) :
    (t.tgkillReap cur).Live p ∧ (t.tgkillReap cur p).pid = (t cur).pid ↔
      p = cur := by
  constructor
  · rintro ⟨hlive, hpid⟩
    simp only [Live, tgkillReap, hnone, passed] at hlive hpid
    split at hlive
    · exact absurd rfl hlive
    next hkept =>
      rw [if_neg hkept] at hpid
      by_cases htid : (t p).tid = -1
      · exact h.2 p ⟨hlive, htid⟩ hpid
      · have hpeer : t.isPeer cur p = true := by
          simp [isPeer, hpid, htid]
        have htest := firstSlot_eq_none_iff.mp hnone p
        have hzombie : (t p).state = .zombie := by
          simpa [hpeer] using htest
        exact absurd ⟨hpeer, hzombie, trivial⟩ hkept
  · rintro rfl
    have hkept : ¬ (t.isPeer p p = true ∧ (t p).state = .zombie ∧
        passed (t.tgkillLive p) p = true) := by
      simp [isPeer, h.1.2]
    rw [Live, tgkillReap, if_neg hkept]
    exact ⟨h.1.1, rfl⟩

end Tgkill

end Table

end KernelThreads
