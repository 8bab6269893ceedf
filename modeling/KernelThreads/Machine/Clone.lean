import KernelThreads.Machine.System
import KernelThreads.Sched.Clone

namespace KernelThreads

open Lib

namespace Machine

inductive Returns (c : Cpu) (q : Slot) (i : Inputs) :
    Machine → Int → Machine → Prop
  | trapret {m : Machine} {eax : Int} (hpc : m.sys.pc q = .trapret eax) :
      Returns c q i m eax m
  | turn {m next last : Machine} {eax : Int} (x : Choice)
      (hpc : ∀ eax, m.sys.pc q ≠ .trapret eax)
      (hturn : m.turn c q x i = some next)
      (hrest : Returns c q i next eax last) : Returns c q i m eax last

structure CloneAtomic (m last : Machine) (q : Slot) : Prop where
  slots : last.sys.proc = m.sys.proc
  mappings : ∀ dir, (m.sys.proc q).pgdir = some dir → ∀ va < KERNBASE,
    last.mem.pte dir va = m.mem.pte dir va
  pages : ∀ frame ∈ m.mem.freelist, frame ∈ last.mem.freelist ∨
    ∃ dir i, (m.sys.proc q).pgdir = some dir ∧
      (last.mem.page dir i).has PTE_P = true ∧
        (last.mem.page dir i).addr = frame

section Stages

variable {m next last : Machine} {c : Cpu} {q np : Slot} {i : Inputs} {x : Choice}
  {flags : Flags} {childStack : Nat} {eax retid : Int}

theorem Returns.eax_eq (h : Returns c q i m eax last)
    (hpc : m.sys.pc q = .trapret retid) : eax = retid ∧ last = m := by
  cases h with
  | trapret hpc' =>
      rw [hpc, Pc.trapret.injEq] at hpc'
      exact ⟨hpc'.symm, rfl⟩
  | turn x hne => exact absurd hpc (hne retid)

theorem turn_eq (h : m.turn c q x i = some next) :
    ∃ y, memory m.sys q x i (m.sys.pc q) m.mem = .ok (y, next.mem) ∧
      m.sys.thread c q y (m.sys.pc q) = some next.sys := by
  unfold turn at h
  split at h
  · contradiction
  next y mem hmem =>
    obtain ⟨sys, hsys, rfl⟩ := Option.map_eq_some_iff.mp h
    exact ⟨y, hmem, hsys⟩

theorem Returns.goes (h : Returns c q i m eax last)
    (hpc : ∀ eax, m.sys.pc q ≠ .trapret eax) :
    ∃ x y sys mem, memory m.sys q x i (m.sys.pc q) m.mem = .ok (y, mem) ∧
      m.sys.thread c q y (m.sys.pc q) = some sys ∧
      Returns c q i ⟨sys, mem⟩ eax last := by
  cases h with
  | trapret hpc' => exact absurd hpc' (hpc eax)
  | @turn _ next _ _ x _ hturn hrest =>
      obtain ⟨y, hmem, hsys⟩ := turn_eq hturn
      exact ⟨x, y, next.sys, next.mem, hmem, hsys, hrest⟩

theorem Returns.publish (h : Returns c q i m eax last)
    (hpc : m.sys.pc q = .clonePublish np retid) : eax = retid := by
  obtain ⟨x, y, sys, mem, _, hsys, hrest⟩ := h.goes (by simp [hpc])
  rw [hpc] at hsys
  obtain ⟨_, hsys⟩ := Sys.acquire_eq_some hsys
  cases hsys
  exact (hrest.eax_eq (setSlot_same ..)).1

theorem Returns.ids (h : Returns c q i m eax last)
    (hpc : m.sys.pc q = .cloneIds np flags) : eax = (m.sys.proc np).pid := by
  obtain ⟨x, y, sys, mem, _, hsys, hrest⟩ := h.goes (by simp [hpc])
  rw [hpc] at hsys
  cases hsys
  have hpublish : (m.sys.cloneIds q np flags).pc q =
      .clonePublish np (m.sys.proc np).pid := by
    unfold Sys.cloneIds
    split <;> exact setSlot_same ..
  exact hrest.publish hpublish

theorem Returns.setup (h : Returns c q i m (-1) last)
    (hpc : m.sys.pc q = .cloneSetup np flags childStack)
    (hpid : (m.sys.proc np).pid ≠ -1) :
    (last.sys.proc np).pid = (m.sys.proc np).pid := by
  obtain ⟨x, y, sys, mem, _, hsys, hrest⟩ := h.goes (by simp [hpc])
  rw [hpc] at hsys
  cases Sys.setup_ends hsys with
  | undone _ hbuilds =>
      obtain ⟨_, rfl⟩ := hrest.eax_eq (setSlot_same ..)
      simpa [Sys.undo] using hbuilds.pid
  | left _ hbuilds =>
      obtain ⟨_, rfl⟩ := hrest.eax_eq (setSlot_same ..)
      simpa using hbuilds.pid
  | done _ hbuilds _ _ hcwd =>
      have heax := hrest.ids (setSlot_same ..)
      refine absurd (heax.trans ?_).symm hpid
      simpa using (Sys.cloneCwd_builds hcwd hbuilds).2.1

theorem Returns.kstack (h : Returns c q i m (-1) last)
    (hpc : m.sys.pc q = .cloneKstack np flags childStack)
    (hpid : (m.sys.proc np).pid ≠ -1) :
    (last.sys.proc np).pid = (m.sys.proc np).pid := by
  obtain ⟨x, y, sys, mem, _, hsys, hrest⟩ := h.goes (by simp [hpc])
  rw [hpc] at hsys
  cases hsys
  cases hstack : y.kalloc with
  | none =>
      simp only [hstack, Sys.cloneKstack] at hrest
      obtain ⟨_, rfl⟩ := hrest.eax_eq (setSlot_same ..)
      simp
  | some kstack =>
      simp only [hstack, Sys.cloneKstack] at hrest
      have hlast := hrest.setup (setSlot_same ..) (by simpa using hpid)
      simpa using hlast

end Stages

/-- A `clone` that fails leaves everything as it was exactly when it found no
slot to try. -/
theorem clone_fails_atomic {m last : Machine} {c : Cpu} {q : Slot} {i : Inputs}
    {flags : Flags} {childStack : Nat}
    (hpids : ∀ p, (m.sys.proc p).pid < m.sys.nextpid) (hnext : 0 < m.sys.nextpid)
    (hpc : m.sys.pc q = .allocproc flags childStack)
    (hreturns : Returns c q i m (-1) last) :
    CloneAtomic m last q ↔ ∀ p, (m.sys.proc p).state ≠ .unused := by
  obtain ⟨x, y, sys, mem, hmem, hsys, hrest⟩ := hreturns.goes (by simp [hpc])
  rw [hpc] at hmem hsys
  cases hmem
  obtain ⟨_, hsys⟩ := Sys.acquire_eq_some hsys
  cases hsys
  cases hfound : m.sys.proc.findUnused with
  | none =>
      simp only [Sys.allocproc, hfound] at hrest
      obtain ⟨_, rfl⟩ := hrest.eax_eq (setSlot_same ..)
      refine iff_of_true
        ⟨rfl, fun _ _ _ _ => rfl, fun frame hframe => .inl hframe⟩ fun p => ?_
      simpa using firstSlot_eq_none_iff.mp hfound p
  | some np =>
      simp only [Sys.allocproc, hfound] at hrest
      have hunused : (m.sys.proc np).state = .unused := by
        simpa using firstSlot_some hfound
      have hlast : (last.sys.proc np).pid = m.sys.nextpid := by
        have hkept := hrest.kstack (setSlot_same ..) (by
          simp
          omega)
        simpa using hkept
      refine iff_of_false (fun hatomic => ?_) fun hused => hused np hunused
      have hbefore := hpids np
      rw [← hatomic.slots, hlast] at hbefore
      exact lt_irrefl _ hbefore

def exhausted : Mem where
  image := .sample
  freelist := []
  page := fun frame i =>
    if frame = 0x201 ∧ i = 0 then .pte 0x202 (PTE_P ||| PTE_W ||| PTE_U)
    else if frame = 0x201 ∧ (50 ≤ i.val ∧ i.val < 106 ∨ 1016 ≤ i.val) then
      .pte (.ofNat 20 (0x300 + i)) (PTE_P ||| PTE_W ||| PTE_U)
    else if frame = 0x202 ∧ i = 0 then .pte 0x203 (PTE_P ||| PTE_W ||| PTE_U)
    else 0

def cloning (others : Proc) : Machine where
  sys := { userinit 0x200 0x201 with
    proc := setSlot (fun _ => others) initproc
      { userinitProc 0x200 0x201 with state := .running }
    pc := setSlot (fun _ => .exited) initproc (.allocproc TFLAGS 0) }
  mem := exhausted

theorem clone_fails_atomic_tableFull :
    ∃ last, Returns 0 0 {} (cloning { state := .zombie }) (-1) last ∧
      CloneAtomic (cloning { state := .zombie }) last 0 := by
  have hreturns : Returns 0 0 {} (cloning { state := .zombie }) (-1)
      ⟨(cloning { state := .zombie }).sys.finish 0 (.trapret (-1)), exhausted⟩ :=
    .turn {} (fun _ => nofun) rfl (.trapret rfl)
  exact ⟨_, hreturns, (clone_fails_atomic (by decide) (by decide) rfl hreturns).mpr
    (by decide)⟩

/-- Without memory for a kernel stack, the slot keeps its new `pid`. -/
theorem clone_leaves_pid :
    ¬ ∀ (m last : Machine) (c : Cpu) (q : Slot) (i : Inputs) (flags : Flags)
      (childStack : Nat), (∀ p, (m.sys.proc p).pid < m.sys.nextpid) →
      0 < m.sys.nextpid → m.sys.pc q = .allocproc flags childStack →
      Returns c q i m (-1) last → CloneAtomic m last q := by
  intro hatomic
  have hkept := hatomic (cloning {}) _ 0 0 {} TFLAGS 0 (by decide) (by decide) rfl
    (.turn {} (fun _ => nofun) rfl (.turn {} (fun _ => nofun) rfl (.trapret rfl)))
  have hpid := congrArg Proc.pid (congrFun hkept.slots 1)
  revert hpid
  decide

end Machine

end KernelThreads
