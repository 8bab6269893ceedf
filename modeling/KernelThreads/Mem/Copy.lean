import KernelThreads.Mem.Grow

namespace KernelThreads

open Lib Program

/-! Copies of an address space, `copyuvm` and `copy_thread_stack`. -/

theorem flags_present {w : Word} (h : w.has PTE_P = true) :
    w.flags ||| PTE_P = w.flags := by
  have hflags : ∀ flags : PteFlags, flags &&& PTE_P ≠ 0 →
      flags ||| PTE_P = flags := by
    decide +kernel
  refine hflags _ ?_
  simpa [Word.has] using h

section

variable {home : Frame → Nat → Nat} {role₀ role : Frame → Role} {m₀ m next : Mem}
  {d e src : Frame} {map : Nat → Word} {held : Option Frame}

namespace Space

structure Copied (source map : Nat → Word) (low : Nat) : Prop where
  same : ∀ page, page * PGSIZE < low → (map page).flags = (source page).flags
  present : Filled source low
  above : ∀ page, low ≤ page * PGSIZE → page * PGSIZE < KERNBASE → map page = 0

theorem Copied.step {source : Nat → Word} {i : Nat} {f : Frame}
    (h : Copied source map i) (haligned : i % PGSIZE = 0)
    (hpresent : (source (i / PGSIZE)).has PTE_P = true) :
    Copied source (Function.update map (i / PGSIZE)
      (.pte f ((source (i / PGSIZE)).flags ||| PTE_P))) (i + PGSIZE) := by
  have hpage : ∀ {page}, page * PGSIZE < i + PGSIZE → page ≠ i / PGSIZE →
      page * PGSIZE < i := by
    intro page hlt hne
    simp only [PGSIZE] at *
    omega
  constructor
  case same =>
    intro page hlt
    by_cases heq : page = i / PGSIZE
    · rw [heq, Function.update_self, Word.flags_pte, flags_present hpresent]
    · rw [Function.update_of_ne heq]
      exact h.same page (hpage hlt heq)
  case present =>
    intro page hlt
    by_cases heq : page = i / PGSIZE
    · rw [heq]
      exact hpresent
    · exact h.present page (hpage hlt heq)
  case above =>
    intro page hlow hhigh
    rw [Function.update_of_ne]
    · exact h.above page (by omega) hhigh
    · rintro rfl
      simp only [PGSIZE] at haligned hlow
      omega

theorem Copied.size {source : Nat → Word} {i sz : Nat} (h : Copied source map i)
    (haligned : i % PGSIZE = 0) (hle : sz ≤ i) (hlt : i < sz + PGSIZE) :
    Copied source map sz where
  same := fun page hpage => h.same page (lt_of_lt_of_le hpage hle)
  present := fun page hpage => h.present page (lt_of_lt_of_le hpage hle)
  above := fun page hlow hhigh => h.above page (by
    simp only [PGSIZE] at *
    omega) hhigh

end Space

end

end KernelThreads
