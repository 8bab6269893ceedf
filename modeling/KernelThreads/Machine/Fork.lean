import KernelThreads.Machine.System
import KernelThreads.Mem.Arguments

namespace KernelThreads

open Lib Program

/-! `fork` by a thread that is not the leader of its group. -/

structure TrapRegs where
  esp : Nat
  ebp : Nat
  deriving DecidableEq

namespace Table

/-- The trap frame of the child: `esp` moves to the leader's stack. -/
def forkRegs (t : Table) (q tleader : Slot) (tf : TrapRegs) : TrapRegs :=
  if q = tleader then tf
  else { tf with esp := sub32 (t tleader).tstack (sub32 (t q).tstack tf.esp) }

def fork (t : Table) (q tleader : Slot) (tf : TrapRegs) :
    MemProgram (Option (Frame × TrapRegs)) := do
  match ← t.cloneCopied q tleader with
  | .ok copy _ => return some (copy, t.forkRegs q tleader tf)
  | _ => return none

end Table

/-- A faithful `fork`: the stack from `esp` on is the child's stack, `ebp` points
to the same byte of it, and the other pages are copied. -/
structure ForkFaithful (t : Table) (q tleader : Slot) (tf : TrapRegs) (dir : Frame)
    (m : Mem) (child : Frame × TrapRegs) (next : Mem) : Prop where
  stack : ∀ k, tf.esp + k < (t q).tstack → (m.pte dir (tf.esp + k)).has PTE_P = true →
    (next.pte child.1 (child.2.esp + k)).has PTE_P = true ∧
      next.peek child.1 (child.2.esp + k) = m.peek dir (tf.esp + k)
  ebp : (t q).tstack ≤ tf.ebp + PGSIZE → tf.ebp < (t q).tstack →
    child.2.ebp = sub32 (t tleader).tstack (sub32 (t q).tstack tf.ebp)
  rest : ∀ va < pgRoundUp (t tleader).sz,
    va / PGSIZE ≠ ((t tleader).tstack - PGSIZE) / PGSIZE →
      next.peek child.1 va = m.peek dir va

def forkOrigin (tstack leaderStack va : Nat) : Nat :=
  if va / PGSIZE = (leaderStack - PGSIZE) / PGSIZE then
    sub32 tstack PGSIZE / PGSIZE * PGSIZE + va % PGSIZE
  else va

theorem presentPage_run (d : Frame) (va : Nat) (m : Mem) :
    presentPage d va m = .ok (
      if (m.pte d va).has PTE_P = true then some (m.pte d va).addr else none, m) := by
  unfold presentPage
  rw [bind_of_ok (walkpgdir_run d va m)]
  by_cases hpde : (m.page d (pdx va)).has PTE_P = true
  · have hloc : Located m d va (m.page d (pdx va)).addr (ptx va) := ⟨hpde, rfl, rfl⟩
    rw [if_pos hpde, hloc.pte]
    rfl
  · rw [if_neg hpde]
    simp only [Mem.pte, if_neg hpde]
    rfl

structure Forks (t : Table) (q tleader : Slot) (dir : Frame) (m : Mem) : Prop where
  peer : q ≠ tleader
  pgdir : (t tleader).pgdir = some dir
  ready : m.Ready
  source : Standing (· ∈ m.freelist) m dir (t tleader).sz
  size : (t tleader).sz ≤ KERNBASE
  /-- The page of the thread's stack is in use. -/
  stack : (m.pte dir (sub32 (t q).tstack PGSIZE)).has PTE_P = true →
    (m.pte dir (sub32 (t q).tstack PGSIZE)).addr ∉ m.freelist
  /-- The leader has a stack page. -/
  low : PGSIZE ≤ (t tleader).tstack
  high : (t tleader).tstack ≤ KERNBASE

variable {t : Table} {q tleader : Slot} {tf : TrapRegs} {dir : Frame} {m next : Mem}
  {child : Frame × TrapRegs}

theorem copyThreadStack_ok {dest src : Frame} {destStack srcStack : Nat}
    (hrun : copyThreadStack dest destStack src srcStack m = .ok (true, next)) :
    (m.pte src srcStack).has PTE_P = true ∧ (m.pte dest destStack).has PTE_P = true ∧
      next = m.setPage (m.pte dest destStack).addr (m.page (m.pte src srcStack).addr) := by
  unfold copyThreadStack at hrun
  rw [bind_of_ok (presentPage_run src srcStack m)] at hrun
  by_cases hsource : (m.pte src srcStack).has PTE_P = true
  · rw [if_pos hsource] at hrun
    simp only at hrun
    rw [bind_of_ok (presentPage_run dest destStack m)] at hrun
    by_cases htarget : (m.pte dest destStack).has PTE_P = true
    · rw [if_pos htarget] at hrun
      cases hrun
      exact ⟨hsource, htarget, rfl⟩
    · rw [if_neg htarget] at hrun
      cases hrun
  · rw [if_neg hsource] at hrun
    cases hrun

theorem copyThreadStack_run {dest src : Frame} {destStack srcStack : Nat}
    (hsource : (m.pte src srcStack).has PTE_P = true)
    (htarget : (m.pte dest destStack).has PTE_P = true) :
    copyThreadStack dest destStack src srcStack m = .ok (true,
      m.setPage (m.pte dest destStack).addr (m.page (m.pte src srcStack).addr)) := by
  unfold copyThreadStack
  rw [bind_of_ok (presentPage_run src srcStack m), if_pos hsource]
  simp only
  rw [bind_of_ok (presentPage_run dest destStack m), if_pos htarget]
  rfl

namespace Forks

theorem calls (h : Forks t q tleader dir m)
    (hrun : t.fork q tleader tf m = .ok (some child, next)) :
    child.2 = t.forkRegs q tleader tf ∧ ∃ middle,
      copyuvm dir (t tleader).sz m = .ok (some child.1, middle) ∧
        copyThreadStack child.1 (sub32 (t tleader).tstack PGSIZE) dir
          (sub32 (t q).tstack PGSIZE) middle = .ok (true, next) := by
  obtain ⟨result, last, hclone, hchild⟩ := bind_ok hrun
  obtain ⟨made, middle, hmade, hstack⟩ := bind_ok hclone
  rw [h.pgdir] at hmade hstack
  cases made with
  | none =>
      cases hstack
      cases hchild
  | some copy =>
      simp only [if_neg h.peer] at hstack
      obtain ⟨copied, stacked, hcopy, hresult⟩ := bind_ok hstack
      cases copied with
      | false =>
          cases hresult
          cases hchild
      | true =>
          cases hresult
          cases hchild
          exact ⟨rfl, middle, hmade, hcopy⟩

theorem leader_page (h : Forks t q tleader dir m) :
    sub32 (t tleader).tstack PGSIZE = (t tleader).tstack - PGSIZE ∧
      (t tleader).tstack - PGSIZE < KERNBASE := by
  have hlow := h.low
  have hhigh := h.high
  refine ⟨Space.sub32_of_le hlow (lt_of_le_of_lt hhigh (by decide)), ?_⟩
  simp only [PGSIZE] at *
  omega

theorem leaves (h : Forks t q tleader dir m)
    (hrun : t.fork q tleader tf m = .ok (some child, next)) :
    ∃ map data, Vm (· ∈ m.freelist) m child.1 map data none next ∧
      Space.Copied (m.entry dir) map (t tleader).sz ∧
        ∀ va < pgRoundUp (t tleader).sz, bytesOf data va =
          m.peek dir (forkOrigin (t q).tstack (t tleader).tstack va) := by
  obtain ⟨_, middle, hcopy, hstack⟩ := h.calls hrun
  obtain ⟨hpage, hlow⟩ := h.leader_page
  rw [hpage] at hstack
  rcases (meets_copyuvm h.ready h.source h.size).ok hcopy with
    ⟨hnone, _⟩ | ⟨d, map, data, hd, hvm, hdouble⟩
  · cases hnone
  cases hd
  obtain ⟨hsource, htarget, rfl⟩ := copyThreadStack_ok hstack
  -- The source is what it was before `copyuvm`.
  have hentry : ∀ va, middle.pte dir va = m.pte dir va := by
    intro va
    rw [← middle.entry_page, h.source.entry hvm.kept, m.entry_page]
  rw [hentry] at hsource
  have hcontent : middle.page (m.pte dir (sub32 (t q).tstack PGSIZE)).addr =
      m.page (m.pte dir (sub32 (t q).tstack PGSIZE)).addr := hvm.kept _ (h.stack hsource)
  have hview := hvm.view ((t tleader).tstack - PGSIZE) (Vm.lt_two_pow hlow)
  rw [hview] at htarget
  rw [hentry, hview, hcontent]
  refine ⟨map, _, hvm.write (Vm.user_page hlow) htarget _, hdouble.copied, fun va hva => ?_⟩
  unfold bytesOf forkOrigin
  by_cases hstackPage : va / PGSIZE = ((t tleader).tstack - PGSIZE) / PGSIZE
  · rw [if_pos hstackPage, hstackPage, Function.update_self, Mem.peek]
    have hmod : va % PGSIZE < PGSIZE := Nat.mod_lt _ (by decide)
    have horigin : (sub32 (t q).tstack PGSIZE / PGSIZE * PGSIZE + va % PGSIZE) / PGSIZE =
        sub32 (t q).tstack PGSIZE / PGSIZE := by
      rw [Nat.mul_comm, Nat.mul_add_div (by decide), Nat.div_eq_of_lt hmod, add_zero]
    have hoffset : (sub32 (t q).tstack PGSIZE / PGSIZE * PGSIZE + va % PGSIZE) % PGSIZE =
        va % PGSIZE := by
      rw [Nat.add_comm, Nat.add_mul_mod_self_right, Nat.mod_mod]
    rw [m.pte_congr dir horigin, pageByte_mod, pageByte_mod _ (_ + _), hoffset]
  · rw [if_neg hstackPage, Function.update_of_ne hstackPage,
      hdouble.data _ (lt_pgRoundUp_iff.mp hva), m.entry_page]
    rfl

theorem child_esp (h : Forks t q tleader dir m) (hT : (t q).tstack < 2 ^ 32)
    (hesp : (t q).tstack ≤ tf.esp + PGSIZE) (hlt : tf.esp < (t q).tstack) {k : Nat}
    (hk : tf.esp + k < (t q).tstack) :
    (t.forkRegs q tleader tf).esp + k = (t tleader).tstack - ((t q).tstack - (tf.esp + k)) := by
  have hlow := h.low
  have hhigh := lt_of_le_of_lt h.high (show KERNBASE < 2 ^ 32 by decide)
  rw [Table.forkRegs, if_neg h.peer]
  show sub32 (t tleader).tstack (sub32 (t q).tstack tf.esp) + k = _
  rw [Space.sub32_of_le (le_of_lt hlt) hT, Space.sub32_of_le (by omega) hhigh]
  omega

end Forks

/-- A `fork` of a peer thread is faithful just if the stacks are at the same
address or `ebp` is elsewhere, and each byte of the stack is the one that
`copy_thread_stack` puts in its place. -/
theorem fork_faithful_iff (t : Table) (q tleader : Slot) (tf : TrapRegs) (dir : Frame)
    (m next : Mem) (child : Frame × TrapRegs) (h : Forks t q tleader dir m)
    (hT : (t q).tstack < 2 ^ 32) (hesp : (t q).tstack ≤ tf.esp + PGSIZE)
    (hlt : tf.esp < (t q).tstack)
    (hrun : t.fork q tleader tf m = .ok (some child, next)) :
    ForkFaithful t q tleader tf dir m child next ↔
      ((t q).tstack = (t tleader).tstack ∨
        ¬ ((t q).tstack ≤ tf.ebp + PGSIZE ∧ tf.ebp < (t q).tstack)) ∧
      ∀ k, tf.esp + k < (t q).tstack → (m.pte dir (tf.esp + k)).has PTE_P = true →
        (t tleader).tstack - ((t q).tstack - (tf.esp + k)) < pgRoundUp (t tleader).sz ∧
          m.peek dir (forkOrigin (t q).tstack (t tleader).tstack
            ((t tleader).tstack - ((t q).tstack - (tf.esp + k)))) = m.peek dir (tf.esp + k) := by
  obtain ⟨hregs, _⟩ := h.calls hrun
  obtain ⟨map, data, hvm, hcopied, hbytes⟩ := h.leaves hrun
  have hround : pgRoundUp (t tleader).sz ≤ KERNBASE :=
    Vm.pgRoundUp_le_aligned (by decide) h.size
  have hpresent : ∀ va < KERNBASE, (next.pte child.1 va).has PTE_P = true ↔
      va < pgRoundUp (t tleader).sz := by
    intro va hva
    rw [hvm.view va (Vm.lt_two_pow hva), lt_pgRoundUp_iff]
    constructor
    · intro hthere
      by_contra hout
      rw [hcopied.above _ (not_lt.mp hout) (Vm.user_page hva)] at hthere
      simp at hthere
    · intro hin
      rw [Word.has, hcopied.same _ hin, ← Word.has]
      exact hcopied.present _ hin
  have hpeek : ∀ va < pgRoundUp (t tleader).sz, next.peek child.1 va =
      m.peek dir (forkOrigin (t q).tstack (t tleader).tstack va) := by
    intro va hva
    have hlow := lt_of_lt_of_le hva hround
    have hthere := (hpresent va hlow).mpr hva
    rw [hvm.view va (Vm.lt_two_pow hlow)] at hthere
    rw [hvm.peek hlow hthere, hbytes va hva]
  have hat : ∀ k, tf.esp + k < (t q).tstack → child.2.esp + k =
      (t tleader).tstack - ((t q).tstack - (tf.esp + k)) := by
    intro k hk
    rw [hregs]
    exact h.child_esp hT hesp hlt hk
  have hbelow : ∀ k, tf.esp + k < (t q).tstack →
      (t tleader).tstack - ((t q).tstack - (tf.esp + k)) < KERNBASE := by
    intro k hk
    have hhigh := h.high
    have hlow := h.low
    have hpage : 0 < PGSIZE := by decide
    omega
  have hebp : child.2.ebp = tf.ebp := by
    rw [hregs, Table.forkRegs, if_neg h.peer]
  constructor
  · intro hfaithful
    refine ⟨?_, fun k hk hthere => ?_⟩
    · by_contra hcond
      rw [not_or, not_not] at hcond
      obtain ⟨hne, hin, hin'⟩ := hcond
      have hsame := hfaithful.ebp hin hin'
      have hlow := h.low
      have hhigh := lt_of_le_of_lt h.high (show KERNBASE < 2 ^ 32 by decide)
      rw [hebp, Space.sub32_of_le (le_of_lt hin') hT, Space.sub32_of_le (by omega) hhigh] at hsame
      omega
    · obtain ⟨hchild, hsame⟩ := hfaithful.stack k hk hthere
      rw [hat k hk] at hchild hsame
      have hin := (hpresent _ (hbelow k hk)).mp hchild
      rw [hpeek _ hin] at hsame
      exact ⟨hin, hsame⟩
  · rintro ⟨hframe, hstack⟩
    refine ⟨fun k hk hthere => ?_, fun hin hin' => ?_, fun va hva hother => ?_⟩
    · obtain ⟨hin, hsame⟩ := hstack k hk hthere
      rw [hat k hk]
      exact ⟨(hpresent _ (hbelow k hk)).mpr hin, by rw [hpeek _ hin, hsame]⟩
    · rcases hframe with heq | hout
      · rw [hebp, ← heq, Space.sub32_of_le (le_of_lt hin') hT,
          Space.sub32_of_le (Nat.sub_le ..) hT]
        omega
      · exact absurd ⟨hin, hin'⟩ hout
    · rw [hpeek va hva, forkOrigin, if_neg hother]

theorem forkOrigin_aligned {tstack leaderStack x : Nat} (hT : tstack % PGSIZE = 0)
    (hL : leaderStack % PGSIZE = 0) (hlow : PGSIZE ≤ tstack) (hlow' : PGSIZE ≤ leaderStack)
    (hT' : tstack < 2 ^ 32) (hx : tstack ≤ x + PGSIZE) (hx' : x < tstack) :
    forkOrigin tstack leaderStack (leaderStack - (tstack - x)) = x := by
  have hpage : (leaderStack - (tstack - x)) / PGSIZE = (leaderStack - PGSIZE) / PGSIZE := by
    simp only [PGSIZE] at *
    omega
  rw [forkOrigin, if_pos hpage, Space.sub32_of_le hlow hT']
  simp only [PGSIZE] at *
  omega

theorem Forks.returns (h : Forks t q tleader dir m) (tf : TrapRegs)
    (hmany : 1026 + pgRoundUp (t tleader).sz / PGSIZE < m.freelist.length)
    (hstack : (m.pte dir (sub32 (t q).tstack PGSIZE)).has PTE_P = true)
    (hleader : (t tleader).tstack - PGSIZE < pgRoundUp (t tleader).sz) :
    ∃ child next, t.fork q tleader tf m = .ok (some child, next) := by
  obtain ⟨hpage, hlow⟩ := h.leader_page
  obtain ⟨made, middle, hcopy, hpost⟩ := (meets_copyuvm h.ready h.source h.size).returns
  rcases hpost with ⟨_, _, hshort⟩ | ⟨d, map, data, rfl, hvm, hdouble⟩
  · omega
  have hsource : (middle.pte dir (sub32 (t q).tstack PGSIZE)).has PTE_P = true := by
    rw [← middle.entry_page, h.source.entry hvm.kept, m.entry_page]
    exact hstack
  have htarget : (middle.pte d (sub32 (t tleader).tstack PGSIZE)).has PTE_P = true := by
    have hin := lt_pgRoundUp_iff.mp hleader
    rw [hpage, hvm.view _ (Vm.lt_two_pow hlow), Word.has, hdouble.copied.same _ hin, ← Word.has]
    exact hdouble.copied.present _ hin
  have hclone : t.cloneCopied q tleader m = .ok (.ok d 0,
      middle.setPage (middle.pte d (sub32 (t tleader).tstack PGSIZE)).addr
        (middle.page (middle.pte dir (sub32 (t q).tstack PGSIZE)).addr)) := by
    unfold Table.cloneCopied
    simp only [h.pgdir, onDir]
    rw [bind_of_ok hcopy]
    simp only [if_neg h.peer]
    rw [bind_of_ok (copyThreadStack_run hsource htarget)]
    rfl
  have hfork : t.fork q tleader tf m = .ok (some (d, t.forkRegs q tleader tf),
      middle.setPage (middle.pte d (sub32 (t tleader).tstack PGSIZE)).addr
        (middle.page (middle.pte dir (sub32 (t q).tstack PGSIZE)).addr)) := by
    unfold Table.fork
    rw [bind_of_ok hclone]
    rfl
  exact ⟨_, _, hfork⟩

section Sample

def forkPages (f : Frame) (i : Index) : Word :=
  if f = 500 ∧ i = 0 then .pte 501 (PTE_P ||| PTE_W ||| PTE_U)
  else if f = 501 ∧ i = 0 then .pte 502 (PTE_P ||| PTE_W ||| PTE_U)
  else if f = 501 ∧ i = 1 then .pte 503 (PTE_P ||| PTE_W ||| PTE_U)
  else 0

def forkMem (n : Nat) : Mem := roomyMem n forkPages

/-- The leader has its stack in the second page; the thread in slot 1 has been
given the first one. -/
def forkTable : Table := fun p =>
  if p = 0 then { sz := 8192, pgdir := some 500, pid := 1, tid := -1, tstack := 8192 }
  else if p = 1 then
    { sz := 8192, pgdir := some 500, pid := 1, tid := 2, parent := some 0, tstack := 4096 }
  else {}

theorem forkMem_entry (n : Nat) :
    (forkMem n).entry 500 0 = .pte 502 (PTE_P ||| PTE_W ||| PTE_U) ∧
      (forkMem n).entry 500 1 = .pte 503 (PTE_P ||| PTE_W ||| PTE_U) := by
  have hdir : ((forkMem n).page 500 0) = .pte 501 (PTE_P ||| PTE_W ||| PTE_U) := rfl
  have hfirst : pdx (0 * PGSIZE) = 0 ∧ ptx (0 * PGSIZE) = 0 := by decide
  have hsecond : pdx (1 * PGSIZE) = 0 ∧ ptx (1 * PGSIZE) = 1 := by decide
  have hpresent : (Word.pte 501 (PTE_P ||| PTE_W ||| PTE_U)).has PTE_P = true := by decide
  rw [Mem.entry, Mem.pte, hfirst.1, hfirst.2, hdir, if_pos hpresent]
  rw [Mem.entry, Mem.pte, hsecond.1, hsecond.2, hdir, if_pos hpresent]
  exact ⟨rfl, (by decide : forkPages 501 1 = _)⟩

theorem forkTable_forks {n : Nat} (hn : n ≤ 2000) :
    Forks forkTable 1 0 500 (forkMem n) := by
  have hpages : ∀ page, page * PGSIZE < (forkTable 0).sz → page = 0 ∨ page = 1 := by
    intro page hpage
    have hsz : (forkTable 0).sz = 8192 := rfl
    rw [hsz] at hpage
    simp only [PGSIZE] at hpage
    omega
  obtain ⟨hfirst, hsecond⟩ := forkMem_entry n
  constructor
  case peer => decide
  case pgdir => rfl
  case ready => exact roomyMem_ready hn
  case source =>
    refine ⟨roomyMem_used hn (by decide), fun i hi => ?_, fun page hpage => ?_,
      fun page hpage => ?_⟩
    · by_cases hzero : i = 0
      · subst hzero
        exact roomyMem_used hn (by decide : (forkPages 500 0).addr.toNat < 1000)
      · simp [forkMem, roomyMem, forkPages, hzero] at hi
    · rcases hpages page hpage with rfl | rfl
      · rw [hfirst]
        decide
      · rw [hsecond]
        decide
    · rcases hpages page hpage with rfl | rfl
      · rw [hfirst]
        exact roomyMem_used hn (by decide)
      · rw [hsecond]
        exact roomyMem_used hn (by decide)
  case size => decide
  case stack =>
    intro _
    refine roomyMem_used hn ?_
    rw [show sub32 (forkTable 1).tstack PGSIZE = 0 * PGSIZE by decide, ← Mem.entry, hfirst]
    decide
  case low => decide
  case high => decide

theorem forkTable_returns (tf : TrapRegs) :
    ∃ child next, forkTable.fork 1 0 tf (forkMem 1100) = .ok (some child, next) := by
  have hlength : ∀ n, (forkMem n).freelist.length = n := fun n => by simp [forkMem, roomyMem]
  refine (forkTable_forks (by decide)).returns tf ?_ rfl (by decide)
  rw [hlength]
  decide

/-- `ebp` lies outside the thread's stack. -/
theorem fork_faithful_aligned : ∃ child next,
    forkTable.fork 1 0 ⟨4000, 5000⟩ (forkMem 1100) = .ok (some child, next) ∧
      ForkFaithful forkTable 1 0 ⟨4000, 5000⟩ 500 (forkMem 1100) child next := by
  obtain ⟨child, next, hrun⟩ := forkTable_returns ⟨4000, 5000⟩
  refine ⟨child, next, hrun, (fork_faithful_iff forkTable 1 0 ⟨4000, 5000⟩ 500 (forkMem 1100)
    next child (forkTable_forks (by decide)) (by decide) (by decide) (by decide) hrun).mpr
      ⟨.inr (by decide), ?_⟩⟩
  intro k hk _
  have hk : 4000 + k < 4096 := hk
  have hT : (forkTable 1).tstack = 4096 := rfl
  have hL : (forkTable 0).tstack = 8192 := rfl
  rw [hT, hL, forkOrigin_aligned (by decide) (by decide) (by decide) (by decide) (by decide)
    (by simp only [PGSIZE]; omega) hk]
  refine ⟨?_, rfl⟩
  have hround : pgRoundUp (forkTable 0).sz = 8192 := by decide
  rw [hround]
  omega

/-- `ebp` points to byte 4050 of the thread's stack, and still does so in the child,
whose stack is the page above. -/
theorem fork_keeps_ebp : ∃ child next,
    forkTable.fork 1 0 ⟨4000, 4050⟩ (forkMem 1100) = .ok (some child, next) ∧
      ¬ ForkFaithful forkTable 1 0 ⟨4000, 4050⟩ 500 (forkMem 1100) child next := by
  obtain ⟨child, next, hrun⟩ := forkTable_returns ⟨4000, 4050⟩
  refine ⟨child, next, hrun, fun hfaithful => ?_⟩
  have hebp := hfaithful.ebp (by decide) (by decide)
  have hforks : Forks forkTable 1 0 500 (forkMem 1100) := forkTable_forks (by decide)
  rw [(hforks.calls hrun).1] at hebp
  exact absurd hebp (by decide)

end Sample

end KernelThreads
