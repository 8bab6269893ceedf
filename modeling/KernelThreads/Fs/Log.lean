import Mathlib.Algebra.BigOperators.Group.Finset.Basic
import Mathlib.Algebra.Order.BigOperators.Group.Finset
import KernelThreads.Lib.Transition

namespace KernelThreads.Fs

open Lib

/-! The in-memory side of the log: admission of operations, absorption of
repeated writes, and the commit by the last operation that ends. -/

def MAXOPBLOCKS : Nat := 10

def LOGSIZE : Nat := MAXOPBLOCKS * 3

abbrev BlockNo := BitVec 32

structure Log where
  start : BlockNo
  size : Nat
  outstanding : Int := 0
  committing : Bool := false
  lh : List BlockNo := []

namespace Log

/-- One test of the loop in `begin_op`; `none` is the sleep. -/
def beginOp (log : Log) : Option Log :=
  if log.committing then none
  else if log.lh.length + (log.outstanding + 1) * MAXOPBLOCKS > LOGSIZE then none
  else some { log with outstanding := log.outstanding + 1 }

def record (log : Log) (blockno : BlockNo) : Log :=
  if blockno ∈ log.lh then log else { log with lh := log.lh ++ [blockno] }

end Log

/-- The log that `initlog` sets up from the superblock of `mkfs`. -/
def mkfsLog : Log := { start := 2, size := LOGSIZE }

inductive LogPanic where
  | tooBigTransaction | outsideOfTrans | committing
  deriving DecidableEq, Repr

/-- Where a thread is in its FS system call.  `logged` are the blocks that the
operation has logged so far. -/
inductive OpPc where
  | idle
  | waiting
  | inside (logged : Finset BlockNo)
  | limit (logged : Finset BlockNo) (blockno : BlockNo)
  | space (logged : Finset BlockNo) (blockno : BlockNo)
  | trans (logged : Finset BlockNo) (blockno : BlockNo)
  | record (logged : Finset BlockNo) (blockno : BlockNo)
  | commit
  | committed
  deriving DecidableEq

namespace OpPc

def logged : OpPc → Option (Finset BlockNo)
  | inside logged | limit logged _ | space logged _ | trans logged _
  | record logged _ => some logged
  | _ => none

def logging : OpPc → Finset BlockNo
  | inside logged => logged
  | limit logged blockno | space logged blockno | trans logged blockno
  | record logged blockno => insert blockno logged
  | _ => ∅

def commits : OpPc → Bool
  | commit | committed => true
  | _ => false

end OpPc

inductive OpAct where
  | beginOp
  | logWrite (blockno : BlockNo)
  | endOp
  | go
  deriving DecidableEq, Repr

structure LogSys (Thread : Type) where
  log : Log
  pc : Thread → OpPc
  panic : Option LogPanic

namespace LogSys

variable {Thread : Type} [DecidableEq Thread]

def goto (s : LogSys Thread) (t : Thread) (pc : OpPc) : LogSys Thread :=
  { s with pc := Function.update s.pc t pc }

def endOp (s : LogSys Thread) (t : Thread) : LogSys Thread :=
  let log := { s.log with outstanding := s.log.outstanding - 1 }
  if log.committing then { s with log := log, panic := some .committing }
  else if log.outstanding = 0 then
    { s with log := { log with committing := true } }.goto t .commit
  else { s with log := log }.goto t .idle

/-- A step of one thread: a locked section, or one unlocked read.  A thread
that sleeps in `begin_op` may test again at any time. -/
def step (s : LogSys Thread) (label : Thread × OpAct) : Option (LogSys Thread) :=
  let t := label.1
  if s.panic.isSome then none
  else
    match s.pc t, label.2 with
    | .idle, .beginOp => some (s.goto t .waiting)
    | .waiting, .go =>
        match s.log.beginOp with
        | none => some s
        | some log => some ({ s with log := log }.goto t (.inside ∅))
    | .inside logged, .logWrite blockno =>
        some (s.goto t (.limit logged blockno))
    | .limit logged blockno, .go =>
        if s.log.lh.length ≥ LOGSIZE then
          some { s with panic := some .tooBigTransaction }
        else some (s.goto t (.space logged blockno))
    | .space logged blockno, .go =>
        if (s.log.lh.length : Int) ≥ s.log.size - 1 then
          some { s with panic := some .tooBigTransaction }
        else some (s.goto t (.trans logged blockno))
    | .trans logged blockno, .go =>
        if s.log.outstanding < 1 then
          some { s with panic := some .outsideOfTrans }
        else some (s.goto t (.record logged blockno))
    | .record logged blockno, .go =>
        some ({ s with log := s.log.record blockno }.goto t
          (.inside (insert blockno logged)))
    | .inside _, .endOp => some (s.endOp t)
    -- `commit` writes the log and the home blocks, and clears `lh.n`.
    | .commit, .go =>
        some ({ s with log := { s.log with lh := [] } }.goto t .committed)
    | .committed, .go =>
        some ({ s with log := { s.log with committing := false } }.goto t .idle)
    | _, _ => none

def logsAtMost (most : Nat) (s : LogSys Thread) (label : Thread × OpAct) : Bool :=
  match s.pc label.1, label.2 with
  | .inside logged, .logWrite blockno => (insert blockno logged).card ≤ most
  | _, _ => true

def start : LogSys Thread := { log := mkfsLog, pc := fun _ => .idle, panic := none }

structure Sufficient (s : LogSys Thread) : Prop where
  panic : s.panic = none
  /-- The on-disk log has the header and `size - 1` data blocks. -/
  space : s.log.lh.length + 1 ≤ s.log.size
  commit : ∀ t, (s.pc t).commits = true →
    s.log.outstanding = 0 ∧ ∀ u, (s.pc u).logged = none

def reserve (most : Nat) (pc : OpPc) : Nat := most - (pc.logged.getD ∅).card

/-- The operations under way, and the space they may still take. -/
structure Reserved (most : Nat) (log : Log) (pc : Thread → OpPc)
    (ops : Finset Thread) : Prop where
  size : log.size = LOGSIZE
  active : ∀ t, t ∈ ops ↔ (pc t).logged ≠ none
  outstanding : log.outstanding = ops.card
  logged : ∀ t logged, (pc t).logged = some logged → logged ⊆ log.lh.toFinset
  few : ∀ t, (pc t).logging.card ≤ most
  space : log.lh.length + ∑ t ∈ ops, reserve most (pc t) + 2 ≤ LOGSIZE
  committing : log.committing = true ↔ ∃ t, (pc t).commits = true
  alone : ∀ t, (pc t).commits = true → ops = ∅
  single : ∀ t u, (pc t).commits = true → (pc u).commits = true → t = u
  cleared : ∀ t, pc t = .committed → log.lh = []
  empty : ops = ∅ → log.committing = false → log.lh = []

theorem sum_reserve_update {pcs : Thread → OpPc} {ops : Finset Thread}
    {t : Thread} (ht : t ∉ ops) (pc : OpPc) (most : Nat) :
    ∑ u ∈ ops, reserve most (Function.update pcs t pc u) =
      ∑ u ∈ ops, reserve most (pcs u) := by
  refine Finset.sum_congr rfl fun u hu => ?_
  rw [Function.update_of_ne]
  rintro rfl
  exact ht hu

theorem sum_reserve_erase {pcs : Thread → OpPc} {ops : Finset Thread}
    {t : Thread} (ht : t ∈ ops) (most : Nat) :
    ∑ u ∈ ops, reserve most (pcs u) =
      reserve most (pcs t) + ∑ u ∈ ops.erase t, reserve most (pcs u) :=
  (Finset.add_sum_erase ops _ ht).symm

namespace Reserved

variable {most : Nat} {log : Log} {pcs : Thread → OpPc} {ops : Finset Thread}
  {t : Thread} {pc : OpPc}

omit [DecidableEq Thread] in
theorem start : Reserved most mkfsLog (fun _ : Thread => .idle) ∅ where
  size := rfl
  active t := by simp [OpPc.logged]
  outstanding := rfl
  logged t logged hlogged := by simp [OpPc.logged] at hlogged
  few t := by simp [OpPc.logging]
  space := by simp [mkfsLog, LOGSIZE, MAXOPBLOCKS]
  committing := by simp [mkfsLog, OpPc.commits]
  alone t _ := rfl
  single t u hcommits := by simp [OpPc.commits] at hcommits
  cleared t hpc := rfl
  empty _ _ := rfl

omit [DecidableEq Thread] in
theorem no_commit (h : Reserved most log pcs ops)
    (hops : ops ≠ ∅ ∨ log.committing = false) (u : Thread) :
    (pcs u).commits = false := by
  by_contra hu
  rw [Bool.not_eq_false] at hu
  rcases hops with hops | hidle
  · exact hops (h.alone u hu)
  · rw [h.committing.mpr ⟨u, hu⟩] at hidle
    contradiction

omit [DecidableEq Thread] in
theorem idle (h : Reserved most log pcs ops) (hops : ops ≠ ∅) :
    log.committing = false := by
  by_contra hcommitting
  rw [Bool.not_eq_false] at hcommitting
  obtain ⟨u, hu⟩ := h.committing.mp hcommitting
  exact hops (h.alone u hu)

theorem build {next : Log} {others : Finset Thread}
    (hbefore : ∀ u, (pcs u).commits = false) (hafter : pc.commits = false)
    (hidle : next.committing = false) (hsize : next.size = LOGSIZE)
    (hactive : t ∈ others ↔ pc.logged ≠ none)
    (hothers : ∀ u, u ≠ t → (u ∈ others ↔ (pcs u).logged ≠ none))
    (houtstanding : next.outstanding = others.card)
    (hlogged : ∀ logged, pc.logged = some logged → logged ⊆ next.lh.toFinset)
    (hlog : ∀ u logged, (pcs u).logged = some logged →
      logged ⊆ next.lh.toFinset)
    (hfew : pc.logging.card ≤ most) (hfewer : ∀ u, (pcs u).logging.card ≤ most)
    (hspace : next.lh.length +
      ∑ u ∈ others, reserve most (Function.update pcs t pc u) + 2 ≤ LOGSIZE)
    (hempty : others = ∅ → next.lh = []) :
    Reserved most next (Function.update pcs t pc) others := by
  have hnone : ∀ u, (Function.update pcs t pc u).commits = false := by
    rw [Function.forall_update_iff pcs fun _ pc => pc.commits = false]
    exact ⟨hafter, fun u _ => hbefore u⟩
  constructor
  case size => exact hsize
  case active =>
    rw [Function.forall_update_iff pcs fun u pc => u ∈ others ↔ pc.logged ≠ none]
    exact ⟨hactive, hothers⟩
  case outstanding => exact houtstanding
  case logged =>
    rw [Function.forall_update_iff pcs fun _ pc => ∀ logged,
      pc.logged = some logged → logged ⊆ next.lh.toFinset]
    exact ⟨hlogged, fun u _ => hlog u⟩
  case few =>
    rw [Function.forall_update_iff pcs fun _ pc => pc.logging.card ≤ most]
    exact ⟨hfew, fun u _ => hfewer u⟩
  case space => exact hspace
  case committing => simp [hnone, hidle]
  case alone =>
    intro u hu
    rw [hnone] at hu
    contradiction
  case single =>
    intro u v hu
    rw [hnone] at hu
    contradiction
  case cleared =>
    intro u hu
    have hfalse := hnone u
    rw [hu] at hfalse
    contradiction
  case empty => exact fun hnext _ => hempty hnext

theorem move (h : Reserved most log pcs ops) (hlogged : pc.logged = (pcs t).logged)
    (hfew : pc.logging.card ≤ most) (hbefore : (pcs t).commits = false)
    (hafter : pc.commits = false) :
    Reserved most log (Function.update pcs t pc) ops := by
  have hcommits : ∀ u, (Function.update pcs t pc u).commits = (pcs u).commits := by
    rw [Function.forall_update_iff pcs fun u pc => pc.commits = (pcs u).commits]
    exact ⟨hafter.trans hbefore.symm, fun _ _ => rfl⟩
  have hsame : ∀ u, (Function.update pcs t pc u).logged = (pcs u).logged := by
    rw [Function.forall_update_iff pcs fun u pc => pc.logged = (pcs u).logged]
    exact ⟨hlogged, fun _ _ => rfl⟩
  constructor
  case size => exact h.size
  case active =>
    intro u
    rw [hsame]
    exact h.active u
  case outstanding => exact h.outstanding
  case logged =>
    intro u logged hu
    rw [hsame] at hu
    exact h.logged u logged hu
  case few =>
    rw [Function.forall_update_iff pcs fun _ pc => pc.logging.card ≤ most]
    exact ⟨hfew, fun u _ => h.few u⟩
  case space =>
    simp only [reserve, hsame]
    exact h.space
  case committing =>
    simp only [hcommits]
    exact h.committing
  case alone =>
    simp only [hcommits]
    exact h.alone
  case single =>
    simp only [hcommits]
    exact h.single
  case cleared =>
    rw [Function.forall_update_iff pcs fun _ pc => pc = .committed → log.lh = []]
    refine ⟨?_, fun u _ => h.cleared u⟩
    rintro rfl
    contradiction
  case empty => exact h.empty

omit [DecidableEq Thread] in
theorem sum_reserve_le (pcs : Thread → OpPc) (ops : Finset Thread) :
    ∑ u ∈ ops, reserve most (pcs u) ≤ ops.card * most :=
  Finset.sum_le_card_nsmul _ _ _ fun _ _ => Nat.sub_le ..

/-- `begin_op` admits an operation.  The first one finds the log empty; for
each further one the test leaves more than it may use. -/
theorem enter (h : Reserved most log pcs ops) (hmost : most < MAXOPBLOCKS)
    {next : Log} (hpc : pcs t = .waiting) (hlog : log.beginOp = some next) :
    Reserved most next (Function.update pcs t (.inside ∅)) (insert t ops) := by
  unfold Log.beginOp at hlog
  split at hlog
  · contradiction
  next hidle =>
    split at hlog
    · contradiction
    next hfits =>
      cases hlog
      rw [Bool.not_eq_true] at hidle
      have hnew : t ∉ ops := by
        rw [h.active, hpc]
        simp [OpPc.logged]
      refine build (h.no_commit (.inr hidle)) rfl hidle h.size ?_ ?_ ?_ ?_
        h.logged ?_ h.few ?_ ?_
      · simp [OpPc.logged]
      · intro u hne
        rw [Finset.mem_insert, or_iff_right hne]
        exact h.active u
      · rw [Finset.card_insert_of_notMem hnew]
        exact congrArg (· + 1) h.outstanding
      · intro logged hlogged
        cases hlogged
        exact Finset.empty_subset _
      · exact Nat.zero_le _
      · have hself : reserve most (Function.update pcs t (.inside ∅) t) = most := by
          rw [Function.update_self]
          rfl
        have hsum : ∑ u ∈ ops, reserve most (pcs u) ≤ ops.card * most :=
          sum_reserve_le pcs ops
        have hroom : log.lh.length + (ops.card + 1) * MAXOPBLOCKS ≤ LOGSIZE := by
          rw [h.outstanding] at hfits
          simp only [MAXOPBLOCKS, LOGSIZE] at hfits ⊢
          omega
        have hopen : ops.card = 0 → log.lh.length = 0 := by
          intro hcard
          rw [h.empty (Finset.card_eq_zero.mp hcard) hidle]
          rfl
        rw [Finset.sum_insert hnew, hself, sum_reserve_update hnew]
        simp only [MAXOPBLOCKS, LOGSIZE] at *
        have hmul : ops.card * most ≤ ops.card * 9 :=
          Nat.mul_le_mul_left _ (by omega)
        omega
      · exact fun hempty => absurd hempty (Finset.insert_ne_empty _ _)

theorem record (h : Reserved most log pcs ops) {logged : Finset BlockNo}
    {blockno : BlockNo} (hpc : pcs t = .record logged blockno) :
    Reserved most (log.record blockno)
      (Function.update pcs t (.inside (insert blockno logged))) ops := by
  have hmem : t ∈ ops := by
    rw [h.active, hpc]
    simp [OpPc.logged]
  have hnonempty : ops ≠ ∅ := Finset.ne_empty_of_mem hmem
  have hidle := h.idle hnonempty
  have hsub : logged ⊆ log.lh.toFinset := h.logged t logged (by rw [hpc]; rfl)
  have hfew : (insert blockno logged).card ≤ most := by
    have hfew := h.few t
    rwa [hpc] at hfew
  have hfields : (log.record blockno).committing = log.committing ∧
      (log.record blockno).size = log.size ∧
      (log.record blockno).outstanding = log.outstanding ∧
      (log.record blockno).lh.toFinset = insert blockno log.lh.toFinset := by
    unfold Log.record
    split
    next hthere =>
      refine ⟨rfl, rfl, rfl, ?_⟩
      rw [Finset.insert_eq_of_mem (List.mem_toFinset.mpr hthere)]
    next =>
      refine ⟨rfl, rfl, rfl, ?_⟩
      ext b
      simp
  obtain ⟨hcommitting, hsize, houtstanding, hlh⟩ := hfields
  have hgrows : ∀ {set : Finset BlockNo}, set ⊆ log.lh.toFinset →
      set ⊆ (log.record blockno).lh.toFinset := by
    intro set hset
    rw [hlh]
    exact hset.trans (Finset.subset_insert _ _)
  refine build (h.no_commit (.inl hnonempty)) rfl (hcommitting.trans hidle)
    (hsize.trans h.size) ?_ (fun u _ => h.active u)
    (houtstanding.trans h.outstanding) ?_
    (fun u set hset => hgrows (h.logged u set hset)) hfew h.few ?_ ?_
  · simp [OpPc.logged, hmem]
  · intro set hset
    cases hset
    rw [hlh]
    exact Finset.insert_subset_insert _ hsub
  · have hspace := h.space
    rw [sum_reserve_erase hmem, hpc] at hspace
    rw [sum_reserve_erase hmem, Function.update_self,
      sum_reserve_update (Finset.notMem_erase _ _)]
    simp only [reserve, OpPc.logged, Option.getD_some] at hspace ⊢
    unfold Log.record
    split
    next =>
      have hcard := Finset.card_le_card (Finset.subset_insert blockno logged)
      omega
    next habsent =>
      have hnew : blockno ∉ logged := fun hin =>
        habsent (List.mem_toFinset.mp (hsub hin))
      rw [Finset.card_insert_of_notMem hnew] at hfew ⊢
      rw [List.length_append, List.length_singleton]
      omega
  · exact fun hempty => absurd hempty hnonempty

theorem last (h : Reserved most log pcs ops) (hmem : t ∈ ops)
    (hlast : log.outstanding - 1 = 0) :
    Reserved most { log with outstanding := log.outstanding - 1, committing := true }
      (Function.update pcs t .commit) ∅ := by
  have hops : ops = {t} := by
    obtain ⟨u, hu⟩ := Finset.card_eq_one.mp
      (show ops.card = 1 by have hcount := h.outstanding; omega)
    rw [hu, Finset.mem_singleton] at hmem
    rw [hu, hmem]
  have hnone : ∀ u, u ≠ t → (pcs u).logged = none := by
    intro u hne
    by_contra hlogged
    have hu := (h.active u).mpr hlogged
    rw [hops, Finset.mem_singleton] at hu
    exact hne hu
  have hcommits := h.no_commit (.inl (Finset.ne_empty_of_mem hmem))
  have honly : ∀ u, (Function.update pcs t .commit u).commits = true → u = t := by
    intro u hu
    by_contra hne
    rw [Function.update_of_ne hne, hcommits] at hu
    contradiction
  constructor
  case size => exact h.size
  case active =>
    rw [Function.forall_update_iff pcs fun u pc => u ∈ ∅ ↔ pc.logged ≠ none]
    refine ⟨by simp [OpPc.logged], fun u hne => ?_⟩
    simp [hnone u hne]
  case outstanding => exact hlast
  case logged =>
    rw [Function.forall_update_iff pcs fun _ pc => ∀ logged,
      pc.logged = some logged → logged ⊆ log.lh.toFinset]
    exact ⟨nofun, fun u _ => h.logged u⟩
  case few =>
    rw [Function.forall_update_iff pcs fun _ pc => pc.logging.card ≤ most]
    exact ⟨Nat.zero_le _, fun u _ => h.few u⟩
  case space =>
    have hspace := h.space
    rw [Finset.sum_empty]
    dsimp only
    omega
  case committing =>
    refine iff_of_true rfl ⟨t, ?_⟩
    rw [Function.update_self]
    rfl
  case alone => exact fun _ _ => rfl
  case single =>
    intro u v hu hv
    rw [honly u hu, honly v hv]
  case cleared =>
    rw [Function.forall_update_iff pcs fun _ pc => pc = .committed → log.lh = []]
    exact ⟨nofun, fun u _ => h.cleared u⟩
  case empty => exact fun _ hidle => nomatch hidle

theorem leave (h : Reserved most log pcs ops) (hmem : t ∈ ops)
    (hmore : log.outstanding - 1 ≠ 0) :
    Reserved most { log with outstanding := log.outstanding - 1 }
      (Function.update pcs t .idle) (ops.erase t) := by
  have hnonempty : ops ≠ ∅ := Finset.ne_empty_of_mem hmem
  have hcard := Finset.card_erase_add_one hmem
  have hcount := h.outstanding
  refine build (h.no_commit (.inl hnonempty)) rfl (h.idle hnonempty) h.size ?_ ?_
    ?_ nofun h.logged (Nat.zero_le _) h.few ?_ ?_
  · simp [OpPc.logged]
  · intro u hne
    rw [Finset.mem_erase, and_iff_right hne]
    exact h.active u
  · dsimp only
    omega
  · have hspace := h.space
    rw [sum_reserve_erase hmem] at hspace
    rw [sum_reserve_update (Finset.notMem_erase _ _)]
    dsimp only
    omega
  · intro hempty
    rw [hempty, Finset.card_empty] at hcard
    omega

theorem clear (h : Reserved most log pcs ops) (hpc : pcs t = .commit) :
    Reserved most { log with lh := [] } (Function.update pcs t .committed) ops := by
  have hself : (pcs t).commits = true := by
    rw [hpc]
    rfl
  have hops := h.alone t hself
  have hcommits : ∀ u, (Function.update pcs t .committed u).commits =
      (pcs u).commits := by
    rw [Function.forall_update_iff pcs fun u pc => pc.commits = (pcs u).commits]
    exact ⟨hself.symm, fun _ _ => rfl⟩
  have hlogged : ∀ u, (Function.update pcs t .committed u).logged = none := by
    rw [Function.forall_update_iff pcs fun _ pc => pc.logged = none]
    refine ⟨rfl, fun u _ => ?_⟩
    by_contra hu
    have hin := (h.active u).mpr hu
    rw [hops] at hin
    exact Finset.notMem_empty u hin
  constructor
  case size => exact h.size
  case active => simp [hlogged, hops]
  case outstanding => exact h.outstanding
  case logged => simp [hlogged]
  case few =>
    rw [Function.forall_update_iff pcs fun _ pc => pc.logging.card ≤ most]
    exact ⟨Nat.zero_le _, fun u _ => h.few u⟩
  case space =>
    rw [hops, Finset.sum_empty]
    simp [LOGSIZE, MAXOPBLOCKS]
  case committing =>
    simp only [hcommits]
    exact h.committing
  case alone => exact fun _ _ => hops
  case single =>
    simp only [hcommits]
    exact h.single
  case cleared => exact fun _ _ => rfl
  case empty => exact fun _ _ => rfl

theorem reopen (h : Reserved most log pcs ops) (hpc : pcs t = .committed) :
    Reserved most { log with committing := false } (Function.update pcs t .idle)
      ops := by
  have hself : (pcs t).commits = true := by
    rw [hpc]
    rfl
  have hcommits : ∀ u, (Function.update pcs t .idle u).commits = false := by
    rw [Function.forall_update_iff pcs fun _ pc => pc.commits = false]
    refine ⟨rfl, fun u hne => ?_⟩
    by_contra hu
    rw [Bool.not_eq_false] at hu
    exact hne (h.single u t hu hself)
  have hlogged : ∀ u, (Function.update pcs t .idle u).logged = (pcs u).logged := by
    rw [Function.forall_update_iff pcs fun u pc => pc.logged = (pcs u).logged]
    refine ⟨?_, fun _ _ => rfl⟩
    rw [hpc]
    rfl
  have hempty := h.cleared t hpc
  constructor
  case size => exact h.size
  case active =>
    simp only [hlogged]
    exact h.active
  case outstanding => exact h.outstanding
  case logged =>
    simp only [hlogged]
    exact h.logged
  case few =>
    rw [Function.forall_update_iff pcs fun _ pc => pc.logging.card ≤ most]
    exact ⟨Nat.zero_le _, fun u _ => h.few u⟩
  case space =>
    simp only [reserve, hlogged]
    exact h.space
  case committing => simp [hcommits]
  case alone => simp [hcommits]
  case single => simp [hcommits]
  case cleared => exact fun _ _ => hempty
  case empty => exact fun _ _ => hempty

omit [DecidableEq Thread] in
theorem no_limit (h : Reserved most log pcs ops) :
    ¬ log.lh.length ≥ LOGSIZE ∧ ¬ (log.lh.length : Int) ≥ log.size - 1 := by
  have hspace := h.space
  have hsize := h.size
  omega

omit [DecidableEq Thread] in
theorem mem (h : Reserved most log pcs ops) {logged : Finset BlockNo}
    (hlogged : (pcs t).logged = some logged) : t ∈ ops := by
  rw [h.active, hlogged]
  simp

end Reserved

variable {most : Nat} {s next : LogSys Thread} {ops : Finset Thread}
  {label : Thread × OpAct}

theorem endOp_reserved {t : Thread} {logged : Finset BlockNo}
    (hpanic : s.panic = none) (h : Reserved most s.log s.pc ops)
    (hpc : s.pc t = .inside logged) : (s.endOp t).panic = none ∧
      ∃ others, Reserved most (s.endOp t).log (s.endOp t).pc others := by
  have hmem : t ∈ ops := h.mem (show (s.pc t).logged = some logged by rw [hpc]; rfl)
  have hidle := h.idle (Finset.ne_empty_of_mem hmem)
  unfold endOp
  dsimp only
  rw [if_neg (by simp [hidle])]
  split
  next hlast => exact ⟨hpanic, ∅, h.last hmem hlast⟩
  next hmore => exact ⟨hpanic, ops.erase t, h.leave hmem hmore⟩

theorem step_reserved (hmost : most < MAXOPBLOCKS) (hpanic : s.panic = none)
    (h : Reserved most s.log s.pc ops) (hguard : s.logsAtMost most label = true)
    (hstep : s.step label = some next) : next.panic = none ∧
      ∃ others, Reserved most next.log next.pc others := by
  obtain ⟨t, act⟩ := label
  have hfew := h.few t
  unfold step at hstep
  dsimp only at hstep
  rw [if_neg (by simp [hpanic])] at hstep
  cases hpc : s.pc t with
  | idle =>
      rw [hpc] at hstep
      cases act with
      | beginOp =>
          cases hstep
          refine ⟨hpanic, ops, h.move ?_ (Nat.zero_le _) ?_ rfl⟩ <;> rw [hpc] <;> rfl
      | _ => cases hstep
  | waiting =>
      rw [hpc] at hstep
      cases act with
      | go =>
          dsimp only at hstep
          split at hstep
          · cases hstep
            exact ⟨hpanic, ops, h⟩
          next log hlog =>
            cases hstep
            exact ⟨hpanic, _, h.enter hmost hpc hlog⟩
      | _ => cases hstep
  | inside logged =>
      rw [hpc] at hstep
      cases act with
      | logWrite blockno =>
          cases hstep
          have hroom : (insert blockno logged).card ≤ most := by
            simpa [logsAtMost, hpc] using hguard
          refine ⟨hpanic, ops, h.move ?_ hroom ?_ rfl⟩ <;> rw [hpc] <;> rfl
      | endOp =>
          cases hstep
          exact endOp_reserved hpanic h hpc
      | _ => cases hstep
  | limit logged blockno =>
      rw [hpc] at hstep hfew
      cases act with
      | go =>
          dsimp only at hstep
          rw [if_neg h.no_limit.1] at hstep
          cases hstep
          refine ⟨hpanic, ops, h.move ?_ hfew ?_ rfl⟩ <;> rw [hpc] <;> rfl
      | _ => cases hstep
  | space logged blockno =>
      rw [hpc] at hstep hfew
      cases act with
      | go =>
          dsimp only at hstep
          rw [if_neg h.no_limit.2] at hstep
          cases hstep
          refine ⟨hpanic, ops, h.move ?_ hfew ?_ rfl⟩ <;> rw [hpc] <;> rfl
      | _ => cases hstep
  | trans logged blockno =>
      have hmem : t ∈ ops :=
        h.mem (show (s.pc t).logged = some logged by rw [hpc]; rfl)
      have hpos := Finset.card_pos.mpr ⟨t, hmem⟩
      have hcount := h.outstanding
      rw [hpc] at hstep hfew
      cases act with
      | go =>
          dsimp only at hstep
          rw [if_neg (by omega)] at hstep
          cases hstep
          refine ⟨hpanic, ops, h.move ?_ hfew ?_ rfl⟩ <;> rw [hpc] <;> rfl
      | _ => cases hstep
  | record logged blockno =>
      rw [hpc] at hstep
      cases act with
      | go =>
          cases hstep
          exact ⟨hpanic, ops, h.record hpc⟩
      | _ => cases hstep
  | commit =>
      rw [hpc] at hstep
      cases act with
      | go =>
          cases hstep
          exact ⟨hpanic, ops, h.clear hpc⟩
      | _ => cases hstep
  | committed =>
      rw [hpc] at hstep
      cases act with
      | go =>
          cases hstep
          exact ⟨hpanic, ops, h.reopen hpc⟩
      | _ => cases hstep

omit [DecidableEq Thread] in
theorem sufficient_of_reserved (hpanic : s.panic = none)
    (h : Reserved most s.log s.pc ops) : s.Sufficient where
  panic := hpanic
  space := by
    have hspace := h.space
    have hsize := h.size
    omega
  commit t ht := by
    have hops := h.alone t ht
    refine ⟨?_, fun u => ?_⟩
    · rw [h.outstanding, hops]
      rfl
    · by_contra hu
      have hin := (h.active u).mpr hu
      rw [hops] at hin
      exact Finset.notMem_empty u hin

/-- Operations of fewer than `MAXOPBLOCKS` blocks never run out of log. -/
theorem reservation_suffices
    (hreach : Reach step (fun s label =>
      logsAtMost (MAXOPBLOCKS - 1) s label = true)
      (start : LogSys Thread) s) : s.Sufficient := by
  have hinv : s.panic = none ∧
      ∃ ops, Reserved (MAXOPBLOCKS - 1) s.log s.pc ops := by
    refine hreach.invariant (fun s => s.panic = none ∧
      ∃ ops, Reserved (MAXOPBLOCKS - 1) s.log s.pc ops) ⟨rfl, ∅, .start⟩ ?_
    rintro state label next ⟨hpanic, ops, h⟩ hguard hstep
    exact step_reserved (by decide) hpanic h hguard hstep
  obtain ⟨hpanic, ops, h⟩ := hinv
  exact sufficient_of_reserved hpanic h

def logOne (t : Nat) (blockno : BlockNo) : List (Nat × OpAct) :=
  [(t, .logWrite blockno), (t, .go), (t, .go), (t, .go), (t, .go)]

def threeOps (count : Nat) : List (Nat × OpAct) :=
  [(0, .beginOp), (0, .go), (1, .beginOp), (1, .go), (2, .beginOp), (2, .go)] ++
    (List.range count).flatMap fun i =>
      logOne 0 (100 + i) ++ logOne 1 (200 + i) ++ logOne 2 (300 + i)

theorem reservation_suffices_threeOps :
    ∃ s : LogSys Nat, s.log.outstanding = 3 ∧ s.log.lh.length = 27 ∧
      s.Sufficient := by
  have hrun : ((run step (logsAtMost (MAXOPBLOCKS - 1)) start (threeOps 9)).any
      fun s => s.log.outstanding = 3 ∧ s.log.lh.length = 27) = true := by
    decide +kernel
  obtain ⟨s, hreach, hend⟩ := reach_of_run_any hrun
  exact ⟨s, hend.1, hend.2, reservation_suffices hreach⟩

/-- The tenth blocks of three operations do not fit: the header takes one of
the `LOGSIZE` blocks. -/
theorem reservation_too_small :
    ¬ ∀ s : LogSys Nat, Reach step (fun s label =>
      logsAtMost MAXOPBLOCKS s label = true) start s → s.Sufficient := by
  intro hsufficient
  have hrun : ((run step (logsAtMost MAXOPBLOCKS) start
      (threeOps 9 ++ logOne 0 109 ++ logOne 1 209 ++
        [(2, .logWrite 309), (2, .go), (2, .go)])).any
      fun s => s.panic = some .tooBigTransaction) = true := by
    decide +kernel
  obtain ⟨s, hreach, hend⟩ := reach_of_run_any hrun
  have hpanic := (hsufficient s hreach).panic
  rw [hend] at hpanic
  cases hpanic

end LogSys

end KernelThreads.Fs
