import KernelThreads.Fs.Namei
import Mathlib.Algebra.BigOperators.Group.Finset.Basic
import Mathlib.Algebra.Order.BigOperators.Group.Finset
import Mathlib.Tactic.Ring

namespace KernelThreads.Fs

open Lib Program

/-! References and locks of inodes over whole system calls.  Nothing is assumed
about the disk. -/

/-- Everything in memory but the copies of inodes and whether there is one. -/
structure Ledger where
  inum : InodePtr → Nat
  ref : InodePtr → Int
  locked : InodePtr → Bool
  ftable : FilePtr → File
  proc : Slot → FsProc
  ops : Int

def FsState.ledger (s : FsState) : Ledger where
  inum ip := (s.icache ip).inum
  ref ip := (s.icache ip).ref
  locked ip := (s.icache ip).locked
  ftable := s.ftable
  proc := s.proc
  ops := s.ops

abbrev Ends {α : Type} (program : FsProgram α) (s : FsState) (post : α → FsState → Prop) :
    Prop := Meets program (fun _ => True) s post

def Still {α : Type} (program : FsProgram α) : Prop :=
  ∀ s, Ends program s fun _ next => next.ledger = s.ledger

namespace Still

variable {α β : Type} {program : FsProgram α} {rest : α → FsProgram β}

theorem pure (value : α) : Still (Pure.pure value : FsProgram α) := fun _ => Meets.pure rfl

theorem throw (stop : FsStop) : Still (MonadExcept.throw stop : FsProgram α) :=
  fun _ => Meets.throw trivial

theorem bind (h : Still program) (hrest : ∀ value, Still (rest value)) :
    Still (program >>= rest) := by
  intro s
  refine Meets.bind (h s) fun value next hnext => ?_
  exact (hrest value next).weaken fun _ _ hlast => hlast.trans hnext

theorem ite {test : Prop} [Decidable test] {other : FsProgram α} (h : Still program)
    (hother : Still other) : Still (if test then program else other) := by
  split
  · exact h
  · exact hother

end Still

namespace Ledger

variable {l : Ledger} {ip : InodePtr}

def setInum (l : Ledger) (ip : InodePtr) (i : Nat) : Ledger :=
  { l with inum := Function.update l.inum ip i }

def setRef (l : Ledger) (ip : InodePtr) (n : Int) : Ledger :=
  { l with ref := Function.update l.ref ip n }

def setLock (l : Ledger) (ip : InodePtr) (b : Bool) : Ledger :=
  { l with locked := Function.update l.locked ip b }

theorem setInum_same {i : Nat} (h : l.inum ip = i) : l.setInum ip i = l := by
  unfold setInum
  rw [← h, Function.update_eq_self]

theorem setRef_same {n : Int} (h : l.ref ip = n) : l.setRef ip n = l := by
  unfold setRef
  rw [← h, Function.update_eq_self]

theorem setLock_same {b : Bool} (h : l.locked ip = b) : l.setLock ip b = l := by
  unfold setLock
  rw [← h, Function.update_eq_self]

theorem setLock_back (h : l.locked ip = false) :
    (l.setLock ip true).setLock ip false = l := by
  unfold setLock
  rw [Function.update_idem]
  exact setLock_same h

end Ledger

theorem ledger_setNode (s : FsState) (ip : InodePtr) (node : Inode) :
    (s.setNode ip node).ledger =
      ((s.ledger.setInum ip node.inum).setRef ip node.ref).setLock ip node.locked := by
  have hfield : ∀ {α : Type} (field : Inode → α),
      (fun jp => field (setSlot s.icache ip node jp)) =
        Function.update (fun jp => field (s.icache jp)) ip (field node) := by
    intro α field
    funext jp
    rw [setSlot_apply, Function.update_apply]
    split <;> rfl
  unfold Ledger.setInum Ledger.setRef Ledger.setLock FsState.ledger FsState.setNode
  congr 1
  · exact hfield Inode.inum
  · exact hfield Inode.ref
  · exact hfield Inode.locked

theorem ledger_setNode_same {s : FsState} {ip : InodePtr} {node : Inode}
    (hinum : (s.icache ip).inum = node.inum) (href : (s.icache ip).ref = node.ref)
    (hlocked : (s.icache ip).locked = node.locked) :
    (s.setNode ip node).ledger = s.ledger := by
  rw [ledger_setNode, Ledger.setInum_same hinum, Ledger.setRef_same href,
    Ledger.setLock_same hlocked]

theorem ledger_setNode_lock {s : FsState} {ip : InodePtr} {node : Inode}
    (hinum : (s.icache ip).inum = node.inum) (href : (s.icache ip).ref = node.ref) :
    (s.setNode ip node).ledger = s.ledger.setLock ip node.locked := by
  rw [ledger_setNode, Ledger.setInum_same hinum, Ledger.setRef_same href]

theorem ledger_setNode_ref {s : FsState} {ip : InodePtr} {node : Inode}
    (hinum : (s.icache ip).inum = node.inum)
    (hlocked : (s.icache ip).locked = node.locked) :
    (s.setNode ip node).ledger = s.ledger.setRef ip node.ref := by
  rw [ledger_setNode, Ledger.setInum_same hinum]
  exact Ledger.setLock_same hlocked

section Disk

variable {sb : Superblock}

theorem still_bread (b : Nat) : Still (bread b) := fun _ => Meets.of_ok rfl rfl

theorem still_logWrite (b : Nat) (block : Block) : Still (logWrite b block) :=
  fun _ => Meets.of_ok rfl rfl

theorem still_getInode (ip : InodePtr) : Still (getInode ip) := fun _ => Meets.of_ok rfl rfl

theorem still_editDinode (ip : InodePtr) (edit : Dinode → Dinode) :
    Still (editDinode ip edit) := by
  intro s
  exact Meets.of_ok rfl (ledger_setNode_same rfl rfl rfl)

theorem still_balloc : Still (balloc sb) := by
  intro s
  refine Meets.bind_ok rfl ?_
  split
  · exact Meets.throw trivial
  · exact ((still_bread _).bind fun _ => (still_logWrite _ _).bind fun _ =>
      (still_logWrite _ _).bind fun _ => .pure _) s

theorem still_bfree (b : BlockNo) : Still (bfree sb b) :=
  (still_bread _).bind fun _ => .ite (still_logWrite _ _) (.throw _)

theorem still_iupdate (ip : InodePtr) : Still (iupdate sb ip) :=
  (still_getInode _).bind fun _ => (still_bread _).bind fun _ => still_logWrite _ _

theorem still_addrOrAlloc (ip : InodePtr) (k : Fin (NDIRECT + 1)) :
    Still (addrOrAlloc sb ip k) :=
  (still_getInode _).bind fun _ => .ite
    (still_balloc.bind fun _ => (still_editDinode _ _).bind fun _ => .pure _) (.pure _)

theorem still_bmap (ip : InodePtr) (bn : Nat) : Still (bmap sb ip bn) := by
  unfold bmap
  split
  · exact still_addrOrAlloc _ _
  · refine .ite ?_ (.throw _)
    refine (still_addrOrAlloc _ _).bind fun _ => (still_bread _).bind fun _ => .ite ?_ (.pure _)
    exact still_balloc.bind fun _ => (still_bread _).bind fun _ =>
      (still_logWrite _ _).bind fun _ => .pure _

theorem still_freeAddr (ip : InodePtr) (k : Fin (NDIRECT + 1)) : Still (freeAddr sb ip k) :=
  (still_getInode _).bind fun _ => .ite (.pure _)
    ((still_bfree _).bind fun _ => still_editDinode _ _)

theorem still_freeDirect (ip : InodePtr) (l : List (Fin NDIRECT)) :
    Still (freeDirect sb ip l) := by
  induction l with
  | nil => exact .pure _
  | cons i rest ih => exact (still_freeAddr _ _).bind fun _ => ih

theorem still_freeWords (a : Block) (l : List (Fin NINDIRECT)) : Still (freeWords sb a l) := by
  induction l with
  | nil => exact .pure _
  | cons j rest ih => exact .ite ih ((still_bfree _).bind fun _ => ih)

theorem still_itrunc (ip : InodePtr) : Still (itrunc sb ip) := by
  refine (still_freeDirect _ _).bind fun _ => Still.bind ?_ fun _ =>
    (still_editDinode _ _).bind fun _ => still_iupdate _
  exact (still_getInode _).bind fun _ => .ite (.pure _)
    ((still_bread _).bind fun _ => (still_freeWords _ _).bind fun _ => still_freeAddr _ _)

theorem still_fillInode (ip : InodePtr) : Still (fillInode sb ip) := by
  intro s
  refine Meets.bind_ok rfl ?_
  split
  · exact Meets.pure rfl
  · refine Meets.bind_ok rfl (Meets.bind_ok rfl ?_)
    split
    · exact Meets.throw trivial
    · exact Meets.pure (ledger_setNode_same rfl rfl rfl)

theorem still_dropInode (ip : InodePtr) : Still (dropInode sb ip) := by
  refine (still_getInode _).bind fun _ => .ite ?_ (.pure _)
  refine (still_itrunc _).bind fun _ => (still_editDinode _ _).bind fun _ =>
    (still_iupdate _).bind fun _ s => ?_
  exact Meets.bind_ok rfl (Meets.of_ok rfl (ledger_setNode_same rfl rfl rfl))

theorem still_readBlocks (ip : InodePtr) (turns off n : Nat) :
    Still (readBlocks sb ip turns off n) := by
  induction turns generalizing off n with
  | zero => exact .pure _
  | succ turns ih =>
      exact .ite (.pure _) ((still_bmap _ _).bind fun _ => (still_bread _).bind fun _ =>
        (ih _ _).bind fun _ => .pure _)

theorem still_readi (ip : InodePtr) (off n : Nat) : Still (readi sb ip off n) :=
  (still_getInode _).bind fun _ => .ite (.pure _) (.ite (.pure _)
    ((still_readBlocks _ _ _ _).bind fun _ => .pure _))

theorem still_writeBlocks (ip : InodePtr) (turns off : Nat) (src : List Byte) :
    Still (writeBlocks sb ip turns off src) := by
  induction turns generalizing off src with
  | zero => exact .pure _
  | succ turns ih =>
      exact .ite (.pure _) ((still_bmap _ _).bind fun _ => (still_bread _).bind fun _ =>
        (still_logWrite _ _).bind fun _ => ih _ _)

theorem still_writei (ip : InodePtr) (src : List Byte) (off : Nat) :
    Still (writei sb ip src off) := by
  refine (still_getInode _).bind fun _ => .ite (.pure _) (.ite (.pure _) ?_)
  refine (still_writeBlocks _ _ _ _).bind fun _ => Still.bind ?_ fun _ => .pure _
  exact (still_getInode _).bind fun _ => .ite
    ((still_editDinode _ _).bind fun _ => still_iupdate _) (.pure _)

theorem still_readDirent (stop : FsStop) (dp : InodePtr) (off : Nat) :
    Still (readDirent sb stop dp off) := by
  refine (still_readi _ _ _).bind fun r => ?_
  cases r with
  | done data => exact .ite (.pure _) (.throw _)
  | error => exact .throw _
  | device => exact .throw _

theorem still_findEntry (dp : InodePtr) (name : Name) (turns off : Nat) :
    Still (findEntry sb dp name turns off) := by
  induction turns generalizing off with
  | zero => exact .pure _
  | succ turns ih =>
      exact (still_getInode _).bind fun _ => .ite
        ((still_readDirent _ _ _).bind fun _ => .ite (.pure _) (ih _)) (.pure _)

theorem still_findEmpty (dp : InodePtr) (turns off : Nat) :
    Still (findEmpty sb dp turns off) := by
  induction turns generalizing off with
  | zero => exact .pure _
  | succ turns ih =>
      exact (still_getInode _).bind fun _ => .ite
        ((still_readDirent _ _ _).bind fun _ => .ite (.pure _) (ih _)) (.pure _)

theorem still_isdirempty (dp : InodePtr) : Still (isdirempty sb dp) := by
  have hloop : ∀ turns off, Still (emptyFrom sb dp turns off) := by
    intro turns
    induction turns with
    | zero => exact fun _ => .pure _
    | succ turns ih =>
        exact fun off => (still_getInode _).bind fun _ => .ite
          ((still_readDirent _ _ _).bind fun _ => .ite (.pure _) (ih _)) (.pure _)
  exact (still_getInode _).bind fun _ => hloop _ _

theorem still_clearEntry (dp : InodePtr) (off : Nat) : Still (clearEntry sb dp off) := by
  refine (still_writei _ _ _).bind fun r => ?_
  cases r with
  | done n => exact .ite (.pure _) (.throw _)
  | error => exact .throw _
  | device => exact .throw _

theorem still_addLinks (ip : InodePtr) (change : BitVec 16) : Still (addLinks sb ip change) :=
  (still_editDinode _ _).bind fun _ => still_iupdate _

end Disk

def Ledger.addRef (l : Ledger) (ip : InodePtr) (n : Int) : Ledger :=
  l.setRef ip (l.ref ip + n)

section References

variable {sb : Superblock} {s : FsState} {ip : InodePtr}

theorem ends_acquiresleep :
    Ends (acquiresleep ip) s fun _ next =>
      s.ledger.locked ip = false ∧ next.ledger = s.ledger.setLock ip true := by
  refine Meets.bind_ok rfl ?_
  split
  · exact Meets.throw trivial
  next hfree =>
    refine Meets.of_ok rfl ⟨?_, ledger_setNode_lock rfl rfl⟩
    exact eq_false_of_ne_true hfree

theorem ends_releasesleep :
    Ends (releasesleep ip) s fun _ next => next.ledger = s.ledger.setLock ip false := by
  exact Meets.bind_ok rfl (Meets.of_ok rfl (ledger_setNode_lock rfl rfl))

theorem ends_iunlock :
    Ends (iunlock ip) s fun _ next =>
      s.ledger.locked ip = true ∧ next.ledger = s.ledger.setLock ip false := by
  refine Meets.bind_ok rfl ?_
  split
  · exact Meets.throw trivial
  next htest =>
    refine ends_releasesleep.weaken fun _ next hnext => ⟨?_, hnext⟩
    rw [Bool.or_eq_true, not_or, Bool.not_eq_true'] at htest
    exact eq_true_of_ne_false htest.1

theorem ends_ilock :
    Ends (ilock sb ip) s fun _ next =>
      s.ledger.locked ip = false ∧ next.ledger = s.ledger.setLock ip true := by
  refine Meets.bind_ok rfl ?_
  split
  · exact Meets.throw trivial
  · refine Meets.bind ends_acquiresleep ?_
    rintro _ taken ⟨hfree, htaken⟩
    refine (still_fillInode ip taken).weaken fun _ next hnext => ?_
    exact ⟨hfree, hnext.trans htaken⟩

theorem ends_iput :
    Ends (iput sb ip) s fun _ next =>
      s.ledger.locked ip = false ∧ next.ledger = s.ledger.addRef ip (-1) := by
  refine Meets.bind ends_acquiresleep ?_
  rintro _ taken ⟨hfree, htaken⟩
  refine Meets.bind (still_dropInode ip taken) ?_
  intro _ dropped hdropped
  refine Meets.bind ends_releasesleep ?_
  intro _ released hreleased
  refine Meets.bind_ok rfl (Meets.of_ok rfl ⟨hfree, ?_⟩)
  have hback : released.ledger = s.ledger := by
    rw [hreleased, hdropped, htaken, Ledger.setLock_back hfree]
  have hput : (released.setNode ip
      { released.icache ip with ref := (released.icache ip).ref - 1 }).ledger =
        released.ledger.setRef ip ((released.icache ip).ref - 1) := ledger_setNode_ref rfl rfl
  refine hput.trans ?_
  rw [Ledger.addRef, ← hback]
  rfl

theorem ends_iunlockput :
    Ends (iunlockput sb ip) s fun _ next =>
      s.ledger.locked ip = true ∧ next.ledger = (s.ledger.setLock ip false).addRef ip (-1) := by
  refine Meets.bind ends_iunlock ?_
  rintro _ unlocked ⟨hlocked, hunlocked⟩
  refine ends_iput.weaken fun _ next hnext => ⟨hlocked, ?_⟩
  rw [hnext.2, hunlocked]

theorem ends_idup :
    Ends (idup ip) s fun r next => r = ip ∧ next.ledger = s.ledger.addRef ip 1 := by
  exact Meets.bind_ok rfl
    (Meets.bind_ok rfl (Meets.pure ⟨rfl, ledger_setNode_ref rfl rfl⟩))

theorem ends_iget (i : Nat) :
    Ends (iget i) s fun ip next =>
      (s.ledger.ref ip ≠ 0 → s.ledger.inum ip = i) ∧
        next.ledger = (s.ledger.setInum ip i).addRef ip 1 := by
  refine Meets.bind_ok rfl ?_
  split
  next ip hfound =>
    have hentry := firstSlot_some hfound
    simp only [decide_eq_true_eq] at hentry
    refine Meets.bind_ok rfl (Meets.pure ⟨fun _ => hentry.2, ?_⟩)
    rw [Ledger.setInum_same hentry.2]
    exact ledger_setNode_ref rfl rfl
  next =>
    split
    · exact Meets.throw trivial
    next ip hfree =>
      have hzero := firstSlot_some hfree
      simp only [decide_eq_true_eq] at hzero
      refine Meets.bind_ok rfl (Meets.pure ⟨fun hne => absurd hzero hne, ?_⟩)
      refine (ledger_setNode ..).trans ((Ledger.setLock_same rfl).trans ?_)
      rw [Ledger.addRef, show (s.ledger.setInum ip i).ref ip = 0 from hzero]
      rfl

end References

/-- The ledger of a running call that started with `base`, holds the references
`held` and the locks `locks`. -/
structure Track (base : Ledger) (held : Multiset InodePtr) (locks : Finset InodePtr)
    (l : Ledger) : Prop where
  nonneg : ∀ ip, 0 ≤ base.ref ip
  refs : ∀ ip, l.ref ip = base.ref ip + held.count ip
  inum : ∀ ip, 0 < base.ref ip → l.inum ip = base.inum ip
  locked : ∀ ip, l.locked ip = (base.locked ip || decide (ip ∈ locks))
  fresh : ∀ ip ∈ locks, base.locked ip = false
  ftable : l.ftable = base.ftable
  proc : l.proc = base.proc
  ops : l.ops = base.ops

namespace Track

variable {base l : Ledger} {held : Multiset InodePtr} {locks : Finset InodePtr}
variable {ip : InodePtr}

theorem start (h : ∀ ip, 0 ≤ l.ref ip) : Track l 0 ∅ l where
  nonneg := h
  refs ip := by rw [Multiset.count_zero, Nat.cast_zero, add_zero]
  inum _ _ := rfl
  locked ip := by simp
  fresh ip hip := absurd hip (Finset.notMem_empty ip)
  ftable := rfl
  proc := rfl
  ops := rfl

theorem notMem (h : Track base held locks l) (hfree : l.locked ip = false) : ip ∉ locks := by
  intro hmem
  rw [h.locked, decide_eq_true hmem, Bool.or_true] at hfree
  cases hfree

theorem lock (h : Track base held locks l) (hfree : l.locked ip = false) :
    Track base held (insert ip locks) (l.setLock ip true) := by
  refine { h with locked := fun jp => ?_, fresh := fun jp hjp => ?_ }
  · change Function.update l.locked ip true jp = _
    rw [Function.update_apply]
    split
    next heq => simp [heq]
    next hne => simp [hne, h.locked jp]
  · rcases Finset.mem_insert.mp hjp with rfl | hmem
    · rw [h.locked, Bool.or_eq_false_iff] at hfree
      exact hfree.1
    · exact h.fresh jp hmem

theorem unlock (h : Track base held (insert ip locks) l) (hout : ip ∉ locks) :
    Track base held locks (l.setLock ip false) := by
  refine { h with locked := fun jp => ?_, fresh := fun jp hjp => ?_ }
  · change Function.update l.locked ip false jp = _
    rw [Function.update_apply]
    split
    next heq =>
      rw [heq, h.fresh ip (Finset.mem_insert_self ..), decide_eq_false hout]
      rfl
    next hne => simp [h.locked jp, Finset.mem_insert, hne]
  · exact h.fresh jp (Finset.mem_insert_of_mem hjp)

theorem hold (h : Track base held locks l) : Track base (ip ::ₘ held) locks (l.addRef ip 1) := by
  refine { h with refs := fun jp => ?_ }
  change Function.update l.ref ip (l.ref ip + 1) jp = _
  rw [Function.update_apply]
  split
  next heq =>
    rw [heq, h.refs, Multiset.count_cons_self]
    push_cast
    ring
  next hne => rw [h.refs, Multiset.count_cons_of_ne hne]

theorem drop (h : Track base (ip ::ₘ held) locks l) :
    Track base held locks (l.addRef ip (-1)) := by
  refine { h with refs := fun jp => ?_ }
  change Function.update l.ref ip (l.ref ip + -1) jp = _
  rw [Function.update_apply]
  split
  next heq =>
    rw [heq, h.refs, Multiset.count_cons_self]
    push_cast
    ring
  next hne => rw [h.refs, Multiset.count_cons_of_ne hne]

theorem take (h : Track base held locks l) {i : Nat} (hi : l.ref ip ≠ 0 → l.inum ip = i) :
    Track base (ip ::ₘ held) locks ((l.setInum ip i).addRef ip 1) := by
  have hset : Track base held locks (l.setInum ip i) := by
    refine { h with inum := fun jp hpos => ?_ }
    change Function.update l.inum ip i jp = _
    rw [Function.update_apply]
    split
    next heq =>
      subst heq
      rw [← h.inum jp hpos, hi]
      rw [h.refs]
      omega
    next => exact h.inum jp hpos
  exact hset.hold

end Track

section Parts

variable {sb : Superblock} {s : FsState} {base : Ledger} {held : Multiset InodePtr}
variable {locks : Finset InodePtr} {ip dp : InodePtr} {p : Slot}

theorem Still.track {α : Type} {program : FsProgram α} (hstill : Still program)
    (h : Track base held locks s.ledger) :
    Ends program s fun _ next => Track base held locks next.ledger := by
  refine (hstill s).weaken fun _ next hnext => ?_
  rw [hnext]
  exact h

theorem track_ilock (h : Track base held locks s.ledger) :
    Ends (ilock sb ip) s fun _ next =>
      ip ∉ locks ∧ Track base held (insert ip locks) next.ledger := by
  refine ends_ilock.weaken fun _ next hnext => ⟨h.notMem hnext.1, ?_⟩
  rw [hnext.2]
  exact h.lock hnext.1

theorem track_iunlock (h : Track base held (insert ip locks) s.ledger) (hout : ip ∉ locks) :
    Ends (iunlock ip) s fun _ next => Track base held locks next.ledger := by
  refine ends_iunlock.weaken fun _ next hnext => ?_
  rw [hnext.2]
  exact h.unlock hout

theorem track_iput (h : Track base (ip ::ₘ held) locks s.ledger) :
    Ends (iput sb ip) s fun _ next => Track base held locks next.ledger := by
  refine ends_iput.weaken fun _ next hnext => ?_
  rw [hnext.2]
  exact h.drop

theorem track_iunlockput (h : Track base (ip ::ₘ held) (insert ip locks) s.ledger)
    (hout : ip ∉ locks) :
    Ends (iunlockput sb ip) s fun _ next => Track base held locks next.ledger := by
  refine ends_iunlockput.weaken fun _ next hnext => ?_
  rw [hnext.2]
  exact (h.unlock hout).drop

theorem track_iget (h : Track base held locks s.ledger) (i : Nat) :
    Ends (iget i) s fun ip next => Track base (ip ::ₘ held) locks next.ledger := by
  refine (ends_iget i).weaken fun ip next hnext => ?_
  rw [hnext.2]
  exact h.take hnext.1

theorem track_ialloc (h : Track base held locks s.ledger) (type : BitVec 16) :
    Ends (ialloc sb type) s fun ip next => Track base (ip ::ₘ held) locks next.ledger := by
  refine Meets.bind_ok rfl ?_
  split
  · exact Meets.throw trivial
  · refine Meets.bind ((still_bread _).track h) fun _ read hread => ?_
    refine Meets.bind ((still_logWrite _ _).track hread) fun _ logged hlogged => ?_
    exact track_iget hlogged _

theorem track_dirlookup (h : Track base held locks s.ledger) (name : Name) :
    Ends (dirlookup sb dp name) s fun r next =>
      Track base (holding held (r.map Prod.fst)) locks next.ledger := by
  refine Meets.bind_ok rfl ?_
  dsimp only
  split
  · exact Meets.throw trivial
  · refine Meets.bind ((still_findEntry _ _ _ _).track h) fun r found hfound => ?_
    cases r with
    | none => exact Meets.pure hfound
    | some entry =>
        refine Meets.bind (track_iget hfound _) fun ip next hnext => ?_
        exact Meets.pure hnext

theorem track_dirlink (h : Track base held locks s.ledger) (name : Name) (inum : Nat) :
    Ends (dirlink sb dp name inum) s fun _ next => Track base held locks next.ledger := by
  refine Meets.bind (track_dirlookup h name) fun r found hfound => ?_
  cases r with
  | some entry =>
      refine Meets.bind (track_iput hfound) fun _ next hnext => ?_
      exact Meets.pure hnext
  | none =>
      refine Meets.bind ((still_getInode _).track hfound) fun _ read hread => ?_
      refine Meets.bind ((still_findEmpty _ _ _).track hread) fun _ place hplace => ?_
      refine Meets.bind ((still_writei _ _ _).track hplace) fun r next hnext => ?_
      cases r with
      | done n => exact (Still.ite (.pure _) (.throw _)).track hnext
      | error => exact Meets.throw trivial
      | device => exact Meets.throw trivial

theorem skipelem_length {path rest : Path} {name : Name}
    (h : skipelem path = some (name, rest)) : rest.length < path.length := by
  unfold skipelem at h
  dsimp only at h
  split at h
  next => cases h
  next hsome =>
    cases h
    have helement := (trimmed_dropWhile hsome).first.1
    have hsuffix : path.dropWhile (· = SLASH) <:+ path := List.dropWhile_suffix _
    have hsplit := List.takeWhile_append_dropWhile (p := fun c : Byte => decide (c ≠ SLASH))
      (l := path.dropWhile (· = SLASH))
    have hpos := List.length_pos_iff.mpr helement
    have hlength := congrArg List.length hsplit
    rw [List.length_append] at hlength
    have hrest : ∀ left : Path, (left.dropWhile (· = SLASH)).length ≤ left.length :=
      fun left => (List.dropWhile_suffix _).length_le
    have hle := hrest ((path.dropWhile (· = SLASH)).dropWhile (· ≠ SLASH))
    have hle' := hsuffix.length_le
    omega

theorem track_walk {parent : Bool} {turns : Nat} {path : Path} (last : Name)
    (h : Track base (ip ::ₘ held) locks s.ledger) (hturns : path.length < turns) :
    Ends (walk sb parent turns ip path last) s fun r next =>
      Track base (holding held (r.map Prod.fst)) locks next.ledger := by
  induction turns generalizing s ip path last with
  | zero => omega
  | succ turns ih =>
      unfold walk
      split
      next hnone =>
        split
        · refine Meets.bind (track_iput h) fun _ next hnext => ?_
          exact Meets.pure hnext
        · exact Meets.pure h
      next name rest hsome =>
        have hshort := skipelem_length hsome
        refine Meets.bind (track_ilock h) ?_
        rintro _ middle ⟨hout, hmiddle⟩
        refine Meets.bind ((still_getInode _).track hmiddle) ?_
        intro node middle hmiddle
        split
        next =>
          refine Meets.bind (track_iunlockput hmiddle hout) fun _ next hnext => ?_
          exact Meets.pure hnext
        next =>
          split
          next =>
            refine Meets.bind (track_iunlock hmiddle hout) fun _ next hnext => ?_
            exact Meets.pure hnext
          next =>
            refine Meets.bind (track_dirlookup hmiddle name) fun r found hfound => ?_
            cases r with
            | none =>
                refine Meets.bind (track_iunlockput hfound hout) fun _ next hnext => ?_
                exact Meets.pure hnext
            | some entry =>
                have hswap : Track base (ip ::ₘ entry.1 ::ₘ held) (insert ip locks)
                    found.ledger := Multiset.cons_swap .. ▸ hfound
                refine Meets.bind (track_iunlockput hswap hout) fun _ next hnext => ?_
                exact ih name hnext (by omega)

theorem track_namex (h : Track base held locks s.ledger) (path : Path) (parent : Bool) :
    Ends (namex sb p path parent) s fun r next =>
      Track base (holding held (r.map Prod.fst)) locks next.ledger := by
  unfold namex
  split
  · refine Meets.bind (track_iget h _) fun ip next hnext => ?_
    exact track_walk _ hnext (Nat.lt_succ_self _)
  · refine Meets.bind_ok rfl ?_
    split
    · exact Meets.throw trivial
    · refine Meets.bind ends_idup ?_
      rintro ip next ⟨rfl, hnext⟩
      refine track_walk _ ?_ (Nat.lt_succ_self _)
      rw [hnext]
      exact h.hold

theorem track_namei (h : Track base held locks s.ledger) (path : Path) :
    Ends (namei sb p path) s fun r next =>
      Track base (holding held r) locks next.ledger := by
  refine Meets.bind (track_namex h path false) fun r next hnext => ?_
  exact Meets.pure hnext

end Parts

section Create

variable {sb : Superblock} {s : FsState} {base : Ledger} {held : Multiset InodePtr}
variable {locks : Finset InodePtr} {ip dp : InodePtr} {p : Slot}

theorem track_makeDots (h : Track base held locks s.ledger) (type : BitVec 16) :
    Ends (makeDots sb dp ip type) s fun _ next => Track base held locks next.ledger := by
  unfold makeDots
  split
  · refine Meets.bind ((still_addLinks _ _).track h) fun _ linked hlinked => ?_
    refine Meets.bind ((still_getInode _).track hlinked) fun _ read hread => ?_
    refine Meets.bind (track_dirlink hread _ _) fun r dotted hdotted => ?_
    split
    · refine Meets.bind ((still_getInode _).track hdotted) fun _ read hread => ?_
      refine Meets.bind (track_dirlink hread _ _) fun r done hdone => ?_
      split
      · exact Meets.pure hdone
      · exact Meets.throw trivial
    · exact Meets.throw trivial
  · exact Meets.pure h

/-- The inode that a part of a call returns, if any, is locked and referred to. -/
inductive Got (base : Ledger) (held : Multiset InodePtr) (locks : Finset InodePtr) :
    Option InodePtr → Ledger → Prop where
  | nothing {l : Ledger} (h : Track base held locks l) : Got base held locks none l
  | inode {l : Ledger} (ip : InodePtr) (hout : ip ∉ locks)
      (h : Track base (ip ::ₘ held) (insert ip locks) l) : Got base held locks (some ip) l

theorem track_createNew (h : Track base (dp ::ₘ held) (insert dp locks) s.ledger)
    (hout : dp ∉ locks) (name : Name) (type major minor : BitVec 16) :
    Ends (createNew sb dp name type major minor) s fun ip next =>
      Got base held locks (some ip) next.ledger := by
  refine Meets.bind (track_ialloc h type) fun ip fresh hfresh => ?_
  refine Meets.bind (track_ilock hfresh) ?_
  rintro _ taken ⟨hapart, htaken⟩
  rw [Finset.mem_insert, not_or] at hapart
  refine Meets.bind ((still_editDinode _ _).track htaken) fun _ edited hedited => ?_
  refine Meets.bind ((still_iupdate _).track hedited) fun _ updated hupdated => ?_
  refine Meets.bind (track_makeDots hupdated type) fun _ dotted hdotted => ?_
  refine Meets.bind ((still_getInode _).track hdotted) fun _ read hread => ?_
  refine Meets.bind (track_dirlink hread name _) fun r linked hlinked => ?_
  split
  · rw [Multiset.cons_swap, Finset.insert_comm] at hlinked
    have hdp : dp ∉ insert ip locks := by
      rw [Finset.mem_insert, not_or]
      exact ⟨Ne.symm hapart.1, hout⟩
    refine Meets.bind (track_iunlockput hlinked hdp) fun _ next hnext => ?_
    exact Meets.pure (.inode ip hapart.2 hnext)
  · exact Meets.throw trivial

theorem track_create (h : Track base held locks s.ledger) (path : Path)
    (type major minor : BitVec 16) :
    Ends (create sb p path type major minor) s fun r next =>
      Got base held locks r next.ledger := by
  refine Meets.bind (track_namex h path true) fun r found hfound => ?_
  cases r with
  | none => exact Meets.pure (.nothing hfound)
  | some parent =>
      refine Meets.bind (track_ilock hfound) ?_
      rintro _ taken ⟨hout, htaken⟩
      refine Meets.bind (track_dirlookup htaken parent.2) fun r looked hlooked => ?_
      cases r with
      | none =>
          refine Meets.bind (track_createNew hlooked hout _ _ _ _) fun ip made hmade => ?_
          exact Meets.pure hmade
      | some entry =>
          have hswap : Track base (parent.1 ::ₘ entry.1 ::ₘ held) (insert parent.1 locks)
              looked.ledger := Multiset.cons_swap .. ▸ hlooked
          refine Meets.bind (track_iunlockput hswap hout) fun _ left hleft => ?_
          refine Meets.bind (track_ilock hleft) ?_
          rintro _ held ⟨hout, hheld⟩
          refine Meets.bind ((still_getInode _).track hheld) fun _ read hread => ?_
          split
          · exact Meets.pure (.inode _ hout hread)
          · refine Meets.bind (track_iunlockput hread hout) fun _ next hnext => ?_
            exact Meets.pure (.nothing hnext)

theorem track_openInode (h : Track base held locks s.ledger) (path : Path)
    (omode : BitVec 32) :
    Ends (openInode sb p path omode) s fun r next => Got base held locks r next.ledger := by
  unfold openInode
  split
  · exact track_create h path _ _ _
  · refine Meets.bind (track_namei h path) fun r found hfound => ?_
    cases r with
    | none => exact Meets.pure (.nothing hfound)
    | some ip =>
        refine Meets.bind (track_ilock hfound) ?_
        rintro _ taken ⟨hout, htaken⟩
        refine Meets.bind ((still_getInode _).track htaken) fun _ read hread => ?_
        split
        · refine Meets.bind (track_iunlockput hread hout) fun _ next hnext => ?_
          exact Meets.pure (.nothing hnext)
        · exact Meets.pure (.inode ip hout hread)

end Create

def Ledger.refs (l : Ledger) (i : Nat) : Int :=
  ∑ ip, if l.inum ip = i then l.ref ip else 0

def FsState.refs (s : FsState) (i : Nat) : Int :=
  ∑ ip, if (s.icache ip).inum = i then (s.icache ip).ref else 0

theorem sum_count (inum : InodePtr → Nat) (i : Nat) (held : Multiset InodePtr) :
    (∑ ip, if inum ip = i then (held.count ip : Int) else 0) =
      held.countP fun ip => inum ip = i := by
  induction held using Multiset.induction_on with
  | empty => simp
  | cons ip held ih =>
      have hterm : ∀ jp, (if inum jp = i then ((ip ::ₘ held).count jp : Int) else 0) =
          (if inum jp = i then (held.count jp : Int) else 0) +
            if jp = ip then (if inum ip = i then 1 else 0) else 0 := by
        intro jp
        rw [Multiset.count_cons]
        by_cases heq : jp = ip
        · subst heq
          by_cases hi : inum jp = i <;> simp [hi]
        · by_cases hi : inum jp = i <;> simp [hi, heq]
      rw [Finset.sum_congr rfl fun jp _ => hterm jp, Finset.sum_add_distrib, ih,
        Finset.sum_ite_eq', if_pos (Finset.mem_univ ip), Multiset.countP_cons]
      push_cast
      rfl

theorem Track.total {base l : Ledger} {held : Multiset InodePtr}
    {locks : Finset InodePtr} (h : Track base held locks l) (i : Nat) :
    l.refs i = base.refs i + held.countP fun ip => l.inum ip = i := by
  rw [← sum_count]
  unfold Ledger.refs
  rw [← Finset.sum_add_distrib]
  refine Finset.sum_congr rfl fun ip _ => ?_
  have hnonneg := h.nonneg ip
  rw [h.refs]
  by_cases hpos : 0 < base.ref ip
  · rw [h.inum ip hpos]
    split <;> simp
  · have hzero : base.ref ip = 0 := by omega
    rw [hzero]
    split <;> simp

theorem Ledger.refs_addRef (l : Ledger) (ip : InodePtr) (n : Int) (i : Nat) :
    (l.addRef ip n).refs i = l.refs i + if l.inum ip = i then n else 0 := by
  have hterm : ∀ jp, (if (l.addRef ip n).inum jp = i then (l.addRef ip n).ref jp else 0) =
      (if l.inum jp = i then l.ref jp else 0) +
        if jp = ip then (if l.inum ip = i then n else 0) else 0 := by
    intro jp
    change (if l.inum jp = i then Function.update l.ref ip (l.ref ip + n) jp else 0) = _
    rw [Function.update_apply]
    by_cases heq : jp = ip
    · subst heq
      by_cases hi : l.inum jp = i <;> simp [hi]
    · by_cases hi : l.inum jp = i <;> simp [hi, heq]
  unfold Ledger.refs
  rw [Finset.sum_congr rfl fun jp _ => hterm jp, Finset.sum_add_distrib, Finset.sum_ite_eq',
    if_pos (Finset.mem_univ ip)]

/-- The state before a call of the process `p`: references are counted, and a free
file is of no type. -/
structure FsState.Counts (s : FsState) (p : Slot) : Prop where
  nonneg : ∀ ip, 0 ≤ (s.icache ip).ref
  cwd : ∀ ip, (s.proc p).cwd = some ip → 0 < (s.icache ip).ref
  closed : ∀ f, (s.ftable f).ref = 0 → (s.ftable f).type = .none

/-- A call gives back its locks and ends its operations; the references to each
inode change by `change`. -/
structure Balance (s next : FsState) (change : Nat → Int) : Prop where
  locked : ∀ ip, (next.icache ip).locked = (s.icache ip).locked
  ops : next.ops = s.ops
  refs : ∀ i, next.refs i = s.refs i + change i

def started (s : FsState) : FsState := { s with ops := s.ops + 1 }

section Calls

variable {sb : Superblock} {s m : FsState} {held : Multiset InodePtr} {p : Slot}
variable {ip : InodePtr}

theorem track_started (h : s.Counts p) : Track (started s).ledger 0 ∅ (started s).ledger :=
  .start h.nonneg

theorem Track.balance {l : Ledger} (h : Track (started s).ledger held ∅ l) {next : FsState}
    {change : Nat → Int}
    (hicache : ∀ jp, (next.icache jp).inum = l.inum jp ∧ (next.icache jp).ref = l.ref jp ∧
      (next.icache jp).locked = l.locked jp) (hops : next.ops = l.ops - 1)
    (hchange : ∀ i, (held.countP fun jp => l.inum jp = i : Nat) = change i) :
    Balance s next change where
  locked jp := by
    rw [(hicache jp).2.2, h.locked, decide_eq_false (Finset.notMem_empty jp), Bool.or_false]
    rfl
  ops := by
    rw [hops, h.ops]
    exact Int.add_sub_cancel ..
  refs i := by
    have hrefs : next.refs i = l.refs i := by
      refine Finset.sum_congr rfl fun jp _ => ?_
      rw [(hicache jp).1, (hicache jp).2.1]
    rw [hrefs, h.total, hchange]
    rfl

theorem ends_endOp {post : Int → FsState → Prop} {value : Int}
    (h : Track (started s).ledger 0 ∅ m.ledger)
    (hpost : ∀ next, Balance s next 0 → post value next) :
    Ends (do endOp; return value) m post :=
  Meets.bind_ok rfl (Meets.pure (hpost _ (h.balance (fun _ => ⟨rfl, rfl, rfl⟩) rfl fun _ => rfl)))

theorem ends_linkBad (h : Track (started s).ledger (ip ::ₘ 0) ∅ m.ledger) :
    Ends (linkBad sb ip) m fun _ next => Balance s next 0 := by
  refine Meets.bind (track_ilock h) ?_
  rintro _ taken ⟨hout, htaken⟩
  refine Meets.bind ((still_addLinks _ _).track htaken) fun _ linked hlinked => ?_
  refine Meets.bind (track_iunlockput hlinked hout) fun _ left hleft => ?_
  exact ends_endOp hleft fun _ => id

theorem ends_linkName (h : Track (started s).ledger (ip ::ₘ 0) ∅ m.ledger) (new : Path) :
    Ends (linkName sb p ip new) m fun _ next => Balance s next 0 := by
  refine Meets.bind (track_namex h new true) fun r found hfound => ?_
  cases r with
  | none => exact ends_linkBad hfound
  | some parent =>
      change Track _ (parent.1 ::ₘ ip ::ₘ 0) _ _ at hfound
      refine Meets.bind (track_ilock hfound) ?_
      rintro _ taken ⟨hout, htaken⟩
      refine Meets.bind ((still_getInode _).track htaken) fun _ read hread => ?_
      refine Meets.bind (track_dirlink hread _ _) fun r linked hlinked => ?_
      split
      · refine Meets.bind (track_iunlockput hlinked hout) fun _ left hleft => ?_
        refine Meets.bind (track_iput hleft) fun _ dropped hdropped => ?_
        exact ends_endOp hdropped fun _ => id
      · refine Meets.bind (track_iunlockput hlinked hout) fun _ left hleft => ?_
        exact ends_linkBad hleft

theorem Balance.refl (s : FsState) : Balance s s 0 where
  locked _ := rfl
  ops := rfl
  refs _ := (add_zero _).symm

theorem ends_sysLink (h : s.Counts p) (old new : Option Path) :
    Ends (sysLink sb p old new) s fun _ next => Balance s next 0 := by
  unfold sysLink
  split
  next old new =>
    refine Meets.bind_ok rfl ?_
    refine Meets.bind (track_namei (track_started h) old) fun r found hfound => ?_
    cases r with
    | none => exact ends_endOp hfound fun _ => id
    | some ip =>
        change Track _ (ip ::ₘ 0) _ _ at hfound
        refine Meets.bind (track_ilock hfound) ?_
        rintro _ taken ⟨hout, htaken⟩
        refine Meets.bind ((still_getInode _).track htaken) fun _ read hread => ?_
        split
        · refine Meets.bind (track_iunlockput hread hout) fun _ left hleft => ?_
          exact ends_endOp hleft fun _ => id
        · refine Meets.bind ((still_addLinks _ _).track hread) fun _ linked hlinked => ?_
          refine Meets.bind (track_iunlock hlinked hout) fun _ left hleft => ?_
          exact ends_linkName hleft new
  next => exact Meets.pure (.refl s)

theorem ends_unlinkBad {dp : InodePtr} (hout : dp ∉ (∅ : Finset InodePtr))
    (h : Track (started s).ledger (dp ::ₘ 0) (insert dp ∅) m.ledger) :
    Ends (unlinkBad sb dp) m fun _ next => Balance s next 0 := by
  refine Meets.bind (track_iunlockput h hout) fun _ left hleft => ?_
  exact ends_endOp hleft fun _ => id

theorem ends_unlinkFound {dp : InodePtr} (hdp : dp ∉ insert ip (∅ : Finset InodePtr))
    (h : Track (started s).ledger (ip ::ₘ dp ::ₘ 0) (insert ip (insert dp ∅)) m.ledger)
    (off : Nat) :
    Ends (unlinkFound sb dp ip off) m fun _ next => Balance s next 0 := by
  have hip : ip ∉ insert dp (∅ : Finset InodePtr) := by
    simp only [Finset.mem_insert, Finset.notMem_empty, or_false] at hdp ⊢
    exact Ne.symm hdp
  have hentry : ∀ {m : FsState},
      Track (started s).ledger (ip ::ₘ dp ::ₘ 0) (insert ip (insert dp ∅)) m.ledger →
      Ends (unlinkEntry sb dp ip off) m fun _ next => Balance s next 0 := by
    intro m h
    refine Meets.bind ((still_clearEntry _ _).track h) fun _ cleared hcleared => ?_
    have hdots : Still (dropDotDot sb dp ip) :=
      (still_getInode _).bind fun _ => .ite (still_addLinks _ _) (.pure _)
    refine Meets.bind (hdots.track hcleared) fun _ dropped hdropped => ?_
    rw [Multiset.cons_swap, Finset.insert_comm] at hdropped
    refine Meets.bind (track_iunlockput hdropped hdp) fun _ left hleft => ?_
    refine Meets.bind ((still_addLinks _ _).track hleft) fun _ linked hlinked => ?_
    refine Meets.bind (track_iunlockput hlinked (Finset.notMem_empty ip))
      fun _ last hlast => ?_
    exact ends_endOp hlast fun _ => id
  refine Meets.bind ((still_getInode _).track h) fun node read hread => ?_
  dsimp only
  split
  · exact Meets.throw trivial
  · split
    · refine Meets.bind ((still_isdirempty _).track hread) fun r seen hseen => ?_
      split
      · exact hentry hseen
      · refine Meets.bind (track_iunlockput hseen hip) fun _ left hleft => ?_
        exact ends_unlinkBad (Finset.notMem_empty dp) hleft
    · exact hentry hread

theorem ends_sysUnlink (h : s.Counts p) (path : Option Path) :
    Ends (sysUnlink sb p path) s fun _ next => Balance s next 0 := by
  unfold sysUnlink
  split
  next path =>
    refine Meets.bind_ok rfl ?_
    refine Meets.bind (track_namex (track_started h) path true) fun r found hfound => ?_
    cases r with
    | none => exact ends_endOp hfound fun _ => id
    | some parent =>
        refine Meets.bind (track_ilock hfound) ?_
        rintro _ taken ⟨hout, htaken⟩
        split
        · exact ends_unlinkBad hout htaken
        · refine Meets.bind (track_dirlookup htaken _) fun r looked hlooked => ?_
          cases r with
          | none => exact ends_unlinkBad hout hlooked
          | some entry =>
              refine Meets.bind (track_ilock hlooked) ?_
              rintro _ both ⟨hapart, hboth⟩
              have hdp : parent.1 ∉ insert entry.1 (∅ : Finset InodePtr) := by
                simp only [Finset.mem_insert, Finset.notMem_empty, or_false] at hapart ⊢
                exact Ne.symm hapart
              exact ends_unlinkFound hdp hboth _
  next => exact Meets.pure (.refl s)

theorem ends_makeNode (h : s.Counts p) (path : Option Path) (type major minor : BitVec 16) :
    Ends (makeNode sb p path type major minor) s fun _ next => Balance s next 0 := by
  refine Meets.bind_ok rfl ?_
  cases path with
  | none => exact ends_endOp (track_started h) fun _ => id
  | some path =>
      refine Meets.bind (track_create (track_started h) path _ _ _) fun r made hmade => ?_
      cases hmade with
      | nothing hmade => exact ends_endOp hmade fun _ => id
      | inode ip hout hmade =>
          refine Meets.bind (track_iunlockput hmade hout) fun _ left hleft => ?_
          exact ends_endOp hleft fun _ => id

theorem ends_filealloc :
    Ends filealloc m fun r next =>
      (r = none ∧ next = m) ∨ ∃ f, r = some f ∧ (m.ftable f).ref = 0 ∧
        next = { m with ftable := setSlot m.ftable f { m.ftable f with ref := 1 } } := by
  refine Meets.bind_ok rfl ?_
  split
  · exact Meets.pure (.inl ⟨rfl, rfl⟩)
  next f hfree =>
    have hzero := firstSlot_some hfree
    simp only [decide_eq_true_eq] at hzero
    exact Meets.bind_ok rfl (Meets.pure (.inr ⟨f, rfl, hzero, rfl⟩))

theorem ends_fdalloc (f : FilePtr) :
    Ends (fdalloc p f) m fun r next =>
      (r = none ∧ next = m) ∨ ∃ fd, r = some fd ∧
        next = { m with proc := (setSlot m.proc p
          { m.proc p with ofile := Function.update (m.proc p).ofile fd (some f) }) } := by
  refine Meets.bind_ok rfl ?_
  split
  · exact Meets.pure (.inl ⟨rfl, rfl⟩)
  next fd _ => exact Meets.bind_ok rfl (Meets.pure (.inr ⟨fd, rfl, rfl⟩))

theorem fileclose_fresh {f : FilePtr} (hfree : (m.ftable f).ref = 0)
    (htype : (m.ftable f).type = .none) :
    fileclose sb f { m with ftable := setSlot m.ftable f { m.ftable f with ref := 1 } } =
      .ok ((), m) := by
  have hback : ({ m.ftable f with type := .none, ref := 0 } : File) = m.ftable f := by
    rw [← hfree, ← htype]
  have hfile : ∀ file, setSlot (setSlot m.ftable f file) f (m.ftable f) = m.ftable := by
    intro file
    unfold setSlot
    rw [Function.update_idem, Function.update_eq_self]
  unfold fileclose
  refine (bind_of_ok rfl).trans ?_
  simp only [setSlot_same]
  rw [if_neg (by decide), if_neg (by decide)]
  refine (bind_of_ok rfl).trans ?_
  rw [htype]
  refine congrArg (fun files => Except.ok ((), { m with ftable := files })) ?_
  exact (congrArg (setSlot _ f) hback).trans (hfile _)

/-- How `sys_open` ends: with -1 and nothing kept, or with a descriptor of an inode that
has one reference more. -/
inductive Opened (s : FsState) (p : Slot) : Int → FsState → Prop where
  | failed {next : FsState} (h : Balance s next 0) : Opened s p (-1) next
  | opened {next : FsState} (fd : Fin NOFILE) (f : FilePtr) (ip : InodePtr)
      (hfd : (next.proc p).ofile fd = some f) (hfile : (next.ftable f).ip = some ip)
      (h : Balance s next fun i => if (next.icache ip).inum = i then 1 else 0) :
      Opened s p fd.val next

theorem countP_one (inum : InodePtr → Nat) (i : Nat) :
    (((ip ::ₘ 0).countP fun jp => inum jp = i : Nat) : Int) = if inum ip = i then 1 else 0 := by
  rw [Multiset.countP_cons, Multiset.countP_zero, Nat.zero_add]
  split <;> rfl

theorem ends_openFailed (h : Track (started s).ledger (ip ::ₘ 0) (insert ip ∅) m.ledger) :
    Ends (do iunlockput sb ip; endOp; return -1) m fun r next => Opened s p r next := by
  refine Meets.bind (track_iunlockput h (Finset.notMem_empty ip)) fun _ left hleft => ?_
  exact ends_endOp hleft fun _ => .failed

theorem ends_sysOpen (h : s.Counts p) (args : Option (Path × BitVec 32)) :
    Ends (sysOpen sb p args) s fun r next => Opened s p r next := by
  unfold sysOpen
  split
  next path omode =>
    refine Meets.bind_ok rfl ?_
    refine Meets.bind (track_openInode (track_started h) path omode) fun r got hgot => ?_
    cases hgot with
    | nothing hgot =>
        exact ends_endOp hgot fun _ => .failed
    | inode ip hout hgot =>
        have hfiles : got.ftable = s.ftable := hgot.ftable
        refine Meets.bind ends_filealloc ?_
        rintro r filed (⟨rfl, rfl⟩ | ⟨f, rfl, hfree, rfl⟩)
        · exact ends_openFailed hgot
        · have htype : (got.ftable f).type = .none := by
            rw [hfiles] at hfree ⊢
            exact h.closed f hfree
          refine Meets.bind (ends_fdalloc f) ?_
          rintro r listed (⟨rfl, rfl⟩ | ⟨fd, rfl, rfl⟩)
          · refine Meets.bind_ok (fileclose_fresh hfree htype) ?_
            exact ends_openFailed hgot
          · refine Meets.bind ends_iunlock ?_
            rintro _ left ⟨-, hleft⟩
            refine Meets.bind_ok rfl (Meets.bind_ok rfl (Meets.bind_ok rfl (Meets.pure ?_)))
            have hproc : left.proc = _ := congrArg Ledger.proc hleft
            have hinum : ∀ jp, (left.icache jp).inum = (got.icache jp).inum :=
              congrFun (congrArg Ledger.inum hleft)
            refine .opened fd f ip ?_ (congrArg File.ip (setSlot_same ..)) ?_
            · change (left.proc p).ofile fd = some f
              rw [hproc]
              change (setSlot _ p _ p : FsProc).ofile fd = _
              rw [setSlot_same]
              exact Function.update_self ..
            · change Balance s _ fun i => if (left.icache ip).inum = i then 1 else 0
              rw [hinum]
              refine (hgot.unlock hout).balance ?_ ?_ fun i =>
                countP_one (fun jp => (got.icache jp).inum) i
              · intro jp
                exact ⟨hinum jp, congrFun (congrArg Ledger.ref hleft) jp,
                  congrFun (congrArg Ledger.locked hleft) jp⟩
              · exact congrArg (fun l : Ledger => l.ops - 1) hleft
  next => exact Meets.pure (.failed (.refl s))

/-- How `sys_chdir` ends: with -1 and the old directory, or with one reference moved to
the new one. -/
inductive Switched (s : FsState) (p : Slot) : Int → FsState → Prop where
  | failed {next : FsState} (h : Balance s next 0) : Switched s p (-1) next
  | moved {next : FsState} (old new : InodePtr) (hold : (s.proc p).cwd = some old)
      (hnew : (next.proc p).cwd = some new)
      (h : Balance s next fun i => (if (next.icache new).inum = i then 1 else 0) -
        if (s.icache old).inum = i then 1 else 0) : Switched s p 0 next

theorem ends_sysChdir (h : s.Counts p) (path : Option Path) :
    Ends (sysChdir sb p path) s fun r next => Switched s p r next := by
  refine Meets.bind_ok rfl ?_
  cases path with
  | none =>
      exact ends_endOp (track_started h) fun _ => .failed
  | some path =>
      refine Meets.bind (track_namei (track_started h) path) fun r found hfound => ?_
      cases r with
      | none =>
          exact ends_endOp hfound fun _ => .failed
      | some new =>
          change Track _ (new ::ₘ 0) _ _ at hfound
          refine Meets.bind (track_ilock hfound) ?_
          rintro _ taken ⟨hout, htaken⟩
          refine Meets.bind ((still_getInode _).track htaken) fun _ read hread => ?_
          split
          · refine Meets.bind (track_iunlockput hread hout) fun _ left hleft => ?_
            exact ends_endOp hleft fun _ => .failed
          · refine Meets.bind (track_iunlock hread hout) fun _ left hleft => ?_
            refine Meets.bind_ok rfl ?_
            split
            · exact Meets.throw trivial
            next old hold =>
              have hcwd : (s.proc p).cwd = some old := by
                rw [show left.proc = s.proc from hleft.proc] at hold
                exact hold
              refine Meets.bind ends_iput ?_
              rintro _ dropped ⟨-, hdropped⟩
              refine Meets.bind_ok rfl (Meets.bind_ok rfl (Meets.pure ?_))
              have hinum : ∀ jp, (dropped.icache jp).inum = (left.icache jp).inum :=
                congrFun (congrArg Ledger.inum hdropped)
              have hkept : (left.icache old).inum = (s.icache old).inum :=
                hleft.inum old (h.cwd old hcwd)
              refine .moved old new hcwd (congrArg FsProc.cwd (setSlot_same ..)) ⟨?_, ?_, ?_⟩
              · intro jp
                have hlocked := (congrFun (congrArg Ledger.locked hdropped) jp).trans
                  (hleft.locked jp)
                rw [decide_eq_false (Finset.notMem_empty jp), Bool.or_false] at hlocked
                exact hlocked
              · have hops : dropped.ops = (started s).ops :=
                  (congrArg Ledger.ops hdropped).trans hleft.ops
                change dropped.ops - 1 = s.ops
                rw [hops]
                exact Int.add_sub_cancel ..
              · intro i
                change dropped.ledger.refs i = (started s).ledger.refs i +
                  ((if (dropped.icache new).inum = i then 1 else 0) - _)
                rw [hdropped, Ledger.refs_addRef, hleft.total,
                  countP_one fun jp => left.ledger.inum jp, hinum, ← hkept]
                change _ + (if (left.icache new).inum = i then 1 else 0) +
                  (if (left.icache old).inum = i then -1 else 0) = _
                split <;> split <;> ring

/-- Each call gives back its locks, ends the operations that it begins and keeps the
references to every inode, but for the one of a new descriptor and the one that a new
current directory takes from the old one. -/
theorem calls_balance (h : s.Counts p) :
    (∀ args, Ends (sysOpen sb p args) s (Opened s p)) ∧
      (∀ old new, Ends (sysLink sb p old new) s fun _ next => Balance s next 0) ∧
      (∀ path, Ends (sysUnlink sb p path) s fun _ next => Balance s next 0) ∧
      (∀ path, Ends (sysMkdir sb p path) s fun _ next => Balance s next 0) ∧
      (∀ path major minor, Ends (sysMknod sb p path major minor) s
        fun _ next => Balance s next 0) ∧
      ∀ path, Ends (sysChdir sb p path) s (Switched s p) :=
  ⟨ends_sysOpen h, ends_sysLink h, ends_sysUnlink h, fun path => ends_makeNode h path _ _ _,
    fun path _ _ => ends_makeNode h path _ _ _, ends_sysChdir h⟩

theorem calls_balance_idle :
    Sample.idle.Counts 0 ∧ ∃ next, sysMkdir Sample.sb 0 (some [100]) Sample.idle =
      .ok (0, next) ∧ Balance Sample.idle next 0 := by
  have hcounts : Sample.idle.Counts 0 := by
    refine ⟨fun ip => ?_, fun ip hip => ?_, fun _ _ => rfl⟩
    · change 0 ≤ (if ip = 0 then ({ inum := 1, ref := 1 } : Inode) else {}).ref
      split <;> decide
    · rw [Sample.cwd_state hip]
      decide
  refine ⟨hcounts, ?_⟩
  have hmade : (match sysMkdir Sample.sb 0 (some [100]) Sample.idle with
      | .ok (result, _) => result
      | .error _ => -1) = 0 := by
    decide +kernel
  generalize Sample.idle = s at hcounts hmade ⊢
  have hends : Ends (sysMkdir Sample.sb 0 (some [100])) s fun _ next => Balance s next 0 :=
    (calls_balance hcounts).2.2.2.1 _
  cases hrun : sysMkdir Sample.sb 0 (some [100]) s with
  | error =>
      rw [hrun] at hmade
      contradiction
  | ok result =>
      rw [hrun] at hmade
      exact ⟨result.2, by rw [← hmade], hends.ok hrun⟩

end Calls

end KernelThreads.Fs
