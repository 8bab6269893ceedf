import KernelThreads.Fs.Entries
import Mathlib.Data.Multiset.Count

namespace KernelThreads.Fs

open Lib Program

/-! The inode cache.  A reference to an entry is a pointer in the file table or in
a process, or one that the running call holds. -/

def File.opens (file : File) (ip : InodePtr) : Bool :=
  file.type = .inode ∧ file.ip = some ip

namespace Shape

def pointers (shape : Shape) (ip : InodePtr) : Nat :=
  (countSlots fun f => (shape.ftable f).opens ip) +
    countSlots fun p => (shape.proc p).cwd = some ip

def Pins (shape : Shape) (held : Multiset InodePtr) (ip : InodePtr) : Prop :=
  0 < shape.pointers ip ∨ ip ∈ held

/-- Each entry counts the references to it, and no two hold one inode. -/
structure Counted (sb : Superblock) (shape : Shape) (held : Multiset InodePtr) :
    Prop where
  refs : ∀ ip, shape.ref ip = (shape.pointers ip + held.count ip : Nat)
  alone : ∀ ip jp, 0 < shape.ref ip → 0 < shape.ref jp →
    shape.inum ip = shape.inum jp → ip = jp
  range : ∀ ip, 0 < shape.ref ip → shape.inum ip < sb.ninodes
  closed : ∀ f, (shape.ftable f).ref = 0 → (shape.ftable f).type = .none
  target : ∀ f, (shape.ftable f).type = .inode → (shape.ftable f).ip ≠ none
  opened : ∀ f ip, (shape.ftable f).opens ip → shape.valid ip = true

variable {sb : Superblock} {shape : Shape} {held : Multiset InodePtr} {ip : InodePtr}

theorem pins_of_opens {f : FilePtr} (h : (shape.ftable f).opens ip) :
    0 < shape.pointers ip :=
  Nat.add_pos_left (@countSlots_pos _ _ f h) _

theorem pins_of_cwd {p : Slot} (h : (shape.proc p).cwd = some ip) :
    0 < shape.pointers ip :=
  Nat.add_pos_right _ (@countSlots_pos _ _ p (decide_eq_true h))

theorem Counted.pins_iff (h : shape.Counted sb held) :
    shape.Pins held ip ↔ 0 < shape.ref ip := by
  rw [h.refs, Pins, ← Multiset.count_pos]
  omega

theorem Counted.works (h : shape.Counted sb held) (hpin : shape.Pins held ip)
    (hvalid : shape.valid ip = true) : Works sb shape ip (shape.inum ip) := by
  have hpos := h.pins_iff.mp hpin
  exact ⟨hpos, hvalid, rfl, h.range ip hpos, fun jp hjp heq => h.alone jp ip hjp hpos heq⟩

end Shape

def FsState.Synced (sb : Superblock) (s : FsState) : Prop :=
  ∀ ip, 0 < (s.icache ip).ref → (s.icache ip).valid = true →
    (s.icache ip).di = tableOf sb s.disk (s.icache ip).inum

theorem FsState.Synced.inode {sb : Superblock} {s : FsState} (h : s.Synced sb) :
    (s.store sb).inode = tableOf sb s.disk := by
  funext i
  cases hcached : s.shape.cached i with
  | none => exact current_uncached hcached
  | some ip =>
      have hfound := firstSlot_some hcached
      simp only [decide_eq_true_eq] at hfound
      obtain ⟨href, hvalid, hinum⟩ := hfound
      refine (current_cached hcached).trans ((h ip href hvalid).trans ?_)
      rw [← hinum]
      rfl

theorem FsState.Synced.store {sb : Superblock} {s next : FsState} (h : s.Synced sb)
    (hnext : next.Synced sb) (hdisk : next.disk = s.disk) :
    next.store sb = s.store sb := by
  have hinode : (next.store sb).inode = (s.store sb).inode := by
    rw [h.inode, hnext.inode, hdisk]
  unfold FsState.store at hinode ⊢
  rw [hdisk]
  exact congrArg (fun inode => (⟨bitsOf sb s.disk, inode, dataOf sb s.disk⟩ : Store))
    hinode

def Store.InTable (sb : Superblock) (st : Store) : Prop :=
  ∀ d, st.Allocated sb d → (st.inode d).type = T_DIR →
    ∀ k, (st.entry d k).inum.toNat < sb.ninodes

/-- The state of the file system while a call holds the references `held`. -/
structure Sound (sb : Superblock) (s : FsState) (held : Multiset InodePtr) : Prop where
  counted : s.shape.Counted sb held
  synced : s.Synced sb
  owned : (s.store sb).Owned sb
  mapped : (s.store sb).Mapped sb
  inTable : (s.store sb).InTable sb
  allocated : ∀ ip, 0 < (s.icache ip).ref → (s.icache ip).valid = true →
    (s.store sb).Allocated sb (s.icache ip).inum
  plain : ∀ f ip, (s.ftable f).opens ip → (s.ftable f).writable = true →
    ((s.store sb).inode (s.icache ip).inum).type ≠ T_DIR

structure Keeps (kept : Multiset InodePtr) (s next : FsState) : Prop where
  ftable : next.ftable = s.ftable
  proc : next.proc = s.proc
  inum : ∀ ip, s.shape.Pins kept ip → (next.icache ip).inum = (s.icache ip).inum
  valid : ∀ ip, s.shape.Pins kept ip → (s.icache ip).valid = true →
    (next.icache ip).valid = true

namespace Keeps

variable {kept kept' : Multiset InodePtr} {s middle next : FsState} {ip : InodePtr}

theorem pointers (h : Keeps kept s next) : next.shape.pointers = s.shape.pointers := by
  have hdef : ∀ s : FsState, s.shape.pointers = fun ip =>
      (countSlots fun f => (s.ftable f).opens ip) +
        countSlots fun p => (s.proc p).cwd = some ip := fun _ => rfl
  rw [hdef, hdef, h.ftable, h.proc]

theorem pins (h : Keeps kept s next) (hpin : s.shape.Pins kept' ip) :
    next.shape.Pins kept' ip := by
  unfold Shape.Pins
  rw [h.pointers]
  exact hpin

theorem mono (h : Keeps kept s next) (hsub : kept' ⊆ kept) : Keeps kept' s next where
  ftable := h.ftable
  proc := h.proc
  inum ip hpin := h.inum ip (hpin.imp_right (hsub ·))
  valid ip hpin := h.valid ip (hpin.imp_right (hsub ·))

theorem trans (hfirst : Keeps kept s middle) (hsecond : Keeps kept middle next) :
    Keeps kept s next where
  ftable := hsecond.ftable.trans hfirst.ftable
  proc := hsecond.proc.trans hfirst.proc
  inum ip hpin := (hsecond.inum ip (hfirst.pins hpin)).trans (hfirst.inum ip hpin)
  valid ip hpin hvalid :=
    hsecond.valid ip (hfirst.pins hpin) (hfirst.valid ip hpin hvalid)

theorem refl : Keeps kept s s := ⟨rfl, rfl, fun _ _ => rfl, fun _ _ h => h⟩

end Keeps

/-- The state after a part of a call that ends with the references `held` and the
locks `locked`; those in `kept` were never given up. -/
structure After (sb : Superblock) (kept held : Multiset InodePtr)
    (locked : InodePtr → Bool) (s next : FsState) : Prop where
  sound : Sound sb next held
  keeps : Keeps kept s next
  locked : next.shape.locked = locked

namespace After

variable {sb : Superblock} {kept kept' held held' : Multiset InodePtr}
variable {locked locked' : InodePtr → Bool} {s middle next : FsState}

theorem mono (h : After sb kept held locked s next) (hsub : kept' ⊆ kept) :
    After sb kept' held locked s next := ⟨h.sound, h.keeps.mono hsub, h.locked⟩

theorem trans (hfirst : After sb kept held locked s middle)
    (hsecond : After sb kept held' locked' middle next) :
    After sb kept held' locked' s next :=
  ⟨hsecond.sound, hfirst.keeps.trans hsecond.keeps, hsecond.locked⟩

end After

namespace Sound

variable {sb : Superblock} {s next : FsState} {held held' : Multiset InodePtr}
variable {ip : InodePtr} {i : Nat}

theorem works (h : Sound sb s held) (hpin : s.shape.Pins held ip)
    (hvalid : (s.icache ip).valid = true) :
    Works sb s.shape ip (s.icache ip).inum := h.counted.works hpin hvalid

theorem live (h : Sound sb s held) (hpin : s.shape.Pins held ip)
    (hvalid : (s.icache ip).valid = true) :
    (s.store sb).Allocated sb (s.icache ip).inum :=
  h.allocated ip (h.counted.pins_iff.mp hpin) hvalid

theorem table (h : Sound sb s held) : tableOf sb s.disk = (s.store sb).inode :=
  h.synced.inode.symm

theorem after (h : Sound sb s held) : After sb held held s.shape.locked s s :=
  ⟨h, .refl, rfl⟩

theorem memory (h : Sound sb s held) (hcounted : next.shape.Counted sb held')
    (hdisk : next.disk = s.disk) (hsynced : next.Synced sb)
    (hallocated : ∀ ip, 0 < (next.icache ip).ref → (next.icache ip).valid = true →
      (s.store sb).Allocated sb (next.icache ip).inum)
    (hplain : ∀ f ip, (next.ftable f).opens ip → (next.ftable f).writable = true →
      ((s.store sb).inode (next.icache ip).inum).type ≠ T_DIR) :
    Sound sb next held' := by
  have hstore := h.synced.store hsynced hdisk
  exact ⟨hcounted, hsynced, hstore ▸ h.owned, hstore ▸ h.mapped, hstore ▸ h.inTable,
    hstore ▸ hallocated, hstore ▸ hplain⟩

end Sound

end KernelThreads.Fs
