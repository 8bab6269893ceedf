import KernelThreads.Fs.Cache

namespace KernelThreads.Fs

open Lib Program

/-! References to inodes: `iget`, `idup`, `ilock`, `iunlock` and `iput`. -/

section Memory

variable {sb : Superblock} {s : FsState} {kept held held' : Multiset InodePtr}
variable {locked : InodePtr → Bool} {ip : InodePtr} {i : Nat} {allowed : FsStop → Prop}

theorem setNode_icache (s : FsState) (ip jp : InodePtr) (node : Inode) :
    (s.setNode ip node).icache jp = if jp = ip then node else s.icache jp :=
  setSlot_apply ..

theorem Sound.setNode (node : Inode) (h : Sound sb s held)
    (hlocked : Function.update s.shape.locked ip node.locked = locked)
    (href : node.ref = (s.shape.pointers ip + held'.count ip : Nat))
    (hothers : ∀ jp, jp ≠ ip → held'.count jp = held.count jp)
    (hlive : 0 < node.ref → node.inum < sb.ninodes ∧
      ∀ jp, jp ≠ ip → 0 < (s.icache jp).ref → (s.icache jp).inum ≠ node.inum)
    (hvalid : 0 < node.ref → node.valid = true →
      node.di = tableOf sb s.disk node.inum ∧ (s.store sb).Allocated sb node.inum)
    (hpin : s.shape.Pins kept ip → node.inum = (s.icache ip).inum ∧
      ((s.icache ip).valid = true → node.valid = true)) :
    After sb kept held' locked s (s.setNode ip node) := by
  have hat : ∀ jp, (s.setNode ip node).icache jp =
      if jp = ip then node else s.icache jp := fun jp => setNode_icache s ip jp node
  have hkeeps : Keeps kept s (s.setNode ip node) := by
    refine ⟨rfl, rfl, ?_, ?_⟩
    · intro jp hjp
      rw [hat]
      split
      next heq =>
        subst heq
        exact (hpin hjp).1
      next => rfl
    · intro jp hjp hval
      rw [hat]
      split
      next heq =>
        subst heq
        exact (hpin hjp).2 hval
      next => exact hval
  have hopens : ∀ f jp, ((s.setNode ip node).ftable f).opens jp →
      s.shape.Pins kept jp := fun f jp hf => .inl (Shape.pins_of_opens (f := f) hf)
  have hcounted : (s.setNode ip node).shape.Counted sb held' := by
    refine ⟨?_, ?_, ?_, h.counted.closed, h.counted.target, ?_⟩
    · intro jp
      rw [hkeeps.pointers]
      change ((s.setNode ip node).icache jp).ref = _
      rw [hat]
      split
      next heq =>
        subst heq
        exact href
      next hne =>
        rw [hothers jp hne]
        exact h.counted.refs jp
    · intro jp kp hjp hkp heq
      change 0 < ((s.setNode ip node).icache jp).ref at hjp
      change 0 < ((s.setNode ip node).icache kp).ref at hkp
      change ((s.setNode ip node).icache jp).inum =
        ((s.setNode ip node).icache kp).inum at heq
      rw [hat] at hjp hkp
      rw [hat, hat] at heq
      by_cases hj : jp = ip
      · by_cases hk : kp = ip
        · rw [hj, hk]
        · rw [if_pos hj] at hjp heq
          rw [if_neg hk] at hkp heq
          exact absurd heq.symm ((hlive hjp).2 kp hk hkp)
      · rw [if_neg hj] at hjp heq
        by_cases hk : kp = ip
        · rw [if_pos hk] at hkp heq
          exact absurd heq ((hlive hkp).2 jp hj hjp)
        · rw [if_neg hk] at hkp heq
          exact h.counted.alone jp kp hjp hkp heq
    · intro jp hjp
      change 0 < ((s.setNode ip node).icache jp).ref at hjp
      change ((s.setNode ip node).icache jp).inum < _
      rw [hat] at hjp ⊢
      split at hjp
      next heq =>
        rw [if_pos heq]
        exact (hlive hjp).1
      next hne =>
        rw [if_neg hne]
        exact h.counted.range jp hjp
    · intro f jp hf
      exact hkeeps.valid jp (hopens f jp hf) (h.counted.opened f jp hf)
  refine ⟨h.memory hcounted rfl ?_ ?_ ?_, hkeeps, ?_⟩
  · intro jp hjp hval
    change _ = tableOf sb s.disk _
    rw [hat] at hjp hval ⊢
    by_cases hj : jp = ip
    · rw [if_pos hj] at hjp hval ⊢
      exact (hvalid hjp hval).1
    · rw [if_neg hj] at hjp hval ⊢
      exact h.synced jp hjp hval
  · intro jp hjp hval
    rw [hat] at hjp hval ⊢
    by_cases hj : jp = ip
    · rw [if_pos hj] at hjp hval ⊢
      exact (hvalid hjp hval).2
    · rw [if_neg hj] at hjp hval ⊢
      exact h.allocated jp hjp hval
  · intro f jp hf hwritable
    rw [hkeeps.inum jp (hopens f jp hf)]
    exact h.plain f jp hf hwritable
  · rw [← hlocked]
    funext jp
    rw [Function.update_apply]
    change ((s.setNode ip node).icache jp).locked = _
    rw [hat]
    split <;> rfl

theorem Sound.recount (node : Inode) (h : Sound sb s held)
    (hlocked : Function.update s.shape.locked ip node.locked = locked)
    (hpos : 0 < (s.icache ip).ref) (hinum : node.inum = (s.icache ip).inum)
    (hvalid : node.valid = (s.icache ip).valid) (hdi : node.di = (s.icache ip).di)
    (href : node.ref = (s.shape.pointers ip + held'.count ip : Nat))
    (hothers : ∀ jp, jp ≠ ip → held'.count jp = held.count jp) :
    After sb kept held' locked s (s.setNode ip node) := by
  refine h.setNode node hlocked href hothers ?_ ?_ ?_
  · intro _
    rw [hinum]
    refine ⟨h.counted.range ip hpos, fun jp hne hjp heq => ?_⟩
    exact hne (h.counted.alone jp ip hjp hpos heq)
  · intro _ hval
    rw [hvalid] at hval
    rw [hdi, hinum]
    exact ⟨h.synced ip hpos hval, h.allocated ip hpos hval⟩
  · intro _
    exact ⟨hinum, fun hval => hvalid.trans hval⟩

theorem After.store {next : FsState}
    (hafter : After sb kept held' locked s next) (h : Sound sb s held)
    (hdisk : next.disk = s.disk) : next.store sb = s.store sb :=
  h.synced.store hafter.sound.synced hdisk

theorem count_other {jp : InodePtr} (hne : jp ≠ ip) :
    (ip ::ₘ held).count jp = held.count jp := Multiset.count_cons_of_ne hne held

theorem Sound.hold (h : Sound sb s held) (hpos : 0 < (s.icache ip).ref) :
    After sb held (ip ::ₘ held) s.shape.locked s
      (s.setNode ip { s.icache ip with ref := (s.icache ip).ref + 1 }) := by
  refine h.recount _ (Function.update_eq_self ..) hpos rfl rfl rfl ?_ fun jp hne =>
    count_other hne
  have href : (s.icache ip).ref = _ := h.counted.refs ip
  change (s.icache ip).ref + 1 = _
  rw [href, Multiset.count_cons_self]
  push_cast
  omega

theorem meets_iget (h : Sound sb s held) (hi : i < sb.ninodes) :
    Meets (iget i) (fun stop => stop = .igetNoInodes ∧ ∀ ip, s.shape.Pins held ip) s
      fun ip next =>
      After sb held (ip ::ₘ held) s.shape.locked s next ∧
        next.store sb = s.store sb ∧ (next.icache ip).inum = i := by
  refine Meets.bind_ok rfl ?_
  split
  next ip hfound =>
    have hentry := firstSlot_some hfound
    simp only [decide_eq_true_eq] at hentry
    have hafter := h.hold hentry.1
    refine Meets.bind_ok (putInode_run ..) (Meets.pure ⟨hafter, hafter.store h rfl, ?_⟩)
    rw [setNode_icache, if_pos rfl]
    exact hentry.2
  next hnone =>
    split
    next hfull =>
      refine Meets.throw ⟨rfl, fun ip => h.counted.pins_iff.mpr ?_⟩
      have hused := firstSlot_eq_none_iff.mp hfull ip
      simp only [decide_eq_false_iff_not] at hused
      have href : (s.icache ip).ref = _ := h.counted.refs ip
      change 0 < (s.icache ip).ref
      omega
    next ip hfree =>
      have hzero := firstSlot_some hfree
      simp only [decide_eq_true_eq] at hzero
      have href : (s.icache ip).ref = _ := h.counted.refs ip
      rw [hzero] at href
      have hpin : ¬s.shape.Pins held ip := by
        rw [h.counted.pins_iff]
        exact hzero.not_gt
      have hafter : After sb held (ip ::ₘ held) s.shape.locked s (s.setNode ip
          { s.icache ip with inum := i, ref := 1, valid := false }) := by
        refine h.setNode _ (Function.update_eq_self ..) ?_
          (fun jp hne => count_other hne) ?_ ?_ fun hp => absurd hp hpin
        · rw [Multiset.count_cons_self]
          push_cast at href ⊢
          omega
        · intro _
          refine ⟨hi, fun jp _ hjp heq => ?_⟩
          have hmiss := firstSlot_eq_none_iff.mp hnone jp
          simp only [decide_eq_false_iff_not] at hmiss
          exact hmiss ⟨hjp, heq⟩
        · intro _ hval
          cases hval
      refine Meets.bind_ok (putInode_run ..)
        (Meets.pure ⟨hafter, hafter.store h rfl, ?_⟩)
      rw [setNode_icache, if_pos rfl]

theorem meets_idup (h : Sound sb s held) (hpin : s.shape.Pins held ip) :
    Meets (idup ip) allowed s fun jp next =>
      jp = ip ∧ After sb held (ip ::ₘ held) s.shape.locked s next ∧
        next.store sb = s.store sb := by
  have hafter := h.hold (h.counted.pins_iff.mp hpin)
  refine Meets.bind_ok (getInode_run ..) ?_
  exact Meets.bind_ok (putInode_run ..) (Meets.pure ⟨rfl, hafter, hafter.store h rfl⟩)

theorem Sound.setLock (h : Sound sb s held) (hpin : s.shape.Pins held ip) (b : Bool) :
    After sb held held (Function.update s.shape.locked ip b) s
      (s.setNode ip { s.icache ip with locked := b }) :=
  h.recount _ rfl (h.counted.pins_iff.mp hpin) rfl rfl rfl (h.counted.refs ip)
    fun _ _ => rfl

theorem meets_acquiresleep (h : Sound sb s held) (hpin : s.shape.Pins held ip) :
    Meets (acquiresleep ip) (fun stop => stop = .deadlock ∧ (s.icache ip).locked = true) s
      fun _ next =>
        (s.icache ip).locked = false ∧
        next = s.setNode ip { s.icache ip with locked := true } ∧
        After sb held held (Function.update s.shape.locked ip true) s next ∧
          next.store sb = s.store sb := by
  refine Meets.bind_ok (getInode_run ..) ?_
  split
  next htaken => exact Meets.throw ⟨rfl, htaken⟩
  next hfree =>
    have hafter := h.setLock hpin true
    refine Meets.of_ok (putInode_run ..) ⟨?_, rfl, hafter, hafter.store h rfl⟩
    simpa using hfree

theorem meets_releasesleep (h : Sound sb s held) (hpin : s.shape.Pins held ip) :
    Meets (releasesleep ip) allowed s fun _ next =>
      next = s.setNode ip { s.icache ip with locked := false } ∧
        After sb held held (Function.update s.shape.locked ip false) s next ∧
          next.store sb = s.store sb := by
  have hafter := h.setLock hpin false
  refine Meets.bind_ok (getInode_run ..) ?_
  exact Meets.of_ok (putInode_run ..) ⟨rfl, hafter, hafter.store h rfl⟩

theorem meets_iunlock (h : Sound sb s held) (hpin : s.shape.Pins held ip) :
    Meets (iunlock ip) (fun stop => stop = .iunlock ∧ (s.icache ip).locked = false) s
      fun _ next =>
        next = s.setNode ip { s.icache ip with locked := false } ∧
        After sb held held (Function.update s.shape.locked ip false) s next ∧
          next.store sb = s.store sb := by
  have hpos : 0 < (s.icache ip).ref := h.counted.pins_iff.mp hpin
  refine Meets.bind_ok (getInode_run ..) ?_
  split
  next hcond =>
    rw [decide_eq_false (by omega), Bool.or_false] at hcond
    exact Meets.throw ⟨rfl, by simpa using hcond⟩
  · exact meets_releasesleep h hpin

theorem meets_fillInode (h : Sound sb s held) (hpin : s.shape.Pins held ip) :
    Meets (fillInode sb ip) (fun stop => stop = .noType ∧
        ¬(s.store sb).Allocated sb (s.icache ip).inum) s fun _ next =>
      After sb held held s.shape.locked s next ∧ next.store sb = s.store sb ∧
        (next.icache ip).valid = true := by
  have hpos : 0 < (s.icache ip).ref := h.counted.pins_iff.mp hpin
  have hrange : (s.icache ip).inum < sb.ninodes := h.counted.range ip hpos
  refine Meets.bind_ok (getInode_run ..) ?_
  split
  next hvalid => exact Meets.pure ⟨h.after, rfl, hvalid⟩
  next hvalid =>
    refine Meets.bind_ok (bread_run ..) ?_
    refine Meets.bind_ok (putInode_run ..) ?_
    rw [← tableOf_of_lt hrange]
    split
    next htype =>
      refine Meets.throw ⟨rfl, fun hlive => hlive.2 ?_⟩
      rw [← h.table]
      exact htype
    next htype =>
      have hafter : After sb held held s.shape.locked s (s.setNode ip
          { s.icache ip with
            di := tableOf sb s.disk (s.icache ip).inum, valid := true }) := by
        refine h.setNode _ (Function.update_eq_self ..) (h.counted.refs ip)
          (fun _ _ => rfl) ?_ ?_ ?_
        · intro _
          refine ⟨hrange, fun jp hne hjp heq => ?_⟩
          exact hne (h.counted.alone jp ip hjp hpos heq)
        · intro _ _
          refine ⟨rfl, hrange, ?_⟩
          rw [← h.table]
          exact htype
        · intro _
          exact ⟨rfl, fun _ => rfl⟩
      refine Meets.pure ⟨hafter, hafter.store h rfl, ?_⟩
      rw [setNode_icache, if_pos rfl]

theorem meets_ilock (h : Sound sb s held) (hpin : s.shape.Pins held ip) :
    Meets (ilock sb ip) (fun stop => (stop = .deadlock ∧ (s.icache ip).locked = true) ∨
        stop = .noType ∧ ¬(s.store sb).Allocated sb (s.icache ip).inum) s
      fun _ next =>
        After sb held held (Function.update s.shape.locked ip true) s next ∧
          next.store sb = s.store sb ∧ (next.icache ip).valid = true ∧
            (s.icache ip).locked = false := by
  have hpos : 0 < (s.icache ip).ref := h.counted.pins_iff.mp hpin
  refine Meets.bind_ok (getInode_run ..) ?_
  rw [if_neg (by omega)]
  refine Meets.bind ((meets_acquiresleep h hpin).mono (fun _ => .inl) fun _ _ => id) ?_
  rintro _ taken ⟨hfree, -, htaken, hstore⟩
  have hinum : (taken.icache ip).inum = (s.icache ip).inum := htaken.keeps.inum ip hpin
  have hfill := meets_fillInode htaken.sound (htaken.keeps.pins hpin)
  rw [hstore, hinum] at hfill
  refine hfill.mono (fun _ => .inr) ?_
  intro _ next ⟨hafter, hsame, hvalid⟩
  rw [htaken.locked] at hafter
  exact ⟨htaken.trans hafter, hsame, hvalid, hfree⟩

end Memory

def FsState.Stays (sb : Superblock) (s : FsState) (rest : Multiset InodePtr) (ip : InodePtr) :
    Prop :=
  ((s.store sb).inode (s.icache ip).inum).nlink ≠ 0 ∨ s.shape.Pins rest ip

section Iput

variable {sb : Superblock} {s : FsState} {rest : Multiset InodePtr} {ip : InodePtr}

theorem mem_pins {shape : Shape} : shape.Pins (ip ::ₘ rest) ip :=
  .inr (Multiset.mem_cons_self ip rest)

theorem dropInode_run (h : Sound sb s (ip ::ₘ rest)) (hstays : s.Stays sb rest ip) :
    dropInode sb ip s = .ok ((), s) := by
  have hcond : ¬((s.icache ip).valid = true ∧ (s.icache ip).di.nlink = 0 ∧
      (s.icache ip).ref = 1) := by
    rintro ⟨hvalid, hnlink, hone⟩
    cases hstays with
    | inl hlinks =>
        rw [(h.works mem_pins hvalid).current] at hlinks
        exact hlinks hnlink
    | inr hpin =>
        have href : (s.icache ip).ref = _ := h.counted.refs ip
        rw [Multiset.count_cons_self, hone] at href
        rw [Shape.Pins, ← Multiset.count_pos] at hpin
        omega
  unfold dropInode
  rw [bind_of_ok (getInode_run ..), if_neg hcond]
  rfl

theorem FsState.Stays.setLock {b : Bool} (h : s.Stays sb rest ip)
    (hstore : (s.setNode ip { s.icache ip with locked := b }).store sb = s.store sb) :
    (s.setNode ip { s.icache ip with locked := b }).Stays sb rest ip := by
  unfold Stays
  rw [hstore, setNode_icache, if_pos rfl]
  exact h

theorem meets_iput (h : Sound sb s (ip ::ₘ rest)) (hstays : s.Stays sb rest ip) :
    Meets (iput sb ip) (fun stop => stop = .deadlock ∧ (s.icache ip).locked = true) s
      fun _ next =>
        After sb rest rest s.shape.locked s next ∧ next.store sb = s.store sb := by
  refine Meets.bind (meets_acquiresleep h mem_pins) ?_
  rintro _ taken ⟨hfree, heq, htaken, hstore⟩
  have hstill : taken.Stays sb rest ip := by
    subst heq
    exact hstays.setLock hstore
  refine Meets.bind_ok (dropInode_run htaken.sound hstill) ?_
  refine Meets.bind (meets_releasesleep htaken.sound mem_pins) ?_
  rintro _ released ⟨-, hreleased, hstore'⟩
  refine Meets.bind_ok (getInode_run ..) ?_
  have hpos : 0 < (released.icache ip).ref :=
    hreleased.sound.counted.pins_iff.mp mem_pins
  have hcount : After sb rest rest released.shape.locked released
      (released.setNode ip
        { released.icache ip with ref := (released.icache ip).ref - 1 }) := by
    refine hreleased.sound.recount _ (Function.update_eq_self ..) hpos rfl rfl rfl ?_
      fun jp hne => (count_other hne).symm
    have href : (released.icache ip).ref = _ := hreleased.sound.counted.refs ip
    change (released.icache ip).ref - 1 = _
    rw [href, Multiset.count_cons_self]
    push_cast
    omega
  have hlocked : released.shape.locked = s.shape.locked := by
    rw [hreleased.locked, htaken.locked, Function.update_idem]
    have hself : s.shape.locked ip = false := hfree
    rw [← hself, Function.update_eq_self]
  have hsub : rest ⊆ ip ::ₘ rest := Multiset.subset_cons ..
  refine Meets.of_ok (putInode_run ..) ⟨?_, ?_⟩
  · rw [← hlocked]
    exact (htaken.mono hsub).trans ((hreleased.mono hsub).trans hcount)
  · exact (hcount.store hreleased.sound rfl).trans (hstore'.trans hstore)

theorem meets_iunlockput (h : Sound sb s (ip ::ₘ rest)) (hstays : s.Stays sb rest ip) :
    Meets (iunlockput sb ip) (fun stop => stop = .iunlock ∧ (s.icache ip).locked = false) s
      fun _ next =>
        After sb rest rest (Function.update s.shape.locked ip false) s next ∧
          next.store sb = s.store sb := by
  refine Meets.bind (meets_iunlock h mem_pins) ?_
  rintro _ unlocked ⟨heq, hunlocked, hstore⟩
  have hopen : (unlocked.icache ip).locked = false := by
    rw [heq, setNode_icache, if_pos rfl]
  have hstill : unlocked.Stays sb rest ip := by
    subst heq
    exact hstays.setLock hstore
  refine (meets_iput hunlocked.sound hstill).mono (fun stop hstop => ?_) ?_
  · rw [hopen] at hstop
    cases hstop.2
  · intro _ next ⟨hafter, hsame⟩
    rw [hunlocked.locked] at hafter
    exact ⟨(hunlocked.mono (Multiset.subset_cons ..)).trans hafter, hsame.trans hstore⟩

end Iput

end KernelThreads.Fs
