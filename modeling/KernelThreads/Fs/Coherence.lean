import KernelThreads.Fs.Bcache

namespace KernelThreads.Fs

open Lib Sync

variable {Thread Data : Type}

/-! What holds in the buffer cache between any two steps. -/

inductive Stage where
  /-- Free, or just locked. -/
  | settled
  /-- Being read from the disk. -/
  | fetching
  /-- In use by the process that has returned from `bread` with it. -/
  | used
  deriving DecidableEq, Repr

namespace BufPc

def refers : BufPc → BufId → Bool
  | .waiting c _, b | .releasing c, b => c = b
  | _, _ => false

def stage : BufPc → BufId → Stage
  | .locked c _, b => if c = b then .settled else .used
  | .reading c _, b => if c = b then .fetching else .used
  | _, _ => .used

def about : BufPc → BufId → Prop
  | .idle, _ => False
  | .waiting c _, b | .locked c _, b | .reading c _, b | .writing c, b
  | .releasing c, b => c = b

theorem not_about {pc : BufPc} {b : BufId} (h : ¬ pc.about b) :
    pc.refers b = false ∧ pc.stage b = .used := by
  cases pc <;> simp_all [about, refers, stage]

end BufPc

namespace Bcache

def uses [DecidableEq Thread] (pc : BufPc) (holder : Option Thread) (t : Thread)
    (b : BufId) : Nat :=
  (pc.refers b).toNat + if holder = some t then 1 else 0

def stage (s : Bcache Thread Data) (b : BufId) : Stage :=
  match s.holder b with
  | none => .settled
  | some t => (s.pc t).stage b

def Content (s : Bcache Thread Data) (b : BufId) : Prop :=
  match s.stage b with
  | .settled =>
      s.left (s.buf b).blockno = if (s.buf b).valid then some (s.buf b).data else none
  | .fetching => (s.buf b).valid = false ∧ s.left (s.buf b).blockno = none
  | .used => (s.buf b).valid = true

def Place (s : Bcache Thread Data) (t : Thread) : Prop :=
  match s.pc t with
  | .waiting b blockno => (s.buf b).blockno = blockno
  | .locked b blockno | .reading b blockno =>
      s.holder b = some t ∧ (s.buf b).blockno = blockno
  | .writing b => s.holder b = some t
  | _ => True

theorem Place.mono {s next : Bcache Thread Data} {t : Thread} (h : s.Place t)
    (hpc : next.pc t = s.pc t)
    (hholder : ∀ c, s.holder c = some t → next.holder c = some t)
    (hname : ∀ c, s.holder c = some t ∨ (s.pc t).refers c = true →
      (next.buf c).blockno = (s.buf c).blockno) : next.Place t := by
  unfold Place at h ⊢
  rw [hpc]
  cases hat : s.pc t with
  | waiting c blockno =>
      rw [hat] at h hname
      exact (hname c (.inr (by simp [BufPc.refers]))).trans h
  | locked c blockno | reading c blockno =>
      rw [hat] at h
      exact ⟨hholder c h.1, (hname c (.inl h.1)).trans h.2⟩
  | writing c =>
      rw [hat] at h
      exact hholder c h
  | idle => trivial
  | releasing c => trivial

def lockOf (pid : Thread → Int) : Option Thread → SleepLock
  | none => {}
  | some t => { locked := true, pid := pid t }

def Ordered (l : DList BufId) : Prop :=
  ∃ order : List BufId, l.Holds order ∧ order.Nodup ∧ ∀ b, b ∈ order

structure Coherent [DecidableEq Thread] (pid : Thread → Int) (s : Bcache Thread Data) :
    Prop where
  order : Ordered s.links
  unique : ∀ b c blockno, s.Cached blockno b → s.Cached blockno c → b = c
  counted : ∃ refs : BufId → List Thread, ∀ b, (s.buf b).refcnt = (refs b).length ∧
    ∀ t, (refs b).count t = uses (s.pc t) (s.holder b) t b
  used : ∀ b, (s.buf b).refcnt ≠ 0 → (s.buf b).dev = ROOTDEV
  lock : ∀ b, (s.buf b).lock = lockOf pid (s.holder b)
  place : ∀ t, s.Place t
  content : ∀ b, (s.buf b).dev = ROOTDEV → s.Content b
  dirty : ∀ b, (s.buf b).dirty = true → (s.buf b).valid = true
  cached : ∀ blockno, s.left blockno ≠ none → ∃ b, s.Cached blockno b

theorem ordered_binit : Ordered ((List.finRange NBUF).foldl DList.push DList.empty) := by
  have hpush : ∀ (bs order : List BufId) (l : DList BufId), l.Holds order →
      (bs ++ order).Nodup → (bs.foldl DList.push l).Holds (bs.reverse ++ order) := by
    intro bs
    induction bs with
    | nil => exact fun order l h _ => h
    | cons b bs ih =>
        intro order l h hnodup
        have hsplit := List.nodup_cons.mp hnodup
        have hb : b ∉ order := fun hb => hsplit.1 (List.mem_append_right _ hb)
        have hlater : (bs ++ b :: order).Nodup := List.nodup_middle.mpr hnodup
        have hrest := ih (b :: order) (l.push b)
          (h.push (List.nodup_append.mp hsplit.2).2.1 hb) hlater
        rw [List.reverse_cons, List.append_assoc]
        exact hrest
  refine ⟨(List.finRange NBUF).reverse ++ [], ?_, ?_, ?_⟩
  · exact hpush _ [] _ DList.holds_empty (by simpa using List.nodup_finRange NBUF)
  · simpa using List.nodup_finRange NBUF
  · intro b
    simp

theorem Ordered.front {l : DList BufId} (h : Ordered l) (b : BufId) :
    Ordered ((l.unlink b).push b) := by
  obtain ⟨order, hholds, hnodup, hall⟩ := h
  obtain ⟨us, vs, rfl⟩ := List.append_of_mem (hall b)
  obtain ⟨hb, hrest⟩ := List.nodup_middle.mp hnodup |> List.nodup_cons.mp
  refine ⟨b :: (us ++ vs), (hholds.unlink hnodup).push hrest hb,
    List.nodup_middle.mp hnodup, fun c => ?_⟩
  have hc := hall c
  simp only [List.mem_append, List.mem_cons] at hc ⊢
  tauto

theorem length_order {order : List BufId} (hnodup : order.Nodup)
    (hall : ∀ b, b ∈ order) : order.length = NBUF := by
  have hperm : order.Perm (List.finRange NBUF) :=
    (List.perm_ext_iff_of_nodup hnodup (List.nodup_finRange NBUF)).mpr fun b => by
      simp [hall b]
  rw [hperm.length_eq, List.length_finRange]

theorem Ordered.search {l : DList BufId} (h : Ordered l) (test : BufId → Bool) :
    ∀ found, DList.search l.next test (NBUF + 1) (l.next none) = found ∨
        DList.search l.prev test (NBUF + 1) (l.prev none) = found →
      (∃ b, found = .found b ∧ test b = true) ∨
        (found = .missing ∧ ∀ b, test b = false) := by
  obtain ⟨order, hholds, hnodup, hall⟩ := h
  have hfirst : ∀ xs : List BufId, (∀ b, b ∈ xs) →
      (∃ b, DList.firstOf test xs = .found b ∧ test b = true) ∨
        (DList.firstOf test xs = .missing ∧ ∀ b, test b = false) := by
    intro xs hxs
    unfold DList.firstOf
    cases hfind : xs.find? test with
    | none =>
        refine .inr ⟨rfl, fun b => ?_⟩
        simpa using List.find?_eq_none.mp hfind b (hxs b)
    | some b => exact .inl ⟨b, rfl, List.find?_some hfind⟩
  rintro found (h | h)
  · rw [← h, ← length_order hnodup hall, hholds.search_next]
    exact hfirst order hall
  · rw [← h, ← length_order hnodup hall, hholds.search_prev]
    exact hfirst order.reverse fun b => List.mem_reverse.mpr (hall b)

section Edits

variable [DecidableEq Thread] {pid : Thread → Int} {s next : Bcache Thread Data}

theorem exists_recount (l : List Thread) (t : Thread) (length count : Nat)
    (h : length + l.count t = l.length + count) :
    ∃ l' : List Thread, length = l'.length ∧ l'.count t = count ∧
      ∀ u, u ≠ t → l'.count u = l.count u := by
  refine ⟨List.replicate count t ++ l.filter (· ≠ t), ?_, ?_, fun u hu => ?_⟩
  · have hothers : l.length = l.count t + (l.filter (· ≠ t)).length := by
      rw [List.count_eq_length_filter, List.length_eq_length_filter_add (· == t)]
      simp only [decide_not]
      rfl
    rw [List.length_append, List.length_replicate]
    omega
  · rw [List.count_append, List.count_replicate_self, List.count_eq_zero_of_not_mem]
    · rfl
    · simp
  · rw [List.count_append, List.count_filter (by simpa using hu),
      List.count_replicate, if_neg (by simpa using hu.symm), zero_add]

structure Edits (s next : Bcache Thread Data) (t : Thread)
    (b : BufId) (pc : BufPc) (buf : Buf Data) (holder : Option Thread) : Prop where
  links : next.links = s.links
  pcs : next.pc = Function.update s.pc t pc
  bufs : next.buf = Function.update s.buf b buf
  holders : next.holder = Function.update s.holder b holder
  left : ∀ blockno, blockno ≠ (s.buf b).blockno → next.left blockno = s.left blockno
  dev : (s.buf b).dev = ROOTDEV
  name : buf.dev = (s.buf b).dev ∧ buf.blockno = (s.buf b).blockno
  before : ∀ c, (s.pc t).about c → c = b
  after : ∀ c, pc.about c → c = b
  held : ∀ u, u ≠ t → (holder = some u ↔ s.holder b = some u)

namespace Edits

variable {t : Thread} {b : BufId} {pc : BufPc} {buf : Buf Data} {holder : Option Thread}

theorem cached (h : Edits s next t b pc buf holder) (blockno : BlockNo) (c : BufId) :
    next.Cached blockno c ↔ s.Cached blockno c := by
  unfold Cached
  rw [h.bufs]
  by_cases hc : c = b
  · subst hc
    rw [Function.update_self, h.name.1, h.name.2]
  · rw [Function.update_of_ne hc]

theorem same_name (h : Edits s next t b pc buf holder) (c : BufId) :
    (next.buf c).dev = (s.buf c).dev ∧ (next.buf c).blockno = (s.buf c).blockno := by
  rw [h.bufs]
  by_cases hc : c = b
  · subst hc
    rw [Function.update_self]
    exact h.name
  · rw [Function.update_of_ne hc]
    exact ⟨rfl, rfl⟩

theorem stage (h : Edits s next t b pc buf holder) {c : BufId} (hc : c ≠ b) :
    next.stage c = s.stage c := by
  unfold Bcache.stage
  rw [h.holders, Function.update_of_ne hc, h.pcs]
  cases s.holder c with
  | none => rfl
  | some u =>
      change (Function.update s.pc t pc u).stage c = (s.pc u).stage c
      by_cases hu : u = t
      · subst hu
        rw [Function.update_self, (BufPc.not_about fun hab => hc (h.after c hab)).2,
          (BufPc.not_about fun hab => hc (h.before c hab)).2]
      · rw [Function.update_of_ne hu]

theorem uses (h : Edits s next t b pc buf holder) {u : Thread} {c : BufId}
    (hother : u ≠ t ∨ c ≠ b) :
    uses (next.pc u) (next.holder c) u c = Bcache.uses (s.pc u) (s.holder c) u c := by
  unfold Bcache.uses
  rw [h.pcs, h.holders]
  by_cases hu : u = t
  · subst hu
    have hc : c ≠ b := hother.resolve_left (by simp)
    rw [Function.update_self, Function.update_of_ne hc,
      (BufPc.not_about fun hab => hc (h.after c hab)).1,
      (BufPc.not_about fun hab => hc (h.before c hab)).1]
  · rw [Function.update_of_ne hu]
    by_cases hc : c = b
    · subst hc
      rw [Function.update_self]
      simp only [h.held u hu]
    · rw [Function.update_of_ne hc]

theorem place (h : Edits s next t b pc buf holder) {u : Thread} (hu : u ≠ t)
    (hplace : s.Place u) : next.Place u := by
  refine hplace.mono ?_ ?_ fun c _ => (h.same_name c).2
  · rw [h.pcs, Function.update_of_ne hu]
  · intro c hc
    rw [h.holders]
    by_cases hcb : c = b
    · subst hcb
      rw [Function.update_self]
      exact (h.held u hu).mpr hc
    · rw [Function.update_of_ne hcb]
      exact hc

theorem content (h : Edits s next t b pc buf holder) (hs : s.Coherent pid)
    {c : BufId} (hc : c ≠ b) (hdev : (s.buf c).dev = ROOTDEV) : next.Content c := by
  have hblock : (s.buf c).blockno ≠ (s.buf b).blockno := fun heq =>
    hc (hs.unique c b _ ⟨hdev, rfl⟩ ⟨h.dev, heq.symm⟩)
  have hold := hs.content c hdev
  unfold Content at hold ⊢
  rw [h.stage hc, h.bufs, Function.update_of_ne hc, h.left _ hblock]
  exact hold

theorem coherent (h : Edits s next t b pc buf holder) (hs : s.Coherent pid)
    (hcount : buf.refcnt + Bcache.uses (s.pc t) (s.holder b) t b =
      (s.buf b).refcnt + Bcache.uses pc holder t b)
    (hlock : buf.lock = lockOf pid holder) (hplace : next.Place t)
    (hcontent : next.Content b) (hdirty : buf.dirty = true → buf.valid = true) :
    next.Coherent pid where
  order := h.links ▸ hs.order
  unique c d blockno hc hd :=
    hs.unique c d blockno ((h.cached blockno c).mp hc) ((h.cached blockno d).mp hd)
  counted := by
    obtain ⟨refs, hrefs⟩ := hs.counted
    have hchange : buf.refcnt + (refs b).count t =
        (refs b).length + Bcache.uses pc holder t b := by
      rw [(hrefs b).2 t, ← (hrefs b).1]
      exact hcount
    obtain ⟨l, hlength, ht, hothers⟩ := exists_recount (refs b) t _ _ hchange
    refine ⟨Function.update refs b l, fun c => ?_⟩
    by_cases hc : c = b
    · subst hc
      rw [h.bufs, Function.update_self, Function.update_self]
      refine ⟨hlength, fun u => ?_⟩
      by_cases hu : u = t
      · subst hu
        rw [ht, h.pcs, h.holders, Function.update_self, Function.update_self]
      · rw [hothers u hu, (hrefs c).2 u, h.uses (.inl hu)]
    · rw [h.bufs, Function.update_of_ne hc, Function.update_of_ne hc]
      exact ⟨(hrefs c).1, fun u => by rw [(hrefs c).2 u, h.uses (.inr hc)]⟩
  used c hc := by
    by_cases hcb : c = b
    · rw [(h.same_name c).1, hcb]
      exact h.dev
    · rw [h.bufs, Function.update_of_ne hcb] at hc ⊢
      exact hs.used c hc
  lock c := by
    rw [h.bufs, h.holders]
    by_cases hc : c = b
    · subst hc
      rw [Function.update_self, Function.update_self, hlock]
    · rw [Function.update_of_ne hc, Function.update_of_ne hc, hs.lock c]
  place u := by
    by_cases hu : u = t
    · exact hu ▸ hplace
    · exact h.place hu (hs.place u)
  content c hdev := by
    by_cases hc : c = b
    · exact hc ▸ hcontent
    · rw [(h.same_name c).1] at hdev
      exact h.content hs hc hdev
  dirty c hc := by
    rw [h.bufs] at hc ⊢
    by_cases hcb : c = b
    · subst hcb
      rw [Function.update_self] at hc ⊢
      exact hdirty hc
    · rw [Function.update_of_ne hcb] at hc ⊢
      exact hs.dirty c hc
  cached blockno hleft := by
    by_cases hblock : blockno = (s.buf b).blockno
    · exact ⟨b, (h.cached _ b).mpr ⟨h.dev, hblock.symm⟩⟩
    · rw [h.left blockno hblock] at hleft
      obtain ⟨c, hc⟩ := hs.cached blockno hleft
      exact ⟨c, (h.cached _ c).mpr hc⟩

theorem content_self (h : Edits s next t b pc buf holder) (hs : s.Coherent pid)
    (hholder : holder = s.holder b) (hstage : pc.stage b = (s.pc t).stage b)
    (hvalid : buf.valid = (s.buf b).valid) (hdata : buf.data = (s.buf b).data)
    (hleft : next.left = s.left) : next.Content b := by
  have hsame : next.stage b = s.stage b := by
    unfold Bcache.stage
    rw [h.holders, Function.update_self, hholder, h.pcs]
    cases s.holder b with
    | none => rfl
    | some u =>
        change (Function.update s.pc t pc u).stage b = (s.pc u).stage b
        by_cases hu : u = t
        · subst hu
          rw [Function.update_self, hstage]
        · rw [Function.update_of_ne hu]
  have hold := hs.content b h.dev
  unfold Content at hold ⊢
  rw [hsame, h.bufs, Function.update_self, hleft, hvalid, hdata, h.name.2]
  exact hold

theorem content_held (h : Edits s next t b pc buf holder) (hholder : holder = some t)
    (hstage : pc.stage b = .used) (hvalid : buf.valid = true) : next.Content b := by
  have hused : next.stage b = .used := by
    unfold Bcache.stage
    rw [h.holders, Function.update_self, hholder, h.pcs]
    change (Function.update s.pc t pc t).stage b = .used
    rw [Function.update_self, hstage]
  unfold Content
  rw [hused, h.bufs, Function.update_self]
  exact hvalid

end Edits

namespace Coherent

variable {t : Thread} {b : BufId} {blockno : BlockNo}

theorem in_use (hs : s.Coherent pid) (h : uses (s.pc t) (s.holder b) t b ≠ 0) :
    (s.buf b).refcnt ≠ 0 := by
  obtain ⟨refs, hrefs⟩ := hs.counted
  intro hzero
  have hnil : refs b = [] := List.length_eq_zero_iff.mp ((hrefs b).1.symm.trans hzero)
  apply h
  rw [← (hrefs b).2 t, hnil, List.count_nil]

theorem held_dev (hs : s.Coherent pid) (h : s.holder b = some t) :
    (s.buf b).dev = ROOTDEV :=
  hs.used b (hs.in_use (t := t) (by simp [uses, h]))

theorem refers_dev (hs : s.Coherent pid) (h : (s.pc t).refers b = true) :
    (s.buf b).dev = ROOTDEV :=
  hs.used b (hs.in_use (t := t) (by simp [uses, h]))

theorem idle_buffer (hs : s.Coherent pid) (h : (s.buf b).refcnt = 0) :
    s.holder b = none ∧ ∀ t, (s.pc t).refers b = false := by
  constructor
  · cases hholder : s.holder b with
    | none => rfl
    | some t => exact absurd h (hs.in_use (t := t) (by simp [uses, hholder]))
  · intro t
    by_contra hrefers
    exact absurd h (hs.in_use (t := t) (by simp [uses, hrefers]))

theorem rename (hs : s.Coherent pid) (hunused : s.Unused b)
    (hmissing : ∀ c, ¬ s.Cached blockno c) : (s.rename b blockno).Coherent pid := by
  obtain ⟨hfree, hrefers⟩ := hs.idle_buffer hunused.1
  have hself : (s.rename b blockno).buf b = { s.buf b with
      dev := ROOTDEV, blockno := blockno, valid := false, dirty := false } :=
    Function.update_self ..
  have hother : ∀ c, c ≠ b → (s.rename b blockno).buf c = s.buf c :=
    fun c hc => Function.update_of_ne hc ..
  have hcached : ∀ n c, c ≠ b → ((s.rename b blockno).Cached n c ↔ s.Cached n c) := by
    intro n c hc
    unfold Cached
    rw [hother c hc]
  -- The block that loses the buffer is in no other.
  have hleft : ∀ n, (s.rename b blockno).left n =
      if s.Cached n b then none else s.left n := by
    intro n
    unfold Bcache.rename Cached
    by_cases hdev : (s.buf b).dev = ROOTDEV
    · simp only [hdev, if_true, true_and, Function.update_apply, eq_comm]
    · simp only [hdev, if_false, false_and]
  refine ⟨hs.order, ?_, ?_, ?_, ?_, ?_, ?_, ?_, ?_⟩
  · have hnew : ∀ n c, c ≠ b → (s.rename b blockno).Cached n b →
        (s.rename b blockno).Cached n c → False := by
      intro n c hc hb hn
      have hn' := (hcached n c hc).mp hn
      have heq : blockno = n := by
        have := hb.2
        rwa [hself] at this
      exact hmissing c (heq ▸ hn')
    intro c d n hc hd
    by_cases hcb : c = b
    · by_cases hdb : d = b
      · rw [hcb, hdb]
      · exact (hnew n d hdb (hcb ▸ hc) hd).elim
    · by_cases hdb : d = b
      · exact (hnew n c hcb (hdb ▸ hd) hc).elim
      · exact hs.unique c d n ((hcached n c hcb).mp hc) ((hcached n d hdb).mp hd)
  · obtain ⟨refs, hrefs⟩ := hs.counted
    refine ⟨refs, fun c => ⟨?_, (hrefs c).2⟩⟩
    rw [← (hrefs c).1]
    by_cases hc : c = b
    · rw [hc, hself]
    · rw [hother c hc]
  · intro c hc
    by_cases hcb : c = b
    · rw [hcb, hself]
    · rw [hother c hcb] at hc ⊢
      exact hs.used c hc
  · intro c
    by_cases hcb : c = b
    · rw [hcb, hself]
      exact hs.lock b
    · rw [hother c hcb]
      exact hs.lock c
  · intro t
    refine (hs.place t).mono rfl (fun c hc => hc) fun c hc => ?_
    have hcb : c ≠ b := by
      rintro rfl
      simp [hfree, hrefers t] at hc
    rw [hother c hcb]
  · intro c hdev
    by_cases hcb : c = b
    · subst hcb
      have hnone : s.left blockno = none := by
        by_contra hne
        obtain ⟨c, hc⟩ := hs.cached blockno hne
        exact hmissing c hc
      have hstage : (s.rename c blockno).stage c = .settled := by
        unfold Bcache.stage
        change (match s.holder c with | none => Stage.settled | some t => (s.pc t).stage c) = _
        rw [hfree]
      unfold Content
      rw [hstage, hself, hleft, hnone]
      simp
    · rw [hother c hcb] at hdev
      have hnot : ¬ s.Cached (s.buf c).blockno b := fun h =>
        hcb (hs.unique c b _ ⟨hdev, rfl⟩ h)
      have hold := hs.content c hdev
      unfold Content at hold ⊢
      rw [hother c hcb, hleft, if_neg hnot]
      exact hold
  · intro c hc
    by_cases hcb : c = b
    · rw [hcb, hself] at hc
      cases hc
    · rw [hother c hcb] at hc ⊢
      exact hs.dirty c hc
  · intro n hn
    rw [hleft] at hn
    split at hn
    · contradiction
    next hnot =>
      obtain ⟨c, hc⟩ := hs.cached n hn
      have hcb : c ≠ b := fun h => hnot (h ▸ hc)
      exact ⟨c, (hcached n c hcb).mpr hc⟩

end Coherent

namespace Coherent

variable {t : Thread} {b : BufId} {blockno : BlockNo}

theorem panic (hs : s.Coherent pid) : s.panic.Coherent pid :=
  ⟨hs.order, hs.unique, hs.counted, hs.used, hs.lock, hs.place, hs.content, hs.dirty,
    hs.cached⟩

theorem ref (hs : s.Coherent pid) (hpc : s.pc t = .idle) (hcached : s.Cached blockno b) :
    (s.edit t (.waiting b blockno) b
      { s.buf b with refcnt := (s.buf b).refcnt + 1 }).Coherent pid := by
  have hedit : Edits s (s.edit t (.waiting b blockno) b
      { s.buf b with refcnt := (s.buf b).refcnt + 1 }) t b (.waiting b blockno)
      { s.buf b with refcnt := (s.buf b).refcnt + 1 } (s.holder b) :=
    { links := rfl
      pcs := rfl
      bufs := rfl
      holders := (Function.update_eq_self b s.holder).symm
      left := fun _ _ => rfl
      dev := hcached.1
      name := ⟨rfl, rfl⟩
      before := by simp [hpc, BufPc.about]
      after := fun c hc => hc.symm
      held := fun _ _ => Iff.rfl }
  refine hedit.coherent hs ?_ (hs.lock b) ?_ ?_ (hs.dirty b)
  · simp [uses, hpc, BufPc.refers, add_assoc]
  · simp [Place, edit, hcached.2]
  · exact hedit.content_self hs rfl (by simp [hpc, BufPc.stage]) rfl rfl rfl

theorem bget (hs : s.Coherent pid) (hpc : s.pc t = .idle) (blockno : BlockNo) :
    ∃ next, s.bget t blockno = some next ∧ next.Coherent pid ∧
      ∀ b, (next.buf b).dev ≠ (s.buf b).dev ∨ (next.buf b).blockno ≠ (s.buf b).blockno →
        s.Unused b := by
  unfold Bcache.bget
  rcases hs.order.search (fun b => s.Cached blockno b) _ (.inl rfl) with
    ⟨b, hfound, hb⟩ | ⟨hfound, hnone⟩
  · rw [hfound]
    refine ⟨_, rfl, hs.ref hpc (of_decide_eq_true hb), fun c hc => ?_⟩
    by_cases hcb : c = b
    · subst hcb
      simp [edit] at hc
    · simp [edit, Function.update_of_ne hcb] at hc
  · rw [hfound]
    have hmissing : ∀ c, ¬ s.Cached blockno c := fun c => of_decide_eq_false (hnone c)
    rcases hs.order.search (fun b => s.Unused b) _ (.inr rfl) with
      ⟨b, hfound', hb⟩ | ⟨hfound', -⟩
    · rw [hfound']
      have hunused : s.Unused b := of_decide_eq_true hb
      have hrenamed := hs.rename hunused hmissing
      have hzero : ((s.rename b blockno).buf b).refcnt = 0 := by
        simp [Bcache.rename, hunused.1]
      have hcached : (s.rename b blockno).Cached blockno b := by simp [Cached, Bcache.rename]
      have hnext := hrenamed.ref (t := t) hpc hcached
      rw [hzero] at hnext
      refine ⟨_, rfl, hnext, fun c hc => ?_⟩
      by_cases hcb : c = b
      · exact hcb ▸ hunused
      · simp [edit, Bcache.rename, Function.update_of_ne hcb] at hc
    · rw [hfound']
      exact ⟨_, rfl, hs.panic, fun c hc => by simp [Bcache.panic] at hc⟩

theorem acquiresleep (hs : s.Coherent pid) (hpc : s.pc t = .waiting b blockno)
    (h : s.acquiresleep pid t b blockno = some next) : next.Coherent pid := by
  unfold Bcache.acquiresleep at h
  split at h
  · contradiction
  next hlocked =>
    have hfree : s.holder b = none := by
      rw [hs.lock b] at hlocked
      cases hholder : s.holder b with
      | none => rfl
      | some u => simp [hholder, lockOf] at hlocked
    have hedit : Edits s next t b (.locked b blockno)
        { s.buf b with lock := { locked := true, pid := pid t } } (some t) := by
      cases h
      refine ⟨rfl, rfl, rfl, rfl, fun _ _ => rfl, ?_, ⟨rfl, rfl⟩, ?_, fun c hc => hc.symm, ?_⟩
      · exact hs.refers_dev (t := t) (by simp [hpc, BufPc.refers])
      · simp [hpc, BufPc.about, eq_comm]
      · simp [hfree, eq_comm]
    have hleft : next.left = s.left := by
      cases h
      rfl
    have hplace := hs.place t
    have hcontent := hs.content b hedit.dev
    simp only [Place, hpc] at hplace
    simp only [Content, stage, hfree] at hcontent
    refine hedit.coherent hs ?_ rfl ?_ ?_ (hs.dirty b)
    · simp [uses, hpc, hfree, BufPc.refers]
    · simp [Place, hedit.pcs, hedit.holders, hedit.bufs, hplace]
    · simpa [Content, stage, hedit.pcs, hedit.holders, hedit.bufs, BufPc.stage, hleft]
        using hcontent

theorem work (hs : s.Coherent pid) {pc : BufPc} {buf : Buf Data} (disk : BlockNo → Data)
    (log : Log) (hholder : s.holder b = some t) (hrefers : (s.pc t).refers b = false)
    (hbefore : ∀ c, (s.pc t).about c → c = b) (hafter : pc = .idle ∨ pc = .writing b)
    (hsame : buf = { s.buf b with valid := true, dirty := buf.dirty, data := buf.data }) :
    Coherent pid { s.edit t pc b buf with disk := disk, log := log } := by
  have hedit : Edits s { s.edit t pc b buf with disk := disk, log := log } t b pc buf
      (s.holder b) := by
    refine ⟨rfl, rfl, rfl, (Function.update_eq_self b s.holder).symm, fun _ _ => rfl,
      hs.held_dev hholder, ?_, hbefore, ?_, fun _ _ => Iff.rfl⟩
    · rw [hsame]
      exact ⟨rfl, rfl⟩
    · rcases hafter with rfl | rfl
      · exact fun c hc => hc.elim
      · exact fun c hc => hc.symm
  have hvalid : buf.valid = true := by rw [hsame]
  refine hedit.coherent hs ?_ ?_ ?_ (hedit.content_held hholder ?_ hvalid) fun _ => hvalid
  · have hcount : buf.refcnt = (s.buf b).refcnt := by rw [hsame]
    rcases hafter with rfl | rfl <;> simp [uses, hrefers, hcount] <;> rfl
  · rw [← hs.lock b, hsame]
  · rcases hafter with rfl | rfl <;> simp [Place, edit, hholder]
  · rcases hafter with rfl | rfl <;> rfl

theorem used_valid (hs : s.Coherent pid) (hholder : s.holder b = some t)
    (hstage : (s.pc t).stage b = .used) : (s.buf b).valid = true := by
  have hcontent := hs.content b (hs.held_dev hholder)
  simpa only [Content, stage, hholder, hstage] using hcontent

theorem iderw (hs : s.Coherent pid) (hholder : s.holder b = some t)
    (hrefers : (s.pc t).refers b = false) (hbefore : ∀ c, (s.pc t).about c → c = b) :
    (s.iderw pid t b).Coherent pid := by
  unfold Bcache.iderw
  split
  · exact hs.panic
  next buf disk h =>
    have hbuf := (Buf.iderw_some h).1
    exact hs.work disk s.log hholder hrefers hbefore (.inl rfl) (by rw [hbuf])

theorem test (hs : s.Coherent pid) (hpc : s.pc t = .locked b blockno) :
    (s.goto t (if (s.buf b).valid then .idle else .reading b blockno)).Coherent pid := by
  obtain ⟨hholder, hblock⟩ : s.holder b = some t ∧ (s.buf b).blockno = blockno := by
    simpa only [Place, hpc] using hs.place t
  have hgoto : ∀ pc, s.goto t pc = s.edit t pc b (s.buf b) := by
    simp [goto, edit]
  have hbefore : ∀ c, (s.pc t).about c → c = b := by simp [hpc, BufPc.about, eq_comm]
  rw [hgoto]
  cases hvalid : (s.buf b).valid with
  | true =>
      refine hs.work s.disk s.log hholder (by rw [hpc]; rfl) hbefore (.inl rfl) ?_
      rw [← hvalid]
  | false =>
      have hcontent := hs.content b (hs.held_dev hholder)
      simp [Content, stage, hholder, hpc, BufPc.stage, hvalid, hblock] at hcontent
      have hedit : Edits s (s.edit t (.reading b blockno) b (s.buf b)) t b
          (.reading b blockno) (s.buf b) (s.holder b) :=
        ⟨rfl, rfl, rfl, (Function.update_eq_self b s.holder).symm, fun _ _ => rfl,
          hs.held_dev hholder, ⟨rfl, rfl⟩, hbefore, fun c hc => hc.symm, fun _ _ => Iff.rfl⟩
      refine hedit.coherent hs ?_ (hs.lock b) ?_ ?_ (hs.dirty b)
      · simp [uses, hpc, BufPc.refers]
      · simp [Place, edit, hholder, hblock]
      · simp [Content, stage, edit, hholder, BufPc.stage, hvalid, hblock, hcontent]

theorem brelse (hs : s.Coherent pid) (hholder : s.holder b = some t)
    (hpc : s.pc t = .idle) : (s.brelse pid t b).Coherent pid := by
  have hvalid := hs.used_valid hholder (by rw [hpc]; rfl)
  unfold Bcache.brelse
  split
  · have hedit : Edits s
        { s.edit t (.releasing b) b
            { s.buf b with lock := { locked := false, pid := 0 } } with
          holder := Function.update s.holder b none
          left := Function.update s.left (s.buf b).blockno (some (s.buf b).data) } t b
        (.releasing b) { s.buf b with lock := { locked := false, pid := 0 } } none :=
      { links := rfl
        pcs := rfl
        bufs := rfl
        holders := rfl
        left := fun n hn => Function.update_of_ne hn ..
        dev := hs.held_dev hholder
        name := ⟨rfl, rfl⟩
        before := by simp [hpc, BufPc.about]
        after := fun c hc => hc.symm
        held := by simp [hholder, eq_comm] }
    refine hedit.coherent hs ?_ rfl ?_ ?_ (hs.dirty b)
    · simp [uses, hpc, hholder, BufPc.refers]
    · simp [Place, edit]
    · simp [Content, stage, edit, hvalid]
  · exact hs.panic

theorem unref (hs : s.Coherent pid) (hpc : s.pc t = .releasing b) :
    (s.unref t b).Coherent pid := by
  have hcount : (s.buf b).refcnt ≠ 0 :=
    hs.in_use (t := t) (by simp [uses, hpc, BufPc.refers])
  have hedit : Edits s (s.edit t .idle b { s.buf b with refcnt := (s.buf b).refcnt - 1 })
      t b .idle { s.buf b with refcnt := (s.buf b).refcnt - 1 } (s.holder b) :=
    { links := rfl
      pcs := rfl
      bufs := rfl
      holders := (Function.update_eq_self b s.holder).symm
      left := fun _ _ => rfl
      dev := hs.used b hcount
      name := ⟨rfl, rfl⟩
      before := by simp [hpc, BufPc.about, eq_comm]
      after := fun _ hc => hc.elim
      held := fun _ _ => Iff.rfl }
  have hnext := hedit.coherent hs
    (by simp [uses, hpc, BufPc.refers]; omega) (hs.lock b) (by simp [Place, edit])
    (hedit.content_self hs rfl (by simp [hpc, BufPc.stage]) rfl rfl rfl) (hs.dirty b)
  unfold Bcache.unref
  split
  · exact { hnext with order := hs.order.front b }
  · exact hnext

end Coherent

def SameNames (s next : Bcache Thread Data) : Prop :=
  ∀ b, (next.buf b).dev = (s.buf b).dev ∧ (next.buf b).blockno = (s.buf b).blockno

omit [DecidableEq Thread] in
theorem sameNames_edit {b : BufId} {buf : Buf Data}
    (hbuf : next.buf = Function.update s.buf b buf)
    (h : buf.dev = (s.buf b).dev ∧ buf.blockno = (s.buf b).blockno) : s.SameNames next := by
  intro c
  rw [hbuf]
  by_cases hc : c = b
  · subst hc
    rw [Function.update_self]
    exact h
  · rw [Function.update_of_ne hc]
    exact ⟨rfl, rfl⟩

theorem sameNames_step {t : Thread} {act : BufAct Data}
    (hstep : s.step pid (t, act) = some next) (hbget : ∀ blockno, act ≠ .bget blockno) :
    s.SameNames next := by
  have hsame : ∀ u : Bcache Thread Data, u.buf = s.buf → s.SameNames u := by
    intro u hu b
    rw [hu]
    exact ⟨rfl, rfl⟩
  have hiderw : ∀ b, s.SameNames (s.iderw pid t b) := by
    intro b
    unfold iderw
    split
    · exact hsame _ rfl
    next buf disk h =>
      refine sameNames_edit rfl ?_
      rw [(Buf.iderw_some h).1]
      exact ⟨rfl, rfl⟩
  unfold step at hstep
  dsimp only at hstep
  split at hstep
  · contradiction
  split at hstep
  · exact absurd rfl (hbget _)
  · unfold acquiresleep at hstep
    split at hstep
    · contradiction
    · cases hstep
      exact sameNames_edit rfl ⟨rfl, rfl⟩
  · cases hstep
    exact hsame _ rfl
  · cases hstep
    exact hiderw _
  · cases hstep
    exact sameNames_edit rfl ⟨rfl, rfl⟩
  · cases hstep
    unfold bwrite
    split
    · exact sameNames_edit rfl ⟨rfl, rfl⟩
    · exact hsame _ rfl
  · cases hstep
    exact hiderw _
  · cases hstep
    unfold logWrite
    split
    · exact hsame _ rfl
    split
    · exact hsame _ rfl
    · exact sameNames_edit rfl ⟨rfl, rfl⟩
  · cases hstep
    unfold brelse
    split
    · exact sameNames_edit rfl ⟨rfl, rfl⟩
    · exact hsame _ rfl
  · cases hstep
    unfold unref
    split
    · exact sameNames_edit rfl ⟨rfl, rfl⟩
    · exact sameNames_edit rfl ⟨rfl, rfl⟩
  · cases hstep
    exact hsame _ rfl
  · contradiction

namespace Coherent

variable {t : Thread} {act : BufAct Data}

theorem start (data : BufId → Data) (disk : BlockNo → Data) (log : Log) :
    (binit data disk log : Bcache Thread Data).Coherent pid := by
  have hdev : ¬ (0 : BitVec 32) = ROOTDEV := by decide
  exact {
    order := ordered_binit
    unique := fun _ _ _ hb => absurd hb.1 hdev
    counted := ⟨fun _ => [], fun _ => ⟨rfl, fun _ => rfl⟩⟩
    used := fun _ h => absurd rfl h
    lock := fun _ => rfl
    place := fun _ => trivial
    content := fun _ h => absurd h hdev
    dirty := fun _ h => nomatch h
    cached := fun _ h => absurd rfl h }

theorem step (hs : s.Coherent pid) (hallowed : Allowed pid s (t, act))
    (h : s.step pid (t, act) = some next) : next.Coherent pid := by
  have hplace := hs.place t
  unfold Place at hplace
  unfold Bcache.step at h
  dsimp only at h
  split at h
  · contradiction
  split at h
  next blockno hpc =>
    obtain ⟨next', hnext, hcoherent, -⟩ := hs.bget hpc blockno
    rw [hnext] at h
    cases h
    exact hcoherent
  next b blockno hpc => exact hs.acquiresleep hpc h
  next b blockno hpc =>
    cases h
    exact hs.test hpc
  next b blockno hpc =>
    cases h
    rw [hpc] at hplace
    exact hs.iderw hplace.1 (by rw [hpc]; rfl) (by simp [hpc, BufPc.about, eq_comm])
  next b data hpc =>
    cases h
    have hvalid := hs.used_valid hallowed (by rw [hpc]; rfl)
    refine hs.work s.disk s.log hallowed (by rw [hpc]; rfl) (by simp [hpc, BufPc.about])
      (.inl rfl) ?_
    rw [← hvalid]
  next b hpc =>
    cases h
    unfold bwrite
    split
    next hheld =>
      have hholder := hallowed hheld
      have hvalid := hs.used_valid hholder (by rw [hpc]; rfl)
      refine hs.work s.disk s.log hholder (by rw [hpc]; rfl) (by simp [hpc, BufPc.about])
        (.inr rfl) ?_
      rw [← hvalid]
    next => exact hs.panic
  next b hpc =>
    cases h
    rw [hpc] at hplace
    exact hs.iderw hplace (by rw [hpc]; rfl) (by simp [hpc, BufPc.about, eq_comm])
  next b hpc =>
    cases h
    unfold logWrite
    split
    · exact hs.panic
    split
    · exact hs.panic
    · have hvalid := hs.used_valid hallowed (by rw [hpc]; rfl)
      refine hs.work s.disk _ hallowed (by rw [hpc]; rfl) (by simp [hpc, BufPc.about])
        (.inl rfl) ?_
      rw [← hvalid]
  next b hpc =>
    cases h
    by_cases hheld : (s.buf b).holdingsleep (pid t) = true
    · exact hs.brelse (hallowed hheld) hpc
    · unfold Bcache.brelse
      rw [if_neg hheld]
      exact hs.panic
  next b hpc =>
    cases h
    exact hs.unref hpc
  next =>
    cases h
    exact ⟨hs.order, hs.unique, hs.counted, hs.used, hs.lock, hs.place, hs.content,
      hs.dirty, hs.cached⟩
  next => contradiction

theorem unused (hs : s.Coherent pid) (h : s.step pid (t, act) = some next) {b : BufId}
    (hname : (next.buf b).dev ≠ (s.buf b).dev ∨
      (next.buf b).blockno ≠ (s.buf b).blockno) : s.Unused b := by
  by_cases hbget : ∃ blockno, act = .bget blockno
  · obtain ⟨blockno, rfl⟩ := hbget
    unfold Bcache.step at h
    dsimp only at h
    split at h
    · contradiction
    cases hpc : s.pc t with
    | idle =>
        rw [hpc] at h
        obtain ⟨next', hnext, -, hunused⟩ := hs.bget hpc blockno
        cases hnext.symm.trans h
        exact hunused b hname
    | _ =>
        rw [hpc] at h
        cases h
  · have hsame := sameNames_step h (fun blockno heq => hbget ⟨blockno, heq⟩) b
    exact (hname.elim (· hsame.1) (· hsame.2)).elim

theorem returned (hs : s.Coherent pid) (h : s.step pid (t, act) = some next) {b : BufId}
    {blockno : BlockNo} (hreturns : s.returns pid (t, act) = some (b, blockno)) :
    next.Cached blockno b ∧ next.holder b = some t ∧ (next.buf b).valid = true ∧
      (next.buf b).data = (s.left blockno).getD (s.disk blockno) := by
  have hplace := hs.place t
  unfold Place at hplace
  unfold returns at hreturns
  unfold Bcache.step at h
  dsimp only at hreturns h
  split at h
  · contradiction
  split at hreturns
  next c n hpc =>
    split at hreturns
    next hvalid =>
      cases hreturns
      rw [hpc] at h hplace
      have hdev := hs.held_dev hplace.1
      have hcontent := hs.content b hdev
      simp [Content, stage, hplace.1, hpc, BufPc.stage, hvalid, hplace.2] at hcontent
      cases h
      exact ⟨⟨hdev, hplace.2⟩, hplace.1, hvalid, by simp [goto, hcontent]⟩
    next => contradiction
  next c n hpc =>
    obtain ⟨⟨buf, disk⟩, hiderw, heq⟩ := Option.map_eq_some_iff.mp hreturns
    cases heq
    rw [hpc] at h hplace
    have hdev := hs.held_dev hplace.1
    have hcontent := hs.content b hdev
    simp [Content, stage, hplace.1, hpc, BufPc.stage, hplace.2] at hcontent
    have hclean : (s.buf b).dirty = false := by
      by_contra hdirty
      have hvalid := hs.dirty b (by simpa using hdirty)
      rw [hcontent.1] at hvalid
      cases hvalid
    have hbuf := (Buf.iderw_some hiderw).1
    simp only [Option.some.injEq] at h
    rw [Bcache.iderw, hiderw] at h
    subst h
    simp [Cached, edit, hbuf, hclean, hdev, hplace.1, hplace.2, hcontent.2]
  next => contradiction

end Coherent

end Edits

/-- In every state that the users of the buffer cache can reach, the list is a
cycle through all buffers, and a block is in one buffer at most.  Only an unused
buffer is given to another block.  `bread` returns a locked buffer for its block,
with what was last left in it by `brelse`, or from the disk if nothing was left
since it was recycled.  The loops of `bget` end. -/
theorem bcache_coherent [DecidableEq Thread] (pid : Thread → Int) (data : BufId → Data)
    (disk : BlockNo → Data) (log : Log) {s : Bcache Thread Data}
    (hreach : Reach (step pid) (Allowed pid) (binit data disk log) s) :
    (∃ order : List BufId, s.links.Holds order ∧ order.Nodup ∧ ∀ b, b ∈ order) ∧
    (∀ b c blockno, s.Cached blockno b → s.Cached blockno c → b = c) ∧
    (∀ t act next, Allowed pid s (t, act) → s.step pid (t, act) = some next →
      (∀ b, (next.buf b).dev ≠ (s.buf b).dev ∨
          (next.buf b).blockno ≠ (s.buf b).blockno →
        (s.buf b).refcnt = 0 ∧ (s.buf b).dirty = false) ∧
      ∀ b blockno, s.returns pid (t, act) = some (b, blockno) →
        next.Cached blockno b ∧ next.holder b = some t ∧ (next.buf b).valid = true ∧
        (next.buf b).data = (s.left blockno).getD (s.disk blockno)) ∧
    ∀ t blockno, s.panicked = false → s.pc t = .idle →
      (s.step pid (t, .bget blockno)).isSome = true := by
  have hs : s.Coherent pid := hreach.invariant (Coherent pid) (.start data disk log)
    fun hs hallowed hstep => hs.step hallowed hstep
  refine ⟨hs.order, hs.unique, fun t act next _ hstep => ⟨?_, ?_⟩, ?_⟩
  · exact fun b hname => hs.unused hstep hname
  · exact fun b blockno hreturns => hs.returned hstep hreturns
  · intro t blockno hrunning hpc
    obtain ⟨next, hnext, -⟩ := hs.bget hpc blockno
    simp [step, hrunning, hpc, hnext]

/-- One process changes block 5 and releases it while another waits for it. -/
theorem bcache_coherent_handOver :
    ∃ s next : Bcache Bool Nat,
      Reach (step fun _ => 3) (Allowed fun _ => 3)
        (binit (fun _ => 0) BitVec.toNat mkfsLog) s ∧
      s.step (fun _ => 3) (false, .test) = some next ∧
      s.returns (fun _ => 3) (false, .test) = some (0, 5) ∧
      s.disk 5 = 5 ∧ (next.buf 0).data = 42 := by
  have hrun : (run (step fun _ => 3) (fun s label => decide (Allowed (fun _ => 3) s label))
      (binit (fun _ => 0) BitVec.toNat mkfsLog : Bcache Bool Nat)
      [(true, .bget 5), (true, .acquiresleep), (true, .test), (true, .iderw),
        (true, .modify 0 42), (false, .bget 5), (true, .brelse 0),
        (false, .acquiresleep)]).any (fun s =>
          (s.step (fun _ => 3) (false, .test)).isSome ∧
          s.returns (fun _ => 3) (false, .test) = some (0, 5) ∧
          s.disk 5 = 5 ∧ s.left 5 = some 42) = true := by
    decide +kernel
  obtain ⟨s, hreach, hsome, hreturns, hdisk, hleft⟩ := reach_of_run_any hrun
  obtain ⟨next, hstep⟩ := Option.isSome_iff_exists.mp hsome
  have hreach' := hreach.mono fun _ _ => of_decide_eq_true
  obtain ⟨-, -, hsteps, -⟩ := bcache_coherent (fun _ => 3) _ _ _ hreach'
  obtain ⟨-, -, -, hdata⟩ := (hsteps false .test next trivial hstep).2 0 5 hreturns
  exact ⟨s, next, hreach', hstep, hreturns, hdisk, by rw [hdata, hleft]; rfl⟩

end Bcache

end KernelThreads.Fs
