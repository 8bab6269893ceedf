import KernelThreads.Fs.Ide

namespace KernelThreads.Fs

open Lib Sync

variable {Thread Data : Type} {nbuf : Nat}

/-! The disk in memory, one request after the other. -/

structure Request.Sound (r : Request nbuf Data) : Prop where
  dev : r.buf.dev = 1
  blockno : r.buf.blockno.toNat < FSSIZE
  locked : r.buf.holdingsleep r.pid = true
  work : (r.buf.valid && !r.buf.dirty) = false

/-- What the disk in memory does with such a request. -/
def Request.answer (r : Request nbuf Data) (disk : BlockNo → Data) : Buf Data :=
  { r.buf with
    valid := true
    dirty := false
    data := if r.buf.dirty then r.buf.data else disk r.buf.blockno }

theorem Request.Sound.iderw {r : Request nbuf Data} (h : r.Sound) (disk : BlockNo → Data) :
    r.buf.iderw FSSIZE r.pid disk = some (r.answer disk,
      if r.buf.dirty then Function.update disk r.buf.blockno r.buf.data else disk) := by
  unfold Buf.iderw Request.answer
  simp only [h.locked, h.work, h.dev, Nat.not_le.mpr h.blockno]
  cases hdirty : r.buf.dirty <;> simp

theorem serial_append {disk middle last : BlockNo → Data} {rs : List (Request nbuf Data)}
    {bufs : List (Buf Data)} {r : Request nbuf Data} {buf : Buf Data}
    (h : serial disk rs = some (middle, bufs))
    (hr : r.buf.iderw FSSIZE r.pid middle = some (buf, last)) :
    serial disk (rs ++ [r]) = some (last, bufs ++ [buf]) := by
  induction rs generalizing disk bufs with
  | nil =>
      cases h
      simp [serial, hr]
  | cons r' rs ih =>
      simp only [serial, Option.bind_eq_bind, Option.bind_eq_some_iff] at h
      obtain ⟨⟨buf', disk'⟩, hfirst, ⟨⟨disk'', bufs'⟩, hrest, hpure⟩⟩ := h
      cases hpure
      simp [serial, hfirst, ih hrest]

theorem length_serial {disk last : BlockNo → Data} {rs : List (Request nbuf Data)}
    {bufs : List (Buf Data)} (h : serial disk rs = some (last, bufs)) :
    bufs.length = rs.length := by
  induction rs generalizing disk bufs with
  | nil =>
      cases h
      rfl
  | cons r rs ih =>
      simp only [serial, Option.bind_eq_bind, Option.bind_eq_some_iff] at h
      obtain ⟨⟨buf', disk'⟩, -, ⟨⟨disk'', bufs'⟩, hrest, hpure⟩⟩ := h
      cases hpure
      simp [ih hrest]

theorem serial_split {disk last : BlockNo → Data} {rs : List (Request nbuf Data)}
    {bufs : List (Buf Data)} {r : Request nbuf Data}
    (h : serial disk (rs ++ [r]) = some (last, bufs)) :
    ∃ middle before buf, serial disk rs = some (middle, before) ∧
      r.buf.iderw FSSIZE r.pid middle = some (buf, last) ∧ bufs = before ++ [buf] := by
  induction rs generalizing disk bufs with
  | nil =>
      simp only [List.nil_append, serial, Option.bind_eq_bind, Option.bind_eq_some_iff] at h
      obtain ⟨⟨buf, disk'⟩, hr, ⟨⟨disk'', bufs'⟩, hrest, hpure⟩⟩ := h
      cases hrest
      cases hpure
      exact ⟨disk, [], buf, rfl, hr, rfl⟩
  | cons r' rs ih =>
      simp only [List.cons_append, serial, Option.bind_eq_bind, Option.bind_eq_some_iff] at h
      obtain ⟨⟨buf', disk'⟩, hfirst, ⟨⟨disk'', bufs'⟩, hrest, hpure⟩⟩ := h
      cases hpure
      obtain ⟨middle, before, buf, hrs, hr, rfl⟩ := ih hrest
      exact ⟨middle, buf' :: before, buf, by simp [serial, hfirst, hrs], hr, rfl⟩

theorem serial_flags {disk last : BlockNo → Data} {rs : List (Request nbuf Data)}
    {bufs : List (Buf Data)} (h : serial disk rs = some (last, bufs)) :
    ∀ buf ∈ bufs, buf.valid = true ∧ buf.dirty = false := by
  induction rs using List.reverseRecOn generalizing last bufs with
  | nil =>
      cases h
      intro buf hmem
      cases hmem
  | append_singleton rs r ih =>
      obtain ⟨middle, before, buf, hrs, hr, rfl⟩ := serial_split h
      intro b hmem
      rcases List.mem_append.mp hmem with hmem | hmem
      · exact ih hrs b hmem
      · rw [List.mem_singleton.mp hmem, (Buf.iderw_some hr).1]
        exact ⟨rfl, rfl⟩

namespace Device

structure Serves (d : Device Data) (b : Buf Data) : Prop where
  interrupts : d.control = 0
  drive : d.drive = true
  sector : d.sector = b.blockno.toNat
  running : d.running = some (if b.dirty then .write b.data else .read)

theorem serves_start {d : Device Data} {b : Buf Data} (hdev : b.dev = 1)
    (hblock : b.blockno.toNat < FSSIZE) : (d.start b).Serves b := by
  have hsector : b.blockno * BitVec.ofNat 32 sectorPerBlock = b.blockno := by
    rw [show sectorPerBlock = 1 from rfl]
    exact BitVec.mul_one _
  have hsmall : b.blockno.toNat < 1000 := hblock
  have htop : b.blockno >>> 24 = 0#32 := by
    apply BitVec.eq_of_toNat_eq
    rw [BitVec.toNat_ushiftRight, Nat.shiftRight_eq_div_pow]
    simp only [BitVec.toNat_ofNat]
    omega
  have hmask : ∀ n : Nat, n &&& 255 = n % 256 := fun n => Nat.and_two_pow_sub_one_eq_mod n 8
  have hcommand : ∀ d : Device Data, d.command
      (if b.dirty then IDE_CMD_WRITE else IDE_CMD_READ) b.data =
        { d with running := some (if b.dirty then .write b.data else .read) } := by
    intro d
    cases b.dirty <;> rfl
  have hstart : d.start b = { d with
      control := 0
      count := 1
      lbaLow := (b.blockno &&& 0xff).setWidth 8
      lbaMid := ((b.blockno >>> 8) &&& 0xff).setWidth 8
      lbaHigh := ((b.blockno >>> 16) &&& 0xff).setWidth 8
      head := 0xf0
      running := some (if b.dirty then .write b.data else .read) } := by
    simp only [start, hsector, htop, hdev]
    exact hcommand _
  rw [hstart]
  have hdrive : BitVec.getLsbD (0xf0 : BitVec 8) 4 = true := by decide
  refine ⟨rfl, hdrive, ?_, rfl⟩
  unfold sector
  have hff : (255 : BitVec 32).toNat = 255 := rfl
  have hhead : ((0xf0 : BitVec 8) &&& 0x0f).toNat = 0 := rfl
  simp only [BitVec.toNat_setWidth, BitVec.toNat_and, BitVec.toNat_ushiftRight,
    Nat.shiftRight_eq_div_pow, hff, hmask] at hhead ⊢
  omega

theorem command_keeps (d : Device Data) (cmd : BitVec 8) (sent : Data) :
    (d.command cmd sent).disk = d.disk ∧ (d.command cmd sent).irq = d.irq := by
  unfold command
  split
  · exact ⟨rfl, rfl⟩
  · split <;> exact ⟨rfl, rfl⟩

theorem start_keeps (d : Device Data) (b : Buf Data) :
    (d.start b).disk = d.disk ∧ (d.start b).irq = d.irq :=
  command_keeps _ _ _

theorem Serves.execute {d : Device Data} {r : Request nbuf Data} (h : d.Serves r.buf)
    {disk : BlockNo → Data}
    (hdisk : ∀ blockno : BlockNo, blockno.toNat < FSSIZE →
      d.disk true blockno.toNat = disk blockno) (hblock : r.buf.blockno.toNat < FSSIZE) :
    ∃ next, d.execute = some next ∧ next.running = none ∧ next.irq = true ∧
      (r.buf.dirty = false → next.output = (r.answer disk).data) ∧
      ∀ blockno : BlockNo, blockno.toNat < FSSIZE → next.disk true blockno.toNat =
        (if r.buf.dirty then Function.update disk r.buf.blockno r.buf.data else disk)
          blockno := by
  unfold Device.execute
  rw [h.running, h.interrupts, h.drive, h.sector]
  cases hdirty : r.buf.dirty with
  | false =>
      refine ⟨_, rfl, rfl, rfl, fun _ => ?_, hdisk⟩
      simp [Request.answer, hdirty, hdisk _ hblock]
  | true =>
      refine ⟨_, rfl, rfl, rfl, by simp, fun blockno hlt => ?_⟩
      simp only [Function.update_self, if_true]
      by_cases heq : blockno = r.buf.blockno
      · rw [heq, Function.update_self, Function.update_self]
      · have hne : blockno.toNat ≠ r.buf.blockno.toNat := fun h =>
          heq (BitVec.eq_of_toNat_eq h)
        rw [Function.update_of_ne hne, Function.update_of_ne heq]
        exact hdisk blockno hlt

end Device

namespace Ide

def Serving (s : Ide Thread nbuf Data) (results : List (Buf Data)) : Prop :=
  match s.requests[s.completed.length]? with
  | none => s.device.running = none ∧ s.device.irq = false
  | some r =>
      (s.device.irq = false ∧ s.device.Serves r.buf) ∨
      (s.device.irq = true ∧ s.device.running = none ∧
        (r.buf.dirty = false → ∃ buf, results[s.completed.length]? = some buf ∧
          s.device.output = buf.data))

structure Refines (disk0 : BlockNo → Data) (s : Ide Thread nbuf Data)
    (disk : BlockNo → Data) (results : List (Buf Data)) : Prop where
  present : s.havedisk1 = true
  queue : s.queue.Holds ((s.requests.drop s.completed.length).map Request.b)
  done : s.completed = (s.requests.map Request.b).take s.completed.length
  sound : ∀ r ∈ s.requests, r.Sound
  inside : ∀ t b i, (s.pc t).request = some (b, i) → ∃ r, s.requests[i]? = some r ∧ r.b = b ∧
    if i < s.completed.length then results[i]? = some (s.buf b) else s.buf b = r.buf
  owned : ∀ i r, s.completed.length ≤ i → s.requests[i]? = some r →
    ∃ t, (s.pc t).request = some (r.b, i)
  awake : ∀ t b i, s.pc t = .asleep b i → s.completed.length ≤ i
  alone : ∀ t u b, (s.pc t).inside b = true → (s.pc u).inside b = true → t = u
  serial : serial disk0 (s.requests.take s.executed) = some (disk, results)
  agrees : ∀ blockno : BlockNo, blockno.toNat < FSSIZE →
    s.device.disk true blockno.toNat = disk blockno
  device : s.Serving results

namespace Refines

variable {disk0 disk : BlockNo → Data} {results : List (Buf Data)}
variable {s next : Ide Thread nbuf Data} {t : Thread} {b : Fin nbuf}

theorem completed_le (h : s.Refines disk0 disk results) :
    s.completed.length ≤ s.requests.length := by
  have hlength := congrArg List.length h.done
  rw [List.length_take, List.length_map] at hlength
  omega

theorem executed_le (h : s.Refines disk0 disk results) :
    s.executed ≤ s.requests.length := by
  have hdevice := h.device
  have hle := h.completed_le
  unfold Serving at hdevice
  unfold executed
  cases hnext : s.requests[s.completed.length]? with
  | none =>
      rw [hnext] at hdevice
      simpa [hdevice.2] using hle
  | some r =>
      have hlt := (List.getElem?_eq_some_iff.mp hnext).1
      have hbit : s.device.irq.toNat ≤ 1 := Bool.toNat_le _
      omega

theorem length_results (h : s.Refines disk0 disk results) :
    results.length = s.executed := by
  rw [length_serial h.serial, List.length_take, min_eq_left h.executed_le]

theorem pending (h : s.Refines disk0 disk results) {i : Nat} {r : Request nbuf Data}
    (hi : s.completed.length ≤ i) (hr : s.requests[i]? = some r) :
    s.buf r.b = r.buf := by
  obtain ⟨t, ht⟩ := h.owned i r hi hr
  obtain ⟨r', hr', -, hbuf⟩ := h.inside t r.b i ht
  rw [if_neg (Nat.not_lt.mpr hi)] at hbuf
  rw [hbuf, Option.some.inj (hr'.symm.trans hr)]

theorem inside_iff {pc : IdePc nbuf} :
    pc.inside b = true ↔ ∃ i, pc.request = some (b, i) := by
  cases pc <;> simp [IdePc.inside, IdePc.request, eq_comm]

theorem pending_ne (h : s.Refines disk0 disk results) {i j : Nat}
    {r r' : Request nbuf Data} (hi : s.completed.length ≤ i) (hj : s.completed.length ≤ j)
    (hr : s.requests[i]? = some r) (hr' : s.requests[j]? = some r') (hb : r.b = r'.b) :
    i = j := by
  obtain ⟨t, ht⟩ := h.owned i r hi hr
  obtain ⟨u, hu⟩ := h.owned j r' hj hr'
  have heq : t = u := h.alone t u r.b (inside_iff.mpr ⟨i, ht⟩) (inside_iff.mpr ⟨j, hb ▸ hu⟩)
  have hsame := Option.some.inj ((heq ▸ ht).symm.trans hu)
  exact (Prod.mk.inj hsame).2

theorem nodup (h : s.Refines disk0 disk results) :
    ((s.requests.drop s.completed.length).map Request.b).Nodup := by
  rw [List.nodup_iff_injective_get]
  rintro ⟨i, hi⟩ ⟨j, hj⟩ heq
  simp only [List.length_map, List.length_drop] at hi hj
  simp only [List.get_eq_getElem, List.getElem_map, List.getElem_drop] at heq
  have hij := h.pending_ne (Nat.le_add_right _ i) (Nat.le_add_right _ j)
    (List.getElem?_eq_getElem (by omega)) (List.getElem?_eq_getElem (by omega)) heq
  simp only [Fin.mk.injEq]
  omega

theorem not_queued (h : s.Refines disk0 disk results)
    (hfree : ∀ t, (s.pc t).inside b = false) :
    b ∉ (s.requests.drop s.completed.length).map Request.b := by
  intro hmem
  obtain ⟨r, hr, rfl⟩ := List.mem_map.mp hmem
  obtain ⟨i, hi⟩ := List.mem_iff_getElem?.mp hr
  rw [List.getElem?_drop] at hi
  obtain ⟨t, ht⟩ := h.owned _ r (Nat.le_add_right _ i) hi
  have hinside := hfree t
  rw [inside_iff.mpr ⟨_, ht⟩] at hinside
  cases hinside

theorem panic (h : s.Refines disk0 disk results) : s.panic.Refines disk0 disk results :=
  ⟨h.present, h.queue, h.done, h.sound, h.inside, h.owned, h.awake, h.alone, h.serial,
    h.agrees, h.device⟩

theorem prepare (h : s.Refines disk0 disk results)
    (hfree : ∀ t, (s.pc t).inside b = false) (buf : Buf Data) :
    Refines disk0 { s with buf := Function.update s.buf b buf } disk results := by
  refine ⟨h.present, h.queue, h.done, h.sound, fun t c i ht => ?_, h.owned, h.awake,
    h.alone, h.serial, h.agrees, h.device⟩
  have hne : c ≠ b := by
    rintro rfl
    have hinside := hfree t
    rw [inside_iff.mpr ⟨i, ht⟩] at hinside
    cases hinside
  obtain ⟨r, hr, hb, hbuf⟩ := h.inside t c i ht
  refine ⟨r, hr, hb, ?_⟩
  simp only [Function.update_of_ne hne]
  exact hbuf

theorem finished (h : s.Refines disk0 disk results) {i : Nat}
    (hpc : (s.pc t).request = some (b, i)) :
    s.ends b = true ↔ i < s.completed.length := by
  obtain ⟨r, hr, rfl, hbuf⟩ := h.inside t b i hpc
  split at hbuf
  next hlt =>
    obtain ⟨hvalid, hdirty⟩ := serial_flags h.serial _ (List.mem_of_getElem? hbuf)
    simp [ends, hvalid, hdirty, hlt]
  next hge =>
    have hwork := (h.sound r (List.mem_of_getElem? hr)).work
    rw [← hbuf] at hwork
    simp [ends, hwork, hge]

section Calls

variable [DecidableEq Thread]

theorem moves (h : s.Refines disk0 disk results) {pc : IdePc nbuf}
    (hrequest : pc.request = (s.pc t).request ∨
      pc = .idle ∧ ∃ b i, (s.pc t).request = some (b, i) ∧ s.ends b = true)
    (hawake : ∀ b i, pc = .asleep b i → s.completed.length ≤ i) :
    Refines disk0 { s with pc := Function.update s.pc t pc } disk results := by
  have hother : ∀ u, u ≠ t → Function.update s.pc t pc u = s.pc u :=
    fun u hu => Function.update_of_ne hu ..
  have hself : Function.update s.pc t pc t = pc := Function.update_self ..
  have hstays : ∀ u c j, (Function.update s.pc t pc u).request = some (c, j) →
      (s.pc u).request = some (c, j) := by
    intro u c j hu
    by_cases hut : u = t
    · subst hut
      rw [hself] at hu
      rcases hrequest with hsame | ⟨rfl, -⟩
      · exact hsame ▸ hu
      · cases hu
    · rwa [hother u hut] at hu
  refine ⟨h.present, h.queue, h.done, h.sound,
    fun u c j hu => h.inside u c j (hstays u c j hu), fun j r hj hr => ?_,
    fun u c j hu => ?_, fun u v c hu hv => ?_, h.serial, h.agrees, h.device⟩
  · obtain ⟨u, hu⟩ := h.owned j r hj hr
    by_cases hut : u = t
    · subst hut
      refine ⟨u, ?_⟩
      dsimp only
      rw [hself]
      rcases hrequest with hsame | ⟨-, b, i, hb, hends⟩
      · rw [hsame, hu]
      · cases hb.symm.trans hu
        exact absurd ((h.finished hb).mp hends) (Nat.not_lt.mpr hj)
    · exact ⟨u, (congrArg IdePc.request (hother u hut)).trans hu⟩
  · by_cases hut : u = t
    · subst hut
      exact hawake c j (hself.symm.trans hu)
    · exact h.awake u c j ((hother u hut).symm.trans hu)
  · obtain ⟨i, hu⟩ := inside_iff.mp hu
    obtain ⟨j, hv⟩ := inside_iff.mp hv
    exact h.alone u v c (inside_iff.mpr ⟨i, hstays u c i hu⟩)
      (inside_iff.mpr ⟨j, hstays v c j hv⟩)

theorem enter (h : s.Refines disk0 disk results) (device : Device Data)
    {r : Request nbuf Data} (hr : r.Sound)
    (hbuf : r.buf = s.buf r.b) (hfree : ∀ t, (s.pc t).inside r.b = false)
    (hpc : s.pc t = .idle) {queue : Queue (Fin nbuf)}
    (hqueue : queue.Holds ((s.requests.drop s.completed.length).map Request.b ++ [r.b]))
    (hnext : next = { s with
      queue := queue
      pc := Function.update s.pc t (.waiting r.b s.requests.length)
      requests := s.requests ++ [r]
      device := device })
    (hdisk : device.disk = s.device.disk) (hirq : device.irq = s.device.irq)
    (hdevice : next.Serving results) : next.Refines disk0 disk results := by
  have hle := h.completed_le
  have hother : ∀ u, u ≠ t →
      Function.update s.pc t (.waiting r.b s.requests.length) u = s.pc u :=
    fun u hu => Function.update_of_ne hu ..
  have hself : Function.update s.pc t (.waiting r.b s.requests.length) t =
      .waiting r.b s.requests.length := Function.update_self ..
  have hold : ∀ (i : Nat) r', s.requests[i]? = some r' → (s.requests ++ [r])[i]? = some r' := by
    intro i r' hr'
    rw [List.getElem?_append_left (List.getElem?_eq_some_iff.mp hr').1]
    exact hr'
  have hbusy : ∀ u, u ≠ t → ∀ c, (next.pc u).inside c = (s.pc u).inside c := by
    intro u hu c
    rw [hnext]
    simp only [hother u hu]
  subst hnext
  refine ⟨h.present, ?_, ?_, ?_, ?_, ?_, ?_, ?_, ?_, ?_, hdevice⟩
  · dsimp only
    rw [List.drop_append_of_le_length hle, List.map_append]
    exact hqueue
  · dsimp only
    rw [List.map_append, List.take_append_of_le_length (by rw [List.length_map]; exact hle)]
    exact h.done
  · intro r' hmem
    rcases List.mem_append.mp hmem with hmem | hmem
    · exact h.sound r' hmem
    · rw [List.mem_singleton.mp hmem]
      exact hr
  · intro u c i hu
    by_cases hut : u = t
    · subst hut
      dsimp only at hu
      rw [hself] at hu
      cases hu
      refine ⟨r, List.getElem?_concat_length, rfl, ?_⟩
      rw [if_neg (Nat.not_lt.mpr hle)]
      exact hbuf.symm
    · dsimp only at hu
      rw [hother u hut] at hu
      obtain ⟨r', hr', hb, hc⟩ := h.inside u c i hu
      exact ⟨r', hold i r' hr', hb, hc⟩
  · intro i r' hi hr'
    by_cases hlast : i = s.requests.length
    · subst hlast
      rw [List.getElem?_concat_length] at hr'
      cases hr'
      exact ⟨t, congrArg IdePc.request hself⟩
    · have hlt : i < (s.requests ++ [r]).length := (List.getElem?_eq_some_iff.mp hr').1
      rw [List.length_append, List.length_singleton] at hlt
      rw [List.getElem?_append_left (by omega)] at hr'
      obtain ⟨u, hu⟩ := h.owned i r' hi hr'
      have hut : u ≠ t := by
        rintro rfl
        rw [hpc] at hu
        cases hu
      exact ⟨u, (congrArg IdePc.request (hother u hut)).trans hu⟩
  · intro u c i hu
    by_cases hut : u = t
    · subst hut
      cases hself.symm.trans hu
    · exact h.awake u c i ((hother u hut).symm.trans hu)
  · intro u v c hu hv
    by_cases hut : u = t <;> by_cases hvt : v = t
    · rw [hut, hvt]
    · rw [hbusy v hvt] at hv
      subst hut
      obtain ⟨i, hi⟩ := inside_iff.mp hu
      dsimp only at hi
      rw [hself] at hi
      cases hi
      rw [hfree v] at hv
      cases hv
    · rw [hbusy u hut] at hu
      subst hvt
      obtain ⟨i, hi⟩ := inside_iff.mp hv
      dsimp only at hi
      rw [hself] at hi
      cases hi
      rw [hfree u] at hu
      cases hu
    · rw [hbusy u hut] at hu
      rw [hbusy v hvt] at hv
      exact h.alone u v c hu hv
  · have hexecuted := h.executed_le
    unfold executed at hexecuted ⊢
    dsimp only
    rw [hirq, List.take_append_of_le_length hexecuted]
    exact h.serial
  · intro blockno hblock
    dsimp only
    rw [hdisk]
    exact h.agrees blockno hblock

theorem iderw (h : s.Refines disk0 disk results) (pid : Thread → Int)
    (hpc : s.pc t = .idle) (hfree : ∀ u, (s.pc u).inside b = false)
    (hdev : (s.buf b).dev = 1) (hblock : (s.buf b).blockno.toNat < FSSIZE) :
    ∃ next, s.iderw pid t b = some next ∧ next.Refines disk0 disk results ∧
      ((s.buf b).holdingsleep (pid t) = true → s.ends b = false →
        next.panicked = s.panicked) := by
  have hle := h.completed_le
  have hnot := h.not_queued hfree
  have hfew : ((s.requests.drop s.completed.length).map Request.b).length < nbuf + 1 := by
    have hcard := h.nodup.length_le_card
    rw [Fintype.card_fin] at hcard
    omega
  unfold Ide.iderw
  split
  next hlocked => exact ⟨_, rfl, h.panic, fun hholds => by simp [hholds] at hlocked⟩
  next hlocked =>
  split
  next hwork => exact ⟨_, rfl, h.panic, fun _ hends => absurd hwork (Bool.eq_false_iff.mp hends)⟩
  next hwork =>
  split
  next hdisk => exact ⟨_, rfl, h.panic, fun _ _ => absurd (h.present.symm.trans hdisk.2) nofun⟩
  obtain ⟨queue, happend, hqueue⟩ := h.queue.append h.nodup hnot hfew
  have hsound : Request.Sound { b := b, pid := pid t, buf := s.buf b } :=
    ⟨hdev, hblock, by simpa using hlocked, by simpa using hwork⟩
  rw [happend]
  dsimp only
  split
  next hhead =>
    -- The queue was empty, and the device is idle.
    have hempty : s.requests.length ≤ s.completed.length := by
      cases hdrop : s.requests.drop s.completed.length with
      | nil => exact List.drop_eq_nil_iff.mp hdrop
      | cons r rest =>
          rw [hdrop] at hqueue hnot
          have hfirst : queue.head = some r.b := hqueue.1
          rw [hhead] at hfirst
          exact absurd (by simp [Option.some.inj hfirst]) hnot
    have hidle := h.device
    unfold Serving at hidle
    rw [List.getElem?_eq_none hempty] at hidle
    have hstart := Device.serves_start (d := s.device) hdev hblock
    refine ⟨_, ?_, h.enter (s.device.start (s.buf b)) hsound rfl hfree hpc hqueue rfl
      (Device.start_keeps _ _).1 (Device.start_keeps _ _).2 ?_, fun _ _ => rfl⟩
    · rw [hhead]
      simp only [idestart, Nat.not_le.mpr hblock, if_false, hidle.1]
      rfl
    · have hlast : s.completed.length = s.requests.length := le_antisymm hle hempty
      unfold Serving
      simp only [hlast, List.getElem?_concat_length]
      exact .inl ⟨(Device.start_keeps _ _).2.trans hidle.2, hstart⟩
  next hhead =>
    refine ⟨_, rfl, h.enter s.device hsound rfl hfree hpc hqueue rfl rfl rfl ?_,
      fun _ _ => rfl⟩
    have hlt : s.completed.length < s.requests.length := by
      by_contra hge
      rw [List.drop_eq_nil_iff.mpr (Nat.not_lt.mp hge)] at hqueue
      exact hhead hqueue.1
    have hdevice := h.device
    unfold Serving at hdevice ⊢
    simp only [List.getElem?_append_left hlt]
    exact hdevice

end Calls

theorem working (h : s.Refines disk0 disk results)
    (hbusy : s.device.running ≠ none ∨ s.device.irq = true) :
    ∃ r, s.requests[s.completed.length]? = some r := by
  have hdevice := h.device
  unfold Serving at hdevice
  cases hnext : s.requests[s.completed.length]? with
  | none =>
      rw [hnext] at hdevice
      simp [hdevice.1, hdevice.2] at hbusy
  | some r => exact ⟨r, rfl⟩

theorem execute (h : s.Refines disk0 disk results) {device : Device Data}
    (hexec : s.device.execute = some device) :
    ∃ disk' results', Refines disk0 { s with device := device } disk' results' := by
  have hrunning : s.device.running ≠ none := by
    intro hnone
    rw [Device.execute, hnone] at hexec
    cases hexec
  obtain ⟨r, hr⟩ := h.working (.inl hrunning)
  have hsound := h.sound r (List.mem_of_getElem? hr)
  have hdevice := h.device
  unfold Serving at hdevice
  rw [hr] at hdevice
  obtain ⟨hirq, hserves⟩ | ⟨-, hnone, -⟩ := hdevice
  · obtain ⟨next, hnext, hfree, hpending, houtput, hdisk⟩ :=
      hserves.execute h.agrees hsound.blockno
    cases hnext.symm.trans hexec
    have hcount : s.executed = s.completed.length := by simp [executed, hirq]
    have hlength : results.length = s.completed.length := h.length_results.trans hcount
    have hlast : (results ++ [r.answer disk])[s.completed.length]? = some (r.answer disk) := by
      rw [← hlength]
      exact List.getElem?_concat_length
    refine ⟨_, results ++ [r.answer disk], h.present, h.queue, h.done, h.sound,
      fun t b i ht => ?_, h.owned, h.awake, h.alone, ?_, hdisk, ?_⟩
    · obtain ⟨r', hr', hb, hbuf⟩ := h.inside t b i ht
      refine ⟨r', hr', hb, ?_⟩
      dsimp only
      split at hbuf
      next hlt =>
        rw [if_pos hlt, List.getElem?_append_left (by omega)]
        exact hbuf
      next hlt =>
        rw [if_neg hlt]
        exact hbuf
    · have hserial := serial_append h.serial (hsound.iderw disk)
      rw [hcount] at hserial
      unfold executed
      dsimp only
      rw [hpending, Bool.toNat_true, List.take_add_one, hr]
      exact hserial
    · unfold Serving
      dsimp only
      rw [hr]
      exact .inr ⟨hpending, hfree, fun hclean => ⟨_, hlast, houtput hclean⟩⟩
  · exact absurd hnone hrunning

theorem request_wakeup (pc : IdePc nbuf) (b : Fin nbuf) :
    (pc.wakeup b).request = pc.request := by
  cases pc with
  | asleep c i =>
      unfold IdePc.wakeup
      dsimp only
      split <;> rfl
  | idle => rfl
  | waiting c i => rfl

/-- The interrupt handler finishes a request, when the device then works for the
next one. -/
theorem complete (h : s.Refines disk0 disk results) (device : Device Data)
    {r : Request nbuf Data} {buf : Buf Data}
    (hr : s.requests[s.completed.length]? = some r) (hirq : s.device.irq = true)
    (hbuf : results[s.completed.length]? = some buf)
    (hnext : next = { s with
      queue := { s.queue with head := s.queue.next r.b }
      buf := Function.update s.buf r.b buf
      pc := fun t => (s.pc t).wakeup r.b
      completed := s.completed ++ [r.b]
      device := device })
    (hdisk : device.disk = s.device.disk) (hidle : device.irq = false)
    (hdevice : next.Serving results) : next.Refines disk0 disk results := by
  have hlt := (List.getElem?_eq_some_iff.mp hr).1
  have hdrop : s.requests.drop s.completed.length =
      r :: s.requests.drop (s.completed.length + 1) := by
    rw [List.drop_eq_getElem_cons hlt, (List.getElem?_eq_some_iff.mp hr).2]
  have hqueue := h.queue
  rw [hdrop] at hqueue
  have hpcs : ∀ t, (next.pc t).request = (s.pc t).request := by
    intro t
    rw [hnext]
    exact request_wakeup _ _
  have hlength : next.completed.length = s.completed.length + 1 := by
    rw [hnext]
    simp
  have hinside : ∀ t b, (next.pc t).inside b = (s.pc t).inside b := by
    intro t b
    unfold IdePc.inside
    rw [hpcs]
  have hat : ∀ t i, (s.pc t).request = some (r.b, i) → i = s.completed.length := by
    intro t i ht
    obtain ⟨u, hu⟩ := h.owned _ r le_rfl hr
    have heq := h.alone t u r.b (inside_iff.mpr ⟨i, ht⟩) (inside_iff.mpr ⟨_, hu⟩)
    subst heq
    cases ht.symm.trans hu
    rfl
  refine ⟨?_, ?_, ?_, ?_, ?_, ?_, ?_, ?_, ?_, ?_, hdevice⟩
  · rw [hnext]
    exact h.present
  · rw [hlength]
    rw [hnext]
    exact hqueue.2
  · rw [hlength]
    rw [hnext]
    dsimp only
    rw [List.take_add_one, ← h.done, List.getElem?_map, hr]
    rfl
  · rw [hnext]
    exact h.sound
  · intro t b i ht
    rw [hpcs] at ht
    obtain ⟨r', hr', hb, hc⟩ := h.inside t b i ht
    refine ⟨r', by rw [hnext]; exact hr', hb, ?_⟩
    rw [hlength]
    by_cases hb' : b = r.b
    · subst hb'
      have hi := hat t i ht
      rw [if_pos (by omega), hnext, hi]
      simp only [Function.update_self]
      exact hbuf
    · have hi : i ≠ s.completed.length := by
        rintro rfl
        cases hr'.symm.trans hr
        exact hb' hb.symm
      have hsame : next.buf b = s.buf b := by
        rw [hnext]
        exact Function.update_of_ne hb' ..
      rw [hsame]
      split at hc
      next hlt' =>
        rw [if_pos (by omega)]
        exact hc
      next hge =>
        rw [if_neg (by omega)]
        exact hc
  · intro i r' hi hr'
    rw [hlength] at hi
    have hold : s.requests[i]? = some r' := by
      rw [hnext] at hr'
      exact hr'
    obtain ⟨t, ht⟩ := h.owned i r' (by omega) hold
    exact ⟨t, (hpcs t).trans ht⟩
  · intro t b i ht
    rw [hlength]
    rw [hnext] at ht
    dsimp only at ht
    cases hpc : s.pc t with
    | idle =>
        rw [hpc] at ht
        cases ht
    | waiting c j =>
        rw [hpc] at ht
        cases ht
    | asleep c j =>
        rw [hpc] at ht
        unfold IdePc.wakeup at ht
        dsimp only at ht
        split at ht
        next => cases ht
        next hc =>
          cases ht
          have hge := h.awake t b i hpc
          obtain ⟨r', hr', hb, -⟩ := h.inside t b i (by rw [hpc]; rfl)
          have hne : i ≠ s.completed.length := by
            rintro rfl
            cases hr'.symm.trans hr
            exact hc hb.symm
          omega
  · intro t u b ht hu
    rw [hinside] at ht hu
    exact h.alone t u b ht hu
  · have hserial := h.serial
    unfold executed at hserial ⊢
    rw [hlength]
    rw [hnext]
    dsimp only
    rw [hidle]
    rw [hirq] at hserial
    exact hserial
  · intro blockno hblock
    rw [hnext]
    dsimp only
    rw [hdisk]
    exact h.agrees blockno hblock

theorem answered (h : s.Refines disk0 disk results) {r : Request nbuf Data}
    (hr : s.requests[s.completed.length]? = some r) (hirq : s.device.irq = true) :
    s.device.running = none ∧
    results[s.completed.length]? = some { s.buf r.b with
      data := if (s.buf r.b).dirty then (s.buf r.b).data else s.device.output
      valid := true
      dirty := false } := by
  have hdevice := h.device
  unfold Serving at hdevice
  rw [hr] at hdevice
  obtain ⟨hidle, -⟩ | ⟨-, hfree, houtput⟩ := hdevice
  · rw [hirq] at hidle
    cases hidle
  refine ⟨hfree, ?_⟩
  have hserial := h.serial
  have hcount : s.executed = s.completed.length + 1 := by simp [executed, hirq]
  rw [hcount, List.take_add_one, hr] at hserial
  obtain ⟨middle, before, buf, hbefore, hiderw, rfl⟩ := serial_split hserial
  have hlength : before.length = s.completed.length := by
    rw [length_serial hbefore, List.length_take, min_eq_left h.completed_le]
  have hlast : (before ++ [buf])[s.completed.length]? = some buf := by
    rw [← hlength]
    exact List.getElem?_concat_length
  have hbuf := (Buf.iderw_some hiderw).1
  have hsame := h.pending le_rfl hr
  rw [hlast, hsame]
  cases hdirty : r.buf.dirty with
  | true => simp [hbuf, hdirty]
  | false =>
      obtain ⟨buf', hbuf', hdata⟩ := houtput hdirty
      cases hlast.symm.trans hbuf'
      rw [hdata]
      simp [hbuf]

theorem ideintr (h : s.Refines disk0 disk results) (hirq : s.device.irq = true) :
    ∃ next, Ide.ideintr { s with device := { s.device with irq := false } } = some next ∧
      next.Refines disk0 disk results ∧ next.panicked = s.panicked ∧
      next.completed.length = s.completed.length + 1 := by
  obtain ⟨r, hr⟩ := h.working (.inr hirq)
  obtain ⟨hfree, hanswer⟩ := h.answered hr hirq
  have hlt := (List.getElem?_eq_some_iff.mp hr).1
  have hqueue := h.queue
  rw [List.drop_eq_getElem_cons hlt, (List.getElem?_eq_some_iff.mp hr).2] at hqueue
  obtain ⟨hhead, hrest⟩ := hqueue
  unfold Ide.ideintr
  dsimp only
  rw [hhead]
  dsimp only
  rw [if_neg (by simp [hfree])]
  cases hnext : s.requests[s.completed.length + 1]? with
  | none =>
      have hdrop : s.requests.drop (s.completed.length + 1) = [] :=
        List.drop_eq_nil_iff.mpr (List.getElem?_eq_none_iff.mp hnext)
      rw [hdrop] at hrest
      have hnone : s.queue.next r.b = none := hrest
      rw [if_neg (by simp [hnone])]
      refine ⟨_, rfl, h.complete { s.device with irq := false } hr hirq hanswer rfl rfl rfl
        ?_, rfl, by simp⟩
      unfold Serving
      simp only [List.length_append, List.length_singleton, hnext]
      exact ⟨hfree, trivial⟩
  | some r' =>
      -- The next request is started.
      have hdrop : s.requests.drop (s.completed.length + 1) =
          r' :: s.requests.drop (s.completed.length + 2) := by
        have hlt' := (List.getElem?_eq_some_iff.mp hnext).1
        rw [List.drop_eq_getElem_cons hlt', (List.getElem?_eq_some_iff.mp hnext).2]
      rw [hdrop] at hrest
      have hsome : s.queue.next r.b = some r'.b := hrest.1
      have hne : r'.b ≠ r.b := by
        intro heq
        have hij := h.pending_ne (Nat.le_succ _) le_rfl hnext hr heq
        omega
      have hbuf := h.pending (Nat.le_succ _) hnext
      have hsound := h.sound r' (List.mem_of_getElem? hnext)
      rw [if_pos (by simp [hsome]), hsome]
      refine ⟨_, ?_, h.complete (Device.start { s.device with irq := false } r'.buf)
        hr hirq hanswer rfl (Device.start_keeps _ _).1 (Device.start_keeps _ _).2 ?_, rfl,
        by simp⟩
      · simp only [idestart, Function.update_of_ne hne, hbuf, hsome,
          Nat.not_le.mpr hsound.blockno, hfree, if_false, Option.isSome_none]
        rfl
      · unfold Serving
        simp only [List.length_append, List.length_singleton, hnext]
        exact .inl ⟨(Device.start_keeps _ _).2,
          Device.serves_start hsound.dev hsound.blockno⟩

theorem start (buf : Fin nbuf → Buf Data) (qnext : Fin nbuf → Option (Fin nbuf))
    (device : Device Data) :
    (Ide.start buf qnext device : Ide Thread nbuf Data).Refines
      (fun blockno => device.disk true blockno.toNat)
      (fun blockno => device.disk true blockno.toNat) [] where
  present := rfl
  queue := rfl
  done := rfl
  sound _ h := nomatch h
  inside _ _ _ h := nomatch h
  owned _ _ _ h := nomatch h
  awake _ _ _ h := nomatch h
  alone _ _ _ h := nomatch h
  serial := rfl
  agrees _ _ := rfl
  device := ⟨rfl, rfl⟩

theorem step [DecidableEq Thread] {pid : Thread → Int} {act : IdeAct Thread nbuf Data}
    (h : s.Refines disk0 disk results) (hallowed : s.Allowed act)
    (hstep : s.step pid act = some next) :
    ∃ disk' results', next.Refines disk0 disk' results' := by
  unfold Ide.step at hstep
  split at hstep
  · contradiction
  cases act with
  | prepare b buf =>
      cases hstep
      exact ⟨disk, results, h.prepare hallowed buf⟩
  | iderw t b =>
      dsimp only at hstep
      split at hstep
      next hpc =>
        obtain ⟨next', hnext, hrefines, -⟩ :=
          h.iderw pid hpc hallowed.1 hallowed.2.1 hallowed.2.2
        cases hnext.symm.trans hstep
        exact ⟨disk, results, hrefines⟩
      next => contradiction
  | test t =>
      dsimp only at hstep
      split at hstep
      next b i hpc =>
        cases hstep
        have hrequest : (s.pc t).request = some (b, i) := by rw [hpc]; rfl
        refine ⟨disk, results, ?_⟩
        by_cases hends : s.ends b = true
        · rw [if_pos hends]
          exact h.moves (.inr ⟨rfl, b, i, hrequest, hends⟩) fun _ _ heq => nomatch heq
        · rw [if_neg hends]
          refine h.moves (.inl hrequest.symm) fun c j heq => ?_
          cases heq
          exact Nat.not_lt.mp fun hlt => hends ((h.finished hrequest).mpr hlt)
      next => contradiction
  | wake t =>
      dsimp only at hstep
      split at hstep
      next b i hpc =>
        cases hstep
        exact ⟨disk, results, h.moves (.inl (by rw [hpc]; rfl)) fun _ _ heq => nomatch heq⟩
      next => contradiction
  | execute =>
      obtain ⟨device, hexec, rfl⟩ := Option.map_eq_some_iff.mp hstep
      exact h.execute hexec
  | ideintr =>
      dsimp only at hstep
      split at hstep
      next hirq =>
        obtain ⟨next', hnext, hrefines, -⟩ := h.ideintr hirq
        cases hnext.symm.trans hstep
        exact ⟨disk, results, hrefines⟩
      next => contradiction

theorem step_ideintr [DecidableEq Thread] {pid : Thread → Int}
    (hrunning : s.panicked = false) (hirq : s.device.irq = true) :
    s.step pid .ideintr =
      Ide.ideintr { s with device := { s.device with irq := false } } := by
  unfold Ide.step
  rw [if_neg (by simp [hrunning])]
  exact if_pos hirq

theorem progress [DecidableEq Thread] {pid : Thread → Int}
    (h : s.Refines disk0 disk results) (hrunning : s.panicked = false)
    (hopen : s.completed.length < s.requests.length) :
    (s.step pid .execute).isSome = true ∨ (s.step pid .ideintr).isSome = true := by
  have hdevice := h.device
  unfold Serving at hdevice
  rw [List.getElem?_eq_getElem hopen] at hdevice
  obtain ⟨-, hserves⟩ | ⟨hirq, -, -⟩ := hdevice
  · left
    have hblock := (h.sound _ (List.getElem_mem hopen)).blockno
    obtain ⟨next, hnext, -⟩ := hserves.execute h.agrees hblock
    simp [Ide.step, hrunning, hnext]
  · right
    obtain ⟨next, hnext, -⟩ := h.ideintr hirq
    rw [step_ideintr hrunning hirq, hnext]
    rfl

end Refines

/-- The driver with its queue does what the disk in memory does, one request after
the other in the order of the queue.  No buffer is in the queue twice, and requests
are finished in order.  A process leaves `iderw` exactly when its request is
finished, with the buffer and the disk that the disk in memory gives.  No process
sleeps for a finished request, the device is at work or about to interrupt while a
request is open, and neither `iderw` nor the handler waits for the device forever.
The handler never panics, nor does `iderw` for a locked buffer with work to do. -/
theorem iderw_serial [DecidableEq Thread] (pid : Thread → Int)
    (buf : Fin nbuf → Buf Data) (qnext : Fin nbuf → Option (Fin nbuf))
    (device : Device Data) {s : Ide Thread nbuf Data}
    (hreach : Reach (step pid) Allowed (start buf qnext device) s) :
    (∃ queue, s.queue.Holds queue ∧ queue.Nodup) ∧
    s.completed <+: s.requests.map Request.b ∧
    (∃ disk results,
      serial (fun blockno => device.disk true blockno.toNat)
        (s.requests.take s.executed) = some (disk, results) ∧
      (∀ blockno : BlockNo, blockno.toNat < FSSIZE →
        s.device.disk true blockno.toNat = disk blockno) ∧
      ∀ t b i, (s.pc t).request = some (b, i) →
        (∃ r, s.requests[i]? = some r ∧ r.b = b) ∧
        (s.ends b = true ↔ i < s.completed.length) ∧
        (s.ends b = true → results[i]? = some (s.buf b) ∧
          (s.buf b).valid = true ∧ (s.buf b).dirty = false)) ∧
    (∀ t b i, s.pc t = .asleep b i → s.completed.length ≤ i) ∧
    (s.panicked = false →
      (s.completed.length < s.requests.length →
        (s.step pid .execute).isSome = true ∨ (s.step pid .ideintr).isSome = true) ∧
      (s.device.irq = true → ∃ next, s.step pid .ideintr = some next ∧
        next.panicked = false ∧ next.completed.length = s.completed.length + 1) ∧
      ∀ t b, s.pc t = .idle → s.Allowed (.iderw t b) →
        ∃ next, s.step pid (.iderw t b) = some next ∧
          ((s.buf b).holdingsleep (pid t) = true → s.ends b = false →
            next.panicked = false)) := by
  obtain ⟨disk, results, h⟩ : ∃ disk results,
      s.Refines (fun blockno => device.disk true blockno.toNat) disk results := by
    refine hreach.invariant
      (fun s => ∃ disk results,
        s.Refines (fun blockno => device.disk true blockno.toNat) disk results)
      ⟨_, _, .start buf qnext device⟩ ?_
    rintro state act next ⟨disk, results, h⟩ hallowed hstep
    exact h.step hallowed hstep
  refine ⟨⟨_, h.queue, h.nodup⟩, ?_, ⟨disk, results, h.serial, h.agrees, ?_⟩, h.awake, ?_⟩
  · rw [h.done]
    exact List.take_prefix ..
  · intro t b i ht
    obtain ⟨r, hr, hb, hbuf⟩ := h.inside t b i ht
    refine ⟨⟨r, hr, hb⟩, h.finished ht, fun hends => ?_⟩
    rw [if_pos ((h.finished ht).mp hends)] at hbuf
    simp only [ends, Bool.and_eq_true, Bool.not_eq_true'] at hends
    exact ⟨hbuf, hends⟩
  · intro hrunning
    refine ⟨h.progress hrunning, fun hirq => ?_, fun t b hpc hallowed => ?_⟩
    · obtain ⟨next, hnext, -, hpanic, hlength⟩ := h.ideintr hirq
      exact ⟨next, (Refines.step_ideintr hrunning hirq).trans hnext,
        hpanic.trans hrunning, hlength⟩
    · obtain ⟨next, hnext, -, hpanic⟩ :=
        h.iderw pid hpc hallowed.1 hallowed.2.1 hallowed.2.2
      rw [hrunning] at hpanic
      exact ⟨next, by simp [step, hrunning, hpc, hnext], hpanic⟩

/-- A write of block 5 and a read of the same block queued behind it. -/
theorem iderw_serial_twoRequests :
    let device : Device Nat := ⟨fun _ sector => sector, 0, 0, 0, 0, 0, 0, none, 0, false⟩
    ∃ s : Ide Bool 2 Nat,
      Reach (step fun _ => 1) Allowed (start (fun _ => { data := 0 }) (fun _ => none) device) s ∧
      s.requests.map Request.b = [0, 1] ∧ (s.pc false).request = some (1, 1) ∧
      ∃ disk results,
        serial (fun blockno => device.disk true blockno.toNat) (s.requests.take s.executed) =
          some (disk, results) ∧
        results[1]? = some (s.buf 1) ∧ (s.buf 1).data = 42 := by
  intro device
  let lock : SleepLock := { locked := true, pid := 1 }
  have hrun : (run (step fun _ => 1) (fun s act => decide (Allowed s act))
      (start (fun _ => { data := 0 }) (fun _ => none) device : Ide Bool 2 Nat)
      [.prepare 0 ⟨true, true, 1, 5, lock, 1, 42⟩, .prepare 1 ⟨false, false, 1, 5, lock, 1, 7⟩,
        .iderw true 0, .iderw false 1, .test false, .execute, .wake false, .test false,
        .ideintr, .execute, .ideintr]).any (fun s => s.requests.map Request.b = [0, 1] ∧
          (s.pc false).request = some (1, 1) ∧ s.ends 1 = true ∧
          (s.buf 1).data = 42) = true := by
    decide +kernel
  obtain ⟨s, hreach, hrequests, hpc, hends, hdata⟩ := reach_of_run_any hrun
  have hreach' := hreach.mono fun _ _ => of_decide_eq_true
  obtain ⟨-, -, ⟨disk, results, hserial, -, hreturns⟩, -⟩ :=
    iderw_serial (fun _ => 1) _ _ _ hreach'
  obtain ⟨-, -, hresult⟩ := hreturns false 1 1 hpc
  exact ⟨s, hreach', hrequests, hpc, disk, results, hserial, (hresult hends).1, hdata⟩

end Ide

end KernelThreads.Fs
