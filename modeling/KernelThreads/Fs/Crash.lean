import KernelThreads.Lib.Bytes
import KernelThreads.Lib.Writes
import KernelThreads.Fs.Log

namespace KernelThreads.Fs

open Lib

/-! The log on disk: `commit`, and `recover_from_log` after a crash. -/

abbrev BSIZE : Nat := 512

abbrev Block := Bytes BSIZE

abbrev Disk := BlockNo → Block

namespace Log

def copyOf (log : Log) (tail : Nat) : BlockNo :=
  log.start + BitVec.ofNat 32 (tail + 1)

def Area (log : Log) (b : BlockNo) : Prop :=
  b = log.start ∨ ∃ i, i < log.size ∧ b = log.start + BitVec.ofNat 32 i

end Log

/-- The kernel's view of the disk.  `buf` is what `bread` returns: the cached
block if there is one, and a block pinned by `log_write` always is.  `written`
are the writes that have reached the disk. -/
structure LogDisk where
  log : Log
  disk : Disk
  buf : Disk
  written : List (BlockNo × Block) := []

namespace LogDisk

def bwrite (s : LogDisk) (b : BlockNo) : LogDisk :=
  { s with
    disk := Function.update s.disk b (s.buf b)
    written := s.written ++ [(b, s.buf b)] }

def copy (s : LogDisk) (source target : BlockNo) : LogDisk :=
  { s with buf := Function.update s.buf target (s.buf source) }.bwrite target

def copies (s : LogDisk) (pairs : List (BlockNo × BlockNo)) : LogDisk :=
  pairs.foldl (fun s pair => s.copy pair.1 pair.2) s

def writeLog (s : LogDisk) : LogDisk :=
  s.copies (s.log.lh.zipIdx.map fun entry => (entry.1, s.log.copyOf entry.2))

def installTrans (s : LogDisk) : LogDisk :=
  s.copies (s.log.lh.zipIdx.map fun entry => (s.log.copyOf entry.2, entry.1))

def header (lh : List BlockNo) (old : Block) : Block :=
  lh.zipIdx.foldl (fun block entry => block.setWord (entry.2 + 1) entry.1)
    (old.setWord 0 (BitVec.ofNat 32 lh.length))

def writeHead (s : LogDisk) : LogDisk :=
  let block := header s.log.lh (s.buf s.log.start)
  { s with buf := Function.update s.buf s.log.start block }.bwrite s.log.start

def readHead (s : LogDisk) : LogDisk :=
  let block := s.buf s.log.start
  { s with log := { s.log with
      lh := (List.range (block.word 0).toInt.toNat).map fun i =>
        block.word (i + 1) } }

def clear (s : LogDisk) : LogDisk := { s with log := { s.log with lh := [] } }

def recover (s : LogDisk) : LogDisk := s.readHead.installTrans.clear.writeHead

def commit (s : LogDisk) : LogDisk :=
  if s.log.lh.length > 0 then
    s.writeLog.writeHead.installTrans.clear.writeHead
  else s

/-- A change of a block in the cache, and `log_write`, which may panic. -/
def logWrite (s : LogDisk) (entry : BlockNo × Block) : Option LogDisk :=
  if s.log.lh.length ≥ LOGSIZE ∨ (s.log.lh.length : Int) ≥ s.log.size - 1 then none
  else if s.log.outstanding < 1 then none
  else
    some { s with
      log := s.log.record entry.1
      buf := Function.update s.buf entry.1 entry.2 }

/-- A transaction: what the operations log between two commits. -/
def transaction (s : LogDisk) : List (BlockNo × Block) → Option LogDisk
  | [] => some s
  | entry :: rest => (s.logWrite entry).bind fun next => next.transaction rest

def boot (log : Log) (disk : Disk) : LogDisk :=
  { log := { log with lh := [] }, disk := disk, buf := disk }

def Tracks (first : Disk) (s : LogDisk) : Prop := s.disk = writes first s.written

end LogDisk

/-- Disks that any number of interrupted recoveries make of a disk. -/
inductive Crashes (log : Log) : Disk → Disk → Prop
  | refl : Crashes log disk disk
  | again (hbefore : Crashes log disk middle)
      (hdone : done ++ rest = (LogDisk.boot log middle).recover.written) :
      Crashes log disk (writes middle done)

namespace LogDisk

def copied (buf : Disk) (pairs : List (BlockNo × BlockNo)) :
    List (BlockNo × Block) :=
  pairs.map fun pair => (pair.2, buf pair.1)

section Loops

variable {s : LogDisk} {pairs : List (BlockNo × BlockNo)} {first : Disk}

theorem Tracks.bwrite (h : s.Tracks first) (b : BlockNo) :
    (s.bwrite b).Tracks first := by
  have hdisk : s.disk = writes first s.written := h
  simp [Tracks, LogDisk.bwrite, hdisk, writes_append]

theorem Tracks.copies (h : s.Tracks first) (pairs : List (BlockNo × BlockNo)) :
    (s.copies pairs).Tracks first := by
  induction pairs generalizing s with
  | nil => exact h
  | cons pair pairs ih =>
      refine ih (s := s.copy pair.1 pair.2) ?_
      exact Tracks.bwrite (s := { s with
        buf := Function.update s.buf pair.2 (s.buf pair.1) }) h pair.2

theorem Tracks.writeHead (h : s.Tracks first) : s.writeHead.Tracks first :=
  Tracks.bwrite (s := { s with
    buf := Function.update s.buf s.log.start
      (header s.log.lh (s.buf s.log.start)) }) h _

theorem copies_log (s : LogDisk) (pairs : List (BlockNo × BlockNo)) :
    (s.copies pairs).log = s.log := by
  induction pairs generalizing s with
  | nil => rfl
  | cons pair pairs ih => exact ih _

theorem copies_spec (h : ∀ first ∈ pairs, ∀ second ∈ pairs, first.2 ≠ second.1) :
    (s.copies pairs).written = s.written ++ copied s.buf pairs ∧
      (s.copies pairs).buf = writes s.buf (copied s.buf pairs) := by
  induction pairs generalizing s with
  | nil => simp [LogDisk.copies, copied]
  | cons pair pairs ih =>
      have hsame : copied (s.copy pair.1 pair.2).buf pairs = copied s.buf pairs := by
        refine List.map_congr_left fun other hother => ?_
        have hne := h pair List.mem_cons_self other (List.mem_cons_of_mem _ hother)
        simp [copy, LogDisk.bwrite, Function.update_of_ne hne.symm]
      have hrest := ih (s := s.copy pair.1 pair.2) fun first hfirst second hsecond =>
        h first (List.mem_cons_of_mem _ hfirst) second
          (List.mem_cons_of_mem _ hsecond)
      rw [hsame] at hrest
      constructor
      · refine hrest.1.trans ?_
        simp [copy, LogDisk.bwrite, copied]
      · refine hrest.2.trans ?_
        simp [copy, LogDisk.bwrite, copied]

end Loops

structure Lists (block : Block) (lh : List BlockNo) : Prop where
  count : block.word 0 = BitVec.ofNat 32 lh.length
  blocks : ∀ i (h : i < lh.length), block.word (i + 1) = lh[i]

section Header

variable {lh : List BlockNo} {k : Nat}

theorem word_fold_below (block : Block) {i : Nat} (h : i ≤ k) :
    ((lh.zipIdx k).foldl (fun block entry => block.setWord (entry.2 + 1) entry.1)
      block).word i = block.word i := by
  induction lh generalizing block k with
  | nil => rfl
  | cons b lh ih =>
      rw [List.zipIdx_cons, List.foldl_cons, ih _ (by omega)]
      apply Bytes.word_setWord_other
      omega

theorem word_fold (block : Block) {i : Nat} (h : i < lh.length)
    (hfits : k + lh.length < 128) :
    ((lh.zipIdx k).foldl (fun block entry => block.setWord (entry.2 + 1) entry.1)
      block).word (k + i + 1) = lh[i] := by
  induction lh generalizing block k i with
  | nil => contradiction
  | cons b lh ih =>
      rw [List.length_cons] at h hfits
      rw [List.zipIdx_cons, List.foldl_cons]
      cases i with
      | zero =>
          rw [word_fold_below _ (by omega), Nat.add_zero, List.getElem_cons_zero]
          apply Bytes.word_setWord_same
          simp only [BSIZE]
          omega
      | succ i =>
          have hrest := ih (block.setWord (k + 1) b) (k := k + 1) (i := i)
            (by omega) (by omega)
          rw [List.getElem_cons_succ, ← hrest]
          congr 1
          omega

theorem header_lists (block : Block) (h : lh.length ≤ LOGSIZE) :
    Lists (header lh block) lh := by
  simp only [LOGSIZE, MAXOPBLOCKS] at h
  constructor
  · unfold header
    rw [word_fold_below _ (Nat.le_refl 0)]
    apply Bytes.word_setWord_same
    simp [BSIZE]
  · intro i hi
    have hword := word_fold (k := 0)
      (block.setWord 0 (BitVec.ofNat 32 lh.length)) hi (by omega)
    rwa [Nat.zero_add] at hword

theorem Lists.readHead {s : LogDisk} (h : Lists (s.buf s.log.start) lh)
    (hfew : lh.length ≤ LOGSIZE) :
    s.readHead = { s with log := { s.log with lh := lh } } := by
  simp only [LOGSIZE, MAXOPBLOCKS] at hfew
  have hcount : (BitVec.ofNat 32 lh.length).toInt.toNat = lh.length := by
    rw [BitVec.toInt_eq_toNat_of_lt] <;> rw [BitVec.toNat_ofNat] <;> omega
  have hlist : ((List.range lh.length).map fun i =>
      (s.buf s.log.start).word (i + 1)) = lh := by
    refine List.ext_getElem (by simp) fun i hi _ => ?_
    rw [List.getElem_map, List.getElem_range]
    exact h.blocks i _
  simp only [LogDisk.readHead, h.count, hcount, hlist]

end Header

structure Fits (log : Log) (lh : List BlockNo) : Prop where
  nodup : lh.Nodup
  home : ∀ b ∈ lh, ¬ log.Area b
  few : lh.length ≤ LOGSIZE
  space : lh.length ≤ log.size - 1

section Area

variable {log : Log} {lh : List BlockNo} {i j : Nat}

theorem start_area (log : Log) : log.Area log.start := .inl rfl

theorem copyOf_area (h : Fits log lh) (hi : i < lh.length) :
    log.Area (log.copyOf i) := by
  have hspace := h.space
  exact .inr ⟨i + 1, by omega, rfl⟩

theorem copyOf_ne_start (h : Fits log lh) (hi : i < lh.length) :
    log.copyOf i ≠ log.start := by
  have hfew := h.few
  simp only [LOGSIZE, MAXOPBLOCKS] at hfew
  unfold Log.copyOf
  bv_omega

theorem copyOf_inj (h : Fits log lh) (hi : i < lh.length) (hj : j < lh.length)
    (heq : log.copyOf i = log.copyOf j) : i = j := by
  have hfew := h.few
  simp only [LOGSIZE, MAXOPBLOCKS] at hfew
  unfold Log.copyOf at heq
  bv_omega

end Area

def toLog (log : Log) (lh : List BlockNo) (c : Disk) : List (BlockNo × Block) :=
  lh.zipIdx.map fun entry => (log.copyOf entry.2, c entry.1)

def toHomes (lh : List BlockNo) (c : Disk) : List (BlockNo × Block) :=
  lh.map fun b => (b, c b)

section Writes

variable {s : LogDisk} {log : Log} {lh : List BlockNo} {c : Disk}

theorem mem_zipIdx {entry : BlockNo × Nat} (h : entry ∈ lh.zipIdx) :
    ∃ hi : entry.2 < lh.length, lh[entry.2] = entry.1 := by
  have hget := List.mem_zipIdx_iff_getElem?.mp h
  exact List.getElem?_eq_some_iff.mp hget

theorem toLog_area (h : Fits log lh) {entry : BlockNo × Block}
    (hentry : entry ∈ toLog log lh c) :
    log.Area entry.1 ∧ entry.1 ≠ log.start := by
  obtain ⟨source, hsource, rfl⟩ := List.mem_map.mp hentry
  obtain ⟨hi, _⟩ := mem_zipIdx hsource
  exact ⟨copyOf_area h hi, copyOf_ne_start h hi⟩

theorem toLog_nodup (h : Fits log lh) :
    ((toLog log lh c).map Prod.fst).Nodup := by
  have hkeys : (toLog log lh c).map Prod.fst =
      (List.range lh.length).map log.copyOf := by
    rw [toLog, List.map_map]
    refine List.ext_getElem (by simp) fun i _ _ => ?_
    simp
  rw [hkeys]
  refine List.Nodup.map_on ?_ List.nodup_range
  intro i hi j hj heq
  exact copyOf_inj h (List.mem_range.mp hi) (List.mem_range.mp hj) heq

theorem toLog_holds (h : Fits log lh) (d : Disk) {i : Nat} (hi : i < lh.length) :
    writes d (toLog log lh c) (log.copyOf i) = c lh[i] := by
  have hmem : (log.copyOf i, c lh[i]) ∈ toLog log lh c := by
    refine List.mem_map.mpr ⟨(lh[i], i), ?_, rfl⟩
    rw [List.mem_zipIdx_iff_getElem?]
    exact List.getElem?_eq_getElem hi
  exact writes_mem d (toLog_nodup h) hmem

theorem writeLog_spec (h : Fits s.log s.log.lh) :
    s.writeLog.written = s.written ++ toLog s.log s.log.lh s.buf ∧
      s.writeLog.buf = writes s.buf (toLog s.log s.log.lh s.buf) := by
  have hcopied : copied s.buf (s.log.lh.zipIdx.map fun entry =>
      (entry.1, s.log.copyOf entry.2)) = toLog s.log s.log.lh s.buf := by
    rw [copied, List.map_map]
    rfl
  rw [← hcopied]
  refine copies_spec fun first hfirst second hsecond heq => ?_
  obtain ⟨entry, hentry, rfl⟩ := List.mem_map.mp hfirst
  obtain ⟨other, hother, rfl⟩ := List.mem_map.mp hsecond
  obtain ⟨hi, _⟩ := mem_zipIdx hentry
  obtain ⟨hj, hget⟩ := mem_zipIdx hother
  refine h.home other.1 (hget ▸ List.getElem_mem hj) ?_
  rw [← show s.log.copyOf entry.2 = other.1 from heq]
  exact copyOf_area h hi

theorem installTrans_spec (h : Fits s.log s.log.lh)
    (hcopies : ∀ i (hi : i < s.log.lh.length),
      s.buf (s.log.copyOf i) = c s.log.lh[i]) :
    s.installTrans.written = s.written ++ toHomes s.log.lh c := by
  have hcopied : copied s.buf (s.log.lh.zipIdx.map fun entry =>
      (s.log.copyOf entry.2, entry.1)) = toHomes s.log.lh c := by
    rw [copied, List.map_map, toHomes]
    refine List.ext_getElem (by simp) fun i hi _ => ?_
    rw [List.length_map, List.length_zipIdx] at hi
    simp [hcopies i hi]
  rw [← hcopied]
  refine (copies_spec fun first hfirst second hsecond heq => ?_).1
  obtain ⟨entry, hentry, rfl⟩ := List.mem_map.mp hfirst
  obtain ⟨other, hother, rfl⟩ := List.mem_map.mp hsecond
  obtain ⟨hi, hget⟩ := mem_zipIdx hentry
  obtain ⟨hj, _⟩ := mem_zipIdx hother
  refine h.home entry.1 (hget ▸ List.getElem_mem hi) ?_
  rw [show entry.1 = s.log.copyOf other.2 from heq]
  exact copyOf_area h hj

theorem writeHead_written (s : LogDisk) :
    s.writeHead.written = s.written ++
      [(s.log.start, header s.log.lh (s.buf s.log.start))] := by
  simp [writeHead, bwrite]

theorem header_nil (block : Block) : (header [] block).word 0 = 0 := by
  refine (header_lists block ?_).count
  simp

/-- `commit` writes the copies, the header, the home blocks and the empty
header. -/
theorem commit_written (h : Fits s.log s.log.lh) (hlh : s.log.lh ≠ []) :
    ∃ listed empty : Block, Lists listed s.log.lh ∧ empty.word 0 = 0 ∧
      s.commit.written = s.written ++ (toLog s.log s.log.lh s.buf ++
        (s.log.start, listed) :: (toHomes s.log.lh s.buf ++
          [(s.log.start, empty)])) := by
  have hlog : s.writeLog.log = s.log := copies_log ..
  obtain ⟨hwritten, hbuf⟩ := writeLog_spec h
  have hcopies : ∀ i (hi : i < s.log.lh.length),
      s.writeLog.writeHead.buf (s.log.copyOf i) = s.buf s.log.lh[i] := by
    intro i hi
    simp only [writeHead, bwrite, hlog, hbuf]
    rw [Function.update_of_ne (copyOf_ne_start h hi)]
    exact toLog_holds h s.buf hi
  have hhead : s.writeLog.writeHead.log = s.log := hlog
  have hinstall : s.writeLog.writeHead.installTrans.written =
      s.writeLog.writeHead.written ++ toHomes s.log.lh s.buf := by
    have hspec := installTrans_spec (s := s.writeLog.writeHead) (c := s.buf)
      (by rw [hhead]; exact h) (by simpa only [hhead] using hcopies)
    rwa [hhead] at hspec
  have hstart : s.writeLog.writeHead.installTrans.clear.log.start = s.log.start := by
    simp [clear, installTrans, copies_log, hhead]
  refine ⟨_, _, header_lists (s.writeLog.buf s.log.start) h.few,
    header_nil (s.writeLog.writeHead.installTrans.clear.buf s.log.start), ?_⟩
  rw [commit, if_pos (List.length_pos_iff.mpr hlh), writeHead_written, hstart]
  simp [clear, hinstall, writeHead_written, hlog, hwritten]

/-- Recovery writes the home blocks listed in the header, and the empty
header. -/
theorem recover_written {d : Disk} (h : Fits log lh)
    (hlists : Lists (d log.start) lh)
    (hcopies : ∀ i (hi : i < lh.length), d (log.copyOf i) = c lh[i]) :
    ∃ empty : Block, empty.word 0 = 0 ∧
      (boot log d).recover.written = toHomes lh c ++ [(log.start, empty)] := by
  have hread := Lists.readHead (s := boot log d) hlists h.few
  have hinstall := installTrans_spec (s := (boot log d).readHead) (c := c)
    (by rw [hread]; exact ⟨h.nodup, h.home, h.few, h.space⟩)
    (by rw [hread]; exact hcopies)
  have hstart : (boot log d).readHead.installTrans.clear.log.start = log.start := by
    simp only [clear, installTrans, copies_log, hread]
    rfl
  refine ⟨_, header_nil ((boot log d).readHead.installTrans.clear.buf log.start), ?_⟩
  rw [recover, writeHead_written, hstart]
  simp only [clear, hinstall]
  rw [hread]
  simp [boot]

end Writes

/-- The header is empty, and outside the log the disk is `target`. -/
structure Clear (log : Log) (target d : Disk) : Prop where
  count : (d log.start).word 0 = 0
  outside : ∀ b, ¬ log.Area b → d b = target b

/-- The header lists `lh`, the log holds the new contents of these blocks, and
all other blocks outside the log are `after`. -/
structure Committed (log : Log) (lh : List BlockNo) (after d : Disk) : Prop where
  lists : Lists (d log.start) lh
  copies : ∀ i (hi : i < lh.length), d (log.copyOf i) = after lh[i]
  outside : ∀ b, ¬ log.Area b → b ∉ lh → d b = after b

section Phases

variable {log : Log} {lh : List BlockNo} {after target d : Disk}
  {done rest : List (BlockNo × Block)} {empty : Block}

theorem Clear.inLog (h : Clear log target d)
    (hlog : ∀ entry ∈ done, log.Area entry.1 ∧ entry.1 ≠ log.start) :
    Clear log target (writes d done) where
  count := by
    rw [writes_other d fun entry hentry => (hlog entry hentry).2]
    exact h.count
  outside b hb := by
    rw [writes_other d fun entry hentry => ?_]
    · exact h.outside b hb
    · rintro rfl
      exact hb (hlog entry hentry).1

theorem Committed.install (h : Committed log lh after d) (hfits : Fits log lh)
    (hdone : done ++ rest = toHomes lh after) :
    Committed log lh after (writes d done) := by
  have hkeys : ∀ entry ∈ done, entry.1 ∈ lh := by
    intro entry hentry
    have hmem : entry ∈ toHomes lh after := by
      rw [← hdone]
      exact List.mem_append_left _ hentry
    obtain ⟨b, hb, rfl⟩ := List.mem_map.mp hmem
    exact hb
  have harea : ∀ b, log.Area b → writes d done b = d b := by
    intro b hb
    refine writes_other d fun entry hentry => ?_
    rintro rfl
    exact hfits.home _ (hkeys entry hentry) hb
  constructor
  · rw [harea _ (start_area log)]
    exact h.lists
  · intro i hi
    rw [harea _ (copyOf_area hfits hi)]
    exact h.copies i hi
  · intro b hb hnot
    rw [writes_other d fun entry hentry => ?_]
    · exact h.outside b hb hnot
    · rintro rfl
      exact hnot (hkeys entry hentry)

theorem Committed.finish (h : Committed log lh after d) (hfits : Fits log lh)
    (hempty : empty.word 0 = 0) :
    Clear log after (writes d (toHomes lh after ++ [(log.start, empty)])) := by
  have hmap : (toHomes lh after).map Prod.fst = lh := by
    simp [toHomes, Function.comp_def]
  rw [writes_append]
  constructor
  · simpa using hempty
  · intro b hb
    have hne : b ≠ log.start := by
      rintro rfl
      exact hb (start_area log)
    rw [writes_cons, writes_nil, Function.update_of_ne hne]
    by_cases hin : b ∈ lh
    · have hmem : (b, after b) ∈ toHomes lh after :=
        List.mem_map.mpr ⟨b, hin, rfl⟩
      refine writes_mem d ?_ hmem
      rw [hmap]
      exact hfits.nodup
    · rw [writes_other d fun entry hentry => ?_]
      · exact h.outside b hb hin
      · rintro rfl
        obtain ⟨other, hother, rfl⟩ := List.mem_map.mp hentry
        exact hin hother

theorem Committed.part (h : Committed log lh after d) (hfits : Fits log lh)
    (hempty : empty.word 0 = 0)
    (hdone : done ++ rest = toHomes lh after ++ [(log.start, empty)]) :
    Committed log lh after (writes d done) ∨ Clear log after (writes d done) := by
  rcases List.append_eq_append_iff.mp hdone with ⟨more, hmore, _⟩ | ⟨more, rfl, hlast⟩
  · exact .inl (h.install hfits hmore.symm)
  · cases more with
    | nil =>
        rw [List.append_nil]
        exact .inl (h.install hfits (List.append_nil _))
    | cons entry more =>
        rw [List.cons_append, List.cons.injEq] at hlast
        obtain ⟨rfl, hnil⟩ := hlast
        rw [(List.append_eq_nil_iff.mp hnil.symm).1]
        exact .inr (h.finish hfits hempty)

theorem Clear.committed (h : Clear log target d) : Committed log [] target d where
  lists := ⟨h.count, nofun⟩
  copies := nofun
  outside b hb _ := h.outside b hb

theorem Committed.clear (h : Committed log [] target d) : Clear log target d where
  count := h.lists.count
  outside b hb := h.outside b hb (by simp)

theorem fits_nil (log : Log) : Fits log [] := ⟨.nil, nofun, Nat.zero_le _, Nat.zero_le _⟩

theorem Committed.recovers (h : Committed log lh after d) (hfits : Fits log lh)
    (hdone : done ++ rest = (boot log d).recover.written) :
    Committed log lh after (writes d done) ∨ Clear log after (writes d done) := by
  obtain ⟨empty, hempty, hwritten⟩ := recover_written hfits h.lists h.copies
  exact h.part hfits hempty (hdone.trans hwritten)

theorem Clear.recovers (h : Clear log target d)
    (hdone : done ++ rest = (boot log d).recover.written) :
    Clear log target (writes d done) :=
  (h.committed.recovers (fits_nil log) hdone).elim Committed.clear id

theorem Clear.crashes {d' : Disk} (h : Clear log target d)
    (hcrash : Crashes log d d') : Clear log target d' := by
  induction hcrash with
  | refl => exact h
  | again _ hdone ih => exact ih.recovers hdone

theorem Committed.crashes {d' : Disk} (h : Committed log lh after d)
    (hfits : Fits log lh) (hcrash : Crashes log d d') :
    Committed log lh after d' ∨ Clear log after d' := by
  induction hcrash with
  | refl => exact .inl h
  | again _ hdone ih =>
      rcases ih with hcommitted | hclear
      · exact hcommitted.recovers hfits hdone
      · exact .inr (hclear.recovers hdone)

theorem recover_disk (log : Log) (d : Disk) :
    (boot log d).recover.disk = writes d (boot log d).recover.written :=
  Tracks.writeHead (s := (boot log d).readHead.installTrans.clear)
    (Tracks.copies (s := (boot log d).readHead) rfl _)

theorem Clear.recovered (h : Clear log target d) :
    Clear log target (boot log d).recover.disk := by
  rw [recover_disk]
  exact h.recovers (List.append_nil _)

theorem Committed.recovered (h : Committed log lh after d) (hfits : Fits log lh) :
    Clear log after (boot log d).recover.disk := by
  obtain ⟨empty, hempty, hwritten⟩ := recover_written hfits h.lists h.copies
  rw [recover_disk, hwritten]
  exact h.finish hfits hempty

end Phases

/-- What the calls of `log_write` in a transaction leave. -/
structure Records (s : LogDisk) (tx : List (BlockNo × Block)) (t : LogDisk) :
    Prop where
  log : t.log = { s.log with lh := t.log.lh }
  written : t.written = s.written
  buf : t.buf = writes s.buf tx
  mem : ∀ b, b ∈ t.log.lh ↔ b ∈ s.log.lh ∨ b ∈ tx.map Prod.fst
  nodup : s.log.lh.Nodup → t.log.lh.Nodup
  few : s.log.lh.length ≤ LOGSIZE → t.log.lh.length ≤ LOGSIZE
  space : s.log.lh.length ≤ s.log.size - 1 → t.log.lh.length ≤ s.log.size - 1

theorem logWrite_records {s t : LogDisk} {entry : BlockNo × Block}
    (h : s.logWrite entry = some t) : s.Records [entry] t := by
  unfold logWrite at h
  split at h
  · contradiction
  next hroom =>
    split at h
    · contradiction
    · cases h
      simp only [not_or] at hroom
      unfold Log.record
      split
      next hin =>
        refine ⟨rfl, rfl, rfl, fun b => ?_, id, id, id⟩
        simp only [List.map_cons, List.map_nil, List.mem_singleton]
        exact (or_iff_left_of_imp fun heq => heq ▸ hin).symm
      next hnew =>
        refine ⟨rfl, rfl, rfl, fun b => ?_, fun hnodup => ?_, fun _ => ?_,
          fun _ => ?_⟩
        · simp
        · exact List.nodup_append.mpr ⟨hnodup, List.nodup_singleton _, by
            rintro b hb other hother rfl
            exact hnew (List.mem_singleton.mp hother ▸ hb)⟩
        · rw [List.length_append, List.length_singleton]
          omega
        · rw [List.length_append, List.length_singleton]
          omega

theorem Records.trans {s middle t : LogDisk} {first second : List (BlockNo × Block)}
    (hfirst : s.Records first middle) (hsecond : middle.Records second t) :
    s.Records (first ++ second) t where
  log := by
    rw [hsecond.log, hfirst.log]
  written := hsecond.written.trans hfirst.written
  buf := by rw [hsecond.buf, hfirst.buf, writes_append]
  mem b := by rw [hsecond.mem, hfirst.mem, List.map_append, List.mem_append, or_assoc]
  nodup h := hsecond.nodup (hfirst.nodup h)
  few h := hsecond.few (hfirst.few h)
  space h := by
    have hspace := hsecond.space
    rw [hfirst.log] at hspace
    exact hspace (hfirst.space h)

theorem transaction_records {s t : LogDisk} {tx : List (BlockNo × Block)}
    (h : s.transaction tx = some t) : s.Records tx t := by
  induction tx generalizing s with
  | nil =>
      cases h
      exact ⟨rfl, rfl, rfl, by simp, id, id, id⟩
  | cons entry tx ih =>
      obtain ⟨middle, hfirst, hrest⟩ := Option.bind_eq_some_iff.mp h
      exact (logWrite_records hfirst).trans (ih hrest)

def Reached (log : Log) (done : List (BlockNo × Block)) : Prop :=
  ∃ entry ∈ done, entry.1 = log.start ∧ entry.2.word 0 ≠ 0

/-- The disk that recovery leaves after a crash, all or nothing. -/
structure Atomic (log : Log) (before after recovered : Disk) (reached : Prop) :
    Prop where
  all : reached → ∀ b, ¬ log.Area b → recovered b = after b
  nothing : ¬ reached → ∀ b, ¬ log.Area b → recovered b = before b
  /-- A transaction that changes nothing is as after it in any case. -/
  exactly : (∀ b, ¬ log.Area b → recovered b = after b) ↔
    reached ∨ ∀ b, ¬ log.Area b → before b = after b

theorem atomic_of {log : Log} {before after recovered : Disk} {reached : Prop}
    (hall : reached → ∀ b, ¬ log.Area b → recovered b = after b)
    (hnothing : ¬ reached → ∀ b, ¬ log.Area b → recovered b = before b) :
    Atomic log before after recovered reached := by
  refine ⟨hall, hnothing, fun hafter => ?_, ?_⟩
  · by_cases hreached : reached
    · exact .inl hreached
    · refine .inr fun b hb => ?_
      rw [← hnothing hreached b hb, hafter b hb]
  · rintro (hreached | hsame)
    · exact hall hreached
    · intro b hb
      by_cases hreached : reached
      · exact hall hreached b hb
      · rw [hnothing hreached b hb, hsame b hb]

section Atomic

variable {log : Log} {d d' : Disk} {tx : List (BlockNo × Block)} {s : LogDisk}
  {done rest : List (BlockNo × Block)}

theorem Records.fits (h : (boot log d).Records tx s)
    (htx : ∀ entry ∈ tx, ¬ log.Area entry.1) : Fits log s.log.lh where
  nodup := h.nodup .nil
  home b hb := by
    have hmem := (h.mem b).mp hb
    simp only [boot, List.not_mem_nil, false_or, List.mem_map] at hmem
    obtain ⟨entry, hentry, rfl⟩ := hmem
    exact htx entry hentry
  few := h.few (Nat.zero_le _)
  space := h.space (Nat.zero_le _)

theorem Records.changed (h : (boot log d).Records tx s) {b : BlockNo}
    (hb : b ∉ s.log.lh) : s.buf b = d b := by
  rw [h.buf]
  refine writes_other _ fun entry hentry heq => hb ((h.mem b).mpr (.inr ?_))
  exact List.mem_map.mpr ⟨entry, hentry, heq⟩

omit d d' tx s done rest in
theorem count_ne_zero {lh : List BlockNo} (h : Fits log lh) (hlh : lh ≠ []) :
    BitVec.ofNat 32 lh.length ≠ 0 := by
  have hfew := h.few
  have hpos := List.length_pos_iff.mpr hlh
  simp only [LOGSIZE, MAXOPBLOCKS] at hfew
  bv_omega

theorem commits_header {lh : List BlockNo} {listed : Block} {c : Disk}
    (h : Fits log lh) (hlists : Lists listed lh)
    (hchanged : ∀ {b}, b ∉ lh → c b = d b) :
    Committed log lh c (writes d (toLog log lh c ++ [(log.start, listed)])) := by
  rw [writes_append, writes_cons, writes_nil]
  constructor
  · rw [Function.update_self]
    exact hlists
  · intro i hi
    rw [Function.update_of_ne (copyOf_ne_start h hi)]
    exact toLog_holds h d hi
  · intro b hb hnot
    have hne : b ≠ log.start := by
      rintro rfl
      exact hb (start_area log)
    rw [Function.update_of_ne hne, writes_other d fun entry hentry => ?_, hchanged hnot]
    rintro rfl
    exact hb (toLog_area h hentry).1

theorem Records.commit (h : (boot log d).Records tx s)
    (htx : ∀ entry ∈ tx, ¬ log.Area entry.1) (hlh : s.log.lh ≠ []) :
    ∃ listed empty : Block, Lists listed s.log.lh ∧ empty.word 0 = 0 ∧
      s.commit.written = toLog log s.log.lh s.buf ++
        (log.start, listed) :: (toHomes s.log.lh s.buf ++
          [(log.start, empty)]) := by
  have hfits := h.fits htx
  have hstart : s.log.start = log.start := by
    rw [h.log]
    rfl
  have hlog : Fits s.log s.log.lh := by
    rw [h.log]
    exact ⟨hfits.nodup, hfits.home, hfits.few, hfits.space⟩
  obtain ⟨listed, empty, hlists, hempty, hwritten⟩ := commit_written hlog hlh
  have hcopies : toLog s.log s.log.lh s.buf = toLog log s.log.lh s.buf := by
    simp only [toLog, Log.copyOf, hstart]
  rw [h.written, hcopies, hstart, boot, List.nil_append] at hwritten
  exact ⟨listed, empty, hlists, hempty, hwritten⟩

theorem Records.commit_nil (h : (boot log d).Records tx s) (hlh : s.log.lh = []) :
    s.commit.written = [] := by
  rw [LogDisk.commit, if_neg (by simp [hlh]), h.written]
  rfl

theorem commit_part (h : (boot log d).Records tx s)
    (htx : ∀ entry ∈ tx, ¬ log.Area entry.1) (hclear : (d log.start).word 0 = 0)
    (hdone : done ++ rest = s.commit.written) :
    ¬ Reached log done ∧ Clear log d (writes d done) ∨
      Reached log done ∧ (Committed log s.log.lh s.buf (writes d done) ∨
        Clear log s.buf (writes d done)) := by
  have hfits := h.fits htx
  have hbefore : Clear log d d := ⟨hclear, fun _ _ => rfl⟩
  have hunreached : ∀ {part : List (BlockNo × Block)},
      (∀ entry ∈ part, log.Area entry.1 ∧ entry.1 ≠ log.start) →
        ¬ Reached log part ∧ Clear log d (writes d part) := by
    intro part hpart
    refine ⟨?_, hbefore.inLog hpart⟩
    rintro ⟨entry, hentry, heq, _⟩
    exact (hpart entry hentry).2 heq
  by_cases hlh : s.log.lh = []
  · rw [h.commit_nil hlh] at hdone
    rw [(List.append_eq_nil_iff.mp hdone).1]
    exact .inl (hunreached nofun)
  obtain ⟨listed, empty, hlists, hempty, hwritten⟩ := h.commit htx hlh
  rw [hwritten] at hdone
  rcases List.append_eq_append_iff.mp hdone with ⟨more, hmore, _⟩ | ⟨more, rfl, hlast⟩
  · -- The crash comes before the header is written.
    refine .inl (hunreached fun entry hentry => toLog_area hfits (c := s.buf) ?_)
    rw [hmore]
    exact List.mem_append_left _ hentry
  · cases more with
    | nil =>
        rw [List.append_nil]
        exact .inl (hunreached fun entry hentry => toLog_area hfits hentry)
    | cons entry more =>
        rw [List.cons_append, List.cons.injEq] at hlast
        obtain ⟨rfl, hlast⟩ := hlast
        have hreached : Reached log
            (toLog log s.log.lh s.buf ++ (log.start, listed) :: more) := by
          refine ⟨(log.start, listed), by simp, rfl, ?_⟩
          rw [hlists.count]
          exact count_ne_zero hfits hlh
        have hcommitted := commits_header hfits hlists h.changed (c := s.buf)
        refine .inr ⟨hreached, ?_⟩
        rw [List.append_cons, writes_append]
        exact hcommitted.part hfits hempty hlast.symm

theorem mem_toHomes {lh : List BlockNo} {c : Disk} {empty : Block}
    {entry : BlockNo × Block}
    (h : entry ∈ toHomes lh c ++ [(log.start, empty)]) :
    log.Area entry.1 ∨ entry.1 ∈ lh := by
  rcases List.mem_append.mp h with hhome | hstart
  · obtain ⟨b, hb, rfl⟩ := List.mem_map.mp hhome
    exact .inr hb
  · rw [List.mem_singleton] at hstart
    rw [hstart]
    exact .inl (start_area log)

theorem commit_inside (h : (boot log d).Records tx s)
    (htx : ∀ entry ∈ tx, ¬ log.Area entry.1) {entry : BlockNo × Block}
    (hentry : entry ∈ s.commit.written) :
    log.Area entry.1 ∨ entry.1 ∈ s.log.lh := by
  by_cases hlh : s.log.lh = []
  · rw [h.commit_nil hlh] at hentry
    contradiction
  obtain ⟨listed, empty, _, _, hwritten⟩ := h.commit htx hlh
  rw [hwritten] at hentry
  rcases List.mem_append.mp hentry with hcopy | hlater
  · exact .inl (toLog_area (h.fits htx) hcopy).1
  · rcases List.mem_cons.mp hlater with rfl | hhome
    · exact .inl (start_area log)
    · exact mem_toHomes hhome

theorem Committed.inside {lh : List BlockNo} {c : Disk}
    (h : Committed log lh c d) (hfits : Fits log lh) {entry : BlockNo × Block}
    (hentry : entry ∈ (boot log d).recover.written) :
    log.Area entry.1 ∨ entry.1 ∈ lh := by
  obtain ⟨empty, _, hwritten⟩ := recover_written hfits h.lists h.copies
  rw [hwritten] at hentry
  exact mem_toHomes hentry

end Atomic

/-- A crash at any point of `commit`, followed by any number of crashes during
recovery, leaves all of a transaction or nothing of it: all of it once the header
has reached the disk.  No write falls outside the log and the blocks logged. -/
theorem crash_atomic {log : Log} {d d' : Disk} {tx : List (BlockNo × Block)}
    {s : LogDisk} {done rest : List (BlockNo × Block)}
    (hclear : (d log.start).word 0 = 0)
    (htx : ∀ entry ∈ tx, ¬ log.Area entry.1)
    (hs : (boot log d).transaction tx = some s)
    (hdone : done ++ rest = s.commit.written)
    (hcrash : Crashes log (writes d done) d') :
    Atomic log d (writes d tx) (boot log d').recover.disk (Reached log done) ∧
      ∀ entry ∈ s.commit.written ++ (boot log d').recover.written,
        log.Area entry.1 ∨ entry.1 ∈ tx.map Prod.fst := by
  have hrecords := transaction_records hs
  have hfits := hrecords.fits htx
  have hafter : s.buf = writes d tx := hrecords.buf
  have hlogged : ∀ b, b ∈ s.log.lh → b ∈ tx.map Prod.fst := by
    intro b hb
    exact ((hrecords.mem b).mp hb).resolve_left nofun
  have hinside : ∀ entry ∈ s.commit.written,
      log.Area entry.1 ∨ entry.1 ∈ tx.map Prod.fst := fun entry hentry =>
    (commit_inside hrecords htx hentry).imp_right (hlogged _)
  have hclean : ∀ {target}, Clear log target d' →
      ∀ entry ∈ s.commit.written ++ (boot log d').recover.written,
        log.Area entry.1 ∨ entry.1 ∈ tx.map Prod.fst := by
    intro target h entry hentry
    rcases List.mem_append.mp hentry with hcommit | hrecover
    · exact hinside entry hcommit
    · exact (h.committed.inside (fits_nil log) hrecover).imp_right nofun
  rcases commit_part hrecords htx hclear hdone with ⟨hnot, h⟩ | ⟨hreached, h⟩
  · have h := h.crashes hcrash
    refine ⟨atomic_of (fun hreached => absurd hreached hnot) fun _ b hb => ?_,
      hclean h⟩
    exact h.recovered.outside b hb
  · rw [hafter] at h
    have h : Committed log s.log.lh (writes d tx) d' ∨
        Clear log (writes d tx) d' := by
      rcases h with h | h
      · exact h.crashes hfits hcrash
      · exact .inr (h.crashes hcrash)
    have hend : Clear log (writes d tx) (boot log d').recover.disk :=
      h.elim (fun h => h.recovered hfits) Clear.recovered
    refine ⟨atomic_of (fun _ => hend.outside) fun hnot => absurd hreached hnot, ?_⟩
    rcases h with h | h
    · intro entry hentry
      rcases List.mem_append.mp hentry with hcommit | hrecover
      · exact hinside entry hcommit
      · exact (h.inside hfits hrecover).imp_right (hlogged _)
    · exact hclean h

def oneOp : Log := { start := 2, size := 30, outstanding := 1 }

def zeros : Disk := fun _ _ => 0

theorem oneOp_home {b : BlockNo} (hb : 32 ≤ b.toNat) : ¬ oneOp.Area b := by
  rintro (heq | ⟨i, hi, heq⟩)
  · have hval : b = 2 := heq
    bv_omega
  · have hlt : i < 30 := hi
    have hval : b = 2 + BitVec.ofNat 32 i := heq
    bv_omega

def twoBlocks : List (BlockNo × Block) := [(100, fun _ => 1), (101, fun _ => 2)]

/-- A crash after `k` writes of the commit, and one after `j` writes of the recovery. -/
theorem crash_atomic_twoBlocks :
    ∃ s, (boot oneOp zeros).transaction twoBlocks = some s ∧ ∀ k j,
      let disk := writes zeros (s.commit.written.take k)
      Atomic oneOp zeros (writes zeros twoBlocks)
        (boot oneOp (writes disk ((boot oneOp disk).recover.written.take j))).recover.disk
        (Reached oneOp (s.commit.written.take k)) := by
  obtain ⟨s, hs⟩ : ∃ s, (boot oneOp zeros).transaction twoBlocks = some s := ⟨_, rfl⟩
  have hhome : ∀ entry ∈ twoBlocks, ¬ oneOp.Area entry.1 := by
    simp [twoBlocks, oneOp_home]
  exact ⟨s, hs, fun k j => (crash_atomic (by decide) hhome hs (List.take_append_drop k _)
    (.again .refl (List.take_append_drop j _))).1⟩

/-- A block that is logged unchanged is as after the transaction, though the
header never reached the disk. -/
theorem crash_before_header :
    ¬ ∀ (log : Log) (d d' : Disk) (tx : List (BlockNo × Block)) (s : LogDisk)
      (done rest : List (BlockNo × Block)),
      (d log.start).word 0 = 0 → (∀ entry ∈ tx, ¬ log.Area entry.1) →
      (boot log d).transaction tx = some s → done ++ rest = s.commit.written →
      Crashes log (writes d done) d' →
        ((∀ b, ¬ log.Area b → (boot log d').recover.disk b = writes d tx b) ↔
          Reached log done) := by
  intro hexactly
  obtain ⟨s, hs⟩ : ∃ s, (boot oneOp zeros).transaction [(100, zeros 100)] =
      some s := ⟨_, rfl⟩
  have hclear : Clear oneOp zeros zeros := ⟨by decide, fun _ _ => rfl⟩
  have hafter : ∀ b, ¬ oneOp.Area b → (boot oneOp zeros).recover.disk b =
      writes zeros [(100, zeros 100)] b := by
    intro b hb
    rw [hclear.recovered.outside b hb, writes_cons, writes_nil,
      Function.update_eq_self]
  obtain ⟨entry, hentry, _⟩ := (hexactly oneOp zeros zeros [(100, zeros 100)] s []
    s.commit.written (by decide) (by simp [oneOp_home]) hs rfl .refl).mp hafter
  contradiction

end LogDisk

end KernelThreads.Fs
