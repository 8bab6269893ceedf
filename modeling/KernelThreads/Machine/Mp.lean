import Mathlib.Logic.Function.Iterate
import KernelThreads.Lib.Memory
import KernelThreads.Mem.Page

namespace KernelThreads.Mp

open Lib

/-! The tables of the firmware that describe the processors, `mp.c`. -/

abbrev Byte := BitVec 8

abbrev Ptr := BitVec 32

abbrev NCPU : Nat := 8

def MPPROC : Byte := 0x00
def MPBUS : Byte := 0x01
def MPIOAPIC : Byte := 0x02
def MPIOINTR : Byte := 0x03
def MPLINTR : Byte := 0x04

def p2v (a : BitVec 32) : Ptr := a + .ofNat 32 KERNBASE

section Search

variable (m : Memory)

def bytes (addr : Ptr) (len : Nat) : List Byte :=
  (List.range len).map fun i => m (addr + .ofNat 32 i)

/-- The bytes are added up in an `int`, of which a `uchar` is returned. -/
def sum (addr : Ptr) (len : Nat) : Byte :=
  .ofNat 8 ((bytes m addr len).foldl (fun sum byte => sum + byte.toNat) 0)

/-- The 16 bytes of a `struct mp` are looked for in steps of their size. -/
def mpsearch1 (a : BitVec 32) (len : Nat) : Option Ptr :=
  ((List.range ((len + 15) / 16)).map fun i => p2v a + .ofNat 32 (16 * i)).find? fun p =>
    -- "_MP_"
    bytes m p 4 = [0x5F, 0x4D, 0x50, 0x5F] ∧ sum m p 16 = 0

def mpsearch : Option Ptr :=
  let bda := p2v 0x400
  let ebda := ((m (bda + 0x0F)).zeroExtend 32 <<< 8 ||| (m (bda + 0x0E)).zeroExtend 32) <<< 4
  let base := ((m (bda + 0x14)).zeroExtend 32 <<< 8 ||| (m (bda + 0x13)).zeroExtend 32) * 1024
  let found := if ebda ≠ 0 then mpsearch1 m ebda 1024 else mpsearch1 m (base - 1024) 1024
  found <|> mpsearch1 m 0xF0000 0x10000

def length (conf : Ptr) : Nat := (m (conf + 5) ++ m (conf + 4)).toNat

def mpconfig : Option (Ptr × Ptr) :=
  match mpsearch m with
  | none => none
  | some mp =>
      let physaddr := m.word (mp + 4)
      let conf := p2v physaddr
      let version := m (conf + 6)
      if physaddr = 0 then none
      -- "PCMP"
      else if bytes m conf 4 ≠ [0x50, 0x43, 0x4D, 0x50] then none
      else if version ≠ 1 ∧ version ≠ 4 then none
      else if sum m conf (length m conf) ≠ 0 then none
      else some (mp, conf)

end Search

structure Found where
  lapic : BitVec 32 := 0
  /-- The `apicid` of `cpus`. -/
  cpus : Fin NCPU → Byte := fun _ => 0
  ncpu : Nat := 0
  ioapicid : Byte := 0
  out : List (BitVec 16 × Byte) := []

inductive Panic where
  /-- "Expect to run on an SMP" -/
  | expectSmp
  /-- "Didn't find a suitable machine" -/
  | notSuitable
  deriving DecidableEq

structure Scan where
  p : Ptr
  ismp : Bool
  found : Found

def Found.addProc (f : Found) (apicid : Byte) : Found :=
  if h : f.ncpu < NCPU then
    { f with cpus := Function.update f.cpus ⟨f.ncpu, h⟩ apicid, ncpu := f.ncpu + 1 }
  else f

def Scan.turn (m : Memory) (s : Scan) : Scan :=
  let type := m s.p
  if type = MPPROC then { s with found := s.found.addProc (m (s.p + 1)), p := s.p + 20 }
  else if type = MPIOAPIC then
    { s with found := { s.found with ioapicid := m (s.p + 1) }, p := s.p + 8 }
  else if type = MPBUS ∨ type = MPIOINTR ∨ type = MPLINTR then { s with p := s.p + 8 }
  -- The `break` leaves the `switch`, not the loop.
  else { s with ismp := false }

def Scan.pass (m : Memory) (e : Ptr) (s : Scan) : Scan := if s.p < e then s.turn m else s

def Scan.start (m : Memory) (conf : Ptr) : Scan where
  p := conf + 44
  ismp := true
  found := { lapic := m.word (conf + 36) }

def tableEnd (m : Memory) (conf : Ptr) : Ptr := conf + .ofNat 32 (length m conf)

def scan (m : Memory) (conf : Ptr) (turns : Nat) : Scan :=
  (Scan.pass m (tableEnd m conf))^[turns] (.start m conf)

/-- The interrupt mode register, if there is one: it is selected, and masks external
interrupts. -/
def Found.setImcr (f : Found) (imcrp : Byte) (inb : BitVec 16 → Byte) : Found :=
  if imcrp = 0 then f
  else { f with out := f.out ++ [(0x22, 0x70), (0x23, inb 0x23 ||| 1)] }

/-- Whether `mpinit` ends within so many turns of its loop, with which panic, and what
it has found by then. -/
def mpinit (m : Memory) (inb : BitVec 16 → Byte) (turns : Nat) :
    Option (Option Panic × Found) :=
  match mpconfig m with
  | none => some (some .expectSmp, {})
  | some (mp, conf) =>
      let last := scan m conf turns
      if last.p < tableEnd m conf then none
      else if !last.ismp then some (some .notSuitable, last.found)
      else some (none, last.found.setImcr (m (mp + 12)) inb)

inductive Entry where
  | proc (apicid : Byte)
  | ioapic (apicno : Byte)
  /-- A bus, or an interrupt source. -/
  | other
  | unknown
  deriving DecidableEq

namespace Entry

def read (type id : Byte) : Entry :=
  if type = 0 then .proc id
  else if type = 2 then .ioapic id
  else if type = 1 ∨ type = 3 ∨ type = 4 then .other
  else .unknown

def size : Entry → Nat
  | .proc _ => 20
  | _ => 8

def procs : Entry → List Byte
  | .proc apicid => [apicid]
  | _ => []

theorem size_pos (entry : Entry) : 0 < entry.size := by
  cases entry <;> simp [size]

theorem size_le (entry : Entry) : entry.size ≤ 20 := by
  cases entry <;> simp [size]

end Entry

def entryAt (table : Nat → Byte) (off : Nat) : Entry := .read (table off) (table (off + 1))

/-- The entries of a table of `len` bytes from an offset on, up to the first whose type
is unknown. -/
def entriesFrom (table : Nat → Byte) (len off : Nat) : List Entry :=
  if off < len then
    if entryAt table off = .unknown then [.unknown]
    else entryAt table off :: entriesFrom table len (off + (entryAt table off).size)
  else []
termination_by len - off
decreasing_by
  have hsize := (entryAt table off).size_pos
  omega

/-- A table that `mpconfig` accepts.  It and its header, and what a last entry takes
beyond its end, are below the top of the address space; the memory of the kernel is. -/
structure Table (m : Memory) where
  mp : Ptr
  conf : Ptr
  accepted : mpconfig m = some (mp, conf)
  below : conf.toNat + 64 + length m conf ≤ 2 ^ 32

/-- The kernel sees physical memory far below the top. -/
theorem below_of_physical {m : Memory} {pa : BitVec 32}
    (h : pa.toNat + length m (p2v pa) ≤ PHYSTOP) :
    (p2v pa).toNat + 64 + length m (p2v pa) ≤ 2 ^ 32 := by
  have hconf : (p2v pa).toNat = pa.toNat + KERNBASE := by
    rw [p2v, BitVec.toNat_add, BitVec.toNat_ofNat]
    simp only [PHYSTOP, KERNBASE] at h ⊢
    omega
  simp only [PHYSTOP] at h
  rw [hconf, KERNBASE]
  omega

namespace Table

variable {m : Memory} (table : Table m)

def byte (off : Nat) : Byte := m (table.conf + .ofNat 32 off)

def entries : List Entry := entriesFrom table.byte (length m table.conf) 44

end Table

def Found.apicids (f : Found) : List Byte := (List.ofFn f.cpus).take f.ncpu

/-- What is asked of `mpinit` for a table: it ends, it has the first processors of the
table in order and not too many at any time, and it panics if there is an unknown
entry. -/
structure ScanSafe {m : Memory} (table : Table m) (inb : BitVec 16 → Byte) : Prop where
  ends : ∃ turns panic found, mpinit m inb turns = some (panic, found) ∧
    found.apicids = (table.entries.flatMap Entry.procs).take NCPU ∧
    (.unknown ∈ table.entries → panic = some .notSuitable)
  within : ∀ turns, (scan m table.conf turns).found.ncpu ≤ NCPU

section Processors

variable {f : Found} {apicid : Byte}

theorem Found.ncpu_addProc (h : f.ncpu ≤ NCPU) : (f.addProc apicid).ncpu ≤ NCPU := by
  unfold addProc
  split
  next hroom => exact hroom
  next => exact h

theorem Found.length_apicids (h : f.ncpu ≤ NCPU) : f.apicids.length = f.ncpu := by
  rw [apicids, List.length_take, List.length_ofFn, Nat.min_eq_left h]

theorem Found.take_apicids (h : f.ncpu ≤ NCPU) : (f.apicids ++ []).take NCPU = f.apicids := by
  rw [List.append_nil, List.take_of_length_le ((length_apicids h).le.trans h)]

theorem Found.apicids_addProc (h : f.ncpu ≤ NCPU) :
    (f.addProc apicid).apicids = (f.apicids ++ [apicid]).take NCPU := by
  have hlength := length_apicids h
  unfold addProc
  split
  next hroom =>
    have hset : List.ofFn (Function.update f.cpus ⟨f.ncpu, hroom⟩ apicid) =
        (List.ofFn f.cpus).set f.ncpu apicid := by
      rw [List.ofFn_eq_map, List.ofFn_eq_map, (List.nodup_finRange _).map_update,
        if_pos (List.mem_finRange _), List.idxOf_finRange]
    rw [List.take_of_length_le (by rw [List.length_append, hlength]; exact hroom)]
    show (List.ofFn (Function.update f.cpus _ _)).take (f.ncpu + 1) = _
    rw [hset, List.take_succ_eq_append_getElem (by simpa using hroom),
      List.take_set_of_le le_rfl, List.getElem_set_self]
    rfl
  next hfull =>
    have hall : f.apicids.length = NCPU := by omega
    rw [List.take_append_of_le_length hall.ge, List.take_of_length_le hall.le]

end Processors

section Turns

variable {m : Memory} {s : Scan} {e : Ptr}

def Scan.entry (m : Memory) (s : Scan) : Entry := .read (m s.p) (m (s.p + 1))

theorem Scan.turn_eq (m : Memory) (s : Scan) : s.turn m = match s.entry m with
    | .proc apicid => { s with found := s.found.addProc apicid, p := s.p + 20 }
    | .ioapic apicno => { s with found := { s.found with ioapicid := apicno }, p := s.p + 8 }
    | .other => { s with p := s.p + 8 }
    | .unknown => { s with ismp := false } := by
  unfold turn entry Entry.read MPPROC MPIOAPIC MPBUS MPIOINTR MPLINTR
  dsimp only
  split_ifs <;> rfl

theorem Scan.turn_known (h : s.entry m ≠ .unknown) :
    (s.turn m).p = s.p + .ofNat 32 (s.entry m).size ∧ (s.turn m).ismp = s.ismp := by
  rw [turn_eq]
  cases hentry : s.entry m with
  | proc apicid => exact ⟨rfl, rfl⟩
  | ioapic apicno => exact ⟨rfl, rfl⟩
  | other => exact ⟨rfl, rfl⟩
  | unknown => exact absurd hentry h

theorem Scan.turn_unknown (h : s.entry m = .unknown) : (s.turn m).p = s.p := by
  rw [turn_eq, h]

theorem Scan.ncpu_turn (h : s.found.ncpu ≤ NCPU) : (s.turn m).found.ncpu ≤ NCPU := by
  rw [turn_eq]
  cases s.entry m with
  | proc apicid => exact Found.ncpu_addProc h
  | ioapic apicno => exact h
  | other => exact h
  | unknown => exact h

theorem Scan.apicids_turn (h : s.found.ncpu ≤ NCPU) :
    (s.turn m).found.apicids = (s.found.apicids ++ (s.entry m).procs).take NCPU := by
  have hsame := Found.take_apicids h
  rw [turn_eq]
  cases s.entry m with
  | proc apicid => exact Found.apicids_addProc h
  | ioapic apicno => exact hsame.symm
  | other => exact hsame.symm
  | unknown => exact hsame.symm

theorem Scan.ncpu_pass (h : s.found.ncpu ≤ NCPU) : (s.pass m e).found.ncpu ≤ NCPU := by
  unfold pass
  split
  · exact ncpu_turn h
  · exact h

theorem ncpu_scan (m : Memory) (conf : Ptr) (turns : Nat) :
    (scan m conf turns).found.ncpu ≤ NCPU :=
  Function.Iterate.rec (fun s : Scan => s.found.ncpu ≤ NCPU) (Nat.zero_le _)
    (fun _ => Scan.ncpu_pass) turns

theorem Scan.stuck (hp : s.p < e) (hentry : s.entry m = .unknown) (turns : Nat) :
    ((Scan.pass m e)^[turns] s).p = s.p := by
  induction turns generalizing s with
  | zero => rfl
  | succ turns ih =>
      have hturn : (s.pass m e).p = s.p := by rw [pass, if_pos hp, turn_unknown hentry]
      have hsame : (s.pass m e).entry m = .unknown := by rw [entry, hturn, ← hentry, entry]
      rw [Function.iterate_succ_apply, ih (by rwa [hturn]) hsame, hturn]

end Turns

theorem Found.apicids_setImcr (f : Found) (imcrp : Byte) (inb : BitVec 16 → Byte) :
    (f.setImcr imcrp inb).apicids = f.apicids := by
  unfold setImcr
  split <;> rfl

theorem take_append_of_take (l r : List Byte) (n : Nat) :
    (l.take n ++ r).take n = (l ++ r).take n := by
  rw [List.take_append, List.take_append, List.take_take, Nat.min_self, List.length_take]
  congr 2
  omega

section Run

variable {m : Memory} (table : Table m) {s : Scan} {off : Nat}

namespace Table

theorem toNat_at (hoff : table.conf.toNat + off < 2 ^ 32) :
    (table.conf + BitVec.ofNat 32 off).toNat = table.conf.toNat + off := by
  rw [BitVec.toNat_add, BitVec.toNat_ofNat]
  omega

theorem lt_end (hoff : table.conf.toNat + off < 2 ^ 32) :
    table.conf + BitVec.ofNat 32 off < tableEnd m table.conf ↔ off < length m table.conf := by
  have hbelow := table.below
  rw [BitVec.lt_def, tableEnd, toNat_at table hoff, toNat_at table (by omega)]
  omega

structure At (off : Nat) (s : Scan) : Prop where
  p : s.p = table.conf + BitVec.ofNat 32 off
  fits : table.conf.toNat + off < 2 ^ 32
  ncpu : s.found.ncpu ≤ NCPU

variable {table}

theorem At.entry (h : table.At off s) : s.entry m = entryAt table.byte off := by
  have hnext : BitVec.ofNat 32 (off + 1) = BitVec.ofNat 32 off + 1 := BitVec.ofNat_add ..
  rw [Scan.entry, h.p, entryAt, byte, byte, hnext, BitVec.add_assoc]

theorem At.lt_end (h : table.At off s) :
    s.p < tableEnd m table.conf ↔ off < length m table.conf := by
  rw [h.p]
  exact table.lt_end h.fits

theorem At.pass (h : table.At off s) (hoff : off < length m table.conf)
    (hknown : s.entry m ≠ .unknown) :
    table.At (off + (s.entry m).size) (s.pass m (tableEnd m table.conf)) ∧
      (s.pass m (tableEnd m table.conf)).ismp = s.ismp ∧
      (s.pass m (tableEnd m table.conf)).found.apicids =
        (s.found.apicids ++ (s.entry m).procs).take NCPU := by
  have hbelow := table.below
  have hsize := (s.entry m).size_le
  obtain ⟨hp, hismp⟩ := Scan.turn_known hknown
  rw [Scan.pass, if_pos (h.lt_end.mpr hoff)]
  refine ⟨⟨?_, by omega, Scan.ncpu_turn h.ncpu⟩, hismp, Scan.apicids_turn h.ncpu⟩
  rw [hp, h.p, BitVec.ofNat_add, BitVec.add_assoc]

theorem At.ends (h : table.At off s)
    (hknown : .unknown ∉ entriesFrom table.byte (length m table.conf) off) :
    ∃ turns last, (Scan.pass m (tableEnd m table.conf))^[turns] s = last ∧
      ¬ last.p < tableEnd m table.conf ∧ last.ismp = s.ismp ∧
      last.found.apicids = (s.found.apicids ++
        (entriesFrom table.byte (length m table.conf) off).flatMap Entry.procs).take NCPU := by
  induction off using entriesFrom.induct table.byte (length m table.conf) generalizing s with
  | case1 off hoff hentry =>
      rw [entriesFrom, if_pos hoff, if_pos hentry] at hknown
      exact absurd (List.mem_singleton_self _) hknown
  | case2 off hoff hentry ih =>
      rw [entriesFrom, if_pos hoff, if_neg hentry] at hknown ⊢
      rw [← h.entry] at hentry ih hknown ⊢
      obtain ⟨hnext, hismp, hapicids⟩ := h.pass hoff hentry
      obtain ⟨turns, last, hrun, hend, hsame, hlast⟩ :=
        ih hnext (List.not_mem_of_not_mem_cons hknown)
      refine ⟨turns + 1, last, hrun, hend, hsame.trans hismp, ?_⟩
      rw [hlast, hapicids, List.flatMap_cons, ← List.append_assoc, take_append_of_take]
  | case3 off hoff =>
      rw [entriesFrom, if_neg hoff]
      exact ⟨0, s, rfl, fun hlt => hoff (h.lt_end.mp hlt), rfl,
        (Found.take_apicids h.ncpu).symm⟩

theorem At.never_ends (h : table.At off s)
    (hunknown : .unknown ∈ entriesFrom table.byte (length m table.conf) off) (turns : Nat) :
    ((Scan.pass m (tableEnd m table.conf))^[turns] s).p < tableEnd m table.conf := by
  induction off using entriesFrom.induct table.byte (length m table.conf)
    generalizing s turns with
  | case1 off hoff hentry =>
      have hp := h.lt_end.mpr hoff
      rw [Scan.stuck hp (h.entry.trans hentry)]
      exact hp
  | case2 off hoff hentry ih =>
      rw [entriesFrom, if_pos hoff, if_neg hentry] at hunknown
      rw [← h.entry] at hentry ih hunknown
      cases turns with
      | zero => exact h.lt_end.mpr hoff
      | succ turns =>
          have hrest := (List.mem_cons.mp hunknown).resolve_left (Ne.symm hentry)
          exact ih (h.pass hoff hentry).1 hrest turns
  | case3 off hoff =>
      rw [entriesFrom, if_neg hoff] at hunknown
      cases hunknown

variable (table)

theorem at_start : table.At 44 (.start m table.conf) where
  p := rfl
  fits := by
    have hbelow := table.below
    omega
  ncpu := Nat.zero_le _

theorem mpinit_run (inb : BitVec 16 → Byte) (turns : Nat) : mpinit m inb turns =
    if (scan m table.conf turns).p < tableEnd m table.conf then none
    else if !(scan m table.conf turns).ismp then
      some (some .notSuitable, (scan m table.conf turns).found)
    else some (none, (scan m table.conf turns).found.setImcr (m (table.mp + 12)) inb) := by
  rw [mpinit, table.accepted]

theorem mpinit_none (hunknown : .unknown ∈ table.entries) (inb : BitVec 16 → Byte)
    (turns : Nat) : mpinit m inb turns = none := by
  have hlt : (scan m table.conf turns).p < tableEnd m table.conf :=
    table.at_start.never_ends hunknown turns
  rw [table.mpinit_run, if_pos hlt]

end Table

/-- The scan does what it should for the tables that have no entry of an unknown type:
at such an entry the loop goes on for ever. -/
theorem mpinit_safe_iff (inb : BitVec 16 → Byte) :
    ScanSafe table inb ↔ .unknown ∉ table.entries := by
  constructor
  · rintro ⟨⟨turns, panic, found, hrun, _⟩, _⟩ hunknown
    rw [table.mpinit_none hunknown] at hrun
    cases hrun
  · intro hknown
    obtain ⟨turns, last, hrun, hend, hismp, hapicids⟩ := table.at_start.ends hknown
    have hlast : scan m table.conf turns = last := hrun
    refine ⟨⟨turns, none, last.found.setImcr (m (table.mp + 12)) inb, ?_, ?_, ?_⟩,
      ncpu_scan m table.conf⟩
    · rw [table.mpinit_run, hlast, if_neg hend, hismp]
      rfl
    · rw [Found.apicids_setImcr, hapicids]
      rfl
    · exact fun hunknown => absurd hunknown hknown

end Run

/-- A memory with a `struct mp` at `0x800` in the extended BIOS area and a table of
version 4 at `0x900`, whose entries take up `len - 44` bytes. -/
def sample (len checksum : Byte) (entries : List Byte) : Memory := fun a =>
  let pa := (a - .ofNat 32 KERNBASE).toNat
  let mp : List Byte := [0x5F, 0x4D, 0x50, 0x5F, 0, 9, 0, 0, 1, 4, 0x97, 0, 0, 0, 0, 0]
  let conf : List Byte := [0x50, 0x43, 0x4D, 0x50, len, 0, 4, checksum]
  if pa = 0x40E then 0x80
  else if pa < 0x800 then 0
  else if pa < 0x900 then mp.getD (pa - 0x800) 0
  else if pa < 0x92C then conf.getD (pa - 0x900) 0
  else entries.getD (pa - 0x92C) 0

def twoEntries : Table (sample 72 124 [0, 7, 0, 0, 0, 0, 0, 0, 0, 0, 0, 0, 0, 0, 0, 0, 0, 0,
    0, 0, 1]) where
  mp := p2v 0x800
  conf := p2v 0x900
  accepted := by decide
  below := below_of_physical (by decide)

theorem entries_twoEntries : twoEntries.entries = [.proc 7, .other] := by
  have hproc : entryAt twoEntries.byte 44 = .proc 7 := by decide
  have hbus : entryAt twoEntries.byte 64 = .other := by decide
  unfold Table.entries
  rw [entriesFrom, if_pos (by decide), hproc, if_neg (by decide)]
  show _ :: entriesFrom _ _ 64 = _
  rw [entriesFrom, if_pos (by decide), hbus, if_neg (by decide)]
  show _ :: _ :: entriesFrom _ _ 72 = _
  rw [entriesFrom, if_neg (by decide)]

theorem mpinit_safe_twoEntries :
    ScanSafe twoEntries (fun _ => 0) ∧ twoEntries.entries = [.proc 7, .other] := by
  refine ⟨(mpinit_safe_iff twoEntries _).mpr ?_, entries_twoEntries⟩
  rw [entries_twoEntries]
  decide

def badEntry : Table (sample 52 147 [5]) where
  mp := p2v 0x800
  conf := p2v 0x900
  accepted := by decide
  below := below_of_physical (by decide)

theorem mpinit_stays_badEntry : .unknown ∈ badEntry.entries ∧
    ∀ inb, (∀ turns, mpinit (sample 52 147 [5]) inb turns = none) ∧
      ¬ ScanSafe badEntry inb := by
  have hunknown : .unknown ∈ badEntry.entries := by
    unfold Table.entries
    rw [entriesFrom, if_pos (by decide), if_pos (by decide)]
    exact List.mem_singleton_self _
  have hnone : ∀ inb turns, mpinit (sample 52 147 [5]) inb turns = none := by
    intro inb turns
    exact badEntry.mpinit_none hunknown inb turns
  refine ⟨hunknown, fun inb => ⟨hnone inb, ?_⟩⟩
  rintro ⟨⟨turns, panic, found, hrun, _⟩, _⟩
  rw [hnone] at hrun
  cases hrun

end KernelThreads.Mp
