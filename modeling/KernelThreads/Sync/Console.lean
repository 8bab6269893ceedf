import KernelThreads.Lib.Stream

namespace KernelThreads.Sync

open Lib

/-! The input of the console: the editing of lines by `consoleintr`, and any number of
readers inside `consoleread`. -/

abbrev INPUT_BUF : Nat := 128

abbrev NEWLINE : BitVec 8 := 10
abbrev RETURN : BitVec 8 := 13
abbrev DELETE : BitVec 8 := 0x7f

/-- `C('D')`, the end of a file, and the other control characters of the `switch`. -/
abbrev CTRL_D : BitVec 8 := 4
abbrev CTRL_H : BitVec 8 := 8
abbrev CTRL_P : BitVec 8 := 16
abbrev CTRL_U : BitVec 8 := 21

structure Input where
  buf : Fin INPUT_BUF → BitVec 8
  r : BitVec 32
  w : BitVec 32
  e : BitVec 32

namespace Input

/-- The loop of `C('U')`; there are at most `e - w` turns. -/
def killLine : Nat → Input → Input
  | 0, s => s
  | turns + 1, s =>
      if s.e ≠ s.w ∧ s.buf (StreamBuffer.cell (s.e - 1)) ≠ NEWLINE then
        killLine turns { s with e := s.e - 1 }
      else s

def insert (s : Input) (c : BitVec 8) : Input :=
  if c ≠ 0 ∧ s.e - s.r < BitVec.ofNat 32 INPUT_BUF then
    let c := if c = RETURN then NEWLINE else c
    let e := s.e + 1
    { s with
      buf := Function.update s.buf (StreamBuffer.cell s.e) c
      e := e
      w := if c = NEWLINE ∨ c = CTRL_D ∨ e = s.r + BitVec.ofNat 32 INPUT_BUF then e else s.w }
  else s

def consoleintr (s : Input) (c : BitVec 8) : Input :=
  if c = CTRL_P then s
  else if c = CTRL_U then killLine (s.e - s.w).toNat s
  else if c = CTRL_H ∨ c = DELETE then if s.e ≠ s.w then { s with e := s.e - 1 } else s
  else s.insert c

end Input

structure ReadCall where
  target : Int
  n : Int
  dst : List (BitVec 8)
  result : Option Int

def Input.consoleread (s : Input) (killed : Bool) (call : ReadCall) :
    Input × ReadCall × List (BitVec 8) :=
  if call.n ≤ 0 then (s, { call with result := some (call.target - call.n) }, [])
  else if s.r = s.w then (s, if killed then { call with result := some (-1) } else call, [])
  else
    let c := s.buf (StreamBuffer.cell s.r)
    let after := { s with r := s.r + 1 }
    if c = CTRL_D then
      let result := { call with result := some (call.target - call.n) }
      -- The character is put back.
      if call.n < call.target then ({ after with r := after.r - 1 }, result, [])
      else (after, result, [c])
    else
      let n := call.n - 1
      (after, { call with
        dst := call.dst ++ [c]
        n := n
        result := if c = NEWLINE then some (call.target - n) else none }, [c])

inductive ConsoleEvent (Reader : Type) where
  | typed (c : BitVec 8)
  | call (reader : Reader) (n : Int)
  /-- A turn of the loop, with `myproc()->killed`. -/
  | turn (reader : Reader) (killed : Bool)

structure Console (Reader : Type) where
  input : Input
  calls : Reader → ReadCall
  /-- The bytes that the readers have taken. -/
  taken : List (BitVec 8)

namespace Console

variable {Reader : Type} [DecidableEq Reader]

def start (buf : Fin INPUT_BUF → BitVec 8) : Console Reader where
  input := ⟨buf, 0, 0, 0⟩
  calls _ := ⟨0, 0, [], some 0⟩
  taken := []

def step (s : Console Reader) : ConsoleEvent Reader → Console Reader
  | .typed c => { s with input := s.input.consoleintr c }
  | .call reader n =>
      if (s.calls reader).result = none then s
      else { s with calls := Function.update s.calls reader ⟨n, n, [], none⟩ }
  | .turn reader killed =>
      if (s.calls reader).result = none then
        let after := s.input.consoleread killed (s.calls reader)
        { input := after.1
          calls := Function.update s.calls reader after.2.1
          taken := s.taken ++ after.2.2 }
      else s

end Console

/-- The typed characters that no reader has taken; the first `ready` are committed. -/
@[ext]
structure Typed where
  pending : List (BitVec 8)
  ready : Nat

namespace Typed

def edit (l : Typed) (c : BitVec 8) : Typed :=
  if c = 0 ∨ c = CTRL_P then l
  else if c = CTRL_U then { l with pending := l.pending.take l.ready }
  else if c = CTRL_H ∨ c = DELETE then
    if l.ready < l.pending.length then { l with pending := l.pending.dropLast } else l
  else if l.pending.length = INPUT_BUF then l
  else
    let c := if c = RETURN then NEWLINE else c
    let pending := l.pending ++ [c]
    { pending := pending
      ready := if c = NEWLINE ∨ c = CTRL_D ∨ pending.length = INPUT_BUF then pending.length
        else l.ready }

def next (l : Typed) : Option (BitVec 8) := if l.ready = 0 then none else l.pending.head?

def pop (l : Typed) : Typed := ⟨l.pending.tail, l.ready - 1⟩

end Typed

@[ext]
structure Reading where
  want : Int
  dst : List (BitVec 8)
  result : Option Int

/-- A reader takes the next byte; an end of file ends the read, and is kept for the
next one if this one has bytes. -/
def Typed.read (l : Typed) (killed : Bool) (call : Reading) :
    Typed × Reading × List (BitVec 8) :=
  if call.want ≤ call.dst.length then
    (l, { call with result := some call.dst.length }, [])
  else
    match l.next with
    | none => (l, if killed then { call with result := some (-1) } else call, [])
    | some c =>
        if c = CTRL_D then
          let result := { call with result := some call.dst.length }
          if call.dst = [] then (l.pop, result, [c]) else (l, result, [])
        else
          let dst := call.dst ++ [c]
          (l.pop, { call with
            dst := dst
            result := if c = NEWLINE then some dst.length else none }, [c])

structure Discipline (Reader : Type) where
  line : Typed
  calls : Reader → Reading
  taken : List (BitVec 8)

namespace Discipline

variable {Reader : Type} [DecidableEq Reader]

def start : Discipline Reader where
  line := ⟨[], 0⟩
  calls _ := ⟨0, [], some 0⟩
  taken := []

def step (s : Discipline Reader) : ConsoleEvent Reader → Discipline Reader
  | .typed c => { s with line := s.line.edit c }
  | .call reader n =>
      if (s.calls reader).result = none then s
      else { s with calls := Function.update s.calls reader ⟨n, [], none⟩ }
  | .turn reader killed =>
      if (s.calls reader).result = none then
        let after := s.line.read killed (s.calls reader)
        { line := after.1
          calls := Function.update s.calls reader after.2.1
          taken := s.taken ++ after.2.2 }
      else s

end Discipline

namespace Input

def ring (s : Input) : StreamBuffer (BitVec 8) INPUT_BUF 32 := ⟨s.buf, s.r, s.e⟩

def line (s : Input) : Typed := ⟨s.ring.toList, (s.w - s.r).toNat⟩

structure Ordered (s : Input) : Prop where
  order : (s.w - s.r).toNat ≤ (s.e - s.r).toNat
  bound : (s.e - s.r).toNat ≤ INPUT_BUF
  unfinished : NEWLINE ∉ s.line.pending.drop s.line.ready

variable {s : Input}

theorem length_pending (s : Input) : s.line.pending.length = (s.e - s.r).toNat :=
  StreamBuffer.length_toList s.ring

theorem e_eq_w_iff : s.e = s.w ↔ (s.e - s.r).toNat = (s.w - s.r).toNat := by
  rw [BitVec.toNat_inj, sub_left_inj]

namespace Ordered

theorem ready_lt_iff (h : s.Ordered) : s.line.ready < s.line.pending.length ↔ s.e ≠ s.w := by
  have horder := h.order
  rw [length_pending, Ne, e_eq_w_iff]
  change (s.w - s.r).toNat < _ ↔ _
  omega

theorem last (h : s.Ordered) (hne : s.e ≠ s.w) :
    s.line.pending = ({ s with e := s.e - 1 } : Input).line.pending ++
      [s.buf (StreamBuffer.cell (s.e - 1))] := by
  have hsome : s.ring.read ≠ s.ring.write := by
    intro heq
    have hzero : (s.e - s.r).toNat = 0 := StreamBuffer.length_eq_zero.mpr heq
    have horder := h.order
    exact hne (e_eq_w_iff.mpr (by omega))
  exact StreamBuffer.toList_back hsome

theorem erase (h : s.Ordered) (hne : s.e ≠ s.w) :
    ({ s with e := s.e - 1 } : Input).Ordered := by
  have hlast := h.last hne
  have hlength := congrArg List.length hlast
  rw [List.length_append, List.length_singleton, length_pending, length_pending] at hlength
  have hready := h.ready_lt_iff.mpr hne
  rw [length_pending] at hready
  change (s.w - s.r).toNat < _ at hready
  change _ = (s.e - 1 - s.r).toNat + 1 at hlength
  have horder : (s.w - s.r).toNat ≤ (s.e - 1 - s.r).toNat := by omega
  refine ⟨horder, ?_, ?_⟩
  · have hbound := h.bound
    change (s.e - 1 - s.r).toNat ≤ INPUT_BUF
    omega
  · intro hin
    refine h.unfinished ?_
    rw [hlast, List.drop_append_of_le_length (by rw [length_pending]; exact horder)]
    exact List.mem_append_left _ hin

theorem killLine_eq {turns : Nat} (h : s.Ordered) (hturns : (s.e - s.w).toNat = turns) :
    killLine turns s = { s with e := s.w } := by
  induction turns generalizing s with
  | zero =>
      have heq : s.e = s.w := by
        rw [← sub_eq_zero]
        exact BitVec.eq_of_toNat_eq hturns
      obtain ⟨buf, r, w, e⟩ := s
      cases (heq : e = w)
      rfl
  | succ turns ih =>
      have hne : s.e ≠ s.w := by
        rintro heq
        rw [heq, sub_self] at hturns
        cases hturns
      have hready := h.ready_lt_iff.mpr hne
      have hlast := h.last hne
      have hnewline : s.buf (StreamBuffer.cell (s.e - 1)) ≠ NEWLINE := by
        intro heq
        refine h.unfinished ?_
        have hlength := congrArg List.length hlast
        rw [List.length_append, List.length_singleton] at hlength
        rw [hlast, List.drop_append_of_le_length (by omega), heq]
        exact List.mem_append_right _ (List.mem_singleton.mpr rfl)
      rw [killLine, if_pos ⟨hne, hnewline⟩, ih (h.erase hne)]
      have hsplit : s.e - 1 - s.w = s.e - s.w - 1 := sub_right_comm ..
      change (s.e - 1 - s.w).toNat = turns
      rw [hsplit, BitVec.toNat_sub_of_le, hturns]
      · rfl
      · rw [BitVec.le_def, hturns]
        exact Nat.le_add_left 1 turns

theorem line_kill (h : s.Ordered) :
    ({ s with e := s.w } : Input).line = { s.line with pending := s.line.pending.take s.line.ready } := by
  refine Typed.ext ?_ rfl
  change (List.range (s.w - s.r).toNat).map _ =
    ((List.range (s.e - s.r).toNat).map _).take (s.w - s.r).toNat
  rw [← List.map_take, List.take_range, min_eq_left h.order]
  rfl

theorem kill (h : s.Ordered) : ({ s with e := s.w } : Input).Ordered := by
  refine ⟨le_rfl, h.order.trans h.bound, ?_⟩
  rw [h.line_kill, List.drop_take_self]
  exact List.not_mem_nil

end Ordered

def stored (c : BitVec 8) : BitVec 8 := if c = RETURN then NEWLINE else c

theorem insert_room {c : BitVec 8} (hc : c ≠ 0) (hroom : (s.e - s.r).toNat < INPUT_BUF) :
    s.insert c = { s with
      buf := Function.update s.buf (StreamBuffer.cell s.e) (stored c)
      e := s.e + 1
      w := if stored c = NEWLINE ∨ stored c = CTRL_D ∨
        s.e + 1 = s.r + BitVec.ofNat 32 INPUT_BUF then s.e + 1 else s.w } := by
  have hlt : s.e - s.r < BitVec.ofNat 32 INPUT_BUF := hroom
  rw [insert, if_pos ⟨hc, hlt⟩]
  rfl

theorem insert_line {c : BitVec 8} (hc : c ≠ 0) (hroom : (s.e - s.r).toNat < INPUT_BUF) :
    (s.insert c).line.pending = s.line.pending ++ [stored c] ∧
      (s.insert c).line.ready = if stored c = NEWLINE ∨ stored c = CTRL_D ∨
          (s.line.pending ++ [stored c]).length = INPUT_BUF
        then (s.line.pending ++ [stored c]).length else s.line.ready := by
  have hpush : (s.insert c).line.pending = s.line.pending ++ [stored c] := by
    rw [insert_room hc hroom]
    change (s.ring.push (stored c)).toList = s.ring.toList ++ _
    exact StreamBuffer.toList_push (stored c) (by decide) hroom (by decide)
  have hlength := congrArg List.length hpush
  rw [length_pending] at hlength
  have hcount : (s.e + 1 - s.r).toNat = (s.line.pending ++ [stored c]).length := by
    rw [← hlength, insert_room hc hroom]
  have hfull : s.e + 1 = s.r + BitVec.ofNat 32 INPUT_BUF ↔
      (s.line.pending ++ [stored c]).length = INPUT_BUF := by
    rw [← hcount]
    change _ ↔ StreamBuffer.length ⟨s.buf, s.r, s.e + 1⟩ = INPUT_BUF
    rw [StreamBuffer.length_eq_iff (by decide)]
  refine ⟨hpush, ?_⟩
  have hsame : (stored c = NEWLINE ∨ stored c = CTRL_D ∨
      s.e + 1 = s.r + BitVec.ofNat 32 INPUT_BUF) ↔ (stored c = NEWLINE ∨ stored c = CTRL_D ∨
        (s.line.pending ++ [stored c]).length = INPUT_BUF) :=
    or_congr Iff.rfl (or_congr Iff.rfl hfull)
  rw [insert_room hc hroom]
  by_cases hcommit : stored c = NEWLINE ∨ stored c = CTRL_D ∨
      s.e + 1 = s.r + BitVec.ofNat 32 INPUT_BUF
  · rw [if_pos hcommit, if_pos (hsame.mp hcommit)]
    exact hcount
  · rw [if_neg hcommit, if_neg (mt hsame.mpr hcommit)]
    rfl

namespace Ordered

theorem insert {c : BitVec 8} (h : s.Ordered) (hc : c ≠ 0)
    (hroom : (s.e - s.r).toNat < INPUT_BUF) : (s.insert c).Ordered := by
  obtain ⟨hpending, hready⟩ := insert_line hc hroom
  have hlength := congrArg List.length hpending
  rw [List.length_append, List.length_singleton, length_pending, length_pending] at hlength
  have horder := h.order
  refine ⟨?_, by omega, ?_⟩
  · change (s.insert c).line.ready ≤ _
    rw [hready]
    split
    · rw [List.length_append, length_pending, List.length_singleton, hlength]
    · change (s.w - s.r).toNat ≤ _
      omega
  · rw [hpending, hready]
    split
    · rw [List.drop_length]
      exact List.not_mem_nil
    next hopen =>
      rw [List.drop_append_of_le_length (by rw [length_pending]; exact horder)]
      intro hin
      rcases List.mem_append.mp hin with hin | hin
      · exact h.unfinished hin
      · exact hopen (.inl (List.mem_singleton.mp hin).symm)

theorem consoleintr (h : s.Ordered) (c : BitVec 8) :
    (s.consoleintr c).Ordered ∧ (s.consoleintr c).line = s.line.edit c := by
  unfold Input.consoleintr Typed.edit
  by_cases hp : c = CTRL_P
  · rw [if_pos hp, if_pos (.inr hp)]
    exact ⟨h, rfl⟩
  rw [if_neg hp]
  by_cases hu : c = CTRL_U
  · have hzero : ¬ (c = 0 ∨ c = CTRL_P) := by
      rw [hu]
      decide
    rw [if_pos hu, if_neg hzero, if_pos hu, h.killLine_eq rfl]
    exact ⟨h.kill, h.line_kill⟩
  rw [if_neg hu]
  by_cases hh : c = CTRL_H ∨ c = DELETE
  · have hzero : ¬ (c = 0 ∨ c = CTRL_P) := by
      rcases hh with rfl | rfl <;> decide
    rw [if_pos hh, if_neg hzero, if_neg hu, if_pos hh]
    by_cases hne : s.e ≠ s.w
    · rw [if_pos hne, if_pos (h.ready_lt_iff.mpr hne)]
      refine ⟨h.erase hne, Typed.ext ?_ rfl⟩
      rw [h.last hne, List.dropLast_concat]
    · rw [if_neg hne, if_neg (mt h.ready_lt_iff.mp hne)]
      exact ⟨h, rfl⟩
  rw [if_neg hh]
  by_cases hzero : c = 0
  · rw [if_pos (.inl hzero), Input.insert, if_neg fun hin => hin.1 hzero]
    exact ⟨h, rfl⟩
  rw [if_neg (not_or.mpr ⟨hzero, hp⟩), if_neg hu, if_neg hh, length_pending]
  have hbound := h.bound
  by_cases hfull : (s.e - s.r).toNat = INPUT_BUF
  · rw [if_pos hfull, Input.insert, if_neg]
    · exact ⟨h, rfl⟩
    · rintro ⟨-, hlt⟩
      rw [BitVec.lt_def, hfull] at hlt
      exact absurd hlt (by decide)
  · have hroom : (s.e - s.r).toNat < INPUT_BUF := lt_of_le_of_ne hbound hfull
    obtain ⟨hpending, hready⟩ := insert_line hzero hroom
    rw [if_neg hfull]
    exact ⟨h.insert hzero hroom, Typed.ext hpending hready⟩

end Ordered

theorem next_none (s : Input) : s.line.ready = 0 ↔ s.r = s.w := by
  have hzero : s.line.ready = 0 ↔ s.w - s.r = 0 := by
    rw [← BitVec.toNat_inj]
    rfl
  rw [hzero, sub_eq_zero, eq_comm]

namespace Ordered

theorem take (h : s.Ordered) (hne : s.r ≠ s.w) :
    s.line.next = some (s.buf (StreamBuffer.cell s.r)) ∧
      ({ s with r := s.r + 1 } : Input).line = s.line.pop ∧
        ({ s with r := s.r + 1 } : Input).Ordered := by
  have hsomething : s.line.ready ≠ 0 := mt s.next_none.mp hne
  have hready : (s.w - s.r).toNat ≠ 0 := hsomething
  have horder := h.order
  have hbound := h.bound
  have hsome : s.ring.read ≠ s.ring.write := by
    intro heq
    have hzero : (s.e - s.r).toNat = 0 := StreamBuffer.length_eq_zero.mpr heq
    omega
  have hpending : s.line.pending = s.buf (StreamBuffer.cell s.r) ::
      ({ s with r := s.r + 1 } : Input).line.pending := StreamBuffer.toList_pop hsome
  have hback : ∀ x : BitVec 32, (x - s.r).toNat ≠ 0 →
      (x - (s.r + 1)).toNat = (x - s.r).toNat - 1 := by
    intro x hx
    rw [sub_add_eq_sub_sub, BitVec.toNat_sub_of_le]
    · rfl
    · rw [BitVec.le_def]
      exact Nat.one_le_iff_ne_zero.mpr hx
  have hline : ({ s with r := s.r + 1 } : Input).line = s.line.pop := by
    refine Typed.ext ?_ (hback s.w hready)
    rw [Typed.pop, hpending]
    rfl
  refine ⟨?_, hline, ?_, ?_, ?_⟩
  · rw [Typed.next, if_neg hsomething, hpending]
    rfl
  · change (s.w - (s.r + 1)).toNat ≤ (s.e - (s.r + 1)).toNat
    rw [hback s.w hready, hback s.e (by omega)]
    omega
  · change (s.e - (s.r + 1)).toNat ≤ INPUT_BUF
    rw [hback s.e (by omega)]
    omega
  · rw [hline]
    intro hin
    refine h.unfinished ?_
    have htail : s.line.pop.pending.drop s.line.pop.ready =
        s.line.pending.drop s.line.ready := by
      obtain ⟨k, hk⟩ := Nat.exists_eq_succ_of_ne_zero hready
      have hcount : s.line.ready = k + 1 := hk
      rw [Typed.pop, hcount, hpending]
      rfl
    rwa [htail] at hin

end Ordered

end Input

def ReadCall.reading (call : ReadCall) : Reading := ⟨call.target, call.dst, call.result⟩

def ReadCall.Counted (call : ReadCall) : Prop := call.n = call.target - call.dst.length

theorem Input.Ordered.consoleread {s : Input} (h : s.Ordered) (killed : Bool)
    {call : ReadCall} (hcounted : call.Counted) :
    (s.consoleread killed call).1.Ordered ∧ (s.consoleread killed call).2.1.Counted ∧
      ((s.consoleread killed call).1.line, (s.consoleread killed call).2.1.reading,
        (s.consoleread killed call).2.2) = s.line.read killed call.reading := by
  have hresult : call.target - call.n = call.dst.length := by
    rw [hcounted]
    omega
  unfold Input.consoleread Typed.read
  have hdone : call.n ≤ 0 ↔ call.reading.want ≤ call.reading.dst.length := by
    rw [hcounted]
    change call.target - call.dst.length ≤ 0 ↔ call.target ≤ call.dst.length
    omega
  by_cases hend : call.n ≤ 0
  · rw [if_pos hend, if_pos (hdone.mp hend), hresult]
    exact ⟨h, hcounted, rfl⟩
  rw [if_neg hend, if_neg (mt hdone.mpr hend)]
  by_cases hwait : s.r = s.w
  · have hnone : s.line.next = none := if_pos (s.next_none.mpr hwait)
    rw [if_pos hwait, hnone]
    cases killed with
    | true => exact ⟨h, hcounted, rfl⟩
    | false => exact ⟨h, hcounted, rfl⟩
  rw [if_neg hwait]
  obtain ⟨hnext, hline, hordered⟩ := h.take hwait
  rw [hnext]
  generalize s.buf (StreamBuffer.cell s.r) = c
  simp only [hresult]
  by_cases hfile : c = CTRL_D
  · rw [if_pos hfile, if_pos hfile]
    have hkept : call.n < call.target ↔ call.reading.dst ≠ [] := by
      rw [hcounted, ← List.length_pos_iff]
      change _ ↔ 0 < call.dst.length
      omega
    by_cases hsome : call.n < call.target
    · have hback : s.r + 1 - 1 = s.r := add_sub_cancel_right ..
      rw [if_pos hsome, if_neg (hkept.mp hsome), hback]
      exact ⟨h, hcounted, rfl⟩
    · rw [if_neg hsome, if_pos (not_not.mp (mt hkept.mpr hsome)), hline]
      exact ⟨hordered, hcounted, rfl⟩
  · rw [if_neg hfile, if_neg hfile, hline]
    have hcount : call.target - (call.n - 1) = ((call.dst ++ [c]).length : Int) := by
      rw [List.length_append, List.length_singleton]
      omega
    refine ⟨hordered, ?_, ?_⟩
    · change call.n - 1 = call.target - ((call.dst ++ [c]).length : Int)
      omega
    · rw [hcount]
      rfl

section Runs

variable {Reader : Type} [DecidableEq Reader]

def Console.committed (s : Console Reader) : List (BitVec 8) :=
  s.taken ++ s.input.line.pending.take s.input.line.ready

structure Follows (s : Console Reader) (t : Discipline Reader) : Prop where
  ordered : s.input.Ordered
  counted : ∀ reader, (s.calls reader).Counted
  line : s.input.line = t.line
  calls : ∀ reader, (s.calls reader).reading = t.calls reader
  taken : s.taken = t.taken

theorem Input.line_start (buf : Fin INPUT_BUF → BitVec 8) :
    Input.line ⟨buf, 0, 0, 0⟩ = ⟨[], 0⟩ := by
  simp [Input.line, Input.ring, StreamBuffer.toList, StreamBuffer.length]

omit [DecidableEq Reader] in
theorem follows_start (buf : Fin INPUT_BUF → BitVec 8) :
    Follows (Console.start buf : Console Reader) Discipline.start where
  ordered := by
    refine ⟨le_rfl, (by decide : ((0 : BitVec 32) - 0).toNat ≤ INPUT_BUF), ?_⟩
    rw [Console.start, Input.line_start]
    exact List.not_mem_nil
  counted _ := rfl
  line := Input.line_start buf
  calls _ := rfl
  taken := rfl

theorem Follows.step {s : Console Reader} {t : Discipline Reader} (h : Follows s t)
    (event : ConsoleEvent Reader) : Follows (s.step event) (t.step event) := by
  have hresult : ∀ reader, (s.calls reader).result = (t.calls reader).result :=
    fun reader => congrArg Reading.result (h.calls reader)
  cases event with
  | typed c =>
      obtain ⟨hordered, hline⟩ := h.ordered.consoleintr c
      refine { h with ordered := hordered, line := ?_ }
      rw [Console.step, Discipline.step, hline, h.line]
  | call reader n =>
      rw [Console.step, Discipline.step, hresult reader]
      split
      · exact h
      · refine { h with counted := fun other => ?_, calls := fun other => ?_ }
        · simp only [Function.update_apply]
          split
          · exact (sub_zero n).symm
          · exact h.counted other
        · simp only [Function.update_apply]
          split
          · rfl
          · exact h.calls other
  | turn reader killed =>
      rw [Console.step, Discipline.step, hresult reader]
      split
      · obtain ⟨hordered, hcounted, hsame⟩ := h.ordered.consoleread killed (h.counted reader)
        rw [h.line, h.calls reader] at hsame
        refine ⟨hordered, fun other => ?_, ?_, fun other => ?_, ?_⟩
        · simp only [Function.update_apply]
          split
          · exact hcounted
          · exact h.counted other
        · exact congrArg Prod.fst hsame
        · simp only [Function.update_apply]
          split
          · exact congrArg (fun result => result.2.1) hsame
          · exact h.calls other
        · rw [← hsame, ← h.taken]
      · exact h

theorem follows_run (buf : Fin INPUT_BUF → BitVec 8) (events : List (ConsoleEvent Reader)) :
    Follows (events.foldl Console.step (Console.start buf))
      (events.foldl Discipline.step Discipline.start) := by
  induction events using List.reverseRecOn with
  | nil => exact follows_start buf
  | append_singleton events event ih =>
      rw [List.foldl_concat, List.foldl_concat]
      exact ih.step event

theorem Typed.edit_committed {l : Typed} (h : l.ready ≤ l.pending.length) (c : BitVec 8) :
    l.pending.take l.ready <+: (l.edit c).pending.take (l.edit c).ready := by
  unfold edit
  split
  · exact List.prefix_rfl
  split
  · dsimp only
    rw [List.take_take, Nat.min_self]
  split
  · split
    next hlt =>
      dsimp only
      rw [List.dropLast_eq_take, List.take_take, min_eq_left (by omega)]
    next => exact List.prefix_rfl
  split
  · exact List.prefix_rfl
  · generalize (if c = RETURN then NEWLINE else c) = stored
    dsimp only
    split
    · rw [List.take_length]
      exact (List.take_prefix ..).trans (List.prefix_append ..)
    · rw [List.take_append_of_le_length h]

theorem Typed.read_committed {l : Typed} (h : l.ready ≤ l.pending.length) (killed : Bool)
    (call : Reading) :
    (l.read killed call).2.2 ++ (l.read killed call).1.pending.take (l.read killed call).1.ready =
      l.pending.take l.ready := by
  have hpop : ∀ c, l.next = some c →
      c :: l.pop.pending.take l.pop.ready = l.pending.take l.ready := by
    intro c hnext
    obtain ⟨pending, ready⟩ := l
    unfold next at hnext
    split at hnext
    · cases hnext
    next hready =>
      obtain ⟨k, rfl⟩ := Nat.exists_eq_succ_of_ne_zero hready
      cases pending with
      | nil => cases hnext
      | cons b rest =>
          cases hnext
          rfl
  unfold read
  split
  · rfl
  split
  · rfl
  next c hnext =>
    split
    · dsimp only
      split
      · exact hpop c hnext
      · rfl
    · exact hpop c hnext

theorem Follows.committed_step {s : Console Reader} {t : Discipline Reader} (h : Follows s t)
    (event : ConsoleEvent Reader) : s.committed <+: (s.step event).committed := by
  have hnext := h.step event
  have hready : t.line.ready ≤ t.line.pending.length := by
    rw [← h.line, Input.length_pending]
    exact h.ordered.order
  unfold Console.committed
  rw [h.taken, h.line, hnext.taken, hnext.line]
  cases event with
  | typed c => exact (List.prefix_append_right_inj _).mpr (Typed.edit_committed hready c)
  | call reader n =>
      rw [Discipline.step]
      split <;> exact List.prefix_rfl
  | turn reader killed =>
      rw [Discipline.step]
      split
      · dsimp only
        rw [List.append_assoc, Typed.read_committed hready]
      · exact List.prefix_rfl

/-- In every run the indices are in order, the readers take the bytes that the
discipline gives them, and what is committed stays. -/
theorem console_discipline (buf : Fin INPUT_BUF → BitVec 8)
    (events later : List (ConsoleEvent Reader)) :
    let s := events.foldl Console.step (Console.start buf)
    let t := events.foldl Discipline.step Discipline.start
    (s.input.w - s.input.r).toNat ≤ (s.input.e - s.input.r).toNat ∧
      (s.input.e - s.input.r).toNat ≤ INPUT_BUF ∧
      s.taken = t.taken ∧ s.input.line = t.line ∧
      (∀ reader, (s.calls reader).reading = t.calls reader) ∧
      s.committed <+: (later.foldl Console.step s).committed := by
  have hall := follows_run buf events
  refine ⟨hall.ordered.order, hall.ordered.bound, hall.taken, hall.line, hall.calls, ?_⟩
  induction later using List.reverseRecOn with
  | nil => exact List.prefix_rfl
  | append_singleton later event ih =>
      have hlater := follows_run buf (events ++ later)
      rw [List.foldl_append] at hlater
      rw [List.foldl_concat]
      exact ih.trans (hlater.committed_step event)

end Runs

end KernelThreads.Sync
