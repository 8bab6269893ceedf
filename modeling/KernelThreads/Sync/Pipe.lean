import KernelThreads.Lib.Stream
import KernelThreads.Lib.Transition

namespace KernelThreads.Sync

open Lib

/-! One pipe, with any number of threads inside `pipewrite` and `piperead`.  A step
runs from taking `p->lock` to releasing it or to a `sleep`; a thread that sleeps
may be woken at any time. -/

abbrev Byte := BitVec 8

abbrev PIPESIZE : Nat := 512

structure Pipe where
  data : Fin PIPESIZE → Byte
  nread : BitVec 32 := 0
  nwrite : BitVec 32 := 0
  readopen : Bool := true
  writeopen : Bool := true

namespace Pipe

abbrev full (p : Pipe) : Prop := p.nwrite = p.nread + BitVec.ofNat 32 PIPESIZE

abbrev empty (p : Pipe) : Prop := p.nread = p.nwrite

def put (p : Pipe) (byte : Byte) : Pipe :=
  { p with
    data := Function.update p.data (StreamBuffer.cell p.nwrite) byte
    nwrite := p.nwrite + 1 }

def next (p : Pipe) : Byte := p.data (StreamBuffer.cell p.nread)

def take (p : Pipe) : Pipe := { p with nread := p.nread + 1 }

inductive WriteEnd where
  | returns
  | fails
  | sleeps (rest : List Byte)

/-- The loop of `pipewrite` over the bytes that are left, and what it stored. -/
def fill (killed : Bool) : Pipe → List Byte → Pipe × List Byte × WriteEnd
  | p, [] => (p, [], .returns)
  | p, byte :: rest =>
      if p.full then
        (p, [], if !p.readopen || killed then .fails else .sleeps (byte :: rest))
      else
        let (last, stored, ending) := fill killed (p.put byte) rest
        (last, byte :: stored, ending)

def drain : Nat → Pipe → Pipe × List Byte
  | 0, p => (p, [])
  | n + 1, p =>
      if p.empty then (p, [])
      else
        let (last, bytes) := drain n p.take
        (last, p.next :: bytes)

def close (p : Pipe) (writable : Bool) : Pipe :=
  if writable then { p with writeopen := false } else { p with readopen := false }

end Pipe

inductive PipePc where
  | idle
  /-- In the call number `call` of `pipewrite(p, addr, n)`, with these bytes left. -/
  | writing (call : Nat) (n : Int) (rest : List Byte)
  | reading (n : Int)

inductive PipeAct where
  | pipewrite (addr : Nat → Byte) (n : Int)
  | piperead (n : Int)
  /-- A section of the call, with `myproc()->killed`. -/
  | run (killed : Bool)
  | pipeclose (writable : Bool)

inductive PipeEvent where
  | begin (call : Nat) (n : Int) (src : List Byte)
  | store (call : Nat) (byte : Byte)
  | wrote (call : Nat) (result : Int)
  | deliver (byte : Byte)
  | returned (n result : Int)
  deriving DecidableEq

structure PipeSys (Thread : Type) where
  pipe : Pipe
  pc : Thread → PipePc
  /-- How many calls of `pipewrite` have begun. -/
  calls : Nat := 0
  log : List PipeEvent := []

namespace PipeSys

variable {Thread : Type}

def start (data : Fin PIPESIZE → Byte) : PipeSys Thread where
  pipe := { data := data }
  pc _ := .idle

section Steps

variable [DecidableEq Thread]

def moves (s : PipeSys Thread) (t : Thread) (pipe : Pipe) (pc : PipePc)
    (events : List PipeEvent) : PipeSys Thread :=
  { s with pipe := pipe, pc := Function.update s.pc t pc, log := s.log ++ events }

def pipewrite (s : PipeSys Thread) (t : Thread) (killed : Bool) (call : Nat) (n : Int)
    (rest : List Byte) : PipeSys Thread :=
  let (pipe, stored, ending) := s.pipe.fill killed rest
  match ending with
  | .returns => s.moves t pipe .idle (stored.map (.store call) ++ [.wrote call n])
  | .fails => s.moves t pipe .idle (stored.map (.store call) ++ [.wrote call (-1)])
  | .sleeps rest => s.moves t pipe (.writing call n rest) (stored.map (.store call))

def piperead (s : PipeSys Thread) (t : Thread) (killed : Bool) (n : Int) :
    PipeSys Thread :=
  if s.pipe.empty ∧ s.pipe.writeopen = true then
    if killed then s.moves t s.pipe .idle [.returned n (-1)] else s
  else
    let (pipe, bytes) := s.pipe.drain n.toNat
    s.moves t pipe .idle (bytes.map .deliver ++ [.returned n bytes.length])

/-- Nothing happens to a pipe that is closed on both ends: it is freed. -/
def step (s : PipeSys Thread) (label : Thread × PipeAct) : Option (PipeSys Thread) :=
  if s.pipe.readopen || s.pipe.writeopen then
    match s.pc label.1, label.2 with
    | .idle, .pipewrite addr n =>
        let src := (List.range n.toNat).map addr
        some { s with
          pc := Function.update s.pc label.1 (.writing s.calls n src)
          calls := s.calls + 1
          log := s.log ++ [.begin s.calls n src] }
    | .idle, .piperead n =>
        some { s with pc := Function.update s.pc label.1 (.reading n) }
    | .writing call n rest, .run killed => some (s.pipewrite label.1 killed call n rest)
    | .reading n, .run killed => some (s.piperead label.1 killed n)
    | _, .pipeclose writable => some { s with pipe := s.pipe.close writable }
    | _, _ => none
  else none

end Steps

end PipeSys

namespace PipeEvent

def stored (log : List PipeEvent) : List Byte :=
  log.filterMap fun
    | .store _ byte => some byte
    | _ => none

def storedBy (call : Nat) (log : List PipeEvent) : List Byte :=
  log.filterMap fun
    | .store c byte => if c = call then some byte else none
    | _ => none

def delivered (log : List PipeEvent) : List Byte :=
  log.filterMap fun
    | .deliver byte => some byte
    | _ => none

@[simp] theorem stored_append (log more : List PipeEvent) :
    stored (log ++ more) = stored log ++ stored more := List.filterMap_append ..

@[simp] theorem storedBy_append (call : Nat) (log more : List PipeEvent) :
    storedBy call (log ++ more) = storedBy call log ++ storedBy call more :=
  List.filterMap_append ..

@[simp] theorem delivered_append (log more : List PipeEvent) :
    delivered (log ++ more) = delivered log ++ delivered more :=
  List.filterMap_append ..

@[simp] theorem stored_store (call : Nat) (bytes : List Byte) :
    stored (bytes.map (.store call)) = bytes := by
  induction bytes with
  | nil => rfl
  | cons byte rest ih =>
      rw [List.map_cons]
      exact congrArg (byte :: ·) ih

theorem storedBy_store (call c : Nat) (bytes : List Byte) :
    storedBy call (bytes.map (.store c)) = if c = call then bytes else [] := by
  induction bytes with
  | nil => simp [storedBy]
  | cons byte rest ih =>
      unfold storedBy at ih ⊢
      rw [List.map_cons, List.filterMap_cons, ih]
      by_cases hcall : c = call <;> simp [hcall]

@[simp] theorem delivered_store (call : Nat) (bytes : List Byte) :
    delivered (bytes.map (.store call)) = [] := by
  simp [delivered]

@[simp] theorem stored_deliver (bytes : List Byte) :
    stored (bytes.map .deliver) = [] := by
  simp [stored]

@[simp] theorem storedBy_deliver (call : Nat) (bytes : List Byte) :
    storedBy call (bytes.map .deliver) = [] := by
  simp [storedBy]

@[simp] theorem delivered_deliver (bytes : List Byte) :
    delivered (bytes.map .deliver) = bytes := by
  induction bytes with
  | nil => rfl
  | cons byte rest ih =>
      rw [List.map_cons]
      exact congrArg (byte :: ·) ih

end PipeEvent

namespace Pipe

def ring (p : Pipe) : StreamBuffer Byte PIPESIZE 32 := ⟨p.data, p.nread, p.nwrite⟩

theorem full_iff (p : Pipe) : p.full ↔ p.ring.length = PIPESIZE := by
  have hlength : p.ring.length = PIPESIZE ↔
      p.ring.write = p.ring.read + BitVec.ofNat 32 PIPESIZE :=
    StreamBuffer.length_eq_iff (by decide)
  exact hlength.symm

theorem empty_iff (p : Pipe) : p.empty ↔ p.ring.length = 0 := by
  have hlength : p.ring.length = 0 ↔ p.ring.read = p.ring.write :=
    StreamBuffer.length_eq_zero
  exact hlength.symm

theorem toList_put {p : Pipe} (byte : Byte) (hroom : p.ring.length < PIPESIZE) :
    (p.put byte).ring.toList = p.ring.toList ++ [byte] := by
  have hring : (p.put byte).ring = p.ring.push byte := rfl
  have hdvd : PIPESIZE ∣ 2 ^ 32 := by decide
  have hlt : PIPESIZE < 2 ^ 32 := by decide
  rw [hring]
  exact StreamBuffer.toList_push byte hdvd hroom hlt

theorem toList_take {p : Pipe} (hsome : ¬p.empty) :
    p.ring.toList = p.next :: p.take.ring.toList := by
  have hne : p.ring.read ≠ p.ring.write := hsome
  have hring : p.take.ring = p.ring.pop := rfl
  rw [hring, StreamBuffer.toList_pop hne]
  rfl

theorem length_ring (p : Pipe) : p.ring.toList.length = p.ring.length :=
  StreamBuffer.length_toList _

theorem fill_spec (killed : Bool) {p : Pipe} (rest : List Byte)
    (hroom : p.ring.length ≤ PIPESIZE) :
    (p.fill killed rest).1.ring.toList = p.ring.toList ++ (p.fill killed rest).2.1 ∧
      (p.fill killed rest).1.ring.length ≤ PIPESIZE ∧
      ∃ left, rest = (p.fill killed rest).2.1 ++ left ∧
        ((p.fill killed rest).2.2 = .returns → left = []) ∧
        ∀ more, (p.fill killed rest).2.2 = .sleeps more → left = more := by
  induction rest generalizing p with
  | nil =>
      refine ⟨(List.append_nil _).symm, hroom, [], rfl, fun _ => rfl, fun more h => ?_⟩
      cases h
  | cons byte rest ih =>
      by_cases hfull : p.full
      · simp only [fill, if_pos hfull]
        refine ⟨(List.append_nil _).symm, hroom, byte :: rest, rfl, ?_, ?_⟩
        · intro h
          split at h <;> cases h
        · intro more h
          split at h
          · cases h
          · exact WriteEnd.sleeps.inj h
      · have hless : p.ring.length < PIPESIZE :=
          lt_of_le_of_ne hroom fun heq => hfull (p.full_iff.mpr heq)
        have hput := toList_put byte hless
        have hroom' : (p.put byte).ring.length ≤ PIPESIZE := by
          rw [← length_ring, hput, List.length_append, length_ring]
          exact hless
        obtain ⟨hlist, hlen, left, hleft, hreturns, hsleeps⟩ := ih hroom'
        simp only [fill, if_neg hfull]
        refine ⟨?_, hlen, left, ?_, hreturns, hsleeps⟩
        · rw [hlist, hput, List.append_assoc, List.singleton_append]
        · rw [List.cons_append, ← hleft]

theorem drain_spec {n : Nat} {p : Pipe} :
    p.ring.toList = (p.drain n).2 ++ (p.drain n).1.ring.toList := by
  induction n generalizing p with
  | zero => rfl
  | succ n ih =>
      by_cases hempty : p.empty
      · simp only [drain, if_pos hempty]
        rfl
      · simp only [drain, if_neg hempty]
        rw [toList_take hempty, ih, List.cons_append]

theorem drain_eq_nil {n : Nat} {p : Pipe} (hn : 0 < n) (h : (p.drain n).2 = []) :
    p.empty := by
  obtain ⟨k, rfl⟩ := Nat.exists_eq_succ_of_ne_zero hn.ne'
  by_contra hempty
  simp only [drain, if_neg hempty] at h
  cases h

end Pipe

namespace PipeSys

open PipeEvent

variable {Thread : Type}

/-- A call of `pipewrite` that is on its way has stored all but the bytes left. -/
structure Streams (s : PipeSys Thread) : Prop where
  room : s.pipe.ring.length ≤ PIPESIZE
  bytes : stored s.log = delivered s.log ++ s.pipe.ring.toList
  begun : ∀ c n src, .begin c n src ∈ s.log → c < s.calls ∧ storedBy c s.log <+: src
  once : ∀ c n n' src src', .begin c n src ∈ s.log → .begin c n' src' ∈ s.log →
    n = n' ∧ src = src'
  fresh : ∀ c, s.calls ≤ c → storedBy c s.log = []
  answered : ∀ c r, .wrote c r ∈ s.log → c < s.calls ∧
    ∀ n src, .begin c n src ∈ s.log → r = -1 ∨ r = n ∧ storedBy c s.log = src
  writing : ∀ t c n rest, s.pc t = .writing c n rest →
    (∃ src, .begin c n src ∈ s.log ∧ src = storedBy c s.log ++ rest) ∧
      ∀ r, .wrote c r ∉ s.log
  alone : ∀ t u c n n' rest rest', s.pc t = .writing c n rest →
    s.pc u = .writing c n' rest' → t = u

theorem Streams.start (data : Fin PIPESIZE → Byte) :
    (start data : PipeSys Thread).Streams where
  room := by
    have hlength : (PipeSys.start data : PipeSys Thread).pipe.ring.length = 0 :=
      (Pipe.empty_iff _).mp rfl
    rw [hlength]
    exact Nat.zero_le _
  bytes := by
    have hlength : (PipeSys.start data : PipeSys Thread).pipe.ring.length = 0 :=
      (Pipe.empty_iff _).mp rfl
    rw [← Pipe.length_ring] at hlength
    rw [List.eq_nil_of_length_eq_zero hlength]
    rfl
  begun _ _ _ h := nomatch h
  once _ _ _ _ _ h := nomatch h
  fresh _ _ := rfl
  answered _ _ h := nomatch h
  writing _ _ _ _ h := nomatch h
  alone _ _ _ _ _ _ _ h := nomatch h

section Steps

variable [DecidableEq Thread] {s : PipeSys Thread} {t : Thread}

theorem writing_moves {pc : PipePc} {u : Thread} {c : Nat} {n : Int} {rest : List Byte}
    (hpc : ∀ c n rest, pc ≠ .writing c n rest)
    (h : Function.update s.pc t pc u = .writing c n rest) :
    u ≠ t ∧ s.pc u = .writing c n rest := by
  by_cases hu : u = t
  · rw [hu, Function.update_self] at h
    exact absurd h (hpc c n rest)
  · rw [Function.update_of_ne hu] at h
    exact ⟨hu, h⟩

theorem Streams.stores {pipe : Pipe} {c : Nat} {n : Int} {bytes left : List Byte}
    {pc : PipePc} (events : List PipeEvent) (h : s.Streams)
    (hpc : s.pc t = .writing c n (bytes ++ left))
    (hlist : pipe.ring.toList = s.pipe.ring.toList ++ bytes)
    (hroom : pipe.ring.length ≤ PIPESIZE)
    (hend : (pc = .writing c n left ∧ events = []) ∨
      (pc = .idle ∧ ∃ r, events = [.wrote c r] ∧ (r = -1 ∨ r = n ∧ left = []))) :
    (s.moves t pipe pc (bytes.map (.store c) ++ events)).Streams := by
  obtain ⟨⟨src, hbegin, hsrc⟩, hopen⟩ := h.writing t c n _ hpc
  have hc := (h.begun c n src hbegin).1
  -- The events at the end are no bytes.
  have hquiet : stored events = [] ∧ delivered events = [] ∧
      (∀ c', storedBy c' events = []) ∧ (∀ c' n' src', .begin c' n' src' ∉ events) ∧
      ∀ c' r, .wrote c' r ∈ events → c' = c ∧ (r = -1 ∨ r = n ∧ left = []) := by
    rcases hend with ⟨-, rfl⟩ | ⟨-, r, rfl, hr⟩
    · simp [stored, delivered, storedBy]
    · refine ⟨rfl, rfl, fun _ => rfl, ?_, ?_⟩
      · simp
      · intro c' r' hmem
        simp only [List.mem_singleton, wrote.injEq] at hmem
        obtain ⟨rfl, rfl⟩ := hmem
        exact ⟨rfl, hr⟩
  obtain ⟨hstored, hdelivered, hby, hnone, hwrote⟩ := hquiet
  have hlog : ∀ c', storedBy c' (s.log ++ (bytes.map (.store c) ++ events)) =
      storedBy c' s.log ++ if c = c' then bytes else [] := by
    intro c'
    rw [storedBy_append, storedBy_append, storedBy_store, hby, List.append_nil]
  have hmem : ∀ c' n' src', .begin c' n' src' ∈
      s.log ++ (bytes.map (.store c) ++ events) → .begin c' n' src' ∈ s.log := by
    intro c' n' src' hin
    simp only [List.mem_append, List.mem_map, reduceCtorEq, and_false, exists_false,
      false_or] at hin
    exact hin.resolve_right (hnone c' n' src')
  have hmem' : ∀ c' r, .wrote c' r ∈ s.log ++ (bytes.map (.store c) ++ events) →
      .wrote c' r ∈ s.log ∨ .wrote c' r ∈ events := by
    intro c' r hin
    simpa using hin
  have hwhole : storedBy c s.log ++ bytes ++ left = src := by
    rw [hsrc, List.append_assoc]
  refine ⟨hroom, ?_, ?_, ?_, ?_, ?_, ?_, ?_⟩
  · change stored (s.log ++ _) = delivered (s.log ++ _) ++ pipe.ring.toList
    simp only [stored_append, delivered_append, stored_store, delivered_store, hstored,
      hdelivered, List.append_nil, hlist, h.bytes, List.append_assoc]
  · intro c' n' src' hin
    have hold := hmem c' n' src' hin
    refine ⟨(h.begun c' n' src' hold).1, ?_⟩
    change storedBy c' (s.log ++ _) <+: src'
    rw [hlog]
    split
    next heq =>
      subst heq
      rw [← (h.once _ _ _ _ _ hbegin hold).2, ← hwhole]
      exact List.prefix_append ..
    next =>
      rw [List.append_nil]
      exact (h.begun c' n' src' hold).2
  · intro c' n₁ n₂ src₁ src₂ hfirst hsecond
    exact h.once c' n₁ n₂ src₁ src₂ (hmem _ _ _ hfirst) (hmem _ _ _ hsecond)
  · intro c' hc'
    have hne : c ≠ c' := by
      have hle : s.calls ≤ c' := hc'
      omega
    change storedBy c' (s.log ++ _) = []
    rw [hlog, if_neg hne, h.fresh c' hc']
    rfl
  · intro c' r hin
    rcases hmem' c' r hin with hold | hnew
    · have hne : c ≠ c' := fun heq => hopen r (heq ▸ hold)
      obtain ⟨hlt, hresult⟩ := h.answered c' r hold
      refine ⟨hlt, fun n' src' hin' => ?_⟩
      change _ ∨ _ ∧ storedBy c' (s.log ++ _) = src'
      rw [hlog, if_neg hne, List.append_nil]
      exact hresult n' src' (hmem _ _ _ hin')
    · obtain ⟨rfl, hr⟩ := hwrote c' r hnew
      refine ⟨hc, fun n' src' hin' => ?_⟩
      obtain ⟨rfl, rfl⟩ := h.once _ _ _ _ _ hbegin (hmem _ _ _ hin')
      refine hr.imp_right fun hdone => ⟨hdone.1, ?_⟩
      change storedBy c' (s.log ++ _) = src
      rw [hlog, if_pos rfl, ← hwhole, hdone.2, List.append_nil]
  · intro u c' n' rest hu
    by_cases hut : u = t
    · subst hut
      have hself : pc = .writing c' n' rest := by
        rw [← hu]
        exact (Function.update_self u pc s.pc).symm
      rcases hend with ⟨rfl, rfl⟩ | ⟨rfl, -⟩
      · cases hself
        refine ⟨⟨src, List.mem_append_left _ hbegin, ?_⟩, ?_⟩
        · change src = storedBy c (s.log ++ _) ++ left
          rw [hlog, if_pos rfl, hwhole]
        · intro r hin
          rcases hmem' c r hin with hold | hnew
          · exact hopen r hold
          · cases hnew
      · cases hself
    · have hold : s.pc u = .writing c' n' rest := by
        rw [← hu]
        exact (Function.update_of_ne hut pc s.pc).symm
      have hne : c ≠ c' := by
        rintro rfl
        exact hut (h.alone u t c _ _ _ _ hold hpc)
      obtain ⟨⟨src', hin, heq⟩, hopen'⟩ := h.writing u c' n' rest hold
      refine ⟨⟨src', List.mem_append_left _ hin, ?_⟩, ?_⟩
      · change src' = storedBy c' (s.log ++ _) ++ rest
        rw [hlog, if_neg hne, List.append_nil]
        exact heq
      · intro r hin'
        rcases hmem' c' r hin' with hold' | hnew
        · exact hopen' r hold'
        · exact hne (hwrote c' r hnew).1.symm
  · have hself : ∀ u c' n' rest, Function.update s.pc t pc u = .writing c' n' rest →
        ∃ n' rest, s.pc u = .writing c' n' rest := by
      intro u c' n' rest hu
      by_cases hut : u = t
      · subst hut
        rw [Function.update_self] at hu
        rcases hend with ⟨rfl, -⟩ | ⟨rfl, -⟩
        · cases hu
          exact ⟨_, _, hpc⟩
        · cases hu
      · rw [Function.update_of_ne hut] at hu
        exact ⟨_, _, hu⟩
    intro u v c' n₁ n₂ rest₁ rest₂ hu hv
    obtain ⟨_, _, hu'⟩ := hself u c' n₁ rest₁ hu
    obtain ⟨_, _, hv'⟩ := hself v c' n₂ rest₂ hv
    exact h.alone u v c' _ _ _ _ hu' hv'

theorem Streams.takes {pipe : Pipe} (h : s.Streams) (bytes : List Byte)
    (pc : PipePc) (events : List PipeEvent)
    (hpc : ∀ c n rest, pc ≠ .writing c n rest)
    (hlist : s.pipe.ring.toList = bytes ++ pipe.ring.toList)
    (hevents : events = [] ∨ ∃ n r, events = [.returned n r]) :
    (s.moves t pipe pc (bytes.map .deliver ++ events)).Streams := by
  have hquiet : stored events = [] ∧ delivered events = [] ∧
      (∀ c', storedBy c' events = []) ∧ (∀ c' n' src', .begin c' n' src' ∉ events) ∧
      ∀ c' r, .wrote c' r ∉ events := by
    rcases hevents with rfl | ⟨n, r, rfl⟩
    · simp [stored, delivered, storedBy]
    · simp [stored, delivered, storedBy]
  obtain ⟨hstored, hdelivered, hby, hnone, hwrote⟩ := hquiet
  have hlog : ∀ c', storedBy c' (s.log ++ (bytes.map .deliver ++ events)) =
      storedBy c' s.log := by
    intro c'
    rw [storedBy_append, storedBy_append, storedBy_deliver, hby]
    simp
  have hmem : ∀ c' n' src', .begin c' n' src' ∈
      s.log ++ (bytes.map .deliver ++ events) → .begin c' n' src' ∈ s.log := by
    intro c' n' src' hin
    simp only [List.mem_append, List.mem_map, reduceCtorEq, and_false, exists_false,
      false_or] at hin
    exact hin.resolve_right (hnone c' n' src')
  have hmem' : ∀ c' r, .wrote c' r ∈ s.log ++ (bytes.map .deliver ++ events) →
      .wrote c' r ∈ s.log := by
    intro c' r hin
    simp only [List.mem_append, List.mem_map, reduceCtorEq, and_false, exists_false,
      false_or] at hin
    exact hin.resolve_right (hwrote c' r)
  refine ⟨?_, ?_, ?_, ?_, ?_, ?_, ?_, ?_⟩
  · have hlength := congrArg List.length hlist
    rw [List.length_append, Pipe.length_ring, Pipe.length_ring] at hlength
    have hroom := h.room
    change pipe.ring.length ≤ PIPESIZE
    omega
  · change stored (s.log ++ _) = delivered (s.log ++ _) ++ pipe.ring.toList
    simp only [stored_append, delivered_append, stored_deliver, delivered_deliver,
      hstored, hdelivered, List.append_nil, h.bytes, hlist, List.append_assoc]
  · intro c' n' src' hin
    have hold := h.begun c' n' src' (hmem _ _ _ hin)
    refine ⟨hold.1, ?_⟩
    change storedBy c' (s.log ++ _) <+: src'
    rw [hlog]
    exact hold.2
  · intro c' n₁ n₂ src₁ src₂ hfirst hsecond
    exact h.once c' n₁ n₂ src₁ src₂ (hmem _ _ _ hfirst) (hmem _ _ _ hsecond)
  · intro c' hc'
    exact (hlog c').trans (h.fresh c' hc')
  · intro c' r hin
    obtain ⟨hlt, hresult⟩ := h.answered c' r (hmem' c' r hin)
    refine ⟨hlt, fun n' src' hin' => ?_⟩
    change _ ∨ _ ∧ storedBy c' (s.log ++ _) = src'
    rw [hlog]
    exact hresult n' src' (hmem _ _ _ hin')
  · intro u c' n' rest hu
    obtain ⟨-, hold⟩ := writing_moves hpc hu
    obtain ⟨⟨src, hin, heq⟩, hopen⟩ := h.writing u c' n' rest hold
    refine ⟨⟨src, List.mem_append_left _ hin, ?_⟩, fun r hr => hopen r (hmem' c' r hr)⟩
    change src = storedBy c' (s.log ++ _) ++ rest
    rw [hlog]
    exact heq
  · intro u v c' n₁ n₂ rest₁ rest₂ hu hv
    exact h.alone u v c' _ _ _ _ (writing_moves hpc hu).2 (writing_moves hpc hv).2

theorem Streams.begins (h : s.Streams) (n : Int) (src : List Byte) :
    PipeSys.Streams { s with
      pc := Function.update s.pc t (.writing s.calls n src)
      calls := s.calls + 1
      log := s.log ++ [.begin s.calls n src] } := by
  have hlog : ∀ c', storedBy c' (s.log ++ [.begin s.calls n src]) = storedBy c' s.log := by
    intro c'
    rw [storedBy_append]
    exact List.append_nil _
  have hmem : ∀ c' n' src', .begin c' n' src' ∈ s.log ++ [.begin s.calls n src] →
      .begin c' n' src' ∈ s.log ∨ c' = s.calls ∧ n' = n ∧ src' = src := by
    intro c' n' src' hin
    simpa using hin
  have hmem' : ∀ c' r, .wrote c' r ∈ s.log ++ [.begin s.calls n src] →
      .wrote c' r ∈ s.log := by
    intro c' r hin
    simpa using hin
  refine ⟨h.room, ?_, ?_, ?_, ?_, ?_, ?_, ?_⟩
  · change stored (s.log ++ _) = delivered (s.log ++ _) ++ s.pipe.ring.toList
    rw [stored_append, delivered_append, h.bytes]
    simp [stored, delivered]
  · intro c' n' src' hin
    change c' < s.calls + 1 ∧ storedBy c' (s.log ++ _) <+: src'
    rw [hlog]
    rcases hmem c' n' src' hin with hold | ⟨rfl, rfl, rfl⟩
    · obtain ⟨hlt, hprefix⟩ := h.begun c' n' src' hold
      exact ⟨hlt.trans (Nat.lt_succ_self _), hprefix⟩
    · rw [h.fresh _ le_rfl]
      exact ⟨Nat.lt_succ_self _, List.nil_prefix⟩
  · intro c' n₁ n₂ src₁ src₂ hfirst hsecond
    rcases hmem _ _ _ hfirst with hold | ⟨rfl, rfl, rfl⟩
    · rcases hmem _ _ _ hsecond with hold' | ⟨rfl, rfl, rfl⟩
      · exact h.once c' n₁ n₂ src₁ src₂ hold hold'
      · exact absurd (h.begun _ _ _ hold).1 (lt_irrefl _)
    · rcases hmem _ _ _ hsecond with hold' | ⟨-, rfl, rfl⟩
      · exact absurd (h.begun _ _ _ hold').1 (lt_irrefl _)
      · exact ⟨rfl, rfl⟩
  · intro c' hc'
    have hle : s.calls + 1 ≤ c' := hc'
    exact (hlog c').trans (h.fresh c' (by omega))
  · intro c' r hin
    obtain ⟨hlt, hresult⟩ := h.answered c' r (hmem' c' r hin)
    refine ⟨hlt.trans (Nat.lt_succ_self _), fun n' src' hin' => ?_⟩
    change _ ∨ _ ∧ storedBy c' (s.log ++ _) = src'
    rw [hlog]
    rcases hmem _ _ _ hin' with hold | ⟨rfl, -, -⟩
    · exact hresult n' src' hold
    · exact absurd hlt (lt_irrefl _)
  · intro u c' n' rest hu
    change Function.update s.pc t _ u = _ at hu
    by_cases hut : u = t
    · rw [hut, Function.update_self] at hu
      cases hu
      refine ⟨⟨src, List.mem_append_right _ (List.mem_singleton_self _), ?_⟩, ?_⟩
      · change src = storedBy s.calls (s.log ++ _) ++ src
        rw [hlog, h.fresh _ le_rfl]
        rfl
      · intro r hin
        exact absurd (h.answered _ r (hmem' _ r hin)).1 (lt_irrefl _)
    · rw [Function.update_of_ne hut] at hu
      obtain ⟨⟨src', hin, heq⟩, hopen⟩ := h.writing u c' n' rest hu
      refine ⟨⟨src', List.mem_append_left _ hin, ?_⟩, fun r hr => hopen r (hmem' c' r hr)⟩
      change src' = storedBy c' (s.log ++ _) ++ rest
      rw [hlog]
      exact heq
  · -- The number of the new call is that of no other.
    have hold : ∀ u c' n' rest, u ≠ t →
        Function.update s.pc t (.writing s.calls n src) u = .writing c' n' rest →
        s.pc u = .writing c' n' rest ∧ c' < s.calls := by
      intro u c' n' rest hut hu
      rw [Function.update_of_ne hut] at hu
      obtain ⟨⟨src', hin, -⟩, -⟩ := h.writing u c' n' rest hu
      exact ⟨hu, (h.begun _ _ _ hin).1⟩
    have hself : ∀ c' n' rest,
        Function.update s.pc t (.writing s.calls n src) t = .writing c' n' rest →
        c' = s.calls := by
      intro c' n' rest ht
      rw [Function.update_self] at ht
      cases ht
      rfl
    intro u v c' n₁ n₂ rest₁ rest₂ hu hv
    by_cases hut : u = t
    · by_cases hvt : v = t
      · rw [hut, hvt]
      · have hc := hself c' n₁ rest₁ (hut ▸ hu)
        exact absurd (hold v c' n₂ rest₂ hvt hv).2 (by omega)
    · have hlt := hold u c' n₁ rest₁ hut hu
      by_cases hvt : v = t
      · have hc := hself c' n₂ rest₂ (hvt ▸ hv)
        exact absurd hlt.2 (by omega)
      · exact h.alone u v c' _ _ _ _ hlt.1 (hold v c' n₂ rest₂ hvt hv).1

omit [DecidableEq Thread] in
theorem Streams.closes (h : s.Streams) (writable : Bool) :
    PipeSys.Streams { s with pipe := s.pipe.close writable } := by
  have hring : (s.pipe.close writable).ring = s.pipe.ring := by
    unfold Pipe.close
    split <;> rfl
  refine ⟨?_, ?_, h.begun, h.once, h.fresh, h.answered, h.writing, h.alone⟩
  · change (s.pipe.close writable).ring.length ≤ PIPESIZE
    rw [hring]
    exact h.room
  · change stored s.log = delivered s.log ++ (s.pipe.close writable).ring.toList
    rw [hring]
    exact h.bytes

theorem Streams.pipewrite {c : Nat} {n : Int} {rest : List Byte} (h : s.Streams)
    (hpc : s.pc t = .writing c n rest) (killed : Bool) :
    (s.pipewrite t killed c n rest).Streams := by
  have hfill := Pipe.fill_spec killed rest h.room
  unfold PipeSys.pipewrite
  generalize hrun : s.pipe.fill killed rest = result at hfill ⊢
  obtain ⟨pipe, bytes, ending⟩ := result
  obtain ⟨hlist, hroom, left, hleft, hreturns, hsleeps⟩ := hfill
  subst hleft
  cases ending with
  | returns =>
      exact h.stores _ hpc hlist hroom (.inr ⟨rfl, n, rfl, .inr ⟨rfl, hreturns rfl⟩⟩)
  | fails => exact h.stores _ hpc hlist hroom (.inr ⟨rfl, -1, rfl, .inl rfl⟩)
  | sleeps more =>
      have hmore := hsleeps more rfl
      subst hmore
      have hstores := h.stores [] hpc hlist hroom (.inl ⟨rfl, rfl⟩)
      rw [List.append_nil] at hstores
      exact hstores

theorem Streams.piperead (h : s.Streams) (killed : Bool) (n : Int) :
    (s.piperead t killed n).Streams := by
  unfold PipeSys.piperead
  split
  · split
    · exact h.takes [] .idle _ (fun _ _ _ hpc => nomatch hpc) rfl (.inr ⟨n, -1, rfl⟩)
    · exact h
  · exact h.takes _ .idle _ (fun _ _ _ hpc => nomatch hpc) Pipe.drain_spec
      (.inr ⟨n, _, rfl⟩)

theorem Streams.step {label : Thread × PipeAct} {next : PipeSys Thread}
    (h : s.Streams) (hstep : s.step label = some next) : next.Streams := by
  unfold PipeSys.step at hstep
  split at hstep
  · split at hstep
    · cases hstep
      exact h.begins ..
    next n _ _ =>
      cases hstep
      have hread := h.takes (t := label.1) [] (.reading n) []
        (fun _ _ _ hpc => nomatch hpc) rfl (.inl rfl)
      simpa [moves] using hread
    next hpc _ =>
      cases hstep
      exact h.pipewrite hpc _
    · cases hstep
      exact h.piperead ..
    · cases hstep
      exact h.closes _
    · cases hstep
  · cases hstep

/-- The pipe is a queue of bytes: the counters tell how many are in transit, what is
read is what was written, in order, each call of `pipewrite` stores its bytes in
order and all of them if it returns `n`, and `piperead` returns 0 at the end of the
stream only. -/
theorem pipe_fifo {data : Fin PIPESIZE → Byte}
    (hreach : Reach PipeSys.step (fun _ _ => True) (start data) s) :
    ((s.pipe.nwrite - s.pipe.nread).toNat ≤ PIPESIZE ∧
        (stored s.log).length =
          (delivered s.log).length + (s.pipe.nwrite - s.pipe.nread).toNat) ∧
      delivered s.log <+: stored s.log ∧
      (∀ c n src, .begin c n src ∈ s.log → storedBy c s.log <+: src ∧
        ∀ r, .wrote c r ∈ s.log → r = -1 ∨ r = n ∧ storedBy c s.log = src) ∧
      ∀ (t : Thread) (n : Int) (killed : Bool) (next : PipeSys Thread), 0 < n →
        s.pc t = .reading n → s.step (t, .run killed) = some next →
          next.log = s.log ++ [.returned n 0] →
            s.pipe.nread = s.pipe.nwrite ∧ s.pipe.writeopen = false := by
  have h : s.Streams := by
    refine hreach.invariant Streams (.start data) ?_
    intro state label next hstreams _ hstep
    exact hstreams.step hstep
  refine ⟨⟨h.room, ?_⟩, ?_, ?_, ?_⟩
  · rw [h.bytes, List.length_append, Pipe.length_ring]
    rfl
  · rw [h.bytes]
    exact List.prefix_append ..
  · intro c n src hin
    exact ⟨(h.begun c n src hin).2, fun r hr => (h.answered c r hr).2 n src hin⟩
  · intro t n killed next hn hpc hstep hlog
    simp only [PipeSys.step, hpc] at hstep
    split at hstep
    · cases hstep
      unfold PipeSys.piperead at hlog
      split at hlog
      · -- A reader that was killed returns -1, and one that sleeps nothing.
        split at hlog
        · simp [moves] at hlog
        · simp at hlog
      next hopen =>
        have hevents := List.append_cancel_left hlog
        have hbytes : (s.pipe.drain n.toNat).2 = [] := by
          cases hdrain : (s.pipe.drain n.toNat).2 with
          | nil => rfl
          | cons byte rest =>
              rw [hdrain] at hevents
              simp at hevents
        have hempty := Pipe.drain_eq_nil (by omega) hbytes
        refine ⟨hempty, ?_⟩
        by_contra hwrite
        exact hopen ⟨hempty, by simpa using hwrite⟩
    · cases hstep

end Steps

/-- One thread writes two bytes, another reads them and then waits for the end of
the stream. -/
theorem pipe_fifo_twoThreads :
    ∃ s : PipeSys Bool, s.log = [.begin 0 2 [7, 8], .store 0 7, .store 0 8, .wrote 0 2,
        .deliver 7, .deliver 8, .returned 5 2, .returned 5 0] ∧
      (s.pipe.nwrite - s.pipe.nread).toNat ≤ PIPESIZE ∧
      delivered s.log <+: stored s.log := by
  have hrun : ((run PipeSys.step (fun _ _ => true) (start fun _ => 0)
      [(false, .pipewrite (fun k => BitVec.ofNat 8 (k + 7)) 2), (false, .run false),
        (true, .piperead 5), (true, .run false), (true, .piperead 5),
        (true, .run false), (false, .pipeclose true), (true, .run false)]).any
      fun s : PipeSys Bool => s.log = [.begin 0 2 [7, 8], .store 0 7, .store 0 8,
        .wrote 0 2, .deliver 7, .deliver 8, .returned 5 2, .returned 5 0]) = true := by
    decide +kernel
  obtain ⟨s, hreach, hend⟩ := reach_of_run_any hrun
  have hfifo := pipe_fifo (hreach.mono fun _ _ _ => trivial)
  exact ⟨s, by simpa using hend, hfifo.1.1, hfifo.2.1⟩

end PipeSys

end KernelThreads.Sync
