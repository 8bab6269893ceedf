import KernelThreads.User.Semaphore

namespace KernelThreads

open Lib

/-! The queue of `ulock.c` on its own `int` indices, against a list. -/

/-- `struct queue`.  The array is the memory from `arr` on, so that an index
outside of it is a read or a write there. -/
structure QueueStruct where
  arr : Int → Int
  front : Int
  rear : Int

namespace QueueStruct

def initQueue (q : QueueStruct) : QueueStruct := { q with front := 0, rear := 0 }

def isempty (q : QueueStruct) : Bool := q.front = q.rear

def enqueue (q : QueueStruct) (value : Int) : Int × QueueStruct :=
  if (q.front + 1).tmod MAX_QUEUE_SIZE = q.rear then (-1, q)
  else (0, { q with
    arr := Function.update q.arr q.front value
    front := (q.front + 1).tmod MAX_QUEUE_SIZE })

def dequeue (q : QueueStruct) : Int × QueueStruct :=
  if q.front = q.rear then (-1, q)
  else (q.arr q.rear, { q with rear := (q.rear + 1).tmod MAX_QUEUE_SIZE })

structure InArray (q : QueueStruct) : Prop where
  front : 0 ≤ q.front ∧ q.front < MAX_QUEUE_SIZE
  rear : 0 ≤ q.rear ∧ q.rear < MAX_QUEUE_SIZE

def ring (q : QueueStruct) : Queue where
  cells := fun i => q.arr i.val
  front := Fin.ofNat MAX_QUEUE_SIZE q.front.toNat
  rear := Fin.ofNat MAX_QUEUE_SIZE q.rear.toNat

def contents (q : QueueStruct) : List Int := q.ring.toList

section Index

variable {i j : Int}

theorem ofNat_val (hi : 0 ≤ i ∧ i < MAX_QUEUE_SIZE) :
    ((Fin.ofNat MAX_QUEUE_SIZE i.toNat).val : Int) = i := by
  rw [Fin.val_ofNat, Nat.mod_eq_of_lt (by omega), Int.toNat_of_nonneg hi.1]

theorem ofNat_inj (hi : 0 ≤ i ∧ i < MAX_QUEUE_SIZE) (hj : 0 ≤ j ∧ j < MAX_QUEUE_SIZE) :
    Fin.ofNat MAX_QUEUE_SIZE i.toNat = Fin.ofNat MAX_QUEUE_SIZE j.toNat ↔ i = j := by
  constructor
  · intro heq
    rw [← ofNat_val hi, ← ofNat_val hj, heq]
  · rintro rfl
    rfl

theorem next_inArray (hi : 0 ≤ i) :
    0 ≤ (i + 1).tmod MAX_QUEUE_SIZE ∧ (i + 1).tmod MAX_QUEUE_SIZE < MAX_QUEUE_SIZE := by
  rw [Int.tmod_eq_emod_of_nonneg (by omega)]
  exact ⟨Int.emod_nonneg _ (by decide), Int.emod_lt_of_pos _ (by decide)⟩

theorem ofNat_next (hi : 0 ≤ i ∧ i < MAX_QUEUE_SIZE) :
    Fin.ofNat MAX_QUEUE_SIZE ((i + 1).tmod MAX_QUEUE_SIZE).toNat =
      Fin.ofNat MAX_QUEUE_SIZE i.toNat + 1 := by
  have hval : (((Fin.ofNat MAX_QUEUE_SIZE i.toNat + 1).val : Nat) : Int) =
      (i + 1).tmod MAX_QUEUE_SIZE := by
    rw [Fin.val_add, Fin.val_one', Nat.add_mod_mod, Int.natCast_emod, Int.natCast_add,
      ofNat_val hi, Int.tmod_eq_emod_of_nonneg (by omega)]
    rfl
  exact Fin.ext (Int.natCast_inj.mp ((ofNat_val (next_inArray hi.1)).trans hval.symm))

end Index

variable {q : QueueStruct}

theorem ring_isempty (h : q.InArray) : q.ring.isempty = q.isempty := by
  unfold Queue.isempty isempty
  exact decide_eq_decide.mpr (ofNat_inj h.front h.rear)

theorem full_iff (h : q.InArray) :
    (q.front + 1).tmod MAX_QUEUE_SIZE = q.rear ↔ q.ring.front + 1 = q.ring.rear := by
  rw [← ofNat_inj (next_inArray h.front.1) h.rear, ofNat_next h.front]
  exact Iff.rfl

theorem ring_enqueue (h : q.InArray) (value : Int) :
    ((q.enqueue value).1, (q.enqueue value).2.ring) = q.ring.enqueue value := by
  unfold enqueue Queue.enqueue
  by_cases hfull : (q.front + 1).tmod MAX_QUEUE_SIZE = q.rear
  · rw [if_pos hfull, if_pos ((full_iff h).mp hfull)]
  · rw [if_neg hfull, if_neg (mt (full_iff h).mpr hfull)]
    have hcells : (fun i : Fin MAX_QUEUE_SIZE =>
        Function.update q.arr q.front value i.val) =
          Function.update q.ring.cells q.ring.front value := by
      funext i
      have hindex : (i.val : Int) = q.front ↔ i = q.ring.front := by
        rw [Fin.ext_iff, ← Int.natCast_inj]
        exact ⟨fun heq => heq.trans (ofNat_val h.front).symm,
          fun heq => heq.trans (ofNat_val h.front)⟩
      rw [Function.update_apply, Function.update_apply, if_congr hindex rfl rfl]
      rfl
    unfold RingBuffer.push
    rw [← hcells]
    simp only [ring, ofNat_next h.front]

theorem ring_dequeue (h : q.InArray) :
    (q.dequeue.1, q.dequeue.2.ring) = q.ring.dequeue := by
  have hsame : q.ring.front = q.ring.rear ↔ q.front = q.rear := ofNat_inj h.front h.rear
  unfold dequeue Queue.dequeue
  by_cases hempty : q.front = q.rear
  · rw [if_pos hempty, if_pos (hsame.mpr hempty)]
  · rw [if_neg hempty, if_neg (mt hsame.mp hempty)]
    have hcell : q.ring.cells q.ring.rear = q.arr q.rear := by
      show q.arr ((Fin.ofNat MAX_QUEUE_SIZE q.rear.toNat).val : Int) = _
      rw [ofNat_val h.rear]
    unfold RingBuffer.pop
    rw [hcell]
    simp only [ring, ofNat_next h.rear]

end QueueStruct

inductive QueueCall where
  | initQueue
  | enqueue (value : Int)
  | dequeue
  | isempty

def QueueStruct.call (q : QueueStruct) : QueueCall → Int × QueueStruct
  | .initQueue => (0, q.initQueue)
  | .enqueue value => q.enqueue value
  | .dequeue => q.dequeue
  | .isempty => (if q.isempty then 1 else 0, q)

/-- The same calls on a list of at most `MAX_QUEUE_SIZE - 1` elements. -/
def fifoCall (xs : List Int) : QueueCall → Int × List Int
  | .initQueue => (0, [])
  | .enqueue value => if xs.length = MAX_QUEUE_SIZE - 1 then (-1, xs) else (0, xs ++ [value])
  | .dequeue =>
      match xs with
      | [] => (-1, [])
      | x :: rest => (x, rest)
  | .isempty => (if xs.isEmpty then 1 else 0, xs)

def callAll {σ : Type} (call : σ → QueueCall → Int × σ) : List QueueCall → σ → List Int × σ
  | [], s => ([], s)
  | c :: calls, s =>
      let rest := callAll call calls (call s c).2
      ((call s c).1 :: rest.1, rest.2)

namespace QueueStruct

variable {q : QueueStruct}

theorem inArray_call (h : q.InArray) (c : QueueCall) : (q.call c).2.InArray := by
  have hzero : (0 : Int) ≤ 0 ∧ (0 : Int) < MAX_QUEUE_SIZE := by decide
  cases c with
  | initQueue => exact ⟨hzero, hzero⟩
  | enqueue value =>
      simp only [call, enqueue]
      split
      · exact h
      · exact ⟨next_inArray h.front.1, h.rear⟩
  | dequeue =>
      simp only [call, dequeue]
      split
      · exact h
      · exact ⟨h.front, next_inArray h.rear.1⟩
  | isempty => exact h

theorem contents_eq_nil (h : q.InArray) : q.contents = [] ↔ q.front = q.rear :=
  (RingBuffer.toList_eq_nil q.ring).trans (ofNat_inj h.front h.rear)

theorem contents_full (h : q.InArray) :
    q.contents.length = MAX_QUEUE_SIZE - 1 ↔ (q.front + 1).tmod MAX_QUEUE_SIZE = q.rear := by
  rw [full_iff h, contents, RingBuffer.length_toList]
  constructor
  · intro hlength
    by_contra hroom
    have hpush := RingBuffer.length_push q.ring 0 hroom
    have hlt := RingBuffer.length_lt (q.ring.push 0)
    rw [hpush, hlength] at hlt
    exact absurd hlt (by decide)
  · intro hfull
    exact Nat.eq_sub_of_add_eq (RingBuffer.length_of_full q.ring hfull)

theorem call_contents (h : q.InArray) (c : QueueCall) :
    ((q.call c).1, (q.call c).2.contents) = fifoCall q.contents c := by
  cases c with
  | initQueue =>
      have hnil : q.initQueue.contents = [] := (RingBuffer.toList_eq_nil _).mpr rfl
      rw [call, hnil]
      rfl
  | enqueue value =>
      have hring : (q.enqueue value).2.ring = (q.ring.enqueue value).2 :=
        congrArg Prod.snd (ring_enqueue h value)
      by_cases hfull : (q.front + 1).tmod MAX_QUEUE_SIZE = q.rear
      · rw [call, fifoCall, if_pos ((contents_full h).mpr hfull), enqueue, if_pos hfull]
      · rw [fifoCall, if_neg (mt (contents_full h).mp hfull)]
        have hroom := mt (full_iff h).mpr hfull
        refine Prod.ext ?_ ?_
        · simp only [call, enqueue, if_neg hfull]
        · show (q.enqueue value).2.ring.toList = q.ring.toList ++ [value]
          rw [hring, Queue.toList_enqueue hroom]
  | dequeue =>
      have hvalue : q.dequeue.1 = q.ring.dequeue.1 := congrArg Prod.fst (ring_dequeue h)
      have hring : q.dequeue.2.ring = q.ring.dequeue.2 := congrArg Prod.snd (ring_dequeue h)
      by_cases hempty : q.front = q.rear
      · rw [(contents_eq_nil h).mpr hempty]
        simp only [call, dequeue, if_pos hempty, (contents_eq_nil h).mpr hempty, fifoCall]
      · have hsome : q.ring.isempty = false := by
          rw [ring_isempty h, isempty, decide_eq_false hempty]
        have hcontents : q.contents = q.dequeue.1 :: q.dequeue.2.contents := by
          rw [contents, Queue.toList_dequeue hsome, ← hvalue, ← hring]
          rfl
        rw [hcontents]
        rfl
  | isempty =>
      rw [call, fifoCall]
      have hsame : q.isempty = q.contents.isEmpty := by
        rw [isempty, Bool.eq_iff_iff, decide_eq_true_iff, List.isEmpty_iff, contents_eq_nil h]
      rw [hsame]

theorem callAll_contents (h : q.InArray) (calls : List QueueCall) :
    (callAll call calls q).2.InArray ∧
      ((callAll call calls q).1, (callAll call calls q).2.contents) =
        callAll fifoCall calls q.contents := by
  induction calls generalizing q with
  | nil => exact ⟨h, rfl⟩
  | cons c calls ih =>
      obtain ⟨hlast, hresults⟩ := ih (inArray_call h c)
      refine ⟨hlast, ?_⟩
      simp only [callAll, ← call_contents h c, ← hresults]

theorem enqueue_fails_iff (h : q.InArray) (value : Int) :
    q.enqueue value = (-1, q) ↔ q.contents.length = MAX_QUEUE_SIZE - 1 := by
  rw [contents_full h]
  unfold enqueue
  constructor
  · intro heq
    by_contra hroom
    rw [if_neg hroom] at heq
    cases heq
  · intro hfull
    rw [if_pos hfull]

theorem dequeue_fails_iff (h : q.InArray) : q.dequeue = (-1, q) ↔ q.contents = [] := by
  rw [contents_eq_nil h]
  unfold dequeue
  constructor
  · intro heq
    by_contra hsome
    rw [if_neg hsome] at heq
    -- The index moves, also where the value is `-1`.
    have hrear : (q.rear + 1).tmod MAX_QUEUE_SIZE = q.rear :=
      congrArg QueueStruct.rear (congrArg Prod.snd heq)
    have hrange := h.rear
    rw [Int.tmod_eq_emod_of_nonneg (by omega)] at hrear
    simp only [MAX_QUEUE_SIZE] at hrear hrange
    omega
  · intro hempty
    rw [if_pos hempty]

/-- After `init_queue` the queue is a bounded list, whatever is called. -/
theorem queue_fifo (q : QueueStruct) (calls : List QueueCall) :
    let last := (callAll call calls q.initQueue).2
    ((callAll call calls q.initQueue).1, last.contents) = callAll fifoCall calls [] ∧
      last.InArray ∧
      (∀ value, last.enqueue value = (-1, last) ↔
        last.contents.length = MAX_QUEUE_SIZE - 1) ∧
      (last.dequeue = (-1, last) ↔ last.contents = []) ∧
      (last.isempty = true ↔ last.contents = []) := by
  have hzero : (0 : Int) ≤ 0 ∧ (0 : Int) < MAX_QUEUE_SIZE := by decide
  have hinit : q.initQueue.InArray := ⟨hzero, hzero⟩
  have hnil : q.initQueue.contents = [] := (RingBuffer.toList_eq_nil _).mpr rfl
  obtain ⟨hlast, hresults⟩ := callAll_contents hinit calls
  rw [hnil] at hresults
  refine ⟨hresults, hlast, enqueue_fails_iff hlast, dequeue_fails_iff hlast, ?_⟩
  rw [contents_eq_nil hlast, isempty, decide_eq_true_iff]

end QueueStruct

end KernelThreads
