import KernelThreads.Lib.Program

namespace KernelThreads.Lib.Program

/-! What a run ensures: a postcondition if it returns, and an allowed reason if
it stops. -/

variable {Stop State α β : Type}

def Meets (program : Program Stop State α) (allowed : Stop → Prop) (state : State)
    (post : α → State → Prop) : Prop :=
  match program state with
  | .ok (value, next) => post value next
  | .error stop => allowed stop

namespace Meets

variable {program : Program Stop State α} {rest : α → Program Stop State β}
variable {allowed : Stop → Prop} {state next : State}
variable {post middle : α → State → Prop} {last : β → State → Prop}

theorem ok {value : α} (h : Meets program allowed state post)
    (hrun : program state = .ok (value, next)) : post value next := by
  unfold Meets at h
  rw [hrun] at h
  exact h

theorem error {stop : Stop} (h : Meets program allowed state post)
    (hrun : program state = .error stop) : allowed stop := by
  unfold Meets at h
  rw [hrun] at h
  exact h

theorem returns (h : Meets program (fun _ => False) state post) :
    ∃ value next, program state = .ok (value, next) ∧ post value next := by
  cases hrun : program state with
  | ok reached => exact ⟨reached.1, reached.2, rfl, h.ok hrun⟩
  | error stop => exact (h.error hrun).elim

theorem of_ok {value : α} (hrun : program state = .ok (value, next))
    (h : post value next) : Meets program allowed state post := by
  unfold Meets
  rw [hrun]
  exact h

theorem mono {permitted : Stop → Prop} (h : Meets program allowed state middle)
    (hallowed : ∀ stop, allowed stop → permitted stop)
    (hpost : ∀ value next, middle value next → post value next) :
    Meets program permitted state post := by
  unfold Meets at h ⊢
  split
  next hrun =>
    rw [hrun] at h
    exact hpost _ _ h
  next hrun =>
    rw [hrun] at h
    exact hallowed _ h

theorem weaken (h : Meets program allowed state middle)
    (hpost : ∀ value next, middle value next → post value next) :
    Meets program allowed state post :=
  h.mono (fun _ hstop => hstop) hpost

theorem bind (h : Meets program allowed state middle)
    (hrest : ∀ value next, middle value next → Meets (rest value) allowed next last) :
    Meets (program >>= rest) allowed state last := by
  cases hrun : program state with
  | ok reached =>
      unfold Meets
      rw [bind_of_ok hrun]
      exact hrest _ _ (h.ok hrun)
  | error stop =>
      unfold Meets
      rw [bind_of_error hrun]
      exact h.error hrun

theorem bind_ok {value : α} (hrun : program state = .ok (value, next))
    (h : Meets (rest value) allowed next last) :
    Meets (program >>= rest) allowed state last := by
  unfold Meets at h ⊢
  rw [bind_of_ok hrun]
  exact h

theorem pure {value : α} (h : post value state) :
    Meets (Pure.pure value : Program Stop State α) allowed state post := h

theorem throw {stop : Stop} (h : allowed stop) :
    Meets (MonadExcept.throw stop : Program Stop State α) allowed state post := h

end Meets

end KernelThreads.Lib.Program
