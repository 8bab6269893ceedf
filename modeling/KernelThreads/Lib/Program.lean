import Mathlib.Init

namespace KernelThreads.Lib

/-! Programs over a state.  A program returns a value in a new state, or it
stops the machine. -/

abbrev Program (Stop State : Type) := StateT State (Except Stop)

namespace Program

variable {Stop State α β : Type}

theorem bind_ok {first : Program Stop State α} {rest : α → Program Stop State β}
    {state next : State} {value : β}
    (h : (first >>= rest) state = .ok (value, next)) :
    ∃ result middle, first state = .ok (result, middle) ∧
      rest result middle = .ok (value, next) := by
  change ((first state).bind fun reached => rest reached.1 reached.2) =
    .ok (value, next) at h
  cases hfirst : first state with
  | error stop =>
      rw [hfirst] at h
      contradiction
  | ok reached =>
      rw [hfirst] at h
      exact ⟨reached.1, reached.2, rfl, h⟩

theorem bind_of_ok {first : Program Stop State α} {rest : α → Program Stop State β}
    {state middle : State} {result : α} (h : first state = .ok (result, middle)) :
    (first >>= rest) state = rest result middle := by
  change ((first state).bind fun reached => rest reached.1 reached.2) = _
  rw [h]
  rfl

theorem bind_of_error {first : Program Stop State α}
    {rest : α → Program Stop State β} {state : State} {stop : Stop}
    (h : first state = .error stop) : (first >>= rest) state = .error stop := by
  change ((first state).bind fun reached => rest reached.1 reached.2) = _
  rw [h]
  rfl

theorem bind_error {first : Program Stop State α} {rest : α → Program Stop State β}
    {state : State} {stop : Stop} (h : (first >>= rest) state = .error stop) :
    first state = .error stop ∨ ∃ result middle,
      first state = .ok (result, middle) ∧ rest result middle = .error stop := by
  change ((first state).bind fun reached => rest reached.1 reached.2) =
    .error stop at h
  cases hfirst : first state with
  | error reason =>
      rw [hfirst] at h
      cases h
      exact .inl rfl
  | ok reached =>
      rw [hfirst] at h
      exact .inr ⟨reached.1, reached.2, rfl, h⟩

end Program

end KernelThreads.Lib
