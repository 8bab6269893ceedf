import Mathlib.Data.List.Basic

namespace KernelThreads.Lib

universe u v w

variable {State : Type u} {Label : Type v}

/-! Deterministic labelled transition systems: the label carries every choice
that the environment makes, and a step that is not enabled is `none`. -/

/-- States reached from `start` by steps that all meet the guard. -/
inductive Reach (step : State → Label → Option State)
    (guard : State → Label → Prop) (start : State) : State → Prop
  | refl : Reach step guard start start
  | tail {state next : State} {label : Label} :
      Reach step guard start state → guard state label →
        step state label = some next → Reach step guard start next

namespace Reach

variable {step : State → Label → Option State}
variable {guard other : State → Label → Prop}
variable {start middle finish : State}

theorem invariant (hreach : Reach step guard start finish)
    (Inv : State → Prop) (hinit : Inv start)
    (hstep : ∀ {state label next}, Inv state → guard state label →
      step state label = some next → Inv next) : Inv finish := by
  induction hreach with
  | refl => exact hinit
  | tail _ hguard hnext ih => exact hstep ih hguard hnext

theorem mono (himp : ∀ state label, guard state label → other state label)
    (hreach : Reach step guard start finish) :
    Reach step other start finish := by
  induction hreach with
  | refl => exact .refl
  | tail _ hguard hnext ih => exact .tail ih (himp _ _ hguard) hnext

theorem trans (hfirst : Reach step guard start middle)
    (hsecond : Reach step guard middle finish) :
    Reach step guard start finish := by
  induction hsecond with
  | refl => exact hfirst
  | tail _ hguard hnext ih => exact .tail ih hguard hnext

end Reach

/-- States reached from `start` by guarded steps, with the events of the run in
order. -/
inductive History {Event : Type w} (step : State → Label → Option State)
    (guard : State → Label → Prop) (emits : State → Label → State → List Event)
    (start : State) : List Event → State → Prop
  | refl : History step guard emits start [] start
  | tail {state next : State} {label : Label} {log : List Event} :
      History step guard emits start log state → guard state label →
        step state label = some next →
          History step guard emits start (log ++ emits state label next) next

theorem History.invariant {Event : Type w}
    {step : State → Label → Option State} {guard : State → Label → Prop}
    {emits : State → Label → State → List Event} {start finish : State}
    {log : List Event} (hhistory : History step guard emits start log finish)
    (Inv : List Event → State → Prop) (hinit : Inv [] start)
    (hstep : ∀ {log state label next}, Inv log state → guard state label →
      step state label = some next →
        Inv (log ++ emits state label next) next) : Inv log finish := by
  induction hhistory with
  | refl => exact hinit
  | tail _ hguard hnext ih => exact hstep ih hguard hnext

theorem History.cons {Event : Type w} {step : State → Label → Option State}
    {guard : State → Label → Prop} {emits : State → Label → State → List Event}
    {start next finish : State} {label : Label} {log : List Event}
    (hguard : guard start label) (hnext : step start label = some next)
    (hrest : History step guard emits next log finish) :
    History step guard emits start (emits start label next ++ log) finish := by
  induction hrest with
  | refl =>
      have hfirst : History step guard emits start
          ([] ++ emits start label next) next := .tail .refl hguard hnext
      simpa using hfirst
  | tail _ hguard' hnext' ih =>
      rw [← List.append_assoc]
      exact .tail ih hguard' hnext'

/-- Run a list of labels in order, as long as each step meets the guard. -/
def run (step : State → Label → Option State) (guard : State → Label → Bool) :
    State → List Label → Option State
  | state, [] => some state
  | state, label :: rest =>
      if guard state label then
        (step state label).bind fun next => run step guard next rest
      else none

theorem reach_of_run {step : State → Label → Option State}
    {guard : State → Label → Bool} {labels : List Label} {start finish : State}
    (hrun : run step guard start labels = some finish) :
    Reach step (fun state label => guard state label = true) start finish := by
  induction labels generalizing start with
  | nil =>
      have heq : start = finish := Option.some.inj hrun
      subst start
      exact .refl
  | cons label rest ih =>
      simp only [run] at hrun
      split at hrun
      next hguard =>
        obtain ⟨next, hnext, hrest⟩ := Option.bind_eq_some_iff.mp hrun
        have hfirst : Reach step (fun state label => guard state label = true)
            start next := .tail .refl hguard hnext
        exact hfirst.trans (ih hrest)
      next => contradiction

theorem exists_of_any {α : Type w} {o : Option α} {test : α → Prop} [DecidablePred test]
    (h : (o.any fun a => test a) = true) : ∃ a, o = some a ∧ test a := by
  simpa [Option.any_eq_true] using h

theorem reach_of_run_any {step : State → Label → Option State}
    {guard : State → Label → Bool} {labels : List Label} {start : State}
    {test : State → Prop} [DecidablePred test]
    (h : ((run step guard start labels).any fun s => test s) = true) :
    ∃ finish, Reach step (fun state label => guard state label = true)
      start finish ∧ test finish := by
  obtain ⟨finish, hrun, htest⟩ := exists_of_any h
  exact ⟨finish, reach_of_run hrun, htest⟩

def runLog {Event : Type w} (step : State → Label → Option State)
    (guard : State → Label → Bool) (emits : State → Label → State → List Event) :
    State → List Label → Option (List Event × State)
  | state, [] => some ([], state)
  | state, label :: rest =>
      if guard state label then
        (step state label).bind fun next =>
          (runLog step guard emits next rest).map fun result =>
            (emits state label next ++ result.1, result.2)
      else none

theorem history_of_runLog {Event : Type w} {step : State → Label → Option State}
    {guard : State → Label → Bool} {emits : State → Label → State → List Event}
    {labels : List Label} {start : State} {test : List Event × State → Prop}
    [DecidablePred test]
    (h : ((runLog step guard emits start labels).any fun result => test result) = true) :
    ∃ log finish, History step (fun state label => guard state label = true)
      emits start log finish ∧ test (log, finish) := by
  obtain ⟨⟨log, finish⟩, hrun, htest⟩ := exists_of_any h
  refine ⟨log, finish, ?_, htest⟩
  clear htest h
  induction labels generalizing start log with
  | nil =>
      cases hrun
      exact .refl
  | cons label rest ih =>
      simp only [runLog] at hrun
      split at hrun
      next hguard =>
        obtain ⟨next, hnext, hrest⟩ := Option.bind_eq_some_iff.mp hrun
        obtain ⟨⟨later, last⟩, hlater, heq⟩ := Option.map_eq_some_iff.mp hrest
        cases heq
        exact .cons hguard hnext (ih later hlater)
      next => contradiction

end KernelThreads.Lib
