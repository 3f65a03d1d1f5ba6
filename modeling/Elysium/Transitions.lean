import Mathlib.Logic.Function.Basic

set_option autoImplicit false

namespace Elysium.Transitions

-- A system whose parties take turns: an action says who moves and how, and may not
-- be possible.
section Transitions

variable {S A : Type} (start : S → Prop) (step : A → S → Option S)

inductive Reachable : S → Prop where
  | start (s : S) (initial : start s) : Reachable s
  | step (s s' : S) (action : A) (before : Reachable s) (taken : step action s = some s') : Reachable s'

-- The same, by steps that all meet a condition in the state they are taken in.
inductive ReachableUnder (allowed : A → S → Prop) : S → Prop where
  | start (s : S) (initial : start s) : ReachableUnder allowed s
  | step (s s' : S) (action : A) (before : ReachableUnder allowed s) (meets : allowed action s)
      (taken : step action s = some s') : ReachableUnder allowed s'

-- A schedule, carried out from a state.
def execute : List A → S → Option S
  | [], s => some s
  | action :: rest, s => (step action s).bind (execute rest)

variable {start step}

theorem reachable_invariant {inv : S → Prop} (initial : ∀ s, start s → inv s)
    (keeps : ∀ action s s', inv s → step action s = some s' → inv s') {s : S} (reach : Reachable start step s) : inv s := by
  induction reach with
  | start s first => exact initial s first
  | step s s' action _ taken ih => exact keeps action s s' ih taken

theorem reachable_execute {schedule : List A} {s s' : S} (reach : Reachable start step s)
    (run : execute step schedule s = some s') : Reachable start step s' := by
  induction schedule generalizing s with
  | nil =>
      rw [execute, Option.some.injEq] at run
      exact run ▸ reach
  | cons action rest ih =>
      rw [execute, Option.bind_eq_some_iff] at run
      obtain ⟨s₁, first, later⟩ := run
      exact ih (.step s s₁ action reach first) later

theorem reachable_under_invariant {allowed : A → S → Prop} {inv : S → Prop} (initial : ∀ s, start s → inv s)
    (keeps : ∀ action s s', inv s → allowed action s → step action s = some s' → inv s') {s : S}
    (reach : ReachableUnder start step allowed s) : inv s := by
  induction reach with
  | start s first => exact initial s first
  | step s s' action _ meets taken ih => exact keeps action s s' ih meets taken

end Transitions

end Elysium.Transitions
