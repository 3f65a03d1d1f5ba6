import Mathlib.Logic.Basic

set_option autoImplicit false

namespace Semaphore

variable {V : Type}

-- What is seen of a counting semaphore whose counter is a V. A wait that times out is
-- seen with the counter before and after what it does to it.
inductive Event (V : Type) where
  | signalled
  | granted
  | timedOut (before after : V)
  | reset

-- The last event is the first of the list.
def signals : List (Event V) → Nat
  | [] => 0
  | .signalled :: rest => signals rest + 1
  | .reset :: _ => 0
  | .granted :: rest | .timedOut _ _ :: rest => signals rest

def grants : List (Event V) → Nat
  | [] => 0
  | .granted :: rest => grants rest + 1
  | .reset :: _ => 0
  | .signalled :: rest | .timedOut _ _ :: rest => grants rest

-- What is pending after the events, or none where one of them is not the semaphore's.
def pending [DecidableEq V] : List (Event V) → Option Nat
  | [] => some 0
  | .signalled :: rest => (pending rest).map (· + 1)
  | .granted :: rest => (pending rest).bind fun n => if n = 0 then none else some (n - 1)
  | .timedOut before after :: rest => if after = before then pending rest else none
  | .reset :: rest => (pending rest).map fun _ => 0

structure Counting [LT V] (trace : List (Event V)) : Prop where
  matched : grants trace ≤ signals trace
  unchanged : ∀ before after, .timedOut before after ∈ trace → after = before
  noWrap : ∀ before after, .timedOut before after ∈ trace → ¬ before < after

section Proofs

variable [DecidableEq V] {trace : List (Event V)} {n : Nat}

theorem pending_conserved (kept : pending trace = some n) : grants trace + n = signals trace := by
  induction trace generalizing n with
  | nil =>
      cases kept
      rfl
  | cons event rest ih =>
      cases event with
      | signalled =>
          obtain ⟨m, before, rfl⟩ := Option.map_eq_some_iff.mp kept
          rw [grants, signals, ← ih before, Nat.add_assoc]
      | granted =>
          obtain ⟨m, before, after⟩ := Option.bind_eq_some_iff.mp kept
          by_cases none : m = 0
          · rw [if_pos none] at after
            cases after
          · rw [if_neg none, Option.some.injEq] at after
            rw [grants, signals, ← ih before]
            omega
      | timedOut before after =>
          rw [pending] at kept
          split at kept
          · exact ih kept
          · cases kept
      | reset =>
          obtain ⟨m, _, rfl⟩ := Option.map_eq_some_iff.mp kept
          rfl

theorem pending_unchanged (kept : pending trace = some n) {before after : V} (seen : .timedOut before after ∈ trace) : after = before := by
  induction trace generalizing n with
  | nil => cases seen
  | cons event rest ih =>
      rcases List.mem_cons.mp seen with first | later
      · subst first
        rw [pending] at kept
        split at kept
        · assumption
        · cases kept
      · have earlier : ∃ m, pending rest = some m := by
          cases event with
          | signalled | reset => exact (Option.map_eq_some_iff.mp kept).imp fun _ found => found.1
          | granted => exact (Option.bind_eq_some_iff.mp kept).imp fun _ found => found.1
          | timedOut before after =>
              rw [pending] at kept
              split at kept
              · exact ⟨n, kept⟩
              · cases kept
        obtain ⟨m, found⟩ := earlier
        exact ih found later

end Proofs

theorem counting_of_pending [DecidableEq V] [LT V] (irrefl : ∀ v : V, ¬ v < v) {trace : List (Event V)} {n : Nat}
    (kept : pending trace = some n) : Counting trace where
  matched := pending_conserved kept ▸ Nat.le_add_right _ _
  unchanged := fun _ _ seen => pending_unchanged kept seen
  noWrap := by
    intro before after seen
    rw [pending_unchanged kept seen]
    exact irrefl before

end Semaphore
