import Elysium.Semaphore
import Elysium.Transitions
import Mathlib.Data.BitVec

set_option autoImplicit false

namespace Elysium.Uacpi

open Transitions (Reachable ReachableUnder reachable_under_invariant execute reachable_execute)
open Semaphore (Event Counting signals grants pending)

def nanosecondsInMillisecond : BitVec 64 := 1000000

-- Where a thread is in uacpi_kernel_wait_for_event, before its next read, atomic
-- operation or return.
inductive Pc where
  | out
  | waiting
  | starting (timeout : BitVec 16)
  | polling (deadline : BitVec 64)
  | checking (deadline : BitVec 64)
  | deciding
  | subtracting
  | returning (result : Bool)
deriving DecidableEq, Repr

-- trace records what the callers see of the event; the code does not have it.
structure State (T : Type) where
  counter : BitVec 64
  pc : T → Pc
  trace : List (Event (BitVec 64))

-- now is what arch_time_monotonic reads if the step reads it.
inductive Move where
  | wait (timeout : BitVec 16)
  | signal
  | reset
  | run (now : BitVec 64)
deriving DecidableEq, Repr

section Model

variable {T : Type} [DecidableEq T]

namespace State

def goto (s : State T) (t : T) (pc : Pc) : State T := { s with pc := Function.update s.pc t pc }

def see (s : State T) (event : Event (BitVec 64)) : State T := { s with trace := event :: s.trace }

end State

def stepAt (s : State T) (t : T) : Pc → Move → Option (State T)
  | .out, .wait timeout => some (s.goto t (if timeout = 0xFFFF then .waiting else .starting timeout))
  | .out, .signal => some { s.see .signalled with counter := s.counter + 1 }
  | .out, .reset => some { s.see .reset with counter := 0 }
  | .waiting, .run _ => some (s.goto t (if s.counter ≠ 0 then .waiting else .returning true))
  | .starting timeout, .run now => some (s.goto t (.polling (now + timeout.setWidth 64 * nanosecondsInMillisecond)))
  | .polling deadline, .run _ => some (s.goto t (if s.counter ≠ 0 then .checking deadline else .deciding))
  | .checking deadline, .run now => some (s.goto t (if now < deadline then .polling deadline else .deciding))
  | .deciding, .run _ => some (s.goto t (if s.counter = 0 then .returning true else .subtracting))
  | .subtracting, .run _ =>
      some { (s.goto t (.returning false)).see (.timedOut s.counter (s.counter - 1)) with counter := s.counter - 1 }
  | .returning true, .run _ => some ((s.goto t .out).see .granted)
  | .returning false, .run _ => some (s.goto t .out)
  | _, _ => none

def step (action : T × Move) (s : State T) : Option (State T) := stepAt s action.1 (s.pc action.1) action.2

-- uacpi_kernel_create_event
def initial (s : State T) : Prop := s.counter = 0 ∧ (∀ t, s.pc t = .out) ∧ s.trace = []

-- The step is not one of a wait that finds the counter 0, or its deadline passed.
def WaitsOn (action : T × Move) (s : State T) : Prop :=
  match s.pc action.1, action.2 with
  | .waiting, .run _ | .polling _, .run _ => s.counter ≠ 0
  | .checking deadline, .run now => now < deadline
  | _, _ => True

-- Nothing but the signals has been counted, and no wait is about to return.
structure Inv (s : State T) : Prop where
  counts : pending s.trace = some (signals s.trace)
  counter : s.counter = BitVec.ofNat 64 (signals s.trace)
  waits : ∀ t, s.pc t ≠ .deciding ∧ s.pc t ≠ .subtracting ∧ ∀ result, s.pc t ≠ .returning result

end Model

section Proofs

variable {T : Type} {s s' : State T}

theorem initial_inv (start : initial s) : Inv s := by
  obtain ⟨counter, pcs, trace⟩ := start
  refine ⟨?_, ?_, fun t => ?_⟩
  · rw [trace]
    rfl
  · rw [counter, trace]
    rfl
  · rw [pcs]
    exact ⟨nofun, nofun, nofun⟩

variable [DecidableEq T]

theorem goto_inv (inv : Inv s) (t : T) {pc : Pc} (waits : pc ≠ .deciding ∧ pc ≠ .subtracting ∧ ∀ result, pc ≠ .returning result) :
    Inv (s.goto t pc) := by
  refine ⟨inv.counts, inv.counter, fun u => ?_⟩
  show Function.update s.pc t pc u ≠ _ ∧ Function.update s.pc t pc u ≠ _ ∧ ∀ result, Function.update s.pc t pc u ≠ _
  rw [Function.update_apply]
  split
  · exact waits
  · exact inv.waits u

theorem out_inv {t : T} {move : Move} (inv : Inv s) (taken : stepAt s t .out move = some s') : Inv s' := by
  cases move with
  | wait timeout =>
      cases Option.some.inj taken
      refine goto_inv inv t ?_
      split <;> exact ⟨nofun, nofun, nofun⟩
  | signal =>
      cases Option.some.inj taken
      refine ⟨?_, ?_, inv.waits⟩
      · simp only [State.see, pending, inv.counts, signals, Option.map_some]
      · simp only [State.see, inv.counter, signals]
        exact (BitVec.ofNat_add ..).symm
  | reset =>
      cases Option.some.inj taken
      refine ⟨?_, rfl, inv.waits⟩
      simp only [State.see, pending, inv.counts, signals, Option.map_some]
  | run now => cases taken

theorem step_inv {action : T × Move} (inv : Inv s) (meets : WaitsOn action s) (taken : step action s = some s') : Inv s' := by
  obtain ⟨t, move⟩ := action
  obtain ⟨notDeciding, notSubtracting, notReturning⟩ := inv.waits t
  unfold step at taken
  unfold WaitsOn at meets
  dsimp only at taken meets
  cases place : s.pc t with
  | out =>
      rw [place] at taken
      exact out_inv inv taken
  | starting timeout =>
      rw [place] at taken
      cases move <;> cases taken
      exact goto_inv inv t ⟨nofun, nofun, nofun⟩
  | waiting | polling deadline | checking deadline =>
      rw [place] at taken meets
      cases move <;> cases taken
      rw [if_pos meets]
      exact goto_inv inv t ⟨nofun, nofun, nofun⟩
  | deciding => exact absurd place notDeciding
  | subtracting => exact absurd place notSubtracting
  | returning result => exact absurd place (notReturning result)

-- A wait that does not go on waiting.
theorem returning_fails {t : T} (place : s.pc t = .returning true) (none : signals s.trace = 0) :
    ∃ s', execute step [(t, .run 0)] s = some s' ∧ ¬ Counting s'.trace := by
  refine ⟨(s.goto t .out).see .granted, ?_, fun counting => ?_⟩
  · simp only [execute, step, place]
    rfl
  · have matched := counting.matched
    simp only [State.see, State.goto, grants, signals, none] at matched
    omega

theorem subtracting_fails {t : T} (place : s.pc t = .subtracting) :
    ∃ s', execute step [(t, .run 0)] s = some s' ∧ ¬ Counting s'.trace := by
  refine ⟨{ (s.goto t (.returning false)).see (.timedOut s.counter (s.counter - 1)) with counter := s.counter - 1 }, ?_, fun counting => ?_⟩
  · simp only [execute, step, place]
    rfl
  · have same := counting.unchanged _ _ (List.mem_cons_self ..)
    bv_omega

theorem goto_here (s : State T) (t : T) (pc : Pc) : (s.goto t pc).pc t = pc := by
  simp only [State.goto, Function.update_self]

theorem deciding_fails {t : T} (place : s.pc t = .deciding) (none : s.counter = 0 → signals s.trace = 0) :
    ∃ s', execute step [(t, .run 0), (t, .run 0)] s = some s' ∧ ¬ Counting s'.trace := by
  have decides : step (t, .run 0) s = some (s.goto t (if s.counter = 0 then .returning true else .subtracting)) := by
    simp only [step, place]
    rfl
  have later : ∃ s', execute step [(t, .run 0)] (s.goto t (if s.counter = 0 then .returning true else .subtracting)) = some s' ∧
      ¬ Counting s'.trace := by
    by_cases zero : s.counter = 0
    · rw [if_pos zero]
      exact returning_fails (goto_here s t _) (none zero)
    · rw [if_neg zero]
      exact subtracting_fails (goto_here s t _)
  obtain ⟨s', run, fails⟩ := later
  refine ⟨s', ?_, fails⟩
  rw [execute, decides]
  exact run

theorem leaves_fails {action : T × Move} (inv : Inv s) (fits : signals s.trace < 2 ^ 64) (leaves : ¬ WaitsOn action s)
    (taken : step action s = some s') : ∃ later s'', execute step later s' = some s'' ∧ ¬ Counting s''.trace := by
  obtain ⟨t, move⟩ := action
  have none : s.counter = 0 → signals s.trace = 0 := by
    rw [inv.counter]
    intro zero
    have bits := congrArg BitVec.toNat zero
    rw [BitVec.toNat_ofNat, Nat.mod_eq_of_lt fits] at bits
    exact bits
  unfold step at taken
  unfold WaitsOn at leaves
  dsimp only at taken leaves
  cases place : s.pc t with
  | out | starting | deciding | subtracting | returning =>
      rw [place] at leaves
      exact absurd trivial leaves
  | waiting =>
      rw [place] at taken leaves
      cases move <;> cases taken
      rw [if_neg leaves]
      exact ⟨_, returning_fails (goto_here s t _) (none (not_not.mp leaves))⟩
  | polling deadline | checking deadline =>
      rw [place] at taken leaves
      cases move <;> cases taken
      rw [if_neg leaves]
      exact ⟨_, deciding_fails (goto_here s t _) none⟩

end Proofs

theorem events_count {T : Type} [DecidableEq T] (s : State T) (reach : ReachableUnder initial step WaitsOn s) :
    Counting s.trace ∧ ∀ action s', signals s.trace < 2 ^ 64 → step action s = some s' → ¬ WaitsOn action s →
      ∃ later s'', execute step later s' = some s'' ∧ ¬ Counting s''.trace := by
  have inv : Inv s := reachable_under_invariant (fun _ => initial_inv) (fun _ _ _ => step_inv) reach
  exact ⟨Semaphore.counting_of_pending BitVec.lt_irrefl inv.counts, fun _ _ fits taken leaves => leaves_fails inv fits leaves taken⟩

def created : State Bool := ⟨0, fun _ => .out, []⟩

-- A wait that polls once while a signal is pending.
theorem events_count_pending : ∃ s, execute step [(false, .wait 5), (true, .signal), (false, .run 7), (false, .run 7)] created = some s ∧
    Counting s.trace := by
  have start : ReachableUnder initial step WaitsOn created := .start _ ⟨rfl, fun _ => rfl, rfl⟩
  have waits := ReachableUnder.step _ _ (false, Move.wait 5) start trivial rfl
  have signalled := ReachableUnder.step _ _ (true, Move.signal) waits trivial rfl
  have reads := ReachableUnder.step _ _ (false, Move.run 7) signalled trivial rfl
  have polls := ReachableUnder.step _ _ (false, Move.run 7) reads (show (1 : BitVec 64) ≠ 0 by decide) rfl
  exact ⟨_, rfl, (events_count _ polls).1⟩

-- A wait that has been called with no time, up to where it decides.
def timesOut (t : Bool) : List (Bool × Move) := (t, .wait 0) :: List.replicate 4 (t, .run 0)

-- A wait returns with nothing signalled; one that times out takes a signal; and two that do
-- take one signal between them, so that the counter wraps.
theorem events_miscounted :
    (∃ s : State Bool, Reachable initial step s ∧ ¬ grants s.trace ≤ signals s.trace) ∧
      (∃ s : State Bool, Reachable initial step s ∧ .timedOut 1 0 ∈ s.trace) ∧
      ∃ s : State Bool, Reachable initial step s ∧ .timedOut 0 0xFFFFFFFFFFFFFFFF ∈ s.trace := by
  have start : Reachable initial step created := .start _ ⟨rfl, fun _ => rfl, rfl⟩
  have returns : ∃ s, execute step [(false, .wait 0xFFFF), (false, .run 0), (false, .run 0)] created = some s ∧
      ¬ grants s.trace ≤ signals s.trace := ⟨_, rfl, by decide⟩
  have takes : ∃ s, execute step ((true, .signal) :: timesOut false ++ [(false, .run 0)]) created = some s ∧
      .timedOut 1 0 ∈ s.trace := ⟨_, rfl, List.mem_cons_self ..⟩
  have wraps : ∃ s, execute step ((true, .signal) :: timesOut false ++ timesOut true ++ [(false, .run 0), (true, .run 0)]) created = some s ∧
      .timedOut 0 0xFFFFFFFFFFFFFFFF ∈ s.trace := ⟨_, rfl, List.mem_cons_self ..⟩
  exact ⟨returns.imp fun _ found => ⟨reachable_execute start found.1, found.2⟩,
    takes.imp fun _ found => ⟨reachable_execute start found.1, found.2⟩,
    wraps.imp fun _ found => ⟨reachable_execute start found.1, found.2⟩⟩

end Elysium.Uacpi
