import Elysium.InterruptsShape

set_option autoImplicit false

namespace Elysium.Interrupts

open Transitions (Reachable reachable_invariant execute reachable_execute)

-- sched_preempt_dec has found the counter at 1 and taken the flag, and not yet decremented.
def Op.taken : Op → Bool
  | .decrement true _ => true
  | _ => false

-- Deferred work asks for a reschedule while such a call has been interrupted.
def Late {T : Type} (s : State T) : Action T → Bool
  | .run .setYield => s.code.any Op.taken
  | _ => false

def Op.yields : Op → Bool
  | .exchange | .decrement _ _ | .yieldMask | .yieldSwitch | .interrupts _ => true
  | .hardEnter | .hard | .hardLeave | .softEnter | .softLeave | .iret _ => true
  | _ => false

-- With preemption enabled and no sched_preempt_dec, sched_yield or handler under way, no
-- request for a reschedule is pending.
def Rescheduled {T : Type} (s : State T) : Prop :=
  s.preemptCounter = 0 → s.code.any Op.yields = false → s.yieldImmediately = false

section Yield

variable {T : Type} [DecidableEq T] {s s' : State T}

def promptStep (action : Action T) (s : State T) : Option (State T) := if Late s action then none else step action s

-- A pending request is with a call that will still see it.
def Heard (s : State T) : Prop := s.yieldImmediately = true → 0 < s.preemptCounter ∧ s.code.any Op.taken = false

omit [DecidableEq T] in
theorem heard_of (heard : Heard s) (flag : s'.yieldImmediately = true → s.yieldImmediately = true)
    (counter : 0 < s.preemptCounter → 0 < s'.preemptCounter) (code : s.code.any Op.taken = false → s'.code.any Op.taken = false) :
    Heard s' := fun pending => ⟨counter (heard (flag pending)).1, code (heard (flag pending)).2⟩

omit [DecidableEq T] in
theorem body_heard {choice : Choice T} {work : Bool} {rest : List Op} (counted : Counted s) (heard : Heard s)
    (here : s.code = .body work :: rest) (prompt : Late s (.run choice) = false) (taken : runBody s work rest choice = some s') :
    Heard s' := by
  have code : s.code.any Op.taken = rest.any Op.taken := by
    rw [here]
    rfl
  cases choice with
  | finish =>
      simp only [runBody, Option.ite_none_left_eq_some, Option.some.injEq] at taken
      obtain ⟨_, rfl⟩ := taken
      exact heard_of heard id id fun none => code ▸ none
  | pair =>
      cases taken
      exact heard_of heard id id fun none => code ▸ none
  | lockNodw =>
      cases taken
      exact heard_of heard id id fun none => code ▸ none
  | lockNoint =>
      cases taken
      exact heard_of heard id id fun none => code ▸ none
  | setYield =>
      simp only [runBody, Option.ite_none_right_eq_some, Option.some.injEq] at taken
      obtain ⟨rfl, rfl⟩ := taken
      -- Deferred work runs with the counter raised.
      obtain ⟨shaped, preempt, _⟩ := counted_head counted here
      have raised := (shaped_held shaped).works rfl
      rw [preemptOwed] at raised
      refine fun _ => ⟨?_, code ▸ prompt⟩
      have counter : (0 : Int) < s.preemptCounter := by omega
      exact_mod_cast counter
  | queue _ => cases taken
  | switch _ => cases taken

theorem op_heard {choice : Choice T} {op : Op} {rest : List Op} (counted : Counted s) (heard : Heard s) (here : s.code = op :: rest)
    (prompt : Late s (.run choice) = false) (taken : runOp s choice rest op = some s') : Heard s' := by
  obtain ⟨shaped, preempt, status⟩ := counted_head counted here
  have tail : s.code.any Op.taken = false → rest.any Op.taken = false := fun none => by
    rw [here, List.any_cons, Bool.or_eq_false_iff] at none
    exact none.2
  cases op with
  | inc =>
      simp only [runOp] at taken
      split at taken
      · cases taken
        exact heard_of heard id (fun _ => Nat.succ_pos _) tail
      · cases taken
        exact heard
  | decRead =>
      simp only [runOp] at taken
      split at taken
      · cases taken
        exact heard
      · split at taken
        · cases taken
          exact heard_of heard id id tail
        · cases taken
          exact heard_of heard id id tail
  | exchange =>
      cases taken
      exact fun pending => absurd pending Bool.false_ne_true
  | decrement last yield =>
      cases taken
      intro pending
      obtain ⟨raised, none⟩ := heard pending
      have relies := (shaped_cons.mp shaped).2.1
      have held := (shaped_held (shaped_tail shaped)).preempt
      simp only [Op.preempt] at preempt
      -- The flag was taken by this call if it is the last.
      have below : last = false := by
        rw [here, List.any_cons, Bool.or_eq_false_iff] at none
        cases last with
        | false => rfl
        | true => cases none.1
      have more : preemptOwed rest ≠ 0 := fun zero => by
        have := relies.1.mpr zero
        rw [below] at this
        cases this
      refine ⟨?_, ?_⟩
      · show 0 < s.preemptCounter - 1
        omega
      · have quiet := tail none
        cases yield with
        | false => exact quiet
        | true => exact quiet
  | yieldMask =>
      simp only [runOp] at taken
      split at taken
      · cases taken
        exact heard_of heard id id tail
      · cases taken
        exact heard
  | yieldSwitch =>
      have relies := (shaped_cons.mp shaped).2.1
      simp only [Op.relies] at relies
      simp only [Op.preempt] at preempt
      -- Nothing is pending when a thread is switched away.
      have silent : s.yieldImmediately = false := by
        by_contra pending
        have := (heard (by simpa using pending)).1
        omega
      cases choice with
      | switch t =>
          simp only [runOp, runSwitch] at taken
          split at taken
          · cases taken
            exact fun pending => absurd (silent.symm.trans pending) Bool.false_ne_true
          · cases taken
            exact fun pending => absurd (silent.symm.trans pending) Bool.false_ne_true
      | finish => cases taken
      | pair => cases taken
      | lockNodw => cases taken
      | lockNoint => cases taken
      | setYield => cases taken
      | queue _ => cases taken
  | interrupts enabled =>
      cases taken
      exact heard_of heard id id tail
  | disable =>
      simp only [runOp] at taken
      split at taken
      · cases taken
        exact heard_of heard id id tail
      · cases taken
        exact heard
  | enableRead caller =>
      simp only [runOp] at taken
      split at taken
      · cases taken
        exact heard
      · cases taken
        exact heard_of heard id id tail
  | enableDec caller last =>
      cases taken
      refine heard_of heard id id fun none => ?_
      have quiet := tail none
      simp only [State.goto]
      split
      · exact quiet
      · exact quiet
  | push cleanup =>
      cases taken
      exact heard_of heard id id tail
  | loop =>
      cases taken
      exact heard_of heard id id tail
  | test =>
      simp only [runOp] at taken
      split at taken
      · cases taken
        exact heard_of heard id id tail
      · cases taken
        exact heard_of heard id id tail
  | popMask =>
      cases taken
      exact heard_of heard id id tail
  | pop enabled =>
      simp only [runOp] at taken
      split at taken
      · cases taken
        exact heard
      · cases taken
        exact heard_of heard id id tail
  | run item =>
      cases taken
      refine heard_of heard id id fun none => ?_
      have quiet := tail none
      simp only [State.goto]
      split
      · exact quiet
      · exact quiet
  | cleanup item =>
      cases taken
      exact heard_of heard id id tail
  | hardEnter =>
      cases taken
      exact heard_of heard id id tail
  | hard =>
      cases choice with
      | finish =>
          cases taken
          exact heard_of heard id id tail
      | queue cleanup =>
          cases taken
          exact heard_of heard id id tail
      | pair => cases taken
      | lockNodw => cases taken
      | lockNoint => cases taken
      | setYield => cases taken
      | switch _ => cases taken
  | hardLeave =>
      cases taken
      exact heard_of heard id id tail
  | softEnter =>
      cases taken
      exact heard_of heard id id tail
  | softLeave =>
      cases taken
      exact heard_of heard id id tail
  | iret user =>
      simp only [runOp] at taken
      split at taken
      · cases taken
        exact heard
      · cases taken
        exact heard_of heard id id tail
  | body work => exact body_heard counted heard here prompt taken

theorem prompt_step_heard (action : Action T) (s s' : State T) (inv : Counted s ∧ Heard s) (taken : promptStep action s = some s') :
    Counted s' ∧ Heard s' := by
  rw [promptStep, Option.ite_none_left_eq_some, Bool.not_eq_true] at taken
  obtain ⟨prompt, taken⟩ := taken
  refine ⟨step_counted inv.1 taken, ?_⟩
  obtain ⟨_, ⟨choice, op, rest, rfl, here, run⟩ | ⟨user, _, _, rfl⟩⟩ := step_cases taken
  · exact op_heard inv.1 inv.2 here prompt run
  · exact heard_of inv.2 id id fun none => none

-- As long as deferred work asks for a reschedule only when the flag will still be looked
-- at, no request is left behind.
theorem reschedule_not_left (s : State T) (reach : Reachable initial promptStep s) : Rescheduled s := by
  have start : ∀ s : State T, initial s → Counted s ∧ Heard s := fun s first =>
    ⟨initial_counted first, fun pending => by simp [first.yieldImmediately] at pending⟩
  have inv := reachable_invariant start prompt_step_heard reach
  intro zero _
  by_contra pending
  have := (inv.2 (by simpa using pending)).1
  omega

end Yield

-- One thread on the CPU, and the steps of its code and of an interrupt whose handler
-- queues an item that asks for a reschedule.
def alone : State Unit where
  preemptCounter := 0
  yieldImmediately := false
  deferredWorkStatus := 0
  inInterruptHard := false
  inInterruptSoft := false
  enabled := false
  dwItems := []
  current := ()
  code := [.interrupts true, .body false]
  saved := fun _ => [.body false, .interrupts true, .body false]
  queued := []
  log := []
  failed := false

theorem alone_initial : initial alone := ⟨rfl, rfl, rfl, rfl, rfl, fun _ => rfl, rfl, rfl, rfl⟩

def next (n : Nat) : List (Action Unit) := List.replicate n (.run .finish)

def timer : List (Action Unit) := .interrupt false :: next 3 ++ .run (.queue true) :: next 23 ++ .run .setYield :: next 14

-- The interrupt comes between sched_preempt_inc and sched_preempt_dec, which yields.
theorem reschedule_not_left_pair : ∃ s, execute promptStep
    (next 1 ++ .run .pair :: next 1 ++ timer ++ next 6 ++ .run (.switch ()) :: next 2) alone = some s ∧
    s.code = [.body false] ∧ s.log.length = 2 ∧ Rescheduled s := by
  have ends : (execute promptStep (next 1 ++ .run .pair :: next 1 ++ timer ++ next 6 ++ .run (.switch ()) :: next 2) alone).any
      (fun s => s.code = [.body false] ∧ s.log.length = 2) = true := by decide +kernel
  obtain ⟨s, run, facts⟩ := (Option.any_eq_true _ _).mp ends
  obtain ⟨code, log⟩ := of_decide_eq_true facts
  exact ⟨s, run, code, log, reschedule_not_left s (reachable_execute (.start alone alone_initial) run)⟩

-- It comes after sched_preempt_dec has taken the flag and before it decrements.
theorem reschedule_lost : ∃ s : State Unit, Reachable initial step s ∧ s.preemptCounter = 0 ∧ s.code = [.body false] ∧
    s.yieldImmediately = true ∧ ¬ Rescheduled s := by
  have lost : (execute step (next 1 ++ .run .pair :: next 4 ++ timer ++ next 1) alone).any
      (fun s => s.preemptCounter = 0 ∧ s.code = [.body false] ∧ s.yieldImmediately = true) = true := by decide +kernel
  obtain ⟨s, run, facts⟩ := (Option.any_eq_true _ _).mp lost
  obtain ⟨counter, code, pending⟩ := of_decide_eq_true facts
  refine ⟨s, reachable_execute (.start alone alone_initial) run, counter, code, pending, fun kept => ?_⟩
  have none := kept counter (by rw [code]; rfl)
  rw [pending] at none
  cases none

end Elysium.Interrupts
