import Mathlib.Data.List.Nodup
import Elysium.Transitions

set_option autoImplicit false

namespace Elysium.Sched

open Transitions (Reachable reachable_invariant execute reachable_execute)

inductive ThreadState where
  | ready
  | active
  | block
  | destroy
deriving DecidableEq, Repr

-- Every thread has the scheduler of one CPU, every scheduler its idle thread.
structure Machine (T C : Type) where
  scheduler : T → C
  idleThread : C → T
  idleHome : ∀ c, scheduler (idleThread c) = c

-- Where a thread is in sched_yield or mutex_release while it runs. A thread that
-- has been switched away goes on as running.
inductive Pc (T : Type) where
  | running
  | yielding (state : ThreadState)
  | handed (state : ThreadState) (next : Option T)
  | picked (state : ThreadState) (next : T)
  | switching (next : T)
  | waking (thread : T)
deriving DecidableEq

-- internal_sched_thread_drop, which a CPU runs right after a switch.
inductive Drop (T : Type) where
  | none
  | dropping (thread : T)
  | requeuing (thread : T)
deriving DecidableEq

-- A mutex here is its owner and its wait queue: what happens under its lock is one
-- step. asleep and born say which threads a CPU has dropped as blocked and which
-- exist; the code does not have them. failed is set by an assertion.
structure State (T C M : Type) where
  threadQueue : C → List T
  current : C → T
  drop : C → Drop T
  threadState : T → ThreadState
  pc : T → Pc T
  reaper : List T
  owner : M → Option T
  waitQueue : M → List T
  asleep : T → Bool
  born : T → Bool
  failed : Bool

section Model

variable {T C M : Type} [DecidableEq T] [DecidableEq C] [DecidableEq M] (m : Machine T C)

def Idle (t : T) : Prop := t = m.idleThread (m.scheduler t)

instance (t : T) : Decidable (Idle m t) := inferInstanceAs (Decidable (_ = _))

namespace State

def goto (s : State T C M) (t : T) (pc : Pc T) : State T C M := { s with pc := Function.update s.pc t pc }

def setState (s : State T C M) (t : T) (state : ThreadState) : State T C M :=
  { s with threadState := Function.update s.threadState t state }

-- The critical section of sched_thread_schedule.
def push (s : State T C M) (t : T) : State T C M :=
  { s with threadQueue := Function.update s.threadQueue (m.scheduler t) (s.threadQueue (m.scheduler t) ++ [t]) }

end State

inductive Move (T M : Type) where
  | spawn (thread : T)
  | yield (state : ThreadState)
  | lock (mutex : M)
  | block (mutex : M)
  | unlock (mutex : M)
  | run
deriving DecidableEq

-- What the thread that runs on a CPU does next. An idle thread only yields.
def threadStep (s : State T C M) (c : C) (t : T) : Pc T → Move T M → Option (State T C M)
  | .running, .yield state =>
      if state = .active ∨ (Idle m t ∧ state ≠ .ready) then none else some (s.goto t (.yielding state))
  | .running, .lock mutex =>
      if Idle m t ∨ s.owner mutex ≠ none then none else some { s with owner := Function.update s.owner mutex (some t) }
  | .running, .block mutex =>
      if Idle m t ∨ s.owner mutex = none then none
      else some { s.goto t (.yielding .block) with waitQueue := Function.update s.waitQueue mutex (s.waitQueue mutex ++ [t]) }
  | .running, .unlock mutex =>
      if s.owner mutex = some t then
        match s.waitQueue mutex with
        | [] => some { s with owner := Function.update s.owner mutex none }
        | thread :: rest =>
            some { (s.goto t (.waking thread)).setState thread .ready with
              waitQueue := Function.update s.waitQueue mutex rest
              owner := Function.update s.owner mutex (some thread)
              asleep := Function.update s.asleep thread false }
      else none
  | .waking thread, .run => some ((s.goto t .running).push m thread)
  | .yielding state, .run =>
      match s.threadQueue c with
      | [] => some (s.goto t (.handed state none))
      | next :: rest => some { s.goto t (.handed state (some next)) with threadQueue := Function.update s.threadQueue c rest }
  | .handed state (some next), .run => some ((s.goto t (.picked state next)).setState next .active)
  | .handed state none, .run =>
      if Idle m t then
        if s.threadState t = state then some (s.goto t .running) else some { s with failed := true }
      else some (s.goto t (.picked state (m.idleThread (m.scheduler t))))
  | .picked state next, .run =>
      if t = next then some { s with failed := true } else some ((s.goto t (.switching next)).setState t state)
  | .switching next, .run =>
      some { s.goto t .running with
        current := Function.update s.current c next, drop := Function.update s.drop c (.dropping t) }
  | _, _ => none

def dropStep (s : State T C M) (c : C) : Drop T → Option (State T C M)
  | .none => none
  | .dropping thread =>
      if m.scheduler thread ≠ c then some { s with failed := true }
      else if Idle m thread then some { s with drop := Function.update s.drop c .none }
      else
        match s.threadState thread with
        | .destroy => some { s with drop := Function.update s.drop c .none, reaper := s.reaper ++ [thread] }
        | .block => some { s with drop := Function.update s.drop c .none, asleep := Function.update s.asleep thread true }
        | .ready => some { s with drop := Function.update s.drop c (.requeuing thread) }
        | .active => some { s with failed := true }
  | .requeuing thread => some { (s.setState thread .ready).push m thread with drop := Function.update s.drop c .none }

def step (action : C × Move T M) (s : State T C M) : Option (State T C M) :=
  match action.2 with
  | .spawn thread =>
      if Idle m thread ∨ s.born thread then none
      else some { (s.setState thread .ready).push m thread with born := Function.update s.born thread true }
  | move =>
      if s.drop action.1 = .none then threadStep m s action.1 (s.current action.1) (s.pc (s.current action.1)) move
      else if move = .run then dropStep m s action.1 (s.drop action.1) else none

def initial (s : State T C M) : Prop :=
  (∀ c, s.threadQueue c = []) ∧ (∀ c, s.current c = m.idleThread c) ∧ (∀ c, s.drop c = .none) ∧
    (∀ c, s.threadState (m.idleThread c) = .ready) ∧ (∀ t, s.pc t = .running) ∧ s.reaper = [] ∧ (∀ mutex, s.owner mutex = none) ∧
    (∀ mutex, s.waitQueue mutex = []) ∧ (∀ t, s.asleep t = false) ∧ (∀ t, s.born t = false) ∧ s.failed = false

inductive Place (C : Type) where
  | cpu (c : C)
  | queue (c : C) (i : Nat)
  | reaper (i : Nat)

def At (s : State T C M) (t : T) : Place C → Prop
  | .cpu c => s.current c = t
  | .queue c i => (s.threadQueue c)[i]? = some t
  | .reaper i => s.reaper[i]? = some t

-- A thread is in one place, ready from the moment it is woken until it runs, and no
-- assertion fails.
structure Orderly (s : State T C M) : Prop where
  once : ∀ t, ¬ Idle m t → ∀ p q, At s t p → At s t q → p = q
  queued : ∀ c t, t ∈ s.threadQueue c → s.threadState t = .ready
  woken : ∀ u t, s.pc u = .waking t → s.threadState t = .ready
  asserted : s.failed = false

-- mutex_release only comes to a thread that has been switched away.
def wakesSleeper (s : State T C M) : Move T M → Bool
  | .unlock mutex =>
      match s.waitQueue mutex with
      | [] => true
      | thread :: _ => s.asleep thread
  | _ => true

def calmStep (action : C × Move T M) (s : State T C M) : Option (State T C M) :=
  if wakesSleeper s action.2 then step m action s else none

end Model

end Elysium.Sched
