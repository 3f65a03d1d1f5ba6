import Mathlib.Data.List.Nodup
import Elysium.Transitions

set_option autoImplicit false

namespace Elysium.Mutex

open Transitions (Reachable reachable_invariant execute reachable_execute)

inductive MutexState where
  | unlocked
  | locked
  | contested
deriving DecidableEq, Repr

def spinCount : Nat := 10

-- Where a thread is in mutex_acquire or mutex_release, before its next atomic
-- operation. sched_yield(THREAD_STATE_BLOCK) comes back when the thread has been
-- handed to sched_thread_schedule.
inductive Pc where
  | out
  | trying (left : Nat)
  | slow
  | exchanging
  | enqueuing
  | parking
  | blocked
  | waking
  | storing
  | leaving
  | releasing
  | refused (seen : MutexState)
  | popping (seen : MutexState)
  | settling
  | finishing
  | failed
deriving DecidableEq, Repr

-- owns records who the mutex belongs to; the code does not have it.
structure State (T : Type) where
  lock : Bool
  state : MutexState
  waitQueue : List T
  pc : T → Pc
  owns : T → Bool

def afterTry : Nat → Pc
  | 0 => .slow
  | left + 1 => .trying left

section Model

variable {T : Type} [DecidableEq T]

namespace State

def goto (s : State T) (t : T) (pc : Pc) : State T := { s with pc := Function.update s.pc t pc }

def give (s : State T) (t : T) (owns : Bool) : State T := { s with owns := Function.update s.owns t owns }

end State

inductive Move where
  | acquire
  | release
  | run (spurious : Bool)
deriving DecidableEq, Repr

-- What a thread at a place does next. Only the owner calls mutex_release.
def stepAt (s : State T) (t : T) : Pc → Move → Option (State T)
  | .out, .acquire => some (s.goto t (.trying spinCount))
  | .out, .release => if s.owns t then some (s.goto t .releasing) else none
  | .trying left, .run spurious =>
      if s.state = .unlocked ∧ spurious = false then some { (s.goto t .out).give t true with state := .locked }
      else some (s.goto t (afterTry left))
  | .slow, .run _ => if s.lock then none else some { s.goto t .exchanging with lock := true }
  | .exchanging, .run _ =>
      if s.state ≠ .unlocked then some { s.goto t .enqueuing with state := .contested }
      else some { (s.goto t .storing).give t true with state := .contested }
  | .enqueuing, .run _ => some { s.goto t .parking with waitQueue := s.waitQueue ++ [t] }
  | .parking, .run _ => some { s.goto t .blocked with lock := false }
  | .waking, .run _ => if s.lock then none else some { s.goto t .leaving with lock := true }
  | .storing, .run _ => some { s.goto t .leaving with state := .locked }
  | .leaving, .run _ => some { s.goto t .out with lock := false }
  | .releasing, .run _ =>
      if s.state = .locked then some { (s.goto t .out).give t false with state := .unlocked }
      else some (s.goto t (.refused s.state))
  | .refused seen, .run _ => if s.lock then none else some { s.goto t (.popping seen) with lock := true }
  | .popping seen, .run _ =>
      if seen = .contested then
        match s.waitQueue with
        | [] => some (s.goto t .failed)
        | thread :: rest =>
            some { ((((s.goto t .settling).give t false).goto thread .waking).give thread true) with waitQueue := rest }
      else some (s.goto t .failed)
  | .settling, .run _ => some { s.goto t .finishing with state := if s.waitQueue = [] then .locked else s.state }
  | .finishing, .run _ => some { s.goto t .out with lock := false }
  | _, _ => none

def step (action : T × Move) (s : State T) : Option (State T) := stepAt s action.1 (s.pc action.1) action.2

def initial (s : State T) : Prop :=
  s.lock = false ∧ s.state = .unlocked ∧ s.waitQueue = [] ∧ (∀ t, s.pc t = .out) ∧ ∀ t, s.owns t = false

end Model

end Elysium.Mutex
