import Mathlib.Data.List.Perm.Basic
import Elysium.Transitions

set_option autoImplicit false

namespace Elysium.Interrupts

open Transitions (Reachable reachable_invariant execute reachable_execute)

-- An item of deferred work, numbered as it is queued, and whether it has a cleanup_fn.
structure Item where
  id : Nat
  cleanup : Bool
deriving DecidableEq

-- Who calls dw_enable: dw_status_enable, which processes the work if it was the last,
-- or dw_queue or dw_process, which ignore the result.
inductive Caller where
  | status
  | queue
  | process
deriving DecidableEq

-- What a thread still has to do, one entry for each step that an interrupt can come
-- between. A call is replaced by the steps of its body.
inductive Op where
  | inc
  | decRead
  | exchange
  | decrement (last yield : Bool)
  | yieldMask
  | yieldSwitch
  | interrupts (enabled : Bool)
  | disable
  | enableRead (caller : Caller)
  | enableDec (caller : Caller) (last : Bool)
  | push (cleanup : Bool)
  | loop
  | test
  | popMask
  | pop (enabled : Bool)
  | run (item : Item)
  | cleanup (item : Item)
  | hardEnter
  | hard
  | hardLeave
  | softEnter
  | softLeave
  | iret (user : Bool)
  | body (work : Bool)
deriving DecidableEq

inductive Event where
  | ran (item : Item)
  | cleaned (item : Item)
deriving DecidableEq

-- The fields of the CPU, the code of the thread it runs and that of the others, which
-- are all in sched_yield or have not started. queued and log have what was queued and
-- run so far. failed is set by an assertion.
structure State (T : Type) where
  preemptCounter : Nat
  yieldImmediately : Bool
  deferredWorkStatus : Nat
  inInterruptHard : Bool
  inInterruptSoft : Bool
  enabled : Bool
  dwItems : List Item
  current : T
  code : List Op
  saved : T → List Op
  queued : List Item
  log : List Event
  failed : Bool

-- What code that is not spelled out does next. A section of a spinlock is one of
-- spinlock_acquire_nodw or spinlock_acquire_noint; pair stands for spinlock_acquire too.
inductive Choice (T : Type) where
  | finish
  | pair
  | lockNodw
  | lockNoint
  | setYield
  | queue (cleanup : Bool)
  | switch (t : T)

def uint32Max : Nat := 0xffffffff

-- x86_64_interrupt_handler on a CPU that is threaded.
def handler (user : Bool) : List Op :=
  [.inc, .disable, .hardEnter, .hard, .hardLeave, .softEnter, .interrupts true, .enableRead .status, .interrupts false,
    .softLeave, .decRead, .iret user]

def dwQueue (cleanup : Bool) : List Op := [.inc, .disable, .push cleanup, .enableRead .queue, .decRead]

def dwProcess : List Op := [.disable, .loop]

def schedYield : List Op := [.yieldMask]

section Model

variable {T : Type} [DecidableEq T]

namespace State

def goto (s : State T) (code : List Op) : State T := { s with code := code }

def fail (s : State T) : State T := { s with failed := true }

end State

-- The code of a thread, or of a dw function, which may also ask for a reschedule.
def runBody (s : State T) (work : Bool) (rest : List Op) : Choice T → Option (State T)
  | .finish => if rest = [] then none else some (s.goto rest)
  | .pair => some (s.goto ([.inc, .body work, .decRead] ++ .body work :: rest))
  | .lockNodw => some (s.goto ([.inc, .disable, .body work, .enableRead .status, .decRead] ++ .body work :: rest))
  | .lockNoint => some { s.goto ([.inc, .disable, .body work, .enableRead .status, .decRead, .interrupts s.enabled] ++
      .body work :: rest) with enabled := false }
  | .setYield => if work then some { s.goto (.body work :: rest) with yieldImmediately := true } else none
  | .queue _ => none
  | .switch _ => none

-- The handler of an interrupt, which may queue items.
def runHard (s : State T) (rest : List Op) : Choice T → Option (State T)
  | .finish => some (s.goto rest)
  | .queue cleanup => some (s.goto (dwQueue cleanup ++ .hard :: rest))
  | _ => none

def runSwitch (s : State T) (rest : List Op) : Choice T → Option (State T)
  | .switch t =>
      if t = s.current then some (s.goto rest)
      else some { s with saved := Function.update s.saved s.current rest, current := t, code := s.saved t }
  | _ => none

def runOp (s : State T) (choice : Choice T) (rest : List Op) : Op → Option (State T)
  | .inc =>
      if s.preemptCounter < uint32Max then some { s.goto rest with preemptCounter := s.preemptCounter + 1 } else some s.fail
  | .decRead =>
      if s.preemptCounter = 0 then some s.fail
      else if s.preemptCounter = 1 then some (s.goto (.exchange :: rest))
      else some (s.goto (.decrement false false :: rest))
  | .exchange => some { s.goto (.decrement true s.yieldImmediately :: rest) with yieldImmediately := false }
  | .decrement _ yield =>
      some { s.goto ((if yield then schedYield else []) ++ rest) with preemptCounter := s.preemptCounter - 1 }
  | .yieldMask =>
      if s.preemptCounter = 0 ∧ s.deferredWorkStatus = 0 ∧ s.inInterruptHard = false ∧ s.inInterruptSoft = false then
        some { s.goto ([.body false, .yieldSwitch, .body false, .interrupts s.enabled] ++ rest) with enabled := false }
      else some s.fail
  | .yieldSwitch => runSwitch s rest choice
  | .interrupts enabled => some { s.goto rest with enabled := enabled }
  | .disable =>
      if s.deferredWorkStatus < uint32Max then some { s.goto rest with deferredWorkStatus := s.deferredWorkStatus + 1 }
      else some s.fail
  | .enableRead caller =>
      if s.deferredWorkStatus = 0 then some s.fail
      else some (s.goto (.enableDec caller (s.deferredWorkStatus = 1) :: rest))
  | .enableDec caller last =>
      some { s.goto ((if caller = .status ∧ last = true then dwProcess else []) ++ rest) with
        deferredWorkStatus := s.deferredWorkStatus - 1 }
  | .push cleanup => some { s.goto rest with
      dwItems := ⟨s.queued.length, cleanup⟩ :: s.dwItems
      queued := s.queued ++ [⟨s.queued.length, cleanup⟩] }
  | .loop => some (s.goto (.inc :: .test :: rest))
  | .test =>
      if s.dwItems = [] then some (s.goto (.decRead :: .enableRead .process :: rest)) else some (s.goto (.popMask :: rest))
  | .popMask => some { s.goto (.pop s.enabled :: rest) with enabled := false }
  | .pop enabled =>
      match s.dwItems with
      | [] => some s.fail
      | item :: items => some { s.goto ([.interrupts enabled, .decRead, .run item, .loop] ++ rest) with dwItems := items }
  | .run item =>
      some { s.goto (.body true :: (if item.cleanup then [.cleanup item] else []) ++ rest) with log := s.log ++ [.ran item] }
  | .cleanup item => some { s.goto rest with log := s.log ++ [.cleaned item] }
  | .hardEnter => some { s.goto rest with inInterruptHard := true }
  | .hard => runHard s rest choice
  | .hardLeave => some { s.goto rest with inInterruptHard := false }
  | .softEnter => some { s.goto rest with inInterruptSoft := true }
  | .softLeave => some { s.goto rest with inInterruptSoft := false }
  | .iret user =>
      if user = true ∧ (s.preemptCounter ≠ 0 ∨ s.deferredWorkStatus ≠ 0) then some s.fail
      else some { s.goto rest with enabled := true }
  | .body work => runBody s work rest choice

inductive Action (T : Type) where
  | run (choice : Choice T)
  | interrupt (user : Bool)

-- An interrupt comes only when they are enabled, from user code only when the thread is
-- not in the kernel.
def step (action : Action T) (s : State T) : Option (State T) :=
  if s.failed then none
  else
    match action, s.code with
    | .run choice, op :: rest => runOp s choice rest op
    | .run _, [] => none
    | .interrupt user, code =>
        if s.enabled = true ∧ (user = true → code = [.body false]) then some { s.goto (handler user ++ code) with enabled := false }
        else none

structure initial (s : State T) : Prop where
  preemptCounter : s.preemptCounter = 0
  yieldImmediately : s.yieldImmediately = false
  deferredWorkStatus : s.deferredWorkStatus = 0
  dwItems : s.dwItems = []
  code : s.code = [.interrupts true, .body false]
  saved : ∀ t, s.saved t = [.body false, .interrupts true, .body false]
  queued : s.queued = []
  log : s.log = []
  failed : s.failed = false

end Model

end Elysium.Interrupts
