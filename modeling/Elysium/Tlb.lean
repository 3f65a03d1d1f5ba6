import Mathlib.Data.Fintype.Card
import Elysium.Transitions

set_option autoImplicit false

namespace Elysium.Tlb

open Transitions (Reachable reachable_invariant execute reachable_execute)

-- Where a CPU is in x86_64_tlb_shootdown. What happens under g_status_lock is one
-- step, since nothing else looks at the flags, the address and the length.
inductive Task where
  | idle
  | entering (addr length : Nat)
  | starting (addr length : Nat)
  | publishing (addr length : Nat)
  | opening (addr length : Nat)
  | flushing (addr length : Nat)
  | counting (addr length : Nat)
  | waiting (addr length : Nat)
  | sending (addr length i : Nat)
  | leaving (addr length : Nat)
deriving DecidableEq, Repr

-- Where a CPU is in tlb_shootdown_handler, on top of what it was doing.
inductive Handler where
  | off
  | locking
  | checking
  | refusing
  | opening (addr length : Nat)
  | flushing (addr length : Nat)
  | counting
deriving DecidableEq, Repr

-- ipis counts the interrupts on their way to a CPU. latest is the CPU that started
-- the last round and flushed what each CPU has invalidated since; the code does not
-- have these two.
structure State (cpuCount : Nat) where
  shootdownLock : Bool
  statusLock : Bool
  status : Fin cpuCount → Bool
  completeCount : Nat
  address : Nat
  length : Nat
  threaded : Fin cpuCount → Bool
  task : Fin cpuCount → Task
  handler : Fin cpuCount → Handler
  ipis : Fin cpuCount → Nat
  latest : Option (Fin cpuCount)
  flushed : Fin cpuCount → List (Nat × Nat)

section Model

variable {n : Nat}

namespace State

def goto (s : State n) (c : Fin n) (task : Task) : State n := { s with task := Function.update s.task c task }

def handle (s : State n) (c : Fin n) (handler : Handler) : State n := { s with handler := Function.update s.handler c handler }

def invalidate (s : State n) (c : Fin n) (addr length : Nat) : State n :=
  { s with flushed := Function.update s.flushed c ((addr, length) :: s.flushed c) }

def ipi (s : State n) (c : Fin n) : State n := { s with ipis := Function.update s.ipis c (s.ipis c + 1) }

end State

inductive Move where
  | call (addr length : Nat)
  | take
  | run (retry : Bool)
deriving DecidableEq, Repr

-- Interrupts are masked under g_status_lock.
def Task.masked : Task → Bool
  | .publishing _ _ | .opening _ _ => true
  | _ => false

def taskStep (s : State n) (c : Fin n) : Task → Move → Option (State n)
  | .idle, .call addr length =>
      if s.threaded c then some (s.goto c (.entering addr length)) else some (s.invalidate c addr length)
  | .entering addr length, .run _ =>
      if s.shootdownLock then none else some { s.goto c (.starting addr length) with shootdownLock := true }
  | .starting addr length, .run _ =>
      if s.statusLock then none else some { s.goto c (.publishing addr length) with statusLock := true }
  | .publishing addr length, .run _ =>
      some { s.goto c (.opening addr length) with
        address := addr, length := length, completeCount := 0, status := fun _ => false, latest := some c, flushed := fun _ => [] }
  | .opening addr length, .run _ => some { s.goto c (.flushing addr length) with statusLock := false }
  | .flushing addr length, .run _ => some ((s.goto c (.counting addr length)).invalidate c addr length)
  | .counting addr length, .run _ => some { s.goto c (.waiting addr length) with completeCount := s.completeCount + 1 }
  | .waiting addr length, .run retry =>
      if s.completeCount ≠ n then if retry then some (s.goto c (.sending addr length 0)) else some s
      else some (s.goto c (.leaving addr length))
  | .sending addr length i, .run _ =>
      if inside : i < n then
        if (⟨i, inside⟩ : Fin n) = c then some (s.goto c (.sending addr length (i + 1)))
        else if s.status ⟨i, inside⟩ then some (s.goto c (.sending addr length (i + 1)))
        else some ((s.goto c (.sending addr length (i + 1))).ipi ⟨i, inside⟩)
      else some (s.goto c (.waiting addr length))
  | .leaving _ _, .run _ => some { s.goto c .idle with shootdownLock := false }
  | _, _ => none

def takeStep (s : State n) (c : Fin n) : Option (State n) :=
  if s.ipis c = 0 ∨ (s.task c).masked then none
  else some { s.handle c .locking with ipis := Function.update s.ipis c (s.ipis c - 1) }

def handlerStep (s : State n) (c : Fin n) : Handler → Option (State n)
  | .off => none
  | .locking => if s.statusLock then none else some { s.handle c .checking with statusLock := true }
  | .checking =>
      if s.status c then some (s.handle c .refusing)
      else some { s.handle c (.opening s.address s.length) with status := Function.update s.status c true }
  | .refusing => some { s.handle c .off with statusLock := false }
  | .opening addr length => some { s.handle c (.flushing addr length) with statusLock := false }
  | .flushing addr length => some ((s.handle c .counting).invalidate c addr length)
  | .counting => some { s.handle c .off with completeCount := s.completeCount + 1 }

def step (action : Fin n × Move) (s : State n) : Option (State n) :=
  if s.handler action.1 = .off then
    match action.2 with
    | .take => takeStep s action.1
    | move => taskStep s action.1 (s.task action.1) move
  else
    match action.2 with
    | .run _ => handlerStep s action.1 (s.handler action.1)
    | _ => none

def initial (s : State n) : Prop :=
  s.shootdownLock = false ∧ s.statusLock = false ∧ s.completeCount = 0 ∧ (∀ c, s.task c = .idle) ∧ (∀ c, s.handler c = .off) ∧
    (∀ c, s.ipis c = 0) ∧ s.latest = none

-- Nobody who has left the wait loop is ahead of a CPU, and the count stays a count
-- of CPUs.
structure Complete (s : State n) : Prop where
  flushed : ∀ c addr length, s.task c = .leaving addr length → ∀ d, (addr, length) ∈ s.flushed d
  bounded : s.completeCount ≤ n

-- The CPU that started the last round takes no interrupt.
def Undisturbed (action : Fin n × Move) (s : State n) : Prop := action.2 = .take → s.latest ≠ some action.1

instance (action : Fin n × Move) (s : State n) : Decidable (Undisturbed action s) := inferInstanceAs (Decidable (_ → _))

def calmStep (action : Fin n × Move) (s : State n) : Option (State n) := if Undisturbed action s then step action s else none

end Model

end Elysium.Tlb
