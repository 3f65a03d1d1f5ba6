import Elysium.Transitions

set_option autoImplicit false

namespace Elysium.Reaper

open Transitions (Reachable reachable_invariant execute reachable_execute)

-- Where the reaper thread is in its loop. It is blocked once sched_yield has set its
-- state to BLOCK and switched away from it.
inductive Pc (P T : Type) where
  | lockProcesses
  | checkProcesses
  | unlockProcess (p : P)
  | freeProcess (p : P)
  | leaveProcesses
  | lockThreads
  | checkThreads
  | unlockThread (t : T)
  | leaveThreads
  | yielding
  | blocked
deriving DecidableEq

-- Where a CPU is in internal_sched_thread_drop of a thread in state DESTROY.
inductive Drop (P T : Type) where
  | none
  | lockProc (t : T) (p : P)
  | deleteThread (t : T) (p : P)
  | unlockProc (t : T) (p : P)
  | lockForProcess (t : T) (p : P)
  | pushProcess (t : T) (p : P)
  | unlockForProcess (t : T)
  | lockForThread (t : T)
  | pushThread (t : T)
  | unlockForThread
deriving DecidableEq

-- procLock are the locks of the processes, locked is g_reaper_lock. failed is set by an
-- assertion.
structure State (P T C : Type) where
  reaper : Pc P T
  drop : C → Drop P T
  locked : Bool
  processQueue : List P
  threadQueue : List T
  proc : T → Option P
  procLock : P → Bool
  threads : P → List T
  alive : List T
  failed : Bool

inductive Action (P T C : Type) where
  | reaper
  | exit (c : C) (t : T)
  | cpu (c : C)

section Model

variable {P T C : Type} [DecidableEq P] [DecidableEq T] [DecidableEq C]

-- A spinlock is acquired when it is free.
def stepReaper (s : State P T C) : Option (State P T C) :=
  match s.reaper with
  | .lockProcesses => if s.locked then none else some { s with locked := true, reaper := .checkProcesses }
  | .checkProcesses =>
      match s.processQueue with
      | [] => some { s with reaper := .leaveProcesses }
      | p :: rest => some { s with processQueue := rest, reaper := .unlockProcess p }
  | .unlockProcess p => some { s with locked := false, reaper := .freeProcess p }
  | .freeProcess p =>
      if s.procLock p = false ∨ (s.threads p).length ≠ 0 then some { s with failed := true }
      else some { s with reaper := .lockProcesses }
  | .leaveProcesses => some { s with locked := false, reaper := .lockThreads }
  | .lockThreads => if s.locked then none else some { s with locked := true, reaper := .checkThreads }
  | .checkThreads =>
      match s.threadQueue with
      | [] => some { s with reaper := .leaveThreads }
      | t :: rest => some { s with threadQueue := rest, reaper := .unlockThread t }
  | .unlockThread _ => some { s with locked := false, reaper := .lockThreads }
  | .leaveThreads => some { s with locked := false, reaper := .yielding }
  | .yielding => some { s with reaper := .blocked }
  | .blocked => none

def goto (s : State P T C) (c : C) (drop : Drop P T) : State P T C := { s with drop := Function.update s.drop c drop }

def stepCpu (s : State P T C) (c : C) : Option (State P T C) :=
  match s.drop c with
  | .none => none
  | .lockProc t p =>
      if s.procLock p then none
      else some (goto { s with procLock := Function.update s.procLock p true } c (.deleteThread t p))
  | .deleteThread t p =>
      let threads := (s.threads p).erase t
      some (goto { s with threads := Function.update s.threads p threads } c
        (if threads.length = 0 then .lockForProcess t p else .unlockProc t p))
  | .unlockProc t p => some (goto { s with procLock := Function.update s.procLock p false } c (.lockForThread t))
  | .lockForProcess t p => if s.locked then none else some (goto { s with locked := true } c (.pushProcess t p))
  | .pushProcess t p => some (goto { s with processQueue := s.processQueue ++ [p] } c (.unlockForProcess t))
  | .unlockForProcess t => some (goto { s with locked := false } c (.lockForThread t))
  | .lockForThread t => if s.locked then none else some (goto { s with locked := true } c (.pushThread t))
  | .pushThread t => some (goto { s with threadQueue := s.threadQueue ++ [t] } c .unlockForThread)
  | .unlockForThread => some (goto { s with locked := false } c .none)

def stepExit (s : State P T C) (c : C) (t : T) : Option (State P T C) :=
  if s.drop c = .none ∧ t ∈ s.alive then
    let s := { s with alive := s.alive.erase t }
    match s.proc t with
    | none => some (goto s c (.lockForThread t))
    | some p => some (goto s c (.lockProc t p))
  else none

def step (action : Action P T C) (s : State P T C) : Option (State P T C) :=
  if s.failed then none
  else
    match action with
    | .reaper => stepReaper s
    | .exit c t => stepExit s c t
    | .cpu c => stepCpu s c

-- The reaper has looked at the queue of processes, or of threads, for the last time
-- before it blocks.
def Pc.pastProcesses : Pc P T → Bool
  | .leaveProcesses | .lockThreads | .checkThreads | .unlockThread _ | .leaveThreads | .yielding | .blocked => true
  | _ => false

def Pc.pastThreads : Pc P T → Bool
  | .leaveThreads | .yielding | .blocked => true
  | _ => false

-- A step that queues a process or a thread when the reaper no longer looks.
def Unseen (s : State P T C) : Action P T C → Bool
  | .cpu c =>
      match s.drop c with
      | .pushProcess _ _ => s.reaper.pastProcesses
      | .pushThread _ => s.reaper.pastThreads
      | _ => false
  | _ => false

def seenStep (action : Action P T C) (s : State P T C) : Option (State P T C) := if Unseen s action then none else step action s

structure initial (s : State P T C) : Prop where
  reaper : s.reaper = .lockProcesses
  drop : ∀ c, s.drop c = .none
  locked : s.locked = false
  processQueue : s.processQueue = []
  threadQueue : s.threadQueue = []
  failed : s.failed = false

def Rested (s : State P T C) : Prop := s.reaper = .blocked → s.processQueue = [] ∧ s.threadQueue = []

structure Inv (s : State P T C) : Prop where
  processes : s.reaper.pastProcesses = true → s.processQueue = []
  threads : s.reaper.pastThreads = true → s.threadQueue = []

omit [DecidableEq P] [DecidableEq T] [DecidableEq C] in
theorem reaper_inv {s s' : State P T C} (inv : Inv s) (taken : stepReaper s = some s') : Inv s' := by
  obtain ⟨processes, threads⟩ := inv
  cases here : s.reaper with
  | lockProcesses =>
      simp only [stepReaper, here, Option.ite_none_left_eq_some, Option.some.injEq] at taken
      obtain ⟨_, rfl⟩ := taken
      exact ⟨by simp [Pc.pastProcesses], by simp [Pc.pastThreads]⟩
  | checkProcesses =>
      cases queue : s.processQueue with
      | nil =>
          simp only [stepReaper, here, queue, Option.some.injEq] at taken
          exact taken ▸ ⟨fun _ => rfl, by simp [Pc.pastThreads]⟩
      | cons p rest =>
          simp only [stepReaper, here, queue, Option.some.injEq] at taken
          exact taken ▸ ⟨by simp [Pc.pastProcesses], by simp [Pc.pastThreads]⟩
  | unlockProcess p =>
      simp only [stepReaper, here, Option.some.injEq] at taken
      exact taken ▸ ⟨by simp [Pc.pastProcesses], by simp [Pc.pastThreads]⟩
  | freeProcess p =>
      simp only [stepReaper, here] at taken
      split at taken
      · cases taken
        exact ⟨by simp [Pc.pastProcesses], by simp [Pc.pastThreads]⟩
      · cases taken
        exact ⟨by simp [Pc.pastProcesses], by simp [Pc.pastThreads]⟩
  | leaveProcesses =>
      simp only [stepReaper, here, Option.some.injEq] at taken
      exact taken ▸ ⟨fun _ => processes (by rw [here]; rfl), by simp [Pc.pastThreads]⟩
  | lockThreads =>
      simp only [stepReaper, here, Option.ite_none_left_eq_some, Option.some.injEq] at taken
      exact taken.2 ▸ ⟨fun _ => processes (by rw [here]; rfl), by simp [Pc.pastThreads]⟩
  | checkThreads =>
      have none := processes (by rw [here]; rfl)
      cases queue : s.threadQueue with
      | nil =>
          simp only [stepReaper, here, queue, Option.some.injEq] at taken
          exact taken ▸ ⟨fun _ => none, fun _ => rfl⟩
      | cons t rest =>
          simp only [stepReaper, here, queue, Option.some.injEq] at taken
          exact taken ▸ ⟨fun _ => none, by simp [Pc.pastThreads]⟩
  | unlockThread t =>
      simp only [stepReaper, here, Option.some.injEq] at taken
      exact taken ▸ ⟨fun _ => processes (by rw [here]; rfl), by simp [Pc.pastThreads]⟩
  | leaveThreads =>
      simp only [stepReaper, here, Option.some.injEq] at taken
      exact taken ▸ ⟨fun _ => processes (by rw [here]; rfl), fun _ => threads (by rw [here]; rfl)⟩
  | yielding =>
      simp only [stepReaper, here, Option.some.injEq] at taken
      exact taken ▸ ⟨fun _ => processes (by rw [here]; rfl), fun _ => threads (by rw [here]; rfl)⟩
  | blocked => simp [stepReaper, here] at taken

-- A CPU leaves the reaper where it is, and the queues too unless it pushes.
theorem cpu_inv {s s' : State P T C} {c : C} (inv : Inv s) (taken : stepCpu s c = some s') (seen : Unseen s (.cpu c) = false) :
    Inv s' := by
  have kept : ∀ s' : State P T C, s'.reaper = s.reaper → s'.processQueue = s.processQueue → s'.threadQueue = s.threadQueue → Inv s' :=
    fun s' reaper processes threads =>
      ⟨fun past => processes.trans (inv.processes (reaper ▸ past)), fun past => threads.trans (inv.threads (reaper ▸ past))⟩
  cases here : s.drop c with
  | none => simp [stepCpu, here] at taken
  | lockProc t p =>
      simp only [stepCpu, here, Option.ite_none_left_eq_some, Option.some.injEq] at taken
      exact taken.2 ▸ kept _ rfl rfl rfl
  | deleteThread t p =>
      simp only [stepCpu, here, Option.some.injEq] at taken
      exact taken ▸ kept _ rfl rfl rfl
  | unlockProc t p =>
      simp only [stepCpu, here, Option.some.injEq] at taken
      exact taken ▸ kept _ rfl rfl rfl
  | lockForProcess t p =>
      simp only [stepCpu, here, Option.ite_none_left_eq_some, Option.some.injEq] at taken
      exact taken.2 ▸ kept _ rfl rfl rfl
  | pushProcess t p =>
      simp only [stepCpu, here, Option.some.injEq] at taken
      have looks : s.reaper.pastProcesses = false := by simpa [Unseen, here] using seen
      refine taken ▸ ⟨fun past => ?_, inv.threads⟩
      have past : s.reaper.pastProcesses = true := past
      rw [looks] at past
      cases past
  | unlockForProcess t =>
      simp only [stepCpu, here, Option.some.injEq] at taken
      exact taken ▸ kept _ rfl rfl rfl
  | lockForThread t =>
      simp only [stepCpu, here, Option.ite_none_left_eq_some, Option.some.injEq] at taken
      exact taken.2 ▸ kept _ rfl rfl rfl
  | pushThread t =>
      simp only [stepCpu, here, Option.some.injEq] at taken
      have looks : s.reaper.pastThreads = false := by simpa [Unseen, here] using seen
      refine taken ▸ ⟨inv.processes, fun past => ?_⟩
      have past : s.reaper.pastThreads = true := past
      rw [looks] at past
      cases past
  | unlockForThread =>
      simp only [stepCpu, here, Option.some.injEq] at taken
      exact taken ▸ kept _ rfl rfl rfl

theorem exit_inv {s s' : State P T C} {c : C} {t : T} (inv : Inv s) (taken : stepExit s c t = some s') : Inv s' := by
  rw [stepExit, Option.ite_none_right_eq_some] at taken
  cases proc : s.proc t with
  | none =>
      simp only [proc, Option.some.injEq] at taken
      exact taken.2 ▸ ⟨inv.processes, inv.threads⟩
  | some p =>
      simp only [proc, Option.some.injEq] at taken
      exact taken.2 ▸ ⟨inv.processes, inv.threads⟩

theorem seen_step_inv (action : Action P T C) (s s' : State P T C) (inv : Inv s) (taken : seenStep action s = some s') : Inv s' := by
  rw [seenStep, Option.ite_none_left_eq_some, Bool.not_eq_true] at taken
  obtain ⟨seen, taken⟩ := taken
  rw [step.eq_def, Option.ite_none_left_eq_some] at taken
  cases action with
  | reaper => exact reaper_inv inv taken.2
  | exit c t => exact exit_inv inv taken.2
  | cpu c => exact cpu_inv inv taken.2 seen

-- As long as nothing is queued after the reaper has looked, it does not sleep on work.
theorem reaper_rests (s : State P T C) (reach : Reachable initial seenStep s) : Rested s := by
  have start : ∀ s : State P T C, initial s → Inv s := fun s first =>
    ⟨by simp [first.reaper, Pc.pastProcesses], by simp [first.reaper, Pc.pastThreads]⟩
  have inv := reachable_invariant start seen_step_inv reach
  intro blocked
  exact ⟨inv.processes (by rw [blocked]; rfl), inv.threads (by rw [blocked]; rfl)⟩

end Model

-- One CPU, and a process with threads 1 and 2.
def pair : State Unit Nat Unit where
  reaper := .lockProcesses
  drop := fun _ => .none
  locked := false
  processQueue := []
  threadQueue := []
  proc := fun _ => some ()
  procLock := fun _ => false
  threads := fun _ => [1, 2]
  alive := [1, 2]
  failed := false

theorem pair_initial : initial pair := ⟨rfl, fun _ => rfl, rfl, rfl, rfl, rfl⟩

-- Both exit before the reaper runs.
def exitBoth : List (Action Unit Nat Unit) :=
  .exit () 1 :: List.replicate 6 (.cpu ()) ++ .exit () 2 :: List.replicate 8 (.cpu ()) ++ List.replicate 17 .reaper

theorem reaper_rests_pair : ∃ s, execute seenStep exitBoth pair = some s ∧ s.reaper = .blocked ∧ Rested s := by
  have blocks : (execute seenStep exitBoth pair).any (fun s => s.reaper = .blocked) = true := by decide
  obtain ⟨s, run, blocked⟩ := (Option.any_eq_true _ _).mp blocks
  exact ⟨s, run, of_decide_eq_true blocked, reaper_rests s (reachable_execute (.start pair pair_initial) run)⟩

-- A thread exits when the reaper is blocked, and nothing wakes the reaper.
theorem reaper_sleeps_on_thread : ∃ s : State Unit Nat Unit, Reachable initial step s ∧ s.reaper = .blocked ∧ s.threadQueue = [1] ∧ ¬ Rested s ∧
    stepReaper s = none := by
  have sleeps : (execute step (List.replicate 7 .reaper ++ .exit () 1 :: List.replicate 6 (.cpu ())) pair).any
      (fun s => s.reaper = .blocked ∧ s.threadQueue = [1]) = true := by decide
  obtain ⟨s, run, facts⟩ := (Option.any_eq_true _ _).mp sleeps
  obtain ⟨blocked, queue⟩ := of_decide_eq_true facts
  refine ⟨s, reachable_execute (.start pair pair_initial) run, blocked, queue, fun rested => ?_, by simp [stepReaper, blocked]⟩
  have none := (rested blocked).2
  rw [queue] at none
  cases none

end Elysium.Reaper
