import Mathlib.Data.List.Nodup
import Mathlib.Data.List.FinRange
import Mathlib.Logic.Function.Basic
import Mathlib.Logic.Relation

set_option autoImplicit false

namespace Elysium.Init

inductive Stage where
  | boot
  | early
  | beforeMain
  | main
  | beforeDev
  | dev
  | late
deriving DecidableEq

def Stage.number : Stage → Nat
  | boot => 0
  | early => 1
  | beforeMain => 2
  | main => 3
  | beforeDev => 4
  | dev => 5
  | late => 6

inductive Scope where
  | bsp
  | aps
  | all
deriving DecidableEq

-- What fn does is not modelled, only that it runs.
structure Target where
  name : String
  stage : Stage
  scope : Scope
  dependencies : List String
deriving DecidableEq

def doTarget (scope : Scope) (isAp : Bool) : Bool :=
  scope = .all || (isAp && scope = .aps) || (!isAp && scope = .bsp)

-- trace has the runs of a target's fn, each with the CPU it ran on, oldest first.
structure State (n : Nat) where
  completed : Fin n → Bool
  stageCurrent : Stage
  trace : List (Nat × Fin n)

section Model

variable (targets : List Target)

def findTarget (stage : Stage) (name : String) : Option (Fin targets.length) :=
  (List.finRange targets.length).find? fun i => (targets.get i).stage = stage ∧ (targets.get i).name = name

-- An unknown dependency is passed over.
def runDependency (run : Fin targets.length → State targets.length → Option (State targets.length)) (stage : Stage)
    (s : State targets.length) (name : String) : Option (State targets.length) :=
  match findTarget targets stage name with
  | none => some s
  | some dep => run dep s

def runDependencies (run : Fin targets.length → State targets.length → Option (State targets.length)) (i : Fin targets.length)
    (s : State targets.length) : Option (State targets.length) :=
  (targets.get i).dependencies.foldlM (runDependency targets run (targets.get i).stage) s

-- The recursion over dependencies is bounded by fuel; a run that has used it up does
-- not return.
def runTarget (cpu : Nat) (isAp : Bool) : Nat → Fin targets.length → State targets.length → Option (State targets.length)
  | 0, _, _ => none
  | fuel + 1, i, s => do
      let s ← runDependencies targets (runTarget cpu isAp fuel) i s
      if !doTarget (targets.get i).scope isAp || s.completed i then some s
      else some { s with completed := Function.update s.completed i true, trace := s.trace ++ [(cpu, i)] }

def initResetAp (s : State targets.length) : State targets.length :=
  { s with
    completed := fun i => if doTarget (targets.get i).scope true then false else s.completed i
    stageCurrent := .boot }

-- The assertion on the order of the stages fails with none.
def initRunStage (fuel : Nat) (cpu : Nat) (isAp : Bool) (stage : Stage) (s : State targets.length) :
    Option (State targets.length) :=
  if s.stageCurrent.number ≤ stage.number then
    (List.finRange targets.length).foldlM (fun s i =>
      if (targets.get i).stage = stage then runTarget targets cpu isAp fuel i s else some s)
      { s with stageCurrent := stage }
  else none

def stages : List Stage := [.boot, .early, .beforeMain, .main, .beforeDev, .dev, .late]

def runStages (fuel : Nat) (cpu : Nat) (isAp : Bool) (s : State targets.length) : Option (State targets.length) :=
  stages.foldlM (fun s stage => initRunStage targets fuel cpu isAp stage s) s

-- One CPU of the boot information that did not fail, the boot CPU apart.
def isAwake (cpus : List Bool) (bsp i : Nat) : Bool := cpus.getD i false && i != bsp

def archInitSmp (fuel : Nat) (cpus : List Bool) (bsp : Nat) (s : State targets.length) : Option (State targets.length) :=
  (List.range cpus.length).foldlM (fun s i =>
    if isAwake cpus bsp i then runStages targets fuel i true (initResetAp targets s) else some s) s

def atReset : State targets.length := ⟨fun _ => false, .boot, []⟩

def boot (fuel : Nat) (cpus : List Bool) (bsp : Nat) : Option (State targets.length) :=
  (runStages targets fuel bsp false (atReset targets)).bind (archInitSmp targets fuel cpus bsp)

-- A known dependency: a target of the same stage with one of the names.
def DependsOn (i dep : Fin targets.length) : Prop :=
  (targets.get dep).stage = (targets.get i).stage ∧ (targets.get dep).name ∈ (targets.get i).dependencies

instance (i dep : Fin targets.length) : Decidable (DependsOn targets i dep) := inferInstanceAs (Decidable (_ ∧ _))

structure WellFormed : Prop where
  unique : ∀ i j : Fin targets.length, (targets.get i).stage = (targets.get j).stage →
    (targets.get i).name = (targets.get j).name → i = j
  acyclic : ∀ i, ¬ Relation.TransGen (DependsOn targets) i i

-- A CPU of the boot, with the role it has in it.
def Boots (cpus : List Bool) (bsp cpu : Nat) (isAp : Bool) : Prop :=
  if isAp then isAwake cpus bsp cpu = true else cpu = bsp

structure Orderly (cpus : List Bool) (bsp : Nat) (trace : List (Nat × Fin targets.length)) : Prop where
  bsp_once : ∀ i, (targets.get i).scope = .bsp → trace.filter (fun run => run.2 = i) = [(bsp, i)]
  aps_once : ∀ i, (targets.get i).scope = .aps →
    (∀ cpu, trace.count (cpu, i) = if isAwake cpus bsp cpu then 1 else 0)
  all_once : ∀ i, (targets.get i).scope = .all →
    (∀ cpu, trace.count (cpu, i) = if cpu = bsp ∨ isAwake cpus bsp cpu = true then 1 else 0)
  stages : ∀ cpu i j before between after, trace = before ++ (cpu, i) :: between ++ (cpu, j) :: after →
    (targets.get i).stage.number ≤ (targets.get j).stage.number
  dependencies : ∀ cpu isAp, Boots cpus bsp cpu isAp → ∀ i dep before after,
    trace = before ++ (cpu, i) :: after → DependsOn targets i dep →
      doTarget (targets.get dep).scope isAp = true → (cpu, dep) ∈ before
  boot_first : ∀ cpu, isAwake cpus bsp cpu = true → ∀ i dep before after,
    trace = before ++ (cpu, i) :: after → DependsOn targets i dep → (targets.get dep).scope = .bsp → (bsp, dep) ∈ before

end Model

end Elysium.Init
