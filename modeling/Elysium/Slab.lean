import Mathlib.Data.List.FinRange
import Mathlib.Data.List.Nodup
import Elysium.Chain
import Elysium.Machine
import Elysium.Transitions

set_option autoImplicit false

namespace Elysium.Slab

open Chain
open Transitions (Reachable reachable_invariant execute reachable_execute)

def magazineSize : Nat := 32

-- sizeof(slab_t): the cache, a list node, the block, free_count and freelist.
def slabHeader : Nat := 48

structure Config where
  objectSize : Nat
  blockOrder : Nat
deriving DecidableEq

namespace Config

def bytes (cfg : Config) : Nat := 2 ^ cfg.blockOrder * pageGranularity

def objects (cfg : Config) : Nat := (cfg.bytes - slabHeader) / cfg.objectSize

def object (cfg : Config) (slab i : Nat) : Nat := slab + slabHeader + i * cfg.objectSize

-- The slab an object lies in: a slab is aligned to its size, and the low bits of
-- the object's address are masked off.
def slabOf (cfg : Config) (obj : Nat) : Nat := obj - obj % cfg.bytes

end Config

structure Magazine where
  roundCount : Nat
  rounds : Nat → Option Nat

structure CpuCache (T : Type) where
  lock : Option T
  primary : Nat
  secondary : Nat

structure SlabInfo where
  freelist : Option Nat
  freeCount : Nat

-- Where a thread is in slab_allocate or slab_free on some CPU's magazines.
inductive Pc (n : Nat) where
  | idle
  | allocEnter (cpu : Fin n)
  | alloc (cpu : Fin n)
  | allocDirect
  | freeEnter (cpu : Fin n) (obj : Nat)
  | free (cpu : Fin n) (obj : Nat)
  | freeDirect (obj : Nat)
deriving DecidableEq

-- Magazines are numbered in the order they were allocated in, made says how many
-- there are. link is the first word of an object, which threads the freelist when
-- the object is on it and is the client's when it is not. The code does not have
-- held, the objects its clients have, and turns, the jumps a call has made back to
-- its start. failed is set by an assertion and by following or handing out a null
-- pointer.
structure State (n : Nat) (T : Type) where
  slabsFull : List Nat
  slabsPartial : List Nat
  slab : Nat → SlabInfo
  link : Nat → Option Nat
  magazinesFull : List Nat
  magazinesEmpty : List Nat
  magazine : Nat → Magazine
  made : Nat
  cpuCacheEnabled : Bool
  cpuCache : Fin n → CpuCache T
  pc : T → Pc n
  result : T → Option Nat
  held : Nat → Bool
  turns : T → Nat
  failed : Bool

section Model

variable {n : Nat} {T : Type} [DecidableEq T] (cfg : Config)

namespace State

def slabs (s : State n T) : List Nat := s.slabsPartial ++ s.slabsFull

def primary (s : State n T) (cpu : Fin n) : Magazine := s.magazine (s.cpuCache cpu).primary

def secondary (s : State n T) (cpu : Fin n) : Magazine := s.magazine (s.cpuCache cpu).secondary

def goto (s : State n T) (t : T) (pc : Pc n) : State n T := { s with pc := Function.update s.pc t pc }

def setCpu (s : State n T) (cpu : Fin n) (cc : CpuCache T) : State n T := { s with cpuCache := Function.update s.cpuCache cpu cc }

def unlock (s : State n T) (cpu : Fin n) : State n T := s.setCpu cpu { s.cpuCache cpu with lock := none }

def setMagazine (s : State n T) (m : Nat) (magazine : Magazine) : State n T :=
  { s with magazine := Function.update s.magazine m magazine }

def setHeld (s : State n T) (obj : Nat) (held : Bool) : State n T := { s with held := Function.update s.held obj held }

-- An object goes to the client that asked for it.
def give (s : State n T) (t : T) (obj : Nat) : State n T :=
  { s with
    pc := Function.update s.pc t .idle
    held := Function.update s.held obj true
    result := Function.update s.result t (some obj) }

def again (s : State n T) (t : T) : State n T := { s with turns := Function.update s.turns t (s.turns t + 1) }

-- What a freelist starts with.
def thread (s : State n T) (slab obj : Nat) : State n T :=
  { s with
    link := Function.update s.link obj (s.slab slab).freelist
    slab := Function.update s.slab slab ⟨some obj, (s.slab slab).freeCount + 1⟩ }

end State

-- The objects of a new slab, threaded onto its freelist one after the other.
def carve (slab : Nat) : Nat → State n T → State n T
  | 0, s => s
  | i + 1, s => (carve slab i s).thread slab (cfg.object slab i)

-- What pmm_alloc promises of a block for a slab: it is aligned to its size, as the
-- HHDM is, and is no slab yet.
def Fresh (s : State n T) (block : Nat) : Prop := block % cfg.bytes = 0 ∧ block ∉ s.slabs

instance (s : State n T) (block : Nat) : Decidable (Fresh cfg s block) := inferInstanceAs (Decidable (_ ∧ _))

-- cache_make_slab, with the block pmm_alloc hands out. Without a block, or when no
-- object fits, the kernel stops.
def cacheMakeSlab (block : Nat) (s : State n T) : Option (State n T) :=
  if cfg.objects = 0 ∨ ¬ Fresh cfg s block then none
  else
    let empty : State n T := { s with slab := Function.update s.slab block ⟨none, 0⟩ }
    some { carve cfg block cfg.objects empty with slabsPartial := block :: s.slabsPartial }

-- slab_direct_alloc up to its assertion, and from there.
def provide (block : Nat) (s : State n T) : Option (State n T) :=
  if s.slabsPartial = [] then cacheMakeSlab cfg block s else some s

def takeObject (s : State n T) : Option (Nat × State n T) :=
  match s.slabsPartial with
  | [] => none
  | slab :: rest =>
      match (s.slab slab).freelist with
      | none => none
      | some obj =>
          let taken : State n T :=
            { s with slab := Function.update s.slab slab ⟨s.link obj, (s.slab slab).freeCount - 1⟩ }
          if (s.slab slab).freeCount = 0 then none
          else if (s.slab slab).freeCount = 1 then
            some (obj, { taken with slabsPartial := rest, slabsFull := slab :: s.slabsFull })
          else some (obj, taken)

def slabDirectFree (obj : Nat) (s : State n T) : Option (State n T) :=
  let slab := cfg.slabOf obj
  if (s.slab slab).freeCount = 0 then
    if slab ∈ s.slabsFull then
      some { s.thread slab obj with slabsFull := s.slabsFull.erase slab, slabsPartial := slab :: s.slabsPartial }
    else none
  else some (s.thread slab obj)

-- One pass through the body of slab_allocate under cc->lock.
def allocPass (s : State n T) (t : T) (cpu : Fin n) : State n T :=
  let cc := s.cpuCache cpu
  if 0 < (s.primary cpu).roundCount then
    let count := (s.primary cpu).roundCount - 1
    match (s.primary cpu).rounds count with
    | none => { s with failed := true }
    | some obj => ((s.setMagazine cc.primary { s.primary cpu with roundCount := count }).unlock cpu).give t obj
  else if (s.secondary cpu).roundCount = magazineSize then
    (s.setCpu cpu { cc with primary := cc.secondary, secondary := cc.primary }).again t
  else
    match s.magazinesFull with
    | [] => (s.unlock cpu).goto t .allocDirect
    | full :: rest =>
        { (s.setCpu cpu { cc with primary := full, secondary := cc.primary }).again t with
          magazinesFull := rest, magazinesEmpty := cc.secondary :: s.magazinesEmpty }

-- One pass through the body of slab_free under cc->lock.
def freePass (s : State n T) (t : T) (cpu : Fin n) (obj : Nat) : State n T :=
  let cc := s.cpuCache cpu
  if (s.primary cpu).roundCount < magazineSize then
    let count := (s.primary cpu).roundCount
    let loaded : Magazine := ⟨count + 1, Function.update (s.primary cpu).rounds count (some obj)⟩
    ((s.setMagazine cc.primary loaded).unlock cpu).goto t .idle
  else if (s.secondary cpu).roundCount = 0 then
    (s.setCpu cpu { cc with primary := cc.secondary, secondary := cc.primary }).again t
  else
    match s.magazinesEmpty with
    | [] => (s.unlock cpu).goto t (.freeDirect obj)
    | empty :: rest =>
        { (s.setCpu cpu { cc with primary := empty, secondary := cc.primary }).again t with
          magazinesEmpty := rest, magazinesFull := cc.secondary :: s.magazinesFull }

inductive Move (n : Nat) where
  | allocate (cpu : Fin n)
  | free (cpu : Fin n) (obj : Nat)
  | write (obj : Nat) (word : Option Nat)
  | run (block : Nat)

def acquire (s : State n T) (t : T) (cpu : Fin n) (pc : Pc n) : Option (State n T) :=
  if (s.cpuCache cpu).lock = none then
    some { (s.setCpu cpu { s.cpuCache cpu with lock := some t }).goto t pc with turns := Function.update s.turns t 0 }
  else none

-- block is what pmm_alloc hands out, should the step ask for it.
def callStep (s : State n T) (t : T) (block : Nat) : Pc n → Option (State n T)
  | .idle => none
  | .allocEnter cpu => acquire s t cpu (.alloc cpu)
  | .alloc cpu => some (allocPass s t cpu)
  | .allocDirect =>
      (provide cfg block s).map fun s =>
        match takeObject s with
        | none => { s with failed := true }
        | some (obj, s) => s.give t obj
  | .freeEnter cpu obj => acquire s t cpu (.free cpu obj)
  | .free cpu obj => some (freePass s t cpu obj)
  | .freeDirect obj =>
      match slabDirectFree cfg obj s with
      | none => some { s with failed := true }
      | some s => some (s.goto t .idle)

-- A client writes what it wants to the objects it has, and frees only those.
def step (action : T × Move n) (s : State n T) : Option (State n T) :=
  match action.2 with
  | .allocate cpu =>
      if s.pc action.1 = .idle then some (s.goto action.1 (if s.cpuCacheEnabled then .allocEnter cpu else .allocDirect)) else none
  | .free cpu obj =>
      if s.pc action.1 = .idle ∧ s.held obj = true then
        some ((s.setHeld obj false).goto action.1 (if s.cpuCacheEnabled then .freeEnter cpu obj else .freeDirect obj))
      else none
  | .write obj word => if s.held obj = true then some { s with link := Function.update s.link obj word } else none
  | .run block => callStep cfg s action.1 block (s.pc action.1)

-- What slab_cache_create makes the cache of. The pointers of a CPU's cache name no
-- magazine before it has them.
def blank : State n T where
  slabsFull := []
  slabsPartial := []
  slab := fun _ => ⟨none, 0⟩
  link := fun _ => none
  magazinesFull := []
  magazinesEmpty := []
  magazine := fun _ => ⟨0, fun _ => none⟩
  made := 0
  cpuCacheEnabled := true
  cpuCache := fun _ => ⟨none, 4 * n, 4 * n⟩
  pc := fun _ => .idle
  result := fun _ => none
  held := fun _ => false
  turns := fun _ => 0
  failed := false

def newMagazine (count : Nat) (s : State n T) : State n T :=
  { s.setMagazine s.made ⟨count, fun _ => none⟩ with made := s.made + 1 }

def addSpare (s : State n T) : State n T := { newMagazine 0 s with magazinesEmpty := s.made :: s.magazinesEmpty }

def spareMagazines : Nat → State n T → State n T
  | 0, s => s
  | k + 1, s => addSpare (spareMagazines k s)

-- The first rounds of a magazine, each with the block pmm_alloc hands out for it,
-- should it be asked.
def fillRounds (supply : Nat → Nat) (m : Nat) : Nat → State n T → Option (State n T)
  | 0, s => some s
  | j + 1, s => do
      let s ← fillRounds supply m j s
      let s ← provide cfg (supply j) s
      let (obj, s) ← takeObject s
      return s.setMagazine m { s.magazine m with rounds := Function.update (s.magazine m).rounds j (some obj) }

def equipCpus (supply : Fin n → Nat → Nat) : List (Fin n) → State n T → Option (State n T)
  | [], s => some s
  | cpu :: rest, s => do
      let primary := s.made
      let s ← fillRounds cfg (supply cpu) primary magazineSize (newMagazine magazineSize s)
      let secondary := s.made
      equipCpus supply rest ((newMagazine 0 s).setCpu cpu ⟨none, primary, secondary⟩)

def slabCacheCreate (supply : Fin n → Nat → Nat) : Option (State n T) :=
  if 8 ≤ cfg.objectSize then equipCpus cfg supply (List.finRange n) (spareMagazines (n * 2) blank) else none

def initial (s : State n T) : Prop := ∃ supply, slabCacheCreate cfg supply = some s

-- The places an object can be in. An argument of slab_free is its caller's until it
-- has been put away.
inductive Place (T : Type) where
  | client
  | freeing (t : T)
  | round (m i : Nat)
  | free (slab : Nat)

def Pc.inHand : Pc n → Option Nat
  | .freeEnter _ obj => some obj
  | .free _ obj => some obj
  | .freeDirect obj => some obj
  | _ => none

def At (s : State n T) (obj : Nat) : Place T → Prop
  | .client => s.held obj = true
  | .freeing t => (s.pc t).inHand = some obj
  | .round m i => m < s.made ∧ i < (s.magazine m).roundCount ∧ (s.magazine m).rounds i = some obj
  | .free slab => slab ∈ s.slabs ∧ ∃ list, Linked s.link (s.slab slab).freelist list ∧ obj ∈ list

def Object (s : State n T) (obj : Nat) : Prop := ∃ slab ∈ s.slabs, ∃ i < cfg.objects, obj = cfg.object slab i

inductive Berth (n : Nat) where
  | primary (cpu : Fin n)
  | secondary (cpu : Fin n)
  | full
  | empty

def Docked (s : State n T) (m : Nat) : Berth n → Prop
  | .primary cpu => (s.cpuCache cpu).primary = m
  | .secondary cpu => (s.cpuCache cpu).secondary = m
  | .full => m ∈ s.magazinesFull
  | .empty => m ∈ s.magazinesEmpty

-- Nothing is lost and nothing is there twice.
structure Sound (s : State n T) : Prop where
  objects : ∀ obj, Object cfg s obj → ∃! p, At s obj p
  nothingElse : ∀ obj p, At s obj p → Object cfg s obj
  freelists : ∀ slab ∈ s.slabs, ∃ list, Linked s.link (s.slab slab).freelist list ∧ list.Nodup ∧
    ∀ obj ∈ list, ∃ i < cfg.objects, obj = cfg.object slab i
  stored : ∀ m i obj, At s obj (.round m i) → (∃ cpu, Docked s m (.primary cpu) ∨ Docked s m (.secondary cpu)) ∨ Docked s m .full
  magazines : ∀ m, (m < 4 * n → ∃! b, Docked s m b) ∧ ∀ b, Docked s m b → m < 4 * n
  listedOnce : s.magazinesFull.Nodup ∧ s.magazinesEmpty.Nodup
  secondaries : ∀ cpu, (s.secondary cpu).roundCount = 0 ∨ (s.secondary cpu).roundCount = magazineSize
  empties : ∀ m ∈ s.magazinesEmpty, (s.magazine m).roundCount = 0
  fulls : ∀ m ∈ s.magazinesFull, (s.magazine m).roundCount = magazineSize
  loops : ∀ t, s.turns t ≤ 1
  asserted : s.failed = false

end Model

end Elysium.Slab
