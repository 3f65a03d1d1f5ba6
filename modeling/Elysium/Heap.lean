import Elysium.Pmm
import Elysium.SlabCalls

set_option autoImplicit false

namespace Elysium.Heap

open Pmm (pagecountToOrder pmmMaxOrder)
open Transitions (Reachable reachable_invariant execute reachable_execute)

inductive Family where
  | x8
  | x128
  | other
deriving DecidableEq

namespace Family

def sizes : Family → List Nat
  | x8 => [8, 16, 24, 32, 40, 48, 56, 64, 72]
  | x128 => [128, 256, 384, 512]
  | other => [1024, 2048]

def order : Family → Nat
  | x8 => 2
  | x128 => 3
  | other => 5

def largest (family : Family) : Nat := family.sizes.getLastD 0

end Family

-- A cache that init_slab_cache has made.
structure CacheId where
  family : Family
  index : Fin family.sizes.length
deriving DecidableEq

def CacheId.config (id : CacheId) : Slab.Config := ⟨id.family.sizes.get id.index, id.family.order⟩

def cacheAt (family : Family) (i : Nat) : Option CacheId := if inside : i < family.sizes.length then some ⟨family, i, inside⟩ else none

def divCeil (dividend divisor : Nat) : Nat := sub64 (add64 dividend divisor) 1 / divisor

-- Without a cache its assertion fails; past the end of an array there is none either.
def findCache (size : Nat) : Option CacheId :=
  if size ≤ Family.largest .x8 then cacheAt .x8 (sub64 (divCeil size 8) 1)
  else if size ≤ Family.largest .x128 then cacheAt .x128 (sub64 (divCeil size 128) 1)
  else (Family.sizes .other |>.findIdx? fun other => ¬ other < size).bind (cacheAt .other)

-- Where a block was allocated: in a cache, or from pmm_alloc_pages with some order.
inductive Origin where
  | cache (id : CacheId)
  | pages (order : Nat)
deriving DecidableEq

structure Block where
  address : Nat
  size : Nat
  origin : Origin
deriving DecidableEq

inductive Pc where
  | idle
  | allocating (id : CacheId) (size : Nat)
  | freeing (id : CacheId)
deriving DecidableEq

-- pages are the blocks, by physical address and order, that heap_alloc has from
-- pmm_alloc_pages, outside are those pmm_alloc has given to others. live are the
-- blocks the heap's clients have. failed is set by an assertion, and by giving a
-- cache or the page allocator what it has not handed out.
structure State (n : Nat) (T : Type) where
  cache : CacheId → Slab.State n T
  pages : List (Nat × Nat)
  outside : List (Nat × Nat)
  pc : T → Pc
  live : List Block
  failed : Bool

def orderBytes (order : Nat) : Nat := 2 ^ order * pageGranularity

-- Two ranges of bytes have none in common.
def Apart (base length base' length' : Nat) : Prop := base + length ≤ base' ∨ base' + length' ≤ base

instance (base length base' length' : Nat) : Decidable (Apart base length base' length') := inferInstanceAs (Decidable (_ ∨ _))

def family (f : Family) : List CacheId := (List.finRange f.sizes.length).map (CacheId.mk f)

def allCaches : List CacheId := family .x8 ++ family .x128 ++ family .other

section Model

variable {n : Nat} {T : Type} [DecidableEq T] (hhdm : Nat)

namespace State

def setCache (s : State n T) (id : CacheId) (cache : Slab.State n T) : State n T := { s with cache := Function.update s.cache id cache }

def goto (s : State n T) (t : T) (pc : Pc) : State n T := { s with pc := Function.update s.pc t pc }

end State

-- What pmm_alloc promises: a block aligned to its size, apart from those in use.
structure Promised (s : State n T) (order block : Nat) : Prop where
  aligned : block % orderBytes order = 0
  slabs : ∀ id ∈ allCaches, ∀ slab ∈ (s.cache id).slabs, Apart (block + hhdm) (orderBytes order) slab id.config.bytes
  pages : ∀ p ∈ s.pages, Apart block (orderBytes order) p.1 (orderBytes p.2)
  outside : ∀ p ∈ s.outside, Apart block (orderBytes order) p.1 (orderBytes p.2)

instance (s : State n T) (order block : Nat) : Decidable (Promised hhdm s order block) :=
  decidable_of_iff (block % orderBytes order = 0 ∧
      (∀ id ∈ allCaches, ∀ slab ∈ (s.cache id).slabs, Apart (block + hhdm) (orderBytes order) slab id.config.bytes) ∧
      (∀ p ∈ s.pages, Apart block (orderBytes order) p.1 (orderBytes p.2)) ∧
      ∀ p ∈ s.outside, Apart block (orderBytes order) p.1 (orderBytes p.2))
    ⟨fun ⟨aligned, slabs, pages, outside⟩ => ⟨aligned, slabs, pages, outside⟩,
      fun promised => ⟨promised.aligned, promised.slabs, promised.pages, promised.outside⟩⟩

-- block is what pmm_alloc hands out, should the step ask for it.
inductive Move (n : Nat) where
  | alloc (cpu : Fin n) (size block : Nat)
  | free (cpu : Fin n) (address size : Nat)
  | write (id : CacheId) (address : Nat) (word : Option Nat)
  | run (block : Nat)
  | take (order block : Nat)
  | give (order block : Nat)

def heapAlloc (s : State n T) (t : T) (cpu : Fin n) (size block : Nat) : Option (State n T) :=
  if size = 0 then some s
  else if size > Family.largest .other then
    let order := pagecountToOrder (divCeil size pageGranularity)
    if order ≤ pmmMaxOrder ∧ Promised hhdm s order block then
      some { s with pages := (block, order) :: s.pages, live := ⟨block + hhdm, size, .pages order⟩ :: s.live }
    else none
  else
    match findCache size with
    | none => some { s with failed := true }
    | some id =>
        (Slab.step id.config (t, .allocate cpu) (s.cache id)).map fun cache => (s.setCache id cache).goto t (.allocating id size)

def heapFree (s : State n T) (t : T) (cpu : Fin n) (block : Block) : State n T :=
  if block.size > Family.largest .other then
    match s.pages.find? fun p => p.1 = block.address - hhdm with
    | none => { s with failed := true }
    | some p => { s with pages := s.pages.erase p, live := s.live.erase block }
  else
    match findCache block.size with
    | none => { s with failed := true }
    | some id =>
        match Slab.step id.config (t, .free cpu block.address) (s.cache id) with
        | none => { s with failed := true }
        | some cache => { (s.setCache id cache).goto t (.freeing id) with live := s.live.erase block }

-- A thread goes on in slab_allocate or slab_free.
def runCall (s : State n T) (t : T) (block : Nat) : Pc → Option (State n T)
  | .idle => none
  | .allocating id size =>
      if Slab.asks (s.cache id) t ∧ ¬ Promised hhdm s id.family.order block then none
      else
        (Slab.step id.config (t, .run (block + hhdm)) (s.cache id)).map fun cache =>
          if cache.pc t = .idle then
            match cache.result t with
            | none => { s with failed := true }
            | some address =>
                { (s.setCache id cache).goto t .idle with live := ⟨address, size, .cache id⟩ :: s.live }
          else s.setCache id cache
  | .freeing id =>
      (Slab.step id.config (t, .run (block + hhdm)) (s.cache id)).map fun cache =>
        if cache.pc t = .idle then (s.setCache id cache).goto t .idle else s.setCache id cache

-- Blocks are freed with the size they were allocated with.
def step (action : T × Move n) (s : State n T) : Option (State n T) :=
  match action.2 with
  | .alloc cpu size block => if s.pc action.1 = .idle ∧ size < 2 ^ 64 then heapAlloc hhdm s action.1 cpu size block else none
  | .free cpu address size =>
      if s.pc action.1 = .idle then
        (s.live.find? fun block => block.address = address ∧ block.size = size).map (heapFree hhdm s action.1 cpu)
      else none
  | .write id address word => (Slab.step id.config (action.1, .write address word) (s.cache id)).map (s.setCache id)
  | .run block => runCall hhdm s action.1 block (s.pc action.1)
  | .take order block => if Promised hhdm s order block then some { s with outside := (block, order) :: s.outside } else none
  | .give order block => if (block, order) ∈ s.outside then some { s with outside := s.outside.erase (block, order) } else none

-- The blocks the page allocator has handed out, and who has them.
inductive Holder where
  | cache (id : CacheId)
  | pages
  | outside

def Holds (s : State n T) (base bytes : Nat) : Holder → Prop
  | .cache id => base ∈ (s.cache id).slabs ∧ bytes = id.config.bytes
  | .pages => ∃ p ∈ s.pages, base = p.1 + hhdm ∧ bytes = orderBytes p.2
  | .outside => ∃ p ∈ s.outside, base = p.1 + hhdm ∧ bytes = orderBytes p.2

-- init_slab_cache has made the caches.
structure initial (s : State n T) : Prop where
  caches : ∀ id, Slab.initial id.config (s.cache id)
  apart : ∀ h h' base base' bytes bytes', Holds hhdm s base bytes h → Holds hhdm s base' bytes' h' →
    (h = h' ∧ base = base') ∨ Apart base bytes base' bytes'
  pages : s.pages = []
  pcs : ∀ t, s.pc t = .idle
  live : s.live = []
  asserted : s.failed = false

-- Where heap_free brings a block of some size.
def Returns (s : State n T) (block : Block) : Origin → Prop
  | .cache id => block.size ≤ Family.largest .other ∧ findCache block.size = some id ∧ (s.cache id).held block.address = true
  | .pages order => block.size > Family.largest .other ∧ (block.address - hhdm, order) ∈ s.pages

structure Sound (s : State n T) : Prop where
  disjoint : s.live.Pairwise fun block block' => Apart block.address block.size block'.address block'.size
  headers : ∀ block ∈ s.live, ∀ id, ∀ slab ∈ (s.cache id).slabs, Apart block.address block.size slab Slab.slabHeader
  outside : ∀ block ∈ s.live, ∀ p ∈ s.outside, Apart block.address block.size (p.1 + hhdm) (orderBytes p.2)
  returns : ∀ block ∈ s.live, Returns hhdm s block block.origin
  provided : ∀ t id size block, s.pc t = .allocating id size → Slab.asks (s.cache id) t → Promised hhdm s id.family.order block →
    (step hhdm (t, .run block) s).isSome = true
  asserted : s.failed = false

end Model

end Elysium.Heap
