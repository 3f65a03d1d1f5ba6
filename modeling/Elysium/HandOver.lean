import Elysium.EarlymemRuns
import Elysium.PmmAddFree
import Elysium.Transitions

set_option autoImplicit false

namespace Elysium.HandOver

open Earlymem (earlymemAllocPage earlymemAlloc earlymemRegionAdd)
open Pmm (Run pmmAlloc pmmAllocPage pmmFree pmmRegionAdd pmmMaxOrder)
open Transitions (Reachable)

-- tartarus_mm_entry_t.
inductive MmType where
  | usable
  | bootloaderReclaimable
  | efiReclaimable
  | acpiReclaimable
  | acpiNvs
  | reserved
  | bad
deriving DecidableEq, Repr

structure Entry where
  base : Nat
  length : Nat
  type : MmType

-- The two allocators of page frames with what they have given out: the frames of the page tables, and the blocks
-- of pmm_alloc that have not been freed since.
structure System where
  early : Earlymem.State
  pmm : Pmm.State
  frames : List Nat
  blocks : List Run

-- g_earlymem_active. Nothing writes it.
def earlymemActive : Bool := true

-- alloc_page of the page tables.
def allocPage (s : System) : Except Fault (Nat × System) :=
  if earlymemActive then do
    let (address, early) ← earlymemAllocPage s.early
    .ok (address, { s with early := early, pmm := { s.pmm with memory := Pmm.memClear s.pmm.memory address pageGranularity } })
  else do
    let (pmm, block) ← pmmAllocPage Pmm.flagZero s.pmm
    .ok (Pmm.blockPaddr block, { s with pmm := pmm })

section Init

-- The loop of init that sets up early memory. `stale` is what the memory of an entry holds before.
def initEarly (stale : Entry → Nat → BitVec 8) : List Entry → Earlymem.State → Except Fault Earlymem.State
  | [], s => .ok s
  | entry :: rest, s => do
      assertThat (∀ other ∈ rest, entry.base ≥ add64 other.base other.length ∨ other.base ≥ add64 entry.base entry.length)
      if entry.type = .usable then do
        assertThat (entry.base % pageGranularity = 0 ∧ entry.length % pageGranularity = 0)
        initEarly stale rest (earlymemRegionAdd (stale entry) entry.base entry.length s)
      else initEarly stale rest s

def MmType.added : MmType → Bool
  | .usable | .bootloaderReclaimable | .efiReclaimable | .acpiReclaimable => true
  | .acpiNvs | .reserved | .bad => false

def addEntries : List Entry → Pmm.State → Except Fault Pmm.State
  | [], s => .ok s
  | entry :: rest, s => do
      let s ← if entry.type.added then pmmRegionAdd entry.base entry.length false s else .ok s
      addEntries rest s

def earlymemRegionIsfree (region : Earlymem.Region) (offset : Nat) : Except Fault Bool := do
  assertThat (offset < region.length)
  .ok (!region.isSet (offset / pageGranularity))

-- The loop over the pages of a region, at an offset with so many pages to go.
def releasePages (region : Earlymem.Region) : Nat → Nat → Pmm.State → Except Fault Pmm.State
  | 0, _, s => .ok s
  | left + 1, offset, s => do
      let isFree ← earlymemRegionIsfree region offset
      let s ← if isFree then pmmFree (Pmm.page (add64 region.base offset)) s else .ok s
      releasePages region left (offset + pageGranularity) s

def releaseRegions : List Earlymem.Region → Pmm.State → Except Fault Pmm.State
  | [], s => .ok s
  | region :: rest, s => do
      let s ← releasePages region (Earlymem.divCeil region.length pageGranularity) 0 s
      releaseRegions rest s

-- What init does to hand the memory over.
def handOver (map : List Entry) (early : Earlymem.State) (s : Pmm.State) : Except Fault Pmm.State := do
  let s ← addEntries map s
  releaseRegions early.regions s

end Init

section Runs

def takeFrame (s : System) : Option System :=
  match allocPage s with
  | .error _ => none
  | .ok (address, s) => some { s with frames := address :: s.frames }

theorem take_frame_ok {s s' : System} (taken : takeFrame s = some s') :
    ∃ address early, earlymemAllocPage s.early = .ok (address, early) ∧
      s' = ⟨early, { s.pmm with memory := Pmm.memClear s.pmm.memory address pageGranularity }, address :: s.frames, s.blocks⟩ := by
  rw [takeFrame, allocPage, if_pos (show earlymemActive = true from rfl)] at taken
  cases ran : earlymemAllocPage s.early with
  | error fault =>
      rw [ran] at taken
      cases taken
  | ok result =>
      rw [ran] at taken
      exact ⟨result.1, result.2, rfl, (Option.some.inj taken).symm⟩

-- Before the hand-over: a frame of a page table, a page of the page database, a block of early memory.
inductive BootAct where
  | frame
  | page
  | block (size : Nat)

def bootStep : BootAct → System → Option System
  | .frame, s => takeFrame s
  | .page, s =>
    match earlymemAllocPage s.early with
    | .error _ => none
    | .ok (_, early) => some { s with early := early }
  | .block size, s =>
    match earlymemAlloc size s.early with
    | .error _ => none
    | .ok (_, early) => some { s with early := early }

def BootStarts (map : List Entry) (s : System) : Prop :=
  (∃ stale, initEarly stale map Earlymem.bootState = .ok s.early) ∧ s.pmm.zone = Pmm.bootZone ∧ s.frames = [] ∧ s.blocks = []

-- After it.
inductive Act where
  | frame
  | alloc (order flags : Nat)
  | free (b : Run)

def step : Act → System → Option System
  | .frame, s => takeFrame s
  | .alloc order flags, s =>
    match pmmAlloc order flags s.pmm with
    | .error _ => none
    | .ok (pmm, h) => some { s with pmm := pmm, blocks := ⟨h, order, Pmm.allocZone flags⟩ :: s.blocks }
  | .free b, s =>
    if b ∈ s.blocks then
      match pmmFree b.head s.pmm with
      | .error _ => none
      | .ok pmm => some { s with pmm := pmm, blocks := s.blocks.erase b }
    else none

def Starts (map : List Entry) (s : System) : Prop :=
  ∃ boot pmm, Reachable (BootStarts map) bootStep boot ∧ handOver map boot.early boot.pmm = .ok pmm ∧ s = { boot with pmm := pmm }

-- Every page frame that is in use has been given out once.
structure OneOwner (s : System) : Prop where
  frames : (s.frames.map Pmm.page).Nodup
  blocks : s.blocks.Pairwise fun a b => ∀ p, ¬ (a.Covers p ∧ b.Covers p)
  apart : ∀ f ∈ s.frames, ∀ b ∈ s.blocks, ¬ b.Covers (Pmm.page f)

end Runs

-- What the boot loader promises, and that page 0, which lies in no zone, is not usable.
structure WellFormed (map : List Entry) : Prop where
  fits : ∀ entry ∈ map, entry.base + entry.length < 2 ^ 64
  aligned : ∀ entry ∈ map, entry.type.added = true → pageGranularity ∣ entry.base ∧ pageGranularity ∣ entry.length
  above : ∀ entry ∈ map, entry.type = .usable → 0 < entry.base

end Elysium.HandOver
