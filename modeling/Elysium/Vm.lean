import Elysium.Pmm

set_option autoImplicit false

namespace Elysium.Vm

def flagFixed : Nat := 1 <<< 1
def flagDynamicallyBacked : Nat := 1 <<< 2
def flagZero : Nat := 1 <<< 10

structure Protection where
  read : Bool
  write : Bool
  exec : Bool
deriving DecidableEq, Repr

def protNone : Protection := ⟨false, false, false⟩
def protRW : Protection := ⟨true, true, false⟩

inductive Privilege where
  | kernel
  | user
deriving DecidableEq, Repr

inductive Cache where
  | standard
  | writeCombine
  | none
deriving DecidableEq, Repr

inductive RegionType where
  | anon
  | direct
deriving DecidableEq, Repr

-- The region type together with its arm of the type_data union.
inductive Backing where
  | anon (backZeroed : Bool)
  | direct (physicalAddress : Nat)
deriving DecidableEq, Repr

inductive SpaceId where
  | global
  | process (id : Nat)
deriving DecidableEq, Repr

structure Attributes where
  backing : Backing
  protection : Protection
  cacheBehavior : Cache
  dynamicallyBacked : Bool
deriving DecidableEq, Repr

-- id stands for the address of the structure, which is how the tree, the region
-- cache and a running call refer to it. Identities are never reused for another
-- structure, so two of them are equal exactly when the pointers are.
structure Region extends Attributes where
  id : Nat
  addressSpace : SpaceId
  base : Nat
  length : Nat
deriving DecidableEq, Repr

-- The regions tree is its in-order sequence. Locks are left out: every call below
-- runs to its end before the next one.
structure AddressSpace where
  regions : List Region
  start : Nat
  limit : Nat

def kernelspaceStart : Nat := 0xFFFF800000000000
def kernelspaceEnd : Nat := 2 ^ 64 - 1 - pageGranularity
def userspaceStart : Nat := pageGranularity
def userspaceEnd : Nat := (1 <<< 47) - pageGranularity - 1

inductive PtmCall where
  | map (space : SpaceId) (vaddr paddr length : Nat) (prot : Protection) (cache : Cache) (privilege : Privilege)
      (isGlobal : Bool)
  | rewrite (space : SpaceId) (vaddr length : Nat) (prot : Protection) (cache : Cache) (privilege : Privilege)
      (isGlobal : Bool)
  | unmap (space : SpaceId) (vaddr length : Nat)
deriving DecidableEq, Repr

-- cache is g_region_cache, nextRegion the first identity no pool page has used
-- yet, ptm the requests made to the page table layer, latest first.
structure State where
  space : SpaceId → AddressSpace
  cache : List Nat
  nextRegion : Nat
  pmm : Pmm.State
  ptm : List PtmCall

namespace State

def setRegions (s : State) (as : SpaceId) (regions : List Region) : State :=
  { s with space := Function.update s.space as { s.space as with regions := regions } }

def request (s : State) (call : PtmCall) : State := { s with ptm := call :: s.ptm }

def regionFree (s : State) (id : Nat) : State := { s with cache := id :: s.cache }

end State

def AddressInBounds (address start limit : Nat) : Prop := address ≥ start ∧ address < limit

def SegmentInBounds (base length start limit : Nat) : Prop :=
  AddressInBounds base start limit ∧ sub64 limit base ≥ length

instance (address start limit : Nat) : Decidable (AddressInBounds address start limit) :=
  inferInstanceAs (Decidable (_ ∧ _))

instance (base length start limit : Nat) : Decidable (SegmentInBounds base length start limit) :=
  inferInstanceAs (Decidable (_ ∧ _))

inductive SearchType where
  | nearestLt
  | nearestLte
  | nearestGt
  | nearestGte
deriving DecidableEq, Repr

def SearchType.admits (type : SearchType) (searchValue value : Nat) : Bool :=
  match type with
  | .nearestLt => value < searchValue
  | .nearestLte => value ≤ searchValue
  | .nearestGt => value > searchValue
  | .nearestGte => value ≥ searchValue

def SearchType.nearer (type : SearchType) (value nearest : Nat) : Bool :=
  match type with
  | .nearestLt | .nearestLte => value > nearest
  | .nearestGt | .nearestGte => value < nearest

def visit (type : SearchType) (searchValue : Nat) (nearest : Option Region) (current : Region) : Option Region :=
  if type.admits searchValue current.base then
    match nearest with
    | none => some current
    | some node => if type.nearer current.base node.base then some current else some node
  else nearest

def rbSearch (regions : List Region) (searchValue : Nat) (type : SearchType) : Option Region :=
  regions.foldl (visit type searchValue) none

-- An equal value goes to the right of the ones already there.
def rbInsert (region : Region) : List Region → List Region
  | [] => [region]
  | head :: rest => if region.base < head.base then region :: head :: rest else head :: rbInsert region rest

def rbRemove (id : Nat) (regions : List Region) : List Region := regions.filter fun region => region.id ≠ id

def setLength (id length : Nat) (regions : List Region) : List Region :=
  regions.map fun region => if region.id = id then { region with length := length } else region

def findRegion (space : AddressSpace) (address length : Nat) : Option Region :=
  match rbSearch space.regions (add64 address length) .nearestLt with
  | none => none
  | some region => if add64 region.base region.length > address then some region else none

-- The search from the start of the space. Every round moves past a region, so a
-- round for each region and one more are enough.
def findHoleLoop (space : AddressSpace) (length : Nat) : Nat → Nat → Except Fault (Option Nat)
  | 0, _ => .error .diverges
  | fuel + 1, address =>
      if ¬ SegmentInBounds address length space.start space.limit then .ok none
      else
        match findRegion space address length with
        | none => .ok (some address)
        | some region => findHoleLoop space length fuel (add64 region.base region.length)

def findHole (space : AddressSpace) (address length : Nat) : Except Fault (Option Nat) :=
  if SegmentInBounds address length space.start space.limit ∧ findRegion space address length = none then
    .ok (some address)
  else findHoleLoop space length (space.regions.length + 1) space.start

def privilegeOf (space : SpaceId) : Privilege := if space = .global then .kernel else .user

def pageFlags (region : Region) : Nat :=
  match region.backing with
  | .anon true => Pmm.flagZero
  | _ => 0

def mapAnonPage (region : Region) (address : Nat) (s : State) (i : Nat) : Except Fault State := do
  let (pmm, page) ← Pmm.pmmAllocPage (pageFlags region) s.pmm
  .ok ({ s with pmm := pmm }.request (.map region.addressSpace (add64 address (i * pageGranularity)) (Pmm.blockPaddr page)
    pageGranularity region.protection region.cacheBehavior (privilegeOf region.addressSpace)
    (region.addressSpace = SpaceId.global)))

def regionMap (region : Region) (address length : Nat) (s : State) : Except Fault State := do
  assertThat (address % pageGranularity = 0 ∧ length % pageGranularity = 0)
  match region.backing with
  | .anon _ => (List.range (length / pageGranularity)).foldlM (mapAnonPage region address) s
  | .direct physicalAddress =>
      .ok (s.request (.map region.addressSpace address (add64 physicalAddress (sub64 address region.base)) length
        region.protection region.cacheBehavior (privilegeOf region.addressSpace) (region.addressSpace = SpaceId.global)))

def regionUnmap (region : Region) (address length : Nat) (s : State) : Except Fault State := do
  assertThat (address % pageGranularity = 0 ∧ length % pageGranularity = 0)
  assertThat (address ≥ region.base ∧ add64 address length ≤ add64 region.base region.length)
  .ok (s.request (.unmap region.addressSpace address length))

def backingMergeable (left right : Region) : Bool :=
  match left.backing, right.backing with
  | .anon leftZeroed, .anon rightZeroed => leftZeroed = rightZeroed
  | .direct leftAddress, .direct rightAddress =>
      SegmentInBounds leftAddress left.length 0 memPhysMax ∧ add64 leftAddress left.length = rightAddress
  | _, _ => false

def regionsMergeable (left right : Region) : Bool :=
  add64 left.base left.length = right.base && left.protection = right.protection &&
    left.cacheBehavior = right.cacheBehavior && left.dynamicallyBacked = right.dynamicallyBacked &&
    backingMergeable left right

def mergeRight (as : SpaceId) (region : Region) (s : State) : State × Region :=
  match rbSearch (s.space as).regions region.base .nearestGt with
  | none => (s, region)
  | some right =>
      if regionsMergeable region right then
        ((s.setRegions as (rbRemove right.id (s.space as).regions)).regionFree right.id,
          { region with length := add64 region.length right.length })
      else (s, region)

def mergeLeft (as : SpaceId) (region : Region) (s : State) : State × Region :=
  match rbSearch (s.space as).regions region.base .nearestLt with
  | none => (s, region)
  | some left =>
      if regionsMergeable left region then
        let grown := add64 left.length region.length
        ((s.setRegions as (rbRemove region.id (setLength left.id grown (s.space as).regions))).regionFree region.id,
          { left with length := grown })
      else (s, region)

def regionInsert (as : SpaceId) (region : Region) (s : State) : State × Region :=
  let (s, region) := mergeRight as region s
  mergeLeft as region (s.setRegions as (rbInsert region (s.space as).regions))

-- sizeof(vm_region_t) is 96.
def regionsPerPage : Nat := pageGranularity / 96

def poolRegion (id address : Nat) : Region where
  id := id
  addressSpace := .global
  base := address
  length := pageGranularity
  backing := .anon false
  protection := protRW
  cacheBehavior := .standard
  dynamicallyBacked := false

-- A fresh pool page: its first slot describes the page itself, the others are
-- pushed to the region cache one after the other.
def refillCache (s : State) : Except Fault State := do
  let (pmm, page) ← Pmm.pmmAllocPage Pmm.flagZero s.pmm
  match ← findHole (s.space .global) 0 pageGranularity with
  | none => .error (.panic "VM" "out of global address space")
  | some address =>
      let first := s.nextRegion
      let s := { s with pmm := pmm, nextRegion := first + regionsPerPage }.request
        (.map .global address (Pmm.blockPaddr page) pageGranularity protRW .standard .kernel true)
      let (s, _) := regionInsert .global (poolRegion first address) s
      .ok { s with cache := ((List.range' 1 (regionsPerPage - 1)).map (first + ·)).reverse ++ s.cache }

def regionAlloc (s : State) : Except Fault (State × Nat) := do
  let s ← if s.cache.length = 0 then refillCache s else .ok s
  match s.cache with
  | [] => .error .undefined
  | id :: rest => .ok ({ s with cache := rest }, id)

-- A region of the tree of a running call, read through its address.
def getRegion (as : SpaceId) (id : Nat) (s : State) : Except Fault Region :=
  match (s.space as).regions.find? fun region => region.id = id with
  | none => .error .stale
  | some region => .ok region

def cloneBacking (base : Nat) (source : Region) : Except Fault Backing :=
  match source.backing with
  | .anon backZeroed => .ok (.anon backZeroed)
  | .direct physicalAddress =>
      if base > source.base then do
        assertThat (2 ^ 64 - 1 - physicalAddress > base - source.base)
        .ok (.direct (physicalAddress + (base - source.base)))
      else do
        assertThat (physicalAddress > source.base - base)
        .ok (.direct (physicalAddress - (source.base - base)))

def cloneTo (as : SpaceId) (base length source : Nat) (s : State) : Except Fault (State × Region) := do
  let (s, id) ← regionAlloc s
  let source ← getRegion as source s
  let backing ← cloneBacking base source
  .ok (s, { source with id := id, backing := backing, base := base, length := length })

def insertClone (as : SpaceId) (base length source : Nat) (s : State) : Except Fault State := do
  let (s, region) ← cloneTo as base length source s
  .ok (s.setRegions as (rbInsert region (s.space as).regions))

-- rb_remove followed by region_free.
def dropRegion (as : SpaceId) (id : Nat) (s : State) : Except Fault State := do
  let region ← getRegion as id s
  .ok ((s.setRegions as (rbRemove region.id (s.space as).regions)).regionFree region.id)

inductive RewriteType where
  | delete
  | protection
  | cache
deriving DecidableEq, Repr

def alreadySet (type : RewriteType) (prot : Protection) (cache : Cache) (region : Region) : Bool :=
  match type with
  | .delete => false
  | .protection => region.protection = prot
  | .cache => region.cacheBehavior = cache

def setAttribute (type : RewriteType) (prot : Protection) (cache : Cache) (region : Region) : Region :=
  match type with
  | .delete => region
  | .protection => { region with protection := prot }
  | .cache => { region with cacheBehavior := cache }

def insertRewritten (as : SpaceId) (region : Region) (splitBase splitLength : Nat) (s : State) : State :=
  let (s, region) := regionInsert as region s
  s.request (.rewrite region.addressSpace splitBase splitLength region.protection region.cacheBehavior
    (privilegeOf region.addressSpace) (region.addressSpace = SpaceId.global))

def trimSplit (as : SpaceId) (split splitBase : Nat) (s : State) : Except Fault State := do
  let region ← getRegion as split s
  if splitBase > region.base then
    .ok (s.setRegions as (setLength split (sub64 splitBase region.base) (s.space as).regions))
  else dropRegion as split s

-- What the region that holds the start of the range loses: the part behind the
-- segment becomes a region of its own, the part before it stays.
def carveFirst (as : SpaceId) (split splitBase splitLength : Nat) (s : State) : Except Fault State := do
  let region ← getRegion as split s
  let s ←
    if add64 region.base region.length > add64 splitBase splitLength then
      insertClone as (add64 splitBase splitLength)
        (sub64 (add64 region.base region.length) (add64 splitBase splitLength)) split s
    else .ok s
  trimSplit as split splitBase s

def rewriteFirst (as : SpaceId) (address length : Nat) (type : RewriteType) (prot : Protection) (cache : Cache)
    (s : State) : Except Fault (State × Nat) :=
  match rbSearch (s.space as).regions address .nearestLte with
  | none => .ok (s, address)
  | some split =>
      if add64 split.base split.length > address then
        let available := sub64 (add64 split.base split.length) address
        let splitLength := if available > length then length else available
        let next := add64 address splitLength
        match type with
        | .delete => do
            let s ← regionUnmap split address splitLength s
            let s ← carveFirst as split.id address splitLength s
            .ok (s, next)
        | _ =>
            if alreadySet type prot cache split then .ok (s, next)
            else do
              let (s, region) ← cloneTo as address splitLength split.id s
              let s ← carveFirst as split.id address splitLength s
              .ok (insertRewritten as (setAttribute type prot cache region) address splitLength s, next)
      else .ok (s, address)

-- The same for a region the loop has found: it is cut at its start.
def carveNext (as : SpaceId) (split splitBase splitLength : Nat) (s : State) : Except Fault State := do
  let region ← getRegion as split s
  let s ←
    if region.length > splitLength then
      insertClone as (add64 splitBase splitLength) (sub64 region.length splitLength) split s
    else .ok s
  dropRegion as split s

-- One round of the loop for the region found. On the delete path split_base has
-- been jumped over, so the remainder would start at an indeterminate address.
def rewriteNext (as : SpaceId) (limit : Nat) (type : RewriteType) (prot : Protection) (cache : Cache) (split : Region)
    (s : State) : Except Fault State :=
  let available := sub64 limit split.base
  let splitLength := if available > split.length then split.length else available
  match type with
  | .delete => do
      let s ← regionUnmap split split.base splitLength s
      if split.length > splitLength then .error .undefined else dropRegion as split.id s
  | _ =>
      if alreadySet type prot cache split then .ok s
      else do
        let (s, region) ← cloneTo as split.base splitLength split.id s
        let s ← carveNext as split.id split.base splitLength s
        .ok (insertRewritten as (setAttribute type prot cache region) split.base splitLength s)

-- Every round moves current_address at least one page up.
def rewriteLoop (as : SpaceId) (limit : Nat) (type : RewriteType) (prot : Protection) (cache : Cache) :
    Nat → Nat → State → Except Fault State
  | 0, current, s => if current < limit then .error .diverges else .ok s
  | fuel + 1, current, s =>
      if current < limit then
        match rbSearch (s.space as).regions current .nearestGte with
        | none => .ok s
        | some split => do
            let s ← rewriteNext as limit type prot cache split s
            rewriteLoop as limit type prot cache fuel (add64 split.base split.length) s
      else .ok s

def rewriteCommon (as : SpaceId) (address length : Nat) (type : RewriteType) (prot : Protection) (cache : Cache)
    (s : State) : Except Fault State :=
  if length = 0 then .ok s
  else do
    assertThat (address % pageGranularity = 0 ∧ length % pageGranularity = 0)
    assertThat (SegmentInBounds address length (s.space as).start (s.space as).limit)
    let (s, current) ← rewriteFirst as address length type prot cache s
    rewriteLoop as (add64 address length) type prot cache (length / pageGranularity) current s

def nullptr : Nat := 0

def mapBacking (type : RegionType) (flags directPhysicalAddress : Nat) : Except Fault Backing :=
  match type with
  | .anon => .ok (.anon (flags &&& flagZero ≠ 0))
  | .direct => do
      assertThat (directPhysicalAddress % pageGranularity = 0)
      .ok (.direct directPhysicalAddress)

def roundHint (hint : Nat) : Nat :=
  if hint % pageGranularity ≠ 0 then add64 hint (pageGranularity - hint % pageGranularity) else hint

def describeRegion (as : SpaceId) (id address length : Nat) (prot : Protection) (cache : Cache) (flags : Nat)
    (backing : Backing) : Region where
  id := id
  addressSpace := as
  base := address
  length := length
  backing := backing
  protection := prot
  cacheBehavior := cache
  dynamicallyBacked := flags &&& flagDynamicallyBacked ≠ 0

def placeRegion (as : SpaceId) (address length : Nat) (prot : Protection) (cache : Cache) (flags : Nat) (type : RegionType)
    (directPhysicalAddress id : Nat) (s : State) : Except Fault (State × Nat) := do
  assertThat (SegmentInBounds address length (s.space as).start (s.space as).limit)
  assertThat (address % pageGranularity = 0 ∧ length % pageGranularity = 0)
  let backing ← mapBacking type flags directPhysicalAddress
  let region := describeRegion as id address length prot cache flags backing
  let s ← if region.dynamicallyBacked then .ok s else regionMap region region.base region.length s
  .ok ((regionInsert as region s).1, address)

def mapCommon (as : SpaceId) (hint length : Nat) (prot : Protection) (cache : Cache) (flags : Nat) (type : RegionType)
    (directPhysicalAddress : Nat) (s : State) : Except Fault (State × Nat) :=
  if length = 0 ∨ length % pageGranularity ≠ 0 then .ok (s, nullptr)
  else if hint % pageGranularity ≠ 0 ∧ flags &&& flagFixed ≠ 0 then .ok (s, nullptr)
  else do
    let (s, id) ← regionAlloc s
    match ← findHole (s.space as) (roundHint hint) length with
    | none => .ok (s.regionFree id, nullptr)
    | some address =>
        if hint ≠ address ∧ flags &&& flagFixed ≠ 0 then .ok (s.regionFree id, nullptr)
        else placeRegion as address length prot cache flags type directPhysicalAddress id s

def vmMapAnon (as : SpaceId) (hint length : Nat) (prot : Protection) (cache : Cache) (flags : Nat) (s : State) :
    Except Fault (State × Nat) := mapCommon as hint length prot cache flags .anon 0 s

def vmMapDirect (as : SpaceId) (hint length : Nat) (prot : Protection) (cache : Cache) (physicalAddress flags : Nat)
    (s : State) : Except Fault (State × Nat) := mapCommon as hint length prot cache flags .direct physicalAddress s

def vmUnmap (as : SpaceId) (address length : Nat) (s : State) : Except Fault State :=
  rewriteCommon as address length .delete protNone .standard s

def vmRewriteProt (as : SpaceId) (address length : Nat) (prot : Protection) (s : State) : Except Fault State :=
  rewriteCommon as address length .protection prot .standard s

def vmRewriteCache (as : SpaceId) (address length : Nat) (cache : Cache) (s : State) : Except Fault State :=
  rewriteCommon as address length .cache protNone cache s

end Elysium.Vm
