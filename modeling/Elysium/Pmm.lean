import Elysium.Machine

set_option autoImplicit false

namespace Elysium.Pmm

def pmmMaxOrder : Nat := 7

def orderToPagecount (order : Nat) : Nat := 1 <<< order

def flagZero : Nat := 1 <<< 0
def flagZoneLow : Nat := 1 <<< 1

-- pmm_block_t without its list node: membership of a free list is recorded by
-- the list itself. order and max_order are three bits wide, free is one.
structure Block where
  order : Nat
  maxOrder : Nat
  free : Bool
deriving DecidableEq, Repr

inductive ZoneId where
  | low
  | normal
deriving DecidableEq, Repr

structure Zone where
  start : Nat
  limit : Nat
  totalPageCount : Nat
  freePageCount : Nat
  lists : Nat → List Nat

-- A page is named by its index in g_page_db, a block by its first page. Zone
-- locks are left out: every operation below runs to its end before the next.
structure State where
  zone : ZoneId → Zone
  pageDb : Nat → Block
  memory : Nat → UInt8

def bootZone : ZoneId → Zone
  | .low => ⟨pageGranularity, memLowSize, 0, 0, fun _ => []⟩
  | .normal => ⟨memLowSize, (2 ^ 64 - 1) / pageGranularity * pageGranularity, 0, 0, fun _ => []⟩

def blockPaddr (block : Nat) : Nat := block * pageGranularity
def page (paddr : Nat) : Nat := paddr / pageGranularity

namespace State

def setBlock (s : State) (block : Nat) (value : Block) : State :=
  { s with pageDb := Function.update s.pageDb block value }

def setZone (s : State) (z : ZoneId) (value : Zone) : State := { s with zone := Function.update s.zone z value }

def setList (s : State) (z : ZoneId) (order : Nat) (list : List Nat) : State :=
  s.setZone z { s.zone z with lists := Function.update (s.zone z).lists order list }

def listPush (s : State) (z : ZoneId) (order block : Nat) : State :=
  s.setList z order (block :: (s.zone z).lists order)

end State

def memClear (memory : Nat → UInt8) (start count : Nat) : Nat → UInt8 :=
  fun address => if start ≤ address ∧ address < start + count then 0 else memory address

-- __builtin_clzll, for a non-zero 64-bit argument.
def clzll (value : Nat) : Nat := 63 - Nat.log2 value

def pagecountToOrder (pages : Nat) : Nat := if pages = 1 then 0 else 64 - clzll (sub64 pages 1)

-- while(PMM_ORDER_TO_PAGECOUNT(order) > remaining) { ASSERT(order != 0); order--; }
def fitOrder (remaining : Nat) : Nat → Except Fault Nat
  | 0 => if orderToPagecount 0 > remaining then .error .assertion else .ok 0
  | order + 1 => if orderToPagecount (order + 1) > remaining then fitOrder remaining order else .ok (order + 1)

-- while((address & (block size - 1)) != 0) { ASSERT(order != 0); order--; }
def alignOrder (address : Nat) : Nat → Except Fault Nat
  | 0 => if address &&& (orderToPagecount 0 * pageGranularity - 1) ≠ 0 then .error .assertion else .ok 0
  | order + 1 =>
      if address &&& (orderToPagecount (order + 1) * pageGranularity - 1) ≠ 0 then alignOrder address order
      else .ok (order + 1)

def blockOrder (localBase pageCount j : Nat) : Except Fault Nat := do
  let approximate := pagecountToOrder (pageCount - j)
  let capped := if approximate > pmmMaxOrder then pmmMaxOrder else approximate
  let fitting ← fitOrder (pageCount - j) capped
  alignOrder (localBase + j * pageGranularity) fitting

def initPage (z : ZoneId) (order : Nat) (isFree : Bool) (s : State) (block : Nat) : State :=
  let s := s.setBlock block ⟨0, order, isFree⟩
  if isFree then s.listPush z order block else s

def initBlock (z : ZoneId) (order first : Nat) (isFree : Bool) (s : State) : State :=
  (List.range (orderToPagecount order)).foldl (fun s y => initPage z order isFree s (first + y)) s

-- The loop over j. A block has at least one page, so page_count rounds are
-- enough and the fuel is never used up.
def regionLoop (z : ZoneId) (localBase pageCount : Nat) (isFree : Bool) : Nat → Nat → State → Except Fault State
  | 0, j, s => if j < pageCount then .error .undefined else .ok s
  | fuel + 1, j, s =>
      if j < pageCount then do
        let order ← blockOrder localBase pageCount j
        let s := initBlock z order (localBase / pageGranularity + j) isFree s
        regionLoop z localBase pageCount isFree fuel (j + orderToPagecount order) s
      else .ok s

def zoneRegionAdd (base size : Nat) (isFree : Bool) (z : ZoneId) (s : State) : Except Fault State :=
  let zone := s.zone z
  if add64 base size ≤ zone.start ∨ base ≥ zone.limit then .ok s
  else
    let (localBase, localSize) :=
      if base < zone.start then (zone.start, sub64 size (sub64 zone.start base)) else (base, size)
    let localSize := if add64 localBase localSize > zone.limit then sub64 zone.limit localBase else localSize
    let pageCount := localSize / pageGranularity
    let s := s.setZone z { zone with totalPageCount := zone.totalPageCount + pageCount }
    regionLoop z localBase pageCount isFree pageCount 0 s

def pmmRegionAdd (base size : Nat) (isFree : Bool) (s : State) : Except Fault State := do
  let s ← zoneRegionAdd base size isFree .low s
  zoneRegionAdd base size isFree .normal s

-- The search for a non-empty list. The first argument counts the orders from
-- avl_order up to PMM_MAX_ORDER, so it is zero exactly when avl_order exceeds it.
def availableOrder (zone : Zone) : Nat → Nat → Except Fault Nat
  | 0, _ => .error (.panic "PMM" "out of memory")
  | left + 1, avlOrder =>
      if (zone.lists avlOrder).length = 0 then availableOrder zone left (avlOrder + 1) else .ok avlOrder

-- The splitting loop; the last argument is avl_order - order.
def splitLoop (z : ZoneId) (block order : Nat) : Nat → State → State
  | 0, s => s
  | surplus + 1, s =>
      let buddy := page (blockPaddr block + orderToPagecount (order + surplus) * pageGranularity)
      let s := s.setBlock buddy { s.pageDb buddy with order := order + surplus, free := true }
      splitLoop z block order surplus (s.listPush z (order + surplus) buddy)

def allocZone (flags : Nat) : ZoneId := if flags &&& flagZoneLow ≠ 0 then .low else .normal

def pmmAlloc (order flags : Nat) (s : State) : Except Fault (State × Nat) := do
  assertThat (order ≤ pmmMaxOrder)
  let z := allocZone flags
  let avlOrder ← availableOrder (s.zone z) (pmmMaxOrder + 1 - order) order
  match (s.zone z).lists avlOrder with
  | [] => .error .undefined
  | block :: rest =>
      let s := s.setList z avlOrder rest
      let s := splitLoop z block order (avlOrder - order) s
      let s := s.setBlock block { s.pageDb block with order := order, free := false }
      let s := s.setZone z
        { s.zone z with freePageCount := (s.zone z).freePageCount - orderToPagecount order }
      let s :=
        if flags &&& flagZero ≠ 0 then
          { s with memory := memClear s.memory (blockPaddr block) (orderToPagecount order * pageGranularity) }
        else s
      .ok (s, block)

def pmmAllocPages (pageCount flags : Nat) (s : State) : Except Fault (State × Nat) :=
  pmmAlloc (pagecountToOrder pageCount) flags s

def pmmAllocPage (flags : Nat) (s : State) : Except Fault (State × Nat) := pmmAlloc 0 flags s

def freeZone (block : Nat) : ZoneId :=
  if blockPaddr block &&& (2 ^ 64 - 1 - memLowMask) > 0 then .normal else .low

-- list_node_delete of the buddy, then buddy->order++ and block->order++.
def mergeBlocks (z : ZoneId) (order block buddy : Nat) (s : State) : State :=
  let s := s.setList z order (((s.zone z).lists order).erase buddy)
  let s := s.setBlock buddy { s.pageDb buddy with order := ((s.pageDb buddy).order + 1) % 8 }
  s.setBlock block { s.pageDb block with order := ((s.pageDb block).order + 1) % 8 }

-- The merging loop. Unlinking a node from a list it is not on corrupts the list,
-- so that is `undefined`. Every round raises the three-bit order, hence the fuel.
def mergeLoop (z : ZoneId) : Nat → Nat → State → Except Fault (State × Nat)
  | 0, _, _ => .error .undefined
  | fuel + 1, block, s =>
      let own := s.pageDb block
      if own.order < own.maxOrder then
        let buddy := page (blockPaddr block ^^^ orderToPagecount own.order * pageGranularity)
        let other := s.pageDb buddy
        if !other.free || other.order = other.maxOrder || other.order ≠ own.order then .ok (s, block)
        else if buddy ∈ (s.zone z).lists own.order then
          mergeLoop z fuel (if blockPaddr buddy < blockPaddr block then buddy else block)
            (mergeBlocks z own.order block buddy s)
        else .error .undefined
      else .ok (s, block)

def pmmFree (block : Nat) (s : State) : Except Fault State := do
  let z := freeZone block
  let s := s.setZone z
    { s.zone z with freePageCount := (s.zone z).freePageCount + orderToPagecount (s.pageDb block).order }
  let s := s.setBlock block { s.pageDb block with free := true }
  let (s, block) ← mergeLoop z (pmmMaxOrder + 1) block s
  .ok (s.listPush z (s.pageDb block).order block)

end Elysium.Pmm
