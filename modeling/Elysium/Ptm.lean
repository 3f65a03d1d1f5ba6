import Elysium.Vm

set_option autoImplicit false

namespace Elysium.Ptm

open Vm (Protection Cache Privilege kernelspaceStart)

abbrev Entry := BitVec 64

def vaddrToIndex (vaddr level : Nat) : Nat := vaddr >>> (level * 9 + 3) &&& 0x1FF
def indexToVaddr (index level : Nat) : Nat := index <<< (level * 9 + 3)
def levelToPagesize (level : Nat) : Nat := 1 <<< (12 + 9 * (level - 1))

def levelCount : Nat := 4

inductive PageSize where
  | size4K
  | size2M
  | size1G
deriving DecidableEq, Repr

def PageSize.bytes : PageSize → Nat
  | .size4K => 0x1000
  | .size2M => 0x200000
  | .size1G => 0x40000000

def entryFlagPresent : Entry := 1#64 <<< 0
def entryFlagRw : Entry := 1#64 <<< 1
def entryFlagUser : Entry := 1#64 <<< 2
def entryFlagWritethrough : Entry := 1#64 <<< 3
def entryFlagDisablecache : Entry := 1#64 <<< 4
def entryFlagGlobal : Entry := 1#64 <<< 8
def entryFlagNx : Entry := 1#64 <<< 63

def entrylFlagPat : Entry := 1#64 <<< 7
def entrylAddressMask : Entry := 0x000FFFFFFFFFF000#64

def entryhFlagPs : Entry := 1#64 <<< 7
def entryhFlagPat : Entry := 1#64 <<< 12
def entryhAddressMask : Entry := 0x000FFFFFFFFF0000#64

def entryFlagPat (pageSize : PageSize) : Entry := if pageSize = .size4K then entrylFlagPat else entryhFlagPat
def entryAddressMask (pageSize : PageSize) : Entry := if pageSize = .size4K then entrylAddressMask else entryhAddressMask

def pat0 : Entry := 0
def pat3 : Entry := entryFlagDisablecache ||| entryFlagWritethrough
def pat6 (patFlag : Entry) : Entry := patFlag ||| entryFlagDisablecache

-- memory is physical memory by words: a table reached through HHDM(p) is named by
-- p. frames are the pages earlymem_alloc_page or pmm_alloc_page is going to hand
-- out, one after the other. Locks and the TLB are left out.
structure State where
  memory : Nat → Entry
  hhdmOffset : Nat
  hhdmHigh : kernelspaceStart ≤ hhdmOffset
  earlymemActive : Bool
  frames : List Nat

namespace State

def load (s : State) (table index : Nat) : Entry := s.memory (table + 8 * index)

def store (s : State) (table index : Nat) (entry : Entry) : State :=
  { s with memory := Function.update s.memory (table + 8 * index) entry }

-- A store through a pointer that is not known to come from HHDM. Nothing else is
-- mapped as far as this layer knows.
def storeAt (s : State) (pointer : Nat) (entry : Entry) : Except Fault State :=
  if s.hhdmOffset ≤ pointer then .ok (s.store (pointer - s.hhdmOffset) 0 entry) else .error .undefined

end State

def memClear (memory : Nat → Entry) (start count : Nat) : Nat → Entry :=
  fun address => if start ≤ address ∧ address < start + count then 0 else memory address

def memCopy (memory : Nat → Entry) (dest source count : Nat) : Nat → Entry :=
  fun address => if dest ≤ address ∧ address < dest + count then memory (source + (address - dest)) else memory address

def allocPage (s : State) : Except Fault (State × Nat) :=
  match s.frames with
  | [] => .error (.panic (if s.earlymemActive then "EARLY_MM" else "PMM") "out of memory")
  | frame :: rest => .ok ({ s with memory := memClear s.memory frame pageGranularity, frames := rest }, frame)

def privilegeToX86Flags (privilege : Privilege) : Entry :=
  match privilege with
  | .kernel => 0
  | .user => entryFlagUser

def cacheToX86Flags (cache : Cache) (pageSize : PageSize) : Entry :=
  match cache with
  | .standard => pat0
  | .writeCombine => pat6 (entryFlagPat pageSize)
  | .none => pat3

-- The loop over the new table: i goes up by ARCH_PAGE_GRANULARITY and indexes
-- eight byte entries.
def fillTable (newTable : Nat) (newEntry address : Entry) (s : State) : Except Fault State :=
  (List.range 512).foldlM (fun s k => s.storeAt (newTable + 8 * (k * pageGranularity))
    (newEntry ||| (address + BitVec.ofNat 64 (k * pageGranularity)))) s

def breakBig (table index currentLevel : Nat) (s : State) : Except Fault (State × Entry) := do
  assertThat (currentLevel > 0)
  let entry := s.load table index
  let address := entry &&& entryhAddressMask
  let pat := entry &&& entryhFlagPat ≠ 0
  let entry := entry &&& ~~~entrylAddressMask
  let newEntry :=
    if currentLevel - 1 = 0 then
      if pat then (entry &&& ~~~entrylFlagPat) ||| entrylFlagPat else entry &&& ~~~entrylFlagPat
    else entry ||| entryhFlagPat
  let (s, page) ← allocPage s
  let entry := entry ||| BitVec.ofNat 64 page
  let entry := if pat then entry ||| entrylFlagPat else entry
  -- new_table is the physical address of the page itself.
  let s ← fillTable (entry &&& entrylAddressMask).toNat newEntry address s
  .ok (s.store table index entry, entry)

def tableOf (entry : Entry) : Nat := (entry &&& entrylAddressMask).toNat

def freshEntry (page : Nat) (prot : Protection) : Entry :=
  let entry := entryFlagPresent ||| (BitVec.ofNat 64 page &&& entrylAddressMask)
  if !prot.exec then entry ||| entryFlagNx else entry

def openEntry (prot : Protection) (entry : Entry) : Entry := if prot.exec then entry &&& ~~~entryFlagNx else entry

def grantEntry (prot : Protection) (privilege : Privilege) (entry : Entry) : Entry :=
  (if prot.write then entry ||| entryFlagRw else entry) ||| privilegeToX86Flags privilege

-- One round of the loop over j: the entry of an upper level is made ready for the
-- page below it.
def passEntry (table index j : Nat) (prot : Protection) (privilege : Privilege) (s : State) : Except Fault (State × Entry) := do
  let entry := s.load table index
  let (s, entry) ←
    if entry &&& entryFlagPresent = 0 then do
      let (s, page) ← allocPage s
      .ok (s, freshEntry page prot)
    else do
      let (s, entry) ← if entry &&& entryhFlagPs ≠ 0 then breakBig table index j s else .ok (s, entry)
      .ok (s, openEntry prot entry)
  let entry := grantEntry prot privilege entry
  .ok (s.store table index entry, entry)

def mapTables (vaddr lowestIndex : Nat) (prot : Protection) (privilege : Privilege) :
    Nat → Nat → State → Except Fault (State × Nat)
  | 0, table, s => .ok (s, table)
  | j + 1, table, s =>
      if j + 1 > lowestIndex then do
        let (s, entry) ← passEntry table (vaddrToIndex vaddr (j + 1)) (j + 1) prot privilege s
        mapTables vaddr lowestIndex prot privilege j (tableOf entry) s
      else .ok (s, table)

def lowestIndex : PageSize → Nat
  | .size4K => 1
  | .size2M => 2
  | .size1G => 3

def leafEntry (paddr : Nat) (pageSize : PageSize) (prot : Protection) (cache : Cache) (privilege : Privilege)
    (isGlobal : Bool) : Entry :=
  let entry := entryFlagPresent ||| (BitVec.ofNat 64 paddr &&& entryAddressMask pageSize) |||
    privilegeToX86Flags privilege ||| cacheToX86Flags cache pageSize
  let entry := if pageSize ≠ .size4K then entry ||| entryhFlagPs else entry
  let entry := if prot.write then entry ||| entryFlagRw else entry
  let entry := if !prot.exec then entry ||| entryFlagNx else entry
  if isGlobal then entry ||| entryFlagGlobal else entry

def mapPage (pml4 vaddr paddr : Nat) (pageSize : PageSize) (prot : Protection) (cache : Cache) (privilege : Privilege)
    (isGlobal : Bool) (s : State) : Except Fault State := do
  let (s, table) ← mapTables vaddr (lowestIndex pageSize) prot privilege levelCount pml4 s
  .ok (s.store table (vaddrToIndex vaddr (lowestIndex pageSize)) (leafEntry paddr pageSize prot cache privilege isGlobal))

-- g_x86_64_cpu_pdpe1gb_support is never cleared.
def cursize (vaddr paddr remaining : Nat) : PageSize :=
  if paddr % PageSize.size1G.bytes = 0 ∧ vaddr % PageSize.size1G.bytes = 0 ∧ remaining ≥ PageSize.size1G.bytes then .size1G
  else if paddr % PageSize.size2M.bytes = 0 ∧ vaddr % PageSize.size2M.bytes = 0 ∧ remaining ≥ PageSize.size2M.bytes then .size2M
  else .size4K

-- Every round moves i at least one page up.
def mapLoop (ptTop vaddr paddr length : Nat) (prot : Protection) (cache : Cache) (privilege : Privilege) (isGlobal : Bool) :
    Nat → Nat → State → Except Fault State
  | 0, i, s => if i < length then .error .diverges else .ok s
  | fuel + 1, i, s =>
      if i < length then do
        let size := cursize vaddr paddr (length - i)
        let s ← mapPage ptTop (add64 vaddr i) (add64 paddr i) size prot cache privilege isGlobal s
        mapLoop ptTop vaddr paddr length prot cache privilege isGlobal fuel (i + size.bytes) s
      else .ok s

def archPtmMap (ptTop vaddr paddr length : Nat) (prot : Protection) (cache : Cache) (privilege : Privilege) (isGlobal : Bool)
    (s : State) : Except Fault State := do
  assertThat (vaddr % pageGranularity = 0)
  assertThat (paddr % pageGranularity = 0)
  assertThat (length % pageGranularity = 0)
  mapLoop ptTop vaddr paddr length prot cache privilege isGlobal (length / pageGranularity) 0 s

-- The loops of arch_ptm_rewrite and arch_ptm_unmap. A round is given the address
-- and what is left of the range, and says at which level it ended.
def rangeLoop (round : Nat → Nat → State → Except Fault (State × Nat)) (vaddr length : Nat) :
    Nat → Nat → State → Except Fault State
  | 0, i, s => if i < length then .error .diverges else .ok s
  | fuel + 1, i, s =>
      if i < length then do
        let (s, j) ← round (add64 vaddr i) (length - i) s
        rangeLoop round vaddr length fuel (i + levelToPagesize j) s
      else .ok s

def MustBreak (vaddr remaining index j : Nat) : Prop := indexToVaddr index j < vaddr ∨ levelToPagesize j > remaining

instance (vaddr remaining index j : Nat) : Decidable (MustBreak vaddr remaining index j) := inferInstanceAs (Decidable (_ ∨ _))

def rewritePassed (prot : Protection) (entry : Entry) : Entry :=
  let entry := if prot.write then entry ||| entryFlagRw else entry
  if prot.exec then entry &&& ~~~entryFlagNx else entry

def rewriteLeaf (prot : Protection) (cache : Cache) (privilege : Privilege) (isGlobal : Bool) (j : Nat) (entry : Entry) : Entry :=
  let entry := entry ||| privilegeToX86Flags privilege |||
    cacheToX86Flags cache (if j = 0 then .size4K else if j = 1 then .size2M else .size1G)
  let entry := if prot.write then entry ||| entryFlagRw else entry &&& ~~~entryFlagRw
  let entry := if !prot.exec then entry ||| entryFlagNx else entry &&& ~~~entryFlagNx
  if isGlobal then entry ||| entryFlagGlobal else entry &&& ~~~entryFlagGlobal

-- The loop over j and what follows it. The second argument is current_table.
def rewriteRound (prot : Protection) (cache : Cache) (privilege : Privilege) (isGlobal : Bool) (vaddr remaining : Nat) :
    Nat → Nat → State → Except Fault (State × Nat)
  | 0, _, _ => .error .undefined
  | 1, table, s =>
      let index := vaddrToIndex vaddr 1
      .ok (s.store table index (rewriteLeaf prot cache privilege isGlobal 1 (s.load table index)), 1)
  | j + 2, table, s =>
      let index := vaddrToIndex vaddr (j + 2)
      let entry := s.load table index
      if entry &&& entryFlagPresent = 0 then .ok (s, j + 2)
      else if entry &&& entryhFlagPs ≠ 0 then do
        assertThat (j + 2 ≤ 3)
        if MustBreak vaddr remaining index (j + 2) then do
          let (s, entry) ← breakBig table index (j + 2) s
          let s := s.store table index (rewritePassed prot entry)
          rewriteRound prot cache privilege isGlobal vaddr remaining (j + 1) (tableOf (s.load table index)) s
        else .ok (s.store table index (rewriteLeaf prot cache privilege isGlobal (j + 2) entry), j + 2)
      else
        let s := s.store table index (rewritePassed prot entry)
        rewriteRound prot cache privilege isGlobal vaddr remaining (j + 1) (tableOf (s.load table index)) s

def archPtmRewrite (ptTop vaddr length : Nat) (prot : Protection) (cache : Cache) (privilege : Privilege) (isGlobal : Bool)
    (s : State) : Except Fault State := do
  assertThat (vaddr % pageGranularity = 0)
  assertThat (length % pageGranularity = 0)
  rangeLoop (fun vaddr remaining => rewriteRound prot cache privilege isGlobal vaddr remaining levelCount ptTop) vaddr length
    (length / pageGranularity) 0 s

def unmapRound (vaddr remaining : Nat) : Nat → Nat → State → Except Fault (State × Nat)
  | 0, _, _ => .error .undefined
  | 1, table, s => .ok (s.store table (vaddrToIndex vaddr 1) 0, 1)
  | j + 2, table, s =>
      let index := vaddrToIndex vaddr (j + 2)
      let entry := s.load table index
      if entry &&& entryFlagPresent = 0 then .ok (s, j + 2)
      else if entry &&& entryhFlagPs ≠ 0 then do
        assertThat (j + 2 ≤ 3)
        if MustBreak vaddr remaining index (j + 2) then do
          let (s, entry) ← breakBig table index (j + 2) s
          unmapRound vaddr remaining (j + 1) (tableOf entry) s
        else .ok (s.store table index 0, j + 2)
      else unmapRound vaddr remaining (j + 1) (tableOf entry) s

def archPtmUnmap (ptTop vaddr length : Nat) (s : State) : Except Fault State := do
  assertThat (vaddr % pageGranularity = 0)
  assertThat (length % pageGranularity = 0)
  rangeLoop (fun vaddr remaining => unmapRound vaddr remaining levelCount ptTop) vaddr length (length / pageGranularity) 0 s

-- The upper half of the global table, as the ptm init target fills it.
def shareSlot (pml4 : Nat) (s : State) (i : Nat) : Except Fault State := do
  let (s, page) ← allocPage s
  .ok (s.store pml4 i (entryFlagPresent ||| entryFlagRw ||| (BitVec.ofNat 64 page &&& entrylAddressMask)))

def ptmInit (pml4 : Nat) (s : State) : Except Fault State := (List.range' 256 256).foldlM (shareSlot pml4) s

-- An address space is named by its pt_top.
def ptmInitTarget (s : State) : Except Fault (State × Nat) := do
  let (s, ptTop) ← allocPage s
  let s ← ptmInit ptTop s
  .ok (s, ptTop)

def archPtmAddressSpaceCreate (globalTop : Nat) (s : State) : Except Fault (State × Nat) := do
  let (s, ptTop) ← allocPage s
  .ok ({ s with memory := memCopy s.memory (ptTop + 256 * 8) (globalTop + 256 * 8) (256 * 8) }, ptTop)

end Elysium.Ptm
