import Elysium.PtmUnmap

set_option autoImplicit false

namespace Elysium.Ptm

open Vm (protRW)

-- A store through any pointer: those from HHDM reach all of memory, the others what the lower
-- half of the address space in use has at their page.
def State.storeThrough (low : Nat → Option Nat) (s : State) (pointer : Nat) (entry : Entry) : Except Fault State :=
  if s.hhdmOffset ≤ pointer then .ok (s.store (pointer - s.hhdmOffset) 0 entry)
  else
    match low (pointer / pageGranularity) with
    | none => .error .undefined
    | some frame => .ok (s.store (frame * pageGranularity + pointer % pageGranularity) 0 entry)

def fillTableThrough (low : Nat → Option Nat) (newTable : Nat) (newEntry address : Entry) (s : State) : Except Fault State :=
  (List.range 512).foldlM (fun s k => s.storeThrough low (newTable + 8 * (k * pageGranularity))
    (newEntry ||| (address + BitVec.ofNat 64 (k * pageGranularity)))) s

-- break_big with some user pages mapped below it.
def breakBigThrough (low : Nat → Option Nat) (table index currentLevel : Nat) (s : State) : Except Fault (State × Entry) := do
  assertThat (currentLevel > 0)
  let entry := s.load table index
  let address := entry &&& entryhAddressMask
  let pat := entry &&& entryhFlagPat ≠ 0
  let entry := entry &&& ~~~entrylAddressMask
  let newEntry :=
    if currentLevel - 1 = 0 then
      if pat then (entry &&& ~~~entrylFlagPat) ||| entrylFlagPat else entry &&& ~~~entrylFlagPat
    else entry ||| entryhFlagPat
  let (s, page) ← allocPage s
  let entry := entry ||| BitVec.ofNat 64 page
  let entry := if pat then entry ||| entrylFlagPat else entry
  let s ← fillTableThrough low (entry &&& entrylAddressMask).toNat newEntry address s
  .ok (s.store table index entry, entry)

theorem break_big_through_none (table index level : Nat) (s : State) :
    breakBigThrough (fun _ => none) table index level s = breakBig table index level s := rfl

-- The same place in memory, the same permissions and the same memory type.
structure SameAccess (T T' : Translation) : Prop where
  physical : T'.physical = T.physical
  write : T'.write = T.write
  exec : T'.exec = T.exec
  user : T'.user = T.user
  cache : T'.cache = T.cache

-- What splitting the page at an entry is to leave.
structure Splits (top table index level page : Nat) (s s' : State) : Prop where
  descends : Descends level (s'.memory (table + 8 * index))
  points : tableOf (s'.memory (table + 8 * index)) = page
  filled : ∀ i < 512, Present (s'.memory (page + 8 * i))
  same : ∀ v T, Canonical v → Reaches s.memory top v level table → vaddrToIndex v level = index → walk s.memory top v = some T →
    ∃ T', walk s'.memory top v = some T' ∧ SameAccess T T'
  kept : ∀ address, address ≠ table + 8 * index → ¬ (page ≤ address ∧ address < page + pageGranularity) →
    s'.memory address = s.memory address

def BreaksWell (low : Nat → Option Nat) (top table index level : Nat) (s : State) : Prop :=
  ∃ s' entry page rest, s.frames = page :: rest ∧ breakBigThrough low table index level s = .ok (s', entry) ∧
    Splits top table index level page s s'

-- The page size bit is neither an address bit nor cleared.
theorem broken_entry_big {entry : Entry} (big : Big entry) (page : Nat) (pat : Bool) :
    Big (if pat then (entry &&& ~~~entrylAddressMask ||| BitVec.ofNat 64 page) ||| entrylFlagPat
      else entry &&& ~~~entrylAddressMask ||| BitVec.ofNat 64 page) := by
  have outside : (~~~entrylAddressMask).getLsbD 7 = true := by decide
  unfold Big at big ⊢
  rw [or_if_bit, BitVec.getLsbD_or, BitVec.getLsbD_and, big, outside]
  rfl

theorem break_big_stays_big {low : Nat → Option Nat} {table index level : Nat} {s s' : State} {entry : Entry}
    (big : Big (s.load table index)) (run : breakBigThrough low table index level s = .ok (s', entry)) :
    Big (s'.memory (table + 8 * index)) := by
  unfold breakBigThrough at run
  rw [bind_eq_ok] at run
  obtain ⟨_, _, run⟩ := run
  rw [bind_eq_ok] at run
  obtain ⟨⟨t, page⟩, _, run⟩ := run
  rw [bind_eq_ok] at run
  obtain ⟨u, _, run⟩ := run
  rw [Except.ok.injEq, Prod.mk.injEq] at run
  rw [← run.1, store_memory, Function.update_self]
  simpa only [decide_eq_true_eq] using
    broken_entry_big big page (decide (s.load table index &&& entryhFlagPat ≠ 0))

-- However the pointer to the new table is translated, the entry still maps a big page.
theorem break_big_never_splits (low : Nat → Option Nat) (top table index level : Nat) (s : State)
    (_present : Present (s.load table index)) (big : Big (s.load table index)) (_leaf : level = 2 ∨ level = 3) :
    ¬ BreaksWell low top table index level s := by
  rintro ⟨s', entry, page, rest, _, run, splits⟩
  exact splits.descends.2.2 (break_big_stays_big big run)

-- A page of 2M at 0x400000, whose entry is the second of the table at 0x3000.
def bigPage : State := returned (blankState [])
  (archPtmMap 0x1000 0x200000 0x400000 0x200000 protRW .standard .user false (blankState [0x2000, 0x3000, 0x4000]))

theorem big_page_built : Built 0x1000 bigPage :=
  .map (blankState [0x2000, 0x3000, 0x4000]) bigPage 0x200000 0x400000 0x200000 protRW .standard .user false
    (.blank _ blank_state_blank) rfl

theorem big_page_entry : Present (bigPage.load 0x3000 1) ∧ Big (bigPage.load 0x3000 1) := by decide

theorem break_big_never_splits_page : ¬ BreaksWell (fun _ => none) 0x1000 0x3000 1 2 bigPage :=
  break_big_never_splits _ 0x1000 0x3000 1 2 bigPage big_page_entry.1 big_page_entry.2 (.inl rfl)

-- Also where physical addresses are mapped to themselves.
theorem break_big_leaves_page : ¬ BreaksWell some 0x1000 0x3000 1 2 bigPage := by
  rintro ⟨s', entry, page, rest, _, run, splits⟩
  exact splits.descends.2.2 (break_big_stays_big big_page_entry.2 run)

end Elysium.Ptm
