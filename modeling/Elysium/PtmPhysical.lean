import Elysium.PtmMapExact
import Elysium.PtmUnmap

set_option autoImplicit false

namespace Elysium.Ptm

open Vm (Protection Cache Privilege)

-- The loop of arch_ptm_physical: the table and the level it ends at, or none where it returns
-- false.
def physicalTables (memory : Nat → Entry) (vaddr : Nat) : Nat → Nat → Option (Nat × Nat)
  | 0, _ => none
  | 1, table => some (table, 1)
  | j + 2, table =>
      let entry := memory (table + 8 * vaddrToIndex vaddr (j + 2))
      if entry &&& entryFlagPresent = 0 then none
      else if entry &&& entryhFlagPs ≠ 0 then some (table, j + 2)
      else physicalTables memory vaddr (j + 1) (tableOf entry)

def physicalAt (vaddr : Nat) (entry : Entry) : Nat → Except Fault (Option Nat)
  | 1 => .ok (some ((entry &&& entrylAddressMask) + (BitVec.ofNat 64 vaddr &&& ~~~0x000FFFFFFFFFF000#64)).toNat)
  | 2 => .ok (some ((entry &&& entryhAddressMask) + (BitVec.ofNat 64 vaddr &&& ~~~0x000FFFFFFFE00000#64)).toNat)
  | 3 => .ok (some ((entry &&& entryhAddressMask) + (BitVec.ofNat 64 vaddr &&& ~~~0x000FFFFFC0000000#64)).toNat)
  | _ => .error .assertion

-- none for the result false.
def archPtmPhysical (ptTop vaddr : Nat) (s : State) : Except Fault (Option Nat) :=
  match physicalTables s.memory vaddr levelCount ptTop with
  | none => .ok none
  | some (table, j) =>
      let entry := s.load table (vaddrToIndex vaddr j)
      if entry &&& entryFlagPresent = 0 then .ok none else physicalAt vaddr entry j

theorem physical_tables_down {memory : Nat → Entry} {top v l t : Nat} (reach : Reaches memory top v l t) :
    physicalTables memory v levelCount top = physicalTables memory v l t := by
  induction reach with
  | top => rfl
  | down level table previous descends ih =>
      obtain ⟨above, present, small⟩ := descends
      obtain ⟨j, rfl⟩ : ∃ j, level = j + 1 := ⟨level - 1, by omega⟩
      rw [ih, physicalTables, if_neg (fun absent => (absent_iff _).mp absent present), if_neg (fun big => small ((big_iff _).mp big))]

-- A page of a higher level has no address bits below its size.
def Squared (level : Nat) (entry : Entry) : Prop :=
  Present entry → Big entry → 1 < level → entry &&& entryhAddressMask = entry &&& frameMask level

def pageShift (level : Nat) : Nat := if level = 1 then 12 else if level = 2 then 21 else 30

theorem offset_mask_bit (level k : Nat) (small : k < 64) :
    (~~~frameMask level).getLsbD k = decide (k < pageShift level ∨ 52 ≤ k) := by
  have all : ∀ k : Fin 64, (~~~0x000FFFFFFFFFF000#64).getLsbD k = decide (k.val < 12 ∨ 52 ≤ k.val) ∧
      (~~~0x000FFFFFFFE00000#64).getLsbD k = decide (k.val < 21 ∨ 52 ≤ k.val) ∧
      (~~~0x000FFFFFC0000000#64).getLsbD k = decide (k.val < 30 ∨ 52 ≤ k.val) := by decide
  obtain ⟨one, two, three⟩ := all ⟨k, small⟩
  unfold frameMask pageShift
  split
  · exact one
  · split
    · exact two
    · exact three

-- The complement of the frame's mask keeps the offset, and the bits above the physical address.
theorem offset_bits {v : Nat} (fits : v < 2 ^ 64) (level : Nat) :
    (BitVec.ofNat 64 v &&& ~~~frameMask level).toNat = v / 2 ^ 52 * 2 ^ 52 + v % 2 ^ pageShift level := by
  have short : pageShift level ≤ 52 := by
    unfold pageShift
    split
    · decide
    · split <;> decide
  have offset : v % 2 ^ pageShift level < 2 ^ 52 :=
    Nat.lt_of_lt_of_le (Nat.mod_lt _ (Nat.two_pow_pos _)) (Nat.pow_le_pow_right (by decide) short)
  rw [Nat.mul_comm, Nat.two_pow_add_eq_or_of_lt offset]
  apply Nat.eq_of_testBit_eq
  intro k
  rw [← BitVec.getLsbD, BitVec.getLsbD_and, BitVec.getLsbD_ofNat, Nat.testBit_or, Nat.testBit_two_pow_mul, Nat.testBit_div_two_pow,
    Nat.testBit_mod_two_pow]
  by_cases word : k < 64
  · rw [offset_mask_bit level k word]
    by_cases high : 52 ≤ k
    · simp [word, high, show ¬ k < pageShift level by omega, show k - 52 + 52 = k by omega]
    · simp [word, high]
      exact Bool.and_comm _ _
  · have clear : v.testBit k = false :=
      Nat.testBit_lt_two_pow (Nat.lt_of_lt_of_le fits (Nat.pow_le_pow_right (by decide) (by omega)))
    simp [word, clear, show 52 ≤ k by omega, show k - 52 + 52 = k by omega]

theorem page_shift_size {level : Nat} (positive : 1 ≤ level) (inner : level < levelCount) : 2 ^ pageShift level = levelToPagesize level := by
  unfold levelCount at inner
  obtain rfl | rfl | rfl : level = 1 ∨ level = 2 ∨ level = 3 := by omega
  · rfl
  · rfl
  · rfl

theorem frame_lt (level : Nat) (entry : Entry) : (entry &&& frameMask level).toNat < 2 ^ 52 := by
  apply Nat.lt_of_le_of_lt (BitVec.toNat_and .. ▸ Nat.and_le_right)
  unfold frameMask
  split
  · decide
  · split <;> decide

theorem frame_multiple (level : Nat) (entry : Entry) : (entry &&& frameMask level).toNat % 2 ^ pageShift level = 0 := by
  apply Nat.eq_of_testBit_eq
  intro k
  rw [Nat.testBit_mod_two_pow, ← BitVec.getLsbD, BitVec.getLsbD_and, Nat.zero_testBit]
  by_cases low : k < pageShift level
  · by_cases word : k < 64
    · have masked := offset_mask_bit level k word
      rw [BitVec.getLsbD_not, decide_eq_true word, Bool.true_and, decide_eq_true (Or.inl low)] at masked
      simp_all
    · rw [BitVec.getLsbD_of_ge _ _ (by omega)]
      simp
  · simp [low]

-- An offset below the size of a page stays below the end of physical memory.
theorem frame_offset_lt (v : Nat) {level : Nat} (positive : 1 ≤ level) (inner : level < levelCount) (entry : Entry) :
    (entry &&& frameMask level).toNat + v % 2 ^ pageShift level < 2 ^ 52 := by
  have base := frame_lt level entry
  have multiple := frame_multiple level entry
  have offset := Nat.mod_lt v (Nat.two_pow_pos (pageShift level))
  unfold levelCount at inner
  obtain rfl | rfl | rfl : level = 1 ∨ level = 2 ∨ level = 3 := by omega
  · change _ % 2 ^ 12 = 0 at multiple
    change v % 2 ^ 12 < 2 ^ 12 at offset
    change _ + v % 2 ^ 12 < 2 ^ 52
    omega
  · change _ % 2 ^ 21 = 0 at multiple
    change v % 2 ^ 21 < 2 ^ 21 at offset
    change _ + v % 2 ^ 21 < 2 ^ 52
    omega
  · change _ % 2 ^ 30 = 0 at multiple
    change v % 2 ^ 30 < 2 ^ 30 at offset
    change _ + v % 2 ^ 30 < 2 ^ 52
    omega

-- What arch_ptm_physical makes of the entry the walk ends at.
theorem physical_at_eq {v level : Nat} {entry : Entry} (fits : v < 2 ^ 64) (positive : 1 ≤ level) (inner : level < levelCount)
    (frame : entry &&& (if level = 1 then entrylAddressMask else entryhAddressMask) = entry &&& frameMask level) :
    physicalAt v entry level =
      .ok (some ((entry &&& frameMask level).toNat + v % levelToPagesize level + v / 2 ^ 52 * 2 ^ 52)) := by
  have bound := frame_offset_lt v positive inner entry
  have sum : ((entry &&& frameMask level) + (BitVec.ofNat 64 v &&& ~~~frameMask level)).toNat =
      (entry &&& frameMask level).toNat + v % levelToPagesize level + v / 2 ^ 52 * 2 ^ 52 := by
    rw [BitVec.toNat_add, offset_bits fits, ← page_shift_size positive inner, Nat.mod_eq_of_lt]
    · omega
    · omega
  unfold levelCount at inner
  obtain rfl | rfl | rfl : level = 1 ∨ level = 2 ∨ level = 3 := by omega
  · rw [if_pos rfl] at frame
    rw [physicalAt, frame]
    exact congrArg (fun n => Except.ok (some n)) sum
  · rw [if_neg (by decide)] at frame
    rw [physicalAt, frame]
    exact congrArg (fun n => Except.ok (some n)) sum
  · rw [if_neg (by decide)] at frame
    rw [physicalAt, frame]
    exact congrArg (fun n => Except.ok (some n)) sum

-- Where big pages are aligned, arch_ptm_physical finds what the processor finds, less that it
-- keeps the bits of the virtual address above the physical ones.
theorem arch_ptm_physical_eq {top v : Nat} {s : State} (sound : Sound top s) (canonical : Canonical v)
    (squared : ∀ l t, Reaches s.memory top v l t → Squared l (s.memory (t + 8 * vaddrToIndex v l))) :
    archPtmPhysical top v s = .ok ((walk s.memory top v).map fun T => T.physical + v / 2 ^ 52 * 2 ^ 52) := by
  have fits : v < 2 ^ 64 := by
    unfold Canonical at canonical
    omega
  obtain ⟨t, reach, stops⟩ := stop_level_reached s.memory top v
  obtain ⟨l, level⟩ : ∃ l, l = stopLevel s.memory top v := ⟨_, rfl⟩
  rw [← level] at reach stops
  obtain ⟨entry, read⟩ : ∃ entry, entry = s.memory (t + 8 * vaddrToIndex v l) := ⟨_, rfl⟩
  have found : walk s.memory top v = translateLeaf v l entry := by
    rw [walk, if_pos canonical, sound_last sound reach stops, ← read]
  have aligned := squared l t reach
  rw [← read] at stops aligned
  have positive := reaches_positive reach
  obtain rfl | ⟨j, rfl⟩ : l = 1 ∨ ∃ j, l = j + 2 := by
    by_cases one : l = 1
    · exact .inl one
    · exact .inr ⟨l - 2, by omega⟩
  · have tables : physicalTables s.memory v levelCount top = some (t, 1) := by rw [physical_tables_down reach, physicalTables]
    rw [archPtmPhysical, tables]
    dsimp only
    rw [State.load, ← read, found]
    by_cases present : Present entry
    · rw [if_neg fun absent => (absent_iff _).mp absent present, translateLeaf, if_pos ⟨present, by decide⟩,
        physical_at_eq fits (Nat.le_refl _) (by decide) rfl]
      rfl
    · rw [if_pos ((absent_iff _).mpr present), translateLeaf, if_neg fun both => present both.1]
      rfl
  · by_cases present : Present entry
    · have inner : j + 2 < levelCount := sound_present sound reach (read ▸ stops) (read ▸ present)
      have big : Big entry := by
        by_contra small
        exact stops ⟨by omega, present, small⟩
      have tables : physicalTables s.memory v levelCount top = some (t, j + 2) := by
        rw [physical_tables_down reach, physicalTables, ← read, if_neg fun absent => (absent_iff _).mp absent present, if_pos ((big_iff _).mpr big)]
      rw [archPtmPhysical, tables]
      dsimp only
      rw [State.load, ← read, found, if_neg fun absent => (absent_iff _).mp absent present, translateLeaf, if_pos ⟨present, inner⟩,
        physical_at_eq fits (by omega) inner (by rw [if_neg (by omega)]; exact aligned present big (by omega))]
      rfl
    · have tables : physicalTables s.memory v levelCount top = none := by
        rw [physical_tables_down reach, physicalTables, ← read, if_pos ((absent_iff _).mpr present)]
      rw [archPtmPhysical, tables, found, translateLeaf, if_neg fun both => present both.1]
      rfl

-- On user addresses that small pages map, arch_ptm_physical finds what the processor finds.
theorem arch_ptm_physical_walk {top v : Nat} {s : State} (sound : Sound top s) (low : v < 2 ^ 47)
    (small : ∀ T, walk s.memory top v = some T → T.level = 1) :
    archPtmPhysical top v s = .ok ((walk s.memory top v).map Translation.physical) := by
  have none_high : v / 2 ^ 52 = 0 := Nat.div_eq_of_lt (by omega)
  rw [arch_ptm_physical_eq sound (.inl low), none_high]
  · simp only [Nat.zero_mul, Nat.add_zero]
  · intro l t reach present big high
    have stops : ¬ Descends l (s.memory (t + 8 * vaddrToIndex v l)) := fun descends => descends.2.2 big
    have found : walk s.memory top v = translateLeaf v l (s.memory (t + 8 * vaddrToIndex v l)) := by
      rw [walk, if_pos (.inl low), sound_last sound reach stops]
    rw [translateLeaf, if_pos ⟨present, sound_present sound reach stops present⟩] at found
    have one : l = 1 := small _ found
    omega

-- The user half is mapped by small pages only.
def Small (top : Nat) (s : State) : Prop := ∀ a < 2 ^ 47, ∀ T, walk s.memory top a = some T → T.level = 1

-- The frame of a user page.
def frameAt (top : Nat) (s : State) (P : Nat) : Option Nat :=
  if P * pageGranularity < 2 ^ 47 then
    (walk s.memory top (P * pageGranularity)).map fun T => T.physical / pageGranularity
  else none

-- All bytes of a page are found in one frame.
theorem walk_in_page {top v : Nat} {s : State} (sound : Sound top s) (small : Small top s) (low : v < 2 ^ 47) :
    (walk s.memory top v).map Translation.physical =
      (frameAt top s (v / pageGranularity)).map fun f => f * pageGranularity + v % pageGranularity := by
  obtain ⟨w, first⟩ : ∃ w, w = v / pageGranularity * pageGranularity := ⟨_, rfl⟩
  have lowW : w < 2 ^ 47 := Nat.lt_of_le_of_lt (first ▸ Nat.div_mul_le_self _ _) low
  have same : SameSlot 1 w v := by
    rw [same_slot_iff (Nat.le_refl _) (by decide) (.inl lowW) (.inl low)]
    change w / pageGranularity = v / pageGranularity
    rw [first, Nat.mul_div_cancel _ (by decide)]
  rw [frameAt, if_pos (first ▸ lowW), ← first, Option.map_map]
  obtain ⟨t, reach, stops⟩ := stop_level_reached s.memory top w
  obtain ⟨l, level⟩ : ∃ l, l = stopLevel s.memory top w := ⟨_, rfl⟩
  rw [← level] at reach stops
  have sameL : SameSlot l w v := same_slot_mono (reaches_positive reach) same
  have reachV : Reaches s.memory top v l t := reaches_same reach (same_slot_mono (Nat.le_succ _) sameL)
  have read := read_slot reach reachV sameL
  have stopsV : ¬ Descends l (s.memory (t + 8 * vaddrToIndex v l)) := by
    rw [read]
    exact stops
  have foundW : walk s.memory top w = translateLeaf w l (s.memory (t + 8 * vaddrToIndex w l)) := by
    rw [walk, if_pos (.inl lowW), sound_last sound reach stops]
  have foundV : walk s.memory top v = translateLeaf v l (s.memory (t + 8 * vaddrToIndex w l)) := by
    rw [walk, if_pos (.inl low), sound_last sound reachV stopsV, read]
  rw [foundW, foundV]
  unfold translateLeaf at foundW ⊢
  by_cases present : Present (s.memory (t + 8 * vaddrToIndex w l)) ∧ l < levelCount
  · rw [if_pos present] at foundW
    obtain rfl : l = 1 := small w lowW _ foundW
    rw [if_pos present, if_pos present, Option.map_some, Option.map_some, Option.some.injEq]
    have aligned : tableOf (s.memory (t + 8 * vaddrToIndex w 1)) % pageGranularity = 0 := table_of_aligned _
    have page : w % pageGranularity = 0 := first ▸ Nat.mul_mod_left _ _
    change tableOf (s.memory (t + 8 * vaddrToIndex w 1)) + v % pageGranularity =
      (tableOf (s.memory (t + 8 * vaddrToIndex w 1)) + w % pageGranularity) / pageGranularity * pageGranularity + v % pageGranularity
    rw [page]
    unfold pageGranularity at aligned ⊢
    omega
  · rw [if_neg present, if_neg present]
    rfl

section Page

variable {top v paddr : Nat} {prot : Protection} {cache : Cache} {privilege : Privilege} {isGlobal : Bool} {s : State}

-- One page of the lowest size.
theorem arch_ptm_map_one (top : Nat) (low : v < 2 ^ 47) (aligned : v % pageGranularity = 0) (paddrAligned : paddr % pageGranularity = 0)
    (fits : paddr + pageGranularity ≤ 2 ^ 52) :
    archPtmMap top v paddr pageGranularity prot cache privilege isGlobal s = mapPage top v paddr .size4K prot cache privilege isGlobal s := by
  have size : cursize v paddr (pageGranularity - 0) = .size4K := by
    unfold cursize
    rw [if_neg fun both => absurd both.2.2 (by decide), if_neg fun both => absurd both.2.2 (by decide)]
  have one : pageGranularity / pageGranularity = 0 + 1 := rfl
  rw [arch_ptm_map_eq aligned paddrAligned (by decide), one, mapLoop, if_pos (by decide)]
  dsimp only
  rw [size, add64_eq (show v + 0 < 2 ^ 64 by omega), add64_eq (show paddr + 0 < 2 ^ 64 by omega), Nat.add_zero, Nat.add_zero]
  cases mapPage top v paddr .size4K prot cache privilege isGlobal s with
  | error fault => rfl
  | ok s' => rfl

-- arch_ptm_map for one user page.
theorem arch_ptm_map_page (sound : Sound top s) (small : Small top s) (low : v < 2 ^ 47) (aligned : v % pageGranularity = 0)
    (paddrAligned : paddr % pageGranularity = 0) (fits : paddr + pageGranularity ≤ 2 ^ 52) :
    (∃ s', archPtmMap top v paddr pageGranularity prot cache privilege isGlobal s = .ok s' ∧ Sound top s' ∧ Small top s' ∧
        frameAt top s' = Function.update (frameAt top s) (v / pageGranularity) (some (paddr / pageGranularity)) ∧
        ∃ used, s.frames = used ++ s'.frames ∧ used.length ≤ 3) ∨
      (s.frames.length < 3 ∧ archPtmMap top v paddr pageGranularity prot cache privilege isGlobal s = .error (outOfMemory s)) := by
  have canonical : Canonical v := .inl low
  have bytes : PageSize.size4K.bytes = pageGranularity := rfl
  rw [arch_ptm_map_one top low aligned paddrAligned fits]
  rcases @map_page_spec top v paddr .size4K prot cache privilege isGlobal s sound with
    ⟨s', done, writes⟩ | ⟨short, failed⟩ | ⟨⟨T, blocked, level⟩, _⟩
  · have inside : ∀ a < 2 ^ 47, SameSlot 1 v a ↔ v ≤ a ∧ a < v + pageGranularity := fun a lowA =>
      @slot_iff_page v .size4K canonical (bytes ▸ aligned) a (.inl lowA)
    have here : ∀ a < 2 ^ 47, v ≤ a → a < v + pageGranularity →
        ∃ T, walk s'.memory top a = some T ∧ T.physical = paddr + (a - v) ∧ T.level = 1 := by
      intro a lowA start stop
      obtain ⟨T, found, physical, _⟩ := @translate_leaf_entry v paddr a .size4K prot cache privilege isGlobal (bytes ▸ aligned)
        (bytes ▸ paddrAligned) (by unfold pageGranularity at fits; omega) start stop
      have walked : walk s'.memory top a = some T := by
        rw [walk, if_pos (.inl lowA), writes.here a ((inside a lowA).mpr ⟨start, stop⟩), found]
      refine ⟨T, walked, physical, ?_⟩
      unfold translateLeaf at found
      split at found
      · rw [← Option.some.inj found]
        rfl
      · cases found
    have elsewhere : ∀ a < 2 ^ 47, ¬ (v ≤ a ∧ a < v + pageGranularity) → walk s'.memory top a = walk s.memory top a := by
      intro a lowA outside
      rw [walk, walk, if_pos (.inl lowA), if_pos (.inl lowA), writes.elsewhere a fun same => outside ((inside a lowA).mp same)]
    refine .inl ⟨s', done, writes.sound, fun a lowA T found => ?_, ?_, writes.spent⟩
    · by_cases onPage : v ≤ a ∧ a < v + pageGranularity
      · obtain ⟨T', walked, _, one⟩ := here a lowA onPage.1 onPage.2
        rw [walked, Option.some.injEq] at found
        exact found ▸ one
      · rw [elsewhere a lowA onPage] at found
        exact small a lowA T found
    · funext P
      by_cases page : P = v / pageGranularity
      · subst page
        have back : v / pageGranularity * pageGranularity = v := Nat.div_mul_cancel (Nat.dvd_of_mod_eq_zero aligned)
        obtain ⟨T, walked, physical, _⟩ := here v low (Nat.le_refl _) (by unfold pageGranularity; omega)
        rw [Function.update_self, frameAt, back, if_pos low, walked, Option.map_some, physical, Nat.sub_self, Nat.add_zero]
      · rw [Function.update_of_ne page]
        unfold frameAt
        by_cases lowP : P * pageGranularity < 2 ^ 47
        · rw [if_pos lowP, if_pos lowP, elsewhere _ lowP]
          unfold pageGranularity at *
          omega
        · rw [if_neg lowP, if_neg lowP]
  · exact .inr ⟨short, failed⟩
  · have found : walk s.memory top v = some T := by rw [walk, if_pos canonical, blocked]
    have one := small v low T found
    have lowest : lowestIndex .size4K = 1 := rfl
    omega

end Page

theorem unmap_round_frames {v remaining : Nat} (j table : Nat) {s s' : State} {l : Nat}
    (run : unmapRound v remaining j table s = .ok (s', l)) : s'.frames = s.frames := by
  induction j generalizing table s with
  | zero => cases run
  | succ j ih =>
      cases j with
      | zero =>
          obtain ⟨rfl, _⟩ := Prod.mk.inj (Except.ok.inj run)
          rfl
      | succ j =>
          rw [unmapRound] at run
          dsimp only at run
          split at run
          · obtain ⟨rfl, _⟩ := Prod.mk.inj (Except.ok.inj run)
            rfl
          · split at run
            · rw [bind_eq_ok] at run
              obtain ⟨_, _, run⟩ := run
              split at run
              · obtain ⟨fault, failed⟩ := break_big_fails table (vaddrToIndex v (j + 2)) (j + 2) s
                rw [failed] at run
                cases run
              · obtain ⟨rfl, _⟩ := Prod.mk.inj (Except.ok.inj run)
                rfl
            · exact ih _ run

-- What unmapping leaves of the user half: frames go, and only those of pages in the range.
structure Cleared (top b n : Nat) (s s' : State) : Prop where
  sound : Sound top s'
  small : Small top s'
  fewer : ∀ {P f}, frameAt top s' P = some f → frameAt top s P = some f
  kept : ∀ P, ¬ (b ≤ P * pageGranularity ∧ P * pageGranularity < b + n) → frameAt top s' P = frameAt top s P
  frames : s'.frames = s.frames

theorem unmap_round_cleared {top v remaining j : Nat} {s s' : State} (sound : Sound top s) (small : Small top s) (low : v < 2 ^ 47)
    (aligned : v % pageGranularity = 0) (run : unmapRound v remaining levelCount top s = .ok (s', j)) :
    Cleared top v pageGranularity s s' ∧ 1 ≤ j := by
  obtain ⟨t, reach, stops⟩ := stop_level_reached s.memory top v
  obtain ⟨l, level⟩ : ∃ l, l = stopLevel s.memory top v := ⟨_, rfl⟩
  rw [← level] at reach stops
  rcases @unmap_round_spec top v l t remaining s sound reach stops with ⟨_, u, done, soundU, gone, same⟩ | ⟨_, fault, failed⟩
  · obtain ⟨rfl, rfl⟩ := Prod.mk.inj (Except.ok.inj (run.symm.trans done))
    have positive := reaches_positive reach
    -- Addresses that share the entry but not the page have no frame: a big page would be there.
    have away : ∀ a < 2 ^ 47, ¬ (v / pageGranularity = a / pageGranularity) → walk s'.memory top a = walk s.memory top a := by
      intro a lowA apart
      rw [walk, walk, if_pos (.inl lowA), if_pos (.inl lowA)]
      by_cases slot : SameSlot j v a
      · rw [gone a slot]
        have reachA : Reaches s.memory top a j t := reaches_same reach (same_slot_mono (Nat.le_succ _) slot)
        have stopsA : ¬ Descends j (s.memory (t + 8 * vaddrToIndex a j)) := by
          rw [read_slot reach reachA slot]
          exact stops
        rw [sound_last sound reachA stopsA, translateLeaf]
        by_cases present : Present (s.memory (t + 8 * vaddrToIndex a j)) ∧ j < levelCount
        · have found : walk s.memory top a = translateLeaf a j (s.memory (t + 8 * vaddrToIndex a j)) := by
            rw [walk, if_pos (.inl lowA), sound_last sound reachA stopsA]
          rw [translateLeaf, if_pos present] at found
          obtain rfl : j = 1 := small a lowA _ found
          rw [same_slot_iff (Nat.le_refl _) (by decide) (.inl low) (.inl lowA)] at slot
          exact absurd slot apart
        · rw [if_neg present]
      · rw [same a slot]
    have fewer : ∀ a < 2 ^ 47, ∀ T, walk s'.memory top a = some T → walk s.memory top a = some T := by
      intro a lowA T found
      rw [walk, if_pos (.inl lowA)] at found ⊢
      by_cases slot : SameSlot j v a
      · rw [gone a slot] at found
        cases found
      · rw [same a slot] at found
        exact found
    refine ⟨⟨soundU, fun a lowA T found => small a lowA T (fewer a lowA T found), ?_, fun P outside => ?_, unmap_round_frames _ _ run⟩, positive⟩
    · intro P f at_
      unfold frameAt at at_ ⊢
      by_cases lowP : P * pageGranularity < 2 ^ 47
      · rw [if_pos lowP] at at_ ⊢
        obtain ⟨T, found, physical⟩ := Option.map_eq_some_iff.mp at_
        rw [fewer _ lowP T found, Option.map_some, physical]
      · rw [if_neg lowP] at at_
        cases at_
    · unfold frameAt
      by_cases lowP : P * pageGranularity < 2 ^ 47
      · rw [if_pos lowP, if_pos lowP, away _ lowP]
        unfold pageGranularity at *
        omega
      · rw [if_neg lowP, if_neg lowP]
  · rw [failed] at run
    cases run

theorem cleared_trans {top b n b' n' : Nat} {s u s' : State} (first : Cleared top b' n' s u) (second : Cleared top b n u s')
    (low : b ≤ b') (high : b' + n' ≤ b + n) : Cleared top b n s s' := by
  refine ⟨second.sound, second.small, fun at_ => first.fewer (second.fewer at_), fun P outside => ?_, second.frames.trans first.frames⟩
  rw [second.kept P outside, first.kept P (by omega)]

theorem range_cleared {top b n : Nat} (low : b + n ≤ 2 ^ 47) (aligned : b % pageGranularity = 0) (whole : n % pageGranularity = 0)
    (fuel i : Nat) {s s' : State} (sound : Sound top s) (small : Small top s) (onPage : i % pageGranularity = 0)
    (run : rangeLoop (fun vaddr remaining => unmapRound vaddr remaining levelCount top) b n fuel i s = .ok s') :
    Cleared top b n s s' := by
  have unchanged : Cleared top b n s s := ⟨sound, small, id, fun _ _ => rfl, rfl⟩
  induction fuel generalizing i s with
  | zero =>
      rw [rangeLoop] at run
      split at run
      · cases run
      · obtain rfl := Except.ok.inj run
        exact unchanged
  | succ fuel ih =>
      rw [rangeLoop] at run
      split at run
      · rename_i inside
        rw [bind_eq_ok, add64_eq (show b + i < 2 ^ 64 by omega)] at run
        obtain ⟨⟨u, j⟩, round, rest⟩ := run
        dsimp only at rest
        have here : (b + i) % pageGranularity = 0 := by rw [Nat.add_mod, aligned, onPage]; rfl
        obtain ⟨cleared, positive⟩ := unmap_round_cleared sound small (by omega) here round
        have next : (i + levelToPagesize j) % pageGranularity = 0 := by
          obtain ⟨k, rfl⟩ : ∃ k, j = k + 1 := ⟨j - 1, by omega⟩
          have multiple : levelToPagesize (k + 1) = pageGranularity * 2 ^ (9 * k) := by
            rw [page_size_eq positive, show (k + 1) * 9 + 3 = 12 + 9 * k by omega, Nat.pow_add]
            rfl
          rw [multiple, Nat.add_mul_mod_self_left, onPage]
        have later := ih (i + levelToPagesize j) cleared.sound cleared.small next rest
          ⟨cleared.sound, cleared.small, id, fun _ _ => rfl, rfl⟩
        refine cleared_trans cleared later (Nat.le_add_right _ _) ?_
        unfold pageGranularity at onPage whole ⊢
        omega
      · obtain rfl := Except.ok.inj run
        exact unchanged

theorem arch_ptm_unmap_cleared {top b n : Nat} {s s' : State} (sound : Sound top s) (small : Small top s) (low : b + n ≤ 2 ^ 47)
    (run : archPtmUnmap top b n s = .ok s') :
    Cleared top b n s s' ∧ b % pageGranularity = 0 ∧ n % pageGranularity = 0 := by
  unfold archPtmUnmap at run
  rw [bind_eq_ok] at run
  obtain ⟨_, aligned, run⟩ := run
  rw [bind_eq_ok] at run
  obtain ⟨_, whole, run⟩ := run
  have onPage : b % pageGranularity = 0 := by
    by_contra ragged
    rw [assertThat, decide_eq_false ragged] at aligned
    cases aligned
  have pages : n % pageGranularity = 0 := by
    by_contra ragged
    rw [assertThat, decide_eq_false ragged] at whole
    cases whole
  exact ⟨range_cleared low onPage pages _ 0 sound small rfl run, onPage, pages⟩

end Elysium.Ptm
