import Elysium.PtmBuilt

set_option autoImplicit false

namespace Elysium.Ptm

open Vm (Protection Cache Privilege kernelspaceStart protRW)

-- The walk of an address reaches this physical address with these permissions.
def MapsTo (memory : Nat → Entry) (top a physical : Nat) (prot : Protection) (privilege : Privilege) : Prop :=
  ∃ T, walk memory top a = some T ∧ T.physical = physical ∧ T.write = prot.write ∧ T.exec = prot.exec ∧
    T.user = decide (privilege = .user)

theorem translate_leaf_entry {v paddr a : Nat} {pageSize : PageSize} {prot : Protection} {cache : Cache} {privilege : Privilege}
    {isGlobal : Bool} (vaddrAligned : v % pageSize.bytes = 0) (paddrAligned : paddr % pageSize.bytes = 0) (fits : paddr < 2 ^ 52)
    (low : v ≤ a) (high : a < v + pageSize.bytes) :
    ∃ T, translateLeaf a (lowestIndex pageSize) (leafEntry paddr pageSize prot cache privilege isGlobal) = some T ∧
      T.physical = paddr + (a - v) ∧ T.write = prot.write ∧ T.exec = prot.exec ∧ T.user = decide (privilege = .user) := by
  have level : lowestIndex pageSize < levelCount := by cases pageSize <;> decide
  rw [translateLeaf, if_pos ⟨leaf_present paddr pageSize prot cache privilege isGlobal, level⟩]
  refine ⟨_, rfl, ?_, ?_, ?_, ?_⟩
  · show (leafEntry paddr pageSize prot cache privilege isGlobal &&& frameMask (lowestIndex pageSize)).toNat +
      a % levelToPagesize (lowestIndex pageSize) = paddr + (a - v)
    rw [leaf_frame paddrAligned fits, page_size_bytes]
    have split : a = v + (a - v) := by omega
    have offset : a % pageSize.bytes = a - v := by
      rw [split, Nat.add_mod, vaddrAligned, Nat.zero_add, Nat.mod_mod, Nat.mod_eq_of_lt (by omega)]
      omega
    rw [offset]
  · exact leaf_write paddr pageSize prot cache privilege isGlobal
  · show (!(leafEntry paddr pageSize prot cache privilege isGlobal).getLsbD 63) = prot.exec
    rw [leaf_nx, Bool.not_not]
  · exact leaf_user paddr pageSize prot cache privilege isGlobal

section Page

variable {top v paddr n : Nat} {pageSize : PageSize} {prot : Protection} {cache : Cache} {privilege : Privilege} {isGlobal : Bool}
  {s s' : State} (canonical : Canonical v) (aligned : v % pageSize.bytes = 0)
  (writes : Writes top v (lowestIndex pageSize) n (leafEntry paddr pageSize prot cache privilege isGlobal) s s')

include canonical aligned

theorem slot_iff_page {a : Nat} (canonicalA : Canonical a) :
    SameSlot (lowestIndex pageSize) v a ↔ v ≤ a ∧ a < v + pageSize.bytes := by
  rw [same_slot_iff (by cases pageSize <;> decide) (by cases pageSize <;> decide) canonical canonicalA, page_size_bytes,
    same_page_iff (by cases pageSize <;> decide) aligned]

include writes

theorem page_maps (paddrAligned : paddr % pageSize.bytes = 0) (fits : paddr < 2 ^ 52) {a : Nat} (canonicalA : Canonical a)
    (low : v ≤ a) (high : a < v + pageSize.bytes) : MapsTo s'.memory top a (paddr + (a - v)) prot privilege := by
  obtain ⟨T, found, rest⟩ := @translate_leaf_entry v paddr a pageSize prot cache privilege isGlobal aligned paddrAligned fits low high
  refine ⟨T, ?_, rest⟩
  rw [walk, if_pos canonicalA, writes.here a ((slot_iff_page canonical aligned canonicalA).mpr ⟨low, high⟩), found]

theorem page_keeps {a : Nat} (outside : ¬ (v ≤ a ∧ a < v + pageSize.bytes)) : walk s'.memory top a = walk s.memory top a := by
  by_cases canonicalA : Canonical a
  · rw [walk, walk, if_pos canonicalA, if_pos canonicalA,
      writes.elsewhere a fun same => outside ((slot_iff_page canonical aligned canonicalA).mp same)]
  · rw [walk, walk, if_neg canonicalA, if_neg canonicalA]

end Page

-- The page size is chosen from the addresses the call started with, so the offset
-- stays a multiple of every size that is still taken.
structure Aligned (vaddr paddr length i : Nat) : Prop where
  page : i % pageGranularity = 0
  middle : paddr % PageSize.size2M.bytes = 0 → vaddr % PageSize.size2M.bytes = 0 → PageSize.size2M.bytes ≤ length - i →
    i % PageSize.size2M.bytes = 0
  large : paddr % PageSize.size1G.bytes = 0 → vaddr % PageSize.size1G.bytes = 0 → PageSize.size1G.bytes ≤ length - i →
    i % PageSize.size1G.bytes = 0

theorem aligned_iff (vaddr paddr length i : Nat) : Aligned vaddr paddr length i ↔ i % 0x1000 = 0 ∧
    (paddr % 0x200000 = 0 → vaddr % 0x200000 = 0 → 0x200000 ≤ length - i → i % 0x200000 = 0) ∧
    (paddr % 0x40000000 = 0 → vaddr % 0x40000000 = 0 → 0x40000000 ≤ length - i → i % 0x40000000 = 0) :=
  ⟨fun all => ⟨all.page, all.middle, all.large⟩, fun all => ⟨all.1, all.2.1, all.2.2⟩⟩

section Cursize

variable {vaddr paddr length i : Nat} (vaddrAligned : vaddr % pageGranularity = 0) (paddrAligned : paddr % pageGranularity = 0)
  (lengthAligned : length % pageGranularity = 0) (inside : i < length) (alignedI : Aligned vaddr paddr length i)

include vaddrAligned paddrAligned lengthAligned inside alignedI

theorem cursize_spec : (vaddr + i) % (cursize vaddr paddr (length - i)).bytes = 0 ∧
    (paddr + i) % (cursize vaddr paddr (length - i)).bytes = 0 ∧ i + (cursize vaddr paddr (length - i)).bytes ≤ length ∧
    Aligned vaddr paddr length (i + (cursize vaddr paddr (length - i)).bytes) := by
  rw [aligned_iff] at alignedI ⊢
  obtain ⟨page, middle, large⟩ := alignedI
  have small : PageSize.size4K.bytes = 0x1000 := rfl
  have medium : PageSize.size2M.bytes = 0x200000 := rfl
  have giant : PageSize.size1G.bytes = 0x40000000 := rfl
  unfold pageGranularity at vaddrAligned paddrAligned lengthAligned
  unfold cursize
  rw [medium, giant]
  by_cases first : paddr % 0x40000000 = 0 ∧ vaddr % 0x40000000 = 0 ∧ length - i ≥ 0x40000000
  · have multiple := large first.1 first.2.1 first.2.2
    rw [if_pos first, giant]
    refine ⟨by omega, by omega, by omega, by omega, fun _ _ _ => by omega, fun _ _ _ => by omega⟩
  · rw [if_neg first]
    by_cases second : paddr % 0x200000 = 0 ∧ vaddr % 0x200000 = 0 ∧ length - i ≥ 0x200000
    · have multiple := middle second.1 second.2.1 second.2.2
      rw [if_pos second, medium]
      refine ⟨by omega, by omega, by omega, by omega, fun _ _ _ => by omega, fun _ _ _ => by omega⟩
    · rw [if_neg second, small]
      refine ⟨by omega, by omega, by omega, by omega, fun _ _ _ => by omega, fun _ _ _ => by omega⟩

end Cursize

section Loop

variable {top vaddr paddr length : Nat} {prot : Protection} {cache : Cache} {privilege : Privilege} {isGlobal : Bool}
  (canonical : ∀ d < length, Canonical (vaddr + d)) (vaddrAligned : vaddr % pageGranularity = 0)
  (paddrAligned : paddr % pageGranularity = 0) (lengthAligned : length % pageGranularity = 0) (fits : paddr + length ≤ 2 ^ 52)

include canonical vaddrAligned paddrAligned lengthAligned fits

theorem map_loop_spec (fuel i : Nat) (s : State) (sound : Sound top s) (alignedI : Aligned vaddr paddr length i)
    (clear : ∀ d, i ≤ d → d < length → ∀ T, walk s.memory top (vaddr + d) = some T → T.level = 1)
    (enough : length ≤ i + fuel * pageGranularity) :
    (∃ s', mapLoop top vaddr paddr length prot cache privilege isGlobal fuel i s = .ok s' ∧
        (∀ d, i ≤ d → d < length → MapsTo s'.memory top (vaddr + d) (paddr + d) prot privilege) ∧
        ∀ a, ¬ (vaddr + i ≤ a ∧ a < vaddr + length) → walk s'.memory top a = walk s.memory top a) ∨
      (s.frames.length < 3 * ((length - i) / pageGranularity) ∧
        mapLoop top vaddr paddr length prot cache privilege isGlobal fuel i s = .error (outOfMemory s)) := by
  induction fuel generalizing i s with
  | zero =>
      rw [mapLoop, if_neg (by omega)]
      exact .inl ⟨s, rfl, fun d low high => by omega, fun _ _ => rfl⟩
  | succ fuel ih =>
      rw [mapLoop]
      by_cases inside : i < length
      · rw [if_pos inside]
        obtain ⟨vaddrFits, paddrFits, within, alignedNext⟩ := cursize_spec vaddrAligned paddrAligned lengthAligned inside alignedI
        obtain ⟨size, chosen⟩ : ∃ size, size = cursize vaddr paddr (length - i) := ⟨_, rfl⟩
        rw [← chosen] at vaddrFits paddrFits within alignedNext ⊢
        have canonicalI := canonical i inside
        have onePage : pageGranularity ≤ size.bytes := by cases size <;> decide
        have small : vaddr + i < 2 ^ 64 := by
          unfold Canonical at canonicalI
          omega
        rw [add64_eq small, add64_eq (show paddr + i < 2 ^ 64 by omega)]
        dsimp only
        rcases @map_page_spec top (vaddr + i) (paddr + i) size prot cache privilege isGlobal s sound with
          ⟨u, done, writes⟩ | ⟨short, failed⟩ | ⟨⟨T, blocked, level⟩, fault, failed⟩
        · rw [done, bind_ok]
          have kept : ∀ a, ¬ (vaddr + i ≤ a ∧ a < vaddr + i + size.bytes) → walk u.memory top a = walk s.memory top a :=
            fun a outside => page_keeps canonicalI vaddrFits writes outside
          have clearU : ∀ d, i + size.bytes ≤ d → d < length → ∀ T, walk u.memory top (vaddr + d) = some T → T.level = 1 := by
            intro d low high T found
            rw [kept _ (by omega)] at found
            exact clear d (by omega) high T found
          obtain ⟨used, split, few⟩ := writes.spent
          rcases ih (i + size.bytes) u writes.sound alignedNext clearU (by rw [Nat.succ_mul] at enough; omega) with
            ⟨s', finished, maps, keeps⟩ | ⟨short, failed⟩
          · refine .inl ⟨s', finished, fun d low high => ?_, fun a outside => ?_⟩
            · by_cases later : i + size.bytes ≤ d
              · exact maps d later high
              · obtain ⟨T, found, physical, rest⟩ := page_maps canonicalI vaddrFits writes paddrFits (by omega)
                  (canonical d high) (by omega) (by omega)
                refine ⟨T, ?_, by omega, rest⟩
                rw [keeps _ (by omega), found]
            · rw [keeps a (by omega), kept a (by omega)]
          · refine .inr ⟨?_, ?_⟩
            · have most : levelCount - lowestIndex size ≤ 3 := by cases size <;> decide
              rw [split, List.length_append]
              unfold pageGranularity at short onePage ⊢
              omega
            · rw [failed, outOfMemory, outOfMemory, writes.early]
        · refine .inr ⟨?_, by rw [failed]; rfl⟩
          have most : levelCount - lowestIndex size ≤ 3 := by cases size <;> decide
          unfold pageGranularity at onePage ⊢
          omega
        · have positive : 1 ≤ lowestIndex size := by cases size <;> decide
          have found : walk s.memory top (vaddr + i) = some T := by rw [walk, if_pos canonicalI, blocked]
          have one := clear i (Nat.le_refl _) inside T found
          omega
      · rw [if_neg inside]
        exact .inl ⟨s, rfl, fun d low high => by omega, fun _ _ => rfl⟩

end Loop

-- arch_ptm_map maps the range and nothing else, or runs out of pages for tables.
theorem arch_ptm_map_establishes (top : Nat) (s : State) (built : Built top s) (vaddr paddr length : Nat) (prot : Protection)
    (cache : Cache) (privilege : Privilege) (isGlobal : Bool) (canonical : ∀ d < length, Canonical (vaddr + d))
    (vaddrAligned : vaddr % pageGranularity = 0) (paddrAligned : paddr % pageGranularity = 0)
    (lengthAligned : length % pageGranularity = 0) (fits : paddr + length ≤ 2 ^ 52)
    (clear : ∀ d < length, ∀ T, walk s.memory top (vaddr + d) = some T → T.level = 1) :
    (∃ s', archPtmMap top vaddr paddr length prot cache privilege isGlobal s = .ok s' ∧
        (∀ d < length, MapsTo s'.memory top (vaddr + d) (paddr + d) prot privilege) ∧
        ∀ a, ¬ (vaddr ≤ a ∧ a < vaddr + length) → walk s'.memory top a = walk s.memory top a) ∨
      (s.frames.length < 3 * (length / pageGranularity) ∧
        archPtmMap top vaddr paddr length prot cache privilege isGlobal s = .error (outOfMemory s)) := by
  have start : Aligned vaddr paddr length 0 := ⟨rfl, fun _ _ _ => rfl, fun _ _ _ => rfl⟩
  have enough : length ≤ 0 + length / pageGranularity * pageGranularity := by
    unfold pageGranularity at lengthAligned ⊢
    omega
  rw [arch_ptm_map_eq vaddrAligned paddrAligned lengthAligned]
  rcases map_loop_spec canonical vaddrAligned paddrAligned lengthAligned fits (length / pageGranularity) 0 s (built_sound built) start
    (fun d _ high => clear d high) enough with ⟨s', run, maps, keeps⟩ | failed
  · exact .inl ⟨s', run, fun d high => maps d (Nat.zero_le _) high, keeps⟩
  · exact .inr failed

theorem arch_ptm_map_establishes_page :
    ∃ s', archPtmMap 0x1000 0x400000 0x8000 0x1000 protRW .standard .user false (blankState [0x2000, 0x3000, 0x4000]) = .ok s' ∧
      MapsTo s'.memory 0x1000 0x400000 0x8000 protRW .user := by
  have blank := blank_state_blank
  have canonical : ∀ d < 0x1000, Canonical (0x400000 + d) := fun d small => .inl (by omega)
  rcases arch_ptm_map_establishes 0x1000 _ (.blank _ blank) 0x400000 0x8000 0x1000 protRW .standard .user false canonical (by decide)
    (by decide) (by decide) (by decide) (fun d _ T found => by rw [blank_walk blank] at found; cases found) with
    ⟨s', run, maps, _⟩ | ⟨short, _⟩
  · exact ⟨s', run, maps 0 (by decide)⟩
  · exact absurd short (by decide)

end Elysium.Ptm
