import Elysium.PtmRange

set_option autoImplicit false

namespace Elysium.Ptm

open Vm (Protection Cache Privilege kernelspaceStart protRW)

section Round

variable {top v l t remaining : Nat} {s : State}

-- The way down to the entry that ends the walk changes nothing.
theorem unmap_round_down (reach : Reaches s.memory top v l t) :
    unmapRound v remaining levelCount top s = unmapRound v remaining l t s := by
  induction reach with
  | top => rfl
  | down level table _ descends ih =>
      obtain ⟨below, present, small⟩ := descends
      obtain ⟨j, rfl⟩ : ∃ j, level = j + 1 := ⟨level - 1, by omega⟩
      rw [ih, unmapRound]
      have absent : ¬ s.load table (vaddrToIndex v (j + 2)) &&& entryFlagPresent = 0 := fun zero => (absent_iff _).mp zero present
      have table : ¬ s.load table (vaddrToIndex v (j + 2)) &&& entryhFlagPs ≠ 0 := fun big => small ((big_iff _).mp big)
      dsimp only
      rw [if_neg absent, if_neg table]
      rfl

variable (sound : Sound top s) (reach : Reaches s.memory top v l t) (stops : ¬ Descends l (s.memory (t + 8 * vaddrToIndex v l)))

include sound reach stops

omit stops in
theorem clear_keeps : Sound top (s.store t (vaddrToIndex v l) 0) ∧
    (∀ a, SameSlot l v a → translate a (entries (s.store t (vaddrToIndex v l) 0).memory a levelCount top) = none) ∧
    ∀ a, ¬ SameSlot l v a → entries (s.store t (vaddrToIndex v l) 0).memory a levelCount top = entries s.memory a levelCount top := by
  have zero : ¬ Descends l 0 := zero_stops l
  have absent : ¬ Present 0 := by decide
  have path := page_entries sound.tree reach zero
  refine ⟨⟨page_tree sound.tree reach zero, sound.distinct, sound.placed, fun w k u other => ?_, fun w => ?_, fun w => ?_⟩,
    fun a same => ?_, fun a apart => ?_⟩
  · exact sound.fresh w k u (page_reaches sound.tree reach zero other)
  · rw [store_memory, path]
    by_cases same : SameSlot l v w
    · rw [if_pos same]
      exact absent_granting absent
    · rw [if_neg same]
      exact sound.granting w
  · rw [store_memory, path]
    by_cases same : SameSlot l v w
    · rw [if_pos same]
      exact absent_leafy absent
    · rw [if_neg same]
      exact sound.leafy w
  · rw [store_memory, path, if_pos same, translate_absent List.getLast?_concat absent]
  · rw [store_memory, path, if_neg apart]

theorem unmap_round_spec :
    (¬ Breaks s.memory top v remaining ∧ ∃ s', unmapRound v remaining levelCount top s = .ok (s', l) ∧ Sound top s' ∧
        (∀ a, SameSlot l v a → translate a (entries s'.memory a levelCount top) = none) ∧
        ∀ a, ¬ SameSlot l v a → entries s'.memory a levelCount top = entries s.memory a levelCount top) ∨
      (Breaks s.memory top v remaining ∧ ∃ fault, unmapRound v remaining levelCount top s = .error fault) := by
  have cleared := clear_keeps sound reach
  have positive := reaches_positive reach
  rw [breaks_iff sound reach stops, unmap_round_down reach]
  by_cases lowest : l = 1
  · subst lowest
    exact .inl ⟨fun broken => absurd broken.2.1 (by decide), _, rfl, cleared⟩
  · obtain ⟨j, rfl⟩ : ∃ j, l = j + 2 := ⟨l - 2, by omega⟩
    rw [unmapRound]
    dsimp only
    by_cases present : Present (s.memory (t + 8 * vaddrToIndex v (j + 2)))
    · have notAbsent : ¬ s.load t (vaddrToIndex v (j + 2)) &&& entryFlagPresent = 0 := fun zero => (absent_iff _).mp zero present
      have big : Big (s.memory (t + 8 * vaddrToIndex v (j + 2))) := by
        by_contra small
        exact stops ⟨by omega, present, small⟩
      have isBig : s.load t (vaddrToIndex v (j + 2)) &&& entryhFlagPs ≠ 0 := (big_iff _).mpr big
      have level := sound_present sound reach stops present
      have asserted : assertThat (decide (j + 2 ≤ 3)) = .ok () := if_pos (decide_eq_true (by unfold levelCount at level; omega))
      rw [if_neg notAbsent, if_pos isBig, asserted, bind_ok]
      by_cases must : MustBreak v remaining (vaddrToIndex v (j + 2)) (j + 2)
      · obtain ⟨fault, failed⟩ := break_big_fails t (vaddrToIndex v (j + 2)) (j + 2) s
        rw [if_pos must, failed]
        exact .inr ⟨⟨present, by omega, must⟩, fault, rfl⟩
      · rw [if_neg must]
        exact .inl ⟨fun broken => must broken.2.2, _, rfl, cleared⟩
    · have isAbsent : s.load t (vaddrToIndex v (j + 2)) &&& entryFlagPresent = 0 := (absent_iff _).mpr present
      rw [if_pos isAbsent]
      refine .inl ⟨fun broken => present broken.1, s, rfl, sound, fun a same => ?_, fun _ _ => rfl⟩
      have reachA : Reaches s.memory top a (j + 2) t := reaches_same reach (same_slot_mono (Nat.le_succ _) same)
      have read := read_slot reach reachA same
      obtain ⟨above, whole, _⟩ := reaches_last reachA (read ▸ stops)
      rw [whole, read, translate_absent List.getLast?_concat present]

end Round

-- The rounds before the k-th have come to the entry of this address.
def Met (memory : Nat → Entry) (top vaddr k a : Nat) : Prop :=
  ∃ i < k, SameSlot (stopLevel memory top (vaddr + cursor memory top vaddr i)) (vaddr + cursor memory top vaddr i) a

-- After k rounds what they have come to is gone and everything else is there.
structure Unmapped (memory : Nat → Entry) (top vaddr k : Nat) (s : State) : Prop where
  sound : Sound top s
  gone : ∀ a, Met memory top vaddr k a → translate a (entries s.memory a levelCount top) = none
  kept : ∀ a, ¬ Met memory top vaddr k a → entries s.memory a levelCount top = entries memory a levelCount top

theorem met_succ {memory : Nat → Entry} {top vaddr k a : Nat} : Met memory top vaddr (k + 1) a ↔
    Met memory top vaddr k a ∨
      SameSlot (stopLevel memory top (vaddr + cursor memory top vaddr k)) (vaddr + cursor memory top vaddr k) a := by
  constructor
  · rintro ⟨i, before, same⟩
    rcases Nat.lt_or_eq_of_le (Nat.le_of_lt_succ before) with earlier | rfl
    · exact .inl ⟨i, earlier, same⟩
    · exact .inr same
  · rintro (⟨i, before, same⟩ | same)
    · exact ⟨i, Nat.lt_succ_of_lt before, same⟩
    · exact ⟨k, Nat.lt_succ_self k, same⟩

section Unmap

variable {memory : Nat → Entry} {top vaddr length : Nat} (canonical : ∀ d < length, Canonical (vaddr + d))

include canonical

-- A round never comes to an entry a second time.
theorem cursor_unmet {k : Nat} (inside : cursor memory top vaddr k < length) :
    ¬ Met memory top vaddr k (vaddr + cursor memory top vaddr k) := by
  rintro ⟨i, before, same⟩
  have past := cursor_past memory top vaddr before
  obtain ⟨positive, bound⟩ := stop_level_bounds memory top (vaddr + cursor memory top vaddr i)
  have size := page_size_positive (stopLevel memory top (vaddr + cursor memory top vaddr i))
  rw [same_slot_iff positive bound (canonical _ (by omega)) (canonical _ inside)] at same
  have grown : (vaddr + cursor memory top vaddr i) / levelToPagesize (stopLevel memory top (vaddr + cursor memory top vaddr i)) + 1 ≤
      (vaddr + cursor memory top vaddr k) / levelToPagesize (stopLevel memory top (vaddr + cursor memory top vaddr i)) := by
    rw [← Nat.add_div_right _ size]
    exact Nat.div_le_div_right (by omega)
  omega

theorem unmapped_step {k : Nat} {s : State} (unmapped : Unmapped memory top vaddr k s)
    (inside : cursor memory top vaddr k < length) :
    (¬ Breaks memory top (vaddr + cursor memory top vaddr k) (length - cursor memory top vaddr k) ∧
        ∃ s', unmapRound (vaddr + cursor memory top vaddr k) (length - cursor memory top vaddr k) levelCount top s =
          .ok (s', stopLevel memory top (vaddr + cursor memory top vaddr k)) ∧ Unmapped memory top vaddr (k + 1) s') ∨
      (Breaks memory top (vaddr + cursor memory top vaddr k) (length - cursor memory top vaddr k) ∧
        ∃ fault, unmapRound (vaddr + cursor memory top vaddr k) (length - cursor memory top vaddr k) levelCount top s =
          .error fault) := by
  have same := unmapped.kept _ (cursor_unmet canonical inside)
  have level : stopLevel s.memory top (vaddr + cursor memory top vaddr k) =
      stopLevel memory top (vaddr + cursor memory top vaddr k) := by
    rw [stopLevel, stopLevel, same]
  have breaks : Breaks s.memory top (vaddr + cursor memory top vaddr k) (length - cursor memory top vaddr k) ↔
      Breaks memory top (vaddr + cursor memory top vaddr k) (length - cursor memory top vaddr k) := by
    rw [Breaks, Breaks, same]
  obtain ⟨t, reach, stops⟩ := stop_level_reached s.memory top (vaddr + cursor memory top vaddr k)
  have spec := @unmap_round_spec top _ _ t (length - cursor memory top vaddr k) s unmapped.sound reach stops
  rw [breaks, level] at spec
  rcases spec with ⟨whole, s', run, sound, gone, kept⟩ | failed
  · refine .inl ⟨whole, s', run, sound, fun a met => ?_, fun a unmet => ?_⟩
    · by_cases here : SameSlot (stopLevel memory top (vaddr + cursor memory top vaddr k)) (vaddr + cursor memory top vaddr k) a
      · exact gone a here
      · rw [kept a here]
        exact unmapped.gone a ((met_succ.mp met).resolve_right here)
    · rw [met_succ, not_or] at unmet
      rw [kept a unmet.2, unmapped.kept a unmet.1]
  · exact .inr failed

end Unmap

def UnmapsExactly (s : State) (top vaddr length : Nat) : Prop :=
  ∃ s', archPtmUnmap top vaddr length s = .ok s' ∧
    (∀ a, vaddr ≤ a → a < vaddr + length → walk s'.memory top a = none) ∧
    ∀ a, ¬ (vaddr ≤ a ∧ a < vaddr + length) → walk s'.memory top a = walk s.memory top a

-- The rounds go through the range in steps of the size of the entry they come to,
-- from wherever they are. No big page has to be split, and no page of the range is
-- stepped over.
structure MeetsPages (memory : Nat → Entry) (top vaddr length : Nat) : Prop where
  whole : ∀ k, cursor memory top vaddr k < length →
    ¬ Breaks memory top (vaddr + cursor memory top vaddr k) (length - cursor memory top vaddr k)
  met : ∀ a, vaddr ≤ a → a < vaddr + length → walk memory top a ≠ none → ∃ k, cursor memory top vaddr k < length ∧
    (vaddr + cursor memory top vaddr k) / levelToPagesize (stopLevel memory top (vaddr + cursor memory top vaddr k)) =
      a / levelToPagesize (stopLevel memory top (vaddr + cursor memory top vaddr k))

theorem index_vaddr_le {v level : Nat} (positive : 1 ≤ level) (low : v ≤ indexToVaddr (vaddrToIndex v level) level) :
    v % levelToPagesize level = 0 := by
  rw [indexToVaddr, Nat.shiftLeft_eq, ← page_size_eq positive, index_eq positive] at low
  have least : v / levelToPagesize level % 512 * levelToPagesize level ≤ v / levelToPagesize level * levelToPagesize level :=
    Nat.mul_le_mul_right _ (Nat.mod_le _ _)
  have parts := Nat.div_add_mod v (levelToPagesize level)
  rw [Nat.mul_comm] at parts
  omega

theorem canonical_fits {v : Nat} (canonical : Canonical v) : v < 2 ^ 64 := by
  unfold Canonical at canonical
  omega

section Exact

variable {s : State} {top vaddr length : Nat} (sound : Sound top s) (canonical : ∀ d < length, Canonical (vaddr + d))
  (vaddrAligned : vaddr % pageGranularity = 0) (lengthAligned : length % pageGranularity = 0)

include sound canonical vaddrAligned lengthAligned

-- A page that a round comes to without splitting it lies in the range.
theorem met_inside {k a : Nat} (inside : cursor s.memory top vaddr k < length)
    (whole : ¬ Breaks s.memory top (vaddr + cursor s.memory top vaddr k) (length - cursor s.memory top vaddr k))
    (canonicalA : Canonical a) (found : walk s.memory top a ≠ none)
    (same : SameSlot (stopLevel s.memory top (vaddr + cursor s.memory top vaddr k)) (vaddr + cursor s.memory top vaddr k) a) :
    vaddr ≤ a ∧ a < vaddr + length := by
  obtain ⟨u, here⟩ : ∃ u, u = vaddr + cursor s.memory top vaddr k := ⟨_, rfl⟩
  rw [← here] at whole same
  obtain ⟨t, reach, stops⟩ := stop_level_reached s.memory top u
  obtain ⟨positive, bound⟩ := stop_level_bounds s.memory top u
  obtain ⟨l, level⟩ : ∃ l, l = stopLevel s.memory top u := ⟨_, rfl⟩
  rw [← level] at same reach stops positive bound
  have size := page_size_positive l
  have present : Present (s.memory (t + 8 * vaddrToIndex u l)) := by
    by_contra absent
    have reachA : Reaches s.memory top a l t := reaches_same reach (same_slot_mono (Nat.le_succ _) same)
    have read := read_slot reach reachA same
    obtain ⟨above, path, _⟩ := reaches_last reachA (read ▸ stops)
    refine found ?_
    rw [walk, if_pos canonicalA, path, read, translate_absent List.getLast?_concat absent]
  -- The entry starts where the round is, and ends in the range.
  have starts : u % levelToPagesize l = 0 ∧ levelToPagesize l ≤ length - cursor s.memory top vaddr k := by
    by_cases lowest : l = 1
    · have aligned := cursor_aligned s.memory top vaddr k
      have one : levelToPagesize l = pageGranularity := by rw [lowest]; rfl
      rw [one]
      unfold pageGranularity at *
      omega
    · rw [breaks_iff sound reach stops] at whole
      have keeps : ¬ MustBreak u (length - cursor s.memory top vaddr k) (vaddrToIndex u l) l := fun must =>
        whole ⟨present, by omega, must⟩
      unfold MustBreak at keeps
      push Not at keeps
      exact ⟨index_vaddr_le positive keeps.1, keeps.2⟩
  rw [same_slot_iff positive bound (here ▸ canonical _ inside) canonicalA, same_page_iff size starts.1] at same
  omega

omit sound canonical vaddrAligned in
theorem rounds_enough : length ≤ cursor s.memory top vaddr 0 + length / pageGranularity * pageGranularity := by
  unfold pageGranularity at lengthAligned ⊢
  omega

omit sound vaddrAligned lengthAligned in
theorem range_canonical {a : Nat} (low : vaddr ≤ a) (high : a < vaddr + length) : Canonical a := by
  have offset := canonical (a - vaddr) (by omega)
  rwa [show vaddr + (a - vaddr) = a by omega] at offset

omit sound canonical vaddrAligned lengthAligned in
theorem rounds_iff {n : Nat} (past : length ≤ cursor s.memory top vaddr n) (before : ∀ i < n, cursor s.memory top vaddr i < length)
    (k : Nat) : cursor s.memory top vaddr k < length ↔ k < n := by
  refine ⟨fun inside => ?_, before k⟩
  by_contra later
  have mono := cursor_mono s.memory top vaddr (Nat.le_of_not_lt later)
  omega

omit sound vaddrAligned lengthAligned in
theorem met_iff {n a : Nat} (rounds : ∀ k, cursor s.memory top vaddr k < length ↔ k < n) (canonicalA : Canonical a) :
    Met s.memory top vaddr n a ↔ ∃ k, cursor s.memory top vaddr k < length ∧
      (vaddr + cursor s.memory top vaddr k) / levelToPagesize (stopLevel s.memory top (vaddr + cursor s.memory top vaddr k)) =
        a / levelToPagesize (stopLevel s.memory top (vaddr + cursor s.memory top vaddr k)) := by
  refine exists_congr fun k => ?_
  rw [rounds k]
  refine and_congr_right fun before => ?_
  obtain ⟨positive, bound⟩ := stop_level_bounds s.memory top (vaddr + cursor s.memory top vaddr k)
  exact same_slot_iff positive bound (canonical _ ((rounds k).mpr before)) canonicalA

theorem unmap_pages_iff : UnmapsExactly s top vaddr length ↔ MeetsPages s.memory top vaddr length := by
  have start : Unmapped s.memory top vaddr 0 s :=
    ⟨sound, fun a met => by obtain ⟨i, never, _⟩ := met; omega, fun _ _ => rfl⟩
  have called : archPtmUnmap top vaddr length s = rangeLoop (fun vaddr remaining => unmapRound vaddr remaining levelCount top) vaddr
      length (length / pageGranularity) (cursor s.memory top vaddr 0) s := by
    simp only [archPtmUnmap, assertThat, vaddrAligned, lengthAligned, decide_true, if_true, bind_ok]
    rfl
  unfold UnmapsExactly
  rw [called]
  rcases @range_loop_spec (fun vaddr remaining => unmapRound vaddr remaining levelCount top) s.memory top vaddr length
    (Unmapped s.memory top vaddr)
    (fun k => Breaks s.memory top (vaddr + cursor s.memory top vaddr k) (length - cursor s.memory top vaddr k))
    (fun d inside => canonical_fits (canonical d inside))
    (fun k u unmapped inside => unmapped_step canonical unmapped inside) (length / pageGranularity) 0 s start (rounds_enough lengthAligned) with
    ⟨n, s', run, unmapped, _, past, all⟩ | ⟨i, inside, broken, fault, run⟩
  · have rounds := rounds_iff past fun i before => (all i (Nat.zero_le _) before).1
    have gone : ∀ a, Canonical a → Met s.memory top vaddr n a → walk s'.memory top a = none := by
      intro a canonicalA met
      rw [walk, if_pos canonicalA, unmapped.gone a met]
    have kept : ∀ a, ¬ Met s.memory top vaddr n a → walk s'.memory top a = walk s.memory top a := by
      intro a unmet
      rw [walk, walk, unmapped.kept a unmet]
    have whole : ∀ k, cursor s.memory top vaddr k < length →
        ¬ Breaks s.memory top (vaddr + cursor s.memory top vaddr k) (length - cursor s.memory top vaddr k) :=
      fun k inside => (all k (Nat.zero_le _) ((rounds k).mp inside)).2
    constructor
    · rintro ⟨u, done, removed, _⟩
      obtain rfl : s' = u := Except.ok.inj (run.symm.trans done)
      refine ⟨whole, fun a low high found => ?_⟩
      rw [← met_iff canonical rounds (range_canonical canonical low high)]
      by_contra unmet
      exact found ((kept a unmet).symm.trans (removed a low high))
    · intro meets
      refine ⟨s', run, fun a low high => ?_, fun a outside => ?_⟩
      · have canonicalA := range_canonical canonical low high
        by_cases met : Met s.memory top vaddr n a
        · exact gone a canonicalA met
        · rw [kept a met]
          by_contra found
          exact met ((met_iff canonical rounds canonicalA).mpr (meets.met a low high found))
      · by_cases met : Met s.memory top vaddr n a
        · by_cases canonicalA : Canonical a
          · rw [gone a canonicalA met]
            by_contra found
            obtain ⟨k, before, same⟩ := met
            have inside := (rounds k).mpr before
            exact outside (met_inside sound canonical vaddrAligned lengthAligned inside (whole k inside) canonicalA
              (fun none => found none.symm) same)
          · rw [walk, walk, if_neg canonicalA, if_neg canonicalA]
        · exact kept a met
  · refine iff_of_false ?_ fun meets => meets.whole i inside broken
    rintro ⟨u, done, _⟩
    rw [run] at done
    cases done

end Exact

def returned (fallback : State) : Except Fault State → State
  | .ok s => s
  | .error _ => fallback

def lonePage : State := returned (blankState [])
  (archPtmMap 0x1000 0x200000 0x8000 0x1000 protRW .standard .user false (blankState [0x2000, 0x3000, 0x4000]))

theorem lone_page_built : Built 0x1000 lonePage :=
  .map (blankState [0x2000, 0x3000, 0x4000]) lonePage 0x200000 0x8000 0x1000 protRW .standard .user false (.blank _ blank_state_blank) rfl

theorem lone_page_level : stopLevel lonePage.memory 0x1000 0x200000 = 1 := rfl

theorem lone_page_first (k : Nat) (inside : cursor lonePage.memory 0x1000 0x200000 k < 0x1000) : k = 0 := by
  by_contra later
  have past := cursor_past lonePage.memory 0x1000 0x200000 (Nat.pos_of_ne_zero later)
  rw [cursor, Nat.add_zero, lone_page_level, show levelToPagesize 1 = 0x1000 by rfl] at past
  omega

end Elysium.Ptm
