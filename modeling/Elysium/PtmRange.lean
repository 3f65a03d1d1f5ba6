import Elysium.PtmBuilt

set_option autoImplicit false

namespace Elysium.Ptm

-- The level of the entry that ends the walk of an address.
def stopLevel (memory : Nat → Entry) (top v : Nat) : Nat := levelCount + 1 - (entries memory v levelCount top).length

-- How far a call is after k rounds: every round goes on by the size of a page of
-- the level it ended at.
def cursor (memory : Nat → Entry) (top vaddr : Nat) : Nat → Nat
  | 0 => 0
  | k + 1 => cursor memory top vaddr k + levelToPagesize (stopLevel memory top (vaddr + cursor memory top vaddr k))

-- A round comes to a big page that break_big would have to split.
def Breaks (memory : Nat → Entry) (top v remaining : Nat) : Prop :=
  ∃ T, translate v (entries memory v levelCount top) = some T ∧ 1 < T.level ∧
    MustBreak v remaining (vaddrToIndex v T.level) T.level

section Stop

variable {memory : Nat → Entry} {top v l t : Nat}

theorem reaches_stop (reach : Reaches memory top v l t) :
    ∃ k u, Reaches memory top v k u ∧ ¬ Descends k (memory (u + 8 * vaddrToIndex v k)) := by
  induction l generalizing t with
  | zero => exact absurd (reaches_positive reach) (by decide)
  | succ l ih =>
      by_cases descends : Descends (l + 1) (memory (t + 8 * vaddrToIndex v (l + 1)))
      · exact ih (.down l t reach descends)
      · exact ⟨l + 1, t, reach, descends⟩

theorem stop_level_eq (reach : Reaches memory top v l t) (stops : ¬ Descends l (memory (t + 8 * vaddrToIndex v l))) :
    stopLevel memory top v = l := by
  obtain ⟨above, whole, length⟩ := reaches_last reach stops
  have bound := reaches_level reach
  rw [stopLevel, whole, List.length_append, length, List.length_singleton]
  omega

variable (memory top v)

theorem stop_level_reached : ∃ t, Reaches memory top v (stopLevel memory top v) t ∧
    ¬ Descends (stopLevel memory top v) (memory (t + 8 * vaddrToIndex v (stopLevel memory top v))) := by
  obtain ⟨k, u, reach, stops⟩ := reaches_stop (show Reaches memory top v levelCount top from .top)
  rw [stop_level_eq reach stops]
  exact ⟨u, reach, stops⟩

theorem stop_level_bounds : 1 ≤ stopLevel memory top v ∧ stopLevel memory top v ≤ levelCount := by
  obtain ⟨t, reach, _⟩ := stop_level_reached memory top v
  exact ⟨reaches_positive reach, reaches_level reach⟩

variable {memory top v}

theorem translate_level {T : Translation} (found : translate v (entries memory v levelCount top) = some T) :
    T.level = stopLevel memory top v := by
  unfold translate at found
  cases last : (entries memory v levelCount top).getLast? with
  | none =>
      rw [last] at found
      cases found
  | some leaf =>
      rw [last] at found
      dsimp only at found
      by_cases present : Present leaf ∧ levelCount + 1 - (entries memory v levelCount top).length < levelCount
      · rw [if_pos present, Option.some.injEq] at found
        rw [← found]
        rfl
      · rw [if_neg present] at found
        cases found

-- What is there at the entry that ends the walk.
theorem sound_last {s : State} (sound : Sound top s) (reach : Reaches s.memory top v l t)
    (stops : ¬ Descends l (s.memory (t + 8 * vaddrToIndex v l))) :
    translate v (entries s.memory v levelCount top) = translateLeaf v l (s.memory (t + 8 * vaddrToIndex v l)) := by
  obtain ⟨above, whole, _⟩ := reaches_last reach stops
  have last : (entries s.memory v levelCount top).getLast? = some (s.memory (t + 8 * vaddrToIndex v l)) := by
    rw [whole, List.getLast?_concat]
  rw [translate_granting (sound.granting v) last]
  exact congrArg (fun level => translateLeaf v level _) (stop_level_eq reach stops)

theorem sound_present {s : State} (sound : Sound top s) (reach : Reaches s.memory top v l t)
    (stops : ¬ Descends l (s.memory (t + 8 * vaddrToIndex v l))) (present : Present (s.memory (t + 8 * vaddrToIndex v l))) :
    l < levelCount := by
  obtain ⟨above, whole, length⟩ := reaches_last reach stops
  have last : (entries s.memory v levelCount top).getLast? = some (s.memory (t + 8 * vaddrToIndex v l)) := by
    rw [whole, List.getLast?_concat]
  obtain ⟨_, pageSize, _, _, _, _, levels, _⟩ := sound.leafy v _ last present
  have bound := reaches_level reach
  have small : lowestIndex pageSize < levelCount := by cases pageSize <;> decide
  rw [whole, List.length_append, length, List.length_singleton] at levels
  omega

theorem breaks_iff {s : State} {remaining : Nat} (sound : Sound top s) (reach : Reaches s.memory top v l t)
    (stops : ¬ Descends l (s.memory (t + 8 * vaddrToIndex v l))) :
    Breaks s.memory top v remaining ↔
      Present (s.memory (t + 8 * vaddrToIndex v l)) ∧ 1 < l ∧ MustBreak v remaining (vaddrToIndex v l) l := by
  unfold Breaks
  rw [sound_last sound reach stops]
  unfold translateLeaf
  constructor
  · rintro ⟨T, found, big, must⟩
    by_cases present : Present (s.memory (t + 8 * vaddrToIndex v l)) ∧ l < levelCount
    · rw [if_pos present, Option.some.injEq] at found
      subst found
      exact ⟨present.1, big, must⟩
    · rw [if_neg present] at found
      cases found
  · rintro ⟨present, big, must⟩
    rw [if_pos ⟨present, sound_present sound reach stops present⟩]
    exact ⟨_, rfl, big, must⟩

theorem same_slot_stop {a : Nat} (same : SameSlot (stopLevel memory top v) v a) : stopLevel memory top a = stopLevel memory top v := by
  obtain ⟨t, reach, stops⟩ := stop_level_reached memory top v
  have reachA : Reaches memory top a (stopLevel memory top v) t := reaches_same reach (same_slot_mono (Nat.le_succ _) same)
  rw [← read_slot reach reachA same] at stops
  exact stop_level_eq reachA stops

end Stop

section Cursor

variable (memory : Nat → Entry) (top vaddr : Nat)

theorem page_size_page (level : Nat) : pageGranularity ≤ levelToPagesize level := by
  rw [levelToPagesize, Nat.one_shiftLeft]
  exact Nat.pow_le_pow_right (show 0 < 2 by decide) (Nat.le_add_right 12 _)

theorem cursor_step (k : Nat) : cursor memory top vaddr k + pageGranularity ≤ cursor memory top vaddr (k + 1) :=
  Nat.add_le_add_left (page_size_page _) _

theorem cursor_aligned (k : Nat) : cursor memory top vaddr k % pageGranularity = 0 := by
  induction k with
  | zero => rfl
  | succ k ih =>
      have multiple : levelToPagesize (stopLevel memory top (vaddr + cursor memory top vaddr k)) % pageGranularity = 0 := by
        rw [levelToPagesize, Nat.one_shiftLeft, Nat.pow_add]
        exact Nat.mul_mod_right _ _
      rw [cursor, Nat.add_mod, ih, multiple]
      rfl

theorem cursor_past {i k : Nat} (before : i < k) :
    cursor memory top vaddr i + levelToPagesize (stopLevel memory top (vaddr + cursor memory top vaddr i)) ≤
      cursor memory top vaddr k := by
  induction k with
  | zero => omega
  | succ k ih =>
      have step := cursor_step memory top vaddr k
      rcases Nat.lt_or_eq_of_le (Nat.le_of_lt_succ before) with earlier | rfl
      · have bound := ih earlier
        omega
      · exact Nat.le_refl _

theorem cursor_mono {i k : Nat} (before : i ≤ k) : cursor memory top vaddr i ≤ cursor memory top vaddr k := by
  rcases Nat.lt_or_eq_of_le before with earlier | rfl
  · exact Nat.le_trans (Nat.le_add_right _ _) (cursor_past memory top vaddr earlier)
  · exact Nat.le_refl _

end Cursor

section Loop

variable {round : Nat → Nat → State → Except Fault (State × Nat)} {memory : Nat → Entry} {top vaddr length : Nat}
  {holds : Nat → State → Prop} {bad : Nat → Prop}

theorem range_loop_spec (fits : ∀ d < length, vaddr + d < 2 ^ 64)
    (step : ∀ k s, holds k s → cursor memory top vaddr k < length →
      (¬ bad k ∧ ∃ s', round (vaddr + cursor memory top vaddr k) (length - cursor memory top vaddr k) s =
          .ok (s', stopLevel memory top (vaddr + cursor memory top vaddr k)) ∧ holds (k + 1) s') ∨
        (bad k ∧ ∃ fault, round (vaddr + cursor memory top vaddr k) (length - cursor memory top vaddr k) s = .error fault))
    (fuel k : Nat) (s : State) (start : holds k s) (enough : length ≤ cursor memory top vaddr k + fuel * pageGranularity) :
    (∃ n s', rangeLoop round vaddr length fuel (cursor memory top vaddr k) s = .ok s' ∧ holds n s' ∧ k ≤ n ∧
        length ≤ cursor memory top vaddr n ∧ ∀ i, k ≤ i → i < n → cursor memory top vaddr i < length ∧ ¬ bad i) ∨
      ∃ i, cursor memory top vaddr i < length ∧ bad i ∧
        ∃ fault, rangeLoop round vaddr length fuel (cursor memory top vaddr k) s = .error fault := by
  induction fuel generalizing k s with
  | zero =>
      rw [rangeLoop, if_neg (by omega)]
      exact .inl ⟨k, s, rfl, start, Nat.le_refl _, by omega, fun i low high => by omega⟩
  | succ fuel ih =>
      rw [rangeLoop]
      by_cases inside : cursor memory top vaddr k < length
      · rw [if_pos inside, add64_eq (fits _ inside)]
        rcases step k s start inside with ⟨good, s', run, next⟩ | ⟨isBad, fault, run⟩
        · rw [run, bind_ok]
          have moved := cursor_step memory top vaddr k
          rcases ih (k + 1) s' next (by rw [Nat.succ_mul] at enough; omega) with
            ⟨n, u, done, final, later, past, all⟩ | ⟨i, insideI, isBad, fault, done⟩
          · refine .inl ⟨n, u, done, final, by omega, past, fun i low high => ?_⟩
            rcases Nat.lt_or_eq_of_le low with after | rfl
            · exact all i after high
            · exact ⟨inside, good⟩
          · exact .inr ⟨i, insideI, isBad, fault, done⟩
        · rw [run]
          exact .inr ⟨k, inside, isBad, fault, rfl⟩
      · rw [if_neg inside]
        exact .inl ⟨k, s, rfl, start, Nat.le_refl _, by omega, fun i low high => by omega⟩

end Loop

end Elysium.Ptm
