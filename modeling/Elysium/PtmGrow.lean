import Elysium.PtmTree

set_option autoImplicit false

namespace Elysium.Ptm

-- Memory that agrees on every entry of the tree holds the same tree.
section Transport

variable {memory next : Nat → Entry} {top : Nat}
  (agree : ∀ v l t, Reaches memory top v l t → next (t + 8 * vaddrToIndex v l) = memory (t + 8 * vaddrToIndex v l))

include agree

theorem transport_reaches (v l t : Nat) : Reaches next top v l t ↔ Reaches memory top v l t := by
  constructor
  · intro reach
    induction reach with
    | top => exact .top
    | down level table _ descends ih =>
        rw [agree v _ _ ih] at descends ⊢
        exact .down level table ih descends
  · intro reach
    induction reach with
    | top => exact .top
    | down level table previous descends ih =>
        rw [← agree v _ _ previous] at descends ⊢
        exact .down level table ih descends

theorem transport_entries_from (v l t : Nat) (reach : Reaches memory top v l t) : entries next v l t = entries memory v l t := by
  induction l generalizing t with
  | zero => rfl
  | succ l ih =>
      rw [entries, entries, agree v _ _ reach]
      by_cases descends : Descends (l + 1) (memory (t + 8 * vaddrToIndex v (l + 1)))
      · rw [if_pos descends, if_pos descends, ih _ (.down l t reach descends)]
      · rw [if_neg descends, if_neg descends]

theorem transport_entries (v : Nat) : entries next v levelCount top = entries memory v levelCount top :=
  transport_entries_from agree v levelCount top .top

theorem transport_tree (tree : Tree memory top) : Tree next top := by
  refine ⟨tree.aligned, fun v w l k t first second => ?_⟩
  rw [transport_reaches agree] at first second
  exact tree.separate v w l k t first second

end Transport

-- A page outside the tree may be cleared.
theorem clear_agrees {memory : Nat → Entry} {top page : Nat} (tree : Tree memory top) (aligned : page % pageGranularity = 0)
    (apart : ∀ v l t, Reaches memory top v l t → t ≠ page) (v l t : Nat) (reach : Reaches memory top v l t) :
    memClear memory page pageGranularity (t + 8 * vaddrToIndex v l) = memory (t + 8 * vaddrToIndex v l) := by
  refine if_neg fun inside => apart v l t reach ?_
  have bound := index_lt v l
  have alignedT := reaches_aligned tree.aligned reach
  unfold pageGranularity at *
  omega

theorem clear_zero (memory : Nat → Entry) (page v l : Nat) :
    memClear memory page pageGranularity (page + 8 * vaddrToIndex v l) = 0 := by
  have bound := index_lt v l
  refine if_pos ⟨Nat.le_add_right _ _, ?_⟩
  unfold pageGranularity
  omega

theorem zero_stops (level : Nat) : ¬ Descends level 0 := fun descends => absurd descends.2.1 (by decide)

theorem reaches_descends {memory : Nat → Entry} {top v l t k u : Nat} (reach : Reaches memory top v l t) (below : l < k)
    (other : Reaches memory top v k u) : Descends k (memory (u + 8 * vaddrToIndex v k)) := by
  induction reach with
  | top => exact absurd (reaches_level other) (Nat.not_le_of_lt below)
  | down level table previous descends ih =>
      rcases Nat.lt_or_eq_of_le below with above | rfl
      · exact ih above
      · rw [reaches_unique other previous]
        exact descends

section Store

variable {memory : Nat → Entry} {top v l t : Nat} {entry : Entry} (tree : Tree memory top) (reach : Reaches memory top v l t)

include tree reach

-- Whatever is stored, the addresses elsewhere and the levels above do not see it.
theorem store_reaches_above {w k u : Nat} (other : Reaches memory top w k u) (outside : SameSlot l v w → l ≤ k) :
    Reaches (Function.update memory (t + 8 * vaddrToIndex v l) entry) top w k u := by
  induction other with
  | top => exact .top
  | down level table previous descends ih =>
      have stored := @read_store memory top v l t entry tree reach w (level + 1) table previous
      rw [if_neg fun both => absurd (outside both.2) (by omega)] at stored
      rw [← stored] at descends ⊢
      exact .down level table (ih fun same => Nat.le_succ_of_le (outside same)) descends

theorem entries_store_elsewhere {w : Nat} (apart : ¬ SameSlot l v w) (k u : Nat) (other : Reaches memory top w k u) :
    entries (Function.update memory (t + 8 * vaddrToIndex v l) entry) w k u = entries memory w k u := by
  induction k generalizing u with
  | zero => rfl
  | succ k ih =>
      have read := @read_store memory top v l t entry tree reach w (k + 1) u other
      rw [if_neg fun both => apart both.2] at read
      rw [entries, entries, read]
      by_cases descends : Descends (k + 1) (memory (u + 8 * vaddrToIndex w (k + 1)))
      · rw [if_pos descends, if_pos descends, ih _ (.down k u other descends)]
      · rw [if_neg descends, if_neg descends]

theorem entries_store_below {w : Nat} (same : SameSlot l v w) (k u : Nat) (other : Reaches memory top w k u) (above : l ≤ k) :
    entries (Function.update memory (t + 8 * vaddrToIndex v l) entry) w k u =
      (entries memory w k u).take (k - l) ++ entries (Function.update memory (t + 8 * vaddrToIndex v l) entry) w l t := by
  have reachW : Reaches memory top w l t := reaches_same reach (same_slot_mono (Nat.le_succ _) same)
  induction k generalizing u with
  | zero => exact absurd (reaches_positive reach) (by omega)
  | succ k ih =>
      rcases Nat.lt_or_eq_of_le above with higher | rfl
      · have descends := reaches_descends reachW higher other
        have next := ih _ (.down k u other descends) (Nat.le_of_lt_succ higher)
        have read := @read_store memory top v l t entry tree reach w (k + 1) u other
        rw [if_neg fun both => absurd both.1 (by omega)] at read
        rw [entries, read, if_pos descends, next, entries_descend descends, Nat.succ_sub (Nat.le_of_lt_succ higher), List.take_succ_cons, List.cons_append]
      · rw [Nat.sub_self, List.take_zero, List.nil_append, reaches_unique other reachW]

variable (stops : ¬ Descends l entry)

include stops

-- A page takes the place of whatever the slot held.
theorem page_reaches {w k u : Nat} (other : Reaches (Function.update memory (t + 8 * vaddrToIndex v l) entry) top w k u) :
    Reaches memory top w k u := by
  induction other with
  | top => exact .top
  | down level table _ descends ih =>
      rw [read_store tree reach ih] at descends ⊢
      by_cases here : level + 1 = l ∧ SameSlot l v w
      · rw [if_pos here, here.1] at descends
        exact absurd descends stops
      · rw [if_neg here] at descends ⊢
        exact .down level table ih descends

theorem page_tree : Tree (Function.update memory (t + 8 * vaddrToIndex v l) entry) top :=
  ⟨tree.aligned, fun w x k j u first second =>
    tree.separate w x k j u (page_reaches tree reach stops first) (page_reaches tree reach stops second)⟩

theorem page_entries (w : Nat) : entries (Function.update memory (t + 8 * vaddrToIndex v l) entry) w levelCount top =
    if SameSlot l v w then (entries memory w levelCount top).take (levelCount - l) ++ [entry]
    else entries memory w levelCount top := by
  by_cases same : SameSlot l v w
  · have reachW : Reaches memory top w l t := reaches_same reach (same_slot_mono (Nat.le_succ _) same)
    have read := @read_store memory top v l t entry tree reach w l t reachW
    rw [if_pos ⟨rfl, same⟩] at read
    rw [if_pos same, entries_store_below tree reach same levelCount top .top (reaches_level reach),
      entries_stop (reaches_positive reach) (by rw [read]; exact stops), read]
  · rw [if_neg same, entries_store_elsewhere tree reach same levelCount top .top]

end Store

section Grow

variable {memory : Nat → Entry} {top v l t page : Nat} {entry : Entry} (tree : Tree memory top)
  (reach : Reaches memory top v l t) (descends : Descends l entry) (points : tableOf entry = page)
  (blank : ∀ w k, memory (page + 8 * vaddrToIndex w k) = 0) (apart : ∀ w k u, Reaches memory top w k u → u ≠ page)

include tree reach descends points blank apart

-- A fresh table is hung into a slot that held nothing.
omit descends in
theorem grown_blank (w k : Nat) : Function.update memory (t + 8 * vaddrToIndex v l) entry (page + 8 * vaddrToIndex w k) = 0 := by
  rw [Function.update_of_ne, blank]
  have one := index_lt v l
  have two := index_lt w k
  have alignedT := reaches_aligned tree.aligned reach
  have alignedP : page % pageGranularity = 0 := points ▸ table_of_aligned entry
  have different := apart v l t reach
  unfold pageGranularity at *
  omega

omit descends in
theorem grow_reaches {w k u : Nat} (other : Reaches (Function.update memory (t + 8 * vaddrToIndex v l) entry) top w k u) :
    Reaches memory top w k u ∨ (k + 1 = l ∧ SameSlot l v w ∧ u = page) := by
  induction other with
  | top => exact .inl .top
  | down level table _ step ih =>
      rcases ih with old | ⟨_, _, rfl⟩
      · rw [read_store tree reach old] at step ⊢
        by_cases here : level + 1 = l ∧ SameSlot l v w
        · rw [if_pos here] at step ⊢
          exact .inr ⟨here.1, here.2, points⟩
        · rw [if_neg here] at step ⊢
          exact .inl (.down level table old step)
      · rw [grown_blank tree reach points blank apart] at step
        exact absurd step (zero_stops _)

omit descends in
theorem grow_tree : Tree (Function.update memory (t + 8 * vaddrToIndex v l) entry) top := by
  refine ⟨tree.aligned, fun w x k j u first second => ?_⟩
  rcases grow_reaches tree reach points blank apart first with old | ⟨level, same, rfl⟩
  · rcases grow_reaches tree reach points blank apart second with old' | ⟨_, _, rfl⟩
    · exact tree.separate w x k j u old old'
    · exact absurd rfl (apart w k _ old)
  · rcases grow_reaches tree reach points blank apart second with old' | ⟨level', same', _⟩
    · exact absurd rfl (apart x j _ old')
    · refine ⟨by omega, ?_⟩
      rw [level]
      exact same_slot_trans (same_slot_symm same) same'

theorem grow_entries (w : Nat) : entries (Function.update memory (t + 8 * vaddrToIndex v l) entry) w levelCount top =
    if SameSlot l v w then (entries memory w levelCount top).take (levelCount - l) ++ [entry, 0]
    else entries memory w levelCount top := by
  by_cases same : SameSlot l v w
  · have reachW : Reaches memory top w l t := reaches_same reach (same_slot_mono (Nat.le_succ _) same)
    have read := @read_store memory top v l t entry tree reach w l t reachW
    rw [if_pos ⟨rfl, same⟩] at read
    have below := descends.1
    obtain ⟨k, rfl⟩ : ∃ k, l = k + 1 := ⟨l - 1, by omega⟩
    have zero := grown_blank tree reach points blank apart w k
    have last : entries (Function.update memory (t + 8 * vaddrToIndex v (k + 1)) entry) w k page = [0] := by
      rw [entries_stop (by omega) (by rw [zero]; exact zero_stops _), zero]
    rw [if_pos same, entries_store_below tree reach same levelCount top .top (reaches_level reach),
      entries_descend (by rw [read]; exact descends), read, points, last]
  · rw [if_neg same, entries_store_elsewhere tree reach same levelCount top .top]

omit blank apart in
theorem grow_down : Reaches (Function.update memory (t + 8 * vaddrToIndex v l) entry) top v (l - 1) page := by
  have below := descends.1
  obtain ⟨k, rfl⟩ : ∃ k, l = k + 1 := ⟨l - 1, by omega⟩
  have here := @store_reaches_above memory top v (k + 1) t entry tree reach v (k + 1) t reach fun _ => Nat.le_refl _
  have read := @read_store memory top v (k + 1) t entry tree reach v (k + 1) t reach
  rw [if_pos ⟨rfl, same_slot_refl _ _⟩] at read
  have next := Reaches.down k t here (by rw [read]; exact descends)
  rw [read, points] at next
  exact next

end Grow

end Elysium.Ptm
