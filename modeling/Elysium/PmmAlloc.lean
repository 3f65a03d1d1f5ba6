import Elysium.PmmFree

set_option autoImplicit false

namespace Elysium.Pmm

open Dyadic

def outOfMemory : Fault := .panic "PMM" "out of memory"

theorem available_order_cases (zone : Zone) (left : Nat) : ∀ avlOrder,
    (∃ found, availableOrder zone left avlOrder = .ok found ∧ avlOrder ≤ found ∧ found < avlOrder + left ∧
      zone.lists found ≠ []) ∨
    (availableOrder zone left avlOrder = .error outOfMemory ∧
      ∀ k, avlOrder ≤ k → k < avlOrder + left → zone.lists k = []) := by
  induction left with
  | zero => exact fun avlOrder => .inr ⟨rfl, fun k above below => by omega⟩
  | succ left ih =>
      intro avlOrder
      rw [availableOrder]
      by_cases empty : (zone.lists avlOrder).length = 0
      · rw [if_pos empty]
        rcases ih (avlOrder + 1) with ⟨found, run, above, below, some⟩ | ⟨run, none⟩
        · exact .inl ⟨found, run, by omega, by omega, some⟩
        · refine .inr ⟨run, fun k above below => ?_⟩
          by_cases first : k = avlOrder
          · rw [first]
            exact List.length_eq_zero_iff.mp empty
          · exact none k (by omega) (by omega)
      · rw [if_neg empty]
        exact .inl ⟨avlOrder, rfl, Nat.le_refl _, by omega, fun nil => empty (by rw [nil]; rfl)⟩

-- One round of the splitting loop: the upper half is given to its list.
def splitOff (z : ZoneId) (k h : Nat) (s : State) : State :=
  (s.setBlock (h + 2 ^ k) { s.pageDb (h + 2 ^ k) with order := k, free := true }).listPush z k (h + 2 ^ k)

theorem split_step {s : State} {layout : Layout} {h : Nat} (tracks : Tracks s layout (· = h)) (z : ZoneId) (k : Nat)
    (held : Held layout (k + 1) h) (side : holder h = z) (canonical : layout.Canonical) :
    ∃ next : Layout, Tracks (splitOff z k h s) next (· = h) ∧ Held next k h ∧ next.Canonical ∧
      Grown layout next (k + 1) h k h := by
  obtain ⟨cell, taken⟩ := held
  have headLow : IsHead k h := is_head_mono (Nat.le_succ k) cell.2.2
  have upper : h + 2 ^ k = buddy k h := half_is_buddy cell.2.2
  have upperHead := buddy_head headLow
  have parent := buddy_parent k h
  have apart := buddy_other_cell k h
  have small := cell_order_small tracks cell
  have upperSide : holder (buddy k h) = z := (holder_cell (Nat.le_trans small (by decide)) parent).symm.trans side
  have allTaken : ∀ p, SameCell (k + 1) h p → ¬ layout.free p := fun p inside freeP =>
    taken ((layout.cell_covers (k + 1) h p cell inside).2.2.mp freeP)
  have cut := layout.cut_cell (k + 1) h cell k (Nat.le_succ k)
  -- Cut the block into two halves in hand, write the upper record, release it.
  have halves := tracks_recut tracks h (k + 1) k cut allTaken (fun p => p = h ∨ p = buddy k h)
    (fun p inside head => (parent_cells k h p inside).imp
      (fun own => head_unique head headLow (same_cell_symm own))
      (fun others => head_unique head upperHead (same_cell_symm others)))
    (fun p _ => .inl)
  have written := tracks_write_hand halves (buddy k h) { s.pageDb (buddy k h) with order := k, free := true } rfl
  have upperCell : (layout.recut h (k + 1) k False cut).Cell k (buddy k h) :=
    (Layout.recut_cell_inside cut parent).mpr ⟨rfl, upperHead⟩
  have upperHeld : Held (layout.recut h (k + 1) k False cut) k (buddy k h) :=
    ⟨upperCell, fun freeUp => (Layout.recut_free_inside cut parent).mp freeUp⟩
  have released := tracks_release written z k (buddy k h) upperHeld upperSide
    (by simp [State.setBlock]) (by simp [State.setBlock])
  have notUpper : ¬ SameCell k (buddy k h) h := fun same => apart (same_cell_symm same)
  have upperInside : ∀ p, SameCell k (buddy k h) p → SameCell (k + 1) h p := fun p member =>
    same_cell_trans parent (same_cell_mono (Nat.le_succ k) member)
  have lower := tracks_weaken released (· = h) fun _ p _ inHand =>
    inHand.1.elim (fun either => either.elim id fun up => absurd up inHand.2) fun up => absurd up inHand.2
  have state : (s.setBlock (buddy k h) { s.pageDb (buddy k h) with order := k, free := true }).listPush z k (buddy k h) =
      splitOff z k h s := by rw [splitOff, upper]
  rw [state] at lower
  refine ⟨_, lower, ⟨?_, ?_⟩, ?_, rfl, rfl, ?_, ?_⟩
  · rw [Layout.recut_cell_outside _ notUpper]
    exact (Layout.recut_cell_inside cut (same_cell_refl _ h)).mpr ⟨rfl, headLow⟩
  · rw [Layout.recut_free_outside _ notUpper, Layout.recut_free_inside cut (same_cell_refl _ h)]
    exact id
  · refine Layout.canonical_of_freed _ (layout.canonical_of_taken canonical cut) upperCell ?_
    rintro _ ⟨_, freeLow⟩
    rw [buddy_buddy] at freeLow
    exact (Layout.recut_free_inside cut (same_cell_refl _ h)).mp freeLow
  · intro p
    by_cases up : SameCell k (buddy k h) p
    · rw [Layout.recut_free_inside _ up]
      exact iff_of_true (.inl trivial) (.inr (upperInside p up))
    · rw [Layout.recut_free_outside _ up]
      by_cases inside : SameCell (k + 1) h p
      · exact iff_of_true (.inr ((parent_cells k h p inside).resolve_right up)) (.inr inside)
      · rw [Layout.recut_free_outside cut inside]
        exact or_congr Iff.rfl (iff_of_false (fun own => inside (same_cell_mono (Nat.le_succ k) own)) inside)
  · intro j p
    unfold Held
    by_cases inside : SameCell (k + 1) h p
    · refine iff_of_false ?_ ?_
      · rintro ⟨⟨cellP, takenP⟩, notLow⟩
        by_cases up : SameCell k (buddy k h) p
        · exact takenP ((Layout.recut_free_inside _ up).mpr trivial)
        · rw [Layout.recut_cell_outside _ up, Layout.recut_cell_inside cut inside] at cellP
          have own := (parent_cells k h p inside).resolve_right up
          exact notLow (head_unique cellP.2 headLow (same_cell_symm own))
      · rintro ⟨⟨cellP, _⟩, notLow⟩
        exact notLow (layout.cell_unique (k + 1) j h p p cell cellP inside (same_cell_refl j p)).1.symm
    · have notUp : ¬ SameCell k (buddy k h) p := fun up => inside (upperInside p up)
      rw [Layout.recut_cell_outside _ notUp, Layout.recut_free_outside _ notUp, Layout.recut_cell_outside cut inside,
        Layout.recut_free_outside cut inside]

theorem split_off_weight (z y : ZoneId) (k h : Nat) (s : State) (small : k ≤ pmmMaxOrder) :
    zoneWeight (splitOff z k h s) y = zoneWeight s y + if y = z then 2 ^ k else 0 :=
  zone_weight_push _ z y k (h + 2 ^ k) small

theorem split_loop_step (z : ZoneId) (h order surplus : Nat) (s : State) :
    splitLoop z h order (surplus + 1) s = splitLoop z h order surplus (splitOff z (order + surplus) h s) := by
  rw [splitLoop, page_above]
  rfl

theorem split_loop_spec (z : ZoneId) (h order surplus : Nat) : ∀ (s : State) (layout : Layout),
    Tracks s layout (· = h) → Held layout (order + surplus) h → holder h = z → layout.Canonical →
    ∃ next : Layout, Tracks (splitLoop z h order surplus s) next (· = h) ∧ Held next order h ∧ next.Canonical ∧
      Grown layout next (order + surplus) h order h ∧
      (∀ y, ((splitLoop z h order surplus s).zone y).freePageCount = (s.zone y).freePageCount) ∧
      (∀ y, zoneWeight (splitLoop z h order surplus s) y + (if y = z then 2 ^ order else 0) =
        zoneWeight s y + if y = z then 2 ^ (order + surplus) else 0) := by
  induction surplus with
  | zero =>
      intro s layout tracks held _ canonical
      exact ⟨layout, tracks, held, canonical, grown_refl _ _ _, fun _ => rfl, fun _ => rfl⟩
  | succ surplus ih =>
      intro s layout tracks held side canonical
      obtain ⟨half, halfTracks, halfHeld, halfCanonical, halfGrown⟩ :=
        split_step tracks z (order + surplus) held side canonical
      obtain ⟨next, nextTracks, nextHeld, nextCanonical, nextGrown, counts, weights⟩ :=
        ih _ half halfTracks halfHeld side halfCanonical
      have small := cell_order_small tracks held.1
      rw [split_loop_step]
      refine ⟨next, nextTracks, nextHeld, nextCanonical, grown_trans halfGrown nextGrown, ?_, ?_⟩
      · intro y
        rw [counts y]
        exact count_set_list _ _ _ _ _
      · intro y
        have total := weights y
        rw [split_off_weight _ _ _ _ _ (by omega)] at total
        by_cases zone : y = z
        · simp only [zone, if_true, ← Nat.add_assoc, Nat.pow_succ] at total ⊢
          omega
        · simpa only [zone, if_false] using total

structure Allocated (s s' : State) (layout next : Layout) (z : ZoneId) (order h : Nat) : Prop where
  tracks : Tracks s' next nobody
  canonical : next.Canonical
  dom : next.dom = layout.dom
  top : next.top = layout.top
  cell : Held next order h
  side : holder h = z
  wasFree : ∀ p, SameCell order h p → layout.free p
  free : ∀ p, next.free p ↔ layout.free p ∧ ¬ SameCell order h p
  held : ∀ j p, Held next j p ↔ Held layout j p ∨ (j = order ∧ p = h)
  counts : ∀ y, (s'.zone y).freePageCount = (s.zone y).freePageCount - if y = z then 2 ^ order else 0
  weights : ∀ y, zoneWeight s' y + (if y = z then 2 ^ order else 0) = zoneWeight s y

-- The last writes of pmm_alloc: the record of the block and the counter, and the
-- memory when the caller asked for zeroed pages.
def finishAlloc (z : ZoneId) (order flags h : Nat) (s : State) : State :=
  let s := s.setBlock h { s.pageDb h with order := order, free := false }
  let s := s.setZone z { s.zone z with freePageCount := (s.zone z).freePageCount - orderToPagecount order }
  if flags &&& flagZero ≠ 0 then
    { s with memory := memClear s.memory (blockPaddr h) (orderToPagecount order * pageGranularity) }
  else s

theorem finish_alloc_zone (z y : ZoneId) (order flags h : Nat) (s : State) :
    (finishAlloc z order flags h s).zone y = if y = z then
      { s.zone z with freePageCount := (s.zone z).freePageCount - 2 ^ order } else s.zone y := by
  unfold finishAlloc
  rw [order_to_pagecount_eq]
  by_cases zero : flags &&& flagZero ≠ 0 <;> by_cases zone : y = z <;> simp [zero, zone, State.setBlock, State.setZone]

theorem finish_alloc_page_db (z : ZoneId) (order flags h : Nat) (s : State) :
    (finishAlloc z order flags h s).pageDb = (s.setBlock h { s.pageDb h with order := order, free := false }).pageDb := by
  unfold finishAlloc
  by_cases zero : flags &&& flagZero ≠ 0 <;> simp [zero, State.setBlock, State.setZone]

theorem pmm_alloc_pop (order flags found h : Nat) (rest : List Nat) (s : State) (small : order ≤ pmmMaxOrder)
    (available : availableOrder (s.zone (allocZone flags)) (pmmMaxOrder + 1 - order) order = .ok found)
    (head : (s.zone (allocZone flags)).lists found = h :: rest) :
    pmmAlloc order flags s = .ok
      (finishAlloc (allocZone flags) order flags h
        (splitLoop (allocZone flags) h order (found - order) (s.setList (allocZone flags) found rest)), h) := by
  simp only [pmmAlloc, assertThat, decide_eq_true small, if_true, bind_ok, available, head]
  rfl

-- In any state, an allocation that does not return has run out of memory.
theorem pmm_alloc_returns (order flags : Nat) (s : State) (small : order ≤ pmmMaxOrder) :
    (∃ s' h, pmmAlloc order flags s = .ok (s', h)) ∨ pmmAlloc order flags s = .error outOfMemory := by
  rcases available_order_cases (s.zone (allocZone flags)) (pmmMaxOrder + 1 - order) order with
    ⟨found, available, _, _, nonempty⟩ | ⟨available, _⟩
  · obtain ⟨h, rest, list⟩ := List.exists_cons_of_ne_nil nonempty
    exact .inl ⟨_, h, pmm_alloc_pop order flags found h rest s small available list⟩
  · refine .inr ?_
    simp only [pmmAlloc, assertThat, decide_eq_true small, if_true, bind_ok, available]
    rfl

theorem pmm_alloc_spec {s : State} {layout : Layout} (tracks : Tracks s layout nobody) (canonical : layout.Canonical)
    (order flags : Nat) (small : order ≤ pmmMaxOrder) :
    (∃ s' h next, pmmAlloc order flags s = .ok (s', h) ∧ Allocated s s' layout next (allocZone flags) order h) ∨
    (pmmAlloc order flags s = .error outOfMemory ∧
      ∀ k, order ≤ k → k ≤ pmmMaxOrder → (s.zone (allocZone flags)).lists k = []) := by
  generalize zoneEq : allocZone flags = z
  rcases available_order_cases (s.zone z) (pmmMaxOrder + 1 - order) order with
    ⟨found, available, above, below, nonempty⟩ | ⟨available, none⟩
  · refine .inl ?_
    obtain ⟨h, rest, list⟩ := List.exists_cons_of_ne_nil nonempty
    have listed : h ∈ (s.zone z).lists found := by
      rw [list]
      exact List.mem_cons_self
    obtain ⟨cell, free, side⟩ := (tracks.listed z found h).mp listed
    obtain ⟨surplus, rfl⟩ := Nat.exists_eq_add_of_le above
    have poppedEq : ((s.zone z).lists (order + surplus)).erase h = rest := by rw [list, List.erase_cons_head]
    have popped := tracks_weaken (tracks_take tracks z (order + surplus) h cell side)
      (· = h) fun _ p _ inHand => inHand.elim False.elim id
    rw [poppedEq] at popped
    let taken := layout.recut h (order + surplus) (order + surplus) False
      (layout.cut_cell _ h cell _ (Nat.le_refl _))
    have takenHeld : Held taken (order + surplus) h :=
      ⟨(Layout.recut_cell_inside _ (same_cell_refl _ h)).mpr ⟨rfl, cell.2.2⟩,
        fun freeH => (Layout.recut_free_inside _ (same_cell_refl _ h)).mp freeH⟩
    obtain ⟨next, split, held, nextCanonical, grown, counts, weights⟩ :=
      split_loop_spec z h order surplus _ taken popped takenHeld side (layout.canonical_of_taken canonical _)
    have run := pmm_alloc_pop order flags (order + surplus) h rest s small (by rw [zoneEq]; exact available)
      (by rw [zoneEq]; exact list)
    rw [zoneEq, Nat.add_sub_cancel_left] at run
    refine ⟨_, h, next, run, ?_, nextCanonical, grown.dom, grown.top, held, side, ?_, ?_, ?_, ?_, ?_⟩
    · have written := tracks_write_hand split h
        { (splitLoop z h order surplus (s.setList z (order + surplus) rest)).pageDb h with order := order, free := false } rfl
      have settled := tracks_settle written order h held (by simp [State.setBlock]) (by simp [State.setBlock])
      have final := tracks_weaken settled nobody fun _ p _ inHand =>
        inHand.1.elim (fun same => inHand.2 same) fun same => inHand.2 same
      refine tracks_counters final ?_ ?_ (finish_alloc_page_db z order flags h _)
      · intro y
        rw [finish_alloc_zone]
        by_cases zone : y = z
        · subst zone
          simpa [State.setBlock] using final.bounds y
        · simpa [zone, State.setBlock] using final.bounds y
      · intro y
        rw [finish_alloc_zone]
        by_cases zone : y = z
        · subst zone
          simp [State.setBlock]
        · simp [zone, State.setBlock]
    · intro p inside
      exact (layout.cell_covers _ h p cell (same_cell_mono above inside)).2.2.mpr free
    · intro p
      have change := grown.free p
      by_cases inCell : SameCell order h p
      · have taken := (next.cell_covers order h p held.1 inCell).2.2
        exact iff_of_false (fun freeP => held.2 (taken.mp freeP)) fun both => both.2 inCell
      · by_cases inside : SameCell (order + surplus) h p
        · have wasFree := (layout.cell_covers _ h p cell inside).2.2.mpr free
          exact iff_of_true ((change.mpr (.inr inside)).resolve_right inCell) ⟨wasFree, inCell⟩
        · rw [or_iff_left inCell, or_iff_left inside, Layout.recut_free_outside _ inside] at change
          rw [change]
          exact (and_iff_left inCell).symm
    · intro j p
      have change := grown.held j p
      by_cases isHead : p = h
      · subst isHead
        constructor
        · intro heldP
          exact .inr ⟨heldP.1.2.1.symm.trans held.1.2.1, rfl⟩
        · rintro (⟨_, takenP⟩ | ⟨rfl, _⟩)
          · exact absurd free takenP
          · exact held
      · rw [and_iff_left isHead, and_iff_left isHead] at change
        rw [change, or_iff_left fun same => isHead same.2]
        by_cases inside : SameCell (order + surplus) h p
        · refine iff_of_false ?_ fun held => held.2 ((layout.cell_covers _ h p cell inside).2.2.mpr free)
          rintro ⟨cellP, _⟩
          have headP := ((Layout.recut_cell_inside _ inside).mp cellP).2
          exact isHead (head_unique headP cell.2.2 (same_cell_symm inside))
        · unfold Held
          rw [Layout.recut_cell_outside _ inside, Layout.recut_free_outside _ inside]
    · intro y
      rw [finish_alloc_zone]
      by_cases zone : y = z
      · subst zone
        simp [counts, count_set_list]
      · simp [zone, counts, count_set_list]
    · intro y
      have same : zoneWeight (finishAlloc z order flags h (splitLoop z h order surplus (s.setList z (order + surplus) rest))) y =
          zoneWeight (splitLoop z h order surplus (s.setList z (order + surplus) rest)) y := by
        unfold zoneWeight
        rw [finish_alloc_zone]
        by_cases zone : y = z
        · subst zone
          simp
        · simp [zone]
      have pop := zone_weight_set_list s z y (order + surplus) (cell_order_small tracks cell) rest
      have total := weights y
      rw [same]
      by_cases zone : y = z
      · simp only [zone, if_true, list, List.length_cons, Nat.mul_succ] at pop total ⊢
        omega
      · simp only [zone, if_false] at pop total ⊢
        omega
  · refine .inr ⟨?_, fun k above within => none k above (by omega)⟩
    simp only [pmmAlloc, zoneEq, available, assertThat, decide_eq_true small, if_true, bind_ok]
    rfl

end Elysium.Pmm
