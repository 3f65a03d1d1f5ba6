import Elysium.PmmTracks

set_option autoImplicit false

namespace Elysium.Pmm

open Dyadic

-- How the layout changes while the block in hand grows from (k, h) to (k', h').
structure Grown (before after : Layout) (k h k' h' : Nat) : Prop where
  dom : after.dom = before.dom
  top : after.top = before.top
  free : ∀ p, (after.free p ∨ SameCell k' h' p) ↔ (before.free p ∨ SameCell k h p)
  held : ∀ j p, (Held after j p ∧ p ≠ h') ↔ (Held before j p ∧ p ≠ h)

theorem grown_refl (layout : Layout) (k h : Nat) : Grown layout layout k h k h :=
  ⟨rfl, rfl, fun _ => Iff.rfl, fun _ _ => Iff.rfl⟩

theorem grown_trans {a b c : Layout} {k h k' h' k'' h'' : Nat} (first : Grown a b k h k' h')
    (second : Grown b c k' h' k'' h'') : Grown a c k h k'' h'' :=
  ⟨second.dom.trans first.dom, second.top.trans first.top, fun p => (second.free p).trans (first.free p),
    fun j p => (second.held j p).trans (first.held j p)⟩

theorem merge_blocks_record (z : ZoneId) (k block other p : Nat) (s : State) (apart : block ≠ other)
    (either : p = block ∨ p = other) :
    (mergeBlocks z k block other s).pageDb p = { s.pageDb p with order := ((s.pageDb p).order + 1) % 8 } := by
  rcases either with rfl | rfl
  · simp [mergeBlocks, State.setBlock, State.setList, State.setZone, apart]
  · simp [mergeBlocks, State.setBlock, State.setList, State.setZone, Ne.symm apart]

theorem merge_blocks_weight (z y : ZoneId) (k block other : Nat) (s : State) (small : k ≤ pmmMaxOrder)
    (listed : other ∈ (s.zone z).lists k) :
    zoneWeight (mergeBlocks z k block other s) y + (if y = z then 2 ^ k else 0) = zoneWeight s y := by
  have change := zone_weight_set_list s z y k small (((s.zone z).lists k).erase other)
  have lists : zoneWeight (mergeBlocks z k block other s) y =
      zoneWeight (s.setList z k (((s.zone z).lists k).erase other)) y := rfl
  rw [lists]
  by_cases zone : y = z
  · subst zone
    have positive := List.length_pos_of_mem listed
    rw [if_pos rfl, if_pos rfl, List.length_erase_of_mem listed, Nat.mul_sub, Nat.mul_one] at change
    have enough : 2 ^ k ≤ 2 ^ k * ((s.zone y).lists k).length := Nat.le_mul_of_pos_right _ positive
    rw [if_pos rfl]
    omega
  · rw [if_neg zone, if_neg zone] at change
    rw [if_neg zone]
    exact change

theorem merge_blocks_count (z y : ZoneId) (k block other : Nat) (s : State) :
    ((mergeBlocks z k block other s).zone y).freePageCount = (s.zone y).freePageCount := count_set_list s z y k _

structure InHand (s : State) (layout : Layout) (z : ZoneId) (k h : Nat) : Prop where
  tracks : Tracks s layout (· = h)
  held : Held layout k h
  order : (s.pageDb h).order = k
  marked : (s.pageDb h).free = true
  side : holder h = z
  canonical : layout.Canonical

theorem merge_step {s : State} {layout : Layout} {z : ZoneId} {k h : Nat} (inv : InHand s layout z k h)
    (below : k < layout.top h) (other : layout.Cell k (buddy k h)) (otherFree : layout.free (buddy k h)) :
    ∃ next, InHand (mergeBlocks z k h (buddy k h) s) next z (k + 1) (if buddy k h < h then buddy k h else h) ∧
      Grown layout next k h (k + 1) (if buddy k h < h then buddy k h else h) := by
  obtain ⟨tracks, held, order, marked, side, canonical⟩ := inv
  have apart : h ≠ buddy k h := fun same => buddy_other_cell k h (by rw [← same]; exact same_cell_refl k h)
  have parent := buddy_parent k h
  have topSmall := (tracks.tops h held.1.1).2
  have limit : pmmMaxOrder = 7 := rfl
  have otherSide : holder (buddy k h) = z := (holder_cell (by omega) parent).symm.trans side
  -- The lower of the two starts their parent.
  generalize lowEq : (if buddy k h < h then buddy k h else h) = low
  have lowCases : (low = h ∨ low = buddy k h) ∧ IsHead (k + 1) low := by
    have positive := Nat.two_pow_pos k
    rcases parent_head_cases held.1.2.2 with ⟨head, eq⟩ | ⟨head, eq⟩
    · rw [if_neg (by omega)] at lowEq
      exact ⟨.inl lowEq.symm, lowEq ▸ head⟩
    · rw [if_pos (by omega)] at lowEq
      exact ⟨.inr lowEq.symm, lowEq ▸ head⟩
  obtain ⟨lowEither, lowHead⟩ := lowCases
  have lowInside : SameCell (k + 1) h low := by
    rcases lowEither with rfl | rfl
    · exact same_cell_refl _ _
    · exact parent
  -- Take the buddy off its list, rewrite both records, then join the two cells.
  let single := layout.recut (buddy k h) k k False (layout.cut_cell k _ other k (Nat.le_refl k))
  have unlinked := tracks_take tracks z k (buddy k h) other otherSide
  have raised := tracks_write_hand unlinked (buddy k h)
    { s.pageDb (buddy k h) with order := ((s.pageDb (buddy k h)).order + 1) % 8 } rfl
  have taken : Tracks (mergeBlocks z k h (buddy k h) s) single _ := tracks_write_hand raised h _ rfl
  have outsideOwn : ∀ p, SameCell k h p → ¬ SameCell k (buddy k h) p := fun p own others =>
    buddy_other_cell k h (same_cell_trans own (same_cell_symm others))
  have allTaken : ∀ p, SameCell (k + 1) h p → ¬ single.free p := by
    intro p inside
    rcases parent_cells k h p inside with own | others
    · rw [Layout.recut_free_outside _ (outsideOwn p own), (layout.cell_covers k h p held.1 own).2.2]
      exact held.2
    · rw [Layout.recut_free_inside _ others]
      exact id
  have cut : single.Cut h (k + 1) (k + 1) := by
    refine ⟨held.1.1, below, Nat.le_refl _, ?_⟩
    intro p inside
    rcases parent_cells k h p inside with own | others
    · rw [Layout.recut_ord_outside _ (outsideOwn p own), (layout.cell_covers k h p held.1 own).2.1]
      exact Nat.le_succ k
    · rw [Layout.recut_ord_inside _ others]
      exact Nat.le_succ k
  have joined := tracks_recut taken h (k + 1) (k + 1) cut allTaken (· = low)
    (fun p inside head => head_unique head lowHead (same_cell_trans (same_cell_symm inside) lowInside))
    (by
      rintro p outside (((rfl | rfl) | rfl) | rfl)
      · exact absurd (same_cell_refl _ _) outside
      · exact absurd parent outside
      · exact absurd parent outside
      · exact absurd (same_cell_refl _ _) outside)
  have outsideBuddy : ∀ p, ¬ SameCell (k + 1) h p → ¬ SameCell k (buddy k h) p := fun p outside others =>
    outside (same_cell_trans parent (same_cell_mono (Nat.le_succ k) others))
  have lowOrder : (s.pageDb low).order = k ∧ (s.pageDb low).free = true := by
    rcases lowEither with rfl | rfl
    · exact ⟨order, marked⟩
    · obtain ⟨otherOrder, otherMarked⟩ := tracks.heads k _ other (Ne.symm apart)
      exact ⟨otherOrder, otherMarked.mpr otherFree⟩
  have record := merge_blocks_record z k h (buddy k h) low s apart lowEither
  refine ⟨_, ⟨joined, ⟨(Layout.recut_cell_inside cut lowInside).mpr ⟨rfl, lowHead⟩, ?_⟩, ?_, ?_, ?_, ?_⟩, rfl, rfl, ?_, ?_⟩
  · rw [Layout.recut_free_inside cut lowInside]
    exact id
  · rw [record]
    show ((s.pageDb low).order + 1) % 8 = k + 1
    rw [lowOrder.1, Nat.mod_eq_of_lt (by omega)]
  · rw [record]
    exact lowOrder.2
  · exact (holder_cell (by omega) lowInside).symm.trans side
  · exact single.canonical_of_taken (layout.canonical_of_taken canonical _) cut
  · intro p
    by_cases inside : SameCell (k + 1) h p
    · refine iff_of_true (.inr (same_cell_trans (same_cell_symm lowInside) inside)) ?_
      rcases parent_cells k h p inside with own | others
      · exact .inr own
      · exact .inl ((layout.cell_covers k _ p other others).2.2.mpr otherFree)
    · rw [Layout.recut_free_outside cut inside, Layout.recut_free_outside _ (outsideBuddy p inside)]
      refine or_congr Iff.rfl (iff_of_false ?_ ?_)
      · exact fun inLow => inside (same_cell_trans lowInside inLow)
      · exact fun own => inside (same_cell_mono (Nat.le_succ k) own)
  · intro j p
    by_cases inside : SameCell (k + 1) h p
    · refine iff_of_false ?_ ?_
      · rintro ⟨⟨cellP, _⟩, notLow⟩
        have headP := ((Layout.recut_cell_inside cut inside).mp cellP).2
        exact notLow (head_unique headP lowHead (same_cell_trans (same_cell_symm inside) lowInside))
      · rintro ⟨⟨cellP, takenP⟩, notOwn⟩
        rcases parent_cells k h p inside with own | others
        · exact notOwn (layout.cell_unique k j h p p held.1 cellP own (same_cell_refl j p)).1.symm
        · exact takenP ((layout.cell_covers k _ p other others).2.2.mpr otherFree)
    · have notLow : p ≠ low := fun same => inside (same ▸ lowInside)
      have notOwn : p ≠ h := fun same => inside (same ▸ same_cell_refl _ p)
      unfold Held
      rw [Layout.recut_cell_outside cut inside, Layout.recut_cell_outside _ (outsideBuddy p inside),
        Layout.recut_free_outside cut inside, Layout.recut_free_outside _ (outsideBuddy p inside)]
      exact and_congr Iff.rfl (iff_of_true notLow notOwn)

theorem merge_loop_spec (z : ZoneId) (fuel : Nat) : ∀ (s : State) (layout : Layout) (k h : Nat),
    InHand s layout z k h → pmmMaxOrder < fuel + k →
    ∃ s' next k' h', mergeLoop z fuel h s = .ok (s', h') ∧ InHand s' next z k' h' ∧ Grown layout next k h k' h' ∧
      (k' < next.top h' → ¬ (next.ord (buddy k' h') = k' ∧ next.free (buddy k' h'))) ∧
      (∀ y, (s'.zone y).freePageCount = (s.zone y).freePageCount) ∧
      (∀ y, zoneWeight s' y + (if y = z then 2 ^ k' else 0) = zoneWeight s y + if y = z then 2 ^ k else 0) := by
  induction fuel with
  | zero =>
      intro s layout k h inv enough
      have small := cell_order_small inv.tracks inv.held.1
      omega
  | succ fuel ih =>
      intro s layout k h inv enough
      have order := inv.order
      have top := (inv.tracks.tops h inv.held.1.1).1
      have small := cell_order_small inv.tracks inv.held.1
      by_cases below : k < layout.top h
      · obtain ⟨buddyDom, buddyTop, buddySmall, buddyCell⟩ := layout.buddy_starts_cell k h inv.held.1 below
        have apart : buddy k h ≠ h := fun same =>
          buddy_other_cell k h (by rw [same]; exact same_cell_refl k h)
        obtain ⟨buddyOrder, buddyMarked⟩ := inv.tracks.heads _ _ buddyCell apart
        have buddyMax := (inv.tracks.tops _ buddyDom).1
        by_cases ready : layout.ord (buddy k h) = k ∧ layout.free (buddy k h)
        · obtain ⟨sameOrder, buddyFree⟩ := ready
          rw [sameOrder] at buddyCell buddyOrder
          obtain ⟨merged, step, grown⟩ := merge_step inv below buddyCell buddyFree
          have listed : buddy k h ∈ (s.zone z).lists k := by
            refine (inv.tracks.listed z k _).mpr ⟨buddyCell, buddyFree, ?_⟩
            exact (holder_cell (Nat.le_trans (Nat.succ_le_succ small) (by decide)) (buddy_parent k h)).symm.trans inv.side
          obtain ⟨s', next, k', h', run, inv', grown', settled, counts, weights⟩ := ih _ merged _ _ step (by omega)
          refine ⟨s', next, k', h', ?_, inv', grown_trans grown grown', settled, ?_, ?_⟩
          · rw [mergeLoop, order, top, if_pos below, page_xor]
            dsimp only
            rw [buddyOrder, buddyMax, buddyTop]
            simp only [buddyMarked.mpr buddyFree, Bool.not_true, Bool.false_or, ne_eq, not_true_eq_false, decide_false,
              Bool.or_false, decide_eq_true_eq]
            rw [if_neg (by omega), if_pos listed]
            simp only [paddr_lt]
            exact run
          · intro y
            rw [counts y, merge_blocks_count]
          · intro y
            have merging := merge_blocks_weight z y k h (buddy k h) s small listed
            have total := weights y
            by_cases zone : y = z
            · simp only [zone, if_true, Nat.pow_succ] at merging total ⊢
              omega
            · simp only [zone, if_false] at merging total ⊢
              omega
        · refine ⟨s, layout, k, h, ?_, inv, grown_refl _ _ _, fun _ => ready, fun _ => rfl, fun _ => rfl⟩
          rw [mergeLoop, order, top, if_pos below, page_xor]
          dsimp only
          rw [buddyOrder, buddyMax, if_pos]
          by_cases buddyFree : layout.free (buddy k h)
          · have different : layout.ord (buddy k h) ≠ k := fun same => ready ⟨same, buddyFree⟩
            simp [different]
          · have unmarked : (s.pageDb (buddy k h)).free = false := by
              simpa using fun marked => buddyFree (buddyMarked.mp marked)
            simp [unmarked]
      · refine ⟨s, layout, k, h, ?_, inv, grown_refl _ _ _, fun lt => absurd lt below, fun _ => rfl, fun _ => rfl⟩
        rw [mergeLoop, order, top, if_neg below]

-- What freeing a live block does to the layout and to the counters.
theorem pmm_free_spec {s : State} {layout : Layout} (tracks : Tracks s layout nobody) (canonical : layout.Canonical)
    (k h : Nat) (held : Held layout k h) :
    ∃ s' next, pmmFree h s = .ok s' ∧ Tracks s' next nobody ∧ next.Canonical ∧
      next.dom = layout.dom ∧ next.top = layout.top ∧
      (∀ p, next.free p ↔ layout.free p ∨ SameCell k h p) ∧
      (∀ j p, Held next j p ↔ Held layout j p ∧ p ≠ h) ∧
      (∀ y, (s'.zone y).freePageCount = (s.zone y).freePageCount + if y = holder h then 2 ^ k else 0) ∧
      (∀ y, zoneWeight s' y = zoneWeight s y + if y = holder h then 2 ^ k else 0) := by
  obtain ⟨recorded, _⟩ := tracks.heads k h held.1 id
  have zoneEq := free_zone_eq h (tracks.located h held.1.1).2
  let counted := s.setZone (holder h)
    { s.zone (holder h) with freePageCount := (s.zone (holder h)).freePageCount + 2 ^ k }
  have countedTracks : Tracks counted layout nobody := by
    refine tracks_counters tracks ?_ ?_ rfl
    · intro y
      by_cases zone : y = holder h
      · subst zone
        simpa [counted, State.setZone] using tracks.bounds (holder h)
      · simpa [counted, State.setZone, zone] using tracks.bounds y
    · intro y
      by_cases zone : y = holder h
      · subst zone
        simp [counted, State.setZone]
      · simp [counted, State.setZone, zone]
  have start : InHand (counted.setBlock h { counted.pageDb h with free := true }) layout (holder h) k h := by
    refine ⟨?_, held, ?_, ?_, rfl, canonical⟩
    · exact tracks_weaken (tracks_write_hand countedTracks h { counted.pageDb h with free := true } rfl)
        _ fun _ p _ inHand => inHand.elim False.elim id
    · simpa [State.setBlock, counted, State.setZone] using recorded
    · simp [State.setBlock]
  obtain ⟨s', next, k', h', run, inv, grown, settled, counts, weights⟩ :=
    merge_loop_spec (holder h) (pmmMaxOrder + 1) _ layout k h start (by omega)
  have released := tracks_release inv.tracks (holder h) k' h' inv.held inv.side inv.order inv.marked
  have small := cell_order_small inv.tracks inv.held.1
  refine ⟨s'.listPush (holder h) k' h', _, ?_, tracks_weaken released _ fun _ p _ inHand => inHand.2 inHand.1,
    next.canonical_of_freed inv.canonical inv.held.1 settled, grown.dom, grown.top, ?_, ?_, ?_, ?_⟩
  · simp only [pmmFree, zoneEq, recorded, order_to_pagecount_eq]
    rw [run, bind_ok]
    simp only [inv.order]
  · intro p
    rw [← grown.free p]
    by_cases inside : SameCell k' h' p
    · rw [Layout.recut_free_inside _ inside]
      exact iff_of_true trivial (.inr inside)
    · rw [Layout.recut_free_outside _ inside]
      exact ⟨.inl, fun cases => cases.elim id fun member => absurd member inside⟩
  · intro j p
    rw [← grown.held j p]
    by_cases inside : SameCell k' h' p
    · unfold Held
      rw [Layout.recut_free_inside _ inside]
      refine iff_of_false (fun impossible => impossible.2 trivial) ?_
      rintro ⟨⟨cellP, _⟩, notHand⟩
      exact notHand (next.cell_unique k' j h' p p inv.held.1 cellP inside (same_cell_refl j p)).1.symm
    · have notHand : p ≠ h' := fun same => inside (same ▸ same_cell_refl _ p)
      unfold Held
      rw [Layout.recut_free_outside _ inside, Layout.recut_cell_outside _ inside]
      simp only [notHand, ne_eq, not_false_eq_true, and_true]
  · intro y
    rw [State.listPush, count_set_list, counts y]
    by_cases zone : y = holder h
    · subst zone
      simp [State.setBlock, counted, State.setZone]
    · simp [State.setBlock, counted, State.setZone, zone]
  · intro y
    have same : zoneWeight (counted.setBlock h { counted.pageDb h with free := true }) y = zoneWeight s y := by
      by_cases zone : y = holder h
      · subst zone
        simp [zoneWeight, State.setBlock, counted, State.setZone]
      · simp [zoneWeight, State.setBlock, counted, State.setZone, zone]
    have total := weights y
    rw [same] at total
    rw [zone_weight_push _ _ _ _ _ small]
    exact total

end Elysium.Pmm
