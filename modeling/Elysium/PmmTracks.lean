import Elysium.PmmRegion
import Mathlib.Algebra.BigOperators.Group.Finset.Basic

set_option autoImplicit false

namespace Elysium.Pmm

open Dyadic

theorem holder_cell {k p q : Nat} (small : k ≤ 12) (same : SameCell k p q) : holder p = holder q := by
  have coarse : p / 2 ^ 12 = q / 2 ^ 12 := same_cell_mono small same
  have limit : memLowSize / pageGranularity = 2 ^ 12 := rfl
  unfold holder
  rw [limit]
  by_cases low : p < 2 ^ 12
  · rw [if_pos low, if_pos (by omega)]
  · rw [if_neg low, if_neg (by omega)]

theorem lists_set_list (s : State) (z y : ZoneId) (k j : Nat) (list : List Nat) :
    ((s.setList z k list).zone y).lists j = if y = z ∧ j = k then list else (s.zone y).lists j := by
  by_cases zone : y = z
  · subst zone
    by_cases order : j = k
    · subst order
      simp [State.setList, State.setZone]
    · simp [State.setList, State.setZone, order]
  · simp [State.setList, State.setZone, zone]

theorem bounds_set_list (s : State) (z : ZoneId) (k : Nat) (list : List Nat) (bounds : KeepsBounds s) :
    KeepsBounds (s.setList z k list) := by
  intro y
  by_cases zone : y = z
  · subst zone
    simpa [State.setList, State.setZone] using bounds y
  · simpa [State.setList, State.setZone, zone] using bounds y

theorem count_set_list (s : State) (z y : ZoneId) (k : Nat) (list : List Nat) :
    ((s.setList z k list).zone y).freePageCount = (s.zone y).freePageCount := by
  by_cases zone : y = z
  · subst zone
    simp [State.setList, State.setZone]
  · simp [State.setList, State.setZone, zone]

theorem page_above (block order : Nat) :
    page (blockPaddr block + orderToPagecount order * pageGranularity) = block + 2 ^ order := by
  unfold page blockPaddr
  rw [order_to_pagecount_eq, ← Nat.add_mul, Nat.mul_div_cancel _ (by decide : 0 < pageGranularity)]

-- The buddy is looked up by flipping one bit of the physical address.
theorem page_xor (block order : Nat) :
    page (blockPaddr block ^^^ orderToPagecount order * pageGranularity) = buddy order block := by
  have shifted : pageGranularity = 2 ^ 12 := rfl
  unfold page blockPaddr buddy
  rw [order_to_pagecount_eq, shifted, Nat.xor_div_two_pow, Nat.mul_div_cancel _ (by decide),
    Nat.mul_div_cancel _ (by decide)]

theorem paddr_lt (a b : Nat) : blockPaddr a < blockPaddr b ↔ a < b := by
  unfold blockPaddr
  exact Nat.mul_lt_mul_right (by decide)

theorem low_mask (paddr : Nat) (fits : paddr < 2 ^ 64) : paddr &&& (2 ^ 64 - 1 - memLowMask) > 0 ↔ memLowSize ≤ paddr := by
  have mask : (2 ^ 64 - 1 - memLowMask : Nat) = (2 ^ 40 - 1) <<< 24 := by decide
  have size : memLowSize = 2 ^ 24 := rfl
  rw [mask, size]
  have value : paddr &&& ((2 ^ 40 - 1) <<< 24) = (paddr >>> 24 &&& (2 ^ 40 - 1)) <<< 24 := by
    apply Nat.eq_of_testBit_eq
    intro i
    simp only [Nat.testBit_and, Nat.testBit_shiftLeft, Nat.testBit_shiftRight]
    by_cases high : 24 ≤ i
    · simp [high]
    · simp [high]
  rw [value, Nat.and_two_pow_sub_one_eq_mod, Nat.shiftRight_eq_div_pow, Nat.shiftLeft_eq,
    Nat.mod_eq_of_lt (by omega)]
  omega

theorem free_zone_eq (block : Nat) (small : block < 2 ^ 52 - 1) : freeZone block = holder block := by
  have fits : blockPaddr block < 2 ^ 64 := by
    simp only [blockPaddr, pageGranularity]
    omega
  have limit : memLowSize ≤ blockPaddr block ↔ ¬ block < memLowSize / pageGranularity := by
    simp only [blockPaddr, pageGranularity, memLowSize]
    omega
  unfold freeZone holder
  simp only [low_mask _ fits, limit]
  by_cases low : block < memLowSize / pageGranularity <;> simp [low]

def freeWeight (lists : Nat → List Nat) : Nat :=
  ∑ k ∈ Finset.range (pmmMaxOrder + 1), 2 ^ k * (lists k).length

theorem free_weight_update (lists : Nat → List Nat) (k : Nat) (small : k ≤ pmmMaxOrder) (list : List Nat) :
    freeWeight (Function.update lists k list) + 2 ^ k * (lists k).length =
      freeWeight lists + 2 ^ k * list.length := by
  have member : k ∈ Finset.range (pmmMaxOrder + 1) := Finset.mem_range.mpr (by omega)
  have rest : ∑ j ∈ (Finset.range (pmmMaxOrder + 1)).erase k, 2 ^ j * (Function.update lists k list j).length =
      ∑ j ∈ (Finset.range (pmmMaxOrder + 1)).erase k, 2 ^ j * (lists j).length := by
    apply Finset.sum_congr rfl
    intro j inside
    rw [Function.update_of_ne (Finset.ne_of_mem_erase inside)]
  unfold freeWeight
  rw [← Finset.add_sum_erase _ _ member, ← Finset.add_sum_erase (Finset.range (pmmMaxOrder + 1)) _ member, rest,
    Function.update_self]
  omega

def zoneWeight (s : State) (z : ZoneId) : Nat := freeWeight (s.zone z).lists

theorem zone_weight_set_list (s : State) (z y : ZoneId) (k : Nat) (small : k ≤ pmmMaxOrder) (list : List Nat) :
    zoneWeight (s.setList z k list) y + (if y = z then 2 ^ k * ((s.zone z).lists k).length else 0) =
      zoneWeight s y + (if y = z then 2 ^ k * list.length else 0) := by
  unfold zoneWeight
  by_cases zone : y = z
  · subst zone
    simp only [if_true, State.setList, State.setZone, Function.update_self]
    exact free_weight_update _ k small list
  · simp [State.setList, State.setZone, zone]

theorem zone_weight_push (s : State) (z y : ZoneId) (k block : Nat) (small : k ≤ pmmMaxOrder) :
    zoneWeight (s.listPush z k block) y = zoneWeight s y + if y = z then 2 ^ k else 0 := by
  have change := zone_weight_set_list s z y k small (block :: (s.zone z).lists k)
  unfold State.listPush
  by_cases zone : y = z
  · subst zone
    simp only [if_true, List.length_cons, Nat.mul_succ] at change ⊢
    omega
  · simpa [zone] using change

-- The free lists and the page database describe a layout. While blocks are in
-- the hands of a running call their records may be out of step, so they are
-- named. Records of pages inside a cell are stale; nothing is said about them.
structure Tracks (s : State) (layout : Layout) (hand : Nat → Prop) : Prop where
  bounds : KeepsBounds s
  located : ∀ p, layout.dom p → 0 < p ∧ p < 2 ^ 52 - 1
  tops : ∀ p, layout.dom p → (s.pageDb p).maxOrder = layout.top p ∧ layout.top p ≤ pmmMaxOrder
  listed : ∀ z k h, h ∈ (s.zone z).lists k ↔ layout.Cell k h ∧ layout.free h ∧ holder h = z
  nodup : ∀ z k, ((s.zone z).lists k).Nodup
  heads : ∀ k h, layout.Cell k h → ¬ hand h →
    (s.pageDb h).order = k ∧ ((s.pageDb h).free = true ↔ layout.free h)

def Held (layout : Layout) (k h : Nat) : Prop := layout.Cell k h ∧ ¬ layout.free h

def nobody : Nat → Prop := fun _ => False

section Tracks

variable {s : State} {layout : Layout} {hand : Nat → Prop} (tracks : Tracks s layout hand)

include tracks

theorem cell_order_small {k h : Nat} (cell : layout.Cell k h) : k ≤ pmmMaxOrder := by
  have top := (tracks.tops h cell.1).2
  have order := layout.ord_le h cell.1
  have eq := cell.2.1
  omega

theorem cell_holder {k h p : Nat} (cell : layout.Cell k h) (member : SameCell k h p) : holder h = holder p :=
  holder_cell (Nat.le_trans (cell_order_small tracks cell) (by decide)) member

theorem held_unlisted {k h : Nat} (held : Held layout k h) (z : ZoneId) (j p : Nat) (inside : SameCell k h p) :
    p ∉ (s.zone z).lists j := by
  intro listed
  obtain ⟨_, freeP, _⟩ := (tracks.listed z j p).mp listed
  exact held.2 ((layout.cell_covers k h p held.1 inside).2.2.mp freeP)

theorem tracks_weaken (hand' : Nat → Prop) (covered : ∀ k p, layout.Cell k p → hand p → hand' p) :
    Tracks s layout hand' :=
  ⟨tracks.bounds, tracks.located, tracks.tops, tracks.listed, tracks.nodup, fun k h cell free =>
    tracks.heads k h cell fun inHand => free (covered k h cell inHand)⟩

-- Taking a listed block into the hands of the caller.
theorem tracks_take (z : ZoneId) (k h : Nat) (cell : layout.Cell k h) (side : holder h = z) :
    Tracks (s.setList z k (((s.zone z).lists k).erase h))
      (layout.recut h k k False (layout.cut_cell k h cell k (Nat.le_refl k))) (fun p => hand p ∨ p = h) := by
  refine ⟨bounds_set_list _ _ _ _ tracks.bounds, tracks.located, tracks.tops, ?_, ?_, ?_⟩
  · intro y j p
    rw [lists_set_list]
    by_cases inside : SameCell k h p
    · rw [Layout.recut_free_inside _ inside]
      refine iff_of_false ?_ (fun ⟨_, never, _⟩ => never)
      -- Inside the block only its head can be listed, and only where it was.
      have gone : ∀ j, p ∈ (s.zone y).lists j → p = h ∧ j = k ∧ y = z := by
        intro j listed
        obtain ⟨cellP, _, sideP⟩ := (tracks.listed y j p).mp listed
        obtain ⟨rfl, rfl⟩ := layout.cell_unique k j h p p cell cellP inside (same_cell_refl j p)
        exact ⟨rfl, rfl, sideP.symm.trans side⟩
      split
      · intro listed
        obtain ⟨rfl, _⟩ := gone k (by
          obtain ⟨rfl, rfl⟩ := ‹y = z ∧ j = k›
          exact List.mem_of_mem_erase listed)
        exact (tracks.nodup z k).not_mem_erase listed
      · intro listed
        obtain ⟨_, rfl, rfl⟩ := gone j listed
        exact absurd ⟨rfl, rfl⟩ ‹¬ (y = y ∧ j = j)›
    · rw [Layout.recut_free_outside _ inside, Layout.recut_cell_outside _ inside, ← tracks.listed y j p]
      split
      · obtain ⟨rfl, rfl⟩ := ‹y = z ∧ j = k›
        exact List.mem_erase_of_ne fun same => inside (same ▸ same_cell_refl j h)
      · exact Iff.rfl
  · intro y j
    rw [lists_set_list]
    split
    · exact (tracks.nodup z k).erase h
    · exact tracks.nodup y j
  · intro j p cellP other
    by_cases inside : SameCell k h p
    · obtain ⟨rfl, headP⟩ := (Layout.recut_cell_inside _ inside).mp cellP
      exact absurd (.inr (head_unique cell.2.2 headP inside).symm) other
    · rw [Layout.recut_free_outside _ inside]
      exact tracks.heads j p ((Layout.recut_cell_outside _ inside).mp cellP) fun inHand => other (.inl inHand)

-- Giving a block in hand back to its list, once its record is right.
theorem tracks_release (z : ZoneId) (k h : Nat) (held : Held layout k h) (side : holder h = z)
    (order : (s.pageDb h).order = k) (marked : (s.pageDb h).free = true) :
    Tracks (s.listPush z k h)
      (layout.recut h k k True (layout.cut_cell k h held.1 k (Nat.le_refl k))) (fun p => hand p ∧ p ≠ h) := by
  have cell := held.1
  have absent := held_unlisted tracks held
  refine ⟨bounds_set_list _ _ _ _ tracks.bounds, tracks.located, tracks.tops, ?_, ?_, ?_⟩
  · intro y j p
    rw [State.listPush, lists_set_list]
    by_cases inside : SameCell k h p
    · rw [Layout.recut_free_inside _ inside, Layout.recut_cell_inside _ inside]
      constructor
      · intro listed
        split at listed
        · obtain ⟨rfl, rfl⟩ := ‹y = z ∧ j = k›
          rcases List.mem_cons.mp listed with rfl | old
          · exact ⟨⟨rfl, cell.2.2⟩, trivial, side⟩
          · exact absurd old (absent _ _ _ inside)
        · exact absurd listed (absent _ _ _ inside)
      · rintro ⟨⟨rfl, headP⟩, _, sideP⟩
        have same := head_unique cell.2.2 headP inside
        subst same
        rw [if_pos ⟨sideP.symm.trans side, rfl⟩]
        exact List.mem_cons_self
    · rw [Layout.recut_free_outside _ inside, Layout.recut_cell_outside _ inside, ← tracks.listed y j p]
      split
      · obtain ⟨rfl, rfl⟩ := ‹y = z ∧ j = k›
        have different : p ≠ h := fun same => inside (same ▸ same_cell_refl j h)
        simp [different]
      · exact Iff.rfl
  · intro y j
    rw [State.listPush, lists_set_list]
    split
    · exact List.nodup_cons.mpr ⟨absent z k h (same_cell_refl k h), tracks.nodup z k⟩
    · exact tracks.nodup y j
  · intro j p cellP other
    by_cases inside : SameCell k h p
    · obtain ⟨rfl, headP⟩ := (Layout.recut_cell_inside _ inside).mp cellP
      have same := head_unique cell.2.2 headP inside
      subst same
      rw [Layout.recut_free_inside _ inside]
      exact ⟨order, iff_of_true marked trivial⟩
    · rw [Layout.recut_free_outside _ inside]
      refine tracks.heads j p ((Layout.recut_cell_outside _ inside).mp cellP) fun inHand => other ⟨inHand, ?_⟩
      rintro rfl
      exact inside (same_cell_refl k p)

-- Cutting held blocks differently changes no list: whatever heads a block
-- inside the cut afterwards is in hand.
theorem tracks_recut (h c k : Nat) (cut : layout.Cut h c k) (taken : ∀ p, SameCell c h p → ¬ layout.free p)
    (hand' : Nat → Prop) (inside' : ∀ p, SameCell c h p → IsHead k p → hand' p)
    (outside' : ∀ p, ¬ SameCell c h p → hand p → hand' p) :
    Tracks s (layout.recut h c k False cut) hand' := by
  refine ⟨tracks.bounds, tracks.located, tracks.tops, ?_, tracks.nodup, ?_⟩
  · intro y j p
    by_cases inside : SameCell c h p
    · rw [Layout.recut_free_inside _ inside]
      refine iff_of_false (fun listed => ?_) (fun ⟨_, never, _⟩ => never)
      exact taken p inside ((tracks.listed y j p).mp listed).2.1
    · rw [Layout.recut_free_outside _ inside, Layout.recut_cell_outside _ inside]
      exact tracks.listed y j p
  · intro j p cellP other
    by_cases inside : SameCell c h p
    · exact absurd (inside' p inside ((Layout.recut_cell_inside _ inside).mp cellP).2) other
    · rw [Layout.recut_free_outside _ inside]
      exact tracks.heads j p ((Layout.recut_cell_outside _ inside).mp cellP) fun inHand =>
        other (outside' p inside inHand)

-- A block in hand may be written to freely, as long as max_order stays.
theorem tracks_write_hand (h : Nat) (value : Block) (top : value.maxOrder = (s.pageDb h).maxOrder) :
    Tracks (s.setBlock h value) layout (fun p => hand p ∨ p = h) := by
  refine ⟨tracks.bounds, tracks.located, ?_, tracks.listed, tracks.nodup, ?_⟩
  · intro p inDom
    by_cases same : p = h
    · subst same
      simp only [State.setBlock, Function.update_self, top]
      exact tracks.tops p inDom
    · simp only [State.setBlock, Function.update_of_ne same]
      exact tracks.tops p inDom
  · intro k p cell other
    have different : p ≠ h := fun same => other (.inr same)
    simp only [State.setBlock, Function.update_of_ne different]
    exact tracks.heads k p cell fun inHand => other (.inl inHand)

-- Once its record is right again a block in hand is an ordinary live block.
theorem tracks_settle (k h : Nat) (held : Held layout k h) (order : (s.pageDb h).order = k)
    (marked : (s.pageDb h).free = false) : Tracks s layout (fun p => hand p ∧ p ≠ h) := by
  refine ⟨tracks.bounds, tracks.located, tracks.tops, tracks.listed, tracks.nodup, ?_⟩
  intro j p cell other
  by_cases same : p = h
  · subst same
    have orders : j = k := cell.2.1.symm.trans held.1.2.1
    exact ⟨order.trans orders.symm, iff_of_false (by simp [marked]) held.2⟩
  · exact tracks.heads j p cell fun inHand => other ⟨inHand, same⟩

theorem tracks_counters {s' : State} (bounds : KeepsBounds s') (lists : ∀ z, (s'.zone z).lists = (s.zone z).lists)
    (pageDb : s'.pageDb = s.pageDb) : Tracks s' layout hand := by
  refine ⟨bounds, tracks.located, ?_, ?_, ?_, ?_⟩
  · rw [pageDb]
    exact tracks.tops
  · intro z k h
    rw [lists]
    exact tracks.listed z k h
  · intro z k
    rw [lists]
    exact tracks.nodup z k
  · rw [pageDb]
    exact tracks.heads

end Tracks

end Elysium.Pmm
