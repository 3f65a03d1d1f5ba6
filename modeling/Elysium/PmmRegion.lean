import Elysium.Pmm
import Elysium.DyadicLayout
import Mathlib.Data.Set.Card
import Mathlib.Order.Interval.Finset.Nat

set_option autoImplicit false

namespace Elysium.Pmm

open Dyadic

theorem order_to_pagecount_eq (order : Nat) : orderToPagecount order = 2 ^ order := by
  unfold orderToPagecount
  rw [Nat.one_shiftLeft]

theorem block_bytes (order : Nat) : orderToPagecount order * pageGranularity = 2 ^ (order + 12) := by
  rw [order_to_pagecount_eq, Nat.pow_add]
  rfl

theorem fit_order_spec (remaining : Nat) (some : 1 ≤ remaining) (order : Nat) :
    ∃ fitting ≤ order, fitOrder remaining order = .ok fitting ∧ 2 ^ fitting ≤ remaining := by
  induction order with
  | zero =>
      refine ⟨0, Nat.le_refl 0, ?_, by simpa using some⟩
      rw [fitOrder, order_to_pagecount_eq, if_neg (by rw [Nat.pow_zero]; omega)]
  | succ order ih =>
      rw [fitOrder, order_to_pagecount_eq]
      by_cases large : 2 ^ (order + 1) > remaining
      · obtain ⟨fitting, le, found, fits⟩ := ih
        exact ⟨fitting, by omega, by rw [if_pos large, found], fits⟩
      · exact ⟨order + 1, Nat.le_refl _, by rw [if_neg large], by omega⟩

theorem aligned_mask (address order : Nat) :
    address &&& (orderToPagecount order * pageGranularity - 1) ≠ 0 ↔ ¬ 2 ^ (order + 12) ∣ address := by
  rw [block_bytes, Nat.and_two_pow_sub_one_eq_mod, Nat.dvd_iff_mod_eq_zero]

theorem align_order_spec (address : Nat) (aligned : pageGranularity ∣ address) (order : Nat) :
    ∃ natural ≤ order, alignOrder address order = .ok natural ∧ 2 ^ (natural + 12) ∣ address := by
  induction order with
  | zero =>
      have pageAligned : 2 ^ (0 + 12) ∣ address := aligned
      exact ⟨0, Nat.le_refl 0, by rw [alignOrder, if_neg (by rw [aligned_mask]; exact not_not.mpr pageAligned)],
        pageAligned⟩
  | succ order ih =>
      rw [alignOrder]
      by_cases skew : 2 ^ (order + 1 + 12) ∣ address
      · exact ⟨order + 1, Nat.le_refl _, by rw [if_neg (by rw [aligned_mask]; exact not_not.mpr skew)], skew⟩
      · obtain ⟨natural, le, found, divides⟩ := ih
        exact ⟨natural, by omega, by rw [if_pos (by rw [aligned_mask]; exact skew), found], divides⟩

theorem block_order_spec (localBase pageCount j : Nat) (aligned : pageGranularity ∣ localBase) (more : j < pageCount) :
    ∃ order ≤ pmmMaxOrder, blockOrder localBase pageCount j = .ok order ∧ j + 2 ^ order ≤ pageCount ∧
      IsHead order (localBase / pageGranularity + j) := by
  obtain ⟨first, rfl⟩ := aligned
  obtain ⟨fitting, fittingLe, fit, fits⟩ := fit_order_spec (pageCount - j) (by omega)
    (if pagecountToOrder (pageCount - j) > pmmMaxOrder then pmmMaxOrder else pagecountToOrder (pageCount - j))
  have address : pageGranularity * first + j * pageGranularity = pageGranularity * (first + j) := by
    rw [Nat.mul_comm j, Nat.mul_add]
  obtain ⟨natural, naturalLe, align, divides⟩ :=
    align_order_spec (pageGranularity * first + j * pageGranularity) (address ▸ Nat.dvd_mul_right _ _) fitting
  have smaller : 2 ^ natural ≤ 2 ^ fitting := Nat.pow_le_pow_right (by decide) naturalLe
  refine ⟨natural, ?_, ?_, by omega, ?_⟩
  · split at fittingLe <;> omega
  · simp only [blockOrder, fit, align, bind_ok]
  · rw [Nat.mul_div_cancel_left first (by decide : 0 < pageGranularity)]
    rw [address, Nat.add_comm natural, Nat.pow_add] at divides
    exact Nat.dvd_of_mul_dvd_mul_left (by decide) divides

theorem init_block_pages (z : ZoneId) (order first : Nat) (s : State) (count : Nat) :
    (List.range count).foldl (fun s y => initPage z order false s (first + y)) s =
      { s with pageDb := fun p => if first ≤ p ∧ p < first + count then ⟨0, order, false⟩ else s.pageDb p } := by
  induction count with
  | zero =>
      have none : ∀ p, ¬ (first ≤ p ∧ p < first + 0) := fun p => by omega
      simp only [List.range_zero, List.foldl_nil, none, if_false]
  | succ count ih =>
      rw [List.range_succ, List.foldl_append, ih]
      simp only [List.foldl_cons, List.foldl_nil, initPage, State.setBlock, Bool.false_eq_true, if_false]
      congr 1
      funext p
      by_cases last : p = first + count
      · subst last
        rw [Function.update_self, if_pos (by omega)]
      · rw [Function.update_of_ne last]
        by_cases inside : first ≤ p ∧ p < first + count
        · rw [if_pos inside, if_pos (by omega)]
        · rw [if_neg inside, if_neg (by omega)]

theorem init_block_spec (z : ZoneId) (order first : Nat) (s : State) :
    initBlock z order first false s =
      { s with pageDb := fun p => if first ≤ p ∧ p < first + 2 ^ order then ⟨0, order, false⟩ else s.pageDb p } := by
  unfold initBlock
  rw [order_to_pagecount_eq, init_block_pages]

-- The pages from lo up to hi are cut into naturally aligned blocks; m tells each
-- page the order of its block.
def Tiled (lo hi : Nat) (m : Nat → Nat) : Prop :=
  ∀ p, lo ≤ p → p < hi → m p ≤ pmmMaxOrder ∧ ∀ q, SameCell (m p) p q → lo ≤ q ∧ q < hi ∧ m q = m p

theorem tiled_cons (lo mid hi order : Nat) (m : Nat → Nat) (small : order ≤ pmmMaxOrder) (head : IsHead order lo)
    (next : mid = lo + 2 ^ order) (le : mid ≤ hi) (rest : Tiled mid hi m) :
    Tiled lo hi (fun p => if p < mid then order else m p) := by
  intro p above below
  have cell := same_cell_head head
  have positive := Nat.two_pow_pos order
  by_cases first : p < mid
  · have inside : SameCell order lo p := (cell p).mpr (by omega)
    refine ⟨by simp only [first, if_true]; exact small, ?_⟩
    intro q member
    simp only [first, if_true] at member ⊢
    have bounds := (cell q).mp (same_cell_trans inside member)
    refine ⟨by omega, by omega, ?_⟩
    rw [if_pos (by omega)]
  · obtain ⟨le7, closed⟩ := rest p (by omega) below
    refine ⟨by simp only [first, if_false]; exact le7, ?_⟩
    intro q member
    simp only [first, if_false] at member ⊢
    obtain ⟨aboveQ, belowQ, same⟩ := closed q member
    refine ⟨by omega, belowQ, ?_⟩
    rw [if_neg (by omega), same]

-- The block orders do not depend on the state the loop starts from.
theorem region_loop_spec (z : ZoneId) (localBase pageCount : Nat) (aligned : pageGranularity ∣ localBase)
    (fuel : Nat) : ∀ j, pageCount ≤ j + fuel → ∃ m,
      Tiled (localBase / pageGranularity + j) (localBase / pageGranularity + pageCount) m ∧
      ∀ s, regionLoop z localBase pageCount false fuel j s = .ok
        { s with pageDb := fun p =>
            if localBase / pageGranularity + j ≤ p ∧ p < localBase / pageGranularity + pageCount then ⟨0, m p, false⟩
            else s.pageDb p } := by
  induction fuel with
  | zero =>
      intro j enough
      refine ⟨fun _ => 0, fun p above below => by omega, fun s => ?_⟩
      have none : ∀ p, ¬ (localBase / pageGranularity + j ≤ p ∧ p < localBase / pageGranularity + pageCount) :=
        fun p => by omega
      simp only [regionLoop, none, if_false]
      rw [if_neg (by omega)]
  | succ fuel ih =>
      intro j enough
      by_cases more : j < pageCount
      · obtain ⟨order, small, chosen, fits, head⟩ := block_order_spec localBase pageCount j aligned more
        have positive := Nat.two_pow_pos order
        obtain ⟨m, tiled, rest⟩ := ih (j + 2 ^ order) (by omega)
        refine ⟨_, tiled_cons _ _ _ order m small head (by omega) (by omega) tiled, fun s => ?_⟩
        rw [regionLoop, if_pos more, chosen]
        simp only [bind_ok]
        rw [order_to_pagecount_eq, init_block_spec, rest]
        congr 2
        funext p
        dsimp only
        by_cases first : p < localBase / pageGranularity + (j + 2 ^ order)
        · rw [if_neg (by omega)]
          by_cases inside : localBase / pageGranularity + j ≤ p
          · rw [if_pos (by omega), if_pos (by omega), if_pos first]
          · rw [if_neg (by omega), if_neg (by omega)]
        · by_cases inside : p < localBase / pageGranularity + pageCount
          · rw [if_pos (by omega), if_pos (by omega), if_neg first]
          · rw [if_neg (by omega), if_neg (by omega), if_neg (by omega)]
      · refine ⟨fun _ => 0, fun p above below => by omega, fun s => ?_⟩
        have none : ∀ p, ¬ (localBase / pageGranularity + j ≤ p ∧ p < localBase / pageGranularity + pageCount) :=
          fun p => by omega
        simp only [regionLoop, none, if_false]
        rw [if_neg more]

-- A page-aligned stretch of physical memory whose end is representable.
structure Region where
  base : Nat
  size : Nat
  base_aligned : pageGranularity ∣ base
  size_aligned : pageGranularity ∣ size
  fits : base + size < 2 ^ 64

def Region.Holds (r : Region) (p : Nat) : Prop := r.base ≤ blockPaddr p ∧ blockPaddr p < r.base + r.size

instance (r : Region) (p : Nat) : Decidable (r.Holds p) := inferInstanceAs (Decidable (_ ∧ _))

def ZoneHolds (z : ZoneId) (p : Nat) : Prop :=
  (bootZone z).start ≤ blockPaddr p ∧ blockPaddr p < (bootZone z).limit

instance (z : ZoneId) (p : Nat) : Decidable (ZoneHolds z p) := inferInstanceAs (Decidable (_ ∧ _))

-- The zone whose address range a page lies in.
def holder (p : Nat) : ZoneId := if p < memLowSize / pageGranularity then .low else .normal

theorem zone_holds_iff (z : ZoneId) (p : Nat) :
    ZoneHolds z p ↔ 0 < p ∧ p < 2 ^ 52 - 1 ∧ holder p = z := by
  cases z with
  | low =>
      by_cases low : p < memLowSize / pageGranularity <;>
        simp only [ZoneHolds, bootZone, holder, blockPaddr, pageGranularity, memLowSize] at low ⊢ <;>
        simp [low] <;> omega
  | normal =>
      by_cases low : p < memLowSize / pageGranularity <;>
        simp only [ZoneHolds, bootZone, holder, blockPaddr, pageGranularity, memLowSize] at low ⊢ <;>
        simp [low] <;> omega

def KeepsBounds (s : State) : Prop :=
  ∀ z, (s.zone z).start = (bootZone z).start ∧ (s.zone z).limit = (bootZone z).limit

-- What adding a region leaves alone: the free lists and their counters.
def SameLists (s s' : State) : Prop :=
  ∀ z, (s'.zone z).lists = (s.zone z).lists ∧ (s'.zone z).freePageCount = (s.zone z).freePageCount ∧
    (s'.zone z).start = (s.zone z).start ∧ (s'.zone z).limit = (s.zone z).limit

theorem same_lists_total (s : State) (z : ZoneId) (total : Nat) (pageDb : Nat → Block) :
    SameLists s { s with
      zone := Function.update s.zone z { s.zone z with totalPageCount := total }, pageDb := pageDb } := by
  intro y
  by_cases same : y = z
  · subst same
    simp
  · simp [Function.update_of_ne same]

theorem same_lists_trans (s s' s'' : State) (first : SameLists s s') (second : SameLists s' s'') : SameLists s s'' := by
  intro z
  obtain ⟨lists, count, start, limit⟩ := first z
  obtain ⟨lists', count', start', limit'⟩ := second z
  exact ⟨lists'.trans lists, count'.trans count, start'.trans start, limit'.trans limit⟩

theorem keeps_bounds_of_same_lists (s s' : State) (same : SameLists s s') (bounds : KeepsBounds s) : KeepsBounds s' := by
  intro z
  obtain ⟨_, _, start, limit⟩ := same z
  exact ⟨start.trans (bounds z).1, limit.trans (bounds z).2⟩

theorem boot_zone_pages (z : ZoneId) : ∃ a b, (bootZone z).start = pageGranularity * a ∧
    (bootZone z).limit = pageGranularity * b ∧ a < b ∧ b < 2 ^ 52 := by
  cases z with
  | low => exact ⟨1, 4096, rfl, rfl, by decide, by decide⟩
  | normal => exact ⟨4096, 2 ^ 52 - 1, rfl, rfl, by decide, by decide⟩

theorem clip_base (g a c d : Nat) (gran : g = 4096) (fits : g * c + g * d < 2 ^ 64) (beyond : a < c + d) :
    (if g * c < g * a then (g * a, sub64 (g * d) (sub64 (g * a) (g * c))) else (g * c, g * d)) =
      (g * max c a, g * (c + d - max c a)) := by
  subst gran
  by_cases below : 4096 * c < 4096 * a
  · have skipped : sub64 (4096 * a) (4096 * c) = 4096 * a - 4096 * c := sub64_eq (by omega) (by omega)
    rw [if_pos below, skipped, sub64_eq (by omega) (by omega)]
    congr 1 <;> omega
  · rw [if_neg below]
    congr 1 <;> omega

theorem clip_size (g a b c d : Nat) (gran : g = 4096) (fits : g * c + g * d < 2 ^ 64) (beyond : a < c + d) (under : max c a < b) :
    (if add64 (g * max c a) (g * (c + d - max c a)) > g * b then sub64 (g * b) (g * max c a)
      else g * (c + d - max c a)) / g = min (c + d) b - max c a := by
  subst gran
  rw [add64_eq (by omega)]
  split
  · rw [sub64_eq (by omega) (by omega)]
    omega
  · omega

-- A zone is left alone, or its part of the region goes through the loop.
theorem zone_region_add_eq (r : Region) (z : ZoneId) :
    ((∀ p, ¬ (r.Holds p ∧ ZoneHolds z p)) ∧ ∀ s isFree, KeepsBounds s → zoneRegionAdd r.base r.size isFree z s = .ok s) ∨
    ∃ lo count, (∀ p, lo ≤ p ∧ p < lo + count ↔ r.Holds p ∧ ZoneHolds z p) ∧ ∀ s isFree, KeepsBounds s →
      zoneRegionAdd r.base r.size isFree z s = regionLoop z (pageGranularity * lo) count isFree count 0
        (s.setZone z { s.zone z with totalPageCount := (s.zone z).totalPageCount + count }) := by
  obtain ⟨base, size, ⟨c, rfl⟩, ⟨d, rfl⟩, fits⟩ := r
  obtain ⟨a, b, startEq, limitEq, order, small⟩ := boot_zone_pages z
  simp only [Region.Holds, ZoneHolds, startEq, limitEq, blockPaddr]
  by_cases skip : c + d ≤ a ∨ b ≤ c
  · refine .inl ⟨fun p => ?_, fun s isFree bounds => ?_⟩
    · simp only [pageGranularity]
      omega
    · rw [zoneRegionAdd, (bounds z).1, (bounds z).2, startEq, limitEq, add64_eq fits, if_pos]
      simp only [pageGranularity]
      omega
  · refine .inr ⟨max c a, min (c + d) b - max c a, fun p => ?_, fun s isFree bounds => ?_⟩
    · simp only [pageGranularity]
      omega
    · have kept : ¬ (add64 (pageGranularity * c) (pageGranularity * d) ≤ pageGranularity * a ∨
          pageGranularity * c ≥ pageGranularity * b) := by
        rw [add64_eq fits]
        simp only [pageGranularity]
        omega
      have clipped := clip_base pageGranularity a c d rfl fits (by omega)
      have length := clip_size pageGranularity a b c d rfl fits (by omega) (by omega)
      rw [zoneRegionAdd, (bounds z).1, (bounds z).2, startEq, limitEq, if_neg kept]
      simp only [clipped, length]

-- Adding a region counts the pages of its part and writes their blocks.
def addPart (z : ZoneId) (lo hi : Nat) (m : Nat → Nat) (s : State) : State :=
  { s with
    zone := Function.update s.zone z { s.zone z with totalPageCount := (s.zone z).totalPageCount + (hi - lo) }
    pageDb := fun p => if lo ≤ p ∧ p < hi then ⟨0, m p, false⟩ else s.pageDb p }

theorem add_part_lists (z : ZoneId) (lo hi : Nat) (m : Nat → Nat) (s : State) : SameLists s (addPart z lo hi m s) :=
  same_lists_total s z _ _

theorem zone_region_add_spec (r : Region) (z : ZoneId) : ∃ lo hi m, Tiled lo hi m ∧
    (∀ p, lo ≤ p ∧ p < hi ↔ r.Holds p ∧ ZoneHolds z p) ∧
    ∀ s, KeepsBounds s → zoneRegionAdd r.base r.size false z s = .ok (addPart z lo hi m s) := by
  obtain ⟨none, skipped⟩ | ⟨lo, count, part, looped⟩ := zone_region_add_eq r z
  · refine ⟨0, 0, fun _ => 0, fun p _ below => absurd below (Nat.not_lt_zero p), fun p => ?_, fun s bounds => ?_⟩
    · exact iff_of_false (fun inside => Nat.not_lt_zero p inside.2) (none p)
    · have outside : ∀ p, ¬ (0 ≤ p ∧ p < 0) := fun p => by omega
      rw [skipped s false bounds]
      simp only [addPart, outside, if_false, Nat.sub_self, Nat.add_zero, Function.update_eq_self]
  · obtain ⟨m, tiled, loop⟩ := region_loop_spec z (pageGranularity * lo) count (Nat.dvd_mul_right _ _) count 0 (by omega)
    rw [Nat.mul_div_cancel_left _ (by decide : 0 < pageGranularity), Nat.add_zero] at tiled loop
    refine ⟨lo, lo + count, m, tiled, part, fun s bounds => ?_⟩
    rw [looped s false bounds, loop]
    simp only [addPart, State.setZone, Nat.add_sub_cancel_left]

def Region.Adds (r : Region) (p : Nat) : Prop := r.Holds p ∧ ∃ z, ZoneHolds z p

theorem region_adds_iff (r : Region) (p : Nat) : r.Adds p ↔ r.Holds p ∧ 0 < p ∧ p < 2 ^ 52 - 1 := by
  unfold Region.Adds
  simp only [zone_holds_iff]
  constructor
  · rintro ⟨holds, _, positive, small, _⟩
    exact ⟨holds, positive, small⟩
  · rintro ⟨holds, positive, small⟩
    exact ⟨holds, holder p, positive, small, rfl⟩

instance (r : Region) (p : Nat) : Decidable (r.Adds p) := decidable_of_iff _ (region_adds_iff r p).symm

theorem region_add_spec (r : Region) : ∃ m : Nat → Nat,
    (∀ p, r.Adds p → m p ≤ pmmMaxOrder ∧ ∀ q, SameCell (m p) p q → r.Adds q ∧ m q = m p) ∧
    ∀ s, KeepsBounds s → ∃ s', pmmRegionAdd r.base r.size false s = .ok s' ∧ SameLists s s' ∧
      s'.pageDb = fun p => if r.Adds p then ⟨0, m p, false⟩ else s.pageDb p := by
  obtain ⟨lo, hi, m, tiled, part, add⟩ := zone_region_add_spec r .low
  obtain ⟨lo', hi', m', tiled', part', add'⟩ := zone_region_add_spec r .normal
  have adds : ∀ p, r.Adds p ↔ (lo ≤ p ∧ p < hi) ∨ (lo' ≤ p ∧ p < hi') := by
    intro p
    rw [part, part']
    constructor
    · rintro ⟨holds, z, inZone⟩
      cases z with
      | low => exact .inl ⟨holds, inZone⟩
      | normal => exact .inr ⟨holds, inZone⟩
    · rintro (⟨holds, inZone⟩ | ⟨holds, inZone⟩)
      · exact ⟨holds, .low, inZone⟩
      · exact ⟨holds, .normal, inZone⟩
  have apart : ∀ p, lo' ≤ p ∧ p < hi' → ¬ (lo ≤ p ∧ p < hi) := by
    intro p normal low
    have high := ((zone_holds_iff .normal p).mp ((part' p).mp normal).2).2.2
    have below := ((zone_holds_iff .low p).mp ((part p).mp low).2).2.2
    rw [high] at below
    exact absurd below (by decide)
  refine ⟨fun p => if lo ≤ p ∧ p < hi then m p else m' p, ?_, ?_⟩
  · intro p added
    rcases (adds p).mp added with low | normal
    · obtain ⟨small, closed⟩ := tiled p low.1 low.2
      simp only [if_pos low]
      refine ⟨small, fun q member => ?_⟩
      obtain ⟨above, below, same⟩ := closed q member
      exact ⟨(adds q).mpr (.inl ⟨above, below⟩), by rw [if_pos ⟨above, below⟩, same]⟩
    · obtain ⟨small, closed⟩ := tiled' p normal.1 normal.2
      simp only [if_neg (apart p normal)]
      refine ⟨small, fun q member => ?_⟩
      obtain ⟨above, below, same⟩ := closed q member
      exact ⟨(adds q).mpr (.inr ⟨above, below⟩), by rw [if_neg (apart q ⟨above, below⟩), same]⟩
  · intro s bounds
    have kept := add_part_lists .low lo hi m s
    have second := add' _ (keeps_bounds_of_same_lists _ _ kept bounds)
    refine ⟨addPart .normal lo' hi' m' (addPart .low lo hi m s), ?_, same_lists_trans _ _ _ kept (add_part_lists _ _ _ _ _), ?_⟩
    · rw [pmmRegionAdd, add s bounds, bind_ok, second]
    funext p
    dsimp only [addPart]
    by_cases isLow : lo ≤ p ∧ p < hi
    · rw [if_neg fun other => apart p other isLow, if_pos isLow, if_pos ((adds p).mpr (.inl isLow)), if_pos isLow]
    · by_cases isNormal : lo' ≤ p ∧ p < hi'
      · rw [if_pos isNormal, if_pos ((adds p).mpr (.inr isNormal)), if_neg isLow]
      · rw [if_neg isNormal, if_neg isLow, if_neg fun added => ((adds p).mp added).elim isLow isNormal]

-- The max_order every page of a region gets, whatever the state was before.
noncomputable def Region.tileOrder (r : Region) : Nat → Nat := (region_add_spec r).choose

theorem region_tile_closed (r : Region) (p : Nat) (added : r.Adds p) :
    r.tileOrder p ≤ pmmMaxOrder ∧ ∀ q, SameCell (r.tileOrder p) p q → r.Adds q ∧ r.tileOrder q = r.tileOrder p :=
  (region_add_spec r).choose_spec.1 p added

theorem region_add_returns (r : Region) (s : State) (bounds : KeepsBounds s) :
    ∃ s', pmmRegionAdd r.base r.size false s = .ok s' ∧ SameLists s s' ∧
      s'.pageDb = fun p => if r.Adds p then ⟨0, r.tileOrder p, false⟩ else s.pageDb p :=
  (region_add_spec r).choose_spec.2 s bounds

-- A block as pmm_region_add makes it: 2^order pages from first on.
structure Piece where
  first : Nat
  order : Nat

def Piece.Covers (b : Piece) (p : Nat) : Prop := b.first ≤ p ∧ p < b.first + orderToPagecount b.order

-- The blocks partition the pages of a part.
structure Cuts (part : Nat → Prop) (pieces : Set Piece) : Prop where
  small : ∀ b ∈ pieces, b.order ≤ pmmMaxOrder
  aligned : ∀ b ∈ pieces, orderToPagecount b.order * pageGranularity ∣ blockPaddr b.first
  inside : ∀ b ∈ pieces, ∀ p, b.Covers p → part p
  once : ∀ p, part p → ∃! b, b ∈ pieces ∧ b.Covers p

def Region.Part (r : Region) (z : ZoneId) (p : Nat) : Prop := r.Holds p ∧ ZoneHolds z p

def cells (lo hi : Nat) (m : Nat → Nat) : Set Piece :=
  { b | lo ≤ b.first ∧ b.first < hi ∧ m b.first = b.order ∧ IsHead b.order b.first }

theorem covers_iff (b : Piece) (head : IsHead b.order b.first) (p : Nat) :
    b.Covers p ↔ SameCell b.order b.first p := by
  unfold Piece.Covers
  rw [order_to_pagecount_eq, same_cell_head head]

theorem cell_pages (lo hi : Nat) (m : Nat → Nat) (tiled : Tiled lo hi m) (b : Piece) (piece : b ∈ cells lo hi m)
    (p : Nat) (covers : b.Covers p) : lo ≤ p ∧ p < hi ∧ m p = b.order := by
  obtain ⟨above, below, order, head⟩ := piece
  have same := (covers_iff b head p).mp covers
  rw [← order] at same ⊢
  exact (tiled b.first above below).2 p same

theorem tiled_cuts (lo hi : Nat) (m : Nat → Nat) (tiled : Tiled lo hi m) :
    Cuts (fun p => lo ≤ p ∧ p < hi) (cells lo hi m) := by
  refine ⟨?_, ?_, ?_, ?_⟩
  · intro b piece
    obtain ⟨above, below, order, _⟩ := piece
    rw [← order]
    exact (tiled b.first above below).1
  · intro b piece
    rw [order_to_pagecount_eq]
    exact Nat.mul_dvd_mul_right piece.2.2.2 pageGranularity
  · intro b piece p covers
    obtain ⟨above, below, _⟩ := cell_pages lo hi m tiled b piece p covers
    exact ⟨above, below⟩
  · intro p inside
    have own := cell_head_same (m p) p
    obtain ⟨above, below, order⟩ := (tiled p inside.1 inside.2).2 _ (same_cell_symm own)
    have head := cell_head_is_head (m p) p
    refine ⟨⟨cellHead (m p) p, m p⟩, ⟨⟨above, below, order, head⟩, (covers_iff _ head p).mpr own⟩, ?_⟩
    -- Another block over p has the order m gives p, so the two start at one page.
    rintro ⟨first, order'⟩ ⟨piece, covers⟩
    have same := (covers_iff _ piece.2.2.2 p).mp covers
    have equal := (cell_pages lo hi m tiled _ piece p covers).2.2
    dsimp only at equal same
    subst equal
    congr 1
    exact head_unique piece.2.2.2 head (same_cell_trans same (same_cell_symm own))

theorem part_size (part : Nat → Prop) (lo hi : Nat) (exactly : ∀ p, lo ≤ p ∧ p < hi ↔ part p) :
    Set.ncard { p | part p } = hi - lo := by
  have interval : { p | part p } = ↑(Finset.Ico lo hi) := by
    ext p
    simp only [Set.mem_ofPred_eq, Finset.coe_Ico, Set.mem_Ico]
    exact (exactly p).symm
  rw [interval, Set.ncard_coe_finset, Nat.card_Ico]

theorem add_part_inside (z : ZoneId) (lo hi : Nat) (m : Nat → Nat) (s : State) (p : Nat) (above : lo ≤ p) (below : p < hi) :
    (addPart z lo hi m s).pageDb p = ⟨0, m p, false⟩ := if_pos ⟨above, below⟩

theorem add_part_outside (z : ZoneId) (lo hi : Nat) (m : Nat → Nat) (s : State) (p : Nat) (outside : ¬ (lo ≤ p ∧ p < hi)) :
    (addPart z lo hi m s).pageDb p = s.pageDb p := if_neg outside

theorem parts_apart (r : Region) (p : Nat) : ¬ (r.Part .low p ∧ r.Part .normal p) := by
  rintro ⟨low, normal⟩
  have below := ((zone_holds_iff .low p).mp low.2).2.2
  have above := ((zone_holds_iff .normal p).mp normal.2).2.2
  rw [below] at above
  cases above

theorem region_add_tiles (r : Region) (s : State) (bounds : KeepsBounds s) :
    ∃ (s' : State) (pieces : ZoneId → Set Piece), pmmRegionAdd r.base r.size false s = .ok s' ∧
      (∀ z, Cuts (r.Part z) (pieces z)) ∧
      (∀ z, ∀ b ∈ pieces z, ∀ p, b.Covers p → s'.pageDb p = ⟨0, b.order, false⟩) ∧
      (∀ p, (∀ z, ¬ r.Part z p) → s'.pageDb p = s.pageDb p) ∧
      (∀ p, ¬ (r.Part .low p ∧ r.Part .normal p)) ∧
      (∀ z, (s'.zone z).totalPageCount = (s.zone z).totalPageCount + Set.ncard { p | r.Part z p }) ∧
      SameLists s s' ∧ s'.memory = s.memory := by
  obtain ⟨lo, hi, m, tiled, part, add⟩ := zone_region_add_spec r .low
  obtain ⟨lo', hi', m', tiled', part', add'⟩ := zone_region_add_spec r .normal
  have kept := add_part_lists .low lo hi m s
  have second := add' _ (keeps_bounds_of_same_lists _ _ kept bounds)
  have low : (fun p => lo ≤ p ∧ p < hi) = r.Part .low := funext fun p => propext (part p)
  have normal : (fun p => lo' ≤ p ∧ p < hi') = r.Part .normal := funext fun p => propext (part' p)
  refine ⟨addPart .normal lo' hi' m' (addPart .low lo hi m s), fun z => if z = .low then cells lo hi m else cells lo' hi' m',
    ?_, ?_, ?_, ?_, parts_apart r, ?_, same_lists_trans _ _ _ kept (add_part_lists _ _ _ _ _), rfl⟩
  · rw [pmmRegionAdd, add s bounds, bind_ok, second]
  · intro z
    cases z with
    | low => exact low ▸ tiled_cuts lo hi m tiled
    | normal => exact normal ▸ tiled_cuts lo' hi' m' tiled'
  · intro z b piece p covers
    cases z with
    | low =>
        obtain ⟨above, below, order⟩ := cell_pages lo hi m tiled b piece p covers
        have outside : ¬ (lo' ≤ p ∧ p < hi') := fun other => parts_apart r p ⟨(part p).mp ⟨above, below⟩, (part' p).mp other⟩
        rw [add_part_outside _ _ _ _ _ p outside, add_part_inside _ _ _ _ _ p above below, order]
    | normal =>
        obtain ⟨above, below, order⟩ := cell_pages lo' hi' m' tiled' b piece p covers
        rw [add_part_inside _ _ _ _ _ p above below, order]
  · intro p outside
    rw [add_part_outside _ _ _ _ _ p fun inside => outside .normal ((part' p).mp inside),
      add_part_outside _ _ _ _ _ p fun inside => outside .low ((part p).mp inside)]
  · intro z
    cases z with
    | low => rw [part_size (r.Part .low) lo hi part]; rfl
    | normal => rw [part_size (r.Part .normal) lo' hi' part']; rfl

-- Sixteen pages around the border of the zones, from page 0xFFF on.
theorem region_add_tiles_border : ∃ s', pmmRegionAdd 0xFFF000 0x10000 false ⟨bootZone, fun _ => ⟨0, 0, false⟩, fun _ => 0⟩ = .ok s' ∧
    (s'.pageDb 0xFFF).free = false ∧ ∃ b : Piece, b.Covers 0x1008 ∧ s'.pageDb 0x1008 = ⟨0, b.order, false⟩ := by
  obtain ⟨s', pieces, run, cuts, blocks, _⟩ := region_add_tiles ⟨0xFFF000, 0x10000, by decide, by decide, by decide⟩
    ⟨bootZone, fun _ => ⟨0, 0, false⟩, fun _ => 0⟩ fun _ => ⟨rfl, rfl⟩
  obtain ⟨a, ⟨pieceA, coversA⟩, _⟩ := (cuts .low).once 0xFFF ⟨by decide, by decide⟩
  obtain ⟨b, ⟨pieceB, coversB⟩, _⟩ := (cuts .normal).once 0x1008 ⟨by decide, by decide⟩
  exact ⟨s', run, by rw [blocks .low a pieceA 0xFFF coversA], b, coversB, blocks .normal b pieceB 0x1008 coversB⟩

end Elysium.Pmm
