import Elysium.PmmAlloc

set_option autoImplicit false

namespace Elysium.Pmm

open Dyadic

-- A run of 2^order pages, with the zone it was taken from or is listed in.
structure Run where
  head : Nat
  order : Nat
  zone : ZoneId
deriving DecidableEq, Repr

def Run.Covers (b : Run) (p : Nat) : Prop := b.head ≤ p ∧ p < b.head + 2 ^ b.order

instance (b : Run) (p : Nat) : Decidable (b.Covers p) := inferInstanceAs (Decidable (_ ∧ _))

-- The allocator together with what its callers know: the regions added so far
-- and the blocks that have been handed out and not yet freed.
structure Config where
  pmm : State
  regions : List Region
  live : List Run

def Region.pages (r : Region) : List Nat := List.range' (r.base / pageGranularity) (r.size / pageGranularity)

def zonePages (r : Region) (z : ZoneId) : List Run :=
  (r.pages.filter fun p => ZoneHolds z p).map fun p => ⟨p, 0, z⟩

-- Pages added with is_free = false count as allocated blocks of order 0.
def regionBlocks (r : Region) : List Run := zonePages r .low ++ zonePages r .normal

inductive Reachable : Config → Prop where
  | boot (s : State) (empty : s.zone = bootZone) : Reachable ⟨s, [], []⟩
  | regionAdd (c : Config) (r : Region) (s : State) (before : Reachable c)
      (disjoint : ∀ other ∈ c.regions, ∀ p, ¬ (r.Holds p ∧ other.Holds p))
      (added : pmmRegionAdd r.base r.size false c.pmm = .ok s) :
      Reachable ⟨s, r :: c.regions, regionBlocks r ++ c.live⟩
  | free (c : Config) (b : Run) (s : State) (before : Reachable c) (live : b ∈ c.live)
      (freed : pmmFree b.head c.pmm = .ok s) : Reachable ⟨s, c.regions, c.live.erase b⟩
  | alloc (c : Config) (order flags : Nat) (s : State) (h : Nat) (before : Reachable c) (small : order ≤ pmmMaxOrder)
      (allocated : pmmAlloc order flags c.pmm = .ok (s, h)) :
      Reachable ⟨s, c.regions, ⟨h, order, allocZone flags⟩ :: c.live⟩

structure Inv (c : Config) (layout : Layout) : Prop where
  tracks : Tracks c.pmm layout nobody
  canonical : layout.Canonical
  domain : ∀ p, layout.dom p ↔ ∃ r ∈ c.regions, r.Adds p
  tiles : ∀ r ∈ c.regions, ∀ p, r.Adds p → layout.top p = r.tileOrder p
  live : ∀ b : Run, b ∈ c.live ↔ Held layout b.order b.head ∧ holder b.head = b.zone
  liveNodup : c.live.Nodup
  counts : ∀ z, (c.pmm.zone z).freePageCount = zoneWeight c.pmm z

theorem region_pages_mem (r : Region) (p : Nat) : p ∈ r.pages ↔ r.Holds p := by
  obtain ⟨base, size, ⟨c, rfl⟩, ⟨d, rfl⟩, fits⟩ := r
  have positive : 0 < pageGranularity := by decide
  simp only [Region.pages, Region.Holds, blockPaddr, List.mem_range'_1, Nat.mul_div_cancel_left _ positive]
  simp only [pageGranularity]
  omega

theorem zone_pages_mem (r : Region) (z : ZoneId) (b : Run) :
    b ∈ zonePages r z ↔ r.Holds b.head ∧ ZoneHolds z b.head ∧ b.order = 0 ∧ b.zone = z := by
  obtain ⟨head, order, zone⟩ := b
  simp only [zonePages, List.mem_map, List.mem_filter, region_pages_mem, decide_eq_true_eq, Run.mk.injEq]
  constructor
  · rintro ⟨p, ⟨holds, inZone⟩, rfl, rfl, rfl⟩
    exact ⟨holds, inZone, rfl, rfl⟩
  · rintro ⟨holds, inZone, rfl, rfl⟩
    exact ⟨head, ⟨holds, inZone⟩, rfl, rfl, rfl⟩

theorem region_blocks_mem (r : Region) (b : Run) :
    b ∈ regionBlocks r ↔ r.Adds b.head ∧ b.order = 0 ∧ holder b.head = b.zone := by
  rw [regionBlocks, List.mem_append, zone_pages_mem, zone_pages_mem, region_adds_iff, zone_holds_iff, zone_holds_iff]
  cases side : holder b.head <;> cases zone : b.zone <;> simp [and_assoc, and_comm]

theorem region_blocks_nodup (r : Region) : (regionBlocks r).Nodup := by
  have each : ∀ z, (zonePages r z).Nodup := fun z =>
    List.Nodup.map (fun p q same => (Run.mk.injEq .. ▸ same).1) (List.Nodup.filter _ List.nodup_range')
  refine List.nodup_append.mpr ⟨each .low, each .normal, ?_⟩
  rintro a low b normal rfl
  have lowZone := ((zone_pages_mem r .low a).mp low).2.2.2
  have normalZone := ((zone_pages_mem r .normal a).mp normal).2.2.2
  rw [lowZone] at normalZone
  exact absurd normalZone (by decide)

def emptyLayout : Layout where
  dom _ := False
  top _ := 0
  ord _ := 0
  free _ := False
  top_cell _ _ inDom _ := inDom.elim
  ord_le _ inDom := inDom.elim
  ord_cell _ _ inDom _ := inDom.elim
  free_cell _ _ inDom _ := inDom.elim

theorem boot_zone_lists (z : ZoneId) (k : Nat) : (bootZone z).lists k = [] := by
  cases z <;> rfl

theorem boot_zone_count (z : ZoneId) : (bootZone z).freePageCount = 0 := by
  cases z <;> rfl

theorem boot_inv (s : State) (empty : s.zone = bootZone) : Inv ⟨s, [], []⟩ emptyLayout := by
  have unlisted : ∀ z k, (s.zone z).lists k = [] := fun z k => by rw [empty, boot_zone_lists]
  refine ⟨⟨fun z => by rw [empty]; exact ⟨rfl, rfl⟩, fun p inDom => inDom.elim, fun p inDom => inDom.elim, ?_, ?_, ?_⟩,
    fun k h cell => cell.1.elim, ?_, ?_, ?_, List.nodup_nil, ?_⟩
  · intro z k h
    rw [unlisted]
    exact iff_of_false List.not_mem_nil fun ⟨cell, _⟩ => cell.1
  · intro z k
    rw [unlisted]
    exact List.nodup_nil
  · exact fun k h cell => cell.1.elim
  · exact fun p => iff_of_false id fun ⟨_, member, _⟩ => List.not_mem_nil member
  · exact fun r member => absurd member List.not_mem_nil
  · exact fun b => iff_of_false List.not_mem_nil fun ⟨held, _⟩ => held.1.1
  · intro z
    simp [zoneWeight, freeWeight, empty, boot_zone_count, boot_zone_lists]

theorem region_add_inv {c : Config} {layout : Layout} (inv : Inv c layout) (r : Region) (s : State)
    (disjoint : ∀ other ∈ c.regions, ∀ p, ¬ (r.Holds p ∧ other.Holds p))
    (added : pmmRegionAdd r.base r.size false c.pmm = .ok s) :
    ∃ next, Inv ⟨s, r :: c.regions, regionBlocks r ++ c.live⟩ next := by
  obtain ⟨s', run, same, pageDb⟩ := region_add_returns r c.pmm inv.tracks.bounds
  obtain rfl : s = s' := Except.ok.inj (added.symm.trans run)
  have fresh : ∀ p, r.Adds p → ¬ layout.dom p := by
    intro p adds inDom
    obtain ⟨other, member, otherAdds⟩ := (inv.domain p).mp inDom
    exact disjoint other member p ⟨adds.1, otherAdds.1⟩
  have closed : ∀ p q, r.Adds p → SameCell (r.tileOrder p) p q → r.Adds q ∧ r.tileOrder q = r.tileOrder p :=
    fun p q adds member => (region_tile_closed r p adds).2 q member
  have oldRecord : ∀ p, layout.dom p → s.pageDb p = c.pmm.pageDb p := fun p inDom => by
    rw [pageDb]
    exact if_neg fun adds => fresh p adds inDom
  have newRecord : ∀ p, r.Adds p → s.pageDb p = ⟨0, r.tileOrder p, false⟩ := fun p adds => by
    rw [pageDb]
    exact if_pos adds
  refine ⟨layout.adjoin r.Adds r.tileOrder fresh closed, ⟨keeps_bounds_of_same_lists _ _ same inv.tracks.bounds, ?_, ?_, ?_, ?_, ?_⟩,
    layout.canonical_of_adjoin inv.canonical fresh closed, ?_, ?_, ?_, ?_, ?_⟩
  · rintro p (old | adds)
    · exact inv.tracks.located p old
    · exact ((region_adds_iff r p).mp adds).2
  · rintro p (old | adds)
    · rw [Layout.adjoin_top_old fresh closed old, oldRecord p old]
      exact inv.tracks.tops p old
    · rw [Layout.adjoin_top_new fresh closed adds, newRecord p adds]
      exact ⟨rfl, (region_tile_closed r p adds).1⟩
  · intro z k h
    rw [(same z).1, inv.tracks.listed z k h, Layout.adjoin_cell]
    constructor
    · rintro ⟨cell, free, side⟩
      exact ⟨.inl cell, (Layout.adjoin_free fresh closed cell.1).mpr free, side⟩
    · rintro ⟨cell | ⟨adds, _⟩, free, side⟩
      · exact ⟨cell, (Layout.adjoin_free fresh closed cell.1).mp free, side⟩
      · exact absurd free (Layout.adjoin_free_new fresh closed adds)
  · intro z k
    rw [(same z).1]
    exact inv.tracks.nodup z k
  · intro k h cell _
    rcases (Layout.adjoin_cell fresh closed).mp cell with old | ⟨adds, rfl⟩
    · rw [oldRecord h old.1, Layout.adjoin_free fresh closed old.1]
      exact inv.tracks.heads k h old id
    · rw [newRecord h adds]
      exact ⟨rfl, iff_of_false (by simp) (Layout.adjoin_free_new fresh closed adds)⟩
  · intro p
    simp only [List.mem_cons, exists_eq_or_imp, ← inv.domain p]
    exact or_comm
  · intro other member p adds
    rcases List.mem_cons.mp member with rfl | old
    · exact Layout.adjoin_top_new fresh closed adds
    · rw [Layout.adjoin_top_old fresh closed ((inv.domain p).mpr ⟨other, old, adds⟩)]
      exact inv.tiles other old p adds
  · intro b
    rw [List.mem_append, region_blocks_mem, inv.live b]
    unfold Held
    rw [Layout.adjoin_cell]
    constructor
    · rintro (⟨adds, zero, side⟩ | ⟨⟨cell, taken⟩, side⟩)
      · exact ⟨⟨.inr ⟨adds, zero⟩, Layout.adjoin_free_new fresh closed adds⟩, side⟩
      · exact ⟨⟨.inl cell, fun free => taken ((Layout.adjoin_free fresh closed cell.1).mp free)⟩, side⟩
    · rintro ⟨⟨cell | ⟨adds, zero⟩, taken⟩, side⟩
      · exact .inr ⟨⟨cell, fun free => taken ((Layout.adjoin_free fresh closed cell.1).mpr free)⟩, side⟩
      · exact .inl ⟨adds, zero, side⟩
  · refine List.nodup_append.mpr ⟨region_blocks_nodup r, inv.liveNodup, ?_⟩
    rintro a new b old rfl
    exact fresh a.head ((region_blocks_mem r a).mp new).1 ((inv.live a).mp old).1.1.1
  · intro z
    have weight : zoneWeight s z = zoneWeight c.pmm z := by
      unfold zoneWeight
      rw [(same z).1]
    rw [(same z).2.1, weight]
    exact inv.counts z

theorem free_inv {c : Config} {layout : Layout} (inv : Inv c layout) (b : Run) (live : b ∈ c.live) (s : State)
    (freed : pmmFree b.head c.pmm = .ok s) : ∃ next, Inv ⟨s, c.regions, c.live.erase b⟩ next := by
  obtain ⟨held, side⟩ := (inv.live b).mp live
  obtain ⟨s', next, run, tracks, canonical, dom, top, _, heldNext, counts, weights⟩ :=
    pmm_free_spec inv.tracks inv.canonical b.order b.head held
  obtain rfl : s = s' := Except.ok.inj (freed.symm.trans run)
  refine ⟨next, tracks, canonical, ?_, ?_, ?_, inv.liveNodup.erase b, ?_⟩
  · rw [dom]
    exact inv.domain
  · rw [top]
    exact inv.tiles
  · intro a
    rw [inv.liveNodup.mem_erase_iff, inv.live a, heldNext]
    constructor
    · rintro ⟨different, heldA, sideA⟩
      refine ⟨⟨heldA, fun sameHead => different ?_⟩, sideA⟩
      have order : a.order = b.order := by
        rw [← heldA.1.2.1, ← held.1.2.1, sameHead]
      obtain ⟨headA, orderA, zoneA⟩ := a
      obtain ⟨headB, orderB, zoneB⟩ := b
      simp only [Run.mk.injEq]
      exact ⟨sameHead, order, sideA.symm.trans ((congrArg holder sameHead).trans side)⟩
    · rintro ⟨⟨heldA, different⟩, sideA⟩
      exact ⟨fun same => different (congrArg Run.head same), heldA, sideA⟩
  · intro z
    rw [counts z, weights z, inv.counts z]

theorem alloc_inv {c : Config} {layout : Layout} (inv : Inv c layout) (order flags : Nat) (small : order ≤ pmmMaxOrder)
    (s : State) (h : Nat) (allocated : pmmAlloc order flags c.pmm = .ok (s, h)) :
    ∃ next, Allocated c.pmm s layout next (allocZone flags) order h ∧
      Inv ⟨s, c.regions, ⟨h, order, allocZone flags⟩ :: c.live⟩ next := by
  rcases pmm_alloc_spec inv.tracks inv.canonical order flags small with ⟨s', h', next, run, result⟩ | ⟨run, _⟩
  · obtain ⟨rfl, rfl⟩ : s = s' ∧ h = h' := Prod.mk.inj (Except.ok.inj (allocated.symm.trans run))
    refine ⟨next, result, result.tracks, result.canonical, ?_, ?_, ?_, ?_, ?_⟩
    · rw [result.dom]
      exact inv.domain
    · rw [result.top]
      exact inv.tiles
    · intro b
      rw [List.mem_cons, inv.live b, result.held]
      constructor
      · rintro (rfl | ⟨heldB, sideB⟩)
        · exact ⟨.inr ⟨rfl, rfl⟩, result.side⟩
        · exact ⟨.inl heldB, sideB⟩
      · rintro ⟨heldB | ⟨orderB, headB⟩, sideB⟩
        · exact .inr ⟨heldB, sideB⟩
        · refine .inl ?_
          obtain ⟨headB', orderB', zoneB⟩ := b
          simp only at orderB headB sideB
          subst orderB headB
          rw [← sideB, result.side]
    · refine List.nodup_cons.mpr ⟨fun member => ?_, inv.liveNodup⟩
      exact ((inv.live _).mp member).1.2 (result.wasFree h (same_cell_refl order h))
    · intro z
      have count := result.counts z
      have weight := result.weights z
      have before := inv.counts z
      dsimp only
      omega
  · rw [run] at allocated
    exact absurd allocated (by simp)

theorem reachable_inv (c : Config) (reach : Reachable c) : ∃ layout, Inv c layout := by
  induction reach with
  | boot s empty => exact ⟨emptyLayout, boot_inv s empty⟩
  | regionAdd c r s _ disjoint added ih =>
      obtain ⟨layout, inv⟩ := ih
      exact region_add_inv inv r s disjoint added
  | free c b s _ live freed ih =>
      obtain ⟨layout, inv⟩ := ih
      exact free_inv inv b live s freed
  | alloc c order flags s h _ small allocated ih =>
      obtain ⟨layout, inv⟩ := ih
      obtain ⟨next, _, invNext⟩ := alloc_inv inv order flags small s h allocated
      exact ⟨next, invNext⟩

end Elysium.Pmm
