import Elysium.HandOver

set_option autoImplicit false

namespace Elysium.HandOver

open Earlymem (WellPlaced PageOf earlymemAllocPage earlymemAlloc earlymemRegionAdd)
open Pmm (Run holder pmmAlloc pmmFree pmmMaxOrder freePages free_pages_append free_pages_reaches)
open Transitions (Reachable ReachableUnder execute reachable_under_invariant)

def Entry.Apart (a b : Entry) : Prop := a.base + a.length ≤ b.base ∨ b.base + b.length ≤ a.base

def Entry.Is (entry : Entry) (region : Earlymem.Region) : Prop :=
  entry.type = .usable ∧ region.base = entry.base ∧ region.length = entry.length

section Boot

theorem init_early_ok {stale : Entry → Nat → BitVec 8} {map : List Entry} {s s' : Earlymem.State}
    (fits : ∀ entry ∈ map, entry.base + entry.length < 2 ^ 64) (placed : WellPlaced s.regions)
    (apart : ∀ region ∈ s.regions, ∀ entry ∈ map, entry.base + entry.length ≤ region.base ∨ region.base + region.length ≤ entry.base)
    (run : initEarly stale map s = .ok s') :
    WellPlaced s'.regions ∧ map.Pairwise Entry.Apart ∧ ∀ region ∈ s'.regions, region ∈ s.regions ∨ ∃ entry ∈ map, entry.Is region := by
  induction map generalizing s with
  | nil =>
      obtain rfl := Except.ok.inj run
      exact ⟨placed, .nil, fun region member => .inl member⟩
  | cons entry rest ih =>
      rw [initEarly] at run
      obtain ⟨_, checked, run⟩ := (bind_eq_ok _ _ _).mp run
      have here := fits entry List.mem_cons_self
      have later : ∀ other ∈ rest, other.base + other.length < 2 ^ 64 := fun other member => fits other (List.mem_cons_of_mem entry member)
      have first : ∀ other ∈ rest, entry.Apart other := by
        intro other member
        have disjoint := assert_ok checked other member
        rw [add64_eq (later other member), add64_eq here] at disjoint
        exact disjoint.symm
      have apartRest : ∀ region ∈ s.regions, ∀ other ∈ rest, other.base + other.length ≤ region.base ∨ region.base + region.length ≤ other.base :=
        fun region inRegions other member => apart region inRegions other (List.mem_cons_of_mem entry member)
      by_cases usable : entry.type = .usable
      · rw [if_pos usable] at run
        obtain ⟨_, _, run⟩ := (bind_eq_ok _ _ _).mp run
        have added : WellPlaced (earlymemRegionAdd (stale entry) entry.base entry.length s).regions :=
          Earlymem.add_well_placed placed here fun region member => apart region member entry List.mem_cons_self
        obtain ⟨placed', pairs, origin⟩ := ih later added (List.forall_mem_cons.mpr ⟨fun other member => (first other member).symm, apartRest⟩) run
        refine ⟨placed', List.pairwise_cons.mpr ⟨first, pairs⟩, fun region member => ?_⟩
        rcases origin region member with new | ⟨other, inRest, is_⟩
        · rcases List.mem_cons.mp new with rfl | old
          · exact .inr ⟨entry, List.mem_cons_self, usable, rfl, rfl⟩
          · exact .inl old
        · exact .inr ⟨other, List.mem_cons_of_mem entry inRest, is_⟩
      · rw [if_neg usable] at run
        obtain ⟨placed', pairs, origin⟩ := ih later placed apartRest run
        refine ⟨placed', List.pairwise_cons.mpr ⟨first, pairs⟩, fun region member => ?_⟩
        rcases origin region member with old | ⟨other, inRest, is_⟩
        · exact .inl old
        · exact .inr ⟨other, List.mem_cons_of_mem entry inRest, is_⟩

-- What the boot has come to before the hand-over.
structure Booting (map : List Entry) (s : System) : Prop where
  placed : WellPlaced s.early.regions
  origin : ∀ region ∈ s.early.regions, ∃ entry ∈ map, entry.Is region
  used : ∀ f ∈ s.frames, PageOf s.early.regions f ∧ ¬ Earlymem.Free s.early.regions f
  once : s.frames.Nodup
  zones : s.pmm.zone = Pmm.bootZone
  blocks : s.blocks = []

theorem origin_spans {map : List Entry} {regions regions' : List Earlymem.Region}
    (same : regions'.map Earlymem.Region.span = regions.map Earlymem.Region.span)
    (origin : ∀ region ∈ regions, ∃ entry ∈ map, entry.Is region) : ∀ region ∈ regions', ∃ entry ∈ map, entry.Is region := by
  intro region member
  have listed := List.mem_map_of_mem (f := Earlymem.Region.span) member
  rw [same] at listed
  obtain ⟨old, there, spans⟩ := List.mem_map.mp listed
  obtain ⟨entry, inMap, usable, base, length⟩ := origin old there
  rw [Earlymem.Region.span, Earlymem.Region.span, Prod.mk.injEq] at spans
  exact ⟨entry, inMap, usable, spans.1 ▸ base, spans.2 ▸ length⟩

theorem take_page {map : List Entry} {s : System} (booting : Booting map s) {address : Nat} {early : Earlymem.State}
    (taken : earlymemAllocPage s.early = .ok (address, early)) : Booting map { s with early := early } ∧
      PageOf early.regions address ∧ ¬ Earlymem.Free early.regions address ∧ address ∉ s.frames := by
  have handsOut := Earlymem.earlymem_alloc_page_ok booting.placed taken
  have spans := handsOut.spans
  have isFree := handsOut.free_iff booting.placed
  have pages := Earlymem.page_of_spans spans
  refine ⟨⟨Earlymem.well_placed_spans spans booting.placed, origin_spans spans booting.origin, fun f member => ?_, booting.once, booting.zones,
    booting.blocks⟩, ?_, ?_, ?_⟩
  · obtain ⟨isPage, used⟩ := booting.used f member
    exact ⟨(pages f).mpr isPage, fun free => used ((isFree f).mp free).2⟩
  · exact (pages address).mpr (Earlymem.free_is_page handsOut.isFree)
  · exact fun free => ((isFree address).mp free).1 rfl
  · exact fun member => (booting.used address member).2 handsOut.isFree

theorem boot_step_keeps {map : List Entry} {act : BootAct} {s s' : System} (booting : Booting map s) (taken : bootStep act s = some s') :
    Booting map s' := by
  cases act with
  | frame =>
      obtain ⟨address, early, ran, rfl⟩ := take_frame_ok taken
      obtain ⟨kept, isPage, used, new⟩ := take_page booting ran
      exact ⟨kept.placed, kept.origin, List.forall_mem_cons.mpr ⟨⟨isPage, used⟩, kept.used⟩, List.nodup_cons.mpr ⟨new, kept.once⟩,
        kept.zones, kept.blocks⟩
  | page =>
      rw [bootStep] at taken
      split at taken
      · cases taken
      · rename_i address early ran
        obtain rfl := Option.some.inj taken
        exact (take_page booting ran).1
  | block size =>
      rw [bootStep] at taken
      split at taken
      · cases taken
      · rename_i address early ran
        obtain rfl := Option.some.inj taken
        obtain ⟨_, _, rfl⟩ | ⟨_, page, between, drawn, _, rfl⟩ := Earlymem.earlymem_alloc_ok ran
        · exact ⟨booting.placed, booting.origin, booting.used, booting.once, booting.zones, booting.blocks⟩
        · obtain ⟨kept, _⟩ := take_page booting drawn
          exact ⟨kept.placed, kept.origin, kept.used, kept.once, kept.zones, kept.blocks⟩

theorem boot_reached {map : List Entry} (wellFormed : WellFormed map) {s : System} (reach : Reachable (BootStarts map) bootStep s) :
    map.Pairwise Entry.Apart ∧ Booting map s := by
  have keeps : ∀ action s s', map.Pairwise Entry.Apart ∧ Booting map s → bootStep action s = some s' →
      map.Pairwise Entry.Apart ∧ Booting map s' :=
    fun _ _ _ inv taken => ⟨inv.1, boot_step_keeps inv.2 taken⟩
  refine Transitions.reachable_invariant ?_ keeps reach
  rintro s ⟨⟨stale, run⟩, zones, frames, blocks⟩
  obtain ⟨placed, apart, origin⟩ := init_early_ok wellFormed.fits ⟨fun _ member => absurd member List.not_mem_nil, .nil⟩
    (fun _ member => absurd member List.not_mem_nil) run
  refine ⟨apart, placed, fun region member => (origin region member).resolve_left List.not_mem_nil, ?_, ?_, zones, blocks⟩
  · rw [frames]
    exact fun _ member => absurd member List.not_mem_nil
  · rw [frames]
    exact List.nodup_nil

end Boot

section Release

variable {map : List Entry}

-- The pages a region has left, by their place in the page database.
def leftPages (region : Earlymem.Region) : List Nat :=
  ((List.range region.pages).filter fun i => !region.isSet i).map fun i => Pmm.page (region.page i)

theorem release_pages_eq {region : Earlymem.Region} (whole : pageGranularity ∣ region.length) (left i : Nat) (s : Pmm.State)
    (last : i + left = region.pages) :
    releasePages region left (i * pageGranularity) s =
      freePages (((List.range' i left).filter fun i => !region.isSet i).map fun i => Pmm.page (region.page i)) s := by
  induction left generalizing i s with
  | zero => rfl
  | succ left ih =>
      have positive : 0 < pageGranularity := by decide
      have inside : i * pageGranularity < region.length := by
        rw [← Nat.div_mul_cancel whole]
        exact Nat.mul_lt_mul_of_pos_right (by rw [← Earlymem.Region.pages]; omega) positive
      have next : i * pageGranularity + pageGranularity = (i + 1) * pageGranularity := (Nat.succ_mul i pageGranularity).symm
      have isFree : earlymemRegionIsfree region (i * pageGranularity) = .ok (!region.isSet i) := by
        rw [earlymemRegionIsfree, assertThat, if_pos (decide_eq_true inside), bind_ok, Nat.mul_div_cancel _ positive]
      rw [releasePages, isFree, bind_ok, List.range'_succ, next]
      cases isSet : region.isSet i with
      | true =>
          rw [List.filter_cons_of_neg (by simp [isSet])]
          exact ih (i + 1) s (by omega)
      | false =>
          rw [List.filter_cons_of_pos (by simp [isSet]), List.map_cons, freePages]
          have freed (s : Pmm.State) : releasePages region left ((i + 1) * pageGranularity) s = _ := ih (i + 1) s (by omega)
          simp only [freed]
          rfl

theorem release_regions_eq (regions : List Earlymem.Region) (whole : ∀ region ∈ regions, pageGranularity ∣ region.length) (s : Pmm.State) :
    releaseRegions regions s = freePages (regions.flatMap leftPages) s := by
  induction regions generalizing s with
  | nil => rfl
  | cons region rest ih =>
      have here := whole region List.mem_cons_self
      have count : Earlymem.divCeil region.length pageGranularity = region.pages := by
        obtain ⟨k, length⟩ := here
        rw [Earlymem.divCeil, Earlymem.Region.pages, length]
        simp only [pageGranularity]
        omega
      have first := release_pages_eq here region.pages 0 s (Nat.zero_add _)
      rw [Nat.zero_mul] at first
      rw [releaseRegions, count, first, List.flatMap_cons, free_pages_append, leftPages, List.range_eq_range']
      exact congrArg _ (funext fun s => ih (fun region member => whole region (List.mem_cons_of_mem _ member)) s)

-- What the regions of early memory are, coming from entries.
structure Whole (regions : List Earlymem.Region) : Prop where
  base : ∀ region ∈ regions, pageGranularity ∣ region.base ∧ 0 < region.base
  length : ∀ region ∈ regions, pageGranularity ∣ region.length

theorem regions_whole (wellFormed : WellFormed map) {regions : List Earlymem.Region}
    (origin : ∀ region ∈ regions, ∃ entry ∈ map, entry.Is region) : Whole regions := by
  refine ⟨fun region member => ?_, fun region member => ?_⟩
  · obtain ⟨entry, inMap, usable, base, _⟩ := origin region member
    rw [base]
    exact ⟨(wellFormed.aligned entry inMap (by rw [usable]; rfl)).1, wellFormed.above entry inMap usable⟩
  · obtain ⟨entry, inMap, usable, _, length⟩ := origin region member
    rw [length]
    exact (wellFormed.aligned entry inMap (by rw [usable]; rfl)).2

variable {regions : List Earlymem.Region} (placed : WellPlaced regions) (whole : Whole regions)

include placed whole

theorem page_aligned {a : Nat} (isPage : PageOf regions a) : pageGranularity ∣ a := by
  obtain ⟨region, member, i, below, rfl⟩ := isPage
  rw [(Earlymem.page_inside (placed.fits region member) below).1]
  exact Nat.dvd_add (whole.base region member).1 (Nat.dvd_mul_left _ _)

theorem page_injective {a b : Nat} (isPage : PageOf regions a) (isOther : PageOf regions b) (same : Pmm.page a = Pmm.page b) : a = b := by
  rw [← Nat.div_mul_cancel (page_aligned placed whole isPage), ← Nat.div_mul_cancel (page_aligned placed whole isOther)]
  exact congrArg (· * pageGranularity) same

omit placed whole in
theorem left_pages_mem {region : Earlymem.Region} {p : Nat} :
    p ∈ leftPages region ↔ ∃ i < region.pages, region.isSet i = false ∧ p = Pmm.page (region.page i) := by
  simp only [leftPages, List.mem_map, List.mem_filter, List.mem_range, Bool.not_eq_true', and_assoc, @eq_comm _ p]

omit placed whole in
theorem all_left_mem {p : Nat} : p ∈ regions.flatMap leftPages ↔ ∃ a, Earlymem.Free regions a ∧ p = Pmm.page a := by
  simp only [List.mem_flatMap, left_pages_mem]
  constructor
  · rintro ⟨region, member, i, below, free, rfl⟩
    exact ⟨region.page i, ⟨region, member, i, below, rfl, free⟩, rfl⟩
  · rintro ⟨a, ⟨region, member, i, below, rfl, free⟩, rfl⟩
    exact ⟨region, member, i, below, free, rfl⟩

theorem left_pages_nodup : (regions.flatMap leftPages).Nodup := by
  refine List.nodup_flatMap.mpr ⟨fun region member => ?_, placed.apart.imp_of_mem fun {region other} member memberOther apart => ?_⟩
  · refine List.Nodup.map_on (fun i inRange j inRange' same => ?_) (List.nodup_range.filter _)
    have below : i < region.pages := List.mem_range.mp (List.mem_filter.mp inRange).1
    have below' : j < region.pages := List.mem_range.mp (List.mem_filter.mp inRange').1
    have equal := page_injective placed whole ⟨region, member, i, below, rfl⟩ ⟨region, member, j, below', rfl⟩ same
    rw [(Earlymem.page_inside (placed.fits region member) below).1, (Earlymem.page_inside (placed.fits region member) below').1] at equal
    exact Nat.eq_of_mul_eq_mul_right (by decide) (Nat.add_left_cancel equal)
  · intro p inRegion inOther
    obtain ⟨i, below, _, rfl⟩ := left_pages_mem.mp inRegion
    obtain ⟨j, below', _, same⟩ := left_pages_mem.mp inOther
    have equal := page_injective placed whole ⟨region, member, i, below, rfl⟩ ⟨other, memberOther, j, below', rfl⟩ same
    have inside := Earlymem.page_inside (placed.fits region member) below
    have inside' := Earlymem.page_inside (placed.fits other memberOther) below'
    have positive : 0 < pageGranularity := by decide
    unfold Earlymem.Region.Apart at apart
    omega

omit placed whole in
theorem page_holds (fits : ∀ region ∈ regions, region.base + region.length < 2 ^ 64) {a : Nat} (isPage : PageOf regions a)
    (origin : ∀ region ∈ regions, ∃ entry ∈ map, entry.Is region) :
    ∃ entry ∈ map, entry.type = .usable ∧ entry.base ≤ a ∧ a + pageGranularity ≤ entry.base + entry.length := by
  obtain ⟨region, member, i, below, rfl⟩ := isPage
  obtain ⟨place, room⟩ := Earlymem.page_inside (fits region member) below
  obtain ⟨entry, inMap, usable, base, length⟩ := origin region member
  rw [base, length] at room
  exact ⟨entry, inMap, usable, by omega, room⟩

end Release

section HandedOver

variable {map : List Entry}

def Entry.Holds (entry : Entry) (p : Nat) : Prop := entry.base ≤ Pmm.blockPaddr p ∧ Pmm.blockPaddr p < entry.base + entry.length

-- Every page of the map's memory that a zone has is live as a block of its own.
theorem add_entries_reaches (fits : ∀ entry ∈ map, entry.base + entry.length < 2 ^ 64)
    (aligned : ∀ entry ∈ map, entry.type.added = true → pageGranularity ∣ entry.base ∧ pageGranularity ∣ entry.length)
    (apart : map.Pairwise Entry.Apart) {c : Pmm.Config} (reach : Pmm.Reachable c)
    (disjoint : ∀ entry ∈ map, ∀ other ∈ c.regions, ∀ p, ¬ (entry.Holds p ∧ other.Holds p)) :
    ∃ c', addEntries map c.pmm = .ok c'.pmm ∧ Pmm.Reachable c' ∧ (∀ b ∈ c.live, b ∈ c'.live) ∧
      ∀ entry ∈ map, entry.type.added = true → ∀ p, entry.Holds p → 0 < p → p < 2 ^ 52 - 1 → ⟨p, 0, holder p⟩ ∈ c'.live := by
  induction map generalizing c with
  | nil => exact ⟨c, rfl, reach, fun _ live => live, fun _ member => absurd member List.not_mem_nil⟩
  | cons entry rest ih =>
      obtain ⟨first, apart⟩ := List.pairwise_cons.mp apart
      have later : ∀ other ∈ rest, other ∈ entry :: rest := fun other member => List.mem_cons_of_mem entry member
      cases isAdded : entry.type.added with
      | false =>
          obtain ⟨c', run, reach', kept, live⟩ := ih (fun e m => fits e (later e m)) (fun e m => aligned e (later e m)) apart reach
            (fun e m => disjoint e (later e m))
          refine ⟨c', ?_, reach', kept, List.forall_mem_cons.mpr ⟨fun yes => ?_, live⟩⟩
          · rw [addEntries, isAdded]
            exact run
          · rw [isAdded] at yes
            cases yes
      | true =>
          have multiples := aligned entry List.mem_cons_self isAdded
          let r : Pmm.Region := ⟨entry.base, entry.length, multiples.1, multiples.2, fits entry List.mem_cons_self⟩
          obtain ⟨layout, inv⟩ := Pmm.reachable_inv c reach
          obtain ⟨s, added, _⟩ := Pmm.region_add_returns r c.pmm inv.tracks.bounds
          have reached := reach.regionAdd c r s (disjoint entry List.mem_cons_self) added
          have away : ∀ other ∈ rest, ∀ p, ¬ (other.Holds p ∧ r.Holds p) := by
            rintro other member p ⟨⟨low, high⟩, low', high'⟩
            have sides := first other member
            simp only [Entry.Apart, r] at sides low' high'
            omega
          obtain ⟨c', run, reach', kept, live⟩ := ih (fun e m => fits e (later e m)) (fun e m => aligned e (later e m)) apart reached
            (fun other member => List.forall_mem_cons.mpr ⟨away other member, disjoint other (later other member)⟩)
          refine ⟨c', ?_, reach', fun b member => kept b (List.mem_append_right _ member), List.forall_mem_cons.mpr ⟨fun _ p holds positive small => ?_, live⟩⟩
          · rw [addEntries, isAdded]
            exact (congrArg (· >>= addEntries rest) added).trans run
          · have adds : r.Adds p := (Pmm.region_adds_iff r p).mpr ⟨holds, positive, small⟩
            exact kept _ (List.mem_append_left _ ((Pmm.region_blocks_mem r _).mpr ⟨adds, rfl, rfl⟩))

-- The page database after the hand-over: the frames in use are still live there, and what early memory has left
-- is free.
structure HandedOver (s : System) (c : Pmm.Config) : Prop where
  reach : Pmm.Reachable c
  used : ∀ f ∈ s.frames, ⟨Pmm.page f, 0, holder (Pmm.page f)⟩ ∈ c.live
  left : ∀ a, Earlymem.Free s.early.regions a → (∃ r ∈ c.regions, r.Adds (Pmm.page a)) ∧ ∀ b ∈ c.live, ¬ b.Covers (Pmm.page a)

theorem block_covers (p q : Nat) : (Run.mk p 0 (holder p)).Covers q ↔ q = p := by
  simp only [Run.Covers, Nat.pow_zero]
  omega

theorem hand_over_reaches (wellFormed : WellFormed map) {s : System} (booting : Booting map s) (apart : map.Pairwise Entry.Apart) :
    ∃ c, handOver map s.early s.pmm = .ok c.pmm ∧ HandedOver s c := by
  have whole := regions_whole wellFormed booting.origin
  obtain ⟨c, added, reach, _, live⟩ := add_entries_reaches wellFormed.fits wellFormed.aligned apart (.boot s.pmm booting.zones)
    (fun _ _ _ member => absurd member List.not_mem_nil)
  have lives : ∀ a, PageOf s.early.regions a → ⟨Pmm.page a, 0, holder (Pmm.page a)⟩ ∈ c.live := by
    intro a isPage
    obtain ⟨entry, inMap, usable, low, high⟩ := page_holds booting.placed.fits isPage booting.origin
    have fits := wellFormed.fits entry inMap
    have above := wellFormed.above entry inMap usable
    have whole : Pmm.blockPaddr (Pmm.page a) = a := Nat.div_mul_cancel (page_aligned booting.placed whole isPage)
    have holds : entry.Holds (Pmm.page a) := by
      rw [Entry.Holds, whole]
      exact ⟨low, by simp only [pageGranularity] at high; omega⟩
    simp only [Pmm.blockPaddr, pageGranularity] at whole high
    exact live entry inMap (by rw [usable]; rfl) (Pmm.page a) holds (by omega) (by omega)
  obtain ⟨pmm, live', freed, reach', left⟩ := free_pages_reaches reach (left_pages_nodup booting.placed whole) fun p member => by
    obtain ⟨a, free, rfl⟩ := all_left_mem.mp member
    exact lives a (Earlymem.free_is_page free)
  refine ⟨⟨pmm, c.regions, live'⟩, ?_, reach', fun f member => ?_, fun a free => ?_⟩
  · rw [handOver, added, bind_ok, release_regions_eq _ whole.length, freed]
  · obtain ⟨isPage, used⟩ := booting.used f member
    refine (left _).mpr ⟨lives f isPage, fun p inLeft same => ?_⟩
    obtain ⟨a, free, rfl⟩ := all_left_mem.mp inLeft
    have equal := page_injective booting.placed whole isPage (Earlymem.free_is_page free) (Run.mk.inj same).1
    exact used (equal ▸ free)
  · have isPage := Earlymem.free_is_page free
    have inLeft := all_left_mem.mpr ⟨a, free, rfl⟩
    refine ⟨?_, fun b member covers => ?_⟩
    · exact ((Pmm.buddy_allocator_safe c reach).1.cover (Pmm.page a)).mp
        ⟨_, List.mem_append_right _ (lives a isPage), (block_covers _ _).mpr rfl⟩
    · obtain ⟨old, apart⟩ := (left b).mp member
      have disjoint := (List.pairwise_append.mp (Pmm.buddy_allocator_safe c reach).1.disjoint).2.1
      have symmetric : Std.Symm fun a b : Run => ∀ p, ¬ (a.Covers p ∧ b.Covers p) := ⟨fun _ _ away p both => away p both.symm⟩
      exact disjoint.forall old (lives a isPage) (apart _ inLeft) _ ⟨covers, (block_covers _ _).mpr rfl⟩

end HandedOver

section Owned

-- After the hand-over, the blocks that are kept from it beside the ones that pmm_alloc gives.
structure Owned (regions : List Pmm.Region) (kept : List Run) (s : System) : Prop where
  tracked : ∃ layout, Pmm.Inv ⟨s.pmm, regions, s.blocks ++ kept⟩ layout
  placed : WellPlaced s.early.regions
  used : ∀ f ∈ s.frames, ⟨Pmm.page f, 0, holder (Pmm.page f)⟩ ∈ kept
  once : (s.frames.map Pmm.page).Nodup
  left : ∀ a, Earlymem.Free s.early.regions a → (∃ r ∈ regions, r.Adds (Pmm.page a)) ∧ ∀ b ∈ kept, ¬ b.Covers (Pmm.page a)

variable {regions : List Pmm.Region} {kept : List Run} {s s' : System}

theorem live_apart {c : Pmm.Config} {layout : Dyadic.Layout} (inv : Pmm.Inv c layout) :
    c.live.Pairwise fun a b => ∀ p, ¬ (a.Covers p ∧ b.Covers p) :=
  (List.pairwise_append.mp (Pmm.inv_safe inv).disjoint).2.1

theorem owned_one_owner (owned : Owned regions kept s) : OneOwner s := by
  obtain ⟨layout, inv⟩ := owned.tracked
  obtain ⟨blocks, _, between⟩ := List.pairwise_append.mp (live_apart inv)
  refine ⟨owned.once, blocks, fun f member b inBlocks covers => ?_⟩
  exact between b inBlocks _ (owned.used f member) _ ⟨covers, (block_covers _ _).mpr rfl⟩

theorem alloc_small {order flags h : Nat} {s s' : Pmm.State} (allocated : pmmAlloc order flags s = .ok (s', h)) : order ≤ pmmMaxOrder := by
  rw [pmmAlloc] at allocated
  obtain ⟨_, checked, _⟩ := (bind_eq_ok _ _ _).mp allocated
  exact assert_ok checked

theorem owned_step {action : Act} (owned : Owned regions kept s) (pmmOnly : action ≠ .frame) (taken : step action s = some s') :
    Owned regions kept s' := by
  obtain ⟨layout, inv⟩ := owned.tracked
  cases action with
  | frame => exact absurd rfl pmmOnly
  | alloc order flags =>
      rw [step] at taken
      split at taken
      · cases taken
      · rename_i pmm h allocated
        obtain rfl := Option.some.inj taken
        obtain ⟨next, _, inv'⟩ := Pmm.alloc_inv inv order flags (alloc_small allocated) pmm h allocated
        exact ⟨⟨next, inv'⟩, owned.placed, owned.used, owned.once, owned.left⟩
  | free b =>
      rw [step] at taken
      split at taken
      · rename_i member
        split at taken
        · cases taken
        · rename_i pmm freed
          obtain rfl := Option.some.inj taken
          obtain ⟨next, inv'⟩ := Pmm.free_inv inv b (List.mem_append_left kept member) pmm freed
          dsimp only at inv'
          rw [List.erase_append_left kept member] at inv'
          exact ⟨⟨next, inv'⟩, owned.placed, owned.used, owned.once, owned.left⟩
      · cases taken

theorem owned_start {map : List Entry} (wellFormed : WellFormed map) (starts : Starts map s) : ∃ regions kept, Owned regions kept s := by
  obtain ⟨boot, pmm, reach, handed, rfl⟩ := starts
  obtain ⟨apart, booting⟩ := boot_reached wellFormed reach
  obtain ⟨c, run, after⟩ := hand_over_reaches wellFormed booting apart
  obtain rfl := Except.ok.inj (handed.symm.trans run)
  obtain ⟨layout, inv⟩ := Pmm.reachable_inv c after.reach
  refine ⟨c.regions, c.live, ⟨layout, ?_⟩, booting.placed, after.used, ?_, after.left⟩
  · rw [booting.blocks]
    exact inv
  · refine List.Nodup.map_on (fun a inFrames b inFrames' same => ?_) booting.once
    exact page_injective booting.placed (regions_whole wellFormed booting.origin) (booting.used a inFrames).1 (booting.used b inFrames').1 same

theorem zone_of_flags (z : Pmm.ZoneId) : ∃ flags, Pmm.allocZone flags = z := by
  cases z with
  | low => exact ⟨Pmm.flagZoneLow, rfl⟩
  | normal => exact ⟨0, rfl⟩

theorem free_page_drawn {p : Nat} {layout : Dyadic.Layout} (inv : Pmm.Inv ⟨s.pmm, regions, s.blocks ++ kept⟩ layout) (inDom : layout.dom p)
    (free : layout.free p) : ∃ flags s₁ next, step (.alloc 0 flags) s = some s₁ ∧ Pmm.Inv ⟨s₁.pmm, regions, s₁.blocks ++ kept⟩ next ∧
      next.dom = layout.dom ∧ s₁.frames = s.frames ∧ Pmm.zoneWeight s₁.pmm (holder p) < Pmm.zoneWeight s.pmm (holder p) := by
  obtain ⟨flags, zone⟩ := zone_of_flags (holder p)
  have there : Pmm.FreeIn s.pmm (Pmm.allocZone flags) p := (Pmm.free_in_iff inv _ p).mpr ⟨inDom, free, zone.symm⟩
  rcases Pmm.pmm_alloc_spec inv.tracks inv.canonical 0 flags (Nat.zero_le _) with ⟨pmm, h, _, allocated, _⟩ | ⟨failed, empty⟩
  · obtain ⟨next, result, inv'⟩ := Pmm.alloc_inv inv 0 flags (Nat.zero_le _) pmm h allocated
    refine ⟨flags, { s with pmm := pmm, blocks := ⟨h, 0, Pmm.allocZone flags⟩ :: s.blocks }, next, ?_, inv', result.dom, rfl, ?_⟩
    · rw [step, allocated]
    · have weight := result.weights (holder p)
      rw [if_pos zone.symm] at weight
      exact Nat.lt_of_lt_of_eq (Nat.lt_succ_self _) weight
  · obtain ⟨k, head, listed, _⟩ := there
    rw [empty k (Nat.zero_le _) (Pmm.listed_small inv listed)] at listed
    exact absurd listed List.not_mem_nil

-- A page that the buddy allocator has, and that is not kept, is given out once it is asked for enough pages.
theorem page_given_out {p : Nat} {layout : Dyadic.Layout} (inv : Pmm.Inv ⟨s.pmm, regions, s.blocks ++ kept⟩ layout) (inDom : layout.dom p)
    (apart : ∀ b ∈ kept, ¬ b.Covers p) : ∃ schedule s', execute step schedule s = some s' ∧ s'.frames = s.frames ∧ ∃ b ∈ s'.blocks, b.Covers p := by
  induction weight : Pmm.zoneWeight s.pmm (holder p) using Nat.strong_induction_on generalizing s layout with
  | _ weight ih =>
      by_cases free : layout.free p
      · obtain ⟨flags, s₁, next, drawn, inv', sameDom, frames, fewer⟩ := free_page_drawn inv inDom free
        obtain ⟨schedule, s', run, frames', given⟩ := ih _ (weight ▸ fewer) inv' (sameDom ▸ inDom) rfl
        refine ⟨.alloc 0 flags :: schedule, s', ?_, frames'.trans frames, given⟩
        rw [execute, drawn]
        exact run
      · have cell := layout.cell_at p inDom
        have member := Dyadic.cell_head_same (layout.ord p) p
        have taken : ¬ layout.free (Dyadic.cellHead (layout.ord p) p) := fun headFree =>
          free ((layout.cell_covers _ _ p cell member).2.2.mpr headFree)
        have live := (inv.live ⟨_, layout.ord p, holder _⟩).mpr ⟨⟨cell, taken⟩, rfl⟩
        have covers : Run.Covers ⟨Dyadic.cellHead (layout.ord p) p, layout.ord p, holder (Dyadic.cellHead (layout.ord p) p)⟩ p :=
          (Pmm.cell_covers_iff cell p).mpr member
        have inBlocks := (List.mem_append.mp live).resolve_right fun inKept => apart _ inKept covers
        exact ⟨[], s, rfl, rfl, _, inBlocks, covers⟩

-- Nothing of the page database changes.
theorem frame_keeps_inv {layout : Dyadic.Layout} (inv : Pmm.Inv ⟨s.pmm, regions, s.blocks ++ kept⟩ layout)
    (taken : step .frame s = some s') : Pmm.Inv ⟨s'.pmm, regions, s'.blocks ++ kept⟩ layout := by
  obtain ⟨address, early, ran, rfl⟩ := take_frame_ok taken
  exact ⟨⟨inv.tracks.bounds, inv.tracks.located, inv.tracks.tops, inv.tracks.listed, inv.tracks.nodup, inv.tracks.heads⟩, inv.canonical,
    inv.domain, inv.tiles, inv.live, inv.liveNodup, inv.counts⟩

-- After the hand-over, what alloc_page takes belongs to the buddy allocator.
theorem frame_taken_twice (owned : Owned regions kept s) (taken : step .frame s = some s') :
    ∃ schedule s'', execute step schedule s' = some s'' ∧ ¬ OneOwner s'' := by
  obtain ⟨layout, inv⟩ := owned.tracked
  have inv' := frame_keeps_inv inv taken
  obtain ⟨address, early, ran, same⟩ := take_frame_ok taken
  have wasFree := (Earlymem.earlymem_alloc_page_ok owned.placed ran).isFree
  obtain ⟨has, apart⟩ := owned.left address wasFree
  obtain ⟨schedule, s'', run, frames, b, inBlocks, covers⟩ := page_given_out inv' ((inv.domain _).mpr has) apart
  refine ⟨schedule, s'', run, fun one => one.apart address ?_ b inBlocks covers⟩
  rw [frames, same]
  exact List.mem_cons_self

end Owned

-- One owner for every page frame, in every run in which alloc_page takes no frame after the hand-over. Where it does,
-- pmm_alloc gives the same frame out in some run that follows.
theorem frames_one_owner {map : List Entry} (wellFormed : WellFormed map) :
    (∀ s, ReachableUnder (Starts map) step (fun action _ => action ≠ .frame) s → OneOwner s) ∧
      ∀ s s', ReachableUnder (Starts map) step (fun action _ => action ≠ .frame) s → step .frame s = some s' →
        ∃ schedule s'', execute step schedule s' = some s'' ∧ ¬ OneOwner s'' := by
  have owned : ∀ s, ReachableUnder (Starts map) step (fun action _ => action ≠ .frame) s → ∃ regions kept, Owned regions kept s := by
    intro s reach
    have initial : ∀ s, Starts map s → ∃ regions kept, Owned regions kept s := fun s starts => owned_start wellFormed starts
    refine reachable_under_invariant initial ?_ reach
    rintro action s s' ⟨regions, kept, owned⟩ pmmOnly taken
    exact ⟨regions, kept, owned_step owned pmmOnly taken⟩
  refine ⟨fun s reach => ?_, fun s s' reach taken => ?_⟩
  · obtain ⟨_, _, owned⟩ := owned s reach
    exact owned_one_owner owned
  · obtain ⟨_, _, owned⟩ := owned s reach
    exact frame_taken_twice owned taken

-- A memory map of eight pages, the first of which early memory keeps for its bitmap.
def smallMap : List Entry := [⟨0x1000000, 0x8000, .usable⟩]

def smallStart : Except Fault System := do
  let early ← initEarly (fun _ _ => 0#8) smallMap Earlymem.bootState
  let pmm ← handOver smallMap early Pmm.blankState
  .ok ⟨early, pmm, [], []⟩

theorem small_well_formed : WellFormed smallMap := by
  refine ⟨?_, ?_, ?_⟩ <;> simp only [smallMap, List.forall_mem_singleton] <;> decide

theorem small_starts {s : System} (made : smallStart = .ok s) : Starts smallMap s := by
  obtain ⟨early, added, made⟩ := (bind_eq_ok _ _ _).mp made
  obtain ⟨pmm, handed, made⟩ := (bind_eq_ok _ _ _).mp made
  obtain rfl := Except.ok.inj made
  exact ⟨⟨early, Pmm.blankState, [], []⟩, pmm, .start _ ⟨⟨_, added⟩, rfl, rfl, rfl⟩, handed, rfl⟩

-- The first page given out by pmm_alloc is the first one that early memory has left.
theorem small_ran : ((smallStart.toOption.bind (execute step [.alloc 0 0, .frame])).map fun s => (s.frames, s.blocks)) =
    some ([0x1001000], [⟨0x1001, 0, .normal⟩]) := by
  decide +kernel

theorem small_run : ∃ start s, Starts smallMap start ∧ execute step [.alloc 0 0, .frame] start = some s ∧ s.frames = [0x1001000] ∧
    s.blocks = [⟨0x1001, 0, .normal⟩] := by
  obtain ⟨s, run, result⟩ := Option.map_eq_some_iff.mp small_ran
  obtain ⟨start, made, run⟩ := Option.bind_eq_some_iff.mp run
  obtain ⟨frames, blocks⟩ := Prod.mk.inj result
  refine ⟨start, s, small_starts ?_, run, frames, blocks⟩
  cases init : smallStart with
  | error fault =>
      rw [init] at made
      cases made
  | ok first =>
      rw [init] at made
      exact congrArg Except.ok (Option.some.inj made)

theorem frames_one_owner_small : ∃ s s', ReachableUnder (Starts smallMap) step (fun action _ => action ≠ .frame) s ∧ OneOwner s ∧
    s.blocks = [⟨0x1001, 0, .normal⟩] ∧ step .frame s = some s' ∧ ∃ schedule s'', execute step schedule s' = some s'' ∧ ¬ OneOwner s'' := by
  obtain ⟨one, twice⟩ := frames_one_owner small_well_formed
  obtain ⟨start, s', starts, run, _, blocks⟩ := small_run
  obtain ⟨s, allocated, run⟩ := Option.bind_eq_some_iff.mp run
  obtain ⟨_, taken, last⟩ := Option.bind_eq_some_iff.mp run
  obtain rfl := Option.some.inj last
  have reach : ReachableUnder (Starts smallMap) step (fun action _ => action ≠ .frame) s :=
    .step start s (.alloc 0 0) (.start start starts) (fun same => by cases same) allocated
  obtain ⟨_, _, _, rfl⟩ := take_frame_ok taken
  exact ⟨s, _, reach, one s reach, blocks, taken, twice s _ reach taken⟩

theorem frame_of_both_allocators : ∃ map s, WellFormed map ∧ Reachable (Starts map) step s ∧ s.frames = [0x1001000] ∧
    s.blocks = [⟨0x1001, 0, .normal⟩] ∧ ¬ OneOwner s := by
  obtain ⟨start, s, starts, run, frames, blocks⟩ := small_run
  refine ⟨smallMap, s, small_well_formed, Transitions.reachable_execute (.start start starts) run, frames, blocks, fun one => ?_⟩
  refine one.apart 0x1001000 (frames ▸ List.mem_singleton_self _) ⟨0x1001, 0, .normal⟩ (blocks ▸ List.mem_singleton_self _) ?_
  decide

end Elysium.HandOver
