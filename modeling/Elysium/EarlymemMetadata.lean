import Elysium.EarlymemRuns

set_option autoImplicit false

namespace Elysium.Earlymem

-- sizeof(earlymem_region_t).
def headerSize : Nat := 40

-- The header and a bit for each page of the region behind it.
def Region.metadata (region : Region) : Nat := headerSize + divCeil region.pages 8

def Overlaps (region : Region) (page : Nat) : Prop :=
  ∃ b, region.base ≤ b ∧ b < region.base + region.metadata ∧ page ≤ b ∧ b < page + pageGranularity

-- What earlymem_region_add leaves right: no page behind the ones it marks has a byte of the metadata, and the bits
-- that it does not clear were as they should be.
def Suits (stale : Nat → BitVec 8) (length : Nat) : Prop :=
  if length / pageGranularity < 8 then ∀ i < length / pageGranularity, Bitmap.get stale i = decide (i = 0)
  else headerSize + divCeil (length / pageGranularity) 8 ≤ pageGranularity * divCeil (bitmapSize length) pageGranularity ∧
    ∀ i, 8 * bitmapSize length ≤ i → i < length / pageGranularity → Bitmap.get stale i = false

section Add

theorem lt_div_ceil (a b i : Nat) (positive : 0 < b) : i < divCeil a b ↔ i * b < a := by
  rw [divCeil, Nat.lt_div_iff_mul_lt positive]
  omega

variable {stale : Nat → BitVec 8} {address length : Nat}

theorem new_region_set (i : Nat) : (newRegion stale address length).isSet i = true ↔
    i * pageGranularity < bitmapSize length ∨ (8 * bitmapSize length ≤ i ∧ Bitmap.get stale i = true) := by
  rw [Region.isSet, newRegion, Bitmap.get_set_first, Bitmap.get_zero, Bool.or_eq_true, decide_eq_true_eq, lt_div_ceil _ _ _ (by decide)]
  by_cases cleared : i / 8 < bitmapSize length
  · have low : ¬ 8 * bitmapSize length ≤ i := by omega
    simp [cleared, low]
  · have high : 8 * bitmapSize length ≤ i := by omega
    simp [cleared, high]

theorem overlaps_page {region : Region} (fits : region.base + region.length < 2 ^ 64) {i : Nat} (below : i < region.pages) :
    Overlaps region (region.page i) ↔ i * pageGranularity < region.metadata := by
  have place := (page_inside fits below).1
  have positive : 0 < pageGranularity := by decide
  constructor
  · rintro ⟨b, _, inMetadata, inPage, _⟩
    omega
  · intro less
    exact ⟨region.page i, by omega, by omega, Nat.le_refl _, by omega⟩

theorem marks_iff_suits (fits : address + length < 2 ^ 64) (filled : 0 < length / pageGranularity) :
    (∀ i < (newRegion stale address length).pages, ((newRegion stale address length).isSet i = true ↔
      Overlaps (newRegion stale address length) ((newRegion stale address length).page i))) ↔ Suits stale length := by
  have pages : (newRegion stale address length).pages = length / pageGranularity := rfl
  have metadata : (newRegion stale address length).metadata = headerSize + divCeil (length / pageGranularity) 8 := rfl
  have fitsRegion : (newRegion stale address length).base + (newRegion stale address length).length < 2 ^ 64 := fits
  have each : (∀ i < (newRegion stale address length).pages, ((newRegion stale address length).isSet i = true ↔
      Overlaps (newRegion stale address length) ((newRegion stale address length).page i))) ↔
      ∀ i < length / pageGranularity, (i * pageGranularity < bitmapSize length ∨ (8 * bitmapSize length ≤ i ∧ Bitmap.get stale i = true) ↔
        i * pageGranularity < headerSize + divCeil (length / pageGranularity) 8) := by
    refine forall₂_congr fun i below => ?_
    rw [new_region_set, overlaps_page fitsRegion below, metadata]
  have size : bitmapSize length = length / pageGranularity / 8 := rfl
  rw [each, Suits, size]
  generalize length / pageGranularity = n at filled ⊢
  simp only [headerSize, pageGranularity]
  by_cases small : n < 8
  · rw [if_pos small]
    refine forall₂_congr fun i below => ?_
    have first : i * 4096 < 40 + divCeil n 8 ↔ i = 0 := by
      rw [divCeil]
      omega
    have uncleared : (i * 4096 < n / 8 ∨ (8 * (n / 8) ≤ i ∧ Bitmap.get stale i = true)) ↔ Bitmap.get stale i = true := by
      rw [or_iff_right (by omega), and_iff_right (by omega)]
    rw [first, uncleared]
    cases Bitmap.get stale i <;> simp
  · -- The pages whose bits are cleared, and the ones after them.
    rw [if_neg small]
    have reach : divCeil n 8 ≤ n / 8 + 1 := by
      rw [divCeil]
      omega
    have last := lt_div_ceil (n / 8) 4096 (divCeil (n / 8) 4096) (by decide)
    constructor
    · intro right
      refine ⟨?_, fun i past below => ?_⟩
      · by_contra beyond
        have bound : divCeil (n / 8) 4096 < n / 8 + 1 := by
          rw [divCeil]
          omega
        have marked := (right (divCeil (n / 8) 4096) (by omega)).mpr (by omega)
        omega
      · have clear := right i below
        by_contra set
        rw [Bool.not_eq_false] at set
        have inMetadata := clear.mp (.inr ⟨past, set⟩)
        omega
    · rintro ⟨fits_, clear⟩ i below
      constructor
      · rintro (marked | ⟨past, set⟩)
        · rw [divCeil]
          omega
        · rw [clear i past below] at set
          cases set
      · intro inMetadata
        have inMarked := lt_div_ceil (n / 8) 4096 i (by decide)
        exact .inl (inMarked.mp (by omega))

end Add

-- A page with a byte of a header or a bitmap.
def Metadata (regions : List Region) (page : Nat) : Prop := ∃ region ∈ regions, Overlaps region page

structure Safe (c : Config) : Prop where
  inside : ∀ region ∈ c.state.regions, region.metadata ≤ region.length
  used : ∀ page, Metadata c.state.regions page → ¬ Free c.state.regions page
  apart : ∀ page ∈ c.returned, ¬ Metadata c.state.regions page

-- A region as earlymem_region_add is given it, and leaves right.
def Added (stale : Nat → BitVec 8) (address length : Nat) : Prop :=
  pageGranularity ∣ address ∧ pageGranularity ∣ length ∧ 0 < length ∧ Suits stale length

theorem metadata_inside (region : Region) (whole : pageGranularity ∣ region.length) (filled : 0 < region.length) :
    0 < region.pages ∧ region.metadata ≤ region.length := by
  obtain ⟨n, same⟩ := whole
  have pages : region.pages = n := by
    rw [Region.pages, same]
    exact Nat.mul_div_cancel_left n (by decide)
  rw [Region.metadata, headerSize, divCeil, pages, same]
  rw [same] at filled
  simp only [pageGranularity] at *
  omega

theorem metadata_spans {regions regions' : List Region} (same : regions'.map Region.span = regions.map Region.span) (page : Nat) :
    Metadata regions' page ↔ Metadata regions page := by
  have bySpan : ∀ list : List Region, Metadata list page ↔ ∃ span ∈ list.map Region.span, Overlaps ⟨span.1, span.2, 0, fun _ => 0#8⟩ page := by
    intro list
    simp only [List.mem_map, exists_exists_and_eq_and]
    rfl
  rw [bySpan, bySpan, same]

theorem inside_spans {regions regions' : List Region} (same : regions'.map Region.span = regions.map Region.span)
    (inside : ∀ region ∈ regions, region.metadata ≤ region.length) : ∀ region ∈ regions', region.metadata ≤ region.length := by
  intro region member
  have listed : region.span ∈ regions.map Region.span := same ▸ List.mem_map_of_mem member
  obtain ⟨other, memberOther, equal⟩ := List.mem_map.mp listed
  have bound := inside other memberOther
  have lengths : other.length = region.length := congrArg Prod.snd equal
  rw [Region.metadata, Region.pages, lengths] at bound
  exact bound

-- The metadata of a region lies in its own pages.
theorem overlaps_own {regions : List Region} (placed : WellPlaced regions) (inside : ∀ region ∈ regions, region.metadata ≤ region.length)
    {region other : Region} (member : region ∈ regions) (memberOther : other ∈ regions) {i : Nat} (below : i < other.pages)
    (overlaps : Overlaps region (other.page i)) : region = other := by
  by_contra different
  have apart := apart_of_ne placed member memberOther different
  have bound := inside region member
  obtain ⟨place, room⟩ := page_inside (placed.fits other memberOther) below
  obtain ⟨b, aboveBase, inMetadata, inPage, belowPage⟩ := overlaps
  simp only [Region.Apart] at apart
  omega

section Steps

variable {c : Config} (inv : Inv c) (safe : Safe c)

include inv safe

theorem safe_region_add {stale : Nat → BitVec 8} {address length : Nat} (fits : address + length < 2 ^ 64)
    (disjoint : ∀ other ∈ c.state.regions, address + length ≤ other.base ∨ other.base + other.length ≤ address)
    (added : Added stale address length) : Safe { c with state := earlymemRegionAdd stale address length c.state } := by
  obtain ⟨_, whole, filled, suits⟩ := added
  have placed : WellPlaced (newRegion stale address length :: c.state.regions) := add_well_placed inv.placed fits disjoint
  obtain ⟨filledPages, insideNew⟩ := metadata_inside (newRegion stale address length) whole filled
  have inside : ∀ region ∈ newRegion stale address length :: c.state.regions, region.metadata ≤ region.length :=
    List.forall_mem_cons.mpr ⟨insideNew, safe.inside⟩
  have right := (marks_iff_suits fits filledPages).mpr suits
  refine ⟨inside, ?_, ?_⟩
  · rintro page ⟨region, member, overlaps⟩ ⟨other, memberOther, i, below, rfl, clear⟩
    obtain rfl := overlaps_own placed inside member memberOther below overlaps
    rcases List.mem_cons.mp member with rfl | inOld
    · rw [(right i below).mpr overlaps] at clear
      cases clear
    · exact safe.used _ ⟨region, inOld, overlaps⟩ ⟨region, inOld, i, below, rfl, clear⟩
  · rintro page isReturned ⟨region, member, overlaps⟩
    obtain ⟨other, memberOther, i, below, rfl⟩ := inv.pages page (.inl isReturned)
    obtain rfl := overlaps_own placed inside member (List.mem_cons_of_mem _ memberOther) below overlaps
    exact safe.apart _ isReturned ⟨region, memberOther, overlaps⟩

theorem safe_hands_out {page : Nat} {s : State} (handsOut : HandsOut page c.state s) :
    (∀ region ∈ s.regions, region.metadata ≤ region.length) ∧ (∀ q, Metadata s.regions q → ¬ Free s.regions q) ∧
      (∀ q ∈ page :: c.returned, ¬ Metadata s.regions q) := by
  have spans := handsOut.spans
  refine ⟨inside_spans spans safe.inside, fun q metadata free => ?_, fun q isReturned metadata => ?_⟩
  · exact safe.used q ((metadata_spans spans q).mp metadata) ((handsOut.free_iff inv.placed q).mp free).2
  · rcases List.mem_cons.mp isReturned with rfl | before
    · exact safe.used q ((metadata_spans spans q).mp metadata) handsOut.isFree
    · exact safe.apart q before ((metadata_spans spans q).mp metadata)

theorem safe_free_page {page : Nat} (known : page ∈ c.returned) : Safe { c with state := earlymemFreePage page c.state, held := c.held.filter (· ≠ page) } := by
  rw [earlymem_free_page_marks inv.placed]
  have spans := marks_spans page false c.state.regions
  refine ⟨inside_spans spans safe.inside, fun q metadata free => ?_, fun q isReturned metadata => ?_⟩
  · have was := (free_mark inv.placed (inv.pages page (.inl known)) false q).mp free
    rw [metadata_spans spans] at metadata
    by_cases same : q = page
    · exact safe.apart page known (same ▸ metadata)
    · rw [if_neg same] at was
      exact safe.used q metadata was
  · exact safe.apart q isReturned ((metadata_spans spans q).mp metadata)

theorem safe_alloc {size block : Nat} {s : State} (allocated : earlymemAlloc size c.state = .ok (block, s)) (taken : List Nat)
    (blocks : List (Nat × Nat)) : Safe { c with state := s, taken := taken, blocks := blocks } := by
  rcases earlymem_alloc_ok allocated with ⟨_, _, rfl⟩ | ⟨_, page, between, drawn, _, rfl⟩
  · exact ⟨safe.inside, safe.used, safe.apart⟩
  · obtain ⟨inside, used, apart⟩ := safe_hands_out inv safe (earlymem_alloc_page_ok inv.placed drawn)
    exact ⟨inside, used, fun q isReturned => apart q (List.mem_cons_of_mem _ isReturned)⟩

end Steps

theorem reachable_safe {c : Config} (reachable : Reachable Added c) : Safe c := by
  induction reachable with
  | boot =>
      refine ⟨fun _ member => absurd member List.not_mem_nil, ?_, fun _ member => absurd member List.not_mem_nil⟩
      rintro page ⟨region, member, _⟩
      exact absurd member List.not_mem_nil
  | regionAdd c stale address length before fits disjoint added ih => exact safe_region_add (reachable_inv before) ih fits disjoint added
  | allocPage c page s before allocated ih =>
      have inv := reachable_inv before
      obtain ⟨inside, used, apart⟩ := safe_hands_out inv ih (earlymem_alloc_page_ok inv.placed allocated)
      exact ⟨inside, used, apart⟩
  | freePage c page before known _ ih => exact safe_free_page (reachable_inv before) ih known
  | alloc c size block s before _ _ allocated ih => exact safe_alloc (reachable_inv before) ih allocated _ _

theorem earlymem_region_add_marks (c : Config) :
    (∀ stale address length, pageGranularity ∣ address → pageGranularity ∣ length → 0 < length → address + length < 2 ^ 64 →
      ((∀ i < (newRegion stale address length).pages, ((newRegion stale address length).isSet i = true ↔
        Overlaps (newRegion stale address length) ((newRegion stale address length).page i))) ↔ Suits stale length)) ∧
      (Reachable Added c → (∀ page, Metadata c.state.regions page → ¬ Free c.state.regions page) ∧
        ∀ page s, earlymemAllocPage c.state = .ok (page, s) → ¬ Metadata c.state.regions page) := by
  refine ⟨fun stale address length _ whole filled fits => ?_, fun reachable => ?_⟩
  · exact marks_iff_suits fits (metadata_inside (newRegion stale address length) whole filled).1
  · have safe := reachable_safe reachable
    have inv := reachable_inv reachable
    refine ⟨safe.used, fun page s allocated metadata => ?_⟩
    exact safe.used page metadata (earlymem_alloc_page_ok inv.placed allocated).isFree

theorem suits_eight_pages : Suits (fun _ => 0#8) 0x8000 := by
  rw [Suits, if_neg (by decide)]
  exact ⟨by decide, fun i past below => absurd below (Nat.not_lt.mpr past)⟩

theorem earlymem_region_add_marks_eight :
    (∀ i < (newRegion (fun _ => 0#8) 0x10000 0x8000).pages, ((newRegion (fun _ => 0#8) 0x10000 0x8000).isSet i = true ↔
      Overlaps (newRegion (fun _ => 0#8) 0x10000 0x8000) ((newRegion (fun _ => 0#8) 0x10000 0x8000).page i))) ∧
      ∃ c, Reachable Added c ∧ c.state.regions.map Region.span = [(0x10000, 0x8000)] ∧
        ∀ page s, earlymemAllocPage c.state = .ok (page, s) → ¬ Metadata c.state.regions page := by
  have added : Reachable Added ⟨earlymemRegionAdd (fun _ => 0#8) 0x10000 0x8000 bootState, [], [], [], []⟩ :=
    .regionAdd _ (fun _ => 0#8) 0x10000 0x8000 .boot (by decide) (by simp [bootState])
      ⟨⟨16, by decide⟩, ⟨8, by decide⟩, by decide, suits_eight_pages⟩
  obtain ⟨marks, safe⟩ := earlymem_region_add_marks ⟨earlymemRegionAdd (fun _ => 0#8) 0x10000 0x8000 bootState, [], [], [], []⟩
  exact ⟨(marks _ _ _ ⟨16, by decide⟩ ⟨8, by decide⟩ (by decide) (by decide)).mpr suits_eight_pages, _, added, rfl, (safe added).2⟩

-- Nothing is marked in a region of one page, and the page with the header is handed out.
theorem earlymem_region_add_header :
    (newRegion (fun _ => 0#8) 0x1000 0x1000).isSet 0 = false ∧ Overlaps (newRegion (fun _ => 0#8) 0x1000 0x1000) 0x1000 ∧
      ∃ s, earlymemAllocPage (earlymemRegionAdd (fun _ => 0#8) 0x1000 0x1000 bootState) = .ok (0x1000, s) := by
  refine ⟨by decide, ⟨0x1000, by decide, by decide, by decide, by decide⟩, _, state_after (by decide +kernel)⟩

end Elysium.Earlymem
