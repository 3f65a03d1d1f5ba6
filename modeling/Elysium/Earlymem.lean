import Elysium.Bitmap
import Elysium.Machine
import Mathlib.Data.List.Pairwise

set_option autoImplicit false

namespace Elysium.Earlymem

-- earlymem_region_t with the bitmap behind it, byte by byte. The bitmap is kept apart from what the pages of
-- the region hold otherwise.
structure Region where
  base : Nat
  length : Nat
  hint : Nat
  bitmap : Nat → BitVec 8

def Region.pages (region : Region) : Nat := region.length / pageGranularity

def Region.page (region : Region) (i : Nat) : Nat := add64 region.base (i * pageGranularity)

def Region.isSet (region : Region) (i : Nat) : Bool := Bitmap.get region.bitmap i

def bitmapSet (region : Region) (i : Nat) (value : Bool) : Region := { region with bitmap := Bitmap.set region.bitmap i value }

-- g_earlymem_regions from its head, and the page that earlymem_alloc cuts blocks from.
structure State where
  regions : List Region
  allocPage : Nat
  allocOffset : Nat

def bootState : State := ⟨[], 0, 0⟩

def bitmapSize (length : Nat) : Nat := length / pageGranularity / 8

def divCeil (a b : Nat) : Nat := (a + b - 1) / b

-- `stale` is what the memory behind the header holds before.
def newRegion (stale : Nat → BitVec 8) (address length : Nat) : Region where
  base := address
  length := length
  hint := 0
  bitmap := Bitmap.setFirst (Bitmap.zero stale (bitmapSize length)) (divCeil (bitmapSize length) pageGranularity)

def earlymemRegionAdd (stale : Nat → BitVec 8) (address length : Nat) (s : State) : State :=
  { s with regions := newRegion stale address length :: s.regions }

-- The inner loop of earlymem_alloc_page, at page i with so many pages to go.
def scan (i : Nat) : Nat → Region → Option Nat × Region
  | 0, region => (none, region)
  | remaining + 1, region =>
      if region.isSet i then scan (i + 1) remaining { region with hint := i }
      else (some (region.page i), bitmapSet { region with hint := i } i true)

-- The two passes over the regions differ in where they start, and whether a region that is at its end is left out.
def pass (restart : Bool) : List Region → Option Nat × List Region
  | [] => (none, [])
  | region :: rest =>
      if restart = false ∧ region.hint = region.pages then
        let result := pass restart rest
        (result.1, region :: result.2)
      else
        let start := if restart then 0 else region.hint
        match scan start (region.pages - start) region with
        | (some page, region) => (some page, region :: rest)
        | (none, region) =>
            let result := pass restart rest
            (result.1, region :: result.2)

def earlymemAllocPage (s : State) : Except Fault (Nat × State) :=
  match pass false s.regions with
  | (some page, regions) => .ok (page, { s with regions := regions })
  | (none, regions) =>
      match pass true regions with
      | (some page, regions) => .ok (page, { s with regions := regions })
      | (none, _) => .error (.panic "EARLY_MM" "out of memory")

def earlymemFreePage (address : Nat) (s : State) : State :=
  { s with
    regions := s.regions.map fun region =>
      if address < region.base ∨ address ≥ add64 region.base region.length then region
      else bitmapSet region ((address - region.base) / pageGranularity) false }

def needsPage (size : Nat) (s : State) : Bool := s.allocOffset = 0 ∨ sub64 pageGranularity s.allocOffset < size

def earlymemAlloc (size : Nat) (s : State) : Except Fault (Nat × State) := do
  assertThat (decide (size > 0 ∧ size ≤ pageGranularity))
  let s ← if needsPage size s then do
      let (page, s) ← earlymemAllocPage s
      .ok { s with allocPage := page, allocOffset := 0 }
    else .ok s
  .ok (add64 s.allocPage s.allocOffset, { s with allocOffset := s.allocOffset + size })

-- The allocator with what its callers know: the pages they have been given, the ones of these not freed since,
-- the pages that earlymem_alloc got, and the address and the size of each block it cut.
structure Config where
  state : State
  returned : List Nat
  held : List Nat
  taken : List Nat
  blocks : List (Nat × Nat)

-- A region is a range of the physical memory that the HHDM shows, and ends before 2^64. A page may be freed
-- that was returned, once or more often, but not one that earlymem_alloc has got meanwhile.
inductive Reachable (admits : (Nat → BitVec 8) → Nat → Nat → Prop) : Config → Prop where
  | boot : Reachable admits ⟨bootState, [], [], [], []⟩
  | regionAdd (c : Config) (stale : Nat → BitVec 8) (address length : Nat) (before : Reachable admits c)
      (fits : address + length < 2 ^ 64)
      (disjoint : ∀ other ∈ c.state.regions, address + length ≤ other.base ∨ other.base + other.length ≤ address)
      (admitted : admits stale address length) :
      Reachable admits { c with state := earlymemRegionAdd stale address length c.state }
  | allocPage (c : Config) (page : Nat) (s : State) (before : Reachable admits c) (allocated : earlymemAllocPage c.state = .ok (page, s)) :
      Reachable admits { c with state := s, returned := page :: c.returned, held := page :: c.held }
  | freePage (c : Config) (page : Nat) (before : Reachable admits c) (known : page ∈ c.returned) (other : page ∉ c.taken) :
      Reachable admits { c with state := earlymemFreePage page c.state, held := c.held.filter (· ≠ page) }
  | alloc (c : Config) (size block : Nat) (s : State) (before : Reachable admits c) (positive : 0 < size) (small : size ≤ pageGranularity)
      (allocated : earlymemAlloc size c.state = .ok (block, s)) :
      Reachable admits { c with
        state := s
        taken := if needsPage size c.state then s.allocPage :: c.taken else c.taken
        blocks := (block, size) :: c.blocks }

def PageOf (regions : List Region) (page : Nat) : Prop := ∃ region ∈ regions, ∃ i < region.pages, page = region.page i

def Free (regions : List Region) (page : Nat) : Prop := ∃ region ∈ regions, ∃ i < region.pages, page = region.page i ∧ region.isSet i = false

section Pass

-- Where the search begins next time does not matter for what is free.
def Region.forget (region : Region) : Region := { region with hint := 0 }

theorem scan_none (i remaining : Nat) (region : Region) (missing : (scan i remaining region).1 = none) :
    (scan i remaining region).2.forget = region.forget ∧ ∀ j, i ≤ j → j < i + remaining → region.isSet j = true := by
  induction remaining generalizing i region with
  | zero => exact ⟨rfl, fun j above below => absurd below (by omega)⟩
  | succ remaining ih =>
      rw [scan] at missing ⊢
      by_cases used : region.isSet i = true
      · rw [if_pos used] at missing ⊢
        obtain ⟨same, rest⟩ := ih (i + 1) _ missing
        refine ⟨same, fun j above below => ?_⟩
        rcases Nat.eq_or_lt_of_le above with rfl | later
        · exact used
        · exact rest j later (by omega)
      · rw [if_neg used] at missing
        cases missing

theorem scan_some (i remaining : Nat) (region : Region) (page : Nat) (found : (scan i remaining region).1 = some page) :
    ∃ j, j < i + remaining ∧ page = region.page j ∧ region.isSet j = false ∧
      (scan i remaining region).2.forget = (bitmapSet region j true).forget := by
  induction remaining generalizing i region with
  | zero => cases found
  | succ remaining ih =>
      rw [scan] at found ⊢
      by_cases used : region.isSet i = true
      · rw [if_pos used] at found ⊢
        obtain ⟨j, below, same, free, marked⟩ := ih (i + 1) _ found
        exact ⟨j, by omega, same, free, marked⟩
      · rw [if_neg used] at found ⊢
        exact ⟨i, by omega, (Option.some.inj found).symm, by simpa using used, rfl⟩

-- A pass that fails changes nothing but the hints. One from the start fails only if all is used.
theorem pass_none (restart : Bool) (regions : List Region) (missing : (pass restart regions).1 = none) :
    (pass restart regions).2.map Region.forget = regions.map Region.forget ∧
      (restart = true → ∀ region ∈ regions, ∀ i < region.pages, region.isSet i = true) := by
  induction regions with
  | nil => exact ⟨rfl, fun _ region member => absurd member List.not_mem_nil⟩
  | cons region rest ih =>
      rw [pass] at missing ⊢
      by_cases skipped : restart = false ∧ region.hint = region.pages
      · rw [if_pos skipped] at missing ⊢
        exact ⟨by simp [(ih missing).1], fun restarted => absurd (skipped.1.symm.trans restarted) (by decide)⟩
      · rw [if_neg skipped] at missing ⊢
        dsimp only at missing ⊢
        generalize starts : (if restart = true then 0 else region.hint) = start at missing ⊢
        rcases scanned : scan start (region.pages - start) region with ⟨_ | page, region'⟩
        · rw [scanned] at missing
          obtain ⟨same, used⟩ := scan_none start (region.pages - start) region (by rw [scanned])
          rw [scanned] at same
          obtain ⟨sameRest, usedRest⟩ := ih missing
          refine ⟨by simp [same, sameRest], fun restarted other member i below => ?_⟩
          rw [if_pos restarted] at starts
          rcases List.mem_cons.mp member with rfl | inRest
          · exact used i (by omega) (by omega)
          · exact usedRest restarted other inRest i below
        · rw [scanned] at missing
          cases missing

theorem pass_some (restart : Bool) (regions : List Region) (page : Nat) (found : (pass restart regions).1 = some page) :
    ∃ before region after i, regions = before ++ region :: after ∧ i < region.pages ∧ page = region.page i ∧ region.isSet i = false ∧
      (pass restart regions).2.map Region.forget = (before ++ bitmapSet region i true :: after).map Region.forget := by
  induction regions with
  | nil => cases found
  | cons region rest ih =>
      -- Nothing was found in this region.
      have further : ∀ region' : Region, region'.forget = region.forget → (pass restart rest).1 = some page →
          ∃ before r after i, region :: rest = before ++ r :: after ∧ i < r.pages ∧ page = r.page i ∧ r.isSet i = false ∧
            (region' :: (pass restart rest).2).map Region.forget = (before ++ bitmapSet r i true :: after).map Region.forget := by
        intro region' same foundLater
        obtain ⟨before, r, after, i, split, below, isPage, free, marked⟩ := ih foundLater
        refine ⟨region :: before, r, after, i, by simp [split], below, isPage, free, ?_⟩
        rw [List.map_cons, marked, same, List.cons_append, List.map_cons]
      rw [pass] at found ⊢
      by_cases skipped : restart = false ∧ region.hint = region.pages
      · rw [if_pos skipped] at found ⊢
        exact further region rfl found
      · rw [if_neg skipped] at found ⊢
        dsimp only at found ⊢
        generalize (if restart = true then 0 else region.hint) = start at found ⊢
        rcases scanned : scan start (region.pages - start) region with ⟨_ | page', region'⟩
        · rw [scanned] at found
          have same := (scan_none start (region.pages - start) region (by rw [scanned])).1
          rw [scanned] at same
          exact further region' same found
        · rw [scanned] at found
          obtain rfl := Option.some.inj found
          obtain ⟨i, below, isPage, free, marked⟩ := scan_some start (region.pages - start) region page' (by rw [scanned])
          rw [scanned] at marked
          have inside : i < region.pages := by
            by_contra past
            have noRoom : region.pages - start = 0 := by omega
            rw [noRoom, scan] at scanned
            cases scanned
          exact ⟨[], region, rest, i, rfl, inside, isPage, free, by simp [marked]⟩

end Pass

section Places

def Region.Apart (a b : Region) : Prop := a.base + a.length ≤ b.base ∨ b.base + b.length ≤ a.base

structure WellPlaced (regions : List Region) : Prop where
  fits : ∀ region ∈ regions, region.base + region.length < 2 ^ 64
  apart : regions.Pairwise Region.Apart

def Region.span (region : Region) : Nat × Nat := (region.base, region.length)

theorem page_inside {region : Region} (fits : region.base + region.length < 2 ^ 64) {i : Nat} (below : i < region.pages) :
    region.page i = region.base + i * pageGranularity ∧ region.page i + pageGranularity ≤ region.base + region.length := by
  have room := Nat.mul_le_of_le_div pageGranularity (i + 1) region.length below
  rw [Nat.add_mul, Nat.one_mul] at room
  have positive : 0 < pageGranularity := by decide
  have same : region.page i = region.base + i * pageGranularity := add64_eq (by omega)
  exact ⟨same, by omega⟩

theorem well_placed_spans {regions regions' : List Region} (same : regions'.map Region.span = regions.map Region.span)
    (placed : WellPlaced regions) : WellPlaced regions' := by
  have fits : ∀ span ∈ regions.map Region.span, span.1 + span.2 < 2 ^ 64 := List.forall_mem_map.mpr placed.fits
  have apart : (regions.map Region.span).Pairwise fun a b => a.1 + a.2 ≤ b.1 ∨ b.1 + b.2 ≤ a.1 := List.pairwise_map.mpr placed.apart
  rw [← same] at fits apart
  exact ⟨List.forall_mem_map.mp fits, (List.pairwise_map (f := Region.span)).mp apart⟩

theorem page_of_spans {regions regions' : List Region} (same : regions'.map Region.span = regions.map Region.span) (page : Nat) :
    PageOf regions' page ↔ PageOf regions page := by
  have bySpan : ∀ list : List Region, PageOf list page ↔
      ∃ span ∈ list.map Region.span, ∃ i < span.2 / pageGranularity, page = add64 span.1 (i * pageGranularity) := by
    intro list
    simp only [List.mem_map, exists_exists_and_eq_and]
    rfl
  rw [bySpan, bySpan, same]

theorem free_is_page {regions : List Region} {page : Nat} (free : Free regions page) : PageOf regions page := by
  obtain ⟨region, member, i, below, isPage, _⟩ := free
  exact ⟨region, member, i, below, isPage⟩

theorem free_forget {regions regions' : List Region} (same : regions'.map Region.forget = regions.map Region.forget) (page : Nat) :
    Free regions' page ↔ Free regions page := by
  have byForget : ∀ list : List Region, Free list page ↔ Free (list.map Region.forget) page := by
    intro list
    simp only [Free, List.mem_map, exists_exists_and_eq_and]
    rfl
  rw [byForget regions', byForget regions, same]

theorem spans_forget {regions regions' : List Region} (same : regions'.map Region.forget = regions.map Region.forget) :
    regions'.map Region.span = regions.map Region.span := by
  have spans := congrArg (List.map Region.span) same
  rw [List.map_map, List.map_map] at spans
  exact spans

variable {regions : List Region} (placed : WellPlaced regions)

include placed

theorem apart_of_ne {region other : Region} (member : region ∈ regions) (memberOther : other ∈ regions) (different : region ≠ other) :
    region.Apart other := by
  have symmetric : Std.Symm Region.Apart := ⟨fun _ _ => Or.symm⟩
  exact placed.apart.forall member memberOther different

-- A page lies in one region only.
theorem page_unique {region other : Region} (member : region ∈ regions) (memberOther : other ∈ regions) {i j : Nat} (below : i < region.pages)
    (belowOther : j < other.pages) (near : region.page i < other.page j + pageGranularity) (near' : other.page j < region.page i + pageGranularity) :
    region = other := by
  by_contra different
  have apart := apart_of_ne placed member memberOther different
  obtain ⟨place, room⟩ := page_inside (placed.fits region member) below
  obtain ⟨placeOther, roomOther⟩ := page_inside (placed.fits other memberOther) belowOther
  simp only [Region.Apart] at apart
  omega

theorem pages_apart {p q : Nat} (isPage : PageOf regions p) (isOther : PageOf regions q) (different : p ≠ q) :
    p + pageGranularity ≤ q ∨ q + pageGranularity ≤ p := by
  obtain ⟨region, member, i, below, rfl⟩ := isPage
  obtain ⟨other, memberOther, j, belowOther, rfl⟩ := isOther
  by_contra near
  rw [not_or, Nat.not_le, Nat.not_le] at near
  obtain rfl := page_unique placed member memberOther below belowOther near.2 near.1
  have place := (page_inside (placed.fits region member) below).1
  have placeOther := (page_inside (placed.fits region member) belowOther).1
  have indices : i ≠ j := fun same => different (by rw [same])
  simp only [pageGranularity] at *
  omega

end Places

section Marks

-- One page is set or cleared, wherever it is.
def mark (page : Nat) (value : Bool) (region : Region) : Region :=
  if page < region.base ∨ page ≥ region.base + region.length then region
  else bitmapSet region ((page - region.base) / pageGranularity) value

theorem mark_span (page : Nat) (value : Bool) (region : Region) : (mark page value region).span = region.span := by
  unfold mark
  split <;> rfl

theorem marks_spans (page : Nat) (value : Bool) (regions : List Region) : (regions.map (mark page value)).map Region.span = regions.map Region.span := by
  rw [List.map_map]
  exact List.map_congr_left fun region _ => mark_span page value region

variable {regions : List Region} (placed : WellPlaced regions)

include placed

theorem mark_page {region : Region} (member : region ∈ regions) {i : Nat} (below : i < region.pages) (value : Bool) :
    mark (region.page i) value region = bitmapSet region i value := by
  obtain ⟨place, room⟩ := page_inside (placed.fits region member) below
  have positive : 0 < pageGranularity := by decide
  rw [mark, if_neg (by omega), place, Nat.add_sub_cancel_left, Nat.mul_div_cancel _ positive]

theorem mark_elsewhere {region other : Region} (member : region ∈ regions) (apart : region.Apart other) {i : Nat}
    (below : i < region.pages) (value : Bool) : mark (region.page i) value other = other := by
  obtain ⟨place, room⟩ := page_inside (placed.fits region member) below
  have positive : 0 < pageGranularity := by decide
  unfold Region.Apart at apart
  rw [mark, if_pos (by omega)]

theorem free_mark {page : Nat} (isPage : PageOf regions page) (value : Bool) (q : Nat) :
    Free (regions.map (mark page value)) q ↔ if q = page then value = false else Free regions q := by
  obtain ⟨region, member, i, below, rfl⟩ := isPage
  have positive : 0 < pageGranularity := by decide
  have here : ∀ j < region.pages, region.page j = region.page i → j = i := by
    intro j belowJ same
    by_contra different
    have place := (page_inside (placed.fits region member) below).1
    have placeJ := (page_inside (placed.fits region member) belowJ).1
    exact different (Nat.eq_of_mul_eq_mul_right positive (by omega))
  have marked := mark_page placed member below value
  have others : ∀ other ∈ regions, other ≠ region → mark (region.page i) value other = other := fun other memberOther different =>
    mark_elsewhere placed member (apart_of_ne placed member memberOther different.symm) below value
  by_cases same : q = region.page i
  · rw [if_pos same]
    constructor
    · rintro ⟨_, memberMark, j, belowJ, isPage, clear⟩
      obtain ⟨other, memberOther, rfl⟩ := List.mem_map.mp memberMark
      by_cases isRegion : other = region
      · subst isRegion
        rw [marked] at belowJ isPage clear
        obtain rfl := here j belowJ (isPage.symm.trans same)
        rwa [Region.isSet, bitmapSet, Bitmap.get_set, if_pos rfl] at clear
      · rw [others other memberOther isRegion] at belowJ isPage clear
        have at_ := same.symm.trans isPage
        exact absurd (page_unique placed memberOther member belowJ below (by omega) (by omega)) isRegion
    · intro clears
      refine ⟨bitmapSet region i value, List.mem_map.mpr ⟨region, member, marked⟩, i, below, same, ?_⟩
      rw [Region.isSet, bitmapSet, Bitmap.get_set, if_pos rfl, clears]
  · rw [if_neg same]
    constructor
    · rintro ⟨_, memberMark, j, belowJ, isPage, clear⟩
      obtain ⟨other, memberOther, rfl⟩ := List.mem_map.mp memberMark
      by_cases isRegion : other = region
      · subst isRegion
        rw [marked] at belowJ isPage clear
        have different : j ≠ i := fun equal => same (by rw [isPage, equal]; rfl)
        rw [Region.isSet, bitmapSet, Bitmap.get_set, if_neg different] at clear
        exact ⟨other, memberOther, j, belowJ, isPage, clear⟩
      · rw [others other memberOther isRegion] at belowJ isPage clear
        exact ⟨other, memberOther, j, belowJ, isPage, clear⟩
    · rintro ⟨other, memberOther, j, belowJ, isPage, clear⟩
      by_cases isRegion : other = region
      · subst isRegion
        have different : j ≠ i := fun equal => same (by rw [isPage, equal])
        refine ⟨bitmapSet other i value, List.mem_map.mpr ⟨other, member, marked⟩, j, belowJ, isPage, ?_⟩
        rwa [Region.isSet, bitmapSet, Bitmap.get_set, if_neg different]
      · exact ⟨other, List.mem_map.mpr ⟨other, memberOther, others other memberOther isRegion⟩, j, belowJ, isPage, clear⟩

-- earlymem_alloc_page takes the page by the same step.
theorem set_is_mark {before after : List Region} {region : Region} (split : regions = before ++ region :: after) {i : Nat} (below : i < region.pages)
    (value : Bool) : before ++ bitmapSet region i value :: after = regions.map (mark (region.page i) value) := by
  have member : region ∈ regions := by simp [split]
  have apart := placed.apart
  rw [split, List.pairwise_append, List.pairwise_cons] at apart
  obtain ⟨_, ⟨apartAfter, _⟩, apartBefore⟩ := apart
  have early : before.map (mark (region.page i) value) = before := by
    refine (List.map_congr_left fun other inBefore => ?_).trans (List.map_id before)
    exact mark_elsewhere placed member (apartBefore other inBefore region List.mem_cons_self).symm below value
  have late : after.map (mark (region.page i) value) = after := by
    refine (List.map_congr_left fun other inAfter => ?_).trans (List.map_id after)
    exact mark_elsewhere placed member (apartAfter other inAfter) below value
  rw [split, List.map_append, List.map_cons, early, late, mark_page placed member below value]

end Marks

section Calls

variable {s s' : State}

-- What a page that was handed out leaves behind.
structure HandsOut (page : Nat) (s s' : State) : Prop where
  isFree : Free s.regions page
  same : s'.regions.map Region.forget = (s.regions.map (mark page true)).map Region.forget
  allocPage : s'.allocPage = s.allocPage
  allocOffset : s'.allocOffset = s.allocOffset

theorem pass_hands_out (placed : WellPlaced s.regions) (restart : Bool) {regions : List Region}
    (sameRegions : regions.map Region.forget = s.regions.map Region.forget) {page : Nat} (found : (pass restart regions).1 = some page) :
    HandsOut page s { s with regions := (pass restart regions).2 } := by
  obtain ⟨before, region, after, i, split, below, rfl, clear, marked⟩ := pass_some restart regions page found
  have member : region ∈ regions := by simp [split]
  have placed' := well_placed_spans (spans_forget sameRegions) placed
  refine ⟨(free_forget sameRegions _).mp ⟨region, member, i, below, rfl, clear⟩, ?_, rfl, rfl⟩
  rw [set_is_mark placed' split below] at marked
  have throughForget : ∀ list : List Region, (list.map (mark (region.page i) true)).map Region.forget =
      (list.map Region.forget).map (mark (region.page i) true) := by
    intro list
    rw [List.map_map, List.map_map]
    refine List.map_congr_left fun other _ => ?_
    simp only [Function.comp_apply, mark]
    by_cases outside : region.page i < other.base ∨ region.page i ≥ other.base + other.length
    · rw [if_pos outside]
      exact (if_pos outside).symm
    · rw [if_neg outside]
      exact (if_neg outside).symm
  rw [marked, throughForget, throughForget, sameRegions]

theorem earlymem_alloc_page_ok (placed : WellPlaced s.regions) {page : Nat} (allocated : earlymemAllocPage s = .ok (page, s')) :
    HandsOut page s s' := by
  unfold earlymemAllocPage at allocated
  rcases first : pass false s.regions with ⟨_ | found, regions⟩
  · rw [first] at allocated
    dsimp only at allocated
    have sameRegions := (pass_none false s.regions (by rw [first])).1
    rw [first] at sameRegions
    rcases second : pass true regions with ⟨_ | found, regions'⟩
    · rw [second] at allocated
      cases allocated
    · rw [second] at allocated
      cases allocated
      have found : (pass true regions).1 = some page := by rw [second]
      have handsOut := pass_hands_out placed true sameRegions found
      rwa [second] at handsOut
  · rw [first] at allocated
    cases allocated
    have found : (pass false s.regions).1 = some page := by rw [first]
    have handsOut := pass_hands_out placed false rfl found
    rwa [first] at handsOut

-- The second pass looks at every page.
theorem earlymem_alloc_page_error {fault : Fault} (failed : earlymemAllocPage s = .error fault) :
    fault = .panic "EARLY_MM" "out of memory" ∧ ∀ page, ¬ Free s.regions page := by
  unfold earlymemAllocPage at failed
  rcases first : pass false s.regions with ⟨_ | found, regions⟩
  · rw [first] at failed
    dsimp only at failed
    have sameRegions := (pass_none false s.regions (by rw [first])).1
    rw [first] at sameRegions
    rcases second : pass true regions with ⟨_ | found, regions'⟩
    · rw [second] at failed
      refine ⟨(Except.error.inj failed).symm, fun page free => ?_⟩
      obtain ⟨region, member, i, below, _, clear⟩ := (free_forget sameRegions page).mpr free
      have used := (pass_none true regions (by rw [second])).2 rfl region member i below
      rw [used] at clear
      cases clear
    · rw [second] at failed
      cases failed
  · rw [first] at failed
    cases failed

theorem HandsOut.spans {page : Nat} (handsOut : HandsOut page s s') : s'.regions.map Region.span = s.regions.map Region.span :=
  (spans_forget handsOut.same).trans (marks_spans page true s.regions)

theorem HandsOut.free_iff {page : Nat} (handsOut : HandsOut page s s') (placed : WellPlaced s.regions) (q : Nat) :
    Free s'.regions q ↔ q ≠ page ∧ Free s.regions q := by
  rw [free_forget handsOut.same, free_mark placed (free_is_page handsOut.isFree)]
  by_cases same : q = page <;> simp [same]

theorem earlymem_free_page_marks (placed : WellPlaced s.regions) (page : Nat) :
    earlymemFreePage page s = { s with regions := s.regions.map (mark page false) } := by
  have each : ∀ region ∈ s.regions, (if page < region.base ∨ page ≥ add64 region.base region.length then region
      else bitmapSet region ((page - region.base) / pageGranularity) false) = mark page false region := by
    intro region member
    rw [add64_eq (placed.fits region member), mark]
  rw [earlymemFreePage, List.map_congr_left each]

-- A block is cut from the page at hand, or from a new one.
theorem earlymem_alloc_ok {size block : Nat} (allocated : earlymemAlloc size s = .ok (block, s')) :
    (needsPage size s = false ∧ block = add64 s.allocPage s.allocOffset ∧ s' = { s with allocOffset := s.allocOffset + size }) ∨
      (needsPage size s = true ∧ ∃ page between, earlymemAllocPage s = .ok (page, between) ∧ block = add64 page 0 ∧
        s' = { between with allocPage := page, allocOffset := size }) := by
  unfold earlymemAlloc at allocated
  obtain ⟨_, _, rest⟩ := (bind_eq_ok _ _ _).mp allocated
  cases needed : needsPage size s with
  | false =>
      rw [needed, if_neg (by decide), bind_ok] at rest
      cases rest
      exact .inl ⟨rfl, rfl, rfl⟩
  | true =>
      rw [needed, if_pos rfl] at rest
      obtain ⟨⟨page, between⟩, taken, rest⟩ := (bind_eq_ok _ _ _).mp rest
      cases rest
      exact .inr ⟨rfl, page, between, taken, rfl, by simp⟩

theorem earlymem_alloc_error {size : Nat} {fault : Fault} (positive : 0 < size) (small : size ≤ pageGranularity)
    (failed : earlymemAlloc size s = .error fault) : earlymemAllocPage s = .error fault := by
  unfold earlymemAlloc at failed
  rw [decide_eq_true ⟨positive, small⟩] at failed
  cases needed : needsPage size s with
  | false =>
      rw [needed] at failed
      cases failed
  | true =>
      rw [needed] at failed
      cases drawn : earlymemAllocPage s with
      | error other =>
          rw [drawn] at failed
          exact failed
      | ok result =>
          rw [drawn] at failed
          cases failed

end Calls

end Elysium.Earlymem
