import Elysium.Earlymem

set_option autoImplicit false

namespace Elysium.Earlymem

def BlocksApart (a b : Nat × Nat) : Prop := a.1 + a.2 ≤ b.1 ∨ b.1 + b.2 ≤ a.1

-- Every block ends before the place where the next one is cut, or lies past the page.
structure Inv (c : Config) : Prop where
  placed : WellPlaced c.state.regions
  pages : ∀ page, page ∈ c.returned ∨ page ∈ c.taken → PageOf c.state.regions page
  used : ∀ page, page ∈ c.held ∨ page ∈ c.taken → ¬ Free c.state.regions page
  kept : ∀ page ∈ c.held, page ∈ c.returned ∧ page ∉ c.taken
  inside : ∀ block ∈ c.blocks, ∃ page ∈ c.taken, page ≤ block.1 ∧ block.1 + block.2 ≤ page + pageGranularity
  apart : c.blocks.Pairwise BlocksApart
  offset : c.state.allocOffset ≤ pageGranularity
  current : 0 < c.state.allocOffset → c.state.allocPage ∈ c.taken
  behind : ∀ block ∈ c.blocks, block.1 + block.2 ≤ c.state.allocPage + c.state.allocOffset ∨ c.state.allocPage + pageGranularity ≤ block.1

theorem boot_inv : Inv ⟨bootState, [], [], [], []⟩ where
  placed := ⟨fun _ member => absurd member List.not_mem_nil, List.Pairwise.nil⟩
  pages _ member := by simp at member
  used _ member := by simp at member
  kept _ member := absurd member List.not_mem_nil
  inside _ member := absurd member List.not_mem_nil
  apart := List.Pairwise.nil
  offset := Nat.zero_le _
  current positive := absurd positive (Nat.lt_irrefl 0)
  behind _ member := absurd member List.not_mem_nil

section Add

variable {regions : List Region} {stale : Nat → BitVec 8} {address length : Nat}

theorem add_well_placed (placed : WellPlaced regions) (fits : address + length < 2 ^ 64)
    (disjoint : ∀ other ∈ regions, address + length ≤ other.base ∨ other.base + other.length ≤ address) :
    WellPlaced (newRegion stale address length :: regions) where
  fits := List.forall_mem_cons.mpr ⟨fits, placed.fits⟩
  apart := List.pairwise_cons.mpr ⟨disjoint, placed.apart⟩

-- A page of an earlier region is no page of the new one.
theorem add_free_iff (placed : WellPlaced (newRegion stale address length :: regions)) {page : Nat} (isPage : PageOf regions page) :
    Free (newRegion stale address length :: regions) page ↔ Free regions page := by
  obtain ⟨region, member, i, below, rfl⟩ := isPage
  have positive : 0 < pageGranularity := by decide
  constructor
  · rintro ⟨other, memberOther, j, belowOther, isPage, clear⟩
    rcases List.mem_cons.mp memberOther with rfl | inOld
    · obtain rfl := page_unique placed (List.mem_cons_of_mem _ member) List.mem_cons_self below belowOther (by omega) (by omega)
      have apart := (List.pairwise_cons.mp placed.apart).1 _ member
      obtain ⟨place, room⟩ := page_inside (placed.fits _ List.mem_cons_self) below
      simp only [Region.Apart] at apart
      omega
    · exact ⟨other, inOld, j, belowOther, isPage, clear⟩
  · rintro ⟨other, memberOther, rest⟩
    exact ⟨other, List.mem_cons_of_mem _ memberOther, rest⟩

theorem page_of_cons {region : Region} {page : Nat} (isPage : PageOf regions page) : PageOf (region :: regions) page := by
  obtain ⟨other, member, rest⟩ := isPage
  exact ⟨other, List.mem_cons_of_mem _ member, rest⟩

end Add

section Steps

variable {c : Config} (inv : Inv c)

include inv

theorem inv_region_add {stale : Nat → BitVec 8} {address length : Nat} (fits : address + length < 2 ^ 64)
    (disjoint : ∀ other ∈ c.state.regions, address + length ≤ other.base ∨ other.base + other.length ≤ address) :
    Inv { c with state := earlymemRegionAdd stale address length c.state } := by
  have placed : WellPlaced (newRegion stale address length :: c.state.regions) := add_well_placed inv.placed fits disjoint
  refine ⟨placed, fun page known => page_of_cons (inv.pages page known), fun page known => ?_, inv.kept, inv.inside, inv.apart, inv.offset,
    inv.current, inv.behind⟩
  have isPage := inv.pages page (known.imp_left fun isHeld => (inv.kept page isHeld).1)
  exact fun free => inv.used page known ((add_free_iff placed isPage).mp free)

theorem inv_alloc_page {page : Nat} {s : State} (handsOut : HandsOut page c.state s) :
    Inv { c with state := s, returned := page :: c.returned, held := page :: c.held } := by
  have placed := well_placed_spans handsOut.spans inv.placed
  refine ⟨placed, fun other known => (page_of_spans handsOut.spans other).mpr ?_, fun other known free => ?_, fun other isHeld => ?_,
    inv.inside, inv.apart, ?_, ?_, ?_⟩
  · rcases known with isReturned | isTaken
    · rcases List.mem_cons.mp isReturned with rfl | before
      · exact free_is_page handsOut.isFree
      · exact inv.pages other (.inl before)
    · exact inv.pages other (.inr isTaken)
  · obtain ⟨different, wasFree⟩ := (handsOut.free_iff inv.placed other).mp free
    rcases known with isHeld | isTaken
    · exact inv.used other (.inl ((List.mem_cons.mp isHeld).resolve_left different)) wasFree
    · exact inv.used other (.inr isTaken) wasFree
  · rcases List.mem_cons.mp isHeld with rfl | before
    · exact ⟨List.mem_cons_self, fun isTaken => inv.used other (.inr isTaken) handsOut.isFree⟩
    · exact ⟨List.mem_cons_of_mem _ (inv.kept other before).1, (inv.kept other before).2⟩
  · exact handsOut.allocOffset ▸ inv.offset
  · simpa only [handsOut.allocOffset, handsOut.allocPage] using inv.current
  · simpa only [handsOut.allocOffset, handsOut.allocPage] using inv.behind

theorem inv_free_page {page : Nat} (known : page ∈ c.returned) (other : page ∉ c.taken) :
    Inv { c with state := earlymemFreePage page c.state, held := c.held.filter (· ≠ page) } := by
  rw [earlymem_free_page_marks inv.placed]
  have spans := marks_spans page false c.state.regions
  refine ⟨well_placed_spans spans inv.placed, fun q mentioned => (page_of_spans spans q).mpr (inv.pages q mentioned), fun q mentioned free => ?_,
    fun q isHeld => inv.kept q (List.mem_filter.mp isHeld).1, inv.inside, inv.apart, inv.offset, inv.current, inv.behind⟩
  have was := (free_mark inv.placed (inv.pages page (.inl known)) false q).mp free
  rcases mentioned with isHeld | isTaken
  · obtain ⟨before, different⟩ := List.mem_filter.mp isHeld
    rw [if_neg (by simpa using different)] at was
    exact inv.used q (.inl before) was
  · have different : q ≠ page := fun same => other (same ▸ isTaken)
    rw [if_neg different] at was
    exact inv.used q (.inr isTaken) was

theorem taken_apart {page : Nat} (free : Free c.state.regions page) {block : Nat × Nat} (member : block ∈ c.blocks) :
    block.1 + block.2 ≤ page ∨ page + pageGranularity ≤ block.1 := by
  obtain ⟨taken, isTaken, start, stop⟩ := inv.inside block member
  have different : taken ≠ page := fun same => inv.used taken (.inr isTaken) (same ▸ free)
  rcases pages_apart inv.placed (inv.pages taken (.inr isTaken)) (free_is_page free) different with before | after
  · exact .inl (by omega)
  · exact .inr (by omega)

theorem page_fits {page : Nat} (isPage : PageOf c.state.regions page) : page + pageGranularity < 2 ^ 64 := by
  obtain ⟨region, member, i, below, rfl⟩ := isPage
  have fits := inv.placed.fits region member
  exact Nat.lt_of_le_of_lt (page_inside fits below).2 fits

theorem inv_alloc {size block : Nat} {s : State} (positive : 0 < size) (small : size ≤ pageGranularity)
    (allocated : earlymemAlloc size c.state = .ok (block, s)) :
    Inv { c with
      state := s
      taken := if needsPage size c.state then s.allocPage :: c.taken else c.taken
      blocks := (block, size) :: c.blocks } := by
  rcases earlymem_alloc_ok allocated with ⟨needed, rfl, rfl⟩ | ⟨needed, page, between, drawn, rfl, rfl⟩
  · -- The block follows the last one in its page.
    have room : 0 < c.state.allocOffset ∧ c.state.allocOffset + size ≤ pageGranularity := by
      have offset := inv.offset
      rw [needsPage, sub64_eq offset (by decide)] at needed
      simp only [decide_eq_false_iff_not, not_or] at needed
      omega
    have isTaken := inv.current room.1
    have fits := page_fits inv (inv.pages _ (.inr isTaken))
    rw [needed, if_neg (by decide), add64_eq (by omega)]
    refine ⟨inv.placed, inv.pages, inv.used, inv.kept, ?_, ?_, room.2, fun _ => isTaken, ?_⟩
    · exact List.forall_mem_cons.mpr ⟨⟨_, isTaken, Nat.le_add_right _ _, by dsimp only; omega⟩, inv.inside⟩
    · refine List.pairwise_cons.mpr ⟨fun other member => ?_, inv.apart⟩
      rcases inv.behind other member with before | past
      · exact .inr before
      · exact .inl (by dsimp only; omega)
    · refine List.forall_mem_cons.mpr ⟨.inl (by dsimp only; omega), fun other member => ?_⟩
      exact (inv.behind other member).imp_left fun before => by dsimp only; omega
  · have handsOut := earlymem_alloc_page_ok inv.placed drawn
    have withPage := inv_alloc_page inv handsOut
    have isPage := free_is_page handsOut.isFree
    have fits := page_fits inv isPage
    rw [needed, if_pos rfl, add64_eq (by omega), Nat.add_zero]
    refine ⟨withPage.placed, fun q known => ?_, fun q known free => ?_, fun q isHeld => ?_, ?_, ?_, small, fun _ => List.mem_cons_self, ?_⟩
    · refine (page_of_spans handsOut.spans q).mpr ?_
      rcases known with isReturned | isTaken
      · exact inv.pages q (.inl isReturned)
      · rcases List.mem_cons.mp isTaken with rfl | before
        · exact isPage
        · exact inv.pages q (.inr before)
    · obtain ⟨different, wasFree⟩ := (handsOut.free_iff inv.placed q).mp free
      rcases known with isHeld | isTaken
      · exact inv.used q (.inl isHeld) wasFree
      · exact inv.used q (.inr ((List.mem_cons.mp isTaken).resolve_left different)) wasFree
    · obtain ⟨isReturned, notTaken⟩ := inv.kept q isHeld
      refine ⟨isReturned, fun isTaken => ?_⟩
      rcases List.mem_cons.mp isTaken with rfl | before
      · exact inv.used q (.inl isHeld) handsOut.isFree
      · exact notTaken before
    · refine List.forall_mem_cons.mpr ⟨⟨page, List.mem_cons_self, Nat.le_refl _, by dsimp only; omega⟩, fun other member => ?_⟩
      obtain ⟨taken, isTaken, within⟩ := inv.inside other member
      exact ⟨taken, List.mem_cons_of_mem _ isTaken, within⟩
    · refine List.pairwise_cons.mpr ⟨fun other member => ?_, inv.apart⟩
      rcases taken_apart inv handsOut.isFree member with before | past
      · exact .inr before
      · exact .inl (by dsimp only; omega)
    · refine List.forall_mem_cons.mpr ⟨.inl (Nat.le_refl _), fun other member => ?_⟩
      exact (taken_apart inv handsOut.isFree member).imp_left fun before => by dsimp only; omega

end Steps

theorem reachable_inv {admits : (Nat → BitVec 8) → Nat → Nat → Prop} {c : Config} (reachable : Reachable admits c) : Inv c := by
  induction reachable with
  | boot => exact boot_inv
  | regionAdd c stale address length _ fits disjoint _ ih => exact inv_region_add ih fits disjoint
  | allocPage c page s _ allocated ih => exact inv_alloc_page ih (earlymem_alloc_page_ok ih.placed allocated)
  | freePage c page _ known other ih => exact inv_free_page ih known other
  | alloc c size block s _ positive small allocated ih => exact inv_alloc ih positive small allocated

-- Whatever the regions hold in their bitmaps and wherever their hints are.
theorem early_allocations_distinct :
    (∀ s fault, earlymemAllocPage s = .error fault → fault = .panic "EARLY_MM" "out of memory" ∧ ∀ page, ¬ Free s.regions page) ∧
      ∀ c, Reachable (fun _ _ _ => True) c →
        (∀ page s, earlymemAllocPage c.state = .ok (page, s) →
          Free c.state.regions page ∧ PageOf s.regions page ∧ (∀ other, Free s.regions other ↔ other ≠ page ∧ Free c.state.regions other) ∧
            page ∉ c.held ∧ page ∉ c.taken) ∧
          (∀ size fault, 0 < size → size ≤ pageGranularity → earlymemAlloc size c.state = .error fault → ∀ page, ¬ Free c.state.regions page) ∧
          c.blocks.Pairwise BlocksApart ∧
          ∀ block ∈ c.blocks, (∃ page ∈ c.taken, page ≤ block.1 ∧ block.1 + block.2 ≤ page + pageGranularity) ∧
            ∀ page ∈ c.held, BlocksApart block (page, pageGranularity) := by
  refine ⟨fun s fault failed => earlymem_alloc_page_error failed, fun c reachable => ?_⟩
  have inv := reachable_inv reachable
  refine ⟨fun page s allocated => ?_, fun size fault positive small failed => ?_, inv.apart, fun block member => ⟨inv.inside block member, ?_⟩⟩
  · have handsOut := earlymem_alloc_page_ok inv.placed allocated
    refine ⟨handsOut.isFree, (page_of_spans handsOut.spans page).mpr (free_is_page handsOut.isFree), handsOut.free_iff inv.placed, ?_, ?_⟩
    · exact fun isHeld => inv.used page (.inl isHeld) handsOut.isFree
    · exact fun isTaken => inv.used page (.inr isTaken) handsOut.isFree
  · exact (earlymem_alloc_page_error (earlymem_alloc_error positive small failed)).2
  · intro page isHeld
    obtain ⟨taken, isTaken, start, stop⟩ := inv.inside block member
    obtain ⟨isReturned, notTaken⟩ := inv.kept page isHeld
    have different : taken ≠ page := fun same => notTaken (same ▸ isTaken)
    rcases pages_apart inv.placed (inv.pages taken (.inr isTaken)) (inv.pages page (.inl isReturned)) different with before | after
    · exact .inl (by dsimp only; omega)
    · exact .inr (by dsimp only; omega)

def stateAfter : Except Fault (Nat × State) → State
  | .ok (_, s) => s
  | .error _ => bootState

theorem state_after {result : Except Fault (Nat × State)} {value : Nat} (returns : result.toOption.map Prod.fst = some value) :
    result = .ok (value, stateAfter result) := by
  rcases result with _ | ⟨found, s⟩
  · cases returns
  · cases returns
    rfl

-- Two blocks from one page, with a page of another caller before it.
theorem early_allocations_distinct_blocks : ∃ c, Reachable (fun _ _ _ => True) c ∧ c.held = [0x2000] ∧ c.taken = [0x3000] ∧
    c.blocks = [(0x3064, 50), (0x3000, 100)] ∧ ∀ page s, earlymemAllocPage c.state = .ok (page, s) → page ∉ c.held ∧ page ∉ c.taken := by
  let added := earlymemRegionAdd (fun _ => 0#8) 0x2000 0x3000 bootState
  let paged := stateAfter (earlymemAllocPage added)
  let cut := stateAfter (earlymemAlloc 100 paged)
  have one : earlymemAllocPage added = .ok (0x2000, paged) := state_after (by decide +kernel)
  have two : earlymemAlloc 100 paged = .ok (0x3000, cut) := state_after (by decide +kernel)
  have three : earlymemAlloc 50 cut = .ok (0x3064, stateAfter (earlymemAlloc 50 cut)) := state_after (by decide +kernel)
  have addedRun : Reachable (fun _ _ _ => True) ⟨added, [], [], [], []⟩ :=
    .regionAdd _ (fun _ => 0#8) 0x2000 0x3000 .boot (by decide) (by simp [bootState]) trivial
  have cutRun := (addedRun.allocPage _ _ _ one).alloc _ _ _ _ (by decide) (by decide) two
  have lastRun := cutRun.alloc _ _ _ _ (by decide) (by decide) three
  refine ⟨_, lastRun, rfl, by decide +kernel, rfl, fun page s allocated => ?_⟩
  exact ((early_allocations_distinct.2 _ lastRun).1 page s allocated).2.2.2

end Elysium.Earlymem
