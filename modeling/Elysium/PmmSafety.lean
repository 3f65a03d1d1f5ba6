import Elysium.PmmRuns

set_option autoImplicit false

namespace Elysium.Pmm

open Dyadic

def zoneFreeRuns (s : State) (z : ZoneId) : List Run :=
  (List.range (pmmMaxOrder + 1)).flatMap fun k => ((s.zone z).lists k).map fun h => ⟨h, k, z⟩

-- Every run the allocator knows about: listed in either zone, or live.
def Config.runs (c : Config) : List Run := zoneFreeRuns c.pmm .low ++ zoneFreeRuns c.pmm .normal ++ c.live

-- The pages of a run belong to one max_order block.
def InMaxBlock (s : State) (b : Run) : Prop :=
  b.order ≤ (s.pageDb b.head).maxOrder ∧ ∀ p, b.Covers p →
    (s.pageDb p).maxOrder = (s.pageDb b.head).maxOrder ∧ SameCell (s.pageDb b.head).maxOrder b.head p

structure Safe (c : Config) : Prop where
  listed : ∀ z k h, h ∈ (c.pmm.zone z).lists k →
    IsHead k h ∧ InMaxBlock c.pmm ⟨h, k, z⟩ ∧
      (∀ p, Run.Covers ⟨h, k, z⟩ p → (c.pmm.zone z).start ≤ blockPaddr p ∧ blockPaddr p < (c.pmm.zone z).limit) ∧
      (c.pmm.pageDb h).order = k ∧ (c.pmm.pageDb h).free = true
  disjoint : c.runs.Pairwise fun a b => ∀ p, ¬ (a.Covers p ∧ b.Covers p)
  cover : ∀ p, (∃ b ∈ c.runs, b.Covers p) ↔ ∃ r ∈ c.regions, r.Adds p
  live : ∀ b ∈ c.live, (c.pmm.pageDb b.head).free = false ∧ (c.pmm.pageDb b.head).order = b.order
  counted : ∀ z, (c.pmm.zone z).freePageCount = freeWeight (c.pmm.zone z).lists

theorem cell_covers_iff {layout : Layout} {k h : Nat} {z : ZoneId} (cell : layout.Cell k h) (p : Nat) :
    Run.Covers ⟨h, k, z⟩ p ↔ SameCell k h p := (same_cell_head cell.2.2 p).symm

section Safety

variable {c : Config} {layout : Layout} (inv : Inv c layout)

include inv

theorem listed_small {z : ZoneId} {k h : Nat} (listed : h ∈ (c.pmm.zone z).lists k) : k ≤ pmmMaxOrder :=
  cell_order_small inv.tracks ((inv.tracks.listed z k h).mp listed).1

theorem zone_free_runs_mem (z : ZoneId) (b : Run) :
    b ∈ zoneFreeRuns c.pmm z ↔ layout.Cell b.order b.head ∧ layout.free b.head ∧ holder b.head = z ∧ b.zone = z := by
  obtain ⟨head, order, zone⟩ := b
  simp only [zoneFreeRuns, List.mem_flatMap, List.mem_range, List.mem_map, Run.mk.injEq]
  constructor
  · rintro ⟨k, _, h, listed, rfl, rfl, rfl⟩
    obtain ⟨cell, free, side⟩ := (inv.tracks.listed z k h).mp listed
    exact ⟨cell, free, side, rfl⟩
  · rintro ⟨cell, free, side, rfl⟩
    have listed := (inv.tracks.listed zone order head).mpr ⟨cell, free, side⟩
    exact ⟨order, Nat.lt_succ_of_le (listed_small inv listed), head, listed, rfl, rfl, rfl⟩

theorem zone_free_runs_nodup (z : ZoneId) : (zoneFreeRuns c.pmm z).Nodup := by
  refine List.nodup_flatMap.mpr ⟨?_, ?_⟩
  · exact fun k _ => List.Nodup.map (fun a b same => (Run.mk.injEq .. ▸ same).1) (inv.tracks.nodup z k)
  · refine List.nodup_range.imp_of_mem ?_
    intro j k _ _ different
    simp only [Function.onFun]
    intro b inJ inK
    obtain ⟨_, _, rfl⟩ := List.mem_map.mp inJ
    obtain ⟨_, _, same⟩ := List.mem_map.mp inK
    exact different (Run.mk.injEq .. ▸ same).2.1.symm

-- Listed and live runs together are exactly the cells of the layout.
theorem runs_mem (b : Run) : b ∈ c.runs ↔ layout.Cell b.order b.head ∧ holder b.head = b.zone := by
  unfold Config.runs
  rw [List.mem_append, List.mem_append, zone_free_runs_mem inv, zone_free_runs_mem inv, inv.live b]
  constructor
  · rintro ((⟨cell, _, side, zone⟩ | ⟨cell, _, side, zone⟩) | ⟨⟨cell, _⟩, side⟩)
    · exact ⟨cell, side.trans zone.symm⟩
    · exact ⟨cell, side.trans zone.symm⟩
    · exact ⟨cell, side⟩
  · rintro ⟨cell, side⟩
    by_cases free : layout.free b.head
    · cases zone : b.zone with
      | low => exact .inl (.inl ⟨cell, free, side.trans zone, rfl⟩)
      | normal => exact .inl (.inr ⟨cell, free, side.trans zone, rfl⟩)
    · exact .inr ⟨⟨cell, free⟩, side⟩

theorem runs_nodup : c.runs.Nodup := by
  refine List.nodup_append.mpr ⟨List.nodup_append.mpr
    ⟨zone_free_runs_nodup inv .low, zone_free_runs_nodup inv .normal, ?_⟩, inv.liveNodup, ?_⟩
  · rintro a low b normal rfl
    have lowZone := ((zone_free_runs_mem inv .low a).mp low).2.2.2
    have normalZone := ((zone_free_runs_mem inv .normal a).mp normal).2.2.2
    rw [lowZone] at normalZone
    exact absurd normalZone (by decide)
  · rintro a listed b live rfl
    refine ((inv.live a).mp live).1.2 ?_
    rcases List.mem_append.mp listed with low | normal
    · exact ((zone_free_runs_mem inv .low a).mp low).2.1
    · exact ((zone_free_runs_mem inv .normal a).mp normal).2.1

theorem cell_in_max_block {k h : Nat} (z : ZoneId) (cell : layout.Cell k h) : InMaxBlock c.pmm ⟨h, k, z⟩ := by
  have top := (inv.tracks.tops h cell.1).1
  have bound : k ≤ layout.top h := cell.2.1 ▸ layout.ord_le h cell.1
  refine ⟨by rw [top]; exact bound, fun p covered => ?_⟩
  have member := (cell_covers_iff cell p).mp covered
  obtain ⟨domP, topP⟩ := layout.dom_of_cell k h p cell.1 bound member
  rw [(inv.tracks.tops p domP).1, topP, top]
  exact ⟨rfl, same_cell_mono bound member⟩

theorem inv_safe : Safe c := by
  refine ⟨?_, ?_, ?_, ?_, inv.counts⟩
  · intro z k h listed
    obtain ⟨cell, free, side⟩ := (inv.tracks.listed z k h).mp listed
    obtain ⟨order, marked⟩ := inv.tracks.heads k h cell id
    refine ⟨cell.2.2, cell_in_max_block inv z cell, fun p covered => ?_, order, marked.mpr free⟩
    have member := (cell_covers_iff cell p).mp covered
    obtain ⟨positive, below⟩ := inv.tracks.located p (layout.cell_covers k h p cell member).1
    rw [(inv.tracks.bounds z).1, (inv.tracks.bounds z).2]
    exact (zone_holds_iff z p).mpr ⟨positive, below, (cell_holder inv.tracks cell member).symm.trans side⟩
  · refine (runs_nodup inv).pairwise_of_forall_ne ?_
    rintro a memberA b memberB different p ⟨inA, inB⟩
    obtain ⟨cellA, sideA⟩ := (runs_mem inv a).mp memberA
    obtain ⟨cellB, sideB⟩ := (runs_mem inv b).mp memberB
    obtain ⟨heads, orders⟩ := layout.cell_unique a.order b.order a.head b.head p cellA cellB
      ((same_cell_head cellA.2.2 p).mpr inA) ((same_cell_head cellB.2.2 p).mpr inB)
    obtain ⟨headA, orderA, zoneA⟩ := a
    obtain ⟨headB, orderB, zoneB⟩ := b
    simp only at heads orders sideA sideB
    subst heads orders
    exact different (by rw [← sideA, ← sideB])
  · intro p
    rw [← inv.domain p]
    constructor
    · rintro ⟨b, member, covered⟩
      obtain ⟨cell, _⟩ := (runs_mem inv b).mp member
      exact (layout.cell_covers b.order b.head p cell ((same_cell_head cell.2.2 p).mpr covered)).1
    · intro inDom
      have cell := layout.cell_at p inDom
      refine ⟨⟨cellHead (layout.ord p) p, layout.ord p, holder (cellHead (layout.ord p) p)⟩, ?_, ?_⟩
      · exact (runs_mem inv _).mpr ⟨cell, rfl⟩
      · exact (cell_covers_iff cell p).mpr (cell_head_same _ p)
  · intro b live
    obtain ⟨⟨cell, taken⟩, _⟩ := (inv.live b).mp live
    obtain ⟨order, marked⟩ := inv.tracks.heads b.order b.head cell id
    refine ⟨?_, order⟩
    cases free : (c.pmm.pageDb b.head).free with
    | false => rfl
    | true => exact absurd (marked.mp free) taken

end Safety

-- What a caller may rely on in a reached configuration: a block that pmm_alloc
-- returns is aligned, has the requested order and overlaps nothing live; the only
-- way not to return is to run out of memory; pmm_free always returns, on the zone
-- the block came from.
structure Serves (c : Config) : Prop where
  alloc : ∀ order flags s h, order ≤ pmmMaxOrder → pmmAlloc order flags c.pmm = .ok (s, h) →
    IsHead order h ∧ (s.pageDb h).order = order ∧ (s.pageDb h).free = false ∧
      ∀ b ∈ c.live, ∀ p, Run.Covers ⟨h, order, allocZone flags⟩ p → ¬ b.Covers p
  allocEnds : ∀ order flags, order ≤ pmmMaxOrder →
    (∃ s h, pmmAlloc order flags c.pmm = .ok (s, h)) ∨ pmmAlloc order flags c.pmm = .error outOfMemory
  free : ∀ b ∈ c.live, freeZone b.head = b.zone ∧ ∃ s, pmmFree b.head c.pmm = .ok s

theorem inv_serves {c : Config} {layout : Layout} (inv : Inv c layout) : Serves c := by
  refine ⟨?_, ?_, ?_⟩
  · intro order flags s h small allocated
    obtain ⟨next, result, _⟩ := alloc_inv inv order flags small s h allocated
    obtain ⟨recorded, marked⟩ := result.tracks.heads order h result.cell.1 id
    refine ⟨result.cell.1.2.2, recorded, ?_, ?_⟩
    · cases free : (s.pageDb h).free with
      | false => rfl
      | true => exact absurd (marked.mp free) result.cell.2
    · intro b live p covered coveredB
      obtain ⟨⟨cell, taken⟩, _⟩ := (inv.live b).mp live
      have wasFree := result.wasFree p ((same_cell_head result.cell.1.2.2 p).mpr covered)
      exact taken ((layout.cell_covers b.order b.head p cell ((same_cell_head cell.2.2 p).mpr coveredB)).2.2.mp wasFree)
  · intro order flags small
    rcases pmm_alloc_spec inv.tracks inv.canonical order flags small with ⟨s, h, _, run, _⟩ | ⟨run, _⟩
    · exact .inl ⟨s, h, run⟩
    · exact .inr run
  · intro b live
    obtain ⟨held, side⟩ := (inv.live b).mp live
    obtain ⟨s, _, run, _⟩ := pmm_free_spec inv.tracks inv.canonical b.order b.head held
    exact ⟨(free_zone_eq b.head (inv.tracks.located _ held.1.1).2).trans side, s, run⟩

theorem buddy_allocator_safe (c : Config) (reach : Reachable c) : Safe c ∧ Serves c := by
  obtain ⟨layout, inv⟩ := reachable_inv c reach
  exact ⟨inv_safe inv, inv_serves inv⟩

def blankState : State := ⟨bootZone, fun _ => ⟨0, 0, false⟩, fun _ => 0⟩

-- Four pages across the border of the two zones.
def boundaryRegion : Region := ⟨0xFFF000, 0x4000, by decide, by decide, by decide⟩

theorem buddy_allocator_safe_boundary : ∃ c, Reachable c ∧ Safe c ∧ Serves c ∧
    c.live = [⟨0xFFF, 0, .low⟩, ⟨0x1000, 0, .normal⟩, ⟨0x1002, 0, .normal⟩] := by
  have booted := Reachable.boot blankState rfl
  obtain ⟨s, added, _⟩ := region_add_returns boundaryRegion blankState fun _ => ⟨rfl, rfl⟩
  have filled := Reachable.regionAdd _ boundaryRegion s booted (by simp) added
  have live : ⟨0x1001, 0, .normal⟩ ∈ regionBlocks boundaryRegion ++ [] := by decide
  have left : (regionBlocks boundaryRegion ++ []).erase ⟨0x1001, 0, .normal⟩ =
      [⟨0xFFF, 0, .low⟩, ⟨0x1000, 0, .normal⟩, ⟨0x1002, 0, .normal⟩] := by decide
  obtain ⟨s', freed⟩ := ((buddy_allocator_safe _ filled).2.free ⟨0x1001, 0, .normal⟩ live).2
  have released := Reachable.free _ ⟨0x1001, 0, .normal⟩ s' filled live freed
  exact ⟨_, released, (buddy_allocator_safe _ released).1, (buddy_allocator_safe _ released).2, left⟩

-- Page p lies in a block on a free list of zone z.
def FreeIn (s : State) (z : ZoneId) (p : Nat) : Prop :=
  ∃ k h, h ∈ (s.zone z).lists k ∧ h ≤ p ∧ p < h + 2 ^ k

theorem free_in_iff {c : Config} {layout : Layout} (inv : Inv c layout) (z : ZoneId) (p : Nat) :
    FreeIn c.pmm z p ↔ layout.dom p ∧ layout.free p ∧ holder p = z := by
  constructor
  · rintro ⟨k, h, listed, covered⟩
    obtain ⟨cell, free, side⟩ := (inv.tracks.listed z k h).mp listed
    have member := (same_cell_head cell.2.2 p).mpr covered
    obtain ⟨inDom, _, freeP⟩ := layout.cell_covers k h p cell member
    exact ⟨inDom, freeP.mpr free, (cell_holder inv.tracks cell member).symm.trans side⟩
  · rintro ⟨inDom, free, side⟩
    have cell := layout.cell_at p inDom
    have member := cell_head_same (layout.ord p) p
    refine ⟨layout.ord p, cellHead (layout.ord p) p, (inv.tracks.listed z _ _).mpr ⟨cell, ?_, ?_⟩, ?_⟩
    · exact (layout.cell_covers _ _ p cell member).2.2.mp free
    · exact (cell_holder inv.tracks cell member).trans side
    · exact (same_cell_head cell.2.2 p).mp member

theorem free_somewhere_iff {c : Config} {layout : Layout} (inv : Inv c layout) (p : Nat) :
    (∃ z, FreeIn c.pmm z p) ↔ layout.dom p ∧ layout.free p := by
  constructor
  · rintro ⟨z, free⟩
    obtain ⟨inDom, freeP, _⟩ := (free_in_iff inv z p).mp free
    exact ⟨inDom, freeP⟩
  · rintro ⟨inDom, free⟩
    exact ⟨holder p, (free_in_iff inv _ p).mpr ⟨inDom, free, rfl⟩⟩

-- Two canonical layouts over the same pages with the same tops and the same free
-- pages list the same blocks.
theorem listed_of_same_free {s s' : State} {layout layout' : Layout} (tracks : Tracks s layout nobody)
    (tracks' : Tracks s' layout' nobody) (canonical : layout.Canonical) (canonical' : layout'.Canonical)
    (dom : ∀ p, layout'.dom p ↔ layout.dom p) (top : ∀ p, layout.dom p → layout'.top p = layout.top p)
    (free : ∀ p, layout.dom p → (layout'.free p ↔ layout.free p)) (z : ZoneId) (k h : Nat) :
    h ∈ (s'.zone z).lists k ↔ h ∈ (s.zone z).lists k := by
  rw [tracks.listed, tracks'.listed, ← and_assoc, ← and_assoc, layout.canonical_cells canonical,
    layout'.canonical_cells canonical']
  refine and_congr ?_ Iff.rfl
  unfold Layout.MaximalRun
  rw [dom h]
  by_cases inDom : layout.dom h
  · rw [top h inDom]
    refine and_congr Iff.rfl (and_congr Iff.rfl (and_congr_right fun within => and_congr ?_ ?_))
    · refine forall_congr' fun p => imp_congr_right fun member => free p ?_
      exact (layout.dom_of_cell k h p inDom within member).1
    · by_cases full : k = layout.top h
      · simp [full]
      · refine or_congr Iff.rfl (exists_congr fun p => and_congr_right fun member => not_congr (free p ?_))
        exact (layout.dom_of_cell (k + 1) h p inDom (by omega) member).1
  · simp [inDom]

structure Canonical (c : Config) : Prop where
  apart : ∀ z y k h, h ∈ (c.pmm.zone z).lists k → k < (c.pmm.pageDb h).maxOrder →
    buddy k h ∉ (c.pmm.zone y).lists k
  determined : ∀ other, Reachable other → (∀ r, r ∈ other.regions ↔ r ∈ c.regions) →
    (∀ p, (∃ z, FreeIn other.pmm z p) ↔ ∃ z, FreeIn c.pmm z p) →
    ∀ z k h, h ∈ (other.pmm.zone z).lists k ↔ h ∈ (c.pmm.zone z).lists k
  restored : ∀ order flags s h, order ≤ pmmMaxOrder → pmmAlloc order flags c.pmm = .ok (s, h) →
    ∃ s', pmmFree h s = .ok s' ∧ ∀ z k p, p ∈ (s'.zone z).lists k ↔ p ∈ (c.pmm.zone z).lists k
  exhausted : ∀ order flags fault, order ≤ pmmMaxOrder → pmmAlloc order flags c.pmm = .error fault →
    ¬ ∃ h, IsHead order h ∧ ∀ p, h ≤ p → p < h + 2 ^ order →
      FreeIn c.pmm (allocZone flags) p ∧ SameCell (c.pmm.pageDb h).maxOrder h p

theorem inv_apart {c : Config} {layout : Layout} (inv : Inv c layout) (z y : ZoneId) (k h : Nat)
    (listed : h ∈ (c.pmm.zone z).lists k) (below : k < (c.pmm.pageDb h).maxOrder) :
    buddy k h ∉ (c.pmm.zone y).lists k := by
  intro both
  obtain ⟨cell, free, _⟩ := (inv.tracks.listed z k h).mp listed
  obtain ⟨cellB, freeB, _⟩ := (inv.tracks.listed y k _).mp both
  rw [(inv.tracks.tops h cell.1).1] at below
  exact inv.canonical k h cell free below ⟨cellB.2.1, freeB⟩

theorem inv_determined {c other : Config} {layout layout' : Layout} (inv : Inv c layout) (inv' : Inv other layout')
    (regions : ∀ r, r ∈ other.regions ↔ r ∈ c.regions)
    (free : ∀ p, (∃ z, FreeIn other.pmm z p) ↔ ∃ z, FreeIn c.pmm z p) (z : ZoneId) (k h : Nat) :
    h ∈ (other.pmm.zone z).lists k ↔ h ∈ (c.pmm.zone z).lists k := by
  have dom : ∀ p, layout'.dom p ↔ layout.dom p := fun p => by
    rw [inv.domain, inv'.domain]
    exact exists_congr fun r => and_congr_left' (regions r)
  refine listed_of_same_free inv.tracks inv'.tracks inv.canonical inv'.canonical dom ?_ ?_ z k h
  · intro p inDom
    obtain ⟨r, member, adds⟩ := (inv.domain p).mp inDom
    rw [inv.tiles r member p adds, inv'.tiles r ((regions r).mpr member) p adds]
  · intro p inDom
    have both := free p
    rw [free_somewhere_iff inv, free_somewhere_iff inv', dom p] at both
    simpa [inDom] using both

theorem inv_restored {c : Config} {layout : Layout} (inv : Inv c layout) (order flags : Nat) (s : State) (h : Nat)
    (small : order ≤ pmmMaxOrder) (allocated : pmmAlloc order flags c.pmm = .ok (s, h)) :
    ∃ s', pmmFree h s = .ok s' ∧ ∀ z k p, p ∈ (s'.zone z).lists k ↔ p ∈ (c.pmm.zone z).lists k := by
  obtain ⟨next, result, _⟩ := alloc_inv inv order flags small s h allocated
  obtain ⟨s', back, run, tracks, canonical, dom, top, free, _⟩ :=
    pmm_free_spec result.tracks result.canonical order h result.cell
  refine ⟨s', run, listed_of_same_free inv.tracks tracks inv.canonical canonical ?_ ?_ ?_⟩
  · intro p
    rw [dom, result.dom]
  · intro p _
    rw [top, result.top]
  · intro p _
    rw [free p, result.free p]
    by_cases member : SameCell order h p
    · exact iff_of_true (.inr member) (result.wasFree p member)
    · simp [member]

theorem inv_exhausted {c : Config} {layout : Layout} (inv : Inv c layout) (order flags : Nat) (fault : Fault)
    (small : order ≤ pmmMaxOrder) (failed : pmmAlloc order flags c.pmm = .error fault) :
    ¬ ∃ h, IsHead order h ∧ ∀ p, h ≤ p → p < h + 2 ^ order →
      FreeIn c.pmm (allocZone flags) p ∧ SameCell (c.pmm.pageDb h).maxOrder h p := by
  rintro ⟨h, head, run⟩
  have empty : ∀ k, order ≤ k → k ≤ pmmMaxOrder → (c.pmm.zone (allocZone flags)).lists k = [] := by
    rcases pmm_alloc_spec inv.tracks inv.canonical order flags small with ⟨s, h, _, ok, _⟩ | ⟨_, none⟩
    · rw [failed] at ok
      exact absurd ok (by simp)
    · exact none
  have positive := Nat.two_pow_pos order
  obtain ⟨inDom, _, side⟩ := (free_in_iff inv _ h).mp (run h (Nat.le_refl h) (by omega)).1
  have top := (inv.tracks.tops h inDom).1
  rw [top] at run
  -- A run inside one top cell is no larger than that cell.
  have within : order ≤ layout.top h := by
    by_contra larger
    have positiveTop := Nat.two_pow_pos (layout.top h)
    have smaller : 2 ^ layout.top h < 2 ^ order := Nat.pow_lt_pow_right (by decide) (by omega)
    have same := (run (h + 2 ^ layout.top h) (by omega) (by omega)).2
    have bounds := (same_cell_head (is_head_mono (by omega) head) _).mp same
    omega
  have freeRun : ∀ p, SameCell order h p → layout.free p := fun p member => by
    obtain ⟨above, below⟩ := (same_cell_head head p).mp member
    exact ((free_in_iff inv _ p).mp (run p above below).1).2.1
  have large := layout.free_run_in_cell inv.canonical order h inDom within freeRun
  have cell := layout.cell_at h inDom
  have member := cell_head_same (layout.ord h) h
  have listed : cellHead (layout.ord h) h ∈ (c.pmm.zone (allocZone flags)).lists (layout.ord h) := by
    refine (inv.tracks.listed _ _ _).mpr ⟨cell, ?_, (cell_holder inv.tracks cell member).trans side⟩
    exact (layout.cell_covers _ _ h cell member).2.2.mp (freeRun h (same_cell_refl order h))
  rw [empty _ large (cell_order_small inv.tracks cell)] at listed
  exact List.not_mem_nil listed

theorem buddy_allocator_canonical (c : Config) (reach : Reachable c) : Canonical c := by
  obtain ⟨layout, inv⟩ := reachable_inv c reach
  refine ⟨inv_apart inv, ?_, inv_restored inv, inv_exhausted inv⟩
  intro other reachOther regions free
  obtain ⟨layout', inv'⟩ := reachable_inv other reachOther
  exact inv_determined inv inv' regions free

theorem buddy_allocator_canonical_boundary : ∃ c, Reachable c ∧ Canonical c ∧
    c.live = [⟨0xFFF, 0, .low⟩, ⟨0x1000, 0, .normal⟩, ⟨0x1001, 0, .normal⟩, ⟨0x1002, 0, .normal⟩] := by
  have booted := Reachable.boot blankState rfl
  obtain ⟨s, added, _⟩ := region_add_returns boundaryRegion blankState fun _ => ⟨rfl, rfl⟩
  have filled := Reachable.regionAdd _ boundaryRegion s booted (by simp) added
  have live : regionBlocks boundaryRegion ++ [] =
      [⟨0xFFF, 0, .low⟩, ⟨0x1000, 0, .normal⟩, ⟨0x1001, 0, .normal⟩, ⟨0x1002, 0, .normal⟩] := by decide
  exact ⟨_, filled, buddy_allocator_canonical _ filled, live⟩

end Elysium.Pmm
