import Elysium.VmPool

set_option autoImplicit false

namespace Elysium.Vm

-- Region structures cost a page of the global space now and then: either no tree
-- has changed, or the lowest hole of the global one has become a pool page.
structure PoolPage (s t : State) (hole : Nat) : Prop where
  dry : s.cache = []
  lowest : LowestHole (s.space .global) pageGranularity hole
  maps : ∀ a v, Maps (t.space .global).regions a v ↔ Maps (s.space .global).regions a v ∨
    ((poolRegion s.nextRegion hole).Covers a ∧ v = (poolRegion s.nextRegion hole).at a)
  frame : Frame .global s t

def PoolStep (s t : State) : Prop := t.space = s.space ∨ ∃ hole, PoolPage s t hole

theorem region_alloc_cases {s : State} {held : List Nat} (hosts : Hosts s) (owned : Owned s held) :
    (∃ t id, regionAlloc s = .ok (t, id) ∧ Owned t (id :: held) ∧ PoolStep s t ∧ Hosts t) ∨
      regionAlloc s = .error Pmm.outOfMemory ∨ regionAlloc s = .error outOfAddressSpace := by
  cases cache : s.cache with
  | cons id rest =>
      exact .inl ⟨_, id, region_alloc_cached cache, owned_take cache owned, .inl rfl, hosts_congr hosts rfl⟩
  | nil =>
      rcases refill_spec hosts owned with ⟨t, hole, whole, run, refilled, _⟩ | ⟨run, _⟩ | ⟨run, _⟩
      · obtain ⟨id, rest, cacheT, alloc⟩ := region_alloc_refilled cache run refilled
        refine .inl ⟨_, id, alloc, owned_take cacheT refilled.owned, .inr ⟨hole, cache, refilled.lowest, ?_, ?_⟩, ?_⟩
        · exact joined_maps hosts.tidy refilled.joined
        · exact frame_trans refilled.frame (frame_of_space rfl)
        · exact hosts_congr (refilled_hosts hosts refilled) rfl
      · exact .inr (.inl (by rw [region_alloc_empty cache, run]; rfl))
      · exact .inr (.inr (by rw [region_alloc_empty cache, run]; rfl))

theorem pool_step_local {s t : State} (step : PoolStep s t) (hosts : Hosts t) (as : SpaceId) : Local as s t := by
  rcases step with same | ⟨hole, page⟩
  · exact ⟨fun _ _ _ => by rw [same], fun _ => by rw [same], fun _ => by rw [same], fun _ _ => hosts⟩
  · have aside := frame_local page.frame
    exact ⟨fun bs _ notGlobal => page.frame.others bs notGlobal, aside.start, aside.limit, fun _ _ => hosts⟩

theorem pool_step_tidy {s t : State} (step : PoolStep s t) (hosts : Hosts t) {as : SpaceId} (tidy : Tidy (s.space as)) :
    Tidy (t.space as) := by
  rcases step with same | ⟨hole, page⟩
  · rw [same]
    exact tidy
  · by_cases isGlobal : as = .global
    · rw [isGlobal]
      exact hosts.tidy
    · rw [page.frame.others as isGlobal]
      exact tidy

-- region_map only allocates frames and asks for mappings.
theorem map_anon_pages (region : Region) (address : Nat) (pages : List Nat) (s : State) :
    (∃ t, pages.foldlM (mapAnonPage region address) s = .ok t ∧ t.space = s.space ∧ t.cache = s.cache ∧
      t.nextRegion = s.nextRegion) ∨ pages.foldlM (mapAnonPage region address) s = .error Pmm.outOfMemory := by
  induction pages generalizing s with
  | nil => exact .inl ⟨s, rfl, rfl, rfl, rfl⟩
  | cons i rest ih =>
      rw [List.foldlM_cons]
      have step : (∃ t, mapAnonPage region address s i = .ok t ∧ t.space = s.space ∧ t.cache = s.cache ∧
          t.nextRegion = s.nextRegion) ∨ mapAnonPage region address s i = .error Pmm.outOfMemory := by
        unfold mapAnonPage
        rcases page_alloc_returns (pageFlags region) s.pmm with ⟨pmm, page, allocated⟩ | failed
        · rw [allocated]
          exact .inl ⟨_, rfl, rfl, rfl, rfl⟩
        · rw [failed]
          exact .inr rfl
      rcases step with ⟨t, run, space, cache, next⟩ | failed
      · rw [run, bind_ok]
        rcases ih t with ⟨u, runRest, spaceU, cacheU, nextU⟩ | failed
        · exact .inl ⟨u, runRest, spaceU.trans space, cacheU.trans cache, nextU.trans next⟩
        · exact .inr failed
      · rw [failed]
        exact .inr rfl

theorem region_map_cases (region : Region) (address length : Nat) (s : State) (aligned : address % pageGranularity = 0)
    (whole : length % pageGranularity = 0) :
    (∃ t, regionMap region address length s = .ok t ∧ t.space = s.space ∧ t.cache = s.cache ∧
      t.nextRegion = s.nextRegion) ∨ regionMap region address length s = .error Pmm.outOfMemory := by
  have checked : assertThat (decide (address % pageGranularity = 0 ∧ length % pageGranularity = 0)) = .ok () := by
    rw [assertThat, if_pos (decide_eq_true ⟨aligned, whole⟩)]
  unfold regionMap
  rw [checked, bind_ok]
  cases region.backing with
  | anon backZeroed => exact map_anon_pages region address _ s
  | direct physicalAddress => exact .inl ⟨_, rfl, rfl, rfl, rfl⟩

section Map

variable (as : SpaceId) (prot : Protection) (cache : Cache) (flags : Nat) (type : RegionType) (directPhysicalAddress : Nat)

def requestedBacking : Backing :=
  match type with
  | .anon => .anon (flags &&& flagZero ≠ 0)
  | .direct => .direct directPhysicalAddress

theorem map_backing_cases : mapBacking type flags directPhysicalAddress = .ok (requestedBacking flags type directPhysicalAddress) ∨
    (mapBacking type flags directPhysicalAddress = .error .assertion ∧ type = .direct ∧
      directPhysicalAddress % pageGranularity ≠ 0) := by
  cases type with
  | anon => exact .inl rfl
  | direct =>
      by_cases aligned : directPhysicalAddress % pageGranularity = 0
      · refine .inl ?_
        simp only [mapBacking, assertThat, decide_eq_true aligned, if_true, bind_ok, requestedBacking]
      · refine .inr ⟨?_, rfl, aligned⟩
        simp only [mapBacking, assertThat, aligned, decide_false]
        rfl

-- The region a successful call adds.
def newRegion (id address length : Nat) : Region :=
  describeRegion as id address length prot cache flags (requestedBacking flags type directPhysicalAddress)

variable {t : State} {held : List Nat} {id address length : Nat}

theorem place_region_spec (tidy : Tidy (t.space as)) (owned : Owned t (id :: held)) (hole : Hole (t.space as) length address)
    (aligned : address % pageGranularity = 0) (wholePages : length % pageGranularity = 0) (positive : 0 < length) :
    (∃ s' whole, placeRegion as address length prot cache flags type directPhysicalAddress id t = .ok (s', address) ∧
        Joined (t.space as).regions (newRegion as prot cache flags type directPhysicalAddress id address length) whole
          (s'.space as).regions ∧ Frame as t s' ∧ Owned s' held) ∨
      placeRegion as address length prot cache flags type directPhysicalAddress id t = .error Pmm.outOfMemory ∨
      (placeRegion as address length prot cache flags type directPhysicalAddress id t = .error .assertion ∧
        type = .direct ∧ directPhysicalAddress % pageGranularity ≠ 0) := by
  unfold placeRegion
  simp only [assertThat, decide_eq_true hole.1, decide_eq_true (And.intro aligned wholePages), if_true, bind_ok]
  rcases map_backing_cases flags type directPhysicalAddress with backing | ⟨backing, direct, unaligned⟩
  · rw [backing, bind_ok]
    generalize regionEq : describeRegion as id address length prot cache flags
      (requestedBacking flags type directPhysicalAddress) = region
    have regionIs : newRegion as prot cache flags type directPhysicalAddress id address length = region := regionEq
    have base : region.base = address := regionEq ▸ rfl
    have size : region.length = length := regionEq ▸ rfl
    have limit : region.limit = address + length := by rw [Region.limit, base, size]
    have bounds := (segment_in_bounds_iff address length _ _ tidy.fits).mp hole.1
    have placed : Placed (t.space as) region :=
      ⟨size ▸ positive, base ▸ aligned, size ▸ wholePages, base ▸ bounds.1, limit ▸ bounds.2.2⟩
    have clear : ∀ m ∈ (t.space as).regions, Apart region m := fun m member => by
      unfold Apart
      rw [limit, base]
      exact (hole.2 m member).symm
    have finish : ∀ u : State, u.space = t.space → u.cache = t.cache → u.nextRegion = t.nextRegion →
        ∃ s' whole, (regionInsert as region u).1 = s' ∧ Joined (t.space as).regions region whole (s'.space as).regions ∧
          Frame as t s' ∧ Owned s' held := by
      intro u space cached next
      have ownedU : Owned u (region.id :: held) := owned_congr (regionEq ▸ owned) space cached next
      obtain ⟨s', whole, run, quiet, owned', joined⟩ := region_insert_spec (space ▸ tidy) (space ▸ placed) (space ▸ clear) ownedU
      rw [space] at joined
      exact ⟨s', whole, by rw [run], joined, frame_trans (frame_of_space space) quiet.frame, owned'⟩
    rw [regionIs]
    by_cases dynamic : region.dynamicallyBacked = true
    · obtain ⟨s', whole, run, joined, frame, owned'⟩ := finish t rfl rfl rfl
      refine .inl ⟨s', whole, ?_, joined, frame, owned'⟩
      rw [if_pos dynamic, run]
    · rw [if_neg dynamic, base, size]
      rcases region_map_cases region address length t aligned wholePages with ⟨u, mapped, space, cached, next⟩ | failed
      · obtain ⟨s', whole, run, joined, frame, owned'⟩ := finish u space cached next
        refine .inl ⟨s', whole, ?_, joined, frame, owned'⟩
        rw [mapped, bind_ok, run]
      · refine .inr (.inl ?_)
        rw [failed]
        rfl
  · exact .inr (.inr ⟨by rw [backing]; rfl, direct, unaligned⟩)

end Map

def Fixed (flags : Nat) : Prop := flags &&& flagFixed ≠ 0

-- What map_common turns down before it looks for a place.
def Rejected (hint length flags : Nat) : Prop :=
  length = 0 ∨ length % pageGranularity ≠ 0 ∨ (Fixed flags ∧ hint % pageGranularity ≠ 0)

-- The place map_common takes in a space: the hint where it can, else, unless the
-- hint is binding, the lowest hole.
structure Chosen (space : AddressSpace) (hint length flags address : Nat) : Prop where
  hole : Hole space length address
  hinted : Hole space length (roundHint hint) → address = roundHint hint
  lowest : ¬ Hole space length (roundHint hint) → ¬ Fixed flags ∧ LowestHole space length address

def NoPlace (space : AddressSpace) (hint length flags : Nat) : Prop :=
  ¬ Hole space length (roundHint hint) ∧ (Fixed flags ∨ ∀ a, ¬ Hole space length a)

theorem round_hint_aligned (hint : Nat) : roundHint hint % pageGranularity = 0 := by
  unfold roundHint
  by_cases aligned : hint % pageGranularity = 0
  · simp [aligned]
  · rw [if_pos aligned, add64]
    have granularity : pageGranularity = 4096 := rfl
    rw [granularity] at *
    omega

theorem round_hint_eq {hint : Nat} (aligned : hint % pageGranularity = 0) : roundHint hint = hint := by
  simp [roundHint, aligned]

section MapCommon

variable {as : SpaceId} {hint length flags : Nat} {prot : Protection} {cache : Cache} {type : RegionType}
  {directPhysicalAddress : Nat} {s : State}

theorem map_common_rejected (rejected : Rejected hint length flags) :
    mapCommon as hint length prot cache flags type directPhysicalAddress s = .ok (s, nullptr) := by
  unfold mapCommon
  rcases rejected with zero | ragged | ⟨isFixed, unaligned⟩
  · rw [if_pos (.inl zero)]
  · rw [if_pos (.inr ragged)]
  · by_cases bad : length = 0 ∨ length % pageGranularity ≠ 0
    · rw [if_pos bad]
    · rw [if_neg bad, if_pos ⟨unaligned, isFixed⟩]

theorem map_common_accepted (accepted : ¬ Rejected hint length flags) :
    mapCommon as hint length prot cache flags type directPhysicalAddress s = (do
      let (s, id) ← regionAlloc s
      match ← findHole (s.space as) (roundHint hint) length with
      | none => .ok (s.regionFree id, nullptr)
      | some address =>
          if hint ≠ address ∧ flags &&& flagFixed ≠ 0 then .ok (s.regionFree id, nullptr)
          else placeRegion as address length prot cache flags type directPhysicalAddress id s) := by
  have sized : ¬ (length = 0 ∨ length % pageGranularity ≠ 0) := fun bad =>
    accepted (bad.imp_right .inl)
  have binding : ¬ (hint % pageGranularity ≠ 0 ∧ flags &&& flagFixed ≠ 0) := fun bad =>
    accepted (.inr (.inr ⟨bad.2, bad.1⟩))
  exact (if_neg sized).trans (if_neg binding)

theorem accepted_fixed {address : Nat} (accepted : ¬ Rejected hint length flags) (isFixed : Fixed flags) :
    hint ≠ address ↔ roundHint hint ≠ address := by
  have aligned : hint % pageGranularity = 0 := by
    by_contra unaligned
    exact accepted (.inr (.inr ⟨isFixed, unaligned⟩))
  rw [round_hint_eq aligned]

-- The search and what follows it, in the state after region_alloc.
theorem map_common_search {t : State} {id : Nat} (accepted : ¬ Rejected hint length flags)
    (alloc : regionAlloc s = .ok (t, id)) (tidy : Tidy (t.space as)) :
    (NoPlace (t.space as) hint length flags ∧
        mapCommon as hint length prot cache flags type directPhysicalAddress s = .ok (t.regionFree id, nullptr)) ∨
      ∃ address, Chosen (t.space as) hint length flags address ∧
        mapCommon as hint length prot cache flags type directPhysicalAddress s =
          placeRegion as address length prot cache flags type directPhysicalAddress id t := by
  rw [map_common_accepted accepted, alloc, bind_ok]
  dsimp only
  rcases find_hole_spec tidy (roundHint hint) with ⟨here, found⟩ | ⟨elsewhere, ⟨address, found, lowest⟩ | ⟨found, none⟩⟩
  · refine .inr ⟨roundHint hint, ⟨here, fun _ => rfl, fun missing => absurd here missing⟩, ?_⟩
    rw [found, bind_ok]
    refine if_neg ?_
    rintro ⟨moved, isFixed⟩
    exact (accepted_fixed accepted isFixed).mp moved rfl
  · rw [found, bind_ok]
    dsimp only
    have moved : roundHint hint ≠ address := fun same => elsewhere (same ▸ lowest.1)
    by_cases isFixed : flags &&& flagFixed ≠ 0
    · refine .inl ⟨⟨elsewhere, .inl isFixed⟩, ?_⟩
      rw [if_pos ⟨(accepted_fixed accepted isFixed).mpr moved, isFixed⟩]
    · refine .inr ⟨address, ⟨lowest.1, fun here => absurd here elsewhere, fun _ => ⟨isFixed, lowest⟩⟩, ?_⟩
      rw [if_neg fun both => isFixed both.2]
  · refine .inl ⟨⟨elsewhere, .inr none⟩, ?_⟩
    rw [found, bind_ok]

theorem chosen_aligned {space : AddressSpace} {address : Nat} (tidy : Tidy space)
    (aligned : space.start % pageGranularity = 0) (chosen : Chosen space hint length flags address) :
    address % pageGranularity = 0 := by
  by_cases here : Hole space length (roundHint hint)
  · rw [chosen.hinted here]
    exact round_hint_aligned hint
  · exact lowest_hole_aligned tidy aligned (chosen.lowest here).2

-- How a call ends that was not turned down at once.
theorem map_common_spec (owned : Owned s []) (hosts : Hosts s) (tidy : Tidy (s.space as))
    (aligned : (s.space as).start % pageGranularity = 0) (accepted : ¬ Rejected hint length flags) :
    (∃ t id, regionAlloc s = .ok (t, id) ∧ Owned t [id] ∧ PoolStep s t ∧ Hosts t ∧
      ((NoPlace (t.space as) hint length flags ∧
          mapCommon as hint length prot cache flags type directPhysicalAddress s = .ok (t.regionFree id, nullptr)) ∨
        ∃ s' address whole, Chosen (t.space as) hint length flags address ∧
          mapCommon as hint length prot cache flags type directPhysicalAddress s = .ok (s', address) ∧
          Joined (t.space as).regions (newRegion as prot cache flags type directPhysicalAddress id address length) whole
            (s'.space as).regions ∧ Frame as t s' ∧ Owned s' [])) ∨
      mapCommon as hint length prot cache flags type directPhysicalAddress s = .error Pmm.outOfMemory ∨
      mapCommon as hint length prot cache flags type directPhysicalAddress s = .error outOfAddressSpace ∨
      (mapCommon as hint length prot cache flags type directPhysicalAddress s = .error .assertion ∧ type = .direct ∧
        directPhysicalAddress % pageGranularity ≠ 0) := by
  have positive : 0 < length := Nat.pos_of_ne_zero fun zero => accepted (.inl zero)
  have wholePages : length % pageGranularity = 0 := by
    by_contra ragged
    exact accepted (.inr (.inl ragged))
  rcases region_alloc_cases hosts owned with ⟨t, id, alloc, ownedT, step, hostsT⟩ | failed | failed
  · have tidyT := pool_step_tidy step hostsT tidy
    have alignedT : (t.space as).start % pageGranularity = 0 := by
      rw [(pool_step_local step hostsT as).start as]
      exact aligned
    rcases map_common_search accepted alloc tidyT with ⟨noPlace, run⟩ | ⟨address, chosen, run⟩
    · exact .inl ⟨t, id, alloc, ownedT, step, hostsT, .inl ⟨noPlace, run⟩⟩
    · rw [run]
      rcases place_region_spec as prot cache flags type directPhysicalAddress tidyT ownedT chosen.hole
        (chosen_aligned tidyT alignedT chosen) wholePages positive with ⟨s', whole, placed, rest⟩ | failed | failed
      · exact .inl ⟨t, id, alloc, ownedT, step, hostsT, .inr ⟨s', address, whole, chosen, placed, rest⟩⟩
      · exact .inr (.inl failed)
      · exact .inr (.inr (.inr failed))
  · refine .inr (.inl ?_)
    rw [map_common_accepted accepted, failed]
    rfl
  · refine .inr (.inr (.inl ?_))
    rw [map_common_accepted accepted, failed]
    rfl

end MapCommon

end Elysium.Vm
