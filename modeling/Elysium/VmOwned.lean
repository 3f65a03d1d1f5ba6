import Mathlib.Data.List.Nodup
import Elysium.VmJoined

set_option autoImplicit false

namespace Elysium.Vm

section Frames

variable (s : State) (as : SpaceId) (regions : List Region)

@[simp] theorem set_regions_regions : ((s.setRegions as regions).space as).regions = regions := by
  simp [State.setRegions]

@[simp] theorem set_regions_start (bs : SpaceId) : ((s.setRegions as regions).space bs).start = (s.space bs).start := by
  by_cases same : bs = as
  · subst same
    simp [State.setRegions]
  · simp [State.setRegions, same]

@[simp] theorem set_regions_limit (bs : SpaceId) : ((s.setRegions as regions).space bs).limit = (s.space bs).limit := by
  by_cases same : bs = as
  · subst same
    simp [State.setRegions]
  · simp [State.setRegions, same]

theorem set_regions_other {bs : SpaceId} (different : bs ≠ as) : (s.setRegions as regions).space bs = s.space bs := by
  simp [State.setRegions, different]

@[simp] theorem set_regions_set_regions (regions' : List Region) :
    (s.setRegions as regions).setRegions as regions' = s.setRegions as regions' := by
  simp [State.setRegions]

@[simp] theorem set_regions_cache : (s.setRegions as regions).cache = s.cache := rfl
@[simp] theorem set_regions_next : (s.setRegions as regions).nextRegion = s.nextRegion := rfl
@[simp] theorem set_regions_pmm : (s.setRegions as regions).pmm = s.pmm := rfl
@[simp] theorem request_space (call : PtmCall) : (s.request call).space = s.space := rfl
@[simp] theorem request_cache (call : PtmCall) : (s.request call).cache = s.cache := rfl
@[simp] theorem request_next (call : PtmCall) : (s.request call).nextRegion = s.nextRegion := rfl
@[simp] theorem request_pmm (call : PtmCall) : (s.request call).pmm = s.pmm := rfl
@[simp] theorem region_free_space (id : Nat) : (s.regionFree id).space = s.space := rfl
@[simp] theorem region_free_cache (id : Nat) : (s.regionFree id).cache = id :: s.cache := rfl
@[simp] theorem region_free_next (id : Nat) : (s.regionFree id).nextRegion = s.nextRegion := rfl
@[simp] theorem region_free_pmm (id : Nat) : (s.regionFree id).pmm = s.pmm := rfl

end Frames

-- What a call on one space leaves alone.
structure Frame (as : SpaceId) (s s' : State) : Prop where
  others : ∀ bs, bs ≠ as → s'.space bs = s.space bs
  start : (s'.space as).start = (s.space as).start
  limit : (s'.space as).limit = (s.space as).limit

theorem frame_refl (as : SpaceId) (s : State) : Frame as s s := ⟨fun _ _ => rfl, rfl, rfl⟩

theorem frame_trans {as : SpaceId} {s s' s'' : State} (first : Frame as s s') (second : Frame as s' s'') :
    Frame as s s'' :=
  ⟨fun bs different => (second.others bs different).trans (first.others bs different), second.start.trans first.start,
    second.limit.trans first.limit⟩

theorem frame_set_regions (as : SpaceId) (s : State) (regions : List Region) : Frame as s (s.setRegions as regions) :=
  ⟨fun _ different => set_regions_other s as regions different, set_regions_start s as regions as,
    set_regions_limit s as regions as⟩

theorem frame_of_space {as : SpaceId} {s s' : State} (same : s'.space = s.space) : Frame as s s' := by
  refine ⟨fun _ _ => ?_, ?_, ?_⟩ <;> rw [same]

-- Every region structure is in one place: in one tree, in the cache, or held by
-- the running call.
structure Owned (s : State) (held : List Nat) : Prop where
  ordered : ∀ as, Ordered (s.space as).regions
  ids : ∀ as, ((s.space as).regions.map (·.id)).Nodup
  spaces : ∀ as bs, ∀ r ∈ (s.space as).regions, ∀ q ∈ (s.space bs).regions, r.id = q.id → as = bs
  loose : (held ++ s.cache).Nodup
  linked : ∀ as, ∀ r ∈ (s.space as).regions, r.id ∉ held ++ s.cache
  looseBound : ∀ id ∈ held ++ s.cache, id < s.nextRegion
  linkedBound : ∀ as, ∀ r ∈ (s.space as).regions, r.id < s.nextRegion

section Ownership

variable {s : State} {held : List Nat}

theorem owned_same_id (owned : Owned s held) (as : SpaceId) {a b : Region} (memberA : a ∈ (s.space as).regions)
    (memberB : b ∈ (s.space as).regions) (same : a.id = b.id) : a = b :=
  List.inj_on_of_nodup_map (owned.ids as) memberA memberB same

theorem owned_congr (owned : Owned s held) {s' : State} (space : s'.space = s.space) (cache : s'.cache = s.cache)
    (next : s'.nextRegion = s.nextRegion) : Owned s' held := by
  obtain ⟨ordered, ids, spaces, loose, linked, looseBound, linkedBound⟩ := owned
  exact ⟨by rwa [space], by rwa [space], by rwa [space], by rwa [cache], by rwa [space, cache], by rwa [cache, next],
    by rwa [space, next]⟩

-- Replacing one tree by another over some of the same structures and some held ones.
theorem owned_set_regions {left : List Nat} (owned : Owned s held) (as : SpaceId) (regions : List Region)
    (ordered : Ordered regions) (ids : (regions.map (·.id)).Nodup)
    (origin : ∀ r ∈ regions, (∃ m ∈ (s.space as).regions, m.id = r.id) ∨ r.id ∈ held)
    (kept : ∀ id ∈ left, id ∈ held) (leftNodup : left.Nodup) (released : ∀ r ∈ regions, r.id ∉ left) :
    Owned (s.setRegions as regions) left := by
  have heldLoose : ∀ id ∈ held, id ∉ s.cache := fun id inHeld inCache =>
    (List.nodup_append.mp owned.loose).2.2 id inHeld id inCache rfl
  refine ⟨?_, ?_, ?_, ?_, ?_, ?_, ?_⟩
  · intro bs
    by_cases same : bs = as
    · subst same
      simpa using ordered
    · rw [set_regions_other s as regions same]
      exact owned.ordered bs
  · intro bs
    by_cases same : bs = as
    · subst same
      simpa using ids
    · rw [set_regions_other s as regions same]
      exact owned.ids bs
  · -- A structure of the new tree was in the old one or in no tree at all.
    have foreign : ∀ bs, bs ≠ as → ∀ r ∈ regions, ∀ q ∈ (s.space bs).regions, r.id ≠ q.id := by
      intro bs different r member q memberQ same
      rcases origin r member with ⟨m, memberM, sameM⟩ | inHeld
      · exact different (owned.spaces bs as q memberQ m memberM (same.symm.trans sameM.symm))
      · exact owned.linked bs q memberQ (List.mem_append_left _ (same ▸ inHeld))
    intro bs cs r memberR q memberQ same
    by_cases first : bs = as
    · by_cases second : cs = as
      · exact first.trans second.symm
      · rw [set_regions_other s as regions second] at memberQ
        rw [first, set_regions_regions] at memberR
        exact absurd same (foreign cs second r memberR q memberQ)
    · rw [set_regions_other s as regions first] at memberR
      by_cases second : cs = as
      · rw [second, set_regions_regions] at memberQ
        exact absurd same.symm (foreign bs first q memberQ r memberR)
      · rw [set_regions_other s as regions second] at memberQ
        exact owned.spaces bs cs r memberR q memberQ same
  · refine List.nodup_append.mpr ⟨leftNodup, (List.nodup_append.mp owned.loose).2.1, ?_⟩
    rintro a inLeft b inCache rfl
    exact heldLoose a (kept a inLeft) inCache
  · intro bs r member inLoose
    by_cases same : bs = as
    · subst same
      rw [set_regions_regions] at member
      rcases List.mem_append.mp inLoose with inLeft | inCache
      · exact released r member inLeft
      · rcases origin r member with ⟨m, memberM, sameM⟩ | inHeld
        · exact owned.linked bs m memberM (List.mem_append_right _ (sameM ▸ inCache))
        · exact heldLoose r.id inHeld inCache
    · rw [set_regions_other s as regions same] at member
      refine owned.linked bs r member ?_
      rcases List.mem_append.mp inLoose with inLeft | inCache
      · exact List.mem_append_left _ (kept _ inLeft)
      · exact List.mem_append_right _ inCache
  · intro id inLoose
    refine owned.looseBound id ?_
    rcases List.mem_append.mp inLoose with inLeft | inCache
    · exact List.mem_append_left _ (kept _ inLeft)
    · exact List.mem_append_right _ inCache
  · intro bs r member
    by_cases same : bs = as
    · subst same
      rw [set_regions_regions] at member
      rcases origin r member with ⟨m, memberM, sameM⟩ | inHeld
      · exact sameM ▸ owned.linkedBound bs m memberM
      · exact owned.looseBound r.id (List.mem_append_left _ inHeld)
    · rw [set_regions_other s as regions same] at member
      exact owned.linkedBound bs r member

theorem owned_held_nodup (owned : Owned s held) : held.Nodup := (List.nodup_append.mp owned.loose).1

theorem owned_insert (as : SpaceId) (region : Region) (owned : Owned s (region.id :: held)) :
    Owned (s.setRegions as (rbInsert region (s.space as).regions)) held := by
  have nodup := List.nodup_cons.mp (owned_held_nodup owned)
  refine owned_set_regions owned as _ (rb_insert_ordered region _ (owned.ordered as)) ?_ ?_
    (fun id => List.mem_cons_of_mem _) nodup.2 ?_
  · refine ((rb_insert_perm region _).map (·.id)).nodup_iff.mpr ?_
    refine List.nodup_cons.mpr ⟨fun listed => ?_, owned.ids as⟩
    obtain ⟨m, member, same⟩ := List.mem_map.mp listed
    exact owned.linked as m member (by simp [same])
  · intro r member
    rcases (rb_insert_mem region r _).mp member with rfl | old
    · exact .inr List.mem_cons_self
    · exact .inl ⟨r, old, rfl⟩
  · intro r member inHeld
    rcases (rb_insert_mem region r _).mp member with rfl | old
    · exact nodup.1 inHeld
    · exact owned.linked as r old (List.mem_append_left _ (List.mem_cons_of_mem _ inHeld))

theorem owned_set_length (as : SpaceId) (id length : Nat) (owned : Owned s held) :
    Owned (s.setRegions as (setLength id length (s.space as).regions)) held := by
  have origin : ∀ r ∈ setLength id length (s.space as).regions, ∃ m ∈ (s.space as).regions, m.id = r.id := by
    intro r member
    have listed := List.mem_map_of_mem (f := (·.id)) member
    rw [set_length_ids] at listed
    obtain ⟨m, memberM, same⟩ := List.mem_map.mp listed
    exact ⟨m, memberM, same⟩
  refine owned_set_regions owned as _ (set_length_ordered id length _ (owned.ordered as)) ?_ (fun r member => .inl (origin r member))
    (fun _ inHeld => inHeld) (owned_held_nodup owned) ?_
  · rw [set_length_ids]
    exact owned.ids as
  · intro r member inHeld
    obtain ⟨m, memberM, same⟩ := origin r member
    exact owned.linked as m memberM (List.mem_append_left _ (same ▸ inHeld))

theorem owned_remove (as : SpaceId) (id : Nat) (owned : Owned s held) :
    Owned (s.setRegions as (rbRemove id (s.space as).regions)) held := by
  refine owned_set_regions owned as _ (rb_remove_ordered id _ (owned.ordered as)) ?_ ?_
    (fun _ inHeld => inHeld) (owned_held_nodup owned) ?_
  · exact (owned.ids as).sublist (List.filter_sublist.map _)
  · exact fun r inTree => .inl ⟨r, ((rb_remove_mem _ r _).mp inTree).1, rfl⟩
  · intro r inTree inHeld
    exact owned.linked as r ((rb_remove_mem _ r _).mp inTree).1 (List.mem_append_left _ inHeld)

theorem owned_release {id : Nat} (unlinked : ∀ as, ∀ r ∈ (s.space as).regions, r.id ≠ id) (loose : id ∉ held ++ s.cache)
    (bound : id < s.nextRegion) (owned : Owned s held) : Owned (s.regionFree id) held := by
  have split : ∀ x, x ∈ held ++ id :: s.cache ↔ x = id ∨ x ∈ held ++ s.cache := by
    intro x
    simp only [List.mem_append, List.mem_cons]
    exact or_left_comm
  refine ⟨owned.ordered, owned.ids, owned.spaces, ?_, ?_, ?_, owned.linkedBound⟩
  · exact List.nodup_middle.mpr (List.nodup_cons.mpr ⟨loose, owned.loose⟩)
  · intro as r member inLoose
    rcases (split r.id).mp inLoose with same | old
    · exact unlinked as r member same
    · exact owned.linked as r member old
  · intro x inLoose
    rcases (split x).mp inLoose with rfl | old
    · exact bound
    · exact owned.looseBound x old

-- rb_remove and region_free of a region of the tree.
theorem owned_drop (as : SpaceId) (region : Region) (member : region ∈ (s.space as).regions) (owned : Owned s held) :
    Owned ((s.setRegions as (rbRemove region.id (s.space as).regions)).regionFree region.id) held := by
  refine owned_release ?_ (owned.linked as region member) (owned.linkedBound as region member)
    (owned_remove as region.id owned)
  intro bs r inTree same
  by_cases space : bs = as
  · subst space
    rw [set_regions_regions] at inTree
    exact ((rb_remove_mem _ r _).mp inTree).2 same
  · rw [set_regions_other s as _ space] at inTree
    exact space (owned.spaces bs as r inTree region member same)

-- Giving back a structure the call holds.
theorem owned_give_back {id : Nat} (owned : Owned s (id :: held)) : Owned (s.regionFree id) held := by
  obtain ⟨ordered, ids, spaces, loose, linked, looseBound, linkedBound⟩ := owned
  have perm : (held ++ id :: s.cache).Perm (id :: held ++ s.cache) := List.perm_middle
  exact ⟨ordered, ids, spaces, perm.nodup_iff.mpr loose, fun as r member inLoose => linked as r member (perm.mem_iff.mp inLoose),
    fun x inLoose => looseBound x (perm.mem_iff.mp inLoose), linkedBound⟩

theorem owned_take {id : Nat} {rest : List Nat} (cache : s.cache = id :: rest) (owned : Owned s held) :
    Owned { s with cache := rest } (id :: held) := by
  obtain ⟨ordered, ids, spaces, loose, linked, looseBound, linkedBound⟩ := owned
  have perm : (held ++ s.cache).Perm (id :: held ++ rest) := cache ▸ List.perm_middle
  exact ⟨ordered, ids, spaces, perm.nodup_iff.mp loose, fun as r member inLoose => linked as r member (perm.mem_iff.mpr inLoose),
    fun x inLoose => looseBound x (perm.mem_iff.mpr inLoose), linkedBound⟩

end Ownership

end Elysium.Vm
