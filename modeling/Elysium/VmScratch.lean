import Elysium.VmKeeps
import Mathlib.Data.Finset.Card

set_option autoImplicit false

namespace Elysium.Vm

-- The region structures of a tree and those in the cache.
def structures (as : SpaceId) (s : State) : Nat := s.cache.length + (s.space as).regions.length

theorem rb_insert_length (region : Region) (regions : List Region) : (rbInsert region regions).length = regions.length + 1 := by
  induction regions with
  | nil => rfl
  | cons head rest ih =>
      rw [rbInsert]
      split
      · rfl
      · rw [List.length_cons, ih, List.length_cons]

theorem rb_remove_length {regions : List Region} {r : Region} (ids : (regions.map (·.id)).Nodup) (member : r ∈ regions) :
    (rbRemove r.id regions).length + 1 = regions.length := by
  induction regions with
  | nil => cases member
  | cons head rest ih =>
      rw [List.map_cons, List.nodup_cons] at ids
      unfold rbRemove at ih ⊢
      by_cases same : head.id = r.id
      · have others : rest.filter (fun region => region.id ≠ r.id) = rest := by
          rw [List.filter_eq_self]
          intro m inRest
          refine decide_eq_true fun clash => ids.1 ?_
          rw [same, ← clash]
          exact List.mem_map_of_mem inRest
        rw [List.filter_cons_of_neg (by simp [same]), others, List.length_cons]
      · have later : r ∈ rest := by
          rcases List.mem_cons.mp member with rfl | later
          · exact absurd rfl same
          · exact later
        rw [List.filter_cons_of_pos (by simp [same]), List.length_cons, ih ids.2 later, List.length_cons]

theorem set_length_length (id length : Nat) (regions : List Region) : (setLength id length regions).length = regions.length :=
  List.length_map _

section Insert

variable {s : State} {as : SpaceId} {held : List Nat}

theorem drop_structures (owned : Owned s held) {r : Region} (member : r ∈ (s.space as).regions) :
    structures as ((s.setRegions as (rbRemove r.id (s.space as).regions)).regionFree r.id) = structures as s := by
  have fewer := rb_remove_length (owned.ids as) member
  unfold structures
  rw [region_free_space, set_regions_regions]
  change s.cache.length + 1 + _ = _
  omega

theorem merge_right_structures (region : Region) (owned : Owned s held) :
    structures as (mergeRight as region s).1 = structures as s ∧ Owned (mergeRight as region s).1 held ∧
      (mergeRight as region s).2.id = region.id := by
  unfold mergeRight
  cases found : rbSearch (s.space as).regions region.base .nearestGt with
  | none => exact ⟨rfl, owned, rfl⟩
  | some right =>
      have member := (search_gt_some found).1
      dsimp only
      split
      · exact ⟨drop_structures owned member, owned_drop as right member owned, rfl⟩
      · exact ⟨rfl, owned, rfl⟩

theorem merge_left_structures (region : Region) (owned : Owned s held) (member : region ∈ (s.space as).regions) :
    structures as (mergeLeft as region s).1 = structures as s ∧ s.cache.length ≤ (mergeLeft as region s).1.cache.length := by
  unfold mergeLeft
  cases found : rbSearch (s.space as).regions region.base .nearestLt with
  | none => exact ⟨rfl, Nat.le_refl _⟩
  | some left =>
      dsimp only
      split
      · refine ⟨?_, Nat.le_succ _⟩
        -- The region keeps its identity when its neighbour grows.
        obtain ⟨same, inTree, identity⟩ : ∃ same, same ∈ setLength left.id (add64 left.length region.length) (s.space as).regions ∧
            same.id = region.id :=
          ⟨_, List.mem_map_of_mem member, by
            split
            · rfl
            · rfl⟩
        have ids : ((setLength left.id (add64 left.length region.length) (s.space as).regions).map (·.id)).Nodup := by
          rw [set_length_ids]
          exact owned.ids as
        have fewer := rb_remove_length ids inTree
        rw [identity, set_length_length] at fewer
        unfold structures
        rw [region_free_space, set_regions_regions]
        change s.cache.length + 1 + _ = _
        omega
      · exact ⟨rfl, Nat.le_refl _⟩

-- The inserted structure is in the tree, or back in the cache with those of its neighbours.
theorem region_insert_structures (region : Region) (owned : Owned s (region.id :: held)) :
    structures as (regionInsert as region s).1 = structures as s + 1 := by
  obtain ⟨right, ownedR, sameId⟩ := merge_right_structures region owned
  have ownedG : Owned (mergeRight as region s).1 ((mergeRight as region s).2.id :: held) := by
    rw [sameId]
    exact ownedR
  have inserted := owned_insert as (mergeRight as region s).2 ownedG
  have left := (merge_left_structures (mergeRight as region s).2 inserted (by
    rw [set_regions_regions, rb_insert_mem]
    exact .inl rfl)).1
  have grown : structures as ((mergeRight as region s).1.setRegions as
      (rbInsert (mergeRight as region s).2 ((mergeRight as region s).1.space as).regions)) = structures as s + 1 := by
    rw [← right]
    unfold structures
    rw [set_regions_regions, rb_insert_length]
    rfl
  exact left.trans grown

-- A right neighbour that is taken in gives back its structure.
theorem region_insert_frees {region r : Region} (tidy : Tidy (s.space as)) (placed : Placed (s.space as) region)
    (clear : ∀ m ∈ (s.space as).regions, Apart region m) (owned : Owned s (region.id :: held)) (member : r ∈ (s.space as).regions)
    (joins : Joins region r) : 0 < (regionInsert as region s).1.cache.length := by
  obtain ⟨_, ownedR, sameId⟩ := merge_right_structures region owned
  have ownedG : Owned (mergeRight as region s).1 ((mergeRight as region s).2.id :: held) := by
    rw [sameId]
    exact ownedR
  have inserted := owned_insert as (mergeRight as region s).2 ownedG
  have left := (merge_left_structures (mergeRight as region s).2 inserted (by
    rw [set_regions_regions, rb_insert_mem]
    exact .inl rfl)).2
  refine Nat.lt_of_lt_of_le ?_ left
  change 0 < (mergeRight as region s).1.cache.length
  rcases merge_right_cases tidy placed clear with ⟨_, alone⟩ | ⟨right, _, _, run⟩
  · exact absurd joins (alone r member)
  · rw [run]
    exact Nat.succ_pos _

end Insert

section Carve

variable {s t : State} {as : SpaceId} {held : List Nat} {split : Region} {b n : Nat}

theorem trim_split_structures (owned : Owned s held) (member : split ∈ (s.space as).regions) (run : trimSplit as split.id b s = .ok t) :
    structures as t = structures as s ∧ t.ptm = s.ptm ∧ t.pmm = s.pmm := by
  rw [trimSplit, get_region_member owned member, bind_ok] at run
  by_cases front : b > split.base
  · rw [if_pos front] at run
    obtain rfl := Except.ok.inj run
    refine ⟨?_, rfl, rfl⟩
    unfold structures
    rw [set_regions_regions, set_length_length]
    rfl
  · rw [if_neg front, drop_region_member owned member] at run
    obtain rfl := Except.ok.inj run
    exact ⟨drop_structures owned member, rfl, rfl⟩

-- With a structure at hand for what lies behind the segment, nothing but the tree and the cache changes.
theorem carve_first_structures (tidy : Tidy (s.space as)) (owned : Owned s held) (member : split ∈ (s.space as).regions)
    (high : b + n ≤ split.limit) (cached : b + n < split.limit → 0 < s.cache.length) (run : carveFirst as split.id b n s = .ok t) :
    structures as t = structures as s ∧ t.ptm = s.ptm ∧ t.pmm = s.pmm := by
  rw [carve_first_eq tidy owned member high, bind_eq_ok] at run
  obtain ⟨u, cloned, trimmed⟩ := run
  by_cases tail : split.limit > b + n
  · obtain ⟨rid, rest, cache⟩ := List.exists_cons_of_length_pos (cached tail)
    have taken := owned_take cache owned
    rw [if_pos tail, insertClone, cloneTo, region_alloc_cached cache, bind_ok] at cloned
    dsimp only at cloned
    rw [get_region_member taken member, bind_ok] at cloned
    cases shifted : cloneBacking (b + n) split with
    | error fault =>
        rw [shifted] at cloned
        cases cloned
    | ok backing =>
        rw [shifted, bind_ok, bind_ok] at cloned
        obtain rfl := Except.ok.inj cloned
        have ownedU := owned_insert as { split with id := rid, backing := backing, base := b + n, length := split.limit - (b + n) } taken
        obtain ⟨same, asked, memory⟩ := trim_split_structures ownedU (by
          rw [set_regions_regions, rb_insert_mem]
          exact .inr member) trimmed
        refine ⟨?_, asked, memory⟩
        rw [same]
        unfold structures
        rw [set_regions_regions, rb_insert_length, cache, List.length_cons]
        change rest.length + ((s.space as).regions.length + 1) = _
        omega
  · rw [if_neg tail] at cloned
    obtain rfl := Except.ok.inj cloned
    exact trim_split_structures owned member trimmed

end Carve

-- Two trees without empty regions that start regions at the same addresses are of one size.
theorem regions_length {space space' : AddressSpace} (tidy : Tidy space) (tidy' : Tidy space') (nodup : space.regions.Nodup)
    (nodup' : space'.regions.Nodup) (bases : ∀ b, (∃ r ∈ space.regions, r.base = b) ↔ ∃ r ∈ space'.regions, r.base = b) :
    space.regions.length = space'.regions.length := by
  have distinct : ∀ {sp : AddressSpace}, Tidy sp → sp.regions.Nodup → (sp.regions.map (·.base)).Nodup := fun tidy nodup =>
    List.Nodup.map_on (fun a memberA b memberB same => base_unique tidy memberA memberB same) nodup
  have sameBases : (space.regions.map (·.base)).toFinset = (space'.regions.map (·.base)).toFinset := by
    ext b
    simpa using bases b
  have sizes := congrArg Finset.card sameBases
  rw [List.toFinset_card_of_nodup (distinct tidy nodup), List.toFinset_card_of_nodup (distinct tidy' nodup'), List.length_map,
    List.length_map] at sizes
  exact sizes

theorem owned_nodup {s : State} {held : List Nat} (owned : Owned s held) (as : SpaceId) : (s.space as).regions.Nodup :=
  List.Nodup.of_map _ (owned.ids as)

-- An anonymous region that has been inserted in a hole of a space, and is cut out of it again.
section Scratch

variable {as : SpaceId} {t s : State} {region whole : Region} (tidy : Tidy (t.space as)) (placed : Placed (t.space as) region)
  (clear : ∀ m ∈ (t.space as).regions, Apart region m) (joined : Joined (t.space as).regions region whole (s.space as).regions)

include joined

theorem scratch_anon {zeroed : Bool} (anon : region.backing = .anon zeroed) (base : Nat) : CloneFits base whole := by
  have backing : whole.backing = .anon zeroed := by
    rcases joined.left with ⟨_, _, attributes⟩ | ⟨l, _, joins, _, attributes⟩
    · have same := congrArg Attributes.backing attributes
      exact same.trans anon
    · have same := congrArg Attributes.backing attributes
      have shifted : region.backing = l.backing.shift l.length := congrArg Attributes.backing joins.2.1
      rw [anon] at shifted
      cases backing : l.backing with
      | anon z =>
          rw [backing] at shifted same
          rw [shifted]
          exact same
      | direct physicalAddress =>
          rw [backing] at shifted
          cases shifted
  unfold CloneFits
  rw [backing]
  trivial

theorem scratch_home (homes : ∀ r ∈ (t.space as).regions, r.addressSpace = as) (home : region.addressSpace = as) :
    ∀ r ∈ (s.space as).regions, r.addressSpace = as := by
  intro r member
  rcases (joined.mem r).mp member with ⟨old, _, _⟩ | rfl
  · exact homes r old
  · rcases joined.origin with ⟨_, same⟩ | ⟨l, memberL, _, same⟩
    · rw [same]
      exact home
    · rw [same]
      exact homes l memberL

include tidy placed clear

-- The regions start where they did before.
theorem scratch_bases {id : Nat} {result : List Region} (carved : Carved (s.space as).regions whole region.base region.length id result) (b : Nat) :
    (∃ r ∈ (t.space as).regions, r.base = b) ↔ ∃ r ∈ result, r.base = b := by
  have nonempty := placed.nonempty
  have limit : region.base + region.length = region.limit := rfl
  constructor
  · rintro ⟨r, member, rfl⟩
    by_cases isLeft : Joins r region
    · have base : whole.base = r.base := by
        rcases joined.left with ⟨alone, _⟩ | ⟨l, memberL, joins, same, _⟩
        · exact absurd isLeft (alone r member)
        · rw [same, joins_left_unique tidy memberL member joins isLeft]
      have before : r.base < region.base := by
        have positive := (tidy.placed r member).nonempty
        rw [← isLeft.1, Region.limit]
        omega
      exact ⟨_, (carved.mem _).mpr (.inr (.inl ⟨base ▸ before, rfl⟩)), base⟩
    · by_cases isRight : Joins region r
      · have behind : region.limit < whole.limit := by
          rcases joined.right with ⟨alone, _⟩ | ⟨q, memberQ, joins, same⟩
          · exact absurd isRight (alone r member)
          · have positive := (tidy.placed q memberQ).nonempty
            rw [same, joins.1, Region.limit]
            omega
        exact ⟨_, (carved.mem _).mpr (.inr (.inr ⟨behind, rfl⟩)), isRight.1⟩
      · refine ⟨r, (carved.mem r).mpr (.inl ⟨(joined.mem r).mpr (.inl ⟨member, isRight, isLeft⟩), ?_⟩), rfl⟩
        rintro rfl
        -- The region that was inserted, or the left one that took it in, is not among the others.
        rcases joined.left with ⟨alone, base, attributes⟩ | ⟨l, memberL, joins, base, _⟩
        · have apart := clear r member
          have positive := (tidy.placed r member).nonempty
          unfold Apart Region.limit at apart
          omega
        · rw [base_unique tidy memberL member base.symm] at joins
          exact isLeft joins
  · rintro ⟨r, member, rfl⟩
    rcases (carved.mem r).mp member with ⟨inTree, other⟩ | ⟨front, rfl⟩ | ⟨tail, rfl⟩
    · rcases (joined.mem r).mp inTree with ⟨old, _, _⟩ | same
      · exact ⟨r, old, rfl⟩
      · exact absurd same other
    · rcases joined.left with ⟨_, base, _⟩ | ⟨l, memberL, _, base, _⟩
      · exact absurd front (by omega)
      · exact ⟨l, memberL, base.symm⟩
    · rcases joined.right with ⟨_, same⟩ | ⟨q, memberQ, joins, _⟩
      · exact absurd tail (by omega)
      · exact ⟨q, memberQ, joins.1.symm⟩

-- What vm_unmap leaves of the insertion.
structure Undone (as : SpaceId) (t s u : State) (address length : Nat) : Prop where
  maps : ∀ a v, Maps (u.space as).regions a v ↔ Maps (t.space as).regions a v
  aside : Steady as s u
  owned : Owned u []
  tidy : Tidy (u.space as)
  home : (∀ r ∈ (s.space as).regions, r.addressSpace = as) → ∀ r ∈ (u.space as).regions, r.addressSpace = as
  structures : u.cache.length + (t.space as).regions.length = Vm.structures as s
  allocator : u.pmm = s.pmm
  asked : (∀ r ∈ (s.space as).regions, r.addressSpace = as) → u.ptm = .unmap as address length :: s.ptm

theorem scratch_unmap {zeroed : Bool} {held : List Nat} (anon : region.backing = .anon zeroed) (ownedT : Owned t held) (frame : Frame as t s)
    (owned : Owned s [])
    (freed : (∃ r ∈ (t.space as).regions, Joins region r) → 0 < s.cache.length) :
    ∃ u, vmUnmap as region.base region.length s = .ok u ∧ Undone as t s u region.base region.length := by
  have low := joined_low joined
  have high := joined_high joined
  have nonempty := placed.nonempty
  have limit : region.base + region.length = region.limit := rfl
  have tidyS : Tidy (s.space as) := joined_tidy tidy placed joined frame.start frame.limit rfl clear
  have range : InRange s as region.base region.length := by
    refine ⟨placed.baseAligned, placed.lengthAligned, (segment_in_bounds_iff _ _ _ _ tidyS.fits).mpr ?_⟩
    have above := placed.above
    have below := placed.below
    rw [frame.start, frame.limit]
    omega
  have member : whole ∈ (s.space as).regions := (joined.mem whole).mpr (.inr rfl)
  have covers : whole.Covers region.base := ⟨low, by omega⟩
  have taken : firstLength whole region.base region.length = region.length := by
    unfold firstLength
    omega
  have cached : region.base + region.length < whole.limit → 0 < s.cache.length := by
    intro tail
    rcases joined.right with ⟨_, same⟩ | ⟨r, memberR, joins, _⟩
    · exact absurd tail (by omega)
    · exact freed ⟨r, memberR, joins⟩
  obtain ⟨q, requested⟩ : ∃ q, q = s.request (.unmap whole.addressSpace region.base region.length) := ⟨_, rfl⟩
  have space : q.space = s.space := requested ▸ rfl
  have ownedQ : Owned q [] := owned_congr owned space (requested ▸ rfl) (requested ▸ rfl)
  have cachedQ : region.base + region.length < whole.limit → 0 < q.cache.length := requested ▸ cached
  rw [unmap_first_eq tidyS range nonempty member covers, taken, ← requested]
  rcases carve_first_spec (s := q) (space ▸ tidyS) ownedQ (fun tail => .inl (cachedQ tail)) (space ▸ member) low (by omega) with
    ⟨u, id, run, carved, ownedU, aside, _, _⟩ | ⟨_, unfit, _⟩
  · obtain ⟨counted, asked, memory⟩ := carve_first_structures (space ▸ tidyS) ownedQ (space ▸ member) (by omega) cachedQ run
    rw [space] at carved
    have start : (u.space as).start = (s.space as).start := by
      rw [aside.start, space]
    have stop : (u.space as).limit = (s.space as).limit := by
      rw [aside.limit, space]
    have tidyU := carved_tidy tidyS member low (by omega) carved start stop rfl placed.baseAligned placed.lengthAligned
    have same := regions_length tidy tidyU (owned_nodup ownedT as) (owned_nodup ownedU as) (scratch_bases tidy placed clear joined carved)
    refine ⟨u, ?_, ?_⟩
    · rw [run, bind_ok]
      exact rewrite_loop_done (Nat.le_refl _) _ u
    · refine ⟨fun a v => ?_, ?_, ownedU, tidyU, fun homes r inU => ?_, ?_, ?_, fun homes => ?_⟩
      · rw [carved_maps tidyS member low (by omega) carved, joined_maps tidy joined]
        constructor
        · rintro ⟨old | ⟨inside, _⟩, outside⟩
          · exact old
          · exact absurd inside outside
        · intro old
          refine ⟨.inl old, fun inside => ?_⟩
          obtain ⟨m, inTree, coversM, _⟩ := old
          exact apart_disjoint (clear m inTree) inside coversM
      · exact steady_trans (requested ▸ quiet_steady (quiet_request as s _)) aside
      · rcases (carved.mem r).mp inU with ⟨old, _⟩ | ⟨_, rfl⟩ | ⟨_, rfl⟩
        · exact homes r old
        · exact homes whole member
        · exact homes whole member
      · have before : structures as q = structures as s := by
          unfold structures
          rw [space, requested]
          rfl
        rw [same, ← before, ← counted]
        rfl
      · rw [memory, requested]
        rfl
      · rw [asked, requested, homes whole member]
        rfl
  · exact absurd (scratch_anon joined anon _) unfit

end Scratch

end Elysium.Vm
