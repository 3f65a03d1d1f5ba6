import Elysium.VmOwned

set_option autoImplicit false

namespace Elysium.Vm

section Merge

variable {s : State} {as : SpaceId} {region : Region} (tidy : Tidy (s.space as)) (placed : Placed (s.space as) region)

include tidy placed

theorem placed_fits : region.limit < 2 ^ 64 := Nat.lt_of_le_of_lt placed.below tidy.fits

omit placed in
theorem joins_right_unique {m right : Region} (memberM : m ∈ (s.space as).regions)
    (memberR : right ∈ (s.space as).regions) (joinsM : Joins region m) (joinsR : Joins region right) : m = right :=
  base_unique tidy memberM memberR (joinsM.1.symm.trans joinsR.1)

theorem merge_right_cases (clear : ∀ m ∈ (s.space as).regions, Apart region m) :
    (mergeRight as region s = (s, region) ∧ ∀ m ∈ (s.space as).regions, ¬ Joins region m) ∨
      ∃ right ∈ (s.space as).regions, Joins region right ∧
        mergeRight as region s = ((s.setRegions as (rbRemove right.id (s.space as).regions)).regionFree right.id,
          { region with length := region.length + right.length }) := by
  have nonempty := placed.nonempty
  unfold mergeRight
  cases found : rbSearch (s.space as).regions region.base .nearestGt with
  | none =>
      refine .inl ⟨rfl, fun m member joins => ?_⟩
      have before := search_gt_none found m member
      have adjacent := joins.1
      unfold Region.limit at adjacent
      omega
  | some right =>
      obtain ⟨member, after, nearest⟩ := search_gt_some found
      by_cases mergeable : regionsMergeable region right = true
      · have joins := (mergeable_iff region right (placed_fits tidy placed)).mp mergeable
        refine .inr ⟨right, member, joins, ?_⟩
        have fits := region_fits tidy member
        have adjacent := joins.1
        unfold Region.limit at fits adjacent
        simp only [if_pos mergeable, add64_eq (show region.length + right.length < 2 ^ 64 by omega)]
      · refine .inl ⟨by simp only [if_neg mergeable], fun m memberM joins => mergeable ?_⟩
        -- The region that starts where this one ends is the nearest above it.
        have adjacent := joins.1
        have bound := nearest m memberM (by unfold Region.limit at adjacent; omega)
        have same : right.base = m.base := by
          rcases clear right member with before | behind
          · omega
          · have nonemptyR := (tidy.placed right member).nonempty
            unfold Region.limit at *
            omega
        rw [base_unique tidy member memberM same]
        exact (mergeable_iff region m (placed_fits tidy placed)).mpr joins

omit placed in
theorem merge_left_cases (member : region ∈ (s.space as).regions) :
    (mergeLeft as region s = (s, region) ∧ ∀ m ∈ (s.space as).regions, ¬ Joins m region) ∨
      ∃ left ∈ (s.space as).regions, Joins left region ∧
        mergeLeft as region s = ((s.setRegions as (rbRemove region.id
          (setLength left.id (left.length + region.length) (s.space as).regions))).regionFree region.id,
          { left with length := left.length + region.length }) := by
  unfold mergeLeft
  cases found : rbSearch (s.space as).regions region.base .nearestLt with
  | none =>
      refine .inl ⟨rfl, fun m memberM joins => ?_⟩
      have after := search_lt_none found m memberM
      have nonempty := (tidy.placed m memberM).nonempty
      have adjacent := joins.1
      unfold Region.limit at adjacent
      omega
  | some left =>
      obtain ⟨memberL, before, nearest⟩ := search_lt_some found
      have fitsL := region_fits tidy memberL
      by_cases mergeable : regionsMergeable left region = true
      · have joins := (mergeable_iff left region fitsL).mp mergeable
        refine .inr ⟨left, memberL, joins, ?_⟩
        have fits := region_fits tidy member
        have adjacent := joins.1
        unfold Region.limit at fits adjacent
        simp only [if_pos mergeable, add64_eq (show left.length + region.length < 2 ^ 64 by omega)]
      · refine .inl ⟨by simp only [if_neg mergeable], fun m memberM joins => mergeable ?_⟩
        -- The region that ends where this one starts is the nearest below it.
        have adjacent := joins.1
        have nonempty := (tidy.placed m memberM).nonempty
        have bound := nearest m memberM (by unfold Region.limit at adjacent; omega)
        have same : left.base = m.base := by
          rcases Nat.lt_or_eq_of_le bound with earlier | same
          · have limit := base_lt_limit_le tidy memberM memberL earlier
            omega
          · exact same.symm
        rw [base_unique tidy memberL memberM same]
        exact (mergeable_iff m region (region_fits tidy memberM)).mpr joins

end Merge

-- Memory and identities: what region_insert and the calls built on it leave alone.
structure Quiet (as : SpaceId) (s s' : State) : Prop where
  frame : Frame as s s'
  pmm : s'.pmm = s.pmm
  next : s'.nextRegion = s.nextRegion
  cache : s.cache.length ≤ s'.cache.length

theorem quiet_refl (as : SpaceId) (s : State) : Quiet as s s := ⟨frame_refl as s, rfl, rfl, Nat.le_refl _⟩

theorem quiet_trans {as : SpaceId} {s s' s'' : State} (first : Quiet as s s') (second : Quiet as s' s'') : Quiet as s s'' :=
  ⟨frame_trans first.frame second.frame, second.pmm.trans first.pmm, second.next.trans first.next,
    Nat.le_trans first.cache second.cache⟩

theorem quiet_set_regions (as : SpaceId) (s : State) (regions : List Region) : Quiet as s (s.setRegions as regions) :=
  ⟨frame_set_regions as s regions, rfl, rfl, Nat.le_refl _⟩

theorem quiet_free (as : SpaceId) (s : State) (id : Nat) : Quiet as s (s.regionFree id) :=
  ⟨frame_of_space rfl, rfl, rfl, Nat.le_succ _⟩

theorem quiet_request (as : SpaceId) (s : State) (call : PtmCall) : Quiet as s (s.request call) :=
  ⟨frame_of_space rfl, rfl, rfl, Nat.le_refl _⟩

-- The region with its right neighbour joined to it, and the tree without that.
structure Grown (space : AddressSpace) (region grown : Region) (regions : List Region) : Prop where
  mem : ∀ m, m ∈ regions ↔ m ∈ space.regions ∧ ¬ Joins region m
  same : grown = { region with length := grown.length }
  right : ((∀ m ∈ space.regions, ¬ Joins region m) ∧ grown.limit = region.limit) ∨
    ∃ r ∈ space.regions, Joins region r ∧ grown.limit = r.limit

section Grown

variable {space : AddressSpace} {region grown : Region} {regions : List Region} (tidy : Tidy space)
  (placed : Placed space region) (grew : Grown space region grown regions)

include grew

theorem grown_base : grown.base = region.base := by rw [grew.same]

theorem grown_joins (m : Region) : Joins m grown ↔ Joins m region := by
  apply joins_congr_right
  · rw [grew.same]
  · rw [grew.same]

-- What stays in the tree beside a left neighbour that does not fit.
theorem joined_of_alone {result : List Region} (tree : ∀ m, m ∈ result ↔ m = grown ∨ m ∈ regions)
    (alone : ∀ m ∈ space.regions, ¬ Joins m region) : Joined space.regions region grown result := by
  refine ⟨fun m => ?_, .inl ⟨alone, grew.same⟩, grew.right⟩
  rw [tree, grew.mem]
  constructor
  · rintro (rfl | ⟨old, notRight⟩)
    · exact .inr rfl
    · exact .inl ⟨old, notRight, alone m old⟩
  · rintro (⟨old, notRight, _⟩ | rfl)
    · exact .inr ⟨old, notRight⟩
    · exact .inl rfl

include tidy

theorem joined_of_left {result : List Region} {left : Region} (member : left ∈ regions) (joins : Joins left region)
    (tree : ∀ m, m ∈ result ↔ (m ∈ regions ∧ m ≠ left) ∨ m = { left with length := left.length + grown.length }) :
    Joined space.regions region { left with length := left.length + grown.length } result := by
  have memberL := ((grew.mem left).mp member).1
  refine ⟨fun m => ?_, .inr ⟨left, memberL, joins, rfl⟩, ?_⟩
  · rw [tree, grew.mem, and_assoc]
    refine or_congr_left (and_congr_right fun old => and_congr_right fun _ => not_congr ?_)
    constructor
    · rintro rfl
      exact joins
    · exact fun joinsM => joins_left_unique tidy old memberL joinsM joins
  · have limit : Region.limit { left with length := left.length + grown.length } = grown.limit := by
      have adjacent := joins.1
      have base := grown_base grew
      unfold Region.limit at *
      dsimp only
      omega
    rw [limit]
    exact grew.right

include placed

theorem grown_placed : Placed space grown := by
  have base := grown_base grew
  rcases grew.right with ⟨_, limit⟩ | ⟨r, member, joins, limit⟩
  · have lengths : grown.length = region.length := by
      unfold Region.limit at limit
      omega
    exact ⟨lengths ▸ placed.nonempty, base ▸ placed.baseAligned, lengths ▸ placed.lengthAligned, base ▸ placed.above,
      limit ▸ placed.below⟩
  · have placedR := tidy.placed r member
    have adjacent := joins.1
    have lengths : grown.length = region.length + r.length := by
      unfold Region.limit at limit adjacent
      omega
    have nonempty := placed.nonempty
    refine ⟨by omega, base ▸ placed.baseAligned, ?_, base ▸ placed.above, limit ▸ placedR.below⟩
    rw [lengths, Nat.add_mod, placed.lengthAligned, placedR.lengthAligned]
    rfl

theorem grown_clear (clear : ∀ m ∈ space.regions, Apart region m) : ∀ m ∈ regions, Apart grown m := by
  intro m member
  obtain ⟨old, notRight⟩ := (grew.mem m).mp member
  have base := grown_base grew
  have first := clear m old
  rcases grew.right with ⟨_, limit⟩ | ⟨r, memberR, joins, limit⟩
  · unfold Apart at *
    omega
  · have different : r ≠ m := fun equal => notRight (equal ▸ joins)
    have nonempty := placed.nonempty
    have nonemptyM := (tidy.placed m old).nonempty
    have nonemptyR := (tidy.placed r memberR).nonempty
    have adjacent := joins.1
    have second := tidy.apart r memberR m old different
    unfold Apart Region.limit at *
    omega

end Grown

-- A region of the tree with what it has taken in, in place of the two.
theorem resized_mem {s : State} {as : SpaceId} {held : List Nat} {left grown : Region} (owned : Owned s held)
    (memberL : left ∈ (s.space as).regions) (memberG : grown ∈ (s.space as).regions) (different : left ≠ grown) (length : Nat)
    (m : Region) : m ∈ rbRemove grown.id (setLength left.id length (s.space as).regions) ↔
      (m ∈ (s.space as).regions ∧ m ≠ grown ∧ m ≠ left) ∨ m = { left with length := length } := by
  have same : ∀ a ∈ (s.space as).regions, ∀ b ∈ (s.space as).regions, (a.id = b.id ↔ a = b) := fun a memberA b memberB =>
    ⟨fun equal => owned_same_id owned as memberA memberB equal, fun equal => equal ▸ rfl⟩
  rw [rb_remove_mem, set_length_mem]
  constructor
  · rintro ⟨⟨member, notLeft⟩ | ⟨r, memberR, equal, rfl⟩, notGrown⟩
    · exact .inl ⟨member, fun equal => notGrown (equal ▸ rfl), fun equal => notLeft (equal ▸ rfl)⟩
    · rw [(same r memberR left memberL).mp equal]
      exact .inr rfl
  · rintro (⟨member, notGrown, notLeft⟩ | rfl)
    · exact ⟨.inl ⟨member, fun equal => notLeft ((same m member left memberL).mp equal)⟩,
        fun equal => notGrown ((same m member grown memberG).mp equal)⟩
    · exact ⟨.inr ⟨left, memberL, rfl, rfl⟩, fun equal => different ((same left memberL grown memberG).mp equal)⟩

section Insert

variable {s : State} {as : SpaceId} {region : Region} {held : List Nat} (tidy : Tidy (s.space as))
  (placed : Placed (s.space as) region) (clear : ∀ m ∈ (s.space as).regions, Apart region m)
  (owned : Owned s (region.id :: held))

include tidy placed clear owned

theorem merge_right_spec : ∃ s' grown, mergeRight as region s = (s', grown) ∧ Quiet as s s' ∧
    Owned s' (grown.id :: held) ∧ Grown (s.space as) region grown (s'.space as).regions := by
  rcases merge_right_cases tidy placed clear with ⟨run, alone⟩ | ⟨right, member, joins, run⟩
  · refine ⟨s, region, run, quiet_refl as s, owned, ?_, rfl, .inl ⟨alone, rfl⟩⟩
    exact fun m => ⟨fun inTree => ⟨inTree, alone m inTree⟩, fun both => both.1⟩
  · refine ⟨_, _, run, quiet_trans (quiet_set_regions as s _) (quiet_free as _ right.id), owned_drop as right member owned,
      ?_, rfl, .inr ⟨right, member, joins, ?_⟩⟩
    · intro m
      rw [region_free_space, set_regions_regions, rb_remove_mem]
      refine and_congr_right fun inTree => not_congr ⟨fun same => ?_, fun joinsM => ?_⟩
      · rw [owned_same_id owned as inTree member same]
        exact joins
      · rw [joins_right_unique tidy inTree member joinsM joins]
    · have adjacent := joins.1
      unfold Region.limit at *
      dsimp only
      omega

theorem region_insert_spec : ∃ s' whole, regionInsert as region s = (s', whole) ∧ Quiet as s s' ∧ Owned s' held ∧
    Joined (s.space as).regions region whole (s'.space as).regions := by
  obtain ⟨s', grown, run, quiet, owned', grew⟩ := merge_right_spec tidy placed clear owned
  have grownPlaced := grown_placed tidy placed grew
  have grownClear := grown_clear tidy placed grew clear
  obtain ⟨inserted, insertedEq⟩ : ∃ t, t = s'.setRegions as (rbInsert grown (s'.space as).regions) := ⟨_, rfl⟩
  have insertedMem : ∀ m, m ∈ (inserted.space as).regions ↔ m = grown ∨ m ∈ (s'.space as).regions := by
    intro m
    rw [insertedEq, set_regions_regions, rb_insert_mem]
  have insertedQuiet : Quiet as s inserted := quiet_trans quiet (insertedEq ▸ quiet_set_regions as s' _)
  have insertedTidy : Tidy (inserted.space as) := by
    have start := insertedQuiet.frame.start
    have limit := insertedQuiet.frame.limit
    refine tidy_adjoin tidy start limit grown grownPlaced ?_ ?_
    · intro m member
      rcases (insertedMem m).mp member with rfl | old
      · exact .inr rfl
      · exact .inl ((grew.mem m).mp old).1
    · intro m member different
      exact grownClear m (((insertedMem m).mp member).resolve_left different)
  have insertedOwned : Owned inserted held := insertedEq ▸ owned_insert as grown owned'
  have memberGrown : grown ∈ (inserted.space as).regions := (insertedMem grown).mpr (.inl rfl)
  have unfolded : regionInsert as region s = mergeLeft as grown inserted := by
    rw [regionInsert, run, insertedEq]
  have nonempty := placed.nonempty
  rw [unfolded]
  rcases merge_left_cases insertedTidy memberGrown with ⟨done, alone⟩ | ⟨left, memberL, joinsL, done⟩
  · refine ⟨_, _, done, insertedQuiet, insertedOwned, joined_of_alone grew insertedMem ?_⟩
    intro m member joins
    -- A region on the left is not the one that was taken in on the right.
    have notRight : ¬ Joins region m := by
      intro joinsRight
      have first := joins.1
      have second := joinsRight.1
      have nonemptyM := (tidy.placed m member).nonempty
      unfold Region.limit at *
      omega
    exact alone m ((insertedMem m).mpr (.inr ((grew.mem m).mpr ⟨member, notRight⟩))) ((grown_joins grew m).mpr joins)
  · have differs : left ≠ grown := by
      rintro rfl
      have adjacent := joinsL.1
      have positive := grownPlaced.nonempty
      unfold Region.limit at adjacent
      omega
    have old := ((insertedMem left).mp memberL).resolve_left differs
    have resized := owned_set_length as left.id (left.length + grown.length) insertedOwned
    have member : grown ∈ ((inserted.setRegions as (setLength left.id (left.length + grown.length)
        (inserted.space as).regions)).space as).regions := by
      rw [set_regions_regions, set_length_mem]
      exact .inl ⟨memberGrown, fun same => differs (owned_same_id insertedOwned as memberGrown memberL same).symm⟩
    refine ⟨_, _, done, quiet_trans insertedQuiet (quiet_trans (quiet_set_regions as _ _) (quiet_free as _ grown.id)), ?_,
      joined_of_left tidy grew old ((grown_joins grew left).mp joinsL) fun m => ?_⟩
    · simpa only [set_regions_set_regions, set_regions_regions] using owned_drop as grown member resized
    · rw [region_free_space, set_regions_regions, resized_mem insertedOwned memberL memberGrown differs, insertedMem]
      apply or_congr_left
      constructor
      · rintro ⟨isGrown | inTree, notGrown, notLeft⟩
        · exact absurd isGrown notGrown
        · exact ⟨inTree, notLeft⟩
      · rintro ⟨inTree, notLeft⟩
        refine ⟨.inr inTree, ?_, notLeft⟩
        -- The structure of the region was not in the tree.
        rintro rfl
        exact owned'.linked as m inTree (List.mem_append_left _ List.mem_cons_self)

end Insert

end Elysium.Vm
