import Elysium.VmCarve

set_option autoImplicit false

namespace Elysium.Vm

-- A refill in the middle of a call on the global space. What the call reads
-- afterwards is the refilled tree.
section Refill

variable {s t : State} {hole : Nat} {whole : Region} (dry : s.cache = []) (run : refillCache s = .ok t)
  (refilled : Refilled s [] t hole whole)

theorem refilled_supply (n : Nat) (small : n < regionsPerPage) (as : SpaceId) (refilled : Refilled s [] t hole whole) :
    Supply n t as := .inl (Nat.le_trans (Nat.le_sub_one_of_lt small) refilled.cache)

include dry run refilled

theorem region_alloc_after_refill : regionAlloc s = regionAlloc t := by
  obtain ⟨id, rest, cache, alloc⟩ := region_alloc_refilled dry run refilled
  rw [alloc, region_alloc_cached cache]

theorem clone_after_refill (as : SpaceId) (base length source : Nat) :
    cloneTo as base length source s = cloneTo as base length source t := by
  rw [cloneTo, cloneTo, region_alloc_after_refill dry run refilled]

theorem insert_clone_after_refill (as : SpaceId) (base length source : Nat) :
    insertClone as base length source s = insertClone as base length source t := by
  rw [insertClone, insertClone, clone_after_refill dry run refilled]

end Refill

section Position

variable {s t : State} {hole : Nat} {whole split : Region} (owned : Owned s []) (tidy : Tidy (s.space .global))
  (refilled : Refilled s [] t hole whole) (member : split ∈ (s.space .global).regions)

include refilled member

-- A region the pool page does not join stays as it is.
theorem refilled_keeps (right : ¬ Joins (poolRegion s.nextRegion hole) split)
    (left : ¬ Joins split (poolRegion s.nextRegion hole)) : split ∈ (t.space .global).regions :=
  (refilled.joined.mem split).mpr (.inl ⟨member, right, left⟩)

include tidy

-- A region that ends at the pool page takes it in.
theorem refilled_absorbs (left : Joins split (poolRegion s.nextRegion hole)) :
    whole ∈ (t.space .global).regions ∧ whole = { split with length := whole.length } := by
  refine ⟨(refilled.joined.mem whole).mpr (.inr rfl), ?_⟩
  rcases refilled.joined.origin with ⟨alone, _⟩ | ⟨l, memberL, joins, same⟩
  · exact absurd left (alone split member)
  · rw [joins_left_unique tidy memberL member joins left] at same
    exact same

include owned

-- A region that starts behind the pool page is gone from the tree.
theorem refilled_swallows (right : Joins (poolRegion s.nextRegion hole) split) :
    ∀ m ∈ (t.space .global).regions, m.id ≠ split.id := by
  intro m inTree same
  rcases (refilled.joined.mem m).mp inTree with ⟨old, notRight, _⟩ | rfl
  · rw [owned_same_id owned .global old member same] at notRight
    exact notRight right
  · rcases refilled.joined.origin with ⟨_, origin⟩ | ⟨l, memberL, joins, origin⟩
    · have id : m.id = s.nextRegion := by rw [origin]; rfl
      have bound := owned.linkedBound .global split member
      omega
    · have id : l.id = split.id := by rw [← same, origin]
      rw [owned_same_id owned .global memberL member id] at joins
      have first := joins.1
      have second := right.1
      have nonempty := (tidy.placed split member).nonempty
      unfold Region.limit at first second
      omega

theorem swallowed_clone (dry : s.cache = []) (run : refillCache s = .ok t)
    (right : Joins (poolRegion s.nextRegion hole) split) (base length : Nat) :
    cloneTo .global base length split.id s = .error .stale := by
  obtain ⟨id, rest, cache, alloc⟩ := region_alloc_refilled dry run refilled
  have gone := refilled_swallows owned tidy refilled member right
  have missing : getRegion .global split.id { t with cache := rest } = .error .stale := by
    unfold getRegion
    have none : (t.space .global).regions.find? (fun region => region.id = split.id) = none :=
      List.find?_eq_none.mpr fun m inTree => by simpa using gone m inTree
    dsimp only
    rw [none]
  rw [cloneTo, alloc, bind_ok]
  dsimp only
  rw [missing]
  rfl

end Position

-- Cutting a segment out of a region that has just taken in the pool page: the
-- length of the remainder was computed before the region grew.
theorem absorbed_carve {s t : State} {hole : Nat} {whole split : Region} (owned : Owned s []) (tidy : Tidy (s.space .global))
    (dry : s.cache = []) (run : refillCache s = .ok t) (refilled : Refilled s [] t hole whole)
    (member : split ∈ (s.space .global).regions) (left : Joins split (poolRegion s.nextRegion hole)) {address length : Nat}
    (low : split.base ≤ address) (tail : address + length < split.limit) :
    (CloneFits (address + length) split ∧ ∃ u id, carveFirst .global split.id address length s = .ok u ∧
        Owned u [] ∧ Local .global s u ∧ ∀ m, m ∈ (u.space .global).regions ↔ (m ∈ (t.space .global).regions ∧ m ≠ whole) ∨
          (split.base < address ∧ m = { split with length := address - split.base }) ∨
          m = cloneOf id (address + length) (split.limit - (address + length)) split) ∨
      (¬ CloneFits (address + length) split ∧ carveFirst .global split.id address length s = .error .assertion) := by
  obtain ⟨memberW, grown⟩ := refilled_absorbs tidy refilled member left
  have sameId : whole.id = split.id := by rw [grown]
  have sameBase : whole.base = split.base := by rw [grown]
  have fitsIff : CloneFits (address + length) whole ↔ CloneFits (address + length) split := by rw [grown]; exact Iff.rfl
  have fits := region_fits tidy member
  have supply : Supply (0 + 1) t .global := refilled_supply 1 (by decide) .global refilled
  have unfolded : carveFirst .global split.id address length s =
      insertClone .global (address + length) (split.limit - (address + length)) whole.id t >>=
        trimSplit .global whole.id address := by
    rw [carve_first_eq tidy owned member (Nat.le_of_lt tail), if_pos tail, insert_clone_after_refill dry run refilled, sameId]
  rw [unfolded, insertClone]
  rcases clone_spec refilled.owned (by decide) supply memberW (address + length) (split.limit - (address + length))
    (by omega) with ⟨fitting, t', id, cloned, ownedT, space, aside, _⟩ | ⟨fails, cloned⟩
  · refine .inl ⟨fitsIff.mp fitting, ?_⟩
    have sameClone : cloneOf id (address + length) (split.limit - (address + length)) whole =
        cloneOf id (address + length) (split.limit - (address + length)) split := by rw [grown]; rfl
    rw [sameClone] at cloned
    generalize cloneEq : cloneOf id (address + length) (split.limit - (address + length)) split = clone at cloned
    have cloneId : clone.id = id := cloneEq ▸ rfl
    obtain ⟨u, inserted⟩ : ∃ u, u = t'.setRegions .global (rbInsert clone (t'.space .global).regions) := ⟨_, rfl⟩
    have regions : (u.space .global).regions = rbInsert clone (t.space .global).regions := by
      rw [inserted, set_regions_regions, space]
    have ownedU : Owned u [] := by
      rw [inserted]
      exact owned_insert .global clone (cloneId.symm ▸ ownedT)
    have asideU : Local .global s u :=
      local_trans (frame_local refilled.frame) (local_trans aside.toLocal (inserted ▸ frame_local (frame_set_regions .global t' _)))
    have memberU : whole ∈ (u.space .global).regions := by
      rw [regions, rb_insert_mem]
      exact .inr memberW
    have notClone : clone ≠ whole := by
      intro same
      refine ownedT.linked .global whole (space ▸ memberW) ?_
      rw [← same, cloneId]
      exact List.mem_append_left _ List.mem_cons_self
    have others : ∀ m, (m ∈ (u.space .global).regions ∧ m ≠ whole) ↔
        (m ∈ (t.space .global).regions ∧ m ≠ whole) ∨ m = clone := by
      intro m
      rw [regions, rb_insert_mem]
      constructor
      · rintro ⟨rfl | old, different⟩
        · exact .inr rfl
        · exact .inl ⟨old, different⟩
      · rintro (⟨old, different⟩ | rfl)
        · exact ⟨.inr old, different⟩
        · exact ⟨.inl rfl, notClone⟩
    rw [cloned, bind_ok]
    dsimp only
    rw [← inserted, bind_ok, trimSplit, get_region_member ownedU memberU, bind_ok, sameBase]
    by_cases front : address > split.base
    · rw [if_pos front, sub64_eq low (by omega)]
      refine ⟨_, id, rfl, owned_set_length .global _ _ ownedU, local_trans asideU (frame_local (frame_set_regions .global u _)),
        fun m => ?_⟩
      rw [set_regions_regions, shorten_mem ownedU memberU, others]
      have shortened : { whole with length := address - split.base } = { split with length := address - split.base } := by
        rw [grown]
      rw [shortened, cloneEq]
      constructor
      · rintro ((old | same) | short)
        · exact .inl old
        · exact .inr (.inr same)
        · exact .inr (.inl ⟨front, short⟩)
      · rintro (old | ⟨_, short⟩ | same)
        · exact .inl (.inl old)
        · exact .inr short
        · exact .inl (.inr same)
    · rw [if_neg front, drop_region_member ownedU memberU]
      refine ⟨_, id, rfl, owned_drop .global whole memberU ownedU, local_trans asideU
        (local_trans (frame_local (frame_set_regions .global u _)) (frame_local (frame_of_space rfl))), fun m => ?_⟩
      rw [region_free_space, set_regions_regions, remove_mem ownedU memberU, others, cloneEq]
      constructor
      · rintro (old | same)
        · exact .inl old
        · exact .inr (.inr same)
      · rintro (old | ⟨before, _⟩ | same)
        · exact .inl old
        · exact absurd before front
        · exact .inr same
  · refine .inr ⟨fun fitting => fails (fitsIff.mpr fitting), ?_⟩
    rw [cloned]
    rfl

end Elysium.Vm
