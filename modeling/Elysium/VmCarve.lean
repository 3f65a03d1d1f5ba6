import Elysium.VmPool

set_option autoImplicit false

namespace Elysium.Vm

-- The assertion of clone_to, for a clone at `base`.
def CloneFits (base : Nat) (source : Region) : Prop :=
  match source.backing with
  | .anon _ => True
  | .direct physicalAddress =>
      if base > source.base then 2 ^ 64 - 1 - physicalAddress > base - source.base
      else physicalAddress > source.base - base

instance (base : Nat) (source : Region) : Decidable (CloneFits base source) := by
  unfold CloneFits
  cases source.backing <;> infer_instance

def cloneOf (id base length : Nat) (source : Region) : Region :=
  { source with toAttributes := source.toAttributes.shift (base - source.base), id := id, base := base, length := length }

theorem clone_backing_fits {base : Nat} {source : Region} (above : source.base ≤ base) (fits : CloneFits base source) :
    cloneBacking base source = .ok (source.backing.shift (base - source.base)) := by
  unfold CloneFits at fits
  unfold cloneBacking
  cases backing : source.backing with
  | anon backZeroed => rfl
  | direct physicalAddress =>
      simp only [backing] at fits ⊢
      by_cases later : base > source.base
      · rw [if_pos later] at fits ⊢
        simp only [assertThat, decide_eq_true fits, if_true, bind_ok, Backing.shift]
      · rw [if_neg later] at fits ⊢
        simp only [assertThat, decide_eq_true fits, if_true, bind_ok, Backing.shift]
        congr 2
        omega

theorem clone_backing_fails {base : Nat} {source : Region} (fails : ¬ CloneFits base source) :
    cloneBacking base source = .error .assertion := by
  unfold CloneFits at fails
  unfold cloneBacking
  cases backing : source.backing with
  | anon backZeroed => simp [backing] at fails
  | direct physicalAddress =>
      simp only [backing] at fails ⊢
      by_cases later : base > source.base
      · rw [if_pos later] at fails ⊢
        simp only [assertThat, fails, decide_false]
        rfl
      · rw [if_neg later] at fails ⊢
        simp only [assertThat, fails, decide_false]
        rfl

section Clone

variable {s : State} {as : SpaceId} {held : List Nat} {n : Nat}

theorem get_region_member (owned : Owned s held) {r : Region} (member : r ∈ (s.space as).regions) :
    getRegion as r.id s = .ok r := by
  unfold getRegion
  cases found : (s.space as).regions.find? fun region => region.id = r.id with
  | none =>
      have missing := List.find?_eq_none.mp found r member
      simp at missing
  | some q =>
      have same : q.id = r.id := by simpa using List.find?_some found
      rw [owned_same_id owned as (List.mem_of_find?_eq_some found) member same]

theorem drop_region_member (owned : Owned s held) {r : Region} (member : r ∈ (s.space as).regions) :
    dropRegion as r.id s = .ok ((s.setRegions as (rbRemove r.id (s.space as).regions)).regionFree r.id) := by
  rw [dropRegion, get_region_member owned member, bind_ok]

-- clone_to once region_alloc has handed out a structure.
theorem clone_to_fits {t : State} {id base length : Nat} {source : Region} (alloc : regionAlloc s = .ok (t, id))
    (read : getRegion as source.id t = .ok source) (above : source.base ≤ base) (fits : CloneFits base source) :
    cloneTo as base length source.id s = .ok (t, cloneOf id base length source) := by
  rw [cloneTo, alloc, bind_ok]
  dsimp only
  rw [read, bind_ok, clone_backing_fits above fits, bind_ok]
  rfl

theorem clone_to_fails {t : State} {id base length : Nat} {source : Region} (alloc : regionAlloc s = .ok (t, id))
    (read : getRegion as source.id t = .ok source) (fails : ¬ CloneFits base source) :
    cloneTo as base length source.id s = .error .assertion := by
  rw [cloneTo, alloc, bind_ok]
  dsimp only
  rw [read, bind_ok, clone_backing_fails fails]
  rfl

-- clone_to on a tree the pool does not touch: a clone, or a failed assertion.
theorem clone_spec (owned : Owned s held) (small : n < regionsPerPage - 1) (supply : Supply (n + 1) s as)
    {source : Region} (member : source ∈ (s.space as).regions) (base length : Nat) (above : source.base ≤ base) :
    (CloneFits base source ∧ ∃ t id, cloneTo as base length source.id s = .ok (t, cloneOf id base length source) ∧
        Owned t (id :: held) ∧ t.space as = s.space as ∧ Steady as s t ∧ Supply n t as) ∨
      (¬ CloneFits base source ∧ cloneTo as base length source.id s = .error .assertion) := by
  obtain ⟨t, id, alloc, owned', space, aside, supply'⟩ := region_alloc_supplied owned small supply
  have read : getRegion as source.id t = .ok source := get_region_member owned' (space ▸ member)
  by_cases fits : CloneFits base source
  · exact .inl ⟨fits, t, id, clone_to_fits alloc read above fits, owned', space, aside, supply'⟩
  · exact .inr ⟨fits, clone_to_fails alloc read fits⟩

end Clone

-- The tree after the segment [b, b + n) is cut out of one region: the part before
-- it keeps the structure, the part behind it is a clone.
structure Carved (regions : List Region) (split : Region) (b n id : Nat) (result : List Region) : Prop where
  mem : ∀ m, m ∈ result ↔ (m ∈ regions ∧ m ≠ split) ∨
    (split.base < b ∧ m = { split with length := b - split.base }) ∨
    (b + n < split.limit ∧ m = cloneOf id (b + n) (split.limit - (b + n)) split)

section Carve

variable {s : State} {as : SpaceId} {held : List Nat} {split : Region} {b n : Nat}

-- The part behind the segment.
theorem carve_tail_spec (owned : Owned s held) (supply : b + n < split.limit → Supply 1 s as)
    (member : split ∈ (s.space as).regions) (low : split.base ≤ b) :
    (∃ t id, (if split.limit > b + n then insertClone as (b + n) (split.limit - (b + n)) split.id s else .ok s) = .ok t ∧
        Owned t held ∧ Steady as s t ∧ (b + n < split.limit → ∀ m ∈ (s.space as).regions, m.id ≠ id) ∧
        (∀ m, m ∈ (t.space as).regions ↔ m ∈ (s.space as).regions ∨
          (b + n < split.limit ∧ m = cloneOf id (b + n) (split.limit - (b + n)) split)) ∧
        (split.limit ≤ b + n → t = s)) ∨
      (b + n < split.limit ∧ ¬ CloneFits (b + n) split ∧
        (if split.limit > b + n then insertClone as (b + n) (split.limit - (b + n)) split.id s else .ok s) =
          .error .assertion) := by
  by_cases tail : split.limit > b + n
  · rw [if_pos tail]
    rcases clone_spec owned (by decide) (supply tail) member (b + n) (split.limit - (b + n)) (by omega) with
      ⟨_, t, id, run, owned', space, aside, _⟩ | ⟨fails, run⟩
    · refine .inl ⟨t.setRegions as (rbInsert (cloneOf id (b + n) (split.limit - (b + n)) split) (t.space as).regions), id,
        ?_, owned_insert as _ owned', ?_, ?_, ?_, fun none => ?_⟩
      · rw [insertClone, run, bind_ok]
      · exact steady_trans aside (quiet_steady (quiet_set_regions as t _))
      · intro _ m inTree same
        refine owned'.linked as m (space ▸ inTree) ?_
        rw [same]
        exact List.mem_append_left _ List.mem_cons_self
      · intro m
        rw [set_regions_regions, rb_insert_mem, space, or_comm]
        exact or_congr Iff.rfl ⟨fun same => ⟨tail, same⟩, fun both => both.2⟩
      · omega
    · exact .inr ⟨tail, fails, by rw [insertClone, run]; rfl⟩
  · rw [if_neg tail]
    refine .inl ⟨s, 0, rfl, owned, steady_refl as s, fun above => absurd above tail, fun m => ?_, fun _ => rfl⟩
    exact ⟨.inl, fun either => either.resolve_right fun both => tail both.1⟩

-- The part before the segment.
theorem shorten_mem (owned : Owned s held) (member : split ∈ (s.space as).regions) (length : Nat) (m : Region) :
    m ∈ setLength split.id length (s.space as).regions ↔
      (m ∈ (s.space as).regions ∧ m ≠ split) ∨ m = { split with length := length } := by
  rw [set_length_mem]
  refine or_congr (and_congr_right fun inTree => not_congr ?_) ?_
  · exact ⟨fun same => owned_same_id owned as inTree member same, fun same => same ▸ rfl⟩
  · constructor
    · rintro ⟨r, inTree, same, rfl⟩
      rw [owned_same_id owned as inTree member same]
    · rintro rfl
      exact ⟨split, member, rfl, rfl⟩

theorem remove_mem (owned : Owned s held) (member : split ∈ (s.space as).regions) (m : Region) :
    m ∈ rbRemove split.id (s.space as).regions ↔ m ∈ (s.space as).regions ∧ m ≠ split := by
  rw [rb_remove_mem]
  refine and_congr_right fun inTree => not_congr ?_
  exact ⟨fun same => owned_same_id owned as inTree member same, fun same => same ▸ rfl⟩

theorem clone_ne {id base length : Nat} (fresh : split.id ≠ id) : cloneOf id base length split ≠ split := fun same =>
  fresh (congrArg Region.id same).symm

variable (tidy : Tidy (s.space as)) (owned : Owned s held) (supply : b + n < split.limit → Supply 1 s as)
  (member : split ∈ (s.space as).regions) (low : split.base ≤ b) (high : b + n ≤ split.limit)

include tidy owned member high

theorem carve_first_eq : carveFirst as split.id b n s =
    (if split.limit > b + n then insertClone as (b + n) (split.limit - (b + n)) split.id s else .ok s) >>=
      trimSplit as split.id b := by
  have fits := region_fits tidy member
  rw [carveFirst, get_region_member owned member, bind_ok, region_end tidy member, add64_eq (by omega)]
  by_cases tail : split.limit > b + n
  · rw [if_pos tail, if_pos tail, sub64_eq (by omega) fits]
  · rw [if_neg tail, if_neg tail]

include supply low

theorem carve_first_spec :
    (∃ t id, carveFirst as split.id b n s = .ok t ∧ Carved (s.space as).regions split b n id (t.space as).regions ∧
        Owned t held ∧ Steady as s t ∧ (b + n < split.limit → ∀ m ∈ (s.space as).regions, m.id ≠ id) ∧
        (split.limit ≤ b + n → ∀ j, Supply j s as → Supply j t as ∧ (b = split.base → Supply (j + 1) t as))) ∨
      (b + n < split.limit ∧ ¬ CloneFits (b + n) split ∧ carveFirst as split.id b n s = .error .assertion) := by
  have fits := region_fits tidy member
  rw [carve_first_eq tidy owned member high]
  rcases carve_tail_spec owned supply member low with
    ⟨t, id, run, ownedT, aside, fresh, mem, same⟩ | ⟨tail, fails, run⟩
  · refine .inl ?_
    have memberT : split ∈ (t.space as).regions := (mem split).mpr (.inl member)
    rw [run, bind_ok, trimSplit, get_region_member ownedT memberT, bind_ok]
    have others : ∀ m, (m ∈ (t.space as).regions ∧ m ≠ split) ↔ (m ∈ (s.space as).regions ∧ m ≠ split) ∨
        (b + n < split.limit ∧ m = cloneOf id (b + n) (split.limit - (b + n)) split) := by
      intro m
      rw [mem]
      constructor
      · rintro ⟨old | clone, different⟩
        · exact .inl ⟨old, different⟩
        · exact .inr clone
      · rintro (⟨old, different⟩ | ⟨tail, rfl⟩)
        · exact ⟨.inl old, different⟩
        · exact ⟨.inr ⟨tail, rfl⟩, clone_ne (fresh tail split member)⟩
    by_cases front : b > split.base
    · rw [if_pos front, sub64_eq low (by omega)]
      refine ⟨_, id, rfl, ⟨fun m => ?_⟩, owned_set_length as _ _ ownedT,
        steady_trans aside (quiet_steady (quiet_set_regions as t _)), fresh, fun none j supplied => ?_⟩
      · rw [set_regions_regions, shorten_mem ownedT memberT, others]
        constructor
        · rintro ((old | clone) | short)
          · exact .inl old
          · exact .inr (.inr clone)
          · exact .inr (.inl ⟨front, short⟩)
        · rintro (old | ⟨_, short⟩ | clone)
          · exact .inl (.inl old)
          · exact .inr short
          · exact .inl (.inr clone)
      · rw [← same none] at supplied
        exact ⟨supply_quiet (quiet_set_regions as t _) supplied, fun start => absurd front (by omega)⟩
    · rw [if_neg front, drop_region_member ownedT memberT]
      refine ⟨_, id, rfl, ⟨fun m => ?_⟩, owned_drop as split memberT ownedT,
        steady_trans aside (steady_trans (quiet_steady (quiet_set_regions as t _)) (quiet_steady (quiet_free as _ _))), fresh,
        fun none j supplied => ?_⟩
      · rw [region_free_space, set_regions_regions, remove_mem ownedT memberT, others]
        constructor
        · rintro (old | clone)
          · exact .inl old
          · exact .inr (.inr clone)
        · rintro (old | ⟨before, _⟩ | clone)
          · exact .inl old
          · exact absurd before front
          · exact .inr clone
      · rw [← same none] at supplied
        have quiet := quiet_set_regions as t (rbRemove split.id (t.space as).regions)
        have freed := supply_free split.id (supply_quiet quiet supplied)
        exact ⟨supply_mono (Nat.le_succ _) freed, fun _ => freed⟩
  · exact .inr ⟨tail, fails, by rw [run]; rfl⟩

-- A region cut at its start loses its structure in both places.
theorem carve_next_eq (start : b = split.base) : carveNext as split.id b n s = carveFirst as split.id b n s := by
  have fits := region_fits tidy member
  have sum : add64 b n = b + n := add64_eq (by omega)
  have unfolded : carveNext as split.id b n s =
      (if split.limit > b + n then insertClone as (b + n) (split.limit - (b + n)) split.id s else .ok s) >>=
        dropRegion as split.id := by
    rw [carveNext, get_region_member owned member, bind_ok, sum]
    have length : split.limit = b + split.length := by rw [start, Region.limit]
    by_cases tail : split.length > n
    · rw [if_pos tail, if_pos (by omega), sub64_eq (by omega) (by omega), length, Nat.add_sub_add_left]
    · rw [if_neg tail, if_neg (by omega)]
  rw [unfolded, carve_first_eq tidy owned member high]
  rcases carve_tail_spec owned supply member low with ⟨t, id, run, ownedT, _, _, mem, _⟩ | ⟨_, _, run⟩
  · have memberT : split ∈ (t.space as).regions := (mem split).mpr (.inl member)
    rw [run, bind_ok, bind_ok, trimSplit, get_region_member ownedT memberT, bind_ok, if_neg (by omega)]
  · rw [run]
    rfl

end Carve

theorem clone_at (id base length : Nat) (source : Region) {a : Nat} (above : source.base ≤ base) (inside : base ≤ a) :
    (cloneOf id base length source).at a = source.at a := by
  show (source.toAttributes.shift (base - source.base)).shift (a - base) = source.toAttributes.shift (a - source.base)
  rw [shift_shift]
  congr 1
  omega

section Carved

variable {space : AddressSpace} {split : Region} {b n id : Nat} {result : List Region} (tidy : Tidy space)
  (member : split ∈ space.regions) (low : split.base ≤ b) (high : b + n ≤ split.limit)
  (carved : Carved space.regions split b n id result)

include low high carved

-- Every region of the carved tree lies in a region of the old one, beside the segment.
theorem carved_within {m : Region} (inResult : m ∈ result) :
    (m ∈ space.regions ∧ m ≠ split) ∨ (split.base ≤ m.base ∧ m.limit ≤ split.limit ∧ (m.limit = b ∨ m.base = b + n)) := by
  rcases (carved.mem m).mp inResult with old | ⟨front, rfl⟩ | ⟨tail, rfl⟩
  · exact .inl old
  · refine .inr ⟨Nat.le_refl _, ?_, .inl ?_⟩
    · show split.base + (b - split.base) ≤ split.limit
      omega
    · show split.base + (b - split.base) = b
      omega
  · refine .inr ⟨?_, ?_, .inr rfl⟩
    · show split.base ≤ b + n
      omega
    · show b + n + (split.limit - (b + n)) ≤ split.limit
      omega

include tidy member

theorem carved_maps (a : Nat) (v : Attributes) : Maps result a v ↔ Maps space.regions a v ∧ ¬ (b ≤ a ∧ a < b + n) := by
  constructor
  · rintro ⟨m, inResult, covers, rfl⟩
    rcases (carved.mem m).mp inResult with ⟨old, different⟩ | ⟨front, rfl⟩ | ⟨tail, rfl⟩
    · refine ⟨⟨m, old, covers, rfl⟩, fun inside => different ?_⟩
      have splitCovers : split.Covers a := ⟨by omega, by omega⟩
      exact covering_unique tidy old member covers splitCovers
    · obtain ⟨above, below⟩ := covers
      simp only [Region.limit] at above below high
      exact ⟨⟨split, member, ⟨above, by unfold Region.limit; omega⟩, rfl⟩, by omega⟩
    · obtain ⟨above, below⟩ := covers
      have limit : (cloneOf id (b + n) (split.limit - (b + n)) split).limit = split.limit := by
        show b + n + (split.limit - (b + n)) = split.limit
        omega
      rw [limit] at below
      have start : b + n ≤ a := above
      refine ⟨⟨split, member, ⟨by omega, below⟩, ?_⟩, by omega⟩
      exact clone_at id (b + n) _ split (by omega) start
  · rintro ⟨⟨m, inTree, covers, rfl⟩, outside⟩
    by_cases same : m = split
    · subst same
      by_cases before : a < b
      · refine ⟨{ m with length := b - m.base }, (carved.mem _).mpr (.inr (.inl ⟨?_, rfl⟩)), ⟨covers.1, ?_⟩, rfl⟩
        · exact Nat.lt_of_le_of_lt covers.1 before
        · have start := covers.1
          show a < m.base + (b - m.base)
          omega
      · have reach := covers.2
        have behind : b + n ≤ a := by omega
        refine ⟨cloneOf id (b + n) (m.limit - (b + n)) m, (carved.mem _).mpr (.inr (.inr ⟨by omega, rfl⟩)), ⟨behind, ?_⟩, ?_⟩
        · show a < b + n + (m.limit - (b + n))
          omega
        · exact (clone_at id (b + n) _ m (by omega) behind).symm
    · exact ⟨m, (carved.mem m).mpr (.inl ⟨inTree, same⟩), covers, rfl⟩

theorem carved_clear {region : Region} (base : region.base = b) (length : region.length = n) :
    ∀ m ∈ result, Apart region m := by
  intro m inResult
  have limit : region.limit = b + n := by rw [Region.limit, base, length]
  rcases carved_within low high carved inResult with ⟨old, different⟩ | ⟨start, stop, edge⟩
  · have apart := tidy.apart m old split member different
    unfold Apart at *
    omega
  · unfold Apart
    omega

theorem carved_tidy {space' : AddressSpace} (start : space'.start = space.start) (limit : space'.limit = space.limit)
    (regions : space'.regions = result) (baseAligned : b % pageGranularity = 0) (lengthAligned : n % pageGranularity = 0) :
    Tidy space' := by
  have placed := tidy.placed split member
  have granularity : pageGranularity = 4096 := rfl
  refine ⟨limit ▸ tidy.fits, fun m inTree => ?_, fun x inX y inY different => ?_⟩
  · rw [regions] at inTree
    have moved : Placed space m → Placed space' m := fun old =>
      ⟨old.nonempty, old.baseAligned, old.lengthAligned, start ▸ old.above, limit ▸ old.below⟩
    obtain ⟨nonempty, splitBase, splitLength, above, below⟩ := placed
    rw [granularity] at baseAligned lengthAligned splitBase splitLength
    rcases (carved.mem m).mp inTree with ⟨old, _⟩ | ⟨front, rfl⟩ | ⟨tail, rfl⟩
    · exact moved (tidy.placed m old)
    · refine moved ⟨?_, splitBase, ?_, above, ?_⟩
      · show 0 < b - split.base
        omega
      · show (b - split.base) % 4096 = 0
        omega
      · show split.base + (b - split.base) ≤ space.limit
        unfold Region.limit at *
        omega
    · refine moved ⟨?_, ?_, ?_, ?_, ?_⟩
      · show 0 < split.limit - (b + n)
        omega
      · show (b + n) % 4096 = 0
        omega
      · show (split.limit - (b + n)) % 4096 = 0
        unfold Region.limit at *
        omega
      · show space.start ≤ b + n
        omega
      · show b + n + (split.limit - (b + n)) ≤ space.limit
        omega
  · rw [regions] at inX inY
    have beside : ∀ x y, x ∈ space.regions → x ≠ split → split.base ≤ y.base → y.limit ≤ split.limit → Apart x y := by
      intro x y old notSplit from_base to_limit
      have apart := tidy.apart x old split member notSplit
      unfold Apart at *
      omega
    have front : Region.limit { split with length := b - split.base } = b := by
      show split.base + (b - split.base) = b
      omega
    have back : (cloneOf id (b + n) (split.limit - (b + n)) split).limit ≤ split.limit := by
      show b + n + (split.limit - (b + n)) ≤ split.limit
      omega
    have backBase : (cloneOf id (b + n) (split.limit - (b + n)) split).base = b + n := rfl
    rcases (carved.mem x).mp inX with ⟨oldX, notX⟩ | ⟨_, rfl⟩ | ⟨_, rfl⟩
    · rcases (carved.mem y).mp inY with ⟨oldY, _⟩ | ⟨_, rfl⟩ | ⟨_, rfl⟩
      · exact tidy.apart x oldX y oldY different
      · exact beside x _ oldX notX (Nat.le_refl _) (by omega)
      · exact beside x _ oldX notX (by omega) back
    · rcases (carved.mem y).mp inY with ⟨oldY, notY⟩ | ⟨_, rfl⟩ | ⟨_, rfl⟩
      · exact apart_symm (beside y _ oldY notY (Nat.le_refl _) (by omega))
      · exact absurd rfl different
      · exact .inl (by omega)
    · rcases (carved.mem y).mp inY with ⟨oldY, notY⟩ | ⟨_, rfl⟩ | ⟨_, rfl⟩
      · exact apart_symm (beside y _ oldY notY (by omega) back)
      · exact .inr (by omega)
      · exact absurd rfl different

end Carved

end Elysium.Vm
