import Elysium.VmHole

set_option autoImplicit false

namespace Elysium.Vm

-- The attributes n bytes further on: only the physical address moves.
def Backing.shift : Backing → Nat → Backing
  | .anon backZeroed, _ => .anon backZeroed
  | .direct physicalAddress, n => .direct (physicalAddress + n)

def Attributes.shift (v : Attributes) (n : Nat) : Attributes := { v with backing := v.backing.shift n }

@[simp] theorem shift_protection (v : Attributes) (n : Nat) : (v.shift n).protection = v.protection := rfl
@[simp] theorem shift_cache (v : Attributes) (n : Nat) : (v.shift n).cacheBehavior = v.cacheBehavior := rfl
@[simp] theorem shift_dynamic (v : Attributes) (n : Nat) : (v.shift n).dynamicallyBacked = v.dynamicallyBacked := rfl

@[simp] theorem shift_zero (v : Attributes) : v.shift 0 = v := by
  obtain ⟨backing, protection, cache, dynamic⟩ := v
  cases backing <;> rfl

theorem shift_shift (v : Attributes) (m n : Nat) : (v.shift m).shift n = v.shift (m + n) := by
  obtain ⟨backing, protection, cache, dynamic⟩ := v
  cases backing with
  | anon backZeroed => rfl
  | direct physicalAddress => simp [Attributes.shift, Backing.shift, Nat.add_assoc]

def Region.at (r : Region) (a : Nat) : Attributes := r.toAttributes.shift (a - r.base)

-- The page map of a tree, byte by byte: address a carries the attributes v.
def Maps (regions : List Region) (a : Nat) (v : Attributes) : Prop := ∃ r ∈ regions, r.Covers a ∧ v = r.at a

def PhysicalRoom (r : Region) : Prop :=
  match r.backing with
  | .anon _ => True
  | .direct physicalAddress => physicalAddress < memPhysMax ∧ physicalAddress + r.length ≤ memPhysMax

def Joins (left right : Region) : Prop :=
  left.limit = right.base ∧ right.toAttributes = left.toAttributes.shift left.length ∧ PhysicalRoom left

theorem backing_mergeable_iff (left right : Region) :
    backingMergeable left right = true ↔ right.backing = left.backing.shift left.length ∧ PhysicalRoom left := by
  unfold backingMergeable PhysicalRoom
  cases left.backing with
  | anon leftZeroed =>
      cases right.backing with
      | anon rightZeroed => simp [Backing.shift, eq_comm]
      | direct rightAddress => simp [Backing.shift]
  | direct leftAddress =>
      cases right.backing with
      | anon rightZeroed => simp [Backing.shift]
      | direct rightAddress =>
          have fits : memPhysMax < 2 ^ 64 := by decide
          simp only [Backing.shift, decide_eq_true_eq, Backing.direct.injEq,
            segment_in_bounds_iff leftAddress left.length 0 memPhysMax fits]
          constructor
          · rintro ⟨⟨_, below, room⟩, next⟩
            rw [add64_eq (by omega)] at next
            exact ⟨next.symm, below, room⟩
          · rintro ⟨next, below, room⟩
            rw [add64_eq (by omega)]
            exact ⟨⟨Nat.zero_le _, below, room⟩, next.symm⟩

theorem mergeable_iff (left right : Region) (fits : left.limit < 2 ^ 64) :
    regionsMergeable left right = true ↔ Joins left right := by
  have limit : add64 left.base left.length = left.limit := add64_eq fits
  simp only [regionsMergeable, Bool.and_eq_true, decide_eq_true_eq, backing_mergeable_iff, limit, Joins]
  constructor
  · rintro ⟨⟨⟨⟨adjacent, protection⟩, cache⟩, dynamic⟩, backing, room⟩
    refine ⟨adjacent, ?_, room⟩
    obtain ⟨⟨backingR, protectionR, cacheR, dynamicR⟩, _, _, _, _⟩ := right
    simp_all [Attributes.shift]
  · rintro ⟨adjacent, attributes, room⟩
    rw [attributes]
    exact ⟨⟨⟨⟨adjacent, rfl⟩, rfl⟩, rfl⟩, rfl, room⟩

theorem joins_at {left right : Region} (joins : Joins left right) (a : Nat) (above : right.base ≤ a) :
    right.at a = left.at a := by
  obtain ⟨adjacent, attributes, _⟩ := joins
  rw [Region.at, Region.at, attributes, shift_shift]
  congr 1
  unfold Region.limit at adjacent
  omega

-- Physical memory reaches up to here.
def Attributes.InMemory (v : Attributes) : Prop :=
  match v.backing with
  | .anon _ => True
  | .direct physicalAddress => physicalAddress ≤ memPhysMax

-- What a non-empty region joins depends only on how it ends.
theorem joins_iff {left right : Region} (nonempty : 0 < left.length) :
    Joins left right ↔ left.limit = right.base ∧ right.toAttributes = left.at right.base ∧ right.toAttributes.InMemory := by
  unfold Joins
  refine and_congr_right fun adjacent => ?_
  have reach : left.at right.base = left.toAttributes.shift left.length := by
    rw [Region.at, ← adjacent, Region.limit, Nat.add_sub_cancel_left]
  rw [reach]
  refine and_congr_right fun same => ?_
  rw [same]
  unfold PhysicalRoom Attributes.InMemory Attributes.shift Backing.shift
  cases left.backing with
  | anon backZeroed => exact Iff.rfl
  | direct physicalAddress =>
      dsimp only
      omega

-- The result of region_insert: the region with its right and left neighbour
-- joined to it where they fit, in place of these.
structure Joined (regions : List Region) (region whole : Region) (result : List Region) : Prop where
  mem : ∀ m, m ∈ result ↔ (m ∈ regions ∧ ¬ Joins region m ∧ ¬ Joins m region) ∨ m = whole
  origin : ((∀ m ∈ regions, ¬ Joins m region) ∧ whole = { region with length := whole.length }) ∨
    ∃ l ∈ regions, Joins l region ∧ whole = { l with length := whole.length }
  right : ((∀ m ∈ regions, ¬ Joins region m) ∧ whole.limit = region.limit) ∨
    ∃ r ∈ regions, Joins region r ∧ whole.limit = r.limit

theorem Joined.left {regions : List Region} {region whole : Region} {result : List Region}
    (joined : Joined regions region whole result) :
    ((∀ m ∈ regions, ¬ Joins m region) ∧ whole.base = region.base ∧ whole.toAttributes = region.toAttributes) ∨
      ∃ l ∈ regions, Joins l region ∧ whole.base = l.base ∧ whole.toAttributes = l.toAttributes := by
  rcases joined.origin with ⟨alone, same⟩ | ⟨l, member, joins, same⟩
  · rw [same]
    exact .inl ⟨alone, rfl, rfl⟩
  · rw [same]
    exact .inr ⟨l, member, joins, rfl, rfl⟩

theorem tidy_subset {space space' : AddressSpace} (tidy : Tidy space) (start : space'.start = space.start)
    (limit : space'.limit = space.limit) (subset : ∀ m ∈ space'.regions, m ∈ space.regions) : Tidy space' := by
  refine ⟨limit ▸ tidy.fits, fun r member => ?_, fun a memberA b memberB => ?_⟩
  · obtain ⟨nonempty, baseAligned, lengthAligned, above, below⟩ := tidy.placed r (subset r member)
    exact ⟨nonempty, baseAligned, lengthAligned, start ▸ above, limit ▸ below⟩
  · exact tidy.apart a (subset a memberA) b (subset b memberB)

theorem tidy_adjoin {space space' : AddressSpace} (tidy : Tidy space) (start : space'.start = space.start)
    (limit : space'.limit = space.limit) (region : Region) (placed : Placed space region)
    (subset : ∀ m ∈ space'.regions, m ∈ space.regions ∨ m = region)
    (clear : ∀ m ∈ space'.regions, m ≠ region → Apart region m) : Tidy space' := by
  refine ⟨limit ▸ tidy.fits, fun r member => ?_, fun a memberA b memberB different => ?_⟩
  · have old : Placed space r := by
      rcases subset r member with old | rfl
      · exact tidy.placed r old
      · exact placed
    exact ⟨old.nonempty, old.baseAligned, old.lengthAligned, start ▸ old.above, limit ▸ old.below⟩
  · rcases subset a memberA with oldA | rfl
    · rcases subset b memberB with oldB | rfl
      · exact tidy.apart a oldA b oldB different
      · exact apart_symm (clear a memberA different)
    · exact clear b memberB (Ne.symm different)

theorem joins_congr_right {m region region' : Region} (base : region'.base = region.base)
    (attributes : region'.toAttributes = region.toAttributes) : Joins m region' ↔ Joins m region := by
  unfold Joins
  rw [base, attributes]

theorem joins_left_unique {space : AddressSpace} (tidy : Tidy space) {m left region : Region}
    (memberM : m ∈ space.regions) (memberL : left ∈ space.regions) (joinsM : Joins m region)
    (joinsL : Joins left region) : m = left := by
  have nonemptyM := (tidy.placed m memberM).nonempty
  have nonemptyL := (tidy.placed left memberL).nonempty
  have limitM := joinsM.1
  have limitL := joinsL.1
  refine covering_unique tidy memberM memberL (x := region.base - 1) ?_ ?_ <;>
    unfold Region.Covers Region.limit at * <;> omega

section Joined

variable {space : AddressSpace} {region whole : Region} {result : List Region} (tidy : Tidy space)
  (placed : Placed space region) (joined : Joined space.regions region whole result)

include joined

theorem joined_low : whole.base ≤ region.base := by
  rcases joined.left with ⟨_, same, _⟩ | ⟨l, member, joins, same, _⟩
  · exact Nat.le_of_eq same
  · rw [same, ← joins.1]
    exact Nat.le_add_right _ _

theorem joined_high : region.limit ≤ whole.limit := by
  rcases joined.right with ⟨_, same⟩ | ⟨r, member, joins, same⟩
  · exact Nat.le_of_eq same.symm
  · rw [same, joins.1]
    exact Nat.le_add_right _ _

-- From the start of the inserted region on, the whole carries its attributes.
theorem joined_at {a : Nat} (above : region.base ≤ a) : whole.at a = region.at a := by
  rcases joined.left with ⟨_, base, attributes⟩ | ⟨l, _, joins, base, attributes⟩
  · rw [Region.at, Region.at, base, attributes]
  · rw [joins_at joins a above, Region.at, Region.at, base, attributes]

theorem joined_same_settings : whole.protection = region.protection ∧ whole.cacheBehavior = region.cacheBehavior := by
  rcases joined.left with ⟨_, _, attributes⟩ | ⟨l, _, joins, _, attributes⟩
  · rw [attributes]
    exact ⟨rfl, rfl⟩
  · rw [attributes, joins.2.1]
    exact ⟨rfl, rfl⟩

-- Above the inserted region only a right neighbour that fits is gone.
theorem joined_above {m : Region} (above : region.base < m.base) :
    m ∈ result ↔ m ∈ space.regions ∧ ¬ Joins region m := by
  rw [joined.mem m]
  have low := joined_low joined
  constructor
  · rintro (⟨old, notRight, _⟩ | rfl)
    · exact ⟨old, notRight⟩
    · exact absurd above (by omega)
  · rintro ⟨old, notRight⟩
    refine .inl ⟨old, notRight, fun joins => ?_⟩
    have adjacent := joins.1
    unfold Region.limit at adjacent
    omega

include tidy

theorem joined_maps (a : Nat) (v : Attributes) :
    Maps result a v ↔ Maps space.regions a v ∨ (region.Covers a ∧ v = region.at a) := by
  have low := joined_low joined
  have high := joined_high joined
  constructor
  · rintro ⟨m, member, covers, rfl⟩
    rcases (joined.mem m).mp member with ⟨old, _, _⟩ | rfl
    · exact .inl ⟨m, old, covers, rfl⟩
    · by_cases before : a < region.base
      · -- Only a left neighbour reaches below the region.
        refine .inl ?_
        rcases joined.left with ⟨_, base, _⟩ | ⟨l, memberL, joins, base, attributes⟩
        · exact absurd covers.1 (by omega)
        · refine ⟨l, memberL, ⟨base ▸ covers.1, joins.1 ▸ before⟩, ?_⟩
          rw [Region.at, Region.at, base, attributes]
      · have above := Nat.le_of_not_lt before
        by_cases inside : a < region.limit
        · exact .inr ⟨⟨above, inside⟩, joined_at joined above⟩
        · refine .inl ?_
          rcases joined.right with ⟨_, same⟩ | ⟨r, memberR, joins, same⟩
          · exact absurd covers.2 (by omega)
          · have past : r.base ≤ a := joins.1 ▸ Nat.le_of_not_lt inside
            refine ⟨r, memberR, ⟨past, same ▸ covers.2⟩, ?_⟩
            rw [joined_at joined above, joins_at joins a past]
  · rintro (⟨m, member, covers, rfl⟩ | ⟨covers, rfl⟩)
    · by_cases right : Joins region m
      · have past : region.base ≤ a := by
          have adjacent := right.1
          have start := covers.1
          unfold Region.limit at adjacent
          omega
        refine ⟨whole, (joined.mem whole).mpr (.inr rfl), ⟨Nat.le_trans low past, ?_⟩, ?_⟩
        · rcases joined.right with ⟨none, _⟩ | ⟨r, memberR, joins, same⟩
          · exact absurd right (none m member)
          · rw [same, ← base_unique tidy member memberR (right.1.symm.trans joins.1)]
            exact covers.2
        · rw [joins_at right a covers.1, joined_at joined past]
      · by_cases left : Joins m region
        · rcases joined.left with ⟨none, _, _⟩ | ⟨l, memberL, joins, base, attributes⟩
          · exact absurd left (none m member)
          · obtain rfl := joins_left_unique tidy member memberL left joins
            refine ⟨whole, (joined.mem whole).mpr (.inr rfl), ⟨base ▸ covers.1, ?_⟩, ?_⟩
            · have reach := covers.2
              rw [left.1] at reach
              have within : region.base ≤ region.limit := Nat.le_add_right _ _
              omega
            · rw [Region.at, Region.at, base, attributes]
        · exact ⟨m, (joined.mem m).mpr (.inl ⟨member, right, left⟩), covers, rfl⟩
    · refine ⟨whole, (joined.mem whole).mpr (.inr rfl), ⟨Nat.le_trans low covers.1, Nat.lt_of_lt_of_le covers.2 high⟩, ?_⟩
      exact (joined_at joined covers.1).symm

include placed

theorem joined_placed : Placed space whole := by
  have low := joined_low joined
  have high := joined_high joined
  have nonempty := placed.nonempty
  have baseAligned : whole.base % pageGranularity = 0 := by
    rcases joined.left with ⟨_, same, _⟩ | ⟨l, member, _, same, _⟩
    · exact same ▸ placed.baseAligned
    · exact same ▸ (tidy.placed l member).baseAligned
  have limitAligned : whole.limit % pageGranularity = 0 := by
    rcases joined.right with ⟨_, same⟩ | ⟨r, member, _, same⟩
    · exact same ▸ limit_aligned placed
    · exact same ▸ limit_aligned (tidy.placed r member)
  refine ⟨?_, baseAligned, ?_, ?_, ?_⟩
  · unfold Region.limit at high
    omega
  · have split : whole.length = whole.limit - whole.base := by
      unfold Region.limit
      omega
    rw [split]
    exact (Nat.sub_mod_eq_zero_of_mod_eq (limitAligned.trans baseAligned.symm))
  · rcases joined.left with ⟨_, same, _⟩ | ⟨l, member, _, same, _⟩
    · exact same ▸ placed.above
    · exact same ▸ (tidy.placed l member).above
  · rcases joined.right with ⟨_, same⟩ | ⟨r, member, _, same⟩
    · exact same ▸ placed.below
    · exact same ▸ (tidy.placed r member).below

theorem joined_tidy {space' : AddressSpace} (start : space'.start = space.start) (limit : space'.limit = space.limit)
    (regions : space'.regions = result) (clear : ∀ m ∈ space.regions, Apart region m) : Tidy space' := by
  refine tidy_adjoin tidy start limit whole (joined_placed tidy placed joined) ?_ ?_
  · intro m member
    rw [regions, joined.mem] at member
    exact member.imp_left fun old => old.1
  · intro m member different
    rw [regions, joined.mem] at member
    obtain ⟨old, notRight, notLeft⟩ := member.resolve_right different
    have nonempty := placed.nonempty
    have nonemptyM := (tidy.placed m old).nonempty
    have apart := clear m old
    have leftApart : whole.base = region.base ∨ ∃ l, l.base = whole.base ∧ l.limit = region.base ∧ Apart l m := by
      rcases joined.left with ⟨_, same, _⟩ | ⟨l, member, joins, same, _⟩
      · exact .inl same
      · exact .inr ⟨l, same.symm, joins.1, tidy.apart l member m old fun equal => notLeft (equal ▸ joins)⟩
    have rightApart : whole.limit = region.limit ∨ ∃ r, r.limit = whole.limit ∧ r.base = region.limit ∧ Apart r m := by
      rcases joined.right with ⟨_, same⟩ | ⟨r, member, joins, same⟩
      · exact .inl same
      · exact .inr ⟨r, same.symm, joins.1.symm, tidy.apart r member m old fun equal => notRight (equal ▸ joins)⟩
    unfold Apart Region.limit at *
    rcases leftApart with same | ⟨l, base, limitL, apartL⟩
    · rcases rightApart with sameR | ⟨r, limitR, baseR, apartR⟩ <;> omega
    · rcases rightApart with sameR | ⟨r, limitR, baseR, apartR⟩ <;> omega

end Joined

end Elysium.Vm
