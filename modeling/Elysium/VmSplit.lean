import Elysium.VmCanonical

set_option autoImplicit false

namespace Elysium.Vm

-- A part of a region: the addresses from x to y, each with the attributes it had.
structure Piece (source : Region) (x y : Nat) (part : Region) : Prop where
  base : part.base = x
  limit : part.limit = y
  space : part.addressSpace = source.addressSpace
  same : ∀ a, x ≤ a → a < y → part.at a = source.at a

-- clone_to of the range from x to y, with whatever structure region_alloc hands out.
def Clones (as : SpaceId) (source : Region) (x y : Nat) : Prop :=
  ∀ s t id, regionAlloc s = .ok (t, id) → getRegion as source.id t = .ok source →
    ∃ clone, cloneTo as x (y - x) source.id s = .ok (t, clone) ∧ clone.id = id ∧ Piece source x y clone

-- What is left, middle and right of the cuts at b and c, in any order.
def Parts (source : Region) (b c : Nat) (parts : List Region) : Prop :=
  ∃ left middle right, Piece source source.base b left ∧ Piece source b c middle ∧ Piece source c source.limit right ∧
    parts.Perm ([left, middle, right].filter fun part => 0 < part.length)

def insertParts (as : SpaceId) (parts : List Region) (s : State) : State :=
  parts.foldl (fun s part => (regionInsert as part s).1) s

structure Recreated (as : SpaceId) (source : Region) (s t : State) : Prop where
  whole : ∃ whole ∈ (t.space as).regions, whole.base ≤ source.base ∧ source.limit ≤ whole.limit ∧
    ∀ a, source.Covers a → whole.at a = source.at a
  maps : ∀ a v, Maps (t.space as).regions a v ↔ Maps (s.space as).regions a v ∨ (source.Covers a ∧ v = source.at a)

-- No clone starts where a region of physical address 0 does, and physical memory
-- reaches up to every cut.
structure Cuttable (source : Region) (b c : Nat) : Prop where
  start : b = source.base → source.backing ≠ .direct 0
  left : source.base < b → (source.at b).InMemory
  right : c < source.limit → (source.at c).InMemory

section Pieces

variable {source part : Region} {x y : Nat}

-- A piece that is not empty goes on like the region does, also past its end.
theorem piece_at (piece : Piece source x y part) (nonempty : x < y) (low : source.base ≤ x) {a : Nat} (above : x ≤ a) :
    part.at a = source.at a := by
  have start := piece.same x (Nat.le_refl x) nonempty
  exact at_onward (Nat.le_of_eq piece.base) low start above

theorem piece_placed {space : AddressSpace} (placed : Placed space source) (piece : Piece source x y part) (nonempty : x < y)
    (low : source.base ≤ x) (high : y ≤ source.limit) (alignedX : x % pageGranularity = 0) (alignedY : y % pageGranularity = 0) :
    Placed space part := by
  have base := piece.base
  have limit := piece.limit
  have size : part.limit = part.base + part.length := rfl
  have length : part.length = y - x := by omega
  refine ⟨by omega, base ▸ alignedX, ?_, ?_, ?_⟩
  · rw [length]
    exact sub_aligned alignedY alignedX
  · rw [base]
    exact Nat.le_trans placed.above low
  · rw [limit]
    exact Nat.le_trans high placed.below

theorem clone_piece (id : Nat) (low : source.base ≤ x) (order : x ≤ y) : Piece source x y (cloneOf id x (y - x) source) := by
  refine ⟨rfl, ?_, rfl, fun a above _ => clone_at id x (y - x) source low above⟩
  show x + (y - x) = y
  omega

-- What rewrite_common leaves of the region before the cut.
theorem trim_piece (low : source.base ≤ x) : Piece source source.base x { source with length := x - source.base } := by
  refine ⟨rfl, ?_, rfl, fun a _ _ => rfl⟩
  show source.base + (x - source.base) = x
  omega

end Pieces

section Parts

variable {source : Region} {b c : Nat} {parts : List Region} (split : Parts source b c parts)

include split

theorem part_piece {part : Region} (member : part ∈ parts) : ∃ x y, Piece source x y part ∧ x < y ∧
    ((x = source.base ∧ y = b) ∨ (x = b ∧ y = c) ∨ (x = c ∧ y = source.limit)) := by
  obtain ⟨left, middle, right, pieceL, pieceM, pieceR, perm⟩ := split
  have listed := perm.mem_iff.mp member
  simp only [List.mem_filter, List.mem_cons, List.not_mem_nil, or_false, decide_eq_true_eq] at listed
  obtain ⟨which, nonempty⟩ := listed
  have size : part.limit = part.base + part.length := rfl
  rcases which with rfl | rfl | rfl
  · have base := pieceL.base
    have limit := pieceL.limit
    exact ⟨source.base, b, pieceL, by omega, .inl ⟨rfl, rfl⟩⟩
  · have base := pieceM.base
    have limit := pieceM.limit
    exact ⟨b, c, pieceM, by omega, .inr (.inl ⟨rfl, rfl⟩)⟩
  · have base := pieceR.base
    have limit := pieceR.limit
    exact ⟨c, source.limit, pieceR, by omega, .inr (.inr ⟨rfl, rfl⟩)⟩

variable (low : source.base ≤ b) (order : b < c) (high : c ≤ source.limit)

include low order high

theorem parts_cover (a : Nat) : source.Covers a ↔ ∃ part ∈ parts, part.Covers a := by
  constructor
  · rintro ⟨above, below⟩
    obtain ⟨left, middle, right, pieceL, pieceM, pieceR, perm⟩ := split
    have inside : ∃ part ∈ [left, middle, right], part.Covers a := by
      by_cases first : a < b
      · exact ⟨left, by simp, pieceL.base ▸ above, pieceL.limit ▸ first⟩
      · by_cases second : a < c
        · exact ⟨middle, by simp, pieceM.base ▸ Nat.le_of_not_lt first, pieceM.limit ▸ second⟩
        · exact ⟨right, by simp, pieceR.base ▸ Nat.le_of_not_lt second, pieceR.limit ▸ below⟩
    obtain ⟨part, listed, covers⟩ := inside
    refine ⟨part, perm.mem_iff.mpr (List.mem_filter.mpr ⟨listed, decide_eq_true ?_⟩), covers⟩
    have size : part.limit = part.base + part.length := rfl
    have bounds : part.base ≤ a ∧ a < part.limit := covers
    omega
  · rintro ⟨part, member, above, below⟩
    obtain ⟨x, y, piece, _, ends⟩ := part_piece split member
    have base := piece.base
    have limit := piece.limit
    constructor <;> omega

omit low high in
theorem parts_apart : parts.Pairwise Apart := by
  obtain ⟨left, middle, right, pieceL, pieceM, pieceR, perm⟩ := split
  refine (perm.pairwise_iff fun apart => apart_symm apart).mpr (List.Pairwise.filter _ ?_)
  have leftMiddle : Apart left middle := .inl (by rw [pieceL.limit, pieceM.base])
  have leftRight : Apart left right := .inl (by rw [pieceL.limit, pieceR.base]; exact Nat.le_of_lt order)
  have middleRight : Apart middle right := .inl (by rw [pieceM.limit, pieceR.base])
  simp [leftMiddle, leftRight, middleRight]

end Parts

-- Parts a call holds, clear of the tree and of one another.
structure Insertable (as : SpaceId) (s : State) (held : List Nat) (parts : List Region) : Prop where
  tidy : Tidy (s.space as)
  placed : ∀ part ∈ parts, Placed (s.space as) part
  apart : parts.Pairwise Apart
  clear : ∀ part ∈ parts, ∀ m ∈ (s.space as).regions, Apart part m
  owned : Owned s (parts.map (·.id) ++ held)

section Insert

variable {as : SpaceId} {s : State} {held : List Nat} {part : Region} {parts : List Region}

theorem insertable_step (ready : Insertable as s held (part :: parts)) :
    ∃ whole, Joined (s.space as).regions part whole ((regionInsert as part s).1.space as).regions ∧
      Insertable as (regionInsert as part s).1 held parts := by
  have placed := ready.placed part List.mem_cons_self
  have clear := ready.clear part List.mem_cons_self
  obtain ⟨t, whole, run, quiet, owned, joined⟩ := region_insert_spec ready.tidy placed clear ready.owned
  rw [run]
  have tidy := joined_tidy ready.tidy placed joined quiet.frame.start quiet.frame.limit rfl clear
  have first := (List.pairwise_cons.mp ready.apart).1
  refine ⟨whole, joined, tidy, fun p member => ?_, (List.pairwise_cons.mp ready.apart).2, fun p member m inTree => ?_, owned⟩
  · have old := ready.placed p (List.mem_cons_of_mem _ member)
    exact ⟨old.nonempty, old.baseAligned, old.lengthAligned, quiet.frame.start ▸ old.above, quiet.frame.limit ▸ old.below⟩
  · apply apart_of_disjoint (ready.placed p (List.mem_cons_of_mem _ member)).nonempty (tidy.placed m inTree).nonempty
    -- An address of the new tree is one of the old tree or of the inserted part.
    intro a inP inM
    rcases (joined_maps ready.tidy joined a _).mp ⟨m, inTree, inM, rfl⟩ with ⟨old, member', covers, _⟩ | ⟨covers, _⟩
    · exact apart_disjoint (ready.clear p (List.mem_cons_of_mem _ member) old member') inP covers
    · exact apart_disjoint (first p member) covers inP

theorem insert_parts_tidy (ready : Insertable as s held parts) : Tidy ((insertParts as parts s).space as) := by
  induction parts generalizing s with
  | nil => exact ready.tidy
  | cons part rest ih =>
      obtain ⟨_, _, next⟩ := insertable_step ready
      exact ih next

theorem insert_parts_maps (ready : Insertable as s held parts) (a : Nat) (v : Attributes) :
    Maps ((insertParts as parts s).space as).regions a v ↔
      Maps (s.space as).regions a v ∨ ∃ part ∈ parts, part.Covers a ∧ v = part.at a := by
  induction parts generalizing s with
  | nil => simp [insertParts]
  | cons part rest ih =>
      obtain ⟨whole, joined, next⟩ := insertable_step ready
      rw [insertParts, List.foldl_cons, ← insertParts, ih next, joined_maps ready.tidy joined]
      simp only [List.mem_cons, exists_eq_or_imp, or_assoc]

-- What every insertion keeps holds of the tree in the end.
theorem insert_parts_keeps {Q : List Region → Prop} (ready : Insertable as s held parts)
    (step : ∀ space : AddressSpace, ∀ part ∈ parts, ∀ whole result, Tidy space → 0 < part.length →
      Joined space.regions part whole result → Q space.regions → Q result)
    (before : Q (s.space as).regions) : Q ((insertParts as parts s).space as).regions := by
  induction parts generalizing s with
  | nil => exact before
  | cons part rest ih =>
      obtain ⟨whole, joined, next⟩ := insertable_step ready
      have positive := (ready.placed part List.mem_cons_self).nonempty
      apply ih next
      · intro space p member
        exact step space p (List.mem_cons_of_mem _ member)
      · exact step (s.space as) part List.mem_cons_self whole _ ready.tidy positive joined before

end Insert

def Region.Straddles (r : Region) (x : Nat) : Prop := r.base < x ∧ x < r.limit

-- Across a cut beyond physical memory nothing is joined.
theorem joined_straddles {space : AddressSpace} {region whole : Region} {result : List Region} {x : Nat} (tidy : Tidy space)
    (nonempty : 0 < region.length) (joined : Joined space.regions region whole result) (beside : ¬ region.Straddles x)
    (beyond : region.base ≤ x → ¬ (region.at x).InMemory) (before : ∀ m ∈ space.regions, ¬ m.Straddles x) :
    ∀ m ∈ result, ¬ m.Straddles x := by
  intro m inResult
  rcases (joined.mem m).mp inResult with ⟨old, _, _⟩ | rfl
  · exact before m old
  · rintro ⟨above, below⟩
    have size : region.limit = region.base + region.length := rfl
    have leftOf : x ≤ region.base → False := by
      intro first
      rcases joined.left with ⟨_, base, _⟩ | ⟨l, member, joins, base, _⟩
      · omega
      · have adjacent := joins.1
        rcases Nat.lt_or_eq_of_le first with inLeft | rfl
        · exact before l member ⟨base ▸ above, adjacent ▸ inLeft⟩
        · have memory := ((joins_iff (tidy.placed l member).nonempty).mp joins).2.2
          apply beyond (Nat.le_refl _)
          rw [at_base]
          exact memory
    have rightOf : region.limit ≤ x → False := by
      intro last
      rcases joined.right with ⟨_, limit⟩ | ⟨r, member, joins, limit⟩
      · omega
      · obtain ⟨adjacent, attributes, memory⟩ := (joins_iff nonempty).mp joins
        rcases Nat.lt_or_eq_of_le last with inRight | same
        · exact before r member ⟨adjacent ▸ inRight, limit ▸ below⟩
        · apply beyond (by omega)
          rw [← same, adjacent, ← attributes]
          exact memory
    by_cases first : x ≤ region.base
    · exact leftOf first
    · by_cases last : region.limit ≤ x
      · exact rightOf last
      · exact beside ⟨Nat.lt_of_not_le first, Nat.lt_of_not_le last⟩

section Split

variable {as : SpaceId} {s : State} {held : List Nat} {source : Region} {b c : Nat} {parts : List Region}
  (tidy : Tidy (s.space as)) (placed : Placed (s.space as) source) (clear : ∀ m ∈ (s.space as).regions, Apart source m)
  (low : source.base ≤ b) (order : b < c) (high : c ≤ source.limit) (split : Parts source b c parts)

include low order high split

omit high in
theorem part_at {part : Region} (member : part ∈ parts) {a : Nat} (above : part.base ≤ a) : part.at a = source.at a := by
  obtain ⟨x, y, piece, nonempty, ends⟩ := part_piece split member
  have base := piece.base
  exact piece_at piece nonempty (by omega) (by omega)

include tidy placed clear

theorem parts_insertable (alignedB : b % pageGranularity = 0) (alignedC : c % pageGranularity = 0)
    (owned : Owned s (parts.map (·.id) ++ held)) : Insertable as s held parts := by
  have alignedBase := placed.baseAligned
  have alignedLimit := limit_aligned placed
  refine ⟨tidy, fun part member => ?_, parts_apart split order, fun part member m inTree => ?_, owned⟩
  · obtain ⟨x, y, piece, nonempty, ends⟩ := part_piece split member
    rcases ends with ⟨rfl, rfl⟩ | ⟨rfl, rfl⟩ | ⟨rfl, rfl⟩
    · exact piece_placed placed piece nonempty (Nat.le_refl _) (by omega) alignedBase alignedB
    · exact piece_placed placed piece nonempty low high alignedB alignedC
    · exact piece_placed placed piece nonempty (by omega) (Nat.le_refl _) alignedC alignedLimit
  · obtain ⟨x, y, piece, nonempty, ends⟩ := part_piece split member
    have base := piece.base
    have limit := piece.limit
    have apart := clear m inTree
    unfold Apart at *
    omega

variable (ready : Insertable as s held parts)

include ready

omit tidy placed clear in
theorem insert_parts_recreate (a : Nat) (v : Attributes) : Maps ((insertParts as parts s).space as).regions a v ↔
    Maps (s.space as).regions a v ∨ (source.Covers a ∧ v = source.at a) := by
  rw [insert_parts_maps ready, parts_cover split low order high]
  apply or_congr_right
  constructor
  · rintro ⟨part, member, covers, rfl⟩
    exact ⟨⟨part, member, covers⟩, part_at low order split member covers.1⟩
  · rintro ⟨⟨part, member, covers⟩, rfl⟩
    exact ⟨part, member, covers, (part_at low order split member covers.1).symm⟩

omit placed low high in
-- A region that starts inside the old one starts at a cut, and continues no other.
theorem insert_parts_joined : (∀ l ∈ ((insertParts as parts s).space as).regions,
      ∀ r ∈ ((insertParts as parts s).space as).regions, Joins l r → ¬ source.Straddles r.base) ∧
    ∀ m ∈ ((insertParts as parts s).space as).regions, source.Straddles m.base → m.base = b ∨ m.base = c := by
  have outside : ∀ m ∈ (s.space as).regions, ¬ source.Straddles m.base := by
    rintro m member ⟨above, below⟩
    have covers := region_covers_base tidy member
    exact apart_disjoint (clear m member) ⟨Nat.le_of_lt above, below⟩ covers
  constructor
  · apply insert_parts_keeps ready (Q := fun regions => ∀ l ∈ regions, ∀ r ∈ regions, Joins l r → ¬ source.Straddles r.base)
    · intro space part _ whole result tidyS nonempty joined unjoined
      exact joins_joined tidyS nonempty joined unjoined
    · exact fun l _ r member _ => outside r member
  · apply insert_parts_keeps ready (Q := fun regions => ∀ m ∈ regions, source.Straddles m.base → m.base = b ∨ m.base = c)
    · intro space part member whole result _ _ joined atCuts m inResult inner
      rcases (joined.mem m).mp inResult with ⟨old, _, _⟩ | rfl
      · exact atCuts m old inner
      · rcases joined.left with ⟨_, base, _⟩ | ⟨l, memberL, _, base, _⟩
        · obtain ⟨x, y, piece, _, ends⟩ := part_piece split member
          have start := piece.base
          have above := inner.1
          omega
        · exact base ▸ atCuts l memberL (base ▸ inner)
    · exact fun m member inner => absurd inner (outside m member)

omit placed in
theorem insert_parts_whole (cuttable : Cuttable source b c) (nonempty : 0 < source.length) :
    ∃ whole ∈ ((insertParts as parts s).space as).regions, whole.base ≤ source.base ∧ source.limit ≤ whole.limit ∧
      ∀ a, source.Covers a → whole.at a = source.at a := by
  have tidyT := insert_parts_tidy ready
  have maps := insert_parts_recreate low order high split ready
  obtain ⟨unjoined, atCuts⟩ := insert_parts_joined tidy clear order split ready
  have size : source.limit = source.base + source.length := rfl
  have covered : ∀ a, source.Covers a → ∃ m ∈ ((insertParts as parts s).space as).regions, m.Covers a ∧ m.at a = source.at a := by
    intro a inside
    obtain ⟨m, member, covers, same⟩ := (maps a (source.at a)).mpr (.inr ⟨inside, rfl⟩)
    exact ⟨m, member, covers, same.symm⟩
  obtain ⟨whole, member, covers, same⟩ := covered source.base ⟨Nat.le_refl _, by omega⟩
  have onward : ∀ a, source.base ≤ a → whole.at a = source.at a := fun a above =>
    at_onward covers.1 (Nat.le_refl _) same above
  refine ⟨whole, member, covers.1, ?_, fun a inside => onward a inside.1⟩
  by_contra short
  -- Where the region ends too early another one goes on, and the two would join.
  have reach := covers.2
  obtain ⟨next, memberN, coversN, sameN⟩ := covered whole.limit ⟨Nat.le_of_lt reach, Nat.lt_of_not_le short⟩
  have different : whole ≠ next := by
    rintro rfl
    exact Nat.lt_irrefl _ coversN.2
  have adjacent : whole.limit = next.base := by
    have positive := (tidyT.placed whole member).nonempty
    have start := coversN.1
    rcases tidyT.apart whole member next memberN different with before | behind
    · exact Nat.le_antisymm before start
    · have last := coversN.2
      have sizeW : whole.limit = whole.base + whole.length := rfl
      omega
  have inner : source.Straddles next.base := by
    rw [← adjacent]
    exact ⟨reach, Nat.lt_of_not_le short⟩
  have memory : (source.at next.base).InMemory := by
    rcases atCuts next memberN inner with cut | cut
    · rw [cut]
      exact cuttable.left (cut ▸ inner.1)
    · rw [cut]
      exact cuttable.right (cut ▸ inner.2)
  apply unjoined whole member next memberN _ inner
  rw [joins_iff (tidyT.placed whole member).nonempty]
  rw [adjacent, at_base] at sameN
  refine ⟨adjacent, ?_, sameN ▸ memory⟩
  rw [sameN, onward next.base (Nat.le_of_lt inner.1)]

omit tidy placed high in
-- A cut that physical memory does not reach stays.
theorem insert_parts_apart {x : Nat} (cut : x = b ∨ x = c) (inner : source.Straddles x) (beyond : ¬ (source.at x).InMemory) :
    ∀ m ∈ ((insertParts as parts s).space as).regions, ¬ m.Straddles x := by
  apply insert_parts_keeps ready (Q := fun regions => ∀ m ∈ regions, ¬ m.Straddles x)
  · intro space part member whole result tidyS nonempty joined before
    refine joined_straddles tidyS nonempty joined ?_ ?_ before
    · rintro ⟨above, below⟩
      obtain ⟨y, z, piece, _, ends⟩ := part_piece split member
      have base := piece.base
      have limit := piece.limit
      omega
    · intro above
      rw [part_at low order split member above]
      exact beyond
  · rintro m member ⟨above, below⟩
    exact apart_disjoint (clear m member) ⟨Nat.le_of_lt inner.1, inner.2⟩ ⟨Nat.le_of_lt above, below⟩

end Split

section Clones

variable {as : SpaceId} {source : Region} {x y : Nat}

theorem clones_of_fits (low : source.base ≤ x) (order : x ≤ y) (fits : CloneFits x source) : Clones as source x y := by
  intro s t id alloc read
  exact ⟨cloneOf id x (y - x) source, clone_to_fits alloc read low fits, rfl, clone_piece id low order⟩

-- The pool has a structure, and the region is in a tree.
theorem not_clones (fails : ¬ CloneFits x source) : ¬ Clones as source x y := by
  intro clones
  have read : getRegion as source.id ⟨fun _ => ⟨[source], 0, 0⟩, [], 0, onePage, []⟩ = .ok source := by
    simp [getRegion]
  obtain ⟨clone, run, _⟩ := clones ⟨fun _ => ⟨[source], 0, 0⟩, [0], 0, onePage, []⟩ _ 0 rfl read
  rw [clone_to_fails (s := ⟨fun _ => ⟨[source], 0, 0⟩, [0], 0, onePage, []⟩) rfl read fails] at run
  cases run

theorem fits_of_memory (above : source.base < x) (memory : (source.at x).InMemory) : CloneFits x source := by
  have bound : memPhysMax < 2 ^ 64 - 1 := by decide
  unfold CloneFits
  unfold Attributes.InMemory Region.at Attributes.shift at memory
  cases backing : source.backing with
  | anon backZeroed => trivial
  | direct physicalAddress =>
      simp only [backing, Backing.shift] at memory ⊢
      rw [if_pos above]
      omega

-- clone_to does not clone from physical address 0 at the start of a region.
theorem fits_start_iff : CloneFits source.base source ↔ source.backing ≠ .direct 0 := by
  unfold CloneFits
  cases source.backing with
  | anon backZeroed => simp
  | direct physicalAddress => simp [Nat.pos_iff_ne_zero]

end Clones

theorem region_split_recreates (as : SpaceId) (s : State) (held : List Nat) (source : Region) (b c : Nat) (parts : List Region)
    (tidy : Tidy (s.space as)) (placed : Placed (s.space as) source) (clear : ∀ m ∈ (s.space as).regions, Apart source m)
    (alignedB : b % pageGranularity = 0) (alignedC : c % pageGranularity = 0) (low : source.base ≤ b) (order : b < c)
    (high : c ≤ source.limit) (split : Parts source b c parts) (owned : Owned s (parts.map (·.id) ++ held)) :
    (Clones as source b c ∧ (c < source.limit → Clones as source c source.limit) ∧
      Recreated as source s (insertParts as parts s)) ↔ Cuttable source b c := by
  have ready := parts_insertable tidy placed clear low order high split alignedB alignedC owned
  constructor
  · rintro ⟨middle, _, whole, _⟩
    obtain ⟨w, member, before, behind, _⟩ := whole
    have apart : ∀ x, x = b ∨ x = c → source.Straddles x → (source.at x).InMemory := by
      intro x cut inner
      by_contra beyond
      apply insert_parts_apart clear low order split ready cut inner beyond w member
      exact ⟨Nat.lt_of_le_of_lt before inner.1, Nat.lt_of_lt_of_le inner.2 behind⟩
    refine ⟨fun start => ?_, fun above => ?_, fun below => ?_⟩
    · rw [← fits_start_iff, ← start]
      by_contra fails
      exact not_clones fails middle
    · exact apart b (.inl rfl) ⟨above, by omega⟩
    · exact apart c (.inr rfl) ⟨by omega, below⟩
  · intro cuttable
    refine ⟨?_, fun below => ?_, ?_, insert_parts_recreate low order high split ready⟩
    · apply clones_of_fits low (Nat.le_of_lt order)
      rcases Nat.lt_or_eq_of_le low with above | start
      · exact fits_of_memory above (cuttable.left above)
      · rw [← start, fits_start_iff]
        exact cuttable.start start.symm
    · apply clones_of_fits (by omega) (Nat.le_of_lt below)
      exact fits_of_memory (by omega) (cuttable.right below)
    · exact insert_parts_whole tidy clear low order high split ready cuttable placed.nonempty

-- The direct map of physical memory, as init inserts it.
def hhdmRegion (id base length : Nat) : Region where
  id := id
  addressSpace := .global
  base := base
  length := length
  backing := .direct 0
  protection := protRW
  cacheBehavior := .standard
  dynamicallyBacked := false

theorem region_split_hhdm :
    Placed (freshSpace .global) (hhdmRegion 0 kernelspaceStart 0x100000000) ∧
      ¬ Clones .global (hhdmRegion 0 kernelspaceStart 0x100000000) kernelspaceStart (kernelspaceStart + 0x1000) ∧
      vmRewriteProt .global kernelspaceStart 0x1000 protNone (singleState (hhdmRegion 0 kernelspaceStart 0x100000000) [1, 2]) =
        .error .assertion := by
  refine ⟨⟨by decide, by decide, by decide, by decide, by decide⟩, ?_, rfl⟩
  apply not_clones
  decide

def deviceRegion (id base length physicalAddress : Nat) : Region where
  id := id
  addressSpace := .process 0
  base := base
  length := length
  backing := .direct physicalAddress
  protection := protRW
  cacheBehavior := .none
  dynamicallyBacked := true

theorem region_split_recreates_device :
    Recreated (.process 0) (deviceRegion 1 0x10000 0x4000 0x200000) (freshState []) (insertParts (.process 0)
        [deviceRegion 3 0x13000 0x1000 0x203000, deviceRegion 1 0x10000 0x1000 0x200000, deviceRegion 2 0x11000 0x2000 0x201000]
        (freshState [])) ∧
      ¬ Cuttable (hhdmRegion 0 kernelspaceStart 0x100000000) kernelspaceStart (kernelspaceStart + 0x1000) := by
  have full : Owned (freshState [2, 1, 3]) [] := fresh_owned [2, 1, 3] (by decide) (by decide)
  have first : Owned (freshState [1, 3]) [2] := owned_take (s := freshState [2, 1, 3]) rfl full
  have second : Owned (freshState [3]) [1, 2] := owned_take (s := freshState [1, 3]) rfl first
  have taken : Owned (freshState []) [3, 1, 2] := owned_take (s := freshState [3]) rfl second
  have split : Parts (deviceRegion 1 0x10000 0x4000 0x200000) 0x11000 0x13000
      [deviceRegion 3 0x13000 0x1000 0x203000, deviceRegion 1 0x10000 0x1000 0x200000, deviceRegion 2 0x11000 0x2000 0x201000] := by
    refine ⟨_, _, _, trim_piece (by decide), clone_piece 2 (by decide) (by decide), clone_piece 3 (by decide) (by decide), ?_⟩
    decide
  have settled := region_split_recreates (.process 0) (freshState []) [] (deviceRegion 1 0x10000 0x4000 0x200000) 0x11000 0x13000 _
    (fresh_tidy [] _) ⟨by decide, by decide, by decide, by decide, by decide⟩ (by simp [freshState, freshSpace]) (by decide) (by decide)
    (by decide) (by decide) (by decide) split taken
  have cuttable : Cuttable (deviceRegion 1 0x10000 0x4000 0x200000) 0x11000 0x13000 :=
    ⟨by decide, fun _ => (by decide : 0x201000 ≤ memPhysMax), fun _ => (by decide : 0x203000 ≤ memPhysMax)⟩
  exact ⟨(settled.mpr cuttable).2.2, fun hhdm => hhdm.start rfl rfl⟩

end Elysium.Vm
