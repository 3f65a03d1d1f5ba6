import Elysium.VmTree

set_option autoImplicit false

namespace Elysium.Vm

-- A segment no region touches.
def Free (regions : List Region) (a length : Nat) : Prop := ∀ r ∈ regions, r.limit ≤ a ∨ a + length ≤ r.base

-- A place for a new region.
def Hole (space : AddressSpace) (length a : Nat) : Prop :=
  SegmentInBounds a length space.start space.limit ∧ Free space.regions a length

def LowestHole (space : AddressSpace) (length a : Nat) : Prop :=
  Hole space length a ∧ ∀ b, Hole space length b → a ≤ b

section Holes

variable {space : AddressSpace} (tidy : Tidy space) {length : Nat}

include tidy

theorem find_region_none {a : Nat} (inside : a + length < 2 ^ 64) (missing : findRegion space a length = none) :
    Free space.regions a length := by
  intro r member
  unfold findRegion at missing
  rw [add64_eq inside] at missing
  cases found : rbSearch space.regions (a + length) .nearestLt with
  | none => exact .inr (search_lt_none found r member)
  | some last =>
      obtain ⟨memberLast, _, nearest⟩ := search_lt_some found
      simp only [found, region_end tidy memberLast, ite_eq_right_iff, reduceCtorEq, imp_false, Nat.not_lt] at missing
      by_cases before : r.base < a + length
      · refine .inl ?_
        -- The last region ends before the segment, and r does not start after it.
        rcases Nat.lt_or_eq_of_le (nearest r member before) with earlier | same
        · have limit := base_lt_limit_le tidy member memberLast earlier
          have nonempty := (tidy.placed last memberLast).nonempty
          unfold Region.limit at *
          omega
        · rw [base_unique tidy member memberLast same]
          exact missing
      · exact .inr (Nat.le_of_not_lt before)

theorem find_region_some {a : Nat} (inside : a + length < 2 ^ 64) {r : Region}
    (found : findRegion space a length = some r) :
    r ∈ space.regions ∧ r.base < a + length ∧ a < r.limit := by
  unfold findRegion at found
  rw [add64_eq inside] at found
  cases searched : rbSearch space.regions (a + length) .nearestLt with
  | none => simp [searched] at found
  | some last =>
      obtain ⟨member, before, _⟩ := search_lt_some searched
      simp only [searched, region_end tidy member] at found
      by_cases reaches : last.limit > a
      · rw [if_pos reaches] at found
        obtain rfl := Option.some.inj found
        exact ⟨member, before, reaches⟩
      · rw [if_neg reaches] at found
        exact absurd found (by simp)

theorem in_bounds_fits {a : Nat} (bounded : SegmentInBounds a length space.start space.limit) : a + length < 2 ^ 64 := by
  have fits := tidy.fits
  have bounds := (segment_in_bounds_iff a length _ _ fits).mp bounded
  omega

theorem find_region_free {a : Nat} (bounded : SegmentInBounds a length space.start space.limit) :
    findRegion space a length = none ↔ Free space.regions a length := by
  have inside := in_bounds_fits tidy bounded
  constructor
  · exact find_region_none tidy inside
  · intro free
    cases found : findRegion space a length with
    | none => rfl
    | some r =>
        obtain ⟨member, before, reaches⟩ := find_region_some tidy inside found
        rcases free r member with below | above <;> omega

-- A region met from address a blocks every segment that starts before its end.
theorem blocked_until {a b : Nat} {r : Region} (inside : a + length < 2 ^ 64)
    (found : findRegion space a length = some r) (from_a : a ≤ b) (hole : Hole space length b) : r.limit ≤ b := by
  obtain ⟨member, before, _⟩ := find_region_some tidy inside found
  rcases hole.2 r member with below | above
  · exact below
  · omega

theorem find_hole_loop_spec (fuel a : Nat) (enough : space.regions.countP (fun r => a < r.limit) < fuel)
    (above : space.start ≤ a) (skipped : ∀ b, Hole space length b → a ≤ b) :
    (∃ hole, findHoleLoop space length fuel a = .ok (some hole) ∧ LowestHole space length hole) ∨
      (findHoleLoop space length fuel a = .ok none ∧ ∀ b, ¬ Hole space length b) := by
  induction fuel generalizing a with
  | zero => exact absurd enough (Nat.not_lt_zero _)
  | succ fuel ih =>
      by_cases bounded : SegmentInBounds a length space.start space.limit
      · have inside := in_bounds_fits tidy bounded
        cases found : findRegion space a length with
        | none =>
            refine .inl ⟨a, ?_, ⟨bounded, find_region_none tidy inside found⟩, skipped⟩
            simp [findHoleLoop, bounded, found]
        | some r =>
            obtain ⟨member, _, reaches⟩ := find_region_some tidy inside found
            have step : findHoleLoop space length (fuel + 1) a = findHoleLoop space length fuel r.limit := by
              simp [findHoleLoop, bounded, found, region_end tidy member]
            rw [step]
            refine ih r.limit ?_ (Nat.le_trans above (Nat.le_of_lt reaches)) fun b hole => blocked_until tidy inside found (skipped b hole) hole
            have fewer : space.regions.countP (fun m => r.limit < m.limit) < space.regions.countP (fun m => a < m.limit) := by
              obtain ⟨front, back, split⟩ := List.append_of_mem member
              have frontMono : front.countP (fun m => r.limit < m.limit) ≤ front.countP (fun m => a < m.limit) :=
                List.countP_mono_left fun m _ later => by
                  simp only [decide_eq_true_eq] at later ⊢
                  omega
              have backMono : back.countP (fun m => r.limit < m.limit) ≤ back.countP (fun m => a < m.limit) :=
                List.countP_mono_left fun m _ later => by
                  simp only [decide_eq_true_eq] at later ⊢
                  omega
              rw [split, List.countP_append, List.countP_append, List.countP_cons, List.countP_cons]
              simp only [Nat.lt_irrefl, decide_false, Bool.false_eq_true, if_false, reaches, decide_true, if_true]
              omega
            omega
      · refine .inr ⟨by simp [findHoleLoop, bounded], fun b hole => bounded ?_⟩
        -- A later segment of the same length in bounds leaves room for this one.
        have fits := tidy.fits
        have later := skipped b hole
        have bounds := (segment_in_bounds_iff b length _ _ fits).mp hole.1
        exact (segment_in_bounds_iff a length _ _ fits).mpr (by omega)

-- find_hole takes the given address when it can and the lowest hole otherwise.
theorem find_hole_spec (a : Nat) :
    (Hole space length a ∧ findHole space a length = .ok (some a)) ∨
      ¬ Hole space length a ∧
        ((∃ hole, findHole space a length = .ok (some hole) ∧ LowestHole space length hole) ∨
          (findHole space a length = .ok none ∧ ∀ b, ¬ Hole space length b)) := by
  by_cases here : Hole space length a
  · refine .inl ⟨here, ?_⟩
    rw [findHole, if_pos ⟨here.1, (find_region_free tidy here.1).mpr here.2⟩]
  · refine .inr ⟨here, ?_⟩
    have guard : ¬ (SegmentInBounds a length space.start space.limit ∧ findRegion space a length = none) := by
      rintro ⟨bounded, missing⟩
      exact here ⟨bounded, (find_region_free tidy bounded).mp missing⟩
    rw [findHole, if_neg guard]
    refine find_hole_loop_spec tidy _ _ (Nat.lt_succ_of_le List.countP_le_length) (Nat.le_refl _) ?_
    intro b hole
    exact hole.1.1.1

-- Holes found by the search are aligned when the space starts on a page.
theorem lowest_hole_aligned {a : Nat} (aligned : space.start % pageGranularity = 0) (lowest : LowestHole space length a) :
    a % pageGranularity = 0 := by
  by_contra unaligned
  have fits := tidy.fits
  have bounds := (segment_in_bounds_iff a length _ _ fits).mp lowest.1.1
  -- Then the segment one byte lower is a hole as well.
  have strict : space.start < a := by
    refine Nat.lt_of_le_of_ne bounds.1 fun same => ?_
    rw [← same] at unaligned
    exact unaligned aligned
  have lower : Hole space length (a - 1) := by
    refine ⟨(segment_in_bounds_iff (a - 1) length _ _ fits).mpr (by omega), fun r member => ?_⟩
    rcases lowest.1.2 r member with below | beyond
    · refine .inl ?_
      have placed := tidy.placed r member
      have limitAligned := limit_aligned placed
      have different : r.limit ≠ a := fun same => unaligned (same ▸ limitAligned)
      omega
    · exact .inr (by omega)
  have bound := lowest.2 (a - 1) lower
  omega

end Holes

end Elysium.Vm
