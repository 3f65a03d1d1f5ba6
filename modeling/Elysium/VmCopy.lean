import Elysium.VmKeeps

set_option autoImplicit false

namespace Elysium.Vm

def AddressInSegment (address base length : Nat) : Prop := address ≥ base ∧ address < add64 base length

instance (address base length : Nat) : Decidable (AddressInSegment address base length) :=
  inferInstanceAs (Decidable (_ ∧ _))

def addrToRegion (space : AddressSpace) (address : Nat) : Option Region :=
  if ¬ AddressInBounds address space.start space.limit then none
  else
    match rbSearch space.regions address .nearestLte with
    | none => none
    | some region => if AddressInSegment address region.base region.length then some region else none

def pageFloor (address : Nat) : Nat := address / pageGranularity * pageGranularity

-- none stands for the result false.
def addressSpaceFixPage (as : SpaceId) (vaddr : Nat) (s : State) : Except Fault (Option State) :=
  match addrToRegion (s.space as) vaddr with
  | none => .ok none
  | some region =>
      if ¬ region.dynamicallyBacked then .ok none
      else do
        let s ← regionMap region (pageFloor vaddr) pageGranularity s
        .ok (some s)

-- The region found starts below top, so a round for each region is enough.
def memoryExistsLoop (regions : List Region) (address : Nat) : Nat → Nat → Except Fault Bool
  | 0, top => if top > address then .error .diverges else .ok true
  | fuel + 1, top =>
      if top > address then
        match rbSearch regions top .nearestLt with
        | none => .ok false
        | some region =>
            if add64 region.base region.length < top then .ok false else memoryExistsLoop regions address fuel region.base
      else .ok true

def memoryExists (space : AddressSpace) (address length : Nat) : Except Fault Bool :=
  if ¬ AddressInBounds address space.start space.limit ∨ ¬ AddressInBounds (add64 address length) space.start space.limit then
    .ok false
  else memoryExistsLoop space.regions address (space.regions.length + 1) (add64 address length)

section Regions

variable {space : AddressSpace} (tidy : Tidy space)

include tidy

theorem addr_to_region_some {address : Nat} {region : Region} (found : addrToRegion space address = some region) :
    region ∈ space.regions ∧ region.Covers address := by
  unfold addrToRegion at found
  split at found
  · cases found
  · split at found
    · cases found
    · rename_i near searched
      obtain ⟨member, _, _⟩ := search_lte_some searched
      split at found
      · rename_i inside
        obtain rfl := Option.some.inj found
        refine ⟨member, inside.1, ?_⟩
        rw [← region_end tidy member]
        exact inside.2
      · cases found

theorem addr_to_region_covers {address : Nat} {region : Region} (member : region ∈ space.regions)
    (covers : region.Covers address) : addrToRegion space address = some region := by
  have placed := tidy.placed region member
  have start := covers.1
  have stop := covers.2
  have above := placed.above
  have below := placed.below
  unfold addrToRegion
  rw [if_neg (not_not.mpr ⟨by omega, by omega⟩)]
  cases searched : rbSearch space.regions address .nearestLte with
  | none =>
      have missing := search_lte_none searched region member
      omega
  | some near =>
      obtain ⟨memberNear, low, nearest⟩ := search_lte_some searched
      have closest := nearest region member start
      -- A nearer region would start inside the one that holds the address.
      have same : near = region := by
        by_contra different
        have apart := tidy.apart near memberNear region member different
        have size := (tidy.placed near memberNear).nonempty
        unfold Apart Region.limit at apart
        unfold Region.limit at stop
        omega
      subst same
      dsimp only
      refine if_pos ⟨start, ?_⟩
      rw [region_end tidy member]
      exact stop

theorem addr_to_region_none {address : Nat} (missing : addrToRegion space address = none) :
    ∀ r ∈ space.regions, ¬ r.Covers address := by
  intro r member covers
  rw [addr_to_region_covers tidy member covers] at missing
  cases missing

omit tidy in
theorem fewer_below {regions : List Region} {region : Region} {top : Nat} (member : region ∈ regions) (below : region.base < top) :
    regions.countP (fun r => r.base < region.base) < regions.countP fun r => r.base < top := by
  induction regions with
  | nil => cases member
  | cons head rest ih =>
      have smaller : rest.countP (fun r => r.base < region.base) ≤ rest.countP fun r => r.base < top := by
        refine List.countP_mono_left fun r _ lower => ?_
        have lower := of_decide_eq_true lower
        exact decide_eq_true (by omega)
      rw [List.countP_cons, List.countP_cons]
      rcases List.mem_cons.mp member with rfl | inRest
      · have own : ¬ region.base < region.base := Nat.lt_irrefl _
        simp only [own, below, decide_true, decide_false, if_true]
        simp only [Bool.false_eq_true, if_false]
        omega
      · have later := ih inRest
        by_cases lower : head.base < region.base
        · have lowerTop : head.base < top := by omega
          simp only [lower, lowerTop, decide_true, if_true]
          omega
        · simp only [lower, decide_false, Bool.false_eq_true, if_false]
          omega

-- What the loop finds: whether every byte below top lies in a region.
theorem memory_exists_loop_spec (address fuel top : Nat) (enough : space.regions.countP (fun r => r.base < top) < fuel) :
    (memoryExistsLoop space.regions address fuel top = .ok true ∧
        ∀ a, address ≤ a → a < top → ∃ r ∈ space.regions, r.Covers a) ∨
      (memoryExistsLoop space.regions address fuel top = .ok false ∧
        ∃ a, address ≤ a ∧ a < top ∧ ∀ r ∈ space.regions, ¬ r.Covers a) := by
  induction fuel generalizing top with
  | zero => exact absurd enough (Nat.not_lt_zero _)
  | succ fuel ih =>
      rw [memoryExistsLoop]
      by_cases more : top > address
      · rw [if_pos more]
        cases searched : rbSearch space.regions top .nearestLt with
        | none =>
            have missing := search_lt_none searched
            refine .inr ⟨rfl, top - 1, by omega, by omega, fun r member covers => ?_⟩
            have above := missing r member
            have start := covers.1
            omega
        | some region =>
            obtain ⟨member, low, nearest⟩ := search_lt_some searched
            dsimp only
            rw [region_end tidy member]
            by_cases short : region.limit < top
            · rw [if_pos short]
              refine .inr ⟨rfl, top - 1, by omega, by omega, fun r memberR covers => ?_⟩
              have start := covers.1
              have stop := covers.2
              have before := nearest r memberR (by omega)
              by_cases same : r = region
              · rw [same] at stop
                omega
              · have apart := tidy.apart r memberR region member same
                have size := (tidy.placed region member).nonempty
                unfold Apart Region.limit at apart
                unfold Region.limit at stop
                omega
            · rw [if_neg short]
              have fewer := fewer_below member low
              rcases ih region.base (by omega) with ⟨run, covered⟩ | ⟨run, a, low', high, bare⟩
              · refine .inl ⟨run, fun a from_ below => ?_⟩
                by_cases lower : a < region.base
                · exact covered a from_ lower
                · exact ⟨region, member, by omega, by omega⟩
              · exact .inr ⟨run, a, low', by omega, bare⟩
      · rw [if_neg more]
        exact .inl ⟨rfl, fun a from_ below => by omega⟩

theorem memory_exists_returns (address length : Nat) :
    memoryExists space address length = .ok true ∨ memoryExists space address length = .ok false := by
  unfold memoryExists
  split
  · exact .inr rfl
  · have enough : space.regions.countP (fun r => r.base < add64 address length) < space.regions.length + 1 :=
      Nat.lt_succ_of_le List.countP_le_length
    rcases memory_exists_loop_spec tidy address _ _ enough with ⟨run, _⟩ | ⟨run, _⟩
    · exact .inl run
    · exact .inr run

-- What the sum says when it does not wrap.
theorem memory_exists_iff {address length : Nat} (fits : address + length < 2 ^ 64) :
    memoryExists space address length = .ok true ↔ AddressInBounds address space.start space.limit ∧
      AddressInBounds (address + length) space.start space.limit ∧
      ∀ a, address ≤ a → a < address + length → ∃ r ∈ space.regions, r.Covers a := by
  unfold memoryExists
  rw [add64_eq fits]
  by_cases outside : ¬ AddressInBounds address space.start space.limit ∨
      ¬ AddressInBounds (address + length) space.start space.limit
  · rw [if_pos outside]
    refine iff_of_false (by simp) fun inside => ?_
    rcases outside with low | high
    · exact low inside.1
    · exact high inside.2.1
  · rw [if_neg outside]
    rw [not_or, not_not, not_not] at outside
    have enough : space.regions.countP (fun r => r.base < address + length) < space.regions.length + 1 :=
      Nat.lt_succ_of_le List.countP_le_length
    rcases memory_exists_loop_spec tidy address _ _ enough with ⟨run, covered⟩ | ⟨run, a, low, high, bare⟩
    · exact iff_of_true run ⟨outside.1, outside.2, covered⟩
    · refine iff_of_false (by simp [run]) fun inside => ?_
      obtain ⟨r, member, covers⟩ := inside.2.2 a low high
      exact bare r member covers

theorem memory_exists_true {address length : Nat} (above : space.start ≤ address) (below : address + length < space.limit)
    (covered : ∀ a, address ≤ a → a < address + length → ∃ r ∈ space.regions, r.Covers a) :
    memoryExists space address length = .ok true := by
  have fits := tidy.fits
  exact (memory_exists_iff tidy (by omega)).mpr ⟨⟨above, by omega⟩, ⟨by omega, below⟩, covered⟩

end Regions

-- The sum wraps around to an address of the space.
def WrapsInside (space : AddressSpace) (address length : Nat) : Prop :=
  2 ^ 64 ≤ address + length ∧ AddressInBounds address space.start space.limit ∧ space.start ≤ address + length - 2 ^ 64

instance (space : AddressSpace) (address length : Nat) : Decidable (WrapsInside space address length) :=
  inferInstanceAs (Decidable (_ ∧ _ ∧ _))

-- Every byte of the range lies in a region.
def Covered (space : AddressSpace) (address length : Nat) : Prop :=
  ∀ i < length, ∃ r ∈ space.regions, r.Covers (add64 address i)

structure ExistsExactly (space : AddressSpace) (address length : Nat) (answer : Bool) : Prop where
  returns : memoryExists space address length = .ok answer
  only : answer = true → Covered space address length
  whenever : 0 < length → Covered space address length → address + length < 2 ^ 64 → address + length < space.limit →
    answer = true

section Exact

variable {space : AddressSpace} {address length : Nat}

theorem wrapped_sum (addressFits : address < 2 ^ 64) (lengthFits : length < 2 ^ 64) (wrapped : 2 ^ 64 ≤ address + length) :
    add64 address length = address + length - 2 ^ 64 := by
  unfold add64
  omega

-- The loop does not run at all, so that the range counts as there.
theorem wraps_true (addressFits : address < 2 ^ 64) (lengthFits : length < 2 ^ 64) (wraps : WrapsInside space address length) :
    memoryExists space address length = .ok true := by
  obtain ⟨wrapped, inside, above⟩ := wraps
  have limit := inside.2
  unfold memoryExists
  rw [wrapped_sum addressFits lengthFits wrapped, if_neg, memoryExistsLoop, if_neg (by omega)]
  rintro (low | high)
  · exact low inside
  · exact high ⟨above, by omega⟩

-- The last byte of memory is in no space.
theorem wraps_uncovered (tidy : Tidy space) (addressFits : address < 2 ^ 64) (wrapped : 2 ^ 64 ≤ address + length) : ¬ Covered space address length := by
  intro covered
  obtain ⟨r, member, covers⟩ := covered (2 ^ 64 - 1 - address) (by omega)
  have stop := covers.2
  have bound := region_fits tidy member
  have below := (tidy.placed r member).below
  have fits := tidy.fits
  rw [add64_eq (by omega)] at stop
  omega

theorem wraps_outside_false (addressFits : address < 2 ^ 64) (lengthFits : length < 2 ^ 64) (wrapped : 2 ^ 64 ≤ address + length)
    (outside : ¬ WrapsInside space address length) : memoryExists space address length = .ok false := by
  unfold memoryExists
  rw [wrapped_sum addressFits lengthFits wrapped]
  refine if_pos ?_
  by_contra inside
  rw [not_or, not_not, not_not] at inside
  exact outside ⟨wrapped, inside.1, inside.2.1⟩

theorem covered_iff (fits : address + length < 2 ^ 64) :
    Covered space address length ↔ ∀ a, address ≤ a → a < address + length → ∃ r ∈ space.regions, r.Covers a := by
  constructor
  · intro covered a low high
    have there := covered (a - address) (by omega)
    rw [add64_eq (by omega), show address + (a - address) = a by omega] at there
    exact there
  · intro covered i small
    rw [add64_eq (by omega)]
    exact covered (address + i) (by omega) (by omega)

theorem unwrapped_exact (tidy : Tidy space) (fits : address + length < 2 ^ 64) : ∃ answer, ExistsExactly space address length answer := by
  have iff := memory_exists_iff tidy fits
  rw [← covered_iff fits] at iff
  rcases memory_exists_returns tidy address length with run | run
  · exact ⟨true, run, fun _ => (iff.mp run).2.2, fun _ _ _ _ => rfl⟩
  · refine ⟨false, run, fun yes => by simp at yes, fun positive covered _ below => ?_⟩
    obtain ⟨r, member, covers⟩ := covered 0 positive
    rw [add64_eq (by omega), Nat.add_zero] at covers
    have above := (tidy.placed r member).above
    have start := covers.1
    have yes := iff.mpr ⟨⟨by omega, by omega⟩, ⟨by omega, below⟩, covered⟩
    rw [run] at yes
    simp at yes

end Exact

-- memory_exists is exact unless address + length wraps around into the space.
theorem memory_exists_exact_iff (space : AddressSpace) (tidy : Tidy space) (address length : Nat) (addressFits : address < 2 ^ 64)
    (lengthFits : length < 2 ^ 64) :
    (∃ answer, ExistsExactly space address length answer) ↔ ¬ WrapsInside space address length := by
  by_cases fits : address + length < 2 ^ 64
  · exact iff_of_true (unwrapped_exact tidy fits) fun wraps => absurd wraps.1 (by omega)
  · have wrapped : 2 ^ 64 ≤ address + length := by omega
    by_cases wraps : WrapsInside space address length
    · refine iff_of_false ?_ (not_not_intro wraps)
      rintro ⟨answer, exact_⟩
      have yes := wraps_true addressFits lengthFits wraps
      rw [exact_.returns, Except.ok.injEq] at yes
      exact wraps_uncovered tidy addressFits wrapped (exact_.only yes)
    · refine iff_of_true ⟨false, wraps_outside_false addressFits lengthFits wrapped wraps, ?_, ?_⟩ wraps
      · intro yes
        simp at yes
      · intro _ _ below
        omega

-- A process space that has nothing mapped.
def bareSpace : AddressSpace := ⟨[], userspaceStart, userspaceEnd⟩

theorem bare_space_tidy : Tidy bareSpace := ⟨by decide, by simp [bareSpace], by simp [bareSpace]⟩

theorem memory_exists_exact_iff_bare : ∃ answer, ExistsExactly bareSpace 0x5000 0x1000 answer :=
  (memory_exists_exact_iff bareSpace bare_space_tidy 0x5000 0x1000 (by decide) (by decide)).mpr (by decide)

-- The end of the range comes out at 0x4000, below its start.
theorem memory_exists_wraps : ¬ ∃ answer, ExistsExactly bareSpace 0x5000 (2 ^ 64 - 0x1000) answer := by
  rintro ⟨answer, exact_⟩
  have yes : memoryExists bareSpace 0x5000 (2 ^ 64 - 0x1000) = .ok true := by decide
  rw [exact_.returns, Except.ok.injEq] at yes
  obtain ⟨r, member, _⟩ := exact_.only yes 0 (by decide)
  simp [bareSpace] at member

end Elysium.Vm
