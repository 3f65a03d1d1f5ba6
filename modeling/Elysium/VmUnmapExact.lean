import Elysium.VmUnmap
import Elysium.VmRefill

set_option autoImplicit false

namespace Elysium.Vm

-- The arguments rewrite_common asserts.
structure InRange (s : State) (as : SpaceId) (address length : Nat) : Prop where
  aligned : address % pageGranularity = 0
  wholePages : length % pageGranularity = 0
  bounded : SegmentInBounds address length (s.space as).start (s.space as).limit

theorem rewrite_common_eq {s : State} {as : SpaceId} {address length : Nat} {type : RewriteType} {prot : Protection}
    {cache : Cache} (range : InRange s as address length) (positive : 0 < length) (fits : address + length < 2 ^ 64) :
    rewriteCommon as address length type prot cache s = rewriteFirst as address length type prot cache s >>= fun next =>
      rewriteLoop as (address + length) type prot cache (length / pageGranularity) next.2 next.1 := by
  have first : (decide (address % pageGranularity = 0 ∧ length % pageGranularity = 0)) = true :=
    decide_eq_true ⟨range.aligned, range.wholePages⟩
  simp only [rewriteCommon, if_neg (Nat.pos_iff_ne_zero.mp positive), assertThat, first, decide_eq_true range.bounded, if_true,
    bind_ok, add64_eq fits]

-- The regions a call on a range from this address looks at.
def Ahead (address : Nat) (m : Region) : Prop := address < m.limit

-- The loop of an unmap comes to the end of the range without meeting it.
def Misses (regions : List Region) (address limit : Nat) : Prop :=
  ∀ r ∈ regions, Ahead address r → r.base < limit → r.limit < limit

-- The remainder of a region would be placed at the uninitialised split_base: the
-- loop meets a region that goes on past the range, or starts where it ends.
def Displaces (regions : List Region) (address limit : Nat) : Prop :=
  (∃ r ∈ regions, address < r.base ∧ r.base < limit ∧ limit < r.limit) ∨
    (Misses regions address limit ∧ ∃ r ∈ regions, r.base = limit)

-- The next region goes as well.
def Overruns (regions : List Region) (address limit a : Nat) : Prop :=
  Misses regions address limit ∧ ∃ r, NextBeyond regions limit r ∧ r.Covers a

-- Where the loop starts: the regions from the cursor on are those behind the
-- address, and it runs unless the first region holds the end of the range.
structure Cursor (regions : List Region) (address limit c : Nat) (result : List Region) : Prop where
  behind : ∀ m, (m ∈ result ∧ c ≤ m.base) ↔ (m ∈ regions ∧ address < m.base)
  runs : c < limit ↔ ∀ r ∈ regions, r.Covers address → r.limit < limit
  below : c ≤ limit
  before : address < limit

section Cursor

variable {regions result : List Region} {address limit c : Nat} (cursor : Cursor regions address limit c result)

include cursor

theorem cursor_open : Open result c limit ↔ Misses regions address limit := by
  unfold Open
  rw [cursor.runs]
  constructor
  · rintro ⟨first, rest⟩ r inTree aheadR start
    by_cases early : r.base ≤ address
    · exact first r inTree ⟨early, aheadR⟩
    · obtain ⟨inResult, from_c⟩ := (cursor.behind r).mpr ⟨inTree, Nat.lt_of_not_le early⟩
      exact rest r inResult from_c start
  · intro misses
    refine ⟨fun r inTree covers => misses r inTree covers.2 (Nat.lt_of_le_of_lt covers.1 cursor.before), ?_⟩
    intro r inResult from_c start
    obtain ⟨inTree, later⟩ := (cursor.behind r).mp ⟨inResult, from_c⟩
    exact misses r inTree (Nat.lt_of_lt_of_le later (Nat.le_add_right _ _)) start

theorem cursor_past {m : Region} (past : limit ≤ m.base) : m ∈ result ↔ m ∈ regions := by
  have before := cursor.before
  have below := cursor.below
  constructor
  · exact fun inResult => ((cursor.behind m).mp ⟨inResult, by omega⟩).1
  · exact fun inTree => ((cursor.behind m).mpr ⟨inTree, by omega⟩).1

theorem cursor_unplaced : Unplaced result c limit ↔ Displaces regions address limit := by
  refine or_congr ⟨?_, ?_⟩ (and_congr (cursor_open cursor) ⟨?_, ?_⟩)
  · rintro ⟨r, inResult, from_c, start, beyond⟩
    obtain ⟨inTree, later⟩ := (cursor.behind r).mp ⟨inResult, from_c⟩
    exact ⟨r, inTree, later, start, beyond⟩
  · rintro ⟨r, inTree, later, start, beyond⟩
    obtain ⟨inResult, from_c⟩ := (cursor.behind r).mpr ⟨inTree, later⟩
    exact ⟨r, inResult, from_c, start, beyond⟩
  · rintro ⟨r, inResult, at_limit⟩
    exact ⟨r, (cursor_past cursor (Nat.le_of_eq at_limit.symm)).mp inResult, at_limit⟩
  · rintro ⟨r, inTree, at_limit⟩
    exact ⟨r, (cursor_past cursor (Nat.le_of_eq at_limit.symm)).mpr inTree, at_limit⟩

theorem cursor_overrun (a : Nat) : Overrun result c limit a ↔ Overruns regions address limit a := by
  refine and_congr (cursor_open cursor) (exists_congr fun r => and_congr_left' ⟨?_, ?_⟩)
  · rintro ⟨inResult, past, least⟩
    exact ⟨(cursor_past cursor past).mp inResult, past, fun m inTree pastM => least m ((cursor_past cursor pastM).mpr inTree) pastM⟩
  · rintro ⟨inTree, past, least⟩
    exact ⟨(cursor_past cursor past).mpr inTree, past, fun m inResult pastM => least m ((cursor_past cursor pastM).mp inResult) pastM⟩

end Cursor

-- No region lies past the end of the range, or one ends there.
def Closed (regions : List Region) (limit : Nat) : Prop :=
  (∀ r ∈ regions, r.limit ≤ limit) ∨ ∃ r ∈ regions, r.limit = limit

theorem next_beyond_exists {regions : List Region} {limit : Nat} {r : Region} (member : r ∈ regions) (past : limit ≤ r.base) :
    ∃ next, NextBeyond regions limit next := by
  cases found : rbSearch regions limit .nearestGte with
  | none =>
      have below := search_gte_none found r member
      omega
  | some next => exact ⟨next, search_gte_some found⟩

-- Unless the region at the start goes on past the range, the call stays in the
-- range exactly when its end is closed.
theorem closed_iff {space : AddressSpace} (tidy : Tidy space) {address limit : Nat} (before : address < limit)
    (outside : ∀ r ∈ space.regions, r.Covers address → r.limit ≤ limit) :
    Closed space.regions limit ↔
      ¬ Displaces space.regions address limit ∧ ∀ a, ¬ Overruns space.regions address limit a := by
  have sized : ∀ r ∈ space.regions, r.base < r.limit := fun r member =>
    Nat.lt_add_of_pos_right (tidy.placed r member).nonempty
  constructor
  · rintro (below | ⟨last, member, ends⟩)
    · refine ⟨?_, ?_⟩
      · rintro (⟨r, inTree, _, _, beyond⟩ | ⟨_, r, inTree, at_limit⟩)
        · have stop := below r inTree
          omega
        · have stop := below r inTree
          have size := sized r inTree
          omega
      · rintro a ⟨_, r, ⟨inTree, past, _⟩, _⟩
        have stop := below r inTree
        have size := sized r inTree
        omega
    · have size := sized last member
      have met : ¬ Misses space.regions address limit := fun misses => by
        have short := misses last member (show address < last.limit by omega) (by omega)
        omega
      refine ⟨?_, fun a overruns => met overruns.1⟩
      rintro (⟨r, inTree, _, start, beyond⟩ | ⟨misses, _⟩)
      · have same := covering_unique tidy inTree member (x := limit - 1) ⟨by omega, by omega⟩ ⟨by omega, by omega⟩
        rw [same] at beyond
        omega
      · exact met misses
  · rintro ⟨placed, bounded⟩
    by_cases below : ∀ r ∈ space.regions, r.limit ≤ limit
    · exact .inl below
    · refine .inr ?_
      push Not at below
      obtain ⟨far, member, beyond⟩ := below
      by_cases misses : Misses space.regions address limit
      · -- A region behind the range would be met by the loop.
        have past : limit ≤ far.base := by
          by_contra starts
          have short := misses far member (show address < far.limit by omega) (by omega)
          omega
        obtain ⟨next, found⟩ := next_beyond_exists member past
        have size := sized next found.1
        exact absurd ⟨misses, next, found, Nat.le_refl _, size⟩ (bounded next.base)
      · unfold Misses at misses
        push Not at misses
        obtain ⟨r, inTree, aheadR, start, reaches⟩ := misses
        refine ⟨r, inTree, Nat.le_antisymm ?_ reaches⟩
        by_contra further
        by_cases early : r.base ≤ address
        · exact further (outside r inTree ⟨early, aheadR⟩)
        · exact placed (.inl ⟨r, inTree, by omega, start, by omega⟩)

def UnmapsPointwise (s : State) (as : SpaceId) (address length : Nat) : Prop :=
  ∃ s', vmUnmap as address length s = .ok s' ∧
    Removes (fun a => address ≤ a ∧ a < address + length) (s.space as).regions (s'.space as).regions

section Unmap

variable {s : State} {as : SpaceId} {address length : Nat} (tidy : Tidy (s.space as)) (range : InRange s as address length)
  (positive : 0 < length)

include tidy range

theorem range_fits : address + length < 2 ^ 64 := in_bounds_fits tidy range.bounded

include positive

theorem unmap_bare_eq (bare : ∀ r ∈ (s.space as).regions, ¬ r.Covers address) :
    vmUnmap as address length s =
      rewriteLoop as (address + length) .delete protNone .standard (length / pageGranularity) address s := by
  rw [vmUnmap, rewrite_common_eq range positive (range_fits tidy range), rewrite_first_bare tidy bare, bind_ok]

theorem unmap_first_eq {split : Region} (member : split ∈ (s.space as).regions) (covers : split.Covers address) :
    vmUnmap as address length s =
      carveFirst as split.id address (firstLength split address length)
        (s.request (.unmap split.addressSpace address (firstLength split address length))) >>= fun t =>
          rewriteLoop as (address + length) .delete protNone .standard (length / pageGranularity)
            (address + firstLength split address length) t := by
  rw [vmUnmap, rewrite_common_eq range positive (range_fits tidy range),
    delete_first_eq tidy member covers positive range.aligned range.wholePages]
  generalize carveFirst as split.id address (firstLength split address length)
    (s.request (.unmap split.addressSpace address (firstLength split address length))) = outcome
  cases outcome with
  | error fault => rfl
  | ok t => rfl

-- The whole range lies in one region that goes on behind it.
theorem unmap_inside_eq {split : Region} (member : split ∈ (s.space as).regions) (covers : split.Covers address)
    (beyond : address + length < split.limit) :
    vmUnmap as address length s =
      carveFirst as split.id address length (s.request (.unmap split.addressSpace address length)) := by
  have whole : firstLength split address length = length := by
    unfold firstLength
    omega
  rw [unmap_first_eq tidy range positive member covers, whole]
  generalize carveFirst as split.id address length (s.request (.unmap split.addressSpace address length)) = outcome
  cases outcome with
  | error fault => rfl
  | ok t => exact rewrite_loop_done (Nat.le_refl _) _ t

variable (owned : Owned s [])

include owned

omit range owned in
theorem bare_cursor (bare : ∀ r ∈ (s.space as).regions, ¬ r.Covers address) :
    Cursor (s.space as).regions address (address + length) address (s.space as).regions := by
  refine ⟨fun m => and_congr_right fun inTree => ?_, ?_, by omega, by omega⟩
  · have covers := bare m inTree
    have nonempty := (tidy.placed m inTree).nonempty
    unfold Region.Covers Region.limit at covers
    omega
  · exact iff_of_true (by omega) fun r inTree covers => absurd covers (bare r inTree)

-- A call whose first region does not go on past the range needs no clone.
theorem unmap_outside_spec (outside : ∀ r ∈ (s.space as).regions, r.Covers address → r.limit ≤ address + length) :
    (¬ Displaces (s.space as).regions address (address + length) ∧ ∃ u, vmUnmap as address length s = .ok u ∧ Owned u [] ∧
        Steady as s u ∧ Tidy (u.space as) ∧
        Removes (fun a => (address ≤ a ∧ a < address + length) ∨ Overruns (s.space as).regions address (address + length) a)
          (s.space as).regions (u.space as).regions) ∨
      (Displaces (s.space as).regions address (address + length) ∧ vmUnmap as address length s = .error .undefined) := by
  have fits := range_fits tidy range
  have aligned : (address + length) % pageGranularity = 0 := by
    rw [Nat.add_mod, range.aligned, range.wholePages]
    rfl
  have fuel : length / pageGranularity * pageGranularity = length :=
    Nat.div_mul_cancel (Nat.dvd_of_mod_eq_zero range.wholePages)
  by_cases bare : ∀ r ∈ (s.space as).regions, ¬ r.Covers address
  · have cursor := bare_cursor tidy positive bare
    rw [unmap_bare_eq tidy range positive bare]
    rcases @delete_loop_spec as (address + length) protNone .standard fits aligned (length / pageGranularity) address s tidy owned
      (by omega) (fun _ r inTree both => bare r inTree ⟨Nat.le_of_lt both.1, both.2⟩) with
      ⟨placed, u, run, ownedU, quiet, tidyU, removes⟩ | ⟨unplaced, run⟩
    · rw [cursor_unplaced cursor] at placed
      refine .inl ⟨placed, u, run, ownedU, quiet_steady quiet, tidyU, fun a v => ?_⟩
      rw [removes a v]
      dsimp only
      rw [cursor_overrun cursor]
    · rw [cursor_unplaced cursor] at unplaced
      exact .inr ⟨unplaced, run⟩
  · push Not at bare
    obtain ⟨split, member, covers⟩ := bare
    have inside := outside split member covers
    have stop := covers.2
    have low := covers.1
    have taken : address + firstLength split address length = split.limit := by
      unfold firstLength
      omega
    have tidyR : Tidy ((s.request (.unmap split.addressSpace address (firstLength split address length))).space as) := tidy
    have ownedR : Owned (s.request (.unmap split.addressSpace address (firstLength split address length))) [] :=
      owned_congr owned rfl rfl rfl
    rcases carve_first_spec (b := address) (n := firstLength split address length) tidyR ownedR
      (fun tail => absurd tail (by omega)) member low (by omega) with
      ⟨t, id, run, carved, ownedT, aside, _, _⟩ | ⟨tail, _⟩
    · have asideT : Steady as s t := steady_trans (quiet_steady (quiet_request as s _)) aside
      have removed := carved_maps tidy member low (by omega) carved
      have tidyT : Tidy (t.space as) := carved_tidy tidy member low (by omega) carved (aside.start as) (aside.limit as) rfl
        range.aligned (first_length_aligned tidy member range.aligned range.wholePages)
      have within : ∀ m ∈ (t.space as).regions, (m ∈ (s.space as).regions ∧ m ≠ split) ∨ m.limit ≤ address := by
        intro m inT
        rcases carved_within low (by omega) carved inT with old | ⟨_, high, edge⟩
        · exact .inl old
        · have nonempty := (tidyT.placed m inT).nonempty
          have size : m.limit = m.base + m.length := rfl
          exact .inr (by omega)
      have cursor : Cursor (s.space as).regions address (address + length) split.limit (t.space as).regions := by
        refine ⟨fun m => ⟨?_, ?_⟩, ⟨fun short r inTree coversR => ?_, fun short => short split member covers⟩, inside, by omega⟩
        · rintro ⟨inT, from_limit⟩
          rcases within m inT with ⟨old, _⟩ | before
          · exact ⟨old, by omega⟩
          · have size : m.base ≤ m.limit := Nat.le_add_right _ _
            omega
        · rintro ⟨inTree, later⟩
          have different : m ≠ split := fun same => by
            rw [same] at later
            omega
          have apart := tidy.apart m inTree split member different
          have size : m.base ≤ m.limit := Nat.le_add_right _ _
          unfold Apart at apart
          exact ⟨(carved.mem m).mpr (.inl ⟨inTree, different⟩), by omega⟩
        · rw [covering_unique tidy inTree member coversR covers]
          exact short
      rw [unmap_first_eq tidy range positive member covers, run, bind_ok, taken]
      have clear : split.limit < address + length →
          ∀ m ∈ (t.space as).regions, ¬ (m.base < split.limit ∧ split.limit < m.limit) := by
        intro _ m inT both
        cases within m inT with
        | inl old =>
            have apart := tidy.apart m old.1 split member old.2
            unfold Apart at apart
            omega
        | inr before => omega
      rcases @delete_loop_spec as (address + length) protNone .standard fits aligned (length / pageGranularity) split.limit t tidyT
        ownedT (by omega) clear with ⟨placed, u, done, ownedU, quiet, tidyU, removes⟩ | ⟨unplaced, done⟩
      · rw [cursor_unplaced cursor] at placed
        refine .inl ⟨placed, u, done, ownedU, steady_trans asideT (quiet_steady quiet), tidyU, ?_⟩
        refine removes_trans removed removes fun a v _ => ?_
        rw [cursor_overrun cursor, taken, ← or_assoc]
        refine or_congr ?_ Iff.rfl
        omega
      · rw [cursor_unplaced cursor] at unplaced
        exact .inr ⟨unplaced, done⟩
    · omega

theorem unmap_outside_iff (outside : ∀ r ∈ (s.space as).regions, r.Covers address → r.limit ≤ address + length) :
    UnmapsPointwise s as address length ↔ Closed (s.space as).regions (address + length) := by
  rw [closed_iff tidy (by omega) outside]
  rcases unmap_outside_spec tidy range positive owned outside with ⟨placed, u, run, _, _, _, removes⟩ | ⟨displaces, run⟩
  · constructor
    · rintro ⟨u', run', exact⟩
      obtain rfl : u = u' := Except.ok.inj (run.symm.trans run')
      refine ⟨placed, fun a overruns => ?_⟩
      obtain ⟨misses, r, found, covers⟩ := overruns
      have first : r.Covers r.base := ⟨Nat.le_refl _, Nat.lt_of_le_of_lt covers.1 covers.2⟩
      -- The region past the range has lost its pages.
      have lost := (removes r.base (r.at r.base)).not.mpr fun both => both.2 (.inr ⟨misses, r, found, first⟩)
      refine lost ((exact r.base (r.at r.base)).mpr ⟨⟨r, found.1, first, rfl⟩, ?_⟩)
      have past := found.2.1
      omega
    · rintro ⟨_, bounded⟩
      refine ⟨u, run, fun a v => ?_⟩
      rw [removes a v]
      refine and_congr_right fun _ => not_congr ⟨fun inside => ?_, .inl⟩
      exact inside.resolve_right (bounded a)
  · refine iff_of_false ?_ fun both => both.1 displaces
    rintro ⟨u, run', _⟩
    rw [run] at run'
    exact absurd run' (by simp)

theorem unmap_inside_supplied {split : Region} (member : split ∈ (s.space as).regions) (covers : split.Covers address)
    (beyond : address + length < split.limit) (supply : Supply 1 s as) :
    UnmapsPointwise s as address length ↔ CloneFits (address + length) split := by
  have tidyR : Tidy ((s.request (.unmap split.addressSpace address length)).space as) := tidy
  have ownedR : Owned (s.request (.unmap split.addressSpace address length)) [] := owned_congr owned rfl rfl rfl
  have supplyR : Supply 1 (s.request (.unmap split.addressSpace address length)) as :=
    supply_quiet (quiet_request as s _) supply
  unfold UnmapsPointwise
  rw [unmap_inside_eq tidy range positive member covers beyond]
  by_cases fits : CloneFits (address + length) split
  · refine iff_of_true ?_ fits
    rcases carve_first_spec tidyR ownedR (fun _ => supplyR) member covers.1 (Nat.le_of_lt beyond) with
      ⟨t, id, run, carved, _⟩ | ⟨_, fails, _⟩
    · exact ⟨t, run, carved_maps tidy member covers.1 (Nat.le_of_lt beyond) carved⟩
    · exact absurd fits fails
  · refine iff_of_false ?_ fits
    rintro ⟨t, run, _⟩
    rw [carve_first_eq tidyR ownedR member (Nat.le_of_lt beyond), if_pos beyond, insertClone] at run
    rcases clone_spec ownedR (by decide) supplyR member (address + length) (split.limit - (address + length))
      (Nat.le_trans covers.1 (Nat.le_add_right _ _)) with ⟨fitting, _⟩ | ⟨_, failed⟩
    · exact fits fitting
    · rw [failed] at run
      exact absurd run (by simp [bind, Except.bind])

end Unmap

-- A refill on the tree of the call itself leaves no trace in the page map only
-- when the region that is cut takes in the pool page, and nothing behind it.
structure Absorbs (s : State) (split : Region) : Prop where
  dry : s.cache = []
  refills : Refills s
  page : ∃ hole, LowestHole (s.space .global) pageGranularity hole ∧ Joins split (poolRegion s.nextRegion hole) ∧
    ∀ m ∈ (s.space .global).regions, ¬ Joins (poolRegion s.nextRegion hole) m

-- Where vm_unmap is pointwise: nothing to do, an end of the range that no region
-- lies behind or that a region ends at, or a range inside one region whose
-- remainder can be cloned.
def UnmapSafe (s : State) (as : SpaceId) (address length : Nat) : Prop :=
  length = 0 ∨ Closed (s.space as).regions (address + length) ∨
    ∃ r ∈ (s.space as).regions, r.base ≤ address ∧ address + length < r.limit ∧ CloneFits (address + length) r ∧
      (Supply 1 s as ∨ (as = .global ∧ Absorbs s r))

theorem pool_covers {hole id : Nat} : (poolRegion id hole).Covers hole :=
  ⟨Nat.le_refl _, Nat.lt_add_of_pos_right (by decide : 0 < pageGranularity)⟩

theorem hole_uncovered {space : AddressSpace} {hole : Nat} (free : Hole space pageGranularity hole) (v : Attributes) :
    ¬ Maps space.regions hole v := by
  rintro ⟨r, member, covers, _⟩
  have positive : 0 < pageGranularity := by decide
  have start := covers.1
  have stop := covers.2
  rcases free.2 r member with below | above <;> omega

section Dry

variable {s t : State} {hole : Nat} {whole split : Region} {address length : Nat} (tidy : Tidy (s.space .global))
  (owned : Owned s []) (dry : s.cache = []) (run : refillCache s = .ok t) (refilled : Refilled s [] t hole whole)
  (member : split ∈ (s.space .global).regions) (low : split.base ≤ address) (beyond : address + length < split.limit)

include tidy owned dry run refilled member low beyond

-- The pool page is there afterwards, though nothing was there before.
theorem dry_carve_apart (right : ¬ Joins (poolRegion s.nextRegion hole) split)
    (left : ¬ Joins split (poolRegion s.nextRegion hole)) (tidyT : Tidy (t.space .global)) {u : State}
    (done : carveFirst .global split.id address length s = .ok u) :
    ∃ v, Maps (u.space .global).regions hole v := by
  have memberT := refilled_keeps refilled member right left
  have same : carveFirst .global split.id address length s = carveFirst .global split.id address length t := by
    rw [carve_first_eq tidy owned member (Nat.le_of_lt beyond),
      carve_first_eq tidyT refilled.owned memberT (Nat.le_of_lt beyond), if_pos beyond, if_pos beyond,
      insert_clone_after_refill dry run refilled]
  have supply : Supply 1 t .global := refilled_supply 1 (by decide) .global refilled
  rcases carve_first_spec tidyT refilled.owned (fun _ => supply) memberT low (Nat.le_of_lt beyond) with
    ⟨u', id, done', carved, _⟩ | ⟨_, _, failed⟩
  · obtain rfl : u = u' := Except.ok.inj (done.symm.trans (same.trans done'))
    refine ⟨(poolRegion s.nextRegion hole).at hole, (carved_maps tidyT memberT low (Nat.le_of_lt beyond) carved _ _).mpr ⟨?_, ?_⟩⟩
    · exact (joined_maps tidy refilled.joined _ _).mpr (.inr ⟨pool_covers, rfl⟩)
    · intro inside
      refine hole_uncovered refilled.lowest.1 (split.at hole) ⟨split, member, ⟨by omega, by omega⟩, rfl⟩
  · rw [same, failed] at done
    exact absurd done (by simp)

theorem dry_carve_absorbed (left : Joins split (poolRegion s.nextRegion hole)) :
    (∃ u, carveFirst .global split.id address length s = .ok u ∧
      Removes (fun a => address ≤ a ∧ a < address + length) (s.space .global).regions (u.space .global).regions) ↔
      CloneFits (address + length) split ∧ ∀ m ∈ (s.space .global).regions, ¬ Joins (poolRegion s.nextRegion hole) m := by
  have kept : ∀ m, (m ∈ (t.space .global).regions ∧ m ≠ whole) ↔
      m ∈ (s.space .global).regions ∧ m ≠ split ∧ ¬ Joins (poolRegion s.nextRegion hole) m := by
    intro m
    rw [refilled.joined.mem m]
    have unique : ∀ m ∈ (s.space .global).regions, Joins m (poolRegion s.nextRegion hole) ↔ m = split := fun m inTree =>
      ⟨fun joins => joins_left_unique tidy inTree member joins left, fun same => same ▸ left⟩
    constructor
    · rintro ⟨⟨inTree, notRight, notLeft⟩ | same, different⟩
      · exact ⟨inTree, fun same => notLeft ((unique m inTree).mpr same), notRight⟩
      · exact absurd same different
    · rintro ⟨inTree, notSplit, notRight⟩
      refine ⟨.inl ⟨inTree, notRight, fun joins => notSplit ((unique m inTree).mp joins)⟩, fun same => ?_⟩
      -- A region of the old tree other than the grown one has another identity.
      obtain ⟨_, grown⟩ := refilled_absorbs tidy refilled member left
      refine notSplit (owned_same_id owned .global inTree member ?_)
      rw [same, grown]
  rcases absorbed_carve owned tidy dry run refilled member left low beyond with
    ⟨fits, u, id, done, _, _, mem⟩ | ⟨fails, failed⟩
  · constructor
    · rintro ⟨u', done', removes⟩
      obtain rfl : u = u' := Except.ok.inj (done.symm.trans done')
      refine ⟨fits, fun r inTree joins => ?_⟩
      have adjacent := joins.1
      have ends := left.1
      have size : r.base < r.limit := Nat.lt_add_of_pos_right (tidy.placed r inTree).nonempty
      have poolLimit : (poolRegion s.nextRegion hole).limit = hole + pageGranularity := rfl
      have poolBase : (poolRegion s.nextRegion hole).base = hole := rfl
      -- The region behind the pool page went with it.
      obtain ⟨m, inU, covers, _⟩ := (removes r.base (r.at r.base)).mpr ⟨⟨r, inTree, ⟨Nat.le_refl _, size⟩, rfl⟩, by omega⟩
      have start := covers.1
      have stop := covers.2
      rcases (mem m).mp inU with old | ⟨_, rfl⟩ | rfl
      · obtain ⟨inTreeM, _, notRight⟩ := (kept m).mp old
        have same := covering_unique tidy inTreeM inTree covers ⟨Nat.le_refl _, size⟩
        exact notRight (same ▸ joins)
      · have reach : r.base < split.base + (address - split.base) := stop
        omega
      · have reach : r.base < address + length + (split.limit - (address + length)) := stop
        omega
    · rintro ⟨_, alone⟩
      have carved : Carved (s.space .global).regions split address length id (u.space .global).regions := by
        refine ⟨fun m => ?_⟩
        rw [mem m, kept m]
        refine or_congr ?_ (or_congr Iff.rfl ⟨fun same => ⟨beyond, same⟩, fun both => both.2⟩)
        exact ⟨fun old => ⟨old.1, old.2.1⟩, fun old => ⟨old.1, old.2, alone m old.1⟩⟩
      exact ⟨u, done, carved_maps tidy member low (Nat.le_of_lt beyond) carved⟩
  · refine iff_of_false ?_ fun both => fails both.1
    rintro ⟨u, done, _⟩
    rw [failed] at done
    exact absurd done (by simp)

end Dry

theorem carve_fails {s : State} {as : SpaceId} {split : Region} {address length : Nat} {fault : Fault} {t : State}
    (tidy : Tidy (s.space as)) (owned : Owned s []) (member : split ∈ (s.space as).regions)
    (beyond : address + length < split.limit)
    (failed : cloneTo as (address + length) (split.limit - (address + length)) split.id s = .error fault) :
    carveFirst as split.id address length s ≠ .ok t := by
  rw [carve_first_eq tidy owned member (Nat.le_of_lt beyond), if_pos beyond, insertClone, failed]
  simp [bind, Except.bind]

theorem dry_carve_fails {s t : State} {as : SpaceId} {split : Region} {address length : Nat} {fault : Fault}
    (tidy : Tidy (s.space as)) (owned : Owned s []) (member : split ∈ (s.space as).regions)
    (beyond : address + length < split.limit) (dry : s.cache = []) (run : refillCache s = .error fault) :
    carveFirst as split.id address length s ≠ .ok t := by
  refine @carve_fails s as split address length fault t tidy owned member beyond ?_
  rw [cloneTo, region_alloc_empty dry, run]
  rfl

theorem unmap_inside_iff {s : State} {as : SpaceId} {address length : Nat} {split : Region} (owned : Owned s [])
    (hosts : Hosts s) (tidy : Tidy (s.space as)) (range : InRange s as address length) (positive : 0 < length)
    (member : split ∈ (s.space as).regions) (covers : split.Covers address) (beyond : address + length < split.limit) :
    UnmapsPointwise s as address length ↔
      CloneFits (address + length) split ∧ (Supply 1 s as ∨ (as = .global ∧ Absorbs s split)) := by
  by_cases supply : Supply 1 s as
  · rw [unmap_inside_supplied tidy range positive owned member covers beyond supply]
    exact ⟨fun fits => ⟨fits, .inl supply⟩, fun both => both.1⟩
  · have dry : s.cache = [] := by
      by_contra some
      exact supply (.inl (List.length_pos_iff.mpr some))
    obtain ⟨r, requested⟩ : ∃ r, r = s.request (.unmap split.addressSpace address length) := ⟨_, rfl⟩
    have space : r.space = s.space := requested ▸ rfl
    have next : r.nextRegion = s.nextRegion := requested ▸ rfl
    have dryR : r.cache = [] := requested ▸ dry
    have ownedR : Owned r [] := owned_congr owned space (requested ▸ rfl) next
    have hostsR : Hosts r := hosts_congr hosts (by rw [space])
    have tidyR : Tidy (r.space as) := space ▸ tidy
    have memberR : split ∈ (r.space as).regions := space ▸ member
    have refillsBack : Refills r → Refills s := fun refills => refills_congr refills (requested ▸ rfl) (by rw [space])
    have pointwise : UnmapsPointwise s as address length ↔ ∃ u, carveFirst as split.id address length r = .ok u ∧
        Removes (fun a => address ≤ a ∧ a < address + length) (r.space as).regions (u.space as).regions := by
      unfold UnmapsPointwise
      rw [unmap_inside_eq tidy range positive member covers beyond, requested]
      rfl
    rw [pointwise]
    rcases refill_spec hostsR ownedR with ⟨t, hole, whole, run, refilled, refills⟩ | ⟨run, none⟩ | ⟨run, none⟩
    · have isGlobal : as = .global := by
        by_contra other
        exact supply (.inr ⟨other, refillsBack refills⟩)
      subst isGlobal
      have absorbs : Absorbs s split ↔ Joins split (poolRegion r.nextRegion hole) ∧
          ∀ m ∈ (r.space .global).regions, ¬ Joins (poolRegion r.nextRegion hole) m := by
        rw [space, next]
        have lowest : LowestHole (s.space .global) pageGranularity hole := space ▸ refilled.lowest
        constructor
        · rintro ⟨_, _, other, lowestO, joins, alone⟩
          obtain rfl := Nat.le_antisymm (lowestO.2 hole lowest.1) (lowest.2 other lowestO.1)
          exact ⟨joins, alone⟩
        · rintro ⟨joins, alone⟩
          exact ⟨dry, refillsBack refills, hole, lowest, joins, alone⟩
      by_cases left : Joins split (poolRegion r.nextRegion hole)
      · rw [dry_carve_absorbed tidyR ownedR dryR run refilled memberR covers.1 beyond left, absorbs]
        refine and_congr_right fun _ => ⟨fun alone => .inr ⟨rfl, left, alone⟩, fun either => ?_⟩
        exact (either.resolve_left supply).2.2
      · refine iff_of_false ?_ ?_
        · rintro ⟨u, done, removes⟩
          by_cases right : Joins (poolRegion r.nextRegion hole) split
          · exact carve_fails tidyR ownedR memberR beyond
              (swallowed_clone ownedR tidyR refilled memberR dryR run right _ _) done
          · obtain ⟨v, covered⟩ := dry_carve_apart tidyR ownedR dryR run refilled memberR covers.1 beyond right left
              (refilled_hosts hostsR refilled).tidy done
            exact hole_uncovered refilled.lowest.1 v ((removes hole v).mp covered).1
        · rintro ⟨_, either⟩
          exact left (absorbs.mp (either.resolve_left supply).2).1
    · refine iff_of_false ?_ fun both => ?_
      · rintro ⟨u, done, _⟩
        exact dry_carve_fails tidyR ownedR memberR beyond dryR run done
      · obtain ⟨result, allocated⟩ := (both.2.resolve_left supply).2.refills.page
        exact none ⟨result, requested ▸ allocated⟩
    · refine iff_of_false ?_ fun both => ?_
      · rintro ⟨u, done, _⟩
        exact dry_carve_fails tidyR ownedR memberR beyond dryR run done
      · obtain ⟨hole, free⟩ := (both.2.resolve_left supply).2.refills.hole
        exact none hole (space ▸ free)

-- vm_unmap is pointwise exactly where UnmapSafe says.
theorem unmap_pointwise_iff (s : State) (as : SpaceId) (address length : Nat) (owned : Owned s []) (hosts : Hosts s)
    (tidy : Tidy (s.space as)) (range : InRange s as address length) :
    UnmapsPointwise s as address length ↔ UnmapSafe s as address length := by
  unfold UnmapSafe
  rcases Nat.eq_zero_or_pos length with rfl | positive
  · refine iff_of_true ⟨s, rfl, removes_nothing fun a v _ => by omega⟩ (.inl rfl)
  · have nonzero : length ≠ 0 := by omega
    rw [or_iff_right nonzero]
    by_cases outside : ∀ r ∈ (s.space as).regions, r.Covers address → r.limit ≤ address + length
    · rw [unmap_outside_iff tidy range positive owned outside]
      refine ⟨.inl, fun either => either.resolve_right ?_⟩
      rintro ⟨r, member, start, stop, _⟩
      have bound := outside r member ⟨start, by omega⟩
      omega
    · push Not at outside
      obtain ⟨split, member, covers, beyond⟩ := outside
      rw [unmap_inside_iff owned hosts tidy range positive member covers beyond]
      constructor
      · rintro ⟨fits, served⟩
        exact .inr ⟨split, member, covers.1, beyond, fits, served⟩
      · rintro (closed | ⟨r, memberR, start, stop, fits, served⟩)
        · refine absurd closed ?_
          have start := covers.1
          rintro (below | ⟨r, memberR, ends⟩)
          · have bound := below split member
            omega
          · have size : r.base < r.limit := Nat.lt_add_of_pos_right (tidy.placed r memberR).nonempty
            have same := covering_unique tidy memberR member (x := address + length - 1) ⟨by omega, by omega⟩
              ⟨by omega, by omega⟩
            rw [same] at ends
            omega
        · rw [covering_unique tidy member memberR covers ⟨start, by omega⟩]
          exact ⟨fits, served⟩

-- An anonymous region of the first process that is backed on demand.
def lazyRegion (id base length : Nat) (prot : Protection) : Region where
  id := id
  addressSpace := .process 0
  base := base
  length := length
  backing := .anon false
  protection := prot
  cacheBehavior := .standard
  dynamicallyBacked := true

theorem lazy_placed (id base length : Nat) (prot : Protection) (nonempty : 0 < length) (aligned : base % pageGranularity = 0)
    (wholePages : length % pageGranularity = 0) (above : userspaceStart ≤ base) (below : base + length ≤ userspaceEnd) :
    Placed (freshSpace (.process 0)) (lazyRegion id base length prot) := ⟨nonempty, aligned, wholePages, above, below⟩

theorem unmap_pointwise_iff_inside :
    UnmapSafe (singleState (lazyRegion 9 0x4000 0x4000 protRW) [7]) (.process 0) 0x5000 0x1000 ∧
      UnmapsPointwise (singleState (lazyRegion 9 0x4000 0x4000 protRW) [7]) (.process 0) 0x5000 0x1000 := by
  have safe : UnmapSafe (singleState (lazyRegion 9 0x4000 0x4000 protRW) [7]) (.process 0) 0x5000 0x1000 :=
    .inr (.inr ⟨lazyRegion 9 0x4000 0x4000 protRW, List.mem_singleton.mpr rfl, by decide, by decide, by decide, .inl (.inl (by decide))⟩)
  refine ⟨safe, (unmap_pointwise_iff _ _ _ _ (single_owned _ [7] (by decide) (by decide)) (single_hosts _ [7] (by decide))
    (single_tidy _ [7] (lazy_placed 9 0x4000 0x4000 protRW (by decide) (by decide) (by decide) (by decide) (by decide))) ?_).mpr safe⟩
  exact ⟨by decide, by decide, by decide⟩

-- The loop takes the next region for a part of the range, however far away it is.
theorem unmap_deletes_next_region :
    Owned (singleState (lazyRegion 9 0x5000 0x1000 protRW) [7]) [] ∧
      Tidy ((singleState (lazyRegion 9 0x5000 0x1000 protRW) [7]).space (.process 0)) ∧
      InRange (singleState (lazyRegion 9 0x5000 0x1000 protRW) [7]) (.process 0) 0x1000 0x1000 ∧
      (vmUnmap (.process 0) 0x1000 0x1000 (singleState (lazyRegion 9 0x5000 0x1000 protRW) [7])).toOption.map
        (fun s => (s.space (.process 0)).regions) = some [] ∧
      ¬ UnmapsPointwise (singleState (lazyRegion 9 0x5000 0x1000 protRW) [7]) (.process 0) 0x1000 0x1000 := by
  refine ⟨single_owned _ [7] (by decide) (by decide),
    single_tidy _ [7] (lazy_placed 9 0x5000 0x1000 protRW (by decide) (by decide) (by decide) (by decide) (by decide)),
    ⟨by decide, by decide, by decide⟩, by rfl, ?_⟩
  rintro ⟨s', run, removes⟩
  have gone : (s'.space (.process 0)).regions = [] := Option.some.inj (congrArg (fun r => r.toOption.map
    fun s => (s.space (.process 0)).regions) run).symm
  obtain ⟨r, member, _⟩ := (removes 0x5000 ((lazyRegion 9 0x5000 0x1000 protRW).at 0x5000)).mpr
    ⟨⟨lazyRegion 9 0x5000 0x1000 protRW, List.mem_singleton.mpr rfl, ⟨by decide, by decide⟩, rfl⟩, by decide⟩
  exact absurd (gone ▸ member) List.not_mem_nil

end Elysium.Vm
