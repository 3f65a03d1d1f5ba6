import Elysium.VmCarve

set_option autoImplicit false

namespace Elysium.Vm

theorem page_multiple {n : Nat} (positive : 0 < n) (aligned : n % pageGranularity = 0) : pageGranularity ≤ n := by
  by_contra less
  rw [Nat.mod_eq_of_lt (Nat.lt_of_not_le less)] at aligned
  omega

theorem sub_aligned {a b : Nat} (first : a % pageGranularity = 0) (second : b % pageGranularity = 0) :
    (a - b) % pageGranularity = 0 := Nat.sub_mod_eq_zero_of_mod_eq (first.trans second.symm)

theorem region_unmap_ok {region : Region} {address length : Nat} (s : State) (aligned : address % pageGranularity = 0)
    (wholePages : length % pageGranularity = 0) (above : region.base ≤ address) (below : address + length ≤ region.limit)
    (fits : region.limit < 2 ^ 64) :
    regionUnmap region address length s = .ok (s.request (.unmap region.addressSpace address length)) := by
  have sum : add64 address length = address + length := add64_eq (by omega)
  have limit : add64 region.base region.length = region.limit := add64_eq fits
  have first : (decide (address % pageGranularity = 0 ∧ length % pageGranularity = 0)) = true :=
    decide_eq_true ⟨aligned, wholePages⟩
  have second : (decide (address ≥ region.base ∧ add64 address length ≤ add64 region.base region.length)) = true :=
    decide_eq_true ⟨above, by rw [sum, limit]; exact below⟩
  simp only [regionUnmap, assertThat, first, second, if_true, bind_ok]

-- The addresses inside lose their attributes, the others keep them.
def Removes (inside : Nat → Prop) (regions result : List Region) : Prop :=
  ∀ a v, Maps result a v ↔ Maps regions a v ∧ ¬ inside a

-- The loop comes to the end of the range with its cursor short of it: nothing
-- from the cursor on reaches the end.
def Open (regions : List Region) (c limit : Nat) : Prop :=
  c < limit ∧ ∀ r ∈ regions, c ≤ r.base → r.base < limit → r.limit < limit

-- The next region past the range, which the loop takes for a part of it.
def NextBeyond (regions : List Region) (limit : Nat) (r : Region) : Prop :=
  r ∈ regions ∧ limit ≤ r.base ∧ ∀ m ∈ regions, limit ≤ m.base → r.base ≤ m.base

-- The remainder of a region would be placed at the uninitialised split_base.
def Unplaced (regions : List Region) (c limit : Nat) : Prop :=
  (∃ r ∈ regions, c ≤ r.base ∧ r.base < limit ∧ limit < r.limit) ∨ (Open regions c limit ∧ ∃ r ∈ regions, r.base = limit)

def Overrun (regions : List Region) (c limit a : Nat) : Prop :=
  Open regions c limit ∧ ∃ r, NextBeyond regions limit r ∧ r.Covers a

section DeleteRound

variable {s : State} {as : SpaceId} {held : List Nat} {limit : Nat} {prot : Protection} {cache : Cache} {split : Region}
  (tidy : Tidy (s.space as)) (owned : Owned s held) (member : split ∈ (s.space as).regions)

include tidy owned member

theorem delete_next_whole (whole : split.limit ≤ limit ∨ limit < split.base) (fits : limit < 2 ^ 64) :
    ∃ t, rewriteNext as limit .delete prot cache split s = .ok t ∧ Owned t held ∧ Quiet as s t ∧
      (∀ m, m ∈ (t.space as).regions ↔ m ∈ (s.space as).regions ∧ m ≠ split) := by
  have placed := tidy.placed split member
  have below := region_fits tidy member
  have size : split.limit = split.base + split.length := rfl
  have chosen : (if sub64 limit split.base > split.length then split.length else sub64 limit split.base) = split.length := by
    rcases whole with inside | past
    · rw [sub64_eq (by omega) fits]
      by_cases longer : limit - split.base > split.length
      · rw [if_pos longer]
      · rw [if_neg longer]
        omega
    · -- The subtraction wraps, so the length is cut to that of the region.
      rw [sub64_wrap past (by omega), if_pos (by omega)]
  have unmapped := region_unmap_ok s placed.baseAligned placed.lengthAligned (Nat.le_refl _) (Nat.le_refl _) below
  have ownedT : Owned (s.request (.unmap split.addressSpace split.base split.length)) held := owned_congr owned rfl rfl rfl
  have memberT : split ∈ ((s.request (.unmap split.addressSpace split.base split.length)).space as).regions := member
  refine ⟨_, ?_, owned_drop as split memberT ownedT, ?_, fun m => ?_⟩
  · simp only [rewriteNext, chosen, unmapped, bind_ok, gt_iff_lt, Nat.lt_irrefl, if_false]
    exact drop_region_member ownedT memberT
  · exact quiet_trans (quiet_request as s _) (quiet_trans (quiet_set_regions as _ _) (quiet_free as _ _))
  · rw [region_free_space, set_regions_regions]
    exact remove_mem owned member m

omit owned in
theorem delete_next_part (part : split.base ≤ limit) (beyond : limit < split.limit) (aligned : limit % pageGranularity = 0) :
    rewriteNext as limit .delete prot cache split s = .error .undefined := by
  have placed := tidy.placed split member
  have below := region_fits tidy member
  have size : split.limit = split.base + split.length := rfl
  have chosen : (if sub64 limit split.base > split.length then split.length else sub64 limit split.base) =
      limit - split.base := by
    rw [sub64_eq part (by omega), if_neg (by omega)]
  have unmapped := region_unmap_ok s placed.baseAligned (sub_aligned aligned placed.baseAligned) (Nat.le_refl _)
    (show split.base + (limit - split.base) ≤ split.limit by omega) below
  simp only [rewriteNext, chosen, unmapped, bind_ok]
  exact if_pos (by omega)

end DeleteRound

-- What the loop does from a cursor, once the region it finds is gone.
section Advance

variable {space : AddressSpace} {result : List Region} {split : Region} {c limit : Nat} (tidy : Tidy space)
  (member : split ∈ space.regions) (above : c ≤ split.base)
  (nearest : ∀ m ∈ space.regions, c ≤ m.base → split.base ≤ m.base)

include tidy member

include nearest in
theorem later_regions {m : Region} (inTree : m ∈ space.regions) (different : m ≠ split) (from_c : c ≤ m.base) :
    split.limit ≤ m.base := by
  rcases Nat.lt_or_eq_of_le (nearest m inTree from_c) with later | same
  · exact base_lt_limit_le tidy member inTree later
  · exact absurd (base_unique tidy inTree member same.symm) different

variable (inside : split.limit ≤ limit) (mem : ∀ m, m ∈ result ↔ m ∈ space.regions ∧ m ≠ split)

include inside mem

theorem next_beyond_kept (r : Region) : NextBeyond result limit r ↔ NextBeyond space.regions limit r := by
  have nonempty := (tidy.placed split member).nonempty
  have size : split.limit = split.base + split.length := rfl
  have kept : ∀ m, limit ≤ m.base → (m ∈ result ↔ m ∈ space.regions) := by
    intro m past
    rw [mem m]
    exact ⟨fun both => both.1, fun inTree => ⟨inTree, fun same => by rw [same] at past; omega⟩⟩
  constructor
  · rintro ⟨inResult, past, least⟩
    exact ⟨(kept r past).mp inResult, past, fun m inTree pastM => least m ((kept m pastM).mpr inTree) pastM⟩
  · rintro ⟨inTree, past, least⟩
    exact ⟨(kept r past).mpr inTree, past, fun m inResult pastM => least m ((kept m pastM).mp inResult) pastM⟩

include above nearest

theorem open_next : Open result split.limit limit ↔ Open space.regions c limit := by
  have nonempty := (tidy.placed split member).nonempty
  have size : split.limit = split.base + split.length := rfl
  constructor
  · rintro ⟨before, short⟩
    refine ⟨by omega, fun r inTree from_c before_limit => ?_⟩
    by_cases same : r = split
    · rw [same]
      exact before
    · exact short r ((mem r).mpr ⟨inTree, same⟩) (later_regions tidy member nearest inTree same from_c) before_limit
  · rintro ⟨before, short⟩
    refine ⟨short split member above (by omega), fun r inResult from_limit before_limit => ?_⟩
    exact short r ((mem r).mp inResult).1 (by omega) before_limit

theorem unplaced_next : Unplaced result split.limit limit ↔ Unplaced space.regions c limit := by
  have nonempty := (tidy.placed split member).nonempty
  have size : split.limit = split.base + split.length := rfl
  refine or_congr ⟨?_, ?_⟩ (and_congr (open_next tidy member above nearest inside mem) ⟨?_, ?_⟩)
  · rintro ⟨r, inResult, from_limit, before, beyond⟩
    exact ⟨r, ((mem r).mp inResult).1, by omega, before, beyond⟩
  · rintro ⟨r, inTree, from_c, before, beyond⟩
    have different : r ≠ split := fun same => by
      rw [same] at beyond
      omega
    exact ⟨r, (mem r).mpr ⟨inTree, different⟩, later_regions tidy member nearest inTree different from_c, before, beyond⟩
  · rintro ⟨r, inResult, at_limit⟩
    exact ⟨r, ((mem r).mp inResult).1, at_limit⟩
  · rintro ⟨r, inTree, at_limit⟩
    refine ⟨r, (mem r).mpr ⟨inTree, fun same => ?_⟩, at_limit⟩
    rw [same] at at_limit
    omega

theorem overrun_next (a : Nat) : Overrun result split.limit limit a ↔ Overrun space.regions c limit a :=
  and_congr (open_next tidy member above nearest inside mem)
    (exists_congr fun r => and_congr_left' (next_beyond_kept tidy member inside mem r))

end Advance

theorem removes_nothing {inside : Nat → Prop} {regions : List Region} (bare : ∀ a v, Maps regions a v → ¬ inside a) :
    Removes inside regions regions := fun a v => ⟨fun maps => ⟨maps, bare a v maps⟩, fun both => both.1⟩

theorem removes_region {space : AddressSpace} (tidy : Tidy space) {split : Region} (member : split ∈ space.regions)
    {result : List Region} (mem : ∀ m, m ∈ result ↔ m ∈ space.regions ∧ m ≠ split) :
    Removes split.Covers space.regions result := by
  intro a v
  constructor
  · rintro ⟨m, inResult, covers, rfl⟩
    obtain ⟨inTree, different⟩ := (mem m).mp inResult
    exact ⟨⟨m, inTree, covers, rfl⟩, fun inside => different (covering_unique tidy inTree member covers inside)⟩
  · rintro ⟨⟨m, inTree, covers, rfl⟩, outside⟩
    exact ⟨m, (mem m).mpr ⟨inTree, fun same => outside (same ▸ covers)⟩, covers, rfl⟩

theorem removes_trans {first second whole : Nat → Prop} {regions middle result : List Region}
    (one : Removes first regions middle) (two : Removes second middle result)
    (union : ∀ a v, Maps regions a v → (whole a ↔ first a ∨ second a)) : Removes whole regions result := by
  intro a v
  rw [two a v, one a v, and_assoc]
  refine and_congr_right fun maps => ?_
  rw [union a v maps, not_or]

theorem rewrite_loop_done {as : SpaceId} {limit c : Nat} {type : RewriteType} {prot : Protection} {cache : Cache}
    (past : limit ≤ c) (fuel : Nat) (s : State) : rewriteLoop as limit type prot cache fuel c s = .ok s := by
  cases fuel with
  | zero => rw [rewriteLoop, if_neg (Nat.not_lt_of_le past)]
  | succ fuel => rw [rewriteLoop, if_neg (Nat.not_lt_of_le past)]

theorem delete_loop_spec {as : SpaceId} {limit : Nat} {prot : Protection} {cache : Cache} (fits : limit < 2 ^ 64)
    (aligned : limit % pageGranularity = 0) (fuel c : Nat) (s : State) (tidy : Tidy (s.space as)) (owned : Owned s [])
    (enough : limit ≤ c + fuel * pageGranularity)
    (whole : c < limit → ∀ r ∈ (s.space as).regions, ¬ (r.base < c ∧ c < r.limit)) :
    (¬ Unplaced (s.space as).regions c limit ∧ ∃ t, rewriteLoop as limit .delete prot cache fuel c s = .ok t ∧
        Owned t [] ∧ Quiet as s t ∧ Tidy (t.space as) ∧
        Removes (fun a => (c ≤ a ∧ a < limit) ∨ Overrun (s.space as).regions c limit a) (s.space as).regions
          (t.space as).regions) ∨
      (Unplaced (s.space as).regions c limit ∧ rewriteLoop as limit .delete prot cache fuel c s = .error .undefined) := by
  -- Past the end of the range the loop stops.
  have finished : ∀ fuel c (s : State), limit ≤ c → Tidy (s.space as) → Owned s [] →
      ¬ Unplaced (s.space as).regions c limit ∧ ∃ t, rewriteLoop as limit .delete prot cache fuel c s = .ok t ∧
        Owned t [] ∧ Quiet as s t ∧ Tidy (t.space as) ∧
        Removes (fun a => (c ≤ a ∧ a < limit) ∨ Overrun (s.space as).regions c limit a) (s.space as).regions
          (t.space as).regions := by
    intro fuel c s past tidy owned
    refine ⟨?_, s, rewrite_loop_done past fuel s, owned, quiet_refl as s, tidy, removes_nothing fun a v _ => ?_⟩
    · rintro (⟨r, _, from_c, before, _⟩ | ⟨⟨before, _⟩, _⟩) <;> omega
    · rintro (⟨from_c, before⟩ | ⟨⟨before, _⟩, _⟩) <;> omega
  induction fuel generalizing c s with
  | zero => exact .inl (finished 0 c s (by omega) tidy owned)
  | succ fuel ih =>
      by_cases before : c < limit
      · have bare := whole before
        cases found : rbSearch (s.space as).regions c .nearestGte with
        | none =>
            have below := search_gte_none found
            have run : rewriteLoop as limit .delete prot cache (fuel + 1) c s = .ok s := by
              rw [rewriteLoop, if_pos before, found]
            refine .inl ⟨?_, s, run, owned, quiet_refl as s, tidy, removes_nothing ?_⟩
            · rintro (⟨r, inTree, from_c, _⟩ | ⟨_, r, inTree, at_limit⟩)
              · have base := below r inTree
                omega
              · have base := below r inTree
                omega
            · rintro a v ⟨r, inTree, covers, _⟩ (⟨from_c, _⟩ | ⟨_, m, next, _⟩)
              · have base := below r inTree
                exact bare r inTree ⟨base, Nat.lt_of_le_of_lt from_c covers.2⟩
              · have base := below m next.1
                have past := next.2.1
                omega
        | some split =>
            obtain ⟨member, above, nearest⟩ := search_gte_some found
            have placed := tidy.placed split member
            have onePage := page_multiple placed.nonempty placed.lengthAligned
            have size : split.limit = split.base + split.length := rfl
            have run : rewriteLoop as limit .delete prot cache (fuel + 1) c s =
                rewriteNext as limit .delete prot cache split s >>= fun t =>
                  rewriteLoop as limit .delete prot cache fuel split.limit t := by
              rw [rewriteLoop, if_pos before, found]
              dsimp only
              rw [region_end tidy member]
            rw [run]
            have between : ∀ r ∈ (s.space as).regions, ∀ a, c ≤ a → a < split.base → ¬ r.Covers a := by
              intro r inTree a from_c before_split covers
              by_cases later : c ≤ r.base
              · have base := nearest r inTree later
                have start := covers.1
                omega
              · have stop := covers.2
                exact bare r inTree ⟨by omega, by omega⟩
            by_cases inside : split.limit ≤ limit
            · -- A region of the range goes as a whole, and the cursor moves past it.
              obtain ⟨t, next, ownedT, quiet, mem⟩ := @delete_next_whole s as [] limit prot cache split tidy owned member
                (.inl inside) fits
              have tidyT : Tidy (t.space as) := tidy_subset tidy quiet.frame.start quiet.frame.limit fun m inT => ((mem m).mp inT).1
              rw [next, bind_ok]
              have gone : split.limit < limit → ∀ r ∈ (t.space as).regions, ¬ (r.base < split.limit ∧ split.limit < r.limit) := by
                intro _ r inT straddles
                obtain ⟨inTree, different⟩ := (mem r).mp inT
                have apart := tidy.apart r inTree split member different
                unfold Apart at apart
                omega
              rcases ih split.limit t tidyT ownedT (by rw [Nat.succ_mul] at enough; omega) gone with
                ⟨placedAll, u, rest, ownedU, quietU, tidyU, removes⟩ | ⟨unplaced, rest⟩
              · rw [unplaced_next tidy member above nearest inside mem] at placedAll
                refine .inl ⟨placedAll, u, rest, ownedU, quiet_trans quiet quietU, tidyU, ?_⟩
                refine removes_trans (removes_region tidy member mem) removes fun a v maps => ?_
                rw [overrun_next tidy member above nearest inside mem a]
                obtain ⟨r, inTree, covers, _⟩ := maps
                constructor
                · rintro (⟨from_c, before_limit⟩ | overrun)
                  · by_cases behind : split.limit ≤ a
                    · exact .inr (.inl ⟨behind, before_limit⟩)
                    · refine .inl ⟨?_, by omega⟩
                      by_contra early
                      exact between r inTree a from_c (by omega) covers
                  · exact .inr (.inr overrun)
                · rintro (⟨start, stop⟩ | ⟨behind, before_limit⟩ | overrun)
                  · exact .inl ⟨by omega, by omega⟩
                  · exact .inl ⟨by omega, before_limit⟩
                  · exact .inr overrun
              · rw [unplaced_next tidy member above nearest inside mem] at unplaced
                exact .inr ⟨unplaced, rest⟩
            · by_cases starts : split.base ≤ limit
              · -- The region reaches past the range, or starts at its end.
                refine .inr ⟨?_, by rw [delete_next_part tidy member starts (by omega) aligned]; rfl⟩
                rcases Nat.lt_or_eq_of_le starts with earlier | same
                · exact .inl ⟨split, member, above, earlier, by omega⟩
                · refine .inr ⟨⟨before, fun r inTree from_c before_limit => ?_⟩, split, member, same⟩
                  have base := nearest r inTree from_c
                  omega
              · have past : limit < split.base := by omega
                obtain ⟨t, next, ownedT, quiet, mem⟩ := @delete_next_whole s as [] limit prot cache split tidy owned member
                  (.inr past) fits
                have opened : Open (s.space as).regions c limit := by
                  refine ⟨before, fun r inTree from_c before_limit => ?_⟩
                  have base := nearest r inTree from_c
                  omega
                rw [next, bind_ok]
                refine .inl ⟨?_, t, rewrite_loop_done (by omega) fuel t, ownedT, quiet, ?_, ?_⟩
                · rintro (⟨r, inTree, from_c, before_limit, _⟩ | ⟨_, r, inTree, at_limit⟩)
                  · have base := nearest r inTree from_c
                    omega
                  · have base := nearest r inTree (by omega)
                    omega
                · exact tidy_subset tidy quiet.frame.start quiet.frame.limit fun m inT => ((mem m).mp inT).1
                · intro a v
                  rw [removes_region tidy member mem a v]
                  refine and_congr_right fun maps => not_congr ⟨fun covers => .inr ⟨opened, split, ⟨member, by omega, ?_⟩, covers⟩, ?_⟩
                  · exact fun m inTree pastM => nearest m inTree (by omega)
                  · obtain ⟨r, inTree, covers, _⟩ := maps
                    rintro (⟨from_c, before_limit⟩ | ⟨_, m, ⟨inTreeM, pastM, leastM⟩, coversM⟩)
                    · exact absurd covers (between r inTree a from_c (by omega))
                    · have first := nearest m inTreeM (by omega)
                      have second := leastM split member (by omega)
                      rw [← base_unique tidy inTreeM member (by omega)]
                      exact coversM
      · exact .inl (finished (fuel + 1) c s (by omega) tidy owned)

-- The region that holds the start of a range, if there is one.
theorem search_first {space : AddressSpace} (tidy : Tidy space) (address : Nat) :
    (∃ split, rbSearch space.regions address .nearestLte = some split ∧ split ∈ space.regions ∧ split.Covers address) ∨
      ((∀ r ∈ space.regions, ¬ r.Covers address) ∧
        ∀ split, rbSearch space.regions address .nearestLte = some split → split ∈ space.regions ∧ split.limit ≤ address) := by
  cases found : rbSearch space.regions address .nearestLte with
  | none =>
      refine .inr ⟨fun r inTree covers => ?_, fun split same => absurd same (by simp)⟩
      have later := search_lte_none found r inTree
      have start := covers.1
      omega
  | some split =>
      obtain ⟨member, start, nearest⟩ := search_lte_some found
      by_cases reaches : address < split.limit
      · exact .inl ⟨split, rfl, member, start, reaches⟩
      · refine .inr ⟨fun r inTree covers => ?_, fun other same => ?_⟩
        · have bound := nearest r inTree covers.1
          rcases Nat.lt_or_eq_of_le bound with earlier | same
          · have stop := base_lt_limit_le tidy inTree member earlier
            have reach := covers.2
            have size : split.limit = split.base + split.length := rfl
            omega
          · rw [base_unique tidy inTree member same] at covers
            exact reaches covers.2
        · obtain rfl := Option.some.inj same
          exact ⟨member, Nat.le_of_not_lt reaches⟩

-- How much of the range lies in the region that holds its start.
def firstLength (split : Region) (address length : Nat) : Nat := min (split.limit - address) length

theorem first_length_bounds {split : Region} {address length : Nat} (covers : split.Covers address) (positive : 0 < length) :
    0 < firstLength split address length ∧ address + firstLength split address length ≤ split.limit ∧
      firstLength split address length ≤ length ∧
      (address + firstLength split address length < split.limit → firstLength split address length = length) := by
  have stop := covers.2
  unfold firstLength
  omega

section First

variable {s : State} {as : SpaceId} {address length : Nat} {type : RewriteType} {prot : Protection} {cache : Cache}
  (tidy : Tidy (s.space as))

include tidy

theorem rewrite_first_bare (bare : ∀ r ∈ (s.space as).regions, ¬ r.Covers address) :
    rewriteFirst as address length type prot cache s = .ok (s, address) := by
  rcases search_first tidy address with ⟨split, _, member, covers⟩ | ⟨_, others⟩
  · exact absurd covers (bare split member)
  · unfold rewriteFirst
    cases found : rbSearch (s.space as).regions address .nearestLte with
    | none => rfl
    | some split =>
        obtain ⟨member, before⟩ := others split found
        dsimp only
        rw [region_end tidy member, if_neg (Nat.not_lt_of_le before)]

theorem first_length_eq {split : Region} (member : split ∈ (s.space as).regions) (covers : split.Covers address) :
    (if sub64 (add64 split.base split.length) address > length then length
      else sub64 (add64 split.base split.length) address) = firstLength split address length := by
  have fits := region_fits tidy member
  have stop := covers.2
  rw [region_end tidy member, sub64_eq (Nat.le_of_lt stop) fits, firstLength]
  by_cases longer : split.limit - address > length
  · rw [if_pos longer, Nat.min_eq_right (Nat.le_of_lt longer)]
  · rw [if_neg longer, Nat.min_eq_left (Nat.le_of_not_lt longer)]

theorem first_found {split : Region} (member : split ∈ (s.space as).regions) (covers : split.Covers address) :
    rbSearch (s.space as).regions address .nearestLte = some split := by
  rcases search_first tidy address with ⟨other, found, memberO, coversO⟩ | ⟨bare, _⟩
  · rw [found, covering_unique tidy memberO member coversO covers]
  · exact absurd covers (bare split member)

theorem first_length_aligned {split : Region} (member : split ∈ (s.space as).regions)
    (aligned : address % pageGranularity = 0) (wholePages : length % pageGranularity = 0) :
    firstLength split address length % pageGranularity = 0 := by
  unfold firstLength
  rcases Nat.le_total (split.limit - address) length with shorter | longer
  · rw [Nat.min_eq_left shorter]
    exact sub_aligned (limit_aligned (tidy.placed split member)) aligned
  · rw [Nat.min_eq_right longer]
    exact wholePages

theorem delete_first_eq {split : Region} (member : split ∈ (s.space as).regions) (covers : split.Covers address)
    (positive : 0 < length) (aligned : address % pageGranularity = 0) (wholePages : length % pageGranularity = 0) :
    rewriteFirst as address length .delete prot cache s =
      carveFirst as split.id address (firstLength split address length)
        (s.request (.unmap split.addressSpace address (firstLength split address length))) >>= fun t =>
          .ok (t, address + firstLength split address length) := by
  have fits := region_fits tidy member
  obtain ⟨_, within, _, _⟩ := first_length_bounds covers positive
  have unmapped := region_unmap_ok s aligned (first_length_aligned tidy member aligned wholePages) covers.1 within fits
  have next : add64 address (firstLength split address length) = address + firstLength split address length :=
    add64_eq (by omega)
  unfold rewriteFirst
  rw [first_found tidy member covers]
  dsimp only
  rw [first_length_eq tidy member covers, region_end tidy member, if_pos covers.2, unmapped, bind_ok, next]

end First

end Elysium.Vm
