import Elysium.VmSegment

set_option autoImplicit false

namespace Elysium.Vm

-- The loop can miss the region in which the range ends: a rewritten region before
-- it has taken it in, and the cursor still points to where it started.
def Stranded (type : RewriteType) (prot : Protection) (cache : Cache) (regions : List Region) (ahead : Region → Prop)
    (limit : Nat) : Prop :=
  ∀ l ∈ regions, ahead l → l.base < limit → limit ≤ l.limit →
    ∃ p ∈ regions, ahead p ∧ alreadySet type prot cache p = false ∧ Joins (setAttribute type prot cache p) l

-- Then it goes on to the next region, which lies outside.
structure Strays (type : RewriteType) (prot : Protection) (cache : Cache) (regions : List Region) (ahead : Region → Prop)
    (limit : Nat) (next : Region) : Prop where
  stranded : Stranded type prot cache regions ahead limit
  beyond : NextBeyond regions limit next
  unset : alreadySet type prot cache next = false

-- A region right behind the range is split into nothing and itself, and the
-- nothing is inserted.
def Voids (type : RewriteType) (prot : Protection) (cache : Cache) (regions : List Region) (ahead : Region → Prop)
    (limit : Nat) : Prop :=
  ∃ next, Strays type prot cache regions ahead limit next ∧ next.base = limit ∧
    ∀ m ∈ regions, ¬ Joins m (setAttribute type prot cache next)

def Trespasses (type : RewriteType) (prot : Protection) (cache : Cache) (regions : List Region) (ahead : Region → Prop)
    (limit a : Nat) : Prop :=
  ∃ next, Strays type prot cache regions ahead limit next ∧ limit < next.base ∧ next.Covers a

-- What a round leaves of the tree ahead of it.
structure Passes (type : RewriteType) (prot : Protection) (cache : Cache) (regions : List Region) (split : Region)
    (result : List Region) : Prop where
  above : ∀ m, split.limit ≤ m.base →
    (m ∈ result ↔ m ∈ regions ∧ ¬ (alreadySet type prot cache split = false ∧ Joins (setAttribute type prot cache split) m))
  joining : ∀ m ∈ regions, split.limit < m.limit → ∀ next, Joins m next → ∃ l ∈ result, Joins l next

section Ahead

variable {type : RewriteType} {prot : Protection} {cache : Cache} {space : AddressSpace} {result : List Region}
  {split : Region} {ahead : Region → Prop} {limit : Nat} (rewrites : type ≠ .delete) (tidy : Tidy space)
  (member : split ∈ space.regions) (first : ahead split)
  (others : ∀ m ∈ space.regions, m ≠ split → (ahead m ↔ split.limit ≤ m.base))

include tidy member first others

-- A region that holds the end of the range and is met there is not missed.
theorem met_not_stranded (start : split.base < limit) (reaches : limit ≤ split.limit) :
    ¬ Stranded type prot cache space.regions ahead limit := by
  intro stranded
  obtain ⟨p, inTree, aheadP, _, joins⟩ := stranded split member first start reaches
  have stop := joins.1
  rw [set_attribute_limit] at stop
  have nonempty := (tidy.placed p inTree).nonempty
  have size : p.limit = p.base + p.length := rfl
  have different : p ≠ split := fun same => by
    rw [same] at stop size nonempty
    omega
  have later := (others p inTree different).mp aheadP
  omega

variable (inside : split.limit < limit) (passes : Passes type prot cache space.regions split result)

include inside passes

omit tidy member first others in
theorem passed_beyond (next : Region) : NextBeyond result limit next ↔ NextBeyond space.regions limit next := by
  have kept : ∀ m, limit ≤ m.base → (m ∈ result ↔ m ∈ space.regions) := by
    intro m past
    rw [passes.above m (by omega)]
    refine and_iff_left fun both => ?_
    have adjacent := both.2.1
    rw [set_attribute_limit] at adjacent
    omega
  constructor
  · rintro ⟨inResult, past, least⟩
    exact ⟨(kept next past).mp inResult, past, fun m inTree pastM => least m ((kept m pastM).mpr inTree) pastM⟩
  · rintro ⟨inTree, past, least⟩
    exact ⟨(kept next past).mpr inTree, past, fun m inResult pastM => least m ((kept m pastM).mp inResult) pastM⟩

include rewrites

theorem stranded_next : Stranded type prot cache result (fun m => split.limit ≤ m.base) limit ↔
    Stranded type prot cache space.regions ahead limit := by
  have nonempty := (tidy.placed split member).nonempty
  have size : split.limit = split.base + split.length := rfl
  constructor
  · intro stranded l inTree aheadL start reaches
    have different : l ≠ split := fun same => by
      rw [same] at reaches
      omega
    have later := (others l inTree different).mp aheadL
    by_cases taken : alreadySet type prot cache split = false ∧ Joins (setAttribute type prot cache split) l
    · exact ⟨split, member, first, taken⟩
    · obtain ⟨p, inResult, laterP, unset, joins⟩ := stranded l ((passes.above l later).mpr ⟨inTree, taken⟩) later start reaches
      have inTreeP := ((passes.above p laterP).mp inResult).1
      refine ⟨p, inTreeP, (others p inTreeP fun same => ?_).mpr laterP, unset, joins⟩
      rw [same] at laterP
      omega
  · intro stranded l inResult later start reaches
    obtain ⟨inTree, kept⟩ := (passes.above l later).mp inResult
    have aheadL : ahead l := (others l inTree fun same => by rw [same] at later; omega).mpr later
    obtain ⟨p, inTreeP, aheadP, unset, joins⟩ := stranded l inTree aheadL start reaches
    have different : p ≠ split := fun same => kept ⟨same ▸ unset, same ▸ joins⟩
    have laterP := (others p inTreeP different).mp aheadP
    -- A region that has been taken in is set already.
    refine ⟨p, (passes.above p laterP).mpr ⟨inTreeP, fun taken => ?_⟩, laterP, unset, joins⟩
    rw [already_set_joined rewrites taken.2] at unset
    exact absurd unset (by decide)

theorem strays_next (next : Region) : Strays type prot cache result (fun m => split.limit ≤ m.base) limit next ↔
    Strays type prot cache space.regions ahead limit next := by
  have stranded := stranded_next rewrites tidy member first others inside passes
  have beyond := passed_beyond inside passes next
  constructor
  · rintro ⟨one, two, three⟩
    exact ⟨stranded.mp one, beyond.mp two, three⟩
  · rintro ⟨one, two, three⟩
    exact ⟨stranded.mpr one, beyond.mpr two, three⟩

theorem trespasses_next (a : Nat) : Trespasses type prot cache result (fun m => split.limit ≤ m.base) limit a ↔
    Trespasses type prot cache space.regions ahead limit a :=
  exists_congr fun next => and_congr_left' (strays_next rewrites tidy member first others inside passes next)

theorem voids_next (voids : Voids type prot cache result (fun m => split.limit ≤ m.base) limit) :
    Voids type prot cache space.regions ahead limit := by
  obtain ⟨next, strays, at_limit, alone⟩ := voids
  refine ⟨next, (strays_next rewrites tidy member first others inside passes next).mp strays, at_limit, fun m inTree joins => ?_⟩
  have adjacent := joins.1
  rw [set_attribute_base] at adjacent
  obtain ⟨l, inResult, joinsL⟩ := passes.joining m inTree (by omega) _ joins
  exact alone l inResult joinsL

end Ahead

-- One round on a segment of a region the search has found.
def rewriteRound (as : SpaceId) (split : Region) (b n : Nat) (type : RewriteType) (prot : Protection) (cache : Cache)
    (s : State) : Except Fault State :=
  if alreadySet type prot cache split then .ok s else rewriteSegment as split.id b n type prot cache s

section Round

variable {broke : Prop} {s : State} {as : SpaceId} {type : RewriteType} {prot : Protection} {cache : Cache} {split : Region}
  {b n k : Nat} (rewrites : type ≠ .delete) (tidy : Tidy (s.space as)) (owned : Owned s [])
  (backed : Backed broke (k + 1) s as) (small : k < regionsPerPage - 1) (member : split ∈ (s.space as).regions)
  (low : split.base ≤ b) (high : b + n ≤ split.limit) (tail : b + n < split.limit → 1 ≤ k)

include rewrites tidy owned backed small member low high tail

theorem round_spec (positive : 0 < n) (baseAligned : b % pageGranularity = 0) (lengthAligned : n % pageGranularity = 0) :
    (∃ u, rewriteRound as split b n type prot cache s = .ok u ∧ Owned u [] ∧ Steady as s u ∧ Tidy (u.space as) ∧
        Rewrites (setting type prot cache) (fun a => b ≤ a ∧ a < b + n) (s.space as).regions (u.space as).regions ∧
        (b + n = split.limit → Passes type prot cache (s.space as).regions split (u.space as).regions ∧
          (∀ m ∈ (u.space as).regions, m.base < split.limit → split.limit < m.limit → alreadySet type prot cache m = true) ∧
          Backed broke k u as ∧ (b = split.base → Backed broke (k + 1) u as))) ∨
      ∃ fault, Stops broke fault ∧ rewriteRound as split b n type prot cache s = .error fault := by
  by_cases set : alreadySet type prot cache split = true
  · refine .inl ⟨s, if_pos set, owned, steady_refl as s, tidy, rewrites_refl ?_, fun ends => ⟨⟨?_, ?_⟩, ?_, ?_, fun _ => backed⟩⟩
    · rintro a v ⟨m, inTree, covers, rfl⟩ inside
      rw [covering_unique tidy inTree member covers ⟨by omega, by omega⟩]
      exact (already_set_at rewrites split a).mp set
    · intro m _
      simp [set]
    · exact fun m inTree _ next joins => ⟨m, inTree, joins⟩
    · intro m inTree start stop
      have different : m ≠ split := fun same => by
        rw [same] at stop
        omega
      have apart := tidy.apart m inTree split member different
      have nonempty := (tidy.placed split member).nonempty
      have size : split.limit = split.base + split.length := rfl
      unfold Apart at apart
      omega
    · exact backed_mono (Nat.le_succ k) backed
  · have unset : alreadySet type prot cache split = false := Bool.eq_false_iff.mpr set
    have run : rewriteRound as split b n type prot cache s = rewriteSegment as split.id b n type prot cache s := if_neg set
    rw [run]
    rcases @segment_spec broke s as type prot cache split b n k tidy owned backed small member low high tail rewrites positive
      baseAligned lengthAligned with ⟨u, done, ownedU, aside, tidyU, rewrote, backedU⟩ | failed
    · refine .inl ⟨u, done, ownedU, aside, tidyU, rewrote.maps, fun ends => ⟨⟨?_, rewrote.joining ends⟩,
        rewrote.straddling ends, backedU (Nat.le_of_eq ends.symm)⟩⟩
      intro m past
      rw [rewrote.above ends m past]
      simp [unset]
    · exact .inr failed

-- The round as the loop makes it, which cuts the region at its start.
theorem rewrite_next_eq {limit : Nat} (start : b = split.base)
    (chosen : (if sub64 limit split.base > split.length then split.length else sub64 limit split.base) = n) :
    rewriteNext as limit type prot cache split s = rewriteRound as split b n type prot cache s := by
  have carve : rewriteSegment as split.id b n type prot cache s =
      cloneTo as b n split.id s >>= fun x => carveNext as split.id b n x.1 >>= fun t =>
        .ok (insertRewritten as (setAttribute type prot cache x.2) b n t) := by
    rcases clone_backed owned small backed member b n low with ⟨t, id, cloned, ownedT, space, aside, backedT⟩ | ⟨fault, _, failed⟩
    · have same := carve_next_backed (space ▸ tidy : Tidy (t.space as)) ownedT backedT (space ▸ member) low high tail start
      rw [rewriteSegment, cloned, bind_ok, bind_ok]
      dsimp only
      rw [same]
    · rw [rewriteSegment, failed]
      rfl
  unfold rewriteNext rewriteRound
  dsimp only
  rw [chosen, carve, start]
  cases type with
  | delete => exact absurd rfl rewrites
  | protection => rfl
  | cache => rfl

end Round

section Loop

variable {broke : Prop} {as : SpaceId} {type : RewriteType} {prot : Protection} {cache : Cache} {limit : Nat}

-- The region right behind the range: nothing is cut off it, and inserted.
theorem void_round {s : State} {split : Region} (tidy : Tidy (s.space as)) (owned : Owned s [])
    (backed : Backed broke 2 s as) (member : split ∈ (s.space as).regions) (aligned : split.base % pageGranularity = 0) :
    (∃ u, rewriteSegment as split.id split.base 0 type prot cache s = .ok u ∧ Owned u [] ∧ Steady as s u ∧
        (∀ a v, Maps (u.space as).regions a v ↔ Maps (s.space as).regions a v) ∧
        ((∃ m ∈ (s.space as).regions, Joins m (setAttribute type prot cache split)) → Tidy (u.space as))) ∨
      ∃ fault, Stops broke fault ∧ rewriteSegment as split.id split.base 0 type prot cache s = .error fault := by
  have nonempty := (tidy.placed split member).nonempty
  have fits := region_fits tidy member
  have size : split.limit = split.base + split.length := rfl
  rcases segment_cut tidy owned backed (by decide) member (Nat.le_refl _) (show split.base + 0 ≤ split.limit by omega)
    (fun _ => Nat.le_refl 1) with ⟨u, id, behind, run, ownedU, aside, carved, _⟩ | ⟨fault, stops, failed⟩
  · refine .inl ?_
    have tidyU : Tidy (u.space as) := carved_tidy tidy member (Nat.le_refl _) (by omega) carved (aside.start as)
      (aside.limit as) rfl aligned (Nat.zero_mod _)
    have sameMaps : ∀ a v, Maps (u.space as).regions a v ↔ Maps (s.space as).regions a v := by
      intro a v
      rw [carved_maps tidy member (Nat.le_refl _) (by omega) carved]
      exact and_iff_left (by omega)
    have pieceId : (setAttribute type prot cache (cloneOf id split.base 0 split)).id = id := set_attribute_id _
    have pieceBase : (setAttribute type prot cache (cloneOf id split.base 0 split)).base = split.base := set_attribute_base _
    have pieceLength : (setAttribute type prot cache (cloneOf id split.base 0 split)).length = 0 := set_attribute_length _
    obtain ⟨w, last, inserted, quiet, ownedW, placed⟩ := @insert_empty u as [] _ tidyU (pieceId.symm ▸ ownedU) pieceLength
      (by omega)
    obtain ⟨x, requested⟩ : ∃ x, x = w.request (.rewrite last.addressSpace split.base 0 last.protection last.cacheBehavior
      (privilegeOf last.addressSpace) (last.addressSpace = SpaceId.global)) := ⟨_, rfl⟩
    have space : x.space = w.space := requested ▸ rfl
    have quietX : Quiet as u x := quiet_trans quiet (requested ▸ quiet_request as w _)
    refine ⟨x, ?_, owned_congr ownedW space (requested ▸ rfl) (requested ▸ rfl), steady_trans aside (quiet_steady quietX), ?_, ?_⟩
    · rw [run, insertRewritten, inserted, requested]
    · intro a v
      rw [← sameMaps, space]
      rcases placed with ⟨_, mem⟩ | ⟨_, mem⟩
      · exact exists_congr fun m => and_congr_left' (mem m)
      · constructor
        · rintro ⟨m, inTree, covers, same⟩
          rcases (mem m).mp inTree with rfl | old
          · have stop := covers.2
            have start := covers.1
            rw [Region.limit, pieceLength] at stop
            omega
          · exact ⟨m, old, covers, same⟩
        · rintro ⟨m, inTree, covers, same⟩
          exact ⟨m, (mem m).mpr (.inr inTree), covers, same⟩
    · rintro ⟨m, inTree, joins⟩
      have adjacent := joins.1
      rw [set_attribute_base] at adjacent
      have inU : m ∈ (u.space as).regions := (carved.mem m).mpr (.inl ⟨inTree, fun same => by rw [same] at adjacent; omega⟩)
      have joinsPiece : Joins m (setAttribute type prot cache (cloneOf id split.base 0 split)) := by
        refine (joins_congr_right (by rw [set_attribute_base, set_attribute_base]; rfl) ?_).mpr joins
        rw [set_attribute_attributes, set_attribute_attributes]
        show setting type prot cache (split.toAttributes.shift (split.base - split.base)) = _
        rw [Nat.sub_self, shift_zero]
      rcases placed with ⟨_, mem⟩ | ⟨alone, _⟩
      · exact tidy_subset tidyU quietX.frame.start quietX.frame.limit fun r inX => (mem r).mp (space ▸ inX)
      · exact absurd joinsPiece (alone m inU)
  · exact .inr ⟨fault, stops, failed type prot cache⟩

-- What a rewrite does from address c on, when the regions it will look at are
-- the ones ahead.
structure Finishes (as : SpaceId) (type : RewriteType) (prot : Protection) (cache : Cache) (limit c : Nat)
    (ahead : Region → Prop) (s u : State) : Prop where
  owned : Owned u []
  aside : Steady as s u
  maps : Rewrites (setting type prot cache)
    (fun a => c < limit ∧ ((c ≤ a ∧ a < limit) ∨ Trespasses type prot cache (s.space as).regions ahead limit a))
    (s.space as).regions (u.space as).regions
  tidy : ¬ (c < limit ∧ Voids type prot cache (s.space as).regions ahead limit) → Tidy (u.space as)

-- The rest of a rewrite after a round that went from b to the end of the region or
-- of the range. What lies between c and b has the setting already.
theorem finishes_round {s t u : State} {split : Region} {ahead : Region → Prop} {c b n : Nat} (rewrites : type ≠ .delete)
    (tidy : Tidy (s.space as)) (member : split ∈ (s.space as).regions) (first : ahead split)
    (others : ∀ m ∈ (s.space as).regions, m ≠ split → (ahead m ↔ split.limit ≤ m.base)) (start : split.base < limit)
    (before : c < limit) (low : c ≤ b) (length : b + n = min split.limit limit)
    (gap : ∀ a v, Maps (s.space as).regions a v → setting type prot cache v ≠ v → c ≤ a → b ≤ a) (aside : Steady as s t)
    (round : Rewrites (setting type prot cache) (fun a => b ≤ a ∧ a < b + n) (s.space as).regions (t.space as).regions)
    (passes : split.limit < limit → Passes type prot cache (s.space as).regions split (t.space as).regions)
    (rest : Finishes as type prot cache limit split.limit (fun m => split.limit ≤ m.base) t u) :
    Finishes as type prot cache limit c ahead s u := by
  refine ⟨rest.owned, steady_trans aside rest.aside, rewrites_trans setting_idem round rest.maps fun a v maps changes => ?_,
    fun notVoid => rest.tidy ?_⟩
  · have from_b := gap a v maps changes
    by_cases inside : split.limit < limit
    · rw [trespasses_next rewrites tidy member first others inside (passes inside) a]
      constructor
      · rintro ⟨_, ⟨from_c, stop⟩ | trespass⟩
        · have later := from_b from_c
          by_cases behind : split.limit ≤ a
          · exact .inr ⟨inside, .inl ⟨behind, stop⟩⟩
          · exact .inl ⟨later, by omega⟩
        · exact .inr ⟨inside, .inr trespass⟩
      · rintro (⟨low, high⟩ | ⟨_, ⟨behind, stop⟩ | trespass⟩)
        · exact ⟨before, .inl ⟨by omega, by omega⟩⟩
        · exact ⟨before, .inl ⟨by omega, stop⟩⟩
        · exact ⟨before, .inr trespass⟩
    · have met := @met_not_stranded type prot cache _ _ _ _ tidy member first others start (Nat.le_of_not_lt inside)
      constructor
      · rintro ⟨_, ⟨from_c, stop⟩ | ⟨next, strays, _, _⟩⟩
        · exact .inl ⟨from_b from_c, by omega⟩
        · exact absurd strays.stranded met
      · rintro (⟨low, high⟩ | ⟨never, _⟩)
        · exact ⟨before, .inl ⟨by omega, by omega⟩⟩
        · exact absurd never inside
  · rintro ⟨inside, voids⟩
    exact notVoid ⟨before, voids_next rewrites tidy member first others inside (passes inside) voids⟩

section Rounds

variable {s : State} {c : Nat} {split : Region} (rewrites : type ≠ .delete) (tidy : Tidy (s.space as)) (owned : Owned s [])
  (settled : ∀ m ∈ (s.space as).regions, m.base < c → c < m.limit → alreadySet type prot cache m = true)

include tidy owned

theorem finishes_done (past : limit ≤ c) : Finishes as type prot cache limit c (fun m => c ≤ m.base) s s :=
  ⟨owned, steady_refl as s, rewrites_refl fun _ _ _ inside => absurd inside.1 (Nat.not_lt_of_le past), fun _ => tidy⟩

include rewrites settled

omit tidy owned in
-- No region starts between the cursor and the address.
theorem settled_until {a : Nat} {v : Attributes} (maps : Maps (s.space as).regions a v) (from_c : c ≤ a)
    (none : ∀ m ∈ (s.space as).regions, c ≤ m.base → a < m.base) : setting type prot cache v = v := by
  obtain ⟨m, inTree, covers, rfl⟩ := maps
  have start := covers.1
  have stop := covers.2
  have early : m.base < c := by
    by_contra later
    have above := none m inTree (by omega)
    omega
  exact (already_set_at rewrites m a).mp (settled m inTree early (by omega))

theorem finishes_none (none : ∀ m ∈ (s.space as).regions, m.base < c) (before : c < limit) :
    Finishes as type prot cache limit c (fun m => c ≤ m.base) s s := by
  refine ⟨owned, steady_refl as s, rewrites_refl ?_, fun _ => tidy⟩
  rintro a v maps ⟨_, ⟨from_c, _⟩ | ⟨next, strays, _, _⟩⟩
  · refine @settled_until as type prot cache s c rewrites settled a v maps from_c fun m inTree later => ?_
    have early := none m inTree
    omega
  · have past := strays.beyond.2.1
    have early := none next strays.beyond.1
    omega

variable (before : c < limit) (member : split ∈ (s.space as).regions)
  (nearest : ∀ m ∈ (s.space as).regions, c ≤ m.base → split.base ≤ m.base)

include before member nearest

-- The nearest region lies past the range.
theorem finishes_past (backed : Backed broke 2 s as) (past : limit ≤ split.base) (n : Nat) (chosen : n = if limit = split.base then 0 else split.length) :
    (∃ u, rewriteRound as split split.base n type prot cache s = .ok u ∧ Finishes as type prot cache limit c (fun m => c ≤ m.base) s u) ∨
      ∃ fault, Stops broke fault ∧ rewriteRound as split split.base n type prot cache s = .error fault := by
  have placed := tidy.placed split member
  have positive := placed.nonempty
  have size : split.limit = split.base + split.length := rfl
  have beyond : NextBeyond (s.space as).regions limit split :=
    ⟨member, past, fun m inTree pastM => nearest m inTree (by omega)⟩
  have unique : ∀ next, NextBeyond (s.space as).regions limit next → next = split := by
    rintro next ⟨inTree, pastN, least⟩
    have one := least split member past
    have two := nearest next inTree (by omega)
    exact base_unique tidy inTree member (by omega)
  have stranded : Stranded type prot cache (s.space as).regions (fun m => c ≤ m.base) limit := by
    intro l inTree aheadL start _
    have later := nearest l inTree aheadL
    omega
  have early : ∀ a v, Maps (s.space as).regions a v → c ≤ a → a < limit → setting type prot cache v = v := by
    intro a v maps from_c stop
    refine @settled_until as type prot cache s c rewrites settled a v maps from_c fun m inTree later => ?_
    have bound := nearest m inTree later
    omega
  by_cases set : alreadySet type prot cache split = true
  · refine .inl ⟨s, if_pos set, owned, steady_refl as s, rewrites_refl ?_, fun _ => tidy⟩
    rintro a v maps ⟨_, ⟨from_c, stop⟩ | ⟨next, strays, _, _⟩⟩
    · exact early a v maps from_c stop
    · have unset := strays.unset
      rw [unique next strays.beyond, set] at unset
      exact absurd unset (by decide)
  · have unset : alreadySet type prot cache split = false := Bool.eq_false_iff.mpr set
    have strays : Strays type prot cache (s.space as).regions (fun m => c ≤ m.base) limit split := ⟨stranded, beyond, unset⟩
    have run : rewriteRound as split split.base n type prot cache s = rewriteSegment as split.id split.base n type prot cache s :=
      if_neg set
    rw [run]
    by_cases at_limit : limit = split.base
    · rw [chosen, if_pos at_limit]
      rcases @void_round broke as type prot cache s split tidy owned backed member placed.baseAligned with
        ⟨u, done, ownedU, aside, maps, tidyU⟩ | failed
      · refine .inl ⟨u, done, ownedU, aside, rewrites_congr maps (rewrites_refl ?_), fun notVoid => tidyU ?_⟩
        · rintro a v mapsA ⟨_, ⟨from_c, stop⟩ | ⟨next, straysN, apart, _⟩⟩
          · exact early a v mapsA from_c stop
          · rw [unique next straysN.beyond] at apart
            omega
        · by_contra none
          refine notVoid ⟨before, split, strays, at_limit.symm, fun m inTree joins => none ⟨m, inTree, joins⟩⟩
      · exact .inr failed
    · rw [chosen, if_neg at_limit]
      rcases @segment_spec broke s as type prot cache split split.base split.length 1 tidy owned backed (by decide) member
        (Nat.le_refl _) (Nat.le_refl _) (fun _ => Nat.le_refl 1) rewrites positive placed.baseAligned placed.lengthAligned
        with ⟨u, done, ownedU, aside, tidyU, rewrote, _⟩ | failed
      · refine .inl ⟨u, done, ownedU, aside, ?_, fun _ => tidyU⟩
        refine @rewrites_trans _ (fun _ => False) _ _ _ _ _ setting_idem (rewrites_refl fun _ _ _ never => never.elim)
          rewrote.maps fun a v maps changes => ?_
        rw [false_or]
        constructor
        · rintro ⟨_, ⟨from_c, stop⟩ | ⟨next, straysN, _, covers⟩⟩
          · exact absurd (early a v maps from_c stop) changes
          · rw [unique next straysN.beyond] at covers
            exact covers
        · intro covers
          exact ⟨before, .inr ⟨split, strays, by omega, covers⟩⟩
      · exact .inr failed

end Rounds

theorem rewrite_loop_spec (rewrites : type ≠ .delete) (fits : limit < 2 ^ 64) (aligned : limit % pageGranularity = 0)
    (fuel c : Nat) (s : State) (tidy : Tidy (s.space as)) (owned : Owned s []) (backed : c < limit → Backed broke 2 s as)
    (enough : limit ≤ c + fuel * pageGranularity)
    (settled : c < limit → ∀ m ∈ (s.space as).regions, m.base < c → c < m.limit → alreadySet type prot cache m = true) :
    (∃ u, rewriteLoop as limit type prot cache fuel c s = .ok u ∧ Finishes as type prot cache limit c (fun m => c ≤ m.base) s u) ∨
      ∃ fault, Stops broke fault ∧ rewriteLoop as limit type prot cache fuel c s = .error fault := by
  induction fuel generalizing c s with
  | zero => exact .inl ⟨s, rewrite_loop_done (by omega) 0 s, finishes_done tidy owned (by omega)⟩
  | succ fuel ih =>
      by_cases before : c < limit
      · cases found : rbSearch (s.space as).regions c .nearestGte with
        | none =>
            refine .inl ⟨s, ?_, finishes_none rewrites tidy owned (settled before) (search_gte_none found) before⟩
            rw [rewriteLoop, if_pos before, found]
        | some split =>
            obtain ⟨member, above, nearest⟩ := search_gte_some found
            have placed := tidy.placed split member
            have nonempty := placed.nonempty
            have onePage := page_multiple nonempty placed.lengthAligned
            have size : split.limit = split.base + split.length := rfl
            have below := region_fits tidy member
            have run : rewriteLoop as limit type prot cache (fuel + 1) c s =
                rewriteNext as limit type prot cache split s >>= fun t =>
                  rewriteLoop as limit type prot cache fuel split.limit t := by
              rw [rewriteLoop, if_pos before, found]
              dsimp only
              rw [region_end tidy member]
            rw [run]
            by_cases start : split.base < limit
            · have chosen : (if sub64 limit split.base > split.length then split.length else sub64 limit split.base) =
                  min split.limit limit - split.base := by
                rw [sub64_eq (Nat.le_of_lt start) fits]
                by_cases longer : limit - split.base > split.length
                · rw [if_pos longer]
                  omega
                · rw [if_neg longer]
                  omega
              have lengthAligned : (min split.limit limit - split.base) % pageGranularity = 0 := by
                refine sub_aligned ?_ placed.baseAligned
                rcases Nat.le_total split.limit limit with shorter | longer
                · rw [Nat.min_eq_left shorter]
                  exact limit_aligned placed
                · rw [Nat.min_eq_right longer]
                  exact aligned
              rw [rewrite_next_eq rewrites tidy owned (backed before) (by decide) member (Nat.le_refl _) (by omega)
                (fun _ => Nat.le_refl 1) rfl chosen]
              rcases @round_spec broke s as type prot cache split split.base (min split.limit limit - split.base) 1 rewrites tidy
                owned (backed before) (by decide) member (Nat.le_refl _) (by omega) (fun _ => Nat.le_refl 1) (by omega)
                placed.baseAligned lengthAligned with ⟨t, done, ownedT, aside, tidyT, maps, passed⟩ | ⟨fault, stops, failed⟩
              · rw [done, bind_ok]
                have ends : split.limit < limit → split.base + (min split.limit limit - split.base) = split.limit := by omega
                rcases ih split.limit t tidyT ownedT (fun inside => (passed (ends inside)).2.2.2 rfl)
                  (by rw [Nat.succ_mul] at enough; omega) (fun inside => (passed (ends inside)).2.1) with
                  ⟨u, finished, finishes⟩ | failed
                · refine .inl ⟨u, finished, finishes_round rewrites tidy member above ?_ start before above (by omega) ?_ aside maps
                    (fun inside => (passed (ends inside)).1) finishes⟩
                  · exact fun m inTree different =>
                      ⟨later_regions tidy member nearest inTree different, fun later => by omega⟩
                  · intro a v mapsA changes from_c
                    by_contra early
                    refine changes (settled_until rewrites (settled before) mapsA from_c fun m inTree later => ?_)
                    have bound := nearest m inTree later
                    omega
                · exact .inr failed
              · rw [failed]
                exact .inr ⟨fault, stops, rfl⟩
            · have past : limit ≤ split.base := Nat.le_of_not_lt start
              have chosen : (if sub64 limit split.base > split.length then split.length else sub64 limit split.base) =
                  if limit = split.base then 0 else split.length := by
                by_cases same : limit = split.base
                · rw [if_pos same, same, sub64_eq (Nat.le_refl _) (by omega), Nat.sub_self]
                  exact if_neg (Nat.not_lt_zero _)
                · -- The subtraction wraps, so the length is cut to that of the region.
                  rw [if_neg same, sub64_wrap (by omega) (by omega), if_pos (by omega)]
              have high : split.base + (if limit = split.base then 0 else split.length) ≤ split.limit := by
                by_cases same : limit = split.base
                · rw [if_pos same]
                  omega
                · rw [if_neg same]
                  omega
              rw [rewrite_next_eq rewrites tidy owned (backed before) (by decide) member (Nat.le_refl _) high
                (fun _ => Nat.le_refl 1) rfl chosen]
              rcases finishes_past rewrites tidy owned (settled before) before member nearest (backed before) past _ rfl with
                ⟨u, done, finishes⟩ | ⟨fault, stops, failed⟩
              · rw [done, bind_ok]
                exact .inl ⟨u, rewrite_loop_done (by omega) fuel u, finishes⟩
              · rw [failed]
                exact .inr ⟨fault, stops, rfl⟩
      · exact .inl ⟨s, rewrite_loop_done (by omega) (fuel + 1) s, finishes_done tidy owned (by omega)⟩

end Loop

end Elysium.Vm
