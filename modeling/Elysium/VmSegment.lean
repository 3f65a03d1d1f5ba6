import Elysium.VmSetting

set_option autoImplicit false

namespace Elysium.Vm

-- The pool serves n more requests of a call on this space, or it may run out of
-- memory or of address space where `broke` says so.
def Backed (broke : Prop) (n : Nat) (s : State) (as : SpaceId) : Prop :=
  Supply n s as ∨ (as ≠ .global ∧ Hosts s ∧ broke)

-- How a call may stop short: the assertion of clone_to, or a pool that ran out.
def Stops (broke : Prop) (fault : Fault) : Prop :=
  fault = .assertion ∨ (broke ∧ (fault = Pmm.outOfMemory ∨ fault = outOfAddressSpace))

section Backed

variable {broke : Prop} {n : Nat} {s t : State} {as : SpaceId} {held : List Nat}

theorem backed_mono {m : Nat} (less : m ≤ n) (backed : Backed broke n s as) : Backed broke m s as :=
  backed.imp_left (supply_mono less)

theorem backed_step {m : Nat} (aside : Steady as s t) (supply : Supply n s as → Supply m t as) (backed : Backed broke n s as) :
    Backed broke m t as := by
  rcases backed with supplied | ⟨other, hosts, isBroke⟩
  · exact .inl (supply supplied)
  · exact .inr ⟨other, aside.hosts other hosts, isBroke⟩

theorem backed_quiet (quiet : Quiet as s t) (backed : Backed broke n s as) : Backed broke n t as :=
  backed_step (quiet_steady quiet) (supply_quiet quiet) backed

theorem dry_alloc_fails (owned : Owned s held) (other : as ≠ .global) (hosts : Hosts s) (dry : ¬ Supply 1 s as) :
    ∃ fault, regionAlloc s = .error fault ∧ (fault = Pmm.outOfMemory ∨ fault = outOfAddressSpace) := by
  have empty : s.cache = [] := by
    by_contra some
    exact dry (.inl (List.length_pos_iff.mpr some))
  rw [region_alloc_empty empty]
  rcases refill_spec hosts owned with ⟨_, _, _, _, _, refills⟩ | ⟨run, _⟩ | ⟨run, _⟩
  · exact absurd (.inr ⟨other, refills⟩) dry
  · exact ⟨Pmm.outOfMemory, by rw [run]; rfl, .inl rfl⟩
  · exact ⟨outOfAddressSpace, by rw [run]; rfl, .inr rfl⟩

theorem dry_clone_fails (owned : Owned s held) (other : as ≠ .global) (hosts : Hosts s) (isBroke : broke)
    (dry : ¬ Supply 1 s as) (base length source : Nat) :
    ∃ fault, Stops broke fault ∧ cloneTo as base length source s = .error fault := by
  obtain ⟨fault, failed, panics⟩ := dry_alloc_fails owned other hosts dry
  refine ⟨fault, .inr ⟨isBroke, panics⟩, ?_⟩
  rw [cloneTo, failed]
  rfl

theorem clone_backed (owned : Owned s held) (small : n < regionsPerPage - 1) (backed : Backed broke (n + 1) s as)
    {source : Region} (member : source ∈ (s.space as).regions) (base length : Nat) (above : source.base ≤ base) :
    (∃ t id, cloneTo as base length source.id s = .ok (t, cloneOf id base length source) ∧ Owned t (id :: held) ∧
        t.space as = s.space as ∧ Steady as s t ∧ Backed broke n t as) ∨
      ∃ fault, Stops broke fault ∧ cloneTo as base length source.id s = .error fault := by
  rcases backed with supply | ⟨other, hosts, isBroke⟩
  · rcases clone_spec owned small supply member base length above with ⟨_, t, id, run, owned', space, aside, rest⟩ | ⟨_, run⟩
    · exact .inl ⟨t, id, run, owned', space, aside, .inl rest⟩
    · exact .inr ⟨_, .inl rfl, run⟩
  · by_cases supply : Supply 1 s as
    · rcases clone_spec owned (by decide) supply member base length above with
        ⟨_, t, id, run, owned', space, aside, _⟩ | ⟨_, run⟩
      · exact .inl ⟨t, id, run, owned', space, aside, .inr ⟨other, aside.hosts other hosts, isBroke⟩⟩
      · exact .inr ⟨_, .inl rfl, run⟩
    · exact .inr (dry_clone_fails owned other hosts isBroke supply base length source.id)

end Backed

section Carve

variable {broke : Prop} {s : State} {as : SpaceId} {held : List Nat} {split : Region} {b n k : Nat}
  (tidy : Tidy (s.space as)) (owned : Owned s held) (backed : Backed broke k s as) (member : split ∈ (s.space as).regions)
  (low : split.base ≤ b) (high : b + n ≤ split.limit)

include tidy owned backed member low high

theorem carve_backed (tail : b + n < split.limit → 1 ≤ k) :
    (∃ t id, carveFirst as split.id b n s = .ok t ∧ Carved (s.space as).regions split b n id (t.space as).regions ∧
        Owned t held ∧ Steady as s t ∧
        (split.limit ≤ b + n → Backed broke k t as ∧ (b = split.base → Backed broke (k + 1) t as))) ∨
      ∃ fault, Stops broke fault ∧ carveFirst as split.id b n s = .error fault := by
  by_cases supply : b + n < split.limit → Supply 1 s as
  · rcases carve_first_spec tidy owned supply member low high with ⟨t, id, run, carved, owned', aside, _, kept⟩ | ⟨_, _, run⟩
    · refine .inl ⟨t, id, run, carved, owned', aside, fun whole => ⟨?_, fun start => ?_⟩⟩
      · exact backed_step aside (fun supplied => (kept whole k supplied).1) backed
      · exact backed_step aside (fun supplied => (kept whole k supplied).2 start) backed
    · exact .inr ⟨_, .inl rfl, run⟩
  · obtain ⟨cut, dry⟩ := Classical.not_imp.mp supply
    refine .inr ?_
    rcases backed_mono (tail cut) backed with supplied | ⟨other, hosts, isBroke⟩
    · exact absurd supplied dry
    · obtain ⟨fault, stops, failed⟩ := dry_clone_fails owned other hosts isBroke dry (b + n) (split.limit - (b + n)) split.id
      refine ⟨fault, stops, ?_⟩
      rw [carve_first_eq tidy owned member high, if_pos cut, insertClone, failed]
      rfl

-- A region cut at its start loses its structure in both places.
theorem carve_next_backed (tail : b + n < split.limit → 1 ≤ k) (start : b = split.base) :
    carveNext as split.id b n s = carveFirst as split.id b n s := by
  by_cases supply : b + n < split.limit → Supply 1 s as
  · exact carve_next_eq tidy owned supply member low high start
  · obtain ⟨cut, dry⟩ := Classical.not_imp.mp supply
    rcases backed_mono (tail cut) backed with supplied | ⟨other, hosts, isBroke⟩
    · exact absurd supplied dry
    · obtain ⟨fault, _, failed⟩ := dry_clone_fails owned other hosts isBroke dry (b + n) (split.limit - (b + n)) split.id
      have fits := region_fits tidy member
      have size : split.limit = b + split.length := by rw [start, Region.limit]
      rw [carve_first_eq tidy owned member high, if_pos cut, insertClone, failed, carveNext, get_region_member owned member,
        bind_ok, if_pos (by omega), add64_eq (by omega), sub64_eq (by omega) (by omega), insertClone,
        show split.length - n = split.limit - (b + n) by omega, failed]
      rfl

end Carve

-- The work of one round for the segment [b, b + n) of a region.
def rewriteSegment (as : SpaceId) (split b n : Nat) (type : RewriteType) (prot : Protection) (cache : Cache) (s : State) :
    Except Fault State := do
  let (s, region) ← cloneTo as b n split s
  let s ← carveFirst as split b n s
  .ok (insertRewritten as (setAttribute type prot cache region) b n s)

-- The tree after the segment of a region has got its new setting.
structure Rewrote (type : RewriteType) (prot : Protection) (cache : Cache) (regions : List Region) (split : Region)
    (b n : Nat) (result : List Region) : Prop where
  maps : Rewrites (setting type prot cache) (fun a => b ≤ a ∧ a < b + n) regions result
  above : b + n = split.limit → ∀ m, split.limit ≤ m.base →
    (m ∈ result ↔ m ∈ regions ∧ ¬ Joins (setAttribute type prot cache split) m)
  straddling : b + n = split.limit → ∀ m ∈ result, m.base < split.limit → split.limit < m.limit →
    alreadySet type prot cache m = true
  joining : b + n = split.limit → ∀ m ∈ regions, split.limit < m.limit → ∀ next, Joins m next → ∃ l ∈ result, Joins l next

section Rewrote

variable {type : RewriteType} {prot : Protection} {cache : Cache} {space middle : AddressSpace} {split whole : Region}
  {b n id tail : Nat} {result : List Region} (tidy : Tidy space) (member : split ∈ space.regions) (low : split.base ≤ b)
  (high : b + n ≤ split.limit) (positive : 0 < n) (carved : Carved space.regions split b n tail middle.regions)
  (joined : Joined middle.regions (setAttribute type prot cache (cloneOf id b n split)) whole result)

include tidy member low high carved joined

theorem segment_maps (tidyM : Tidy middle) :
    Rewrites (setting type prot cache) (fun a => b ≤ a ∧ a < b + n) space.regions result := by
  intro a v
  have pieceCovers : (setAttribute type prot cache (cloneOf id b n split)).Covers a ↔ b ≤ a ∧ a < b + n := by
    unfold Region.Covers
    rw [set_attribute_base, set_attribute_limit]
    rfl
  rw [joined_maps tidyM joined, carved_maps tidy member low high carved, pieceCovers, set_attribute_at]
  constructor
  · rintro (⟨maps, outside⟩ | ⟨inside, rfl⟩)
    · exact ⟨v, maps, .inr ⟨outside, rfl⟩⟩
    · refine ⟨split.at a, ⟨split, member, ⟨by omega, by omega⟩, rfl⟩, .inl ⟨inside, ?_⟩⟩
      rw [clone_at id b n split low inside.1]
  · rintro ⟨w, maps, ⟨inside, rfl⟩ | ⟨outside, rfl⟩⟩
    · refine .inr ⟨inside, ?_⟩
      obtain ⟨m, inTree, covers, rfl⟩ := maps
      rw [covering_unique tidy inTree member covers ⟨by omega, by omega⟩, clone_at id b n split low inside.1]
    · exact .inl ⟨maps, outside⟩

include positive in
theorem segment_rewrote (rewrites : type ≠ .delete) (tidyM : Tidy middle) :
    Rewrote type prot cache space.regions split b n result := by
  have base : (setAttribute type prot cache (cloneOf id b n split)).base = b := set_attribute_base _
  have limit : (setAttribute type prot cache (cloneOf id b n split)).limit = b + n := set_attribute_limit _
  refine ⟨segment_maps tidy member low high carved joined tidyM, fun ends m past => ?_, fun ends m inResult start stop => ?_,
    fun ends m inTree past next joins => ?_⟩
  · rw [joined_above joined (by omega), joins_cut (tidy.placed split member) low positive ends]
    refine and_congr_left fun _ => ?_
    rw [carved.mem m]
    constructor
    · rintro (⟨old, _⟩ | ⟨_, rfl⟩ | ⟨beyond, _⟩)
      · exact old
      · have short : split.limit ≤ split.base := past
        omega
      · omega
    · refine fun old => .inl ⟨old, fun same => ?_⟩
      rw [same] at past
      omega
  · rcases (joined.mem m).mp inResult with ⟨old, _, _⟩ | rfl
    · rcases carved_within low high carved old with ⟨inTree, different⟩ | ⟨_, within, edge⟩
      · have apart := tidy.apart m inTree split member different
        unfold Apart at apart
        omega
      · omega
    · exact already_set_whole rewrites joined
  · have inMiddle : m ∈ middle.regions := (carved.mem m).mpr (.inl ⟨inTree, fun same => by rw [same] at past; omega⟩)
    by_cases right : Joins (setAttribute type prot cache (cloneOf id b n split)) m
    · refine ⟨whole, (joined.mem whole).mpr (.inr rfl), ?_⟩
      have low' := joined_low joined
      have high' := joined_high joined
      have nonempty := (tidy.placed m inTree).nonempty
      have size : m.limit = m.base + m.length := rfl
      have sizeW : whole.limit = whole.base + whole.length := rfl
      -- The whole ends as the region that was taken in.
      have ends' : whole.limit = m.limit := by
        rcases joined.right with ⟨none, _⟩ | ⟨r, memberR, joinsR, same⟩
        · exact absurd right (none m inMiddle)
        · rw [same, base_unique tidyM inMiddle memberR (right.1.symm.trans joinsR.1)]
      rw [joins_iff nonempty] at joins
      rw [joins_iff (by omega), ends']
      have start := right.1
      have nextBase := joins.1
      refine ⟨joins.1, ?_, joins.2.2⟩
      rw [joins.2.1, joins_at right next.base (by omega), joined_at joined (by omega)]
    · refine ⟨m, (joined.mem m).mpr (.inl ⟨inMiddle, right, fun left => ?_⟩), joins⟩
      have stop := left.1
      omega

end Rewrote

-- region_insert of a region without pages: it vanishes in a left neighbour or
-- stays in the tree.
theorem insert_empty {s : State} {as : SpaceId} {held : List Nat} {empty : Region} (tidy : Tidy (s.space as))
    (owned : Owned s (empty.id :: held)) (length : empty.length = 0) (fits : empty.base < 2 ^ 64) :
    ∃ t last, regionInsert as empty s = (t, last) ∧ Quiet as s t ∧ Owned t held ∧
      ((∃ m ∈ (s.space as).regions, Joins m empty) ∧ (∀ m, m ∈ (t.space as).regions ↔ m ∈ (s.space as).regions) ∨
        (∀ m ∈ (s.space as).regions, ¬ Joins m empty) ∧
          ∀ m, m ∈ (t.space as).regions ↔ m = empty ∨ m ∈ (s.space as).regions) := by
  have limit : empty.limit = empty.base := by rw [Region.limit, length, Nat.add_zero]
  have unmerged : mergeRight as empty s = (s, empty) := by
    unfold mergeRight
    cases found : rbSearch (s.space as).regions empty.base .nearestGt with
    | none => rfl
    | some right =>
        obtain ⟨_, after, _⟩ := search_gt_some found
        refine if_neg fun mergeable => ?_
        have adjacent := ((mergeable_iff empty right (by omega)).mp mergeable).1
        omega
  obtain ⟨u, inserted⟩ : ∃ u, u = s.setRegions as (rbInsert empty (s.space as).regions) := ⟨_, rfl⟩
  have regions : (u.space as).regions = rbInsert empty (s.space as).regions := by rw [inserted, set_regions_regions]
  have quietU : Quiet as s u := inserted ▸ quiet_set_regions as s _
  have ownedU : Owned u held := inserted ▸ owned_insert as empty owned
  have memberE : empty ∈ (u.space as).regions := by
    rw [regions, rb_insert_mem]
    exact .inl rfl
  have unfolded : regionInsert as empty s = mergeLeft as empty u := by rw [regionInsert, unmerged, inserted]
  rw [unfolded, mergeLeft]
  cases found : rbSearch (u.space as).regions empty.base .nearestLt with
  | none =>
      refine ⟨u, empty, rfl, quietU, ownedU, .inr ⟨fun m member joins => ?_, fun m => by rw [regions, rb_insert_mem]⟩⟩
      have after := search_lt_none found m (by rw [regions, rb_insert_mem]; exact .inr member)
      have nonempty := (tidy.placed m member).nonempty
      have adjacent := joins.1
      unfold Region.limit at adjacent
      omega
  | some left =>
      obtain ⟨memberU, before, nearest⟩ := search_lt_some found
      have member : left ∈ (s.space as).regions := by
        rw [regions, rb_insert_mem] at memberU
        refine memberU.resolve_left fun same => ?_
        rw [same] at before
        omega
      have fitsL := region_fits tidy member
      by_cases mergeable : regionsMergeable left empty = true
      · have joins := (mergeable_iff left empty fitsL).mp mergeable
        have grown : add64 left.length empty.length = left.length := by
          unfold Region.limit at fitsL
          rw [length, add64_eq (by omega), Nat.add_zero]
        have idsDiffer : empty.id ≠ left.id := fun same => by
          rw [owned_same_id ownedU as memberE memberU same] at before
          omega
        simp only [if_pos mergeable, grown]
        refine ⟨_, _, rfl, quiet_trans quietU (quiet_trans (quiet_set_regions as _ _) (quiet_free as _ _)), ?_,
          .inl ⟨⟨left, member, joins⟩, fun m => ?_⟩⟩
        · have resized := owned_set_length as left.id left.length ownedU
          have memberR : empty ∈ ((u.setRegions as (setLength left.id left.length (u.space as).regions)).space as).regions := by
            rw [set_regions_regions, set_length_mem]
            exact .inl ⟨memberE, idsDiffer⟩
          simpa only [set_regions_set_regions, set_regions_regions] using owned_drop as empty memberR resized
        · rw [region_free_space, set_regions_regions, rb_remove_mem, shorten_mem ownedU memberU, regions, rb_insert_mem]
          constructor
          · rintro ⟨⟨rfl | old, _⟩ | rfl, other⟩
            · exact absurd rfl other
            · exact old
            · exact member
          · intro old
            refine ⟨?_, fun same => owned.linked as m old (by simp [same])⟩
            by_cases same : m = left
            · exact .inr same
            · exact .inl ⟨.inr old, same⟩
      · simp only [if_neg mergeable]
        refine ⟨u, empty, rfl, quietU, ownedU, .inr ⟨fun m memberM joins => mergeable ?_, fun m => by rw [regions, rb_insert_mem]⟩⟩
        have adjacent := joins.1
        have nonempty := (tidy.placed m memberM).nonempty
        have size : m.limit = m.base + m.length := rfl
        have bound := nearest m (by rw [regions, rb_insert_mem]; exact .inr memberM) (by omega)
        have same : m.base = left.base := by
          rcases Nat.lt_or_eq_of_le bound with earlier | same
          · have stop := base_lt_limit_le tidy memberM member earlier
            omega
          · exact same
        rw [← base_unique tidy memberM member same]
        exact (mergeable_iff m empty (region_fits tidy memberM)).mpr joins

section Segment

variable {broke : Prop} {s : State} {as : SpaceId} {type : RewriteType} {prot : Protection} {cache : Cache} {split : Region}
  {b n k : Nat} (tidy : Tidy (s.space as)) (owned : Owned s []) (backed : Backed broke (k + 1) s as)
  (small : k < regionsPerPage - 1) (member : split ∈ (s.space as).regions) (low : split.base ≤ b) (high : b + n ≤ split.limit)
  (tail : b + n < split.limit → 1 ≤ k)

include tidy owned backed small member low high tail

-- Up to the insertion of the rewritten piece.
theorem segment_cut :
    (∃ u id behind, (∀ type prot cache, rewriteSegment as split.id b n type prot cache s =
          .ok (insertRewritten as (setAttribute type prot cache (cloneOf id b n split)) b n u)) ∧
        Owned u [id] ∧ Steady as s u ∧ Carved (s.space as).regions split b n behind (u.space as).regions ∧
        (split.limit ≤ b + n → Backed broke k u as ∧ (b = split.base → Backed broke (k + 1) u as))) ∨
      ∃ fault, Stops broke fault ∧ ∀ type prot cache, rewriteSegment as split.id b n type prot cache s = .error fault := by
  rcases clone_backed owned small backed member b n low with ⟨t, id, cloned, ownedT, space, aside, backedT⟩ | ⟨fault, stops, failed⟩
  · have tidyT : Tidy (t.space as) := space ▸ tidy
    have memberT : split ∈ (t.space as).regions := space ▸ member
    rcases carve_backed tidyT ownedT backedT memberT low high tail with
      ⟨u, behind, run, carved, ownedU, asideU, backedU⟩ | ⟨fault, stops, failed⟩
    · refine .inl ⟨u, id, behind, fun type prot cache => ?_, ownedU, steady_trans aside asideU, space ▸ carved, backedU⟩
      rw [rewriteSegment, cloned, bind_ok]
      dsimp only
      rw [run, bind_ok]
    · refine .inr ⟨fault, stops, fun type prot cache => ?_⟩
      rw [rewriteSegment, cloned, bind_ok]
      dsimp only
      rw [failed]
      rfl
  · refine .inr ⟨fault, stops, fun type prot cache => ?_⟩
    rw [rewriteSegment, failed]
    rfl

theorem segment_spec (rewrites : type ≠ .delete) (positive : 0 < n) (baseAligned : b % pageGranularity = 0)
    (lengthAligned : n % pageGranularity = 0) :
    (∃ u, rewriteSegment as split.id b n type prot cache s = .ok u ∧ Owned u [] ∧ Steady as s u ∧ Tidy (u.space as) ∧
        Rewrote type prot cache (s.space as).regions split b n (u.space as).regions ∧
        (split.limit ≤ b + n → Backed broke k u as ∧ (b = split.base → Backed broke (k + 1) u as))) ∨
      ∃ fault, Stops broke fault ∧ rewriteSegment as split.id b n type prot cache s = .error fault := by
  rcases segment_cut tidy owned backed small member low high tail with
    ⟨u, id, behind, run, ownedU, aside, carved, backedU⟩ | ⟨fault, stops, failed⟩
  · refine .inl ?_
    have placed := tidy.placed split member
    have tidyU : Tidy (u.space as) := carved_tidy tidy member low high carved (aside.start as) (aside.limit as) rfl
      baseAligned lengthAligned
    have base : (setAttribute type prot cache (cloneOf id b n split)).base = b := set_attribute_base _
    have length : (setAttribute type prot cache (cloneOf id b n split)).length = n := set_attribute_length _
    have limit : (setAttribute type prot cache (cloneOf id b n split)).limit = b + n := set_attribute_limit _
    have pieceId : (setAttribute type prot cache (cloneOf id b n split)).id = id := set_attribute_id _
    have piecePlaced : Placed (u.space as) (setAttribute type prot cache (cloneOf id b n split)) := by
      refine ⟨by rwa [length], by rwa [base], by rwa [length], ?_, ?_⟩
      · rw [base, aside.start]
        exact Nat.le_trans placed.above low
      · rw [limit, aside.limit]
        exact Nat.le_trans high placed.below
    have pieceClear := carved_clear tidy member low high carved base length
    obtain ⟨w, whole, inserted, quiet, ownedW, joined⟩ :=
      region_insert_spec tidyU piecePlaced pieceClear (pieceId.symm ▸ ownedU)
    obtain ⟨x, requested⟩ : ∃ x, x = w.request (.rewrite whole.addressSpace b n whole.protection whole.cacheBehavior
      (privilegeOf whole.addressSpace) (whole.addressSpace = SpaceId.global)) := ⟨_, rfl⟩
    have space : x.space = w.space := requested ▸ rfl
    have quietX : Quiet as u x := quiet_trans quiet (requested ▸ quiet_request as w _)
    have done : rewriteSegment as split.id b n type prot cache s = .ok x := by
      rw [run, insertRewritten, inserted, requested]
    refine ⟨x, done, owned_congr ownedW space (requested ▸ rfl) (requested ▸ rfl), steady_trans aside (quiet_steady quietX), ?_, ?_, ?_⟩
    · exact joined_tidy tidyU piecePlaced joined quietX.frame.start quietX.frame.limit (by rw [space]) pieceClear
    · rw [space]
      exact segment_rewrote tidy member low high positive carved joined rewrites tidyU
    · intro whole
      exact ⟨backed_quiet quietX (backedU whole).1, fun start => backed_quiet quietX ((backedU whole).2 start)⟩
  · exact .inr ⟨fault, stops, failed type prot cache⟩

end Segment

end Elysium.Vm
