import Elysium.PmmAlloc
import Elysium.VmInsert

set_option autoImplicit false

namespace Elysium.Vm

theorem page_alloc_returns (flags : Nat) (pmm : Pmm.State) :
    (∃ pmm' page, Pmm.pmmAllocPage flags pmm = .ok (pmm', page)) ∨ Pmm.pmmAllocPage flags pmm = .error Pmm.outOfMemory :=
  Pmm.pmm_alloc_returns 0 flags pmm (Nat.zero_le _)

-- The global space can take a pool page: it is tidy and starts on a page.
structure Hosts (s : State) : Prop where
  tidy : Tidy (s.space .global)
  aligned : (s.space .global).start % pageGranularity = 0

-- A refill that returns: memory and address space are there.
structure Refills (s : State) : Prop extends Hosts s where
  page : ∃ result, Pmm.pmmAllocPage Pmm.flagZero s.pmm = .ok result
  hole : ∃ a, Hole (s.space .global) pageGranularity a

def outOfAddressSpace : Fault := .panic "VM" "out of global address space"

section Fresh

variable {s : State} {held : List Nat}

theorem owned_fresh (ids : List Nat) (count : Nat) (nodup : ids.Nodup)
    (range : ∀ id ∈ ids, s.nextRegion ≤ id ∧ id < s.nextRegion + count) (owned : Owned s held) :
    Owned { s with nextRegion := s.nextRegion + count } (ids ++ held) := by
  have old : ∀ id ∈ held ++ s.cache, id < s.nextRegion := owned.looseBound
  refine ⟨owned.ordered, owned.ids, owned.spaces, ?_, ?_, ?_, ?_⟩
  · rw [List.append_assoc]
    refine List.nodup_append.mpr ⟨nodup, owned.loose, ?_⟩
    rintro a fresh b used rfl
    exact Nat.not_lt_of_le (range a fresh).1 (old a used)
  · intro as r member inLoose
    rw [List.append_assoc] at inLoose
    rcases List.mem_append.mp inLoose with fresh | used
    · exact Nat.not_lt_of_le (range r.id fresh).1 (owned.linkedBound as r member)
    · exact owned.linked as r member used
  · intro id inLoose
    rw [List.append_assoc] at inLoose
    rcases List.mem_append.mp inLoose with fresh | used
    · exact (range id fresh).2
    · exact Nat.lt_of_lt_of_le (old id used) (Nat.le_add_right _ _)
  · intro as r member
    exact Nat.lt_of_lt_of_le (owned.linkedBound as r member) (Nat.le_add_right _ _)

theorem owned_give_all (ids : List Nat) (owned : Owned s (ids ++ held)) :
    Owned { s with cache := ids.reverse ++ s.cache } held := by
  have perm : (held ++ (ids.reverse ++ s.cache)).Perm (ids ++ held ++ s.cache) := by
    rw [← List.append_assoc]
    refine List.Perm.append_right _ ?_
    exact (List.Perm.append_left held (List.reverse_perm ids)).trans List.perm_append_comm
  obtain ⟨ordered, ids', spaces, loose, linked, looseBound, linkedBound⟩ := owned
  exact ⟨ordered, ids', spaces, perm.nodup_iff.mpr loose, fun as r member inLoose => linked as r member (perm.mem_iff.mp inLoose),
    fun x inLoose => looseBound x (perm.mem_iff.mp inLoose), linkedBound⟩

end Fresh

-- The state after a refill: the lowest hole of the global space has become a pool
-- page, described by the first slot of that page.
structure Refilled (s : State) (held : List Nat) (s' : State) (hole : Nat) (whole : Region) : Prop where
  lowest : LowestHole (s.space .global) pageGranularity hole
  joined : Joined (s.space .global).regions (poolRegion s.nextRegion hole) whole (s'.space .global).regions
  frame : Frame .global s s'
  owned : Owned s' held
  cache : regionsPerPage - 1 ≤ s'.cache.length
  issued : s'.nextRegion = s.nextRegion + regionsPerPage

section Refill

variable {s : State} {held : List Nat} (hosts : Hosts s)

include hosts

theorem pool_hole : (∃ hole, findHole (s.space .global) 0 pageGranularity = .ok (some hole) ∧
      LowestHole (s.space .global) pageGranularity hole) ∨
    (findHole (s.space .global) 0 pageGranularity = .ok none ∧ ∀ b, ¬ Hole (s.space .global) pageGranularity b) := by
  rcases find_hole_spec hosts.tidy 0 with ⟨here, run⟩ | ⟨_, run⟩
  · exact .inl ⟨0, run, here, fun b _ => Nat.zero_le b⟩
  · exact run

theorem pool_placed {hole : Nat} (lowest : LowestHole (s.space .global) pageGranularity hole) (id : Nat) :
    Placed (s.space .global) (poolRegion id hole) := by
  have bounds := (segment_in_bounds_iff hole pageGranularity _ _ hosts.tidy.fits).mp lowest.1.1
  exact ⟨by show 0 < pageGranularity; decide, lowest_hole_aligned hosts.tidy hosts.aligned lowest, Nat.mod_self _, bounds.1,
    bounds.2.2⟩

omit hosts in
theorem pool_clear {hole : Nat} (lowest : LowestHole (s.space .global) pageGranularity hole) (id : Nat) :
    ∀ m ∈ (s.space .global).regions, Apart (poolRegion id hole) m := fun m member =>
  (lowest.1.2 m member).symm

theorem refill_spec (owned : Owned s held) :
    (∃ s' hole whole, refillCache s = .ok s' ∧ Refilled s held s' hole whole ∧ Refills s) ∨
      (refillCache s = .error Pmm.outOfMemory ∧ ¬ ∃ result, Pmm.pmmAllocPage Pmm.flagZero s.pmm = .ok result) ∨
      (refillCache s = .error outOfAddressSpace ∧ ∀ b, ¬ Hole (s.space .global) pageGranularity b) := by
  unfold refillCache
  rcases page_alloc_returns Pmm.flagZero s.pmm with ⟨pmm, page, allocated⟩ | failed
  · rcases pool_hole hosts with ⟨hole, found, lowest⟩ | ⟨found, none⟩
    · refine .inl ?_
      rw [allocated, bind_ok]
      dsimp only
      rw [found, bind_ok]
      dsimp only
      generalize mapped : ({ s with pmm := pmm, nextRegion := s.nextRegion + regionsPerPage } : State).request
        (.map .global hole (Pmm.blockPaddr page) pageGranularity protRW .standard .kernel true) = t
      have space : t.space = s.space := mapped ▸ rfl
      let slots := (List.range' 1 (regionsPerPage - 1)).map (s.nextRegion + ·)
      have slotsNodup : (s.nextRegion :: slots).Nodup := by
        refine List.nodup_cons.mpr ⟨fun listed => ?_, ?_⟩
        · obtain ⟨i, member, same⟩ := List.mem_map.mp listed
          have positive := (List.mem_range'_1.mp member).1
          omega
        · exact List.Nodup.map (fun a b same => Nat.add_left_cancel same) List.nodup_range'
      have slotsRange : ∀ id ∈ s.nextRegion :: slots, s.nextRegion ≤ id ∧ id < s.nextRegion + regionsPerPage := by
        intro id member
        have room : 0 < regionsPerPage := by decide
        rcases List.mem_cons.mp member with rfl | slot
        · omega
        · obtain ⟨i, inRange, rfl⟩ := List.mem_map.mp slot
          have bounds := List.mem_range'_1.mp inRange
          omega
      have ownedT : Owned t ((poolRegion s.nextRegion hole).id :: (slots ++ held)) := by
        have fresh := owned_fresh (s.nextRegion :: slots) regionsPerPage slotsNodup slotsRange owned
        rw [← mapped]
        exact owned_congr fresh rfl rfl rfl
      have tidyT : Tidy (t.space .global) := space ▸ hosts.tidy
      obtain ⟨s', whole, run, quiet, owned', joined⟩ := region_insert_spec tidyT
        (space ▸ pool_placed hosts lowest s.nextRegion) (space ▸ pool_clear lowest s.nextRegion) ownedT
      rw [run]
      dsimp only
      rw [space] at joined
      refine ⟨_, hole, whole, rfl, ⟨lowest, joined, ?_, owned_give_all slots owned', ?_, ?_⟩, hosts, ⟨_, allocated⟩, ⟨hole, lowest.1⟩⟩
      · exact frame_trans (frame_of_space space) (frame_trans quiet.frame (frame_of_space rfl))
      · simp [regionsPerPage]
      · show s'.nextRegion = s.nextRegion + regionsPerPage
        rw [quiet.next, ← mapped]
        rfl
    · refine .inr (.inr ⟨?_, none⟩)
      rw [allocated, bind_ok]
      dsimp only
      rw [found, bind_ok]
      rfl
  · refine .inr (.inl ⟨by rw [failed]; rfl, ?_⟩)
    rintro ⟨result, allocated⟩
    rw [failed] at allocated
    exact absurd allocated (by simp)

theorem refilled_hosts {s' : State} {hole : Nat} {whole : Region} (refilled : Refilled s held s' hole whole) : Hosts s' := by
  refine ⟨joined_tidy hosts.tidy (pool_placed hosts refilled.lowest _) refilled.joined refilled.frame.start refilled.frame.limit
    rfl (pool_clear refilled.lowest _), ?_⟩
  rw [refilled.frame.start]
  exact hosts.aligned

end Refill

-- What a call on one space may change elsewhere: the tree of the global space,
-- which stays fit to take pool pages.
structure Local (as : SpaceId) (s s' : State) : Prop where
  others : ∀ bs, bs ≠ as → bs ≠ .global → s'.space bs = s.space bs
  start : ∀ bs, (s'.space bs).start = (s.space bs).start
  limit : ∀ bs, (s'.space bs).limit = (s.space bs).limit
  hosts : as ≠ .global → Hosts s → Hosts s'

theorem local_refl (as : SpaceId) (s : State) : Local as s s :=
  ⟨fun _ _ _ => rfl, fun _ => rfl, fun _ => rfl, fun _ hosts => hosts⟩

theorem local_trans {as : SpaceId} {s s' s'' : State} (first : Local as s s') (second : Local as s' s'') :
    Local as s s'' :=
  ⟨fun bs other notGlobal => (second.others bs other notGlobal).trans (first.others bs other notGlobal),
    fun bs => (second.start bs).trans (first.start bs), fun bs => (second.limit bs).trans (first.limit bs),
    fun notGlobal hosts => second.hosts notGlobal (first.hosts notGlobal hosts)⟩

theorem hosts_congr {s s' : State} (hosts : Hosts s) (same : s'.space .global = s.space .global) : Hosts s' :=
  ⟨same ▸ hosts.tidy, same ▸ hosts.aligned⟩

theorem frame_local {as : SpaceId} {s s' : State} (frame : Frame as s s') : Local as s s' := by
  refine ⟨fun bs other _ => frame.others bs other, fun bs => ?_, fun bs => ?_, fun notGlobal hosts => ?_⟩
  · by_cases same : bs = as
    · subst same
      exact frame.start
    · rw [frame.others bs same]
  · by_cases same : bs = as
    · subst same
      exact frame.limit
    · rw [frame.others bs same]
  · exact hosts_congr hosts (frame.others .global (Ne.symm notGlobal))

-- The same, with no pool page issued by a call on the global space.
structure Steady (as : SpaceId) (s s' : State) : Prop extends Local as s s' where
  issued : as = .global → s'.nextRegion = s.nextRegion

theorem steady_refl (as : SpaceId) (s : State) : Steady as s s := ⟨local_refl as s, fun _ => rfl⟩

theorem steady_trans {as : SpaceId} {s s' s'' : State} (first : Steady as s s') (second : Steady as s' s'') :
    Steady as s s'' :=
  ⟨local_trans first.toLocal second.toLocal, fun isGlobal => (second.issued isGlobal).trans (first.issued isGlobal)⟩

theorem quiet_steady {as : SpaceId} {s s' : State} (quiet : Quiet as s s') : Steady as s s' :=
  ⟨frame_local quiet.frame, fun _ => quiet.next⟩

-- The pool serves n more requests of a call on this space without changing the
-- tree that the call works on.
def Supply (n : Nat) (s : State) (as : SpaceId) : Prop := n ≤ s.cache.length ∨ (as ≠ .global ∧ Refills s)

section Supply

variable {n : Nat} {s s' : State} {as : SpaceId} {held : List Nat}

theorem supply_mono {m : Nat} (less : m ≤ n) (supply : Supply n s as) : Supply m s as :=
  supply.imp_left (Nat.le_trans less)

theorem refills_congr (refills : Refills s) (pmm : s'.pmm = s.pmm) (space : s'.space .global = s.space .global) :
    Refills s' :=
  ⟨hosts_congr refills.toHosts space, pmm ▸ refills.page, space ▸ refills.hole⟩

theorem supply_quiet (quiet : Quiet as s s') (supply : Supply n s as) : Supply n s' as := by
  rcases supply with enough | ⟨notGlobal, refills⟩
  · exact .inl (Nat.le_trans enough quiet.cache)
  · exact .inr ⟨notGlobal, refills_congr refills quiet.pmm (quiet.frame.others .global (Ne.symm notGlobal))⟩

theorem supply_free (id : Nat) (supply : Supply n s as) : Supply (n + 1) (s.regionFree id) as := by
  rcases supply with enough | ⟨notGlobal, refills⟩
  · exact .inl (Nat.succ_le_succ enough)
  · exact .inr ⟨notGlobal, refills_congr refills rfl rfl⟩

theorem region_alloc_cached {id : Nat} {rest : List Nat} (cache : s.cache = id :: rest) :
    regionAlloc s = .ok ({ s with cache := rest }, id) := by
  have nonempty : ¬ s.cache.length = 0 := by simp [cache]
  rw [regionAlloc, if_neg nonempty, bind_ok]
  dsimp only
  rw [cache]

theorem region_alloc_empty (empty : s.cache = []) :
    regionAlloc s = refillCache s >>= fun t =>
      match t.cache with
      | [] => .error .undefined
      | id :: rest => .ok ({ t with cache := rest }, id) :=
  if_pos (List.length_eq_zero_iff.mpr empty)

theorem region_alloc_refilled {t : State} {hole : Nat} {whole : Region} (empty : s.cache = []) (run : refillCache s = .ok t)
    (refilled : Refilled s held t hole whole) :
    ∃ id rest, t.cache = id :: rest ∧ regionAlloc s = .ok ({ t with cache := rest }, id) := by
  cases cache : t.cache with
  | nil =>
      have enough := refilled.cache
      rw [cache] at enough
      exact absurd enough (by decide)
  | cons id rest =>
      refine ⟨id, rest, rfl, ?_⟩
      rw [region_alloc_empty empty, run, bind_ok, cache]

theorem region_alloc_supplied (owned : Owned s held) (small : n < regionsPerPage - 1) (supply : Supply (n + 1) s as) :
    ∃ t id, regionAlloc s = .ok (t, id) ∧ Owned t (id :: held) ∧ t.space as = s.space as ∧ Steady as s t ∧ Supply n t as := by
  cases cache : s.cache with
  | cons id rest =>
      refine ⟨_, id, region_alloc_cached cache, owned_take cache owned, rfl,
        ⟨frame_local (frame_of_space rfl), fun _ => rfl⟩, ?_⟩
      rcases supply with enough | ⟨notGlobal, refills⟩
      · refine .inl ?_
        simp only [cache, List.length_cons] at enough
        exact Nat.le_of_succ_le_succ enough
      · exact .inr ⟨notGlobal, refills_congr refills rfl rfl⟩
  | nil =>
      rcases supply with enough | ⟨notGlobal, refills⟩
      · simp [cache] at enough
      · have hosts := refills.toHosts
        rcases refill_spec hosts owned with ⟨t, hole, whole, run, refilled, _⟩ | ⟨_, none⟩ | ⟨_, none⟩
        · obtain ⟨id, rest, cacheT, alloc⟩ := region_alloc_refilled cache run refilled
          refine ⟨_, id, alloc, owned_take cacheT refilled.owned, refilled.frame.others as notGlobal, ?_, .inl ?_⟩
          · refine ⟨⟨fun bs _ notGlobalB => refilled.frame.others bs notGlobalB, fun bs => ?_, fun bs => ?_, fun _ _ => ?_⟩,
              fun isGlobal => absurd isGlobal notGlobal⟩
            · exact (frame_local refilled.frame).start bs
            · exact (frame_local refilled.frame).limit bs
            · exact hosts_congr (refilled_hosts hosts refilled) rfl
          · have enough := refilled.cache
            rw [cacheT, List.length_cons] at enough
            dsimp only
            omega
        · exact absurd refills.page none
        · obtain ⟨a, hole⟩ := refills.hole
          exact absurd hole (none a)

end Supply

-- One free page of memory, and no address space in use.
def onePage : Pmm.State where
  zone
    | .low => Pmm.bootZone .low
    | .normal => { Pmm.bootZone .normal with
        totalPageCount := 1, freePageCount := 1, lists := fun order => if order = 0 then [0x2000] else [] }
  pageDb page := ⟨0, 0, page = 0x2000⟩
  memory _ := 0

def freshSpace : SpaceId → AddressSpace
  | .global => ⟨[], kernelspaceStart, kernelspaceEnd⟩
  | .process _ => ⟨[], userspaceStart, userspaceEnd⟩

-- Empty address spaces with the region structures `cache` in the pool.
def freshState (cache : List Nat) : State := ⟨freshSpace, cache, 100, onePage, []⟩

theorem fresh_regions (as : SpaceId) : (freshSpace as).regions = [] := by
  cases as <;> rfl

theorem fresh_limit (as : SpaceId) : (freshSpace as).limit < 2 ^ 64 := by
  cases as with
  | global => decide
  | process id => exact (by decide : userspaceEnd < 2 ^ 64)

theorem fresh_tidy (cache : List Nat) (as : SpaceId) : Tidy ((freshState cache).space as) := by
  refine ⟨fresh_limit as, fun r member => ?_, fun a member => ?_⟩
  · exact absurd (fresh_regions as ▸ member) List.not_mem_nil
  · exact absurd (fresh_regions as ▸ member) List.not_mem_nil

theorem fresh_owned (cache : List Nat) (nodup : cache.Nodup) (bound : ∀ id ∈ cache, id < 100) :
    Owned (freshState cache) [] := by
  have empty : ∀ as, ((freshState cache).space as).regions = [] := fresh_regions
  refine ⟨fun as => ?_, fun as => ?_, fun as bs r member => ?_, nodup, fun as r member => ?_, bound, fun as r member => ?_⟩
  · rw [empty]
    exact List.Pairwise.nil
  · rw [empty]
    exact List.nodup_nil
  · exact absurd (empty as ▸ member) List.not_mem_nil
  · exact absurd (empty as ▸ member) List.not_mem_nil
  · exact absurd (empty as ▸ member) List.not_mem_nil

theorem fresh_hosts (cache : List Nat) : Hosts (freshState cache) :=
  ⟨fresh_tidy cache .global, (by decide : kernelspaceStart % pageGranularity = 0)⟩

-- The same with one region in use.
def singleState (r : Region) (cache : List Nat) : State := (freshState cache).setRegions r.addressSpace [r]

theorem single_owned (r : Region) (cache : List Nat) (nodup : (r.id :: cache).Nodup) (bound : ∀ id ∈ r.id :: cache, id < 100) :
    Owned (singleState r cache) [] := by
  have taken : Owned (freshState cache) [r.id] := owned_take rfl (fresh_owned (r.id :: cache) nodup bound)
  have inserted := owned_insert r.addressSpace r taken
  rw [show ((freshState cache).space r.addressSpace).regions = [] from fresh_regions _] at inserted
  exact inserted

theorem single_hosts (r : Region) (cache : List Nat) (other : r.addressSpace ≠ .global) : Hosts (singleState r cache) :=
  hosts_congr (fresh_hosts cache) (set_regions_other _ _ _ (Ne.symm other))

theorem single_tidy (r : Region) (cache : List Nat) (placed : Placed (freshSpace r.addressSpace) r) :
    Tidy ((singleState r cache).space r.addressSpace) := by
  have regions : ((singleState r cache).space r.addressSpace).regions = [r] := set_regions_regions _ _ _
  refine tidy_adjoin (fresh_tidy cache r.addressSpace) (set_regions_start _ _ _ _) (set_regions_limit _ _ _ _) r placed ?_ ?_
  · intro m member
    rw [regions] at member
    exact .inr (List.mem_singleton.mp member)
  · intro m member different
    rw [regions] at member
    exact absurd (List.mem_singleton.mp member) different

end Elysium.Vm
