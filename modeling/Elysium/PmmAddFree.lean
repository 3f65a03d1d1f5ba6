import Elysium.PmmSafety

set_option autoImplicit false

namespace Elysium.Pmm

open Dyadic

-- The pages of a region that lie in a zone.
def Region.added (r : Region) : List Nat := r.pages.filter fun p => r.Adds p

def freePages : List Nat → State → Except Fault State
  | [], s => .ok s
  | block :: rest, s => do
      let s ← pmmFree block s
      freePages rest s

-- A region is added as allocated memory, and its pages are freed one after another.
def addThenFree (r : Region) (pages : List Nat) (s : State) : Except Fault State := do
  let s ← pmmRegionAdd r.base r.size false s
  freePages pages s

structure SameZones (s s' : State) : Prop where
  blocks : ∀ z k h, h ∈ (s.zone z).lists k ↔ h ∈ (s'.zone z).lists k
  freePageCount : ∀ z, (s.zone z).freePageCount = (s'.zone z).freePageCount
  totalPageCount : ∀ z, (s.zone z).totalPageCount = (s'.zone z).totalPageCount
  heads : ∀ z k h, h ∈ (s.zone z).lists k → s.pageDb h = s'.pageDb h

-- Free memory is added as if it was freed page by page.
def AddsFree (r : Region) (pages : List Nat) (s : State) : Prop :=
  ∃ direct freed, pmmRegionAdd r.base r.size true s = .ok direct ∧ addThenFree r pages s = .ok freed ∧ SameZones direct freed

-- The states of an allocator that any disjoint regions are added to, allocated or free.
inductive Added : State → List Region → Prop where
  | boot (s : State) (empty : s.zone = bootZone) : Added s []
  | regionAdd (s s' : State) (regions : List Region) (r : Region) (isFree : Bool) (before : Added s regions)
      (disjoint : ∀ other ∈ regions, ∀ p, ¬ (r.Holds p ∧ other.Holds p))
      (added : pmmRegionAdd r.base r.size isFree s = .ok s') : Added s' (r :: regions)
  | alloc (s s' : State) (regions : List Region) (order flags h : Nat) (before : Added s regions)
      (allocated : pmmAlloc order flags s = .ok (s', h)) : Added s' regions
  | free (s s' : State) (regions : List Region) (h : Nat) (before : Added s regions) (freed : pmmFree h s = .ok s') : Added s' regions

-- What is done to lists and blocks leaves the counters of free pages and the bounds alone.
def KeepsCount (s s' : State) : Prop :=
  ∀ y, (s'.zone y).freePageCount = (s.zone y).freePageCount ∧ (s'.zone y).start = (s.zone y).start ∧ (s'.zone y).limit = (s.zone y).limit

section Counts

variable {s s' s'' : State}

theorem keeps_count_refl (s : State) : KeepsCount s s := fun _ => ⟨rfl, rfl, rfl⟩

theorem keeps_count_trans (first : KeepsCount s s') (second : KeepsCount s' s'') : KeepsCount s s'' := by
  intro y
  obtain ⟨count, start, limit⟩ := first y
  obtain ⟨count', start', limit'⟩ := second y
  exact ⟨count'.trans count, start'.trans start, limit'.trans limit⟩

theorem keeps_bounds_of_count (keeps : KeepsCount s s') (bounds : KeepsBounds s) : KeepsBounds s' := by
  intro z
  obtain ⟨_, start, limit⟩ := keeps z
  exact ⟨start.trans (bounds z).1, limit.trans (bounds z).2⟩

theorem set_zone_keeps (z : ZoneId) (value : Zone) (count : value.freePageCount = (s.zone z).freePageCount)
    (bounds : value.start = (s.zone z).start ∧ value.limit = (s.zone z).limit) : KeepsCount s (s.setZone z value) := by
  intro y
  by_cases zone : y = z
  · subst zone
    simpa [State.setZone] using ⟨count, bounds⟩
  · simp [State.setZone, zone]

theorem set_list_keeps (z : ZoneId) (k : Nat) (list : List Nat) : KeepsCount s (s.setList z k list) :=
  set_zone_keeps z _ rfl ⟨rfl, rfl⟩

theorem set_block_keeps (block : Nat) (value : Block) : KeepsCount s (s.setBlock block value) := fun _ => ⟨rfl, rfl, rfl⟩

theorem init_page_keeps (z : ZoneId) (order : Nat) (isFree : Bool) (block : Nat) : KeepsCount s (initPage z order isFree s block) := by
  cases isFree with
  | false => exact set_block_keeps block _
  | true => exact keeps_count_trans (set_block_keeps block _) (set_list_keeps z order _)

theorem init_block_keeps (z : ZoneId) (order first : Nat) (isFree : Bool) : KeepsCount s (initBlock z order first isFree s) := by
  unfold initBlock
  generalize List.range (orderToPagecount order) = pages
  induction pages generalizing s with
  | nil => exact keeps_count_refl s
  | cons y rest ih => exact keeps_count_trans (init_page_keeps z order isFree (first + y)) ih

-- Whatever is done with the pages, every block of the region is started where it is aligned.
theorem region_loop_keeps (z : ZoneId) (localBase pageCount : Nat) (isFree : Bool) (aligned : pageGranularity ∣ localBase) (fuel : Nat) :
    ∀ (j : Nat) (s : State), pageCount ≤ j + fuel →
      ∃ s', regionLoop z localBase pageCount isFree fuel j s = .ok s' ∧ KeepsCount s s' := by
  induction fuel with
  | zero =>
      intro j s enough
      exact ⟨s, by rw [regionLoop, if_neg (by omega)], keeps_count_refl s⟩
  | succ fuel ih =>
      intro j s enough
      by_cases more : j < pageCount
      · obtain ⟨order, small, chosen, fits, head⟩ := block_order_spec localBase pageCount j aligned more
        have positive := Nat.two_pow_pos order
        obtain ⟨s', run, keeps⟩ := ih (j + 2 ^ order) (initBlock z order (localBase / pageGranularity + j) isFree s) (by omega)
        refine ⟨s', ?_, keeps_count_trans (init_block_keeps z order _ isFree) keeps⟩
        rw [regionLoop, if_pos more, chosen]
        simp only [bind_ok]
        rwa [order_to_pagecount_eq]
      · exact ⟨s, by rw [regionLoop, if_neg more], keeps_count_refl s⟩

theorem zone_region_add_keeps (r : Region) (z : ZoneId) (isFree : Bool) (bounds : KeepsBounds s) :
    ∃ s', zoneRegionAdd r.base r.size isFree z s = .ok s' ∧ KeepsCount s s' := by
  obtain ⟨_, skipped⟩ | ⟨lo, count, _, looped⟩ := zone_region_add_eq r z
  · exact ⟨s, skipped s isFree bounds, keeps_count_refl s⟩
  · have counted : KeepsCount s (s.setZone z { s.zone z with totalPageCount := (s.zone z).totalPageCount + count }) :=
      set_zone_keeps z _ rfl ⟨rfl, rfl⟩
    obtain ⟨s', run, keeps⟩ := region_loop_keeps z (pageGranularity * lo) count isFree (Nat.dvd_mul_right _ _) count 0 _ (by omega)
    exact ⟨s', (looped s isFree bounds).trans run, keeps_count_trans counted keeps⟩

theorem region_add_keeps (r : Region) (isFree : Bool) (bounds : KeepsBounds s) :
    ∃ s', pmmRegionAdd r.base r.size isFree s = .ok s' ∧ KeepsCount s s' := by
  obtain ⟨low, first, keeps⟩ := zone_region_add_keeps r .low isFree bounds
  obtain ⟨normal, second, keeps'⟩ := zone_region_add_keeps r .normal isFree (keeps_bounds_of_count keeps bounds)
  exact ⟨normal, by rw [pmmRegionAdd, first, bind_ok, second], keeps_count_trans keeps keeps'⟩

-- Without a page in the zone the loop does not run.
theorem zone_region_add_none (r : Region) (z : ZoneId) (none : ∀ p, ¬ (r.Holds p ∧ ZoneHolds z p)) (bounds : KeepsBounds s) :
    zoneRegionAdd r.base r.size true z s = zoneRegionAdd r.base r.size false z s := by
  obtain ⟨_, skipped⟩ | ⟨lo, count, part, looped⟩ := zone_region_add_eq r z
  · rw [skipped s true bounds, skipped s false bounds]
  · have empty : count = 0 := by
      by_contra some
      exact none lo ((part lo).mp ⟨Nat.le_refl lo, by omega⟩)
    subst empty
    rw [looped s true bounds, looped s false bounds, regionLoop, regionLoop]

theorem region_add_none (r : Region) (none : ∀ p, ¬ r.Adds p) (bounds : KeepsBounds s) :
    pmmRegionAdd r.base r.size true s = pmmRegionAdd r.base r.size false s := by
  have each : ∀ z p, ¬ (r.Holds p ∧ ZoneHolds z p) := fun z p inside => none p ⟨inside.1, z, inside.2⟩
  obtain ⟨low, first, keeps⟩ := zone_region_add_keeps r .low false bounds
  rw [pmmRegionAdd, pmmRegionAdd, zone_region_add_none r .low (each .low) bounds, first, bind_ok, bind_ok,
    zone_region_add_none r .normal (each .normal) (keeps_bounds_of_count keeps bounds)]

theorem merge_loop_keeps (z : ZoneId) (fuel : Nat) : ∀ (s : State) (block : Nat) (s' : State) (block' : Nat),
    mergeLoop z fuel block s = .ok (s', block') → KeepsCount s s' := by
  induction fuel with
  | zero => exact nofun
  | succ fuel ih =>
      intro s block s' block' run
      simp only [mergeLoop] at run
      split at run
      · split at run
        · cases run
          exact keeps_count_refl s
        · split at run
          · refine keeps_count_trans ?_ (ih _ _ _ _ run)
            exact keeps_count_trans (set_list_keeps z _ _) (keeps_count_trans (set_block_keeps _ _) (set_block_keeps _ _))
          · cases run
      · cases run
        exact keeps_count_refl s

theorem split_loop_keeps (z : ZoneId) (block order surplus : Nat) : ∀ s : State, KeepsCount s (splitLoop z block order surplus s) := by
  induction surplus with
  | zero => exact keeps_count_refl
  | succ surplus ih =>
      intro s
      refine keeps_count_trans ?_ (ih _)
      exact keeps_count_trans (set_block_keeps _ _) (set_list_keeps z _ _)

-- pmm_free counts the pages of the block, whatever it then merges.
theorem free_counts {block : Nat} (freed : pmmFree block s = .ok s') (y : ZoneId) :
    (s'.zone y).freePageCount = (s.zone y).freePageCount + (if y = freeZone block then 2 ^ (s.pageDb block).order else 0) ∧
      (s'.zone y).start = (s.zone y).start ∧ (s'.zone y).limit = (s.zone y).limit := by
  simp only [pmmFree] at freed
  obtain ⟨⟨merged, head⟩, loop, freed⟩ := (bind_eq_ok _ _ _).mp freed
  obtain rfl := Except.ok.inj freed
  have keeps := keeps_count_trans (merge_loop_keeps _ _ _ _ _ _ loop)
    (set_list_keeps (freeZone block) (merged.pageDb head).order (head :: (merged.zone (freeZone block)).lists (merged.pageDb head).order)) y
  obtain ⟨count, start, limit⟩ := keeps
  by_cases zone : y = freeZone block
  · subst zone
    simp only [State.setBlock, State.setZone, Function.update_self] at count start limit
    rw [order_to_pagecount_eq] at count
    exact ⟨by rw [if_pos rfl]; exact count, start, limit⟩
  · simp only [State.setBlock, State.setZone, Function.update_of_ne zone] at count start limit
    exact ⟨by rw [if_neg zone, Nat.add_zero]; exact count, start, limit⟩

theorem alloc_bounds {order flags h : Nat} (allocated : pmmAlloc order flags s = .ok (s', h)) (bounds : KeepsBounds s) : KeepsBounds s' := by
  simp only [pmmAlloc] at allocated
  obtain ⟨_, _, allocated⟩ := (bind_eq_ok _ _ _).mp allocated
  obtain ⟨found, _, allocated⟩ := (bind_eq_ok _ _ _).mp allocated
  split at allocated
  · cases allocated
  · rename_i block rest _
    cases allocated
    have taken := keeps_bounds_of_count (set_list_keeps (allocZone flags) found rest) bounds
    have cut := keeps_bounds_of_count (split_loop_keeps (allocZone flags) h order (found - order) _) taken
    intro y
    have after := cut y
    by_cases zone : y = allocZone flags
    · subst zone
      split <;> simpa [State.setZone, State.setBlock] using after
    · split <;> simpa [State.setZone, State.setBlock, zone] using after

theorem added_bounds {regions : List Region} (reach : Added s regions) : KeepsBounds s := by
  induction reach with
  | boot s empty =>
      intro z
      rw [empty]
      exact ⟨rfl, rfl⟩
  | regionAdd s s' regions r isFree _ _ added ih =>
      obtain ⟨result, run, keeps⟩ := region_add_keeps r isFree ih
      obtain rfl := Except.ok.inj (added.symm.trans run)
      exact keeps_bounds_of_count keeps ih
  | alloc s s' regions order flags h _ allocated ih => exact alloc_bounds allocated ih
  | free s s' regions h _ freed ih =>
      intro z
      obtain ⟨_, start, limit⟩ := free_counts freed z
      exact ⟨start.trans (ih z).1, limit.trans (ih z).2⟩

theorem free_pages_counts {pages : List Nat} (freed : freePages pages s = .ok s') :
    (∀ y, (s.zone y).freePageCount ≤ (s'.zone y).freePageCount) ∧
      ∀ p ∈ pages, (s.zone (freeZone p)).freePageCount < (s'.zone (freeZone p)).freePageCount := by
  induction pages generalizing s with
  | nil =>
      cases freed
      exact ⟨fun _ => Nat.le_refl _, nofun⟩
  | cons page rest ih =>
      obtain ⟨next, first, later⟩ := (bind_eq_ok _ _ _).mp freed
      obtain ⟨grows, strict⟩ := ih later
      have counts := fun y => (free_counts first y).1
      have step : ∀ y, (s.zone y).freePageCount ≤ (next.zone y).freePageCount := by
        intro y
        rw [counts y]
        exact Nat.le_add_right _ _
      refine ⟨fun y => Nat.le_trans (step y) (grows y), fun p member => ?_⟩
      rcases List.mem_cons.mp member with rfl | later
      · have more := counts (freeZone p)
        have positive := Nat.two_pow_pos (s.pageDb p).order
        rw [if_pos rfl] at more
        have after := grows (freeZone p)
        omega
      · exact Nat.lt_of_le_of_lt (step _) (strict p later)

end Counts

theorem added_nil {r : Region} : r.added = [] ↔ ∀ p, ¬ r.Adds p := by
  rw [Region.added, List.filter_eq_nil_iff]
  constructor
  · intro none p adds
    exact none p ((region_pages_mem r p).mpr adds.1) (decide_eq_true adds)
  · intro none p _
    simpa using none p

-- In any order the pages are freed in, the counters tell the two apart as soon as there is a page.
theorem adds_free_iff {s : State} {regions : List Region} (reach : Added s regions) (r : Region) (pages : List Nat)
    (all : pages.Perm r.added) : AddsFree r pages s ↔ r.added = [] := by
  have bounds := added_bounds reach
  constructor
  · rintro ⟨direct, freed, added, later, same⟩
    obtain ⟨result, run, keeps⟩ := region_add_keeps r true bounds
    obtain rfl := Except.ok.inj (added.symm.trans run)
    obtain ⟨allocated, first, rest⟩ := (bind_eq_ok _ _ _).mp later
    obtain ⟨result', run', keeps'⟩ := region_add_keeps r false bounds
    obtain rfl := Except.ok.inj (first.symm.trans run')
    obtain ⟨_, strict⟩ := free_pages_counts rest
    by_contra some
    obtain ⟨p, member⟩ := List.exists_mem_of_ne_nil _ some
    have more := strict p (all.mem_iff.mpr member)
    have equal := same.freePageCount (freeZone p)
    rw [(keeps (freeZone p)).1] at equal
    rw [(keeps' (freeZone p)).1] at more
    omega
  · intro none
    rw [none, List.perm_nil] at all
    subst all
    obtain ⟨result, run, _⟩ := region_add_keeps r false bounds
    have direct := region_add_none r (added_nil.mp none) bounds
    refine ⟨result, result, direct.trans run, by rw [addThenFree, run]; rfl, ?_⟩
    exact ⟨fun _ _ _ => Iff.rfl, fun _ => rfl, fun _ => rfl, fun _ _ _ _ => rfl⟩

-- Blocks of one page that are live can be freed one after another.
theorem free_pages_returns {pages : List Nat} : ∀ {c : Config} {layout : Layout}, Inv c layout → pages.Nodup →
    (∀ p ∈ pages, ⟨p, 0, holder p⟩ ∈ c.live) → ∃ s', freePages pages c.pmm = .ok s' ∧
      ∀ z, (s'.zone z).freePageCount = (c.pmm.zone z).freePageCount + (pages.filter fun p => holder p = z).length := by
  induction pages with
  | nil => exact fun {c layout} _ _ _ => ⟨c.pmm, rfl, fun _ => rfl⟩
  | cons p rest ih =>
      intro c layout inv distinct live
      have first := live p List.mem_cons_self
      obtain ⟨apart, distinct⟩ := List.nodup_cons.mp distinct
      obtain ⟨held, _⟩ := (inv.live _).mp first
      obtain ⟨s, _, run, _, _, _, _, _, _, counts, _⟩ := pmm_free_spec inv.tracks inv.canonical 0 p held
      obtain ⟨next, inv'⟩ := free_inv inv ⟨p, 0, holder p⟩ first s run
      have others : ∀ q ∈ rest, (⟨q, 0, holder q⟩ : Run) ∈ c.live.erase ⟨p, 0, holder p⟩ := by
        intro q member
        have different : (⟨q, 0, holder q⟩ : Run) ≠ ⟨p, 0, holder p⟩ := fun same => apart ((Run.mk.inj same).1 ▸ member)
        exact (List.mem_erase_of_ne different).mpr (live q (List.mem_cons_of_mem p member))
      obtain ⟨s', later, counts'⟩ := ih inv' distinct others
      refine ⟨s', by rw [freePages, run, bind_ok, later], fun z => ?_⟩
      have total := counts' z
      rw [counts z] at total
      rw [total]
      by_cases zone : holder p = z
      · rw [if_pos zone.symm, List.filter_cons_of_pos (by simpa using zone), List.length_cons]
        omega
      · rw [if_neg (Ne.symm zone), List.filter_cons_of_neg (by simpa using zone)]
        omega

theorem free_pages_reaches {pages : List Nat} : ∀ {c : Config}, Reachable c → pages.Nodup → (∀ p ∈ pages, ⟨p, 0, holder p⟩ ∈ c.live) →
    ∃ s' live, freePages pages c.pmm = .ok s' ∧ Reachable ⟨s', c.regions, live⟩ ∧
      ∀ b, b ∈ live ↔ b ∈ c.live ∧ ∀ p ∈ pages, b ≠ ⟨p, 0, holder p⟩ := by
  induction pages with
  | nil => exact fun {c} reach _ _ => ⟨c.pmm, c.live, rfl, reach, fun b => by simp⟩
  | cons p rest ih =>
      intro c reach distinct live
      obtain ⟨layout, inv⟩ := reachable_inv c reach
      obtain ⟨apart, distinct⟩ := List.nodup_cons.mp distinct
      have first := live p List.mem_cons_self
      obtain ⟨s, run⟩ := ((inv_serves inv).free _ first).2
      have others : ∀ q ∈ rest, (⟨q, 0, holder q⟩ : Run) ∈ c.live.erase ⟨p, 0, holder p⟩ := by
        intro q member
        have different : (⟨q, 0, holder q⟩ : Run) ≠ ⟨p, 0, holder p⟩ := fun same => apart ((Run.mk.inj same).1 ▸ member)
        exact (List.mem_erase_of_ne different).mpr (live q (List.mem_cons_of_mem p member))
      obtain ⟨s', live', later, reach', left⟩ := ih (reach.free c _ s first run) distinct others
      refine ⟨s', live', by rw [freePages, run, bind_ok, later], reach', fun b => ?_⟩
      rw [left b, inv.liveNodup.mem_erase_iff, List.forall_mem_cons]
      exact ⟨fun ⟨⟨ne, member⟩, rest⟩ => ⟨member, ne, rest⟩, fun ⟨member, ne, rest⟩ => ⟨⟨ne, member⟩, rest⟩⟩

theorem free_pages_append (pages rest : List Nat) (s : State) : freePages (pages ++ rest) s = freePages pages s >>= freePages rest := by
  induction pages generalizing s with
  | nil => rfl
  | cons p pages ih =>
      rw [List.cons_append, freePages, freePages]
      cases freed : pmmFree p s with
      | error fault => rfl
      | ok s => exact ih s

-- Between disjoint regions both ways of adding return, and the free pages are counted by one alone.
theorem both_return {c : Config} (reach : Reachable c) (r : Region) (disjoint : ∀ other ∈ c.regions, ∀ p, ¬ (r.Holds p ∧ other.Holds p))
    (pages : List Nat) (all : pages.Perm r.added) :
    ∃ direct freed, pmmRegionAdd r.base r.size true c.pmm = .ok direct ∧ addThenFree r pages c.pmm = .ok freed ∧
      ∀ z, (direct.zone z).freePageCount = (c.pmm.zone z).freePageCount ∧
        (freed.zone z).freePageCount = (c.pmm.zone z).freePageCount + (pages.filter fun p => holder p = z).length := by
  obtain ⟨layout, inv⟩ := reachable_inv c reach
  obtain ⟨direct, run, keeps⟩ := region_add_keeps r true inv.tracks.bounds
  obtain ⟨s, added, keeps'⟩ := region_add_keeps r false inv.tracks.bounds
  obtain ⟨next, inv'⟩ := region_add_inv inv r s disjoint added
  have distinct : pages.Nodup := all.nodup_iff.mpr (List.Nodup.filter _ List.nodup_range')
  have live : ∀ p ∈ pages, (⟨p, 0, holder p⟩ : Run) ∈ regionBlocks r ++ c.live := by
    intro p member
    have inside := List.mem_filter.mp (all.mem_iff.mp member)
    exact List.mem_append_left _ ((region_blocks_mem r _).mpr ⟨of_decide_eq_true inside.2, rfl, rfl⟩)
  obtain ⟨freed, later, counts⟩ := free_pages_returns inv' distinct live
  refine ⟨direct, freed, run, by rw [addThenFree, added, bind_ok, later], fun z => ⟨(keeps z).1, ?_⟩⟩
  rw [counts z, (keeps' z).1]

-- Page 0, which no zone has.
def firstPage : Region := ⟨0, 0x1000, by decide, by decide, by decide⟩

end Elysium.Pmm
