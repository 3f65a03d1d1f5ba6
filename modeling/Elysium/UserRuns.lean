import Elysium.UserSpace
import Elysium.Transitions

set_option autoImplicit false

namespace Elysium.UserSpace

open Vm (PtmCall SpaceId Region Protection Cache Privilege AddressSpace Paging userspaceStart userspaceEnd)
open Ptm (frameAt Small)

theorem merge_right_calls (as : SpaceId) (region : Region) (s : Vm.State) :
    (Vm.mergeRight as region s).1.ptm = s.ptm ∧ (Vm.mergeRight as region s).1.pmm = s.pmm := by
  unfold Vm.mergeRight
  split
  · exact ⟨rfl, rfl⟩
  · split
    · exact ⟨rfl, rfl⟩
    · exact ⟨rfl, rfl⟩

theorem merge_left_calls (as : SpaceId) (region : Region) (s : Vm.State) :
    (Vm.mergeLeft as region s).1.ptm = s.ptm ∧ (Vm.mergeLeft as region s).1.pmm = s.pmm := by
  unfold Vm.mergeLeft
  split
  · exact ⟨rfl, rfl⟩
  · split
    · exact ⟨rfl, rfl⟩
    · exact ⟨rfl, rfl⟩

theorem region_insert_calls (as : SpaceId) (region : Region) (s : Vm.State) :
    (Vm.regionInsert as region s).1.ptm = s.ptm ∧ (Vm.regionInsert as region s).1.pmm = s.pmm := by
  have right := merge_right_calls as region s
  unfold Vm.regionInsert
  dsimp only
  obtain ⟨asked, memory⟩ := merge_left_calls as (Vm.mergeRight as region s).2
    ((Vm.mergeRight as region s).1.setRegions as (Vm.rbInsert (Vm.mergeRight as region s).2 ((Vm.mergeRight as region s).1.space as).regions))
  exact ⟨asked.trans right.1, memory.trans right.2⟩

-- Structures only go back to the cache.
theorem region_insert_cache (as : SpaceId) (region : Region) (s : Vm.State) :
    s.cache.length ≤ (Vm.regionInsert as region s).1.cache.length := by
  have right : s.cache.length ≤ (Vm.mergeRight as region s).1.cache.length := by
    unfold Vm.mergeRight
    split
    · exact Nat.le_refl _
    · split
      · exact Nat.le_succ _
      · exact Nat.le_refl _
  refine Nat.le_trans right ?_
  unfold Vm.regionInsert Vm.mergeLeft
  dsimp only
  split
  · exact Nat.le_refl _
  · split
    · exact Nat.le_succ _
    · exact Nat.le_refl _

-- With an empty cache a page of the allocator goes to the pool.
theorem region_alloc_pool {s t : Vm.State} {rid : Nat} (empty : s.cache = []) (alloc : Vm.regionAlloc s = .ok (t, rid)) :
    ∃ page hole, Pmm.pmmAllocPage Pmm.flagZero s.pmm = .ok (t.pmm, page) ∧
      t.ptm = .map .global hole (Pmm.blockPaddr page) pageGranularity Vm.protRW .standard .kernel true :: s.ptm ∧
      Vm.findHole (s.space .global) 0 pageGranularity = .ok (some hole) := by
  rw [Vm.region_alloc_empty empty, bind_eq_ok] at alloc
  obtain ⟨u, filled, taken⟩ := alloc
  have popped : t.ptm = u.ptm ∧ t.pmm = u.pmm := by
    split at taken
    · cases taken
    · obtain ⟨rfl, _⟩ := Prod.mk.inj (Except.ok.inj taken)
      exact ⟨rfl, rfl⟩
  rw [Vm.refillCache, bind_eq_ok] at filled
  obtain ⟨⟨pmm, page⟩, allocated, filled⟩ := filled
  dsimp only at filled
  rw [bind_eq_ok] at filled
  obtain ⟨found, searched, filled⟩ := filled
  cases found with
  | none => cases filled
  | some hole =>
      obtain rfl := Except.ok.inj filled
      refine ⟨page, hole, ?_, ?_, searched⟩
      · rw [popped.2, allocated]
        dsimp only
        rw [(region_insert_calls _ _ _).2]
        rfl
      · rw [popped.1]
        exact (region_insert_calls _ _ _).1

-- A region structure is taken from the cache, or from a page that goes to the pool.
def Draws (s t : Vm.State) : Prop :=
  (t.ptm = s.ptm ∧ t.pmm = s.pmm) ∨ ∃ page hole, Pmm.pmmAllocPage Pmm.flagZero s.pmm = .ok (t.pmm, page) ∧
    t.ptm = .map .global hole (Pmm.blockPaddr page) pageGranularity Vm.protRW .standard .kernel true :: s.ptm

theorem region_alloc_draws {s t : Vm.State} {rid : Nat} (alloc : Vm.regionAlloc s = .ok (t, rid)) : Draws s t := by
  cases cache : s.cache with
  | cons first rest =>
      rw [Vm.region_alloc_cached cache] at alloc
      obtain ⟨rfl, _⟩ := Prod.mk.inj (Except.ok.inj alloc)
      exact .inl ⟨rfl, rfl⟩
  | nil =>
      obtain ⟨page, hole, allocated, asked, _⟩ := region_alloc_pool cache alloc
      exact .inr ⟨page, hole, allocated, asked⟩

def target : PtmCall → SpaceId
  | .map space _ _ _ _ _ _ _ => space
  | .rewrite space _ _ _ _ _ _ => space
  | .unmap space _ _ => space

-- A request that other tables carry out.
def Idle (id : Nat) (call : PtmCall) : Prop := target call ≠ .process id

theorem idle_carry_out {id top : Nat} {call : PtmCall} {tables : Ptm.State} (idle : Idle id call) :
    carryOut id top call tables = .ok tables := by
  cases call with
  | map space vaddr paddr length prot cache privilege isGlobal => exact if_neg idle
  | rewrite space vaddr length prot cache privilege isGlobal => exact if_neg idle
  | unmap space vaddr length => exact if_neg idle

theorem idle_carried {id top : Nat} {tables : Ptm.State} (calls : List PtmCall) (idle : ∀ call ∈ calls, Idle id call) :
    carryOutAll id top calls tables = .ok tables := by
  induction calls with
  | nil => rfl
  | cons call earlier ih =>
      rw [carryOutAll, ih fun other member => idle other (List.mem_cons_of_mem _ member), bind_ok]
      exact idle_carry_out (idle call List.mem_cons_self)

theorem draws_log {id : Nat} {s t : Vm.State} (draws : Draws s t) : ∃ calls, t.ptm = calls ++ s.ptm ∧ ∀ call ∈ calls, Idle id call := by
  rcases draws with ⟨asked, _⟩ | ⟨page, hole, _, asked⟩
  · exact ⟨[], asked, fun call member => absurd member List.not_mem_nil⟩
  · refine ⟨[_], asked, fun call member => ?_⟩
    rw [List.mem_singleton.mp member]
    simp [Idle, target]

theorem draws_backing {top : Nat} {supply : List Nat} {s t : Vm.State} {tables : Ptm.State} (draws : Draws s t)
    (backing : Backing top supply s.pmm tables) : Backing top supply t.pmm tables := by
  rcases draws with ⟨_, memory⟩ | ⟨page, hole, allocated, _⟩
  · exact memory ▸ backing
  · obtain ⟨sound, small, injective, stock, frames, apart⟩ := backing
    obtain ⟨stocked, _, _⟩ := Pmm.stock_alloc stock allocated
    exact ⟨sound, small, injective, Pmm.stock_mono stocked fun p => .inl, frames, apart⟩

section Map

variable {id top : Nat} {supply : List Nat} {region : Region} {address : Nat}

theorem map_pages_log (pages : List Nat) {s s' : Vm.State} (run : pages.foldlM (Vm.mapAnonPage region address) s = .ok s') :
    ∃ calls, s'.ptm = calls ++ s.ptm := by
  induction pages generalizing s with
  | nil =>
      obtain rfl := Except.ok.inj run
      exact ⟨[], rfl⟩
  | cons i rest ih =>
      rw [List.foldlM_cons, bind_eq_ok] at run
      obtain ⟨u, first, run⟩ := run
      unfold Vm.mapAnonPage at first
      rw [bind_eq_ok] at first
      obtain ⟨⟨pmm, page⟩, _, first⟩ := first
      obtain ⟨call, requested⟩ : ∃ call, u.ptm = call :: s.ptm := by
        rw [← Except.ok.inj first]
        exact ⟨_, rfl⟩
      obtain ⟨calls, asked⟩ := ih run
      refine ⟨calls ++ [call], ?_⟩
      rw [asked, requested, List.append_assoc]
      rfl

-- region_map on a user range, and the tables after its requests, page by page.
theorem map_pages_backing (home : region.addressSpace = .process id) (aligned : address % pageGranularity = 0) (pages : List Nat)
    {s s' : Vm.State} {tables tables' : Ptm.State} {calls : List PtmCall} (backing : Backing top supply s.pmm tables)
    (low : ∀ i ∈ pages, address + i * pageGranularity < 2 ^ 47)
    (run : pages.foldlM (Vm.mapAnonPage region address) s = .ok s') (asked : s'.ptm = calls ++ s.ptm)
    (carried : carryOutAll id top calls tables = .ok tables') :
    Backing top supply s'.pmm tables' ∧ (∀ i ∈ pages, ∃ f, frameAt top tables' (address / pageGranularity + i) = some f) ∧
      ∀ P f, frameAt top tables P = some f → ∃ g, frameAt top tables' P = some g := by
  induction pages generalizing s tables calls with
  | nil =>
      obtain rfl := Except.ok.inj run
      obtain rfl : calls = [] := List.self_eq_append_left.mp asked
      obtain rfl := Except.ok.inj carried
      exact ⟨backing, fun i member => absurd member List.not_mem_nil, fun P f framed => ⟨f, framed⟩⟩
  | cons i rest ih =>
      rw [List.foldlM_cons, bind_eq_ok] at run
      obtain ⟨u, first, run⟩ := run
      obtain ⟨later, askedU⟩ := map_pages_log rest run
      unfold Vm.mapAnonPage at first
      rw [bind_eq_ok] at first
      obtain ⟨⟨pmm, page⟩, allocated, first⟩ := first
      dsimp only at first
      have here := low i List.mem_cons_self
      rw [add64_eq (by omega), home] at first
      obtain ⟨call, callEq⟩ : ∃ call, call = PtmCall.map (.process id) (address + i * pageGranularity) (Pmm.blockPaddr page) pageGranularity
        region.protection region.cacheBehavior (Vm.privilegeOf (.process id)) (SpaceId.process id = SpaceId.global) := ⟨_, rfl⟩
      rw [← callEq] at first
      obtain rfl := Except.ok.inj first
      obtain rfl : calls = later ++ [call] := by
        refine (List.append_left_inj s.ptm).mp ?_
        rw [← asked, askedU, List.append_assoc]
        rfl
      rw [carry_out_append, bind_eq_ok] at carried
      obtain ⟨next, done, carried⟩ := carried
      rw [carryOutAll, carryOutAll, bind_ok, callEq, carryOut, if_pos rfl] at done
      have onPage : (address + i * pageGranularity) % pageGranularity = 0 := by
        unfold pageGranularity at aligned ⊢
        omega
      have index : (address + i * pageGranularity) / pageGranularity = address / pageGranularity + i :=
        Nat.add_mul_div_right _ _ (by decide)
      obtain ⟨backed, frames, _, _⟩ := page_backing backing allocated here onPage done
      rw [index] at frames
      obtain ⟨backing', there, keeps⟩ := ih backed (fun j member => low j (List.mem_cons_of_mem _ member)) run askedU carried
      have kept : ∀ P f, frameAt top tables P = some f → ∃ g, frameAt top next P = some g := by
        intro P f framed
        rw [frames]
        by_cases same : P = address / pageGranularity + i
        · exact ⟨page, by rw [same, Function.update_self]⟩
        · exact ⟨f, by rw [Function.update_of_ne same, framed]⟩
      refine ⟨backing', fun j member => ?_, fun P f framed => ?_⟩
      · rcases List.mem_cons.mp member with rfl | inRest
        · exact keeps _ page (by rw [frames, Function.update_self])
        · exact there j inRest
      · obtain ⟨g, framed'⟩ := kept P f framed
        exact keeps P g framed'

end Map

theorem follow_eq {id top : Nat} {m m' : Machine} {vm : Vm.State} {calls : List PtmCall} (asked : vm.ptm = calls ++ m.vm.ptm)
    (followed : follow id top m vm = .ok m') : ∃ tables, carryOutAll id top calls m.tables = .ok tables ∧ m' = ⟨vm, tables⟩ := by
  unfold follow at followed
  rw [new_calls_eq asked, bind_eq_ok] at followed
  obtain ⟨tables, carried, same⟩ := followed
  exact ⟨tables, carried, (Except.ok.inj same).symm⟩

section Steps

variable {id top : Nat} {supply : List Nat} {m m' : Machine} (consistent : Consistent id top supply m)

include consistent

-- region_alloc leaves the process alone, whatever it takes for its pool.
theorem pool_backing {t : Vm.State} {rid : Nat} (alloc : Vm.regionAlloc m.vm = .ok (t, rid)) :
    Backing top supply t.pmm m.tables ∧ ∃ calls, t.ptm = calls ++ m.vm.ptm ∧ carryOutAll id top calls m.tables = .ok m.tables := by
  obtain ⟨calls, asked, idle⟩ := draws_log (region_alloc_draws alloc)
  exact ⟨draws_backing (region_alloc_draws alloc) consistent.backing, calls, asked, idle_carried calls idle⟩

omit consistent in
theorem place_region_calls {as : SpaceId} {address length flags rid : Nat} {prot : Protection} {cache : Cache} {t s' : Vm.State}
    {result : Nat} (placed : Vm.placeRegion as address length prot cache flags .anon 0 rid t = .ok (s', result)) :
    (flags &&& Vm.flagDynamicallyBacked ≠ 0 ∧ s'.ptm = t.ptm ∧ s'.pmm = t.pmm ∧ t.cache.length ≤ s'.cache.length ∧
        s' = (Vm.regionInsert as (Vm.newRegion as prot cache flags .anon 0 rid address length) t).1) ∨
      (¬ flags &&& Vm.flagDynamicallyBacked ≠ 0 ∧ ∃ u, (List.range (length / pageGranularity)).foldlM
        (Vm.mapAnonPage (Vm.newRegion as prot cache flags .anon 0 rid address length) address) t = .ok u ∧
          s'.ptm = u.ptm ∧ s'.pmm = u.pmm) := by
  unfold Vm.placeRegion at placed
  rw [bind_eq_ok] at placed
  obtain ⟨_, _, placed⟩ := placed
  rw [bind_eq_ok] at placed
  obtain ⟨_, checked, placed⟩ := placed
  rw [Vm.mapBacking, bind_ok] at placed
  dsimp only at placed
  by_cases dynamic : flags &&& Vm.flagDynamicallyBacked ≠ 0
  · refine .inl ⟨dynamic, ?_⟩
    rw [if_pos (show (Vm.describeRegion as rid address length prot cache flags _).dynamicallyBacked = true from decide_eq_true dynamic)]
      at placed
    obtain ⟨rfl, _⟩ := Prod.mk.inj (Except.ok.inj placed)
    obtain ⟨asked, memory⟩ := region_insert_calls as (Vm.newRegion as prot cache flags .anon 0 rid address length) t
    exact ⟨asked, memory, region_insert_cache _ _ _, rfl⟩
  · refine .inr ⟨dynamic, ?_⟩
    rw [if_neg (show ¬ (Vm.describeRegion as rid address length prot cache flags _).dynamicallyBacked = true from
      fun set => dynamic (of_decide_eq_true set)), bind_eq_ok] at placed
    obtain ⟨u, mapped, placed⟩ := placed
    obtain ⟨rfl, _⟩ := Prod.mk.inj (Except.ok.inj placed)
    unfold Vm.regionMap at mapped
    rw [bind_eq_ok] at mapped
    obtain ⟨_, _, mapped⟩ := mapped
    exact ⟨u, mapped, region_insert_calls _ _ _⟩

omit consistent in
-- The tables once the requests of a new region have been carried out.
theorem place_region_tables {t s' : Vm.State} {rid place length flags result : Nat} {prot : Protection} {cache : Cache} {pool : List PtmCall}
    (askedPool : t.ptm = pool ++ m.vm.ptm) (carriedPool : carryOutAll id top pool m.tables = .ok m.tables)
    (backing : Backing top supply t.pmm m.tables) (onPage : place % pageGranularity = 0) (wholePages : length % pageGranularity = 0)
    (fits : place + length < 2 ^ 47)
    (placed : Vm.placeRegion (.process id) place length prot cache flags .anon 0 rid t = .ok (s', result))
    (followed : follow id top m s' = .ok m') :
    ∃ tables, m' = ⟨s', tables⟩ ∧ Backing top supply s'.pmm tables ∧
      (∀ P f, frameAt top m.tables P = some f → ∃ g, frameAt top tables P = some g) ∧
      ((Vm.newRegion (.process id) prot cache flags .anon 0 rid place length).dynamicallyBacked = false →
        ∀ a, (Vm.newRegion (.process id) prot cache flags .anon 0 rid place length).Covers a →
          ∃ f, frameAt top tables (a / pageGranularity) = some f) := by
  rcases place_region_calls placed with ⟨dynamic, asked, memory, _⟩ | ⟨_, u, mapped, asked, memory⟩
  · obtain ⟨tables, carried, same⟩ := follow_eq (asked.trans askedPool) followed
    obtain rfl : m.tables = tables := Except.ok.inj (carriedPool.symm.trans carried)
    refine ⟨m.tables, same, memory ▸ backing, fun P f framed => ⟨f, framed⟩, fun static => ?_⟩
    exact absurd dynamic (of_decide_eq_false static)
  · obtain ⟨calls, askedU⟩ := map_pages_log _ mapped
    have total : s'.ptm = (calls ++ pool) ++ m.vm.ptm := by rw [asked, askedU, askedPool, List.append_assoc]
    obtain ⟨tables, carried, same⟩ := follow_eq total followed
    rw [carry_out_append, carriedPool, bind_ok] at carried
    have home : (Vm.newRegion (.process id) prot cache flags .anon 0 rid place length).addressSpace = .process id := rfl
    have low : ∀ i ∈ List.range (length / pageGranularity), place + i * pageGranularity < 2 ^ 47 := by
      intro i member
      have small := List.mem_range.mp member
      unfold pageGranularity at small wholePages ⊢
      omega
    obtain ⟨backing', there, keeps⟩ := map_pages_backing home onPage _ backing low mapped askedU carried
    refine ⟨tables, same, memory ▸ backing', keeps, fun _ a covers => ?_⟩
    have start : place ≤ a := covers.1
    have stop : a < place + length := covers.2
    obtain ⟨f, framed⟩ := there ((a - place) / pageGranularity) (List.mem_range.mpr (by
      unfold pageGranularity at wholePages ⊢
      omega))
    refine ⟨f, ?_⟩
    rw [← framed]
    congr 1
    unfold pageGranularity at onPage ⊢
    omega

-- vm_map_anon on the space, with its requests carried out.
theorem map_anon_keeps {hint length flags address : Nat} {prot : Protection} {cache : Cache} {vm : Vm.State}
    (run : Vm.vmMapAnon (.process id) hint length prot cache flags m.vm = .ok (vm, address))
    (followed : follow id top m vm = .ok m') : Consistent id top supply m' := by
  change Vm.mapCommon (.process id) hint length prot cache flags .anon 0 m.vm = .ok (vm, address) at run
  have sound : Vm.Sound vm := by
    have keeps := @Vm.map_keeps m.vm (.process id) consistent.vm hint length flags prot cache .anon 0
    rw [run, bind_ok] at keeps
    rcases keeps with ⟨s', same, sound⟩ | ⟨fault, _, failed⟩
    · obtain rfl : vm = s' := Except.ok.inj same
      exact sound
    · cases failed
  by_cases rejected : Vm.Rejected hint length flags
  · rw [Vm.map_common_rejected rejected] at run
    obtain ⟨rfl, _⟩ := Prod.mk.inj (Except.ok.inj run)
    obtain ⟨tables, carried, rfl⟩ := follow_eq (show _ = [] ++ _ from rfl) followed
    obtain rfl := Except.ok.inj carried
    exact consistent
  · have other : SpaceId.process id ≠ .global := by simp
    obtain ⟨t, rid, alloc, ownedT, step, hostsT⟩ : ∃ t rid, Vm.regionAlloc m.vm = .ok (t, rid) ∧ Vm.Owned t [rid] ∧
        Vm.PoolStep m.vm t ∧ Vm.Hosts t := by
      rcases Vm.region_alloc_cases (Vm.sound_hosts consistent.vm) consistent.vm.owned with found | failed | failed
      · exact found
      · rw [Vm.map_common_accepted rejected, failed] at run
        cases run
      · rw [Vm.map_common_accepted rejected, failed] at run
        cases run
    have aside := Vm.pool_step_local step hostsT (.process id)
    have tidyT := Vm.pool_step_tidy step hostsT (consistent.vm.tidy (.process id))
    have spaceT : t.space (.process id) = m.vm.space (.process id) := by
      rcases step with same | ⟨hole, page⟩
      · rw [same]
      · exact page.frame.others _ other
    obtain ⟨backing, pool, askedPool, carriedPool⟩ := pool_backing consistent alloc
    rcases Vm.map_common_search rejected alloc tidyT with ⟨_, found⟩ | ⟨place, chosen, found⟩
    · rw [found] at run
      obtain ⟨rfl, _⟩ := Prod.mk.inj (Except.ok.inj run)
      obtain ⟨tables, carried, rfl⟩ := follow_eq (show (t.regionFree rid).ptm = _ from askedPool) followed
      obtain rfl : m.tables = tables := Except.ok.inj (carriedPool.symm.trans carried)
      have space : (t.regionFree rid).space (.process id) = m.vm.space (.process id) := spaceT
      exact ⟨sound, by rw [space]; exact consistent.start, by rw [space]; exact consistent.limit, by rw [space]; exact consistent.home,
        by rw [space]; exact consistent.anon, by rw [space]; exact consistent.present, backing⟩
    · rw [found] at run
      have alignedT : (t.space (.process id)).start % pageGranularity = 0 := by
        rw [spaceT]
        exact consistent.vm.aligned _
      have onPage := Vm.chosen_aligned tidyT alignedT chosen
      have positive : 0 < length := Nat.pos_of_ne_zero fun zero => rejected (.inl zero)
      have wholePages : length % pageGranularity = 0 := by
        by_contra ragged
        exact rejected (.inr (.inl ragged))
      rcases Vm.place_region_spec (.process id) prot cache flags .anon 0 tidyT ownedT chosen.hole onPage wholePages positive with
        ⟨s', whole, placed, joined, frame, _⟩ | failed | ⟨failed, _⟩
      · obtain ⟨rfl, _⟩ := Prod.mk.inj (Except.ok.inj (placed.symm.trans run))
        obtain ⟨region, new⟩ : ∃ region, region = Vm.newRegion (.process id) prot cache flags .anon 0 rid place length := ⟨_, rfl⟩
        rw [← new] at joined
        have fits : place + length < 2 ^ 47 := by
          have bounds := (Vm.segment_in_bounds_iff place length _ _ tidyT.fits).mp chosen.hole.1
          have high := bounds.2.2
          rw [spaceT, consistent.limit] at high
          have top47 : userspaceEnd < 2 ^ 47 := by decide
          omega
        have maps := Vm.joined_maps tidyT joined
        rw [spaceT] at maps
        obtain ⟨tables, rfl, backing', keeps, fresh⟩ :=
          place_region_tables askedPool carriedPool backing onPage wholePages fits placed followed
        rw [← new] at fresh
        refine ⟨sound, ?_, ?_, ?_, ?_, ?_, backing'⟩
        · rw [frame.start, spaceT]
          exact consistent.start
        · rw [frame.limit, spaceT]
          exact consistent.limit
        · intro r member
          rcases (joined.mem r).mp member with ⟨old, _⟩ | rfl
          · exact consistent.home r (spaceT ▸ old)
          · rcases joined.origin with ⟨_, same⟩ | ⟨l, memberL, _, same⟩
            · rw [same, new]
              rfl
            · rw [same]
              exact consistent.home l (spaceT ▸ memberL)
        · intro a v mapped
          rcases (maps a v).mp mapped with old | ⟨_, rfl⟩
          · exact consistent.anon a v old
          · exact ⟨_, by rw [new]; rfl⟩
        · intro a v mapped static
          rcases (maps a v).mp mapped with old | ⟨covers, rfl⟩
          · obtain ⟨f, framed⟩ := consistent.present a v old static
            exact keeps _ f framed
          · exact fresh static a covers
      · rw [failed] at run
        cases run
      · rw [failed] at run
        cases run

end Steps

end Elysium.UserSpace
