import Elysium.UserRuns
import Elysium.VmRuns

set_option autoImplicit false

namespace Elysium.UserSpace

open Vm (PtmCall SpaceId Region Protection Cache Privilege AddressSpace Paging userspaceStart userspaceEnd)
open Ptm (frameAt Small)

-- A stretch of an unmap on the space: what it asked to unmap lies bare afterwards.
structure Strips (id top : Nat) (supply : List Nat) (s t : Vm.State) : Prop where
  log : ∃ calls, t.ptm = calls ++ s.ptm ∧ ∀ call ∈ calls, Idle id call ∨ ∃ b n, call = .unmap (.process id) b n ∧ b + n ≤ 2 ^ 47 ∧
    ∀ a v, b ≤ a → a < b + n → ¬ Vm.Maps (t.space (.process id)).regions a v
  memory : ∀ tables, Backing top supply s.pmm tables → Backing top supply t.pmm tables
  shrinks : ∀ a v, Vm.Maps (t.space (.process id)).regions a v → Vm.Maps (s.space (.process id)).regions a v
  home : (∀ r ∈ (s.space (.process id)).regions, r.addressSpace = .process id) →
    ∀ r ∈ (t.space (.process id)).regions, r.addressSpace = .process id
  start : (t.space (.process id)).start = (s.space (.process id)).start
  limit : (t.space (.process id)).limit = (s.space (.process id)).limit

section Strips

variable {id top : Nat} {supply : List Nat} {s t u : Vm.State}

theorem strips_refl (id top : Nat) (supply : List Nat) (s : Vm.State) : Strips id top supply s s :=
  ⟨⟨[], rfl, fun _ member => absurd member List.not_mem_nil⟩, fun _ backing => backing, fun _ _ maps => maps, fun home => home, rfl, rfl⟩

theorem strips_trans (first : Strips id top supply s t) (second : Strips id top supply t u) : Strips id top supply s u := by
  obtain ⟨calls, asked, each⟩ := first.log
  obtain ⟨later, askedLater, eachLater⟩ := second.log
  refine ⟨⟨later ++ calls, ?_, ?_⟩, fun tables backing => second.memory tables (first.memory tables backing),
    fun a v maps => first.shrinks a v (second.shrinks a v maps), fun home => second.home (first.home home),
    second.start.trans first.start, second.limit.trans first.limit⟩
  · rw [askedLater, asked, List.append_assoc]
  · intro call member
    rcases List.mem_append.mp member with new | old
    · exact eachLater call new
    · rcases each call old with idle | ⟨b, n, same, low, bare⟩
      · exact .inl idle
      · exact .inr ⟨b, n, same, low, fun a v above below maps => bare a v above below (second.shrinks a v maps)⟩

end Strips

section Tables

variable {id top : Nat} {supply : List Nat} {pmm : Pmm.State}

theorem cleared_backing {b n : Nat} {tables tables' : Ptm.State} (backing : Backing top supply pmm tables)
    (cleared : Ptm.Cleared top b n tables tables') : Backing top supply pmm tables' := by
  refine ⟨cleared.sound, cleared.small, fun first second => backing.injective (cleared.fewer first) (cleared.fewer second), ?_, ?_,
    fun at_ => backing.apart (cleared.fewer at_)⟩
  · refine Pmm.stock_mono backing.stock ?_
    rintro p (⟨P, at_⟩ | reserved)
    · exact .inl ⟨P, cleared.fewer at_⟩
    · exact .inr reserved
  · rw [cleared.frames]
    exact backing.frames

-- The tables after the requests of an unmap.
theorem unmaps_backing (calls : List PtmCall) {tables tables' : Ptm.State} (backing : Backing top supply pmm tables)
    (each : ∀ call ∈ calls, Idle id call ∨ ∃ b n, call = .unmap (.process id) b n ∧ b + n ≤ 2 ^ 47)
    (carried : carryOutAll id top calls tables = .ok tables') :
    Backing top supply pmm tables' ∧ ∀ P f, frameAt top tables P = some f → frameAt top tables' P = some f ∨
      ∃ b n, PtmCall.unmap (.process id) b n ∈ calls ∧ b % pageGranularity = 0 ∧ n % pageGranularity = 0 ∧
        b ≤ P * pageGranularity ∧ P * pageGranularity < b + n := by
  induction calls generalizing tables' with
  | nil =>
      obtain rfl := Except.ok.inj carried
      exact ⟨backing, fun P f at_ => .inl at_⟩
  | cons call earlier ih =>
      rw [carryOutAll, bind_eq_ok] at carried
      obtain ⟨middle, before, carried⟩ := carried
      obtain ⟨backingM, keeps⟩ := ih (fun call member => each call (List.mem_cons_of_mem _ member)) before
      rcases each call List.mem_cons_self with idle | ⟨b, n, rfl, low⟩
      · obtain rfl := Except.ok.inj ((idle_carry_out idle).symm.trans carried)
        refine ⟨backingM, fun P f at_ => ?_⟩
        rcases keeps P f at_ with kept | ⟨b, n, member, gone⟩
        · exact .inl kept
        · exact .inr ⟨b, n, List.mem_cons_of_mem _ member, gone⟩
      · rw [carryOut, if_pos rfl] at carried
        obtain ⟨cleared, aligned, wholePages⟩ := Ptm.arch_ptm_unmap_cleared backingM.sound backingM.small low carried
        refine ⟨cleared_backing backingM cleared, fun P f at_ => ?_⟩
        rcases keeps P f at_ with kept | ⟨b, n, member, gone⟩
        · by_cases inside : b ≤ P * pageGranularity ∧ P * pageGranularity < b + n
          · exact .inr ⟨b, n, List.mem_cons_self, aligned, wholePages, inside⟩
          · exact .inl ((cleared.kept P inside).trans kept)
        · exact .inr ⟨b, n, List.mem_cons_of_mem _ member, gone⟩

end Tables

section Delete

variable {id top : Nat} {supply : List Nat} {s t : Vm.State} {limit : Nat} {prot : Protection} {cache : Cache} {split : Region}

theorem drop_region_calls {as : SpaceId} {rid : Nat} (run : Vm.dropRegion as rid s = .ok t) : t.ptm = s.ptm ∧ t.pmm = s.pmm := by
  rw [Vm.dropRegion, bind_eq_ok] at run
  obtain ⟨region, _, run⟩ := run
  obtain rfl := Except.ok.inj run
  exact ⟨rfl, rfl⟩

theorem trim_split_calls {as : SpaceId} {rid base : Nat} (run : Vm.trimSplit as rid base s = .ok t) :
    t.ptm = s.ptm ∧ t.pmm = s.pmm := by
  rw [Vm.trimSplit, bind_eq_ok] at run
  obtain ⟨region, _, run⟩ := run
  by_cases front : base > region.base
  · rw [if_pos front] at run
    obtain rfl := Except.ok.inj run
    exact ⟨rfl, rfl⟩
  · rw [if_neg front] at run
    exact drop_region_calls run

-- One region of the range, which goes as a whole.
theorem delete_next_strips (tidy : Vm.Tidy (s.space (.process id))) (owned : Vm.Owned s [])
    (member : split ∈ (s.space (.process id)).regions) (home : split.addressSpace = .process id) (low : split.limit ≤ 2 ^ 47)
    (run : Vm.rewriteNext (.process id) limit .delete prot cache split s = .ok t) :
    Strips id top supply s t ∧ Vm.Tidy (t.space (.process id)) ∧ Vm.Owned t [] ∧
      ∀ m ∈ (t.space (.process id)).regions, m ∈ (s.space (.process id)).regions := by
  obtain ⟨n, chosen⟩ : ∃ n, n = if sub64 limit split.base > split.length then split.length else sub64 limit split.base := ⟨_, rfl⟩
  have small : n ≤ split.length := by
    rw [chosen]
    split
    · exact Nat.le_refl _
    · omega
  unfold Vm.rewriteNext at run
  dsimp only at run
  rw [← chosen, bind_eq_ok] at run
  obtain ⟨r, unmapped, run⟩ := run
  obtain rfl : n = split.length := by
    by_contra short
    rw [if_pos (by omega)] at run
    cases run
  have placed := tidy.placed split member
  rw [Vm.region_unmap_ok s placed.baseAligned placed.lengthAligned (Nat.le_refl _) (Nat.le_refl _) (Vm.region_fits tidy member)] at unmapped
  obtain rfl := Except.ok.inj unmapped
  have ownedR : Vm.Owned (s.request (.unmap split.addressSpace split.base split.length)) [] := Vm.owned_congr owned rfl rfl rfl
  rw [if_neg (Nat.lt_irrefl _), Vm.drop_region_member ownedR (show split ∈ _ from member)] at run
  obtain rfl := Except.ok.inj run
  have mem : ∀ m, m ∈ Vm.rbRemove split.id (s.space (.process id)).regions ↔ m ∈ (s.space (.process id)).regions ∧ m ≠ split :=
    fun m => Vm.remove_mem owned member m
  obtain ⟨u, dropped⟩ : ∃ u, u = ((s.request (.unmap split.addressSpace split.base split.length)).setRegions (.process id)
      (Vm.rbRemove split.id ((s.request (.unmap split.addressSpace split.base split.length)).space (.process id)).regions)).regionFree
        split.id := ⟨_, rfl⟩
  rw [← dropped]
  have regions : (u.space (.process id)).regions = Vm.rbRemove split.id (s.space (.process id)).regions := by
    rw [dropped, Vm.region_free_space, Vm.set_regions_regions, Vm.request_space]
  have start : (u.space (.process id)).start = (s.space (.process id)).start := by
    rw [dropped, Vm.region_free_space, Vm.set_regions_start, Vm.request_space]
  have limit : (u.space (.process id)).limit = (s.space (.process id)).limit := by
    rw [dropped, Vm.region_free_space, Vm.set_regions_limit, Vm.request_space]
  rw [← regions] at mem
  have fewer : ∀ m ∈ (u.space (.process id)).regions, m ∈ (s.space (.process id)).regions := fun m inU => ((mem m).mp inU).1
  have removed := Vm.removes_region tidy member mem
  refine ⟨⟨⟨[.unmap split.addressSpace split.base split.length], by rw [dropped]; rfl, ?_⟩, ?_, ?_, ?_, start, limit⟩, ?_, ?_, fewer⟩
  · intro call asked
    obtain rfl := List.mem_singleton.mp asked
    rw [home]
    exact .inr ⟨_, _, rfl, low, fun a v above below maps => ((removed a v).mp maps).2 ⟨above, below⟩⟩
  · rw [dropped]
    exact fun tables backing => backing
  · exact fun a v maps => ((removed a v).mp maps).1
  · exact fun homes r inU => homes r (fewer r inU)
  · exact Vm.tidy_subset tidy start limit fewer
  · rw [dropped]
    exact Vm.owned_drop (.process id) split member ownedR

theorem delete_loop_strips (fuel c : Nat) (tidy : Vm.Tidy (s.space (.process id))) (owned : Vm.Owned s [])
    (home : ∀ r ∈ (s.space (.process id)).regions, r.addressSpace = .process id)
    (low : ∀ r ∈ (s.space (.process id)).regions, r.limit ≤ 2 ^ 47)
    (run : Vm.rewriteLoop (.process id) limit .delete prot cache fuel c s = .ok t) : Strips id top supply s t := by
  induction fuel generalizing c s with
  | zero =>
      rw [Vm.rewriteLoop] at run
      by_cases before : c < limit
      · rw [if_pos before] at run
        cases run
      · rw [if_neg before] at run
        obtain rfl := Except.ok.inj run
        exact strips_refl id top supply s
  | succ fuel ih =>
      rw [Vm.rewriteLoop] at run
      by_cases before : c < limit
      · rw [if_pos before] at run
        cases found : Vm.rbSearch (s.space (.process id)).regions c .nearestGte with
        | none =>
            rw [found] at run
            obtain rfl := Except.ok.inj run
            exact strips_refl id top supply s
        | some split =>
            rw [found] at run
            dsimp only at run
            rw [bind_eq_ok] at run
            obtain ⟨u, next, rest⟩ := run
            have member := (Vm.search_gte_some found).1
            obtain ⟨strips, tidyU, ownedU, fewer⟩ := @delete_next_strips id top supply s u limit prot cache split tidy owned member (home split member)
              (low split member) next
            exact strips_trans strips (ih _ tidyU ownedU (fun r inU => home r (fewer r inU)) (fun r inU => low r (fewer r inU)) rest)
      · rw [if_neg before] at run
        obtain rfl := Except.ok.inj run
        exact strips_refl id top supply s

-- Only the clone of what lies behind the segment takes a structure.
theorem carve_first_draws {as : SpaceId} {b n : Nat} {held : List Nat} (tidy : Vm.Tidy (s.space as)) (owned : Vm.Owned s held)
    (member : split ∈ (s.space as).regions) (high : b + n ≤ split.limit) (run : Vm.carveFirst as split.id b n s = .ok t) : Draws s t := by
  rw [Vm.carve_first_eq tidy owned member high, bind_eq_ok] at run
  obtain ⟨u, cloned, trimmed⟩ := run
  obtain ⟨asked, memory⟩ := trim_split_calls trimmed
  by_cases tail : split.limit > b + n
  · rw [if_pos tail, Vm.insertClone, bind_eq_ok] at cloned
    obtain ⟨⟨v, region⟩, cloned, inserted⟩ := cloned
    obtain rfl := Except.ok.inj inserted
    rw [Vm.cloneTo, bind_eq_ok] at cloned
    obtain ⟨⟨w, rid⟩, alloc, cloned⟩ := cloned
    dsimp only at cloned
    rw [bind_eq_ok] at cloned
    obtain ⟨source, _, cloned⟩ := cloned
    rw [bind_eq_ok] at cloned
    obtain ⟨backing, _, cloned⟩ := cloned
    obtain ⟨rfl, _⟩ := Prod.mk.inj (Except.ok.inj cloned)
    have draws := region_alloc_draws alloc
    unfold Draws at draws ⊢
    rw [asked, memory]
    exact draws
  · rw [if_neg tail] at cloned
    obtain rfl := Except.ok.inj cloned
    exact .inl ⟨asked, memory⟩

-- The region that holds the start of the range loses a part of it.
theorem carve_first_strips {b n : Nat} (tidy : Vm.Tidy (s.space (.process id))) (owned : Vm.Owned s []) (hosts : Vm.Hosts s)
    (member : split ∈ (s.space (.process id)).regions) (home : split.addressSpace = .process id)
    (below : ∀ r ∈ (s.space (.process id)).regions, r.limit ≤ 2 ^ 47) (low : split.base ≤ b) (high : b + n ≤ split.limit) (aligned : b % pageGranularity = 0) (wholePages : n % pageGranularity = 0)
    (run : Vm.carveFirst (.process id) split.id b n (s.request (.unmap split.addressSpace b n)) = .ok t) :
    Strips id top supply s t ∧ Vm.Tidy (t.space (.process id)) ∧ Vm.Owned t [] ∧
      ∀ r ∈ (t.space (.process id)).regions, r.limit ≤ 2 ^ 47 := by
  obtain ⟨r, requested⟩ : ∃ r, r = s.request (.unmap split.addressSpace b n) := ⟨_, rfl⟩
  rw [← requested] at run
  have space : r.space = s.space := requested ▸ rfl
  have ownedR : Vm.Owned r [] := Vm.owned_congr owned space (requested ▸ rfl) (requested ▸ rfl)
  have hostsR : Vm.Hosts r := Vm.hosts_congr hosts (by rw [space])
  have tidyR : Vm.Tidy (r.space (.process id)) := space ▸ tidy
  have memberR : split ∈ (r.space (.process id)).regions := space ▸ member
  have supplied : b + n < split.limit → Vm.Supply 1 r (.process id) := by
    intro beyond
    by_contra dry
    obtain ⟨fault, _, failed⟩ := @Vm.dry_clone_fails True r (.process id) [] ownedR (by simp) hostsR trivial dry (b + n)
      (split.limit - (b + n)) split.id
    exact Vm.carve_fails tidyR ownedR memberR beyond failed run
  rcases Vm.carve_first_spec tidyR ownedR supplied memberR low high with ⟨u, rid, done, carved, ownedU, aside, _, _⟩ | ⟨_, _, failed⟩
  · obtain rfl : t = u := Except.ok.inj (run.symm.trans done)
    have draws := carve_first_draws tidyR ownedR memberR high run
    rw [space] at carved
    have removed := Vm.carved_maps tidy member low high carved
    have start := aside.start (.process id)
    have limit := aside.limit (.process id)
    rw [space] at start limit
    have top47 := below split member
    have shift : r.ptm = [.unmap (.process id) b n] ++ s.ptm := by
      rw [requested, home]
      rfl
    have sameMemory : r.pmm = s.pmm := requested ▸ rfl
    refine ⟨⟨?_, ?_, fun a v maps => ((removed a v).mp maps).1, ?_, start, limit⟩,
      Vm.carved_tidy tidy member low high carved start limit rfl aligned wholePages, ownedU, ?_⟩
    · obtain ⟨calls, asked, idle⟩ := @draws_log id _ _ draws
      refine ⟨calls ++ [.unmap (.process id) b n], by rw [asked, shift, List.append_assoc], fun call made => ?_⟩
      rcases List.mem_append.mp made with pool | last
      · exact .inl (idle call pool)
      · obtain rfl := List.mem_singleton.mp last
        exact .inr ⟨b, n, rfl, by omega, fun a v above under maps => ((removed a v).mp maps).2 ⟨above, under⟩⟩
    · intro tables backing
      exact draws_backing draws (sameMemory ▸ backing)
    · intro homes q inT
      rcases (carved.mem q).mp inT with ⟨old, _⟩ | ⟨_, rfl⟩ | ⟨_, rfl⟩
      · exact homes q old
      · exact home
      · exact home
    · intro q inT
      rcases (carved.mem q).mp inT with ⟨old, _⟩ | ⟨_, rfl⟩ | ⟨_, rfl⟩
      · exact below q old
      · change split.base + (b - split.base) ≤ 2 ^ 47
        omega
      · change b + n + (split.limit - (b + n)) ≤ 2 ^ 47
        omega
  · rw [failed] at run
    cases run

end Delete

section Unmap

variable {id top : Nat} {supply : List Nat} {m m' : Machine} (consistent : Consistent id top supply m)

include consistent

-- vm_unmap on the space, with its requests carried out: the pages still covered keep their frames.
theorem strips_keeps {vm : Vm.State} (sound : Vm.Sound vm) (strips : Strips id top supply m.vm vm)
    (followed : follow id top m vm = .ok m') : Consistent id top supply m' := by
  obtain ⟨calls, asked, each⟩ := strips.log
  obtain ⟨tables, carried, rfl⟩ := follow_eq asked followed
  have kinds : ∀ call ∈ calls, Idle id call ∨ ∃ b n, call = .unmap (.process id) b n ∧ b + n ≤ 2 ^ 47 := by
    intro call made
    rcases each call made with idle | ⟨b, n, same, low, _⟩
    · exact .inl idle
    · exact .inr ⟨b, n, same, low⟩
  obtain ⟨backing, keeps⟩ := unmaps_backing calls (strips.memory m.tables consistent.backing) kinds carried
  refine ⟨sound, strips.start.trans consistent.start, strips.limit.trans consistent.limit, strips.home consistent.home,
    fun a v maps => consistent.anon a v (strips.shrinks a v maps), ?_, backing⟩
  intro a v maps static
  obtain ⟨f, framed⟩ := consistent.present a v (strips.shrinks a v maps) static
  rcases keeps _ f framed with kept | ⟨b, n, made, aligned, wholePages, start, stop⟩
  · exact ⟨f, kept⟩
  · rcases each _ made with idle | ⟨b', n', same, _, bare⟩
    · exact absurd rfl idle
    · obtain ⟨_, rfl, rfl⟩ := PtmCall.unmap.inj same
      refine absurd maps (bare a v ?_ ?_)
      · unfold pageGranularity at *
        omega
      · unfold pageGranularity at *
        omega

theorem space_below {r : Region} (member : r ∈ (m.vm.space (.process id)).regions) : r.limit ≤ 2 ^ 47 := by
  have bound := (region_low consistent member).1
  have top47 : userspaceEnd < 2 ^ 47 := by decide
  omega

theorem unmap_sound {address length : Nat} {vm : Vm.State} (run : Vm.vmUnmap (.process id) address length m.vm = .ok vm) :
    Vm.Sound vm := by
  have keeps : Vm.Keeps (Vm.vmUnmap (.process id) address length m.vm) := by
    rcases Nat.eq_zero_or_pos length with rfl | positive
    · exact .inl ⟨m.vm, rfl, consistent.vm⟩
    · by_cases range : Vm.InRange m.vm (.process id) address length
      · by_cases outside : ∀ r ∈ (m.vm.space (.process id)).regions, r.Covers address → r.limit ≤ address + length
        · rcases Vm.unmap_outside_spec (consistent.vm.tidy _) range positive consistent.vm.owned outside with ⟨placed, _⟩ | ⟨_, failed⟩
          · exact Vm.unmap_outside_keeps consistent.vm range positive outside placed
          · rw [failed] at run
            cases run
        · push Not at outside
          obtain ⟨split, member, covers, beyond⟩ := outside
          exact Vm.unmap_inside_keeps consistent.vm range positive member covers beyond fun swallows => by cases swallows.1
      · rw [Vm.vmUnmap, Vm.rewrite_common_checks positive range] at run
        cases run
  rcases keeps with ⟨s, done, sound⟩ | ⟨fault, _, failed⟩
  · obtain rfl := Except.ok.inj (run.symm.trans done)
    exact sound
  · rw [failed] at run
    cases run

theorem unmap_strips {address length : Nat} {vm : Vm.State} (run : Vm.vmUnmap (.process id) address length m.vm = .ok vm) :
    Strips id top supply m.vm vm := by
  have tidy := consistent.vm.tidy (.process id)
  have owned := consistent.vm.owned
  have below : ∀ r ∈ (m.vm.space (.process id)).regions, r.limit ≤ 2 ^ 47 := fun r member => space_below consistent member
  rcases Nat.eq_zero_or_pos length with rfl | positive
  · obtain rfl : m.vm = vm := Except.ok.inj run
    exact strips_refl id top supply m.vm
  · by_cases range : Vm.InRange m.vm (.process id) address length
    · by_cases bare : ∀ r ∈ (m.vm.space (.process id)).regions, ¬ r.Covers address
      · rw [Vm.unmap_bare_eq tidy range positive bare] at run
        exact delete_loop_strips _ _ tidy owned consistent.home below run
      · push Not at bare
        obtain ⟨split, member, covers⟩ := bare
        rw [Vm.unmap_first_eq tidy range positive member covers, bind_eq_ok] at run
        obtain ⟨t, carved, rest⟩ := run
        obtain ⟨_, within, _, _⟩ := Vm.first_length_bounds covers positive
        obtain ⟨first, tidyT, ownedT, belowT⟩ := @carve_first_strips id top supply m.vm t split _ _ tidy owned (Vm.sound_hosts consistent.vm) member
          (consistent.home split member) below covers.1 within range.aligned
          (Vm.first_length_aligned tidy member range.aligned range.wholePages) carved
        exact strips_trans first (delete_loop_strips _ _ tidyT ownedT (first.home consistent.home) belowT rest)
    · rw [Vm.vmUnmap, Vm.rewrite_common_checks positive range] at run
      cases run

theorem unmap_keeps {address length : Nat} {vm : Vm.State} (run : Vm.vmUnmap (.process id) address length m.vm = .ok vm)
    (followed : follow id top m vm = .ok m') : Consistent id top supply m' :=
  strips_keeps consistent (unmap_sound consistent run) (unmap_strips consistent run) followed

end Unmap

end Elysium.UserSpace
