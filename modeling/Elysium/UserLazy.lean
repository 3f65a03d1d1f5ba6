import Elysium.UserLedger
import Elysium.VmFirstFit
import Elysium.VmScratch

set_option autoImplicit false

namespace Elysium.UserSpace

open Vm (PtmCall SpaceId Region Protection Cache userspaceStart userspaceEnd)
open Ptm (frameAt)

-- What a mapping that is backed on demand leaves: the page tables are not touched, and the
-- allocator is as the pool has left it.
structure MappedLazily (id top : Nat) (supply : List Nat) (hint length flags : Nat) (prot : Protection) (cache : Cache) (m : Machine)
    (pooled vm : Vm.State) (address : Nat) : Prop where
  consistent : Consistent id top supply ⟨vm, m.tables⟩
  followed : follow id top m vm = .ok ⟨vm, m.tables⟩
  allocator : vm.pmm = pooled.pmm
  chosen : Vm.Chosen (m.vm.space (.process id)) hint length flags address
  maps : ∀ a v, Vm.Maps (vm.space (.process id)).regions a v ↔ Vm.Maps (m.vm.space (.process id)).regions a v ∨
    (address ≤ a ∧ a < address + length ∧ v = (Vm.requested prot cache flags .anon 0).shift (a - address))
  aligned : address % pageGranularity = 0
  above : userspaceStart ≤ address
  below : address + length < userspaceEnd
  aside : Vm.Frame (.process id) pooled vm
  asked : vm.ptm = pooled.ptm
  cache : pooled.cache.length ≤ vm.cache.length
  structures : Vm.structures (.process id) vm = Vm.structures (.process id) pooled + 1

-- A region structure costs a page when the pool is empty.
theorem region_alloc_pages {s t : Vm.State} {rid : Nat} (alloc : Vm.regionAlloc s = .ok (t, rid)) :
    Pmm.zoneWeight t.pmm .normal + (if s.cache = [] then 1 else 0) = Pmm.zoneWeight s.pmm .normal := by
  cases cache : s.cache with
  | cons first rest =>
      rw [Vm.region_alloc_cached cache] at alloc
      obtain ⟨rfl, _⟩ := Prod.mk.inj (Except.ok.inj alloc)
      simp
  | nil =>
      obtain ⟨page, hole, allocated, _⟩ := region_alloc_pool cache alloc
      rcases Pmm.alloc_page_weight Pmm.flagZero s.pmm with ⟨pmm, h, again, weight, _⟩ | ⟨failed, _⟩
      · obtain ⟨rfl, _⟩ := Prod.mk.inj (Except.ok.inj (again.symm.trans allocated))
        rw [if_pos rfl]
        exact weight
      · rw [failed] at allocated
        cases allocated

section Lazy

variable {id top hint length flags rid : Nat} {supply : List Nat} {prot : Protection} {cache : Cache} {m : Machine} {t : Vm.State}

theorem map_lazy_cases (prot : Protection) (cache : Cache) (consistent : Consistent id top supply m) (dynamic : flags &&& Vm.flagDynamicallyBacked ≠ 0)
    (accepted : ¬ Vm.Rejected hint length flags) (alloc : Vm.regionAlloc m.vm = .ok (t, rid)) :
    (Vm.NoPlace (m.vm.space (.process id)) hint length flags ∧
        Vm.vmMapAnon (.process id) hint length prot cache flags m.vm = .ok (t.regionFree rid, Vm.nullptr)) ∨
      ∃ vm address, Vm.vmMapAnon (.process id) hint length prot cache flags m.vm = .ok (vm, address) ∧
        MappedLazily id top supply hint length flags prot cache m t vm address := by
  have other : SpaceId.process id ≠ .global := by simp
  obtain ⟨ownedT, step, hostsT⟩ : Vm.Owned t [rid] ∧ Vm.PoolStep m.vm t ∧ Vm.Hosts t := by
    rcases Vm.region_alloc_cases (Vm.sound_hosts consistent.vm) consistent.vm.owned with ⟨t', rid', again, rest⟩ | failed | failed
    · obtain ⟨rfl, rfl⟩ := Prod.mk.inj (Except.ok.inj (alloc.symm.trans again))
      exact rest
    · rw [failed] at alloc
      cases alloc
    · rw [failed] at alloc
      cases alloc
  have tidyT := Vm.pool_step_tidy step hostsT (consistent.vm.tidy (.process id))
  have spaceT : t.space (.process id) = m.vm.space (.process id) := by
    rcases step with same | ⟨hole, page⟩
    · rw [same]
    · exact page.frame.others _ other
  rcases Vm.map_common_search accepted alloc tidyT with
    ⟨noPlace, run⟩ | ⟨address, chosen, run⟩
  · exact .inl ⟨spaceT ▸ noPlace, run⟩
  · refine .inr ?_
    have alignedT : (t.space (.process id)).start % pageGranularity = 0 := by
      rw [spaceT]
      exact consistent.vm.aligned _
    have onPage := Vm.chosen_aligned tidyT alignedT chosen
    have positive : 0 < length := Nat.pos_of_ne_zero fun zero => accepted (.inl zero)
    have wholePages : length % pageGranularity = 0 := by
      by_contra ragged
      exact accepted (.inr (.inl ragged))
    have bounds := (Vm.segment_in_bounds_iff address length _ _ tidyT.fits).mp chosen.hole.1
    rw [spaceT, consistent.start, consistent.limit] at bounds
    have odd : userspaceEnd % pageGranularity = 0xFFF := by decide
    rcases Vm.place_region_spec (.process id) prot cache flags .anon 0 tidyT ownedT chosen.hole onPage wholePages positive with
      ⟨vm, whole, placed, joined, aside, _⟩ | failed | ⟨_, direct, _⟩
    · have mapped : Vm.vmMapAnon (.process id) hint length prot cache flags m.vm = .ok (vm, address) := run.trans placed
      rcases place_region_calls placed with ⟨_, asked, memory, kept, inserted⟩ | ⟨static, _⟩
      · obtain ⟨_, pool, askedPool, carriedPool⟩ := pool_backing consistent alloc
        have followed : follow id top m vm = .ok ⟨vm, m.tables⟩ := by
          unfold follow
          rw [new_calls_eq (asked.trans askedPool), carriedPool]
          rfl
        refine ⟨vm, address, mapped, map_anon_keeps consistent mapped followed, followed, memory, spaceT ▸ chosen, fun a v => ?_, onPage,
          bounds.1, ?_, aside, asked, kept, ?_⟩
        · rw [Vm.joined_maps tidyT joined, spaceT]
          exact or_congr Iff.rfl and_assoc
        · unfold pageGranularity at *
          omega
        · rw [inserted]
          exact Vm.region_insert_structures _ ownedT
      · exact absurd dynamic static
    · -- Nothing is allocated for a region that is backed on demand.
      unfold Vm.placeRegion at failed
      simp only [assertThat, decide_eq_true chosen.hole.1, decide_eq_true (And.intro onPage wholePages), if_true, bind_ok, Vm.mapBacking] at failed
      rw [if_pos (show (Vm.describeRegion (.process id) rid address length prot cache flags _).dynamicallyBacked = true from
        decide_eq_true dynamic)] at failed
      cases failed
    · cases direct

end Lazy

end Elysium.UserSpace
