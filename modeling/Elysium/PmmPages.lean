import Elysium.PmmSafety

set_option autoImplicit false

namespace Elysium.Pmm

open Dyadic

theorem split_loop_weight (z y : ZoneId) (h order surplus : Nat) (s : State) (small : order + surplus ≤ pmmMaxOrder) :
    zoneWeight (splitLoop z h order surplus s) y + (if y = z then 2 ^ order else 0) =
      zoneWeight s y + if y = z then 2 ^ (order + surplus) else 0 := by
  induction surplus generalizing s with
  | zero => rfl
  | succ surplus ih =>
      have total := ih (splitOff z (order + surplus) h s) (by omega)
      rw [split_off_weight _ _ _ _ _ (by omega)] at total
      rw [split_loop_step]
      by_cases zone : y = z
      · simp only [zone, if_true, ← Nat.add_assoc, Nat.pow_succ] at total ⊢
        omega
      · simpa only [zone, if_false] using total

theorem split_loop_memory (z : ZoneId) (h order surplus : Nat) (s : State) : (splitLoop z h order surplus s).memory = s.memory := by
  induction surplus generalizing s with
  | zero => rfl
  | succ surplus ih =>
      rw [split_loop_step, ih]
      rfl

theorem no_weight (lists : Nat → List Nat) (empty : ∀ k, k ≤ pmmMaxOrder → lists k = []) : freeWeight lists = 0 := by
  unfold freeWeight
  refine Finset.sum_eq_zero fun k inside => ?_
  rw [empty k (by have bound := Finset.mem_range.mp inside; omega), List.length_nil, Nat.mul_zero]

-- In any state pmm_alloc_page takes one page of the zone, or there is none left.
theorem alloc_page_weight (flags : Nat) (s : State) :
    (∃ s' h, pmmAllocPage flags s = .ok (s', h) ∧
        zoneWeight s' (allocZone flags) + 1 = zoneWeight s (allocZone flags) ∧
        ∀ a, a / pageGranularity ≠ h → s'.memory a = s.memory a) ∨
      (pmmAllocPage flags s = .error outOfMemory ∧ zoneWeight s (allocZone flags) = 0) := by
  obtain ⟨z, zone⟩ : ∃ z, z = allocZone flags := ⟨_, rfl⟩
  rcases available_order_cases (s.zone z) (pmmMaxOrder + 1 - 0) 0 with ⟨found, available, _, below, nonempty⟩ | ⟨available, none⟩
  · refine .inl ?_
    obtain ⟨h, rest, list⟩ := List.exists_cons_of_ne_nil nonempty
    have small : found ≤ pmmMaxOrder := by omega
    have run := pmm_alloc_pop 0 flags found h rest s (Nat.zero_le _) (zone ▸ available) (zone ▸ list)
    rw [← zone] at run ⊢
    refine ⟨_, h, run, ?_, fun a outside => ?_⟩
    · have popped := zone_weight_set_list s z z found small rest
      have split := split_loop_weight z z h 0 (found - 0) (s.setList z found rest) (by omega)
      rw [if_pos rfl, if_pos rfl, list, List.length_cons, Nat.mul_succ] at popped
      rw [if_pos rfl, if_pos rfl, Nat.zero_add, Nat.sub_zero] at split
      have finished : zoneWeight (finishAlloc z 0 flags h (splitLoop z h 0 (found - 0) (s.setList z found rest))) z =
          zoneWeight (splitLoop z h 0 (found - 0) (s.setList z found rest)) z := by
        unfold zoneWeight
        rw [finish_alloc_zone, if_pos rfl]
      rw [finished, Nat.sub_zero]
      omega
    · have kept : (splitLoop z h 0 (found - 0) (s.setList z found rest)).memory = s.memory := split_loop_memory z h 0 _ _
      unfold finishAlloc
      dsimp only
      split
      · change memClear (splitLoop z h 0 (found - 0) (s.setList z found rest)).memory (blockPaddr h) (orderToPagecount 0 * pageGranularity) a = _
        rw [kept, memClear, if_neg]
        unfold blockPaddr orderToPagecount pageGranularity at *
        omega
      · change (splitLoop z h 0 (found - 0) (s.setList z found rest)).memory a = _
        rw [kept]
  · refine .inr ⟨?_, ?_⟩
    · simp only [pmmAllocPage, pmmAlloc, assertThat, Nat.zero_le, decide_true, if_true, bind_ok, ← zone, available]
      rfl
    · rw [← zone]
      exact no_weight _ fun k small => none k (Nat.zero_le _) (by omega)

theorem split_loop_set_memory (z : ZoneId) (h order surplus : Nat) (s : State) (memory : Nat → UInt8) :
    splitLoop z h order surplus { s with memory := memory } = { splitLoop z h order surplus s with memory := memory } := by
  induction surplus generalizing s with
  | zero => rfl
  | succ surplus ih =>
      rw [split_loop_step, split_loop_step, ← ih]
      rfl

-- What an allocation does to the memory of the page it hands out.
def clearPage (flags : Nat) (memory : Nat → UInt8) (h : Nat) : Nat → UInt8 :=
  if flags &&& flagZero ≠ 0 then memClear memory (blockPaddr h) pageGranularity else memory

-- Which page is handed out does not depend on what the pages hold.
theorem alloc_page_memory {flags h : Nat} {s s' : State} (allocated : pmmAllocPage flags s = .ok (s', h)) :
    s'.memory = clearPage flags s.memory h ∧
      ∀ memory, pmmAllocPage flags { s with memory := memory } = .ok ({ s' with memory := clearPage flags memory h }, h) := by
  rcases available_order_cases (s.zone (allocZone flags)) (pmmMaxOrder + 1 - 0) 0 with ⟨found, available, _, _, nonempty⟩ | ⟨available, _⟩
  · obtain ⟨head, rest, list⟩ := List.exists_cons_of_ne_nil nonempty
    have run := pmm_alloc_pop 0 flags found head rest s (Nat.zero_le _) available list
    obtain ⟨rfl, rfl⟩ := Prod.mk.inj (Except.ok.inj (allocated.symm.trans run))
    refine ⟨?_, fun memory => ?_⟩
    · have kept := split_loop_memory (allocZone flags) h 0 (found - 0) (s.setList (allocZone flags) found rest)
      unfold finishAlloc clearPage
      dsimp only
      split
      · change memClear (splitLoop _ _ _ _ _).memory _ _ = _
        rw [kept]
        rfl
      · exact kept
    · have again := pmm_alloc_pop 0 flags found h rest { s with memory := memory } (Nat.zero_le _) available list
      have same : ({ s with memory := memory } : State).setList (allocZone flags) found rest =
          { s.setList (allocZone flags) found rest with memory := memory } := rfl
      unfold pmmAllocPage
      rw [again, same, split_loop_set_memory]
      unfold finishAlloc clearPage
      dsimp only
      split
      · rfl
      · rfl
  · unfold pmmAllocPage at allocated
    simp only [pmmAlloc, assertThat, Nat.zero_le, decide_true, if_true, bind_ok, available] at allocated
    cases allocated

-- The allocator is in order, its memory is addressable by page table entries, and the pages in
-- use are part of blocks that were handed out.
def Stock (s : State) (used : Nat → Prop) : Prop :=
  ∃ regions live layout, Inv ⟨s, regions, live⟩ layout ∧ (∀ r ∈ regions, r.base + r.size ≤ 2 ^ 52) ∧
    ∀ p, used p → ∃ b ∈ live, b.Covers p

theorem stock_mono {s : State} {used used' : Nat → Prop} (stock : Stock s used) (fewer : ∀ p, used' p → used p) : Stock s used' := by
  obtain ⟨regions, live, layout, inv, bounded, covered⟩ := stock
  exact ⟨regions, live, layout, inv, bounded, fun p isUsed => covered p (fewer p isUsed)⟩

-- What the callers write to their memory is none of the allocator's business.
theorem stock_memory {s : State} {used : Nat → Prop} (stock : Stock s used) (memory : Nat → UInt8) :
    Stock { s with memory := memory } used := by
  obtain ⟨regions, live, layout, inv, rest⟩ := stock
  refine ⟨regions, live, layout, ⟨?_, inv.canonical, inv.domain, inv.tiles, inv.live, inv.liveNodup, inv.counts⟩, rest⟩
  exact ⟨inv.tracks.bounds, inv.tracks.located, inv.tracks.tops, inv.tracks.listed, inv.tracks.nodup, inv.tracks.heads⟩

theorem stock_alloc {s s' : State} {used : Nat → Prop} {flags h : Nat} (stock : Stock s used)
    (allocated : pmmAllocPage flags s = .ok (s', h)) :
    Stock s' (fun p => used p ∨ p = h) ∧ ¬ used h ∧ blockPaddr h + pageGranularity ≤ 2 ^ 52 := by
  obtain ⟨regions, live, layout, inv, bounded, covered⟩ := stock
  obtain ⟨next, result, inv'⟩ := alloc_inv inv 0 flags (Nat.zero_le _) s' h allocated
  have serves := (inv_serves inv).alloc 0 flags s' h (Nat.zero_le _) allocated
  have own : Run.Covers ⟨h, 0, allocZone flags⟩ h := ⟨Nat.le_refl _, Nat.lt_succ_self _⟩
  refine ⟨⟨regions, _, next, inv', bounded, ?_⟩, fun isUsed => ?_, ?_⟩
  · rintro p (before | rfl)
    · obtain ⟨b, member, covers⟩ := covered p before
      exact ⟨b, List.mem_cons_of_mem _ member, covers⟩
    · exact ⟨_, List.mem_cons_self, own⟩
  · obtain ⟨b, member, covers⟩ := covered h isUsed
    exact serves.2.2.2 b member h own covers
  · obtain ⟨r, member, ⟨holds, _⟩⟩ := (inv'.domain h).mp result.cell.1.1
    have bound := bounded r member
    have base := r.base_aligned
    have size := r.size_aligned
    unfold Region.Holds blockPaddr pageGranularity at *
    omega

end Elysium.Pmm
