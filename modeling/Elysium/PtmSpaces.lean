import Mathlib.Data.List.Nodup
import Elysium.PtmShared

set_option autoImplicit false

namespace Elysium.Ptm

open Vm (Protection Cache Privilege kernelspaceStart userspaceEnd protRW)

-- The page tables of the machine. spaces are the address spaces made so far.
structure Spaces where
  state : State
  global : Nat
  spaces : List Nat

-- Who calls with which addresses.
inductive Serves (y : Spaces) (vaddr length : Nat) : Nat → Privilege → Prop where
  | kernel (start : kernelspaceStart ≤ vaddr) (fits : vaddr + length ≤ 2 ^ 64) : Serves y vaddr length y.global .kernel
  | process (top : Nat) (privilege : Privilege) (made : top ∈ y.spaces) (below : vaddr + length ≤ userspaceEnd) :
      Serves y vaddr length top privilege

inductive Step (y : Spaces) : Spaces → Prop where
  | create (s' : State) (top : Nat) (run : archPtmAddressSpaceCreate y.global y.state = .ok (s', top)) :
      Step y ⟨s', y.global, top :: y.spaces⟩
  | map (s' : State) (top vaddr paddr length : Nat) (prot : Protection) (cache : Cache) (privilege : Privilege) (isGlobal : Bool)
      (serves : Serves y vaddr length top privilege)
      (run : archPtmMap top vaddr paddr length prot cache privilege isGlobal y.state = .ok s') : Step y ⟨s', y.global, y.spaces⟩
  | rewrite (s' : State) (top vaddr length : Nat) (prot : Protection) (cache : Cache) (privilege : Privilege) (isGlobal : Bool)
      (serves : Serves y vaddr length top privilege)
      (run : archPtmRewrite top vaddr length prot cache privilege isGlobal y.state = .ok s') : Step y ⟨s', y.global, y.spaces⟩
  | unmap (s' : State) (top vaddr length : Nat) (privilege : Privilege) (serves : Serves y vaddr length top privilege)
      (run : archPtmUnmap top vaddr length y.state = .ok s') : Step y ⟨s', y.global, y.spaces⟩

structure Halves (upper : Nat → Entry) (kind : Nat → Nat) (y : Spaces) : Prop where
  kinds : Kinds kind y.state
  shared : Shared upper kind y.state
  global : kind y.global = levelCount
  spaces : ∀ top ∈ y.spaces, kind top = levelCount

section Keep

variable {upper : Nat → Entry} {kind : Nat → Nat} {y : Spaces} (unrestricted : ∀ i, 256 ≤ i → i < 512 → Unrestricted (upper i))
  (halves : Halves upper kind y)

include halves

theorem serves_top {vaddr length top : Nat} {privilege : Privilege} (serves : Serves y vaddr length top privilege) :
    kind top = levelCount := by
  cases serves with
  | kernel => exact halves.global
  | process _ _ made => exact halves.spaces top made

theorem halves_extend {s' : State} {kind' : Nat → Nat} (kinds : Kinds kind' s') (shared : Shared upper kind' s')
    (extended : Extends kind kind') : Halves upper kind' ⟨s', y.global, y.spaces⟩ := by
  have stays : ∀ t, kind t = levelCount → kind' t = levelCount := by
    intro t top
    rw [extended t (by rw [top]; decide), top]
  exact ⟨kinds, shared, stays _ halves.global, fun top made => stays top (halves.spaces top made)⟩

-- The new table is zero below and a copy of the global one above.
theorem create_halves {s' : State} {top : Nat} (run : archPtmAddressSpaceCreate y.global y.state = .ok (s', top)) :
    ∃ kind', Halves upper kind' ⟨s', y.global, top :: y.spaces⟩ := by
  unfold archPtmAddressSpaceCreate at run
  rw [bind_eq_ok] at run
  obtain ⟨⟨s₁, page⟩, taken, copied⟩ := run
  rw [Except.ok.injEq, Prod.mk.injEq] at copied
  obtain ⟨rfl, rfl⟩ := copied
  obtain ⟨kinds, extended, aligned, _, _, zero, kept⟩ := alloc_kinds halves.kinds taken levelCount
  have globalOld : kind y.global ≠ 0 := by rw [halves.global]; decide
  have globalTop : Function.update kind page levelCount y.global = levelCount := by rw [extended _ globalOld, halves.global]
  obtain ⟨next, made⟩ : ∃ next, next = memCopy s₁.memory (page + 256 * 8) (y.global + 256 * 8) (256 * 8) := ⟨_, rfl⟩
  have upperHalf : ∀ i, 256 ≤ i → i < 512 → next (page + 8 * i) = s₁.memory (y.global + 8 * i) := by
    intro i high small
    rw [made, memCopy, if_pos (by omega), show y.global + 256 * 8 + (page + 8 * i - (page + 256 * 8)) = y.global + 8 * i by omega]
  have lowerHalf : ∀ i, i < 256 → next (page + 8 * i) = 0 := by
    intro i small
    rw [made, memCopy, if_neg (by omega)]
    exact zero i (by omega)
  have other : ∀ t, Function.update kind page levelCount t ≠ 0 → t ≠ page → ∀ i < 512, next (t + 8 * i) = s₁.memory (t + 8 * i) := by
    intro t isTable apart i small
    have away := word_outside (kinds.aligned t isTable) aligned small apart
    unfold pageGranularity at away
    rw [made, memCopy, if_neg (by omega)]
  have sharedOld : ∀ t, kind t = levelCount → ∀ i, 256 ≤ i → i < 512 → s₁.memory (t + 8 * i) = upper i := by
    intro t top i high small
    rw [kept t (by rw [top]; decide) i small]
    exact halves.shared t top i high small
  rw [← made]
  refine ⟨Function.update kind page levelCount, ⟨kinds.aligned, fun t l level i small descends => ?_, kinds.distinct, kinds.placed,
    kinds.free⟩, fun t top i high small => ?_, globalTop, fun t member => ?_⟩
  · dsimp only at descends ⊢
    by_cases same : t = page
    · have isTop : levelCount = l + 1 := by rw [← level, same, Function.update_self]
      rw [same] at descends ⊢
      by_cases high : 256 ≤ i
      · rw [upperHalf i high small] at descends ⊢
        exact kinds.below y.global l (globalTop.trans isTop) i small descends
      · rw [lowerHalf i (by omega)] at descends
        exact absurd descends (zero_stops _)
    · rw [other t (by omega) same i small] at descends ⊢
      exact kinds.below t l level i small descends
  · dsimp only
    by_cases same : t = page
    · rw [same, upperHalf i high small]
      exact sharedOld y.global halves.global i high small
    · rw [other t (by rw [top]; decide) same i small]
      rw [Function.update_of_ne same] at top
      exact sharedOld t top i high small
  · rcases List.mem_cons.mp member with rfl | old
    · exact Function.update_self _ _ _
    · have top := halves.spaces t old
      rw [extended t (by rw [top]; decide), top]

include unrestricted

theorem step_halves {y' : Spaces} (step : Step y y') : ∃ kind', Halves upper kind' y' := by
  cases step with
  | create s' top run => exact create_halves halves run
  | map s' top vaddr paddr length prot cache privilege isGlobal serves run =>
      have allowed : ∀ d < length, vaddrToIndex (add64 vaddr d) levelCount < 256 ∨ privilege = .kernel := by
        intro d inside
        cases serves with
        | kernel => exact .inr rfl
        | process _ _ _ below =>
            refine .inl ?_
            have bound : userspaceEnd < 2 ^ 47 := by decide
            have size : levelToPagesize levelCount = 2 ^ 39 := rfl
            rw [add64_eq (by omega), index_eq (by decide), size]
            omega
      unfold archPtmMap at run
      simp only [bind_eq_ok] at run
      obtain ⟨_, _, _, _, _, _, run⟩ := run
      obtain ⟨kind', kinds, shared, extended⟩ := map_loop_kinds unrestricted _ 0 halves.kinds halves.shared (serves_top halves serves)
        allowed run
      exact ⟨kind', halves_extend halves kinds shared extended⟩
  | rewrite s' top vaddr length prot cache privilege isGlobal serves run =>
      unfold archPtmRewrite at run
      simp only [bind_eq_ok] at run
      obtain ⟨_, _, _, _, run⟩ := run
      have isTop := serves_top halves serves
      obtain ⟨kinds, shared⟩ := range_loop_kinds (fun _ _ _ _ _ kinds shared => rewrite_round_kinds unrestricted kinds shared isTop) _ 0
        halves.kinds halves.shared run
      exact ⟨kind, halves_extend halves kinds shared fun _ _ => rfl⟩
  | unmap s' top vaddr length privilege serves run =>
      unfold archPtmUnmap at run
      simp only [bind_eq_ok] at run
      obtain ⟨_, _, _, _, run⟩ := run
      have isTop := serves_top halves serves
      obtain ⟨kinds, shared⟩ := range_loop_kinds (fun _ _ _ _ _ kinds shared => unmap_round_kinds kinds shared isTop) _ 0
        halves.kinds halves.shared run
      exact ⟨kind, halves_extend halves kinds shared fun _ _ => rfl⟩

theorem run_halves {y' : Spaces} (run : Relation.ReflTransGen Step y y') : ∃ kind', Halves upper kind' y' := by
  induction run with
  | refl => exact ⟨kind, halves⟩
  | tail _ step ih =>
      obtain ⟨kind', halves'⟩ := ih
      exact step_halves unrestricted halves' step

end Keep

section Init

variable {pml4 : Nat}

theorem share_entry_bit {page k : Nat} (small : k < 12) :
    (entryFlagPresent ||| entryFlagRw ||| (BitVec.ofNat 64 page &&& entrylAddressMask)).getLsbD k = decide (k = 0 ∨ k = 1) := by
  rw [BitVec.getLsbD_or, BitVec.getLsbD_or, BitVec.getLsbD_and, present_bit, rw_bit, address_mask_bit,
    decide_eq_false (show ¬ (12 ≤ k ∧ k < 52) by omega), Bool.and_false, Bool.or_false, Bool.decide_or]

theorem share_entry_unrestricted (page : Nat) :
    Unrestricted (entryFlagPresent ||| entryFlagRw ||| (BitVec.ofNat 64 page &&& entrylAddressMask)) := by
  refine ⟨share_entry_bit (by decide), share_entry_bit (by decide), share_entry_bit (by decide), ?_⟩
  rw [BitVec.getLsbD_or, BitVec.getLsbD_or, BitVec.getLsbD_and, present_bit, rw_bit, address_mask_bit]
  simp

theorem share_entry_table {page : Nat} (aligned : page % pageGranularity = 0) (fits : page < 2 ^ 52) :
    tableOf (entryFlagPresent ||| entryFlagRw ||| (BitVec.ofNat 64 page &&& entrylAddressMask)) = page := by
  refine Eq.trans (table_of_congr fun k low high => ?_) (table_of_page aligned fits)
  rw [BitVec.getLsbD_or, BitVec.getLsbD_or, BitVec.getLsbD_and, present_bit, rw_bit, address_mask_bit,
    decide_eq_true (show 12 ≤ k ∧ k < 52 from ⟨low, high⟩)]
  simp [show k ≠ 0 by omega, show k ≠ 1 by omega]

-- The loop of the init target up to an index.
structure Sharing (pml4 n : Nat) (kind : Nat → Nat) (s : State) : Prop where
  kinds : Kinds kind s
  only : ∀ t, kind t = levelCount ↔ t = pml4
  shared : ∀ i, 256 ≤ i → i < n → Unrestricted (s.memory (pml4 + 8 * i))

theorem share_slot_sharing {n : Nat} {kind : Nat → Nat} {s s' : State} (sharing : Sharing pml4 n kind s) (small : n < 512)
    (run : shareSlot pml4 s n = .ok s') : ∃ kind', Sharing pml4 (n + 1) kind' s' := by
  unfold shareSlot at run
  rw [bind_eq_ok] at run
  obtain ⟨⟨s₁, page⟩, taken, stored⟩ := run
  rw [Except.ok.injEq] at stored
  subst stored
  obtain ⟨kinds, extended, aligned, fits, unused, _, kept⟩ := alloc_kinds sharing.kinds taken 3
  have top : kind pml4 = levelCount := (sharing.only pml4).mpr rfl
  have isTable : Function.update kind page 3 pml4 = 3 + 1 := by
    rw [extended pml4 (by rw [top]; decide), top]
    rfl
  have table := share_entry_table aligned fits
  refine ⟨Function.update kind page 3, store_kinds kinds isTable small fun _ => by rw [table, Function.update_self], fun t => ?_,
    fun i high below => ?_⟩
  · by_cases same : t = page
    · rw [same, Function.update_self]
      refine iff_of_false (by decide) fun equal => ?_
      rw [← equal, unused] at top
      exact absurd top (by decide)
    · rw [Function.update_of_ne same]
      exact sharing.only t
  · rw [store_word kinds (by omega) small (by omega) (by omega)]
    by_cases here : pml4 = pml4 ∧ i = n
    · rw [if_pos here]
      exact share_entry_unrestricted page
    · rw [if_neg here, kept pml4 (by rw [top]; decide) i (by omega)]
      exact sharing.shared i high (by omega)

theorem share_loop_sharing {n count : Nat} {kind : Nat → Nat} {s s' : State} (sharing : Sharing pml4 n kind s)
    (bound : n + count ≤ 512) (run : (List.range' n count).foldlM (shareSlot pml4) s = .ok s') :
    ∃ kind', Sharing pml4 (n + count) kind' s' := by
  induction count generalizing n kind s with
  | zero =>
      rw [List.range'_zero, List.foldlM_nil] at run
      obtain rfl : s = s' := Except.ok.inj run
      exact ⟨kind, sharing⟩
  | succ count ih =>
      rw [List.range'_succ, List.foldlM_cons, bind_eq_ok] at run
      obtain ⟨s₁, first, rest⟩ := run
      obtain ⟨kind₁, sharing₁⟩ := share_slot_sharing sharing (by omega) first
      obtain ⟨kind₂, sharing₂⟩ := ih sharing₁ (by omega) rest
      rw [show n + (count + 1) = n + 1 + count by omega]
      exact ⟨kind₂, sharing₂⟩

theorem init_sharing {boot s : State} (distinct : boot.frames.Nodup)
    (placed : ∀ page ∈ boot.frames, page % pageGranularity = 0 ∧ page < 2 ^ 52) (run : ptmInitTarget boot = .ok (s, pml4)) :
    ∃ kind, Sharing pml4 512 kind s := by
  unfold ptmInitTarget at run
  rw [bind_eq_ok] at run
  obtain ⟨⟨s₁, page⟩, taken, run⟩ := run
  rw [bind_eq_ok] at run
  obtain ⟨s₂, loop, last⟩ := run
  rw [Except.ok.injEq, Prod.mk.injEq] at last
  obtain ⟨rfl, rfl⟩ := last
  have start : Kinds (fun _ => 0) boot := ⟨fun _ isTable => absurd rfl isTable, fun _ _ level => by omega, distinct, placed, fun _ _ => rfl⟩
  obtain ⟨kinds, _⟩ := alloc_kinds start taken levelCount
  refine share_loop_sharing (n := 256) ⟨kinds, fun t => ?_, fun i high below => by omega⟩ (by decide) loop
  by_cases same : t = page
  · rw [same, Function.update_self]
    exact iff_of_true rfl rfl
  · rw [Function.update_of_ne same]
    exact iff_of_false (by decide) same

end Init

theorem upper_index {v : Nat} (start : kernelspaceStart ≤ v) (fits : v < 2 ^ 64) :
    256 ≤ vaddrToIndex v levelCount := by
  have size : levelToPagesize levelCount = 2 ^ 39 := rfl
  rw [index_eq (by decide), size]
  unfold kernelspaceStart at start
  omega

theorem entries_congr {memory : Nat → Entry} {v level t u : Nat}
    (same : memory (t + 8 * vaddrToIndex v (level + 1)) = memory (u + 8 * vaddrToIndex v (level + 1))) :
    entries memory v (level + 1) t = entries memory v (level + 1) u := by
  simp only [entries, same]

-- The upper entries of the global table never change, so that an address of the
-- kernel half is translated alike everywhere.
theorem kernel_half_shared (boot s : State) (pml4 : Nat) (distinct : boot.frames.Nodup)
    (placed : ∀ page ∈ boot.frames, page % pageGranularity = 0 ∧ page < 2 ^ 52) (init : ptmInitTarget boot = .ok (s, pml4))
    (y : Spaces) (run : Relation.ReflTransGen Step ⟨s, pml4, []⟩ y) :
    y.global = pml4 ∧ (∀ i, 256 ≤ i → i < 512 → y.state.load y.global i = s.load pml4 i) ∧
      ∀ top ∈ y.spaces, ∀ v, kernelspaceStart ≤ v → v < 2 ^ 64 → walk y.state.memory top v = walk y.state.memory y.global v := by
  obtain ⟨kind, sharing⟩ := init_sharing distinct placed init
  have start : Halves (s.load pml4) kind ⟨s, pml4, []⟩ := by
    refine ⟨sharing.kinds, fun t top i _ _ => ?_, (sharing.only pml4).mpr rfl, fun top made => by cases made⟩
    rw [(sharing.only t).mp top]
    rfl
  obtain ⟨kind', halves⟩ := run_halves sharing.shared start run
  have global : y.global = pml4 := by
    clear halves
    induction run with
    | refl => rfl
    | tail _ step ih =>
        cases step with
        | create => exact ih
        | map => exact ih
        | rewrite => exact ih
        | unmap => exact ih
  refine ⟨global, fun i high small => halves.shared _ halves.global i high small, fun top made v low fits => ?_⟩
  have read : ∀ t, kind' t = levelCount → y.state.memory (t + 8 * vaddrToIndex v levelCount) = s.load pml4 (vaddrToIndex v levelCount) :=
    fun t isTop => halves.shared t isTop _ (upper_index low fits) (index_lt _ _)
  have same := (read top (halves.spaces top made)).trans (read y.global halves.global).symm
  rw [walk, walk, show levelCount = 3 + 1 by rfl, entries_congr same]

theorem share_loop_runs {pml4 n count : Nat} {s : State} (enough : count ≤ s.frames.length) :
    ∃ s', (List.range' n count).foldlM (shareSlot pml4) s = .ok s' ∧ s'.frames.length + count = s.frames.length := by
  induction count generalizing n s with
  | zero => exact ⟨s, rfl, rfl⟩
  | succ count ih =>
      cases supply : s.frames with
      | nil =>
          rw [supply, List.length_nil] at enough
          omega
      | cons page rest =>
          rw [supply, List.length_cons] at enough
          have first : shareSlot pml4 s n = .ok (State.store { s with memory := memClear s.memory page pageGranularity, frames := rest }
              pml4 n (entryFlagPresent ||| entryFlagRw ||| (BitVec.ofNat 64 page &&& entrylAddressMask))) := by
            rw [shareSlot, allocPage, supply]
            rfl
          obtain ⟨s', loop, left⟩ := @ih (n + 1) (State.store { s with memory := memClear s.memory page pageGranularity, frames := rest }
            pml4 n (entryFlagPresent ||| entryFlagRw ||| (BitVec.ofNat 64 page &&& entrylAddressMask))) (Nat.le_of_succ_le_succ enough)
          refine ⟨s', ?_, ?_⟩
          · rw [List.range'_succ, List.foldlM_cons, first, bind_ok, loop]
          · rw [List.length_cons, ← show s'.frames.length + count = rest.length from left]
            omega

def bootState : State := blankState ((List.range 258).map fun n => (n + 1) * pageGranularity)

theorem boot_placed (page : Nat) (listed : page ∈ bootState.frames) : page % pageGranularity = 0 ∧ page < 2 ^ 52 := by
  obtain ⟨n, small, rfl⟩ := List.mem_map.mp listed
  rw [List.mem_range] at small
  unfold pageGranularity
  omega

theorem boot_distinct : bootState.frames.Nodup := by
  refine List.Nodup.map (fun n m same => ?_) List.nodup_range
  unfold pageGranularity at same
  omega

theorem kernel_half_shared_boot : ∃ s pml4 y, ptmInitTarget bootState = .ok (s, pml4) ∧ Relation.ReflTransGen Step ⟨s, pml4, []⟩ y ∧
    ∃ top ∈ y.spaces, ∀ v, kernelspaceStart ≤ v → v < 2 ^ 64 → walk y.state.memory top v = walk y.state.memory y.global v := by
  have enough : bootState.frames.length = 258 := by
    rw [bootState, blankState, List.length_map, List.length_range]
  cases supply : bootState.frames with
  | nil =>
      rw [supply] at enough
      cases enough
  | cons pml4 rest =>
      rw [supply, List.length_cons] at enough
      obtain ⟨s, loop, left⟩ := @share_loop_runs pml4 256 256
        { bootState with memory := memClear bootState.memory pml4 pageGranularity, frames := rest }
        (show 256 ≤ rest.length by omega)
      have init : ptmInitTarget bootState = .ok (s, pml4) := by
        rw [ptmInitTarget, allocPage, supply, bind_ok]
        dsimp only
        rw [ptmInit, loop, bind_ok]
      change s.frames.length + 256 = rest.length at left
      cases next : s.frames with
      | nil =>
          rw [next, List.length_nil] at left
          omega
      | cons top others =>
          obtain ⟨s', create⟩ : ∃ s', archPtmAddressSpaceCreate pml4 s = .ok (s', top) := by
            rw [archPtmAddressSpaceCreate, allocPage, next, bind_ok]
            exact ⟨_, rfl⟩
          have run : Relation.ReflTransGen Step ⟨s, pml4, []⟩ ⟨s', pml4, [top]⟩ := .single (.create s' top create)
          refine ⟨s, pml4, _, init, run, top, List.mem_singleton_self top, ?_⟩
          exact (kernel_half_shared bootState s pml4 boot_distinct boot_placed init _ run).2.2 top (List.mem_singleton_self top)

end Elysium.Ptm
