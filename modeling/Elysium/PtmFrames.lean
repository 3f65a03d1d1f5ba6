import Elysium.PtmMapExact
import Elysium.PtmSpaces

set_option autoImplicit false

namespace Elysium.Ptm

open Vm (Protection Cache Privilege kernelspaceStart)

-- The state with these pages behind those of its supply.
def State.more (s : State) (taken : List Nat) : State := { s with frames := s.frames ++ taken }

section More

variable {s s' : State} {taken : List Nat} {prot : Protection} {cache : Cache} {privilege : Privilege} {isGlobal : Bool}

theorem pass_more {table index j : Nat} {e : Entry} (run : passEntry table index j prot privilege s = .ok (s', e)) :
    passEntry table index j prot privilege (s.more taken) = .ok (s'.more taken, e) := by
  have loaded : (s.more taken).load table index = s.load table index := rfl
  by_cases present : Present (s.load table index)
  · by_cases big : Big (s.load table index)
    · obtain ⟨fault, failed⟩ := @pass_big s table index j prot privilege present big
      rw [failed] at run
      cases run
    · rw [pass_present present big] at run
      obtain ⟨rfl, rfl⟩ := Prod.mk.inj (Except.ok.inj run)
      exact pass_present (loaded ▸ present) (loaded ▸ big)
  · cases supply : s.frames with
    | nil =>
      rw [pass_empty present supply] at run
      cases run
    | cons page rest =>
      rw [pass_fresh present supply] at run
      obtain ⟨rfl, rfl⟩ := Prod.mk.inj (Except.ok.inj run)
      have behind : (s.more taken).frames = page :: (rest ++ taken) := congrArg (· ++ taken) supply
      exact pass_fresh (loaded ▸ present) behind

theorem map_tables_more {v lowest : Nat} (j table : Nat) (s : State) {t : Nat}
    (run : mapTables v lowest prot privilege j table s = .ok (s', t)) :
    mapTables v lowest prot privilege j table (s.more taken) = .ok (s'.more taken, t) := by
  induction j generalizing table s with
  | zero =>
    obtain ⟨rfl, rfl⟩ := Prod.mk.inj (Except.ok.inj run)
    rfl
  | succ j ih =>
    rw [mapTables] at run ⊢
    by_cases higher : j + 1 > lowest
    · rw [if_pos higher, bind_eq_ok] at run
      obtain ⟨⟨u, e⟩, pass, rest⟩ := run
      rw [if_pos higher, pass_more pass, bind_ok]
      exact ih (tableOf e) u rest
    · rw [if_neg higher] at run ⊢
      obtain ⟨rfl, rfl⟩ := Prod.mk.inj (Except.ok.inj run)
      rfl

theorem map_page_more {top v paddr : Nat} {pageSize : PageSize} (run : mapPage top v paddr pageSize prot cache privilege isGlobal s = .ok s') :
    mapPage top v paddr pageSize prot cache privilege isGlobal (s.more taken) = .ok (s'.more taken) := by
  unfold mapPage at run ⊢
  rw [bind_eq_ok] at run
  obtain ⟨⟨u, t⟩, tables, rest⟩ := run
  rw [map_tables_more levelCount top s tables, bind_ok, ← Except.ok.inj rest]
  rfl

theorem map_loop_more {top vaddr paddr length : Nat} (fuel i : Nat) (s : State)
    (run : mapLoop top vaddr paddr length prot cache privilege isGlobal fuel i s = .ok s') :
    mapLoop top vaddr paddr length prot cache privilege isGlobal fuel i (s.more taken) = .ok (s'.more taken) := by
  induction fuel generalizing i s with
  | zero =>
    rw [mapLoop] at run ⊢
    by_cases inside : i < length
    · rw [if_pos inside] at run
      cases run
    · rw [if_neg inside] at run ⊢
      rw [Except.ok.inj run]
  | succ fuel ih =>
    rw [mapLoop] at run ⊢
    by_cases inside : i < length
    · rw [if_pos inside] at run ⊢
      dsimp only at run ⊢
      rw [bind_eq_ok] at run
      obtain ⟨u, page, rest⟩ := run
      rw [map_page_more page, bind_ok]
      exact ih _ u rest
    · rw [if_neg inside] at run ⊢
      rw [Except.ok.inj run]

-- A call that succeeds does not depend on the pages behind those it takes.
theorem arch_ptm_map_more {top vaddr paddr length : Nat} (run : archPtmMap top vaddr paddr length prot cache privilege isGlobal s = .ok s') :
    archPtmMap top vaddr paddr length prot cache privilege isGlobal (s.more taken) = .ok (s'.more taken) := by
  unfold archPtmMap at run ⊢
  rw [bind_eq_ok] at run
  obtain ⟨_, first, run⟩ := run
  rw [bind_eq_ok] at run
  obtain ⟨_, second, run⟩ := run
  rw [bind_eq_ok] at run
  obtain ⟨_, third, run⟩ := run
  rw [first, bind_ok, second, bind_ok, third, bind_ok]
  exact map_loop_more _ 0 s run

end More

theorem sound_frames {top : Nat} {s : State} (sound : Sound top s) {frames : List Nat} (distinct : frames.Nodup)
    (fewer : ∀ page ∈ frames, page ∈ s.frames) : Sound top { s with frames := frames } :=
  ⟨sound.tree, distinct, fun page member => sound.placed page (fewer page member),
    fun v l t reach member => sound.fresh v l t reach (fewer t member), sound.granting, sound.leafy⟩

section Keeps

variable {top vaddr paddr length : Nat} {prot : Protection} {cache : Cache} {privilege : Privilege} {isGlobal : Bool} {s s' : State}

theorem map_loop_early (fuel i : Nat) (s : State) (sound : Sound top s)
    (run : mapLoop top vaddr paddr length prot cache privilege isGlobal fuel i s = .ok s') : s'.earlymemActive = s.earlymemActive := by
  induction fuel generalizing i s with
  | zero =>
    rw [mapLoop] at run
    by_cases inside : i < length
    · rw [if_pos inside] at run
      cases run
    · rw [if_neg inside] at run
      rw [Except.ok.inj run]
  | succ fuel ih =>
    rw [mapLoop] at run
    by_cases inside : i < length
    · rw [if_pos inside, bind_eq_ok] at run
      obtain ⟨u, page, rest⟩ := run
      rcases @map_page_spec top (add64 vaddr i) (add64 paddr i) (cursize vaddr paddr (length - i)) prot cache privilege isGlobal s sound with
        ⟨v, done, writes⟩ | ⟨_, failed⟩ | ⟨_, fault, failed⟩
      · rw [done, Except.ok.injEq] at page
        subst page
        exact (ih _ v writes.sound rest).trans writes.early
      · rw [failed] at page
        cases page
      · rw [failed] at page
        cases page
    · rw [if_neg inside] at run
      rw [Except.ok.inj run]

-- arch_ptm_map on a sound tree, with what it keeps of the supply.
theorem arch_ptm_map_spec (sound : Sound top s) (canonical : ∀ d < length, Canonical (vaddr + d)) (vaddrAligned : vaddr % pageGranularity = 0)
    (paddrAligned : paddr % pageGranularity = 0) (lengthAligned : length % pageGranularity = 0) (fits : paddr + length ≤ 2 ^ 52)
    (clear : ∀ d < length, ∀ T, walk s.memory top (vaddr + d) = some T → T.level = 1) :
    (∃ s', archPtmMap top vaddr paddr length prot cache privilege isGlobal s = .ok s' ∧
        (∀ d < length, MapsTo s'.memory top (vaddr + d) (paddr + d) prot privilege) ∧
        (∀ a, ¬ (vaddr ≤ a ∧ a < vaddr + length) → walk s'.memory top a = walk s.memory top a) ∧
        s'.earlymemActive = s.earlymemActive) ∨
      archPtmMap top vaddr paddr length prot cache privilege isGlobal s = .error (outOfMemory s) := by
  have start : Aligned vaddr paddr length 0 := ⟨rfl, fun _ _ _ => rfl, fun _ _ _ => rfl⟩
  have enough : length ≤ 0 + length / pageGranularity * pageGranularity := by
    unfold pageGranularity at lengthAligned ⊢
    omega
  rw [arch_ptm_map_eq vaddrAligned paddrAligned lengthAligned]
  rcases map_loop_spec canonical vaddrAligned paddrAligned lengthAligned fits (length / pageGranularity) 0 s sound start
    (fun d _ high => clear d high) enough with ⟨s', run, maps, keeps⟩ | ⟨_, failed⟩
  · exact .inl ⟨s', run, fun d high => maps d (Nat.zero_le _) high, keeps, map_loop_early _ 0 s sound run⟩
  · exact .inr failed

-- One page is mapped by an entry of the lowest level.
theorem arch_ptm_map_small (sound : Sound top s) (canonical : ∀ d < pageGranularity, Canonical (vaddr + d))
    (vaddrAligned : vaddr % pageGranularity = 0) (paddrAligned : paddr % pageGranularity = 0) (fits : paddr + pageGranularity ≤ 2 ^ 52)
    (run : archPtmMap top vaddr paddr pageGranularity prot cache privilege isGlobal s = .ok s') :
    ∀ d < pageGranularity, ∀ T, walk s'.memory top (vaddr + d) = some T → T.level = 1 := by
  have bytes : PageSize.size4K.bytes = pageGranularity := rfl
  have size : cursize vaddr paddr (pageGranularity - 0) = .size4K := by
    unfold cursize
    rw [if_neg fun both => absurd both.2.2 (by decide), if_neg fun both => absurd both.2.2 (by decide)]
  have canonicalV : Canonical vaddr := canonical 0 (by decide)
  have small : vaddr + 0 < 2 ^ 64 := by
    unfold Canonical at canonicalV
    omega
  rw [arch_ptm_map_eq vaddrAligned paddrAligned (by decide), show pageGranularity / pageGranularity = 0 + 1 from rfl, mapLoop,
    if_pos (by decide)] at run
  dsimp only at run
  rw [size, add64_eq small, add64_eq (show paddr + 0 < 2 ^ 64 by unfold pageGranularity at fits; omega), Nat.add_zero, Nat.add_zero,
    bind_eq_ok] at run
  obtain ⟨u, page, rest⟩ := run
  rw [mapLoop, if_neg (by decide), Except.ok.injEq] at rest
  subst rest
  rcases @map_page_spec top vaddr paddr .size4K prot cache privilege isGlobal s sound with ⟨v, done, writes⟩ | ⟨_, failed⟩ | ⟨_, fault, failed⟩
  · rw [page, Except.ok.injEq] at done
    subst done
    intro d inside T found
    have canonicalD := canonical d inside
    have same : SameSlot (lowestIndex .size4K) vaddr (vaddr + d) :=
      (slot_iff_page canonicalV (bytes ▸ vaddrAligned) canonicalD).mpr ⟨Nat.le_add_right _ _, by rw [bytes]; omega⟩
    rw [walk, if_pos canonicalD, writes.here _ same, translateLeaf,
      if_pos ⟨leaf_present paddr .size4K prot cache privilege isGlobal, by decide⟩] at found
    rw [← Option.some.inj found]
    rfl
  · rw [failed] at page
    cases page
  · rw [failed] at page
    cases page

end Keeps

section Init

variable {top : Nat}

def protRWX : Protection := ⟨true, true, true⟩

-- The entry of a slot that the init target shares is that of a new table everything is allowed below.
theorem share_entry_passed (page : Nat) : entryFlagPresent ||| entryFlagRw ||| (BitVec.ofNat 64 page &&& entrylAddressMask) =
    grantEntry protRWX .kernel (freshEntry page protRWX) := by
  show _ = (entryFlagPresent ||| (BitVec.ofNat 64 page &&& entrylAddressMask)) ||| entryFlagRw ||| 0#64
  rw [BitVec.or_zero, BitVec.or_assoc, BitVec.or_assoc, BitVec.or_comm entryFlagRw]

-- The loop of the init target up to an index: nothing is mapped, and the slots from it on are empty.
structure Shares (top n : Nat) (s : State) : Prop where
  sound : Sound top s
  empty : ∀ a, walk s.memory top a = none
  zero : ∀ i, n ≤ i → i < 512 → s.memory (top + 8 * i) = 0

theorem share_slot_shares {n : Nat} {s s' : State} (shares : Shares top n s) (small : n < 512) (run : shareSlot top s n = .ok s') :
    Shares top (n + 1) s' ∧ s'.earlymemActive = s.earlymemActive := by
  have index : vaddrToIndex (n * 2 ^ 39) levelCount = n := by
    rw [index_eq (by decide), show levelToPagesize levelCount = 2 ^ 39 from rfl, Nat.mul_div_cancel _ (by decide), Nat.mod_eq_of_lt small]
  have opened : Opened protRWX .kernel s.memory top (n * 2 ^ 39) levelCount := fun k u higher other =>
    absurd (reaches_level other) (Nat.not_le_of_lt higher)
  have absent : ¬ Present (s.memory (top + 8 * vaddrToIndex (n * 2 ^ 39) levelCount)) := by
    rw [index, shares.zero n (Nat.le_refl n) small]
    decide
  cases supply : s.frames with
  | nil =>
    simp only [shareSlot, allocPage, supply] at run
    cases run
  | cons page rest =>
    simp only [shareSlot, allocPage, supply] at run
    rw [bind_ok, Except.ok.injEq, share_entry_passed] at run
    obtain ⟨s'', e, pass, prepares, _⟩ := pass_new shares.sound .top opened (by decide) absent supply
    rw [pass_fresh absent supply, index, run] at pass
    obtain ⟨rfl, _⟩ := Prod.mk.inj (Except.ok.inj pass)
    have inSupply : page ∈ s.frames := supply ▸ List.mem_cons_self
    have apart : top ≠ page := fun same => shares.sound.fresh 0 levelCount top .top (same ▸ inSupply)
    refine ⟨⟨prepares.sound, fun a => ?_, fun i above bound => ?_⟩, prepares.early⟩
    · rw [walk, prepares.same a]
      exact shares.empty a
    · have other : top + 8 * i ≠ top + 8 * n := by omega
      rw [← run, store_memory, Function.update_of_ne other]
      show memClear s.memory page pageGranularity (top + 8 * i) = 0
      rw [memClear, if_neg (word_outside shares.sound.tree.aligned (shares.sound.placed page inSupply).1 bound apart)]
      exact shares.zero i (by omega) bound

theorem share_loop_shares {n count : Nat} {s s' : State} (shares : Shares top n s) (bound : n + count ≤ 512)
    (run : (List.range' n count).foldlM (shareSlot top) s = .ok s') : Shares top (n + count) s' ∧ s'.earlymemActive = s.earlymemActive := by
  induction count generalizing n s with
  | zero =>
    rw [List.range'_zero, List.foldlM_nil] at run
    obtain rfl : s = s' := Except.ok.inj run
    exact ⟨shares, rfl⟩
  | succ count ih =>
    rw [List.range'_succ, List.foldlM_cons, bind_eq_ok] at run
    obtain ⟨u, first, rest⟩ := run
    obtain ⟨sharesU, early⟩ := share_slot_shares shares (by omega) first
    obtain ⟨shares', early'⟩ := ih sharesU (by omega) rest
    rw [show n + (count + 1) = n + 1 + count by omega]
    exact ⟨shares', early'.trans early⟩

-- The global address space that the init target makes maps nothing.
theorem init_target_shares {boot s : State} (distinct : boot.frames.Nodup)
    (placed : ∀ page ∈ boot.frames, page % pageGranularity = 0 ∧ page < 2 ^ 52) (run : ptmInitTarget boot = .ok (s, top)) :
    Shares top 512 s ∧ s.earlymemActive = boot.earlymemActive := by
  unfold ptmInitTarget at run
  cases supply : boot.frames with
  | nil =>
    simp only [allocPage, supply] at run
    cases run
  | cons page rest =>
    simp only [allocPage, supply] at run
    rw [bind_ok, bind_eq_ok] at run
    obtain ⟨u, loop, last⟩ := run
    obtain ⟨rfl, rfl⟩ := Prod.mk.inj (Except.ok.inj last)
    rw [supply] at distinct placed
    have blank : Blank page { boot with memory := memClear boot.memory page pageGranularity, frames := rest } :=
      ⟨(placed page List.mem_cons_self).1, fun i small => if_pos (word_inside small), distinct.of_cons,
        fun other member => placed other (List.mem_cons_of_mem _ member), (List.nodup_cons.mp distinct).1⟩
    obtain ⟨shares, early⟩ := @share_loop_shares page 256 256 _ _ ⟨blank_sound blank, fun a => blank_walk blank a,
      fun i _ small => blank.empty i small⟩ (by decide) loop
    exact ⟨shares, early⟩

end Init

end Elysium.Ptm
