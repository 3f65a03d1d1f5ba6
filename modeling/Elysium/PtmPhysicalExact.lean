import Elysium.PtmPhysical

set_option autoImplicit false

namespace Elysium.Ptm

open Vm (Protection Cache Privilege protRW kernelspaceStart)

-- Every entry the processor can come to.
def AllSquared (top : Nat) (s : State) : Prop :=
  ∀ v l t, Reaches s.memory top v l t → Squared l (s.memory (t + 8 * vaddrToIndex v l))

theorem small_squared {level : Nat} {entry : Entry} (descends : Descends level entry) (other : Nat) : Squared other entry := by
  intro _ big
  exact absurd big descends.2.2

theorem zero_squared (level : Nat) : Squared level 0 := by
  intro present
  exact absurd present (by decide)

-- map_page keeps the address of a big page whole, however much of it the mask lets through.
theorem leaf_squared {paddr : Nat} {pageSize : PageSize} (aligned : paddr % pageSize.bytes = 0) (prot : Protection) (cache : Cache)
    (privilege : Privilege) (isGlobal : Bool) :
    Squared (lowestIndex pageSize) (leafEntry paddr pageSize prot cache privilege isGlobal) := by
  intro _ _ high
  have big : pageSize ≠ .size4K := by
    rintro rfl
    exact absurd high (by decide)
  have wide : ∀ k : Fin 64, entryhAddressMask.getLsbD k = decide (16 ≤ k.val ∧ k.val < 52) := by decide
  have middle : 21 ≤ pageSize.shift := by
    cases pageSize with
    | size4K => exact absurd rfl big
    | size2M => decide
    | size1G => decide
  have clear : ∀ k : Fin 64, 16 ≤ k.val → k.val < pageSize.shift → (cacheToX86Flags cache pageSize).getLsbD k = false := by
    cases cache <;> cases pageSize <;> decide
  apply BitVec.eq_of_getLsbD_eq
  intro k small
  rw [BitVec.getLsbD_and, BitVec.getLsbD_and, frame_mask_bit, wide ⟨k, small⟩]
  by_cases between : 16 ≤ k ∧ k < pageSize.shift
  · have zero : paddr.testBit k = false := by
      have bits := congrArg (fun n => n.testBit k) aligned
      rw [bytes_shift, Nat.testBit_mod_two_pow, Nat.zero_testBit, decide_eq_true between.2, Bool.true_and] at bits
      exact bits
    have absent : (leafEntry paddr pageSize prot cache privilege isGlobal).getLsbD k = false := by
      rw [leaf_bit, BitVec.getLsbD_ofNat, zero, clear ⟨k, small⟩ between.1 between.2]
      have short : pageSize.shift ≤ 30 := by cases pageSize <;> decide
      simp [show k ≠ 0 by omega, show k ≠ 1 by omega, show k ≠ 2 by omega, show k ≠ 7 by omega, show k ≠ 8 by omega,
        show k ≠ 63 by omega]
    rw [absent, Bool.false_and, Bool.false_and]
  · have same : (16 ≤ k ∧ k < 52) ↔ (pageSize.shift ≤ k ∧ k < 52) := by omega
    simp only [same]

section Store

variable {top : Nat} {s : State} {v l t : Nat} (sound : Sound top s) (reach : Reaches s.memory top v l t) (squared : AllSquared top s)

include sound reach squared

-- The entry stored is the only one that could be new.
theorem stored_squared {entry : Entry} (own : Squared l entry) {w k u : Nat} (other : Reaches s.memory top w k u) :
    Squared k (Function.update s.memory (t + 8 * vaddrToIndex v l) entry (u + 8 * vaddrToIndex w k)) := by
  rw [read_store sound.tree reach other]
  by_cases here : k = l ∧ SameSlot l v w
  · rw [if_pos here, here.1]
    exact own
  · rw [if_neg here]
    exact squared w k u other

theorem pass_old_squared {prot : Protection} {privilege : Privilege} (descends : Descends l (s.memory (t + 8 * vaddrToIndex v l))) :
    AllSquared top (s.store t (vaddrToIndex v l) (grantEntry prot privilege (openEntry prot (s.memory (t + 8 * vaddrToIndex v l))))) := by
  have keeps := passed_descends prot privilege (s.memory (t + 8 * vaddrToIndex v l)) l
  intro w k u other
  rw [store_memory] at other ⊢
  have old := (store_reaches sound.tree reach keeps (fun _ => passed_table prot privilege _) w k u).mp other
  exact stored_squared sound reach squared (small_squared (keeps.mpr descends) l) old

theorem pass_new_squared {prot : Protection} {privilege : Privilege} {page : Nat} {rest : List Nat} (below : 1 < l)
    (supply : s.frames = page :: rest) :
    AllSquared top ({ s with memory := memClear s.memory page pageGranularity, frames := rest }.store t (vaddrToIndex v l)
      (grantEntry prot privilege (freshEntry page prot))) := by
  have inSupply : page ∈ s.frames := supply ▸ List.mem_cons_self
  obtain ⟨aligned, fits⟩ := sound.placed page inSupply
  have apart : ∀ w k u, Reaches s.memory top w k u → u ≠ page := fun w k u other same => sound.fresh w k u other (same ▸ inSupply)
  have agree := clear_agrees sound.tree aligned apart
  have tree := transport_tree agree sound.tree
  have transported := transport_reaches agree
  have reachC := (transported v l t).mpr reach
  have descends := fresh_descends below page prot privilege
  have points := fresh_table aligned fits prot privilege
  have apartC : ∀ w k u, Reaches (memClear s.memory page pageGranularity) top w k u → u ≠ page :=
    fun w k u other => apart w k u ((transported w k u).mp other)
  intro w k u other
  rw [store_memory] at other ⊢
  rcases grow_reaches tree reachC points (clear_zero s.memory page) apartC other with old | ⟨_, _, rfl⟩
  · rw [read_store tree reachC old]
    by_cases here : k = l ∧ SameSlot l v w
    · rw [if_pos here]
      exact small_squared descends k
    · rw [if_neg here, agree w k u ((transported w k u).mp old)]
      exact squared w k u ((transported w k u).mp old)
  · rw [grown_blank tree reachC points (clear_zero s.memory _) apartC]
    exact zero_squared k

theorem pass_squared {prot : Protection} {privilege : Privilege} {s' : State} {entry : Entry} (below : 1 < l)
    (run : passEntry t (vaddrToIndex v l) l prot privilege s = .ok (s', entry)) : AllSquared top s' := by
  by_cases present : Present (s.load t (vaddrToIndex v l))
  · by_cases big : Big (s.load t (vaddrToIndex v l))
    · obtain ⟨fault, failed⟩ := @pass_big s t (vaddrToIndex v l) l prot privilege present big
      rw [failed] at run
      cases run
    · rw [pass_present present big, Except.ok.injEq, Prod.mk.injEq] at run
      rw [← run.1]
      exact pass_old_squared sound reach squared ⟨below, present, big⟩
  · cases supply : s.frames with
    | nil =>
        rw [pass_empty present supply] at run
        cases run
    | cons page rest =>
        rw [pass_fresh present supply, Except.ok.injEq, Prod.mk.injEq] at run
        rw [← run.1]
        exact pass_new_squared sound reach squared below supply

theorem leaf_store_squared {entry : Entry} (stops : ¬ Descends l entry) (own : Squared l entry) :
    AllSquared top (s.store t (vaddrToIndex v l) entry) := by
  intro w k u other
  rw [store_memory] at other ⊢
  exact stored_squared sound reach squared own (page_reaches sound.tree reach stops other)

end Store

theorem map_tables_squared {top v lowest : Nat} {prot : Protection} {privilege : Privilege} (positive : 1 ≤ lowest) (j t : Nat)
    {s s' : State} {t' : Nat} (sound : Sound top s) (reach : Reaches s.memory top v j t)
    (opened : Opened prot privilege s.memory top v j) (above : lowest ≤ j) (squared : AllSquared top s)
    (run : mapTables v lowest prot privilege j t s = .ok (s', t')) : AllSquared top s' := by
  induction j generalizing t s with
  | zero => omega
  | succ j ih =>
      rw [mapTables] at run
      split at run
      · rename_i higher
        rw [bind_eq_ok] at run
        obtain ⟨⟨u, e⟩, pass, rest⟩ := run
        have squaredU := pass_squared sound reach squared (by omega) pass
        rcases pass_spec sound reach opened (by omega) with ⟨u', e', again, prepares, reachU, openedU⟩ | ⟨_, failed⟩ | ⟨_, fault, failed⟩
        · obtain ⟨rfl, rfl⟩ := Prod.mk.inj (Except.ok.inj (pass.symm.trans again))
          exact ih (tableOf e) prepares.sound reachU openedU (by omega) squaredU rest
        · rw [failed] at pass
          cases pass
        · rw [failed] at pass
          cases pass
      · obtain ⟨rfl, _⟩ := Prod.mk.inj (Except.ok.inj run)
        exact squared

section Map

variable {top v paddr : Nat} {pageSize : PageSize} {prot : Protection} {cache : Cache} {privilege : Privilege} {isGlobal : Bool}

theorem map_page_squared {s s' : State} (sound : Sound top s) (squared : AllSquared top s) (aligned : paddr % pageSize.bytes = 0)
    (run : mapPage top v paddr pageSize prot cache privilege isGlobal s = .ok s') : AllSquared top s' := by
  have positive : 1 ≤ lowestIndex pageSize := by cases pageSize <;> decide
  have bound : lowestIndex pageSize ≤ levelCount := by cases pageSize <;> decide
  have opened : Opened prot privilege s.memory top v levelCount := fun k u higher other =>
    absurd (reaches_level other) (Nat.not_le_of_lt higher)
  rw [mapPage, bind_eq_ok] at run
  obtain ⟨⟨u, t⟩, tables, stored⟩ := run
  have squaredU := map_tables_squared positive levelCount top sound .top opened bound squared tables
  rcases map_tables_spec positive levelCount top s sound .top opened bound with
    ⟨u', t', again, prepares, reach, _⟩ | ⟨_, failed⟩ | ⟨_, fault, failed⟩
  · obtain ⟨rfl, rfl⟩ := Prod.mk.inj (Except.ok.inj (tables.symm.trans again))
    rw [← Except.ok.inj stored]
    exact leaf_store_squared prepares.sound reach squaredU (leaf_stops paddr pageSize prot cache privilege isGlobal)
      (leaf_squared aligned prot cache privilege isGlobal)
  · rw [failed] at tables
    cases tables
  · rw [failed] at tables
    cases tables

variable {vaddr length : Nat} (vaddrAligned : vaddr % pageGranularity = 0) (paddrAligned : paddr % pageGranularity = 0)
  (lengthAligned : length % pageGranularity = 0)

include vaddrAligned paddrAligned lengthAligned

-- The sum may wrap, which leaves it a multiple of every page size.
theorem map_loop_squared (fuel i : Nat) {s s' : State} (sound : Sound top s) (squared : AllSquared top s)
    (alignedI : Aligned vaddr paddr length i)
    (run : mapLoop top vaddr paddr length prot cache privilege isGlobal fuel i s = .ok s') : AllSquared top s' := by
  induction fuel generalizing i s with
  | zero =>
      rw [mapLoop] at run
      split at run
      · cases run
      · rw [← Except.ok.inj run]
        exact squared
  | succ fuel ih =>
      rw [mapLoop] at run
      split at run
      · rename_i inside
        obtain ⟨_, paddrFits, _, alignedNext⟩ := cursize_spec vaddrAligned paddrAligned lengthAligned inside alignedI
        rw [bind_eq_ok] at run
        obtain ⟨u, page, rest⟩ := run
        have whole : (add64 paddr i) % (cursize vaddr paddr (length - i)).bytes = 0 := by
          have divides : (cursize vaddr paddr (length - i)).bytes ∣ 2 ^ 64 := by
            cases cursize vaddr paddr (length - i) <;> decide
          rw [add64, Nat.mod_mod_of_dvd _ divides, paddrFits]
        have squaredU := map_page_squared sound squared whole page
        rcases @map_page_spec top (add64 vaddr i) (add64 paddr i) (cursize vaddr paddr (length - i)) prot cache privilege isGlobal s
          sound with ⟨u', done, writes⟩ | ⟨_, failed⟩ | ⟨_, fault, failed⟩
        · obtain rfl := Except.ok.inj (page.symm.trans done)
          exact ih _ writes.sound squaredU alignedNext rest
        · rw [failed] at page
          cases page
        · rw [failed] at page
          cases page
      · rw [← Except.ok.inj run]
        exact squared

end Map

theorem arch_ptm_map_squared {top vaddr paddr length : Nat} {prot : Protection} {cache : Cache} {privilege : Privilege}
    {isGlobal : Bool} {s s' : State} (sound : Sound top s) (squared : AllSquared top s)
    (run : archPtmMap top vaddr paddr length prot cache privilege isGlobal s = .ok s') : AllSquared top s' := by
  by_cases vaddrAligned : vaddr % pageGranularity = 0
  · by_cases paddrAligned : paddr % pageGranularity = 0
    · by_cases lengthAligned : length % pageGranularity = 0
      · rw [arch_ptm_map_eq vaddrAligned paddrAligned lengthAligned] at run
        exact map_loop_squared vaddrAligned paddrAligned lengthAligned _ 0 sound squared ⟨rfl, fun _ _ _ => rfl, fun _ _ _ => rfl⟩ run
      · simp [archPtmMap, assertThat, vaddrAligned, paddrAligned, lengthAligned, bind, Except.bind] at run
    · simp [archPtmMap, assertThat, vaddrAligned, paddrAligned, bind, Except.bind] at run
  · simp [archPtmMap, assertThat, vaddrAligned, bind, Except.bind] at run

theorem built_squared {top : Nat} {s : State} (built : Built top s) : AllSquared top s := by
  induction built with
  | blank s blank =>
      intro v l t reach
      obtain ⟨rfl, rfl⟩ := blank_reaches blank reach
      rw [blank.empty _ (index_lt _ _)]
      exact zero_squared _
  | map s s' vaddr paddr length prot cache privilege isGlobal previous run ih =>
      exact arch_ptm_map_squared (built_sound previous) ih run

-- arch_ptm_physical answers as the processor translates: the same addresses are there, at the
-- frame of their page plus the offset in it.
structure FindsPhysical (top : Nat) (s : State) (vaddr : Nat) (answer : Option Nat) : Prop where
  returns : archPtmPhysical top vaddr s = .ok answer
  present : answer.isSome ↔ (walk s.memory top vaddr).isSome
  address : ∀ paddr T, answer = some paddr → walk s.memory top vaddr = some T → paddr = T.physical

theorem arch_ptm_physical_exact_iff (top : Nat) (s : State) (built : Built top s) (vaddr : Nat) (canonical : Canonical vaddr) :
    (∃ answer, FindsPhysical top s vaddr answer) ↔ vaddr < 2 ^ 47 ∨ walk s.memory top vaddr = none := by
  have found := arch_ptm_physical_eq (built_sound built) canonical fun l t reach => built_squared built vaddr l t reach
  cases walked : walk s.memory top vaddr with
  | none =>
      rw [walked] at found
      exact iff_of_true ⟨none, found, by rw [walked]; simp, by simp⟩ (.inr rfl)
  | some T =>
      rw [walked, Option.map_some] at found
      by_cases low : vaddr < 2 ^ 47
      · rw [show vaddr / 2 ^ 52 = 0 from Nat.div_eq_of_lt (by omega), Nat.zero_mul, Nat.add_zero] at found
        refine iff_of_true ⟨some T.physical, found, by rw [walked]; simp, ?_⟩ (.inl low)
        intro paddr T' same again
        rw [walked, Option.some.injEq] at again
        rw [← again, ← Option.some.inj same]
      · have absent : ¬ (vaddr < 2 ^ 47 ∨ some T = none) := by simpa using low
        refine iff_of_false ?_ absent
        rintro ⟨answer, finds⟩
        obtain rfl := Except.ok.inj (finds.returns.symm.trans found)
        have same := finds.address _ T rfl walked
        have high := canonical.resolve_left low
        unfold kernelspaceStart at high
        omega

-- A page of the kernel half.
def kernelPage : State := returned (blankState [])
  (archPtmMap 0x1000 kernelspaceStart 0x8000 0x1000 protRW .standard .kernel true (blankState [0x2000, 0x3000, 0x4000]))

theorem kernel_page_built : Built 0x1000 kernelPage :=
  .map (blankState [0x2000, 0x3000, 0x4000]) kernelPage kernelspaceStart 0x8000 0x1000 protRW .standard .kernel true
    (.blank _ blank_state_blank) rfl

theorem arch_ptm_physical_exact_iff_page : ∃ answer, FindsPhysical 0x1000 lonePage 0x200010 answer :=
  (arch_ptm_physical_exact_iff 0x1000 lonePage lone_page_built 0x200010 (by decide)).mpr (by decide)

-- The page is found at 0xFFF0000000008000 instead of 0x8000.
theorem arch_ptm_physical_keeps_high_bits :
    Built 0x1000 kernelPage ∧ Canonical kernelspaceStart ∧ ¬ ∃ answer, FindsPhysical 0x1000 kernelPage kernelspaceStart answer := by
  refine ⟨kernel_page_built, by decide, ?_⟩
  rintro ⟨answer, finds⟩
  have run : archPtmPhysical 0x1000 kernelspaceStart kernelPage = .ok (some 0xFFF0000000008000) := rfl
  obtain ⟨T, walked, physical⟩ : ∃ T, walk kernelPage.memory 0x1000 kernelspaceStart = some T ∧ T.physical = 0x8000 := ⟨_, rfl, rfl⟩
  obtain rfl := Except.ok.inj (finds.returns.symm.trans run)
  have same := finds.address _ T rfl walked
  omega

end Elysium.Ptm
