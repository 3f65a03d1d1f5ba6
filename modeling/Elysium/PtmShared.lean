import Mathlib.Logic.Relation
import Elysium.PtmRewrite

set_option autoImplicit false

namespace Elysium.Ptm

open Vm (Protection Cache Privilege kernelspaceStart userspaceEnd protRW)

-- Every page in use as a table has one level, whichever address spaces it belongs
-- to; kind is 0 for the other pages.
structure Kinds (kind : Nat → Nat) (s : State) : Prop where
  aligned : ∀ t, kind t ≠ 0 → t % pageGranularity = 0
  below : ∀ t l, kind t = l + 1 → ∀ i < 512, Descends (l + 1) (s.memory (t + 8 * i)) → kind (tableOf (s.memory (t + 8 * i))) = l
  distinct : s.frames.Nodup
  placed : ∀ page ∈ s.frames, page % pageGranularity = 0 ∧ page < 2 ^ 52
  free : ∀ page ∈ s.frames, kind page = 0

-- The entries 256..511 of every top level table.
def Shared (upper : Nat → Entry) (kind : Nat → Nat) (s : State) : Prop :=
  ∀ t, kind t = levelCount → ∀ i, 256 ≤ i → i < 512 → s.memory (t + 8 * i) = upper i

-- Nothing is held back that a page below could allow, except to user mode.
structure Unrestricted (entry : Entry) : Prop where
  present : entry.getLsbD 0 = true
  write : entry.getLsbD 1 = true
  small : entry.getLsbD 7 = false
  exec : entry.getLsbD 63 = false

theorem unrestricted_passed {entry : Entry} (unrestricted : Unrestricted entry) (prot : Protection) :
    rewritePassed prot entry = entry := by
  refine BitVec.eq_of_getLsbD_eq fun k small => ?_
  rw [rewrite_passed_bit prot entry small]
  by_cases write : k = 1
  · rw [write, unrestricted.write]
    simp
  · by_cases exec : k = 63
    · rw [exec, unrestricted.exec]
      simp
    · simp [write, exec]

theorem unrestricted_granted {entry : Entry} (unrestricted : Unrestricted entry) (prot : Protection) :
    grantEntry prot .kernel (openEntry prot entry) = entry := by
  refine BitVec.eq_of_getLsbD_eq fun k small => ?_
  rw [grant_bit, open_bit small]
  by_cases write : k = 1
  · rw [write, unrestricted.write]
    simp
  · by_cases exec : k = 63
    · rw [exec, unrestricted.exec]
      simp
    · simp [write, exec]

section Words

variable {t u i k : Nat}

-- Words of tables are the same word only in the same table.
theorem word_inj (alignedT : t % pageGranularity = 0) (alignedU : u % pageGranularity = 0) (smallI : i < 512) (smallK : k < 512)
    (same : t + 8 * i = u + 8 * k) : t = u ∧ i = k := by
  unfold pageGranularity at alignedT alignedU
  omega

theorem word_outside (alignedT : t % pageGranularity = 0) (alignedU : u % pageGranularity = 0) (small : i < 512) (apart : t ≠ u) :
    ¬ (u ≤ t + 8 * i ∧ t + 8 * i < u + pageGranularity) := by
  unfold pageGranularity at *
  omega

theorem word_inside (small : i < 512) : u ≤ u + 8 * i ∧ u + 8 * i < u + pageGranularity := by
  unfold pageGranularity
  omega

end Words

section Store

variable {kind : Nat → Nat} {upper : Nat → Entry} {s : State} {t l i : Nat} {entry : Entry}

theorem store_word (kinds : Kinds kind s) (isTable : kind t ≠ 0) (small : i < 512) {u k : Nat} (other : kind u ≠ 0) (smallK : k < 512) :
    (s.store t i entry).memory (u + 8 * k) = if u = t ∧ k = i then entry else s.memory (u + 8 * k) := by
  rw [store_memory]
  by_cases same : u = t ∧ k = i
  · rw [if_pos same, same.1, same.2, Function.update_self]
  · rw [if_neg same, Function.update_of_ne]
    exact fun equal => same (word_inj (kinds.aligned u other) (kinds.aligned t isTable) smallK small equal)

theorem store_kinds (kinds : Kinds kind s) (isTable : kind t = l + 1) (small : i < 512)
    (points : Descends (l + 1) entry → kind (tableOf entry) = l) : Kinds kind (s.store t i entry) := by
  refine ⟨kinds.aligned, fun u m level k smallK => ?_, kinds.distinct, kinds.placed, kinds.free⟩
  rw [store_word kinds (by omega) small (by omega) smallK]
  by_cases same : u = t ∧ k = i
  · obtain rfl : l = m := by
      rw [same.1, isTable] at level
      omega
    rw [if_pos same]
    exact points
  · rw [if_neg same]
    exact kinds.below u m level k smallK

theorem store_shared (kinds : Kinds kind s) (shared : Shared upper kind s) (isTable : kind t ≠ 0) (small : i < 512)
    (same : kind t = levelCount → 256 ≤ i → entry = upper i) : Shared upper kind (s.store t i entry) := by
  intro u top k high smallK
  rw [store_word kinds isTable small (by rw [top]; decide) smallK]
  by_cases here : u = t ∧ k = i
  · rw [if_pos here, here.2]
    exact same (here.1 ▸ top) (here.2 ▸ high)
  · rw [if_neg here]
    exact shared u top k high smallK

end Store

-- Tables keep their level, and pages may become tables.
def Extends (kind kind' : Nat → Nat) : Prop := ∀ t, kind t ≠ 0 → kind' t = kind t

theorem extends_trans {kind kind' kind'' : Nat → Nat} (first : Extends kind kind') (second : Extends kind' kind'') :
    Extends kind kind'' := by
  intro t isTable
  rw [second t (by rw [first t isTable]; exact isTable), first t isTable]

section Alloc

variable {kind : Nat → Nat} {s s' : State} {page : Nat}

-- A page that becomes a table of a level is empty; what was a table stays as it was.
theorem alloc_kinds (kinds : Kinds kind s) (run : allocPage s = .ok (s', page)) (l : Nat) :
    Kinds (Function.update kind page l) s' ∧ Extends kind (Function.update kind page l) ∧
      page % pageGranularity = 0 ∧ page < 2 ^ 52 ∧ kind page = 0 ∧ (∀ i < 512, s'.memory (page + 8 * i) = 0) ∧
      ∀ t, kind t ≠ 0 → ∀ i < 512, s'.memory (t + 8 * i) = s.memory (t + 8 * i) := by
  unfold allocPage at run
  cases supply : s.frames with
  | nil =>
      rw [supply] at run
      cases run
  | cons frame rest =>
      rw [supply, Except.ok.injEq, Prod.mk.injEq] at run
      obtain ⟨rfl, rfl⟩ := run
      have listed : frame ∈ s.frames := by rw [supply]; exact List.mem_cons_self
      obtain ⟨aligned, fits⟩ := kinds.placed frame listed
      have unused := kinds.free frame listed
      have extended : Extends kind (Function.update kind frame l) := by
        intro t isTable
        rw [Function.update_of_ne]
        exact fun same => isTable (same ▸ unused)
      have cleared : ∀ i < 512, memClear s.memory frame pageGranularity (frame + 8 * i) = 0 := fun i small =>
        if_pos (word_inside small)
      have kept : ∀ t, kind t ≠ 0 → ∀ i < 512, memClear s.memory frame pageGranularity (t + 8 * i) = s.memory (t + 8 * i) := by
        intro t isTable i small
        exact if_neg (word_outside (kinds.aligned t isTable) aligned small fun same => isTable (same ▸ unused))
      have nodup := kinds.distinct
      rw [supply, List.nodup_cons] at nodup
      refine ⟨⟨fun t isTable => ?_, fun t m level i small => ?_, nodup.2, fun p later => ?_, fun p later => ?_⟩, extended, aligned, fits,
        unused, cleared, kept⟩
      · by_cases same : t = frame
        · rw [same]
          exact aligned
        · rw [Function.update_of_ne same] at isTable
          exact kinds.aligned t isTable
      · dsimp only
        by_cases same : t = frame
        · rw [same, cleared i small]
          exact fun descends => absurd descends (zero_stops _)
        · rw [Function.update_of_ne same] at level
          rw [kept t (by omega) i small]
          intro descends
          have target := kinds.below t m level i small descends
          have above := descends.1
          rw [extended _ (by omega), target]
      · exact kinds.placed p (by rw [supply]; exact List.mem_cons_of_mem _ later)
      · have apart : p ≠ frame := fun same => nodup.1 (same ▸ later)
        rw [Function.update_of_ne apart]
        exact kinds.free p (by rw [supply]; exact List.mem_cons_of_mem _ later)

end Alloc

section Map

variable {kind : Nat → Nat} {upper : Nat → Entry} {s s' : State} {prot : Protection} {privilege : Privilege}
  (unrestricted : ∀ i, 256 ≤ i → i < 512 → Unrestricted (upper i))

include unrestricted

-- User mode is only ever let through the lower half of a top level table.
theorem pass_kinds {t j i : Nat} {entry : Entry} (kinds : Kinds kind s) (shared : Shared upper kind s) (isTable : kind t = j + 1)
    (deep : 1 ≤ j) (bound : j < levelCount) (small : i < 512) (allowed : j + 1 = levelCount → i < 256 ∨ privilege = .kernel)
    (run : passEntry t i (j + 1) prot privilege s = .ok (s', entry)) :
    ∃ kind', Kinds kind' s' ∧ Shared upper kind' s' ∧ Extends kind kind' ∧ kind' (tableOf entry) = j := by
  unfold passEntry at run
  dsimp only at run
  by_cases absent : s.load t i &&& entryFlagPresent = 0
  · rw [if_pos absent, bind_eq_ok] at run
    obtain ⟨⟨s₂, page⟩, taken, made⟩ := run
    rw [bind_ok, Except.ok.injEq, Prod.mk.injEq] at made
    obtain ⟨rfl, rfl⟩ := made
    obtain ⟨kinds', extended, aligned, fits, unused, _, kept⟩ := alloc_kinds kinds taken j
    have table := @fresh_table page aligned fits prot privilege
    have isTable' : Function.update kind page j t = j + 1 := by rw [extended t (by omega), isTable]
    have points : Function.update kind page j (tableOf (grantEntry prot privilege (freshEntry page prot))) = j := by
      rw [table, Function.update_self]
    have shared' : Shared upper (Function.update kind page j) s₂ := by
      intro u top k high smallK
      have old : kind u = levelCount := by
        by_cases same : u = page
        · rw [same, Function.update_self] at top
          omega
        · rw [Function.update_of_ne same] at top
          exact top
      rw [kept u (by rw [old]; decide) k smallK]
      exact shared u old k high smallK
    refine ⟨_, store_kinds kinds' isTable' small fun _ => points, store_shared kinds' shared' (by omega) small ?_, extended, points⟩
    -- An entry of the upper half is there, so no page is taken for it.
    intro top high
    have there := (unrestricted i high small).present
    rw [isTable'] at top
    rw [← shared t (isTable.trans top) i high small] at there
    exact absurd there ((absent_iff _).mp absent)
  · have present : Present (s.load t i) := Classical.not_not.mp fun gone => absent ((absent_iff _).mpr gone)
    rw [if_neg absent] at run
    by_cases big : s.load t i &&& entryhFlagPs ≠ 0
    · obtain ⟨fault, failed⟩ := break_big_fails t i (j + 1) s
      rw [if_pos big, failed] at run
      cases run
    · rw [if_neg big, bind_ok, bind_ok, Except.ok.injEq, Prod.mk.injEq] at run
      obtain ⟨rfl, rfl⟩ := run
      have descends : Descends (j + 1) (s.memory (t + 8 * i)) := ⟨by omega, present, fun isBig => big ((big_iff _).mpr isBig)⟩
      have target := kinds.below t j isTable i small descends
      have points : kind (tableOf (grantEntry prot privilege (openEntry prot (s.load t i)))) = j := by
        rw [passed_table]
        exact target
      refine ⟨kind, store_kinds kinds isTable small fun _ => points, store_shared kinds shared (by omega) small ?_, fun _ _ => rfl, points⟩
      intro top high
      rw [isTable] at top
      have kernel := (allowed top).resolve_left (by omega)
      rw [State.load, shared t (isTable.trans top) i high small, kernel]
      exact unrestricted_granted (unrestricted i high small) prot

theorem map_tables_kinds {v lowest t j table : Nat} (kinds : Kinds kind s) (shared : Shared upper kind s) (isTable : kind t = j)
    (low : 1 ≤ lowest) (above : lowest ≤ j) (bound : j ≤ levelCount)
    (allowed : vaddrToIndex v levelCount < 256 ∨ privilege = .kernel)
    (run : mapTables v lowest prot privilege j t s = .ok (s', table)) :
    ∃ kind', Kinds kind' s' ∧ Shared upper kind' s' ∧ Extends kind kind' ∧ kind' table = lowest := by
  induction j generalizing kind s t with
  | zero => omega
  | succ j ih =>
      rw [mapTables] at run
      by_cases more : j + 1 > lowest
      · rw [if_pos more, bind_eq_ok] at run
        obtain ⟨⟨s₁, entry⟩, pass, rest⟩ := run
        obtain ⟨kind₁, kinds₁, shared₁, extended₁, next⟩ := pass_kinds unrestricted kinds shared isTable (by omega) (by omega)
          (index_lt _ _) (fun top => top ▸ allowed) pass
        obtain ⟨kind₂, kinds₂, shared₂, extended₂, last⟩ := ih kinds₁ shared₁ next (by omega) (by omega) rest
        exact ⟨kind₂, kinds₂, shared₂, extends_trans extended₁ extended₂, last⟩
      · rw [if_neg more, Except.ok.injEq, Prod.mk.injEq] at run
        obtain ⟨rfl, rfl⟩ := run
        exact ⟨kind, kinds, shared, fun _ _ => rfl, by omega⟩

theorem map_page_kinds {v paddr top : Nat} {pageSize : PageSize} {cache : Cache} {isGlobal : Bool} (kinds : Kinds kind s)
    (shared : Shared upper kind s) (isTop : kind top = levelCount)
    (allowed : vaddrToIndex v levelCount < 256 ∨ privilege = .kernel)
    (run : mapPage top v paddr pageSize prot cache privilege isGlobal s = .ok s') :
    ∃ kind', Kinds kind' s' ∧ Shared upper kind' s' ∧ Extends kind kind' := by
  unfold mapPage at run
  rw [bind_eq_ok] at run
  obtain ⟨⟨s₁, table⟩, tables, last⟩ := run
  rw [Except.ok.injEq] at last
  subst last
  have low : 1 ≤ lowestIndex pageSize ∧ lowestIndex pageSize < levelCount := by cases pageSize <;> decide
  obtain ⟨kind', kinds', shared', extended, isTable⟩ := map_tables_kinds unrestricted kinds shared isTop low.1 (Nat.le_of_lt low.2)
    (Nat.le_refl _) allowed tables
  obtain ⟨l, level⟩ : ∃ l, lowestIndex pageSize = l + 1 := ⟨lowestIndex pageSize - 1, by omega⟩
  have stops := @leaf_stops paddr pageSize prot cache privilege isGlobal
  refine ⟨kind', store_kinds kinds' (isTable.trans level) (index_lt _ _) fun descends => ?_,
    store_shared kinds' shared' (by omega) (index_lt _ _) fun isTop _ => by omega, extended⟩
  rw [← level] at descends
  exact absurd descends stops

theorem map_loop_kinds {top vaddr paddr length : Nat} {cache : Cache} {isGlobal : Bool} (fuel i : Nat) (kinds : Kinds kind s)
    (shared : Shared upper kind s) (isTop : kind top = levelCount)
    (allowed : ∀ d < length, vaddrToIndex (add64 vaddr d) levelCount < 256 ∨ privilege = .kernel)
    (run : mapLoop top vaddr paddr length prot cache privilege isGlobal fuel i s = .ok s') :
    ∃ kind', Kinds kind' s' ∧ Shared upper kind' s' ∧ Extends kind kind' := by
  induction fuel generalizing kind s i with
  | zero =>
      rw [mapLoop] at run
      by_cases inside : i < length
      · rw [if_pos inside] at run
        cases run
      · rw [if_neg inside, Except.ok.injEq] at run
        exact ⟨kind, run ▸ kinds, run ▸ shared, fun _ _ => rfl⟩
  | succ fuel ih =>
      rw [mapLoop] at run
      by_cases inside : i < length
      · rw [if_pos inside, bind_eq_ok] at run
        obtain ⟨s₁, page, rest⟩ := run
        obtain ⟨kind₁, kinds₁, shared₁, extended₁⟩ := map_page_kinds unrestricted kinds shared isTop (allowed i inside) page
        have isTop₁ : kind₁ top = levelCount := by rw [extended₁ top (by rw [isTop]; decide), isTop]
        obtain ⟨kind₂, kinds₂, shared₂, extended₂⟩ := ih _ kinds₁ shared₁ isTop₁ rest
        exact ⟨kind₂, kinds₂, shared₂, extends_trans extended₁ extended₂⟩
      · rw [if_neg inside, Except.ok.injEq] at run
        exact ⟨kind, run ▸ kinds, run ▸ shared, fun _ _ => rfl⟩

end Map

section Rounds

variable {kind : Nat → Nat} {upper : Nat → Entry} {s s' : State} {v remaining t j stop : Nat}

-- Unmapping clears entries, and none of a top level table.
theorem unmap_round_kinds (kinds : Kinds kind s) (shared : Shared upper kind s) (isTable : kind t = j)
    (run : unmapRound v remaining j t s = .ok (s', stop)) : Kinds kind s' ∧ Shared upper kind s' := by
  induction j using Nat.strongRecOn generalizing s t with
  | ind j ih =>
      match j, isTable, run with
      | 0, _, run =>
          rw [unmapRound] at run
          cases run
      | 1, isTable, run =>
          rw [unmapRound, Except.ok.injEq, Prod.mk.injEq] at run
          obtain ⟨rfl, _⟩ := run
          exact ⟨store_kinds kinds isTable (index_lt _ _) fun descends => absurd descends (zero_stops _),
            store_shared kinds shared (by omega) (index_lt _ _) fun top _ => absurd (isTable.symm.trans top) (by decide)⟩
      | k + 2, isTable, run =>
          rw [unmapRound] at run
          dsimp only at run
          by_cases absent : s.load t (vaddrToIndex v (k + 2)) &&& entryFlagPresent = 0
          · rw [if_pos absent, Except.ok.injEq, Prod.mk.injEq] at run
            obtain ⟨rfl, _⟩ := run
            exact ⟨kinds, shared⟩
          · rw [if_neg absent] at run
            by_cases big : s.load t (vaddrToIndex v (k + 2)) &&& entryhFlagPs ≠ 0
            · rw [if_pos big, bind_eq_ok] at run
              obtain ⟨_, asserted, run⟩ := run
              have shallow : k + 2 ≤ 3 := by
                by_contra deep
                rw [assertThat, decide_eq_false deep] at asserted
                cases asserted
              by_cases must : MustBreak v remaining (vaddrToIndex v (k + 2)) (k + 2)
              · obtain ⟨fault, failed⟩ := break_big_fails t (vaddrToIndex v (k + 2)) (k + 2) s
                rw [if_pos must, failed] at run
                cases run
              · rw [if_neg must, Except.ok.injEq, Prod.mk.injEq] at run
                obtain ⟨rfl, _⟩ := run
                refine ⟨store_kinds kinds isTable (index_lt _ _) fun descends => absurd descends (zero_stops _),
                  store_shared kinds shared (by omega) (index_lt _ _) fun top _ => ?_⟩
                unfold levelCount at top
                omega
            · rw [if_neg big] at run
              have present : Present (s.load t (vaddrToIndex v (k + 2))) :=
                Classical.not_not.mp fun gone => absent ((absent_iff _).mpr gone)
              have descends : Descends (k + 2) (s.memory (t + 8 * vaddrToIndex v (k + 2))) :=
                ⟨by omega, present, fun isBig => big ((big_iff _).mpr isBig)⟩
              exact ih (k + 1) (by omega) kinds shared (kinds.below t (k + 1) isTable _ (index_lt _ _) descends) run

theorem rewrite_round_kinds {prot : Protection} {cache : Cache} {privilege : Privilege} {isGlobal : Bool}
    (unrestricted : ∀ i, 256 ≤ i → i < 512 → Unrestricted (upper i)) (kinds : Kinds kind s) (shared : Shared upper kind s)
    (isTable : kind t = j) (run : rewriteRound prot cache privilege isGlobal v remaining j t s = .ok (s', stop)) :
    Kinds kind s' ∧ Shared upper kind s' := by
  induction j using Nat.strongRecOn generalizing s t with
  | ind j ih =>
      match j, isTable, run with
      | 0, _, run =>
          rw [rewriteRound] at run
          cases run
      | 1, isTable, run =>
          rw [rewriteRound, Except.ok.injEq, Prod.mk.injEq] at run
          obtain ⟨rfl, _⟩ := run
          exact ⟨store_kinds kinds isTable (index_lt _ _) fun descends => absurd descends.1 (by decide),
            store_shared kinds shared (by omega) (index_lt _ _) fun top _ => absurd (isTable.symm.trans top) (by decide)⟩
      | k + 2, isTable, run =>
          rw [rewriteRound] at run
          dsimp only at run
          by_cases absent : s.load t (vaddrToIndex v (k + 2)) &&& entryFlagPresent = 0
          · rw [if_pos absent, Except.ok.injEq, Prod.mk.injEq] at run
            obtain ⟨rfl, _⟩ := run
            exact ⟨kinds, shared⟩
          · rw [if_neg absent] at run
            by_cases big : s.load t (vaddrToIndex v (k + 2)) &&& entryhFlagPs ≠ 0
            · rw [if_pos big, bind_eq_ok] at run
              obtain ⟨_, asserted, run⟩ := run
              have shallow : k + 2 ≤ 3 := by
                by_contra deep
                rw [assertThat, decide_eq_false deep] at asserted
                cases asserted
              by_cases must : MustBreak v remaining (vaddrToIndex v (k + 2)) (k + 2)
              · obtain ⟨fault, failed⟩ := break_big_fails t (vaddrToIndex v (k + 2)) (k + 2) s
                rw [if_pos must, failed] at run
                cases run
              · rw [if_neg must, Except.ok.injEq, Prod.mk.injEq] at run
                obtain ⟨rfl, _⟩ := run
                refine ⟨store_kinds kinds isTable (index_lt _ _) fun descends => ?_,
                  store_shared kinds shared (by omega) (index_lt _ _) fun top _ => ?_⟩
                · have kept := rewrite_leaf_kept prot cache privilege isGlobal (s.load t (vaddrToIndex v (k + 2))) (k + 2) 7 (by omega)
                    (by decide) (by decide)
                  refine absurd ?_ descends.2.2
                  rw [Big, kept]
                  exact (big_iff _).mp big
                · unfold levelCount at top
                  omega
            · rw [if_neg big] at run
              have present : Present (s.load t (vaddrToIndex v (k + 2))) :=
                Classical.not_not.mp fun gone => absent ((absent_iff _).mpr gone)
              have descends : Descends (k + 2) (s.memory (t + 8 * vaddrToIndex v (k + 2))) :=
                ⟨by omega, present, fun isBig => big ((big_iff _).mpr isBig)⟩
              have target := kinds.below t (k + 1) isTable _ (index_lt _ _) descends
              have points : kind (tableOf (rewritePassed prot (s.load t (vaddrToIndex v (k + 2))))) = k + 1 := by
                rw [(rewrite_passed_loosened prot _).table]
                exact target
              have reload : (s.store t (vaddrToIndex v (k + 2)) (rewritePassed prot (s.load t (vaddrToIndex v (k + 2))))).load t
                  (vaddrToIndex v (k + 2)) = rewritePassed prot (s.load t (vaddrToIndex v (k + 2))) := Function.update_self _ _ _
              rw [reload] at run
              refine ih (k + 1) (by omega) (store_kinds kinds isTable (index_lt _ _) fun _ => points)
                (store_shared kinds shared (by omega) (index_lt _ _) fun top high => ?_) points run
              rw [State.load, shared t top _ high (index_lt _ _)]
              exact unrestricted_passed (unrestricted _ high (index_lt _ _)) prot

end Rounds

theorem range_loop_kinds {kind : Nat → Nat} {upper : Nat → Entry} {round : Nat → Nat → State → Except Fault (State × Nat)}
    (keeps : ∀ v remaining s s' stop, Kinds kind s → Shared upper kind s → round v remaining s = .ok (s', stop) →
      Kinds kind s' ∧ Shared upper kind s') {vaddr length : Nat} {s s' : State} (fuel i : Nat) (kinds : Kinds kind s)
    (shared : Shared upper kind s) (run : rangeLoop round vaddr length fuel i s = .ok s') : Kinds kind s' ∧ Shared upper kind s' := by
  induction fuel generalizing s i with
  | zero =>
      rw [rangeLoop] at run
      by_cases inside : i < length
      · rw [if_pos inside] at run
        cases run
      · rw [if_neg inside, Except.ok.injEq] at run
        exact run ▸ ⟨kinds, shared⟩
  | succ fuel ih =>
      rw [rangeLoop] at run
      by_cases inside : i < length
      · rw [if_pos inside, bind_eq_ok] at run
        obtain ⟨⟨s₁, stop⟩, first, rest⟩ := run
        obtain ⟨kinds₁, shared₁⟩ := keeps _ _ s s₁ stop kinds shared first
        exact ih _ kinds₁ shared₁ rest
      · rw [if_neg inside, Except.ok.injEq] at run
        exact run ▸ ⟨kinds, shared⟩

end Elysium.Ptm
