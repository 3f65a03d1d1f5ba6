import Elysium.PtmPhysical
import Mathlib.Data.Finset.Card
import Mathlib.Data.Finset.Union
import Mathlib.Order.Interval.Finset.Nat

set_option autoImplicit false

namespace Elysium.Ptm

open Vm (Protection Cache Privilege)

-- The way to an address has a table of this level.
def HasTable (memory : Nat → Entry) (top v level : Nat) : Prop := ∃ t, Reaches memory top v level t

section Tables

variable {memory : Nat → Entry} {top v l t : Nat}

theorem reaches_above (reach : Reaches memory top v l t) {k : Nat} (above : l ≤ k) (bound : k ≤ levelCount) : HasTable memory top v k := by
  induction reach with
  | top =>
      obtain rfl : k = levelCount := Nat.le_antisymm bound above
      exact ⟨top, .top⟩
  | down level table previous descends ih =>
      rcases Nat.lt_or_eq_of_le above with higher | rfl
      · exact ih higher
      · exact ⟨_, .down level table previous descends⟩

-- The walk stops in the lowest table there is.
theorem has_table_iff {k : Nat} (bound : k ≤ levelCount) : HasTable memory top v k ↔ stopLevel memory top v ≤ k := by
  obtain ⟨t, reach, stops⟩ := stop_level_reached memory top v
  refine ⟨?_, fun above => reaches_above reach above bound⟩
  rintro ⟨u, other⟩
  by_contra below
  exact stops (reaches_descends other (Nat.lt_of_not_le below) reach)

theorem has_table_same {w k : Nat} (same : SameSlot (k + 1) v w) : HasTable memory top v k ↔ HasTable memory top w k := by
  constructor
  · rintro ⟨u, reach⟩
    exact ⟨u, reaches_same reach same⟩
  · rintro ⟨u, reach⟩
    exact ⟨u, reaches_same reach (same_slot_symm same)⟩

end Tables

section Pass

variable {s s' : State} {top v l t : Nat} {e : Entry} {prot : Protection} {privilege : Privilege} (sound : Sound top s)
  (reach : Reaches s.memory top v l t)

include sound reach

-- One level down over a table that is there: nothing is taken.
theorem pass_old_tables (descends : Descends l (s.memory (t + 8 * vaddrToIndex v l)))
    (run : passEntry t (vaddrToIndex v l) l prot privilege s = .ok (s', e)) :
    s'.frames = s.frames ∧ ∀ w k, HasTable s'.memory top w k ↔ HasTable s.memory top w k := by
  rw [pass_present descends.2.1 descends.2.2] at run
  obtain ⟨rfl, _⟩ := Prod.mk.inj (Except.ok.inj run)
  refine ⟨rfl, fun w k => exists_congr fun u => ?_⟩
  rw [store_memory]
  exact store_reaches sound.tree reach (passed_descends prot privilege _ l) (fun _ => passed_table prot privilege _) w k u

-- One level down into a page that becomes a table: it serves all addresses that share the slot.
theorem pass_new_tables (below : 1 < l) (absent : ¬ Present (s.memory (t + 8 * vaddrToIndex v l)))
    (run : passEntry t (vaddrToIndex v l) l prot privilege s = .ok (s', e)) :
    s.frames.length = s'.frames.length + 1 ∧
      ∀ w k, HasTable s'.memory top w k ↔ HasTable s.memory top w k ∨ (k + 1 = l ∧ SameSlot l v w) := by
  cases supply : s.frames with
  | nil =>
      rw [pass_empty absent supply] at run
      cases run
  | cons page rest =>
      rw [pass_fresh absent supply] at run
      obtain ⟨rfl, _⟩ := Prod.mk.inj (Except.ok.inj run)
      refine ⟨rfl, fun w k => ?_⟩
      rw [store_memory]
      obtain ⟨entry, here⟩ : ∃ entry, entry = grantEntry prot privilege (freshEntry page prot) := ⟨_, rfl⟩
      obtain ⟨cleared, clears⟩ : ∃ cleared, cleared = memClear s.memory page pageGranularity := ⟨_, rfl⟩
      have inSupply : page ∈ s.frames := supply ▸ List.mem_cons_self
      obtain ⟨_, transported, tree, reachC, apartC, descends, points, blank⟩ := fresh_blanked sound reach below inSupply here clears
      rw [← here]
      change HasTable (Function.update (memClear s.memory page pageGranularity) _ _) top w k ↔ _
      rw [← clears]
      constructor
      · rintro ⟨u, other⟩
        rcases grow_reaches tree reachC points blank apartC other with old | ⟨level, same, _⟩
        · exact .inl ⟨u, (transported w k u).mp old⟩
        · exact .inr ⟨level, same⟩
      · rintro (⟨u, old⟩ | ⟨level, same⟩)
        · -- A table below the slot would hang in it.
          refine ⟨u, store_reaches_above tree reachC ((transported w k u).mpr old) fun same => ?_⟩
          by_contra lower
          have reachW : Reaches s.memory top w l t := reaches_same reach (same_slot_mono (Nat.le_succ _) same)
          have passes := reaches_descends old (Nat.lt_of_not_le lower) reachW
          rw [read_slot reach reachW same] at passes
          exact absent passes.2.1
        · have down := grow_down tree reachC descends points
          have level' : l - 1 = k := by omega
          rw [level'] at down
          exact ⟨page, reaches_same down (by rw [level]; exact same)⟩

-- A level takes a page where the way ends there. No page of a higher level is in the way.
theorem pass_supply (opened : Opened prot privilege s.memory top v l) (below : 1 < l)
    (small : ∀ T, translate v (entries s.memory v levelCount top) = some T → T.level = 1) :
    (∃ s' e, passEntry t (vaddrToIndex v l) l prot privilege s = .ok (s', e) ∧ Prepares top 1 s s' ∧
        Reaches s'.memory top v (l - 1) (tableOf e) ∧ Opened prot privilege s'.memory top v (l - 1) ∧
        s.frames.length = s'.frames.length + (stopLevel s.memory top v - (l - 1)) ∧
        ∀ w k, HasTable s'.memory top w k ↔ HasTable s.memory top w k ∨ (k + 1 = l ∧ SameSlot l v w)) ∨
      (s.frames.length < stopLevel s.memory top v - (l - 1) ∧
        passEntry t (vaddrToIndex v l) l prot privilege s = .error (outOfMemory s)) := by
  have bound := reaches_level reach
  by_cases descends : Descends l (s.memory (t + 8 * vaddrToIndex v l))
  · obtain ⟨s', e, run, prepares, reach', opened'⟩ := pass_old sound reach opened descends
    obtain ⟨frames, tables⟩ := pass_old_tables sound reach descends run
    have lower : HasTable s.memory top v (l - 1) := (tables v (l - 1)).mp ⟨_, reach'⟩
    have stop := (has_table_iff (by omega)).mp lower
    refine .inl ⟨s', e, run, prepares, reach', opened', by rw [frames]; omega, fun w k => ?_⟩
    rw [tables, or_iff_left_of_imp]
    rintro ⟨rfl, same⟩
    exact (has_table_same same).mp lower
  · have stop := stop_level_eq reach descends
    rcases pass_spec sound reach opened below with ⟨s', e, run, prepares, reach', opened'⟩ | ⟨empty, run⟩ | ⟨⟨T, found, level⟩, _⟩
    · have absent : ¬ Present (s.memory (t + 8 * vaddrToIndex v l)) := by
        intro present
        by_cases big : Big (s.memory (t + 8 * vaddrToIndex v l))
        · obtain ⟨fault, failed⟩ := @pass_big s t (vaddrToIndex v l) l prot privilege present big
          rw [failed] at run
          cases run
        · exact descends ⟨below, present, big⟩
      obtain ⟨frames, tables⟩ := pass_new_tables sound reach below absent run
      exact .inl ⟨s', e, run, prepares, reach', opened', by omega, tables⟩
    · refine .inr ⟨?_, run⟩
      rw [empty, List.length_nil]
      omega
    · have one := small T found
      omega

end Pass

section Map

variable {top v : Nat} {prot : Protection} {privilege : Privilege}

-- The tables down to the lowest level.
theorem map_tables_supply (j t : Nat) (s : State) (sound : Sound top s) (reach : Reaches s.memory top v j t)
    (opened : Opened prot privilege s.memory top v j) (above : 1 ≤ j)
    (small : ∀ T, translate v (entries s.memory v levelCount top) = some T → T.level = 1) :
    (∃ s' t', mapTables v 1 prot privilege j t s = .ok (s', t') ∧ Sound top s' ∧ Reaches s'.memory top v 1 t' ∧
        s.frames.length = s'.frames.length + (stopLevel s.memory top v - 1) ∧
        ∀ w k, HasTable s'.memory top w k ↔ HasTable s.memory top w k ∨ (1 ≤ k ∧ k < j ∧ SameSlot (k + 1) v w)) ∨
      (s.frames.length < stopLevel s.memory top v - 1 ∧ mapTables v 1 prot privilege j t s = .error (outOfMemory s)) := by
  induction j generalizing t s with
  | zero => omega
  | succ j ih =>
      have bound := reaches_level reach
      have stopped := (has_table_iff bound).mp ⟨t, reach⟩
      rcases Nat.eq_zero_or_pos j with rfl | positive
      · rw [mapTables, if_neg (Nat.lt_irrefl _)]
        exact .inl ⟨s, t, rfl, sound, reach, by omega, fun w k => (or_iff_left fun both => by omega).symm⟩
      · rw [mapTables, if_pos (Nat.succ_lt_succ positive)]
        rcases pass_supply sound reach opened (Nat.succ_lt_succ positive) small with
          ⟨u, e, run, prepares, reachU, openedU, frames, tables⟩ | ⟨short, run⟩
        · rw [Nat.add_sub_cancel] at frames reachU openedU
          -- What is left to take is what the level did not take.
          have stop : stopLevel u.memory top v - 1 + (stopLevel s.memory top v - j) = stopLevel s.memory top v - 1 := by
            have level := (stop_level_bounds s.memory top v).1
            have stoppedU := (has_table_iff (Nat.le_of_succ_le bound)).mp ⟨_, reachU⟩
            have keeps : ∀ k < j, stopLevel u.memory top v ≤ k ↔ stopLevel s.memory top v ≤ k := fun k short => by
              rw [← has_table_iff (by omega), ← has_table_iff (by omega), tables]
              exact or_iff_left fun both => by omega
            by_cases lower : stopLevel s.memory top v < j
            · have first := (keeps _ lower).mpr (Nat.le_refl _)
              have second := (keeps (stopLevel u.memory top v) (by omega)).mp (Nat.le_refl _)
              omega
            · have notBelow : ¬ stopLevel u.memory top v < j := fun less => by
                have second := (keeps _ less).mp (Nat.le_refl _)
                omega
              omega
          rw [run, bind_ok]
          rcases ih (tableOf e) u prepares.sound reachU openedU positive fun T found => small T ((prepares.same v).symm.trans found) with
            ⟨s', t', done, sound', reach', spent, grown⟩ | ⟨short, done⟩
          · refine .inl ⟨s', t', done, sound', reach', by omega, fun w k => ?_⟩
            rw [grown, tables, or_assoc]
            refine or_congr_right ⟨?_, ?_⟩
            · rintro (⟨level, same⟩ | ⟨low, high, same⟩)
              · exact ⟨by omega, by omega, level ▸ same⟩
              · exact ⟨low, by omega, same⟩
            · rintro ⟨low, high, same⟩
              rcases Nat.lt_or_eq_of_le (Nat.le_of_lt_succ high) with less | rfl
              · exact .inr ⟨low, less, same⟩
              · exact .inl ⟨rfl, same⟩
          · refine .inr ⟨by omega, ?_⟩
            rw [outOfMemory, ← prepares.early]
            exact done
        · rw [run]
          exact .inr ⟨by omega, rfl⟩

-- arch_ptm_map for one user page takes a page for every table that is missing, and fails where there are too few.
theorem arch_ptm_map_supply {s : State} {paddr : Nat} {cache : Cache} {isGlobal : Bool} (sound : Sound top s) (pages : Small top s)
    (low : v < 2 ^ 47) (aligned : v % pageGranularity = 0) (paddrAligned : paddr % pageGranularity = 0)
    (fits : paddr + pageGranularity ≤ 2 ^ 52) :
    (∃ s', archPtmMap top v paddr pageGranularity prot cache privilege isGlobal s = .ok s' ∧
        s.frames.length = s'.frames.length + (stopLevel s.memory top v - 1) ∧
        ∀ w k, 1 ≤ k → k < levelCount →
          (stopLevel s'.memory top w ≤ k ↔ stopLevel s.memory top w ≤ k ∨ SameSlot (k + 1) v w)) ∨
      (s.frames.length < stopLevel s.memory top v - 1 ∧
        archPtmMap top v paddr pageGranularity prot cache privilege isGlobal s = .error (outOfMemory s)) := by
  have opened : Opened prot privilege s.memory top v levelCount := fun k u higher other =>
    absurd (reaches_level other) (Nat.not_le_of_lt higher)
  have small : ∀ T, translate v (entries s.memory v levelCount top) = some T → T.level = 1 := fun T found =>
    pages v low T (by rw [walk, if_pos (.inl low), found])
  rw [arch_ptm_map_one top low aligned paddrAligned fits, mapPage]
  change (∃ s', (mapTables v 1 prot privilege levelCount top s >>= _) = .ok s' ∧ _) ∨ (_ ∧ (mapTables v 1 prot privilege levelCount top s >>= _) = _)
  rcases map_tables_supply levelCount top s sound .top opened (by decide) small with ⟨u, t, run, soundU, reach, spent, tables⟩ | ⟨short, run⟩
  · rw [run, bind_ok]
    refine .inl ⟨_, rfl, spent, fun w k positive below => ?_⟩
    -- The entry of the page hangs no table in.
    have stops := leaf_stops paddr .size4K prot cache privilege isGlobal
    have stored : HasTable (u.store t (vaddrToIndex v 1) (leafEntry paddr .size4K prot cache privilege isGlobal)).memory top w k ↔
        HasTable u.memory top w k := by
      refine exists_congr fun x => ⟨fun other => page_reaches soundU.tree reach stops other, fun other => ?_⟩
      exact store_reaches_above soundU.tree reach other fun _ => positive
    rw [← has_table_iff (Nat.le_of_lt below), ← has_table_iff (Nat.le_of_lt below)]
    exact stored.trans ((tables w k).trans (or_congr_right (by simp only [positive, below, true_and])))
  · rw [run]
    exact .inr ⟨short, rfl⟩

end Map

-- The tables that are missing on the way to these pages: each by the level and the number of the slot it is to hang in.
def missingTables (memory : Nat → Entry) (top : Nat) (pages : Finset Nat) : Finset (Nat × Nat) :=
  pages.biUnion fun P => (Finset.Icc 2 (stopLevel memory top (P * pageGranularity))).image fun l => (l, P * pageGranularity / levelToPagesize l)

section Missing

variable {memory next : Nat → Entry} {top P : Nat} {pages : Finset Nat}

theorem mem_missing {l n : Nat} : (l, n) ∈ missingTables memory top pages ↔
    ∃ Q ∈ pages, 2 ≤ l ∧ l ≤ stopLevel memory top (Q * pageGranularity) ∧ Q * pageGranularity / levelToPagesize l = n := by
  unfold missingTables
  rw [Finset.mem_biUnion]
  refine exists_congr fun Q => and_congr_right fun _ => ?_
  rw [Finset.mem_image]
  constructor
  · rintro ⟨k, range, same⟩
    obtain ⟨rfl, slot⟩ := Prod.mk.inj same
    exact ⟨(Finset.mem_Icc.mp range).1, (Finset.mem_Icc.mp range).2, slot⟩
  · rintro ⟨low, high, rfl⟩
    exact ⟨l, Finset.mem_Icc.mpr ⟨low, high⟩, rfl⟩

theorem missing_one : (missingTables memory top {P}).card = stopLevel memory top (P * pageGranularity) - 1 := by
  rw [missingTables, Finset.singleton_biUnion, Finset.card_image_of_injective _ fun l k same => congrArg Prod.fst same, Nat.card_Icc]
  omega

theorem missing_mono {others : Finset Nat} (fewer : pages ⊆ others) :
    (missingTables memory top pages).card ≤ (missingTables memory top others).card :=
  Finset.card_le_card (Finset.biUnion_subset_biUnion_of_subset_left _ fewer)

theorem missing_le (member : P ∈ pages) : stopLevel memory top (P * pageGranularity) - 1 ≤ (missingTables memory top pages).card := by
  rw [← missing_one]
  exact missing_mono (Finset.singleton_subset_iff.mpr member)

-- A page that has been mapped leaves the tables missing that it does not share.
theorem missing_after (low : P * pageGranularity < 2 ^ 47) (lower : ∀ Q ∈ pages, Q * pageGranularity < 2 ^ 47)
    (mapped : ∀ w k, 1 ≤ k → k < levelCount →
      (stopLevel next top w ≤ k ↔ stopLevel memory top w ≤ k ∨ SameSlot (k + 1) (P * pageGranularity) w)) :
    missingTables next top pages = missingTables memory top pages \ missingTables memory top {P} := by
  ext ⟨l, n⟩
  rw [Finset.mem_sdiff, mem_missing, mem_missing, mem_missing]
  have slot : ∀ Q ∈ pages, 2 ≤ l → l ≤ levelCount →
      (SameSlot l (P * pageGranularity) (Q * pageGranularity) ↔ P * pageGranularity / levelToPagesize l = Q * pageGranularity / levelToPagesize l) :=
    fun Q member positive bound => same_slot_iff (by omega) bound (.inl low) (.inl (lower Q member))
  constructor
  · rintro ⟨Q, member, positive, high, rfl⟩
    have bound := (stop_level_bounds next top (Q * pageGranularity)).2
    have step := mapped (Q * pageGranularity) (l - 1) (by omega) (by omega)
    rw [Nat.sub_add_cancel (by omega)] at step
    have apart : ¬ SameSlot l (P * pageGranularity) (Q * pageGranularity) := fun same => by
      have there := step.mpr (.inr same)
      omega
    have before : l ≤ stopLevel memory top (Q * pageGranularity) := by
      by_contra below
      have there := step.mpr (.inl (by omega))
      omega
    refine ⟨⟨Q, member, positive, before, rfl⟩, ?_⟩
    rintro ⟨R, single, _, _, same⟩
    rw [Finset.mem_singleton.mp single] at same
    exact apart ((slot Q member positive (by omega)).mpr same)
  · rintro ⟨⟨Q, member, positive, high, rfl⟩, other⟩
    have bound := (stop_level_bounds memory top (Q * pageGranularity)).2
    refine ⟨Q, member, positive, ?_, rfl⟩
    by_contra below
    have step := (mapped (Q * pageGranularity) (l - 1) (by omega) (by omega)).mp (by omega)
    rw [Nat.sub_add_cancel (by omega)] at step
    rcases step with there | same
    · omega
    · -- The slot they share is missing on the way to the one where it is missing on the way to the other.
      refine other ⟨P, Finset.mem_singleton_self P, positive, ?_, (slot Q member positive (by omega)).mp same⟩
      by_contra short
      have shared : HasTable memory top (P * pageGranularity) (l - 1) ↔ HasTable memory top (Q * pageGranularity) (l - 1) :=
        has_table_same (by rw [Nat.sub_add_cancel (by omega)]; exact same)
      rw [has_table_iff (by omega), has_table_iff (by omega)] at shared
      have there := shared.mp (by omega)
      omega

theorem missing_card (low : P * pageGranularity < 2 ^ 47) (lower : ∀ Q ∈ pages, Q * pageGranularity < 2 ^ 47)
    (mapped : ∀ w k, 1 ≤ k → k < levelCount →
      (stopLevel next top w ≤ k ↔ stopLevel memory top w ≤ k ∨ SameSlot (k + 1) (P * pageGranularity) w)) :
    (missingTables memory top (insert P pages)).card =
      (stopLevel memory top (P * pageGranularity) - 1) + (missingTables next top pages).card := by
  have split : missingTables memory top (insert P pages) = missingTables memory top {P} ∪ missingTables memory top pages := by
    rw [missingTables, Finset.biUnion_insert, missingTables, Finset.singleton_biUnion, missingTables]
  rw [split, ← Finset.union_sdiff_self_eq_union, Finset.card_union_of_disjoint Finset.disjoint_sdiff, missing_one,
    missing_after low lower mapped]

end Missing

end Elysium.Ptm
