import Elysium.PtmUnmap

set_option autoImplicit false

namespace Elysium.Ptm

open Vm (Protection Cache Privilege kernelspaceStart protRW)

section Bits

variable (prot : Protection) (cache : Cache) (privilege : Privilege) (isGlobal : Bool) (entry : Entry)

theorem rewrite_passed_bit {k : Nat} (small : k < 64) :
    (rewritePassed prot entry).getLsbD k = ((entry.getLsbD k || (prot.write && decide (k = 1))) && !(prot.exec && decide (k = 63))) := by
  have opened := @open_bit k small prot (if prot.write then entry ||| entryFlagRw else entry)
  rw [or_if_bit, rw_bit] at opened
  exact opened

-- The page size is looked up by the wrong level: what is passed for a page of the
-- last level is that of the next one.
def rewrittenCache (j : Nat) (cache : Cache) : Entry :=
  cacheToX86Flags cache (if j = 0 then .size4K else if j = 1 then .size2M else .size1G)

theorem rewrite_leaf_bit {k : Nat} (small : k < 64) (j : Nat) :
    (rewriteLeaf prot cache privilege isGlobal j entry).getLsbD k =
      if k = 8 then isGlobal else if k = 63 then !prot.exec else if k = 1 then prot.write
      else entry.getLsbD k || (decide (privilege = .user) && decide (k = 2)) || (rewrittenCache j cache).getLsbD k := by
  have named : cacheToX86Flags cache (if j = 0 then .size4K else if j = 1 then .size2M else .size1G) = rewrittenCache j cache := rfl
  unfold rewriteLeaf
  rw [named, set_if_bit small, set_if_bit small, set_if_bit small, global_bit, nx_bit, rw_bit, BitVec.getLsbD_or, BitVec.getLsbD_or,
    privilege_bit]
  simp only [decide_eq_true_eq]

theorem rewritten_cache_bit (j k : Nat) (positive : 1 ≤ j) :
    (rewrittenCache j cache).getLsbD k = (decide (cache = .writeCombine) && decide (k = 12) ||
      decide (cache ≠ .standard) && decide (k = 4) || decide (cache = .none) && decide (k = 3)) := by
  have size : (if j = 0 then PageSize.size4K else if j = 1 then .size2M else .size1G) ≠ .size4K := by
    rw [if_neg (by omega)]
    by_cases one : j = 1
    · rw [if_pos one]
      decide
    · rw [if_neg one]
      decide
  unfold rewrittenCache cacheToX86Flags
  cases cache with
  | standard => simp [pat0]
  | writeCombine =>
      dsimp only
      rw [pat6, entryFlagPat, if_neg size, BitVec.getLsbD_or, path_bit, disablecache_bit]
      simp
  | none =>
      dsimp only
      rw [pat3, BitVec.getLsbD_or, disablecache_bit, writethrough_bit]
      simp

theorem rewrite_leaf_kept (j k : Nat) (positive : 1 ≤ j) (small : k < 64)
    (other : k ≠ 1 ∧ k ≠ 2 ∧ k ≠ 3 ∧ k ≠ 4 ∧ k ≠ 8 ∧ k ≠ 12 ∧ k ≠ 63) :
    (rewriteLeaf prot cache privilege isGlobal j entry).getLsbD k = entry.getLsbD k := by
  obtain ⟨notRw, notUser, notWritethrough, notDisable, notGlobal, notPat, notNx⟩ := other
  rw [rewrite_leaf_bit prot cache privilege isGlobal entry small, if_neg notGlobal, if_neg notNx, if_neg notRw,
    rewritten_cache_bit cache j k positive, decide_eq_false notUser, decide_eq_false notPat, decide_eq_false notDisable,
    decide_eq_false notWritethrough]
  simp only [Bool.and_false, Bool.or_false]

end Bits

-- An entry on the way down after a call has passed it.
structure Loosened (entry next : Entry) : Prop where
  table : tableOf next = tableOf entry
  present : next.getLsbD 0 = entry.getLsbD 0
  big : next.getLsbD 7 = entry.getLsbD 7
  write : entry.getLsbD 1 = true → next.getLsbD 1 = true
  exec : entry.getLsbD 63 = false → next.getLsbD 63 = false
  user : next.getLsbD 2 = entry.getLsbD 2

theorem loosened_refl (entry : Entry) : Loosened entry entry := ⟨rfl, rfl, rfl, id, id, rfl⟩

theorem loosened_trans {a b c : Entry} (first : Loosened a b) (second : Loosened b c) : Loosened a c :=
  ⟨second.table.trans first.table, second.present.trans first.present, second.big.trans first.big,
    fun set => second.write (first.write set), fun clear => second.exec (first.exec clear), second.user.trans first.user⟩

theorem loosened_descends {entry next : Entry} (loosened : Loosened entry next) (level : Nat) :
    Descends level next ↔ Descends level entry := descends_iff_of_bits loosened.present loosened.big

theorem rewrite_passed_loosened (prot : Protection) (entry : Entry) : Loosened entry (rewritePassed prot entry) := by
  refine ⟨table_of_congr fun k low high => ?_, ?_, ?_, fun set => ?_, fun clear => ?_, ?_⟩
  · rw [rewrite_passed_bit prot entry (show k < 64 by omega)]
    simp [show k ≠ 1 by omega, show k ≠ 63 by omega]
  · rw [rewrite_passed_bit prot entry (by decide)]
    simp
  · rw [rewrite_passed_bit prot entry (by decide)]
    simp
  · rw [rewrite_passed_bit prot entry (by decide), set]
    simp
  · rw [rewrite_passed_bit prot entry (by decide), clear]
    simp
  · rw [rewrite_passed_bit prot entry (by decide)]
    simp

theorem rewrite_passed_opens (prot : Protection) (entry : Entry) :
    (prot.write = true → (rewritePassed prot entry).getLsbD 1 = true) ∧
      (prot.exec = true → (rewritePassed prot entry).getLsbD 63 = false) := by
  refine ⟨fun write => ?_, fun exec => ?_⟩
  · rw [rewrite_passed_bit prot entry (by decide), write]
    simp
  · rw [rewrite_passed_bit prot entry (by decide), exec]
    simp

-- The entries above a level on the way to an address have been passed.
structure Passing (top v l : Nat) (prot : Protection) (s s' : State) : Prop where
  tree : Tree s'.memory top
  reaches : ∀ w k u, Reaches s'.memory top w k u ↔ Reaches s.memory top w k u
  reads : ∀ w k u, Reaches s.memory top w k u → s'.memory (u + 8 * vaddrToIndex w k) =
    if l < k ∧ SameSlot k v w then rewritePassed prot (s.memory (u + 8 * vaddrToIndex w k))
    else s.memory (u + 8 * vaddrToIndex w k)

section Round

variable {top v l t remaining : Nat} {prot : Protection} {cache : Cache} {privilege : Privilege} {isGlobal : Bool} {s : State}

theorem rewrite_round_down (tree : Tree s.memory top) (reach : Reaches s.memory top v l t) :
    ∃ s', rewriteRound prot cache privilege isGlobal v remaining levelCount top s =
      rewriteRound prot cache privilege isGlobal v remaining l t s' ∧ Passing top v l prot s s' := by
  induction reach with
  | top =>
      refine ⟨s, rfl, tree, fun _ _ _ => Iff.rfl, fun w k u other => ?_⟩
      rw [if_neg fun both => absurd (reaches_level other) (Nat.not_le_of_lt both.1)]
  | down level table previous descends ih =>
      obtain ⟨s₁, run, passing⟩ := ih
      obtain ⟨entry, here⟩ : ∃ entry, entry = s.memory (table + 8 * vaddrToIndex v (level + 1)) := ⟨_, rfl⟩
      have read : s₁.memory (table + 8 * vaddrToIndex v (level + 1)) = entry := by
        rw [passing.reads v (level + 1) table previous, if_neg fun both => absurd both.1 (Nat.lt_irrefl _), here]
      rw [← here] at descends ⊢
      have loosened := rewrite_passed_loosened prot entry
      have reach₁ : Reaches s₁.memory top v (level + 1) table := (passing.reaches v (level + 1) table).mpr previous
      have keeps : Descends (level + 1) (rewritePassed prot entry) ↔
          Descends (level + 1) (s₁.memory (table + 8 * vaddrToIndex v (level + 1))) := by
        rw [read]
        exact loosened_descends loosened (level + 1)
      have points : Descends (level + 1) (rewritePassed prot entry) →
          tableOf (rewritePassed prot entry) = tableOf (s₁.memory (table + 8 * vaddrToIndex v (level + 1))) := by
        intro _
        rw [read]
        exact loosened.table
      refine ⟨s₁.store table (vaddrToIndex v (level + 1)) (rewritePassed prot entry), ?_, ?_, fun w k u => ?_, fun w k u other => ?_⟩
      · obtain ⟨below, present, small⟩ := descends
        obtain ⟨j, rfl⟩ : ∃ j, level = j + 1 := ⟨level - 1, by omega⟩
        have load : s₁.load table (vaddrToIndex v (j + 2)) = entry := read
        have reload : (s₁.store table (vaddrToIndex v (j + 2)) (rewritePassed prot entry)).load table (vaddrToIndex v (j + 2)) =
            rewritePassed prot entry := Function.update_self _ _ _
        have notAbsent : ¬ entry &&& entryFlagPresent = 0 := fun zero => (absent_iff _).mp zero present
        have notBig : ¬ entry &&& entryhFlagPs ≠ 0 := fun big => small ((big_iff _).mp big)
        rw [run, rewriteRound]
        dsimp only
        rw [load, if_neg notAbsent, if_neg notBig, reload, loosened.table]
      · exact store_tree passing.tree reach₁ keeps points
      · rw [store_memory, store_reaches passing.tree reach₁ keeps points, passing.reaches]
      · rw [store_memory, read_store passing.tree reach₁ ((passing.reaches w k u).mpr other)]
        by_cases same : k = level + 1 ∧ SameSlot (level + 1) v w
        · obtain ⟨rfl, slot⟩ := same
          rw [if_pos ⟨rfl, slot⟩, if_pos ⟨Nat.lt_succ_self _, slot⟩, read_slot previous other slot, here]
        · rw [if_neg same, passing.reads w k u other]
          have higher : (level + 1 < k ∧ SameSlot k v w) ↔ (level < k ∧ SameSlot k v w) := by
            refine and_congr_left fun slot => ⟨fun after => by omega, fun after => ?_⟩
            exact Nat.lt_of_le_of_ne after fun equal => same ⟨equal.symm, equal ▸ slot⟩
          exact if_congr higher rfl rfl

end Round

-- What one round does to the entries of the tree.
structure Rounded (top v l : Nat) (prot : Protection) (cache : Cache) (privilege : Privilege) (isGlobal : Bool) (s s' : State) :
    Prop where
  tree : Tree s'.memory top
  reaches : ∀ w k u, Reaches s'.memory top w k u ↔ Reaches s.memory top w k u
  above : ∀ w k u, Reaches s.memory top w k u → l < k → SameSlot k v w →
    s'.memory (u + 8 * vaddrToIndex w k) = rewritePassed prot (s.memory (u + 8 * vaddrToIndex w k))
  leaf : ∀ w u, Reaches s.memory top w l u → SameSlot l v w → (Present (s.memory (u + 8 * vaddrToIndex w l)) →
      s'.memory (u + 8 * vaddrToIndex w l) = rewriteLeaf prot cache privilege isGlobal l (s.memory (u + 8 * vaddrToIndex w l))) ∧
    (¬ Present (s.memory (u + 8 * vaddrToIndex w l)) → ¬ Present (s'.memory (u + 8 * vaddrToIndex w l)))
  other : ∀ w k u, Reaches s.memory top w k u → ¬ (l ≤ k ∧ SameSlot k v w) →
    s'.memory (u + 8 * vaddrToIndex w k) = s.memory (u + 8 * vaddrToIndex w k)

section Rounds

variable {top v l t remaining : Nat} {prot : Protection} {cache : Cache} {privilege : Privilege} {isGlobal : Bool} {s s₁ : State}
  (reach : Reaches s.memory top v l t) (stops : ¬ Descends l (s.memory (t + 8 * vaddrToIndex v l)))
  (passing : Passing top v l prot s s₁)

include reach stops passing

omit stops in
theorem rounded_absent (absent : ¬ Present (s.memory (t + 8 * vaddrToIndex v l))) :
    Rounded top v l prot cache privilege isGlobal s s₁ := by
  have kept : ∀ w u, Reaches s.memory top w l u → s₁.memory (u + 8 * vaddrToIndex w l) = s.memory (u + 8 * vaddrToIndex w l) :=
    fun w u other => (passing.reads w l u other).trans (if_neg fun both => Nat.lt_irrefl _ both.1)
  refine ⟨passing.tree, passing.reaches, fun w k u other higher same => ?_, fun w u other same => ⟨fun present => ?_, fun gone => ?_⟩,
    fun w k u other outside => ?_⟩
  · rw [passing.reads w k u other, if_pos ⟨higher, same⟩]
  · rw [read_slot reach other same] at present
    exact absurd present absent
  · rw [kept w u other]
    exact gone
  · rw [passing.reads w k u other, if_neg fun both => outside ⟨Nat.le_of_lt both.1, both.2⟩]

theorem rounded_leaf : Rounded top v l prot cache privilege isGlobal s (s₁.store t (vaddrToIndex v l)
    (rewriteLeaf prot cache privilege isGlobal l (s.memory (t + 8 * vaddrToIndex v l)))) := by
  obtain ⟨leaf, written⟩ : ∃ leaf, leaf = rewriteLeaf prot cache privilege isGlobal l (s.memory (t + 8 * vaddrToIndex v l)) := ⟨_, rfl⟩
  rw [← written]
  have positive := reaches_positive reach
  have present : leaf.getLsbD 0 = (s.memory (t + 8 * vaddrToIndex v l)).getLsbD 0 :=
    written ▸ rewrite_leaf_kept prot cache privilege isGlobal _ l 0 positive (by decide) (by decide)
  have big : leaf.getLsbD 7 = (s.memory (t + 8 * vaddrToIndex v l)).getLsbD 7 :=
    written ▸ rewrite_leaf_kept prot cache privilege isGlobal _ l 7 positive (by decide) (by decide)
  have reach₁ : Reaches s₁.memory top v l t := (passing.reaches v l t).mpr reach
  have read : s₁.memory (t + 8 * vaddrToIndex v l) = s.memory (t + 8 * vaddrToIndex v l) :=
    (passing.reads v l t reach).trans (if_neg fun both => Nat.lt_irrefl _ both.1)
  have same : Descends l leaf ↔ Descends l (s.memory (t + 8 * vaddrToIndex v l)) := descends_iff_of_bits present big
  have keeps : Descends l leaf ↔ Descends l (s₁.memory (t + 8 * vaddrToIndex v l)) := by rw [read, same]
  have points : Descends l leaf → tableOf leaf = tableOf (s₁.memory (t + 8 * vaddrToIndex v l)) := fun descends =>
    absurd (same.mp descends) stops
  have stored : ∀ w k u, Reaches s.memory top w k u →
      (s₁.store t (vaddrToIndex v l) leaf).memory (u + 8 * vaddrToIndex w k) =
        if k = l ∧ SameSlot l v w then leaf else s₁.memory (u + 8 * vaddrToIndex w k) := by
    intro w k u other
    rw [store_memory, read_store passing.tree reach₁ ((passing.reaches w k u).mpr other)]
  refine ⟨store_tree passing.tree reach₁ keeps points, fun w k u => ?_, fun w k u other higher slot => ?_, fun w u other slot => ?_,
    fun w k u other outside => ?_⟩
  · rw [store_memory, store_reaches passing.tree reach₁ keeps points, passing.reaches]
  · rw [stored w k u other, if_neg fun both => absurd both.1 (by omega), passing.reads w k u other, if_pos ⟨higher, slot⟩]
  · rw [stored w l u other, if_pos ⟨rfl, slot⟩, read_slot reach other slot]
    refine ⟨fun _ => written, fun absent => ?_⟩
    unfold Present
    rw [present]
    exact absent
  · have away : ¬ (k = l ∧ SameSlot l v w) := fun both => outside ⟨Nat.le_of_eq both.1.symm, by rw [both.1]; exact both.2⟩
    rw [stored w k u other, if_neg away, passing.reads w k u other, if_neg fun both => outside ⟨Nat.le_of_lt both.1, both.2⟩]

end Rounds

theorem rewrite_round_spec {top v l t remaining : Nat} {prot : Protection} {cache : Cache} {privilege : Privilege} {isGlobal : Bool}
    {s : State} (tree : Tree s.memory top) (reach : Reaches s.memory top v l t)
    (stops : ¬ Descends l (s.memory (t + 8 * vaddrToIndex v l)))
    (shallow : Present (s.memory (t + 8 * vaddrToIndex v l)) → l < levelCount) :
    (¬ (Present (s.memory (t + 8 * vaddrToIndex v l)) ∧ 1 < l ∧ MustBreak v remaining (vaddrToIndex v l) l) ∧
        ∃ s', rewriteRound prot cache privilege isGlobal v remaining levelCount top s = .ok (s', l) ∧
          Rounded top v l prot cache privilege isGlobal s s') ∨
      ((Present (s.memory (t + 8 * vaddrToIndex v l)) ∧ 1 < l ∧ MustBreak v remaining (vaddrToIndex v l) l) ∧
        ∃ fault, rewriteRound prot cache privilege isGlobal v remaining levelCount top s = .error fault) := by
  obtain ⟨s₁, run, passing⟩ := @rewrite_round_down top v l t remaining prot cache privilege isGlobal s tree reach
  have positive := reaches_positive reach
  have read : s₁.load t (vaddrToIndex v l) = s.memory (t + 8 * vaddrToIndex v l) :=
    (passing.reads v l t reach).trans (if_neg fun both => Nat.lt_irrefl _ both.1)
  have leaf := @rounded_leaf top v l t prot cache privilege isGlobal s s₁ reach stops passing
  rw [run]
  by_cases lowest : l = 1
  · subst lowest
    refine .inl ⟨fun broken => absurd broken.2.1 (by decide), _, ?_, leaf⟩
    rw [rewriteRound, read]
  · obtain ⟨j, rfl⟩ : ∃ j, l = j + 2 := ⟨l - 2, by omega⟩
    rw [rewriteRound]
    dsimp only
    rw [read]
    by_cases present : Present (s.memory (t + 8 * vaddrToIndex v (j + 2)))
    · have notAbsent : ¬ s.memory (t + 8 * vaddrToIndex v (j + 2)) &&& entryFlagPresent = 0 := fun zero => (absent_iff _).mp zero present
      have isBig : s.memory (t + 8 * vaddrToIndex v (j + 2)) &&& entryhFlagPs ≠ 0 := by
        refine (big_iff _).mpr ?_
        by_contra small
        exact stops ⟨by omega, present, small⟩
      have level := shallow present
      have asserted : assertThat (decide (j + 2 ≤ 3)) = .ok () := if_pos (decide_eq_true (by unfold levelCount at level; omega))
      rw [if_neg notAbsent, if_pos isBig, asserted, bind_ok]
      by_cases must : MustBreak v remaining (vaddrToIndex v (j + 2)) (j + 2)
      · obtain ⟨fault, failed⟩ := break_big_fails t (vaddrToIndex v (j + 2)) (j + 2) s₁
        rw [if_pos must, failed]
        exact .inr ⟨⟨present, by omega, must⟩, fault, rfl⟩
      · rw [if_neg must]
        exact .inl ⟨fun broken => must broken.2.2, _, rfl, leaf⟩
    · have isAbsent : s.memory (t + 8 * vaddrToIndex v (j + 2)) &&& entryFlagPresent = 0 := (absent_iff _).mpr present
      rw [if_pos isAbsent]
      exact .inl ⟨fun broken => present broken.1, s₁, rfl, rounded_absent reach passing present⟩

end Elysium.Ptm
