import Elysium.PtmBits

set_option autoImplicit false

namespace Elysium.Ptm

-- What the processor reads for an address, from the table of a level down to the
-- entry that is absent or maps a page.
def entries (memory : Nat → Entry) (vaddr : Nat) : Nat → Nat → List Entry
  | 0, _ => []
  | level + 1, table =>
      let entry := memory (table + 8 * vaddrToIndex vaddr (level + 1))
      if Descends (level + 1) entry then entry :: entries memory vaddr level (tableOf entry) else [entry]

inductive Reaches (memory : Nat → Entry) (top vaddr : Nat) : Nat → Nat → Prop where
  | top : Reaches memory top vaddr levelCount top
  | down (level table : Nat) (previous : Reaches memory top vaddr (level + 1) table)
      (descends : Descends (level + 1) (memory (table + 8 * vaddrToIndex vaddr (level + 1)))) :
      Reaches memory top vaddr level (tableOf (memory (table + 8 * vaddrToIndex vaddr (level + 1))))

-- The addresses that share the entry of a level.
def SameSlot (level vaddr other : Nat) : Prop :=
  ∀ k, level ≤ k → k ≤ levelCount → vaddrToIndex vaddr k = vaddrToIndex other k

instance (level vaddr other : Nat) : Decidable (SameSlot level vaddr other) :=
  decidable_of_iff (∀ k < levelCount + 1, level ≤ k → vaddrToIndex vaddr k = vaddrToIndex other k)
    ⟨fun same k low high => same k (Nat.lt_succ_of_le high) low, fun same k high low => same k low (Nat.le_of_lt_succ high)⟩

-- No table is used in two places.
structure Tree (memory : Nat → Entry) (top : Nat) : Prop where
  aligned : top % pageGranularity = 0
  separate : ∀ v w l k t, Reaches memory top v l t → Reaches memory top w k t → l = k ∧ SameSlot (l + 1) v w

theorem store_memory (s : State) (table index : Nat) (entry : Entry) :
    (s.store table index entry).memory = Function.update s.memory (table + 8 * index) entry := rfl

theorem index_lt (vaddr level : Nat) : vaddrToIndex vaddr level < 512 :=
  Nat.lt_of_le_of_lt Nat.and_le_right (by decide)

theorem same_slot_refl (level v : Nat) : SameSlot level v v := fun _ _ _ => rfl

theorem same_slot_symm {level v w : Nat} (same : SameSlot level v w) : SameSlot level w v := fun k low high => (same k low high).symm

theorem same_slot_trans {level v w x : Nat} (first : SameSlot level v w) (second : SameSlot level w x) : SameSlot level v x :=
  fun k low high => (first k low high).trans (second k low high)

theorem same_slot_mono {level k v w : Nat} (above : level ≤ k) (same : SameSlot level v w) : SameSlot k v w :=
  fun i low high => same i (Nat.le_trans above low) high

theorem same_slot_step {level v w : Nat} (index : vaddrToIndex v level = vaddrToIndex w level) (same : SameSlot (level + 1) v w) :
    SameSlot level v w := by
  intro k low high
  rcases Nat.lt_or_eq_of_le low with later | rfl
  · exact same k later high
  · exact index

section Reach

variable {memory : Nat → Entry} {top v w l t : Nat}

theorem reaches_level (reach : Reaches memory top v l t) : l ≤ levelCount := by
  induction reach with
  | top => exact Nat.le_refl _
  | down level table _ _ ih => exact Nat.le_of_succ_le ih

theorem reaches_positive (reach : Reaches memory top v l t) : 1 ≤ l := by
  cases reach with
  | top => decide
  | down level table _ descends => exact Nat.le_of_lt_succ descends.1

theorem reaches_aligned (aligned : top % pageGranularity = 0) (reach : Reaches memory top v l t) : t % pageGranularity = 0 := by
  cases reach with
  | top => exact aligned
  | down level table _ _ => exact table_of_aligned _

theorem reaches_unique {u : Nat} (reach : Reaches memory top v l t) (other : Reaches memory top v l u) : t = u := by
  induction reach generalizing u with
  | top =>
      cases other with
      | top => rfl
      | down _ table previous _ => exact absurd (reaches_level previous) (by decide)
  | down level table previous _ ih =>
      cases other with
      | top => exact absurd (reaches_level previous) (by decide)
      | down _ second before _ => rw [ih before]

theorem reaches_same (reach : Reaches memory top v l t) (same : SameSlot (l + 1) v w) : Reaches memory top w l t := by
  induction reach with
  | top => exact .top
  | down level table previous descends ih =>
      have here : vaddrToIndex v (level + 1) = vaddrToIndex w (level + 1) := same _ (Nat.le_refl _) (reaches_level previous)
      rw [here] at descends ⊢
      exact .down level table (ih (same_slot_mono (Nat.le_succ _) same)) descends

end Reach

-- The entries of a whole path and those from a table on it.
theorem reaches_entries {memory : Nat → Entry} {top v l t : Nat} (reach : Reaches memory top v l t) :
    ∃ above, entries memory v levelCount top = above ++ entries memory v l t ∧ above.length = levelCount - l := by
  induction reach with
  | top => exact ⟨[], rfl, rfl⟩
  | down level table previous descends ih =>
      obtain ⟨above, whole, length⟩ := ih
      refine ⟨above ++ [memory (table + 8 * vaddrToIndex v (level + 1))], ?_, ?_⟩
      · rw [whole, entries, if_pos descends, List.append_assoc]
        rfl
      · have bound := reaches_level previous
        rw [List.length_append, length, List.length_singleton]
        omega

theorem entries_descend {memory : Nat → Entry} {v l t : Nat} (descends : Descends (l + 1) (memory (t + 8 * vaddrToIndex v (l + 1)))) :
    entries memory v (l + 1) t = memory (t + 8 * vaddrToIndex v (l + 1)) ::
      entries memory v l (tableOf (memory (t + 8 * vaddrToIndex v (l + 1)))) := by
  rw [entries, if_pos descends]

theorem entries_stop {memory : Nat → Entry} {v l t : Nat} (positive : 1 ≤ l)
    (stops : ¬ Descends l (memory (t + 8 * vaddrToIndex v l))) :
    entries memory v l t = [memory (t + 8 * vaddrToIndex v l)] := by
  obtain ⟨k, rfl⟩ : ∃ k, l = k + 1 := ⟨l - 1, by omega⟩
  rw [entries, if_neg stops]

theorem entries_nonempty {memory : Nat → Entry} {v l t : Nat} (positive : 1 ≤ l) : entries memory v l t ≠ [] := by
  obtain ⟨k, rfl⟩ : ∃ k, l = k + 1 := ⟨l - 1, by omega⟩
  rw [entries]
  by_cases descends : Descends (k + 1) (memory (t + 8 * vaddrToIndex v (k + 1)))
  · rw [if_pos descends]
    exact List.cons_ne_nil _ _
  · rw [if_neg descends]
    exact List.cons_ne_nil _ _

-- An entry on the way down stands before others.
theorem reaches_split {memory : Nat → Entry} {top v l t : Nat} (reach : Reaches memory top v l t)
    (descends : Descends l (memory (t + 8 * vaddrToIndex v l))) :
    ∃ above rest, entries memory v levelCount top = above ++ memory (t + 8 * vaddrToIndex v l) :: rest ∧
      above.length = levelCount - l ∧ rest ≠ [] := by
  obtain ⟨above, whole, length⟩ := reaches_entries reach
  have below := descends.1
  obtain ⟨k, rfl⟩ : ∃ k, l = k + 1 := ⟨l - 1, by omega⟩
  rw [entries_descend descends] at whole
  exact ⟨above, _, whole, length, entries_nonempty (by omega)⟩

-- The entry at which a path ends is its last.
theorem reaches_last {memory : Nat → Entry} {top v l t : Nat} (reach : Reaches memory top v l t)
    (stops : ¬ Descends l (memory (t + 8 * vaddrToIndex v l))) :
    ∃ above, entries memory v levelCount top = above ++ [memory (t + 8 * vaddrToIndex v l)] ∧
      above.length = levelCount - l := by
  obtain ⟨above, whole, length⟩ := reaches_entries reach
  rw [entries_stop (reaches_positive reach) stops] at whole
  exact ⟨above, whole, length⟩

section Store

variable {memory : Nat → Entry} {top v l t : Nat} {entry : Entry} (tree : Tree memory top) (reach : Reaches memory top v l t)

include tree reach

-- A store is seen by the addresses that share the slot, and at that level only.
theorem read_store {w k u : Nat} (other : Reaches memory top w k u) :
    Function.update memory (t + 8 * vaddrToIndex v l) entry (u + 8 * vaddrToIndex w k) =
      if k = l ∧ SameSlot l v w then entry else memory (u + 8 * vaddrToIndex w k) := by
  by_cases here : k = l ∧ SameSlot l v w
  · obtain ⟨rfl, same⟩ := here
    have table : u = t := reaches_unique other (reaches_same reach (same_slot_mono (Nat.le_succ _) same))
    rw [if_pos ⟨rfl, same⟩, table, same k (Nat.le_refl _) (reaches_level reach), Function.update_self]
  · rw [if_neg here]
    refine Function.update_of_ne (fun clash => here ?_) _ _
    have one := index_lt v l
    have two := index_lt w k
    have alignedT := reaches_aligned tree.aligned reach
    have alignedU := reaches_aligned tree.aligned other
    have table : u = t := by
      unfold pageGranularity at alignedT alignedU
      omega
    obtain ⟨level, above⟩ := tree.separate v w l k t reach (table ▸ other)
    refine ⟨level.symm, same_slot_step ?_ above⟩
    rw [← level] at clash
    omega

omit tree in
theorem read_slot {w u : Nat} (other : Reaches memory top w l u) (same : SameSlot l v w) :
    memory (u + 8 * vaddrToIndex w l) = memory (t + 8 * vaddrToIndex v l) := by
  rw [reaches_unique other (reaches_same reach (same_slot_mono (Nat.le_succ _) same)),
    same l (Nat.le_refl _) (reaches_level reach)]

variable (keeps : Descends l entry ↔ Descends l (memory (t + 8 * vaddrToIndex v l)))
  (table : Descends l entry → tableOf entry = tableOf (memory (t + 8 * vaddrToIndex v l)))

include keeps table

theorem store_reaches (w k u : Nat) :
    Reaches (Function.update memory (t + 8 * vaddrToIndex v l) entry) top w k u ↔ Reaches memory top w k u := by
  constructor
  · intro other
    induction other with
    | top => exact .top
    | down level second _ descends ih =>
        rw [read_store tree reach ih] at descends ⊢
        by_cases here : level + 1 = l ∧ SameSlot l v w
        · rw [if_pos here] at descends ⊢
          obtain ⟨rfl, same⟩ := here
          have read := read_slot reach ih same
          rw [table descends, ← read]
          exact .down level second ih (read ▸ keeps.mp descends)
        · rw [if_neg here] at descends ⊢
          exact .down level second ih descends
  · intro other
    induction other with
    | top => exact .top
    | down level second previous descends ih =>
        have stored := @read_store memory top v l t entry tree reach w (level + 1) second previous
        by_cases here : level + 1 = l ∧ SameSlot l v w
        · rw [if_pos here] at stored
          obtain ⟨rfl, same⟩ := here
          have read := read_slot reach previous same
          rw [read] at descends ⊢
          have next := Reaches.down level second ih (by rw [stored]; exact keeps.mpr descends)
          rw [stored, table (keeps.mpr descends)] at next
          exact next
        · rw [if_neg here] at stored
          rw [← stored] at descends ⊢
          exact .down level second ih descends

theorem store_tree : Tree (Function.update memory (t + 8 * vaddrToIndex v l) entry) top := by
  refine ⟨tree.aligned, fun w x k j u first second => ?_⟩
  rw [store_reaches tree reach keeps table] at first second
  exact tree.separate w x k j u first second

theorem entries_store_from {w : Nat} (k u : Nat) (other : Reaches memory top w k u) :
    entries (Function.update memory (t + 8 * vaddrToIndex v l) entry) w k u =
      if SameSlot l v w ∧ l ≤ k then (entries memory w k u).set (k - l) entry else entries memory w k u := by
  induction k generalizing u with
  | zero => exact absurd (reaches_positive other) (by decide)
  | succ k ih =>
      rw [entries, entries, read_store tree reach other]
      by_cases here : k + 1 = l ∧ SameSlot l v w
      · obtain ⟨rfl, same⟩ := here
        have read := read_slot reach other same
        rw [if_pos (show k + 1 = k + 1 ∧ SameSlot (k + 1) v w from ⟨rfl, same⟩),
          if_pos (show SameSlot (k + 1) v w ∧ k + 1 ≤ k + 1 from ⟨same, Nat.le_refl _⟩), Nat.sub_self, read]
        by_cases descends : Descends (k + 1) entry
        · have next : Reaches memory top w k (tableOf (memory (u + 8 * vaddrToIndex w (k + 1)))) :=
            .down k u other (read ▸ keeps.mp descends)
          have rest := ih _ next
          rw [read, if_neg fun both => absurd both.2 (by omega)] at rest
          rw [if_pos descends, if_pos (keeps.mp descends), table descends, rest, List.set_cons_zero]
        · rw [if_neg descends, if_neg (keeps.not.mp descends), List.set_cons_zero]
      · rw [if_neg here]
        have within : (SameSlot l v w ∧ l ≤ k + 1) ↔ (SameSlot l v w ∧ l ≤ k) := by
          refine and_congr_right fun same => ⟨fun le => ?_, Nat.le_succ_of_le⟩
          exact Nat.le_of_lt_succ (Nat.lt_of_le_of_ne le fun equal => here ⟨equal.symm, same⟩)
        by_cases descends : Descends (k + 1) (memory (u + 8 * vaddrToIndex w (k + 1)))
        · rw [if_pos descends, if_pos descends, ih _ (.down k u other descends)]
          by_cases inside : SameSlot l v w ∧ l ≤ k
          · rw [if_pos inside, if_pos (within.mpr inside), Nat.succ_sub inside.2, List.set_cons_succ]
          · rw [if_neg inside, if_neg (within.not.mpr inside)]
        · rw [if_neg descends, if_neg descends]
          by_cases inside : SameSlot l v w ∧ l ≤ k
          · rw [if_pos (within.mpr inside), Nat.succ_sub inside.2]
            rfl
          · rw [if_neg (within.not.mpr inside)]

theorem entries_store (w : Nat) :
    entries (Function.update memory (t + 8 * vaddrToIndex v l) entry) w levelCount top =
      if SameSlot l v w then (entries memory w levelCount top).set (levelCount - l) entry
      else entries memory w levelCount top := by
  rw [entries_store_from tree reach keeps table levelCount top .top]
  have bound := reaches_level reach
  by_cases same : SameSlot l v w
  · rw [if_pos ⟨same, bound⟩, if_pos same]
  · rw [if_neg fun both => same both.1, if_neg same]

end Store

end Elysium.Ptm
