import Elysium.PtmRewrite

set_option autoImplicit false

namespace Elysium.Ptm

open Vm (Protection Cache Privilege kernelspaceStart protRW)

-- After k rounds: the leaves they have come to are rewritten, the others are as
-- they were, and the entries above are opened at most.
structure Rewriting (memory : Nat → Entry) (top vaddr : Nat) (prot : Protection) (cache : Cache) (privilege : Privilege)
    (isGlobal : Bool) (k : Nat) (s : State) : Prop where
  tree : Tree s.memory top
  reaches : ∀ v l t, Reaches s.memory top v l t ↔ Reaches memory top v l t
  passed : ∀ v l t, Reaches memory top v l t → Descends l (memory (t + 8 * vaddrToIndex v l)) →
    Loosened (memory (t + 8 * vaddrToIndex v l)) (s.memory (t + 8 * vaddrToIndex v l))
  opened : ∀ v l t, Met memory top vaddr k v → Reaches memory top v l t → Descends l (memory (t + 8 * vaddrToIndex v l)) →
    (prot.write = true → (s.memory (t + 8 * vaddrToIndex v l)).getLsbD 1 = true) ∧
      (prot.exec = true → (s.memory (t + 8 * vaddrToIndex v l)).getLsbD 63 = false)
  unmet : ∀ v l t, Reaches memory top v l t → ¬ Descends l (memory (t + 8 * vaddrToIndex v l)) → ¬ Met memory top vaddr k v →
    s.memory (t + 8 * vaddrToIndex v l) = memory (t + 8 * vaddrToIndex v l)
  met : ∀ v l t, Reaches memory top v l t → ¬ Descends l (memory (t + 8 * vaddrToIndex v l)) → Met memory top vaddr k v →
    (Present (memory (t + 8 * vaddrToIndex v l)) → s.memory (t + 8 * vaddrToIndex v l) =
        rewriteLeaf prot cache privilege isGlobal l (memory (t + 8 * vaddrToIndex v l))) ∧
      (¬ Present (memory (t + 8 * vaddrToIndex v l)) → ¬ Present (s.memory (t + 8 * vaddrToIndex v l)))

section Step

variable {memory : Nat → Entry} {top vaddr length : Nat} {prot : Protection} {cache : Cache} {privilege : Privilege}
  {isGlobal : Bool} (canonical : ∀ d < length, Canonical (vaddr + d))

theorem met_same {k v w : Nat} {l : Nat} (same : SameSlot l v w) (level : stopLevel memory top v = l)
    (met : Met memory top vaddr k v) : Met memory top vaddr k w := by
  obtain ⟨i, before, slot⟩ := met
  refine ⟨i, before, ?_⟩
  have stop := same_slot_stop slot
  rw [level] at stop
  rw [← stop] at slot ⊢
  exact same_slot_trans slot same

include canonical

theorem rewriting_step {k : Nat} {s : State} (rewriting : Rewriting memory top vaddr prot cache privilege isGlobal k s)
    (shallow : ∀ v l t, Reaches memory top v l t → ¬ Descends l (memory (t + 8 * vaddrToIndex v l)) →
      Present (memory (t + 8 * vaddrToIndex v l)) → l < levelCount)
    (breaks : ∀ v l t remaining, Reaches memory top v l t → ¬ Descends l (memory (t + 8 * vaddrToIndex v l)) →
      (Breaks memory top v remaining ↔
        Present (memory (t + 8 * vaddrToIndex v l)) ∧ 1 < l ∧ MustBreak v remaining (vaddrToIndex v l) l))
    (inside : cursor memory top vaddr k < length) :
    (¬ Breaks memory top (vaddr + cursor memory top vaddr k) (length - cursor memory top vaddr k) ∧
        ∃ s', rewriteRound prot cache privilege isGlobal (vaddr + cursor memory top vaddr k) (length - cursor memory top vaddr k)
          levelCount top s = .ok (s', stopLevel memory top (vaddr + cursor memory top vaddr k)) ∧
          Rewriting memory top vaddr prot cache privilege isGlobal (k + 1) s') ∨
      (Breaks memory top (vaddr + cursor memory top vaddr k) (length - cursor memory top vaddr k) ∧
        ∃ fault, rewriteRound prot cache privilege isGlobal (vaddr + cursor memory top vaddr k)
          (length - cursor memory top vaddr k) levelCount top s = .error fault) := by
  have unmetU := cursor_unmet canonical inside
  obtain ⟨u, here⟩ : ∃ u, u = vaddr + cursor memory top vaddr k := ⟨_, rfl⟩
  have metNext : ∀ a, Met memory top vaddr (k + 1) a ↔ Met memory top vaddr k a ∨ SameSlot (stopLevel memory top u) u a := by
    intro a
    rw [met_succ, here]
  rw [← here] at unmetU ⊢
  obtain ⟨t, reach, stops⟩ := stop_level_reached memory top u
  obtain ⟨l, level⟩ : ∃ l, l = stopLevel memory top u := ⟨_, rfl⟩
  rw [← level] at reach stops metNext ⊢
  have same := rewriting.unmet u l t reach stops unmetU
  have reachS : Reaches s.memory top u l t := (rewriting.reaches u l t).mpr reach
  have spec := @rewrite_round_spec top u l t (length - cursor memory top vaddr k) prot cache privilege isGlobal s rewriting.tree reachS
    (same ▸ stops) (same ▸ shallow u l t reach stops)
  rw [same, ← breaks u l t _ reach stops] at spec
  rcases spec with ⟨whole, s', run, rounded⟩ | failed
  · refine .inl ⟨whole, s', run, rounded.tree, fun v k t => (rounded.reaches v k t).trans (rewriting.reaches v k t), ?_, ?_, ?_, ?_⟩
    · intro v j w other descends
      have old := rewriting.passed v j w other descends
      have otherS := (rewriting.reaches v j w).mpr other
      by_cases shared : l ≤ j ∧ SameSlot j u v
      · rcases Nat.lt_or_eq_of_le shared.1 with higher | rfl
        · rw [rounded.above v j w otherS higher shared.2]
          exact loosened_trans old (rewrite_passed_loosened prot _)
        · exact absurd (read_slot reach other shared.2 ▸ descends) stops
      · rw [rounded.other v j w otherS shared]
        exact old
    · intro v j w met other descends
      have otherS := (rewriting.reaches v j w).mpr other
      by_cases shared : l ≤ j ∧ SameSlot j u v
      · rcases Nat.lt_or_eq_of_le shared.1 with higher | rfl
        · rw [rounded.above v j w otherS higher shared.2]
          exact rewrite_passed_opens prot _
        · exact absurd (read_slot reach other shared.2 ▸ descends) stops
      · rw [rounded.other v j w otherS shared]
        refine rewriting.opened v j w (((metNext v).mp met).resolve_right fun slot => shared ?_) other descends
        -- The path of an address in the slot goes through the entry.
        have reachV : Reaches memory top v l t := reaches_same reach (same_slot_mono (Nat.le_succ _) slot)
        have lower : l ≤ j := by
          by_contra below
          have passes := reaches_descends other (Nat.lt_of_not_le below) reachV
          exact stops (read_slot reach reachV slot ▸ passes)
        exact ⟨lower, same_slot_mono lower slot⟩
    · intro v j w other ends unmet
      rw [metNext, not_or] at unmet
      have otherS := (rewriting.reaches v j w).mpr other
      rw [rounded.other v j w otherS, rewriting.unmet v j w other ends unmet.1]
      rintro ⟨lower, slot⟩
      rcases Nat.lt_or_eq_of_le lower with higher | rfl
      · -- The slot of a leaf is not passed by others.
        have reachV : Reaches memory top u j w := reaches_same other (same_slot_symm (same_slot_mono (Nat.le_succ _) slot))
        have passes := reaches_descends reach higher reachV
        exact ends (read_slot reachV other slot ▸ passes)
      · exact unmet.2 slot
    · intro v j w other ends met
      have otherS := (rewriting.reaches v j w).mpr other
      by_cases slot : SameSlot l u v
      · have levelV : stopLevel memory top v = l := by rw [same_slot_stop (level ▸ slot), level]
        have exactly : j = l := (stop_level_eq other ends).symm.trans levelV
        subst exactly
        have unmetV : ¬ Met memory top vaddr k v := fun old => unmetU (met_same (same_slot_symm slot) levelV old)
        have before := rewriting.unmet v j w other ends unmetV
        have written := rounded.leaf v w otherS slot
        rw [before] at written
        exact written
      · have old := ((metNext v).mp met).resolve_right slot
        rw [rounded.other v j w otherS]
        · exact rewriting.met v j w other ends old
        · rintro ⟨lower, slotJ⟩
          rcases Nat.lt_or_eq_of_le lower with higher | rfl
          · have reachV : Reaches memory top u j w := reaches_same other (same_slot_symm (same_slot_mono (Nat.le_succ _) slotJ))
            have passes := reaches_descends reach higher reachV
            exact ends (read_slot reachV other slotJ ▸ passes)
          · exact slot slotJ
  · exact .inr failed

end Step

theorem reads_member {memory : Nat → Entry} {top v l t : Nat} (reach : Reaches memory top v l t) :
    memory (t + 8 * vaddrToIndex v l) ∈ entries memory v levelCount top := by
  obtain ⟨above, whole, _⟩ := reaches_entries reach
  rw [whole]
  refine List.mem_append_right _ ?_
  by_cases descends : Descends l (memory (t + 8 * vaddrToIndex v l))
  · have below := descends.1
    obtain ⟨k, rfl⟩ : ∃ k, l = k + 1 := ⟨l - 1, by omega⟩
    rw [entries_descend descends]
    exact List.mem_cons_self
  · rw [entries_stop (reaches_positive reach) descends]
    exact List.mem_cons_self

section Translate

variable {s s' : State} {top vaddr n a l t : Nat} {prot : Protection} {cache : Cache} {privilege : Privilege} {isGlobal : Bool}
  (sound : Sound top s) (rewriting : Rewriting s.memory top vaddr prot cache privilege isGlobal n s')
  (reach : Reaches s.memory top a l t) (stops : ¬ Descends l (s.memory (t + 8 * vaddrToIndex a l)))

include rewriting reach stops

theorem rewriting_stops : ¬ Descends l (s'.memory (t + 8 * vaddrToIndex a l)) := by
  by_cases met : Met s.memory top vaddr n a
  · obtain ⟨written, absent⟩ := rewriting.met a l t reach stops met
    by_cases present : Present (s.memory (t + 8 * vaddrToIndex a l))
    · rw [written present]
      have positive := reaches_positive reach
      rw [descends_iff_of_bits (rewrite_leaf_kept prot cache privilege isGlobal _ l 0 positive (by decide) (by decide))
        (rewrite_leaf_kept prot cache privilege isGlobal _ l 7 positive (by decide) (by decide))]
      exact stops
    · exact fun descends => absent present descends.2.1
  · rw [rewriting.unmet a l t reach stops met]
    exact stops

-- The path of an address after the rounds: as long as before, and above the last
-- entry only loosened.
theorem rewriting_path : ∃ above, entries s'.memory a levelCount top = above ++ [s'.memory (t + 8 * vaddrToIndex a l)] ∧
    above.length = levelCount - l ∧ ∀ entry ∈ above, ∃ k u, Reaches s.memory top a k u ∧
      Descends k (s.memory (u + 8 * vaddrToIndex a k)) ∧ entry = s'.memory (u + 8 * vaddrToIndex a k) := by
  have reach' : Reaches s'.memory top a l t := (rewriting.reaches a l t).mpr reach
  obtain ⟨above, whole, length⟩ := reaches_last reach' (rewriting_stops rewriting reach stops)
  refine ⟨above, whole, length, fun entry member => ?_⟩
  have taken : entry ∈ (entries s'.memory a levelCount top).take (levelCount - l) := by
    rw [whole, ← length, List.take_left]
    exact member
  obtain ⟨k, u, higher, reachK, rfl⟩ := above_reads reach' levelCount top .top (reaches_level reach) entry taken
  have old := (rewriting.reaches a k u).mp reachK
  exact ⟨k, u, old, reaches_descends reach higher old, rfl⟩

include sound

theorem unmet_translate (unmet : ¬ Met s.memory top vaddr n a) :
    translate a (entries s'.memory a levelCount top) = translate a (entries s.memory a levelCount top) := by
  obtain ⟨above, path', length', loosened⟩ := rewriting_path rewriting reach stops
  have same := rewriting.unmet a l t reach stops unmet
  rw [same] at path'
  obtain ⟨before, path, length⟩ := reaches_last reach stops
  have last : (entries s.memory a levelCount top).getLast? = some (s.memory (t + 8 * vaddrToIndex a l)) := by
    rw [path, List.getLast?_concat]
  have last' : (entries s'.memory a levelCount top).getLast? = some (s.memory (t + 8 * vaddrToIndex a l)) := by
    rw [path', List.getLast?_concat]
  have granting : Granting (entries s'.memory a levelCount top) := by
    intro leaf isLast present entry member
    obtain rfl : s.memory (t + 8 * vaddrToIndex a l) = leaf := Option.some.inj (last'.symm.trans isLast)
    have grants := sound.granting a _ last present
    rw [path'] at member
    rcases List.mem_append.mp member with higher | here
    · obtain ⟨k, u, reachK, descends, rfl⟩ := loosened entry higher
      have looser := rewriting.passed a k u reachK descends
      obtain ⟨write, user, exec⟩ := grants _ (reads_member reachK)
      exact ⟨fun set => looser.write (write set), fun set => looser.user.trans (user set), fun clear => looser.exec (exec clear)⟩
    · rw [List.mem_singleton.mp here]
      exact ⟨id, id, id⟩
  rw [translate_granting granting last', translate_granting (sound.granting a) last, path', path, List.length_append,
    List.length_append, length', length]

omit sound in
theorem met_translate_absent (met : Met s.memory top vaddr n a) (absent : ¬ Present (s.memory (t + 8 * vaddrToIndex a l))) :
    translate a (entries s'.memory a levelCount top) = none := by
  obtain ⟨above, path', _⟩ := rewriting_path rewriting reach stops
  rw [path', translate_absent List.getLast?_concat ((rewriting.met a l t reach stops met).2 absent)]

theorem met_translate (met : Met s.memory top vaddr n a) (present : Present (s.memory (t + 8 * vaddrToIndex a l))) :
    ∃ T, translate a (entries s'.memory a levelCount top) = some T ∧ T.write = prot.write ∧ T.exec = prot.exec ∧
      T.isGlobal = isGlobal ∧
      T.physical = (rewriteLeaf prot cache privilege isGlobal l (s.memory (t + 8 * vaddrToIndex a l)) &&& frameMask l).toNat +
        a % levelToPagesize l ∧
      T.cache = cacheBits l (rewriteLeaf prot cache privilege isGlobal l (s.memory (t + 8 * vaddrToIndex a l))) := by
  obtain ⟨above, path', length', loosened⟩ := rewriting_path rewriting reach stops
  obtain ⟨leaf, written⟩ : ∃ leaf, leaf = rewriteLeaf prot cache privilege isGlobal l (s.memory (t + 8 * vaddrToIndex a l)) := ⟨_, rfl⟩
  rw [(rewriting.met a l t reach stops met).1 present, ← written] at path'
  have positive := reaches_positive reach
  have bound := reaches_level reach
  have level : levelCount + 1 - (entries s'.memory a levelCount top).length = l := by
    rw [path', List.length_append, length', List.length_singleton]
    omega
  have last : (entries s'.memory a levelCount top).getLast? = some leaf := by rw [path', List.getLast?_concat]
  have bits : leaf.getLsbD 1 = prot.write ∧ leaf.getLsbD 63 = !prot.exec ∧ leaf.getLsbD 8 = isGlobal := by
    rw [written, rewrite_leaf_bit prot cache privilege isGlobal _ (by decide), rewrite_leaf_bit prot cache privilege isGlobal _ (by decide),
      rewrite_leaf_bit prot cache privilege isGlobal _ (by decide)]
    exact ⟨rfl, rfl, rfl⟩
  have presentLeaf : Present leaf := by
    unfold Present
    rw [written, rewrite_leaf_kept prot cache privilege isGlobal _ l 0 positive (by decide) (by decide)]
    exact present
  have grants : ∀ entry ∈ entries s'.memory a levelCount top, (prot.write = true → entry.getLsbD 1 = true) ∧
      (prot.exec = true → entry.getLsbD 63 = false) := by
    intro entry member
    rw [path'] at member
    rcases List.mem_append.mp member with higher | here
    · obtain ⟨k, u, reachK, descends, rfl⟩ := loosened entry higher
      exact rewriting.opened a k u met reachK descends
    · rw [List.mem_singleton.mp here]
      refine ⟨fun write => bits.1.trans write, fun exec => ?_⟩
      rw [bits.2.1, exec]
      rfl
  have write := all_eq_last last (fun entry => entry.getLsbD 1) fun set entry member => (grants entry member).1 (bits.1 ▸ set)
  have exec := all_eq_last last (fun entry => !entry.getLsbD 63) fun set entry member => by
    rw [bits.2.1, Bool.not_not] at set
    rw [(grants entry member).2 set]
    rfl
  unfold translate
  rw [last]
  dsimp only
  rw [level, if_pos ⟨presentLeaf, sound_present sound reach stops present⟩, ← written]
  refine ⟨_, rfl, write.trans bits.1, exec.trans ?_, bits.2.2, rfl, rfl⟩
  rw [bits.2.1, Bool.not_not]

end Translate

def pageSizeOf (level : Nat) : PageSize := if level = 1 then .size4K else if level = 2 then .size2M else .size1G

def encoding : Cache → Bool × Bool × Bool
  | .standard => (false, false, false)
  | .writeCombine => (true, true, false)
  | .none => (false, true, true)

-- The page has the permissions, the global bit and the memory type of this entry.
structure Matches (T : Translation) (leaf : Entry) : Prop where
  write : T.write = leaf.getLsbD 1
  exec : T.exec = !leaf.getLsbD 63
  isGlobal : T.isGlobal = leaf.getLsbD 8
  cache : T.cache = cacheBits T.level leaf

def RewritesExactly (s : State) (top vaddr length : Nat) (prot : Protection) (cache : Cache) (privilege : Privilege)
    (isGlobal : Bool) : Prop :=
  ∃ s', archPtmRewrite top vaddr length prot cache privilege isGlobal s = .ok s' ∧
    ∀ a, (walk s.memory top a = none → walk s'.memory top a = none) ∧ ∀ T, walk s.memory top a = some T →
      ∃ T', walk s'.memory top a = some T' ∧ T'.physical = T.physical ∧ T'.level = T.level ∧
        (vaddr ≤ a ∧ a < vaddr + length → Matches T' (leafEntry 0 (pageSizeOf T.level) prot cache privilege isGlobal)) ∧
        (¬ (vaddr ≤ a ∧ a < vaddr + length) → T'.write = T.write ∧ T'.exec = T.exec ∧ T'.user = T.user ∧ T'.cache = T.cache)

-- The flags of the memory type are added to what is there, and for a small page the
-- PAT flag added is that of a big one, which is an address bit.
def CacheFits (T : Translation) (cache : Cache) : Prop :=
  match cache with
  | .standard => T.cache = encoding .standard
  | .writeCombine =>
      if T.level = 1 then T.cache = encoding .writeCombine ∧ T.physical / pageGranularity % 2 = 1
      else T.cache = encoding .standard ∨ T.cache = encoding .writeCombine
  | .none => T.cache = encoding .standard ∨ T.cache = encoding .none

structure RewritesPages (memory : Nat → Entry) (top vaddr length : Nat) (prot : Protection) (cache : Cache) (privilege : Privilege)
    (isGlobal : Bool) : Prop where
  whole : ∀ k, cursor memory top vaddr k < length →
    ¬ Breaks memory top (vaddr + cursor memory top vaddr k) (length - cursor memory top vaddr k)
  fits : ∀ k, cursor memory top vaddr k < length → ∀ T, walk memory top (vaddr + cursor memory top vaddr k) = some T →
    CacheFits T cache
  met : ∀ a, vaddr ≤ a → a < vaddr + length → ∀ T, walk memory top a = some T →
    (∃ k, cursor memory top vaddr k < length ∧
      (vaddr + cursor memory top vaddr k) / levelToPagesize (stopLevel memory top (vaddr + cursor memory top vaddr k)) =
        a / levelToPagesize (stopLevel memory top (vaddr + cursor memory top vaddr k))) ∨
    Matches T (leafEntry 0 (pageSizeOf T.level) prot cache privilege isGlobal)

section Leaf

variable (paddr : Nat) (pageSize : PageSize) (prot : Protection) (cache : Cache) (privilege : Privilege) (isGlobal : Bool)

theorem page_size_of_lowest : pageSizeOf (lowestIndex pageSize) = pageSize := by cases pageSize <;> decide

theorem leaf_global : (leafEntry paddr pageSize prot cache privilege isGlobal).getLsbD 8 = isGlobal := by
  have mask : (entryAddressMask pageSize).getLsbD 8 = false := by cases pageSize <;> decide
  have kept : (cacheToX86Flags cache pageSize).getLsbD 8 = false := by cases cache <;> cases pageSize <;> decide
  rw [leaf_bit, mask, kept]
  simp

theorem leaf_cache : cacheBits (lowestIndex pageSize) (leafEntry paddr pageSize prot cache privilege isGlobal) = encoding cache := by
  have pat : (leafEntry paddr pageSize prot cache privilege isGlobal).getLsbD (patBit (lowestIndex pageSize)) = (encoding cache).1 := by
    rw [leaf_bit]
    cases pageSize with
    | size4K =>
        have mask : (entryAddressMask .size4K).getLsbD (patBit (lowestIndex .size4K)) = false := by decide
        rw [mask]
        cases cache <;> simp [patBit, lowestIndex] <;> decide
    | size2M =>
        have mask : (entryAddressMask .size2M).getLsbD (patBit (lowestIndex .size2M)) = false := by decide
        rw [mask]
        cases cache <;> simp [patBit, lowestIndex] <;> decide
    | size1G =>
        have mask : (entryAddressMask .size1G).getLsbD (patBit (lowestIndex .size1G)) = false := by decide
        rw [mask]
        cases cache <;> simp [patBit, lowestIndex] <;> decide
  have disable : (leafEntry paddr pageSize prot cache privilege isGlobal).getLsbD 4 = (encoding cache).2.1 := by
    have mask : (entryAddressMask pageSize).getLsbD 4 = false := by cases pageSize <;> decide
    rw [leaf_bit, mask]
    cases cache <;> cases pageSize <;> simp <;> decide
  have through : (leafEntry paddr pageSize prot cache privilege isGlobal).getLsbD 3 = (encoding cache).2.2 := by
    have mask : (entryAddressMask pageSize).getLsbD 3 = false := by cases pageSize <;> decide
    rw [leaf_bit, mask]
    cases cache <;> cases pageSize <;> simp <;> decide
  rw [cacheBits, pat, disable, through]

end Leaf

section Fits

variable (prot : Protection) (cache : Cache) (privilege : Privilege) (isGlobal : Bool) (leaf : Entry) {l : Nat}

theorem frame_mask_bits (k : Nat) (set : (frameMask l).getLsbD k = true) : (k = 12 ∧ l = 1) ∨ (12 < k ∧ k < 52) := by
  have same : frameMask l = frameMask (lowestIndex (pageSizeOf l)) := by
    unfold pageSizeOf
    split_ifs with lowest second
    · rw [lowest]
      rfl
    · rw [second]
      rfl
    · rw [frameMask, if_neg lowest, if_neg second]
      rfl
  rw [same, frame_mask_bit, decide_eq_true_eq] at set
  by_cases lowest : l = 1
  · have shift : (pageSizeOf l).shift = 12 := by rw [lowest]; rfl
    omega
  · have shift : 12 < (pageSizeOf l).shift := by
      unfold pageSizeOf
      split_ifs <;> decide
    omega

theorem rewrite_bit_twelve (positive : 1 ≤ l) :
    (rewriteLeaf prot cache privilege isGlobal l leaf).getLsbD 12 = (leaf.getLsbD 12 || decide (cache = .writeCombine)) := by
  rw [rewrite_leaf_bit prot cache privilege isGlobal leaf (by decide), rewritten_cache_bit cache l 12 positive]
  simp

theorem rewrite_frame_iff (positive : 1 ≤ l) :
    rewriteLeaf prot cache privilege isGlobal l leaf &&& frameMask l = leaf &&& frameMask l ↔
      (l = 1 → cache = .writeCombine → leaf.getLsbD 12 = true) := by
  constructor
  · intro same lowest combine
    have mask : (frameMask l).getLsbD 12 = true := by rw [lowest]; decide
    have bits := congrArg (fun entry => BitVec.getLsbD entry 12) same
    rw [BitVec.getLsbD_and, BitVec.getLsbD_and, mask, rewrite_bit_twelve prot cache privilege isGlobal leaf positive,
      decide_eq_true combine] at bits
    simpa using bits.symm
  · intro kept
    refine BitVec.eq_of_getLsbD_eq fun k small => ?_
    rw [BitVec.getLsbD_and, BitVec.getLsbD_and]
    by_cases inMask : (frameMask l).getLsbD k = true
    · rcases frame_mask_bits k inMask with ⟨rfl, lowest⟩ | ⟨low, high⟩
      · rw [rewrite_bit_twelve prot cache privilege isGlobal leaf positive]
        by_cases combine : cache = .writeCombine
        · rw [kept lowest combine]
          rfl
        · rw [decide_eq_false combine, Bool.or_false]
      · rw [rewrite_leaf_kept prot cache privilege isGlobal leaf l k positive small (by omega)]
    · rw [Bool.not_eq_true] at inMask
      rw [inMask, Bool.and_false, Bool.and_false]

theorem rewrite_cache (positive : 1 ≤ l) :
    cacheBits l (rewriteLeaf prot cache privilege isGlobal l leaf) =
      ((cacheBits l leaf).1 || (decide (cache = .writeCombine) && decide (l ≠ 1)), (cacheBits l leaf).2.1 || decide (cache ≠ .standard),
        (cacheBits l leaf).2.2 || decide (cache = .none)) := by
  have pat : (rewriteLeaf prot cache privilege isGlobal l leaf).getLsbD (patBit l) =
      (leaf.getLsbD (patBit l) || (decide (cache = .writeCombine) && decide (l ≠ 1))) := by
    by_cases lowest : l = 1
    · rw [show patBit l = 7 from if_pos lowest,
        rewrite_leaf_kept prot cache privilege isGlobal leaf l 7 positive (by decide) (by decide)]
      simp [lowest]
    · rw [show patBit l = 12 from if_neg lowest, rewrite_bit_twelve prot cache privilege isGlobal leaf positive]
      simp [lowest]
  have disable : (rewriteLeaf prot cache privilege isGlobal l leaf).getLsbD 4 = (leaf.getLsbD 4 || decide (cache ≠ .standard)) := by
    rw [rewrite_leaf_bit prot cache privilege isGlobal leaf (by decide), rewritten_cache_bit cache l 4 positive]
    simp
  have through : (rewriteLeaf prot cache privilege isGlobal l leaf).getLsbD 3 = (leaf.getLsbD 3 || decide (cache = .none)) := by
    rw [rewrite_leaf_bit prot cache privilege isGlobal leaf (by decide), rewritten_cache_bit cache l 3 positive]
    simp
  rw [cacheBits, pat, disable, through]
  rfl

theorem translate_leaf_some {v : Nat} {T : Translation} (found : translateLeaf v l leaf = some T) :
    Present leaf ∧ l < levelCount ∧ T.level = l ∧ T.physical = (leaf &&& frameMask l).toNat + v % levelToPagesize l ∧
      T.cache = cacheBits l leaf := by
  unfold translateLeaf at found
  by_cases both : Present leaf ∧ l < levelCount
  · rw [if_pos both, Option.some.injEq] at found
    subst found
    exact ⟨both.1, both.2, rfl, rfl, rfl⟩
  · rw [if_neg both] at found
    cases found

theorem physical_odd {v : Nat} {T : Translation} (found : translateLeaf v 1 leaf = some T) :
    T.physical / pageGranularity % 2 = 1 ↔ leaf.getLsbD 12 = true := by
  obtain ⟨_, _, _, physical, _⟩ := translate_leaf_some leaf found
  have aligned := table_of_aligned leaf
  have bit := table_of_bit leaf 12
  rw [Nat.testBit_eq_decide_div_mod_eq, decide_eq_true (show 12 ≤ 12 ∧ 12 < 52 by decide), Bool.and_true] at bit
  rw [physical, show (leaf &&& frameMask 1).toNat = tableOf leaf by rfl, ← bit, decide_eq_true_eq,
    show levelToPagesize 1 = pageGranularity by rfl]
  unfold pageGranularity at aligned ⊢
  omega

-- Where the cache setting fits what is there, rewriting keeps the frame and gives
-- the memory type that was asked for.
theorem cache_fits_iff {v : Nat} {T : Translation} {old : Cache} (positive : 1 ≤ l) (found : translateLeaf v l leaf = some T)
    (mapped : cacheBits l leaf = encoding old) : CacheFits T cache ↔
      rewriteLeaf prot cache privilege isGlobal l leaf &&& frameMask l = leaf &&& frameMask l ∧
        cacheBits l (rewriteLeaf prot cache privilege isGlobal l leaf) = encoding cache := by
  obtain ⟨_, _, level, _, kept⟩ := translate_leaf_some leaf found
  rw [rewrite_frame_iff prot cache privilege isGlobal leaf positive, rewrite_cache prot cache privilege isGlobal leaf positive, mapped]
  unfold CacheFits
  rw [kept, mapped, level]
  cases cache with
  | standard => cases old <;> simp [encoding]
  | none => cases old <;> simp [encoding]
  | writeCombine =>
      by_cases lowest : l = 1
      · subst lowest
        rw [if_pos rfl, physical_odd leaf found]
        cases old <;> simp [encoding]
      · cases old <;> simp [encoding, lowest]

end Fits

section Exact

variable {s : State} {top vaddr length : Nat} {prot : Protection} {cache : Cache} {privilege : Privilege} {isGlobal : Bool}
  (sound : Sound top s) (canonical : ∀ d < length, Canonical (vaddr + d)) (vaddrAligned : vaddr % pageGranularity = 0)
  (lengthAligned : length % pageGranularity = 0)

include sound

-- The entry a page of the tree was made of has the level of its size.
theorem sound_mapped {v l t : Nat} (reach : Reaches s.memory top v l t)
    (stops : ¬ Descends l (s.memory (t + 8 * vaddrToIndex v l))) (present : Present (s.memory (t + 8 * vaddrToIndex v l))) :
    ∃ old, lowestIndex (pageSizeOf l) = l ∧ cacheBits l (s.memory (t + 8 * vaddrToIndex v l)) = encoding old := by
  obtain ⟨above, whole, length⟩ := reaches_last reach stops
  have last : (entries s.memory v levelCount top).getLast? = some (s.memory (t + 8 * vaddrToIndex v l)) := by
    rw [whole, List.getLast?_concat]
  obtain ⟨paddr, pageSize, prot, old, privilege, isGlobal, levels, made⟩ := sound.leafy v _ last present
  have bound := reaches_level reach
  rw [whole, List.length_append, length, List.length_singleton] at levels
  obtain rfl : lowestIndex pageSize = l := by omega
  refine ⟨old, by rw [page_size_of_lowest], ?_⟩
  rw [made, leaf_cache]

theorem walk_leaf {v l t : Nat} (canonicalV : Canonical v) (reach : Reaches s.memory top v l t)
    (stops : ¬ Descends l (s.memory (t + 8 * vaddrToIndex v l))) :
    walk s.memory top v = translateLeaf v l (s.memory (t + 8 * vaddrToIndex v l)) := by
  rw [walk, if_pos canonicalV, sound_last sound reach stops]

-- What the rounds make of a page they have come to.
theorem rewriting_met {s' : State} {n a : Nat} (rewriting : Rewriting s.memory top vaddr prot cache privilege isGlobal n s')
    (canonicalA : Canonical a) (met : Met s.memory top vaddr n a) :
    (walk s.memory top a = none → walk s'.memory top a = none) ∧ ∀ T, walk s.memory top a = some T →
      ∃ T', walk s'.memory top a = some T' ∧ T'.level = T.level ∧
        (T'.physical = T.physical ∧ Matches T' (leafEntry 0 (pageSizeOf T.level) prot cache privilege isGlobal) ↔ CacheFits T cache) := by
  obtain ⟨t, reach, stops⟩ := stop_level_reached s.memory top a
  obtain ⟨l, level⟩ : ∃ l, l = stopLevel s.memory top a := ⟨_, rfl⟩
  rw [← level] at reach stops
  obtain ⟨leaf, here⟩ : ∃ leaf, leaf = s.memory (t + 8 * vaddrToIndex a l) := ⟨_, rfl⟩
  have positive := reaches_positive reach
  rw [walk_leaf sound canonicalA reach stops, ← here, walk, if_pos canonicalA]
  refine ⟨fun absent => ?_, fun T found => ?_⟩
  · refine met_translate_absent rewriting reach stops met fun present => ?_
    have bound := sound_present sound reach stops present
    rw [← here] at present
    rw [translateLeaf, if_pos ⟨present, bound⟩] at absent
    cases absent
  · obtain ⟨present, _, levelT, physicalT, cacheT⟩ := translate_leaf_some leaf found
    rw [here] at present
    obtain ⟨old, size, mapped⟩ := sound_mapped sound reach stops present
    obtain ⟨T', found', write, exec, isGlobal', physical', cache'⟩ := met_translate sound rewriting reach stops met present
    have stops' := rewriting_stops rewriting reach stops
    have level' : T'.level = l := by
      rw [translate_level found', stop_level_eq ((rewriting.reaches a l t).mpr reach) stops']
    refine ⟨T', found', level'.trans levelT.symm, ?_⟩
    rw [← here] at mapped physical' cache'
    rw [cache_fits_iff prot cache privilege isGlobal leaf positive found mapped, physicalT, physical', levelT]
    have wanted : cacheBits l (leafEntry 0 (pageSizeOf l) prot cache privilege isGlobal) = encoding cache := by
      rw [← leaf_cache 0 (pageSizeOf l) prot cache privilege isGlobal, size]
    refine and_congr ⟨fun same => ?_, fun same => by rw [same]⟩ ⟨fun fits => ?_, fun fits => ⟨?_, ?_, ?_, ?_⟩⟩
    · exact BitVec.eq_of_toNat_eq (Nat.add_right_cancel same)
    · rw [← cache', fits.cache, level', wanted]
    · rw [write, leaf_write]
    · rw [exec, leaf_nx, Bool.not_not]
    · rw [isGlobal', leaf_global]
    · rw [cache', level', fits, wanted]

include canonical

-- The setting fits every address of a page or none.
theorem met_fits {k a : Nat} {T : Translation} (canonicalA : Canonical a) (inside : cursor s.memory top vaddr k < length)
    (same : SameSlot (stopLevel s.memory top (vaddr + cursor s.memory top vaddr k)) (vaddr + cursor s.memory top vaddr k) a)
    (found : walk s.memory top a = some T)
    (fits : ∀ T, walk s.memory top (vaddr + cursor s.memory top vaddr k) = some T → CacheFits T cache) : CacheFits T cache := by
  obtain ⟨u, here⟩ : ∃ u, u = vaddr + cursor s.memory top vaddr k := ⟨_, rfl⟩
  have canonicalU : Canonical u := here ▸ canonical _ inside
  rw [← here] at same fits
  obtain ⟨t, reach, stops⟩ := stop_level_reached s.memory top u
  obtain ⟨l, level⟩ : ∃ l, l = stopLevel s.memory top u := ⟨_, rfl⟩
  rw [← level] at same reach stops
  have reachA : Reaches s.memory top a l t := reaches_same reach (same_slot_mono (Nat.le_succ _) same)
  have read := read_slot reach reachA same
  rw [walk_leaf sound canonicalA reachA (read ▸ stops), read] at found
  obtain ⟨leaf, entry⟩ : ∃ leaf, leaf = s.memory (t + 8 * vaddrToIndex u l) := ⟨_, rfl⟩
  rw [← entry] at found
  obtain ⟨present, bound, levelT, _, _⟩ := translate_leaf_some leaf found
  obtain ⟨T', found'⟩ : ∃ T', translateLeaf u l leaf = some T' := ⟨_, if_pos ⟨present, bound⟩⟩
  have fitsU := fits T' (by rw [walk_leaf sound canonicalU reach stops, ← entry, found'])
  have positive := reaches_positive reach
  obtain ⟨old, _, mapped⟩ := sound_mapped sound reach stops (entry ▸ present)
  rw [← entry] at mapped
  rw [cache_fits_iff protRW cache .kernel false leaf positive found mapped]
  exact (cache_fits_iff protRW cache .kernel false leaf positive found' mapped).mp fitsU

theorem rewriting_run (vaddrAligned : vaddr % pageGranularity = 0) (lengthAligned : length % pageGranularity = 0) :
    (∃ n s', archPtmRewrite top vaddr length prot cache privilege isGlobal s = .ok s' ∧
        Rewriting s.memory top vaddr prot cache privilege isGlobal n s' ∧ length ≤ cursor s.memory top vaddr n ∧
        ∀ i < n, cursor s.memory top vaddr i < length ∧
          ¬ Breaks s.memory top (vaddr + cursor s.memory top vaddr i) (length - cursor s.memory top vaddr i)) ∨
      ∃ i, cursor s.memory top vaddr i < length ∧
        Breaks s.memory top (vaddr + cursor s.memory top vaddr i) (length - cursor s.memory top vaddr i) ∧
        ∃ fault, archPtmRewrite top vaddr length prot cache privilege isGlobal s = .error fault := by
  have start : Rewriting s.memory top vaddr prot cache privilege isGlobal 0 s := by
    have unmet : ∀ a, ¬ Met s.memory top vaddr 0 a := fun a met => by
      obtain ⟨i, never, _⟩ := met
      omega
    exact ⟨sound.tree, fun _ _ _ => Iff.rfl, fun _ _ _ _ _ => loosened_refl _, fun v _ _ met => absurd met (unmet v), fun _ _ _ _ _ _ => rfl,
      fun v _ _ _ _ met => absurd met (unmet v)⟩
  have called : archPtmRewrite top vaddr length prot cache privilege isGlobal s =
      rangeLoop (fun vaddr remaining => rewriteRound prot cache privilege isGlobal vaddr remaining levelCount top) vaddr length
        (length / pageGranularity) (cursor s.memory top vaddr 0) s := by
    simp only [archPtmRewrite, assertThat, vaddrAligned, lengthAligned, decide_true, if_true, bind_ok]
    rfl
  rw [called]
  rcases @range_loop_spec (fun vaddr remaining => rewriteRound prot cache privilege isGlobal vaddr remaining levelCount top) s.memory top
    vaddr length (Rewriting s.memory top vaddr prot cache privilege isGlobal)
    (fun k => Breaks s.memory top (vaddr + cursor s.memory top vaddr k) (length - cursor s.memory top vaddr k))
    (fun d inside => canonical_fits (canonical d inside))
    (fun k u rewriting inside => rewriting_step canonical rewriting (fun _ _ _ => sound_present sound)
      (fun _ _ _ _ => breaks_iff sound) inside)
    (length / pageGranularity) 0 s start (rounds_enough lengthAligned) with ⟨n, s', run, rewriting, _, past, all⟩ | failed
  · exact .inl ⟨n, s', run, rewriting, past, fun i before => all i (Nat.zero_le _) before⟩
  · exact .inr failed

omit canonical in
-- A page no round comes to keeps its translation.
theorem rewriting_unmet {s' : State} {n a : Nat} (rewriting : Rewriting s.memory top vaddr prot cache privilege isGlobal n s')
    (unmet : ¬ Met s.memory top vaddr n a) : walk s'.memory top a = walk s.memory top a := by
  obtain ⟨t, reach, stops⟩ := stop_level_reached s.memory top a
  rw [walk, walk, unmet_translate sound rewriting reach stops unmet]

include vaddrAligned lengthAligned

theorem rewrite_pages_iff : RewritesExactly s top vaddr length prot cache privilege isGlobal ↔
    RewritesPages s.memory top vaddr length prot cache privilege isGlobal := by
  rcases @rewriting_run s top vaddr length prot cache privilege isGlobal sound canonical vaddrAligned lengthAligned with
    ⟨n, s', run, rewriting, past, all⟩ | ⟨i, inside, broken, fault, run⟩
  · have rounds := rounds_iff past fun i before => (all i before).1
    have whole : ∀ k, cursor s.memory top vaddr k < length →
        ¬ Breaks s.memory top (vaddr + cursor s.memory top vaddr k) (length - cursor s.memory top vaddr k) :=
      fun k inside => (all k ((rounds k).mp inside)).2
    have kept : ∀ a, ¬ Met s.memory top vaddr n a → walk s'.memory top a = walk s.memory top a := fun a =>
      rewriting_unmet sound rewriting
    constructor
    · rintro ⟨u, done, exactly⟩
      obtain rfl : s' = u := Except.ok.inj (run.symm.trans done)
      refine ⟨whole, fun k inside T found => ?_, fun a low high T found => ?_⟩
      · have met : Met s.memory top vaddr n (vaddr + cursor s.memory top vaddr k) := ⟨k, (rounds k).mp inside, fun _ _ _ => rfl⟩
        obtain ⟨T₁, found₁, _, fits⟩ := (rewriting_met sound rewriting (canonical _ inside) met).2 T found
        obtain ⟨T₂, found₂, physical, _, wanted, _⟩ := (exactly (vaddr + cursor s.memory top vaddr k)).2 T found
        obtain rfl : T₁ = T₂ := Option.some.inj (found₁.symm.trans found₂)
        exact fits.mp ⟨physical, wanted ⟨Nat.le_add_right _ _, by omega⟩⟩
      · rw [← met_iff canonical rounds (range_canonical canonical low high)]
        by_cases met : Met s.memory top vaddr n a
        · exact .inl met
        · obtain ⟨T', found', _, _, wanted, _⟩ := (exactly a).2 T found
          obtain rfl : T = T' := Option.some.inj (found.symm.trans ((kept a met).symm.trans found'))
          exact .inr (wanted ⟨low, high⟩)
    · intro pages
      refine ⟨s', run, fun a => ?_⟩
      by_cases met : Met s.memory top vaddr n a
      · by_cases canonicalA : Canonical a
        · obtain ⟨absent, there⟩ := rewriting_met sound rewriting canonicalA met
          refine ⟨absent, fun T found => ?_⟩
          obtain ⟨k, before, same⟩ := met
          have inside := (rounds k).mpr before
          have inRange := met_inside sound canonical vaddrAligned lengthAligned inside (whole k inside) canonicalA
            (by rw [found]; exact Option.some_ne_none T) same
          obtain ⟨T', found', level, fits⟩ := there T found
          obtain ⟨physical, wanted⟩ := fits.mpr (met_fits sound canonical canonicalA inside same found (pages.fits k inside))
          exact ⟨T', found', physical, level, fun _ => wanted, fun outside => absurd inRange outside⟩
        · rw [walk, walk, if_neg canonicalA, if_neg canonicalA]
          exact ⟨fun none => none, fun T found => by cases found⟩
      · rw [kept a met]
        refine ⟨fun none => none, fun T found => ⟨T, found, rfl, rfl, fun inRange => ?_, fun _ => ⟨rfl, rfl, rfl, rfl⟩⟩⟩
        rcases pages.met a inRange.1 inRange.2 T found with round | wanted
        · exact absurd ((met_iff canonical rounds (range_canonical canonical inRange.1 inRange.2)).mpr round) met
        · exact wanted
  · refine iff_of_false ?_ fun pages => pages.whole i inside broken
    rintro ⟨u, done, _⟩
    rw [run] at done
    cases done

end Exact

end Elysium.Ptm
