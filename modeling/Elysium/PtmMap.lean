import Elysium.PtmWalk

set_option autoImplicit false

namespace Elysium.Ptm

open Vm (Protection Cache Privilege kernelspaceStart)

def outOfMemory (s : State) : Fault := .panic (if s.earlymemActive then "EARLY_MM" else "PMM") "out of memory"

-- A page is an entry map_page has written for the level.
def Leafy (path : List Entry) : Prop :=
  ∀ leaf, path.getLast? = some leaf → Present leaf → ∃ paddr pageSize prot cache privilege isGlobal,
    path.length + lowestIndex pageSize = levelCount + 1 ∧ leaf = leafEntry paddr pageSize prot cache privilege isGlobal

-- The tree of an address space and the pages alloc_page still has: none of them is
-- a table in use.
structure Sound (top : Nat) (s : State) : Prop where
  tree : Tree s.memory top
  distinct : s.frames.Nodup
  placed : ∀ page ∈ s.frames, page % pageGranularity = 0 ∧ page < 2 ^ 52
  fresh : ∀ v l t, Reaches s.memory top v l t → t ∉ s.frames
  granting : ∀ v, Granting (entries s.memory v levelCount top)
  leafy : ∀ v, Leafy (entries s.memory v levelCount top)

-- Everything above a level on the way to an address allows what is asked for.
def Opened (prot : Protection) (privilege : Privilege) (memory : Nat → Entry) (top v l : Nat) : Prop :=
  ∀ k u, l < k → Reaches memory top v k u → Granted prot privilege (memory (u + 8 * vaddrToIndex v k))

-- What making room for a page changes: pages are taken, translations stay.
structure Prepares (top n : Nat) (s s' : State) : Prop where
  sound : Sound top s'
  same : ∀ a, translate a (entries s'.memory a levelCount top) = translate a (entries s.memory a levelCount top)
  spent : ∃ used, s.frames = used ++ s'.frames ∧ used.length ≤ n
  early : s'.earlymemActive = s.earlymemActive

theorem prepares_refl {top : Nat} {s : State} (sound : Sound top s) (n : Nat) : Prepares top n s s :=
  ⟨sound, fun _ => rfl, ⟨[], rfl, Nat.zero_le _⟩, rfl⟩

theorem prepares_trans {top m n : Nat} {s t u : State} (first : Prepares top m s t) (second : Prepares top n t u) :
    Prepares top (m + n) s u := by
  refine ⟨second.sound, fun a => (second.same a).trans (first.same a), ?_, second.early.trans first.early⟩
  obtain ⟨used, split, short⟩ := first.spent
  obtain ⟨more, rest, shorter⟩ := second.spent
  refine ⟨used ++ more, by rw [split, rest, List.append_assoc], ?_⟩
  rw [List.length_append]
  omega

theorem fill_table_fails {s : State} {newTable : Nat} (low : newTable < 2 ^ 52) (newEntry address : Entry) :
    fillTable newTable newEntry address s = .error .undefined := by
  have high := s.hhdmHigh
  have outside : ¬ s.hhdmOffset ≤ newTable + 8 * (0 * pageGranularity) := by
    unfold kernelspaceStart at high
    omega
  have failed : s.storeAt (newTable + 8 * (0 * pageGranularity)) (newEntry ||| (address + BitVec.ofNat 64 (0 * pageGranularity))) =
      .error .undefined := if_neg outside
  rw [fillTable, List.range_succ_eq_map, List.foldlM_cons, failed]
  rfl

theorem table_of_lt (entry : Entry) : tableOf entry < 2 ^ 52 := by
  refine Nat.lt_pow_two_of_testBit _ fun k high => ?_
  rw [table_of_bit, decide_eq_false (show ¬ (12 ≤ k ∧ k < 52) by omega), Bool.and_false]

-- The new table is written through its physical address.
theorem break_big_fails (table index level : Nat) (s : State) : ∃ fault, breakBig table index level s = .error fault := by
  unfold breakBig
  by_cases positive : level > 0
  · rw [assertThat, decide_eq_true positive, if_pos rfl, bind_ok]
    cases supply : s.frames with
    | nil => exact ⟨outOfMemory s, by simp only [allocPage, supply]; rfl⟩
    | cons page rest =>
        refine ⟨.undefined, ?_⟩
        simp only [allocPage, supply]
        rw [bind_ok]
        dsimp only
        rw [← tableOf, fill_table_fails (table_of_lt _)]
        rfl
  · exact ⟨.assertion, by rw [assertThat, decide_eq_false positive]; rfl⟩

section Pass

variable {s : State} {table index j : Nat} {prot : Protection} {privilege : Privilege}

theorem pass_present (present : Present (s.load table index)) (small : ¬ Big (s.load table index)) :
    passEntry table index j prot privilege s =
      .ok (s.store table index (grantEntry prot privilege (openEntry prot (s.load table index))),
        grantEntry prot privilege (openEntry prot (s.load table index))) := by
  unfold passEntry
  rw [if_neg fun absent => (absent_iff _).mp absent present, if_neg fun big => small ((big_iff _).mp big)]
  rfl

theorem pass_big (present : Present (s.load table index)) (big : Big (s.load table index)) :
    ∃ fault, passEntry table index j prot privilege s = .error fault := by
  obtain ⟨fault, failed⟩ := break_big_fails table index j s
  refine ⟨fault, ?_⟩
  unfold passEntry
  rw [if_neg fun absent => (absent_iff _).mp absent present, if_pos ((big_iff _).mpr big), failed]
  rfl

theorem pass_empty (absent : ¬ Present (s.load table index)) (supply : s.frames = []) :
    passEntry table index j prot privilege s = .error (outOfMemory s) := by
  unfold passEntry
  rw [if_pos ((absent_iff _).mpr absent)]
  simp only [allocPage, supply]
  rfl

theorem pass_fresh {page : Nat} {rest : List Nat} (absent : ¬ Present (s.load table index)) (supply : s.frames = page :: rest) :
    passEntry table index j prot privilege s =
      .ok ({ s with memory := memClear s.memory page pageGranularity, frames := rest }.store table index
        (grantEntry prot privilege (freshEntry page prot)), grantEntry prot privilege (freshEntry page prot)) := by
  unfold passEntry
  rw [if_pos ((absent_iff _).mpr absent)]
  simp only [allocPage, supply]
  rfl

end Pass

theorem last_behind {above rest : List Entry} (entry : Entry) (nonempty : rest ≠ []) :
    (above ++ entry :: rest).getLast? = rest.getLast? := by
  rw [List.getLast?_append, List.getLast?_cons_of_ne_nil nonempty, List.getLast?_eq_some_getLast nonempty]
  rfl

-- An entry above the page is opened further.
section Upgrade

variable {above rest : List Entry} {entry : Entry} (prot : Protection) (privilege : Privilege) (nonempty : rest ≠ [])

include nonempty

theorem upgrade_granting (granting : Granting (above ++ entry :: rest)) :
    Granting (above ++ grantEntry prot privilege (openEntry prot entry) :: rest) := by
  intro leaf last present
  rw [last_behind _ nonempty] at last
  have grants := granting leaf ((last_behind _ nonempty).trans last) present
  intro e inPath
  rcases List.mem_append.mp inPath with before | here
  · exact grants e (List.mem_append_left _ before)
  · rcases List.mem_cons.mp here with rfl | behind
    · obtain ⟨write, user, exec⟩ := grants entry (List.mem_append_right _ List.mem_cons_self)
      exact ⟨fun set => passed_writes prot privilege entry (write set), fun set => passed_serves prot privilege entry (user set),
        fun clear => passed_runs prot privilege entry (exec clear)⟩
    · exact grants e (List.mem_append_right _ (List.mem_cons_of_mem _ behind))

theorem upgrade_translate (granting : Granting (above ++ entry :: rest)) (a : Nat) :
    translate a (above ++ grantEntry prot privilege (openEntry prot entry) :: rest) = translate a (above ++ entry :: rest) := by
  have last : rest.getLast? = some (rest.getLast nonempty) := List.getLast?_eq_some_getLast nonempty
  rw [translate_granting (upgrade_granting prot privilege nonempty granting) ((last_behind _ nonempty).trans last),
    translate_granting granting ((last_behind _ nonempty).trans last), List.length_append, List.length_append, List.length_cons,
    List.length_cons]

theorem upgrade_leafy (leafy : Leafy (above ++ entry :: rest)) :
    Leafy (above ++ grantEntry prot privilege (openEntry prot entry) :: rest) := by
  intro leaf last present
  rw [last_behind _ nonempty] at last
  obtain ⟨paddr, pageSize, prot', cache, privilege', isGlobal, length, written⟩ :=
    leafy leaf ((last_behind _ nonempty).trans last) present
  refine ⟨paddr, pageSize, prot', cache, privilege', isGlobal, ?_, written⟩
  rw [List.length_append, List.length_cons] at length ⊢
  exact length

end Upgrade

-- A path that ends in nothing.
theorem absent_granting {path : List Entry} {leaf : Entry} (absent : ¬ Present leaf) : Granting (path ++ [leaf]) := by
  intro other last present
  rw [List.getLast?_concat, Option.some.injEq] at last
  exact absurd (last ▸ present) absent

theorem absent_leafy {path : List Entry} {leaf : Entry} (absent : ¬ Present leaf) : Leafy (path ++ [leaf]) := by
  intro other last present
  rw [List.getLast?_concat, Option.some.injEq] at last
  exact absurd (last ▸ present) absent

theorem opened_step {prot : Protection} {privilege : Privilege} {memory next : Nat → Entry} {top v l t : Nat}
    (opened : Opened prot privilege memory top v l)
    (above : ∀ k u, l ≤ k → Reaches next top v k u → Reaches memory top v k u)
    (kept : ∀ k u, l < k → Reaches memory top v k u → next (u + 8 * vaddrToIndex v k) = memory (u + 8 * vaddrToIndex v k))
    (reach : Reaches memory top v l t) (granted : Granted prot privilege (next (t + 8 * vaddrToIndex v l))) :
    Opened prot privilege next top v (l - 1) := by
  intro k u higher other
  have positive := reaches_positive reach
  have old := above k u (by omega) other
  rcases Nat.lt_or_eq_of_le (show l ≤ k by omega) with later | rfl
  · rw [kept k u later old]
    exact opened k u later old
  · rw [reaches_unique old reach]
    exact granted

-- A page of the supply that has been cleared, seen from the slot that it is to hang in.
structure Blanked (s : State) (top v l t page : Nat) (entry : Entry) (cleared : Nat → Entry) : Prop where
  agree : ∀ w k u, Reaches s.memory top w k u → cleared (u + 8 * vaddrToIndex w k) = s.memory (u + 8 * vaddrToIndex w k)
  transported : ∀ w k u, Reaches cleared top w k u ↔ Reaches s.memory top w k u
  tree : Tree cleared top
  reach : Reaches cleared top v l t
  apart : ∀ w k u, Reaches cleared top w k u → u ≠ page
  descends : Descends l entry
  points : tableOf entry = page
  blank : ∀ w k, cleared (page + 8 * vaddrToIndex w k) = 0

theorem fresh_blanked {top v l t page : Nat} {s : State} {cleared : Nat → Entry} {entry : Entry} {prot : Protection} {privilege : Privilege}
    (sound : Sound top s) (reach : Reaches s.memory top v l t) (below : 1 < l) (inSupply : page ∈ s.frames)
    (here : entry = grantEntry prot privilege (freshEntry page prot)) (clears : cleared = memClear s.memory page pageGranularity) :
    Blanked s top v l t page entry cleared := by
  obtain ⟨aligned, fits⟩ := sound.placed page inSupply
  have apart : ∀ w k u, Reaches s.memory top w k u → u ≠ page := fun w k u other same => sound.fresh w k u other (same ▸ inSupply)
  have agree : ∀ w k u, Reaches s.memory top w k u → cleared (u + 8 * vaddrToIndex w k) = s.memory (u + 8 * vaddrToIndex w k) :=
    fun w k u other => clears ▸ clear_agrees sound.tree aligned apart w k u other
  have transported := transport_reaches agree
  exact ⟨agree, transported, transport_tree agree sound.tree, (transported v l t).mpr reach,
    fun w k u other => apart w k u ((transported w k u).mp other), here ▸ fresh_descends below page prot privilege,
    here ▸ fresh_table aligned fits prot privilege, fun w k => clears ▸ clear_zero s.memory page w k⟩

section Step

variable {top : Nat} {s : State} {v l t : Nat} {prot : Protection} {privilege : Privilege} (sound : Sound top s)
  (reach : Reaches s.memory top v l t) (opened : Opened prot privilege s.memory top v l)

include sound reach opened

-- One level down over a table that is there.
theorem pass_old (descends : Descends l (s.memory (t + 8 * vaddrToIndex v l))) :
    ∃ s' e, passEntry t (vaddrToIndex v l) l prot privilege s = .ok (s', e) ∧ Prepares top 1 s s' ∧
      Reaches s'.memory top v (l - 1) (tableOf e) ∧ Opened prot privilege s'.memory top v (l - 1) := by
  obtain ⟨entry, here⟩ : ∃ entry, entry = s.memory (t + 8 * vaddrToIndex v l) := ⟨_, rfl⟩
  have loaded : s.load t (vaddrToIndex v l) = entry := here.symm
  rw [← here] at descends
  obtain ⟨next, stored⟩ : ∃ next, next = Function.update s.memory (t + 8 * vaddrToIndex v l)
    (grantEntry prot privilege (openEntry prot entry)) := ⟨_, rfl⟩
  have keeps : Descends l (grantEntry prot privilege (openEntry prot entry)) ↔ Descends l (s.memory (t + 8 * vaddrToIndex v l)) := by
    rw [← here]
    exact passed_descends prot privilege entry l
  have table : Descends l (grantEntry prot privilege (openEntry prot entry)) →
      tableOf (grantEntry prot privilege (openEntry prot entry)) = tableOf (s.memory (t + 8 * vaddrToIndex v l)) := by
    intro _
    rw [← here]
    exact passed_table prot privilege entry
  have reaches : ∀ w k u, Reaches next top w k u ↔ Reaches s.memory top w k u := fun w k u => by
    rw [stored]
    exact store_reaches sound.tree reach keeps table w k u
  have reads : ∀ w k u, Reaches s.memory top w k u → next (u + 8 * vaddrToIndex w k) =
      if k = l ∧ SameSlot l v w then grantEntry prot privilege (openEntry prot entry) else s.memory (u + 8 * vaddrToIndex w k) :=
    fun w k u other => by
      rw [stored]
      exact read_store sound.tree reach other
  -- The path of every address is the old one, opened further where it passes here.
  have paths : ∀ w, (entries next w levelCount top = entries s.memory w levelCount top) ∨
      ∃ above rest, rest ≠ [] ∧ entries s.memory w levelCount top = above ++ entry :: rest ∧
        entries next w levelCount top = above ++ grantEntry prot privilege (openEntry prot entry) :: rest := by
    intro w
    have path := @entries_store s.memory top v l t (grantEntry prot privilege (openEntry prot entry)) sound.tree reach keeps table w
    rw [← stored] at path
    by_cases same : SameSlot l v w
    · have reachW : Reaches s.memory top w l t := reaches_same reach (same_slot_mono (Nat.le_succ _) same)
      have read : s.memory (t + 8 * vaddrToIndex w l) = entry := (read_slot reach reachW same).trans here.symm
      obtain ⟨above, rest, whole, length, nonempty⟩ := reaches_split reachW (read ▸ descends)
      rw [read] at whole
      refine .inr ⟨above, rest, nonempty, whole, ?_⟩
      rw [path, if_pos same, whole, List.set_append_right _ _ (Nat.le_of_eq length), ← length, Nat.sub_self, List.set_cons_zero]
    · exact .inl (path.trans (if_neg same))
  have sound' : Sound top (s.store t (vaddrToIndex v l) (grantEntry prot privilege (openEntry prot entry))) := by
    refine ⟨store_tree sound.tree reach keeps table, sound.distinct, sound.placed, fun w k u other => ?_, fun w => ?_, fun w => ?_⟩
    · exact sound.fresh w k u ((store_reaches sound.tree reach keeps table w k u).mp other)
    · rw [store_memory, ← stored]
      rcases paths w with same | ⟨above, rest, nonempty, old, new⟩
      · rw [same]
        exact sound.granting w
      · rw [new]
        exact upgrade_granting prot privilege nonempty (old ▸ sound.granting w)
    · rw [store_memory, ← stored]
      rcases paths w with same | ⟨above, rest, nonempty, old, new⟩
      · rw [same]
        exact sound.leafy w
      · rw [new]
        exact upgrade_leafy prot privilege nonempty (old ▸ sound.leafy w)
  have positive := descends.1
  have down : Reaches next top v (l - 1) (tableOf (grantEntry prot privilege (openEntry prot entry))) := by
    rw [reaches, passed_table, here]
    obtain ⟨k, rfl⟩ : ∃ k, l = k + 1 := ⟨l - 1, by omega⟩
    exact .down k t reach (here ▸ descends)
  refine ⟨_, _, ?_, ⟨sound', fun a => ?_, ⟨[], rfl, Nat.zero_le _⟩, rfl⟩, stored ▸ down, ?_⟩
  · rw [pass_present (loaded ▸ descends.2.1) (loaded ▸ descends.2.2), loaded]
  · rw [store_memory, ← stored]
    rcases paths a with same | ⟨above, rest, nonempty, old, new⟩
    · rw [same]
    · rw [old, new]
      exact upgrade_translate prot privilege nonempty (old ▸ sound.granting a) a
  · rw [store_memory, ← stored]
    refine opened_step opened (fun k u _ other => (reaches v k u).mp other) (fun k u later other => ?_) reach ?_
    · rw [reads v k u other, if_neg fun both => absurd both.1 (by omega)]
    · rw [reads v l t reach, if_pos ⟨rfl, same_slot_refl _ _⟩]
      exact passed_granted prot privilege entry

-- One level down into a page that becomes a table.
theorem pass_new {page : Nat} {rest : List Nat} (below : 1 < l) (absent : ¬ Present (s.memory (t + 8 * vaddrToIndex v l)))
    (supply : s.frames = page :: rest) :
    ∃ s' e, passEntry t (vaddrToIndex v l) l prot privilege s = .ok (s', e) ∧ Prepares top 1 s s' ∧
      Reaches s'.memory top v (l - 1) (tableOf e) ∧ Opened prot privilege s'.memory top v (l - 1) := by
  obtain ⟨entry, here⟩ : ∃ entry, entry = grantEntry prot privilege (freshEntry page prot) := ⟨_, rfl⟩
  obtain ⟨cleared, clears⟩ : ∃ cleared, cleared = memClear s.memory page pageGranularity := ⟨_, rfl⟩
  have inSupply : page ∈ s.frames := supply ▸ List.mem_cons_self
  obtain ⟨agree, transported, tree, reachC, apartC, descends, points, blank⟩ := fresh_blanked sound reach below inSupply here clears
  obtain ⟨next, stored⟩ : ∃ next, next = Function.update cleared (t + 8 * vaddrToIndex v l) entry := ⟨_, rfl⟩
  have paths : ∀ w, (entries next w levelCount top = entries s.memory w levelCount top) ∨
      ∃ above below, entries s.memory w levelCount top = above ++ [s.memory (t + 8 * vaddrToIndex v l)] ∧
        entries next w levelCount top = below ++ [0] := by
    intro w
    have path := grow_entries tree reachC descends points blank apartC w
    rw [← stored, transport_entries agree] at path
    by_cases same : SameSlot l v w
    · have reachW : Reaches s.memory top w l t := reaches_same reach (same_slot_mono (Nat.le_succ _) same)
      have read := read_slot reach reachW same
      obtain ⟨above, whole, _⟩ := reaches_last reachW fun passes => absent (read ▸ passes.2.1)
      refine .inr ⟨above, (entries s.memory w levelCount top).take (levelCount - l) ++ [entry], read ▸ whole, ?_⟩
      rw [path, if_pos same, List.append_assoc]
      rfl
    · exact .inl (path.trans (if_neg same))
  have zero : ¬ Present 0 := by decide
  have reaches : ∀ w k u, Reaches next top w k u → Reaches s.memory top w k u ∨ (k + 1 = l ∧ SameSlot l v w ∧ u = page) :=
    fun w k u other => (grow_reaches tree reachC points blank apartC (stored ▸ other)).imp_left (transported w k u).mp
  refine ⟨_, _, pass_fresh absent supply, ⟨⟨?_, ?_, fun other inRest => ?_, fun w k u other => ?_, fun w => ?_, fun w => ?_⟩, fun a => ?_, ?_, rfl⟩, ?_, ?_⟩
  · rw [store_memory, ← clears, ← here]
    exact grow_tree tree reachC points blank apartC
  · have nodup := sound.distinct
    rw [supply] at nodup
    exact nodup.of_cons
  · exact sound.placed other (supply ▸ List.mem_cons_of_mem _ inRest)
  · rw [store_memory, ← clears, ← here, ← stored] at other
    have nodup := sound.distinct
    rw [supply] at nodup
    rcases reaches w k u other with old | ⟨_, _, rfl⟩
    · have outside := sound.fresh w k u old
      rw [supply] at outside
      exact fun inRest => outside (List.mem_cons_of_mem _ inRest)
    · exact (List.nodup_cons.mp nodup).1
  · rw [store_memory, ← clears, ← here, ← stored]
    rcases paths w with same | ⟨_, _, _, new⟩
    · rw [same]
      exact sound.granting w
    · rw [new]
      exact absent_granting zero
  · rw [store_memory, ← clears, ← here, ← stored]
    rcases paths w with same | ⟨_, _, _, new⟩
    · rw [same]
      exact sound.leafy w
    · rw [new]
      exact absent_leafy zero
  · rw [store_memory, ← clears, ← here, ← stored]
    rcases paths a with same | ⟨_, _, old, new⟩
    · rw [same]
    · rw [old, new, translate_absent List.getLast?_concat zero, translate_absent List.getLast?_concat absent]
  · exact ⟨[page], supply, Nat.le_refl _⟩
  · rw [store_memory, ← clears, ← here, points]
    exact grow_down tree reachC descends points
  · rw [store_memory, ← clears, ← here, ← stored]
    refine opened_step opened (fun k u higher other => ?_) (fun k u later other => ?_) reach ?_
    · rcases reaches v k u other with old | ⟨level, _, _⟩
      · exact old
      · omega
    · have otherC : Reaches cleared top v k u := (transported v k u).mpr other
      rw [stored, read_store tree reachC otherC, if_neg fun both => absurd both.1 (by omega), agree v k u other]
    · rw [stored, read_store tree reachC reachC, if_pos ⟨rfl, same_slot_refl _ _⟩, here]
      exact fresh_granted page prot privilege

-- A page of a higher level is in the way.
omit opened in
theorem pass_blocked (below : 1 < l) (present : Present (s.memory (t + 8 * vaddrToIndex v l)))
    (big : Big (s.memory (t + 8 * vaddrToIndex v l))) :
    ∃ T, translate v (entries s.memory v levelCount top) = some T ∧ T.level = l := by
  obtain ⟨above, whole, length⟩ := reaches_last reach fun passes => passes.2.2 big
  have last : (entries s.memory v levelCount top).getLast? = some (s.memory (t + 8 * vaddrToIndex v l)) := by
    rw [whole, List.getLast?_concat]
  obtain ⟨_, pageSize, _, _, _, _, levels, _⟩ := sound.leafy v _ last present
  have bound := reaches_level reach
  have size : (entries s.memory v levelCount top).length = levelCount - l + 1 := by
    rw [whole, List.length_append, length, List.length_singleton]
  have small : lowestIndex pageSize < levelCount := by
    cases pageSize with
    | size4K => decide
    | size2M => decide
    | size1G => decide
  have level : levelCount + 1 - (entries s.memory v levelCount top).length = l := by omega
  rw [translate_granting (sound.granting v) last, level, translateLeaf, if_pos ⟨present, by omega⟩]
  exact ⟨_, rfl, rfl⟩

theorem pass_spec (below : 1 < l) :
    (∃ s' e, passEntry t (vaddrToIndex v l) l prot privilege s = .ok (s', e) ∧ Prepares top 1 s s' ∧
        Reaches s'.memory top v (l - 1) (tableOf e) ∧ Opened prot privilege s'.memory top v (l - 1)) ∨
      (s.frames = [] ∧ passEntry t (vaddrToIndex v l) l prot privilege s = .error (outOfMemory s)) ∨
      ((∃ T, translate v (entries s.memory v levelCount top) = some T ∧ T.level = l) ∧
        ∃ fault, passEntry t (vaddrToIndex v l) l prot privilege s = .error fault) := by
  by_cases present : Present (s.memory (t + 8 * vaddrToIndex v l))
  · by_cases big : Big (s.memory (t + 8 * vaddrToIndex v l))
    · exact .inr (.inr ⟨pass_blocked sound reach below present big, pass_big present big⟩)
    · exact .inl (pass_old sound reach opened ⟨below, present, big⟩)
  · cases supply : s.frames with
    | nil => exact .inr (.inl ⟨rfl, pass_empty present supply⟩)
    | cons page rest => exact .inl (pass_new sound reach opened below present supply)

end Step

theorem map_tables_spec {top v lowest : Nat} {prot : Protection} {privilege : Privilege} (positive : 1 ≤ lowest) (j t : Nat)
    (s : State) (sound : Sound top s) (reach : Reaches s.memory top v j t) (opened : Opened prot privilege s.memory top v j)
    (above : lowest ≤ j) :
    (∃ s' t', mapTables v lowest prot privilege j t s = .ok (s', t') ∧ Prepares top (j - lowest) s s' ∧
        Reaches s'.memory top v lowest t' ∧ Opened prot privilege s'.memory top v lowest) ∨
      (s.frames.length < j - lowest ∧ mapTables v lowest prot privilege j t s = .error (outOfMemory s)) ∨
      ((∃ T, translate v (entries s.memory v levelCount top) = some T ∧ lowest < T.level) ∧
        ∃ fault, mapTables v lowest prot privilege j t s = .error fault) := by
  induction j generalizing t s with
  | zero => omega
  | succ j ih =>
      rcases Nat.lt_or_eq_of_le above with higher | rfl
      · rw [mapTables, if_pos higher]
        rcases pass_spec sound reach opened (by omega) with ⟨u, e, run, prepares, reachU, openedU⟩ | ⟨empty, run⟩ | ⟨⟨T, blocked, level⟩, fault, run⟩
        · rw [run, bind_ok]
          obtain ⟨used, split, short⟩ := prepares.spent
          rcases ih (tableOf e) u prepares.sound reachU openedU (by omega) with
            ⟨s', t', done, more, reach', opened'⟩ | ⟨short', done⟩ | ⟨⟨T, blocked, level⟩, fault, done⟩
          · refine .inl ⟨s', t', done, ?_, reach', opened'⟩
            rw [show j + 1 - lowest = 1 + (j - lowest) by omega]
            exact prepares_trans prepares more
          · refine .inr (.inl ⟨?_, ?_⟩)
            · rw [split, List.length_append]
              omega
            · rw [outOfMemory, ← prepares.early]
              exact done
          · exact .inr (.inr ⟨⟨T, (prepares.same v).symm.trans blocked, level⟩, fault, done⟩)
        · refine .inr (.inl ⟨?_, by rw [run]; rfl⟩)
          rw [empty, List.length_nil]
          omega
        · exact .inr (.inr ⟨⟨T, blocked, by omega⟩, fault, by rw [run]; rfl⟩)
      · rw [mapTables, if_neg (Nat.lt_irrefl _), Nat.sub_self]
        exact .inl ⟨s, t, rfl, prepares_refl sound 0, reach, opened⟩

-- The entries above a table are those read on the way to it.
theorem above_reads {memory : Nat → Entry} {top v l t : Nat} (reach : Reaches memory top v l t) (k u : Nat)
    (other : Reaches memory top v k u) (above : l ≤ k) (entry : Entry) (member : entry ∈ (entries memory v k u).take (k - l)) :
    ∃ i w, l < i ∧ Reaches memory top v i w ∧ entry = memory (w + 8 * vaddrToIndex v i) := by
  induction k generalizing u with
  | zero => exact absurd (reaches_positive other) (by decide)
  | succ k ih =>
      rcases Nat.lt_or_eq_of_le above with higher | rfl
      · have descends := reaches_descends reach higher other
        rw [entries_descend descends, Nat.succ_sub (Nat.le_of_lt_succ higher), List.take_succ_cons, List.mem_cons] at member
        rcases member with rfl | later
        · exact ⟨k + 1, u, higher, other, rfl⟩
        · exact ih _ (.down k u other descends) (Nat.le_of_lt_succ higher) later
      · rw [Nat.sub_self, List.take_zero] at member
        exact absurd member List.not_mem_nil

theorem opened_same {prot : Protection} {privilege : Privilege} {memory : Nat → Entry} {top v w l : Nat}
    (opened : Opened prot privilege memory top v l) (same : SameSlot l v w) : Opened prot privilege memory top w l := by
  intro k u higher other
  have sameK : SameSlot k v w := same_slot_mono (Nat.le_of_lt higher) same
  have reachV : Reaches memory top v k u := reaches_same other (same_slot_symm (same_slot_mono (Nat.le_succ _) sameK))
  rw [← sameK k (Nat.le_refl _) (reaches_level other)]
  exact opened k u higher reachV

-- What a call has done to an address space when it wrote one page entry.
structure Writes (top v l n : Nat) (leaf : Entry) (s s' : State) : Prop where
  sound : Sound top s'
  here : ∀ a, SameSlot l v a → translate a (entries s'.memory a levelCount top) = translateLeaf a l leaf
  elsewhere : ∀ a, ¬ SameSlot l v a →
    translate a (entries s'.memory a levelCount top) = translate a (entries s.memory a levelCount top)
  spent : ∃ used, s.frames = used ++ s'.frames ∧ used.length ≤ n
  early : s'.earlymemActive = s.earlymemActive

section Page

variable {top v t paddr : Nat} {pageSize : PageSize} {prot : Protection} {cache : Cache} {privilege : Privilege} {isGlobal : Bool}
  {s : State}

theorem leaf_writes (sound : Sound top s) (reach : Reaches s.memory top v (lowestIndex pageSize) t)
    (opened : Opened prot privilege s.memory top v (lowestIndex pageSize)) :
    Writes top v (lowestIndex pageSize) 0 (leafEntry paddr pageSize prot cache privilege isGlobal) s
      (s.store t (vaddrToIndex v (lowestIndex pageSize)) (leafEntry paddr pageSize prot cache privilege isGlobal)) := by
  obtain ⟨leaf, written⟩ : ∃ leaf, leaf = leafEntry paddr pageSize prot cache privilege isGlobal := ⟨_, rfl⟩
  obtain ⟨l, level⟩ : ∃ l, l = lowestIndex pageSize := ⟨_, rfl⟩
  have stops : ¬ Descends l leaf := written ▸ level ▸ leaf_stops paddr pageSize prot cache privilege isGlobal
  rw [← level] at reach opened ⊢
  rw [← written]
  have bound := reaches_level reach
  have positive := reaches_positive reach
  obtain ⟨next, stored⟩ : ∃ next, next = Function.update s.memory (t + 8 * vaddrToIndex v l) leaf := ⟨_, rfl⟩
  have path : ∀ w, entries next w levelCount top =
      if SameSlot l v w then (entries s.memory w levelCount top).take (levelCount - l) ++ [leaf]
      else entries s.memory w levelCount top := fun w => stored ▸ page_entries sound.tree reach stops w
  have short : ∀ w, SameSlot l v w → ((entries s.memory w levelCount top).take (levelCount - l)).length = levelCount - l := by
    intro w same
    obtain ⟨above, whole, length⟩ := reaches_entries (reaches_same reach (same_slot_mono (Nat.le_succ _) same))
    rw [List.length_take, whole, List.length_append, length]
    omega
  have granting : ∀ w, SameSlot l v w → Granting ((entries s.memory w levelCount top).take (levelCount - l) ++ [leaf]) := by
    intro w same other last _ entry member
    rw [List.getLast?_concat, Option.some.injEq] at last
    subst last
    rcases List.mem_append.mp member with above | here
    · have reachW := reaches_same reach (same_slot_mono (Nat.le_succ _) same)
      obtain ⟨i, u, higher, reachI, rfl⟩ := above_reads reachW levelCount top .top bound entry above
      have granted := opened_same opened same i u higher reachI
      rw [written, leaf_write, leaf_user, leaf_nx]
      exact ⟨granted.writes, fun user => granted.serves (of_decide_eq_true user), fun clear => granted.runs (Bool.not_eq_false' .. ▸ clear)⟩
    · rw [List.mem_singleton.mp here]
      exact ⟨id, id, id⟩
  refine ⟨⟨page_tree sound.tree reach stops, sound.distinct, sound.placed, fun w k u other => ?_, fun w => ?_, fun w => ?_⟩,
    fun a same => ?_, fun a apart => ?_, ⟨[], rfl, Nat.le_refl _⟩, rfl⟩
  · exact sound.fresh w k u (page_reaches sound.tree reach stops other)
  · rw [store_memory, ← stored, path]
    by_cases same : SameSlot l v w
    · rw [if_pos same]
      exact granting w same
    · rw [if_neg same]
      exact sound.granting w
  · rw [store_memory, ← stored, path]
    by_cases same : SameSlot l v w
    · rw [if_pos same]
      intro other last _
      rw [List.getLast?_concat, Option.some.injEq] at last
      refine ⟨paddr, pageSize, prot, cache, privilege, isGlobal, ?_, last.symm.trans written⟩
      rw [List.length_append, short w same, List.length_singleton, ← level]
      omega
    · rw [if_neg same]
      exact sound.leafy w
  · rw [store_memory, ← stored, path, if_pos same, translate_granting (granting a same) List.getLast?_concat, List.length_append,
      short a same, List.length_singleton, show levelCount + 1 - (levelCount - l + 1) = l by omega]
  · rw [store_memory, ← stored, path, if_neg apart]

theorem map_page_spec (sound : Sound top s) :
    (∃ s', mapPage top v paddr pageSize prot cache privilege isGlobal s = .ok s' ∧
        Writes top v (lowestIndex pageSize) (levelCount - lowestIndex pageSize)
          (leafEntry paddr pageSize prot cache privilege isGlobal) s s') ∨
      (s.frames.length < levelCount - lowestIndex pageSize ∧
        mapPage top v paddr pageSize prot cache privilege isGlobal s = .error (outOfMemory s)) ∨
      ((∃ T, translate v (entries s.memory v levelCount top) = some T ∧ lowestIndex pageSize < T.level) ∧
        ∃ fault, mapPage top v paddr pageSize prot cache privilege isGlobal s = .error fault) := by
  have positive : 1 ≤ lowestIndex pageSize := by cases pageSize <;> decide
  have bound : lowestIndex pageSize ≤ levelCount := by cases pageSize <;> decide
  have opened : Opened prot privilege s.memory top v levelCount := fun k u higher other =>
    absurd (reaches_level other) (Nat.not_le_of_lt higher)
  unfold mapPage
  rcases map_tables_spec positive levelCount top s sound .top opened bound with
    ⟨u, t, run, prepares, reach, openedU⟩ | ⟨short, run⟩ | ⟨blocked, fault, run⟩
  · rw [run, bind_ok]
    have writes := @leaf_writes top v t paddr pageSize prot cache privilege isGlobal u prepares.sound reach openedU
    obtain ⟨used, split, few⟩ := prepares.spent
    refine .inl ⟨_, rfl, writes.sound, writes.here, fun a apart => (writes.elsewhere a apart).trans (prepares.same a), ⟨used, split, few⟩,
      prepares.early⟩
  · rw [run]
    exact .inr (.inl ⟨short, rfl⟩)
  · rw [run]
    exact .inr (.inr ⟨blocked, fault, rfl⟩)

end Page

end Elysium.Ptm
