import Elysium.VmKeeps

set_option autoImplicit false

namespace Elysium.Vm

inductive Call where
  | mapAnon (hint length : Nat) (prot : Protection) (cache : Cache) (flags : Nat)
  | mapDirect (hint length : Nat) (prot : Protection) (cache : Cache) (physicalAddress flags : Nat)
  | unmap (address length : Nat)
  | rewriteProt (address length : Nat) (prot : Protection)
  | rewriteCache (address length : Nat) (cache : Cache)

def Call.run (as : SpaceId) : Call → State → Except Fault State
  | .mapAnon hint length prot cache flags, s => vmMapAnon as hint length prot cache flags s >>= fun result => .ok result.1
  | .mapDirect hint length prot cache physicalAddress flags, s =>
      vmMapDirect as hint length prot cache physicalAddress flags s >>= fun result => .ok result.1
  | .unmap address length, s => vmUnmap as address length s
  | .rewriteProt address length prot, s => vmRewriteProt as address length prot s
  | .rewriteCache address length cache, s => vmRewriteCache as address length cache s

-- A rewrite on the global space does not call for a pool page in the middle.
def Stocked (s : State) (as : SpaceId) : Prop := as = .global → 3 ≤ s.cache.length

-- The calls that leave a sound state behind.
def Harmless (s : State) (as : SpaceId) : Call → Prop
  | .mapAnon .. => True
  | .mapDirect .. => True
  | .unmap address length => length = 0 ∨
      (¬ Displaces (s.space as).regions address (address + length) ∧ ¬ Swallows s as address (address + length))
  | .rewriteProt address length prot => length = 0 ∨
      (¬ Voids .protection prot .standard (s.space as).regions (Ahead address) (address + length) ∧ Stocked s as)
  | .rewriteCache address length cache => length = 0 ∨
      (¬ Voids .cache protNone cache (s.space as).regions (Ahead address) (address + length) ∧ Stocked s as)

section Rewrite

variable {s : State} {as : SpaceId} {address length : Nat} {type : RewriteType} {prot : Protection} {cache : Cache}

theorem rewrite_common_checks (positive : 0 < length) (unchecked : ¬ InRange s as address length) :
    rewriteCommon as address length type prot cache s = .error .assertion := by
  rw [rewriteCommon, if_neg (Nat.pos_iff_ne_zero.mp positive)]
  by_cases aligned : address % pageGranularity = 0 ∧ length % pageGranularity = 0
  · have outside : ¬ SegmentInBounds address length (s.space as).start (s.space as).limit := fun bounded =>
      unchecked ⟨aligned.1, aligned.2, bounded⟩
    simp only [assertThat, decide_eq_true aligned, if_true, bind_ok, outside, decide_false]
    rfl
  · simp only [assertThat, aligned, decide_false]
    rfl

theorem unmap_keeps (sound : Sound s) (harmless : Harmless s as (.unmap address length)) :
    Keeps (vmUnmap as address length s) := by
  rcases harmless with rfl | ⟨placed, apart⟩
  · exact .inl ⟨s, rfl, sound⟩
  · rcases Nat.eq_zero_or_pos length with rfl | positive
    · exact .inl ⟨s, rfl, sound⟩
    · by_cases range : InRange s as address length
      · by_cases outside : ∀ r ∈ (s.space as).regions, r.Covers address → r.limit ≤ address + length
        · exact unmap_outside_keeps sound range positive outside placed
        · push Not at outside
          obtain ⟨split, member, covers, beyond⟩ := outside
          exact unmap_inside_keeps sound range positive member covers beyond apart
      · exact keeps_stop (.inl rfl) (rewrite_common_checks positive range)

theorem rewrite_keeps (rewrites : type ≠ .delete) (sound : Sound s)
    (harmless : length = 0 ∨
      (¬ Voids type prot cache (s.space as).regions (Ahead address) (address + length) ∧ Stocked s as)) :
    Keeps (rewriteCommon as address length type prot cache s) := by
  rcases harmless with rfl | ⟨whole, stocked⟩
  · exact .inl ⟨s, rfl, sound⟩
  · rcases Nat.eq_zero_or_pos length with rfl | positive
    · exact .inl ⟨s, rfl, sound⟩
    · by_cases range : InRange s as address length
      · have backed : Backed True 3 s as := by
          by_cases isGlobal : as = .global
          · exact .inl (.inl (stocked isGlobal))
          · exact .inr ⟨isGlobal, sound_hosts sound, trivial⟩
        rcases @rewrite_call_spec True s as address length type prot cache rewrites (sound.tidy as) range positive sound.owned backed
          with ⟨u, run, finishes⟩ | ⟨fault, stops, failed⟩
        · exact keeps_local sound run finishes.aside.toLocal finishes.owned (finishes.tidy fun both => whole both.2)
        · exact keeps_stop stops failed
      · exact keeps_stop (.inl rfl) (rewrite_common_checks positive range)

end Rewrite

theorem call_keeps {s : State} {as : SpaceId} (sound : Sound s) (call : Call) (harmless : Harmless s as call) :
    Keeps (call.run as s) := by
  cases call with
  | mapAnon hint length prot cache flags => exact map_keeps sound hint length flags prot cache .anon 0
  | mapDirect hint length prot cache physicalAddress flags =>
      exact map_keeps sound hint length flags prot cache .direct physicalAddress
  | unmap address length => exact unmap_keeps sound harmless
  | rewriteProt address length prot => exact rewrite_keeps (by decide) sound harmless
  | rewriteCache address length cache => exact rewrite_keeps (by decide) sound harmless

-- Address spaces in which nothing is mapped yet.
structure Started (s : State) : Prop where
  empty : ∀ as, (s.space as).regions = []
  fits : ∀ as, (s.space as).limit < 2 ^ 64
  aligned : ∀ as, (s.space as).start % pageGranularity = 0
  pool : s.cache.Nodup
  issued : ∀ id ∈ s.cache, id < s.nextRegion

theorem started_sound {s : State} (started : Started s) : Sound s := by
  have none : ∀ as, ∀ r, r ∉ (s.space as).regions := fun as r member => absurd (started.empty as ▸ member) List.not_mem_nil
  refine ⟨⟨fun as => ?_, fun as => ?_, fun as bs r member => absurd member (none as r), started.pool,
    fun as r member => absurd member (none as r), started.issued, fun as r member => absurd member (none as r)⟩,
    fun as => ⟨started.fits as, fun r member => absurd member (none as r), fun a member => absurd member (none as a)⟩,
    started.aligned⟩
  · rw [started.empty]
    exact List.Pairwise.nil
  · rw [started.empty]
    exact List.nodup_nil

inductive Reaches (start : State) : State → Prop
  | refl : Reaches start start
  | step {s s' : State} (as : SpaceId) (call : Call) : Reaches start s → Harmless s as call → call.run as s = .ok s' →
      Reaches start s'

theorem reaches_sound {start s : State} (started : Started start) (reaches : Reaches start s) : Sound s := by
  induction reaches with
  | refl => exact started_sound started
  | step as call _ harmless run ih =>
      rcases call_keeps ih call harmless with ⟨s', done, sound⟩ | ⟨fault, _, failed⟩
      · obtain rfl := Except.ok.inj (run.symm.trans done)
        exact sound
      · rw [run] at failed
        exact absurd failed (by simp)

-- The representation invariant of a regions tree, node by node.
structure WellFormed (space : AddressSpace) : Prop where
  placed : ∀ r ∈ space.regions, Placed space r
  distinct : space.regions.Pairwise fun a b => a.base ≠ b.base
  disjoint : space.regions.Pairwise Apart

theorem sound_well_formed {s : State} (sound : Sound s) (as : SpaceId) : WellFormed (s.space as) := by
  have tidy := sound.tidy as
  have nodup : (s.space as).regions.Nodup := List.Nodup.of_map _ (sound.owned.ids as)
  have pairs := List.pairwise_iff_forall_sublist.mpr fun {a b} (sub : [a, b].Sublist (s.space as).regions) =>
    (⟨sub.subset List.mem_cons_self, sub.subset (List.mem_cons_of_mem _ List.mem_cons_self),
      fun same => by simpa [same] using nodup.sublist sub⟩ :
      a ∈ (s.space as).regions ∧ b ∈ (s.space as).regions ∧ a ≠ b)
  refine ⟨tidy.placed, pairs.imp fun both same => ?_, pairs.imp fun both => ?_⟩
  · exact both.2.2 (base_unique tidy both.1 both.2.1 same)
  · exact tidy.apart _ both.1 _ both.2.1 both.2.2

-- From empty spaces, by harmless calls only: the trees stay well formed, and every
-- further harmless call returns or stops at an assertion or a panic.
theorem region_trees_well_formed (start s : State) (started : Started start) (reaches : Reaches start s) :
    (∀ as, WellFormed (s.space as)) ∧
      ∀ as call, Harmless s as call → (∃ s', call.run as s = .ok s' ∧ Reaches start s') ∨
        ∃ fault, Stops True fault ∧ call.run as s = .error fault := by
  have sound := reaches_sound started reaches
  refine ⟨sound_well_formed sound, fun as call harmless => ?_⟩
  rcases call_keeps sound call harmless with ⟨s', run, _⟩ | stopped
  · exact .inl ⟨s', run, .step as call reaches harmless run⟩
  · exact .inr stopped

theorem fresh_started (cache : List Nat) (nodup : cache.Nodup) (bound : ∀ id ∈ cache, id < 100) : Started (freshState cache) := by
  refine ⟨fresh_regions, fresh_limit, fun as => ?_, nodup, bound⟩
  cases as with
  | global => exact (by decide : kernelspaceStart % pageGranularity = 0)
  | process id => exact (by decide : userspaceStart % pageGranularity = 0)

-- One page at 0x5000, backed on demand.
def mapLazyPage : Call := .mapAnon 0x5000 0x1000 protRW .standard (flagFixed ||| flagDynamicallyBacked)

theorem region_trees_well_formed_after_map :
    ∃ s, mapLazyPage.run (.process 0) (freshState [6, 7, 8]) = .ok s ∧
      (s.space (.process 0)).regions = [lazyRegion 6 0x5000 0x1000 protRW] ∧ WellFormed (s.space (.process 0)) :=
  ⟨_, rfl, rfl, (region_trees_well_formed (freshState [6, 7, 8]) _ (fresh_started _ (by decide) (by decide))
    (.step (.process 0) mapLazyPage .refl trivial rfl)).1 (.process 0)⟩

-- A range that ends where the page starts: an empty region with the base of the
-- page is left in the tree.
theorem rewrite_leaves_empty_region :
    Started (freshState [6, 7, 8]) ∧ ∃ s s', mapLazyPage.run (.process 0) (freshState [6, 7, 8]) = .ok s ∧
      InRange s (.process 0) 0x3000 0x2000 ∧ (Call.rewriteProt 0x3000 0x2000 protNone).run (.process 0) s = .ok s' ∧
      (s'.space (.process 0)).regions = [lazyRegion 8 0x5000 0x1000 protRW, lazyRegion 7 0x5000 0 protNone] ∧
      ¬ WellFormed (s'.space (.process 0)) := by
  refine ⟨fresh_started _ (by decide) (by decide), _, _, rfl, ⟨by decide, by decide, by decide⟩, rfl, rfl, fun wellFormed => ?_⟩
  have placed := wellFormed.placed (lazyRegion 7 0x5000 0 protNone) (List.mem_cons_of_mem _ List.mem_cons_self)
  exact Nat.lt_irrefl 0 placed.nonempty

end Elysium.Vm
