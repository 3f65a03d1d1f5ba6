import Elysium.VmMap

set_option autoImplicit false

namespace Elysium.Vm

-- How a mapping call may end, where t is the state in which it looks for a place:
-- the state before the call, or the one after the pool took a page.
structure Fits (as : SpaceId) (hint length flags : Nat) (attributes : Attributes) (t s' : State) (result : Nat) : Prop where
  null : result = nullptr ↔ Rejected hint length flags ∨ (Fixed flags ∧ ¬ Hole (t.space as) length hint) ∨
    (¬ Fixed flags ∧ ∀ a, ¬ Hole (t.space as) length a)
  hinted : result ≠ nullptr → Hole (t.space as) length (roundHint hint) → result = roundHint hint
  lowest : result ≠ nullptr → ¬ Hole (t.space as) length (roundHint hint) → LowestHole (t.space as) length result
  mapped : result ≠ nullptr → ∀ a v, Maps (s'.space as).regions a v ↔
    Maps (t.space as).regions a v ∨ (result ≤ a ∧ a < result + length ∧ v = attributes.shift (a - result))
  unchanged : result = nullptr → s'.space as = t.space as
  others : ∀ bs, bs ≠ as → s'.space bs = t.space bs

def FirstFit (as : SpaceId) (hint length flags : Nat) (attributes : Attributes) (refused : Prop) (s : State)
    (run : Except Fault (State × Nat)) : Prop :=
  (∃ t s' result, PoolStep s t ∧ run = .ok (s', result) ∧ Fits as hint length flags attributes t s' result) ∨
    run = .error Pmm.outOfMemory ∨ run = .error outOfAddressSpace ∨ (run = .error .assertion ∧ refused)

def requested (prot : Protection) (cache : Cache) (flags : Nat) (type : RegionType) (directPhysicalAddress : Nat) :
    Attributes :=
  ⟨requestedBacking flags type directPhysicalAddress, prot, cache, flags &&& flagDynamicallyBacked ≠ 0⟩

section FirstFit

variable {as : SpaceId} {hint length flags : Nat} {prot : Protection} {cache : Cache} {type : RegionType}
  {directPhysicalAddress : Nat} {s t : State}

theorem rejected_fits (rejected : Rejected hint length flags) (attributes : Attributes) :
    Fits as hint length flags attributes s s nullptr :=
  ⟨iff_of_true rfl (.inl rejected), fun never => absurd rfl never, fun never => absurd rfl never,
    fun never => absurd rfl never, fun _ => rfl, fun _ _ => rfl⟩

theorem fixed_hint (accepted : ¬ Rejected hint length flags) (isFixed : Fixed flags) : roundHint hint = hint := by
  refine round_hint_eq ?_
  by_contra unaligned
  exact accepted (.inr (.inr ⟨isFixed, unaligned⟩))

theorem no_place_fits (accepted : ¬ Rejected hint length flags) (noPlace : NoPlace (t.space as) hint length flags)
    (id : Nat) (attributes : Attributes) : Fits as hint length flags attributes t (t.regionFree id) nullptr := by
  refine ⟨iff_of_true rfl (.inr ?_), fun never => absurd rfl never, fun never => absurd rfl never,
    fun never => absurd rfl never, fun _ => rfl, fun _ _ => rfl⟩
  by_cases isFixed : Fixed flags
  · exact .inl ⟨isFixed, fixed_hint accepted isFixed ▸ noPlace.1⟩
  · exact .inr ⟨isFixed, noPlace.2.resolve_left isFixed⟩

theorem placed_fits_claim {s' : State} {id address : Nat} {whole : Region} (tidy : Tidy (t.space as))
    (nonzero : 0 < (t.space as).start) (accepted : ¬ Rejected hint length flags)
    (chosen : Chosen (t.space as) hint length flags address)
    (joined : Joined (t.space as).regions (newRegion as prot cache flags type directPhysicalAddress id address length) whole
      (s'.space as).regions) (frame : Frame as t s') :
    Fits as hint length flags (requested prot cache flags type directPhysicalAddress) t s' address := by
  have bounds := (segment_in_bounds_iff address length _ _ tidy.fits).mp chosen.hole.1
  have found : address ≠ nullptr := by
    unfold nullptr
    omega
  refine ⟨iff_of_false found ?_, fun _ => chosen.hinted, fun _ missing => (chosen.lowest missing).2, fun _ a v => ?_,
    fun null => absurd null found, frame.others⟩
  · rintro (rejected | ⟨isFixed, missing⟩ | ⟨_, none⟩)
    · exact accepted rejected
    · rw [← fixed_hint accepted isFixed] at missing
      exact (chosen.lowest missing).1 isFixed
    · exact none address chosen.hole
  · rw [joined_maps tidy joined]
    exact or_congr Iff.rfl (and_assoc)

theorem map_common_first_fit (owned : Owned s []) (hosts : Hosts s) (tidy : Tidy (s.space as))
    (aligned : (s.space as).start % pageGranularity = 0) (nonzero : 0 < (s.space as).start) :
    FirstFit as hint length flags (requested prot cache flags type directPhysicalAddress)
      (type = .direct ∧ directPhysicalAddress % pageGranularity ≠ 0) s
      (mapCommon as hint length prot cache flags type directPhysicalAddress s) := by
  by_cases rejected : Rejected hint length flags
  · exact .inl ⟨s, s, nullptr, .inl rfl, map_common_rejected rejected, rejected_fits rejected _⟩
  · rcases @map_common_spec as hint length flags prot cache type directPhysicalAddress s owned hosts tidy aligned rejected
      with ⟨t, id, _, _, step, hostsT, noPlace | placed⟩ | failed
    · obtain ⟨noPlace, run⟩ := noPlace
      exact .inl ⟨t, _, nullptr, step, run, no_place_fits rejected noPlace id _⟩
    · obtain ⟨s', address, whole, chosen, run, joined, frame, _⟩ := placed
      have tidyT := pool_step_tidy step hostsT tidy
      have startT : 0 < (t.space as).start := by
        rw [(pool_step_local step hostsT as).start as]
        exact nonzero
      exact .inl ⟨t, s', address, step, run, placed_fits_claim tidyT startT rejected chosen joined frame⟩
    · exact .inr failed

end FirstFit

end Elysium.Vm
