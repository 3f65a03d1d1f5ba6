import Elysium.VmRewrite
import Elysium.VmUnmapExact

set_option autoImplicit false

namespace Elysium.Vm

section Congr

variable {type : RewriteType} {prot : Protection} {cache : Cache} {regions : List Region} {ahead ahead' : Region → Prop}
  {limit : Nat} (same : ∀ m ∈ regions, ahead m ↔ ahead' m)

include same

theorem stranded_congr (stranded : Stranded type prot cache regions ahead limit) :
    Stranded type prot cache regions ahead' limit := by
  intro l inTree aheadL start reaches
  obtain ⟨p, inTreeP, aheadP, unset, joins⟩ := stranded l inTree ((same l inTree).mpr aheadL) start reaches
  exact ⟨p, inTreeP, (same p inTreeP).mp aheadP, unset, joins⟩

theorem strays_congr (next : Region) :
    Strays type prot cache regions ahead limit next ↔ Strays type prot cache regions ahead' limit next := by
  constructor
  · rintro ⟨stranded, beyond, unset⟩
    exact ⟨stranded_congr same stranded, beyond, unset⟩
  · rintro ⟨stranded, beyond, unset⟩
    exact ⟨stranded_congr (fun m inTree => (same m inTree).symm) stranded, beyond, unset⟩

end Congr

section Call

variable {broke : Prop} {s : State} {as : SpaceId} {address length : Nat} {type : RewriteType} {prot : Protection}
  {cache : Cache} (rewrites : type ≠ .delete) (tidy : Tidy (s.space as)) (range : InRange s as address length)
  (positive : 0 < length) (owned : Owned s []) (backed : Backed broke 3 s as)

include rewrites tidy positive

theorem rewrite_first_eq {split : Region} (member : split ∈ (s.space as).regions) (covers : split.Covers address) :
    rewriteFirst as address length type prot cache s =
      rewriteRound as split address (firstLength split address length) type prot cache s >>= fun t =>
        .ok (t, address + firstLength split address length) := by
  have fits := region_fits tidy member
  obtain ⟨_, within, _, _⟩ := first_length_bounds covers positive
  have next : add64 address (firstLength split address length) = address + firstLength split address length :=
    add64_eq (by omega)
  unfold rewriteFirst
  rw [first_found tidy member covers]
  dsimp only
  rw [first_length_eq tidy member covers, region_end tidy member, if_pos covers.2, next]
  unfold rewriteRound rewriteSegment
  by_cases set : alreadySet type prot cache split = true
  · rw [if_pos set, if_pos set]
    cases type with
    | delete => exact absurd rfl rewrites
    | protection => rfl
    | cache => rfl
  · rw [if_neg set, if_neg set]
    have rest : ∀ run : Except Fault (State × Region), (run >>= fun x => (carveFirst as split.id address
        (firstLength split address length) x.1 >>= fun t => Except.ok (insertRewritten as (setAttribute type prot cache x.2) address
          (firstLength split address length) t, address + firstLength split address length))) =
        (run >>= fun x => carveFirst as split.id address (firstLength split address length) x.1 >>= fun t =>
          .ok (insertRewritten as (setAttribute type prot cache x.2) address (firstLength split address length) t)) >>=
            fun t => .ok (t, address + firstLength split address length) := by
      intro run
      cases run with
      | error fault => rfl
      | ok x =>
          rw [bind_ok, bind_ok]
          cases carveFirst as split.id address (firstLength split address length) x.1 with
          | error fault => rfl
          | ok t => rfl
    cases type with
    | delete => exact absurd rfl rewrites
    | protection => exact rest _
    | cache => exact rest _

include range owned backed

theorem rewrite_call_spec :
    (∃ u, rewriteCommon as address length type prot cache s = .ok u ∧
        Finishes as type prot cache (address + length) address (Ahead address) s u) ∨
      ∃ fault, Stops broke fault ∧ rewriteCommon as address length type prot cache s = .error fault := by
  have fits := range_fits tidy range
  have aligned : (address + length) % pageGranularity = 0 := by
    rw [Nat.add_mod, range.aligned, range.wholePages]
    rfl
  have fuel : length / pageGranularity * pageGranularity = length :=
    Nat.div_mul_cancel (Nat.dvd_of_mod_eq_zero range.wholePages)
  rw [rewrite_common_eq range positive fits]
  by_cases bare : ∀ r ∈ (s.space as).regions, ¬ r.Covers address
  · rw [rewrite_first_bare tidy bare, bind_ok]
    have same : ∀ m ∈ (s.space as).regions, address ≤ m.base ↔ Ahead address m := by
      intro m inTree
      have nonempty := (tidy.placed m inTree).nonempty
      have size : m.limit = m.base + m.length := rfl
      have outside := bare m inTree
      unfold Region.Covers at outside
      unfold Ahead
      omega
    rcases @rewrite_loop_spec broke as type prot cache (address + length) rewrites fits aligned (length / pageGranularity) address
      s tidy owned (fun _ => backed_mono (by decide) backed) (by omega)
      (fun _ m inTree start stop => absurd ⟨Nat.le_of_lt start, stop⟩ (bare m inTree)) with ⟨u, run, finishes⟩ | failed
    · refine .inl ⟨u, run, finishes.owned, finishes.aside, fun a v => ?_, fun notVoid => finishes.tidy fun both => notVoid ⟨both.1, ?_⟩⟩
      · have tresspass : ∀ a, Trespasses type prot cache (s.space as).regions (fun m => address ≤ m.base) (address + length) a ↔
            Trespasses type prot cache (s.space as).regions (Ahead address) (address + length) a := fun a =>
          exists_congr fun next => and_congr_left' (strays_congr same next)
        rw [finishes.maps a v]
        dsimp only
        rw [tresspass]
      · obtain ⟨next, strays, rest⟩ := both.2
        exact ⟨next, (strays_congr same next).mp strays, rest⟩
    · exact .inr failed
  · push Not at bare
    obtain ⟨split, member, covers⟩ := bare
    have placed := tidy.placed split member
    obtain ⟨some, within, _, _⟩ := first_length_bounds covers positive
    have stop := covers.2
    have taken : address + firstLength split address length = min split.limit (address + length) := by
      unfold firstLength
      omega
    have ends : split.limit < address + length → address + firstLength split address length = split.limit := by omega
    rw [rewrite_first_eq rewrites tidy positive member covers]
    rcases @round_spec broke s as type prot cache split address (firstLength split address length) 2 rewrites tidy owned backed
      (by decide) member covers.1 within (fun _ => by decide) some range.aligned
      (first_length_aligned tidy member range.aligned range.wholePages) with
      ⟨t, done, ownedT, aside, tidyT, maps, passed⟩ | ⟨fault, stops, failed⟩
    · rw [done, bind_ok, bind_ok]
      have others : ∀ m ∈ (s.space as).regions, m ≠ split → (Ahead address m ↔ split.limit ≤ m.base) := by
        intro m inTree different
        have apart := tidy.apart m inTree split member different
        have nonempty := (tidy.placed m inTree).nonempty
        have size : m.limit = m.base + m.length := rfl
        have start := covers.1
        unfold Apart at apart
        unfold Ahead
        omega
      have restOf : ∀ u, Finishes as type prot cache (address + length) split.limit (fun m => split.limit ≤ m.base) t u →
          Finishes as type prot cache (address + length) address (Ahead address) s u := fun u rest =>
        finishes_round rewrites tidy member stop others (Nat.lt_of_le_of_lt covers.1 (by omega)) (by omega) (Nat.le_refl _) taken
          (fun _ _ _ _ from_c => from_c) aside maps (fun inside => (passed (ends inside)).1) rest
      by_cases inside : split.limit < address + length
      · rw [ends inside]
        rcases @rewrite_loop_spec broke as type prot cache (address + length) rewrites fits aligned (length / pageGranularity)
          split.limit t tidyT ownedT (fun _ => (passed (ends inside)).2.2.1) (by omega) (fun _ => (passed (ends inside)).2.1) with
          ⟨u, run, finishes⟩ | failed
        · exact .inl ⟨u, run, restOf u finishes⟩
        · exact .inr failed
      · exact .inl ⟨t, rewrite_loop_done (by omega) _ t, restOf t (finishes_done tidyT ownedT (by omega))⟩
    · rw [failed]
      exact .inr ⟨fault, stops, rfl⟩

end Call

-- The loop misses the end of the range and rewrites a region that lies past it.
def RewriteStrays (type : RewriteType) (prot : Protection) (cache : Cache) (s : State) (as : SpaceId) (address length : Nat) :
    Prop :=
  0 < length ∧ ∃ next, Strays type prot cache (s.space as).regions (Ahead address) (address + length) next ∧
    address + length < next.base

-- A call that returns is pointwise exactly when it does not stray. Otherwise it
-- stops at clone_to's assertion, or the pool ran out.
def PointwiseUnlessStraying (type : RewriteType) (prot : Protection) (cache : Cache) (s : State) (as : SpaceId)
    (address length : Nat) (run : Except Fault State) : Prop :=
  (∃ s', run = .ok s' ∧ (Rewrites (setting type prot cache) (fun a => address ≤ a ∧ a < address + length)
      (s.space as).regions (s'.space as).regions ↔ ¬ RewriteStrays type prot cache s as address length)) ∨
    ∃ fault, Stops (¬ Supply 3 s as) fault ∧ run = .error fault

section Pointwise

variable {s : State} {as : SpaceId} {address length : Nat} {type : RewriteType} {prot : Protection} {cache : Cache}

theorem finishes_pointwise {u : State} (rewrites : type ≠ .delete) (tidy : Tidy (s.space as)) (positive : 0 < length)
    (finishes : Finishes as type prot cache (address + length) address (Ahead address) s u) :
    Rewrites (setting type prot cache) (fun a => address ≤ a ∧ a < address + length) (s.space as).regions
      (u.space as).regions ↔ ¬ RewriteStrays type prot cache s as address length := by
  constructor
  · rintro pointwise ⟨_, next, strays, past⟩
    -- The first page of the region past the range has changed.
    have member := strays.beyond.1
    have covers := region_covers_base tidy member
    obtain ⟨w, maps, ⟨inside, _⟩ | ⟨_, same⟩⟩ := (pointwise next.base (setting type prot cache (next.at next.base))).mp
      ((finishes.maps _ _).mpr ⟨next.at next.base, ⟨next, member, covers, rfl⟩,
        .inl ⟨⟨by omega, .inr ⟨next, strays, past, covers⟩⟩, rfl⟩⟩)
    · omega
    · obtain ⟨m, inTree, coversM, at_base⟩ := maps
      rw [covering_unique tidy inTree member coversM covers] at at_base
      rw [at_base] at same
      have set := (already_set_at rewrites next next.base).mpr same
      rw [strays.unset] at set
      exact absurd set (by decide)
  · intro inside a v
    rw [finishes.maps a v]
    have trespass : ¬ Trespasses type prot cache (s.space as).regions (Ahead address) (address + length) a := by
      rintro ⟨next, strays, past, _⟩
      exact inside ⟨positive, next, strays, past⟩
    have same : (address < address + length ∧ ((address ≤ a ∧ a < address + length) ∨
        Trespasses type prot cache (s.space as).regions (Ahead address) (address + length) a)) ↔
        address ≤ a ∧ a < address + length := by
      rw [or_iff_left trespass]
      omega
    dsimp only
    rw [same]

theorem rewrite_call_pointwise (rewrites : type ≠ .delete) (owned : Owned s []) (hosts : Hosts s) (tidy : Tidy (s.space as))
    (range : InRange s as address length) (stocked : as = .global → 3 ≤ s.cache.length) :
    PointwiseUnlessStraying type prot cache s as address length (rewriteCommon as address length type prot cache s) := by
  rcases Nat.eq_zero_or_pos length with rfl | positive
  · refine .inl ⟨s, rfl, iff_of_true (rewrites_refl fun a _ _ inside => ?_) fun strays => Nat.lt_irrefl 0 strays.1⟩
    omega
  · have backed : Backed (¬ Supply 3 s as) 3 s as := by
      by_cases supply : Supply 3 s as
      · exact .inl supply
      · refine .inr ⟨fun isGlobal => supply (.inl (stocked isGlobal)), hosts, supply⟩
    rcases @rewrite_call_spec _ s as address length type prot cache rewrites tidy range positive owned backed with
      ⟨u, run, finishes⟩ | failed
    · exact .inl ⟨u, run, finishes_pointwise rewrites tidy positive finishes⟩
    · exact .inr failed

end Pointwise

end Elysium.Vm
