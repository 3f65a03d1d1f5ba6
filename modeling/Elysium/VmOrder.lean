import Elysium.VmCanonical

set_option autoImplicit false

namespace Elysium.Vm

-- What a region list says, the structures that hold it aside.
def extents (regions : List Region) : List (Nat × Nat × Attributes) :=
  regions.map fun r => (r.base, r.length, r.toAttributes)

def mapPages (pages : Nat → Option Attributes) (address length : Nat) (v : Attributes) (p : Nat) : Option Attributes :=
  if address ≤ p * pageGranularity ∧ p * pageGranularity < address + length then
    some (v.shift (p * pageGranularity - address))
  else pages p

def unmapPages (pages : Nat → Option Attributes) (address length p : Nat) : Option Attributes :=
  if address ≤ p * pageGranularity ∧ p * pageGranularity < address + length then none else pages p

-- Successful calls on one space, with the page map they describe. What happens in
-- other spaces in between leaves this one as it is.
inductive Evolves (as : SpaceId) (start : State) : State → (Nat → Option Attributes) → Prop
  | start : Evolves as start start fun _ => none
  | mapAnon {s s' : State} {pages : Nat → Option Attributes} {hint length flags address : Nat} {prot : Protection}
      {cache : Cache} : Evolves as start s pages → vmMapAnon as hint length prot cache flags s = .ok (s', address) →
      address ≠ nullptr → Evolves as start s' (mapPages pages address length (requested prot cache flags .anon 0))
  | mapDirect {s s' : State} {pages : Nat → Option Attributes} {hint length flags physicalAddress address : Nat}
      {prot : Protection} {cache : Cache} : Evolves as start s pages →
      vmMapDirect as hint length prot cache physicalAddress flags s = .ok (s', address) → address ≠ nullptr →
      physicalAddress + length ≤ memPhysMax →
      Evolves as start s' (mapPages pages address length (requested prot cache flags .direct physicalAddress))
  | unmap {s s' : State} {pages : Nat → Option Attributes} {address length : Nat} {r : Region} : Evolves as start s pages →
      r ∈ (s.space as).regions → r.base ≤ address → address + length ≤ r.limit → vmUnmap as address length s = .ok s' →
      Evolves as start s' (unmapPages pages address length)
  | elsewhere {s s' : State} {pages : Nat → Option Attributes} : Evolves as start s pages → Sound s' →
      s'.space as = s.space as → Evolves as start s' pages

section Steps

variable {s s' : State} {as : SpaceId} {address length : Nat} {pages : Nat → Option Attributes}

-- A mapping call that succeeds inserts one region where nothing was.
theorem map_step {hint flags directPhysicalAddress : Nat} {prot : Protection} {cache : Cache} {type : RegionType}
    (sound : Sound s) (other : as ≠ .global)
    (run : mapCommon as hint length prot cache flags type directPhysicalAddress s = .ok (s', address))
    (mapped : address ≠ nullptr) :
    Sound s' ∧ Free (s.space as).regions address length ∧ 0 < length ∧ InRange s' as address length ∧
      ∃ id whole, Joined (s.space as).regions (newRegion as prot cache flags type directPhysicalAddress id address length) whole
        (s'.space as).regions := by
  have accepted : ¬ Rejected hint length flags := by
    intro rejected
    rw [map_common_rejected rejected] at run
    exact mapped (congrArg Prod.snd (Except.ok.inj run)).symm
  have sound' : Sound s' := by
    have keeps := @map_keeps s as sound hint length flags prot cache type directPhysicalAddress
    rw [run, bind_ok] at keeps
    rcases keeps with ⟨t, same, soundT⟩ | ⟨fault, _, failed⟩
    · obtain rfl := Except.ok.inj same
      exact soundT
    · exact absurd failed (by simp)
  have positive : 0 < length := Nat.pos_of_ne_zero fun zero => accepted (.inl zero)
  have wholePages : length % pageGranularity = 0 := by
    by_contra ragged
    exact accepted (.inr (.inl ragged))
  rcases @map_common_spec as hint length flags prot cache type directPhysicalAddress s sound.owned (sound_hosts sound)
    (sound.tidy as) (sound.aligned as) accepted with ⟨t, id, _, _, step, _, noPlace | placed⟩ | failed | failed | ⟨failed, _⟩
  · rw [noPlace.2] at run
    exact absurd (congrArg Prod.snd (Except.ok.inj run)).symm mapped
  · obtain ⟨u, found, whole, chosen, done, joined, frame, _⟩ := placed
    obtain ⟨rfl, rfl⟩ := Prod.mk.inj (Except.ok.inj (run.symm.trans done))
    have space : t.space as = s.space as := by
      rcases step with same | ⟨hole, page⟩
      · rw [same]
      · exact page.frame.others as other
    rw [space] at joined chosen
    have aligned := chosen_aligned (sound.tidy as) (sound.aligned as) chosen
    refine ⟨sound', chosen.hole.2, positive, ⟨aligned, wholePages, ?_⟩, id, whole, joined⟩
    rw [frame.start, frame.limit, space]
    exact chosen.hole.1
  · rw [failed] at run
    exact absurd run (by simp)
  · rw [failed] at run
    exact absurd run (by simp)
  · rw [failed] at run
    exact absurd run (by simp)

theorem map_represents {region whole : Region} (tidy : Tidy (s.space as)) (represents : Represents (s.space as).regions pages)
    (free : Free (s.space as).regions region.base region.length)
    (joined : Joined (s.space as).regions region whole (s'.space as).regions) :
    Represents (s'.space as).regions (mapPages pages region.base region.length region.toAttributes) := by
  intro p v
  have covers : region.Covers (p * pageGranularity) ↔
      region.base ≤ p * pageGranularity ∧ p * pageGranularity < region.base + region.length := Iff.rfl
  rw [joined_maps tidy joined, ← represents, covers, mapPages]
  by_cases inside : region.base ≤ p * pageGranularity ∧ p * pageGranularity < region.base + region.length
  · rw [if_pos inside]
    have bare : pages p ≠ some v := by
      intro value
      obtain ⟨m, member, covered, _⟩ := (represents p v).mp value
      have low := covered.1
      have high := covered.2
      rcases free m member with below | above <;> omega
    constructor
    · intro same
      exact .inr ⟨inside, (Option.some.inj same).symm⟩
    · rintro (value | ⟨_, rfl⟩)
      · exact absurd value bare
      · rfl
  · rw [if_neg inside]
    exact ⟨.inl, fun either => either.resolve_right fun both => inside both.1⟩

theorem clone_fits_room {split : Region} {b : Nat} (room : PhysicalRoom split) (low : split.base < b) (high : b < split.limit) :
    CloneFits b split := by
  have size : split.limit = split.base + split.length := rfl
  have bound : memPhysMax < 2 ^ 64 - 1 := by decide
  unfold PhysicalRoom at room
  unfold CloneFits
  cases backing : split.backing with
  | anon backZeroed => trivial
  | direct physicalAddress =>
      simp only [backing] at room ⊢
      rw [if_pos low]
      omega

-- vm_unmap of a range inside one region cuts it out, or the pool has run out.
theorem unmap_step {split : Region} (sound : Sound s) (other : as ≠ .global) (positive : 0 < length)
    (range : InRange s as address length) (member : split ∈ (s.space as).regions) (low : split.base ≤ address)
    (high : address + length ≤ split.limit) (room : PhysicalRoom split) :
    (∃ s' id, vmUnmap as address length s = .ok s' ∧ Sound s' ∧
        Carved (s.space as).regions split address length id (s'.space as).regions) ∨
      vmUnmap as address length s = .error Pmm.outOfMemory ∨ vmUnmap as address length s = .error outOfAddressSpace := by
  have tidy := sound.tidy as
  have covers : split.Covers address := ⟨low, by omega⟩
  have whole : firstLength split address length = length := by
    unfold firstLength
    omega
  obtain ⟨r, requested⟩ : ∃ r, r = s.request (.unmap split.addressSpace address length) := ⟨_, rfl⟩
  have unfolded : vmUnmap as address length s = carveFirst as split.id address length r := by
    rw [unmap_first_eq tidy range positive member covers, whole, ← requested]
    generalize carveFirst as split.id address length r = outcome
    cases outcome with
    | error fault => rfl
    | ok t => exact rewrite_loop_done (Nat.le_refl _) _ t
  have space : r.space = s.space := requested ▸ rfl
  have soundR : Sound r :=
    ⟨owned_congr sound.owned space (requested ▸ rfl) (requested ▸ rfl), space ▸ sound.tidy, space ▸ sound.aligned⟩
  have memberR : split ∈ (r.space as).regions := space ▸ member
  rw [unfolded]
  by_cases supply : address + length < split.limit → Supply 1 r as
  · rcases carve_first_spec (soundR.tidy as) soundR.owned supply memberR low high with
      ⟨t, id, run, carved, owned, aside, _, _⟩ | ⟨tail, fails, _⟩
    · refine .inl ⟨t, id, run, sound_local soundR aside.toLocal owned ?_, space ▸ carved⟩
      exact carved_tidy (soundR.tidy as) memberR low high carved (aside.start as) (aside.limit as) rfl range.aligned range.wholePages
    · exact absurd (clone_fits_room room (by omega) tail) fails
  · obtain ⟨tail, dry⟩ := Classical.not_imp.mp supply
    obtain ⟨fault, failed, panics⟩ := dry_alloc_fails soundR.owned other (sound_hosts soundR) dry
    have stopped : carveFirst as split.id address length r = .error fault := by
      rw [carve_first_eq (soundR.tidy as) soundR.owned memberR high, if_pos tail, insertClone, cloneTo, failed]
      rfl
    rw [stopped]
    rcases panics with rfl | rfl
    · exact .inr (.inl rfl)
    · exact .inr (.inr rfl)

theorem unmap_represents {split : Region} {id : Nat} (tidy : Tidy (s.space as))
    (represents : Represents (s.space as).regions pages) (member : split ∈ (s.space as).regions) (low : split.base ≤ address)
    (high : address + length ≤ split.limit)
    (carved : Carved (s.space as).regions split address length id (s'.space as).regions) :
    Represents (s'.space as).regions (unmapPages pages address length) := by
  intro p v
  rw [carved_maps tidy member low high carved, ← represents, unmapPages]
  by_cases inside : address ≤ p * pageGranularity ∧ p * pageGranularity < address + length
  · rw [if_pos inside]
    exact ⟨fun never => absurd never (by simp), fun both => absurd inside both.2⟩
  · rw [if_neg inside]
    exact ⟨fun value => ⟨value, inside⟩, fun both => both.1⟩

end Steps

-- What holds at every point of such a run.
structure Tracks (as : SpaceId) (s : State) (pages : Nat → Option Attributes) : Prop where
  sound : Sound s
  coalesced : Coalesced (s.space as).regions
  represents : Represents (s.space as).regions pages

section Runs

variable {s s' : State} {as : SpaceId} {pages : Nat → Option Attributes} {address length : Nat} (other : as ≠ .global)

include other

theorem tracks_map {hint flags directPhysicalAddress : Nat} {prot : Protection} {cache : Cache} {type : RegionType}
    (tracks : Tracks as s pages)
    (run : mapCommon as hint length prot cache flags type directPhysicalAddress s = .ok (s', address))
    (mapped : address ≠ nullptr) (room : type = .direct → directPhysicalAddress + length ≤ memPhysMax) :
    Tracks as s' (mapPages pages address length (requested prot cache flags type directPhysicalAddress)) := by
  obtain ⟨sound', free, positive, _, id, whole, joined⟩ := map_step tracks.sound other run mapped
  have tidy := tracks.sound.tidy as
  refine ⟨sound', coalesced_joined tidy tracks.coalesced positive joined ?_, ?_⟩
  · unfold PhysicalRoom
    cases type with
    | anon => trivial
    | direct =>
        have bound := room rfl
        show directPhysicalAddress < memPhysMax ∧ directPhysicalAddress + length ≤ memPhysMax
        omega
  · exact map_represents tidy tracks.represents free joined

theorem tracks_unmap {split : Region} (tracks : Tracks as s pages) (member : split ∈ (s.space as).regions)
    (low : split.base ≤ address) (high : address + length ≤ split.limit) (run : vmUnmap as address length s = .ok s') :
    Tracks as s' (unmapPages pages address length) := by
  rcases Nat.eq_zero_or_pos length with rfl | positive
  · have same : s' = s := (Except.ok.inj run).symm
    have unchanged : unmapPages pages address 0 = pages := by
      funext p
      rw [unmapPages, if_neg (by omega)]
    rw [same, unchanged]
    exact tracks
  · by_cases range : InRange s as address length
    · rcases unmap_step tracks.sound other positive range member low high (tracks.coalesced.room split member) with
        ⟨t, id, done, soundT, carved⟩ | failed | failed
      · obtain rfl := Except.ok.inj (run.symm.trans done)
        have tidy := tracks.sound.tidy as
        exact ⟨soundT, coalesced_carved tidy tracks.coalesced member low high positive carved,
          unmap_represents tidy tracks.represents member low high carved⟩
      · rw [run] at failed
        exact absurd failed (by simp)
      · rw [run] at failed
        exact absurd failed (by simp)
    · rw [vmUnmap, rewrite_common_checks positive range] at run
      exact absurd run (by simp)

theorem evolves_tracks {start : State} (sound : Sound start) (empty : (start.space as).regions = [])
    (evolves : Evolves as start s pages) : Tracks as s pages := by
  induction evolves with
  | start =>
      refine ⟨sound, ⟨fun l member => ?_, fun r member => ?_⟩, fun p v => ⟨fun never => absurd never (by simp), ?_⟩⟩
      · exact absurd (empty ▸ member) List.not_mem_nil
      · exact absurd (empty ▸ member) List.not_mem_nil
      · rintro ⟨r, member, _⟩
        exact absurd (empty ▸ member) List.not_mem_nil
  | mapAnon _ run mapped ih => exact tracks_map other ih run mapped fun impossible => absurd impossible (by decide)
  | mapDirect _ run mapped room ih => exact tracks_map other ih run mapped fun _ => room
  | unmap _ member low high run ih => exact tracks_unmap other ih member low high run
  | elsewhere _ sound' same ih =>
      refine ⟨sound', ?_, ?_⟩
      · rw [same]
        exact ih.coalesced
      · rw [same]
        exact ih.represents

end Runs

section Canonical

variable {s s' : State} {as as' : SpaceId} {pages : Nat → Option Attributes}

theorem runs_ascending (sound : Sound s) (as : SpaceId) : Runs.Ascending ((s.space as).regions.map Region.run) := by
  have distinct := (sound_well_formed sound as).distinct
  refine List.pairwise_map.mpr (((sound.owned.ordered as).and distinct).imp_of_mem ?_)
  intro a b memberA memberB both
  have baseA := page_cancel ((sound.tidy as).placed a memberA).baseAligned
  have baseB := page_cancel ((sound.tidy as).placed b memberB).baseAligned
  have strict : a.base < b.base := Nat.lt_of_le_of_ne both.1 both.2
  show a.base / pageGranularity < b.base / pageGranularity
  by_contra less
  have product := Nat.mul_le_mul_right pageGranularity (Nat.le_of_not_lt less)
  omega

theorem extents_of_runs (tidy : Tidy (s.space as)) : extents (s.space as).regions =
    ((s.space as).regions.map Region.run).map fun run =>
      (run.first * pageGranularity, run.count * pageGranularity, run.value) := by
  rw [extents, List.map_map]
  refine List.map_congr_left fun r member => ?_
  have placed := tidy.placed r member
  show (r.base, r.length, r.toAttributes) =
    (r.base / pageGranularity * pageGranularity, r.length / pageGranularity * pageGranularity, r.toAttributes)
  rw [page_cancel placed.baseAligned, page_cancel placed.lengthAligned]

-- The region list is determined by the page map.
theorem tracks_determined (tracks : Tracks as s pages) (tracks' : Tracks as' s' pages) :
    extents (s.space as).regions = extents (s'.space as').regions := by
  have same : (s.space as).regions.map Region.run = (s'.space as').regions.map Region.run := by
    refine Runs.ascending_unique (runs_ascending tracks.sound as) (runs_ascending tracks'.sound as') fun run => ?_
    rw [runs_complete (tracks.sound.tidy as) tracks.represents tracks.coalesced,
      runs_complete (tracks'.sound.tidy as') tracks'.represents tracks'.coalesced]
  rw [extents_of_runs (tracks.sound.tidy as), extents_of_runs (tracks'.sound.tidy as'), same]

end Canonical

-- vm_unmap of what a call has just mapped: the list is as before the call, or the
-- pool has run out.
def Restores (as : SpaceId) (address length : Nat) (s s' : State) : Prop :=
  (∃ s'', vmUnmap as address length s' = .ok s'' ∧ extents (s''.space as).regions = extents (s.space as).regions) ∨
    vmUnmap as address length s' = .error Pmm.outOfMemory ∨ vmUnmap as address length s' = .error outOfAddressSpace

theorem unmap_restores {s s' : State} {as : SpaceId} {pages : Nat → Option Attributes} {hint length flags address : Nat}
    {directPhysicalAddress : Nat} {prot : Protection} {cache : Cache} {type : RegionType} (other : as ≠ .global)
    (tracks : Tracks as s pages)
    (run : mapCommon as hint length prot cache flags type directPhysicalAddress s = .ok (s', address))
    (mapped : address ≠ nullptr) (room : type = .direct → directPhysicalAddress + length ≤ memPhysMax) :
    Restores as address length s s' := by
  have tracks' := tracks_map other tracks run mapped room
  obtain ⟨sound', free, positive, range, id, whole, joined⟩ := map_step tracks.sound other run mapped
  have member : whole ∈ (s'.space as).regions := (joined.mem whole).mpr (.inr rfl)
  have low : whole.base ≤ address := joined_low joined
  have high : address + length ≤ whole.limit := joined_high joined
  rcases unmap_step sound' other positive range member low high (tracks'.coalesced.room whole member) with
    ⟨s'', _, done, _, _⟩ | failed
  · refine .inl ⟨s'', done, tracks_determined ?_ tracks⟩
    have tracks'' := tracks_unmap other tracks' member low high done
    -- The pages were not mapped before.
    have undone : unmapPages (mapPages pages address length (requested prot cache flags type directPhysicalAddress)) address
        length = pages := by
      funext p
      rw [unmapPages, mapPages]
      by_cases inside : address ≤ p * pageGranularity ∧ p * pageGranularity < address + length
      · rw [if_pos inside]
        cases value : pages p with
        | none => rfl
        | some v =>
            obtain ⟨m, inTree, covers, _⟩ := (tracks.represents p v).mp value
            have start := covers.1
            have stop := covers.2
            rcases free m inTree with below | above <;> omega
      · rw [if_neg inside, if_neg inside]
    rw [undone] at tracks''
    exact tracks''
  · exact .inr failed

end Elysium.Vm
