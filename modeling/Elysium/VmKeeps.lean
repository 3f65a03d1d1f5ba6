import Elysium.VmMap
import Elysium.VmRewriteExact

set_option autoImplicit false

namespace Elysium.Vm

-- Between two calls: every space is tidy and starts on a page, and every region
-- structure is in one place.
structure Sound (s : State) : Prop where
  owned : Owned s []
  tidy : ∀ as, Tidy (s.space as)
  aligned : ∀ as, (s.space as).start % pageGranularity = 0

-- The call returns to a sound state, or the kernel stops at an assertion or a
-- panic.
def Keeps (run : Except Fault State) : Prop := (∃ s', run = .ok s' ∧ Sound s') ∨ ∃ fault, Stops True fault ∧ run = .error fault

section Sound

variable {s s' : State} {as : SpaceId}

theorem sound_hosts (sound : Sound s) : Hosts s := ⟨sound.tidy .global, sound.aligned .global⟩

theorem sound_local (sound : Sound s) (aside : Local as s s') (owned : Owned s' []) (tidy : Tidy (s'.space as)) : Sound s' := by
  refine ⟨owned, fun bs => ?_, fun bs => ?_⟩
  · by_cases same : bs = as
    · rw [same]
      exact tidy
    · by_cases isGlobal : bs = .global
      · rw [isGlobal]
        exact (aside.hosts (fun asGlobal => same (isGlobal.trans asGlobal.symm)) (sound_hosts sound)).tidy
      · rw [aside.others bs same isGlobal]
        exact sound.tidy bs
  · rw [aside.start bs]
    exact sound.aligned bs

theorem keeps_stop {fault : Fault} {run : Except Fault State} (stops : Stops True fault) (failed : run = .error fault) :
    Keeps run := .inr ⟨fault, stops, failed⟩

theorem keeps_local (sound : Sound s) {run : Except Fault State} (done : run = .ok s') (aside : Local as s s')
    (owned : Owned s' []) (tidy : Tidy (s'.space as)) : Keeps run :=
  .inl ⟨s', done, sound_local sound aside owned tidy⟩

theorem map_keeps (sound : Sound s) (hint length flags : Nat) (prot : Protection) (cache : Cache) (type : RegionType)
    (directPhysicalAddress : Nat) :
    Keeps (mapCommon as hint length prot cache flags type directPhysicalAddress s >>= fun result => .ok result.1) := by
  by_cases rejected : Rejected hint length flags
  · rw [map_common_rejected rejected, bind_ok]
    exact .inl ⟨s, rfl, sound⟩
  · rcases @map_common_spec as hint length flags prot cache type directPhysicalAddress s sound.owned (sound_hosts sound)
      (sound.tidy as) (sound.aligned as) rejected with ⟨t, id, _, ownedT, step, hostsT, noPlace | placed⟩ | failed | failed | ⟨failed, _⟩
    · rw [noPlace.2, bind_ok]
      refine keeps_local sound rfl (local_trans (pool_step_local step hostsT as) (frame_local (frame_of_space rfl)))
        (owned_give_back ownedT) ?_
      exact pool_step_tidy step hostsT (sound.tidy as)
    · obtain ⟨s', address, whole, chosen, run, joined, frame, owned'⟩ := placed
      rw [run, bind_ok]
      have tidyT := pool_step_tidy step hostsT (sound.tidy as)
      have aside := pool_step_local step hostsT as
      have alignedT : (t.space as).start % pageGranularity = 0 := by
        rw [aside.start as]
        exact sound.aligned as
      have positive : 0 < length := Nat.pos_of_ne_zero fun zero => rejected (.inl zero)
      have wholePages : length % pageGranularity = 0 := by
        by_contra ragged
        exact rejected (.inr (.inl ragged))
      have bounds := (segment_in_bounds_iff address length _ _ tidyT.fits).mp chosen.hole.1
      have placedNew : Placed (t.space as) (newRegion as prot cache flags type directPhysicalAddress id address length) :=
        ⟨positive, chosen_aligned tidyT alignedT chosen, wholePages, bounds.1, bounds.2.2⟩
      refine keeps_local sound rfl (local_trans aside (frame_local frame)) owned' ?_
      refine joined_tidy tidyT placedNew joined frame.start frame.limit rfl ?_
      exact fun m member => (chosen.hole.2 m member).symm
    · rw [failed]
      exact keeps_stop (.inr ⟨trivial, .inl rfl⟩) rfl
    · rw [failed]
      exact keeps_stop (.inr ⟨trivial, .inr rfl⟩) rfl
    · rw [failed]
      exact keeps_stop (.inl rfl) rfl

end Sound

-- The pool page comes to lie right before the region that is being cut, and takes
-- it in.
def Swallows (s : State) (as : SpaceId) (address limit : Nat) : Prop :=
  as = .global ∧ s.cache = [] ∧ ∃ hole, LowestHole (s.space as) pageGranularity hole ∧
    ∃ r ∈ (s.space as).regions, r.Covers address ∧ limit < r.limit ∧ Joins (poolRegion s.nextRegion hole) r

-- The tree after the pool page has grown the region that is cut: the pieces lie
-- where the region was.
theorem absorbed_tidy {s t u : State} {hole address length id : Nat} {whole split : Region} (sound : Sound s)
    (refilled : Refilled s [] t hole whole) (member : split ∈ (s.space .global).regions)
    (left : Joins split (poolRegion s.nextRegion hole)) (low : split.base ≤ address) (beyond : address + length < split.limit)
    (aligned : address % pageGranularity = 0) (wholePages : length % pageGranularity = 0) (aside : Local .global s u)
    (mem : ∀ m, m ∈ (u.space .global).regions ↔ (m ∈ (t.space .global).regions ∧ m ≠ whole) ∨
      (split.base < address ∧ m = { split with length := address - split.base }) ∨
      m = cloneOf id (address + length) (split.limit - (address + length)) split) : Tidy (u.space .global) := by
  have tidy := sound.tidy .global
  have placed := tidy.placed split member
  have tidyT := (refilled_hosts (sound_hosts sound) refilled).tidy
  obtain ⟨memberW, grown⟩ := refilled_absorbs tidy refilled member left
  have base : whole.base = split.base := by rw [grown]
  have high : split.limit ≤ whole.limit := by
    have reach := joined_high refilled.joined
    have adjacent := left.1
    have size : (poolRegion s.nextRegion hole).limit = (poolRegion s.nextRegion hole).base + pageGranularity := rfl
    omega
  have ids : whole.id = split.id := by rw [grown]
  have shortened : { whole with length := split.length } = split := by rw [grown]
  -- The refilled tree with the grown region cut back.
  obtain ⟨cut, cutEq⟩ : ∃ cut : AddressSpace,
      cut = { t.space .global with regions := setLength whole.id split.length (t.space .global).regions } := ⟨_, rfl⟩
  have cutMem : ∀ m, m ∈ cut.regions ↔ (m ∈ (t.space .global).regions ∧ m ≠ whole) ∨ m = split := by
    intro m
    rw [cutEq]
    dsimp only
    rw [shorten_mem refilled.owned memberW, shortened]
  have cutStart : cut.start = (s.space .global).start := by rw [cutEq]; exact refilled.frame.start
  have cutLimit : cut.limit = (s.space .global).limit := by rw [cutEq]; exact refilled.frame.limit
  have cutTidy : Tidy cut := by
    refine tidy_adjoin tidyT (by rw [cutEq]) (by rw [cutEq]) split ?_ ?_ ?_
    · refine ⟨placed.nonempty, placed.baseAligned, placed.lengthAligned, ?_, ?_⟩
      · rw [refilled.frame.start]
        exact placed.above
      · rw [refilled.frame.limit]
        exact placed.below
    · exact fun m inCut => ((cutMem m).mp inCut).imp_left (·.1)
    · intro m inCut different
      obtain ⟨inT, notWhole⟩ := ((cutMem m).mp inCut).resolve_right different
      have apart := tidyT.apart whole memberW m inT (Ne.symm notWhole)
      unfold Apart at *
      omega
  have carved : Carved cut.regions split address length id (u.space .global).regions := by
    refine ⟨fun m => ?_⟩
    rw [mem m, cutMem m]
    refine or_congr ⟨fun old => ⟨.inl old, fun same => old.2 ?_⟩, fun both => both.1.resolve_right both.2⟩
      (or_congr Iff.rfl ⟨fun same => ⟨beyond, same⟩, fun both => both.2⟩)
    exact owned_same_id refilled.owned .global old.1 memberW (by rw [same, ids])
  exact carved_tidy cutTidy ((cutMem split).mpr (.inr rfl)) low (Nat.le_of_lt beyond) carved
    ((aside.start .global).trans cutStart.symm) ((aside.limit .global).trans cutLimit.symm) rfl aligned wholePages

section Unmap

variable {s : State} {as : SpaceId} {address length : Nat} (sound : Sound s) (range : InRange s as address length)
  (positive : 0 < length)

include sound range positive

theorem unmap_outside_keeps (outside : ∀ r ∈ (s.space as).regions, r.Covers address → r.limit ≤ address + length)
    (placed : ¬ Displaces (s.space as).regions address (address + length)) : Keeps (vmUnmap as address length s) := by
  rcases unmap_outside_spec (sound.tidy as) range positive sound.owned outside with
    ⟨_, u, run, owned, aside, tidy, _⟩ | ⟨displaces, _⟩
  · exact keeps_local sound run aside.toLocal owned tidy
  · exact absurd displaces placed

theorem unmap_inside_keeps {split : Region} (member : split ∈ (s.space as).regions) (covers : split.Covers address)
    (beyond : address + length < split.limit) (dryness : ¬ Swallows s as address (address + length)) :
    Keeps (vmUnmap as address length s) := by
  have tidy := sound.tidy as
  rw [unmap_inside_eq tidy range positive member covers beyond]
  obtain ⟨r, requested⟩ : ∃ r, r = s.request (.unmap split.addressSpace address length) := ⟨_, rfl⟩
  rw [← requested]
  have space : r.space = s.space := requested ▸ rfl
  have next : r.nextRegion = s.nextRegion := requested ▸ rfl
  have cached : r.cache = s.cache := requested ▸ rfl
  have soundR : Sound r := ⟨owned_congr sound.owned space cached next, space ▸ sound.tidy, space ▸ sound.aligned⟩
  have tidyR := soundR.tidy as
  have memberR : split ∈ (r.space as).regions := space ▸ member
  by_cases same : as = .global ∧ r.cache = []
  · obtain ⟨rfl, dry⟩ := same
    rcases refill_spec (sound_hosts soundR) soundR.owned with ⟨t, hole, whole, run, refilled, _⟩ | ⟨run, _⟩ | ⟨run, _⟩
    · have apartR : ¬ Joins (poolRegion r.nextRegion hole) split := by
        intro right
        refine dryness ⟨rfl, cached ▸ dry, hole, space ▸ refilled.lowest, split, member, covers, beyond, ?_⟩
        rw [← next]
        exact right
      by_cases left : Joins split (poolRegion r.nextRegion hole)
      · rcases absorbed_carve soundR.owned tidyR dry run refilled memberR left covers.1 beyond with
          ⟨_, u, id, done, owned, aside, mem⟩ | ⟨_, failed⟩
        · exact keeps_local soundR done aside owned (absorbed_tidy soundR refilled memberR left covers.1 beyond range.aligned
            range.wholePages aside mem)
        · exact keeps_stop (.inl rfl) failed
      · have memberT := refilled_keeps refilled memberR apartR left
        have tidyT := (refilled_hosts (sound_hosts soundR) refilled).tidy
        have supply : Supply 1 t .global := refilled_supply 1 (by decide) .global refilled
        have unfolded : carveFirst .global split.id address length r = carveFirst .global split.id address length t := by
          rw [carve_first_eq tidyR soundR.owned memberR (Nat.le_of_lt beyond),
            carve_first_eq tidyT refilled.owned memberT (Nat.le_of_lt beyond), if_pos beyond, if_pos beyond,
            insert_clone_after_refill dry run refilled]
        rw [unfolded]
        rcases carve_first_spec tidyT refilled.owned (fun _ => supply) memberT covers.1 (Nat.le_of_lt beyond) with
          ⟨u, id, done, carved, owned, aside, _, _⟩ | ⟨_, _, failed⟩
        · refine keeps_local soundR done (local_trans (frame_local refilled.frame) aside.toLocal) owned ?_
          exact carved_tidy tidyT memberT covers.1 (Nat.le_of_lt beyond) carved (aside.start .global) (aside.limit .global) rfl
            range.aligned range.wholePages
        · exact keeps_stop (.inl rfl) failed
    · exact keeps_stop (.inr ⟨trivial, .inl rfl⟩) (by
        rw [carve_first_eq tidyR soundR.owned memberR (Nat.le_of_lt beyond), if_pos beyond, insertClone, cloneTo,
          region_alloc_empty dry, run]
        rfl)
    · exact keeps_stop (.inr ⟨trivial, .inr rfl⟩) (by
        rw [carve_first_eq tidyR soundR.owned memberR (Nat.le_of_lt beyond), if_pos beyond, insertClone, cloneTo,
          region_alloc_empty dry, run]
        rfl)
  · have backed : Backed True 1 r as := by
      by_cases isGlobal : as = .global
      · exact .inl (.inl (List.length_pos_iff.mpr fun dry => same ⟨isGlobal, dry⟩))
      · exact .inr ⟨isGlobal, sound_hosts soundR, trivial⟩
    rcases carve_backed tidyR soundR.owned backed memberR covers.1 (Nat.le_of_lt beyond) (fun _ => Nat.le_refl 1) with
      ⟨u, id, done, carved, owned, aside, _⟩ | ⟨fault, stops, failed⟩
    · refine keeps_local soundR done aside.toLocal owned ?_
      exact carved_tidy tidyR memberR covers.1 (Nat.le_of_lt beyond) carved (aside.start as) (aside.limit as) rfl range.aligned
        range.wholePages
    · exact keeps_stop stops failed

end Unmap

end Elysium.Vm
