import Elysium.Runs
import Elysium.VmFirstFit
import Elysium.VmRuns

set_option autoImplicit false

namespace Elysium.Vm

theorem room_iff {r : Region} (nonempty : 0 < r.length) : PhysicalRoom r ↔ (r.at r.limit).InMemory := by
  have reach : r.at r.limit = r.toAttributes.shift r.length := by
    rw [Region.at, Region.limit, Nat.add_sub_cancel_left]
  rw [reach]
  unfold PhysicalRoom Attributes.InMemory Attributes.shift Backing.shift
  cases r.backing with
  | anon backZeroed => exact Iff.rfl
  | direct physicalAddress =>
      dsimp only
      omega

theorem room_in_memory {r : Region} (room : PhysicalRoom r) : r.toAttributes.InMemory := by
  unfold PhysicalRoom at room
  unfold Attributes.InMemory
  cases backing : r.backing with
  | anon backZeroed => trivial
  | direct physicalAddress =>
      rw [backing] at room
      exact Nat.le_of_lt room.1

theorem at_shift (r : Region) {a : Nat} (above : r.base ≤ a) (n : Nat) : (r.at a).shift n = r.at (a + n) := by
  rw [Region.at, Region.at, shift_shift]
  congr 1
  omega

-- Two regions that agree at one address agree from there on.
theorem at_onward {r q : Region} {x : Nat} (lowR : r.base ≤ x) (lowQ : q.base ≤ x) (same : r.at x = q.at x) {a : Nat}
    (above : x ≤ a) : r.at a = q.at a := by
  have moved := at_shift r lowR (a - x)
  rw [same, at_shift q lowQ, Nat.add_sub_cancel' above] at moved
  exact moved.symm

theorem at_base (r : Region) : r.at r.base = r.toAttributes := by
  rw [Region.at, Nat.sub_self, shift_zero]

-- No region of the tree continues another one.
structure Coalesced (regions : List Region) : Prop where
  apart : ∀ l ∈ regions, ∀ r ∈ regions, ¬ Joins l r
  room : ∀ r ∈ regions, PhysicalRoom r

section Joined

variable {space : AddressSpace} {region whole : Region} {result : List Region} (tidy : Tidy space)
  (coalesced : Coalesced space.regions) (nonempty : 0 < region.length)
  (joined : Joined space.regions region whole result)

include nonempty joined

theorem whole_nonempty : 0 < whole.length := by
  have low := joined_low joined
  have high := joined_high joined
  have size : region.limit = region.base + region.length := rfl
  have sizeW : whole.limit = whole.base + whole.length := rfl
  omega

include tidy

-- The whole ends as the inserted region does, or as the one it took in.
theorem whole_ends : ∃ last, (last = region ∨ last ∈ space.regions) ∧ 0 < last.length ∧ whole.limit = last.limit ∧
    whole.at whole.limit = last.at last.limit := by
  have size : region.limit = region.base + region.length := rfl
  rcases joined.right with ⟨_, same⟩ | ⟨r, member, joins, same⟩
  · refine ⟨region, .inl rfl, nonempty, same, ?_⟩
    rw [same, joined_at joined (by omega)]
  · have positive := (tidy.placed r member).nonempty
    have sizeR : r.limit = r.base + r.length := rfl
    have adjacent := joins.1
    refine ⟨r, .inr member, positive, same, ?_⟩
    rw [same, joined_at joined (by omega), joins_at joins r.limit (by omega)]

-- Only regions that continued one another before do so after.
theorem joins_joined {P : Nat → Prop} (unjoined : ∀ l ∈ space.regions, ∀ r ∈ space.regions, Joins l r → ¬ P r.base) :
    ∀ l ∈ result, ∀ r ∈ result, Joins l r → ¬ P r.base := by
  have positive := whole_nonempty nonempty joined
  obtain ⟨last, origin, lastNonempty, ends, endsAt⟩ := whole_ends tidy nonempty joined
  have sizeW : whole.limit = whole.base + whole.length := rfl
  have before : ∀ m ∈ space.regions, ¬ Joins m region → Joins m whole → ¬ P whole.base := by
    intro m old notLeft joins
    rcases joined.left with ⟨_, base, attributes⟩ | ⟨l, memberL, _, base, attributes⟩
    · exact absurd ((joins_congr_right base attributes).mp joins) notLeft
    · rw [base]
      exact unjoined m old l memberL ((joins_congr_right base attributes).mp joins)
  have behind : ∀ m ∈ space.regions, ¬ Joins region m → Joins whole m → ¬ P m.base := by
    intro m old notRight joins
    have same : Joins last m := by
      rw [joins_iff positive] at joins
      rw [joins_iff lastNonempty]
      refine ⟨ends ▸ joins.1, ?_, joins.2.2⟩
      rw [joins.2.1, ← joins.1, endsAt, ends]
    rcases origin with rfl | inTree
    · exact absurd same notRight
    · exact unjoined last inTree m old same
  intro l inL r inR joins
  rcases (joined.mem l).mp inL with ⟨oldL, _, notLeftL⟩ | rfl
  · rcases (joined.mem r).mp inR with ⟨oldR, _, _⟩ | rfl
    · exact unjoined l oldL r oldR joins
    · exact before l oldL notLeftL joins
  · rcases (joined.mem r).mp inR with ⟨oldR, notRightR, _⟩ | rfl
    · exact behind r oldR notRightR joins
    · have adjacent := joins.1
      omega

include coalesced

theorem coalesced_joined (room : PhysicalRoom region) : Coalesced result := by
  have positive := whole_nonempty nonempty joined
  obtain ⟨last, origin, lastNonempty, ends, endsAt⟩ := whole_ends tidy nonempty joined
  refine ⟨fun l inL r inR joins => ?_, fun r inR => ?_⟩
  · have apart := joins_joined (P := fun _ => True) tidy nonempty joined fun l oldL r oldR joins =>
      absurd joins (coalesced.apart l oldL r oldR)
    exact apart l inL r inR joins trivial
  · rcases (joined.mem r).mp inR with ⟨old, _, _⟩ | rfl
    · exact coalesced.room r old
    · rw [room_iff positive, endsAt, ← room_iff lastNonempty]
      rcases origin with rfl | inTree
      · exact room
      · exact coalesced.room last inTree

end Joined

section Carved

variable {space : AddressSpace} {split : Region} {b n id : Nat} {result : List Region} (tidy : Tidy space)
  (coalesced : Coalesced space.regions) (member : split ∈ space.regions) (low : split.base ≤ b) (high : b + n ≤ split.limit)
  (positive : 0 < n) (carved : Carved space.regions split b n id result)

include tidy coalesced member low high positive carved

theorem coalesced_carved : Coalesced result := by
  have size : split.limit = split.base + split.length := rfl
  have frontLimit : Region.limit { split with length := b - split.base } = b := by
    show split.base + (b - split.base) = b
    omega
  have tailLimit : b + n < split.limit → (cloneOf id (b + n) (split.limit - (b + n)) split).limit = split.limit := by
    intro tail
    show b + n + (split.limit - (b + n)) = split.limit
    omega
  have tailNonempty : b + n < split.limit → 0 < (cloneOf id (b + n) (split.limit - (b + n)) split).length := by
    intro tail
    show 0 < split.limit - (b + n)
    omega
  have tailAt : ∀ a, b + n ≤ a → (cloneOf id (b + n) (split.limit - (b + n)) split).at a = split.at a := fun a above =>
    clone_at id (b + n) _ split (by omega) above
  have outside : ∀ m ∈ space.regions, m ≠ split → m.base < m.limit ∧ (m.limit ≤ split.base ∨ split.limit ≤ m.base) :=
    fun m old different => ⟨Nat.lt_add_of_pos_right (tidy.placed m old).nonempty, tidy.apart m old split member different⟩
  refine ⟨fun l inL r inR joins => ?_, fun r inR => ?_⟩
  · have adjacent := joins.1
    rcases (carved.mem l).mp inL with ⟨oldL, notL⟩ | ⟨frontL, rfl⟩ | ⟨tailL, rfl⟩
    · have besideL := outside l oldL notL
      rcases (carved.mem r).mp inR with ⟨oldR, _⟩ | ⟨_, rfl⟩ | ⟨tailR, rfl⟩
      · exact coalesced.apart l oldL r oldR joins
      · exact coalesced.apart l oldL split member ((joins_congr_right rfl rfl).mp joins)
      · have base : l.limit = b + n := adjacent
        omega
    · rw [frontLimit] at adjacent
      rcases (carved.mem r).mp inR with ⟨oldR, notR⟩ | ⟨_, rfl⟩ | ⟨_, rfl⟩
      · have besideR := outside r oldR notR
        omega
      · have base : b = split.base := adjacent
        omega
      · have base : b = b + n := adjacent
        omega
    · rw [tailLimit tailL] at adjacent
      rcases (carved.mem r).mp inR with ⟨oldR, notR⟩ | ⟨_, rfl⟩ | ⟨_, rfl⟩
      · refine coalesced.apart split member r oldR ?_
        rw [joins_iff (tailNonempty tailL)] at joins
        rw [joins_iff (tidy.placed split member).nonempty, ← tailAt r.base (by omega)]
        exact ⟨adjacent, joins.2⟩
      · have base : split.limit = split.base := adjacent
        omega
      · have base : split.limit = b + n := adjacent
        omega
  · rcases (carved.mem r).mp inR with ⟨old, _⟩ | ⟨front, rfl⟩ | ⟨tail, rfl⟩
    · exact coalesced.room r old
    · have room := coalesced.room split member
      unfold PhysicalRoom at *
      cases backing : split.backing with
      | anon backZeroed => trivial
      | direct physicalAddress =>
          simp only [backing] at room ⊢
          omega
    · have room := (room_iff (tidy.placed split member).nonempty).mp (coalesced.room split member)
      rw [room_iff (tailNonempty tail), tailLimit tail, tailAt _ (by omega)]
      exact room

end Carved

-- The same in pages: a region is a run of pages, and the next page goes on where
-- this one ends.
def nextPage (v : Attributes) : Attributes := v.shift pageGranularity

def Region.run (r : Region) : Runs.Run Attributes := ⟨r.base / pageGranularity, r.length / pageGranularity, r.toAttributes⟩

theorem next_page_iterate (v : Attributes) (i : Nat) : nextPage^[i] v = v.shift (i * pageGranularity) := by
  induction i with
  | zero => rw [Function.iterate_zero_apply, Nat.zero_mul, shift_zero]
  | succ i ih => rw [Function.iterate_succ_apply', ih, nextPage, shift_shift, Nat.succ_mul]

-- pages is the page map of the tree, by page number.
def Represents (regions : List Region) (pages : Nat → Option Attributes) : Prop :=
  ∀ p v, pages p = some v ↔ Maps regions (p * pageGranularity) v

theorem page_cancel {a : Nat} (aligned : a % pageGranularity = 0) : a / pageGranularity * pageGranularity = a :=
  Nat.div_mul_cancel (Nat.dvd_of_mod_eq_zero aligned)

section Pages

variable {space : AddressSpace} {pages : Nat → Option Attributes} (tidy : Tidy space)
  (represents : Represents space.regions pages)

include tidy

theorem run_contains {r : Region} (member : r ∈ space.regions) (p : Nat) :
    r.run.Contains p ↔ r.Covers (p * pageGranularity) := by
  have placed := tidy.placed r member
  have base := page_cancel placed.baseAligned
  have length := page_cancel placed.lengthAligned
  have granularity : pageGranularity = 4096 := rfl
  unfold Runs.Run.Contains Region.run Region.Covers Region.limit
  dsimp only
  rw [granularity] at base length ⊢
  omega

theorem run_at {r : Region} (member : r ∈ space.regions) (p : Nat) :
    r.run.at nextPage p = r.at (p * pageGranularity) := by
  have base := page_cancel (tidy.placed r member).baseAligned
  rw [Runs.Run.at, next_page_iterate, Region.at]
  show r.toAttributes.shift ((p - r.base / pageGranularity) * pageGranularity) = _
  rw [Nat.sub_mul, base]

include represents

theorem region_maximal (coalesced : Coalesced space.regions) {r : Region} (member : r ∈ space.regions) :
    Runs.Maximal nextPage pages r.run := by
  have placed := tidy.placed r member
  have base := page_cancel placed.baseAligned
  have length := page_cancel placed.lengthAligned
  have limitAligned := limit_aligned placed
  have granularity : pageGranularity = 4096 := rfl
  have size : r.limit = r.base + r.length := rfl
  have nonempty := placed.nonempty
  have stop : (r.run.first + r.run.count) * pageGranularity = r.limit := by
    show (r.base / pageGranularity + r.length / pageGranularity) * pageGranularity = r.limit
    rw [Nat.add_mul, base, length, size]
  refine ⟨?_, fun p inside => ?_, fun p w adjacent value continues => ?_, fun value => ?_⟩
  · show 0 < r.length / pageGranularity
    exact Nat.div_pos (page_multiple nonempty placed.lengthAligned) (by decide)
  · have covers := (run_contains tidy member p).mp inside
    rw [represents, run_at tidy member]
    exact ⟨r, member, covers, rfl⟩
  · -- The page before belongs to a region that ends here.
    obtain ⟨l, inTree, covers, rfl⟩ := (represents p w).mp value
    have start : p * pageGranularity + pageGranularity = r.base := by
      rw [← Nat.succ_mul, Nat.succ_eq_add_one, adjacent]
      exact base
    have low := covers.1
    have high := covers.2
    have different : l ≠ r := fun same => by
      rw [same] at low
      omega
    have apart := tidy.apart l inTree r member different
    have limitL := limit_aligned (tidy.placed l inTree)
    have ends : l.limit = r.base := by
      have baseAligned := placed.baseAligned
      unfold Apart at apart
      rw [granularity] at limitL baseAligned start low high
      omega
    refine coalesced.apart l inTree r member ((joins_iff (tidy.placed l inTree).nonempty).mpr ⟨ends, ?_, ?_⟩)
    · rw [← start, ← at_shift l low]
      exact continues.symm
    · exact room_in_memory (coalesced.room r member)
  · -- The page behind belongs to a region that starts here.
    rw [represents, run_at tidy member, stop] at value
    obtain ⟨m, inTree, covers, same⟩ := value
    have low := covers.1
    have high := covers.2
    have different : m ≠ r := fun equal => by
      rw [equal] at high
      omega
    have apart := tidy.apart m inTree r member different
    have starts : m.base = r.limit := by
      unfold Apart at apart
      omega
    refine coalesced.apart r member m inTree ((joins_iff nonempty).mpr ⟨starts.symm, ?_, ?_⟩)
    · rw [starts, same, ← starts, at_base]
    · exact room_in_memory (coalesced.room m inTree)

theorem runs_complete (coalesced : Coalesced space.regions) (run : Runs.Run Attributes) :
    run ∈ space.regions.map Region.run ↔ Runs.Maximal nextPage pages run := by
  refine Runs.covering_complete ?_ ?_ run
  · intro q listed
    obtain ⟨r, member, rfl⟩ := List.mem_map.mp listed
    exact region_maximal tidy represents coalesced member
  · intro p w value
    obtain ⟨r, member, covers, _⟩ := (represents p w).mp value
    exact ⟨r.run, List.mem_map_of_mem member, (run_contains tidy member p).mpr covers⟩

end Pages

end Elysium.Vm
