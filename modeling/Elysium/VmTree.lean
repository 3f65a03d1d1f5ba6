import Elysium.Vm

set_option autoImplicit false

namespace Elysium.Vm

theorem admits_lt (v value : Nat) : SearchType.admits .nearestLt v value = true ↔ value < v := by
  simp [SearchType.admits]

theorem admits_lte (v value : Nat) : SearchType.admits .nearestLte v value = true ↔ value ≤ v := by
  simp [SearchType.admits]

theorem admits_gt (v value : Nat) : SearchType.admits .nearestGt v value = true ↔ v < value := by
  simp [SearchType.admits]

theorem admits_gte (v value : Nat) : SearchType.admits .nearestGte v value = true ↔ v ≤ value := by
  simp [SearchType.admits]

-- What a search knows after the regions in `seen`.
def Nearest (type : SearchType) (v : Nat) (seen : Region → Prop) : Option Region → Prop
  | none => ∀ m, seen m → ¬ type.admits v m.base
  | some r => seen r ∧ type.admits v r.base ∧ ∀ m, seen m → type.admits v m.base → ¬ type.nearer m.base r.base

theorem nearer_trans (type : SearchType) (a b c : Nat) (closer : type.nearer c b) (farther : ¬ type.nearer a b) :
    ¬ type.nearer a c := by
  cases type <;> simp only [SearchType.nearer, decide_eq_true_eq] at * <;> omega

theorem nearer_irrefl (type : SearchType) (a : Nat) : ¬ type.nearer a a := by
  cases type <;> simp [SearchType.nearer]

theorem visit_nearest (type : SearchType) (v : Nat) (seen : Region → Prop) (nearest : Option Region) (current : Region)
    (before : Nearest type v seen nearest) :
    Nearest type v (fun m => seen m ∨ m = current) (visit type v nearest current) := by
  unfold visit
  by_cases admitted : type.admits v current.base
  · rw [if_pos admitted]
    cases nearest with
    | none =>
        refine ⟨.inr rfl, admitted, ?_⟩
        rintro m (old | rfl) admittedM
        · exact absurd admittedM (before m old)
        · exact nearer_irrefl type _
    | some node =>
        dsimp only
        by_cases closer : type.nearer current.base node.base
        · rw [if_pos closer]
          refine ⟨.inr rfl, admitted, ?_⟩
          rintro m (old | rfl) admittedM
          · exact nearer_trans type _ _ _ closer (before.2.2 m old admittedM)
          · exact nearer_irrefl type _
        · rw [if_neg closer]
          refine ⟨.inl before.1, before.2.1, ?_⟩
          rintro m (old | rfl) admittedM
          · exact before.2.2 m old admittedM
          · exact closer
  · rw [if_neg admitted]
    cases nearest with
    | none =>
        rintro m (old | rfl)
        · exact before m old
        · exact admitted
    | some node =>
        refine ⟨.inl before.1, before.2.1, ?_⟩
        rintro m (old | rfl) admittedM
        · exact before.2.2 m old admittedM
        · exact absurd admittedM admitted

theorem search_nearest (type : SearchType) (v : Nat) (regions : List Region) (seen : Region → Prop)
    (nearest : Option Region) (before : Nearest type v seen nearest) :
    Nearest type v (fun m => seen m ∨ m ∈ regions) (regions.foldl (visit type v) nearest) := by
  induction regions generalizing seen nearest with
  | nil => simpa using before
  | cons head rest ih =>
      have visited := ih _ _ (visit_nearest type v seen nearest head before)
      simpa only [List.foldl_cons, List.mem_cons, or_assoc] using visited

theorem rb_search_nearest (regions : List Region) (v : Nat) (type : SearchType) :
    Nearest type v (· ∈ regions) (rbSearch regions v type) := by
  have searched := search_nearest type v regions (fun _ => False) none fun _ impossible => impossible.elim
  simpa only [rbSearch, false_or] using searched

section Search

variable {regions : List Region} {v : Nat}

theorem search_lt_some {r : Region} (found : rbSearch regions v .nearestLt = some r) :
    r ∈ regions ∧ r.base < v ∧ ∀ m ∈ regions, m.base < v → m.base ≤ r.base := by
  have nearest := rb_search_nearest regions v .nearestLt
  simpa [found, Nearest, SearchType.admits, SearchType.nearer] using nearest

theorem search_lt_none (missing : rbSearch regions v .nearestLt = none) : ∀ m ∈ regions, v ≤ m.base := by
  have nearest := rb_search_nearest regions v .nearestLt
  simpa [missing, Nearest, SearchType.admits] using nearest

theorem search_lte_some {r : Region} (found : rbSearch regions v .nearestLte = some r) :
    r ∈ regions ∧ r.base ≤ v ∧ ∀ m ∈ regions, m.base ≤ v → m.base ≤ r.base := by
  have nearest := rb_search_nearest regions v .nearestLte
  simpa [found, Nearest, SearchType.admits, SearchType.nearer] using nearest

theorem search_lte_none (missing : rbSearch regions v .nearestLte = none) : ∀ m ∈ regions, v < m.base := by
  have nearest := rb_search_nearest regions v .nearestLte
  simpa [missing, Nearest, SearchType.admits] using nearest

theorem search_gt_some {r : Region} (found : rbSearch regions v .nearestGt = some r) :
    r ∈ regions ∧ v < r.base ∧ ∀ m ∈ regions, v < m.base → r.base ≤ m.base := by
  have nearest := rb_search_nearest regions v .nearestGt
  simpa [found, Nearest, SearchType.admits, SearchType.nearer] using nearest

theorem search_gt_none (missing : rbSearch regions v .nearestGt = none) : ∀ m ∈ regions, m.base ≤ v := by
  have nearest := rb_search_nearest regions v .nearestGt
  simpa [missing, Nearest, SearchType.admits] using nearest

theorem search_gte_some {r : Region} (found : rbSearch regions v .nearestGte = some r) :
    r ∈ regions ∧ v ≤ r.base ∧ ∀ m ∈ regions, v ≤ m.base → r.base ≤ m.base := by
  have nearest := rb_search_nearest regions v .nearestGte
  simpa [found, Nearest, SearchType.admits, SearchType.nearer] using nearest

theorem search_gte_none (missing : rbSearch regions v .nearestGte = none) : ∀ m ∈ regions, m.base < v := by
  have nearest := rb_search_nearest regions v .nearestGte
  simpa [missing, Nearest, SearchType.admits] using nearest

end Search

@[simp] theorem rb_insert_mem (region m : Region) (regions : List Region) :
    m ∈ rbInsert region regions ↔ m = region ∨ m ∈ regions := by
  induction regions with
  | nil => simp [rbInsert]
  | cons head rest ih =>
      by_cases before : region.base < head.base
      · rw [rbInsert, if_pos before, List.mem_cons]
      · rw [rbInsert, if_neg before, List.mem_cons, ih, List.mem_cons]
        exact or_left_comm

theorem rb_insert_perm (region : Region) (regions : List Region) :
    (rbInsert region regions).Perm (region :: regions) := by
  induction regions with
  | nil => exact List.Perm.refl _
  | cons head rest ih =>
      by_cases before : region.base < head.base
      · rw [rbInsert, if_pos before]
      · rw [rbInsert, if_neg before]
        exact (ih.cons head).trans (List.Perm.swap region head rest)

@[simp] theorem rb_remove_mem (id : Nat) (m : Region) (regions : List Region) :
    m ∈ rbRemove id regions ↔ m ∈ regions ∧ m.id ≠ id := by
  simp [rbRemove, List.mem_filter]

theorem set_length_mem (id length : Nat) (m : Region) (regions : List Region) :
    m ∈ setLength id length regions ↔
      (m ∈ regions ∧ m.id ≠ id) ∨ ∃ r ∈ regions, r.id = id ∧ m = { r with length := length } := by
  simp only [setLength, List.mem_map]
  constructor
  · rintro ⟨r, member, rfl⟩
    by_cases same : r.id = id
    · rw [if_pos same]
      exact .inr ⟨r, member, same, rfl⟩
    · rw [if_neg same]
      exact .inl ⟨member, same⟩
  · rintro (⟨member, different⟩ | ⟨r, member, same, rfl⟩)
    · exact ⟨m, member, if_neg different⟩
    · exact ⟨r, member, if_pos same⟩

def Ordered (regions : List Region) : Prop := regions.Pairwise fun a b => a.base ≤ b.base

theorem rb_insert_ordered (region : Region) (regions : List Region) (ordered : Ordered regions) :
    Ordered (rbInsert region regions) := by
  induction regions with
  | nil => exact List.pairwise_singleton _ _
  | cons head rest ih =>
      obtain ⟨first, sorted⟩ := List.pairwise_cons.mp ordered
      by_cases before : region.base < head.base
      · rw [rbInsert, if_pos before]
        refine List.pairwise_cons.mpr ⟨fun m member => ?_, ordered⟩
        rcases List.mem_cons.mp member with rfl | later
        · exact Nat.le_of_lt before
        · exact Nat.le_trans (Nat.le_of_lt before) (first m later)
      · rw [rbInsert, if_neg before]
        refine List.pairwise_cons.mpr ⟨fun m member => ?_, ih sorted⟩
        rcases (rb_insert_mem region m rest).mp member with rfl | later
        · exact Nat.le_of_not_lt before
        · exact first m later

theorem rb_remove_ordered (id : Nat) (regions : List Region) (ordered : Ordered regions) :
    Ordered (rbRemove id regions) := ordered.sublist List.filter_sublist

theorem set_length_ordered (id length : Nat) (regions : List Region) (ordered : Ordered regions) :
    Ordered (setLength id length regions) := by
  refine List.pairwise_map.mpr (ordered.imp ?_)
  intro a b sorted
  by_cases sameA : a.id = id <;> by_cases sameB : b.id = id <;> simpa [sameA, sameB] using sorted

theorem set_length_ids (id length : Nat) (regions : List Region) :
    (setLength id length regions).map (·.id) = regions.map (·.id) := by
  rw [setLength, List.map_map]
  refine List.map_congr_left fun r _ => ?_
  by_cases same : r.id = id <;> simp [same]

-- Geometry of a space: its regions are non-empty runs of pages inside the bounds
-- and no two of them share an address.
def Region.limit (r : Region) : Nat := r.base + r.length

def Region.Covers (r : Region) (a : Nat) : Prop := r.base ≤ a ∧ a < r.limit

def Apart (a b : Region) : Prop := a.limit ≤ b.base ∨ b.limit ≤ a.base

structure Placed (space : AddressSpace) (r : Region) : Prop where
  nonempty : 0 < r.length
  baseAligned : r.base % pageGranularity = 0
  lengthAligned : r.length % pageGranularity = 0
  above : space.start ≤ r.base
  below : r.limit ≤ space.limit

structure Tidy (space : AddressSpace) : Prop where
  fits : space.limit < 2 ^ 64
  placed : ∀ r ∈ space.regions, Placed space r
  apart : ∀ a ∈ space.regions, ∀ b ∈ space.regions, a ≠ b → Apart a b

theorem limit_aligned {space : AddressSpace} {r : Region} (placed : Placed space r) : r.limit % pageGranularity = 0 := by
  rw [Region.limit, Nat.add_mod, placed.baseAligned, placed.lengthAligned]
  rfl

theorem apart_symm {a b : Region} (apart : Apart a b) : Apart b a := apart.symm

theorem apart_disjoint {a b : Region} (apart : Apart a b) {x : Nat} (inA : a.Covers x) : ¬ b.Covers x := by
  intro inB
  obtain ⟨lowA, highA⟩ := inA
  obtain ⟨lowB, highB⟩ := inB
  rcases apart with before | after <;> omega

theorem apart_of_disjoint {p m : Region} (nonemptyP : 0 < p.length) (nonemptyM : 0 < m.length)
    (disjoint : ∀ a, p.Covers a → ¬ m.Covers a) : Apart p m := by
  by_contra overlap
  have inside := disjoint (max p.base m.base)
  unfold Apart at overlap
  unfold Region.Covers Region.limit at *
  omega

section Geometry

variable {space : AddressSpace} (tidy : Tidy space)

include tidy

theorem region_end {r : Region} (member : r ∈ space.regions) : add64 r.base r.length = r.limit := by
  have below := (tidy.placed r member).below
  have fits := tidy.fits
  unfold Region.limit at *
  exact add64_eq (by omega)

theorem region_fits {r : Region} (member : r ∈ space.regions) : r.limit < 2 ^ 64 :=
  Nat.lt_of_le_of_lt (tidy.placed r member).below tidy.fits

theorem covering_unique {a b : Region} (memberA : a ∈ space.regions) (memberB : b ∈ space.regions) {x : Nat}
    (inA : a.Covers x) (inB : b.Covers x) : a = b := by
  by_contra different
  exact apart_disjoint (tidy.apart a memberA b memberB different) inA inB

theorem region_covers_base {r : Region} (member : r ∈ space.regions) : r.Covers r.base := by
  have nonempty := (tidy.placed r member).nonempty
  unfold Region.Covers Region.limit
  omega

theorem base_unique {a b : Region} (memberA : a ∈ space.regions) (memberB : b ∈ space.regions)
    (same : a.base = b.base) : a = b := by
  have inA := region_covers_base tidy memberA
  exact covering_unique tidy memberA memberB inA (same ▸ region_covers_base tidy memberB)

-- Regions in order of their bases follow one another without overlap.
theorem base_lt_limit_le {a b : Region} (memberA : a ∈ space.regions) (memberB : b ∈ space.regions)
    (before : a.base < b.base) : a.limit ≤ b.base := by
  have different : a ≠ b := fun same => by
    subst same
    exact Nat.lt_irrefl _ before
  have nonempty := (tidy.placed a memberA).nonempty
  have nonemptyB := (tidy.placed b memberB).nonempty
  rcases tidy.apart a memberA b memberB different with first | second
  · exact first
  · unfold Region.limit at *
    omega

end Geometry

theorem segment_in_bounds_iff (base length start limit : Nat) (fits : limit < 2 ^ 64) :
    SegmentInBounds base length start limit ↔ start ≤ base ∧ base < limit ∧ base + length ≤ limit := by
  unfold SegmentInBounds AddressInBounds
  constructor
  · rintro ⟨⟨above, below⟩, room⟩
    rw [sub64_eq (Nat.le_of_lt below) fits] at room
    omega
  · rintro ⟨above, below, room⟩
    rw [sub64_eq (Nat.le_of_lt below) fits]
    omega

end Elysium.Vm
