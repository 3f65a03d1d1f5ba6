import Elysium.VmUnmap

set_option autoImplicit false

namespace Elysium.Vm

-- What a rewrite of the protection or the cache behaviour does to the attributes.
def setting (type : RewriteType) (prot : Protection) (cache : Cache) (v : Attributes) : Attributes :=
  match type with
  | .delete => v
  | .protection => { v with protection := prot }
  | .cache => { v with cacheBehavior := cache }

section Setting

variable {type : RewriteType} {prot : Protection} {cache : Cache}

theorem setting_shift (v : Attributes) (n : Nat) :
    setting type prot cache (v.shift n) = (setting type prot cache v).shift n := by
  cases type <;> rfl

theorem setting_idem (v : Attributes) : setting type prot cache (setting type prot cache v) = setting type prot cache v := by
  cases type <;> rfl

theorem set_attribute_eq (r : Region) : setAttribute type prot cache r =
    { r with toAttributes := setting type prot cache r.toAttributes } := by
  cases type <;> rfl

@[simp] theorem set_attribute_attributes (r : Region) :
    (setAttribute type prot cache r).toAttributes = setting type prot cache r.toAttributes := by
  rw [set_attribute_eq]

@[simp] theorem set_attribute_base (r : Region) : (setAttribute type prot cache r).base = r.base := by
  rw [set_attribute_eq]

@[simp] theorem set_attribute_length (r : Region) : (setAttribute type prot cache r).length = r.length := by
  rw [set_attribute_eq]

@[simp] theorem set_attribute_limit (r : Region) : (setAttribute type prot cache r).limit = r.limit := by
  rw [set_attribute_eq, Region.limit, Region.limit]

@[simp] theorem set_attribute_id (r : Region) : (setAttribute type prot cache r).id = r.id := by
  rw [set_attribute_eq]

theorem set_attribute_at (r : Region) (a : Nat) :
    (setAttribute type prot cache r).at a = setting type prot cache (r.at a) := by
  rw [Region.at, Region.at, set_attribute_attributes, set_attribute_base, setting_shift]

theorem already_set_iff (rewrites : type ≠ .delete) (r : Region) :
    alreadySet type prot cache r = true ↔ setting type prot cache r.toAttributes = r.toAttributes := by
  obtain ⟨⟨backing, protection, cacheBehavior, dynamic⟩, id, space, base, length⟩ := r
  cases type with
  | delete => exact absurd rfl rewrites
  | protection => simp [alreadySet, setting, eq_comm]
  | cache => simp [alreadySet, setting, eq_comm]

theorem shift_injective {v w : Attributes} {n : Nat} (same : v.shift n = w.shift n) : v = w := by
  obtain ⟨backing, protection, cacheBehavior, dynamic⟩ := v
  obtain ⟨backing', protection', cacheBehavior', dynamic'⟩ := w
  cases backing <;> cases backing' <;> simp_all [Attributes.shift, Backing.shift]

theorem already_set_at (rewrites : type ≠ .delete) (r : Region) (a : Nat) :
    alreadySet type prot cache r = true ↔ setting type prot cache (r.at a) = r.at a := by
  rw [already_set_iff rewrites, Region.at, setting_shift]
  exact ⟨fun same => by rw [same], shift_injective⟩

-- A region that continues a rewritten one carries the new setting already.
theorem already_set_joined (rewrites : type ≠ .delete) {left right : Region}
    (joins : Joins (setAttribute type prot cache left) right) : alreadySet type prot cache right = true := by
  rw [already_set_iff rewrites, joins.2.1, set_attribute_attributes, setting_shift, setting_idem]

theorem already_set_whole (rewrites : type ≠ .delete) {space : AddressSpace} {result : List Region}
    {piece whole : Region} (joined : Joined space.regions (setAttribute type prot cache piece) whole result) : alreadySet type prot cache whole = true := by
  have same := joined_same_settings joined
  rw [set_attribute_eq] at same
  cases type with
  | delete => exact absurd rfl rewrites
  | protection => simpa [alreadySet, setting] using same.1
  | cache => simpa [alreadySet, setting] using same.2

end Setting

-- A cut that ends where its region ends joins what the whole region would join.
theorem joins_cut {space : AddressSpace} {type : RewriteType} {prot : Protection} {cache : Cache} {split : Region}
    {b n id : Nat} (placed : Placed space split) (low : split.base ≤ b) (positive : 0 < n) (ends : b + n = split.limit)
    (m : Region) : Joins (setAttribute type prot cache (cloneOf id b n split)) m ↔ Joins (setAttribute type prot cache split) m := by
  have limit : (cloneOf id b n split).limit = split.limit := ends
  rw [joins_iff (by rw [set_attribute_length]; exact positive), joins_iff (by rw [set_attribute_length]; exact placed.nonempty),
    set_attribute_limit, set_attribute_limit, limit]
  refine and_congr_right fun adjacent => ?_
  rw [set_attribute_at, set_attribute_at, clone_at id b n split low (by omega)]

-- The addresses inside get the new setting, the others keep their attributes, and
-- the same addresses are covered.
def Rewrites (set : Attributes → Attributes) (inside : Nat → Prop) (regions result : List Region) : Prop :=
  ∀ a v, Maps result a v ↔ ∃ w, Maps regions a w ∧ ((inside a ∧ v = set w) ∨ (¬ inside a ∧ v = w))

theorem rewrites_refl {set : Attributes → Attributes} {inside : Nat → Prop} {regions : List Region}
    (settled : ∀ a v, Maps regions a v → inside a → set v = v) : Rewrites set inside regions regions := by
  intro a v
  constructor
  · intro maps
    by_cases within : inside a
    · exact ⟨v, maps, .inl ⟨within, (settled a v maps within).symm⟩⟩
    · exact ⟨v, maps, .inr ⟨within, rfl⟩⟩
  · rintro ⟨w, maps, ⟨within, rfl⟩ | ⟨_, rfl⟩⟩
    · rw [settled a w maps within]
      exact maps
    · exact maps

theorem rewrites_congr {set : Attributes → Attributes} {inside : Nat → Prop} {regions middle result : List Region}
    (same : ∀ a v, Maps result a v ↔ Maps middle a v) (rewrites : Rewrites set inside regions middle) :
    Rewrites set inside regions result := fun a v => (same a v).trans (rewrites a v)

-- Two rewrites in a row. What already has the setting may count as inside or not.
theorem rewrites_trans {set : Attributes → Attributes} {first second whole : Nat → Prop} {regions middle result : List Region}
    (idem : ∀ v, set (set v) = set v) (one : Rewrites set first regions middle) (two : Rewrites set second middle result)
    (union : ∀ a v, Maps regions a v → set v ≠ v → (whole a ↔ first a ∨ second a)) : Rewrites set whole regions result := by
  intro a v
  rw [two a v]
  constructor
  · rintro ⟨w, maps, last⟩
    obtain ⟨u, mapsU, middle⟩ := (one a w).mp maps
    refine ⟨u, mapsU, ?_⟩
    by_cases settled : set u = u
    · have same : w = u := by
        rcases middle with ⟨_, same⟩ | ⟨_, same⟩
        · exact same.trans settled
        · exact same
      rw [same, settled] at last
      rw [settled, ← or_and_right]
      exact ⟨Classical.em _, last.elim (·.2) (·.2)⟩
    · rw [union a u mapsU settled]
      rcases middle with ⟨inFirst, rfl⟩ | ⟨notFirst, rfl⟩
      · refine .inl ⟨.inl inFirst, ?_⟩
        rcases last with ⟨_, same⟩ | ⟨_, same⟩
        · rw [same, idem]
        · exact same
      · rcases last with ⟨inSecond, same⟩ | ⟨notSecond, same⟩
        · exact .inl ⟨.inr inSecond, same⟩
        · exact .inr ⟨not_or.mpr ⟨notFirst, notSecond⟩, same⟩
  · rintro ⟨u, mapsU, outcome⟩
    by_cases settled : set u = u
    · have same : v = u := by
        rcases outcome with ⟨_, same⟩ | ⟨_, same⟩
        · exact same.trans settled
        · exact same
      subst same
      refine ⟨v, (one a v).mpr ⟨v, mapsU, ?_⟩, ?_⟩
      · rw [settled, ← or_and_right]
        exact ⟨Classical.em _, rfl⟩
      · rw [settled, ← or_and_right]
        exact ⟨Classical.em _, rfl⟩
    · rw [union a u mapsU settled] at outcome
      by_cases inFirst : first a
      · refine ⟨set u, (one a _).mpr ⟨u, mapsU, .inl ⟨inFirst, rfl⟩⟩, ?_⟩
        have same : v = set u := by
          rcases outcome with ⟨_, same⟩ | ⟨neither, _⟩
          · exact same
          · exact absurd (.inl inFirst) neither
        rw [idem, ← or_and_right]
        exact ⟨Classical.em _, same⟩
      · refine ⟨u, (one a _).mpr ⟨u, mapsU, .inr ⟨inFirst, rfl⟩⟩, ?_⟩
        rw [or_iff_right inFirst] at outcome
        exact outcome

end Elysium.Vm
