import Elysium.Slab

set_option autoImplicit false

namespace Elysium.Slab

open Chain

section Layout

variable {cfg : Config} {slab i : Nat}

theorem bytes_pos (cfg : Config) : 0 < cfg.bytes := Nat.mul_pos (Nat.two_pow_pos _) (by decide)

theorem object_size_pos (inside : i < cfg.objects) : 0 < cfg.objectSize := by
  by_contra zero
  rw [Nat.not_lt, Nat.le_zero] at zero
  rw [Config.objects, zero, Nat.div_zero] at inside
  exact absurd inside (Nat.not_lt_zero i)

-- An object ends inside its slab's block.
theorem object_ends (inside : i < cfg.objects) : cfg.object slab i + cfg.objectSize ≤ slab + cfg.bytes := by
  have fits : (i + 1) * cfg.objectSize ≤ cfg.bytes - slabHeader :=
    Nat.le_trans (Nat.mul_le_mul_right _ inside) (Nat.div_mul_le_self _ _)
  have positive := object_size_pos inside
  have split : (i + 1) * cfg.objectSize = i * cfg.objectSize + cfg.objectSize := by rw [Nat.add_mul, Nat.one_mul]
  rw [Config.object]
  omega

theorem slab_of_object (aligned : slab % cfg.bytes = 0) (inside : i < cfg.objects) : cfg.slabOf (cfg.object slab i) = slab := by
  have ends : cfg.object slab i + cfg.objectSize ≤ slab + cfg.bytes := object_ends inside
  have positive := object_size_pos inside
  obtain ⟨k, rfl⟩ := Nat.dvd_of_mod_eq_zero aligned
  have offset : cfg.object (cfg.bytes * k) i = cfg.bytes * k + (slabHeader + i * cfg.objectSize) := by
    rw [Config.object, Nat.add_assoc]
  rw [offset] at ends
  rw [Config.slabOf, offset, Nat.mul_add_mod, Nat.mod_eq_of_lt (by omega), Nat.add_sub_cancel]

theorem object_inj {j : Nat} (inside : i < cfg.objects) (same : cfg.object slab i = cfg.object slab j) : i = j :=
  Nat.eq_of_mul_eq_mul_right (object_size_pos inside) (Nat.add_left_cancel same)

-- The freelist of a new slab.
def carved (cfg : Config) (slab : Nat) : Nat → List Nat
  | 0 => []
  | i + 1 => cfg.object slab i :: carved cfg slab i

theorem mem_carved {k obj : Nat} : obj ∈ carved cfg slab k ↔ ∃ i < k, obj = cfg.object slab i := by
  induction k with
  | zero => exact ⟨nofun, fun ⟨_, lt, _⟩ => absurd lt (Nat.not_lt_zero _)⟩
  | succ k ih =>
      rw [carved, List.mem_cons, ih]
      constructor
      · rintro (rfl | ⟨i, lt, rfl⟩)
        · exact ⟨k, Nat.lt_succ_self k, rfl⟩
        · exact ⟨i, Nat.lt_succ_of_lt lt, rfl⟩
      · rintro ⟨i, lt, rfl⟩
        cases Nat.eq_or_lt_of_le (Nat.le_of_lt_succ lt) with
        | inl same => exact .inl (same ▸ rfl)
        | inr lt => exact .inr ⟨i, lt, rfl⟩

theorem length_carved (k : Nat) : (carved cfg slab k).length = k := by
  induction k with
  | zero => rfl
  | succ k ih => rw [carved, List.length_cons, ih]

theorem not_mem_carved {k : Nat} (inside : k < cfg.objects) : cfg.object slab k ∉ carved cfg slab k := by
  intro member
  obtain ⟨i, lt, same⟩ := mem_carved.mp member
  have := object_inj inside same
  omega

end Layout

section Freelists

variable {n : Nat} {T : Type} {cfg : Config} {s : State n T} {slabs : List Nat} {frees : Nat → List Nat}

-- The freelists of some slabs, and their lengths.
def Listed (s : State n T) (slabs : List Nat) (frees : Nat → List Nat) : Prop :=
  ∀ slab ∈ slabs, Linked s.link (s.slab slab).freelist (frees slab) ∧ (frees slab).Nodup ∧
    (frees slab).length = (s.slab slab).freeCount

theorem thread_slab (slab obj : Nat) : (s.thread slab obj).slab slab = ⟨some obj, (s.slab slab).freeCount + 1⟩ :=
  Function.update_self _ _ _

theorem thread_other {slab other : Nat} (obj : Nat) (ne : other ≠ slab) : (s.thread slab obj).slab other = s.slab other :=
  Function.update_of_ne ne _ _

theorem thread_listed {slab obj : Nat} (listed : Listed s slabs frees) (member : slab ∈ slabs)
    (absent : ∀ other ∈ slabs, obj ∉ frees other) :
    Listed (s.thread slab obj) slabs (Function.update frees slab (obj :: frees slab)) := by
  intro other isSlab
  obtain ⟨linked, once, counted⟩ := listed other isSlab
  by_cases same : other = slab
  · subst same
    have fresh := absent other isSlab
    rw [thread_slab, Function.update_self]
    exact ⟨chain_push linked fresh, List.nodup_cons.mpr ⟨fresh, once⟩, by rw [List.length_cons, counted]⟩
  · rw [thread_other obj same, Function.update_of_ne same]
    exact ⟨chain_write _ linked (absent other isSlab), once, counted⟩

-- A write to an object that no freelist has.
theorem write_listed {obj : Nat} (word : Option Nat) (listed : Listed s slabs frees) (absent : ∀ other ∈ slabs, obj ∉ frees other) :
    Listed { s with link := Function.update s.link obj word } slabs frees := fun other isSlab =>
  ⟨chain_write word (listed other isSlab).1 (absent other isSlab), (listed other isSlab).2⟩

theorem carve_listed {block k : Nat} (within : k ≤ cfg.objects) (listed : Listed s slabs frees) (member : block ∈ slabs)
    (clear : frees block = []) (absent : ∀ other ∈ slabs, ∀ i < cfg.objects, cfg.object block i ∉ frees other) :
    Listed (carve cfg block k s) slabs (Function.update frees block (carved cfg block k)) := by
  induction k with
  | zero =>
      rw [carved, ← clear, Function.update_eq_self]
      exact listed
  | succ k ih =>
      have before := ih (Nat.le_of_succ_le within)
      have free : ∀ other ∈ slabs, cfg.object block k ∉ Function.update frees block (carved cfg block k) other := by
        intro other isSlab
        by_cases same : other = block
        · rw [same, Function.update_self]
          exact not_mem_carved within
        · rw [Function.update_of_ne same]
          exact absent other isSlab k within
      have next := thread_listed before member free
      rw [Function.update_self, Function.update_idem] at next
      exact next

end Freelists

section Places

variable {n : Nat} {T : Type} {cfg : Config} {s s' : State n T} {frees frees' : Nat → List Nat} {spot : Nat → Place T}

-- The places of an object, with the freelists written out.
def Found (s : State n T) (frees : Nat → List Nat) (obj : Nat) : Place T → Prop
  | .free slab => slab ∈ s.slabs ∧ obj ∈ frees slab
  | .client => s.held obj = true
  | .freeing t => (s.pc t).inHand = some obj
  | .round m i => m < s.made ∧ i < (s.magazine m).roundCount ∧ (s.magazine m).rounds i = some obj

theorem at_iff_found (listed : Listed s s.slabs frees) (obj : Nat) (p : Place T) : At s obj p ↔ Found s frees obj p := by
  cases p with
  | client => exact Iff.rfl
  | freeing t => exact Iff.rfl
  | round m i => exact Iff.rfl
  | free slab =>
      constructor
      · rintro ⟨member, list, linked, inside⟩
        rw [chain_unique linked (listed slab member).1] at inside
        exact ⟨member, inside⟩
      · rintro ⟨member, inside⟩
        exact ⟨member, frees slab, (listed slab member).1, inside⟩

def Placed (cfg : Config) (s : State n T) (spot : Nat → Place T) (frees : Nat → List Nat) : Prop :=
  ∀ obj p, Found s frees obj p ↔ Object cfg s obj ∧ spot obj = p

-- An object moves in two halves: it leaves the place it was at, then it comes to
-- another.
def Gone (s : State n T) (frees : Nat → List Nat) (s' : State n T) (frees' : Nat → List Nat) (obj : Nat) : Prop :=
  ∀ o p, Found s' frees' o p ↔ Found s frees o p ∧ o ≠ obj

def Came (s : State n T) (frees : Nat → List Nat) (s' : State n T) (frees' : Nat → List Nat) (obj : Nat) (place : Place T) : Prop :=
  ∀ o p, Found s' frees' o p ↔ Found s frees o p ∨ (o = obj ∧ p = place)

theorem gone_of {obj : Nat} {place : Place T} (placed : Placed cfg s spot frees) (here : Found s frees obj place)
    (left : ∀ o, Found s' frees' o place ↔ Found s frees o place ∧ o ≠ obj)
    (away : ∀ o p, p ≠ place → (Found s' frees' o p ↔ Found s frees o p)) : Gone s frees s' frees' obj := by
  intro o p
  by_cases same : p = place
  · rw [same]
    exact left o
  · rw [away o p same]
    refine ⟨fun found => ⟨found, fun isObj => ?_⟩, And.left⟩
    subst isObj
    exact same (((placed o p).mp found).2.symm.trans ((placed o place).mp here).2)

theorem came_of {obj : Nat} {place : Place T} (arrived : ∀ o, Found s' frees' o place ↔ o = obj ∨ Found s frees o place)
    (away : ∀ o p, p ≠ place → (Found s' frees' o p ↔ Found s frees o p)) : Came s frees s' frees' obj place := by
  intro o p
  by_cases same : p = place
  · subst same
    rw [arrived o, and_iff_left rfl]
    exact Or.comm
  · rw [away o p same]
    exact ⟨.inl, fun found => found.resolve_right fun there => same there.2⟩

theorem moved {s₁ : State n T} {frees₁ : Nat → List Nat} {obj : Nat} {place target : Place T} (placed : Placed cfg s spot frees)
    (here : Found s frees obj place) (gone : Gone s frees s₁ frees₁ obj) (came : Came s₁ frees₁ s' frees' obj target)
    (same : ∀ o, Object cfg s' o ↔ Object cfg s o) : Placed cfg s' (Function.update spot obj target) frees' := by
  intro o p
  rw [came o p, gone o p, same o, placed o p]
  by_cases isObj : o = obj
  · subst isObj
    rw [Function.update_self]
    have known := ((placed o place).mp here).1
    constructor
    · rintro (⟨_, other⟩ | ⟨_, there⟩)
      · exact absurd rfl other
      · exact ⟨known, there.symm⟩
    · rintro ⟨_, there⟩
      exact .inr ⟨rfl, there.symm⟩
  · rw [Function.update_of_ne isObj]
    constructor
    · rintro (⟨found, _⟩ | ⟨isObj', _⟩)
      · exact found
      · exact absurd isObj' isObj
    · intro found
      exact .inl ⟨found, isObj⟩

section Halves

theorem set_magazine_self (m : Nat) (magazine : Magazine) : (s.setMagazine m magazine).magazine m = magazine :=
  Function.update_self _ _ _

theorem set_magazine_other {m other : Nat} (magazine : Magazine) (ne : other ≠ m) :
    (s.setMagazine m magazine).magazine other = s.magazine other := Function.update_of_ne ne _ _

theorem gone_round {m k obj : Nat} (placed : Placed cfg s spot frees) (count : (s.magazine m).roundCount = k + 1)
    (here : Found s frees obj (.round m k)) :
    Gone s frees (s.setMagazine m { s.magazine m with roundCount := k }) frees obj := by
  refine gone_of placed here (fun o => ?_) (fun o p other => ?_)
  · rw [Found, set_magazine_self]
    constructor
    · rintro ⟨_, below, _⟩
      exact absurd below (Nat.lt_irrefl k)
    · rintro ⟨⟨_, _, round⟩, ne⟩
      exact absurd (Option.some.inj (round.symm.trans here.2.2)) ne
  · cases p with
    | client => exact Iff.rfl
    | freeing t => exact Iff.rfl
    | free slab => exact Iff.rfl
    | round m' i =>
        by_cases same : m' = m
        · subst same
          rw [Found, Found, set_magazine_self, count]
          have ne : i ≠ k := fun same => other (same ▸ rfl)
          have bounds : i < k ↔ i < k + 1 := by omega
          rw [bounds]
          exact Iff.rfl
        · rw [Found, Found, set_magazine_other _ same]
          exact Iff.rfl

theorem came_round {m k obj : Nat} {magazine : Magazine} (known : m < s.made) (inside : k < magazine.roundCount)
    (new : magazine.rounds k = some obj) (vacant : ∀ o, ¬ Found s frees o (.round m k))
    (others : ∀ i, i ≠ k → ∀ o, i < magazine.roundCount ∧ magazine.rounds i = some o ↔
      i < (s.magazine m).roundCount ∧ (s.magazine m).rounds i = some o) :
    Came s frees (s.setMagazine m magazine) frees obj (.round m k) := by
  refine came_of (fun o => ?_) (fun o p other => ?_)
  · rw [or_iff_left (vacant o), Found, set_magazine_self, new]
    constructor
    · rintro ⟨_, _, round⟩
      exact (Option.some.inj round).symm
    · rintro rfl
      exact ⟨known, inside, rfl⟩
  · cases p with
    | client => exact Iff.rfl
    | freeing t => exact Iff.rfl
    | free slab => exact Iff.rfl
    | round m' i =>
        by_cases same : m' = m
        · subst same
          rw [Found, Found, set_magazine_self]
          have ne : i ≠ k := fun same => other (same ▸ rfl)
          exact and_congr_right fun _ => others i ne o
        · rw [Found, Found, set_magazine_other _ same]
          exact Iff.rfl

theorem set_held_self (obj : Nat) (held : Bool) : (s.setHeld obj held).held obj = held := Function.update_self _ _ _

theorem set_held_other {obj other : Nat} (held : Bool) (ne : other ≠ obj) : (s.setHeld obj held).held other = s.held other :=
  Function.update_of_ne ne _ _

theorem gone_client {obj : Nat} (placed : Placed cfg s spot frees) (here : s.held obj = true) :
    Gone s frees (s.setHeld obj false) frees obj := by
  have found : Found s frees obj .client := here
  refine gone_of placed found (fun o => ?_) (fun o p other => ?_)
  · by_cases same : o = obj
    · rw [Found, same, set_held_self]
      exact ⟨nofun, fun found => absurd rfl found.2⟩
    · rw [Found, set_held_other _ same]
      exact ⟨fun found => ⟨found, same⟩, And.left⟩
  · cases p with
    | client => exact absurd rfl other
    | freeing t => exact Iff.rfl
    | free slab => exact Iff.rfl
    | round m i => exact Iff.rfl

theorem came_client (obj : Nat) : Came s frees (s.setHeld obj true) frees obj .client := by
  refine came_of (fun o => ?_) (fun o p other => ?_)
  · by_cases same : o = obj
    · rw [Found, same, set_held_self]
      exact ⟨fun _ => .inl rfl, fun _ => rfl⟩
    · rw [Found, set_held_other _ same]
      exact ⟨.inr, fun found => found.resolve_left same⟩
  · cases p with
    | client => exact absurd rfl other
    | freeing t => exact Iff.rfl
    | free slab => exact Iff.rfl
    | round m i => exact Iff.rfl

variable [DecidableEq T]

theorem goto_self (t : T) (pc : Pc n) : (s.goto t pc).pc t = pc := Function.update_self _ _ _

theorem goto_other {t u : T} (pc : Pc n) (ne : u ≠ t) : (s.goto t pc).pc u = s.pc u := Function.update_of_ne ne _ _

-- A thread that goes on with what it had in its hand moves nothing.
theorem found_goto {t : T} {pc : Pc n} (kept : pc.inHand = (s.pc t).inHand) (obj : Nat) (p : Place T) :
    Found (s.goto t pc) frees obj p ↔ Found s frees obj p := by
  cases p with
  | client => exact Iff.rfl
  | free slab => exact Iff.rfl
  | round m i => exact Iff.rfl
  | freeing u =>
      by_cases same : u = t
      · subst same
        rw [Found, Found, goto_self, kept]
      · rw [Found, Found, goto_other pc same]

theorem gone_hand {t : T} {pc : Pc n} {obj : Nat} (placed : Placed cfg s spot frees) (here : (s.pc t).inHand = some obj)
    (empty : pc.inHand = none) : Gone s frees (s.goto t pc) frees obj := by
  have found : Found s frees obj (.freeing t) := here
  refine gone_of placed found (fun o => ?_) (fun o p other => ?_)
  · rw [Found, Found, goto_self, empty, here]
    exact ⟨nofun, fun found => absurd (Option.some.inj found.1).symm found.2⟩
  · cases p with
    | client => exact Iff.rfl
    | free slab => exact Iff.rfl
    | round m i => exact Iff.rfl
    | freeing u =>
        have ne : u ≠ t := fun same => other (same ▸ rfl)
        rw [Found, Found, goto_other pc ne]

theorem came_hand {t : T} {pc : Pc n} {obj : Nat} (empty : (s.pc t).inHand = none) (there : pc.inHand = some obj) :
    Came s frees (s.goto t pc) frees obj (.freeing t) := by
  refine came_of (fun o => ?_) (fun o p other => ?_)
  · rw [Found, Found, goto_self, empty, there]
    exact ⟨fun found => .inl (Option.some.inj found).symm, fun found => found.elim (fun same => same ▸ rfl) nofun⟩
  · cases p with
    | client => exact Iff.rfl
    | free slab => exact Iff.rfl
    | round m i => exact Iff.rfl
    | freeing u =>
        have ne : u ≠ t := fun same => other (same ▸ rfl)
        rw [Found, Found, goto_other pc ne]

end Halves

end Places

end Elysium.Slab
