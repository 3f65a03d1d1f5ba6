import Elysium.SlabObjects

set_option autoImplicit false

namespace Elysium.Slab

open Chain

section Shelves

variable {n : Nat} {T : Type} {cfg : Config} {s s' : State n T} {frees : Nat → List Nat} {spot : Nat → Place T}

-- The slabs of a cache.
structure Shelves (cfg : Config) (s : State n T) (frees : Nat → List Nat) : Prop where
  aligned : ∀ slab ∈ s.slabs, slab % cfg.bytes = 0
  once : s.slabs.Nodup
  listed : Listed s s.slabs frees
  own : ∀ slab ∈ s.slabs, ∀ obj ∈ frees slab, cfg.slabOf obj = slab
  left : ∀ slab ∈ s.slabsPartial, 0 < (s.slab slab).freeCount
  used : ∀ slab ∈ s.slabsFull, (s.slab slab).freeCount = 0

-- What the allocator's lower half does not touch.
structure SlabsOnly (s s' : State n T) : Prop where
  full : s'.magazinesFull = s.magazinesFull
  empty : s'.magazinesEmpty = s.magazinesEmpty
  magazine : s'.magazine = s.magazine
  made : s'.made = s.made
  cpuCache : s'.cpuCache = s.cpuCache
  pc : s'.pc = s.pc
  held : s'.held = s.held
  turns : s'.turns = s.turns
  failed : s'.failed = s.failed

theorem slabs_only_refl (s : State n T) : SlabsOnly s s := ⟨rfl, rfl, rfl, rfl, rfl, rfl, rfl, rfl, rfl⟩

theorem slabs_only_trans {s₁ : State n T} (first : SlabsOnly s s₁) (second : SlabsOnly s₁ s') : SlabsOnly s s' :=
  ⟨second.full.trans first.full, second.empty.trans first.empty, second.magazine.trans first.magazine, second.made.trans first.made,
    second.cpuCache.trans first.cpuCache, second.pc.trans first.pc, second.held.trans first.held, second.turns.trans first.turns,
    second.failed.trans first.failed⟩

theorem partial_mem {slab : Nat} (member : slab ∈ s.slabsPartial) : slab ∈ s.slabs := List.mem_append_left _ member

theorem full_mem {slab : Nat} (member : slab ∈ s.slabsFull) : slab ∈ s.slabs := List.mem_append_right _ member

theorem object_of_slabs (same : ∀ slab, slab ∈ s'.slabs ↔ slab ∈ s.slabs) (obj : Nat) : Object cfg s' obj ↔ Object cfg s obj := by
  unfold Object
  simp only [same]

-- The slab a list of slabs starts with is in neither list.
theorem first_apart {slab other : Nat} {rest : List Nat} (shelves : Shelves cfg s frees) (first : s.slabsPartial = slab :: rest)
    (member : other ∈ rest ∨ other ∈ s.slabsFull) : other ≠ slab := by
  have once := shelves.once
  rw [State.slabs, first, List.cons_append, List.nodup_cons] at once
  rintro rfl
  exact once.1 (List.mem_append.mpr member)

theorem take_listed {slab obj : Nat} {others : List Nat} (listed : Listed s s.slabs frees) (member : slab ∈ s.slabs)
    (start : frees slab = obj :: others) :
    Listed { s with slab := Function.update s.slab slab ⟨s.link obj, (s.slab slab).freeCount - 1⟩ } s.slabs
      (Function.update frees slab others) := by
  intro other isSlab
  obtain ⟨linked, once, counted⟩ := listed other isSlab
  by_cases same : other = slab
  · subst same
    rw [start] at linked once counted
    obtain ⟨_, tail⟩ := chain_head linked
    simp only [Function.update_self]
    refine ⟨tail, (List.nodup_cons.mp once).2, ?_⟩
    rw [← counted, List.length_cons, Nat.add_sub_cancel]
  · simp only [Function.update_of_ne same]
    exact ⟨linked, once, counted⟩

theorem gone_free {slab obj : Nat} {others : List Nat} (placed : Placed cfg s spot frees) (member : slab ∈ s.slabs)
    (once : (frees slab).Nodup) (start : frees slab = obj :: others) (same : ∀ slab, slab ∈ s'.slabs ↔ slab ∈ s.slabs)
    (frame : SlabsOnly s s') : Gone s frees s' (Function.update frees slab others) obj := by
  rw [start, List.nodup_cons] at once
  have here : Found s frees obj (.free slab) := ⟨member, start ▸ List.mem_cons_self⟩
  refine gone_of placed here (fun o => ?_) (fun o p other => ?_)
  · rw [Found, Found, same, Function.update_self, start, List.mem_cons]
    constructor
    · rintro ⟨_, inside⟩
      refine ⟨⟨member, .inr inside⟩, ?_⟩
      rintro rfl
      exact once.1 inside
    · rintro ⟨⟨_, inside⟩, ne⟩
      exact ⟨member, inside.resolve_left ne⟩
  · cases p with
    | client => rw [Found, Found, frame.held]
    | freeing t => rw [Found, Found, frame.pc]
    | round m i => rw [Found, Found, frame.made, frame.magazine]
    | free slab' =>
        have ne : slab' ≠ slab := fun same => other (same ▸ rfl)
        rw [Found, Found, same, Function.update_of_ne ne]

-- slab_direct_alloc takes the first free object of the first slab that has one.
theorem take_object_spec (shelves : Shelves cfg s frees) (placed : Placed cfg s spot frees) (some : s.slabsPartial ≠ []) :
    ∃ obj slab frees' s', takeObject s = .some (obj, s') ∧ Found s frees obj (.free slab) ∧ Shelves cfg s' frees' ∧
      Gone s frees s' frees' obj ∧ (∀ o, Object cfg s' o ↔ Object cfg s o) ∧ SlabsOnly s s' := by
  obtain ⟨slab, rest, first⟩ := List.exists_cons_of_ne_nil some
  have isPartial : slab ∈ s.slabsPartial := first ▸ List.mem_cons_self
  have member := partial_mem isPartial
  have positive := shelves.left slab isPartial
  obtain ⟨linked, once, counted⟩ := shelves.listed slab member
  obtain ⟨obj, others, start⟩ : ∃ obj others, frees slab = obj :: others := by
    apply List.exists_cons_of_length_pos
    omega
  rw [start] at linked
  have head := (chain_head linked).1
  have listed := take_listed shelves.listed member start
  have own : ∀ other ∈ s.slabs, ∀ o ∈ Function.update frees slab others other, cfg.slabOf o = other := by
    intro other isSlab o inside
    apply shelves.own other isSlab
    by_cases same : other = slab
    · rw [same, start]
      rw [same, Function.update_self] at inside
      exact List.mem_cons_of_mem _ inside
    · rw [Function.update_of_ne same] at inside
      exact inside
  have elsewhere : ∀ other, other ≠ slab →
      Function.update s.slab slab ⟨s.link obj, (s.slab slab).freeCount - 1⟩ other = s.slab other :=
    fun other ne => Function.update_of_ne ne _ _
  by_cases last : (s.slab slab).freeCount = 1
  · let s' : State n T :=
      { s with
        slab := Function.update s.slab slab ⟨s.link obj, (s.slab slab).freeCount - 1⟩, slabsPartial := rest,
        slabsFull := slab :: s.slabsFull }
    have perm : s'.slabs.Perm s.slabs := by
      rw [State.slabs, State.slabs, first]
      exact List.perm_middle
    have only : SlabsOnly s s' := ⟨rfl, rfl, rfl, rfl, rfl, rfl, rfl, rfl, rfl⟩
    refine ⟨obj, slab, Function.update frees slab others, s', ?_, ⟨member, start ▸ List.mem_cons_self⟩, ?_,
      gone_free placed member once start (fun _ => perm.mem_iff) only, object_of_slabs (fun _ => perm.mem_iff), only⟩
    · rw [takeObject, first]
      dsimp only
      rw [head]
      dsimp only
      rw [if_neg (by omega), if_pos last]
    · refine ⟨fun other isSlab => shelves.aligned other (perm.mem_iff.mp isSlab), perm.nodup_iff.mpr shelves.once,
        fun other isSlab => listed other (perm.mem_iff.mp isSlab), fun other isSlab => own other (perm.mem_iff.mp isSlab),
        fun other isRest => ?_, fun other isFull => ?_⟩
      · show 0 < (Function.update s.slab slab _ other).freeCount
        rw [elsewhere other (first_apart shelves first (.inl isRest))]
        exact shelves.left other (first ▸ List.mem_cons_of_mem _ isRest)
      · show (Function.update s.slab slab _ other).freeCount = 0
        cases List.mem_cons.mp isFull with
        | inl same => rw [same, Function.update_self, last]
        | inr isFull =>
            rw [elsewhere other (first_apart shelves first (.inr isFull))]
            exact shelves.used other isFull
  · let s' : State n T := { s with slab := Function.update s.slab slab ⟨s.link obj, (s.slab slab).freeCount - 1⟩ }
    have only : SlabsOnly s s' := ⟨rfl, rfl, rfl, rfl, rfl, rfl, rfl, rfl, rfl⟩
    refine ⟨obj, slab, Function.update frees slab others, s', ?_, ⟨member, start ▸ List.mem_cons_self⟩, ?_,
      gone_free placed member once start (fun _ => Iff.rfl) only, object_of_slabs (fun _ => Iff.rfl), only⟩
    · rw [takeObject, first]
      dsimp only
      rw [head]
      dsimp only
      rw [if_neg (by omega), if_neg last, ← first]
    · refine ⟨shelves.aligned, shelves.once, listed, own, fun other isPartial => ?_, fun other isFull => ?_⟩
      · show 0 < (Function.update s.slab slab _ other).freeCount
        by_cases same : other = slab
        · rw [same, Function.update_self]
          dsimp only
          omega
        · rw [elsewhere other same]
          exact shelves.left other isPartial
      · show (Function.update s.slab slab _ other).freeCount = 0
        rw [elsewhere other (first_apart shelves first (.inr isFull))]
        exact shelves.used other isFull

theorem came_free {slab obj : Nat} (member : slab ∈ s.slabs) (same : ∀ slab, slab ∈ s'.slabs ↔ slab ∈ s.slabs)
    (frame : SlabsOnly s s') : Came s frees s' (Function.update frees slab (obj :: frees slab)) obj (.free slab) := by
  refine came_of (fun o => ?_) (fun o p other => ?_)
  · rw [Found, Found, same, Function.update_self, List.mem_cons]
    constructor
    · rintro ⟨_, inside⟩
      exact inside.imp_right fun inside => ⟨member, inside⟩
    · intro found
      exact ⟨member, found.imp_right And.right⟩
  · cases p with
    | client => rw [Found, Found, frame.held]
    | freeing t => rw [Found, Found, frame.pc]
    | round m i => rw [Found, Found, frame.made, frame.magazine]
    | free slab' =>
        have ne : slab' ≠ slab := fun same => other (same ▸ rfl)
        rw [Found, Found, same, Function.update_of_ne ne]

theorem object_slab {obj : Nat} (shelves : Shelves cfg s frees) (isObject : Object cfg s obj) : cfg.slabOf obj ∈ s.slabs := by
  obtain ⟨slab, member, i, inside, rfl⟩ := isObject
  rw [slab_of_object (shelves.aligned slab member) inside]
  exact member

-- slab_direct_free puts an object that no freelist has on its slab's.
theorem direct_free_spec {obj : Nat} (shelves : Shelves cfg s frees) (isObject : Object cfg s obj)
    (absent : ∀ slab ∈ s.slabs, obj ∉ frees slab) :
    ∃ frees' s', slabDirectFree cfg obj s = some s' ∧ Shelves cfg s' frees' ∧ Came s frees s' frees' obj (.free (cfg.slabOf obj)) ∧
      (∀ o, Object cfg s' o ↔ Object cfg s o) ∧ SlabsOnly s s' := by
  have member := object_slab shelves isObject
  obtain ⟨slab, isSlab⟩ : ∃ slab, cfg.slabOf obj = slab := ⟨_, rfl⟩
  rw [isSlab] at member
  have listed := thread_listed shelves.listed member absent
  have own : ∀ other ∈ s.slabs, ∀ o ∈ Function.update frees slab (obj :: frees slab) other, cfg.slabOf o = other := by
    intro other isOther o inside
    by_cases same : other = slab
    · rw [same, Function.update_self, List.mem_cons] at inside
      cases inside with
      | inl isObj => rw [isObj, isSlab, same]
      | inr inside => exact shelves.own other isOther o (same ▸ inside)
    · rw [Function.update_of_ne same] at inside
      exact shelves.own other isOther o inside
  have full : ∀ other ∈ s.slabsFull, other ≠ slab → ((s.thread slab obj).slab other).freeCount = 0 := by
    intro other isFull ne
    rw [thread_other obj ne]
    exact shelves.used other isFull
  have left : ∀ other, other = slab ∨ other ∈ s.slabsPartial → 0 < ((s.thread slab obj).slab other).freeCount := by
    intro other isPartial
    by_cases same : other = slab
    · rw [same, thread_slab]
      exact Nat.succ_pos _
    · rw [thread_other obj same]
      exact shelves.left other (isPartial.resolve_left same)
  rw [slabDirectFree, isSlab]
  dsimp only
  by_cases none : (s.slab slab).freeCount = 0
  · have isFull : slab ∈ s.slabsFull := by
      cases List.mem_append.mp member with
      | inl isPartial => exact absurd none (Nat.pos_iff_ne_zero.mp (shelves.left slab isPartial))
      | inr isFull => exact isFull
    let s' : State n T :=
      { s.thread slab obj with slabsFull := s.slabsFull.erase slab, slabsPartial := slab :: s.slabsPartial }
    have perm : s'.slabs.Perm s.slabs :=
      List.perm_middle.symm.trans (List.Perm.append_left _ (List.perm_cons_erase isFull).symm)
    have once : s'.slabs.Nodup := perm.nodup_iff.mpr shelves.once
    have only : SlabsOnly s s' := ⟨rfl, rfl, rfl, rfl, rfl, rfl, rfl, rfl, rfl⟩
    refine ⟨_, s', by rw [if_pos none, if_pos isFull], ?_, came_free member (fun _ => perm.mem_iff) only,
      object_of_slabs (fun _ => perm.mem_iff), only⟩
    refine ⟨fun other isOther => shelves.aligned other (perm.mem_iff.mp isOther), once,
      fun other isOther => listed other (perm.mem_iff.mp isOther), fun other isOther => own other (perm.mem_iff.mp isOther),
      fun other isPartial => left other (List.mem_cons.mp isPartial), fun other isFull => ?_⟩
    refine full other (List.mem_of_mem_erase isFull) ?_
    rintro rfl
    exact (List.nodup_cons.mp once).1 (List.mem_append_right _ isFull)
  · have notFull : ∀ other ∈ s.slabsFull, other ≠ slab := by
      rintro other isFull rfl
      exact none (shelves.used other isFull)
    have only : SlabsOnly s (s.thread slab obj) := ⟨rfl, rfl, rfl, rfl, rfl, rfl, rfl, rfl, rfl⟩
    refine ⟨_, s.thread slab obj, if_neg none, ?_, came_free member (fun _ => Iff.rfl) only, object_of_slabs (fun _ => Iff.rfl), only⟩
    exact ⟨shelves.aligned, shelves.once, listed, own, fun other isPartial => left other (.inr isPartial),
      fun other isFull => full other isFull (notFull other isFull)⟩

theorem carve_only (cfg : Config) (block k : Nat) (s : State n T) : ∃ slab link, carve cfg block k s = { s with slab := slab, link := link } := by
  induction k with
  | zero => exact ⟨s.slab, s.link, rfl⟩
  | succ k ih =>
      obtain ⟨slab, link, same⟩ := ih
      rw [carve, same]
      exact ⟨_, _, rfl⟩

section NewSlab

variable {block : Nat} {slab : Nat → SlabInfo} {link : Nat → Option Nat}

-- A new slab has all its objects on its freelist.
theorem new_listed (shelves : Shelves cfg s frees) (aligned : block % cfg.bytes = 0) (new : block ∉ s.slabs) :
    Listed (carve cfg block cfg.objects { s with slab := Function.update s.slab block ⟨none, 0⟩ }) (block :: s.slabs)
      (Function.update frees block (carved cfg block cfg.objects)) := by
  have cleared : Listed { s with slab := Function.update s.slab block ⟨none, 0⟩ } (block :: s.slabs)
      (Function.update frees block []) := by
    intro other member
    cases List.mem_cons.mp member with
    | inl same =>
        simp only [same, Function.update_self]
        exact ⟨.nil, List.nodup_nil, rfl⟩
    | inr member =>
        have ne : other ≠ block := fun same => new (same ▸ member)
        simp only [Function.update_of_ne ne]
        exact shelves.listed other member
  have apart : ∀ other ∈ block :: s.slabs, ∀ i < cfg.objects, cfg.object block i ∉ Function.update frees block [] other := by
    intro other member i inside
    cases List.mem_cons.mp member with
    | inl same =>
        rw [same, Function.update_self]
        exact List.not_mem_nil
    | inr member =>
        have ne : other ≠ block := fun same => new (same ▸ member)
        rw [Function.update_of_ne ne]
        intro listed
        exact ne ((shelves.own other member _ listed).symm.trans (slab_of_object aligned inside))
  have carved := carve_listed (Nat.le_refl _) cleared List.mem_cons_self (Function.update_self _ _ _) apart
  rw [Function.update_idem] at carved
  exact carved

theorem new_found (new : block ∉ s.slabs) {o : Nat} (old : o ∉ carved cfg block cfg.objects) (p : Place T) :
    Found { s with slab := slab, link := link, slabsPartial := block :: s.slabsPartial }
      (Function.update frees block (carved cfg block cfg.objects)) o p ↔ Found s frees o p := by
  cases p with
  | client => exact Iff.rfl
  | freeing t => exact Iff.rfl
  | round m i => exact Iff.rfl
  | free slab' =>
      by_cases same : slab' = block
      · rw [Found, same, Function.update_self]
        exact ⟨fun found => absurd found.2 old, fun found => absurd found.1 new⟩
      · rw [Found, Found, Function.update_of_ne same]
        have members : slab' ∈ State.slabs { s with slab := slab, link := link, slabsPartial := block :: s.slabsPartial } ↔
            slab' ∈ s.slabs := List.mem_cons.trans (or_iff_right same)
        rw [members]

open Classical in
noncomputable def newSpot (cfg : Config) (block : Nat) (spot : Nat → Place T) (o : Nat) : Place T :=
  if o ∈ carved cfg block cfg.objects then .free block else spot o

theorem new_placed (shelves : Shelves cfg s frees) (placed : Placed cfg s spot frees) (aligned : block % cfg.bytes = 0)
    (new : block ∉ s.slabs) :
    Placed cfg { s with slab := slab, link := link, slabsPartial := block :: s.slabsPartial } (newSpot cfg block spot)
      (Function.update frees block (carved cfg block cfg.objects)) := by
  intro o p
  rw [newSpot]
  by_cases isNew : o ∈ carved cfg block cfg.objects
  · rw [if_pos isNew]
    obtain ⟨i, inside, rfl⟩ := mem_carved.mp isNew
    have home := slab_of_object aligned inside
    have isObject : Object cfg { s with slab := slab, link := link, slabsPartial := block :: s.slabsPartial } (cfg.object block i) :=
      ⟨block, List.mem_cons_self, i, inside, rfl⟩
    refine ⟨fun found => ⟨isObject, ?_⟩, ?_⟩
    · have stranger : ∀ p, ¬ Found s frees (cfg.object block i) p := fun p found =>
        new (home ▸ object_slab shelves ((placed _ p).mp found).1)
      cases p with
      | client => exact absurd found (stranger .client)
      | freeing t => exact absurd found (stranger (.freeing t))
      | round m j => exact absurd found (stranger (.round m j))
      | free slab' =>
          by_cases same : slab' = block
          · rw [same]
          · rw [Found, Function.update_of_ne same] at found
            have member := (List.mem_cons.mp found.1).resolve_left same
            exact absurd ⟨member, found.2⟩ (stranger (.free slab'))
    · rintro ⟨_, rfl⟩
      exact ⟨List.mem_cons_self, (Function.update_self block _ frees).symm ▸ isNew⟩
  · have same : Object cfg { s with slab := slab, link := link, slabsPartial := block :: s.slabsPartial } o ↔ Object cfg s o := by
      constructor
      · rintro ⟨slab', member, i, inside, rfl⟩
        cases List.mem_cons.mp member with
        | inl isBlock => exact absurd (mem_carved.mpr ⟨i, inside, by rw [isBlock]⟩) isNew
        | inr member => exact ⟨slab', member, i, inside, rfl⟩
      · rintro ⟨slab', member, rest⟩
        exact ⟨slab', List.mem_cons_of_mem _ member, rest⟩
    rw [if_neg isNew, new_found new isNew, same]
    exact placed o p

theorem make_slab_spec (shelves : Shelves cfg s frees) (placed : Placed cfg s spot frees)
    (made : cacheMakeSlab cfg block s = some s') :
    ∃ frees' spot', Shelves cfg s' frees' ∧ Placed cfg s' spot' frees' ∧ SlabsOnly s s' ∧ s'.slabsPartial ≠ [] := by
  rw [cacheMakeSlab] at made
  by_cases refused : cfg.objects = 0 ∨ ¬ Fresh cfg s block
  · rw [if_pos refused] at made
    cases made
  · rw [if_neg refused, Option.some.injEq] at made
    rw [not_or, not_not] at refused
    obtain ⟨fits, aligned, new⟩ := refused
    have listed := new_listed shelves aligned new
    obtain ⟨slab, link, same⟩ := carve_only cfg block cfg.objects { s with slab := Function.update s.slab block ⟨none, 0⟩ }
    rw [same] at listed
    rw [same] at made
    subst made
    have counts : ∀ other, other ∈ s.slabs → (slab other).freeCount = (s.slab other).freeCount := by
      intro other member
      have ne : other ≠ block := fun same => new (same ▸ member)
      have counted := (listed other (List.mem_cons_of_mem _ member)).2.2
      rw [Function.update_of_ne ne, (shelves.listed other member).2.2] at counted
      exact counted.symm
    have whole := (listed block List.mem_cons_self).2.2
    rw [Function.update_self, length_carved] at whole
    have found : Placed cfg { s with slab := slab, link := link, slabsPartial := block :: s.slabsPartial } (newSpot cfg block spot)
        (Function.update frees block (carved cfg block cfg.objects)) := new_placed shelves placed aligned new
    refine ⟨_, _, ⟨?_, List.nodup_cons.mpr ⟨new, shelves.once⟩, listed, ?_, ?_, ?_⟩, found,
      ⟨rfl, rfl, rfl, rfl, rfl, rfl, rfl, rfl, rfl⟩, List.cons_ne_nil _ _⟩
    · intro other member
      cases List.mem_cons.mp member with
      | inl isBlock => exact isBlock ▸ aligned
      | inr member => exact shelves.aligned other member
    · intro other member o inside
      by_cases isBlock : other = block
      · rw [isBlock, Function.update_self] at inside
        obtain ⟨i, below, rfl⟩ := mem_carved.mp inside
        rw [isBlock, slab_of_object aligned below]
      · rw [Function.update_of_ne isBlock] at inside
        exact shelves.own other ((List.mem_cons.mp member).resolve_left isBlock) o inside
    · intro other isPartial
      cases List.mem_cons.mp isPartial with
      | inl isBlock =>
          rw [isBlock]
          exact whole ▸ Nat.pos_of_ne_zero fits
      | inr isPartial =>
          show 0 < (slab other).freeCount
          rw [counts other (partial_mem isPartial)]
          exact shelves.left other isPartial
    · intro other isFull
      show (slab other).freeCount = 0
      rw [counts other (full_mem isFull)]
      exact shelves.used other isFull

theorem provide_spec (shelves : Shelves cfg s frees) (placed : Placed cfg s spot frees) (provided : provide cfg block s = some s') :
    ∃ frees' spot', Shelves cfg s' frees' ∧ Placed cfg s' spot' frees' ∧ SlabsOnly s s' ∧ s'.slabsPartial ≠ [] := by
  rw [provide] at provided
  by_cases none : s.slabsPartial = []
  · rw [if_pos none] at provided
    exact make_slab_spec shelves placed provided
  · rw [if_neg none, Option.some.injEq] at provided
    subst provided
    exact ⟨frees, spot, shelves, placed, slabs_only_refl s, none⟩

end NewSlab

end Shelves

end Elysium.Slab
