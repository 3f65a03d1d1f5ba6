import Elysium.SlabCreate

set_option autoImplicit false

namespace Elysium.Slab

-- slab_direct_alloc is about to ask pmm_alloc for a block.
def asks {n : Nat} {T : Type} (s : State n T) (t : T) : Prop := s.pc t = .allocDirect ∧ s.slabsPartial = []

instance {n : Nat} {T : Type} (s : State n T) (t : T) : Decidable (asks s t) := inferInstanceAs (Decidable (_ ∧ _))

theorem freeing_ne_free {T : Type} {t : T} (slab : Nat) : Place.freeing t ≠ .free slab := by
  intro same
  cases same

section Calls

variable {n : Nat} {T : Type} [DecidableEq T] {cfg : Config} {s s' : State n T} {spot : Nat → Place T} {frees : Nat → List Nat}
  {berth : Nat → Berth n} {t : T} {block : Nat}

omit [DecidableEq T] in
theorem take_object_slabs {obj : Nat} (taken : takeObject s = some (obj, s')) (slab : Nat) : slab ∈ s'.slabs ↔ slab ∈ s.slabs := by
  rw [takeObject] at taken
  cases first : s.slabsPartial with
  | nil =>
      rw [first] at taken
      cases taken
  | cons head rest =>
      rw [first] at taken
      dsimp only at taken
      cases list : (s.slab head).freelist with
      | none =>
          rw [list] at taken
          cases taken
      | some obj' =>
          rw [list] at taken
          dsimp only at taken
          by_cases none : (s.slab head).freeCount = 0
          · rw [if_pos none] at taken
            cases taken
          · rw [if_neg none] at taken
            by_cases last : (s.slab head).freeCount = 1
            · rw [if_pos last] at taken
              obtain ⟨_, rfl⟩ := Prod.mk.inj (Option.some.inj taken)
              rw [State.slabs, State.slabs, first]
              exact List.perm_middle.mem_iff
            · rw [if_neg last] at taken
              obtain ⟨_, rfl⟩ := Prod.mk.inj (Option.some.inj taken)
              rw [State.slabs, State.slabs, first]

omit [DecidableEq T] in
theorem provide_slabs (provided : provide cfg block s = some s') {slab : Nat} (member : slab ∈ s'.slabs) :
    slab ∈ s.slabs ∨ (s.slabsPartial = [] ∧ slab = block) := by
  rw [provide] at provided
  by_cases none : s.slabsPartial = []
  · rw [if_pos none, cacheMakeSlab] at provided
    by_cases refused : cfg.objects = 0 ∨ ¬ Fresh cfg s block
    · rw [if_pos refused] at provided
      cases provided
    · rw [if_neg refused] at provided
      obtain ⟨slabs, link, same⟩ := carve_only cfg block cfg.objects { s with slab := Function.update s.slab block ⟨.none, 0⟩ }
      dsimp only at provided
      rw [same] at provided
      obtain rfl := Option.some.inj provided
      cases List.mem_cons.mp member with
      | inl isBlock => exact .inr ⟨none, isBlock⟩
      | inr member => exact .inl member
  · rw [if_neg none] at provided
    obtain rfl := Option.some.inj provided
    exact .inl member

omit [DecidableEq T] in
theorem direct_free_slabs {obj : Nat} (freed : slabDirectFree cfg obj s = some s') {slab : Nat} (member : slab ∈ s'.slabs) : slab ∈ s.slabs := by
  rw [slabDirectFree] at freed
  dsimp only at freed
  by_cases none : (s.slab (cfg.slabOf obj)).freeCount = 0
  · rw [if_pos none] at freed
    by_cases isFull : cfg.slabOf obj ∈ s.slabsFull
    · rw [if_pos isFull] at freed
      obtain rfl := Option.some.inj freed
      cases List.mem_cons.mp member with
      | inl same => exact same ▸ full_mem isFull
      | inr member =>
          cases List.mem_append.mp member with
          | inl isPartial => exact partial_mem isPartial
          | inr member => exact full_mem (List.mem_of_mem_erase member)
    · rw [if_neg isFull] at freed
      cases freed
  · rw [if_neg none] at freed
    obtain rfl := Option.some.inj freed
    exact member

-- The upper half leaves the slabs alone.
theorem alloc_pass_slabs (cpu : Fin n) : (allocPass s t cpu).slabs = s.slabs := by
  rw [allocPass]
  dsimp only
  split
  · split <;> rfl
  · split
    · rfl
    · split <;> rfl

theorem free_pass_slabs (cpu : Fin n) (obj : Nat) : (freePass s t cpu obj).slabs = s.slabs := by
  rw [freePass]
  dsimp only
  split
  · rfl
  · split
    · rfl
    · split <;> rfl

theorem acquire_eq {cpu : Fin n} {pc : Pc n} (taken : acquire s t cpu pc = some s') :
    s'.slabs = s.slabs ∧ s'.held = s.held ∧ s'.pc = Function.update s.pc t pc := by
  rw [acquire] at taken
  split at taken
  · obtain rfl := Option.some.inj taken
    exact ⟨rfl, rfl, rfl⟩
  · cases taken

-- A new slab is the block its maker asked for.
theorem call_step_slabs (taken : callStep cfg s t block (s.pc t) = some s') {slab : Nat} (member : slab ∈ s'.slabs) :
    slab ∈ s.slabs ∨ (asks s t ∧ slab = block) := by
  cases place : s.pc t with
  | idle =>
      rw [place] at taken
      cases taken
  | allocEnter cpu =>
      rw [place] at taken
      exact .inl ((acquire_eq taken).1 ▸ member)
  | alloc cpu =>
      rw [place] at taken
      obtain rfl := Option.some.inj taken
      rw [alloc_pass_slabs] at member
      exact .inl member
  | allocDirect =>
      rw [place, callStep, Option.map_eq_some_iff] at taken
      obtain ⟨s₁, provided, taken⟩ := taken
      have inside : slab ∈ s₁.slabs := by
        cases took : takeObject s₁ with
        | none =>
            rw [took] at taken
            subst taken
            exact member
        | some pair =>
            obtain ⟨obj, s₂⟩ := pair
            rw [took] at taken
            subst taken
            exact (take_object_slabs took slab).mp member
      cases provide_slabs provided inside with
      | inl old => exact .inl old
      | inr new => exact .inr ⟨⟨place, new.1⟩, new.2⟩
  | freeEnter cpu obj =>
      rw [place] at taken
      exact .inl ((acquire_eq taken).1 ▸ member)
  | free cpu obj =>
      rw [place] at taken
      obtain rfl := Option.some.inj taken
      rw [free_pass_slabs] at member
      exact .inl member
  | freeDirect obj =>
      rw [place, callStep] at taken
      cases freed : slabDirectFree cfg obj s with
      | none =>
          rw [freed] at taken
          obtain rfl := Option.some.inj taken
          exact .inl member
      | some s₁ =>
          rw [freed] at taken
          obtain rfl := Option.some.inj taken
          exact .inl (direct_free_slabs freed member)

theorem alloc_pass_others (cpu : Fin n) {u : T} (ne : u ≠ t) : (allocPass s t cpu).pc u = s.pc u := by
  rw [allocPass]
  dsimp only
  split
  · split
    · rfl
    · exact Function.update_of_ne ne _ _
  · split
    · rfl
    · split
      · exact Function.update_of_ne ne _ _
      · rfl

theorem free_pass_others (cpu : Fin n) (obj : Nat) {u : T} (ne : u ≠ t) : (freePass s t cpu obj).pc u = s.pc u := by
  rw [freePass]
  dsimp only
  split
  · exact Function.update_of_ne ne _ _
  · split
    · rfl
    · split
      · exact Function.update_of_ne ne _ _
      · rfl

theorem call_step_others (inv : Inv cfg s spot frees berth) (taken : callStep cfg s t block (s.pc t) = some s') {u : T} (ne : u ≠ t) :
    s'.pc u = s.pc u := by
  cases place : s.pc t with
  | idle =>
      rw [place] at taken
      cases taken
  | allocEnter cpu =>
      rw [place] at taken
      rw [(acquire_eq taken).2.2, Function.update_of_ne ne]
  | alloc cpu =>
      rw [place] at taken
      obtain rfl := Option.some.inj taken
      exact alloc_pass_others cpu ne
  | allocDirect =>
      rw [place, callStep, Option.map_eq_some_iff] at taken
      obtain ⟨s₁, provided, taken⟩ := taken
      obtain ⟨frees₁, spot₁, shelves, placed, frame₁, stocked⟩ := provide_spec inv.shelves inv.placed provided
      obtain ⟨obj, slab, frees₂, s₂, took, here, _, _, _, frame₂⟩ := take_object_spec shelves placed stocked
      rw [took] at taken
      dsimp only at taken
      subst taken
      show Function.update s₂.pc t .idle u = s.pc u
      rw [Function.update_of_ne ne, frame₂.pc, frame₁.pc]
  | freeEnter cpu obj =>
      rw [place] at taken
      rw [(acquire_eq taken).2.2, Function.update_of_ne ne]
  | free cpu obj =>
      rw [place] at taken
      obtain rfl := Option.some.inj taken
      exact free_pass_others cpu obj ne
  | freeDirect obj =>
      have here : Found s frees obj (.freeing t) := by
        rw [Found, place]
        rfl
      obtain ⟨frees', s₁, freed, _, _, _, frame⟩ := direct_free_spec inv.shelves ((inv.placed _ _).mp here).1
        (absent_of_found inv here freeing_ne_free)
      rw [place, callStep, freed] at taken
      obtain rfl := Option.some.inj taken
      show Function.update s₁.pc t .idle u = s.pc u
      rw [Function.update_of_ne ne, frame.pc]

-- slab_allocate goes on, or returns an object nobody had.
theorem alloc_call_cases (inv : Inv cfg s spot frees berth) (calls : s.pc t ≠ .idle) (empty : (s.pc t).inHand = none)
    (taken : callStep cfg s t block (s.pc t) = some s') :
    (s'.pc t ≠ .idle ∧ (s'.pc t).inHand = none ∧ s'.held = s.held) ∨
      (s'.pc t = .idle ∧ ∃ obj, s'.result t = some obj ∧ s.held obj = false ∧ s'.held = Function.update s.held obj true) := by
  have given : ∀ (s₁ : State n T) (obj : Nat), (s₁.give t obj).pc t = .idle ∧ (s₁.give t obj).result t = some obj :=
    fun s₁ obj => ⟨Function.update_self _ _ _, Function.update_self _ _ _⟩
  have vacant : ∀ {obj : Nat} {p : Place T}, Found s frees obj p → p ≠ .client → s.held obj = false := by
    intro obj p found ne
    rw [Bool.eq_false_iff]
    intro held
    exact ne (((inv.placed obj p).mp found).2.symm.trans ((inv.placed obj .client).mp held).2)
  cases place : s.pc t with
  | idle => exact absurd place calls
  | allocEnter cpu =>
      rw [place] at taken
      obtain ⟨_, held, pcs⟩ := acquire_eq taken
      rw [pcs, Function.update_self]
      refine .inl ⟨fun idle => ?_, rfl, held⟩
      cases idle
  | alloc cpu =>
      rw [place] at taken
      obtain rfl := Option.some.inj taken
      have known := (inv.equipped cpu).1
      rw [allocPass]
      dsimp only
      by_cases some : 0 < (s.primary cpu).roundCount
      · rw [if_pos some]
        obtain ⟨obj, round⟩ := inv.depot.loaded _ known _ (Nat.sub_lt some Nat.one_pos)
        rw [show (s.primary cpu).rounds ((s.primary cpu).roundCount - 1) = .some obj from round]
        have here : Found s frees obj (.round (s.cpuCache cpu).primary ((s.primary cpu).roundCount - 1)) :=
          ⟨known, Nat.sub_lt some Nat.one_pos, round⟩
        refine .inr ⟨(given _ obj).1, obj, (given _ obj).2, vacant here (fun same => ?_), rfl⟩
        cases same
      · rw [if_neg some]
        split
        · exact .inl ⟨calls, empty, rfl⟩
        · split
          · refine .inl ⟨?_, ?_, rfl⟩
            · rw [goto_self]
              intro idle
              cases idle
            · rw [goto_self]
              rfl
          · exact .inl ⟨calls, empty, rfl⟩
  | allocDirect =>
      rw [place, callStep, Option.map_eq_some_iff] at taken
      obtain ⟨s₁, provided, taken⟩ := taken
      obtain ⟨frees₁, spot₁, shelves, placed, frame₁, stocked⟩ := provide_spec inv.shelves inv.placed provided
      obtain ⟨obj, slab, frees₂, s₂, took, here, _, _, _, frame₂⟩ := take_object_spec shelves placed stocked
      rw [took] at taken
      dsimp only at taken
      subst taken
      refine .inr ⟨(given s₂ obj).1, obj, (given s₂ obj).2, ?_, ?_⟩
      · rw [Bool.eq_false_iff]
        intro held
        rw [← frame₁.held] at held
        cases ((placed obj _).mp here).2.symm.trans ((placed obj .client).mp held).2
      · show Function.update s₂.held obj true = _
        rw [frame₂.held, frame₁.held]
  | freeEnter cpu obj =>
      rw [place] at empty
      cases empty
  | free cpu obj =>
      rw [place] at empty
      cases empty
  | freeDirect obj =>
      rw [place] at empty
      cases empty

-- slab_free goes on, or is done.
theorem free_call_cases (inv : Inv cfg s spot frees berth) (hand : (s.pc t).inHand ≠ none)
    (taken : callStep cfg s t block (s.pc t) = some s') : s'.held = s.held ∧ ((s'.pc t).inHand ≠ none ∨ s'.pc t = .idle) := by
  cases place : s.pc t with
  | idle =>
      rw [place] at taken
      cases taken
  | allocEnter cpu => exact absurd (by rw [place]; rfl) hand
  | alloc cpu => exact absurd (by rw [place]; rfl) hand
  | allocDirect => exact absurd (by rw [place]; rfl) hand
  | freeEnter cpu obj =>
      rw [place] at taken
      obtain ⟨_, held, pcs⟩ := acquire_eq taken
      rw [pcs, Function.update_self]
      exact ⟨held, .inl (Option.some_ne_none obj)⟩
  | free cpu obj =>
      rw [place] at taken
      obtain rfl := Option.some.inj taken
      rw [freePass]
      dsimp only
      split
      · exact ⟨rfl, .inr (goto_self t .idle)⟩
      · split
        · exact ⟨rfl, .inl hand⟩
        · split
          · refine ⟨rfl, .inl ?_⟩
            rw [goto_self]
            exact Option.some_ne_none obj
          · exact ⟨rfl, .inl hand⟩
  | freeDirect obj =>
      have here : Found s frees obj (.freeing t) := by
        rw [Found, place]
        rfl
      obtain ⟨frees', s₁, freed, _, _, _, frame⟩ := direct_free_spec inv.shelves ((inv.placed _ _).mp here).1
        (absent_of_found inv here freeing_ne_free)
      rw [place, callStep, freed] at taken
      obtain rfl := Option.some.inj taken
      exact ⟨frame.held, .inr (goto_self t .idle)⟩

-- What the steps that start a call change.
theorem allocate_step {cpu : Fin n} (taken : step cfg (t, .allocate cpu) s = some s') :
    s'.slabs = s.slabs ∧ s'.held = s.held ∧ (∀ u, u ≠ t → s'.pc u = s.pc u) ∧ s'.pc t ≠ .idle ∧ (s'.pc t).inHand = none := by
  rw [step] at taken
  dsimp only at taken
  by_cases idle : s.pc t = .idle
  · rw [if_pos idle] at taken
    obtain rfl := Option.some.inj taken
    rw [goto_self]
    cases s.cpuCacheEnabled with
    | false =>
        refine ⟨rfl, rfl, fun u ne => goto_other _ ne, fun idle => ?_, rfl⟩
        cases idle
    | true =>
        refine ⟨rfl, rfl, fun u ne => goto_other _ ne, fun idle => ?_, rfl⟩
        cases idle
  · rw [if_neg idle] at taken
    cases taken

theorem free_step (cfg : Config) (cpu : Fin n) {obj : Nat} (idle : s.pc t = .idle) (held : s.held obj = true) :
    ∃ s', step cfg (t, .free cpu obj) s = some s' ∧ s'.slabs = s.slabs ∧ s'.held = Function.update s.held obj false ∧
      (∀ u, u ≠ t → s'.pc u = s.pc u) ∧ (s'.pc t).inHand ≠ none := by
  rw [step]
  dsimp only
  rw [if_pos ⟨idle, held⟩]
  refine ⟨_, rfl, rfl, rfl, fun u ne => goto_other _ ne, ?_⟩
  rw [goto_self]
  cases s.cpuCacheEnabled with
  | false => exact Option.some_ne_none obj
  | true => exact Option.some_ne_none obj

theorem write_step {obj : Nat} {word : Option Nat} (taken : step cfg (t, .write obj word) s = some s') :
    s'.slabs = s.slabs ∧ s'.held = s.held ∧ s'.pc = s.pc := by
  rw [step] at taken
  dsimp only at taken
  by_cases held : s.held obj = true
  · rw [if_pos held] at taken
    obtain rfl := Option.some.inj taken
    exact ⟨rfl, rfl, rfl⟩
  · rw [if_neg held] at taken
    cases taken

omit [DecidableEq T] in
theorem provide_some (fits : cfg.objects ≠ 0) (fresh : Fresh cfg s block) : ∃ s', provide cfg block s = some s' := by
  rw [provide]
  by_cases none : s.slabsPartial = []
  · rw [if_pos none, cacheMakeSlab, if_neg (not_or.mpr ⟨fits, not_not.mpr fresh⟩)]
    exact ⟨_, rfl⟩
  · rw [if_neg none]
    exact ⟨s, rfl⟩

end Calls

section Created

variable {n : Nat} {T : Type} {cfg : Config} {s s' : State n T} {spot : Nat → Place T} {frees : Nat → List Nat} {berth : Nat → Berth n}

-- With a new block for each object slab_cache_create goes through.
theorem fill_rounds_some {supply : Nat → Nat} {m j : Nat} (fits : cfg.objects ≠ 0) (aligned : ∀ i, supply i % cfg.bytes = 0)
    (distinct : Function.Injective supply) (shelves : Shelves cfg s frees) (placed : Placed cfg s spot frees) (known : m < s.made)
    (isBlank : s.magazine m = ⟨magazineSize, fun _ => none⟩) (within : j ≤ magazineSize) (fresh : ∀ i, supply i ∉ s.slabs) :
    ∃ s', fillRounds cfg supply m j s = some s' ∧ ∀ slab ∈ s'.slabs, slab ∈ s.slabs ∨ ∃ i < j, slab = supply i := by
  induction j with
  | zero => exact ⟨s, rfl, fun slab member => .inl member⟩
  | succ j ih =>
      obtain ⟨s₁, before, slabs⟩ := ih (Nat.le_of_succ_le within)
      obtain ⟨spot₁, frees₁, _, shelves₁, placed₁, _, _, _⟩ :=
        fill_rounds_spec shelves placed known isBlank (Nat.le_of_succ_le within) before
      have new : Fresh cfg s₁ (supply j) := by
        refine ⟨aligned j, fun member => ?_⟩
        cases slabs _ member with
        | inl old => exact fresh j old
        | inr used =>
            obtain ⟨i, below, same⟩ := used
            exact absurd (distinct same) (Nat.ne_of_gt below)
      obtain ⟨s₂, provided⟩ := provide_some fits new
      obtain ⟨_, _, shelves₂, placed₂, _, stocked⟩ := provide_spec shelves₁ placed₁ provided
      obtain ⟨obj, _, _, s₃, took, _, _, _, _, _⟩ := take_object_spec shelves₂ placed₂ stocked
      refine ⟨s₃.setMagazine m { s₃.magazine m with rounds := Function.update (s₃.magazine m).rounds j (some obj) }, ?_,
        fun slab member => ?_⟩
      · rw [fillRounds, before]
        show (provide cfg (supply j) s₁).bind _ = _
        rw [provided]
        show (takeObject s₂).bind _ = _
        rw [took]
        rfl
      · have inside : slab ∈ s₂.slabs := (take_object_slabs took slab).mp member
        cases provide_slabs provided inside with
        | inl old =>
            cases slabs slab old with
            | inl older => exact .inl older
            | inr used =>
                obtain ⟨i, below, same⟩ := used
                exact .inr ⟨i, Nat.lt_succ_of_lt below, same⟩
        | inr here => exact .inr ⟨j, Nat.lt_succ_self j, here.2⟩

theorem equip_cpus_some {supply : Fin n → Nat → Nat} {cpus : List (Fin n)} (fits : cfg.objects ≠ 0)
    (aligned : ∀ c i, supply c i % cfg.bytes = 0) (distinct : ∀ c c' i i', supply c i = supply c' i' → c = c' ∧ i = i')
    (room : s.made + 2 * cpus.length = 4 * n) (once : cpus.Nodup) (built : Built cfg s cpus spot frees berth)
    (fresh : ∀ c ∈ cpus, ∀ i, supply c i ∉ s.slabs) :
    ∃ s', equipCpus cfg supply cpus s = some s' ∧ ∀ slab ∈ s'.slabs, slab ∈ s.slabs ∨ ∃ c, ∃ i < magazineSize, slab = supply c i := by
  induction cpus generalizing s spot frees berth with
  | nil => exact ⟨s, rfl, fun slab member => .inl member⟩
  | cons cpu rest ih =>
      rw [List.length_cons] at room
      rw [List.nodup_cons] at once
      have isBlank : (newMagazine magazineSize s).magazine s.made = ⟨magazineSize, fun _ => none⟩ := Function.update_self _ _ _
      have shelves : Shelves cfg (newMagazine magazineSize s) frees := shelves_of_eq built.shelves rfl rfl rfl rfl
      have known : s.made < (newMagazine magazineSize s).made := Nat.lt_succ_self _
      obtain ⟨s₁, filled, slabs⟩ := fill_rounds_some fits (aligned cpu) (fun i i' same => (distinct cpu cpu i i' same).2) shelves
        (new_magazine_placed magazineSize built.placed) known isBlank (Nat.le_refl _) (fresh cpu List.mem_cons_self)
      obtain ⟨made, spot', frees', berth', after⟩ := equip_cpu_built (by omega) once.1 built filled
      have still : ∀ c ∈ rest, ∀ i, supply c i ∉ ((newMagazine 0 s₁).setCpu cpu ⟨none, s.made, s₁.made⟩).slabs := by
        intro c later i member
        cases slabs _ member with
        | inl old => exact fresh c (List.mem_cons_of_mem _ later) i old
        | inr used =>
            obtain ⟨i', _, same⟩ := used
            exact once.1 ((distinct c cpu i i' same).1 ▸ later)
      obtain ⟨s', equipped, all⟩ := ih (by rw [made]; omega) once.2 after still
      refine ⟨s', ?_, fun slab member => ?_⟩
      · rw [equipCpus]
        show (fillRounds cfg (supply cpu) s.made magazineSize (newMagazine magazineSize s)).bind _ = _
        rw [filled]
        exact equipped
      · cases all slab member with
        | inl old =>
            cases slabs slab old with
            | inl older => exact .inl older
            | inr used =>
                obtain ⟨i, below, same⟩ := used
                exact .inr ⟨cpu, i, below, same⟩
        | inr used => exact .inr used

theorem create_some {supply : Fin n → Nat → Nat} (fits : cfg.objects ≠ 0) (large : 8 ≤ cfg.objectSize)
    (aligned : ∀ c i, supply c i % cfg.bytes = 0) (distinct : ∀ c c' i i', supply c i = supply c' i' → c = c' ∧ i = i') :
    ∃ s : State n T, slabCacheCreate cfg supply = some s ∧ ∀ slab ∈ s.slabs, ∃ c, ∃ i < magazineSize, slab = supply c i := by
  have extra : (blank : State n T).made + n * 2 ≤ 4 * n := by
    show 0 + n * 2 ≤ 4 * n
    omega
  have start : Built cfg (blank : State n T) (List.finRange n) (fun _ => .client) (fun _ => []) (fun _ => .full) := blank_built
  obtain ⟨made, berth, spare⟩ := spare_magazines_built (n * 2) extra start
  have room : (spareMagazines (n * 2) (blank : State n T)).made + 2 * (List.finRange n).length = 4 * n := by
    rw [made, List.length_finRange]
    show 0 + n * 2 + 2 * n = 4 * n
    omega
  have none : ∀ k, (spareMagazines k (blank : State n T)).slabs = [] := by
    intro k
    induction k with
    | zero => rfl
    | succ k ih => exact ih
  obtain ⟨s, equipped, slabs⟩ := equip_cpus_some fits aligned distinct room (List.nodup_finRange n) spare (fun c _ i member => by
    rw [none] at member
    cases member)
  refine ⟨s, by rw [slabCacheCreate, if_pos large, equipped], fun slab member => ?_⟩
  refine (slabs slab member).resolve_left fun old => ?_
  rw [none] at old
  cases old

end Created

end Elysium.Slab
