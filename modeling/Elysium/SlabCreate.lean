import Elysium.SlabRuns

set_option autoImplicit false

namespace Elysium.Slab

open Transitions (Reachable reachable_invariant execute reachable_execute)

section Create

variable {n : Nat} {T : Type} {cfg : Config} {s s' : State n T} {spot : Nat → Place T} {frees : Nat → List Nat} {berth : Nat → Berth n}

-- A magazine without rounds holds nothing.
theorem found_new_magazine (count obj : Nat) (p : Place T) : Found (newMagazine count s) frees obj p ↔ Found s frees obj p := by
  cases p with
  | client => exact Iff.rfl
  | freeing t => exact Iff.rfl
  | free slab => exact Iff.rfl
  | round m i =>
      have magazine : (newMagazine count s).magazine = Function.update s.magazine s.made ⟨count, fun _ => none⟩ := rfl
      have made : (newMagazine count s).made = s.made + 1 := rfl
      rw [Found, Found, magazine, made]
      by_cases new : m = s.made
      · rw [new, Function.update_self]
        refine ⟨fun found => ?_, fun found => absurd found.1 (Nat.lt_irrefl _)⟩
        cases found.2.2
      · rw [Function.update_of_ne new]
        have bounds : m < s.made + 1 ↔ m < s.made := by omega
        rw [bounds]

theorem new_magazine_placed (count : Nat) (placed : Placed cfg s spot frees) : Placed cfg (newMagazine count s) spot frees :=
  fun obj p => (found_new_magazine count obj p).trans (placed obj p)

-- The rounds of a magazine are filled from the slabs.
theorem fill_rounds_spec {supply : Nat → Nat} {m j : Nat} (shelves : Shelves cfg s frees) (placed : Placed cfg s spot frees)
    (known : m < s.made) (blank : s.magazine m = ⟨magazineSize, fun _ => none⟩) (within : j ≤ magazineSize)
    (filled : fillRounds cfg supply m j s = some s') :
    ∃ spot' frees' rounds, Shelves cfg s' frees' ∧ Placed cfg s' spot' frees' ∧ SlabsOnly (s.setMagazine m ⟨magazineSize, rounds⟩) s' ∧
      (∀ i < j, ∃ obj, rounds i = some obj) ∧ ∀ i, j ≤ i → rounds i = none := by
  induction j generalizing s' with
  | zero =>
      obtain rfl := Option.some.inj filled
      refine ⟨spot, frees, fun _ => none, shelves, placed, ?_, fun i below => absurd below (Nat.not_lt_zero i), fun _ _ => rfl⟩
      refine ⟨rfl, rfl, ?_, rfl, rfl, rfl, rfl, rfl, rfl⟩
      exact (Function.update_eq_self_iff.mpr blank.symm).symm
  | succ j ih =>
      rw [fillRounds] at filled
      obtain ⟨s₁, before, filled⟩ := Option.bind_eq_some_iff.mp filled
      obtain ⟨s₂, provided, filled⟩ := Option.bind_eq_some_iff.mp filled
      obtain ⟨spot₁, frees₁, rounds, shelves₁, placed₁, frame₁, some₁, none₁⟩ := ih (Nat.le_of_succ_le within) before
      obtain ⟨frees₂, spot₂, shelves₂, placed₂, frame₂, stocked⟩ := provide_spec shelves₁ placed₁ provided
      obtain ⟨obj, slab, frees₃, s₃, took, here, shelves₃, gone, same, frame₃⟩ := take_object_spec shelves₂ placed₂ stocked
      rw [took] at filled
      obtain rfl := Option.some.inj filled
      dsimp only
      have frame := slabs_only_trans frame₁ (slabs_only_trans frame₂ frame₃)
      have now : s₃.magazine m = ⟨magazineSize, rounds⟩ := by
        rw [frame.magazine]
        exact set_magazine_self m _
      have made : m < s₃.made := by
        rw [frame.made]
        exact known
      rw [now]
      dsimp only
      have came : Came s₃ frees₃ (s₃.setMagazine m ⟨magazineSize, Function.update rounds j (some obj)⟩) frees₃ obj (.round m j) := by
        refine came_round made within (Function.update_self _ _ _) (fun o found => ?_) (fun i ne o => ?_)
        · have round := found.2.2
          rw [now] at round
          dsimp only at round
          rw [none₁ j (Nat.le_refl j)] at round
          cases round
        · rw [now]
          dsimp only
          rw [Function.update_of_ne ne]
      refine ⟨_, frees₃, Function.update rounds j (some obj), shelves_of_eq shelves₃ rfl rfl rfl rfl, moved placed₂ here gone came same, ?_,
        fun i below => ?_, fun i above => ?_⟩
      · refine ⟨frame.full, frame.empty, ?_, frame.made, frame.cpuCache, frame.pc, frame.held, frame.turns, frame.failed⟩
        show Function.update s₃.magazine m _ = Function.update s.magazine m _
        rw [frame.magazine]
        exact Function.update_idem _ _ _
      · by_cases last : i = j
        · rw [last, Function.update_self]
          exact ⟨obj, rfl⟩
        · rw [Function.update_of_ne last]
          exact some₁ i (by omega)
      · rw [Function.update_of_ne (by omega)]
        exact none₁ i (by omega)

-- The cache while it is made: these CPUs have no magazines yet.
structure Built (cfg : Config) (s : State n T) (cpus : List (Fin n)) (spot : Nat → Place T) (frees : Nat → List Nat)
    (berth : Nat → Berth n) : Prop where
  shelves : Shelves cfg s frees
  placed : Placed cfg s spot frees
  depot : Depot s berth
  missing : ∀ cpu ∈ cpus, (s.cpuCache cpu).primary = 4 * n ∧ (s.cpuCache cpu).secondary = 4 * n
  equipped : ∀ cpu ∉ cpus, (s.cpuCache cpu).primary < s.made ∧ (s.cpuCache cpu).secondary < s.made
  unmade : ∀ m, s.made ≤ m → (s.magazine m).roundCount = 0
  pcs : ∀ t, s.pc t = .idle
  turns : ∀ t, s.turns t = 0
  asserted : s.failed = false

theorem blank_built : Built cfg (blank : State n T) (List.finRange n) (fun _ => .client) (fun _ => []) (fun _ => .full) := by
  refine ⟨⟨nofun, List.nodup_nil, nofun, nofun, nofun, nofun⟩, fun obj p => ?_, ⟨nofun, ?_, List.nodup_nil, List.nodup_nil, nofun, nofun, nofun,
    nofun, fun _ => .inl rfl⟩, fun _ _ => ⟨rfl, rfl⟩, fun cpu absent => absurd (List.mem_finRange cpu) absent, fun _ _ => rfl, fun _ => rfl,
    fun _ => rfl, rfl⟩
  · have nothing : ¬ Object cfg (blank : State n T) obj := by
      rintro ⟨slab, member, _⟩
      cases member
    refine ⟨fun found => ?_, fun found => absurd found.1 nothing⟩
    cases p with
    | client => cases found
    | freeing t => cases found
    | round m i => exact absurd found.1 (Nat.not_lt_zero m)
    | free slab => cases found.1
  · rintro m (member | member)
    · cases member
    · cases member

variable {cpus : List (Fin n)}

-- A magazine that is not made yet is at no berth.
theorem unmade_apart {m : Nat} (built : Built cfg s cpus spot frees berth) (small : s.made ≤ m) (below : m < 4 * n) (c : Fin n) :
    (s.cpuCache c).primary ≠ m ∧ (s.cpuCache c).secondary ≠ m := by
  by_cases missing : c ∈ cpus
  · have := built.missing c missing
    omega
  · have := built.equipped c missing
    omega

theorem add_spare_built (room : s.made < 4 * n) (built : Built cfg s cpus spot frees berth) :
    Built cfg (addSpare s) cpus spot frees (Function.update berth s.made .empty) := by
  have apart := unmade_apart built (Nat.le_refl _) room
  have made : (addSpare s).made = s.made + 1 := rfl
  have kept : ∀ m, m ≠ s.made → (addSpare s).magazine m = s.magazine m := fun m ne => Function.update_of_ne ne _ _
  have new : (addSpare s).magazine s.made = ⟨0, fun _ => none⟩ := Function.update_self _ _ _
  have old : ∀ m, m ∈ s.magazinesFull ∨ m ∈ s.magazinesEmpty → m ≠ s.made := fun m member => Nat.ne_of_lt (built.depot.known m member)
  have docked : ∀ m < s.made + 1, ∀ b, Docked (addSpare s) m b ↔ Function.update berth s.made .empty m = b := by
    intro m below b
    have before := fun lt => built.depot.docked m lt b
    cases b with
    | primary c =>
        change (s.cpuCache c).primary = m ↔ _
        simp only [Docked, Function.update_apply] at before ⊢
        grind
    | secondary c =>
        change (s.cpuCache c).secondary = m ↔ _
        simp only [Docked, Function.update_apply] at before ⊢
        grind
    | full =>
        change m ∈ s.magazinesFull ↔ _
        simp only [Docked, Function.update_apply] at before ⊢
        grind
    | empty =>
        change m ∈ s.made :: s.magazinesEmpty ↔ _
        simp only [Docked, Function.update_apply, List.mem_cons] at before ⊢
        grind
  refine ⟨shelves_of_eq built.shelves rfl rfl rfl rfl, new_magazine_placed 0 built.placed, ⟨docked, fun m member => ?_, built.depot.fullOnce,
    List.nodup_cons.mpr ⟨fun member => old _ (.inr member) rfl, built.depot.emptyOnce⟩, fun m below => ?_, fun m below => ?_,
    fun m member => ?_, fun m member => ?_, fun c => ?_⟩, built.missing, fun c here => ?_, fun m above => ?_, built.pcs, built.turns,
    built.asserted⟩
  · rw [made]
    cases member with
    | inl member => exact Nat.lt_succ_of_lt (built.depot.known m (.inl member))
    | inr member =>
        cases List.mem_cons.mp member with
        | inl same => omega
        | inr member => exact Nat.lt_succ_of_lt (built.depot.known m (.inr member))
  · by_cases same : m = s.made
    · rw [same, new]
      exact Nat.zero_le _
    · rw [kept m same]
      exact built.depot.small m (by omega)
  · by_cases same : m = s.made
    · rw [same, new]
      exact fun i inside => absurd inside (Nat.not_lt_zero i)
    · rw [kept m same]
      exact built.depot.loaded m (by omega)
  · rw [kept m (old m (.inl member))]
    exact built.depot.fulls m member
  · cases List.mem_cons.mp member with
    | inl same => rw [same, new]
    | inr member =>
        rw [kept m (old m (.inr member))]
        exact built.depot.empties m member
  · have secondary : (addSpare s).secondary c = s.secondary c := kept _ (apart c).2
    rw [secondary]
    exact built.depot.secondaries c
  · have := built.equipped c here
    exact ⟨Nat.lt_succ_of_lt this.1, Nat.lt_succ_of_lt this.2⟩
  · rw [made] at above
    rw [kept m (by omega)]
    exact built.unmade m (by omega)

theorem spare_magazines_built (k : Nat) (room : s.made + k ≤ 4 * n) (built : Built cfg s cpus spot frees berth) :
    (spareMagazines k s).made = s.made + k ∧ ∃ berth', Built cfg (spareMagazines k s) cpus spot frees berth' := by
  induction k with
  | zero => exact ⟨rfl, berth, built⟩
  | succ k ih =>
      obtain ⟨made, berth', before⟩ := ih (by omega)
      refine ⟨?_, _, add_spare_built (by rw [made]; omega) before⟩
      show (spareMagazines k s).made + 1 = s.made + (k + 1)
      rw [made, Nat.add_assoc]

-- A CPU gets its magazines: the next two, one full and one empty.
structure Equips (s s' : State n T) (cpu : Fin n) : Prop where
  full : s'.magazinesFull = s.magazinesFull
  empty : s'.magazinesEmpty = s.magazinesEmpty
  made : s'.made = s.made + 2
  cpuCache : s'.cpuCache = Function.update s.cpuCache cpu ⟨none, s.made, s.made + 1⟩
  kept : ∀ m, m ≠ s.made → m ≠ s.made + 1 → s'.magazine m = s.magazine m
  primary : (s'.magazine s.made).roundCount = magazineSize
  rounds : ∀ i < magazineSize, ∃ obj, (s'.magazine s.made).rounds i = some obj
  secondary : (s'.magazine (s.made + 1)).roundCount = 0

theorem equips_docked {cpu : Fin n} (room : s.made + 2 ≤ 4 * n) (built : Built cfg s cpus spot frees berth)
    (missing : (s.cpuCache cpu).primary = 4 * n ∧ (s.cpuCache cpu).secondary = 4 * n) (equips : Equips s s' cpu) (m : Nat)
    (below : m < s.made + 2) (b : Berth n) :
    Docked s' m b ↔ Function.update (Function.update berth s.made (.primary cpu)) (s.made + 1) (.secondary cpu) m = b := by
  have first := unmade_apart built (Nat.le_refl _) (Nat.lt_of_succ_lt room)
  have second := unmade_apart built (Nat.le_succ _) room
  have old : ∀ m, m ∈ s.magazinesFull ∨ m ∈ s.magazinesEmpty → m < s.made := built.depot.known
  have before := fun lt => built.depot.docked m lt b
  cases b with
  | primary c =>
      rw [Docked, equips.cpuCache]
      simp only [Docked, Function.update_apply] at before ⊢
      grind
  | secondary c =>
      rw [Docked, equips.cpuCache]
      simp only [Docked, Function.update_apply] at before ⊢
      grind
  | full =>
      rw [Docked, equips.full]
      simp only [Docked, Function.update_apply] at before ⊢
      grind
  | empty =>
      rw [Docked, equips.empty]
      simp only [Docked, Function.update_apply] at before ⊢
      grind

theorem equips_depot {cpu : Fin n} (room : s.made + 2 ≤ 4 * n) (built : Built cfg s cpus spot frees berth)
    (missing : (s.cpuCache cpu).primary = 4 * n ∧ (s.cpuCache cpu).secondary = 4 * n) (equips : Equips s s' cpu) :
    Depot s' (Function.update (Function.update berth s.made (.primary cpu)) (s.made + 1) (.secondary cpu)) := by
  have old : ∀ m, m ∈ s.magazinesFull ∨ m ∈ s.magazinesEmpty → s'.magazine m = s.magazine m := fun m member => by
    have := built.depot.known m member
    exact equips.kept m (by omega) (by omega)
  refine ⟨?_, fun m member => ?_, ?_, ?_, fun m below => ?_, fun m below i inside => ?_, fun m member => ?_, fun m member => ?_, fun c => ?_⟩
  · rw [equips.made]
    exact equips_docked room built missing equips
  · rw [equips.full, equips.empty] at member
    rw [equips.made]
    exact Nat.lt_add_right 2 (built.depot.known m member)
  · rw [equips.full]
    exact built.depot.fullOnce
  · rw [equips.empty]
    exact built.depot.emptyOnce
  · rw [equips.made] at below
    by_cases isPrimary : m = s.made
    · exact isPrimary ▸ Nat.le_of_eq equips.primary
    by_cases isSecondary : m = s.made + 1
    · rw [isSecondary, equips.secondary]
      exact Nat.zero_le _
    · rw [equips.kept m isPrimary isSecondary]
      exact built.depot.small m (by omega)
  · rw [equips.made] at below
    by_cases isPrimary : m = s.made
    · rw [isPrimary, equips.primary] at inside
      rw [isPrimary]
      exact equips.rounds i inside
    by_cases isSecondary : m = s.made + 1
    · rw [isSecondary, equips.secondary] at inside
      exact absurd inside (Nat.not_lt_zero i)
    · rw [equips.kept m isPrimary isSecondary] at inside ⊢
      exact built.depot.loaded m (by omega) i inside
  · rw [equips.full] at member
    rw [old m (.inl member)]
    exact built.depot.fulls m member
  · rw [equips.empty] at member
    rw [old m (.inr member)]
    exact built.depot.empties m member
  · rw [State.secondary, equips.cpuCache]
    by_cases same : c = cpu
    · rw [same, Function.update_self]
      exact .inl equips.secondary
    · rw [Function.update_of_ne same, equips.kept _ (unmade_apart built (Nat.le_refl _) (Nat.lt_of_succ_lt room) c).2
        (unmade_apart built (Nat.le_succ _) room c).2]
      exact built.depot.secondaries c

theorem equips_built {cpu : Fin n} {rest : List (Fin n)} {spot' : Nat → Place T} {frees' : Nat → List Nat} (room : s.made + 2 ≤ 4 * n)
    (built : Built cfg s (cpu :: rest) spot frees berth) (once : cpu ∉ rest) (equips : Equips s s' cpu) (shelves : Shelves cfg s' frees')
    (placed : Placed cfg s' spot' frees') (pcs : s'.pc = s.pc) (turns : s'.turns = s.turns) (failed : s'.failed = s.failed) :
    Built cfg s' rest spot' frees' (Function.update (Function.update berth s.made (.primary cpu)) (s.made + 1) (.secondary cpu)) := by
  refine ⟨shelves, placed, equips_depot room built (built.missing cpu List.mem_cons_self) equips, fun c later => ?_, fun c here => ?_,
    fun m above => ?_, fun t => ?_, fun t => ?_, ?_⟩
  · have ne : c ≠ cpu := fun same => once (same ▸ later)
    rw [equips.cpuCache, Function.update_of_ne ne]
    exact built.missing c (List.mem_cons_of_mem _ later)
  · rw [equips.cpuCache, equips.made]
    by_cases same : c = cpu
    · rw [same, Function.update_self]
      exact ⟨Nat.lt_add_of_pos_right (by decide), Nat.lt_succ_self _⟩
    · rw [Function.update_of_ne same]
      have done := built.equipped c fun member => here ((List.mem_cons.mp member).resolve_left same)
      exact ⟨Nat.lt_add_right 2 done.1, Nat.lt_add_right 2 done.2⟩
  · rw [equips.made] at above
    rw [equips.kept m (by omega) (by omega)]
    exact built.unmade m (by omega)
  · rw [pcs]
    exact built.pcs t
  · rw [turns]
    exact built.turns t
  · rw [failed]
    exact built.asserted

theorem equip_cpu_built {cpu : Fin n} {rest : List (Fin n)} {supply : Nat → Nat} {s₁ : State n T} (room : s.made + 2 ≤ 4 * n)
    (once : cpu ∉ rest) (built : Built cfg s (cpu :: rest) spot frees berth)
    (filled : fillRounds cfg supply s.made magazineSize (newMagazine magazineSize s) = some s₁) :
    ((newMagazine 0 s₁).setCpu cpu ⟨none, s.made, s₁.made⟩).made = s.made + 2 ∧
      ∃ spot' frees' berth', Built cfg ((newMagazine 0 s₁).setCpu cpu ⟨none, s.made, s₁.made⟩) rest spot' frees' berth' := by
  have blankPrimary : (newMagazine magazineSize s).magazine s.made = ⟨magazineSize, fun _ => none⟩ := Function.update_self _ _ _
  have shelves₀ : Shelves cfg (newMagazine magazineSize s) frees := shelves_of_eq built.shelves rfl rfl rfl rfl
  have known : s.made < (newMagazine magazineSize s).made := Nat.lt_succ_self _
  obtain ⟨spot₁, frees₁, rounds, shelves₁, placed₁, frame, loaded, _⟩ :=
    fill_rounds_spec shelves₀ (new_magazine_placed magazineSize built.placed) known blankPrimary (Nat.le_refl _) filled
  have made : s₁.made = s.made + 1 := frame.made
  have primary : s₁.magazine s.made = ⟨magazineSize, rounds⟩ := by
    rw [frame.magazine]
    exact set_magazine_self _ _
  have others : ∀ m, m ≠ s.made → s₁.magazine m = s.magazine m := by
    intro m ne
    rw [frame.magazine, set_magazine_other _ ne]
    exact Function.update_of_ne ne _ _
  let s₂ : State n T := (newMagazine 0 s₁).setCpu cpu ⟨none, s.made, s₁.made⟩
  have secondary : s₂.magazine (s.made + 1) = ⟨0, fun _ => none⟩ := made ▸ Function.update_self _ _ _
  have kept : ∀ m, m ≠ s.made + 1 → s₂.magazine m = s₁.magazine m := fun m ne => Function.update_of_ne (made ▸ ne) _ _
  have first : s₂.magazine s.made = ⟨magazineSize, rounds⟩ := (kept s.made (by omega)).trans primary
  have equips : Equips s s₂ cpu := by
    refine ⟨frame.full, frame.empty, congrArg Nat.succ made, ?_, fun m ne ne' => (kept m ne').trans (others m ne), ?_, fun i inside => ?_, ?_⟩
    · show Function.update s₁.cpuCache cpu _ = _
      rw [frame.cpuCache, made]
      rfl
    · rw [first]
    · rw [first]
      exact loaded i inside
    · rw [secondary]
  have shelves₂ : Shelves cfg s₂ frees₁ := shelves_of_eq shelves₁ rfl rfl rfl rfl
  have placed₂ : Placed cfg s₂ spot₁ frees₁ := fun obj p =>
    (found_of_eq rfl rfl rfl rfl rfl obj p).trans (new_magazine_placed 0 placed₁ obj p)
  exact ⟨equips.made, _, _, _, equips_built room built once equips shelves₂ placed₂ frame.pc frame.turns frame.failed⟩

theorem equip_cpus_built {supply : Fin n → Nat → Nat} (room : s.made + 2 * cpus.length = 4 * n) (once : cpus.Nodup)
    (built : Built cfg s cpus spot frees berth) (equipped : equipCpus cfg supply cpus s = some s') :
    s'.made = 4 * n ∧ ∃ spot' frees' berth', Built cfg s' [] spot' frees' berth' := by
  induction cpus generalizing s spot frees berth with
  | nil =>
      obtain rfl := Option.some.inj equipped
      exact ⟨room, spot, frees, berth, built⟩
  | cons cpu rest ih =>
      rw [List.length_cons] at room
      rw [List.nodup_cons] at once
      rw [equipCpus] at equipped
      obtain ⟨s₁, filled, equipped⟩ := Option.bind_eq_some_iff.mp equipped
      obtain ⟨made, spot', frees', berth', after⟩ := equip_cpu_built (by omega) once.1 built filled
      refine ih ?_ once.2 after equipped
      rw [made]
      omega

theorem create_built {supply : Fin n → Nat → Nat} (created : slabCacheCreate cfg supply = some s) :
    s.made = 4 * n ∧ ∃ spot frees berth, Built cfg s [] spot frees berth := by
  rw [slabCacheCreate] at created
  by_cases allowed : 8 ≤ cfg.objectSize
  · rw [if_pos allowed] at created
    have extra : (blank : State n T).made + n * 2 ≤ 4 * n := by
      show 0 + n * 2 ≤ 4 * n
      omega
    have start : Built cfg (blank : State n T) (List.finRange n) (fun _ => .client) (fun _ => []) (fun _ => .full) := blank_built
    obtain ⟨made, berth₀, spare⟩ := spare_magazines_built (n * 2) extra start
    have room : (spareMagazines (n * 2) (blank : State n T)).made + 2 * (List.finRange n).length = 4 * n := by
      rw [made, List.length_finRange]
      show 0 + n * 2 + 2 * n = 4 * n
      omega
    exact equip_cpus_built room (List.nodup_finRange n) spare created
  · rw [if_neg allowed] at created
    cases created

theorem create_inv {supply : Fin n → Nat → Nat} (created : slabCacheCreate cfg supply = some s) : ∃ spot frees berth, Inv cfg s spot frees berth := by
  obtain ⟨all, spot, frees, berth, built⟩ := create_built created
  refine ⟨spot, frees, berth, built.shelves, built.placed, built.depot, fun c => built.equipped c List.not_mem_nil, fun t => ?_, all, built.asserted⟩
  refine guards_outside ?_ ?_
  · rw [built.pcs t]
    rfl
  · rw [built.turns t]
    exact Nat.zero_le 1

theorem create_idle {supply : Fin n → Nat → Nat} (created : slabCacheCreate cfg supply = some s) (t : T) : s.pc t = .idle := by
  obtain ⟨_, _, _, _, built⟩ := create_built created
  exact built.pcs t

theorem sound_of_inv (inv : Inv cfg s spot frees berth) : Sound cfg s := by
  have found := at_iff_found inv.shelves.listed
  refine ⟨fun obj isObject => ?_, fun obj p here => ?_, fun slab member => ?_, fun m i obj here => ?_, fun m => ⟨fun below => ?_, fun b here => ?_⟩,
    ⟨inv.depot.fullOnce, inv.depot.emptyOnce⟩, inv.depot.secondaries, inv.depot.empties, inv.depot.fulls, fun t => (inv.guards t).turns,
    inv.asserted⟩
  · refine ⟨spot obj, (found obj _).mpr ((inv.placed obj _).mpr ⟨isObject, rfl⟩), fun p here => ?_⟩
    exact ((inv.placed obj p).mp ((found obj p).mp here)).2.symm
  · exact ((inv.placed obj p).mp ((found obj p).mp here)).1
  · obtain ⟨linked, once, _⟩ := inv.shelves.listed slab member
    refine ⟨frees slab, linked, once, fun obj inside => ?_⟩
    obtain ⟨home, isSlab, i, below, rfl⟩ := ((inv.placed obj (.free slab)).mp ⟨member, inside⟩).1
    have own := inv.shelves.own slab member _ inside
    rw [slab_of_object (inv.shelves.aligned home isSlab) below] at own
    exact ⟨i, below, by rw [own]⟩
  · obtain ⟨known, inside, _⟩ := here
    have docked := (inv.depot.docked m known _).mpr rfl
    cases place : berth m with
    | primary cpu => exact .inl ⟨cpu, .inl (place ▸ docked)⟩
    | secondary cpu => exact .inl ⟨cpu, .inr (place ▸ docked)⟩
    | full => exact .inr (place ▸ docked)
    | empty =>
        rw [place] at docked
        rw [inv.depot.empties m docked] at inside
        exact absurd inside (Nat.not_lt_zero i)
  · have known : m < s.made := inv.made.symm ▸ below
    exact ⟨berth m, (inv.depot.docked m known _).mpr rfl, fun b here => ((inv.depot.docked m known b).mp here).symm⟩
  · rw [← inv.made]
    cases b with
    | primary cpu => exact here ▸ (inv.equipped cpu).1
    | secondary cpu => exact here ▸ (inv.equipped cpu).2
    | full => exact inv.depot.known m (.inl here)
    | empty => exact inv.depot.known m (.inr here)

end Create

theorem reachable_inv {n : Nat} {T : Type} [DecidableEq T] {cfg : Config} {s : State n T}
    (reach : Reachable (initial cfg) (step cfg) s) : ∃ spot frees berth, Inv cfg s spot frees berth := by
  have start : ∀ s : State n T, initial cfg s → ∃ spot frees berth, Inv cfg s spot frees berth := by
    rintro s ⟨supply, created⟩
    exact create_inv created
  exact reachable_invariant start (fun _ _ _ inv taken => step_inv inv taken) reach

-- Whatever the CPUs do, every object of the cache is in one place, and so is every
-- magazine.
theorem slab_cache_sound {n : Nat} {T : Type} [DecidableEq T] (cfg : Config) (s : State n T)
    (reach : Reachable (initial cfg) (step cfg) s) : Sound cfg s := by
  obtain ⟨spot, frees, berth, inv⟩ := reachable_inv reach
  exact sound_of_inv inv

-- A cache of three objects to a slab.
def small : Config := ⟨1024, 0⟩

def smallSupply (_ : Fin 1) (j : Nat) : Nat := (j + 1) * 0x1000

def smallCache : Option (State 1 Unit) := slabCacheCreate small smallSupply

-- An object is allocated, written to and freed.
def useOne : List (Unit × Move 1) :=
  [((), .allocate 0), ((), .run 0), ((), .run 0), ((), .write 0x1f430 (some 7)), ((), .free 0 0x1f430), ((), .run 0), ((), .run 0)]

theorem slab_cache_sound_used : ∃ s s' : State 1 Unit, smallCache = some s ∧ execute (step small) useOne s = some s' ∧
    s'.result () = some 0x1f430 ∧ Sound small s' := by
  have runs : (smallCache.bind (execute (step small) useOne)).any (fun s => s.result () == some 0x1f430) = true := by decide +kernel
  rw [Option.any_eq_true] at runs
  obtain ⟨s', run, result⟩ := runs
  obtain ⟨s, created, run⟩ := Option.bind_eq_some_iff.mp run
  exact ⟨s, s', created, run, beq_iff_eq.mp result, slab_cache_sound small s' (reachable_execute (.start s ⟨smallSupply, created⟩) run)⟩

end Elysium.Slab
