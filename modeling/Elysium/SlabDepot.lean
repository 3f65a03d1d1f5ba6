import Elysium.SlabShelves

set_option autoImplicit false

namespace Elysium.Slab

section Depot

variable {n : Nat} {T : Type} {s s' : State n T} {berth : Nat → Berth n}

-- The magazines of a cache, and the berth of each. A CPU that has none yet does not
-- count.
structure Depot (s : State n T) (berth : Nat → Berth n) : Prop where
  docked : ∀ m < s.made, ∀ b, Docked s m b ↔ berth m = b
  known : ∀ m, m ∈ s.magazinesFull ∨ m ∈ s.magazinesEmpty → m < s.made
  fullOnce : s.magazinesFull.Nodup
  emptyOnce : s.magazinesEmpty.Nodup
  small : ∀ m < s.made, (s.magazine m).roundCount ≤ magazineSize
  loaded : ∀ m < s.made, ∀ i < (s.magazine m).roundCount, ∃ obj, (s.magazine m).rounds i = some obj
  fulls : ∀ m ∈ s.magazinesFull, (s.magazine m).roundCount = magazineSize
  empties : ∀ m ∈ s.magazinesEmpty, (s.magazine m).roundCount = 0
  secondaries : ∀ cpu, (s.secondary cpu).roundCount = 0 ∨ (s.secondary cpu).roundCount = magazineSize

def Equipped (s : State n T) : Prop := ∀ cpu, (s.cpuCache cpu).primary < s.made ∧ (s.cpuCache cpu).secondary < s.made

-- A magazine is at one berth.
theorem docked_once {m : Nat} {b b' : Berth n} (depot : Depot s berth) (known : m < s.made) (here : Docked s m b)
    (there : Docked s m b') : b = b' := ((depot.docked m known b).mp here).symm.trans ((depot.docked m known b').mp there)

theorem set_cpu_self (cpu : Fin n) (cc : CpuCache T) : (s.setCpu cpu cc).cpuCache cpu = cc := Function.update_self _ _ _

theorem set_cpu_other {cpu other : Fin n} (cc : CpuCache T) (ne : other ≠ cpu) :
    (s.setCpu cpu cc).cpuCache other = s.cpuCache other := Function.update_of_ne ne _ _

-- Nothing in the depot depends on who holds a lock.
theorem lock_magazines (cpu c : Fin n) (holder : Option T) :
    ((s.setCpu cpu { s.cpuCache cpu with lock := holder }).cpuCache c).primary = (s.cpuCache c).primary ∧
      ((s.setCpu cpu { s.cpuCache cpu with lock := holder }).cpuCache c).secondary = (s.cpuCache c).secondary := by
  by_cases same : c = cpu
  · rw [same, set_cpu_self]
    exact ⟨rfl, rfl⟩
  · rw [set_cpu_other _ same]
    exact ⟨rfl, rfl⟩

theorem lock_depot (cpu : Fin n) (holder : Option T) (depot : Depot s berth) :
    Depot (s.setCpu cpu { s.cpuCache cpu with lock := holder }) berth := by
  refine ⟨fun m known b => ?_, depot.known, depot.fullOnce, depot.emptyOnce, depot.small, depot.loaded, depot.fulls, depot.empties,
    fun c => ?_⟩
  · rw [← depot.docked m known b]
    cases b with
    | primary c => rw [Docked, Docked, (lock_magazines cpu c holder).1]
    | secondary c => rw [Docked, Docked, (lock_magazines cpu c holder).2]
    | full => exact Iff.rfl
    | empty => exact Iff.rfl
  · rw [State.secondary, (lock_magazines cpu c holder).2]
    exact depot.secondaries c

theorem lock_equipped (cpu : Fin n) (holder : Option T) (equipped : Equipped s) :
    Equipped (s.setCpu cpu { s.cpuCache cpu with lock := holder }) := by
  intro c
  rw [(lock_magazines cpu c holder).1, (lock_magazines cpu c holder).2]
  exact equipped c

-- A CPU's primary magazine may be filled to any extent.
theorem reload_depot (cpu : Fin n) (magazine : Magazine) (depot : Depot s berth) (equipped : Equipped s)
    (small : magazine.roundCount ≤ magazineSize) (loaded : ∀ i < magazine.roundCount, ∃ obj, magazine.rounds i = some obj) :
    Depot (s.setMagazine (s.cpuCache cpu).primary magazine) berth := by
  have apart : ∀ m b, m < s.made → Docked s m b → b ≠ .primary cpu → m ≠ (s.cpuCache cpu).primary := by
    rintro m b known here ne rfl
    exact ne (docked_once depot known here rfl)
  refine ⟨depot.docked, depot.known, depot.fullOnce, depot.emptyOnce, fun m known => ?_, fun m known => ?_, fun m isFull => ?_,
    fun m isEmpty => ?_, fun c => ?_⟩
  · by_cases same : m = (s.cpuCache cpu).primary
    · rw [same, set_magazine_self]
      exact small
    · rw [set_magazine_other _ same]
      exact depot.small m known
  · by_cases same : m = (s.cpuCache cpu).primary
    · rw [same, set_magazine_self]
      exact loaded
    · rw [set_magazine_other _ same]
      exact depot.loaded m known
  · rw [set_magazine_other _ (apart m .full (depot.known m (.inl isFull)) isFull nofun)]
    exact depot.fulls m isFull
  · rw [set_magazine_other _ (apart m .empty (depot.known m (.inr isEmpty)) isEmpty nofun)]
    exact depot.empties m isEmpty
  · have kept : (s.setMagazine (s.cpuCache cpu).primary magazine).secondary c = s.secondary c :=
      set_magazine_other _ (apart _ (.secondary c) (equipped c).2 rfl nofun)
    rw [kept]
    exact depot.secondaries c

section Exchange

variable {cpu : Fin n} (depot : Depot s berth) (equipped : Equipped s)

include depot equipped

theorem berth_primary (c : Fin n) : berth (s.cpuCache c).primary = .primary c := (depot.docked _ (equipped c).1 (.primary c)).mp rfl

theorem berth_secondary (c : Fin n) : berth (s.cpuCache c).secondary = .secondary c :=
  (depot.docked _ (equipped c).2 (.secondary c)).mp rfl

-- Under cc->lock a CPU takes another primary magazine, and its old one becomes the
-- secondary. The old secondary goes to a list, unless it is the new primary.
def rearranged (s : State n T) (berth : Nat → Berth n) (cpu : Fin n) (new : Nat) (list : Berth n) : Nat → Berth n :=
  Function.update (Function.update (Function.update berth (s.cpuCache cpu).secondary list) (s.cpuCache cpu).primary (.secondary cpu))
    new (.primary cpu)

theorem exchange_depot {new : Nat} {list : Berth n} {lock : Option T} {full empty : List Nat}
    (isList : list = .full ∨ list = .empty) (was : berth new = .secondary cpu ∨ berth new = .full ∨ berth new = .empty)
    (isFull : ∀ m < s.made, m ∈ full ↔ rearranged s berth cpu new list m = .full)
    (isEmpty : ∀ m < s.made, m ∈ empty ↔ rearranged s berth cpu new list m = .empty)
    (known : ∀ m, m ∈ full ∨ m ∈ empty → m < s.made) (fullOnce : full.Nodup) (emptyOnce : empty.Nodup)
    (fulls : ∀ m ∈ full, (s.magazine m).roundCount = magazineSize) (empties : ∀ m ∈ empty, (s.magazine m).roundCount = 0)
    (spent : (s.primary cpu).roundCount = 0 ∨ (s.primary cpu).roundCount = magazineSize) :
    Depot { s.setCpu cpu ⟨lock, new, (s.cpuCache cpu).primary⟩ with magazinesFull := full, magazinesEmpty := empty }
      (rearranged s berth cpu new list) := by
  refine ⟨fun m below b => ?_, known, fullOnce, emptyOnce, depot.small, depot.loaded, fulls, empties, fun c => ?_⟩
  · have first := fun c => depot.docked m below (.primary c)
    have second := fun c => depot.docked m below (.secondary c)
    have primaries := berth_primary depot equipped
    have secondaries := berth_secondary depot equipped
    cases b with
    | full => exact isFull m below
    | empty => exact isEmpty m below
    | primary c =>
        simp only [Docked, Function.update_apply, State.setCpu, rearranged] at first second ⊢
        grind
    | secondary c =>
        simp only [Docked, Function.update_apply, State.setCpu, rearranged] at first second ⊢
        grind
  · by_cases same : c = cpu
    · rw [same, State.secondary]
      dsimp only
      rw [set_cpu_self]
      exact spent
    · rw [State.secondary]
      dsimp only
      rw [set_cpu_other _ same]
      exact depot.secondaries c

omit depot in
theorem exchange_equipped {new : Nat} (known : new < s.made) (made : s'.made = s.made)
    (cpuCache : s'.cpuCache = Function.update s.cpuCache cpu ⟨(s.cpuCache cpu).lock, new, (s.cpuCache cpu).primary⟩) : Equipped s' := by
  intro c
  rw [cpuCache, made]
  by_cases same : c = cpu
  · rw [same, Function.update_self]
    exact ⟨known, (equipped cpu).1⟩
  · rw [Function.update_of_ne same]
    exact equipped c

theorem swap_depot (lock : Option T) (spent : (s.primary cpu).roundCount = 0 ∨ (s.primary cpu).roundCount = magazineSize) :
    Depot (s.setCpu cpu ⟨lock, (s.cpuCache cpu).secondary, (s.cpuCache cpu).primary⟩)
      (rearranged s berth cpu (s.cpuCache cpu).secondary .full) := by
  have primary := berth_primary depot equipped cpu
  have secondary := berth_secondary depot equipped cpu
  refine exchange_depot depot equipped (.inl rfl) (.inl secondary) (fun m below => ?_) (fun m below => ?_) depot.known depot.fullOnce
    depot.emptyOnce depot.fulls depot.empties spent
  · have here := depot.docked m below .full
    simp only [Docked, Function.update_apply, rearranged] at here ⊢
    grind
  · have here := depot.docked m below .empty
    simp only [Docked, Function.update_apply, rearranged] at here ⊢
    grind

-- slab_allocate takes a full magazine, and an empty one goes to the depot for it.
theorem take_full_depot (lock : Option T) {full : Nat} {rest : List Nat} (some : s.magazinesFull = full :: rest)
    (spent : (s.primary cpu).roundCount = 0) (empty : (s.secondary cpu).roundCount = 0) :
    Depot { s.setCpu cpu ⟨lock, full, (s.cpuCache cpu).primary⟩ with
      magazinesFull := rest, magazinesEmpty := (s.cpuCache cpu).secondary :: s.magazinesEmpty } (rearranged s berth cpu full .empty) := by
  have primary := berth_primary depot equipped cpu
  have secondary := berth_secondary depot equipped cpu
  have once := depot.fullOnce
  rw [some, List.nodup_cons] at once
  have isFull : ∀ m ∈ rest, m ∈ s.magazinesFull := fun m member => some ▸ List.mem_cons_of_mem _ member
  have first : full ∈ s.magazinesFull := some ▸ List.mem_cons_self
  have known := depot.known full (.inl first)
  have was := (depot.docked full known .full).mp first
  have absent : (s.cpuCache cpu).secondary ∉ s.magazinesEmpty := fun member =>
    nomatch secondary.symm.trans ((depot.docked _ (equipped cpu).2 .empty).mp member)
  refine exchange_depot depot equipped (.inr rfl) (.inr (.inl was)) (fun m below => ?_) (fun m below => ?_) ?_ once.2
    (List.nodup_cons.mpr ⟨absent, depot.emptyOnce⟩) (fun m member => depot.fulls m (isFull m member)) ?_ (.inl spent)
  · have here := depot.docked m below .full
    simp only [Docked, Function.update_apply, rearranged, some, List.mem_cons] at here ⊢
    grind
  · have here := depot.docked m below .empty
    simp only [Docked, Function.update_apply, rearranged, List.mem_cons] at here ⊢
    grind
  · rintro m (member | member)
    · exact depot.known m (.inl (isFull m member))
    · cases List.mem_cons.mp member with
      | inl same => exact same ▸ (equipped cpu).2
      | inr member => exact depot.known m (.inr member)
  · intro m member
    cases List.mem_cons.mp member with
    | inl same => exact same ▸ empty
    | inr member => exact depot.empties m member

-- slab_free takes an empty magazine, and a full one goes to the depot for it.
theorem take_empty_depot (lock : Option T) {empty : Nat} {rest : List Nat} (some : s.magazinesEmpty = empty :: rest)
    (filled : (s.primary cpu).roundCount = magazineSize) (full : (s.secondary cpu).roundCount = magazineSize) :
    Depot { s.setCpu cpu ⟨lock, empty, (s.cpuCache cpu).primary⟩ with
      magazinesEmpty := rest, magazinesFull := (s.cpuCache cpu).secondary :: s.magazinesFull } (rearranged s berth cpu empty .full) := by
  have primary := berth_primary depot equipped cpu
  have secondary := berth_secondary depot equipped cpu
  have once := depot.emptyOnce
  rw [some, List.nodup_cons] at once
  have isEmpty : ∀ m ∈ rest, m ∈ s.magazinesEmpty := fun m member => some ▸ List.mem_cons_of_mem _ member
  have first : empty ∈ s.magazinesEmpty := some ▸ List.mem_cons_self
  have known := depot.known empty (.inr first)
  have was := (depot.docked empty known .empty).mp first
  have absent : (s.cpuCache cpu).secondary ∉ s.magazinesFull := fun member =>
    nomatch secondary.symm.trans ((depot.docked _ (equipped cpu).2 .full).mp member)
  refine exchange_depot depot equipped (.inl rfl) (.inr (.inr was)) (fun m below => ?_) (fun m below => ?_) ?_
    (List.nodup_cons.mpr ⟨absent, depot.fullOnce⟩) once.2 ?_ (fun m member => depot.empties m (isEmpty m member)) (.inr filled)
  · have here := depot.docked m below .full
    simp only [Docked, Function.update_apply, rearranged, List.mem_cons] at here ⊢
    grind
  · have here := depot.docked m below .empty
    simp only [Docked, Function.update_apply, rearranged, some, List.mem_cons] at here ⊢
    grind
  · rintro m (member | member)
    · cases List.mem_cons.mp member with
      | inl same => exact same ▸ (equipped cpu).2
      | inr member => exact depot.known m (.inl member)
    · exact depot.known m (.inr (isEmpty m member))
  · intro m member
    cases List.mem_cons.mp member with
    | inl same => exact same ▸ full
    | inr member => exact depot.fulls m member

end Exchange

end Depot

end Elysium.Slab
