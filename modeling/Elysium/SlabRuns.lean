import Elysium.SlabDepot

set_option autoImplicit false

namespace Elysium.Slab

open Transitions (Reachable reachable_invariant execute reachable_execute)

-- The CPU whose magazines a thread has locked.
def Pc.inside {n : Nat} : Pc n → Option (Fin n)
  | .alloc cpu => some cpu
  | .free cpu _ => some cpu
  | _ => none

section Guards

variable {n : Nat} {T : Type} {cfg : Config} {s s' : State n T} {spot : Nat → Place T} {frees : Nat → List Nat} {berth : Nat → Berth n}

-- After a jump back to the start the primary magazine serves the call.
structure Guards (s : State n T) (t : T) : Prop where
  holder : ∀ cpu, (s.pc t).inside = some cpu → (s.cpuCache cpu).lock = some t
  turns : s.turns t ≤ 1
  allocs : ∀ cpu, s.turns t = 1 → s.pc t = .alloc cpu → 0 < (s.primary cpu).roundCount
  frees : ∀ cpu obj, s.turns t = 1 → s.pc t = .free cpu obj → (s.primary cpu).roundCount < magazineSize

-- A thread outside of every critical section.
theorem guards_outside {t : T} (outside : (s.pc t).inside = none) (turns : s.turns t ≤ 1) : Guards s t := by
  refine ⟨fun cpu inside => ?_, turns, fun cpu _ place => ?_, fun cpu obj _ place => ?_⟩
  · rw [outside] at inside
    cases inside
  · rw [place] at outside
    cases outside
  · rw [place] at outside
    cases outside

-- Another thread's step leaves alone the CPUs it has not locked.
theorem guards_other {u : T} (guards : Guards s u) (pc : s'.pc u = s.pc u) (turns : s'.turns u = s.turns u)
    (kept : ∀ cpu, (s.pc u).inside = some cpu → (s'.cpuCache cpu).lock = (s.cpuCache cpu).lock ∧ s'.primary cpu = s.primary cpu) :
    Guards s' u := by
  refine ⟨fun cpu inside => ?_, ?_, fun cpu turn place => ?_, fun cpu obj turn place => ?_⟩
  · rw [pc] at inside
    rw [(kept cpu inside).1]
    exact guards.holder cpu inside
  · rw [turns]
    exact guards.turns
  · rw [pc] at place
    rw [turns] at turn
    rw [(kept cpu (by rw [place]; rfl)).2]
    exact guards.allocs cpu turn place
  · rw [pc] at place
    rw [turns] at turn
    rw [(kept cpu (by rw [place]; rfl)).2]
    exact guards.frees cpu obj turn place

-- The invariants of the slabs and of the magazines read nothing else.
theorem shelves_of_eq (shelves : Shelves cfg s frees) (isPartial : s'.slabsPartial = s.slabsPartial) (isFull : s'.slabsFull = s.slabsFull)
    (slab : s'.slab = s.slab) (link : s'.link = s.link) : Shelves cfg s' frees := by
  cases s
  cases s'
  cases isPartial
  cases isFull
  cases slab
  cases link
  exact ⟨shelves.aligned, shelves.once, shelves.listed, shelves.own, shelves.left, shelves.used⟩

theorem depot_of_eq (depot : Depot s berth) (full : s'.magazinesFull = s.magazinesFull) (empty : s'.magazinesEmpty = s.magazinesEmpty)
    (magazine : s'.magazine = s.magazine) (made : s'.made = s.made) (cpuCache : s'.cpuCache = s.cpuCache) : Depot s' berth := by
  cases s
  cases s'
  cases full
  cases empty
  cases magazine
  cases made
  cases cpuCache
  exact ⟨depot.docked, depot.known, depot.fullOnce, depot.emptyOnce, depot.small, depot.loaded, depot.fulls, depot.empties,
    depot.secondaries⟩

theorem found_of_eq (slabs : s'.slabs = s.slabs) (held : s'.held = s.held) (pc : s'.pc = s.pc) (magazine : s'.magazine = s.magazine)
    (made : s'.made = s.made) (obj : Nat) (p : Place T) : Found s' frees obj p ↔ Found s frees obj p := by
  cases p with
  | client => rw [Found, Found, held]
  | freeing t => rw [Found, Found, pc]
  | round m i => rw [Found, Found, made, magazine]
  | free slab => rw [Found, Found, slabs]

structure Inv (cfg : Config) (s : State n T) (spot : Nat → Place T) (frees : Nat → List Nat) (berth : Nat → Berth n) : Prop where
  shelves : Shelves cfg s frees
  placed : Placed cfg s spot frees
  depot : Depot s berth
  equipped : Equipped s
  guards : ∀ t, Guards s t
  made : s.made = 4 * n
  asserted : s.failed = false

-- Two threads are not inside the same CPU's critical section.
theorem inside_once {t u : T} {cpu c : Fin n} (guards : ∀ t, Guards s t) (mine : (s.pc t).inside = some cpu) (ne : u ≠ t)
    (theirs : (s.pc u).inside = some c) : c ≠ cpu := by
  rintro rfl
  exact ne (Option.some.inj (((guards u).holder c theirs).symm.trans ((guards t).holder c mine)))

-- The primary magazines of two CPUs are two.
theorem reload_primary {cpu c : Fin n} {magazine : Magazine} (depot : Depot s berth) (equipped : Equipped s) (ne : c ≠ cpu) :
    (s.setMagazine (s.cpuCache cpu).primary magazine).primary c = s.primary c := by
  apply set_magazine_other
  intro same
  change (s.cpuCache c).primary = (s.cpuCache cpu).primary at same
  have mine := berth_primary depot equipped cpu
  have theirs := berth_primary depot equipped c
  rw [same, mine] at theirs
  exact ne (Berth.primary.inj theirs).symm

end Guards

section Give

variable {n : Nat} {T : Type} [DecidableEq T] {s : State n T} {frees : Nat → List Nat} {t : T}

theorem give_came (empty : (s.pc t).inHand = none) (obj : Nat) : Came s frees (s.give t obj) frees obj .client := by
  intro o p
  have kept : (.idle : Pc n).inHand = ((s.setHeld obj true).pc t).inHand := empty.symm
  exact (found_goto kept o p).trans (came_client obj o p)

-- The step of a thread does not depend on where it goes on.
theorem came_goto {s' : State n T} {frees' : Nat → List Nat} {obj slab : Nat} (pc : Pc n) (same : s'.pc = s.pc)
    (came : Came s frees s' frees' obj (.free slab)) : Came (s.goto t pc) frees (s'.goto t pc) frees' obj (.free slab) := by
  intro o p
  cases p with
  | client => exact came o .client
  | round m i => exact came o (.round m i)
  | free slab' => exact came o (.free slab')
  | freeing u =>
      have kept : (s'.goto t pc).pc = (s.goto t pc).pc := by rw [State.goto, State.goto, same]
      rw [Found, Found, kept]
      refine ⟨.inl, fun found => found.resolve_right fun there => ?_⟩
      cases there.2

end Give

section Steps

variable {n : Nat} {T : Type} [DecidableEq T] {cfg : Config} {s s' : State n T} {spot : Nat → Place T} {frees : Nat → List Nat}
  {berth : Nat → Berth n} {t : T} {cpu : Fin n} (inv : Inv cfg s spot frees berth)

include inv

-- A thread outside goes on outside, with the same object in its hand.
theorem goto_inv {pc : Pc n} (outside : pc.inside = none) (kept : pc.inHand = (s.pc t).inHand) : Inv cfg (s.goto t pc) spot frees berth := by
  refine ⟨shelves_of_eq inv.shelves rfl rfl rfl rfl, fun obj p => ?_, depot_of_eq inv.depot rfl rfl rfl rfl rfl, inv.equipped,
    fun u => ?_, inv.made, inv.asserted⟩
  · rw [found_goto kept obj p]
    exact inv.placed obj p
  · by_cases same : u = t
    · rw [same]
      exact guards_outside (by rw [goto_self]; exact outside) (inv.guards t).turns
    · exact guards_other (inv.guards u) (goto_other pc same) rfl fun _ _ => ⟨rfl, rfl⟩

-- A thread leaves the critical section of a CPU whose primary magazine it may have
-- changed.
theorem unlock_guards {magazine : Magazine} (pc : Pc n) (mine : (s.pc t).inside = some cpu) (outside : pc.inside = none)
    (pcs : s'.pc = Function.update s.pc t pc) (turns : s'.turns = s.turns)
    (cpuCache : s'.cpuCache = Function.update s.cpuCache cpu { s.cpuCache cpu with lock := none })
    (magazines : s'.magazine = Function.update s.magazine (s.cpuCache cpu).primary magazine) : ∀ u, Guards s' u := by
  intro u
  by_cases same : u = t
  · refine guards_outside ?_ ?_
    · rw [same, pcs, Function.update_self]
      exact outside
    · rw [turns]
      exact (inv.guards u).turns
  · refine guards_other (inv.guards u) ?_ (by rw [turns]) fun c theirs => ?_
    · rw [pcs, Function.update_of_ne same]
    · have ne := inside_once inv.guards mine same theirs
      have kept : s'.cpuCache c = s.cpuCache c := by rw [cpuCache, Function.update_of_ne ne]
      refine ⟨by rw [kept], ?_⟩
      rw [State.primary, kept, magazines]
      exact reload_primary inv.depot inv.equipped ne

-- A thread inside has taken another primary magazine, which serves its call.
theorem again_guards {new : Nat} (mine : (s.pc t).inside = some cpu) (first : s.turns t = 0)
    (allocs : s.pc t = .alloc cpu → 0 < (s.magazine new).roundCount)
    (puts : ∀ obj, s.pc t = .free cpu obj → (s.magazine new).roundCount < magazineSize) (pcs : s'.pc = s.pc)
    (turns : s'.turns = Function.update s.turns t (s.turns t + 1)) (magazines : s'.magazine = s.magazine)
    (cpuCache : s'.cpuCache = Function.update s.cpuCache cpu ⟨(s.cpuCache cpu).lock, new, (s.cpuCache cpu).primary⟩) (u : T) :
    Guards s' u := by
  by_cases same : u = t
  · subst same
    have now : s'.cpuCache cpu = ⟨(s.cpuCache cpu).lock, new, (s.cpuCache cpu).primary⟩ := by rw [cpuCache, Function.update_self]
    have primary : s'.primary cpu = s.magazine new := by rw [State.primary, now, magazines]
    refine ⟨fun c inside => ?_, ?_, fun c _ place => ?_, fun c obj _ place => ?_⟩
    · rw [pcs] at inside
      obtain rfl := Option.some.inj (mine.symm.trans inside)
      rw [now]
      exact (inv.guards u).holder cpu mine
    · rw [turns, Function.update_self, first]
    · rw [pcs] at place
      rw [place] at mine
      obtain rfl := Option.some.inj mine
      rw [primary]
      exact allocs place
    · rw [pcs] at place
      rw [place] at mine
      obtain rfl := Option.some.inj mine
      rw [primary]
      exact puts obj place
  · refine guards_other (inv.guards u) (by rw [pcs]) (by rw [turns, Function.update_of_ne same]) fun c theirs => ?_
    have kept : s'.cpuCache c = s.cpuCache c := by rw [cpuCache, Function.update_of_ne (inside_once inv.guards mine same theirs)]
    rw [State.primary, kept, magazines]
    exact ⟨rfl, rfl⟩

-- slab_allocate takes the last round of the primary magazine.
theorem pop_inv {k obj : Nat} (place : s.pc t = .alloc cpu) (count : (s.primary cpu).roundCount = k + 1)
    (round : (s.primary cpu).rounds k = some obj) :
    Inv cfg (((s.setMagazine (s.cpuCache cpu).primary { s.primary cpu with roundCount := k }).unlock cpu).give t obj)
      (Function.update spot obj .client) frees berth := by
  have empty : (s.pc t).inHand = none := by rw [place]; rfl
  have mine : (s.pc t).inside = some cpu := by rw [place]; rfl
  have known := (inv.equipped cpu).1
  have here : Found s frees obj (.round (s.cpuCache cpu).primary k) := ⟨known, Nat.lt_of_lt_of_eq (Nat.lt_succ_self k) count.symm, round⟩
  have gone : Gone s frees ((s.setMagazine (s.cpuCache cpu).primary { s.primary cpu with roundCount := k }).unlock cpu) frees obj :=
    fun o p => (found_of_eq rfl rfl rfl rfl rfl o p).trans (gone_round inv.placed count here o p)
  have empty' : (((s.setMagazine (s.cpuCache cpu).primary { s.primary cpu with roundCount := k }).unlock cpu).pc t).inHand = none := empty
  have small : (s.primary cpu).roundCount ≤ magazineSize := inv.depot.small _ known
  rw [count] at small
  have loaded : ∀ i < k, ∃ obj, (s.primary cpu).rounds i = some obj := fun i below =>
    inv.depot.loaded _ known i (Nat.lt_of_lt_of_eq (Nat.lt_succ_of_lt below) count.symm)
  have depot := lock_depot cpu none (reload_depot cpu { s.primary cpu with roundCount := k } inv.depot inv.equipped (Nat.le_of_succ_le small) loaded)
  exact ⟨shelves_of_eq inv.shelves rfl rfl rfl rfl, moved inv.placed here gone (give_came empty' obj) fun _ => Iff.rfl,
    depot_of_eq depot rfl rfl rfl rfl rfl, lock_equipped cpu none inv.equipped, unlock_guards inv .idle mine rfl rfl rfl rfl rfl,
    inv.made, inv.asserted⟩

theorem alloc_pass_inv (place : s.pc t = .alloc cpu) : ∃ spot' berth', Inv cfg (allocPass s t cpu) spot' frees berth' := by
  have mine : (s.pc t).inside = some cpu := by rw [place]; rfl
  have known := inv.equipped cpu
  rw [allocPass]
  by_cases some : 0 < (s.primary cpu).roundCount
  · rw [if_pos some]
    obtain ⟨k, count⟩ := Nat.exists_eq_add_of_lt some
    rw [Nat.zero_add] at count
    obtain ⟨obj, round⟩ := inv.depot.loaded _ known.1 k (Nat.lt_of_lt_of_eq (Nat.lt_succ_self k) count.symm)
    have last : (s.primary cpu).roundCount - 1 = k := by rw [count, Nat.add_sub_cancel]
    dsimp only
    rw [last, show (s.primary cpu).rounds k = .some obj from round]
    exact ⟨_, _, pop_inv inv place count round⟩
  · rw [if_neg some]
    have spent : (s.primary cpu).roundCount = 0 := Nat.eq_zero_of_not_pos some
    have first : s.turns t = 0 := by
      have once := (inv.guards t).turns
      by_contra again
      exact some ((inv.guards t).allocs cpu (by omega) place)
    by_cases full : (s.secondary cpu).roundCount = magazineSize
    · rw [if_pos full]
      have depot := swap_depot inv.depot inv.equipped (s.cpuCache cpu).lock (.inl spent)
      refine ⟨spot, _, shelves_of_eq inv.shelves rfl rfl rfl rfl, inv.placed, depot_of_eq depot rfl rfl rfl rfl rfl,
        exchange_equipped inv.equipped known.2 rfl rfl, again_guards inv mine first (fun _ => ?_) (fun obj other => ?_) rfl rfl rfl rfl,
        inv.made, inv.asserted⟩
      · exact Nat.lt_of_lt_of_eq (by decide) full.symm
      · rw [place] at other
        cases other
    · rw [if_neg full]
      have empty := (inv.depot.secondaries cpu).resolve_right full
      cases stock : s.magazinesFull with
      | nil =>
          dsimp only
          have depot := lock_depot cpu none inv.depot
          have kept : (.allocDirect : Pc n).inHand = (s.pc t).inHand := by rw [place]; rfl
          refine ⟨spot, berth, shelves_of_eq inv.shelves rfl rfl rfl rfl, fun obj p => ?_, depot_of_eq depot rfl rfl rfl rfl rfl,
            lock_equipped cpu none inv.equipped,
            unlock_guards inv .allocDirect mine rfl rfl rfl rfl (Function.update_eq_self _ _).symm, inv.made, inv.asserted⟩
          exact (found_goto kept obj p).trans (inv.placed obj p)
      | cons magazine rest =>
          dsimp only
          have member : magazine ∈ s.magazinesFull := stock ▸ List.mem_cons_self
          have depot := take_full_depot inv.depot inv.equipped (s.cpuCache cpu).lock stock spent empty
          refine ⟨spot, _, shelves_of_eq inv.shelves rfl rfl rfl rfl, inv.placed, depot_of_eq depot rfl rfl rfl rfl rfl,
            exchange_equipped inv.equipped (inv.depot.known magazine (.inl member)) rfl rfl,
            again_guards inv mine first (fun _ => ?_) (fun obj other => ?_) rfl rfl rfl rfl, inv.made, inv.asserted⟩
          · exact Nat.lt_of_lt_of_eq (by decide) (inv.depot.fulls magazine member).symm
          · rw [place] at other
            cases other

-- slab_free puts an object behind the last round of the primary magazine.
theorem push_inv {k obj : Nat} (place : s.pc t = .free cpu obj) (count : (s.primary cpu).roundCount = k) (room : k < magazineSize) :
    Inv cfg (((s.setMagazine (s.cpuCache cpu).primary ⟨k + 1, Function.update (s.primary cpu).rounds k (some obj)⟩).unlock cpu).goto t .idle)
      (Function.update spot obj (.round (s.cpuCache cpu).primary k)) frees berth := by
  have hand : (s.pc t).inHand = some obj := by rw [place]; rfl
  have mine : (s.pc t).inside = some cpu := by rw [place]; rfl
  have known := (inv.equipped cpu).1
  have here : Found s frees obj (.freeing t) := hand
  have gone : Gone s frees (s.goto t .idle) frees obj := gone_hand inv.placed hand rfl
  have came : Came (s.goto t .idle) frees ((s.goto t .idle).setMagazine (s.cpuCache cpu).primary
      ⟨k + 1, Function.update (s.primary cpu).rounds k (some obj)⟩) frees obj (.round (s.cpuCache cpu).primary k) := by
    refine came_round known (Nat.lt_succ_self k) (Function.update_self _ _ _) (fun o found => ?_) (fun i ne o => ?_)
    · exact absurd found.2.1 (Nat.not_lt_of_le (Nat.le_of_eq count))
    · have bounds : i < k + 1 ↔ i < (s.primary cpu).roundCount := by omega
      dsimp only
      rw [Function.update_of_ne ne, bounds]
      exact Iff.rfl
  have loaded : ∀ i < k + 1, ∃ obj', Function.update (s.primary cpu).rounds k (some obj) i = some obj' := by
    intro i below
    by_cases last : i = k
    · rw [last, Function.update_self]
      exact ⟨obj, rfl⟩
    · rw [Function.update_of_ne last]
      exact inv.depot.loaded _ known i (by rw [show (s.magazine _).roundCount = k from count]; omega)
  have depot := lock_depot cpu none (reload_depot cpu ⟨k + 1, Function.update (s.primary cpu).rounds k (some obj)⟩ inv.depot inv.equipped
    room loaded)
  have found : Came (s.goto t .idle) frees (((s.setMagazine (s.cpuCache cpu).primary
      ⟨k + 1, Function.update (s.primary cpu).rounds k (some obj)⟩).unlock cpu).goto t .idle) frees obj (.round (s.cpuCache cpu).primary k) :=
    fun o p => (found_of_eq rfl rfl rfl rfl rfl o p).trans (came o p)
  refine ⟨shelves_of_eq inv.shelves rfl rfl rfl rfl, moved inv.placed here gone found fun _ => Iff.rfl,
    depot_of_eq depot rfl rfl rfl rfl rfl, lock_equipped cpu none inv.equipped, unlock_guards inv .idle mine rfl rfl rfl rfl rfl,
    inv.made, inv.asserted⟩

theorem free_pass_inv {obj : Nat} (place : s.pc t = .free cpu obj) : ∃ spot' berth', Inv cfg (freePass s t cpu obj) spot' frees berth' := by
  have mine : (s.pc t).inside = some cpu := by rw [place]; rfl
  have known := inv.equipped cpu
  rw [freePass]
  by_cases room : (s.primary cpu).roundCount < magazineSize
  · rw [if_pos room]
    exact ⟨_, _, push_inv inv place rfl room⟩
  · rw [if_neg room]
    have filled : (s.primary cpu).roundCount = magazineSize := Nat.le_antisymm (inv.depot.small _ known.1) (Nat.le_of_not_lt room)
    have first : s.turns t = 0 := by
      have once := (inv.guards t).turns
      by_contra again
      exact room ((inv.guards t).frees cpu obj (by omega) place)
    by_cases empty : (s.secondary cpu).roundCount = 0
    · rw [if_pos empty]
      have depot := swap_depot inv.depot inv.equipped (s.cpuCache cpu).lock (.inr filled)
      refine ⟨spot, _, shelves_of_eq inv.shelves rfl rfl rfl rfl, inv.placed, depot_of_eq depot rfl rfl rfl rfl rfl,
        exchange_equipped inv.equipped known.2 rfl rfl, again_guards inv mine first (fun other => ?_) (fun _ _ => ?_) rfl rfl rfl rfl,
        inv.made, inv.asserted⟩
      · rw [place] at other
        cases other
      · exact Nat.lt_of_le_of_lt (Nat.le_of_eq empty) (by decide)
    · rw [if_neg empty]
      have full := (inv.depot.secondaries cpu).resolve_left empty
      cases stock : s.magazinesEmpty with
      | nil =>
          dsimp only
          have depot := lock_depot cpu none inv.depot
          have kept : (.freeDirect obj : Pc n).inHand = (s.pc t).inHand := by rw [place]; rfl
          refine ⟨spot, berth, shelves_of_eq inv.shelves rfl rfl rfl rfl, fun o p => ?_, depot_of_eq depot rfl rfl rfl rfl rfl,
            lock_equipped cpu none inv.equipped,
            unlock_guards inv (.freeDirect obj) mine rfl rfl rfl rfl (Function.update_eq_self _ _).symm, inv.made, inv.asserted⟩
          exact (found_goto kept o p).trans (inv.placed o p)
      | cons magazine rest =>
          dsimp only
          have member : magazine ∈ s.magazinesEmpty := stock ▸ List.mem_cons_self
          have depot := take_empty_depot inv.depot inv.equipped (s.cpuCache cpu).lock stock filled full
          refine ⟨spot, _, shelves_of_eq inv.shelves rfl rfl rfl rfl, inv.placed, depot_of_eq depot rfl rfl rfl rfl rfl,
            exchange_equipped inv.equipped (inv.depot.known magazine (.inr member)) rfl rfl,
            again_guards inv mine first (fun other => ?_) (fun _ _ => ?_) rfl rfl rfl rfl, inv.made, inv.asserted⟩
          · rw [place] at other
            cases other
          · exact Nat.lt_of_le_of_lt (Nat.le_of_eq (inv.depot.empties magazine member)) (by decide)

theorem acquire_inv {pc : Pc n} (enters : pc.inside = some cpu) (kept : pc.inHand = (s.pc t).inHand)
    (taken : acquire s t cpu pc = some s') : Inv cfg s' spot frees berth := by
  rw [acquire] at taken
  by_cases isFree : (s.cpuCache cpu).lock = none
  · rw [if_pos isFree, Option.some.injEq] at taken
    subst taken
    refine ⟨shelves_of_eq inv.shelves rfl rfl rfl rfl, fun obj p => ?_, depot_of_eq (lock_depot cpu (some t) inv.depot) rfl rfl rfl rfl rfl,
      lock_equipped cpu (some t) inv.equipped, fun u => ?_, inv.made, inv.asserted⟩
    · exact (found_goto kept obj p).trans (inv.placed obj p)
    · by_cases same : u = t
      · subst same
        have reset : Function.update s.turns u 0 u = 0 := Function.update_self _ _ _
        refine ⟨fun c inside => ?_, Nat.le_trans (Nat.le_of_eq reset) (Nat.zero_le 1), fun c turn => ?_, fun c obj turn => ?_⟩
        · have here : (Function.update s.pc u pc u).inside = some c := inside
          rw [Function.update_self, enters, Option.some.injEq] at here
          have locked : (s.setCpu cpu { s.cpuCache cpu with lock := some u }).cpuCache cpu = { s.cpuCache cpu with lock := some u } :=
            set_cpu_self _ _
          exact here ▸ congrArg CpuCache.lock locked
        · cases reset.symm.trans turn
        · cases reset.symm.trans turn
      · refine guards_other (inv.guards u) (Function.update_of_ne same _ _) (Function.update_of_ne same _ _) fun c theirs => ?_
        have ne : c ≠ cpu := by
          rintro rfl
          cases isFree.symm.trans ((inv.guards u).holder c theirs)
        have kept : (s.setCpu cpu { s.cpuCache cpu with lock := some t }).cpuCache c = s.cpuCache c := set_cpu_other _ ne
        exact ⟨congrArg CpuCache.lock kept, congrArg (fun cc : CpuCache T => s.magazine cc.primary) kept⟩
  · rw [if_neg isFree] at taken
    cases taken

-- What a step in the lower half keeps, after which its thread is outside.
theorem lower_inv {pc : Pc n} {spot' : Nat → Place T} {frees' : Nat → List Nat} (shelves : Shelves cfg s' frees')
    (placed : Placed cfg s' spot' frees') (full : s'.magazinesFull = s.magazinesFull) (empty : s'.magazinesEmpty = s.magazinesEmpty)
    (magazine : s'.magazine = s.magazine) (made : s'.made = s.made) (cpuCache : s'.cpuCache = s.cpuCache) (turns : s'.turns = s.turns)
    (failed : s'.failed = s.failed) (pcs : s'.pc = Function.update s.pc t pc) (outside : pc.inside = none) :
    Inv cfg s' spot' frees' berth := by
  refine ⟨shelves, placed, depot_of_eq inv.depot full empty magazine made cpuCache, ?_, fun u => ?_, made.trans inv.made,
    failed.trans inv.asserted⟩
  · intro c
    rw [cpuCache, made]
    exact inv.equipped c
  · by_cases same : u = t
    · refine guards_outside ?_ ?_
      · rw [same, pcs, Function.update_self]
        exact outside
      · rw [turns]
        exact (inv.guards u).turns
    · refine guards_other (inv.guards u) (by rw [pcs, Function.update_of_ne same]) (by rw [turns]) fun c _ => ?_
      rw [State.primary, cpuCache, magazine]
      exact ⟨rfl, rfl⟩

theorem alloc_direct_inv {block : Nat} (place : s.pc t = .allocDirect) (taken : callStep cfg s t block .allocDirect = some s') :
    ∃ spot' frees', Inv cfg s' spot' frees' berth := by
  rw [callStep, Option.map_eq_some_iff] at taken
  obtain ⟨s₁, provided, taken⟩ := taken
  obtain ⟨frees₁, spot₁, shelves, placed, frame₁, stocked⟩ := provide_spec inv.shelves inv.placed provided
  obtain ⟨obj, slab, frees₂, s₂, took, here, shelves₂, gone, same, frame₂⟩ := take_object_spec shelves placed stocked
  rw [took] at taken
  dsimp only at taken
  subst taken
  have frame := slabs_only_trans frame₁ frame₂
  have empty : (s₂.pc t).inHand = none := by
    rw [frame.pc, place]
    rfl
  have pcs : Function.update s₂.pc t .idle = Function.update s.pc t .idle := by rw [frame.pc]
  refine ⟨Function.update spot₁ obj .client, frees₂, ?_⟩
  exact lower_inv inv (shelves_of_eq shelves₂ rfl rfl rfl rfl) (moved placed here gone (give_came empty obj) same)
    frame.full frame.empty frame.magazine frame.made frame.cpuCache frame.turns frame.failed pcs rfl

-- An object in a place is on no freelist.
omit [DecidableEq T] in
theorem absent_of_found {obj : Nat} {p : Place T} (here : Found s frees obj p) (other : ∀ slab, p ≠ .free slab) :
    ∀ slab ∈ s.slabs, obj ∉ frees slab := fun slab member inside =>
  other slab (((inv.placed obj p).mp here).2.symm.trans ((inv.placed obj (.free slab)).mp ⟨member, inside⟩).2)

theorem free_direct_inv {block obj : Nat} (place : s.pc t = .freeDirect obj) (taken : callStep cfg s t block (.freeDirect obj) = some s') :
    ∃ spot' frees', Inv cfg s' spot' frees' berth := by
  have hand : (s.pc t).inHand = some obj := by rw [place]; rfl
  have here : Found s frees obj (.freeing t) := hand
  obtain ⟨frees', s₁, freed, shelves, came, same, frame⟩ := direct_free_spec inv.shelves ((inv.placed _ _).mp here).1
    (absent_of_found inv here nofun)
  rw [callStep, freed] at taken
  obtain rfl := Option.some.inj taken
  have gone : Gone s frees (s.goto t .idle) frees obj := gone_hand inv.placed hand rfl
  have pcs : Function.update s₁.pc t .idle = Function.update s.pc t .idle := by rw [frame.pc]
  exact ⟨_, _, lower_inv inv (shelves_of_eq shelves rfl rfl rfl rfl) (moved inv.placed here gone (came_goto .idle frame.pc came) same)
    frame.full frame.empty frame.magazine frame.made frame.cpuCache frame.turns frame.failed pcs rfl⟩

-- A client calls slab_free with an object it has.
theorem call_free_inv {obj : Nat} {pc : Pc n} (place : s.pc t = .idle) (held : s.held obj = true) (outside : pc.inside = none)
    (hand : pc.inHand = some obj) : Inv cfg ((s.setHeld obj false).goto t pc) (Function.update spot obj (.freeing t)) frees berth := by
  have here : Found s frees obj .client := held
  have empty : ((s.setHeld obj false).pc t).inHand = none := by
    rw [show (s.setHeld obj false).pc t = .idle from place]
    rfl
  exact lower_inv inv (shelves_of_eq inv.shelves rfl rfl rfl rfl)
    (moved inv.placed here (gone_client inv.placed held) (came_hand empty hand) fun _ => Iff.rfl) rfl rfl rfl rfl rfl rfl rfl rfl outside

-- What a client writes to its objects is none of the cache's business.
omit [DecidableEq T] in
theorem write_inv {obj : Nat} (word : Option Nat) (held : s.held obj = true) :
    Inv cfg { s with link := Function.update s.link obj word } spot frees berth := by
  have here : Found s frees obj .client := held
  have listed := write_listed word inv.shelves.listed (absent_of_found inv here nofun)
  exact ⟨⟨inv.shelves.aligned, inv.shelves.once, listed, inv.shelves.own, inv.shelves.left, inv.shelves.used⟩, inv.placed,
    depot_of_eq inv.depot rfl rfl rfl rfl rfl, inv.equipped, fun u => guards_other (inv.guards u) rfl rfl fun _ _ => ⟨rfl, rfl⟩, inv.made,
    inv.asserted⟩

theorem call_step_inv {block : Nat} (taken : callStep cfg s t block (s.pc t) = some s') :
    ∃ spot' frees' berth', Inv cfg s' spot' frees' berth' := by
  cases place : s.pc t with
  | idle =>
      rw [place] at taken
      cases taken
  | allocEnter cpu =>
      rw [place] at taken
      have kept : (.alloc cpu : Pc n).inHand = (s.pc t).inHand := by rw [place]; rfl
      exact ⟨spot, frees, berth, acquire_inv inv rfl kept taken⟩
  | alloc cpu =>
      rw [place] at taken
      obtain rfl := Option.some.inj taken
      obtain ⟨spot', berth', inv'⟩ := alloc_pass_inv inv place
      exact ⟨spot', frees, berth', inv'⟩
  | allocDirect =>
      rw [place] at taken
      obtain ⟨spot', frees', inv'⟩ := alloc_direct_inv inv place taken
      exact ⟨spot', frees', berth, inv'⟩
  | freeEnter cpu obj =>
      rw [place] at taken
      have kept : (.free cpu obj : Pc n).inHand = (s.pc t).inHand := by rw [place]; rfl
      exact ⟨spot, frees, berth, acquire_inv inv rfl kept taken⟩
  | free cpu obj =>
      rw [place] at taken
      obtain rfl := Option.some.inj taken
      obtain ⟨spot', berth', inv'⟩ := free_pass_inv inv place
      exact ⟨spot', frees, berth', inv'⟩
  | freeDirect obj =>
      rw [place] at taken
      obtain ⟨spot', frees', inv'⟩ := free_direct_inv inv place taken
      exact ⟨spot', frees', berth, inv'⟩

end Steps

section Runs

variable {n : Nat} {T : Type} [DecidableEq T] {cfg : Config} {s s' : State n T}

theorem step_inv {action : T × Move n} (inv : ∃ spot frees berth, Inv cfg s spot frees berth) (taken : step cfg action s = some s') :
    ∃ spot frees berth, Inv cfg s' spot frees berth := by
  obtain ⟨spot, frees, berth, inv⟩ := inv
  obtain ⟨t, move⟩ := action
  cases move with
  | allocate cpu =>
      rw [step] at taken
      dsimp only at taken
      by_cases idle : s.pc t = .idle
      · rw [if_pos idle] at taken
        obtain rfl := Option.some.inj taken
        cases s.cpuCacheEnabled with
        | false => exact ⟨spot, frees, berth, goto_inv inv rfl (by rw [idle]; rfl)⟩
        | true => exact ⟨spot, frees, berth, goto_inv inv rfl (by rw [idle]; rfl)⟩
      · rw [if_neg idle] at taken
        cases taken
  | free cpu obj =>
      rw [step] at taken
      dsimp only at taken
      by_cases allowed : s.pc t = .idle ∧ s.held obj = true
      · rw [if_pos allowed] at taken
        obtain rfl := Option.some.inj taken
        cases s.cpuCacheEnabled with
        | false => exact ⟨_, frees, berth, call_free_inv inv allowed.1 allowed.2 rfl rfl⟩
        | true => exact ⟨_, frees, berth, call_free_inv inv allowed.1 allowed.2 rfl rfl⟩
      · rw [if_neg allowed] at taken
        cases taken
  | write obj word =>
      rw [step] at taken
      dsimp only at taken
      by_cases held : s.held obj = true
      · rw [if_pos held] at taken
        obtain rfl := Option.some.inj taken
        exact ⟨spot, frees, berth, write_inv inv word held⟩
      · rw [if_neg held] at taken
        cases taken
  | run block => exact call_step_inv inv taken

end Runs

end Elysium.Slab
