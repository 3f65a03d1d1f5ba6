import Elysium.HeapSizes

set_option autoImplicit false

namespace Elysium.Heap

open Pmm (pagecountToOrder pmmMaxOrder)
open Transitions (Reachable reachable_invariant execute reachable_execute)

theorem apart_symm {a la b lb : Nat} (apart : Apart a la b lb) : Apart b lb a la := Or.symm apart

-- Parts of ranges that are apart are apart.
theorem apart_parts {a la b lb a' la' b' lb' : Nat} (apart : Apart a la b lb) (first : a ≤ a' ∧ a' + la' ≤ a + la)
    (second : b ≤ b' ∧ b' + lb' ≤ b + lb) : Apart a' la' b' lb' := by
  cases apart with
  | inl left => exact .inl (by omega)
  | inr right => exact .inr (by omega)

section Blocks

variable {n : Nat} {T : Type} {hhdm : Nat} {s s' : State n T}

-- No two blocks of the page allocator overlap.
def Separate (hhdm : Nat) (s : State n T) : Prop :=
  ∀ h h' base base' bytes bytes', Holds hhdm s base bytes h → Holds hhdm s base' bytes' h' →
    (h = h' ∧ base = base') ∨ Apart base bytes base' bytes'

theorem promised_apart {order block base bytes : Nat} {h : Holder} (promised : Promised hhdm s order block)
    (holds : Holds hhdm s base bytes h) : Apart (block + hhdm) (orderBytes order) base bytes := by
  cases h with
  | cache id =>
      obtain ⟨member, rfl⟩ := holds
      exact promised.slabs id (all_caches_mem id) base member
  | pages =>
      obtain ⟨p, member, rfl, rfl⟩ := holds
      cases promised.pages p member with
      | inl left => exact .inl (by omega)
      | inr right => exact .inr (by omega)
  | outside =>
      obtain ⟨p, member, rfl, rfl⟩ := holds
      cases promised.outside p member with
      | inl left => exact .inl (by omega)
      | inr right => exact .inr (by omega)

theorem separate_grow {order block : Nat} {owner : Holder} (separate : Separate hhdm s) (promised : Promised hhdm s order block)
    (grows : ∀ base bytes h, Holds hhdm s' base bytes h →
      Holds hhdm s base bytes h ∨ (h = owner ∧ base = block + hhdm ∧ bytes = orderBytes order)) : Separate hhdm s' := by
  intro h h' base base' bytes bytes' first second
  cases grows base bytes h first with
  | inl old =>
      cases grows base' bytes' h' second with
      | inl old' => exact separate h h' base base' bytes bytes' old old'
      | inr new' =>
          obtain ⟨rfl, rfl, rfl⟩ := new'
          exact .inr (apart_symm (promised_apart promised old))
  | inr new =>
      obtain ⟨rfl, rfl, rfl⟩ := new
      cases grows base' bytes' h' second with
      | inl old' => exact .inr (promised_apart promised old')
      | inr new' => exact .inl ⟨new'.1.symm, new'.2.1.symm⟩

theorem separate_shrink (separate : Separate hhdm s) (shrinks : ∀ base bytes h, Holds hhdm s' base bytes h → Holds hhdm s base bytes h) :
    Separate hhdm s' := fun h h' base base' bytes bytes' first second =>
  separate h h' base base' bytes bytes' (shrinks base bytes h first) (shrinks base' bytes' h' second)

-- A cache's step changes what the cache holds.
theorem set_cache_holds {id : CacheId} {cache : Slab.State n T} {base bytes : Nat} {h : Holder}
    (holds : Holds hhdm (s.setCache id cache) base bytes h) :
    Holds hhdm s base bytes h ∨ (h = .cache id ∧ base ∈ cache.slabs ∧ bytes = id.config.bytes) := by
  cases h with
  | pages => exact .inl holds
  | outside => exact .inl holds
  | cache id' =>
      by_cases same : id' = id
      · subst same
        obtain ⟨member, isBytes⟩ := holds
        rw [show (s.setCache id' cache).cache id' = cache from Function.update_self _ _ _] at member
        exact .inr ⟨rfl, member, isBytes⟩
      · obtain ⟨member, isBytes⟩ := holds
        rw [show (s.setCache id cache).cache id' = s.cache id' from Function.update_of_ne same _ _] at member
        exact .inl ⟨member, isBytes⟩

end Blocks

section Invariant

variable {n : Nat} {T : Type} [DecidableEq T] {hhdm : Nat} {s s' : State n T}

def PcOk (s : State n T) (t : T) : Pc → Prop
  | .idle => ∀ id, (s.cache id).pc t = .idle
  | .allocating id size => (0 < size ∧ size ≤ Family.largest .other ∧ findCache size = some id) ∧
      ((s.cache id).pc t ≠ .idle ∧ ((s.cache id).pc t).inHand = none) ∧ ∀ id', id' ≠ id → (s.cache id').pc t = .idle
  | .freeing id => ((s.cache id).pc t).inHand ≠ none ∧ ∀ id', id' ≠ id → (s.cache id').pc t = .idle

-- What is known of a block a client has, by where it comes from.
def Kept (hhdm : Nat) (s : State n T) (block : Block) : Origin → Prop
  | .cache id => (0 < block.size ∧ block.size ≤ Family.largest .other ∧ findCache block.size = some id) ∧
      (s.cache id).held block.address = true
  | .pages order => (block.size > Family.largest .other ∧ block.size ≤ orderBytes order) ∧
      ∃ p, (p, order) ∈ s.pages ∧ block.address = p + hhdm

structure Inv (hhdm : Nat) (s : State n T) : Prop where
  caches : ∀ id, Reachable (Slab.initial id.config) (Slab.step id.config) (s.cache id)
  separate : Separate hhdm s
  pagesOnce : (s.pages.map Prod.fst).Nodup
  pcs : ∀ t, PcOk s t (s.pc t)
  live : ∀ block ∈ s.live, Kept hhdm s block block.origin
  once : s.live.Pairwise fun block block' => block.origin = block'.origin → block.address ≠ block'.address
  asserted : s.failed = false

theorem initial_inv (start : initial hhdm s) : Inv hhdm s := by
  refine ⟨fun id => .start _ (start.caches id), start.apart, ?_, fun t => ?_, ?_, ?_, start.asserted⟩
  · rw [start.pages]
    exact List.nodup_nil
  · rw [start.pcs t]
    intro id
    obtain ⟨supply, created⟩ := start.caches id
    exact Slab.create_idle created t
  · rw [start.live]
    exact nofun
  · rw [start.live]
    exact List.Pairwise.nil

-- One step of thread t in a cache.
structure CacheStep (hhdm : Nat) (s : State n T) (t : T) (id : CacheId) (block : Nat) (cache : Slab.State n T) : Prop where
  reach : Reachable (Slab.initial id.config) (Slab.step id.config) cache
  others : ∀ u, u ≠ t → cache.pc u = (s.cache id).pc u
  slabs : ∀ slab ∈ cache.slabs, slab ∈ (s.cache id).slabs ∨ (Promised hhdm s id.family.order block ∧ slab = block + hhdm)

variable {t : T} {id : CacheId} {block : Nat} {cache : Slab.State n T}

omit [DecidableEq T] in
theorem set_cache_self : (s.setCache id cache).cache id = cache := Function.update_self _ _ _

omit [DecidableEq T] in
theorem set_cache_other {id' : CacheId} (ne : id' ≠ id) : (s.setCache id cache).cache id' = s.cache id' := Function.update_of_ne ne _ _

theorem cache_separate (inv : Inv hhdm s) (moves : CacheStep hhdm s t id block cache) : Separate hhdm (s.setCache id cache) := by
  by_cases asked : ∃ slab ∈ cache.slabs, slab ∉ (s.cache id).slabs
  · obtain ⟨slab, member, new⟩ := asked
    obtain ⟨promised, rfl⟩ := (moves.slabs slab member).resolve_left new
    have grows : ∀ base bytes h, Holds hhdm (s.setCache id cache) base bytes h →
        Holds hhdm s base bytes h ∨ (h = .cache id ∧ base = block + hhdm ∧ bytes = orderBytes id.family.order) := by
      intro base bytes h holds
      cases set_cache_holds holds with
      | inl old => exact .inl old
      | inr here =>
          obtain ⟨rfl, inside, rfl⟩ := here
          cases moves.slabs base inside with
          | inl old => exact .inl ⟨old, rfl⟩
          | inr fresh => exact .inr ⟨rfl, fresh.2, rfl⟩
    exact separate_grow inv.separate promised grows
  · refine separate_shrink inv.separate fun base bytes h holds => ?_
    cases set_cache_holds holds with
    | inl old => exact old
    | inr here =>
        obtain ⟨rfl, inside, rfl⟩ := here
        by_contra new
        exact asked ⟨base, inside, fun old => new ⟨old, rfl⟩⟩

omit [DecidableEq T] in
theorem pc_ok_others {u : T} {pc : Pc} (ok : PcOk s u pc) (same : cache.pc u = (s.cache id).pc u) : PcOk (s.setCache id cache) u pc := by
  have kept : ∀ id', ((s.setCache id cache).cache id').pc u = (s.cache id').pc u := by
    intro id'
    by_cases here : id' = id
    · rw [here, set_cache_self, same]
    · rw [set_cache_other here]
  cases pc with
  | idle =>
      intro id'
      rw [kept]
      exact ok id'
  | allocating id' size =>
      obtain ⟨sized, calls, idle⟩ := ok
      refine ⟨sized, ?_, fun other ne => ?_⟩
      · rw [kept]
        exact calls
      · rw [kept]
        exact idle other ne
  | freeing id' =>
      obtain ⟨calls, idle⟩ := ok
      refine ⟨?_, fun other ne => ?_⟩
      · rw [kept]
        exact calls
      · rw [kept]
        exact idle other ne

omit [DecidableEq T] in
theorem kept_set_cache {b : Block} (kept : Kept hhdm s b b.origin) (held : b.origin = .cache id → cache.held b.address = true) :
    Kept hhdm (s.setCache id cache) b b.origin := by
  cases origin : b.origin with
  | pages order =>
      rw [origin] at kept
      exact kept
  | cache id' =>
      rw [origin] at kept
      refine ⟨kept.1, ?_⟩
      by_cases same : id' = id
      · rw [same, set_cache_self]
        exact held (same ▸ origin)
      · rw [set_cache_other same]
        exact kept.2

-- After the step of a thread in a cache.
theorem cache_inv {pc : Pc} {live : List Block} (inv : Inv hhdm s) (moves : CacheStep hhdm s t id block cache)
    (ok : PcOk (s.setCache id cache) t pc) (kept : ∀ b ∈ live, Kept hhdm (s.setCache id cache) b b.origin)
    (once : live.Pairwise fun b b' => b.origin = b'.origin → b.address ≠ b'.address) :
    Inv hhdm { (s.setCache id cache).goto t pc with live := live } := by
  refine ⟨fun id' => ?_, cache_separate inv moves, inv.pagesOnce, fun u => ?_, kept, once, inv.asserted⟩
  · show Reachable _ _ (Function.update s.cache id cache id')
    by_cases same : id' = id
    · subst same
      rw [Function.update_self]
      exact moves.reach
    · rw [Function.update_of_ne same]
      exact inv.caches id'
  · show PcOk (s.setCache id cache) u (Function.update s.pc t pc u)
    by_cases same : u = t
    · rw [same, Function.update_self]
      exact ok
    · rw [Function.update_of_ne same]
      exact pc_ok_others (inv.pcs u) (moves.others u same)

-- The thread goes on with the blocks as they are.
theorem cache_goes_on (inv : Inv hhdm s) (moves : CacheStep hhdm s t id block cache) (ok : PcOk (s.setCache id cache) t (s.pc t))
    (held : ∀ address, (s.cache id).held address = true → cache.held address = true) : Inv hhdm (s.setCache id cache) := by
  have kept : ∀ b ∈ s.live, Kept hhdm (s.setCache id cache) b b.origin := by
    intro b member
    refine kept_set_cache (inv.live b member) fun origin => held _ ?_
    have known := inv.live b member
    rw [origin] at known
    exact known.2
  have after := cache_inv inv moves ok kept inv.once
  have same : (s.setCache id cache).goto t (s.pc t) = s.setCache id cache := by
    rw [State.goto, show (s.setCache id cache).pc = s.pc from rfl, Function.update_eq_self]
    rfl
  rw [same] at after
  exact after

theorem slab_inv (inv : Inv hhdm s) (id : CacheId) : ∃ spot frees berth, Slab.Inv id.config (s.cache id) spot frees berth :=
  Slab.reachable_inv (inv.caches id)

theorem order_bytes_pos (order : Nat) : 0 < orderBytes order := Nat.mul_pos (Nat.two_pow_pos _) (by decide)

-- heap_alloc of pages.
theorem alloc_pages_inv {size order : Nat} (inv : Inv hhdm s) (large : size > Family.largest .other) (fits : size ≤ orderBytes order)
    (promised : Promised hhdm s order block) :
    Inv hhdm { s with pages := (block, order) :: s.pages, live := ⟨block + hhdm, size, .pages order⟩ :: s.live } := by
  have fresh : ∀ p ∈ s.pages, p.1 ≠ block := by
    intro p member same
    have apart := promised.pages p member
    have := order_bytes_pos order
    have := order_bytes_pos p.2
    rw [same] at apart
    cases apart with
    | inl left => omega
    | inr right => omega
  have grows : ∀ base bytes h, Holds hhdm { s with pages := (block, order) :: s.pages, live := ⟨block + hhdm, size, .pages order⟩ :: s.live }
      base bytes h → Holds hhdm s base bytes h ∨ (h = .pages ∧ base = block + hhdm ∧ bytes = orderBytes order) := by
    intro base bytes h holds
    cases h with
    | cache id => exact .inl holds
    | outside => exact .inl holds
    | pages =>
        obtain ⟨p, member, rfl, rfl⟩ := holds
        cases List.mem_cons.mp member with
        | inl new => exact .inr ⟨rfl, by rw [new], by rw [new]⟩
        | inr old => exact .inl ⟨p, old, rfl, rfl⟩
  have kept : ∀ b ∈ s.live, Kept hhdm { s with pages := (block, order) :: s.pages, live := ⟨block + hhdm, size, .pages order⟩ :: s.live }
      b b.origin := by
    intro b member
    have known := inv.live b member
    cases origin : b.origin with
    | cache id =>
        rw [origin] at known
        exact known
    | pages order' =>
        rw [origin] at known
        obtain ⟨sized, p, inside, address⟩ := known
        exact ⟨sized, p, List.mem_cons_of_mem _ inside, address⟩
  refine ⟨inv.caches, separate_grow inv.separate promised grows, ?_, inv.pcs, fun b member => ?_, ?_, inv.asserted⟩
  · rw [List.map_cons, List.nodup_cons]
    refine ⟨fun member => ?_, inv.pagesOnce⟩
    obtain ⟨p, inside, same⟩ := List.mem_map.mp member
    exact fresh p inside same
  · cases List.mem_cons.mp member with
    | inl new =>
        subst new
        exact ⟨⟨large, fits⟩, block, List.mem_cons_self, rfl⟩
    | inr old => exact kept b old
  · refine List.pairwise_cons.mpr ⟨fun b member origin address => ?_, inv.once⟩
    have known := inv.live b member
    rw [← origin] at known
    obtain ⟨_, p, inside, isAddress⟩ := known
    rw [isAddress] at address
    exact fresh (p, order) inside (Nat.add_right_cancel address).symm

end Invariant

end Elysium.Heap
