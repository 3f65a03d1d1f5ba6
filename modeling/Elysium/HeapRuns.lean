import Elysium.HeapSafety

set_option autoImplicit false

namespace Elysium.Heap

open Pmm (pagecountToOrder pmmMaxOrder)
open Transitions (Reachable reachable_invariant execute reachable_execute)

section Steps

variable {n : Nat} {T : Type} [DecidableEq T] {hhdm : Nat} {s s' : State n T} {t : T} {id : CacheId}

theorem alloc_slab_inv {cpu : Fin n} {size : Nat} {cache : Slab.State n T} (inv : Inv hhdm s) (idle : s.pc t = .idle) (positive : 0 < size)
    (small : size ≤ Family.largest .other) (isCache : findCache size = some id)
    (taken : Slab.step id.config (t, .allocate cpu) (s.cache id) = some cache) :
    Inv hhdm ((s.setCache id cache).goto t (.allocating id size)) := by
  obtain ⟨slabs, held, others, calls, empty⟩ := Slab.allocate_step taken
  have moves : CacheStep hhdm s t id 0 cache := ⟨.step _ _ _ (inv.caches id) taken, others, fun slab member => .inl (slabs ▸ member)⟩
  have rest := inv.pcs t
  rw [idle] at rest
  refine cache_inv inv moves ⟨⟨positive, small, isCache⟩, ?_, fun id' ne => ?_⟩ (fun b member => ?_) inv.once
  · rw [set_cache_self]
    exact ⟨calls, empty⟩
  · rw [set_cache_other ne]
    exact rest id'
  · have known := inv.live b member
    refine kept_set_cache known fun origin => ?_
    rw [origin] at known
    rw [held]
    exact known.2

theorem heap_alloc_inv {cpu : Fin n} {size block : Nat} (inv : Inv hhdm s) (idle : s.pc t = .idle) (word : size < 2 ^ 64)
    (taken : heapAlloc hhdm s t cpu size block = some s') : Inv hhdm s' := by
  rw [heapAlloc] at taken
  by_cases zero : size = 0
  · rw [if_pos zero] at taken
    obtain rfl := Option.some.inj taken
    exact inv
  rw [if_neg zero] at taken
  have positive := Nat.pos_of_ne_zero zero
  by_cases large : size > Family.largest .other
  · rw [if_pos large] at taken
    dsimp only at taken
    by_cases allowed : pagecountToOrder (divCeil size pageGranularity) ≤ pmmMaxOrder ∧
        Promised hhdm s (pagecountToOrder (divCeil size pageGranularity)) block
    · rw [if_pos allowed] at taken
      obtain rfl := Option.some.inj taken
      exact alloc_pages_inv inv large (pages_fit positive word allowed.1) allowed.2
    · rw [if_neg allowed] at taken
      cases taken
  · rw [if_neg large] at taken
    have small := Nat.le_of_not_lt large
    obtain ⟨id, isCache, _⟩ := find_cache_some positive small
    rw [isCache] at taken
    dsimp only at taken
    obtain ⟨cache, stepped, rfl⟩ := Option.map_eq_some_iff.mp taken
    exact alloc_slab_inv inv idle positive small isCache stepped

-- The blocks besides one that is freed.
theorem live_erase {b : Block} (inv : Inv hhdm s) (member : b ∈ s.live) :
    (∀ b' ∈ s.live.erase b, b'.origin = b.origin → b'.address ≠ b.address) ∧
      (s.live.erase b).Pairwise fun b b' => b.origin = b'.origin → b.address ≠ b'.address := by
  have symm : ∀ x y : Block, (x.origin = y.origin → x.address ≠ y.address) → (y.origin = x.origin → y.address ≠ x.address) :=
    fun x y ne same => (ne same.symm).symm
  have split := ((List.perm_cons_erase member).pairwise_iff (fun {x y} => symm x y)).mp inv.once
  rw [List.pairwise_cons] at split
  exact ⟨fun b' inside same => symm b b' (split.1 b' inside) same, split.2⟩

theorem free_pages_inv {b : Block} {order p : Nat} (inv : Inv hhdm s) (member : b ∈ s.live) (origin : b.origin = .pages order)
    (inside : (p, order) ∈ s.pages) (address : b.address = p + hhdm) :
    Inv hhdm { s with pages := s.pages.erase (p, order), live := s.live.erase b } := by
  obtain ⟨others, once⟩ := live_erase inv member
  have shrinks : ∀ base bytes h, Holds hhdm { s with pages := s.pages.erase (p, order), live := s.live.erase b } base bytes h →
      Holds hhdm s base bytes h := by
    intro base bytes h holds
    cases h with
    | cache id => exact holds
    | outside => exact holds
    | pages =>
        obtain ⟨q, kept, rest⟩ := holds
        exact ⟨q, List.mem_of_mem_erase kept, rest⟩
  refine ⟨inv.caches, separate_shrink inv.separate shrinks, inv.pagesOnce.sublist (List.erase_sublist.map _), inv.pcs, fun b' kept => ?_, once,
    inv.asserted⟩
  have known := inv.live b' (List.mem_of_mem_erase kept)
  cases origin' : b'.origin with
  | cache id =>
      rw [origin'] at known
      exact known
  | pages order' =>
      rw [origin'] at known
      obtain ⟨sized, q, there, isAddress⟩ := known
      refine ⟨sized, q, ?_, isAddress⟩
      refine (List.mem_erase_of_ne fun same => ?_).mpr there
      obtain ⟨rfl, rfl⟩ := Prod.mk.inj same
      exact others b' kept (origin'.trans origin.symm) (isAddress.trans address.symm)

theorem heap_free_inv {cpu : Fin n} {b : Block} (inv : Inv hhdm s) (idle : s.pc t = .idle) (member : b ∈ s.live) :
    Inv hhdm (heapFree hhdm s t cpu b) := by
  have known := inv.live b member
  rw [heapFree]
  cases origin : b.origin with
  | pages order =>
      rw [origin] at known
      obtain ⟨⟨large, _⟩, p, inside, address⟩ := known
      rw [if_pos large]
      have base : b.address - hhdm = p := by rw [address, Nat.add_sub_cancel]
      have found : (s.pages.find? fun q => q.1 = b.address - hhdm) = some (p, order) := by
        rw [base]
        cases first : s.pages.find? fun q => q.1 = p with
        | none => exact absurd (decide_eq_true rfl) (List.find?_eq_none.mp first (p, order) inside)
        | some q =>
            have fits := List.find?_some first
            have same : q.1 = p := of_decide_eq_true fits
            have isBlock := List.inj_on_of_nodup_map inv.pagesOnce (List.mem_of_find?_eq_some first) inside same
            rw [isBlock]
      rw [found]
      exact free_pages_inv inv member origin inside address
  | cache id =>
      rw [origin] at known
      obtain ⟨⟨_, small, isCache⟩, held⟩ := known
      have rest := inv.pcs t
      rw [idle] at rest
      obtain ⟨cache, taken, slabs, heldAfter, othersPc, hand⟩ := Slab.free_step id.config cpu (rest id) held
      rw [if_neg (Nat.not_lt_of_le small), isCache]
      dsimp only
      rw [taken]
      dsimp only
      obtain ⟨others, once⟩ := live_erase inv member
      have moves : CacheStep hhdm s t id 0 cache := ⟨.step _ _ _ (inv.caches id) taken, othersPc, fun slab inside => .inl (slabs ▸ inside)⟩
      refine cache_inv inv moves ⟨?_, fun id' ne => ?_⟩ (fun b' kept => ?_) once
      · rw [set_cache_self]
        exact hand
      · rw [set_cache_other ne]
        exact rest id'
      · have known' := inv.live b' (List.mem_of_mem_erase kept)
        refine kept_set_cache known' fun origin' => ?_
        rw [origin'] at known'
        rw [heldAfter, Function.update_of_ne (others b' kept (origin'.trans origin.symm))]
        exact known'.2

theorem run_step_moves {block : Nat} {cache : Slab.State n T} (inv : Inv hhdm s)
    (allowed : ¬ (Slab.asks (s.cache id) t ∧ ¬ Promised hhdm s id.family.order block))
    (taken : Slab.step id.config (t, .run (block + hhdm)) (s.cache id) = some cache) : CacheStep hhdm s t id block cache := by
  obtain ⟨spot, frees, berth, slabs⟩ := slab_inv inv id
  refine ⟨.step _ _ _ (inv.caches id) taken, fun u ne => Slab.call_step_others slabs taken ne, fun slab member => ?_⟩
  cases Slab.call_step_slabs taken member with
  | inl old => exact .inl old
  | inr new =>
      by_cases promised : Promised hhdm s id.family.order block
      · exact .inr ⟨promised, new.2⟩
      · exact absurd ⟨new.1, promised⟩ allowed

theorem run_alloc_inv {block size : Nat} (inv : Inv hhdm s) (place : s.pc t = .allocating id size)
    (taken : runCall hhdm s t block (.allocating id size) = some s') : Inv hhdm s' := by
  have ok := inv.pcs t
  rw [place] at ok
  obtain ⟨sized, ⟨calls, empty⟩, rest⟩ := ok
  obtain ⟨spot, frees, berth, slabs⟩ := slab_inv inv id
  rw [runCall] at taken
  by_cases refused : Slab.asks (s.cache id) t ∧ ¬ Promised hhdm s id.family.order block
  · rw [if_pos refused] at taken
    cases taken
  rw [if_neg refused] at taken
  obtain ⟨cache, stepped, taken⟩ := Option.map_eq_some_iff.mp taken
  have moves := run_step_moves inv refused stepped
  cases Slab.alloc_call_cases slabs calls empty stepped with
  | inl going =>
      obtain ⟨stillCalls, stillEmpty, held⟩ := going
      rw [if_neg stillCalls] at taken
      subst taken
      refine cache_goes_on inv moves ?_ fun address isHeld => ?_
      · rw [place]
        refine ⟨sized, ?_, fun id' ne => ?_⟩
        · rw [set_cache_self]
          exact ⟨stillCalls, stillEmpty⟩
        · rw [set_cache_other ne]
          exact rest id' ne
      · rw [held]
        exact isHeld
  | inr done =>
      obtain ⟨idle, address, result, fresh, held⟩ := done
      rw [if_pos idle, result] at taken
      dsimp only at taken
      subst taken
      have old : ∀ b ∈ s.live, b.origin = .cache id → b.address ≠ address := by
        intro b member origin same
        have known := inv.live b member
        rw [origin] at known
        have held := known.2
        rw [same, fresh] at held
        cases held
      refine cache_inv inv moves (fun id' => ?_) (fun b member => ?_) (List.pairwise_cons.mpr ⟨fun b member origin => ?_, inv.once⟩)
      · by_cases same : id' = id
        · rw [same, set_cache_self]
          exact idle
        · rw [set_cache_other same]
          exact rest id' same
      · cases List.mem_cons.mp member with
        | inl new =>
            subst new
            refine ⟨sized, ?_⟩
            rw [set_cache_self, held, Function.update_self]
        | inr member =>
            have known := inv.live b member
            refine kept_set_cache known fun origin => ?_
            rw [held, Function.update_of_ne (old b member origin)]
            rw [origin] at known
            exact known.2
      · exact (old b member origin.symm).symm

theorem run_free_inv {block : Nat} (inv : Inv hhdm s) (place : s.pc t = .freeing id)
    (taken : runCall hhdm s t block (.freeing id) = some s') : Inv hhdm s' := by
  have ok := inv.pcs t
  rw [place] at ok
  obtain ⟨hand, rest⟩ := ok
  obtain ⟨spot, frees, berth, slabs⟩ := slab_inv inv id
  obtain ⟨cache, stepped, taken⟩ := Option.map_eq_some_iff.mp taken
  have notAsking : ¬ (Slab.asks (s.cache id) t ∧ ¬ Promised hhdm s id.family.order block) := fun asking =>
    hand (by rw [asking.1.1]; rfl)
  have moves := run_step_moves inv notAsking stepped
  obtain ⟨held, after⟩ := Slab.free_call_cases slabs hand stepped
  have keeps : ∀ b ∈ s.live, Kept hhdm (s.setCache id cache) b b.origin := by
    intro b member
    have known := inv.live b member
    refine kept_set_cache known fun origin => ?_
    rw [origin] at known
    rw [held]
    exact known.2
  by_cases idle : cache.pc t = .idle
  · rw [if_pos idle] at taken
    subst taken
    refine cache_inv inv moves (fun id' => ?_) keeps inv.once
    by_cases same : id' = id
    · rw [same, set_cache_self]
      exact idle
    · rw [set_cache_other same]
      exact rest id' same
  · rw [if_neg idle] at taken
    subst taken
    refine cache_goes_on inv moves ?_ fun address isHeld => held ▸ isHeld
    rw [place]
    refine ⟨?_, fun id' ne => ?_⟩
    · rw [set_cache_self]
      exact after.resolve_right idle
    · rw [set_cache_other ne]
      exact rest id' ne

theorem write_inv {address : Nat} {word : Option Nat} {cache : Slab.State n T} (inv : Inv hhdm s)
    (taken : Slab.step id.config (t, .write address word) (s.cache id) = some cache) : Inv hhdm (s.setCache id cache) := by
  obtain ⟨slabs, held, pcs⟩ := Slab.write_step taken
  have moves : CacheStep hhdm s t id 0 cache :=
    ⟨.step _ _ _ (inv.caches id) taken, fun u _ => by rw [pcs], fun slab member => .inl (slabs ▸ member)⟩
  exact cache_goes_on inv moves (pc_ok_others (inv.pcs t) (by rw [pcs])) fun address isHeld => held ▸ isHeld

-- Another user of the page allocator gets a block.
theorem take_inv {order block : Nat} (inv : Inv hhdm s) (promised : Promised hhdm s order block) :
    Inv hhdm { s with outside := (block, order) :: s.outside } := by
  have grows : ∀ base bytes h, Holds hhdm { s with outside := (block, order) :: s.outside } base bytes h →
      Holds hhdm s base bytes h ∨ (h = .outside ∧ base = block + hhdm ∧ bytes = orderBytes order) := by
    intro base bytes h holds
    cases h with
    | cache id => exact .inl holds
    | pages => exact .inl holds
    | outside =>
        obtain ⟨p, member, rfl, rfl⟩ := holds
        cases List.mem_cons.mp member with
        | inl new => exact .inr ⟨rfl, by rw [new], by rw [new]⟩
        | inr old => exact .inl ⟨p, old, rfl, rfl⟩
  exact ⟨inv.caches, separate_grow inv.separate promised grows, inv.pagesOnce, inv.pcs, inv.live, inv.once, inv.asserted⟩

theorem give_inv (p : Nat × Nat) (inv : Inv hhdm s) : Inv hhdm { s with outside := s.outside.erase p } := by
  have shrinks : ∀ base bytes h, Holds hhdm { s with outside := s.outside.erase p } base bytes h → Holds hhdm s base bytes h := by
    intro base bytes h holds
    cases h with
    | cache id => exact holds
    | pages => exact holds
    | outside =>
        obtain ⟨q, kept, rest⟩ := holds
        exact ⟨q, List.mem_of_mem_erase kept, rest⟩
  exact ⟨inv.caches, separate_shrink inv.separate shrinks, inv.pagesOnce, inv.pcs, inv.live, inv.once, inv.asserted⟩

end Steps

section Runs

variable {n : Nat} {T : Type} [DecidableEq T] {hhdm : Nat} {s s' : State n T}

theorem step_inv {action : T × Move n} (inv : Inv hhdm s) (taken : step hhdm action s = some s') : Inv hhdm s' := by
  obtain ⟨t, move⟩ := action
  rw [step] at taken
  cases move with
  | alloc cpu size block =>
      dsimp only at taken
      by_cases allowed : s.pc t = .idle ∧ size < 2 ^ 64
      · rw [if_pos allowed] at taken
        exact heap_alloc_inv inv allowed.1 allowed.2 taken
      · rw [if_neg allowed] at taken
        cases taken
  | free cpu address size =>
      dsimp only at taken
      by_cases idle : s.pc t = .idle
      · rw [if_pos idle] at taken
        obtain ⟨b, found, rfl⟩ := Option.map_eq_some_iff.mp taken
        exact heap_free_inv inv idle (List.mem_of_find?_eq_some found)
      · rw [if_neg idle] at taken
        cases taken
  | write id address word =>
      obtain ⟨cache, stepped, rfl⟩ := Option.map_eq_some_iff.mp taken
      exact write_inv inv stepped
  | run block =>
      dsimp only at taken
      cases place : s.pc t with
      | idle =>
          rw [place] at taken
          cases taken
      | allocating id size =>
          rw [place] at taken
          exact run_alloc_inv inv place taken
      | freeing id =>
          rw [place] at taken
          exact run_free_inv inv place taken
  | take order block =>
      dsimp only at taken
      by_cases promised : Promised hhdm s order block
      · rw [if_pos promised] at taken
        obtain rfl := Option.some.inj taken
        exact take_inv inv promised
      · rw [if_neg promised] at taken
        cases taken
  | give order block =>
      dsimp only at taken
      by_cases member : (block, order) ∈ s.outside
      · rw [if_pos member] at taken
        obtain rfl := Option.some.inj taken
        exact give_inv _ inv
      · rw [if_neg member] at taken
        cases taken

-- A live block is an object of a slab, or pages.
theorem live_cases {b : Block} (inv : Inv hhdm s) (member : b ∈ s.live) :
    (∃ id slab i, b.origin = .cache id ∧ slab ∈ (s.cache id).slabs ∧ i < id.config.objects ∧ b.address = id.config.object slab i ∧
      b.size ≤ id.config.objectSize) ∨
    (∃ order p, b.origin = .pages order ∧ (p, order) ∈ s.pages ∧ b.address = p + hhdm ∧ b.size ≤ orderBytes order) := by
  have known := inv.live b member
  cases origin : b.origin with
  | cache id =>
      rw [origin] at known
      obtain ⟨⟨positive, small, isCache⟩, held⟩ := known
      obtain ⟨spot, frees, berth, slabs⟩ := slab_inv inv id
      obtain ⟨slab, isSlab, i, inside, address⟩ := ((slabs.placed b.address .client).mp held).1
      obtain ⟨id', found, fits⟩ := find_cache_some positive small
      rw [isCache, Option.some.injEq] at found
      exact .inl ⟨id, slab, i, rfl, isSlab, inside, address, found ▸ fits⟩
  | pages order =>
      rw [origin] at known
      obtain ⟨⟨_, fits⟩, p, inside, address⟩ := known
      exact .inr ⟨order, p, rfl, inside, address, fits⟩

-- A block lies in a block of the page allocator.
structure Within (hhdm : Nat) (s : State n T) (b : Block) (base bytes : Nat) (h : Holder) : Prop where
  holds : Holds hhdm s base bytes h
  starts : base ≤ b.address
  ends : b.address + b.size ≤ base + bytes

omit [DecidableEq T] in
theorem object_within (hhdm : Nat) {b : Block} {id : CacheId} {slab i : Nat} (isSlab : slab ∈ (s.cache id).slabs) (inside : i < id.config.objects)
    (address : b.address = id.config.object slab i) (fits : b.size ≤ id.config.objectSize) :
    Within hhdm s b slab id.config.bytes (.cache id) ∧ slab + Slab.slabHeader ≤ b.address := by
  have ends : id.config.object slab i + id.config.objectSize ≤ slab + id.config.bytes := Slab.object_ends inside
  rw [← address] at ends
  have starts : slab + Slab.slabHeader ≤ b.address := address ▸ Nat.le_add_right _ _
  exact ⟨⟨⟨isSlab, rfl⟩, Nat.le_of_add_right_le starts, by omega⟩, starts⟩

omit [DecidableEq T] in
theorem pages_within {b : Block} {order p : Nat} (isPage : (p, order) ∈ s.pages) (address : b.address = p + hhdm)
    (fits : b.size ≤ orderBytes order) : Within hhdm s b (p + hhdm) (orderBytes order) .pages :=
  ⟨⟨(p, order), isPage, rfl, rfl⟩, Nat.le_of_eq address.symm, by rw [address]; exact Nat.add_le_add_left fits _⟩

theorem within_apart {b b' : Block} {base base' bytes bytes' : Nat} {h h' : Holder} (inv : Inv hhdm s) (within : Within hhdm s b base bytes h)
    (within' : Within hhdm s b' base' bytes' h') (other : ¬ (h = h' ∧ base = base')) : Apart b.address b.size b'.address b'.size :=
  apart_parts ((inv.separate h h' base base' bytes bytes' within.holds within'.holds).resolve_left other) ⟨within.starts, within.ends⟩
    ⟨within'.starts, within'.ends⟩

-- Two objects of one slab.
theorem objects_apart {cfg : Slab.Config} {slab i j size size' : Nat} (ne : i ≠ j) (fits : size ≤ cfg.objectSize) (fits' : size' ≤ cfg.objectSize) :
    Apart (cfg.object slab i) size (cfg.object slab j) size' := by
  have next : ∀ {i j : Nat}, i < j → cfg.object slab i + cfg.objectSize ≤ cfg.object slab j := by
    intro i j lt
    have := Nat.mul_le_mul_right cfg.objectSize (Nat.succ_le_of_lt lt)
    rw [Nat.succ_mul] at this
    rw [Slab.Config.object, Slab.Config.object]
    omega
  cases Nat.lt_or_gt_of_ne ne with
  | inl lt => exact .inl (Nat.le_trans (Nat.add_le_add_left fits _) (next lt))
  | inr gt => exact .inr (Nat.le_trans (Nat.add_le_add_left fits' _) (next gt))

theorem live_apart {b b' : Block} (inv : Inv hhdm s) (member : b ∈ s.live) (member' : b' ∈ s.live)
    (ne : b.origin = b'.origin → b.address ≠ b'.address) : Apart b.address b.size b'.address b'.size := by
  cases live_cases inv member with
  | inl object =>
      obtain ⟨id, slab, i, origin, isSlab, inside, address, fits⟩ := object
      have within := (object_within hhdm isSlab inside address fits).1
      cases live_cases inv member' with
      | inl object' =>
          obtain ⟨id', slab', j, origin', isSlab', inside', address', fits'⟩ := object'
          by_cases same : id = id' ∧ slab = slab'
          · obtain ⟨rfl, rfl⟩ := same
            rw [address, address'] at ne ⊢
            refine objects_apart (fun sameIndex => ?_) fits fits'
            exact ne (origin.trans origin'.symm) (sameIndex ▸ rfl)
          · refine within_apart inv within (object_within hhdm isSlab' inside' address' fits').1 fun both => same ⟨?_, both.2⟩
            exact Holder.cache.inj both.1
      | inr pages' =>
          obtain ⟨order', p', _, isPage', address', fits'⟩ := pages'
          exact within_apart inv within (pages_within isPage' address' fits') fun both => nomatch both.1
  | inr pages =>
      obtain ⟨order, p, origin, isPage, address, fits⟩ := pages
      have within := pages_within isPage address fits
      cases live_cases inv member' with
      | inl object' =>
          obtain ⟨id', slab', j, _, isSlab', inside', address', fits'⟩ := object'
          exact within_apart inv within (object_within hhdm isSlab' inside' address' fits').1 fun both => nomatch both.1
      | inr pages' =>
          obtain ⟨order', p', origin', isPage', address', fits'⟩ := pages'
          refine within_apart inv within (pages_within isPage' address' fits') fun both => ?_
          have sameBase := Nat.add_right_cancel both.2
          obtain ⟨_, sameOrder⟩ := Prod.mk.inj (List.inj_on_of_nodup_map inv.pagesOnce isPage isPage' sameBase)
          exact ne (by rw [origin, origin', sameOrder]) (by rw [address, address', sameBase])

-- A live block is clear of every slab's header and of the blocks of others.
theorem live_headers {b : Block} {id : CacheId} {slab : Nat} (inv : Inv hhdm s) (member : b ∈ s.live) (isSlab : slab ∈ (s.cache id).slabs) :
    Apart b.address b.size slab Slab.slabHeader := by
  have header : Slab.slabHeader ≤ id.config.bytes := by
    have positive : 1 ≤ 2 ^ id.config.blockOrder := Nat.one_le_two_pow
    exact Nat.le_trans (by decide) (Nat.mul_le_mul_right pageGranularity positive)
  have holds : Holds hhdm s slab id.config.bytes (.cache id) := ⟨isSlab, rfl⟩
  cases live_cases inv member with
  | inl object =>
      obtain ⟨id', slab', i, _, isSlab', inside, address, fits⟩ := object
      obtain ⟨within, starts⟩ := object_within hhdm isSlab' inside address fits
      cases inv.separate _ _ slab' slab _ _ within.holds holds with
      | inl same => exact .inr (same.2 ▸ starts)
      | inr apart => exact apart_parts apart ⟨within.starts, within.ends⟩ ⟨Nat.le_refl _, Nat.add_le_add_left header _⟩
  | inr pages =>
      obtain ⟨order, p, _, isPage, address, fits⟩ := pages
      have within := pages_within isPage address fits
      cases inv.separate _ _ (p + hhdm) slab _ _ within.holds holds with
      | inl same => cases same.1
      | inr apart => exact apart_parts apart ⟨within.starts, within.ends⟩ ⟨Nat.le_refl _, Nat.add_le_add_left header _⟩

theorem live_outside {b : Block} {p : Nat × Nat} (inv : Inv hhdm s) (member : b ∈ s.live) (isOutside : p ∈ s.outside) :
    Apart b.address b.size (p.1 + hhdm) (orderBytes p.2) := by
  have holds : Holds hhdm s (p.1 + hhdm) (orderBytes p.2) .outside := ⟨p, isOutside, rfl, rfl⟩
  have clear : ∀ {base bytes h}, Within hhdm s b base bytes h → h ≠ .outside → Apart b.address b.size (p.1 + hhdm) (orderBytes p.2) := by
    intro base bytes h within other
    have apart := (inv.separate _ _ base _ _ _ within.holds holds).resolve_left fun same => other same.1
    exact apart_parts apart ⟨within.starts, within.ends⟩ ⟨Nat.le_refl _, Nat.le_refl _⟩
  cases live_cases inv member with
  | inl object =>
      obtain ⟨id, slab, i, _, isSlab, inside, address, fits⟩ := object
      exact clear (object_within hhdm isSlab inside address fits).1 nofun
  | inr pages =>
      obtain ⟨order, q, _, isPage, address, fits⟩ := pages
      exact clear (pages_within isPage address fits) nofun

-- slab_direct_alloc can use every block that pmm_alloc hands out, as the HHDM keeps
-- its alignment.
theorem ask_provided {t : T} {id : CacheId} {size block : Nat} (aligned : hhdm % orderBytes 5 = 0) (place : s.pc t = .allocating id size)
    (asking : Slab.asks (s.cache id) t) (promised : Promised hhdm s id.family.order block) : (step hhdm (t, .run block) s).isSome = true := by
  have divides : id.config.bytes ∣ hhdm := Nat.dvd_trans (config_bytes_dvd id) (Nat.dvd_of_mod_eq_zero aligned)
  have fresh : Slab.Fresh id.config (s.cache id) (block + hhdm) := by
    refine ⟨?_, fun member => ?_⟩
    · have block_aligned : id.config.bytes ∣ block := Nat.dvd_of_mod_eq_zero promised.aligned
      exact Nat.mod_eq_zero_of_dvd (Nat.dvd_add block_aligned divides)
    · have apart := promised.slabs id (all_caches_mem id) _ member
      have := order_bytes_pos id.family.order
      have := Slab.bytes_pos id.config
      cases apart with
      | inl left => omega
      | inr right => omega
  obtain ⟨cache, provided⟩ := Slab.provide_some (config_objects id) fresh
  rw [step]
  dsimp only
  rw [place, runCall, if_neg fun refused => refused.2 promised, Option.isSome_map, Slab.step]
  dsimp only
  rw [asking.1, Slab.callStep, Option.isSome_map, provided]
  rfl

theorem returns_of_kept {b : Block} (inv : Inv hhdm s) (member : b ∈ s.live) : Returns hhdm s b b.origin := by
  have known := inv.live b member
  cases origin : b.origin with
  | cache id =>
      rw [origin] at known
      exact ⟨known.1.2.1, known.1.2.2, known.2⟩
  | pages order =>
      rw [origin] at known
      obtain ⟨⟨large, _⟩, p, inside, address⟩ := known
      refine ⟨large, ?_⟩
      rw [address, Nat.add_sub_cancel]
      exact inside

theorem sound_of_inv (aligned : hhdm % orderBytes 5 = 0) (inv : Inv hhdm s) : Sound hhdm s := by
  refine ⟨?_, fun b member id slab isSlab => live_headers inv member isSlab, fun b member p isOutside => live_outside inv member isOutside,
    fun b member => returns_of_kept inv member, fun t id size block => ask_provided aligned, inv.asserted⟩
  exact inv.once.imp_of_mem fun member member' ne => live_apart inv member member' ne

end Runs

-- Whatever is allocated and freed, live blocks of the heap are disjoint and go back
-- to where they came from.
theorem heap_blocks_sound {n : Nat} {T : Type} [DecidableEq T] (hhdm : Nat) (aligned : hhdm % orderBytes 5 = 0) (s : State n T)
    (reach : Reachable (initial hhdm) (step hhdm) s) : Sound hhdm s :=
  sound_of_inv aligned (reachable_invariant (fun _ start => initial_inv start) (fun _ _ _ inv taken => step_inv inv taken) reach)

-- A machine with one CPU, where the slabs of each cache start in 16 MiB of its own.
def number : CacheId → Nat
  | ⟨.x8, i⟩ => i
  | ⟨.x128, i⟩ => 16 + i
  | ⟨.other, i⟩ => 32 + i

theorem number_inj {id id' : CacheId} (same : number id = number id') : id = id' := by
  have all : ∀ id ∈ allCaches, ∀ id' ∈ allCaches, number id = number id' → id = id' := by decide +kernel
  exact all id (all_caches_mem id) id' (all_caches_mem id') same

theorem number_lt (id : CacheId) : number id < 34 := by
  have all : ∀ id ∈ allCaches, number id < 34 := by decide +kernel
  exact all id (all_caches_mem id)

def homeOffset : Nat := 0xffff800000000000

def homeSlab (id : CacheId) (_ : Fin 1) (i : Nat) : Nat := homeOffset + number id * 0x1000000 + i * orderBytes 5

theorem home_slab_aligned (id : CacheId) (c : Fin 1) (i : Nat) : homeSlab id c i % id.config.bytes = 0 := by
  have divides := config_bytes_dvd id
  have offset : orderBytes 5 ∣ homeOffset := Nat.dvd_of_mod_eq_zero (by decide)
  have region : orderBytes 5 ∣ number id * 0x1000000 := Dvd.dvd.mul_left (Nat.dvd_of_mod_eq_zero (by decide)) _
  have all : orderBytes 5 ∣ homeSlab id c i := Nat.dvd_add (Nat.dvd_add offset region) (Nat.dvd_mul_left _ _)
  exact Nat.mod_eq_zero_of_dvd (Nat.dvd_trans divides all)

theorem config_size (id : CacheId) : 8 ≤ id.config.objectSize := by
  have all : ∀ id ∈ allCaches, 8 ≤ id.config.objectSize := by decide +kernel
  exact all id (all_caches_mem id)

theorem home_cache (id : CacheId) :
    ∃ cache : Slab.State 1 Unit, Slab.initial id.config cache ∧ ∀ slab ∈ cache.slabs, ∃ i < 32, slab = homeSlab id 0 i := by
  have distinct : ∀ c c' i i', homeSlab id c i = homeSlab id c' i' → c = c' ∧ i = i' := fun c c' i i' same =>
    ⟨Subsingleton.elim c c', Nat.eq_of_mul_eq_mul_right (order_bytes_pos 5) (Nat.add_left_cancel same)⟩
  obtain ⟨cache, created, slabs⟩ := Slab.create_some (T := Unit) (config_objects id) (config_size id) (home_slab_aligned id) distinct
  refine ⟨cache, ⟨homeSlab id, created⟩, fun slab member => ?_⟩
  obtain ⟨c, i, below, same⟩ := slabs slab member
  exact ⟨i, below, same.trans (congrArg (fun c => homeSlab id c i) (Subsingleton.elim c 0))⟩

theorem home_apart (id id' : CacheId) {i i' : Nat} (below : i < 32) (below' : i' < 32) :
    (id = id' ∧ homeSlab id 0 i = homeSlab id' 0 i') ∨ Apart (homeSlab id 0 i) id.config.bytes (homeSlab id' 0 i') id'.config.bytes := by
  have size : id.config.bytes ≤ orderBytes 5 := Nat.le_of_dvd (order_bytes_pos 5) (config_bytes_dvd id)
  have size' : id'.config.bytes ≤ orderBytes 5 := Nat.le_of_dvd (order_bytes_pos 5) (config_bytes_dvd id')
  have bytes : orderBytes 5 = 0x20000 := by decide
  rw [homeSlab, homeSlab, bytes]
  rw [bytes] at size size'
  by_cases same : id = id'
  · subst same
    by_cases sameIndex : i = i'
    · exact .inl ⟨rfl, by rw [sameIndex]⟩
    · refine .inr ?_
      cases Nat.lt_or_gt_of_ne sameIndex with
      | inl lt => exact .inl (by omega)
      | inr gt => exact .inr (by omega)
  · refine .inr ?_
    have ne : number id ≠ number id' := fun sameNumber => same (number_inj sameNumber)
    cases Nat.lt_or_gt_of_ne ne with
    | inl lt => exact .inl (by omega)
    | inr gt => exact .inr (by omega)

theorem home_initial : ∃ s : State 1 Unit, initial homeOffset s ∧ s.outside = [] ∧
    ∀ id, ∀ slab ∈ (s.cache id).slabs, slab + id.config.bytes ≤ homeOffset + 0x40000000 := by
  choose cache created slabs using home_cache
  refine ⟨⟨cache, [], [], fun _ => .idle, [], false⟩, ⟨created, ?_, rfl, fun _ => rfl, rfl, rfl⟩, rfl, fun id slab member => ?_⟩
  · intro h h' base base' bytes bytes' first second
    cases h with
    | pages => cases first.choose_spec.1
    | outside => cases first.choose_spec.1
    | cache id =>
        cases h' with
        | pages => cases second.choose_spec.1
        | outside => cases second.choose_spec.1
        | cache id' =>
            obtain ⟨member, rfl⟩ := first
            obtain ⟨member', rfl⟩ := second
            obtain ⟨i, below, rfl⟩ := slabs id base member
            obtain ⟨i', below', rfl⟩ := slabs id' base' member'
            cases home_apart id id' below below' with
            | inl same => exact .inl ⟨same.1 ▸ rfl, same.2⟩
            | inr apart => exact .inr apart
  · obtain ⟨i, below, rfl⟩ := slabs id slab member
    have size : id.config.bytes ≤ orderBytes 5 := Nat.le_of_dvd (order_bytes_pos 5) (config_bytes_dvd id)
    have bytes : orderBytes 5 = 0x20000 := by decide
    have := number_lt id
    rw [bytes] at size
    rw [homeSlab, bytes]
    omega

-- Pages above all slabs.
theorem home_promised {s : State 1 Unit} {order block : Nat}
    (slabs : ∀ id, ∀ slab ∈ (s.cache id).slabs, slab + id.config.bytes ≤ homeOffset + 0x40000000) (outside : s.outside = [])
    (pages : ∀ p ∈ s.pages, Apart block (orderBytes order) p.1 (orderBytes p.2)) (aligned : block % orderBytes order = 0)
    (high : 0x40000000 ≤ block) : Promised homeOffset s order block := by
  refine ⟨aligned, fun id _ slab member => .inr ?_, pages, ?_⟩
  · have := slabs id slab member
    omega
  · rw [outside]
    exact nofun

-- Two blocks of two and three pages.
theorem heap_blocks_sound_pages : ∃ s s' : State 1 Unit, initial homeOffset s ∧
    execute (step homeOffset) [((), .alloc 0 5000 0x40000000), ((), .alloc 0 12288 0x40004000)] s = some s' ∧
    s'.live.map (fun b => (b.address, b.size)) = [(homeOffset + 0x40004000, 12288), (homeOffset + 0x40000000, 5000)] ∧
    Sound homeOffset s' := by
  obtain ⟨s, start, outside, slabs⟩ := home_initial
  have idle := start.pcs ()
  have first : Promised homeOffset s 1 0x40000000 := home_promised slabs outside (by rw [start.pages]; exact nofun) (by decide) (by decide)
  let s₁ : State 1 Unit := { s with pages := [(0x40000000, 1)], live := [⟨0x40000000 + homeOffset, 5000, .pages 1⟩] }
  let s₂ : State 1 Unit := { s₁ with
    pages := (0x40004000, 2) :: s₁.pages, live := ⟨0x40004000 + homeOffset, 12288, .pages 2⟩ :: s₁.live }
  have pages : ∀ p ∈ [(0x40000000, 1)], Apart 0x40004000 (orderBytes 2) p.1 (orderBytes p.2) := by decide
  have second : Promised homeOffset s₁ 2 0x40004000 := home_promised slabs outside pages (by decide) (by decide)
  have step₁ : step homeOffset ((), .alloc 0 5000 0x40000000) s = some s₁ := by
    have order : pagecountToOrder (divCeil 5000 pageGranularity) = 1 := by decide
    rw [step]
    dsimp only
    rw [if_pos ⟨idle, by decide⟩, heapAlloc, if_neg (by decide), if_pos (by decide), order]
    dsimp only
    rw [if_pos ⟨by decide, first⟩, start.pages, start.live]
  have step₂ : step homeOffset ((), .alloc 0 12288 0x40004000) s₁ = some s₂ := by
    have order : pagecountToOrder (divCeil 12288 pageGranularity) = 2 := by decide
    rw [step]
    dsimp only
    rw [if_pos ⟨idle, by decide⟩, heapAlloc, if_neg (by decide), if_pos (by decide), order]
    dsimp only
    rw [if_pos ⟨by decide, second⟩]
  have run : execute (step homeOffset) [((), .alloc 0 5000 0x40000000), ((), .alloc 0 12288 0x40004000)] s = some s₂ := by
    rw [execute, step₁]
    show (step homeOffset _ s₁).bind _ = _
    rw [step₂]
    rfl
  exact ⟨s, s₂, start, run, rfl, heap_blocks_sound homeOffset (by decide) s₂ (reachable_execute (.start s start) run)⟩

end Elysium.Heap
