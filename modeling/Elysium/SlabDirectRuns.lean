import Elysium.SlabDirect

set_option autoImplicit false

namespace Elysium.SlabDirect

open Chain (Linked chain_congr chain_head chain_nodup)
open LittleEndian (Memory load store)
open Slab (Config slabHeader)
open Pmm (pmmMaxOrder)

section Words

variable {cfg : Config} {slab other : Address} {m m' : Memory}

theorem word_put (a : Address) (value : BitVec 64) (m : Memory) : word (put a value m) a = value := by
  rw [word, put, LittleEndian.load_store a value 8 m (by decide)]
  simp

theorem put_outside (a : Address) (value : BitVec 64) (m : Memory) (b : Address) (fits : a.toNat + 8 ≤ 2 ^ 64)
    (outside : ¬ (a.toNat ≤ b.toNat ∧ b.toNat < a.toNat + 8)) : put a value m b = m b := by
  refine LittleEndian.store_outside a value m ?_
  rw [BitVec.toNat_sub]
  have small := b.isLt
  omega

-- A word does not change when none of its bytes do.
theorem word_congr (a : Address) (fits : a.toNat + 8 ≤ 2 ^ 64)
    (same : ∀ b : Address, a.toNat ≤ b.toNat → b.toNat < a.toNat + 8 → m' b = m b) : word m' a = word m a := by
  refine LittleEndian.load_congr 8 fun i less => same _ ?_ ?_ <;>
    rw [BitVec.toNat_add, BitVec.toNat_ofNat, Nat.mod_eq_of_lt (a := i) (by omega), Nat.mod_eq_of_lt (by omega)] <;>
    omega

-- Two words of one block that do not overlap.
theorem word_put_other (block : IsBlock cfg slab) {offset offset' : Nat} (value : BitVec 64) (fits : offset + 8 ≤ cfg.bytes)
    (fits' : offset' + 8 ≤ cfg.bytes) (apart : offset + 8 ≤ offset' ∨ offset' + 8 ≤ offset) :
    word (put (place slab offset) value m) (place slab offset') = word m (place slab offset') := by
  have ends := block_ends block
  have here := place_to_nat block (show offset < cfg.bytes by omega)
  have there := place_to_nat block (show offset' < cfg.bytes by omega)
  exact LittleEndian.load_store_apart _ _ _ _ (by omega) (by omega) (by omega)

end Words

-- A pointer, unless it is null.
def pointer (value : BitVec 64) : Option Address := if value = 0 then none else some value

-- What the first word of a free object names.
def follow (m : Memory) (obj : Address) : Option Address := pointer (word m obj)

-- The freelist of a slab, threaded through its objects.
structure Shelf (cfg : Config) (m : Memory) (slab : Address) (frees : List Address) : Prop where
  chain : Linked (follow m) (pointer (word m (freelist slab))) frees
  count : word m (freeCount slab) = BitVec.ofNat 64 frees.length
  own : ∀ obj ∈ frees, ∃ i < cfg.objects, obj = object cfg slab i

section Shelves

variable {cfg : Config} {slab other : Address} {m m' : Memory} {frees : List Address} {i : Nat}

theorem header_fits (cfg : Config) : slabHeader ≤ cfg.bytes := by
  have positive := Nat.two_pow_pos cfg.blockOrder
  simp only [slabHeader, Config.bytes, pageGranularity]
  omega

theorem object_to_nat (block : IsBlock cfg slab) (sized : 8 ≤ cfg.objectSize) (inside : i < cfg.objects) :
    (object cfg slab i).toNat = slab.toNat + slabHeader + i * cfg.objectSize := by
  have ends := object_ends inside
  rw [object, place_to_nat block (by omega), Nat.add_assoc]

theorem object_pos (block : IsBlock cfg slab) (sized : 8 ≤ cfg.objectSize) (inside : i < cfg.objects) : object cfg slab i ≠ 0 := by
  intro zero
  have place := object_to_nat block sized inside
  have null : (0 : Address).toNat = 0 := rfl
  rw [zero, null] at place
  unfold slabHeader at place
  omega

theorem object_inj (block : IsBlock cfg slab) (sized : 8 ≤ cfg.objectSize) {j : Nat} (inside : i < cfg.objects) (inside' : j < cfg.objects)
    (same : object cfg slab i = object cfg slab j) : i = j := by
  have places := congrArg BitVec.toNat same
  rw [object_to_nat block sized inside, object_to_nat block sized inside'] at places
  exact Nat.eq_of_mul_eq_mul_right (by omega : 0 < cfg.objectSize) (by omega)

theorem slab_of_object (block : IsBlock cfg slab) (sized : 8 ≤ cfg.objectSize) (inside : i < cfg.objects) :
    object cfg slab i &&& slabMask cfg = slab := by
  have ends := object_ends inside
  exact slab_of_place block (by omega)

-- A shelf takes no notice of what happens to other bytes than these.
def Keeps (slab : Address) (frees : List Address) (m m' : Memory) : Prop :=
  (∀ a : Address, slab.toNat ≤ a.toNat → a.toNat < slab.toNat + slabHeader → m' a = m a) ∧
    ∀ obj ∈ frees, ∀ a : Address, obj.toNat ≤ a.toNat → a.toNat < obj.toNat + 8 → m' a = m a

theorem shelf_congr (block : IsBlock cfg slab) (sized : 8 ≤ cfg.objectSize) (shelf : Shelf cfg m slab frees)
    (keeps : Keeps slab frees m m') : Shelf cfg m' slab frees := by
  have ends := block_ends block
  have fits := header_fits cfg
  unfold slabHeader at fits
  have field : ∀ offset, offset + 8 ≤ slabHeader → word m' (place slab offset) = word m (place slab offset) := by
    intro offset within
    unfold slabHeader at within
    have here := place_to_nat block (show offset < cfg.bytes by omega)
    refine word_congr _ (by omega) fun b above below => keeps.1 b (by omega) ?_
    unfold slabHeader
    omega
  have same : ∀ obj ∈ frees, follow m' obj = follow m obj := by
    intro obj member
    obtain ⟨j, inside, rfl⟩ := shelf.own obj member
    have there := object_to_nat block sized inside
    have objectEnds := object_ends inside
    exact congrArg pointer (word_congr _ (by omega) fun b above below => keeps.2 _ member b above below)
  refine ⟨?_, ?_, shelf.own⟩
  · rw [freelist, field 40 (by decide)]
    exact chain_congr same shelf.chain
  · rw [freeCount, field 32 (by decide)]
    exact shelf.count

theorem free_length (shelf : Shelf cfg m slab frees) : frees.length ≤ cfg.objects := by
  have inside : frees ⊆ (List.range cfg.objects).map (object cfg slab) := by
    intro obj member
    obtain ⟨i, less, rfl⟩ := shelf.own obj member
    exact List.mem_map_of_mem (List.mem_range.mpr less)
  have bound := ((chain_nodup shelf.chain).subperm inside).length_le
  rw [List.length_map, List.length_range] at bound
  exact bound

theorem objects_small (block : IsBlock cfg slab) : cfg.objects < 2 ^ 64 := by
  have ends := block_ends block
  have few : cfg.objects ≤ cfg.bytes - slabHeader := Nat.div_le_self _ _
  have fits := header_fits cfg
  unfold slabHeader at few fits
  omega

theorem count_to_nat (block : IsBlock cfg slab) (shelf : Shelf cfg m slab frees) :
    (word m (freeCount slab)).toNat = frees.length := by
  have few := free_length shelf
  have small := objects_small block
  rw [shelf.count, BitVec.toNat_ofNat, Nat.mod_eq_of_lt (by omega)]

theorem count_zero_iff (block : IsBlock cfg slab) (shelf : Shelf cfg m slab frees) : word m (freeCount slab) = 0 ↔ frees = [] := by
  rw [← List.length_eq_zero_iff, ← count_to_nat block shelf]
  constructor
  · intro zero
    rw [zero]
    rfl
  · intro zero
    exact BitVec.eq_of_toNat_eq zero

-- The header of a slab, its objects, and any two of these are apart.
theorem word_put_header (block : IsBlock cfg slab) (sized : 8 ≤ cfg.objectSize) (inside : i < cfg.objects) {offset : Nat}
    (value : BitVec 64) (within : offset + 8 ≤ 48) :
    word (put (place slab offset) value m) (object cfg slab i) = word m (object cfg slab i) := by
  have ends := object_ends inside
  unfold slabHeader at ends
  rw [object, slabHeader]
  exact word_put_other block value (by omega) (by omega) (by omega)

theorem word_put_object (block : IsBlock cfg slab) (sized : 8 ≤ cfg.objectSize) (inside : i < cfg.objects) {offset : Nat}
    (value : BitVec 64) (within : offset + 8 ≤ 48) :
    word (put (object cfg slab i) value m) (place slab offset) = word m (place slab offset) := by
  have ends := object_ends inside
  unfold slabHeader at ends
  rw [object, slabHeader]
  exact word_put_other block value (by omega) (by omega) (by omega)

theorem word_put_sibling (block : IsBlock cfg slab) (sized : 8 ≤ cfg.objectSize) {j : Nat} (inside : i < cfg.objects)
    (inside' : j < cfg.objects) (different : i ≠ j) (value : BitVec 64) :
    word (put (object cfg slab i) value m) (object cfg slab j) = word m (object cfg slab j) := by
  have ends := object_ends inside
  have ends' := object_ends inside'
  have apart := @objects_apart cfg i j different
  rw [object, object]
  exact word_put_other block value (by omega) (by omega) (by omega)

theorem shelf_push (block : IsBlock cfg slab) (sized : 8 ≤ cfg.objectSize) (inside : i < cfg.objects) (shelf : Shelf cfg m slab frees)
    (absent : object cfg slab i ∉ frees) :
    Shelf cfg (countUp slab (thread slab (object cfg slab i) m)) slab (object cfg slab i :: frees) := by
  have fits := header_fits cfg
  unfold slabHeader at fits
  have nonzero := object_pos block sized inside
  -- The three words that are written, each read through the writes after it.
  have first : word (countUp slab (thread slab (object cfg slab i) m)) (freelist slab) = object cfg slab i := by
    rw [countUp, freeCount, freelist, word_put_other block _ (by omega) (by omega) (by omega), thread, freelist, word_put]
  have count : word (countUp slab (thread slab (object cfg slab i) m)) (freeCount slab) = BitVec.ofNat 64 (frees.length + 1) := by
    rw [countUp, word_put, thread, freelist, freeCount, word_put_other block _ (by omega) (by omega) (by omega),
      word_put_object block sized inside _ (by decide), ← freeCount, shelf.count, BitVec.ofNat_add]
    rfl
  have own : follow (countUp slab (thread slab (object cfg slab i) m)) (object cfg slab i) = pointer (word m (freelist slab)) := by
    rw [follow, countUp, freeCount, word_put_header block sized inside _ (by decide), thread, freelist,
      word_put_header block sized inside _ (by decide), word_put]
  have others : ∀ obj ∈ frees, follow (countUp slab (thread slab (object cfg slab i) m)) obj = follow m obj := by
    intro obj member
    obtain ⟨j, inside', rfl⟩ := shelf.own obj member
    have different : i ≠ j := by
      rintro rfl
      exact absent member
    rw [follow, countUp, freeCount, word_put_header block sized inside' _ (by decide), thread, freelist,
      word_put_header block sized inside' _ (by decide), word_put_sibling block sized inside inside' different]
    rfl
  refine ⟨?_, count, ?_⟩
  · rw [first, pointer, if_neg nonzero]
    exact .cons _ frees (own ▸ chain_congr others shelf.chain)
  · intro obj member
    rcases List.mem_cons.mp member with rfl | member
    · exact ⟨i, inside, rfl⟩
    · exact shelf.own obj member

theorem pointer_some {value : BitVec 64} {obj : Address} (found : pointer value = some obj) : value = obj := by
  unfold pointer at found
  split at found
  · cases found
  · exact Option.some.inj found

theorem shelf_pop {obj : Address} (block : IsBlock cfg slab) (sized : 8 ≤ cfg.objectSize) (shelf : Shelf cfg m slab (obj :: frees)) :
    word m (freelist slab) = obj ∧ Shelf cfg (countDown slab (put (freelist slab) (word m obj) m)) slab frees := by
  have fits := header_fits cfg
  unfold slabHeader at fits
  obtain ⟨start, rest⟩ := chain_head shelf.chain
  have first : word (countDown slab (put (freelist slab) (word m obj) m)) (freelist slab) = word m obj := by
    rw [countDown, freeCount, freelist, word_put_other block _ (by omega) (by omega) (by omega), word_put]
  have count : word (countDown slab (put (freelist slab) (word m obj) m)) (freeCount slab) = BitVec.ofNat 64 frees.length := by
    rw [countDown, word_put, freelist, freeCount, word_put_other block _ (by omega) (by omega) (by omega), ← freeCount, shelf.count,
      List.length_cons, BitVec.ofNat_add]
    exact BitVec.add_sub_cancel _ _
  have others : ∀ other ∈ frees, follow (countDown slab (put (freelist slab) (word m obj) m)) other = follow m other := by
    intro other member
    obtain ⟨j, inside, rfl⟩ := shelf.own other (List.mem_cons_of_mem _ member)
    rw [follow, countDown, freeCount, word_put_header block sized inside _ (by decide), freelist,
      word_put_header block sized inside _ (by decide)]
    rfl
  refine ⟨pointer_some start, ?_, count, fun other member => shelf.own other (List.mem_cons_of_mem _ member)⟩
  rw [first]
  exact chain_congr others rest

-- The freelist of a new slab.
def carved (cfg : Config) (slab : Address) : Nat → List Address
  | 0 => []
  | i + 1 => object cfg slab i :: carved cfg slab i

theorem mem_carved {k : Nat} {obj : Address} : obj ∈ carved cfg slab k ↔ ∃ i < k, obj = object cfg slab i := by
  induction k with
  | zero => exact ⟨nofun, fun ⟨_, less, _⟩ => absurd less (Nat.not_lt_zero _)⟩
  | succ k ih =>
      rw [carved, List.mem_cons, ih]
      constructor
      · rintro (rfl | ⟨i, less, rfl⟩)
        · exact ⟨k, Nat.lt_succ_self k, rfl⟩
        · exact ⟨i, Nat.lt_succ_of_lt less, rfl⟩
      · rintro ⟨i, less, rfl⟩
        rcases Nat.lt_succ_iff_lt_or_eq.mp less with less | rfl
        · exact .inr ⟨i, less, rfl⟩
        · exact .inl rfl

theorem header_shelf (cache : Address) (pmmBlock : PmmBlock) (block : IsBlock cfg slab) : Shelf cfg (header cache slab pmmBlock m) slab [] := by
  have fits := header_fits cfg
  unfold slabHeader at fits
  refine ⟨?_, ?_, nofun⟩
  · rw [header, freeCount, freelist, word_put_other block _ (by omega) (by omega) (by omega), word_put]
    exact .nil
  · rw [header, word_put]
    rfl

theorem carve_shelf (block : IsBlock cfg slab) (sized : 8 ≤ cfg.objectSize) (start : Shelf cfg m slab []) {k : Nat}
    (within : k ≤ cfg.objects) : Shelf cfg (carve cfg slab k m) slab (carved cfg slab k) := by
  induction k with
  | zero => exact start
  | succ k ih =>
      refine shelf_push block sized within (ih (Nat.le_of_succ_le within)) fun again => ?_
      obtain ⟨i, less, same⟩ := mem_carved.mp again
      have twice := object_inj block sized within (show i < cfg.objects by omega) same
      omega

-- Only bytes of a slab's block change.
def OnlyIn (cfg : Config) (slab : Address) (m m' : Memory) : Prop :=
  ∀ a : Address, ¬ (slab.toNat ≤ a.toNat ∧ a.toNat < slab.toNat + cfg.bytes) → m' a = m a

theorem only_put (block : IsBlock cfg slab) {offset : Nat} (value : BitVec 64) (fits : offset + 8 ≤ cfg.bytes)
    (only : OnlyIn cfg slab m m') : OnlyIn cfg slab m (put (place slab offset) value m') := by
  intro a outside
  have ends := block_ends block
  have here := place_to_nat block (show offset < cfg.bytes by omega)
  rw [put_outside _ _ _ _ (by omega) (by omega), only a outside]

theorem only_thread (block : IsBlock cfg slab) (sized : 8 ≤ cfg.objectSize) (inside : i < cfg.objects) (only : OnlyIn cfg slab m m') :
    OnlyIn cfg slab m (countUp slab (thread slab (object cfg slab i) m')) := by
  have fits := header_fits cfg
  have ends := object_ends inside
  unfold slabHeader at fits ends
  refine only_put block _ (by omega) (only_put block _ (by omega) (only_put block _ ?_ only))
  unfold slabHeader
  omega

theorem only_header (cache : Address) (pmmBlock : PmmBlock) (block : IsBlock cfg slab) : OnlyIn cfg slab m (header cache slab pmmBlock m) := by
  have fits := header_fits cfg
  unfold slabHeader at fits
  exact only_put block _ (by omega) (only_put block _ (by omega) (only_put block _ (by omega) (only_put block _ (by omega) fun _ _ => rfl)))

theorem only_carve (block : IsBlock cfg slab) (sized : 8 ≤ cfg.objectSize) (only : OnlyIn cfg slab m m') {k : Nat}
    (within : k ≤ cfg.objects) : OnlyIn cfg slab m (carve cfg slab k m') := by
  induction k with
  | zero => exact only
  | succ k ih => exact only_thread block sized within (ih (Nat.le_of_succ_le within))

theorem only_pop (block : IsBlock cfg slab) (value : BitVec 64) : OnlyIn cfg slab m (countDown slab (put (freelist slab) value m)) := by
  have fits := header_fits cfg
  unfold slabHeader at fits
  exact only_put block _ (by omega) (only_put block _ (by omega) fun _ _ => rfl)

theorem other_shelf (block : IsBlock cfg slab) (block' : IsBlock cfg other) (sized : 8 ≤ cfg.objectSize) (different : slab ≠ other)
    (only : OnlyIn cfg slab m m') (shelf : Shelf cfg m other frees) : Shelf cfg m' other frees := by
  have apart := blocks_apart block block' different
  have fits := header_fits cfg
  refine shelf_congr block' sized shelf ⟨fun a above below => only a (by omega), fun obj member a above below => only a ?_⟩
  obtain ⟨j, inside, rfl⟩ := shelf.own obj member
  have there := object_to_nat block' sized inside
  have ends := object_ends inside
  omega

end Shelves

section Runs

variable (cfg : Config) (cache hhdmOffset : Address)

inductive Action where
  | alloc (block : PmmBlock)
  | free (obj : Address)
  | write (address : Address) (byte : BitVec 8)

def step : Action → State → Option State
  | .alloc block, s =>
      match slabDirectAlloc cfg cache hhdmOffset block s with
      | .ok (obj, s) => some { s with held := Function.update s.held obj true }
      | .error _ => none
  | .free obj, s =>
      match slabDirectFree cfg obj s with
      | .ok s => some { s with held := Function.update s.held obj false }
      | .error _ => none
  | .write address byte, s => some { s with memory := Function.update s.memory address byte }

-- What pmm_alloc promises of a block.
def Handed (s : State) (block : PmmBlock) : Prop :=
  cfg.blockOrder ≤ pmmMaxOrder ∧ block.paddr.toNat % cfg.bytes = 0 ∧ hhdm hhdmOffset block.paddr ∉ s.slabs

-- Clients write to the objects they have, and anyone outside the slabs.
def Writable (s : State) (a : Address) : Prop :=
  (∀ slab ∈ s.slabs, ¬ (slab.toNat ≤ a.toNat ∧ a.toNat < slab.toNat + cfg.bytes)) ∨
    ∃ obj, s.held obj = true ∧ obj.toNat ≤ a.toNat ∧ a.toNat < obj.toNat + cfg.objectSize

def Allowed : Action → State → Prop
  | .alloc block, s => s.slabsPartial = [] → Handed cfg hhdmOffset s block
  | .free obj, s => s.held obj = true
  | .write address _, s => Writable cfg s address

def Initial (s : State) : Prop := s.slabsFull = [] ∧ s.slabsPartial = [] ∧ ∀ obj, s.held obj = false

def Reachable (s : State) : Prop :=
  Transitions.ReachableUnder Initial (step cfg cache hhdmOffset) (Allowed cfg hhdmOffset) s

-- What holds of the slabs whatever list they are on.
structure Core (s : State) (frees : Address → List Address) : Prop where
  block : ∀ slab ∈ s.slabs, IsBlock cfg slab
  once : s.slabs.Nodup
  shelf : ∀ slab ∈ s.slabs, Shelf cfg s.memory slab (frees slab)
  held : ∀ slab ∈ s.slabs, ∀ i < cfg.objects, (s.held (object cfg slab i) = true ↔ object cfg slab i ∉ frees slab)
  nothingElse : ∀ obj, s.held obj = true → ∃ slab ∈ s.slabs, ∃ i < cfg.objects, obj = object cfg slab i

structure Inv (s : State) (frees : Address → List Address) : Prop where
  core : Core cfg s frees
  left : ∀ slab ∈ s.slabsPartial, frees slab ≠ []
  used : ∀ slab ∈ s.slabsFull, frees slab = []

variable {cfg hhdmOffset} {s s' : State} {frees : Address → List Address} {slab other : Address}

theorem partial_mem (member : slab ∈ s.slabsPartial) : slab ∈ s.slabs := List.mem_append_left _ member

theorem full_mem (member : slab ∈ s.slabsFull) : slab ∈ s.slabs := List.mem_append_right _ member

theorem core_of_perm (core : Core cfg s frees) (perm : s'.slabs.Perm s.slabs) (memory : s'.memory = s.memory)
    (held : s'.held = s.held) : Core cfg s' frees where
  block slab member := core.block slab (perm.mem_iff.mp member)
  once := perm.nodup_iff.mpr core.once
  shelf slab member := memory ▸ core.shelf slab (perm.mem_iff.mp member)
  held slab member := held ▸ core.held slab (perm.mem_iff.mp member)
  nothingElse obj isHeld := by
    obtain ⟨slab, member, rest⟩ := core.nothingElse obj (held ▸ isHeld)
    exact ⟨slab, perm.mem_iff.mpr member, rest⟩

-- Objects of different slabs are different.
theorem object_slab (sized : 8 ≤ cfg.objectSize) (block : IsBlock cfg slab) (block' : IsBlock cfg other) {i j : Nat}
    (inside : i < cfg.objects) (inside' : j < cfg.objects) (same : object cfg slab i = object cfg other j) : slab = other := by
  rw [← slab_of_object block sized inside, same, slab_of_object block' sized inside']

theorem make_core (sized : 8 ≤ cfg.objectSize) (core : Core cfg s frees) (pmmBlock : PmmBlock) (block : IsBlock cfg slab)
    (new : slab ∉ s.slabs) :
    Core cfg { s with memory := carve cfg slab cfg.objects (header cache slab pmmBlock s.memory), slabsPartial := slab :: s.slabsPartial }
      (Function.update frees slab (carved cfg slab cfg.objects)) := by
  have only := only_carve block sized (only_header (m := s.memory) cache pmmBlock block) (Nat.le_refl cfg.objects)
  have old : ∀ other ∈ s.slabs, other ≠ slab := fun other member same => new (same ▸ member)
  have fresh : ∀ i < cfg.objects, s.held (object cfg slab i) ≠ true := by
    intro i inside isHeld
    obtain ⟨other, member, j, inside', same⟩ := core.nothingElse _ isHeld
    exact old other member (object_slab sized block (core.block other member) inside inside' same).symm
  refine ⟨?_, List.nodup_cons.mpr ⟨new, core.once⟩, ?_, ?_, ?_⟩
  · intro other member
    rcases List.mem_cons.mp member with rfl | member
    · exact block
    · exact core.block other member
  · intro other member
    rcases List.mem_cons.mp member with rfl | member
    · rw [Function.update_self]
      exact carve_shelf block sized (header_shelf cache pmmBlock block) (Nat.le_refl _)
    · rw [Function.update_of_ne (old other member)]
      exact other_shelf block (core.block other member) sized (Ne.symm (old other member)) only (core.shelf other member)
  · intro other member i inside
    rcases List.mem_cons.mp member with rfl | member
    · rw [Function.update_self]
      exact iff_of_false (fresh i inside) fun absent => absent (mem_carved.mpr ⟨i, inside, rfl⟩)
    · rw [Function.update_of_ne (old other member)]
      exact core.held other member i inside
  · intro obj isHeld
    obtain ⟨other, member, rest⟩ := core.nothingElse obj isHeld
    exact ⟨other, List.mem_cons_of_mem _ member, rest⟩

theorem ensure_keeps (sized : 8 ≤ cfg.objectSize) (some : 0 < cfg.objects) (aligned : hhdmOffset.toNat % cfg.bytes = 0)
    (inv : Inv cfg s frees) (block : PmmBlock) (handed : s.slabsPartial = [] → Handed cfg hhdmOffset s block) :
    ∃ s' frees', ensurePartial cfg cache hhdmOffset block s = .ok s' ∧ Inv cfg s' frees' ∧ s'.slabsPartial ≠ [] ∧ s'.held = s.held := by
  by_cases none : s.slabsPartial = []
  · obtain ⟨small, place, new⟩ := handed none
    have isBlock := hhdm_aligned small aligned place
    refine ⟨{ s with
      memory := carve cfg (hhdm hhdmOffset block.paddr) cfg.objects (header cache (hhdm hhdmOffset block.paddr) block s.memory)
      slabsPartial := hhdm hhdmOffset block.paddr :: s.slabsPartial },
      _, ?_, ⟨make_core cache sized inv.core block isBlock new, ?_, ?_⟩, List.cons_ne_nil _ _, rfl⟩
    · have passed : assertThat (decide (cfg.objects > 0)) = .ok () := by rw [assertThat, if_pos (decide_eq_true some)]
      rw [ensurePartial, none, List.length_nil, if_pos rfl, cacheMakeSlab, passed]
      rfl
    · intro slab member
      rw [none, List.mem_singleton] at member
      rw [member, Function.update_self]
      exact List.ne_nil_of_mem (mem_carved.mpr ⟨0, some, rfl⟩)
    · intro slab member
      have old : slab ≠ hhdm hhdmOffset block.paddr := fun same => new (same ▸ full_mem member)
      rw [Function.update_of_ne old]
      exact inv.used slab member
  · have length : s.slabsPartial.length ≠ 0 := fun zero => none (List.eq_nil_of_length_eq_zero zero)
    exact ⟨s, frees, by rw [ensurePartial, if_neg length], inv, none, rfl⟩

theorem take_core (sized : 8 ≤ cfg.objectSize) (core : Core cfg s frees) (member : slab ∈ s.slabs) {obj : Address} {rest : List Address}
    (start : frees slab = obj :: rest) :
    Core cfg { s with memory := countDown slab (put (freelist slab) (word s.memory obj) s.memory), held := Function.update s.held obj true }
      (Function.update frees slab rest) := by
  have block := core.block slab member
  have shelf : Shelf cfg s.memory slab (obj :: rest) := start ▸ core.shelf slab member
  have only := only_pop (m := s.memory) block (word s.memory obj)
  obtain ⟨k, ours, isObject⟩ := shelf.own obj (List.mem_cons_self ..)
  have once := List.nodup_cons.mp (chain_nodup shelf.chain)
  refine ⟨core.block, core.once, ?_, ?_, ?_⟩
  · intro other isSlab
    by_cases same : other = slab
    · rw [same, Function.update_self]
      exact (shelf_pop block sized shelf).2
    · rw [Function.update_of_ne same]
      exact other_shelf block (core.block other isSlab) sized (Ne.symm same) only (core.shelf other isSlab)
  · intro other isSlab i inside
    have before := core.held other isSlab i inside
    dsimp only
    by_cases same : other = slab
    · subst same
      rw [Function.update_self]
      rw [start, List.mem_cons, not_or] at before
      by_cases this : object cfg other i = obj
      · rw [this, Function.update_self]
        exact iff_of_true rfl once.1
      · rw [Function.update_of_ne this, before]
        exact and_iff_right this
    · have apart : object cfg other i ≠ obj := fun this =>
        same (object_slab sized (core.block other isSlab) block inside ours (this.trans isObject))
      rw [Function.update_of_ne apart, Function.update_of_ne same]
      exact before
  · intro other isHeld
    dsimp only at isHeld
    by_cases same : other = obj
    · exact ⟨slab, member, k, ours, same.trans isObject⟩
    · rw [Function.update_of_ne same] at isHeld
      exact core.nothingElse other isHeld

theorem alloc_keeps (sized : 8 ≤ cfg.objectSize) (some : 0 < cfg.objects) (aligned : hhdmOffset.toNat % cfg.bytes = 0)
    (inv : Inv cfg s frees) (block : PmmBlock) (handed : s.slabsPartial = [] → Handed cfg hhdmOffset s block) :
    ∃ obj s' frees', slabDirectAlloc cfg cache hhdmOffset block s = .ok (obj, s') ∧ s.held obj = false ∧
      Inv cfg { s' with held := Function.update s'.held obj true } frees' := by
  obtain ⟨s₁, frees₁, ensured, inv₁, more, sameHeld⟩ := ensure_keeps cache sized some aligned inv block handed
  obtain ⟨slab, others, first⟩ := List.exists_cons_of_ne_nil more
  have inPartial : slab ∈ s₁.slabsPartial := first ▸ List.mem_cons_self
  have member := partial_mem inPartial
  have isBlock := inv₁.core.block slab member
  obtain ⟨obj, rest, start⟩ := List.exists_cons_of_ne_nil (inv₁.left slab inPartial)
  have shelf : Shelf cfg s₁.memory slab (obj :: rest) := start ▸ inv₁.core.shelf slab member
  obtain ⟨found, popped⟩ := shelf_pop isBlock sized shelf
  have core := take_core sized inv₁.core member start
  have counted : 0 < (word s₁.memory (freeCount slab)).toNat := by
    rw [count_to_nat isBlock shelf, List.length_cons]
    exact Nat.succ_pos _
  have passed : assertThat (decide ((word s₁.memory (freeCount slab)).toNat > 0)) = .ok () := by
    rw [assertThat, if_pos (decide_eq_true counted)]
  have wasFree : s.held obj = false := by
    obtain ⟨i, inside, rfl⟩ := shelf.own obj (List.mem_cons_self ..)
    have kept := inv₁.core.held slab member i inside
    rw [start, sameHeld] at kept
    exact Bool.eq_false_iff.mpr fun isHeld => kept.mp isHeld (List.mem_cons_self ..)
  have apart : ∀ other, other ∈ others ∨ other ∈ s₁.slabsFull → other ≠ slab := by
    have once := inv₁.core.once
    rw [State.slabs, first, List.cons_append, List.nodup_cons, List.mem_append] at once
    rintro other listed rfl
    exact once.1 listed
  have zero := count_zero_iff isBlock popped
  by_cases last : rest = []
  · -- The last object: the slab goes to the full ones.
    refine ⟨obj, { s₁ with
      memory := countDown slab (put (freelist slab) (word s₁.memory obj) s₁.memory)
      slabsPartial := others
      slabsFull := slab :: s₁.slabsFull }, _, ?_, wasFree, ⟨core_of_perm core ?_ rfl rfl, ?_, ?_⟩⟩
    · simp only [slabDirectAlloc, ensured, bind_ok, first, passed, found, zero, last, if_true, retire, List.mem_cons_self,
        List.erase_cons_head]
      rfl
    · simp only [State.slabs, first]
      exact List.perm_middle
    · intro other listed
      rw [Function.update_of_ne (apart other (.inl listed))]
      exact inv₁.left other (first ▸ List.mem_cons_of_mem _ listed)
    · intro other listed
      rcases List.mem_cons.mp listed with rfl | listed
      · rw [Function.update_self, last]
      · rw [Function.update_of_ne (apart other (.inr listed))]
        exact inv₁.used other listed
  · refine ⟨obj, { s₁ with memory := countDown slab (put (freelist slab) (word s₁.memory obj) s₁.memory) }, _, ?_, wasFree, ⟨core, ?_, ?_⟩⟩
    · simp only [slabDirectAlloc, ensured, bind_ok, first, passed, found, zero, last, if_false]
      rfl
    · intro other listed
      by_cases same : other = slab
      · rw [same, Function.update_self]
        exact last
      · rw [Function.update_of_ne same]
        exact inv₁.left other listed
    · intro other listed
      rw [Function.update_of_ne (apart other (.inr listed))]
      exact inv₁.used other listed

theorem free_core (sized : 8 ≤ cfg.objectSize) (core : Core cfg s frees) (member : slab ∈ s.slabs) {i : Nat} (inside : i < cfg.objects)
    (isHeld : s.held (object cfg slab i) = true) :
    Core cfg { s with
        memory := countUp slab (thread slab (object cfg slab i) s.memory), held := Function.update s.held (object cfg slab i) false }
      (Function.update frees slab (object cfg slab i :: frees slab)) := by
  have block := core.block slab member
  have absent := (core.held slab member i inside).mp isHeld
  have unchanged : OnlyIn cfg slab s.memory s.memory := fun _ _ => rfl
  have only := only_thread block sized inside unchanged
  refine ⟨core.block, core.once, ?_, ?_, ?_⟩
  · intro other isSlab
    by_cases same : other = slab
    · rw [same, Function.update_self]
      exact shelf_push block sized inside (core.shelf slab member) absent
    · rw [Function.update_of_ne same]
      exact other_shelf block (core.block other isSlab) sized (Ne.symm same) only (core.shelf other isSlab)
  · intro other isSlab j inside'
    have before := core.held other isSlab j inside'
    dsimp only
    by_cases this : object cfg other j = object cfg slab i
    · have same := object_slab sized (core.block other isSlab) block inside' inside this
      rw [this, Function.update_self, same, Function.update_self]
      exact iff_of_false nofun fun away => away (List.mem_cons_self ..)
    · rw [Function.update_of_ne this, before]
      by_cases same : other = slab
      · subst same
        rw [Function.update_self, List.mem_cons, not_or]
        exact (and_iff_right this).symm
      · rw [Function.update_of_ne same]
  · intro other held
    dsimp only at held
    by_cases same : other = object cfg slab i
    · rw [same, Function.update_self] at held
      cases held
    · rw [Function.update_of_ne same] at held
      exact core.nothingElse other held

theorem free_keeps (sized : 8 ≤ cfg.objectSize) (inv : Inv cfg s frees) {obj : Address} (isHeld : s.held obj = true) :
    ∃ s' frees', slabDirectFree cfg obj s = .ok s' ∧ Inv cfg { s' with held := Function.update s'.held obj false } frees' := by
  obtain ⟨slab, member, i, inside, rfl⟩ := inv.core.nothingElse obj isHeld
  have block := inv.core.block slab member
  have fits := header_fits cfg
  unfold slabHeader at fits
  have core := free_core sized inv.core member inside isHeld
  have mask := slab_of_object block sized inside
  -- The count is still the one from before when it is looked at.
  have count : word (thread slab (object cfg slab i) s.memory) (freeCount slab) = word s.memory (freeCount slab) := by
    rw [thread, freelist, freeCount, word_put_other block _ (by omega) (by omega) (by omega),
      word_put_object block sized inside _ (by decide)]
  have zero : word (thread slab (object cfg slab i) s.memory) (freeCount slab) = 0 ↔ frees slab = [] := by
    rw [count]
    exact count_zero_iff block (inv.core.shelf slab member)
  by_cases empty : frees slab = []
  · have isFull : slab ∈ s.slabsFull := by
      rcases List.mem_append.mp member with isPartial | isFull
      · exact absurd empty (inv.left slab isPartial)
      · exact isFull
    have fullOnce := (List.nodup_append.mp inv.core.once).2.1
    have fromFull : ∀ other ∈ s.slabsFull.erase slab, other ≠ slab ∧ other ∈ s.slabsFull := fun other listed =>
      (fullOnce.mem_erase_iff).mp listed
    refine ⟨{ s with
      memory := countUp slab (thread slab (object cfg slab i) s.memory)
      slabsFull := s.slabsFull.erase slab
      slabsPartial := slab :: s.slabsPartial }, _, ?_, ⟨core_of_perm core ?_ rfl rfl, ?_, ?_⟩⟩
    · simp only [slabDirectFree, mask, zero, empty, if_true, revive, isFull, bind_ok]
      rfl
    · simp only [State.slabs]
      exact List.perm_middle.symm.trans (List.Perm.append_left _ (List.perm_cons_erase isFull).symm)
    · intro other listed
      by_cases same : other = slab
      · rw [same, Function.update_self]
        exact List.cons_ne_nil _ _
      · rw [Function.update_of_ne same]
        rcases List.mem_cons.mp listed with this | listed
        · exact absurd this same
        · exact inv.left other listed
    · intro other listed
      obtain ⟨different, wasFull⟩ := fromFull other listed
      rw [Function.update_of_ne different]
      exact inv.used other wasFull
  · refine ⟨{ s with memory := countUp slab (thread slab (object cfg slab i) s.memory) }, _, ?_, ⟨core, ?_, ?_⟩⟩
    · simp only [slabDirectFree, mask, zero, empty, if_false, bind_ok]
      rfl
    · intro other listed
      by_cases same : other = slab
      · rw [same, Function.update_self]
        exact List.cons_ne_nil _ _
      · rw [Function.update_of_ne same]
        exact inv.left other listed
    · intro other listed
      have different : other ≠ slab := fun same => empty (same ▸ inv.used other listed)
      rw [Function.update_of_ne different]
      exact inv.used other listed

-- A byte of an object in use or outside the slabs is no byte of a shelf.
theorem write_keeps (sized : 8 ≤ cfg.objectSize) (inv : Inv cfg s frees) (a : Address) (byte : BitVec 8) (writable : Writable cfg s a) :
    Inv cfg { s with memory := Function.update s.memory a byte } frees := by
  refine ⟨⟨inv.core.block, inv.core.once, fun slab member => ?_, inv.core.held, inv.core.nothingElse⟩, inv.left, inv.used⟩
  have block := inv.core.block slab member
  have shelf := inv.core.shelf slab member
  have fits := header_fits cfg
  -- Where the byte is, as seen from this slab.
  have away : ¬ (slab.toNat ≤ a.toNat ∧ a.toNat < slab.toNat + cfg.bytes) ∨ ∃ i < cfg.objects, object cfg slab i ∉ frees slab ∧
      slab.toNat + slabHeader + i * cfg.objectSize ≤ a.toNat ∧
      a.toNat < slab.toNat + slabHeader + i * cfg.objectSize + cfg.objectSize := by
    rcases writable with outside | ⟨obj, isHeld, above, below⟩
    · exact .inl (outside slab member)
    · obtain ⟨other, isSlab, i, inside, rfl⟩ := inv.core.nothingElse obj isHeld
      have place := object_to_nat (inv.core.block other isSlab) sized inside
      have ends := object_ends inside
      by_cases same : other = slab
      · subst same
        exact .inr ⟨i, inside, (inv.core.held other member i inside).mp isHeld, by omega, by omega⟩
      · have apart := blocks_apart (inv.core.block other isSlab) block same
        exact .inl (by omega)
  refine shelf_congr block sized shelf ⟨fun b above below => Function.update_of_ne ?_ _ _, fun obj free b above below => Function.update_of_ne ?_ _ _⟩
  · rintro rfl
    rcases away with outside | ⟨i, inside, _, above', below'⟩ <;> omega
  · rintro rfl
    obtain ⟨j, inside', rfl⟩ := shelf.own obj free
    have place := object_to_nat block sized inside'
    have ends := object_ends inside'
    rcases away with outside | ⟨i, inside, used, above', below'⟩
    · omega
    · have different : i ≠ j := by
        rintro rfl
        exact used free
      have apart := @objects_apart cfg i j different
      omega

-- What the slabs of a cache are between calls.
structure Sound (cfg : Config) (s : State) : Prop where
  inside : ∀ slab ∈ s.slabs, ∀ i < cfg.objects, slab.toNat + slabHeader ≤ (object cfg slab i).toNat ∧
    (object cfg slab i).toNat + cfg.objectSize ≤ slab.toNat + cfg.bytes
  disjoint : ∀ slab ∈ s.slabs, ∀ i < cfg.objects, ∀ j < cfg.objects, i ≠ j →
    (object cfg slab i).toNat + cfg.objectSize ≤ (object cfg slab j).toNat ∨
      (object cfg slab j).toNat + cfg.objectSize ≤ (object cfg slab i).toNat
  masked : ∀ slab ∈ s.slabs, ∀ i < cfg.objects, object cfg slab i &&& slabMask cfg = slab
  freelists : ∀ slab ∈ s.slabs, ∃ list, Linked (follow s.memory) (pointer (word s.memory (freelist slab))) list ∧
    (word s.memory (freeCount slab)).toNat = list.length ∧ list.Nodup ∧
    ∀ obj ∈ list, s.held obj = false ∧ ∃ i < cfg.objects, obj = object cfg slab i
  full : ∀ slab ∈ s.slabs, slab ∈ s.slabsFull ↔ word s.memory (freeCount slab) = 0
  others : ∀ slab ∈ s.slabs, slab ∈ s.slabsPartial ↔ word s.memory (freeCount slab) ≠ 0
  handed : ∀ obj, s.held obj = true → ∃ slab ∈ s.slabs, ∃ i < cfg.objects, obj = object cfg slab i

theorem sound_of_inv (sized : 8 ≤ cfg.objectSize) (inv : Inv cfg s frees) : Sound cfg s where
  inside slab member i inside := by
    have place := object_to_nat (inv.core.block slab member) sized inside
    have ends := object_ends inside
    omega
  disjoint slab member i inside j inside' different := by
    have block := inv.core.block slab member
    rw [object_to_nat block sized inside, object_to_nat block sized inside']
    have apart := @objects_apart cfg i j different
    omega
  masked slab member i inside := slab_of_object (inv.core.block slab member) sized inside
  freelists slab member := by
    have shelf := inv.core.shelf slab member
    refine ⟨frees slab, shelf.chain, count_to_nat (inv.core.block slab member) shelf, chain_nodup shelf.chain, fun obj free => ?_⟩
    obtain ⟨i, inside, rfl⟩ := shelf.own obj free
    refine ⟨?_, i, inside, rfl⟩
    exact Bool.eq_false_iff.mpr fun isHeld => (inv.core.held slab member i inside).mp isHeld free
  full slab member := by
    rw [count_zero_iff (inv.core.block slab member) (inv.core.shelf slab member)]
    refine ⟨inv.used slab, fun empty => ?_⟩
    exact (List.mem_append.mp member).resolve_left fun isPartial => inv.left slab isPartial empty
  others slab member := by
    rw [ne_eq, count_zero_iff (inv.core.block slab member) (inv.core.shelf slab member)]
    refine ⟨inv.left slab, fun filled => ?_⟩
    exact (List.mem_append.mp member).resolve_right fun isFull => filled (inv.used slab isFull)
  handed := inv.core.nothingElse

def Kept (cfg : Config) (s : State) : Prop := ∃ frees, Inv cfg s frees

theorem inv_reached (cache : Address) (sized : 8 ≤ cfg.objectSize) (some : 0 < cfg.objects) (aligned : hhdmOffset.toNat % cfg.bytes = 0)
    (reach : Reachable cfg cache hhdmOffset s) : Kept cfg s := by
  refine Transitions.reachable_under_invariant ?_ ?_ reach
  · rintro s ⟨noFull, noPartial, nothing⟩
    have none : s.slabs = [] := by rw [State.slabs, noFull, noPartial, List.append_nil]
    refine ⟨fun _ => [], ⟨?_, ?_, ?_, ?_, ?_⟩, ?_, ?_⟩
    · rw [none]
      nofun
    · rw [none]
      exact List.nodup_nil
    · rw [none]
      nofun
    · rw [none]
      nofun
    · intro obj isHeld
      rw [nothing obj] at isHeld
      cases isHeld
    · rw [noPartial]
      nofun
    · exact fun _ _ => rfl
  · rintro action s s' ⟨frees, inv⟩ meets taken
    cases action with
    | alloc block =>
        obtain ⟨obj, s₁, frees', run, _, inv'⟩ := alloc_keeps cache sized some aligned inv block meets
        rw [step, run] at taken
        exact ⟨frees', Option.some.inj taken ▸ inv'⟩
    | free obj =>
        obtain ⟨s₁, frees', run, inv'⟩ := free_keeps sized inv meets
        rw [step, run] at taken
        exact ⟨frees', Option.some.inj taken ▸ inv'⟩
    | write a byte => exact ⟨frees, Option.some.inj taken ▸ write_keeps sized inv a byte meets⟩

theorem slab_direct_sound (cfg : Config) (cache hhdmOffset : Address) (sized : 8 ≤ cfg.objectSize) (some : 0 < cfg.objects)
    (aligned : hhdmOffset.toNat % cfg.bytes = 0) (s : State) (reach : Reachable cfg cache hhdmOffset s) :
    Sound cfg s ∧
    (∀ block, (s.slabsPartial = [] → Handed cfg hhdmOffset s block) →
      ∃ obj s', slabDirectAlloc cfg cache hhdmOffset block s = .ok (obj, s') ∧ s.held obj = false) ∧
    ∀ obj, s.held obj = true → ∃ s', slabDirectFree cfg obj s = .ok s' := by
  obtain ⟨frees, inv⟩ := inv_reached cache sized some aligned reach
  refine ⟨sound_of_inv sized inv, fun block handed => ?_, fun obj isHeld => ?_⟩
  · obtain ⟨obj, s', _, run, free, _⟩ := alloc_keeps cache sized some aligned inv block handed
    exact ⟨obj, s', run, free⟩
  · obtain ⟨s', _, run, _⟩ := free_keeps sized inv isHeld
    exact ⟨s', run⟩

end Runs

-- A cache of 64-byte objects in single pages, before and after its first object.
def emptyCache : State := ⟨fun _ => 0xCC, [], [], fun _ => false⟩

theorem slab_direct_sound_first : ∃ obj s', slabDirectAlloc ⟨64, 0⟩ 0x1000 0xFFFF800000000000 ⟨0x2000, 0x5000⟩ emptyCache = .ok (obj, s') ∧
    Sound ⟨64, 0⟩ { s' with held := Function.update s'.held obj true } := by
  have handed : Handed ⟨64, 0⟩ 0xFFFF800000000000 emptyCache ⟨0x2000, 0x5000⟩ := ⟨by decide, by decide, nofun⟩
  have start : Reachable ⟨64, 0⟩ 0x1000 0xFFFF800000000000 emptyCache := .start _ ⟨rfl, rfl, fun _ => rfl⟩
  obtain ⟨_, allocates, _⟩ := slab_direct_sound ⟨64, 0⟩ 0x1000 0xFFFF800000000000 (by decide) (by decide) (by decide) emptyCache start
  obtain ⟨obj, s', run, _⟩ := allocates ⟨0x2000, 0x5000⟩ fun _ => handed
  have taken : step ⟨64, 0⟩ 0x1000 0xFFFF800000000000 (.alloc ⟨0x2000, 0x5000⟩) emptyCache =
      some { s' with held := Function.update s'.held obj true } := by rw [step, run]
  have next : Reachable ⟨64, 0⟩ 0x1000 0xFFFF800000000000 { s' with held := Function.update s'.held obj true } :=
    .step _ _ (.alloc ⟨0x2000, 0x5000⟩) start (fun _ => handed) taken
  exact ⟨obj, s', run, (slab_direct_sound ⟨64, 0⟩ 0x1000 0xFFFF800000000000 (by decide) (by decide) (by decide) _ next).1⟩

end Elysium.SlabDirect
