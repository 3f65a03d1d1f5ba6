import Elysium.LittleEndian
import Elysium.Pmm
import Elysium.SlabObjects

set_option autoImplicit false

namespace Elysium.SlabDirect

open LittleEndian (Memory load store)
open Slab (Config slabHeader)
open Pmm (pmmMaxOrder)

abbrev Address : Type := BitVec 64

def word (m : Memory) (a : Address) : BitVec 64 := load m a 8

def put (a : Address) (value : BitVec 64) (m : Memory) : Memory := store a value 8 m

-- An address inside a slab's block.
def place (slab : Address) (offset : Nat) : Address := slab + BitVec.ofNat 64 offset

-- The fields of slab_t. Its list node is left out: the lists are the sequences
-- they stand for.
def cacheField (slab : Address) : Address := place slab 0
def blockField (slab : Address) : Address := place slab 24
def freeCount (slab : Address) : Address := place slab 32
def freelist (slab : Address) : Address := place slab 40

-- A block pmm_alloc hands out: its pmm_block_t and its physical address.
structure PmmBlock where
  pointer : Address
  paddr : BitVec 64

structure State where
  memory : Memory
  slabsFull : List Address
  slabsPartial : List Address
  -- The objects that were handed out and not given back, which the code does not keep.
  held : Address → Bool

def State.slabs (s : State) : List Address := s.slabsPartial ++ s.slabsFull

section Operations

variable (cfg : Config) (cache hhdmOffset : Address)

def hhdm (paddr : BitVec 64) : Address := paddr + hhdmOffset

def object (slab : Address) (i : Nat) : Address := place slab (slabHeader + i * cfg.objectSize)

-- *obj = slab->freelist; slab->freelist = obj;
def thread (slab obj : Address) (m : Memory) : Memory := put (freelist slab) obj (put obj (word m (freelist slab)) m)

def countUp (slab : Address) (m : Memory) : Memory := put (freeCount slab) (word m (freeCount slab) + 1) m

def countDown (slab : Address) (m : Memory) : Memory := put (freeCount slab) (word m (freeCount slab) - 1) m

def carve (slab : Address) : Nat → Memory → Memory
  | 0, m => m
  | i + 1, m => countUp slab (thread slab (object cfg slab i) (carve slab i m))

def header (slab : Address) (block : PmmBlock) (m : Memory) : Memory :=
  put (freeCount slab) 0 (put (freelist slab) 0 (put (blockField slab) block.pointer (put (cacheField slab) cache m)))

def cacheMakeSlab (block : PmmBlock) (m : Memory) : Except Fault (Address × Memory) := do
  let slab := hhdm hhdmOffset block.paddr
  assertThat (cfg.objects > 0)
  return (slab, carve cfg slab cfg.objects (header cache slab block m))

-- The slab the next object comes from is the first one with an object left.
def ensurePartial (block : PmmBlock) (s : State) : Except Fault State :=
  if s.slabsPartial.length = 0 then do
    let (slab, memory) ← cacheMakeSlab cfg cache hhdmOffset block s.memory
    return { s with memory := memory, slabsPartial := slab :: s.slabsPartial }
  else .ok s

-- list_node_delete from slabs_partial and list_push to slabs_full, and back. A node
-- that is not on the list named corrupts it.
def retire (slab : Address) (s : State) : Except Fault State :=
  if slab ∈ s.slabsPartial then
    .ok { s with slabsPartial := s.slabsPartial.erase slab, slabsFull := slab :: s.slabsFull }
  else .error .undefined

def revive (slab : Address) (s : State) : Except Fault State :=
  if slab ∈ s.slabsFull then
    .ok { s with slabsFull := s.slabsFull.erase slab, slabsPartial := slab :: s.slabsPartial }
  else .error .undefined

-- slab_direct_alloc, with the block pmm_alloc hands out should it be asked.
def slabDirectAlloc (block : PmmBlock) (s : State) : Except Fault (Address × State) := do
  let s ← ensurePartial cfg cache hhdmOffset block s
  match s.slabsPartial with
  | [] => .error .undefined
  | slab :: _ =>
      assertThat ((word s.memory (freeCount slab)).toNat > 0)
      let obj := word s.memory (freelist slab)
      let s := { s with memory := countDown slab (put (freelist slab) (word s.memory obj) s.memory) }
      let s ← if word s.memory (freeCount slab) = 0 then retire slab s else .ok s
      return (obj, s)

def slabMask : BitVec 64 := ~~~(BitVec.ofNat 64 cfg.bytes - 1)

def slabDirectFree (obj : Address) (s : State) : Except Fault State := do
  let slab := obj &&& slabMask cfg
  let s := { s with memory := thread slab obj s.memory }
  let s ← if word s.memory (freeCount slab) = 0 then revive slab s else .ok s
  return { s with memory := countUp slab s.memory }

end Operations

section Geometry

-- What pmm_alloc promises of a block: its order is one it has, and it is aligned to
-- its size. With an HHDM that is aligned too, so is the slab.
structure IsBlock (cfg : Config) (slab : Address) : Prop where
  small : cfg.blockOrder ≤ pmmMaxOrder
  aligned : slab.toNat % cfg.bytes = 0

variable {cfg : Config} {slab other : Address} {m : Memory}

theorem bytes_dvd (small : cfg.blockOrder ≤ pmmMaxOrder) : cfg.bytes ∣ 2 ^ 64 := by
  have power : cfg.bytes = 2 ^ (cfg.blockOrder + 12) := by rw [Config.bytes, Nat.pow_add]; rfl
  rw [power]
  unfold pmmMaxOrder at small
  exact Nat.pow_dvd_pow 2 (by omega)

theorem block_ends (block : IsBlock cfg slab) : slab.toNat + cfg.bytes ≤ 2 ^ 64 := by
  obtain ⟨k, total⟩ := bytes_dvd block.small
  obtain ⟨j, place⟩ := Nat.dvd_of_mod_eq_zero block.aligned
  have below : cfg.bytes * j < cfg.bytes * k := place ▸ total ▸ slab.isLt
  have less : j + 1 ≤ k := Nat.lt_of_mul_lt_mul_left below
  calc slab.toNat + cfg.bytes = cfg.bytes * (j + 1) := by rw [place, Nat.mul_add, Nat.mul_one]
    _ ≤ cfg.bytes * k := Nat.mul_le_mul_left _ less
    _ = 2 ^ 64 := total.symm

theorem place_to_nat (block : IsBlock cfg slab) {offset : Nat} (inside : offset < cfg.bytes) :
    (place slab offset).toNat = slab.toNat + offset := by
  have ends := block_ends block
  have positive := Slab.bytes_pos cfg
  rw [place, BitVec.toNat_add, BitVec.toNat_ofNat, Nat.mod_eq_of_lt (a := offset) (by omega), Nat.mod_eq_of_lt (by omega)]

theorem hhdm_aligned {hhdmOffset : Address} {paddr : BitVec 64} (small : cfg.blockOrder ≤ pmmMaxOrder)
    (offset : hhdmOffset.toNat % cfg.bytes = 0) (aligned : paddr.toNat % cfg.bytes = 0) : IsBlock cfg (hhdm hhdmOffset paddr) := by
  refine ⟨small, ?_⟩
  rw [hhdm, BitVec.toNat_add, Nat.mod_mod_of_dvd _ (bytes_dvd small), Nat.add_mod, offset, aligned, Nat.add_zero, Nat.zero_mod]

-- Two blocks of one size that start at different places do not overlap.
theorem blocks_apart (block : IsBlock cfg slab) (block' : IsBlock cfg other) (different : slab ≠ other) :
    slab.toNat + cfg.bytes ≤ other.toNat ∨ other.toNat + cfg.bytes ≤ slab.toNat := by
  obtain ⟨j, first⟩ := Nat.dvd_of_mod_eq_zero block.aligned
  obtain ⟨k, second⟩ := Nat.dvd_of_mod_eq_zero block'.aligned
  have apart : j ≠ k := by
    rintro rfl
    exact different (BitVec.eq_of_toNat_eq (first.trans second.symm))
  rw [first, second]
  rcases Nat.lt_or_gt_of_ne apart with less | less
  · refine .inl ?_
    calc cfg.bytes * j + cfg.bytes = cfg.bytes * (j + 1) := by rw [Nat.mul_add, Nat.mul_one]
      _ ≤ cfg.bytes * k := Nat.mul_le_mul_left _ less
  · refine .inr ?_
    calc cfg.bytes * k + cfg.bytes = cfg.bytes * (k + 1) := by rw [Nat.mul_add, Nat.mul_one]
      _ ≤ cfg.bytes * j := Nat.mul_le_mul_left _ less

theorem slab_of_place (block : IsBlock cfg slab) {offset : Nat} (inside : offset < cfg.bytes) :
    place slab offset &&& slabMask cfg = slab := by
  obtain ⟨k, first⟩ := Nat.dvd_of_mod_eq_zero block.aligned
  have power : cfg.bytes = 2 ^ (cfg.blockOrder + 12) := by rw [Config.bytes, Nat.pow_add]; rfl
  have small := block.small
  unfold pmmMaxOrder at small
  have low : (BitVec.ofNat 64 cfg.bytes - 1).toNat = 2 ^ (cfg.blockOrder + 12) - 1 := by
    have bound : 2 ^ (cfg.blockOrder + 12) < 2 ^ 64 := Nat.pow_lt_pow_right (by decide) (by omega)
    have positive := Nat.two_pow_pos (cfg.blockOrder + 12)
    have one : (1 : BitVec 64).toNat = 1 := rfl
    rw [BitVec.toNat_sub, BitVec.toNat_ofNat, one, ← power, Nat.mod_eq_of_lt (a := cfg.bytes) (by omega)]
    omega
  apply BitVec.eq_of_getLsbD_eq
  intro i less
  rw [BitVec.getLsbD_and, slabMask, BitVec.getLsbD_not]
  simp only [less, decide_true, Bool.true_and]
  have masked : (BitVec.ofNat 64 cfg.bytes - 1).getLsbD i = decide (i < cfg.blockOrder + 12) := by
    rw [BitVec.getLsbD, low, Nat.testBit_two_pow_sub_one]
  have bit : (place slab offset).getLsbD i = (2 ^ (cfg.blockOrder + 12) * k + offset).testBit i := by
    rw [BitVec.getLsbD, place_to_nat block inside, first, power]
  have own : slab.getLsbD i = (2 ^ (cfg.blockOrder + 12) * k).testBit i := by rw [BitVec.getLsbD, first, power]
  rw [masked, bit, own, Nat.testBit_two_pow_mul, Nat.testBit_two_pow_mul_add k (power ▸ inside)]
  by_cases high : i < cfg.blockOrder + 12
  · simp [high, Nat.not_le.mpr high]
  · simp [high, Nat.le_of_not_lt high]

theorem object_ends {i : Nat} (inside : i < cfg.objects) : slabHeader + i * cfg.objectSize + cfg.objectSize ≤ cfg.bytes := by
  have ends : cfg.object 0 i + cfg.objectSize ≤ 0 + cfg.bytes := Slab.object_ends inside
  rw [Config.object] at ends
  omega

theorem objects_apart {i j : Nat} (different : i ≠ j) :
    i * cfg.objectSize + cfg.objectSize ≤ j * cfg.objectSize ∨ j * cfg.objectSize + cfg.objectSize ≤ i * cfg.objectSize := by
  rcases Nat.lt_or_gt_of_ne different with less | less
  · exact .inl (Nat.succ_mul i _ ▸ Nat.mul_le_mul_right _ less)
  · exact .inr (Nat.succ_mul j _ ▸ Nat.mul_le_mul_right _ less)

end Geometry

end Elysium.SlabDirect
