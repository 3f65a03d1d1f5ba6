import Mathlib.Data.BitVec

set_option autoImplicit false

namespace Elysium.LittleEndian

-- The bytes of a 64-bit address space.
abbrev Memory := BitVec 64 → BitVec 8

def byteOf (value : BitVec 64) (i : Nat) : BitVec 8 := (value >>> (8 * i)).setWidth 8

-- The low bytes of a value are stored from an address on.
def store (address value : BitVec 64) (size : Nat) (m : Memory) : Memory := fun a =>
  if (a - address).toNat < size then byteOf value (a - address).toNat else m a

-- The bytes from an address on, zero-extended.
def load (m : Memory) (address : BitVec 64) : Nat → BitVec 64
  | 0 => 0
  | size + 1 => load m address size ||| ((m (address + BitVec.ofNat 64 size)).setWidth 64 <<< (8 * size))

def isZero (m : Memory) (address : BitVec 64) (size : Nat) : Bool := (List.range size).all fun i => m (address + BitVec.ofNat 64 i) == 0

theorem offset_back (address : BitVec 64) {i : Nat} (small : i < 2 ^ 64) : (address + BitVec.ofNat 64 i - address).toNat = i := by
  rw [BitVec.add_comm, BitVec.add_sub_cancel, BitVec.toNat_ofNat, Nat.mod_eq_of_lt small]

theorem store_inside (address value : BitVec 64) {size i : Nat} (m : Memory) (inside : i < size) (small : i < 2 ^ 64) :
    store address value size m (address + BitVec.ofNat 64 i) = byteOf value i := by
  rw [store, offset_back address small, if_pos inside]

theorem store_outside (address value : BitVec 64) {size : Nat} (m : Memory) {a : BitVec 64} (outside : ¬ (a - address).toNat < size) :
    store address value size m a = m a := if_neg outside

theorem byte_bit (value : BitVec 64) (i j : Nat) (low : j < 8) : (byteOf value i).getLsbD j = value.getLsbD (8 * i + j) := by
  simp [byteOf, low]

theorem load_bit (m : Memory) (address : BitVec 64) (size k : Nat) (fits : size ≤ 8) :
    (load m address size).getLsbD k = (decide (k < 8 * size) && (m (address + BitVec.ofNat 64 (k / 8))).getLsbD (k % 8)) := by
  induction size with
  | zero => simp [load]
  | succ size ih =>
      rw [load, BitVec.getLsbD_or, ih (by omega), BitVec.getLsbD_shiftLeft, BitVec.getLsbD_setWidth]
      by_cases before : k < 8 * size
      · simp [before, show k < 8 * (size + 1) by omega]
      · by_cases here : k < 8 * (size + 1)
        · rw [show k - 8 * size = k % 8 by omega, show k / 8 = size by omega]
          simp [before, here, show k < 64 by omega, show k % 8 < 64 by omega]
        · rw [BitVec.getLsbD_of_ge (m _) (k - 8 * size) (by omega)]
          simp [before, here]

theorem load_store (address value : BitVec 64) (size : Nat) (m : Memory) (fits : size ≤ 8) :
    load (store address value size m) address size = (value.setWidth (8 * size)).setWidth 64 := by
  apply BitVec.eq_of_getLsbD_eq
  intro k small
  rw [load_bit _ _ _ _ fits, BitVec.getLsbD_setWidth, BitVec.getLsbD_setWidth]
  by_cases inside : k < 8 * size
  · rw [store_inside address value m (show k / 8 < size by omega) (by omega), byte_bit _ _ _ (Nat.mod_lt _ (by decide)), Nat.div_add_mod]
    simp [inside, small]
  · simp [inside]

theorem load_congr {m m' : Memory} {address : BitVec 64} (size : Nat)
    (same : ∀ i < size, m' (address + BitVec.ofNat 64 i) = m (address + BitVec.ofNat 64 i)) : load m' address size = load m address size := by
  induction size with
  | zero => rfl
  | succ size ih => rw [load, load, ih fun i less => same i (by omega), same size (Nat.lt_succ_self size)]

-- A load and a store of bytes that do not overlap.
theorem load_store_apart (address other value : BitVec 64) {size size' : Nat} (m : Memory) (fits : address.toNat + size ≤ 2 ^ 64)
    (fits' : other.toNat + size' ≤ 2 ^ 64) (apart : address.toNat + size ≤ other.toNat ∨ other.toNat + size' ≤ address.toNat) :
    load (store address value size m) other size' = load m other size' := by
  refine load_congr size' fun i less => store_outside address value m ?_
  have place : (other + BitVec.ofNat 64 i).toNat = other.toNat + i := by
    rw [BitVec.toNat_add, BitVec.toNat_ofNat, Nat.mod_eq_of_lt (by omega), Nat.mod_eq_of_lt (by omega)]
  rw [BitVec.toNat_sub, place]
  omega

end Elysium.LittleEndian
