import Mathlib.Logic.Function.Basic

set_option autoImplicit false

namespace Elysium.Bitmap

-- A bitmap in bytes, the low bit of a byte first.
def mask (i : Nat) : BitVec 8 := 1#8 <<< (i % 8)

def get (bytes : Nat → BitVec 8) (i : Nat) : Bool := bytes (i / 8) &&& mask i != 0#8

def set (bytes : Nat → BitVec 8) (i : Nat) (value : Bool) : Nat → BitVec 8 :=
  Function.update bytes (i / 8) (if value then bytes (i / 8) ||| mask i else bytes (i / 8) &&& ~~~mask i)

def zero (bytes : Nat → BitVec 8) (size : Nat) : Nat → BitVec 8 := fun b => if b < size then 0#8 else bytes b

theorem mask_bit (i k : Nat) : (mask i).getLsbD k = decide (k = i % 8) := by
  have low : i % 8 < 8 := Nat.mod_lt i (by decide)
  rw [mask, ← BitVec.twoPow_eq, BitVec.getLsbD_twoPow, decide_eq_true low, Bool.true_and]
  exact decide_eq_decide.mpr eq_comm

theorem get_bit (bytes : Nat → BitVec 8) (i : Nat) : get bytes i = (bytes (i / 8)).getLsbD (i % 8) := by
  have low : i % 8 < 8 := Nat.mod_lt i (by decide)
  rw [get, mask, ← BitVec.twoPow_eq, BitVec.and_twoPow]
  cases bit : (bytes (i / 8)).getLsbD (i % 8) with
  | false => rfl
  | true =>
      have nonzero : BitVec.twoPow 8 (i % 8) ≠ 0#8 := by
        intro zero
        have one := BitVec.getLsbD_twoPow (w := 8) (i % 8) (i % 8)
        simp [zero, low] at one
      simpa using nonzero

theorem get_set (bytes : Nat → BitVec 8) (i j : Nat) (value : Bool) : get (set bytes i value) j = if j = i then value else get bytes j := by
  rw [get_bit, get_bit, set]
  by_cases sameByte : j / 8 = i / 8
  · have low : j % 8 < 8 := Nat.mod_lt j (by decide)
    have sameBit : decide (j % 8 = i % 8) = decide (j = i) := decide_eq_decide.mpr (by omega)
    rw [sameByte, Function.update_self]
    cases value with
    | true =>
        rw [if_pos rfl, BitVec.getLsbD_or, mask_bit, sameBit]
        by_cases same : j = i <;> simp [same]
    | false =>
        rw [if_neg (by decide), BitVec.getLsbD_and, BitVec.getLsbD_not, mask_bit, sameBit]
        by_cases same : j = i <;> simp [same, low]
  · have other : j ≠ i := fun same => sameByte (by rw [same])
    rw [Function.update_of_ne sameByte, if_neg other]

theorem get_zero (bytes : Nat → BitVec 8) (size i : Nat) : get (zero bytes size) i = if i / 8 < size then false else get bytes i := by
  rw [get_bit, get_bit, zero]
  by_cases inside : i / 8 < size <;> simp [inside]

-- Setting the first bits one by one.
def setFirst (bytes : Nat → BitVec 8) (count : Nat) : Nat → BitVec 8 := (List.range count).foldl (fun bytes i => set bytes i true) bytes

theorem get_set_first (bytes : Nat → BitVec 8) (count i : Nat) : get (setFirst bytes count) i = (decide (i < count) || get bytes i) := by
  induction count with
  | zero => simp [setFirst]
  | succ count ih =>
      rw [setFirst, List.range_succ, List.foldl_append, List.foldl_cons, List.foldl_nil, get_set]
      rw [setFirst] at ih
      by_cases last : i = count
      · simp [last]
      · have same : i < count + 1 ↔ i < count := by omega
        rw [if_neg last, ih, decide_eq_decide.mpr same]

end Elysium.Bitmap
