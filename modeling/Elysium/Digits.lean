import Mathlib.Data.Nat.Digits.Lemmas

set_option autoImplicit false

namespace Elysium.Digits

-- The j + 1 lowest digits of a number, the highest first.
def fixed (radix : Nat) : Nat → Nat → List Nat
  | 0, n => [n]
  | j + 1, n => n / radix ^ (j + 1) :: fixed radix j (n % radix ^ (j + 1))

-- The same, given up as soon as nothing is left of the number.
def leading (radix : Nat) : Nat → Nat → List Nat
  | 0, n => if n = 0 then [] else [n]
  | j + 1, n => if n = 0 then [] else n / radix ^ (j + 1) :: leading radix j (n % radix ^ (j + 1))

variable {radix : Nat}

@[simp] theorem fixed_length (j n : Nat) : (fixed radix j n).length = j + 1 := by
  induction j generalizing n with
  | zero => rfl
  | succ j ih => simp [fixed, ih]

theorem leading_length (j n : Nat) : (leading radix j n).length ≤ j + 1 := by
  induction j generalizing n with
  | zero =>
      unfold leading
      split <;> simp
  | succ j ih =>
      unfold leading
      split
      · simp
      · have rest := ih (n % radix ^ (j + 1))
        simpa using rest

theorem leading_eq_fixed (positive : 0 < radix) (j : Nat) {n : Nat} (small : n < radix ^ (j + 1)) (kept : n % radix ≠ 0) :
    leading radix j n = fixed radix j n := by
  have other : n ≠ 0 := by
    rintro rfl
    simp at kept
  induction j generalizing n with
  | zero => rw [leading, fixed, if_neg other]
  | succ j ih =>
      have same : n % radix ^ (j + 1) % radix = n % radix := Nat.mod_mod_of_dvd n (dvd_pow_self radix (Nat.succ_ne_zero j))
      rw [leading, fixed, if_neg other, ih (Nat.mod_lt _ (Nat.pow_pos positive)) (same.symm ▸ kept)]
      intro zero
      rw [zero, Nat.zero_mod] at same
      exact kept same.symm

-- Trailing zeros are lost.
theorem leading_shorter (positive : 0 < radix) (j : Nat) {n : Nat} (small : n < radix ^ (j + 1)) (lost : n % radix = 0) :
    (leading radix j n).length < j + 1 := by
  induction j generalizing n with
  | zero =>
      rw [zero_add, pow_one] at small
      rw [Nat.mod_eq_of_lt small] at lost
      simp [leading, lost]
  | succ j ih =>
      rw [leading]
      split
      · simp
      · have same : n % radix ^ (j + 1) % radix = n % radix := Nat.mod_mod_of_dvd n (dvd_pow_self radix (Nat.succ_ne_zero j))
        have rest := ih (Nat.mod_lt _ (Nat.pow_pos positive)) (same.trans lost)
        rw [List.length_cons]
        omega

theorem fixed_succ (j n : Nat) : fixed radix (j + 1) n = fixed radix j (n / radix) ++ [n % radix] := by
  induction j generalizing n with
  | zero => simp [fixed]
  | succ j ih =>
      rw [fixed, ih, fixed, List.cons_append]
      congr 1
      · rw [Nat.div_div_eq_div_mul, pow_succ' radix (j + 1)]
      · congr 2
        · rw [pow_succ' radix (j + 1), Nat.mod_mul_right_div_self]
        · rw [Nat.mod_mod_of_dvd n (dvd_pow_self radix (Nat.succ_ne_zero (j + 1)))]

-- A number with j + 1 digits has these.
theorem fixed_eq_digits (large : 1 < radix) (j : Nat) {n : Nat} (low : radix ^ j ≤ n) (high : n < radix ^ (j + 1)) :
    fixed radix j n = (Nat.digits radix n).reverse := by
  induction j generalizing n with
  | zero =>
      rw [zero_add, pow_one] at high
      rw [pow_zero] at low
      rw [Nat.digits_of_lt radix n (by omega) high]
      rfl
  | succ j ih =>
      have positive : 0 < radix ^ (j + 1) := Nat.pow_pos (by omega)
      rw [Nat.digits_def' large (by omega), List.reverse_cons, fixed_succ, ih]
      · rw [Nat.le_div_iff_mul_le (by omega), ← pow_succ]
        exact low
      · rw [Nat.div_lt_iff_lt_mul (by omega), ← pow_succ]
        exact high

end Elysium.Digits
