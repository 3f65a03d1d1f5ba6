import Elysium.Digits
import Elysium.FormatSpec

set_option autoImplicit false

namespace Elysium.Format

open Digits (fixed fixed_length leading leading_length leading_eq_fixed leading_shorter fixed_eq_digits)

section Loops

variable {value radix : Nat}

-- The loop finds the place of the highest digit.
theorem power_loop_eq (large : 1 < radix) (bounded : value < 2 ^ 64) (fuel i : Nat) (enough : 65 ≤ fuel + i)
    (low : radix ^ i ≤ value ∨ i = 0) (length : Int) :
    ∃ j : Nat, powerLoop value radix fuel (radix ^ i) length = .ok (radix ^ j, length + (j - i : Int)) ∧ value < radix ^ (j + 1) ∧
      (radix ^ j ≤ value ∨ j = 0) := by
  have below : radix ^ i < 2 ^ 64 := by
    rcases low with low | rfl
    · omega
    · simp
  have index : i < 64 := by
    by_contra big
    have grows : 2 ^ 64 ≤ radix ^ i := (Nat.pow_le_pow_right (by decide) (by omega : 64 ≤ i)).trans (Nat.pow_le_pow_left large i)
    omega
  have positive : 0 < radix ^ i := Nat.pow_pos (by omega)
  induction fuel generalizing i length with
  | zero => omega
  | succ fuel ih =>
      rw [powerLoop]
      split
      · rename_i more
        rw [ge_iff_le, Nat.le_div_iff_mul_le positive, mul_comm, ← pow_succ] at more
        have fits : radix ^ i * radix % 2 ^ 64 = radix ^ (i + 1) := by
          rw [← pow_succ]
          exact Nat.mod_eq_of_lt (by omega)
        have next : i + 1 < 64 := by
          by_contra big
          have grows : 2 ^ 64 ≤ radix ^ (i + 1) :=
            (Nat.pow_le_pow_right (by decide) (by omega : 64 ≤ i + 1)).trans (Nat.pow_le_pow_left large (i + 1))
          omega
        obtain ⟨j, run, high, least⟩ := ih (i + 1) (by omega) (.inl more) (length + 1) (by omega) next (Nat.pow_pos (by omega))
        refine ⟨j, ?_, high, least⟩
        rw [fits, run]
        congr 2
        push_cast
        omega
      · rename_i less
        rw [ge_iff_le, not_le, Nat.div_lt_iff_lt_mul positive, mul_comm, ← pow_succ] at less
        exact ⟨i, by simp, less, low⟩

theorem digit_loop_all (uppercase : Bool) (large : 1 < radix) {precision : Int} (some_ : precision ≠ 0) (j fuel : Nat) (enough : j + 2 ≤ fuel)
    (small : value < radix ^ (j + 1)) :
    digitLoop uppercase radix precision fuel value (radix ^ j) = .ok ((fixed radix j value).map fun digit => digitChar uppercase (digit % 256)) := by
  have positive : ∀ k, radix ^ k ≠ 0 := fun k => (Nat.pow_pos (by omega : 0 < radix)).ne'
  induction j generalizing fuel value with
  | zero =>
      obtain ⟨fuel, rfl⟩ : ∃ k, fuel = k + 2 := ⟨fuel - 2, by omega⟩
      simp [digitLoop, fixed, some_, Nat.div_eq_of_lt large, bind_ok]
  | succ j ih =>
      obtain ⟨fuel, rfl⟩ : ∃ k, fuel = k + 1 := ⟨fuel - 1, by omega⟩
      rw [digitLoop, if_pos ⟨positive _, .inl some_⟩, pow_succ, Nat.mul_div_cancel _ (by omega : 0 < radix), ← pow_succ,
        ih _ (by omega) (Nat.mod_lt _ (Nat.pos_of_ne_zero (positive _))), bind_ok]
      rfl

theorem digit_loop_leading (uppercase : Bool) (large : 1 < radix) (j fuel : Nat) (enough : j + 2 ≤ fuel) (small : value < radix ^ (j + 1)) :
    digitLoop uppercase radix 0 fuel value (radix ^ j) = .ok ((leading radix j value).map fun digit => digitChar uppercase (digit % 256)) := by
  have positive : ∀ k, radix ^ k ≠ 0 := fun k => (Nat.pow_pos (by omega : 0 < radix)).ne'
  induction j generalizing fuel value with
  | zero =>
      obtain ⟨fuel, rfl⟩ : ∃ k, fuel = k + 2 := ⟨fuel - 2, by omega⟩
      by_cases zero : value = 0
      · simp [digitLoop, leading, zero]
      · simp [digitLoop, leading, zero, Nat.div_eq_of_lt large, bind_ok]
  | succ j ih =>
      obtain ⟨fuel, rfl⟩ : ∃ k, fuel = k + 1 := ⟨fuel - 1, by omega⟩
      by_cases zero : value = 0
      · simp [digitLoop, leading, zero]
      · rw [digitLoop, if_pos ⟨positive _, .inr zero⟩, pow_succ, Nat.mul_div_cancel _ (by omega : 0 < radix), ← pow_succ,
          ih _ (by omega) (Nat.mod_lt _ (Nat.pos_of_ne_zero (positive _))), bind_ok, leading, if_neg zero]
        rfl

end Loops

-- The digits that a number takes room for.
def fullDigits (number : Number) (precision : Int) (value : Nat) : Bytes :=
  if value = 0 then if precision ≠ 0 then [chr '0'] else []
  else (Nat.digits number.radix value).reverse.map fun digit => digitChar number.uppercase (digit % 256)

def signOf (number : Number) (value : Nat) : Bytes :=
  if number.negative then [chr '-'] else if ¬ number.noPrefixOnZero ∨ value ≠ 0 then prefixAt number.prefixOffset else []

-- precision_pad, for a number of the given length.
def padFor (number : Number) (precision : Int) (value : Nat) (length : Int) : Int :=
  let pad := if precision > length then precision - length else 0
  if pad = 0 ∧ number.leadingZero ∧ (value ≠ 0 ∨ ¬ number.noPrefixOnZero) then 1 else pad

theorem pad_for_nonneg (number : Number) (precision : Int) (value : Nat) (length : Int) : 0 ≤ padFor number precision value length := by
  unfold padFor
  grind

-- How the parts of a printed number are put together.
def arranged (conversion : Conversion) (length : Int) (sign zeroes digits : Bytes) : Bytes :=
  let flags := conversion.flags
  let before := if ¬ (flags.left ∨ flags.zero) then padding (chr ' ') length conversion.width else []
  if length = 0 then before
  else
    before ++ sign ++ (if flags.zero ∧ ¬ flags.left then padding (chr '0') length conversion.width else []) ++ zeroes ++ digits ++
      if flags.left then padding (chr ' ') length conversion.width else []

theorem checked_ok {n : Int} (low : 0 ≤ n) (high : n ≤ intMax) : checked n = .ok n := by
  rw [checked, if_pos ⟨by unfold intMin; omega, high⟩]

-- The two loops: the length of the digits, and what is printed of them.
theorem number_loops (number : Number) {value : Nat} (precision : Int) (large : 1 < number.radix) (bounded : value < 2 ^ 64) :
    ∃ (pw : Nat) (shown : Bytes),
      powerLoop value number.radix 65 1 (if precision ≠ 0 ∨ value ≠ 0 then 1 else 0) =
        .ok (pw, ((fullDigits number precision value).length : Int)) ∧
      digitLoop number.uppercase number.radix precision 66 value pw = .ok shown ∧
      shown.length ≤ (fullDigits number precision value).length ∧
      (shown = fullDigits number precision value ↔ ¬ (precision = 0 ∧ value ≠ 0 ∧ value % number.radix = 0)) := by
  obtain ⟨j, power, high, low⟩ := power_loop_eq large bounded 65 0 (by decide) (.inr rfl) (if precision ≠ 0 ∨ value ≠ 0 then 1 else 0)
  rw [pow_zero, Nat.cast_zero, sub_zero] at power
  have index : j < 64 := by
    rcases low with low | rfl
    · by_contra big
      have grows : 2 ^ 64 ≤ number.radix ^ j :=
        (Nat.pow_le_pow_right (by decide) (by omega : 64 ≤ j)).trans (Nat.pow_le_pow_left large j)
      omega
    · decide
  have all := fun some_ : precision ≠ 0 => digit_loop_all number.uppercase large some_ j 66 (by omega) high
  have cut := digit_loop_leading number.uppercase large j 66 (by omega) high
  by_cases zero : value = 0
  · have first : j = 0 := by
      rcases low with low | rfl
      · have positive : 0 < number.radix ^ j := Nat.pow_pos (by omega)
        omega
      · rfl
    subst first zero
    by_cases none : precision = 0
    · subst none
      exact ⟨_, _, by simpa [fullDigits] using power, cut, by simp [leading], by simp [leading, fullDigits]⟩
    · exact ⟨_, _, by simpa [fullDigits, none] using power, all none, by simp [fixed, fullDigits, none],
        by simp [fixed, fullDigits, none, digitChar]⟩
  · have least : number.radix ^ j ≤ value := by
      rcases low with low | rfl
      · exact low
      · rw [pow_zero]
        omega
    have full : fullDigits number precision value = (fixed number.radix j value).map fun digit => digitChar number.uppercase (digit % 256) := by
      rw [fullDigits, if_neg zero, fixed_eq_digits large j least high]
    have length : ((fullDigits number precision value).length : Int) = 1 + j := by
      rw [full, List.length_map, fixed_length]
      push_cast
      omega
    have start : (if precision ≠ 0 ∨ value ≠ 0 then (1 : Int) else 0) = 1 := if_pos (.inr zero)
    rw [start] at power ⊢
    rw [← length] at power
    by_cases none : precision = 0
    · subst none
      refine ⟨_, _, power, cut, ?_, ?_⟩
      · rw [full, List.length_map, List.length_map, fixed_length]
        exact leading_length j value
      · by_cases lost : value % number.radix = 0
        · refine iff_of_false (fun same => ?_) (not_not_intro ⟨rfl, zero, lost⟩)
          have shorter := leading_shorter (by omega) j high lost
          have lengths := congrArg List.length same
          rw [full, List.length_map, List.length_map, fixed_length] at lengths
          omega
        · refine iff_of_true ?_ fun bad => lost bad.2.2
          rw [full, leading_eq_fixed (by omega) j high lost]
    · exact ⟨_, _, power, all none, by rw [full], iff_of_true full.symm fun bad => none bad.1⟩

theorem print_number_eq (conversion : Conversion) (number : Number) {value : Nat} (large : 1 < number.radix) (bounded : value < 2 ^ 64)
    {full : Bytes} {pad : Int} (fullIs : full = fullDigits number conversion.precision value)
    (padIs : pad = padFor number conversion.precision value full.length)
    (fits : full.length + pad + (signOf number value).length ≤ intMax) :
    ∃ shown : Bytes, shown.length ≤ full.length ∧
      (shown = full ↔ ¬ (conversion.precision = 0 ∧ value ≠ 0 ∧ value % number.radix = 0)) ∧
      printNumber conversion number value =
        .ok (arranged conversion (full.length + pad + (signOf number value).length) (signOf number value)
          (List.replicate pad.toNat (chr '0')) shown) := by
  obtain ⟨pw, shown, power, printed, shorter, same⟩ := number_loops number conversion.precision large bounded
  rw [← fullIs] at power shorter same
  have padLow := pad_for_nonneg number conversion.precision value full.length
  rw [← padIs] at padLow
  refine ⟨shown, shorter, same, ?_⟩
  have first : checked (full.length + pad) = .ok (full.length + pad) := checked_ok (by omega) (by omega)
  have second : checked (full.length + pad + (signOf number value).length) = .ok (full.length + pad + (signOf number value).length) :=
    checked_ok (by omega) fits
  unfold padFor at padIs
  unfold signOf at second ⊢
  unfold printNumber
  simp only [power, bind_ok, ← padIs, first, second, printed, arranged]
  exact (apply_ite Except.ok _ _ _).symm

end Elysium.Format
