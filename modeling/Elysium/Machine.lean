import Mathlib.Data.Nat.Bitwise
import Mathlib.Logic.Function.Basic

set_option autoImplicit false

namespace Elysium

-- How a modelled call ends when it does not return. A failed ASSERT panics in
-- the builds that keep assertions. `undefined` stands for behaviour C does not
-- define, such as reading a variable whose initialiser was jumped over, `stale`
-- for going on with a structure that was given back to its pool, and `diverges`
-- for a loop that uses up a bound no returning run reaches.
inductive Fault where
  | assertion
  | panic (tag message : String)
  | undefined
  | stale
  | diverges
deriving DecidableEq, Repr

-- uintptr_t and size_t arithmetic.
def add64 (a b : Nat) : Nat := (a + b) % 2 ^ 64

def sub64 (a b : Nat) : Nat := (a + (2 ^ 64 - b)) % 2 ^ 64

theorem add64_eq {a b : Nat} (fits : a + b < 2 ^ 64) : add64 a b = a + b := Nat.mod_eq_of_lt fits

theorem sub64_eq {a b : Nat} (le : b ≤ a) (fits : a < 2 ^ 64) : sub64 a b = a - b := by
  unfold sub64
  have shifted : a + (2 ^ 64 - b) = a - b + 2 ^ 64 := by omega
  rw [shifted, Nat.add_mod_right, Nat.mod_eq_of_lt (by omega)]

-- A subtraction that underflows wraps to the top of the word.
theorem sub64_wrap {a b : Nat} (lt : a < b) (fits : b < 2 ^ 64) : sub64 a b = a + 2 ^ 64 - b := by
  unfold sub64
  rw [Nat.mod_eq_of_lt (by omega)]
  omega

def pageGranularity : Nat := 0x1000

def memLowSize : Nat := 0x1000000
def memLowMask : Nat := 0xFFFFFF
def memPhysMax : Nat := 0xFFFFFFFFFFFFF

def assertThat (condition : Bool) : Except Fault Unit := if condition then .ok () else .error .assertion

theorem assert_ok {condition : Prop} [Decidable condition] (passed : assertThat (decide condition) = .ok ()) : condition := by
  unfold assertThat at passed
  split at passed
  · rename_i holds
    exact of_decide_eq_true holds
  · cases passed

theorem bind_eq_ok {α β : Type} (first : Except Fault α) (next : α → Except Fault β) (result : β) :
    (first >>= next) = .ok result ↔ ∃ value, first = .ok value ∧ next value = .ok result := by
  cases first with
  | error fault => simp [bind, Except.bind]
  | ok value => simp [bind, Except.bind]

theorem bind_ok {α β : Type} (value : α) (next : α → Except Fault β) : (Except.ok value >>= next) = next value := rfl

end Elysium
