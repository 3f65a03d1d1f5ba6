import Mathlib.Data.Nat.Bitwise
import Mathlib.Tactic.Ring
import Mathlib.Tactic.Linarith

set_option autoImplicit false

namespace Dyadic

-- The line of naturals is cut into cells of 2^k points for every order k. Two
-- cells are nested or disjoint, which is why a point and an order name a cell.
def SameCell (k p q : Nat) : Prop := p / 2 ^ k = q / 2 ^ k

instance (k p q : Nat) : Decidable (SameCell k p q) := inferInstanceAs (Decidable (_ = _))

def IsHead (k h : Nat) : Prop := 2 ^ k ∣ h

instance (k h : Nat) : Decidable (IsHead k h) := inferInstanceAs (Decidable (_ ∣ _))

def cellHead (k p : Nat) : Nat := p / 2 ^ k * 2 ^ k

theorem same_cell_refl (k p : Nat) : SameCell k p p := rfl

theorem same_cell_symm {k p q : Nat} (same : SameCell k p q) : SameCell k q p := Eq.symm same

theorem same_cell_trans {k p q r : Nat} (left : SameCell k p q) (right : SameCell k q r) : SameCell k p r :=
  Eq.trans left right

theorem div_pow_add (k j p : Nat) : p / 2 ^ (k + j) = p / 2 ^ k / 2 ^ j := by
  rw [Nat.div_div_eq_div_mul, Nat.pow_add]

theorem same_cell_mono {j k p q : Nat} (le : j ≤ k) (same : SameCell j p q) : SameCell k p q := by
  obtain ⟨d, rfl⟩ := Nat.exists_eq_add_of_le le
  unfold SameCell at same ⊢
  rw [div_pow_add, div_pow_add, same]

theorem same_cell_head {k h : Nat} (head : IsHead k h) (p : Nat) :
    SameCell k h p ↔ h ≤ p ∧ p < h + 2 ^ k := by
  obtain ⟨m, rfl⟩ := head
  have positive : 0 < 2 ^ k := Nat.two_pow_pos k
  unfold SameCell
  rw [Nat.mul_div_cancel_left m positive, eq_comm, Nat.div_eq_iff positive, Nat.mul_comm m]
  omega

theorem cell_head_is_head (k p : Nat) : IsHead k (cellHead k p) := ⟨p / 2 ^ k, Nat.mul_comm _ _⟩

theorem cell_head_same (k p : Nat) : SameCell k (cellHead k p) p := by
  unfold SameCell cellHead
  exact Nat.mul_div_cancel _ (Nat.two_pow_pos k)

theorem is_head_mono {j k h : Nat} (le : j ≤ k) (head : IsHead k h) : IsHead j h :=
  (Nat.pow_dvd_pow 2 le).trans head

theorem head_unique {k a b : Nat} (headA : IsHead k a) (headB : IsHead k b) (same : SameCell k a b) : a = b := by
  obtain ⟨m, rfl⟩ := headA
  obtain ⟨n, rfl⟩ := headB
  unfold SameCell at same
  rw [Nat.mul_div_cancel_left _ (Nat.two_pow_pos k), Nat.mul_div_cancel_left _ (Nat.two_pow_pos k)] at same
  rw [same]

theorem head_zero (p : Nat) : IsHead 0 p := Nat.one_dvd p

theorem same_cell_zero {p q : Nat} (same : SameCell 0 p q) : p = q := head_unique (head_zero p) (head_zero q) same

def buddy (k h : Nat) : Nat := h ^^^ 2 ^ k

theorem buddy_cell (k h : Nat) : buddy k h / 2 ^ k = h / 2 ^ k ^^^ 1 := by
  unfold buddy
  rw [Nat.xor_div_two_pow, Nat.div_self (Nat.two_pow_pos k)]

theorem xor_one_cases (a : Nat) : (a % 2 = 0 ∧ a ^^^ 1 = a + 1) ∨ (a % 2 = 1 ∧ (a ^^^ 1) + 1 = a) := by
  rcases Nat.mod_two_eq_zero_or_one a with even | odd
  · exact .inl ⟨even, Nat.xor_one_of_even (Nat.even_iff.mpr even)⟩
  · refine .inr ⟨odd, ?_⟩
    rw [Nat.xor_one_of_odd (Nat.odd_iff.mpr odd)]
    omega

theorem buddy_other_cell (k h : Nat) : ¬ SameCell k h (buddy k h) := by
  unfold SameCell
  rw [buddy_cell]
  rcases xor_one_cases (h / 2 ^ k) with ⟨_, eq⟩ | ⟨_, eq⟩ <;> omega

theorem div_pow_succ (k p : Nat) : p / 2 ^ (k + 1) = p / 2 ^ k / 2 := by
  simpa using div_pow_add k 1 p

theorem buddy_parent (k h : Nat) : SameCell (k + 1) h (buddy k h) := by
  unfold SameCell
  rw [div_pow_succ, div_pow_succ, buddy_cell]
  rcases xor_one_cases (h / 2 ^ k) with ⟨_, eq⟩ | ⟨_, eq⟩ <;> omega

theorem parent_cells (k h p : Nat) (inParent : SameCell (k + 1) h p) :
    SameCell k h p ∨ SameCell k (buddy k h) p := by
  unfold SameCell at *
  rw [div_pow_succ, div_pow_succ] at inParent
  rw [buddy_cell]
  rcases xor_one_cases (h / 2 ^ k) with ⟨_, eq⟩ | ⟨_, eq⟩ <;> omega

theorem buddy_head {k h : Nat} (head : IsHead k h) : IsHead k (buddy k h) := by
  unfold IsHead buddy at *
  rw [Nat.dvd_iff_mod_eq_zero] at head ⊢
  rw [Nat.xor_mod_two_pow, head, Nat.mod_self]
  rfl

theorem buddy_buddy (k h : Nat) : buddy k (buddy k h) = h := by
  unfold buddy
  rw [Nat.xor_assoc, Nat.xor_self, Nat.xor_zero]

-- The lower of two buddies is the head of their parent; the upper one sits
-- exactly half a parent above it.
theorem parent_head_cases {k h : Nat} (head : IsHead k h) :
    (IsHead (k + 1) h ∧ buddy k h = h + 2 ^ k) ∨ (IsHead (k + 1) (buddy k h) ∧ h = buddy k h + 2 ^ k) := by
  have other := buddy_head head
  have cell := buddy_cell k h
  obtain ⟨m, hm⟩ := head
  obtain ⟨n, hn⟩ := other
  have mEq : h / 2 ^ k = m := by rw [hm, Nat.mul_div_cancel_left _ (Nat.two_pow_pos k)]
  have nEq : buddy k h / 2 ^ k = n := by rw [hn, Nat.mul_div_cancel_left _ (Nat.two_pow_pos k)]
  rw [mEq, nEq] at cell
  rcases xor_one_cases m with ⟨even, eq⟩ | ⟨odd, eq⟩
  · refine .inl ⟨?_, ?_⟩
    · rw [hm]
      exact ⟨m / 2, by rw [Nat.pow_succ, Nat.mul_assoc]; congr 1; omega⟩
    · rw [hn, cell, eq, hm, Nat.mul_succ]
  · refine .inr ⟨?_, ?_⟩
    · rw [hn]
      exact ⟨n / 2, by rw [Nat.pow_succ, Nat.mul_assoc]; congr 1; omega⟩
    · rw [hn, cell]
      conv_lhs => rw [hm, ← eq, Nat.mul_succ]

theorem half_is_buddy {k h : Nat} (head : IsHead (k + 1) h) : h + 2 ^ k = buddy k h := by
  rcases parent_head_cases (is_head_mono (Nat.le_succ k) head) with ⟨_, eq⟩ | ⟨other, eq⟩
  · exact eq.symm
  · have same := head_unique other head (same_cell_symm (buddy_parent k h))
    have positive := Nat.two_pow_pos k
    omega

end Dyadic
