import Mathlib.Data.List.Sort
import Mathlib.Logic.Function.Iterate

set_option autoImplicit false

namespace Elysium.Runs

-- A partial map on positions, cut into runs: from one position to the next the
-- value goes on as `next` says.
structure Run (α : Type) where
  first : Nat
  count : Nat
  value : α
deriving DecidableEq

section Runs

variable {α : Type} (next : α → α)

def Run.Contains (r : Run α) (p : Nat) : Prop := r.first ≤ p ∧ p < r.first + r.count

def Run.at (r : Run α) (p : Nat) : α := next^[p - r.first] r.value

structure Maximal (values : Nat → Option α) (r : Run α) : Prop where
  nonempty : 0 < r.count
  filled : ∀ p, r.Contains p → values p = some (r.at next p)
  before : ∀ p w, p + 1 = r.first → values p = some w → next w ≠ r.value
  after : values (r.first + r.count) ≠ some (r.at next (r.first + r.count))

variable {next} {values : Nat → Option α}

theorem at_succ (r : Run α) {p : Nat} (above : r.first ≤ p) : r.at next (p + 1) = next (r.at next p) := by
  have shift : p + 1 - r.first = p - r.first + 1 := by omega
  rw [Run.at, Run.at, shift, Function.iterate_succ_apply']

theorem at_first (r : Run α) : r.at next r.first = r.value := by
  rw [Run.at, Nat.sub_self, Function.iterate_zero_apply]

-- A maximal run does not start inside another one.
theorem first_not_inside {r q : Run α} (maximalR : Maximal next values r) (maximalQ : Maximal next values q)
    (inside : r.Contains q.first) : q.first = r.first := by
  obtain ⟨above, below⟩ := inside
  rcases Nat.eq_or_lt_of_le above with same | later
  · exact same.symm
  · have previous : r.Contains (q.first - 1) := ⟨by omega, by omega⟩
    have shared : r.at next q.first = q.value := by
      have one := maximalR.filled q.first ⟨above, below⟩
      have two := maximalQ.filled q.first ⟨Nat.le_refl _, Nat.lt_add_of_pos_right maximalQ.nonempty⟩
      rw [one, at_first] at two
      exact Option.some.inj two
    have step := @at_succ _ next r (q.first - 1) (by omega)
    rw [Nat.sub_add_cancel (by omega), shared] at step
    exact absurd step.symm (maximalQ.before _ _ (by omega) (maximalR.filled _ previous))

theorem at_congr {r q : Run α} (first : q.first = r.first) (value : q.value = r.value) (p : Nat) :
    q.at next p = r.at next p := by
  rw [Run.at, Run.at, first, value]

theorem count_not_less {r q : Run α} (maximalR : Maximal next values r) (maximalQ : Maximal next values q)
    (first : q.first = r.first) (value : q.value = r.value) : ¬ r.count < q.count := by
  intro shorter
  refine maximalR.after ?_
  rw [maximalQ.filled _ ⟨by omega, by omega⟩, at_congr first value]

-- Through one position goes at most one maximal run.
theorem maximal_unique {r q : Run α} (maximalR : Maximal next values r) (maximalQ : Maximal next values q) {p : Nat}
    (inR : r.Contains p) (inQ : q.Contains p) : q = r := by
  have first : q.first = r.first := by
    rcases Nat.le_total r.first q.first with before | after
    · exact first_not_inside maximalR maximalQ ⟨before, Nat.lt_of_le_of_lt inQ.1 inR.2⟩
    · exact (first_not_inside maximalQ maximalR ⟨after, Nat.lt_of_le_of_lt inR.1 inQ.2⟩).symm
  have value : q.value = r.value := by
    have one := maximalR.filled r.first ⟨Nat.le_refl _, Nat.lt_add_of_pos_right maximalR.nonempty⟩
    have two := maximalQ.filled q.first ⟨Nat.le_refl _, Nat.lt_add_of_pos_right maximalQ.nonempty⟩
    rw [at_first] at one two
    rw [first, one] at two
    exact (Option.some.inj two).symm
  have count : q.count = r.count :=
    Nat.le_antisymm (Nat.le_of_not_lt (count_not_less maximalR maximalQ first value))
      (Nat.le_of_not_lt (count_not_less maximalQ maximalR first.symm value.symm))
  cases q
  cases r
  simp_all

def Ascending (runs : List (Run α)) : Prop := runs.Pairwise fun r q => r.first < q.first

-- Maximal runs that reach every value are all there are.
theorem covering_complete {runs : List (Run α)} (maximal : ∀ r ∈ runs, Maximal next values r)
    (covering : ∀ p w, values p = some w → ∃ r ∈ runs, r.Contains p) (r : Run α) :
    r ∈ runs ↔ Maximal next values r := by
  refine ⟨maximal r, fun isMaximal => ?_⟩
  have start : r.Contains r.first := ⟨Nat.le_refl _, Nat.lt_add_of_pos_right isMaximal.nonempty⟩
  obtain ⟨q, listed, inside⟩ := covering r.first _ (isMaximal.filled r.first start)
  rw [maximal_unique (maximal q listed) isMaximal inside start]
  exact listed

-- In order of their positions they are determined by the map.
theorem ascending_unique {runs runs' : List (Run α)} (ordered : Ascending runs) (ordered' : Ascending runs')
    (same : ∀ r, r ∈ runs ↔ r ∈ runs') : runs = runs' := by
  have nodup : ∀ list : List (Run α), Ascending list → list.Nodup := by
    intro list ascending
    refine List.Pairwise.imp ?_ ascending
    intro r q less equal
    rw [equal] at less
    exact Nat.lt_irrefl _ less
  have perm : runs.Perm runs' := (List.perm_ext_iff_of_nodup (nodup _ ordered) (nodup _ ordered')).mpr same
  refine List.Perm.eq_of_pairwise (fun r q _ _ one two => ?_) ordered ordered' perm
  omega

end Runs

end Elysium.Runs
