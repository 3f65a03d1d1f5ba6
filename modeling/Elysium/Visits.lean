import Mathlib.Data.Finset.Card
import Mathlib.Data.Nat.Find
import Mathlib.Logic.Function.Iterate

set_option autoImplicit false

namespace Elysium.Visits

section Following

-- Links are followed from one element to the next, up to the first that stops the search.
variable {α : Type} {next : α → α} {stops : α → Prop} {first : α}

theorem iterate_shift {i j k : Nat} (same : next^[i] first = next^[j] first) (later : j ≤ k) : next^[k - j + i] first = next^[k] first := by
  rw [Function.iterate_add_apply, same, ← Function.iterate_add_apply, Nat.sub_add_cancel later]

-- Up to there no element comes twice.
theorem distinct_to_stop {i j k : Nat} (stop : stops (next^[k] first)) (before : ∀ j < k, ¬ stops (next^[j] first))
    (left : i ≤ k) (right : j ≤ k) (same : next^[i] first = next^[j] first) : i = j := by
  have apart : ∀ {i j}, i < j → j ≤ k → next^[i] first ≠ next^[j] first := by
    intro i j less within same
    refine before (k - j + i) (by omega) ?_
    rw [iterate_shift same within]
    exact stop
  rcases Nat.lt_trichotomy i j with less | rfl | more
  · exact absurd same (apart less right)
  · rfl
  · exact absurd same.symm (apart more left)

theorem first_stop (ends : ∃ k, stops (next^[k] first)) : ∃ k, stops (next^[k] first) ∧ ∀ j < k, ¬ stops (next^[j] first) := by
  classical
  exact ⟨Nat.find ends, Nat.find_spec ends, fun j less => Nat.find_min ends less⟩

-- So that what is visited on the way has room among the elements there are.
theorem visited_le {elements : Finset α} {k count : Nat} (stop : stops (next^[k] first)) (before : ∀ j < k, ¬ stops (next^[j] first))
    (few : count ≤ k + 1) (inside : ∀ j < count, next^[j] first ∈ elements) : count ≤ elements.card := by
  have distinct : Set.InjOn (fun j => next^[j] first) (Finset.range count) := by
    intro i left j right same
    rw [Finset.coe_range, Set.mem_Iio] at left right
    exact distinct_to_stop stop before (by omega) (by omega) same
  have fits := Finset.card_le_card_of_injOn (fun j => next^[j] first) (fun j member => inside j (Finset.mem_range.mp member)) distinct
  rwa [Finset.card_range] at fits

end Following

end Elysium.Visits
