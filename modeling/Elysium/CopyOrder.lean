import Mathlib.Data.List.Basic
import Mathlib.Data.List.Pairwise
import Mathlib.Logic.Function.Basic
import Mathlib.Order.Monotone.Defs

set_option autoImplicit false

namespace CopyOrder

-- A store whose elements are copied between places that may overlap, all at once or one
-- after the other.
section Copies

variable {ι α β γ : Type} (dest src : ι → α)

structure Copied (inside : ι → Prop) (m m' : α → β) : Prop where
  copied : ∀ i, inside i → m' (dest i) = m (src i)
  kept : ∀ a, (∀ i, inside i → a ≠ dest i) → m' a = m a

-- What is written is not read later, nor written again.
def Safe (order : List ι) : Prop := order.Pairwise fun i j => dest i ≠ src j ∧ dest i ≠ dest j

variable {dest src}

theorem copied_unique {inside : ι → Prop} {m m₁ m₂ : α → β} (first : Copied dest src inside m m₁) (second : Copied dest src inside m m₂) :
    m₁ = m₂ := by
  funext a
  by_cases written : ∃ i, inside i ∧ a = dest i
  · obtain ⟨i, here, rfl⟩ := written
    rw [first.copied i here, second.copied i here]
  · have outside : ∀ i, inside i → a ≠ dest i := fun i here same => written ⟨i, here, same⟩
    rw [first.kept a outside, second.kept a outside]

-- Going up is safe where every element is written at or below the place it is read from.
theorem safe_up [Preorder ι] [Preorder γ] (place : α → γ) {order : List ι} (sorted : order.Pairwise (· < ·))
    (destUp : StrictMonoOn (place ∘ dest) {i | i ∈ order}) (srcUp : StrictMonoOn (place ∘ src) {i | i ∈ order})
    (below : ∀ i ∈ order, place (dest i) ≤ place (src i)) : Safe dest src order := by
  refine sorted.imp_of_mem fun {i j} first second less => ⟨fun same => ?_, fun same => ?_⟩
  · have ahead : place (dest i) < place (src j) := (below i first).trans_lt (srcUp first second less)
    exact ahead.ne (congrArg place same)
  · exact (destUp first second less).ne (congrArg place same)

-- And going down where it is written at or above it.
theorem safe_down [Preorder ι] [Preorder γ] (place : α → γ) {order : List ι} (sorted : order.Pairwise (· > ·))
    (destUp : StrictMonoOn (place ∘ dest) {i | i ∈ order}) (srcUp : StrictMonoOn (place ∘ src) {i | i ∈ order})
    (above : ∀ i ∈ order, place (src i) ≤ place (dest i)) : Safe dest src order := by
  refine sorted.imp_of_mem fun {i j} first second more => ⟨fun same => ?_, fun same => ?_⟩
  · have ahead : place (src j) < place (dest i) := (srcUp second first more).trans_le (above i first)
    exact ahead.ne (congrArg place same.symm)
  · exact (destUp second first more).ne (congrArg place same.symm)

variable [DecidableEq α]

def copy (dest src : ι → α) (m : α → β) (i : ι) : α → β := Function.update m (dest i) (m (src i))

def copies (dest src : ι → α) (order : List ι) (m : α → β) : α → β := order.foldl (copy dest src) m

theorem copies_map {κ : Type} (dest src : ι → α) (f : κ → ι) (order : List κ) (m : α → β) :
    copies dest src (order.map f) m = copies (dest ∘ f) (src ∘ f) order m := List.foldl_map

theorem copies_congr {dest' src' : ι → α} (order : List ι) (m : α → β) (sameDest : ∀ i ∈ order, dest' i = dest i)
    (sameSrc : ∀ i ∈ order, src' i = src i) : copies dest' src' order m = copies dest src order m := by
  refine List.foldl_ext _ _ m fun now i member => ?_
  rw [copy, copy, sameDest i member, sameSrc i member]

theorem copies_kept (order : List ι) (m : α → β) {a : α} (outside : ∀ i ∈ order, a ≠ dest i) : copies dest src order m a = m a := by
  induction order generalizing m with
  | nil => rfl
  | cons k rest ih =>
      have later : copies dest src rest (copy dest src m k) a = copy dest src m k a :=
        ih (copy dest src m k) fun i member => outside i (List.mem_cons_of_mem k member)
      exact later.trans (Function.update_of_ne (outside k List.mem_cons_self) _ _)

theorem copies_copied (order : List ι) (m : α → β) (safe : Safe dest src order) {i : ι} (member : i ∈ order) :
    copies dest src order m (dest i) = m (src i) := by
  induction order generalizing m with
  | nil => cases member
  | cons k rest ih =>
      obtain ⟨ahead, safe⟩ := List.pairwise_cons.mp safe
      cases member with
      | head =>
          have later : copies dest src rest (copy dest src m i) (dest i) = copy dest src m i (dest i) :=
            copies_kept rest _ fun j member => (ahead j member).2
          exact later.trans (Function.update_self _ _ _)
      | tail _ member =>
          have later : copies dest src rest (copy dest src m k) (dest i) = copy dest src m k (src i) := ih _ safe member
          exact later.trans (Function.update_of_ne (Ne.symm (ahead i member).1) _ _)

theorem copied_of_safe {order : List ι} (safe : Safe dest src order) (m : α → β) :
    Copied dest src (· ∈ order) m (copies dest src order m) where
  copied _ member := copies_copied order m safe member
  kept _ outside := copies_kept order m outside

end Copies

end CopyOrder
