import Mathlib.Logic.Function.Basic

set_option autoImplicit false

namespace Elysium.Chain

-- Lists threaded through a memory that holds one link for each element.
section Chain

variable {A : Type}

inductive Linked (next : A → Option A) : Option A → List A → Prop where
  | nil : Linked next none []
  | cons (a : A) (rest : List A) (tail : Linked next (next a) rest) : Linked next (some a) (a :: rest)

variable {next : A → Option A} {first : Option A} {list : List A}

theorem chain_unique {other : List A} (chain : Linked next first list) (again : Linked next first other) : list = other := by
  induction chain generalizing other with
  | nil =>
      cases again
      rfl
  | cons a rest _ ih =>
      cases again with
      | cons _ others tail => rw [ih tail]

theorem chain_head {a : A} (chain : Linked next first (a :: list)) : first = some a ∧ Linked next (next a) list := by
  cases chain with
  | cons _ _ tail => exact ⟨rfl, tail⟩

theorem chain_suffix {before : List A} {a : A} {rest : List A} (chain : Linked next first (before ++ a :: rest)) :
    Linked next (some a) (a :: rest) := by
  induction before generalizing first with
  | nil => exact (chain_head chain).1 ▸ chain
  | cons b before ih => exact ih (chain_head chain).2

-- A chain that ends meets no element twice, as it would go on from both in the same way.
theorem chain_nodup (chain : Linked next first list) : list.Nodup := by
  induction chain with
  | nil => exact List.nodup_nil
  | cons a rest tail ih =>
      refine List.nodup_cons.mpr ⟨fun again => ?_, ih⟩
      obtain ⟨before, after, rfl⟩ := List.append_of_mem again
      have same := chain_unique (.cons a _ tail) (chain_suffix tail)
      have longer := congrArg List.length same
      rw [List.length_cons, List.length_append, List.length_cons] at longer
      omega

theorem chain_congr {next' : A → Option A} (same : ∀ a ∈ list, next' a = next a) (chain : Linked next first list) :
    Linked next' first list := by
  induction chain with
  | nil => exact .nil
  | cons b rest _ ih =>
      have kept := same b (List.mem_cons_self ..)
      exact .cons b rest (kept ▸ ih fun a member => same a (List.mem_cons_of_mem _ member))

variable [DecidableEq A]

-- A write elsewhere leaves a chain as it is.
theorem chain_write {a : A} (link : Option A) (chain : Linked next first list) (absent : a ∉ list) :
    Linked (Function.update next a link) first list := by
  induction chain with
  | nil => exact .nil
  | cons b rest _ ih =>
      rw [List.mem_cons, not_or] at absent
      have kept : Function.update next a link b = next b := Function.update_of_ne (Ne.symm absent.1) _ _
      exact .cons b rest (kept ▸ ih absent.2)

theorem chain_push {a : A} (chain : Linked next first list) (absent : a ∉ list) :
    Linked (Function.update next a first) (some a) (a :: list) := by
  have new : Function.update next a first a = first := Function.update_self _ _ _
  exact .cons a list (new.symm ▸ chain_write first chain absent)

end Chain

end Elysium.Chain
