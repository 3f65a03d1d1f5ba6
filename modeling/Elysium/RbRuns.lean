import Elysium.RbInsert
import Elysium.RbRemove
import Elysium.Transitions
import Mathlib.Data.Finset.Card
import Mathlib.Order.Interval.Finset.Nat

set_option autoImplicit false

namespace Elysium.RbLinks

open RedBlack (Direction Shape Frame plug before after)
open Transitions (Reachable execute reachable_invariant reachable_execute)

-- Where an rb_node_t may be.
structure Address where
  value : Nat
  positive : 0 < value
  small : value < 2 ^ 64
deriving DecidableEq

-- A tree with the values of its nodes, and what has been inserted and not removed since.
structure System where
  tree : RbTree Address
  values : Address → Nat
  inserted : List Address

-- The memory of a node that is not in the tree is its owner's.
inductive Act where
  | insert (node : Address)
  | remove (node : Address)
  | write (node : Address) (content : RbNode Address) (value : Nat)

-- No loop of a call takes more rounds than there are nodes.
def rounds (s : System) : Nat := s.inserted.length + 1

def step : Act → System → Option System
  | .insert node, s =>
    if node ∈ s.inserted then none
    else
      match rbInsert s.values (rounds s) s.tree node with
      | .error _ => none
      | .ok tree => some { s with tree := tree, inserted := node :: s.inserted }
  | .remove node, s =>
    if node ∈ s.inserted then
      match rbRemove (rounds s) s.tree node with
      | .error _ => none
      | .ok tree => some { s with tree := tree, inserted := s.inserted.erase node }
    else none
  | .write node content value, s =>
    if node ∈ s.inserted then none
    else some { s with tree := s.tree.write node content, values := Function.update s.values node value }

def Starts (s : System) : Prop := (∃ nodes, s.tree = rbTreeInit nodes) ∧ s.inserted = []

-- The tree of a system: `links` says that the pointers to parents and children agree.
structure RedBlackTree (s : System) (shape : Shape Address) : Prop where
  links : Shows s.tree shape
  balanced : shape.Balanced
  ordered : (shape.inorder.map s.values).Pairwise (· ≤ ·)
  contents : shape.inorder.Perm s.inserted
  count : s.tree.count = shape.inorder.length

section Steps

variable {s s' : System} {shape : Shape Address} {node : Address}

theorem addresses_few {nodes : List Address} (distinct : nodes.Nodup) : nodes.length < 2 ^ 64 := by
  have values : (nodes.map Address.value).Nodup := by
    refine distinct.map fun a b same => ?_
    cases a
    cases b
    simpa using same
  have inside : (nodes.map Address.value).toFinset ⊆ Finset.Ico 1 (2 ^ 64) := by
    intro v member
    obtain ⟨a, _, rfl⟩ := List.mem_map.mp (List.mem_toFinset.mp member)
    exact Finset.mem_Ico.mpr ⟨a.positive, a.small⟩
  have card := Finset.card_le_card inside
  rw [List.toFinset_card_of_nodup values, Nat.card_Ico, List.length_map] at card
  omega

theorem rounds_enough (valid : RedBlackTree s shape) : shape.inorder.length < rounds s := by
  rw [valid.contents.length_eq, rounds]
  exact Nat.lt_succ_self _

theorem insert_ordered (node : Address) (valid : RedBlackTree s shape) :
    ((before (way s.values node shape []) ++ node :: after (way s.values node shape [])).map s.values).Pairwise (· ≤ ·) := by
  have whole : shape.inorder = before (way s.values node shape []) ++ after (way s.values node shape []) := by
    have same := congrArg Shape.inorder (way_plug s.values node shape)
    rw [RedBlack.plug_inorder, Shape.inorder, List.append_nil] at same
    exact same.symm
  have ordered := List.pairwise_map.mp valid.ordered
  have monotone : shape.inorder.Pairwise fun x y =>
      decide (s.values node < s.values x) = true → decide (s.values node < s.values y) = true :=
    ordered.imp fun le less => decide_eq_true (Nat.lt_of_lt_of_le (of_decide_eq_true less) le)
  obtain ⟨smaller, larger⟩ := RedBlack.place_sides monotone []
  rw [whole, List.pairwise_append] at ordered
  obtain ⟨orderedBefore, orderedAfter, across⟩ := ordered
  refine List.pairwise_map.mpr (List.pairwise_append.mpr ⟨orderedBefore, List.pairwise_cons.mpr ⟨fun y member => ?_, orderedAfter⟩, fun x inBefore y member => ?_⟩)
  · have less := (larger y member).resolve_left List.not_mem_nil
    exact Nat.le_of_lt (of_decide_eq_true less)
  · rcases List.mem_cons.mp member with rfl | inAfter
    · have stays := (smaller x inBefore).resolve_left List.not_mem_nil
      exact Nat.le_of_not_lt (of_decide_eq_false stays)
    · exact across x inBefore y inAfter

theorem insert_returns (valid : RedBlackTree s shape) (new : node ∉ s.inserted) :
    ∃ s' shape', step (.insert node) s = some s' ∧ RedBlackTree s' shape' := by
  have outside : node ∉ shape.inorder := fun member => new (valid.contents.mem_iff.mp member)
  obtain ⟨tree', shape', run, links, balanced, order, count⟩ := rb_insert_spec s.values valid.links valid.balanced outside (rounds_enough valid)
  have whole := congrArg Shape.inorder (way_plug s.values node shape)
  rw [RedBlack.plug_inorder, Shape.inorder, List.append_nil] at whole
  have more : shape'.inorder.Perm (node :: shape.inorder) := by
    rw [order, ← whole]
    exact List.perm_middle
  refine ⟨{ s with tree := tree', inserted := node :: s.inserted }, shape', ?_, links, balanced, ?_, more.trans (valid.contents.cons node), ?_⟩
  · rw [step, if_neg new, run]
  · have ordered := insert_ordered node valid
    rw [order]
    exact ordered
  · have few := addresses_few links.distinct
    have length := more.length_eq
    rw [length, List.length_cons] at few
    rw [count, valid.count, add64_eq few, length, List.length_cons]

theorem remove_returns (valid : RedBlackTree s shape) (member : node ∈ s.inserted) :
    ∃ s' shape', step (.remove node) s = some s' ∧ RedBlackTree s' shape' := by
  have inside : node ∈ shape.inorder := valid.contents.mem_iff.mpr member
  obtain ⟨tree', shape', run, links, balanced, order, count⟩ := rb_remove_spec valid.links valid.balanced inside (rounds_enough valid)
  refine ⟨{ s with tree := tree', inserted := s.inserted.erase node }, shape', ?_, links, balanced, ?_, ?_, ?_⟩
  · rw [step, if_pos member, run]
  · rw [order]
    exact valid.ordered.sublist ((List.erase_sublist ..).map _)
  · rw [order]
    exact valid.contents.erase node
  · have few := addresses_few valid.links.distinct
    rw [count, valid.count, sub64_eq (List.length_pos_of_mem inside) few, order, List.length_erase_of_mem inside]

theorem write_keeps {content : RbNode Address} {value : Nat} (valid : RedBlackTree s shape) (taken : step (.write node content value) s = some s') :
    RedBlackTree s' shape := by
  rw [step] at taken
  split at taken
  · cases taken
  · rename_i new
    obtain rfl := Option.some.inj taken
    have outside : node ∉ shape.inorder := fun member => new (valid.contents.mem_iff.mp member)
    refine ⟨shows_write valid.links outside, valid.balanced, ?_, valid.contents, valid.count⟩
    have same : shape.inorder.map (Function.update s.values node value) = shape.inorder.map s.values :=
      List.map_congr_left fun x member => Function.update_of_ne (ne_of_mem_of_not_mem member outside) ..
    rw [same]
    exact valid.ordered

theorem step_keeps (action : Act) (valid : ∃ shape, RedBlackTree s shape) (taken : step action s = some s') : ∃ shape, RedBlackTree s' shape := by
  obtain ⟨shape, valid⟩ := valid
  cases action with
  | insert node =>
      have new : node ∉ s.inserted := fun member => by
        rw [step, if_pos member] at taken
        cases taken
      obtain ⟨s₁, shape', run, valid'⟩ := insert_returns valid new
      obtain rfl := Option.some.inj (run.symm.trans taken)
      exact ⟨shape', valid'⟩
  | remove node =>
      have member : node ∈ s.inserted := by
        by_contra new
        rw [step, if_neg new] at taken
        cases taken
      obtain ⟨s₁, shape', run, valid'⟩ := remove_returns valid member
      obtain rfl := Option.some.inj (run.symm.trans taken)
      exact ⟨shape', valid'⟩
  | write node content value => exact ⟨shape, write_keeps valid taken⟩

theorem start_valid (starts : Starts s) : ∃ shape, RedBlackTree s shape := by
  obtain ⟨⟨nodes, tree⟩, inserted⟩ := starts
  refine ⟨.leaf, ⟨?_, trivial, List.nodup_nil⟩, ⟨rfl, trivial, 0, fun k member => List.mem_singleton.mp member⟩, List.Pairwise.nil, ?_, ?_⟩
  · rw [tree]
    rfl
  · rw [inserted]
    exact List.Perm.refl _
  · rw [tree]
    rfl

end Steps

-- In every state that insertions and removals lead to, the tree is a red-black tree of what was inserted and not removed since,
-- and the next call returns.
theorem red_black_runs {s : System} (reach : Reachable Starts step s) :
    (∃ shape, RedBlackTree s shape) ∧ (∀ node, node ∉ s.inserted → ∃ s', step (.insert node) s = some s') ∧
      ∀ node ∈ s.inserted, ∃ s', step (.remove node) s = some s' := by
  have valid := reachable_invariant (fun s starts => start_valid starts) (fun action s s' valid taken => step_keeps action valid taken) reach
  obtain ⟨shape, valid⟩ := valid
  refine ⟨⟨shape, valid⟩, fun node new => ?_, fun node member => ?_⟩
  · obtain ⟨s', _, run, _⟩ := insert_returns valid new
    exact ⟨s', run⟩
  · obtain ⟨s', _, run, _⟩ := remove_returns valid member
    exact ⟨s', run⟩

theorem low_address (i : Nat) : i % 1024 + 1 < 2 ^ 64 := by
  have low := Nat.mod_lt i (Nat.succ_pos 1023)
  omega

def nodeAt (i : Nat) : Address := ⟨i % 1024 + 1, Nat.succ_pos _, low_address i⟩

-- Neighbours have one value.
def emptySystem : System := ⟨rbTreeInit fun _ => ⟨true, none, none, none⟩, fun node => node.value / 2, []⟩

def sixCalls : List Act := [.insert (nodeAt 3), .insert (nodeAt 2), .insert (nodeAt 1), .insert (nodeAt 0), .remove (nodeAt 2), .remove (nodeAt 3)]

theorem six_calls_run : (execute step sixCalls emptySystem).map System.inserted = some [nodeAt 0, nodeAt 1] := by
  decide +kernel

theorem red_black_runs_six : ∃ s, Reachable Starts step s ∧ s.inserted = [nodeAt 0, nodeAt 1] ∧ (∃ shape, RedBlackTree s shape) ∧
    (∃ s', step (.insert (nodeAt 2)) s = some s') ∧ ∃ s', step (.remove (nodeAt 1)) s = some s' := by
  obtain ⟨s, run, inserted⟩ := Option.map_eq_some_iff.mp six_calls_run
  have start : Starts emptySystem := ⟨⟨_, rfl⟩, rfl⟩
  have reach := reachable_execute (.start emptySystem start) run
  obtain ⟨valid, inserts, removes⟩ := red_black_runs reach
  refine ⟨s, reach, inserted, valid, inserts (nodeAt 2) ?_, removes (nodeAt 1) ?_⟩
  · rw [inserted]
    decide
  · rw [inserted]
    decide

end Elysium.RbLinks
