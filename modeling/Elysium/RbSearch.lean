import Elysium.Rb
import Elysium.RbRuns

set_option autoImplicit false

namespace Elysium.RbLinks

open Rb (SearchType Best searchFrom search_from_lt search_from_lte search_from_gt search_from_gte search_exact best_below best_above)
open RedBlack (Direction Shape)
open Transitions (Reachable execute reachable_invariant reachable_execute)

section Code

variable {N : Type} (value : N → Nat) (searchValue : Nat)

-- The rounds of rb_search. Each looks at one node.
def searchLoop (type : SearchType) (nodes : N → RbNode N) : Nat → Option N → Option N → Nat → Except Fault (Option N)
  | _, none, nearestNode, _ => .ok nearestNode
  | 0, some _, _, _ => .error .diverges
  | fuel + 1, some current, nearestNode, nearestValue =>
      match type with
      | .exact =>
          if value current = searchValue then .ok (some current)
          else searchLoop type nodes fuel (if searchValue > value current then (nodes current).right else (nodes current).left) nearestNode nearestValue
      | .nearest =>
          searchLoop type nodes fuel (if searchValue > value current then (nodes current).right else (nodes current).left) (some current) nearestValue
      | .nearestLt | .nearestLte =>
          if value current > searchValue ∨ (type = .nearestLt ∧ value current = searchValue) then
            searchLoop type nodes fuel (nodes current).left nearestNode nearestValue
          else if nearestNode.isNone ∨ value current > nearestValue then searchLoop type nodes fuel (nodes current).right (some current) (value current)
          else searchLoop type nodes fuel (nodes current).right nearestNode nearestValue
      | .nearestGt | .nearestGte =>
          if value current < searchValue ∨ (type = .nearestGt ∧ value current = searchValue) then
            searchLoop type nodes fuel (nodes current).right nearestNode nearestValue
          else if nearestNode.isNone ∨ value current < nearestValue then searchLoop type nodes fuel (nodes current).left (some current) (value current)
          else searchLoop type nodes fuel (nodes current).left nearestNode nearestValue

def rbSearch (fuel : Nat) (tree : RbTree N) (type : SearchType) : Except Fault (Option N) :=
  searchLoop value searchValue type tree.nodes fuel tree.root none 0

end Code

section Shape

variable {N : Type} {value : N → Nat} {searchValue : Nat}

def toTree : Shape N → Rb.Tree N
  | .leaf => .leaf
  | .node _ left entry right => .node (toTree left) entry (toTree right)

theorem to_tree_inorder (shape : Shape N) : (toTree shape).inorder = shape.inorder := by
  induction shape with
  | leaf => rfl
  | node red left entry right ihLeft ihRight => rw [toTree, Rb.Tree.inorder, ihLeft, ihRight, Shape.inorder]

-- Following the links is going down the tree.
theorem search_loop_shape (type : SearchType) {nodes : N → RbNode N} {parent : Option N} {shape : Shape N} (holds : Holds nodes parent shape)
    {fuel : Nat} (enough : shape.height ≤ fuel) (nearestNode : Option N) (nearestValue : Nat) :
    searchLoop value searchValue type nodes fuel shape.root nearestNode nearestValue =
      .ok (searchFrom value searchValue type (toTree shape) nearestNode nearestValue) := by
  induction shape generalizing parent fuel nearestNode nearestValue with
  | leaf => cases fuel <;> rfl
  | node red left entry right ihLeft ihRight =>
      obtain ⟨content, inLeft, inRight⟩ := holds
      rw [Shape.height] at enough
      cases fuel with
      | zero => omega
      | succ fuel =>
          have goLeft : ∀ nearest v, searchLoop value searchValue type nodes fuel left.root nearest v =
              .ok (searchFrom value searchValue type (toTree left) nearest v) := ihLeft inLeft (by omega)
          have goRight : ∀ nearest v, searchLoop value searchValue type nodes fuel right.root nearest v =
              .ok (searchFrom value searchValue type (toTree right) nearest v) := ihRight inRight (by omega)
          have isLeft : (nodes entry).left = left.root := by rw [content]
          have isRight : (nodes entry).right = right.root := by rw [content]
          have both : ∀ nearest, searchLoop value searchValue type nodes fuel
              (if searchValue > value entry then (nodes entry).right else (nodes entry).left) nearest nearestValue =
              .ok (if searchValue > value entry then searchFrom value searchValue type (toTree right) nearest nearestValue
                else searchFrom value searchValue type (toTree left) nearest nearestValue) := by
            intro nearest
            split
            · rw [isRight, goRight]
            · rw [isLeft, goLeft]
          cases type with
          | exact =>
              simp only [Shape.node_root, searchLoop, toTree, searchFrom]
              split
              · rfl
              · exact both nearestNode
          | nearest => exact both (some entry)
          | nearestLt | nearestLte =>
              simp only [Shape.node_root, searchLoop, toTree, searchFrom, isLeft, isRight, goLeft, goRight]
              split
              · rfl
              · split <;> rfl
          | nearestGt | nearestGte =>
              simp only [Shape.node_root, searchLoop, toTree, searchFrom, isLeft, isRight, goLeft, goRight]
              split
              · rfl
              · split <;> rfl

end Shape

-- The values a search may answer with, and the order in which it prefers them.
def admits (searchValue : Nat) : SearchType → Nat → Prop
  | .exact => (· = searchValue)
  | .nearest => fun _ => True
  | .nearestLt => (· < searchValue)
  | .nearestLte => (· ≤ searchValue)
  | .nearestGt => (· > searchValue)
  | .nearestGte => (· ≥ searchValue)

def upTo : SearchType → Nat → Nat → Prop
  | .exact => (· = ·)
  | .nearest => fun _ _ => True
  | .nearestLt | .nearestLte => (· ≤ ·)
  | .nearestGt | .nearestGte => (· ≥ ·)

section Runs

variable {N : Type} {value : N → Nat} {v : Nat}

theorem search_nearest_some (value : N → Nat) (v : Nat) (tree : Rb.Tree N) (nearestNode : Option N) (nearestValue : Nat) :
    (searchFrom value v .nearest tree nearestNode nearestValue = none ↔ tree.inorder = [] ∧ nearestNode = none) ∧
      ∀ node, searchFrom value v .nearest tree nearestNode nearestValue = some node → node ∈ tree.inorder ∨ nearestNode = some node := by
  induction tree generalizing nearestNode with
  | leaf => exact ⟨by simp [searchFrom, Rb.Tree.inorder], fun node found => .inr found⟩
  | node left entry right ihLeft ihRight =>
      obtain ⟨noneLeft, someLeft⟩ := ihLeft (some entry)
      obtain ⟨noneRight, someRight⟩ := ihRight (some entry)
      rw [searchFrom, Rb.Tree.inorder]
      split
      · refine ⟨by simp [noneRight], fun node found => .inl ?_⟩
        rcases someRight node found with inRight | here
        · exact List.mem_append_right _ (List.mem_cons_of_mem _ inRight)
        · simp [Option.some.inj here]
      · refine ⟨by simp [noneLeft], fun node found => .inl ?_⟩
        rcases someLeft node found with inLeft | here
        · exact List.mem_append_left _ inLeft
        · simp [Option.some.inj here]

theorem search_best {tree : Rb.Tree N} (ordered : (tree.inorder.map value).Pairwise (· ≤ ·)) (type : SearchType) :
    Best value tree.inorder (admits v type) (upTo type) (searchFrom value v type tree none 0) := by
  cases type with
  | exact => exact search_exact ordered 0
  | nearest =>
      obtain ⟨noneIff, someOf⟩ := search_nearest_some value v tree none 0
      refine ⟨?_, fun node found => ⟨(someOf node found).resolve_right (by simp), trivial, fun _ _ _ => trivial⟩⟩
      rw [noneIff]
      simp [admits, List.eq_nil_iff_forall_not_mem]
  | nearestLt =>
      rw [search_from_lt]
      change Best value tree.inorder (· < v) (· ≤ ·) _
      exact best_below ordered fun a b => Nat.lt_of_le_of_lt
  | nearestLte =>
      rw [search_from_lte]
      change Best value tree.inorder (· ≤ v) (· ≤ ·) _
      exact best_below ordered fun a b => Nat.le_trans
  | nearestGt =>
      rw [search_from_gt]
      change Best value tree.inorder (· > v) (· ≥ ·) _
      exact best_above ordered fun a b above admitted => Nat.lt_of_lt_of_le admitted above
  | nearestGte =>
      rw [search_from_gte]
      change Best value tree.inorder (· ≥ v) (· ≥ ·) _
      exact best_above ordered fun a b above admitted => Nat.le_trans admitted above

theorem best_perm {nodes nodes' : List N} {admits : Nat → Prop} {upTo : Nat → Nat → Prop} {found : Option N} (same : nodes.Perm nodes')
    (best : Best value nodes admits upTo found) : Best value nodes' admits upTo found := by
  obtain ⟨noneIff, someOf⟩ := best
  simp only [same.mem_iff] at noneIff someOf
  exact ⟨noneIff, someOf⟩

theorem valid_search {s : System} {shape : Shape Address} (valid : RedBlackTree s shape) (type : SearchType) (v : Nat) :
    rbSearch s.values v (2 * Nat.log2 (s.inserted.length + 1)) s.tree type = .ok (searchFrom s.values v type (toTree shape) none 0) ∧
      Best s.values s.inserted (admits v type) (upTo type) (searchFrom s.values v type (toTree shape) none 0) := by
  have ordered : ((toTree shape).inorder.map s.values).Pairwise (· ≤ ·) := by
    rw [to_tree_inorder]
    exact valid.ordered
  have high := RedBlack.Shape.height_le_log valid.balanced
  rw [valid.contents.length_eq] at high
  refine ⟨?_, best_perm (to_tree_inorder shape ▸ valid.contents) (search_best ordered type)⟩
  rw [rbSearch, valid.links.root]
  exact search_loop_shape type valid.links.holds high none 0

end Runs

end Elysium.RbLinks
