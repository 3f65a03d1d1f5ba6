import Elysium.Events
import Elysium.VmTree
import Mathlib.Order.Basic

set_option autoImplicit false

namespace Elysium.Rb

-- The shape of an rb_tree_t. The colours and the links to the parents are not looked at by a search.
inductive Tree (N : Type) where
  | leaf
  | node (left : Tree N) (entry : N) (right : Tree N)
deriving DecidableEq, Repr

inductive SearchType where
  | exact
  | nearest
  | nearestLt
  | nearestLte
  | nearestGt
  | nearestGte
deriving DecidableEq, Repr

section Code

variable {N : Type} (value : N → Nat) (searchValue : Nat)

-- The loop of rb_search, with the tree under current. A comparison with nearest_node == nullptr before
-- it makes up for the first value of nearest_value.
def searchFrom (type : SearchType) : Tree N → Option N → Nat → Option N
  | .leaf, nearestNode, _ => nearestNode
  | .node left entry right, nearestNode, nearestValue =>
      match type with
      | .exact =>
          if value entry = searchValue then some entry
          else if searchValue > value entry then searchFrom type right nearestNode nearestValue
          else searchFrom type left nearestNode nearestValue
      | .nearest =>
          if searchValue > value entry then searchFrom type right (some entry) nearestValue
          else searchFrom type left (some entry) nearestValue
      | .nearestLt | .nearestLte =>
          if value entry > searchValue ∨ (type = .nearestLt ∧ value entry = searchValue) then
            searchFrom type left nearestNode nearestValue
          else if nearestNode.isNone ∨ value entry > nearestValue then searchFrom type right (some entry) (value entry)
          else searchFrom type right nearestNode nearestValue
      | .nearestGt | .nearestGte =>
          if value entry < searchValue ∨ (type = .nearestGt ∧ value entry = searchValue) then
            searchFrom type right nearestNode nearestValue
          else if nearestNode.isNone ∨ value entry < nearestValue then searchFrom type left (some entry) (value entry)
          else searchFrom type left nearestNode nearestValue

def rbSearch (tree : Tree N) (type : SearchType) : Option N := searchFrom value searchValue type tree none 0

end Code

namespace Tree

variable {N : Type}

def inorder : Tree N → List N
  | leaf => []
  | node left entry right => left.inorder ++ entry :: right.inorder

def mirror : Tree N → Tree N
  | leaf => leaf
  | node left entry right => node right.mirror entry left.mirror

theorem inorder_mirror (tree : Tree N) : tree.mirror.inorder = tree.inorder.reverse := by
  induction tree with
  | leaf => rfl
  | node left entry right ihLeft ihRight => simp [mirror, inorder, ihLeft, ihRight]

end Tree

-- What a search is to find among the nodes: one whose value is admitted, such that no admitted value is ahead
-- of it in the order.
structure Best {N : Type} (value : N → Nat) (nodes : List N) (admits : Nat → Prop) (upTo : Nat → Nat → Prop) (found : Option N) : Prop where
  none_iff : found = none ↔ ∀ node ∈ nodes, ¬ admits (value node)
  some_of : ∀ node, found = some node → node ∈ nodes ∧ admits (value node) ∧ ∀ other ∈ nodes, admits (value other) → upTo (value other) (value node)

section Descent

variable {N : Type} (value : N → Nat) (admits : Nat → Prop) (upTo : Nat → Nat → Prop)

-- One search for the four directions: past an admitted value to the right, else to the left.
def descend [DecidablePred admits] [DecidableRel upTo] : Tree N → Option N → Nat → Option N
  | .leaf, nearestNode, _ => nearestNode
  | .node left entry right, nearestNode, nearestValue =>
      if admits (value entry) then
        if nearestNode.isNone ∨ ¬ upTo (value entry) nearestValue then descend right (some entry) (value entry)
        else descend right nearestNode nearestValue
      else descend left nearestNode nearestValue

variable {value admits upTo}

-- Nodes that are not admitted, or behind one that is there already, do not change what is best.
theorem best_extend (trans : ∀ a b c, upTo a b → upTo b c → upTo a c) {small large : List N} {found : Option N}
    (best : Best value small admits upTo found) (sub : ∀ node ∈ small, node ∈ large)
    (others : ∀ node ∈ large, admits (value node) → node ∈ small ∨ ∃ other ∈ small, admits (value other) ∧ upTo (value node) (value other)) :
    Best value large admits upTo found := by
  refine ⟨⟨fun missing node member admitted => ?_, fun missing => ?_⟩, fun node same => ?_⟩
  · rcases others node member admitted with inSmall | ⟨other, inSmall, admittedOther, _⟩
    · exact best.none_iff.mp missing node inSmall admitted
    · exact best.none_iff.mp missing other inSmall admittedOther
  · exact best.none_iff.mpr fun node member => missing node (sub node member)
  · obtain ⟨member, admitted, first⟩ := best.some_of node same
    refine ⟨sub node member, admitted, fun other inLarge admittedOther => ?_⟩
    rcases others other inLarge admittedOther with inSmall | ⟨nearer, inSmall, admittedNearer, behind⟩
    · exact first other inSmall admittedOther
    · exact trans _ _ _ behind (first nearer inSmall admittedNearer)

-- The node that was kept is part of what was searched before. No node is hidden in a subtree that is left out.
theorem descend_best (upTo : Nat → Nat → Prop) [DecidablePred admits] [DecidableRel upTo] (refl : ∀ a, upTo a a) (trans : ∀ a b c, upTo a b → upTo b c → upTo a c)
    (total : ∀ a b, ¬ upTo a b → upTo b a) (closed : ∀ a b, upTo a b → admits b → admits a) (tree : Tree N) {nearestNode : Option N} {nearestValue : Nat}
    (ordered : tree.inorder.Pairwise fun a b => upTo (value a) (value b))
    (kept : ∀ node, nearestNode = some node → admits (value node) ∧ nearestValue = value node) :
    Best value (nearestNode.toList ++ tree.inorder) admits upTo (descend value admits upTo tree nearestNode nearestValue) := by
  induction tree generalizing nearestNode nearestValue with
  | leaf =>
      rw [descend, Tree.inorder, List.append_nil]
      cases nearestNode with
      | none => exact ⟨by simp, by simp⟩
      | some node =>
          refine ⟨by simpa using (kept node rfl).1, ?_⟩
          rintro _ ⟨⟩
          exact ⟨List.mem_singleton_self _, (kept node rfl).1, fun other member _ => by rw [List.mem_singleton.mp member]; exact refl _⟩
  | node left entry right ihLeft ihRight =>
      rw [Tree.inorder, List.pairwise_append, List.pairwise_cons] at ordered
      obtain ⟨orderedLeft, ⟨before, orderedRight⟩, across⟩ := ordered
      have leftBehind : ∀ other ∈ left.inorder, upTo (value other) (value entry) := fun other member => across other member entry List.mem_cons_self
      rw [descend, Tree.inorder]
      by_cases admitted : admits (value entry)
      · rw [if_pos admitted]
        by_cases better : nearestNode.isNone ∨ ¬ upTo (value entry) nearestValue
        · rw [if_pos better]
          have best := ihRight orderedRight fun node same => by
            obtain rfl := Option.some.inj same
            exact ⟨admitted, rfl⟩
          refine best_extend trans best (by simp +contextual) fun node member _ => ?_
          rcases List.mem_append.mp member with wasKept | inTree
          · obtain rfl : nearestNode = some node := by simpa using wasKept
            have ahead := better.resolve_left (by simp)
            rw [(kept node rfl).2] at ahead
            exact .inr ⟨entry, by simp, admitted, total _ _ ahead⟩
          · rcases List.mem_append.mp inTree with inLeft | rest
            · exact .inr ⟨entry, by simp, admitted, leftBehind node inLeft⟩
            · exact .inl rest
        · rw [if_neg better]
          have best := ihRight orderedRight kept
          obtain ⟨known, behind⟩ := not_or.mp better
          obtain ⟨last, rfl⟩ := Option.ne_none_iff_exists'.mp (by simpa using known)
          obtain ⟨admittedLast, same⟩ := kept last rfl
          rw [same, not_not] at behind
          refine best_extend trans best (by simp +contextual) fun node member _ => ?_
          rcases List.mem_append.mp member with wasKept | inTree
          · exact .inl (List.mem_append_left _ wasKept)
          · rcases List.mem_append.mp inTree with inLeft | rest
            · exact .inr ⟨last, by simp, admittedLast, trans _ _ _ (leftBehind node inLeft) behind⟩
            · rcases List.mem_cons.mp rest with rfl | inRight
              · exact .inr ⟨last, by simp, admittedLast, behind⟩
              · exact .inl (List.mem_append_right _ inRight)
      · rw [if_neg admitted]
        refine best_extend trans (ihLeft orderedLeft kept) (fun node member => ?_) fun node member admittedNode => ?_
        · rw [List.mem_append] at member ⊢
          exact member.imp_right (List.mem_append_left _)
        rcases List.mem_append.mp member with wasKept | inTree
        · exact .inl (List.mem_append_left _ wasKept)
        · rcases List.mem_append.mp inTree with inLeft | rest
          · exact .inl (List.mem_append_right _ inLeft)
          · rcases List.mem_cons.mp rest with rfl | inRight
            · exact absurd admittedNode admitted
            · exact absurd (closed _ _ (before node inRight) admittedNode) admitted

end Descent

section Directions

variable {N : Type} {value : N → Nat} {v : Nat}

theorem search_from_lt (tree : Tree N) (nearestNode : Option N) (nearestValue : Nat) :
    searchFrom value v .nearestLt tree nearestNode nearestValue = descend value (· < v) (· ≤ ·) tree nearestNode nearestValue := by
  induction tree generalizing nearestNode nearestValue with
  | leaf => rfl
  | node left entry right ihLeft ihRight =>
      rw [searchFrom, descend]
      by_cases admitted : value entry < v
      · rw [if_neg (by simp; omega), if_pos admitted]
        simp only [ihRight, Nat.not_le, gt_iff_lt]
      · rw [if_pos (by simp; omega), if_neg admitted, ihLeft]

theorem search_from_lte (tree : Tree N) (nearestNode : Option N) (nearestValue : Nat) :
    searchFrom value v .nearestLte tree nearestNode nearestValue = descend value (· ≤ v) (· ≤ ·) tree nearestNode nearestValue := by
  induction tree generalizing nearestNode nearestValue with
  | leaf => rfl
  | node left entry right ihLeft ihRight =>
      rw [searchFrom, descend]
      by_cases admitted : value entry ≤ v
      · rw [if_neg (by simp; omega), if_pos admitted]
        simp only [ihRight, Nat.not_le, gt_iff_lt]
      · rw [if_pos (by simp; omega), if_neg admitted, ihLeft]

-- The other two directions are the same on the mirrored tree.
theorem search_from_gt (tree : Tree N) (nearestNode : Option N) (nearestValue : Nat) :
    searchFrom value v .nearestGt tree nearestNode nearestValue = descend value (· > v) (· ≥ ·) tree.mirror nearestNode nearestValue := by
  induction tree generalizing nearestNode nearestValue with
  | leaf => rfl
  | node left entry right ihLeft ihRight =>
      rw [searchFrom, Tree.mirror, descend]
      by_cases admitted : value entry > v
      · rw [if_neg (by simp; omega), if_pos admitted]
        simp only [ihLeft, ge_iff_le, Nat.not_le]
      · rw [if_pos (by simp; omega), if_neg admitted, ihRight]

theorem search_from_gte (tree : Tree N) (nearestNode : Option N) (nearestValue : Nat) :
    searchFrom value v .nearestGte tree nearestNode nearestValue = descend value (· ≥ v) (· ≥ ·) tree.mirror nearestNode nearestValue := by
  induction tree generalizing nearestNode nearestValue with
  | leaf => rfl
  | node left entry right ihLeft ihRight =>
      rw [searchFrom, Tree.mirror, descend]
      by_cases admitted : value entry ≥ v
      · rw [if_neg (by simp; omega), if_pos admitted]
        simp only [ihLeft, ge_iff_le, Nat.not_le]
      · rw [if_pos (by simp; omega), if_neg admitted, ihRight]

variable {tree : Tree N} (ordered : (tree.inorder.map value).Pairwise (· ≤ ·))

include ordered

-- A search to the left on the tree itself.
theorem best_below {admits : Nat → Prop} [DecidablePred admits] (closed : ∀ a b, a ≤ b → admits b → admits a) :
    Best value tree.inorder admits (· ≤ ·) (descend value admits (· ≤ ·) tree none 0) := by
  have best := descend_best (· ≤ ·) Nat.le_refl (fun _ _ _ => Nat.le_trans) (fun a b behind => by omega) closed tree
    (List.pairwise_map.mp ordered) (by simp : ∀ node, none = some node → admits (value node) ∧ 0 = value node)
  exact best

theorem best_above {admits : Nat → Prop} [DecidablePred admits] (closed : ∀ a b, a ≥ b → admits b → admits a) :
    Best value tree.inorder admits (· ≥ ·) (descend value admits (· ≥ ·) tree.mirror none 0) := by
  have mirrored : tree.mirror.inorder.Pairwise fun a b => value a ≥ value b := by
    rw [Tree.inorder_mirror, List.pairwise_reverse]
    exact List.pairwise_map.mp ordered
  obtain ⟨missing, found⟩ := descend_best (· ≥ ·) Nat.le_refl (fun _ _ _ first second => Nat.le_trans second first)
    (fun a b behind => by omega) closed tree.mirror mirrored (by simp : ∀ node, none = some node → admits (value node) ∧ 0 = value node)
  simp only [Option.toList_none, List.nil_append, Tree.inorder_mirror, List.mem_reverse] at missing found
  exact ⟨missing, found⟩

-- The order leaves one side of a node for an exact value.
theorem search_exact (nearestValue : Nat) :
    Best value tree.inorder (· = v) (· = ·) (searchFrom value v .exact tree none nearestValue) := by
  induction tree with
  | leaf => exact ⟨by simp [searchFrom, Tree.inorder], by simp [searchFrom]⟩
  | node left entry right ihLeft ihRight =>
      rw [List.pairwise_map, Tree.inorder, List.pairwise_append, List.pairwise_cons] at ordered
      obtain ⟨orderedLeft, ⟨after, orderedRight⟩, across⟩ := ordered
      have trans : ∀ a b c : Nat, a = b → b = c → a = c := fun _ _ _ => Eq.trans
      rw [searchFrom, Tree.inorder]
      by_cases here : value entry = v
      · rw [if_pos here]
        refine ⟨⟨fun missing => (by cases missing), fun missing => absurd here (missing entry (by simp))⟩, ?_⟩
        rintro _ ⟨⟩
        exact ⟨by simp, here, fun other _ same => same.trans here.symm⟩
      · rw [if_neg here]
        by_cases more : v > value entry
        · rw [if_pos more]
          refine best_extend trans (ihRight (List.pairwise_map.mpr orderedRight)) (by simp +contextual) fun node member same => ?_
          rcases List.mem_append.mp member with inLeft | rest
          · have low := across node inLeft entry List.mem_cons_self
            omega
          · rcases List.mem_cons.mp rest with rfl | inRight
            · exact absurd same here
            · exact .inl inRight
        · rw [if_neg more]
          refine best_extend trans (ihLeft (List.pairwise_map.mpr orderedLeft)) (by simp +contextual) fun node member same => ?_
          rcases List.mem_append.mp member with inLeft | rest
          · exact .inl inLeft
          · rcases List.mem_cons.mp rest with rfl | inRight
            · exact absurd same here
            · have high := after node inRight
              omega

end Directions

-- Every kind of search but NEAREST finds what rb_search_type_t says.
theorem rb_search_exact {N : Type} (value : N → Nat) (tree : Tree N) (ordered : (tree.inorder.map value).Pairwise (· ≤ ·)) (v : Nat) :
    Best value tree.inorder (· = v) (· = ·) (rbSearch value v tree .exact) ∧
      Best value tree.inorder (· < v) (· ≤ ·) (rbSearch value v tree .nearestLt) ∧
      Best value tree.inorder (· ≤ v) (· ≤ ·) (rbSearch value v tree .nearestLte) ∧
      Best value tree.inorder (· > v) (· ≥ ·) (rbSearch value v tree .nearestGt) ∧
      Best value tree.inorder (· ≥ v) (· ≥ ·) (rbSearch value v tree .nearestGte) := by
  unfold rbSearch
  rw [search_from_lt, search_from_lte, search_from_gt, search_from_gte]
  exact ⟨search_exact ordered 0, best_below ordered fun a b => Nat.lt_of_le_of_lt, best_below ordered fun a b => Nat.le_trans,
    best_above ordered fun a b above admitted => Nat.lt_of_lt_of_le admitted above,
    best_above ordered fun a b above admitted => Nat.le_trans admitted above⟩

-- Duplicates on both sides of a node.
theorem rb_search_exact_duplicates :
    Best id [3, 5, 5, 5, 8] (· ≤ 5) (· ≤ ·) (rbSearch id 5 (.node (.node .leaf 3 (.node .leaf 5 .leaf)) 5 (.node .leaf 5 (.node .leaf 8 .leaf)))
      .nearestLte) :=
  (rb_search_exact id (.node (.node .leaf 3 (.node .leaf 5 .leaf)) 5 (.node .leaf 5 (.node .leaf 8 .leaf))) (by decide) 5).2.2.1

section Nearest

variable {N : Type}

-- The nodes in their order, each with its depth.
def Tree.levels : Tree N → Nat → List (N × Nat)
  | .leaf, _ => []
  | .node left entry right, depth => left.levels (depth + 1) ++ (entry, depth) :: right.levels (depth + 1)

variable (value : N → Nat) (v : Nat)

-- The neighbours of a search value: the last node below it, and the first that is not.
def lastBelow (tree : Tree N) (depth : Nat) : Option (N × Nat) := ((tree.levels depth).filter fun p => value p.1 < v).getLast?

def firstAbove (tree : Tree N) (depth : Nat) : Option (N × Nat) := (tree.levels depth).find? fun p => v ≤ value p.1

def deeper : Option (N × Nat) → Option (N × Nat) → Option (N × Nat)
  | some p, some q => if p.2 > q.2 then some p else some q
  | some p, none => some p
  | none, q => q

-- Of two neighbours the one further down in the tree is not further away.
def DeeperIsNearer (tree : Tree N) : Prop :=
  ∀ p q, lastBelow value v tree 0 = some p → firstAbove value v tree 0 = some q →
    if p.2 > q.2 then v - value p.1 ≤ value q.1 - v else value q.1 - v ≤ v - value p.1

variable {value v}

theorem levels_inorder (tree : Tree N) (depth : Nat) : (tree.levels depth).map Prod.fst = tree.inorder := by
  induction tree generalizing depth with
  | leaf => rfl
  | node left entry right ihLeft ihRight => simp [Tree.levels, Tree.inorder, ihLeft, ihRight]

theorem levels_mem {tree : Tree N} {depth : Nat} {p : N × Nat} (member : p ∈ tree.levels depth) : p.1 ∈ tree.inorder := by
  rw [← levels_inorder tree depth]
  exact List.mem_map_of_mem member

theorem levels_depth (tree : Tree N) (depth : Nat) : ∀ p ∈ tree.levels depth, depth ≤ p.2 := by
  induction tree generalizing depth with
  | leaf => exact fun p member => absurd member List.not_mem_nil
  | node left entry right ihLeft ihRight =>
      intro p member
      rw [Tree.levels, List.mem_append, List.mem_cons] at member
      rcases member with inLeft | rfl | inRight
      · exact Nat.le_of_succ_le (ihLeft _ p inLeft)
      · exact Nat.le_refl _
      · exact Nat.le_of_succ_le (ihRight _ p inRight)

theorem last_below_some {tree : Tree N} {depth : Nat} {p : N × Nat} (found : lastBelow value v tree depth = some p) :
    p ∈ tree.levels depth ∧ value p.1 < v := by
  have member := List.mem_of_getLast? found
  rw [List.mem_filter] at member
  exact ⟨member.1, of_decide_eq_true member.2⟩

theorem first_above_some {tree : Tree N} {depth : Nat} {q : N × Nat} (found : firstAbove value v tree depth = some q) :
    q ∈ tree.levels depth ∧ v ≤ value q.1 := by
  refine ⟨List.mem_of_find?_eq_some found, ?_⟩
  simpa using List.find?_some found

-- The descent ends at the deeper of the two neighbours.
theorem search_nearest_deeper (tree : Tree N) (ordered : (tree.inorder.map value).Pairwise (· ≤ ·)) (depth : Nat) (nearestNode : Option N)
    (nearestValue : Nat) :
    searchFrom value v .nearest tree nearestNode nearestValue =
      ((deeper (lastBelow value v tree depth) (firstAbove value v tree depth)).map Prod.fst).or nearestNode := by
  induction tree generalizing depth nearestNode with
  | leaf => rfl
  | node left entry right ihLeft ihRight =>
      rw [List.pairwise_map, Tree.inorder, List.pairwise_append, List.pairwise_cons] at ordered
      obtain ⟨orderedLeft, ⟨after, orderedRight⟩, across⟩ := ordered
      rw [searchFrom]
      by_cases more : v > value entry
      · have above : firstAbove value v (.node left entry right) depth = firstAbove value v right (depth + 1) := by
          unfold firstAbove
          rw [Tree.levels, List.find?_append, List.find?_eq_none.mpr, Option.none_or, List.find?_cons_of_neg (by simpa using more)]
          intro p member
          have low := across p.1 (levels_mem member) entry List.mem_cons_self
          simp only [decide_eq_true_eq]
          omega
        have below : lastBelow value v (.node left entry right) depth = (lastBelow value v right (depth + 1)).or (some (entry, depth)) := by
          unfold lastBelow
          rw [Tree.levels, List.filter_append, List.filter_cons_of_pos (by simpa using more), List.getLast?_append, List.getLast?_cons]
          cases (List.filter _ (right.levels (depth + 1))).getLast? with
          | none => rfl
          | some p => rfl
        rw [if_pos more, ihRight (List.pairwise_map.mpr orderedRight) (depth + 1) (some entry), above, below]
        cases first : lastBelow value v right (depth + 1) with
        | some p => cases firstAbove value v right (depth + 1) with
          | none => rfl
          | some q => simp only [Option.some_or, deeper]; split <;> rfl
        | none =>
            cases second : firstAbove value v right (depth + 1) with
            | none => rfl
            | some q =>
                -- The node itself lies above all of its subtree.
                have lower := levels_depth right (depth + 1) q (first_above_some second).1
                simp only [Option.none_or, deeper]
                rw [if_neg (by omega)]
                rfl
      · have below : lastBelow value v (.node left entry right) depth = lastBelow value v left (depth + 1) := by
          unfold lastBelow
          have none_ : ((entry, depth) :: right.levels (depth + 1)).filter (fun p => value p.1 < v) = [] := by
            rw [List.filter_eq_nil_iff]
            intro p member
            rcases List.mem_cons.mp member with rfl | inRight
            · simpa using more
            · have high := after p.1 (levels_mem inRight)
              simp only [decide_eq_true_eq]
              omega
          rw [Tree.levels, List.filter_append, none_, List.append_nil]
        have above : firstAbove value v (.node left entry right) depth = (firstAbove value v left (depth + 1)).or (some (entry, depth)) := by
          unfold firstAbove
          rw [Tree.levels, List.find?_append, List.find?_cons_of_pos (by simpa using more)]
        rw [if_neg more, ihLeft (List.pairwise_map.mpr orderedLeft) (depth + 1) (some entry), above, below]
        cases second : firstAbove value v left (depth + 1) with
        | some q => cases lastBelow value v left (depth + 1) with
          | none => rfl
          | some p => simp only [Option.some_or, deeper]; split <;> rfl
        | none =>
            cases first : lastBelow value v left (depth + 1) with
            | none => rfl
            | some p =>
                have lower := levels_depth left (depth + 1) p (last_below_some first).1
                simp only [Option.none_or, deeper]
                rw [if_pos (by omega)]
                rfl

def distance (a b : Nat) : Nat := (a - b) + (b - a)

-- What the comment on RB_SEARCH_TYPE_NEAREST asks for.
def Nearest (value : N → Nat) (v : Nat) (nodes : List N) (found : Option N) : Prop :=
  ∃ node, found = some node ∧ node ∈ nodes ∧ ∀ other ∈ nodes, distance (value node) v ≤ distance (value other) v

theorem last_below_greatest {tree : Tree N} (ordered : (tree.inorder.map value).Pairwise (· ≤ ·)) (depth : Nat) {node : N}
    (member : node ∈ tree.inorder) (less : value node < v) : ∃ p, lastBelow value v tree depth = some p ∧ value node ≤ value p.1 := by
  rw [← levels_inorder tree depth] at member ordered
  obtain ⟨q, inLevels, rfl⟩ := List.mem_map.mp member
  have kept : q ∈ (tree.levels depth).filter fun p => value p.1 < v := List.mem_filter.mpr ⟨inLevels, by simpa using less⟩
  have sorted := (List.pairwise_map.mp (List.pairwise_map.mp ordered)).filter fun p => value p.1 < v
  obtain ⟨front, p, split⟩ := (List.eq_nil_or_concat _).resolve_left (List.ne_nil_of_mem kept)
  rw [List.concat_eq_append] at split
  refine ⟨p, by simp [lastBelow, split], ?_⟩
  rw [split, List.mem_append] at kept
  rw [split, List.pairwise_append] at sorted
  rcases kept with before | last
  · exact sorted.2.2 q before p (List.mem_singleton_self p)
  · rw [List.mem_singleton.mp last]

theorem first_above_least {tree : Tree N} (ordered : (tree.inorder.map value).Pairwise (· ≤ ·)) (depth : Nat) {node : N}
    (member : node ∈ tree.inorder) (above : v ≤ value node) : ∃ q, firstAbove value v tree depth = some q ∧ value q.1 ≤ value node := by
  rw [← levels_inorder tree depth] at member ordered
  obtain ⟨p, inLevels, rfl⟩ := List.mem_map.mp member
  cases found : firstAbove value v tree depth with
  | none => exact absurd (List.find?_eq_none.mp found p inLevels) (by simpa using above)
  | some q =>
      obtain ⟨_, before, after, split, lower⟩ := List.find?_eq_some_iff_append.mp found
      refine ⟨q, rfl, ?_⟩
      rw [split, List.map_append, List.map_append, List.pairwise_append, List.map_cons, List.map_cons, List.pairwise_cons] at ordered
      rw [split, List.mem_append, List.mem_cons] at inLevels
      rcases inLevels with early | rfl | late
      · have low := lower p early
        simp only [Bool.not_eq_true', decide_eq_false_iff_not] at low
        exact absurd above low
      · exact Nat.le_refl _
      · exact ordered.2.1.1 _ (List.mem_map_of_mem (List.mem_map_of_mem late))

-- Only the two neighbours can be nearer.
theorem nearest_neighbours {tree : Tree N} (ordered : (tree.inorder.map value).Pairwise (· ≤ ·)) (depth : Nat) {node : N}
    (member : node ∈ tree.inorder) :
    Nearest value v tree.inorder (some node) ↔
      (∀ p, lastBelow value v tree depth = some p → distance (value node) v ≤ distance (value p.1) v) ∧
        ∀ q, firstAbove value v tree depth = some q → distance (value node) v ≤ distance (value q.1) v := by
  constructor
  · rintro ⟨_, ⟨⟩, _, first⟩
    exact ⟨fun p below => first p.1 (levels_mem (last_below_some below).1), fun q above => first q.1 (levels_mem (first_above_some above).1)⟩
  · rintro ⟨below, above⟩
    refine ⟨node, rfl, member, fun other inTree => ?_⟩
    by_cases less : value other < v
    · obtain ⟨p, found, behind⟩ := last_below_greatest ordered depth inTree less
      have low := (last_below_some found).2
      have near := below p found
      simp only [distance] at near ⊢
      omega
    · obtain ⟨q, found, behind⟩ := first_above_least ordered depth inTree (Nat.le_of_not_lt less)
      have high := (first_above_some found).2
      have near := above q found
      simp only [distance] at near ⊢
      omega

theorem rb_search_nearest_iff (value : N → Nat) (tree : Tree N) (filled : tree ≠ .leaf) (ordered : (tree.inorder.map value).Pairwise (· ≤ ·))
    (v : Nat) : Nearest value v tree.inorder (rbSearch value v tree .nearest) ↔ DeeperIsNearer value v tree := by
  rw [rbSearch, search_nearest_deeper tree ordered 0, Option.or_none]
  cases below : lastBelow value v tree 0 with
  | none =>
      cases above : firstAbove value v tree 0 with
      | none =>
          -- Any node has one of the neighbours beside it.
          cases tree with
          | leaf => exact absurd rfl filled
          | node left entry right =>
              have member : entry ∈ (Tree.node left entry right).inorder := by simp [Tree.inorder]
              by_cases less : value entry < v
              · obtain ⟨p, found, _⟩ := last_below_greatest ordered 0 member less
                simp [below] at found
              · obtain ⟨q, found, _⟩ := first_above_least ordered 0 member (Nat.le_of_not_lt less)
                simp [above] at found
      | some q =>
          have member := levels_mem (first_above_some above).1
          simp [deeper, DeeperIsNearer, nearest_neighbours ordered 0 member, below, above]
  | some p =>
      have low := (last_below_some below).2
      have memberBelow := levels_mem (last_below_some below).1
      cases above : firstAbove value v tree 0 with
      | none => simp [deeper, DeeperIsNearer, nearest_neighbours ordered 0 memberBelow, below, above]
      | some q =>
          have high := (first_above_some above).2
          have memberAbove := levels_mem (first_above_some above).1
          have condition : DeeperIsNearer value v tree ↔
              if p.2 > q.2 then v - value p.1 ≤ value q.1 - v else value q.1 - v ≤ v - value p.1 := by
            constructor
            · exact fun nearer => nearer p q below above
            · intro nearer p' q' below' above'
              obtain rfl := Option.some.inj (below.symm.trans below')
              obtain rfl := Option.some.inj (above.symm.trans above')
              exact nearer
          rw [condition, deeper]
          by_cases down : p.2 > q.2
          · simp only [if_pos down, Option.map_some, nearest_neighbours ordered 0 memberBelow, below, above, Option.some.injEq,
              forall_eq', distance]
            omega
          · simp only [if_neg down, Option.map_some, nearest_neighbours ordered 0 memberAbove, below, above, Option.some.injEq,
              forall_eq', distance]
            omega

-- The nearest node is the root, and the search goes past it.
theorem rb_search_nearest_past : ¬ Nearest id 12 [10, 20] (rbSearch id 12 (.node .leaf 10 (.node .leaf 20 .leaf)) .nearest) := by
  rintro ⟨node, found, _, first⟩
  have near := first 10 (by simp)
  obtain rfl : 20 = node := Option.some.inj found
  exact absurd near (by decide)

theorem rb_search_nearest_beside :
    Nearest id 18 [10, 20] (rbSearch id 18 (.node .leaf 10 (.node .leaf 20 .leaf)) .nearest) ↔
      DeeperIsNearer id 18 (.node .leaf 10 (.node .leaf 20 .leaf)) :=
  rb_search_nearest_iff id (.node .leaf 10 (.node .leaf 20 .leaf)) (by decide) (by decide) 18

-- events_process and event_queue search for the value 0, and get the first node of any tree.
theorem search_first {N : Type} (value : N → Nat) (tree : Tree N) (nearestNode : Option N) (nearestValue : Nat) :
    searchFrom value 0 .nearest tree nearestNode nearestValue = tree.inorder.head?.or nearestNode := by
  induction tree generalizing nearestNode with
  | leaf => rfl
  | node left entry right ihLeft ihRight =>
      rw [searchFrom, if_neg (Nat.not_lt_zero _), ihLeft, Tree.inorder, List.head?_append, List.head?_cons]
      cases left.inorder.head? <;> rfl

theorem rb_search_first (tree : Tree Events.Event) : rbSearch Events.Event.deadline 0 tree .nearest = Events.rbSearchFirst tree.inorder := by
  rw [rbSearch, search_first, Option.or_none, Events.rbSearchFirst]

end Nearest

section Regions

open Elysium.Vm (Region)

def direction : Vm.SearchType → SearchType
  | .nearestLt => .nearestLt
  | .nearestLte => .nearestLte
  | .nearestGt => .nearestGt
  | .nearestGte => .nearestGte

-- No two regions have one base, and there is one answer.
theorem best_is_nearest {regions : List Region} (increasing : (regions.map Region.base).Pairwise (· < ·)) {v : Nat} {type : Vm.SearchType}
    {admits : Nat → Prop} {upTo : Nat → Nat → Prop} {found : Option Region} (best : Best Region.base regions admits upTo found)
    (antisymm : ∀ a b, upTo a b → upTo b a → a = b) (sameAdmits : ∀ value, type.admits v value = true ↔ admits value)
    (sameOrder : ∀ a b, ¬ type.nearer a b ↔ upTo a b) : found = Vm.rbSearch regions v type := by
  have nearest := Vm.rb_search_nearest regions v type
  cases searched : Vm.rbSearch regions v type with
  | none =>
      rw [searched] at nearest
      exact best.none_iff.mpr fun region member admitted => nearest region member ((sameAdmits _).mpr admitted)
  | some region =>
      rw [searched] at nearest
      obtain ⟨member, admitted, last⟩ := nearest
      have admits_ := (sameAdmits _).mp admitted
      cases found with
      | none => exact absurd admits_ (best.none_iff.mp rfl region member)
      | some other =>
          obtain ⟨memberOther, admittedOther, lastOther⟩ := best.some_of other rfl
          have same := antisymm _ _ (lastOther region member admits_)
            ((sameOrder _ _).mp (last other memberOther ((sameAdmits _).mpr admittedOther)))
          have distinct : (regions.map Region.base).Nodup := increasing.imp fun less => Nat.ne_of_lt less
          rw [List.inj_on_of_nodup_map distinct member memberOther same]

-- The searches in the tree of an address space are the ones in its list of regions.
theorem rb_search_regions (tree : Tree Region) (increasing : (tree.inorder.map Region.base).Pairwise (· < ·)) (v : Nat) (type : Vm.SearchType) :
    rbSearch Region.base v tree (direction type) = Vm.rbSearch tree.inorder v type := by
  have ordered := increasing.imp Nat.le_of_lt
  cases type with
  | nearestLt =>
      rw [direction, rbSearch, search_from_lt]
      exact best_is_nearest increasing (best_below ordered fun _ _ => Nat.lt_of_le_of_lt) (fun _ _ => Nat.le_antisymm)
        (Vm.admits_lt v) fun a b => by simp [Vm.SearchType.nearer]
  | nearestLte =>
      rw [direction, rbSearch, search_from_lte]
      exact best_is_nearest increasing (best_below ordered fun _ _ => Nat.le_trans) (fun _ _ => Nat.le_antisymm)
        (Vm.admits_lte v) fun a b => by simp [Vm.SearchType.nearer]
  | nearestGt =>
      rw [direction, rbSearch, search_from_gt]
      exact best_is_nearest increasing (best_above ordered fun _ _ above admitted => Nat.lt_of_lt_of_le admitted above)
        (fun _ _ first second => Nat.le_antisymm second first) (Vm.admits_gt v) fun a b => by simp [Vm.SearchType.nearer]
  | nearestGte =>
      rw [direction, rbSearch, search_from_gte]
      exact best_is_nearest increasing (best_above ordered fun _ _ above admitted => Nat.le_trans admitted above)
        (fun _ _ first second => Nat.le_antisymm second first) (Vm.admits_gte v) fun a b => by simp [Vm.SearchType.nearer]

end Regions

end Elysium.Rb
