import Elysium.Machine
import Elysium.RedBlack

set_option autoImplicit false

namespace Elysium.RbLinks

open RedBlack (Direction)

structure RbNode (N : Type) where
  red : Bool
  parent : Option N
  left : Option N
  right : Option N
deriving DecidableEq, Repr

-- An rb_tree_t together with the memory of the nodes.
structure RbTree (N : Type) where
  root : Option N
  count : Nat
  nodes : N → RbNode N

section Fields

variable {N : Type}

def RbNode.child (node : RbNode N) : Direction → Option N
  | .left => node.left
  | .right => node.right

def RbNode.setChild (node : RbNode N) (direction : Direction) (child : Option N) : RbNode N :=
  match direction with
  | .left => { node with left := child }
  | .right => { node with right := child }

variable [DecidableEq N]

def RbTree.write (tree : RbTree N) (x : N) (node : RbNode N) : RbTree N :=
  { tree with nodes := Function.update tree.nodes x node }

def RbTree.setRed (tree : RbTree N) (x : N) (red : Bool) : RbTree N := tree.write x { tree.nodes x with red := red }

def RbTree.setParent (tree : RbTree N) (x : N) (parent : Option N) : RbTree N := tree.write x { tree.nodes x with parent := parent }

def RbTree.setChild (tree : RbTree N) (x : N) (direction : Direction) (child : Option N) : RbTree N :=
  tree.write x ((tree.nodes x).setChild direction child)

-- The same where the pointer may be nullptr.
def RbTree.adopt (tree : RbTree N) (child parent : Option N) : RbTree N :=
  match child with
  | none => tree
  | some x => tree.setParent x parent

def RbTree.blacken (tree : RbTree N) (pointer : Option N) : RbTree N :=
  match pointer with
  | none => tree
  | some x => tree.setRed x false

def deref (pointer : Option N) : Except Fault N :=
  match pointer with
  | some x => .ok x
  | none => .error .undefined

def RbTree.isRed (tree : RbTree N) (pointer : Option N) : Bool :=
  match pointer with
  | some x => (tree.nodes x).red
  | none => false

def RbTree.getDirection (tree : RbTree N) (x : N) : Except Fault Direction := do
  let parent ← deref (tree.nodes x).parent
  .ok (if (tree.nodes parent).right = some x then .right else .left)

end Fields

section Code

variable {N : Type} [DecidableEq N]

-- RB_TREE_INIT.
def rbTreeInit (nodes : N → RbNode N) : RbTree N := ⟨none, 0, nodes⟩

def transplant (tree : RbTree N) (u : N) (v : Option N) : Except Fault (RbTree N) := do
  let tree ←
    match (tree.nodes u).parent with
    | none => do
        assertThat (tree.root = some u)
        .ok { tree with root := v }
    | some parent => do
        let direction ← tree.getDirection u
        .ok (tree.setChild parent direction v)
  .ok (tree.adopt v (tree.nodes u).parent)

def rotate (tree : RbTree N) (node : N) (direction : Direction) : Except Fault (N × RbTree N) := do
  let rotationParent := (tree.nodes node).parent
  let newRoot ← deref ((tree.nodes node).child direction.opposite)
  let tree := tree.setChild node direction.opposite ((tree.nodes newRoot).child direction)
  let tree := tree.adopt ((tree.nodes node).child direction.opposite) (some node)
  let tree := tree.setChild newRoot direction (some node)
  let tree := tree.setParent node (some newRoot)
  let tree := tree.setParent newRoot rotationParent
  match rotationParent with
  | some parent => .ok (newRoot, tree.setChild parent (if (tree.nodes parent).right = some node then .right else .left) (some newRoot))
  | none => .ok (newRoot, { tree with root := some newRoot })

-- The rounds of rebalance_insert. A round that goes on has a grandparent with a parent.
def rebalanceLoop : Nat → RbTree N → N → N → Except Fault (RbTree N)
  | 0, _, _, _ => .error .diverges
  | fuel + 1, tree, node, parent =>
    if !tree.isRed (some parent) then .ok tree
    else
      match (tree.nodes parent).parent with
      | none => .ok (tree.setRed parent false)
      | some grandparent => do
        let direction ← tree.getDirection parent
        let uncle := (tree.nodes grandparent).child direction.opposite
        if !tree.isRed uncle then do
          let (tree, parent) ←
            if (tree.nodes parent).child direction.opposite = some node then do
              let (_, tree) ← rotate tree parent direction
              let parent ← deref ((tree.nodes grandparent).child direction)
              .ok (tree, parent)
            else .ok (tree, parent)
          let (_, tree) ← rotate tree grandparent direction.opposite
          .ok ((tree.setRed parent false).setRed grandparent true)
        else do
          let tree := ((tree.setRed parent false).blacken uncle).setRed grandparent true
          match (tree.nodes grandparent).parent with
          | some parent => rebalanceLoop fuel tree grandparent parent
          | none => do
            let root ← deref tree.root
            .ok (tree.setRed root false)

def rebalanceInsert (fuel : Nat) (tree : RbTree N) (node : N) : Except Fault (RbTree N) :=
  match (tree.nodes node).parent with
  | none => .ok tree
  | some parent => rebalanceLoop fuel tree node parent

-- The loop of rb_insert; direction is not initialised before its first round.
def insertLoop (value : N → Nat) (node : N) : Nat → RbTree N → Option N → Option Direction → Except Fault (RbTree N × Option Direction)
  | 0, _, _, _ => .error .diverges
  | _ + 1, tree, none, direction => .ok (tree, direction)
  | fuel + 1, tree, some current, _ =>
      let tree := tree.setParent node (some current)
      let direction := if value node < value current then Direction.left else .right
      insertLoop value node fuel tree ((tree.nodes current).child direction) (some direction)

-- What is left of rb_insert after the loop.
def insertLink (fuel : Nat) (tree : RbTree N) (node : N) (direction : Option Direction) : Except Fault (RbTree N) :=
  match (tree.nodes node).parent with
  | none => .ok ({ tree with root := some node }.setRed node false)
  | some parent =>
    match direction with
    | none => .error .undefined
    | some direction =>
      let tree := tree.setChild parent direction (some node)
      match (tree.nodes parent).parent with
      | none => .ok tree
      | some _ => rebalanceInsert fuel tree node

def rbInsert (value : N → Nat) (fuel : Nat) (tree : RbTree N) (node : N) : Except Fault (RbTree N) := do
  let tree := { tree with count := add64 tree.count 1 }
  let tree := tree.write node ⟨true, none, none, none⟩
  let (tree, direction) ← insertLoop value node fuel tree tree.root none
  insertLink fuel tree node direction

-- while(successor->left != nullptr) successor = successor->left.
def successorLoop (tree : RbTree N) : Nat → N → Except Fault N
  | 0, _ => .error .diverges
  | fuel + 1, successor =>
    match (tree.nodes successor).left with
    | none => .ok successor
    | some left => successorLoop tree fuel left

-- The rounds of rb_remove. The two halves of the source are one, by the direction that x lies in. A round gives the next x.
def removeFar (tree : RbTree N) (xp w : N) (direction : Direction) : Except Fault (RbTree N × Option N) := do
  let tree := tree.setRed w (tree.isRed (some xp))
  let tree := tree.setRed xp false
  let far ← deref ((tree.nodes w).child direction.opposite)
  let tree := tree.setRed far false
  let (_, tree) ← rotate tree xp direction
  .ok (tree, tree.root)

def removeSettle (tree : RbTree N) (xp : N) (direction : Direction) : Except Fault (RbTree N × Option N) := do
  let w ← deref ((tree.nodes xp).child direction.opposite)
  if !tree.isRed ((tree.nodes w).child direction) && !tree.isRed ((tree.nodes w).child direction.opposite) then
    .ok (tree.setRed w true, some xp)
  else if !tree.isRed ((tree.nodes w).child direction.opposite) then do
    let near ← deref ((tree.nodes w).child direction)
    let tree := (tree.setRed near false).setRed w true
    let (_, tree) ← rotate tree w direction.opposite
    let w ← deref ((tree.nodes xp).child direction.opposite)
    removeFar tree xp w direction
  else removeFar tree xp w direction

def removeRound (tree : RbTree N) (x : Option N) (xp : N) (direction : Direction) : Except Fault (RbTree N × Option N) := do
  let w := (tree.nodes xp).child direction.opposite
  if tree.isRed w then do
    let tree := (tree.blacken w).setRed xp true
    let (_, tree) ← rotate tree xp direction
    assertThat (x = (tree.nodes xp).child direction)
    removeSettle tree xp direction
  else removeSettle tree xp direction

def removeLoop : Nat → RbTree N → Option N → Option N → Except Fault (RbTree N × Option N)
  | 0, _, _, _ => .error .diverges
  | fuel + 1, tree, x, xp =>
    if x ≠ tree.root ∧ tree.isRed x = false then do
      let parent ← deref xp
      let (tree, x) ← removeRound tree x parent (if x = (tree.nodes parent).left then .left else .right)
      let node ← deref x
      removeLoop fuel tree x (tree.nodes node).parent
    else .ok (tree, x)

-- What rb_remove does with a node that has two children: the successor is taken out of its place, and put in the place of the node.
def removeDetach (tree : RbTree N) (node successor : N) : Except Fault (RbTree N × Option N) :=
  if (tree.nodes successor).parent = some node then .ok (tree, some successor)
  else do
    let xp := (tree.nodes successor).parent
    let tree ← transplant tree successor (tree.nodes successor).right
    let tree := tree.setChild successor .right (tree.nodes node).right
    let moved ← deref (tree.nodes successor).right
    .ok (tree.setParent moved (some successor), xp)

def removeSplice (tree : RbTree N) (node successor : N) : Except Fault (RbTree N) := do
  assertThat ((tree.nodes successor).left = none)
  let tree ← transplant tree node (some successor)
  let tree := tree.setChild successor .left (tree.nodes node).left
  let moved ← deref (tree.nodes successor).left
  let tree := tree.setParent moved (some successor)
  .ok (tree.setRed successor (tree.isRed (some node)))

def removeSpliced (fuel : Nat) (tree : RbTree N) (node right : N) : Except Fault (RbTree N × Bool × Option N × Option N) := do
  let successor ← successorLoop tree fuel right
  let originalIsRed := tree.isRed (some successor)
  let x := (tree.nodes successor).right
  let (tree, xp) ← removeDetach tree node successor
  let tree ← removeSplice tree node successor
  .ok (tree, originalIsRed, x, xp)

-- rb_remove up to its second assertion: whether the place is one black node short, x and x_p.
def removeUnlink (fuel : Nat) (tree : RbTree N) (node : N) : Except Fault (RbTree N × Bool × Option N × Option N) :=
  match (tree.nodes node).left, (tree.nodes node).right with
  | none, right => do
      let xp := (tree.nodes node).parent
      let originalIsRed := tree.isRed (some node)
      let tree ← transplant tree node right
      .ok (tree, originalIsRed, right, xp)
  | some left, none => do
      let xp := (tree.nodes node).parent
      let originalIsRed := tree.isRed (some node)
      let tree ← transplant tree node (some left)
      .ok (tree, originalIsRed, some left, xp)
  | some _, some right => removeSpliced fuel tree node right

def RbTree.isChild (tree : RbTree N) (x xp : Option N) : Bool :=
  match xp with
  | none => true
  | some xp => x = (tree.nodes xp).left ∨ x = (tree.nodes xp).right

def rbRemove (fuel : Nat) (tree : RbTree N) (node : N) : Except Fault (RbTree N) := do
  let tree := { tree with count := sub64 tree.count 1 }
  let (tree, originalIsRed, x, xp) ← removeUnlink fuel tree node
  assertThat (tree.isChild x xp)
  if originalIsRed then .ok tree
  else do
    let (tree, x) ← removeLoop fuel tree x xp
    .ok (tree.blacken x)

end Code

end Elysium.RbLinks
