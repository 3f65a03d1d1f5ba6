import Mathlib.Algebra.Group.Nat.Defs
import Mathlib.Data.List.Nodup
import Mathlib.Logic.Basic

set_option autoImplicit false

namespace Elysium.RedBlack

inductive Direction where
  | left
  | right
deriving DecidableEq, Repr

namespace Direction

def opposite : Direction → Direction
  | left => right
  | right => left

@[simp] theorem opposite_opposite (d : Direction) : d.opposite.opposite = d := by
  cases d <;> rfl

@[simp] theorem opposite_ne (d : Direction) : d.opposite ≠ d := by
  cases d <;> decide

theorem eq_or_opposite (a d : Direction) : a = d ∨ a = d.opposite := by
  cases a <;> cases d <;> decide

end Direction

inductive Shape (N : Type) where
  | leaf
  | node (red : Bool) (left : Shape N) (entry : N) (right : Shape N)
deriving DecidableEq, Repr

def weight (red : Bool) : Nat := if red then 0 else 1

@[simp] theorem weight_red : weight true = 0 := rfl

@[simp] theorem weight_black : weight false = 1 := rfl

namespace Shape

variable {N : Type}

def isRed : Shape N → Bool
  | leaf => false
  | node red _ _ _ => red

def root : Shape N → Option N
  | leaf => none
  | node _ _ entry _ => some entry

@[simp] theorem leaf_root : (leaf : Shape N).root = none := rfl

@[simp] theorem node_root (red : Bool) (left : Shape N) (entry : N) (right : Shape N) : (node red left entry right).root = some entry := rfl

def blackened : Shape N → Shape N
  | leaf => leaf
  | node _ left entry right => node false left entry right

def inorder : Shape N → List N
  | leaf => []
  | node _ left entry right => left.inorder ++ entry :: right.inorder

-- The black nodes on each path from the root to a leaf.
def blackDepths : Shape N → List Nat
  | leaf => [0]
  | node red left _ right => (left.blackDepths ++ right.blackDepths).map (· + weight red)

-- No red node has a red child.
def Calm : Shape N → Prop
  | leaf => True
  | node red left _ right => (red = true → left.isRed = false ∧ right.isRed = false) ∧ left.Calm ∧ right.Calm

def Level : Shape N → Nat → Prop
  | leaf, n => n = 0
  | node red left _ right, n => ∃ m, n = m + weight red ∧ left.Level m ∧ right.Level m

theorem black_depths_some (tree : Shape N) : ∃ k, k ∈ tree.blackDepths := by
  induction tree with
  | leaf => exact ⟨0, List.mem_singleton_self 0⟩
  | node red left entry right ihLeft _ =>
      obtain ⟨k, member⟩ := ihLeft
      exact ⟨k + weight red, List.mem_map_of_mem (List.mem_append_left _ member)⟩

theorem level_iff (tree : Shape N) (n : Nat) : tree.Level n ↔ ∀ k ∈ tree.blackDepths, k = n := by
  induction tree generalizing n with
  | leaf => simp [Level, blackDepths, eq_comm]
  | node red left entry right ihLeft ihRight =>
      simp only [Level, blackDepths, List.forall_mem_map, List.forall_mem_append, ihLeft, ihRight]
      constructor
      · rintro ⟨m, rfl, inLeft, inRight⟩
        exact ⟨fun k member => by rw [inLeft k member], fun k member => by rw [inRight k member]⟩
      · rintro ⟨inLeft, inRight⟩
        obtain ⟨m, member⟩ := left.black_depths_some
        refine ⟨m, (inLeft m member).symm, fun k other => ?_, fun k other => ?_⟩
        · exact Nat.add_right_cancel ((inLeft k other).trans (inLeft m member).symm)
        · exact Nat.add_right_cancel ((inRight k other).trans (inLeft m member).symm)

def height : Shape N → Nat
  | leaf => 0
  | node _ left _ right => max left.height right.height + 1

-- Of the nodes on a path at least half are black, but for a red one on top.
theorem height_le_level {tree : Shape N} {n : Nat} (calm : tree.Calm) (level : tree.Level n) :
    tree.height ≤ 2 * n + if tree.isRed then 1 else 0 := by
  induction tree generalizing n with
  | leaf => exact Nat.zero_le _
  | node red left entry right ihLeft ihRight =>
      obtain ⟨noRed, calmLeft, calmRight⟩ := calm
      obtain ⟨m, rfl, levelLeft, levelRight⟩ := level
      have highLeft := ihLeft calmLeft levelLeft
      have highRight := ihRight calmRight levelRight
      cases red with
      | true =>
          obtain ⟨blackLeft, blackRight⟩ := noRed rfl
          rw [blackLeft] at highLeft
          rw [blackRight] at highRight
          simp only [height, isRed, weight_red, if_true, Bool.false_eq_true, if_false] at *
          omega
      | false =>
          have atMost : ∀ red : Bool, (if red then 1 else 0) ≤ 1 := by decide
          have fewLeft := atMost left.isRed
          have fewRight := atMost right.isRed
          rw [height, weight_black]
          omega

theorem level_le_size {tree : Shape N} {n : Nat} (level : tree.Level n) : 2 ^ n ≤ tree.inorder.length + 1 := by
  induction tree generalizing n with
  | leaf =>
      cases level
      exact Nat.le_refl _
  | node red left entry right ihLeft ihRight =>
      obtain ⟨m, rfl, levelLeft, levelRight⟩ := level
      have largeLeft := ihLeft levelLeft
      have largeRight := ihRight levelRight
      have grows : 2 ^ (m + weight red) ≤ 2 ^ (m + 1) := Nat.pow_le_pow_right Nat.zero_lt_two (by cases red <;> simp)
      rw [inorder, List.length_append, List.length_cons]
      rw [Nat.pow_succ] at grows
      omega

structure Balanced (tree : Shape N) : Prop where
  root : tree.isRed = false
  calm : tree.Calm
  level : ∃ n, ∀ k ∈ tree.blackDepths, k = n

theorem balanced_iff (tree : Shape N) : tree.Balanced ↔ tree.Calm ∧ ∃ n, tree.Level n ∧ tree.isRed = false := by
  simp only [level_iff, exists_and_right]
  exact ⟨fun valid => ⟨valid.calm, valid.level, valid.root⟩, fun ⟨calm, level, root⟩ => ⟨root, calm, level⟩⟩

theorem height_le_log {tree : Shape N} (balanced : tree.Balanced) : tree.height ≤ 2 * Nat.log2 (tree.inorder.length + 1) := by
  obtain ⟨calm, n, level, black⟩ := (balanced_iff tree).mp balanced
  have high := height_le_level calm level
  rw [black] at high
  have few := (Nat.le_log2 (Nat.succ_ne_zero _)).mpr (level_le_size level)
  exact Nat.le_trans high (Nat.mul_le_mul_left 2 few)

-- A node by the subtree in a direction and the other one.
def branch (d : Direction) (red : Bool) (entry : N) (near far : Shape N) : Shape N :=
  match d with
  | .left => node red near entry far
  | .right => node red far entry near

section Branch

variable (d : Direction) (red : Bool) (entry : N) (near far : Shape N)

@[simp] theorem branch_opposite : branch d.opposite red entry near far = branch d red entry far near := by
  cases d <;> rfl

@[simp] theorem branch_root : (branch d red entry near far).root = some entry := by
  cases d <;> rfl

@[simp] theorem branch_is_red : (branch d red entry near far).isRed = red := by
  cases d <;> rfl

@[simp] theorem branch_blackened : (branch d red entry near far).blackened = branch d false entry near far := by
  cases d <;> rfl

@[simp] theorem branch_calm : (branch d red entry near far).Calm ↔
    (red = true → near.isRed = false ∧ far.isRed = false) ∧ near.Calm ∧ far.Calm := by
  cases d
  · rfl
  · simp only [branch, Calm, and_comm]

@[simp] theorem branch_level (n : Nat) : (branch d red entry near far).Level n ↔ ∃ m, n = m + weight red ∧ near.Level m ∧ far.Level m := by
  cases d
  · rfl
  · simp only [branch, Level, and_comm (a := far.Level _)]

theorem branch_inorder : (branch d red entry near far).inorder =
    match d with
    | .left => near.inorder ++ entry :: far.inorder
    | .right => far.inorder ++ entry :: near.inorder := by
  cases d <;> rfl

end Branch

theorem leaf_or_branch (d : Direction) (tree : Shape N) : tree = leaf ∨ ∃ red entry near far, tree = branch d red entry near far := by
  cases tree with
  | leaf => exact .inl rfl
  | node red left entry right =>
      cases d with
      | left => exact .inr ⟨red, entry, left, right, rfl⟩
      | right => exact .inr ⟨red, entry, right, left, rfl⟩

@[simp] theorem blackened_inorder (tree : Shape N) : tree.blackened.inorder = tree.inorder := by
  cases tree <;> rfl

@[simp] theorem blackened_root (tree : Shape N) : tree.blackened.root = tree.root := by
  cases tree <;> rfl

@[simp] theorem blackened_is_red (tree : Shape N) : tree.blackened.isRed = false := by
  cases tree <;> rfl

theorem blackened_of_black {tree : Shape N} (black : tree.isRed = false) : tree.blackened = tree := by
  cases tree with
  | leaf => rfl
  | node red left entry right =>
      obtain rfl : red = false := black
      rfl

theorem calm_blackened {tree : Shape N} (calm : tree.Calm) : tree.blackened.Calm := by
  cases tree with
  | leaf => exact trivial
  | node red left entry right => exact ⟨fun same => Bool.noConfusion same, calm.2⟩

theorem level_blackened {tree : Shape N} {n : Nat} (isRed : tree.isRed = true) (level : tree.Level n) : tree.blackened.Level (n + 1) := by
  cases tree with
  | leaf => cases isRed
  | node red left entry right =>
      obtain rfl : red = true := isRed
      obtain ⟨m, same, levels⟩ := level
      exact ⟨m, congrArg (· + 1) same, levels⟩

theorem root_mem {tree : Shape N} {x : N} (top : tree.root = some x) : x ∈ tree.inorder := by
  cases tree with
  | leaf => cases top
  | node red left entry right =>
      obtain rfl : entry = x := Option.some.inj top
      exact List.mem_append_right _ List.mem_cons_self

theorem root_none {tree : Shape N} : tree.root = none ↔ tree = leaf := by
  cases tree <;> simp [root]

end Shape

-- A node above a place of the tree: which of its subtrees the place is in, and the other one.
structure Frame (N : Type) where
  direction : Direction
  red : Bool
  entry : N
  sibling : Shape N
deriving DecidableEq, Repr

open Shape (branch)

section Paths

variable {N : Type}

def Frame.fill (frame : Frame N) (tree : Shape N) : Shape N := branch frame.direction frame.red frame.entry tree frame.sibling

-- The frames above a place, from the innermost on, and the whole tree with another subtree there.
def plug : List (Frame N) → Shape N → Shape N
  | [], tree => tree
  | frame :: path, tree => plug path (frame.fill tree)

def parent : List (Frame N) → Option N
  | [] => none
  | frame :: _ => some frame.entry

def before : List (Frame N) → List N
  | [] => []
  | frame :: path =>
      match frame.direction with
      | .left => before path
      | .right => before path ++ (frame.sibling.inorder ++ [frame.entry])

def after : List (Frame N) → List N
  | [] => []
  | frame :: path =>
      match frame.direction with
      | .left => frame.entry :: frame.sibling.inorder ++ after path
      | .right => after path

theorem plug_append (inner outer : List (Frame N)) (tree : Shape N) : plug (inner ++ outer) tree = plug outer (plug inner tree) := by
  induction inner generalizing tree with
  | nil => rfl
  | cons frame inner ih => exact ih (frame.fill tree)

theorem plug_inorder (path : List (Frame N)) (tree : Shape N) : (plug path tree).inorder = before path ++ tree.inorder ++ after path := by
  induction path generalizing tree with
  | nil => simp [plug, before, after]
  | cons frame path ih =>
      rw [plug, ih, Frame.fill, Shape.branch_inorder]
      cases turn : frame.direction <;> simp [before, after, turn]

theorem plug_inorder_congr {path : List (Frame N)} {tree tree' : Shape N} (same : tree.inorder = tree'.inorder) :
    (plug path tree).inorder = (plug path tree').inorder := by
  rw [plug_inorder, plug_inorder, same]

theorem exists_path {tree : Shape N} {x : N} (member : x ∈ tree.inorder) :
    ∃ path red left right, tree = plug path (.node red left x right) := by
  induction tree with
  | leaf => cases member
  | node red left entry right ihLeft ihRight =>
      rcases List.mem_append.mp member with inLeft | rest
      · obtain ⟨path, red', left', right', rfl⟩ := ihLeft inLeft
        exact ⟨path ++ [⟨.left, red, entry, right⟩], red', left', right', by rw [plug_append]; rfl⟩
      · rcases List.mem_cons.mp rest with rfl | inRight
        · exact ⟨[], red, left, right, rfl⟩
        · obtain ⟨path, red', left', right', rfl⟩ := ihRight inRight
          exact ⟨path ++ [⟨.right, red, entry, left⟩], red', left', right', by rw [plug_append]; rfl⟩

theorem path_length_le (path : List (Frame N)) (tree : Shape N) : path.length + tree.inorder.length ≤ (plug path tree).inorder.length := by
  induction path generalizing tree with
  | nil => exact Nat.le_of_eq (Nat.zero_add _)
  | cons frame path ih =>
      have filled : tree.inorder.length + 1 ≤ (frame.fill tree).inorder.length := by
        rw [Frame.fill, Shape.branch_inorder]
        cases frame.direction <;> simp only [List.length_append, List.length_cons] <;> omega
      have above := ih (frame.fill tree)
      rw [plug, List.length_cons]
      omega

-- The way down to the place of a new node, by the nodes it is left of.
def place (goesLeft : N → Bool) : Shape N → List (Frame N) → List (Frame N)
  | .leaf, path => path
  | .node red left x right, path =>
      if goesLeft x then place goesLeft left (⟨.left, red, x, right⟩ :: path) else place goesLeft right (⟨.right, red, x, left⟩ :: path)

theorem plug_place (goesLeft : N → Bool) (tree : Shape N) (path : List (Frame N)) :
    plug (place goesLeft tree path) .leaf = plug path tree := by
  induction tree generalizing path with
  | leaf => rfl
  | node red left x right ihLeft ihRight =>
      rw [place]
      split
      · exact ihLeft _
      · exact ihRight _

theorem place_sides {goesLeft : N → Bool} {tree : Shape N} (ordered : tree.inorder.Pairwise fun x y => goesLeft x = true → goesLeft y = true)
    (path : List (Frame N)) :
    (∀ x ∈ before (place goesLeft tree path), x ∈ before path ∨ goesLeft x = false) ∧
      ∀ x ∈ after (place goesLeft tree path), x ∈ after path ∨ goesLeft x = true := by
  induction tree generalizing path with
  | leaf => exact ⟨fun x member => .inl member, fun x member => .inl member⟩
  | node red left x right ihLeft ihRight =>
      rw [Shape.inorder, List.pairwise_append, List.pairwise_cons] at ordered
      obtain ⟨orderedLeft, ⟨beside, orderedRight⟩, across⟩ := ordered
      rw [place]
      split
      · rename_i goes
        obtain ⟨smaller, larger⟩ := ihLeft orderedLeft (⟨.left, red, x, right⟩ :: path)
        refine ⟨smaller, fun y member => ?_⟩
        rcases larger y member with there | goesY
        · rcases List.mem_cons.mp there with rfl | there
          · exact .inr goes
          · exact (List.mem_append.mp there).symm.imp_right fun inRight => beside y inRight goes
        · exact .inr goesY
      · rename_i stays
        have staysX : goesLeft x = false := by simpa using stays
        obtain ⟨smaller, larger⟩ := ihRight orderedRight (⟨.right, red, x, left⟩ :: path)
        refine ⟨fun y member => ?_, larger⟩
        rcases smaller y member with there | staysY
        · refine (List.mem_append.mp there).imp_right fun here => ?_
          rcases List.mem_append.mp here with inLeft | last
          · cases goesY : goesLeft y with
            | false => rfl
            | true => exact absurd (across y inLeft x List.mem_cons_self goesY) stays
          · rw [List.mem_singleton.mp last]
            exact staysX
        · exact .inr staysY

-- What a place of a red-black tree takes: a subtree with a root of this colour, and so many black nodes on its paths.
def Fits : List (Frame N) → Bool → Nat → Prop
  | [], red, _ => red = false
  | frame :: path, red, n =>
      (frame.red = true → red = false ∧ frame.sibling.isRed = false) ∧ frame.sibling.Calm ∧ frame.sibling.Level n ∧
        Fits path frame.red (n + weight frame.red)

theorem balanced_plug (path : List (Frame N)) (tree : Shape N) :
    (plug path tree).Balanced ↔ tree.Calm ∧ ∃ n, tree.Level n ∧ Fits path tree.isRed n := by
  induction path generalizing tree with
  | nil => exact Shape.balanced_iff tree
  | cons frame path ih =>
      rw [plug, ih, Frame.fill, Shape.branch_calm, Shape.branch_is_red]
      simp only [Shape.branch_level, Fits]
      constructor
      · rintro ⟨⟨redBlack, calm, calmSibling⟩, _, ⟨n, rfl, level, levelSibling⟩, fits⟩
        exact ⟨calm, n, level, redBlack, calmSibling, levelSibling, fits⟩
      · rintro ⟨calm, n, level, redBlack, calmSibling, levelSibling, fits⟩
        exact ⟨⟨redBlack, calm, calmSibling⟩, _, ⟨n, rfl, level, levelSibling⟩, fits⟩

theorem fits_black {path : List (Frame N)} {red : Bool} {n : Nat} (fits : Fits path red n) : Fits path false n := by
  cases path with
  | nil => rfl
  | cons frame path => exact ⟨fun isRed => ⟨rfl, (fits.1 isRed).2⟩, fits.2⟩

-- The names of the nodes do not matter.
theorem fits_renamed {inner outer : List (Frame N)} {d : Direction} {red red' : Bool} {x y : N} {sibling : Shape N} {n : Nat}
    (fits : Fits (inner ++ ⟨d, red, x, sibling⟩ :: outer) red' n) : Fits (inner ++ ⟨d, red, y, sibling⟩ :: outer) red' n := by
  induction inner generalizing red' n with
  | nil => exact fits
  | cons frame inner ih => exact ⟨fits.1, fits.2.1, fits.2.2.1, ih fits.2.2.2⟩

end Paths

end Elysium.RedBlack
