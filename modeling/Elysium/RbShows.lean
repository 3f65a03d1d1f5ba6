import Elysium.RbLinks
import Elysium.RedBlackRepair
import Mathlib.Data.List.Perm.Basic

set_option autoImplicit false

namespace Elysium.RbLinks

open RedBlack (Direction Shape Frame plug)
open RedBlack.Shape (branch)

-- A node by the child in a direction and the other one.
def cell {N : Type} (d : Direction) (red : Bool) (parent near far : Option N) : RbNode N :=
  match d with
  | .left => ⟨red, parent, near, far⟩
  | .right => ⟨red, parent, far, near⟩

section Cells

variable {N : Type} (d : Direction) (red : Bool) (parent near far other : Option N)

@[simp] theorem cell_red : (cell d red parent near far).red = red := by
  cases d <;> rfl

@[simp] theorem cell_parent : (cell d red parent near far).parent = parent := by
  cases d <;> rfl

@[simp] theorem cell_near : (cell d red parent near far).child d = near := by
  cases d <;> rfl

@[simp] theorem cell_far : (cell d red parent near far).child d.opposite = far := by
  cases d <;> rfl

@[simp] theorem cell_opposite : cell d.opposite red parent near far = cell d red parent far near := by
  cases d <;> rfl

@[simp] theorem cell_set_near : (cell d red parent near far).setChild d other = cell d red parent other far := by
  cases d <;> rfl

@[simp] theorem cell_set_far : (cell d red parent near far).setChild d.opposite other = cell d red parent near other := by
  cases d <;> rfl

@[simp] theorem cell_set_red (red' : Bool) : { cell d red parent near far with red := red' } = cell d red' parent near far := by
  cases d <;> rfl

@[simp] theorem cell_set_parent : { cell d red parent near far with parent := other } = cell d red other near far := by
  cases d <;> rfl

end Cells

section Shape

variable {N : Type}

-- The nodes of a subtree are linked as it says, under this parent.
def Holds (nodes : N → RbNode N) : Option N → Shape N → Prop
  | _, .leaf => True
  | parent, .node red left x right => nodes x = ⟨red, parent, left.root, right.root⟩ ∧ Holds nodes (some x) left ∧ Holds nodes (some x) right

-- The same of the frames above a place, where `hole` is what is linked there.
def HoldsPath (nodes : N → RbNode N) : List (Frame N) → Option N → Prop
  | [], _ => True
  | frame :: path, hole =>
      nodes frame.entry = cell frame.direction frame.red (RedBlack.parent path) hole frame.sibling.root ∧
        Holds nodes (some frame.entry) frame.sibling ∧ HoldsPath nodes path (some frame.entry)

def top : List (Frame N) → Option N → Option N
  | [], hole => hole
  | frame :: path, _ => top path (some frame.entry)

def entries : List (Frame N) → List N
  | [] => []
  | frame :: path => frame.entry :: frame.sibling.inorder ++ entries path

variable {nodes nodes' : N → RbNode N} {path : List (Frame N)} {tree : Shape N} {parent hole : Option N}

theorem holds_branch (d : Direction) (red : Bool) (x : N) (near far : Shape N) : Holds nodes parent (branch d red x near far) ↔
    nodes x = cell d red parent near.root far.root ∧ Holds nodes (some x) near ∧ Holds nodes (some x) far := by
  cases d
  · rfl
  · simp only [branch, Holds, cell, and_comm (a := Holds nodes (some x) far)]

theorem holds_congr (same : ∀ x ∈ tree.inorder, nodes' x = nodes x) (holds : Holds nodes parent tree) : Holds nodes' parent tree := by
  induction tree generalizing parent with
  | leaf => exact trivial
  | node red left x right ihLeft ihRight =>
      simp only [Shape.inorder, List.forall_mem_append, List.forall_mem_cons] at same
      obtain ⟨sameLeft, sameHere, sameRight⟩ := same
      exact ⟨sameHere.trans holds.1, ihLeft sameLeft holds.2.1, ihRight sameRight holds.2.2⟩

theorem holds_path_congr (same : ∀ x ∈ entries path, nodes' x = nodes x) (holds : HoldsPath nodes path hole) : HoldsPath nodes' path hole := by
  induction path generalizing hole with
  | nil => exact trivial
  | cons frame path ih =>
      simp only [entries, List.forall_mem_append, List.cons_append, List.forall_mem_cons] at same
      obtain ⟨sameHere, sameSibling, sameAbove⟩ := same
      exact ⟨sameHere.trans holds.1, holds_congr sameSibling holds.2.1, ih sameAbove holds.2.2⟩

theorem plug_root (path : List (Frame N)) (tree : Shape N) : (plug path tree).root = top path tree.root := by
  induction path generalizing tree with
  | nil => rfl
  | cons frame path ih =>
      rw [plug, ih, Frame.fill, Shape.branch_root]
      rfl

theorem top_mem (path : List (Frame N)) (x : N) : ∃ y, top path (some x) = some y ∧ y ∈ x :: entries path := by
  induction path generalizing x with
  | nil => exact ⟨x, rfl, List.mem_singleton_self x⟩
  | cons frame path ih =>
      obtain ⟨y, same, member⟩ := ih frame.entry
      refine ⟨y, same, List.mem_cons_of_mem x ?_⟩
      rcases List.mem_cons.mp member with rfl | above
      · exact List.mem_cons_self
      · exact List.mem_cons_of_mem _ (List.mem_append_right _ above)

theorem holds_plug (path : List (Frame N)) (tree : Shape N) :
    Holds nodes none (plug path tree) ↔ HoldsPath nodes path tree.root ∧ Holds nodes (RedBlack.parent path) tree := by
  induction path generalizing tree with
  | nil => simp [plug, HoldsPath, RedBlack.parent]
  | cons frame path ih =>
      rw [plug, ih, Frame.fill, Shape.branch_root, holds_branch]
      simp only [HoldsPath, RedBlack.parent]
      constructor
      · rintro ⟨above, here, holds, sibling⟩
        exact ⟨⟨here, sibling, above⟩, holds⟩
      · rintro ⟨⟨here, sibling, above⟩, holds⟩
        exact ⟨above, here, holds, sibling⟩

theorem branch_perm (d : Direction) (red : Bool) (x : N) (near far : Shape N) :
    (branch d red x near far).inorder.Perm (x :: near.inorder ++ far.inorder) := by
  cases d
  · exact List.perm_middle
  · exact List.perm_middle.trans ((List.perm_append_comm).cons x)

theorem plug_perm (path : List (Frame N)) (tree : Shape N) : (plug path tree).inorder.Perm (tree.inorder ++ entries path) := by
  induction path generalizing tree with
  | nil => simp [plug, entries]
  | cons frame path ih =>
      refine (ih (frame.fill tree)).trans ?_
      refine ((branch_perm ..).append_right _).trans ?_
      rw [entries, List.cons_append, List.cons_append, List.cons_append, List.append_assoc]
      exact List.perm_middle.symm

end Shape

-- What an rb_tree_t is: the nodes hang together as a tree.
structure Shows {N : Type} (tree : RbTree N) (shape : Shape N) : Prop where
  root : tree.root = shape.root
  holds : Holds tree.nodes none shape
  distinct : shape.inorder.Nodup

section Places

variable {N : Type} {tree : RbTree N} {path : List (Frame N)} {shape : Shape N}

-- The pieces that a place divides the tree into.
structure Placed (tree : RbTree N) (path : List (Frame N)) (shape : Shape N) : Prop where
  root : tree.root = top path shape.root
  above : HoldsPath tree.nodes path shape.root
  below : Holds tree.nodes (RedBlack.parent path) shape
  distinct : (shape.inorder ++ entries path).Nodup

theorem shows_plug : Shows tree (plug path shape) ↔ Placed tree path shape := by
  constructor
  · intro shows
    obtain ⟨above, below⟩ := (holds_plug path shape).mp shows.holds
    exact ⟨shows.root.trans (plug_root path shape), above, below, (plug_perm path shape).nodup_iff.mp shows.distinct⟩
  · intro placed
    exact ⟨placed.root.trans (plug_root path shape).symm, (holds_plug path shape).mpr ⟨placed.above, placed.below⟩,
      (plug_perm path shape).nodup_iff.mpr placed.distinct⟩

theorem shows_cell {d : Direction} {red : Bool} {x : N} {near far : Shape N} (shows : Shows tree (plug path (branch d red x near far))) :
    tree.nodes x = cell d red (RedBlack.parent path) near.root far.root :=
  ((holds_branch ..).mp (shows_plug.mp shows).below).1

theorem shows_frame {frame : Frame N} (shows : Shows tree (plug (frame :: path) shape)) :
    tree.nodes frame.entry = cell frame.direction frame.red (RedBlack.parent path) shape.root frame.sibling.root :=
  (shows_plug.mp shows).above.1

end Places

section Writes

variable {N : Type} [DecidableEq N] {tree : RbTree N} {path : List (Frame N)} {shape : Shape N}

@[simp] theorem write_same (x : N) (node : RbNode N) : (tree.write x node).nodes x = node := Function.update_self ..

@[simp] theorem write_other {x y : N} (ne : y ≠ x) (node : RbNode N) : (tree.write x node).nodes y = tree.nodes y :=
  Function.update_of_ne ne ..

@[simp] theorem write_root (x : N) (node : RbNode N) : (tree.write x node).root = tree.root := rfl

@[simp] theorem write_count (x : N) (node : RbNode N) : (tree.write x node).count = tree.count := rfl

@[simp] theorem adopt_root (child parent : Option N) : (tree.adopt child parent).root = tree.root := by
  cases child <;> rfl

@[simp] theorem adopt_count (child parent : Option N) : (tree.adopt child parent).count = tree.count := by
  cases child <;> rfl

theorem adopt_other {parent : Option N} {y : N} (outside : y ∉ shape.inorder) : (tree.adopt shape.root parent).nodes y = tree.nodes y := by
  cases top : shape.root with
  | none => rfl
  | some x =>
      exact write_other (ne_of_mem_of_not_mem (Shape.root_mem top) outside).symm _

theorem holds_adopt {parent parent' : Option N} (holds : Holds tree.nodes parent shape) (distinct : shape.inorder.Nodup) :
    Holds (tree.adopt shape.root parent').nodes parent' shape := by
  cases shape with
  | leaf => exact trivial
  | node red left x right =>
      obtain ⟨here, inLeft, inRight⟩ := holds
      rw [Shape.inorder, List.nodup_middle, List.nodup_cons, List.mem_append, not_or] at distinct
      obtain ⟨⟨outsideLeft, outsideRight⟩, _⟩ := distinct
      refine ⟨?_, holds_congr (fun y member => ?_) inLeft, holds_congr (fun y member => ?_) inRight⟩
      · rw [Shape.root, RbTree.adopt, RbTree.setParent, write_same, here]
      · exact write_other (ne_of_mem_of_not_mem member outsideLeft) _
      · exact write_other (ne_of_mem_of_not_mem member outsideRight) _

-- The pointer to a place of the tree set to another node.
def relinked (tree : RbTree N) (path : List (Frame N)) (hole : Option N) : RbTree N :=
  match path with
  | [] => { tree with root := hole }
  | frame :: _ => tree.setChild frame.entry frame.direction hole

@[simp] theorem relinked_count (hole : Option N) : (relinked tree path hole).count = tree.count := by
  cases path <;> rfl

theorem relinked_other {hole : Option N} {y : N} (outside : y ∉ entries path) : (relinked tree path hole).nodes y = tree.nodes y := by
  cases path with
  | nil => rfl
  | cons frame path => exact write_other (ne_of_mem_of_not_mem List.mem_cons_self outside).symm _

theorem relinked_root {hole hole' : Option N} (root : tree.root = top path hole) : (relinked tree path hole').root = top path hole' := by
  cases path with
  | nil => rfl
  | cons frame path => exact root

theorem holds_relinked {hole hole' : Option N} (holds : HoldsPath tree.nodes path hole) (distinct : (entries path).Nodup) :
    HoldsPath (relinked tree path hole').nodes path hole' := by
  cases path with
  | nil => exact trivial
  | cons frame path =>
      obtain ⟨here, sibling, above⟩ := holds
      rw [entries, List.cons_append, List.nodup_cons, List.mem_append, not_or] at distinct
      obtain ⟨⟨outsideSibling, outsideAbove⟩, _⟩ := distinct
      refine ⟨?_, holds_congr (fun y member => ?_) sibling, holds_path_congr (fun y member => ?_) above⟩
      · rw [relinked, RbTree.setChild, write_same, here, cell_set_near]
      · exact write_other (ne_of_mem_of_not_mem member outsideSibling) _
      · exact write_other (ne_of_mem_of_not_mem member outsideAbove) _

-- Which child a node is, by the one comparison that the code makes.
theorem right_iff {nodes : N → RbNode N} {frame : Frame N} {x : N} (holds : HoldsPath nodes (frame :: path) (some x))
    (outside : x ∉ frame.sibling.inorder) : (if (nodes frame.entry).right = some x then Direction.right else .left) = frame.direction := by
  rw [holds.1]
  cases frame.direction with
  | left => exact if_neg fun same => outside (Shape.root_mem same)
  | right => exact if_pos rfl

theorem transplant_eq {u : N} {v : Option N} (root : tree.root = top path (some u)) (above : HoldsPath tree.nodes path (some u))
    (linked : (tree.nodes u).parent = RedBlack.parent path) (outside : u ∉ entries path) :
    transplant tree u v = .ok ((relinked tree path v).adopt v (RedBlack.parent path)) := by
  cases path with
  | nil =>
      rw [transplant, linked]
      simp only [RedBlack.parent, root, top, relinked, assertThat, decide_true, if_true, bind_ok]
      rw [linked, RedBlack.parent]
  | cons frame path =>
      have kept : ((relinked tree (frame :: path) v).nodes u).parent = some frame.entry := by rw [relinked_other outside, linked, RedBlack.parent]
      have inSibling : u ∉ frame.sibling.inorder := fun member => outside (List.mem_cons_of_mem _ (List.mem_append_left _ member))
      rw [transplant, linked]
      simp only [RedBlack.parent, RbTree.getDirection, linked, deref, bind_ok, right_iff above inSibling]
      rw [relinked] at kept ⊢
      rw [kept]

theorem shows_paint {d : Direction} {red red' : Bool} {x : N} {near far : Shape N}
    (shows : Shows tree (plug path (branch d red x near far))) :
    Shows (tree.setRed x red') (plug path (branch d red' x near far)) := by
  obtain ⟨root, above, below, distinct⟩ := shows_plug.mp shows
  obtain ⟨here, inNear, inFar⟩ := (holds_branch ..).mp below
  have order := (branch_perm d red x near far).append_right (entries path)
  have parts := order.nodup_iff.mp distinct
  rw [List.cons_append, List.cons_append, List.nodup_cons, List.mem_append, List.mem_append, not_or, not_or] at parts
  obtain ⟨⟨⟨outsideNear, outsideFar⟩, outsidePath⟩, _⟩ := parts
  have kept : ∀ {l : List N}, x ∉ l → ∀ y ∈ l, (tree.setRed x red').nodes y = tree.nodes y :=
    fun outside y member => write_other (ne_of_mem_of_not_mem member outside) _
  refine shows_plug.mpr ⟨?_, ?_, (holds_branch ..).mpr ⟨?_, holds_congr (kept outsideNear) inNear, holds_congr (kept outsideFar) inFar⟩, ?_⟩
  · rw [Shape.branch_root] at root ⊢
    exact root
  · rw [Shape.branch_root] at above ⊢
    exact holds_path_congr (kept outsidePath) above
  · rw [RbTree.setRed, write_same, here, cell_set_red]
  · exact ((branch_perm d red' x near far).append_right _).nodup_iff.mpr (order.nodup_iff.mp distinct)

end Writes

section Rotation

variable {N : Type} [DecidableEq N] {tree : RbTree N} {path : List (Frame N)} {d : Direction} {red red' : Bool} {x y : N}
  {near middle far : Shape N}

-- A rotation up to the pointer to the new root.
def turned (tree : RbTree N) (x y : N) (d : Direction) (middle parent : Option N) : RbTree N :=
  ((((tree.setChild x d.opposite middle).adopt middle (some x)).setChild y d (some x)).setParent x (some y)).setParent y parent

theorem turned_other {parent : Option N} {z : N} (neX : z ≠ x) (neY : z ≠ y) (outside : z ∉ middle.inorder) :
    (turned tree x y d middle.root parent).nodes z = tree.nodes z := by
  rw [turned, RbTree.setParent, write_other neY, RbTree.setParent, write_other neX, RbTree.setChild, write_other neY, adopt_other outside,
    RbTree.setChild, write_other neX]

theorem turned_x {parent nearRoot : Option N} (here : tree.nodes x = cell d red parent nearRoot (some y)) (ne : x ≠ y)
    (outside : x ∉ middle.inorder) : (turned tree x y d middle.root parent).nodes x = cell d red (some y) nearRoot middle.root := by
  rw [turned, RbTree.setParent, write_other ne, RbTree.setParent, write_same, RbTree.setChild, write_other ne, adopt_other outside,
    RbTree.setChild, write_same, here, cell_set_far, cell_set_parent]

theorem turned_y {parent farRoot : Option N} (here : tree.nodes y = cell d red (some x) middle.root farRoot) (ne : x ≠ y)
    (outside : y ∉ middle.inorder) : (turned tree x y d middle.root parent).nodes y = cell d red parent (some x) farRoot := by
  rw [turned, RbTree.setParent, write_same, RbTree.setParent, write_other ne.symm, RbTree.setChild, write_same, adopt_other outside,
    RbTree.setChild, write_other ne.symm, here, cell_set_near, cell_set_parent]

theorem holds_turned {parent : Option N} (holds : Holds tree.nodes (some y) middle) (distinct : middle.inorder.Nodup)
    (outsideX : x ∉ middle.inorder) (outsideY : y ∉ middle.inorder) :
    Holds (turned tree x y d middle.root parent).nodes (some x) middle := by
  have before : Holds (tree.setChild x d.opposite middle.root).nodes (some y) middle :=
    holds_congr (fun z member => write_other (ne_of_mem_of_not_mem member outsideX) _) holds
  have adopted : Holds ((tree.setChild x d.opposite middle.root).adopt middle.root (some x)).nodes (some x) middle := holds_adopt before distinct
  refine holds_congr (fun z member => ?_) adopted
  have neX : z ≠ x := ne_of_mem_of_not_mem member outsideX
  have neY : z ≠ y := ne_of_mem_of_not_mem member outsideY
  rw [turned, RbTree.setParent, write_other neY, RbTree.setParent, write_other neX, RbTree.setChild, write_other neY]

@[simp] theorem turned_root (middleRoot parent : Option N) : (turned tree x y d middleRoot parent).root = tree.root := by
  simp [turned, RbTree.setParent, RbTree.setChild]

@[simp] theorem turned_count (middleRoot parent : Option N) : (turned tree x y d middleRoot parent).count = tree.count := by
  simp [turned, RbTree.setParent, RbTree.setChild]

-- What the nodes around a rotation have to do with each other.
structure Turning (path : List (Frame N)) (x y : N) (near middle far : Shape N) : Prop where
  ne : x ≠ y
  xOut : x ∉ middle.inorder ∧ x ∉ entries path
  yOut : y ∉ middle.inorder ∧ y ∉ entries path
  kept : ∀ z ∈ near.inorder ++ far.inorder ++ entries path, z ≠ x ∧ z ≠ y ∧ z ∉ middle.inorder
  below : ∀ z ∈ near.inorder ++ far.inorder ++ middle.inorder, z ∉ entries path
  middle : middle.inorder.Nodup
  path : (entries path).Nodup

omit [DecidableEq N] in
theorem turning_perm (d : Direction) (red red' : Bool) (x y : N) (near middle far : Shape N) :
    (branch d red x near (branch d red' y middle far)).inorder.Perm (x :: y :: (near.inorder ++ far.inorder ++ middle.inorder)) := by
  refine (branch_perm ..).trans (((branch_perm ..).append_left _).cons x |>.trans ?_)
  rw [List.cons_append, List.append_assoc]
  exact (List.perm_middle.trans ((List.perm_append_comm.append_left _).cons y)).cons x

omit [DecidableEq N] in
theorem turning_of_nodup (distinct : ((branch d red x near (branch d red' y middle far)).inorder ++ entries path).Nodup) :
    Turning path x y near middle far := by
  have parts := ((turning_perm d red red' x y near middle far).append_right (entries path)).nodup_iff.mp distinct
  rw [List.cons_append, List.cons_append, List.nodup_cons, List.nodup_cons, List.mem_cons, not_or] at parts
  obtain ⟨⟨ne, outsideX⟩, outsideY, apart⟩ := parts
  rw [List.mem_append, List.mem_append, not_or, not_or] at outsideX outsideY
  obtain ⟨⟨besideX, middleX⟩, pathX⟩ := outsideX
  obtain ⟨⟨besideY, middleY⟩, pathY⟩ := outsideY
  obtain ⟨belowDistinct, pathDistinct, disjoint⟩ := List.nodup_append'.mp apart
  obtain ⟨_, middleDistinct, middleDisjoint⟩ := List.nodup_append'.mp belowDistinct
  refine ⟨ne, ⟨middleX, pathX⟩, ⟨middleY, pathY⟩, fun z member => ?_, fun z member => disjoint member, middleDistinct, pathDistinct⟩
  rcases List.mem_append.mp member with beside | above
  · exact ⟨ne_of_mem_of_not_mem beside besideX, ne_of_mem_of_not_mem beside besideY, middleDisjoint beside⟩
  · exact ⟨ne_of_mem_of_not_mem above pathX, ne_of_mem_of_not_mem above pathY, fun inMiddle => disjoint (List.mem_append_right _ inMiddle) above⟩

theorem rotate_eq (above : HoldsPath tree.nodes path (some x)) (here : tree.nodes x = cell d red (RedBlack.parent path) near.root (some y))
    (child : tree.nodes y = cell d red' (some x) middle.root far.root) (turning : Turning path x y near middle far) :
    rotate tree x d = .ok (y, relinked (turned tree x y d middle.root (RedBlack.parent path)) path (some y)) := by
  have newChild : ((tree.setChild x d.opposite middle.root).nodes x).child d.opposite = middle.root := by
    rw [RbTree.setChild, write_same, here, cell_set_far, cell_far]
  rw [rotate, here, cell_far, cell_parent, deref, bind_ok, child, cell_near]
  simp only [newChild]
  cases path with
  | nil => rfl
  | cons frame path =>
      obtain ⟨neX, neY, outside⟩ := turning.kept frame.entry (List.mem_append_right _ List.mem_cons_self)
      have kept : (turned tree x y d middle.root (some frame.entry)).nodes frame.entry = tree.nodes frame.entry := turned_other neX neY outside
      have inSibling : x ∉ frame.sibling.inorder := fun member => turning.xOut.2 (List.mem_cons_of_mem _ (List.mem_append_left _ member))
      simp only [RedBlack.parent, relinked]
      rw [← right_iff above inSibling, ← kept]
      rfl

theorem rotate_spec (shows : Shows tree (plug path (branch d red x near (branch d red' y middle far)))) :
    ∃ tree', rotate tree x d = .ok (y, tree') ∧ Shows tree' (plug path (branch d red' y (branch d red x near middle) far)) ∧
      tree'.count = tree.count := by
  obtain ⟨root, above, below, distinct⟩ := shows_plug.mp shows
  have turning := turning_of_nodup distinct
  obtain ⟨here, inNear, inChild⟩ := (holds_branch ..).mp below
  obtain ⟨child, inMiddle, inFar⟩ := (holds_branch ..).mp inChild
  rw [Shape.branch_root] at root above here
  refine ⟨_, rotate_eq above here child turning, shows_plug.mpr ⟨?_, ?_, ?_, ?_⟩, by simp⟩
  · rw [Shape.branch_root]
    exact relinked_root ((turned_root _ _).trans root)
  · rw [Shape.branch_root]
    refine holds_relinked (holds_path_congr (fun z member => ?_) above) turning.path
    obtain ⟨neX, neY, outside⟩ := turning.kept z (List.mem_append_right _ member)
    exact turned_other neX neY outside
  · have same : ∀ z ∈ near.inorder ++ far.inorder,
        (relinked (turned tree x y d middle.root (RedBlack.parent path)) path (some y)).nodes z = tree.nodes z := by
      intro z member
      obtain ⟨neX, neY, outside⟩ := turning.kept z (List.mem_append_left _ member)
      rw [relinked_other (turning.below z (List.mem_append_left _ member)), turned_other neX neY outside]
    refine (holds_branch ..).mpr ⟨?_, (holds_branch ..).mpr ⟨?_, ?_, ?_⟩, ?_⟩
    · rw [relinked_other turning.yOut.2, turned_y child turning.ne turning.yOut.1, Shape.branch_root]
    · rw [relinked_other turning.xOut.2, turned_x here turning.ne turning.xOut.1]
    · exact holds_congr (fun z member => same z (List.mem_append_left _ member)) inNear
    · have moved : Holds (turned tree x y d middle.root (RedBlack.parent path)).nodes (some x) middle :=
        holds_turned inMiddle turning.middle turning.xOut.1 turning.yOut.1
      refine holds_congr (fun z member => ?_) moved
      exact relinked_other (turning.below z (List.mem_append_right _ member))
    · exact holds_congr (fun z member => same z (List.mem_append_right _ member)) inFar
  · refine List.Perm.nodup (List.Perm.append_right _ ?_) distinct
    cases d <;> simp [branch, Shape.inorder]

end Rotation

section Colours

variable {N : Type} [DecidableEq N] {tree : RbTree N} {path : List (Frame N)} {shape : Shape N}

omit [DecidableEq N] in
theorem holds_is_red {parent : Option N} (holds : Holds tree.nodes parent shape) : tree.isRed shape.root = shape.isRed := by
  cases shape with
  | leaf => rfl
  | node red left x right => rw [Shape.root, RbTree.isRed, holds.1, Shape.isRed]

omit [DecidableEq N] in
theorem shows_is_red (shows : Shows tree (plug path shape)) : tree.isRed shape.root = shape.isRed := holds_is_red (shows_plug.mp shows).below

omit [DecidableEq N] in
theorem shows_frame_red {frame : Frame N} (shows : Shows tree (plug (frame :: path) shape)) : tree.isRed (some frame.entry) = frame.red := by
  rw [RbTree.isRed, shows_frame shows, cell_red]

theorem shows_blacken (shows : Shows tree (plug path shape)) : Shows (tree.blacken shape.root) (plug path shape.blackened) := by
  cases shape with
  | leaf => exact shows
  | node red left x right =>
      have branched : Shows tree (plug path (branch .left red x left right)) := shows
      exact shows_paint branched

@[simp] theorem set_red_count (x : N) (red : Bool) : (tree.setRed x red).count = tree.count := rfl

theorem blacken_some (x : N) : tree.blacken (some x) = tree.setRed x false := rfl

@[simp] theorem blacken_count (pointer : Option N) : (tree.blacken pointer).count = tree.count := by
  cases pointer <;> rfl

-- A node of another place of the tree is not linked here.
omit [DecidableEq N] in
theorem root_ne_sibling {frame : Frame N} {x : N} (shows : Shows tree (plug (frame :: path) shape)) (root : shape.root = some x) :
    x ∉ frame.sibling.inorder := by
  have distinct := (shows_plug.mp shows).distinct
  rw [entries, List.cons_append] at distinct
  intro member
  exact List.disjoint_of_nodup_append distinct (Shape.root_mem root) (List.mem_cons_of_mem _ (List.mem_append_left _ member))

theorem direction_at {frame : Frame N} {x : N} (shows : Shows tree (plug (frame :: path) shape)) (root : shape.root = some x)
    (linked : (tree.nodes x).parent = some frame.entry) : tree.getDirection x = .ok frame.direction := by
  have above := (shows_plug.mp shows).above
  rw [root] at above
  rw [RbTree.getDirection, linked, deref, bind_ok, right_iff above (root_ne_sibling shows root)]

end Colours

end Elysium.RbLinks
