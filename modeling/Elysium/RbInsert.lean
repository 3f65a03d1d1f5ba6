import Elysium.RbShows

set_option autoImplicit false

namespace Elysium.RbLinks

open RedBlack (Direction Shape Frame plug place before after Raised)
open RedBlack.Shape (branch)

variable {N : Type} [DecidableEq N] {tree : RbTree N} {path : List (Frame N)} {shape : Shape N}

section Rebalance

-- The second rotation of rebalance_insert with the colours after it.
theorem rotated_up {d : Direction} {red : Bool} {g p : N} {near middle uncle : Shape N}
    (shows : Shows tree (plug path (branch d false g (branch d red p near middle) uncle))) :
    ∃ tree', rotate tree g d.opposite = .ok (p, tree') ∧
      Shows ((tree'.setRed p false).setRed g true) (plug path (branch d false p near (branch d true g middle uncle))) ∧ tree'.count = tree.count := by
  rw [← Shape.branch_opposite d false g, ← Shape.branch_opposite d red p] at shows
  obtain ⟨tree', rotated, shows', count⟩ := rotate_spec shows
  have painted : Shows (tree'.setRed p false) (plug path (branch d.opposite false p (branch d.opposite false g uncle middle) near)) :=
    shows_paint shows'
  have last : Shows ((tree'.setRed p false).setRed g true)
      (plug (⟨d.opposite, false, p, near⟩ :: path) (branch d.opposite true g uncle middle)) := shows_paint painted
  rw [plug, Frame.fill, Shape.branch_opposite, Shape.branch_opposite] at last
  exact ⟨tree', rotated, last, count⟩

section Round

variable {turn d : Direction} {x g node : N} {red : Bool} {sibling uncle : Shape N}

-- What a round of rebalance_insert reads under a red parent.
structure Round (tree : RbTree N) (turn d : Direction) (x g : N) (shape sibling uncle : Shape N) : Prop where
  parentRed : tree.isRed (some x) = true
  grandparent : (tree.nodes x).parent = some g
  direction : tree.getDirection x = .ok d
  uncleLink : (tree.nodes g).child d.opposite = uncle.root
  uncleRed : tree.isRed uncle.root = uncle.isRed
  beside : (tree.nodes x).child turn.opposite = sibling.root
  outside : ∀ y, shape.root = some y → sibling.root ≠ some y

theorem round_reads (shows : Shows tree (plug (⟨turn, true, x, sibling⟩ :: ⟨d, red, g, uncle⟩ :: path) shape)) :
    Round tree turn d x g shape sibling uncle := by
  have here := shows_frame shows
  have higher : Shows tree (plug (⟨d, red, g, uncle⟩ :: path) (branch turn true x shape sibling)) := shows
  have above := shows_frame higher
  have linked : (tree.nodes x).parent = some g := by
    rw [here, cell_parent]
    rfl
  refine ⟨?_, linked, direction_at higher (Shape.branch_root ..) linked, ?_, ?_, ?_, fun y root same => ?_⟩
  · rw [RbTree.isRed, here, cell_red]
  · rw [above, cell_far]
  · exact holds_is_red (shows_plug.mp higher).above.2.1
  · rw [here, cell_far]
  · exact root_ne_sibling shows root (Shape.root_mem same)

theorem rebalance_outer (shows : Shows tree (plug (⟨d, true, x, sibling⟩ :: ⟨d, false, g, uncle⟩ :: path) shape)) (root : shape.root = some node)
    (black : uncle.isRed = false) (fuel : Nat) :
    ∃ tree', rebalanceLoop (fuel + 1) tree node x = .ok tree' ∧
      Shows tree' (plug path (branch d false x shape (branch d true g sibling uncle))) ∧ tree'.count = tree.count := by
  have reads := round_reads shows
  have higher : Shows tree (plug path (branch d false g (branch d true x shape sibling) uncle)) := shows
  obtain ⟨tree', rotated, shows', count⟩ := rotated_up higher
  refine ⟨_, ?_, shows', count⟩
  rw [rebalanceLoop, reads.parentRed, reads.grandparent]
  simp only [reads.direction, bind_ok, reads.uncleLink, reads.uncleRed, black, reads.beside, if_neg (reads.outside node root), rotated, Bool.not_true,
    Bool.not_false, Bool.false_eq_true, if_false, if_true]

theorem rebalance_inner {y : N} {near far : Shape N}
    (shows : Shows tree (plug (⟨d.opposite, true, x, sibling⟩ :: ⟨d, false, g, uncle⟩ :: path) (branch d red y near far)))
    (black : uncle.isRed = false) (fuel : Nat) :
    ∃ tree', rebalanceLoop (fuel + 1) tree y x = .ok tree' ∧
      Shows tree' (plug path (branch d false y (branch d true x sibling near) (branch d true g far uncle))) ∧ tree'.count = tree.count := by
  have reads := round_reads shows
  have first : Shows tree (plug (⟨d, false, g, uncle⟩ :: path) (branch d true x sibling (branch d red y near far))) := by
    rw [plug, Frame.fill, Shape.branch_opposite] at shows
    exact shows
  obtain ⟨tree₁, rotated₁, shows₁, count₁⟩ := rotate_spec first
  have child : (tree₁.nodes g).child d = some y := by
    rw [shows_frame shows₁, cell_near, Shape.branch_root]
  have higher : Shows tree₁ (plug path (branch d false g (branch d red y (branch d true x sibling near) far) uncle)) := shows₁
  obtain ⟨tree', rotated, shows', count⟩ := rotated_up higher
  have beside : (tree.nodes x).child d.opposite = some y := by
    rw [shows_frame shows, cell_near, Shape.branch_root]
  refine ⟨_, ?_, shows', count.trans count₁⟩
  rw [rebalanceLoop, reads.parentRed, reads.grandparent]
  simp only [reads.direction, bind_ok, reads.uncleLink, reads.uncleRed, black, beside, rotated₁, child, deref, rotated, Bool.not_true,
    Bool.not_false, Bool.false_eq_true, if_false, if_true]

theorem recoloured (shows : Shows tree (plug (⟨turn, true, x, sibling⟩ :: ⟨d, red, g, uncle⟩ :: path) shape)) :
    Shows (((tree.setRed x false).blacken uncle.root).setRed g true)
      (plug path (branch d true g (branch turn false x shape sibling) uncle.blackened)) := by
  have atParent : Shows tree (plug (⟨d, red, g, uncle⟩ :: path) (branch turn true x shape sibling)) := shows
  have painted : Shows (tree.setRed x false) (plug (⟨d, red, g, uncle⟩ :: path) (branch turn false x shape sibling)) := shows_paint atParent
  have atUncle : Shows (tree.setRed x false) (plug (⟨d.opposite, red, g, branch turn false x shape sibling⟩ :: path) uncle) := by
    rw [plug, Frame.fill, Shape.branch_opposite]
    exact painted
  have blackened := shows_blacken atUncle
  rw [plug, Frame.fill, Shape.branch_opposite] at blackened
  exact shows_paint blackened

end Round

-- The rounds of rebalance_insert, by the rules of the repair.
theorem raised_shows {k : Nat} {whole : Shape N} (raised : Raised k path shape whole) {tree : RbTree N} (shows : Shows tree (plug path shape))
    {node : N} (root : shape.root = some node) {frame : Frame N} (first : path.head? = some frame) {fuel : Nat} (enough : k < fuel) :
    ∃ tree', rebalanceLoop fuel tree node frame.entry = .ok tree' ∧ Shows tree' whole ∧ tree'.count = tree.count := by
  induction raised generalizing tree node frame fuel with
  | root shape => cases first
  | calm frame' path shape black =>
      obtain rfl := Option.some.inj first
      obtain ⟨fuel, rfl⟩ := Nat.exists_eq_add_one_of_ne_zero (Nat.ne_of_gt enough)
      refine ⟨tree, ?_, shows, rfl⟩
      rw [rebalanceLoop, shows_frame_red shows, black]
      rfl
  | recolour k turn d x g sibling uncle path shape whole isRed later ih =>
      obtain rfl := Option.some.inj first
      obtain ⟨fuel, rfl⟩ := Nat.exists_eq_add_one_of_ne_zero (Nat.ne_of_gt (Nat.lt_of_le_of_lt (Nat.zero_le _) enough))
      have reads := round_reads shows
      have shows' := recoloured shows
      have above := shows_cell shows'
      rw [rebalanceLoop, reads.parentRed, reads.grandparent]
      simp only [reads.direction, bind_ok, reads.uncleLink, reads.uncleRed, isRed, Bool.not_true, Bool.false_eq_true, if_false, above, cell_parent]
      cases path with
      | nil =>
          cases later with
          | root =>
              have top := shows'.root
              rw [plug, Shape.branch_root] at top
              simp only [RedBlack.parent, top, deref, bind_ok, Shape.branch_blackened]
              exact ⟨_, rfl, shows_paint shows', by simp⟩
      | cons frame path =>
          obtain ⟨tree', run, shows'', count⟩ := ih shows' (Shape.branch_root ..) rfl (Nat.lt_of_succ_lt_succ enough)
          exact ⟨tree', run, shows'', count.trans (by simp)⟩
  | outer d x g sibling uncle path shape black =>
      obtain rfl := Option.some.inj first
      obtain ⟨fuel, rfl⟩ := Nat.exists_eq_add_one_of_ne_zero (Nat.ne_of_gt enough)
      exact rebalance_outer shows root black fuel
  | inner d x y g red sibling near far uncle path black =>
      obtain rfl := Option.some.inj first
      obtain ⟨fuel, rfl⟩ := Nat.exists_eq_add_one_of_ne_zero (Nat.ne_of_gt enough)
      rw [Shape.branch_root] at root
      obtain rfl := Option.some.inj root
      exact rebalance_inner shows black fuel

end Rebalance

section Insert

variable {value : N → Nat} {node : N}

theorem shows_write {c : RbNode N} (shows : Shows tree shape) (outside : node ∉ shape.inorder) : Shows (tree.write node c) shape :=
  ⟨shows.root, holds_congr (fun _ member => write_other (ne_of_mem_of_not_mem member outside) _) shows.holds, shows.distinct⟩

-- The way that the loop of rb_insert takes.
def way (value : N → Nat) (node : N) (shape : Shape N) (path : List (Frame N)) : List (Frame N) :=
  place (fun x => decide (value node < value x)) shape path

theorem insert_loop_spec (value : N → Nat) (shape : Shape N) {tree : RbTree N} {path : List (Frame N)} (shows : Shows tree (plug path shape))
    (outside : node ∉ (plug path shape).inorder) (fresh : tree.nodes node = ⟨true, RedBlack.parent path, none, none⟩) {fuel : Nat}
    (enough : shape.inorder.length < fuel) :
    ∃ tree', insertLoop value node fuel tree shape.root (path.head?.map Frame.direction) =
        .ok (tree', (way value node shape path).head?.map Frame.direction) ∧
      Shows tree' (plug path shape) ∧ tree'.nodes node = ⟨true, RedBlack.parent (way value node shape path), none, none⟩ ∧
      tree'.count = tree.count := by
  induction shape generalizing tree path fuel with
  | leaf =>
      obtain ⟨fuel, rfl⟩ := Nat.exists_eq_add_one_of_ne_zero (Nat.ne_of_gt enough)
      exact ⟨tree, rfl, shows, fresh, rfl⟩
  | node red left x right ihLeft ihRight =>
      obtain ⟨fuel, rfl⟩ := Nat.exists_eq_add_one_of_ne_zero (Nat.ne_of_gt (Nat.lt_of_le_of_lt (Nat.zero_le _) enough))
      rw [Shape.inorder, List.length_append, List.length_cons] at enough
      have here : tree.nodes x = ⟨red, RedBlack.parent path, left.root, right.root⟩ := (shows_plug.mp shows).below.1
      have inside : x ∈ (plug path (.node red left x right)).inorder :=
        (plug_perm _ _).mem_iff.mpr (List.mem_append_left _ (List.mem_append_right _ List.mem_cons_self))
      have moved : Shows (tree.setParent node (some x)) (plug path (.node red left x right)) := shows_write shows outside
      have fresh' : (tree.setParent node (some x)).nodes node = ⟨true, some x, none, none⟩ := by
        rw [RbTree.setParent, write_same, fresh]
      have kept : (tree.setParent node (some x)).nodes x = tree.nodes x := write_other (ne_of_mem_of_not_mem inside outside) _
      rw [Shape.root, insertLoop, way, place]
      simp only [kept, here]
      by_cases less : value node < value x
      · have next : Shows (tree.setParent node (some x)) (plug (⟨.left, red, x, right⟩ :: path) left) := moved
        simp only [less, if_true, decide_true]
        exact ihLeft next outside fresh' (by omega)
      · have next : Shows (tree.setParent node (some x)) (plug (⟨.right, red, x, left⟩ :: path) right) := moved
        simp only [less, if_false, decide_false, Bool.false_eq_true]
        exact ihRight next outside fresh' (by omega)

-- A new red leaf at the end of the way.
theorem shows_attached {frame : Frame N} (shows : Shows tree (plug (frame :: path) .leaf)) (outside : node ∉ entries (frame :: path))
    (fresh : tree.nodes node = ⟨true, some frame.entry, none, none⟩) :
    Shows (tree.setChild frame.entry frame.direction (some node)) (plug (frame :: path) (.node true .leaf node .leaf)) := by
  obtain ⟨root, above, _, distinct⟩ := shows_plug.mp shows
  refine shows_plug.mpr ⟨root, holds_relinked above distinct, ⟨?_, trivial, trivial⟩, List.nodup_cons.mpr ⟨outside, distinct⟩⟩
  exact (relinked_other outside).trans fresh

omit [DecidableEq N] in
theorem way_plug (value : N → Nat) (node : N) (shape : Shape N) : plug (way value node shape []) .leaf = shape := RedBlack.plug_place ..

omit [DecidableEq N] in
theorem leaf_inorder (path : List (Frame N)) (red : Bool) (node : N) :
    (plug path (.node red .leaf node .leaf)).inorder = before path ++ node :: after path := by
  rw [RedBlack.plug_inorder]
  simp [Shape.inorder]

theorem insert_link_spec {fuel : Nat} (shows : Shows tree (plug path .leaf)) (balanced : (plug path .leaf).Balanced)
    (fresh : tree.nodes node = ⟨true, RedBlack.parent path, none, none⟩) (outside : node ∉ entries path) (enough : path.length < fuel) :
    ∃ tree' whole, insertLink fuel tree node (path.head?.map Frame.direction) = .ok tree' ∧ Shows tree' whole ∧ whole.Balanced ∧
      whole.inorder = before path ++ node :: after path ∧ tree'.count = tree.count := by
  have calm : (Shape.node true .leaf node .leaf).Calm := ⟨fun _ => ⟨rfl, rfl⟩, trivial, trivial⟩
  have level : (Shape.node true .leaf node .leaf).Level 0 := ⟨0, rfl, rfl, rfl⟩
  obtain ⟨_, _, rfl, fits⟩ := (RedBlack.balanced_plug _ _).mp balanced
  cases path with
  | nil =>
      rw [insertLink, fresh]
      refine ⟨_, .node false .leaf node .leaf, rfl, ⟨rfl, ⟨?_, trivial, trivial⟩, List.nodup_singleton node⟩, ?_, rfl, rfl⟩
      · rw [RbTree.setRed, write_same, fresh]
        rfl
      · exact RedBlack.raised_balanced (.root (.node true .leaf node .leaf)) rfl calm level fits
  | cons frame path =>
      have attached := shows_attached shows outside fresh
      have above := shows_frame attached
      rw [insertLink, fresh]
      simp only [RedBlack.parent, List.head?_cons, Option.map_some, above, cell_parent]
      cases path with
      | nil =>
          have black : frame.red = false := fits.2.2.2
          exact ⟨_, _, rfl, attached, RedBlack.raised_balanced (.calm frame [] _ black) rfl calm level fits, leaf_inorder _ _ _, rfl⟩
      | cons grand path =>
          obtain ⟨k, whole, raised, fewer⟩ := RedBlack.raised_exists (frame :: grand :: path) (Shape.branch_is_red .left true node .leaf .leaf) fits
          obtain ⟨tree', run, shows', count⟩ := raised_shows raised attached rfl rfl (Nat.lt_of_le_of_lt fewer enough)
          have linked : ((tree.setChild frame.entry frame.direction (some node)).nodes node).parent = some frame.entry :=
            congrArg RbNode.parent (shows_plug.mp attached).below.1
          refine ⟨tree', whole, ?_, shows', RedBlack.raised_balanced raised rfl calm level fits,
            (RedBlack.raised_inorder raised).trans (leaf_inorder _ _ _), count⟩
          simp only [rebalanceInsert, linked]
          exact run

-- The tree after an insertion is red-black with the node at its place, as long as the rounds are enough for the way there and back.
theorem rb_insert_spec (value : N → Nat) {fuel : Nat} (shows : Shows tree shape) (balanced : shape.Balanced) (outside : node ∉ shape.inorder)
    (enough : shape.inorder.length < fuel) :
    ∃ tree' shape', rbInsert value fuel tree node = .ok tree' ∧ Shows tree' shape' ∧ shape'.Balanced ∧
      shape'.inorder = before (way value node shape []) ++ node :: after (way value node shape []) ∧ tree'.count = add64 tree.count 1 := by
  have cleared : Shows (({ tree with count := add64 tree.count 1 } : RbTree N).write node ⟨true, none, none, none⟩) (plug [] shape) :=
    shows_write ⟨shows.root, shows.holds, shows.distinct⟩ outside
  obtain ⟨tree₁, descended, shows₁, fresh, count₁⟩ := insert_loop_spec value shape cleared outside (write_same ..) enough
  have same := way_plug value node shape
  rw [plug, ← same] at shows₁
  rw [← same] at balanced
  have outsidePath : node ∉ entries (way value node shape []) := fun member =>
    outside (same ▸ (plug_perm _ _).mem_iff.mpr (List.mem_append_right _ member))
  have short := RedBlack.path_length_le (way value node shape []) .leaf
  rw [same] at short
  have enoughBack : (way value node shape []).length < fuel := by omega
  obtain ⟨tree', shape', linked, shows', balanced', order, count⟩ := insert_link_spec shows₁ balanced fresh outsidePath enoughBack
  refine ⟨tree', shape', ?_, shows', balanced', order, count.trans count₁⟩
  rw [← shows.root] at descended
  rw [rbInsert, bind_eq_ok]
  exact ⟨_, descended, linked⟩

end Insert

end Elysium.RbLinks
