import Elysium.RbUnlink

set_option autoImplicit false

namespace Elysium.RbLinks

open RedBlack (Direction Shape Frame plug before after Mended Short)
open RedBlack.Shape (branch)

variable {N : Type} [DecidableEq N] {tree : RbTree N} {path : List (Frame N)} {shape : Shape N}

section Repair

variable {d : Direction} {red red' : Bool} {x w : N} {near far : Shape N}

omit [DecidableEq N] in
theorem plug_sibling (path : List (Frame N)) (d : Direction) (red : Bool) (x : N) (near far : Shape N) :
    plug (⟨d.opposite, red, x, near⟩ :: path) far = plug path (branch d red x near far) := by
  rw [plug, Frame.fill, Shape.branch_opposite]

omit [DecidableEq N] in
theorem shows_sibling (shows : Shows tree (plug path (branch d red x shape (branch d red' w near far)))) :
    (tree.nodes x).child d.opposite = some w ∧ (tree.nodes w).child d = near.root ∧ (tree.nodes w).child d.opposite = far.root ∧
      tree.isRed (some w) = red' ∧ tree.isRed near.root = near.isRed ∧ tree.isRed far.root = far.isRed := by
  obtain ⟨here, _, inSibling⟩ := (holds_branch ..).mp (shows_plug.mp shows).below
  obtain ⟨sibling, inNear, inFar⟩ := (holds_branch ..).mp inSibling
  refine ⟨by rw [here, cell_far, Shape.branch_root], by rw [sibling, cell_near], by rw [sibling, cell_far], ?_, holds_is_red inNear, holds_is_red inFar⟩
  rw [RbTree.isRed, sibling, cell_red]

theorem remove_far_spec (shows : Shows tree (plug path (branch d red x shape (branch d red' w near far)))) (redFar : far.isRed = true) :
    ∃ tree', removeFar tree x w d = .ok (tree', tree'.root) ∧
      Shows tree' (plug path (branch d red w (branch d false x shape near) far.blackened)) ∧ tree'.count = tree.count := by
  have colour : tree.isRed (some x) = red := by
    rw [RbTree.isRed, shows_cell shows, cell_red]
  rw [← plug_sibling] at shows
  have first : Shows (tree.setRed w red) (plug (⟨d.opposite, red, x, shape⟩ :: path) (branch d red w near far)) := shows_paint shows
  rw [plug_sibling] at first
  have second : Shows ((tree.setRed w red).setRed x false) (plug path (branch d false x shape (branch d red w near far))) := shows_paint first
  have link := (shows_sibling second).2.2.1
  rw [← plug_sibling, ← plug_sibling] at second
  have third := shows_blacken second
  rw [plug_sibling, plug_sibling] at third
  obtain ⟨tree', rotated, shows', count⟩ := rotate_spec third
  refine ⟨tree', ?_, shows', count.trans (by simp)⟩
  rw [removeFar, colour]
  cases top : far.root with
  | none =>
      obtain rfl := Shape.root_none.mp top
      cases redFar
  | some f =>
      rw [top] at rotated link
      simp only [link, deref, bind_ok]
      rw [← blacken_some, rotated]
      rfl

theorem settle_lift (shows : Shows tree (plug path (branch d red x shape (branch d false w near far)))) (blackNear : near.isRed = false)
    (blackFar : far.isRed = false) :
    removeSettle tree x d = .ok (tree.setRed w true, some x) ∧
      Shows (tree.setRed w true) (plug path (branch d red x shape (branch d true w near far))) := by
  obtain ⟨sibling, nearLink, farLink, _, nearRed, farRed⟩ := shows_sibling shows
  constructor
  · rw [removeSettle, sibling, deref, bind_ok, nearLink, farLink, nearRed, farRed, blackNear, blackFar]
    rfl
  · rw [← plug_sibling] at shows
    have painted : Shows (tree.setRed w true) (plug (⟨d.opposite, red, x, shape⟩ :: path) (branch d true w near far)) := shows_paint shows
    rw [plug_sibling] at painted
    exact painted

theorem settle_far (shows : Shows tree (plug path (branch d red x shape (branch d false w near far)))) (redFar : far.isRed = true) :
    ∃ tree', removeSettle tree x d = .ok (tree', tree'.root) ∧
      Shows tree' (plug path (branch d red w (branch d false x shape near) far.blackened)) ∧ tree'.count = tree.count := by
  obtain ⟨tree', run, shows', count⟩ := remove_far_spec shows redFar
  obtain ⟨sibling, nearLink, farLink, _, nearRed, farRed⟩ := shows_sibling shows
  refine ⟨tree', ?_, shows', count⟩
  rw [removeSettle, sibling, deref, bind_ok, nearLink, farLink, nearRed, farRed, redFar, Bool.not_true, Bool.and_false, if_neg Bool.false_ne_true,
    if_neg Bool.false_ne_true, run]

theorem settle_near {y : N} {inner outer : Shape N}
    (shows : Shows tree (plug path (branch d red x shape (branch d false w (branch d true y inner outer) far)))) (blackFar : far.isRed = false) :
    ∃ tree', removeSettle tree x d = .ok (tree', tree'.root) ∧
      Shows tree' (plug path (branch d red y (branch d false x shape inner) (branch d false w outer far))) ∧ tree'.count = tree.count := by
  obtain ⟨sibling, nearLink, farLink, _, nearRed, farRed⟩ := shows_sibling shows
  rw [Shape.branch_is_red] at nearRed
  rw [Shape.branch_root] at nearLink nearRed
  have first : Shows (tree.setRed y false) (plug path (branch d red x shape (branch d false w (branch d false y inner outer) far))) := by
    rw [← plug_sibling] at shows ⊢
    have atNear : Shows tree (plug (⟨d, false, w, far⟩ :: ⟨d.opposite, red, x, shape⟩ :: path) (branch d true y inner outer)) := shows
    have painted : Shows (tree.setRed y false) (plug (⟨d, false, w, far⟩ :: ⟨d.opposite, red, x, shape⟩ :: path) (branch d false y inner outer)) :=
      shows_paint atNear
    exact painted
  rw [← plug_sibling] at first
  have second : Shows ((tree.setRed y false).setRed w true)
      (plug (⟨d.opposite, red, x, shape⟩ :: path) (branch d true w (branch d false y inner outer) far)) := shows_paint first
  rw [← Shape.branch_opposite d true w, ← Shape.branch_opposite d false y] at second
  obtain ⟨tree₁, rotated, shows₁, count₁⟩ := rotate_spec second
  rw [plug_sibling, Shape.branch_opposite, Shape.branch_opposite] at shows₁
  have link := (shows_sibling shows₁).1
  obtain ⟨tree', run, shows', count⟩ := remove_far_spec shows₁ (Shape.branch_is_red ..)
  rw [Shape.branch_blackened] at shows'
  refine ⟨tree', ?_, shows', count.trans count₁⟩
  rw [removeSettle, sibling, deref, bind_ok, nearLink, farLink, nearRed, farRed, blackFar]
  simp only [Bool.not_true, Bool.not_false, Bool.false_and, Bool.false_eq_true, if_false, if_true, deref, bind_ok, rotated, link, run]

end Repair

section Loop

variable {d : Direction} {red : Bool} {p w : N} {near far : Shape N} {frame : Frame N}

theorem round_black (shows : Shows tree (plug path (branch d red p shape (branch d false w near far)))) :
    removeRound tree shape.root p d = removeSettle tree p d := by
  obtain ⟨sibling, _, _, colour, _, _⟩ := shows_sibling shows
  rw [removeRound, sibling, colour]
  rfl

-- A round with a red sibling is the round after the rotation.
theorem round_turned (shows : Shows tree (plug path (branch d red p shape (branch d true w near far)))) (black : near.isRed = false) :
    ∃ tree', removeRound tree shape.root p d = removeRound tree' shape.root p d ∧
      Shows tree' (plug path (branch d false w (branch d true p shape near) far)) ∧ tree'.count = tree.count := by
  obtain ⟨sibling, _, _, colour, _, _⟩ := shows_sibling shows
  rw [← plug_sibling] at shows
  have first : Shows (tree.setRed w false) (plug (⟨d.opposite, red, p, shape⟩ :: path) (branch d false w near far)) := shows_paint shows
  rw [plug_sibling] at first
  have second : Shows ((tree.setRed w false).setRed p true) (plug path (branch d true p shape (branch d false w near far))) := shows_paint first
  obtain ⟨tree', rotated, shows', count⟩ := rotate_spec second
  have atParent : Shows tree' (plug (⟨d, false, w, far⟩ :: path) (branch d true p shape near)) := shows'
  have here := shows_cell atParent
  have nearRed : tree'.isRed near.root = false := (holds_is_red ((holds_branch ..).mp (shows_plug.mp atParent).below).2.2).trans black
  refine ⟨tree', ?_, shows', count⟩
  rw [removeRound, removeRound, sibling, colour]
  simp only [if_true, blacken_some, rotated, bind_ok, here, cell_near, cell_far, nearRed, Bool.false_eq_true, if_false, assertThat, decide_true]

omit [DecidableEq N] in
theorem not_at_root (shows : Shows tree (plug (frame :: path) shape)) : shape.root ≠ tree.root := by
  have placed := shows_plug.mp shows
  obtain ⟨y, same, member⟩ := top_mem path frame.entry
  rw [placed.root, top, same]
  intro root
  have distinct := placed.distinct
  refine List.disjoint_of_nodup_append distinct (Shape.root_mem root) ?_
  rcases List.mem_cons.mp member with rfl | above
  · exact List.mem_cons_self
  · exact List.mem_cons_of_mem _ (List.mem_append_right _ above)

theorem loop_round (shows : Shows tree (plug (frame :: path) shape)) (black : shape.isRed = false) (sibling : frame.sibling.root = some w) (fuel : Nat) :
    removeLoop (fuel + 1) tree shape.root (some frame.entry) = (do
      let (tree, x) ← removeRound tree shape.root frame.entry frame.direction
      let node ← deref x
      removeLoop fuel tree x (tree.nodes node).parent) := by
  have side : (if shape.root = (tree.nodes frame.entry).left then Direction.left else .right) = frame.direction := by
    rw [shows_frame shows, sibling]
    cases frame.direction with
    | left => exact if_pos rfl
    | right => exact if_neg fun same => root_ne_sibling shows same (Shape.root_mem sibling)
  have colour := shows_is_red shows
  rw [removeLoop, if_pos ⟨not_at_root shows, colour.trans black⟩, deref, bind_ok, side]

theorem loop_end (shows : Shows tree shape) (fuel : Nat) (xp : Option N) :
    removeLoop (fuel + 1) tree tree.root xp = .ok (tree, tree.root) ∧ Shows (tree.blacken tree.root) shape.blackened := by
  refine ⟨if_neg fun other => other.1 rfl, ?_⟩
  have whole : Shows tree (plug [] shape) := shows
  rw [shows.root]
  exact shows_blacken whole

theorem loop_last {x : N} (shows : Shows tree (plug path shape)) (root : shape.root = some x) (fuel : Nat) :
    (deref tree.root >>= fun node => removeLoop (fuel + 1) tree tree.root (tree.nodes node).parent) = .ok (tree, tree.root) := by
  obtain ⟨y, same, _⟩ := top_mem path x
  have whole : tree.root = some y := by
    rw [shows.root, plug_root, root, same]
  obtain ⟨run, _⟩ := loop_end shows fuel (tree.nodes y).parent
  rw [whole] at run ⊢
  exact run

omit [DecidableEq N] in
theorem mended_sibling {k : Nat} {whole : Shape N} (mended : Mended k (frame :: path) shape whole) (black : shape.isRed = false) :
    ∃ w, frame.sibling.root = some w := by
  cases mended with
  | red _ _ isRed => exact absurd (isRed.symm.trans black) Bool.noConfusion
  | lift => exact ⟨_, Shape.branch_root ..⟩
  | far => exact ⟨_, Shape.branch_root ..⟩
  | near => exact ⟨_, Shape.branch_root ..⟩
  | turned => exact ⟨_, Shape.branch_root ..⟩

-- The rounds of rb_remove, by the rules of the repair.
theorem mended_shows {k : Nat} {whole : Shape N} (mended : Mended k path shape whole) {tree : RbTree N} (shows : Shows tree (plug path shape))
    {fuel : Nat} (enough : k < fuel) :
    ∃ tree' x, removeLoop fuel tree shape.root (RedBlack.parent path) = .ok (tree', x) ∧ Shows (tree'.blacken x) whole ∧
      tree'.count = tree.count := by
  obtain ⟨fuel, rfl⟩ := Nat.exists_eq_add_one_of_ne_zero (Nat.ne_of_gt (Nat.lt_of_le_of_lt (Nat.zero_le _) enough))
  induction mended generalizing tree fuel with
  | root shape =>
      obtain ⟨run, shows'⟩ := loop_end shows fuel none
      have root : tree.root = shape.root := shows.root
      rw [root] at run shows'
      exact ⟨tree, shape.root, run, shows', rfl⟩
  | red path shape isRed =>
      have colour := shows_is_red shows
      refine ⟨tree, shape.root, if_neg fun guard => ?_, shows_blacken shows, rfl⟩
      exact absurd ((colour.trans isRed).symm.trans guard.2) Bool.noConfusion
  | lift k d red p w near far path shape whole black blackNear blackFar later ih =>
      have higher : Shows tree (plug path (branch d red p shape (branch d false w near far))) := shows
      obtain ⟨run, shows'⟩ := settle_lift higher blackNear blackFar
      obtain ⟨fuel, rfl⟩ := Nat.exists_eq_add_one_of_ne_zero (show fuel ≠ 0 by omega)
      obtain ⟨tree', x, loops, last, count⟩ := ih shows' fuel (by omega)
      refine ⟨tree', x, ?_, last, count⟩
      rw [RedBlack.parent, loop_round shows black (Shape.branch_root ..), round_black higher, run]
      rw [Shape.branch_root] at loops
      simp only [bind_ok, deref, shows_cell shows', cell_parent]
      exact loops
  | far d red p w near far path shape black redFar =>
      have higher : Shows tree (plug path (branch d red p shape (branch d false w near far))) := shows
      obtain ⟨tree', run, shows', count⟩ := settle_far higher redFar
      obtain ⟨fuel, rfl⟩ := Nat.exists_eq_add_one_of_ne_zero (show fuel ≠ 0 by omega)
      refine ⟨tree', tree'.root, ?_, (loop_end shows' fuel none).2, count⟩
      rw [RedBlack.parent, loop_round shows black (Shape.branch_root ..), round_black higher, run, bind_ok]
      exact loop_last shows' (Shape.branch_root ..) fuel
  | near d red p w y inner outer far path shape black blackFar =>
      have higher : Shows tree (plug path (branch d red p shape (branch d false w (branch d true y inner outer) far))) := shows
      obtain ⟨tree', run, shows', count⟩ := settle_near higher blackFar
      obtain ⟨fuel, rfl⟩ := Nat.exists_eq_add_one_of_ne_zero (show fuel ≠ 0 by omega)
      refine ⟨tree', tree'.root, ?_, (loop_end shows' fuel none).2, count⟩
      rw [RedBlack.parent, loop_round shows black (Shape.branch_root ..), round_black higher, run, bind_ok]
      exact loop_last shows' (Shape.branch_root ..) fuel
  | turned k d p w near far path shape whole black blackNear later ih =>
      have higher : Shows tree (plug path (branch d false p shape (branch d true w near far))) := shows
      obtain ⟨tree₁, same, shows₁, count₁⟩ := round_turned higher blackNear
      obtain ⟨w', sibling⟩ := mended_sibling later black
      obtain ⟨tree', x, loops, last, count⟩ := ih shows₁ fuel enough
      refine ⟨tree', x, ?_, last, count.trans count₁⟩
      have lower : Shows tree₁ (plug (⟨d, true, p, near⟩ :: ⟨d, false, w, far⟩ :: path) shape) := shows₁
      rw [RedBlack.parent, loop_round shows black (Shape.branch_root ..), same, ← loop_round lower black sibling]
      exact loops

end Loop

section Remove

variable {z : N} {fuel : Nat}

omit [DecidableEq N] in
theorem length_le_plug (path : List (Frame N)) (shape : Shape N) : shape.inorder.length ≤ (plug path shape).inorder.length :=
  Nat.le_trans (Nat.le_add_left _ _) (RedBlack.path_length_le path shape)

theorem child_of_parent (shows : Shows tree (plug path shape)) : tree.isChild shape.root (RedBlack.parent path) = true := by
  cases path with
  | nil => rfl
  | cons frame path =>
      rw [RedBlack.parent, RbTree.isChild, shows_frame shows]
      cases frame.direction with
      | left => exact decide_eq_true (.inl rfl)
      | right => exact decide_eq_true (.inr rfl)

-- The tree after a removal is red-black without the node, as long as the rounds are enough for the way to the successor and back.
theorem rb_remove_spec (shows : Shows tree shape) (balanced : shape.Balanced) (member : z ∈ shape.inorder)
    (enough : shape.inorder.length < fuel) :
    ∃ tree' shape', rbRemove fuel tree z = .ok tree' ∧ Shows tree' shape' ∧ shape'.Balanced ∧ shape'.inorder = shape.inorder.erase z ∧
      tree'.count = sub64 tree.count 1 := by
  obtain ⟨path, red, left, right, rfl⟩ := RedBlack.exists_path member
  have counted : Shows { tree with count := sub64 tree.count 1 } (plug path (.node red left z right)) := ⟨shows.root, shows.holds, shows.distinct⟩
  have inside := length_le_plug path (.node red left z right)
  rw [Shape.inorder, List.length_append, List.length_cons] at inside
  obtain ⟨tree₁, colour, path', rest, run, unlinked⟩ := unlink_spec counted (show right.inorder.length < fuel by omega)
  have checked := child_of_parent unlinked.shows
  rw [rbRemove]
  simp only [run, bind_ok, checked, assertThat, if_true]
  cases colour with
  | true => exact ⟨tree₁, _, rfl, unlinked.shows, (unlinked.balanced balanced).1 rfl, unlinked.order, unlinked.count⟩
  | false =>
      obtain ⟨k, whole, mended, fewer, balanced', order⟩ := RedBlack.short_mended ((unlinked.balanced balanced).2 rfl)
      have length := RedBlack.path_length_le path' rest
      rw [unlinked.order] at length
      have shorter := List.length_erase_le (a := z) (l := (plug path (.node red left z right)).inorder)
      obtain ⟨tree', x, loops, shows', count⟩ := mended_shows mended unlinked.shows (show k < fuel by omega)
      refine ⟨tree'.blacken x, whole, ?_, shows', balanced', order.trans unlinked.order, ?_⟩
      · simp only [loops, bind_ok, Bool.false_eq_true, if_false]
      · rw [blacken_count, count]
        exact unlinked.count

end Remove

end Elysium.RbLinks
