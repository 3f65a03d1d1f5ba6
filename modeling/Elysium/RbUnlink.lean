import Elysium.RbShows

set_option autoImplicit false

namespace Elysium.RbLinks

open RedBlack (Direction Shape Frame plug before after Short)
open RedBlack.Shape (branch)

variable {N : Type} [DecidableEq N] {tree : RbTree N} {path : List (Frame N)}

-- What is left of the tree once a node is out of it. `red` is the colour of the place that was given up.
structure Unlinked (node : N) (shape : Shape N) (tree tree' : RbTree N) (red : Bool) (path : List (Frame N)) (rest : Shape N) : Prop where
  shows : Shows tree' (plug path rest)
  order : (plug path rest).inorder = shape.inorder.erase node
  balanced : shape.Balanced → (red = true → (plug path rest).Balanced) ∧ (red = false → Short path rest)
  count : tree'.count = tree.count

theorem erase_middle {a b : List N} {x : N} (distinct : (a ++ x :: b).Nodup) : (a ++ x :: b).erase x = a ++ b := by
  have outside : x ∉ a := fun member => List.disjoint_of_nodup_append distinct member List.mem_cons_self
  rw [List.erase_append_right _ outside, List.erase_cons_head]

section Single

variable {d : Direction} {red : Bool} {u : N} {rest : Shape N}

theorem erase_single (distinct : (plug path (branch d red u rest .leaf)).inorder.Nodup) :
    (plug path rest).inorder = (plug path (branch d red u rest .leaf)).inorder.erase u := by
  have split : ∃ a b, (plug path (branch d red u rest .leaf)).inorder = a ++ u :: b ∧ (plug path rest).inorder = a ++ b := by
    simp only [RedBlack.plug_inorder, Shape.branch_inorder]
    cases d with
    | left => exact ⟨before path ++ rest.inorder, after path, by simp [Shape.inorder], rfl⟩
    | right => exact ⟨before path, rest.inorder ++ after path, by simp [Shape.inorder], List.append_assoc ..⟩
  obtain ⟨a, b, whole, cut⟩ := split
  rw [whole] at distinct ⊢
  rw [cut, erase_middle distinct]

theorem erased_outside (distinct : (plug path (branch d red u rest .leaf)).inorder.Nodup) : u ∉ (plug path rest).inorder := by
  rw [erase_single distinct]
  exact distinct.not_mem_erase

theorem transplant_spec (shows : Shows tree (plug path (branch d red u rest .leaf))) :
    ∃ tree', transplant tree u rest.root = .ok tree' ∧ Shows tree' (plug path rest) ∧ tree'.nodes u = tree.nodes u ∧ tree'.count = tree.count := by
  have here := shows_cell shows
  obtain ⟨root, above, below, distinct⟩ := shows_plug.mp shows
  rw [Shape.branch_root] at root above
  have apart := ((branch_perm d red u rest .leaf).append_right (entries path)).nodup_iff.mp distinct
  rw [Shape.inorder, List.append_nil, List.cons_append, List.nodup_cons, List.mem_append, not_or, List.nodup_append'] at apart
  obtain ⟨⟨outsideRest, outsidePath⟩, distinctRest, distinctPath, disjoint⟩ := apart
  have linked : (tree.nodes u).parent = RedBlack.parent path := by
    rw [here, cell_parent]
  refine ⟨_, transplant_eq root above linked outsidePath, shows_plug.mpr ⟨?_, ?_, ?_, List.nodup_append'.mpr ⟨distinctRest, distinctPath, disjoint⟩⟩, ?_, ?_⟩
  · rw [adopt_root]
    exact relinked_root root
  · refine holds_path_congr (fun x member => ?_) (holds_relinked above distinctPath)
    exact adopt_other fun inRest => disjoint inRest member
  · refine holds_adopt (holds_congr (fun x member => ?_) ((holds_branch ..).mp below).2.1) distinctRest
    exact relinked_other (disjoint member)
  · rw [adopt_other outsideRest, relinked_other outsidePath]
  · rw [adopt_count, relinked_count]

end Single

section Successor

variable {red : Bool} {x s : N} {left right rest : Shape N} {inner : List (Frame N)}

omit [DecidableEq N] in
theorem before_leftmost (leftmost : ∀ frame ∈ inner, frame.direction = .left) : before inner = [] := by
  induction inner with
  | nil => rfl
  | cons frame inner ih =>
      obtain ⟨here, later⟩ := List.forall_mem_cons.mp leftmost
      rw [before, here]
      exact ih later

-- The least node of a subtree has no left child.
omit [DecidableEq N] in
theorem successor_loop_spec (left : Shape N) {red : Bool} {x : N} {right : Shape N} {path : List (Frame N)}
    (shows : Shows tree (plug path (.node red left x right))) {fuel : Nat} (enough : left.inorder.length < fuel) :
    ∃ inner colour s rest, Shape.node red left x right = plug inner (.node colour .leaf s rest) ∧ (∀ frame ∈ inner, frame.direction = .left) ∧
      successorLoop tree fuel x = .ok s := by
  obtain ⟨fuel, rfl⟩ := Nat.exists_eq_add_one_of_ne_zero (Nat.ne_of_gt (Nat.lt_of_le_of_lt (Nat.zero_le _) enough))
  have here : tree.nodes x = ⟨red, RedBlack.parent path, left.root, right.root⟩ := (shows_plug.mp shows).below.1
  induction left generalizing red x right path fuel with
  | leaf =>
      refine ⟨[], red, x, right, rfl, by simp, ?_⟩
      rw [successorLoop, here]
      rfl
  | node red' left' x' right' ih _ =>
      rw [Shape.inorder, List.length_append, List.length_cons] at enough
      have lower : Shows tree (plug (⟨.left, red, x, right⟩ :: path) (.node red' left' x' right')) := shows
      obtain ⟨fuel, rfl⟩ := Nat.exists_eq_add_one_of_ne_zero (show fuel ≠ 0 by omega)
      obtain ⟨inner, colour, s, rest, same, leftmost, run⟩ := ih lower fuel (by omega) (shows_plug.mp lower).below.1
      refine ⟨inner ++ [⟨.left, red, x, right⟩], colour, s, rest, ?_, ?_, ?_⟩
      · rw [RedBlack.plug_append, ← same]
        rfl
      · exact List.forall_mem_append.mpr ⟨leftmost, List.forall_mem_singleton.mpr rfl⟩
      · rw [successorLoop, here]
        exact run

end Successor

section Splice

variable {red : Bool} {z s : N} {left rest : Shape N}

-- The successor is out of its place, with the rest of the right subtree under it, and the node still in its own.
structure Detached (tree : RbTree N) (path : List (Frame N)) (red : Bool) (z s : N) (left rest : Shape N) : Prop where
  root : tree.root = top path (some z)
  above : HoldsPath tree.nodes path (some z)
  node : (tree.nodes z).red = red ∧ (tree.nodes z).parent = RedBlack.parent path ∧ (tree.nodes z).left = left.root
  inLeft : Holds tree.nodes (some z) left
  links : (tree.nodes s).left = none ∧ (tree.nodes s).right = rest.root
  inRest : Holds tree.nodes (some s) rest
  distinct : (z :: s :: (left.inorder ++ rest.inorder ++ entries path)).Nodup

-- The memory after removeSplice.
def spliced (tree : RbTree N) (path : List (Frame N)) (red : Bool) (s : N) (leftRoot : Option N) : RbTree N :=
  ((((relinked tree path (some s)).setParent s (RedBlack.parent path)).setChild s .left leftRoot).adopt leftRoot (some s)).setRed s red

theorem spliced_count (leftRoot : Option N) : (spliced tree path red s leftRoot).count = tree.count := by
  simp [spliced, RbTree.setChild, RbTree.setParent]

theorem spliced_other {y : N} (ne : y ≠ s) (outside : y ∉ left.inorder) :
    (spliced tree path red s left.root).nodes y = (relinked tree path (some s)).nodes y := by
  rw [spliced, RbTree.setRed, write_other ne, adopt_other outside, RbTree.setChild, write_other ne, RbTree.setParent, write_other ne]

theorem spliced_here (inPath : s ∉ entries path) (inLeft : s ∉ left.inorder) :
    (spliced tree path red s left.root).nodes s = ⟨red, RedBlack.parent path, left.root, (tree.nodes s).right⟩ := by
  rw [spliced, RbTree.setRed, write_same, adopt_other inLeft, RbTree.setChild, write_same, RbTree.setParent, write_same, relinked_other inPath]
  rfl

theorem holds_spliced (inLeft : Holds tree.nodes (some z) left) (distinct : left.inorder.Nodup) (outside : s ∉ left.inorder)
    (apart : ∀ y ∈ left.inorder, y ∉ entries path) : Holds (spliced tree path red s left.root).nodes (some s) left := by
  have before : Holds (((relinked tree path (some s)).setParent s (RedBlack.parent path)).setChild s .left left.root).nodes (some z) left := by
    refine holds_congr (fun y member => ?_) inLeft
    have ne : y ≠ s := ne_of_mem_of_not_mem member outside
    rw [RbTree.setChild, write_other ne, RbTree.setParent, write_other ne, relinked_other (apart y member)]
  have adopted : Holds ((((relinked tree path (some s)).setParent s (RedBlack.parent path)).setChild s .left left.root).adopt left.root (some s)).nodes
      (some s) left := holds_adopt before distinct
  exact holds_congr (fun y member => write_other (ne_of_mem_of_not_mem member outside) _) adopted

theorem remove_splice_eq (detached : Detached tree path red z s left rest) {l : N} (filled : left.root = some l) :
    removeSplice tree z s = .ok (spliced tree path red s left.root) := by
  obtain ⟨root, above, ⟨colour, linked, leftLink⟩, _, ⟨noLeft, _⟩, _, distinct⟩ := detached
  simp only [List.nodup_cons, List.mem_cons, List.mem_append, not_or] at distinct
  obtain ⟨⟨ne, ⟨zLeft, _⟩, zPath⟩, ⟨⟨sLeft, _⟩, sPath⟩, _⟩ := distinct
  have kept : (((relinked tree path (some s)).setParent s (RedBlack.parent path)).nodes z) = tree.nodes z := by
    rw [RbTree.setParent, write_other ne, relinked_other zPath]
  have moved : ((((relinked tree path (some s)).setParent s (RedBlack.parent path)).setChild s .left left.root).nodes s).left = some l := by
    rw [RbTree.setChild, write_same]
    exact filled
  have kept' : ((((relinked tree path (some s)).setParent s (RedBlack.parent path)).setChild s .left left.root).setParent l (some s)).nodes z =
      tree.nodes z := by
    rw [RbTree.setParent, write_other (ne_of_mem_of_not_mem (Shape.root_mem filled) zLeft).symm, RbTree.setChild, write_other ne, kept]
  rw [removeSplice, noLeft, transplant_eq root above linked zPath]
  simp only [assertThat, decide_true, if_true, bind_ok, RbTree.adopt, kept, leftLink, moved, deref, RbTree.isRed, kept', colour]
  rw [spliced, filled]
  rfl

theorem splice_spec (detached : Detached tree path red z s left rest) :
    Shows (spliced tree path red s left.root) (plug path (.node red left s rest)) := by
  obtain ⟨root, above, _, inLeft, ⟨_, rightLink⟩, inRest, distinct⟩ := detached
  have order := (List.nodup_cons.mp distinct).2
  simp only [List.nodup_cons, List.mem_cons, List.mem_append, not_or, List.nodup_append', List.disjoint_append_left] at distinct
  obtain ⟨_, ⟨⟨sLeft, sRest⟩, sPath⟩, ⟨distinctLeft, _, apart⟩, distinctPath, leftPath, restPath⟩ := distinct
  refine shows_plug.mpr ⟨?_, ?_, ⟨?_, ?_, ?_⟩, ?_⟩
  · rw [spliced, RbTree.setRed, write_root, adopt_root]
    exact relinked_root root
  · refine holds_path_congr (fun y member => ?_) (holds_relinked above distinctPath)
    exact spliced_other (ne_of_mem_of_not_mem member sPath) fun inLeft => leftPath inLeft member
  · rw [spliced_here sPath sLeft, rightLink]
  · exact holds_spliced inLeft distinctLeft sLeft fun y member => leftPath member
  · refine holds_congr (fun y member => ?_) inRest
    rw [spliced_other (ne_of_mem_of_not_mem member sRest) fun inLeft => apart inLeft member, relinked_other (restPath member)]
  · rw [Shape.inorder, List.append_assoc, List.cons_append]
    refine List.Perm.nodup ?_ order
    rw [List.append_assoc]
    exact List.perm_middle.symm

omit [DecidableEq N] in
theorem node_perm (path : List (Frame N)) (red : Bool) (left : Shape N) (z : N) (rest : Shape N) :
    ((Shape.node red left z rest).inorder ++ entries path).Perm (z :: (left.inorder ++ rest.inorder ++ entries path)) :=
  List.perm_middle.append_right (entries path)

-- Where the successor gets the right subtree of the node.
theorem detached_adopted (shows : Shows tree (plug path (.node red left z rest))) (outside : s ∉ (plug path (.node red left z rest)).inorder)
    (noLeft : (tree.nodes s).left = none) :
    Detached ((tree.setChild s .right rest.root).adopt rest.root (some s)) path red z s left rest := by
  obtain ⟨root, above, ⟨here, inLeft, inRest⟩, distinct⟩ := shows_plug.mp shows
  have parts := (node_perm path red left z rest).nodup_iff.mp distinct
  have outsideParts : s ∉ z :: (left.inorder ++ rest.inorder ++ entries path) := fun member =>
    outside ((plug_perm path _).mem_iff.mpr ((node_perm path red left z rest).mem_iff.mpr member))
  have all : (z :: s :: (left.inorder ++ rest.inorder ++ entries path)).Nodup :=
    (List.Perm.swap z s _).nodup (List.nodup_cons.mpr ⟨outsideParts, parts⟩)
  have separate := all
  simp only [List.nodup_cons, List.mem_cons, List.mem_append, not_or, List.nodup_append', List.disjoint_append_left] at separate
  obtain ⟨⟨ne, ⟨zLeft, zRest⟩, zPath⟩, ⟨⟨sLeft, sRest⟩, sPath⟩, ⟨_, distinctRest, apart⟩, _, leftPath, restPath⟩ := separate
  have kept : ∀ y, y ≠ s → y ∉ rest.inorder → ((tree.setChild s .right rest.root).adopt rest.root (some s)).nodes y = tree.nodes y := by
    intro y ne outside
    rw [adopt_other outside, RbTree.setChild, write_other ne]
  refine ⟨?_, holds_path_congr (fun y member => ?_) above, ?_, holds_congr (fun y member => ?_) inLeft, ?_, ?_, all⟩
  · rw [adopt_root]
    exact root
  · exact kept y (ne_of_mem_of_not_mem member sPath) fun inRest => restPath inRest member
  · rw [kept z ne zRest, here]
    exact ⟨rfl, rfl, rfl⟩
  · exact kept y (ne_of_mem_of_not_mem member sLeft) fun inRest => apart member inRest
  · rw [adopt_other sRest, RbTree.setChild, write_same]
    exact ⟨noLeft, rfl⟩
  · have before : Holds (tree.setChild s .right rest.root).nodes (some z) rest :=
      holds_congr (fun y member => write_other (ne_of_mem_of_not_mem member sRest) _) inRest
    exact holds_adopt before distinctRest

end Splice

section Unlink

variable {red : Bool} {z : N} {left : Shape N}

omit [DecidableEq N] in
theorem entries_append (inner outer : List (Frame N)) : entries (inner ++ outer) = entries inner ++ entries outer := by
  induction inner with
  | nil => rfl
  | cons frame inner ih => rw [List.cons_append, entries, entries, ih, List.append_assoc]

omit [DecidableEq N] in
theorem plug_cons_filled (frame : Frame N) (path : List (Frame N)) (shape : Shape N) : ∃ m, (plug (frame :: path) shape).root = some m := by
  obtain ⟨m, same, _⟩ := top_mem path frame.entry
  exact ⟨m, by rw [plug_root, top, same]⟩

theorem detach_spec {inner : List (Frame N)} {colour : Bool} {s : N} {rest : Shape N}
    (shows : Shows tree (plug path (.node red left z (plug inner (.node colour .leaf s rest))))) :
    ∃ tree', removeDetach tree z s = .ok (tree', RedBlack.parent (inner ++ ⟨.right, red, s, left⟩ :: path)) ∧
      Detached tree' path red z s left (plug inner rest) ∧ tree'.count = tree.count := by
  have lower : Shows tree (plug (inner ++ ⟨.right, red, z, left⟩ :: path) (branch .right colour s rest .leaf)) := by
    rw [RedBlack.plug_append]
    exact shows
  have here := shows_cell lower
  cases inner with
  | nil =>
      obtain ⟨root, above, ⟨node, inLeft, sHere, _, inRest⟩, distinct⟩ := shows_plug.mp shows
      refine ⟨tree, ?_, ⟨root, above, ?_, inLeft, ?_, inRest, ?_⟩, rfl⟩
      · rw [removeDetach, here]
        exact if_pos rfl
      · rw [node]
        exact ⟨rfl, rfl, rfl⟩
      · rw [sHere]
        exact ⟨rfl, rfl⟩
      · have parts := (node_perm path red left z (.node colour .leaf s rest)).nodup_iff.mp distinct
        refine List.Perm.nodup (List.Perm.cons z ?_) parts
        simp only [plug, Shape.inorder, List.nil_append, List.append_assoc, List.cons_append]
        exact List.perm_middle
  | cons frame inner =>
      obtain ⟨tree₁, run, shows₁, kept, count⟩ := transplant_spec lower
      have distinct := (shows_plug.mp lower).distinct
      have other : frame.entry ≠ z := by
        have apart := (List.nodup_append'.mp distinct).2.1
        rw [entries_append, entries, List.cons_append, List.cons_append, List.nodup_cons] at apart
        exact fun same => apart.1 (List.mem_append_right _ (same ▸ List.mem_cons_self))
      have outside := erased_outside lower.distinct
      rw [RedBlack.plug_append] at outside
      have below : Shows tree₁ (plug path (.node red left z (plug (frame :: inner) rest))) := by
        rw [RedBlack.plug_append] at shows₁
        exact shows₁
      have noLeft : (tree₁.nodes s).left = none := by
        rw [kept, here]
        rfl
      obtain ⟨m, filled⟩ := plug_cons_filled frame inner rest
      have link : (tree₁.nodes z).right = some m := by
        rw [(shows_plug.mp below).below.1]
        exact filled
      have linked : (tree.nodes s).parent = some frame.entry := by
        rw [here]
        rfl
      have moved : ((tree₁.setChild s .right (some m)).nodes s).right = some m := by
        rw [RbTree.setChild, write_same]
        rfl
      have right : (tree.nodes s).right = rest.root := by
        rw [here]
        rfl
      refine ⟨_, ?_, detached_adopted below outside noLeft, ?_⟩
      · rw [removeDetach, linked, if_neg fun same => other (Option.some.inj same), right, run, filled]
        simp only [bind_ok, link, moved, deref]
        rfl
      · rw [adopt_count]
        exact count

theorem unlinked_single {d : Direction} {rest : Shape N} (shows : Shows tree (plug path (branch d red z rest .leaf))) :
    ∃ tree', transplant tree z rest.root = .ok tree' ∧ Unlinked z (plug path (branch d red z rest .leaf)) tree tree' red path rest := by
  obtain ⟨tree', run, shows', _, count⟩ := transplant_spec shows
  exact ⟨tree', run, shows', erase_single shows.distinct, fun balanced => RedBlack.cut_balanced balanced, count⟩

-- The successor follows the node in the order of the tree.
theorem unlinked_spliced {inner : List (Frame N)} {colour : Bool} {s : N} {rest : Shape N} {tree' : RbTree N}
    (shows : Shows tree (plug path (.node red left z (plug inner (.node colour .leaf s rest)))))
    (leftmost : ∀ frame ∈ inner, frame.direction = .left) (shows' : Shows tree' (plug path (.node red left s (plug inner rest))))
    (count : tree'.count = tree.count) :
    Unlinked z (plug path (.node red left z (plug inner (.node colour .leaf s rest)))) tree tree' colour
      (inner ++ ⟨.right, red, s, left⟩ :: path) rest := by
  have placed : ∀ y shape, plug (inner ++ ⟨.right, red, y, left⟩ :: path) shape = plug path (.node red left y (plug inner shape)) := fun y shape =>
    RedBlack.plug_append ..
  refine ⟨?_, ?_, fun balanced => ?_, count⟩
  · rw [placed]
    exact shows'
  · have whole : (plug path (.node red left z (plug inner (.node colour .leaf s rest)))).inorder =
        before path ++ left.inorder ++ z :: s :: (rest.inorder ++ after inner ++ after path) := by
      simp [RedBlack.plug_inorder, Shape.inorder, before_leftmost leftmost]
    have cut : (plug path (.node red left s (plug inner rest))).inorder =
        before path ++ left.inorder ++ s :: (rest.inorder ++ after inner ++ after path) := by
      simp [RedBlack.plug_inorder, Shape.inorder, before_leftmost leftmost]
    have distinct := shows.distinct
    rw [whole] at distinct ⊢
    rw [placed, cut, erase_middle distinct]
  · rw [← placed] at balanced
    have cut : (plug (inner ++ ⟨.right, red, s, left⟩ :: path) (branch .right colour s rest .leaf)).Balanced :=
      RedBlack.balanced_renamed s balanced
    exact RedBlack.cut_balanced cut

theorem unlink_spec {right : Shape N} {fuel : Nat} (shows : Shows tree (plug path (.node red left z right)))
    (enough : right.inorder.length < fuel) :
    ∃ tree' colour path' rest, removeUnlink fuel tree z = .ok (tree', colour, rest.root, RedBlack.parent path') ∧
      Unlinked z (plug path (.node red left z right)) tree tree' colour path' rest := by
  have here : tree.nodes z = ⟨red, RedBlack.parent path, left.root, right.root⟩ := (shows_plug.mp shows).below.1
  rw [removeUnlink, here]
  cases left with
  | leaf =>
      have single : Shows tree (plug path (branch .right red z right .leaf)) := shows
      obtain ⟨tree', run, unlinked⟩ := unlinked_single single
      refine ⟨tree', red, path, right, ?_, unlinked⟩
      simp only [Shape.leaf_root, RbTree.isRed, here, run, bind_ok]
  | node redLeft leftLeft l leftRight =>
      cases right with
      | leaf =>
          have single : Shows tree (plug path (branch .left red z (.node redLeft leftLeft l leftRight) .leaf)) := shows
          obtain ⟨tree', run, unlinked⟩ := unlinked_single single
          refine ⟨tree', red, path, .node redLeft leftLeft l leftRight, ?_, unlinked⟩
          rw [Shape.node_root] at run
          simp only [Shape.leaf_root, Shape.node_root, RbTree.isRed, here, run, bind_ok]
      | node redRight rightLeft r rightRight =>
          rw [Shape.inorder, List.length_append] at enough
          have lower : Shows tree (plug (⟨.right, red, z, .node redLeft leftLeft l leftRight⟩ :: path) (.node redRight rightLeft r rightRight)) := shows
          obtain ⟨inner, colour, s, rest, same, leftmost, found⟩ := successor_loop_spec rightLeft lower (Nat.lt_of_le_of_lt (Nat.le_add_right _ _) enough)
          have filled : (plug inner (.node colour .leaf s rest)).root = some r := same ▸ rfl
          rw [same] at shows ⊢
          obtain ⟨tree₁, detach, detached, count⟩ := detach_spec shows
          have spliced := remove_splice_eq detached rfl
          have atSuccessor : Shows tree (plug (inner ++ ⟨.right, red, z, .node redLeft leftLeft l leftRight⟩ :: path)
              (.node colour .leaf s rest)) := by
            rw [RedBlack.plug_append]
            exact shows
          have successor := (shows_plug.mp atSuccessor).below.1
          refine ⟨_, colour, _, rest, ?_, unlinked_spliced shows leftmost (splice_spec detached) ?_⟩
          · simp only [Shape.node_root, filled, removeSpliced, found, bind_ok, detach, spliced, RbTree.isRed, successor]
          · rw [spliced_count]
            exact count

end Unlink

end Elysium.RbLinks
