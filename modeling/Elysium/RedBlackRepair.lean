import Elysium.RedBlack
import Mathlib.Data.List.Induction

set_option autoImplicit false

namespace Elysium.RedBlack

open Shape (branch)

variable {N : Type}

-- The repair at a red node whose parent may be red, in so many rounds, and the whole tree it comes to.
inductive Raised : Nat → List (Frame N) → Shape N → Shape N → Prop where
  | root (tree : Shape N) : Raised 0 [] tree tree.blackened
  | calm (frame : Frame N) (path : List (Frame N)) (tree : Shape N) (black : frame.red = false) :
      Raised 0 (frame :: path) tree (plug (frame :: path) tree)
  | recolour (k : Nat) (turn d : Direction) (x g : N) (sibling uncle : Shape N) (path : List (Frame N)) (tree whole : Shape N)
      (isRed : uncle.isRed = true)
      (later : Raised k path (branch d true g (branch turn false x tree sibling) uncle.blackened) whole) :
      Raised (k + 1) (⟨turn, true, x, sibling⟩ :: ⟨d, false, g, uncle⟩ :: path) tree whole
  | outer (d : Direction) (x g : N) (sibling uncle : Shape N) (path : List (Frame N)) (tree : Shape N) (black : uncle.isRed = false) :
      Raised 0 (⟨d, true, x, sibling⟩ :: ⟨d, false, g, uncle⟩ :: path) tree
        (plug path (branch d false x tree (branch d true g sibling uncle)))
  | inner (d : Direction) (x y g : N) (red : Bool) (sibling near far uncle : Shape N) (path : List (Frame N)) (black : uncle.isRed = false) :
      Raised 0 (⟨d.opposite, true, x, sibling⟩ :: ⟨d, false, g, uncle⟩ :: path) (branch d red y near far)
        (plug path (branch d false y (branch d true x sibling near) (branch d true g far uncle)))

section Raising

variable {k n : Nat} {path : List (Frame N)} {tree whole : Shape N}

theorem raised_inorder (raised : Raised k path tree whole) : whole.inorder = (plug path tree).inorder := by
  induction raised with
  | root tree => exact tree.blackened_inorder
  | calm frame path tree black => rfl
  | recolour k turn d x g sibling uncle path tree whole isRed later ih =>
      refine ih.trans (plug_inorder_congr ?_)
      simp only [Frame.fill, Shape.branch_inorder, Shape.blackened_inorder]
  | outer d x g sibling uncle path tree black =>
      refine plug_inorder_congr ?_
      cases d <;> simp [Frame.fill, Shape.branch_inorder]
  | inner d x y g red sibling near far uncle path black =>
      refine plug_inorder_congr ?_
      cases d <;> simp [Frame.fill, Shape.branch_inorder, Direction.opposite]

theorem raised_balanced (raised : Raised k path tree whole) (isRed : tree.isRed = true) (calm : tree.Calm) (level : tree.Level n)
    (fits : Fits path false n) : whole.Balanced := by
  induction raised generalizing n with
  | root tree => exact (balanced_plug [] _).mpr ⟨Shape.calm_blackened calm, n + 1, Shape.level_blackened isRed level, tree.blackened_is_red⟩
  | calm frame path tree black =>
      refine (balanced_plug _ _).mpr ⟨calm, n, level, ⟨fun same => ?_, fits.2⟩⟩
      exact absurd (same.symm.trans black) Bool.noConfusion
  | recolour k turn d x g sibling uncle path tree whole uncleRed later ih =>
      obtain ⟨_, calmSibling, levelSibling, _, calmUncle, levelUncle, fits⟩ := fits
      refine ih (by simp) ?_ ?_ (fits_black fits)
      · simp [calm, calmSibling, Shape.calm_blackened calmUncle]
      · simp only [Shape.branch_level]
        exact ⟨n + 1, rfl, ⟨n, rfl, level, levelSibling⟩, Shape.level_blackened uncleRed levelUncle⟩
  | outer d x g sibling uncle path tree black =>
      obtain ⟨redParent, calmSibling, levelSibling, _, calmUncle, levelUncle, fits⟩ := fits
      have blackSibling := (redParent rfl).2
      refine (balanced_plug _ _).mpr ⟨?_, n + 1, ?_, by simpa using fits⟩
      · simp [calm, calmSibling, calmUncle, blackSibling, black]
      · simp only [Shape.branch_level]
        exact ⟨n, rfl, level, n, rfl, levelSibling, levelUncle⟩
  | inner d x y g red sibling near far uncle path black =>
      obtain ⟨redParent, calmSibling, levelSibling, _, calmUncle, levelUncle, fits⟩ := fits
      obtain rfl : red = true := by simpa using isRed
      obtain ⟨blackChildren, calmNear, calmFar⟩ := (Shape.branch_calm ..).mp calm
      obtain ⟨m, same, levelNear, levelFar⟩ := (Shape.branch_level ..).mp level
      rw [weight_red, Nat.add_zero] at same
      subst same
      obtain ⟨blackNear, blackFar⟩ := blackChildren rfl
      have blackSibling := (redParent rfl).2
      refine (balanced_plug _ _).mpr ⟨?_, n + 1, ?_, by simpa using fits⟩
      · simp [calmSibling, calmUncle, calmNear, calmFar, blackSibling, blackNear, blackFar, black]
      · simp only [Shape.branch_level]
        exact ⟨n, rfl, ⟨n, rfl, levelSibling, levelNear⟩, n, rfl, levelFar, levelUncle⟩

theorem raised_exists (path : List (Frame N)) {tree : Shape N} {n : Nat} (isRed : tree.isRed = true) (fits : Fits path false n) :
    ∃ k whole, Raised k path tree whole ∧ k ≤ path.length := by
  induction path using List.twoStepInduction generalizing tree n with
  | nil => exact ⟨0, _, .root tree, Nat.zero_le _⟩
  | singleton frame => exact ⟨0, _, .calm frame [] tree fits.2.2.2, Nat.zero_le _⟩
  | cons_cons frame grand path ih _ =>
      obtain ⟨turn, red, x, sibling⟩ := frame
      obtain ⟨d, redGrand, g, uncle⟩ := grand
      cases red with
      | false => exact ⟨0, _, .calm _ _ tree rfl, Nat.zero_le _⟩
      | true =>
          obtain ⟨_, _, _, redParent, _, _, fits⟩ := fits
          obtain rfl : redGrand = false := by
            cases redGrand with
            | false => rfl
            | true => exact absurd (redParent rfl).1 Bool.noConfusion
          cases colour : uncle.isRed with
          | true =>
              have recoloured : (branch d true g (branch turn false x tree sibling) uncle.blackened).isRed = true := Shape.branch_is_red ..
              obtain ⟨k, whole, raised, fewer⟩ := ih recoloured (fits_black fits)
              exact ⟨k + 1, whole, .recolour k turn d x g sibling uncle path tree whole colour raised, by
                simp only [List.length_cons]
                omega⟩
          | false =>
              rcases turn.eq_or_opposite d with rfl | rfl
              · exact ⟨0, _, .outer turn x g sibling uncle path tree colour, Nat.zero_le _⟩
              · obtain rfl | ⟨red, y, near, far, rfl⟩ := tree.leaf_or_branch d
                · cases isRed
                · exact ⟨0, _, .inner d x y g red sibling near far uncle path colour, Nat.zero_le _⟩

end Raising

-- The repair at a subtree that is one black node short, in so many rounds.
inductive Mended : Nat → List (Frame N) → Shape N → Shape N → Prop where
  | root (tree : Shape N) : Mended 0 [] tree tree.blackened
  | red (path : List (Frame N)) (tree : Shape N) (isRed : tree.isRed = true) : Mended 0 path tree (plug path tree.blackened)
  | lift (k : Nat) (d : Direction) (red : Bool) (x w : N) (near far : Shape N) (path : List (Frame N)) (tree whole : Shape N)
      (black : tree.isRed = false) (blackNear : near.isRed = false) (blackFar : far.isRed = false)
      (later : Mended k path (branch d red x tree (branch d true w near far)) whole) :
      Mended (k + 1) (⟨d, red, x, branch d false w near far⟩ :: path) tree whole
  | far (d : Direction) (red : Bool) (x w : N) (near far : Shape N) (path : List (Frame N)) (tree : Shape N)
      (black : tree.isRed = false) (redFar : far.isRed = true) :
      Mended 1 (⟨d, red, x, branch d false w near far⟩ :: path) tree
        (plug path (branch d red w (branch d false x tree near) far.blackened)).blackened
  | near (d : Direction) (red : Bool) (x w y : N) (inner outer far : Shape N) (path : List (Frame N)) (tree : Shape N)
      (black : tree.isRed = false) (blackFar : far.isRed = false) :
      Mended 1 (⟨d, red, x, branch d false w (branch d true y inner outer) far⟩ :: path) tree
        (plug path (branch d red y (branch d false x tree inner) (branch d false w outer far))).blackened
  | turned (k : Nat) (d : Direction) (x w : N) (near far : Shape N) (path : List (Frame N)) (tree whole : Shape N)
      (black : tree.isRed = false) (blackNear : near.isRed = false)
      (later : Mended k (⟨d, true, x, near⟩ :: ⟨d, false, w, far⟩ :: path) tree whole) :
      Mended k (⟨d, false, x, branch d true w near far⟩ :: path) tree whole

section Mending

variable {k n : Nat} {path : List (Frame N)} {tree whole : Shape N}

theorem mended_inorder (mended : Mended k path tree whole) : whole.inorder = (plug path tree).inorder := by
  induction mended with
  | root tree => exact tree.blackened_inorder
  | red path tree isRed => exact plug_inorder_congr tree.blackened_inorder
  | lift k d red x w near far path tree whole black blackNear blackFar later ih =>
      refine ih.trans (plug_inorder_congr ?_)
      simp only [Frame.fill, Shape.branch_inorder]
  | far d red x w near far path tree black redFar =>
      refine (Shape.blackened_inorder _).trans (plug_inorder_congr ?_)
      cases d <;> simp [Frame.fill, Shape.branch_inorder]
  | near d red x w y inner outer far path tree black blackFar =>
      refine (Shape.blackened_inorder _).trans (plug_inorder_congr ?_)
      cases d <;> simp [Frame.fill, Shape.branch_inorder]
  | turned k d x w near far path tree whole black blackNear later ih =>
      refine ih.trans ?_
      simp only [plug]
      refine plug_inorder_congr ?_
      cases d <;> simp [Frame.fill, Shape.branch_inorder]

theorem balanced_blackened {tree : Shape N} (balanced : tree.Balanced) : tree.blackened.Balanced := by
  rw [Shape.blackened_of_black balanced.root]
  exact balanced

-- The subtree of a frame has the black nodes that the place is to have.
theorem mended_balanced (mended : Mended k path tree whole) (calm : tree.blackened.Calm) (level : tree.Level n)
    (fits : Fits path false (n + 1)) : whole.Balanced := by
  induction mended generalizing n with
  | root tree =>
      refine (balanced_plug [] tree.blackened).mpr ⟨calm, ?_⟩
      cases colour : tree.isRed with
      | true => exact ⟨n + 1, Shape.level_blackened colour level, tree.blackened_is_red⟩
      | false =>
          rw [Shape.blackened_of_black colour]
          exact ⟨n, level, colour⟩
  | red path tree isRed =>
      refine (balanced_plug _ _).mpr ⟨calm, n + 1, Shape.level_blackened isRed level, ?_⟩
      rwa [Shape.blackened_is_red]
  | lift k d red x w near far path tree whole black blackNear blackFar later ih =>
      rw [Shape.blackened_of_black black] at calm
      obtain ⟨_, calmSibling, levelSibling, fits⟩ := fits
      obtain ⟨_, calmNear, calmFar⟩ := (Shape.branch_calm ..).mp calmSibling
      obtain ⟨m, same, levelNear, levelFar⟩ := (Shape.branch_level ..).mp levelSibling
      obtain rfl : n = m := Nat.add_right_cancel same
      refine ih (n := n + weight red) ?_ ?_ ?_
      · simp [calm, calmNear, calmFar, blackNear, blackFar]
      · simp only [Shape.branch_level]
        exact ⟨n, rfl, level, n, rfl, levelNear, levelFar⟩
      · rw [Nat.add_right_comm]
        exact fits_black fits
  | far d red x w near far path tree black redFar =>
      rw [Shape.blackened_of_black black] at calm
      obtain ⟨blackParent, calmSibling, levelSibling, fits⟩ := fits
      obtain ⟨_, calmNear, calmFar⟩ := (Shape.branch_calm ..).mp calmSibling
      obtain ⟨m, same, levelNear, levelFar⟩ := (Shape.branch_level ..).mp levelSibling
      obtain rfl : n = m := Nat.add_right_cancel same
      refine balanced_blackened ((balanced_plug _ _).mpr ⟨?_, n + 1 + weight red, ?_, by simpa using fits⟩)
      · simp [calm, calmNear, Shape.calm_blackened calmFar]
      · simp only [Shape.branch_level]
        exact ⟨n + 1, rfl, ⟨n, rfl, level, levelNear⟩, Shape.level_blackened redFar levelFar⟩
  | near d red x w y inner outer far path tree black blackFar =>
      rw [Shape.blackened_of_black black] at calm
      obtain ⟨blackParent, calmSibling, levelSibling, fits⟩ := fits
      obtain ⟨_, calmNear, calmFar⟩ := (Shape.branch_calm ..).mp calmSibling
      obtain ⟨_, calmInner, calmOuter⟩ := (Shape.branch_calm ..).mp calmNear
      obtain ⟨m, same, levelNear, levelFar⟩ := (Shape.branch_level ..).mp levelSibling
      obtain rfl : n = m := Nat.add_right_cancel same
      obtain ⟨m, same, levelInner, levelOuter⟩ := (Shape.branch_level ..).mp levelNear
      rw [weight_red, Nat.add_zero] at same
      subst same
      refine balanced_blackened ((balanced_plug _ _).mpr ⟨?_, n + 1 + weight red, ?_, by simpa using fits⟩)
      · simp [calm, calmInner, calmOuter, calmFar]
      · simp only [Shape.branch_level]
        exact ⟨n + 1, rfl, ⟨n, rfl, level, levelInner⟩, n, rfl, levelOuter, levelFar⟩
  | turned k d x w near far path tree whole black blackNear later ih =>
      obtain ⟨_, calmSibling, levelSibling, fits⟩ := fits
      obtain ⟨_, calmNear, calmFar⟩ := (Shape.branch_calm ..).mp calmSibling
      obtain ⟨m, same, levelNear, levelFar⟩ := (Shape.branch_level ..).mp levelSibling
      rw [weight_red, Nat.add_zero] at same
      subst same
      exact ih calm level ⟨fun _ => ⟨rfl, blackNear⟩, calmNear, levelNear, fun same => Bool.noConfusion same, calmFar, levelFar, fits_black fits⟩

-- A black sibling: the repair ends here, or it goes on at the parent.
theorem mended_cons (d : Direction) (red : Bool) (x w : N) (near far : Shape N) (path : List (Frame N)) {tree : Shape N} (black : tree.isRed = false)
    (above : near.isRed = false → far.isRed = false → ∃ k whole, Mended k path (branch d red x tree (branch d true w near far)) whole ∧ k ≤ n) :
    ∃ k whole, Mended k (⟨d, red, x, branch d false w near far⟩ :: path) tree whole ∧ k ≤ n + 1 := by
  cases colourFar : far.isRed with
  | true => exact ⟨1, _, .far d red x w near far path tree black colourFar, Nat.le_add_left 1 n⟩
  | false =>
      cases colourNear : near.isRed with
      | false =>
          obtain ⟨k, whole, mended, fewer⟩ := above colourNear colourFar
          exact ⟨k + 1, whole, .lift k d red x w near far path tree whole black colourNear colourFar mended, Nat.succ_le_succ fewer⟩
      | true =>
          obtain rfl | ⟨red', y, inner, outer, rfl⟩ := near.leaf_or_branch d
          · cases colourNear
          · obtain rfl : red' = true := by simpa using colourNear
            exact ⟨1, _, .near d red x w y inner outer far path tree black colourFar, Nat.le_add_left 1 n⟩

theorem mended_exists (path : List (Frame N)) {tree : Shape N} {n : Nat} (fits : Fits path false (n + 1)) :
    ∃ k whole, Mended k path tree whole ∧ k ≤ path.length := by
  induction path generalizing tree n with
  | nil => exact ⟨0, _, .root tree, Nat.zero_le _⟩
  | cons frame path ih =>
      cases black : tree.isRed with
      | true => exact ⟨0, _, .red _ tree black, Nat.zero_le _⟩
      | false =>
          obtain ⟨d, red, x, sibling⟩ := frame
          obtain ⟨blackParent, calmSibling, levelSibling, fits⟩ := fits
          obtain rfl | ⟨redSibling, w, near, far, rfl⟩ := sibling.leaf_or_branch d
          · exact absurd levelSibling (Nat.succ_ne_zero n)
          · cases redSibling with
            | false =>
                refine mended_cons d red x w near far path black fun _ _ => ih (n := n + weight red) ?_
                rw [Nat.add_right_comm]
                exact fits_black fits
            | true =>
                obtain rfl : red = false := by
                  cases red with
                  | false => rfl
                  | true => exact absurd (blackParent rfl).2 (by simp)
                obtain ⟨blackChildren, calmNear, calmFar⟩ := (Shape.branch_calm ..).mp calmSibling
                obtain ⟨m, same, levelNear, levelFar⟩ := (Shape.branch_level ..).mp levelSibling
                rw [weight_red, Nat.add_zero] at same
                subst same
                obtain ⟨blackNear, _⟩ := blackChildren rfl
                obtain rfl | ⟨redNear, y, inner, outer, rfl⟩ := near.leaf_or_branch d
                · exact absurd levelNear (Nat.succ_ne_zero n)
                · obtain rfl : redNear = false := by simpa using blackNear
                  -- The parent is red after the turn, and the repair does not go further up.
                  obtain ⟨k, whole, mended, fewer⟩ := mended_cons (n := 0) d true x y inner outer (⟨d, false, w, far⟩ :: path) black
                    fun _ _ => ⟨0, _, .red _ _ (by simp), Nat.le_refl 0⟩
                  exact ⟨k, whole, .turned k d x w _ far path tree whole black blackNear mended, Nat.le_trans fewer (Nat.succ_le_succ (Nat.zero_le _))⟩

-- A subtree that is one black node short of what its place is to have.
structure Short (path : List (Frame N)) (tree : Shape N) : Prop where
  calm : tree.blackened.Calm
  level : ∃ n, tree.Level n ∧ Fits path false (n + 1)

theorem short_mended (short : Short path tree) :
    ∃ k whole, Mended k path tree whole ∧ k ≤ path.length ∧ whole.Balanced ∧ whole.inorder = (plug path tree).inorder := by
  obtain ⟨n, level, fits⟩ := short.level
  obtain ⟨k, whole, mended, fewer⟩ := @mended_exists N path tree n fits
  exact ⟨k, whole, mended, fewer, mended_balanced mended short.calm level fits, mended_inorder mended⟩

-- A node with at most one subtree taken out.
theorem cut_balanced {d : Direction} {red : Bool} {x : N} (balanced : (plug path (branch d red x tree .leaf)).Balanced) :
    (red = true → (plug path tree).Balanced) ∧ (red = false → Short path tree) := by
  obtain ⟨calm, m, level, fits⟩ := (balanced_plug _ _).mp balanced
  obtain ⟨blackChildren, calmTree, _⟩ := (Shape.branch_calm ..).mp calm
  obtain ⟨n, same, levelTree, _⟩ := (Shape.branch_level ..).mp level
  rw [Shape.branch_is_red] at fits
  constructor
  · rintro rfl
    rw [weight_red, Nat.add_zero] at same
    subst same
    refine (balanced_plug _ _).mpr ⟨calmTree, m, levelTree, ?_⟩
    rw [(blackChildren rfl).1]
    exact fits_black fits
  · rintro rfl
    exact ⟨Shape.calm_blackened calmTree, n, levelTree, same ▸ fits⟩

theorem balanced_renamed {inner outer : List (Frame N)} {d : Direction} {red : Bool} {x : N} {sibling : Shape N} (y : N)
    (balanced : (plug (inner ++ ⟨d, red, x, sibling⟩ :: outer) tree).Balanced) :
    (plug (inner ++ ⟨d, red, y, sibling⟩ :: outer) tree).Balanced := by
  obtain ⟨calm, n, level, fits⟩ := (balanced_plug _ _).mp balanced
  exact (balanced_plug _ _).mpr ⟨calm, n, level, fits_renamed fits⟩

end Mending

end Elysium.RedBlack
