import Elysium.Dyadic

set_option autoImplicit false

namespace Dyadic

-- A layout cuts a set of points into dyadic cells: `ord p` is the order of the
-- cell that holds p, `top p` the order of the largest cell p may ever be part
-- of, and `free` tells the two kinds of cells apart. The fields make a layout
-- a partition: overlapping cells cannot be written down.
structure Layout where
  dom : Nat → Prop
  top : Nat → Nat
  ord : Nat → Nat
  free : Nat → Prop
  top_cell : ∀ p q, dom p → SameCell (top p) p q → dom q ∧ top q = top p
  ord_le : ∀ p, dom p → ord p ≤ top p
  ord_cell : ∀ p q, dom p → SameCell (ord p) p q → ord q = ord p
  free_cell : ∀ p q, dom p → SameCell (ord p) p q → (free q ↔ free p)

namespace Layout

variable (layout : Layout)

-- `h` starts a cell of order k of the layout.
def Cell (k h : Nat) : Prop := layout.dom h ∧ layout.ord h = k ∧ IsHead k h

theorem dom_of_cell (k p q : Nat) (inDom : layout.dom p) (le : k ≤ layout.top p) (same : SameCell k p q) :
    layout.dom q ∧ layout.top q = layout.top p :=
  layout.top_cell p q inDom (same_cell_mono le same)

theorem cell_at (p : Nat) (inDom : layout.dom p) : layout.Cell (layout.ord p) (cellHead (layout.ord p) p) := by
  have same := same_cell_symm (cell_head_same (layout.ord p) p)
  exact ⟨(layout.dom_of_cell _ p _ inDom (layout.ord_le p inDom) same).1, layout.ord_cell p _ inDom same,
    cell_head_is_head _ p⟩

theorem cell_covers (k h p : Nat) (cell : layout.Cell k h) (inCell : SameCell k h p) :
    layout.dom p ∧ layout.ord p = k ∧ (layout.free p ↔ layout.free h) := by
  obtain ⟨inDom, order, _⟩ := cell
  subst order
  exact ⟨(layout.dom_of_cell _ h p inDom (layout.ord_le h inDom) inCell).1, layout.ord_cell h p inDom inCell,
    layout.free_cell h p inDom inCell⟩

-- Cells that share a point are one cell.
theorem cell_unique (j k a b p : Nat) (left : layout.Cell j a) (right : layout.Cell k b)
    (inLeft : SameCell j a p) (inRight : SameCell k b p) : a = b ∧ j = k := by
  have orders : j = k :=
    ((layout.cell_covers j a p left inLeft).2.1).symm.trans (layout.cell_covers k b p right inRight).2.1
  subst orders
  exact ⟨head_unique left.2.2 right.2.2 (same_cell_trans inLeft (same_cell_symm inRight)), rfl⟩

-- The buddy of a cell below its top is never a point inside a larger cell: it
-- starts a cell of the same or a smaller order.
theorem buddy_starts_cell (k h : Nat) (cell : layout.Cell k h) (below : k < layout.top h) :
    layout.dom (buddy k h) ∧ layout.top (buddy k h) = layout.top h ∧
      layout.ord (buddy k h) ≤ k ∧ layout.Cell (layout.ord (buddy k h)) (buddy k h) := by
  obtain ⟨inDom, order, head⟩ := cell
  obtain ⟨buddyDom, buddyTop⟩ := layout.dom_of_cell (k + 1) h (buddy k h) inDom below (buddy_parent k h)
  have small : layout.ord (buddy k h) ≤ k := by
    by_contra large
    have inside : SameCell (layout.ord (buddy k h)) (buddy k h) h :=
      same_cell_mono (by omega) (same_cell_symm (buddy_parent k h))
    have equal := layout.ord_cell (buddy k h) h buddyDom inside
    omega
  exact ⟨buddyDom, buddyTop, small, buddyDom, rfl, is_head_mono small (buddy_head head)⟩

-- Recutting replaces everything inside one cell of order `c` by cells of order
-- `k` with one status. Splitting, merging and freeing are instances of it.
structure Cut (h c k : Nat) : Prop where
  inDom : layout.dom h
  within : c ≤ layout.top h
  finer : k ≤ c
  whole : ∀ p, SameCell c h p → layout.ord p ≤ c

open Classical in
noncomputable def recut (h c k : Nat) (status : Prop) (cut : layout.Cut h c k) : Layout where
  dom := layout.dom
  top := layout.top
  ord p := if SameCell c h p then k else layout.ord p
  free p := if SameCell c h p then status else layout.free p
  top_cell := layout.top_cell
  ord_le p inDom := by
    by_cases inside : SameCell c h p
    · have top := (layout.dom_of_cell c h p cut.inDom cut.within inside).2
      have finer := cut.finer
      have within := cut.within
      rw [if_pos inside]
      omega
    · rw [if_neg inside]
      exact layout.ord_le p inDom
  ord_cell p q inDom same := by
    by_cases inside : SameCell c h p
    · rw [if_pos inside] at same ⊢
      rw [if_pos (same_cell_trans inside (same_cell_mono cut.finer same))]
    · rw [if_neg inside] at same ⊢
      have equal := layout.ord_cell p q inDom same
      have outside : ¬ SameCell c h q := by
        intro member
        have bound := cut.whole q member
        exact inside (same_cell_trans member (same_cell_mono (by omega) (same_cell_symm same)))
      rw [if_neg outside, equal]
  free_cell p q inDom same := by
    by_cases inside : SameCell c h p
    · rw [if_pos inside] at same
      rw [if_pos inside, if_pos (same_cell_trans inside (same_cell_mono cut.finer same))]
    · rw [if_neg inside] at same
      have equal := layout.ord_cell p q inDom same
      have outside : ¬ SameCell c h q := by
        intro member
        have bound := cut.whole q member
        exact inside (same_cell_trans member (same_cell_mono (by omega) (same_cell_symm same)))
      rw [if_neg inside, if_neg outside]
      exact layout.free_cell p q inDom same

section Recut

variable {layout} {h c k : Nat} {status : Prop} (cut : layout.Cut h c k)

theorem recut_dom : (layout.recut h c k status cut).dom = layout.dom := rfl

theorem recut_ord_inside {p : Nat} (inside : SameCell c h p) : (layout.recut h c k status cut).ord p = k :=
  if_pos inside

theorem recut_ord_outside {p : Nat} (outside : ¬ SameCell c h p) :
    (layout.recut h c k status cut).ord p = layout.ord p := if_neg outside

theorem recut_free_inside {p : Nat} (inside : SameCell c h p) :
    (layout.recut h c k status cut).free p ↔ status := by
  show (if SameCell c h p then status else layout.free p) ↔ status
  rw [if_pos inside]

theorem recut_free_outside {p : Nat} (outside : ¬ SameCell c h p) :
    (layout.recut h c k status cut).free p ↔ layout.free p := by
  show (if SameCell c h p then status else layout.free p) ↔ layout.free p
  rw [if_neg outside]

theorem recut_cell_outside {j p : Nat} (outside : ¬ SameCell c h p) :
    (layout.recut h c k status cut).Cell j p ↔ layout.Cell j p := by
  unfold Cell
  rw [recut_dom, recut_ord_outside cut outside]

theorem recut_cell_inside {j p : Nat} (inside : SameCell c h p) :
    (layout.recut h c k status cut).Cell j p ↔ j = k ∧ IsHead k p := by
  have inDom := (layout.dom_of_cell c h p cut.inDom cut.within inside).1
  unfold Cell
  rw [recut_dom, recut_ord_inside cut inside]
  constructor
  · rintro ⟨_, rfl, head⟩
    exact ⟨rfl, head⟩
  · rintro ⟨rfl, head⟩
    exact ⟨inDom, rfl, head⟩

end Recut

-- New points may join a layout as taken cells of order 0.
open Classical in
noncomputable def adjoin (new : Nat → Prop) (newTop : Nat → Nat) (fresh : ∀ p, new p → ¬ layout.dom p)
    (closed : ∀ p q, new p → SameCell (newTop p) p q → new q ∧ newTop q = newTop p) : Layout where
  dom p := layout.dom p ∨ new p
  top p := if new p then newTop p else layout.top p
  ord p := if new p then 0 else layout.ord p
  free p := if new p then False else layout.free p
  top_cell p q inDom same := by
    by_cases newP : new p
    · rw [if_pos newP] at same ⊢
      obtain ⟨newQ, topQ⟩ := closed p q newP same
      exact ⟨.inr newQ, by rw [if_pos newQ, topQ]⟩
    · rw [if_neg newP] at same ⊢
      obtain ⟨domQ, topQ⟩ := layout.top_cell p q (inDom.resolve_right newP) same
      exact ⟨.inl domQ, by rw [if_neg fun newQ => fresh q newQ domQ, topQ]⟩
  ord_le p inDom := by
    by_cases newP : new p
    · simp only [if_pos newP, Nat.zero_le]
    · simp only [if_neg newP]
      exact layout.ord_le p (inDom.resolve_right newP)
  ord_cell p q inDom same := by
    by_cases newP : new p
    · rw [if_pos newP] at same ⊢
      have eq : p = q := same_cell_zero same
      rw [← eq, if_pos newP]
    · rw [if_neg newP] at same ⊢
      have old := inDom.resolve_right newP
      have domQ := (layout.dom_of_cell _ p q old (layout.ord_le p old) same).1
      rw [if_neg fun newQ => fresh q newQ domQ, layout.ord_cell p q old same]
  free_cell p q inDom same := by
    by_cases newP : new p
    · rw [if_pos newP] at same
      have eq : p = q := same_cell_zero same
      rw [← eq]
    · rw [if_neg newP] at same
      have old := inDom.resolve_right newP
      have domQ := (layout.dom_of_cell _ p q old (layout.ord_le p old) same).1
      rw [if_neg newP, if_neg fun newQ => fresh q newQ domQ]
      exact layout.free_cell p q old same

section Adjoin

variable {layout} {new : Nat → Prop} {newTop : Nat → Nat} (fresh : ∀ p, new p → ¬ layout.dom p)
  (closed : ∀ p q, new p → SameCell (newTop p) p q → new q ∧ newTop q = newTop p)

theorem adjoin_top_new {p : Nat} (isNew : new p) : (layout.adjoin new newTop fresh closed).top p = newTop p :=
  if_pos isNew

theorem adjoin_top_old {p : Nat} (inDom : layout.dom p) :
    (layout.adjoin new newTop fresh closed).top p = layout.top p := if_neg fun isNew => fresh p isNew inDom

theorem adjoin_free {p : Nat} (inDom : layout.dom p) :
    (layout.adjoin new newTop fresh closed).free p ↔ layout.free p := by
  unfold adjoin
  dsimp only
  rw [if_neg fun isNew => fresh p isNew inDom]

theorem adjoin_free_new {p : Nat} (isNew : new p) : ¬ (layout.adjoin new newTop fresh closed).free p := by
  unfold adjoin
  dsimp only
  rw [if_pos isNew]
  exact id

theorem adjoin_ord {p : Nat} (inDom : layout.dom p) :
    (layout.adjoin new newTop fresh closed).ord p = layout.ord p := if_neg fun isNew => fresh p isNew inDom

theorem adjoin_cell {k h : Nat} :
    (layout.adjoin new newTop fresh closed).Cell k h ↔ layout.Cell k h ∨ (new h ∧ k = 0) := by
  unfold Cell adjoin
  dsimp only
  by_cases isNew : new h
  · rw [if_pos isNew]
    constructor
    · rintro ⟨_, rfl, _⟩
      exact .inr ⟨isNew, rfl⟩
    · rintro (⟨inDom, _⟩ | ⟨_, rfl⟩)
      · exact absurd inDom (fresh h isNew)
      · exact ⟨.inr isNew, rfl, head_zero h⟩
  · rw [if_neg isNew, or_iff_left isNew, or_iff_left fun ⟨impossible, _⟩ => isNew impossible]

end Adjoin

theorem cut_cell (k h : Nat) (cell : layout.Cell k h) (j : Nat) (finer : j ≤ k) : layout.Cut h k j := by
  refine ⟨cell.1, ?_, finer, ?_⟩
  · have bound := layout.ord_le h cell.1
    have order := cell.2.1
    omega
  · intro p member
    exact Nat.le_of_eq (layout.cell_covers k h p cell member).2.1

-- Canonical layouts leave no two free buddies unmerged below their top.
def Canonical : Prop :=
  ∀ k h, layout.Cell k h → layout.free h → k < layout.top h →
    ¬ (layout.ord (buddy k h) = k ∧ layout.free (buddy k h))

theorem canonical_point (canonical : layout.Canonical) (p q : Nat) (inDom : layout.dom p) (free : layout.free p)
    (below : layout.ord p < layout.top p) (parent : SameCell (layout.ord p + 1) p q)
    (apart : ¬ SameCell (layout.ord p) p q) (order : layout.ord q = layout.ord p) : ¬ layout.free q := by
  intro freeQ
  have cell := layout.cell_at p inDom
  have same := cell_head_same (layout.ord p) p
  have covers := layout.cell_covers _ _ p cell same
  have topHead := (layout.dom_of_cell (layout.ord p) p _ inDom (by omega) (same_cell_symm same)).2
  have inParent := same_cell_trans (same_cell_mono (Nat.le_succ _) same) parent
  rcases parent_cells (layout.ord p) (cellHead (layout.ord p) p) q inParent with own | other
  · exact apart (same_cell_trans (same_cell_symm same) own)
  · have domQ := (layout.dom_of_cell (layout.ord p + 1) p q inDom below parent).1
    have toBuddy : SameCell (layout.ord q) q (buddy (layout.ord p) (cellHead (layout.ord p) p)) := by
      rw [order]
      exact same_cell_symm other
    have buddyOrder := layout.ord_cell q _ domQ toBuddy
    have buddyFree := (layout.free_cell q _ domQ toBuddy).mpr freeQ
    exact canonical _ _ cell (covers.2.2.mp free) (by omega) ⟨by omega, buddyFree⟩

-- Taking points out of the free set cannot create free buddies.
theorem canonical_of_taken (canonical : layout.Canonical) {h c k : Nat} (cut : layout.Cut h c k) :
    (layout.recut h c k False cut).Canonical := by
  intro j p cell free below ⟨order, buddyFree⟩
  by_cases inside : SameCell c h p
  · exact (recut_free_inside cut inside).mp free
  · by_cases buddyInside : SameCell c h (buddy j p)
    · exact (recut_free_inside cut buddyInside).mp buddyFree
    · rw [recut_ord_outside cut buddyInside] at order
      exact canonical j p ((recut_cell_outside cut inside).mp cell) ((recut_free_outside cut inside).mp free) below
        ⟨order, (recut_free_outside cut buddyInside).mp buddyFree⟩

theorem canonical_of_adjoin (canonical : layout.Canonical) {new : Nat → Prop} {newTop : Nat → Nat}
    (fresh : ∀ p, new p → ¬ layout.dom p)
    (closed : ∀ p q, new p → SameCell (newTop p) p q → new q ∧ newTop q = newTop p) :
    (layout.adjoin new newTop fresh closed).Canonical := by
  intro k h cell free below ⟨order, buddyFree⟩
  rcases (adjoin_cell fresh closed).mp cell with old | ⟨isNew, _⟩
  · rw [adjoin_top_old fresh closed old.1] at below
    have domB := (layout.dom_of_cell (k + 1) h (buddy k h) old.1 below (buddy_parent k h)).1
    rw [adjoin_ord fresh closed domB] at order
    exact canonical k h old ((adjoin_free fresh closed old.1).mp free) below
      ⟨order, (adjoin_free fresh closed domB).mp buddyFree⟩
  · exact adjoin_free_new fresh closed isNew free

theorem canonical_of_freed (canonical : layout.Canonical) {h k : Nat} (cell : layout.Cell k h)
    (settled : k < layout.top h → ¬ (layout.ord (buddy k h) = k ∧ layout.free (buddy k h))) :
    (layout.recut h k k True (layout.cut_cell k h cell k (Nat.le_refl k))).Canonical := by
  intro j p cellP freeP below ⟨order, buddyFree⟩
  by_cases inside : SameCell k h p
  · obtain ⟨rfl, headP⟩ := (recut_cell_inside _ inside).mp cellP
    have same := head_unique cell.2.2 headP inside
    subst same
    rw [recut_ord_outside _ (buddy_other_cell j h)] at order
    exact settled below ⟨order, (recut_free_outside _ (buddy_other_cell j h)).mp buddyFree⟩
  · have cellOld := (recut_cell_outside _ inside).mp cellP
    have freeOld := (recut_free_outside _ inside).mp freeP
    by_cases buddyInside : SameCell k h (buddy j p)
    · rw [recut_ord_inside _ buddyInside] at order
      subst order
      have same := head_unique cell.2.2 (buddy_head cellOld.2.2) buddyInside
      have back : buddy k h = p := by rw [same, buddy_buddy]
      have below : k < layout.top p := below
      have top := (layout.dom_of_cell (k + 1) p h cellOld.1 below (by rw [same]; exact buddy_parent k p)).2
      refine settled (by omega) ?_
      rw [back]
      exact ⟨cellOld.2.1, freeOld⟩
    · rw [recut_ord_outside _ buddyInside] at order
      exact canonical j p cellOld freeOld below ⟨order, (recut_free_outside _ buddyInside).mp buddyFree⟩

-- In a canonical layout a free run inside one top cell lies in one free cell:
-- were it cut into smaller cells, the smallest of them would meet a free buddy.
theorem free_run_in_cell (canonical : layout.Canonical) (n : Nat) :
    ∀ h, layout.dom h → n ≤ layout.top h → (∀ p, SameCell n h p → layout.free p) → n ≤ layout.ord h := by
  induction n with
  | zero => exact fun h _ _ _ => Nat.zero_le _
  | succ n ih =>
      intro h inDom within freeRun
      have freeLeft : ∀ p, SameCell n h p → layout.free p := fun p member =>
        freeRun p (same_cell_mono (Nat.le_succ n) member)
      have freeRight : ∀ p, SameCell n (buddy n h) p → layout.free p := fun p member =>
        freeRun p (same_cell_trans (buddy_parent n h) (same_cell_mono (Nat.le_succ n) member))
      obtain ⟨buddyDom, buddyTop⟩ := layout.dom_of_cell (n + 1) h (buddy n h) inDom within (buddy_parent n h)
      have left := ih h inDom (by omega) freeLeft
      have right := ih (buddy n h) buddyDom (by omega) freeRight
      by_contra small
      have orderLeft : layout.ord h = n := by omega
      by_cases larger : n + 1 ≤ layout.ord (buddy n h)
      · have back := layout.ord_cell (buddy n h) h buddyDom
          (same_cell_mono larger (same_cell_symm (buddy_parent n h)))
        omega
      · have orderRight : layout.ord (buddy n h) = layout.ord h := by omega
        refine layout.canonical_point canonical h (buddy n h) inDom (freeLeft h (same_cell_refl n h)) (by omega)
          ?_ ?_ orderRight (freeRight _ (same_cell_refl n _))
        · rw [orderLeft]
          exact buddy_parent n h
        · rw [orderLeft]
          exact buddy_other_cell n h

-- A maximal free run: it is free, and it fills its top cell or its parent is not
-- entirely free. This mentions the domain, the tops and the free set only.
def MaximalRun (dom : Nat → Prop) (top : Nat → Nat) (free : Nat → Prop) (k h : Nat) : Prop :=
  dom h ∧ IsHead k h ∧ k ≤ top h ∧ (∀ p, SameCell k h p → free p) ∧
    (k = top h ∨ ∃ p, SameCell (k + 1) h p ∧ ¬ free p)

theorem canonical_cells (canonical : layout.Canonical) (k h : Nat) :
    (layout.Cell k h ∧ layout.free h) ↔ MaximalRun layout.dom layout.top layout.free k h := by
  constructor
  · rintro ⟨cell, free⟩
    obtain ⟨inDom, order, head⟩ := cell
    have within := layout.ord_le h inDom
    refine ⟨inDom, head, by omega, ?_, ?_⟩
    · intro p member
      exact ((layout.cell_covers k h p ⟨inDom, order, head⟩ member).2.2).mpr free
    · by_cases full : k = layout.top h
      · exact .inl full
      · refine .inr ?_
        by_contra allFree
        have allFree : ∀ p, SameCell (k + 1) h p → layout.free p := fun p member =>
          Classical.byContradiction fun taken => allFree ⟨p, member, taken⟩
        have large := layout.free_run_in_cell canonical (k + 1) h inDom (by omega) allFree
        omega
  · rintro ⟨inDom, head, within, freeRun, maximal⟩
    have large := layout.free_run_in_cell canonical k h inDom within freeRun
    have free := freeRun h (same_cell_refl k h)
    have order : layout.ord h = k := by
      by_contra different
      have bound := layout.ord_le h inDom
      rcases maximal with full | ⟨p, member, taken⟩
      · omega
      · exact taken ((layout.free_cell h p inDom (same_cell_mono (by omega) member)).mpr free)
    exact ⟨⟨inDom, order, head⟩, free⟩

end Layout

end Dyadic
