import Elysium.Chain
import Elysium.IntrusiveList
import Mathlib.Data.Fin.VecNotation
import Mathlib.Data.Fintype.Card
import Mathlib.Algebra.Group.Nat.Defs

set_option autoImplicit false

namespace Elysium.IntrusiveList

open Chain (Linked)

-- A family of lists whose nodes come from one memory.
structure Family (L N : Type) where
  header : L → Header N
  links : Links N

inductive Op (L N : Type) where
  | pushFront (list : L) (node : N)
  | pushBack (list : L) (node : N)
  | popFront (list : L)
  | popBack (list : L)
  | append (list : L) (pos node : N)
  | prepend (list : L) (pos node : N)
  | delete (list : L) (node : N)

section Sequences

variable {N : Type} [DecidableEq N]

def insertAfter (pos node : N) : List N → List N
  | [] => []
  | other :: rest => if other = pos then pos :: node :: rest else other :: insertAfter pos node rest

def insertBefore (pos node : N) : List N → List N
  | [] => []
  | other :: rest => if other = pos then node :: pos :: rest else other :: insertBefore pos node rest

theorem insert_after_split {before : List N} {pos : N} (node : N) (after : List N) (absent : pos ∉ before) :
    insertAfter pos node (before ++ pos :: after) = before ++ pos :: node :: after := by
  induction before with
  | nil => exact if_pos rfl
  | cons other rest ih =>
      rw [List.mem_cons, not_or] at absent
      rw [List.cons_append, insertAfter, if_neg (Ne.symm absent.1), ih absent.2]
      rfl

theorem insert_before_split {before : List N} {pos : N} (node : N) (after : List N) (absent : pos ∉ before) :
    insertBefore pos node (before ++ pos :: after) = before ++ node :: pos :: after := by
  induction before with
  | nil => exact if_pos rfl
  | cons other rest ih =>
      rw [List.mem_cons, not_or] at absent
      rw [List.cons_append, insertBefore, if_neg (Ne.symm absent.1), ih absent.2]
      rfl

end Sequences

section Families

variable {L N : Type} [DecidableEq L] [DecidableEq N]

def Family.put (f : Family L N) (l : L) (made : Header N × Links N) : Family L N :=
  ⟨Function.update f.header l made.1, made.2⟩

-- One call, with the node a pop hands out. A failed assertion is none.
def perform (f : Family L N) : Op L N → Option (Family L N × Option N)
  | .pushFront l node => (listPushFront (f.header l) f.links node).map fun made => (f.put l made, none)
  | .pushBack l node => (listPushBack (f.header l) f.links node).map fun made => (f.put l made, none)
  | .popFront l =>
      let popped := listPopFront (f.header l) f.links
      some (f.put l popped.2, popped.1)
  | .popBack l =>
      let popped := listPopBack (f.header l) f.links
      some (f.put l popped.2, popped.1)
  | .append l pos node => some (f.put l (listNodeAppend (f.header l) f.links pos node), none)
  | .prepend l pos node => some (f.put l (listNodePrepend (f.header l) f.links pos node), none)
  | .delete l node => some (f.put l (listNodeDelete (f.header l) f.links node), none)

def performAll : List (Op L N) → Family L N → Option (Family L N × List (Option N))
  | [], f => some (f, [])
  | op :: rest, f => do
      let (f, result) ← perform f op
      let (f, results) ← performAll rest f
      return (f, result :: results)

-- The lists of an empty family, over whatever the memory held.
def Family.init (links : Links N) : Family L N := ⟨fun _ => Header.init, links⟩

namespace Op

-- A node goes in only when it is in no list, and a position or a node that comes
-- out is in the list that is named.
def Allowed (seqs : L → List N) : Op L N → Prop
  | .pushFront _ node => ∀ l, node ∉ seqs l
  | .pushBack _ node => ∀ l, node ∉ seqs l
  | .popFront _ => True
  | .popBack _ => True
  | .append list pos node => pos ∈ seqs list ∧ ∀ l, node ∉ seqs l
  | .prepend list pos node => pos ∈ seqs list ∧ ∀ l, node ∉ seqs l
  | .delete list node => node ∈ seqs list

def effect (seqs : L → List N) : Op L N → L → List N
  | .pushFront l node => Function.update seqs l (node :: seqs l)
  | .pushBack l node => Function.update seqs l (seqs l ++ [node])
  | .popFront l => Function.update seqs l (seqs l).tail
  | .popBack l => Function.update seqs l (seqs l).dropLast
  | .append l pos node => Function.update seqs l (insertAfter pos node (seqs l))
  | .prepend l pos node => Function.update seqs l (insertBefore pos node (seqs l))
  | .delete l node => Function.update seqs l ((seqs l).erase node)

def result (seqs : L → List N) : Op L N → Option N
  | .popFront l => (seqs l).head?
  | .popBack l => (seqs l).getLast?
  | _ => none

def AllAllowed : List (Op L N) → (L → List N) → Prop
  | [], _ => True
  | op :: rest, seqs => op.Allowed seqs ∧ AllAllowed rest (op.effect seqs)

def effects : List (Op L N) → (L → List N) → L → List N
  | [], seqs => seqs
  | op :: rest, seqs => effects rest (op.effect seqs)

def results : List (Op L N) → (L → List N) → List (Option N)
  | [], _ => []
  | op :: rest, seqs => op.result seqs :: results rest (op.effect seqs)

end Op

-- What a family has to do with the sequences it stands for.
structure Denotes (f : Family L N) (seqs : L → List N) : Prop where
  forth : ∀ l, Linked f.links.next (f.header l).head (seqs l)
  back : ∀ l, Linked f.links.prev (f.header l).tail (seqs l).reverse
  headless : ∀ l, (f.header l).head = none ↔ seqs l = []
  tailless : ∀ l, (f.header l).tail = none ↔ seqs l = []
  count : ∀ l, (f.header l).count = (seqs l).length
  once : ∀ l, (seqs l).Nodup
  apart : ∀ l l' node, node ∈ seqs l → node ∈ seqs l' → l = l'

structure Inv (f : Family L N) (seqs : L → List N) : Prop where
  formed : ∀ l, WellFormed (f.header l) f.links (seqs l)
  apart : ∀ l l' node, node ∈ seqs l → node ∈ seqs l' → l = l'

variable {f : Family L N} {seqs : L → List N} {l : L}

omit [DecidableEq N] in
theorem segment_linked {links : Links N} {before : Option N} {list : List N} (segment : Segment links before list none) :
    Linked links.next list.head? list := by
  induction list generalizing before with
  | nil => exact .nil
  | cons node rest ih =>
      obtain ⟨_, next, linked⟩ := segment
      rw [Option.or_none] at next
      exact .cons node rest (next ▸ ih linked)

omit [DecidableEq L] [DecidableEq N] in
theorem denotes_of_inv (inv : Inv f seqs) : Denotes f seqs where
  forth l := (inv.formed l).head ▸ segment_linked (inv.formed l).linked
  back l := by
    have turned := well_formed_flip (inv.formed l)
    have linked := segment_linked turned.linked
    rw [← turned.head] at linked
    exact linked
  headless l := by rw [(inv.formed l).head, List.head?_eq_none_iff]
  tailless l := by rw [(inv.formed l).tail, List.getLast?_eq_none_iff]
  count l := (inv.formed l).count
  once l := (inv.formed l).distinct
  apart := inv.apart

-- Nodes that an operation on a list may come across: its own and those in no list.
def Own (seqs : L → List N) (l : L) (node : N) : Prop := node ∈ seqs l ∨ ∀ l', node ∉ seqs l'

omit [DecidableEq L] [DecidableEq N] in
theorem not_own {l' : L} {node : N} (inv : Inv f seqs) (different : l' ≠ l) (member : node ∈ seqs l') : ¬ Own seqs l node := by
  rintro (own | absent)
  · exact different (inv.apart l' l node member own)
  · exact absent l' member

omit [DecidableEq N] in
theorem put_keeps {made : Header N × Links N} {new touched : List N} (inv : Inv f seqs) (form : WellFormed made.1 made.2 new)
    (same : SameLinks f.links made.2 touched) (near : ∀ node ∈ touched, Own seqs l node) (stays : ∀ node ∈ new, Own seqs l node) :
    Inv (f.put l made) (Function.update seqs l new) := by
  have others : ∀ l', l' ≠ l → ∀ node ∈ seqs l', ¬ Own seqs l node := fun l' different node member => not_own inv different member
  refine ⟨fun l' => ?_, fun first second node inFirst inSecond => ?_⟩
  · by_cases this : l' = l
    · subst this
      simp only [Family.put, Function.update_self]
      exact form
    · simp only [Family.put, Function.update_of_ne this]
      refine well_formed_of_eq (inv.formed l') fun node member => same node fun listed => ?_
      exact others l' this node member (near node listed)
  · by_cases isFirst : first = l <;> by_cases isSecond : second = l
    · rw [isFirst, isSecond]
    · rw [isFirst, Function.update_self] at inFirst
      rw [Function.update_of_ne isSecond] at inSecond
      exact absurd (stays node inFirst) (others second isSecond node inSecond)
    · rw [isSecond, Function.update_self] at inSecond
      rw [Function.update_of_ne isFirst] at inFirst
      exact absurd (stays node inSecond) (others first isFirst node inFirst)
    · rw [Function.update_of_ne isFirst] at inFirst
      rw [Function.update_of_ne isSecond] at inSecond
      exact inv.apart first second node inFirst inSecond

omit [DecidableEq N] in
-- The same for an operation that brings a node in.
theorem put_fresh {made : Header N × Links N} {new : List N} {node : N} (inv : Inv f seqs) (absent : ∀ l', node ∉ seqs l')
    (form : WellFormed made.1 made.2 new) (same : SameLinks f.links made.2 (node :: seqs l))
    (members : ∀ other, other ∈ new → other = node ∨ other ∈ seqs l) : Inv (f.put l made) (Function.update seqs l new) := by
  have own : ∀ other, other = node ∨ other ∈ seqs l → Own seqs l other := by
    rintro other (rfl | listed)
    · exact .inr absent
    · exact .inl listed
  exact put_keeps inv form same (fun other listed => own other (List.mem_cons.mp listed)) fun other listed => own other (members other listed)

omit [DecidableEq N] in
-- And for one that takes a node out.
theorem put_fewer {made : Header N × Links N} {new : List N} (inv : Inv f seqs) (form : WellFormed made.1 made.2 new)
    (same : SameLinks f.links made.2 (seqs l)) (members : ∀ other ∈ new, other ∈ seqs l) :
    Inv (f.put l made) (Function.update seqs l new) :=
  put_keeps inv form same (fun _ listed => .inl listed) fun other listed => .inl (members other listed)

omit [DecidableEq N] in
theorem put_same (f : Family L N) (l : L) : f.put l (f.header l, f.links) = f := by
  simp only [Family.put, Function.update_eq_self]

omit [DecidableEq N] in
theorem split_once {list : List N} {node : N} (distinct : list.Nodup) (member : node ∈ list) :
    ∃ before after, list = before ++ node :: after ∧ node ∉ before := by
  obtain ⟨before, after, rfl⟩ := List.append_of_mem member
  refine ⟨before, after, rfl, fun again => ?_⟩
  exact (List.nodup_append.mp distinct).2.2 node again node (List.mem_cons_self ..) rfl

theorem perform_keeps (op : Op L N) (inv : Inv f seqs) (allowed : op.Allowed seqs) :
    ∃ f', perform f op = some (f', op.result seqs) ∧ Inv f' (op.effect seqs) := by
  cases op with
  | pushFront l node =>
      obtain ⟨header', links', pushed, form, same⟩ := push_front_spec (inv.formed l) (allowed l)
      refine ⟨f.put l (header', links'), by rw [perform, pushed]; rfl, put_fresh inv allowed form same fun other listed => ?_⟩
      exact List.mem_cons.mp listed
  | pushBack l node =>
      obtain ⟨header', links', pushed, form, same⟩ := push_back_spec (inv.formed l) (allowed l)
      refine ⟨f.put l (header', links'), by rw [perform, pushed]; rfl, put_fresh inv allowed form same fun other listed => ?_⟩
      rw [List.mem_append, List.mem_singleton] at listed
      exact listed.symm
  | popFront l =>
      cases list : seqs l with
      | nil =>
          have empty : listPopFront (f.header l) f.links = (none, f.header l, f.links) := by
            rw [listPopFront, (inv.formed l).head, list]
            rfl
          have kept : Op.effect seqs (.popFront l) = seqs := by
            rw [Op.effect, list, List.tail_nil, ← list, Function.update_eq_self]
          rw [kept]
          exact ⟨f, by rw [perform, empty, put_same, Op.result, list]; rfl, inv⟩
      | cons node rest =>
          obtain ⟨header', links', popped, form, same⟩ := pop_front_spec (list ▸ inv.formed l)
          refine ⟨f.put l (header', links'), by rw [perform, popped, Op.result, list]; rfl, ?_⟩
          rw [Op.effect, list]
          exact put_fewer inv form (list ▸ same) fun other listed => list ▸ List.mem_cons_of_mem _ listed
  | popBack l =>
      cases List.eq_nil_or_concat (seqs l) with
      | inl list =>
          have empty : listPopBack (f.header l) f.links = (none, f.header l, f.links) := by
            rw [listPopBack, (inv.formed l).tail, list]
            rfl
          have kept : Op.effect seqs (.popBack l) = seqs := by
            rw [Op.effect, list, List.dropLast_nil, ← list, Function.update_eq_self]
          rw [kept]
          exact ⟨f, by rw [perform, empty, put_same, Op.result, list]; rfl, inv⟩
      | inr concat =>
          obtain ⟨front, node, list⟩ := concat
          rw [List.concat_eq_append] at list
          obtain ⟨header', links', popped, form, same⟩ := pop_back_spec (list ▸ inv.formed l)
          refine ⟨f.put l (header', links'), by rw [perform, popped, Op.result, list, List.getLast?_concat], ?_⟩
          rw [Op.effect, list, List.dropLast_concat]
          exact put_fewer inv form (list ▸ same) fun other listed => list ▸ List.mem_append_left _ listed
  | append l pos node =>
      obtain ⟨member, absent⟩ := allowed
      obtain ⟨before, after, list, first⟩ := split_once (inv.formed l).distinct member
      obtain ⟨header', links', appended, form, same⟩ := node_append_spec (list ▸ inv.formed l) (list ▸ absent l)
      refine ⟨f.put l (header', links'), by rw [perform, appended]; rfl, ?_⟩
      rw [Op.effect, list, insert_after_split node after first]
      refine put_fresh inv absent form (list ▸ same) fun other listed => ?_
      rw [list]
      simp only [List.mem_append, List.mem_cons] at listed ⊢
      tauto
  | prepend l pos node =>
      obtain ⟨member, absent⟩ := allowed
      obtain ⟨before, after, list, first⟩ := split_once (inv.formed l).distinct member
      obtain ⟨header', links', prepended, form, same⟩ := node_prepend_spec (list ▸ inv.formed l) (list ▸ absent l)
      refine ⟨f.put l (header', links'), by rw [perform, prepended]; rfl, ?_⟩
      rw [Op.effect, list, insert_before_split node after first]
      refine put_fresh inv absent form (list ▸ same) fun other listed => ?_
      rw [list]
      simp only [List.mem_append, List.mem_cons] at listed ⊢
      tauto
  | delete l node =>
      obtain ⟨before, after, list, first⟩ := split_once (inv.formed l).distinct allowed
      obtain ⟨header', links', deleted, form, same⟩ := node_delete_spec (list ▸ inv.formed l)
      refine ⟨f.put l (header', links'), by rw [perform, deleted]; rfl, ?_⟩
      rw [Op.effect, list, List.erase_append_right _ first, List.erase_cons_head]
      refine put_fewer inv form (list ▸ same) fun other listed => ?_
      rw [list]
      simp only [List.mem_append, List.mem_cons] at listed ⊢
      tauto

theorem perform_all_keeps (ops : List (Op L N)) (inv : Inv f seqs) (allowed : Op.AllAllowed ops seqs) :
    ∃ f', performAll ops f = some (f', Op.results ops seqs) ∧ Inv f' (Op.effects ops seqs) := by
  induction ops generalizing f seqs with
  | nil => exact ⟨f, rfl, inv⟩
  | cons op rest ih =>
      obtain ⟨first, later⟩ := allowed
      obtain ⟨f₁, performed, inv₁⟩ := perform_keeps op inv first
      obtain ⟨f₂, run, inv₂⟩ := ih inv₁ later
      refine ⟨f₂, ?_, inv₂⟩
      rw [performAll, performed]
      simp only [Option.bind_eq_bind, Option.bind_some, run]
      rfl

omit [DecidableEq L] [DecidableEq N] in
theorem inv_init (links : Links N) : Inv (Family.init links) fun _ : L => [] :=
  ⟨fun _ => well_formed_init links, fun _ _ _ member => absurd member (List.not_mem_nil)⟩

def Op.list : Op L N → L
  | .pushFront l _ => l
  | .pushBack l _ => l
  | .popFront l => l
  | .popBack l => l
  | .append l _ _ => l
  | .prepend l _ _ => l
  | .delete l _ => l

theorem effect_other (op : Op L N) (different : l ≠ op.list) : op.effect seqs l = seqs l := by
  cases op with
  | pushFront l' node => exact Function.update_of_ne different ..
  | pushBack l' node => exact Function.update_of_ne different ..
  | popFront l' => exact Function.update_of_ne different ..
  | popBack l' => exact Function.update_of_ne different ..
  | append l' pos node => exact Function.update_of_ne different ..
  | prepend l' pos node => exact Function.update_of_ne different ..
  | delete l' node => exact Function.update_of_ne different ..

theorem lists_refine_sequences (links : Links N) (ops : List (Op L N)) (allowed : Op.AllAllowed ops fun _ => []) :
    (∃ f, performAll ops (Family.init links) = some (f, Op.results ops fun _ => []) ∧
      Denotes f (Op.effects ops fun _ => [])) ∧
    ∀ (seqs : L → List N) (op : Op L N) (l : L), l ≠ op.list → op.effect seqs l = seqs l := by
  obtain ⟨f, run, inv⟩ := perform_all_keeps ops (inv_init links) allowed
  exact ⟨⟨f, run, denotes_of_inv inv⟩, fun _ op _ different => effect_other op different⟩

end Families

-- Two lists and the nodes 1, 2 and 3, of which 3 goes from one list to the other.
def sample : List (Op (Fin 2) Nat) :=
  let first : Fin 2 := ⟨0, Nat.two_pos⟩
  let second : Fin 2 := ⟨1, Nat.one_lt_two⟩
  [.pushBack first 1, .pushFront first 2, .append first 2 3, .popBack first, .delete first 3, .pushFront second 3, .prepend second 3 1]

theorem lists_refine_sequences_sample : ∃ f, performAll sample (Family.init ⟨fun _ => some 9, fun _ => some 9⟩) =
    some (f, [none, none, none, some 1, none, none, none]) ∧ Denotes f ![[2], [1, 3]] := by
  have allowed : Op.AllAllowed sample fun _ => [] := by
    simp only [sample, Op.AllAllowed, Op.Allowed, Op.effect]
    decide
  obtain ⟨⟨f, run, denotes⟩, _⟩ := lists_refine_sequences ⟨fun _ => some 9, fun _ => some 9⟩ sample allowed
  have left : Op.effects sample (fun _ => []) = ![[2], [1, 3]] := by decide
  exact ⟨f, run, left ▸ denotes⟩

section Addresses

-- A node is at an address of 64 bits that is not null, so no list outgrows count.
abbrev Address : Type := { a : Fin (2 ^ 64) // a ≠ 0 }

theorem count_fits {header : Header Address} {links : Links Address} {list : List Address} (form : WellFormed header links list) :
    header.count < 2 ^ 64 := by
  calc header.count = list.length := form.count
    _ ≤ Fintype.card Address := form.distinct.length_le_card
    _ < Fintype.card (Fin (2 ^ 64)) := Fintype.card_subtype_lt (x := 0) (by simp)
    _ = 2 ^ 64 := Fintype.card_fin _

end Addresses

end Elysium.IntrusiveList
