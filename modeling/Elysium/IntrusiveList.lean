import Mathlib.Logic.Function.Basic
import Mathlib.Data.List.Induction
import Mathlib.Data.List.Nodup

set_option autoImplicit false

namespace Elysium.IntrusiveList

-- Intrusive doubly linked lists: the nodes are in other structures, a header has the ends.
structure Links (N : Type) where
  next : N → Option N
  prev : N → Option N

structure Header (N : Type) where
  count : Nat
  head : Option N
  tail : Option N
deriving DecidableEq

def Header.init {N : Type} : Header N := ⟨0, none, none⟩

section Operations

variable {N : Type} [DecidableEq N]

def Links.setNext (links : Links N) (node : N) (link : Option N) : Links N :=
  { links with next := Function.update links.next node link }

def Links.setPrev (links : Links N) (node : N) (link : Option N) : Links N :=
  { links with prev := Function.update links.prev node link }

-- The operations of list.c; a failed assertion is none.
def listInitialNode (list : Header N) (links : Links N) (node : N) : Option (Header N × Links N) :=
  if list.count = 0 then some (⟨1, some node, some node⟩, (links.setNext node none).setPrev node none) else none

def listNodeAppend (list : Header N) (links : Links N) (pos node : N) : Header N × Links N :=
  let links := (links.setNext node (links.next pos)).setPrev node (some pos)
  let links := links.setNext pos (some node)
  let links := match links.next node with
    | none => links
    | some other => links.setPrev other (some node)
  (⟨list.count + 1, list.head, if list.tail = some pos then some node else list.tail⟩, links)

def listNodePrepend (list : Header N) (links : Links N) (pos node : N) : Header N × Links N :=
  let links := (links.setNext node (some pos)).setPrev node (links.prev pos)
  let links := links.setPrev pos (some node)
  let links := match links.prev node with
    | none => links
    | some other => links.setNext other (some node)
  (⟨list.count + 1, if list.head = some pos then some node else list.head, list.tail⟩, links)

def listNodeDelete (list : Header N) (links : Links N) (node : N) : Header N × Links N :=
  let head := if list.head = some node then links.next node else list.head
  let tail := if list.tail = some node then links.prev node else list.tail
  let links := match links.prev node with
    | none => links
    | some other => links.setNext other (links.next node)
  let links := match links.next node with
    | none => links
    | some other => links.setPrev other (links.prev node)
  (⟨list.count - 1, head, tail⟩, links)

def listPushFront (list : Header N) (links : Links N) (node : N) : Option (Header N × Links N) :=
  match list.head with
  | none => if list.tail = none then listInitialNode list links node else none
  | some pos => if list.count ≠ 0 then some (listNodePrepend list links pos node) else none

def listPushBack (list : Header N) (links : Links N) (node : N) : Option (Header N × Links N) :=
  match list.tail with
  | none => if list.head = none then listInitialNode list links node else none
  | some pos => if list.count ≠ 0 then some (listNodeAppend list links pos node) else none

def listPopFront (list : Header N) (links : Links N) : Option N × Header N × Links N :=
  match list.head with
  | none => (none, list, links)
  | some node => (some node, listNodeDelete list links node)

def listPopBack (list : Header N) (links : Links N) : Option N × Header N × Links N :=
  match list.tail with
  | none => (none, list, links)
  | some node => (some node, listNodeDelete list links node)

end Operations

section Lists

variable {N : Type}

-- A stretch of a list, between the node before it and the one after.
def Segment (links : Links N) : Option N → List N → Option N → Prop
  | _, [], _ => True
  | before, node :: rest, after =>
      links.prev node = before ∧ links.next node = rest.head?.or after ∧ Segment links (some node) rest after

theorem segment_append {links : Links N} {before after : Option N} {first later : List N} :
    Segment links before (first ++ later) after ↔
      Segment links before first (later.head?.or after) ∧ Segment links (first.getLast?.or before) later after := by
  induction first generalizing before with
  | nil => simp [Segment]
  | cons node rest ih =>
      have last : ((node :: rest).getLast?).or before = rest.getLast?.or (some node) := by
        rw [List.getLast?_cons]
        cases rest.getLast? with
        | none => rfl
        | some last => rfl
      have head : ((rest ++ later).head?).or after = rest.head?.or (later.head?.or after) := by
        cases rest with
        | nil => rfl
        | cons other others => rfl
      rw [List.cons_append, Segment, Segment, ih, last, head]
      simp only [and_assoc]

theorem segment_of_eq {links links' : Links N} {before after : Option N} {list : List N}
    (same : ∀ node ∈ list, links'.next node = links.next node ∧ links'.prev node = links.prev node)
    (segment : Segment links before list after) : Segment links' before list after := by
  induction list generalizing before with
  | nil => exact trivial
  | cons node rest ih =>
      obtain ⟨prev, next, tail⟩ := segment
      have kept := same node (List.mem_cons_self ..)
      exact ⟨kept.2.trans prev, kept.1.trans next, ih (fun other member => same other (List.mem_cons_of_mem _ member)) tail⟩

structure WellFormed (header : Header N) (links : Links N) (list : List N) : Prop where
  distinct : list.Nodup
  linked : Segment links none list none
  head : header.head = list.head?
  tail : header.tail = list.getLast?
  count : header.count = list.length

theorem well_formed_init (links : Links N) : WellFormed Header.init links [] := ⟨List.nodup_nil, trivial, rfl, rfl, rfl⟩

theorem well_formed_of_eq {header : Header N} {links links' : Links N} {list : List N} (form : WellFormed header links list)
    (same : ∀ node ∈ list, links'.next node = links.next node ∧ links'.prev node = links.prev node) :
    WellFormed header links' list :=
  ⟨form.distinct, segment_of_eq same form.linked, form.head, form.tail, form.count⟩

-- The links of all nodes but these are as they were.
def SameLinks (links links' : Links N) (nodes : List N) : Prop :=
  ∀ node, node ∉ nodes → links'.next node = links.next node ∧ links'.prev node = links.prev node

variable [DecidableEq N] {header : Header N} {links : Links N} {list : List N} {node : N}

theorem initial_node_spec (node : N) (form : WellFormed header links []) :
    ∃ header' links', listInitialNode header links node = some (header', links') ∧ WellFormed header' links' [node] ∧
      SameLinks links links' [node] := by
  refine ⟨_, _, if_pos form.count, ⟨List.nodup_singleton node, ?_, rfl, rfl, rfl⟩, ?_⟩
  · exact ⟨Function.update_self .., Function.update_self .., trivial⟩
  · intro other absent
    have different : other ≠ node := fun same => absent (List.mem_singleton.mpr same)
    exact ⟨Function.update_of_ne different .., Function.update_of_ne different ..⟩

-- The stretch before a gap is linked to what comes after it.
omit [DecidableEq N] in
theorem segment_relink_last {links' : Links N} {before after after' : Option N}
    (prev : ∀ node ∈ list, links'.prev node = links.prev node) (next : ∀ node ∈ list.dropLast, links'.next node = links.next node)
    (last : ∀ node ∈ list.getLast?, links'.next node = after') (segment : Segment links before list after) :
    Segment links' before list after' := by
  cases List.eq_nil_or_concat list with
  | inl nil => rw [nil]; exact trivial
  | inr concat =>
      obtain ⟨front, node, rfl⟩ := concat
      rw [List.concat_eq_append] at *
      rw [List.dropLast_concat] at next
      rw [List.getLast?_concat] at last
      obtain ⟨linked, back, _⟩ := segment_append.mp segment
      refine segment_append.mpr ⟨segment_of_eq (fun other member => ⟨next other member, prev other (by simp [member])⟩) linked, ?_⟩
      exact ⟨(prev node (by simp)).trans back, last node rfl, trivial⟩

omit [DecidableEq N] in
theorem segment_relink_first {links' : Links N} {before before' after : Option N}
    (next : ∀ node ∈ list, links'.next node = links.next node) (prev : ∀ node ∈ list.tail, links'.prev node = links.prev node)
    (first : ∀ node ∈ list.head?, links'.prev node = before') (segment : Segment links before list after) :
    Segment links' before' list after := by
  cases list with
  | nil => exact trivial
  | cons node rest =>
      obtain ⟨_, forth, linked⟩ := segment
      refine ⟨first node rfl, (next node (List.mem_cons_self ..)).trans forth, ?_⟩
      exact segment_of_eq (fun other member => ⟨next other (List.mem_cons_of_mem _ member), prev other member⟩) linked

theorem append_next (header : Header N) (links : Links N) (pos node other : N) :
    (listNodeAppend header links pos node).2.next other =
      if other = pos then some node else if other = node then links.next pos else links.next other := by
  have second : ∀ (l : Links N) (link : Option N),
      (match link with | none => l | some other => l.setPrev other (some node)).next = l.next := by
    intro l link
    cases link with
    | none => rfl
    | some other => rfl
  unfold listNodeAppend
  dsimp only
  rw [second]
  simp only [Links.setNext, Links.setPrev, Function.update_apply]

theorem append_prev (header : Header N) (links : Links N) {pos node : N} (apart : pos ≠ node) (other : N) :
    (listNodeAppend header links pos node).2.prev other =
      if links.next pos = some other then some node else if other = node then some pos else links.prev other := by
  have written : (((links.setNext node (links.next pos)).setPrev node (some pos)).setNext pos (some node)).next node =
      links.next pos := by
    simp [Links.setNext, Links.setPrev, Function.update_of_ne (Ne.symm apart)]
  simp only [listNodeAppend, written]
  cases links.next pos with
  | none => simp [Links.setNext, Links.setPrev, Function.update_apply]
  | some following =>
      simp only [Links.setNext, Links.setPrev, Function.update_apply, Option.some.injEq]
      by_cases same : other = following
      · simp [same]
      · simp [same, Ne.symm same]

theorem node_append_spec {before after : List N} {pos : N} (form : WellFormed header links (before ++ pos :: after))
    (fresh : node ∉ before ++ pos :: after) :
    ∃ header' links', listNodeAppend header links pos node = (header', links') ∧
      WellFormed header' links' (before ++ pos :: node :: after) ∧ SameLinks links links' (node :: before ++ pos :: after) := by
  obtain ⟨distinct, linked, head, tail, count⟩ := form
  obtain ⟨linkedBefore, prev, next, linkedAfter⟩ := segment_append.mp linked
  rw [Option.or_none] at next
  simp only [List.mem_append, List.mem_cons, not_or] at fresh
  obtain ⟨notBefore, notPos, notAfter⟩ := fresh
  have apart : pos ≠ node := Ne.symm notPos
  obtain ⟨distinctBefore, distinctRest, separate⟩ := List.nodup_append.mp distinct
  obtain ⟨outside, distinctAfter⟩ := List.nodup_cons.mp distinctRest
  have following : ∀ {other}, links.next pos = some other → other ∈ after := fun found =>
    List.mem_of_mem_head? (next ▸ found)
  have forward := append_next header links pos node
  have backward := append_prev header links apart
  refine ⟨(listNodeAppend header links pos node).1, (listNodeAppend header links pos node).2, rfl, ⟨?_, ?_, ?_, ?_, ?_⟩, ?_⟩
  · refine List.nodup_append.mpr ⟨distinctBefore, List.nodup_cons.mpr ⟨?_, List.nodup_cons.mpr ⟨notAfter, distinctAfter⟩⟩, ?_⟩
    · rw [List.mem_cons, not_or]
      exact ⟨apart, outside⟩
    · intro a member b listed
      rcases List.mem_cons.mp listed with rfl | listed
      · exact separate a member b (List.mem_cons_self ..)
      · rcases List.mem_cons.mp listed with rfl | listed
        · exact fun same => notBefore (same ▸ member)
        · exact separate a member b (List.mem_cons_of_mem _ listed)
  · refine segment_append.mpr ⟨segment_of_eq (fun other member => ?_) linkedBefore, ?_, ?_, ?_, ?_, ?_⟩
    · have notThis : other ≠ pos := separate other member pos (List.mem_cons_self ..)
      have notNew : other ≠ node := fun same => notBefore (same ▸ member)
      have notNext : links.next pos ≠ some other := fun found =>
        separate other member other (List.mem_cons_of_mem _ (following found)) rfl
      rw [forward, backward, if_neg notThis, if_neg notNew, if_neg notNext, if_neg notNew]
      exact ⟨rfl, rfl⟩
    · have notNext : links.next pos ≠ some pos := fun found => outside (following found)
      rw [backward, if_neg notNext, if_neg apart]
      exact prev
    · rw [forward, if_pos rfl]
      rfl
    · have notNext : links.next pos ≠ some node := fun found => notAfter (following found)
      rw [backward, if_neg notNext, if_pos rfl]
    · rw [forward, if_neg notPos, if_pos rfl, next, Option.or_none]
    · refine segment_relink_first (fun other member => ?_) (fun other member => ?_) (fun first member => ?_) linkedAfter
      · have notThis : other ≠ pos := fun same => outside (same ▸ member)
        have notNew : other ≠ node := fun same => notAfter (same ▸ member)
        rw [forward, if_neg notThis, if_neg notNew]
      · have notNew : other ≠ node := fun same => notAfter (same ▸ List.mem_of_mem_tail member)
        have notNext : links.next pos ≠ some other := by
          intro found
          cases after with
          | nil => cases member
          | cons first rest =>
              have same : first = other := Option.some.inj (next.symm.trans found)
              exact (List.nodup_cons.mp distinctAfter).1 (same ▸ member)
        rw [backward, if_neg notNext, if_neg notNew]
      · rw [backward, if_pos (next.trans member)]
  · cases before with
    | nil => simpa [listNodeAppend] using head
    | cons first rest => simpa [listNodeAppend] using head
  · -- The node is the new tail when it follows the old one.
    cases after using List.reverseRecOn with
    | nil => simp [listNodeAppend, tail]
    | append_singleton rest last =>
        have different : last ≠ pos := fun same => outside (by simp [← same])
        rw [← List.cons_append, ← List.append_assoc, List.getLast?_concat] at tail
        rw [← List.cons_append, ← List.cons_append, ← List.append_assoc, List.getLast?_concat]
        simp [listNodeAppend, tail, different]
  · simp only [listNodeAppend, count, List.length_append, List.length_cons]
    omega
  · intro other absent
    simp only [List.mem_append, List.mem_cons, not_or, List.cons_append] at absent
    obtain ⟨notNew, _, notThis, away⟩ := absent
    have notNext : links.next pos ≠ some other := fun found => away (following found)
    rw [forward, backward, if_neg notThis, if_neg notNew, if_neg notNext, if_neg notNew]
    exact ⟨rfl, rfl⟩

section Flip

-- The same list, read from its tail.
def Links.flip (links : Links N) : Links N := ⟨links.prev, links.next⟩

def Header.flip (header : Header N) : Header N := ⟨header.count, header.tail, header.head⟩

omit [DecidableEq N]

theorem segment_flip {before after : Option N} (segment : Segment links before list after) :
    Segment links.flip after list.reverse before := by
  induction list generalizing before with
  | nil => exact trivial
  | cons node rest ih =>
      obtain ⟨prev, next, linked⟩ := segment
      rw [List.reverse_cons]
      refine segment_append.mpr ⟨ih linked, ?_, prev, trivial⟩
      rw [List.getLast?_reverse]
      exact next

theorem well_formed_flip (form : WellFormed header links list) : WellFormed header.flip links.flip list.reverse where
  distinct := List.nodup_reverse.mpr form.distinct
  linked := segment_flip form.linked
  head := by rw [List.head?_reverse]; exact form.tail
  tail := by rw [List.getLast?_reverse]; exact form.head
  count := by rw [List.length_reverse]; exact form.count

end Flip

theorem node_prepend_flip (header : Header N) (links : Links N) (pos node : N) :
    listNodePrepend header links pos node =
      ((listNodeAppend header.flip links.flip pos node).1.flip, (listNodeAppend header.flip links.flip pos node).2.flip) := by
  have turned : ∀ (l : Links N) (link : Option N), (match link with | none => l | some other => l.setNext other (some node)) =
      (match link with | none => l.flip | some other => l.flip.setPrev other (some node)).flip := by
    intro l link
    cases link with
    | none => rfl
    | some other => rfl
  unfold listNodePrepend
  dsimp only
  rw [turned]
  rfl

theorem node_prepend_spec {before after : List N} {pos : N} (form : WellFormed header links (before ++ pos :: after))
    (fresh : node ∉ before ++ pos :: after) :
    ∃ header' links', listNodePrepend header links pos node = (header', links') ∧
      WellFormed header' links' (before ++ node :: pos :: after) ∧ SameLinks links links' (node :: before ++ pos :: after) := by
  have turned : (before ++ pos :: after).reverse = after.reverse ++ pos :: before.reverse := by simp
  have flipped := well_formed_flip form
  rw [turned] at flipped
  have absent : node ∉ after.reverse ++ pos :: before.reverse := by
    rw [← turned, List.mem_reverse]
    exact fresh
  obtain ⟨header', links', appended, form', same⟩ := node_append_spec flipped absent
  refine ⟨header'.flip, links'.flip, by rw [node_prepend_flip, appended], ?_, fun other absent => ?_⟩
  · have back := well_formed_flip form'
    simpa using back
  · have away : other ∉ node :: (after.reverse ++ pos :: before.reverse) := by
      rw [← turned]
      rw [List.cons_append] at absent
      simpa only [List.mem_cons, List.mem_reverse] using absent
    have kept := same other away
    exact ⟨kept.2, kept.1⟩

theorem push_back_spec (form : WellFormed header links list) (fresh : node ∉ list) :
    ∃ header' links', listPushBack header links node = some (header', links') ∧ WellFormed header' links' (list ++ [node]) ∧
      SameLinks links links' (node :: list) := by
  cases List.eq_nil_or_concat list with
  | inl nil =>
      subst nil
      obtain ⟨header', links', pushed, form', same⟩ := initial_node_spec node form
      refine ⟨header', links', ?_, form', same⟩
      rw [listPushBack, form.tail, form.head]
      exact (if_pos rfl).trans pushed
  | inr concat =>
      obtain ⟨front, pos, rfl⟩ := concat
      rw [List.concat_eq_append] at form fresh ⊢
      obtain ⟨header', links', appended, form', same⟩ := node_append_spec form fresh
      have filled : header.count ≠ 0 := by simp [form.count]
      refine ⟨header', links', ?_, by rw [List.append_assoc]; exact form', same⟩
      rw [listPushBack, form.tail, List.getLast?_concat]
      exact (if_pos filled).trans (congrArg some appended)

theorem push_front_spec (form : WellFormed header links list) (fresh : node ∉ list) :
    ∃ header' links', listPushFront header links node = some (header', links') ∧ WellFormed header' links' (node :: list) ∧
      SameLinks links links' (node :: list) := by
  cases list with
  | nil =>
      obtain ⟨header', links', pushed, form', same⟩ := initial_node_spec node form
      refine ⟨header', links', ?_, form', same⟩
      rw [listPushFront, form.head, form.tail]
      exact (if_pos rfl).trans pushed
  | cons pos rest =>
      have split : WellFormed header links ([] ++ pos :: rest) := form
      obtain ⟨header', links', prepended, form', same⟩ := node_prepend_spec split fresh
      have filled : header.count ≠ 0 := by simp [form.count]
      refine ⟨header', links', ?_, form', same⟩
      rw [listPushFront, form.head]
      exact (if_pos filled).trans (congrArg some prepended)

theorem delete_next (header : Header N) (links : Links N) (node : N) (other : N) :
    (listNodeDelete header links node).2.next other =
      if links.prev node = some other then links.next node else links.next other := by
  have second : ∀ (l : Links N) (link link' : Option N),
      (match link with | none => l | some other => l.setPrev other link').next = l.next := by
    intro l link link'
    cases link with
    | none => rfl
    | some other => rfl
  cases back : links.prev node with
  | none => simp [listNodeDelete, back, second]
  | some previous =>
      simp only [listNodeDelete, back, second, Option.some.injEq]
      by_cases same : previous = other
      · simp [same, Links.setNext]
      · simp [same, Links.setNext, Function.update_of_ne (Ne.symm same)]

theorem delete_prev (header : Header N) (links : Links N) (node : N) (other : N) :
    (listNodeDelete header links node).2.prev other =
      if links.next node = some other then links.prev node else links.prev other := by
  have first : ∀ (link link' : Option N) (other : N),
      (match link with | none => links | some other => links.setNext other link').prev other = links.prev other := by
    intro link link' other
    cases link with
    | none => rfl
    | some other => rfl
  have kept : (match links.prev node with | none => links | some other => links.setNext other (links.next node)).next node =
      links.next node := by
    cases links.prev node with
    | none => rfl
    | some previous =>
        by_cases same : node = previous
        · simp [Links.setNext, ← same]
        · simp [Links.setNext, Function.update_of_ne same]
  simp only [listNodeDelete, kept]
  cases forth : links.next node with
  | none => simp [first]
  | some following =>
      by_cases same : other = following
      · simp [same, Links.setPrev, first]
      · simp [Ne.symm same, Links.setPrev, Function.update_of_ne same, first]

theorem node_delete_spec {before after : List N} (form : WellFormed header links (before ++ node :: after)) :
    ∃ header' links', listNodeDelete header links node = (header', links') ∧ WellFormed header' links' (before ++ after) ∧
      SameLinks links links' (before ++ node :: after) := by
  obtain ⟨distinct, linked, head, tail, count⟩ := form
  obtain ⟨linkedBefore, prev, next, linkedAfter⟩ := segment_append.mp linked
  have back : links.prev node = before.getLast? := by simpa using prev
  have forth : links.next node = after.head? := by simpa using next
  obtain ⟨distinctBefore, distinctAfter, apart⟩ := List.nodup_append.mp distinct
  obtain ⟨outside, distinctAfter⟩ := List.nodup_cons.mp distinctAfter
  have inBefore : ∀ other ∈ after.head?, other ∉ before := fun other first member =>
    apart other member other (List.mem_cons_of_mem _ (List.mem_of_mem_head? first)) rfl
  have inAfter : ∀ other ∈ before.getLast?, other ∉ after := fun other last member =>
    apart other (List.mem_of_getLast? last) other (List.mem_cons_of_mem _ member) rfl
  refine ⟨(listNodeDelete header links node).1, (listNodeDelete header links node).2, rfl,
    ⟨?_, segment_append.mpr ⟨?_, ?_⟩, ?_, ?_, ?_⟩, ?_⟩
  · exact List.nodup_append.mpr ⟨distinctBefore, distinctAfter, fun first member second listed =>
      apart first member second (List.mem_cons_of_mem _ listed)⟩
  · -- The nodes before it.
    refine segment_relink_last (fun other member => ?_) (fun other member => ?_) (fun last member => ?_) linkedBefore
    · rw [delete_prev, if_neg fun same => inBefore other (forth.symm.trans same) member]
    · rw [delete_next, if_neg fun same => ?_]
      have last : before = before.dropLast ++ [other] := (List.dropLast_append_getLast? other (back ▸ same)).symm
      rw [last] at distinctBefore
      exact (List.nodup_append.mp distinctBefore).2.2 other (by simpa using member) other (List.mem_singleton_self other) rfl
    · rw [delete_next, if_pos (back.trans member), forth]
      simp
  · -- The nodes after it.
    refine segment_relink_first (fun other member => ?_) (fun other member => ?_) (fun first member => ?_) linkedAfter
    · rw [delete_next, if_neg fun same => inAfter other (back.symm.trans same) member]
    · rw [delete_prev, if_neg fun same => ?_]
      cases after with
      | nil => cases member
      | cons first rest =>
          have found : first = other := Option.some.inj (forth.symm.trans same)
          exact (List.nodup_cons.mp distinctAfter).1 (found ▸ member)
    · rw [delete_prev, if_pos (forth.trans member), back]
      simp
  · -- The head.
    cases before with
    | nil => simp [listNodeDelete, head, forth]
    | cons first rest =>
        have different : first ≠ node := apart first (List.mem_cons_self ..) node (List.mem_cons_self ..)
        simp [listNodeDelete, head, different]
  · cases after using List.reverseRecOn with
    | nil => simp [listNodeDelete, tail, back]
    | append_singleton rest last =>
        have different : last ≠ node := fun same => outside (by simp [← same])
        rw [← List.cons_append, ← List.append_assoc, List.getLast?_concat] at tail
        rw [← List.append_assoc, List.getLast?_concat]
        simp [listNodeDelete, tail, different]
  · simp [listNodeDelete, count]
  · intro other absent
    have notLast : links.prev node ≠ some other := fun same =>
      absent (List.mem_append_left _ (List.mem_of_getLast? (back ▸ same)))
    have notFirst : links.next node ≠ some other := fun same =>
      absent (List.mem_append_right _ (List.mem_cons_of_mem _ (List.mem_of_mem_head? (forth ▸ same))))
    rw [delete_next, delete_prev, if_neg notLast, if_neg notFirst]
    exact ⟨rfl, rfl⟩

theorem pop_front_spec (form : WellFormed header links (node :: list)) :
    ∃ header' links', listPopFront header links = (some node, header', links') ∧ WellFormed header' links' list ∧
      SameLinks links links' (node :: list) := by
  have split : WellFormed header links ([] ++ node :: list) := form
  obtain ⟨header', links', deleted, form', same⟩ := node_delete_spec split
  exact ⟨header', links', by rw [listPopFront, form.head, ← deleted]; rfl, form', same⟩

theorem pop_back_spec (form : WellFormed header links (list ++ [node])) :
    ∃ header' links', listPopBack header links = (some node, header', links') ∧ WellFormed header' links' list ∧
      SameLinks links links' (list ++ [node]) := by
  obtain ⟨header', links', deleted, form', same⟩ := node_delete_spec form
  rw [List.append_nil] at form'
  exact ⟨header', links', by rw [listPopBack, form.tail, List.getLast?_concat, ← deleted], form', same⟩

end Lists

end Elysium.IntrusiveList
