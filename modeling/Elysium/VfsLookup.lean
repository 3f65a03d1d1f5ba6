import Elysium.VfsMounts

set_option autoImplicit false

namespace Elysium.Fs

open Namespaces
open Transitions (Reachable execute reachable_execute)

section Components

def components (path : List UInt8) : List (List UInt8) := (path.splitOnP (· == slash)).filter (· ≠ [])

theorem components_nil : components [] = [] := rfl

theorem components_slash (rest : List UInt8) : components (slash :: rest) = components rest := by
  rw [components, List.splitOnP_cons_eq_if_modifyHead, if_pos (by rfl)]
  rfl

theorem components_single {component : List UInt8} (named : component ≠ []) (within : slash ∉ component) :
    components component = [component] := by
  rw [components, List.splitOnP_eq_singleton fun byte member => by
    rw [beq_eq_false_iff_ne]
    rintro rfl
    exact within member]
  rw [List.filter_cons_of_pos (by simpa using named)]
  rfl

theorem components_append {component : List UInt8} (named : component ≠ []) (within : slash ∉ component)
    (rest : List UInt8) : components (component ++ slash :: rest) = component :: components rest := by
  rw [components, List.splitOnP_append_cons_of_forall_mem (fun byte member => by
    rw [beq_eq_false_iff_ne]
    rintro rfl
    exact within member) slash (by rfl)]
  rw [List.filter_cons_of_pos (by simpa using named)]
  rfl

-- A leading part of a path that cuts no component in two.
def Cut (lead path : List UInt8) : Prop :=
  ∃ rest, path = lead ++ rest ∧ ∀ last next, lead.getLast? = some last → rest.head? = some next →
    last = slash ∨ next = slash

theorem cut_self (path : List UInt8) : Cut path path := by
  refine ⟨[], (List.append_nil path).symm, fun last next _ none_ => ?_⟩
  cases none_

theorem cut_component (component rest : List UInt8) : Cut component (component ++ slash :: rest) := by
  refine ⟨slash :: rest, rfl, fun last next _ first => .inr ?_⟩
  rw [List.head?_cons, Option.some.injEq] at first
  exact first.symm

theorem cut_after {lead path : List UInt8} (before : List UInt8) (cut : Cut lead path) :
    Cut (before ++ slash :: lead) (before ++ slash :: path) := by
  obtain ⟨rest, rfl, apart⟩ := cut
  refine ⟨rest, by rw [List.append_assoc, List.cons_append], fun last next ends first => ?_⟩
  cases lead with
  | nil =>
      rw [List.getLast?_concat, Option.some.injEq] at ends
      exact .inl ends.symm
  | cons byte lead =>
      refine apart last next ?_ first
      rwa [List.getLast?_append, List.getLast?_cons_cons, Option.or_of_isSome (by rw [List.getLast?_isSome]; simp)] at ends

theorem cut_nil (path : List UInt8) : Cut [] path := by
  refine ⟨path, rfl, fun last next none_ => ?_⟩
  cases none_

theorem cut_slash {lead path : List UInt8} (cut : Cut (slash :: lead) (slash :: path)) : Cut lead path := by
  obtain ⟨rest, same, apart⟩ := cut
  rw [List.cons_append, List.cons.injEq] at same
  refine ⟨rest, same.2, fun last next ends first => apart last next ?_ first⟩
  rw [List.getLast?_cons, ends, Option.getD_some]

theorem components_cut {lead path : List UInt8} (cut : Cut lead path) :
    ∃ more, components path = components lead ++ more := by
  obtain ⟨rest, rfl, apart⟩ := cut
  have divides : ∀ left right : List UInt8, components (left ++ slash :: right) = components left ++ components right := by
    intro left right
    rw [components, List.splitOnP_append_cons left right (by rfl), List.filter_append]
    rfl
  cases rest with
  | nil => exact ⟨[], by rw [List.append_nil, List.append_nil]⟩
  | cons next rest =>
      by_cases first : next = slash
      · rw [first]
        exact ⟨components rest, divides lead rest⟩
      · obtain rfl | ⟨before, last, rfl⟩ := List.eq_nil_or_concat lead
        · exact ⟨components (next :: rest), rfl⟩
        · obtain same | same := apart last next (by rw [List.concat_eq_append, List.getLast?_concat]) rfl
          · subst same
            refine ⟨components (next :: rest), ?_⟩
            rw [List.concat_eq_append, List.append_assoc, List.singleton_append, divides, divides before []]
            rw [components_nil, List.append_nil]
          · exact absurd same first

end Components

section Walk

variable (s : State)

-- The loop of a lookup that makes nothing.
def walk : List UInt8 → List UInt8 → Node → Except Stop Node
  | [], component, node =>
    if component = [] then crossMount s node else (lookupComponent s node component).bind (crossMount s)
  | byte :: rest, component, node =>
    if byte = slash then
      if component = [] then (crossMount s node).bind (walk rest [])
      else ((lookupComponent s node component).bind (crossMount s)).bind (walk rest [])
    else (crossMount s node).bind (walk rest (component ++ [byte]))

end Walk

theorem end_component_plain (s : State) (last : Bool) (current : Node) (component : List UInt8) :
    endComponent s .none false last current component = (lookupComponent s current component).map fun node => (node, s) := by
  rw [endComponent]
  cases lookupComponent s current component with
  | ok next => rfl
  | error stop =>
      cases stop with
      | error e =>
          dsimp only
          split <;> rfl
      | overrun => rfl
      | garbage => rfl

theorem lookup_loop_walk (s : State) {rest : List UInt8} {compEnd : Nat} (component : List UInt8) (current : Node)
    (short : compEnd + rest.length < intMax) :
    lookupLoop .none false rest s compEnd component current =
      (walk s rest component current).map fun node => (node, s) := by
  induction rest generalizing compEnd component current with
  | nil =>
      rw [lookupLoop, walk, if_neg (by simp only [List.length_nil] at short; omega), end_component_plain]
      split
      · rfl
      · cases lookupComponent s current component <;> rfl
  | cons byte rest ih =>
      rw [List.length_cons] at short
      have later := fun component' node => @ih (compEnd + 1) component' node (by omega)
      rw [lookupLoop, walk, if_neg (by omega), end_component_plain]
      split
      · split
        · cases crossMount s current with
          | error stop => rfl
          | ok node => exact later [] node
        · cases lookupComponent s current component with
          | error stop => rfl
          | ok next =>
              simp only [Except.map, Except.bind]
              cases crossMount s next with
              | error stop => rfl
              | ok node => exact later [] node
      · cases crossMount s current with
        | error stop => rfl
        | ok node => exact later _ node

section Agreement

variable {s : State}

theorem cross_mount_eq (s : State) (node : Node) : crossMount s node = cross (forest s) node := rfl

theorem cross_mount_bare {node : Node} (bare : s.mountedVfs node = none) : crossMount s node = .ok node :=
  cross_bare (F := forest s) bare

theorem lookup_component_error {node : Node} {component : List UInt8} {stop : Stop}
    (looked : s.lookup node component = .error stop) : lookupComponent s node component = .error stop := by
  rw [lookupComponent, looked]

theorem lookup_component_some {node next : Node} {component : List UInt8}
    (looked : s.lookup node component = .ok (some next)) : lookupComponent s node component = .ok next := by
  rw [lookupComponent, looked]

-- A second lookup of the parent has the same answer as the first.
theorem lookup_component_none {node : Node} {component : List UInt8} (looked : s.lookup node component = .ok none) :
    lookupComponent s node component = .ok node := by
  have up := lookup_up_only looked
  rw [lookupComponent, looked]
  dsimp only
  rw [← up, looked]
  split <;> rfl

theorem component_agrees (mounts : Mounts s) {node : Node} (component : List UInt8) (bare : s.mountedVfs node = none) :
    (lookupComponent s node component).bind (crossMount s) = follow (forest s) node component ↔
      (s.lookup node component = .ok none → OverRoot (forest s) node) ∧
      ∀ next, s.lookup node component = .ok (some next) → Shallow (forest s) next := by
  have layers := forest_layered mounts
  cases looked : s.lookup node component with
  | error stop =>
      rw [lookup_component_error looked, follow_error (F := forest s) looked]
      refine ⟨fun _ => ⟨fun none_ => ?_, fun _ some_ => ?_⟩, fun _ => rfl⟩
      · cases none_
      · cases some_
  | ok answer =>
      cases answer with
      | none =>
          rw [lookup_component_none looked, follow_none (F := forest s) looked]
          change cross (forest s) node = _ ↔ _
          rw [cross_bare (F := forest s) bare]
          refine ⟨fun same => ⟨fun _ => ?_, fun _ some_ => ?_⟩, fun clear => ?_⟩
          · exact (climb_enter layers bare (lookup_within looked)).mpr same.symm
          · cases some_
          · exact ((climb_enter layers bare (lookup_within looked)).mp (clear.1 rfl)).symm
      | some next =>
          rw [lookup_component_some looked, follow_some (F := forest s) looked]
          change cross (forest s) next = enter (forest s) next ↔ _
          rw [← enter_shallow layers]
          refine ⟨fun shallow => ⟨fun none_ => ?_, fun other same => ?_⟩, fun clear => clear.2 next rfl⟩
          · cases none_
          · rw [Except.ok.injEq, Option.some.injEq] at same
            exact same ▸ shallow

theorem bind_ok_eq {α β ε : Type} {value : Except ε α} {x : α} (done : value = .ok x) (f : α → Except ε β) :
    value.bind f = f x := by
  rw [done]
  rfl

theorem components_byte (component rest : List UInt8) (byte : UInt8) :
    component ++ byte :: rest = component ++ [byte] ++ rest := by
  rw [List.append_assoc, List.singleton_append]

theorem slash_fresh {component : List UInt8} {byte : UInt8} (within : slash ∉ component) (other : byte ≠ slash) :
    slash ∉ component ++ [byte] := by
  rw [List.mem_append, List.mem_singleton]
  rintro (member | same)
  · exact within member
  · exact other same.symm

-- At a node nothing is mounted on, with the bytes of a component read: where the way on is
-- clear, the loop goes where its labels lead.
theorem walk_clear (mounts : Mounts s) {rest : List UInt8} (component : List UInt8) {node : Node} (bare : s.mountedVfs node = none)
    (within : slash ∉ component) (clear : Clear (forest s) node (components (component ++ rest))) :
    walk s rest component node = followAll (forest s) (components (component ++ rest)) node := by
  have layers := forest_layered mounts
  have stays := cross_mount_bare bare
  induction rest generalizing component node with
  | nil =>
      rw [List.append_nil] at clear ⊢
      rw [walk]
      by_cases empty : component = []
      · rw [if_pos empty, empty, stays]
        rfl
      · rw [if_neg empty]
        rw [components_single empty within] at clear ⊢
        obtain ⟨up, down⟩ := clear.2 node stays
        rw [(component_agrees mounts component bare).mpr ⟨fun none_ => (up none_).1, down⟩]
        rw [followAll]
        cases follow (forest s) node component <;> rfl
  | cons byte rest ih =>
      rw [walk]
      by_cases divides : byte = slash
      · subst divides
        rw [if_pos rfl]
        by_cases empty : component = []
        · subst empty
          rw [List.nil_append, components_slash] at clear ⊢
          rw [if_pos rfl, bind_ok_eq stays]
          exact ih [] bare within clear stays
        · rw [if_neg empty]
          rw [components_append empty within] at clear ⊢
          obtain ⟨up, down⟩ := clear.2 node stays
          have agrees := (component_agrees mounts component bare).mpr
            ⟨fun none_ => (up none_).1, fun next some_ => clear_shallow (down next some_)⟩
          rw [agrees, followAll]
          cases followed : follow (forest s) node component with
          | error stop => rfl
          | ok next =>
              obtain ⟨bare', clear'⟩ := clear_follow layers bare clear followed
              exact ih [] bare' (List.not_mem_nil) clear' (cross_mount_bare bare')
      · rw [if_neg divides, bind_ok_eq stays]
        rw [components_byte component rest byte] at clear ⊢
        exact ih (component ++ [byte]) bare (slash_fresh within divides) clear stays

-- Conversely, where the loop agrees with the labels on every part of the path, the way is clear.
theorem walk_clear_only (mounts : Mounts s) {rest : List UInt8} (component : List UInt8) {node : Node}
    (bare : s.mountedVfs node = none) (within : slash ∉ component)
    (agree : ∀ lead, Cut (component ++ lead) (component ++ rest) →
      walk s lead component node = followAll (forest s) (components (component ++ lead)) node) :
    Clear (forest s) node (components (component ++ rest)) := by
  have layers := forest_layered mounts
  have stays := cross_mount_bare bare
  induction rest generalizing component node with
  | nil =>
      have whole := agree [] (cut_self _)
      rw [List.append_nil] at whole ⊢
      by_cases empty : component = []
      · subst empty
        exact shallow_bare (F := forest s) bare
      · rw [components_single empty within] at whole ⊢
        rw [walk, if_neg empty, followAll] at whole
        have agrees := (component_agrees mounts component bare).mp (by
          rw [whole]
          cases follow (forest s) node component <;> rfl)
        refine ⟨shallow_bare (F := forest s) bare, fun m crossed => ?_⟩
        obtain rfl := Except.ok.inj (stays.symm.trans crossed)
        exact ⟨fun none_ => ⟨agrees.1 none_, shallow_bare (F := forest s) bare⟩, agrees.2⟩
  | cons byte rest ih =>
      by_cases divides : byte = slash
      · subst divides
        by_cases empty : component = []
        · subst empty
          rw [List.nil_append, components_slash]
          refine ih [] bare within (fun lead cut => ?_) stays
          have longer := agree (slash :: lead) (cut_after [] cut)
          rw [walk, if_pos rfl, if_pos rfl, bind_ok_eq stays, List.nil_append, components_slash] at longer
          exact longer
        · rw [components_append empty within]
          have first := agree [] (by rw [List.append_nil]; exact cut_component component rest)
          rw [List.append_nil, components_single empty within, walk, if_neg empty, followAll] at first
          have agrees : (lookupComponent s node component).bind (crossMount s) = follow (forest s) node component := by
            rw [first]
            cases follow (forest s) node component <;> rfl
          obtain ⟨up, down⟩ := (component_agrees mounts component bare).mp agrees
          refine clear_of_follow layers bare up down (fun next followed => ?_)
          have bare' := follow_bare layers followed
          refine ih [] bare' List.not_mem_nil (fun lead cut => ?_) (cross_mount_bare bare')
          have longer := agree (slash :: lead) (cut_after component cut)
          rw [walk, if_pos rfl, if_neg empty, agrees, components_append empty within, followAll, followed] at longer
          exact longer
      · rw [components_byte component rest byte]
        refine ih (component ++ [byte]) bare (slash_fresh within divides) (fun lead cut => ?_) stays
        have longer := agree (byte :: lead) (by rw [components_byte component lead byte, components_byte component rest byte]; exact cut)
        rw [walk, if_neg divides, bind_ok_eq stays, components_byte component lead byte] at longer
        exact longer

theorem walk_start (mounts : Mounts s) {node : Node} (shallow : Shallow (forest s) node) (rest : List UInt8) :
    walk s rest [] node = (crossMount s node).bind (walk s rest []) := by
  have stays : ∀ m, crossMount s node = .ok m → crossMount s m = .ok m := fun m crossed =>
    cross_bare (F := forest s) (cross_clear_bare (forest_layered mounts) shallow crossed)
  cases rest with
  | nil =>
      rw [walk, if_pos rfl]
      cases crossed : crossMount s node with
      | error stop => rfl
      | ok m => exact (stays m crossed).symm
  | cons byte rest =>
      rw [walk]
      cases crossed : crossMount s node with
      | error stop => split <;> rfl
      | ok m =>
          change _ = walk s (byte :: rest) [] m
          rw [walk, stays m crossed]
          split <;> rfl

theorem walk_agrees (mounts : Mounts s) (node : Node) (path : List UInt8) :
    (∀ lead, Cut lead path → walk s lead [] node = resolve (forest s) node (components lead)) ↔
      Clear (forest s) node (components path) := by
  have layers := forest_layered mounts
  constructor
  · intro agree
    have shallow : Shallow (forest s) node := by
      have here := agree [] (cut_nil path)
      rw [components_nil, resolve, walk, if_pos rfl] at here
      refine (enter_shallow layers).mpr (here.trans ?_)
      cases enter (forest s) node <;> rfl
    refine (clear_cross layers).mpr ⟨shallow, fun m crossed => ?_⟩
    have bare := cross_clear_bare layers shallow crossed
    refine walk_clear_only mounts [] bare List.not_mem_nil (fun lead cut => ?_)
    have here := agree lead cut
    rw [walk_start mounts shallow, cross_mount_eq, bind_ok_eq crossed, resolve_cross layers shallow crossed,
      resolve_bare bare] at here
    exact here
  · intro clear lead cut
    obtain ⟨more, whole⟩ := components_cut cut
    rw [whole] at clear
    obtain ⟨shallow, rest⟩ := (clear_cross layers).mp (clear_append clear)
    rw [walk_start mounts shallow, cross_mount_eq, resolve, ← (enter_shallow layers).mp shallow]
    cases crossed : cross (forest s) node with
    | error stop => rfl
    | ok m =>
        have bare := cross_clear_bare layers shallow crossed
        exact walk_clear mounts [] bare List.not_mem_nil (rest m crossed)

end Agreement

section Results

-- An absolute path starts at the root, another one at the node that is given, where one is.
def startNode (s : State) (root : Option Node) (path : List UInt8) : Except Stop Node :=
  if path.head? = some slash then vfsRoot s else root.elim (vfsRoot s) .ok

-- The resolver a lookup is held against: component by component, into whatever is mounted on
-- the way, and from the root of a mounted file system to the parent of its mount point.
def reference (s : State) (root : Option Node) (path : List UInt8) : Except Stop Node :=
  (startNode s root path).bind fun node => resolve (forest s) node (components path)

def Agrees (s : State) (root : Option Node) (path : List UInt8) : Prop :=
  ∀ lead, Cut lead path → (lead.head? = some slash ↔ path.head? = some slash) →
    vfsLookup s root lead = reference s root lead

def Plain (s : State) (root : Option Node) (path : List UInt8) : Prop :=
  ∀ node, startNode s root path = .ok node →
    (root = none → path.head? = some slash) ∧ Clear (forest s) node (components path)

theorem vfs_lookup_absolute (s : State) (root : Option Node) {rest : List UInt8} (short : rest.length + 1 < intMax) :
    vfsLookup s root (slash :: rest) = (vfsRoot s).bind (walk s rest []) := by
  rw [vfsLookup, vfsLookupExt.eq_def, if_pos (.inl rfl)]
  cases vfsRoot s with
  | error stop => rfl
  | ok node =>
      simp only [Except.bind]
      rw [lookup_loop_walk s [] node (by omega)]
      cases walk s rest [] node <;> rfl

theorem vfs_lookup_relative (s : State) (node : Node) {path : List UInt8} (relative : path.head? ≠ some slash)
    (short : path.length < intMax) : vfsLookup s (some node) path = walk s path [] node := by
  rw [vfsLookup, vfsLookupExt.eq_def, if_neg (by rintro (head | none_); exact relative head; cases none_)]
  dsimp only
  rw [lookup_loop_walk s [] node (by omega)]
  cases walk s path [] node <;> rfl

theorem cut_head {lead path : List UInt8} (cut : Cut lead path) (kept : lead ≠ []) : lead.head? = path.head? := by
  obtain ⟨rest, rfl, _⟩ := cut
  cases lead with
  | nil => exact absurd rfl kept
  | cons byte lead => rfl

theorem agrees_absolute {s : State} (root : Option Node) {rest : List UInt8} (short : rest.length + 1 < intMax) :
    Agrees s root (slash :: rest) ↔ ∀ node, vfsRoot s = .ok node →
      ∀ lead, Cut lead rest → walk s lead [] node = resolve (forest s) node (components lead) := by
  have shorter : ∀ {lead}, Cut lead rest → lead.length + 1 < intMax := by
    rintro lead ⟨more, rfl, _⟩
    rw [List.length_append] at short
    omega
  have refers : ∀ lead, reference s root (slash :: lead) =
      (vfsRoot s).bind fun node => resolve (forest s) node (components lead) := by
    intro lead
    rw [reference, startNode, if_pos (by rfl), components_slash]
  constructor
  · intro agree node at_ lead cut
    have here := agree (slash :: lead) (cut_after [] cut) ⟨fun _ => rfl, fun _ => rfl⟩
    rwa [vfs_lookup_absolute s root (shorter cut), refers, at_] at here
  · intro agree lead cut same
    cases lead with
    | nil => exact absurd (same.mpr rfl) (by simp)
    | cons byte lead =>
        obtain rfl : byte = slash := Option.some.inj (same.mpr rfl)
        have cut' := cut_slash cut
        rw [vfs_lookup_absolute s root (shorter cut'), refers]
        cases at_ : vfsRoot s with
        | error stop => rfl
        | ok node => exact agree node at_ lead cut'

theorem agrees_relative {s : State} (node : Node) {path : List UInt8} (relative : path.head? ≠ some slash)
    (short : path.length < intMax) :
    Agrees s (some node) path ↔ ∀ lead, Cut lead path → walk s lead [] node = resolve (forest s) node (components lead) := by
  have alike : ∀ {lead}, Cut lead path → lead.head? ≠ some slash ∧ lead.length < intMax := by
    intro lead cut
    refine ⟨?_, ?_⟩
    · by_cases empty : lead = []
      · rw [empty]
        simp
      · rw [cut_head cut empty]
        exact relative
    · obtain ⟨more, rfl, _⟩ := cut
      rw [List.length_append] at short
      omega
  have refers : ∀ {lead : List UInt8}, lead.head? ≠ some slash →
      reference s (some node) lead = resolve (forest s) node (components lead) := by
    intro lead other
    rw [reference, startNode, if_neg other]
    rfl
  constructor
  · intro agree lead cut
    obtain ⟨other, within⟩ := alike cut
    have here := agree lead cut ⟨fun head => absurd head other, fun head => absurd head relative⟩
    rwa [vfs_lookup_relative s node other within, refers other] at here
  · intro agree lead cut _
    obtain ⟨other, within⟩ := alike cut
    rw [vfs_lookup_relative s node other within, refers other]
    exact agree lead cut

theorem root_node_garbage {s : State} {v : Nat} {stop : Stop} (at_ : s.rootNode v = .error stop) : stop = .garbage := by
  rw [State.rootNode] at at_
  split at at_
  · cases at_
  · cases at_
  · exact (Except.error.inj at_).symm

theorem enter_garbage {s : State} {fuel : Nat} {node : Node} {stop : Stop}
    (entered : enterFrom (forest s) fuel node = .error stop) : stop = .garbage := by
  induction fuel generalizing node with
  | zero => cases entered
  | succ fuel ih =>
      rw [enterFrom] at entered
      split at entered
      · cases entered
      · rename_i v _
        cases at_ : (forest s).root v with
        | error stop' =>
            rw [at_] at entered
            rw [← Except.error.inj entered]
            exact root_node_garbage at_
        | ok root =>
            rw [at_] at entered
            exact ih entered

-- Without a node to start from, a path that is not absolute loses its first byte, and an empty
-- one is read past its end.
theorem agrees_unanchored {s : State} {path : List UInt8} (relative : path.head? ≠ some slash) :
    Agrees s none path ↔ ∀ node, vfsRoot s ≠ .ok node := by
  constructor
  · intro agree node at_
    have here := agree [] (cut_nil path) ⟨fun head => (by cases head), fun head => absurd head relative⟩
    have passed : vfsLookup s none [] = .error .overrun := by
      rw [vfsLookup, vfsLookupExt.eq_def, if_pos (.inr rfl), at_]
      rfl
    rw [passed, reference, startNode, if_neg (by simp)] at here
    simp only [Option.elim_none, at_, components_nil, Except.bind, resolve] at here
    cases entered : enter (forest s) node with
    | error stop =>
        rw [entered] at here
        have garbage := enter_garbage entered
        rw [garbage] at here
        cases here
    | ok m =>
        rw [entered] at here
        cases here
  · intro nowhere lead _ _
    cases at_ : vfsRoot s with
    | ok node => exact absurd at_ (nowhere node)
    | error stop =>
        rw [vfsLookup, vfsLookupExt.eq_def, if_pos (.inr rfl), reference, startNode, Option.elim_none, ite_self, at_]
        rfl

theorem agrees_plain {s : State} (mounts : Mounts s) (root : Option Node) {path : List UInt8}
    (short : path.length < intMax) : Agrees s root path ↔ Plain s root path := by
  by_cases absolute : path.head? = some slash
  · obtain ⟨rest, rfl⟩ : ∃ rest, path = slash :: rest := List.head?_eq_some_iff.mp absolute
    rw [agrees_absolute root short, Plain, startNode, if_pos absolute, components_slash]
    refine forall_congr' fun node => forall_congr' fun _ => ?_
    rw [walk_agrees mounts node rest]
    exact ⟨fun clear => ⟨fun _ => absolute, clear⟩, fun both => both.2⟩
  · cases root with
    | none =>
        rw [agrees_unanchored absolute, Plain, startNode, if_neg absolute, Option.elim_none]
        refine forall_congr' fun node => forall_congr' fun _ => ?_
        exact ⟨fun no => absurd no (by simp), fun both => absolute (both.1 rfl)⟩
    | some node =>
        rw [agrees_relative node absolute short, walk_agrees mounts node path, Plain, startNode, if_neg absolute,
          Option.elim_some]
        constructor
        · intro clear node' same
          obtain rfl := Except.ok.inj same
          exact ⟨fun none_ => (by cases none_), clear⟩
        · intro plain
          exact (plain node rfl).2

theorem walk_append (s : State) (first rest component : List UInt8) (node : Node) :
    walk s (first ++ slash :: rest) component node = (walk s first component node).bind (walk s rest []) := by
  induction first generalizing component node with
  | nil =>
      rw [List.nil_append, walk, walk, if_pos rfl]
      split <;> rfl
  | cons byte first ih =>
      rw [List.cons_append, walk, walk]
      split
      · split
        · cases crossMount s node with
          | error stop => rfl
          | ok next => exact ih [] next
        · cases (lookupComponent s node component).bind (crossMount s) with
          | error stop => rfl
          | ok next => exact ih [] next
      · cases crossMount s node with
        | error stop => rfl
        | ok next => exact ih _ next

-- One component, read from a node nothing is mounted on.
theorem walk_name {s : State} {name component : List UInt8} {node : Node} (bare : s.mountedVfs node = none)
    (within : slash ∉ name) (named : component ++ name ≠ []) :
    walk s name component node = (lookupComponent s node (component ++ name)).bind (crossMount s) := by
  have stays := cross_mount_bare bare
  induction name generalizing component with
  | nil =>
      rw [List.append_nil] at named ⊢
      rw [walk, if_neg named]
  | cons byte name ih =>
      rw [List.mem_cons, not_or] at within
      rw [walk, if_neg (fun same => within.1 same.symm), bind_ok_eq stays, components_byte component name byte]
      exact ih within.2 (by rw [← components_byte component name byte]; exact named)

theorem cross_mount_rises {s : State} (mounts : Mounts s) {node next : Node} (crossed : crossMount s node = .ok next) :
    node.vfs ≤ next.vfs := by
  rw [crossMount] at crossed
  split at crossed
  · exact Nat.le_of_eq (congrArg Node.vfs (Except.ok.inj crossed))
  · rename_i v at_
    rw [root_node_vfs crossed]
    exact Nat.le_of_lt (mounts.later node v at_).1

theorem walk_rises {s : State} (mounts : Mounts s) {rest component : List UInt8} {node found : Node}
    (walked : walk s rest component node = .ok found) : node.vfs ≤ found.vfs := by
  have component_rises : ∀ {component node next},
      (lookupComponent s node component).bind (crossMount s) = .ok next → node.vfs ≤ next.vfs := by
    intro component node next done
    obtain ⟨reached, looked, crossed⟩ := except_bind_ok done
    rw [← lookup_component_vfs looked]
    exact cross_mount_rises mounts crossed
  induction rest generalizing component node with
  | nil =>
      rw [walk] at walked
      split at walked
      · exact cross_mount_rises mounts walked
      · exact component_rises walked
  | cons byte rest ih =>
      rw [walk] at walked
      split at walked
      · split at walked
        · obtain ⟨next, crossed, later⟩ := except_bind_ok walked
          exact Nat.le_trans (cross_mount_rises mounts crossed) (ih later)
        · obtain ⟨next, crossed, later⟩ := except_bind_ok walked
          exact Nat.le_trans (component_rises crossed) (ih later)
      · obtain ⟨next, crossed, later⟩ := except_bind_ok walked
        exact Nat.le_trans (cross_mount_rises mounts crossed) (ih later)

-- A directory listed in another under a name of its own.
structure SubDirectory (s : State) (dir : Node) (name : List UInt8) (child : Node) : Prop where
  named : name ≠ []
  single : slash ∉ name
  plain : name ≠ dot ∧ name ≠ dotdot
  listed : s.lookup dir name = .ok (some child)
  directory : s.type child = some .dir

-- Down into a directory and back up: the way back is lost where something is mounted on it.
theorem walk_there_and_back {s : State} (mounts : Mounts s) {dir child : Node} {name : List UInt8}
    (bare : s.mountedVfs dir = none) (sub : SubDirectory s dir name child) :
    walk s (name ++ slash :: dotdot) [] dir = .ok dir ↔ s.mountedVfs child = none := by
  have looked : walk s name [] dir = crossMount s child := by
    rw [walk_name bare sub.single (by rw [List.nil_append]; exact sub.named), List.nil_append,
      lookup_component_some sub.listed]
    rfl
  have vfs := lookup_vfs sub.listed
  rw [walk_append, looked]
  cases mounted : s.mountedVfs child with
  | none =>
      have up := lookup_child_up sub.plain sub.listed sub.directory
      rw [bind_ok_eq (cross_mount_bare mounted), walk_name mounted (by decide) (by decide), List.nil_append,
        lookup_component_some up]
      exact ⟨fun _ => rfl, fun _ => cross_mount_bare bare⟩
  | some v =>
      refine ⟨fun back => ?_, fun none_ => (by cases none_)⟩
      have later := (mounts.later child v mounted).1
      obtain ⟨root, crossed, back⟩ := except_bind_ok back
      have rises := walk_rises mounts back
      rw [crossMount, mounted] at crossed
      rw [root_node_vfs crossed] at rises
      omega

theorem plain_found_bare {s : State} (mounts : Mounts s) {root : Option Node} {path : List UInt8} {found : Node}
    (short : path.length < intMax) (plain : Plain s root path) (looked : vfsLookup s root path = .ok found) :
    s.mountedVfs found = none := by
  rw [(agrees_plain mounts root short).mpr plain path (cut_self path) Iff.rfl] at looked
  obtain ⟨node, _, resolved⟩ := except_bind_ok looked
  exact resolve_ends_bare (forest_layered mounts) resolved

theorem there_and_back {s : State} (mounts : Mounts s) {root : Option Node} {path name : List UInt8} {dir child : Node}
    (short : (path ++ slash :: (name ++ slash :: dotdot)).length < intMax) (nonempty : path ≠ [])
    (plain : Plain s root path) (looked : vfsLookup s root path = .ok dir) (sub : SubDirectory s dir name child) :
    vfsLookup s root (path ++ slash :: (name ++ slash :: dotdot)) = vfsLookup s root path ↔ s.mountedVfs child = none := by
  have shorter : path.length < intMax := by
    rw [List.length_append] at short
    omega
  have bare := plain_found_bare mounts shorter plain looked
  have back := walk_there_and_back mounts bare sub
  by_cases absolute : path.head? = some slash
  · obtain ⟨rest, rfl⟩ : ∃ rest, path = slash :: rest := List.head?_eq_some_iff.mp absolute
    rw [looked]
    rw [vfs_lookup_absolute s root shorter] at looked
    obtain ⟨node, at_, walked⟩ := except_bind_ok looked
    rw [List.cons_append] at short ⊢
    rw [vfs_lookup_absolute s root short, bind_ok_eq at_, walk_append, bind_ok_eq walked]
    exact back
  · cases root with
    | none =>
        cases at_ : vfsRoot s with
        | ok node => exact absurd ((plain node (by rw [startNode, if_neg absolute, Option.elim_none, at_])).1 rfl) absolute
        | error stop =>
            rw [vfsLookup, vfsLookupExt.eq_def, if_pos (.inr rfl), at_] at looked
            cases looked
    | some node =>
        have longer : (path ++ slash :: (name ++ slash :: dotdot)).head? ≠ some slash := by
          cases path with
          | nil => exact absurd rfl nonempty
          | cons byte path => exact absolute
        rw [looked]
        rw [vfs_lookup_relative s node absolute shorter] at looked
        rw [vfs_lookup_relative s node longer short, walk_append, bind_ok_eq looked]
        exact back

theorem lookup_resolves {s : State} (reach : Reachable Starts step s) (root : Option Node) (path : CString)
    (short : path.bytes.length < intMax) :
    (Agrees s root path.bytes ↔ Plain s root path.bytes) ∧
    ∀ before name dir child, path.bytes = before ++ slash :: (name ++ slash :: dotdot) → before ≠ [] →
      Plain s root before → vfsLookup s root before = .ok dir → SubDirectory s dir name child →
      (vfsLookup s root path.bytes = vfsLookup s root before ↔ s.mountedVfs child = none) := by
  have mounts := reachable_mounts reach
  refine ⟨agrees_plain mounts root short, ?_⟩
  intro before name dir child text nonempty plain looked sub
  rw [text] at short ⊢
  exact there_and_back mounts short nonempty plain looked sub

-- The name space init builds: a ramdisk with a directory "tmp", and a tmpfs mounted on it.
def sysroot : RdskImage :=
  ⟨⟨0x101, 1, [0, 116, 109, 112, 0], [⟨0, 0, 2, 0, 0⟩, ⟨1, 0, 0, 0, 1⟩], []⟩, by decide⟩

def slashTmp : CString := ⟨[47, 116, 109, 112], by decide⟩

def rootDir : Node := ⟨0, .rdskDir 1⟩

def tmpDir : Node := ⟨0, .rdskDir 2⟩

def booted : State :=
  ⟨[⟨.rdsk sysroot, none⟩, ⟨.tmpfs tmpfsMount, some tmpDir⟩], Function.update (fun _ => none) tmpDir (some 1)⟩

theorem booted_reachable : Reachable Starts step booted := by
  have run : execute step [.mount (.rdsk sysroot) none, .mount .tmpfs (some slashTmp)] start = some booted := rfl
  exact reachable_execute (.start start rfl) run

-- "//tmp/.."
def tmpAndBack : CString := ⟨[47, 47, 116, 109, 112, 47, 46, 46], by decide⟩

theorem booted_root_plain : Plain booted none [slash] := by
  intro node at_
  obtain rfl : rootDir = node := Except.ok.inj at_
  refine ⟨fun _ => rfl, ?_⟩
  exact shallow_bare (F := forest booted) rfl

theorem booted_tmp_sub : SubDirectory booted rootDir [116, 109, 112] tmpDir :=
  ⟨by decide, by decide, by decide, rfl, rfl⟩

theorem lookup_resolves_booted :
    (Agrees booted none tmpAndBack.bytes ↔ Plain booted none tmpAndBack.bytes) ∧
    vfsLookup booted none tmpAndBack.bytes ≠ vfsLookup booted none [slash] := by
  have resolves := lookup_resolves booted_reachable none tmpAndBack (by decide)
  refine ⟨resolves.1, fun same => ?_⟩
  have unmounted := (resolves.2 [slash] [116, 109, 112] rootDir tmpDir rfl (by decide) booted_root_plain rfl booted_tmp_sub).mp same
  exact absurd unmounted (by decide)

theorem tmp_parent_is_tmp :
    Reachable Starts step booted ∧
    vfsLookup booted none [47, 116, 109, 112, 47, 46, 46] = .ok ⟨1, .tmpfs 0⟩ ∧
    reference booted none [47, 116, 109, 112, 47, 46, 46] = .ok rootDir ∧
    vfsLookup booted none [47] = .ok rootDir :=
  ⟨booted_reachable, rfl, rfl, rfl⟩

end Results

end Elysium.Fs
