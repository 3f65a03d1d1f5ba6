import Elysium.TmpfsMap
import Elysium.VfsLookup
import Elysium.VfsTable

set_option autoImplicit false

namespace Elysium.Fs

open Transitions (Reachable reachable_invariant execute reachable_execute)

section Making

theorem make_ok {s s' : State} {type : VfsNodeType} {node made : Node} {name : List UInt8}
    (done : s.make type node name = .ok (made, s')) :
    ∃ info i c info', s.data node.vfs = some (.tmpfs info) ∧ node.data = .tmpfs i ∧ tmpfsMake type info i name = .ok (c, info') ∧
      made = ⟨node.vfs, .tmpfs c⟩ ∧ s'.mountedVfs = s.mountedVfs ∧
      ∀ v, s'.data v = if v = node.vfs then some (.tmpfs info') else s.data v := by
  rw [State.make] at done
  split at done
  · rename_i info i data at_
    split at done
    · cases done
    · rename_i c info' made_
      rw [Except.ok.injEq, Prod.mk.injEq] at done
      obtain ⟨rfl, rfl⟩ := done
      refine ⟨info, i, c, info', data, at_, made_, rfl, rfl, fun v => ?_⟩
      rw [State.data, List.getElem?_modify]
      by_cases here : v = node.vfs
      · subst here
        rw [State.data] at data
        obtain ⟨vfs, there, _⟩ := Option.map_eq_some_iff.mp data
        rw [there, if_pos rfl]
        simp
      · rw [if_neg here, State.data]
        cases s.all[v]? with
        | none => rfl
        | some vfs => simp [Ne.symm here]
  · cases done
  · cases done
  · cases done

theorem tmpfs_make_types {type kind : VfsNodeType} {info info' : TmpfsInfo} {i c j : Nat} {name : List UInt8}
    (made : tmpfsMake type info i name = .ok (c, info')) (was : (info.nodes[j]?).map (·.type) = some kind) :
    (info'.nodes[j]?).map (·.type) = some kind := by
  obtain ⟨_, _, _, _, _, nodes⟩ := tmpfs_make_ok made
  obtain ⟨node, at_, same⟩ := Option.map_eq_some_iff.mp was
  obtain ⟨now, there, _, kept⟩ := grown_keeps i type name at_
  rw [nodes, there, Option.map_some, kept, same]

-- What is made leaves every node its type.
theorem make_types {s s' : State} {type kind : VfsNodeType} {node made other : Node} {name : List UInt8}
    (done : s.make type node name = .ok (made, s')) (was : s.type other = some kind) : s'.type other = some kind := by
  obtain ⟨info, i, c, info', data, _, made_, _, _, now⟩ := make_ok done
  rw [State.type, now]
  by_cases here : other.vfs = node.vfs
  · rw [State.type, here, data] at was
    rw [if_pos here]
    cases which : other.data with
    | tmpfs j =>
        rw [which] at was
        exact tmpfs_make_types made_ was
    | rdskDir j =>
        rw [which] at was
        cases was
    | rdskFile j =>
        rw [which] at was
        cases was
  · rw [if_neg here]
    exact was

theorem mounted_types {s : State} {ops : VfsOps} {point : Option Node} {node : Node} {kind : VfsNodeType}
    (was : s.type node = some kind) : (mounted s ops point).type node = some kind := by
  have within : node.vfs < s.all.length := by
    rw [State.type] at was
    split at was
    · exact data_within (by assumption)
    · exact data_within (by assumption)
    · exact data_within (by assumption)
    · cases was
  rw [State.type, mounted_data, if_neg (Nat.ne_of_lt within)]
  exact was

-- Where something is mounted there is a directory.
def MountedDirs (s : State) : Prop := ∀ node v, s.mountedVfs node = some v → s.type node = some .dir

theorem make_mounted_dirs {s s' : State} {type : VfsNodeType} {node made : Node} {name : List UInt8} (dirs : MountedDirs s)
    (done : s.make type node name = .ok (made, s')) : MountedDirs s' := by
  obtain ⟨_, _, _, _, _, _, _, _, same, _⟩ := make_ok done
  intro point v at_
  rw [same] at at_
  exact make_types done (dirs point v at_)

theorem mounted_dirs {s : State} {ops : VfsOps} {path : Option (List UInt8)} {point : Option Node} (dirs : MountedDirs s)
    (accepts : Accepts s path point) : MountedDirs (mounted s ops point) := by
  intro node v at_
  refine mounted_types ?_
  cases accepts with
  | first => exact dirs node v at_
  | on path place _ _ dir _ =>
      by_cases here : node = place
      · exact here ▸ dir
      · dsimp only [mounted] at at_
        rw [Function.update_of_ne here] at at_
        exact dirs node v at_

theorem step_mounted_dirs {call : Call} {s s' : State} (dirs : MountedDirs s) (taken : step call s = some s') : MountedDirs s' := by
  cases call with
  | mount ops path =>
      rw [mount_call_step] at taken
      cases run : vfsMountCall s ops (path.map (·.bytes)) with
      | error stop =>
          rw [run] at taken
          cases taken
      | ok pair =>
          obtain ⟨result, after⟩ := pair
          rw [run] at taken
          obtain rfl : after = s' := Option.some.inj taken
          obtain ⟨_, _, same⟩ | ⟨point, accepts, _, same⟩ := mount_call_cases run
          · exact same ▸ dirs
          · rw [same]
            exact mounted_dirs dirs accepts
  | make type root path name =>
      obtain rfl | done := settle_cases taken
      · exact dirs
      obtain ⟨⟨node, after⟩, made, rfl⟩ := except_map_ok done
      obtain ⟨_, _, made⟩ := except_bind_ok made
      exact make_mounted_dirs dirs made
  | lookup root path create exclusive =>
      obtain rfl | done := settle_cases taken
      · exact dirs
      obtain ⟨⟨node, after⟩, looked, rfl⟩ := except_map_ok done
      exact lookup_ext_keeps make_mounted_dirs dirs looked

theorem reachable_mounted_dirs {s : State} (reach : Reachable Starts step s) : MountedDirs s := by
  refine reachable_invariant (fun _ first => ?_) (fun _ _ _ dirs taken => step_mounted_dirs dirs taken) reach
  intro node v at_
  rw [show _ = start from first] at at_
  cases at_

end Making

section Writable

-- File systems that mkdir and mkfile work on.
def Writable (s : State) : Prop := ∀ vfs ∈ s.all, ∃ info, vfs.data = .tmpfs info

def Placed (s : State) (node : Node) : Prop :=
  ∃ info i, s.data node.vfs = some (.tmpfs info) ∧ node.data = .tmpfs i ∧ i < info.nodes.length

theorem writable_data {s : State} (writable : Writable s) {v : Nat} (within : v < s.all.length) :
    ∃ info, s.data v = some (.tmpfs info) := by
  obtain ⟨info, same⟩ := writable s.all[v] (List.getElem_mem within)
  exact ⟨info, by rw [State.data, List.getElem?_eq_getElem within, Option.map_some, same]⟩

theorem placed_of_type {s : State} (writable : Writable s) {node : Node} (there : (s.type node).isSome = true) : Placed s node := by
  have within : node.vfs < s.all.length := by
    rw [State.type] at there
    split at there
    · exact data_within (by assumption)
    · exact data_within (by assumption)
    · exact data_within (by assumption)
    · cases there
  obtain ⟨info, data⟩ := writable_data writable within
  rw [State.type, data] at there
  cases which : node.data with
  | tmpfs i =>
      rw [which] at there
      exact ⟨info, i, data, which, by simpa using there⟩
  | rdskDir i =>
      rw [which] at there
      cases there
  | rdskFile i =>
      rw [which] at there
      cases there

theorem tmpfs_lookup_inside {info : TmpfsInfo} {i : Nat} (inside : i < info.nodes.length) (name : List UInt8) :
    (∃ answer, tmpfsLookup info i name = .ok answer ∧ ∀ c, answer = some c → c < info.nodes.length) ∨
    (info.nodes[i]).type ≠ .dir ∧ tmpfsLookup info i name = .error (.error .notDir) ∨
    tmpfsLookup info i name = .error (.error .notFound) := by
  rw [tmpfsLookup, List.getElem?_eq_getElem inside]
  dsimp only
  split
  · exact .inr (.inl ⟨by assumption, rfl⟩)
  · split
    · exact .inl ⟨_, rfl, fun c same => Option.some.inj same ▸ inside⟩
    · split
      · refine .inl ⟨_, rfl, fun p up => ?_⟩
        have before := info.tree.parent i _ p (List.getElem?_eq_getElem inside) up
        omega
      · split
        · exact .inr (.inr rfl)
        · rename_i c found
          refine .inl ⟨_, rfl, fun c' same => ?_⟩
          obtain ⟨child, there, _⟩ := dir_find_child (List.getElem?_eq_getElem inside) found
          rw [Option.some.injEq] at same
          exact same ▸ (List.getElem?_eq_some_iff.mp there).1

theorem placed_lookup {s : State} {node : Node} (placed : Placed s node) (name : List UInt8) :
    (∃ answer, s.lookup node name = .ok answer ∧ ∀ next, answer = some next → Placed s next) ∨
    s.type node ≠ some .dir ∧ s.lookup node name = .error (.error .notDir) ∨
    s.lookup node name = .error (.error .notFound) := by
  obtain ⟨info, i, data, at_, inside⟩ := placed
  rw [State.lookup, State.type, data, at_]
  dsimp only
  obtain ⟨answer, looked, within⟩ | ⟨other, looked⟩ | looked := tmpfs_lookup_inside inside name
  · refine .inl ⟨_, by rw [looked]; rfl, fun next same => ?_⟩
    obtain ⟨c, found, rfl⟩ := Option.map_eq_some_iff.mp same
    exact ⟨info, c, data, rfl, within c found⟩
  · refine .inr (.inl ⟨fun dir => other ?_, by rw [looked]; rfl⟩)
    rw [List.getElem?_eq_getElem inside, Option.map_some, Option.some.injEq] at dir
    exact dir
  · exact .inr (.inr (by rw [looked]; rfl))

theorem placed_component {s : State} {node : Node} (placed : Placed s node) (component : List UInt8) :
    (∃ next, lookupComponent s node component = .ok next ∧ Placed s next) ∨
    ∃ e, lookupComponent s node component = .error (.error e) ∧ e ≠ .exists_ := by
  obtain ⟨answer, looked, within⟩ | ⟨_, looked⟩ | looked := placed_lookup placed component
  · cases answer with
    | none => exact .inl ⟨node, lookup_component_none looked, placed⟩
    | some next => exact .inl ⟨next, lookup_component_some looked, within next rfl⟩
  · exact .inr ⟨.notDir, lookup_component_error looked, by decide⟩
  · exact .inr ⟨.notFound, lookup_component_error looked, by decide⟩

theorem placed_root {s : State} (writable : Writable s) {v : Nat} (within : v < s.all.length) :
    ∃ root, s.rootNode v = .ok root ∧ Placed s root := by
  obtain ⟨info, data⟩ := writable_data writable within
  obtain ⟨top, there, _⟩ := info.tree.root
  exact ⟨⟨v, .tmpfs 0⟩, by rw [State.rootNode, data], info, 0, data, rfl, (List.getElem?_eq_some_iff.mp there).1⟩

theorem placed_cross {s : State} (writable : Writable s) (mounts : Mounts s) {node : Node} (placed : Placed s node) :
    ∃ next, crossMount s node = .ok next ∧ Placed s next := by
  rw [crossMount]
  cases at_ : s.mountedVfs node with
  | none => exact ⟨node, rfl, placed⟩
  | some v => exact placed_root writable (mounts.later node v at_).2

-- A name that a directory does not list is made in it, as a node there was not before.
theorem make_new {s : State} {dir : Node} {name : List UInt8} (placed : Placed s dir)
    (absent : s.lookup dir name = .error (.error .notFound)) (type : VfsNodeType) :
    ∃ made s', s.make type dir name = .ok (made, s') ∧ s'.lookup dir name = .ok (some made) ∧ s'.type made = some type ∧
      s.type made = none := by
  obtain ⟨info, i, data, at_, inside⟩ := placed
  have looked : tmpfsLookup info i name = .error (.error .notFound) := by
    rw [State.lookup, data, at_] at absent
    cases looked : tmpfsLookup info i name with
    | ok answer =>
        simp only [looked] at absent
        cases absent
    | error stop =>
        simp only [looked] at absent
        rw [Except.error.inj absent]
  obtain ⟨_, plain, _⟩ := tmpfs_absent inside looked
  have made := tmpfs_make_absent inside looked type
  obtain ⟨s', done⟩ : ∃ s', s.make type dir name = .ok (⟨dir.vfs, .tmpfs info.nodes.length⟩, s') := by
    rw [State.make, data, at_]
    dsimp only
    rw [made]
    exact ⟨_, rfl⟩
  have now : s'.data dir.vfs = some (.tmpfs (makeTmpfsNode info i inside type name)) := by
    obtain ⟨info', i', c, info'', data', at_', made', _, _, now⟩ := make_ok done
    rw [data, Option.some.injEq, VfsData.tmpfs.injEq] at data'
    rw [at_, NodeData.tmpfs.injEq] at at_'
    subst data' at_'
    rw [made, Except.ok.injEq, Prod.mk.injEq] at made'
    rw [now, if_pos rfl, made'.2]
  refine ⟨_, s', done, ?_, ?_, ?_⟩
  · rw [State.lookup, now, at_]
    dsimp only
    rw [tmpfs_made_found plain made]
    rfl
  · rw [State.type, now]
    dsimp only
    rw [show (makeTmpfsNode info i inside type name).nodes = grown info.nodes i type name from rfl, grown_new]
    rfl
  · rw [State.type, data]
    dsimp only
    rw [List.getElem?_eq_none (Nat.le_refl _)]
    rfl

end Writable

section Approaching

-- The way to the last component of a path, as a lookup goes it: the directory it is to be looked up in, and its name.
def approachFrom (s : State) : List UInt8 → List UInt8 → Node → Except Stop (Node × List UInt8)
  | [], component, node => .ok (node, component)
  | byte :: rest, component, node =>
    if byte = slash then
      if component = [] then (crossMount s node).bind (approachFrom s rest [])
      else if components rest = [] then .ok (node, component)
      else ((lookupComponent s node component).bind (crossMount s)).bind (approachFrom s rest [])
    else (crossMount s node).bind (approachFrom s rest (component ++ [byte]))

-- The bytes that the loop reads.
def loopText (root : Option Node) (path : List UInt8) : List UInt8 :=
  if path.head? = some slash ∨ root = none then path.tail else path

def loopStart (s : State) (root : Option Node) (path : List UInt8) : Except Stop Node :=
  if path.head? = some slash ∨ root = none then vfsRoot s else root.elim (.error .garbage) .ok

def approach (s : State) (root : Option Node) (path : List UInt8) : Except Stop (Node × List UInt8) :=
  (loopStart s root path).bind (approachFrom s (loopText root path) [])

-- What exclusive creation is to do. A result without a state leaves it as it was.
def CreatesNew (s : State) (root : Option Node) (path : List UInt8) (type : VfsNodeType) (result : Except Stop (Node × State)) : Prop :=
  match approach s root path with
  | .error stop => result = .error stop
  | .ok (dir, name) =>
    s.type dir = some .dir →
      match s.lookup dir name with
      | .ok _ => result = .error (.error .exists_)
      | .error _ =>
        ∃ made s', s.make type dir name = .ok (made, s') ∧ result = .ok (made, s') ∧ s'.lookup dir name = .ok (some made) ∧
          s'.type made = some type

-- One component, and no slash behind it.
def Single (text : List UInt8) : Prop := (components text).length = 1 ∧ text.getLast? ≠ some slash

theorem components_named {component : List UInt8} (named : component ≠ []) (within : slash ∉ component) (rest : List UInt8) :
    components (component ++ rest) ≠ [] := by
  induction rest generalizing component with
  | nil =>
      rw [List.append_nil, components_single named within]
      exact List.cons_ne_nil _ _
  | cons byte rest ih =>
      by_cases divides : byte = slash
      · rw [divides, components_append named within]
        exact List.cons_ne_nil _ _
      · rw [components_byte component rest byte]
        exact ih (by simp) (slash_fresh within divides)

theorem components_none {rest : List UInt8} (none_ : components rest = []) : (slash :: rest).getLast? = some slash := by
  induction rest with
  | nil => rfl
  | cons byte rest ih =>
      by_cases divides : byte = slash
      · rw [divides, components_slash] at none_
        rw [divides, List.getLast?_cons_cons, ih none_]
      · have word : slash ∉ [byte] := by simpa using Ne.symm divides
        exact absurd none_ (components_named (List.cons_ne_nil _ _) word rest)

theorem single_slash {rest : List UInt8} : Single (slash :: rest) ↔ Single rest := by
  rw [Single, Single, components_slash]
  refine and_congr_right fun one => ?_
  cases rest with
  | nil => cases one
  | cons byte rest => rw [List.getLast?_cons_cons]

theorem single_word {component : List UInt8} (named : component ≠ []) (within : slash ∉ component) : Single component := by
  refine ⟨by rw [components_single named within]; rfl, fun last => within ?_⟩
  exact List.mem_of_getLast? last

-- Where a slash follows a component, others follow it, or the path ends with slashes.
theorem single_not {component : List UInt8} (named : component ≠ []) (within : slash ∉ component) (rest : List UInt8) :
    ¬ Single (component ++ slash :: rest) := by
  rintro ⟨one, last⟩
  rw [components_append named within, List.length_cons, Nat.add_eq_right, List.length_eq_zero_iff] at one
  refine last ?_
  rw [List.getLast?_append, components_none one, Option.some_or]

variable {s : State}

theorem approach_ends (writable : Writable s) (mounts : Mounts s) (rest component : List UInt8) {node : Node} (placed : Placed s node) :
    (∃ dir name, approachFrom s rest component node = .ok (dir, name) ∧ Placed s dir) ∨
    ∃ e, approachFrom s rest component node = .error (.error e) ∧ e ≠ .exists_ := by
  induction rest generalizing component node with
  | nil => exact .inl ⟨node, component, rfl, placed⟩
  | cons byte rest ih =>
      obtain ⟨m, crossed, there⟩ := placed_cross writable mounts placed
      rw [approachFrom]
      split
      · split
        · rw [bind_ok_eq crossed]
          exact ih _ there
        · split
          · exact .inl ⟨node, component, rfl, placed⟩
          · obtain ⟨next, looked, within⟩ | ⟨e, looked, other⟩ := placed_component placed component
            · obtain ⟨m, crossed, there⟩ := placed_cross writable mounts within
              rw [bind_ok_eq looked, bind_ok_eq crossed]
              exact ih _ there
            · exact .inr ⟨e, by rw [looked]; rfl, other⟩
      · rw [bind_ok_eq crossed]
        exact ih _ there

-- A component with a slash behind it exists, whatever its lookup comes to.
theorem exclusive_slash {create : LookupCreate} {node : Node} {component : List UInt8} (placed : Placed s node) :
    endComponent s create true false node component = .error (.error .exists_) := by
  rw [endComponent]
  obtain ⟨next, looked, _⟩ | ⟨e, looked, _⟩ := placed_component placed component
  · rw [looked]
    rfl
  · rw [looked]
    simp

theorem exclusive_longer (writable : Writable s) (mounts : Mounts s) {create : LookupCreate} {rest component : List UInt8}
    {compEnd : Nat} {node : Node} (placed : Placed s node) (within : slash ∉ component) (short : compEnd + rest.length < intMax)
    (named : components (component ++ rest) ≠ []) (longer : ¬ Single (component ++ rest)) :
    lookupLoop create true rest s compEnd component node = .error (.error .exists_) := by
  induction rest generalizing compEnd component node with
  | nil =>
      rw [List.append_nil] at named longer
      by_cases empty : component = []
      · rw [empty] at named
        exact absurd components_nil named
      · exact absurd (single_word empty within) longer
  | cons byte rest ih =>
      rw [List.length_cons] at short
      obtain ⟨m, crossed, there⟩ := placed_cross writable mounts placed
      have fits : ¬ intMax ≤ compEnd := by omega
      rw [lookupLoop, if_neg fits]
      by_cases divides : byte = slash
      · subst divides
        rw [if_pos rfl]
        by_cases empty : component = []
        · subst empty
          rw [List.nil_append, components_slash] at named
          rw [List.nil_append, single_slash] at longer
          rw [if_pos rfl, bind_ok_eq crossed]
          exact ih there within (by omega) named longer
        · rw [if_neg empty, exclusive_slash placed]
          rfl
      · rw [components_byte component rest byte] at named longer
        rw [if_neg divides, bind_ok_eq crossed]
        exact ih there (slash_fresh within divides) (by omega) named longer

-- Up to the end of a single component nothing is looked up.
theorem exclusive_single (writable : Writable s) (mounts : Mounts s) {create : LookupCreate} {rest component : List UInt8}
    {compEnd : Nat} {node : Node} (placed : Placed s node) (within : slash ∉ component) (short : compEnd + rest.length < intMax)
    (single : Single (component ++ rest)) :
    ∃ dir name, approachFrom s rest component node = .ok (dir, name) ∧ Placed s dir ∧
      lookupLoop create true rest s compEnd component node =
        (endComponent s create true true dir name).bind fun reached => (crossMount reached.2 reached.1).map fun node => (node, reached.2) := by
  induction rest generalizing compEnd component node with
  | nil =>
      rw [List.append_nil] at single
      have named : component ≠ [] := by
        rintro rfl
        cases single.1
      refine ⟨node, component, rfl, placed, ?_⟩
      rw [lookupLoop, if_neg (by simp only [List.length_nil] at short; omega), if_neg named]
  | cons byte rest ih =>
      rw [List.length_cons] at short
      obtain ⟨m, crossed, there⟩ := placed_cross writable mounts placed
      have fits : ¬ intMax ≤ compEnd := by omega
      by_cases divides : byte = slash
      · subst divides
        by_cases empty : component = []
        · subst empty
          rw [List.nil_append, single_slash] at single
          have approached : approachFrom s (slash :: rest) [] node = approachFrom s rest [] m := by
            rw [approachFrom, if_pos rfl, if_pos rfl, bind_ok_eq crossed]
          have looped : lookupLoop create true (slash :: rest) s compEnd [] node = lookupLoop create true rest s (compEnd + 1) [] m := by
            rw [lookupLoop, if_neg fits, if_pos rfl, if_pos rfl, bind_ok_eq crossed]
          rw [approached, looped]
          exact ih there within (by omega) single
        · exact absurd single (single_not empty within rest)
      · rw [components_byte component rest byte] at single
        have approached : approachFrom s (byte :: rest) component node = approachFrom s rest (component ++ [byte]) m := by
          rw [approachFrom, if_neg divides, bind_ok_eq crossed]
        have looped : lookupLoop create true (byte :: rest) s compEnd component node =
            lookupLoop create true rest s (compEnd + 1) (component ++ [byte]) m := by
          rw [lookupLoop, if_neg fits, if_neg divides, bind_ok_eq crossed]
        rw [approached, looped]
        exact ih there (slash_fresh within divides) (by omega) single

end Approaching

section Results

variable {s : State}

def createOf : VfsNodeType → LookupCreate
  | .file => .file
  | .dir => .dir

theorem exclusive_last (dirs : MountedDirs s) {type : VfsNodeType} {dir : Node} {name : List UInt8} (placed : Placed s dir)
    (directory : s.type dir = some .dir) {result : Except Stop (Node × State)}
    (run : result = (endComponent s (createOf type) true true dir name).bind fun reached =>
      (crossMount reached.2 reached.1).map fun node => (node, reached.2)) :
    match s.lookup dir name with
    | .ok _ => result = .error (.error .exists_)
    | .error _ => ∃ made s', s.make type dir name = .ok (made, s') ∧ result = .ok (made, s') ∧ s'.lookup dir name = .ok (some made) ∧
        s'.type made = some type := by
  obtain ⟨answer, looked, _⟩ | ⟨other, _⟩ | looked := placed_lookup placed name
  · rw [looked, run, endComponent]
    cases answer with
    | none =>
        rw [lookup_component_none looked]
        rfl
    | some next =>
        rw [lookup_component_some looked]
        rfl
  · exact absurd directory other
  · obtain ⟨made, s', done, found, kind, fresh⟩ := make_new placed looked type
    rw [looked]
    refine ⟨made, s', done, ?_, found, kind⟩
    have bare : s'.mountedVfs made = none := by
      obtain ⟨_, _, _, _, _, _, _, _, same, _⟩ := make_ok done
      rw [same]
      cases at_ : s.mountedVfs made with
      | none => rfl
      | some v =>
          rw [dirs made v at_] at fresh
          cases fresh
    have ended : endComponent s (createOf type) true true dir name = .ok (made, s') := by
      rw [endComponent, lookup_component_error looked]
      dsimp only
      rw [if_pos ⟨rfl, rfl⟩]
      cases type <;> exact done
    rw [run, ended]
    change (crossMount s' made).map _ = _
    rw [cross_mount_bare bare]
    rfl

theorem lookup_ext_starts {root : Option Node} {path : List UInt8} (nonempty : path ≠ []) (create : LookupCreate) (exclusive : Bool) :
    vfsLookupExt s root path create exclusive = (loopStart s root path).bind fun node =>
      lookupLoop create exclusive (loopText root path) s (path.length - (loopText root path).length) [] node := by
  obtain ⟨byte, rest, rfl⟩ := List.exists_cons_of_ne_nil nonempty
  rw [vfsLookupExt.eq_def, loopStart, loopText]
  split
  · rw [List.tail_cons, List.length_cons, Nat.add_sub_cancel_left]
  · cases root with
    | none => rfl
    | some node =>
        rw [Nat.sub_self]
        rfl

theorem loop_start_placed (writable : Writable s) {root : Option Node} (start : ∀ node, root = some node → (s.type node).isSome = true)
    (filled : s.all ≠ []) (path : List UInt8) : ∃ node, loopStart s root path = .ok node ∧ Placed s node := by
  have some_ : s.all.length ≠ 0 := fun none_ => filled (List.length_eq_zero_iff.mp none_)
  rw [loopStart]
  split
  · rw [vfsRoot, if_neg some_]
    exact placed_root writable (Nat.pos_of_ne_zero some_)
  · rename_i keeps
    cases root with
    | none => exact absurd (Or.inr rfl) keeps
    | some node => exact ⟨node, rfl, placed_of_type writable (start node rfl)⟩

-- Nothing is mounted, and the lookup has no node to start from.
theorem loop_start_unmounted (writable : Writable s) {root : Option Node} (start : ∀ node, root = some node → (s.type node).isSome = true)
    (empty : s.all = []) (path : List UInt8) : loopStart s root path = .error (.error .notFound) := by
  have rootless : root = none := by
    cases root with
    | none => rfl
    | some node =>
        obtain ⟨_, _, data, _⟩ := placed_of_type writable (start node rfl)
        have within := data_within data
        rw [empty] at within
        exact absurd within (Nat.not_lt_zero _)
  rw [loopStart, if_pos (.inr rootless), vfsRoot, if_pos (by rw [empty]; rfl)]

theorem loop_text_length (root : Option Node) (path : List UInt8) : (loopText root path).length ≤ path.length := by
  rw [loopText]
  split
  · rw [List.length_tail]
    omega
  · exact Nat.le_refl _

-- The directory "tmp" of a tmpfs that holds nothing else.
def grownOnce : State := ⟨[⟨.tmpfs (makeTmpfsNode tmpfsMount 0 (by decide) .dir [116, 109, 112]), none⟩], fun _ => none⟩

def slashTmpA : CString := ⟨[47, 116, 109, 112, 47, 97], by decide⟩

theorem grown_once_reachable : Reachable Starts step grownOnce := by
  have run : execute step [.mount .tmpfs none, .lookup none slashTmp .dir true] Fs.start = some grownOnce := rfl
  exact reachable_execute (.start Fs.start rfl) run

theorem grown_once_writable : Writable grownOnce := by
  intro vfs member
  obtain rfl := List.mem_singleton.mp member
  exact ⟨_, rfl⟩

end Results

end Elysium.Fs
