import Elysium.VfsLookup

set_option autoImplicit false

namespace Elysium.Fs

open Namespaces (Shallow cross_clear_bare shallow_bare)
open Transitions (Reachable execute reachable_execute)

-- What differs from a path in slashes alone: one slash more at its end, or one in place of a run of them.
inductive Respelled : List UInt8 → List UInt8 → Prop where
  | trailing (path : List UInt8) : Respelled path (path ++ [slash])
  | run (before after : List UInt8) (more : Nat) :
      Respelled (before ++ slash :: (List.replicate more slash ++ after)) (before ++ slash :: after)

def Alike (s : State) (root : Option Node) (path : List UInt8) : Prop :=
  ∀ other, Respelled path other → ∀ dir, s.type dir = some .dir →
    (vfsLookup s root path = .ok dir ↔ vfsLookup s root other = .ok dir)

-- A path, up to a slash or its end.
def Leads (lead path : List UInt8) : Prop := ∃ more, path = lead ++ more ∧ (more = [] ∨ more.head? = some slash)

-- The node named by what was read since the last slash.
def named (s : State) (component : List UInt8) (node : Node) : Except Stop Node :=
  if component = [] then .ok node else lookupComponent s node component

-- At every slash and at the end, no more than one file system is stacked on the node named there.
def Level (s : State) : List UInt8 → List UInt8 → Node → Prop
  | [], component, node => ∀ next, named s component node = .ok next → Shallow (forest s) next
  | byte :: rest, component, node =>
    if byte = slash then
      ∀ next, named s component node = .ok next →
        Shallow (forest s) next ∧ ∀ m, crossMount s next = .ok m → Level s rest [] m
    else ∀ m, crossMount s node = .ok m → Level s rest (component ++ [byte]) m

-- With a slash the empty path is the root.
def Even (s : State) (root : Option Node) : List UInt8 → Prop
  | [] => ∀ dir, s.type dir = some .dir →
      ((∃ node, root = some node ∧ crossMount s node = .ok dir) ↔ (vfsRoot s).bind (crossMount s) = .ok dir)
  | byte :: rest =>
    if byte = slash ∨ root = none then ∀ node, vfsRoot s = .ok node → Level s rest [] node
    else ∀ node, root = some node → Level s (byte :: rest) [] node

section Walks

variable {s : State}

theorem walk_end (component : List UInt8) (node : Node) : walk s [] component node = (named s component node).bind (crossMount s) := by
  rw [walk, named]
  split <;> rfl

theorem walk_slash (rest component : List UInt8) (node : Node) :
    walk s (slash :: rest) component node = ((named s component node).bind (crossMount s)).bind (walk s rest []) := by
  rw [walk, if_pos rfl, named]
  split <;> rfl

theorem walk_byte {byte : UInt8} (other : byte ≠ slash) (rest component : List UInt8) (node : Node) :
    walk s (byte :: rest) component node = (crossMount s node).bind (walk s rest (component ++ [byte])) := by
  rw [walk, if_neg other]

-- Where the way is level, what a slash or the end stands behind has nothing mounted on it.
theorem level_bare (mounts : Mounts s) {lead more component : List UInt8} {node found : Node}
    (level : Level s (lead ++ more) component node) (ends : more = [] ∨ more.head? = some slash)
    (walked : walk s lead component node = .ok found) : s.mountedVfs found = none := by
  have layers := forest_layered mounts
  induction lead generalizing component node with
  | nil =>
      rw [walk_end] at walked
      obtain ⟨next, at_, crossed⟩ := except_bind_ok walked
      have shallow : Shallow (forest s) next := by
        rcases ends with rfl | first
        · exact level next at_
        · obtain ⟨rest, rfl⟩ := List.head?_eq_some_iff.mp first
          rw [List.nil_append, Level, if_pos rfl] at level
          exact (level next at_).1
      exact cross_clear_bare layers shallow crossed
  | cons byte lead ih =>
      rw [List.cons_append, Level] at level
      by_cases divides : byte = slash
      · subst divides
        rw [if_pos rfl] at level
        rw [walk_slash] at walked
        obtain ⟨m, crossed, walked⟩ := except_bind_ok walked
        obtain ⟨next, at_, crossed⟩ := except_bind_ok crossed
        exact ih ((level next at_).2 m crossed) walked
      · rw [if_neg divides] at level
        rw [walk_byte divides] at walked
        obtain ⟨m, crossed, walked⟩ := except_bind_ok walked
        exact ih (level m crossed) walked

theorem walk_slashes {node : Node} (bare : s.mountedVfs node = none) (count : Nat) (rest : List UInt8) :
    walk s (List.replicate count slash ++ rest) [] node = walk s rest [] node := by
  induction count with
  | zero => rfl
  | succ count ih =>
      rw [List.replicate_succ, List.cons_append, walk_slash, named, if_pos rfl]
      change (crossMount s node).bind _ = _
      rw [bind_ok_eq (cross_mount_bare bare), ih]

theorem level_trailing (mounts : Mounts s) {lead component : List UInt8} {node : Node} (level : Level s lead component node) :
    walk s (lead ++ [slash]) component node = walk s lead component node := by
  rw [walk_append]
  cases walked : walk s lead component node with
  | error stop => rfl
  | ok found => exact cross_mount_bare (level_bare mounts (by rw [List.append_nil]; exact level) (.inl rfl) walked)

theorem level_run (mounts : Mounts s) {before after component : List UInt8} {count : Nat} {node : Node}
    (level : Level s (before ++ slash :: (List.replicate count slash ++ after)) component node) :
    walk s (before ++ slash :: (List.replicate count slash ++ after)) component node =
      walk s (before ++ slash :: after) component node := by
  rw [walk_append, walk_append]
  cases walked : walk s before component node with
  | error stop => rfl
  | ok found => exact walk_slashes (level_bare mounts level (.inr rfl) walked) count after

theorem level_lead {lead more component : List UInt8} {node : Node} (level : Level s (lead ++ more) component node)
    (ends : more = [] ∨ more.head? = some slash) : Level s lead component node := by
  induction lead generalizing component node with
  | nil =>
      rcases ends with rfl | first
      · exact level
      · obtain ⟨rest, rfl⟩ := List.head?_eq_some_iff.mp first
        rw [List.nil_append, Level, if_pos rfl] at level
        exact fun next at_ => (level next at_).1
  | cons byte lead ih =>
      rw [List.cons_append, Level] at level
      rw [Level]
      split
      · rename_i divides
        rw [if_pos divides] at level
        exact fun next at_ => ⟨(level next at_).1, fun m crossed => ih ((level next at_).2 m crossed)⟩
      · rename_i other
        rw [if_neg other] at level
        exact fun m crossed => ih (level m crossed)

theorem root_node_type {v : Nat} {root : Node} (at_ : s.rootNode v = .ok root) : s.type root = some .dir := by
  rw [State.rootNode] at at_
  split at at_
  · rename_i info data
    obtain ⟨top, there, _, dir⟩ := info.tree.root
    rw [← Except.ok.inj at_, State.type]
    simp only [data, there, Option.map_some, dir]
  · rename_i image data
    obtain ⟨dir, there, _⟩ := rdsk_root image
    rw [← Except.ok.inj at_, State.type]
    simp only [data, there, Option.map_some]
  · cases at_

-- A node from which one more crossing leads to the same directory is no stack of mounts.
theorem shallow_of_cross (mounts : Mounts s) {next : Node}
    (same : ∀ dir, s.type dir = some .dir → (crossMount s next = .ok dir ↔ (crossMount s next).bind (crossMount s) = .ok dir)) :
    Shallow (forest s) next := by
  intro v root at_ rooted
  have crossed : crossMount s next = .ok root := by
    rw [crossMount, show s.mountedVfs next = some v from at_]
    exact rooted
  have again := (same root (root_node_type rooted)).mp crossed
  rw [crossed] at again
  change crossMount s root = .ok root at again
  rw [crossMount] at again
  cases top : s.mountedVfs root with
  | none => exact top
  | some w =>
      rw [top] at again
      have later := (mounts.later root w top).1
      have vfs := root_node_vfs again
      omega

theorem shallow_of_trailing (mounts : Mounts s) {component : List UInt8} {node : Node}
    (same : ∀ dir, s.type dir = some .dir → (walk s [] component node = .ok dir ↔ walk s ([] ++ [slash]) component node = .ok dir)) :
    ∀ next, named s component node = .ok next → Shallow (forest s) next := by
  intro next at_
  refine shallow_of_cross mounts fun dir type => ?_
  have both := same dir type
  rw [walk_append, walk_end, at_] at both
  exact both

-- Conversely, where a slash more never leads elsewhere, the way is level.
theorem level_of_trailing (mounts : Mounts s) {rest component : List UInt8} {node : Node}
    (same : ∀ lead, Leads lead rest → ∀ dir, s.type dir = some .dir →
      (walk s lead component node = .ok dir ↔ walk s (lead ++ [slash]) component node = .ok dir)) :
    Level s rest component node := by
  induction rest generalizing component node with
  | nil => exact shallow_of_trailing mounts (same [] ⟨[], rfl, .inl rfl⟩)
  | cons byte rest ih =>
      have longer : ∀ {lead}, Leads lead rest → Leads (byte :: lead) (byte :: rest) := by
        rintro lead ⟨more, rfl, ends⟩
        exact ⟨more, rfl, ends⟩
      rw [Level]
      split
      · rename_i divides
        subst divides
        intro next at_
        refine ⟨shallow_of_trailing mounts (same [] ⟨slash :: rest, rfl, .inr rfl⟩) next at_, fun m crossed => ?_⟩
        have later : ∀ lead, walk s (slash :: lead) component node = walk s lead [] m := by
          intro lead
          rw [walk_slash, at_]
          exact bind_ok_eq crossed (walk s lead [])
        refine ih fun lead leads dir type => ?_
        have both := same (slash :: lead) (longer leads) dir type
        rwa [List.cons_append, later, later] at both
      · rename_i other
        intro m crossed
        refine ih fun lead leads dir type => ?_
        have both := same (byte :: lead) (longer leads) dir type
        rwa [List.cons_append, walk_byte other, walk_byte other, bind_ok_eq crossed, bind_ok_eq crossed] at both

end Walks

section Results

variable {s : State} {root : Option Node}

theorem lookup_skips {byte : UInt8} {rest : List UInt8} (skips : byte = slash ∨ root = none) (short : rest.length + 1 < intMax) :
    vfsLookup s root (byte :: rest) = (vfsRoot s).bind (walk s rest []) := by
  have first : (byte :: rest).head? = some slash ∨ root = none := by
    rcases skips with rfl | none_
    · exact .inl rfl
    · exact .inr none_
  rw [vfsLookup, vfsLookupExt.eq_def, if_pos first]
  cases vfsRoot s with
  | error stop => rfl
  | ok node =>
      simp only [Except.bind]
      rw [lookup_loop_walk s [] node (by omega)]
      cases walk s rest [] node <;> rfl

theorem respelled_length {path other : List UInt8} (respelled : Respelled path other) : other.length ≤ path.length + 1 := by
  cases respelled with
  | trailing => exact Nat.le_of_eq List.length_append
  | run before after more =>
      simp only [List.length_append, List.length_cons, List.length_replicate]
      omega

-- Past the first byte the spellings of a path differ in the same way, or in the slashes behind it.
theorem respelled_cons {byte : UInt8} {rest other : List UInt8} (respelled : Respelled (byte :: rest) other) :
    ∃ rest', other = byte :: rest' ∧ (Respelled rest rest' ∨ byte = slash ∧ ∃ more, rest = List.replicate more slash ++ rest') := by
  generalize whole : byte :: rest = path at respelled
  cases respelled with
  | trailing =>
      subst whole
      exact ⟨rest ++ [slash], rfl, .inl (.trailing rest)⟩
  | run before after more =>
      cases before with
      | nil =>
          rw [List.nil_append, List.cons.injEq] at whole
          exact ⟨after, by rw [whole.1, List.nil_append], .inr ⟨whole.1, more, whole.2⟩⟩
      | cons first before =>
          rw [List.cons_append, List.cons.injEq] at whole
          refine ⟨before ++ slash :: after, by rw [whole.1, List.cons_append], .inl ?_⟩
          rw [whole.2]
          exact .run before after more

theorem level_respelled (mounts : Mounts s) {rest other : List UInt8} {node : Node} (level : Level s rest [] node)
    (respelled : Respelled rest other) : walk s rest [] node = walk s other [] node := by
  cases respelled with
  | trailing => exact (level_trailing mounts level).symm
  | run before after more => exact level_run mounts level

-- The slashes behind the first one.
theorem level_leading (mounts : Mounts s) {rest : List UInt8} {count : Nat} {node : Node}
    (level : Level s (List.replicate count slash ++ rest) [] node) :
    walk s (List.replicate count slash ++ rest) [] node = walk s rest [] node := by
  cases count with
  | zero => rfl
  | succ count =>
      rw [List.replicate_succ, List.cons_append, Level, if_pos rfl] at level
      have shallow := (level node rfl).1
      rw [List.replicate_succ, List.cons_append, walk_slash, walk_start mounts shallow rest]
      change (crossMount s node).bind _ = _
      cases crossed : crossMount s node with
      | error stop => rfl
      | ok m => exact walk_slashes (cross_clear_bare (forest_layered mounts) shallow crossed) count rest

theorem even_alike (mounts : Mounts s) {byte : UInt8} {rest : List UInt8} (short : rest.length + 2 < intMax)
    (even : Even s root (byte :: rest)) : Alike s root (byte :: rest) := by
  intro other respelled dir _
  have length := respelled_length respelled
  obtain ⟨rest', rfl, same⟩ := respelled_cons respelled
  rw [List.length_cons, List.length_cons] at length
  rw [Even] at even
  by_cases skips : byte = slash ∨ root = none
  · rw [if_pos skips] at even
    rw [lookup_skips skips (by omega), lookup_skips skips (by omega)]
    cases at_ : vfsRoot s with
    | error stop => rfl
    | ok node =>
        simp only [Except.bind]
        rcases same with same | ⟨_, more, rfl⟩
        · rw [level_respelled mounts (even node at_) same]
        · rw [level_leading mounts (even node at_)]
  · rw [if_neg skips] at even
    rw [not_or] at skips
    obtain ⟨node, rfl⟩ := Option.ne_none_iff_exists'.mp skips.2
    have other : ∀ tail : List UInt8, (byte :: tail).head? ≠ some slash := fun tail first => skips.1 (Option.some.inj first)
    rw [vfs_lookup_relative s node (other rest) (by rw [List.length_cons]; omega),
      vfs_lookup_relative s node (other rest') (by rw [List.length_cons]; omega),
      level_respelled mounts (even node rfl) respelled]

theorem alike_even (mounts : Mounts s) {byte : UInt8} {rest : List UInt8} (short : rest.length + 2 < intMax)
    (alike : ∀ lead, Leads lead (byte :: rest) → lead ≠ [] → Alike s root lead) : Even s root (byte :: rest) := by
  have trailing : ∀ lead, Leads lead rest → ∀ dir, s.type dir = some .dir →
      (vfsLookup s root (byte :: lead) = .ok dir ↔ vfsLookup s root (byte :: (lead ++ [slash])) = .ok dir) := by
    rintro lead ⟨more, rfl, ends⟩ dir type
    exact alike (byte :: lead) ⟨more, rfl, ends⟩ (List.cons_ne_nil _ _) _ (.trailing _) dir type
  have shorter : ∀ {lead}, Leads lead rest → lead.length ≤ rest.length := by
    rintro lead ⟨more, rfl, _⟩
    rw [List.length_append]
    omega
  rw [Even]
  split
  · rename_i skips
    intro node at_
    refine level_of_trailing mounts fun lead leads dir type => ?_
    have both := trailing lead leads dir type
    have := shorter leads
    rwa [lookup_skips skips (by omega), lookup_skips skips (by rw [List.length_append, List.length_singleton]; omega), at_] at both
  · rename_i keeps
    rw [not_or] at keeps
    rintro node rfl
    have other : ∀ tail : List UInt8, (byte :: tail).head? ≠ some slash := fun tail first => keeps.1 (Option.some.inj first)
    refine level_of_trailing mounts fun lead leads dir type => ?_
    cases lead with
    | nil =>
        obtain ⟨more, whole, ends⟩ := leads
        rw [List.nil_append] at whole
        subst whole
        rcases ends with none_ | first
        · cases none_
        · exact absurd first (other rest)
    | cons first lead =>
        obtain ⟨more, whole, ends⟩ := leads
        rw [List.cons_append, List.cons.injEq] at whole
        obtain ⟨rfl, rest_⟩ := whole
        have both := trailing lead ⟨more, rest_, ends⟩ dir type
        have : lead.length ≤ _ := shorter ⟨more, rest_, ends⟩
        rwa [vfs_lookup_relative s node (other _) (by rw [List.length_cons]; omega),
          vfs_lookup_relative s node (other _) (by rw [List.length_cons, List.length_append, List.length_singleton]; omega)] at both

theorem alike_empty : Alike s root [] ↔ Even s root [] := by
  have bare : ∀ dir, vfsLookup s root [] = .ok dir ↔ ∃ node, root = some node ∧ crossMount s node = .ok dir := by
    intro dir
    cases root with
    | none =>
        rw [vfsLookup, vfsLookupExt.eq_def, if_pos (.inr rfl)]
        cases vfsRoot s <;> simp [Except.bind, Except.map]
    | some node =>
        have short : ([] : List UInt8).length < intMax := by decide
        rw [vfs_lookup_relative s node (by simp) short]
        simp [walk]
  have rooted : vfsLookup s root [slash] = (vfsRoot s).bind (crossMount s) := lookup_skips (.inl rfl) (by decide)
  constructor
  · intro alike dir type
    rw [← bare, ← rooted]
    exact alike [slash] (.trailing []) dir type
  · intro even other respelled dir type
    generalize empty : ([] : List UInt8) = path at respelled
    cases respelled with
    | trailing =>
        subst empty
        rw [List.nil_append, rooted, bare]
        exact even dir type
    | run before after more => simp at empty

-- Slashes do not matter, on a path and on what leads up to it, exactly where the way is level.
theorem lookup_slashes_iff {s : State} (reach : Reachable Starts step s) (root : Option Node) (path : CString)
    (short : path.bytes.length + 1 < intMax) :
    (∀ lead, Leads lead path.bytes → (lead = [] → path.bytes = []) → Alike s root lead) ↔ Even s root path.bytes := by
  have mounts := reachable_mounts reach
  obtain ⟨bytes, ended⟩ := path
  dsimp only at short ⊢
  cases bytes with
  | nil =>
      refine ⟨fun alike => alike_empty.mp (alike [] ⟨[], rfl, .inl rfl⟩ fun _ => rfl), fun even lead leads _ => ?_⟩
      obtain ⟨more, whole, _⟩ := leads
      rw [(List.append_eq_nil_iff.mp whole.symm).1]
      exact alike_empty.mpr even
  | cons byte rest =>
      rw [List.length_cons] at short
      constructor
      · intro alike
        exact alike_even mounts short fun lead leads kept => alike lead leads fun empty => absurd empty kept
      · rintro even lead ⟨more, whole, ends⟩ kept
        cases lead with
        | nil => exact absurd (kept rfl) (List.cons_ne_nil _ _)
        | cons first lead =>
            rw [List.cons_append, List.cons.injEq] at whole
            obtain ⟨rfl, rfl⟩ := whole
            rw [List.length_append] at short
            refine even_alike mounts (by omega) ?_
            rw [Even] at even ⊢
            split
            · rename_i skips
              rw [if_pos skips] at even
              exact fun node at_ => level_lead (even node at_) ends
            · rename_i keeps
              rw [if_neg keeps] at even
              intro node at_
              have level := even node at_
              rw [← List.cons_append] at level
              exact level_lead level ends

-- A second tmpfs mounted on "/tmp" stands on the root of the first.
def stacked : State :=
  ⟨[⟨.rdsk sysroot, none⟩, ⟨.tmpfs tmpfsMount, some tmpDir⟩, ⟨.tmpfs tmpfsMount, some ⟨1, .tmpfs 0⟩⟩],
    Function.update (Function.update (fun _ => none) tmpDir (some 1)) ⟨1, .tmpfs 0⟩ (some 2)⟩

theorem lookup_slashes_booted : Alike booted none slashTmp.bytes := by
  refine (lookup_slashes_iff booted_reachable none slashTmp (by decide)).mpr ?_ slashTmp.bytes ⟨[], rfl, .inl rfl⟩ (by decide)
  intro node at_
  obtain rfl : rootDir = node := Except.ok.inj at_
  intro t crossed
  obtain rfl : rootDir = t := Except.ok.inj crossed
  intro m crossed
  obtain rfl : rootDir = m := Except.ok.inj crossed
  intro p crossed
  obtain rfl : rootDir = p := Except.ok.inj crossed
  intro next at_
  obtain rfl : tmpDir = next := Except.ok.inj at_
  intro v top mounted rooted
  obtain rfl : 1 = v := Option.some.inj mounted
  obtain rfl : Node.mk 1 (.tmpfs 0) = top := Except.ok.inj rooted
  rfl

theorem trailing_slash_goes_up :
    Reachable Starts step stacked ∧ stacked.type ⟨1, .tmpfs 0⟩ = some .dir ∧
    vfsLookup stacked none [47, 116, 109, 112] = .ok ⟨1, .tmpfs 0⟩ ∧
    vfsLookup stacked none [47, 116, 109, 112, 47] = .ok ⟨2, .tmpfs 0⟩ ∧ ¬ Alike stacked none slashTmp.bytes := by
  have run : execute step [.mount (.rdsk sysroot) none, .mount .tmpfs (some slashTmp), .mount .tmpfs (some slashTmp)] start =
      some stacked := rfl
  refine ⟨reachable_execute (.start start rfl) run, rfl, rfl, rfl, fun alike => ?_⟩
  have moved := (alike _ (.trailing _) ⟨1, .tmpfs 0⟩ rfl).mp rfl
  cases moved

end Results

end Elysium.Fs
