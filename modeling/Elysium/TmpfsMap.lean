import Elysium.VfsMounts
import Mathlib.Data.List.Nodup
import Mathlib.Order.Interval.Finset.Nat

set_option autoImplicit false

namespace Elysium.Fs

open Transitions (Reachable reachable_invariant execute reachable_execute)

-- A tmpfs with what a call on it uses besides its tree: the counter, the id that each node got from it, and the address
-- at which it stands.
structure TmpfsVolume where
  info : TmpfsInfo
  idCounter : Nat
  ids : List Nat
  addresses : List Nat

structure TmpfsCall where
  type : VfsNodeType
  dir : Nat
  name : CString
  address : Nat

-- heap_alloc gives a place where nothing stands.
def Fresh (v : TmpfsVolume) (address : Nat) : Prop := 0 < address ∧ address < 2 ^ 64 ∧ address ∉ v.addresses

instance (v : TmpfsVolume) (address : Nat) : Decidable (Fresh v address) := inferInstanceAs (Decidable (_ ∧ _))

def mountedTmpfs (address : Nat) : TmpfsVolume := ⟨tmpfsMount, 2, [2], [address]⟩

def makeNode (v : TmpfsVolume) (call : TmpfsCall) : Except Stop (Nat × TmpfsVolume) :=
  match tmpfsMake call.type v.info call.dir call.name.bytes with
  | .error stop => .error stop
  | .ok (c, info) =>
    if Fresh v call.address then
      .ok (c, ⟨info, (v.idCounter + 1) % 2 ^ 64, v.ids ++ [(v.idCounter + 1) % 2 ^ 64], v.addresses ++ [call.address]⟩)
    else .error .garbage

-- A call that fails changes nothing.
def tmpfsStep (call : TmpfsCall) (v : TmpfsVolume) : Option TmpfsVolume :=
  match makeNode v call with
  | .ok (_, v') => some v'
  | .error (.error _) => some v
  | .error _ => none

def TmpfsStarts (v : TmpfsVolume) : Prop := ∃ address, 0 < address ∧ address < 2 ^ 64 ∧ v = mountedTmpfs address

def TmpfsVolume.name (v : TmpfsVolume) (c : Nat) : Option (List UInt8) := (v.info.nodes[c]?).map (·.name)

-- A directory as a map: what a call is to leave behind.
structure Mapped (v : TmpfsVolume) (call : TmpfsCall) : Prop where
  names : ∀ (i : Nat) (node : TmpfsNode), v.info.nodes[i]? = some node → (node.children.map v.name).Nodup
  ids : v.ids.length = v.info.nodes.length ∧ v.ids.Nodup
  exists_ : makeNode v call = .error (.error .exists_) ↔
    ∃ node : TmpfsNode, v.info.nodes[call.dir]? = some node ∧ node.type = .dir ∧ ∃ c ∈ node.children, v.name c = some call.name.bytes
  unchanged : ∀ e, makeNode v call = .error (.error e) → tmpfsStep call v = some v
  kept : ∀ c v' later, makeNode v call = .ok (c, v') → Reachable (· = v') tmpfsStep later →
    tmpfsLookup later.info call.dir call.name.bytes = .ok (some c)
  others : ∀ c v' j name, makeNode v call = .ok (c, v') → j < v.info.nodes.length → j ≠ call.dir ∨ name ≠ call.name.bytes →
    tmpfsLookup v'.info j name = tmpfsLookup v.info j name

section Making

theorem tmpfs_make_ok {type : VfsNodeType} {info info' : TmpfsInfo} {i c : Nat} {name : List UInt8}
    (made : tmpfsMake type info i name = .ok (c, info')) :
    ∃ node : TmpfsNode, info.nodes[i]? = some node ∧ node.type = .dir ∧ dirFind info node name = none ∧
      c = info.nodes.length ∧ info'.nodes = grown info.nodes i type name := by
  rw [tmpfsMake] at made
  split at made
  · rename_i inside
    split at made
    · cases made
    · rename_i dir
      split at made
      · cases made
      · rename_i absent
        rw [Except.ok.injEq, Prod.mk.injEq] at made
        obtain ⟨rfl, rfl⟩ := made
        exact ⟨_, List.getElem?_eq_getElem inside, of_not_not dir, by simpa using absent, rfl, rfl⟩
  · cases made

-- The new entry is found first.
theorem tmpfs_made_found {type : VfsNodeType} {info info' : TmpfsInfo} {i c : Nat} {name : List UInt8}
    (plain : name ≠ dot ∧ name ≠ dotdot) (made : tmpfsMake type info i name = .ok (c, info')) :
    tmpfsLookup info' i name = .ok (some c) := by
  obtain ⟨node, at_, dir, _, rfl, nodes⟩ := tmpfs_make_ok made
  have inside := (List.getElem?_eq_some_iff.mp at_).1
  have parent : info'.nodes[i]? = some (addChild info.nodes.length node) := by
    rw [nodes, grown_old info.nodes i type name inside, at_, Option.map_some, if_pos rfl]
  have found : dirFind info' (addChild info.nodes.length node) name = some info.nodes.length := by
    rw [dirFind, addChild, List.find?_cons_of_pos]
    rw [nodes, grown_new, Option.any_some]
    exact beq_self_eq_true name
  rw [tmpfsLookup, parent]
  dsimp only
  rw [if_neg (by rw [addChild]; exact not_not_intro dir), if_neg plain.1, if_neg plain.2, found]

theorem tmpfs_absent {info : TmpfsInfo} {i : Nat} {name : List UInt8} (inside : i < info.nodes.length)
    (absent : tmpfsLookup info i name = .error (.error .notFound)) :
    (info.nodes[i]).type = .dir ∧ (name ≠ dot ∧ name ≠ dotdot) ∧ dirFind info info.nodes[i] name = none := by
  rw [tmpfsLookup, List.getElem?_eq_getElem inside] at absent
  dsimp only at absent
  by_cases other : (info.nodes[i]).type ≠ .dir
  · rw [if_pos other] at absent
    cases absent
  by_cases self : name = dot
  · rw [if_neg other, if_pos self] at absent
    cases absent
  by_cases up : name = dotdot
  · rw [if_neg other, if_neg self, if_pos up] at absent
    cases absent
  rw [if_neg other, if_neg self, if_neg up] at absent
  cases found : dirFind info info.nodes[i] name with
  | none => exact ⟨of_not_not other, ⟨self, up⟩, rfl⟩
  | some c =>
      rw [found] at absent
      cases absent

theorem tmpfs_make_absent {info : TmpfsInfo} {i : Nat} {name : List UInt8} (inside : i < info.nodes.length)
    (absent : tmpfsLookup info i name = .error (.error .notFound)) (type : VfsNodeType) :
    tmpfsMake type info i name = .ok (info.nodes.length, makeTmpfsNode info i inside type name) := by
  obtain ⟨directory, _, missing⟩ := tmpfs_absent inside absent
  rw [tmpfsMake, dif_pos inside, if_neg (not_not_intro directory), if_neg (by rw [missing]; decide)]

theorem grown_name {nodes : List TmpfsNode} (parent : Nat) (type : VfsNodeType) (name : List UInt8) {c : Nat} (old : c < nodes.length) :
    ((grown nodes parent type name)[c]?).map (·.name) = (nodes[c]?).map (·.name) := by
  rw [grown_old nodes parent type name old, Option.map_map]
  cases nodes[c]? with
  | none => rfl
  | some node =>
      rw [Option.map_some, Option.map_some, Function.comp_apply]
      split <;> rfl

theorem any_name (nodes : List TmpfsNode) (c : Nat) (name : List UInt8) :
    (nodes[c]?).any (fun node => node.name == name) = ((nodes[c]?).map (·.name)).any (· == name) := by
  cases nodes[c]? <;> rfl

theorem dir_find_none {info : TmpfsInfo} {node : TmpfsNode} {name : List UInt8} :
    dirFind info node name = none ↔ ∀ c ∈ node.children, (info.nodes[c]?).map (·.name) ≠ some name := by
  rw [dirFind, List.find?_eq_none]
  refine forall_congr' fun c => forall_congr' fun _ => ?_
  rw [any_name]
  cases (info.nodes[c]?).map (·.name) with
  | none => simp
  | some other => simp

-- What is looked up elsewhere, or under another name, is found as before.
theorem tmpfs_make_others {type : VfsNodeType} {info info' : TmpfsInfo} {i c j : Nat} {name other : List UInt8}
    (made : tmpfsMake type info i name = .ok (c, info')) (inside : j < info.nodes.length)
    (apart : j ≠ i ∨ other ≠ name ∨ other = dot ∨ other = dotdot) : tmpfsLookup info' j other = tmpfsLookup info j other := by
  obtain ⟨_, _, _, _, rfl, nodes⟩ := tmpfs_make_ok made
  obtain ⟨node, at_⟩ : ∃ node, info.nodes[j]? = some node := ⟨_, List.getElem?_eq_getElem inside⟩
  have now := grown_old info.nodes i type name inside
  rw [at_, Option.map_some] at now
  have finds : ∀ children : List Nat, (∀ c ∈ children, c ∈ node.children) →
      (children.find? fun c => (info'.nodes[c]?).any fun node => node.name == other) =
        children.find? fun c => (info.nodes[c]?).any fun node => node.name == other := by
    intro children listed
    induction children with
    | nil => rfl
    | cons c children ih =>
        obtain ⟨found, there, _⟩ := info.tree.child j node c at_ (listed c List.mem_cons_self)
        have same : (info'.nodes[c]?).any (fun node => node.name == other) = (info.nodes[c]?).any fun node => node.name == other := by
          rw [any_name, any_name, nodes, grown_name i type name (List.getElem?_eq_some_iff.mp there).1]
        rw [List.find?_cons, List.find?_cons, same, ih fun d member => listed d (List.mem_cons_of_mem c member)]
  by_cases here : i = j
  · rw [if_pos here] at now
    rw [tmpfsLookup, tmpfsLookup, nodes, now, at_]
    dsimp only [addChild]
    by_cases special : other = dot ∨ other = dotdot
    · rcases special with rfl | rfl <;> simp [dot, dotdot]
    · rw [not_or] at special
      have differs : other ≠ name := by
        rcases apart with away | differs | self | up
        · exact absurd here.symm away
        · exact differs
        · exact absurd self special.1
        · exact absurd up special.2
      rw [if_neg special.1, if_neg special.1, if_neg special.2, if_neg special.2]
      have fresh : dirFind info' (addChild info.nodes.length node) other = dirFind info node other := by
        rw [dirFind, dirFind, addChild, List.find?_cons_of_neg, finds node.children fun _ member => member]
        rw [nodes, grown_new, Option.any_some]
        simpa using Ne.symm differs
      dsimp only [addChild] at fresh
      rw [fresh]
  · rw [if_neg here] at now
    have same : dirFind info' node other = dirFind info node other := finds node.children fun _ member => member
    rw [tmpfsLookup, tmpfsLookup, nodes, now, at_]
    dsimp only
    rw [same]

-- What is found stays.
theorem tmpfs_make_keeps {type : VfsNodeType} {info info' : TmpfsInfo} {i c j : Nat} {name other : List UInt8} {answer : Option Nat}
    (made : tmpfsMake type info i name = .ok (c, info')) (found : tmpfsLookup info j other = .ok answer) :
    tmpfsLookup info' j other = .ok answer := by
  have inside : j < info.nodes.length := by
    rw [tmpfsLookup] at found
    split at found
    · cases found
    · rename_i node at_
      exact (List.getElem?_eq_some_iff.mp at_).1
  by_cases apart : j ≠ i ∨ other ≠ name ∨ other = dot ∨ other = dotdot
  · rw [tmpfs_make_others made inside apart, found]
  · simp only [not_or, not_not] at apart
    obtain ⟨rfl, rfl, self, up⟩ := apart
    obtain ⟨node, at_, dir, absent, _⟩ := tmpfs_make_ok made
    rw [tmpfsLookup, at_] at found
    dsimp only at found
    rw [if_neg (not_not_intro dir), if_neg self, if_neg up, absent] at found
    cases found

end Making

section Runs

def idOf (i : Nat) : Nat := (i + 2) % 2 ^ 64

structure TmpfsSound (v : TmpfsVolume) : Prop where
  names : ∀ (i : Nat) (node : TmpfsNode), v.info.nodes[i]? = some node → (node.children.map v.name).Nodup
  ids : v.ids = (List.range v.info.nodes.length).map idOf
  counter : v.idCounter = (v.info.nodes.length + 1) % 2 ^ 64
  placed : v.addresses.length = v.info.nodes.length ∧ v.addresses.Nodup
  canonical : ∀ a ∈ v.addresses, 0 < a ∧ a < 2 ^ 64

-- Every node has an address of its own, so that there are fewer than 2 ^ 64, and no id comes twice.
theorem TmpfsSound.few {v : TmpfsVolume} (sound : TmpfsSound v) : v.info.nodes.length < 2 ^ 64 := by
  have within : v.addresses.toFinset ⊆ Finset.Ioo 0 (2 ^ 64) := by
    intro a member
    rw [List.mem_toFinset] at member
    exact Finset.mem_Ioo.mpr (sound.canonical a member)
  have fits := Finset.card_le_card within
  rw [List.toFinset_card_of_nodup sound.placed.2, sound.placed.1, Nat.card_Ioo] at fits
  omega

theorem ids_nodup {count : Nat} (few : count < 2 ^ 64) : ((List.range count).map idOf).Nodup := by
  refine List.Nodup.map_on (fun i first j second same => ?_) List.nodup_range
  rw [List.mem_range] at first second
  rw [idOf, idOf] at same
  omega

-- "." and ".." are what they were: the node made under such a name is not found by it.
theorem special_lost {type : VfsNodeType} {info info' : TmpfsInfo} {i c : Nat} {name : List UInt8}
    (made : tmpfsMake type info i name = .ok (c, info')) (special : name = dot ∨ name = dotdot) : tmpfsLookup info' i name ≠ .ok (some c) := by
  obtain ⟨node, at_, dir, _, new, _⟩ := tmpfs_make_ok made
  have inside := (List.getElem?_eq_some_iff.mp at_).1
  rw [tmpfs_make_others made inside (.inr (.inr special)), tmpfsLookup, at_]
  dsimp only
  rw [if_neg (not_not_intro dir)]
  intro here
  by_cases self : name = dot
  · rw [if_pos self, Except.ok.injEq, Option.some.injEq] at here
    omega
  · rw [if_neg self, if_pos (special.resolve_left self), Except.ok.injEq] at here
    have before := info.tree.parent i node c at_ here
    omega

theorem make_node_makes {v : TmpfsVolume} {call : TmpfsCall} (fresh : Fresh v call.address) {node : TmpfsNode}
    (at_ : v.info.nodes[call.dir]? = some node) (dir : node.type = .dir) (missing : dirFind v.info node call.name.bytes = none) :
    ∃ c v', makeNode v call = .ok (c, v') := by
  have inside := (List.getElem?_eq_some_iff.mp at_).1
  obtain rfl : v.info.nodes[call.dir] = node := (List.getElem?_eq_some_iff.mp at_).2
  rw [makeNode, tmpfsMake, dif_pos inside, if_neg (not_not_intro dir), if_neg (by rw [missing]; decide)]
  dsimp only
  rw [if_pos fresh]
  exact ⟨_, _, rfl⟩

theorem make_node_ok {v v' : TmpfsVolume} {call : TmpfsCall} {c : Nat} (made : makeNode v call = .ok (c, v')) :
    ∃ info, tmpfsMake call.type v.info call.dir call.name.bytes = .ok (c, info) ∧ Fresh v call.address ∧
      v' = ⟨info, (v.idCounter + 1) % 2 ^ 64, v.ids ++ [(v.idCounter + 1) % 2 ^ 64], v.addresses ++ [call.address]⟩ := by
  rw [makeNode] at made
  split at made
  · cases made
  · rename_i c' info making
    split at made
    · rename_i fresh
      rw [Except.ok.injEq, Prod.mk.injEq] at made
      obtain ⟨rfl, rfl⟩ := made
      exact ⟨info, making, fresh, rfl⟩
    · cases made

theorem make_names {info info' : TmpfsInfo} {type : VfsNodeType} {i c : Nat} {name : List UInt8}
    (names : ∀ (j : Nat) (node : TmpfsNode), info.nodes[j]? = some node → (node.children.map fun c => (info.nodes[c]?).map (·.name)).Nodup)
    (made : tmpfsMake type info i name = .ok (c, info')) {j : Nat} {node : TmpfsNode} (at_ : info'.nodes[j]? = some node) :
    (node.children.map fun c => (info'.nodes[c]?).map (·.name)).Nodup := by
  obtain ⟨dir, there, _, absent, rfl, nodes⟩ := tmpfs_make_ok made
  have kept : ∀ {j : Nat} {old : TmpfsNode}, info.nodes[j]? = some old →
      (old.children.map fun c => (info'.nodes[c]?).map (·.name)) = old.children.map fun c => (info.nodes[c]?).map (·.name) := by
    intro j old was
    refine List.map_congr_left fun c member => ?_
    obtain ⟨found, at_, _⟩ := info.tree.child j old c was member
    rw [nodes, grown_name i type name (List.getElem?_eq_some_iff.mp at_).1]
  rw [nodes] at at_
  obtain ⟨old, was, _, ⟨here, listed⟩ | listed⟩ | ⟨_, fresh⟩ := grown_cases at_
  · subst here
    obtain rfl : dir = old := Option.some.inj (there.symm.trans was)
    rw [listed, List.map_cons, List.nodup_cons, kept was]
    refine ⟨fun member => ?_, names _ _ was⟩
    rw [nodes, grown_new, List.mem_map] at member
    obtain ⟨c, listed, same⟩ := member
    exact dir_find_none.mp absent c listed same
  · rw [listed, kept was]
    exact names j old was
  · rw [fresh]
    exact List.nodup_nil

theorem make_node_sound {v v' : TmpfsVolume} {call : TmpfsCall} {c : Nat} (sound : TmpfsSound v)
    (made : makeNode v call = .ok (c, v')) : TmpfsSound v' := by
  obtain ⟨info, making, fresh, rfl⟩ := make_node_ok made
  have size : info.nodes.length = v.info.nodes.length + 1 := by
    obtain ⟨_, _, _, _, _, nodes⟩ := tmpfs_make_ok making
    rw [nodes, grown, List.length_append, List.length_modify]
    rfl
  have counter : (v.idCounter + 1) % 2 ^ 64 = idOf v.info.nodes.length := by
    rw [sound.counter, idOf]
    omega
  refine ⟨fun i node at_ => make_names sound.names making at_, ?_, ?_, ⟨?_, ?_⟩, ?_⟩
  · rw [size, List.range_succ, List.map_append, sound.ids, counter]
    rfl
  · dsimp only
    rw [size, counter, idOf]
  · rw [List.length_append, sound.placed.1, size]
    rfl
  · exact List.nodup_append.mpr ⟨sound.placed.2, List.nodup_singleton _, fun a member b one same =>
      fresh.2.2 (by rw [← List.mem_singleton.mp one, ← same]; exact member)⟩
  · intro a member
    rw [List.mem_append, List.mem_singleton] at member
    rcases member with member | rfl
    · exact sound.canonical a member
    · exact ⟨fresh.1, fresh.2.1⟩

theorem tmpfs_step_cases {v v' : TmpfsVolume} {call : TmpfsCall} (taken : tmpfsStep call v = some v') :
    v' = v ∨ ∃ c, makeNode v call = .ok (c, v') := by
  rw [tmpfsStep] at taken
  split at taken
  · rename_i c after made
    exact .inr ⟨c, Option.some.inj taken ▸ made⟩
  · exact .inl (Option.some.inj taken).symm
  · cases taken

theorem mounted_sound {address : Nat} (positive : 0 < address) (bounded : address < 2 ^ 64) : TmpfsSound (mountedTmpfs address) := by
  refine ⟨?_, rfl, rfl, ⟨rfl, List.nodup_singleton _⟩, ?_⟩
  · intro i node at_
    obtain rfl := List.mem_singleton.mp (List.mem_of_getElem? at_)
    exact List.nodup_nil
  · intro a member
    exact List.mem_singleton.mp member ▸ ⟨positive, bounded⟩

theorem tmpfs_sound {v : TmpfsVolume} (reach : Reachable TmpfsStarts tmpfsStep v) : TmpfsSound v := by
  refine reachable_invariant ?_ ?_ reach
  · rintro v ⟨address, positive, bounded, rfl⟩
    exact mounted_sound positive bounded
  · intro call v v' sound taken
    obtain rfl | ⟨c, made⟩ := tmpfs_step_cases taken
    · exact sound
    · exact make_node_sound sound made

theorem found_stays {v later : TmpfsVolume} {j : Nat} {name : List UInt8} {answer : Option Nat}
    (found : tmpfsLookup v.info j name = .ok answer) (reach : Reachable (· = v) tmpfsStep later) :
    tmpfsLookup later.info j name = .ok answer := by
  induction reach with
  | start s first => exact first ▸ found
  | step s s' call _ taken ih =>
      obtain rfl | ⟨c, made⟩ := tmpfs_step_cases taken
      · exact ih
      · obtain ⟨info, making, _, rfl⟩ := make_node_ok made
        exact tmpfs_make_keeps making ih

theorem make_node_exists {v : TmpfsVolume} {call : TmpfsCall} : makeNode v call = .error (.error .exists_) ↔
    ∃ node : TmpfsNode, v.info.nodes[call.dir]? = some node ∧ node.type = .dir ∧ ∃ c ∈ node.children, v.name c = some call.name.bytes := by
  have present : ∀ node : TmpfsNode, (dirFind v.info node call.name.bytes).isSome = true ↔
      ∃ c ∈ node.children, v.name c = some call.name.bytes := by
    intro node
    rw [← not_iff_not, Bool.not_eq_true, Option.isSome_eq_false_iff, Option.isNone_iff_eq_none, dir_find_none]
    simp [TmpfsVolume.name]
  rw [makeNode, tmpfsMake]
  by_cases inside : call.dir < v.info.nodes.length
  · rw [dif_pos inside]
    constructor
    · intro refused
      refine ⟨v.info.nodes[call.dir], List.getElem?_eq_getElem inside, ?_⟩
      by_cases other : (v.info.nodes[call.dir]).type ≠ .dir
      · rw [if_pos other] at refused
        cases refused
      rw [if_neg other] at refused
      by_cases found : (dirFind v.info v.info.nodes[call.dir] call.name.bytes).isSome = true
      · exact ⟨of_not_not other, (present _).mp found⟩
      · rw [if_neg found] at refused
        dsimp only at refused
        split at refused <;> cases refused
    · rintro ⟨node, at_, dir, listed⟩
      rw [List.getElem?_eq_getElem inside, Option.some.injEq] at at_
      subst at_
      rw [if_neg (not_not_intro dir), if_pos ((present _).mpr listed)]
  · rw [dif_neg inside]
    refine ⟨fun refused => (by cases refused), ?_⟩
    rintro ⟨node, at_, _⟩
    exact absurd (List.getElem?_eq_some_iff.mp at_).1 inside

-- A directory is a map exactly as long as nothing is made under a name that lookup takes for something else.
theorem tmpfs_map_iff {v : TmpfsVolume} (reach : Reachable TmpfsStarts tmpfsStep v) (call : TmpfsCall) (fresh : Fresh v call.address)
    {node : TmpfsNode} (at_ : v.info.nodes[call.dir]? = some node) :
    Mapped v call ↔ (call.name.bytes ≠ dot ∧ call.name.bytes ≠ dotdot) ∨ node.type ≠ .dir ∨
      ∃ c ∈ node.children, v.name c = some call.name.bytes := by
  have sound := tmpfs_sound reach
  constructor
  · intro mapped
    by_contra wrong
    simp only [not_or, not_not, not_and_or] at wrong
    obtain ⟨special, dir, absent⟩ := wrong
    have missing : dirFind v.info node call.name.bytes = none := dir_find_none.mpr fun c listed same => absent ⟨c, listed, same⟩
    obtain ⟨c, v', made⟩ := make_node_makes fresh at_ dir missing
    obtain ⟨info, making, _, rfl⟩ := make_node_ok made
    exact special_lost making special (mapped.kept c _ _ made (.start _ rfl))
  · intro allowed
    refine ⟨sound.names, ⟨?_, ?_⟩, make_node_exists, ?_, ?_, ?_⟩
    · rw [sound.ids, List.length_map, List.length_range]
    · rw [sound.ids]
      exact ids_nodup sound.few
    · intro e failed
      rw [tmpfsStep, failed]
    · intro c v' later made reach'
      obtain ⟨info, making, _, rfl⟩ := make_node_ok made
      refine found_stays ?_ reach'
      obtain ⟨node', there, dir, absent, _⟩ := tmpfs_make_ok making
      obtain rfl : node = node' := Option.some.inj (at_.symm.trans there)
      rcases allowed with plain | other | ⟨c', listed, same⟩
      · exact tmpfs_made_found plain making
      · exact absurd dir other
      · exact absurd same (dir_find_none.mp absent c' listed)
    · intro c v' j name made within apart
      obtain ⟨info, making, _, rfl⟩ := make_node_ok made
      exact tmpfs_make_others making within (apart.imp_right .inl)

def makeTmp : TmpfsCall := ⟨.dir, 0, ⟨[116, 109, 112], by decide⟩, 8⟩

theorem tmpfs_map_tmp : Mapped (mountedTmpfs 4) makeTmp :=
  (tmpfs_map_iff (.start _ ⟨4, by decide, by decide, rfl⟩) makeTmp (by decide) rfl).mpr (.inl (by decide))

-- mkdir of ".".
def makeDot : TmpfsCall := ⟨.dir, 0, ⟨dot, by decide⟩, 8⟩

theorem tmpfs_map_dot :
    Reachable TmpfsStarts tmpfsStep (mountedTmpfs 4) ∧
    (∃ v', makeNode (mountedTmpfs 4) makeDot = .ok (1, v') ∧ tmpfsLookup v'.info 0 dot = .ok (some 0)) ∧
    ¬ Mapped (mountedTmpfs 4) makeDot := by
  refine ⟨.start _ ⟨4, by decide, by decide, rfl⟩, ⟨_, rfl, rfl⟩, fun mapped => ?_⟩
  have here := mapped.kept 1 _ _ rfl (.start _ rfl)
  cases here

end Runs

end Elysium.Fs
