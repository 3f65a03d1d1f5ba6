import Elysium.Namespaces
import Elysium.Transitions
import Elysium.Vfs

set_option autoImplicit false

namespace Elysium.Fs

open Namespaces (Forest Layered)
open Transitions (Reachable reachable_invariant execute reachable_execute)

theorem except_map_ok {α β ε : Type} {f : α → β} {value : Except ε α} {y : β} (mapped : value.map f = .ok y) :
    ∃ x, value = .ok x ∧ f x = y := by
  cases value with
  | error e => cases mapped
  | ok x => exact ⟨x, rfl, Except.ok.inj mapped⟩

theorem except_bind_ok {α β ε : Type} {f : α → Except ε β} {value : Except ε α} {y : β}
    (bound : value.bind f = .ok y) : ∃ x, value = .ok x ∧ f x = .ok y := by
  cases value with
  | error e => cases bound
  | ok x => exact ⟨x, rfl, bound⟩

section FileSystems

theorem dir_find_child {info : TmpfsInfo} {i c : Nat} {node : TmpfsNode} {name : List UInt8}
    (at_ : info.nodes[i]? = some node) (found : dirFind info node name = some c) :
    ∃ child : TmpfsNode, info.nodes[c]? = some child ∧ child.parent = some i :=
  info.tree.child i node c at_ (List.mem_of_find?_eq_some found)

theorem tmpfs_root_up (info : TmpfsInfo) : tmpfsLookup info 0 dotdot = .ok none := by
  obtain ⟨root, at_, top, dir⟩ := info.tree.root
  rw [tmpfsLookup, at_]
  dsimp only
  rw [if_neg (not_not_intro dir), if_neg (by decide), if_pos rfl, top]

theorem tmpfs_up_only {info : TmpfsInfo} {i : Nat} {name : List UInt8} (found : tmpfsLookup info i name = .ok none) :
    name = dotdot := by
  rw [tmpfsLookup] at found
  split at found
  · cases found
  · split at found
    · cases found
    · split at found
      · cases found
      · split at found
        · assumption
        · split at found <;> cases found

theorem tmpfs_up_moves {info : TmpfsInfo} {i p : Nat} (found : tmpfsLookup info i dotdot = .ok (some p)) : p ≠ i := by
  rw [tmpfsLookup] at found
  split at found
  · cases found
  · rename_i node at_
    split at found
    · cases found
    · rw [if_neg (by decide), if_pos rfl, Except.ok.injEq] at found
      exact Nat.ne_of_lt (info.tree.parent i node p at_ found)

-- What a directory lists under a name has the directory as its parent.
theorem tmpfs_child_up {info : TmpfsInfo} {i c : Nat} {name : List UInt8} (plain : name ≠ dot ∧ name ≠ dotdot)
    (found : tmpfsLookup info i name = .ok (some c)) :
    ∃ child : TmpfsNode, info.nodes[c]? = some child ∧ child.parent = some i := by
  rw [tmpfsLookup] at found
  split at found
  · cases found
  · rename_i node at_
    split at found
    · cases found
    · rw [if_neg plain.1, if_neg plain.2] at found
      split at found
      · cases found
      · rename_i c' there
        rw [Except.ok.injEq, Option.some.injEq] at found
        exact found ▸ dir_find_child at_ there

theorem tmpfs_dir_up {info : TmpfsInfo} {c i : Nat} {child : TmpfsNode} (at_ : info.nodes[c]? = some child)
    (up : child.parent = some i) (dir : child.type = .dir) : tmpfsLookup info c dotdot = .ok (some i) := by
  rw [tmpfsLookup, at_]
  dsimp only
  rw [if_neg (not_not_intro dir), if_neg (by decide), if_pos rfl, up]

theorem rdsk_formed (image : RdskImage) {i : Nat} {dir : RdskDir} (at_ : image.tables.getDir i = some dir) :
    image.tables.dirWellFormed i dir = true := by
  have formed := image.formed
  rw [RdskTables.wellFormed, Bool.and_eq_true, Bool.and_eq_true, List.all_eq_true] at formed
  have within : i < image.tables.dirs.length + 1 := by
    rw [RdskTables.getDir] at at_
    split at at_
    · cases at_
    · have inside := (List.getElem?_eq_some_iff.mp at_).1
      omega
  have all := formed.1.2 i (List.mem_range.mpr within)
  rwa [at_, Option.all_some] at all

theorem rdsk_root (image : RdskImage) :
    ∃ dir, image.tables.getDir image.tables.rootIndex = some dir ∧ dir.parentIndex = 0 := by
  have formed := image.formed
  rw [RdskTables.wellFormed, Bool.and_eq_true, Bool.and_eq_true, Option.any_eq_true] at formed
  obtain ⟨dir, at_, top⟩ := formed.1.1
  exact ⟨dir, at_, by simpa using top⟩

theorem rdsk_up_moves (image : RdskImage) {i : Nat} {dir : RdskDir} (at_ : image.tables.getDir i = some dir) :
    dir.parentIndex ≠ i := by
  have formed := rdsk_formed image at_
  rw [RdskTables.dirWellFormed, Bool.and_eq_true, Bool.and_eq_true, Bool.and_eq_true, Bool.and_eq_true] at formed
  exact bne_iff_ne.mp formed.1.1.1.1

theorem rdsk_listed (image : RdskImage) {i c : Nat} {dir : RdskDir} {name : List UInt8}
    (at_ : image.tables.getDir i = some dir) (found : findDir image.tables dir name = some c) :
    ∃ child, image.tables.getDir c = some child ∧ child.parentIndex = i := by
  have formed := rdsk_formed image at_
  rw [RdskTables.dirWellFormed, Bool.and_eq_true, Bool.and_eq_true, Bool.and_eq_true, Bool.and_eq_true,
    Option.any_eq_true] at formed
  obtain ⟨listed, chained, all⟩ := formed.1.1.2
  have member := List.mem_of_find?_eq_some found
  rw [chained, Option.getD_some] at member
  have up := List.all_eq_true.mp all c member
  rw [Option.any_eq_true] at up
  obtain ⟨child, there, same⟩ := up
  exact ⟨child, there, by simpa using same⟩

theorem rdsk_root_up (image : RdskImage) : rdskLookup image.tables image.tables.rootIndex dotdot = .ok none := by
  obtain ⟨dir, at_, top⟩ := rdsk_root image
  rw [rdskLookup, at_]
  dsimp only
  rw [if_neg (by decide), if_pos rfl, if_neg (not_not_intro top)]

theorem rdsk_up_only {t : RdskTables} {i : Nat} {name : List UInt8} (found : rdskLookup t i name = .ok none) :
    name = dotdot := by
  rw [rdskLookup] at found
  split at found
  · cases found
  · split at found
    · cases found
    · split at found
      · assumption
      · split at found
        · cases found
        · split at found <;> cases found

theorem rdsk_lookup_moves {image : RdskImage} {i : Nat} {d : NodeData}
    (found : rdskLookup image.tables i dotdot = .ok (some d)) : d ≠ .rdskDir i := by
  rw [rdskLookup] at found
  split at found
  · cases found
  · rename_i dir at_
    rw [if_neg (by decide), if_pos rfl] at found
    split at found
    · rw [Except.ok.injEq, Option.some.injEq] at found
      rintro rfl
      exact rdsk_up_moves image at_ (NodeData.rdskDir.inj found)
    · cases found

theorem rdsk_child_up {image : RdskImage} {i c : Nat} {name : List UInt8} (plain : name ≠ dot ∧ name ≠ dotdot)
    (found : rdskLookup image.tables i name = .ok (some (.rdskDir c))) :
    rdskLookup image.tables c dotdot = .ok (some (.rdskDir i)) := by
  rw [rdskLookup] at found
  split at found
  · cases found
  · rename_i dir at_
    rw [if_neg plain.1, if_neg plain.2] at found
    split at found
    · cases found
    · split at found
      · rename_i c' there
        rw [Except.ok.injEq, Option.some.injEq, NodeData.rdskDir.injEq] at found
        subst found
        obtain ⟨child, at_', up⟩ := rdsk_listed image at_ there
        have nonzero : i ≠ 0 := by
          rintro rfl
          rw [RdskTables.getDir, if_pos rfl] at at_
          cases at_
        rw [rdskLookup, at_']
        dsimp only
        rw [if_neg (by decide), if_pos rfl, if_pos (up ▸ nonzero), up]
      · cases found

end FileSystems

section Layers

-- Every file system but the first is mounted on a node of an earlier one, which knows it.
structure Mounts (s : State) : Prop where
  later : ∀ node v, s.mountedVfs node = some v → node.vfs < v ∧ v < s.all.length
  point : ∀ node v, s.mountedVfs node = some v ↔ s.mountPoint v = some node

def forest (s : State) : Forest Node (List UInt8) Stop where
  volumes := s.all.length
  volume := Node.vfs
  find := s.lookup
  up := dotdot
  root := s.rootNode
  mounted := s.mountedVfs
  mountPoint := s.mountPoint

theorem lookup_ok {s : State} {node : Node} {name : List UInt8} {answer : Option Node}
    (found : s.lookup node name = .ok answer) :
    (∃ info i a, s.data node.vfs = some (.tmpfs info) ∧ node.data = .tmpfs i ∧ tmpfsLookup info i name = .ok a ∧
      answer = a.map fun c => ⟨node.vfs, .tmpfs c⟩) ∨
    ∃ image i a, s.data node.vfs = some (.rdsk image) ∧ node.data = .rdskDir i ∧
      rdskLookup image.tables i name = .ok a ∧ answer = a.map fun d => ⟨node.vfs, d⟩ := by
  rw [State.lookup] at found
  split at found
  · rename_i info i data at_
    obtain ⟨a, looked, same⟩ := except_map_ok found
    exact .inl ⟨info, i, a, data, at_, looked, same.symm⟩
  · rename_i image i data at_
    obtain ⟨a, looked, same⟩ := except_map_ok found
    exact .inr ⟨image, i, a, data, at_, looked, same.symm⟩
  · cases found
  · cases found

theorem data_within {s : State} {v : Nat} {d : VfsData} (at_ : s.data v = some d) : v < s.all.length := by
  rw [State.data, Option.map_eq_some_iff] at at_
  obtain ⟨vfs, there, _⟩ := at_
  exact (List.getElem?_eq_some_iff.mp there).1

theorem lookup_within {s : State} {node : Node} {name : List UInt8} {answer : Option Node}
    (found : s.lookup node name = .ok answer) : node.vfs < s.all.length := by
  obtain ⟨_, _, _, data, _⟩ | ⟨_, _, _, data, _⟩ := lookup_ok found
  · exact data_within data
  · exact data_within data

theorem lookup_vfs {s : State} {node found : Node} {name : List UInt8}
    (looked : s.lookup node name = .ok (some found)) : found.vfs = node.vfs := by
  obtain ⟨_, _, a, _, _, _, same⟩ | ⟨_, _, a, _, _, _, same⟩ := lookup_ok looked
  · obtain ⟨c, _, rfl⟩ := Option.map_eq_some_iff.mp same.symm
    rfl
  · obtain ⟨d, _, rfl⟩ := Option.map_eq_some_iff.mp same.symm
    rfl

theorem lookup_up_only {s : State} {node : Node} {name : List UInt8} (looked : s.lookup node name = .ok none) :
    name = dotdot := by
  obtain ⟨_, _, a, _, _, found, same⟩ | ⟨_, _, a, _, _, found, same⟩ := lookup_ok looked
  · rw [Option.map_eq_none_iff.mp same.symm] at found
    exact tmpfs_up_only found
  · rw [Option.map_eq_none_iff.mp same.symm] at found
    exact rdsk_up_only found

theorem lookup_up_moves {s : State} {node up : Node} (looked : s.lookup node dotdot = .ok (some up)) : up ≠ node := by
  rintro rfl
  obtain ⟨info, i, a, _, at_, found, same⟩ | ⟨image, i, a, _, at_, found, same⟩ := lookup_ok looked
  · obtain ⟨c, rfl, here⟩ := Option.map_eq_some_iff.mp same.symm
    rw [← here, NodeData.tmpfs.injEq] at at_
    exact tmpfs_up_moves found at_
  · obtain ⟨d, rfl, here⟩ := Option.map_eq_some_iff.mp same.symm
    rw [← here] at at_
    exact rdsk_lookup_moves found at_

theorem root_node_vfs {s : State} {v : Nat} {root : Node} (at_ : s.rootNode v = .ok root) : root.vfs = v := by
  rw [State.rootNode] at at_
  split at at_
  · rw [← Except.ok.inj at_]
  · rw [← Except.ok.inj at_]
  · cases at_

theorem root_node_within {s : State} {v : Nat} {root : Node} (at_ : s.rootNode v = .ok root) : v < s.all.length := by
  rw [State.rootNode] at at_
  split at at_
  · exact data_within (by assumption)
  · exact data_within (by assumption)
  · cases at_

theorem root_node_up {s : State} {v : Nat} {root : Node} (at_ : s.rootNode v = .ok root) :
    s.lookup root dotdot = .ok none := by
  rw [State.rootNode] at at_
  split at at_
  · rename_i info data
    rw [← Except.ok.inj at_, State.lookup]
    simp only [data, tmpfs_root_up]
    rfl
  · rename_i image data
    rw [← Except.ok.inj at_, State.lookup]
    simp only [data, rdsk_root_up]
    rfl
  · cases at_

theorem forest_layered {s : State} (mounts : Mounts s) : Layered (forest s) where
  root_volume := root_node_vfs
  mounted_later := mounts.later _ _
  mounted_point := mounts.point _ _
  find_within := lookup_within
  find_volume := lookup_vfs
  root_up := root_node_up
  up_only := lookup_up_only
  up_moves := lookup_up_moves

-- The directory that a directory is listed in is its parent.
theorem lookup_child_up {s : State} {node child : Node} {name : List UInt8} (plain : name ≠ dot ∧ name ≠ dotdot)
    (looked : s.lookup node name = .ok (some child)) (dir : s.type child = some .dir) :
    s.lookup child dotdot = .ok (some node) := by
  have vfs := lookup_vfs looked
  obtain ⟨info, i, a, data, at_, found, same⟩ | ⟨image, i, a, data, at_, found, same⟩ := lookup_ok looked
  · obtain ⟨c, rfl, rfl⟩ := Option.map_eq_some_iff.mp same.symm
    obtain ⟨entry, there, up⟩ := tmpfs_child_up plain found
    rw [State.type] at dir
    simp only [data, there, Option.map_some, Option.some.injEq] at dir
    rw [State.lookup]
    simp only [data, tmpfs_dir_up there up dir, Except.map, Option.map_some]
    rw [← at_]
  · obtain ⟨d, rfl, rfl⟩ := Option.map_eq_some_iff.mp same.symm
    rw [State.type] at dir
    cases d with
    | tmpfs c => simp only [data, reduceCtorEq] at dir
    | rdskFile c =>
        simp only [data, Option.map_eq_some_iff, reduceCtorEq, and_false, exists_false] at dir
    | rdskDir c =>
        rw [State.lookup]
        simp only [data, rdsk_child_up plain found, Except.map, Option.map_some]
        rw [← at_]

end Layers

section Runs

-- What mkdir and mkfile leave alone.
def SameMounts (s s' : State) : Prop :=
  s'.all.length = s.all.length ∧ s'.mountedVfs = s.mountedVfs ∧ s'.mountPoint = s.mountPoint

theorem same_mounts {s s' : State} (same : SameMounts s s') (mounts : Mounts s) : Mounts s' := by
  obtain ⟨length, mounted, points⟩ := same
  refine ⟨?_, ?_⟩
  · intro node v at_
    rw [length]
    exact mounts.later node v (mounted ▸ at_)
  · intro node v
    rw [mounted, points]
    exact mounts.point node v

theorem make_same {s s' : State} {type : VfsNodeType} {node made : Node} {name : List UInt8}
    (done : s.make type node name = .ok (made, s')) : SameMounts s s' ∧ made.vfs = node.vfs := by
  rw [State.make] at done
  split at done
  · split at done
    · cases done
    · rename_i info i data _ _ c info' _
      rw [Except.ok.injEq, Prod.mk.injEq] at done
      obtain ⟨rfl, rfl⟩ := done
      refine ⟨⟨List.length_modify .., rfl, ?_⟩, rfl⟩
      funext v
      rw [State.mountPoint, State.mountPoint, List.getElem?_modify]
      cases at_ : s.all[v]? with
      | none => rfl
      | some vfs =>
          rw [Option.map_eq_map, Option.map_some, Option.bind_some, Option.bind_some]
          split <;> rfl
  · cases done
  · cases done
  · cases done

theorem lookup_component_vfs {s : State} {current next : Node} {component : List UInt8}
    (looked : lookupComponent s current component = .ok next) : next.vfs = current.vfs := by
  rw [lookupComponent] at looked
  split at looked
  · cases looked
  · rename_i next' found
    exact (Except.ok.inj looked) ▸ lookup_vfs found
  · split at looked
    · obtain ⟨_, _, same⟩ := except_map_ok looked
      rw [same]
    · rw [Except.ok.inj looked]

theorem end_component_same {s s' : State} {create : LookupCreate} {exclusive last : Bool} {current next : Node}
    {component : List UInt8} (done : endComponent s create exclusive last current component = .ok (next, s')) :
    SameMounts s s' ∧ next.vfs = current.vfs := by
  rw [endComponent] at done
  split at done
  · cases done
  · cases done
  · split at done
    · cases create with
      | file => exact make_same done
      | dir => exact make_same done
      | none => cases done
    · split at done <;> cases done
  · rename_i next' looked
    split at done
    · cases done
    · rw [Except.ok.injEq, Prod.mk.injEq] at done
      obtain ⟨rfl, rfl⟩ := done
      exact ⟨⟨rfl, rfl, rfl⟩, lookup_component_vfs looked⟩

theorem cross_mount_within {s : State} {node next : Node} (inside : node.vfs < s.all.length)
    (crossed : crossMount s node = .ok next) : next.vfs < s.all.length := by
  rw [crossMount] at crossed
  split at crossed
  · exact (Except.ok.inj crossed) ▸ inside
  · rw [root_node_vfs crossed]
    exact root_node_within crossed

theorem lookup_loop_same {create : LookupCreate} {exclusive : Bool} {rest : List UInt8} {s s' : State} {compEnd : Nat}
    {component : List UInt8} {current found : Node}
    (done : lookupLoop create exclusive rest s compEnd component current = .ok (found, s')) :
    SameMounts s s' ∧ (current.vfs < s.all.length → found.vfs < s.all.length) := by
  induction rest generalizing s compEnd component current with
  | nil =>
      rw [lookupLoop] at done
      split at done
      · cases done
      split at done
      · obtain ⟨node, crossed, same⟩ := except_map_ok done
        rw [Prod.mk.injEq] at same
        obtain ⟨rfl, rfl⟩ := same
        exact ⟨⟨rfl, rfl, rfl⟩, fun inside => cross_mount_within inside crossed⟩
      · obtain ⟨⟨next, s₁⟩, ended, mapped⟩ := except_bind_ok done
        obtain ⟨node, crossed, same⟩ := except_map_ok mapped
        rw [Prod.mk.injEq] at same
        obtain ⟨rfl, rfl⟩ := same
        obtain ⟨kept, vfs⟩ := end_component_same ended
        refine ⟨kept, fun inside => ?_⟩
        rw [← kept.1]
        refine cross_mount_within ?_ crossed
        rw [vfs, kept.1]
        exact inside
  | cons byte rest ih =>
      rw [lookupLoop] at done
      split at done
      · cases done
      split at done
      · split at done
        · obtain ⟨node, crossed, later⟩ := except_bind_ok done
          exact ⟨(ih later).1, fun inside => (ih later).2 (cross_mount_within inside crossed)⟩
        · obtain ⟨⟨next, s₁⟩, ended, bound⟩ := except_bind_ok done
          obtain ⟨node, crossed, later⟩ := except_bind_ok bound
          obtain ⟨kept, vfs⟩ := end_component_same ended
          obtain ⟨kept', within⟩ := ih later
          refine ⟨⟨kept'.1.trans kept.1, kept'.2.1.trans kept.2.1, kept'.2.2.trans kept.2.2⟩, fun inside => ?_⟩
          rw [← kept.1]
          refine within (cross_mount_within ?_ crossed)
          rw [vfs, kept.1]
          exact inside
      · obtain ⟨node, crossed, later⟩ := except_bind_ok done
        exact ⟨(ih later).1, fun inside => (ih later).2 (cross_mount_within inside crossed)⟩

theorem vfs_root_within {s : State} {root : Node} (at_ : vfsRoot s = .ok root) : root.vfs < s.all.length := by
  rw [vfsRoot] at at_
  split at at_
  · cases at_
  · rw [root_node_vfs at_]
    exact root_node_within at_

theorem lookup_ext_same {s s' : State} {root : Option Node} {path : List UInt8} {create : LookupCreate}
    {exclusive : Bool} {found : Node} (done : vfsLookupExt s root path create exclusive = .ok (found, s')) :
    SameMounts s s' ∧ (root = none → found.vfs < s.all.length) := by
  rw [vfsLookupExt.eq_def] at done
  split at done
  · obtain ⟨node, at_, later⟩ := except_bind_ok done
    cases path with
    | nil => cases later
    | cons byte rest => exact ⟨(lookup_loop_same later).1, fun _ => (lookup_loop_same later).2 (vfs_root_within at_)⟩
  · rename_i given
    cases root with
    | none => exact absurd (.inr rfl) given
    | some node =>
        refine ⟨(lookup_loop_same done).1, fun none_ => ?_⟩
        cases none_

theorem vfs_lookup_within {s : State} {path : List UInt8} {found : Node} (done : vfsLookup s none path = .ok found) :
    found.vfs < s.all.length := by
  obtain ⟨⟨node, s'⟩, looked, same⟩ := except_map_ok done
  exact same ▸ (lookup_ext_same looked).2 rfl

theorem mount_point_push (s : State) (vfs : Vfs) (mounted : Node → Option Nat) (v : Nat) :
    (State.mk (s.all ++ [vfs]) mounted).mountPoint v = if v = s.all.length then vfs.mountPoint else s.mountPoint v := by
  rw [State.mountPoint]
  by_cases new : v = s.all.length
  · rw [if_pos new, new, List.getElem?_concat_length]
    rfl
  · rw [if_neg new, State.mountPoint]
    by_cases old : v < s.all.length
    · rw [List.getElem?_append_left old]
    · rw [List.getElem?_eq_none (by simp only [List.length_append, List.length_singleton]; omega),
        List.getElem?_eq_none (by omega)]

theorem mount_mounts {s s' : State} {ops : VfsOps} {path : Option (List UInt8)} (mounts : Mounts s)
    (done : vfsMount s ops path = .ok s') : Mounts s' := by
  have unmounted : ∀ node, s.mountedVfs node ≠ some s.all.length := by
    intro node at_
    have later := mounts.later node s.all.length at_
    omega
  have nowhere : s.mountPoint s.all.length = none := by
    rw [State.mountPoint, List.getElem?_eq_none (Nat.le_refl _)]
    rfl
  rw [vfsMount.eq_def] at done
  split at done
  · split at done
    · cases done
    · obtain rfl := Except.ok.inj done
      refine ⟨?_, ?_⟩
      · intro node v at_
        have later := mounts.later node v at_
        exact ⟨later.1, by rw [List.length_append]; exact Nat.lt_add_right 1 later.2⟩
      · intro node v
        rw [mount_point_push]
        by_cases new : v = s.all.length
        · rw [if_pos new, new]
          exact ⟨fun at_ => absurd at_ (unmounted node), fun at_ => by cases at_⟩
        · rw [if_neg new]
          exact mounts.point node v
  · split at done
    · cases done
    obtain ⟨point, looked, later⟩ := except_bind_ok done
    split at later
    · cases later
    · cases later
    split at later
    · cases later
    rename_i bare
    obtain rfl := Except.ok.inj later
    have inside := vfs_lookup_within looked
    have free : s.mountedVfs point = none := by
      cases at_ : s.mountedVfs point with
      | none => rfl
      | some v => exact absurd (by rw [at_]; rfl) bare
    refine ⟨?_, ?_⟩
    · intro node v at_
      dsimp only at at_ ⊢
      rw [List.length_append]
      by_cases here : node = point
      · rw [here, Function.update_self, Option.some.injEq] at at_
        rw [← at_, here]
        exact ⟨inside, Nat.lt_succ_self _⟩
      · rw [Function.update_of_ne here] at at_
        have before := mounts.later node v at_
        exact ⟨before.1, Nat.lt_add_right 1 before.2⟩
    · intro node v
      rw [mount_point_push]
      dsimp only
      by_cases here : node = point
      · subst here
        rw [Function.update_self, Option.some.injEq]
        by_cases new : v = s.all.length
        · rw [if_pos new]
          exact ⟨fun _ => rfl, fun _ => new.symm⟩
        · rw [if_neg new]
          refine ⟨fun same => absurd same.symm new, fun at_ => ?_⟩
          rw [← mounts.point, free] at at_
          cases at_
      · rw [Function.update_of_ne here]
        by_cases new : v = s.all.length
        · rw [if_pos new, new, Option.some.injEq]
          exact ⟨fun at_ => absurd at_ (unmounted node), fun same => absurd same.symm here⟩
        · rw [if_neg new]
          exact mounts.point node v

theorem settle_cases {s s' : State} {result : Except Stop State} (settled : settle s result = some s') :
    s' = s ∨ result = .ok s' := by
  cases result with
  | ok after => exact .inr (congrArg _ (Option.some.inj settled))
  | error stop =>
      cases stop with
      | error e => exact .inl (Option.some.inj settled).symm
      | overrun => cases settled
      | garbage => cases settled

theorem step_mounts {call : Call} {s s' : State} (mounts : Mounts s) (taken : step call s = some s') : Mounts s' := by
  cases call with
  | mount ops path =>
      obtain rfl | done := settle_cases taken
      · exact mounts
      · exact mount_mounts mounts done
  | make type root path name =>
      obtain rfl | done := settle_cases taken
      · exact mounts
      obtain ⟨⟨node, after⟩, made, rfl⟩ := except_map_ok done
      obtain ⟨_, _, made⟩ := except_bind_ok made
      exact same_mounts (make_same made).1 mounts
  | lookup root path create exclusive =>
      obtain rfl | done := settle_cases taken
      · exact mounts
      obtain ⟨⟨node, after⟩, looked, rfl⟩ := except_map_ok done
      exact same_mounts (lookup_ext_same looked).1 mounts

def Starts (s : State) : Prop := s = start

theorem start_mounts : Mounts start := by
  refine ⟨?_, ?_⟩
  · intro node v at_
    cases at_
  · intro node v
    constructor
    · intro at_
      cases at_
    · intro at_
      rw [State.mountPoint, start, List.getElem?_nil] at at_
      cases at_

theorem reachable_mounts {s : State} (reach : Reachable Starts step s) : Mounts s :=
  reachable_invariant (fun _ first => first ▸ start_mounts) (fun _ _ _ mounts taken => step_mounts mounts taken) reach

end Runs

end Elysium.Fs
