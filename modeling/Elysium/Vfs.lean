import Mathlib.Logic.Function.Basic

set_option autoImplicit false

namespace Elysium.Fs

-- vfs_result_t, less VFS_RESULT_OK.
inductive VfsError where
  | unsupported
  | notFile
  | notDir
  | notFound
  | exists_
  | readOnlyFs
deriving DecidableEq, Repr

-- How a call ends other than with VFS_RESULT_OK: with an error, or in behaviour C does not
-- define. overrun stands for a path that is read past its end or whose index leaves int,
-- garbage for a pointer that is null or a file system whose private data was never set up.
inductive Stop where
  | error (result : VfsError)
  | overrun
  | garbage
deriving DecidableEq, Repr

inductive VfsNodeType where
  | file
  | dir
deriving DecidableEq, Repr

-- The bytes of a C string, without the terminator.
structure CString where
  bytes : List UInt8
  ended : (0 : UInt8) ∉ bytes
deriving DecidableEq

def slash : UInt8 := 47

def dot : List UInt8 := [46]

def dotdot : List UInt8 := [46, 46]

section Tmpfs

-- tmpfs_node_t, with the children in the order of their sibling pointers.
structure TmpfsNode where
  name : List UInt8
  parent : Option Nat
  type : VfsNodeType
  children : List Nat

-- The nodes of one tmpfs in the order they were made; the root is the first, and a node
-- stands among the children of the node it names as its parent, made before it.
structure TmpfsTree (nodes : List TmpfsNode) : Prop where
  root : ∃ node : TmpfsNode, nodes[0]? = some node ∧ node.parent = none ∧ node.type = .dir
  parent : ∀ (i : Nat) (node : TmpfsNode) (p : Nat), nodes[i]? = some node → node.parent = some p → p < i
  child : ∀ (i : Nat) (node : TmpfsNode) (c : Nat), nodes[i]? = some node → c ∈ node.children →
    ∃ found : TmpfsNode, nodes[c]? = some found ∧ found.parent = some i

structure TmpfsInfo where
  nodes : List TmpfsNode
  tree : TmpfsTree nodes

def dirFind (info : TmpfsInfo) (dir : TmpfsNode) (name : List UInt8) : Option Nat :=
  dir.children.find? fun c => (info.nodes[c]?).any fun node => node.name == name

def tmpfsLookup (info : TmpfsInfo) (i : Nat) (name : List UInt8) : Except Stop (Option Nat) :=
  match info.nodes[i]? with
  | none => .error .garbage
  | some node =>
    if node.type ≠ .dir then .error (.error .notDir)
    else if name = dot then .ok (some i)
    else if name = dotdot then .ok node.parent
    else
      match dirFind info node name with
      | none => .error (.error .notFound)
      | some c => .ok (some c)

theorem root_tree (name : List UInt8) : TmpfsTree [⟨name, none, .dir, []⟩] := by
  refine ⟨⟨_, rfl, rfl, rfl⟩, ?_, ?_⟩
  · intro i node p at_ up
    obtain rfl := List.mem_singleton.mp (List.mem_of_getElem? at_)
    cases up
  · intro i node c at_ child
    obtain rfl := List.mem_singleton.mp (List.mem_of_getElem? at_)
    cases child

-- tmpfs_mount makes the root, named "root".
def tmpfsMount : TmpfsInfo := ⟨[⟨[114, 111, 111, 116], none, .dir, []⟩], root_tree _⟩

def addChild (c : Nat) (node : TmpfsNode) : TmpfsNode := { node with children := c :: node.children }

-- The node table once make_tmpfs_node has put a node at the head of its parent's children.
def grown (nodes : List TmpfsNode) (parent : Nat) (type : VfsNodeType) (name : List UInt8) : List TmpfsNode :=
  nodes.modify parent (addChild nodes.length) ++ [⟨name, some parent, type, []⟩]

theorem grown_old (nodes : List TmpfsNode) (parent : Nat) (type : VfsNodeType) (name : List UInt8) {i : Nat}
    (old : i < nodes.length) :
    (grown nodes parent type name)[i]? = (nodes[i]?).map fun node => if parent = i then addChild nodes.length node else node := by
  rw [grown, List.getElem?_append_left (by rw [List.length_modify]; exact old), List.getElem?_modify]
  rfl

theorem grown_new (nodes : List TmpfsNode) (parent : Nat) (type : VfsNodeType) (name : List UInt8) :
    (grown nodes parent type name)[nodes.length]? = some ⟨name, some parent, type, []⟩ := by
  rw [grown, List.getElem?_append_right (Nat.le_of_eq (List.length_modify ..)), List.length_modify, Nat.sub_self]
  rfl

theorem grown_cases {nodes : List TmpfsNode} {parent : Nat} {type : VfsNodeType} {name : List UInt8} {i : Nat}
    {node : TmpfsNode} (at_ : (grown nodes parent type name)[i]? = some node) :
    (∃ old, nodes[i]? = some old ∧ node.parent = old.parent ∧
      (parent = i ∧ node.children = nodes.length :: old.children ∨ node.children = old.children)) ∨
    i = nodes.length ∧ node = ⟨name, some parent, type, []⟩ := by
  by_cases old : i < nodes.length
  · rw [grown_old nodes parent type name old, Option.map_eq_some_iff] at at_
    obtain ⟨before, was, changed⟩ := at_
    refine .inl ⟨before, was, ?_⟩
    by_cases here : parent = i
    · rw [if_pos here] at changed
      rw [← changed]
      exact ⟨rfl, .inl ⟨here, rfl⟩⟩
    · rw [if_neg here] at changed
      rw [← changed]
      exact ⟨rfl, .inr rfl⟩
  · have size : (grown nodes parent type name).length = nodes.length + 1 := by
      rw [grown, List.length_append, List.length_modify]
      rfl
    have within := (List.getElem?_eq_some_iff.mp at_).1
    have last : i = nodes.length := by omega
    rw [last, grown_new, Option.some.injEq] at at_
    exact .inr ⟨last, at_.symm⟩

theorem grown_keeps {nodes : List TmpfsNode} (parent : Nat) (type : VfsNodeType) (name : List UInt8) {i : Nat}
    {node : TmpfsNode} (was : nodes[i]? = some node) :
    ∃ now, (grown nodes parent type name)[i]? = some now ∧ now.parent = node.parent ∧ now.type = node.type := by
  rw [grown_old nodes parent type name (List.getElem?_eq_some_iff.mp was).1, was]
  by_cases here : parent = i
  · exact ⟨addChild nodes.length node, by rw [Option.map_some, if_pos here], rfl, rfl⟩
  · exact ⟨node, by rw [Option.map_some, if_neg here], rfl, rfl⟩

theorem grown_tree {nodes : List TmpfsNode} (tree : TmpfsTree nodes) {parent : Nat} (inside : parent < nodes.length)
    (type : VfsNodeType) (name : List UInt8) : TmpfsTree (grown nodes parent type name) := by
  refine ⟨?_, ?_, ?_⟩
  · obtain ⟨node, at_, top, dir⟩ := tree.root
    obtain ⟨now, there, sameParent, sameType⟩ := grown_keeps parent type name at_
    exact ⟨now, there, sameParent.trans top, sameType.trans dir⟩
  · intro i node p at_ up
    obtain ⟨old, was, same, _⟩ | ⟨last, fresh⟩ := grown_cases at_
    · exact tree.parent i old p was (same ▸ up)
    · rw [fresh, Option.some.injEq] at up
      omega
  · intro i node c at_ member
    obtain ⟨old, was, _, ⟨here, listed⟩ | listed⟩ | ⟨_, fresh⟩ := grown_cases at_
    · rw [listed, List.mem_cons] at member
      obtain rfl | member := member
      · exact ⟨_, grown_new nodes parent type name, by rw [here]⟩
      · obtain ⟨found, there, up⟩ := tree.child i old c was member
        obtain ⟨now, at_, same, _⟩ := grown_keeps parent type name there
        exact ⟨now, at_, same.trans up⟩
    · rw [listed] at member
      obtain ⟨found, there, up⟩ := tree.child i old c was member
      obtain ⟨now, at_, same, _⟩ := grown_keeps parent type name there
      exact ⟨now, at_, same.trans up⟩
    · rw [fresh] at member
      cases member

def makeTmpfsNode (info : TmpfsInfo) (parent : Nat) (inside : parent < info.nodes.length) (type : VfsNodeType)
    (name : List UInt8) : TmpfsInfo :=
  ⟨grown info.nodes parent type name, grown_tree info.tree inside type name⟩

-- tmpfs_mkdir and tmpfs_mkfile differ in the type of what they make.
def tmpfsMake (type : VfsNodeType) (info : TmpfsInfo) (i : Nat) (name : List UInt8) :
    Except Stop (Nat × TmpfsInfo) :=
  if inside : i < info.nodes.length then
    if (info.nodes[i]).type ≠ .dir then .error (.error .notDir)
    else if (dirFind info info.nodes[i] name).isSome then .error (.error .exists_)
    else .ok (info.nodes.length, makeTmpfsNode info i inside type name)
  else .error .garbage

end Tmpfs

section Rdsk

-- rdsk_dir_t and rdsk_file_t, with what a lookup reads of them. Indices count from 1, and 0
-- ends a chain or stands for no parent.
structure RdskDir where
  nametableOffset : Nat
  filetableIndex : Nat
  dirtableIndex : Nat
  nextIndex : Nat
  parentIndex : Nat

structure RdskFile where
  nametableOffset : Nat
  nextIndex : Nat

-- The tables of a ramdisk image. get_dir and get_dir_index go through the entry size of the
-- header both ways, so that an entry is known by its index.
structure RdskTables where
  revision : Nat
  rootIndex : Nat
  nametable : List UInt8
  dirs : List RdskDir
  files : List RdskFile

namespace RdskTables

def getName (t : RdskTables) (offset : Nat) : List UInt8 := (t.nametable.drop offset).takeWhile (· != 0)

def getDir (t : RdskTables) (index : Nat) : Option RdskDir := if index = 0 then none else t.dirs[index - 1]?

def getFile (t : RdskTables) (index : Nat) : Option RdskFile := if index = 0 then none else t.files[index - 1]?

-- The indices a chain of next_index runs through, where it ends.
def chain (next : Nat → Option Nat) : Nat → Nat → Option (List Nat)
  | 0, index => if index = 0 then some [] else none
  | fuel + 1, index =>
    if index = 0 then some []
    else (next index).bind fun following => (chain next fuel following).map (index :: ·)

def dirChain (t : RdskTables) (index : Nat) : Option (List Nat) :=
  chain (fun i => (t.getDir i).map (·.nextIndex)) t.dirs.length index

def fileChain (t : RdskTables) (index : Nat) : Option (List Nat) :=
  chain (fun i => (t.getFile i).map (·.nextIndex)) t.files.length index

-- A directory lists directories that name it as their parent, and its own parent is another
-- directory of the table, or none.
def dirWellFormed (t : RdskTables) (index : Nat) (dir : RdskDir) : Bool :=
  dir.parentIndex != index && (dir.parentIndex == 0 || (t.getDir dir.parentIndex).isSome) &&
    (t.dirChain dir.dirtableIndex).any (fun listed => listed.all fun c => (t.getDir c).any (·.parentIndex == index)) &&
    (t.fileChain dir.filetableIndex).isSome && (t.nametable.drop dir.nametableOffset).contains 0

def wellFormed (t : RdskTables) : Bool :=
  (t.getDir t.rootIndex).any (·.parentIndex == 0) &&
    (List.range (t.dirs.length + 1)).all (fun i => (t.getDir i).all (t.dirWellFormed i)) &&
    t.files.all fun file => (t.nametable.drop file.nametableOffset).contains 0

end RdskTables

-- An image as the format has it.
structure RdskImage where
  tables : RdskTables
  formed : tables.wellFormed = true

def supportedRevision : Nat := 0x101

def findDir (t : RdskTables) (dir : RdskDir) (name : List UInt8) : Option Nat :=
  ((t.dirChain dir.dirtableIndex).getD []).find? fun i =>
    (t.getDir i).any fun curdir => name == t.getName curdir.nametableOffset

def findFile (t : RdskTables) (dir : RdskDir) (name : List UInt8) : Option Nat :=
  ((t.fileChain dir.filetableIndex).getD []).find? fun i =>
    (t.getFile i).any fun curfile => name == t.getName curfile.nametableOffset

end Rdsk

-- What the private data of a vfs_node_t points at. The nodes of a ramdisk are made on first
-- use and kept in dir_cache and file_cache, so that an index has one node.
inductive NodeData where
  | tmpfs (node : Nat)
  | rdskDir (index : Nat)
  | rdskFile (index : Nat)
deriving DecidableEq, Repr

structure Node where
  vfs : Nat
  data : NodeData
deriving DecidableEq, Repr

def rdskLookup (t : RdskTables) (index : Nat) (name : List UInt8) : Except Stop (Option NodeData) :=
  match t.getDir index with
  | none => .error .garbage
  | some dir =>
    if name = dot then .ok (some (.rdskDir index))
    else if name = dotdot then
      if dir.parentIndex ≠ 0 then .ok (some (.rdskDir dir.parentIndex)) else .ok none
    else
      match findFile t dir name with
      | some i => .ok (some (.rdskFile i))
      | none =>
        match findDir t dir name with
        | some i => .ok (some (.rdskDir i))
        | none => .error (.error .notFound)

-- The private data of a vfs_t. Where rdsk_mount refuses an image it stays the header, which
-- the other operations take for an info_t.
inductive VfsData where
  | tmpfs (info : TmpfsInfo)
  | rdsk (image : RdskImage)
  | header

structure Vfs where
  data : VfsData
  mountPoint : Option Node

-- g_vfs_all, and the mounted_vfs of every node.
structure State where
  all : List Vfs
  mountedVfs : Node → Option Nat

def start : State := ⟨[], fun _ => none⟩

namespace State

def data (s : State) (v : Nat) : Option VfsData := (s.all[v]?).map (·.data)

def mountPoint (s : State) (v : Nat) : Option Node := (s.all[v]?).bind (·.mountPoint)

-- node->ops->lookup.
def lookup (s : State) (node : Node) (name : List UInt8) : Except Stop (Option Node) :=
  match s.data node.vfs, node.data with
  | some (.tmpfs info), .tmpfs i => (tmpfsLookup info i name).map (Option.map fun c => ⟨node.vfs, .tmpfs c⟩)
  | some (.rdsk image), .rdskDir i => (rdskLookup image.tables i name).map (Option.map fun d => ⟨node.vfs, d⟩)
  | some (.rdsk _), .rdskFile _ => .error (.error .notDir)
  | _, _ => .error .garbage

def type (s : State) (node : Node) : Option VfsNodeType :=
  match s.data node.vfs, node.data with
  | some (.tmpfs info), .tmpfs i => (info.nodes[i]?).map (·.type)
  | some (.rdsk image), .rdskDir i => (image.tables.getDir i).map fun _ => .dir
  | some (.rdsk image), .rdskFile i => (image.tables.getFile i).map fun _ => .file
  | _, _ => none

-- vfs->ops->root_node.
def rootNode (s : State) (v : Nat) : Except Stop Node :=
  match s.data v with
  | some (.tmpfs _) => .ok ⟨v, .tmpfs 0⟩
  | some (.rdsk image) => .ok ⟨v, .rdskDir image.tables.rootIndex⟩
  | _ => .error .garbage

-- node->ops->mkdir and mkfile.
def make (s : State) (type : VfsNodeType) (node : Node) (name : List UInt8) : Except Stop (Node × State) :=
  match s.data node.vfs, node.data with
  | some (.tmpfs info), .tmpfs i =>
    match tmpfsMake type info i name with
    | .error e => .error e
    | .ok (c, info') =>
      .ok (⟨node.vfs, .tmpfs c⟩, { s with all := s.all.modify node.vfs fun vfs => { vfs with data := .tmpfs info' } })
  | some (.rdsk _), .rdskDir _ => .error (.error .readOnlyFs)
  | some (.rdsk _), .rdskFile _ => .error (.error .readOnlyFs)
  | _, _ => .error .garbage

end State

def vfsRoot (s : State) : Except Stop Node :=
  if s.all.length = 0 then .error (.error .notFound) else s.rootNode 0

inductive LookupCreate where
  | file
  | dir
  | none
deriving DecidableEq, Repr

def intMax : Nat := 2147483647

-- The mount check at the end of every round of the loop.
def crossMount (s : State) (node : Node) : Except Stop Node :=
  match s.mountedVfs node with
  | none => .ok node
  | some v => s.rootNode v

-- current_node and res after the lookup of a component. Where there is no parent in the file
-- system the lookup is made again, and the node stays.
def lookupComponent (s : State) (current : Node) (component : List UInt8) : Except Stop Node :=
  match s.lookup current component with
  | .error e => .error e
  | .ok (some next) => .ok next
  | .ok none =>
    if s.mountPoint current.vfs ≠ none then (s.lookup current dotdot).map fun _ => current else .ok current

def endComponent (s : State) (create : LookupCreate) (exclusive last : Bool) (current : Node) (component : List UInt8) :
    Except Stop (Node × State) :=
  match lookupComponent s current component with
  | .error .overrun => .error .overrun
  | .error .garbage => .error .garbage
  | .error (.error e) =>
    if e = .notFound ∧ last = true then
      match create with
      | .file => s.make .file current component
      | .dir => s.make .dir current component
      | .none => .error (.error e)
    else if exclusive then .error (.error .exists_)
    else .error (.error e)
  | .ok next => if exclusive then .error (.error .exists_) else .ok (next, s)

-- The loop, at the index comp_end, with the bytes from comp_start to comp_end and those from
-- comp_end on.
def lookupLoop (create : LookupCreate) (exclusive : Bool) :
    List UInt8 → State → Nat → List UInt8 → Node → Except Stop (Node × State)
  | [], s, compEnd, component, current =>
    if intMax ≤ compEnd then .error .overrun
    else if component = [] then (crossMount s current).map fun node => (node, s)
    else (endComponent s create exclusive true current component).bind fun reached =>
      (crossMount reached.2 reached.1).map fun node => (node, reached.2)
  | byte :: rest, s, compEnd, component, current =>
    if intMax ≤ compEnd then .error .overrun
    else if byte = slash then
      if component = [] then (crossMount s current).bind (lookupLoop create exclusive rest s (compEnd + 1) [])
      else (endComponent s create exclusive false current component).bind fun reached =>
        (crossMount reached.2 reached.1).bind (lookupLoop create exclusive rest reached.2 (compEnd + 1) [])
    else (crossMount s current).bind (lookupLoop create exclusive rest s (compEnd + 1) (component ++ [byte]))

-- Without a node to start from the first byte is passed, whatever it is.
def vfsLookupExt (s : State) (root : Option Node) (path : List UInt8) (create : LookupCreate) (exclusive : Bool) :
    Except Stop (Node × State) :=
  if path.head? = some slash ∨ root = none then
    (vfsRoot s).bind fun node =>
      match path with
      | [] => .error .overrun
      | _ :: rest => lookupLoop create exclusive rest s 1 [] node
  else
    match root with
    | none => .error .garbage
    | some node => lookupLoop create exclusive path s 0 [] node

def vfsLookup (s : State) (root : Option Node) (path : List UInt8) : Except Stop Node :=
  (vfsLookupExt s root path .none false).map (·.1)

-- vfs_mkdir and vfs_mkfile.
def vfsMake (s : State) (type : VfsNodeType) (root : Option Node) (path name : List UInt8) :
    Except Stop (Node × State) :=
  (vfsLookup s root path).bind fun node => s.make type node name

inductive VfsOps where
  | tmpfs
  | rdsk (image : RdskImage)

-- vfs->ops->mount, whose result vfs_mount does not look at.
def VfsOps.mount : VfsOps → VfsData
  | .tmpfs => .tmpfs tmpfsMount
  | .rdsk image => if supportedRevision < image.tables.revision then .header else .rdsk image

def vfsMount (s : State) (ops : VfsOps) (path : Option (List UInt8)) : Except Stop State :=
  if s.all.length = 0 then
    if path.isSome then .error (.error .notFound) else .ok { s with all := s.all ++ [⟨ops.mount, none⟩] }
  else
    match path with
    | none => .error .garbage
    | some path =>
      (vfsLookup s none path).bind fun node =>
        match s.type node with
        | none => .error .garbage
        | some .file => .error (.error .notDir)
        | some .dir =>
          if (s.mountedVfs node).isSome then .error (.error .exists_)
          else
            .ok ⟨s.all ++ [⟨ops.mount, some node⟩], Function.update s.mountedVfs node (some s.all.length)⟩

-- The calls that build a name space. A call that fails leaves it as it was.
inductive Call where
  | mount (ops : VfsOps) (path : Option CString)
  | make (type : VfsNodeType) (root : Option Node) (path name : CString)
  | lookup (root : Option Node) (path : CString) (create : LookupCreate) (exclusive : Bool)

def settle (s : State) : Except Stop State → Option State
  | .ok s' => some s'
  | .error (.error _) => some s
  | .error _ => none

def step : Call → State → Option State
  | .mount ops path, s => settle s (vfsMount s ops (path.map (·.bytes)))
  | .make type root path name, s => settle s ((vfsMake s type root path.bytes name.bytes).map (·.2))
  | .lookup root path create exclusive, s =>
    settle s ((vfsLookupExt s root path.bytes create exclusive).map (·.2))

end Elysium.Fs
