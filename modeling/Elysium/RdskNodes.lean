import Elysium.RdskSearch
import Elysium.Transitions

set_option autoImplicit false

namespace Elysium.Rdsk

open Fs (CString dot dotdot)
open Transitions (Reachable reachable_invariant execute reachable_execute)

-- A table whose entries have a size and lie in the address space.
def Table.Fits (t : Table) : Prop := t.entrySize ≠ 0 ∧ t.entryCount.toNat * t.entrySize.toNat ≤ 2 ^ 64

instance (t : Table) : Decidable t.Fits := inferInstanceAs (Decidable (_ ∧ _))

-- A table entry, by its kind and index.
inductive Entry where
  | dir (index : BitVec 64)
  | file (index : BitVec 64)
deriving DecidableEq, Repr

def Entry.Valid (im : Image) : Entry → Prop
  | .dir i => (dirtable im).Has i
  | .file i => (filetable im).Has i

def Entry.type : Entry → NodeType
  | .dir _ => .dir
  | .file _ => .file

def Entry.address (im : Image) : Entry → BitVec 64
  | .dir i => getDir im i
  | .file i => getFile im i

-- The first entry of the name on a chain.
def findIndex (im : Image) (t : Table) (name : List UInt8) : Nat → BitVec 64 → Option (Option (BitVec 64))
  | 0, _ => none
  | fuel + 1, index =>
    if index = 0 then some none
    else if t.nameIs im name index then some (some index)
    else findIndex im t name fuel (t.next im index)

-- The entry that a lookup denotes, with neither nodes nor addresses.
def denotedEntry (im : Image) (fuel : Nat) (i : BitVec 64) (name : List UInt8) : Option (Option Entry) :=
  match findIndex im (filetable im) name fuel (filetableIndex im (getDir im i)) with
  | none => none
  | some (some file) => some (some (.file file))
  | some none => (findIndex im (dirtable im) name fuel (dirtableIndex im (getDir im i))).map (Option.map Entry.dir)

def denoted (im : Image) (fuel : Nat) : Entry → List UInt8 → Option (Option Entry)
  | .file _, _ => some none
  | .dir i, name =>
    if name = dot then some (some (.dir i))
    else if name = dotdot then some (if parentIndex im (getDir im i) ≠ 0 then some (.dir (parentIndex im (getDir im i))) else none)
    else denotedEntry im fuel i name

section Indices

variable {im : Image} {t : Table}

theorem get_index_get (fits : t.Fits) {index : BitVec 64} (has : t.Has index) : t.getIndex (t.get index) = index := by
  obtain ⟨size, room⟩ := fits
  obtain ⟨nonzero, within⟩ := has
  have positive : 0 < t.entrySize.toNat := by
    rw [Nat.pos_iff_ne_zero]
    exact fun zero => size (BitVec.eq_of_toNat_eq zero)
  have before : (index - 1).toNat < t.entryCount.toNat := by bv_omega
  have small : (index - 1).toNat * t.entrySize.toNat < 2 ^ 64 :=
    Nat.lt_of_lt_of_le (Nat.mul_lt_mul_of_pos_right before positive) room
  have offset : t.get index - t.start = (index - 1) * t.entrySize := by
    rw [Table.get, BitVec.add_comm, BitVec.add_sub_cancel]
  have divided : (index - 1) * t.entrySize / t.entrySize = index - 1 := by
    apply BitVec.eq_of_toNat_eq
    rw [BitVec.toNat_udiv, BitVec.toNat_mul, Nat.mod_eq_of_lt small, Nat.mul_div_cancel _ positive]
  rw [Table.getIndex, offset, divided, BitVec.sub_add_cancel]

theorem get_injective (fits : t.Fits) {i j : BitVec 64} (first : t.Has i) (second : t.Has j) (same : t.get i = t.get j) : i = j := by
  rw [← get_index_get fits first, same, get_index_get fits second]

theorem find_index_some (im : Image) (t : Table) (name : List UInt8) (fuel : Nat) (first : BitVec 64) :
    (find im t name fuel first).map (·.1) = (findIndex im t name fuel first).map (Option.map t.get) := by
  induction fuel generalizing first with
  | zero => rfl
  | succ fuel ih =>
      rw [findIndex]
      by_cases stop : Stops im t name first
      · rw [find_stops stop, Table.outcome]
        by_cases zero : first = 0
        · rw [if_pos zero, if_pos zero]
          rfl
        · rw [if_neg zero, if_neg zero, if_pos (stop.resolve_left zero)]
          rfl
      · rw [find_goes stop, if_neg (fun zero => stop (.inl zero)), if_neg (fun named => stop (.inr named)), ← ih, Option.map_map]
        rfl

theorem find_index_has (inside : ∀ i, t.Has i → t.next im i ≤ t.entryCount) {name : List UInt8} {fuel : Nat} {first found : BitVec 64}
    (start : first ≤ t.entryCount) (ended : findIndex im t name fuel first = some (some found)) : t.Has found := by
  induction fuel generalizing first with
  | zero => cases ended
  | succ fuel ih =>
      rw [findIndex] at ended
      split at ended
      · cases ended
      · rename_i nonzero
        split at ended
        · obtain rfl := Option.some.inj (Option.some.inj ended)
          exact ⟨nonzero, start⟩
        · exact ih (inside first ⟨nonzero, start⟩) ended

-- What a search finds is the entry of the index found.
theorem find_found (inside : ∀ i, t.Has i → t.next im i ≤ t.entryCount) {name : List UInt8} {fuel links : Nat} {first entry : BitVec 64}
    (start : first ≤ t.entryCount) (ended : find im t name fuel first = some (some entry, links)) :
    ∃ i, findIndex im t name fuel first = some (some i) ∧ t.Has i ∧ entry = t.get i := by
  have same := find_index_some im t name fuel first
  rw [ended, Option.map_some] at same
  obtain ⟨found, ended', mapped⟩ := Option.map_eq_some_iff.mp same.symm
  obtain ⟨i, rfl, rfl⟩ := Option.map_eq_some_iff.mp mapped
  exact ⟨i, ended', find_index_has inside start ended', rfl⟩

theorem find_missing {name : List UInt8} {fuel links : Nat} {first : BitVec 64} (ended : find im t name fuel first = some (none, links)) :
    findIndex im t name fuel first = some none := by
  have same := find_index_some im t name fuel first
  rw [ended, Option.map_some] at same
  obtain ⟨found, ended', mapped⟩ := Option.map_eq_some_iff.mp same.symm
  rw [ended', Option.map_eq_none_iff.mp mapped]

end Indices

section Caches

variable {im : Image}

-- A cache holds the nodes there are of the entries of a table.
def Knows (t : Table) (type : NodeType) (cache : BitVec 64 → Option Nat) (nodes : List Node) : Prop :=
  ∀ i n, t.Has i → (cache (i - 1) = some n ↔ ∃ m, nodes[n]? = some ⟨type, t.get i, m⟩)

structure Cached (im : Image) (s : Nodes) : Prop where
  dirs : Knows (dirtable im) .dir s.dirCache s.nodes
  files : Knows (filetable im) .file s.fileCache s.nodes

def Stands (im : Image) (s : Nodes) (n : Nat) (e : Entry) : Prop := ∃ m, s.nodes[n]? = some ⟨e.type, e.address im, m⟩

def Keeps (s s' : Nodes) : Prop := ∀ (n : Nat) (node : Node), s.nodes[n]? = some node → s'.nodes[n]? = some node

theorem stands_unique {s : Nodes} (cached : Cached im s) {e : Entry} (valid : e.Valid im) {n n' : Nat} (first : Stands im s n e)
    (second : Stands im s n' e) : n = n' := by
  cases e with
  | dir i => exact Option.some.inj (((cached.dirs i n valid).mpr first).symm.trans ((cached.dirs i n' valid).mpr second))
  | file i => exact Option.some.inj (((cached.files i n valid).mpr first).symm.trans ((cached.files i n' valid).mpr second))

theorem stands_entry (dirs : (dirtable im).Fits) (files : (filetable im).Fits) {s : Nodes} {n : Nat} {e e' : Entry} (valid : e.Valid im)
    (valid' : e'.Valid im) (first : Stands im s n e) (second : Stands im s n e') : e = e' := by
  obtain ⟨m, at_⟩ := first
  obtain ⟨m', at_'⟩ := second
  have same := Option.some.inj (at_.symm.trans at_')
  rw [Node.mk.injEq] at same
  cases e with
  | dir i =>
      cases e' with
      | dir j => exact congrArg Entry.dir (get_injective dirs valid valid' same.2.1)
      | file j => cases same.1
  | file i =>
      cases e' with
      | dir j => cases same.1
      | file j => exact congrArg Entry.file (get_injective files valid valid' same.2.1)

theorem stands_keeps {s s' : Nodes} (keeps : Keeps s s') {n : Nat} {e : Entry} (stands : Stands im s n e) : Stands im s' n e := by
  obtain ⟨m, at_⟩ := stands
  exact ⟨m, keeps n _ at_⟩

theorem keeps_push (s : Nodes) (node : Node) (dirCache fileCache : BitVec 64 → Option Nat) : Keeps s ⟨s.nodes ++ [node], dirCache, fileCache⟩ := by
  intro n old at_
  rw [List.getElem?_append_left (List.getElem?_eq_some_iff.mp at_).1]
  exact at_

theorem index_apart {i j : BitVec 64} (apart : i ≠ j) : i - 1 ≠ j - 1 := by bv_omega

theorem pushed_at {nodes : List Node} {n : Nat} {node other : Node} :
    (nodes ++ [node])[n]? = some other ↔ nodes[n]? = some other ∨ n = nodes.length ∧ node = other := by
  rw [List.getElem?_append]
  split
  · rename_i within
    exact ⟨.inl, fun either => either.resolve_right fun last => absurd last.1 (Nat.ne_of_lt within)⟩
  · rename_i beyond
    rw [List.getElem?_eq_none (Nat.le_of_not_lt beyond)]
    rw [List.getElem?_singleton]
    constructor
    · intro same
      split at same
      · exact .inr ⟨by omega, Option.some.inj same⟩
      · cases same
    · rintro (none_ | ⟨rfl, rfl⟩)
      · cases none_
      · rw [Nat.sub_self, if_pos rfl]

theorem knows_made {t : Table} {type : NodeType} {cache : BitVec 64 → Option Nat} {nodes : List Node} (fits : t.Fits)
    (knows : Knows t type cache nodes) {i : BitVec 64} (has : t.Has i) (absent : cache (i - 1) = none) :
    Knows t type (Function.update cache (i - 1) (some nodes.length)) (nodes ++ [⟨type, t.get i, none⟩]) := by
  intro j n other
  simp only [pushed_at]
  by_cases same : j = i
  · subst same
    have fresh : ∀ m, nodes[n]? ≠ some ⟨type, t.get j, m⟩ := by
      intro m there
      rw [(knows j n has).mpr ⟨m, there⟩] at absent
      cases absent
    rw [Function.update_self, Option.some.injEq]
    constructor
    · rintro rfl
      exact ⟨none, .inr ⟨rfl, rfl⟩⟩
    · rintro ⟨m, there | ⟨last, _⟩⟩
      · exact absurd there (fresh m)
      · exact last.symm
  · rw [Function.update_of_ne (index_apart same), knows j n other]
    refine exists_congr fun m => ⟨.inl, fun either => either.resolve_right ?_⟩
    rintro ⟨_, new⟩
    rw [Node.mk.injEq] at new
    exact same (get_injective fits other has new.2.1.symm)

theorem knows_other {t : Table} {type : NodeType} {cache : BitVec 64 → Option Nat} {nodes : List Node} (knows : Knows t type cache nodes)
    {node : Node} (differs : node.type ≠ type) : Knows t type cache (nodes ++ [node]) := by
  intro j n other
  simp only [pushed_at]
  rw [knows j n other]
  refine exists_congr fun m => ⟨.inl, fun either => either.resolve_right ?_⟩
  rintro ⟨_, rfl⟩
  exact differs rfl

-- The node of an entry is the one there is, or is made.
theorem get_dir_vfs_node_spec (fits : (dirtable im).Fits) {s : Nodes} (cached : Cached im s) {i : BitVec 64} (has : (dirtable im).Has i) :
    Cached im (getDirVfsNode im s i).2 ∧ Keeps s (getDirVfsNode im s i).2 ∧ Stands im (getDirVfsNode im s i).2 (getDirVfsNode im s i).1 (.dir i) := by
  rw [getDirVfsNode]
  cases at_ : s.dirCache (i - 1) with
  | some n =>
      have keeps : Keeps s s := fun _ _ same => same
      exact ⟨cached, keeps, (cached.dirs i n has).mp at_⟩
  | none =>
      refine ⟨⟨knows_made fits cached.dirs has at_, knows_other cached.files fun same => by cases same⟩, keeps_push s _ _ _, none, ?_⟩
      exact pushed_at.mpr (.inr ⟨rfl, rfl⟩)

theorem get_file_vfs_node_spec (fits : (filetable im).Fits) {s : Nodes} (cached : Cached im s) {i : BitVec 64} (has : (filetable im).Has i) :
    Cached im (getFileVfsNode im s i).2 ∧ Keeps s (getFileVfsNode im s i).2 ∧
      Stands im (getFileVfsNode im s i).2 (getFileVfsNode im s i).1 (.file i) := by
  rw [getFileVfsNode]
  cases at_ : s.fileCache (i - 1) with
  | some n =>
      have keeps : Keeps s s := fun _ _ same => same
      exact ⟨cached, keeps, (cached.files i n has).mp at_⟩
  | none =>
      refine ⟨⟨knows_other cached.dirs (fun same => by cases same), knows_made fits cached.files has at_⟩, keeps_push s _ _ _, none, ?_⟩
      exact pushed_at.mpr (.inr ⟨rfl, rfl⟩)

-- A lookup from the node of a directory stores the node of the entry that it denotes, and none where it denotes none.
structure Looked (im : Image) (s : Nodes) (denotes : Option (Option Entry)) (answer : Answer) (s' : Nodes) : Prop where
  cached : Cached im s'
  keeps : Keeps s s'
  found : ∀ n, answer = .node (some n) → ∃ e, denotes = some (some e) ∧ e.Valid im ∧ Stands im s' n e
  missing : (∀ n, answer ≠ .node (some n)) → denotes = some none

theorem looked_stored {s s' : Nodes} {n : Nat} {e : Entry} (cached : Cached im s') (keeps : Keeps s s') (valid : e.Valid im) (stands : Stands im s' n e) :
    Looked im s (some (some e)) (.node (some n)) s' := by
  refine ⟨cached, keeps, fun n' same => ?_, fun none_ => absurd rfl (none_ n)⟩
  rw [Answer.node.injEq, Option.some.injEq] at same
  exact ⟨e, rfl, valid, same ▸ stands⟩

theorem looked_none {s : Nodes} {answer : Answer} (cached : Cached im s) (none_ : ∀ n, answer ≠ .node (some n)) : Looked im s (some none) answer s :=
  ⟨cached, fun _ _ same => same, fun n same => absurd same (none_ n), fun _ => rfl⟩

variable (inRange : InRange im) (dirs : (dirtable im).Fits) (files : (filetable im).Fits)
include inRange dirs files

theorem lookup_entry_spec {s s' : Nodes} (cached : Cached im s) {i : BitVec 64} (has : (dirtable im).Has i) {fuel : Nat} {name : List UInt8}
    {answer : Answer} (ran : lookupEntry im fuel s (getDir im i) name = some (answer, s')) : Looked im s (denotedEntry im fuel i name) answer s' := by
  rw [lookupEntry] at ran
  rw [denotedEntry]
  cases foundFile : findFile im fuel (getDir im i) name with
  | none =>
      rw [foundFile] at ran
      cases ran
  | some result =>
      rw [foundFile] at ran
      obtain ⟨found, links⟩ := result
      cases found with
      | some file =>
          obtain ⟨j, denotes, inTable, rfl⟩ := find_found inRange.files (inRange.listsFiles i has) foundFile
          obtain ⟨cached', keeps, stands⟩ := get_file_vfs_node_spec files cached inTable
          have made := Option.some.inj ran
          rw [show getFileIndex im ((filetable im).get j) = j from get_index_get files inTable, stored, Prod.mk.injEq] at made
          rw [denotes, ← made.1, ← made.2]
          exact looked_stored cached' keeps inTable stands
      | none =>
          rw [find_missing foundFile]
          cases foundDir : findDir im fuel (getDir im i) name with
          | none =>
              simp only [foundDir] at ran
              cases ran
          | some result =>
              obtain ⟨found, links'⟩ := result
              cases found with
              | some dir =>
                  obtain ⟨j, denotes, inTable, rfl⟩ := find_found inRange.dirs (inRange.listsDirs i has) foundDir
                  obtain ⟨cached', keeps, stands⟩ := get_dir_vfs_node_spec dirs cached inTable
                  simp only [foundDir, Option.some.injEq] at ran
                  rw [show getDirIndex im ((dirtable im).get j) = j from get_index_get dirs inTable, stored, Prod.mk.injEq] at ran
                  rw [denotes, ← ran.1, ← ran.2]
                  exact looked_stored cached' keeps inTable stands
              | none =>
                  simp only [foundDir, Option.some.injEq, Prod.mk.injEq] at ran
                  rw [find_missing foundDir, ← ran.1, ← ran.2]
                  exact looked_none cached fun n same => by cases same

theorem rdsk_lookup_spec {s s' : Nodes} (cached : Cached im s) {n : Nat} {e : Entry} (valid : e.Valid im) (stands : Stands im s n e) {fuel : Nat}
    {name : List UInt8} {answer : Answer} (ran : rdskLookup im fuel s n name = some (answer, s')) : Looked im s (denoted im fuel e name) answer s' := by
  obtain ⟨m, at_⟩ := stands
  cases e with
  | file i =>
      rw [rdsk_lookup_file at_, Option.some.injEq, Prod.mk.injEq] at ran
      rw [← ran.1, ← ran.2]
      exact looked_none cached fun n same => by cases same
  | dir i =>
      change s.nodes[n]? = some ⟨.dir, getDir im i, m⟩ at at_
      rw [rdsk_lookup_dir at_] at ran
      rw [denoted]
      by_cases self : name = dot
      · rw [if_pos self, Option.some.injEq, Prod.mk.injEq] at ran
        rw [if_pos self, ← ran.1, ← ran.2]
        exact looked_stored cached (fun _ _ same => same) valid ⟨m, at_⟩
      rw [if_neg self] at ran ⊢
      by_cases up : name = dotdot
      · rw [if_pos up] at ran ⊢
        by_cases parent : parentIndex im (getDir im i) ≠ 0
        · rw [if_pos parent, Option.some.injEq, stored, Prod.mk.injEq] at ran
          have inTable : (dirtable im).Has (parentIndex im (getDir im i)) := ⟨parent, inRange.parents i valid⟩
          obtain ⟨cached', keeps, stands⟩ := get_dir_vfs_node_spec dirs cached inTable
          rw [if_pos parent, ← ran.1, ← ran.2]
          exact looked_stored cached' keeps inTable stands
        · rw [if_neg parent, Option.some.injEq, Prod.mk.injEq] at ran
          rw [if_neg parent, ← ran.1, ← ran.2]
          exact looked_none cached fun n same => by cases same
      · rw [if_neg up] at ran ⊢
        exact lookup_entry_spec inRange dirs files cached valid ran

end Caches

section System

-- The nodes of an image, and those that lookups have given out, with the entries that the lookups denote.
structure System where
  nodes : Nodes
  held : List (Nat × Entry)

inductive Act where
  | root
  | lookup (holder : Nat) (name : CString) (fuel : Nat)
  | mount (holder : Nat) (vfs : Nat)

-- What vfs_mount does to a directory that nothing is mounted on.
def mountOn (s : Nodes) (n vfs : Nat) : Nodes := { s with nodes := s.nodes.modify n fun node => { node with mountedVfs := some vfs } }

def sysStep (im : Image) : Act → System → Option System
  | .root, s => some ⟨(rdskRoot im s.nodes).2, s.held ++ [((rdskRoot im s.nodes).1, .dir (rootIndex im))]⟩
  | .lookup holder name fuel, s =>
    match s.held[holder]? with
    | none => none
    | some (n, e) =>
      match rdskLookup im fuel s.nodes n name.bytes with
      | none => none
      | some (.node (some found), nodes) =>
        match denoted im fuel e name.bytes with
        | some (some denotes) => some ⟨nodes, s.held ++ [(found, denotes)]⟩
        | _ => none
      | some (_, nodes) => some { s with nodes := nodes }
  | .mount holder vfs, s =>
    match s.held[holder]? with
    | none => none
    | some (n, _) =>
      match s.nodes.nodes[n]? with
      | some ⟨.dir, _, none⟩ => some { s with nodes := mountOn s.nodes n vfs }
      | _ => some s

def SysStarts (s : System) : Prop := s = ⟨mounted, []⟩

variable {im : Image}

structure SysSound (im : Image) (s : System) : Prop where
  cached : Cached im s.nodes
  held : ∀ n e, (n, e) ∈ s.held → e.Valid im ∧ Stands im s.nodes n e

theorem mount_on_at {s : Nodes} {n vfs k : Nat} {type : NodeType} {address : BitVec 64} :
    (∃ m, (mountOn s n vfs).nodes[k]? = some ⟨type, address, m⟩) ↔ ∃ m, s.nodes[k]? = some ⟨type, address, m⟩ := by
  rw [mountOn, List.getElem?_modify]
  cases s.nodes[k]? with
  | none => simp
  | some node =>
      obtain ⟨t, a, m⟩ := node
      by_cases here : n = k <;> simp [here]

theorem mount_on_apart (s : Nodes) (vfs : Nat) {k n : Nat} (apart : k ≠ n) : (mountOn s k vfs).nodes[n]? = s.nodes[n]? := by
  rw [mountOn, List.getElem?_modify]
  simp [apart]

theorem mount_on_mounts {s : Nodes} {n : Nat} {address : BitVec 64} {m : Option Nat} (at_ : s.nodes[n]? = some ⟨.dir, address, m⟩) (vfs : Nat) :
    (mountOn s n vfs).nodes[n]? = some ⟨.dir, address, some vfs⟩ := by
  rw [mountOn, List.getElem?_modify, at_]
  simp

theorem mount_on_sound {s : System} (sound : SysSound im s) (n vfs : Nat) : SysSound im { s with nodes := mountOn s.nodes n vfs } := by
  refine ⟨⟨fun i k has => ?_, fun i k has => ?_⟩, fun k e member => ⟨(sound.held k e member).1, mount_on_at.mpr (sound.held k e member).2⟩⟩
  · exact (sound.cached.dirs i k has).trans mount_on_at.symm
  · exact (sound.cached.files i k has).trans mount_on_at.symm

theorem held_keeps {s : System} (sound : SysSound im s) {nodes : Nodes} (cached : Cached im nodes) (keeps : Keeps s.nodes nodes) {n : Nat} {e : Entry}
    (valid : e.Valid im) (stands : Stands im nodes n e) : SysSound im ⟨nodes, s.held ++ [(n, e)]⟩ := by
  refine ⟨cached, fun k e' member => ?_⟩
  rw [List.mem_append, List.mem_singleton] at member
  rcases member with before | new
  · exact ⟨(sound.held k e' before).1, stands_keeps keeps (sound.held k e' before).2⟩
  · rw [Prod.mk.injEq] at new
    rw [new.1, new.2]
    exact ⟨valid, stands⟩

variable (inRange : InRange im) (dirs : (dirtable im).Fits) (files : (filetable im).Fits)
include inRange dirs files

-- A step keeps the nodes there are and gives out at most one, or it is a mount on a directory that nothing is mounted on.
theorem sys_step_cases {act : Act} {s s' : System} (sound : SysSound im s) (taken : sysStep im act s = some s') :
    (Cached im s'.nodes ∧ Keeps s.nodes s'.nodes ∧
      (s'.held = s.held ∨ ∃ n e, s'.held = s.held ++ [(n, e)] ∧ e.Valid im ∧ Stands im s'.nodes n e)) ∨
    ∃ n vfs address, s.nodes.nodes[n]? = some ⟨.dir, address, none⟩ ∧ s' = { s with nodes := mountOn s.nodes n vfs } := by
  cases act with
  | root =>
      obtain rfl := Option.some.inj taken
      obtain ⟨cached, keeps, stands⟩ := get_dir_vfs_node_spec dirs sound.cached inRange.root
      exact .inl ⟨cached, keeps, .inr ⟨_, _, rfl, inRange.root, stands⟩⟩
  | lookup holder name fuel =>
      rw [sysStep] at taken
      cases at_ : s.held[holder]? with
      | none =>
          rw [at_] at taken
          cases taken
      | some pair =>
          obtain ⟨n, e⟩ := pair
          obtain ⟨valid, stands⟩ := sound.held n e (List.mem_of_getElem? at_)
          rw [at_] at taken
          dsimp only at taken
          cases ran : rdskLookup im fuel s.nodes n name.bytes with
          | none =>
              rw [ran] at taken
              cases taken
          | some result =>
              obtain ⟨answer, nodes⟩ := result
              rw [ran] at taken
              have looked := rdsk_lookup_spec inRange dirs files sound.cached valid stands ran
              cases answer with
              | error result =>
                  obtain rfl := Option.some.inj taken
                  exact .inl ⟨looked.cached, looked.keeps, .inl rfl⟩
              | node found =>
                  cases found with
                  | none =>
                      obtain rfl := Option.some.inj taken
                      exact .inl ⟨looked.cached, looked.keeps, .inl rfl⟩
                  | some found =>
                      obtain ⟨denotes, is_, valid', stands'⟩ := looked.found found rfl
                      simp only [is_] at taken
                      obtain rfl := Option.some.inj taken
                      exact .inl ⟨looked.cached, looked.keeps, .inr ⟨found, denotes, rfl, valid', stands'⟩⟩
  | mount holder vfs =>
      rw [sysStep] at taken
      split at taken
      · cases taken
      · rename_i n e at_
        split at taken
        · rename_i address bare
          exact .inr ⟨n, vfs, address, bare, (Option.some.inj taken).symm⟩
        · obtain rfl := Option.some.inj taken
          exact .inl ⟨sound.cached, fun _ _ there => there, .inl rfl⟩

theorem sys_step_sound {act : Act} {s s' : System} (sound : SysSound im s) (taken : sysStep im act s = some s') : SysSound im s' := by
  obtain ⟨cached, keeps, held⟩ | ⟨n, vfs, _, _, rfl⟩ := sys_step_cases inRange dirs files sound taken
  · obtain ⟨nodes, _⟩ := s'
    rcases held with rfl | ⟨n, e, rfl, valid, stands⟩
    · exact ⟨cached, fun k e member => ⟨(sound.held k e member).1, stands_keeps keeps (sound.held k e member).2⟩⟩
    · exact held_keeps sound cached keeps valid stands
  · exact mount_on_sound sound n vfs

theorem sys_reachable_sound {s : System} (reach : Reachable SysStarts (sysStep im) s) : SysSound im s := by
  refine reachable_invariant (fun s first => ?_) (fun _ _ _ sound taken => sys_step_sound inRange dirs files sound taken) reach
  rw [show s = ⟨mounted, []⟩ from first]
  refine ⟨⟨fun i n _ => ?_, fun i n _ => ?_⟩, fun n e member => by cases member⟩
  · simp [mounted]
  · simp [mounted]

-- A node on which something is mounted stays as it is, and held.
theorem sys_step_mounted {act : Act} {s s' : System} (sound : SysSound im s) (taken : sysStep im act s = some s') {n vfs : Nat}
    {address : BitVec 64} (at_ : s.nodes.nodes[n]? = some ⟨.dir, address, some vfs⟩) {e : Entry} (held : (n, e) ∈ s.held) :
    s'.nodes.nodes[n]? = some ⟨.dir, address, some vfs⟩ ∧ (n, e) ∈ s'.held := by
  obtain ⟨_, keeps, gave⟩ | ⟨k, vfs', _, bare, rfl⟩ := sys_step_cases inRange dirs files sound taken
  · refine ⟨keeps n _ at_, ?_⟩
    rcases gave with same | ⟨_, _, more, _⟩
    · exact same ▸ held
    · exact more ▸ List.mem_append_left _ held
  · have apart : k ≠ n := by
      rintro rfl
      rw [at_] at bare
      cases bare
    exact ⟨(mount_on_apart s.nodes vfs' apart).trans at_, held⟩

theorem mounted_stays {after later : System} (sound : SysSound im after) {n vfs : Nat} {address : BitVec 64}
    (at_ : after.nodes.nodes[n]? = some ⟨.dir, address, some vfs⟩) {e : Entry} (held : (n, e) ∈ after.held)
    (reach : Reachable (· = after) (sysStep im) later) :
    SysSound im later ∧ later.nodes.nodes[n]? = some ⟨.dir, address, some vfs⟩ ∧ (n, e) ∈ later.held := by
  induction reach with
  | start s first => exact first ▸ ⟨sound, at_, held⟩
  | step s s' act _ taken ih =>
      exact ⟨sys_step_sound inRange dirs files ih.1 taken, sys_step_mounted inRange dirs files ih.1 taken ih.2.1 ih.2.2⟩

omit inRange dirs files in
-- The root, "tmp" in it, and back by "..".
theorem small_run : ∃ s, Reachable SysStarts (sysStep small) s ∧ s.held = [(0, .dir 1), (1, .dir 2), (0, .dir 1)] := by
  have run : (execute (sysStep small) [.root, .lookup 0 ⟨[116, 109, 112], by decide⟩ 3, .lookup 1 ⟨dotdot, by decide⟩ 1] ⟨mounted, []⟩).map (·.held) =
      some [(0, .dir 1), (1, .dir 2), (0, .dir 1)] := by decide
  obtain ⟨s, ran, held⟩ := Option.map_eq_some_iff.mp run
  exact ⟨s, reachable_execute (.start _ rfl) ran, held⟩

end System

end Elysium.Rdsk
