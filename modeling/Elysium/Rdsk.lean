import Elysium.LittleEndian
import Elysium.Vfs

set_option autoImplicit false

namespace Elysium.Rdsk

open LittleEndian (Memory load)
open Fs (VfsError dot dotdot)

-- An image in memory; the header stands at its start.
structure Image where
  memory : Memory
  header : BitVec 64

section Header

variable (im : Image)

def Image.field (offset : BitVec 64) (size : Nat) : BitVec 64 := load im.memory (im.header + offset) size

def rootIndex : BitVec 64 := im.field 8 8

def nametableOffset : BitVec 64 := im.field 16 8

def dirtableEntrySize : BitVec 64 := im.field 32 2

def dirtableEntryCount : BitVec 64 := im.field 34 8

def dirtableOffset : BitVec 64 := im.field 42 8

def filetableEntrySize : BitVec 64 := im.field 50 2

def filetableEntryCount : BitVec 64 := im.field 52 8

def filetableOffset : BitVec 64 := im.field 60 8

end Header

section Entries

variable (im : Image)

-- A table of the image. rdsk_dir_t and rdsk_file_t have the offset of the name, next_index and parent_index at the
-- same places.
structure Table where
  start : BitVec 64
  entrySize : BitVec 64
  entryCount : BitVec 64

def dirtable : Table := ⟨im.header + dirtableOffset im, dirtableEntrySize im, dirtableEntryCount im⟩

def filetable : Table := ⟨im.header + filetableOffset im, filetableEntrySize im, filetableEntryCount im⟩

def Table.get (t : Table) (index : BitVec 64) : BitVec 64 := t.start + (index - 1) * t.entrySize

def Table.getIndex (t : Table) (entry : BitVec 64) : BitVec 64 := (entry - t.start) / t.entrySize + 1

def getDir (index : BitVec 64) : BitVec 64 := (dirtable im).get index

def getFile (index : BitVec 64) : BitVec 64 := (filetable im).get index

def getDirIndex (dir : BitVec 64) : BitVec 64 := (dirtable im).getIndex dir

def getFileIndex (file : BitVec 64) : BitVec 64 := (filetable im).getIndex file

def nameOffset (entry : BitVec 64) : BitVec 64 := load im.memory (entry + 1) 8

def filetableIndex (dir : BitVec 64) : BitVec 64 := load im.memory (dir + 9) 8

def dirtableIndex (dir : BitVec 64) : BitVec 64 := load im.memory (dir + 17) 8

def nextIndex (entry : BitVec 64) : BitVec 64 := load im.memory (entry + 25) 8

def parentIndex (entry : BitVec 64) : BitVec 64 := load im.memory (entry + 33) 8

def getName (offset : BitVec 64) : BitVec 64 := im.header + nametableOffset im + offset

end Entries

-- string_eq with a string whose bytes are known, none of them 0.
def stringEq : List UInt8 → Memory → BitVec 64 → Bool
  | [], m, address => m address == 0
  | byte :: rest, m, address => m address == byte.toBitVec && stringEq rest m (address + 1)

section Finding

-- find_dir and find_file, in a table, with the number of next_index links they follow. No result stands for a search
-- that is not over yet.
def find (im : Image) (t : Table) (name : List UInt8) : Nat → BitVec 64 → Option (Option (BitVec 64) × Nat)
  | 0, _ => none
  | fuel + 1, curindex =>
    if curindex = 0 then some (none, 0)
    else
      let cur := t.get curindex
      if !stringEq name im.memory (getName im (nameOffset im cur)) then
        (find im t name fuel (nextIndex im cur)).map fun (found, links) => (found, links + 1)
      else some (some cur, 1)

def findDir (im : Image) (fuel : Nat) (dir : BitVec 64) (name : List UInt8) : Option (Option (BitVec 64) × Nat) :=
  find im (dirtable im) name fuel (dirtableIndex im dir)

def findFile (im : Image) (fuel : Nat) (dir : BitVec 64) (name : List UInt8) : Option (Option (BitVec 64) × Nat) :=
  find im (filetable im) name fuel (filetableIndex im dir)

end Finding

section Nodes

inductive NodeType where
  | dir
  | file
deriving DecidableEq, Repr

-- A vfs_node_t, in the order in which they were made.
structure Node where
  type : NodeType
  privateData : BitVec 64
  mountedVfs : Option Nat
deriving DecidableEq, Repr

-- The nodes of a mounted image, and the caches of its info_t.
structure Nodes where
  nodes : List Node
  dirCache : BitVec 64 → Option Nat
  fileCache : BitVec 64 → Option Nat

def mounted : Nodes := ⟨[], fun _ => none, fun _ => none⟩

-- The caches are arrays with an element for each entry of the table.
def getDirVfsNode (im : Image) (s : Nodes) (index : BitVec 64) : Nat × Nodes :=
  match s.dirCache (index - 1) with
  | some n => (n, s)
  | none =>
    (s.nodes.length, ⟨s.nodes ++ [⟨.dir, getDir im index, none⟩], Function.update s.dirCache (index - 1) (some s.nodes.length), s.fileCache⟩)

def getFileVfsNode (im : Image) (s : Nodes) (index : BitVec 64) : Nat × Nodes :=
  match s.fileCache (index - 1) with
  | some n => (n, s)
  | none =>
    (s.nodes.length, ⟨s.nodes ++ [⟨.file, getFile im index, none⟩], s.dirCache, Function.update s.fileCache (index - 1) (some s.nodes.length)⟩)

-- What a lookup stores for its caller, null for the parent of the root, or the error it returns.
inductive Answer where
  | node (found : Option Nat)
  | error (result : VfsError)
deriving DecidableEq, Repr

def stored (made : Nat × Nodes) : Answer × Nodes := (.node (some made.1), made.2)

-- The end of rdsk_lookup. No result stands for a search that is not over yet.
def lookupEntry (im : Image) (fuel : Nat) (s : Nodes) (dir : BitVec 64) (name : List UInt8) : Option (Answer × Nodes) :=
  match findFile im fuel dir name with
  | none => none
  | some (some foundFile, _) => some (stored (getFileVfsNode im s (getFileIndex im foundFile)))
  | some (none, _) =>
    match findDir im fuel dir name with
    | none => none
    | some (some foundDir, _) => some (stored (getDirVfsNode im s (getDirIndex im foundDir)))
    | some (none, _) => some (.error .notFound, s)

-- The node is one of those that were made.
def rdskLookup (im : Image) (fuel : Nat) (s : Nodes) (n : Nat) (name : List UInt8) : Option (Answer × Nodes) :=
  match s.nodes[n]? with
  | none => none
  | some node =>
    if node.type ≠ .dir then some (.error .notDir, s)
    else if name = dot then some (.node (some n), s)
    else if name = dotdot then
      if parentIndex im node.privateData ≠ 0 then some (stored (getDirVfsNode im s (parentIndex im node.privateData)))
      else some (.node none, s)
    else lookupEntry im fuel s node.privateData name

def rdskRoot (im : Image) (s : Nodes) : Nat × Nodes := getDirVfsNode im s (rootIndex im)

end Nodes

end Elysium.Rdsk
