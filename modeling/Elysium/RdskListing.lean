import Elysium.Chain
import Elysium.RdskNodes
import Mathlib.Data.BitVec
import Mathlib.Data.Fintype.Card
import Mathlib.Logic.Relation

set_option autoImplicit false

namespace Elysium.Rdsk

open Chain (Linked chain_head chain_unique chain_nodup)
open Fs (VfsError CString dot dotdot)
open LittleEndian (Memory load store_outside)
open Transitions (Reachable)

section Readdir

-- The int that the compiler makes of a value.
def toInt (value : BitVec 64) : Int := (value.setWidth 32).toInt

-- The result of an addition of ints, which has none outside their range.
def intOf (value : Int) : Option Int := if -2147483648 ≤ value ∧ value ≤ 2147483647 then some value else none

def advance (next : BitVec 64 → BitVec 64) : Nat → BitVec 64 → BitVec 64
  | 0, index => index
  | count + 1, index => if index = 0 then index else advance next count (next index)

-- The second part of rdsk_readdir: the name, and the offset afterwards.
def readDirs (im : Image) (dir offset : BitVec 64) (localOffset : Int) : Option (BitVec 64 × BitVec 64) :=
  match intOf (localOffset - toInt (filetableEntryCount im)) with
  | none => none
  | some count =>
    let index := advance ((dirtable im).next im) count.toNat (dirtableIndex im dir)
    if index = 0 then some (0, offset)
    else (intOf (localOffset + 1)).map fun next => (getName im (nameOffset im (getDir im index)), BitVec.ofInt 64 next)

-- No result stands for an int that leaves its range.
def rdskReaddir (im : Image) (node : Node) (offset : BitVec 64) : Option (Except VfsError (BitVec 64 × BitVec 64)) :=
  if node.type ≠ .dir then some (.error .notDir)
  else if toInt offset < toInt (filetableEntryCount im) then
    let index := advance ((filetable im).next im) (toInt offset).toNat (filetableIndex im node.privateData)
    if index = 0 then (readDirs im node.privateData offset (toInt (filetableEntryCount im))).map .ok
    else (intOf (toInt offset + 1)).map fun next => .ok (getName im (nameOffset im (getFile im index)), BitVec.ofInt 64 next)
  else (readDirs im node.privateData offset (toInt offset)).map .ok

-- The names that calls yield, each with the offset that the call before it stored.
def listing (im : Image) (node : Node) : Nat → BitVec 64 → Option (List (BitVec 64))
  | 0, _ => some []
  | calls + 1, offset =>
    match rdskReaddir im node offset with
    | some (.ok (name, offset')) => (listing im node calls offset').map (name :: ·)
    | _ => none

end Readdir

section Chains

variable (im : Image) (t : Table)

def Table.Links (i j : BitVec 64) : Prop := t.Has i ∧ j ≠ 0 ∧ t.next im i = j

-- No entry is come back to from itself.
def Table.Acyclic : Prop := ∀ i, ¬ Relation.TransGen (t.Links im) i i

def index? (index : BitVec 64) : Option (BitVec 64) := if index = 0 then none else some index

-- The entries from an index on.
def Table.Chained (first : BitVec 64) (list : List (BitVec 64)) : Prop := Linked (fun i => index? (t.next im i)) (index? first) list

variable {im t}

theorem chained_nil {first : BitVec 64} (chained : t.Chained im first []) : first = 0 := by
  by_contra nonzero
  rw [Table.Chained, index?, if_neg nonzero] at chained
  cases chained

theorem chained_zero {list : List (BitVec 64)} (chained : t.Chained im 0 list) : list = [] := by
  cases list with
  | nil => rfl
  | cons i rest => cases (chain_head chained).1

theorem chained_cons {first i : BitVec 64} {rest : List (BitVec 64)} (chained : t.Chained im first (i :: rest)) :
    first = i ∧ i ≠ 0 ∧ t.Chained im (t.next im i) rest := by
  obtain ⟨starts, tail⟩ := chain_head chained
  rw [index?] at starts
  split at starts
  · cases starts
  · rename_i nonzero
    obtain rfl := Option.some.inj starts
    exact ⟨rfl, nonzero, tail⟩

theorem chained_start {first : BitVec 64} {rest : List (BitVec 64)} (nonzero : first ≠ 0) (tail : t.Chained im (t.next im first) rest) :
    t.Chained im first (first :: rest) := by
  rw [Table.Chained, index?, if_neg nonzero]
  exact .cons first rest tail

-- Without cycles every chain ends.
theorem chained_exists (acyclic : t.Acyclic im) (inside : ∀ i, t.Has i → t.next im i ≤ t.entryCount) {first : BitVec 64}
    (start : first ≤ t.entryCount) : ∃ list, t.Chained im first list := by
  have irreflexive : Std.Irrefl (Relation.TransGen (t.Links im)) := ⟨acyclic⟩
  have finite : Finite (BitVec 64) := Finite.of_injective _ BitVec.toFin_injective
  have ends : WellFounded (Function.swap (Relation.TransGen (t.Links im))) := Finite.wellFounded_of_trans_of_irrefl _
  induction first using ends.induction with
  | _ first ih =>
      by_cases zero : first = 0
      · exact ⟨[], zero ▸ .nil⟩
      · have has : t.Has first := ⟨zero, start⟩
        have rest : ∃ list, t.Chained im (t.next im first) list := by
          by_cases last : t.next im first = 0
          · exact ⟨[], last ▸ .nil⟩
          · exact ih _ (.single ⟨has, last, rfl⟩) (inside first has)
        obtain ⟨list, tail⟩ := rest
        exact ⟨first :: list, chained_start zero tail⟩

theorem chained_has (inside : ∀ i, t.Has i → t.next im i ≤ t.entryCount) {first : BitVec 64} {list : List (BitVec 64)}
    (start : first ≤ t.entryCount) (chained : t.Chained im first list) : ∀ i ∈ list, t.Has i := by
  induction list generalizing first with
  | nil => exact fun i member => absurd member List.not_mem_nil
  | cons j rest ih =>
      obtain ⟨rfl, nonzero, tail⟩ := chained_cons chained
      have has : t.Has first := ⟨nonzero, start⟩
      intro i member
      rcases List.mem_cons.mp member with rfl | later
      · exact has
      · exact ih (inside first has) tail i later

theorem chained_length (inside : ∀ i, t.Has i → t.next im i ≤ t.entryCount) {first : BitVec 64} {list : List (BitVec 64)}
    (start : first ≤ t.entryCount) (chained : t.Chained im first list) : list.length ≤ t.entryCount.toNat := by
  rw [← List.toFinset_card_of_nodup (chain_nodup chained)]
  refine (Finset.card_le_card fun i member => ?_).trans (indices_card t)
  exact has_mem (chained_has inside start chained i (List.mem_toFinset.mp member))

-- Following links goes down the list.
theorem chained_advance {first : BitVec 64} {list : List (BitVec 64)} (chained : t.Chained im first list) (count : Nat) :
    t.Chained im (advance (t.next im) count first) (list.drop count) := by
  induction count generalizing first list with
  | zero => exact chained
  | succ count ih =>
      rw [advance]
      cases list with
      | nil =>
          obtain rfl := chained_nil chained
          exact chained
      | cons i rest =>
          obtain ⟨rfl, nonzero, tail⟩ := chained_cons chained
          rw [if_neg nonzero]
          exact ih tail

theorem advance_past {first : BitVec 64} {list : List (BitVec 64)} (chained : t.Chained im first list) {count : Nat}
    (past : list.length ≤ count) : advance (t.next im) count first = 0 := by
  have at_ := chained_advance chained count
  rw [List.drop_of_length_le past] at at_
  exact chained_nil at_

theorem advance_at {first : BitVec 64} {list : List (BitVec 64)} (chained : t.Chained im first list) {count : Nat}
    (within : count < list.length) : advance (t.next im) count first = list[count] ∧ list[count] ≠ 0 := by
  have at_ := chained_advance chained count
  rw [List.drop_eq_getElem_cons within] at at_
  exact ⟨(chained_cons at_).1, (chained_cons at_).2.1⟩

end Chains

section Cursor

theorem to_int_small {value : Nat} (small : value < 2 ^ 31) : toInt (BitVec.ofNat 64 value) = value := by
  rw [toInt, BitVec.setWidth_ofNat_of_le (by decide), BitVec.toInt_ofNat', Int.bmod_eq_of_le (by omega) (by omega)]

theorem int_of_small {value : Nat} (small : value < 2 ^ 31) : intOf value = some (value : Int) := if_pos (by omega)

theorem int_of_next {value : Nat} (small : value + 1 < 2 ^ 31) : intOf ((value : Int) + 1) = some ((value + 1 : Nat) : Int) := by
  rw [← int_of_small small, Int.natCast_add_one]

def Entry.nameAddress (im : Image) (e : Entry) : BitVec 64 := getName im (nameOffset im (e.address im))

-- What a directory lists: its files, then its directories.
def listed (files dirs : List (BitVec 64)) : List Entry := files.map Entry.file ++ dirs.map Entry.dir

-- The offset behind a number of names.
def cursor (fileCount files count : Nat) : Nat := if count ≤ files then count else fileCount + (count - files)

variable {im : Image} {dir : BitVec 64} {files dirs : List (BitVec 64)}
variable (small : (filetableEntryCount im).toNat < 2 ^ 31) (few : files.length ≤ (filetableEntryCount im).toNat)
variable (fileChain : (filetable im).Chained im (filetableIndex im dir) files)
variable (dirChain : (dirtable im).Chained im (dirtableIndex im dir) dirs)

include small in
theorem file_count_int : toInt (filetableEntryCount im) = (filetableEntryCount im).toNat := by
  have same := to_int_small small
  rwa [BitVec.ofNat_toNat, BitVec.setWidth_eq] at same

include small few fileChain in
theorem readdir_file {count : Nat} (within : count < files.length) (m : Option Nat) :
    rdskReaddir im ⟨.dir, dir, m⟩ (BitVec.ofNat 64 count) =
      some (.ok ((Entry.file files[count]).nameAddress im, BitVec.ofNat 64 (count + 1))) := by
  obtain ⟨reached, nonzero⟩ := advance_at fileChain within
  rw [rdskReaddir, if_neg (not_not_intro rfl), file_count_int small, to_int_small (by omega), if_pos (by omega)]
  dsimp only
  rw [Int.toNat_natCast, reached, if_neg nonzero, int_of_next (by omega), Option.map_some, BitVec.ofInt_natCast]
  rfl

-- Behind its files a directory is read from the number of files of the image on.
include small few fileChain in
theorem readdir_dirs {count : Nat} (past : files.length ≤ count) (bound : cursor (filetableEntryCount im).toNat files.length count < 2 ^ 31)
    (m : Option Nat) :
    rdskReaddir im ⟨.dir, dir, m⟩ (BitVec.ofNat 64 (cursor (filetableEntryCount im).toNat files.length count)) =
      (readDirs im dir (BitVec.ofNat 64 (cursor (filetableEntryCount im).toNat files.length count))
        ((filetableEntryCount im).toNat + (count - files.length) : Nat)).map .ok := by
  rw [rdskReaddir, if_neg (not_not_intro rfl), file_count_int small, to_int_small bound]
  rcases Nat.lt_or_ge (cursor (filetableEntryCount im).toNat files.length count) (filetableEntryCount im).toNat with less | more
  · have here : count = files.length := by
      rw [cursor] at less
      split at less <;> omega
    subst here
    rw [if_pos (Int.ofNat_lt.mpr less), Int.toNat_natCast]
    dsimp only
    rw [advance_past fileChain (by rw [cursor, if_pos (Nat.le_refl _)]), if_pos rfl, Nat.sub_self, Nat.add_zero]
  · have here : cursor (filetableEntryCount im).toNat files.length count = (filetableEntryCount im).toNat + (count - files.length) := by
      rw [cursor] at more ⊢
      split at more <;> split <;> omega
    rw [if_neg (by omega), here]

include small dirChain in
theorem read_dirs_at (offset : BitVec 64) {count : Nat} (bound : (filetableEntryCount im).toNat + count < 2 ^ 31) :
    readDirs im dir offset ((filetableEntryCount im).toNat + count : Nat) =
      if within : count < dirs.length then
        (intOf (((filetableEntryCount im).toNat + count : Nat) + 1)).map fun next =>
          ((Entry.dir dirs[count]).nameAddress im, BitVec.ofInt 64 next)
      else some (0, offset) := by
  have inside : (((filetableEntryCount im).toNat + count : Nat) : Int) - (filetableEntryCount im).toNat = (count : Nat) := by omega
  rw [readDirs, file_count_int small, inside, int_of_small (by omega)]
  dsimp only
  rw [Int.toNat_natCast]
  by_cases within : count < dirs.length
  · obtain ⟨reached, nonzero⟩ := advance_at dirChain within
    rw [reached, if_neg nonzero, dif_pos within]
    rfl
  · rw [advance_past dirChain (Nat.le_of_not_lt within), if_pos rfl, dif_neg within]

include small few fileChain dirChain in
theorem readdir_dir {count : Nat} (past : files.length ≤ count) (within : count - files.length < dirs.length)
    (room : (filetableEntryCount im).toNat + (count - files.length) < 2 ^ 31) (m : Option Nat) :
    rdskReaddir im ⟨.dir, dir, m⟩ (BitVec.ofNat 64 (cursor (filetableEntryCount im).toNat files.length count)) =
      (intOf (((filetableEntryCount im).toNat + (count - files.length) : Nat) + 1)).map fun next =>
        .ok ((Entry.dir dirs[count - files.length]).nameAddress im, BitVec.ofInt 64 next) := by
  have bound : cursor (filetableEntryCount im).toNat files.length count < 2 ^ 31 := by
    rw [cursor]
    split <;> omega
  rw [readdir_dirs small few fileChain past bound, read_dirs_at small dirChain _ room, dif_pos within, Option.map_map]
  rfl

-- Every call yields the next name.
include small few fileChain dirChain in
theorem readdir_listed {count : Nat} (within : count < (listed files dirs).length)
    (room : (filetableEntryCount im).toNat + dirs.length < 2 ^ 31) (m : Option Nat) :
    rdskReaddir im ⟨.dir, dir, m⟩ (BitVec.ofNat 64 (cursor (filetableEntryCount im).toNat files.length count)) =
      some (.ok ((listed files dirs)[count].nameAddress im,
        BitVec.ofNat 64 (cursor (filetableEntryCount im).toNat files.length (count + 1)))) := by
  have total : (listed files dirs).length = files.length + dirs.length := by simp [listed]
  rcases Nat.lt_or_ge count files.length with before | past
  · have here : (listed files dirs)[count] = .file files[count] := by simp [listed, before]
    rw [here, cursor, cursor, if_pos (Nat.le_of_lt before), if_pos (show count + 1 ≤ files.length from before)]
    exact readdir_file small few fileChain before m
  · have inside : count - files.length < dirs.length := by omega
    have here : (listed files dirs)[count] = .dir dirs[count - files.length] := by
      simp [listed, List.getElem_append, Nat.not_lt.mpr past]
    have next : cursor (filetableEntryCount im).toNat files.length (count + 1) = (filetableEntryCount im).toNat + (count - files.length) + 1 := by
      rw [cursor, if_neg (by omega)]
      omega
    rw [readdir_dir small few fileChain dirChain past inside (by omega), int_of_next (by omega), Option.map_some, here, next,
      BitVec.ofInt_natCast]

include small few fileChain dirChain in
theorem readdir_end (room : (filetableEntryCount im).toNat + dirs.length < 2 ^ 31) (m : Option Nat) :
    rdskReaddir im ⟨.dir, dir, m⟩ (BitVec.ofNat 64 (cursor (filetableEntryCount im).toNat files.length (listed files dirs).length)) =
      some (.ok (0, BitVec.ofNat 64 (cursor (filetableEntryCount im).toNat files.length (listed files dirs).length))) := by
  have total : (listed files dirs).length = files.length + dirs.length := by simp [listed]
  have bound : cursor (filetableEntryCount im).toNat files.length (listed files dirs).length < 2 ^ 31 := by
    rw [cursor]
    split <;> omega
  rw [readdir_dirs small few fileChain (by omega) bound, read_dirs_at small dirChain _ (by omega), dif_neg (by omega)]
  rfl

-- So do they all, from any name on, and no name behind the last.
include small few fileChain dirChain in
theorem listing_from (room : (filetableEntryCount im).toNat + dirs.length < 2 ^ 31) (m : Option Nat) (calls : Nat) {count : Nat}
    (within : count ≤ (listed files dirs).length) :
    listing im ⟨.dir, dir, m⟩ calls (BitVec.ofNat 64 (cursor (filetableEntryCount im).toNat files.length count)) =
      some ((List.range calls).map fun call => (((listed files dirs).map (Entry.nameAddress im))[count + call]?).getD 0) := by
  induction calls generalizing count with
  | zero => rfl
  | succ calls ih =>
      rw [listing, List.range_succ_eq_map, List.map_cons, List.map_map]
      rcases Nat.lt_or_eq_of_le within with before | rfl
      · rw [readdir_listed small few fileChain dirChain before room]
        dsimp only
        rw [ih before, Option.map_some, Nat.add_zero, List.getElem?_map, List.getElem?_eq_getElem before]
        refine congrArg (fun rest => some (_ :: rest)) (List.map_congr_left fun call _ => ?_)
        rw [Function.comp_apply, Nat.succ_eq_add_one, show count + 1 + call = count + (call + 1) by omega]
      · rw [readdir_end small few fileChain dirChain room]
        dsimp only
        rw [ih (Nat.le_refl _), Option.map_some, List.getElem?_eq_none (by simp)]
        refine congrArg (fun rest => some (_ :: rest)) (List.map_congr_left fun call _ => ?_)
        rw [Function.comp_apply, List.getElem?_eq_none (by simp), List.getElem?_eq_none (by simp)]

end Cursor

section Names

variable {im : Image}

def Entry.nameIs (im : Image) (name : List UInt8) (e : Entry) : Bool := stringEq name im.memory (e.nameAddress im)

def UniqueNames (im : Image) (entries : List Entry) : Prop :=
  ∀ e ∈ entries, ∀ e' ∈ entries, ∀ name : CString, e.nameIs im name.bytes = true → e'.nameIs im name.bytes = true → e = e'

theorem chained_find_index {t : Table} {first : BitVec 64} {list : List (BitVec 64)} (chained : t.Chained im first list) (name : List UInt8)
    {fuel : Nat} (enough : list.length < fuel) : findIndex im t name fuel first = some (list.find? (t.nameIs im name)) := by
  induction list generalizing first fuel with
  | nil =>
      obtain ⟨fuel, rfl⟩ := Nat.exists_eq_add_of_lt enough
      rw [chained_nil chained]
      exact if_pos rfl
  | cons i rest ih =>
      obtain ⟨rfl, nonzero, tail⟩ := chained_cons chained
      cases fuel with
      | zero => exact absurd enough (Nat.not_lt_zero _)
      | succ fuel =>
          rw [findIndex, if_neg nonzero, List.find?_cons]
          cases here : t.nameIs im name first with
          | true => rfl
          | false =>
              rw [List.length_cons] at enough
              rw [if_neg Bool.false_ne_true, ih tail (by omega)]

theorem find_only {list : List (BitVec 64)} {test : BitVec 64 → Bool} {i : BitVec 64} (member : i ∈ list) (passes : test i = true)
    (only : ∀ j ∈ list, test j = true → j = i) : list.find? test = some i := by
  cases found : list.find? test with
  | none => exact absurd passes (List.find?_eq_none.mp found i member)
  | some j => rw [only j (List.mem_of_find?_eq_some found) (List.find?_some found)]

-- A name that only one entry has denotes this entry.
theorem denoted_entry_listed {files dirs : List (BitVec 64)} {i : BitVec 64} (fileChain : (filetable im).Chained im (filetableIndex im (getDir im i)) files)
    (dirChain : (dirtable im).Chained im (dirtableIndex im (getDir im i)) dirs) (unique : UniqueNames im (listed files dirs)) {name : CString}
    {e : Entry} (member : e ∈ listed files dirs) (named : e.nameIs im name.bytes = true) :
    denotedEntry im (files.length + dirs.length + 1) i name.bytes = some (some e) := by
  have inFiles : ∀ j ∈ files, Entry.file j ∈ listed files dirs := fun j there => List.mem_append_left _ (List.mem_map_of_mem there)
  have inDirs : ∀ j ∈ dirs, Entry.dir j ∈ listed files dirs := fun j there => List.mem_append_right _ (List.mem_map_of_mem there)
  rw [denotedEntry, chained_find_index fileChain _ (by omega), chained_find_index dirChain _ (by omega)]
  rcases List.mem_append.mp member with file | dir
  · obtain ⟨j, there, rfl⟩ := List.mem_map.mp file
    have first : files.find? ((filetable im).nameIs im name.bytes) = some j :=
      find_only there named fun k also same => Entry.file.inj (unique _ (inFiles k also) _ member name same named)
    rw [first]
  · obtain ⟨j, there, rfl⟩ := List.mem_map.mp dir
    have noFile : files.find? ((filetable im).nameIs im name.bytes) = none := by
      refine List.find?_eq_none.mpr fun k also same => ?_
      cases unique _ (inFiles k also) _ member name same named
    have first : dirs.find? ((dirtable im).nameIs im name.bytes) = some j :=
      find_only there named fun k also same => Entry.dir.inj (unique _ (inDirs k also) _ member name same named)
    rw [noFile, first]
    rfl

theorem find_of_index {t : Table} {name : List UInt8} {fuel : Nat} {first : BitVec 64} {found : Option (BitVec 64)}
    (ended : findIndex im t name fuel first = some found) : ∃ links, find im t name fuel first = some (found.map t.get, links) := by
  have same := find_index_some im t name fuel first
  rw [ended, Option.map_some] at same
  obtain ⟨result, ran, found_⟩ := Option.map_eq_some_iff.mp same
  exact ⟨result.2, ran.trans (congrArg some (Prod.ext found_ rfl))⟩

theorem lookup_entry_of_denoted {s : Nodes} {i : BitVec 64} {fuel : Nat} {name : List UInt8} {denotes : Option Entry}
    (is_ : denotedEntry im fuel i name = some denotes) : ∃ result, lookupEntry im fuel s (getDir im i) name = some result := by
  rw [denotedEntry] at is_
  rw [lookupEntry]
  cases files : findIndex im (filetable im) name fuel (filetableIndex im (getDir im i)) with
  | none =>
      rw [files] at is_
      cases is_
  | some file =>
      obtain ⟨links, ran⟩ := find_of_index files
      rw [show findFile im fuel (getDir im i) name = _ from ran]
      cases file with
      | some j => exact ⟨_, rfl⟩
      | none =>
          rw [files] at is_
          obtain ⟨dir, dirs, _⟩ := Option.map_eq_some_iff.mp is_
          obtain ⟨links', ran'⟩ := find_of_index dirs
          rw [show findDir im fuel (getDir im i) name = _ from ran']
          cases dir with
          | some j => exact ⟨_, rfl⟩
          | none => exact ⟨_, rfl⟩

theorem lookup_of_denoted {s : Nodes} {n : Nat} {i : BitVec 64} (stands : Stands im s n (.dir i)) {fuel : Nat} {name : List UInt8}
    {denotes : Option Entry} (is_ : denoted im fuel (.dir i) name = some denotes) : ∃ result, rdskLookup im fuel s n name = some result := by
  obtain ⟨m, at_⟩ := stands
  rw [rdsk_lookup_dir (show s.nodes[n]? = some ⟨.dir, getDir im i, m⟩ from at_)]
  rw [denoted] at is_
  by_cases self : name = dot
  · exact ⟨_, if_pos self⟩
  rw [if_neg self] at is_ ⊢
  by_cases up : name = dotdot
  · rw [if_pos up]
    by_cases parent : parentIndex im (getDir im i) ≠ 0
    · exact ⟨_, if_pos parent⟩
    · exact ⟨_, if_neg parent⟩
  rw [if_neg up] at is_ ⊢
  exact lookup_entry_of_denoted is_

-- The lookup of a name gives the node of an entry.
def Finds (im : Image) (s : Nodes) (n : Nat) (name : List UInt8) (e : Entry) : Prop :=
  ∃ fuel found s', rdskLookup im fuel s n name = some (.node (some found), s') ∧ Stands im s' found e

variable (inRange : InRange im) (dirTable : (dirtable im).Fits) (fileTable : (filetable im).Fits)
include inRange dirTable fileTable

theorem finds_of_denoted {s : Nodes} (cached : Cached im s) {n : Nat} {i : BitVec 64} (has : (dirtable im).Has i)
    (stands : Stands im s n (.dir i)) {fuel : Nat} {name : List UInt8} {e : Entry} (is_ : denoted im fuel (.dir i) name = some (some e)) :
    Finds im s n name e := by
  obtain ⟨⟨answer, s'⟩, ran⟩ := lookup_of_denoted stands is_
  have looked := rdsk_lookup_spec inRange dirTable fileTable cached (show (Entry.dir i).Valid im from has) stands ran
  have answered : ∃ found, answer = .node (some found) := by
    by_contra none_
    rw [looked.missing fun found same => none_ ⟨found, same⟩] at is_
    cases is_
  obtain ⟨found, rfl⟩ := answered
  obtain ⟨e', is_', _, stands'⟩ := looked.found found rfl
  obtain rfl := Option.some.inj (Option.some.inj (is_.symm.trans is_'))
  exact ⟨fuel, found, s', ran, stands'⟩

-- Only the names of the directory itself and of its parent are taken.
theorem finds_listed_iff {s : Nodes} (cached : Cached im s) {n : Nat} {i : BitVec 64} (has : (dirtable im).Has i) (stands : Stands im s n (.dir i))
    {files dirs : List (BitVec 64)} (fileChain : (filetable im).Chained im (filetableIndex im (getDir im i)) files)
    (dirChain : (dirtable im).Chained im (dirtableIndex im (getDir im i)) dirs) (unique : UniqueNames im (listed files dirs)) {name : CString}
    {e : Entry} (member : e ∈ listed files dirs) (valid : e.Valid im) (named : e.nameIs im name.bytes = true) :
    Finds im s n name.bytes e ↔ (name.bytes = dot → e = .dir i) ∧ (name.bytes = dotdot → e = .dir (parentIndex im (getDir im i))) := by
  constructor
  · rintro ⟨fuel, found, s', ran, stands'⟩
    obtain ⟨e', is_, valid', stands''⟩ := (rdsk_lookup_spec inRange dirTable fileTable cached (show (Entry.dir i).Valid im from has) stands ran).found found rfl
    obtain rfl := stands_entry dirTable fileTable valid valid' stands' stands''
    rw [denoted] at is_
    constructor
    · intro self
      rw [if_pos self] at is_
      exact (Option.some.inj (Option.some.inj is_)).symm
    · intro up
      rw [if_neg (show name.bytes ≠ dot by rw [up]; decide), if_pos up, Option.some.injEq] at is_
      split at is_
      · exact (Option.some.inj is_).symm
      · cases is_
  · rintro ⟨self, up⟩
    have is_ : denoted im (files.length + dirs.length + 1) (.dir i) name.bytes = some (some e) := by
      rw [denoted]
      split
      · rename_i same
        rw [self same]
      · split
        · rename_i same
          obtain rfl := up same
          rw [if_pos valid.1]
        · exact denoted_entry_listed fileChain dirChain unique member named
    exact finds_of_denoted inRange dirTable fileTable cached has stands is_

end Names

section Results

-- An image whose indices are in range and whose chains have no cycle, with tables that an int can count.
structure WellFormed (im : Image) : Prop where
  inRange : InRange im
  files : (filetable im).Acyclic im
  dirs : (dirtable im).Acyclic im
  fileCount : (filetableEntryCount im).toNat < 2 ^ 31
  dirCount : (dirtableEntryCount im).toNat < 2 ^ 31

variable {im : Image} {files dirs : List (BitVec 64)}

theorem listed_nodup (fileOnce : files.Nodup) (dirOnce : dirs.Nodup) : (listed files dirs).Nodup := by
  refine (fileOnce.map fun i j same => Entry.file.inj same).append (dirOnce.map fun i j same => Entry.dir.inj same) ?_
  intro e file dir
  obtain ⟨i, _, rfl⟩ := List.mem_map.mp file
  obtain ⟨j, _, same⟩ := List.mem_map.mp dir
  cases same

theorem listed_valid (inFiles : ∀ i ∈ files, (filetable im).Has i) (inDirs : ∀ i ∈ dirs, (dirtable im).Has i) {e : Entry}
    (member : e ∈ listed files dirs) : e.Valid im := by
  rcases List.mem_append.mp member with file | dir
  · obtain ⟨i, there, rfl⟩ := List.mem_map.mp file
    exact inFiles i there
  · obtain ⟨i, there, rfl⟩ := List.mem_map.mp dir
    exact inDirs i there

theorem acyclic_of_ends {t : Table} (ends : ∀ i, t.Has i → t.next im i = 0) : t.Acyclic im := by
  have none_ : ∀ i j, ¬ t.Links im i j := fun i j link => link.2.1 (link.2.2.symm.trans (ends i link.1))
  intro i path
  cases path with
  | single link => exact none_ _ _ link
  | tail _ link => exact none_ _ _ link

theorem small_well_formed : WellFormed small := by
  refine ⟨small_in_range, acyclic_of_ends fun i has => ?_, acyclic_of_ends fun i has => ?_, by decide, by decide⟩
  · rw [one_entry (by decide) has]
    decide
  · rcases two_entries (by decide) has with rfl | rfl <;> decide

theorem root_lists_two {im : Image} (starts : dirtableIndex im (getDir im 1) = 2) (ends : (dirtable im).next im 2 = 0) :
    (dirtable im).Chained im (dirtableIndex im (getDir im 1)) [2] := by
  rw [starts]
  refine chained_start (by decide) ?_
  rw [ends]
  exact .nil

theorem unique_names_one (im : Image) (e : Entry) : UniqueNames im [e] := by
  intro e' member e'' member' _ _ _
  rw [List.mem_singleton.mp member, List.mem_singleton.mp member']

theorem root_reached (im : Image) :
    Reachable SysStarts (sysStep im) ⟨(rdskRoot im mounted).2, [((rdskRoot im mounted).1, .dir (rootIndex im))]⟩ :=
  .step _ _ .root (.start _ rfl) rfl

theorem name_tmp_whole : (0 : UInt8) ∉ [116, 109, 112] := by decide

def nameTmp : CString := ⟨[116, 109, 112], name_tmp_whole⟩

-- "tmp" with the name ".", so that it is the root that a lookup gives.
def dotted : Image := imageOf (smallHeader.map fun field => if field.1 = 73 then (73, 0x2e, 1) else field)

theorem dotted_well_formed : WellFormed dotted := by
  refine ⟨in_range_of (by decide) (by decide) (fun i has => ?_) ?_, acyclic_of_ends fun i has => ?_, acyclic_of_ends fun i has => ?_,
    by decide, by decide⟩
  · rw [one_entry (by decide) has]
    decide
  · rintro i (rfl | rfl) <;> decide
  · rw [one_entry (by decide) has]
    decide
  · rcases two_entries (by decide) has with rfl | rfl <;> decide

-- A table of files as long as an int counts, none of them in the root.
def crowdedFields : List (BitVec 64 × BitVec 64 × Nat) :=
  [(8, 1, 8), (16, 72, 8), (32, 41, 2), (34, 2, 8), (42, 128, 8), (50, 41, 2), (52, 2147483647, 8), (60, 512, 8), (73, 0x706d74, 3),
    (145, 2, 8), (170, 1, 8), (202, 1, 8)]

def crowded : Image := imageOf crowdedFields

theorem image_zero {fields : List (BitVec 64 × BitVec 64 × Nat)} (low : ∀ field ∈ fields, field.1.toNat + field.2.2 ≤ 512) {address : BitVec 64}
    (high : 512 ≤ (address - 0x1000).toNat) : (imageOf fields).memory address = 0 := by
  rw [imageOf]
  dsimp only
  induction fields with
  | nil => rfl
  | cons field rest ih =>
      rw [List.foldr_cons, store_outside, ih fun field later => low field (List.mem_cons_of_mem _ later)]
      have near := low field List.mem_cons_self
      bv_omega

theorem load_zero {m : Memory} {address : BitVec 64} {size : Nat} (zeros : ∀ i < size, m (address + BitVec.ofNat 64 i) = 0) :
    load m address size = 0 := by
  induction size with
  | zero => rfl
  | succ size ih =>
      rw [load, ih fun i less => zeros i (Nat.lt_succ_of_lt less), zeros size (Nat.lt_succ_self size)]
      simp

theorem crowded_next {i : BitVec 64} (has : (filetable crowded).Has i) : (filetable crowded).next crowded i = 0 := by
  obtain ⟨nonzero, within⟩ := has
  rw [show (filetable crowded).entryCount = 2147483647 by decide] at within
  rw [Table.next, nextIndex, Table.get, show (filetable crowded).start = 0x1200 by decide, show (filetable crowded).entrySize = 41 by decide]
  have near : i.toNat - 1 < 2147483647 := by bv_omega
  have offset : ((i - 1) * 41).toNat < 2 ^ 40 := by
    rw [BitVec.toNat_mul, show (i - 1).toNat = i.toNat - 1 by bv_omega]
    exact (Nat.mod_le _ _).trans_lt (Nat.mul_lt_mul'' near (show (41 : BitVec 64).toNat < 64 by decide) |>.trans (by decide))
  generalize (i - 1) * 41 = behind at offset ⊢
  clear near within nonzero
  refine load_zero fun k less => image_zero (by decide) ?_
  bv_omega

theorem crowded_well_formed : WellFormed crowded := by
  refine ⟨in_range_of (by decide) (by decide) (fun i has => ?_) ?_, acyclic_of_ends fun i has => crowded_next has, acyclic_of_ends fun i has => ?_,
    by decide, by decide⟩
  · rw [crowded_next has]
    decide
  · rintro i (rfl | rfl) <;> decide
  · rcases two_entries (by decide) has with rfl | rfl <;> decide

end Results

end Elysium.Rdsk
