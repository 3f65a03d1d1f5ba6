import Elysium.Rdsk
import Elysium.Visits

set_option autoImplicit false

namespace Elysium.Rdsk

open LittleEndian (Memory load store)
open Fs (CString dot dotdot)

-- The entry that a link leads to.
def Table.next (t : Table) (im : Image) (index : BitVec 64) : BitVec 64 := nextIndex im (t.get index)

def Table.nameIs (t : Table) (im : Image) (name : List UInt8) (index : BitVec 64) : Bool :=
  stringEq name im.memory (getName im (nameOffset im (t.get index)))

-- Where a search ends.
def Stops (im : Image) (t : Table) (name : List UInt8) (index : BitVec 64) : Prop := index = 0 ∨ t.nameIs im name index = true

instance (im : Image) (t : Table) (name : List UInt8) (index : BitVec 64) : Decidable (Stops im t name index) :=
  inferInstanceAs (Decidable (_ ∨ _))

def Table.Has (t : Table) (index : BitVec 64) : Prop := index ≠ 0 ∧ index ≤ t.entryCount

instance (t : Table) (index : BitVec 64) : Decidable (t.Has index) := inferInstanceAs (Decidable (_ ∧ _))

-- Every index that the image holds is 0 or that of an entry, and the root has one.
structure InRange (im : Image) : Prop where
  root : (dirtable im).Has (rootIndex im)
  files : ∀ i, (filetable im).Has i → (filetable im).next im i ≤ filetableEntryCount im
  dirs : ∀ i, (dirtable im).Has i → (dirtable im).next im i ≤ dirtableEntryCount im
  parents : ∀ i, (dirtable im).Has i → parentIndex im (getDir im i) ≤ dirtableEntryCount im
  listsFiles : ∀ i, (dirtable im).Has i → filetableIndex im (getDir im i) ≤ filetableEntryCount im
  listsDirs : ∀ i, (dirtable im).Has i → dirtableIndex im (getDir im i) ≤ dirtableEntryCount im

section Searches

variable {im : Image} {t : Table} {name : List UInt8}

-- What a search comes to at an index that stops it.
def Table.outcome (t : Table) (index : BitVec 64) (followed : Nat) : Option (BitVec 64) × Nat :=
  if index = 0 then (none, followed) else (some (t.get index), followed + 1)

theorem outcome_succ (index : BitVec 64) (followed : Nat) :
    t.outcome index (followed + 1) = ((t.outcome index followed).1, (t.outcome index followed).2 + 1) := by
  rw [Table.outcome, Table.outcome]
  split <;> rfl

theorem find_stops {first : BitVec 64} (stop : Stops im t name first) (fuel : Nat) :
    find im t name (fuel + 1) first = some (t.outcome first 0) := by
  rw [find, Table.outcome]
  by_cases zero : first = 0
  · rw [if_pos zero, if_pos zero]
  · have here : stringEq name im.memory (getName im (nameOffset im (t.get first))) = true := stop.resolve_left zero
    rw [if_neg zero, if_neg zero]
    dsimp only
    rw [here]
    rfl

theorem find_goes {first : BitVec 64} (stop : ¬ Stops im t name first) (fuel : Nat) :
    find im t name (fuel + 1) first = (find im t name fuel (t.next im first)).map fun result => (result.1, result.2 + 1) := by
  have zero : first ≠ 0 := fun zero => stop (.inl zero)
  have other : stringEq name im.memory (getName im (nameOffset im (t.get first))) = false := by
    rw [← Bool.not_eq_true]
    exact fun here => stop (.inr here)
  rw [find, if_neg zero]
  dsimp only
  rw [other]
  rfl

-- A search ends at the first index that stops it, and nowhere else.
theorem find_some_iff {fuel : Nat} {first : BitVec 64} {result : Option (BitVec 64) × Nat} :
    find im t name fuel first = some result ↔
      ∃ k < fuel, Stops im t name ((t.next im)^[k] first) ∧ (∀ j < k, ¬ Stops im t name ((t.next im)^[j] first)) ∧
        result = t.outcome ((t.next im)^[k] first) k := by
  induction fuel generalizing first result with
  | zero => simp [find]
  | succ fuel ih =>
      by_cases stop : Stops im t name first
      · rw [find_stops stop, Option.some.injEq]
        constructor
        · intro same
          exact ⟨0, Nat.succ_pos fuel, stop, fun j less => absurd less (Nat.not_lt_zero j), same.symm⟩
        · rintro ⟨k, _, _, before, same⟩
          cases k with
          | zero => exact same.symm
          | succ k => exact absurd stop (before 0 (Nat.succ_pos k))
      · rw [find_goes stop, Option.map_eq_some_iff]
        constructor
        · rintro ⟨result', later, rfl⟩
          obtain ⟨k, less, stops, before, rfl⟩ := ih.mp later
          refine ⟨k + 1, Nat.succ_lt_succ less, stops, fun j less => ?_, (outcome_succ _ k).symm⟩
          cases j with
          | zero => exact stop
          | succ j => exact before j (Nat.lt_of_succ_lt_succ less)
        · rintro ⟨k, less, stops, before, same⟩
          cases k with
          | zero => exact absurd stops stop
          | succ k =>
              refine ⟨_, ih.mpr ⟨k, Nat.lt_of_succ_lt_succ less, stops, fun j small => before (j + 1) (Nat.succ_lt_succ small), rfl⟩, ?_⟩
              rw [same]
              exact (outcome_succ _ k).symm

theorem find_ends_iff {first : BitVec 64} :
    (∃ fuel, (find im t name fuel first).isSome = true) ↔ ∃ k, Stops im t name ((t.next im)^[k] first) := by
  constructor
  · rintro ⟨fuel, ended⟩
    obtain ⟨result, found⟩ := Option.isSome_iff_exists.mp ended
    obtain ⟨k, _, stops, _⟩ := find_some_iff.mp found
    exact ⟨k, stops⟩
  · intro ends
    obtain ⟨k, stops, before⟩ := Visits.first_stop ends
    exact ⟨k + 1, Option.isSome_iff_exists.mpr ⟨_, find_some_iff.mpr ⟨k, Nat.lt_succ_self k, stops, before, rfl⟩⟩⟩

-- The entries of a table, by their indices.
def Table.indices (t : Table) : Finset (BitVec 64) := (Finset.range t.entryCount.toNat).image fun i => BitVec.ofNat 64 (i + 1)

theorem indices_card (t : Table) : t.indices.card ≤ t.entryCount.toNat := by
  rw [Table.indices]
  exact Finset.card_image_le.trans_eq (Finset.card_range _)

theorem has_mem {index : BitVec 64} (has : t.Has index) : index ∈ t.indices := by
  rw [Table.indices, Finset.mem_image]
  obtain ⟨nonzero, within⟩ := has
  refine ⟨index.toNat - 1, ?_, ?_⟩
  · rw [Finset.mem_range]
    bv_omega
  · rw [show index.toNat - 1 + 1 = index.toNat by bv_omega, BitVec.ofNat_toNat, BitVec.setWidth_eq]

theorem find_links (inside : ∀ i, t.Has i → t.next im i ≤ t.entryCount) {fuel links : Nat} {first : BitVec 64} (start : first ≤ t.entryCount)
    {found : Option (BitVec 64)} (ended : find im t name fuel first = some (found, links)) : links ≤ t.entryCount.toNat := by
  obtain ⟨k, _, stops, before, result⟩ := find_some_iff.mp ended
  have within : ∀ j ≤ k, (t.next im)^[j] first ≤ t.entryCount := by
    intro j
    induction j with
    | zero => exact fun _ => start
    | succ j ih =>
        intro less
        rw [Function.iterate_succ_apply']
        refine inside _ ⟨fun zero => before j less (.inl zero), ih (Nat.le_of_succ_le less)⟩
  have visits : ∀ count ≤ k + 1, (∀ j < count, (t.next im)^[j] first ≠ 0) → count ≤ t.entryCount.toNat := by
    intro count few nonzero
    refine (Visits.visited_le stops before few fun j less => ?_).trans (indices_card t)
    exact has_mem ⟨nonzero j less, within j (by omega)⟩
  rw [Table.outcome] at result
  split at result
  · rw [Prod.mk.injEq] at result
    rw [result.2]
    exact visits k (Nat.le_succ k) fun j less zero => before j less (.inl zero)
  · rename_i named
    rw [Prod.mk.injEq] at result
    rw [result.2]
    refine visits (k + 1) (Nat.le_refl _) fun j less zero => ?_
    rcases Nat.lt_succ_iff_lt_or_eq.mp less with less | rfl
    · exact before j less (.inl zero)
    · exact named zero

theorem find_longer {fuel fuel' : Nat} {first : BitVec 64} {result : Option (BitVec 64) × Nat} (more : fuel ≤ fuel')
    (ended : find im t name fuel first = some result) : find im t name fuel' first = some result := by
  obtain ⟨k, less, stop⟩ := find_some_iff.mp ended
  exact find_some_iff.mpr ⟨k, Nat.lt_of_lt_of_le less more, stop⟩

end Searches

section Results

variable {im : Image}

theorem lookup_entry_ends_iff (s : Nodes) (dir : BitVec 64) (name : List UInt8) :
    (∃ fuel, (lookupEntry im fuel s dir name).isSome = true) ↔
      ∃ fuel found links, findFile im fuel dir name = some (found, links) ∧
        (found.isSome = true ∨ ∃ fuel, (findDir im fuel dir name).isSome = true) := by
  constructor
  · rintro ⟨fuel, ended⟩
    rw [lookupEntry] at ended
    cases files : findFile im fuel dir name with
    | none =>
        rw [files] at ended
        cases ended
    | some result =>
        obtain ⟨found, links⟩ := result
        refine ⟨fuel, found, links, files, ?_⟩
        cases found with
        | some file => exact .inl rfl
        | none =>
            rw [files] at ended
            refine .inr ⟨fuel, ?_⟩
            cases dirs : findDir im fuel dir name with
            | none =>
                rw [dirs] at ended
                cases ended
            | some result => rfl
  · rintro ⟨fuel, found, links, files, rest⟩
    cases found with
    | some file =>
        refine ⟨fuel, ?_⟩
        rw [lookupEntry, files]
        rfl
    | none =>
        obtain ⟨fuel', ended⟩ := rest.resolve_left (by decide)
        obtain ⟨⟨found, links'⟩, dirs⟩ := Option.isSome_iff_exists.mp ended
        have files' : findFile im (max fuel fuel') dir name = _ := find_longer (Nat.le_max_left fuel fuel') files
        have dirs' : findDir im (max fuel fuel') dir name = _ := find_longer (Nat.le_max_right fuel fuel') dirs
        refine ⟨max fuel fuel', ?_⟩
        rw [lookupEntry, files']
        dsimp only
        rw [dirs']
        cases found <;> rfl

theorem rdsk_lookup_file {s : Nodes} {n : Nat} {address : BitVec 64} {m : Option Nat} (at_ : s.nodes[n]? = some ⟨.file, address, m⟩) (fuel : Nat)
    (name : List UInt8) : rdskLookup im fuel s n name = some (.error .notDir, s) := by
  rw [rdskLookup, at_]
  exact if_pos NodeType.noConfusion

theorem rdsk_lookup_dir {s : Nodes} {n : Nat} {address : BitVec 64} {m : Option Nat} (at_ : s.nodes[n]? = some ⟨.dir, address, m⟩) (fuel : Nat)
    (name : List UInt8) :
    rdskLookup im fuel s n name =
      if name = dot then some (.node (some n), s)
      else if name = dotdot then
        if parentIndex im address ≠ 0 then some (stored (getDirVfsNode im s (parentIndex im address))) else some (.node none, s)
      else lookupEntry im fuel s address name := by
  rw [rdskLookup, at_]
  exact if_neg (not_not_intro rfl)

theorem lookup_ends_iff {s : Nodes} {n : Nat} {node : Node} (at_ : s.nodes[n]? = some node) (dir : node.type = .dir) (name : List UInt8) :
    (∃ fuel, (rdskLookup im fuel s n name).isSome = true) ↔ name = dot ∨ name = dotdot ∨
      ∃ fuel found links, findFile im fuel node.privateData name = some (found, links) ∧
        (found.isSome = true ∨ ∃ fuel, (findDir im fuel node.privateData name).isSome = true) := by
  obtain ⟨type, address, m⟩ := node
  obtain rfl : type = .dir := dir
  by_cases self : name = dot
  · refine iff_of_true ⟨0, ?_⟩ (.inl self)
    rw [rdsk_lookup_dir at_, if_pos self]
    rfl
  by_cases up : name = dotdot
  · refine iff_of_true ⟨0, ?_⟩ (.inr (.inl up))
    rw [rdsk_lookup_dir at_, if_neg self, if_pos up]
    split <;> rfl
  have searches : ∀ fuel, rdskLookup im fuel s n name = lookupEntry im fuel s address name := by
    intro fuel
    rw [rdsk_lookup_dir at_, if_neg self, if_neg up]
  simp only [searches]
  refine (lookup_entry_ends_iff s address name).trans ⟨fun ends => .inr (.inr ends), ?_⟩
  rintro (same | same | ends)
  · exact absurd same self
  · exact absurd same up
  · exact ends

-- A search by name ends exactly where the links come to 0 or to the name, and follows no more of them than there are
-- entries.
theorem rdsk_search_ends (inRange : InRange im) {i : BitVec 64} (has : (dirtable im).Has i) (name : CString) :
    ((∃ fuel, (findFile im fuel (getDir im i) name.bytes).isSome = true) ↔
      ∃ k, Stops im (filetable im) name.bytes (((filetable im).next im)^[k] (filetableIndex im (getDir im i)))) ∧
    ((∃ fuel, (findDir im fuel (getDir im i) name.bytes).isSome = true) ↔
      ∃ k, Stops im (dirtable im) name.bytes (((dirtable im).next im)^[k] (dirtableIndex im (getDir im i)))) ∧
    (∀ fuel found links, findFile im fuel (getDir im i) name.bytes = some (found, links) → links ≤ (filetableEntryCount im).toNat) ∧
    (∀ fuel found links, findDir im fuel (getDir im i) name.bytes = some (found, links) → links ≤ (dirtableEntryCount im).toNat) ∧
    ∀ s n mountedVfs, s.nodes[n]? = some ⟨.dir, getDir im i, mountedVfs⟩ →
      ((∃ fuel, (rdskLookup im fuel s n name.bytes).isSome = true) ↔ name.bytes = dot ∨ name.bytes = dotdot ∨
        ∃ fuel found links, findFile im fuel (getDir im i) name.bytes = some (found, links) ∧
          (found.isSome = true ∨ ∃ fuel, (findDir im fuel (getDir im i) name.bytes).isSome = true)) :=
  ⟨find_ends_iff, find_ends_iff, fun _ _ _ => find_links inRange.files (inRange.listsFiles i has),
    fun _ _ _ => find_links inRange.dirs (inRange.listsDirs i has), fun _ _ _ at_ => lookup_ends_iff at_ rfl name.bytes⟩

-- An image at 0x1000, from the offsets, values and sizes of what is not zero in it.
def imageOf (fields : List (BitVec 64 × BitVec 64 × Nat)) : Image :=
  ⟨fields.foldr (fun field m => store (0x1000 + field.1) field.2.1 field.2.2 m) fun _ => 0, 0x1000⟩

-- Two directories, the root with an empty name and "tmp" in it, and a file "a".
def smallHeader : List (BitVec 64 × BitVec 64 × Nat) :=
  [(8, 1, 8), (16, 72, 8), (32, 41, 2), (34, 2, 8), (42, 128, 8), (50, 41, 2), (52, 1, 8), (60, 256, 8), (73, 0x706d74, 3),
    (77, 0x61, 1), (145, 2, 8), (170, 1, 8), (178, 1, 8), (202, 1, 8), (257, 5, 8), (289, 2, 8)]

def small : Image := imageOf smallHeader

-- The same, with a "tmp" that is followed by itself.
def looped : Image := imageOf ((194, 2, 8) :: smallHeader)

theorem one_entry {t : Table} (count : t.entryCount = 1) {i : BitVec 64} (has : t.Has i) : i = 1 := by
  obtain ⟨nonzero, within⟩ := has
  rw [count] at within
  bv_omega

theorem two_entries {t : Table} (count : t.entryCount = 2) {i : BitVec 64} (has : t.Has i) : i = 1 ∨ i = 2 := by
  obtain ⟨nonzero, within⟩ := has
  rw [count] at within
  bv_omega

theorem in_range_of {im : Image} (count : dirtableEntryCount im = 2) (root : (dirtable im).Has (rootIndex im))
    (files : ∀ i, (filetable im).Has i → (filetable im).next im i ≤ filetableEntryCount im)
    (each : ∀ i, i = 1 ∨ i = 2 → (dirtable im).next im i ≤ 2 ∧ parentIndex im (getDir im i) ≤ 2 ∧
      filetableIndex im (getDir im i) ≤ filetableEntryCount im ∧ dirtableIndex im (getDir im i) ≤ 2) : InRange im := by
  have dir : ∀ i, (dirtable im).Has i → i = 1 ∨ i = 2 := fun i has => two_entries count has
  refine ⟨root, files, fun i has => ?_, fun i has => ?_, fun i has => ?_, fun i has => ?_⟩
  · exact count ▸ (each i (dir i has)).1
  · exact count ▸ (each i (dir i has)).2.1
  · exact (each i (dir i has)).2.2.1
  · exact count ▸ (each i (dir i has)).2.2.2

theorem small_in_range : InRange small := by
  refine in_range_of (by decide) (by decide) (fun i has => ?_) ?_
  · rw [one_entry (by decide) has]
    decide
  · rintro i (rfl | rfl) <;> decide

theorem looped_in_range : InRange looped := by
  refine in_range_of (by decide) (by decide) (fun i has => ?_) ?_
  · rw [one_entry (by decide) has]
    decide
  · rintro i (rfl | rfl) <;> decide

def nameX : CString := ⟨[120], by decide⟩

-- "x" is no name of the image.
theorem rdsk_search_ends_small : ∃ fuel, (findDir small fuel (getDir small 1) nameX.bytes).isSome = true :=
  (rdsk_search_ends small_in_range (show (dirtable small).Has 1 by decide) nameX).2.1.mpr ⟨1, .inl (by decide)⟩

theorem rdsk_search_loops :
    InRange looped ∧ (dirtable looped).Has 1 ∧ ∀ fuel, findDir looped fuel (getDir looped 1) nameX.bytes = none := by
  have around : ∀ fuel, find looped (dirtable looped) nameX.bytes fuel 2 = none := by
    intro fuel
    induction fuel with
    | zero => rfl
    | succ fuel ih =>
        rw [find_goes (by decide), show (dirtable looped).next looped 2 = 2 by decide, ih]
        rfl
  refine ⟨looped_in_range, by decide, fun fuel => ?_⟩
  rw [findDir, show dirtableIndex looped (getDir looped 1) = 2 by decide]
  exact around fuel

end Results

end Elysium.Rdsk
