import Elysium.Vfs
import Elysium.Transitions
import Mathlib.Algebra.Group.Nat.Defs

set_option autoImplicit false

namespace Elysium.Tmpfs

open Fs (VfsNodeType VfsError)
open Transitions (ReachableUnder reachable_under_invariant)

abbrev Memory := Nat → UInt8

-- tmpfs_file_t; a base of 0 is the null pointer.
structure File where
  base : Nat
  size : Nat
deriving DecidableEq, Repr

-- One node of a tmpfs, and the memory its buffer lies in.
structure State where
  type : VfsNodeType
  file : File
  memory : Memory

-- A range that a call reads or writes through the pointer to the file's buffer.
structure Access where
  address : Nat
  count : Nat
deriving DecidableEq, Repr

-- mem_copy goes up from the first byte, so that what it reads may be what it wrote.
def memCopy (dest src : Nat) : Nat → Memory → Memory
  | 0, m => m
  | count + 1, m => Function.update (memCopy dest src count m) (dest + count) (memCopy dest src count m (src + count))

def memSet (dest : Nat) (byte : UInt8) (count : Nat) (m : Memory) : Memory := fun a =>
  if dest ≤ a ∧ a < dest + count then byte else m a

-- The copy from the caller's buffer.
def storeBytes (dest : Nat) (data : List UInt8) (m : Memory) : Memory := fun a =>
  if dest ≤ a ∧ a < dest + data.length then data.getD (a - dest) 0 else m a

def bytesAt (m : Memory) (address count : Nat) : List UInt8 := (List.range count).map fun i => m (address + i)

-- The block that heap_alloc hands out is given.
def heapAlloc (size block : Nat) : Nat := if size = 0 then 0 else block

def heapRealloc (address currentSize newSize block : Nat) (m : Memory) : Nat × Memory × List Access :=
  if currentSize = newSize then (address, m, [])
  else if address = 0 ∧ newSize = 0 then (address, m, [])
  else
    let newAddress := heapAlloc newSize block
    if address = 0 ∨ currentSize = 0 then (newAddress, m, [])
    else
      let count := if currentSize > newSize then currentSize else newSize
      (newAddress, memCopy newAddress address count m, [⟨address, count⟩, ⟨newAddress, count⟩])

-- What a call answers: the bytes copied to the caller and rw_count, rw_count alone, nothing, or the size.
inductive Answer where
  | read (bytes : List UInt8) (rwCount : Nat)
  | written (rwCount : Nat)
  | done
  | size (size : Nat)
deriving DecidableEq, Repr

structure Outcome where
  state : State
  answer : Answer
  accesses : List Access

def tmpfsRead (s : State) (offset size : Nat) : Except VfsError Outcome :=
  if s.type ≠ .file then .error .notFile
  else if offset ≥ s.file.size then .ok ⟨s, .read [] 0, []⟩
  else
    let count := s.file.size - offset
    let count := if count > size then size else count
    .ok ⟨s, .read (bytesAt s.memory (s.file.base + offset) count) count, [⟨s.file.base + offset, count⟩]⟩

-- The file with room for a write that ends at newSize.
def growFile (s : State) (newSize block : Nat) : File × Memory × List Access :=
  if newSize > s.file.size then
    let (base, m, accesses) := heapRealloc s.file.base s.file.size newSize block s.memory
    (⟨base, newSize⟩, m, accesses)
  else (s.file, s.memory, [])

def tmpfsWrite (s : State) (offset : Nat) (data : List UInt8) (block : Nat) : Except VfsError Outcome :=
  if s.type ≠ .file then .error .notFile
  else
    let (file, m, accesses) := growFile s ((offset + data.length) % 2 ^ 64) block
    .ok ⟨⟨s.type, file, storeBytes (file.base + offset) data m⟩, .written data.length,
      accesses ++ [⟨file.base + offset, data.length⟩]⟩

def tmpfsAttr (s : State) : Outcome := ⟨s, .size (if s.type = .file then s.file.size else 0), []⟩

def tmpfsTruncate (s : State) (length block : Nat) : Except VfsError Outcome :=
  if s.type ≠ .file then .error .notFile
  else
    let (buffer, m, accesses) :=
      if length > 0 then
        let buffer := heapAlloc length block
        let m := memSet buffer 0 length s.memory
        if s.file.base ≠ 0 then
          let count := if s.file.size < length then s.file.size else length
          (buffer, memCopy buffer s.file.base count m, [⟨buffer, length⟩, ⟨s.file.base, count⟩, ⟨buffer, count⟩])
        else (buffer, m, [⟨buffer, length⟩])
      else (0, s.memory, [])
    .ok ⟨{ s with file := ⟨buffer, length⟩, memory := m }, .done, accesses⟩

-- The calls on a file, each with the block the heap would hand out, and what all other code does to memory.
inductive Op where
  | read (offset size : Nat)
  | write (offset : Nat) (data : List UInt8) (block : Nat)
  | truncate (length block : Nat)
  | attr
  | elsewhere (memory : Memory)

-- Other code leaves the file's buffer alone.
def elsewhere (s : State) (memory : Memory) : State :=
  { s with memory := fun a => if s.file.base ≤ a ∧ a < s.file.base + s.file.size then s.memory a else memory a }

def call (s : State) : Op → Except VfsError Outcome
  | .read offset size => tmpfsRead s offset size
  | .write offset data block => tmpfsWrite s offset data block
  | .truncate length block => tmpfsTruncate s length block
  | .attr => .ok (tmpfsAttr s)
  | .elsewhere memory => .ok ⟨elsewhere s memory, .done, []⟩

-- The reference: an array of bytes, in which what was never written is zero.
def refWrite (bytes : List UInt8) (offset : Nat) (data : List UInt8) : List UInt8 :=
  (List.range (max bytes.length (offset + data.length))).map fun i =>
    if offset ≤ i ∧ i < offset + data.length then data.getD (i - offset) 0 else bytes.getD i 0

def refTruncate (bytes : List UInt8) (length : Nat) : List UInt8 := (List.range length).map fun i => bytes.getD i 0

def refRead (bytes : List UInt8) (offset size : Nat) : List UInt8 := (bytes.drop offset).take size

def refState (bytes : List UInt8) : Op → List UInt8
  | .write offset data _ => refWrite bytes offset data
  | .truncate length _ => refTruncate bytes length
  | _ => bytes

def refAnswer (bytes : List UInt8) : Op → Answer
  | .read offset size => .read (refRead bytes offset size) (refRead bytes offset size).length
  | .write _ data _ => .written data.length
  | .truncate _ _ => .done
  | .attr => .size bytes.length
  | .elsewhere _ => .done

-- A block of the heap is not null and apart from the file's buffer.
def Fresh (file : File) (block size : Nat) : Prop :=
  block ≠ 0 ∧ (block + size ≤ file.base ∨ file.base + file.size ≤ block)

instance (file : File) (block size : Nat) : Decidable (Fresh file block size) := inferInstanceAs (Decidable (_ ∧ _))

-- offset + size does not wrap, and the heap hands out what it may.
def Possible (s : State) : Op → Prop
  | .write offset data block =>
      offset + data.length < 2 ^ 64 ∧ (s.file.size < offset + data.length → Fresh s.file block (offset + data.length))
  | .truncate length block => 0 < length → Fresh s.file block length
  | _ => True

instance (s : State) : (op : Op) → Decidable (Possible s op)
  | .read _ _ => .isTrue trivial
  | .write _ _ _ => inferInstanceAs (Decidable (_ ∧ _))
  | .truncate _ _ => inferInstanceAs (Decidable (_ → _))
  | .attr => .isTrue trivial
  | .elsewhere _ => .isTrue trivial

-- The node is a file whose buffer holds the bytes.
structure Holds (s : State) (bytes : List UInt8) : Prop where
  file : s.type = .file
  bytes : bytesAt s.memory s.file.base s.file.size = bytes
  null : s.file.base = 0 ↔ s.file.size = 0

def Access.Inside (access : Access) (file : File) : Prop :=
  access.count = 0 ∨ file.base ≤ access.address ∧ access.address + access.count ≤ file.base + file.size

-- The call answers as the reference does, stays in the buffers of the file and leaves the reference's bytes.
structure Follows (s : State) (op : Op) (bytes : List UInt8) (outcome : Outcome) : Prop where
  returns : call s op = .ok outcome
  answer : outcome.answer = refAnswer bytes op
  inside : ∀ access ∈ outcome.accesses, access.Inside s.file ∨ access.Inside outcome.state.file
  holds : Holds outcome.state (refState bytes op)

-- Where a write grows a file, the file is empty and the hole below the written bytes happens to be zero.
def Meets (s : State) : Op → Prop
  | .write offset data block =>
      offset + data.length ≤ s.file.size ∨ s.file.size = 0 ∧ ∀ i < offset, s.memory (block + i) = 0
  | _ => True

section Bytes

variable {m : Memory} {address count : Nat}

@[simp] theorem bytes_at_length : (bytesAt m address count).length = count := by
  simp [bytesAt]

theorem bytes_at_get {i : Nat} (small : i < count) : (bytesAt m address count).getD i 0 = m (address + i) := by
  simp [bytesAt, small]

theorem bytes_at_eq_iff (n : Nat) (f : Nat → UInt8) :
    bytesAt m address count = (List.range n).map f ↔ count = n ∧ ∀ i < count, m (address + i) = f i := by
  constructor
  · intro same
    have length := congrArg List.length same
    rw [bytes_at_length, List.length_map, List.length_range] at length
    refine ⟨length, fun i small => ?_⟩
    have byte := congrArg (List.getD · i 0) same
    rw [bytes_at_get small] at byte
    rw [byte]
    simp [← length, small]
  · rintro ⟨rfl, same⟩
    apply List.map_congr_left
    intro i member
    exact same i (List.mem_range.mp member)

theorem mem_copy_outside {dest src : Nat} (n : Nat) {a : Nat} (outside : ¬ (dest ≤ a ∧ a < dest + n)) : memCopy dest src n m a = m a := by
  induction n with
  | zero => rfl
  | succ n ih =>
      rw [memCopy, Function.update_of_ne (by omega), ih (by omega)]

-- Between ranges that are apart it does not matter that the copy goes byte by byte.
theorem mem_copy_inside {dest src n i : Nat} (apart : dest + n ≤ src ∨ src + n ≤ dest) (small : i < n) :
    memCopy dest src n m (dest + i) = m (src + i) := by
  induction n with
  | zero => omega
  | succ n ih =>
      rw [memCopy]
      by_cases last : i = n
      · rw [last, Function.update_self, mem_copy_outside _ (by omega)]
      · rw [Function.update_of_ne (by omega), ih (by omega) (by omega)]

theorem store_inside {dest : Nat} {data : List UInt8} {i : Nat} (small : i < data.length) :
    storeBytes dest data m (dest + i) = data.getD i 0 := by
  rw [storeBytes, if_pos ⟨by omega, by omega⟩, Nat.add_sub_cancel_left]

theorem store_outside {dest : Nat} {data : List UInt8} {a : Nat} (outside : ¬ (dest ≤ a ∧ a < dest + data.length)) :
    storeBytes dest data m a = m a := by
  rw [storeBytes, if_neg outside]

end Bytes

section Calls

variable {s : State} {bytes : List UInt8}

theorem holds_length (holds : Holds s bytes) : bytes.length = s.file.size := by
  rw [← holds.bytes, bytes_at_length]

theorem holds_byte (holds : Holds s bytes) {i : Nat} (small : i < s.file.size) : s.memory (s.file.base + i) = bytes.getD i 0 := by
  rw [← holds.bytes, bytes_at_get small]

theorem beyond_zero (holds : Holds s bytes) {i : Nat} (beyond : s.file.size ≤ i) : bytes.getD i 0 = 0 := by
  have length := holds_length holds
  simp [List.getD_eq_getElem?_getD, List.getElem?_eq_none (by omega : bytes.length ≤ i)]

theorem read_follows (holds : Holds s bytes) (offset size : Nat) : ∃ outcome, Follows s (.read offset size) bytes outcome := by
  have length := holds_length holds
  by_cases beyond : offset ≥ s.file.size
  · have empty : refRead bytes offset size = [] := by
      simp [refRead, List.drop_eq_nil_of_le (by omega : bytes.length ≤ offset)]
    refine ⟨⟨s, .read [] 0, []⟩, ?_, ?_, by simp, holds⟩
    · simp [call, tmpfsRead, holds.file, beyond]
    · simp [refAnswer, empty]
  · have clipped : (if s.file.size - offset > size then size else s.file.size - offset) = min size (s.file.size - offset) := by
      split <;> omega
    have text : bytesAt s.memory (s.file.base + offset) (min size (s.file.size - offset)) = refRead bytes offset size := by
      rw [refRead, ← holds.bytes, bytesAt, bytesAt]
      apply List.ext_getElem
      · simp
      · intro i small _
        simp [Nat.add_assoc]
    refine ⟨_, by simp only [call, tmpfsRead, holds.file]; rw [if_neg (by simp), if_neg beyond, clipped], ?_, ?_, holds⟩
    · rw [refAnswer, ← text, bytes_at_length]
    · intro access member
      rw [List.mem_singleton] at member
      subst member
      exact .inl (.inr ⟨Nat.le_add_right _ _, by simp only; omega⟩)

theorem write_eq (holds : Holds s bytes) {offset : Nat} {data : List UInt8} {block : Nat} (fits : offset + data.length < 2 ^ 64)
    {file : File} {m : Memory} {accesses : List Access} (grown : growFile s (offset + data.length) block = (file, m, accesses)) :
    call s (.write offset data block) = .ok ⟨⟨s.type, file, storeBytes (file.base + offset) data m⟩, .written data.length,
      accesses ++ [⟨file.base + offset, data.length⟩]⟩ := by
  have inside : (offset + data.length) % 2 ^ 64 = offset + data.length := Nat.mod_eq_of_lt fits
  simp only [call, tmpfsWrite, holds.file, inside, grown]
  rfl

-- A write inside the file.
theorem write_inside (holds : Holds s bytes) {offset : Nat} {data : List UInt8} {block : Nat} (fits : offset + data.length < 2 ^ 64)
    (small : offset + data.length ≤ s.file.size) : ∃ outcome, Follows s (.write offset data block) bytes outcome := by
  have length := holds_length holds
  have same : growFile s (offset + data.length) block = (s.file, s.memory, []) := if_neg (by omega)
  refine ⟨_, write_eq holds fits same, rfl, ?_, holds.file, ?_, holds.null⟩
  · intro access member
    rw [List.nil_append, List.mem_singleton] at member
    subst member
    exact .inl (.inr ⟨Nat.le_add_right _ _, by simp only; omega⟩)
  · rw [refState, refWrite, bytes_at_eq_iff]
    refine ⟨by simp only; omega, fun i within => ?_⟩
    simp only at within ⊢
    split
    · rename_i there
      rw [show s.file.base + i = s.file.base + offset + (i - offset) by omega, store_inside (by omega)]
    · rename_i there
      rw [store_outside (by omega), holds_byte holds within]

-- A write that makes an empty file grow leaves below it what the new block held.
theorem write_first (holds : Holds s bytes) {offset : Nat} {data : List UInt8} {block : Nat} (fits : offset + data.length < 2 ^ 64)
    (grows : s.file.size < offset + data.length) (fresh : Fresh s.file block (offset + data.length)) (empty : s.file.size = 0) :
    (∃ outcome, Follows s (.write offset data block) bytes outcome) ↔ ∀ i < offset, s.memory (block + i) = 0 := by
  have length := holds_length holds
  have null := holds.null.mpr empty
  have grown : growFile s (offset + data.length) block = (⟨block, offset + data.length⟩, s.memory, []) := by
    have other : s.file.size ≠ offset + data.length := by omega
    have some_ : offset + data.length ≠ 0 := by omega
    rw [growFile, if_pos grows, heapRealloc, if_neg other, if_neg fun both => some_ both.2]
    simp only
    rw [if_pos (.inl null), heapAlloc, if_neg some_]
  have run := write_eq holds fits grown
  constructor
  · rintro ⟨outcome, follows⟩ i small
    obtain rfl := Except.ok.inj (run.symm.trans follows.returns)
    have text := follows.holds.bytes
    rw [refState, refWrite, bytes_at_eq_iff] at text
    have byte := text.2 i (by simp only; omega)
    simp only at byte
    rw [if_neg (by omega), store_outside (by omega), beyond_zero holds (by omega)] at byte
    exact byte
  · intro zero
    refine ⟨_, run, rfl, ?_, holds.file, ?_, ?_⟩
    · intro access member
      rw [List.nil_append, List.mem_singleton] at member
      subst member
      exact .inr (.inr ⟨Nat.le_add_right _ _, by simp only; omega⟩)
    · rw [refState, refWrite, bytes_at_eq_iff]
      refine ⟨by simp only; omega, fun i within => ?_⟩
      simp only at within ⊢
      split
      · rename_i there
        rw [show block + i = block + offset + (i - offset) by omega, store_inside (by omega)]
      · rename_i there
        rw [store_outside (by omega), zero i (by omega), beyond_zero holds (by omega)]
    · simp only
      exact iff_of_false fresh.1 (by omega)

-- A write that makes another file grow copies from beyond the end of its buffer.
theorem write_grows (holds : Holds s bytes) {offset : Nat} {data : List UInt8} {block : Nat} (fits : offset + data.length < 2 ^ 64)
    (grows : s.file.size < offset + data.length) (fresh : Fresh s.file block (offset + data.length)) (filled : s.file.size ≠ 0) :
    ¬ ∃ outcome, Follows s (.write offset data block) bytes outcome := by
  rintro ⟨outcome, follows⟩
  have null : s.file.base ≠ 0 := fun zero => filled (holds.null.mp zero)
  have other : s.file.size ≠ offset + data.length := by omega
  have some_ : offset + data.length ≠ 0 := by omega
  obtain ⟨m, grown⟩ : ∃ m, growFile s (offset + data.length) block =
      (⟨block, offset + data.length⟩, m, [⟨s.file.base, offset + data.length⟩, ⟨block, offset + data.length⟩]) := by
    refine ⟨memCopy block s.file.base (offset + data.length) s.memory, ?_⟩
    rw [growFile, if_pos grows, heapRealloc, if_neg other, if_neg fun both => some_ both.2]
    simp only
    rw [if_neg (by omega), heapAlloc, if_neg some_, if_neg (by omega)]
  have run := Except.ok.inj ((write_eq holds fits grown).symm.trans follows.returns)
  have copied := follows.inside ⟨s.file.base, offset + data.length⟩ (by rw [← run]; simp)
  rw [← run] at copied
  rcases copied with (none | ⟨_, past⟩) | none | ⟨low, high⟩
  · exact some_ none
  · simp only at past
    omega
  · exact some_ none
  · obtain ⟨_, apart⟩ := fresh
    simp only at low high
    omega

theorem truncate_follows (holds : Holds s bytes) {length block : Nat} (fresh : 0 < length → Fresh s.file block length) :
    ∃ outcome, Follows s (.truncate length block) bytes outcome := by
  by_cases zero : length = 0
  · subst zero
    refine ⟨⟨⟨s.type, ⟨0, 0⟩, s.memory⟩, .done, []⟩, ?_, rfl, by simp, holds.file, rfl, iff_of_true rfl rfl⟩
    simp [call, tmpfsTruncate, holds.file]
  have positive : 0 < length := by omega
  obtain ⟨notNull, apart⟩ := fresh positive
  by_cases null : s.file.base = 0
  · have empty := holds.null.mp null
    refine ⟨⟨⟨s.type, ⟨block, length⟩, memSet block 0 length s.memory⟩, .done, [⟨block, length⟩]⟩, ?_, rfl, ?_, holds.file, ?_,
      iff_of_false notNull zero⟩
    · simp [call, tmpfsTruncate, holds.file, positive, heapAlloc, zero, null]
    · intro access member
      rw [List.mem_singleton] at member
      subst member
      exact .inr (.inr ⟨Nat.le_refl _, Nat.le_refl _⟩)
    · rw [refState, refTruncate, bytes_at_eq_iff]
      refine ⟨rfl, fun i within => ?_⟩
      simp only at within ⊢
      rw [memSet, if_pos ⟨by omega, by omega⟩, beyond_zero holds (by omega)]
  · have filled : s.file.size ≠ 0 := fun none => null (holds.null.mpr none)
    have clipped : (if s.file.size < length then s.file.size else length) = min s.file.size length := by
      split <;> omega
    refine ⟨⟨⟨s.type, ⟨block, length⟩, memCopy block s.file.base (min s.file.size length) (memSet block 0 length s.memory)⟩, .done,
      [⟨block, length⟩, ⟨s.file.base, min s.file.size length⟩, ⟨block, min s.file.size length⟩]⟩, ?_, rfl, ?_, holds.file, ?_,
      iff_of_false notNull zero⟩
    · simp [call, tmpfsTruncate, holds.file, positive, heapAlloc, zero, null, clipped]
    · intro access member
      simp only [List.mem_cons, List.not_mem_nil, or_false] at member
      rcases member with rfl | rfl | rfl
      · exact .inr (.inr ⟨Nat.le_refl _, Nat.le_refl _⟩)
      · exact .inl (.inr ⟨Nat.le_refl _, by simp only; omega⟩)
      · exact .inr (.inr ⟨Nat.le_refl _, by simp only; omega⟩)
    · rw [refState, refTruncate, bytes_at_eq_iff]
      refine ⟨rfl, fun i within => ?_⟩
      simp only at within ⊢
      by_cases kept : i < s.file.size
      · rw [mem_copy_inside (by omega) (by omega), memSet, if_neg (by omega), holds_byte holds kept]
      · rw [mem_copy_outside _ (by omega), memSet, if_pos ⟨by omega, by omega⟩, beyond_zero holds (by omega)]

theorem elsewhere_follows (holds : Holds s bytes) (memory : Memory) : ∃ outcome, Follows s (.elsewhere memory) bytes outcome := by
  refine ⟨⟨elsewhere s memory, .done, []⟩, rfl, rfl, by simp, holds.file, ?_, holds.null⟩
  have same : refState bytes (.elsewhere memory) = bytes := rfl
  rw [same, ← holds.bytes]
  apply List.map_congr_left
  intro i member
  have small := List.mem_range.mp member
  simp only [elsewhere] at small ⊢
  exact if_pos ⟨by omega, by omega⟩

theorem attr_follows (holds : Holds s bytes) : ∃ outcome, Follows s .attr bytes outcome := by
  refine ⟨tmpfsAttr s, rfl, ?_, by simp [tmpfsAttr], holds⟩
  simp [tmpfsAttr, refAnswer, holds.file, holds_length holds]

-- The one call that may leave the reference is a write that makes the file grow.
theorem follows_iff (holds : Holds s bytes) {op : Op} (possible : Possible s op) : (∃ outcome, Follows s op bytes outcome) ↔ Meets s op := by
  cases op with
  | read offset size => exact iff_of_true (read_follows holds offset size) trivial
  | truncate length block => exact iff_of_true (truncate_follows holds possible) trivial
  | attr => exact iff_of_true (attr_follows holds) trivial
  | elsewhere memory => exact iff_of_true (elsewhere_follows holds memory) trivial
  | write offset data block =>
      obtain ⟨fits, fresh⟩ := possible
      by_cases small : offset + data.length ≤ s.file.size
      · exact iff_of_true (write_inside holds fits small) (.inl small)
      · have grows : s.file.size < offset + data.length := by omega
        by_cases empty : s.file.size = 0
        · rw [write_first holds fits grows (fresh grows) empty, Meets]
          exact ⟨fun zero => .inr ⟨empty, zero⟩, fun meets => (meets.resolve_left small).2⟩
        · refine iff_of_false (write_grows holds fits grows (fresh grows) empty) ?_
          rintro (inside | ⟨none, _⟩)
          · exact small inside
          · exact empty none

end Calls

-- The file and the reference, taking the same calls.
def step (op : Op) (pair : State × List UInt8) : Option (State × List UInt8) :=
  if Possible pair.1 op then
    match call pair.1 op with
    | .ok outcome => some (outcome.state, refState pair.2 op)
    | .error _ => some pair
  else none

-- A file as tmpfs_mkfile makes it, in any memory.
def Starts (pair : State × List UInt8) : Prop := pair.1.type = .file ∧ pair.1.file = ⟨0, 0⟩ ∧ pair.2 = []

theorem starts_holds {pair : State × List UInt8} (starts : Starts pair) : Holds pair.1 pair.2 := by
  obtain ⟨file, empty, none⟩ := starts
  refine ⟨file, ?_, ?_⟩
  · rw [empty, none]
    rfl
  · rw [empty]

theorem step_holds {op : Op} {pair pair' : State × List UInt8} (holds : Holds pair.1 pair.2) (meets : Meets pair.1 op)
    (taken : step op pair = some pair') : Holds pair'.1 pair'.2 := by
  unfold step at taken
  split at taken
  · rename_i possible
    obtain ⟨outcome, follows⟩ := (follows_iff holds possible).mpr meets
    rw [follows.returns, Option.some.injEq] at taken
    rw [← taken]
    exact follows.holds
  · cases taken

-- In every run whose growing writes find an empty file and a zeroed hole, the file is the reference's array of
-- bytes, and a further call follows the reference exactly when it meets the same condition.
theorem tmpfs_file_follows (s : State) (bytes : List UInt8)
    (reach : ReachableUnder Starts step (fun op pair => Meets pair.1 op) (s, bytes)) :
    Holds s bytes ∧ ∀ op, Possible s op → ((∃ outcome, Follows s op bytes outcome) ↔ Meets s op) := by
  have holds : Holds s bytes := reachable_under_invariant
    (fun _ starts => starts_holds starts) (fun _ _ _ holds meets taken => step_holds holds meets taken) reach
  exact ⟨holds, fun op possible => follows_iff holds possible⟩

-- A new file in memory that is full of ones.
def newFile : State := ⟨.file, ⟨0, 0⟩, fun _ => 0xFF⟩

def oneByte : State := ⟨.file, ⟨0x1000, 1⟩, storeBytes 0x1000 [65] fun _ => 0xFF⟩

theorem tmpfs_file_follows_one : Holds oneByte [65] :=
  (tmpfs_file_follows oneByte [65] (.step (newFile, []) (oneByte, [65]) (.write 0 [65] 0x1000) (.start _ ⟨rfl, rfl, rfl⟩)
    (.inr ⟨rfl, by simp⟩) rfl)).1

-- The file after a byte was written at offset 2, with two stale bytes below it.
def staleFile : State := ⟨.file, ⟨0x10, 3⟩, storeBytes 0x12 [65] fun _ => 0xFF⟩

theorem tmpfs_hole_is_stale :
    Starts (newFile, []) ∧ step (.write 2 [65] 0x10) (newFile, []) = some (staleFile, [0, 0, 65]) ∧
    call staleFile (.read 0 3) = .ok ⟨staleFile, .read [0xFF, 0xFF, 65] 3, [⟨0x10, 3⟩]⟩ ∧
    refAnswer [0, 0, 65] (.read 0 3) = .read [0, 0, 65] 3 :=
  ⟨⟨rfl, rfl, rfl⟩, rfl, rfl, rfl⟩

end Elysium.Tmpfs
