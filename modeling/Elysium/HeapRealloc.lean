import Mathlib.Data.List.Pairwise
import Elysium.HeapRuns
import Elysium.TmpfsFile

set_option autoImplicit false

namespace Elysium.Heap

open Transitions (Reachable reachable_invariant)
open Tmpfs (Memory memCopy)
open Pmm (pagecountToOrder)

-- What heap_realloc does, in order: to the heap, and to memory byte by byte.
inductive Event where
  | allocate (size : Nat)
  | read (address : Nat)
  | write (address : Nat)
  | free (address size : Nat)
deriving DecidableEq

def Event.frees : Event → Bool
  | .free _ _ => true
  | _ => false

structure Outcome where
  address : Nat
  memory : Memory
  events : List Event

def copyEvents (dest src : Nat) : Nat → List Event
  | 0 => []
  | count + 1 => copyEvents dest src count ++ [.read (src + count), .write (dest + count)]

-- The old block is copied to the new one and freed.
def moveBlock (address currentSize newAddress newSize count : Nat) (m : Memory) : Outcome :=
  { address := newAddress
    memory := memCopy newAddress address count m
    events := .allocate newSize :: copyEvents newAddress address count ++ [.free address currentSize] }

-- The block that heap_alloc hands out is given, for no bytes it is the null pointer.
def heapRealloc (address currentSize newSize block : Nat) (m : Memory) : Outcome :=
  if currentSize = newSize then ⟨address, m, []⟩
  else if address = 0 ∧ newSize = 0 then ⟨address, m, []⟩
  else
    let newAddress := Tmpfs.heapAlloc newSize block
    if address = 0 ∨ currentSize = 0 then ⟨newAddress, m, [.allocate newSize]⟩
    else moveBlock address currentSize newAddress newSize (if currentSize > newSize then currentSize else newSize) m

def mul64 (a b : Nat) : Nat := a * b % 2 ^ 64

def heapReallocarray (array elementSize currentCount newCount block : Nat) (m : Memory) : Outcome :=
  heapRealloc array (mul64 currentCount elementSize) (mul64 newCount elementSize) block m

-- What a reallocation promises: the contents move to the new block, nothing else is
-- touched, and the old block is freed unless it stays.
structure Preserves (old : Block) (newSize block : Nat) (m : Memory) (outcome : Outcome) : Prop where
  returned : outcome.address = if old.size = newSize then old.address else Tmpfs.heapAlloc newSize block
  contents : ∀ i, i < min old.size newSize → outcome.memory (outcome.address + i) = m (old.address + i)
  writes : ∀ a, .write a ∈ outcome.events → outcome.address ≤ a ∧ a < outcome.address + newSize
  outside : ∀ a, ¬ (outcome.address ≤ a ∧ a < outcome.address + newSize) → outcome.memory a = m a
  reads : ∀ a, .read a ∈ outcome.events → old.address ≤ a ∧ a < old.address + old.size
  frees : outcome.events.filter Event.frees = if old.size = newSize then [] else [.free old.address old.size]

section Copies

variable {dest src count : Nat}

theorem copy_reads {a : Nat} : .read a ∈ copyEvents dest src count ↔ src ≤ a ∧ a < src + count := by
  induction count with
  | zero => simp [copyEvents]
  | succ count ih =>
      simp only [copyEvents, List.mem_append, ih, List.mem_cons, Event.read.injEq, reduceCtorEq, List.not_mem_nil, or_false]
      omega

theorem copy_writes {a : Nat} : .write a ∈ copyEvents dest src count ↔ dest ≤ a ∧ a < dest + count := by
  induction count with
  | zero => simp [copyEvents]
  | succ count ih =>
      simp only [copyEvents, List.mem_append, ih, List.mem_cons, Event.write.injEq, reduceCtorEq, List.not_mem_nil, or_false, false_or]
      omega

theorem copy_frees : (copyEvents dest src count).filter Event.frees = [] := by
  induction count with
  | zero => rfl
  | succ count ih => simp [copyEvents, ih, Event.frees]

end Copies

section Moves

variable {old : Block} {newSize block count : Nat} {m : Memory} {newAddress : Nat}

theorem move_reads {a : Nat} :
    .read a ∈ (moveBlock old.address old.size newAddress newSize count m).events ↔ old.address ≤ a ∧ a < old.address + count := by
  simp [moveBlock, copy_reads]

theorem move_writes {a : Nat} :
    .write a ∈ (moveBlock old.address old.size newAddress newSize count m).events ↔ newAddress ≤ a ∧ a < newAddress + count := by
  simp [moveBlock, copy_writes]

theorem move_frees : (moveBlock old.address old.size newAddress newSize count m).events.filter Event.frees = [.free old.address old.size] := by
  simp [moveBlock, copy_frees, Event.frees]

-- A copy that stays in both blocks has at most the smaller size.
theorem move_within (kept : Preserves old newSize block m (moveBlock old.address old.size newAddress newSize count m)) :
    count ≤ min old.size newSize := by
  by_contra long
  have positive : 0 < count := by omega
  have last := kept.reads (old.address + (count - 1)) (move_reads.mpr ⟨by omega, by omega⟩)
  have last' := kept.writes (newAddress + (count - 1)) (move_writes.mpr ⟨by omega, by omega⟩)
  simp only [moveBlock] at last'
  omega

-- With the smaller size it is as promised, between blocks that are apart.
theorem move_min_preserves (differ : old.size ≠ newSize) (new : newAddress = Tmpfs.heapAlloc newSize block)
    (apart : 0 < newSize → Apart old.address old.size newAddress newSize) :
    Preserves old newSize block m (moveBlock old.address old.size newAddress newSize (min old.size newSize) m) := by
  refine ⟨?_, fun i small => ?_, fun a write => ?_, fun a beyond => ?_, fun a read => ?_, ?_⟩
  · rw [if_neg differ]
    exact new
  · have apart := apart (by omega)
    refine Tmpfs.mem_copy_inside ?_ small
    rcases apart with before | after
    · exact .inr (by omega)
    · exact .inl (by omega)
  · have inside := move_writes.mp write
    exact ⟨inside.1, by simp only [moveBlock]; omega⟩
  · simp only [moveBlock] at beyond
    exact Tmpfs.mem_copy_outside _ (by omega)
  · have inside := move_reads.mp read
    exact ⟨inside.1, by omega⟩
  · rw [if_neg differ]
    exact move_frees

end Moves

section Machine

variable {n : Nat} {T : Type} [DecidableEq T] {hhdm : Nat} {s : State n T} {old : Block}

theorem live_positive (inv : Inv hhdm s) (member : old ∈ s.live) : 0 < old.size := by
  have known := inv.live old member
  cases origin : old.origin with
  | cache id =>
      rw [origin] at known
      exact known.1.1
  | pages order =>
      rw [origin] at known
      exact Nat.zero_lt_of_lt known.1.1

-- The null pointer is no block.
theorem live_address (offset : 0 < hhdm) (inv : Inv hhdm s) (member : old ∈ s.live) : old.address ≠ 0 := by
  obtain ⟨id, slab, i, _, _, _, address, _⟩ | ⟨order, p, _, _, address, _⟩ := live_cases inv member
  · have header : 0 < Slab.slabHeader := by decide
    rw [address, Slab.Config.object]
    omega
  · omega

theorem realloc_same {newSize block : Nat} {m : Memory} (same : newSize = old.size) :
    Preserves old newSize block m (heapRealloc old.address old.size newSize block m) := by
  rw [heapRealloc, if_pos same.symm]
  refine ⟨(if_pos same.symm).symm, fun _ _ => rfl, ?_, fun _ _ => rfl, ?_, (if_pos same.symm).symm⟩
  · simp
  · simp

theorem realloc_iff (offset : 0 < hhdm) (inv : Inv hhdm s) (member : old ∈ s.live) (newSize block : Nat) (m : Memory) :
    Preserves old newSize block m (heapRealloc old.address old.size newSize block m) ↔ newSize = old.size := by
  constructor
  · intro kept
    by_contra differ
    have real := live_address offset inv member
    have positive := live_positive inv member
    rw [heapRealloc, if_neg (Ne.symm differ), if_neg fun both => real both.1, if_neg (by omega)] at kept
    have within := move_within kept
    split at within <;> omega
  · exact realloc_same

-- What heap_realloc would do right, with blocks that the heap has handed out.
theorem realloc_min_preserves {new : Block} (inv : Inv hhdm s) (member : old ∈ s.live) (member' : new ∈ s.live)
    (differ : old.size ≠ new.size) (m : Memory) :
    Preserves old new.size new.address m (moveBlock old.address old.size new.address new.size (min old.size new.size) m) := by
  have positive := live_positive inv member'
  have other : old ≠ new := fun same => differ (congrArg Block.size same)
  have symm : Std.Symm fun b b' : Block => b.origin = b'.origin → b.address ≠ b'.address := ⟨fun _ _ ne same => (ne same.symm).symm⟩
  have apart : old.origin = new.origin → old.address ≠ new.address := inv.once.forall member member' other
  exact move_min_preserves differ (by rw [Tmpfs.heapAlloc, if_neg (Nat.ne_of_gt positive)]) fun _ => live_apart inv member member' apart

end Machine

-- What a tmpfs file is grown with.
theorem tmpfs_realloc (address currentSize newSize block : Nat) (m : Memory) :
    (Tmpfs.heapRealloc address currentSize newSize block m).1 = (heapRealloc address currentSize newSize block m).address ∧
      (Tmpfs.heapRealloc address currentSize newSize block m).2.1 = (heapRealloc address currentSize newSize block m).memory := by
  rw [Tmpfs.heapRealloc, heapRealloc]
  split
  · exact ⟨rfl, rfl⟩
  · split
    · exact ⟨rfl, rfl⟩
    · split
      · exact ⟨rfl, rfl⟩
      · exact ⟨rfl, rfl⟩

-- The heap has handed out the old block, and whatever block it hands out for the new size: the
-- contents are moved as promised if and only if there is nothing to move, with sizes or with products
-- that do not overflow.
theorem heap_realloc_exact {n : Nat} {T : Type} [DecidableEq T] (hhdm : Nat) (offset : 0 < hhdm) (s : State n T)
    (reach : Reachable (initial hhdm) (step hhdm) s) (old : Block) (member : old ∈ s.live) (block : Nat) (m : Memory) :
    (∀ newSize, Preserves old newSize block m (heapRealloc old.address old.size newSize block m) ↔ newSize = old.size) ∧
    ∀ elementSize currentCount newCount, currentCount * elementSize = old.size → currentCount * elementSize < 2 ^ 64 →
      newCount * elementSize < 2 ^ 64 →
      (Preserves old (newCount * elementSize) block m (heapReallocarray old.address elementSize currentCount newCount block m) ↔
        newCount = currentCount) := by
  have inv : Inv hhdm s := reachable_invariant (fun _ start => initial_inv start) (fun _ _ _ inv taken => step_inv inv taken) reach
  have sizes := fun newSize => realloc_iff offset inv member newSize block m
  refine ⟨sizes, fun elementSize currentCount newCount current fits fits' => ?_⟩
  have positive : 0 < elementSize := by
    have := live_positive inv member
    exact Nat.pos_of_ne_zero fun none => by simp [none] at current; omega
  rw [heapReallocarray, mul64, mul64, Nat.mod_eq_of_lt fits, Nat.mod_eq_of_lt fits', current, sizes, ← current]
  exact Nat.mul_left_inj (Nat.ne_of_gt positive)

-- A block of two pages.
theorem home_block : ∃ s : State 1 Unit, Reachable (initial homeOffset) (step homeOffset) s ∧
    ⟨0x40000000 + homeOffset, 5000, .pages 1⟩ ∈ s.live := by
  obtain ⟨s, start, outside, slabs⟩ := home_initial
  have free : Promised homeOffset s 1 0x40000000 := home_promised slabs outside (by rw [start.pages]; exact nofun) (by decide) (by decide)
  have order : pagecountToOrder (divCeil 5000 pageGranularity) = 1 := by decide
  have taken : step homeOffset ((), .alloc 0 5000 0x40000000) s =
      some { s with pages := (0x40000000, 1) :: s.pages, live := ⟨0x40000000 + homeOffset, 5000, .pages 1⟩ :: s.live } := by
    rw [step]
    dsimp only
    rw [if_pos ⟨start.pcs (), by decide⟩, heapAlloc, if_neg (by decide), if_pos (by decide), order]
    dsimp only
    rw [if_pos ⟨by decide, free⟩]
  exact ⟨_, .step _ _ _ (.start s start) taken, List.mem_cons_self⟩

-- It grows to three pages, and the copy runs past its end.
theorem heap_realloc_past : ∃ (s : State 1 Unit) (old : Block), Reachable (initial homeOffset) (step homeOffset) s ∧ old ∈ s.live ∧
    ¬ Preserves old 12288 (0x40004000 + homeOffset) (fun _ => 0)
      (heapRealloc old.address old.size 12288 (0x40004000 + homeOffset) fun _ => 0) := by
  obtain ⟨s, reach, member⟩ := home_block
  refine ⟨s, _, reach, member, fun kept => ?_⟩
  exact absurd (move_within kept) (by decide)

-- It stays as it is, alone and as an array of 625 words.
theorem heap_realloc_exact_pages : ∃ old : Block, old.size = 5000 ∧
    Preserves old 5000 0 (fun _ => 0) (heapRealloc old.address old.size 5000 0 fun _ => 0) ∧
    Preserves old (625 * 8) 0 (fun _ => 0) (heapReallocarray old.address 8 625 625 0 fun _ => 0) ∧
    ¬ Preserves old (626 * 8) 0 (fun _ => 0) (heapReallocarray old.address 8 625 626 0 fun _ => 0) := by
  obtain ⟨s, reach, member⟩ := home_block
  obtain ⟨sizes, arrays⟩ := heap_realloc_exact homeOffset (by decide) s reach _ member 0 fun _ => 0
  refine ⟨_, rfl, (sizes 5000).mpr rfl, (arrays 8 625 625 (by decide) (by decide) (by decide)).mpr rfl, fun kept => ?_⟩
  exact absurd ((arrays 8 625 626 (by decide) (by decide) (by decide)).mp kept) (by decide)

end Elysium.Heap
