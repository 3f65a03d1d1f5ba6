import Elysium.X86Strings

set_option autoImplicit false

namespace Elysium.MemMove

open CopyOrder
open LittleEndian (Memory load)
open StateTransition (Reaches eval mem_eval)
open X86 (Word Reg)
open X86.Strings

-- What a call can change. C code does not touch the direction flag.
structure State where
  memory : Memory
  direction : Bool

def place (address : Word) (i : Nat) : Word := address + BitVec.ofNat 64 i

def copyByte (dest src : Word) (i : Nat) (m : Memory) : Memory := Function.update m (place dest i) (m (place src i))

-- The loops of mem.c: i goes up from 0, and down to 1 with the byte at i - 1.
def copyUp (dest src : Word) : Nat → Memory → Memory
  | 0, m => m
  | i + 1, m => copyByte dest src i (copyUp dest src i m)

def copyDown (dest src : Word) : Nat → Memory → Memory
  | 0, m => m
  | i + 1, m => copyDown dest src i (copyByte dest src i m)

def memMove (dest src count : Word) (s : State) : State :=
  if src = dest then s
  else if src > dest then { s with memory := copyUp dest src count.toNat s.memory }
  else { s with memory := copyDown dest src count.toNat s.memory }

-- The lines of mem_move in mem.asm.
def move : Nat := 6

def code : List Instr := [
  .mov .rcx .rdx,
  .cmp .rdi .rsi,
  .jb move,
  .lea .rdi .rdi .rcx (-1),
  .lea .rsi .rsi .rcx (-1),
  .std,
  -- .move:
  .repMovsb,
  .cld,
  .ret]

-- A call as the calling convention has it, with the direction flag clear.
structure Called (dest src count : Word) (m : Machine) : Prop where
  control : m.control = .line 0
  direction : m.direction = false
  dest : m.reg .rdi = dest
  src : m.reg .rsi = src
  count : m.reg .rdx = count

def stateOf (m : Machine) : State := ⟨m.memory, m.direction⟩

-- Every byte of the destination is the byte the source had, and the rest is as it was.
structure Moves (dest src : Word) (count : Nat) (s s' : State) : Prop where
  moved : Copied (place dest) (place src) (· < count) s.memory s'.memory
  clear : s'.direction = false

section Portable

variable {dest src : Word} {count : Nat}

theorem place_of_fits {address : Word} (fits : address.toNat + count ≤ 2 ^ 64) {i : Nat} (less : i < count) :
    (place address i).toNat = address.toNat + i := by
  rw [place, BitVec.toNat_add, BitVec.toNat_ofNat, Nat.mod_eq_of_lt (by omega), Nat.mod_eq_of_lt (by omega)]

theorem place_up {address : Word} (fits : address.toNat + count ≤ 2 ^ 64) {order : List Nat} (within : ∀ i ∈ order, i < count) :
    StrictMonoOn (BitVec.toNat ∘ place address) {i | i ∈ order} := by
  intro i first j second less
  show (place address i).toNat < (place address j).toNat
  rw [place_of_fits fits (within i first), place_of_fits fits (within j second)]
  exact Nat.add_lt_add_left less _

theorem copy_up_eq (dest src : Word) (count : Nat) (m : Memory) :
    copyUp dest src count m = copies (place dest) (place src) (List.range count) m := by
  induction count with
  | zero => rfl
  | succ count ih =>
      rw [copyUp, ih, copies, copies, List.range_succ, List.foldl_append]
      rfl

theorem copy_down_eq (dest src : Word) (count : Nat) (m : Memory) :
    copyDown dest src count m = copies (place dest) (place src) (List.range count).reverse m := by
  induction count generalizing m with
  | zero => rfl
  | succ count ih =>
      rw [copyDown, ih, copies, copies, List.range_succ, List.reverse_append]
      rfl

theorem copy_up_copied (destFits : dest.toNat + count ≤ 2 ^ 64) (srcFits : src.toNat + count ≤ 2 ^ 64) (below : dest.toNat ≤ src.toNat)
    (m : Memory) : Copied (place dest) (place src) (· < count) m (copyUp dest src count m) := by
  have within : ∀ i ∈ List.range count, i < count := fun i member => List.mem_range.mp member
  have safe : Safe (place dest) (place src) (List.range count) := by
    refine safe_up BitVec.toNat List.pairwise_lt_range (place_up destFits within) (place_up srcFits within) fun i member => ?_
    rw [place_of_fits destFits (within i member), place_of_fits srcFits (within i member)]
    exact Nat.add_le_add_right below i
  rw [copy_up_eq]
  simpa only [List.mem_range] using copied_of_safe safe m

theorem copy_down_copied (destFits : dest.toNat + count ≤ 2 ^ 64) (srcFits : src.toNat + count ≤ 2 ^ 64) (above : src.toNat ≤ dest.toNat)
    (m : Memory) : Copied (place dest) (place src) (· < count) m (copyDown dest src count m) := by
  have within : ∀ i ∈ (List.range count).reverse, i < count := fun i member => List.mem_range.mp (List.mem_reverse.mp member)
  have safe : Safe (place dest) (place src) (List.range count).reverse := by
    refine safe_down BitVec.toNat (List.pairwise_lt_range.reverse) (place_up destFits within) (place_up srcFits within) fun i member => ?_
    rw [place_of_fits destFits (within i member), place_of_fits srcFits (within i member)]
    exact Nat.add_le_add_right above i
  rw [copy_down_eq]
  simpa only [List.mem_range, List.mem_reverse] using copied_of_safe safe m

-- Nothing to do is as good as a copy where the ranges are the same.
theorem copied_same (address : Word) (count : Nat) (m : Memory) : Copied (place address) (place address) (· < count) m m :=
  ⟨fun _ _ => rfl, fun _ _ => rfl⟩

theorem mem_move_moves (dest src count : Word) (destFits : dest.toNat + count.toNat ≤ 2 ^ 64) (srcFits : src.toNat + count.toNat ≤ 2 ^ 64)
    (s : State) (clear : s.direction = false) : Moves dest src count.toNat s (memMove dest src count s) := by
  by_cases same : src = dest
  · rw [memMove, if_pos same, same]
    exact ⟨copied_same dest count.toNat s.memory, clear⟩
  · by_cases more : src > dest
    · rw [memMove, if_neg same, if_pos more]
      exact ⟨copy_up_copied destFits srcFits (Nat.le_of_lt more) s.memory, clear⟩
    · rw [memMove, if_neg same, if_neg more]
      exact ⟨copy_down_copied destFits srcFits (Nat.le_of_not_lt more) s.memory, clear⟩

end Portable

section Assembly

-- What the code at .move goes by: where the first byte is written and read, how many
-- there are, and which way they go.
structure Ready (dest src count : Word) (direction : Bool) (memory : Memory) (m : Machine) : Prop where
  control : m.control = .line move
  dest : m.reg .rdi = dest
  src : m.reg .rsi = src
  count : m.reg .rcx = count
  direction : m.direction = direction
  memory : m.memory = memory

-- A run that ends, having returned.
structure Ends (memory : Memory) (m m' : Machine) : Prop where
  ends : m' ∈ eval (step code) m
  returned : ∃ target, m'.control = .returned target
  clear : m'.direction = false
  memory : m'.memory = memory

variable {dest src count : Word} {direction : Bool} {memory : Memory} {m : Machine}

theorem ready_ends (ready : Ready dest src count direction memory m) :
    ∃ m', Ends (copies (fun i => dest + m.stride * BitVec.ofNat 64 i) (fun i => src + m.stride * BitVec.ofNat 64 i)
      (List.range count.toNat) memory) m m' := by
  let moved : Machine := (moveByte^[count.toNat] m).goto 7
  have repeated : Reaches (step code) m moved := rep_movsb_reaches count.toNat m ready.control rfl (congrArg BitVec.toNat ready.count)
  have leaves : Reaches (step code) moved (exec 8 (exec 7 moved .cld) .ret) := reaches_line _ rfl rfl (reaches_line _ rfl rfl .refl)
  refine ⟨_, mem_eval.mpr ⟨repeated.trans leaves, step_returned _ rfl⟩, ⟨_, rfl⟩, rfl, ?_⟩
  have final := moved_memory m count.toNat
  rw [ready.dest, ready.src, ready.memory] at final
  exact final

-- The machine once it has compared the addresses.
def compared (m : Machine) : Machine := exec 1 (exec 0 m (.mov .rcx .rdx)) (.cmp .rdi .rsi)

theorem called_compared (called : Called dest src count m) {m' : Machine} (rest : Reaches (step code) (exec 2 (compared m) (.jb move)) m') :
    Reaches (step code) m m' :=
  reaches_line m called.control rfl (reaches_line _ rfl rfl (reaches_line _ rfl rfl rest))

theorem called_up (called : Called dest src count m) (below : dest < src) :
    ∃ m', Reaches (step code) m m' ∧ Ready dest src count false m.memory m' := by
  refine ⟨(compared m).goto move, called_compared called ?_, ?_⟩
  · have carry : (compared m).carry = true := decide_eq_true (called.dest.symm ▸ called.src.symm ▸ below)
    rw [jb_taken 2 move carry]
    exact .refl
  · exact ⟨rfl, called.dest, called.src, called.count, called.direction, rfl⟩

theorem called_down (called : Called dest src count m) (above : ¬ dest < src) :
    ∃ m', Reaches (step code) m m' ∧ Ready (dest + count + -1) (src + count + -1) count true m.memory m' := by
  let m₃ : Machine := (compared m).goto 3
  refine ⟨exec 5 (exec 4 (exec 3 m₃ (.lea .rdi .rdi .rcx (-1))) (.lea .rsi .rsi .rcx (-1))) .std, called_compared called ?_, ?_⟩
  · have carry : (compared m).carry = false := decide_eq_false (called.dest.symm ▸ called.src.symm ▸ above)
    rw [jb_passed 2 move carry]
    exact reaches_line _ rfl rfl (reaches_line _ rfl rfl (reaches_line _ rfl rfl .refl))
  · obtain ⟨_, _, rfl, rfl, rfl⟩ := called
    exact ⟨rfl, rfl, rfl, rfl, rfl, rfl⟩

theorem ends_of_reaches {m₁ m' : Machine} (reaches : Reaches (step code) m m₁) (ends : Ends memory m₁ m') : Ends memory m m' := by
  refine ⟨?_, ends.returned, ends.clear, ends.memory⟩
  rw [StateTransition.reaches_eval reaches]
  exact ends.ends

theorem place_up_by (address : Word) (i : Nat) : address + 1 * BitVec.ofNat 64 i = place address i := by
  rw [one_mul, place]

theorem place_down_by (address count : Word) {i : Nat} (less : i < count.toNat) :
    address + count + -1 + -1 * BitVec.ofNat 64 i = place address (0 + count.toNat - 1 - i) := by
  rw [neg_one_mul, place]
  bv_omega

theorem assembly_up (called : Called dest src count m) (below : dest < src) : ∃ m', Ends (copyUp dest src count.toNat m.memory) m m' := by
  obtain ⟨m₁, reaches, ready⟩ := called_up called below
  obtain ⟨m', ends⟩ := ready_ends ready
  have stride : m₁.stride = 1 := by rw [Machine.stride, ready.direction]; rfl
  have upward : copies (fun i => dest + m₁.stride * BitVec.ofNat 64 i) (fun i => src + m₁.stride * BitVec.ofNat 64 i)
      (List.range count.toNat) m.memory = copyUp dest src count.toNat m.memory := by
    rw [stride, copy_up_eq]
    exact copies_congr _ _ (fun i _ => place_up_by dest i) (fun i _ => place_up_by src i)
  rw [upward] at ends
  exact ⟨m', ends_of_reaches reaches ends⟩

theorem assembly_down (called : Called dest src count m) (above : ¬ dest < src) : ∃ m', Ends (copyDown dest src count.toNat m.memory) m m' := by
  obtain ⟨m₁, reaches, ready⟩ := called_down called above
  obtain ⟨m', ends⟩ := ready_ends ready
  have stride : m₁.stride = -1 := by rw [Machine.stride, ready.direction]; rfl
  have downward : copies (fun i => dest + count + -1 + m₁.stride * BitVec.ofNat 64 i)
      (fun i => src + count + -1 + m₁.stride * BitVec.ofNat 64 i) (List.range count.toNat) m.memory =
      copyDown dest src count.toNat m.memory := by
    rw [stride, copy_down_eq, List.range_eq_range', List.reverse_range', copies_map, ← List.range_eq_range']
    refine copies_congr _ _ (fun i member => ?_) (fun i member => ?_)
    · exact place_down_by dest count (List.mem_range.mp member)
    · exact place_down_by src count (List.mem_range.mp member)
  rw [downward] at ends
  exact ⟨m', ends_of_reaches reaches ends⟩

theorem assembly_moves (destFits : dest.toNat + count.toNat ≤ 2 ^ 64) (srcFits : src.toNat + count.toNat ≤ 2 ^ 64)
    (called : Called dest src count m) :
    ∃ memory' m', Ends memory' m m' ∧ Copied (place dest) (place src) (· < count.toNat) m.memory memory' := by
  by_cases below : dest < src
  · obtain ⟨m', ends⟩ := assembly_up called below
    exact ⟨_, m', ends, copy_up_copied destFits srcFits (Nat.le_of_lt below) m.memory⟩
  · obtain ⟨m', ends⟩ := assembly_down called below
    exact ⟨_, m', ends, copy_down_copied destFits srcFits (Nat.le_of_not_lt below) m.memory⟩

end Assembly

theorem mem_move_both (dest src count : Word) (destFits : dest.toNat + count.toNat ≤ 2 ^ 64) (srcFits : src.toNat + count.toNat ≤ 2 ^ 64)
    (m : Machine) (called : Called dest src count m) :
    ∃ m', m' ∈ eval (step code) m ∧ (∃ target, m'.control = .returned target) ∧
      Moves dest src count.toNat (stateOf m) (stateOf m') ∧ Moves dest src count.toNat (stateOf m) (memMove dest src count (stateOf m)) ∧
      stateOf m' = memMove dest src count (stateOf m) := by
  have portable := mem_move_moves dest src count destFits srcFits (stateOf m) called.direction
  obtain ⟨memory', m', ends, copied⟩ := assembly_moves destFits srcFits called
  rw [← ends.memory] at copied
  refine ⟨m', ends.ends, ends.returned, ⟨copied, ends.clear⟩, portable, ?_⟩
  have sameMemory : m'.memory = (memMove dest src count (stateOf m)).memory := copied_unique copied portable.moved
  have sameFlag : m'.direction = (memMove dest src count (stateOf m)).direction := ends.clear.trans portable.clear.symm
  rw [stateOf, sameMemory, sameFlag]

-- Three bytes move up by two places, and the ranges share one of them.
def overlapping : Machine where
  reg r := if r = .rdi then 2 else if r = .rdx then 3 else 0
  memory a := a.setWidth 8
  carry := false
  direction := false
  control := .line 0

theorem mem_move_both_overlapping :
    ∃ m', m' ∈ eval (step code) overlapping ∧ (∃ target, m'.control = .returned target) ∧
      Moves 2 0 3 (stateOf overlapping) (stateOf m') ∧ Moves 2 0 3 (stateOf overlapping) (memMove 2 0 3 (stateOf overlapping)) ∧
      stateOf m' = memMove 2 0 3 (stateOf overlapping) :=
  mem_move_both 2 0 3 (by decide) (by decide) overlapping ⟨rfl, rfl, rfl, rfl, rfl⟩

end Elysium.MemMove
