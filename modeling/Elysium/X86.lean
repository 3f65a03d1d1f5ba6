import Elysium.LittleEndian
import Mathlib.Data.List.Nodup
import Mathlib.Logic.Function.Basic

set_option autoImplicit false

namespace X86

open Elysium.LittleEndian (Memory load store load_congr load_store store_outside)

-- A part of the x86-64 instruction set, and code as a list of instructions whose jumps
-- name a line of it.
abbrev Word : Type := BitVec 64

inductive Reg where
  | rax | rbx | rcx | rdx | rsi | rdi | rbp | rsp | r8 | r9 | r10 | r11 | r12 | r13 | r14 | r15
deriving DecidableEq

inductive Segment where
  | ds | es

-- [gs: base + index * 8 + disp]
structure Operand where
  gs : Bool
  base : Option Reg
  index : Option Reg
  disp : Word

structure Flags where
  zero : Bool
  sign : Bool
  overflow : Bool

-- Which line comes next; or a function was called, to come back to a line; or the code
-- was left for user mode.
inductive Control where
  | line (n : Nat)
  | callee (target : Word) (back : Nat)
  | user

-- called has the targets of the calls that were made.
structure Machine where
  reg : Reg → Word
  segment : Segment → BitVec 16
  memory : Memory
  gsBase : Word
  kernelGsBase : Word
  flags : Flags
  interrupts : Bool
  control : Control
  called : List Word

inductive Instr where
  | swapgs
  | load (dst : Reg) (src : Operand)
  | store (dst : Operand) (src : Reg)
  | mov (dst src : Reg)
  | movSegment (dst : Reg) (src : Segment)
  | xor (dst src : Reg)
  | push (src : Reg)
  | pop (dst : Reg)
  | cmp (left : Reg) (right : Operand)
  | cmpImm (left : Reg) (right : Word)
  | jge (target : Nat)
  | je (target : Nat)
  | sti
  | cli
  | call (target : Reg)
  | sysret

-- The words that can be read without an exception, where the lines of the code are, and
-- what a function makes of the machine until it returns, if it does.
structure Env where
  readable : Word → Bool
  place : Nat → Word
  callee : Word → Machine → Option Machine

namespace Machine

def set (m : Machine) (dst : Reg) (value : Word) : Machine := { m with reg := Function.update m.reg dst value }

def goto (m : Machine) (line : Nat) : Machine := { m with control := .line line }

def address (m : Machine) (o : Operand) : Word :=
  (if o.gs then m.gsBase else 0) + o.base.elim 0 m.reg + o.index.elim 0 m.reg * 8 + o.disp

def word (m : Machine) (a : Word) : Word := load m.memory a 8

end Machine

def subFlags (a b : Word) : Flags := ⟨a == b, (a - b).msb, a.msb != b.msb && (a - b).msb != a.msb⟩

-- An exception is none.
def exec (env : Env) (line : Nat) (m : Machine) : Instr → Option Machine
  | .swapgs => some ({ m with gsBase := m.kernelGsBase, kernelGsBase := m.gsBase }.goto (line + 1))
  | .load dst src => if env.readable (m.address src) then some ((m.set dst (m.word (m.address src))).goto (line + 1)) else none
  | .store dst src => some ({ m with memory := store (m.address dst) (m.reg src) 8 m.memory }.goto (line + 1))
  | .mov dst src => some ((m.set dst (m.reg src)).goto (line + 1))
  | .movSegment dst src => some ((m.set dst ((m.segment src).setWidth 64)).goto (line + 1))
  | .xor dst src =>
      let value := m.reg dst ^^^ m.reg src
      some ({ m.set dst value with flags := ⟨value == 0, value.msb, false⟩ }.goto (line + 1))
  | .push src =>
      some ({ m.set .rsp (m.reg .rsp - 8) with memory := store (m.reg .rsp - 8) (m.reg src) 8 m.memory }.goto (line + 1))
  | .pop dst =>
      if env.readable (m.reg .rsp) then some (((m.set .rsp (m.reg .rsp + 8)).set dst (m.word (m.reg .rsp))).goto (line + 1)) else none
  | .cmp left right =>
      if env.readable (m.address right) then
        some ({ m with flags := subFlags (m.reg left) (m.word (m.address right)) }.goto (line + 1))
      else none
  | .cmpImm left right => some ({ m with flags := subFlags (m.reg left) right }.goto (line + 1))
  | .jge target => some (m.goto (if m.flags.sign = m.flags.overflow then target else line + 1))
  | .je target => some (m.goto (if m.flags.zero then target else line + 1))
  | .sti => some ({ m with interrupts := true }.goto (line + 1))
  | .cli => some ({ m with interrupts := false }.goto (line + 1))
  | .call target =>
      some { m.set .rsp (m.reg .rsp - 8) with
        memory := store (m.reg .rsp - 8) (env.place (line + 1)) 8 m.memory
        control := .callee (m.reg target) (line + 1)
        called := m.reg target :: m.called }
  | .sysret => some { m with control := .user }

def step (code : List Instr) (env : Env) (m : Machine) : Option Machine :=
  match m.control with
  | .user => none
  | .callee target back => (env.callee target m).map fun m => m.goto back
  | .line n =>
      match code[n]? with
      | none => none
      | some instr => exec env n m instr

-- A run ends, and all its states have a property.
inductive Along (code : List Instr) (env : Env) (P : Machine → Prop) : Machine → Prop where
  | last (m : Machine) (here : P m) (ends : step code env m = none) : Along code env P m
  | next (m m' : Machine) (here : P m) (steps : step code env m = some m') (rest : Along code env P m') : Along code env P m

section Runs

variable {code : List Instr} {env : Env} {P : Machine → Prop} {m m' : Machine}

theorem along_here (along : Along code env P m) : P m := by
  cases along with
  | last _ here _ => exact here
  | next _ _ here _ _ => exact here

theorem along_step (steps : step code env m = some m') (here : P m) : Along code env P m ↔ Along code env P m' := by
  constructor
  · intro along
    cases along with
    | last _ _ ends =>
        rw [steps] at ends
        cases ends
    | next _ other _ taken rest =>
        rw [steps] at taken
        exact Option.some.inj taken ▸ rest
  · exact .next m m' here steps

theorem along_end (ends : step code env m = none) : Along code env P m ↔ P m :=
  ⟨along_here, fun here => .last m here ends⟩

theorem to_int_cases (a : Word) :
    (2 ^ 63 ≤ a.toNat ∧ a.toInt = a.toNat - 2 ^ 64) ∨ (¬ 2 ^ 63 ≤ a.toNat ∧ a.toInt = a.toNat) := by
  rw [BitVec.toInt_eq_toNat_cond]
  split <;> omega

-- The jump of a signed comparison.
theorem sub_flags_ge (a b : Word) : (subFlags a b).sign = (subFlags a b).overflow ↔ b.toInt ≤ a.toInt := by
  have left := a.isLt
  have right := b.isLt
  have difference : (a - b).toNat = (2 ^ 64 - b.toNat + a.toNat) % 2 ^ 64 := BitVec.toNat_sub a b
  have sign : ∀ x : Word, x.msb = decide (2 ^ 63 ≤ x.toNat) := fun x => BitVec.msb_eq_decide x
  simp only [subFlags, sign]
  by_cases below : 2 ^ 63 ≤ (a - b).toNat <;> rcases to_int_cases a with ⟨high, first⟩ | ⟨high, first⟩ <;>
    rcases to_int_cases b with ⟨high', second⟩ | ⟨high', second⟩ <;>
    simp only [below, high, high', first, second, decide_true, decide_false] <;>
    simp <;> omega

theorem sub_flags_zero (a b : Word) : (subFlags a b).zero = true ↔ a = b := beq_iff_eq

-- Registers that are pushed one after the other, and popped again.
def pushed : List Reg → Machine → Machine
  | [], m => m
  | src :: rest, m => pushed rest { m.set .rsp (m.reg .rsp - 8) with memory := store (m.reg .rsp - 8) (m.reg src) 8 m.memory }

def popped : List Reg → Machine → Machine
  | [], m => m
  | dst :: rest, m => popped rest ((m.set .rsp (m.reg .rsp + 8)).set dst (m.word (m.reg .rsp)))

-- A property that holds of the states of a run inside the code.
def Inside (P : Machine → Prop) (called : List Word) : Prop :=
  ∀ (m : Machine) (n : Nat), m.called = called → m.control = .line n → P m

theorem placed_of {make : Reg → Instr} (regs : List Reg) (n : Nat) (same : (code.drop n).take regs.length = regs.map make) (i : Nat)
    (less : i < regs.length) : code[n + i]? = some (make regs[i]) := by
  have found : ((code.drop n).take regs.length)[i]? = some (make regs[i]) := by
    rw [same, List.getElem?_map, List.getElem?_eq_getElem less]
    rfl
  rw [List.getElem?_take_of_lt less, List.getElem?_drop] at found
  exact found

theorem along_pushes {called : List Word} (inside : Inside P called) (regs : List Reg) (n : Nat) (m : Machine)
    (here : m.called = called) (placed : ∀ i (less : i < regs.length), code[n + i]? = some (.push regs[i])) :
    Along code env P (m.goto n) ↔ Along code env P ((pushed regs m).goto (n + regs.length)) := by
  induction regs generalizing n m with
  | nil => exact Iff.rfl
  | cons src rest ih =>
      have first : code[n]? = some (.push src) := placed 0 (Nat.succ_pos _)
      have steps : step code env (m.goto n) =
          some ({ m.set .rsp (m.reg .rsp - 8) with memory := store (m.reg .rsp - 8) (m.reg src) 8 m.memory }.goto (n + 1)) := by
        simp only [step, Machine.goto, first]
        rfl
      rw [along_step steps (inside _ n here rfl), ih (n + 1) { m.set .rsp (m.reg .rsp - 8) with
        memory := store (m.reg .rsp - 8) (m.reg src) 8 m.memory } here, pushed, List.length_cons, Nat.add_right_comm, Nat.add_assoc]
      intro i less
      have later := placed (i + 1) (Nat.succ_lt_succ less)
      rw [List.getElem_cons_succ] at later
      rw [Nat.add_assoc, Nat.add_comm 1]
      exact later

theorem along_pops {called : List Word} (inside : Inside P called) (regs : List Reg) (n : Nat) (m : Machine) (apart : Reg.rsp ∉ regs)
    (here : m.called = called) (placed : ∀ i (less : i < regs.length), code[n + i]? = some (.pop regs[i]))
    (readable : ∀ i < regs.length, env.readable (m.reg .rsp + BitVec.ofNat 64 (8 * i)) = true) :
    Along code env P (m.goto n) ↔ Along code env P ((popped regs m).goto (n + regs.length)) := by
  induction regs generalizing n m with
  | nil => exact Iff.rfl
  | cons dst rest ih =>
      rw [List.mem_cons, not_or] at apart
      have first : code[n]? = some (.pop dst) := placed 0 (Nat.succ_pos _)
      have top : env.readable (m.reg .rsp) = true := by
        have first := readable 0 (Nat.succ_pos _)
        simpa using first
      have steps : step code env (m.goto n) =
          some (((m.set .rsp (m.reg .rsp + 8)).set dst (m.word (m.reg .rsp))).goto (n + 1)) := by
        simp only [step, Machine.goto, first]
        exact if_pos top
      have moved : ((m.set .rsp (m.reg .rsp + 8)).set dst (m.word (m.reg .rsp))).reg .rsp = m.reg .rsp + 8 := by
        simp only [Machine.set]
        rw [Function.update_of_ne apart.1, Function.update_self]
      rw [along_step steps (inside _ n here rfl), ih (n + 1) ((m.set .rsp (m.reg .rsp + 8)).set dst (m.word (m.reg .rsp))) apart.2 here,
        popped, List.length_cons, Nat.add_right_comm, Nat.add_assoc]
      · intro i less
        have later := placed (i + 1) (Nat.succ_lt_succ less)
        rw [List.getElem_cons_succ] at later
        rw [Nat.add_assoc, Nat.add_comm 1]
        exact later
      · intro i less
        have later := readable (i + 1) (Nat.succ_lt_succ less)
        rw [Nat.mul_add, Nat.mul_one, Nat.add_comm, BitVec.ofNat_add, ← BitVec.add_assoc] at later
        rw [moved]
        exact later

section Stack

-- A byte of the stack, so many bytes below an address.
def Below (top : Word) (size : Nat) (b : Word) : Prop := (top - 1 - b).toNat < size

def Within (a : Word) (size : Nat) (b : Word) : Prop := (b - a).toNat < size

theorem store_word (a value : Word) (memory : Memory) : load (store a value 8 memory) a 8 = value := by
  rw [load_store a value 8 memory (by decide)]
  simp

theorem word_same {memory memory' : Memory} {a : Word} (same : ∀ b, Within a 8 b → memory' b = memory b) :
    load memory' a 8 = load memory a 8 := by
  refine load_congr 8 fun i less => same _ ?_
  rw [Within, Elysium.LittleEndian.offset_back a (by omega)]
  exact less

theorem pushed_reg (regs : List Reg) (m : Machine) {r : Reg} (other : r ≠ .rsp) : (pushed regs m).reg r = m.reg r := by
  induction regs generalizing m with
  | nil => rfl
  | cons src rest ih =>
      rw [pushed, ih]
      exact Function.update_of_ne other _ _

theorem pushed_rsp (regs : List Reg) (m : Machine) : (pushed regs m).reg .rsp = m.reg .rsp - BitVec.ofNat 64 (8 * regs.length) := by
  induction regs generalizing m with
  | nil => simp [pushed]
  | cons src rest ih =>
      rw [pushed, ih, List.length_cons, Nat.mul_add, Nat.mul_one, Nat.add_comm, BitVec.ofNat_add]
      simp only [Machine.set, Function.update_self]
      bv_omega

theorem pushed_called (regs : List Reg) (m : Machine) : (pushed regs m).called = m.called := by
  induction regs generalizing m with
  | nil => rfl
  | cons src rest ih => exact ih _

theorem pushed_memory (regs : List Reg) (m : Machine) {b : Word} (outside : ¬ Below (m.reg .rsp) (8 * regs.length) b) :
    (pushed regs m).memory b = m.memory b := by
  induction regs generalizing m with
  | nil => rfl
  | cons src rest ih =>
      unfold Below at outside ih
      rw [List.length_cons] at outside
      rw [pushed, ih]
      · refine store_outside _ _ _ ?_
        bv_omega
      · simp only [Machine.set, Function.update_self]
        bv_omega

theorem pushed_word (regs : List Reg) (m : Machine) (apart : Reg.rsp ∉ regs) (few : regs.length < 2 ^ 32) (i : Nat)
    (less : i < regs.length) :
    load (pushed regs m).memory (m.reg .rsp - BitVec.ofNat 64 (8 * (i + 1))) 8 = m.reg regs[i] := by
  induction regs generalizing m i with
  | nil => exact absurd less (Nat.not_lt_zero i)
  | cons src rest ih =>
      rw [List.mem_cons, not_or] at apart
      rw [List.length_cons] at few less
      cases i with
      | zero =>
          -- The pushes that follow go below the first one.
          have kept : load (pushed (src :: rest) m).memory (m.reg .rsp - 8) 8 =
              load (store (m.reg .rsp - 8) (m.reg src) 8 m.memory) (m.reg .rsp - 8) 8 := by
            refine word_same fun b inside => pushed_memory rest _ ?_
            simp only [Machine.set, Function.update_self, Below]
            unfold Within at inside
            bv_omega
          exact kept.trans (store_word _ _ _)
      | succ i =>
          have later := ih { m.set .rsp (m.reg .rsp - 8) with memory := store (m.reg .rsp - 8) (m.reg src) 8 m.memory } apart.2
            (by omega) i (by omega)
          simp only [Machine.set, Function.update_self] at later
          rw [List.getElem_cons_succ]
          have other : rest[i] ≠ Reg.rsp := fun same => apart.2 (same ▸ List.getElem_mem _)
          rw [Function.update_of_ne other] at later
          have place : m.reg .rsp - BitVec.ofNat 64 (8 * (i + 1 + 1)) = m.reg .rsp - 8 - BitVec.ofNat 64 (8 * (i + 1)) := by
            rw [Nat.mul_add 8 (i + 1) 1, Nat.mul_one, BitVec.ofNat_add]
            bv_omega
          rw [place]
          exact later

theorem popped_memory (regs : List Reg) (m : Machine) : (popped regs m).memory = m.memory := by
  induction regs generalizing m with
  | nil => rfl
  | cons dst rest ih => exact ih _

theorem popped_called (regs : List Reg) (m : Machine) : (popped regs m).called = m.called := by
  induction regs generalizing m with
  | nil => rfl
  | cons dst rest ih => exact ih _

theorem popped_other (regs : List Reg) (m : Machine) {r : Reg} (absent : r ∉ regs) (apart : r ≠ .rsp) :
    (popped regs m).reg r = m.reg r := by
  induction regs generalizing m with
  | nil => rfl
  | cons dst rest ih =>
      rw [List.mem_cons, not_or] at absent
      rw [popped, ih _ absent.2]
      simp only [Machine.set]
      rw [Function.update_of_ne absent.1, Function.update_of_ne apart]

theorem popped_reg (regs : List Reg) (m : Machine) (once : regs.Nodup) (apart : Reg.rsp ∉ regs) (i : Nat) (less : i < regs.length) :
    (popped regs m).reg regs[i] = m.word (m.reg .rsp + BitVec.ofNat 64 (8 * i)) := by
  induction regs generalizing m i with
  | nil => exact absurd less (Nat.not_lt_zero i)
  | cons dst rest ih =>
      rw [List.mem_cons, not_or] at apart
      rw [List.nodup_cons] at once
      cases i with
      | zero =>
          rw [List.getElem_cons_zero, popped, popped_other rest _ once.1 (Ne.symm apart.1)]
          simp only [Machine.set, Function.update_self]
          simp
      | succ i =>
          rw [List.length_cons] at less
          rw [List.getElem_cons_succ, popped, ih _ once.2 apart.2 i (by omega)]
          simp only [Machine.set, Machine.word]
          rw [Function.update_of_ne apart.1, Function.update_self, Nat.mul_add, Nat.mul_one, BitVec.ofNat_add]
          congr 1
          bv_omega

end Stack

end Runs

end X86
