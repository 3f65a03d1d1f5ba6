import Elysium.CopyOrder
import Elysium.X86
import Mathlib.Computability.StateTransition
import Mathlib.Logic.Function.Iterate

set_option autoImplicit false

namespace X86.Strings

open CopyOrder (copy copies)
open Elysium.LittleEndian (Memory load)
open StateTransition (Reaches)

-- The instructions that copy bytes, with the direction flag and what code needs to set
-- them up: of the status flags only carry is read.
inductive Control where
  | line (n : Nat)
  | returned (target : Word)

structure Machine where
  reg : Reg → Word
  memory : Memory
  carry : Bool
  direction : Bool
  control : Control

inductive Instr where
  | mov (dst src : Reg)
  | cmp (left right : Reg)
  | jb (target : Nat)
  -- lea dst, [base + index + disp]
  | lea (dst base index : Reg) (disp : Word)
  | std
  | cld
  | repMovsb
  | ret

namespace Machine

def set (m : Machine) (dst : Reg) (value : Word) : Machine := { m with reg := Function.update m.reg dst value }

def goto (m : Machine) (line : Nat) : Machine := { m with control := .line line }

def stride (m : Machine) : Word := if m.direction then -1 else 1

end Machine

-- One byte goes from rsi to rdi, and is counted.
def moveByte (m : Machine) : Machine :=
  let moved := { m with memory := Function.update m.memory (m.reg .rdi) (m.memory (m.reg .rsi)) }
  ((moved.set .rsi (m.reg .rsi + m.stride)).set .rdi (m.reg .rdi + m.stride)).set .rcx (m.reg .rcx - 1)

def exec (line : Nat) (m : Machine) : Instr → Machine
  | .mov dst src => (m.set dst (m.reg src)).goto (line + 1)
  | .cmp left right => { m with carry := m.reg left < m.reg right }.goto (line + 1)
  | .jb target => m.goto (if m.carry then target else line + 1)
  | .lea dst base index disp => (m.set dst (m.reg base + m.reg index + disp)).goto (line + 1)
  | .std => { m with direction := true }.goto (line + 1)
  | .cld => { m with direction := false }.goto (line + 1)
  -- A repetition of the instruction is a step, after which it is come back to.
  | .repMovsb => if m.reg .rcx = 0 then m.goto (line + 1) else (moveByte m).goto line
  | .ret => { m.set .rsp (m.reg .rsp + 8) with control := .returned (load m.memory (m.reg .rsp) 8) }

def step (code : List Instr) (m : Machine) : Option Machine :=
  match m.control with
  | .returned _ => none
  | .line n => (code[n]?).map (exec n m)

theorem jb_taken (line target : Nat) {m : Machine} (below : m.carry = true) : exec line m (.jb target) = m.goto target := by
  rw [exec, if_pos below]

theorem jb_passed (line target : Nat) {m : Machine} (above : m.carry = false) : exec line m (.jb target) = m.goto (line + 1) := by
  rw [exec, if_neg (Bool.eq_false_iff.mp above)]

section Runs

variable {code : List Instr}

theorem step_line (m : Machine) {n : Nat} {instr : Instr} (here : m.control = .line n) (placed : code[n]? = some instr) :
    step code m = some (exec n m instr) := by
  rw [step, here]
  exact congrArg (Option.map (exec n m)) placed

theorem step_returned (m : Machine) {target : Word} (here : m.control = .returned target) : step code m = none := by
  rw [step, here]

theorem reaches_line (m : Machine) {m' : Machine} {n : Nat} {instr : Instr} (here : m.control = .line n) (placed : code[n]? = some instr)
    (rest : Reaches (step code) (exec n m instr) m') : Reaches (step code) m m' := .head (step_line m here placed) rest

theorem rep_movsb_reaches (count : Nat) (m : Machine) {n : Nat} (here : m.control = .line n) (placed : code[n]? = some .repMovsb)
    (counted : (m.reg .rcx).toNat = count) : Reaches (step code) m ((moveByte^[count] m).goto (n + 1)) := by
  induction count generalizing m with
  | zero =>
      have done : m.reg .rcx = 0 := BitVec.eq_of_toNat_eq counted
      have steps := step_line m here placed
      rw [exec, if_pos done] at steps
      exact .single steps
  | succ count ih =>
      have more : m.reg .rcx ≠ 0 := by
        intro none
        rw [none] at counted
        exact absurd counted (Nat.succ_ne_zero count).symm
      have steps := step_line m here placed
      rw [exec, if_neg more, show (moveByte m).goto n = moveByte m from congrArg (fun c => { moveByte m with control := c }) here.symm] at steps
      refine .head steps (ih (moveByte m) here ?_)
      show (m.reg .rcx - 1).toNat = count
      bv_omega

-- After so many repetitions both pointers have moved on by as many strides, and the
-- bytes were copied in the order of the strides.
variable (m : Machine)

theorem moved_direction (count : Nat) : (moveByte^[count] m).direction = m.direction := by
  induction count with
  | zero => rfl
  | succ count ih =>
      rw [Function.iterate_succ_apply']
      exact ih

theorem moved_stride (count : Nat) : (moveByte^[count] m).stride = m.stride := by
  rw [Machine.stride, Machine.stride, moved_direction]

theorem moved_pointer {r : Reg} (moves : ∀ m : Machine, (moveByte m).reg r = m.reg r + m.stride) (count : Nat) :
    (moveByte^[count] m).reg r = m.reg r + m.stride * BitVec.ofNat 64 count := by
  induction count with
  | zero => simp
  | succ count ih =>
      rw [Function.iterate_succ_apply', moves, ih, moved_stride, BitVec.ofNat_add, BitVec.mul_add, ← BitVec.add_assoc]
      congr 1
      exact (BitVec.mul_one m.stride).symm

theorem moved_memory (count : Nat) :
    (moveByte^[count] m).memory =
      copies (fun i => m.reg .rdi + m.stride * BitVec.ofNat 64 i) (fun i => m.reg .rsi + m.stride * BitVec.ofNat 64 i)
        (List.range count) m.memory := by
  induction count with
  | zero => rfl
  | succ count ih =>
      have moved : (moveByte^[count + 1] m).memory = Function.update (moveByte^[count] m).memory
          ((moveByte^[count] m).reg .rdi) ((moveByte^[count] m).memory ((moveByte^[count] m).reg .rsi)) := by
        rw [Function.iterate_succ_apply']
        rfl
      rw [moved, moved_pointer m (r := .rdi) fun _ => rfl, moved_pointer m (r := .rsi) fun _ => rfl, ih, copies, copies, List.range_succ, List.foldl_append]
      rfl

end Runs

end X86.Strings
