import Elysium.X86
import Mathlib.Computability.StateTransition

set_option autoImplicit false

namespace X86.Frames

open Elysium.LittleEndian (Memory load store store_outside)
open StateTransition (Reaches)

-- The instructions that put aside what a processor was doing and take it up again. All
-- memory here can be accessed. control says which line comes next; or that a function was
-- called, to come back to a line; or where the code was left for, by ret, sysret or iretq.
inductive Control where
  | line (n : Nat)
  | callee (target : Word) (back : Nat)
  | returned (target : Word)
  | user (target flags : Word)
  | resumed (rip cs flags ss : Word)

structure Machine where
  reg : Reg → Word
  memory : Memory
  ds : BitVec 16
  es : BitVec 16
  gsBase : Word
  kernelGsBase : Word
  zero : Bool
  direction : Bool
  interrupts : Bool
  control : Control

inductive Instr where
  | push (src : Reg)
  | pushImm (value : Word)
  | pop (dst : Reg)
  | mov (dst src : Reg)
  | movImm (dst : Reg) (value : Word)
  | xor (dst src : Reg)
  -- mov [base + disp], src and mov dst, [base + disp]
  | store (base : Reg) (disp : Word) (src : Reg)
  | load (dst base : Reg) (disp : Word)
  | segment (dst : Segment) (src : Reg)
  -- test qword [base + disp], mask
  | test (base : Reg) (disp mask : Word)
  | jz (target : Nat)
  | jmp (target : Nat)
  | addImm (dst : Reg) (value : Word)
  | swapgs
  | cld
  | cli
  | call (target : Word)
  | ret
  | sysret
  | iretq

-- Where the lines of the code are, and what a function makes of the machine until it
-- returns, if it does.
structure Env where
  place : Nat → Word
  callee : Word → Machine → Option Machine

namespace Machine

def set (m : Machine) (dst : Reg) (value : Word) : Machine := { m with reg := Function.update m.reg dst value }

def goto (m : Machine) (line : Nat) : Machine := { m with control := .line line }

def word (m : Machine) (a : Word) : Word := load m.memory a 8

def push (m : Machine) (value : Word) : Machine :=
  { m.set .rsp (m.reg .rsp - 8) with memory := store (m.reg .rsp - 8) value 8 m.memory }

def pop (m : Machine) (dst : Reg) : Machine := (m.set .rsp (m.reg .rsp + 8)).set dst (m.word (m.reg .rsp))

end Machine

def exec (env : Env) (line : Nat) (m : Machine) : Instr → Machine
  | .push src => (m.push (m.reg src)).goto (line + 1)
  | .pushImm value => (m.push value).goto (line + 1)
  | .pop dst => (m.pop dst).goto (line + 1)
  | .mov dst src => (m.set dst (m.reg src)).goto (line + 1)
  | .movImm dst value => (m.set dst value).goto (line + 1)
  | .xor dst src => { m.set dst (m.reg dst ^^^ m.reg src) with zero := m.reg dst ^^^ m.reg src == 0 }.goto (line + 1)
  | .store base disp src => { m with memory := store (m.reg base + disp) (m.reg src) 8 m.memory }.goto (line + 1)
  | .load dst base disp => (m.set dst (m.word (m.reg base + disp))).goto (line + 1)
  | .segment .ds src => { m with ds := (m.reg src).setWidth 16 }.goto (line + 1)
  | .segment .es src => { m with es := (m.reg src).setWidth 16 }.goto (line + 1)
  | .test base disp mask => { m with zero := m.word (m.reg base + disp) &&& mask == 0 }.goto (line + 1)
  | .jz target => m.goto (if m.zero then target else line + 1)
  | .jmp target => m.goto target
  | .addImm dst value => { m.set dst (m.reg dst + value) with zero := m.reg dst + value == 0 }.goto (line + 1)
  | .swapgs => { m with gsBase := m.kernelGsBase, kernelGsBase := m.gsBase }.goto (line + 1)
  | .cld => { m with direction := false }.goto (line + 1)
  | .cli => { m with interrupts := false }.goto (line + 1)
  | .call target => { m.push (env.place (line + 1)) with control := .callee target (line + 1) }
  | .ret => { m.set .rsp (m.reg .rsp + 8) with control := .returned (m.word (m.reg .rsp)) }
  | .sysret => { m with control := .user (m.reg .rcx) (m.reg .r11) }
  | .iretq =>
      { m.set .rsp (m.word (m.reg .rsp + 24)) with
        control := .resumed (m.word (m.reg .rsp)) (m.word (m.reg .rsp + 8)) (m.word (m.reg .rsp + 16)) (m.word (m.reg .rsp + 32)) }

def step (code : List Instr) (env : Env) (m : Machine) : Option Machine :=
  match m.control with
  | .line n => (code[n]?).map (exec env n m)
  | .callee target back => (env.callee target m).map fun m => m.goto back
  | .returned _ | .user _ _ | .resumed _ _ _ _ => none

-- The words from an address on.
def Holds (memory : Memory) : Word → List Word → Prop
  | _, [] => True
  | a, value :: rest => load memory a 8 = value ∧ Holds memory (a + 8) rest

section Words

variable {memory memory' : Memory}

-- What is above an address, as far as the words go.
theorem holds_congr {a : Word} {words : List Word} (same : ∀ b, Within a (8 * words.length) b → memory' b = memory b)
    (small : 8 * words.length < 2 ^ 64) (holds : Holds memory a words) : Holds memory' a words := by
  induction words generalizing a with
  | nil => trivial
  | cons value rest ih =>
      rw [List.length_cons] at same small
      obtain ⟨first, others⟩ := holds
      refine ⟨?_, ih (fun b inside => same b ?_) (by omega) others⟩
      · rw [word_same fun b inside => same b ?_]
        · exact first
        · unfold Within at *
          omega
      · unfold Within at *
        bv_omega

theorem holds_store {a place value : Word} {words : List Word} (small : 8 * words.length < 2 ^ 64)
    (apart : ∀ b, Within a (8 * words.length) b → ¬ Within place 8 b) (holds : Holds memory a words) :
    Holds (store place value 8 memory) a words :=
  holds_congr (fun b inside => store_outside place value memory (apart b inside)) small holds

theorem holds_push {top value : Word} {words : List Word} (small : 8 * words.length + 8 < 2 ^ 64) (holds : Holds memory top words) :
    Holds (store (top - 8) value 8 memory) (top - 8) (value :: words) := by
  refine ⟨store_word (top - 8) value memory, ?_⟩
  rw [BitVec.sub_add_cancel]
  refine holds_store (by omega) (fun b inside overlap => ?_) holds
  unfold Within at *
  bv_omega

theorem holds_append {a : Word} {first second : List Word} :
    Holds memory a (first ++ second) ↔ Holds memory a first ∧ Holds memory (a + BitVec.ofNat 64 (8 * first.length)) second := by
  induction first generalizing a with
  | nil => simp [Holds]
  | cons value rest ih =>
      rw [List.cons_append, Holds, Holds, ih, List.length_cons, Nat.mul_add, Nat.mul_one, Nat.add_comm (8 * rest.length) 8, BitVec.ofNat_add,
        ← BitVec.add_assoc, and_assoc]
      rfl

end Words

section Stack

variable {code : List Instr} {env : Env}

-- Registers that are pushed one after the other, and popped.
def pushes (regs : List Reg) (m : Machine) : Machine := regs.foldl (fun m r => m.push (m.reg r)) m

def pops (regs : List Reg) (m : Machine) : Machine := regs.foldl Machine.pop m

-- What pushes and pops leave alone.
structure Same (m m' : Machine) : Prop where
  ds : m'.ds = m.ds
  es : m'.es = m.es
  gsBase : m'.gsBase = m.gsBase
  kernelGsBase : m'.kernelGsBase = m.kernelGsBase
  direction : m'.direction = m.direction
  interrupts : m'.interrupts = m.interrupts

theorem same_trans {m m' m'' : Machine} (first : Same m m') (second : Same m' m'') : Same m m'' :=
  ⟨second.ds.trans first.ds, second.es.trans first.es, second.gsBase.trans first.gsBase, second.kernelGsBase.trans first.kernelGsBase,
    second.direction.trans first.direction, second.interrupts.trans first.interrupts⟩

theorem step_line {m : Machine} {n : Nat} {instr : Instr} (placed : code[n]? = some instr) :
    step code env (m.goto n) = some (exec env n (m.goto n) instr) := congrArg (Option.map (exec env n (m.goto n))) placed

theorem reaches_line {m m' : Machine} {n : Nat} {instr : Instr} (placed : code[n]? = some instr)
    (rest : Reaches (step code env) (exec env n (m.goto n) instr) m') : Reaches (step code env) (m.goto n) m' := .head (step_line placed) rest

theorem placed_of {make : Reg → Instr} {regs : List Reg} {n : Nat} (same : (code.drop n).take regs.length = regs.map make) (i : Nat)
    (less : i < regs.length) : code[n + i]? = some (make regs[i]) := by
  have found : ((code.drop n).take regs.length)[i]? = some (make regs[i]) := by
    rw [same, List.getElem?_map, List.getElem?_eq_getElem less]
    rfl
  rw [List.getElem?_take_of_lt less, List.getElem?_drop] at found
  exact found

theorem reaches_block {make : Reg → Instr} {next : Machine → Reg → Machine} (one : ∀ m n r, exec env n (m.goto n) (make r) = (next m r).goto (n + 1))
    (regs : List Reg) (n : Nat) (m : Machine) (placed : ∀ i (less : i < regs.length), code[n + i]? = some (make regs[i])) :
    Reaches (step code env) (m.goto n) ((regs.foldl next m).goto (n + regs.length)) := by
  induction regs generalizing n m with
  | nil => exact .refl
  | cons r rest ih =>
      refine reaches_line (placed 0 (Nat.succ_pos _)) ?_
      rw [List.getElem_cons_zero, one, List.foldl_cons, List.length_cons, show n + (rest.length + 1) = n + 1 + rest.length by omega]
      refine ih (n + 1) (next m r) fun i less => ?_
      have later := placed (i + 1) (Nat.succ_lt_succ less)
      rw [List.getElem_cons_succ] at later
      rw [show n + 1 + i = n + (i + 1) by omega]
      exact later

theorem reaches_pushes (regs : List Reg) (n : Nat) (m : Machine) (same : (code.drop n).take regs.length = regs.map .push) :
    Reaches (step code env) (m.goto n) ((pushes regs m).goto (n + regs.length)) :=
  reaches_block (fun _ _ _ => rfl) regs n m (placed_of same)

theorem reaches_pops (regs : List Reg) (n : Nat) (m : Machine) (same : (code.drop n).take regs.length = regs.map .pop) :
    Reaches (step code env) (m.goto n) ((pops regs m).goto (n + regs.length)) :=
  reaches_block (fun _ _ _ => rfl) regs n m (placed_of same)

theorem pushes_same (regs : List Reg) (m : Machine) : Same m (pushes regs m) := by
  induction regs generalizing m with
  | nil => exact ⟨rfl, rfl, rfl, rfl, rfl, rfl⟩
  | cons r rest ih =>
      have first : Same m (m.push (m.reg r)) := ⟨rfl, rfl, rfl, rfl, rfl, rfl⟩
      exact same_trans first (ih (m.push (m.reg r)))

theorem pops_same (regs : List Reg) (m : Machine) : Same m (pops regs m) := by
  induction regs generalizing m with
  | nil => exact ⟨rfl, rfl, rfl, rfl, rfl, rfl⟩
  | cons r rest ih =>
      have first : Same m (m.pop r) := ⟨rfl, rfl, rfl, rfl, rfl, rfl⟩
      exact same_trans first (ih (m.pop r))

theorem push_reg {m : Machine} {value : Word} {r : Reg} (other : r ≠ .rsp) : (m.push value).reg r = m.reg r :=
  Function.update_of_ne other _ _

theorem pushes_reg (regs : List Reg) (m : Machine) {r : Reg} (other : r ≠ .rsp) : (pushes regs m).reg r = m.reg r := by
  induction regs generalizing m with
  | nil => rfl
  | cons src rest ih => exact (ih (m.push (m.reg src))).trans (push_reg other)

theorem pushes_rsp (regs : List Reg) (m : Machine) : (pushes regs m).reg .rsp = m.reg .rsp - BitVec.ofNat 64 (8 * regs.length) := by
  induction regs generalizing m with
  | nil => simp [pushes]
  | cons src rest ih =>
      have pushed : (m.push (m.reg src)).reg .rsp = m.reg .rsp - 8 := rfl
      refine (ih (m.push (m.reg src))).trans ?_
      rw [pushed, List.length_cons, Nat.mul_add, Nat.mul_one, BitVec.ofNat_add]
      bv_omega

theorem pushes_memory (regs : List Reg) (m : Machine) {b : Word} (outside : ¬ Below (m.reg .rsp) (8 * regs.length) b) :
    (pushes regs m).memory b = m.memory b := by
  induction regs generalizing m with
  | nil => rfl
  | cons src rest ih =>
      have pushed : (m.push (m.reg src)).reg .rsp = m.reg .rsp - 8 := rfl
      rw [List.length_cons] at outside
      refine (ih (m.push (m.reg src)) ?_).trans (store_outside _ _ _ ?_)
      · rw [pushed]
        unfold Below at *
        bv_omega
      · unfold Below at outside
        bv_omega

-- The registers are above each other in the order they were pushed in.
theorem pushes_holds (regs : List Reg) (m : Machine) (apart : Reg.rsp ∉ regs) {words : List Word}
    (small : 8 * words.length + 8 * regs.length < 2 ^ 64) (holds : Holds m.memory (m.reg .rsp) words) :
    Holds (pushes regs m).memory ((pushes regs m).reg .rsp) (regs.reverse.map m.reg ++ words) := by
  induction regs generalizing m words with
  | nil => exact holds
  | cons src rest ih =>
      rw [List.mem_cons, not_or] at apart
      rw [List.length_cons] at small
      have pushed : (m.push (m.reg src)).reg .rsp = m.reg .rsp - 8 := rfl
      have first : Holds (m.push (m.reg src)).memory ((m.push (m.reg src)).reg .rsp) (m.reg src :: words) := by
        rw [pushed]
        exact holds_push (by omega) holds
      have later := ih (m.push (m.reg src)) apart.2 (by rw [List.length_cons]; omega) first
      have values : rest.reverse.map (m.push (m.reg src)).reg = rest.reverse.map m.reg :=
        List.map_congr_left fun r member => push_reg fun isRsp => apart.2 (isRsp ▸ List.mem_reverse.mp member)
      rw [values] at later
      rw [List.reverse_cons, List.map_append, List.append_assoc]
      exact later

theorem pops_memory (regs : List Reg) (m : Machine) : (pops regs m).memory = m.memory := by
  induction regs generalizing m with
  | nil => rfl
  | cons dst rest ih => exact ih (m.pop dst)

theorem pop_other {m : Machine} {dst r : Reg} (other : r ≠ dst) (apart : r ≠ .rsp) : (m.pop dst).reg r = m.reg r :=
  (Function.update_of_ne other _ _).trans (Function.update_of_ne apart _ _)

theorem pop_rsp {m : Machine} {dst : Reg} (apart : Reg.rsp ≠ dst) : (m.pop dst).reg .rsp = m.reg .rsp + 8 :=
  Function.update_of_ne apart _ _

theorem pops_other (regs : List Reg) (m : Machine) {r : Reg} (absent : r ∉ regs) (apart : r ≠ .rsp) : (pops regs m).reg r = m.reg r := by
  induction regs generalizing m with
  | nil => rfl
  | cons dst rest ih =>
      rw [List.mem_cons, not_or] at absent
      exact (ih (m.pop dst) absent.2).trans (pop_other absent.1 apart)

theorem pops_rsp (regs : List Reg) (m : Machine) (apart : Reg.rsp ∉ regs) :
    (pops regs m).reg .rsp = m.reg .rsp + BitVec.ofNat 64 (8 * regs.length) := by
  induction regs generalizing m with
  | nil => simp [pops]
  | cons dst rest ih =>
      rw [List.mem_cons, not_or] at apart
      refine (ih (m.pop dst) apart.2).trans ?_
      rw [pop_rsp apart.1, List.length_cons, Nat.mul_add, Nat.mul_one, BitVec.ofNat_add]
      bv_omega

-- Words that are found on the stack go to the registers in this order.
theorem pops_reg (regs : List Reg) (m : Machine) (once : regs.Nodup) (apart : Reg.rsp ∉ regs) {values : Reg → Word} {words : List Word}
    (holds : Holds m.memory (m.reg .rsp) (regs.map values ++ words)) {r : Reg} (member : r ∈ regs) : (pops regs m).reg r = values r := by
  induction regs generalizing m with
  | nil => cases member
  | cons dst rest ih =>
      rw [List.mem_cons, not_or] at apart
      rw [List.nodup_cons] at once
      obtain ⟨first, others⟩ := holds
      rcases List.mem_cons.mp member with rfl | later
      · exact (pops_other rest (m.pop r) once.1 (Ne.symm apart.1)).trans ((Function.update_self r _ _).trans first)
      · refine ih (m.pop dst) once.2 apart.2 ?_ later
        rw [pop_rsp apart.1]
        exact others

end Stack

end X86.Frames
