import Elysium.X86Frames
import Mathlib.Logic.Relation

set_option autoImplicit false

namespace Elysium.ContextSwitch

open LittleEndian (Memory load store store_outside)
open StateTransition (Reaches eval mem_eval)
open X86 (Word Reg Within Below word_same store_word)
open X86.Frames

def saved : List Reg := [.rbx, .rbp, .r15, .r14, .r13, .r12]

-- x86_64_sched_context_switch. rspOffset is ASMGEN_THREAD_RSP_OFFSET.
def code (rspOffset : Word) : List Instr := [
  .push .rbx, .push .rbp, .push .r15, .push .r14, .push .r13, .push .r12,
  .store .rdi rspOffset .rsp,
  .load .rsp .rsi rspOffset,
  .xor .r12 .r12,
  .segment .ds .r12,
  .segment .es .r12,
  .pop .r12, .pop .r13, .pop .r14, .pop .r15, .pop .rbp, .pop .rbx,
  .mov .rax .rdi,
  .ret]

section Code

variable {rspOffset : Word} {env : Env} {m : Machine}

theorem saved_apart : Reg.rsp ∉ saved ∧ Reg.rax ∉ saved ∧ Reg.rdi ∉ saved := by decide

-- The machine when it has left one stack, on the other, and with the selectors zeroed.
def left (rspOffset : Word) (m : Machine) : Machine :=
  let pushed := pushes saved m
  { pushed with memory := store (pushed.reg .rdi + rspOffset) (pushed.reg .rsp) 8 pushed.memory }

def entered (rspOffset : Word) (m : Machine) : Machine := m.set .rsp (m.word (m.reg .rsi + rspOffset))

def zeroed (m : Machine) : Machine :=
  { m.set .r12 0 with zero := true, ds := 0, es := 0 }

theorem zeroed_reaches (m : Machine) : Reaches (step (code rspOffset) env) (m.goto 8) ((zeroed m).goto 11) := by
  have xored : exec env 8 (m.goto 8) (.xor .r12 .r12) = { m.set .r12 0 with zero := true }.goto 9 := by
    simp only [exec, Machine.goto, Machine.set, BitVec.xor_self]
    rfl
  refine reaches_line rfl ?_
  rw [xored]
  exact reaches_line rfl (reaches_line rfl .refl)

theorem crossed_reaches (m : Machine) :
    Reaches (step (code rspOffset) env) (m.goto 0) ((zeroed (entered rspOffset (left rspOffset m))).goto 11) := by
  have stores : step (code rspOffset) env ((pushes saved m).goto 6) = some ((left rspOffset m).goto 7) := rfl
  have loads : step (code rspOffset) env ((left rspOffset m).goto 7) = some ((entered rspOffset (left rspOffset m)).goto 8) := rfl
  exact (reaches_pushes saved 0 m rfl).trans (.head stores (.head loads (zeroed_reaches _)))

theorem zeroed_reg {r : Reg} (notR12 : r ≠ .r12) : (zeroed m).reg r = m.reg r := Function.update_of_ne notR12 _ _

theorem entered_reg {r : Reg} (notRsp : r ≠ .rsp) : (entered rspOffset m).reg r = m.reg r := Function.update_of_ne notRsp _ _

theorem entered_rsp : (entered rspOffset m).reg .rsp = m.word (m.reg .rsi + rspOffset) := rfl

theorem left_reg {r : Reg} (notRsp : r ≠ .rsp) : (left rspOffset m).reg r = m.reg r := by
  simp only [left]
  exact pushes_reg saved m notRsp

theorem left_stores : (left rspOffset m).memory = store (m.reg .rdi + rspOffset) (m.reg .rsp - 48) 8 (pushes saved m).memory := by
  have rdi : (pushes saved m).reg .rdi = m.reg .rdi := pushes_reg saved m (by decide)
  have rsp : (pushes saved m).reg .rsp = m.reg .rsp - 48 := pushes_rsp saved m
  rw [left, rdi, rsp]

theorem crossed_reg {r : Reg} (notRsp : r ≠ .rsp) (notR12 : r ≠ .r12) : (zeroed (entered rspOffset (left rspOffset m))).reg r = m.reg r := by
  rw [zeroed_reg notR12, entered_reg notRsp, left_reg notRsp]

theorem crossed_rsp : (zeroed (entered rspOffset (left rspOffset m))).reg .rsp = (left rspOffset m).word (m.reg .rsi + rspOffset) := by
  rw [zeroed_reg (by decide), entered_rsp, left_reg (by decide)]

theorem left_gs (rspOffset : Word) (m : Machine) : (left rspOffset m).gsBase = m.gsBase ∧ (left rspOffset m).kernelGsBase = m.kernelGsBase ∧
    (left rspOffset m).interrupts = m.interrupts := by
  obtain ⟨_, _, gsBase, kernelGsBase, _, interrupts⟩ := pushes_same saved m
  simp only [left]
  exact ⟨gsBase, kernelGsBase, interrupts⟩

theorem crossed_gs (rspOffset : Word) (m : Machine) : (zeroed (entered rspOffset m)).gsBase = m.gsBase ∧ (zeroed (entered rspOffset m)).kernelGsBase = m.kernelGsBase ∧
    (zeroed (entered rspOffset m)).interrupts = m.interrupts ∧ (zeroed (entered rspOffset m)).memory = m.memory := ⟨rfl, rfl, rfl, rfl⟩

-- The last two lines.
def ended (m : Machine) : Machine :=
  { (m.set .rax (m.reg .rdi)).set .rsp (m.reg .rsp + 8) with control := .returned (m.word (m.reg .rsp)) }

theorem ended_reaches (m : Machine) : Reaches (step (code rspOffset) env) (m.goto 17) (ended m) := by
  have moves : step (code rspOffset) env (m.goto 17) = some ((m.set .rax (m.reg .rdi)).goto 18) := rfl
  have returns : step (code rspOffset) env ((m.set .rax (m.reg .rdi)).goto 18) = some (ended m) := rfl
  exact .head moves (.head returns .refl)

theorem ended_reg {r : Reg} (notRsp : r ≠ .rsp) (notRax : r ≠ .rax) : (ended m).reg r = m.reg r :=
  (Function.update_of_ne notRsp _ _).trans (Function.update_of_ne notRax _ _)

theorem ended_fields (m : Machine) : (ended m).control = .returned (m.word (m.reg .rsp)) ∧ (ended m).memory = m.memory ∧ (ended m).gsBase = m.gsBase ∧
    (ended m).kernelGsBase = m.kernelGsBase ∧ (ended m).interrupts = m.interrupts ∧ (ended m).reg .rsp = m.reg .rsp + 8 ∧
      (ended m).reg .rax = m.reg .rdi := ⟨rfl, rfl, rfl, rfl, rfl, rfl, rfl⟩

-- What comes back from the function: the registers and the address that are found on the other stack.
structure Returned (m m' : Machine) (top target : Word) (values : Reg → Word) : Prop where
  control : m'.control = .returned target
  saved : ∀ r ∈ saved, m'.reg r = values r
  rsp : m'.reg .rsp = top + 56
  rax : m'.reg .rax = m.reg .rdi
  rdi : m'.reg .rdi = m.reg .rdi
  gs : m'.gsBase = m.gsBase ∧ m'.kernelGsBase = m.kernelGsBase
  interrupts : m'.interrupts = m.interrupts

-- Popping what is found on a stack, from wherever the registers are.
theorem popped_returned {inside popped : Machine} {top target : Word} {values : Reg → Word} (pops_ : popped = pops ContextSwitch.saved.reverse inside)
    (rsp : inside.reg .rsp = top) (frame : Holds inside.memory top (ContextSwitch.saved.reverse.map values ++ [target])) :
    Returned inside (ended popped) top target values ∧ (ended popped).memory = inside.memory := by
  have poppedRsp : popped.reg .rsp = top + 48 := by
    rw [pops_, pops_rsp _ _ (by decide), rsp]
    rfl
  have memory : popped.memory = inside.memory := by
    rw [pops_]
    exact pops_memory _ _
  have same : Same inside popped := pops_ ▸ pops_same ContextSwitch.saved.reverse inside
  have rdi : popped.reg .rdi = inside.reg .rdi := by
    rw [pops_]
    exact pops_other _ _ (fun member => saved_apart.2.2 (List.mem_reverse.mp member)) (by decide)
  have found : popped.word (popped.reg .rsp) = target := by
    rw [Machine.word, memory, poppedRsp]
    exact (holds_append.mp frame).2.1
  obtain ⟨control, kept, gs, kernelGs, interrupts, last, rax⟩ := ended_fields popped
  refine ⟨⟨control.trans (congrArg Control.returned found), fun r member => ?_, ?_, rax.trans rdi, ?_, ⟨gs.trans same.gsBase, kernelGs.trans same.kernelGsBase⟩,
    interrupts.trans same.interrupts⟩, kept.trans memory⟩
  · rw [ended_reg (fun isRsp => saved_apart.1 (isRsp ▸ member)) (fun isRax => saved_apart.2.1 (isRax ▸ member)), pops_]
    exact pops_reg _ _ (by decide) (by decide) (rsp ▸ frame) (List.mem_reverse.mpr member)
  · rw [last, poppedRsp]
    bv_omega
  · rw [ended_reg (by decide) (by decide)]
    exact rdi

theorem switch_reaches {top target : Word} {values : Reg → Word} (pointer : (left rspOffset m).word (m.reg .rsi + rspOffset) = top)
    (frame : Holds (left rspOffset m).memory top (ContextSwitch.saved.reverse.map values ++ [target])) :
    ∃ m', Reaches (step (code rspOffset) env) (m.goto 0) m' ∧ Returned m m' top target values ∧ m'.memory = (left rspOffset m).memory := by
  obtain ⟨gsBase, kernelGsBase, enabled, memory⟩ := crossed_gs rspOffset (left rspOffset m)
  obtain ⟨gs, kernelGs, interrupts⟩ := left_gs rspOffset m
  obtain ⟨⟨control, saved, rsp, rax, rdi, bases, state⟩, unchanged⟩ := popped_returned rfl (crossed_rsp.trans pointer) (memory.symm ▸ frame)
  have kept : (zeroed (entered rspOffset (left rspOffset m))).reg .rdi = m.reg .rdi := crossed_reg (by decide) (by decide)
  have popped : Reaches (step (code rspOffset) env) ((zeroed (entered rspOffset (left rspOffset m))).goto 11)
      ((pops ContextSwitch.saved.reverse (zeroed (entered rspOffset (left rspOffset m)))).goto 17) :=
    reaches_pops ContextSwitch.saved.reverse 11 _ rfl
  refine ⟨_, (crossed_reaches m).trans (popped.trans (ended_reaches _)), ?_, unchanged.trans memory⟩
  exact ⟨control, saved, rsp, rax.trans kept, rdi.trans kept, ⟨(bases.1.trans gsBase).trans gs, (bases.2.trans kernelGsBase).trans kernelGs⟩,
    (state.trans enabled).trans interrupts⟩

-- What is put aside, below the address the function was called from.
theorem left_memory {b : Word} (stack : ¬ Below (m.reg .rsp) 48 b) (field : ¬ Within (m.reg .rdi + rspOffset) 8 b) :
    (left rspOffset m).memory b = m.memory b := by
  rw [left_stores, store_outside _ _ _ field]
  exact pushes_memory saved m stack

theorem left_pointer (rspOffset : Word) (m : Machine) : (left rspOffset m).word (m.reg .rdi + rspOffset) = m.reg .rsp - 48 := by
  rw [Machine.word, left_stores]
  exact store_word _ _ _

theorem left_holds (rspOffset : Word) (m : Machine) {target : Word} (called : m.word (m.reg .rsp) = target)
    (apart : ∀ b, Within (m.reg .rsp - 48) 56 b → ¬ Within (m.reg .rdi + rspOffset) 8 b) :
    Holds (left rspOffset m).memory (m.reg .rsp - 48) (saved.reverse.map m.reg ++ [target]) := by
  have top : Holds m.memory (m.reg .rsp) [target] := ⟨called, trivial⟩
  have pushed := pushes_holds saved m saved_apart.1 (show 8 * [target].length + 8 * saved.length < 2 ^ 64 by
    rw [List.length_singleton]
    decide) top
  rw [pushes_rsp] at pushed
  rw [left_stores]
  exact holds_store (by simp [saved]) apart pushed

end Code

end Elysium.ContextSwitch
