import Elysium.X86Frames

set_option autoImplicit false

namespace Elysium.InterruptFrames

open LittleEndian (Memory load store store_outside)
open StateTransition (Reaches eval mem_eval)
open X86 (Word Reg Within Below word_same store_word)
open X86.Frames

def saved : List Reg := [.rax, .rbx, .rcx, .rdx, .rbp, .rsi, .rdi, .r8, .r9, .r10, .r11, .r12, .r13, .r14, .r15]

-- isr_stub, with SWAPGS_CONDITIONAL written out. handler is x86_64_interrupt_handler.
def isrStub (handler : Word) : List Instr := [
  .cld,
  .test .rsp 24 3, .jz 4, .swapgs,
  .push .rax, .push .rbx, .push .rcx, .push .rdx, .push .rbp, .push .rsi, .push .rdi, .push .r8, .push .r9, .push .r10, .push .r11, .push .r12,
  .push .r13, .push .r14, .push .r15,
  .xor .rbp .rbp,
  .mov .rdi .rsp,
  .call handler,
  .pop .r15, .pop .r14, .pop .r13, .pop .r12, .pop .r11, .pop .r10, .pop .r9, .pop .r8, .pop .rdi, .pop .rsi, .pop .rbp, .pop .rdx, .pop .rcx,
  .pop .rbx, .pop .rax,
  .test .rsp 24 3, .jz 40, .swapgs,
  .addImm .rsp 16,
  .iretq]

-- The second argument of ISR.
def hasError (vector : Nat) : Bool := [8, 10, 11, 12, 13, 14, 17, 21, 24, 28, 29, 30].contains vector

def isr (vector : Nat) : List Instr := (if hasError vector then [] else [.pushImm 0]) ++ [.pushImm (BitVec.ofNat 64 vector), .jmp 0]

-- isr_%1 comes at line 42 here.
def code (handler : Word) (vector : Nat) : List Instr := isrStub handler ++ isr vector

-- X86_64_INTERRUPT_IS_FROM_USER.
def fromUser (cs : Word) : Bool := cs &&& 3 != 0

-- arch_interrupt_frame_t. There is no rsp among the registers it begins with.
structure Frame where
  reg : Reg → Word
  intNo : Word
  errCode : Word
  rip : Word
  cs : Word
  rflags : Word
  rsp : Word
  ss : Word

def Frame.pushed (f : Frame) : List Word := [f.rip, f.cs, f.rflags, f.rsp, f.ss]

def Frame.words (f : Frame) : List Word := saved.reverse.map f.reg ++ f.intNo :: f.errCode :: f.pushed

section Code

variable {handler : Word} {vector : Nat} {env : Env} {m : Machine} {f : Frame}

theorem saved_apart : Reg.rsp ∉ saved := by decide

theorem saved_all {r : Reg} (notRsp : r ≠ .rsp) : r ∈ saved := by cases r <;> first | contradiction | decide

-- SWAPGS_CONDITIONAL, after its test.
def swapgsUnless (zero : Bool) (m : Machine) : Machine :=
  if zero then { m with zero := true } else { m with zero := false, gsBase := m.kernelGsBase, kernelGsBase := m.gsBase }

def swapgsConditional (m : Machine) : Machine := swapgsUnless (m.word (m.reg .rsp + 24) &&& 3 == 0) m

theorem unless_reaches {code : List Instr} {n : Nat} (jump : code[n + 1]? = some (.jz (n + 3))) (swap : code[n + 2]? = some .swapgs) (zero : Bool) :
    Reaches (step code env) ({ m with zero := zero }.goto (n + 1)) ((swapgsUnless zero m).goto (n + 3)) := by
  cases zero
  · exact reaches_line jump (reaches_line swap .refl)
  · exact reaches_line jump .refl

theorem conditional_reaches {code : List Instr} {n : Nat} (test : code[n]? = some (.test .rsp 24 3)) (jump : code[n + 1]? = some (.jz (n + 3)))
    (swap : code[n + 2]? = some .swapgs) : Reaches (step code env) (m.goto n) ((swapgsConditional m).goto (n + 3)) :=
  reaches_line test (unless_reaches (m := m) jump swap (m.word (m.reg .rsp + 24) &&& 3 == 0))

structure Conditional (m m' : Machine) (cs : Word) : Prop where
  reg : m'.reg = m.reg
  memory : m'.memory = m.memory
  direction : m'.direction = m.direction
  gsBase : m'.gsBase = if fromUser cs then m.kernelGsBase else m.gsBase
  kernelGsBase : m'.kernelGsBase = if fromUser cs then m.gsBase else m.kernelGsBase

theorem conditional_fields {cs : Word} (found : m.word (m.reg .rsp + 24) = cs) : Conditional m (swapgsConditional m) cs := by
  have zero : fromUser cs = !(cs &&& 3 == 0) := rfl
  rw [swapgsConditional, found]
  cases user : cs &&& 3 == 0 with
  | false =>
      rw [user] at zero
      exact ⟨rfl, rfl, rfl, (if_pos zero).symm, (if_pos zero).symm⟩
  | true =>
      rw [user] at zero
      exact ⟨rfl, rfl, rfl, (if_neg (ne_true_of_eq_false zero)).symm, (if_neg (ne_true_of_eq_false zero)).symm⟩

-- What the first lines, which are those of the vector, push: the error code, where the processor did not, and the vector.
def identified (vector : Nat) (m : Machine) : Machine := (if hasError vector then m else m.push 0).push (BitVec.ofNat 64 vector)

theorem identified_reaches (m : Machine) : Reaches (step (code handler vector) env) (m.goto 42) ((identified vector m).goto 0) := by
  by_cases error : hasError vector
  · have lines : code handler vector = isrStub handler ++ [.pushImm (BitVec.ofNat 64 vector), .jmp 0] := by
      rw [code, isr, if_pos error]
      rfl
    rw [identified, if_pos error, lines]
    exact reaches_line rfl (reaches_line rfl .refl)
  · have lines : code handler vector = isrStub handler ++ [.pushImm 0, .pushImm (BitVec.ofNat 64 vector), .jmp 0] := by
      rw [code, isr, if_neg error]
      rfl
    rw [identified, if_neg error, lines]
    exact reaches_line rfl (reaches_line rfl (reaches_line rfl .refl))

theorem identified_holds {error : Option Word} {words : List Word} (matching : error.isSome = hasError vector) (small : 8 * words.length + 16 < 2 ^ 64)
    (holds : Holds m.memory (m.reg .rsp) (error.toList ++ words)) : Holds (identified vector m).memory ((identified vector m).reg .rsp)
      (BitVec.ofNat 64 vector :: error.getD 0 :: words) := by
  cases error with
  | none =>
      have inner : Holds (m.push 0).memory ((m.push 0).reg .rsp) (0 :: words) := holds_push (by omega) holds
      rw [identified, if_neg (ne_true_of_eq_false matching.symm)]
      exact holds_push (by rw [List.length_cons]; omega) inner
  | some error =>
      have given : hasError vector = true := matching.symm
      rw [identified, if_pos given]
      exact holds_push (by rw [List.length_cons]; omega) holds

structure Identified (m m' : Machine) (size : Nat) : Prop where
  reg : ∀ r, r ≠ .rsp → m'.reg r = m.reg r
  rsp : m'.reg .rsp = m.reg .rsp - BitVec.ofNat 64 size
  memory : ∀ b, ¬ Below (m.reg .rsp) size b → m'.memory b = m.memory b
  same : Same m m'

theorem push_outside {top b : Word} (outside : ¬ Below top 8 b) : ¬ Within (top - 8) 8 b := by
  unfold Below at outside
  unfold Within
  bv_omega

theorem below_push {top b : Word} {n : Nat} (small : n + 8 < 2 ^ 64) (inside : Below top 8 b ∨ Below (top - 8) n b) : Below top (n + 8) b := by
  unfold Below at *
  rcases inside with first | second
  · omega
  · bv_omega

theorem identified_fields (vector : Nat) (m : Machine) : Identified m (identified vector m) (if hasError vector then 8 else 16) := by
  have one : ∀ (m : Machine) value, Identified m (m.push value) 8 := fun m value =>
    ⟨fun r other => push_reg other, rfl, fun b outside => store_outside _ _ _ (push_outside outside), ⟨rfl, rfl, rfl, rfl, rfl, rfl⟩⟩
  by_cases error : hasError vector
  · rw [identified, if_pos error, if_pos error]
    exact one m _
  · rw [identified, if_neg error, if_neg error]
    obtain ⟨reg, rsp, memory, same⟩ := one m 0
    obtain ⟨reg', rsp', memory', same'⟩ := one (m.push 0) (BitVec.ofNat 64 vector)
    refine ⟨fun r other => (reg' r other).trans (reg r other), ?_, fun b outside => (memory' b ?_).trans (memory b ?_), same_trans same same'⟩
    · rw [rsp', rsp]
      exact BitVec.sub_sub _ _ _
    · rw [rsp]
      exact fun inside => outside (below_push (by decide) (.inr inside))
    · exact fun inside => outside (below_push (by decide) (.inl inside))

-- The machine as it is handed to the handler.
def masked (vector : Nat) (m : Machine) : Machine := swapgsConditional { identified vector m with direction := false }

def handed (m : Machine) : Machine := { m.set .rbp 0 with zero := true }.set .rdi (m.reg .rsp)

def called (handler : Word) (vector : Nat) (env : Env) (m : Machine) : Machine :=
  { (handed (pushes saved (masked vector m))).push (env.place 22) with control := .callee handler 22 }

theorem handed_reaches (m : Machine) : Reaches (step (code handler vector) env) (m.goto 19)
    { (handed m).push (env.place 22) with control := .callee handler 22 } := by
  have xored : exec env 19 (m.goto 19) (.xor .rbp .rbp) = { m.set .rbp 0 with zero := true }.goto 20 := by
    simp only [exec, Machine.goto, Machine.set, BitVec.xor_self]
    rfl
  refine reaches_line rfl ?_
  rw [xored]
  exact reaches_line rfl (reaches_line rfl .refl)

theorem called_reaches (m : Machine) : Reaches (step (code handler vector) env) (m.goto 42) (called handler vector env m) := by
  have cleared : Reaches (step (code handler vector) env) ((identified vector m).goto 0) ({ identified vector m with direction := false }.goto 1) :=
    reaches_line rfl .refl
  have swapped : Reaches (step (code handler vector) env) ({ identified vector m with direction := false }.goto 1) ((masked vector m).goto 4) :=
    conditional_reaches rfl rfl rfl
  have pushed : Reaches (step (code handler vector) env) ((masked vector m).goto 4) ((pushes saved (masked vector m)).goto 19) :=
    reaches_pushes saved 4 (masked vector m) rfl
  exact (identified_reaches m).trans (cleared.trans (swapped.trans (pushed.trans (handed_reaches _))))

-- What the handler is called with. top is where the processor began to push.
structure Called (m c : Machine) (handler top : Word) (f : Frame) : Prop where
  control : c.control = .callee handler 22
  frame : Holds c.memory (c.reg .rdi) f.words
  place : c.reg .rdi = top - 176 ∧ c.reg .rsp = c.reg .rdi - 8
  rbp : c.reg .rbp = 0
  direction : c.direction = false
  gsBase : c.gsBase = if fromUser f.cs then m.kernelGsBase else m.gsBase
  kernelGsBase : c.kernelGsBase = if fromUser f.cs then m.gsBase else m.kernelGsBase
  memory : ∀ b, ¬ Below (top - 40) 144 b → c.memory b = m.memory b

theorem masked_fields {error : Option Word} (matching : error.isSome = hasError vector)
    (delivered : Holds m.memory (m.reg .rsp) (error.toList ++ f.pushed)) : (masked vector m).reg = (identified vector m).reg ∧
      (masked vector m).memory = (identified vector m).memory ∧ (masked vector m).direction = false ∧
      (masked vector m).gsBase = (if fromUser f.cs then m.kernelGsBase else m.gsBase) ∧
      (masked vector m).kernelGsBase = if fromUser f.cs then m.gsBase else m.kernelGsBase := by
  obtain ⟨_, _, _, isCs, _⟩ := identified_holds matching (by simp [Frame.pushed]) delivered
  have place : ∀ a : Word, a + 24 = a + 8 + 8 + 8 := fun a => by bv_omega
  have found : (identified vector m).word ((identified vector m).reg .rsp + 24) = f.cs := by
    rw [place]
    exact isCs
  obtain ⟨reg, memory, direction, gsBase, kernelGsBase⟩ := conditional_fields (m := { identified vector m with direction := false }) found
  have kept := (identified_fields vector m).same
  rw [← kept.gsBase, ← kept.kernelGsBase]
  exact ⟨reg, memory, direction, gsBase, kernelGsBase⟩

theorem words_length (f : Frame) : f.words.length = 22 := rfl

theorem called_fields (handler : Word) (vector : Nat) (env : Env) (m : Machine) : (called handler vector env m).control = .callee handler 22 ∧
    (called handler vector env m).reg .rdi = (pushes saved (masked vector m)).reg .rsp ∧
    (called handler vector env m).reg .rsp = (pushes saved (masked vector m)).reg .rsp - 8 ∧ (called handler vector env m).reg .rbp = 0 ∧
    (called handler vector env m).memory = store ((pushes saved (masked vector m)).reg .rsp - 8) (env.place 22) 8 (pushes saved (masked vector m)).memory ∧
    Same (pushes saved (masked vector m)) (called handler vector env m) := by
  generalize isPushed : pushes saved (masked vector m) = pushed
  have isCalled : called handler vector env m = { (handed pushed).push (env.place 22) with control := .callee handler 22 } := by
    rw [called, isPushed]
  rw [isCalled]
  exact ⟨rfl, rfl, rfl, rfl, rfl, rfl, rfl, rfl, rfl, rfl, rfl⟩

-- Both ways the vector comes seven words below.
theorem identified_place {error : Option Word} {top : Word} (matching : error.isSome = hasError vector)
    (place : m.reg .rsp = top - BitVec.ofNat 64 (8 * (error.toList ++ f.pushed).length)) : (identified vector m).reg .rsp = top - 56 ∧
      ∀ b, ¬ Below (top - 40) 16 b → (identified vector m).memory b = m.memory b := by
  obtain ⟨_, rsp, memory, _⟩ := identified_fields vector m
  rw [← matching, place] at rsp
  rw [← matching, place] at memory
  cases error with
  | none =>
      refine ⟨rsp.trans ?_, memory⟩
      exact BitVec.sub_sub top 40 16
  | some error =>
      refine ⟨rsp.trans ?_, fun b outside => memory b fun inside => outside ?_⟩
      · exact BitVec.sub_sub top 48 8
      · have start : top - 48 = top - 40 - 8 := (BitVec.sub_sub top 40 8).symm
        refine below_push (n := 8) (by decide) (.inr ?_)
        rw [← start]
        exact inside

theorem masked_pushes {error : Option Word} {top : Word} (matching : error.isSome = hasError vector)
    (place : m.reg .rsp = top - BitVec.ofNat 64 (8 * (error.toList ++ f.pushed).length))
    (delivered : Holds m.memory (m.reg .rsp) (error.toList ++ f.pushed)) : (pushes saved (masked vector m)).reg .rsp = top - 176 ∧
      Holds (pushes saved (masked vector m)).memory (top - 176) (saved.reverse.map m.reg ++ BitVec.ofNat 64 vector :: error.getD 0 :: f.pushed) ∧
      ∀ b, ¬ Below (top - 40) 136 b → (pushes saved (masked vector m)).memory b = m.memory b := by
  obtain ⟨reg, memory, _, _, _⟩ := masked_fields matching delivered
  obtain ⟨regs, _, _, _⟩ := identified_fields vector m
  obtain ⟨isPlace, outside⟩ := identified_place matching place
  have words := identified_holds matching (by simp [Frame.pushed]) delivered
  have rsp : (masked vector m).reg .rsp = top - 56 := (congrFun reg .rsp).trans isPlace
  have held : Holds (masked vector m).memory ((masked vector m).reg .rsp) (BitVec.ofNat 64 vector :: error.getD 0 :: f.pushed) := by
    rw [memory, reg]
    exact words
  have values : saved.reverse.map (masked vector m).reg = saved.reverse.map m.reg := by
    refine List.map_congr_left fun r member => (congrFun reg r).trans (regs r ?_)
    rintro rfl
    exact saved_apart (List.mem_reverse.mp member)
  have pushedRsp : (pushes saved (masked vector m)).reg .rsp = top - 176 := by
    rw [pushes_rsp, rsp]
    exact BitVec.sub_sub top 56 120
  have pushed := pushes_holds saved (masked vector m) saved_apart (by simp [saved, Frame.pushed]) held
  rw [values, pushedRsp] at pushed
  refine ⟨pushedRsp, pushed, fun b elsewhere => ?_⟩
  rw [pushes_memory saved, memory]
  · refine outside b fun inside => elsewhere ?_
    unfold Below at *
    omega
  · rw [rsp]
    intro inside
    refine elsewhere ?_
    unfold Below at *
    change (top - 56 - 1 - b).toNat < 120 at inside
    bv_omega

-- From the stack the processor pushed to.
theorem called_called (handler : Word) (env : Env) {error : Option Word} {top : Word} (matching : error.isSome = hasError vector)
    (place : m.reg .rsp = top - BitVec.ofNat 64 (8 * (error.toList ++ f.pushed).length))
    (delivered : Holds m.memory (m.reg .rsp) (error.toList ++ f.pushed)) :
    Called m (called handler vector env m) handler top { f with reg := m.reg, intNo := BitVec.ofNat 64 vector, errCode := error.getD 0 } := by
  obtain ⟨control, rdi, rsp, rbp, memory, same⟩ := called_fields handler vector env m
  obtain ⟨_, _, direction, gsBase, kernelGsBase⟩ := masked_fields matching delivered
  obtain ⟨isRsp, words, outside⟩ := masked_pushes matching place delivered
  have pushed := pushes_same saved (masked vector m)
  rw [isRsp] at rdi rsp memory
  have start : top - 176 - 8 = top - 184 := BitVec.sub_sub top 176 8
  refine ⟨control, ?_, ⟨rdi, ?_⟩, rbp, ?_, ?_, ?_, fun b elsewhere => ?_⟩
  · rw [rdi, memory, start]
    refine holds_store (by rw [words_length]; decide) (fun b inside overlap => ?_) words
    rw [words_length] at inside
    unfold Within at inside overlap
    bv_omega
  · rw [rsp, rdi]
  · rw [same.direction, pushed.direction, direction]
  · rw [same.gsBase, pushed.gsBase, gsBase]
  · rw [same.kernelGsBase, pushed.kernelGsBase, kernelGsBase]
  · rw [memory, start, store_outside _ _ _ fun inside => elsewhere ?_]
    · refine outside b fun inside => elsewhere ?_
      unfold Below at *
      omega
    · unfold Below
      bv_omega

-- Where the interrupted code goes on.
structure Resumed (h e : Machine) (f : Frame) : Prop where
  control : e.control = .resumed f.rip f.cs f.rflags f.ss
  reg : ∀ r, r ≠ .rsp → e.reg r = f.reg r
  rsp : e.reg .rsp = f.rsp
  memory : e.memory = h.memory
  gsBase : e.gsBase = if fromUser f.cs then h.kernelGsBase else h.gsBase
  kernelGsBase : e.kernelGsBase = if fromUser f.cs then h.gsBase else h.kernelGsBase

def added (m : Machine) : Machine := { m.set .rsp (m.reg .rsp + 16) with zero := m.reg .rsp + 16 == 0 }

def iretqed (m : Machine) : Machine :=
  { m.set .rsp (m.word (m.reg .rsp + 24)) with
    control := .resumed (m.word (m.reg .rsp)) (m.word (m.reg .rsp + 8)) (m.word (m.reg .rsp + 16)) (m.word (m.reg .rsp + 32)) }

theorem added_reaches (m : Machine) : Reaches (step (code handler vector) env) (m.goto 40) (iretqed (added m)) := by
  have ends : step (code handler vector) env ((added m).goto 41) = some (iretqed (added m)) := rfl
  exact reaches_line rfl (.head ends .refl)

theorem iretqed_fields (m : Machine) {a : Word} (place : m.reg .rsp = a) : (iretqed (added m)).control =
      .resumed (m.word (a + 16)) (m.word (a + 16 + 8)) (m.word (a + 16 + 16)) (m.word (a + 16 + 32)) ∧
    (iretqed (added m)).reg .rsp = m.word (a + 16 + 24) ∧ (∀ r, r ≠ .rsp → (iretqed (added m)).reg r = m.reg r) ∧
    (iretqed (added m)).memory = m.memory ∧ (iretqed (added m)).gsBase = m.gsBase ∧ (iretqed (added m)).kernelGsBase = m.kernelGsBase := by
  subst place
  exact ⟨rfl, rfl, fun r other => (Function.update_of_ne other _ _).trans (Function.update_of_ne other _ _), rfl, rfl, rfl⟩

theorem words_pushed {memory : Memory} {a : Word} (frame : Holds memory a f.words) : load memory (a + 120 + 16) 8 = f.rip ∧
    load memory (a + 120 + 24) 8 = f.cs ∧ load memory (a + 120 + 16 + 16) 8 = f.rflags ∧ load memory (a + 120 + 16 + 24) 8 = f.rsp ∧
    load memory (a + 120 + 16 + 32) 8 = f.ss := by
  obtain ⟨_, _, isRip, isCs, isRflags, isRsp, isSs, _⟩ := (holds_append.mp frame).2
  have length : a + BitVec.ofNat 64 (8 * (saved.reverse.map f.reg).length) = a + 120 := rfl
  rw [length] at isRip isCs isRflags isRsp isSs
  generalize a + 120 = b at *
  refine ⟨?_, ?_, ?_, ?_, ?_⟩
  · rw [show b + 16 = b + 8 + 8 by bv_omega]
    exact isRip
  · rw [show b + 24 = b + 8 + 8 + 8 by bv_omega]
    exact isCs
  · rw [show b + 16 + 16 = b + 8 + 8 + 8 + 8 by bv_omega]
    exact isRflags
  · rw [show b + 16 + 24 = b + 8 + 8 + 8 + 8 + 8 by bv_omega]
    exact isRsp
  · rw [show b + 16 + 32 = b + 8 + 8 + 8 + 8 + 8 + 8 by bv_omega]
    exact isSs

theorem left_reaches (handler : Word) (vector : Nat) (env : Env) {h : Machine} (frame : Holds h.memory (h.reg .rsp) f.words) :
    ∃ e, Reaches (step (code handler vector) env) (h.goto 22) e ∧ Resumed h e f := by
  have popped : Reaches (step (code handler vector) env) (h.goto 22) ((pops saved.reverse h).goto 37) := reaches_pops saved.reverse 22 h rfl
  have swapped : Reaches (step (code handler vector) env) ((pops saved.reverse h).goto 37) ((swapgsConditional (pops saved.reverse h)).goto 40) :=
    conditional_reaches rfl rfl rfl
  have same := pops_same saved.reverse h
  have rsp : (pops saved.reverse h).reg .rsp = h.reg .rsp + 120 := pops_rsp saved.reverse h (by decide)
  have memory : (pops saved.reverse h).memory = h.memory := pops_memory _ _
  obtain ⟨isRip, isCs, isRflags, isRsp, isSs⟩ := words_pushed frame
  have found : (pops saved.reverse h).word ((pops saved.reverse h).reg .rsp + 24) = f.cs := by
    rw [rsp, Machine.word, memory]
    exact isCs
  obtain ⟨reg, isMemory, _, gsBase, kernelGsBase⟩ := conditional_fields found
  obtain ⟨control, last, regs, lastMemory, lastGs, lastKernelGs⟩ := iretqed_fields _ ((congrFun reg .rsp).trans rsp)
  have again : h.reg .rsp + 120 + 16 + 8 = h.reg .rsp + 120 + 24 := BitVec.add_assoc _ _ _
  simp only [Machine.word, isMemory, memory] at control last
  rw [again, isRip, isCs, isRflags, isSs] at control
  refine ⟨_, popped.trans (swapped.trans (added_reaches _)), control, fun r other => ?_, last.trans isRsp, ?_, ?_, ?_⟩
  · rw [regs r other, reg]
    exact pops_reg saved.reverse h (by decide) (by decide) frame (List.mem_reverse.mpr (saved_all other))
  · rw [lastMemory, isMemory, memory]
  · rw [lastGs, gsBase, same.gsBase, same.kernelGsBase]
  · rw [lastKernelGs, kernelGsBase, same.gsBase, same.kernelGsBase]

-- What the handler has to leave: its stack pointer, the bases, and a frame where it was given one.
structure Handled (c h : Machine) (f : Frame) : Prop where
  rsp : h.reg .rsp = c.reg .rsp + 8
  frame : Holds h.memory (c.reg .rdi) f.words
  gs : h.gsBase = c.gsBase ∧ h.kernelGsBase = c.kernelGsBase

-- The handler of every vector whose error code is where its stub has it is given the machine as it was interrupted,
-- and the machine goes on as the frame says then.
theorem interrupts_resume (handler : Word) (vector : Nat) (env : Env) {error : Option Word} {top : Word} (matching : error.isSome = hasError vector)
    (place : m.reg .rsp = top - BitVec.ofNat 64 (8 * (error.toList ++ f.pushed).length))
    (delivered : Holds m.memory (m.reg .rsp) (error.toList ++ f.pushed)) :
    ∃ c, Reaches (step (code handler vector) env) (m.goto 42) c ∧
      Called m c handler top { f with reg := m.reg, intNo := BitVec.ofNat 64 vector, errCode := error.getD 0 } ∧
      ∀ h f', env.callee handler c = some h → Handled c h f' → ∃ e, e ∈ eval (step (code handler vector) env) (m.goto 42) ∧ Resumed h e f' ∧
        (fromUser f'.cs = fromUser f.cs → e.gsBase = m.gsBase ∧ e.kernelGsBase = m.kernelGsBase) := by
  have calls := called_called handler env matching place delivered
  refine ⟨called handler vector env m, called_reaches m, calls, fun h f' returns handled => ?_⟩
  have goes : step (code handler vector) env (called handler vector env m) = some (h.goto 22) := by
    rw [step, calls.control]
    exact congrArg (Option.map fun m => m.goto 22) returns
  have isFrame : Holds h.memory (h.reg .rsp) f'.words := by
    rw [handled.rsp, calls.place.2, BitVec.sub_add_cancel]
    exact handled.frame
  obtain ⟨e, reaches, resumed⟩ := left_reaches handler vector env isFrame
  have stops : step (code handler vector) env e = none := by
    rw [step, resumed.control]
  refine ⟨e, mem_eval.mpr ⟨(called_reaches m).trans (.head goes reaches), stops⟩, resumed, fun same => ?_⟩
  have first := calls.gsBase
  have second := calls.kernelGsBase
  rw [resumed.gsBase, resumed.kernelGsBase, handled.gs.1, handled.gs.2, first, second, same]
  cases fromUser f.cs
  · exact ⟨rfl, rfl⟩
  · exact ⟨rfl, rfl⟩

def interrupted : Machine := ⟨fun _ => 0x1000 - 40, fun _ => 0, 0, 0, 1, 2, false, false, true, .line 0⟩

def returning : Env := ⟨fun _ => 0, fun _ m => some (m.set .rsp (m.reg .rsp + 8))⟩

theorem interrupts_resume_timer : ∃ e, e ∈ eval (step (code 7 32) returning) (interrupted.goto 42) ∧ e.control = .resumed 0 0 0 0 ∧
    e.gsBase = 1 ∧ e.kernelGsBase = 2 := by
  let f : Frame := ⟨fun _ => 0, 0, 0, 0, 0, 0, 0, 0⟩
  have delivered : Holds interrupted.memory (interrupted.reg .rsp) ((none : Option Word).toList ++ f.pushed) :=
    ⟨by decide, by decide, by decide, by decide, by decide, trivial⟩
  have place : interrupted.reg .rsp = 0x1000 - BitVec.ofNat 64 (8 * ((none : Option Word).toList ++ f.pushed).length) := rfl
  obtain ⟨c, _, calls, resumes⟩ := interrupts_resume 7 32 returning (by decide) place delivered
  have handled : Handled c (c.set .rsp (c.reg .rsp + 8)) ⟨interrupted.reg, 32, 0, 0, 0, 0, 0, 0⟩ := ⟨rfl, calls.frame, rfl, rfl⟩
  obtain ⟨e, evaluated, resumed, bases⟩ := resumes _ _ rfl handled
  exact ⟨e, evaluated, resumed.control, bases rfl⟩

end Code

end Elysium.InterruptFrames
