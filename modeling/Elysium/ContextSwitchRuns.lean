import Elysium.ContextSwitch

set_option autoImplicit false

namespace Elysium.ContextSwitch

open LittleEndian (Memory load store store_outside)
open StateTransition (Reaches eval mem_eval)
open X86 (Word Reg Within Below word_same store_word)
open X86.Frames

-- Where the threads of a CPU have their x86_64_thread_t and their kernel stacks, and the address space each of
-- them runs in.
structure Layout (T A : Type) where
  rspOffset : Word
  place : T → Word
  base : T → Word
  size : Nat
  space : T → A
  small : size < 2 ^ 63
  disjoint : ∀ t t' b, Below (base t) size b → Below (base t') size b → t = t'
  own : ∀ t t' b, Within (place t + rspOffset) 8 b → Within (place t' + rspOffset) 8 b → t = t'
  apart : ∀ t t' b, Below (base t) size b → ¬ Within (place t' + rspOffset) 8 b

-- What a thread has when it calls x86_64_sched_context_switch, as it is to be when the call returns.
structure Context (F : Type) where
  reg : Reg → Word
  rsp : Word
  target : Word
  memory : Memory
  fs : Word
  gs : Word
  fpu : Option F

-- fs, gs and fpuArea are fields of the threads; a thread without an area has a null pointer there. kernelGsBase of the
-- machine is X86_64_MSR_KERNEL_GS_BASE. The code does not have suspended, which says what the threads were left with.
structure State (T F A : Type) where
  machine : Machine
  current : T
  fsBase : Word
  fpu : F
  addressSpace : A
  rsp0 : Word
  fs : T → Word
  gs : T → Word
  fpuArea : T → Option F
  suspended : T → Option (Context F)

section Steps

variable {T F A : Type} [DecidableEq T] (l : Layout T A)

-- The words that the fields of an init_stack_kernel_t or an init_stack_user_t hold from thread_init on. The page is
-- zeroed before.
def storeWords : Word → List Word → Memory → Memory
  | _, [], memory => memory
  | a, value :: rest, memory => storeWords (a + 8) rest (store a value 8 memory)

structure InitStack where
  size : Nat
  words : List Word

def initStackKernel (commonThreadInit entry kernelThreadExit : Word) : InitStack := ⟨88, [commonThreadInit, entry, kernelThreadExit]⟩

def initStackUser (commonThreadInit userspaceInit ip sp : Word) : InitStack := ⟨80, [commonThreadInit, userspaceInit, ip, sp]⟩

def InitStack.top (i : InitStack) (base : Word) : Word := base - BitVec.ofNat 64 i.size

def InitStack.write (i : InitStack) (base : Word) (size : Nat) (memory : Memory) : Memory :=
  storeWords (i.top base + 48) i.words fun b => if (base - 1 - b).toNat < size then 0 else memory b

def initMemory (t : T) (i : InitStack) (memory : Memory) : Memory :=
  store (l.place t + l.rspOffset) (i.top (l.base t)) 8 (i.write (l.base t) l.size memory)

-- What a new thread is suspended with, the first of the words being where it is switched to.
def initContext (base : Word) (i : InitStack) (memory : Memory) (fpu : F) : Context F :=
  ⟨fun _ => 0, i.top base + 56, load memory (i.top base + 48) 8, memory, 0, 0, some fpu⟩

def createThread (t : T) (i : InitStack) (fpu : F) (s : State T F A) : State T F A :=
  { s with
    machine := { s.machine with memory := initMemory l t i s.machine.memory }
    -- What the FPU holds is put aside for as long as the area of the thread is made in it, where the current thread has one.
    fpu := if (s.fpuArea s.current).isSome then s.fpu else fpu
    fs := Function.update s.fs t 0
    gs := Function.update s.gs t 0
    fpuArea := Function.update (Function.update s.fpuArea s.current ((s.fpuArea s.current).map fun _ => s.fpu)) t (some fpu)
    suspended := Function.update s.suspended t (some (initContext (l.base t) i (initMemory l t i s.machine.memory) fpu)) }

-- sched_switch up to the call of the assembler function. The area of the next thread is there.
def beforeSwitch (next : T) (fpu : F) (s : State T F A) : State T F A :=
  { s with
    addressSpace := l.space next
    rsp0 := l.base next
    gs := Function.update s.gs s.current s.machine.kernelGsBase
    fs := Function.update s.fs s.current s.fsBase
    fsBase := s.fs next
    fpuArea := Function.update s.fpuArea s.current ((s.fpuArea s.current).map fun _ => s.fpu)
    fpu := fpu
    machine := { ((s.machine.set .rdi (l.place s.current)).set .rsi (l.place next)) with kernelGsBase := s.gs next } }

-- The call of the assembler function.
def called (next : T) (fpu : F) (s : State T F A) : Machine := (beforeSwitch l next fpu s).machine

def leaving (s : State T F A) : Context F where
  reg := s.machine.reg
  rsp := s.machine.reg .rsp + 8
  target := s.machine.word (s.machine.reg .rsp)
  memory := s.machine.memory
  fs := s.fsBase
  gs := s.machine.kernelGsBase
  fpu := (s.fpuArea s.current).map fun _ => s.fpu

-- A stack pointer with the return address at it, and with room for what is pushed.
def Seated (t : T) (rsp : Word) : Prop := 8 ≤ (l.base t - rsp).toNat ∧ (l.base t - rsp).toNat + 48 ≤ l.size

-- A switch, when it has returned on the stack of the next thread.
structure Switch (env : Env) (s : State T F A) (next : T) (s' : State T F A) : Prop where
  other : next ≠ s.current
  alive : s.suspended next ≠ none
  seated : Seated l s.current (s.machine.reg .rsp)
  made : ∃ fpu m', s.fpuArea next = some fpu ∧ m' ∈ eval (step (code l.rspOffset) env) ((called l next fpu s).goto 0) ∧
    s' = { beforeSwitch l next fpu s with
      machine := m'
      current := next
      suspended := Function.update (Function.update s.suspended next none) s.current (some (leaving s)) }

-- What a CPU does: whatever runs on it, and on the others, keeps off the stacks of the threads that are suspended here.
inductive Steps (env : Env) : State T F A → State T F A → Prop where
  | run (s : State T F A) (m : Machine) (fsBase : Word) (fpu : F)
      (keeps : ∀ t, s.suspended t ≠ none → ∀ b, Below (l.base t) l.size b ∨ Within (l.place t + l.rspOffset) 8 b →
        m.memory b = s.machine.memory b) : Steps env s { s with machine := m, fsBase := fsBase, fpu := fpu }
  | create (s : State T F A) (t : T) (i : InitStack) (fpu : F) (new : s.suspended t = none) (other : t ≠ s.current)
      (fits : 56 ≤ i.size ∧ i.size ≤ l.size ∧ 48 + 8 * i.words.length ≤ i.size ∧ i.words ≠ []) : Steps env s (createThread l t i fpu s)
  | switch (s s' : State T F A) (next : T) (switched : Switch l env s next s') : Steps env s s'

-- A CPU before its first thread was created.
def Booted (s : State T F A) : Prop := ∀ t, s.suspended t = none

end Steps

section Frames

variable {T F A : Type} {l : Layout T A} {s s' : State T F A} {t : T} {c : Context F}

-- The bytes that belong to a thread.
def Layout.Owns (l : Layout T A) (t : T) (b : Word) : Prop := Below (l.base t) l.size b ∨ Within (l.place t + l.rspOffset) 8 b

-- The stack of a thread that is suspended, up to its base.
structure Frame (l : Layout T A) (s : State T F A) (t : T) (c : Context F) : Prop where
  pointer : load s.machine.memory (l.place t + l.rspOffset) 8 = c.rsp - 56
  words : Holds s.machine.memory (c.rsp - 56) (saved.reverse.map c.reg ++ [c.target])
  above : ∀ b, Within c.rsp (l.base t - c.rsp).toNat b → s.machine.memory b = c.memory b
  low : 56 ≤ (l.base t - (c.rsp - 56)).toNat
  high : (l.base t - (c.rsp - 56)).toNat ≤ l.size
  fs : s.fs t = c.fs
  gs : s.gs t = c.gs
  fpu : s.fpuArea t = c.fpu

structure Kept (l : Layout T A) (s : State T F A) : Prop where
  current : s.suspended s.current = none
  frames : ∀ t c, s.suspended t = some c → Frame l s t c

theorem owns_disjoint {t' : T} {b : Word} (first : l.Owns t b) (second : l.Owns t' b) : t = t' := by
  rcases first with stack | field <;> rcases second with stack' | field'
  · exact l.disjoint t t' b stack stack'
  · exact absurd field' (l.apart t t' b stack)
  · exact absurd field (l.apart t' t b stack')
  · exact l.own t t' b field field'

theorem frame_owns {rsp b : Word} (low : 56 ≤ (l.base t - (rsp - 56)).toNat) (high : (l.base t - (rsp - 56)).toNat ≤ l.size)
    (inside : Within (rsp - 56) 56 b ∨ Within rsp (l.base t - rsp).toNat b) : Below (l.base t) l.size b := by
  have small := l.small
  unfold Within Below at *
  rcases inside with word | above <;> bv_omega

theorem frame_congr (frame : Frame l s t c) (same : ∀ b, l.Owns t b → s'.machine.memory b = s.machine.memory b) (fs : s'.fs t = s.fs t)
    (gs : s'.gs t = s.gs t) (fpu : s'.fpuArea t = s.fpuArea t) : Frame l s' t c := by
  obtain ⟨pointer, words, above, low, high, isFs, isGs, isFpu⟩ := frame
  refine ⟨?_, ?_, fun b inside => ?_, low, high, fs.trans isFs, gs.trans isGs, fpu.trans isFpu⟩
  · rw [word_same fun b inside => same b (.inr inside)]
    exact pointer
  · exact holds_congr (fun b inside => same b (.inl (frame_owns low high (.inl inside)))) (by simp [saved]) words
  · rw [same b (.inl (frame_owns low high (.inr inside)))]
    exact above b inside

-- The pushes of a thread stay on its stack.
theorem seated_owns {rsp b : Word} (seated : Seated l t rsp) (inside : Below rsp 48 b ∨ Within (rsp - 48) 56 b) : Below (l.base t) l.size b := by
  obtain ⟨low, high⟩ := seated
  have small := l.small
  unfold Within Below at *
  rcases inside with below | word <;> bv_omega

theorem run_keeps (kept : Kept l s) {m : Machine} {fsBase : Word} {fpu : F}
    (keeps : ∀ t, s.suspended t ≠ none → ∀ b, l.Owns t b → m.memory b = s.machine.memory b) :
    Kept l { s with machine := m, fsBase := fsBase, fpu := fpu } :=
  ⟨kept.current, fun t c found => frame_congr (kept.frames t c found) (keeps t (found ▸ Option.some_ne_none c)) rfl rfl rfl⟩

end Frames

section Create

variable {T F A : Type} {l : Layout T A} {s : State T F A} {t : T} {i : InitStack}

theorem store_words_outside {a b : Word} (words : List Word) (small : 8 * words.length < 2 ^ 64) (outside : ¬ Within a (8 * words.length) b)
    (memory : Memory) : storeWords a words memory b = memory b := by
  induction words generalizing a memory with
  | nil => rfl
  | cons value rest ih =>
      rw [List.length_cons] at outside small
      unfold Within at outside ih
      rw [storeWords, ih (by omega) (by bv_omega)]
      exact store_outside _ _ _ (by bv_omega)

theorem load_zero (a : Word) (size : Nat) : load (fun _ => 0) a size = 0 := by
  induction size with
  | zero => rfl
  | succ size ih =>
      rw [load, ih]
      simp

theorem zero_word {a : Word} {memory : Memory} (zero : ∀ b, Within a 8 b → memory b = 0) : load memory a 8 = 0 := by
  have same : load memory a 8 = load (fun _ => 0) a 8 := word_same fun b inside => zero b inside
  rw [same, load_zero]

theorem zero_words {a : Word} {memory : Memory} (regs : List Reg) (small : 8 * regs.length < 2 ^ 64)
    (zero : ∀ b, Within a (8 * regs.length) b → memory b = 0) : Holds memory a (regs.map fun _ => 0) := by
  induction regs generalizing a with
  | nil => trivial
  | cons r rest ih =>
      rw [List.length_cons] at small zero
      unfold Within at zero ih
      refine ⟨zero_word fun b inside => zero b ?_, ih (by omega) fun b inside => zero b ?_⟩
      · unfold Within at inside
        omega
      · bv_omega

-- What making a stack writes lies on that stack.
theorem write_outside {base b : Word} {size : Nat} {memory : Memory} (fits : 48 + 8 * i.words.length ≤ i.size ∧ i.size ≤ size) (small : size < 2 ^ 63)
    (outside : ¬ Below base size b) : i.write base size memory b = memory b := by
  rw [InitStack.write, store_words_outside i.words (by omega)]
  · exact if_neg outside
  · unfold Below at outside
    unfold Within InitStack.top
    bv_omega

-- The registers it is switched to with are zero.
theorem write_zero {base b : Word} {size : Nat} {memory : Memory} (fits : 48 + 8 * i.words.length ≤ i.size ∧ i.size ≤ size) (small : size < 2 ^ 63)
    (inside : Within (i.top base) 48 b) : i.write base size memory b = 0 := by
  unfold Within InitStack.top at inside
  rw [InitStack.write, store_words_outside i.words (by omega)]
  · refine if_pos ?_
    bv_omega
  · unfold Within InitStack.top
    bv_omega

theorem init_outside {b : Word} {memory : Memory} (fits : 48 + 8 * i.words.length ≤ i.size ∧ i.size ≤ l.size) (outside : ¬ l.Owns t b) :
    initMemory l t i memory b = memory b := by
  rw [Layout.Owns, not_or] at outside
  exact (store_outside _ _ _ outside.2).trans (write_outside fits l.small outside.1)

theorem init_frame (fits : 56 ≤ i.size ∧ i.size ≤ l.size ∧ 48 + 8 * i.words.length ≤ i.size) {memory : Memory} {fpu : F}
    (held : s.machine.memory = initMemory l t i memory) (fs : s.fs t = 0) (gs : s.gs t = 0) (area : s.fpuArea t = some fpu) :
    Frame l s t (initContext (l.base t) i (initMemory l t i memory) fpu) := by
  obtain ⟨least, most, words⟩ := fits
  have small := l.small
  have back : i.top (l.base t) + 56 - 56 = i.top (l.base t) := BitVec.add_sub_cancel _ _
  have offset : (l.base t - (i.top (l.base t) + 56 - 56)).toNat = i.size := by
    unfold InitStack.top
    bv_omega
  have low : 56 ≤ (l.base t - (i.top (l.base t) + 56 - 56)).toNat := offset ▸ least
  have high : (l.base t - (i.top (l.base t) + 56 - 56)).toNat ≤ l.size := offset ▸ most
  refine ⟨?_, ?_, fun b _ => congrFun held b, low, high, fs, gs, area⟩
  · rw [held]
    exact (store_word _ _ _).trans back.symm
  · rw [held]
    show Holds (initMemory l t i memory) (i.top (l.base t) + 56 - 56) _
    rw [back, holds_append]
    refine ⟨zero_words saved.reverse (by decide) fun b inside => ?_, rfl, trivial⟩
    -- The field is not on the stack, so that storing it leaves the zeroes alone.
    have stack : Below (l.base t) l.size b := frame_owns low high (.inl (by
      rw [back]
      exact Nat.lt_of_lt_of_le inside (by decide)))
    exact (store_outside _ _ _ (l.apart t t b stack)).trans (write_zero ⟨words, most⟩ small inside)

theorem create_keeps [DecidableEq T] (kept : Kept l s) {fpu : F} (other : t ≠ s.current)
    (fits : 56 ≤ i.size ∧ i.size ≤ l.size ∧ 48 + 8 * i.words.length ≤ i.size) : Kept l (createThread l t i fpu s) := by
  refine ⟨(Function.update_of_ne other.symm _ _).trans kept.current, fun t' c found => ?_⟩
  by_cases same : t' = t
  · subst same
    have made : (createThread l t' i fpu s).suspended t' = some (initContext (l.base t') i (initMemory l t' i s.machine.memory) fpu) :=
      Function.update_self _ _ _
    obtain rfl := Option.some.inj (made.symm.trans found)
    exact init_frame fits rfl (Function.update_self _ _ _) (Function.update_self _ _ _) (Function.update_self _ _ _)
  · have before : s.suspended t' = some c := by
      rw [← found]
      exact (Function.update_of_ne same _ _).symm
    have notCurrent : t' ≠ s.current := by
      rintro rfl
      rw [kept.current] at before
      cases before
    exact frame_congr (kept.frames t' c before) (fun b owned => init_outside ⟨fits.2.2, fits.2.1⟩ fun new => same (owns_disjoint owned new))
      (Function.update_of_ne same _ _) (Function.update_of_ne same _ _)
      ((Function.update_of_ne same _ _).trans (Function.update_of_ne notCurrent _ _))

end Create

section Switching

variable {T F A : Type} [DecidableEq T] {l : Layout T A} {env : Env} {s s' : State T F A} {t next : T} {c : Context F} {fpu : F}

theorem called_fields (l : Layout T A) (next : T) (fpu : F) (s : State T F A) : (called l next fpu s).reg .rdi = l.place s.current ∧ (called l next fpu s).reg .rsi = l.place next ∧
    (called l next fpu s).reg .rsp = s.machine.reg .rsp ∧ (called l next fpu s).memory = s.machine.memory ∧
    (called l next fpu s).kernelGsBase = s.gs next := ⟨rfl, rfl, rfl, rfl, rfl⟩

-- The call leaves alone what belongs to other threads.
theorem left_others (seated : Seated l s.current (s.machine.reg .rsp)) (other : t ≠ s.current) {b : Word} (owned : l.Owns t b) :
    (left l.rspOffset (called l next fpu s)).memory b = s.machine.memory b := by
  obtain ⟨rdi, _, rsp, memory, _⟩ := called_fields l next fpu s
  rw [left_memory, memory]
  · rw [rsp]
    exact fun inside => other (owns_disjoint owned (.inl (seated_owns seated (.inl inside))))
  · rw [rdi]
    exact fun inside => other (owns_disjoint owned (.inr inside))

-- What a thread is resumed with is what it was suspended with.
structure Resumed (l : Layout T A) (s : State T F A) (next : T) (c : Context F) (s' : State T F A) : Prop where
  control : s'.machine.control = .returned c.target
  saved : ∀ r ∈ ContextSwitch.saved, s'.machine.reg r = c.reg r
  rsp : s'.machine.reg .rsp = c.rsp
  stack : ∀ b, Within c.rsp (l.base next - c.rsp).toNat b → s'.machine.memory b = c.memory b
  fs : s'.fsBase = c.fs
  gs : s'.machine.kernelGsBase = c.gs
  fpu : some s'.fpu = c.fpu
  previous : s'.machine.reg .rax = l.place s.current ∧ s'.machine.reg .rdi = l.place s.current
  space : s'.addressSpace = l.space next ∧ s'.rsp0 = l.base next
  current : s'.current = next
  suspended : ∀ t, s'.suspended t = if t = s.current then some (leaving s) else if t = next then none else s.suspended t

theorem called_returns (env : Env) (fpu : F) (kept : Kept l s) (seated : Seated l s.current (s.machine.reg .rsp)) (other : next ≠ s.current)
    (found : s.suspended next = some c) : ∃ m', Reaches (step (code l.rspOffset) env) ((called l next fpu s).goto 0) m' ∧
      Returned (called l next fpu s) m' (c.rsp - 56) c.target c.reg ∧ m'.memory = (left l.rspOffset (called l next fpu s)).memory := by
  obtain ⟨pointer, words, above, low, high, fs, gs, area⟩ := kept.frames next c found
  obtain ⟨rdi, rsi, rsp, memory, _⟩ := called_fields l next fpu s
  refine switch_reaches ?_ ?_
  · rw [Machine.word, rsi, word_same fun b inside => left_others seated other (.inr inside)]
    exact pointer
  · exact holds_congr (fun b inside => left_others seated other (.inl (frame_owns low high (.inl inside)))) (by simp [saved]) words

theorem returned_ends {m m' : Machine} {top target : Word} {values : Reg → Word} (returned : Returned m m' top target values) (code : List Instr) :
    step code env m' = none := by
  rw [step, returned.control]

theorem switch_resumed (kept : Kept l s) (switch : Switch l env s next s') (found : s.suspended next = some c) :
    Resumed l s next c s' ∧ s'.machine.memory = (left l.rspOffset (called l next s'.fpu s)).memory ∧
      s'.fs = Function.update s.fs s.current s.fsBase ∧ s'.gs = Function.update s.gs s.current s.machine.kernelGsBase ∧
      s'.fpuArea = Function.update s.fpuArea s.current ((s.fpuArea s.current).map fun _ => s.fpu) := by
  obtain ⟨other, _, seated, fpu, m', area, evaluated, rfl⟩ := switch
  obtain ⟨_, _, above, low, high, fs, gs, isArea⟩ := kept.frames next c found
  obtain ⟨m'', reaches, returned, memory⟩ := called_returns env fpu kept seated other found
  obtain rfl : m' = m'' := Part.mem_unique evaluated (mem_eval.mpr ⟨reaches, returned_ends returned _⟩)
  refine ⟨⟨returned.control, returned.saved, ?_, fun b inside => ?_, fs, returned.gs.2.trans gs, area.symm.trans isArea,
    ⟨returned.rax, returned.rdi⟩, ⟨rfl, rfl⟩, rfl, fun t => ?_⟩, memory, rfl, rfl, rfl⟩
  · exact returned.rsp.trans (BitVec.sub_add_cancel _ _)
  · have owned : l.Owns next b := .inl (frame_owns low high (.inr inside))
    exact (congrFun memory b).trans ((left_others seated other owned).trans (above b inside))
  · by_cases isCurrent : t = s.current
    · subst isCurrent
      rw [if_pos rfl]
      exact Function.update_self _ _ _
    · rw [if_neg isCurrent]
      refine (Function.update_of_ne isCurrent _ _).trans ?_
      by_cases isNext : t = next
      · rw [if_pos isNext, isNext]
        exact Function.update_self _ _ _
      · rw [if_neg isNext]
        exact Function.update_of_ne isNext _ _

-- What the thread that is left has on its stack.
theorem leaving_frame (seated : Seated l s.current (s.machine.reg .rsp)) (memory : s'.machine.memory = (left l.rspOffset (called l next fpu s)).memory)
    (fs : s'.fs s.current = s.fsBase) (gs : s'.gs s.current = s.machine.kernelGsBase)
    (area : s'.fpuArea s.current = (s.fpuArea s.current).map fun _ => s.fpu) : Frame l s' s.current (leaving s) := by
  obtain ⟨rdi, _, rsp, same, _⟩ := called_fields l next fpu s
  have small := l.small
  have place : s.machine.reg .rsp + 8 - 56 = s.machine.reg .rsp - 48 := by bv_omega
  have values : saved.reverse.map (called l next fpu s).reg = saved.reverse.map s.machine.reg := rfl
  obtain ⟨least, most⟩ := seated
  refine ⟨?_, ?_, fun b inside => ?_, ?_, ?_, fs, gs, area⟩
  · have pointer := left_pointer l.rspOffset (called l next fpu s)
    rw [rdi, rsp, Machine.word] at pointer
    rw [memory, pointer]
    exact place.symm
  · have words := left_holds l.rspOffset (called l next fpu s) rfl fun b inside => by
      rw [rdi]
      rw [rsp] at inside
      exact l.apart _ _ b (seated_owns ⟨least, most⟩ (.inr inside))
    rw [rsp, values] at words
    rw [memory]
    show Holds _ (s.machine.reg .rsp + 8 - 56) _
    rw [place]
    exact words
  · have stack : Below (l.base s.current) l.size b := by
      unfold Within leaving at inside
      unfold Below
      dsimp only at inside
      bv_omega
    rw [memory, left_memory, same]
    · rfl
    · rw [rsp]
      unfold Within leaving at inside
      unfold Below
      dsimp only at inside
      bv_omega
    · rw [rdi]
      exact l.apart _ _ b stack
  · show 56 ≤ (l.base s.current - (s.machine.reg .rsp + 8 - 56)).toNat
    bv_omega
  · show (l.base s.current - (s.machine.reg .rsp + 8 - 56)).toNat ≤ l.size
    bv_omega

theorem switch_keeps (kept : Kept l s) (switch : Switch l env s next s') : Kept l s' := by
  obtain ⟨c, found⟩ := Option.ne_none_iff_exists'.mp switch.alive
  obtain ⟨resumed, memory, fs, gs, area⟩ := switch_resumed kept switch found
  refine ⟨?_, fun t c' there => ?_⟩
  · rw [resumed.current, resumed.suspended, if_neg switch.other, if_pos rfl]
  · rw [resumed.suspended] at there
    by_cases isCurrent : t = s.current
    · rw [if_pos isCurrent] at there
      obtain rfl := Option.some.inj there
      subst isCurrent
      refine leaving_frame switch.seated memory ?_ ?_ ?_
      · rw [fs, Function.update_self]
      · rw [gs, Function.update_self]
      · rw [area, Function.update_self]
    · rw [if_neg isCurrent] at there
      by_cases isNext : t = next
      · rw [if_pos isNext] at there
        cases there
      · rw [if_neg isNext] at there
        refine frame_congr (kept.frames t c' there) (fun b owned => ?_) ?_ ?_ ?_
        · rw [memory]
          exact left_others switch.seated isCurrent owned
        · rw [fs, Function.update_of_ne isCurrent]
        · rw [gs, Function.update_of_ne isCurrent]
        · rw [area, Function.update_of_ne isCurrent]

theorem steps_keep (kept : Kept l s) (step : Steps l env s s') : Kept l s' := by
  cases step with
  | run m fsBase fpu keeps => exact run_keeps kept keeps
  | create t i fpu new other fits => exact create_keeps kept other ⟨fits.1, fits.2.1, fits.2.2.1⟩
  | switch _ next switched => exact switch_keeps kept switched

omit [DecidableEq T] in
theorem booted_keeps (booted : Booted s) : Kept l s :=
  ⟨booted s.current, fun t c found => by rw [booted t] at found; cases found⟩

theorem runs_keep {s₀ : State T F A} (booted : Booted s₀) (run : Relation.ReflTransGen (Steps l env) s₀ s) : Kept l s := by
  induction run with
  | refl => exact booted_keeps booted
  | tail _ step ih => exact steps_keep ih step

-- A thread that is suspended can be switched to, unless it has no area.
theorem switch_there (env : Env) (kept : Kept l s) (found : s.suspended t = some c) (area : c.fpu ≠ none)
    (seated : Seated l s.current (s.machine.reg .rsp)) : ∃ s', Switch l env s t s' := by
  have other : t ≠ s.current := by
    rintro rfl
    rw [kept.current] at found
    cases found
  obtain ⟨fpu, isFpu⟩ := Option.ne_none_iff_exists'.mp area
  obtain ⟨m', reaches, returned, _⟩ := called_returns env fpu kept seated other found
  refine ⟨_, other, found ▸ Option.some_ne_none c, seated, fpu, m', (kept.frames t c found).fpu.trans isFpu, ?_, rfl⟩
  exact mem_eval.mpr ⟨reaches, returned_ends returned _⟩

-- Steps after which another thread is the current one.
def Away (l : Layout T A) (env : Env) (t : T) (s s' : State T F A) : Prop := Steps l env s s' ∧ s'.current ≠ t

theorem away_suspended (kept : Kept l s) (found : s.suspended t = some c) (away : Away l env t s s') : s'.suspended t = some c := by
  obtain ⟨step, elsewhere⟩ := away
  cases step with
  | run m fsBase fpu keeps => exact found
  | create t' i fpu new other fits =>
      have notNew : t ≠ t' := by
        rintro rfl
        rw [new] at found
        cases found
      exact (Function.update_of_ne notNew _ _).trans found
  | switch _ next switched =>
      obtain ⟨c', there⟩ := Option.ne_none_iff_exists'.mp switched.alive
      obtain ⟨resumed, _⟩ := switch_resumed kept switched there
      rw [resumed.suspended, if_neg, if_neg (resumed.current ▸ elsewhere.symm)]
      · exact found
      · rintro rfl
        rw [kept.current] at found
        cases found

theorem runs_suspended (kept : Kept l s) (found : s.suspended t = some c) (away : Relation.ReflTransGen (Away l env t) s s') :
    Kept l s' ∧ s'.suspended t = some c := by
  induction away with
  | refl => exact ⟨kept, found⟩
  | tail _ step ih => exact ⟨steps_keep ih.1 step.1, away_suspended ih.1 ih.2 step⟩

end Switching

end Elysium.ContextSwitch
