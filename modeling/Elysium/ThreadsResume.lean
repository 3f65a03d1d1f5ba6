import Elysium.ContextSwitchRuns

set_option autoImplicit false

namespace Elysium.ContextSwitch

open LittleEndian (Memory)
open Relation (ReflTransGen)
open StateTransition (Reaches eval mem_eval)
open X86 (Word Reg Within Below)
open X86.Frames

section Resume

variable {T F A : Type} [DecidableEq T] {l : Layout T A} {env : Env} {s₀ s₁ s₁' s₂ : State T F A} {next : T}

-- A thread that was left is there to be switched to for as long as it was not, and the switch back is a return from
-- the call that left it, with all that the call has to preserve.
theorem left_threads_resume (booted : Booted s₀) (run : ReflTransGen (Steps l env) s₀ s₁) (switched : Switch l env s₁ next s₁')
    (away : ReflTransGen (Away l env s₁.current) s₁' s₂) (area : s₁.fpuArea s₁.current ≠ none) (seated : Seated l s₂.current (s₂.machine.reg .rsp)) :
    (∃ s₂', Switch l env s₂ s₁.current s₂') ∧ ∀ s₂', Switch l env s₂ s₁.current s₂' → Resumed l s₂ s₁.current (leaving s₁) s₂' := by
  have kept : Kept l s₁ := runs_keep booted run
  obtain ⟨c, there⟩ := Option.ne_none_iff_exists'.mp switched.alive
  have found : s₁'.suspended s₁.current = some (leaving s₁) := by
    rw [(switch_resumed kept switched there).1.suspended, if_pos rfl]
  obtain ⟨later, still⟩ := runs_suspended (switch_keeps kept switched) found away
  refine ⟨switch_there env later still ?_ seated, fun s₂' back => (switch_resumed later back still).1⟩
  intro none
  exact area (Option.map_eq_none_iff.mp none)

def twoThreads : Layout Bool Unit where
  rspOffset := 0
  place t := cond t 0x1000 0x2000
  base t := cond t 0x20000 0x10000
  size := 256
  space _ := ()
  small := by decide
  disjoint t t' b first second := by
    unfold Below at first second
    cases t <;> cases t' <;> simp only [cond_true, cond_false] at first second ⊢ <;> bv_omega
  own t t' b first second := by
    unfold Within at first second
    cases t <;> cases t' <;> simp only [cond_true, cond_false] at first second ⊢ <;> bv_omega
  apart t t' b stack field := by
    unfold Below at stack
    unfold Within at field
    cases t <;> cases t' <;> simp only [cond_true, cond_false] at stack field <;> bv_omega

def atBoot : State Bool Unit Unit where
  machine := ⟨fun _ => 0xff80, fun _ => 0, 0, 0, 0, 0, false, false, false, .line 0⟩
  current := false
  fsBase := 0
  fpu := ()
  addressSpace := ()
  rsp0 := 0
  fs _ := 0
  gs _ := 0
  fpuArea _ := some ()
  suspended _ := none

def noCalls : Env := ⟨fun _ => 0, fun _ _ => none⟩

theorem at_boot_booted : Booted atBoot := fun _ => rfl

-- With another thread there is a run from it that comes to a switch.
theorem at_boot_switches {i : InitStack} (fits : 56 ≤ i.size ∧ i.size ≤ 256 ∧ 48 + 8 * i.words.length ≤ i.size) :
    ∃ s, Switch twoThreads noCalls (createThread twoThreads true i () atBoot) true s ∧ s.current = true ∧
      s.machine.reg .rsp = i.top 0x20000 + 56 := by
  have kept : Kept twoThreads (createThread twoThreads true i () atBoot) := create_keeps (booted_keeps at_boot_booted) (by decide) fits
  have found : (createThread twoThreads true i () atBoot).suspended true = some (initContext 0x20000 i (initMemory twoThreads true i fun _ => 0) ()) :=
    rfl
  have seated : Seated twoThreads false 0xff80 := ⟨by decide, by decide⟩
  obtain ⟨s, switched⟩ := switch_there noCalls kept found (Option.some_ne_none ()) seated
  obtain ⟨resumed, _⟩ := switch_resumed kept switched found
  exact ⟨s, switched, resumed.current, resumed.rsp⟩

theorem left_threads_resume_two : ∃ s s' : State Bool Unit Unit, Switch twoThreads noCalls s true s' ∧ (∃ s'', Switch twoThreads noCalls s' false s'') ∧
    ∀ s'', Switch twoThreads noCalls s' false s'' → Resumed twoThreads s' false (leaving s) s'' := by
  have fits : 56 ≤ (initStackKernel 1 2 3).size ∧ (initStackKernel 1 2 3).size ≤ 256 ∧
      48 + 8 * (initStackKernel 1 2 3).words.length ≤ (initStackKernel 1 2 3).size := by decide
  have first : Steps twoThreads noCalls atBoot (createThread twoThreads true (initStackKernel 1 2 3) () atBoot) :=
    .create atBoot true _ () rfl (by decide) ⟨fits.1, fits.2.1, fits.2.2, List.cons_ne_nil _ _⟩
  obtain ⟨s', switched, current, rsp⟩ := at_boot_switches fits
  refine ⟨_, s', switched, left_threads_resume at_boot_booted (.single first) switched .refl (Option.some_ne_none ()) ?_⟩
  rw [current, rsp]
  exact ⟨by decide, by decide⟩

end Resume

section Userspace

def zeroedRegs : List Reg := [.rbp, .rax, .rbx, .rdx, .rsi, .rdi, .r8, .r9, .r10, .r12, .r13, .r14, .r15]

-- x86_64_sched_userspace_init.
def userspaceInit : List Instr := [
  .pop .rcx,
  .cli,
  .swapgs,
  .pop .rax,
  .mov .rsp .rax,
  .xor .rbp .rbp, .xor .rax .rax, .xor .rbx .rbx, .xor .rdx .rdx, .xor .rsi .rsi, .xor .rdi .rdi, .xor .r8 .r8, .xor .r9 .r9,
  .xor .r10 .r10, .xor .r12 .r12, .xor .r13 .r13, .xor .r14 .r14, .xor .r15 .r15,
  .movImm .r11 0x202,
  .sysret]

variable {env : Env} {m : Machine}

def clears (regs : List Reg) (m : Machine) : Machine := regs.foldl (fun m r => { m.set r 0 with zero := true }) m

theorem reaches_clears {code : List Instr} (regs : List Reg) (n : Nat) (m : Machine)
    (same : (code.drop n).take regs.length = regs.map fun r => .xor r r) :
    Reaches (step code env) (m.goto n) ((clears regs m).goto (n + regs.length)) := by
  refine reaches_block (fun m n r => ?_) regs n m (placed_of same)
  simp only [exec, Machine.goto, Machine.set, BitVec.xor_self]
  rfl

theorem clears_reg (regs : List Reg) (m : Machine) (r : Reg) : (clears regs m).reg r = if r ∈ regs then 0 else m.reg r := by
  induction regs generalizing m with
  | nil => rfl
  | cons dst rest ih =>
      refine (ih _).trans ?_
      by_cases later : r ∈ rest
      · rw [if_pos later, if_pos (List.mem_cons_of_mem dst later)]
      · rw [if_neg later]
        by_cases same : r = dst
        · rw [if_pos (List.mem_cons.mpr (.inl same)), same]
          exact Function.update_self _ _ _
        · rw [if_neg fun member => (List.mem_cons.mp member).elim same later]
          exact Function.update_of_ne same _ _

theorem clears_fields (regs : List Reg) (m : Machine) : (clears regs m).gsBase = m.gsBase ∧ (clears regs m).kernelGsBase = m.kernelGsBase ∧
    (clears regs m).interrupts = m.interrupts := by
  induction regs generalizing m with
  | nil => exact ⟨rfl, rfl, rfl⟩
  | cons dst rest ih => exact ih { m.set dst 0 with zero := true }

-- What a user thread starts with. rcx and r11 are what sysret takes the place and the flags from.
structure Entered (m m' : Machine) (ip sp : Word) : Prop where
  control : m'.control = .user ip 0x202
  rsp : m'.reg .rsp = sp
  zero : ∀ r, r ≠ .rsp → r ≠ .rcx → r ≠ .r11 → m'.reg r = 0
  gs : m'.gsBase = m.kernelGsBase ∧ m'.kernelGsBase = m.gsBase
  interrupts : m'.interrupts = false

-- The machine at the xors.
def swapped (m : Machine) : Machine :=
  let m := { m.pop .rcx with interrupts := false, gsBase := m.kernelGsBase, kernelGsBase := m.gsBase }
  (m.pop .rax).set .rsp ((m.pop .rax).reg .rax)

theorem swapped_reaches (m : Machine) : Reaches (step userspaceInit env) (m.goto 0) ((swapped m).goto 5) :=
  reaches_line rfl (reaches_line rfl (reaches_line rfl (reaches_line rfl (reaches_line rfl .refl))))

theorem swapped_fields (m : Machine) : (swapped m).reg .rcx = m.word (m.reg .rsp) ∧ (swapped m).reg .rsp = m.word (m.reg .rsp + 8) ∧
    (swapped m).gsBase = m.kernelGsBase ∧ (swapped m).kernelGsBase = m.gsBase ∧ (swapped m).interrupts = false := ⟨rfl, rfl, rfl, rfl, rfl⟩

theorem userspace_reaches (env : Env) {ip sp : Word} (words : Holds m.memory (m.reg .rsp) [ip, sp]) :
    ∃ m', m' ∈ eval (step userspaceInit env) (m.goto 0) ∧ Entered m m' ip sp := by
  obtain ⟨isIp, isSp, _⟩ := words
  obtain ⟨rcx, rsp, gsBase, kernelGsBase, interrupts⟩ := swapped_fields m
  obtain ⟨gs, kernelGs, enabled⟩ := clears_fields zeroedRegs (swapped m)
  have cleared : Reaches (step userspaceInit env) ((swapped m).goto 5) ((clears zeroedRegs (swapped m)).goto 18) :=
    reaches_clears zeroedRegs 5 (swapped m) rfl
  let last := (clears zeroedRegs (swapped m)).set .r11 0x202
  have other : ∀ r, r ≠ .r11 → last.reg r = (clears zeroedRegs (swapped m)).reg r := fun r notR11 => Function.update_of_ne notR11 _ _
  have ends : Reaches (step userspaceInit env) ((clears zeroedRegs (swapped m)).goto 18)
      { last with control := .user (last.reg .rcx) (last.reg .r11) } := reaches_line rfl (reaches_line rfl .refl)
  refine ⟨_, mem_eval.mpr ⟨(swapped_reaches m).trans (cleared.trans ends), rfl⟩, ?_, ?_, fun r notRsp notRcx notR11 => ?_, ?_, enabled.trans interrupts⟩
  · refine congrArg₂ Control.user ?_ rfl
    rw [other .rcx (by decide), clears_reg, if_neg (by decide), rcx]
    exact isIp
  · rw [other .rsp (by decide), clears_reg, if_neg (by decide), rsp]
    exact isSp
  · rw [other r notR11, clears_reg, if_pos (by cases r <;> first | contradiction | decide)]
  · exact ⟨gs.trans gsBase, kernelGs.trans kernelGsBase⟩

end Userspace

section Created

variable {T F A : Type} [DecidableEq T] {l : Layout T A} {env : Env} {s₀ s₁ s₂ s₂' : State T F A} {t : T} {i : InitStack} {fpu : F} {m : Machine}
variable {commonThreadInit entry kernelThreadExit initUser ip sp : Word}

theorem store_words_holds {a : Word} (words : List Word) (small : 8 * words.length < 2 ^ 64) (memory : Memory) :
    Holds (storeWords a words memory) a words := by
  induction words generalizing a memory with
  | nil => trivial
  | cons value rest ih =>
      rw [List.length_cons] at small
      refine ⟨?_, ih (by omega) _⟩
      have same : ∀ b, Within a 8 b → storeWords a (value :: rest) memory b = LittleEndian.store a value 8 memory b := fun b inside => by
        refine store_words_outside rest (by omega) (fun later => ?_) _
        unfold Within at inside later
        bv_omega
      exact (X86.word_same same).trans (X86.store_word _ _ _)

omit [DecidableEq T] in
theorem init_words {memory : Memory} (fits : 48 + 8 * i.words.length ≤ i.size ∧ i.size ≤ l.size) :
    Holds (initMemory l t i memory) (i.top (l.base t) + 48) i.words := by
  have small := l.small
  refine holds_store (by omega) (fun b inside => l.apart t t b ?_) (store_words_holds i.words (by omega) _)
  unfold Within InitStack.top at inside
  unfold Below
  bv_omega

-- What a function of the kernel leaves alone when it returns.
structure Returns (l : Layout T A) (t : T) (m m' : Machine) : Prop where
  control : m'.control = .returned (m.word (m.reg .rsp))
  rsp : m'.reg .rsp = m.reg .rsp + 8
  saved : ∀ r ∈ saved, m'.reg r = m.reg r
  stack : ∀ b, Within (m.reg .rsp + 8) (l.base t - (m.reg .rsp + 8)).toNat b → m'.memory b = m.memory b
  gs : m'.gsBase = m.gsBase ∧ m'.kernelGsBase = m.kernelGsBase

-- A new thread is at the first of its words when it is switched to for the first time, with the others on its stack.
theorem created_resumes {first : Word} {rest : List Word} (booted : Booted s₀) (run : ReflTransGen (Steps l env) s₀ s₁)
    (other : t ≠ s₁.current) (fits : 56 ≤ i.size ∧ i.size ≤ l.size ∧ 48 + 8 * i.words.length ≤ i.size)
    (words : i.words = first :: rest) (away : ReflTransGen (Away l env t) (createThread l t i fpu s₁) s₂) (switched : Switch l env s₂ t s₂') :
    Resumed l s₂ t ⟨fun _ => 0, i.top (l.base t) + 56, first, initMemory l t i s₁.machine.memory, 0, 0, some fpu⟩ s₂' ∧
      Holds s₂'.machine.memory (s₂'.machine.reg .rsp) rest := by
  have kept : Kept l (createThread l t i fpu s₁) := create_keeps (runs_keep booted run) other fits
  have found : (createThread l t i fpu s₁).suspended t = some (initContext (l.base t) i (initMemory l t i s₁.machine.memory) fpu) :=
    Function.update_self _ _ _
  obtain ⟨later, still⟩ := runs_suspended kept found away
  have held : Holds (initMemory l t i s₁.machine.memory) (i.top (l.base t) + 48) (first :: rest) := words ▸ init_words ⟨fits.2.2, fits.2.1⟩
  have resumed := (switch_resumed later switched still).1
  rw [initContext, held.1] at resumed
  refine ⟨resumed, ?_⟩
  rw [resumed.rsp]
  have above : i.top (l.base t) + 48 + 8 = i.top (l.base t) + 56 := by bv_omega
  refine holds_congr (fun b inside => resumed.stack b ?_) ?_ (above ▸ held.2)
  all_goals
    have small := l.small
    obtain ⟨_, most, least⟩ := fits
    rw [words, List.length_cons] at least
  · unfold Within InitStack.top at *
    dsimp only
    bv_omega
  · omega

theorem kernel_fits {size : Nat} (room : 88 ≤ size) : 56 ≤ (initStackKernel commonThreadInit entry kernelThreadExit).size ∧
    (initStackKernel commonThreadInit entry kernelThreadExit).size ≤ size ∧
      48 + 8 * (initStackKernel commonThreadInit entry kernelThreadExit).words.length ≤ (initStackKernel commonThreadInit entry kernelThreadExit).size :=
  ⟨show 56 ≤ 88 by decide, room, show 72 ≤ 88 by decide⟩

theorem user_fits {size : Nat} (room : 80 ≤ size) : 56 ≤ (initStackUser commonThreadInit initUser ip sp).size ∧
    (initStackUser commonThreadInit initUser ip sp).size ≤ size ∧
      48 + 8 * (initStackUser commonThreadInit initUser ip sp).words.length ≤ (initStackUser commonThreadInit initUser ip sp).size :=
  ⟨show 56 ≤ 80 by decide, room, show 80 ≤ 80 by decide⟩

theorem new_kernel_threads_enter (booted : Booted s₀) (run : ReflTransGen (Steps l env) s₀ s₁) (other : t ≠ s₁.current)
    (room : 88 ≤ l.size) (away : ReflTransGen (Away l env t) (createThread l t (initStackKernel commonThreadInit entry kernelThreadExit) fpu s₁) s₂)
    (switched : Switch l env s₂ t s₂') (returns : Returns l t s₂'.machine m) :
    s₂'.machine.control = .returned commonThreadInit ∧ s₂'.machine.reg .rdi = l.place s₂.current ∧ s₂'.fpu = fpu ∧ m.control = .returned entry ∧
      m.word (m.reg .rsp) = kernelThreadExit ∧ m.reg .rbp = 0 := by
  obtain ⟨resumed, isEntry, words⟩ := created_resumes booted run other (kernel_fits room) rfl away switched
  refine ⟨resumed.control, resumed.previous.2, Option.some.inj resumed.fpu, ?_, ?_, ?_⟩
  · rw [returns.control]
    exact congrArg Control.returned isEntry
  · have small := l.small
    have same : ∀ b, Within (s₂'.machine.reg .rsp + 8) 8 b → m.memory b = s₂'.machine.memory b := fun b inside => by
      refine returns.stack b ?_
      rw [resumed.rsp] at *
      unfold Within InitStack.top initStackKernel at *
      dsimp only at *
      bv_omega
    rw [Machine.word, returns.rsp, X86.word_same same]
    exact words.1
  · rw [returns.saved .rbp (by decide)]
    exact resumed.saved .rbp (by decide)

-- Where a user thread starts, and that all it finds of the kernel is the address it starts at and the flags.
theorem new_user_threads_enter (booted : Booted s₀) (run : ReflTransGen (Steps l env) s₀ s₁) (other : t ≠ s₁.current)
    (room : 80 ≤ l.size) (away : ReflTransGen (Away l env t) (createThread l t (initStackUser commonThreadInit initUser ip sp) fpu s₁) s₂)
    (switched : Switch l env s₂ t s₂') (returns : Returns l t s₂'.machine m) :
    s₂'.machine.control = .returned commonThreadInit ∧ s₂'.machine.reg .rdi = l.place s₂.current ∧ s₂'.fpu = fpu ∧ s₂'.addressSpace = l.space t ∧
      m.control = .returned initUser ∧ ∃ m', m' ∈ eval (step userspaceInit env) (m.goto 0) ∧ Entered m m' ip sp ∧ m'.gsBase = 0 := by
  obtain ⟨resumed, isInit, words⟩ := created_resumes booted run other (user_fits room) rfl away switched
  have small := l.small
  have same : ∀ b, Within (s₂'.machine.reg .rsp + 8) 16 b → m.memory b = s₂'.machine.memory b := fun b inside => by
    refine returns.stack b ?_
    rw [resumed.rsp] at *
    unfold Within InitStack.top initStackUser at *
    dsimp only at *
    bv_omega
  have held : Holds m.memory (m.reg .rsp) [ip, sp] := by
    rw [returns.rsp]
    exact holds_congr same (show 16 < 2 ^ 64 by decide) words
  obtain ⟨m', evaluated, entered⟩ := userspace_reaches env held
  refine ⟨resumed.control, resumed.previous.2, Option.some.inj resumed.fpu, resumed.space.1, ?_, m', evaluated, entered, ?_⟩
  · rw [returns.control]
    exact congrArg Control.returned isInit
  · rw [entered.gs.1, returns.gs.2]
    exact resumed.gs

theorem new_user_threads_enter_one : ∃ (s s' : State Bool Unit Unit) (m : Machine), Switch twoThreads noCalls s true s' ∧ s'.machine.control = .returned 1 ∧
    m.control = .returned 2 ∧ ∃ m', m' ∈ eval (step userspaceInit noCalls) (m.goto 0) ∧ Entered m m' 3 4 := by
  obtain ⟨s', switched, _⟩ := at_boot_switches (user_fits (show 80 ≤ 256 by decide))
  let m : Machine := { s'.machine.set .rsp (s'.machine.reg .rsp + 8) with control := .returned (s'.machine.word (s'.machine.reg .rsp)) }
  have returns : Returns twoThreads true s'.machine m :=
    ⟨rfl, rfl, fun r member => Function.update_of_ne (fun isRsp : r = .rsp => saved_apart.1 (isRsp ▸ member)) _ _, fun _ _ => rfl, rfl, rfl⟩
  obtain ⟨started, _, _, _, control, m', evaluated, entered, _⟩ :=
    new_user_threads_enter at_boot_booted .refl (by decide) (by decide) .refl switched returns
  exact ⟨_, s', m, switched, started, control, m', evaluated, entered⟩

end Created

end Elysium.ContextSwitch
