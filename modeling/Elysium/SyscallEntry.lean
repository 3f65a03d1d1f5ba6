import Elysium.X86

set_option autoImplicit false

namespace Elysium.SyscallEntry

open LittleEndian (Memory load store store_outside)
open X86

-- What the assembler gets from the build: the offsets of the current thread in cpu_t and
-- of two fields in thread_t. And where it puts the table.
structure Places where
  currentThread : Word
  syscallRsp : Word
  kernelStackBase : Word
  syscallTable : Word

variable (p : Places)

-- The words of the table; .length is assembled after them.
def tableSize : Nat := 6

def currentThread : Operand := ⟨true, none, none, p.currentThread⟩
def syscallRsp : Operand := ⟨false, some .r15, none, p.syscallRsp⟩
def kernelStackBase : Operand := ⟨false, some .r15, none, p.kernelStackBase⟩
def tableLength : Operand := ⟨false, none, none, p.syscallTable + BitVec.ofNat 64 (8 * tableSize)⟩
def tableEntry : Operand := ⟨false, none, some .rax, p.syscallTable⟩

def saved : List Reg := [.rcx, .rdx, .rbp, .rsi, .rdi, .r8, .r9, .r10, .r11, .r12, .r13, .r14, .r15]

def invalidSyscall : Nat := 27

-- x86_64_syscall_entry
def code : List Instr := [
  .swapgs,
  .load .r15 (currentThread p),
  .store (syscallRsp p) .rsp,
  .load .rsp (kernelStackBase p),
  .push .rcx, .push .rdx, .push .rbp, .push .rsi, .push .rdi, .push .r8, .push .r9, .push .r10, .push .r11, .push .r12,
  .push .r13, .push .r14, .push .r15,
  .cmp .rax (tableLength p),
  .jge invalidSyscall,
  .load .rax (tableEntry p),
  .cmpImm .rax 0,
  .je invalidSyscall,
  .mov .rcx .r10,
  .sti,
  .call .rax,
  .cli,
  .mov .rbx .rdx,
  -- .invalid_syscall:
  .xor .r12 .r12,
  .movSegment .r12 .ds,
  .movSegment .r12 .es,
  .pop .r15, .pop .r14, .pop .r13, .pop .r12, .pop .r11, .pop .r10, .pop .r9, .pop .r8, .pop .rdi, .pop .rsi, .pop .rbp,
  .pop .rdx, .pop .rcx,
  .load .rsp (syscallRsp p),
  .xor .r15 .r15,
  .swapgs,
  .sysret]

def kept : List Reg := [.rsp, .rcx, .rdx, .rbp, .rsi, .rdi, .r8, .r9, .r10, .r11, .r12, .r13, .r14]

-- Only handlers of the table are called, and user mode gets its registers back.
def Confined (handlers : Fin tableSize → Word) (entry m : Machine) : Prop :=
  (∀ target ∈ m.called, ∃ i, target = handlers i) ∧ (m.control = .user → ∀ r ∈ kept, m.reg r = entry.reg r)

-- A machine at the entry point. thread and stack are the thread that made the call and
-- the top of its kernel stack, which the pushes and the call go down from.
structure Entered (env : Env) (handlers : Fin tableSize → Word) (thread stack : Word) (m : Machine) : Prop where
  control : m.control = .line 0
  called : m.called = []
  current : load m.memory (m.kernelGsBase + p.currentThread) 8 = thread
  base : load m.memory (thread + p.kernelStackBase) 8 = stack
  table : ∀ i : Fin tableSize, load m.memory (p.syscallTable + BitVec.ofNat 64 (8 * i)) 8 = handlers i
  length : load m.memory (p.syscallTable + BitVec.ofNat 64 (8 * tableSize)) 8 = BitVec.ofNat 64 tableSize
  -- The fields, the table and the stack do not overlap.
  fields : ∀ b, Within (thread + p.kernelStackBase) 8 b → ¬ Within (thread + p.syscallRsp) 8 b
  tableApart : ∀ b, Within p.syscallTable (8 * tableSize + 8) b →
    ¬ Within (thread + p.syscallRsp) 8 b ∧ ¬ Below stack (8 * saved.length + 8) b
  stackApart : ∀ b, Below stack (8 * saved.length + 8) b → ¬ Within (thread + p.syscallRsp) 8 b
  -- And can be read.
  readable : env.readable (m.kernelGsBase + p.currentThread) = true ∧ env.readable (thread + p.kernelStackBase) = true ∧
    env.readable (thread + p.syscallRsp) = true ∧ (∀ i ≤ tableSize, env.readable (p.syscallTable + BitVec.ofNat 64 (8 * i)) = true) ∧
    ∀ i ≤ saved.length, env.readable (stack - BitVec.ofNat 64 (8 * i)) = true
  -- A handler that returns has popped its return address, and has left alone what its
  -- caller has on the stack and the stack pointer that is saved in the thread.
  returns : ∀ i before after, env.callee (handlers i) before = some after →
    after.reg .rsp = before.reg .rsp + 8 ∧ after.called = before.called ∧
      ∀ b, Below stack (8 * saved.length) b ∨ Within (thread + p.syscallRsp) 8 b → after.memory b = before.memory b

-- The machine once it is on the kernel stack, with the registers saved.
def prepared (thread stack : Word) (m : Machine) : Machine :=
  pushed saved { (m.set .r15 thread).set .rsp stack with
    memory := store (thread + p.syscallRsp) (m.reg .rsp) 8 m.memory, gsBase := m.kernelGsBase, kernelGsBase := m.gsBase }

section Proofs

variable {p} {env : Env} {handlers : Fin tableSize → Word} {thread stack : Word} {entry m : Machine}

theorem confined_inside {called : List Word} (known : ∀ target ∈ called, ∃ i, target = handlers i) :
    Inside (Confined handlers entry) called := by
  intro m n same control
  refine ⟨same ▸ known, fun user => ?_⟩
  rw [control] at user
  cases user

theorem confined_line (m : Machine) (n : Nat) (known : ∀ target ∈ m.called, ∃ i, target = handlers i) : Confined handlers entry (m.goto n) :=
  ⟨known, nofun⟩

theorem field_address (m : Machine) (pointsTo : m.reg .r15 = thread) : m.address (syscallRsp p) = thread + p.syscallRsp := by
  show 0 + m.reg .r15 + 0 * 8 + p.syscallRsp = _
  rw [pointsTo]
  bv_omega

-- The last lines, with the registers back.
theorem along_sysret (known : ∀ target ∈ m.called, ∃ i, target = handlers i) (pointsTo : m.reg .r15 = thread)
    (values : ∀ r ∈ saved, r ≠ .r15 → m.reg r = entry.reg r) (pointer : load m.memory (thread + p.syscallRsp) 8 = entry.reg .rsp)
    (readable : env.readable (thread + p.syscallRsp) = true) : Along (code p) env (Confined handlers entry) (m.goto 43) := by
  let switched : Machine := m.set .rsp (m.word (thread + p.syscallRsp))
  let zeroed : Machine := { switched.set .r15 (switched.reg .r15 ^^^ switched.reg .r15) with
    flags := ⟨switched.reg .r15 ^^^ switched.reg .r15 == 0, (switched.reg .r15 ^^^ switched.reg .r15).msb, false⟩ }
  let swapped : Machine := { zeroed with gsBase := zeroed.kernelGsBase, kernelGsBase := zeroed.gsBase }
  have loads : step (code p) env (m.goto 43) = some (switched.goto 44) := by
    have taken : step (code p) env (m.goto 43) = if env.readable (m.address (syscallRsp p)) then
        some ((m.set .rsp (m.word (m.address (syscallRsp p)))).goto 44) else none := rfl
    rw [taken, field_address m pointsTo, if_pos readable]
  have zeroes : step (code p) env (switched.goto 44) = some (zeroed.goto 45) := rfl
  have swaps : step (code p) env (zeroed.goto 45) = some (swapped.goto 46) := rfl
  have leaves : step (code p) env (swapped.goto 46) = some { swapped.goto 46 with control := .user } := rfl
  rw [along_step loads (confined_line m 43 known), along_step zeroes (confined_line switched 44 known),
    along_step swaps (confined_line zeroed 45 known), along_step leaves (confined_line swapped 46 known), along_end rfl]
  refine ⟨known, fun _ r member => ?_⟩
  by_cases isRsp : r = .rsp
  · rw [isRsp]
    exact pointer
  · have notR15 : r ≠ .r15 := by
      rintro rfl
      exact absurd member (by decide)
    have isSaved : r ∈ saved := by
      revert r
      decide
    have final : swapped.reg r = m.reg r := by
      show Function.update (Function.update m.reg .rsp _) .r15 _ r = _
      rw [Function.update_of_ne notR15, Function.update_of_ne isRsp]
    exact final.trans (values r isSaved notR15)

-- The pops take the registers off in the other order.
theorem popped_saved (m : Machine) (top : m.reg .rsp = stack - BitVec.ofNat 64 (8 * saved.length)) (i : Nat) (less : i < saved.length) :
    (popped saved.reverse m).reg saved[i] = load m.memory (stack - BitVec.ofNat 64 (8 * (i + 1))) 8 := by
  have length : saved.length = 13 := rfl
  have other : saved.length - 1 - i < saved.reverse.length := by
    rw [List.length_reverse]
    omega
  have same : saved.reverse[saved.length - 1 - i] = saved[i] := by
    rw [List.getElem_reverse]
    congr 1
    omega
  have popped := popped_reg saved.reverse m (by decide) (by decide) (saved.length - 1 - i) other
  rw [same] at popped
  rw [popped, Machine.word, top]
  congr 1
  rw [length] at less ⊢
  bv_omega

-- From .invalid_syscall on, with the registers on the stack as they were pushed.
theorem along_leave (known : ∀ target ∈ m.called, ∃ i, target = handlers i)
    (top : m.reg .rsp = stack - BitVec.ofNat 64 (8 * saved.length))
    (words : ∀ i (less : i < saved.length), load m.memory (stack - BitVec.ofNat 64 (8 * (i + 1))) 8 =
      if saved[i] = .r15 then thread else entry.reg saved[i])
    (pointer : load m.memory (thread + p.syscallRsp) 8 = entry.reg .rsp) (readable : env.readable (thread + p.syscallRsp) = true)
    (stackReadable : ∀ i ≤ saved.length, env.readable (stack - BitVec.ofNat 64 (8 * i)) = true) :
    Along (code p) env (Confined handlers entry) (m.goto invalidSyscall) := by
  have length : saved.length = 13 := rfl
  let cleared : Machine := { m.set .r12 (m.reg .r12 ^^^ m.reg .r12) with
    flags := ⟨m.reg .r12 ^^^ m.reg .r12 == 0, (m.reg .r12 ^^^ m.reg .r12).msb, false⟩ }
  let segments : Machine := (cleared.set .r12 ((m.segment .ds).setWidth 64)).set .r12 ((m.segment .es).setWidth 64)
  have atTop : segments.reg .rsp = stack - BitVec.ofNat 64 (8 * saved.length) := top
  have values : ∀ r ∈ saved, (popped saved.reverse segments).reg r = if r = .r15 then thread else entry.reg r := by
    intro r member
    obtain ⟨i, less, rfl⟩ := List.mem_iff_getElem.mp member
    rw [popped_saved segments atTop i less]
    exact words i less
  have memory : (popped saved.reverse segments).memory = m.memory := popped_memory saved.reverse segments
  have called : (popped saved.reverse segments).called = m.called := popped_called saved.reverse segments
  have first : step (code p) env (m.goto invalidSyscall) = some (cleared.goto 28) := rfl
  have second : step (code p) env (cleared.goto 28) = some ((cleared.set .r12 ((m.segment .ds).setWidth 64)).goto 29) := rfl
  have third : step (code p) env ((cleared.set .r12 ((m.segment .ds).setWidth 64)).goto 29) = some (segments.goto 30) := rfl
  rw [along_step first (confined_line m invalidSyscall known), along_step second (confined_line cleared 28 known),
    along_step third (confined_line _ 29 known), along_pops (confined_inside known) saved.reverse 30 segments (by decide) rfl]
  · refine along_sysret (called.symm ▸ known) ((values .r15 (by decide)).trans (if_pos rfl)) ?_ (memory.symm ▸ pointer) readable
    intro r isSaved notR15
    exact (values r isSaved).trans (if_neg notR15)
  · exact placed_of saved.reverse 30 rfl
  · intro i less
    have within : saved.length - i ≤ saved.length := Nat.sub_le _ _
    have readable := stackReadable (saved.length - i) within
    rw [List.length_reverse] at less
    have place : segments.reg .rsp + BitVec.ofNat 64 (8 * i) = stack - BitVec.ofNat 64 (8 * (saved.length - i)) := by
      rw [atTop]
      rw [length] at less ⊢
      bv_omega
    rw [place]
    exact readable

theorem goto_same (n : Nat) (control : m.control = .line n) : m.goto n = m := by
  rw [Machine.goto, ← control]

theorem along_enter (entered : Entered p env handlers thread stack m) :
    Along (code p) env (Confined handlers entry) m ↔ Along (code p) env (Confined handlers entry) ((prepared p thread stack m).goto 17) := by
  have known : ∀ target ∈ m.called, ∃ i, target = handlers i := by
    rw [entered.called]
    nofun
  let swapped : Machine := { m with gsBase := m.kernelGsBase, kernelGsBase := m.gsBase }
  let threaded : Machine := swapped.set .r15 thread
  let stored : Machine := { threaded with memory := store (thread + p.syscallRsp) (m.reg .rsp) 8 m.memory }
  let switched : Machine := stored.set .rsp stack
  have first : step (code p) env (m.goto 0) = some (swapped.goto 1) := rfl
  have second : step (code p) env (swapped.goto 1) = some (threaded.goto 2) := by
    have taken : step (code p) env (swapped.goto 1) = if env.readable (swapped.address (currentThread p)) then
        some ((swapped.set .r15 (swapped.word (swapped.address (currentThread p)))).goto 2) else none := rfl
    have place : swapped.address (currentThread p) = m.kernelGsBase + p.currentThread := by
      show m.kernelGsBase + 0 + 0 * 8 + p.currentThread = _
      bv_omega
    rw [taken, place, if_pos entered.readable.1, show swapped.word (m.kernelGsBase + p.currentThread) = thread from entered.current]
  have third : step (code p) env (threaded.goto 2) = some (stored.goto 3) := by
    have taken : step (code p) env (threaded.goto 2) =
        some ({ threaded with memory := store (threaded.address (syscallRsp p)) (threaded.reg .rsp) 8 threaded.memory }.goto 3) := rfl
    rw [taken, field_address threaded rfl]
    rfl
  have fourth : step (code p) env (stored.goto 3) = some (switched.goto 4) := by
    have taken : step (code p) env (stored.goto 3) = if env.readable (stored.address (kernelStackBase p)) then
        some ((stored.set .rsp (stored.word (stored.address (kernelStackBase p)))).goto 4) else none := rfl
    have place : stored.address (kernelStackBase p) = thread + p.kernelStackBase := by
      show 0 + thread + 0 * 8 + p.kernelStackBase = _
      bv_omega
    have base : stored.word (thread + p.kernelStackBase) = stack :=
      (word_same fun b inside => store_outside _ _ _ (entered.fields b inside)).trans entered.base
    rw [taken, place, if_pos entered.readable.2.1, base]
  rw [← goto_same 0 entered.control, along_step first (confined_line m 0 known), along_step second (confined_line swapped 1 known),
    along_step third (confined_line threaded 2 known), along_step fourth (confined_line stored 3 known),
    along_pushes (confined_inside known) saved 4 switched rfl (placed_of saved 4 rfl)]
  rfl

-- What the entry sequence leaves of the registers and of the memory.
theorem prepared_reg (m : Machine) {r : Reg} (other : r ≠ .rsp) (notR15 : r ≠ .r15) :
    (prepared p thread stack m).reg r = m.reg r := by
  rw [prepared, pushed_reg _ _ other]
  show Function.update (Function.update m.reg .r15 thread) .rsp stack r = _
  rw [Function.update_of_ne other, Function.update_of_ne notR15]

theorem prepared_rsp (m : Machine) : (prepared p thread stack m).reg .rsp = stack - BitVec.ofNat 64 (8 * saved.length) :=
  pushed_rsp saved _

theorem prepared_called (m : Machine) : (prepared p thread stack m).called = m.called := pushed_called saved _

theorem prepared_words (m : Machine) (i : Nat) (less : i < saved.length) :
    load (prepared p thread stack m).memory (stack - BitVec.ofNat 64 (8 * (i + 1))) 8 =
      if saved[i] = .r15 then thread else m.reg saved[i] := by
  have words := pushed_word saved { (m.set .r15 thread).set .rsp stack with
    memory := store (thread + p.syscallRsp) (m.reg .rsp) 8 m.memory, gsBase := m.kernelGsBase, kernelGsBase := m.gsBase }
    (by decide) (by decide) i less
  have other : saved[i] ≠ Reg.rsp := fun same => absurd (same ▸ List.getElem_mem less) (by decide)
  have value : ∀ r ≠ Reg.rsp, Function.update (Function.update m.reg .r15 thread) .rsp stack r = if r = .r15 then thread else m.reg r := by
    intro r different
    rw [Function.update_of_ne different, Function.update_apply]
  exact words.trans (value _ other)

theorem prepared_stored (m : Machine) {b : Word} (offStack : ¬ Below stack (8 * saved.length) b) :
    (prepared p thread stack m).memory b = store (thread + p.syscallRsp) (m.reg .rsp) 8 m.memory b := by
  rw [prepared, pushed_memory]
  simp only [Machine.set, Function.update_self]
  exact offStack

theorem prepared_memory (m : Machine) {b : Word} (offStack : ¬ Below stack (8 * saved.length) b)
    (offField : ¬ Within (thread + p.syscallRsp) 8 b) : (prepared p thread stack m).memory b = m.memory b := by
  rw [prepared_stored m offStack]
  exact store_outside _ _ _ offField

theorem below_more {top b : Word} {size more : Nat} (below : Below top size b) : Below top (size + more) b :=
  Nat.lt_of_lt_of_le below (Nat.le_add_right _ _)

theorem prepared_pointer (entered : Entered p env handlers thread stack m) :
    load (prepared p thread stack m).memory (thread + p.syscallRsp) 8 = m.reg .rsp := by
  refine (word_same fun b inside => prepared_stored m fun below => ?_).trans (store_word _ _ _)
  exact entered.stackApart b (below_more below) inside

-- The table is as it was.
theorem prepared_table (entered : Entered p env handlers thread stack m) (i : Nat) (within : i ≤ tableSize) :
    load (prepared p thread stack m).memory (p.syscallTable + BitVec.ofNat 64 (8 * i)) 8 =
      load m.memory (p.syscallTable + BitVec.ofNat 64 (8 * i)) 8 := by
  refine word_same fun b inside => ?_
  have inTable : Within p.syscallTable (8 * tableSize + 8) b := by
    unfold Within tableSize at *
    bv_omega
  obtain ⟨offField, offStack⟩ := entered.tableApart b inTable
  exact prepared_memory m (fun below => offStack (below_more below)) offField

theorem entry_leaves (entered : Entered p env handlers thread stack entry) {m : Machine}
    (known : ∀ target ∈ m.called, ∃ i, target = handlers i) (top : m.reg .rsp = stack - BitVec.ofNat 64 (8 * saved.length))
    (same : ∀ b, Below stack (8 * saved.length) b ∨ Within (thread + p.syscallRsp) 8 b →
      m.memory b = (prepared p thread stack entry).memory b) :
    Along (code p) env (Confined handlers entry) (m.goto invalidSyscall) := by
  obtain ⟨_, _, readable, _, stackReadable⟩ := entered.readable
  refine along_leave known top (fun i less => ?_) ?_ readable stackReadable
  · refine (word_same fun b inside => same b (.inl ?_)).trans (prepared_words entry i less)
    have length : saved.length = 13 := rfl
    unfold Within at inside
    unfold Below
    rw [length] at less ⊢
    bv_omega
  · exact (word_same fun b inside => same b (.inr inside)).trans (prepared_pointer entered)

-- Where the index leads, with nothing of it checked.
def slot (p : Places) (entry : Machine) : Word := p.syscallTable + entry.reg .rax * 8

def fetched (p : Places) (thread stack : Word) (entry : Machine) : Word := load (prepared p thread stack entry).memory (slot p entry) 8

-- A call of a handler, and what comes after it.
theorem along_call (entered : Entered p env handlers thread stack entry) {m : Machine} (called : m.called = [])
    (top : m.reg .rsp = stack - BitVec.ofNat 64 (8 * saved.length)) (memory : m.memory = (prepared p thread stack entry).memory)
    {i : Fin tableSize} (handler : m.reg .rax = handlers i) : Along (code p) env (Confined handlers entry) (m.goto 24) := by
  have known : ∀ target ∈ handlers i :: m.called, ∃ i, target = handlers i := by
    rw [called]
    intro target member
    exact ⟨i, List.mem_singleton.mp member⟩
  have before : ∀ target ∈ m.called, ∃ i, target = handlers i := by
    rw [called]
    nofun
  let calling : Machine := { m.set .rsp (m.reg .rsp - 8) with
    memory := store (m.reg .rsp - 8) (env.place 25) 8 m.memory, control := .callee (handlers i) 25, called := handlers i :: m.called }
  have calls : step (code p) env (m.goto 24) = some calling := by
    have taken : step (code p) env (m.goto 24) = some { m.set .rsp (m.reg .rsp - 8) with
      memory := store (m.reg .rsp - 8) (env.place 25) 8 m.memory, control := .callee (m.reg .rax) 25, called := m.reg .rax :: m.called } := rfl
    rw [taken, handler]
  have inCallee : step (code p) env calling = (env.callee (handlers i) calling).map fun m => m.goto 25 := rfl
  have here : Confined handlers entry calling := ⟨known, nofun⟩
  rw [along_step calls (confined_line m 24 before)]
  cases returned : env.callee (handlers i) calling with
  | none =>
      rw [returned] at inCallee
      exact (along_end inCallee).mpr here
  | some after =>
      rw [returned] at inCallee
      obtain ⟨popped, kept, left⟩ := entered.returns i calling after returned
      let masked : Machine := { after with interrupts := false }
      let moved : Machine := masked.set .rbx (masked.reg .rdx)
      have masks : step (code p) env (after.goto 25) = some (masked.goto 26) := rfl
      have moves : step (code p) env (masked.goto 26) = some (moved.goto invalidSyscall) := rfl
      have known' : ∀ target ∈ after.called, ∃ i, target = handlers i := kept.symm ▸ known
      rw [along_step inCallee here, along_step masks (confined_line after 25 known'), along_step moves (confined_line masked 26 known')]
      refine entry_leaves entered known' ?_ fun b inside => (left b inside).trans ?_
      · have depth : calling.reg .rsp = m.reg .rsp - 8 := by
          show Function.update m.reg .rsp (m.reg .rsp - 8) .rsp = _
          rw [Function.update_self]
        have same : moved.reg .rsp = after.reg .rsp := rfl
        rw [same, popped, depth, BitVec.sub_add_cancel, top]
      · -- The return address goes below the saved registers.
        have apart : calling.memory b = m.memory b := by
          refine store_outside _ _ _ ?_
          have length : saved.length = 13 := rfl
          rcases inside with below | field
          · rw [top]
            unfold Below at below
            rw [length] at below ⊢
            bv_omega
          · intro overlap
            refine entered.stackApart b ?_ field
            rw [top] at overlap
            unfold Below
            rw [length] at overlap ⊢
            bv_omega
        rw [apart, memory]

-- The comparison with the length, which is signed.
theorem along_compare (m : Machine) (known : ∀ target ∈ m.called, ∃ i, target = handlers i)
    (length : load m.memory (p.syscallTable + BitVec.ofNat 64 (8 * tableSize)) 8 = BitVec.ofNat 64 tableSize)
    (readable : env.readable (p.syscallTable + BitVec.ofNat 64 (8 * tableSize)) = true) :
    Along (code p) env (Confined handlers entry) (m.goto 17) ↔ Along (code p) env (Confined handlers entry)
      ({ m with flags := subFlags (m.reg .rax) (BitVec.ofNat 64 tableSize) }.goto
        (if (BitVec.ofNat 64 tableSize).toInt ≤ (m.reg .rax).toInt then invalidSyscall else 19)) := by
  let compared : Machine := { m with flags := subFlags (m.reg .rax) (BitVec.ofNat 64 tableSize) }
  have compares : step (code p) env (m.goto 17) = some (compared.goto 18) := by
    have taken : step (code p) env (m.goto 17) = if env.readable (m.address (tableLength p)) then
        some ({ m with flags := subFlags (m.reg .rax) (m.word (m.address (tableLength p))) }.goto 18) else none := rfl
    have place : m.address (tableLength p) = p.syscallTable + BitVec.ofNat 64 (8 * tableSize) := by
      show 0 + 0 + 0 * 8 + (p.syscallTable + BitVec.ofNat 64 (8 * tableSize)) = _
      bv_omega
    rw [taken, place, if_pos readable, show m.word (p.syscallTable + BitVec.ofNat 64 (8 * tableSize)) = _ from length]
  have jumps : step (code p) env (compared.goto 18) =
      some (compared.goto (if compared.flags.sign = compared.flags.overflow then invalidSyscall else 19)) := rfl
  have signed : compared.flags.sign = compared.flags.overflow ↔ (BitVec.ofNat 64 tableSize).toInt ≤ (m.reg .rax).toInt :=
    sub_flags_ge _ _
  rw [along_step compares (confined_line m 17 known), along_step jumps (confined_line compared 18 known)]
  simp only [signed]
  exact Iff.rfl

-- The load from the table, and the call of what it finds.
theorem along_fetch (entered : Entered p env handlers thread stack entry) {m : Machine} (called : m.called = [])
    (top : m.reg .rsp = stack - BitVec.ofNat 64 (8 * saved.length)) (memory : m.memory = (prepared p thread stack entry).memory)
    (rax : m.reg .rax = entry.reg .rax) :
    Along (code p) env (Confined handlers entry) (m.goto 19) ↔ env.readable (slot p entry) = false ∨ fetched p thread stack entry = 0 ∨
      ∃ i, fetched p thread stack entry = handlers i := by
  have known : ∀ target ∈ m.called, ∃ i, target = handlers i := by
    rw [called]
    nofun
  let loaded : Machine := m.set .rax (fetched p thread stack entry)
  let compared : Machine := { loaded with flags := subFlags (fetched p thread stack entry) 0 }
  have loadedRax : loaded.reg .rax = fetched p thread stack entry := by
    show Function.update m.reg .rax (fetched p thread stack entry) .rax = _
    rw [Function.update_self]
  have loads : step (code p) env (m.goto 19) = if env.readable (slot p entry) then some (loaded.goto 20) else none := by
    have taken : step (code p) env (m.goto 19) = if env.readable (m.address (tableEntry p)) then
        some ((m.set .rax (m.word (m.address (tableEntry p)))).goto 20) else none := rfl
    have place : m.address (tableEntry p) = slot p entry := by
      show 0 + 0 + m.reg .rax * 8 + p.syscallTable = _
      rw [rax, slot]
      bv_omega
    rw [taken, place, show m.word (slot p entry) = fetched p thread stack entry from congrArg (fun memory => load memory (slot p entry) 8) memory]
  by_cases readable : env.readable (slot p entry) = true
  · rw [if_pos readable] at loads
    have compares : step (code p) env (loaded.goto 20) = some (compared.goto 21) := by
      have taken : step (code p) env (loaded.goto 20) = some ({ loaded with flags := subFlags (loaded.reg .rax) 0 }.goto 21) := rfl
      rw [taken, loadedRax]
    have jumps : step (code p) env (compared.goto 21) = some (compared.goto (if compared.flags.zero then invalidSyscall else 22)) := rfl
    have isZero : compared.flags.zero = true ↔ fetched p thread stack entry = 0 := sub_flags_zero _ _
    rw [along_step loads (confined_line m 19 known), along_step compares (confined_line loaded 20 known),
      along_step jumps (confined_line compared 21 known)]
    by_cases zero : fetched p thread stack entry = 0
    · rw [if_pos (isZero.mpr zero)]
      refine iff_of_true (entry_leaves entered known top fun b _ => ?_) (.inr (.inl zero))
      exact congrFun memory b
    · let moved : Machine := compared.set .rcx (compared.reg .r10)
      let enabled : Machine := { moved with interrupts := true }
      have moves : step (code p) env (compared.goto 22) = some (moved.goto 23) := rfl
      have enables : step (code p) env (moved.goto 23) = some (enabled.goto 24) := rfl
      have target : enabled.reg .rax = fetched p thread stack entry := by
        show Function.update loaded.reg .rcx (compared.reg .r10) .rax = _
        rw [Function.update_of_ne (by decide)]
        exact loadedRax
      rw [if_neg fun isSet => zero (isZero.mp isSet), along_step moves (confined_line compared 22 known),
        along_step enables (confined_line moved 23 known)]
      constructor
      · -- The call is made, so what it goes to is a handler.
        intro along
        let calling : Machine := { enabled.set .rsp (enabled.reg .rsp - 8) with
          memory := store (enabled.reg .rsp - 8) (env.place 25) 8 enabled.memory
          control := .callee (enabled.reg .rax) 25
          called := enabled.reg .rax :: enabled.called }
        have calls : step (code p) env (enabled.goto 24) = some calling := rfl
        rw [along_step calls (confined_line enabled 24 known)] at along
        obtain ⟨i, handler⟩ := (along_here along).1 (enabled.reg .rax) (List.mem_cons_self ..)
        exact .inr (.inr ⟨i, target.symm.trans handler⟩)
      · rintro (unreadable | null | ⟨i, handler⟩)
        · rw [readable] at unreadable
          cases unreadable
        · exact absurd null zero
        · exact along_call entered called top memory (target.trans handler)
  · rw [if_neg readable] at loads
    exact iff_of_true ((along_end loads).mpr (confined_line m 19 known)) (.inl (Bool.eq_false_iff.mpr readable))

-- An index that is not negative and below the length has its handler.
theorem fetched_handler (entered : Entered p env handlers thread stack entry) (index : (entry.reg .rax).toNat < tableSize) :
    fetched p thread stack entry = handlers ⟨(entry.reg .rax).toNat, index⟩ := by
  have place : slot p entry = p.syscallTable + BitVec.ofNat 64 (8 * (entry.reg .rax).toNat) := by
    unfold slot
    unfold tableSize at index
    bv_omega
  rw [fetched, place, prepared_table entered _ (Nat.le_of_lt index)]
  exact entered.table ⟨(entry.reg .rax).toNat, index⟩

theorem along_dispatch (entered : Entered p env handlers thread stack entry) {m : Machine} (called : m.called = [])
    (top : m.reg .rsp = stack - BitVec.ofNat 64 (8 * saved.length)) (memory : m.memory = (prepared p thread stack entry).memory)
    (rax : m.reg .rax = entry.reg .rax) :
    Along (code p) env (Confined handlers entry) (m.goto 17) ↔ (entry.reg .rax).toNat < 2 ^ 63 ∨
      env.readable (slot p entry) = false ∨ fetched p thread stack entry = 0 ∨ ∃ i, fetched p thread stack entry = handlers i := by
  have known : ∀ target ∈ m.called, ∃ i, target = handlers i := by
    rw [called]
    nofun
  have length : load m.memory (p.syscallTable + BitVec.ofNat 64 (8 * tableSize)) 8 = BitVec.ofNat 64 tableSize := by
    rw [memory]
    exact (prepared_table entered tableSize (Nat.le_refl _)).trans entered.length
  have six : (BitVec.ofNat 64 tableSize).toInt = 6 := by decide
  have bound := (entry.reg .rax).isLt
  rw [along_compare m known length (entered.readable.2.2.2.1 tableSize (Nat.le_refl _)), rax]
  by_cases high : (BitVec.ofNat 64 tableSize).toInt ≤ (entry.reg .rax).toInt
  · -- Not below the length, so not negative either.
    have small : (entry.reg .rax).toNat < 2 ^ 63 := by
      rcases to_int_cases (entry.reg .rax) with ⟨_, value⟩ | ⟨low, _⟩ <;> omega
    rw [if_pos high]
    exact iff_of_true (entry_leaves entered known top fun b _ => congrFun memory b) (.inl small)
  · let compared : Machine := { m with flags := subFlags (entry.reg .rax) (BitVec.ofNat 64 tableSize) }
    have loads := along_fetch (m := compared) entered called top memory rax
    rw [if_neg high]
    refine loads.trans ⟨.inr, fun condition => condition.elim (fun small => ?_) id⟩
    have index : (entry.reg .rax).toNat < tableSize := by
      unfold tableSize
      rcases to_int_cases (entry.reg .rax) with ⟨above, _⟩ | ⟨_, value⟩ <;> omega
    exact .inr (.inr ⟨_, fetched_handler entered index⟩)

theorem syscall_confined_iff (p : Places) (env : Env) (handlers : Fin tableSize → Word) (thread stack : Word) (entry : Machine)
    (entered : Entered p env handlers thread stack entry) :
    Along (code p) env (Confined handlers entry) entry ↔
      (entry.reg .rax).toNat < 2 ^ 63 ∨ env.readable (slot p entry) = false ∨ fetched p thread stack entry = 0 ∨
        ∃ i, fetched p thread stack entry = handlers i := by
  rw [along_enter entered]
  exact along_dispatch entered ((prepared_called entry).trans entered.called) (prepared_rsp entry) rfl
    (prepared_reg entry (by decide) (by decide))

end Proofs

-- A thread at 8192 with its stack below 12288, a table at 4096, and handlers that return
-- without doing anything.
def samplePlaces : Places := ⟨16, 32, 40, 4096⟩

def sampleHandlers (i : Fin tableSize) : Word := BitVec.ofNat 64 (36864 + 256 * i)

def sampleMemory : Memory :=
  store 16400 8192 8 (store 8232 12288 8 (store 4144 6 8
    ((List.finRange tableSize).foldr (fun (i : Fin tableSize) => store (4096 + BitVec.ofNat 64 (8 * i)) (sampleHandlers i) 8) fun _ => 0)))

def sampleEnv : Env := ⟨fun _ => true, fun line => BitVec.ofNat 64 (65536 + 4 * line), fun _ m => some (m.set .rsp (m.reg .rsp + 8))⟩

def calledWith (rax : Word) : Machine :=
  ⟨fun r => if r = .rax then rax else 7, fun _ => 0, sampleMemory, 0, 16384, ⟨false, false, false⟩, false, .line 0, []⟩

theorem called_with_entered (rax : Word) : Entered samplePlaces sampleEnv sampleHandlers 8192 12288 (calledWith rax) where
  control := rfl
  called := rfl
  current := by
    show load sampleMemory 16400 8 = 8192
    decide +kernel
  base := by
    show load sampleMemory 8232 8 = 12288
    decide +kernel
  table := by
    show ∀ i : Fin tableSize, load sampleMemory (4096 + BitVec.ofNat 64 (8 * i)) 8 = sampleHandlers i
    decide +kernel
  length := by
    show load sampleMemory (4096 + BitVec.ofNat 64 (8 * tableSize)) 8 = BitVec.ofNat 64 tableSize
    decide +kernel
  fields := by
    intro b inside
    simp only [Within, samplePlaces] at inside ⊢
    bv_omega
  tableApart := by
    have length : saved.length = 13 := rfl
    intro b inside
    simp only [Within, Below, samplePlaces, tableSize, length] at inside ⊢
    constructor <;> bv_omega
  stackApart := by
    have length : saved.length = 13 := rfl
    intro b inside
    simp only [Within, Below, samplePlaces, length] at inside ⊢
    bv_omega
  readable := ⟨rfl, rfl, rfl, fun _ _ => rfl, fun _ _ => rfl⟩
  returns := by
    intro i before after returned
    cases Option.some.inj returned
    refine ⟨?_, rfl, fun _ _ => rfl⟩
    simp only [Machine.set, Function.update_self]

theorem syscall_confined_debug :
    Entered samplePlaces sampleEnv sampleHandlers 8192 12288 (calledWith 1) ∧
      Along (code samplePlaces) sampleEnv (Confined sampleHandlers (calledWith 1)) (calledWith 1) :=
  ⟨called_with_entered 1, (syscall_confined_iff _ _ _ _ _ _ (called_with_entered 1)).mpr (.inl (by decide))⟩

-- The index 6 with the sign bit set: the length itself is called.
theorem syscall_negative_called :
    Entered samplePlaces sampleEnv sampleHandlers 8192 12288 (calledWith (BitVec.ofNat 64 (2 ^ 63 + 6))) ∧
      ¬ Along (code samplePlaces) sampleEnv (Confined sampleHandlers (calledWith (BitVec.ofNat 64 (2 ^ 63 + 6))))
        (calledWith (BitVec.ofNat 64 (2 ^ 63 + 6))) := by
  have entered := called_with_entered (BitVec.ofNat 64 (2 ^ 63 + 6))
  have found : fetched samplePlaces 8192 12288 (calledWith (BitVec.ofNat 64 (2 ^ 63 + 6))) = 6 := by
    have place : slot samplePlaces (calledWith (BitVec.ofNat 64 (2 ^ 63 + 6))) = 4096 + BitVec.ofNat 64 (8 * tableSize) := by decide
    rw [fetched, place]
    exact (prepared_table entered tableSize (Nat.le_refl _)).trans entered.length
  refine ⟨entered, fun along => ?_⟩
  have dispatched := along_dispatch (m := prepared samplePlaces 8192 12288 (calledWith (BitVec.ofNat 64 (2 ^ 63 + 6)))) entered
    ((prepared_called _).trans entered.called) (prepared_rsp _) rfl (prepared_reg _ (by decide) (by decide))
  rcases dispatched.mp ((along_enter entered).mp along) with small | unreadable | null | ⟨i, handler⟩
  · exact absurd small (by decide)
  · cases unreadable
  · rw [found] at null
    cases null
  · rw [found] at handler
    revert i
    decide

end Elysium.SyscallEntry
