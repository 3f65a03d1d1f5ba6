import Elysium.InterruptsFlags
import Elysium.Mutex

set_option autoImplicit false

namespace Elysium.MutexYield

open Transitions (Reachable reachable_invariant execute reachable_execute)
open Interrupts (Op Phase Counted Quiet Writes preemptOwed statusOwed runOp runBody schedYield booted)
open Mutex (Pc Move spinCount)

-- mutex_acquire on a CPU: the code below it and, from spinlock_acquire_noint to
-- spinlock_release_noint, the previous_state that the latter restores.
structure Call where
  rest : List Op
  noint : Option Bool

-- The code of the CPU when mutex_acquire is about to take its next step.
def Call.code (c : Call) : List Op :=
  match c.noint with
  | none => .body false :: c.rest
  | some previous => .body false :: .enableRead .status :: .decRead :: .interrupts previous :: .body false :: c.rest

-- A CPU with its threads, and a mutex that these and the threads of other CPUs use.
structure State (T R : Type) where
  cpu : Interrupts.State T
  mutex : Mutex.State (T ⊕ R)
  call : T → Option Call

inductive Action (T R : Type) where
  | cpu (action : Interrupts.Action T)
  | elsewhere (r : R) (move : Move)
  | acquire
  | run (spurious : Bool)
  | release (move : Move)
  | yield

-- mutex_release is at one of these.
def releases : Pc → Bool
  | .out | .releasing | .refused _ | .popping _ | .settling | .finishing => true
  | _ => false

section Model

variable {T R : Type} [DecidableEq T] [DecidableEq R]

namespace State

def enter (s : State T R) (call : Option Call) : State T R := { s with call := Function.update s.call s.cpu.current call }

def pc (s : State T R) : Pc := s.mutex.pc (.inl s.cpu.current)

-- One atomic operation of the current thread on the mutex.
def atomic (s : State T R) (spurious : Bool) : Option (State T R) :=
  (Mutex.step (.inl s.cpu.current, .run spurious) s.mutex).map fun mutex => { s with mutex := mutex }

end State

-- A step of mutex_acquire. Only the tries of the loop are followed by sched_yield(THREAD_STATE_READY).
def runCall (s : State T R) (c : Call) (spurious : Bool) : Pc → Option Bool → Option (State T R)
  | .out, none => some (s.enter none)
  | .trying left, none => (s.atomic spurious).map fun next =>
      if next.pc = .out ∨ left = spinCount then next else { next with cpu := next.cpu.goto (schedYield ++ c.code) }
  | .slow, none => (runBody s.cpu false c.rest .lockNoint).map fun cpu =>
      { s.enter (some { c with noint := some s.cpu.enabled }) with cpu := cpu }
  | .slow, some _ | .exchanging, some _ | .enqueuing, some _ | .waking, some _ | .storing, some _ => s.atomic spurious
  | .parking, some _ => (s.atomic spurious).map fun next => { next with cpu := next.cpu.goto (schedYield ++ c.code) }
  | .leaving, some _ => (s.atomic spurious).bind fun next => (runBody s.cpu false c.code.tail .finish).map fun cpu =>
      { next.enter (some { c with noint := none }) with cpu := cpu }
  | _, _ => none

-- mutex_acquire is called with both counters 0 and interrupts enabled, outside handlers.
structure Ready (cpu : Interrupts.State T) : Prop where
  preemptCounter : cpu.preemptCounter = 0
  deferredWorkStatus : cpu.deferredWorkStatus = 0
  enabled : cpu.enabled = true
  hard : cpu.inInterruptHard = false
  soft : cpu.inInterruptSoft = false

omit [DecidableEq T] in
theorem ready_iff {cpu : Interrupts.State T} : Ready cpu ↔ cpu.preemptCounter = 0 ∧ cpu.deferredWorkStatus = 0 ∧ cpu.enabled = true ∧
    cpu.inInterruptHard = false ∧ cpu.inInterruptSoft = false := by
  constructor
  · intro ready
    exact ⟨ready.preemptCounter, ready.deferredWorkStatus, ready.enabled, ready.hard, ready.soft⟩
  · intro ⟨preempt, status, enabled, hard, soft⟩
    exact ⟨preempt, status, enabled, hard, soft⟩

instance (cpu : Interrupts.State T) : Decidable (Ready cpu) := decidable_of_iff _ ready_iff.symm

-- The thread is in mutex_acquire itself, not in what that has called.
def AtCall (s : State T R) : Bool := (s.call s.cpu.current).any fun c => s.cpu.code = c.code

-- Code that is not spelled out calls mutex_acquire, mutex_release and sched_yield, the latter
-- as that asks for. An interrupt can come in mutex_acquire, too.
def step (action : Action T R) (s : State T R) : Option (State T R) :=
  match action with
  | .cpu action =>
      match action, AtCall s with
      | .run _, true => none
      | action, _ => (Interrupts.step action s.cpu).map fun cpu => { s with cpu := cpu }
  | .elsewhere r move => (Mutex.step (.inr r, move) s.mutex).map fun mutex => { s with mutex := mutex }
  | .acquire =>
      match s.call s.cpu.current, s.cpu.code with
      | none, .body false :: rest =>
          if s.cpu.failed = false ∧ Ready s.cpu then
            (Mutex.step (.inl s.cpu.current, .acquire) s.mutex).map fun mutex => { s.enter (some ⟨rest, none⟩) with mutex := mutex }
          else none
      | _, _ => none
  | .run spurious =>
      match s.call s.cpu.current with
      | some c => if s.cpu.failed = false ∧ s.cpu.code = c.code then runCall s c spurious s.pc c.noint else none
      | none => none
  | .release move =>
      match s.call s.cpu.current, s.cpu.code with
      | none, .body false :: _ =>
          if s.cpu.failed = false ∧ move ≠ .acquire ∧ releases s.pc = true then
            (Mutex.step (.inl s.cpu.current, move) s.mutex).map fun mutex => { s with mutex := mutex }
          else none
      | _, _ => none
  | .yield =>
      match s.call s.cpu.current, s.cpu.code with
      | none, .body false :: rest =>
          if s.cpu.failed = false ∧ Ready s.cpu then some { s with cpu := s.cpu.goto (schedYield ++ .body false :: rest) } else none
      | _, _ => none

structure begins (s : State T R) : Prop where
  cpu : booted s.cpu
  mutex : Mutex.initial s.mutex
  call : ∀ t, s.call t = none

-- The exchange of a thread of the CPU finds the mutex taken.
def Blocks (s : State T R) : Action T R → Bool
  | .run _ => s.pc = .exchanging ∧ s.mutex.state ≠ .unlocked
  | _ => false

def openStep (action : Action T R) (s : State T R) : Option (State T R) := if Blocks s action then none else step action s

-- Each sched_yield is entered as it asserts, and mutex_acquire returns with the counters
-- and the interrupts as it was called.
structure Respected (s : State T R) : Prop where
  yields : ∀ rest, s.cpu.code = .yieldMask :: rest → s.cpu.preemptCounter = 0 ∧ s.cpu.deferredWorkStatus = 0 ∧
    s.cpu.inInterruptHard = false ∧ s.cpu.inInterruptSoft = false
  returns : ∀ c, s.call s.cpu.current = some c → s.pc = .out → s.cpu.code = c.code → Ready s.cpu

end Model

-- What an operation sets the interrupts to, and what code leaves them at, if it says.
def setting : Op → Option Bool
  | .interrupts enabled | .pop enabled => some enabled
  | .iret _ => some true
  | _ => none

def settings : List Op → Option Bool
  | [] => none
  | op :: rest => (settings rest).or (setting op)

-- A thread that comes back from another sets them.
def Switches : List Op → Prop
  | [] => True
  | op :: rest => (op = .yieldSwitch → (settings rest).isSome) ∧ Switches rest

-- An activation that is not past its phase keeps preemption off below the step at hand.
def Guarded (p : Phase) : List Op → Prop
  | [] => True
  | op :: rest => (op = p.enter → p.leave ∈ rest) ∧ (p.leave ∈ rest → 1 ≤ preemptOwed rest) ∧ Guarded p rest

section Code

variable {p : Phase} {first rest : List Op}

theorem settings_append (first rest : List Op) : settings (first ++ rest) = (settings rest).or (settings first) := by
  induction first with
  | nil => simp [settings]
  | cons op others ih => rw [List.cons_append, settings, settings, ih, Option.or_assoc]

theorem switches_append (before : Switches first) (after : Switches rest) : Switches (first ++ rest) := by
  induction first with
  | nil => exact after
  | cons op others ih =>
      rw [List.cons_append]
      refine ⟨fun switch => ?_, ih before.2⟩
      rw [settings_append, Option.isSome_or, before.1 switch, Bool.or_true]

theorem guarded_quiet (quiet : Quiet first) (owed : p.leave ∈ rest → 1 ≤ preemptOwed rest) (guarded : Guarded p rest) :
    Guarded p (first ++ rest) := by
  induction first with
  | nil => exact guarded
  | cons op others ih =>
      obtain ⟨plain, _, quietOthers⟩ := quiet
      have notEnter := (Interrupts.plain_ne plain p).1
      exact ⟨fun enter => absurd enter notEnter, Interrupts.quiet_preempt quietOthers owed, ih quietOthers⟩

end Code

section Cpu

variable {T : Type} {s s' : Interrupts.State T} {op : Op} {rest : List Op}

-- A step that leaves the interrupts, at its end, as what it is replaced by leaves them.
structure Leaves (op : Op) (rest : List Op) (s s' : Interrupts.State T) : Prop where
  code : ∃ first, s'.code = first ++ rest ∧ Switches first ∧
    (settings first).or (some s'.enabled) = (setting op).or (some s.enabled)
  others : s'.saved = s.saved ∧ s'.current = s.current

attribute [local simp] Switches settings setting

theorem body_leaves {choice : Interrupts.Choice T} {work : Bool} (taken : runBody s work rest choice = some s') :
    Leaves (.body work) rest s s' := by
  cases choice with
  | finish =>
      simp only [runBody, Option.ite_none_left_eq_some, Option.some.injEq] at taken
      obtain ⟨_, rfl⟩ := taken
      exact ⟨⟨[], rfl, trivial, rfl⟩, rfl, rfl⟩
  | pair =>
      cases taken
      exact ⟨⟨[.inc, .body work, .decRead, .body work], rfl, by simp, rfl⟩, rfl, rfl⟩
  | lockNodw =>
      cases taken
      exact ⟨⟨[.inc, .disable, .body work, .enableRead .status, .decRead, .body work], rfl, by simp, rfl⟩, rfl, rfl⟩
  | lockNoint =>
      cases taken
      exact ⟨⟨[.inc, .disable, .body work, .enableRead .status, .decRead, .interrupts s.enabled, .body work], rfl,
        by simp, rfl⟩, rfl, rfl⟩
  | setYield =>
      simp only [runBody, Option.ite_none_right_eq_some, Option.some.injEq] at taken
      obtain ⟨_, rfl⟩ := taken
      exact ⟨⟨[.body work], rfl, by simp, rfl⟩, rfl, rfl⟩
  | queue _ => cases taken
  | switch _ => cases taken

variable [DecidableEq T]

theorem op_leaves {choice : Interrupts.Choice T} (stays : op ≠ .yieldSwitch) (taken : runOp s choice rest op = some s') :
    s' = s.fail ∨ Leaves op rest s s' := by
  have goesOn : ∀ first : List Op, s'.code = first ++ rest → Switches first →
      (settings first).or (some s'.enabled) = (setting op).or (some s.enabled) → (s'.saved = s.saved ∧ s'.current = s.current) →
      s' = s.fail ∨ Leaves op rest s s' := fun first code switches enabled others => .inr ⟨⟨first, code, switches, enabled⟩, others⟩
  cases op with
  | inc =>
      simp only [runOp] at taken
      split at taken
      · cases taken
        exact goesOn [] rfl trivial rfl ⟨rfl, rfl⟩
      · cases taken
        exact .inl rfl
  | decRead =>
      simp only [runOp] at taken
      split at taken
      · cases taken
        exact .inl rfl
      · split at taken
        · cases taken
          exact goesOn [.exchange] rfl (by simp) rfl ⟨rfl, rfl⟩
        · cases taken
          exact goesOn [.decrement false false] rfl (by simp) rfl ⟨rfl, rfl⟩
  | exchange =>
      cases taken
      exact goesOn [.decrement true s.yieldImmediately] rfl (by simp) rfl ⟨rfl, rfl⟩
  | decrement last yield =>
      cases taken
      refine goesOn (if yield then schedYield else []) rfl ?_ ?_ ⟨rfl, rfl⟩
      · cases yield <;> simp [schedYield]
      · cases yield <;> rfl
  | yieldMask =>
      simp only [runOp] at taken
      split at taken
      · cases taken
        exact goesOn [.body false, .yieldSwitch, .body false, .interrupts s.enabled] rfl (by simp) rfl ⟨rfl, rfl⟩
      · cases taken
        exact .inl rfl
  | yieldSwitch => exact absurd rfl stays
  | interrupts enabled =>
      cases taken
      exact goesOn [] rfl trivial rfl ⟨rfl, rfl⟩
  | disable =>
      simp only [runOp] at taken
      split at taken
      · cases taken
        exact goesOn [] rfl trivial rfl ⟨rfl, rfl⟩
      · cases taken
        exact .inl rfl
  | enableRead caller =>
      simp only [runOp] at taken
      split at taken
      · cases taken
        exact .inl rfl
      · cases taken
        exact goesOn [.enableDec caller (s.deferredWorkStatus = 1)] rfl (by simp) rfl ⟨rfl, rfl⟩
  | enableDec caller last =>
      cases taken
      refine goesOn (if caller = .status ∧ last = true then Interrupts.dwProcess else []) rfl ?_ ?_ ⟨rfl, rfl⟩
      · split <;> simp [Interrupts.dwProcess]
      · split <;> rfl
  | push cleanup =>
      cases taken
      exact goesOn [] rfl trivial rfl ⟨rfl, rfl⟩
  | loop =>
      cases taken
      exact goesOn [.inc, .test] rfl (by simp) rfl ⟨rfl, rfl⟩
  | test =>
      simp only [runOp] at taken
      split at taken
      · cases taken
        exact goesOn [.decRead, .enableRead .process] rfl (by simp) rfl ⟨rfl, rfl⟩
      · cases taken
        exact goesOn [.popMask] rfl (by simp) rfl ⟨rfl, rfl⟩
  | popMask =>
      cases taken
      exact goesOn [.pop s.enabled] rfl (by simp) rfl ⟨rfl, rfl⟩
  | pop enabled =>
      simp only [runOp] at taken
      split at taken
      · cases taken
        exact .inl rfl
      · rename_i item items _
        cases taken
        exact goesOn [.interrupts enabled, .decRead, .run item, .loop] rfl (by simp) rfl ⟨rfl, rfl⟩
  | run item =>
      cases taken
      refine goesOn (.body true :: if item.cleanup then [.cleanup item] else []) rfl ?_ ?_ ⟨rfl, rfl⟩
      · split <;> simp
      · split <;> rfl
  | hard =>
      cases choice with
      | finish =>
          cases taken
          exact goesOn [] rfl trivial rfl ⟨rfl, rfl⟩
      | queue cleanup =>
          cases taken
          exact goesOn [.inc, .disable, .push cleanup, .enableRead .queue, .decRead, .hard] rfl (by simp) rfl ⟨rfl, rfl⟩
      | pair => cases taken
      | lockNodw => cases taken
      | lockNoint => cases taken
      | setYield => cases taken
      | switch _ => cases taken
  | iret user =>
      simp only [runOp] at taken
      split at taken
      · cases taken
        exact .inl rfl
      · cases taken
        exact goesOn [] rfl trivial rfl ⟨rfl, rfl⟩
  | body work => exact .inr (body_leaves taken)
  | cleanup item =>
      cases taken
      exact goesOn [] rfl trivial rfl ⟨rfl, rfl⟩
  | hardEnter =>
      cases taken
      exact goesOn [] rfl trivial rfl ⟨rfl, rfl⟩
  | hardLeave =>
      cases taken
      exact goesOn [] rfl trivial rfl ⟨rfl, rfl⟩
  | softEnter =>
      cases taken
      exact goesOn [] rfl trivial rfl ⟨rfl, rfl⟩
  | softLeave =>
      cases taken
      exact goesOn [] rfl trivial rfl ⟨rfl, rfl⟩

-- A flag is only set while an activation has still to clear it.
structure Kept (p : Phase) (s : Interrupts.State T) : Prop where
  guarded : Guarded p s.code
  top : (∀ op ∈ s.code, op.early = false) → p.leave ∈ s.code → 1 ≤ preemptOwed s.code
  flag : p.flag s = true → p.leave ∈ s.code
  saved : ∀ t, t ≠ s.current → Guarded p (s.saved t) ∧ p.leave ∉ s.saved t

-- Below a step that needs all preemption back no activation is left.
omit [DecidableEq T] in
theorem settled_clear {p : Phase} (kept : Kept p s) (here : s.code = op :: rest) (settled : preemptOwed rest = 0) : p.leave ∉ rest := by
  intro member
  have guarded := kept.guarded
  rw [here] at guarded
  have owed := guarded.2.1 member
  rw [settled] at owed
  exact absurd owed (by decide)

theorem op_kept {p : Phase} {choice : Interrupts.Choice T} (counted : Counted s) (kept : Kept p s) (here : s.code = op :: rest)
    (taken : runOp s choice rest op = some s') : Kept p s' := by
  have guarded := kept.guarded
  have flag := kept.flag
  rw [here] at guarded flag
  obtain ⟨enters, owed, tail⟩ := guarded
  have written : s'.code = rest → s'.saved = s.saved ∧ s'.current = s.current →
      p.flag s' = (if op = p.leave then false else if op = p.enter then true else p.flag s) → Kept p s' := by
    intro code others value
    refine ⟨code ▸ tail, fun _ => code ▸ owed, fun on => ?_, by rw [others.1, others.2]; exact kept.saved⟩
    rw [value] at on
    rw [code]
    by_cases leave : op = p.leave
    · simp [leave] at on
    · by_cases enter : op = p.enter
      · exact enters enter
      · rw [if_neg leave, if_neg enter] at on
        exact (List.mem_cons.mp (flag on)).resolve_left (Ne.symm leave)
  by_cases plain : op.flags = false
  · have notLeave := (Interrupts.plain_ne plain p).2
    have below : p.flag s = true → p.leave ∈ rest := fun on => (List.mem_cons.mp (flag on)).resolve_left (Ne.symm notLeave)
    by_cases switches : op = .yieldSwitch
    · subst switches
      have absent := settled_clear kept here (Interrupts.settled counted here)
      obtain rfl | ⟨t, same, rfl⟩ := Interrupts.switch_cases taken
      · exact ⟨tail, fun _ => owed, by cases p <;> exact below, kept.saved⟩
      · refine ⟨(kept.saved t same).1, fun _ inside => absurd inside (kept.saved t same).2, fun on => ?_,
          Interrupts.forall_switched (P := fun _ code => Guarded p code ∧ p.leave ∉ code) ⟨tail, absent⟩ kept.saved⟩
        exact absurd (below (by cases p <;> exact on)) absent
    · rcases Interrupts.op_writes plain switches taken with rfl | writes
      · exact ⟨kept.guarded, kept.top, by cases p <;> exact kept.flag, kept.saved⟩
      · obtain ⟨first, code, quiet, _⟩ := writes.code
        have same : p.flag s' = p.flag s := by
          cases p with
          | hard => exact writes.flags.1
          | soft => exact writes.flags.2
        refine ⟨?_, fun _ => ?_, fun on => ?_, ?_⟩
        · rw [code]
          exact guarded_quiet quiet owed tail
        · rw [code]
          exact Interrupts.quiet_preempt quiet owed
        · rw [code]
          exact List.mem_append_right _ (below (same ▸ on))
        · rw [writes.others.1, writes.others.2]
          exact kept.saved
  · cases op <;> first
      | exact absurd rfl plain
      | (cases taken
         exact written rfl ⟨rfl, rfl⟩ (by cases p <;> rfl))

omit [DecidableEq T] in
theorem interrupt_kept {p : Phase} {user : Bool} (counted : Counted s) (kept : Kept p s) (late : ∀ op ∈ s.code, op.early = false) :
    Kept p { s.goto (Interrupts.handler user ++ s.code) with enabled := false } := by
  have held := (Interrupts.shaped_held counted.shaped).preempt
  have guarded := kept.guarded
  have top := kept.top late
  refine ⟨?_, fun entered => ?_, fun _ => ?_, kept.saved⟩
  · show Guarded p (Interrupts.handler user ++ s.code)
    cases p <;> simp [Interrupts.handler, Guarded, preemptOwed, Op.preempt, Phase.enter, Phase.leave] at top ⊢ <;> grind
  · exact absurd (entered .hardEnter (by simp [Interrupts.handler, Interrupts.State.goto])) (by decide)
  · show p.leave ∈ Interrupts.handler user ++ s.code
    cases p <;> simp [Interrupts.handler, Phase.leave]

-- The code comes back to mutex_acquire, where the interrupts are as in the call: masked in its
-- critical section, enabled outside. Another thread that runs in between sets enabled to anything.
def Returns (c : Call) (code : List Op) (enabled : Option Bool) : Prop :=
  ∃ above, code = above ++ c.code ∧ Switches above ∧ (settings above).or enabled = some c.noint.isNone

-- What holds of the CPU, for each call that its threads are in.
structure CpuInv (call : T → Option Call) (s : Interrupts.State T) : Prop where
  counted : Counted s
  shut : Interrupts.Shut s
  kept : ∀ p, Kept p s
  current : ∀ c, call s.current = some c → Returns c s.code (some s.enabled)
  saved : ∀ t, t ≠ s.current → ∀ c, call t = some c → Returns c (s.saved t) none

variable {call : T → Option Call} {c : Call}

omit [DecidableEq T] in
theorem fail_cpu_inv (inv : CpuInv call s) : CpuInv call s.fail := by
  refine ⟨Interrupts.fail_counted inv.counted, ⟨inv.shut.masked, inv.shut.enabled, inv.shut.saved⟩, fun p => ?_, inv.current, inv.saved⟩
  have kept := inv.kept p
  exact ⟨kept.guarded, kept.top, by cases p <;> exact kept.flag, kept.saved⟩

-- A step in what mutex_acquire has called.
omit [DecidableEq T] in
theorem leaves_returns (returns : Returns c (op :: rest) (some s.enabled)) (below : op :: rest ≠ c.code) (leaves : Leaves op rest s s') :
    Returns c s'.code (some s'.enabled) := by
  obtain ⟨above, code, switches, ends⟩ := returns
  obtain ⟨first, code', switches', same⟩ := leaves.code
  cases above with
  | nil => exact absurd code below
  | cons op' above =>
      obtain ⟨rfl, rfl⟩ := List.cons.inj code
      refine ⟨first ++ above, code'.trans (List.append_assoc _ _ _).symm, switches_append switches' switches.2, ?_⟩
      rw [settings_append, Option.or_assoc, same, ← Option.or_assoc]
      exact ends

omit [DecidableEq T] in
theorem switch_returns (returns : Returns c (.yieldSwitch :: rest) (some s.enabled)) (below : .yieldSwitch :: rest ≠ c.code) :
    Returns c rest none := by
  obtain ⟨above, code, switches, ends⟩ := returns
  cases above with
  | nil => exact absurd code below
  | cons op above =>
      obtain ⟨rfl, rfl⟩ := List.cons.inj code
      obtain ⟨enabled, set⟩ := Option.isSome_iff_exists.mp (switches.1 rfl)
      refine ⟨above, rfl, switches.2, ?_⟩
      rw [settings, set] at ends
      rw [set]
      exact ends

omit [DecidableEq T] in
theorem returns_weaken {code : List Op} {enabled : Option Bool} (returns : Returns c code none) : Returns c code enabled := by
  obtain ⟨above, same, switches, ends⟩ := returns
  rw [Option.or_none] at ends
  exact ⟨above, same, switches, by rw [ends, Option.some_or]⟩

theorem run_cpu_inv {choice : Interrupts.Choice T} (inv : CpuInv call s) (here : s.code = op :: rest)
    (below : ∀ c, call s.current = some c → s.code ≠ c.code) (taken : runOp s choice rest op = some s') : CpuInv call s' := by
  have counted := Interrupts.op_counted inv.counted here taken
  have shut := Interrupts.op_shut inv.counted inv.shut here taken
  have kept := fun p => op_kept inv.counted (inv.kept p) here taken
  have current := inv.current
  rw [here] at current below
  by_cases switches : op = .yieldSwitch
  · subst switches
    have goes : ∀ c, call s.current = some c → Returns c rest none := fun c called => switch_returns (current c called) (below c called)
    obtain rfl | ⟨t, same, rfl⟩ := Interrupts.switch_cases taken
    · exact ⟨counted, shut, kept, fun c called => returns_weaken (goes c called), inv.saved⟩
    · exact ⟨counted, shut, kept, fun c called => returns_weaken (inv.saved t same c called),
        Interrupts.forall_switched (P := fun t code => ∀ c, call t = some c → Returns c code none) goes inv.saved⟩
  · rcases op_leaves switches taken with rfl | leaves
    · exact fail_cpu_inv inv
    · refine ⟨counted, shut, kept, ?_, ?_⟩
      · rw [leaves.others.2]
        exact fun c called => leaves_returns (current c called) (below c called) leaves
      · rw [leaves.others.1, leaves.others.2]
        exact inv.saved

omit [DecidableEq T] in
theorem interrupt_cpu_inv {user : Bool} (inv : CpuInv call s) (on : s.enabled = true) :
    CpuInv call { s.goto (Interrupts.handler user ++ s.code) with enabled := false } := by
  refine ⟨Interrupts.interrupt_counted inv.counted, Interrupts.interrupt_shut inv.counted inv.shut on,
    fun p => interrupt_kept inv.counted (inv.kept p) (inv.shut.enabled on), fun c called => ?_, inv.saved⟩
  obtain ⟨above, code, switches, ends⟩ := inv.current c called
  refine ⟨Interrupts.handler user ++ above, ?_, ?_, ?_⟩
  · show Interrupts.handler user ++ s.code = _
    rw [code, List.append_assoc]
  · exact switches_append (by simp [Interrupts.handler]) switches
  · rw [settings_append, Option.or_assoc, ← ends, on]
    rfl

theorem step_cpu_inv {action : Interrupts.Action T} (inv : CpuInv call s) (taken : Interrupts.step action s = some s')
    (below : (∃ choice, action = .run choice) → ∀ c, call s.current = some c → s.code ≠ c.code) : CpuInv call s' := by
  obtain ⟨_, ⟨choice, op, rest, run, here, taken⟩ | ⟨user, _, on, rfl⟩⟩ := Interrupts.step_cases taken
  · exact run_cpu_inv inv here (below ⟨choice, run⟩) taken
  · exact interrupt_cpu_inv inv on

-- sched_yield is called, from code that owes nothing.
omit [DecidableEq T] in
theorem yield_cpu_inv (inv : CpuInv call s) (here : s.code = .body false :: rest) (settled : preemptOwed rest = 0) :
    CpuInv call (s.goto (schedYield ++ .body false :: rest)) := by
  have counted := inv.counted
  have masked := inv.shut.masked
  have clear := fun p => settled_clear (inv.kept p) here settled
  have shaped := (Interrupts.counted_head counted here).1
  rw [here] at masked
  have late : ∀ op ∈ .body false :: rest, op.early = false := by
    intro op member
    by_contra early
    rcases List.mem_cons.mp member with rfl | below
    · exact early rfl
    · have owed := masked.2.1 ⟨op, below, by simpa using early⟩
      rw [settled] at owed
      exact absurd owed (by decide)
  have zero : preemptOwed (.body false :: rest) = 0 := by
    rw [preemptOwed, settled]
    rfl
  have yields : Interrupts.Shaped (.yieldMask :: .body false :: rest) := by
    have held := Interrupts.shaped_held shaped
    refine Interrupts.shaped_cons.mpr ⟨⟨?_, ?_, ?_, ?_⟩, zero, shaped⟩
    · simpa only [Op.preempt, Int.zero_add] using held.preempt
    · simpa only [Op.status, Int.zero_add] using held.status
    · simpa only [Op.preempt, Op.status, Int.zero_add] using held.guarded
    · simpa [Op.preempt, Op.works] using held.works
  refine ⟨?_, ?_, fun p => ?_, fun c called => ?_, inv.saved⟩
  · exact Interrupts.counted_replace (s := s) [.yieldMask, .body false] counted here rfl ⟨rfl, rfl⟩ rfl rfl yields
  · refine ⟨⟨fun _ => late, fun opened => ?_, masked⟩, fun _ => ?_, inv.shut.saved⟩
    · obtain ⟨op, member, early⟩ := opened
      rw [late op member] at early
      cases early
    · show ∀ op ∈ Op.yieldMask :: .body false :: rest, op.early = false
      exact List.forall_mem_cons.mpr ⟨rfl, late⟩
  · have kept := inv.kept p
    have guarded := kept.guarded
    have flag := kept.flag
    have absent : p.leave ∉ Op.body false :: rest := fun member => by
      rcases List.mem_cons.mp member with same | below
      · cases p <;> cases same
      · exact clear p below
    rw [here] at guarded flag
    refine ⟨⟨fun enter => ?_, fun inside => absurd inside absent, guarded⟩, fun _ inside => ?_, fun on => ?_, kept.saved⟩
    · cases p <;> cases enter
    · refine absurd ((List.mem_cons.mp inside).resolve_left fun same => ?_) absent
      cases p <;> cases same
    · exact absurd (flag (by cases p <;> exact on)) absent
  · obtain ⟨above, code, switches, ends⟩ := inv.current c called
    rw [here] at code
    have stays : Op.yieldMask ≠ .yieldSwitch := by decide
    exact ⟨.yieldMask :: above, congrArg (Op.yieldMask :: ·) code, ⟨fun same => absurd same stays, switches⟩, by simpa [settings, setting, Interrupts.State.goto] using ends⟩

-- The thread enters mutex_acquire or its critical section, or leaves it.
theorem enter_cpu_inv {next : Option Call} (inv : CpuInv call s) (returns : ∀ c, next = some c → Returns c s.code (some s.enabled)) :
    CpuInv (Function.update call s.current next) s := by
  refine ⟨inv.counted, inv.shut, inv.kept, ?_, fun t other => ?_⟩
  · rw [Function.update_self]
    exact returns
  · rw [Function.update_of_ne other]
    exact inv.saved t other

-- An operation of mutex_acquire on its own counters.
theorem body_cpu_inv {choice : Interrupts.Choice T} {next : Option Call} (inv : CpuInv call s) (here : s.code = .body false :: rest)
    (taken : runBody s false rest choice = some s') (returns : ∀ c, next = some c → Returns c s'.code (some s'.enabled)) :
    CpuInv (Function.update call s.current next) s' := by
  have apart : CpuInv (Function.update call s.current none) s := enter_cpu_inv inv nofun
  have after := run_cpu_inv apart here (by simp) taken
  have entered := enter_cpu_inv after returns
  rwa [(body_leaves taken).others.2, Function.update_idem] at entered

end Cpu

end Elysium.MutexYield
