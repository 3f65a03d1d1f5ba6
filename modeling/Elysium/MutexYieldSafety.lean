import Elysium.MutexYield

set_option autoImplicit false

namespace Elysium.MutexYield

open Transitions (Reachable reachable_invariant execute reachable_execute)
open Interrupts (Op Phase Counted preemptOwed statusOwed runOp runBody schedYield)
open Mutex (Pc Move spinCount)

-- Where a thread of the CPU can be in mutex_acquire, when none has found the mutex taken.
def Placed (call : Option Call) (pc : Pc) : Bool :=
  match call.map Call.noint, pc with
  | none, .failed => true
  | none, pc => releases pc
  | some none, .out | some none, .trying _ | some none, .slow => true
  | some (some _), .slow | some (some _), .exchanging | some (some _), .storing | some (some _), .leaving => true
  | _, _ => false

section Mutex

variable {U : Type} [DecidableEq U] {m m' : Mutex.State U} {u : U} {move : Move}

-- One party moves to another place, and another one only if it is popped.
theorem moves (taken : Mutex.step (u, move) m = some m') :
    (∃ pc, m'.pc = Function.update m.pc u pc ∧ (m'.waitQueue = m.waitQueue ∨ m.pc u = .enqueuing ∧ m'.waitQueue = m.waitQueue ++ [u]) ∧
      (releases (m.pc u) = true → move ≠ .acquire → releases pc = true ∨ pc = .failed)) ∨
    ∃ seen thread, m.pc u = .popping seen ∧ m.waitQueue = thread :: m'.waitQueue ∧
      m'.pc = Function.update (Function.update m.pc u .settling) thread .waking := by
  simp only [Mutex.step, Mutex.stepAt.eq_def] at taken
  split at taken
  all_goals rename_i place
  all_goals try rw [place]
  all_goals try split at taken
  all_goals try split at taken
  all_goals cases taken
  all_goals first
    | exact .inl ⟨_, rfl, .inl rfl, by simp [releases]⟩
    | exact .inl ⟨_, rfl, .inr ⟨rfl, rfl⟩, by simp [releases]⟩
    | exact .inr ⟨_, _, rfl, ‹_›, rfl⟩

theorem others_stay (taken : Mutex.step (u, move) m = some m') (v : U) (other : v ≠ u) (apart : v ∉ m.waitQueue) :
    m'.pc v = m.pc v ∧ v ∉ m'.waitQueue := by
  obtain ⟨pc, places, queue, _⟩ | ⟨seen, thread, _, queue, places⟩ := moves taken
  · refine ⟨by rw [places, Function.update_of_ne other], ?_⟩
    rcases queue with same | ⟨_, pushed⟩
    · rwa [same]
    · simp [pushed, apart, other]
  · rw [queue, List.mem_cons, not_or] at apart
    exact ⟨by rw [places, Function.update_of_ne apart.1, Function.update_of_ne other], apart.2⟩

theorem own_queue (taken : Mutex.step (u, move) m = some m') (outside : m.pc u ≠ .enqueuing) (apart : u ∉ m.waitQueue) :
    u ∉ m'.waitQueue := by
  obtain ⟨pc, _, same | ⟨place, _⟩, _⟩ | ⟨seen, thread, _, queue, _⟩ := moves taken
  · rwa [same]
  · exact absurd place outside
  · rw [queue, List.mem_cons, not_or] at apart
    exact apart.2

theorem release_moves (taken : Mutex.step (u, move) m = some m') (releasing : releases (m.pc u) = true) (notAcquire : move ≠ .acquire)
    (apart : u ∉ m.waitQueue) : releases (m'.pc u) = true ∨ m'.pc u = .failed := by
  obtain ⟨pc, places, _, after⟩ | ⟨seen, thread, _, queue, places⟩ := moves taken
  · rw [places, Function.update_self]
    exact after releasing notAcquire
  · rw [queue, List.mem_cons, not_or] at apart
    rw [places, Function.update_of_ne apart.1, Function.update_self]
    exact .inl rfl

end Mutex

section Product

variable {T R : Type} [DecidableEq T] [DecidableEq R] {s s' : State T R}

structure Inv (s : State T R) : Prop where
  cpu : CpuInv s.call s.cpu
  calls : ∀ t c, s.call t = some c → preemptOwed c.rest = 0 ∧ c.noint ≠ some false
  placed : ∀ t, Placed (s.call t) (s.mutex.pc (.inl t)) = true
  queue : ∀ t, .inl t ∉ s.mutex.waitQueue

-- The current thread goes on in mutex_acquire, or enters or leaves it.
omit [DecidableEq R] in
theorem call_inv {mutex : Mutex.State (T ⊕ R)} {cpu : Interrupts.State T} {next : Option Call} (inv : Inv s)
    (others : ∀ t, t ≠ s.cpu.current → mutex.pc (.inl t) = s.mutex.pc (.inl t)) (queue : ∀ t, .inl t ∉ mutex.waitQueue)
    (cpuInv : CpuInv (Function.update s.call s.cpu.current next) cpu)
    (called : ∀ c, next = some c → preemptOwed c.rest = 0 ∧ c.noint ≠ some false)
    (placed : Placed next (mutex.pc (.inl s.cpu.current)) = true) :
    Inv { cpu := cpu, mutex := mutex, call := Function.update s.call s.cpu.current next } := by
  refine ⟨cpuInv, fun t c => ?_, fun t => ?_, queue⟩
  · show Function.update s.call s.cpu.current next t = some c → _
    by_cases same : t = s.cpu.current
    · rw [same, Function.update_self]
      exact called c
    · rw [Function.update_of_ne same]
      exact inv.calls t c
  · show Placed (Function.update s.call s.cpu.current next t) (mutex.pc (.inl t)) = true
    by_cases same : t = s.cpu.current
    · rwa [same, Function.update_self]
    · rw [Function.update_of_ne same, others t same]
      exact inv.placed t

-- Its own move leaves the others of the CPU alone.
theorem own_move {move : Move} {mutex : Mutex.State (T ⊕ R)} (inv : Inv s) (taken : Mutex.step (.inl s.cpu.current, move) s.mutex = some mutex)
    (outside : s.pc ≠ .enqueuing) :
    (∀ t, t ≠ s.cpu.current → mutex.pc (.inl t) = s.mutex.pc (.inl t)) ∧ ∀ t, .inl t ∉ mutex.waitQueue := by
  refine ⟨fun t apart => (others_stay taken (.inl t) (by simpa using apart) (inv.queue t)).1, fun t => ?_⟩
  by_cases same : t = s.cpu.current
  · subst same
    exact own_queue taken outside (inv.queue _)
  · exact (others_stay taken (.inl t) (by simpa using same) (inv.queue t)).2

-- An operation on the mutex that is followed by no change of the counters, or by sched_yield.
theorem atomic_inv {spurious : Bool} {c : Call} {next : State T R} {cpu : Interrupts.State T} (inv : Inv s) (called : s.call s.cpu.current = some c)
    (taken : s.atomic spurious = some next) (outside : s.pc ≠ .enqueuing) (cpuInv : CpuInv s.call cpu)
    (placed : Placed (some c) next.pc = true) : Inv { next with cpu := cpu } := by
  obtain ⟨mutex, move, rfl⟩ := Option.map_eq_some_iff.mp taken
  obtain ⟨others, queue⟩ := own_move inv move outside
  have same : Function.update s.call s.cpu.current (some c) = s.call := by
    rw [← called, Function.update_eq_self]
  have stays : Inv { cpu := cpu, mutex := mutex, call := Function.update s.call s.cpu.current (some c) } :=
    call_inv inv others queue (same.symm ▸ cpuInv) (fun c' entered => Option.some.inj entered ▸ inv.calls _ c called) placed
  rwa [same] at stays

theorem elsewhere_inv {r : R} {move : Move} {mutex : Mutex.State (T ⊕ R)} (inv : Inv s)
    (taken : Mutex.step (.inr r, move) s.mutex = some mutex) : Inv { s with mutex := mutex } := by
  refine ⟨inv.cpu, inv.calls, fun t => ?_, fun t => (others_stay taken (.inl t) (by simp) (inv.queue t)).2⟩
  show Placed (s.call t) (mutex.pc (.inl t)) = true
  rw [(others_stay taken (.inl t) (by simp) (inv.queue t)).1]
  exact inv.placed t

-- In mutex_acquire itself interrupts are masked in its critical section alone.
omit [DecidableEq T] in
theorem returns_here {c : Call} {enabled : Bool} (returns : Returns c c.code (some enabled)) : enabled = c.noint.isNone := by
  obtain ⟨above, code, _, ends⟩ := returns
  have none : above = [] := List.self_eq_append_left.mp code
  rw [none, settings, Option.none_or] at ends
  exact Option.some.inj ends

theorem outside_inv {c : Call} {spurious : Bool} (inv : Inv s) (called : s.call s.cpu.current = some c) (here : s.cpu.code = c.code)
    (outside : c.noint = none) (taken : runCall s c spurious s.pc none = some s') : Inv s' := by
  obtain ⟨owed, _⟩ := inv.calls _ c called
  have placed := inv.placed s.cpu.current
  have enabled := returns_here (here ▸ inv.cpu.current c called)
  have code : c.code = .body false :: c.rest := by rw [Call.code, outside]
  rw [called, ← State.pc] at placed
  rw [outside] at enabled
  rw [code] at here
  cases place : s.pc with
  | out =>
      rw [place] at taken
      cases taken
      refine call_inv inv (fun _ _ => rfl) inv.queue (enter_cpu_inv inv.cpu nofun) nofun ?_
      rw [← State.pc, place]
      rfl
  | trying left =>
      rw [place] at taken
      obtain ⟨next, move, rfl⟩ := Option.map_eq_some_iff.mp taken
      have after : next.pc = .out ∨ next.pc = Mutex.afterTry left := by
        obtain ⟨mutex, step, rfl⟩ := Option.map_eq_some_iff.mp move
        simp only [State.pc] at place ⊢
        simp only [Mutex.step, Mutex.stepAt, place] at step
        split at step
        · cases step
          exact .inl (Function.update_self _ _ _)
        · cases step
          exact .inr (Function.update_self _ _ _)
      have placed' : Placed (some c) next.pc = true := by
        rcases after with now | now
        · simp [now, Placed, outside]
        · cases left <;> simp [now, Placed, outside, Mutex.afterTry]
      have same : next.cpu = s.cpu := by
        obtain ⟨mutex, _, rfl⟩ := Option.map_eq_some_iff.mp move
        rfl
      have notEnqueuing : s.pc ≠ .enqueuing := by
        rw [place]
        nofun
      split
      · have stays := atomic_inv inv called move notEnqueuing inv.cpu placed'
        rwa [← same] at stays
      · rw [same, code]
        exact atomic_inv inv called move notEnqueuing (yield_cpu_inv inv.cpu here owed) placed'
  | slow =>
      simp only [place, runCall] at taken
      obtain ⟨cpu, locked, rfl⟩ := Option.map_eq_some_iff.mp taken
      refine call_inv inv (fun _ _ => rfl) inv.queue (body_cpu_inv inv.cpu here locked ?_) ?_ ?_
      · rintro c' entered
        cases entered
        cases locked
        exact ⟨[.inc, .disable], rfl, by simp [Switches], rfl⟩
      · rintro c' entered
        cases entered
        exact ⟨owed, by simp [enabled]⟩
      · show Placed _ s.pc = true
        rw [place]
        rfl
  | _ => simp [place, Placed, outside] at placed

theorem inside_inv {c : Call} {spurious previous : Bool} (inv : Inv s) (called : s.call s.cpu.current = some c) (here : s.cpu.code = c.code)
    (inside : c.noint = some previous) (opens : s.pc = .exchanging → s.mutex.state = .unlocked)
    (taken : runCall s c spurious s.pc (some previous) = some s') : Inv s' := by
  obtain ⟨owed, restored⟩ := inv.calls _ c called
  have placed := inv.placed s.cpu.current
  have code : c.code = .body false :: .enableRead .status :: .decRead :: .interrupts previous :: .body false :: c.rest := by
    rw [Call.code, inside]
  rw [called, ← State.pc] at placed
  have stays : ∀ place, s.pc = place → place ≠ .enqueuing → s.atomic spurious = some s' → Placed (some c) s'.pc = true → Inv s' := by
    intro place at_ outside move placed'
    have same : s'.cpu = s.cpu := by
      obtain ⟨mutex, _, rfl⟩ := Option.map_eq_some_iff.mp move
      rfl
    have kept := atomic_inv inv called move (at_ ▸ outside) inv.cpu placed'
    rwa [← same] at kept
  cases place : s.pc with
  | slow =>
      rw [place] at taken
      refine stays .slow place nofun taken ?_
      obtain ⟨mutex, step, rfl⟩ := Option.map_eq_some_iff.mp taken
      simp only [State.pc] at place
      simp only [Mutex.step, Mutex.stepAt, place, Option.ite_none_left_eq_some, Option.some.injEq] at step
      obtain ⟨_, rfl⟩ := step
      simp [State.pc, Mutex.State.goto, Placed, inside]
  | exchanging =>
      rw [place] at taken
      refine stays .exchanging place nofun taken ?_
      obtain ⟨mutex, step, rfl⟩ := Option.map_eq_some_iff.mp taken
      have free := opens place
      simp only [State.pc] at place
      simp only [Mutex.step, Mutex.stepAt, place, free, ne_eq, not_true_eq_false, if_false, Option.some.injEq] at step
      subst step
      simp [State.pc, Mutex.State.goto, Mutex.State.give, Placed, inside]
  | storing =>
      rw [place] at taken
      refine stays .storing place nofun taken ?_
      obtain ⟨mutex, step, rfl⟩ := Option.map_eq_some_iff.mp taken
      simp only [State.pc] at place
      simp only [Mutex.step, Mutex.stepAt, place, Option.some.injEq] at step
      subst step
      simp [State.pc, Mutex.State.goto, Placed, inside]
  | leaving =>
      rw [place] at taken
      obtain ⟨next, move, last⟩ := Option.bind_eq_some_iff.mp taken
      obtain ⟨cpu, finished, rfl⟩ := Option.map_eq_some_iff.mp last
      obtain ⟨mutex, step, rfl⟩ := Option.map_eq_some_iff.mp move
      obtain ⟨others, queue⟩ := own_move inv step (by rw [place]; nofun)
      rw [code, List.tail_cons] at finished
      rw [code] at here
      refine call_inv (s := s) inv others queue (body_cpu_inv inv.cpu here finished ?_) ?_ ?_
      · rintro c' entered
        cases entered
        simp only [runBody, Option.ite_none_left_eq_some, Option.some.injEq] at finished
        obtain ⟨_, rfl⟩ := finished
        have on : previous = true := by
          rw [inside] at restored
          simpa using restored
        exact ⟨[.enableRead .status, .decRead, .interrupts previous], rfl, by simp [Switches], by simp [settings, setting, on]⟩
      · rintro c' entered
        cases entered
        refine ⟨owed, fun closed => ?_⟩
        cases closed
      · simp only [State.pc] at place
        simp only [Mutex.step, Mutex.stepAt, place, Option.some.injEq] at step
        subst step
        simp [Mutex.State.goto, State.enter, Placed]
  | _ => simp [place, Placed, inside] at placed

-- Code that is called with no preemption owed leaves none below it.
omit [DecidableEq T] in
theorem ready_settled {cpu : Interrupts.State T} {rest : List Op} (counted : Counted cpu) (here : cpu.code = .body false :: rest)
    (ready : Ready cpu) : preemptOwed rest = 0 := by
  have count := (Interrupts.counted_head counted here).2.1
  simp only [ready.preemptCounter, Op.preempt] at count
  omega

theorem step_inv {action : Action T R} (inv : Inv s) (opens : Blocks s action = false) (taken : step action s = some s') : Inv s' := by
  cases action with
  | cpu action =>
      have ran : ∃ cpu, Interrupts.step action s.cpu = some cpu ∧ s' = { s with cpu := cpu } ∧
          ((∃ choice, action = .run choice) → AtCall s = false) := by
        simp only [step] at taken
        split at taken
        · cases taken
        · rename_i apart
          obtain ⟨cpu, ran, rfl⟩ := Option.map_eq_some_iff.mp taken
          refine ⟨cpu, ran, rfl, ?_⟩
          rintro ⟨choice, rfl⟩
          exact Bool.eq_false_iff.mpr fun at_ => apart choice rfl at_
      obtain ⟨cpu, ran, rfl, below⟩ := ran
      have apart : (∃ choice, action = .run choice) → ∀ c, s.call s.cpu.current = some c → s.cpu.code ≠ c.code := by
        intro isRun c called same
        have away := below isRun
        simp [AtCall, called, same] at away
      exact ⟨step_cpu_inv inv.cpu ran apart, inv.calls, inv.placed, inv.queue⟩
  | elsewhere r move =>
      obtain ⟨mutex, moved, rfl⟩ := Option.map_eq_some_iff.mp taken
      exact elsewhere_inv inv moved
  | acquire =>
      simp only [step] at taken
      split at taken
      · rename_i rest called here
        rw [Option.ite_none_right_eq_some] at taken
        obtain ⟨⟨_, ready⟩, taken⟩ := taken
        obtain ⟨mutex, moved, rfl⟩ := Option.map_eq_some_iff.mp taken
        have place : s.pc = .out ∧ mutex = s.mutex.goto (.inl s.cpu.current) (.trying spinCount) := by
          simp only [Mutex.step, Mutex.stepAt.eq_def] at moved
          split at moved
          all_goals simp_all [State.pc]
        obtain ⟨others, queue⟩ := own_move inv moved (by rw [place.1]; nofun)
        refine call_inv inv others queue (enter_cpu_inv inv.cpu ?_) ?_ ?_
        · rintro c entered
          cases entered
          exact ⟨[], here, trivial, congrArg some ready.enabled⟩
        · rintro c entered
          cases entered
          exact ⟨ready_settled inv.cpu.counted here ready, nofun⟩
        · rw [place.2]
          simp [Mutex.State.goto, Placed]
      · cases taken
  | run spurious =>
      simp only [step] at taken
      split at taken
      · rename_i c called
        rw [Option.ite_none_right_eq_some] at taken
        obtain ⟨⟨_, here⟩, taken⟩ := taken
        cases inside : c.noint with
        | none =>
            rw [inside] at taken
            exact outside_inv inv called here inside taken
        | some previous =>
            rw [inside] at taken
            exact inside_inv inv called here inside (fun place => by simpa [Blocks, place] using opens) taken
      · cases taken
  | release move =>
      simp only [step] at taken
      split at taken
      · rename_i called here
        rw [Option.ite_none_right_eq_some] at taken
        obtain ⟨⟨_, notAcquire, releasing⟩, taken⟩ := taken
        obtain ⟨mutex, moved, rfl⟩ := Option.map_eq_some_iff.mp taken
        have outside : s.pc ≠ .enqueuing := by
          intro place
          rw [place] at releasing
          cases releasing
        obtain ⟨others, queue⟩ := own_move inv moved outside
        have same : Function.update s.call s.cpu.current none = s.call := by
          rw [← called, Function.update_eq_self]
        have placed : Placed none (mutex.pc (.inl s.cpu.current)) = true := by
          rcases release_moves moved releasing notAcquire (inv.queue _) with later | failed
          · simp only [Placed, Option.map_none]
            split
            · rfl
            · exact later
            all_goals contradiction
          · rw [failed]
            rfl
        have stays : Inv { cpu := s.cpu, mutex := mutex, call := Function.update s.call s.cpu.current none } :=
          call_inv inv others queue (same.symm ▸ inv.cpu) nofun placed
        rwa [same] at stays
      · cases taken
  | yield =>
      simp only [step] at taken
      split at taken
      · rename_i rest called here
        rw [Option.ite_none_right_eq_some, Option.some.injEq] at taken
        obtain ⟨⟨_, ready⟩, rfl⟩ := taken
        exact ⟨yield_cpu_inv inv.cpu here (ready_settled inv.cpu.counted here ready), inv.calls, inv.placed, inv.queue⟩
      · cases taken

omit [DecidableEq T] [DecidableEq R] in
theorem begins_inv (first : begins s) : Inv s := by
  have saved := first.cpu.saved
  refine ⟨⟨Interrupts.initial_counted first.cpu.toinitial, Interrupts.booted_shut first.cpu, fun p => ⟨?_, ?_, ?_, fun t _ => ?_⟩, ?_, ?_⟩,
    ?_, ?_, ?_⟩
  · rw [first.cpu.code]
    cases p <;> simp [Guarded, Phase.enter, Phase.leave]
  · rw [first.cpu.code]
    cases p <;> simp [Phase.leave]
  · intro on
    cases p with
    | hard => exact absurd on (by simp [Phase.flag, first.cpu.hard])
    | soft => exact absurd on (by simp [Phase.flag, first.cpu.soft])
  · rw [saved]
    cases p <;> simp [Guarded, Phase.enter, Phase.leave]
  · simp [first.call]
  · simp [first.call]
  · simp [first.call]
  · intro t
    rw [first.call, first.mutex.2.2.2.1]
    rfl
  · intro t
    simp [first.mutex.2.2.1]

theorem open_step_inv (action : Action T R) (s s' : State T R) (inv : Inv s) (taken : openStep action s = some s') : Inv s' := by
  rw [openStep, Option.ite_none_left_eq_some, Bool.not_eq_true] at taken
  exact step_inv inv taken.1 taken.2

-- Where no preemption is owed below, nothing is masked and no handler is active.
omit [DecidableEq T] in
theorem settled_counters {cpu : Interrupts.State T} {op : Op} {rest : List Op} (counted : Counted cpu) (kept : ∀ p, Kept p cpu)
    (here : cpu.code = op :: rest) (plain : op.preempt = 0 ∧ op.status = 0 ∧ op.flags = false) (settled : preemptOwed rest = 0) :
    cpu.preemptCounter = 0 ∧ cpu.deferredWorkStatus = 0 ∧ cpu.inInterruptHard = false ∧ cpu.inInterruptSoft = false := by
  obtain ⟨noPreempt, noStatus, noFlags⟩ := plain
  obtain ⟨shaped, preempt, status⟩ := Interrupts.counted_head counted here
  have held := Interrupts.shaped_held (Interrupts.shaped_tail shaped)
  have guarded := held.guarded
  have nonneg := held.status
  have off : ∀ p : Phase, p.flag cpu = false := by
    intro p
    by_contra on
    rw [Bool.not_eq_false] at on
    have inside := (kept p).flag on
    rw [here] at inside
    exact settled_clear (kept p) here settled
      ((List.mem_cons.mp inside).resolve_left (Ne.symm (Interrupts.plain_ne noFlags p).2))
  rw [settled] at guarded
  exact ⟨by omega, by omega, off .hard, off .soft⟩

omit [DecidableEq T] [DecidableEq R] in
theorem inv_respected (inv : Inv s) : Respected s := by
  refine ⟨fun rest here => ?_, fun c called out here => ?_⟩
  · have settled : preemptOwed rest = 0 := (Interrupts.shaped_cons.mp (Interrupts.counted_head inv.cpu.counted here).1).2.1
    exact settled_counters inv.cpu.counted inv.cpu.kept here ⟨rfl, rfl, rfl⟩ settled
  · have placed := inv.placed s.cpu.current
    rw [called, ← State.pc, out] at placed
    have outside : c.noint = none := by
      cases inside : c.noint with
      | none => rfl
      | some previous => simp [Placed, inside] at placed
    have enabled := returns_here (here ▸ inv.cpu.current c called)
    rw [outside] at enabled
    have code : s.cpu.code = .body false :: c.rest := by
      rw [here, Call.code, outside]
    obtain ⟨preempt, status, hard, soft⟩ := settled_counters inv.cpu.counted inv.cpu.kept code ⟨rfl, rfl, rfl⟩ (inv.calls _ c called).1
    exact ⟨preempt, status, enabled, hard, soft⟩

-- The exchange that finds the mutex taken is two steps from sched_yield, in the critical section.
theorem blocks_wrong {spurious : Bool} (inv : Inv s) (blocks : Blocks s (.run spurious) = true) (taken : step (.run spurious) s = some s') :
    ∃ s'', execute step [.run spurious, .run spurious] s' = some s'' ∧ s''.cpu.preemptCounter = 1 ∧ s''.cpu.deferredWorkStatus = 1 ∧
      ¬ Respected s'' := by
  obtain ⟨place, locked⟩ := of_decide_eq_true blocks
  simp only [step] at taken
  split at taken
  · rename_i c called
    rw [Option.ite_none_right_eq_some] at taken
    obtain ⟨⟨working, here⟩, taken⟩ := taken
    cases inside : c.noint with
    | none =>
        have placed := inv.placed s.cpu.current
        rw [called, ← State.pc, place] at placed
        simp [Placed, inside] at placed
    | some previous =>
        rw [inside, place] at taken
        simp only [runCall, State.atomic, Mutex.step] at taken
        simp only [State.pc] at place
        simp only [place, Mutex.stepAt, if_pos locked, Option.map_some, Option.some.injEq] at taken
        subst taken
        have code : c.code = .body false :: .enableRead .status :: .decRead :: .interrupts previous :: .body false :: c.rest := by
          rw [Call.code, inside]
        have count : s.cpu.preemptCounter = 1 := by
          have owed := inv.cpu.counted.preemptCounter
          simp only [here, code, preemptOwed, Op.preempt, (inv.calls _ c called).1] at owed
          omega
        have status : s.cpu.deferredWorkStatus = 1 := by
          have owed := inv.cpu.counted.status
          have shaped := inv.cpu.counted.shaped
          rw [here, code] at shaped
          simp only [Interrupts.shaped_cons] at shaped
          have held := Interrupts.shaped_held shaped.2.2.2.2.2.2.2.2.2.2
          have guarded := held.guarded
          have nonneg := held.status
          simp only [here, code, statusOwed, Op.status] at owed
          rw [(inv.calls _ c called).1] at guarded
          omega
        let blocked : State T R :=
          { cpu := s.cpu.goto (schedYield ++ c.code)
            mutex := { s.mutex with
              lock := false
              state := .contested
              waitQueue := s.mutex.waitQueue ++ [.inl s.cpu.current]
              pc := Function.update s.mutex.pc (.inl s.cpu.current) .blocked }
            call := s.call }
        refine ⟨blocked, ?_, count, status, fun kept => ?_⟩
        · simp [blocked, execute, step, called, working, here, State.pc, Mutex.State.goto, inside, runCall, State.atomic, Mutex.step, Mutex.stepAt]
        · have zero : s.cpu.preemptCounter = 0 := (kept.yields c.code rfl).1
          rw [count] at zero
          cases zero
  · cases taken

-- As long as the threads of the CPU find the mutex free by the time they exchange its state, each
-- sched_yield is entered with preemption and deferred work on and mutex_acquire gives back what it
-- found. The one that does not blocks in its critical section.
theorem mutex_acquire_yields :
    (∀ s : State T R, Reachable begins openStep s → Respected s) ∧
    ∀ (s s' : State T R) (spurious : Bool), Reachable begins openStep s → Blocks s (.run spurious) = true → step (.run spurious) s = some s' →
      ∃ s'', execute step [.run spurious, .run spurious] s' = some s'' ∧ ¬ Respected s'' := by
  have all : ∀ s : State T R, Reachable begins openStep s → Inv s := fun s reach =>
    reachable_invariant (fun _ => begins_inv) open_step_inv reach
  refine ⟨fun s reach => inv_respected (all s reach), fun s s' spurious reach blocks taken => ?_⟩
  obtain ⟨s'', run, _, _, wrong⟩ := blocks_wrong (all s reach) blocks taken
  exact ⟨s'', run, wrong⟩

end Product

-- One thread on the CPU, one on another that has taken the mutex.
def pair : State Unit Unit where
  cpu := Interrupts.alone
  mutex := { lock := false, state := .unlocked, waitQueue := [], pc := fun _ => .out, owns := fun _ => false }
  call := fun _ => none

theorem pair_begins : begins pair :=
  ⟨Interrupts.alone_booted, ⟨rfl, rfl, rfl, fun _ => rfl, fun _ => rfl⟩, fun _ => rfl⟩

def other (moves : List Move) : List (Action Unit Unit) := moves.map (.elsewhere ())

def cpuNext (n : Nat) : List (Action Unit Unit) := List.replicate n (.cpu (.run .finish))

-- A try of the loop, and the sched_yield after it.
def tryYield : List (Action Unit Unit) := .run false :: cpuNext 2 ++ .cpu (.run (.switch ())) :: cpuNext 2

def toExchange : List (Action Unit Unit) :=
  other [.acquire, .run false] ++ cpuNext 1 ++ [.acquire, .run false] ++ (List.replicate spinCount tryYield).flatten ++
    .run false :: cpuNext 2 ++ [.run false]

-- The other thread keeps the mutex.
theorem mutex_acquire_yields_masked : ∃ s : State Unit Unit, Reachable begins step s ∧ ¬ Respected s := by
  have wrong : (execute step (toExchange ++ [.run false, .run false, .run false]) pair).any
      (fun s => s.cpu.code.head? = some .yieldMask ∧ s.cpu.preemptCounter = 1) = true := by decide +kernel
  obtain ⟨s, run, facts⟩ := (Option.any_eq_true _ _).mp wrong
  obtain ⟨head, count⟩ := of_decide_eq_true facts
  obtain ⟨rest, code⟩ := List.head?_eq_some_iff.mp head
  refine ⟨s, reachable_execute (.start pair pair_begins) run, fun kept => ?_⟩
  rw [(kept.yields rest code).1] at count
  cases count

-- It releases the mutex just before the exchange, or keeps it.
theorem mutex_acquire_yields_once :
    (∃ s : State Unit Unit, s.pc = .out ∧ s.cpu.code = [.body false] ∧ Ready s.cpu) ∧
      ∃ s : State Unit Unit, ¬ Respected s := by
  obtain ⟨respected, blocks⟩ := mutex_acquire_yields (T := Unit) (R := Unit)
  constructor
  · have ends : (execute openStep (toExchange ++ other [.release, .run false] ++ [.run false, .run false, .run false] ++ cpuNext 14) pair).any
        (fun s => s.pc = .out ∧ s.cpu.code = [.body false] ∧ (s.call ()).any fun c => c.code = [.body false]) = true := by decide +kernel
    obtain ⟨s, run, facts⟩ := (Option.any_eq_true _ _).mp ends
    obtain ⟨place, code, inside⟩ := of_decide_eq_true facts
    obtain ⟨c, called, same⟩ := (Option.any_eq_true _ _).mp inside
    have kept := respected s (reachable_execute (.start pair pair_begins) run)
    exact ⟨s, place, code, kept.returns c called place (by rw [code, of_decide_eq_true same])⟩
  · have ends : (execute openStep toExchange pair).any (fun s => Blocks s (.run false) ∧ (step (.run false) s).isSome) = true := by
      decide +kernel
    obtain ⟨s, run, facts⟩ := (Option.any_eq_true _ _).mp ends
    obtain ⟨taken, possible⟩ := of_decide_eq_true facts
    obtain ⟨s', first⟩ := Option.isSome_iff_exists.mp possible
    obtain ⟨s'', _, wrong⟩ := blocks s s' false (reachable_execute (.start pair pair_begins) run) taken first
    exact ⟨s'', wrong⟩

end Elysium.MutexYield
