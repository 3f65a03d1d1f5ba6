import Elysium.SchedRuns

set_option autoImplicit false

namespace Elysium.Sched

open Transitions (Reachable reachable_invariant execute reachable_execute)

section Turns

variable {T C M : Type} [DecidableEq T] [DecidableEq C] [DecidableEq M]

def Pc.yields : Pc T → Bool
  | .yielding _ => true
  | _ => false

-- The thread sched_thread_next has handed to the one that yields.
def Pc.next : Pc T → Option T
  | .handed _ next => next
  | .picked _ next => some next
  | .switching next => some next
  | _ => none

-- The step is the call of sched_thread_next on this CPU.
def takes (s : State T C M) (c : C) (action : C × Move T M) : Bool :=
  action = (c, .run) && s.drop c = .none && (s.pc (s.current c)).yields

-- How often a CPU takes a thread from its queue in the course of a run.
def taken (m : Machine T C) (c : C) : List (C × Move T M) → State T C M → Nat
  | [], _ => 0
  | action :: rest, s =>
      (if takes s c action then 1 else 0) +
        match step m action s with
        | none => 0
        | some s' => taken m c rest s'

-- The thread runs on the CPU after so many more calls of sched_thread_next: it is
-- handed over already, or that far back in the queue.
def Turn (s : State T C M) (c : C) (t : T) : Nat → Prop
  | 0 => (s.pc (s.current c)).next = some t
  | i + 1 => (s.threadQueue c)[i]? = some t

end Turns

section Steps

variable {T C M : Type} [DecidableEq T] [DecidableEq C] {m : Machine T C} {s s' : State T C M} {c : C} {t : T}

-- No thread leaves the queue, none gets in front of another.
def Grows (s s' : State T C M) (c : C) : Prop := ∃ later, s'.threadQueue c = s.threadQueue c ++ later

omit [DecidableEq T] [DecidableEq C] in
theorem grows_same (same : s'.threadQueue c = s.threadQueue c) : Grows s s' c := ⟨[], by rw [same, List.append_nil]⟩

omit [DecidableEq T] in
theorem push_grows (u : T) : Grows s (s.push m u) c := by
  by_cases home : c = m.scheduler u
  · subst home
    exact ⟨[u], Function.update_self _ _ _⟩
  · exact grows_same (Function.update_of_ne home _ _)

omit [DecidableEq T] [DecidableEq C] in
theorem turn_grows {i : Nat} (grows : Grows s s' c) (turn : Turn s c t (i + 1)) : Turn s' c t (i + 1) := by
  obtain ⟨later, queue⟩ := grows
  obtain ⟨inside, _⟩ := List.getElem?_eq_some_iff.mp turn
  rw [Turn, queue, List.getElem?_append_left inside]
  exact turn

-- A step of a thread leaves the others, and the other CPUs, where they are.
structure Aside (s s' : State T C M) (c : C) (t : T) : Prop where
  pc : ∀ u, u ≠ t → s'.pc u = s.pc u
  current : ∀ c', c' ≠ c → s'.current c' = s.current c'

variable [DecidableEq M]

theorem thread_step_aside {pc : Pc T} {move : Move T M} (taken : threadStep m s c t pc move = some s') : Aside s s' c t := by
  unfold threadStep at taken
  split at taken
  all_goals
    repeat' split at taken
    all_goals cases taken
  all_goals
    refine ⟨fun u other => ?_, fun c' other => ?_⟩
  all_goals first | rfl | exact Function.update_of_ne other _ _

-- Only sched_thread_next takes threads away.
theorem thread_step_grows {pc : Pc T} {move : Move T M} (taken : threadStep m s c t pc move = some s') (c' : C)
    (keeps : c' = c → move = .run → pc.yields = false) : Grows s s' c' := by
  unfold threadStep at taken
  split at taken
  case h_6 state =>
    have elsewhere : c' ≠ c := fun same => nomatch keeps same rfl
    split at taken
    all_goals cases taken
    · exact grows_same rfl
    · exact grows_same (Function.update_of_ne elsewhere _ _)
  all_goals
    repeat' split at taken
    all_goals cases taken
  all_goals first | exact grows_same rfl | exact push_grows _

omit [DecidableEq M] in
theorem drop_step_aside {drop : Drop T} (taken : dropStep m s c drop = some s') (c' : C) :
    s'.pc = s.pc ∧ s'.current = s.current ∧ Grows s s' c' := by
  unfold dropStep at taken
  split at taken
  all_goals
    repeat' split at taken
    all_goals cases taken
  all_goals first | exact ⟨rfl, rfl, grows_same rfl⟩ | exact ⟨rfl, rfl, push_grows (s := s.setState _ _) _⟩

-- The threads a CPU has to do with are those of its scheduler.
structure Homed (m : Machine T C) (s : State T C M) : Prop where
  current : ∀ c, m.scheduler (s.current c) = c
  queued : ∀ c t, t ∈ s.threadQueue c → m.scheduler t = c
  next : ∀ t u, (s.pc t).next = some u → m.scheduler u = m.scheduler t

-- What a step does to a CPU: nothing that counts there, or a step of its own thread.
inductive Seen (m : Machine T C) (s s' : State T C M) (c : C) (action : C × Move T M) : Prop where
  | passes (pc : s'.pc (s.current c) = s.pc (s.current c)) (current : s'.current c = s.current c) (grows : Grows s s' c)
      (other : takes s c action = false)
  | runs (here : action.1 = c) (idle : s.drop c = .none)
      (taken : threadStep m s c (s.current c) (s.pc (s.current c)) action.2 = some s')

omit [DecidableEq T] [DecidableEq C] [DecidableEq M] in
theorem initial_homed (isInitial : initial m s) : Homed m s := by
  obtain ⟨queue, current, _, _, pc, _⟩ := isInitial
  refine ⟨fun c => ?_, fun c t member => ?_, fun t u handed => ?_⟩
  · rw [current c, m.idleHome]
  · rw [queue c] at member
    cases member
  · rw [pc t] at handed
    cases handed

theorem step_seen {action : C × Move T M} (homed : Homed m s) (taken : step m action s = some s') (c : C) : Seen m s s' c action := by
  obtain ⟨mover, move⟩ := action
  unfold step at taken
  dsimp only at taken
  split at taken
  case h_1 thread =>
    split at taken
    all_goals cases taken
    refine .passes rfl rfl (push_grows (s := s.setState thread .ready) thread) ?_
    simp [takes]
  case h_2 =>
    by_cases idle : s.drop mover = .none
    · rw [if_pos idle] at taken
      by_cases here : mover = c
      · subst here
        exact .runs rfl idle taken
      · have aside := thread_step_aside taken
        refine .passes (aside.pc _ fun same => here ?_) (aside.current c (Ne.symm here)) (thread_step_grows taken c fun same => absurd same.symm here) ?_
        · rw [← homed.current mover, ← homed.current c, same]
        · simp [takes, here]
    · rw [if_neg idle] at taken
      split at taken
      case isFalse => cases taken
      obtain ⟨pc, current, grows⟩ := drop_step_aside taken c
      refine .passes (congrFun pc _) (congrFun current c) grows ?_
      by_cases here : mover = c
      · subst here
        simp [takes, idle]
      · simp [takes, here]

omit [DecidableEq T] [DecidableEq C] in
theorem next_cases {pc : Pc T} (handed : pc.next = some t) :
    (∃ state, pc = .handed state (some t)) ∨ (∃ state, pc = .picked state t) ∨ pc = .switching t := by
  cases pc with
  | handed state next => exact .inl ⟨state, by rw [show next = some t from handed]⟩
  | picked state next => exact .inr (.inl ⟨state, by rw [Option.some.inj handed]⟩)
  | switching next => exact .inr (.inr (by rw [Option.some.inj handed]))
  | running => cases handed
  | yielding state => cases handed
  | waking thread => cases handed

variable (homed : Homed m s)

include homed

omit [DecidableEq C] [DecidableEq M] in
theorem goto_homed {pc : Pc T} (next : ∀ u, pc.next = some u → m.scheduler u = m.scheduler t) : Homed m (s.goto t pc) := by
  refine ⟨homed.current, homed.queued, fun u v handed => ?_⟩
  dsimp only [State.goto] at handed
  by_cases same : u = t
  · subst same
    rw [Function.update_self] at handed
    exact next v handed
  · rw [Function.update_of_ne same] at handed
    exact homed.next u v handed

omit [DecidableEq C] [DecidableEq M] in
theorem goto_none {pc : Pc T} (none : pc.next = none) : Homed m (s.goto t pc) :=
  goto_homed homed fun u handed => by rw [none] at handed; cases handed

omit [DecidableEq T] [DecidableEq M] in
theorem push_homed (u : T) : Homed m (s.push m u) := by
  refine ⟨homed.current, fun c t member => ?_, homed.next⟩
  dsimp only [State.push] at member
  by_cases home : c = m.scheduler u
  · subst home
    rw [Function.update_self, List.mem_append, List.mem_singleton] at member
    obtain queued | rfl := member
    · exact homed.queued _ t queued
    · rfl
  · rw [Function.update_of_ne home] at member
    exact homed.queued c t member

theorem thread_step_homed {move : Move T M} (taken : threadStep m s c (s.current c) (s.pc (s.current c)) move = some s') : Homed m s' := by
  obtain ⟨t, current⟩ : ∃ t, s.current c = t := ⟨_, rfl⟩
  have home := homed.current c
  rw [current] at taken home
  have rests : Homed m (s.goto t .running) := goto_none homed rfl
  match place : s.pc t, move, taken with
  | .running, .yield state, taken =>
    rw [threadStep] at taken
    split at taken <;> cases taken
    exact goto_none homed rfl
  | .running, .lock mutex, taken =>
    rw [threadStep] at taken
    split at taken <;> cases taken
    exact ⟨homed.current, homed.queued, homed.next⟩
  | .running, .block mutex, taken =>
    rw [threadStep] at taken
    split at taken <;> cases taken
    have yields : Homed m (s.goto t (.yielding .block)) := goto_none homed rfl
    exact ⟨yields.current, yields.queued, yields.next⟩
  | .running, .unlock mutex, taken =>
    rw [threadStep] at taken
    split at taken
    · split at taken <;> cases taken
      · exact ⟨homed.current, homed.queued, homed.next⟩
      · rename_i thread _ _
        have wakes : Homed m (s.goto t (.waking thread)) := goto_none homed rfl
        exact ⟨wakes.current, wakes.queued, wakes.next⟩
    · cases taken
  | .waking thread, .run, taken =>
    cases taken
    exact push_homed rests thread
  | .yielding state, .run, taken =>
    rw [threadStep] at taken
    split at taken <;> cases taken
    · exact goto_none homed rfl
    · rename_i next rest queue
      have hands : Homed m (s.goto t (.handed state (some next))) := goto_homed homed fun u handed => by
        rw [← Option.some.inj handed, home, homed.queued c next (by rw [queue]; exact List.mem_cons_self)]
      refine ⟨hands.current, fun d u member => ?_, hands.next⟩
      dsimp only at member
      by_cases here : d = c
      · subst here
        rw [Function.update_self] at member
        exact homed.queued d u (by rw [queue]; exact List.mem_cons_of_mem _ member)
      · rw [Function.update_of_ne here] at member
        exact homed.queued d u member
  | .handed state (some next), .run, taken =>
    cases taken
    have picks : Homed m (s.goto t (.picked state next)) := goto_homed homed fun u handed => homed.next t u (by rw [place]; exact handed)
    exact ⟨picks.current, picks.queued, picks.next⟩
  | .handed state none, .run, taken =>
    rw [threadStep] at taken
    repeat' split at taken
    all_goals cases taken
    · exact rests
    · exact ⟨homed.current, homed.queued, homed.next⟩
    · refine goto_homed homed fun u handed => ?_
      rw [← Option.some.inj handed, m.idleHome]
  | .picked state next, .run, taken =>
    rw [threadStep] at taken
    split at taken <;> cases taken
    · exact ⟨homed.current, homed.queued, homed.next⟩
    · have switches : Homed m (s.goto t (.switching next)) := goto_homed homed fun u handed => homed.next t u (by rw [place]; exact handed)
      exact ⟨switches.current, switches.queued, switches.next⟩
  | .switching next, .run, taken =>
    cases taken
    refine ⟨fun d => ?_, rests.queued, rests.next⟩
    dsimp only
    by_cases here : d = c
    · subst here
      rw [Function.update_self, homed.next t next (by rw [place]; rfl), home]
    · rw [Function.update_of_ne here]
      exact homed.current d

omit [DecidableEq M] in
theorem drop_step_homed {drop : Drop T} (taken : dropStep m s c drop = some s') : Homed m s' := by
  unfold dropStep at taken
  split at taken
  case h_3 thread =>
    cases taken
    have queued := push_homed homed thread
    exact ⟨queued.current, queued.queued, queued.next⟩
  all_goals
    repeat' split at taken
    all_goals cases taken
  all_goals exact ⟨homed.current, homed.queued, homed.next⟩

theorem step_homed {action : C × Move T M} (taken : step m action s = some s') : Homed m s' := by
  unfold step at taken
  split at taken
  case h_1 thread _ =>
    split at taken
    all_goals cases taken
    have queued := push_homed homed thread
    exact ⟨queued.current, queued.queued, queued.next⟩
  case h_2 =>
    repeat' split at taken
    · exact thread_step_homed homed taken
    · exact drop_step_homed homed taken
    · cases taken

-- A call of sched_thread_next brings a waiting thread one place forward.
theorem turn_takes {action : C × Move T M} {i : Nat} (taken : step m action s = some s')
    (takesOne : takes s c action = true) (turn : Turn s c t (i + 1)) : Turn s' c t i := by
  match step_seen homed taken c with
  | .passes _ _ _ other => cases other.symm.trans takesOne
  | .runs _ _ taken =>
    simp only [takes, Bool.and_eq_true, decide_eq_true_eq] at takesOne
    obtain ⟨⟨rfl, _⟩, yields⟩ := takesOne
    match place : s.pc (s.current c), yields with
    | .yielding state, _ =>
      rw [place] at taken
      obtain ⟨next, rest, queue⟩ := List.exists_cons_of_ne_nil (List.ne_nil_of_mem (List.mem_of_getElem? turn))
      simp only [threadStep, queue, Option.some.injEq] at taken
      subst taken
      rw [Turn, queue] at turn
      cases i with
      | zero =>
        have here : next = t := Option.some.inj turn
        simp only [Turn, State.goto, Function.update_self, Pc.next, here]
      | succ i =>
        simp only [Turn, Function.update_self]
        exact turn

-- A thread that is handed over stays so until the CPU has switched to it.
theorem turn_next {action : C × Move T M} (taken : step m action s = some s') (turn : Turn s c t 0) :
    takes s c action = false ∧ (Turn s' c t 0 ∨ s'.current c = t) := by
  refine ⟨?_, ?_⟩
  · have later : (s.pc (s.current c)).yields = false := by
      obtain ⟨state, place⟩ | ⟨state, place⟩ | place := next_cases turn <;> rw [place] <;> rfl
    rw [takes, later, Bool.and_false]
  match step_seen homed taken c with
  | .passes pc current _ _ =>
    left
    rw [Turn, current, pc]
    exact turn
  | .runs _ _ taken =>
    have isRun : ∀ pc : Pc T, pc.next = some t → threadStep m s c (s.current c) pc action.2 = some s' → action.2 = .run := by
      intro pc handed taken
      obtain ⟨state, rfl⟩ | ⟨state, rfl⟩ | rfl := next_cases handed <;> cases move : action.2 <;> rw [move] at taken <;>
        first | rfl | cases taken
    rw [isRun _ turn taken] at taken
    obtain ⟨state, place⟩ | ⟨state, place⟩ | place := next_cases turn
    all_goals rw [place] at taken
    · cases taken
      exact .inl (by simp [Turn, State.goto, State.setState, Pc.next])
    · rw [threadStep] at taken
      split at taken <;> cases taken
      · exact .inl turn
      · exact .inl (by simp [Turn, State.goto, State.setState, Pc.next])
    · cases taken
      exact .inr (Function.update_self _ _ _)

theorem turn_waits {action : C × Move T M} {i : Nat} (taken : step m action s = some s')
    (leaves : takes s c action = false) (turn : Turn s c t (i + 1)) : Turn s' c t (i + 1) := by
  match step_seen homed taken c with
  | .passes _ _ grows _ => exact turn_grows grows turn
  | .runs here idle taken =>
    refine turn_grows (thread_step_grows taken c fun _ isRun => ?_) turn
    simpa [takes, Prod.ext_iff, here, idle, isRun] using leaves

-- The run up to the state in which the CPU has come to the thread.
def ComesTo (m : Machine T C) (s : State T C M) (c : C) (t : T) (i : Nat) (actions : List (C × Move T M)) : Prop :=
  ∃ earlier later s', actions = earlier ++ later ∧ execute (step m) earlier s = some s' ∧ s'.current c = t ∧ taken m c earlier s = i

omit homed in
theorem comes_to_cons {action : C × Move T M} {actions : List (C × Move T M)} {i : Nat} (first : step m action s = some s')
    (later : ComesTo m s' c t i actions) : ComesTo m s c t ((if takes s c action then 1 else 0) + i) (action :: actions) := by
  obtain ⟨earlier, later, s₁, split, run, current, count⟩ := later
  refine ⟨action :: earlier, later, s₁, by rw [split, List.cons_append], ?_, current, ?_⟩
  · rw [execute, first, Option.bind_some, run]
  · simp only [taken, first, count]

-- In the order of the queue, whatever else is scheduled in between.
theorem turn_run (actions : List (C × Move T M)) {i : Nat} (turn : Turn s c t i)
    (run : execute (step m) actions s = some s') :
    (∃ j, i = taken m c actions s + j ∧ Turn s' c t j) ∨ ComesTo m s c t i actions := by
  induction actions generalizing s i with
  | nil =>
    cases run
    exact .inl ⟨i, (Nat.zero_add i).symm, turn⟩
  | cons action rest ih =>
    rw [execute, Option.bind_eq_some_iff] at run
    obtain ⟨s₁, first, run⟩ := run
    have homed₁ := step_homed homed first
    have goes : ∀ {j}, i = (if takes s c action then 1 else 0) + j → Turn s₁ c t j →
        (∃ j, i = taken m c (action :: rest) s + j ∧ Turn s' c t j) ∨ ComesTo m s c t i (action :: rest) := by
      intro j count turn₁
      obtain ⟨k, later, turn'⟩ | comes := ih homed₁ turn₁ run
      · refine .inl ⟨k, ?_, turn'⟩
        simp only [taken, first]
        omega
      · exact .inr (count ▸ comes_to_cons first comes)
    cases i with
    | zero =>
      obtain ⟨none, turn₁ | current⟩ := turn_next homed first turn
      · exact goes (by rw [none]; rfl) turn₁
      · have comes : ComesTo m s₁ c t 0 rest := ⟨[], rest, s₁, rfl, rfl, current, rfl⟩
        right
        simpa [none] using comes_to_cons first comes
    | succ i =>
      cases one : takes s c action with
      | true => exact goes (by rw [one]; exact Nat.add_comm i 1) (turn_takes homed first one turn)
      | false => exact goes (by rw [one]; exact (Nat.zero_add _).symm) (turn_waits homed first one turn)

end Steps

-- A thread at place i of a queue runs after the CPU has called sched_thread_next
-- i + 1 times, and is i + 1 - k places from it after k calls.
theorem sched_in_turn {T C M : Type} [DecidableEq T] [DecidableEq C] [DecidableEq M] (m : Machine T C) (s s' : State T C M)
    (reach : Reachable (initial m) (step m) s) (c : C) (t : T) (i : Nat) (queued : (s.threadQueue c)[i]? = some t)
    (actions : List (C × Move T M)) (run : execute (step m) actions s = some s') :
    (∃ j, i + 1 = taken m c actions s + j ∧ Turn s' c t j) ∨ ComesTo m s c t (i + 1) actions := by
  have homed := reachable_invariant (fun _ isInitial => initial_homed isInitial) (fun _ _ _ homed taken => step_homed homed taken) reach
  exact turn_run homed actions queued run

-- Three threads take turns on one CPU.
def crowd : Machine Nat Unit where
  scheduler := fun _ => ()
  idleThread := fun _ => 0
  idleHome := fun _ => rfl

def crowdState : State Nat Unit Unit where
  threadQueue := fun _ => []
  current := crowd.idleThread
  drop := fun _ => .none
  threadState := fun _ => .ready
  pc := fun _ => .running
  reaper := []
  owner := fun _ => none
  waitQueue := fun _ => []
  asleep := fun _ => false
  born := fun _ => false
  failed := false

def rounds : List (Unit × Move Nat Unit) :=
  ((), .yield .ready) :: List.replicate 5 ((), .run) ++ (List.replicate 3 (((), .yield .ready) :: List.replicate 6 ((), .run))).flatten

theorem sched_in_turn_third : ∃ s s', execute (step crowd) [((), .spawn 1), ((), .spawn 2), ((), .spawn 3)] crowdState = some s ∧
    execute (step crowd) rounds s = some s' ∧ ComesTo crowd s () 3 3 rounds := by
  obtain ⟨s, s', spawns, run, queued, count⟩ : ∃ s s', execute (step crowd) [((), .spawn 1), ((), .spawn 2), ((), .spawn 3)] crowdState = some s ∧
      execute (step crowd) rounds s = some s' ∧ (s.threadQueue ())[2]? = some 3 ∧ taken crowd () rounds s = 4 := ⟨_, _, rfl, rfl, rfl, rfl⟩
  have isInitial : initial crowd crowdState :=
    ⟨fun _ => rfl, fun _ => rfl, fun _ => rfl, fun _ => rfl, fun _ => rfl, rfl, fun _ => rfl, fun _ => rfl, fun _ => rfl, fun _ => rfl, rfl⟩
  refine ⟨s, s', spawns, run, ?_⟩
  obtain ⟨j, early, _⟩ | comes := sched_in_turn crowd s s' (reachable_execute (.start crowdState isInitial) spawns) () 3 2 queued rounds run
  · omega
  · exact comes

end Elysium.Sched
