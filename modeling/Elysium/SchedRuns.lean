import Elysium.SchedSafety

set_option autoImplicit false

namespace Elysium.Sched

open Transitions (Reachable reachable_invariant execute reachable_execute)

section Step

variable {T C M : Type} [DecidableEq T] [DecidableEq C] {m : Machine T C} {s : State T C M} {spot : T → Spot T C} {c : C} {t : T}

omit [DecidableEq C] in
theorem goto_goto (first second : Pc T) : (s.goto t first).goto t second = s.goto t second := by
  unfold State.goto
  rw [Function.update_idem]

variable (inv : Inv m s spot) (runs : s.current c = t) (idle : s.drop c = .none)

include inv runs

omit [DecidableEq T] [DecidableEq C] in
theorem runs_home : m.scheduler t = c := by rw [← runs, inv.home]

omit [DecidableEq T] [DecidableEq C] in
theorem runs_spot (notIdle : ¬ Idle m t) : spot t = .running c := by
  have here := (inv.current c).resolve_left (runs ▸ notIdle)
  rw [runs] at here
  exact here

omit [DecidableEq C] in
-- Only the running thread of a CPU is in the middle of anything there.
theorem resting_others (u : T) (home : m.scheduler u = c) : (s.goto t .running).pc u = .running := by
  by_cases same : u = t
  · rw [same]
    exact Function.update_self _ _ _
  · rw [show (s.goto t .running).pc u = s.pc u from Function.update_of_ne same _ _]
    by_contra busy
    have here := (inv.busy u busy).1
    rw [home, runs] at here
    exact same here.symm

include idle

omit [DecidableEq C] in
theorem held_loose {next : T} (notIdle : ¬ Idle m next) (held : spot next = .held (m.scheduler t)) :
    Loose m (s.goto t .running) next := by
  have rest := goto_inv inv runs idle (show PcOk m s spot t .running from trivial)
  refine loose_of_spot rest notIdle (born_of_spot inv notIdle (by rw [held]; nofun)) (by rw [held]; nofun) (by rw [held]; nofun)
    (by rw [held]; nofun) (fun u place => ?_) (by rw [held]; nofun) (by rw [held]; nofun)
  rw [held] at place
  rcases place with place | place
  · have home : m.scheduler u = c := by rw [← Spot.held.inj place, runs_home inv runs]
    rw [resting_others inv runs u home]
    exact id
  · cases place

omit [DecidableEq C] in
theorem unlock_inv {thread : T} (sleeps : s.asleep thread = true) :
    ∃ spot', Inv m { (s.goto t (.waking thread)).setState thread .ready with asleep := Function.update s.asleep thread false } spot' := by
  obtain ⟨notIdle, place⟩ := inv.asleep thread sleeps
  have awake := awake_inv inv thread
  have loose : Loose m { s with asleep := Function.update s.asleep thread false } thread :=
    loose_of_spot awake notIdle (born_of_spot inv notIdle (by rw [place]; nofun)) (by rw [place]; nofun) (by rw [place]; nofun)
      (by rw [place]; nofun) (by rw [place]; rintro _ (same | same) <;> cases same) (by rw [place]; nofun)
      (fun _ => Function.update_self _ _ _)
  have ready := state_inv (move_inv awake loose (.woken t)) loose .ready
  refine ⟨_, goto_inv ready runs idle ⟨notIdle, Function.update_self _ _ _, Function.update_self _ _ _⟩⟩

theorem waking_inv {thread : T} (place : s.pc t = .waking thread) : ∃ spot', Inv m ((s.goto t .running).push m thread) spot' := by
  have ok := inv.pcs t
  rw [place] at ok
  obtain ⟨notIdle, woken, ready⟩ := ok
  have rest := goto_inv inv runs idle (show PcOk m s spot t .running from trivial)
  have loose : Loose m (s.goto t .running) thread := by
    refine loose_of_spot rest notIdle (born_of_spot inv notIdle (by rw [woken]; nofun)) (by rw [woken]; nofun) (by rw [woken]; nofun)
      (by rw [woken]; nofun) (fun u same => ?_) (by rw [woken]; nofun) (by rw [woken]; nofun)
    rw [woken] at same
    rcases same with same | same
    · cases same
    · rw [← Spot.woken.inj same, show (s.goto t .running).pc t = .running from Function.update_self _ _ _]
      exact id
  exact ⟨_, push_inv (move_inv rest loose (.queued (m.scheduler thread))) notIdle (Function.update_self _ _ _) (loose.queued _) ready⟩

theorem next_inv {state : ThreadState} {next : T} {rest : List T} (place : s.pc t = .yielding state) (queue : s.threadQueue c = next :: rest) :
    ∃ spot', Inv m { s.goto t (.handed state (some next)) with threadQueue := Function.update s.threadQueue c rest } spot' := by
  have ok := inv.pcs t
  rw [place] at ok
  obtain ⟨notIdle, queued, home, _⟩ := inv.queued c next (by rw [queue]; exact List.mem_cons_self)
  have nodup := inv.distinct c
  rw [queue, List.nodup_cons] at nodup
  have shorter := queue_inv (c := c) inv (fun x member => by rw [queue]; exact List.mem_cons_of_mem _ member) nodup.2
  have loose : Loose m { s with threadQueue := Function.update s.threadQueue c rest } next := by
    refine loose_of_spot shorter notIdle (born_of_spot inv notIdle (by rw [queued]; nofun)) (by rw [queued]; nofun) (fun d same => ?_)
      (by rw [queued]; nofun) (by rw [queued]; rintro _ (same | same) <;> cases same) (by rw [queued]; nofun) (by rw [queued]; nofun)
    rw [queued] at same
    rw [← Spot.queued.inj same]
    dsimp only
    rw [Function.update_self]
    exact nodup.1
  have apart : t ≠ next := by
    rintro rfl
    cases (runs_spot inv runs notIdle).symm.trans queued
  refine ⟨_, goto_inv (move_inv shorter loose (.held c)) runs idle ⟨ok, notIdle, apart, ?_, .inr ?_⟩⟩
  · rw [home, runs_home inv runs]
  · rw [Function.update_self, runs_home inv runs]

omit [DecidableEq C] in
theorem handed_inv {state : ThreadState} {next : T} (place : s.pc t = .handed state (some next)) :
    Inv m ((s.goto t (.picked state next)).setState next .active) spot := by
  have ok := inv.pcs t
  rw [place] at ok
  obtain ⟨yields, notIdle, isNext⟩ := ok
  have rest := goto_inv inv runs idle (show PcOk m s spot t .running from trivial)
  have loose := held_loose inv runs idle notIdle (isNext.2.2.resolve_left notIdle)
  have set := state_inv rest loose .active
  have moved := goto_inv set runs idle (show PcOk m ((s.goto t .running).setState next .active) spot t (.picked state next) from ⟨yields, isNext⟩)
  rw [← goto_goto .running (.picked state next)]
  exact moved

omit [DecidableEq C] in
theorem handed_idle_inv {state : ThreadState} (place : s.pc t = .handed state none) (notIdle : ¬ Idle m t) :
    Inv m (s.goto t (.picked state (m.idleThread (m.scheduler t)))) spot := by
  have ok := inv.pcs t
  rw [place] at ok
  refine goto_inv inv runs idle ⟨ok, notIdle, m.idleHome _, .inl ?_⟩
  rw [Idle, m.idleHome]

omit [DecidableEq C] in
theorem picked_inv {state : ThreadState} {next : T} (place : s.pc t = .picked state next) :
    Inv m ((s.goto t (.switching next)).setState t state) spot := by
  have ok := inv.pcs t
  rw [place] at ok
  have rest := goto_inv inv runs idle (show PcOk m s spot t .running from trivial)
  have set := own_state_inv rest runs (show (s.goto t .running).pc t = .running from Function.update_self _ _ _) ok.1
  have yields : YieldOk m t (((s.goto t .running).setState t state).threadState t) := by
    rw [show ((s.goto t .running).setState t state).threadState t = state from Function.update_self _ _ _]
    exact ok.1
  have moved := goto_inv set runs idle (show PcOk m ((s.goto t .running).setState t state) spot t (.switching next) from ⟨yields, ok.2⟩)
  rw [← goto_goto .running (.switching next)]
  exact moved

theorem switching_inv {next : T} (place : s.pc t = .switching next) :
    ∃ spot', Inv m { s.goto t .running with
      current := Function.update s.current c next, drop := Function.update s.drop c (.dropping t) } spot' := by
  have ok := inv.pcs t
  rw [place] at ok
  obtain ⟨yields, apart, sameHome, known⟩ := ok
  have home := runs_home inv runs
  have rest := goto_inv inv runs idle (show PcOk m s spot t .running from trivial)
  have resting := resting_others inv runs
  -- The next thread becomes the running one.
  obtain ⟨spot₁, switched, same₁⟩ : ∃ spot₁, Inv m { s.goto t .running with current := Function.update s.current c next } spot₁ ∧
      spot₁ t = spot t := by
    rw [home] at sameHome
    by_cases isIdle : Idle m next
    · exact ⟨spot, current_inv rest resting sameHome (.inl isIdle), rfl⟩
    · have loose := held_loose inv runs idle isIdle (known.resolve_left isIdle)
      refine ⟨_, current_inv (move_inv rest loose (.running c)) resting sameHome (.inr (Function.update_self _ _ _)), ?_⟩
      exact Function.update_of_ne apart _ _
  -- The old one is in nobody's hands but the CPU's.
  by_cases isIdle : Idle m t
  · exact ⟨spot₁, drop_inv switched resting ⟨home, .inl isIdle⟩⟩
  · have place₁ : spot₁ t = .running c := same₁.trans (runs_spot inv runs isIdle)
    have loose : Loose m { s.goto t .running with current := Function.update s.current c next } t := by
      refine loose_of_spot switched isIdle (born_of_spot inv isIdle (by rw [runs_spot inv runs isIdle]; nofun)) (fun d same => ?_)
        (by rw [place₁]; nofun) (by rw [place₁]; nofun) (by rw [place₁]; rintro _ (same | same) <;> cases same) (by rw [place₁]; nofun)
        (by rw [place₁]; nofun)
      rw [place₁] at same
      rw [← Spot.running.inj same]
      dsimp only
      rw [Function.update_self]
      exact apart.symm
    exact ⟨_, drop_inv (move_inv switched loose (.dropped c)) resting ⟨home, .inr ⟨Function.update_self _ _ _, yields.1⟩⟩⟩

end Step

section Runs

variable {T C M : Type} [DecidableEq T] [DecidableEq C] {m : Machine T C} {s : State T C M} {spot : T → Spot T C}
  (inv : Inv m s spot)

include inv

theorem spawn_inv {u : T} (notIdle : ¬ Idle m u) (unborn : s.born u = false) :
    ∃ spot', Inv m { (s.setState u .ready).push m u with born := Function.update s.born u true } spot' := by
  have place : spot u = .unborn := (inv.unborn u unborn).resolve_left notIdle
  have known := born_inv inv u
  have loose : Loose m { s with born := Function.update s.born u true } u :=
    loose_of_spot known notIdle (Function.update_self _ _ _) (by rw [place]; nofun) (by rw [place]; nofun) (by rw [place]; nofun)
      (by rw [place]; rintro _ (same | same) <;> cases same) (by rw [place]; nofun) (by rw [place]; nofun)
  have ready := state_inv (move_inv known loose (.queued (m.scheduler u))) loose .ready
  exact ⟨_, push_inv ready notIdle (Function.update_self _ _ _) (loose.queued _) (Function.update_self _ _ _)⟩

-- A thread the CPU has let go of.
omit [DecidableEq T] in
theorem dropped_loose {c : C} {thread : T} (notIdle : ¬ Idle m thread) (place : spot thread = .dropped c) :
    Loose m { s with drop := Function.update s.drop c .none } thread := by
  refine loose_of_spot (drop_none_inv inv c) notIdle (born_of_spot inv notIdle (by rw [place]; nofun)) (by rw [place]; nofun)
    (by rw [place]; nofun) (by rw [place]; nofun) (by rw [place]; rintro _ (same | same) <;> cases same) (fun d same => ?_)
    (by rw [place]; nofun)
  rw [place] at same
  rw [← Spot.dropped.inj same]
  dsimp only
  rw [Function.update_self]
  exact ⟨nofun, nofun⟩

theorem requeuing_inv {c : C} {thread : T} (place : s.drop c = .requeuing thread) :
    ∃ spot', Inv m { (s.setState thread .ready).push m thread with drop := Function.update s.drop c .none } spot' := by
  have ok := inv.drops c
  rw [place] at ok
  obtain ⟨_, notIdle, dropped⟩ := ok
  have loose := dropped_loose inv notIdle dropped
  have ready := state_inv (move_inv (drop_none_inv inv c) loose (.queued (m.scheduler thread))) loose .ready
  exact ⟨_, push_inv ready notIdle (Function.update_self _ _ _) (loose.queued _) (Function.update_self _ _ _)⟩

theorem drop_step_inv {c : C} {s' : State T C M} (taken : dropStep m s c (s.drop c) = some s') : ∃ spot', Inv m s' spot' := by
  have ok := inv.drops c
  cases place : s.drop c with
  | none =>
      rw [place] at taken
      cases taken
  | requeuing thread =>
      rw [place] at taken
      obtain rfl := Option.some.inj taken
      exact requeuing_inv inv place
  | dropping thread =>
      rw [place] at taken ok
      obtain ⟨home, known⟩ := ok
      rw [dropStep, if_neg (not_not_intro home)] at taken
      by_cases isIdle : Idle m thread
      · rw [if_pos isIdle] at taken
        obtain rfl := Option.some.inj taken
        exact ⟨spot, drop_none_inv inv c⟩
      · rw [if_neg isIdle] at taken
        obtain ⟨dropped, notActive⟩ := known.resolve_left isIdle
        have loose := dropped_loose inv isIdle dropped
        have free := fun new => move_inv (drop_none_inv inv c) loose new
        cases state : s.threadState thread with
        | ready =>
            rw [state] at taken
            obtain rfl := Option.some.inj taken
            refine ⟨spot, drop_inv inv (fun u sameHome => ?_) ⟨home, isIdle, dropped⟩⟩
            by_contra busy
            have nobody := (inv.busy u busy).2
            rw [sameHome, place] at nobody
            cases nobody
        | active => exact absurd state notActive
        | block =>
            rw [state] at taken
            obtain rfl := Option.some.inj taken
            exact ⟨_, sleep_inv (free .asleep) isIdle (Function.update_self _ _ _)⟩
        | destroy =>
            rw [state] at taken
            obtain rfl := Option.some.inj taken
            exact ⟨_, reap_inv (free .reaped) isIdle (Function.update_self _ _ _) loose.reaped⟩

variable [DecidableEq M]

theorem thread_step_inv {c : C} {move : Move T M} {s' : State T C M} (idle : s.drop c = .none) (calm : wakesSleeper s move = true)
    (taken : threadStep m s c (s.current c) (s.pc (s.current c)) move = some s') : ∃ spot', Inv m s' spot' := by
  obtain ⟨t, runs⟩ : ∃ t, s.current c = t := ⟨_, rfl⟩
  rw [runs] at taken
  have ok := inv.pcs t
  match place : s.pc t, move, calm, taken with
  | .running, .yield state, _, taken =>
      rw [threadStep] at taken
      by_cases refused : state = .active ∨ (Idle m t ∧ state ≠ .ready)
      · rw [if_pos refused] at taken
        cases taken
      · rw [if_neg refused] at taken
        obtain rfl := Option.some.inj taken
        refine ⟨spot, goto_inv inv runs idle ⟨fun active => refused (.inl active), fun isIdle => ?_⟩⟩
        by_contra other
        exact refused (.inr ⟨isIdle, other⟩)
  | .running, .lock mutex, _, taken =>
      rw [threadStep] at taken
      by_cases refused : Idle m t ∨ s.owner mutex ≠ none
      · rw [if_pos refused] at taken
        cases taken
      · rw [if_neg refused] at taken
        obtain rfl := Option.some.inj taken
        exact ⟨spot, mutex_inv inv _ _⟩
  | .running, .block mutex, _, taken =>
      rw [threadStep] at taken
      by_cases refused : Idle m t ∨ s.owner mutex = none
      · rw [if_pos refused] at taken
        cases taken
      · rw [if_neg refused] at taken
        obtain rfl := Option.some.inj taken
        have yields : PcOk m s spot t (.yielding .block) := ⟨nofun, fun isIdle => absurd (.inl isIdle) refused⟩
        exact ⟨spot, mutex_inv (goto_inv inv runs idle yields) _ _⟩
  | .running, .unlock mutex, calm, taken =>
      rw [threadStep] at taken
      by_cases isOwner : s.owner mutex = some t
      · rw [if_pos isOwner] at taken
        cases queue : s.waitQueue mutex with
        | nil =>
            rw [queue] at taken
            obtain rfl := Option.some.inj taken
            exact ⟨spot, mutex_inv inv _ _⟩
        | cons thread rest =>
            rw [queue] at taken
            rw [wakesSleeper, queue] at calm
            obtain rfl := Option.some.inj taken
            obtain ⟨spot', inv'⟩ := unlock_inv inv runs idle calm
            exact ⟨spot', mutex_inv inv' _ _⟩
      · rw [if_neg isOwner] at taken
        cases taken
  | .waking thread, .run, _, taken =>
      obtain rfl := Option.some.inj taken
      exact waking_inv inv runs idle place
  | .yielding state, .run, _, taken =>
      rw [threadStep] at taken
      cases queue : s.threadQueue c with
      | nil =>
          rw [queue] at taken
          obtain rfl := Option.some.inj taken
          rw [place] at ok
          exact ⟨spot, goto_inv inv runs idle ok⟩
      | cons next rest =>
          rw [queue] at taken
          obtain rfl := Option.some.inj taken
          exact next_inv inv runs idle place queue
  | .handed state (some next), .run, _, taken =>
      obtain rfl := Option.some.inj taken
      exact ⟨spot, handed_inv inv runs idle place⟩
  | .handed state none, .run, _, taken =>
      rw [threadStep] at taken
      rw [place] at ok
      by_cases isIdle : Idle m t
      · have ready : s.threadState t = state := by
          rw [ok.2 isIdle, show t = m.idleThread (m.scheduler t) from isIdle]
          exact inv.idleReady _
        rw [if_pos isIdle, if_pos ready] at taken
        obtain rfl := Option.some.inj taken
        exact ⟨spot, goto_inv inv runs idle trivial⟩
      · rw [if_neg isIdle] at taken
        obtain rfl := Option.some.inj taken
        exact ⟨spot, handed_idle_inv inv runs idle place isIdle⟩
  | .picked state next, .run, _, taken =>
      rw [place] at ok
      rw [threadStep, if_neg ok.2.1] at taken
      obtain rfl := Option.some.inj taken
      exact ⟨spot, picked_inv inv runs idle place⟩
  | .switching next, .run, _, taken =>
      obtain rfl := Option.some.inj taken
      exact switching_inv inv runs idle place

omit inv in
theorem calm_step_inv {action : C × Move T M} {s' : State T C M} (inv : ∃ spot, Inv m s spot) (taken : calmStep m action s = some s') :
    ∃ spot', Inv m s' spot' := by
  obtain ⟨spot, inv⟩ := inv
  unfold calmStep at taken
  by_cases calm : wakesSleeper s action.2 = true
  · rw [if_pos calm] at taken
    unfold step at taken
    have others : ∀ move : Move T M, action.2 = move → (if s.drop action.1 = .none then
        threadStep m s action.1 (s.current action.1) (s.pc (s.current action.1)) move
        else if move = .run then dropStep m s action.1 (s.drop action.1) else none) = some s' → ∃ spot', Inv m s' spot' := by
      intro move same taken
      by_cases idle : s.drop action.1 = .none
      · rw [if_pos idle] at taken
        exact thread_step_inv inv idle (same ▸ calm) taken
      · rw [if_neg idle] at taken
        by_cases isRun : move = .run
        · rw [if_pos isRun] at taken
          exact drop_step_inv inv taken
        · rw [if_neg isRun] at taken
          cases taken
    cases move : action.2 with
    | spawn thread =>
        rw [move] at taken
        dsimp only at taken
        by_cases refused : Idle m thread ∨ s.born thread = true
        · rw [if_pos refused] at taken
          cases taken
        · rw [if_neg refused] at taken
          obtain rfl := Option.some.inj taken
          rw [not_or, Bool.not_eq_true] at refused
          exact spawn_inv inv refused.1 refused.2
    | yield state =>
        rw [move] at taken
        exact others _ move taken
    | lock mutex =>
        rw [move] at taken
        exact others _ move taken
    | block mutex =>
        rw [move] at taken
        exact others _ move taken
    | unlock mutex =>
        rw [move] at taken
        exact others _ move taken
    | run =>
        rw [move] at taken
        exact others _ move taken
  · rw [if_neg calm] at taken
    cases taken

omit [DecidableEq T] [DecidableEq C] [DecidableEq M] in
theorem orderly_of_inv : Orderly m s := by
  refine ⟨fun t notIdle p q first second => ?_, fun c t member => (inv.queued c t member).2.2.2, fun u t waking => ?_, inv.asserted⟩
  · -- Every place a thread is at shows in its spot.
    have cpu : ∀ c, s.current c = t → spot t = .running c := fun c same => by
      have here := (inv.current c).resolve_left (same ▸ notIdle)
      rw [same] at here
      exact here
    have queue : ∀ c i, (s.threadQueue c)[i]? = some t → spot t = .queued c := fun c i found =>
      (inv.queued c t (List.mem_of_getElem? found)).2.1
    have reaper : ∀ i, s.reaper[i]? = some t → spot t = .reaped := fun i found => (inv.reaped t (List.mem_of_getElem? found)).2
    match p, q, first, second with
    | .cpu c, .cpu d, first, second => rw [Spot.running.inj ((cpu c first).symm.trans (cpu d second))]
    | .cpu c, .queue d j, first, second => cases (cpu c first).symm.trans (queue d j second)
    | .cpu c, .reaper j, first, second => cases (cpu c first).symm.trans (reaper j second)
    | .queue c i, .cpu d, first, second => cases (queue c i first).symm.trans (cpu d second)
    | .queue c i, .queue d j, first, second =>
        obtain rfl := Spot.queued.inj ((queue c i first).symm.trans (queue d j second))
        obtain ⟨inside, at_i⟩ := List.getElem?_eq_some_iff.mp first
        obtain ⟨_, at_j⟩ := List.getElem?_eq_some_iff.mp second
        rw [(List.Nodup.getElem_inj_iff (inv.distinct c)).mp (at_i.trans at_j.symm)]
    | .queue c i, .reaper j, first, second => cases (queue c i first).symm.trans (reaper j second)
    | .reaper i, .cpu d, first, second => cases (reaper i first).symm.trans (cpu d second)
    | .reaper i, .queue d j, first, second => cases (reaper i first).symm.trans (queue d j second)
    | .reaper i, .reaper j, first, second =>
        obtain ⟨inside, at_i⟩ := List.getElem?_eq_some_iff.mp first
        obtain ⟨_, at_j⟩ := List.getElem?_eq_some_iff.mp second
        rw [(List.Nodup.getElem_inj_iff inv.reapedOnce).mp (at_i.trans at_j.symm)]
  · have ok := inv.pcs u
    rw [waking] at ok
    exact ok.2.2

end Runs

-- As long as mutex_release only comes to threads that have been switched away, no
-- thread is in two places.
theorem sched_orderly {T C M : Type} [DecidableEq T] [DecidableEq C] [DecidableEq M] (m : Machine T C) (s : State T C M)
    (reach : Reachable (initial m) (calmStep m) s) : Orderly m s := by
  have start : ∀ s : State T C M, initial m s → ∃ spot, Inv m s spot := fun _ isInitial => ⟨_, initial_inv m isInitial⟩
  obtain ⟨spot, inv⟩ := reachable_invariant start (fun _ _ _ inv taken => calm_step_inv inv taken) reach
  exact orderly_of_inv inv

-- Two CPUs with a thread each besides their idle threads, and one mutex.
def pair : Machine (Fin 4) Bool where
  scheduler := fun t => t = 1 ∨ t = 3
  idleThread := fun c => if c then 1 else 0
  idleHome := by decide

def pairState : State (Fin 4) Bool Unit where
  threadQueue := fun _ => []
  current := pair.idleThread
  drop := fun _ => .none
  threadState := fun _ => .ready
  pc := fun _ => .running
  reaper := []
  owner := fun _ => none
  waitQueue := fun _ => []
  asleep := fun _ => false
  born := fun _ => false
  failed := false

theorem pair_initial : initial pair pairState :=
  ⟨fun _ => rfl, fun _ => rfl, fun _ => rfl, fun _ => rfl, fun _ => rfl, rfl, fun _ => rfl, fun _ => rfl, fun _ => rfl, fun _ => rfl, rfl⟩

-- Thread 3 takes the mutex, thread 2 starts to wait for it.
def contend : List (Bool × Move (Fin 4) Unit) :=
  (false, .spawn 2) :: (false, .spawn 3) :: (false, .yield .ready) :: List.replicate 5 (false, .run) ++
    (true, .yield .ready) :: List.replicate 5 (true, .run) ++ [(true, .lock ()), (false, .block ())]

theorem sched_orderly_hand_off : ∃ s, execute (calmStep pair) (contend ++ List.replicate 5 (false, .run) ++ [(true, .unlock ()), (true, .run)])
    pairState = some s ∧ s.current false = 0 ∧ s.threadQueue false = [2] ∧ Orderly pair s := by
  obtain ⟨s, run, current, queue⟩ : ∃ s, execute (calmStep pair) (contend ++ List.replicate 5 (false, .run) ++ [(true, .unlock ()), (true, .run)])
      pairState = some s ∧ s.current false = 0 ∧ s.threadQueue false = [2] := ⟨_, rfl, rfl, rfl⟩
  exact ⟨s, run, current, queue, sched_orderly pair s (reachable_execute (.start pairState pair_initial) run)⟩

-- The mutex is released before thread 2 has yielded: it is queued while it runs, and
-- then picks itself.
theorem sched_wakes_current : ∃ s s' : State (Fin 4) Bool Unit, Reachable (initial pair) (step pair) s ∧ s.current false = 2 ∧ s.threadQueue false = [2] ∧
    ¬ Orderly pair s ∧ execute (step pair) (List.replicate 3 (false, .run)) s = some s' ∧ s'.failed = true := by
  obtain ⟨s, run, current, queue, failing⟩ : ∃ s, execute (step pair) (contend ++ [(true, .unlock ()), (true, .run)]) pairState = some s ∧
      s.current false = 2 ∧ s.threadQueue false = [2] ∧
      ∃ s', execute (step pair) (List.replicate 3 (false, .run)) s = some s' ∧ s'.failed = true := ⟨_, rfl, rfl, rfl, _, rfl, rfl⟩
  obtain ⟨s', fails, failed⟩ := failing
  refine ⟨s, s', reachable_execute (.start pairState pair_initial) run, current, queue, fun orderly => ?_, fails, failed⟩
  have queued : At s 2 (.queue false 0) := by
    rw [At, queue]
    rfl
  cases orderly.once 2 (by decide) (.cpu false) (.queue false 0) current queued

end Elysium.Sched
