import Elysium.Sched

set_option autoImplicit false

namespace Elysium.Sched

open Transitions (Reachable reachable_invariant execute reachable_execute)

-- The one place a thread is at, those included where no list has it.
inductive Spot (T C : Type) where
  | unborn
  | running (c : C)
  | queued (c : C)
  | held (c : C)
  | dropped (c : C)
  | asleep
  | woken (waker : T)
  | reaped

section Invariant

variable {T C M : Type} (m : Machine T C)

-- The thread a CPU is about to run.
def NextOk (spot : T → Spot T C) (t next : T) : Prop :=
  t ≠ next ∧ m.scheduler next = m.scheduler t ∧ (Idle m next ∨ spot next = .held (m.scheduler t))

def YieldOk (t : T) (state : ThreadState) : Prop := state ≠ .active ∧ (Idle m t → state = .ready)

def PcOk (s : State T C M) (spot : T → Spot T C) (t : T) : Pc T → Prop
  | .running => True
  | .yielding state => YieldOk m t state
  | .handed state none => YieldOk m t state
  | .handed state (some next) => YieldOk m t state ∧ ¬ Idle m next ∧ NextOk m spot t next
  | .picked state next => YieldOk m t state ∧ NextOk m spot t next
  | .switching next => YieldOk m t (s.threadState t) ∧ NextOk m spot t next
  | .waking thread => ¬ Idle m thread ∧ spot thread = .woken t ∧ s.threadState thread = .ready

def DropOk (s : State T C M) (spot : T → Spot T C) (c : C) : Drop T → Prop
  | .none => True
  | .dropping thread => m.scheduler thread = c ∧ (Idle m thread ∨ spot thread = .dropped c ∧ s.threadState thread ≠ .active)
  | .requeuing thread => m.scheduler thread = c ∧ ¬ Idle m thread ∧ spot thread = .dropped c

structure Inv (s : State T C M) (spot : T → Spot T C) : Prop where
  current : ∀ c, Idle m (s.current c) ∨ spot (s.current c) = .running c
  home : ∀ c, m.scheduler (s.current c) = c
  queued : ∀ c t, t ∈ s.threadQueue c → ¬ Idle m t ∧ spot t = .queued c ∧ m.scheduler t = c ∧ s.threadState t = .ready
  distinct : ∀ c, (s.threadQueue c).Nodup
  reaped : ∀ t, t ∈ s.reaper → ¬ Idle m t ∧ spot t = .reaped
  reapedOnce : s.reaper.Nodup
  busy : ∀ t, s.pc t ≠ .running → s.current (m.scheduler t) = t ∧ s.drop (m.scheduler t) = .none
  pcs : ∀ t, PcOk m s spot t (s.pc t)
  drops : ∀ c, DropOk m s spot c (s.drop c)
  asleep : ∀ t, s.asleep t = true → ¬ Idle m t ∧ spot t = .asleep
  unborn : ∀ t, s.born t = false → Idle m t ∨ spot t = .unborn
  idleReady : ∀ c, s.threadState (m.idleThread c) = .ready
  asserted : s.failed = false

theorem initial_inv {s : State T C M} (start : initial m s) : Inv m s fun _ => .unborn := by
  obtain ⟨queue, current, drop, ready, pc, reaper, _, _, asleep, born, failed⟩ := start
  refine ⟨fun c => .inl ?_, fun c => ?_, fun c t member => ?_, fun c => ?_, fun t member => ?_, ?_, fun t busy => absurd (pc t) busy,
    fun t => ?_, fun c => ?_, fun t sleeps => ?_, fun _ _ => .inr rfl, ready, failed⟩
  · rw [current c, Idle, m.idleHome]
  · rw [current c, m.idleHome]
  · rw [queue c] at member
    cases member
  · rw [queue c]
    exact List.nodup_nil
  · rw [reaper] at member
    cases member
  · rw [reaper]
    exact List.nodup_nil
  · rw [pc t]
    trivial
  · rw [drop c]
    trivial
  · rw [asleep t] at sleeps
    cases sleeps

-- A step under way has this thread in hand.
def Mentions : Pc T → T → Prop
  | .handed _ (some next), t => next = t
  | .picked _ next, t => next = t
  | .switching next, t => next = t
  | .waking thread, t => thread = t
  | _, _ => False

-- Nothing knows of the thread.
structure Loose (s : State T C M) (t : T) : Prop where
  notIdle : ¬ Idle m t
  born : s.born t = true
  current : ∀ c, s.current c ≠ t
  queued : ∀ c, t ∉ s.threadQueue c
  reaped : t ∉ s.reaper
  pcs : ∀ u, ¬ Mentions (s.pc u) t
  drops : ∀ c, s.drop c ≠ .dropping t ∧ s.drop c ≠ .requeuing t
  asleep : s.asleep t = false

section Step

variable {m} {s : State T C M} {spot : T → Spot T C}

theorem next_ok_frame {spot' : T → Spot T C} {t next : T} (keeps : ¬ Idle m next → spot' next = spot next)
    (ok : NextOk m spot t next) : NextOk m spot' t next := by
  obtain ⟨apart, home, idle | held⟩ := ok
  · exact ⟨apart, home, .inl idle⟩
  · by_cases idle : Idle m next
    · exact ⟨apart, home, .inl idle⟩
    · exact ⟨apart, home, .inr ((keeps idle).trans held)⟩

theorem pc_ok_frame {s' : State T C M} {spot' : T → Spot T C} {t : T} {pc : Pc T}
    (keeps : ∀ x, Mentions pc x → ¬ Idle m x → spot' x = spot x)
    (own : s'.threadState t = s.threadState t) (woken : ∀ x, pc = .waking x → s'.threadState x = s.threadState x)
    (ok : PcOk m s spot t pc) : PcOk m s' spot' t pc := by
  match pc, keeps, woken, ok with
  | .running, _, _, _ => trivial
  | .yielding _, _, _, ok => exact ok
  | .handed _ none, _, _, ok => exact ok
  | .handed _ (some next), keeps, _, ok => exact ⟨ok.1, ok.2.1, next_ok_frame (keeps next rfl) ok.2.2⟩
  | .picked _ next, keeps, _, ok => exact ⟨ok.1, next_ok_frame (keeps next rfl) ok.2⟩
  | .switching next, keeps, _, ok =>
      refine ⟨?_, next_ok_frame (keeps next rfl) ok.2⟩
      rw [own]
      exact ok.1
  | .waking thread, keeps, woken, ok => exact ⟨ok.1, (keeps thread rfl ok.1).trans ok.2.1, (woken thread rfl).trans ok.2.2⟩

theorem drop_ok_frame {s' : State T C M} {spot' : T → Spot T C} {c : C} {drop : Drop T}
    (keeps : ∀ x, drop = .dropping x ∨ drop = .requeuing x → ¬ Idle m x → spot' x = spot x)
    (state : ∀ x, drop = .dropping x → ¬ Idle m x → s'.threadState x = s.threadState x) (ok : DropOk m s spot c drop) :
    DropOk m s' spot' c drop := by
  match drop, keeps, state, ok with
  | .none, _, _, _ => trivial
  | .dropping thread, keeps, state, ok =>
      by_cases idle : Idle m thread
      · exact ⟨ok.1, .inl idle⟩
      · obtain ⟨dropped, moved⟩ := ok.2.resolve_left idle
        exact ⟨ok.1, .inr ⟨(keeps thread (.inl rfl) idle).trans dropped, by rw [state thread rfl idle]; exact moved⟩⟩
  | .requeuing thread, keeps, _, ok => exact ⟨ok.1, ok.2.1, (keeps thread (.inr rfl) ok.2.1).trans ok.2.2⟩

variable (inv : Inv m s spot)

include inv

-- What knows of a thread agrees with its spot.
theorem loose_of_spot {u : T} (notIdle : ¬ Idle m u) (born : s.born u = true) (current : ∀ c, spot u = .running c → s.current c ≠ u)
    (queued : ∀ c, spot u = .queued c → u ∉ s.threadQueue c) (reaped : spot u = .reaped → u ∉ s.reaper)
    (pcs : ∀ t, spot u = .held (m.scheduler t) ∨ spot u = .woken t → ¬ Mentions (s.pc t) u)
    (drops : ∀ c, spot u = .dropped c → s.drop c ≠ .dropping u ∧ s.drop c ≠ .requeuing u)
    (asleep : spot u = .asleep → s.asleep u = false) : Loose m s u := by
  refine ⟨notIdle, born, fun c same => ?_, fun c member => queued c (inv.queued c u member).2.1 member,
    fun member => reaped (inv.reaped u member).2 member, fun t mentioned => pcs t ?_ mentioned, fun c => ⟨fun named => ?_, fun named => ?_⟩, ?_⟩
  · have place := (inv.current c).resolve_left (same ▸ notIdle)
    rw [same] at place
    exact current c place same
  · have ok := inv.pcs t
    match place : s.pc t, mentioned, ok with
    | .handed _ (some next), same, ok => exact .inl (same ▸ ok.2.2.2.2.resolve_left (same ▸ notIdle))
    | .picked _ next, same, ok => exact .inl (same ▸ ok.2.2.2.resolve_left (same ▸ notIdle))
    | .switching next, same, ok => exact .inl (same ▸ ok.2.2.2.resolve_left (same ▸ notIdle))
    | .waking thread, same, ok => exact .inr (same ▸ ok.2.1)
  · have ok := inv.drops c
    rw [named] at ok
    exact (drops c (ok.2.resolve_left notIdle).1).1 named
  · have ok := inv.drops c
    rw [named] at ok
    exact (drops c ok.2.2).2 named
  · cases sleeps : s.asleep u with
    | false => rfl
    | true =>
        have awake := asleep (inv.asleep u sleeps).2
        rw [sleeps] at awake
        exact awake

variable [DecidableEq T]

-- A thread that nothing knows of may be anywhere.
theorem move_inv {u : T} (loose : Loose m s u) (new : Spot T C) : Inv m s (Function.update spot u new) := by
  have kept : ∀ x, x ≠ u → Function.update spot u new x = spot x := fun x apart => Function.update_of_ne apart _ _
  refine ⟨fun c => ?_, inv.home, fun c t member => ?_, inv.distinct, fun t member => ?_, inv.reapedOnce, inv.busy, fun t => ?_, fun c => ?_,
    fun t sleeps => ?_, fun t unborn => ?_, inv.idleReady, inv.asserted⟩
  · rw [kept _ (loose.current c)]
    exact inv.current c
  · rw [kept t fun same => loose.queued c (same ▸ member)]
    exact inv.queued c t member
  · rw [kept t fun same => loose.reaped (same ▸ member)]
    exact inv.reaped t member
  · refine pc_ok_frame (fun x mentioned _ => kept x fun same => loose.pcs t (same ▸ mentioned)) rfl (fun _ _ => rfl) (inv.pcs t)
  · refine drop_ok_frame (fun x named _ => kept x fun same => ?_) (fun _ _ _ => rfl) (inv.drops c)
    rcases named with named | named
    · exact (loose.drops c).1 (same ▸ named)
    · exact (loose.drops c).2 (same ▸ named)
  · have apart : t ≠ u := fun same => by rw [same, loose.asleep] at sleeps; cases sleeps
    rw [kept t apart]
    exact inv.asleep t sleeps
  · have apart : t ≠ u := fun same => by rw [same, loose.born] at unborn; cases unborn
    rw [kept t apart]
    exact inv.unborn t unborn

theorem state_inv {u : T} (loose : Loose m s u) (state : ThreadState) : Inv m (s.setState u state) spot := by
  have kept : ∀ x, x ≠ u → (s.setState u state).threadState x = s.threadState x := fun x apart => Function.update_of_ne apart _ _
  refine ⟨inv.current, inv.home, fun c t member => ?_, inv.distinct, inv.reaped, inv.reapedOnce, inv.busy, fun t => ?_, fun c => ?_,
    inv.asleep, inv.unborn, fun c => ?_, inv.asserted⟩
  · rw [kept t fun same => loose.queued c (same ▸ member)]
    exact inv.queued c t member
  · by_cases same : t = u
    · have resting : s.pc t = .running := by
        by_contra busy
        exact loose.current _ ((inv.busy t busy).1.trans same)
      rw [show (s.setState u state).pc t = .running from resting]
      trivial
    · refine pc_ok_frame (fun _ _ _ => rfl) (kept t same) (fun x waking => kept x fun same => ?_) (inv.pcs t)
      exact loose.pcs t (by rw [show s.pc t = .waking x from waking]; exact same)
  · exact drop_ok_frame (fun _ _ _ => rfl) (fun x named _ => kept x fun same => (loose.drops c).1 (same ▸ named)) (inv.drops c)
  · rw [kept _ fun same => loose.notIdle (by rw [← same, Idle, m.idleHome])]
    exact inv.idleReady c

-- The running thread goes on to its next step.
theorem goto_inv {c : C} {t : T} {next : Pc T} (runs : s.current c = t) (idle : s.drop c = .none) (ok : PcOk m s spot t next) :
    Inv m (s.goto t next) spot := by
  have home : m.scheduler t = c := by rw [← runs, inv.home]
  refine ⟨inv.current, inv.home, inv.queued, inv.distinct, inv.reaped, inv.reapedOnce, fun u busy => ?_, fun u => ?_, inv.drops, inv.asleep,
    inv.unborn, inv.idleReady, inv.asserted⟩
  · by_cases same : u = t
    · rw [same, home]
      exact ⟨runs, idle⟩
    · exact inv.busy u fun rests => busy ((Function.update_of_ne same _ _).trans rests)
  · by_cases same : u = t
    · rw [same, show (s.goto t next).pc t = next from Function.update_self _ _ _]
      exact pc_ok_frame (fun _ _ _ => rfl) rfl (fun _ _ => rfl) ok
    · rw [show (s.goto t next).pc u = s.pc u from Function.update_of_ne same _ _]
      exact pc_ok_frame (fun _ _ _ => rfl) rfl (fun _ _ => rfl) (inv.pcs u)

variable [DecidableEq C]

omit [DecidableEq T] in
theorem push_inv {u : T} (notIdle : ¬ Idle m u) (place : spot u = .queued (m.scheduler u)) (absent : u ∉ s.threadQueue (m.scheduler u))
    (ready : s.threadState u = .ready) : Inv m (s.push m u) spot := by
  have here : (s.push m u).threadQueue (m.scheduler u) = s.threadQueue (m.scheduler u) ++ [u] := Function.update_self _ _ _
  have other : ∀ c, c ≠ m.scheduler u → (s.push m u).threadQueue c = s.threadQueue c := fun c apart => Function.update_of_ne apart _ _
  refine ⟨inv.current, inv.home, fun c t member => ?_, fun c => ?_, inv.reaped, inv.reapedOnce, inv.busy,
    fun t => pc_ok_frame (fun _ _ _ => rfl) rfl (fun _ _ => rfl) (inv.pcs t),
    fun c => drop_ok_frame (fun _ _ _ => rfl) (fun _ _ _ => rfl) (inv.drops c), inv.asleep, inv.unborn, inv.idleReady, inv.asserted⟩
  · by_cases same : c = m.scheduler u
    · rw [same, here, List.mem_append, List.mem_singleton] at member
      rcases member with old | rfl
      · rw [same]
        exact inv.queued _ t old
      · exact ⟨notIdle, same ▸ place, same.symm, ready⟩
    · rw [other c same] at member
      exact inv.queued c t member
  · by_cases same : c = m.scheduler u
    · rw [same, here]
      refine List.nodup_append.mpr ⟨inv.distinct _, List.nodup_singleton u, fun a member b last => ?_⟩
      rw [List.mem_singleton] at last
      rintro rfl
      exact absent (last ▸ member)
    · rw [other c same]
      exact inv.distinct c

omit [DecidableEq T] [DecidableEq C] in
theorem born_of_spot {u : T} (notIdle : ¬ Idle m u) (there : spot u ≠ .unborn) : s.born u = true := by
  cases known : s.born u with
  | true => rfl
  | false => exact absurd ((inv.unborn u known).resolve_left notIdle) there

omit [DecidableEq T] [DecidableEq C] in
theorem mutex_inv (owner : M → Option T) (waitQueue : M → List T) : Inv m { s with owner := owner, waitQueue := waitQueue } spot :=
  ⟨inv.current, inv.home, inv.queued, inv.distinct, inv.reaped, inv.reapedOnce, inv.busy, inv.pcs, inv.drops, inv.asleep, inv.unborn,
    inv.idleReady, inv.asserted⟩

omit [DecidableEq T] in
theorem queue_inv {c : C} {rest : List T} (shorter : ∀ t ∈ rest, t ∈ s.threadQueue c) (nodup : rest.Nodup) :
    Inv m { s with threadQueue := Function.update s.threadQueue c rest } spot := by
  refine ⟨inv.current, inv.home, fun d t member => ?_, fun d => ?_, inv.reaped, inv.reapedOnce, inv.busy, inv.pcs, inv.drops, inv.asleep,
    inv.unborn, inv.idleReady, inv.asserted⟩
  · dsimp only at member
    by_cases same : d = c
    · rw [same, Function.update_self] at member
      rw [same]
      exact inv.queued c t (shorter t member)
    · rw [Function.update_of_ne same] at member
      exact inv.queued d t member
  · dsimp only
    by_cases same : d = c
    · rw [same, Function.update_self]
      exact nodup
    · rw [Function.update_of_ne same]
      exact inv.distinct d

omit [DecidableEq C] in
theorem awake_inv (u : T) : Inv m { s with asleep := Function.update s.asleep u false } spot := by
  refine ⟨inv.current, inv.home, inv.queued, inv.distinct, inv.reaped, inv.reapedOnce, inv.busy, inv.pcs, inv.drops, fun t sleeps => ?_,
    inv.unborn, inv.idleReady, inv.asserted⟩
  dsimp only at sleeps
  by_cases same : t = u
  · rw [same, Function.update_self] at sleeps
    cases sleeps
  · rw [Function.update_of_ne same] at sleeps
    exact inv.asleep t sleeps

omit [DecidableEq C] in
theorem sleep_inv {u : T} (notIdle : ¬ Idle m u) (place : spot u = .asleep) :
    Inv m { s with asleep := Function.update s.asleep u true } spot := by
  refine ⟨inv.current, inv.home, inv.queued, inv.distinct, inv.reaped, inv.reapedOnce, inv.busy, inv.pcs, inv.drops, fun t sleeps => ?_,
    inv.unborn, inv.idleReady, inv.asserted⟩
  dsimp only at sleeps
  by_cases same : t = u
  · rw [same]
    exact ⟨notIdle, place⟩
  · rw [Function.update_of_ne same] at sleeps
    exact inv.asleep t sleeps

omit [DecidableEq C] in
theorem born_inv (u : T) : Inv m { s with born := Function.update s.born u true } spot := by
  refine ⟨inv.current, inv.home, inv.queued, inv.distinct, inv.reaped, inv.reapedOnce, inv.busy, inv.pcs, inv.drops, inv.asleep,
    fun t unborn => ?_, inv.idleReady, inv.asserted⟩
  dsimp only at unborn
  by_cases same : t = u
  · rw [same, Function.update_self] at unborn
    cases unborn
  · rw [Function.update_of_ne same] at unborn
    exact inv.unborn t unborn

omit [DecidableEq T] [DecidableEq C] in
theorem reap_inv {u : T} (notIdle : ¬ Idle m u) (place : spot u = .reaped) (absent : u ∉ s.reaper) :
    Inv m { s with reaper := s.reaper ++ [u] } spot := by
  refine ⟨inv.current, inv.home, inv.queued, inv.distinct, fun t member => ?_, ?_, inv.busy, inv.pcs, inv.drops, inv.asleep, inv.unborn,
    inv.idleReady, inv.asserted⟩
  · rcases List.mem_append.mp member with old | last
    · exact inv.reaped t old
    · rw [List.mem_singleton.mp last]
      exact ⟨notIdle, place⟩
  · refine List.nodup_append.mpr ⟨inv.reapedOnce, List.nodup_singleton u, fun a member b last => ?_⟩
    rw [List.mem_singleton] at last
    rintro rfl
    exact absent (last ▸ member)

omit [DecidableEq T] in
theorem drop_none_inv (c : C) : Inv m { s with drop := Function.update s.drop c .none } spot := by
  refine ⟨inv.current, inv.home, inv.queued, inv.distinct, inv.reaped, inv.reapedOnce, fun t busy => ?_, inv.pcs, fun d => ?_, inv.asleep,
    inv.unborn, inv.idleReady, inv.asserted⟩
  · dsimp only
    obtain ⟨runs, idle⟩ := inv.busy t busy
    refine ⟨runs, ?_⟩
    by_cases same : m.scheduler t = c
    · rw [same, Function.update_self]
    · rw [Function.update_of_ne same]
      exact idle
  · dsimp only
    by_cases same : d = c
    · rw [same, Function.update_self]
      trivial
    · rw [Function.update_of_ne same]
      exact inv.drops d

omit [DecidableEq T] in
theorem drop_inv {c : C} {drop : Drop T} (resting : ∀ t, m.scheduler t = c → s.pc t = .running) (ok : DropOk m s spot c drop) :
    Inv m { s with drop := Function.update s.drop c drop } spot := by
  refine ⟨inv.current, inv.home, inv.queued, inv.distinct, inv.reaped, inv.reapedOnce, fun t busy => ?_, inv.pcs, fun d => ?_, inv.asleep,
    inv.unborn, inv.idleReady, inv.asserted⟩
  · dsimp only
    obtain ⟨runs, idle⟩ := inv.busy t busy
    rw [Function.update_of_ne fun same => busy (resting t same)]
    exact ⟨runs, idle⟩
  · dsimp only
    by_cases same : d = c
    · rw [same, Function.update_self]
      exact ok
    · rw [Function.update_of_ne same]
      exact inv.drops d

omit [DecidableEq T] in
theorem current_inv {c : C} {next : T} (resting : ∀ t, m.scheduler t = c → s.pc t = .running) (home : m.scheduler next = c)
    (place : Idle m next ∨ spot next = .running c) : Inv m { s with current := Function.update s.current c next } spot := by
  refine ⟨fun d => ?_, fun d => ?_, inv.queued, inv.distinct, inv.reaped, inv.reapedOnce, fun t busy => ?_, inv.pcs, inv.drops, inv.asleep,
    inv.unborn, inv.idleReady, inv.asserted⟩
  · dsimp only
    by_cases same : d = c
    · rw [same, Function.update_self]
      exact place
    · rw [Function.update_of_ne same]
      exact inv.current d
  · dsimp only
    by_cases same : d = c
    · rw [same, Function.update_self]
      exact home
    · rw [Function.update_of_ne same]
      exact inv.home d
  · dsimp only
    rw [Function.update_of_ne fun same => busy (resting t same)]
    exact inv.busy t busy

omit [DecidableEq C] in
-- The running thread takes the state it yields with.
theorem own_state_inv {c : C} {t : T} {state : ThreadState} (runs : s.current c = t) (resting : s.pc t = .running)
    (ok : YieldOk m t state) : Inv m (s.setState t state) spot := by
  have kept : ∀ x, x ≠ t → (s.setState t state).threadState x = s.threadState x := fun x apart => Function.update_of_ne apart _ _
  have place : ¬ Idle m t → spot t = .running c := fun notIdle => by
    have here := (inv.current c).resolve_left (runs ▸ notIdle)
    rw [runs] at here
    exact here
  refine ⟨inv.current, inv.home, fun d x member => ?_, inv.distinct, inv.reaped, inv.reapedOnce, inv.busy, fun x => ?_, fun d => ?_,
    inv.asleep, inv.unborn, fun d => ?_, inv.asserted⟩
  · obtain ⟨notIdle, queued, rest⟩ := inv.queued d x member
    rw [kept x fun same => by rw [same, place (same ▸ notIdle)] at queued; cases queued]
    exact ⟨notIdle, queued, rest⟩
  · by_cases same : x = t
    · rw [same, show (s.setState t state).pc t = .running from resting]
      trivial
    · refine pc_ok_frame (fun _ _ _ => rfl) (kept x same) (fun w waking => kept w fun isT => ?_) (inv.pcs x)
      have okX := inv.pcs x
      rw [show s.pc x = .waking w from waking, isT] at okX
      cases (place okX.1).symm.trans okX.2.1
  · refine drop_ok_frame (fun _ _ _ => rfl) (fun x named notIdle => kept x fun isT => ?_) (inv.drops d)
    have okD := inv.drops d
    rw [show s.drop d = .dropping x from named, isT] at okD
    cases (place (isT ▸ notIdle)).symm.trans (okD.2.resolve_left (isT ▸ notIdle)).1
  · by_cases same : m.idleThread d = t
    · rw [same, show (s.setState t state).threadState t = state from Function.update_self _ _ _]
      exact ok.2 (by rw [← same, Idle, m.idleHome])
    · rw [kept _ same]
      exact inv.idleReady d

end Step

end Invariant

end Elysium.Sched
