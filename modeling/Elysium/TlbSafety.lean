import Elysium.Tlb

set_option autoImplicit false

namespace Elysium.Tlb

open Transitions (Reachable reachable_invariant execute reachable_execute)

def Task.locked : Task → Bool
  | .idle | .entering _ _ => false
  | _ => true

-- The range of the round the CPU has started and not yet come back from.
def Task.round : Task → Option (Nat × Nat)
  | .opening addr length | .flushing addr length | .counting addr length | .waiting addr length | .sending addr length _
  | .leaving addr length => some (addr, length)
  | _ => none

def Task.running : Task → Bool
  | .opening _ _ | .flushing _ _ | .counting _ _ | .waiting _ _ | .sending _ _ _ => true
  | _ => false

def Task.uncounted : Task → Bool
  | .opening _ _ | .flushing _ _ | .counting _ _ => true
  | _ => false

theorem round_locked {task : Task} {range : Nat × Nat} (round : task.round = some range) : task.locked = true := by
  cases task with
  | idle => cases round
  | entering => cases round
  | _ => rfl

theorem running_locked {task : Task} (running : task.running = true) : task.locked = true := by
  cases task with
  | idle => cases running
  | entering => cases running
  | _ => rfl

def Handler.busy : Handler → Bool
  | .opening _ _ | .flushing _ _ | .counting => true
  | _ => false

section Invariant

variable {n : Nat}

-- The CPUs the counter stands for.
def Counted (s : State n) (c : Fin n) : Prop :=
  s.latest ≠ none ∧
    (s.latest = some c → (s.task c).uncounted = false) ∧ (s.latest ≠ some c → s.status c = true ∧ (s.handler c).busy = false)

structure Local (s : State n) (holder : Option (Fin n)) (c : Fin n) : Prop where
  locked : (s.task c).locked = true ↔ holder = some c
  round : ∀ addr length, (s.task c).round = some (addr, length) → s.latest = some c ∧ s.address = addr ∧ s.length = length
  own : ∀ addr length, s.task c = .counting addr length → (addr, length) ∈ s.flushed c
  other : s.handler c ≠ .off → s.latest ≠ none ∧ s.latest ≠ some c
  marked : (s.handler c).busy = true → s.status c = true
  range : ∀ addr length, s.handler c = .opening addr length ∨ s.handler c = .flushing addr length →
    s.address = addr ∧ s.length = length
  invalidated : s.handler c = .counting → (s.address, s.length) ∈ s.flushed c

structure Inv (s : State n) (holder : Option (Fin n)) (done : Finset (Fin n)) : Prop where
  cpus : ∀ c, Local s holder c
  lock : s.shootdownLock = holder.isSome
  count : s.completeCount = done.card
  counted : ∀ c, c ∈ done ↔ Counted s c
  flushed : ∀ c ∈ done, (s.address, s.length) ∈ s.flushed c
  whole : s.latest ≠ none → (∀ c, (s.task c).running = false) → done = Finset.univ
  silent : s.latest = none → ∀ c, s.ipis c = 0

theorem initial_inv {s : State n} (start : initial s) : Inv s none ∅ := by
  obtain ⟨lock, _, count, task, handler, ipis, latest⟩ := start
  refine ⟨fun c => ?_, lock, count, fun c => ?_, nofun, fun some => absurd latest some, fun _ => ipis⟩
  · constructor <;> simp [task c, handler c, Task.locked, Task.round, Handler.busy]
  · simp [Counted, latest]

-- What a step of one CPU leaves alone at another.
structure Agrees (s s' : State n) (c : Fin n) : Prop where
  task : s'.task c = s.task c
  handler : s'.handler c = s.handler c
  status : s'.status c = s.status c
  flushed : s'.flushed c = s.flushed c

structure SameRound (s s' : State n) : Prop where
  address : s'.address = s.address
  length : s'.length = s.length
  latest : s'.latest = s.latest

theorem local_agrees {s s' : State n} {holder holder' : Option (Fin n)} {c : Fin n} (round : SameRound s s') (agrees : Agrees s s' c)
    (holds : holder' = some c ↔ holder = some c) (here : Local s holder c) : Local s' holder' c := by
  obtain ⟨task, handler, status, flushed⟩ := agrees
  obtain ⟨address, length, latest⟩ := round
  obtain ⟨locked, round, own, other, marked, range, invalidated⟩ := here
  constructor <;> simp only [task, handler, status, flushed, address, length, latest] <;> first | assumption | exact locked.trans holds.symm

theorem counted_agrees {s s' : State n} {c : Fin n} (round : SameRound s s') (agrees : Agrees s s' c) : Counted s' c ↔ Counted s c := by
  unfold Counted
  rw [agrees.task, agrees.handler, agrees.status, round.latest]

-- A step of one CPU within a round, or between rounds.
theorem step_inv {s s' : State n} {holder holder' : Option (Fin n)} {done done' : Finset (Fin n)} {c : Fin n} (inv : Inv s holder done)
    (round : SameRound s s') (others : ∀ d, d ≠ c → Agrees s s' d) (holds : ∀ d, d ≠ c → (holder' = some d ↔ holder = some d))
    (here : Local s' holder' c) (lock : s'.shootdownLock = holder'.isSome) (count : s'.completeCount = done'.card)
    (member : c ∈ done' ↔ Counted s' c) (members : ∀ d, d ≠ c → (d ∈ done' ↔ d ∈ done))
    (flushed : c ∈ done' → (s.address, s.length) ∈ s'.flushed c)
    (whole : s.latest ≠ none → (∀ d, (s'.task d).running = false) → done' = Finset.univ)
    (silent : s.latest = none → ∀ d, s'.ipis d = 0) : Inv s' holder' done' := by
  refine ⟨fun d => ?_, lock, count, fun d => ?_, fun d isDone => ?_, fun some => whole (round.latest ▸ some), fun none =>
    silent (round.latest ▸ none)⟩
  · by_cases same : d = c
    · rw [same]
      exact here
    · exact local_agrees round (others d same) (holds d same) (inv.cpus d)
  · by_cases same : d = c
    · rw [same]
      exact member
    · rw [members d same, inv.counted, counted_agrees round (others d same)]
  · rw [round.address, round.length]
    by_cases same : d = c
    · rw [same] at isDone ⊢
      exact flushed isDone
    · rw [(others d same).flushed]
      exact inv.flushed d ((members d same).mp isDone)

-- A step of x86_64_tlb_shootdown that counts nobody.
theorem task_inv {s s' : State n} {holder holder' : Option (Fin n)} {done : Finset (Fin n)} {c : Fin n} {next : Task}
    (inv : Inv s holder done) (off : s.handler c = .off) (round : SameRound s s') (task : s'.task = Function.update s.task c next)
    (handler : s'.handler = s.handler) (status : s'.status = s.status) (others : ∀ d, d ≠ c → s'.flushed d = s.flushed d)
    (grows : ∀ range ∈ s.flushed c, range ∈ s'.flushed c) (count : s'.completeCount = s.completeCount)
    (holds : ∀ d, d ≠ c → (holder' = some d ↔ holder = some d)) (locked : next.locked = true ↔ holder' = some c)
    (lock : s'.shootdownLock = holder'.isSome)
    (inRound : ∀ addr length, next.round = some (addr, length) → s.latest = some c ∧ s.address = addr ∧ s.length = length)
    (own : ∀ addr length, next = .counting addr length → (addr, length) ∈ s'.flushed c)
    (uncounted : s.latest = some c → next.uncounted = (s.task c).uncounted)
    (running : next.running = true ∨ (s.task c).running = false ∨ done = Finset.univ)
    (silent : s.latest = none → ∀ d, s'.ipis d = 0) : Inv s' holder' done := by
  have here : s'.task c = next := by rw [task, Function.update_self]
  have there : ∀ d, d ≠ c → s'.task d = s.task d := fun d apart => by rw [task, Function.update_of_ne apart]
  have offHere : s'.handler c = .off := by rw [handler, off]
  refine step_inv inv round (fun d apart => ⟨there d apart, by rw [handler], by rw [status], others d apart⟩) holds ?_ lock
    (count.trans inv.count) ?_ (fun _ _ => Iff.rfl) (fun isDone => grows _ (inv.flushed c isDone)) (fun some quiet => ?_) silent
  · refine ⟨by rw [here]; exact locked, fun addr length => ?_, fun addr length => ?_, ?_, ?_, fun addr length => ?_, ?_⟩
    · rw [here, round.latest, round.address, round.length]
      exact inRound addr length
    · rw [here]
      exact own addr length
    · exact fun busy => absurd offHere busy
    · rw [offHere]
      nofun
    · rw [offHere]
      nofun
    · rw [offHere]
      nofun
  · rw [inv.counted c]
    unfold Counted
    rw [here, round.latest, handler, status]
    refine and_congr_right fun _ => and_congr_left fun _ => imp_congr_right fun isLatest => ?_
    rw [uncounted isLatest]
  · rcases running with moving | still | all
    · have stopped := quiet c
      rw [here, moving] at stopped
      cases stopped
    · refine inv.whole some fun d => ?_
      by_cases same : d = c
      · rw [same]
        exact still
      · rw [← there d same]
        exact quiet d
    · exact all

-- A step of tlb_shootdown_handler that counts nobody.
theorem handler_inv {s s' : State n} {holder : Option (Fin n)} {done : Finset (Fin n)} {c : Fin n} {next : Handler}
    (inv : Inv s holder done) (fresh : s.latest ≠ none ∧ s.latest ≠ some c) (round : SameRound s s') (task : s'.task = s.task)
    (handler : s'.handler = Function.update s.handler c next) (status : ∀ d, d ≠ c → s'.status d = s.status d)
    (others : ∀ d, d ≠ c → s'.flushed d = s.flushed d) (grows : ∀ range ∈ s.flushed c, range ∈ s'.flushed c)
    (count : s'.completeCount = s.completeCount) (lock : s'.shootdownLock = s.shootdownLock)
    (marked : next.busy = true → s'.status c = true)
    (range : ∀ addr length, next = .opening addr length ∨ next = .flushing addr length → s.address = addr ∧ s.length = length)
    (invalidated : next = .counting → (s.address, s.length) ∈ s'.flushed c)
    (same : (s'.status c = true ∧ next.busy = false) ↔ (s.status c = true ∧ (s.handler c).busy = false)) : Inv s' holder done := by
  have here : s'.handler c = next := by rw [handler, Function.update_self]
  have there : ∀ d, d ≠ c → s'.handler d = s.handler d := fun d apart => by rw [handler, Function.update_of_ne apart]
  have old := inv.cpus c
  refine step_inv inv round (fun d apart => ⟨by rw [task], there d apart, status d apart, others d apart⟩) (fun _ _ => Iff.rfl) ?_
    (lock.trans inv.lock) (count.trans inv.count) ?_ (fun _ _ => Iff.rfl) (fun isDone => grows _ (inv.flushed c isDone)) (fun some quiet => ?_)
    (fun none => absurd none fresh.1)
  · refine ⟨by rw [task]; exact old.locked, fun addr length => ?_, fun addr length place => ?_, fun _ => ?_, ?_, fun addr length => ?_, ?_⟩
    · rw [task, round.latest, round.address, round.length]
      exact old.round addr length
    · rw [task] at place
      exact grows _ (old.own addr length place)
    · rw [round.latest]
      exact fresh
    · rw [here]
      exact marked
    · rw [here, round.address, round.length]
      exact range addr length
    · rw [here, round.address, round.length]
      exact invalidated
  · rw [inv.counted c]
    unfold Counted
    rw [task, round.latest, here, same]
  · refine inv.whole some fun d => ?_
    rw [← task]
    exact quiet d

section Steps

variable {s : State n} {holder : Option (Fin n)} {done : Finset (Fin n)} {c : Fin n} (inv : Inv s holder done)

include inv

-- The initiator and a handler count in the same way: the CPU was not counted yet.
theorem count_inv {s' : State n} (round : SameRound s s') (others : ∀ d, d ≠ c → Agrees s s' d) (here : Local s' holder c)
    (lock : s'.shootdownLock = s.shootdownLock) (count : s'.completeCount = s.completeCount + 1) (before : ¬ Counted s c)
    (after : Counted s' c) (flushed : (s.address, s.length) ∈ s'.flushed c)
    (running : ∀ d, (s'.task d).running = false → (s.task d).running = false) (silent : s.latest = none → ∀ d, s'.ipis d = 0) :
    Inv s' holder (insert c done) := by
  have absent : c ∉ done := fun member => before ((inv.counted c).mp member)
  refine step_inv inv round others (fun _ _ => Iff.rfl) here (lock.trans inv.lock) ?_ (iff_of_true (Finset.mem_insert_self c done) after)
    (fun d apart => ?_) (fun _ => flushed) (fun some quiet => ?_) silent
  · rw [count, inv.count, Finset.card_insert_of_notMem absent]
  · rw [Finset.mem_insert]
    exact ⟨fun member => member.resolve_left apart, .inr⟩
  · rw [inv.whole some fun d => running d (quiet d), Finset.insert_eq_of_mem (Finset.mem_univ c)]

theorem counting_inv {addr length : Nat} (off : s.handler c = .off) (place : s.task c = .counting addr length) :
    Inv { s.goto c (.waiting addr length) with completeCount := s.completeCount + 1 } holder (insert c done) := by
  have old := inv.cpus c
  obtain ⟨isLatest, address, len⟩ := old.round addr length (by rw [place]; rfl)
  have own := old.own addr length place
  have moved : ∀ d, d ≠ c → Function.update s.task c (.waiting addr length) d = s.task d := fun d apart => Function.update_of_ne apart _ _
  have here : Function.update s.task c (.waiting addr length) c = .waiting addr length := Function.update_self _ _ _
  refine count_inv inv ⟨rfl, rfl, rfl⟩ (fun d apart => ⟨moved d apart, rfl, rfl, rfl⟩) ⟨?_, fun a l => ?_, fun a l => ?_, ?_, old.marked,
    old.range, old.invalidated⟩ rfl rfl ?_ ?_ ?_ (fun d quiet => ?_) inv.silent
  · rw [show ({ s.goto c (.waiting addr length) with completeCount := s.completeCount + 1 } : State n).task c = .waiting addr length from here]
    have locked := old.locked
    rw [place] at locked
    exact locked
  · rw [show ({ s.goto c (.waiting addr length) with completeCount := s.completeCount + 1 } : State n).task c = .waiting addr length from here]
    intro range
    obtain ⟨rfl, rfl⟩ := Prod.mk.inj (Option.some.inj range)
    exact ⟨isLatest, address, len⟩
  · rw [show ({ s.goto c (.waiting addr length) with completeCount := s.completeCount + 1 } : State n).task c = .waiting addr length from here]
    nofun
  · exact fun busy => absurd off busy
  · rintro ⟨_, counted, _⟩
    have uncounted := counted isLatest
    rw [place] at uncounted
    cases uncounted
  · refine ⟨fun nobody => ?_, fun _ => ?_, fun another => absurd isLatest another⟩
    · cases isLatest.symm.trans nobody
    · exact congrArg Task.uncounted here
  · rw [address, len]
    exact own
  · by_cases same : d = c
    · rw [same] at quiet
      have waiting := (congrArg Task.running here).symm.trans quiet
      cases waiting
    · rw [← moved d same]
      exact quiet

theorem handler_counting_inv (place : s.handler c = .counting) :
    Inv { s.handle c .off with completeCount := s.completeCount + 1 } holder (insert c done) := by
  have old := inv.cpus c
  obtain ⟨some, another⟩ := old.other (by rw [place]; nofun)
  have status := old.marked (by rw [place]; rfl)
  have here : Function.update s.handler c .off c = .off := Function.update_self _ _ _
  refine count_inv inv ⟨rfl, rfl, rfl⟩ (fun d apart => ⟨rfl, Function.update_of_ne apart _ _, rfl, rfl⟩) ⟨old.locked, old.round, old.own, ?_, ?_,
    fun a l => ?_, ?_⟩ rfl rfl ?_ ?_ (old.invalidated place) (fun _ quiet => quiet) inv.silent
  · exact fun busy => absurd here busy
  · exact fun busy => by cases (congrArg Handler.busy here).symm.trans busy
  · rintro (opening | flushing)
    · cases here.symm.trans opening
    · cases here.symm.trans flushing
  · exact fun counting => by cases here.symm.trans counting
  · rintro ⟨_, _, counted⟩
    have busy := (counted another).2
    rw [place] at busy
    cases busy
  · exact ⟨some, fun isLatest => absurd isLatest another, fun _ => ⟨status, congrArg Handler.busy here⟩⟩

-- A new round starts when the last one is over for everybody.
theorem publish_inv {addr length : Nat} (off : s.handler c = .off) (place : s.task c = .publishing addr length) :
    Inv { s.goto c (.opening addr length) with
      address := addr, length := length, completeCount := 0, status := fun _ => false, latest := some c, flushed := fun _ => [] } holder ∅ := by
  have isHolder : holder = some c := (inv.cpus c).locked.mp (by rw [place]; rfl)
  have idle : ∀ d, d ≠ c → (s.task d).locked = false := by
    intro d apart
    rw [Bool.eq_false_iff, Ne, (inv.cpus d).locked, isHolder, Option.some.injEq]
    exact fun same => apart same.symm
  have ended : ∀ d, (s.task d).running = false := by
    intro d
    by_cases same : d = c
    · rw [same, place]
      rfl
    · rw [Bool.eq_false_iff]
      intro running
      have locked := running_locked running
      rw [idle d same] at locked
      cases locked
  have free : ∀ d, (s.handler d).busy = false := by
    intro d
    rw [Bool.eq_false_iff]
    intro busy
    obtain ⟨some, another⟩ := (inv.cpus d).other fun off => by rw [off] at busy; cases busy
    have member : d ∈ done := by rw [inv.whole some ended]; exact Finset.mem_univ d
    have quiet := (((inv.counted d).mp member).2.2 another).2
    rw [busy] at quiet
    cases quiet
  have here : Function.update s.task c (.opening addr length) c = .opening addr length := Function.update_self _ _ _
  have moved : ∀ d, d ≠ c → Function.update s.task c (.opening addr length) d = s.task d := fun d apart => Function.update_of_ne apart _ _
  refine ⟨fun d => ?_, inv.lock, rfl, fun d => ?_, nofun, fun _ quiet => ?_, nofun⟩
  · have noBusy : ∀ handler : Handler, s.handler d = handler → handler.busy = false := fun handler same => same ▸ free d
    have other : s.handler d ≠ .off → some c ≠ none ∧ some c ≠ some d := by
      intro busy
      refine ⟨nofun, fun same => busy ?_⟩
      rw [← Option.some.inj same]
      exact off
    refine ⟨?_, fun a l range => ?_, fun a l counting => ?_, other, fun busy => ?_, fun a l both => ?_, fun counting => ?_⟩
    · by_cases same : d = c
      · rw [same]
        exact iff_of_true (congrArg Task.locked here) isHolder
      · exact (iff_of_eq (congrArg (fun task => Task.locked task = true) (moved d same))).trans (inv.cpus d).locked
    · by_cases same : d = c
      · rw [same] at range ⊢
        obtain ⟨rfl, rfl⟩ := Prod.mk.inj (Option.some.inj ((congrArg Task.round here).symm.trans range))
        exact ⟨rfl, rfl, rfl⟩
      · have locked := round_locked ((congrArg Task.round (moved d same)).symm.trans range)
        rw [idle d same] at locked
        cases locked
    · by_cases same : d = c
      · rw [same] at counting
        cases here.symm.trans counting
      · have old := (moved d same).symm.trans counting
        have stopped := ended d
        rw [old] at stopped
        cases stopped
    · cases (free d).symm.trans busy
    · rcases both with opening | flushing
      · cases noBusy _ opening
      · cases noBusy _ flushing
    · cases noBusy _ counting
  · refine iff_of_false (Finset.notMem_empty d) ?_
    rintro ⟨_, counted, others⟩
    by_cases same : d = c
    · have uncounted := counted (by rw [same])
      rw [same] at uncounted
      cases (congrArg Task.uncounted here).symm.trans uncounted
    · cases (others fun latest => same (Option.some.inj latest).symm).1
  · cases (congrArg Task.running here).symm.trans (quiet c)

-- A move within the call that changes no flag, no count and no range.
theorem goto_inv {next : Task} {holder' : Option (Fin n)} {shootdown statusLock : Bool} {ipis : Fin n → Nat}
    (off : s.handler c = .off) (holds : ∀ d, d ≠ c → (holder' = some d ↔ holder = some d)) (locked : next.locked = true ↔ holder' = some c)
    (lock : shootdown = holder'.isSome)
    (inRound : ∀ addr length, next.round = some (addr, length) → s.latest = some c ∧ s.address = addr ∧ s.length = length)
    (own : ∀ addr length, next ≠ .counting addr length) (uncounted : s.latest = some c → next.uncounted = (s.task c).uncounted)
    (running : next.running = true ∨ (s.task c).running = false ∨ done = Finset.univ) (silent : s.latest = none → ∀ d, ipis d = 0) :
    Inv { s.goto c next with shootdownLock := shootdown, statusLock := statusLock, ipis := ipis } holder' done :=
  task_inv inv off ⟨rfl, rfl, rfl⟩ rfl rfl rfl (fun _ _ => rfl) (fun _ member => member) rfl holds locked lock inRound
    (fun addr length same => absurd same (own addr length)) uncounted running silent

theorem flush_inv {addr length : Nat} (off : s.handler c = .off) (place : s.task c = .flushing addr length) :
    Inv ((s.goto c (.counting addr length)).invalidate c addr length) holder done := by
  have old := inv.cpus c
  have here := old.round addr length (by rw [place]; rfl)
  have flushed : ((s.goto c (.counting addr length)).invalidate c addr length).flushed c = (addr, length) :: s.flushed c :=
    Function.update_self _ _ _
  refine task_inv inv off ⟨rfl, rfl, rfl⟩ rfl rfl rfl (fun d apart => Function.update_of_ne apart _ _) (fun range member => ?_) rfl
    (fun _ _ => Iff.rfl) ?_ inv.lock (fun a l range => ?_) (fun a l same => ?_) (fun _ => by rw [place]; rfl) (.inl rfl) inv.silent
  · rw [flushed]
    exact List.mem_cons_of_mem _ member
  · rw [← old.locked, place]
    exact Iff.rfl
  · obtain ⟨rfl, rfl⟩ := Prod.mk.inj (Option.some.inj range)
    exact here
  · obtain ⟨rfl, rfl⟩ := Task.counting.inj same
    rw [flushed]
    exact List.mem_cons_self

theorem early_inv (addr length : Nat) : Inv (s.invalidate c addr length) holder done := by
  have grows : ∀ d, ∀ range ∈ s.flushed d, range ∈ (s.invalidate c addr length).flushed d := by
    intro d range member
    by_cases same : d = c
    · rw [same] at member ⊢
      rw [show (s.invalidate c addr length).flushed c = (addr, length) :: s.flushed c from Function.update_self _ _ _]
      exact List.mem_cons_of_mem _ member
    · rw [show (s.invalidate c addr length).flushed d = s.flushed d from Function.update_of_ne same _ _]
      exact member
  refine ⟨fun d => ?_, inv.lock, inv.count, inv.counted, fun d isDone => grows d _ (inv.flushed d isDone), inv.whole, inv.silent⟩
  have old := inv.cpus d
  exact ⟨old.locked, old.round, fun a l place => grows d _ (old.own a l place), old.other, old.marked, old.range,
    fun place => grows d _ (old.invalidated place)⟩

theorem task_step_inv {move : Move} {s' : State n} (off : s.handler c = .off) (taken : taskStep s c (s.task c) move = some s') :
    ∃ holder' done', Inv s' holder' done' := by
  have old := inv.cpus c
  have locked := old.locked
  have isSame : ∀ d, d ≠ c → (holder = some d ↔ holder = some d) := fun _ _ => Iff.rfl
  cases place : s.task c with
  | idle =>
      rw [place] at taken locked
      cases move with
      | call addr length =>
          rw [taskStep] at taken
          by_cases threaded : s.threaded c = true
          · rw [if_pos threaded] at taken
            obtain rfl := Option.some.inj taken
            exact ⟨holder, done, goto_inv inv off isSame locked inv.lock nofun nofun (fun _ => by rw [place]; rfl)
              (.inr (.inl (by rw [place]; rfl))) inv.silent⟩
          · rw [if_neg threaded] at taken
            obtain rfl := Option.some.inj taken
            exact ⟨holder, done, early_inv inv addr length⟩
      | _ => cases taken
  | entering addr length =>
      rw [place] at taken locked
      cases move with
      | run =>
          rw [taskStep] at taken
          cases free : s.shootdownLock with
          | true =>
              rw [free] at taken
              cases taken
          | false =>
              rw [free] at taken
              obtain rfl := Option.some.inj taken
              have nobody : holder = none := by
                have lock := inv.lock
                rw [free] at lock
                cases holder with
                | none => rfl
                | some _ => cases lock
              refine ⟨some c, done, goto_inv inv off (fun d apart => ?_) (iff_of_true rfl rfl) rfl nofun nofun (fun _ => by rw [place]; rfl)
                (.inr (.inl (by rw [place]; rfl))) inv.silent⟩
              rw [nobody]
              exact iff_of_false (fun same => apart (Option.some.inj same).symm) nofun
      | _ => cases taken
  | starting addr length =>
      rw [place] at taken locked
      cases move with
      | run =>
          rw [taskStep] at taken
          cases free : s.statusLock with
          | true =>
              rw [free] at taken
              cases taken
          | false =>
              rw [free] at taken
              obtain rfl := Option.some.inj taken
              exact ⟨holder, done, goto_inv inv off isSame locked inv.lock nofun nofun (fun _ => by rw [place]; rfl)
                (.inr (.inl (by rw [place]; rfl))) inv.silent⟩
      | _ => cases taken
  | publishing addr length =>
      rw [place] at taken
      cases move with
      | run =>
          obtain rfl := Option.some.inj taken
          exact ⟨holder, ∅, publish_inv inv off place⟩
      | _ => cases taken
  | opening addr length =>
      have round := old.round
      rw [place] at taken locked round
      cases move with
      | run =>
          obtain rfl := Option.some.inj taken
          exact ⟨holder, done, goto_inv inv off isSame locked inv.lock round nofun (fun _ => by rw [place]; rfl) (.inl rfl) inv.silent⟩
      | _ => cases taken
  | flushing addr length =>
      rw [place] at taken
      cases move with
      | run =>
          obtain rfl := Option.some.inj taken
          exact ⟨holder, done, flush_inv inv off place⟩
      | _ => cases taken
  | counting addr length =>
      rw [place] at taken
      cases move with
      | run =>
          obtain rfl := Option.some.inj taken
          exact ⟨holder, insert c done, counting_inv inv off place⟩
      | _ => cases taken
  | waiting addr length =>
      have round := old.round
      rw [place] at taken locked round
      cases move with
      | run retry =>
          rw [taskStep] at taken
          by_cases more : s.completeCount ≠ n
          · rw [if_pos more] at taken
            cases retry with
            | true =>
                obtain rfl := Option.some.inj taken
                exact ⟨holder, done, goto_inv inv off isSame locked inv.lock round nofun (fun _ => by rw [place]; rfl) (.inl rfl) inv.silent⟩
            | false =>
                obtain rfl := Option.some.inj taken
                exact ⟨holder, done, inv⟩
          · rw [if_neg more] at taken
            obtain rfl := Option.some.inj taken
            have all : done = Finset.univ := by
              refine Finset.eq_univ_of_card done ?_
              rw [← inv.count, Fintype.card_fin]
              exact Classical.not_not.mp more
            exact ⟨holder, done, goto_inv inv off isSame locked inv.lock round nofun (fun _ => by rw [place]; rfl) (.inr (.inr all)) inv.silent⟩
      | _ => cases taken
  | sending addr length i =>
      have round := old.round
      rw [place] at taken locked round
      have started := (round addr length rfl).1
      cases move with
      | run =>
          rw [taskStep] at taken
          by_cases inside : i < n
          · rw [dif_pos inside] at taken
            by_cases self : (⟨i, inside⟩ : Fin n) = c
            · rw [if_pos self] at taken
              obtain rfl := Option.some.inj taken
              exact ⟨holder, done, goto_inv inv off isSame locked inv.lock round nofun (fun _ => by rw [place]; rfl) (.inl rfl) inv.silent⟩
            · rw [if_neg self] at taken
              by_cases flagged : s.status ⟨i, inside⟩ = true
              · rw [if_pos flagged] at taken
                obtain rfl := Option.some.inj taken
                exact ⟨holder, done, goto_inv inv off isSame locked inv.lock round nofun (fun _ => by rw [place]; rfl) (.inl rfl) inv.silent⟩
              · rw [if_neg flagged] at taken
                obtain rfl := Option.some.inj taken
                exact ⟨holder, done, goto_inv inv off isSame locked inv.lock round nofun (fun _ => by rw [place]; rfl) (.inl rfl)
                  (fun nobody => by cases started.symm.trans nobody)⟩
          · rw [dif_neg inside] at taken
            obtain rfl := Option.some.inj taken
            exact ⟨holder, done, goto_inv inv off isSame locked inv.lock round nofun (fun _ => by rw [place]; rfl) (.inl rfl) inv.silent⟩
      | _ => cases taken
  | leaving addr length =>
      rw [place] at taken locked
      cases move with
      | run =>
          obtain rfl := Option.some.inj taken
          refine ⟨none, done, goto_inv inv off (fun d apart => ?_) (iff_of_false nofun nofun) rfl nofun nofun (fun _ => by rw [place]; rfl)
            (.inr (.inl (by rw [place]; rfl))) inv.silent⟩
          rw [locked.mp rfl]
          exact iff_of_false nofun fun same => apart (Option.some.inj same).symm
      | _ => cases taken

theorem take_inv {s' : State n} (calm : s.latest ≠ some c) (off : s.handler c = .off) (taken : takeStep s c = some s') : Inv s' holder done := by
  unfold takeStep at taken
  by_cases refused : s.ipis c = 0 ∨ (s.task c).masked
  · rw [if_pos refused] at taken
    cases taken
  · rw [if_neg refused] at taken
    obtain rfl := Option.some.inj taken
    have some : s.latest ≠ none := fun nobody => refused (.inl (inv.silent nobody c))
    exact handler_inv inv ⟨some, calm⟩ ⟨rfl, rfl, rfl⟩ rfl rfl (fun _ _ => rfl) (fun _ _ => rfl) (fun _ member => member) rfl rfl nofun
      (by simp) nofun (by rw [off]; exact Iff.rfl)

theorem handler_step_inv {s' : State n} (taken : handlerStep s c (s.handler c) = some s') : ∃ done', Inv s' holder done' := by
  have old := inv.cpus c
  cases place : s.handler c with
  | off =>
      rw [place] at taken
      cases taken
  | locking =>
      rw [place, handlerStep] at taken
      cases free : s.statusLock with
      | true =>
          rw [free] at taken
          cases taken
      | false =>
          rw [free] at taken
          obtain rfl := Option.some.inj taken
          exact ⟨done, handler_inv inv (old.other (by rw [place]; nofun)) ⟨rfl, rfl, rfl⟩ rfl rfl (fun _ _ => rfl) (fun _ _ => rfl)
            (fun _ member => member) rfl rfl nofun (by simp) nofun (by rw [place]; exact Iff.rfl)⟩
  | checking =>
      rw [place, handlerStep] at taken
      have other := old.other (by rw [place]; nofun)
      by_cases flagged : s.status c = true
      · rw [if_pos flagged] at taken
        obtain rfl := Option.some.inj taken
        exact ⟨done, handler_inv inv other ⟨rfl, rfl, rfl⟩ rfl rfl (fun _ _ => rfl) (fun _ _ => rfl) (fun _ member => member) rfl rfl
          nofun (by simp) nofun (by rw [place]; exact Iff.rfl)⟩
      · rw [if_neg flagged] at taken
        obtain rfl := Option.some.inj taken
        refine ⟨done, handler_inv inv other ⟨rfl, rfl, rfl⟩ rfl rfl (fun d apart => Function.update_of_ne apart _ _) (fun _ _ => rfl)
          (fun _ member => member) rfl rfl (fun _ => Function.update_self _ _ _) (fun a l same => ?_) nofun ?_⟩
        · rcases same with same | same
          · obtain ⟨rfl, rfl⟩ := Handler.opening.inj same
            exact ⟨rfl, rfl⟩
          · cases same
        · exact iff_of_false (fun both => by cases both.2) fun both => flagged both.1
  | refusing =>
      rw [place] at taken
      obtain rfl := Option.some.inj taken
      exact ⟨done, handler_inv inv (old.other (by rw [place]; nofun)) ⟨rfl, rfl, rfl⟩ rfl rfl (fun _ _ => rfl) (fun _ _ => rfl)
        (fun _ member => member) rfl rfl nofun (by simp) nofun (by rw [place]; exact Iff.rfl)⟩
  | opening addr length =>
      rw [place] at taken
      obtain rfl := Option.some.inj taken
      refine ⟨done, handler_inv inv (old.other (by rw [place]; nofun)) ⟨rfl, rfl, rfl⟩ rfl rfl (fun _ _ => rfl) (fun _ _ => rfl)
        (fun _ member => member) rfl rfl (fun _ => old.marked (by rw [place]; rfl)) (fun a l same => ?_) nofun (by rw [place]; exact Iff.rfl)⟩
      rcases same with same | same
      · cases same
      · obtain ⟨rfl, rfl⟩ := Handler.flushing.inj same
        exact old.range addr length (.inl place)
  | flushing addr length =>
      rw [place] at taken
      obtain rfl := Option.some.inj taken
      obtain ⟨address, len⟩ := old.range addr length (.inr place)
      have flushed : ((s.handle c .counting).invalidate c addr length).flushed c = (addr, length) :: s.flushed c :=
        Function.update_self _ _ _
      refine ⟨done, handler_inv inv (old.other (by rw [place]; nofun)) ⟨rfl, rfl, rfl⟩ rfl rfl (fun _ _ => rfl)
        (fun d apart => Function.update_of_ne apart _ _) (fun range member => ?_) rfl rfl (fun _ => old.marked (by rw [place]; rfl))
        (by simp) (fun _ => ?_) (by rw [place]; exact Iff.rfl)⟩
      · rw [flushed]
        exact List.mem_cons_of_mem _ member
      · rw [flushed, address, len]
        exact List.mem_cons_self
  | counting =>
      rw [place] at taken
      obtain rfl := Option.some.inj taken
      exact ⟨insert c done, handler_counting_inv inv place⟩

end Steps

theorem calm_step_inv {s s' : State n} {action : Fin n × Move} (inv : ∃ holder done, Inv s holder done)
    (taken : calmStep action s = some s') : ∃ holder done, Inv s' holder done := by
  obtain ⟨holder, done, inv⟩ := inv
  unfold calmStep at taken
  by_cases calm : Undisturbed action s
  · rw [if_pos calm] at taken
    unfold step at taken
    by_cases off : s.handler action.1 = .off
    · rw [if_pos off] at taken
      cases move : action.2 with
      | take =>
          rw [move] at taken
          exact ⟨holder, done, take_inv inv (calm move) off taken⟩
      | call addr length =>
          rw [move] at taken
          exact task_step_inv inv off taken
      | run retry =>
          rw [move] at taken
          exact task_step_inv inv off taken
    · rw [if_neg off] at taken
      cases move : action.2 with
      | run retry =>
          rw [move] at taken
          obtain ⟨done', inv'⟩ := handler_step_inv inv taken
          exact ⟨holder, done', inv'⟩
      | _ =>
          rw [move] at taken
          cases taken
  · rw [if_neg calm] at taken
    cases taken

theorem complete_of_inv {s : State n} {holder : Option (Fin n)} {done : Finset (Fin n)} (inv : Inv s holder done) : Complete s := by
  refine ⟨fun c addr length place d => ?_, ?_⟩
  · obtain ⟨isLatest, rfl, rfl⟩ := (inv.cpus c).round addr length (by rw [place]; rfl)
    refine inv.flushed d ?_
    rw [inv.whole (by rw [isLatest]; nofun) fun e => ?_]
    · exact Finset.mem_univ d
    · rw [Bool.eq_false_iff]
      intro running
      have first := (inv.cpus e).locked.mp (running_locked running)
      have second := (inv.cpus c).locked.mp (by rw [place]; rfl)
      obtain rfl := Option.some.inj (first.symm.trans second)
      rw [place] at running
      cases running
  · rw [inv.count]
    exact (Finset.card_le_univ done).trans_eq (Fintype.card_fin n)

end Invariant

-- As long as the CPU that started a round takes no interrupt before the next one
-- starts, a round ends when everybody has invalidated its range.
theorem shootdown_complete {n : Nat} (s : State n) (reach : Reachable initial calmStep s) : Complete s := by
  have start : ∀ s : State n, initial s → ∃ holder done, Inv s holder done := fun _ isInitial => ⟨none, ∅, initial_inv isInitial⟩
  obtain ⟨holder, done, inv⟩ := reachable_invariant start (fun _ _ _ inv taken => calm_step_inv inv taken) reach
  exact complete_of_inv inv

def quietState : State 2 where
  shootdownLock := false
  statusLock := false
  status := fun _ => false
  completeCount := 0
  address := 0
  length := 0
  threaded := fun _ => true
  task := fun _ => .idle
  handler := fun _ => .off
  ipis := fun _ => 0
  latest := none
  flushed := fun _ => []

theorem quiet_initial : initial quietState := ⟨rfl, rfl, rfl, fun _ => rfl, fun _ => rfl, fun _ => rfl, rfl⟩

-- CPU 0 starts a round and, since CPU 1 does not answer, sends its interrupt twice.
def oneRound : List (Fin 2 × Move) :=
  (0, .call 0x1000 0x1000) :: List.replicate 14 (0, .run true) ++ (1, .take) :: List.replicate 5 (1, .run false) ++
    [(0, .run false)]

theorem shootdown_complete_round : ∃ s, execute calmStep oneRound quietState = some s ∧ s.task 0 = .leaving 0x1000 0x1000 ∧
    s.ipis 1 = 1 ∧ Complete s := by
  obtain ⟨s, run, left, pending⟩ : ∃ s, execute calmStep oneRound quietState = some s ∧ s.task 0 = .leaving 0x1000 0x1000 ∧ s.ipis 1 = 1 :=
    ⟨_, rfl, rfl, rfl⟩
  exact ⟨s, run, left, pending, shootdown_complete s (reachable_execute (.start quietState quiet_initial) run)⟩

-- The second interrupt reaches CPU 1 in a round of its own, where its flag is clear,
-- and it counts twice.
def lateInterrupt : List (Fin 2 × Move) :=
  oneRound ++ (0, .run false) :: (1, .call 0x5000 0x1000) :: List.replicate 4 (1, .run false) ++
    (1, .take) :: List.replicate 8 (1, .run false)

theorem shootdown_leaves_early : ∃ s : State 2, Reachable initial step s ∧ s.task 1 = .leaving 0x5000 0x1000 ∧ s.flushed 0 = [] ∧
    ¬ Complete s := by
  obtain ⟨s, run, left, missing⟩ : ∃ s, execute step lateInterrupt quietState = some s ∧ s.task 1 = .leaving 0x5000 0x1000 ∧
      s.flushed 0 = [] := ⟨_, rfl, rfl, rfl⟩
  refine ⟨s, reachable_execute (.start quietState quiet_initial) run, left, missing, fun complete => ?_⟩
  have member := complete.flushed 1 0x5000 0x1000 left 0
  rw [missing] at member
  cases member

end Elysium.Tlb
