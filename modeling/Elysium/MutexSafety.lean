import Elysium.Mutex

set_option autoImplicit false

namespace Elysium.Mutex

open Transitions (Reachable reachable_invariant execute reachable_execute)

def Pc.holds : Pc → Bool
  | .exchanging | .enqueuing | .parking | .storing | .leaving | .popping _ | .settling | .finishing => true
  | _ => false

def Pc.waits : Pc → Bool
  | .parking | .blocked => true
  | _ => false

def Pc.owning : Pc → Bool
  | .waking | .storing | .leaving | .releasing | .refused _ | .popping _ => true
  | _ => false

-- The places, all under the lock, where the state says contested and the queue may
-- be empty.
def Pc.passing : Pc → Bool
  | .enqueuing | .storing | .settling => true
  | _ => false

def Pc.meets : Pc → Bool
  | .enqueuing | .storing | .settling | .refused _ | .popping _ => true
  | _ => false

theorem meets_cases {pc : Pc} (meets : pc.meets = true) : pc.holds = true ∨ pc.owning = true := by
  cases pc with
  | enqueuing => exact .inl rfl
  | storing => exact .inl rfl
  | settling => exact .inl rfl
  | refused => exact .inr rfl
  | popping => exact .inl rfl
  | _ => cases meets

section Invariant

variable {T : Type}

-- What is known of a thread by the place it is at.
structure Local (state : MutexState) (queue : List T) (holder owner : Option T) (t : T) (pc : Pc) : Prop where
  holds : pc.holds = true ↔ holder = some t
  queued : t ∈ queue ↔ pc.waits = true
  meets : pc.meets = true → state = .contested
  owning : pc.owning = true → owner = some t
  storing : pc = .storing → queue = []
  seen : ∀ seen, pc = .refused seen ∨ pc = .popping seen → seen = .contested
  passed : pc ≠ .failed

-- holder and owner name who has the spinlock and who has the mutex.
structure Inv (s : State T) (holder owner : Option T) : Prop where
  threads : ∀ t, Local s.state s.waitQueue holder owner t (s.pc t)
  lock : s.lock = holder.isSome
  owns : ∀ t, s.owns t = true ↔ owner = some t
  free : s.state = .unlocked ↔ owner = none
  nodup : s.waitQueue.Nodup
  contested : s.waitQueue ≠ [] → s.state = .contested
  reason : s.state = .contested → s.waitQueue ≠ [] ∨ ∃ t, holder = some t ∧ (s.pc t).passing = true
  handed : ∀ t, s.pc t = .settling → ∃ w, owner = some w ∧ s.pc w = .waking

theorem initial_inv {s : State T} (start : initial s) : Inv s none none := by
  obtain ⟨lock, state, queue, pc, owns⟩ := start
  refine ⟨fun t => ?_, lock, fun t => ?_, ?_, ?_, ?_, ?_, fun t settling => ?_⟩
  · rw [pc t, queue]
    constructor <;> simp [Pc.holds, Pc.waits, Pc.meets, Pc.owning]
  · simp [owns t]
  · simp [state]
  · simp [queue]
  · simp [queue]
  · simp [state]
  · rw [pc t] at settling
    cases settling

-- What another thread has to keep for the facts about this one to stay.
theorem local_frame {state state' : MutexState} {queue queue' : List T} {holder holder' owner owner' : Option T} {t : T} {pc : Pc}
    (here : Local state queue holder owner t pc) (holds : holder' = some t ↔ holder = some t) (queued : t ∈ queue' ↔ t ∈ queue)
    (meets : pc.meets = true → state' = .contested) (owning : pc.owning = true → owner' = some t)
    (storing : pc = .storing → queue' = []) : Local state' queue' holder' owner' t pc :=
  ⟨here.holds.trans holds.symm, queued.trans here.queued, meets, owning, storing, here.seen, here.passed⟩

end Invariant

section Facts

variable {T : Type} {s : State T} {holder owner : Option T} (inv : Inv s holder owner) {t : T}

include inv

theorem holder_here (here : (s.pc t).holds = true) : holder = some t := (inv.threads t).holds.mp here

theorem owner_here (here : (s.pc t).owning = true) : owner = some t := (inv.threads t).owning here

theorem settling_holder {u : T} (settling : s.pc u = .settling) : holder = some u :=
  holder_here inv (by rw [settling]; rfl)

-- Only the holder of the lock can be in the middle of a release.
theorem no_settling (quiet : ∀ u, holder = some u → s.pc u ≠ .settling) (u : T) : s.pc u ≠ .settling :=
  fun settling => quiet u (settling_holder inv settling) settling

-- A thread under the lock, the owner of the mutex, is the only one for whom it
-- matters that the mutex is contested.
theorem meets_here {u : T} (isHolder : holder = some t) (isOwner : owner = some t) (meets : (s.pc u).meets = true) : u = t := by
  rcases meets_cases meets with holds | owning
  · have isU := holder_here inv holds
    rw [isHolder, Option.some.injEq] at isU
    exact isU.symm
  · have isU := owner_here inv owning
    rw [isOwner, Option.some.injEq] at isU
    exact isU.symm

theorem others_quiet (isHolder : holder = some t) {u : T} (apart : u ≠ t) : s.pc u ≠ .settling ∧ s.pc u ≠ .storing := by
  have unheld : (s.pc u).holds ≠ true := fun holds => by
    have isU := holder_here inv holds
    rw [isHolder, Option.some.injEq] at isU
    exact apart isU.symm
  exact ⟨fun place => unheld (by rw [place]; rfl), fun place => unheld (by rw [place]; rfl)⟩

-- The mutex is free: it has no owner and nobody waits.
theorem unlocked_facts (unlocked : s.state = .unlocked) :
    owner = none ∧ s.waitQueue = [] ∧ (∀ u, (s.pc u).meets = false) ∧ ∀ u, (s.pc u).owning = false := by
  have nobody := inv.free.mp unlocked
  refine ⟨nobody, ?_, fun u => ?_, fun u => ?_⟩
  · by_contra waiting
    rw [inv.contested waiting] at unlocked
    cases unlocked
  · rw [Bool.eq_false_iff]
    intro meets
    rw [(inv.threads u).meets meets] at unlocked
    cases unlocked
  · rw [Bool.eq_false_iff]
    intro owning
    rw [nobody] at inv
    cases owner_here inv owning

-- A release that was refused finds somebody waiting.
theorem popping_queue {seen : MutexState} (place : s.pc t = .popping seen) : s.waitQueue ≠ [] := by
  have old := inv.threads t
  rw [place] at old
  rcases inv.reason (old.meets rfl) with waiting | ⟨u, isU, passing⟩
  · exact waiting
  · rw [old.holds.mp rfl, Option.some.injEq] at isU
    rw [← isU, place] at passing
    cases passing

end Facts

theorem lock_taken {T : Type} {s next s' : State T} (taken : (if s.lock then none else some next) = some s') : s.lock = false ∧ next = s' := by
  cases free : s.lock with
  | true =>
      rw [free] at taken
      cases taken
  | false =>
      rw [free] at taken
      exact ⟨rfl, Option.some.inj taken⟩

section Step

variable {T : Type} [DecidableEq T] {s : State T} {holder owner : Option T} (inv : Inv s holder owner) {t : T}

theorem goto_self (next : Pc) : (s.goto t next).pc t = next := Function.update_self _ _ _

theorem goto_other {u : T} (apart : u ≠ t) (next : Pc) : (s.goto t next).pc u = s.pc u := Function.update_of_ne apart _ _

theorem goto_settling (next : Pc) (notSettling : next ≠ .settling) {u : T} (settling : (s.goto t next).pc u = .settling) :
    u ≠ t ∧ s.pc u = .settling := by
  have other : u ≠ t := fun same => notSettling (by rw [same, goto_self] at settling; exact settling)
  rw [goto_other other] at settling
  exact ⟨other, settling⟩

theorem forall_goto {P : T → Pc → Prop} {next : Pc} (here : P t next) (others : ∀ u, u ≠ t → P u (s.pc u)) (u : T) :
    P u ((s.goto t next).pc u) := by
  by_cases same : u = t
  · rw [same, goto_self]
    exact here
  · rw [goto_other same]
    exact others u same

include inv

-- A move that changes neither the mutex nor who has what.
theorem goto_inv {next : Pc} (here : Local s.state s.waitQueue holder owner t next) (plain : (s.pc t).passing = false)
    (notWaking : s.pc t ≠ .waking) (notSettling : next ≠ .settling) : Inv (s.goto t next) holder owner := by
  refine ⟨forall_goto here fun u _ => inv.threads u, inv.lock, inv.owns, inv.free, inv.nodup, inv.contested, fun contested => ?_, ?_⟩
  · refine (inv.reason contested).imp_right ?_
    rintro ⟨u, isHolder, passing⟩
    have apart : u ≠ t := fun same => by rw [same, plain] at passing; cases passing
    exact ⟨u, isHolder, by rw [goto_other apart]; exact passing⟩
  · intro u settling
    obtain ⟨_, settling⟩ := goto_settling next notSettling settling
    obtain ⟨w, isOwner, waking⟩ := inv.handed u settling
    have apart : w ≠ t := fun same => notWaking (same ▸ waking)
    exact ⟨w, isOwner, by rw [goto_other apart]; exact waking⟩

theorem acquire_inv (place : s.pc t = .out) : Inv (s.goto t (.trying spinCount)) holder owner := by
  have old := inv.threads t
  rw [place] at old
  exact goto_inv inv ⟨old.holds, old.queued, old.meets, nofun, nofun, by simp, nofun⟩ (by rw [place]; rfl)
    (by rw [place]; nofun) nofun

theorem release_inv (place : s.pc t = .out) (isOwner : s.owns t = true) : Inv (s.goto t .releasing) holder owner := by
  have old := inv.threads t
  rw [place] at old
  exact goto_inv inv ⟨old.holds, old.queued, old.meets, fun _ => (inv.owns t).mp isOwner, nofun, by simp, nofun⟩ (by rw [place]; rfl)
    (by rw [place]; nofun) nofun

theorem try_again_inv {left : Nat} (place : s.pc t = .trying left) : Inv (s.goto t (afterTry left)) holder owner := by
  have old := inv.threads t
  rw [place] at old
  have plain : (s.pc t).passing = false := by rw [place]; rfl
  have notWaking : s.pc t ≠ .waking := by rw [place]; nofun
  cases left with
  | zero => exact goto_inv inv ⟨old.holds, old.queued, old.meets, nofun, nofun, by simp [afterTry], nofun⟩ plain notWaking nofun
  | succ left => exact goto_inv inv ⟨old.holds, old.queued, old.meets, nofun, nofun, by simp [afterTry], nofun⟩ plain notWaking nofun

-- The owner sees the mutex locked or contested.
theorem refused_inv (place : s.pc t = .releasing) (notLocked : s.state ≠ .locked) : Inv (s.goto t (.refused s.state)) holder owner := by
  have old := inv.threads t
  rw [place] at old
  have isOwner := old.owning rfl
  have contested : s.state = .contested := by
    cases found : s.state with
    | unlocked =>
        rw [inv.free.mp found] at isOwner
        cases isOwner
    | locked => exact absurd found notLocked
    | contested => rfl
  refine goto_inv inv ⟨old.holds, old.queued, fun _ => contested, fun _ => isOwner, nofun, fun seen same => ?_, nofun⟩
    (by rw [place]; rfl) (by rw [place]; nofun) nofun
  rcases same with same | same
  · exact (Pc.refused.inj same).symm.trans contested
  · cases same

theorem lock_inv {next : Pc} (free : s.lock = false) (here : Local s.state s.waitQueue (some t) owner t next)
    (notSettling : next ≠ .settling) : Inv { s.goto t next with lock := true } (some t) owner := by
  have nobody : holder = none := by
    have lock := inv.lock
    rw [free] at lock
    cases holder with
    | none => rfl
    | some u => cases lock
  subst nobody
  refine ⟨forall_goto here fun u apart => ?_, rfl, inv.owns, inv.free, inv.nodup, inv.contested, fun contested => ?_, fun u settling => ?_⟩
  · have old := inv.threads u
    refine local_frame old ?_ Iff.rfl old.meets old.owning old.storing
    exact iff_of_false (fun same => apart (Option.some.inj same).symm) nofun
  · rcases inv.reason contested with waiting | ⟨u, never, _⟩
    · exact .inl waiting
    · cases never
  · exact absurd (goto_settling next notSettling settling).2 (no_settling inv nofun u)

theorem slow_inv (place : s.pc t = .slow) (free : s.lock = false) : Inv { s.goto t .exchanging with lock := true } (some t) owner := by
  have old := inv.threads t
  rw [place] at old
  exact lock_inv inv free ⟨iff_of_true rfl rfl, old.queued, nofun, nofun, nofun, by simp, nofun⟩ nofun

theorem wake_inv (place : s.pc t = .waking) (free : s.lock = false) : Inv { s.goto t .leaving with lock := true } (some t) owner := by
  have old := inv.threads t
  rw [place] at old
  exact lock_inv inv free ⟨iff_of_true rfl rfl, old.queued, nofun, old.owning, nofun, by simp, nofun⟩ nofun

theorem refused_lock_inv {seen : MutexState} (place : s.pc t = .refused seen) (free : s.lock = false) :
    Inv { s.goto t (.popping seen) with lock := true } (some t) owner := by
  have old := inv.threads t
  rw [place] at old
  refine lock_inv inv free ⟨iff_of_true rfl rfl, old.queued, old.meets, old.owning, nofun, fun other same => ?_, nofun⟩ nofun
  rcases same with same | same
  · cases same
  · rw [← Pc.popping.inj same]
    exact old.seen seen (.inl rfl)

theorem unlock_inv {next : Pc} (isHolder : holder = some t) (plain : (s.pc t).passing = false)
    (here : Local s.state s.waitQueue none owner t next) (notSettling : next ≠ .settling) :
    Inv { s.goto t next with lock := false } none owner := by
  have quiet : s.pc t ≠ .settling := fun place => by rw [place] at plain; cases plain
  refine ⟨forall_goto here fun u apart => ?_, rfl, inv.owns, inv.free, inv.nodup, inv.contested, fun contested => ?_, fun u settling => ?_⟩
  · have old := inv.threads u
    refine local_frame old ?_ Iff.rfl old.meets old.owning old.storing
    rw [isHolder]
    exact iff_of_false nofun fun same => apart (Option.some.inj same).symm
  · rcases inv.reason contested with waiting | ⟨u, isU, passing⟩
    · exact .inl waiting
    · rw [isHolder, Option.some.injEq] at isU
      rw [← isU, plain] at passing
      cases passing
  · refine absurd (goto_settling next notSettling settling).2 (no_settling inv (fun w isW => ?_) u)
    rw [isHolder, Option.some.injEq] at isW
    exact isW ▸ quiet

theorem park_inv (place : s.pc t = .parking) : Inv { s.goto t .blocked with lock := false } none owner := by
  have old := inv.threads t
  rw [place] at old
  exact unlock_inv inv (old.holds.mp rfl) (by rw [place]; rfl) ⟨iff_of_false nofun nofun, old.queued, nofun, nofun, nofun, by simp, nofun⟩
    nofun

theorem leave_inv (place : s.pc t = .leaving ∨ s.pc t = .finishing) : Inv { s.goto t .out with lock := false } none owner := by
  have old := inv.threads t
  rcases place with place | place
  · rw [place] at old
    exact unlock_inv inv (old.holds.mp rfl) (by rw [place]; rfl) ⟨iff_of_false nofun nofun, old.queued, nofun, nofun, nofun, by simp, nofun⟩
      nofun
  · rw [place] at old
    exact unlock_inv inv (old.holds.mp rfl) (by rw [place]; rfl) ⟨iff_of_false nofun nofun, old.queued, nofun, nofun, nofun, by simp, nofun⟩
      nofun

omit inv in
theorem give_owns {next : Option T} {value : Bool} (here : value = true ↔ next = some t)
    (others : ∀ u, u ≠ t → (s.owns u = true ↔ next = some u)) (u : T) :
    (s.give t value).owns u = true ↔ next = some u := by
  by_cases same : u = t
  · have given : (s.give t value).owns u = value := by rw [same]; exact Function.update_self _ _ _
    rw [given, same]
    exact here
  · have kept : (s.give t value).owns u = s.owns u := Function.update_of_ne same _ _
    rw [kept]
    exact others u same

theorem try_lock_inv {left : Nat} (place : s.pc t = .trying left) (unlocked : s.state = .unlocked) :
    Inv { (s.goto t .out).give t true with state := .locked } holder (some t) := by
  obtain ⟨nobody, empty, noMeets, noOwning⟩ := unlocked_facts inv unlocked
  have old := inv.threads t
  rw [place] at old
  refine ⟨forall_goto ⟨old.holds, old.queued, nofun, nofun, nofun, by simp, nofun⟩ fun u apart => ?_, inv.lock, ?_, ?_, inv.nodup, ?_,
    nofun, fun u settling => ?_⟩
  · refine local_frame (inv.threads u) Iff.rfl Iff.rfl (fun meets => ?_) (fun owning => ?_) fun _ => empty
    · rw [noMeets u] at meets
      cases meets
    · rw [noOwning u] at owning
      cases owning
  · refine give_owns (s := s.goto t .out) (iff_of_true rfl rfl) fun u apart => ?_
    have owns := inv.owns u
    rw [nobody] at owns
    exact owns.trans (iff_of_false nofun fun same => apart (Option.some.inj same).symm)
  · exact iff_of_false nofun nofun
  · exact fun waiting => absurd empty waiting
  · obtain ⟨_, before⟩ := goto_settling (s := s) .out nofun settling
    have meets := noMeets u
    rw [before] at meets
    cases meets

theorem exchange_inv (place : s.pc t = .exchanging) (taken : s.state ≠ .unlocked) :
    Inv { s.goto t .enqueuing with state := .contested } holder owner := by
  have old := inv.threads t
  rw [place] at old
  have isHolder := old.holds.mp rfl
  refine ⟨forall_goto ⟨old.holds, old.queued, fun _ => rfl, nofun, nofun, by simp, nofun⟩ fun u apart => ?_, inv.lock, inv.owns, ?_,
    inv.nodup, fun _ => rfl, fun _ => .inr ⟨t, isHolder, ?_⟩, fun u settling => ?_⟩
  · have there := inv.threads u
    exact local_frame there Iff.rfl Iff.rfl (fun _ => rfl) there.owning there.storing
  · exact iff_of_false nofun fun nobody => taken (inv.free.mpr nobody)
  · exact congrArg Pc.passing (goto_self .enqueuing)
  · obtain ⟨other, before⟩ := goto_settling (s := s) .enqueuing nofun settling
    exact absurd before (others_quiet inv isHolder other).1

theorem exchange_free_inv (place : s.pc t = .exchanging) (unlocked : s.state = .unlocked) :
    Inv { (s.goto t .storing).give t true with state := .contested } holder (some t) := by
  obtain ⟨nobody, empty, noMeets, noOwning⟩ := unlocked_facts inv unlocked
  have old := inv.threads t
  rw [place] at old
  have isHolder := old.holds.mp rfl
  refine ⟨forall_goto ⟨old.holds, old.queued, fun _ => rfl, fun _ => rfl, fun _ => empty, by simp, nofun⟩ fun u apart => ?_, inv.lock, ?_,
    iff_of_false nofun nofun, inv.nodup, fun _ => rfl, fun _ => .inr ⟨t, isHolder, ?_⟩, fun u settling => ?_⟩
  · refine local_frame (inv.threads u) Iff.rfl Iff.rfl (fun _ => rfl) (fun owning => ?_) fun _ => empty
    rw [noOwning u] at owning
    cases owning
  · refine give_owns (s := s.goto t .storing) (iff_of_true rfl rfl) fun u apart => ?_
    have owns := inv.owns u
    rw [nobody] at owns
    exact owns.trans (iff_of_false nofun fun same => apart (Option.some.inj same).symm)
  · exact congrArg Pc.passing (goto_self (s := s) .storing)
  · obtain ⟨other, before⟩ := goto_settling (s := s) .storing nofun settling
    exact absurd before (others_quiet inv isHolder other).1

theorem enqueue_inv (place : s.pc t = .enqueuing) : Inv { s.goto t .parking with waitQueue := s.waitQueue ++ [t] } holder owner := by
  have old := inv.threads t
  rw [place] at old
  have isHolder := old.holds.mp rfl
  have contested := old.meets rfl
  have absent : t ∉ s.waitQueue := fun member => by cases old.queued.mp member
  refine ⟨forall_goto ⟨old.holds, iff_of_true (by simp) rfl, nofun, nofun, nofun, by simp, nofun⟩ fun u apart => ?_, inv.lock, inv.owns,
    inv.free, ?_, fun _ => contested, fun _ => .inl (by simp), fun u settling => ?_⟩
  · have there := inv.threads u
    refine local_frame there Iff.rfl (by simp [apart]) there.meets there.owning fun storing => ?_
    exact absurd storing (others_quiet inv isHolder apart).2
  · exact List.nodup_append.mpr ⟨inv.nodup, List.nodup_singleton t, fun a member b last => by
      rw [List.mem_singleton] at last
      rintro rfl
      exact absent (last ▸ member)⟩
  · obtain ⟨other, before⟩ := goto_settling (s := s) .parking nofun settling
    exact absurd before (others_quiet inv isHolder other).1

theorem store_inv (place : s.pc t = .storing) : Inv { s.goto t .leaving with state := .locked } holder owner := by
  have old := inv.threads t
  rw [place] at old
  have isHolder := old.holds.mp rfl
  have isOwner := old.owning rfl
  refine ⟨forall_goto ⟨old.holds, old.queued, nofun, fun _ => isOwner, nofun, by simp, nofun⟩ fun u apart => ?_, inv.lock, inv.owns, ?_,
    inv.nodup, fun waiting => absurd (old.storing rfl) waiting, nofun, fun u settling => ?_⟩
  · have there := inv.threads u
    exact local_frame there Iff.rfl Iff.rfl (fun meets => absurd (meets_here inv isHolder isOwner meets) apart) there.owning there.storing
  · exact iff_of_false nofun fun nobody => by rw [nobody] at isOwner; cases isOwner
  · obtain ⟨other, before⟩ := goto_settling (s := s) .leaving nofun settling
    exact absurd before (others_quiet inv isHolder other).1

theorem cas_unlock_inv (place : s.pc t = .releasing) (isLocked : s.state = .locked) :
    Inv { (s.goto t .out).give t false with state := .unlocked } holder none := by
  have old := inv.threads t
  rw [place] at old
  have isOwner := old.owning rfl
  have noMeets : ∀ u, (s.pc u).meets ≠ true := by
    intro u meets
    rw [(inv.threads u).meets meets] at isLocked
    cases isLocked
  have noWaiting : s.waitQueue = [] := by
    by_contra waiting
    rw [inv.contested waiting] at isLocked
    cases isLocked
  refine ⟨forall_goto ⟨old.holds, old.queued, nofun, nofun, nofun, by simp, nofun⟩ fun u apart => ?_, inv.lock, ?_,
    iff_of_true rfl rfl, inv.nodup, fun waiting => absurd noWaiting waiting, nofun, fun u settling => ?_⟩
  · refine local_frame (inv.threads u) Iff.rfl Iff.rfl (fun meets => absurd meets (noMeets u)) (fun owning => ?_) fun _ => noWaiting
    have isU := owner_here inv owning
    rw [isOwner, Option.some.injEq] at isU
    exact absurd isU.symm apart
  · refine give_owns (s := s.goto t .out) (iff_of_false nofun nofun) fun u apart => ?_
    have owns := inv.owns u
    rw [isOwner] at owns
    exact owns.trans (iff_of_false (fun same => apart (Option.some.inj same).symm) nofun)
  · obtain ⟨_, before⟩ := goto_settling (s := s) .out nofun settling
    exact absurd (by rw [before]; rfl) (noMeets u)

-- The mutex goes over to the first thread in the queue.
theorem pop_inv {seen : MutexState} {thread : T} {rest : List T} (place : s.pc t = .popping seen) (queue : s.waitQueue = thread :: rest) :
    Inv { (((s.goto t .settling).give t false).goto thread .waking).give thread true with waitQueue := rest } holder (some thread) := by
  have old := inv.threads t
  rw [place] at old
  have isHolder := old.holds.mp rfl
  have isOwner := old.owning rfl
  have contested := old.meets rfl
  have waits := (inv.threads thread).queued.mp (by rw [queue]; exact List.mem_cons_self)
  have apart : thread ≠ t := fun same => by rw [same, place] at waits; cases waits
  have nodup := inv.nodup
  rw [queue, List.nodup_cons] at nodup
  have member : ∀ u, u ≠ thread → (u ∈ rest ↔ u ∈ s.waitQueue) := by
    intro u other
    rw [queue, List.mem_cons]
    exact ⟨.inr, fun here => here.resolve_left other⟩
  have settled : (((s.goto t .settling).give t false).goto thread .waking).pc t = .settling :=
    (goto_other (s := (s.goto t .settling).give t false) apart.symm .waking).trans (goto_self .settling)
  refine ⟨forall_goto (s := (s.goto t .settling).give t false) ?_ (fun u otherThread => ?_), inv.lock, ?_, ?_, nodup.2, fun _ => contested,
    fun _ => .inr ⟨t, isHolder, ?_⟩, fun u _ => ⟨thread, rfl, ?_⟩⟩
  · refine ⟨iff_of_false nofun fun same => ?_, iff_of_false nodup.1 nofun, nofun, fun _ => rfl, nofun, by simp, nofun⟩
    rw [isHolder, Option.some.injEq] at same
    exact apart same.symm
  · refine forall_goto (s := s) (P := fun u pc => u ≠ thread → Local s.state rest holder (some thread) u pc) (fun _ => ?_)
      (fun u otherT otherThread => ?_) u otherThread
    · exact ⟨iff_of_true rfl isHolder, iff_of_false (fun here => by cases old.queued.mp ((member t apart.symm).mp here)) nofun,
        fun _ => contested, nofun, nofun, by simp, nofun⟩
    · have there := inv.threads u
      refine local_frame there Iff.rfl (member u otherThread) there.meets (fun owning => ?_) fun storing => ?_
      · have isU := there.owning owning
        rw [isOwner, Option.some.injEq] at isU
        exact absurd isU.symm otherT
      · exact absurd storing (others_quiet inv isHolder otherT).2
  · refine give_owns (iff_of_true rfl rfl) fun u other => ?_
    have nobody : ((s.goto t .settling).give t false).owns u = true ↔ none = some u := by
      refine @give_owns T _ (s.goto t .settling) t none false (iff_of_false nofun nofun) (fun u otherT => ?_) u
      have owns := inv.owns u
      rw [isOwner] at owns
      exact owns.trans (iff_of_false (fun same => otherT (Option.some.inj same).symm) nofun)
    exact nobody.trans (iff_of_false nofun fun same => other (Option.some.inj same).symm)
  · refine iff_of_false (fun unlocked => ?_) nofun
    cases contested.symm.trans unlocked
  · exact congrArg Pc.passing settled
  · exact goto_self (s := (s.goto t .settling).give t false) .waking

theorem settle_inv (place : s.pc t = .settling) :
    Inv { s.goto t .finishing with state := if s.waitQueue = [] then .locked else s.state } holder owner := by
  have old := inv.threads t
  rw [place] at old
  have isHolder := old.holds.mp rfl
  have contested := old.meets rfl
  obtain ⟨w, isOwner, waking⟩ := inv.handed t place
  have noMeets : ∀ u, u ≠ t → (s.pc u).meets ≠ true := by
    intro u apart meets
    rcases meets_cases meets with holds | owning
    · have isU := holder_here inv holds
      rw [isHolder, Option.some.injEq] at isU
      exact apart isU.symm
    · have isU := owner_here inv owning
      rw [isOwner, Option.some.injEq] at isU
      rw [← isU, waking] at meets
      cases meets
  refine ⟨forall_goto ⟨old.holds, old.queued, nofun, nofun, nofun, by simp, nofun⟩ fun u apart => ?_, inv.lock, inv.owns, ?_, inv.nodup,
    fun waiting => ?_, fun still => .inl fun empty => ?_, fun u settling => ?_⟩
  · have there := inv.threads u
    exact local_frame there Iff.rfl Iff.rfl (fun meets => absurd meets (noMeets u apart)) there.owning there.storing
  · refine iff_of_false (fun unlocked => ?_) fun nobody => by rw [nobody] at isOwner; cases isOwner
    dsimp only at unlocked
    split_ifs at unlocked
    rw [contested] at unlocked
    cases unlocked
  · exact (if_neg (show s.waitQueue ≠ [] from waiting)).trans contested
  · cases (if_pos (show s.waitQueue = [] from empty)).symm.trans still
  · obtain ⟨other, before⟩ := goto_settling (s := s) .finishing nofun settling
    exact absurd before (others_quiet inv isHolder other).1

theorem step_at_inv {move : Move} {s' : State T} (taken : stepAt s t (s.pc t) move = some s') : ∃ holder' owner', Inv s' holder' owner' := by
  cases place : s.pc t with
  | out =>
      rw [place] at taken
      cases move with
      | acquire =>
          obtain rfl := Option.some.inj taken
          exact ⟨_, _, acquire_inv inv place⟩
      | release =>
          rw [stepAt] at taken
          by_cases isOwner : s.owns t = true
          · rw [if_pos isOwner] at taken
            obtain rfl := Option.some.inj taken
            exact ⟨_, _, release_inv inv place isOwner⟩
          · rw [if_neg isOwner] at taken
            cases taken
      | run => cases taken
  | trying left =>
      rw [place] at taken
      cases move with
      | run spurious =>
          rw [stepAt] at taken
          by_cases free : s.state = .unlocked ∧ spurious = false
          · rw [if_pos free] at taken
            obtain rfl := Option.some.inj taken
            exact ⟨_, _, try_lock_inv inv place free.1⟩
          · rw [if_neg free] at taken
            obtain rfl := Option.some.inj taken
            exact ⟨_, _, try_again_inv inv place⟩
      | _ => cases taken
  | slow =>
      rw [place] at taken
      cases move with
      | run =>
          obtain ⟨free, rfl⟩ := lock_taken taken
          exact ⟨_, _, slow_inv inv place free⟩
      | _ => cases taken
  | exchanging =>
      rw [place] at taken
      cases move with
      | run =>
          rw [stepAt] at taken
          by_cases busy : s.state ≠ .unlocked
          · rw [if_pos busy] at taken
            obtain rfl := Option.some.inj taken
            exact ⟨_, _, exchange_inv inv place busy⟩
          · rw [if_neg busy] at taken
            obtain rfl := Option.some.inj taken
            exact ⟨_, _, exchange_free_inv inv place (Classical.not_not.mp busy)⟩
      | _ => cases taken
  | enqueuing =>
      rw [place] at taken
      cases move with
      | run =>
          obtain rfl := Option.some.inj taken
          exact ⟨_, _, enqueue_inv inv place⟩
      | _ => cases taken
  | parking =>
      rw [place] at taken
      cases move with
      | run =>
          obtain rfl := Option.some.inj taken
          exact ⟨_, _, park_inv inv place⟩
      | _ => cases taken
  | blocked =>
      rw [place] at taken
      cases move <;> cases taken
  | waking =>
      rw [place] at taken
      cases move with
      | run =>
          obtain ⟨free, rfl⟩ := lock_taken taken
          exact ⟨_, _, wake_inv inv place free⟩
      | _ => cases taken
  | storing =>
      rw [place] at taken
      cases move with
      | run =>
          obtain rfl := Option.some.inj taken
          exact ⟨_, _, store_inv inv place⟩
      | _ => cases taken
  | leaving =>
      rw [place] at taken
      cases move with
      | run =>
          obtain rfl := Option.some.inj taken
          exact ⟨_, _, leave_inv inv (.inl place)⟩
      | _ => cases taken
  | releasing =>
      rw [place] at taken
      cases move with
      | run =>
          rw [stepAt] at taken
          by_cases isLocked : s.state = .locked
          · rw [if_pos isLocked] at taken
            obtain rfl := Option.some.inj taken
            exact ⟨_, _, cas_unlock_inv inv place isLocked⟩
          · rw [if_neg isLocked] at taken
            obtain rfl := Option.some.inj taken
            exact ⟨_, _, refused_inv inv place isLocked⟩
      | _ => cases taken
  | refused seen =>
      rw [place] at taken
      cases move with
      | run =>
          obtain ⟨free, rfl⟩ := lock_taken taken
          exact ⟨_, _, refused_lock_inv inv place free⟩
      | _ => cases taken
  | popping seen =>
      rw [place] at taken
      cases move with
      | run =>
          have contested := (inv.threads t).seen seen (.inr place)
          rw [stepAt, if_pos contested] at taken
          cases queue : s.waitQueue with
          | nil => exact absurd queue (popping_queue inv place)
          | cons thread rest =>
              rw [queue] at taken
              obtain rfl := Option.some.inj taken
              exact ⟨_, _, pop_inv inv place queue⟩
      | _ => cases taken
  | settling =>
      rw [place] at taken
      cases move with
      | run =>
          obtain rfl := Option.some.inj taken
          exact ⟨_, _, settle_inv inv place⟩
      | _ => cases taken
  | finishing =>
      rw [place] at taken
      cases move with
      | run =>
          obtain rfl := Option.some.inj taken
          exact ⟨_, _, leave_inv inv (.inr place)⟩
      | _ => cases taken
  | failed =>
      rw [place] at taken
      cases move <;> cases taken

end Step

-- In every run: one owner at most, the state says who waits and whether anybody
-- owns the mutex, nobody waits in vain, and no assertion fails.
theorem mutex_hand_off {T : Type} [DecidableEq T] (s : State T) (reach : Reachable initial step s) :
    (∀ t u, s.owns t = true → s.owns u = true → t = u) ∧
      (s.lock = false → (s.state = .unlocked ↔ ∀ t, s.owns t = false) ∧ (s.state = .contested ↔ s.waitQueue ≠ [])) ∧
      (∀ t, s.pc t = .parking ∨ s.pc t = .blocked ∨ s.pc t = .waking → t ∈ s.waitQueue ∨ s.owns t = true) ∧
      ∀ t, s.pc t ≠ .failed := by
  have start : ∀ s : State T, initial s → ∃ holder owner, Inv s holder owner := fun _ isInitial => ⟨none, none, initial_inv isInitial⟩
  obtain ⟨holder, owner, inv⟩ := reachable_invariant start
    (fun action before after ⟨_, _, inv⟩ taken => step_at_inv inv taken) reach
  refine ⟨fun t u first second => ?_, fun unlocked => ⟨?_, fun contested => ?_, inv.contested⟩, fun t place => ?_,
    fun t => (inv.threads t).passed⟩
  · have same := ((inv.owns t).mp first).symm.trans ((inv.owns u).mp second)
    exact Option.some.inj same
  · rw [inv.free]
    refine ⟨fun nobody t => ?_, fun none => ?_⟩
    · rw [Bool.eq_false_iff, Ne, inv.owns t, nobody]
      nofun
    · cases owner with
      | none => rfl
      | some t => exact absurd ((inv.owns t).mpr rfl) (by rw [none t]; nofun)
  · have lock := inv.lock
    rw [unlocked] at lock
    rcases inv.reason contested with waiting | ⟨t, isHolder, _⟩
    · exact waiting
    · rw [isHolder] at lock
      cases lock
  · rcases place with place | place | place
    · exact .inl ((inv.threads t).queued.mpr (by rw [place]; rfl))
    · exact .inl ((inv.threads t).queued.mpr (by rw [place]; rfl))
    · exact .inr ((inv.owns t).mpr ((inv.threads t).owning (by rw [place]; rfl)))

def idleState : State Bool where
  lock := false
  state := .unlocked
  waitQueue := []
  pc := fun _ => .out
  owns := fun _ => false

-- One thread gives up spinning and waits until the other releases the mutex.
def waitingSchedule : List (Bool × Move) :=
  [(false, .acquire), (false, .run false), (true, .acquire)] ++ List.replicate 15 (true, .run false) ++
    [(false, .release)] ++ List.replicate 5 (false, .run false) ++ List.replicate 2 (true, .run false)

theorem mutex_hand_off_waiting : ∃ s, execute step waitingSchedule idleState = some s ∧ s.owns true = true ∧
    ∀ t, s.pc t ≠ .failed := by
  obtain ⟨s, run, owns⟩ : ∃ s, execute step waitingSchedule idleState = some s ∧ s.owns true = true := ⟨_, rfl, rfl⟩
  have reach : Reachable initial step s :=
    reachable_execute (.start idleState ⟨rfl, rfl, rfl, fun _ => rfl, fun _ => rfl⟩) run
  exact ⟨s, run, owns, (mutex_hand_off s reach).2.2.2⟩

end Elysium.Mutex
