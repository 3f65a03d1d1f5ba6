import Mathlib.Data.List.Sort
import Elysium.Machine
import Elysium.Transitions

set_option autoImplicit false

namespace Elysium.Events

open Transitions (Reachable reachable_invariant execute reachable_execute)

-- event_t at its address. The deferred work items are numbered in the order dw_create makes
-- them.
structure Event where
  address : Nat
  deadline : Nat
  dwItem : Nat
deriving DecidableEq, Repr

-- The events of a tree in order of their deadlines. rb_insert goes right at equal values, and
-- a search for the nearest to 0 always goes left.
def rbInsert (event : Event) : List Event → List Event
  | [] => [event]
  | first :: rest => if event.deadline < first.deadline then event :: first :: rest else first :: rbInsert event rest

def rbRemove (address : Nat) (tree : List Event) : List Event := tree.eraseP fun event => event.address == address

def rbSearchFirst (tree : List Event) : Option Event := tree.head?

def nanosecondsInSecond : Nat := 1000000000

def uint32Max : Nat := 4294967295

-- The count arch_event_timer_arm starts the timer with.
def timerTicks (frequency delay : Nat) : Nat :=
  max (min (frequency * delay % 18446744073709551616 / nanosecondsInSecond) uint32Max) 1

structure Arming where
  time : Nat
  ticks : Nat
deriving DecidableEq, Repr

-- What a CPU knows of its events. queued are the work items in the order they were handed to
-- dw_queue, armed is how the timer was last started, and clock the time that was last read.
structure State where
  clock : Nat
  events : List Event
  freeEvents : List Event
  queued : List Nat
  items : Nat
  armed : Option Arming
deriving DecidableEq, Repr

-- The times a call reads are given with it. fresh is the address slab_allocate answers with,
-- and hard says whether the CPU is in a hard interrupt.
inductive Call where
  | queue (now delay fresh : Nat)
  | process (hard : Bool) (reads : List Nat)
  | cancel (address now : Nat)

def arm (frequency now delay : Nat) : Option Arming := some ⟨now, timerTicks frequency delay⟩

-- The event to use: one of those waiting to be freed, the others of which are freed here, or a
-- new one.
def takeEvent (s : State) (fresh : Nat) : Option Nat :=
  match rbSearchFirst s.freeEvents with
  | some event => some event.address
  | none => if s.events.any fun event => event.address == fresh then none else some fresh

def eventQueue (frequency : Nat) (now delay address : Nat) (s : State) : State :=
  let event : Event := ⟨address, add64 now delay, s.items⟩
  { s with
    clock := now
    events := rbInsert event s.events
    freeEvents := []
    items := s.items + 1
    armed :=
      match rbSearchFirst s.events with
      | none => arm frequency now (sub64 event.deadline now)
      | some first => if event.deadline < first.deadline then arm frequency now (sub64 event.deadline now) else s.armed }

-- events_process, with one reading of the clock for each event it looks at.
def processLoop (frequency : Nat) (hard : Bool) : List Event → List Nat → State → Option State
  | [], [], s => some { s with events := [] }
  | [], _ :: _, _ => none
  | _ :: _, [], _ => none
  | event :: rest, now :: later, s =>
    if now < event.deadline then
      if later = [] then
        some { s with clock := now, events := event :: rest, armed := arm frequency now (sub64 event.deadline now) }
      else none
    else
      processLoop frequency hard rest later
        { s with
          clock := now
          queued := s.queued ++ [event.dwItem]
          freeEvents := if hard then rbInsert event s.freeEvents else s.freeEvents }

def eventCancel (frequency : Nat) (address now : Nat) (s : State) : State :=
  match rbSearchFirst (rbRemove address s.events) with
  | none => { s with events := rbRemove address s.events }
  | some first =>
    { s with clock := now, events := rbRemove address s.events, armed := arm frequency now (sub64 first.deadline now) }

-- Readings of a clock that does not go back.
def Monotone (clock : Nat) (reads : List Nat) : Prop :=
  (clock :: reads).Pairwise (· ≤ ·) ∧ ∀ now ∈ reads, now < 18446744073709551616

instance (clock : Nat) (reads : List Nat) : Decidable (Monotone clock reads) := inferInstanceAs (Decidable (_ ∧ _))

-- A delay of 0 fails an assertion, and only an event that is queued may be cancelled.
def step (frequency : Nat) : Call → State → Option State
  | .queue now delay fresh, s =>
    if Monotone s.clock [now] ∧ 0 < delay ∧ delay < 18446744073709551616 then
      (takeEvent s fresh).map fun address => eventQueue frequency now delay address s
    else none
  | .process hard reads, s => if Monotone s.clock reads then processLoop frequency hard s.events reads s else none
  | .cancel address now, s =>
    if Monotone s.clock [now] ∧ s.events.any fun event => event.address == address then
      some (eventCancel frequency address now s)
    else none

def Starts (s : State) : Prop := s.events = [] ∧ s.freeEvents = [] ∧ s.queued = [] ∧ s.items = 0 ∧ s.armed = none

instance (s : State) : Decidable (Starts s) := inferInstanceAs (Decidable (_ ∧ _))

section Tree

def Ordered (tree : List Event) : Prop := tree.Pairwise fun a b => a.deadline ≤ b.deadline

theorem insert_perm (event : Event) (tree : List Event) : (rbInsert event tree).Perm (event :: tree) := by
  induction tree with
  | nil => exact .refl _
  | cons first rest ih =>
      rw [rbInsert]
      split
      · exact .refl _
      · exact (ih.cons first).trans (.swap event first rest)

theorem insert_ordered {event : Event} {tree : List Event} (ordered : Ordered tree) : Ordered (rbInsert event tree) := by
  induction tree with
  | nil => exact List.pairwise_singleton _ _
  | cons first rest ih =>
      obtain ⟨least, after⟩ := List.pairwise_cons.mp ordered
      rw [rbInsert]
      split
      · rename_i earlier
        refine List.pairwise_cons.mpr ⟨fun other member => ?_, ordered⟩
        cases List.mem_cons.mp member with
        | inl same => exact same ▸ Nat.le_of_lt earlier
        | inr later => exact Nat.le_trans (Nat.le_of_lt earlier) (least other later)
      · rename_i notEarlier
        refine List.pairwise_cons.mpr ⟨fun other member => ?_, ih after⟩
        cases List.mem_cons.mp ((insert_perm event rest).mem_iff.mp member) with
        | inl same => exact same ▸ Nat.le_of_not_lt notEarlier
        | inr later => exact least other later

-- The new event comes first exactly if it is due before all others.
theorem insert_first {event first : Event} {tree : List Event} (head : tree.head? = some first) :
    (rbInsert event tree).head? = some (if event.deadline < first.deadline then event else first) := by
  obtain ⟨rest, rfl⟩ := List.head?_eq_some_iff.mp head
  rw [rbInsert]
  split <;> rfl

theorem first_least {tree : List Event} (ordered : Ordered tree) {first : Event} (head : tree.head? = some first)
    {event : Event} (member : event ∈ tree) : first.deadline ≤ event.deadline := by
  obtain ⟨rest, rfl⟩ := List.head?_eq_some_iff.mp head
  cases List.mem_cons.mp member with
  | inl same => exact same ▸ Nat.le_refl _
  | inr later => exact (List.pairwise_cons.mp ordered).1 event later

end Tree

section Timer

-- The timer, started at a time with a count of ticks, expires no later than a deadline, or no
-- later than one tick after it was started. Nanoseconds are multiplied by the frequency, so
-- that the length of a tick is not rounded.
def Expires (frequency : Nat) (arming : Arming) (deadline : Nat) : Prop :=
  frequency * arming.time + arming.ticks * nanosecondsInSecond ≤
    max (frequency * deadline) (frequency * arming.time + nanosecondsInSecond)

instance (frequency : Nat) (arming : Arming) (deadline : Nat) : Decidable (Expires frequency arming deadline) :=
  inferInstanceAs (Decidable (_ ≤ _))

def Armed (frequency : Nat) (s : State) : Prop :=
  ∀ first, rbSearchFirst s.events = some first → ∃ arming, s.armed = some arming ∧ Expires frequency arming first.deadline

-- Neither the clamp nor a product that wraps can make the timer late.
theorem ticks_expire (frequency now : Nat) {deadline : Nat} (ahead : now ≤ deadline) :
    Expires frequency ⟨now, timerTicks frequency (deadline - now)⟩ deadline := by
  rw [Expires, timerTicks]
  dsimp only
  have product : frequency * now + frequency * (deadline - now) = frequency * deadline := by
    rw [← Nat.mul_add, Nat.add_sub_cancel' ahead]
  have wraps := Nat.mod_le (frequency * (deadline - now)) 18446744073709551616
  have divides := Nat.div_mul_le_self (frequency * (deadline - now) % 18446744073709551616) nanosecondsInSecond
  generalize frequency * (deadline - now) % 18446744073709551616 / nanosecondsInSecond = quotient at *
  by_cases one : min quotient uint32Max ≤ 1
  · rw [max_eq_right one, Nat.one_mul]
    exact le_max_right _ _
  · rw [max_eq_left (by omega)]
    refine le_trans ?_ (le_max_left _ _)
    have least : min quotient uint32Max * nanosecondsInSecond ≤ quotient * nanosecondsInSecond :=
      Nat.mul_le_mul_right _ (min_le_left _ _)
    omega

end Timer

section Runs

variable {frequency : Nat}

-- What a call must not run into: a deadline past the end of time_t, and a first event that is
-- already overdue when another one is cancelled.
def timely : Call → State → Bool
  | .queue now delay _, _ => now + delay < 18446744073709551616
  | .process _ _, _ => true
  | .cancel address now, s => (rbSearchFirst (rbRemove address s.events)).all fun first => now ≤ first.deadline

def timelyStep (frequency : Nat) (call : Call) (s : State) : Option State :=
  if timely call s then step frequency call s else none

-- Every event has a work item of its own, that was not handed over yet.
structure Sound (s : State) : Prop where
  ordered : Ordered s.events
  items : (s.events.map (·.dwItem) ++ s.queued).Nodup
  made : ∀ item ∈ s.events.map (·.dwItem) ++ s.queued, item < s.items
  bounded : ∀ event ∈ s.events, event.deadline < 18446744073709551616

theorem queue_sound {s : State} (sound : Sound s) (now delay address : Nat) :
    Sound (eventQueue frequency now delay address s) := by
  have perm := insert_perm ⟨address, add64 now delay, s.items⟩ s.events
  refine ⟨insert_ordered sound.ordered, ?_, ?_, ?_⟩
  · have fresh : s.items ∉ s.events.map (·.dwItem) ++ s.queued := fun member => Nat.lt_irrefl _ (sound.made _ member)
    exact ((perm.map (·.dwItem)).append_right s.queued).nodup_iff.mpr (List.nodup_cons.mpr ⟨fresh, sound.items⟩)
  · intro item member
    cases List.mem_cons.mp (((perm.map (·.dwItem)).append_right s.queued).mem_iff.mp member) with
    | inl same => exact same ▸ Nat.lt_succ_self _
    | inr before => exact Nat.lt_succ_of_lt (sound.made item before)
  · intro event member
    cases List.mem_cons.mp (perm.mem_iff.mp member) with
    | inl same => exact same ▸ Nat.mod_lt _ (by decide)
    | inr before => exact sound.bounded event before

theorem cancel_sound {s : State} (sound : Sound s) (address now : Nat) :
    Sound (eventCancel frequency address now s) := by
  have fewer : (rbRemove address s.events).Sublist s.events := List.eraseP_sublist
  have fewerItems := (fewer.map (·.dwItem)).append_right s.queued
  have kept : Ordered (rbRemove address s.events) ∧ ((rbRemove address s.events).map (·.dwItem) ++ s.queued).Nodup ∧
      (∀ item ∈ (rbRemove address s.events).map (·.dwItem) ++ s.queued, item < s.items) ∧
      ∀ event ∈ rbRemove address s.events, event.deadline < 18446744073709551616 :=
    ⟨sound.ordered.sublist fewer, sound.items.sublist fewerItems, fun item member => sound.made item (fewerItems.subset member),
      fun event member => sound.bounded event (fewer.subset member)⟩
  rw [eventCancel]
  split
  · exact ⟨kept.1, kept.2.1, kept.2.2.1, kept.2.2.2⟩
  · exact ⟨kept.1, kept.2.1, kept.2.2.1, kept.2.2.2⟩

-- The loop hands over the events it takes off the front, in their order; the clock was read
-- for each of them at or after its deadline, and the event it stops at is not due.
theorem process_spec {hard : Bool} {events : List Event} {reads : List Nat} {s s' : State}
    (done : processLoop frequency hard events reads s = some s') :
    ∃ taken left, events = taken ++ left ∧ s'.events = left ∧ s'.queued = s.queued ++ taken.map (·.dwItem) ∧
      s'.items = s.items ∧ (left = [] ∧ s'.armed = s.armed ∨ ∃ now first rest, left = first :: rest ∧ now < first.deadline ∧
        reads.getLast? = some now ∧ s'.armed = arm frequency now (sub64 first.deadline now)) := by
  induction events generalizing reads s with
  | nil =>
      cases reads with
      | nil =>
          obtain rfl := Option.some.inj done
          exact ⟨[], [], rfl, rfl, (List.append_nil _).symm, rfl, .inl ⟨rfl, rfl⟩⟩
      | cons now later => cases done
  | cons event rest ih =>
      cases reads with
      | nil => cases done
      | cons now later =>
          rw [processLoop] at done
          split at done
          · rename_i ahead
            split at done
            · rename_i last
              obtain rfl := Option.some.inj done
              refine ⟨[], event :: rest, rfl, rfl, (List.append_nil _).symm, rfl, .inr ⟨now, event, rest, rfl, ahead, ?_, rfl⟩⟩
              rw [last]
              rfl
            · cases done
          · obtain ⟨taken, left, split_, events', queued', items', ending⟩ := ih done
            refine ⟨event :: taken, left, by rw [split_, List.cons_append], events', ?_, items', ?_⟩
            · rw [queued', List.append_assoc]
              rfl
            · obtain empty | ⟨now', first, rest', at_, ahead, read, armed'⟩ := ending
              · exact .inl empty
              · refine .inr ⟨now', first, rest', at_, ahead, ?_, armed'⟩
                rw [List.getLast?_cons, read, Option.getD_some]

theorem process_sound {hard : Bool} {reads : List Nat} {s s' : State} (sound : Sound s)
    (done : processLoop frequency hard s.events reads s = some s') : Sound s' := by
  obtain ⟨taken, left, split_, events', queued', items', _⟩ := process_spec done
  have moved : (s'.events.map (·.dwItem) ++ s'.queued).Perm (s.events.map (·.dwItem) ++ s.queued) := by
    rw [events', queued', split_, List.map_append]
    have swapped : (s.queued ++ taken.map (·.dwItem)).Perm (taken.map (·.dwItem) ++ s.queued) := List.perm_append_comm
    refine (swapped.append_left (left.map (·.dwItem))).trans ?_
    rw [← List.append_assoc]
    exact List.perm_append_comm.append_right s.queued
  have later : left.Sublist s.events := split_ ▸ List.sublist_append_right taken left
  refine ⟨events' ▸ sound.ordered.sublist later, moved.nodup_iff.mpr sound.items, ?_, ?_⟩
  · intro item member
    rw [items']
    exact sound.made item (moved.mem_iff.mp member)
  · intro event member
    rw [events'] at member
    exact sound.bounded event (later.subset member)

theorem step_sound {call : Call} {s s' : State} (sound : Sound s) (taken : step frequency call s = some s') : Sound s' := by
  cases call with
  | queue now delay fresh =>
      rw [step] at taken
      split at taken
      · obtain ⟨address, _, rfl⟩ := Option.map_eq_some_iff.mp taken
        exact queue_sound sound now delay address
      · cases taken
  | process hard reads =>
      rw [step] at taken
      split at taken
      · exact process_sound sound taken
      · cases taken
  | cancel address now =>
      rw [step] at taken
      split at taken
      · obtain rfl := Option.some.inj taken
        exact cancel_sound sound address now
      · cases taken

theorem arm_expires {now deadline : Nat} (ahead : now ≤ deadline) (bounded : deadline < 18446744073709551616) :
    ∃ arming, arm frequency now (sub64 deadline now) = some arming ∧ Expires frequency arming deadline := by
  refine ⟨_, rfl, ?_⟩
  rw [sub64_eq ahead bounded]
  exact ticks_expire frequency now ahead

theorem queue_armed {s : State} {now delay address : Nat} (armed : Armed frequency s)
    (fits : now + delay < 18446744073709551616) : Armed frequency (eventQueue frequency now delay address s) := by
  have deadline : add64 now delay = now + delay := add64_eq fits
  have started : ∃ arming, arm frequency now (sub64 (add64 now delay) now) = some arming ∧
      Expires frequency arming (add64 now delay) := by
    rw [deadline]
    exact arm_expires (Nat.le_add_right _ _) fits
  intro first head
  change (rbInsert _ s.events).head? = some first at head
  rw [eventQueue]
  dsimp only
  cases before : s.events.head? with
  | none =>
      rw [rbSearchFirst, before]
      rw [List.head?_eq_none_iff.mp before, rbInsert, List.head?_cons, Option.some.injEq] at head
      exact head ▸ started
  | some old =>
      rw [rbSearchFirst, before]
      rw [insert_first before, Option.some.injEq] at head
      dsimp only at head ⊢
      split at head
      · rename_i earlier
        rw [if_pos earlier]
        exact head ▸ started
      · rename_i notEarlier
        rw [if_neg notEarlier]
        exact head ▸ armed old before

theorem cancel_armed {s : State} (sound : Sound s) {address now : Nat}
    (ahead : ∀ first, rbSearchFirst (rbRemove address s.events) = some first → now ≤ first.deadline) :
    Armed frequency (eventCancel frequency address now s) := by
  intro first head
  cases left : rbSearchFirst (rbRemove address s.events) with
  | none =>
      rw [eventCancel, left] at head
      exact absurd (left.symm.trans head) (by simp)
  | some least =>
      rw [eventCancel, left] at head ⊢
      obtain rfl : least = first := Option.some.inj (left.symm.trans head)
      have member : least ∈ s.events := (List.eraseP_sublist).subset (List.mem_of_head? left)
      exact arm_expires (ahead least left) (sound.bounded least member)

theorem process_armed {hard : Bool} {reads : List Nat} {s s' : State} (sound : Sound s)
    (done : processLoop frequency hard s.events reads s = some s') : Armed frequency s' := by
  obtain ⟨taken, left, split_, events', _, _, ending⟩ := process_spec done
  intro first head
  rw [rbSearchFirst, events'] at head
  obtain ⟨empty, _⟩ | ⟨now, least, rest, at_, ahead, _, armed'⟩ := ending
  · rw [empty] at head
    cases head
  · rw [at_, List.head?_cons, Option.some.injEq] at head
    subst head
    have member : least ∈ s.events := by
      rw [split_, at_]
      exact List.mem_append_right _ List.mem_cons_self
    rw [armed']
    exact arm_expires (Nat.le_of_lt ahead) (sound.bounded least member)

theorem timely_step_armed {call : Call} {s s' : State} (sound : Sound s) (armed : Armed frequency s)
    (taken : timelyStep frequency call s = some s') : Armed frequency s' := by
  rw [timelyStep] at taken
  split at taken
  · rename_i inTime
    cases call with
    | queue now delay fresh =>
        rw [step] at taken
        split at taken
        · obtain ⟨address, _, rfl⟩ := Option.map_eq_some_iff.mp taken
          exact queue_armed armed (of_decide_eq_true inTime)
        · cases taken
    | process hard reads =>
        rw [step] at taken
        split at taken
        · exact process_armed sound taken
        · cases taken
    | cancel address now =>
        rw [step] at taken
        split at taken
        · obtain rfl := Option.some.inj taken
          refine cancel_armed sound fun first head => ?_
          rw [timely, head, Option.all_some] at inTime
          exact of_decide_eq_true inTime
        · cases taken
  · cases taken

theorem start_sound {s : State} (first : Starts s) : Sound s := by
  obtain ⟨events, _, queued, _, _⟩ := first
  refine ⟨?_, ?_, ?_, ?_⟩
  · rw [events]
    exact .nil
  · rw [events, queued]
    exact .nil
  · rw [events, queued]
    intro item member
    cases member
  · rw [events]
    intro event member
    cases member

theorem reachable_sound {s : State} (reach : Reachable Starts (step frequency) s) : Sound s :=
  reachable_invariant (fun _ => start_sound) (fun _ _ _ sound taken => step_sound sound taken) reach

theorem timely_reachable_armed {s : State} (reach : Reachable Starts (timelyStep frequency) s) :
    Sound s ∧ Armed frequency s := by
  refine @reachable_invariant _ _ _ _ (fun s => Sound s ∧ Armed frequency s) (fun s first => ⟨start_sound first, ?_⟩) ?_ s reach
  · intro event head
    rw [rbSearchFirst, first.1] at head
    cases head
  · intro call s s' ⟨sound, armed⟩ taken
    refine ⟨?_, timely_step_armed sound armed taken⟩
    rw [timelyStep] at taken
    split at taken
    · exact step_sound sound taken
    · cases taken

theorem first_read_least {clock now last : Nat} {later : List Nat} (monotone : Monotone clock (now :: later))
    (read : (now :: later).getLast? = some last) : now ≤ last := by
  have rising := (List.pairwise_cons.mp (List.pairwise_cons.mp monotone.1).2).1
  cases List.mem_cons.mp (List.mem_of_getLast? read) with
  | inl same => exact same ▸ Nat.le_refl _
  | inr member => exact rising last member

theorem process_hands_over {hard : Bool} {now : Nat} {later : List Nat} {s s' : State} (sound : Sound s)
    (taken : step frequency (.process hard (now :: later)) s = some s') {event : Event} (member : event ∈ s.events)
    (due : event.deadline ≤ now) : event ∉ s'.events ∧ s'.queued.count event.dwItem = 1 := by
  rw [step] at taken
  split at taken
  · rename_i monotone
    have sound' := process_sound sound taken
    obtain ⟨front, left, split_, events', queued', _, ending⟩ := process_spec taken
    have off : event ∉ left := by
      obtain ⟨empty, _⟩ | ⟨last, first, rest, at_, ahead, read, _⟩ := ending
      · rw [empty]
        exact List.not_mem_nil
      · intro stays
        have least := first_least (sound.ordered.sublist (split_ ▸ List.sublist_append_right front left))
          (by rw [at_]; rfl) stays
        have before := first_read_least monotone read
        omega
    have front_ : event ∈ front := by
      rw [split_, List.mem_append] at member
      exact member.resolve_right off
    refine ⟨events' ▸ off, List.count_eq_one_of_mem (List.nodup_append.mp sound'.items).2.1 ?_⟩
    rw [queued']
    exact List.mem_append_right _ (List.mem_map_of_mem front_)
  · cases taken

-- The loop comes to an end, whatever the clock shows.
theorem process_returns (hard : Bool) (events : List Event) (clock : Nat → Nat) (s : State) :
    ∃ n s', processLoop frequency hard events ((List.range n).map clock) s = some s' := by
  induction events generalizing clock s with
  | nil => exact ⟨0, _, rfl⟩
  | cons event rest ih =>
      by_cases ahead : clock 0 < event.deadline
      · refine ⟨1, { s with
          clock := clock 0, events := event :: rest, armed := arm frequency (clock 0) (sub64 event.deadline (clock 0)) }, ?_⟩
        change processLoop frequency hard (event :: rest) [clock 0] s = _
        rw [processLoop, if_pos ahead, if_pos rfl]
      · obtain ⟨n, s', done⟩ := ih (fun i => clock (i + 1))
          { s with
            clock := clock 0
            queued := s.queued ++ [event.dwItem]
            freeEvents := if hard then rbInsert event s.freeEvents else s.freeEvents }
        refine ⟨n + 1, s', ?_⟩
        rw [List.range_succ_eq_map, List.map_cons, List.map_map, processLoop, if_neg ahead]
        exact done

theorem timer_in_time (frequency : Nat) :
    (∀ s, Reachable Starts (timelyStep frequency) s → Armed frequency s) ∧
    ∀ s, Reachable Starts (step frequency) s → ∀ hard,
      (∀ now later s', step frequency (.process hard (now :: later)) s = some s' →
        ∀ event ∈ s.events, event.deadline ≤ now → event ∉ s'.events ∧ s'.queued.count event.dwItem = 1) ∧
      ∀ clock : Nat → Nat, (∀ n, Monotone s.clock ((List.range n).map clock)) →
        ∃ n s', step frequency (.process hard ((List.range n).map clock)) s = some s' := by
  refine ⟨fun s reach => (timely_reachable_armed reach).2, fun s reach hard => ⟨?_, ?_⟩⟩
  · intro now later s' taken event member due
    exact process_hands_over (reachable_sound reach) taken member due
  · intro clock monotone
    obtain ⟨n, s', done⟩ := process_returns hard s.events clock s
    refine ⟨n, s', ?_⟩
    rw [step, if_pos (monotone n)]
    exact done

-- A timer of 62.5 MHz; two events are queued for 10 and 50 ns after 100, and the second is
-- cancelled at 130.
def bare : State := ⟨0, [], [], [], 0, none⟩

def twoQueued : State := ⟨100, [⟨1, 110, 0⟩, ⟨2, 150, 1⟩], [], [], 2, some ⟨100, 1⟩⟩

theorem timer_in_time_two :
    Armed 62500000 twoQueued ∧
    ∀ s', step 62500000 (.process true [120, 120]) twoQueued = some s' →
      (⟨1, 110, 0⟩ : Event) ∉ s'.events ∧ s'.queued.count 0 = 1 := by
  have run : ∀ stepper, stepper = timelyStep 62500000 ∨ stepper = step 62500000 →
      execute stepper [.queue 100 10 1, .queue 100 50 2] bare = some twoQueued := by
    rintro stepper (rfl | rfl) <;> decide
  obtain ⟨armed, handed⟩ := timer_in_time 62500000
  refine ⟨armed twoQueued (reachable_execute (.start bare (by decide)) (run _ (.inl rfl))), fun s' taken => ?_⟩
  exact (handed twoQueued (reachable_execute (.start bare (by decide)) (run _ (.inr rfl))) true).1 120 [120] s' taken
    ⟨1, 110, 0⟩ (by decide) (by decide)

theorem overdue_run : execute (step 62500000) [.queue 100 10 1, .queue 100 50 2, .cancel 2 130] bare =
    some ⟨130, [⟨1, 110, 0⟩], [], [], 2, some ⟨130, 4294967295⟩⟩ := by decide

-- The first event is overdue by 20 ns, and the timer is started for over a minute.
theorem overdue_armed_late :
    Reachable Starts (step 62500000) ⟨130, [⟨1, 110, 0⟩], [], [], 2, some ⟨130, 4294967295⟩⟩ ∧
    ¬ Armed 62500000 ⟨130, [⟨1, 110, 0⟩], [], [], 2, some ⟨130, 4294967295⟩⟩ := by
  refine ⟨reachable_execute (.start bare (by decide)) overdue_run, ?_⟩
  intro armed
  obtain ⟨arming, started, expires⟩ := armed ⟨1, 110, 0⟩ rfl
  rw [← Option.some.inj started] at expires
  exact absurd expires (by decide)

end Runs

end Elysium.Events
