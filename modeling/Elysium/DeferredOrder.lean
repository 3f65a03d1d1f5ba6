import Elysium.Events
import Elysium.IntrusiveList
import Mathlib.Data.List.Pairwise

set_option autoImplicit false

namespace Elysium.DeferredOrder

open IntrusiveList
open Transitions (Reachable execute reachable_execute)

section Items

variable {N : Type} [DecidableEq N]

-- dw_items of a CPU. The counters that dw_queue and dw_process raise around it are left to the interrupts.
abbrev DwItems (N : Type) := Header N × Links N

def dwQueue (item : N) (items : DwItems N) : Option (DwItems N) := listPushFront items.1 items.2 item

def dwQueueAll : List N → DwItems N → Option (DwItems N)
  | [], items => some items
  | item :: rest, items => (dwQueue item items).bind (dwQueueAll rest)

-- dw_process with the items whose functions it calls, in this order. The functions queue no others.
def dwProcess : Nat → DwItems N → Option (List N)
  | 0, _ => none
  | fuel + 1, items =>
      if items.1.count = 0 then some []
      else
        match listPopFront items.1 items.2 with
        | (none, _) => none
        | (some item, items) => (dwProcess fuel items).map (item :: ·)

theorem dw_queue_all_spec (fresh : List N) {header : Header N} {links : Links N} {waiting : List N} (form : WellFormed header links waiting)
    (distinct : fresh.Nodup) (apart : ∀ item ∈ fresh, item ∉ waiting) :
    ∃ header' links', dwQueueAll fresh (header, links) = some (header', links') ∧ WellFormed header' links' (fresh.reverse ++ waiting) := by
  induction fresh generalizing header links waiting with
  | nil => exact ⟨header, links, rfl, form⟩
  | cons item rest ih =>
      obtain ⟨unlisted, distinctRest⟩ := List.nodup_cons.mp distinct
      obtain ⟨header₁, links₁, pushed, form₁, _⟩ := push_front_spec form (apart item List.mem_cons_self)
      have apartRest : ∀ other ∈ rest, other ∉ item :: waiting := by
        intro other member listed
        rcases List.mem_cons.mp listed with same | before
        · exact unlisted (same ▸ member)
        · exact apart other (List.mem_cons_of_mem _ member) before
      obtain ⟨header', links', queued, form'⟩ := ih form₁ distinctRest apartRest
      refine ⟨header', links', ?_, by simpa using form'⟩
      rw [dwQueueAll, dwQueue, pushed, Option.bind_some, queued]

theorem dw_process_spec (waiting : List N) {header : Header N} {links : Links N} (form : WellFormed header links waiting) {fuel : Nat}
    (enough : waiting.length < fuel) : dwProcess fuel (header, links) = some waiting := by
  induction waiting generalizing header links fuel with
  | nil =>
      obtain ⟨fuel, rfl⟩ := Nat.exists_eq_succ_of_ne_zero (Nat.ne_of_gt enough)
      exact if_pos form.count
  | cons item rest ih =>
      obtain ⟨fuel, rfl⟩ := Nat.exists_eq_succ_of_ne_zero (Nat.ne_of_gt (Nat.lt_of_le_of_lt (Nat.zero_le _) enough))
      obtain ⟨header', links', popped, form', _⟩ := pop_front_spec form
      have filled : header.count ≠ 0 := by simp [form.count]
      rw [dwProcess, if_neg filled, popped]
      dsimp only
      rw [ih form' (Nat.lt_of_succ_lt_succ enough), Option.map_some]

-- What is queued last is executed first.
theorem dw_executed {items : List N} (distinct : items.Nodup) (links : Links N) {fuel : Nat} (enough : items.length < fuel) :
    (dwQueueAll items (Header.init, links)).bind (dwProcess fuel) = some items.reverse := by
  obtain ⟨header', links', queued, form'⟩ := dw_queue_all_spec items (well_formed_init links) distinct fun _ _ => List.not_mem_nil
  rw [List.append_nil] at form'
  rw [queued, Option.bind_some, dw_process_spec _ form' (by simpa using enough)]

omit [DecidableEq N] in
theorem reverse_same_iff {items : List N} (distinct : items.Nodup) : items.reverse = items ↔ items.length ≤ 1 := by
  constructor
  · intro same
    match items with
    | [] => simp
    | [item] => simp
    | first :: second :: rest =>
        -- The last item would stand first as well.
        have last := congrArg List.head? same
        rw [List.head?_reverse, List.getLast?_cons_cons, List.head?_cons] at last
        exact absurd (List.mem_of_getLast? last) (List.nodup_cons.mp distinct).1
  · intro short
    match items with
    | [] => rfl
    | [item] => rfl
    | first :: second :: rest => simp at short

end Items

section Timers

open Events (Event Starts step processLoop)

-- The events that have expired when the loop of events_process reads the clock.
def expired : List Event → List Nat → List Event
  | event :: rest, now :: later => if now < event.deadline then [] else event :: expired rest later
  | _, _ => []

theorem process_expired {frequency : Nat} {hard : Bool} {events : List Event} {reads : List Nat} {s s' : Events.State}
    (done : processLoop frequency hard events reads s = some s') :
    s'.queued = s.queued ++ (expired events reads).map Event.dwItem ∧ (expired events reads).Sublist events := by
  induction events generalizing reads s with
  | nil =>
      cases reads with
      | nil =>
          obtain rfl := Option.some.inj done
          exact ⟨(List.append_nil _).symm, List.Sublist.refl _⟩
      | cons now later => cases done
  | cons event rest ih =>
      cases reads with
      | nil => cases done
      | cons now later =>
          rw [processLoop] at done
          rw [expired]
          by_cases ahead : now < event.deadline
          · rw [if_pos ahead] at done ⊢
            split at done
            · obtain rfl := Option.some.inj done
              exact ⟨(List.append_nil _).symm, List.nil_sublist _⟩
            · cases done
          · rw [if_neg ahead] at done ⊢
            obtain ⟨queued, fewer⟩ := ih done
            exact ⟨by simp [queued], fewer.cons_cons event⟩

-- Of any two items the one that is executed first belongs to an event that was due no later.
def InDeadlineOrder (events : List Event) (executed : List Nat) : Prop :=
  executed.Pairwise fun i j => ∀ a ∈ events, ∀ b ∈ events, a.dwItem = i → b.dwItem = j → a.deadline ≤ b.deadline

-- In the tree they stood in the order of their deadlines, and are executed in the reverse one.
theorem in_deadline_order_iff {events taken : List Event} (ordered : Events.Ordered taken) (fewer : taken.Sublist events)
    (items : (events.map Event.dwItem).Nodup) :
    InDeadlineOrder events (taken.map Event.dwItem).reverse ↔ ∀ a ∈ taken, ∀ b ∈ taken, a.deadline = b.deadline := by
  rw [InDeadlineOrder, List.pairwise_reverse, List.pairwise_map]
  constructor
  · intro inOrder
    have equal : taken.Pairwise fun a b => a.deadline = b.deadline := by
      refine (inOrder.and ordered).imp_of_mem fun {a b} memberA memberB both => ?_
      exact Nat.le_antisymm both.2 (both.1 b (fewer.subset memberB) a (fewer.subset memberA) rfl rfl)
    have symmetric : Std.Symm fun a b : Event => a.deadline = b.deadline := ⟨fun _ _ => Eq.symm⟩
    have reflexive : ∀ a ∈ taken, a.deadline = a.deadline := fun _ _ => rfl
    exact fun a memberA b memberB => equal.forall_of_forall reflexive memberA memberB
  · intro equal
    refine List.Pairwise.imp_of_mem (fun {a b} memberA memberB _ => ?_) ordered
    intro c memberC d memberD sameC sameD
    obtain rfl := List.inj_on_of_nodup_map items memberC (fewer.subset memberB) sameC
    obtain rfl := List.inj_on_of_nodup_map items memberD (fewer.subset memberA) sameD
    exact Nat.le_of_eq (equal c memberB d memberA)

theorem deferred_order (fuel : Nat) :
    (∀ (N : Type) [DecidableEq N] (items : List N) (links : Links N), items.Nodup → items.length < fuel →
      ∃ executed, (dwQueueAll items (Header.init, links)).bind (dwProcess fuel) = some executed ∧ (executed = items ↔ items.length ≤ 1)) ∧
    ∀ frequency s, Reachable Starts (step frequency) s → ∀ hard reads s', step frequency (.process hard reads) s = some s' →
      ∀ links, (expired s.events reads).length < fuel →
        s'.queued = s.queued ++ (expired s.events reads).map Event.dwItem ∧
        ∃ executed, (dwQueueAll ((expired s.events reads).map Event.dwItem) (Header.init, links)).bind (dwProcess fuel) = some executed ∧
          (InDeadlineOrder s.events executed ↔ ∀ a ∈ expired s.events reads, ∀ b ∈ expired s.events reads, a.deadline = b.deadline) := by
  constructor
  · intro N _ items links distinct enough
    exact ⟨items.reverse, dw_executed distinct links enough, reverse_same_iff distinct⟩
  · intro frequency s reach hard reads s' taken links enough
    have sound := Events.reachable_sound reach
    have done : processLoop frequency hard s.events reads s = some s' := by
      rw [step] at taken
      split at taken
      · exact taken
      · cases taken
    obtain ⟨queued, fewer⟩ := process_expired done
    have items : (s.events.map Event.dwItem).Nodup := sound.items.sublist (List.sublist_append_left _ _)
    refine ⟨queued, _, dw_executed (items.sublist (fewer.map _)) links (by simpa using enough), ?_⟩
    exact in_deadline_order_iff (sound.ordered.sublist fewer) fewer items

def unlinked : Links Nat := ⟨fun _ => none, fun _ => none⟩

theorem two_queued_reached : Reachable Starts (step 62500000) Events.twoQueued := by
  have run : execute (step 62500000) [.queue 100 10 1, .queue 100 50 2] Events.bare = some Events.twoQueued := by decide
  exact reachable_execute (.start Events.bare (by decide)) run

theorem two_expire : ∃ s', step 62500000 (.process true [200, 200]) Events.twoQueued = some s' ∧ s'.queued = [0, 1] := ⟨_, rfl, by decide⟩

theorem deferred_order_two :
    (∃ executed, (dwQueueAll [0, 1] (Header.init, unlinked)).bind (dwProcess 3) = some executed ∧ (executed = [0, 1] ↔ [0, 1].length ≤ 1)) ∧
      ∃ executed, (dwQueueAll [0, 1] (Header.init, unlinked)).bind (dwProcess 3) = some executed ∧
        (InDeadlineOrder Events.twoQueued.events executed ↔ ∀ a ∈ Events.twoQueued.events, ∀ b ∈ Events.twoQueued.events, a.deadline = b.deadline) := by
  obtain ⟨s', taken, _⟩ := two_expire
  obtain ⟨items, events⟩ := deferred_order 3
  exact ⟨items Nat [0, 1] unlinked (by decide) (by decide),
    (events 62500000 Events.twoQueued two_queued_reached true [200, 200] s' taken unlinked (by decide)).2⟩

-- Events due at 110 and 150 that are seen at 200: the later one is executed first.
theorem deferred_order_reversed :
    (∃ s', step 62500000 (.process true [200, 200]) Events.twoQueued = some s' ∧ s'.queued = [0, 1]) ∧
      (dwQueueAll [0, 1] (Header.init, unlinked)).bind (dwProcess 3) = some [1, 0] ∧
      ¬ InDeadlineOrder Events.twoQueued.events [1, 0] := by
  refine ⟨two_expire, dw_executed (by decide) unlinked (by decide), fun inOrder => ?_⟩
  have late := (List.pairwise_cons.mp inOrder).1 0 (List.mem_singleton_self 0) ⟨2, 150, 1⟩ (by decide) ⟨1, 110, 0⟩ (by decide) rfl rfl
  exact absurd late (by decide)

end Timers

end Elysium.DeferredOrder
