import Elysium.Process

set_option autoImplicit false

namespace Elysium.Process

open IntrusiveList
open Transitions (execute)

section Lists

variable {P T : Type} [DecidableEq P] [DecidableEq T] {s s' : State P T}

theorem drop_inv {t : T} (inv : Inv s) (run : t ∈ s.running) (others : ¬ LastThread s (.exit t)) : Inv (schedThreadDrop s t) := by
  obtain ⟨list, form, idle⟩ := inv.waiting
  have absent : t ∉ list := fun member => (idle t member).1 run
  have gone : t ∉ s.running.erase t := fun member => ((inv.distinct.mem_erase_iff).mp member).1 rfl
  have fewer : ∀ u ∈ list, u ∉ s.running.erase t ∧ u ∈ s.made := fun u member =>
    ⟨fun stays => (idle u member).1 (List.mem_of_mem_erase stays), (idle u member).2⟩
  cases proc : s.proc t with
  | none =>
      rw [schedThreadDrop]
      simp only [proc]
      exact queue_thread_inv (leave_inv inv proc) form fewer absent gone (inv.made t run)
  | some p =>
      have created := inv.owned t run p proc
      obtain ⟨threads, formed, listed⟩ := inv.threads p created
      obtain ⟨before, after, rfl⟩ := List.append_of_mem ((listed t).mpr ⟨run, proc⟩)
      obtain ⟨header, links, deleted, form', _⟩ := node_delete_spec formed
      -- Another thread keeps the list from being empty.
      have filled : (listNodeDelete (s.threads p) s.members t).1.count ≠ 0 := by
        rw [deleted, form'.count]
        intro empty
        refine others ⟨t, p, rfl, proc, fun u running owner => ?_⟩
        have member := (listed u).mpr ⟨running, owner⟩
        rw [List.length_eq_zero_iff, List.append_eq_nil_iff] at empty
        rw [empty.1, empty.2] at member
        exact List.mem_singleton.mp member
      rw [schedThreadDrop]
      simp only [proc, dropFromProcess, if_neg filled]
      exact queue_thread_inv (leave_process_inv inv created proc formed listed) form fewer absent gone (inv.made t run)

omit [DecidableEq P] in
theorem reap_thread_inv (inv : Inv s) : Inv (reapThread s) := by
  obtain ⟨list, form, idle⟩ := inv.waiting
  rw [reapThread]
  by_cases none : s.threadQueue.count = 0
  · rw [if_pos none]
    exact inv
  · rw [if_neg none]
    cases list with
    | nil => exact absurd form.count none
    | cons t rest =>
        obtain ⟨queue, waits, popped, form', _⟩ := pop_front_spec form
        rw [popped]
        exact ⟨inv.failed, inv.queue, inv.list, inv.unlocked, inv.threads, inv.owned, inv.distinct, inv.made, rest, form',
          fun u member => idle u (List.mem_cons_of_mem _ member)⟩

theorem step_inv {action : Action P T} (inv : Inv s) (taken : step action s = some s') (others : ¬ LastThread s action) : Inv s' := by
  rw [step.eq_def, if_neg (by simp [inv.failed])] at taken
  cases action with
  | create p =>
      simp only [Option.ite_none_left_eq_some, Option.some.injEq] at taken
      exact taken.2 ▸ create_inv inv taken.1
  | spawn t proc =>
      cases proc with
      | none =>
          simp only [Option.ite_none_left_eq_some, Option.some.injEq] at taken
          exact taken.2 ▸ spawn_kernel_inv inv taken.1
      | some p =>
          simp only [Option.ite_none_left_eq_some, Option.some.injEq, not_or, not_not] at taken
          exact taken.2 ▸ spawn_user_inv inv taken.1.1 taken.1.2.1
  | exit t =>
      simp only [Option.ite_none_left_eq_some, Option.some.injEq, not_or, not_not] at taken
      exact taken.2 ▸ drop_inv inv taken.1.1 others
  | reapProcess =>
      simp only [Option.some.injEq] at taken
      have empty : s.processQueue.count = 0 := congrArg Header.count inv.queue
      rw [← taken, reapProcess, if_pos empty]
      exact inv
  | reapThread =>
      simp only [Option.some.injEq] at taken
      exact taken ▸ reap_thread_inv inv

omit [DecidableEq P] in
theorem queue_thread_kept (s : State P T) (t : T) : (reaperQueueThread s t).links = s.links ∧
    (reaperQueueThread s t).processes = s.processes ∧ (reaperQueueThread s t).processQueue = s.processQueue ∧
    (reaperQueueThread s t).created = s.created := by
  rw [reaperQueueThread]
  cases listPushBack s.threadQueue s.waits t with
  | none => exact ⟨rfl, rfl, rfl, rfl⟩
  | some pushed => exact ⟨rfl, rfl, rfl, rfl⟩

omit [DecidableEq T] in
theorem queue_process_empty {p : P} (empty : s.processQueue = Header.init) :
    (reaperQueueProcess s p).processQueue = ⟨1, some p, some p⟩ ∧ (reaperQueueProcess s p).created = s.created := by
  have pushed : listPushBack s.processQueue s.links p = some (⟨1, some p, some p⟩, (s.links.setNext p none).setPrev p none) := by
    rw [empty]
    rfl
  rw [reaperQueueProcess, pushed]
  exact ⟨rfl, rfl⟩

omit [DecidableEq P] [DecidableEq T] in
theorem queued_not_bookkept {p : P} (queued : s.processQueue.head = some p) (created : p ∈ s.created) : ¬ Bookkept s := by
  intro ⟨list, queue, _, form, apart, members⟩
  have head : queue.head? = some p := form.head.symm.trans queued
  exact apart p ((members p).mpr created) (List.mem_of_mem_head? head)

-- The process is queued with the node that still links it into g_sched_processes.
theorem last_thread_breaks {action : Action P T} (inv : Inv s) (taken : step action s = some s') (last : LastThread s action) :
    ¬ Bookkept s' := by
  obtain ⟨t, p, rfl, proc, only⟩ := last
  rw [step, if_neg (by simp [inv.failed])] at taken
  simp only [Option.ite_none_left_eq_some, Option.some.injEq, not_or, not_not] at taken
  obtain ⟨⟨run, _⟩, rfl⟩ := taken
  have created := inv.owned t run p proc
  obtain ⟨threads, formed, listed⟩ := inv.threads p created
  obtain ⟨before, after, rfl⟩ := List.append_of_mem ((listed t).mpr ⟨run, proc⟩)
  obtain ⟨header, links, deleted, form', _⟩ := node_delete_spec formed
  have none : before ++ after = [] := by
    refine List.eq_nil_iff_forall_not_mem.mpr fun u member => ?_
    have here : u ∈ before ++ t :: after := by
      cases List.mem_append.mp member with
      | inl first => exact List.mem_append_left _ first
      | inr later => exact List.mem_append_right _ (List.mem_cons_of_mem _ later)
    obtain ⟨running, owner⟩ := (listed u).mp here
    have once : t ∉ before ++ after := (List.nodup_cons.mp (List.nodup_middle.mp formed.distinct)).1
    exact once (only u running owner ▸ member)
  have emptied : (listNodeDelete (s.threads p) s.members t).1.count = 0 := by
    rw [deleted, form'.count, none]
    rfl
  rw [schedThreadDrop]
  simp only [proc, dropFromProcess, if_pos emptied]
  refine queued_not_bookkept (p := p) ?_ ?_
  · rw [(queue_thread_kept _ t).2.2.1, (queue_process_empty (by exact inv.queue)).1]
  · rw [(queue_thread_kept _ t).2.2.2, (queue_process_empty (by exact inv.queue)).2]
    exact created

-- Along a run the invariant holds while no last thread exits.
theorem run_inv {schedule : List (Action P T)} (inv : Inv s) (run : execute step schedule s = some s')
    (others : ∀ before action after u, schedule = before ++ action :: after → execute step before s = some u → ¬ LastThread u action) :
    Inv s' := by
  induction schedule generalizing s with
  | nil =>
      rw [execute, Option.some.injEq] at run
      exact run ▸ inv
  | cons action rest ih =>
      rw [execute, Option.bind_eq_some_iff] at run
      obtain ⟨s₁, first, later⟩ := run
      refine ih (step_inv inv first (others [] action rest s rfl rfl)) later fun before other after u split reached => ?_
      refine others (action :: before) other after u (by rw [split]; rfl) ?_
      rw [execute, first]
      exact reached

theorem run_sound_iff {schedule : List (Action P T)} (inv : Inv s) (run : execute step schedule s = some s') :
    (∀ before after u, schedule = before ++ after → execute step before s = some u → Bookkept u) ↔
      ∀ before action after u, schedule = before ++ action :: after → execute step before s = some u → ¬ LastThread u action := by
  constructor
  · intro sound
    induction schedule generalizing s with
    | nil =>
        intro before action after u split
        exact absurd split.symm (by simp)
    | cons action rest ih =>
        rw [execute, Option.bind_eq_some_iff] at run
        obtain ⟨s₁, first, later⟩ := run
        have others : ¬ LastThread s action := fun last => by
          refine last_thread_breaks inv first last (sound [action] rest s₁ rfl ?_)
          rw [execute, first]
          rfl
        have tail := ih (step_inv inv first others) later fun before after u split reached => by
          refine sound (action :: before) after u (by rw [split]; rfl) ?_
          rw [execute, first]
          exact reached
        intro before other after u split reached
        cases before with
        | nil =>
            rw [execute, Option.some.injEq] at reached
            rw [List.nil_append, List.cons.injEq] at split
            exact reached ▸ split.1 ▸ others
        | cons head front =>
            rw [List.cons_append, List.cons.injEq] at split
            rw [execute, ← split.1, first] at reached
            exact tail front other after u split.2 reached
  · intro others before after u split reached
    refine inv_bookkept (run_inv inv reached fun first action later w inner reached' => ?_)
    exact others first action (later ++ after) w (by rw [split, inner]; simp) reached'

-- Every state of the run is sound exactly when none of its steps is the exit of a last
-- thread.
theorem process_lists_sound (schedule : List (Action P T)) (s s' : State P T) (fresh : Fresh s)
    (run : execute step schedule s = some s') :
    (∀ before after u, schedule = before ++ after → execute step before s = some u → Bookkept u) ↔
      ∀ before action after u, schedule = before ++ action :: after → execute step before s = some u → ¬ LastThread u action :=
  run_sound_iff (fresh_inv fresh) run

end Lists

def started : State Nat Nat where
  links := ⟨fun _ => none, fun _ => none⟩
  processes := Header.init
  processQueue := Header.init
  created := []
  locked := fun _ => false
  threads := fun _ => Header.init
  members := ⟨fun _ => none, fun _ => none⟩
  proc := fun _ => none
  made := []
  running := []
  waits := ⟨fun _ => none, fun _ => none⟩
  threadQueue := Header.init
  failed := false

theorem started_fresh : Fresh started := ⟨rfl, rfl, rfl, rfl, rfl, rfl, rfl⟩

def twoThreads : List (Action Nat Nat) := [.create 1, .spawn 10 (some 1), .spawn 11 (some 1)]

-- One of the two threads of a process exits.
theorem process_lists_sound_two : Fresh started ∧ (execute step (twoThreads ++ [.exit 10]) started).isSome = true ∧
    ∀ before after u, twoThreads ++ [.exit 10] = before ++ after → execute step before started = some u → Bookkept u := by
  have returns : (execute step (twoThreads ++ [.exit 10]) started).isSome = true := by decide
  obtain ⟨s', run⟩ := Option.isSome_iff_exists.mp returns
  refine ⟨started_fresh, returns, (process_lists_sound _ started s' started_fresh run).mpr ?_⟩
  intro before action after u split reached last
  obtain ⟨t, p, rfl, proc, only⟩ := last
  -- The only exit is the last step, and thread 11 stays.
  have position : before = twoThreads ∧ t = 10 := by
    match before with
    | [] => simp [twoThreads] at split
    | [_] => simp [twoThreads] at split
    | [_, _] => simp [twoThreads] at split
    | [_, _, _] =>
        simp only [twoThreads, List.cons_append, List.nil_append, List.cons.injEq, Action.exit.injEq] at split
        obtain ⟨rfl, rfl, rfl, rfl, _⟩ := split
        exact ⟨rfl, rfl⟩
    | _ :: _ :: _ :: _ :: rest => simp [twoThreads] at split
  obtain ⟨rfl, rfl⟩ := position
  have stays : (execute step twoThreads started).all
      (fun u => u.proc 10 = some 1 ∧ u.proc 11 = some 1 ∧ 11 ∈ u.running) = true := by decide
  rw [reached, Option.all_some, decide_eq_true_iff] at stays
  have same : p = 1 := Option.some.inj (proc.symm.trans stays.1)
  exact absurd (only 11 stays.2.2 (same ▸ stays.2.1)) (by decide)

-- The only thread of a process exits.
theorem process_lists_share_node : Fresh started ∧
    ∃ s', execute step [.create 1, .spawn 10 (some 1), .exit 10] started = some s' ∧ ¬ Bookkept s' := by
  have queued : (execute step [.create 1, .spawn 10 (some 1), .exit 10] started).any
      (fun s => s.processQueue.head = some 1 ∧ 1 ∈ s.created) = true := by decide
  obtain ⟨s', run, facts⟩ := (Option.any_eq_true _ _).mp queued
  rw [decide_eq_true_iff] at facts
  exact ⟨started_fresh, s', run, queued_not_bookkept facts.1 facts.2⟩

end Elysium.Process
