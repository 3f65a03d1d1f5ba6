import Elysium.IntrusiveList
import Elysium.Transitions

set_option autoImplicit false

namespace Elysium.Process

open IntrusiveList
open Transitions (execute)

-- Processes and threads are the blocks they live in. links are the list_sched nodes of
-- the processes, which g_sched_processes and g_process_queue both run through; members
-- are the list_node_proc nodes of the threads and waits their list_node_sched nodes.
-- created has the blocks of processes that the heap has handed out and not got back,
-- made those of all threads there have been.
structure State (P T : Type) where
  links : Links P
  processes : Header P
  processQueue : Header P
  created : List P
  locked : P → Bool
  threads : P → Header T
  members : Links T
  proc : T → Option P
  made : List T
  running : List T
  waits : Links T
  threadQueue : Header T
  failed : Bool

inductive Action (P T : Type) where
  | create (p : P)
  | spawn (t : T) (proc : Option P)
  | exit (t : T)
  | reapProcess
  | reapThread

section Model

variable {P T : Type} [DecidableEq P] [DecidableEq T]

def fail (s : State P T) : State P T := { s with failed := true }

-- heap_alloc may return any block that is not in use.
def processCreate (s : State P T) (p : P) : State P T :=
  match listPushBack s.processes s.links p with
  | none => fail s
  | some (processes, links) => { s with
      links := links
      processes := processes
      created := p :: s.created
      locked := Function.update s.locked p false
      threads := Function.update s.threads p Header.init }

def createThread (s : State P T) (t : T) : Option P → State P T
  | none => { s with proc := Function.update s.proc t none, made := t :: s.made, running := t :: s.running }
  | some p =>
      match listPushFront (s.threads p) s.members t with
      | none => fail s
      | some (threads, members) => { s with
          threads := Function.update s.threads p threads
          members := members
          proc := Function.update s.proc t (some p)
          made := t :: s.made
          running := t :: s.running }

def reaperQueueProcess (s : State P T) (p : P) : State P T :=
  match listPushBack s.processQueue s.links p with
  | none => fail s
  | some (queue, links) => { s with processQueue := queue, links := links }

def reaperQueueThread (s : State P T) (t : T) : State P T :=
  match listPushBack s.threadQueue s.waits t with
  | none => fail s
  | some (queue, waits) => { s with threadQueue := queue, waits := waits }

-- The lock of a process whose last thread has gone is not released.
def dropFromProcess (s : State P T) (t : T) (p : P) : State P T :=
  let deleted := listNodeDelete (s.threads p) s.members t
  let s := { s with threads := Function.update s.threads p deleted.1, members := deleted.2 }
  if deleted.1.count = 0 then reaperQueueProcess { s with locked := Function.update s.locked p true } p else s

-- internal_sched_thread_drop of a thread in state DESTROY.
def schedThreadDrop (s : State P T) (t : T) : State P T :=
  let s := { s with running := s.running.erase t }
  match s.proc t with
  | none => reaperQueueThread s t
  | some p => reaperQueueThread (dropFromProcess s t p) t

-- One round of the reaper's loop over the processes.
def reapProcess (s : State P T) : State P T :=
  if s.processQueue.count = 0 then s
  else
    match listPopFront s.processQueue s.links with
    | (none, _, _) => fail s
    | (some p, queue, links) =>
        let s := { s with processQueue := queue, links := links }
        if s.locked p = false ∨ (s.threads p).count ≠ 0 then fail s else { s with created := s.created.erase p }

def reapThread (s : State P T) : State P T :=
  if s.threadQueue.count = 0 then s
  else
    match listPopFront s.threadQueue s.waits with
    | (none, _, _) => fail s
    | (some _, queue, waits) => { s with threadQueue := queue, waits := waits }

-- A thread's block is never given back, so that a new thread has a block of its own; it
-- is added to its process, and taken from it, with the process's lock held.
def step (action : Action P T) (s : State P T) : Option (State P T) :=
  if s.failed then none
  else
    match action with
    | .create p => if p ∈ s.created then none else some (processCreate s p)
    | .spawn t none => if t ∈ s.made then none else some (createThread s t none)
    | .spawn t (some p) => if t ∈ s.made ∨ p ∉ s.created ∨ s.locked p = true then none else some (createThread s t (some p))
    | .exit t => if t ∉ s.running ∨ (s.proc t).any s.locked = true then none else some (schedThreadDrop s t)
    | .reapProcess => some (reapProcess s)
    | .reapThread => some (reapThread s)

structure Fresh (s : State P T) : Prop where
  processes : s.processes = Header.init
  processQueue : s.processQueue = Header.init
  created : s.created = []
  made : s.made = []
  running : s.running = []
  threadQueue : s.threadQueue = Header.init
  failed : s.failed = false

-- Both lists are well formed and share no node, and g_sched_processes has the processes
-- that were created and not freed.
def Bookkept (s : State P T) : Prop :=
  ∃ list queue, WellFormed s.processes s.links list ∧ WellFormed s.processQueue s.links queue ∧
    (∀ p ∈ list, p ∉ queue) ∧ ∀ p, p ∈ list ↔ p ∈ s.created

-- A step in which a thread exits and its process has no other.
def LastThread (s : State P T) (action : Action P T) : Prop :=
  ∃ t p, action = .exit t ∧ s.proc t = some p ∧ ∀ u ∈ s.running, s.proc u = some p → u = t

structure Inv (s : State P T) : Prop where
  failed : s.failed = false
  queue : s.processQueue = Header.init
  list : ∃ list, WellFormed s.processes s.links list ∧ ∀ p, p ∈ list ↔ p ∈ s.created
  unlocked : ∀ p ∈ s.created, s.locked p = false
  threads : ∀ p ∈ s.created, ∃ list, WellFormed (s.threads p) s.members list ∧
    ∀ t, t ∈ list ↔ t ∈ s.running ∧ s.proc t = some p
  owned : ∀ t ∈ s.running, ∀ p, s.proc t = some p → p ∈ s.created
  distinct : s.running.Nodup
  made : ∀ t ∈ s.running, t ∈ s.made
  waiting : ∃ list, WellFormed s.threadQueue s.waits list ∧ ∀ t ∈ list, t ∉ s.running ∧ t ∈ s.made

omit [DecidableEq P] [DecidableEq T] in
theorem inv_bookkept {s : State P T} (inv : Inv s) : Bookkept s := by
  obtain ⟨list, form, members⟩ := inv.list
  exact ⟨list, [], form, inv.queue ▸ well_formed_init s.links, by simp, members⟩

omit [DecidableEq P] [DecidableEq T] in
theorem fresh_inv {s : State P T} (fresh : Fresh s) : Inv s where
  failed := fresh.failed
  queue := fresh.processQueue
  list := ⟨[], fresh.processes ▸ well_formed_init s.links, by simp [fresh.created]⟩
  unlocked := by simp [fresh.created]
  threads := by simp [fresh.created]
  owned := by simp [fresh.running]
  distinct := fresh.running ▸ List.nodup_nil
  made := by simp [fresh.running]
  waiting := ⟨[], fresh.threadQueue ▸ well_formed_init s.waits, by simp⟩

omit [DecidableEq T] in
theorem create_inv {s : State P T} {p : P} (inv : Inv s) (new : p ∉ s.created) : Inv (processCreate s p) := by
  obtain ⟨list, form, members⟩ := inv.list
  obtain ⟨processes, links, pushed, form', _⟩ := push_back_spec form (fun member => new ((members p).mp member))
  have other : ∀ q ∈ s.created, q ≠ p := fun q member same => new (same ▸ member)
  rw [processCreate, pushed]
  refine ⟨inv.failed, inv.queue, ⟨_, form', fun q => ?_⟩, fun q member => ?_, fun q member => ?_, fun t run q proc => ?_,
    inv.distinct, inv.made, inv.waiting⟩
  · rw [List.mem_append, List.mem_singleton, List.mem_cons, members, or_comm]
  · cases List.mem_cons.mp member with
    | inl same => simp [same]
    | inr old => simpa [Function.update_of_ne (other q old)] using inv.unlocked q old
  · cases List.mem_cons.mp member with
    | inl same =>
        refine ⟨[], by simpa [same] using well_formed_init s.members, fun t => ⟨fun none => absurd none List.not_mem_nil, ?_⟩⟩
        rintro ⟨run, proc⟩
        exact absurd (same ▸ inv.owned t run q proc) new
    | inr old => simpa [Function.update_of_ne (other q old)] using inv.threads q old
  · exact List.mem_cons_of_mem _ (inv.owned t run q proc)

theorem spawn_kernel_inv {s : State P T} {t : T} (inv : Inv s) (new : t ∉ s.made) : Inv (createThread s t none) := by
  have other : ∀ u ∈ s.running, u ≠ t := fun u run same => new (same ▸ inv.made u run)
  refine ⟨inv.failed, inv.queue, inv.list, inv.unlocked, fun p member => ?_, fun u run p proc => ?_,
    List.nodup_cons.mpr ⟨fun run => new (inv.made t run), inv.distinct⟩, fun u run => ?_, ?_⟩
  · obtain ⟨list, form, threads⟩ := inv.threads p member
    refine ⟨list, form, fun u => ?_⟩
    by_cases same : u = t
    · have outside : t ∉ list := fun listed => new (inv.made t ((threads t).mp listed).1)
      simp [createThread, same, outside]
    · simp [createThread, same, threads]
  · by_cases same : u = t
    · simp [createThread, same] at proc
    · simp only [createThread, Function.update_of_ne same] at proc
      exact inv.owned u ((List.mem_cons.mp run).resolve_left same) p proc
  · cases List.mem_cons.mp run with
    | inl same => exact same ▸ List.mem_cons_self ..
    | inr old => exact List.mem_cons_of_mem _ (inv.made u old)
  · obtain ⟨list, form, waiting⟩ := inv.waiting
    refine ⟨list, form, fun u member => ⟨fun run => ?_, List.mem_cons_of_mem _ (waiting u member).2⟩⟩
    cases List.mem_cons.mp run with
    | inl same => exact new (same ▸ (waiting u member).2)
    | inr old => exact (waiting u member).1 old

theorem spawn_user_inv {s : State P T} {t : T} {p : P} (inv : Inv s) (new : t ∉ s.made) (created : p ∈ s.created) :
    Inv (createThread s t (some p)) := by
  obtain ⟨list, form, threads⟩ := inv.threads p created
  have outside : ∀ u, u ∈ s.running → u ≠ t := fun u run same => new (same ▸ inv.made u run)
  obtain ⟨header, links, pushed, form', same⟩ := push_front_spec form fun member => new (inv.made t ((threads t).mp member).1)
  rw [createThread, pushed]
  refine ⟨inv.failed, inv.queue, inv.list, inv.unlocked, fun q member => ?_, fun u run q proc => ?_,
    List.nodup_cons.mpr ⟨fun run => new (inv.made t run), inv.distinct⟩, fun u run => ?_, ?_⟩
  · by_cases here : q = p
    · subst here
      refine ⟨t :: list, by simpa using form', fun u => ?_⟩
      by_cases this : u = t
      · simp [this]
      · simp [this, threads]
    · obtain ⟨list', form'', threads'⟩ := inv.threads q member
      have apart : ∀ u ∈ list', u ∉ t :: list := by
        intro u listed
        obtain ⟨run, proc⟩ := (threads' u).mp listed
        rw [List.mem_cons, not_or, threads]
        exact ⟨outside u run, fun both => here (Option.some.inj (proc.symm.trans both.2))⟩
      refine ⟨list', ?_, fun u => ?_⟩
      · simpa [Function.update_of_ne here] using well_formed_of_eq form'' fun u listed => same u (apart u listed)
      · by_cases this : u = t
        · have absent : t ∉ list' := fun listed => new (inv.made t ((threads' t).mp listed).1)
          simp [this, absent, Ne.symm here]
        · simp [this, threads']
  · by_cases this : u = t
    · simp only [this, Function.update_self, Option.some.injEq] at proc
      exact proc ▸ created
    · simp only [Function.update_of_ne this] at proc
      exact inv.owned u ((List.mem_cons.mp run).resolve_left this) q proc
  · cases List.mem_cons.mp run with
    | inl this => exact this ▸ List.mem_cons_self ..
    | inr old => exact List.mem_cons_of_mem _ (inv.made u old)
  · obtain ⟨waiting, formed, idle⟩ := inv.waiting
    refine ⟨waiting, formed, fun u member => ⟨fun run => ?_, List.mem_cons_of_mem _ (idle u member).2⟩⟩
    cases List.mem_cons.mp run with
    | inl this => exact new (this ▸ (idle u member).2)
    | inr old => exact (idle u member).1 old

omit [DecidableEq P] in
theorem queue_thread_inv {s : State P T} {t : T} {list : List T} (inv : Inv s) (form : WellFormed s.threadQueue s.waits list)
    (idle : ∀ u ∈ list, u ∉ s.running ∧ u ∈ s.made) (absent : t ∉ list) (gone : t ∉ s.running) (made : t ∈ s.made) :
    Inv (reaperQueueThread s t) := by
  obtain ⟨queue, waits, pushed, form', _⟩ := push_back_spec form absent
  rw [reaperQueueThread, pushed]
  refine ⟨inv.failed, inv.queue, inv.list, inv.unlocked, inv.threads, inv.owned, inv.distinct, inv.made, _, form', fun u member => ?_⟩
  cases List.mem_append.mp member with
  | inl old => exact idle u old
  | inr new => exact List.mem_singleton.mp new ▸ ⟨gone, made⟩

-- A thread has stopped running and, if it has a process, is no longer in its list.
omit [DecidableEq P] in
theorem leave_inv {s : State P T} {t : T} (inv : Inv s) (kernel : s.proc t = none) : Inv { s with running := s.running.erase t } := by
  obtain ⟨list, form, idle⟩ := inv.waiting
  refine ⟨inv.failed, inv.queue, inv.list, inv.unlocked, fun p member => ?_, fun u run => inv.owned u (List.mem_of_mem_erase run),
    inv.distinct.erase t, fun u run => inv.made u (List.mem_of_mem_erase run), list, form, fun u member => ?_⟩
  · obtain ⟨threads, formed, listed⟩ := inv.threads p member
    refine ⟨threads, formed, fun u => ?_⟩
    rw [listed, inv.distinct.mem_erase_iff]
    by_cases same : u = t
    · simp [same, kernel]
    · simp [same]
  · exact ⟨fun run => (idle u member).1 (List.mem_of_mem_erase run), (idle u member).2⟩

theorem leave_process_inv {s : State P T} {t : T} {p : P} (inv : Inv s) (created : p ∈ s.created) (proc : s.proc t = some p)
    {before after : List T} (form : WellFormed (s.threads p) s.members (before ++ t :: after))
    (threads : ∀ u, u ∈ before ++ t :: after ↔ u ∈ s.running ∧ s.proc u = some p) :
    Inv { s with
      running := s.running.erase t
      threads := Function.update s.threads p (listNodeDelete (s.threads p) s.members t).1
      members := (listNodeDelete (s.threads p) s.members t).2 } := by
  obtain ⟨header, links, deleted, form', same⟩ := node_delete_spec form
  obtain ⟨list, formed, idle⟩ := inv.waiting
  have once : t ∉ before ++ after := List.nodup_cons.mp (List.nodup_middle.mp form.distinct) |>.1
  rw [deleted]
  refine ⟨inv.failed, inv.queue, inv.list, inv.unlocked, fun q member => ?_, fun u run => inv.owned u (List.mem_of_mem_erase run),
    inv.distinct.erase t, fun u run => inv.made u (List.mem_of_mem_erase run), list, formed, fun u member => ?_⟩
  · by_cases here : q = p
    · subst here
      refine ⟨before ++ after, by simpa using form', fun u => ?_⟩
      rw [inv.distinct.mem_erase_iff, and_assoc, ← threads]
      by_cases this : u = t
      · simpa [this] using once
      · simp [this]
    · obtain ⟨list', form'', threads'⟩ := inv.threads q member
      have apart : ∀ u ∈ list', u ∉ before ++ t :: after := by
        intro u listed both
        exact here (Option.some.inj (((threads' u).mp listed).2.symm.trans ((threads u).mp both).2))
      refine ⟨list', ?_, fun u => ?_⟩
      · simpa [Function.update_of_ne here] using well_formed_of_eq form'' fun u listed => same u (apart u listed)
      · rw [threads', inv.distinct.mem_erase_iff, and_assoc]
        by_cases this : u = t
        · simp [this, proc, Ne.symm here]
        · simp [this]
  · exact ⟨fun run => (idle u member).1 (List.mem_of_mem_erase run), (idle u member).2⟩

end Model

end Elysium.Process
