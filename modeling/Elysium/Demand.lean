import Elysium.Transitions

set_option autoImplicit false

namespace Elysium.Demand

open Transitions (Reachable ReachableUnder reachable_under_invariant execute reachable_execute)

-- Who brings pages in: the deferred work of a thread that faulted, or a kernel copy.
inductive Task (T C : Type) where
  | fault (t : T)
  | copy (c : C)
deriving DecidableEq

-- How far a task is with a page. A fault is missing its page from vm_fault on, until
-- vm_fault_soft has mapped it; a copy from the moment arch_ptm_physical finds nothing. After
-- it has mapped the page a copy asks for the physical address again.
inductive Stage (P : Type) where
  | idle
  | missing (p : P)
  | allocated (p : P) (frame : Nat)
  | mapped (p : P)
  | found (p : P) (frame : Nat)
deriving DecidableEq

-- The memory of one process. frame is its page table by pages, dynamic tells the pages that lie
-- in a dynamically backed anonymous region. pmm_alloc_page hands out frames that were not
-- handed out before. given counts the frames allocated for a page since it was last unmapped,
-- and last is what was last stored to it since it has a frame.
structure State (T C P O V : Type) where
  stage : Task T C → Stage P
  frame : P → Option Nat
  dynamic : P → Bool
  next : Nat
  memory : Nat → O → V
  given : P → Nat
  last : P → O → Option V

inductive Action (T C P O V : Type) where
  | touch (t : T) (p : P)
  | look (c : C) (p : P)
  | allocate (task : Task T C)
  | map (task : Task T C)
  | lookAgain (c : C)
  | copyByte (c : C) (o : O) (v : V)
  | finish (c : C)
  | store (p : P) (o : O) (v : V)
  | region (p : P)
  | unmap (p : P)

section Model

variable {T C P O V : Type} [DecidableEq T] [DecidableEq C] [DecidableEq P] [DecidableEq O]

def State.setStage (s : State T C P O V) (task : Task T C) (stage : Stage P) : State T C P O V :=
  { s with stage := Function.update s.stage task stage }

-- A store to a frame; it is one to the page where the page still has that frame.
def State.write (s : State T C P O V) (p : P) (frame : Nat) (o : O) (v : V) : State T C P O V :=
  { s with
    memory := Function.update s.memory frame (Function.update (s.memory frame) o v)
    last := if s.frame p = some frame then Function.update s.last p (Function.update (s.last p) o (some v)) else s.last }

def State.setFrame (s : State T C P O V) (p : P) (frame : Option Nat) : State T C P O V :=
  { s with frame := Function.update s.frame p frame, last := Function.update s.last p fun _ => none }

-- The stage of a task once its page is in the page table.
def afterMap (p : P) : Task T C → Stage P
  | .fault _ => .idle
  | .copy _ => .mapped p

def step : Action T C P O V → State T C P O V → Option (State T C P O V)
  | .touch t p, s =>
    -- vm_fault asserts that no fault of the thread is in flight.
    if s.stage (.fault t) = .idle ∧ s.frame p = none then some (s.setStage (.fault t) (.missing p)) else none
  | .look c p, s =>
    if s.stage (.copy c) = .idle then
      match s.frame p with
      | none => some (s.setStage (.copy c) (.missing p))
      | some frame => some (s.setStage (.copy c) (.found p frame))
    else none
  | .allocate task, s =>
    match s.stage task with
    | .missing p =>
      if s.dynamic p then
        some { s.setStage task (.allocated p s.next) with next := s.next + 1, given := Function.update s.given p (s.given p + 1) }
      else
        -- vm_fault_soft panics, a copy returns.
        match task with
        | .fault _ => none
        | .copy c => some (s.setStage (.copy c) .idle)
    | _ => none
  | .map task, s =>
    match s.stage task with
    | .allocated p frame => some ((s.setFrame p (some frame)).setStage task (afterMap p task))
    | _ => none
  | .lookAgain c, s =>
    match s.stage (.copy c) with
    | .mapped p => (s.frame p).map fun frame => s.setStage (.copy c) (.found p frame)
    | _ => none
  | .copyByte c o v, s =>
    match s.stage (.copy c) with
    | .found p frame => some (s.write p frame o v)
    | _ => none
  | .finish c, s =>
    match s.stage (.copy c) with
    | .found _ _ => some (s.setStage (.copy c) .idle)
    | _ => none
  | .store p o v, s => (s.frame p).map fun frame => s.write p frame o v
  | .region p, s => some { s with dynamic := Function.update s.dynamic p true }
  | .unmap p, s =>
    some { s.setFrame p none with dynamic := Function.update s.dynamic p false, given := Function.update s.given p 0 }

def Starts (s : State T C P O V) : Prop :=
  (∀ task, s.stage task = .idle) ∧ (∀ p, s.frame p = none) ∧ (∀ p, s.given p = 0) ∧ ∀ p o, s.last p o = none

-- The page a task is bringing in.
def Stage.wants : Stage P → Option P
  | .missing p => some p
  | .allocated p _ => some p
  | _ => none

-- Nobody else is bringing the page in when a fault is taken on it, or a copy misses it.
def Alone : Action T C P O V → State T C P O V → Prop
  | .touch t p, s => ∀ task, task ≠ .fault t → (s.stage task).wants ≠ some p
  | .look c p, s => s.frame p = none → ∀ task, task ≠ .copy c → (s.stage task).wants ≠ some p
  | _, _ => True

-- At most one task wants a page, and only one without a frame. A frame is given to one page,
-- and a frame that was allocated is in no page table yet.
structure Inv (s : State T C P O V) : Prop where
  single : ∀ {a b p}, (s.stage a).wants = some p → (s.stage b).wants = some p → a = b
  absent : ∀ {a p}, (s.stage a).wants = some p → s.frame p = none
  old : ∀ {p f}, s.frame p = some f → f < s.next
  allocated_old : ∀ {a p f}, s.stage a = .allocated p f → f < s.next
  found_old : ∀ {a p f}, s.stage a = .found p f → f < s.next
  apart : ∀ {p q f}, s.frame p = some f → s.frame q = some f → p = q
  allocated_apart : ∀ {a p q f}, s.stage a = .allocated p f → s.frame q ≠ some f
  allocated_single : ∀ {a b p q f}, s.stage a = .allocated p f → s.stage b = .allocated q f → a = b
  found_apart : ∀ {a p q f}, s.stage a = .found p f → s.frame q = some f → q = p
  found_mapped : ∀ {a b p q f}, s.stage a = .found p f → s.stage b ≠ .allocated q f
  given_one : ∀ p, s.given p ≤ 1
  given_none : ∀ {p}, s.frame p = none → (∀ a f, s.stage a ≠ .allocated p f) → s.given p = 0
  kept : ∀ {p f o v}, s.frame p = some f → s.last p o = some v → s.memory f o = v

section Steps

variable {s : State T C P O V}

omit [DecidableEq P] [DecidableEq O] in
theorem set_stage_elim (holds : Stage P → Prop) {task other : Task T C} {stage : Stage P}
    (at_ : holds ((s.setStage task stage).stage other)) :
    other = task ∧ holds stage ∨ other ≠ task ∧ holds (s.stage other) := by
  change holds (Function.update s.stage task stage other) at at_
  by_cases same : other = task
  · rw [same, Function.update_self] at at_
    exact .inl ⟨same, at_⟩
  · rw [Function.update_of_ne same] at at_
    exact .inr ⟨same, at_⟩

omit [DecidableEq P] [DecidableEq O] in
theorem set_stage_other (s : State T C P O V) {task other : Task T C} (apart : other ≠ task) (stage : Stage P) :
    (s.setStage task stage).stage other = s.stage other := Function.update_of_ne apart _ _

omit [DecidableEq P] [DecidableEq O] in
theorem set_stage_self (s : State T C P O V) (task : Task T C) (stage : Stage P) :
    (s.setStage task stage).stage task = stage := Function.update_self _ _ _

-- A task that holds no frame turns to a page that nobody else wants and that has no frame, or
-- stops wanting one.
omit [DecidableEq P] [DecidableEq O] in
theorem set_stage_inv (inv : Inv s) {task : Task T C} {stage : Stage P} (loose : ∀ p f, s.stage task ≠ .allocated p f)
    (bare : ∀ p f, stage ≠ .allocated p f)
    (wanted : ∀ p, stage.wants = some p → s.frame p = none ∧ ∀ other, other ≠ task → (s.stage other).wants ≠ some p)
    (found : ∀ p f, stage = .found p f → f < s.next ∧ (∀ q, s.frame q = some f → q = p) ∧ ∀ a q, s.stage a ≠ .allocated q f) :
    Inv (s.setStage task stage) := by
  have holds : ∀ {a p f}, (s.setStage task stage).stage a = .allocated p f → s.stage a = .allocated p f := by
    intro a p f at_
    obtain ⟨_, here⟩ | ⟨_, before⟩ := set_stage_elim (· = .allocated p f) at_
    · exact absurd here (bare p f)
    · exact before
  refine ⟨?_, ?_, inv.old, fun at_ => inv.allocated_old (holds at_), ?_, inv.apart, fun at_ => inv.allocated_apart (holds at_),
    fun first second => inv.allocated_single (holds first) (holds second), ?_, ?_, inv.given_one, ?_, inv.kept⟩
  · intro a b p first second
    obtain ⟨rfl, here⟩ | ⟨otherA, before⟩ := set_stage_elim (·.wants = some p) first
    · obtain ⟨rfl, _⟩ | ⟨otherB, before⟩ := set_stage_elim (·.wants = some p) second
      · rfl
      · exact absurd before ((wanted p here).2 b otherB)
    · obtain ⟨rfl, here⟩ | ⟨_, before'⟩ := set_stage_elim (·.wants = some p) second
      · exact absurd before ((wanted p here).2 a otherA)
      · exact inv.single before before'
  · intro a p at_
    obtain ⟨_, here⟩ | ⟨_, before⟩ := set_stage_elim (·.wants = some p) at_
    · exact (wanted p here).1
    · exact inv.absent before
  · intro a p f at_
    obtain ⟨_, here⟩ | ⟨_, before⟩ := set_stage_elim (· = .found p f) at_
    · exact (found p f here).1
    · exact inv.found_old before
  · intro a p q f at_ framed
    obtain ⟨_, here⟩ | ⟨_, before⟩ := set_stage_elim (· = .found p f) at_
    · exact (found p f here).2.1 q framed
    · exact inv.found_apart before framed
  · intro a b p q f at_ other
    obtain ⟨_, here⟩ | ⟨_, before⟩ := set_stage_elim (· = .found p f) at_
    · exact (found p f here).2.2 b q (holds other)
    · exact inv.found_mapped before (holds other)
  · intro p unframed none_
    refine inv.given_none unframed fun a f at_ => ?_
    by_cases same : a = task
    · exact loose p f (same ▸ at_)
    · exact none_ a f ((set_stage_other s same stage).trans at_)

-- A frame is allocated for the page a task wants.
omit [DecidableEq O] in
theorem allocate_inv (inv : Inv s) {task : Task T C} {p : P} (missing : s.stage task = .missing p) :
    Inv { s.setStage task (.allocated p s.next) with next := s.next + 1, given := Function.update s.given p (s.given p + 1) } := by
  have wants : (s.stage task).wants = some p := by rw [missing, Stage.wants]
  have unframed := inv.absent wants
  have holds : ∀ {a q f}, (s.setStage task (.allocated p s.next)).stage a = .allocated q f →
      a = task ∧ q = p ∧ f = s.next ∨ a ≠ task ∧ s.stage a = .allocated q f := by
    intro a q f at_
    obtain ⟨same, here⟩ | other := set_stage_elim (· = .allocated q f) at_
    · obtain ⟨rfl, rfl⟩ := Stage.allocated.inj here
      exact .inl ⟨same, rfl, rfl⟩
    · exact .inr other
  have shown : ∀ {a q f}, (s.setStage task (.allocated p s.next)).stage a = .found q f → s.stage a = .found q f := by
    intro a q f at_
    obtain ⟨_, here⟩ | ⟨_, before⟩ := set_stage_elim (· = .found q f) at_
    · cases here
    · exact before
  have wanting : ∀ {a q}, ((s.setStage task (.allocated p s.next)).stage a).wants = some q → (s.stage a).wants = some q := by
    intro a q at_
    obtain ⟨rfl, here⟩ | ⟨_, before⟩ := set_stage_elim (·.wants = some q) at_
    · rw [missing]
      exact here
    · exact before
  refine ⟨fun first second => inv.single (wanting first) (wanting second), fun at_ => inv.absent (wanting at_),
    fun framed => Nat.lt_succ_of_lt (inv.old framed), ?_, fun at_ => Nat.lt_succ_of_lt (inv.found_old (shown at_)), inv.apart,
    ?_, ?_, fun at_ => inv.found_apart (shown at_), ?_, ?_, ?_, inv.kept⟩
  · intro a q f at_
    obtain ⟨_, _, rfl⟩ | ⟨_, before⟩ := holds at_
    · exact Nat.lt_succ_self _
    · exact Nat.lt_succ_of_lt (inv.allocated_old before)
  · intro a q r f at_ framed
    obtain ⟨_, _, rfl⟩ | ⟨_, before⟩ := holds at_
    · exact Nat.lt_irrefl _ (inv.old framed)
    · exact inv.allocated_apart before framed
  · intro a b q r f first second
    obtain ⟨sameA, _, newA⟩ | ⟨_, before⟩ := holds first
    · obtain ⟨sameB, _⟩ | ⟨_, before'⟩ := holds second
      · rw [sameA, sameB]
      · rw [newA] at before'
        exact absurd (inv.allocated_old before') (Nat.lt_irrefl _)
    · obtain ⟨_, _, newB⟩ | ⟨_, before'⟩ := holds second
      · rw [newB] at before
        exact absurd (inv.allocated_old before) (Nat.lt_irrefl _)
      · exact inv.allocated_single before before'
  · intro a b q r f at_ other
    obtain ⟨_, _, rfl⟩ | ⟨_, before⟩ := holds other
    · exact Nat.lt_irrefl _ (inv.found_old (shown at_))
    · exact inv.found_mapped (shown at_) before
  · intro q
    by_cases same : q = p
    · have none_ : s.given p = 0 := inv.given_none unframed fun a f at_ => by
        have again : (s.stage a).wants = some p := by rw [at_, Stage.wants]
        obtain rfl := inv.single wants again
        rw [missing] at at_
        cases at_
      refine Nat.le_of_eq ?_
      change Function.update s.given p (s.given p + 1) q = 1
      rw [same, Function.update_self, none_]
    · change Function.update s.given p (s.given p + 1) q ≤ 1
      rw [Function.update_of_ne same]
      exact inv.given_one q
  · intro q unframed' none_
    have other : q ≠ p := by
      rintro rfl
      exact none_ task s.next (set_stage_self s task _)
    change Function.update s.given p (s.given p + 1) q = 0
    rw [Function.update_of_ne other]
    refine inv.given_none unframed' fun a f at_ => ?_
    by_cases same : a = task
    · rw [same, missing] at at_
      cases at_
    · exact none_ a f ((set_stage_other s same _).trans at_)

omit [DecidableEq T] [DecidableEq C] [DecidableEq O] in
theorem set_frame_elim {p q : P} {frame : Option Nat} {f : Nat} (at_ : (s.setFrame p frame).frame q = some f) :
    q = p ∧ frame = some f ∨ q ≠ p ∧ s.frame q = some f := by
  change Function.update s.frame p frame q = some f at at_
  by_cases same : q = p
  · rw [same, Function.update_self] at at_
    exact .inl ⟨same, at_⟩
  · rw [Function.update_of_ne same] at at_
    exact .inr ⟨same, at_⟩

omit [DecidableEq T] [DecidableEq C] [DecidableEq O] in
theorem set_frame_kept (inv : Inv s) {p q : P} {frame : Option Nat} {f : Nat} {o : O} {v : V}
    (framed : (s.setFrame p frame).frame q = some f) (stored : (s.setFrame p frame).last q o = some v) :
    (s.setFrame p frame).memory f o = v := by
  change Function.update s.last p (fun _ => none) q o = some v at stored
  obtain ⟨same, _⟩ | ⟨other, before⟩ := set_frame_elim framed
  · rw [same, Function.update_self] at stored
    cases stored
  · rw [Function.update_of_ne other] at stored
    exact inv.kept before stored

omit [DecidableEq P] [DecidableEq T] [DecidableEq C] in
theorem after_map_wants (p q : P) (task : Task T C) : (afterMap p task).wants ≠ some q := by
  cases task with
  | fault t =>
      intro at_
      cases at_
  | copy c =>
      intro at_
      cases at_

omit [DecidableEq P] [DecidableEq T] [DecidableEq C] in
theorem after_map_bare (p q : P) (f : Nat) (task : Task T C) : afterMap p task ≠ .allocated q f ∧ afterMap p task ≠ .found q f := by
  cases task with
  | fault t =>
      refine ⟨fun at_ => ?_, fun at_ => ?_⟩
      · cases at_
      · cases at_
  | copy c =>
      refine ⟨fun at_ => ?_, fun at_ => ?_⟩
      · cases at_
      · cases at_

-- The frame a task has allocated is put into the page table.
omit [DecidableEq O] in
theorem map_inv (inv : Inv s) {task : Task T C} {p : P} {frame : Nat} (held : s.stage task = .allocated p frame) :
    Inv ((s.setFrame p (some frame)).setStage task (afterMap p task)) := by
  have wants : (s.stage task).wants = some p := by rw [held, Stage.wants]
  have holds : ∀ {a q f}, ((s.setFrame p (some frame)).setStage task (afterMap p task)).stage a = .allocated q f →
      a ≠ task ∧ s.stage a = .allocated q f := by
    intro a q f at_
    obtain ⟨_, here⟩ | before := set_stage_elim (· = .allocated q f) at_
    · exact absurd here (after_map_bare p q f task).1
    · exact before
  have shown : ∀ {a q f}, ((s.setFrame p (some frame)).setStage task (afterMap p task)).stage a = .found q f →
      s.stage a = .found q f := by
    intro a q f at_
    obtain ⟨_, here⟩ | ⟨_, before⟩ := set_stage_elim (· = .found q f) at_
    · exact absurd here (after_map_bare p q f task).2
    · exact before
  have wanting : ∀ {a q}, (((s.setFrame p (some frame)).setStage task (afterMap p task)).stage a).wants = some q →
      a ≠ task ∧ (s.stage a).wants = some q := by
    intro a q at_
    obtain ⟨_, here⟩ | before := set_stage_elim (·.wants = some q) at_
    · exact absurd here (after_map_wants p q task)
    · exact before
  refine ⟨fun first second => inv.single (wanting first).2 (wanting second).2, ?_, ?_, fun at_ => inv.allocated_old (holds at_).2,
    fun at_ => inv.found_old (shown at_), ?_, ?_, fun first second => inv.allocated_single (holds first).2 (holds second).2, ?_,
    fun at_ other => inv.found_mapped (shown at_) (holds other).2, inv.given_one, ?_, fun framed stored => set_frame_kept inv framed stored⟩
  · intro a q at_
    obtain ⟨other, before⟩ := wanting at_
    have apart : q ≠ p := by
      rintro rfl
      exact other (inv.single before wants)
    change Function.update s.frame p (some frame) q = none
    rw [Function.update_of_ne apart]
    exact inv.absent before
  · intro q f framed
    obtain ⟨_, same⟩ | ⟨_, before⟩ := set_frame_elim framed
    · rw [← Option.some.inj same]
      exact inv.allocated_old held
    · exact inv.old before
  · intro q r f first second
    obtain ⟨sameQ, new⟩ | ⟨_, before⟩ := set_frame_elim first
    · obtain ⟨sameR, _⟩ | ⟨_, before'⟩ := set_frame_elim second
      · rw [sameQ, sameR]
      · rw [← Option.some.inj new] at before'
        exact absurd before' (inv.allocated_apart held)
    · obtain ⟨_, new⟩ | ⟨_, before'⟩ := set_frame_elim second
      · rw [← Option.some.inj new] at before
        exact absurd before (inv.allocated_apart held)
      · exact inv.apart before before'
  · intro a q r f at_ framed
    obtain ⟨other, before⟩ := holds at_
    obtain ⟨_, new⟩ | ⟨_, framed'⟩ := set_frame_elim framed
    · rw [← Option.some.inj new] at before
      exact other (inv.allocated_single before held)
    · exact inv.allocated_apart before framed'
  · intro a q r f at_ framed
    obtain ⟨_, new⟩ | ⟨_, framed'⟩ := set_frame_elim framed
    · have found := shown at_
      rw [← Option.some.inj new] at found
      exact absurd held (inv.found_mapped found)
    · exact inv.found_apart (shown at_) framed'
  · intro q unframed none_
    have other : q ≠ p := by
      rintro rfl
      change Function.update s.frame q (some frame) q = none at unframed
      rw [Function.update_self] at unframed
      cases unframed
    change Function.update s.frame p (some frame) q = none at unframed
    rw [Function.update_of_ne other] at unframed
    refine inv.given_none unframed fun a f at_ => ?_
    by_cases same : a = task
    · rw [same, held] at at_
      exact other (Stage.allocated.inj at_).1.symm
    · exact none_ a f ((set_stage_other _ same _).trans at_)

omit [DecidableEq T] [DecidableEq C] in
theorem write_inv (inv : Inv s) {p : P} {frame : Nat} (owner : ∀ q, s.frame q = some frame → q = p) (o : O) (v : V) :
    Inv (s.write p frame o v) := by
  refine ⟨inv.single, inv.absent, inv.old, inv.allocated_old, inv.found_old, inv.apart, inv.allocated_apart, inv.allocated_single,
    inv.found_apart, inv.found_mapped, inv.given_one, inv.given_none, ?_⟩
  intro q f o' v' framed stored
  change s.frame q = some f at framed
  change (if s.frame p = some frame then Function.update s.last p (Function.update (s.last p) o (some v)) else s.last) q o' = some v'
    at stored
  change Function.update s.memory frame (Function.update (s.memory frame) o v) f o' = v'
  by_cases here : f = frame
  · subst here
    obtain rfl := owner q framed
    rw [if_pos framed, Function.update_self] at stored
    rw [Function.update_self]
    by_cases offset : o' = o
    · rw [offset, Function.update_self, Option.some.injEq] at stored
      rw [offset, Function.update_self, stored]
    · rw [Function.update_of_ne offset] at stored ⊢
      exact inv.kept framed stored
  · rw [Function.update_of_ne here]
    refine inv.kept framed ?_
    by_cases owned : s.frame p = some frame
    · have other : q ≠ p := by
        rintro rfl
        exact here (Option.some.inj (framed.symm.trans owned))
      rwa [if_pos owned, Function.update_of_ne other] at stored
    · rwa [if_neg owned] at stored

omit [DecidableEq T] [DecidableEq C] [DecidableEq O] in
theorem unmap_inv (inv : Inv s) (p : P) :
    Inv { s.setFrame p none with dynamic := Function.update s.dynamic p false, given := Function.update s.given p 0 } := by
  have framed : ∀ {q f}, (s.setFrame p none).frame q = some f → s.frame q = some f := by
    intro q f at_
    obtain ⟨_, new⟩ | ⟨_, before⟩ := set_frame_elim at_
    · cases new
    · exact before
  refine ⟨inv.single, ?_, fun at_ => inv.old (framed at_), inv.allocated_old, inv.found_old,
    fun first second => inv.apart (framed first) (framed second), fun at_ framed' => inv.allocated_apart at_ (framed framed'),
    inv.allocated_single, fun at_ framed' => inv.found_apart at_ (framed framed'), inv.found_mapped, ?_, ?_,
    fun framed' stored => set_frame_kept inv framed' stored⟩
  · intro a q at_
    change Function.update s.frame p none q = none
    by_cases same : q = p
    · rw [same, Function.update_self]
    · rw [Function.update_of_ne same]
      exact inv.absent at_
  · intro q
    change Function.update s.given p 0 q ≤ 1
    by_cases same : q = p
    · rw [same, Function.update_self]
      exact Nat.zero_le _
    · rw [Function.update_of_ne same]
      exact inv.given_one q
  · intro q unframed none_
    change Function.update s.frame p none q = none at unframed
    change Function.update s.given p 0 q = 0
    by_cases same : q = p
    · rw [same, Function.update_self]
    · rw [Function.update_of_ne same] at unframed ⊢
      exact inv.given_none unframed none_

-- The task is between pages, or has just found one in place.
omit [DecidableEq P] [DecidableEq O] in
theorem set_idle_inv (inv : Inv s) {task : Task T C} (loose : ∀ p f, s.stage task ≠ .allocated p f) :
    Inv (s.setStage task .idle) := by
  refine set_stage_inv inv loose (fun p f at_ => ?_) (fun p at_ => ?_) (fun p f at_ => ?_)
  · cases at_
  · cases at_
  · cases at_

omit [DecidableEq P] [DecidableEq O] in
theorem set_found_inv (inv : Inv s) {task : Task T C} (loose : ∀ p f, s.stage task ≠ .allocated p f) {p : P} {frame : Nat}
    (framed : s.frame p = some frame) : Inv (s.setStage task (.found p frame)) := by
  refine set_stage_inv inv loose (fun p f at_ => ?_) (fun p at_ => ?_) (fun q f at_ => ?_)
  · cases at_
  · cases at_
  · obtain ⟨rfl, rfl⟩ := Stage.found.inj at_
    exact ⟨inv.old framed, fun q framed' => inv.apart framed' framed, fun a q held => inv.allocated_apart held framed⟩

omit [DecidableEq P] [DecidableEq O] in
theorem set_missing_inv (inv : Inv s) {task : Task T C} (loose : ∀ p f, s.stage task ≠ .allocated p f) {p : P}
    (unframed : s.frame p = none) (alone : ∀ other, other ≠ task → (s.stage other).wants ≠ some p) :
    Inv (s.setStage task (.missing p)) := by
  refine set_stage_inv inv loose (fun p f at_ => ?_) (fun q at_ => ?_) (fun q f at_ => ?_)
  · cases at_
  · obtain rfl : p = q := Option.some.inj at_
    exact ⟨unframed, alone⟩
  · cases at_

-- What a step does to the page table: it maps a page that a task has a frame for, unmaps one,
-- or leaves it alone.
theorem step_frames {action : Action T C P O V} {s' : State T C P O V} (taken : step action s = some s') :
    s'.frame = s.frame ∨ (∃ task p f, action = .map task ∧ s.stage task = .allocated p f ∧
      s'.frame = Function.update s.frame p (some f)) ∨ ∃ p, action = .unmap p ∧ s'.frame = Function.update s.frame p none := by
  cases action with
  | touch t p =>
      rw [step] at taken
      split at taken
      · exact .inl (Option.some.inj taken ▸ rfl)
      · cases taken
  | look c p =>
      rw [step] at taken
      split at taken
      · split at taken
        · exact .inl (Option.some.inj taken ▸ rfl)
        · exact .inl (Option.some.inj taken ▸ rfl)
      · cases taken
  | allocate task =>
      rw [step.eq_def] at taken
      dsimp only at taken
      split at taken
      · split at taken
        · exact .inl (Option.some.inj taken ▸ rfl)
        · cases task with
          | fault t => cases taken
          | copy c => exact .inl (Option.some.inj taken ▸ rfl)
      · cases taken
  | map task =>
      rw [step] at taken
      split at taken
      · rename_i p f held
        exact .inr (.inl ⟨task, p, f, rfl, held, Option.some.inj taken ▸ rfl⟩)
      · cases taken
  | lookAgain c =>
      rw [step] at taken
      split at taken
      · obtain ⟨frame, _, rfl⟩ := Option.map_eq_some_iff.mp taken
        exact .inl rfl
      · cases taken
  | copyByte c o v =>
      rw [step] at taken
      split at taken
      · exact .inl (Option.some.inj taken ▸ rfl)
      · cases taken
  | finish c =>
      rw [step] at taken
      split at taken
      · exact .inl (Option.some.inj taken ▸ rfl)
      · cases taken
  | store p o v =>
      rw [step] at taken
      obtain ⟨frame, _, rfl⟩ := Option.map_eq_some_iff.mp taken
      exact .inl rfl
  | region p => exact .inl (Option.some.inj taken ▸ rfl)
  | unmap p => exact .inr (.inr ⟨p, rfl, Option.some.inj taken ▸ rfl⟩)

theorem step_inv {action : Action T C P O V} {s' : State T C P O V} (inv : Inv s) (alone : Alone action s)
    (taken : step action s = some s') : Inv s' := by
  have loose : ∀ {task : Task T C} {stage : Stage P}, s.stage task = stage → (∀ p f, stage ≠ .allocated p f) →
      ∀ p f, s.stage task ≠ .allocated p f := fun at_ bare p f => at_ ▸ bare p f
  cases action with
  | touch t p =>
      rw [step] at taken
      split at taken
      · rename_i ready
        obtain rfl := Option.some.inj taken
        exact set_missing_inv inv (loose ready.1 fun _ _ at_ => by cases at_) ready.2 alone
      · cases taken
  | look c p =>
      rw [step] at taken
      split at taken
      · rename_i ready
        split at taken
        · rename_i unframed
          obtain rfl := Option.some.inj taken
          exact set_missing_inv inv (loose ready fun _ _ at_ => by cases at_) unframed (alone unframed)
        · rename_i frame framed
          obtain rfl := Option.some.inj taken
          exact set_found_inv inv (loose ready fun _ _ at_ => by cases at_) framed
      · cases taken
  | allocate task =>
      rw [step.eq_def] at taken
      dsimp only at taken
      split at taken
      · rename_i p missing
        split at taken
        · obtain rfl := Option.some.inj taken
          exact allocate_inv inv missing
        · cases task with
          | fault t => cases taken
          | copy c =>
              obtain rfl := Option.some.inj taken
              exact set_idle_inv inv (loose missing fun _ _ at_ => by cases at_)
      · cases taken
  | map task =>
      rw [step] at taken
      split at taken
      · rename_i p f held
        obtain rfl := Option.some.inj taken
        exact map_inv inv held
      · cases taken
  | lookAgain c =>
      rw [step] at taken
      split at taken
      · rename_i p mapped
        obtain ⟨frame, framed, rfl⟩ := Option.map_eq_some_iff.mp taken
        exact set_found_inv inv (loose mapped fun _ _ at_ => by cases at_) framed
      · cases taken
  | copyByte c o v =>
      rw [step] at taken
      split at taken
      · rename_i p f found
        obtain rfl := Option.some.inj taken
        exact write_inv inv (fun q framed => inv.found_apart found framed) o v
      · cases taken
  | finish c =>
      rw [step] at taken
      split at taken
      · rename_i p f found
        obtain rfl := Option.some.inj taken
        exact set_idle_inv inv (loose found fun _ _ at_ => by cases at_)
      · cases taken
  | store p o v =>
      rw [step] at taken
      obtain ⟨frame, framed, rfl⟩ := Option.map_eq_some_iff.mp taken
      exact write_inv inv (fun q framed' => inv.apart framed' framed) o v
  | region p =>
      obtain rfl := Option.some.inj taken
      exact ⟨inv.single, inv.absent, inv.old, inv.allocated_old, inv.found_old, inv.apart, inv.allocated_apart,
        inv.allocated_single, inv.found_apart, inv.found_mapped, inv.given_one, inv.given_none, inv.kept⟩
  | unmap p =>
      obtain rfl := Option.some.inj taken
      exact unmap_inv inv p

omit [DecidableEq T] [DecidableEq C] [DecidableEq P] [DecidableEq O] in
theorem start_inv (first : Starts s) : Inv s := by
  obtain ⟨idle, unframed, given, unstored⟩ := first
  refine ⟨?_, fun _ => unframed _, ?_, ?_, ?_, ?_, ?_, ?_, ?_, ?_, fun p => given p ▸ Nat.zero_le _, fun _ _ => given _, ?_⟩
  · intro a b p at_
    rw [idle a] at at_
    cases at_
  · intro p f at_
    rw [unframed p] at at_
    cases at_
  · intro a p f at_
    rw [idle a] at at_
    cases at_
  · intro a p f at_
    rw [idle a] at at_
    cases at_
  · intro p q f at_
    rw [unframed p] at at_
    cases at_
  · intro a p q f at_
    rw [idle a] at at_
    cases at_
  · intro a b p q f at_
    rw [idle a] at at_
    cases at_
  · intro a p q f at_
    rw [idle a] at at_
    cases at_
  · intro a b p q f at_
    rw [idle a] at at_
    cases at_
  · intro p f o v at_
    rw [unframed p] at at_
    cases at_

end Steps

-- No frame that a page has is replaced, a page is given at most one, and what was stored to it
-- is there.
def Keeps (s : State T C P O V) : Prop :=
  (∀ p, s.given p ≤ 1) ∧ (∀ p f o v, s.frame p = some f → s.last p o = some v → s.memory f o = v) ∧
    ∀ action s', step action s = some s' → ∀ p f, s.frame p = some f → s'.frame p = some f ∨ action = .unmap p

theorem backed_pages_kept {s : State T C P O V} (reach : ReachableUnder Starts step Alone s) : Keeps s := by
  have inv : Inv s := reachable_under_invariant (fun _ => start_inv) (fun _ _ _ inv alone taken => step_inv inv alone taken) reach
  refine ⟨inv.given_one, fun p f o v => inv.kept, fun action s' taken p f framed => ?_⟩
  obtain same | ⟨task, q, g, _, held, mapped⟩ | ⟨q, rfl, removed⟩ := step_frames taken
  · exact .inl (same ▸ framed)
  · have other : p ≠ q := by
      rintro rfl
      have unframed := inv.absent (show (s.stage task).wants = some p by rw [held, Stage.wants])
      rw [framed] at unframed
      cases unframed
    refine .inl ?_
    rw [mapped, Function.update_of_ne other]
    exact framed
  · by_cases same : p = q
    · exact .inr (by rw [same])
    · refine .inl ?_
      rw [removed, Function.update_of_ne same]
      exact framed

end Model

-- Two threads, one page, nothing mapped.
def fresh : State Bool Unit Unit Unit Nat :=
  { stage := fun _ => .idle, frame := fun _ => none, dynamic := fun _ => false, next := 0, memory := fun _ _ => 0,
    given := fun _ => 0, last := fun _ _ => none }

theorem fresh_starts : Starts fresh := ⟨fun _ => rfl, fun _ => rfl, fun _ => rfl, fun _ _ => rfl⟩

-- One thread faults, is given a frame and stores to the page.
theorem backed_pages_kept_touched : ∃ s : State Bool Unit Unit Unit Nat, ReachableUnder Starts step Alone s ∧
    s.frame () = some 0 ∧ s.last () () = some 7 ∧ Keeps s := by
  have start : ReachableUnder Starts step Alone fresh := .start fresh fresh_starts
  have region := ReachableUnder.step _ _ (.region ()) start (by trivial) rfl
  have touched := ReachableUnder.step _ _ (.touch false ()) region (by intro _ _ wants; cases wants) rfl
  have allocated := ReachableUnder.step _ _ (.allocate (.fault false)) touched (by trivial) rfl
  have mapped := ReachableUnder.step _ _ (.map (.fault false)) allocated (by trivial) rfl
  have stored := ReachableUnder.step _ _ (.store () () 7) mapped (by trivial) rfl
  exact ⟨_, stored, rfl, rfl, backed_pages_kept stored⟩

-- Both threads fault before either fault is handled. The first is resolved and the page written;
-- the second fault then allocates another frame, which replaces the one with the store in it.
theorem second_fault_replaces : ∃ s s' : State Bool Unit Unit Unit Nat, Reachable Starts step s ∧
    step (.map (.fault true)) s = some s' ∧ s.given () = 2 ∧ s.frame () = some 0 ∧ s.last () () = some 7 ∧ s.memory 0 () = 7 ∧
      s'.frame () = some 1 ∧ s'.memory 1 () = 0 ∧ ¬ Keeps s := by
  have start : Reachable Starts step fresh := .start fresh fresh_starts
  have run := @reachable_execute _ _ _ _ [.region (), .touch false (), .touch true (), .allocate (.fault false),
    .map (.fault false), .store () () 7, .allocate (.fault true)] _ _ start rfl
  refine ⟨_, _, run, rfl, rfl, rfl, rfl, rfl, rfl, rfl, fun keeps => ?_⟩
  exact absurd (keeps.1 ()) (by decide)

end Elysium.Demand
