import Mathlib.Data.List.Nodup
import Elysium.InterruptsYield

set_option autoImplicit false

namespace Elysium.Interrupts

open Transitions (Reachable reachable_invariant execute reachable_execute)

-- dw_process has found the list empty and not yet lowered the status.
def Op.closes : Op → Bool
  | .enableRead .process | .enableDec .process _ => true
  | _ => false

-- An item is pushed while dw_process is about to return and no other is under way.
def Stranded {T : Type} (s : State T) : Action T → Bool
  | .run _ =>
      match s.code with
      | .push _ :: rest => rest.any Op.closes && !rest.any Op.processes
      | _ => false
  | .interrupt _ => false

-- Steps of a handler, of deferred work and of the section of a spinlock.
def Op.busy : Op → Bool
  | .inc | .decRead | .exchange | .decrement _ _ | .yieldMask | .yieldSwitch | .interrupts _ | .body false => false
  | _ => true

def ranOf (log : List Event) : List Item := log.filterMap fun event => match event with
  | .ran item => some item
  | .cleaned _ => none

def cleanedOf (log : List Event) : List Item := log.filterMap fun event => match event with
  | .ran _ => none
  | .cleaned item => some item

structure Settled {T : Type} (s : State T) : Prop where
  items : s.dwItems = []
  ran : ∀ item ∈ s.queued, (ranOf s.log).count item = 1
  cleaned : ∀ item ∈ s.queued, (cleanedOf s.log).count item = if item.cleanup then 1 else 0

-- When nothing is under way all work has been done; at any time none has been done twice,
-- nor cleaned up before it ran.
structure Worked {T : Type} (s : State T) : Prop where
  settled : s.code.any Op.busy = false → s.deferredWorkStatus = 0 → Settled s
  once : ∀ item, (ranOf s.log).count item ≤ 1
  cleanedOnce : ∀ item, (cleanedOf s.log).count item ≤ if item.cleanup then 1 else 0
  ordered : ∀ before item after, s.log = before ++ .cleaned item :: after → .ran item ∈ before

def runsOf : List Op → List Item
  | [] => []
  | .run item :: rest => item :: runsOf rest
  | _ :: rest => runsOf rest

def cleanupsOf : List Op → List Item
  | [] => []
  | .cleanup item :: rest => item :: cleanupsOf rest
  | _ :: rest => cleanupsOf rest

theorem unworked {code : List Op} (none : worked code = false) :
    runsOf code = [] ∧ cleanupsOf code = [] ∧ code.any Op.processes = false := by
  induction code with
  | nil => exact ⟨rfl, rfl, rfl⟩
  | cons op rest ih =>
      rw [worked, Bool.or_eq_false_iff] at none
      obtain ⟨runs, cleanups, processes⟩ := ih none.2
      cases op <;> simp_all [Op.works, Op.processes, runsOf, cleanupsOf]

theorem unworked_of_settled {code : List Op} (shaped : Shaped code) (settled : preemptOwed code = 0) : worked code = false := by
  by_contra works
  have := (shaped_held shaped).works (by simpa using works)
  omega

section Work

variable {T : Type} [DecidableEq T] {s s' : State T}

def timelyStep (action : Action T) (s : State T) : Option (State T) := if Stranded s action then none else step action s

-- Items that wait are with a dw_process that has still to look, or with a
-- dw_status_enable that will be the last.
def Served (s : State T) : Prop :=
  s.dwItems ≠ [] → s.code.any Op.processes = true ∨ 0 < s.deferredWorkStatus ∧ s.code.any Op.closes = false

structure Accounted (s : State T) : Prop where
  runs : (s.dwItems ++ runsOf s.code ++ ranOf s.log).Perm s.queued
  cleanups : (cleanupsOf s.code ++ cleanedOf s.log).Perm ((ranOf s.log).filter Item.cleanup)
  numbered : s.queued.map Item.id = List.range s.queued.length
  ordered : ∀ before item after, s.log = before ++ .cleaned item :: after → .ran item ∈ before

-- A step that has nothing to do with deferred work.
structure Apart (s s' : State T) : Prop where
  items : s'.dwItems = s.dwItems
  queued : s'.queued = s.queued
  log : s'.log = s.log
  status : s.deferredWorkStatus ≤ s'.deferredWorkStatus
  processes : s'.code.any Op.processes = s.code.any Op.processes
  closes : s'.code.any Op.closes = s.code.any Op.closes
  runs : runsOf s'.code = runsOf s.code
  cleanups : cleanupsOf s'.code = cleanupsOf s.code

omit [DecidableEq T] in
theorem apart_served (apart : Apart s s') (served : Served s) : Served s' := by
  intro waiting
  rw [apart.items] at waiting
  rw [apart.processes, apart.closes]
  cases served waiting with
  | inl looks => exact .inl looks
  | inr last => exact .inr ⟨Nat.lt_of_lt_of_le last.1 apart.status, last.2⟩

omit [DecidableEq T] in
theorem apart_accounted (apart : Apart s s') (accounted : Accounted s) : Accounted s' := by
  refine ⟨?_, ?_, ?_, ?_⟩
  · rw [apart.items, apart.runs, apart.log, apart.queued]
    exact accounted.runs
  · rw [apart.cleanups, apart.log]
    exact accounted.cleanups
  · rw [apart.queued]
    exact accounted.numbered
  · rw [apart.log]
    exact accounted.ordered

def Op.special : Op → Bool
  | .push _ | .test | .pop _ | .run _ | .cleanup _ | .enableDec _ _ | .yieldSwitch => true
  | _ => false

omit [DecidableEq T] in
theorem fail_apart : Apart s s.fail := ⟨rfl, rfl, rfl, Nat.le_refl _, rfl, rfl, rfl, rfl⟩

omit [DecidableEq T] in
theorem body_apart {choice : Choice T} {work : Bool} {rest : List Op} (here : s.code = .body work :: rest)
    (taken : runBody s work rest choice = some s') : Apart s s' := by
  cases choice with
  | finish =>
      simp only [runBody, Option.ite_none_left_eq_some, Option.some.injEq] at taken
      obtain ⟨_, rfl⟩ := taken
      exact ⟨rfl, rfl, rfl, Nat.le_refl _, here ▸ rfl, here ▸ rfl, here ▸ rfl, here ▸ rfl⟩
  | pair =>
      cases taken
      exact ⟨rfl, rfl, rfl, Nat.le_refl _, here ▸ rfl, here ▸ rfl, here ▸ rfl, here ▸ rfl⟩
  | lockNodw =>
      cases taken
      exact ⟨rfl, rfl, rfl, Nat.le_refl _, here ▸ rfl, here ▸ rfl, here ▸ rfl, here ▸ rfl⟩
  | lockNoint =>
      cases taken
      exact ⟨rfl, rfl, rfl, Nat.le_refl _, here ▸ rfl, here ▸ rfl, here ▸ rfl, here ▸ rfl⟩
  | setYield =>
      simp only [runBody, Option.ite_none_right_eq_some, Option.some.injEq] at taken
      obtain ⟨_, rfl⟩ := taken
      exact ⟨rfl, rfl, rfl, Nat.le_refl _, here ▸ rfl, here ▸ rfl, here ▸ rfl, here ▸ rfl⟩
  | queue _ => cases taken
  | switch _ => cases taken

theorem op_apart {choice : Choice T} {op : Op} {rest : List Op} (here : s.code = op :: rest) (plain : op.special = false)
    (taken : runOp s choice rest op = some s') : Apart s s' := by
  cases op with
  | inc =>
      simp only [runOp] at taken
      split at taken
      · cases taken
        exact ⟨rfl, rfl, rfl, Nat.le_refl _, here ▸ rfl, here ▸ rfl, here ▸ rfl, here ▸ rfl⟩
      · cases taken
        exact fail_apart
  | decRead =>
      simp only [runOp] at taken
      split at taken
      · cases taken
        exact fail_apart
      · split at taken
        · cases taken
          exact ⟨rfl, rfl, rfl, Nat.le_refl _, here ▸ rfl, here ▸ rfl, here ▸ rfl, here ▸ rfl⟩
        · cases taken
          exact ⟨rfl, rfl, rfl, Nat.le_refl _, here ▸ rfl, here ▸ rfl, here ▸ rfl, here ▸ rfl⟩
  | exchange =>
      cases taken
      exact ⟨rfl, rfl, rfl, Nat.le_refl _, here ▸ rfl, here ▸ rfl, here ▸ rfl, here ▸ rfl⟩
  | decrement last yield =>
      cases taken
      cases yield with
      | false => exact ⟨rfl, rfl, rfl, Nat.le_refl _, here ▸ rfl, here ▸ rfl, here ▸ rfl, here ▸ rfl⟩
      | true => exact ⟨rfl, rfl, rfl, Nat.le_refl _, here ▸ rfl, here ▸ rfl, here ▸ rfl, here ▸ rfl⟩
  | yieldMask =>
      simp only [runOp] at taken
      split at taken
      · cases taken
        exact ⟨rfl, rfl, rfl, Nat.le_refl _, here ▸ rfl, here ▸ rfl, here ▸ rfl, here ▸ rfl⟩
      · cases taken
        exact fail_apart
  | yieldSwitch => cases plain
  | interrupts enabled =>
      cases taken
      exact ⟨rfl, rfl, rfl, Nat.le_refl _, here ▸ rfl, here ▸ rfl, here ▸ rfl, here ▸ rfl⟩
  | disable =>
      simp only [runOp] at taken
      split at taken
      · cases taken
        exact ⟨rfl, rfl, rfl, Nat.le_succ _, here ▸ rfl, here ▸ rfl, here ▸ rfl, here ▸ rfl⟩
      · cases taken
        exact fail_apart
  | enableRead caller =>
      simp only [runOp] at taken
      split at taken
      · cases taken
        exact fail_apart
      · cases taken
        cases caller <;> exact ⟨rfl, rfl, rfl, Nat.le_refl _, here ▸ rfl, here ▸ rfl, here ▸ rfl, here ▸ rfl⟩
  | enableDec caller last => cases plain
  | push cleanup => cases plain
  | loop =>
      cases taken
      exact ⟨rfl, rfl, rfl, Nat.le_refl _, here ▸ rfl, here ▸ rfl, here ▸ rfl, here ▸ rfl⟩
  | test => cases plain
  | popMask =>
      cases taken
      exact ⟨rfl, rfl, rfl, Nat.le_refl _, here ▸ rfl, here ▸ rfl, here ▸ rfl, here ▸ rfl⟩
  | pop enabled => cases plain
  | run item => cases plain
  | cleanup item => cases plain
  | hardEnter =>
      cases taken
      exact ⟨rfl, rfl, rfl, Nat.le_refl _, here ▸ rfl, here ▸ rfl, here ▸ rfl, here ▸ rfl⟩
  | hard =>
      cases choice with
      | finish =>
          cases taken
          exact ⟨rfl, rfl, rfl, Nat.le_refl _, here ▸ rfl, here ▸ rfl, here ▸ rfl, here ▸ rfl⟩
      | queue cleanup =>
          cases taken
          exact ⟨rfl, rfl, rfl, Nat.le_refl _, here ▸ rfl, here ▸ rfl, here ▸ rfl, here ▸ rfl⟩
      | pair => cases taken
      | lockNodw => cases taken
      | lockNoint => cases taken
      | setYield => cases taken
      | switch _ => cases taken
  | hardLeave =>
      cases taken
      exact ⟨rfl, rfl, rfl, Nat.le_refl _, here ▸ rfl, here ▸ rfl, here ▸ rfl, here ▸ rfl⟩
  | softEnter =>
      cases taken
      exact ⟨rfl, rfl, rfl, Nat.le_refl _, here ▸ rfl, here ▸ rfl, here ▸ rfl, here ▸ rfl⟩
  | softLeave =>
      cases taken
      exact ⟨rfl, rfl, rfl, Nat.le_refl _, here ▸ rfl, here ▸ rfl, here ▸ rfl, here ▸ rfl⟩
  | iret user =>
      simp only [runOp] at taken
      split at taken
      · cases taken
        exact fail_apart
      · cases taken
        exact ⟨rfl, rfl, rfl, Nat.le_refl _, here ▸ rfl, here ▸ rfl, here ▸ rfl, here ▸ rfl⟩
  | body work => exact body_apart here taken

-- The steps of deferred work itself.
theorem op_served {choice : Choice T} {op : Op} {rest : List Op} (counted : Counted s) (served : Served s)
    (here : s.code = op :: rest) (timely : Stranded s (.run choice) = false) (taken : runOp s choice rest op = some s') : Served s' := by
  cases plain : op.special with
  | false => exact apart_served (op_apart here plain taken) served
  | true =>
      obtain ⟨shaped, preempt, status⟩ := counted_head counted here
      cases op with
      | push cleanup =>
          cases taken
          have relies : 1 ≤ statusOwed rest := (shaped_cons.mp shaped).2.1
          simp only [Op.status] at status
          simp only [Stranded, here] at timely
          intro _
          cases looks : rest.any Op.processes with
          | true => exact .inl looks
          | false =>
              rw [looks, Bool.not_false, Bool.and_true] at timely
              refine .inr ⟨?_, timely⟩
              show 0 < s.deferredWorkStatus
              omega
      | test =>
          simp only [runOp] at taken
          split at taken
          · cases taken
            exact fun waiting => absurd ‹s.dwItems = []› waiting
          · cases taken
            exact fun _ => .inl rfl
      | pop enabled =>
          simp only [runOp] at taken
          split at taken
          · cases taken
            exact served
          · cases taken
            exact fun _ => .inl rfl
      | run item =>
          cases taken
          intro waiting
          have before := served waiting
          rw [here] at before
          simp only [State.goto]
          cases item.cleanup with
          | false => exact before
          | true => exact before
      | cleanup item =>
          cases taken
          intro waiting
          have before := served waiting
          rw [here] at before
          exact before
      | enableDec caller last =>
          have relies := (shaped_cons.mp shaped).2.1
          have held := (shaped_held (shaped_tail shaped)).status
          simp only [Op.status] at status
          cases taken
          intro waiting
          have before := served waiting
          rw [here] at before
          cases caller with
          | status =>
              cases last with
              | true => exact .inl rfl
              | false =>
                  cases before with
                  | inl looks => exact .inl looks
                  | inr open_ =>
                      have more : statusOwed rest ≠ 0 := fun zero => by cases relies.mpr zero
                      refine .inr ⟨?_, open_.2⟩
                      show 0 < s.deferredWorkStatus - 1
                      omega
          | queue =>
              have relies : 1 ≤ statusOwed rest := relies
              cases before with
              | inl looks => exact .inl looks
              | inr open_ =>
                  refine .inr ⟨?_, open_.2⟩
                  show 0 < s.deferredWorkStatus - 1
                  omega
          | process =>
              cases before with
              | inl looks => exact .inl looks
              | inr open_ => cases open_.2
      | yieldSwitch =>
          -- Nothing waits when a thread is switched away.
          have settled : preemptOwed rest = 0 := (shaped_cons.mp shaped).2.1
          have held := shaped_held (shaped_tail shaped)
          have idle := unworked_of_settled (shaped_tail shaped) settled
          have zero := held.guarded
          have positive := held.status
          simp only [Op.status] at status
          have empty : s.dwItems = [] := by
            by_contra waiting
            cases served waiting with
            | inl looks =>
                rw [here, List.any_cons, (unworked idle).2.2] at looks
                cases looks
            | inr last =>
                have := last.1
                omega
          cases choice with
          | switch t =>
              simp only [runOp, runSwitch] at taken
              split at taken
              · cases taken
                exact fun waiting => absurd empty waiting
              · cases taken
                exact fun waiting => absurd empty waiting
          | finish => cases taken
          | pair => cases taken
          | lockNodw => cases taken
          | lockNoint => cases taken
          | setYield => cases taken
          | queue _ => cases taken
      | inc => cases plain
      | decRead => cases plain
      | exchange => cases plain
      | decrement _ _ => cases plain
      | yieldMask => cases plain
      | interrupts _ => cases plain
      | disable => cases plain
      | enableRead _ => cases plain
      | loop => cases plain
      | popMask => cases plain
      | hardEnter => cases plain
      | hard => cases plain
      | hardLeave => cases plain
      | softEnter => cases plain
      | softLeave => cases plain
      | iret _ => cases plain
      | body _ => cases plain

omit [DecidableEq T] in
theorem ordered_append {log : List Event} {event : Event}
    (ordered : ∀ before item after, log = before ++ .cleaned item :: after → .ran item ∈ before)
    (last : ∀ item, event = .cleaned item → .ran item ∈ log) :
    ∀ before item after, log ++ [event] = before ++ .cleaned item :: after → .ran item ∈ before := by
  intro before item after split
  cases List.eq_nil_or_concat after with
  | inl nil =>
      rw [nil] at split
      obtain ⟨rfl, same⟩ := List.append_inj' split rfl
      exact last item (List.head_eq_of_cons_eq same)
  | inr concat =>
      obtain ⟨others, final, rfl⟩ := concat
      have shifted : log ++ [event] = (before ++ .cleaned item :: others) ++ [final] := by simpa using split
      exact ordered before item others (List.append_inj' shifted rfl).1

omit [DecidableEq T] in
theorem mem_ran_of {item : Item} {log : List Event} : item ∈ ranOf log ↔ .ran item ∈ log := by
  rw [ranOf, List.mem_filterMap]
  constructor
  · rintro ⟨event, member, same⟩
    cases event with
    | ran other =>
        cases same
        exact member
    | cleaned other => cases same
  · intro member
    exact ⟨.ran item, member, rfl⟩

theorem ran_of_append (log : List Event) (event : Event) : ranOf (log ++ [event]) = ranOf log ++ ranOf [event] := List.filterMap_append

theorem cleaned_of_append (log : List Event) (event : Event) : cleanedOf (log ++ [event]) = cleanedOf log ++ cleanedOf [event] :=
  List.filterMap_append

theorem op_accounted {choice : Choice T} {op : Op} {rest : List Op} (counted : Counted s) (accounted : Accounted s)
    (here : s.code = op :: rest) (taken : runOp s choice rest op = some s') : Accounted s' := by
  cases plain : op.special with
  | false => exact apart_accounted (op_apart here plain taken) accounted
  | true =>
      obtain ⟨runs, cleanups, numbered, ordered⟩ := accounted
      rw [here] at runs cleanups
      cases op with
      | push cleanup =>
          cases taken
          refine ⟨?_, cleanups, ?_, ordered⟩
          · exact (runs.cons ⟨s.queued.length, cleanup⟩).trans (List.perm_append_singleton _ _).symm
          · simp [numbered, List.range_succ]
      | test =>
          simp only [runOp] at taken
          split at taken
          · cases taken
            exact ⟨runs, cleanups, numbered, ordered⟩
          · cases taken
            exact ⟨runs, cleanups, numbered, ordered⟩
      | pop enabled =>
          simp only [runOp] at taken
          split at taken
          · cases taken
            exact ⟨here ▸ runs, here ▸ cleanups, numbered, ordered⟩
          · rename_i item items waiting
            cases taken
            refine ⟨?_, cleanups, numbered, ordered⟩
            rw [waiting] at runs
            refine List.Perm.trans ?_ runs
            show (items ++ item :: runsOf rest ++ ranOf s.log).Perm (item :: items ++ runsOf rest ++ ranOf s.log)
            simp only [List.append_assoc, List.cons_append]
            exact List.perm_middle
      | run item =>
          cases taken
          have code : runsOf (.body true :: (if item.cleanup = true then [.cleanup item] else []) ++ rest) = runsOf rest := by
            cases item.cleanup with
            | false => rfl
            | true => rfl
          refine ⟨?_, ?_, numbered, ordered_append ordered fun other same => by cases same⟩
          · simp only [State.goto, code, ran_of_append]
            refine List.Perm.trans ?_ runs
            show (s.dwItems ++ runsOf rest ++ (ranOf s.log ++ [item])).Perm (s.dwItems ++ item :: runsOf rest ++ ranOf s.log)
            rw [List.append_assoc, List.append_assoc]
            refine List.Perm.append_left _ ?_
            rw [← List.append_assoc]
            exact List.perm_append_singleton _ _
          · simp only [State.goto, ran_of_append, cleaned_of_append, List.filter_append]
            show (cleanupsOf _ ++ (cleanedOf s.log ++ [])).Perm (_ ++ [item].filter Item.cleanup)
            rw [List.append_nil]
            cases cleans : item.cleanup with
            | false =>
                rw [List.filter_cons_of_neg (by simp [cleans]), List.filter_nil, List.append_nil]
                exact cleanups
            | true =>
                rw [List.filter_cons_of_pos cleans, List.filter_nil]
                exact (cleanups.cons item).trans (List.perm_append_singleton _ _).symm
      | cleanup item =>
          cases taken
          have ran : .ran item ∈ s.log := by
            refine mem_ran_of.mp (List.mem_filter.mp (cleanups.subset ?_)).1
            exact List.mem_append_left _ (List.mem_cons_self ..)
          refine ⟨?_, ?_, numbered, ordered_append ordered fun other same => by cases same; exact ran⟩
          · simp only [State.goto, ran_of_append]
            show (s.dwItems ++ runsOf rest ++ (ranOf s.log ++ [])).Perm s.queued
            rw [List.append_nil]
            exact runs
          · simp only [State.goto, ran_of_append, cleaned_of_append]
            show (cleanupsOf rest ++ (cleanedOf s.log ++ [item])).Perm ((ranOf s.log ++ []).filter Item.cleanup)
            rw [List.append_nil, ← List.append_assoc]
            exact (List.perm_append_singleton _ _).trans cleanups
      | enableDec caller last =>
          cases taken
          have code : runsOf ((if caller = .status ∧ last = true then dwProcess else []) ++ rest) = runsOf rest ∧
              cleanupsOf ((if caller = .status ∧ last = true then dwProcess else []) ++ rest) = cleanupsOf rest := by
            split
            · exact ⟨rfl, rfl⟩
            · exact ⟨rfl, rfl⟩
          refine ⟨?_, ?_, numbered, ordered⟩
          · simp only [State.goto, code.1]
            exact runs
          · simp only [State.goto, code.2]
            exact cleanups
      | yieldSwitch =>
          obtain ⟨shaped, _, _⟩ := counted_head counted here
          have settled : preemptOwed rest = 0 := (shaped_cons.mp shaped).2.1
          have idle := unworked (unworked_of_settled (shaped_tail shaped) settled)
          cases choice with
          | switch t =>
              simp only [runOp, runSwitch] at taken
              split at taken
              · cases taken
                exact ⟨runs, cleanups, numbered, ordered⟩
              · rename_i other
                cases taken
                obtain ⟨started, zero⟩ := counted.saved t other
                have idle' := unworked (unworked_of_settled started zero)
                refine ⟨?_, ?_, numbered, ordered⟩
                · simp only [idle'.1]
                  have runs : (s.dwItems ++ runsOf rest ++ ranOf s.log).Perm s.queued := runs
                  rwa [idle.1] at runs
                · simp only [idle'.2.1]
                  have cleanups : (cleanupsOf rest ++ cleanedOf s.log).Perm ((ranOf s.log).filter Item.cleanup) := cleanups
                  rwa [idle.2.1] at cleanups
          | finish => cases taken
          | pair => cases taken
          | lockNodw => cases taken
          | lockNoint => cases taken
          | setYield => cases taken
          | queue _ => cases taken
      | inc => cases plain
      | decRead => cases plain
      | exchange => cases plain
      | decrement _ _ => cases plain
      | yieldMask => cases plain
      | interrupts _ => cases plain
      | disable => cases plain
      | enableRead _ => cases plain
      | loop => cases plain
      | popMask => cases plain
      | hardEnter => cases plain
      | hard => cases plain
      | hardLeave => cases plain
      | softEnter => cases plain
      | softLeave => cases plain
      | iret _ => cases plain
      | body _ => cases plain

structure Inv (s : State T) : Prop where
  counted : Counted s
  served : Served s
  accounted : Accounted s

theorem timely_step_inv (action : Action T) (s s' : State T) (inv : Inv s) (taken : timelyStep action s = some s') : Inv s' := by
  rw [timelyStep, Option.ite_none_left_eq_some, Bool.not_eq_true] at taken
  obtain ⟨timely, taken⟩ := taken
  obtain ⟨_, ⟨choice, op, rest, rfl, here, run⟩ | ⟨user, _, _, rfl⟩⟩ := step_cases taken
  · exact ⟨op_counted inv.counted here run, op_served inv.counted inv.served here timely run,
      op_accounted inv.counted inv.accounted here run⟩
  · have apart : Apart s { s.goto (handler user ++ s.code) with enabled := false } :=
      ⟨rfl, rfl, rfl, Nat.le_refl _, rfl, rfl, rfl, rfl⟩
    exact ⟨interrupt_counted inv.counted, apart_served apart inv.served, apart_accounted apart inv.accounted⟩

omit [DecidableEq T] in
theorem initial_inv (first : initial s) : Inv s := by
  refine ⟨initial_counted first, fun waiting => absurd first.dwItems waiting, ?_, ?_, ?_, ?_⟩
  · simp [first.dwItems, first.code, first.log, first.queued, runsOf, ranOf]
  · simp [first.code, first.log, cleanupsOf, ranOf, cleanedOf]
  · simp [first.queued]
  · simp [first.log]

omit [DecidableEq T] in
theorem idle_code {code : List Op} (idle : code.any Op.busy = false) : worked code = false := by
  induction code with
  | nil => rfl
  | cons op rest ih =>
      rw [List.any_cons, Bool.or_eq_false_iff] at idle
      rw [worked, ih idle.2, Bool.or_false]
      cases op with
      | body work =>
          cases work with
          | false => rfl
          | true => exact idle.1
      | _ => first | rfl | exact idle.1

omit [DecidableEq T] in
theorem worked_of_inv (inv : Inv s) : Worked s := by
  obtain ⟨counted, served, runs, cleanups, numbered, ordered⟩ := inv
  have distinct : s.queued.Nodup := List.Nodup.of_map Item.id (numbered ▸ List.nodup_range)
  have once : ∀ item, (ranOf s.log).count item ≤ 1 := fun item => by
    have part : (ranOf s.log).count item ≤ (s.dwItems ++ runsOf s.code ++ ranOf s.log).count item :=
      List.Sublist.count_le item (List.sublist_append_right _ _)
    rw [runs.count_eq item] at part
    exact Nat.le_trans part (List.nodup_iff_count_le_one.mp distinct item)
  have filtered : ∀ item, ((ranOf s.log).filter Item.cleanup).count item = if item.cleanup then (ranOf s.log).count item else 0 := by
    intro item
    cases cleans : item.cleanup with
    | true => exact List.count_filter cleans
    | false =>
        refine List.count_eq_zero.mpr fun member => ?_
        simp [cleans] at member
  refine ⟨fun idle zero => ?_, once, fun item => ?_, ordered⟩
  · obtain ⟨noRuns, noCleanups, noProcess⟩ := unworked (idle_code idle)
    have empty : s.dwItems = [] := by
      by_contra waiting
      cases served waiting with
      | inl looks =>
          rw [noProcess] at looks
          cases looks
      | inr last => exact absurd last.1 (by omega)
    rw [empty, noRuns] at runs
    rw [noCleanups] at cleanups
    have ran : ∀ item ∈ s.queued, (ranOf s.log).count item = 1 := fun item member =>
      (runs.count_eq item).trans (List.count_eq_one_of_mem distinct member)
    refine ⟨empty, ran, fun item member => ?_⟩
    rw [← List.nil_append (cleanedOf s.log), cleanups.count_eq item, filtered, ran item member]
  · have part : (cleanedOf s.log).count item ≤ (cleanupsOf s.code ++ cleanedOf s.log).count item :=
      List.Sublist.count_le item (List.sublist_append_right _ _)
    rw [cleanups.count_eq item, filtered] at part
    cases cleans : item.cleanup with
    | true =>
        rw [cleans] at part
        exact Nat.le_trans part (once item)
    | false =>
        rw [cleans] at part
        exact part

-- As long as no item is pushed while dw_process is about to return, no work is stranded.
theorem work_not_stranded (s : State T) (reach : Reachable initial timelyStep s) : Worked s :=
  worked_of_inv (reachable_invariant (fun _ first => initial_inv first) timely_step_inv reach)

end Work

-- An interrupt queues an item, which its own dw_process runs and cleans up.
theorem work_not_stranded_item : ∃ s, execute timelyStep (next 1 ++ .interrupt false :: next 3 ++ .run (.queue true) :: next 38)
    alone = some s ∧ s.code = [.body false] ∧ s.queued.length = 1 ∧ Worked s := by
  have ends : (execute timelyStep (next 1 ++ .interrupt false :: next 3 ++ .run (.queue true) :: next 38) alone).any
      (fun s => s.code = [.body false] ∧ s.queued.length = 1) = true := by decide +kernel
  obtain ⟨s, run, facts⟩ := (Option.any_eq_true _ _).mp ends
  obtain ⟨code, queued⟩ := of_decide_eq_true facts
  exact ⟨s, run, code, queued, work_not_stranded s (reachable_execute (.start alone alone_initial) run)⟩

-- A second interrupt queues one after the dw_process of the first has found the list empty.
theorem work_stranded : ∃ s : State Unit, Reachable initial step s ∧ s.code = [.body false] ∧ s.deferredWorkStatus = 0 ∧
    s.dwItems.length = 1 ∧ s.log = [] ∧ ¬ Worked s := by
  have left : (execute step (next 1 ++ .interrupt false :: next 13 ++ .interrupt false :: next 3 ++ .run (.queue true) :: next 28) alone).any
      (fun s => s.code = [.body false] ∧ s.deferredWorkStatus = 0 ∧ s.dwItems.length = 1 ∧ s.log = []) = true := by decide +kernel
  obtain ⟨s, run, facts⟩ := (Option.any_eq_true _ _).mp left
  obtain ⟨code, status, items, log⟩ := of_decide_eq_true facts
  refine ⟨s, reachable_execute (.start alone alone_initial) run, code, status, items, log, fun worked => ?_⟩
  have settled := worked.settled (by rw [code]; rfl) status
  rw [settled.items] at items
  cases items

end Elysium.Interrupts
