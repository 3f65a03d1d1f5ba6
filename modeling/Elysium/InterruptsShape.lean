import Elysium.Interrupts

set_option autoImplicit false

namespace Elysium.Interrupts

-- What is left of a call will take this much off the counters, over what it still adds.
def Op.preempt : Op → Int
  | .inc => -1
  | .decRead | .exchange | .decrement _ _ | .test | .popMask | .pop _ => 1
  | _ => 0

def Op.status : Op → Int
  | .disable => -1
  | .enableRead _ | .enableDec _ _ | .loop | .test | .popMask | .pop _ => 1
  | _ => 0

def preemptOwed : List Op → Int
  | [] => 0
  | op :: rest => op.preempt + preemptOwed rest

def statusOwed : List Op → Int
  | [] => 0
  | op :: rest => op.status + statusOwed rest

-- Steps of dw_process before it finds the list empty.
def Op.processes : Op → Bool
  | .loop | .test | .popMask | .pop _ => true
  | _ => false

-- Steps of deferred work.
def Op.works : Op → Bool
  | .loop | .test | .popMask | .pop _ | .run _ | .cleanup _ | .push _ | .body true => true
  | _ => false

def worked : List Op → Bool
  | [] => false
  | op :: rest => op.works || worked rest

-- What a step relies on in the code below it.
def Op.relies (rest : List Op) : Op → Prop
  | .exchange => preemptOwed rest = 0
  | .decrement last yield => (last = true ↔ preemptOwed rest = 0) ∧ (yield = true → last = true)
  | .yieldMask | .yieldSwitch => preemptOwed rest = 0
  | .enableRead .queue => 1 ≤ statusOwed rest
  | .enableDec .queue _ => 1 ≤ statusOwed rest
  | .enableDec .status last => last = true ↔ statusOwed rest = 0
  | .hard | .push _ => 1 ≤ statusOwed rest
  | .test | .popMask | .pop _ => 1 ≤ preemptOwed rest
  | _ => True

structure Held (code : List Op) : Prop where
  preempt : 0 ≤ preemptOwed code
  status : 0 ≤ statusOwed code
  guarded : 1 ≤ statusOwed code → 1 ≤ preemptOwed code
  works : worked code = true → 1 ≤ preemptOwed code

inductive Shaped : List Op → Prop where
  | nil : Shaped []
  | cons (op : Op) (rest : List Op) (held : Held (op :: rest)) (relies : op.relies rest) (tail : Shaped rest) : Shaped (op :: rest)

theorem shaped_held {code : List Op} (shaped : Shaped code) : Held code := by
  cases shaped with
  | nil => exact ⟨by simp [preemptOwed], by simp [statusOwed], by simp [statusOwed], by simp [worked]⟩
  | cons op rest held => exact held

theorem held_iff {op : Op} {rest : List Op} : Held (op :: rest) ↔ 0 ≤ op.preempt + preemptOwed rest ∧ 0 ≤ op.status + statusOwed rest ∧
    (1 ≤ op.status + statusOwed rest → 1 ≤ op.preempt + preemptOwed rest) ∧
    (op.works = true ∨ worked rest = true → 1 ≤ op.preempt + preemptOwed rest) := by
  constructor
  · intro ⟨first, second, third, fourth⟩
    exact ⟨first, second, third, by simpa [preemptOwed, worked] using fourth⟩
  · intro ⟨first, second, third, fourth⟩
    exact ⟨first, second, third, by simpa [preemptOwed, worked] using fourth⟩

theorem shaped_cons {op : Op} {rest : List Op} : Shaped (op :: rest) ↔ (0 ≤ op.preempt + preemptOwed rest ∧ 0 ≤ op.status + statusOwed rest ∧
    (1 ≤ op.status + statusOwed rest → 1 ≤ op.preempt + preemptOwed rest) ∧
    (op.works = true ∨ worked rest = true → 1 ≤ op.preempt + preemptOwed rest)) ∧ op.relies rest ∧ Shaped rest := by
  rw [← held_iff]
  constructor
  · intro shaped
    cases shaped with
    | cons _ _ held relies tail => exact ⟨held, relies, tail⟩
  · intro ⟨held, relies, tail⟩
    exact .cons op rest held relies tail

-- The counters are what the code of the thread owes, and the others owe nothing.
structure Counted {T : Type} (s : State T) : Prop where
  preemptCounter : (s.preemptCounter : Int) = preemptOwed s.code
  status : (s.deferredWorkStatus : Int) = statusOwed s.code
  shaped : Shaped s.code
  saved : ∀ t, t ≠ s.current → Shaped (s.saved t) ∧ preemptOwed (s.saved t) = 0

theorem shaped_tail {op : Op} {rest : List Op} (shaped : Shaped (op :: rest)) : Shaped rest := (shaped_cons.mp shaped).2.2

-- The code that each step leaves, one lemma for each kind of step.
section Steps

variable {rest : List Op}

theorem shaped_pair {work : Bool} (shaped : Shaped (.body work :: rest)) : Shaped ([.inc, .body work, .decRead] ++ .body work :: rest) := by
  cases work <;> simp [shaped_cons, preemptOwed, statusOwed, Op.preempt, Op.status, Op.works, worked, Op.relies] at shaped ⊢ <;> grind

theorem shaped_lock {work : Bool} {after : List Op} (plain : after = [] ∨ ∃ enabled, after = [.interrupts enabled])
    (shaped : Shaped (.body work :: rest)) :
    Shaped ([.inc, .disable, .body work, .enableRead .status, .decRead] ++ after ++ .body work :: rest) := by
  obtain rfl | ⟨enabled, rfl⟩ := plain
  · cases work <;> simp [shaped_cons, preemptOwed, statusOwed, Op.preempt, Op.status, Op.works, worked, Op.relies] at shaped ⊢ <;> grind
  · cases work <;> simp [shaped_cons, preemptOwed, statusOwed, Op.preempt, Op.status, Op.works, worked, Op.relies] at shaped ⊢ <;> grind

theorem shaped_dec_read (shaped : Shaped (.decRead :: rest)) :
    (preemptOwed rest = 0 → Shaped (.exchange :: rest)) ∧ (preemptOwed rest ≠ 0 → Shaped (.decrement false false :: rest)) := by
  simp [shaped_cons, Op.preempt, Op.status, Op.works, Op.relies] at shaped ⊢
  grind

theorem shaped_exchange {yield : Bool} (shaped : Shaped (.exchange :: rest)) : Shaped (.decrement true yield :: rest) := by
  simp [shaped_cons, Op.preempt, Op.status, Op.works, Op.relies] at shaped ⊢
  grind

theorem shaped_decrement {last yield : Bool} (shaped : Shaped (.decrement last yield :: rest)) :
    Shaped ((if yield then schedYield else []) ++ rest) := by
  have held := shaped_held (shaped_tail shaped)
  cases yield with
  | false => exact shaped_tail shaped
  | true =>
      simp [schedYield, shaped_cons, Op.preempt, Op.status, Op.works, Op.relies] at shaped ⊢
      grind [Held]

theorem shaped_yield {enabled : Bool} (shaped : Shaped (.yieldMask :: rest)) :
    Shaped ([.body false, .yieldSwitch, .body false, .interrupts enabled] ++ rest) := by
  simp [shaped_cons, preemptOwed, statusOwed, Op.preempt, Op.status, Op.works, worked, Op.relies] at shaped ⊢
  grind

theorem shaped_enable_read {caller : Caller} (shaped : Shaped (.enableRead caller :: rest)) :
    Shaped (.enableDec caller (statusOwed rest = 0) :: rest) := by
  cases caller <;> simp [shaped_cons, Op.preempt, Op.status, Op.works, Op.relies] at shaped ⊢ <;> grind

theorem shaped_enable_dec {caller : Caller} {last : Bool} (shaped : Shaped (.enableDec caller last :: rest)) :
    Shaped ((if caller = .status ∧ last = true then dwProcess else []) ++ rest) := by
  cases caller <;> cases last <;>
    simp [dwProcess, shaped_cons, preemptOwed, statusOwed, Op.preempt, Op.status, Op.works, worked, Op.relies] at shaped ⊢ <;> grind

theorem shaped_loop (shaped : Shaped (.loop :: rest)) : Shaped (.inc :: .test :: rest) := by
  simp [shaped_cons, preemptOwed, statusOwed, Op.preempt, Op.status, Op.works, worked, Op.relies] at shaped ⊢
  grind

theorem shaped_test (shaped : Shaped (.test :: rest)) :
    Shaped (.decRead :: .enableRead .process :: rest) ∧ Shaped (.popMask :: rest) := by
  simp [shaped_cons, preemptOwed, statusOwed, Op.preempt, Op.status, Op.works, worked, Op.relies] at shaped ⊢
  grind

theorem shaped_pop_mask {enabled : Bool} (shaped : Shaped (.popMask :: rest)) : Shaped (.pop enabled :: rest) := by
  simp [shaped_cons, Op.preempt, Op.status, Op.works, Op.relies] at shaped ⊢
  grind

theorem shaped_pop {enabled : Bool} {item : Item} (shaped : Shaped (.pop enabled :: rest)) :
    Shaped ([.interrupts enabled, .decRead, .run item, .loop] ++ rest) := by
  simp [shaped_cons, preemptOwed, statusOwed, Op.preempt, Op.status, Op.works, worked, Op.relies] at shaped ⊢
  grind

theorem shaped_run {item : Item} (shaped : Shaped (.run item :: rest)) :
    Shaped (.body true :: (if item.cleanup then [.cleanup item] else []) ++ rest) := by
  cases item.cleanup <;>
    simp [shaped_cons, preemptOwed, statusOwed, Op.preempt, Op.status, Op.works, worked, Op.relies] at shaped ⊢ <;> grind

theorem shaped_queue {cleanup : Bool} (shaped : Shaped (.hard :: rest)) : Shaped (dwQueue cleanup ++ .hard :: rest) := by
  simp [dwQueue, shaped_cons, preemptOwed, statusOwed, Op.preempt, Op.status, Op.works, worked, Op.relies] at shaped ⊢
  grind

theorem shaped_handler {user : Bool} {code : List Op} (shaped : Shaped code) : Shaped (handler user ++ code) := by
  have held := shaped_held shaped
  simp [handler, shaped_cons, preemptOwed, statusOwed, Op.preempt, Op.status, Op.works, worked, Op.relies]
  grind [Held]

end Steps

section Counters

variable {T : Type} {s s' : State T} {op : Op} {rest : List Op}

theorem preempt_owed_append (first rest : List Op) : preemptOwed (first ++ rest) = preemptOwed first + preemptOwed rest := by
  induction first with
  | nil => rw [List.nil_append, preemptOwed, Int.zero_add]
  | cons op others ih => rw [List.cons_append, preemptOwed, preemptOwed, ih, Int.add_assoc]

theorem status_owed_append (first rest : List Op) : statusOwed (first ++ rest) = statusOwed first + statusOwed rest := by
  induction first with
  | nil => rw [List.nil_append, statusOwed, Int.zero_add]
  | cons op others ih => rw [List.cons_append, statusOwed, statusOwed, ih, Int.add_assoc]

-- A step that changes the counters by as much as what is owed.
theorem counted_replace (first : List Op) (counted : Counted s) (here : s.code = op :: rest) (code : s'.code = first ++ rest)
    (others : s'.saved = s.saved ∧ s'.current = s.current)
    (preempt : (s'.preemptCounter : Int) + op.preempt = s.preemptCounter + preemptOwed first)
    (status : (s'.deferredWorkStatus : Int) + op.status = s.deferredWorkStatus + statusOwed first)
    (shaped : Shaped (first ++ rest)) : Counted s' := by
  have before := counted.preemptCounter
  have before' := counted.status
  rw [here, preemptOwed] at before
  rw [here, statusOwed] at before'
  refine ⟨?_, ?_, code ▸ shaped, ?_⟩
  · rw [code, preempt_owed_append]
    omega
  · rw [code, status_owed_append]
    omega
  · rw [others.1, others.2]
    exact counted.saved

theorem counted_head (counted : Counted s) (here : s.code = op :: rest) : Shaped (op :: rest) ∧
    (s.preemptCounter : Int) = op.preempt + preemptOwed rest ∧ (s.deferredWorkStatus : Int) = op.status + statusOwed rest := by
  refine ⟨here ▸ counted.shaped, ?_, ?_⟩
  · rw [counted.preemptCounter, here, preemptOwed]
  · rw [counted.status, here, statusOwed]

theorem body_counted {choice : Choice T} {work : Bool} (counted : Counted s) (here : s.code = .body work :: rest)
    (taken : runBody s work rest choice = some s') : Counted s' := by
  have shaped := (counted_head counted here).1
  cases choice with
  | finish =>
      simp only [runBody, Option.ite_none_left_eq_some, Option.some.injEq] at taken
      obtain ⟨_, rfl⟩ := taken
      exact counted_replace [] counted here rfl ⟨rfl, rfl⟩ rfl rfl (shaped_tail shaped)
  | pair =>
      cases taken
      exact counted_replace [.inc, .body work, .decRead, .body work] counted here rfl ⟨rfl, rfl⟩ rfl rfl (shaped_pair shaped)
  | lockNodw =>
      cases taken
      exact counted_replace [.inc, .disable, .body work, .enableRead .status, .decRead, .body work] counted here rfl ⟨rfl, rfl⟩ rfl rfl (shaped_lock (.inl rfl) shaped)
  | lockNoint =>
      cases taken
      exact counted_replace [.inc, .disable, .body work, .enableRead .status, .decRead, .interrupts s.enabled, .body work] counted here rfl ⟨rfl, rfl⟩ rfl rfl (shaped_lock (.inr ⟨_, rfl⟩) shaped)
  | setYield =>
      simp only [runBody, Option.ite_none_right_eq_some, Option.some.injEq] at taken
      obtain ⟨_, rfl⟩ := taken
      exact counted_replace [.body work] counted here rfl ⟨rfl, rfl⟩ rfl rfl shaped
  | queue _ => cases taken
  | switch _ => cases taken

theorem hard_counted {choice : Choice T} (counted : Counted s) (here : s.code = .hard :: rest)
    (taken : runHard s rest choice = some s') : Counted s' := by
  have shaped := (counted_head counted here).1
  cases choice with
  | finish =>
      cases taken
      exact counted_replace [] counted here rfl ⟨rfl, rfl⟩ rfl rfl (shaped_tail shaped)
  | queue cleanup =>
      cases taken
      exact counted_replace (dwQueue cleanup ++ [.hard]) counted here rfl ⟨rfl, rfl⟩ rfl rfl (shaped_queue shaped)
  | pair => cases taken
  | lockNodw => cases taken
  | lockNoint => cases taken
  | setYield => cases taken
  | switch _ => cases taken

variable [DecidableEq T]

-- The thread goes on if it is chosen itself, otherwise another one does where it was.
theorem switch_cases {choice : Choice T} (taken : runSwitch s rest choice = some s') :
    s' = s.goto rest ∨ ∃ t, t ≠ s.current ∧
      s' = { s with saved := Function.update s.saved s.current rest, current := t, code := s.saved t } := by
  cases choice with
  | switch t =>
      rw [runSwitch] at taken
      by_cases same : t = s.current
      · rw [if_pos same, Option.some.injEq] at taken
        exact .inl taken.symm
      · rw [if_neg same, Option.some.injEq] at taken
        exact .inr ⟨t, same, taken.symm⟩
  | finish => cases taken
  | pair => cases taken
  | lockNodw => cases taken
  | lockNoint => cases taken
  | setYield => cases taken
  | queue _ => cases taken

-- What holds of the code of the thread that leaves and of all that were not running.
theorem forall_switched {P : T → List Op → Prop} {t : T} (leaves : P s.current rest) (others : ∀ u, u ≠ s.current → P u (s.saved u))
    (u : T) (_ : u ≠ t) : P u (Function.update s.saved s.current rest u) := by
  by_cases left : u = s.current
  · simpa [left] using leaves
  · simpa [Function.update_of_ne left] using others u left

theorem switch_counted {choice : Choice T} (counted : Counted s) (here : s.code = .yieldSwitch :: rest)
    (taken : runSwitch s rest choice = some s') : Counted s' := by
  obtain ⟨shaped, preempt, status⟩ := counted_head counted here
  have settled : preemptOwed rest = 0 := (shaped_cons.mp shaped).2.1
  have tail := shaped_tail shaped
  simp only [Op.preempt, Op.status] at preempt status
  -- Code that owes no preemption owes no deferred work.
  have none : ∀ code, Shaped code → preemptOwed code = 0 → statusOwed code = 0 := by
    intro code shaped zero
    have held := shaped_held shaped
    have := held.status
    have := held.guarded
    omega
  have noneRest := none rest tail settled
  obtain rfl | ⟨t, same, rfl⟩ := switch_cases taken
  · exact counted_replace [] counted here rfl ⟨rfl, rfl⟩ rfl rfl tail
  · obtain ⟨started, zero⟩ := counted.saved t same
    have noneSaved := none _ started zero
    refine ⟨?_, ?_, started, forall_switched (P := fun _ code => Shaped code ∧ preemptOwed code = 0) ⟨tail, settled⟩ counted.saved⟩
    · simp only
      omega
    · simp only
      omega

omit [DecidableEq T] in
theorem fail_counted (counted : Counted s) : Counted s.fail := ⟨counted.preemptCounter, counted.status, counted.shaped, counted.saved⟩

-- A step that only goes on, or changes no counter.
omit [DecidableEq T] in
theorem counted_on (counted : Counted s) (here : s.code = op :: rest) (plain : op.preempt = 0 ∧ op.status = 0)
    (others : s'.saved = s.saved ∧ s'.current = s.current)
    (same : s'.preemptCounter = s.preemptCounter ∧ s'.deferredWorkStatus = s.deferredWorkStatus) (code : s'.code = rest) : Counted s' := by
  refine counted_replace [] counted here code others ?_ ?_ (shaped_tail (counted_head counted here).1)
  · rw [same.1, plain.1]
    rfl
  · rw [same.2, plain.2]
    rfl

theorem op_counted {choice : Choice T} (counted : Counted s) (here : s.code = op :: rest)
    (taken : runOp s choice rest op = some s') : Counted s' := by
  obtain ⟨shaped, preempt, status⟩ := counted_head counted here
  cases op with
  | inc =>
      simp only [runOp] at taken
      split at taken
      · cases taken
        refine counted_replace [] counted here rfl ⟨rfl, rfl⟩ ?_ rfl (shaped_tail shaped)
        show ((s.preemptCounter + 1 : Nat) : Int) + -1 = s.preemptCounter + 0
        omega
      · cases taken
        exact fail_counted counted
  | decRead =>
      simp only [Op.preempt] at preempt
      simp only [runOp] at taken
      split at taken
      · cases taken
        exact fail_counted counted
      · split at taken
        · cases taken
          exact counted_replace [.exchange] counted here rfl ⟨rfl, rfl⟩ rfl rfl ((shaped_dec_read shaped).1 (by omega))
        · cases taken
          exact counted_replace [.decrement false false] counted here rfl ⟨rfl, rfl⟩ rfl rfl ((shaped_dec_read shaped).2 (by omega))
  | exchange =>
      cases taken
      exact counted_replace [.decrement true s.yieldImmediately] counted here rfl ⟨rfl, rfl⟩ rfl rfl (shaped_exchange shaped)
  | decrement last yield =>
      have held := (shaped_held (shaped_tail shaped)).preempt
      simp only [Op.preempt] at preempt
      have owed : preemptOwed (if yield then schedYield else []) = 0 ∧ statusOwed (if yield then schedYield else []) = 0 := by
        cases yield with
        | false => exact ⟨rfl, rfl⟩
        | true => exact ⟨rfl, rfl⟩
      cases taken
      refine counted_replace _ counted here rfl ⟨rfl, rfl⟩ ?_ ?_ (shaped_decrement shaped)
      · rw [owed.1]
        show ((s.preemptCounter - 1 : Nat) : Int) + 1 = s.preemptCounter + 0
        omega
      · rw [owed.2]
        rfl
  | yieldMask =>
      simp only [runOp] at taken
      split at taken
      · cases taken
        exact counted_replace [.body false, .yieldSwitch, .body false, .interrupts s.enabled] counted here rfl ⟨rfl, rfl⟩ rfl rfl
          (shaped_yield shaped)
      · cases taken
        exact fail_counted counted
  | yieldSwitch => exact switch_counted counted here taken
  | interrupts enabled =>
      cases taken
      exact counted_on counted here ⟨rfl, rfl⟩ ⟨rfl, rfl⟩ ⟨rfl, rfl⟩ rfl
  | disable =>
      simp only [runOp] at taken
      split at taken
      · cases taken
        refine counted_replace [] counted here rfl ⟨rfl, rfl⟩ rfl ?_ (shaped_tail shaped)
        show ((s.deferredWorkStatus + 1 : Nat) : Int) + -1 = s.deferredWorkStatus + 0
        omega
      · cases taken
        exact fail_counted counted
  | enableRead caller =>
      simp only [Op.status] at status
      simp only [runOp] at taken
      split at taken
      · cases taken
        exact fail_counted counted
      · cases taken
        have last : decide (s.deferredWorkStatus = 1) = decide (statusOwed rest = 0) := decide_eq_decide.mpr (by omega)
        rw [last]
        exact counted_replace [.enableDec caller (statusOwed rest = 0)] counted here rfl ⟨rfl, rfl⟩ rfl rfl (shaped_enable_read shaped)
  | enableDec caller last =>
      have held := (shaped_held (shaped_tail shaped)).status
      simp only [Op.status] at status
      have owed : preemptOwed (if caller = .status ∧ last = true then dwProcess else []) = 0 ∧
          statusOwed (if caller = .status ∧ last = true then dwProcess else []) = 0 := by
        split
        · exact ⟨rfl, rfl⟩
        · exact ⟨rfl, rfl⟩
      cases taken
      refine counted_replace _ counted here rfl ⟨rfl, rfl⟩ ?_ ?_ (shaped_enable_dec shaped)
      · rw [owed.1]
        rfl
      · rw [owed.2]
        show ((s.deferredWorkStatus - 1 : Nat) : Int) + 1 = s.deferredWorkStatus + 0
        omega
  | push cleanup =>
      cases taken
      exact counted_on counted here ⟨rfl, rfl⟩ ⟨rfl, rfl⟩ ⟨rfl, rfl⟩ rfl
  | loop =>
      cases taken
      exact counted_replace [.inc, .test] counted here rfl ⟨rfl, rfl⟩ rfl rfl (shaped_loop shaped)
  | test =>
      simp only [runOp] at taken
      split at taken
      · cases taken
        exact counted_replace [.decRead, .enableRead .process] counted here rfl ⟨rfl, rfl⟩ rfl rfl (shaped_test shaped).1
      · cases taken
        exact counted_replace [.popMask] counted here rfl ⟨rfl, rfl⟩ rfl rfl (shaped_test shaped).2
  | popMask =>
      cases taken
      exact counted_replace [.pop s.enabled] counted here rfl ⟨rfl, rfl⟩ rfl rfl (shaped_pop_mask shaped)
  | pop enabled =>
      simp only [runOp] at taken
      split at taken
      · cases taken
        exact fail_counted counted
      · rename_i item items _
        cases taken
        exact counted_replace [.interrupts enabled, .decRead, .run item, .loop] counted here rfl ⟨rfl, rfl⟩ rfl rfl (shaped_pop shaped)
  | run item =>
      have owed : preemptOwed (.body true :: if item.cleanup then [.cleanup item] else []) = 0 ∧
          statusOwed (.body true :: if item.cleanup then [.cleanup item] else []) = 0 := by
        cases item.cleanup with
        | false => exact ⟨rfl, rfl⟩
        | true => exact ⟨rfl, rfl⟩
      cases taken
      refine counted_replace _ counted here rfl ⟨rfl, rfl⟩ ?_ ?_ (shaped_run shaped)
      · rw [owed.1]
        rfl
      · rw [owed.2]
        rfl
  | cleanup item =>
      cases taken
      exact counted_on counted here ⟨rfl, rfl⟩ ⟨rfl, rfl⟩ ⟨rfl, rfl⟩ rfl
  | hardEnter =>
      cases taken
      exact counted_on counted here ⟨rfl, rfl⟩ ⟨rfl, rfl⟩ ⟨rfl, rfl⟩ rfl
  | hard => exact hard_counted counted here taken
  | hardLeave =>
      cases taken
      exact counted_on counted here ⟨rfl, rfl⟩ ⟨rfl, rfl⟩ ⟨rfl, rfl⟩ rfl
  | softEnter =>
      cases taken
      exact counted_on counted here ⟨rfl, rfl⟩ ⟨rfl, rfl⟩ ⟨rfl, rfl⟩ rfl
  | softLeave =>
      cases taken
      exact counted_on counted here ⟨rfl, rfl⟩ ⟨rfl, rfl⟩ ⟨rfl, rfl⟩ rfl
  | iret user =>
      simp only [runOp] at taken
      split at taken
      · cases taken
        exact fail_counted counted
      · cases taken
        exact counted_on counted here ⟨rfl, rfl⟩ ⟨rfl, rfl⟩ ⟨rfl, rfl⟩ rfl
  | body work => exact body_counted counted here taken

omit [DecidableEq T] in
theorem interrupt_counted {user : Bool} (counted : Counted s) : Counted { s.goto (handler user ++ s.code) with enabled := false } := by
  refine ⟨?_, ?_, shaped_handler counted.shaped, counted.saved⟩
  · show (s.preemptCounter : Int) = preemptOwed (handler user ++ s.code)
    rw [preempt_owed_append, ← counted.preemptCounter]
    exact (Int.zero_add _).symm
  · show (s.deferredWorkStatus : Int) = statusOwed (handler user ++ s.code)
    rw [status_owed_append, ← counted.status]
    exact (Int.zero_add _).symm

-- What a step can be: the next operation of the thread, or an interrupt.
theorem step_cases {action : Action T} (taken : step action s = some s') : s.failed = false ∧
    ((∃ choice op rest, action = .run choice ∧ s.code = op :: rest ∧ runOp s choice rest op = some s') ∨
      ∃ user, action = .interrupt user ∧ s.enabled = true ∧ s' = { s.goto (handler user ++ s.code) with enabled := false }) := by
  rw [step.eq_def, Option.ite_none_left_eq_some, Bool.not_eq_true] at taken
  obtain ⟨working, taken⟩ := taken
  refine ⟨working, ?_⟩
  cases action with
  | run choice =>
      cases here : s.code with
      | nil => simp [here] at taken
      | cons op rest =>
          simp only [here] at taken
          exact .inl ⟨choice, op, rest, rfl, rfl, taken⟩
  | interrupt user =>
      simp only [Option.ite_none_right_eq_some, Option.some.injEq] at taken
      exact .inr ⟨user, rfl, taken.1.1, taken.2.symm⟩

theorem step_counted {action : Action T} (counted : Counted s) (taken : step action s = some s') : Counted s' := by
  obtain ⟨_, ⟨choice, op, rest, _, here, run⟩ | ⟨user, _, _, rfl⟩⟩ := step_cases taken
  · exact op_counted counted here run
  · exact interrupt_counted counted

omit [DecidableEq T] in
theorem initial_counted (first : initial s) : Counted s := by
  refine ⟨?_, ?_, ?_, fun t _ => ?_⟩
  · simp [first.preemptCounter, first.code, preemptOwed, Op.preempt]
  · simp [first.deferredWorkStatus, first.code, statusOwed, Op.status]
  · simp [first.code, shaped_cons, preemptOwed, statusOwed, Op.preempt, Op.status, Op.works, worked, Op.relies, Shaped.nil]
  · simp [first.saved, shaped_cons, preemptOwed, statusOwed, Op.preempt, Op.status, Op.works, worked, Op.relies, Shaped.nil]

end Counters

end Elysium.Interrupts
