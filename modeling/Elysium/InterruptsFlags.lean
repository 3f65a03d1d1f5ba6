import Elysium.InterruptsYield

set_option autoImplicit false

namespace Elysium.Interrupts

open Transitions (Reachable reachable_invariant execute reachable_execute)

inductive Phase where
  | hard
  | soft
deriving DecidableEq

def Phase.enter : Phase → Op
  | .hard => .hardEnter
  | .soft => .softEnter

def Phase.leave : Phase → Op
  | .hard => .hardLeave
  | .soft => .softLeave

def Phase.flag {T : Type} : Phase → State T → Bool
  | .hard, s => s.inInterruptHard
  | .soft, s => s.inInterruptSoft

def Phase.change (p : Phase) (op : Op) : Int := if op = p.leave then 1 else if op = p.enter then -1 else 0

-- The activations that are in the phase: each has its step out of it left until it is past it, and its step
-- into it until it is there.
def depth (p : Phase) : List Op → Int
  | [] => 0
  | op :: rest => p.change op + depth p rest

def InPhase {T : Type} (p : Phase) (s : State T) : Prop := 1 ≤ depth p s.code ∨ ∃ t, t ≠ s.current ∧ 1 ≤ depth p (s.saved t)

-- The flag of the phase is written by these alone.
def Op.flags : Op → Bool
  | .hardEnter | .hardLeave | .softEnter | .softLeave => true
  | _ => false

def Op.enables : Op → Bool
  | .interrupts enabled | .pop enabled => enabled
  | .iret _ => true
  | _ => false

-- Until an activation is in its soft phase it has not enabled interrupts.
def Op.early : Op → Bool
  | .hardEnter | .hardLeave | .softEnter => true
  | _ => false

-- No activation enters the phase while another one is in it. Below the step at hand each that has not left the phase
-- keeps preemption off.
def Phased (p : Phase) : List Op → Prop
  | [] => True
  | op :: rest => (op = p.enter → depth p rest = 1) ∧ (op = p.leave → depth p rest = 0) ∧ (p.leave ∈ rest → 1 ≤ preemptOwed rest) ∧ Phased p rest

def Masked : List Op → Prop
  | [] => True
  | op :: rest => (op.enables = true → ∀ other ∈ rest, other.early = false) ∧
      ((∃ other ∈ rest, other.early = true) → 1 ≤ preemptOwed rest) ∧ Masked rest

-- Code that a call is replaced by, which leaves the flags alone.
def Quiet : List Op → Prop
  | [] => True
  | op :: rest => op.flags = false ∧ 0 ≤ preemptOwed (op :: rest) ∧ Quiet rest

section Code

variable {p : Phase} {first rest : List Op}

theorem change_enter (p : Phase) : p.change p.enter = -1 := by cases p <;> rfl

theorem change_leave (p : Phase) : p.change p.leave = 1 := by cases p <;> rfl

theorem plain_ne {op : Op} (plain : op.flags = false) (p : Phase) : op ≠ p.enter ∧ op ≠ p.leave := by
  constructor
  · rintro rfl
    cases p <;> cases plain
  · rintro rfl
    cases p <;> cases plain

theorem change_plain {op : Op} (plain : op.flags = false) (p : Phase) : p.change op = 0 := by
  obtain ⟨notEnter, notLeave⟩ := plain_ne plain p
  rw [Phase.change, if_neg notLeave, if_neg notEnter]

theorem phased_depth {code : List Op} (phased : Phased p code) : depth p code = 0 ∨ depth p code = 1 := by
  induction code with
  | nil => exact .inl rfl
  | cons op rest ih =>
      obtain ⟨enters, leaves, _, tail⟩ := phased
      rw [depth]
      by_cases enter : op = p.enter
      · rw [enter, change_enter, enters enter]
        exact .inl rfl
      · by_cases leave : op = p.leave
        · rw [leave, change_leave, leaves leave]
          exact .inr rfl
        · rw [Phase.change, if_neg leave, if_neg enter, Int.zero_add]
          exact ih tail

theorem depth_nonpos {code : List Op} (absent : p.leave ∉ code) : depth p code ≤ 0 := by
  induction code with
  | nil => exact Int.le_refl 0
  | cons op rest ih =>
      rw [List.mem_cons, not_or] at absent
      have below := ih absent.2
      rw [depth, Phase.change, if_neg (Ne.symm absent.1)]
      split <;> omega

theorem depth_zero {code : List Op} (phased : Phased p code) (absent : p.leave ∉ code) : depth p code = 0 := by
  have below := depth_nonpos absent
  rcases phased_depth phased with zero | one
  · exact zero
  · omega

-- Without an activation that has still to enter the phase, those that have still to leave it are in it.
theorem leave_absent {code : List Op} (absent : p.enter ∉ code) (none : depth p code = 0) : p.leave ∉ code := by
  have atLeast : (if p.leave ∈ code then 1 else 0) ≤ depth p code := by
    clear none
    induction code with
    | nil => simp [depth]
    | cons op rest ih =>
        rw [List.mem_cons, not_or] at absent
        have below := ih absent.2
        rw [depth, Phase.change, if_neg (Ne.symm absent.1)]
        by_cases leave : op = p.leave
        · rw [if_pos leave, leave, if_pos List.mem_cons_self]
          split at below <;> omega
        · have same : p.leave ∈ op :: rest ↔ p.leave ∈ rest := by simp [Ne.symm leave]
          rw [if_neg leave, Int.zero_add]
          simpa only [same] using below
  intro member
  rw [if_pos member, none] at atLeast
  exact absurd atLeast (by decide)

theorem quiet_depth (quiet : Quiet first) : depth p (first ++ rest) = depth p rest := by
  induction first with
  | nil => rfl
  | cons op others ih => rw [List.cons_append, depth, change_plain quiet.1, Int.zero_add, ih quiet.2.2]

theorem quiet_mem (quiet : Quiet first) {op : Op} (flags : op.flags = true) : op ∈ first ++ rest ↔ op ∈ rest := by
  induction first with
  | nil => rfl
  | cons other others ih =>
      have different : op ≠ other := by
        rintro rfl
        rw [quiet.1] at flags
        cases flags
      rw [List.cons_append, List.mem_cons, ih quiet.2.2, or_iff_right different]

theorem leave_flags (p : Phase) : p.leave.flags = true := by cases p <;> rfl

theorem early_flags {op : Op} (early : op.early = true) : op.flags = true := by cases op <;> trivial

theorem quiet_owed (quiet : Quiet first) : 0 ≤ preemptOwed first := by
  cases first with
  | nil => exact Int.le_refl 0
  | cons op others => exact quiet.2.1

-- What is put above an activation keeps preemption off as the activation does.
theorem quiet_preempt (quiet : Quiet first) (owed : p.leave ∈ rest → 1 ≤ preemptOwed rest) (inside : p.leave ∈ first ++ rest) :
    1 ≤ preemptOwed (first ++ rest) := by
  have below := owed ((quiet_mem quiet (leave_flags p)).mp inside)
  have above := quiet_owed quiet
  rw [preempt_owed_append]
  omega

theorem quiet_phased (quiet : Quiet first) (owed : p.leave ∈ rest → 1 ≤ preemptOwed rest) (phased : Phased p rest) : Phased p (first ++ rest) := by
  induction first with
  | nil => exact phased
  | cons op others ih =>
      obtain ⟨plain, _, quietOthers⟩ := quiet
      obtain ⟨notEnter, notLeave⟩ := plain_ne plain p
      rw [List.cons_append]
      exact ⟨fun enter => absurd enter notEnter, fun leave => absurd leave notLeave, quiet_preempt quietOthers owed, ih quietOthers⟩

theorem quiet_early (quiet : Quiet first) (late : ∀ op ∈ rest, op.early = false) : ∀ op ∈ first ++ rest, op.early = false := by
  intro op member
  by_contra early
  rw [Bool.not_eq_false] at early
  rw [late op ((quiet_mem quiet (early_flags early)).mp member)] at early
  cases early

theorem quiet_masked (quiet : Quiet first) (masked : Masked rest) (owed : (∃ other ∈ rest, other.early = true) → 1 ≤ preemptOwed rest)
    (allowed : ∀ op ∈ first, op.enables = true → ∀ other ∈ rest, other.early = false) : Masked (first ++ rest) := by
  induction first with
  | nil => exact masked
  | cons op others ih =>
      obtain ⟨_, _, quietOthers⟩ := quiet
      rw [List.cons_append]
      refine ⟨fun enables => ?_, ?_, ih quietOthers fun other member => allowed other (List.mem_cons_of_mem _ member)⟩
      · exact quiet_early quietOthers (allowed op List.mem_cons_self enables)
      · rintro ⟨other, member, early⟩
        have below := owed ⟨other, (quiet_mem quietOthers (early_flags early)).mp member, early⟩
        have others_ := quiet_owed quietOthers
        rw [preempt_owed_append]
        omega

end Code

section Steps

variable {T : Type} {s s' : State T} {op : Op} {rest : List Op}

-- A step that writes no flag: what it puts in the place of the operation.
structure Writes (op : Op) (rest : List Op) (s s' : State T) : Prop where
  code : ∃ first, s'.code = first ++ rest ∧ Quiet first ∧ ∀ other ∈ first, other.enables = true → s.enabled = true ∨ op.enables = true
  enabled : s'.enabled = true → s.enabled = true ∨ op.enables = true
  flags : s'.inInterruptHard = s.inInterruptHard ∧ s'.inInterruptSoft = s.inInterruptSoft
  others : s'.saved = s.saved ∧ s'.current = s.current

variable [DecidableEq T]

attribute [local simp] Quiet Op.flags Op.enables Op.preempt preemptOwed

omit [DecidableEq T] in
theorem body_writes {choice : Choice T} {work : Bool} (taken : runBody s work rest choice = some s') : Writes (.body work) rest s s' := by
  cases choice with
  | finish =>
      simp only [runBody, Option.ite_none_left_eq_some, Option.some.injEq] at taken
      obtain ⟨_, rfl⟩ := taken
      exact ⟨⟨[], rfl, trivial, by simp⟩, .inl, ⟨rfl, rfl⟩, ⟨rfl, rfl⟩⟩
  | pair =>
      cases taken
      exact ⟨⟨[.inc, .body work, .decRead, .body work], rfl, by simp, by simp⟩, .inl, ⟨rfl, rfl⟩, ⟨rfl, rfl⟩⟩
  | lockNodw =>
      cases taken
      exact ⟨⟨[.inc, .disable, .body work, .enableRead .status, .decRead, .body work], rfl, by simp,
        by simp⟩, .inl, ⟨rfl, rfl⟩, ⟨rfl, rfl⟩⟩
  | lockNoint =>
      cases taken
      exact ⟨⟨[.inc, .disable, .body work, .enableRead .status, .decRead, .interrupts s.enabled, .body work], rfl,
        by simp, by simp⟩, (fun on => by cases on), ⟨rfl, rfl⟩, ⟨rfl, rfl⟩⟩
  | setYield =>
      simp only [runBody, Option.ite_none_right_eq_some, Option.some.injEq] at taken
      obtain ⟨_, rfl⟩ := taken
      exact ⟨⟨[.body work], rfl, by simp, by simp⟩, .inl, ⟨rfl, rfl⟩, ⟨rfl, rfl⟩⟩
  | queue _ => cases taken
  | switch _ => cases taken

theorem op_writes {choice : Choice T} (plain : op.flags = false) (stays : op ≠ .yieldSwitch) (taken : runOp s choice rest op = some s') :
    s' = s.fail ∨ Writes op rest s s' := by
  -- What is left to say of a step, once the code is given that it goes on with.
  have goesOn : ∀ first : List Op, s'.code = first ++ rest → Quiet first →
      (∀ other ∈ first, other.enables = true → s.enabled = true ∨ op.enables = true) →
      (s'.enabled = true → s.enabled = true ∨ op.enables = true) →
      (s'.inInterruptHard = s.inInterruptHard ∧ s'.inInterruptSoft = s.inInterruptSoft) → (s'.saved = s.saved ∧ s'.current = s.current) →
      s' = s.fail ∨ Writes op rest s s' :=
    fun first code quiet allowed enabled flags others => .inr ⟨⟨first, code, quiet, allowed⟩, enabled, flags, others⟩
  cases op with
  | inc =>
      simp only [runOp] at taken
      split at taken
      · cases taken
        exact goesOn [] rfl trivial (by simp) .inl ⟨rfl, rfl⟩ ⟨rfl, rfl⟩
      · cases taken
        exact .inl rfl
  | decRead =>
      simp only [runOp] at taken
      split at taken
      · cases taken
        exact .inl rfl
      · split at taken
        · cases taken
          exact goesOn [.exchange] rfl (by simp) (by simp) .inl ⟨rfl, rfl⟩ ⟨rfl, rfl⟩
        · cases taken
          exact goesOn [.decrement false false] rfl (by simp) (by simp) .inl ⟨rfl, rfl⟩
            ⟨rfl, rfl⟩
  | exchange =>
      cases taken
      exact goesOn [.decrement true s.yieldImmediately] rfl (by simp) (by simp) .inl
        ⟨rfl, rfl⟩ ⟨rfl, rfl⟩
  | decrement last yield =>
      cases taken
      exact goesOn (if yield then schedYield else []) rfl (by cases yield <;> simp [schedYield])
        (by cases yield <;> simp [schedYield]) .inl ⟨rfl, rfl⟩ ⟨rfl, rfl⟩
  | yieldMask =>
      simp only [runOp] at taken
      split at taken
      · cases taken
        exact goesOn [.body false, .yieldSwitch, .body false, .interrupts s.enabled] rfl (by simp)
          (by simp) (fun on => by cases on) ⟨rfl, rfl⟩ ⟨rfl, rfl⟩
      · cases taken
        exact .inl rfl
  | yieldSwitch => exact absurd rfl stays
  | interrupts enabled =>
      cases taken
      exact goesOn [] rfl trivial (by simp) .inr ⟨rfl, rfl⟩ ⟨rfl, rfl⟩
  | disable =>
      simp only [runOp] at taken
      split at taken
      · cases taken
        exact goesOn [] rfl trivial (by simp) .inl ⟨rfl, rfl⟩ ⟨rfl, rfl⟩
      · cases taken
        exact .inl rfl
  | enableRead caller =>
      simp only [runOp] at taken
      split at taken
      · cases taken
        exact .inl rfl
      · cases taken
        exact goesOn [.enableDec caller (s.deferredWorkStatus = 1)] rfl (by simp) (by simp)
          .inl ⟨rfl, rfl⟩ ⟨rfl, rfl⟩
  | enableDec caller last =>
      cases taken
      refine goesOn (if caller = .status ∧ last = true then dwProcess else []) rfl ?_ ?_ .inl ⟨rfl, rfl⟩ ⟨rfl, rfl⟩
      · split <;> simp [dwProcess]
      · split <;> simp [dwProcess]
  | push cleanup =>
      cases taken
      exact goesOn [] rfl trivial (by simp) .inl ⟨rfl, rfl⟩ ⟨rfl, rfl⟩
  | loop =>
      cases taken
      exact goesOn [.inc, .test] rfl (by simp) (by simp) .inl ⟨rfl, rfl⟩ ⟨rfl, rfl⟩
  | test =>
      simp only [runOp] at taken
      split at taken
      · cases taken
        exact goesOn [.decRead, .enableRead .process] rfl (by simp) (by simp) .inl
          ⟨rfl, rfl⟩ ⟨rfl, rfl⟩
      · cases taken
        exact goesOn [.popMask] rfl (by simp) (by simp) .inl ⟨rfl, rfl⟩ ⟨rfl, rfl⟩
  | popMask =>
      cases taken
      exact goesOn [.pop s.enabled] rfl (by simp) (by simp) (fun on => by cases on) ⟨rfl, rfl⟩
        ⟨rfl, rfl⟩
  | pop enabled =>
      simp only [runOp] at taken
      split at taken
      · cases taken
        exact .inl rfl
      · rename_i item items _
        cases taken
        exact goesOn [.interrupts enabled, .decRead, .run item, .loop] rfl (by simp)
          (by simp +contextual) .inl ⟨rfl, rfl⟩ ⟨rfl, rfl⟩
  | run item =>
      cases taken
      refine goesOn (.body true :: if item.cleanup then [.cleanup item] else []) ?_ ?_ ?_ .inl ⟨rfl, rfl⟩ ⟨rfl, rfl⟩
      · rfl
      · split <;> simp
      · split <;> simp
  | cleanup item =>
      cases taken
      exact goesOn [] rfl trivial (by simp) .inl ⟨rfl, rfl⟩ ⟨rfl, rfl⟩
  | hardEnter => cases plain
  | hard =>
      cases choice with
      | finish =>
          cases taken
          exact goesOn [] rfl trivial (by simp) .inl ⟨rfl, rfl⟩ ⟨rfl, rfl⟩
      | queue cleanup =>
          cases taken
          exact goesOn [.inc, .disable, .push cleanup, .enableRead .queue, .decRead, .hard] rfl
            (by simp) (by simp) .inl ⟨rfl, rfl⟩ ⟨rfl, rfl⟩
      | pair => cases taken
      | lockNodw => cases taken
      | lockNoint => cases taken
      | setYield => cases taken
      | switch _ => cases taken
  | hardLeave => cases plain
  | softEnter => cases plain
  | softLeave => cases plain
  | iret user =>
      simp only [runOp] at taken
      split at taken
      · cases taken
        exact .inl rfl
      · cases taken
        exact goesOn [] rfl trivial (by simp) (fun _ => .inr rfl) ⟨rfl, rfl⟩ ⟨rfl, rfl⟩
  | body work => exact .inr (body_writes taken)

-- What holds of a phase in every state.
structure Flagged (p : Phase) (s : State T) : Prop where
  phased : Phased p s.code
  flag : p.flag s = true ↔ depth p s.code = 1
  saved : ∀ t, t ≠ s.current → Phased p (s.saved t) ∧ p.leave ∉ s.saved t

structure Shut (s : State T) : Prop where
  masked : Masked s.code
  enabled : s.enabled = true → ∀ op ∈ s.code, op.early = false
  saved : ∀ t, t ≠ s.current → Masked (s.saved t) ∧ ∀ op ∈ s.saved t, op.early = false

omit [DecidableEq T] in
theorem settled (counted : Counted s) (here : s.code = .yieldSwitch :: rest) : preemptOwed rest = 0 :=
  (shaped_cons.mp (counted_head counted here).1).2.1

omit [DecidableEq T] in
theorem writes_flagged {p : Phase} (flagged : Flagged p s) (here : s.code = op :: rest) (plain : op.flags = false) (writes : Writes op rest s s') :
    Flagged p s' := by
  obtain ⟨first, code, quiet, _⟩ := writes.code
  have phased := flagged.phased
  have flag := flagged.flag
  rw [here] at phased flag
  rw [depth, change_plain plain, Int.zero_add] at flag
  have same : p.flag s' = p.flag s := by
    cases p with
    | hard => exact writes.flags.1
    | soft => exact writes.flags.2
  refine ⟨?_, ?_, ?_⟩
  · rw [code]
    exact quiet_phased quiet phased.2.2.1 phased.2.2.2
  · rw [code, quiet_depth quiet, same, flag]
  · rw [writes.others.1, writes.others.2]
    exact flagged.saved

theorem switch_flagged {p : Phase} {choice : Choice T} (counted : Counted s) (flagged : Flagged p s) (here : s.code = .yieldSwitch :: rest)
    (taken : runSwitch s rest choice = some s') : Flagged p s' := by
  have phased := flagged.phased
  have flag := flagged.flag
  rw [here] at phased flag
  rw [depth, change_plain rfl, Int.zero_add] at flag
  have absent : p.leave ∉ rest := fun member => by
    have owed := phased.2.2.1 member
    rw [settled counted here] at owed
    exact absurd owed (by decide)
  obtain rfl | ⟨t, same, rfl⟩ := switch_cases taken
  · exact ⟨phased.2.2.2, by cases p <;> exact flag, flagged.saved⟩
  · obtain ⟨phasedT, absentT⟩ := flagged.saved t same
    rw [depth_zero phased.2.2.2 absent] at flag
    refine ⟨phasedT, ?_, forall_switched (P := fun _ code => Phased p code ∧ p.leave ∉ code) ⟨phased.2.2.2, absent⟩ flagged.saved⟩
    show _ ↔ depth p (s.saved t) = 1
    rw [depth_zero phasedT absentT]
    cases p <;> exact flag

theorem op_flagged {p : Phase} {choice : Choice T} (counted : Counted s) (flagged : Flagged p s) (here : s.code = op :: rest)
    (taken : runOp s choice rest op = some s') : Flagged p s' := by
  have phased := flagged.phased
  have flag := flagged.flag
  rw [here] at phased flag
  obtain ⟨enters, leaves, owed, tail⟩ := phased
  -- The four steps that write a flag.
  have written : s'.code = rest → s'.saved = s.saved ∧ s'.current = s.current →
      p.flag s' = (if op = p.leave then false else if op = p.enter then true else p.flag s) → Flagged p s' := by
    intro code others value
    refine ⟨code ▸ tail, ?_, by rw [others.1, others.2]; exact flagged.saved⟩
    rw [code, value]
    by_cases leave : op = p.leave
    · simp [leave, leaves leave]
    · by_cases enter : op = p.enter
      · rw [if_neg leave, if_pos enter, enters enter]
        simp
      · rw [depth, Phase.change, if_neg leave, if_neg enter, Int.zero_add] at flag
        rw [if_neg leave, if_neg enter, flag]
  by_cases plain : op.flags = false
  · by_cases switches : op = .yieldSwitch
    · subst switches
      exact switch_flagged counted flagged here taken
    · rcases op_writes plain switches taken with rfl | writes
      · exact ⟨flagged.phased, by cases p <;> exact flagged.flag, flagged.saved⟩
      · exact writes_flagged flagged here plain writes
  · cases op <;> first
      | exact absurd rfl plain
      | (cases taken
         exact written rfl ⟨rfl, rfl⟩ (by cases p <;> rfl))

omit [DecidableEq T] in
theorem interrupt_flagged {p : Phase} {user : Bool} (counted : Counted s) (flagged : Flagged p s) (absent : p.leave ∉ s.code) :
    Flagged p { s.goto (handler user ++ s.code) with enabled := false } := by
  have zero := depth_zero flagged.phased absent
  have held := (shaped_held counted.shaped).preempt
  refine ⟨?_, ?_, flagged.saved⟩
  · show Phased p (handler user ++ s.code)
    have phased := flagged.phased
    cases p <;> simp [handler, Phased, depth, Phase.change, Phase.enter, Phase.leave] at zero absent phased ⊢ <;> grind
  · show _ ↔ depth p (handler user ++ s.code) = 1
    have same : depth p (handler user ++ s.code) = depth p s.code := by
      cases p <;> simp [handler, depth, Phase.change, Phase.enter, Phase.leave, Int.neg_add_cancel_left]
    rw [same]
    cases p <;> exact flagged.flag

omit [DecidableEq T] in
theorem writes_shut (shut : Shut s) (here : s.code = op :: rest) (writes : Writes op rest s s') : Shut s' := by
  obtain ⟨first, code, quiet, allowed⟩ := writes.code
  have masked := shut.masked
  have enabled := shut.enabled
  rw [here] at masked enabled
  obtain ⟨late, owed, tail⟩ := masked
  have lateRest : s.enabled = true ∨ op.enables = true → ∀ other ∈ rest, other.early = false := by
    rintro (on | opens)
    · exact fun other member => enabled on other (List.mem_cons_of_mem _ member)
    · exact late opens
  refine ⟨?_, fun on => ?_, ?_⟩
  · rw [code]
    exact quiet_masked quiet tail owed fun other member opens => lateRest (allowed other member opens)
  · rw [code]
    exact quiet_early quiet (lateRest (writes.enabled on))
  · rw [writes.others.1, writes.others.2]
    exact shut.saved

theorem switch_shut {choice : Choice T} (counted : Counted s) (shut : Shut s) (here : s.code = .yieldSwitch :: rest)
    (taken : runSwitch s rest choice = some s') : Shut s' := by
  have masked := shut.masked
  rw [here] at masked
  obtain ⟨_, owed, tail⟩ := masked
  have late : ∀ op ∈ rest, op.early = false := by
    intro op member
    by_contra early
    have positive := owed ⟨op, member, by simpa using early⟩
    rw [settled counted here] at positive
    exact absurd positive (by decide)
  obtain rfl | ⟨t, same, rfl⟩ := switch_cases taken
  · exact ⟨tail, fun _ => late, shut.saved⟩
  · obtain ⟨maskedT, lateT⟩ := shut.saved t same
    exact ⟨maskedT, fun _ => lateT,
      forall_switched (P := fun _ code => Masked code ∧ ∀ op ∈ code, op.early = false) ⟨tail, late⟩ shut.saved⟩

theorem op_shut {choice : Choice T} (counted : Counted s) (shut : Shut s) (here : s.code = op :: rest)
    (taken : runOp s choice rest op = some s') : Shut s' := by
  have written : s'.code = rest → s'.saved = s.saved ∧ s'.current = s.current → s'.enabled = s.enabled → Shut s' := by
    intro code others enabled
    have masked := shut.masked
    have late := shut.enabled
    rw [here] at masked late
    refine ⟨code ▸ masked.2.2, ?_, by rw [others.1, others.2]; exact shut.saved⟩
    rw [code, enabled]
    exact fun on other member => late on other (List.mem_cons_of_mem _ member)
  by_cases plain : op.flags = false
  · by_cases switches : op = .yieldSwitch
    · subst switches
      exact switch_shut counted shut here taken
    · rcases op_writes plain switches taken with rfl | writes
      · exact ⟨shut.masked, shut.enabled, shut.saved⟩
      · exact writes_shut shut here writes
  · cases op <;> first
      | exact absurd rfl plain
      | (cases taken
         exact written rfl ⟨rfl, rfl⟩ rfl)

omit [DecidableEq T] in
theorem interrupt_shut {user : Bool} (counted : Counted s) (shut : Shut s) (on : s.enabled = true) :
    Shut { s.goto (handler user ++ s.code) with enabled := false } := by
  have late := shut.enabled on
  have held := (shaped_held counted.shaped).preempt
  refine ⟨?_, (fun off => by cases off), shut.saved⟩
  show Masked (handler user ++ s.code)
  have masked := shut.masked
  simp [handler, Masked, Op.early] at late masked ⊢
  grind

omit [DecidableEq T] in
theorem early_absent {p : Phase} {code : List Op} (late : ∀ op ∈ code, op.early = false) :
    p.enter ∉ code ∧ (p = .hard → p.leave ∉ code) := by
  constructor
  · intro member
    have bad := late _ member
    cases p <;> cases bad
  · rintro rfl member
    cases late _ member

-- x86_64_init_cpu_common has cleared the flags.
structure booted (s : State T) : Prop extends initial s where
  hard : s.inInterruptHard = false
  soft : s.inInterruptSoft = false

-- An interrupt comes while an activation is in its soft phase.
def Nests (s : State T) : Action T → Bool
  | .interrupt _ => decide (1 ≤ depth .soft s.code)
  | .run _ => false

def flatStep (action : Action T) (s : State T) : Option (State T) := if Nests s action then none else step action s

omit [DecidableEq T] in
theorem booted_flagged (p : Phase) (first : booted s) : Flagged p s := by
  have flag : p.flag s = false := by
    cases p with
    | hard => exact first.hard
    | soft => exact first.soft
  refine ⟨?_, ?_, fun t _ => ?_⟩
  · rw [first.code]
    cases p <;> simp [Phased, Phase.enter, Phase.leave]
  · rw [flag, first.code]
    cases p <;> simp [depth, Phase.change, Phase.enter, Phase.leave]
  · rw [first.saved]
    cases p <;> simp [Phased, Phase.enter, Phase.leave]

omit [DecidableEq T] in
theorem booted_shut (first : booted s) : Shut s := by
  refine ⟨?_, ?_, fun t _ => ?_⟩
  · rw [first.code]
    simp [Masked, Op.early]
  · rw [first.code]
    simp [Op.early]
  · rw [first.saved]
    simp [Masked, Op.early]

theorem step_hard {action : Action T} (inv : Counted s ∧ Shut s ∧ Flagged .hard s) (taken : step action s = some s') :
    Counted s' ∧ Shut s' ∧ Flagged .hard s' := by
  obtain ⟨counted, shut, flagged⟩ := inv
  refine ⟨step_counted counted taken, ?_⟩
  obtain ⟨_, ⟨choice, op, rest, _, here, run⟩ | ⟨user, _, on, rfl⟩⟩ := step_cases taken
  · exact ⟨op_shut counted shut here run, op_flagged counted flagged here run⟩
  · exact ⟨interrupt_shut counted shut on, interrupt_flagged counted flagged ((early_absent (shut.enabled on)).2 rfl)⟩

theorem step_soft {action : Action T} (inv : (Counted s ∧ Shut s ∧ Flagged .hard s) ∧ Flagged .soft s)
    (taken : flatStep action s = some s') : (Counted s' ∧ Shut s' ∧ Flagged .hard s') ∧ Flagged .soft s' := by
  obtain ⟨⟨counted, shut, flagged⟩, soft⟩ := inv
  rw [flatStep, Option.ite_none_left_eq_some, Bool.not_eq_true] at taken
  obtain ⟨flat, taken⟩ := taken
  refine ⟨step_hard ⟨counted, shut, flagged⟩ taken, ?_⟩
  obtain ⟨_, ⟨choice, op, rest, rfl, here, run⟩ | ⟨user, rfl, on, rfl⟩⟩ := step_cases taken
  · exact op_flagged counted soft here run
  · have none : depth .soft s.code = 0 := by
      rcases phased_depth soft.phased with zero | one
      · exact zero
      · simp [Nests, one] at flat
    exact interrupt_flagged counted soft (leave_absent (early_absent (shut.enabled on)).1 none)

omit [DecidableEq T] in
theorem flag_iff {p : Phase} (flagged : Flagged p s) : p.flag s = true ↔ InPhase p s := by
  rw [flagged.flag, InPhase]
  constructor
  · exact fun one => .inl (Int.le_of_eq one.symm)
  · rintro (one | ⟨t, other, one⟩)
    · rcases phased_depth flagged.phased with zero | same
      · omega
      · exact same
    · obtain ⟨phased, absent⟩ := flagged.saved t other
      rw [depth_zero phased absent] at one
      exact absurd one (by decide)

-- The flag of the hard phase and the counters are right in every run. That of the soft phase is as long as no
-- interrupt comes in it, and wrong as soon as an activation leaves the phase that was nested in it.
theorem interrupt_flags :
    (∀ s : State T, Reachable booted step s → (s.inInterruptHard = true ↔ InPhase .hard s) ∧
      ∀ (s' : State T) (user : Bool), Reachable booted step s' → s'.code = .iret user :: s.code →
        s'.preemptCounter = s.preemptCounter ∧ s'.deferredWorkStatus = s.deferredWorkStatus) ∧
    (∀ s : State T, Reachable booted flatStep s → (s.inInterruptSoft = true ↔ InPhase .soft s)) ∧
    ∀ s s' : State T, ∀ choice rest, s.code = .softLeave :: rest → 1 ≤ depth .soft rest → step (.run choice) s = some s' →
      ¬ (s'.inInterruptSoft = true ↔ InPhase .soft s') := by
  have start : ∀ s : State T, booted s → Counted s ∧ Shut s ∧ Flagged .hard s := fun s first =>
    ⟨initial_counted first.toinitial, booted_shut first, booted_flagged .hard first⟩
  have all : ∀ s : State T, Reachable booted step s → Counted s ∧ Shut s ∧ Flagged .hard s := fun s reach =>
    reachable_invariant start (fun _ _ _ => step_hard) reach
  refine ⟨fun s reach => ⟨flag_iff (all s reach).2.2, fun s' user reach' code => ?_⟩, fun s reach => ?_, ?_⟩
  · have counted := (all s reach).1
    have counted' := (all s' reach').1
    have preempt := counted'.preemptCounter
    have status := counted'.status
    rw [code, preemptOwed, ← counted.preemptCounter] at preempt
    rw [code, statusOwed, ← counted.status] at status
    simp only [Op.preempt, Op.status] at preempt status
    omega
  · have startSoft : ∀ s : State T, booted s → (Counted s ∧ Shut s ∧ Flagged .hard s) ∧ Flagged .soft s := fun s first =>
      ⟨start s first, booted_flagged .soft first⟩
    exact flag_iff (reachable_invariant startSoft (fun _ _ _ => step_soft) reach).2
  · intro s s' choice rest here nested taken right
    obtain ⟨_, ⟨_, op, _, _, code, run⟩ | ⟨_, action, _⟩⟩ := step_cases taken
    · obtain ⟨rfl, rfl⟩ := List.cons.inj (here.symm.trans code)
      cases run
      exact absurd (right.mpr (.inl nested)) Bool.false_ne_true
    · cases action

end Steps

theorem alone_booted : booted alone := ⟨alone_initial, rfl, rfl⟩

-- A second interrupt comes after the first has enabled them again, and leaves its soft phase.
theorem interrupt_flags_nested : ∃ s : State Unit, Reachable booted step s ∧ s.inInterruptSoft = false ∧ InPhase .soft s := by
  have wrong : (execute step (next 1 ++ .interrupt false :: next 7 ++ .interrupt false :: next 11) alone).any
      (fun s => s.inInterruptSoft = false ∧ 1 ≤ depth .soft s.code) = true := by decide +kernel
  obtain ⟨s, run, facts⟩ := (Option.any_eq_true _ _).mp wrong
  obtain ⟨flag, inside⟩ := of_decide_eq_true facts
  exact ⟨s, reachable_execute (.start alone alone_booted) run, flag, .inl inside⟩

-- One interrupt up to its iret, one in its soft phase after another, and one that leaves the soft phase inside another.
theorem interrupt_flags_twice :
    (∃ s s' : State Unit, s'.code = .iret false :: s.code ∧ s'.preemptCounter = s.preemptCounter ∧ s'.deferredWorkStatus = s.deferredWorkStatus) ∧
      (∃ s : State Unit, Reachable booted flatStep s ∧ s.inInterruptSoft = true ∧ InPhase .soft s) ∧
      ∃ s s' : State Unit, step (.run .finish) s = some s' ∧ ¬ (s'.inInterruptSoft = true ↔ InPhase .soft s') := by
  obtain ⟨balanced, flat, nested⟩ := interrupt_flags (T := Unit)
  refine ⟨?_, ?_, ?_⟩
  · have ends : (execute step (next 1 ++ .interrupt false :: next 22) alone).any (fun s => s.code = [.iret false, .body false]) = true := by
      decide +kernel
    have begins : (execute step (next 1) alone).any (fun s => s.code = [.body false]) = true := by decide +kernel
    obtain ⟨s', run', code'⟩ := (Option.any_eq_true _ _).mp ends
    obtain ⟨s, run, code⟩ := (Option.any_eq_true _ _).mp begins
    have codes : s'.code = .iret false :: s.code := by rw [of_decide_eq_true code', of_decide_eq_true code]
    exact ⟨s, s', codes, (balanced s (reachable_execute (.start alone alone_booted) run)).2 s' false
      (reachable_execute (.start alone alone_booted) run') codes⟩
  · have ends : (execute flatStep (next 1 ++ .interrupt false :: next 23 ++ .interrupt false :: next 7) alone).any
        (fun s => s.inInterruptSoft = true) = true := by decide +kernel
    obtain ⟨s, run, flag⟩ := (Option.any_eq_true _ _).mp ends
    have reach := reachable_execute (.start alone alone_booted) run
    exact ⟨s, reach, of_decide_eq_true flag, (flat s reach).mp (of_decide_eq_true flag)⟩
  · have ends : (execute step (next 1 ++ .interrupt false :: next 7 ++ .interrupt false :: next 10) alone).any
        (fun s => s.code.head? = some .softLeave ∧ 1 ≤ depth .soft s.code.tail ∧ s.failed = false) = true := by decide +kernel
    obtain ⟨s, _, facts⟩ := (Option.any_eq_true _ _).mp ends
    obtain ⟨head, inside, working⟩ := of_decide_eq_true facts
    obtain ⟨rest, code⟩ := List.head?_eq_some_iff.mp head
    rw [code, List.tail_cons] at inside
    have taken : step (.run .finish) s = some { s.goto rest with inInterruptSoft := false } := by
      simp [step, working, code, runOp]
    exact ⟨s, _, taken, nested s _ .finish rest code inside taken⟩

end Elysium.Interrupts
