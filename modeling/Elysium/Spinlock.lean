import Elysium.Transitions
import Mathlib.Data.Fintype.Card
import Mathlib.Data.Fintype.Lattice
import Mathlib.Data.Fintype.Basic

set_option autoImplicit false

namespace Elysium.Spinlock

open Transitions (Reachable reachable_invariant execute reachable_execute)

-- spinlock_acquire, spinlock_acquire_nodw, spinlock_acquire_noint and spinlock_acquire_raw.
inductive Flavour where
  | preemption
  | nodw
  | noint
  | raw
deriving DecidableEq, Repr

structure Entry (L : Type) where
  lock : L
  flavour : Flavour
deriving DecidableEq, Repr

-- What a CPU is in the middle of. masked is between interrupt_state_mask and interrupt_state_restore, work is in
-- dw_process, and interrupt in the handler of an interrupt up to its end or to its deferred work.
inductive Item (L : Type) where
  | spinning (entry : Entry L)
  | held (entry : Entry L)
  | masked (previous : Bool)
  | work
  | interrupt
deriving DecidableEq, Repr

-- inside, with the latest first, is not in the code.
structure Cpu (L : Type) where
  interrupts : Bool
  deferredWorkStatus : Nat
  preemptCounter : Nat
  inside : List (Item L)
deriving DecidableEq, Repr

structure State (C L : Type) where
  cpu : C → Cpu L
  locks : L → Bool

-- The order in which the kernel takes its locks. A lock that is held while deferred work may run is below all that deferred
-- work takes, and one that is held while interrupts are enabled is below all that interrupt handlers take.
structure Order (L : Type) where
  rank : L → Nat
  work : Nat
  interrupt : Nat

inductive Context where
  | thread
  | work
  | interrupt
deriving DecidableEq, Repr

inductive Action (L : Type) where
  | acquire (lock : L) (flavour : Flavour)
  | test
  | release
  | mask
  | unmask
  | interrupt
  | iret
  | work
  | rest
deriving DecidableEq, Repr

section Model

variable {C L : Type} [DecidableEq C] [DecidableEq L] (o : Order L)

def Flavour.disables : Flavour → Nat
  | .preemption | .raw => 0
  | .nodw | .noint => 1

def Flavour.pins : Flavour → Nat
  | .raw => 0
  | .preemption | .nodw | .noint => 1

-- The locks of what runs now, and what it is.
def mine : List (Item L) → List L
  | .spinning entry :: inside | .held entry :: inside => entry.lock :: mine inside
  | .masked _ :: inside => mine inside
  | .work :: _ | .interrupt :: _ | [] => []

def context : List (Item L) → Context
  | .spinning _ :: inside | .held _ :: inside | .masked _ :: inside => context inside
  | .work :: _ => .work
  | .interrupt :: _ => .interrupt
  | [] => .thread

-- The assertions on the context are those of spinlock.c.
structure Allowed (cpu : Cpu L) (lock : L) (flavour : Flavour) : Prop where
  raises : ∀ other ∈ mine cpu.inside, o.rank other < o.rank lock
  soft : context cpu.inside = .work → o.work ≤ o.rank lock
  hard : context cpu.inside = .interrupt → o.interrupt ≤ o.rank lock ∧ flavour ≠ .preemption ∧ flavour ≠ .nodw
  underWork : flavour.disables = 0 → cpu.deferredWorkStatus = 0 → o.rank lock < o.work
  underInterrupts : flavour ≠ .noint → cpu.interrupts = true → o.rank lock < o.interrupt
  pinned : flavour = .raw → 0 < cpu.preemptCounter

instance (cpu : Cpu L) (lock : L) (flavour : Flavour) : Decidable (Allowed o cpu lock flavour) :=
  decidable_of_iff ((∀ other ∈ mine cpu.inside, o.rank other < o.rank lock) ∧ (context cpu.inside = .work → o.work ≤ o.rank lock) ∧
      (context cpu.inside = .interrupt → o.interrupt ≤ o.rank lock ∧ flavour ≠ .preemption ∧ flavour ≠ .nodw) ∧
      (flavour.disables = 0 → cpu.deferredWorkStatus = 0 → o.rank lock < o.work) ∧
      (flavour ≠ .noint → cpu.interrupts = true → o.rank lock < o.interrupt) ∧ (flavour = .raw → 0 < cpu.preemptCounter))
    ⟨fun ⟨raises, soft, hard, underWork, underInterrupts, pinned⟩ => ⟨raises, soft, hard, underWork, underInterrupts, pinned⟩,
      fun ⟨raises, soft, hard, underWork, underInterrupts, pinned⟩ => ⟨raises, soft, hard, underWork, underInterrupts, pinned⟩⟩

def enter (cpu : Cpu L) (lock : L) (flavour : Flavour) : Cpu L where
  interrupts := cpu.interrupts && flavour ≠ .noint
  deferredWorkStatus := cpu.deferredWorkStatus + flavour.disables
  preemptCounter := cpu.preemptCounter + flavour.pins
  inside := .spinning ⟨lock, flavour⟩ :: if flavour = .noint then .masked cpu.interrupts :: cpu.inside else cpu.inside

-- spinlock_release_noint goes on with the interrupt_state_restore of masked.
def leave (cpu : Cpu L) (flavour : Flavour) (inside : List (Item L)) : Cpu L where
  interrupts := cpu.interrupts
  deferredWorkStatus := cpu.deferredWorkStatus - flavour.disables
  preemptCounter := cpu.preemptCounter - flavour.pins
  inside := inside

def spins : List (Item L) → Bool
  | .spinning _ :: _ => true
  | _ => false

def setCpu (s : State C L) (c : C) (cpu : Cpu L) : State C L := { s with cpu := Function.update s.cpu c cpu }

def setLock (s : State C L) (lock : L) (taken : Bool) : State C L := { s with locks := Function.update s.locks lock taken }

-- A release gives back the lock that was taken last. An interrupt comes at any step where interrupts are enabled, and deferred work
-- where it is, which is in the end of a handler or of a release.
def cpuStep (s : State C L) (c : C) (cpu : Cpu L) : Action L → List (Item L) → Option (State C L)
  | .acquire lock flavour, inside =>
      if spins inside = false ∧ Allowed o cpu lock flavour then some (setCpu s c (enter cpu lock flavour)) else none
  | .test, .spinning entry :: inside =>
      if s.locks entry.lock then some s else some (setCpu (setLock s entry.lock true) c { cpu with inside := .held entry :: inside })
  | .release, .held entry :: inside => some (setCpu (setLock s entry.lock false) c (leave cpu entry.flavour inside))
  | .mask, inside =>
      if spins inside = false then some (setCpu s c { cpu with interrupts := false, inside := .masked cpu.interrupts :: inside }) else none
  | .unmask, .masked previous :: inside => some (setCpu s c { cpu with interrupts := previous, inside := inside })
  | .interrupt, inside =>
      if cpu.interrupts then some (setCpu s c ⟨false, cpu.deferredWorkStatus + 1, cpu.preemptCounter + 1, .interrupt :: inside⟩) else none
  | .iret, .interrupt :: inside => some (setCpu s c ⟨true, cpu.deferredWorkStatus - 1, cpu.preemptCounter - 1, inside⟩)
  | .work, inside =>
      if cpu.deferredWorkStatus = 0 then some (setCpu s c { cpu with deferredWorkStatus := cpu.deferredWorkStatus + 1, inside := .work :: inside })
      else none
  | .rest, .work :: inside => some (setCpu s c { cpu with deferredWorkStatus := cpu.deferredWorkStatus - 1, inside := inside })
  | _, _ => none

def step (action : C × Action L) (s : State C L) : Option (State C L) :=
  cpuStep o s action.1 (s.cpu action.1) action.2 (s.cpu action.1).inside

def initial (s : State C L) : Prop := (∀ c, s.cpu c = ⟨true, 0, 0, []⟩) ∧ ∀ lock, s.locks lock = false

end Model

section Inside

variable {L : Type} {o : Order L} {inside : List (Item L)} {taken : L}

-- What the flags of a CPU are for what it is in.
def enabled : List (Item L) → Bool
  | .spinning _ :: inside | .held _ :: inside | .work :: inside => enabled inside
  | .masked _ :: _ | .interrupt :: _ => false
  | [] => true

def disabled : List (Item L) → Nat
  | .spinning entry :: inside | .held entry :: inside => disabled inside + entry.flavour.disables
  | .masked _ :: inside => disabled inside
  | .work :: inside | .interrupt :: inside => disabled inside + 1
  | [] => 0

def pinned : List (Item L) → Nat
  | .spinning entry :: inside | .held entry :: inside => pinned inside + entry.flavour.pins
  | .masked _ :: inside | .work :: inside => pinned inside
  | .interrupt :: inside => pinned inside + 1
  | [] => 0

def Item.lock : Item L → Option L
  | .spinning entry | .held entry => some entry.lock
  | .masked _ | .work | .interrupt => none

def Item.heldLock : Item L → Option L
  | .held entry => some entry.lock
  | .spinning _ | .masked _ | .work | .interrupt => none

def every (inside : List (Item L)) : List L := inside.filterMap Item.lock

def heldLocks (inside : List (Item L)) : List L := inside.filterMap Item.heldLock

-- A lock that was taken in this order.
structure Fits (o : Order L) (entry : Entry L) (inside : List (Item L)) : Prop where
  raises : ∀ other ∈ mine inside, o.rank other < o.rank entry.lock
  soft : context inside = .work → o.work ≤ o.rank entry.lock
  hard : context inside = .interrupt → o.interrupt ≤ o.rank entry.lock
  underWork : disabled inside + entry.flavour.disables = 0 → o.rank entry.lock < o.work
  underInterrupts : enabled inside = true → o.rank entry.lock < o.interrupt
  pinned : entry.flavour = .raw → 0 < pinned inside

def Ordered (o : Order L) : List (Item L) → Prop
  | .spinning entry :: inside | .held entry :: inside => Fits o entry inside ∧ Ordered o inside
  | .masked previous :: inside => previous = enabled inside ∧ Ordered o inside
  | .work :: inside => disabled inside = 0 ∧ Ordered o inside
  | .interrupt :: inside => enabled inside = true ∧ Ordered o inside
  | [] => True

theorem every_work (ordered : Ordered o inside) (opened : disabled inside = 0) : ∀ lock ∈ every inside, o.rank lock < o.work := by
  induction inside with
  | nil => exact fun lock member => absurd member List.not_mem_nil
  | cons item inside ih =>
      intro lock member
      cases item with
      | spinning entry | held entry =>
          have later : disabled inside = 0 := Nat.eq_zero_of_add_eq_zero_right opened
          rcases List.mem_cons.mp member with rfl | rest
          · exact ordered.1.underWork opened
          · exact ih ordered.2 later lock rest
      | masked previous => exact ih ordered.2 opened lock member
      | work | interrupt => exact absurd opened (Nat.succ_ne_zero _)

theorem every_interrupt (ordered : Ordered o inside) (opened : enabled inside = true) : ∀ lock ∈ every inside, o.rank lock < o.interrupt := by
  induction inside with
  | nil => exact fun lock member => absurd member List.not_mem_nil
  | cons item inside ih =>
      intro lock member
      cases item with
      | spinning entry | held entry =>
          rcases List.mem_cons.mp member with rfl | rest
          · exact ordered.1.underInterrupts opened
          · exact ih ordered.2 opened lock rest
      | work => exact ih ordered.2 opened lock member
      | masked previous | interrupt => cases opened

-- What runs now has taken a lock, or what it interrupts has.
theorem every_below (ordered : Ordered o inside) (member : taken ∈ every inside) : taken ∈ mine inside ∨
    (context inside = .work ∧ o.rank taken < o.work) ∨ (context inside = .interrupt ∧ o.rank taken < o.interrupt) := by
  induction inside with
  | nil => exact absurd member List.not_mem_nil
  | cons item inside ih =>
      cases item with
      | spinning entry | held entry =>
          rcases List.mem_cons.mp member with rfl | rest
          · exact .inl List.mem_cons_self
          · exact (ih ordered.2 rest).imp (List.mem_cons_of_mem _) id
      | masked previous => exact ih ordered.2 member
      | work => exact .inr (.inl ⟨rfl, every_work ordered.2 ordered.1 taken member⟩)
      | interrupt => exact .inr (.inr ⟨rfl, every_interrupt ordered.2 ordered.1 taken member⟩)

-- The locks of a CPU are taken in the order of their ranks, through all that interrupts each other there.
theorem fits_raises {entry : Entry L} (fits : Fits o entry inside) (ordered : Ordered o inside) (member : taken ∈ every inside) :
    o.rank taken < o.rank entry.lock := by
  rcases every_below ordered member with same | ⟨soft, low⟩ | ⟨hard, low⟩
  · exact fits.raises taken same
  · exact Nat.lt_of_lt_of_le low (fits.soft soft)
  · exact Nat.lt_of_lt_of_le low (fits.hard hard)

theorem held_every (member : taken ∈ heldLocks inside) : taken ∈ every inside := by
  obtain ⟨item, there, isHeld⟩ := List.mem_filterMap.mp member
  refine List.mem_filterMap.mpr ⟨item, there, ?_⟩
  cases item with
  | held entry => exact isHeld
  | spinning | masked | work | interrupt => cases isHeld

theorem held_nodup (ordered : Ordered o inside) : (heldLocks inside).Nodup := by
  induction inside with
  | nil => exact List.nodup_nil
  | cons item inside ih =>
      cases item with
      | held entry =>
          refine List.nodup_cons.mpr ⟨fun member => ?_, ih ordered.2⟩
          exact Nat.lt_irrefl _ (fits_raises ordered.1 ordered.2 (held_every member))
      | spinning | masked | work | interrupt => exact ih ordered.2

-- Nothing is taken where a CPU may go to another thread.
theorem pinned_every (ordered : Ordered o inside) (free : pinned inside = 0) : every inside = [] := by
  induction inside with
  | nil => rfl
  | cons item inside ih =>
      cases item with
      | spinning entry | held entry =>
          obtain ⟨fits, _⟩ := ordered
          have both : pinned inside = 0 ∧ entry.flavour.pins = 0 := Nat.add_eq_zero_iff.mp free
          cases flavour : entry.flavour with
          | raw =>
              have positive := fits.pinned flavour
              omega
          | preemption | nodw | noint =>
              rw [flavour] at both
              exact absurd both.2 (Nat.succ_ne_zero _)
      | masked previous | work => exact ih ordered.2 free
      | interrupt => exact absurd free (Nat.succ_ne_zero _)

end Inside

structure Sound {L : Type} (o : Order L) (cpu : Cpu L) : Prop where
  interrupts : cpu.interrupts = enabled cpu.inside
  work : cpu.deferredWorkStatus = disabled cpu.inside
  preempt : cpu.preemptCounter = pinned cpu.inside
  ordered : Ordered o cpu.inside

structure Inv {C L : Type} (o : Order L) (s : State C L) : Prop where
  cpus : ∀ c, Sound o (s.cpu c)
  locked : ∀ lock, s.locks lock = true ↔ ∃ c, lock ∈ heldLocks (s.cpu c).inside
  once : ∀ c c' lock, lock ∈ heldLocks (s.cpu c).inside → lock ∈ heldLocks (s.cpu c').inside → c = c'

section Steps

variable {C L : Type} {o : Order L} {s s' : State C L} {c : C} {cpu : Cpu L} {entry : Entry L} {inside : List (Item L)}

theorem enter_sound {lock : L} {flavour : Flavour} (sound : Sound o cpu) (allowed : Allowed o cpu lock flavour) :
    Sound o (enter cpu lock flavour) := by
  obtain ⟨interrupts, work, preempt, ordered⟩ := sound
  obtain ⟨raises, soft, hard, underWork, underInterrupts, pinned_⟩ := allowed
  rw [interrupts] at underInterrupts
  rw [work] at underWork
  rw [preempt] at pinned_
  by_cases masks : flavour = .noint
  · subst masks
    refine ⟨?_, ?_, ?_, ⟨raises, soft, fun inHard => (hard inHard).1, fun none => absurd none (Nat.succ_ne_zero _), fun on => ?_, ?_⟩, interrupts, ordered⟩
    · exact Bool.and_false _
    · exact congrArg (· + 1) work
    · exact congrArg (· + 1) preempt
    · cases on
    · rintro ⟨⟩
  · have same : (enter cpu lock flavour).inside = .spinning ⟨lock, flavour⟩ :: cpu.inside := congrArg (List.cons _) (if_neg masks)
    refine ⟨?_, ?_, ?_, ?_⟩
    · rw [same, enter, interrupts]
      simp [masks, enabled]
    · rw [same, enter, work]
      rfl
    · rw [same, enter, preempt]
      rfl
    · rw [same]
      refine ⟨⟨raises, soft, fun inHard => (hard inHard).1, fun none => ?_, underInterrupts masks, pinned_⟩, ordered⟩
      have both := Nat.add_eq_zero_iff.mp none
      exact underWork both.2 both.1

theorem enter_held (cpu : Cpu L) (lock : L) (flavour : Flavour) : heldLocks (enter cpu lock flavour).inside = heldLocks cpu.inside := by
  by_cases masks : flavour = .noint
  · rw [enter, if_pos masks]
    rfl
  · rw [enter, if_neg masks]
    rfl

theorem initial_inv (starts : initial s) : Inv o s := by
  obtain ⟨cpus, locks⟩ := starts
  refine ⟨fun c => ?_, fun lock => ?_, fun c c' lock member => ?_⟩
  · rw [cpus]
    exact ⟨rfl, rfl, rfl, trivial⟩
  · simp only [locks, cpus]
    exact ⟨fun isTrue => absurd isTrue Bool.false_ne_true, fun ⟨_, member⟩ => absurd member List.not_mem_nil⟩
  · rw [cpus] at member
    exact absurd member List.not_mem_nil

-- A CPU whose lock is taken cannot be the one with the highest rank of those that spin.
theorem some_runs [Finite C] [Nonempty C] (inv : Inv o s) : ∃ c, ∀ entry inside, (s.cpu c).inside = .spinning entry :: inside → s.locks entry.lock = false := by
  by_contra none
  push Not at none
  choose entry inside spinning taken using none
  obtain ⟨c, highest⟩ := Finite.exists_max fun c => o.rank (entry c).lock
  obtain ⟨c', member⟩ := (inv.locked _).mp (Bool.eq_true_of_not_eq_false (taken c))
  have ordered := (inv.cpus c').ordered
  rw [spinning c'] at member ordered
  exact Nat.lt_irrefl _ (Nat.lt_of_lt_of_le (fits_raises ordered.1 ordered.2 (held_every member)) (highest c'))

variable [DecidableEq C]

theorem set_cpu_same : (setCpu s c cpu).cpu c = cpu := Function.update_self _ _ _

theorem set_cpu_other {c' : C} (other : c' ≠ c) : (setCpu s c cpu).cpu c' = s.cpu c' := Function.update_of_ne other _ _

-- A step of one CPU that takes no lock and gives none back.
theorem set_cpu_inv (inv : Inv o s) (sound : Sound o cpu) (same : heldLocks cpu.inside = heldLocks (s.cpu c).inside) : Inv o (setCpu s c cpu) := by
  have held : ∀ c', heldLocks ((setCpu s c cpu).cpu c').inside = heldLocks (s.cpu c').inside := fun c' => by
    by_cases here : c' = c
    · rw [here, set_cpu_same, same]
    · rw [set_cpu_other here]
  refine ⟨fun c' => ?_, fun lock => ?_, fun c₁ c₂ lock first second => ?_⟩
  · by_cases here : c' = c
    · rw [here, set_cpu_same]
      exact sound
    · rw [set_cpu_other here]
      exact inv.cpus c'
  · simp only [held]
    exact inv.locked lock
  · rw [held] at first second
    exact inv.once c₁ c₂ lock first second

variable [DecidableEq L]

theorem test_inv (inv : Inv o s) (spinning : (s.cpu c).inside = .spinning entry :: inside) (free : ¬ s.locks entry.lock = true) :
    Inv o (setCpu (setLock s entry.lock true) c { s.cpu c with inside := .held entry :: inside }) := by
  have before := inv.cpus c
  obtain ⟨interrupts, work, preempt, ordered⟩ := before
  rw [spinning] at interrupts work preempt ordered
  have nobody : ∀ c', entry.lock ∉ heldLocks (s.cpu c').inside := fun c' member => free ((inv.locked _).mpr ⟨c', member⟩)
  have fewer : heldLocks (s.cpu c).inside = heldLocks inside := by
    rw [spinning]
    rfl
  have held : ∀ c' lock, lock ∈ heldLocks ((setCpu (setLock s entry.lock true) c { s.cpu c with inside := .held entry :: inside }).cpu c').inside ↔
      lock ∈ heldLocks (s.cpu c').inside ∨ c' = c ∧ lock = entry.lock := fun c' lock => by
    by_cases here : c' = c
    · rw [here, set_cpu_same, fewer]
      exact List.mem_cons.trans (or_comm.trans (or_congr_right (and_iff_right rfl).symm))
    · rw [set_cpu_other here]
      exact (or_iff_left fun same => here same.1).symm
  refine ⟨fun c' => ?_, fun lock => ?_, fun c₁ c₂ lock first second => ?_⟩
  · by_cases here : c' = c
    · rw [here, set_cpu_same]
      exact ⟨interrupts, work, preempt, ordered⟩
    · rw [set_cpu_other here]
      exact inv.cpus c'
  · simp only [held]
    by_cases same : lock = entry.lock
    · subst same
      exact ⟨fun _ => ⟨c, .inr ⟨rfl, rfl⟩⟩, fun _ => Function.update_self _ _ _⟩
    · have kept : (setLock s entry.lock true).locks lock = s.locks lock := Function.update_of_ne same _ _
      refine Iff.trans (by rw [← kept]; rfl) ((inv.locked lock).trans ⟨fun ⟨c', member⟩ => ⟨c', .inl member⟩, ?_⟩)
      rintro ⟨c', member | ⟨_, isEntry⟩⟩
      · exact ⟨c', member⟩
      · exact absurd isEntry same
  · rw [held] at first second
    rcases first with first | ⟨rfl, rfl⟩
    · rcases second with second | ⟨rfl, rfl⟩
      · exact inv.once c₁ c₂ lock first second
      · exact absurd first (nobody c₁)
    · rcases second with second | ⟨rfl, _⟩
      · exact absurd second (nobody c₂)
      · rfl

theorem release_inv (inv : Inv o s) (top : (s.cpu c).inside = .held entry :: inside) :
    Inv o (setCpu (setLock s entry.lock false) c (leave (s.cpu c) entry.flavour inside)) := by
  obtain ⟨interrupts, work, preempt, ordered⟩ := inv.cpus c
  rw [top] at interrupts work preempt ordered
  have more : heldLocks (s.cpu c).inside = entry.lock :: heldLocks inside := by
    rw [top]
    rfl
  -- The locks below have lower ranks.
  have gone : entry.lock ∉ heldLocks inside := fun member => Nat.lt_irrefl _ (fits_raises ordered.1 ordered.2 (held_every member))
  have held : ∀ c' lock, lock ∈ heldLocks ((setCpu (setLock s entry.lock false) c (leave (s.cpu c) entry.flavour inside)).cpu c').inside ↔
      lock ∈ heldLocks (s.cpu c').inside ∧ lock ≠ entry.lock := fun c' lock => by
    by_cases here : c' = c
    · rw [here, set_cpu_same, more, List.mem_cons]
      refine ⟨fun member => ⟨.inr member, fun same => gone (same ▸ member)⟩, fun ⟨member, other⟩ => member.resolve_left other⟩
    · rw [set_cpu_other here]
      refine ⟨fun member => ⟨member, fun same => here (inv.once c' c lock member ?_)⟩, And.left⟩
      rw [more, same]
      exact List.mem_cons_self
  refine ⟨fun c' => ?_, fun lock => ?_, fun c₁ c₂ lock first second => ?_⟩
  · by_cases here : c' = c
    · rw [here, set_cpu_same]
      refine ⟨interrupts, ?_, ?_, ordered.2⟩
      · rw [leave, work]
        exact Nat.add_sub_cancel _ _
      · rw [leave, preempt]
        exact Nat.add_sub_cancel _ _
    · rw [set_cpu_other here]
      exact inv.cpus c'
  · simp only [held]
    by_cases same : lock = entry.lock
    · subst same
      have cleared : (setCpu (setLock s entry.lock false) c (leave (s.cpu c) entry.flavour inside)).locks entry.lock = false :=
        Function.update_self _ _ _
      rw [cleared]
      exact ⟨fun isTrue => absurd isTrue Bool.false_ne_true, fun ⟨_, _, other⟩ => absurd rfl other⟩
    · have kept : (setCpu (setLock s entry.lock false) c (leave (s.cpu c) entry.flavour inside)).locks lock = s.locks lock :=
        Function.update_of_ne same _ _
      rw [kept, inv.locked]
      exact ⟨fun ⟨c', member⟩ => ⟨c', member, same⟩, fun ⟨c', member, _⟩ => ⟨c', member⟩⟩
  · rw [held] at first second
    exact inv.once c₁ c₂ lock first.1 second.1

-- The steps that go on with what a CPU is in.
def Continues (action : Action L) (item : Item L) : Prop :=
  match action, item with
  | .test, .spinning _ | .release, .held _ | .unmask, .masked _ | .iret, .interrupt | .rest, .work => True
  | _, _ => False

theorem step_top {action : Action L} (continues : action = .test ∨ action = .release ∨ action = .unmask ∨ action = .iret ∨ action = .rest)
    (taken : cpuStep o s c cpu action inside = some s') : ∃ item rest, inside = item :: rest ∧ Continues action item := by
  cases inside with
  | nil => rcases continues with rfl | rfl | rfl | rfl | rfl <;> cases taken
  | cons item rest =>
      refine ⟨item, rest, rfl, ?_⟩
      rcases continues with rfl | rfl | rfl | rfl | rfl <;> cases item <;> trivial

theorem step_inv {action : C × Action L} (inv : Inv o s) (taken : step o action s = some s') : Inv o s' := by
  obtain ⟨c, action⟩ := action
  obtain ⟨interrupts, work, preempt, ordered⟩ := inv.cpus c
  have same : ∀ {cpu : Cpu L}, heldLocks cpu.inside = heldLocks (s.cpu c).inside → Sound o cpu → Inv o (setCpu s c cpu) :=
    fun kept sound => set_cpu_inv inv sound kept
  change cpuStep o s c (s.cpu c) action (s.cpu c).inside = some s' at taken
  cases action with
  | acquire lock flavour =>
      rw [cpuStep, Option.ite_none_right_eq_some] at taken
      obtain ⟨⟨_, allowed⟩, taken⟩ := taken
      obtain rfl := Option.some.inj taken
      exact same (enter_held _ _ _) (enter_sound (inv.cpus c) allowed)
  | mask =>
      rw [cpuStep, Option.ite_none_right_eq_some] at taken
      obtain ⟨_, taken⟩ := taken
      obtain rfl := Option.some.inj taken
      exact same rfl ⟨rfl, work, preempt, interrupts, ordered⟩
  | interrupt =>
      rw [cpuStep, Option.ite_none_right_eq_some] at taken
      obtain ⟨on, taken⟩ := taken
      obtain rfl := Option.some.inj taken
      exact same rfl ⟨rfl, congrArg (· + 1) work, congrArg (· + 1) preempt, interrupts.symm.trans on, ordered⟩
  | work =>
      rw [cpuStep, Option.ite_none_right_eq_some] at taken
      obtain ⟨free, taken⟩ := taken
      obtain rfl := Option.some.inj taken
      exact same rfl ⟨interrupts, congrArg (· + 1) work, preempt, work.symm.trans free, ordered⟩
  | test =>
      obtain ⟨item, inside, top, kind⟩ := step_top (.inl rfl) taken
      cases item with
      | spinning entry =>
          rw [top, cpuStep] at taken
          split at taken
          · obtain rfl := Option.some.inj taken
            exact inv
          · rename_i free
            obtain rfl := Option.some.inj taken
            exact test_inv inv top free
      | held | masked | work | interrupt => exact kind.elim
  | release =>
      obtain ⟨item, inside, top, kind⟩ := step_top (.inr (.inl rfl)) taken
      cases item with
      | held entry =>
          rw [top] at taken
          obtain rfl := Option.some.inj taken
          exact release_inv inv top
      | spinning | masked | work | interrupt => exact kind.elim
  | unmask =>
      obtain ⟨item, inside, top, kind⟩ := step_top (.inr (.inr (.inl rfl))) taken
      rw [top] at taken work preempt ordered same
      cases item with
      | masked previous =>
          obtain rfl := Option.some.inj taken
          exact same rfl ⟨ordered.1, work, preempt, ordered.2⟩
      | spinning | held | work | interrupt => exact kind.elim
  | iret =>
      obtain ⟨item, inside, top, kind⟩ := step_top (.inr (.inr (.inr (.inl rfl)))) taken
      rw [top] at taken work preempt ordered same
      cases item with
      | interrupt =>
          obtain rfl := Option.some.inj taken
          refine same rfl ⟨ordered.1.symm, ?_, ?_, ordered.2⟩
          · rw [work]
            rfl
          · rw [preempt]
            rfl
      | spinning | held | masked | work => exact kind.elim
  | rest =>
      obtain ⟨item, inside, top, kind⟩ := step_top (.inr (.inr (.inr (.inr rfl)))) taken
      rw [top] at taken interrupts work preempt ordered same
      cases item with
      | work =>
          obtain rfl := Option.some.inj taken
          refine same rfl ⟨interrupts, ?_, preempt, ordered.2⟩
          rw [work]
          rfl
      | spinning | held | masked | interrupt => exact kind.elim

end Steps

-- Spinlocks that are taken in order exclude each other on all CPUs and under any nesting of interrupts and deferred work, are not
-- held where a CPU may leave its thread, and never come to where every CPU spins.
theorem spinlocks_sound {C L : Type} [DecidableEq C] [DecidableEq L] [Finite C] [Nonempty C] (o : Order L) {s : State C L}
    (reach : Reachable initial (step o) s) :
    (∀ lock, s.locks lock = true ↔ ∃ c, lock ∈ heldLocks (s.cpu c).inside) ∧
      (∀ c c' lock, lock ∈ heldLocks (s.cpu c).inside → lock ∈ heldLocks (s.cpu c').inside → c = c') ∧
      (∀ c, (heldLocks (s.cpu c).inside).Nodup) ∧
      (∀ c entry inside, (s.cpu c).inside = .spinning entry :: inside → entry.lock ∉ heldLocks inside) ∧
      (∀ c, (s.cpu c).preemptCounter = 0 → heldLocks (s.cpu c).inside = []) ∧
      ∃ c, ∀ entry inside, (s.cpu c).inside = .spinning entry :: inside → s.locks entry.lock = false := by
  have inv : Inv o s := reachable_invariant (fun s starts => initial_inv starts) (fun action s s' inv taken => step_inv inv taken) reach
  refine ⟨inv.locked, inv.once, fun c => ?_, fun c entry inside spinning member => ?_, fun c free => ?_, some_runs inv⟩
  · exact held_nodup (inv.cpus c).ordered
  · have ordered := (inv.cpus c).ordered
    rw [spinning] at ordered
    exact Nat.lt_irrefl _ (fits_raises ordered.1 ordered.2 (held_every member))
  · have none := pinned_every (inv.cpus c).ordered ((inv.cpus c).preempt.symm.trans free)
    exact List.eq_nil_iff_forall_not_mem.mpr fun lock member => absurd (none ▸ held_every member) List.not_mem_nil

def twoLocks : Order Bool := ⟨Bool.toNat, 0, 1⟩

def twoCpus : State Bool Bool := ⟨fun _ => ⟨true, 0, 0, []⟩, fun _ => false⟩

-- A handler takes the second lock while its CPU has the first, and the other CPU spins.
def handlerRuns : List (Bool × Action Bool) := [(false, .acquire false .nodw), (false, .test), (false, .interrupt), (false, .acquire true .noint),
  (false, .test), (true, .acquire true .noint), (true, .test)]

theorem spinlocks_sound_two : ∃ s, Reachable initial (step twoLocks) s ∧ heldLocks (s.cpu false).inside = [true, false] ∧ (s.cpu true).preemptCounter = 1 ∧
    s.locks true = true ∧ ∃ c, ∀ entry inside, (s.cpu c).inside = .spinning entry :: inside → s.locks entry.lock = false := by
  have start : initial twoCpus := ⟨fun _ => rfl, fun _ => rfl⟩
  obtain ⟨s, run, held, counter⟩ : ∃ s, execute (step twoLocks) handlerRuns twoCpus = some s ∧ heldLocks (s.cpu false).inside = [true, false] ∧
      (s.cpu true).preemptCounter = 1 := ⟨_, rfl, rfl, rfl⟩
  have reach := reachable_execute (.start twoCpus start) run
  obtain ⟨locked, _, _, _, _, runs⟩ := spinlocks_sound twoLocks reach
  exact ⟨s, reach, held, counter, (locked true).mpr ⟨false, by rw [held]; decide⟩, runs⟩

end Elysium.Spinlock
