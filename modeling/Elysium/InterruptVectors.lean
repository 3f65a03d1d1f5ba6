import Mathlib.Data.List.Nodup
import Elysium.IoapicMap
import Elysium.Transitions

set_option autoImplicit false

namespace Elysium.InterruptVectors

open Ioapic (Device LegacyIrqTranslation Redirection legacyWiring mapLegacyIrq mapGsi wired map_gsi_twin map_gsi_other)
open Transitions (Reachable reachable_invariant execute reachable_execute)

inductive InterruptPriority where
  | low
  | normal
  | event
  | critical
deriving DecidableEq

-- g_priority_map
def priorityMap : InterruptPriority → Nat
  | .low => 0x2
  | .normal => 0x5
  | .event => 0x7
  | .critical => 0xF

def idtSize : Nat := 256
def flagsNormal : BitVec 8 := 0x8E
def code64Ring0 : BitVec 16 := 1 <<< 3

structure IdtEntry where
  lowOffset : BitVec 16
  segmentSelector : BitVec 16
  ist : BitVec 8
  flags : BitVec 8
  middleOffset : BitVec 16
  highOffset : BitVec 32
  rsv0 : BitVec 32

-- What the init target interrupts writes for a stub.
def idtEntry (stub : BitVec 64) : IdtEntry :=
  ⟨stub.setWidth 16, code64Ring0, 0, flagsNormal, (stub >>> 16).setWidth 16, (stub >>> 32).setWidth 32, 0⟩

-- Where the CPU goes on an interrupt.
def IdtEntry.offset (entry : IdtEntry) : BitVec 64 :=
  entry.lowOffset.setWidth 64 ||| entry.middleOffset.setWidth 64 <<< 16 ||| entry.highOffset.setWidth 64 <<< 32

section Vectors

variable {H : Type} (entries : Nat → Option H)

-- The loop of find_vector, with so many vectors left before the end of the class or of the table.
def findFrom : (left i : Nat) → Option Nat
  | 0, _ => none
  | left + 1, i => if (entries i).isSome then findFrom left (i + 1) else some i

-- -1 is none.
def findVector (priority : InterruptPriority) : Option Nat :=
  let offset := priorityMap priority <<< 4
  findFrom entries (min idtSize (offset + 16) - offset) offset

end Vectors

section Model

variable {H F : Type}

-- uacpi_interrupt_handler_t, with fn and ctx as one.
structure IrqHandle (F : Type) where
  vector : Nat
  fn : F
deriving DecidableEq

-- What a call of interrupt_request was given and gave.
structure Request (H : Type) where
  priority : InterruptPriority
  vector : Nat
  handler : H

-- The handlers the kernel itself has, the stubs and the map of the legacy interrupts.
structure Kernel (H : Type) where
  exceptionUnhandled : H
  pageFault : H
  kernelapi : H
  stubs : Nat → BitVec 64
  legacyIrqMap : Nat → LegacyIrqTranslation

-- handles are those uACPI holds. requests has the calls of interrupt_request and lines
-- how each GSI was last wired. The code keeps neither.
structure State (H F : Type) where
  idt : Nat → IdtEntry
  entries : Nat → Option H
  ioapic : Device
  interruptHandlers : Nat → Option F
  handles : List (IrqHandle F)
  requests : List (Request H)
  lines : BitVec 8 → Option Redirection

inductive Action (H F : Type) where
  | request (priority : InterruptPriority) (handler : H)
  | setIst (vector ist : BitVec 8)
  | install (irq : BitVec 32) (lapicId : BitVec 8) (fn : F)
  | uninstall (handle : IrqHandle F)

-- x86_64_interrupt_set
def interruptSet (vector : Nat) (handler : Option H) (entries : Nat → Option H) : Nat → Option H := Function.update entries vector handler

-- After the init targets interrupts, exceptions and the one that sets the page fault handler.
def booted (k : Kernel H) (s : State H F) : Prop :=
  s.idt = (fun v => idtEntry (k.stubs v)) ∧
    s.entries = (fun v => if v = 0xE then some k.pageFault else if v < 32 then some k.exceptionUnhandled else none) ∧
    s.interruptHandlers = (fun _ => none) ∧ s.handles = [] ∧ s.requests = [] ∧ s.lines = fun _ => none

def step [DecidableEq F] (k : Kernel H) : Action H F → State H F → Option (State H F)
  | .request priority handler, s =>
      match findVector s.entries priority with
      | none => some s
      | some vector => some { s with
          entries := interruptSet vector (some handler) s.entries
          requests := ⟨priority, vector, handler⟩ :: s.requests }
  | .setIst vector ist, s => some { s with idt := Function.update s.idt vector.toNat { s.idt vector.toNat with ist := ist } }
  | .install irq lapicId fn, s =>
      match findVector s.entries .normal with
      | none => none
      | some vector =>
          let (gsi, lowPolarity, triggerMode) := legacyWiring k.legacyIrqMap (irq.setWidth 8) false true
          some { s with
            entries := interruptSet vector (some k.kernelapi) s.entries
            ioapic := mapLegacyIrq k.legacyIrqMap (irq.setWidth 8) lapicId false true (BitVec.ofNat 8 vector) s.ioapic
            handles := ⟨vector, fn⟩ :: s.handles
            lines := fun g => if 2 * g = 2 * gsi then some (wired lapicId lowPolarity triggerMode (BitVec.ofNat 8 vector)) else s.lines g }
  | .uninstall handle, s =>
      if handle ∈ s.handles then some { s with entries := interruptSet handle.vector none s.entries, handles := s.handles.erase handle }
      else none

-- What the handler of an interrupt does before deferred work.
inductive Call (H : Type) where
  | handler (handler : H)
  | eoi (vector : Nat)
deriving DecidableEq

def hardPhase (s : State H F) (vector : Nat) : List (Call H) :=
  (match s.entries vector with | some handler => [.handler handler] | none => []) ++ if vector ≥ 32 then [.eoi vector] else []

-- The vectors that are given out.
def owned (s : State H F) : List Nat := s.requests.map Request.vector ++ s.handles.map IrqHandle.vector

def InClass (priority : InterruptPriority) (vector : Nat) : Prop := vector / 16 = priorityMap priority

instance {priority : InterruptPriority} {vector : Nat} : Decidable (InClass priority vector) := inferInstanceAs (Decidable (_ = _))

structure Sound (k : Kernel H) (s : State H F) : Prop where
  distinct : (owned s).Nodup
  requests : ∀ r ∈ s.requests, InClass r.priority r.vector ∧ s.entries r.vector = some r.handler
  handles : ∀ h ∈ s.handles, InClass .normal h.vector ∧ s.entries h.vector = some k.kernelapi
  others : ∀ v, 32 ≤ v → (s.entries v).isSome → v ∈ owned s
  exceptions : ∀ v < 32, s.entries v = some (if v = 0xE then k.pageFault else k.exceptionUnhandled)
  gates : ∀ v, (s.idt v).offset = k.stubs v ∧ (s.idt v).segmentSelector = code64Ring0 ∧ (s.idt v).flags = flagsNormal
  lines : ∀ g r, s.lines g = some r → s.ioapic.redirection g = r
  unset : ∀ v, s.interruptHandlers v = none

end Model

section Find

variable {H : Type} {entries : Nat → Option H}

theorem find_from_spec (left i : Nat) :
    match findFrom entries left i with
    | none => ∀ v, i ≤ v → v < i + left → (entries v).isSome
    | some v => i ≤ v ∧ v < i + left ∧ entries v = none ∧ ∀ u, i ≤ u → u < v → (entries u).isSome := by
  induction left generalizing i with
  | zero => exact fun v low high => by omega
  | succ left ih =>
    rw [findFrom]
    by_cases used : (entries i).isSome
    · rw [if_pos used]
      have next := ih (i + 1)
      have first : ∀ v, i ≤ v → (i + 1 ≤ v → (entries v).isSome) → (entries v).isSome := by
        intro v low later
        rcases Nat.lt_or_eq_of_le low with before | rfl
        · exact later before
        · exact used
      cases found : findFrom entries left (i + 1) with
      | none =>
        rw [found] at next
        exact fun v low high => first v low fun later => next v later (by omega)
      | some v =>
        rw [found] at next
        obtain ⟨low, high, free, all⟩ := next
        exact ⟨by omega, by omega, free, fun u low high => first u low fun later => all u later high⟩
    · rw [if_neg used]
      exact ⟨Nat.le_refl i, by omega, Option.not_isSome_iff_eq_none.mp used, fun u low high => by omega⟩

theorem class_range (priority : InterruptPriority) : priorityMap priority <<< 4 = 16 * priorityMap priority ∧
    min idtSize (priorityMap priority <<< 4 + 16) - priorityMap priority <<< 4 = 16 ∧ 32 ≤ 16 * priorityMap priority ∧
    16 * priorityMap priority + 16 ≤ idtSize := by
  cases priority <;> decide

-- The lowest free vector of the class, if there is one.
theorem find_vector_spec (priority : InterruptPriority) :
    match findVector entries priority with
    | none => ∀ v, InClass priority v → (entries v).isSome
    | some v => InClass priority v ∧ entries v = none ∧ ∀ u < v, InClass priority u → (entries u).isSome := by
  obtain ⟨offset, size, _, _⟩ := class_range priority
  have spec := @find_from_spec H entries 16 (16 * priorityMap priority)
  rw [findVector, size, offset]
  cases found : findFrom entries 16 (16 * priorityMap priority) with
  | none =>
    rw [found] at spec
    exact fun v inClass => spec v (by rw [InClass] at inClass; omega) (by rw [InClass] at inClass; omega)
  | some v =>
    rw [found] at spec
    obtain ⟨low, high, free, all⟩ := spec
    exact ⟨by rw [InClass]; omega, free, fun u before inClass => all u (by rw [InClass] at inClass; omega) before⟩

theorem class_low {priority : InterruptPriority} {v : Nat} (inClass : InClass priority v) : 32 ≤ v ∧ v < 256 := by
  obtain ⟨_, _, low, high⟩ := class_range priority
  rw [InClass] at inClass
  rw [idtSize] at high
  omega

end Find

section Gates

theorem idt_entry_offset (stub : BitVec 64) : (idtEntry stub).offset = stub := by
  ext i inside
  rw [← BitVec.getLsbD_eq_getElem inside, ← BitVec.getLsbD_eq_getElem inside]
  rcases Nat.lt_or_ge i 16 with low | low
  · have below : i < 32 := by omega
    simp [idtEntry, IdtEntry.offset, low, below, inside]
  · rcases Nat.lt_or_ge i 32 with middle | high
    · have offset : 16 + (i - 16) = i := by omega
      have fits : i - 16 < 16 := by omega
      have wide : i - 16 < 64 := by omega
      simp [idtEntry, IdtEntry.offset, Nat.not_lt.mpr low, middle, offset, fits, wide, inside]
    · have offset : 32 + (i - 32) = i := by omega
      have fits : i - 32 < 32 := by omega
      have beyond : ¬ i - 16 < 16 := by omega
      have wide : i - 32 < 64 := by omega
      simp [idtEntry, IdtEntry.offset, Nat.not_lt.mpr low, Nat.not_lt.mpr high, offset, fits, beyond, wide, inside]

end Gates

section Steps

variable {H F : Type} {k : Kernel H} {s s' : State H F}

theorem booted_sound (start : booted k s) : Sound k s := by
  obtain ⟨idt, entries, unset, handles, requests, lines⟩ := start
  refine ⟨?_, ?_, ?_, ?_, ?_, ?_, ?_, ?_⟩
  · simp [owned, requests, handles]
  · simp [requests]
  · simp [handles]
  · intro v low used
    have notFault : v ≠ 0xE := by omega
    simp [entries, notFault, Nat.not_lt.mpr low] at used
  · intro v low
    rw [entries]
    by_cases fault : v = 0xE
    · simp [fault]
    · simp [fault, low]
  · intro v
    rw [idt]
    exact ⟨idt_entry_offset _, rfl, rfl⟩
  · simp [lines]
  · simp [unset]

theorem owned_used (sound : Sound k s) {v : Nat} (member : v ∈ owned s) : (s.entries v).isSome ∧ 32 ≤ v := by
  rw [owned, List.mem_append, List.mem_map, List.mem_map] at member
  rcases member with ⟨r, inRequests, rfl⟩ | ⟨h, inHandles, rfl⟩
  · obtain ⟨inClass, entry⟩ := sound.requests r inRequests
    exact ⟨by rw [entry]; rfl, (class_low inClass).1⟩
  · obtain ⟨inClass, entry⟩ := sound.handles h inHandles
    exact ⟨by rw [entry]; rfl, (class_low inClass).1⟩

-- Nobody has the vector that is found.
theorem found_new {vector : Nat} {priority : InterruptPriority} (sound : Sound k s) (found : findVector s.entries priority = some vector) :
    InClass priority vector ∧ vector ∉ owned s := by
  have spec := @find_vector_spec _ s.entries priority
  rw [found] at spec
  refine ⟨spec.1, fun member => ?_⟩
  have used := (owned_used sound member).1
  rw [spec.2.1] at used
  cases used

section Entries

variable {vector : Nat} (handler : Option H)

theorem interrupt_set_same : interruptSet vector handler s.entries vector = handler := Function.update_self _ _ _

theorem interrupt_set_other {v : Nat} (other : v ≠ vector) : interruptSet vector handler s.entries v = s.entries v :=
  Function.update_of_ne other _ _

theorem request_entry (sound : Sound k s) (new : vector ∉ owned s) {r : Request H} (member : r ∈ s.requests) :
    InClass r.priority r.vector ∧ interruptSet vector handler s.entries r.vector = some r.handler := by
  have apart : r.vector ≠ vector := fun same => new (same ▸ List.mem_append_left _ (List.mem_map_of_mem member))
  rw [interrupt_set_other handler apart]
  exact sound.requests r member

theorem handle_entry (sound : Sound k s) (new : vector ∉ owned s) {h : IrqHandle F} (member : h ∈ s.handles) :
    InClass .normal h.vector ∧ interruptSet vector handler s.entries h.vector = some k.kernelapi := by
  have apart : h.vector ≠ vector := fun same => new (same ▸ List.mem_append_right _ (List.mem_map_of_mem member))
  rw [interrupt_set_other handler apart]
  exact sound.handles h member

theorem exception_entry (sound : Sound k s) (high : 32 ≤ vector) {v : Nat} (low : v < 32) :
    interruptSet vector handler s.entries v = some (if v = 0xE then k.pageFault else k.exceptionUnhandled) := by
  rw [interrupt_set_other handler (by omega)]
  exact sound.exceptions v low

end Entries

theorem request_sound {priority : InterruptPriority} {handler : H} {vector : Nat} (sound : Sound k s)
    (found : findVector s.entries priority = some vector) :
    Sound k { s with entries := interruptSet vector (some handler) s.entries, requests := ⟨priority, vector, handler⟩ :: s.requests } := by
  obtain ⟨inClass, new⟩ := found_new sound found
  refine { sound with distinct := ?_, requests := ?_, handles := ?_, others := ?_, exceptions := ?_ }
  · exact List.nodup_cons.mpr ⟨new, sound.distinct⟩
  · intro r member
    rcases List.mem_cons.mp member with rfl | member
    · exact ⟨inClass, interrupt_set_same _⟩
    · exact request_entry _ sound new member
  · exact fun h member => handle_entry _ sound new member
  · intro v low used
    by_cases here : v = vector
    · subst here
      exact List.mem_cons_self
    · dsimp only at used
      rw [interrupt_set_other _ here] at used
      exact List.mem_cons_of_mem _ (sound.others v low used)
  · exact fun v low => exception_entry _ sound (class_low inClass).1 low

theorem install_sound [DecidableEq F] {irq : BitVec 32} {lapicId : BitVec 8} {fn : F} (sound : Sound k s)
    (taken : step k (.install irq lapicId fn) s = some s') : Sound k s' := by
  rw [step] at taken
  cases found : findVector s.entries .normal with
  | none =>
    rw [found] at taken
    cases taken
  | some vector =>
    rcases wiring : legacyWiring k.legacyIrqMap (irq.setWidth 8) false true with ⟨gsi, lowPolarity, triggerMode⟩
    simp only [found, mapLegacyIrq, wiring, Option.some.injEq] at taken
    subst taken
    obtain ⟨inClass, new⟩ := found_new sound found
    refine { sound with distinct := ?_, requests := ?_, handles := ?_, others := ?_, exceptions := ?_, lines := ?_ }
    · exact List.nodup_middle.mpr (List.nodup_cons.mpr ⟨new, sound.distinct⟩)
    · exact fun r member => request_entry _ sound new member
    · intro h member
      rcases List.mem_cons.mp member with rfl | member
      · exact ⟨inClass, interrupt_set_same _⟩
      · exact handle_entry _ sound new member
    · intro v low used
      by_cases here : v = vector
      · subst here
        simp [owned]
      · dsimp only at used
        rw [interrupt_set_other _ here] at used
        have member := sound.others v low used
        simp only [owned, List.map_cons, List.mem_append, List.mem_cons] at member ⊢
        tauto
    · exact fun v low => exception_entry _ sound (class_low inClass).1 low
    · intro g r wired
      dsimp only at wired
      by_cases twin : 2 * g = 2 * gsi
      · rw [if_pos twin] at wired
        rw [← Option.some.inj wired]
        exact map_gsi_twin _ _ _ _ _ _ twin
      · rw [if_neg twin] at wired
        rw [← sound.lines g r wired]
        exact map_gsi_other _ _ _ _ _ _ twin

theorem owned_perm [DecidableEq F] {handle : IrqHandle F} (live : handle ∈ s.handles) :
    (owned s).Perm (handle.vector :: owned { s with entries := interruptSet handle.vector none s.entries, handles := s.handles.erase handle }) := by
  have handles : (s.handles.map IrqHandle.vector).Perm (handle.vector :: (s.handles.erase handle).map IrqHandle.vector) :=
    (List.perm_cons_erase live).map IrqHandle.vector
  exact (handles.append_left _).trans List.perm_middle

theorem uninstall_sound [DecidableEq F] {handle : IrqHandle F} (sound : Sound k s) (live : handle ∈ s.handles) :
    Sound k { s with entries := interruptSet handle.vector none s.entries, handles := s.handles.erase handle } := by
  have perm := owned_perm live
  have distinct := perm.nodup_iff.mp sound.distinct
  obtain ⟨gone, distinct⟩ := List.nodup_cons.mp distinct
  have high := (owned_used sound (perm.mem_iff.mpr List.mem_cons_self)).2
  refine { sound with distinct := distinct, requests := ?_, handles := ?_, others := ?_, exceptions := ?_ }
  · intro r member
    have apart : r.vector ≠ handle.vector := fun same => gone (same ▸ List.mem_append_left _ (List.mem_map_of_mem member))
    dsimp only
    rw [interrupt_set_other _ apart]
    exact sound.requests r member
  · intro h member
    have apart : h.vector ≠ handle.vector := fun same => gone (same ▸ List.mem_append_right _ (List.mem_map_of_mem member))
    dsimp only
    rw [interrupt_set_other _ apart]
    exact sound.handles h (List.mem_of_mem_erase member)
  · intro v low used
    dsimp only at used
    have apart : v ≠ handle.vector := by
      rintro rfl
      rw [interrupt_set_same] at used
      cases used
    rw [interrupt_set_other _ apart] at used
    exact (List.mem_cons.mp (perm.mem_iff.mp (sound.others v low used))).resolve_left apart
  · exact fun v low => exception_entry _ sound high low

theorem set_ist_sound (sound : Sound k s) (vector ist : BitVec 8) :
    Sound k { s with idt := Function.update s.idt vector.toNat { s.idt vector.toNat with ist := ist } } := by
  refine { sound with gates := fun v => ?_ }
  by_cases here : v = vector.toNat
  · subst here
    dsimp only
    rw [Function.update_self]
    exact sound.gates _
  · dsimp only
    rw [Function.update_of_ne here]
    exact sound.gates v

theorem step_sound [DecidableEq F] (action : Action H F) (sound : Sound k s) (taken : step k action s = some s') : Sound k s' := by
  cases action with
  | request priority handler =>
    rw [step] at taken
    cases found : findVector s.entries priority with
    | none =>
      rw [found] at taken
      exact Option.some.inj taken ▸ sound
    | some vector =>
      rw [found] at taken
      obtain rfl := Option.some.inj taken
      exact request_sound sound found
  | setIst vector ist =>
    obtain rfl := Option.some.inj taken
    exact set_ist_sound sound vector ist
  | install irq lapicId fn => exact install_sound sound taken
  | uninstall handle =>
    rw [step] at taken
    split at taken
    · obtain rfl := Option.some.inj taken
      exact uninstall_sound sound ‹_›
    · cases taken

theorem mem_class_range (priority : InterruptPriority) (v : Nat) :
    v ∈ List.range' (16 * priorityMap priority) 16 ↔ InClass priority v := by
  rw [List.mem_range'_1, InClass]
  omega

-- A request finds nothing only if all sixteen vectors of the class are given out.
theorem class_full (sound : Sound k s) (priority : InterruptPriority) :
    findVector s.entries priority = none ↔ ((owned s).filter (fun v => InClass priority v)).length = 16 := by
  have spec := @find_vector_spec _ s.entries priority
  have distinct : ((owned s).filter (fun v => InClass priority v)).Nodup := sound.distinct.filter _
  have within : ((owned s).filter (fun v => InClass priority v)).Subperm (List.range' (16 * priorityMap priority) 16) := by
    refine distinct.subperm fun v member => (mem_class_range priority v).mpr ?_
    simpa using (List.mem_filter.mp member).2
  have few := within.length_le
  rw [List.length_range'] at few
  constructor
  · intro none
    rw [none] at spec
    have all : (List.range' (16 * priorityMap priority) 16).Subperm ((owned s).filter (fun v => InClass priority v)) := by
      refine List.subperm_of_subset List.nodup_range' fun v member => ?_
      have inClass := (mem_class_range priority v).mp member
      exact List.mem_filter.mpr ⟨sound.others v (class_low inClass).1 (spec v inClass), by simpa using inClass⟩
    have many := all.length_le
    rw [List.length_range'] at many
    omega
  · intro full
    have perm := within.perm_of_length_le (by rw [List.length_range', full])
    cases found : findVector s.entries priority with
    | none => rfl
    | some v =>
      rw [found] at spec
      have member := perm.mem_iff.mpr ((mem_class_range priority v).mpr spec.1)
      have used := (owned_used sound (List.mem_filter.mp member).1).1
      rw [spec.2.1] at used
      cases used

theorem hard_phase_handled {v : Nat} {handler : H} (entry : s.entries v = some handler) (high : 32 ≤ v) :
    hardPhase s v = [.handler handler, .eoi v] := by
  rw [hardPhase, entry, if_pos high]
  rfl

theorem hard_phase_free (sound : Sound k s) {v : Nat} (high : 32 ≤ v) (free : v ∉ owned s) : hardPhase s v = [.eoi v] := by
  have none : s.entries v = none := by
    by_contra used
    exact free (sound.others v high (Option.isSome_iff_ne_none.mpr used))
  rw [hardPhase, none, if_pos high]
  rfl

end Steps

-- In every state after boot the vectors that are given out are distinct and in their
-- class, an interrupt on one of them runs the handler it was asked for and one on any
-- other vector only ends, a request is refused when its class is full, each GSI goes
-- to the vector it was last wired to, and the table that kernelapi_interrupt_handler
-- looks into is still empty.
theorem vectors_sound {H F : Type} [DecidableEq F] (k : Kernel H) (s : State H F) (reach : Reachable (booted k) (step k) s) :
    Sound k s ∧ (∀ r ∈ s.requests, hardPhase s r.vector = [.handler r.handler, .eoi r.vector]) ∧
      (∀ h ∈ s.handles, hardPhase s h.vector = [.handler k.kernelapi, .eoi h.vector]) ∧
      (∀ v, 32 ≤ v → v ∉ owned s → hardPhase s v = [.eoi v]) ∧
      ∀ priority, findVector s.entries priority = none ↔ ((owned s).filter (fun v => InClass priority v)).length = 16 := by
  have sound : Sound k s := reachable_invariant (fun _ start => booted_sound start) (fun action _ _ sound taken => step_sound action sound taken) reach
  refine ⟨sound, fun r member => ?_, fun h member => ?_, fun v high free => hard_phase_free sound high free, class_full sound⟩
  · obtain ⟨inClass, entry⟩ := sound.requests r member
    exact hard_phase_handled entry (class_low inClass).1
  · obtain ⟨inClass, entry⟩ := sound.handles h member
    exact hard_phase_handled entry (class_low inClass).1

def kernel : Kernel Nat := ⟨0, 1, 2, fun v => BitVec.ofNat 64 (0xFFFFFFFF80000000 + 16 * v), fun irq => ⟨BitVec.ofNat 8 irq, if irq = 9 then 0xD else 0⟩⟩

def fresh : State Nat Nat :=
  ⟨fun v => idtEntry (kernel.stubs v), fun v => if v = 0xE then some 1 else if v < 32 then some 0 else none, ⟨0, fun _ => 0⟩,
    fun _ => none, [], [], fun _ => none⟩

-- The event timer and the shootdown ask for a vector, uACPI for the interrupt 9.
theorem vectors_sound_acpi : ∃ s, execute (step kernel) [.request .event 3, .request .critical 4, .install 9 0 7, .setIst 2 1] fresh = some s ∧
    hardPhase s 0x70 = [.handler 3, .eoi 0x70] ∧ hardPhase s 0x50 = [.handler 2, .eoi 0x50] ∧
    s.ioapic.redirection 9 = ⟨0x50, 0, false, false, true, false, 0⟩ := by
  obtain ⟨s, run, requests, handles, lines⟩ : ∃ s, execute (step kernel)
      [.request .event 3, .request .critical 4, .install 9 0 7, .setIst 2 1] fresh = some s ∧
      s.requests = [⟨.critical, 0xF0, 4⟩, ⟨.event, 0x70, 3⟩] ∧ s.handles = [⟨0x50, 7⟩] ∧
      s.lines 9 = some ⟨0x50, 0, false, false, true, false, 0⟩ := ⟨_, rfl, rfl, rfl, rfl⟩
  have start : booted kernel fresh := ⟨rfl, rfl, rfl, rfl, rfl, rfl⟩
  obtain ⟨sound, asked, installed, -⟩ := vectors_sound kernel s (reachable_execute (.start fresh start) run)
  refine ⟨s, run, ?_, ?_, sound.lines 9 _ lines⟩
  · exact asked ⟨.event, 0x70, 3⟩ (by rw [requests]; simp)
  · exact installed ⟨0x50, 7⟩ (by rw [handles]; simp)

end Elysium.InterruptVectors
