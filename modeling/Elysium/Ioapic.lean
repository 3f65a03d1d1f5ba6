import Elysium.LittleEndian
import Mathlib.Logic.Function.Iterate

set_option autoImplicit false

namespace Elysium.Ioapic

open LittleEndian (Memory load)

structure LegacyIrqTranslation where
  gsi : BitVec 8
  flags : BitVec 16
deriving DecidableEq

-- reads has the bytes of the table that were read, by offset and size, and written the
-- indices of g_legacy_irq_map that were written. The code keeps neither. A record is
-- named by its offset in the table.
structure State where
  ioapicAddress : BitVec 64
  nbytes : BitVec 32
  currentRecord : Nat
  legacyIrqMap : Nat → LegacyIrqTranslation
  reads : List (Nat × Nat)
  written : List Nat

def initialMap (irq : Nat) : LegacyIrqTranslation := ⟨BitVec.ofNat 8 irq, 0⟩

-- ACPI's layout of the table: the entries come after the header, the address of the
-- local interrupt controllers and the flags, and a record starts with its type and length.
def entriesOffset : Nat := 44
def typeIoapic : BitVec 64 := 1
def typeInterruptSourceOverride : BitVec 64 := 2

section Loop

variable (m : Memory) (table : BitVec 64)

def field (offset size : Nat) : BitVec 64 := load m (table + BitVec.ofNat 64 offset) size

-- apic_table->hdr.length
def declared : BitVec 32 := (field m table 4 4).setWidth 32

def recordType (record : Nat) : BitVec 64 := field m table record 1
def recordLength (record : Nat) : BitVec 64 := field m table (record + 1) 1
def ioapicAddress (record : Nat) : BitVec 64 := field m table (record + 4) 4
def overrideSource (record : Nat) : Nat := (field m table (record + 3) 1).toNat
def overrideGsi (record : Nat) : BitVec 64 := field m table (record + 4) 4
def overrideFlags (record : Nat) : BitVec 64 := field m table (record + 8) 2

-- What the body of the loop does with the current record.
def handle (s : State) : State :=
  let record := s.currentRecord
  if recordType m table record = typeIoapic then
    { s with ioapicAddress := ioapicAddress m table record, reads := s.reads ++ [(record, 1), (record + 4, 4)] }
  else if recordType m table record = typeInterruptSourceOverride then
    let source := overrideSource m table record
    { s with
      legacyIrqMap := Function.update s.legacyIrqMap source
        ⟨(overrideGsi m table record).setWidth 8, (overrideFlags m table record).setWidth 16⟩
      reads := s.reads ++ [(record, 1), (record + 3, 1), (record + 4, 4), (record + 8, 2)]
      written := s.written ++ [source] }
  else { s with reads := s.reads ++ [(record, 1)] }

def round (s : State) : State :=
  let handled := handle m table s
  { handled with
    nbytes := s.nbytes - (recordLength m table s.currentRecord).setWidth 32
    currentRecord := s.currentRecord + (recordLength m table s.currentRecord).toNat
    reads := handled.reads ++ [(s.currentRecord + 1, 1)] }

def start (map : Nat → LegacyIrqTranslation) : State :=
  ⟨0, declared m table - BitVec.ofNat 32 entriesOffset, entriesOffset, map, [], []⟩

-- The state at the k-th test of the loop's condition, if the loop gets that far.
def after (k : Nat) (s : State) : State := (round m table)^[k] s

def Gets (k : Nat) (s : State) : Prop := ∀ j < k, (after m table j s).nbytes ≠ 0

-- The loop ends, goes through records and reads bytes inside the table only, and writes
-- to the sixteen entries of the map.
structure Contained (map : Nat → LegacyIrqTranslation) : Prop where
  ends : ∃ k, (after m table k (start m table map)).nbytes = 0
  records : ∀ k, Gets m table (k + 1) (start m table map) →
    (after m table k (start m table map)).currentRecord +
      (recordLength m table (after m table k (start m table map)).currentRecord).toNat ≤ (declared m table).toNat
  reads : ∀ k, Gets m table k (start m table map) → ∀ read ∈ (after m table k (start m table map)).reads,
    read.1 + read.2 ≤ (declared m table).toNat
  written : ∀ k, Gets m table k (start m table map) → ∀ irq ∈ (after m table k (start m table map)).written, irq < 16

-- The bytes of a record that are read.
def extent (type : BitVec 64) : Nat := if type = typeIoapic then 8 else if type = typeInterruptSourceOverride then 10 else 2

-- From an offset on, the table is made of records.
inductive Tiles : Nat → Prop where
  | done : Tiles (declared m table).toNat
  | record (offset : Nat) (moves : 0 < (recordLength m table offset).toNat)
      (inside : offset + (recordLength m table offset).toNat ≤ (declared m table).toNat)
      (fields : offset + extent (recordType m table offset) ≤ (declared m table).toNat)
      (legacy : recordType m table offset = typeInterruptSourceOverride → overrideSource m table offset < 16)
      (rest : Tiles (offset + (recordLength m table offset).toNat)) : Tiles offset

end Loop

section Proofs

variable {m : Memory} {table : BitVec 64} {s : State}

theorem gets_succ (k : Nat) (s : State) : Gets m table (k + 1) s ↔ s.nbytes ≠ 0 ∧ Gets m table k (round m table s) := by
  constructor
  · intro gets
    exact ⟨gets 0 (Nat.succ_pos k), fun j less => gets (j + 1) (Nat.succ_lt_succ less)⟩
  · rintro ⟨first, later⟩ j less
    cases j with
    | zero => exact first
    | succ j => exact later j (Nat.lt_of_succ_lt_succ less)

theorem length_small (record : Nat) : (recordLength m table record).toNat < 256 := by
  have bits : recordLength m table record = (m (table + BitVec.ofNat 64 (record + 1) + BitVec.ofNat 64 0)).setWidth 64 := by
    simp only [recordLength, field, load, Nat.mul_zero, BitVec.shiftLeft_zero]
    exact BitVec.zero_or
  rw [bits, BitVec.toNat_setWidth_of_le (by decide)]
  exact BitVec.isLt _

-- The loop has as many bytes left as there are from the current record to the end.
def InStep (m : Memory) (table : BitVec 64) (s : State) : Prop :=
  s.currentRecord + s.nbytes.toNat = (declared m table).toNat

theorem round_in_step (step : InStep m table s)
    (inside : s.currentRecord + (recordLength m table s.currentRecord).toNat ≤ (declared m table).toNat) :
    InStep m table (round m table s) := by
  have small : (recordLength m table s.currentRecord).toNat < 256 := length_small s.currentRecord
  have narrow : ((recordLength m table s.currentRecord).setWidth 32).toNat = (recordLength m table s.currentRecord).toNat := by
    rw [BitVec.toNat_setWidth, Nat.mod_eq_of_lt (by omega)]
  unfold InStep at step ⊢
  have less := s.nbytes.isLt
  simp only [round]
  rw [BitVec.toNat_sub, narrow]
  omega

def Safe (m : Memory) (table : BitVec 64) (s : State) : Prop :=
  (∀ read ∈ s.reads, read.1 + read.2 ≤ (declared m table).toNat) ∧ ∀ irq ∈ s.written, irq < 16

-- Of what a round reads, the last byte is the one at the record's extent.
theorem round_safe (safe : Safe m table s) : Safe m table (round m table s) ↔
    s.currentRecord + extent (recordType m table s.currentRecord) ≤ (declared m table).toNat ∧
      (recordType m table s.currentRecord = typeInterruptSourceOverride → overrideSource m table s.currentRecord < 16) := by
  obtain ⟨reads, written⟩ := safe
  have before : ∀ more, (∀ read ∈ s.reads ++ more, read.1 + read.2 ≤ (declared m table).toNat) ↔
      ∀ read ∈ more, read.1 + read.2 ≤ (declared m table).toNat := by
    intro more
    simp only [List.mem_append]
    exact ⟨fun all read member => all read (.inr member), fun all read member => member.elim (reads read) (all read)⟩
  unfold Safe round handle extent
  by_cases ioapic : recordType m table s.currentRecord = typeIoapic
  · have different : typeIoapic ≠ typeInterruptSourceOverride := by decide
    simp only [ioapic, if_true, List.append_assoc, before, List.cons_append, List.nil_append, List.forall_mem_cons, List.not_mem_nil,
      false_imp_iff, implies_true, and_true, different]
    exact ⟨fun all => by omega, fun fields => ⟨by omega, written⟩⟩
  · by_cases override : recordType m table s.currentRecord = typeInterruptSourceOverride
    · have different : typeInterruptSourceOverride ≠ typeIoapic := by decide
      simp only [override, different, if_false, if_true, List.append_assoc, before, List.cons_append, List.nil_append, List.forall_mem_cons,
        List.not_mem_nil, false_imp_iff, implies_true, and_true, forall_const]
      constructor
      · rintro ⟨all, indices⟩
        exact ⟨by omega, indices _ (List.mem_append_right _ (List.mem_singleton_self _))⟩
      · rintro ⟨fields, legacy⟩
        refine ⟨by omega, fun irq member => ?_⟩
        rcases List.mem_append.mp member with old | new
        · exact written irq old
        · exact List.mem_singleton.mp new ▸ legacy
    · simp only [ioapic, override, if_false, List.append_assoc, before, List.cons_append, List.nil_append, List.forall_mem_cons,
        List.not_mem_nil, false_imp_iff, implies_true, and_true]
      exact ⟨fun all => by omega, fun fields => ⟨by omega, written⟩⟩

-- What the loop has to do from a state on.
structure Runs (m : Memory) (table : BitVec 64) (s : State) : Prop where
  ends : ∃ k, (after m table k s).nbytes = 0
  records : ∀ k, Gets m table (k + 1) s → (after m table k s).currentRecord +
    (recordLength m table (after m table k s).currentRecord).toNat ≤ (declared m table).toNat
  safe : ∀ k, Gets m table k s → Safe m table (after m table k s)

theorem gets_zero (s : State) : Gets m table 0 s := fun j less => absurd less (Nat.not_lt_zero j)

theorem runs_done (empty : s.nbytes = 0) (safe : Safe m table s) : Runs m table s := by
  refine ⟨⟨0, empty⟩, fun k gets => absurd empty (gets 0 (Nat.succ_pos k)), fun k gets => ?_⟩
  cases k with
  | zero => exact safe
  | succ k => exact absurd empty (gets 0 (Nat.succ_pos k))

theorem runs_round (safe : Safe m table s)
    (inside : s.currentRecord + (recordLength m table s.currentRecord).toNat ≤ (declared m table).toNat)
    (rest : Runs m table (round m table s)) : Runs m table s := by
  obtain ⟨⟨k, empty⟩, records, later⟩ := rest
  refine ⟨⟨k + 1, empty⟩, fun k gets => ?_, fun k gets => ?_⟩
  · cases k with
    | zero => exact inside
    | succ k => exact records k ((gets_succ _ s).mp gets).2
  · cases k with
    | zero => exact safe
    | succ k => exact later k ((gets_succ _ s).mp gets).2

theorem runs_rest (runs : Runs m table s) (more : s.nbytes ≠ 0) : Runs m table (round m table s) := by
  obtain ⟨⟨k, empty⟩, records, safe⟩ := runs
  refine ⟨?_, fun k gets => records (k + 1) ((gets_succ _ s).mpr ⟨more, gets⟩), fun k gets => safe (k + 1) ((gets_succ _ s).mpr ⟨more, gets⟩)⟩
  cases k with
  | zero => exact absurd empty more
  | succ k => exact ⟨k, empty⟩

-- A record of no length is the current one for ever.
theorem stuck (empty : (recordLength m table s.currentRecord).toNat = 0) (k : Nat) :
    (after m table k s).nbytes = s.nbytes ∧ (after m table k s).currentRecord = s.currentRecord := by
  induction k generalizing s with
  | zero => exact ⟨rfl, rfl⟩
  | succ k ih =>
      have zero : recordLength m table s.currentRecord = 0 := BitVec.eq_of_toNat_eq empty
      have same : (round m table s).currentRecord = s.currentRecord := by
        simp only [round]
        rw [empty, Nat.add_zero]
      have left : (round m table s).nbytes = s.nbytes := by
        simp only [round]
        rw [zero]
        exact BitVec.sub_zero _
      obtain ⟨nbytes, record⟩ := ih (same.symm ▸ empty)
      exact ⟨nbytes.trans left, record.trans same⟩

theorem runs_of_tiles {offset : Nat} (tiles : Tiles m table offset) (here : s.currentRecord = offset) (step : InStep m table s)
    (safe : Safe m table s) : Runs m table s := by
  induction tiles generalizing s with
  | done =>
      have none : s.nbytes.toNat = 0 := by
        unfold InStep at step
        omega
      exact runs_done (BitVec.eq_of_toNat_eq none) safe
  | record offset moves inside fields legacy rest ih =>
      subst here
      have safe' := (round_safe safe).mpr ⟨fields, legacy⟩
      exact runs_round safe inside (ih rfl (round_in_step step inside) safe')

theorem tiles_done (step : InStep m table s) (empty : s.nbytes = 0) : Tiles m table s.currentRecord := by
  have zero : s.nbytes.toNat = 0 := by rw [empty]; rfl
  have place : s.currentRecord = (declared m table).toNat := by
    unfold InStep at step
    omega
  exact place ▸ .done

theorem tiles_of_runs (k : Nat) (step : InStep m table s) (runs : Runs m table s) (ends : (after m table k s).nbytes = 0) :
    Tiles m table s.currentRecord := by
  induction k generalizing s with
  | zero => exact tiles_done step ends
  | succ k ih =>
      by_cases empty : s.nbytes = 0
      · exact tiles_done step empty
      · have gets : Gets m table 1 s := (gets_succ 0 s).mpr ⟨empty, gets_zero _⟩
        have inside := runs.records 0 gets
        obtain ⟨fields, legacy⟩ := (round_safe (runs.safe 0 (gets_zero s))).mp (runs.safe 1 gets)
        have moves : 0 < (recordLength m table s.currentRecord).toNat := by
          by_contra stays
          obtain ⟨j, done⟩ := runs.ends
          exact empty ((stuck (by omega) j).1.symm.trans done)
        exact .record s.currentRecord moves inside fields legacy (ih (round_in_step step inside) (runs_rest runs empty) ends)

theorem runs_iff_contained (map : Nat → LegacyIrqTranslation) : Runs m table (start m table map) ↔ Contained m table map :=
  ⟨fun runs => ⟨runs.ends, runs.records, fun k gets => (runs.safe k gets).1, fun k gets => (runs.safe k gets).2⟩,
    fun contained => ⟨contained.ends, contained.records, fun k gets => ⟨contained.reads k gets, contained.written k gets⟩⟩⟩

theorem tiles_within {offset : Nat} (tiles : Tiles m table offset) : offset ≤ (declared m table).toNat := by
  cases tiles with
  | done => exact Nat.le_refl _
  | record _ _ inside _ _ _ => omega

theorem start_in_step (map : Nat → LegacyIrqTranslation) (long : entriesOffset ≤ (declared m table).toNat) :
    InStep m table (start m table map) := by
  have small := (declared m table).isLt
  unfold entriesOffset at long
  simp only [InStep, start, entriesOffset]
  rw [BitVec.toNat_sub]
  simp only [BitVec.toNat_ofNat]
  omega

end Proofs

theorem madt_contained_iff (m : Memory) (table : BitVec 64) (map : Nat → LegacyIrqTranslation) :
    Contained m table map ↔ Tiles m table entriesOffset := by
  rw [← runs_iff_contained]
  have safe : Safe m table (start m table map) := ⟨nofun, nofun⟩
  constructor
  · intro runs
    obtain ⟨k, ends⟩ := runs.ends
    by_cases long : entriesOffset ≤ (declared m table).toNat
    · exact tiles_of_runs k (start_in_step map long) runs ends
    · -- A table that ends before its entries leaves more than none.
      have more : (start m table map).nbytes ≠ 0 := by
        intro none
        have zero : (declared m table - BitVec.ofNat 32 entriesOffset).toNat = 0 := by
          rw [show declared m table - BitVec.ofNat 32 entriesOffset = 0 from none]
          rfl
        rw [BitVec.toNat_sub] at zero
        simp only [BitVec.toNat_ofNat, entriesOffset] at zero long
        omega
      have inside := runs.records 0 ((gets_succ 0 _).mpr ⟨more, gets_zero _⟩)
      have first : (after m table 0 (start m table map)).currentRecord = entriesOffset := rfl
      rw [first] at inside
      omega
  · intro tiles
    exact runs_of_tiles tiles rfl (start_in_step map (tiles_within tiles)) safe

-- A table of 46 bytes whose one record is all zero.
def zeroRecord : Memory := fun a => if a = 4 then 46 else 0

theorem madt_zero_record : ¬ Contained zeroRecord 0 initialMap := by
  intro contained
  obtain ⟨k, empty⟩ := contained.ends
  have short : (recordLength zeroRecord 0 (start zeroRecord 0 initialMap).currentRecord).toNat = 0 := by decide
  have left := (stuck short k).1
  rw [empty] at left
  revert left
  decide

end Elysium.Ioapic
