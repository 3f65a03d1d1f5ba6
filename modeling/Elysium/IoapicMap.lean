import Mathlib.Tactic.IntervalCases
import Elysium.Ioapic

set_option autoImplicit false

namespace Elysium.Ioapic

-- The I/O APIC: its registers are reached through the one that is selected.
structure Device where
  select : BitVec 32
  registers : BitVec 8 → BitVec 32

-- What a write to g_ioapic[dword] does, and what a read gives.
def Device.write (dword : Nat) (value : BitVec 32) (device : Device) : Device :=
  if dword = 0 then { device with select := value }
  else if dword = 4 then { device with registers := Function.update device.registers (device.select.setWidth 8) value }
  else device

def Device.read (dword : Nat) (device : Device) : BitVec 32 :=
  if dword = 0 then device.select else if dword = 4 then device.registers (device.select.setWidth 8) else 0

def ioapicWrite (index data : BitVec 32) (device : Device) : Device := (device.write 0 (index &&& 0xFF)).write 4 data

def ioapicRead (index : BitVec 32) (device : Device) : BitVec 32 × Device :=
  let device := device.write 0 (index &&& 0xFF)
  (device.read 4, device)

def ioredx (x : BitVec 8) : BitVec 32 := 0x10 + x.setWidth 32 * 2
def ioredxIntpol : BitVec 32 := 1 <<< 13
def ioredxTriggermode : BitVec 32 := 1 <<< 15

-- x86_64_ioapic_map_gsi
def mapGsi (gsi lapicId : BitVec 8) (lowPolarity triggerMode : Bool) (vector : BitVec 8) (device : Device) : Device :=
  let ioredLow := ioredx gsi
  let lowEntry := vector.setWidth 32
  let lowEntry := if lowPolarity then lowEntry ||| ioredxIntpol else lowEntry
  let lowEntry := if !triggerMode then lowEntry ||| ioredxTriggermode else lowEntry
  let device := ioapicWrite ioredLow lowEntry device
  let (highData, device) := ioapicRead (ioredLow + 1) device
  let highData := highData &&& ~~~(0xFF#32 <<< 24)
  let highData := highData ||| lapicId.setWidth 32 <<< 24
  ioapicWrite (ioredLow + 1) highData device

def legacyPolarity : BitVec 16 := 0b11
def legacyTrigger : BitVec 16 := 0b11 <<< 2
def legacyPolarityHigh : BitVec 16 := 0b1
def legacyPolarityLow : BitVec 16 := 0b11
def legacyTriggerEdge : BitVec 16 := 0b1 <<< 2
def legacyTriggerLevel : BitVec 16 := 0b11 <<< 2

-- How x86_64_ioapic_map_legacy_irq wires an interrupt: its GSI, polarity and trigger mode.
def legacyWiring (map : Nat → LegacyIrqTranslation) (irq : BitVec 8) (fallbackLowPolarity fallbackTriggerMode : Bool) : BitVec 8 × Bool × Bool :=
  if irq < 16 then
    let translation := map irq.toNat
    let lowPolarity :=
      if translation.flags &&& legacyPolarity = legacyPolarityLow then true
      else if translation.flags &&& legacyPolarity = legacyPolarityHigh then false
      else fallbackLowPolarity
    let triggerMode :=
      if translation.flags &&& legacyTrigger = legacyTriggerEdge then true
      else if translation.flags &&& legacyTrigger = legacyTriggerLevel then false
      else fallbackTriggerMode
    (translation.gsi, lowPolarity, triggerMode)
  else (irq, fallbackLowPolarity, fallbackTriggerMode)

def mapLegacyIrq (map : Nat → LegacyIrqTranslation) (irq lapicId : BitVec 8) (fallbackLowPolarity fallbackTriggerMode : Bool) (vector : BitVec 8)
    (device : Device) : Device :=
  let (gsi, lowPolarity, triggerMode) := legacyWiring map irq fallbackLowPolarity fallbackTriggerMode
  mapGsi gsi lapicId lowPolarity triggerMode vector device

-- An entry of the redirection table as the I/O APIC reads it.
structure Redirection where
  vector : BitVec 8
  deliveryMode : BitVec 3
  logical : Bool
  lowActive : Bool
  level : Bool
  masked : Bool
  destination : BitVec 8
deriving DecidableEq

-- The table's first register is the sixteenth, an entry has two.
def Device.redirection (device : Device) (gsi : BitVec 8) : Redirection :=
  let low := device.registers (16 + 2 * gsi)
  let high := device.registers (17 + 2 * gsi)
  ⟨low.setWidth 8, low.extractLsb' 8 3, low.getLsbD 11, low.getLsbD 13, low.getLsbD 15, low.getLsbD 16, high.extractLsb' 24 8⟩

section Table

variable (gsi lapicId : BitVec 8) (lowPolarity triggerMode : Bool) (vector : BitVec 8) (device : Device)

theorem ioapic_write_registers (index data : BitVec 32) :
    (ioapicWrite index data device).registers = Function.update device.registers ((index &&& 0xFF).setWidth 8) data := rfl

theorem low_index : (ioredx gsi &&& 0xFF).setWidth 8 = 16 + 2 * gsi := by
  revert gsi
  decide

theorem high_index : (ioredx gsi + 1 &&& 0xFF).setWidth 8 = 17 + 2 * gsi := by
  revert gsi
  decide

def lowEntry : BitVec 32 :=
  let lowEntry := vector.setWidth 32
  let lowEntry := if lowPolarity then lowEntry ||| ioredxIntpol else lowEntry
  if !triggerMode then lowEntry ||| ioredxTriggermode else lowEntry

def highEntry (old : BitVec 32) : BitVec 32 := old &&& ~~~(0xFF#32 <<< 24) ||| lapicId.setWidth 32 <<< 24

theorem apart_parity (g : BitVec 8) : 17 + 2 * gsi ≠ 16 + 2 * g := by
  bv_omega

-- The two registers of the entry are written, the upper one in its top byte.
theorem map_gsi_registers : (mapGsi gsi lapicId lowPolarity triggerMode vector device).registers =
    Function.update (Function.update device.registers (16 + 2 * gsi) (lowEntry lowPolarity triggerMode vector)) (17 + 2 * gsi)
      (highEntry lapicId (device.registers (17 + 2 * gsi))) := by
  have reads : ((ioapicRead (ioredx gsi + 1) (ioapicWrite (ioredx gsi) (lowEntry lowPolarity triggerMode vector) device)).1) =
      device.registers (17 + 2 * gsi) := by
    have value : (ioapicRead (ioredx gsi + 1) (ioapicWrite (ioredx gsi) (lowEntry lowPolarity triggerMode vector) device)).1 =
        (ioapicWrite (ioredx gsi) (lowEntry lowPolarity triggerMode vector) device).registers ((ioredx gsi + 1 &&& 0xFF).setWidth 8) := rfl
    rw [value, ioapic_write_registers, high_index, low_index, Function.update_of_ne (apart_parity gsi gsi)]
  have writes : (mapGsi gsi lapicId lowPolarity triggerMode vector device).registers =
      Function.update (Function.update device.registers ((ioredx gsi &&& 0xFF).setWidth 8) (lowEntry lowPolarity triggerMode vector))
        ((ioredx gsi + 1 &&& 0xFF).setWidth 8)
        (highEntry lapicId (ioapicRead (ioredx gsi + 1) (ioapicWrite (ioredx gsi) (lowEntry lowPolarity triggerMode vector) device)).1) := rfl
  rw [writes, reads, high_index, low_index]

theorem low_entry_fields : ∀ (vector : BitVec 8) (lowPolarity triggerMode : Bool),
    (lowEntry lowPolarity triggerMode vector).setWidth 8 = vector ∧ (lowEntry lowPolarity triggerMode vector).extractLsb' 8 3 = 0 ∧
      (lowEntry lowPolarity triggerMode vector).getLsbD 11 = false ∧ (lowEntry lowPolarity triggerMode vector).getLsbD 13 = lowPolarity ∧
      (lowEntry lowPolarity triggerMode vector).getLsbD 15 = !triggerMode ∧ (lowEntry lowPolarity triggerMode vector).getLsbD 16 = false := by
  decide

theorem high_entry_bit (old : BitVec 32) (i : Nat) : (highEntry lapicId old).getLsbD (24 + i) =
    (old.getLsbD (24 + i) && (16777215#32).getLsbD (24 + i) || decide (24 + i < 32) && lapicId.getLsbD i) := by
  have shifted : ¬ 24 + i < 24 := by omega
  by_cases fits : 24 + i < 32
  · simp [highEntry, shifted, fits]
  · simp [highEntry, shifted, fits]

theorem high_entry_destination (old : BitVec 32) : (highEntry lapicId old).extractLsb' 24 8 = lapicId := by
  ext i inside
  have cleared : (16777215#32).getLsbD (24 + i) = false := by
    interval_cases i <;> rfl
  have fits : 24 + i < 32 := by omega
  rw [← BitVec.getLsbD_eq_getElem inside, ← BitVec.getLsbD_eq_getElem inside, BitVec.getLsbD_extractLsb', high_entry_bit, cleared,
    decide_eq_true inside, decide_eq_true fits, Bool.and_false, Bool.false_or, Bool.true_and, Bool.true_and]

def wired (lapicId : BitVec 8) (lowPolarity triggerMode : Bool) (vector : BitVec 8) : Redirection :=
  ⟨vector, 0, false, lowPolarity, !triggerMode, false, lapicId⟩

theorem map_gsi_same :
    (mapGsi gsi lapicId lowPolarity triggerMode vector device).redirection gsi = wired lapicId lowPolarity triggerMode vector := by
  obtain ⟨isVector, mode, logical, low, level, masked⟩ := low_entry_fields vector lowPolarity triggerMode
  rw [Device.redirection, map_gsi_registers, Function.update_of_ne (apart_parity gsi gsi).symm, Function.update_self, Function.update_self]
  rw [isVector, mode, logical, low, level, masked, high_entry_destination]
  rfl

-- An index has eight bits: GSIs that are 128 apart share their registers.
theorem map_gsi_other {g : BitVec 8} (other : 2 * g ≠ 2 * gsi) :
    (mapGsi gsi lapicId lowPolarity triggerMode vector device).redirection g = device.redirection g := by
  have low : 16 + 2 * g ≠ 16 + 2 * gsi := by bv_omega
  have high : 17 + 2 * g ≠ 17 + 2 * gsi := by bv_omega
  rw [Device.redirection, map_gsi_registers, Function.update_of_ne (apart_parity gsi g).symm, Function.update_of_ne low,
    Function.update_of_ne high, Function.update_of_ne (apart_parity g gsi)]
  rfl

theorem map_gsi_twin {g : BitVec 8} (twin : 2 * g = 2 * gsi) :
    (mapGsi gsi lapicId lowPolarity triggerMode vector device).redirection g = wired lapicId lowPolarity triggerMode vector := by
  rw [← map_gsi_same gsi lapicId lowPolarity triggerMode vector device, Device.redirection, Device.redirection, twin]

end Table

end Elysium.Ioapic
