import Elysium.Machine

set_option autoImplicit false

namespace Elysium.Pci

def portConfigAddress : Nat := 0xCF8
def portConfigData : Nat := 0xCFC

-- One function of a segment group, as the hardware selects it.
structure Location where
  bus : BitVec 8
  slot : BitVec 5
  func : BitVec 3
deriving DecidableEq, Repr

-- The bytes of the configuration space of every function. An absent function reads as ones.
abbrev Config := Location → Nat → BitVec 8

-- What the two back ends work on: the address register behind port 0xCF8 and the
-- configuration spaces of the segment group.
structure Machine where
  address : BitVec 32
  config : Config

def wordAt (config : Config) (l : Location) (offset : Nat) : BitVec 16 :=
  config l (offset + 1) ++ config l offset

def dwordAt (config : Config) (l : Location) (offset : Nat) : BitVec 32 :=
  wordAt config l (offset + 2) ++ wordAt config l offset

-- The low bytes of a value, least significant first.
def storeBytes (config : Config) (l : Location) (offset size : Nat) (value : BitVec 32) : Config := fun l' o =>
  if l' = l ∧ offset ≤ o ∧ o < offset + size then value.extractLsb' (8 * (o - offset)) 8 else config l' o

-- The address register selects a function and an aligned double word of it.
def selected (address : BitVec 32) : Location :=
  ⟨address.extractLsb' 16 8, address.extractLsb' 11 5, address.extractLsb' 8 3⟩

def register (address : BitVec 32) : Nat := (address &&& 0xFC#32).toNat

def enabled (address : BitVec 32) : Bool := address.getLsbD 31

def portOutd (port : Nat) (value : BitVec 32) (m : Machine) : Machine :=
  if port = portConfigAddress then { m with address := value }
  else if port = portConfigData ∧ enabled m.address = true then
    { m with config := storeBytes m.config (selected m.address) (register m.address) 4 value }
  else m

def portInd (port : Nat) (m : Machine) : BitVec 32 :=
  if port = portConfigData ∧ enabled m.address = true then dwordAt m.config (selected m.address) (register m.address)
  else BitVec.allOnes 32

structure PcieSegment where
  baseAddress : Nat
  startBusNumber : BitVec 8
  endBusNumber : BitVec 8
deriving DecidableEq, Repr

-- A pci_device_t; config_space follows it only where it is part of a pcie_device_t, and holds
-- the physical address that mmio_map was given.
structure Device where
  segment : BitVec 16
  bus : BitVec 8
  slot : BitVec 8
  func : BitVec 8
  configSpace : Option Nat
deriving DecidableEq, Repr

-- The place of a device in its segment group.
def Device.location (device : Device) : Location :=
  ⟨device.bus, device.slot.extractLsb' 0 5, device.func.extractLsb' 0 3⟩

def pciCreateDevice (segment : BitVec 16) (bus slot func : BitVec 8) : Device := ⟨segment, bus, slot, func, none⟩

def pcieOffset (window : PcieSegment) (bus slot func : BitVec 8) : BitVec 32 :=
  ((bus.zeroExtend 32 - window.startBusNumber.zeroExtend 32) <<< 20) ||| ((slot &&& 0x1F#8).zeroExtend 32 <<< 15) |||
    ((func &&& 0x7#8).zeroExtend 32 <<< 12)

def pcieCreateDevice (window : PcieSegment) (segment : BitVec 16) (bus slot func : BitVec 8) : Device :=
  ⟨segment, bus, slot, func, some (window.baseAddress + (pcieOffset window bus slot func).toNat)⟩

-- The function and the register that a physical address of the window stands for.
def decodeWindow (window : PcieSegment) (address : Nat) : Option (Location × Nat) :=
  let offset := address - window.baseAddress
  if window.baseAddress ≤ address ∧ window.startBusNumber.toNat + offset / 2 ^ 20 ≤ window.endBusNumber.toNat then
    some (⟨BitVec.ofNat 8 (window.startBusNumber.toNat + offset / 2 ^ 20), BitVec.ofNat 5 (offset / 2 ^ 15),
      BitVec.ofNat 3 (offset / 2 ^ 12)⟩, offset % 2 ^ 12)
  else none

-- PCIE_DEVICE and config_space + offset: outside a pcie_device_t, and outside the window, there is no
-- configuration space to access.
def pcieAddress (window : PcieSegment) (device : Device) (offset : BitVec 8) : Except Fault (Location × Nat) :=
  match device.configSpace with
  | none => .error .undefined
  | some configSpace =>
      match decodeWindow window (configSpace + offset.toNat) with
      | none => .error .undefined
      | some place => .ok place

def pcieRead (window : PcieSegment) (device : Device) (offset : BitVec 8) (size : Nat) (m : Machine) :
    Except Fault (BitVec 32 × Machine) := do
  let place ← pcieAddress window device offset
  match size with
  | 4 => .ok (dwordAt m.config place.1 place.2, m)
  | 2 => .ok ((wordAt m.config place.1 place.2).zeroExtend 32, m)
  | 1 => .ok ((m.config place.1 place.2).zeroExtend 32, m)
  | _ => .error .assertion

def pcieWrite (window : PcieSegment) (device : Device) (offset : BitVec 8) (size : Nat) (value : BitVec 32) (m : Machine) :
    Except Fault Machine := do
  let place ← pcieAddress window device offset
  match size with
  | 4 => .ok { m with config := storeBytes m.config place.1 place.2 4 value }
  | 2 => .ok { m with config := storeBytes m.config place.1 place.2 2 value }
  | 1 => .ok { m with config := storeBytes m.config place.1 place.2 1 value }
  | _ => .error .assertion

def pciRead (device : Device) (offset : BitVec 8) (size : Nat) (m : Machine) : Except Fault (BitVec 32 × Machine) :=
  let registerOffset : BitVec 32 := (offset &&& 0xFC#8).zeroExtend 32 ||| 0x80000000#32
  let registerOffset := registerOffset ||| device.bus.zeroExtend 32 <<< 16
  let registerOffset := registerOffset ||| (device.slot &&& 0x1F#8).zeroExtend 32 <<< 11
  let registerOffset := registerOffset ||| (device.func &&& 0x7#8).zeroExtend 32 <<< 8
  let m := portOutd portConfigAddress registerOffset m
  let value := portInd portConfigData m
  match size with
  | 4 => .ok (value, m)
  | 2 => .ok (((value >>> ((offset &&& 2#8).toNat * 8)).truncate 16).zeroExtend 32, m)
  | 1 => .ok (((value >>> ((offset &&& 3#8).toNat * 8)).truncate 8).zeroExtend 32, m)
  | _ => .error .assertion

def pciWrite (device : Device) (offset : BitVec 8) (size : Nat) (value : BitVec 32) (m : Machine) : Except Fault Machine := do
  let (original, m) ← pciRead device offset size m
  let original ← match size with
    | 4 => Except.ok value
    | 2 =>
        let shift := (offset &&& 2#8).toNat * 8
        .ok ((original &&& ~~~(0xFFFF#32 >>> shift)) ||| ((value.truncate 16).zeroExtend 32 >>> shift))
    | 1 =>
        let shift := (offset &&& 3#8).toNat * 8
        .ok ((original &&& ~~~(0xFF#32 >>> shift)) ||| ((value.truncate 8).zeroExtend 32 >>> shift))
    | _ => .error .assertion
  let m := portOutd portConfigAddress (device.bus.zeroExtend 32 <<< 16 ||| (device.slot &&& 0x1F#8).zeroExtend 32 <<< 11 |||
    (device.func &&& 0x7#8).zeroExtend 32 <<< 8 ||| (offset &&& 0xFC#8).zeroExtend 32 ||| 0x80000000#32) m
  .ok (portOutd portConfigData original m)

-- g_create_device, g_read and g_write, as pci_enumerate sets them.
inductive BackEnd where
  | legacy
  | pcie (window : PcieSegment)
deriving DecidableEq, Repr

def BackEnd.createDevice : BackEnd → BitVec 16 → BitVec 8 → BitVec 8 → BitVec 8 → Device
  | .legacy => pciCreateDevice
  | .pcie window => pcieCreateDevice window

def BackEnd.read : BackEnd → Device → BitVec 8 → Nat → Machine → Except Fault (BitVec 32 × Machine)
  | .legacy => pciRead
  | .pcie window => pcieRead window

def BackEnd.write : BackEnd → Device → BitVec 8 → Nat → BitVec 32 → Machine → Except Fault Machine
  | .legacy => pciWrite
  | .pcie window => pcieWrite window

def readd (backEnd : BackEnd) (device : Device) (offset : BitVec 8) (m : Machine) : Except Fault (BitVec 32 × Machine) :=
  backEnd.read device offset 4 m

def readw (backEnd : BackEnd) (device : Device) (offset : BitVec 8) (m : Machine) : Except Fault (BitVec 16 × Machine) := do
  let (value, m) ← backEnd.read device offset 2 m
  .ok (value.truncate 16, m)

-- The result is a uint16_t, of which a byte is filled.
def readb (backEnd : BackEnd) (device : Device) (offset : BitVec 8) (m : Machine) : Except Fault (BitVec 16 × Machine) := do
  let (value, m) ← backEnd.read device offset 1 m
  .ok ((value.truncate 8).zeroExtend 16, m)

def writed (backEnd : BackEnd) (device : Device) (offset : BitVec 8) (value : BitVec 32) (m : Machine) : Except Fault Machine :=
  backEnd.write device offset 4 value m

def writew (backEnd : BackEnd) (device : Device) (offset : BitVec 8) (value : BitVec 16) (m : Machine) : Except Fault Machine :=
  backEnd.write device offset 2 (value.zeroExtend 32) m

def writeb (backEnd : BackEnd) (device : Device) (offset : BitVec 8) (value : BitVec 8) (m : Machine) : Except Fault Machine :=
  backEnd.write device offset 1 (value.zeroExtend 32) m

end Elysium.Pci
