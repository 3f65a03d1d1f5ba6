import Elysium.PciWrites

set_option autoImplicit false

namespace Elysium.Pci

-- pci_device_header_t and pci_header1_t.
def vendorIdOffset : BitVec 8 := 0x00
def programInterfaceOffset : BitVec 8 := 0x09
def subClassOffset : BitVec 8 := 0x0A
def classOffset : BitVec 8 := 0x0B
def headerTypeOffset : BitVec 8 := 0x0E
def secondaryBusOffset : BitVec 8 := 0x19

def vendorInvalid : BitVec 16 := 0xFFFF
def headerTypeMultifunc : BitVec 16 := 0x80

-- The hardware and g_pci_devices.
structure Enumeration where
  machine : Machine
  devices : List Device

def enumerateFunction (backEnd : BackEnd) (enumerateBus : BitVec 8 → Enumeration → Except Fault Enumeration) (segment : BitVec 16)
    (bus slot func : BitVec 8) (s : Enumeration) : Except Fault Enumeration := do
  let device := backEnd.createDevice segment bus slot func
  let (vendorId, m) ← readw backEnd device vendorIdOffset s.machine
  if vendorId = vendorInvalid then .ok ⟨m, s.devices⟩
  else
    let devices := device :: s.devices
    let (classCode, m) ← readb backEnd device classOffset m
    let (subClass, m) ← readb backEnd device subClassOffset m
    let (_, m) ← readb backEnd device programInterfaceOffset m
    if classCode.truncate 8 = 0x6#8 ∧ subClass.truncate 8 = 0x4#8 then
      let (secondaryBus, m) ← readb backEnd device secondaryBusOffset m
      enumerateBus ((secondaryBus >>> 8).truncate 8) ⟨m, devices⟩
    else .ok ⟨m, devices⟩

-- The functions of a slot. The bound is read again in every round, and is at most 8.
def functionLoop (backEnd : BackEnd) (enumerateBus : BitVec 8 → Enumeration → Except Fault Enumeration) (segment : BitVec 16)
    (bus slot : BitVec 8) (device : Device) : Nat → Nat → Enumeration → Except Fault Enumeration
  | 0, _, s => .ok s
  | rounds + 1, func, s => do
      let (headerType, m) ← readb backEnd device headerTypeOffset s.machine
      if func < (if headerType &&& headerTypeMultifunc ≠ 0 then 8 else 1) then
        let s ← enumerateFunction backEnd enumerateBus segment bus slot (BitVec.ofNat 8 func) ⟨m, s.devices⟩
        functionLoop backEnd enumerateBus segment bus slot device rounds (func + 1) s
      else .ok ⟨m, s.devices⟩

def enumerateSlot (backEnd : BackEnd) (enumerateBus : BitVec 8 → Enumeration → Except Fault Enumeration) (segment : BitVec 16)
    (bus : BitVec 8) (s : Enumeration) (slot : Nat) : Except Fault Enumeration := do
  let device := backEnd.createDevice segment bus (BitVec.ofNat 8 slot) 0
  let (vendorId, m) ← readw backEnd device vendorIdOffset s.machine
  if vendorId = vendorInvalid then .ok ⟨m, s.devices⟩
  else functionLoop backEnd enumerateBus segment bus (BitVec.ofNat 8 slot) device 8 0 ⟨m, s.devices⟩

-- The bound is on how deep the calls nest.
def enumerateBus (backEnd : BackEnd) (segment : BitVec 16) : Nat → BitVec 8 → Enumeration → Except Fault Enumeration
  | 0, _, _ => .error .diverges
  | depth + 1, bus, s => (List.range 32).foldlM (enumerateSlot backEnd (enumerateBus backEnd segment depth) segment bus) s

-- The host controllers of a segment. The device read from is a pci_device_t on the stack.
def controllerLoop (backEnd : BackEnd) (enumerateBus : BitVec 8 → Enumeration → Except Fault Enumeration) (segment : BitVec 16) :
    Nat → Nat → Enumeration → Except Fault Enumeration
  | 0, _, s => .ok s
  | rounds + 1, func, s => do
      let controller : Device := ⟨segment, 0, 0, BitVec.ofNat 8 func, none⟩
      let (vendorId, m) ← readw backEnd controller vendorIdOffset s.machine
      if vendorId = vendorInvalid then .ok ⟨m, s.devices⟩
      else
        let s ← enumerateBus (BitVec.ofNat 8 func) ⟨m, s.devices⟩
        controllerLoop backEnd enumerateBus segment rounds (func + 1) s

def enumerateSegment (backEnd : BackEnd) (depth : Nat) (segment : BitVec 16) (s : Enumeration) : Except Fault Enumeration := do
  let rootController := backEnd.createDevice segment 0 0 0
  let (headerType, m) ← readb backEnd rootController headerTypeOffset s.machine
  if headerType &&& headerTypeMultifunc ≠ 0 then
    controllerLoop backEnd (enumerateBus backEnd segment depth) segment 8 0 ⟨m, s.devices⟩
  else enumerateBus backEnd segment depth 0 ⟨m, s.devices⟩

-- What the configuration spaces say of a function.
def Present (c : Config) (l : Location) : Prop := wordAt c l 0 ≠ 0xFFFF

def Multifunction (c : Config) (l : Location) : Prop := (c l 0x0E).getLsbD 7 = true

def Bridge (c : Config) (l : Location) : Prop := c l 0x0B = 0x6 ∧ c l 0x0A = 0x4

def secondaryBus (c : Config) (l : Location) : BitVec 8 := c l 0x19

instance (c : Config) (l : Location) : Decidable (Present c l) := inferInstanceAs (Decidable (_ ≠ _))

instance (c : Config) (l : Location) : Decidable (Multifunction c l) := inferInstanceAs (Decidable (_ = _))

instance (c : Config) (l : Location) : Decidable (Bridge c l) := inferInstanceAs (Decidable (_ ∧ _))

-- The bus of the first host controller, and the buses of all of them.
def BackEnd.firstBus : BackEnd → BitVec 8
  | .legacy => 0
  | .pcie window => window.startBusNumber

inductive RootBus (backEnd : BackEnd) (c : Config) : BitVec 8 → Prop where
  | single (one : ¬ Multifunction c ⟨backEnd.firstBus, 0, 0⟩) : RootBus backEnd c backEnd.firstBus
  | multi (func : BitVec 3) (many : Multifunction c ⟨backEnd.firstBus, 0, 0⟩) (present : Present c ⟨backEnd.firstBus, 0, func⟩) :
      RootBus backEnd c (backEnd.firstBus + func.zeroExtend 8)

-- The buses of the host controllers, and the buses behind bridges on reachable buses.
inductive ReachableBus (backEnd : BackEnd) (c : Config) : BitVec 8 → Prop where
  | root (bus : BitVec 8) (root : RootBus backEnd c bus) : ReachableBus backEnd c bus
  | behind (l : Location) (reachable : ReachableBus backEnd c l.bus) (present : Present c l) (bridge : Bridge c l) :
      ReachableBus backEnd c (secondaryBus c l)

-- The call returns, having added one device for each present function on a reachable bus and no others.
structure EnumeratesAll (backEnd : BackEnd) (segment : BitVec 16) (s : Enumeration) (depth : Nat) (s' : Enumeration) (added : List Device) :
    Prop where
  returns : enumerateSegment backEnd (depth + 1) segment s = .ok s'
  devices : s'.devices = added ++ s.devices
  segments : ∀ device ∈ added, device.segment = segment
  once : ∀ l, Present s.machine.config l → ReachableBus backEnd s.machine.config l.bus → (added.map Device.location).count l = 1
  none : ∀ l, ¬ (Present s.machine.config l ∧ ReachableBus backEnd s.machine.config l.bus) → (added.map Device.location).count l = 0

end Elysium.Pci
