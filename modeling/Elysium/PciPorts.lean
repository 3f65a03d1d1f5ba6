import Elysium.Pci

set_option autoImplicit false

namespace Elysium.Pci

section Address

variable (bus slot func offset : BitVec 8)

def configAddress : BitVec 32 :=
  bus.zeroExtend 32 <<< 16 ||| (slot &&& 0x1F#8).zeroExtend 32 <<< 11 ||| (func &&& 0x7#8).zeroExtend 32 <<< 8 |||
    (offset &&& 0xFC#8).zeroExtend 32 ||| 0x80000000#32

-- Each part fills its own bits of the register.
theorem bus_bits : ∀ bus : BitVec 8, (bus.zeroExtend 32 <<< 16).extractLsb' 16 8 = bus ∧
    (bus.zeroExtend 32 <<< 16).extractLsb' 11 5 = 0 ∧ (bus.zeroExtend 32 <<< 16).extractLsb' 8 3 = 0 ∧
    bus.zeroExtend 32 <<< 16 &&& 0xFC#32 = 0 := by
  decide

theorem slot_bits : ∀ slot : BitVec 8, ((slot &&& 0x1F#8).zeroExtend 32 <<< 11).extractLsb' 16 8 = 0 ∧
    ((slot &&& 0x1F#8).zeroExtend 32 <<< 11).extractLsb' 11 5 = slot.extractLsb' 0 5 ∧
    ((slot &&& 0x1F#8).zeroExtend 32 <<< 11).extractLsb' 8 3 = 0 ∧ (slot &&& 0x1F#8).zeroExtend 32 <<< 11 &&& 0xFC#32 = 0 := by
  decide

theorem func_bits : ∀ func : BitVec 8, ((func &&& 0x7#8).zeroExtend 32 <<< 8).extractLsb' 16 8 = 0 ∧
    ((func &&& 0x7#8).zeroExtend 32 <<< 8).extractLsb' 11 5 = 0 ∧
    ((func &&& 0x7#8).zeroExtend 32 <<< 8).extractLsb' 8 3 = func.extractLsb' 0 3 ∧
    (func &&& 0x7#8).zeroExtend 32 <<< 8 &&& 0xFC#32 = 0 := by
  decide

theorem register_bits : ∀ offset : BitVec 8, ((offset &&& 0xFC#8).zeroExtend 32).extractLsb' 16 8 = 0 ∧
    ((offset &&& 0xFC#8).zeroExtend 32).extractLsb' 11 5 = 0 ∧ ((offset &&& 0xFC#8).zeroExtend 32).extractLsb' 8 3 = 0 ∧
    ((offset &&& 0xFC#8).zeroExtend 32 &&& 0xFC#32).toNat = offset.toNat / 4 * 4 := by
  decide

theorem selected_config_address :
    selected (configAddress bus slot func offset) = ⟨bus, slot.extractLsb' 0 5, func.extractLsb' 0 3⟩ := by
  simp only [selected, configAddress, BitVec.extractLsb'_or, bus_bits, slot_bits, func_bits, register_bits]
  simp

theorem register_config_address : register (configAddress bus slot func offset) = offset.toNat / 4 * 4 := by
  rw [← (register_bits offset).2.2.2, register, configAddress]
  simp only [BitVec.and_or_distrib_right, bus_bits, slot_bits, func_bits]
  simp

theorem enabled_config_address : enabled (configAddress bus slot func offset) = true := by
  simp [enabled, configAddress]

end Address

theorem half_of_dword : ∀ offset : BitVec 8, (offset &&& 2#8).toNat = offset.toNat % 4 / 2 * 2 := by
  decide

theorem byte_of_dword : ∀ offset : BitVec 8, (offset &&& 3#8).toNat = offset.toNat % 4 := by
  decide

theorem or_reordered (a b c d e : BitVec 32) : d ||| e ||| a ||| b ||| c = a ||| b ||| c ||| d ||| e := by
  ac_rfl

theorem config_address_read (bus slot func offset : BitVec 8) :
    (offset &&& 0xFC#8).zeroExtend 32 ||| 0x80000000#32 ||| bus.zeroExtend 32 <<< 16 ||| (slot &&& 0x1F#8).zeroExtend 32 <<< 11 |||
      (func &&& 0x7#8).zeroExtend 32 <<< 8 = configAddress bus slot func offset :=
  or_reordered _ _ _ _ _

-- What the data port gives once a device and an offset are selected.
def selectedDword (device : Device) (offset : BitVec 8) (m : Machine) : BitVec 32 :=
  dwordAt m.config device.location (offset.toNat / 4 * 4)

def addressed (device : Device) (offset : BitVec 8) (m : Machine) : Machine :=
  { m with address := configAddress device.bus device.slot device.func offset }

theorem out_address (device : Device) (offset : BitVec 8) (m : Machine) :
    portOutd portConfigAddress (configAddress device.bus device.slot device.func offset) m = addressed device offset m := rfl

theorem in_data (device : Device) (offset : BitVec 8) (m : Machine) :
    portInd portConfigData (addressed device offset m) = selectedDword device offset m := by
  simp [portInd, addressed, enabled_config_address, selected_config_address, register_config_address, selectedDword, Device.location]

theorem out_data (device : Device) (offset : BitVec 8) (value : BitVec 32) (m : Machine) :
    portOutd portConfigData value (addressed device offset m) =
      { addressed device offset m with config := storeBytes m.config device.location (offset.toNat / 4 * 4) 4 value } := by
  simp [portOutd, portConfigData, portConfigAddress, addressed, enabled_config_address, selected_config_address,
    register_config_address, Device.location]

-- What one of pci_config_write_byte, pci_config_write_word and pci_config_write_double writes.
inductive Datum where
  | byte (value : BitVec 8)
  | word (value : BitVec 16)
  | double (value : BitVec 32)
deriving DecidableEq, Repr

def Datum.size : Datum → Nat
  | .byte _ => 1
  | .word _ => 2
  | .double _ => 4

def Datum.extended : Datum → BitVec 32
  | .byte value => value.zeroExtend 32
  | .word value => value.zeroExtend 32
  | .double value => value

theorem word_bit (c : Config) (l : Location) (o i : Nat) (small : i < 16) :
    (wordAt c l o).getLsbD i = (c l (o + i / 8)).getLsbD (i % 8) := by
  unfold wordAt
  rw [BitVec.getLsbD_append]
  split
  · rename_i low
    rw [Nat.div_eq_of_lt low, Nat.mod_eq_of_lt low, Nat.add_zero]
  · rename_i high
    rw [show i / 8 = 1 by omega, show i % 8 = i - 8 by omega]

theorem dword_bit (c : Config) (l : Location) (o i : Nat) (small : i < 32) :
    (dwordAt c l o).getLsbD i = (c l (o + i / 8)).getLsbD (i % 8) := by
  unfold dwordAt
  rw [BitVec.getLsbD_append]
  split
  · rename_i low
    exact word_bit c l o i low
  · rename_i high
    rw [word_bit c l (o + 2) _ (by omega), show o + 2 + (i - (8 + 8)) / 8 = o + i / 8 by omega, show (i - (8 + 8)) % 8 = i % 8 by omega]

-- Shifting the selected double word leaves the part at the offset lowest.
theorem shifted_byte (c : Config) (l : Location) (o : Nat) :
    (dwordAt c l (o / 4 * 4) >>> (o % 4 * 8)).truncate 8 = c l o := by
  ext i hi
  rw [BitVec.getElem_setWidth, BitVec.getLsbD_ushiftRight, dword_bit _ _ _ _ (by omega), show (o % 4 * 8 + i) % 8 = i by omega,
    show o / 4 * 4 + (o % 4 * 8 + i) / 8 = o by omega]
  exact BitVec.getLsbD_eq_getElem hi

theorem shifted_word (c : Config) (l : Location) (o : Nat) (aligned : o % 2 = 0) :
    (dwordAt c l (o / 4 * 4) >>> (o % 4 / 2 * 2 * 8)).truncate 16 = wordAt c l o := by
  ext i hi
  rw [BitVec.getElem_setWidth, BitVec.getLsbD_ushiftRight, dword_bit _ _ _ _ (by omega), ← BitVec.getLsbD_eq_getElem hi,
    word_bit _ _ _ _ hi, show (o % 4 / 2 * 2 * 8 + i) % 8 = i % 8 by omega,
    show o / 4 * 4 + (o % 4 / 2 * 2 * 8 + i) / 8 = o + i / 8 by omega]

-- What pci_write puts in place of the whole double word.
def written (c : Config) (l : Location) (offset : Nat) : Datum → BitVec 32
  | .byte value => if offset % 4 = 0 then value.zeroExtend 32 else (c l offset).zeroExtend 32
  | .word value => if offset % 4 = 0 then value.zeroExtend 32 else (wordAt c l offset).zeroExtend 32
  | .double value => value

theorem shifted_out {w : Nat} (value : BitVec w) (n : Nat) (narrow : w ≤ n) : value.zeroExtend 32 >>> n = 0 := by
  apply BitVec.eq_of_toNat_eq
  have bound : value.toNat < 2 ^ n := Nat.lt_of_lt_of_le value.isLt (Nat.pow_le_pow_right (by decide) narrow)
  have less := Nat.mod_le value.toNat (2 ^ 32)
  rw [BitVec.toNat_ushiftRight, BitVec.toNat_setWidth, Nat.shiftRight_eq_div_pow, Nat.div_eq_of_lt (by omega)]
  rfl

theorem masked_out {w : Nat} (value : BitVec w) : value.zeroExtend 32 &&& ~~~((BitVec.allOnes w).zeroExtend 32) = 0 := by
  ext i hi
  simp
  intro there
  exact (BitVec.lt_of_getLsbD there)

theorem narrowed_again {w : Nat} (value : BitVec w) (narrow : w ≤ 32) : (value.zeroExtend 32).truncate w = value := by
  simp [narrow]

-- The mask is shifted the wrong way: it clears everything the read left, or nothing.
theorem masked {w : Nat} (old value : BitVec w) (narrow : w ≤ 32) (k n : Nat) (whole : k ≠ 0 → w ≤ n) (none : k = 0 → n = 0) :
    (old.zeroExtend 32 &&& ~~~((BitVec.allOnes w).zeroExtend 32 >>> n)) ||| (((value.zeroExtend 32).truncate w).zeroExtend 32 >>> n) =
      if k = 0 then value.zeroExtend 32 else old.zeroExtend 32 := by
  rw [narrowed_again value narrow]
  split
  · rename_i first
    rw [none first]
    simp [masked_out]
  · rename_i later
    rw [shifted_out _ n (whole later), shifted_out _ n (whole later), show ~~~(0 : BitVec 32) = BitVec.allOnes 32 from rfl,
      BitVec.and_allOnes]
    simp

theorem pci_read_byte (device : Device) (offset : BitVec 8) (m : Machine) :
    pciRead device offset 1 m = .ok ((m.config device.location offset.toNat).zeroExtend 32, addressed device offset m) := by
  unfold pciRead
  simp only [config_address_read, out_address, in_data, byte_of_dword]
  rw [selectedDword, shifted_byte]

theorem pci_read_word (device : Device) (offset : BitVec 8) (m : Machine) (aligned : offset.toNat % 2 = 0) :
    pciRead device offset 2 m = .ok ((wordAt m.config device.location offset.toNat).zeroExtend 32, addressed device offset m) := by
  unfold pciRead
  simp only [config_address_read, out_address, in_data, half_of_dword]
  rw [selectedDword, shifted_word _ _ _ aligned]

theorem pci_read_double (device : Device) (offset : BitVec 8) (m : Machine) (aligned : offset.toNat % 4 = 0) :
    pciRead device offset 4 m = .ok (dwordAt m.config device.location offset.toNat, addressed device offset m) := by
  unfold pciRead
  simp only [config_address_read, out_address, in_data]
  rw [selectedDword, show offset.toNat / 4 * 4 = offset.toNat by omega]

theorem pci_write_eq (device : Device) (offset : BitVec 8) (datum : Datum) (m : Machine) (aligned : offset.toNat % datum.size = 0) :
    pciWrite device offset datum.size datum.extended m =
      .ok { addressed device offset m with
        config := storeBytes m.config device.location (offset.toNat / 4 * 4) 4 (written m.config device.location offset.toNat datum) } := by
  cases datum with
  | byte value =>
      simp only [Datum.size, Datum.extended, pciWrite, pci_read_byte, bind_ok, byte_of_dword]
      rw [show (0xFF#32) = (BitVec.allOnes 8).zeroExtend 32 from rfl, masked _ value (by decide) (offset.toNat % 4) _ (by omega) (by omega)]
      exact congrArg Except.ok (out_data device offset _ m)
  | word value =>
      simp only [Datum.size] at aligned
      simp only [Datum.size, Datum.extended, pciWrite, pci_read_word device offset m aligned, bind_ok, half_of_dword]
      rw [show (0xFFFF#32) = (BitVec.allOnes 16).zeroExtend 32 from rfl, masked _ value (by decide) (offset.toNat % 4) _ (by omega) (by omega)]
      exact congrArg Except.ok (out_data device offset _ m)
  | double value =>
      simp only [Datum.size] at aligned
      simp only [Datum.size, Datum.extended, pciWrite, pci_read_double device offset m aligned, bind_ok]
      exact congrArg Except.ok (out_data device offset _ m)

end Elysium.Pci
