import Elysium.PciPorts

set_option autoImplicit false

namespace Elysium.Pci

-- pci_config_write_byte, pci_config_write_word and pci_config_write_double.
def pciConfigWrite (backEnd : BackEnd) (device : Device) (offset : BitVec 8) : Datum → Machine → Except Fault Machine
  | .byte value => writeb backEnd device offset value
  | .word value => writew backEnd device offset value
  | .double value => writed backEnd device offset value

-- The read of the same width as the datum.
def pciConfigRead (backEnd : BackEnd) (device : Device) (offset : BitVec 8) (datum : Datum) (m : Machine) :
    Except Fault (Datum × Machine) :=
  match datum with
  | .byte _ => do
      let (value, m) ← readb backEnd device offset m
      .ok (.byte (value.truncate 8), m)
  | .word _ => do
      let (value, m) ← readw backEnd device offset m
      .ok (.word value, m)
  | .double _ => do
      let (value, m) ← readd backEnd device offset m
      .ok (.double value, m)

theorem config_write_eq (backEnd : BackEnd) (device : Device) (offset : BitVec 8) (datum : Datum) (m : Machine) :
    pciConfigWrite backEnd device offset datum m = backEnd.write device offset datum.size datum.extended m := by
  cases datum <;> rfl

def datumAt (c : Config) (l : Location) (offset : Nat) : Datum → Datum
  | .byte _ => .byte (c l offset)
  | .word _ => .word (wordAt c l offset)
  | .double _ => .double (dwordAt c l offset)

theorem config_read_legacy (device : Device) (offset : BitVec 8) (datum : Datum) (m : Machine) (aligned : offset.toNat % datum.size = 0) :
    pciConfigRead .legacy device offset datum m =
      .ok (datumAt m.config device.location offset.toNat datum, addressed device offset m) := by
  cases datum with
  | byte value =>
      simp only [pciConfigRead, readb, BackEnd.read, pci_read_byte, bind_ok, datumAt]
      simp
  | word value =>
      simp only [Datum.size] at aligned
      simp only [pciConfigRead, readw, BackEnd.read, pci_read_word device offset m aligned, bind_ok, datumAt]
      simp
  | double value =>
      simp only [Datum.size] at aligned
      simp only [pciConfigRead, readd, BackEnd.read, pci_read_double device offset m aligned, bind_ok, datumAt]

-- Byte i of a value.
theorem extended_byte {w : Nat} (value : BitVec w) (i : Nat) (inside : 8 * i + 8 ≤ w) (narrow : w ≤ 32) :
    (value.zeroExtend 32).extractLsb' (8 * i) 8 = value.extractLsb' (8 * i) 8 := by
  ext j hj
  simp
  omega

theorem extended_zero {w : Nat} (value : BitVec w) (i : Nat) (outside : w ≤ 8 * i) :
    (value.zeroExtend 32).extractLsb' (8 * i) 8 = 0 := by
  ext j hj
  simp
  intro _
  exact BitVec.getLsbD_of_ge _ _ (by omega)

theorem word_byte (c : Config) (l : Location) (o i : Nat) (small : i < 2) :
    (wordAt c l o).extractLsb' (8 * i) 8 = c l (o + i) := by
  ext j hj
  rw [BitVec.getElem_extractLsb', word_bit _ _ _ _ (by omega), show (8 * i + j) / 8 = i by omega, show (8 * i + j) % 8 = j by omega]
  exact BitVec.getLsbD_eq_getElem hj

theorem dword_byte (c : Config) (l : Location) (o i : Nat) (small : i < 4) :
    (dwordAt c l o).extractLsb' (8 * i) 8 = c l (o + i) := by
  ext j hj
  rw [BitVec.getElem_extractLsb', dword_bit _ _ _ _ (by omega), show (8 * i + j) / 8 = i by omega, show (8 * i + j) % 8 = j by omega]
  exact BitVec.getLsbD_eq_getElem hj

-- A value is known from its bytes.
theorem eq_of_bytes {n : Nat} (a b : BitVec (8 * n)) (same : ∀ i < n, a.extractLsb' (8 * i) 8 = b.extractLsb' (8 * i) 8) : a = b := by
  apply BitVec.eq_of_getLsbD_eq
  intro i hi
  have bit := congrArg (fun value : BitVec 8 => value.getLsbD (i % 8)) (same (i / 8) (by omega))
  have small : i % 8 < 8 := Nat.mod_lt _ (by decide)
  simpa [small, Nat.div_add_mod] using bit

theorem datum_at_iff (c : Config) (l : Location) (o : Nat) (datum : Datum) :
    datumAt c l o datum = datum ↔ ∀ i < datum.size, datum.extended.extractLsb' (8 * i) 8 = c l (o + i) := by
  cases datum with
  | byte value =>
      rw [datumAt, Datum.byte.injEq]
      constructor
      · rintro rfl i small
        obtain rfl : i = 0 := by simpa [Datum.size] using small
        rw [Datum.extended, extended_byte _ _ (by decide) (by decide)]
        simp
      · intro bytes
        have first := bytes 0 Nat.one_pos
        rw [Datum.extended, extended_byte _ _ (by decide) (by decide)] at first
        simpa using first.symm
  | word value =>
      rw [datumAt, Datum.word.injEq]
      constructor
      · rintro rfl i small
        rw [Datum.extended, extended_byte _ _ (by simp only [Datum.size] at small; omega) (by decide), word_byte _ _ _ _ small]
      · intro bytes
        apply eq_of_bytes (n := 2)
        intro i small
        rw [word_byte _ _ _ _ small, ← bytes i small, Datum.extended, extended_byte _ _ (by omega) (by decide)]
  | double value =>
      rw [datumAt, Datum.double.injEq]
      constructor
      · rintro rfl i small
        rw [Datum.extended, dword_byte _ _ _ _ small]
      · intro bytes
        apply eq_of_bytes (n := 4)
        intro i small
        rw [dword_byte _ _ _ _ small, ← bytes i small, Datum.extended]

-- The write reads back and nothing else changes.
structure WritesExactly (device : Device) (offset : BitVec 8) (datum : Datum) (m m' : Machine) : Prop where
  returns : pciConfigWrite .legacy device offset datum m = .ok m'
  readsBack : ∃ m'', pciConfigRead .legacy device offset datum m' = .ok (datum, m'')
  kept : ∀ l o, ¬ (l = device.location ∧ offset.toNat ≤ o ∧ o < offset.toNat + datum.size) → m'.config l o = m.config l o

-- What the bytes of the aligned double word have to be for the write to be exact. A write at its start
-- clears the rest of it, and one further up moves what it should replace down to the start.
def Spared (c : Config) (l : Location) (offset : Nat) : Datum → Prop
  | .double _ => True
  | .word value =>
      if offset % 4 = 0 then c l (offset + 2) = 0 ∧ c l (offset + 3) = 0
      else value = 0 ∧ wordAt c l (offset - 2) = wordAt c l offset
  | .byte value =>
      if offset % 4 = 0 then c l (offset + 1) = 0 ∧ c l (offset + 2) = 0 ∧ c l (offset + 3) = 0
      else value = 0 ∧ c l (offset / 4 * 4) = c l offset ∧
        ∀ i < 4, i ≠ 0 → i ≠ offset % 4 → c l (offset / 4 * 4 + i) = 0

section Store

variable {c : Config} {l : Location}

theorem store_at (offset size i : Nat) (value : BitVec 32) (small : i < size) :
    storeBytes c l offset size value l (offset + i) = value.extractLsb' (8 * i) 8 := by
  rw [storeBytes, if_pos ⟨rfl, by omega, by omega⟩, Nat.add_sub_cancel_left]

theorem store_other {offset size : Nat} {value : BitVec 32} {l' : Location} {o : Nat}
    (outside : ¬ (l' = l ∧ offset ≤ o ∧ o < offset + size)) : storeBytes c l offset size value l' o = c l' o := by
  rw [storeBytes, if_neg outside]

-- Storing a whole double word equals storing a part of it when its four bytes do.
theorem store_eq_iff (offset size : Nat) (x y : BitVec 32) (inside : offset % 4 + size ≤ 4) :
    storeBytes c l (offset / 4 * 4) 4 x = storeBytes c l offset size y ↔
      ∀ i < 4, x.extractLsb' (8 * i) 8 = storeBytes c l offset size y l (offset / 4 * 4 + i) := by
  constructor
  · intro same i small
    rw [← same, store_at _ _ _ _ small]
  · intro bytes
    funext l' o
    by_cases there : l' = l ∧ offset / 4 * 4 ≤ o ∧ o < offset / 4 * 4 + 4
    · obtain ⟨rfl, low, high⟩ := there
      have byte := bytes (o - offset / 4 * 4) (by omega)
      rw [show offset / 4 * 4 + (o - offset / 4 * 4) = o by omega] at byte
      rw [storeBytes, if_pos ⟨rfl, low, high⟩, byte]
    · rw [store_other there, store_other]
      rintro ⟨rfl, low, high⟩
      exact there ⟨rfl, by omega, by omega⟩

theorem byte_exact_iff (offset : Nat) (value : BitVec 8) :
    (∀ i < 4, (written c l offset (.byte value)).extractLsb' (8 * i) 8 =
      storeBytes c l offset 1 (value.zeroExtend 32) l (offset / 4 * 4 + i)) ↔ Spared c l offset (.byte value) := by
  by_cases first : offset % 4 = 0
  · rw [show offset / 4 * 4 = offset by omega]
    simp only [written, Spared, if_pos first]
    constructor
    · intro bytes
      have zero : ∀ i < 4, i ≠ 0 → c l (offset + i) = 0 := by
        intro i small later
        have byte := bytes i small
        rw [store_other (by omega), extended_zero _ _ (by omega)] at byte
        exact byte.symm
      exact ⟨zero 1 (by decide) (by decide), zero 2 (by decide) (by decide), zero 3 (by decide) (by decide)⟩
    · rintro ⟨second, third, fourth⟩ i small
      have cases : i = 0 ∨ i = 1 ∨ i = 2 ∨ i = 3 := by omega
      rcases cases with rfl | rfl | rfl | rfl
      · rw [store_at _ _ _ _ (by decide)]
      · rw [store_other (by omega), extended_zero _ _ (by decide), second]
      · rw [store_other (by omega), extended_zero _ _ (by decide), third]
      · rw [store_other (by omega), extended_zero _ _ (by decide), fourth]
  · simp only [written, Spared, if_neg first]
    have lowest : ∀ v : BitVec 8, (v.zeroExtend 32).extractLsb' (8 * 0) 8 = v := by decide
    have here := store_at (c := c) (l := l) offset 1 0 (value.zeroExtend 32) (by decide)
    rw [lowest, Nat.add_zero] at here
    constructor
    · intro bytes
      refine ⟨?_, ?_, ?_⟩
      · have byte := bytes (offset % 4) (by omega)
        rw [show offset / 4 * 4 + offset % 4 = offset by omega, here, extended_zero _ _ (by omega)] at byte
        exact byte.symm
      · have byte := bytes 0 (by decide)
        rw [store_other (by omega), lowest] at byte
        exact byte.symm
      · intro i small later other
        have byte := bytes i small
        rw [store_other (by omega), extended_zero _ _ (by omega)] at byte
        exact byte.symm
    · rintro ⟨rfl, start, rest⟩ i small
      by_cases zero : i = 0
      · subst zero
        rw [store_other (by omega), lowest]
        exact start.symm
      · rw [extended_zero _ _ (by omega)]
        by_cases same : i = offset % 4
        · rw [same, show offset / 4 * 4 + offset % 4 = offset by omega, here]
        · rw [store_other (by omega), rest i small zero same]

theorem word_exact_iff (offset : Nat) (value : BitVec 16) (aligned : offset % 2 = 0) :
    (∀ i < 4, (written c l offset (.word value)).extractLsb' (8 * i) 8 =
      storeBytes c l offset 2 (value.zeroExtend 32) l (offset / 4 * 4 + i)) ↔ Spared c l offset (.word value) := by
  by_cases first : offset % 4 = 0
  · rw [show offset / 4 * 4 = offset by omega]
    simp only [written, Spared, if_pos first]
    constructor
    · intro bytes
      have zero : ∀ i < 4, 2 ≤ i → c l (offset + i) = 0 := by
        intro i small later
        have byte := bytes i small
        rw [store_other (by omega), extended_zero _ _ (by omega)] at byte
        exact byte.symm
      exact ⟨zero 2 (by decide) (by decide), zero 3 (by decide) (by decide)⟩
    · rintro ⟨third, fourth⟩ i small
      by_cases low : i < 2
      · rw [store_at _ _ _ _ low]
      · have cases : i = 2 ∨ i = 3 := by omega
        rcases cases with rfl | rfl
        · rw [store_other (by omega), extended_zero _ _ (by decide), third]
        · rw [store_other (by omega), extended_zero _ _ (by decide), fourth]
  · simp only [written, Spared, if_neg first]
    have low : ∀ i < 2, ((wordAt c l offset).zeroExtend 32).extractLsb' (8 * i) 8 = c l (offset + i) := by
      intro i small
      rw [extended_byte _ _ (by omega) (by decide), word_byte _ _ _ _ small]
    rw [show offset / 4 * 4 = offset - 2 by omega]
    constructor
    · intro bytes
      refine ⟨eq_of_bytes (n := 2) _ _ ?_, eq_of_bytes (n := 2) _ _ ?_⟩
      · intro i small
        have byte := bytes (2 + i) (by omega)
        rw [show offset - 2 + (2 + i) = offset + i by omega, store_at _ _ _ _ small, extended_zero _ _ (by omega),
          extended_byte _ _ (by omega) (by decide)] at byte
        rw [← byte]
        simp
      · intro i small
        have byte := bytes i (by omega)
        rw [store_other (by omega), low i small] at byte
        rw [word_byte _ _ _ _ small, word_byte _ _ _ _ small, byte]
    · rintro ⟨rfl, same⟩ i small
      by_cases lower : i < 2
      · rw [store_other (by omega), low i lower, ← word_byte c l offset i lower, ← same, word_byte _ _ _ _ lower]
      · rw [extended_zero _ _ (by omega), show offset - 2 + i = offset + (i - 2) by omega, store_at _ _ _ _ (by omega)]
        simp

theorem written_exact_iff (offset : Nat) (datum : Datum) (aligned : offset % datum.size = 0) :
    storeBytes c l (offset / 4 * 4) 4 (written c l offset datum) = storeBytes c l offset datum.size datum.extended ↔
      Spared c l offset datum := by
  cases datum with
  | double value =>
      simp only [Datum.size] at aligned
      rw [show offset / 4 * 4 = offset by omega]
      simp [written, Datum.size, Datum.extended, Spared]
  | word value =>
      simp only [Datum.size] at aligned
      rw [store_eq_iff offset _ _ _ (by simp only [Datum.size]; omega)]
      exact word_exact_iff offset value aligned
  | byte value =>
      rw [store_eq_iff offset _ _ _ (by simp only [Datum.size]; omega)]
      exact byte_exact_iff offset value

end Store

-- The configuration space that a write is to leave.
def stored (c : Config) (l : Location) (offset : BitVec 8) (datum : Datum) : Config :=
  storeBytes c l offset.toNat datum.size datum.extended

theorem writes_exactly_iff (device : Device) (offset : BitVec 8) (datum : Datum) (m : Machine)
    (aligned : offset.toNat % datum.size = 0) :
    (∃ m', WritesExactly device offset datum m m') ↔ Spared m.config device.location offset.toNat datum := by
  obtain ⟨m₁, run, config⟩ : ∃ m₁, pciWrite device offset datum.size datum.extended m = .ok m₁ ∧
      m₁.config = storeBytes m.config device.location (offset.toNat / 4 * 4) 4 (written m.config device.location offset.toNat datum) :=
    ⟨_, pci_write_eq device offset datum m aligned, rfl⟩
  rw [← written_exact_iff offset.toNat datum aligned, ← config]
  constructor
  · rintro ⟨m', exactly⟩
    have returned := exactly.returns
    rw [config_write_eq, BackEnd.write, run, Except.ok.injEq] at returned
    obtain ⟨_, back⟩ := exactly.readsBack
    rw [config_read_legacy _ _ _ _ aligned, Except.ok.injEq, Prod.mk.injEq, datum_at_iff] at back
    rw [returned]
    funext l o
    by_cases inside : l = device.location ∧ offset.toNat ≤ o ∧ o < offset.toNat + datum.size
    · obtain ⟨rfl, low, high⟩ := inside
      rw [show o = offset.toNat + (o - offset.toNat) by omega, store_at _ _ _ _ (by omega), back.1 _ (by omega)]
    · rw [store_other inside, exactly.kept l o inside]
  · intro same
    refine ⟨m₁, (config_write_eq _ _ _ _ _).trans run, ⟨addressed device offset m₁, ?_⟩, ?_⟩
    · rw [config_read_legacy _ _ _ _ aligned, (datum_at_iff _ _ _ _).mpr]
      intro i small
      rw [same, store_at _ _ _ _ small]
    · intro l o outside
      rw [same, store_other outside]

section Window

variable {window : PcieSegment} {bus slot func : BitVec 8}

theorem slot_part : ∀ slot : BitVec 8, ((slot &&& 0x1F#8).zeroExtend 32 <<< 15).toNat = slot.toNat % 32 * 2 ^ 15 := by
  decide

theorem func_part : ∀ func : BitVec 8, ((func &&& 0x7#8).zeroExtend 32 <<< 12).toNat = func.toNat % 8 * 2 ^ 12 := by
  decide

theorem bus_part (start : window.startBusNumber.toNat ≤ bus.toNat) :
    ((bus.zeroExtend 32 - window.startBusNumber.zeroExtend 32) <<< 20).toNat = (bus.toNat - window.startBusNumber.toNat) * 2 ^ 20 := by
  have busFits := bus.isLt
  have startFits := window.startBusNumber.isLt
  simp only [BitVec.toNat_shiftLeft, BitVec.toNat_sub, BitVec.toNat_setWidth, Nat.shiftLeft_eq]
  omega

theorem or_parts (b s f : Nat) (slots : s < 32) (funcs : f < 8) :
    b * 2 ^ 20 ||| s * 2 ^ 15 ||| f * 2 ^ 12 = b * 2 ^ 20 + s * 2 ^ 15 + f * 2 ^ 12 := by
  have lower : f * 2 ^ 12 < 2 ^ 15 := Nat.mul_lt_mul_of_pos_right funcs (Nat.two_pow_pos 12)
  have low : s * 2 ^ 15 < 2 ^ 20 := Nat.mul_lt_mul_of_pos_right slots (Nat.two_pow_pos 15)
  have joined : 2 ^ 20 * b + s * 2 ^ 15 = 2 ^ 15 * (2 ^ 5 * b + s) := by omega
  rw [Nat.mul_comm b, ← Nat.two_pow_add_eq_or_of_lt low, joined, ← Nat.two_pow_add_eq_or_of_lt lower]

theorem pcie_offset_eq (start : window.startBusNumber.toNat ≤ bus.toNat) :
    (pcieOffset window bus slot func).toNat =
      (bus.toNat - window.startBusNumber.toNat) * 2 ^ 20 + slot.toNat % 32 * 2 ^ 15 + func.toNat % 8 * 2 ^ 12 := by
  rw [← or_parts _ _ _ (Nat.mod_lt _ (by decide)) (Nat.mod_lt _ (by decide)), ← bus_part start, ← slot_part, ← func_part]
  simp only [pcieOffset, BitVec.toNat_or]

theorem pcie_address_eq (segment : BitVec 16) (start : window.startBusNumber.toNat ≤ bus.toNat) (stop : bus.toNat ≤ window.endBusNumber.toNat)
    (offset : BitVec 8) :
    pcieAddress window (pcieCreateDevice window segment bus slot func) offset =
      .ok (⟨bus, slot.extractLsb' 0 5, func.extractLsb' 0 3⟩, offset.toNat) := by
  have offsetFits := offset.isLt
  have decoded : decodeWindow window (window.baseAddress + (pcieOffset window bus slot func).toNat + offset.toNat) =
      some (⟨bus, slot.extractLsb' 0 5, func.extractLsb' 0 3⟩, offset.toNat) := by
    unfold decodeWindow
    rw [pcie_offset_eq start]
    simp only
    rw [if_pos ⟨by omega, by omega⟩]
    congr 2
    · congr 1
      · apply BitVec.eq_of_toNat_eq
        rw [BitVec.toNat_ofNat]
        have busFits := bus.isLt
        omega
      · apply BitVec.eq_of_toNat_eq
        rw [BitVec.toNat_ofNat, BitVec.extractLsb'_toNat]
        omega
      · apply BitVec.eq_of_toNat_eq
        rw [BitVec.toNat_ofNat, BitVec.extractLsb'_toNat]
        omega
    · omega
  simp only [pcieAddress, pcieCreateDevice]
  rw [decoded]

theorem pcie_write_eq (segment : BitVec 16) (start : window.startBusNumber.toNat ≤ bus.toNat) (stop : bus.toNat ≤ window.endBusNumber.toNat)
    (offset : BitVec 8) (datum : Datum) (m : Machine) :
    pcieWrite window (pcieCreateDevice window segment bus slot func) offset datum.size datum.extended m =
      .ok { m with config := stored m.config ⟨bus, slot.extractLsb' 0 5, func.extractLsb' 0 3⟩ offset datum } := by
  unfold pcieWrite
  rw [pcie_address_eq segment start stop, bind_ok]
  cases datum <;> rfl

end Window

-- One naturally aligned write to a function of the segment group.
structure Write where
  bus : BitVec 8
  slot : BitVec 8
  func : BitVec 8
  offset : BitVec 8
  datum : Datum
  aligned : offset.toNat % datum.size = 0

def Write.location (w : Write) : Location := ⟨w.bus, w.slot.extractLsb' 0 5, w.func.extractLsb' 0 3⟩

def Write.Inside (w : Write) (window : PcieSegment) : Prop :=
  window.startBusNumber.toNat ≤ w.bus.toNat ∧ w.bus.toNat ≤ window.endBusNumber.toNat

def Write.run (w : Write) (backEnd : BackEnd) (m : Machine) : Except Fault Machine :=
  pciConfigWrite backEnd (backEnd.createDevice 0 w.bus w.slot w.func) w.offset w.datum m

def runWrites (backEnd : BackEnd) : List Write → Machine → Except Fault Machine
  | [], m => .ok m
  | w :: rest, m => do
      let m ← w.run backEnd m
      runWrites backEnd rest m

-- Both back ends return, and leave the same configuration spaces.
def Agree (window : PcieSegment) (writes : List Write) (legacy pcie : Machine) : Prop :=
  ∃ legacy' pcie', runWrites .legacy writes legacy = .ok legacy' ∧ runWrites (.pcie window) writes pcie = .ok pcie' ∧
    legacy'.config = pcie'.config

-- Each write is spared in the configuration spaces it is made in.
def AllSpared : Config → List Write → Prop
  | _, [] => True
  | c, w :: rest => Spared c w.location w.offset.toNat w.datum ∧ AllSpared (stored c w.location w.offset w.datum) rest

theorem write_legacy (w : Write) (m : Machine) : ∃ m', w.run .legacy m = .ok m' ∧
    (m'.config = stored m.config w.location w.offset w.datum ↔ Spared m.config w.location w.offset.toNat w.datum) :=
  ⟨_, (config_write_eq _ _ _ _ _).trans (pci_write_eq _ w.offset w.datum m w.aligned),
    written_exact_iff w.offset.toNat w.datum w.aligned⟩

theorem write_pcie {w : Write} {window : PcieSegment} (inside : w.Inside window) (m : Machine) :
    ∃ m', w.run (.pcie window) m = .ok m' ∧ m'.config = stored m.config w.location w.offset w.datum :=
  ⟨_, (config_write_eq _ _ _ _ _).trans (pcie_write_eq 0 inside.1 inside.2 w.offset w.datum m), rfl⟩

theorem run_writes_cons {backEnd : BackEnd} {w : Write} {rest : List Write} {m m' : Machine} (first : w.run backEnd m = .ok m') :
    runWrites backEnd (w :: rest) m = runWrites backEnd rest m' := by
  rw [runWrites, first, bind_ok]

theorem agree_cons {window : PcieSegment} {w : Write} {rest : List Write} {a a' b b' : Machine} (legacy : w.run .legacy a = .ok a')
    (pcie : w.run (.pcie window) b = .ok b') : Agree window (w :: rest) a b ↔ Agree window rest a' b' := by
  unfold Agree
  rw [run_writes_cons legacy, run_writes_cons pcie]

-- The back ends agree all along a sequence exactly when every write of it is spared.
theorem agree_iff_spared {window : PcieSegment} (writes : List Write) (inside : ∀ w ∈ writes, w.Inside window) {a b : Machine}
    (same : a.config = b.config) : (∀ n, Agree window (writes.take n) a b) ↔ AllSpared b.config writes := by
  induction writes generalizing a b with
  | nil =>
      refine iff_of_true (fun n => ?_) trivial
      rw [List.take_nil]
      exact ⟨a, b, rfl, rfl, same⟩
  | cons w rest ih =>
      obtain ⟨a', legacy, spared⟩ := write_legacy w a
      obtain ⟨b', pcie, config⟩ := write_pcie (inside w List.mem_cons_self) b
      have insideRest : ∀ w ∈ rest, w.Inside window := fun v member => inside v (List.mem_cons_of_mem _ member)
      rw [same] at spared
      constructor
      · intro agree
        obtain ⟨_, _, first, second, equal⟩ := (agree_cons legacy pcie).mp (agree 1)
        rw [List.take_zero, runWrites, Except.ok.injEq] at first second
        rw [← first, ← second] at equal
        refine ⟨spared.mp (equal.trans config), ?_⟩
        rw [← config, ← ih insideRest equal]
        intro n
        exact (agree_cons legacy pcie).mp (agree (n + 1))
      · rintro ⟨first, later⟩ n
        have equal : a'.config = b'.config := (spared.mpr first).trans config.symm
        rw [← config, ← ih insideRest equal] at later
        cases n with
        | zero => exact ⟨a, b, rfl, rfl, same⟩
        | succ n => exact (agree_cons legacy pcie).mpr (later n)

-- A legacy write is exact, and the two back ends agree after any sequence of writes, exactly where the
-- other bytes of the double word are what pci_write leaves there.
theorem pci_config_writes_iff (m : Machine) :
    (∀ (device : Device) (offset : BitVec 8) (datum : Datum), offset.toNat % datum.size = 0 →
      ((∃ m', WritesExactly device offset datum m m') ↔ Spared m.config device.location offset.toNat datum)) ∧
    (∀ (window : PcieSegment) (writes : List Write), (∀ w ∈ writes, w.Inside window) →
      ((∀ n, Agree window (writes.take n) m m) ↔ AllSpared m.config writes)) :=
  ⟨fun device offset datum => writes_exactly_iff device offset datum m, fun _ writes inside => agree_iff_spared writes inside rfl⟩

-- A function whose status register reads 0x0010, everything else 0.
def statusSet : Machine := ⟨0, fun _ offset => if offset = 6 then 0x10 else 0⟩

theorem pci_config_writes_iff_double : ∃ m', WritesExactly (pciCreateDevice 0 0 1 0) 4 (.double 0x00100007) statusSet m' :=
  ((pci_config_writes_iff statusSet).1 (pciCreateDevice 0 0 1 0) 4 (.double 0x00100007) (by decide)).mpr trivial

-- Setting the command register clears the status register above it.
theorem pci_config_write_clears_status : ¬ ∃ m', WritesExactly (pciCreateDevice 0 0 1 0) 4 (.word 0x0007) statusSet m' := by
  rintro ⟨m', exactly⟩
  have kept := exactly.kept ⟨0, 1, 0⟩ 6 (by decide)
  have cleared : ((pciConfigWrite .legacy (pciCreateDevice 0 0 1 0) 4 (.word 0x0007) statusSet).map fun m => m.config ⟨0, 1, 0⟩ 6) = .ok 0 := by
    decide
  rw [exactly.returns, Except.map, kept] at cleared
  exact absurd cleared (by decide)

end Elysium.Pci
