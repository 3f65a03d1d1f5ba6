import Elysium.PciEnumerate

set_option autoImplicit false

namespace Elysium.Pci

-- A back end reads the configuration space of a function through a device.
structure Sees (backEnd : BackEnd) (device : Device) (l : Location) : Prop where
  byte : ∀ offset m, ∃ m', readb backEnd device offset m = .ok ((m.config l offset.toNat).zeroExtend 16, m') ∧ m'.config = m.config
  word : ∀ offset m, offset.toNat % 2 = 0 →
    ∃ m', readw backEnd device offset m = .ok (wordAt m.config l offset.toNat, m') ∧ m'.config = m.config

theorem legacy_sees (device : Device) : Sees .legacy device device.location := by
  constructor
  · intro offset m
    refine ⟨addressed device offset m, ?_, rfl⟩
    simp only [readb, BackEnd.read, pci_read_byte, bind_ok]
    simp
  · intro offset m aligned
    refine ⟨addressed device offset m, ?_, rfl⟩
    simp only [readw, BackEnd.read, pci_read_word device offset m aligned, bind_ok]
    simp

def BackEnd.Covers : BackEnd → BitVec 8 → Prop
  | .legacy, _ => True
  | .pcie window, bus => window.startBusNumber.toNat ≤ bus.toNat ∧ bus.toNat ≤ window.endBusNumber.toNat

theorem create_sees {backEnd : BackEnd} {bus : BitVec 8} (covers : backEnd.Covers bus) (segment : BitVec 16) (slot func : BitVec 8) :
    Sees backEnd (backEnd.createDevice segment bus slot func) ⟨bus, slot.extractLsb' 0 5, func.extractLsb' 0 3⟩ := by
  cases backEnd with
  | legacy => exact legacy_sees (pciCreateDevice segment bus slot func)
  | pcie window =>
      constructor
      · intro offset m
        refine ⟨m, ?_, rfl⟩
        simp only [readb, BackEnd.read, BackEnd.createDevice, pcieRead, pcie_address_eq segment covers.1 covers.2, bind_ok]
        simp
      · intro offset m _
        refine ⟨m, ?_, rfl⟩
        simp only [readw, BackEnd.read, BackEnd.createDevice, pcieRead, pcie_address_eq segment covers.1 covers.2, bind_ok]
        simp

theorem created_location (backEnd : BackEnd) (segment : BitVec 16) (bus slot func : BitVec 8) :
    (backEnd.createDevice segment bus slot func).location = ⟨bus, slot.extractLsb' 0 5, func.extractLsb' 0 3⟩ ∧
      (backEnd.createDevice segment bus slot func).segment = segment := by
  cases backEnd <;> exact ⟨rfl, rfl⟩

-- From configuration spaces c the call returns, having added one device for each of some functions.
def Adds (c : Config) (segment : BitVec 16) (run : Enumeration → Except Fault Enumeration) (S : Location → Prop) : Prop :=
  ∀ s, s.machine.config = c → ∃ m added, run s = .ok ⟨m, added ++ s.devices⟩ ∧ m.config = c ∧
    (∀ device ∈ added, device.segment = segment) ∧ (added.map Device.location).Nodup ∧ ∀ l, l ∈ added.map Device.location ↔ S l

-- A call that returns only adds devices.
def Grows (c : Config) (run : Enumeration → Except Fault Enumeration) : Prop :=
  ∀ s s', s.machine.config = c → run s = .ok s' → s'.machine.config = c ∧ s.devices <:+ s'.devices

-- A call that returns has made another one on the way.
def Makes (c : Config) (run inner : Enumeration → Except Fault Enumeration) : Prop :=
  ∀ s s', s.machine.config = c → run s = .ok s' →
    ∃ t t', t.machine.config = c ∧ s.devices <:+ t.devices ∧ inner t = .ok t' ∧ t'.devices <:+ s'.devices

section Runs

variable {c : Config} {segment : BitVec 16} {run next inner : Enumeration → Except Fault Enumeration} {S T : Location → Prop}

theorem Adds.congr (adds : Adds c segment run S) (same : ∀ l, S l ↔ T l) : Adds c segment run T := by
  intro s config
  obtain ⟨m, added, result, kept, segments, nodup, locations⟩ := adds s config
  exact ⟨m, added, result, kept, segments, nodup, fun l => (locations l).trans (same l)⟩

theorem adds_nothing (same : ∀ s, s.machine.config = c → ∃ m, run s = .ok ⟨m, s.devices⟩ ∧ m.config = c) (empty : ∀ l, ¬ S l) :
    Adds c segment run S := by
  intro s config
  obtain ⟨m, result, kept⟩ := same s config
  exact ⟨m, [], by simpa using result, kept, by simp, by simp, fun l => by simp [empty l]⟩

theorem Adds.bind (first : Adds c segment run S) (second : Adds c segment next T) (apart : ∀ l, S l → ¬ T l) :
    Adds c segment (fun s => run s >>= next) fun l => S l ∨ T l := by
  intro s config
  obtain ⟨m, added, result, kept, segments, nodup, locations⟩ := first s config
  obtain ⟨m', added', result', kept', segments', nodup', locations'⟩ := second ⟨m, added ++ s.devices⟩ kept
  refine ⟨m', added' ++ added, ?_, kept', ?_, ?_, ?_⟩
  · simp only [result, bind_ok, result', List.append_assoc]
  · intro device member
    rcases List.mem_append.mp member with here | here
    · exact segments' device here
    · exact segments device here
  · rw [List.map_append, List.nodup_append]
    refine ⟨nodup', nodup, fun l later l' earlier same => ?_⟩
    rw [same] at later
    exact apart l' ((locations l').mp earlier) ((locations' l').mp later)
  · intro l
    rw [List.map_append, List.mem_append, locations, locations', or_comm]

theorem Grows.bind (first : Grows c run) (second : Grows c next) : Grows c fun s => run s >>= next := by
  intro s s' config result
  rw [bind_eq_ok] at result
  obtain ⟨t, earlier, later⟩ := result
  obtain ⟨configT, grownT⟩ := first s t config earlier
  obtain ⟨configS, grownS⟩ := second t s' configT later
  exact ⟨configS, grownT.trans grownS⟩

theorem Makes.then_grows (first : Makes c run inner) (grows : Grows c run) (second : Grows c next) : Makes c (fun s => run s >>= next) inner := by
  intro s s' config result
  rw [bind_eq_ok] at result
  obtain ⟨t, earlier, later⟩ := result
  obtain ⟨u, u', configU, before, made, after⟩ := first s t config earlier
  have grown := (second t s' (grows s t config earlier).1 later).2
  exact ⟨u, u', configU, before, made, after.trans grown⟩

theorem Grows.then_makes (first : Grows c run) (second : Makes c next inner) : Makes c (fun s => run s >>= next) inner := by
  intro s s' config result
  rw [bind_eq_ok] at result
  obtain ⟨t, earlier, later⟩ := result
  obtain ⟨configT, grown⟩ := first s t config earlier
  obtain ⟨u, u', configU, before, made, after⟩ := second t s' configT later
  exact ⟨u, u', configU, grown.trans before, made, after⟩

end Runs

-- The call reads something and goes on as another.
def Reads (c : Config) (run rest : Enumeration → Except Fault Enumeration) : Prop :=
  ∀ s, s.machine.config = c → ∃ m, m.config = c ∧ run s = rest ⟨m, s.devices⟩

section Reads

variable {c : Config} {segment : BitVec 16} {run rest inner : Enumeration → Except Fault Enumeration} {S : Location → Prop}

theorem Reads.adds (reads : Reads c run rest) (adds : Adds c segment rest S) : Adds c segment run S := by
  intro s config
  obtain ⟨m, kept, result⟩ := reads s config
  rw [result]
  exact adds ⟨m, s.devices⟩ kept

theorem Reads.grows (reads : Reads c run rest) (grows : Grows c rest) : Grows c run := by
  intro s s' config returned
  obtain ⟨m, kept, result⟩ := reads s config
  exact grows ⟨m, s.devices⟩ s' kept (result ▸ returned)

theorem Reads.makes (reads : Reads c run rest) (makes : Makes c rest inner) : Makes c run inner := by
  intro s s' config returned
  obtain ⟨m, kept, result⟩ := reads s config
  exact makes ⟨m, s.devices⟩ s' kept (result ▸ returned)

theorem grows_ok : Grows c .ok := by
  intro s s' config result
  rw [← Except.ok.inj result]
  exact ⟨config, List.suffix_refl _⟩

theorem adds_ok (empty : ∀ l, ¬ S l) : Adds c segment .ok S :=
  adds_nothing (fun s config => ⟨s.machine, rfl, config⟩) empty

end Reads

section Loop

variable {c : Config} {segment : BitVec 16} {step : Enumeration → Nat → Except Fault Enumeration}

theorem adds_range (S : Nat → Location → Prop) (apart : ∀ i j l, S i l → S j l → i = j) (n : Nat)
    (each : ∀ i < n, Adds c segment (fun s => step s i) (S i)) :
    Adds c segment (fun s => (List.range n).foldlM step s) fun l => ∃ i < n, S i l := by
  induction n with
  | zero => exact adds_nothing (fun s config => ⟨s.machine, rfl, config⟩) (by simp)
  | succ n ih =>
      have earlier := ih fun i small => each i (by omega)
      have both := earlier.bind (each n (by omega)) (by
        rintro l ⟨i, small, there⟩ here
        exact absurd (apart i n l there here) (by omega))
      have same : (fun s => (List.range (n + 1)).foldlM step s) = fun s => (List.range n).foldlM step s >>= fun s => step s n := by
        funext s
        rw [List.range_succ, List.foldlM_append]
        simp
      rw [same]
      refine both.congr fun l => ?_
      constructor
      · rintro (⟨i, small, there⟩ | here)
        · exact ⟨i, by omega, there⟩
        · exact ⟨n, by omega, here⟩
      · rintro ⟨i, small, there⟩
        by_cases last : i = n
        · exact .inr (last ▸ there)
        · exact .inl ⟨i, by omega, there⟩

theorem grows_fold (xs : List Nat) (each : ∀ i ∈ xs, Grows c fun s => step s i) : Grows c fun s => xs.foldlM step s := by
  induction xs with
  | nil => exact grows_ok
  | cons x rest ih =>
      exact (each x List.mem_cons_self).bind (ih fun i member => each i (List.mem_cons_of_mem _ member))

theorem makes_fold {inner : Enumeration → Except Fault Enumeration} {i : Nat} (xs : List Nat) (member : i ∈ xs)
    (each : ∀ j ∈ xs, Grows c fun s => step s j) (makes : Makes c (fun s => step s i) inner) :
    Makes c (fun s => xs.foldlM step s) inner := by
  induction xs with
  | nil => simp at member
  | cons x rest ih =>
      have growsRest := grows_fold rest fun j there => each j (List.mem_cons_of_mem _ there)
      rcases List.mem_cons.mp member with rfl | later
      · exact makes.then_grows (each i List.mem_cons_self) growsRest
      · exact (each x List.mem_cons_self).then_makes (ih later fun j there => each j (List.mem_cons_of_mem _ there))

end Loop

-- A read of a byte filled no more than the low half of the result.
theorem shifted_byte_zero (value : BitVec 8) : ((value.zeroExtend 16 >>> 8).truncate 8 : BitVec 8) = 0 := by
  revert value
  decide

theorem multifunc_bit (value : BitVec 8) : value.zeroExtend 16 &&& headerTypeMultifunc ≠ 0 ↔ value.getLsbD 7 = true := by
  revert value
  decide

section Function

variable {backEnd : BackEnd} {bus : BitVec 8} (covers : backEnd.Covers bus) (next : BitVec 8 → Enumeration → Except Fault Enumeration)
  (segment : BitVec 16) (slot func : BitVec 8) {s : Enumeration}

include covers

theorem function_absent (absent : ¬ Present s.machine.config ⟨bus, slot.extractLsb' 0 5, func.extractLsb' 0 3⟩) :
    ∃ m, enumerateFunction backEnd next segment bus slot func s = .ok ⟨m, s.devices⟩ ∧ m.config = s.machine.config := by
  obtain ⟨m, vendor, kept⟩ := (create_sees covers segment slot func).word vendorIdOffset s.machine rfl
  refine ⟨m, ?_, kept⟩
  simp only [enumerateFunction, vendor, bind_ok]
  exact if_pos (not_not.mp absent)

-- The four reads of a function that is there.
theorem function_present (present : Present s.machine.config ⟨bus, slot.extractLsb' 0 5, func.extractLsb' 0 3⟩) :
    ∃ m m', m.config = s.machine.config ∧ m'.config = s.machine.config ∧
      enumerateFunction backEnd next segment bus slot func s =
        if Bridge s.machine.config ⟨bus, slot.extractLsb' 0 5, func.extractLsb' 0 3⟩ then
          next 0 ⟨m', backEnd.createDevice segment bus slot func :: s.devices⟩
        else .ok ⟨m, backEnd.createDevice segment bus slot func :: s.devices⟩ := by
  have sees := create_sees covers segment slot func
  obtain ⟨m₁, vendor, kept₁⟩ := sees.word vendorIdOffset s.machine rfl
  obtain ⟨m₂, classCode, kept₂⟩ := sees.byte classOffset m₁
  obtain ⟨m₃, subClass, kept₃⟩ := sees.byte subClassOffset m₂
  obtain ⟨m₄, programInterface, kept₄⟩ := sees.byte programInterfaceOffset m₃
  obtain ⟨m₅, secondary, kept₅⟩ := sees.byte secondaryBusOffset m₄
  have same₂ : m₂.config = s.machine.config := kept₂.trans kept₁
  have same₄ : m₄.config = s.machine.config := kept₄.trans (kept₃.trans same₂)
  refine ⟨m₄, m₅, same₄, kept₅.trans same₄, ?_⟩
  rw [kept₁] at classCode
  rw [same₂] at subClass
  have there : ¬ wordAt s.machine.config ⟨bus, slot.extractLsb' 0 5, func.extractLsb' 0 3⟩ vendorIdOffset.toNat = vendorInvalid := present
  have low : ∀ value : BitVec 8, (value.zeroExtend 16).truncate 8 = value := by decide
  simp only [enumerateFunction, vendor, bind_ok, if_neg there, classCode, subClass, programInterface, secondary, low, shifted_byte_zero]
  rfl

end Function

-- A function that enumerate_bus comes to: its slot has a function 0, which says that there are more.
structure Seen (c : Config) (l : Location) : Prop where
  present : Present c l
  first : Present c ⟨l.bus, l.slot, 0⟩
  more : l.func = 0 ∨ Multifunction c ⟨l.bus, l.slot, 0⟩

theorem low_bits (n k : Nat) (narrow : k ≤ 8) : (BitVec.ofNat 8 n).extractLsb' 0 k = BitVec.ofNat k n := by
  apply BitVec.eq_of_toNat_eq
  rw [BitVec.extractLsb'_toNat, BitVec.toNat_ofNat, BitVec.toNat_ofNat, Nat.shiftRight_zero]
  exact Nat.mod_mod_of_dvd n (Nat.pow_dvd_pow 2 narrow)

-- The bound of the function loop.
def functionCount (c : Config) (l : Location) : Nat := if Multifunction c l then 8 else 1

section Bus

variable {backEnd : BackEnd} {bus : BitVec 8} (covers : backEnd.Covers bus) {next : BitVec 8 → Enumeration → Except Fault Enumeration}
  {segment : BitVec 16} {slot : BitVec 8} {c : Config}

include covers

theorem adds_function (func : BitVec 8)
    (plain : Present c ⟨bus, slot.extractLsb' 0 5, func.extractLsb' 0 3⟩ → ¬ Bridge c ⟨bus, slot.extractLsb' 0 5, func.extractLsb' 0 3⟩) :
    Adds c segment (enumerateFunction backEnd next segment bus slot func)
      fun l => l = ⟨bus, slot.extractLsb' 0 5, func.extractLsb' 0 3⟩ ∧ Present c l := by
  by_cases present : Present c ⟨bus, slot.extractLsb' 0 5, func.extractLsb' 0 3⟩
  · intro s config
    rw [← config] at present plain ⊢
    obtain ⟨m, _, kept, _, result⟩ := function_present covers next segment slot func present
    rw [if_neg (plain present)] at result
    obtain ⟨location, group⟩ := created_location backEnd segment bus slot func
    refine ⟨m, [backEnd.createDevice segment bus slot func], result, kept, by simpa using group, by simp, ?_⟩
    intro l
    rw [List.map_singleton, List.mem_singleton, location]
    exact ⟨fun same => ⟨same, same ▸ present⟩, fun there => there.1⟩
  · refine adds_nothing (fun s config => ?_) (fun l there => present (there.1 ▸ there.2))
    subst config
    exact function_absent covers next segment slot func present

theorem grows_function (grows : Grows c (next 0)) (func : BitVec 8) : Grows c (enumerateFunction backEnd next segment bus slot func) := by
  intro s s' config returned
  subst config
  by_cases present : Present s.machine.config ⟨bus, slot.extractLsb' 0 5, func.extractLsb' 0 3⟩
  · obtain ⟨m, m', kept, kept', result⟩ := function_present covers next segment slot func present
    rw [returned] at result
    split at result
    · obtain ⟨config, grown⟩ := grows _ s' kept' result.symm
      exact ⟨config, (List.suffix_cons _ _).trans grown⟩
    · rw [Except.ok.inj result]
      exact ⟨kept, List.suffix_cons _ _⟩
  · obtain ⟨m, result, kept⟩ := function_absent covers next segment slot func present
    rw [returned] at result
    rw [Except.ok.inj result]
    exact ⟨kept, List.suffix_refl _⟩

theorem makes_next (func : BitVec 8) (present : Present c ⟨bus, slot.extractLsb' 0 5, func.extractLsb' 0 3⟩)
    (bridge : Bridge c ⟨bus, slot.extractLsb' 0 5, func.extractLsb' 0 3⟩) :
    Makes c (enumerateFunction backEnd next segment bus slot func) (next 0) := by
  intro s s' config returned
  subst config
  obtain ⟨_, m', _, kept', result⟩ := function_present covers next segment slot func present
  rw [returned, if_pos bridge] at result
  exact ⟨_, s', kept', List.suffix_cons _ _, result.symm, List.suffix_refl _⟩

theorem function_loop_reads (rounds func : Nat) :
    Reads c (functionLoop backEnd next segment bus slot (backEnd.createDevice segment bus slot 0) (rounds + 1) func)
      (if func < functionCount c ⟨bus, slot.extractLsb' 0 5, 0⟩ then fun s =>
        enumerateFunction backEnd next segment bus slot (BitVec.ofNat 8 func) s >>=
          functionLoop backEnd next segment bus slot (backEnd.createDevice segment bus slot 0) rounds (func + 1)
      else .ok) := by
  intro s config
  subst config
  obtain ⟨m, header, kept⟩ := (create_sees covers segment slot 0).byte headerTypeOffset s.machine
  refine ⟨m, kept, ?_⟩
  have count : (if (s.machine.config ⟨bus, slot.extractLsb' 0 5, (0 : BitVec 8).extractLsb' 0 3⟩ headerTypeOffset.toNat).zeroExtend 16 &&&
      headerTypeMultifunc ≠ 0 then 8 else 1) = functionCount s.machine.config ⟨bus, slot.extractLsb' 0 5, 0⟩ :=
    if_congr (multifunc_bit _) rfl rfl
  rw [functionLoop, header, bind_ok]
  simp only [count]
  by_cases inside : func < functionCount s.machine.config ⟨bus, slot.extractLsb' 0 5, 0⟩
  · rw [if_pos inside, if_pos inside]
  · rw [if_neg inside, if_neg inside]

-- The functions from func on that the loop of a slot comes to.
def LoopSees (c : Config) (bus : BitVec 8) (slot : BitVec 5) (func : Nat) (l : Location) : Prop :=
  l.bus = bus ∧ l.slot = slot ∧ func ≤ l.func.toNat ∧ l.func.toNat < functionCount c ⟨bus, slot, 0⟩ ∧ Present c l

omit covers in
omit covers in
theorem location_func {func : Nat} (small : func < 8) (l : Location) (slot : BitVec 5) :
    l = ⟨bus, slot, BitVec.ofNat 3 func⟩ ↔ l.bus = bus ∧ l.slot = slot ∧ l.func.toNat = func := by
  constructor
  · rintro rfl
    exact ⟨rfl, rfl, by rw [BitVec.toNat_ofNat]; exact Nat.mod_eq_of_lt small⟩
  · rintro ⟨rfl, rfl, same⟩
    rw [← same, BitVec.ofNat_toNat, BitVec.setWidth_eq]

theorem adds_function_loop (rounds func : Nat) (last : func + rounds = 8)
    (plain : ∀ l, LoopSees c bus (slot.extractLsb' 0 5) func l → ¬ Bridge c l) :
    Adds c segment (functionLoop backEnd next segment bus slot (backEnd.createDevice segment bus slot 0) rounds func)
      (LoopSees c bus (slot.extractLsb' 0 5) func) := by
  induction rounds generalizing func with
  | zero =>
      refine adds_ok fun l sees => ?_
      have bound := l.func.isLt
      have low := sees.2.2.1
      omega
  | succ rounds ih =>
      apply (function_loop_reads covers rounds func).adds
      by_cases inside : func < functionCount c ⟨bus, slot.extractLsb' 0 5, 0⟩
      · rw [if_pos inside]
        have here := low_bits func 3 (by decide)
        have first : Adds c segment (enumerateFunction backEnd next segment bus slot _) _ := adds_function covers (BitVec.ofNat 8 func) (by
          intro present
          apply plain
          rw [here] at present ⊢
          have place := (location_func (by omega : func < 8) ⟨bus, slot.extractLsb' 0 5, BitVec.ofNat 3 func⟩ _).mp rfl
          exact ⟨rfl, rfl, place.2.2.ge, place.2.2.symm ▸ inside, present⟩)
        have rest := ih (func + 1) (by omega) fun l sees => plain l ⟨sees.1, sees.2.1, Nat.le_of_succ_le sees.2.2.1, sees.2.2.2⟩
        rw [here] at first
        refine (first.bind rest ?_).congr ?_
        · rintro l ⟨rfl, _⟩ sees
          have place := (location_func (by omega : func < 8) ⟨bus, slot.extractLsb' 0 5, BitVec.ofNat 3 func⟩ _).mp rfl
          have later := sees.2.2.1
          omega
        · intro l
          rw [location_func (by omega)]
          unfold LoopSees
          constructor
          · rintro (⟨⟨rfl, same, at_⟩, present⟩ | ⟨rfl, same, later, bound, present⟩)
            · exact ⟨rfl, same, by omega, by omega, present⟩
            · exact ⟨rfl, same, by omega, bound, present⟩
          · rintro ⟨rfl, same, from_, bound, present⟩
            by_cases at_ : l.func.toNat = func
            · exact .inl ⟨⟨rfl, same, at_⟩, present⟩
            · exact .inr ⟨rfl, same, by omega, bound, present⟩
      · rw [if_neg inside]
        refine adds_ok fun l sees => ?_
        obtain ⟨_, _, low, bound, _⟩ := sees
        omega

theorem grows_function_loop (grows : Grows c (next 0)) (rounds func : Nat) :
    Grows c (functionLoop backEnd next segment bus slot (backEnd.createDevice segment bus slot 0) rounds func) := by
  induction rounds generalizing func with
  | zero => exact grows_ok
  | succ rounds ih =>
      apply (function_loop_reads covers rounds func).grows
      split
      · exact (grows_function covers grows _).bind (ih (func + 1))
      · exact grows_ok

theorem makes_function_loop (grows : Grows c (next 0)) (l : Location) (rounds func : Nat) (last : func + rounds = 8)
    (sees : LoopSees c bus (slot.extractLsb' 0 5) func l) (bridge : Bridge c l) :
    Makes c (functionLoop backEnd next segment bus slot (backEnd.createDevice segment bus slot 0) rounds func) (next 0) := by
  induction rounds generalizing func with
  | zero =>
      have bound := l.func.isLt
      have low := sees.2.2.1
      omega
  | succ rounds ih =>
      obtain ⟨sameBus, sameSlot, low, bound, present⟩ := sees
      apply (function_loop_reads covers rounds func).makes
      rw [if_pos (by omega)]
      by_cases at_ : l.func.toNat = func
      · have place : l = ⟨bus, slot.extractLsb' 0 5, (BitVec.ofNat 8 func).extractLsb' 0 3⟩ := by
          rw [low_bits func 3 (by decide)]
          exact (location_func (by omega) l _).mpr ⟨sameBus, sameSlot, at_⟩
        exact (makes_next covers _ (place ▸ present) (place ▸ bridge)).then_grows (grows_function covers grows _)
          (grows_function_loop covers grows rounds (func + 1))
      · exact (grows_function covers grows _).then_makes (ih (func + 1) (by omega) ⟨sameBus, sameSlot, by omega, bound, present⟩)

omit covers in
theorem loop_sees_iff (slot : BitVec 5) (first : Present c ⟨bus, slot, 0⟩) (l : Location) :
    LoopSees c bus slot 0 l ↔ l.bus = bus ∧ l.slot = slot ∧ Seen c l := by
  constructor
  · rintro ⟨rfl, rfl, _, bound, present⟩
    refine ⟨rfl, rfl, present, first, ?_⟩
    unfold functionCount at bound
    split at bound
    · rename_i many
      exact .inr many
    · exact .inl (BitVec.eq_of_toNat_eq (Nat.lt_one_iff.mp bound))
  · rintro ⟨rfl, rfl, seen⟩
    refine ⟨rfl, rfl, Nat.zero_le _, ?_, seen.present⟩
    have bound := l.func.isLt
    unfold functionCount
    split
    · exact bound
    · rename_i single
      rw [seen.more.resolve_right single]
      decide

theorem slot_reads (slot : Nat) :
    Reads c (fun s => enumerateSlot backEnd next segment bus s slot)
      (if Present c ⟨bus, BitVec.ofNat 5 slot, 0⟩ then
        functionLoop backEnd next segment bus (BitVec.ofNat 8 slot) (backEnd.createDevice segment bus (BitVec.ofNat 8 slot) 0) 8 0
      else .ok) := by
  intro s config
  subst config
  obtain ⟨m, vendor, kept⟩ := (create_sees covers segment (BitVec.ofNat 8 slot) 0).word vendorIdOffset s.machine rfl
  refine ⟨m, kept, ?_⟩
  rw [low_bits slot 5 (by decide)] at vendor
  simp only [enumerateSlot, vendor, bind_ok]
  by_cases present : Present s.machine.config ⟨bus, BitVec.ofNat 5 slot, 0⟩
  · rw [if_pos present]
    exact if_neg present
  · rw [if_neg present]
    exact if_pos (not_not.mp present)

theorem adds_slot (slot : Nat) (plain : ∀ l, l.bus = bus → Seen c l → ¬ Bridge c l) :
    Adds c segment (fun s => enumerateSlot backEnd next segment bus s slot)
      fun l => l.bus = bus ∧ l.slot = BitVec.ofNat 5 slot ∧ Seen c l := by
  apply (slot_reads covers slot).adds
  by_cases first : Present c ⟨bus, BitVec.ofNat 5 slot, 0⟩
  · rw [if_pos first]
    have sees := loop_sees_iff (BitVec.ofNat 5 slot) first
    have adds : Adds c segment (functionLoop backEnd next segment bus (BitVec.ofNat 8 slot) _ 8 0) _ := adds_function_loop covers 8 0 rfl (by
      rw [low_bits slot 5 (by decide)]
      intro l there
      obtain ⟨same, _, seen⟩ := (sees l).mp there
      exact plain l same seen)
    rw [low_bits slot 5 (by decide)] at adds
    exact adds.congr sees
  · rw [if_neg first]
    refine adds_ok ?_
    rintro l ⟨rfl, same, seen⟩
    exact first (same ▸ seen.first)

theorem grows_slot (grows : Grows c (next 0)) (slot : Nat) : Grows c fun s => enumerateSlot backEnd next segment bus s slot := by
  apply (slot_reads covers slot).grows
  split
  · exact grows_function_loop covers grows 8 0
  · exact grows_ok

theorem makes_slot (grows : Grows c (next 0)) (l : Location) (slot : Nat) (sameBus : l.bus = bus) (sameSlot : l.slot = BitVec.ofNat 5 slot)
    (seen : Seen c l) (bridge : Bridge c l) : Makes c (fun s => enumerateSlot backEnd next segment bus s slot) (next 0) := by
  have first : Present c ⟨bus, BitVec.ofNat 5 slot, 0⟩ := sameBus ▸ sameSlot ▸ seen.first
  apply (slot_reads covers slot).makes
  rw [if_pos first]
  refine makes_function_loop covers grows l 8 0 rfl ?_ bridge
  rw [low_bits slot 5 (by decide)]
  exact (loop_sees_iff _ first l).mpr ⟨sameBus, sameSlot, seen⟩

end Bus

section Depth

variable {backEnd : BackEnd} {segment : BitVec 16} {c : Config}

-- A bus without bridges is walked once.
theorem adds_bus {bus : BitVec 8} (covers : backEnd.Covers bus) (plain : ∀ l, l.bus = bus → Seen c l → ¬ Bridge c l) (depth : Nat) :
    Adds c segment (enumerateBus backEnd segment (depth + 1) bus) fun l => l.bus = bus ∧ Seen c l := by
  have all : Adds c segment (fun s => (List.range 32).foldlM (enumerateSlot backEnd (enumerateBus backEnd segment depth) segment bus) s) _ := adds_range
    (fun slot l => slot < 32 ∧ l.bus = bus ∧ l.slot = BitVec.ofNat 5 slot ∧ Seen c l)
    (by
      rintro i j l ⟨smallI, _, sameI, _⟩ ⟨smallJ, _, sameJ, _⟩
      have equal := congrArg BitVec.toNat (sameI.symm.trans sameJ)
      rw [BitVec.toNat_ofNat, BitVec.toNat_ofNat] at equal
      omega)
    32 fun slot small => (adds_slot covers slot plain).congr fun l => (and_iff_right small).symm
  refine all.congr fun l => ?_
  constructor
  · rintro ⟨slot, _, _, same, _, seen⟩
    exact ⟨same, seen⟩
  · rintro ⟨same, seen⟩
    have small := l.slot.isLt
    refine ⟨l.slot.toNat, small, small, same, ?_, seen⟩
    rw [BitVec.ofNat_toNat, BitVec.setWidth_eq]

theorem grows_bus (zero : backEnd.Covers 0) (depth : Nat) {bus : BitVec 8} (covers : backEnd.Covers bus) :
    Grows c (enumerateBus backEnd segment depth bus) := by
  induction depth generalizing bus with
  | zero =>
      intro s s' _ result
      simp [enumerateBus] at result
  | succ depth ih => exact grows_fold _ fun slot _ => grows_slot covers (ih zero) slot

-- Behind every bridge the walk goes to bus 0.
theorem makes_bus (zero : backEnd.Covers 0) (depth : Nat) {bus : BitVec 8} (covers : backEnd.Covers bus) {l : Location} (same : l.bus = bus)
    (seen : Seen c l) (bridge : Bridge c l) :
    Makes c (enumerateBus backEnd segment (depth + 1) bus) (enumerateBus backEnd segment depth 0) := by
  have small := l.slot.isLt
  refine makes_fold (List.range 32) (i := l.slot.toNat) (List.mem_range.mpr small)
    (fun slot _ => grows_slot covers (grows_bus zero depth zero) slot) ?_
  refine makes_slot covers (grows_bus zero depth zero) l _ same ?_ seen bridge
  rw [BitVec.ofNat_toNat, BitVec.setWidth_eq]

-- A bridge on bus 0 makes the walk come back to bus 0 forever.
theorem bridge_diverges (zero : backEnd.Covers 0) {l : Location} (same : l.bus = 0) (seen : Seen c l) (bridge : Bridge c l) (depth : Nat)
    {s s' : Enumeration} (config : s.machine.config = c) : enumerateBus backEnd segment depth 0 s ≠ .ok s' := by
  induction depth generalizing s s' with
  | zero => simp [enumerateBus]
  | succ depth ih =>
      intro result
      obtain ⟨t, t', configT, _, inner, _⟩ := makes_bus zero depth zero same seen bridge s s' config result
      exact ih configT inner

end Depth

end Elysium.Pci
