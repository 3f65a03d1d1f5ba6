import Elysium.PciVisits
import Mathlib.Data.List.Nodup

set_option autoImplicit false

namespace Elysium.Pci

-- The buses from func on that the loop over the host controllers gets to: it stops at the first absent one.
def WalkedFrom (c : Config) (func : Nat) (bus : BitVec 8) : Prop :=
  func ≤ bus.toNat ∧ bus.toNat < 8 ∧ ∀ f, func ≤ f → f ≤ bus.toNat → Present c ⟨0, 0, BitVec.ofNat 3 f⟩

def Walked (c : Config) (bus : BitVec 8) : Prop := if Multifunction c ⟨0, 0, 0⟩ then WalkedFrom c 0 bus else bus = 0

-- The back end can read everything the walk comes to: the PCIe one only a single host controller on bus 0.
def CanRead (backEnd : BackEnd) (c : Config) : Prop :=
  ∀ window, backEnd = .pcie window → window.startBusNumber = 0 ∧ ¬ Multifunction c ⟨0, 0, 0⟩

-- A segment that enumerate_segment gets right. No root bus has a bridge, and each function of a root bus is in
-- sight of the walk.
structure Walkable (backEnd : BackEnd) (c : Config) : Prop where
  readable : CanRead backEnd c
  flat : ∀ l, RootBus backEnd c l.bus → Present c l → ¬ Bridge c l
  walked : ∀ l, RootBus backEnd c l.bus → Present c l → Walked c l.bus ∧ Seen c l

section Controllers

variable {segment : BitVec 16} {c : Config} {next : BitVec 8 → Enumeration → Except Fault Enumeration}

theorem controller_reads (rounds func : Nat) :
    Reads c (controllerLoop .legacy next segment (rounds + 1) func)
      (if Present c ⟨0, 0, BitVec.ofNat 3 func⟩ then fun s =>
        next (BitVec.ofNat 8 func) s >>= controllerLoop .legacy next segment rounds (func + 1)
      else .ok) := by
  intro s config
  subst config
  have sees := legacy_sees ⟨segment, 0, 0, BitVec.ofNat 8 func, none⟩
  obtain ⟨m, vendor, kept⟩ := sees.word vendorIdOffset s.machine rfl
  refine ⟨m, kept, ?_⟩
  have place : (⟨segment, 0, 0, BitVec.ofNat 8 func, none⟩ : Device).location = ⟨0, 0, BitVec.ofNat 3 func⟩ := by
    simp only [Device.location, low_bits func 3 (by decide)]
    rfl
  rw [place] at vendor
  rw [controllerLoop]
  simp only [vendor, bind_ok]
  by_cases present : Present s.machine.config ⟨0, 0, BitVec.ofNat 3 func⟩
  · rw [if_pos present]
    exact if_neg present
  · rw [if_neg present]
    exact if_pos (not_not.mp present)

theorem bus_eq {func : Nat} (small : func < 8) (bus : BitVec 8) : bus = BitVec.ofNat 8 func ↔ bus.toNat = func := by
  constructor
  · rintro rfl
    rw [BitVec.toNat_ofNat]
    omega
  · rintro rfl
    rw [BitVec.ofNat_toNat, BitVec.setWidth_eq]

theorem walked_from_iff {func : Nat} (small : func < 8) (present : Present c ⟨0, 0, BitVec.ofNat 3 func⟩) (bus : BitVec 8) :
    WalkedFrom c func bus ↔ bus = BitVec.ofNat 8 func ∨ WalkedFrom c (func + 1) bus := by
  rw [bus_eq small]
  constructor
  · rintro ⟨low, high, all⟩
    by_cases first : bus.toNat = func
    · exact .inl first
    · exact .inr ⟨by omega, high, fun f lower upper => all f (by omega) upper⟩
  · rintro (first | ⟨low, high, all⟩)
    · refine ⟨by omega, by omega, fun f lower upper => ?_⟩
      rw [show f = func by omega]
      exact present
    · refine ⟨by omega, high, fun f lower upper => ?_⟩
      by_cases first : f = func
      · exact first ▸ present
      · exact all f (by omega) upper

theorem adds_controllers (S : Location → Prop) (rounds func : Nat) (last : func + rounds = 8)
    (each : ∀ bus, WalkedFrom c func bus → Adds c segment (next bus) fun l => l.bus = bus ∧ S l) :
    Adds c segment (controllerLoop .legacy next segment rounds func) fun l => WalkedFrom c func l.bus ∧ S l := by
  induction rounds generalizing func with
  | zero =>
      refine adds_ok fun l there => ?_
      have low := there.1.1
      have high := there.1.2.1
      omega
  | succ rounds ih =>
      apply (controller_reads rounds func).adds
      by_cases present : Present c ⟨0, 0, BitVec.ofNat 3 func⟩
      · rw [if_pos present]
        have split := walked_from_iff (by omega) present
        have first := each _ ((split _).mpr (.inl rfl))
        have rest := ih (func + 1) (by omega) fun bus walked => each bus ((split bus).mpr (.inr walked))
        refine (first.bind rest ?_).congr ?_
        · rintro l ⟨same, _⟩ ⟨walked, _⟩
          have low := walked.1
          rw [bus_eq (by omega)] at same
          omega
        · intro l
          rw [split, or_and_right]
      · rw [if_neg present]
        refine adds_ok fun l there => ?_
        exact present (there.1.2.2 func (Nat.le_refl _) there.1.1)

theorem grows_controllers (rounds func : Nat) (each : ∀ bus, Grows c (next bus)) :
    Grows c (controllerLoop .legacy next segment rounds func) := by
  induction rounds generalizing func with
  | zero => exact grows_ok
  | succ rounds ih =>
      apply (controller_reads rounds func).grows
      split
      · exact (each _).bind (ih (func + 1))
      · exact grows_ok

theorem makes_controllers {bus : BitVec 8} (rounds func : Nat) (last : func + rounds = 8) (each : ∀ bus, Grows c (next bus))
    (walked : WalkedFrom c func bus) : Makes c (controllerLoop .legacy next segment rounds func) (next bus) := by
  induction rounds generalizing func with
  | zero =>
      have low := walked.1
      have high := walked.2.1
      omega
  | succ rounds ih =>
      have present := walked.2.2 func (Nat.le_refl _) walked.1
      apply (controller_reads rounds func).makes
      rw [if_pos present]
      have low := walked.1
      have high := walked.2.1
      rcases (walked_from_iff (by omega) present bus).mp walked with rfl | later
      · refine Makes.then_grows ?_ (each _) (grows_controllers rounds (func + 1) each)
        intro s s' config result
        exact ⟨s, s', config, List.suffix_refl _, result, List.suffix_refl _⟩
      · exact (each _).then_makes (ih (func + 1) (by omega) later)

end Controllers

section Segment

variable {backEnd : BackEnd} {segment : BitVec 16} {c : Config}

theorem segment_reads (zero : backEnd.Covers 0) (depth : Nat) :
    Reads c (enumerateSegment backEnd depth segment)
      (if Multifunction c ⟨0, 0, 0⟩ then controllerLoop backEnd (enumerateBus backEnd segment depth) segment 8 0
      else enumerateBus backEnd segment depth 0) := by
  intro s config
  subst config
  obtain ⟨m, header, kept⟩ := (create_sees zero segment 0 0).byte headerTypeOffset s.machine
  refine ⟨m, kept, ?_⟩
  simp only [enumerateSegment, header, bind_ok, multifunc_bit]
  by_cases many : Multifunction s.machine.config ⟨0, 0, 0⟩
  · rw [if_pos many]
    exact if_pos many
  · rw [if_neg many]
    exact if_neg many

theorem covers_legacy (bus : BitVec 8) : BackEnd.legacy.Covers bus := trivial

theorem covers_zero {window : PcieSegment} (first : window.startBusNumber = 0) : (BackEnd.pcie window).Covers 0 := by
  simp [BackEnd.Covers, first]

theorem can_read_covers (reads : CanRead backEnd c) : backEnd.Covers 0 := by
  cases backEnd with
  | legacy => trivial
  | pcie window => exact covers_zero (reads window rfl).1

theorem can_read_first (reads : CanRead backEnd c) : backEnd.firstBus = 0 := by
  cases backEnd with
  | legacy => rfl
  | pcie window => exact (reads window rfl).1

theorem can_read_legacy (reads : CanRead backEnd c) (many : Multifunction c ⟨0, 0, 0⟩) : backEnd = .legacy := by
  cases backEnd with
  | legacy => rfl
  | pcie window => exact absurd many (reads window rfl).2

-- The offset of bus 0 wraps around below the base.
theorem pcie_offset_below {window : PcieSegment} (later : window.startBusNumber ≠ 0) :
    (pcieOffset window 0 0 0).toNat = (2 ^ 12 - window.startBusNumber.toNat) * 2 ^ 20 := by
  have bound := window.startBusNumber.isLt
  have positive : window.startBusNumber.toNat ≠ 0 := fun zero => later (BitVec.eq_of_toNat_eq zero)
  simp [pcieOffset, BitVec.toNat_shiftLeft, Nat.shiftLeft_eq]
  omega

theorem pcie_address_outside {window : PcieSegment} (later : window.startBusNumber ≠ 0) (segment : BitVec 16) (offset : BitVec 8) :
    pcieAddress window (pcieCreateDevice window segment 0 0 0) offset = .error .undefined := by
  have bound := window.endBusNumber.isLt
  have start := window.startBusNumber.isLt
  have outside : decodeWindow window (window.baseAddress + (pcieOffset window 0 0 0).toNat + offset.toNat) = none := by
    rw [decodeWindow, pcie_offset_below later]
    refine if_neg ?_
    omega
  simp only [pcieAddress, pcieCreateDevice, outside]

-- A window that starts at a later bus does not contain what the walk reads first, and the controllers
-- of a multi-function host are read through a device without a configuration space.
theorem unreadable_faults {depth : Nat} {s s' : Enumeration} (unreadable : ¬ CanRead backEnd s.machine.config) :
    enumerateSegment backEnd depth segment s ≠ .ok s' := by
  cases backEnd with
  | legacy => exact absurd (fun window same => by cases same) unreadable
  | pcie window =>
      by_cases first : window.startBusNumber = 0
      · have many : Multifunction s.machine.config ⟨0, 0, 0⟩ := by
          by_contra one
          exact unreadable fun _ same => by
            cases same
            exact ⟨first, one⟩
        obtain ⟨m, _, result⟩ := segment_reads (covers_zero first) depth s rfl
        rw [result, if_pos many]
        simp [controllerLoop, readw, BackEnd.read, pcieRead, pcieAddress, bind, Except.bind]
      · simp only [enumerateSegment, readb, BackEnd.read, BackEnd.createDevice, pcieRead, pcie_address_outside first]
        simp [bind, Except.bind]

theorem walked_root (reads : CanRead backEnd c) {bus : BitVec 8} (walked : Walked c bus) : RootBus backEnd c bus := by
  have first := can_read_first reads
  unfold Walked at walked
  split at walked
  · rename_i many
    obtain ⟨_, high, present⟩ := walked
    have root := RootBus.multi (c := c) (BitVec.ofNat 3 bus.toNat) (first.symm ▸ many)
      (first.symm ▸ present bus.toNat (Nat.zero_le _) (Nat.le_refl _))
    have same : backEnd.firstBus + (BitVec.ofNat 3 bus.toNat).zeroExtend 8 = bus := by
      apply BitVec.eq_of_toNat_eq
      rw [first]
      simp
      omega
    rw [same] at root
    exact root
  · rename_i one
    rw [walked]
    have root := RootBus.single (c := c) (first.symm ▸ one)
    rw [first] at root
    exact root

-- Where no bridge is in sight, the walk adds what it sees on the buses it gets to.
theorem adds_segment (reads : CanRead backEnd c) (plain : ∀ l, Walked c l.bus → Seen c l → ¬ Bridge c l) (depth : Nat) :
    Adds c segment (enumerateSegment backEnd (depth + 1) segment) fun l => Walked c l.bus ∧ Seen c l := by
  have zero := can_read_covers reads
  apply (segment_reads zero (depth + 1)).adds
  unfold Walked at plain ⊢
  by_cases many : Multifunction c ⟨0, 0, 0⟩
  · obtain rfl := can_read_legacy reads many
    simp only [if_pos many] at plain ⊢
    exact adds_controllers (Seen c) 8 0 rfl fun bus walked => adds_bus (covers_legacy bus) (fun l same => plain l (same ▸ walked)) depth
  · simp only [if_neg many] at plain ⊢
    exact adds_bus zero plain depth

theorem count_suffix {xs ys : List Device} (suffix : xs <:+ ys) (l : Location) :
    (xs.map Device.location).count l ≤ (ys.map Device.location).count l :=
  (suffix.sublist.map Device.location).count_le l

-- A walk of bus 0 adds the first host controller.
theorem adds_host {run : Enumeration → Except Fault Enumeration} {S : Location → Prop} (adds : Adds c segment run S) {l : Location}
    (there : S l) {s s' : Enumeration} (config : s.machine.config = c) (result : run s = .ok s') :
    (s.devices.map Device.location).count l < (s'.devices.map Device.location).count l := by
  obtain ⟨m, added, returned, _, _, _, locations⟩ := adds s config
  rw [result, Except.ok.injEq] at returned
  rw [returned, List.map_append, List.count_append]
  have positive := List.count_pos_iff.mpr ((locations l).mpr there)
  omega

-- The loop over the controllers begins with bus 0 once the first of them is there.
theorem controllers_begin (present : Present c ⟨0, 0, 0⟩) {depth : Nat} {s s' : Enumeration} (config : s.machine.config = c)
    (result : controllerLoop .legacy (enumerateBus .legacy segment depth) segment 8 0 s = .ok s') :
    ∃ m t, m.config = c ∧ enumerateBus .legacy segment depth 0 ⟨m, s.devices⟩ = .ok t ∧
      controllerLoop .legacy (enumerateBus .legacy segment depth) segment 7 1 t = .ok s' := by
  have first : Present c ⟨0, 0, BitVec.ofNat 3 0⟩ := present
  obtain ⟨m, kept, same⟩ := controller_reads 7 0 s config
  rw [result, if_pos first] at same
  obtain ⟨t, bus, rest⟩ := (bind_eq_ok _ _ _).mp same.symm
  exact ⟨m, t, kept, bus, rest⟩

-- A bridge on a later bus makes the walk add bus 0 again.
theorem bridge_repeats {l : Location} (many : Multifunction c ⟨0, 0, 0⟩) (walked : WalkedFrom c 0 l.bus) (later : l.bus ≠ 0) (seen : Seen c l)
    (bridge : Bridge c l) (plain : ∀ l, l.bus = 0 → Seen c l → ¬ Bridge c l) {depth : Nat} {s s' : Enumeration}
    (config : s.machine.config = c) (result : enumerateSegment .legacy (depth + 1) segment s = .ok s') :
    (s.devices.map Device.location).count ⟨0, 0, 0⟩ + 1 < (s'.devices.map Device.location).count ⟨0, 0, 0⟩ := by
  have host : Seen c ⟨0, 0, 0⟩ := by
    have present := walked.2.2 0 (Nat.le_refl _) (Nat.zero_le _)
    exact ⟨present, present, .inl rfl⟩
  have adds := fun d => (adds_bus (covers_legacy 0) plain d : Adds c segment _ _)
  have grows := fun bus => (grows_bus (covers_legacy 0) (depth + 1) (covers_legacy bus) : Grows c (enumerateBus .legacy segment _ _))
  obtain ⟨m, kept, first⟩ := segment_reads (covers_legacy 0) (depth + 1) s config
  rw [result, if_pos many] at first
  obtain ⟨m', t, kept', bus, rest⟩ := controllers_begin host.present kept first.symm
  have once : (s.devices.map Device.location).count ⟨0, 0, 0⟩ < (t.devices.map Device.location).count ⟨0, 0, 0⟩ :=
    adds_host (s := ⟨m', s.devices⟩) (adds depth) ⟨rfl, host⟩ kept' bus
  have configT := (grows 0 _ t kept' bus).1
  have walkedLater : WalkedFrom c 1 l.bus :=
    ((walked_from_iff (by decide) host.present l.bus).mp walked).resolve_left later
  obtain ⟨u, u', configU, before, inner, after⟩ := makes_controllers 7 1 rfl grows walkedLater t s' configT rest
  obtain ⟨v, v', configV, before', inner', after'⟩ := makes_bus (covers_legacy 0) depth (covers_legacy l.bus) rfl seen bridge u u' configU inner
  cases depth with
  | zero => simp [enumerateBus] at inner'
  | succ depth =>
      have twice := adds_host (adds depth) (l := ⟨0, 0, 0⟩) ⟨rfl, host⟩ configV inner'
      have low := count_suffix (before.trans before') ⟨0, 0, 0⟩
      have high := count_suffix (after'.trans after) ⟨0, 0, 0⟩
      omega

-- In a walkable segment nothing lies behind the root buses.
theorem walkable_reachable (walkable : Walkable backEnd c) {bus : BitVec 8} (reachable : ReachableBus backEnd c bus) :
    RootBus backEnd c bus := by
  induction reachable with
  | root bus root => exact root
  | behind l _ present bridge ih => exact absurd bridge (walkable.flat l ih present)

theorem walkable_enumerates (walkable : Walkable backEnd c) {s : Enumeration} (config : s.machine.config = c) :
    ∃ depth s' added, EnumeratesAll backEnd segment s depth s' added := by
  have plain : ∀ l, Walked c l.bus → Seen c l → ¬ Bridge c l := fun l walked seen =>
    walkable.flat l (walked_root walkable.readable walked) seen.present
  obtain ⟨m, added, result, _, segments, nodup, locations⟩ := adds_segment walkable.readable plain 0 s config
  refine ⟨0, _, added, result, rfl, segments, ?_, ?_⟩
  · intro l present reachable
    rw [config] at present reachable
    have member := (locations l).mpr (walkable.walked l (walkable_reachable walkable reachable) present)
    exact List.count_eq_one_of_mem nodup member
  · intro l outside
    rw [config] at outside
    refine List.count_eq_zero.mpr fun member => outside ?_
    obtain ⟨walked, seen⟩ := (locations l).mp member
    exact ⟨seen.present, .root _ (walked_root walkable.readable walked)⟩

-- A run that is right saw no bridge.
theorem enumerates_plain (reads : CanRead backEnd c) {s s' : Enumeration} {depth : Nat} {added : List Device} (config : s.machine.config = c)
    (all : EnumeratesAll backEnd segment s depth s' added) (l : Location) (walked : Walked c l.bus) (seen : Seen c l) : ¬ Bridge c l := by
  intro bridge
  have zero := can_read_covers reads
  obtain ⟨m, kept, first⟩ := segment_reads zero (depth + 1) s config
  rw [all.returns] at first
  unfold Walked at walked
  by_cases many : Multifunction c ⟨0, 0, 0⟩
  · obtain rfl := can_read_legacy reads many
    rw [if_pos many] at first walked
    have present : Present c ⟨0, 0, 0⟩ := walked.2.2 0 (Nat.le_refl _) (Nat.zero_le _)
    by_cases plain : ∀ l, l.bus = 0 → Seen c l → ¬ Bridge c l
    · have later : l.bus ≠ 0 := fun same => plain l same seen bridge
      have repeated := bridge_repeats many walked later seen bridge plain config all.returns
      have root : RootBus .legacy c 0 := .multi 0 many present
      have once := all.once ⟨0, 0, 0⟩ (config.symm ▸ present) (config.symm ▸ .root _ root)
      rw [all.devices, List.map_append, List.count_append, once] at repeated
      omega
    · obtain ⟨k, same, seenK, bridgeK⟩ : ∃ k : Location, k.bus = 0 ∧ Seen c k ∧ Bridge c k := by
        by_contra none
        exact plain fun k same seenK bridgeK => none ⟨k, same, seenK, bridgeK⟩
      obtain ⟨m', t, kept', bus, _⟩ := controllers_begin present kept first.symm
      exact bridge_diverges zero same seenK bridgeK (depth + 1) kept' bus
  · rw [if_neg many] at first walked
    exact bridge_diverges zero walked seen bridge (depth + 1) kept first.symm

theorem enumerates_walkable {s s' : Enumeration} {depth : Nat} {added : List Device} (config : s.machine.config = c)
    (all : EnumeratesAll backEnd segment s depth s' added) : Walkable backEnd c := by
  have reads : CanRead backEnd c := by
    by_contra unreadable
    exact unreadable_faults (config.symm ▸ unreadable) all.returns
  have plain := enumerates_plain reads config all
  obtain ⟨m, more, result, _, _, _, locations⟩ := adds_segment reads plain depth s config
  have same : more = added := by
    have devices := all.devices
    rw [← Except.ok.inj (result.symm.trans all.returns)] at devices
    exact List.append_cancel_right devices
  have walked : ∀ l, RootBus backEnd c l.bus → Present c l → Walked c l.bus ∧ Seen c l := by
    intro l root present
    have once := all.once l (config.symm ▸ present) (config.symm ▸ .root _ root)
    rw [← same] at once
    exact (locations l).mp (List.count_pos_iff.mp (by omega))
  refine ⟨reads, fun l root present => ?_, walked⟩
  obtain ⟨reached, seen⟩ := walked l root present
  exact plain l reached seen

end Segment

-- enumerate_segment adds each present function of the reachable buses once exactly where there is no bridge
-- on a root bus, every function is in sight and the back end can read the host controllers.
theorem enumerate_segment_iff (backEnd : BackEnd) (segment : BitVec 16) (s : Enumeration) :
    (∃ depth s' added, EnumeratesAll backEnd segment s depth s' added) ↔ Walkable backEnd s.machine.config := by
  constructor
  · rintro ⟨_, _, _, all⟩
    exact enumerates_walkable rfl all
  · intro walkable
    exact walkable_enumerates walkable rfl

-- A host controller, a bridge to bus 1 and a function behind it.
def bridged : Enumeration where
  machine := ⟨0, fun l offset =>
    if l = ⟨0, 1, 0⟩ then (if offset = 0x0B then 0x06 else if offset = 0x0A then 0x04 else if offset = 0x19 then 1 else 0)
    else if l = ⟨0, 0, 0⟩ ∨ l = ⟨1, 0, 0⟩ then 0
    else 0xFF⟩
  devices := []

-- The walk never returns: behind the bridge it enters bus 0 again.
theorem bridged_diverges : ¬ ∃ depth s' added, EnumeratesAll .legacy 0 bridged depth s' added := by
  rintro ⟨depth, s', added, all⟩
  have seen : Seen bridged.machine.config ⟨0, 1, 0⟩ := ⟨by decide, by decide, .inl rfl⟩
  obtain ⟨m, kept, first⟩ := segment_reads (covers_legacy 0) (depth + 1) bridged rfl
  rw [all.returns, if_neg (by decide)] at first
  exact bridge_diverges (covers_legacy 0) rfl seen (by decide) (depth + 1) kept first.symm

end Elysium.Pci
