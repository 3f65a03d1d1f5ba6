import Elysium.LittleEndian

set_option autoImplicit false

namespace Elysium.Relocation

open LittleEndian

-- elf64_rela_t.
structure Rela where
  offset : BitVec 64
  info : BitVec 64
  addend : BitVec 64
deriving DecidableEq, Repr

-- R_X86_64_NONE, _64, _PC32, _PLT32, _32, _32S and _PC64.
inductive RelocationType where
  | none
  | abs64
  | pc32
  | plt32
  | abs32
  | abs32S
  | pc64
deriving DecidableEq, Repr

def elf64RType (info : BitVec 64) : BitVec 64 := info &&& 0xFFFFFFFF

def relocationType (info : BitVec 64) : Option RelocationType :=
  match (elf64RType info).toNat with
  | 0 => some .none
  | 1 => some .abs64
  | 2 => some .pc32
  | 4 => some .plt32
  | 10 => some .abs32
  | 11 => some .abs32S
  | 24 => some .pc64
  | _ => Option.none

-- The bytes at the target are to be zero before.
def relocate (address value : BitVec 64) (relocSize : Nat) (m : Memory) : Bool × Memory :=
  if isZero m address relocSize then (true, store address value relocSize m) else (false, m)

def archElfDoRelocationAddend (rela : Rela) (symbolValue sectionAddress : BitVec 64) (m : Memory) : Bool × Memory :=
  let address := sectionAddress + rela.offset
  let value := symbolValue + rela.addend
  match relocationType rela.info with
  | some .none => (true, m)
  | some .abs64 => relocate address value 8 m
  | some .abs32 => if value ≠ (value.setWidth 32).setWidth 64 then (false, m) else relocate address value 4 m
  | some .abs32S => if value ≠ (value.setWidth 32).signExtend 64 then (false, m) else relocate address value 4 m
  | some .plt32 | some .pc32 => relocate address (value - address) 4 m
  | some .pc64 => relocate address (value - address) 8 m
  | Option.none => (false, m)

namespace RelocationType

-- The bytes of the field, how it is read, and what it is to hold.
def size : RelocationType → Nat
  | none => 0
  | abs64 | pc64 => 8
  | pc32 | plt32 | abs32 | abs32S => 4

def extend (type : RelocationType) (field : BitVec 64) : BitVec 64 :=
  match type with
  | pc32 | plt32 | abs32S => (field.setWidth 32).signExtend 64
  | none | abs64 | pc64 | abs32 => field

def relative : RelocationType → Bool
  | pc32 | plt32 | pc64 => true
  | none | abs64 | abs32 | abs32S => false

def prescribed (type : RelocationType) (symbol addend place : BitVec 64) : BitVec 64 :=
  if type.relative then symbol + addend - place else symbol + addend

-- The types whose value is cut to the field without a look at what is lost.
def unchecked (type : RelocationType) : Prop := type = pc32 ∨ type = plt32

end RelocationType

-- A relocation is applied exactly or rejected. R_X86_64_NONE has no field.
structure Exact (rela : Rela) (symbolValue sectionAddress : BitVec 64) (m : Memory) (outcome : Bool × Memory) : Prop where
  applied : outcome.1 = true → ∃ type, relocationType rela.info = some type ∧ (type ≠ .none →
    type.extend (load outcome.2 (sectionAddress + rela.offset) type.size) = type.prescribed symbolValue rela.addend (sectionAddress + rela.offset))
  rejected : outcome.1 = false → outcome.2 = m
  outside : ∀ type, relocationType rela.info = some type → ∀ a, ¬ (a - (sectionAddress + rela.offset)).toNat < type.size → outcome.2 a = m a

-- A displacement that is stored in 32 bits fits them.
def Reaches (rela : Rela) (symbolValue sectionAddress : BitVec 64) (m : Memory) : Prop :=
  ∀ type, relocationType rela.info = some type → type.unchecked → isZero m (sectionAddress + rela.offset) 4 = true →
    -2 ^ 31 ≤ (symbolValue + rela.addend - (sectionAddress + rela.offset)).toInt ∧
      (symbolValue + rela.addend - (sectionAddress + rela.offset)).toInt < 2 ^ 31

theorem sign_extended_iff (d : BitVec 64) : (d.setWidth 32).signExtend 64 = d ↔ -2 ^ 31 ≤ d.toInt ∧ d.toInt < 2 ^ 31 := by
  have small := d.isLt
  rw [← BitVec.toInt_inj, BitVec.toInt_signExtend_of_le (by decide), BitVec.toInt_setWidth, BitVec.toInt_eq_toNat_bmod]
  simp only [Int.bmod_def]
  omega

theorem low_half (value : BitVec 64) : ((value.setWidth (8 * 4)).setWidth 64).setWidth 32 = value.setWidth 32 := by
  apply BitVec.eq_of_getLsbD_eq
  intro i small
  simp [small, show i < 64 by omega]

section Outcomes

variable {rela : Rela} {symbolValue sectionAddress : BitVec 64} {m : Memory} {type : RelocationType}

-- What is stored is read back as the type prescribes.
theorem relocate_exact (type : RelocationType) (known : relocationType rela.info = some type) (value : BitVec 64)
    (held : isZero m (sectionAddress + rela.offset) type.size = true →
      type.extend ((value.setWidth (8 * type.size)).setWidth 64) = type.prescribed symbolValue rela.addend (sectionAddress + rela.offset)) :
    Exact rela symbolValue sectionAddress m (relocate (sectionAddress + rela.offset) value type.size m) := by
  have fits : type.size ≤ 8 := by cases type <;> decide
  unfold relocate
  by_cases zero : isZero m (sectionAddress + rela.offset) type.size = true
  · rw [if_pos zero]
    refine ⟨fun _ => ⟨type, known, fun _ => ?_⟩, fun failed => (by cases failed), fun other same a outside => ?_⟩
    · rw [load_store _ _ _ _ fits]
      exact held zero
    · obtain rfl := Option.some.inj (known.symm.trans same)
      exact store_outside _ _ _ outside
  · rw [if_neg zero]
    exact ⟨fun done => (by cases done), fun _ => rfl, fun _ _ _ _ => rfl⟩

theorem rejected_exact : Exact rela symbolValue sectionAddress m (false, m) :=
  ⟨fun done => (by cases done), fun _ => rfl, fun _ _ _ _ => rfl⟩

theorem whole_field (value : BitVec 64) : (value.setWidth (8 * 8)).setWidth 64 = value := by simp

-- Of the displacements, those that fit are stored exactly.
theorem displacement_exact (type : RelocationType) (known : relocationType rela.info = some type) (unchecked : type.unchecked) :
    Exact rela symbolValue sectionAddress m
      (relocate (sectionAddress + rela.offset) (symbolValue + rela.addend - (sectionAddress + rela.offset)) 4 m) ↔
      Reaches rela symbolValue sectionAddress m := by
  have size : type.size = 4 := by rcases unchecked with rfl | rfl <;> rfl
  have extended : ∀ field, type.extend field = (field.setWidth 32).signExtend 64 := fun field => by rcases unchecked with rfl | rfl <;> rfl
  have formula : type.prescribed symbolValue rela.addend (sectionAddress + rela.offset) =
      symbolValue + rela.addend - (sectionAddress + rela.offset) := by rcases unchecked with rfl | rfl <;> rfl
  constructor
  · intro exact_ other same _ zero
    obtain rfl := Option.some.inj (known.symm.trans same)
    rw [relocate, if_pos zero] at exact_
    obtain ⟨found, same', held⟩ := exact_.applied rfl
    obtain rfl := Option.some.inj (known.symm.trans same')
    rw [extended, formula, size, load_store _ _ _ _ (by decide), low_half] at held
    exact (sign_extended_iff _).mp (held (by rcases unchecked with rfl | rfl <;> decide))
  · intro reaches
    rw [← size]
    refine relocate_exact _ known _ fun zero => ?_
    rw [size] at zero
    rw [extended, formula, size, low_half]
    exact (sign_extended_iff _).mpr (reaches type known unchecked zero)

end Outcomes

-- Whether a relocation is exact is decided by the displacement of the types that do not look at it.
theorem relocation_exact_iff (rela : Rela) (symbolValue sectionAddress : BitVec 64) (m : Memory) :
    Exact rela symbolValue sectionAddress m (archElfDoRelocationAddend rela symbolValue sectionAddress m) ↔
      Reaches rela symbolValue sectionAddress m := by
  unfold archElfDoRelocationAddend
  dsimp only
  cases known : relocationType rela.info with
  | none =>
      refine iff_of_true rejected_exact fun type same => ?_
      rw [known] at same
      cases same
  | some type =>
      have checked : ¬ type.unchecked → Reaches rela symbolValue sectionAddress m := fun other found same unchecked => by
        obtain rfl := Option.some.inj (known.symm.trans same)
        exact absurd unchecked other
      cases type with
      | none =>
          refine iff_of_true ⟨fun _ => ⟨.none, known, fun other => absurd rfl other⟩, fun failed => (by cases failed), fun _ _ _ _ => rfl⟩
            (checked (by unfold RelocationType.unchecked; decide))
      | abs64 =>
          refine iff_of_true (relocate_exact .abs64 known _ fun _ => ?_) (checked (by unfold RelocationType.unchecked; decide))
          exact whole_field _
      | pc64 =>
          refine iff_of_true (relocate_exact .pc64 known _ fun _ => ?_) (checked (by unfold RelocationType.unchecked; decide))
          exact whole_field _
      | abs32 =>
          refine iff_of_true ?_ (checked (by unfold RelocationType.unchecked; decide))
          dsimp only
          split
          · exact rejected_exact
          · rename_i same
            exact relocate_exact .abs32 known _ fun _ => (not_not.mp same).symm
      | abs32S =>
          refine iff_of_true ?_ (checked (by unfold RelocationType.unchecked; decide))
          dsimp only
          split
          · exact rejected_exact
          · rename_i same
            refine relocate_exact .abs32S known _ fun _ => ?_
            change ((((symbolValue + rela.addend).setWidth (8 * 4)).setWidth 64).setWidth 32).signExtend 64 = symbolValue + rela.addend
            rw [low_half]
            exact (not_not.mp same).symm
      | plt32 => exact displacement_exact .plt32 known (.inr rfl)
      | pc32 => exact displacement_exact .pc32 known (.inl rfl)

-- A call to a function of the kernel from a module that lies 4 GiB below it: the displacement stored is 0.
theorem relocation_cuts_displacement :
    archElfDoRelocationAddend ⟨0, 4, 0⟩ 0xFFFFFFFF80000000 0xFFFFFFFE80000000 (fun _ => 0) = (true, store 0xFFFFFFFE80000000 0x100000000 4 fun _ => 0) ∧
      ¬ Exact ⟨0, 4, 0⟩ 0xFFFFFFFF80000000 0xFFFFFFFE80000000 (fun _ => 0)
        (archElfDoRelocationAddend ⟨0, 4, 0⟩ 0xFFFFFFFF80000000 0xFFFFFFFE80000000 fun _ => 0) := by
  refine ⟨rfl, fun exact_ => ?_⟩
  obtain ⟨type, known, held⟩ := exact_.applied rfl
  obtain rfl : RelocationType.plt32 = type := Option.some.inj known
  exact absurd (held (by decide)) (by decide)

end Elysium.Relocation
