import Elysium.PtmGrow

set_option autoImplicit false

namespace Elysium.Ptm

open Vm (kernelspaceStart)

def Canonical (vaddr : Nat) : Prop := vaddr < 2 ^ 47 ∨ (kernelspaceStart ≤ vaddr ∧ vaddr < 2 ^ 64)

instance (vaddr : Nat) : Decidable (Canonical vaddr) := inferInstanceAs (Decidable (_ ∨ _))

-- What the processor makes of a virtual address. cache holds the PAT, PCD and PWT
-- bits, which select the memory type.
structure Translation where
  physical : Nat
  level : Nat
  write : Bool
  exec : Bool
  user : Bool
  isGlobal : Bool
  cache : Bool × Bool × Bool
deriving DecidableEq, Repr

def frameMask (level : Nat) : Entry :=
  if level = 1 then 0x000FFFFFFFFFF000#64 else if level = 2 then 0x000FFFFFFFE00000#64 else 0x000FFFFFC0000000#64

def patBit (level : Nat) : Nat := if level = 1 then 7 else 12

def cacheBits (level : Nat) (leaf : Entry) : Bool × Bool × Bool :=
  (leaf.getLsbD (patBit level), leaf.getLsbD 4, leaf.getLsbD 3)

-- A page is reached when the last entry read is present; the top level maps no
-- pages. Every level has to allow an access.
def translate (vaddr : Nat) (path : List Entry) : Option Translation :=
  match path.getLast? with
  | none => none
  | some leaf =>
      if Present leaf ∧ levelCount + 1 - path.length < levelCount then
        some {
          physical := (leaf &&& frameMask (levelCount + 1 - path.length)).toNat +
            vaddr % levelToPagesize (levelCount + 1 - path.length)
          level := levelCount + 1 - path.length
          write := path.all fun entry => entry.getLsbD 1
          exec := path.all fun entry => !entry.getLsbD 63
          user := path.all fun entry => entry.getLsbD 2
          isGlobal := leaf.getLsbD 8
          cache := cacheBits (levelCount + 1 - path.length) leaf }
      else none

def walk (memory : Nat → Entry) (top vaddr : Nat) : Option Translation :=
  if Canonical vaddr then translate vaddr (entries memory vaddr levelCount top) else none

-- The same when the last entry alone decides about accesses.
def translateLeaf (vaddr level : Nat) (leaf : Entry) : Option Translation :=
  if Present leaf ∧ level < levelCount then
    some {
      physical := (leaf &&& frameMask level).toNat + vaddr % levelToPagesize level
      level := level
      write := leaf.getLsbD 1
      exec := !leaf.getLsbD 63
      user := leaf.getLsbD 2
      isGlobal := leaf.getLsbD 8
      cache := cacheBits level leaf }
  else none

-- No level above a page takes away what the page allows.
def Granting (path : List Entry) : Prop :=
  ∀ leaf, path.getLast? = some leaf → Present leaf → ∀ entry ∈ path,
    (leaf.getLsbD 1 = true → entry.getLsbD 1 = true) ∧ (leaf.getLsbD 2 = true → entry.getLsbD 2 = true) ∧
      (leaf.getLsbD 63 = false → entry.getLsbD 63 = false)

theorem all_eq_last {path : List Entry} {leaf : Entry} (last : path.getLast? = some leaf) (allows : Entry → Bool)
    (granted : allows leaf = true → ∀ entry ∈ path, allows entry = true) : path.all allows = allows leaf := by
  have member : leaf ∈ path := List.mem_of_getLast? last
  cases set : allows leaf with
  | false =>
      rw [Bool.eq_false_iff]
      intro all
      have bad := List.all_eq_true.mp all leaf member
      rw [set] at bad
      exact Bool.false_ne_true bad
  | true => exact List.all_eq_true.mpr (granted set)

theorem translate_granting {path : List Entry} {leaf : Entry} (granting : Granting path) (last : path.getLast? = some leaf)
    (vaddr : Nat) : translate vaddr path = translateLeaf vaddr (levelCount + 1 - path.length) leaf := by
  unfold translate translateLeaf
  rw [last]
  dsimp only
  by_cases present : Present leaf ∧ levelCount + 1 - path.length < levelCount
  · have grants := granting leaf last present.1
    rw [if_pos present, if_pos present,
      all_eq_last last (fun entry => entry.getLsbD 1) fun set entry inPath => (grants entry inPath).1 set,
      all_eq_last last (fun entry => entry.getLsbD 2) fun set entry inPath => (grants entry inPath).2.1 set,
      all_eq_last last (fun entry => !entry.getLsbD 63) fun set entry inPath => by
        rw [Bool.not_eq_true'] at set ⊢
        exact (grants entry inPath).2.2 set]
  · rw [if_neg present, if_neg present]

theorem translate_absent {path : List Entry} {leaf : Entry} (last : path.getLast? = some leaf) (absent : ¬ Present leaf)
    (vaddr : Nat) : translate vaddr path = none := by
  unfold translate
  rw [last]
  exact if_neg fun both => absent both.1

theorem page_size_eq {level : Nat} (positive : 1 ≤ level) : levelToPagesize level = 2 ^ (level * 9 + 3) := by
  rw [levelToPagesize, Nat.one_shiftLeft]
  congr 1
  omega

theorem index_eq {level : Nat} (positive : 1 ≤ level) (vaddr : Nat) :
    vaddrToIndex vaddr level = vaddr / levelToPagesize level % 512 := by
  rw [page_size_eq positive, vaddrToIndex, Nat.shiftRight_eq_div_pow]
  exact Nat.and_two_pow_sub_one_eq_mod _ 9

theorem page_size_succ {level : Nat} (positive : 1 ≤ level) : levelToPagesize (level + 1) = levelToPagesize level * 512 := by
  rw [page_size_eq positive, page_size_eq (by omega), show (level + 1) * 9 + 3 = level * 9 + 3 + 9 by omega, Nat.pow_add]

theorem page_size_positive (level : Nat) : 0 < levelToPagesize level := by
  rw [levelToPagesize, Nat.one_shiftLeft]
  exact Nat.two_pow_pos _

theorem div_eq_iff_step {n v w : Nat} :
    v / n = w / n ↔ v / n % 512 = w / n % 512 ∧ v / (n * 512) = w / (n * 512) := by
  rw [← Nat.div_div_eq_div_mul, ← Nat.div_div_eq_div_mul]
  omega

-- Canonical addresses share the entry of a level when they lie in one page of its
-- size.
theorem same_slot_iff {level v w : Nat} (positive : 1 ≤ level) (bound : level ≤ levelCount) (canonicalV : Canonical v)
    (canonicalW : Canonical w) : SameSlot level v w ↔ v / levelToPagesize level = w / levelToPagesize level := by
  obtain ⟨d, rfl⟩ : ∃ d, level = levelCount - d := ⟨levelCount - level, by omega⟩
  induction d with
  | zero =>
      have top : SameSlot levelCount v w ↔ vaddrToIndex v levelCount = vaddrToIndex w levelCount :=
        ⟨fun same => same _ (Nat.le_refl _) (Nat.le_refl _), fun here k low high => by rwa [Nat.le_antisymm high low]⟩
      rw [Nat.sub_zero, top, index_eq (by decide), index_eq (by decide)]
      have size : levelToPagesize levelCount = 2 ^ 39 := rfl
      rw [size]
      unfold Canonical kernelspaceStart at canonicalV canonicalW
      omega
  | succ d ih =>
      have step : levelCount - d = levelCount - (d + 1) + 1 := by omega
      have above := ih (by omega) (by omega)
      rw [step] at above
      have split : SameSlot (levelCount - (d + 1)) v w ↔
          vaddrToIndex v (levelCount - (d + 1)) = vaddrToIndex w (levelCount - (d + 1)) ∧ SameSlot (levelCount - (d + 1) + 1) v w :=
        ⟨fun same => ⟨same _ (Nat.le_refl _) bound, same_slot_mono (Nat.le_succ _) same⟩, fun both => same_slot_step both.1 both.2⟩
      rw [split, above, index_eq positive, index_eq positive, page_size_succ positive]
      exact div_eq_iff_step.symm

theorem same_page_iff {n v a : Nat} (positive : 0 < n) (aligned : v % n = 0) : v / n = a / n ↔ v ≤ a ∧ a < v + n := by
  obtain ⟨q, rfl⟩ := Nat.dvd_of_mod_eq_zero aligned
  rw [Nat.mul_div_cancel_left q positive, eq_comm, Nat.div_eq_iff positive, Nat.mul_comm q n]
  omega

end Elysium.Ptm
