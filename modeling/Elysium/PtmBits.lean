import Elysium.Ptm

set_option autoImplicit false

namespace Elysium.Ptm

open Vm (Protection Cache Privilege)

def Present (entry : Entry) : Prop := entry.getLsbD 0 = true
def Big (entry : Entry) : Prop := entry.getLsbD 7 = true

-- Bit 7 of an entry of the last level is not the page size bit.
def Descends (level : Nat) (entry : Entry) : Prop := 1 < level ∧ Present entry ∧ ¬ Big entry

instance (entry : Entry) : Decidable (Present entry) := inferInstanceAs (Decidable (_ = _))
instance (entry : Entry) : Decidable (Big entry) := inferInstanceAs (Decidable (_ = _))
instance (level : Nat) (entry : Entry) : Decidable (Descends level entry) := inferInstanceAs (Decidable (_ ∧ _ ∧ _))

theorem flag_bit {i : Nat} (small : i < 64) (k : Nat) : (1#64 <<< i).getLsbD k = decide (k = i) := by
  rw [← BitVec.twoPow_eq, BitVec.getLsbD_twoPow]
  by_cases same : k = i
  · simp [same, small]
  · simp [same, Ne.symm same]

-- A test of one flag reads one bit.
theorem masked_iff {i : Nat} (small : i < 64) (entry : Entry) : entry &&& (1#64 <<< i) ≠ 0 ↔ entry.getLsbD i = true := by
  constructor
  · intro some
    by_contra clear
    refine some (BitVec.eq_of_getLsbD_eq fun k _ => ?_)
    rw [BitVec.getLsbD_and, flag_bit small]
    by_cases same : k = i
    · rw [same, Bool.eq_false_iff.mpr clear, Bool.false_and]
      exact BitVec.getLsbD_zero.symm
    · rw [decide_eq_false same, Bool.and_false]
      exact BitVec.getLsbD_zero.symm
  · intro set zero
    have bit := congrArg (fun e => BitVec.getLsbD e i) zero
    simp [flag_bit small, set] at bit

theorem absent_iff (entry : Entry) : entry &&& entryFlagPresent = 0 ↔ ¬ Present entry :=
  not_iff_not.mp (by rw [not_not]; exact masked_iff (by decide) entry)

theorem big_iff (entry : Entry) : entry &&& entryhFlagPs ≠ 0 ↔ Big entry := masked_iff (by decide) entry

theorem address_mask_bit (k : Nat) : entrylAddressMask.getLsbD k = decide (12 ≤ k ∧ k < 52) := by
  by_cases small : k < 64
  · have all : ∀ k : Fin 64, entrylAddressMask.getLsbD k = decide (12 ≤ k.val ∧ k.val < 52) := by decide
    exact all ⟨k, small⟩
  · rw [BitVec.getLsbD_of_ge _ _ (by omega), eq_comm, decide_eq_false_iff_not]
    omega

theorem table_of_bit (entry : Entry) (k : Nat) :
    (tableOf entry).testBit k = (entry.getLsbD k && decide (12 ≤ k ∧ k < 52)) := by
  rw [tableOf, ← BitVec.getLsbD, BitVec.getLsbD_and, address_mask_bit]

theorem table_of_aligned (entry : Entry) : tableOf entry % pageGranularity = 0 := by
  refine Nat.eq_of_testBit_eq fun i => ?_
  rw [show pageGranularity = 2 ^ 12 by rfl, Nat.testBit_mod_two_pow, table_of_bit, Nat.zero_testBit]
  by_cases low : i < 12
  · rw [decide_eq_false (show ¬ (12 ≤ i ∧ i < 52) by omega), Bool.and_false, Bool.and_false]
  · rw [decide_eq_false low, Bool.false_and]

theorem table_of_congr {entry other : Entry} (same : ∀ k, 12 ≤ k → k < 52 → entry.getLsbD k = other.getLsbD k) :
    tableOf entry = tableOf other := by
  refine Nat.eq_of_testBit_eq fun k => ?_
  rw [table_of_bit, table_of_bit]
  by_cases inside : 12 ≤ k ∧ k < 52
  · rw [same k inside.1 inside.2]
  · rw [decide_eq_false inside, Bool.and_false, Bool.and_false]

theorem table_of_page {page : Nat} (aligned : page % pageGranularity = 0) (fits : page < 2 ^ 52) :
    tableOf (BitVec.ofNat 64 page) = page := by
  refine Nat.eq_of_testBit_eq fun k => ?_
  rw [table_of_bit, BitVec.getLsbD_ofNat]
  by_cases low : k < 12
  · have zero := congrArg (fun n => n.testBit k) aligned
    rw [show pageGranularity = 2 ^ 12 by rfl, Nat.testBit_mod_two_pow, Nat.zero_testBit, decide_eq_true low, Bool.true_and] at zero
    rw [zero, Bool.and_false, Bool.false_and]
  · by_cases high : k < 52
    · simp [high, Nat.le_of_not_lt low, show k < 64 by omega]
    · rw [Nat.testBit_lt_two_pow (Nat.lt_of_lt_of_le fits (Nat.pow_le_pow_right (by decide) (Nat.le_of_not_lt high))),
        Bool.and_false, Bool.false_and]

section Flags

variable (k : Nat)

@[simp] theorem present_bit : entryFlagPresent.getLsbD k = decide (k = 0) := flag_bit (by decide) k
@[simp] theorem rw_bit : entryFlagRw.getLsbD k = decide (k = 1) := flag_bit (by decide) k
@[simp] theorem user_bit : entryFlagUser.getLsbD k = decide (k = 2) := flag_bit (by decide) k
@[simp] theorem writethrough_bit : entryFlagWritethrough.getLsbD k = decide (k = 3) := flag_bit (by decide) k
@[simp] theorem disablecache_bit : entryFlagDisablecache.getLsbD k = decide (k = 4) := flag_bit (by decide) k
@[simp] theorem ps_bit : entryhFlagPs.getLsbD k = decide (k = 7) := flag_bit (by decide) k
@[simp] theorem patl_bit : entrylFlagPat.getLsbD k = decide (k = 7) := flag_bit (by decide) k
@[simp] theorem global_bit : entryFlagGlobal.getLsbD k = decide (k = 8) := flag_bit (by decide) k
@[simp] theorem path_bit : entryhFlagPat.getLsbD k = decide (k = 12) := flag_bit (by decide) k
@[simp] theorem nx_bit : entryFlagNx.getLsbD k = decide (k = 63) := flag_bit (by decide) k

@[simp] theorem privilege_bit (privilege : Privilege) :
    (privilegeToX86Flags privilege).getLsbD k = (decide (privilege = .user) && decide (k = 2)) := by
  cases privilege with
  | kernel => simp [privilegeToX86Flags]
  | user => simp [privilegeToX86Flags]

theorem or_if_bit (condition : Bool) (entry flag : Entry) :
    (if condition then entry ||| flag else entry).getLsbD k = (entry.getLsbD k || (condition && flag.getLsbD k)) := by
  cases condition with
  | false => simp
  | true => simp

theorem set_if_bit {k : Nat} (small : k < 64) (condition : Bool) (entry flag : Entry) :
    (if condition then entry ||| flag else entry &&& ~~~flag).getLsbD k =
      if flag.getLsbD k then condition else entry.getLsbD k := by
  cases condition with
  | false =>
      rw [if_neg Bool.false_ne_true, BitVec.getLsbD_and, BitVec.getLsbD_not, decide_eq_true small, Bool.true_and]
      cases flag.getLsbD k with
      | false => rw [Bool.not_false, Bool.and_true, if_neg Bool.false_ne_true]
      | true => rw [Bool.not_true, Bool.and_false, if_pos rfl]
  | true =>
      rw [if_pos rfl, BitVec.getLsbD_or]
      cases flag.getLsbD k with
      | false => rw [Bool.or_false, if_neg Bool.false_ne_true]
      | true => rw [Bool.or_true, if_pos rfl]

theorem grant_bit (prot : Protection) (privilege : Privilege) (entry : Entry) :
    (grantEntry prot privilege entry).getLsbD k =
      (entry.getLsbD k || (prot.write && decide (k = 1)) || (decide (privilege = .user) && decide (k = 2))) := by
  rw [grantEntry, BitVec.getLsbD_or, or_if_bit, rw_bit, privilege_bit]

theorem open_bit {k : Nat} (small : k < 64) (prot : Protection) (entry : Entry) :
    (openEntry prot entry).getLsbD k = (entry.getLsbD k && !(prot.exec && decide (k = 63))) := by
  unfold openEntry
  cases prot.exec with
  | false => simp
  | true => rw [if_pos rfl, BitVec.getLsbD_and, BitVec.getLsbD_not, nx_bit, decide_eq_true small, Bool.true_and, Bool.true_and]

theorem fresh_bit (page : Nat) (prot : Protection) :
    (freshEntry page prot).getLsbD k = (decide (k = 0) || ((BitVec.ofNat 64 page).getLsbD k && decide (12 ≤ k ∧ k < 52)) ||
      (!prot.exec && decide (k = 63))) := by
  rw [freshEntry, or_if_bit, BitVec.getLsbD_or, BitVec.getLsbD_and, present_bit, address_mask_bit, nx_bit]

theorem leaf_bit (paddr : Nat) (pageSize : PageSize) (prot : Protection) (cache : Cache) (privilege : Privilege) (isGlobal : Bool) :
    (leafEntry paddr pageSize prot cache privilege isGlobal).getLsbD k =
      (decide (k = 0) || ((BitVec.ofNat 64 paddr).getLsbD k && (entryAddressMask pageSize).getLsbD k) ||
        (decide (privilege = .user) && decide (k = 2)) || (cacheToX86Flags cache pageSize).getLsbD k ||
        (decide (pageSize ≠ .size4K) && decide (k = 7)) || (prot.write && decide (k = 1)) || (!prot.exec && decide (k = 63)) ||
        (isGlobal && decide (k = 8))) := by
  have sized : ∀ entry : Entry, (if pageSize ≠ .size4K then entry ||| entryhFlagPs else entry).getLsbD k =
      (entry.getLsbD k || (decide (pageSize ≠ .size4K) && decide (k = 7))) := by
    intro entry
    by_cases big : pageSize ≠ .size4K
    · simp [big]
    · simp [big]
  simp only [leafEntry, or_if_bit, sized, BitVec.getLsbD_or, BitVec.getLsbD_and, present_bit, privilege_bit, rw_bit, nx_bit, global_bit]

end Flags

theorem descends_iff_of_bits {level : Nat} {entry other : Entry} (present : entry.getLsbD 0 = other.getLsbD 0)
    (big : entry.getLsbD 7 = other.getLsbD 7) : Descends level entry ↔ Descends level other := by
  unfold Descends Present Big
  rw [present, big]

-- An entry that map_page passes on its way down.
structure Granted (prot : Protection) (privilege : Privilege) (entry : Entry) : Prop where
  writes : prot.write = true → entry.getLsbD 1 = true
  serves : privilege = .user → entry.getLsbD 2 = true
  runs : prot.exec = true → entry.getLsbD 63 = false

theorem fresh_granted (page : Nat) (prot : Protection) (privilege : Privilege) :
    Granted prot privilege (grantEntry prot privilege (freshEntry page prot)) := by
  refine ⟨fun write => ?_, fun user => ?_, fun exec => ?_⟩
  · rw [grant_bit, write]
    simp
  · rw [grant_bit, user]
    simp
  · rw [grant_bit, fresh_bit, exec]
    simp

theorem fresh_descends {level : Nat} (below : 1 < level) (page : Nat) (prot : Protection) (privilege : Privilege) :
    Descends level (grantEntry prot privilege (freshEntry page prot)) := by
  refine ⟨below, ?_, ?_⟩
  · rw [Present, grant_bit, fresh_bit]
    simp
  · rw [Big, grant_bit, fresh_bit]
    simp

theorem fresh_table {page : Nat} (aligned : page % pageGranularity = 0) (fits : page < 2 ^ 52) (prot : Protection)
    (privilege : Privilege) : tableOf (grantEntry prot privilege (freshEntry page prot)) = page := by
  refine Eq.trans (table_of_congr fun k low high => ?_) (table_of_page aligned fits)
  rw [grant_bit, fresh_bit]
  simp [low, high, show k ≠ 0 by omega, show k ≠ 1 by omega, show k ≠ 2 by omega, show k ≠ 63 by omega]

section Passed

variable (prot : Protection) (privilege : Privilege) (entry : Entry)

theorem passed_granted : Granted prot privilege (grantEntry prot privilege (openEntry prot entry)) := by
  refine ⟨fun write => ?_, fun user => ?_, fun exec => ?_⟩
  · rw [grant_bit, write]
    simp
  · rw [grant_bit, user]
    simp
  · rw [grant_bit, open_bit (by decide), exec]
    simp

theorem passed_descends (level : Nat) : Descends level (grantEntry prot privilege (openEntry prot entry)) ↔ Descends level entry :=
  descends_iff_of_bits (by rw [grant_bit, open_bit (by decide)]; simp) (by rw [grant_bit, open_bit (by decide)]; simp)

theorem passed_table : tableOf (grantEntry prot privilege (openEntry prot entry)) = tableOf entry := by
  refine table_of_congr fun k low high => ?_
  rw [grant_bit, open_bit (show k < 64 by omega)]
  simp [show k ≠ 1 by omega, show k ≠ 2 by omega, show k ≠ 63 by omega]

theorem passed_writes (write : entry.getLsbD 1 = true) : (grantEntry prot privilege (openEntry prot entry)).getLsbD 1 = true := by
  rw [grant_bit, open_bit (by decide), write]
  simp

theorem passed_serves (user : entry.getLsbD 2 = true) : (grantEntry prot privilege (openEntry prot entry)).getLsbD 2 = true := by
  rw [grant_bit, open_bit (by decide), user]
  simp

theorem passed_runs (exec : entry.getLsbD 63 = false) : (grantEntry prot privilege (openEntry prot entry)).getLsbD 63 = false := by
  rw [grant_bit, open_bit (by decide), exec]
  simp

end Passed

section Leaf

variable (paddr : Nat) (pageSize : PageSize) (prot : Protection) (cache : Cache) (privilege : Privilege) (isGlobal : Bool)

theorem leaf_present : Present (leafEntry paddr pageSize prot cache privilege isGlobal) := by
  rw [Present, leaf_bit]
  simp

theorem leaf_write : (leafEntry paddr pageSize prot cache privilege isGlobal).getLsbD 1 = prot.write := by
  have mask : (entryAddressMask pageSize).getLsbD 1 = false := by cases pageSize <;> decide
  have kept : (cacheToX86Flags cache pageSize).getLsbD 1 = false := by cases cache <;> cases pageSize <;> decide
  rw [leaf_bit, mask, kept]
  simp

theorem leaf_user : (leafEntry paddr pageSize prot cache privilege isGlobal).getLsbD 2 = decide (privilege = .user) := by
  have mask : (entryAddressMask pageSize).getLsbD 2 = false := by cases pageSize <;> decide
  have kept : (cacheToX86Flags cache pageSize).getLsbD 2 = false := by cases cache <;> cases pageSize <;> decide
  rw [leaf_bit, mask, kept]
  simp

theorem leaf_nx : (leafEntry paddr pageSize prot cache privilege isGlobal).getLsbD 63 = !prot.exec := by
  have mask : (entryAddressMask pageSize).getLsbD 63 = false := by cases pageSize <;> decide
  have kept : (cacheToX86Flags cache pageSize).getLsbD 63 = false := by cases cache <;> cases pageSize <;> decide
  rw [leaf_bit, mask, kept]
  simp

theorem leaf_stops : ¬ Descends (lowestIndex pageSize) (leafEntry paddr pageSize prot cache privilege isGlobal) := by
  rintro ⟨level, _, small⟩
  refine small ?_
  have big : pageSize ≠ .size4K := fun same => by
    rw [same] at level
    exact absurd level (by decide)
  rw [Big, leaf_bit, decide_eq_true big]
  simp

end Leaf

end Elysium.Ptm
