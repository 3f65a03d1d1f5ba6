import Elysium.Heap

set_option autoImplicit false

namespace Elysium.Heap

open Pmm (pagecountToOrder pmmMaxOrder clzll)

theorem div_ceil_eq {dividend divisor : Nat} (positive : 0 < divisor) (fits : dividend + divisor < 2 ^ 64) :
    divCeil dividend divisor = (dividend + divisor - 1) / divisor := by
  rw [divCeil, add64_eq fits, sub64_eq (by omega) fits]

-- A family whose sizes are the multiples of one serves every size up to the last.
theorem multiple_cache {f : Family} {unit size : Nat} (multiples : ∀ i : Fin f.sizes.length, f.sizes.get i = (i + 1) * unit)
    (positive : 0 < size) (small : size ≤ f.sizes.length * unit) (word : f.sizes.length * unit + unit < 2 ^ 64) :
    ∃ id, cacheAt f (sub64 (divCeil size unit) 1) = some id ∧ size ≤ id.config.objectSize := by
  have isUnit : 0 < unit := by
    by_contra zero
    rw [Nat.eq_zero_of_not_pos zero, Nat.mul_zero] at small
    omega
  have rounds := div_ceil_eq isUnit (show size + unit < 2 ^ 64 by omega)
  obtain ⟨i, index⟩ : ∃ i, divCeil size unit = i + 1 := by
    rw [rounds, show size + unit - 1 = size - 1 + unit by omega, Nat.add_div_right _ isUnit]
    exact ⟨_, rfl⟩
  have quotient : (size - 1) / unit = i := by
    rw [rounds, show size + unit - 1 = size - 1 + unit by omega, Nat.add_div_right _ isUnit] at index
    omega
  have inside : i < f.sizes.length := by
    rw [← quotient, Nat.div_lt_iff_lt_mul isUnit]
    omega
  have enough : size ≤ (i + 1) * unit := by
    have := Nat.lt_div_mul_add isUnit (a := size - 1)
    rw [quotient] at this
    rw [Nat.add_mul, Nat.one_mul]
    omega
  have bound : i + 1 ≤ (i + 1) * unit := Nat.le_mul_of_pos_right _ isUnit
  have limit : (i + 1) * unit ≤ f.sizes.length * unit := Nat.mul_le_mul_right _ inside
  refine ⟨⟨f, i, inside⟩, ?_, ?_⟩
  · rw [index, sub64_eq (by omega) (by omega), Nat.add_sub_cancel]
    exact dif_pos inside
  · show size ≤ f.sizes.get ⟨i, inside⟩
    rw [multiples]
    exact enough

-- Every size up to the largest has a cache, whose objects are large enough.
theorem find_cache_some {size : Nat} (positive : 0 < size) (small : size ≤ Family.largest .other) :
    ∃ id, findCache size = some id ∧ size ≤ id.config.objectSize := by
  rw [findCache]
  by_cases x8 : size ≤ Family.largest .x8
  · rw [if_pos x8]
    exact multiple_cache (by decide) positive x8 (by decide)
  rw [if_neg x8]
  by_cases x128 : size ≤ Family.largest .x128
  · rw [if_pos x128]
    exact multiple_cache (by decide) positive x128 (by decide)
  rw [if_neg x128]
  change size ≤ 2048 at small
  by_cases first : 1024 < size
  · refine ⟨⟨.other, 1, by decide⟩, ?_, small⟩
    simp [Family.sizes, List.findIdx?_cons, Nat.not_le.mpr first, small, cacheAt]
  · refine ⟨⟨.other, 0, by decide⟩, ?_, Nat.le_of_not_lt first⟩
    simp [Family.sizes, List.findIdx?_cons, Nat.le_of_not_lt first, cacheAt]

theorem all_caches_mem (id : CacheId) : id ∈ allCaches := by
  obtain ⟨f, i⟩ := id
  have member : CacheId.mk f i ∈ family f := List.mem_map.mpr ⟨i, List.mem_finRange i, rfl⟩
  cases f with
  | x8 => exact List.mem_append_left _ (List.mem_append_left _ member)
  | x128 => exact List.mem_append_left _ (List.mem_append_right _ member)
  | other => exact List.mem_append_right _ member

-- Every cache has objects, and a slab is no larger than the alignment of the HHDM.
theorem config_objects (id : CacheId) : id.config.objects ≠ 0 := by
  have all : ∀ id ∈ allCaches, id.config.objects ≠ 0 := by decide +kernel
  exact all id (all_caches_mem id)

theorem config_bytes_dvd (id : CacheId) : id.config.bytes ∣ orderBytes 5 := by
  have all : ∀ id ∈ allCaches, orderBytes 5 % id.config.bytes = 0 := by decide +kernel
  exact Nat.dvd_of_mod_eq_zero (all id (all_caches_mem id))

theorem pagecount_to_order_fits {pages : Nat} (positive : 0 < pages) (fits : pages < 2 ^ 64) : pages ≤ 2 ^ pagecountToOrder pages := by
  rw [pagecountToOrder]
  by_cases one : pages = 1
  · rw [if_pos one, one]
    decide
  · rw [if_neg one, sub64_eq positive fits, clzll]
    have bound : Nat.log2 (pages - 1) < 64 := (Nat.log2_lt (by omega)).mpr (by omega)
    have exponent : 64 - (63 - Nat.log2 (pages - 1)) = Nat.log2 (pages - 1) + 1 := by omega
    rw [exponent]
    have above := Nat.lt_log2_self (n := pages - 1)
    omega

-- Pages that wrap around are far more than pmm_alloc takes.
theorem pages_fit {size : Nat} (positive : 0 < size) (word : size < 2 ^ 64)
    (allowed : pagecountToOrder (divCeil size pageGranularity) ≤ pmmMaxOrder) :
    size ≤ orderBytes (pagecountToOrder (divCeil size pageGranularity)) := by
  have page : pageGranularity = 4096 := rfl
  by_cases fits : size + pageGranularity < 2 ^ 64
  · have pages := div_ceil_eq (show 0 < pageGranularity by decide) fits
    have enough : size ≤ divCeil size pageGranularity * pageGranularity := by
      rw [pages, page]
      omega
    have some : 0 < divCeil size pageGranularity := by
      rw [pages, page]
      omega
    have small : divCeil size pageGranularity < 2 ^ 64 := by
      rw [pages, page]
      omega
    exact Nat.le_trans enough (Nat.mul_le_mul_right _ (pagecount_to_order_fits some small))
  · have wraps : divCeil size pageGranularity = 0 ∨ divCeil size pageGranularity = 2 ^ 52 - 1 := by
      rw [divCeil, add64, sub64, page]
      omega
    cases wraps with
    | inl wraps =>
        rw [wraps] at allowed
        exact absurd allowed (by decide)
    | inr wraps =>
        rw [wraps] at allowed
        exact absurd allowed (by decide)

end Elysium.Heap
