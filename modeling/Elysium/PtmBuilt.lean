import Elysium.PtmMap

set_option autoImplicit false

namespace Elysium.Ptm

open Vm (Protection Cache Privilege kernelspaceStart protRW protNone)

-- An empty table, and the pages alloc_page is going to hand out: distinct, and
-- none of them in use.
structure Blank (top : Nat) (s : State) : Prop where
  aligned : top % pageGranularity = 0
  empty : ∀ i < 512, s.memory (top + 8 * i) = 0
  distinct : s.frames.Nodup
  placed : ∀ page ∈ s.frames, page % pageGranularity = 0 ∧ page < 2 ^ 52
  fresh : top ∉ s.frames

inductive Built (top : Nat) : State → Prop where
  | blank (s : State) (blank : Blank top s) : Built top s
  | map (s s' : State) (vaddr paddr length : Nat) (prot : Protection) (cache : Cache) (privilege : Privilege) (isGlobal : Bool)
      (previous : Built top s) (run : archPtmMap top vaddr paddr length prot cache privilege isGlobal s = .ok s') : Built top s'

def blankState (frames : List Nat) : State where
  memory := fun _ => 0
  hhdmOffset := kernelspaceStart
  hhdmHigh := Nat.le_refl _
  earlymemActive := false
  frames := frames

theorem blank_state_blank : Blank 0x1000 (blankState [0x2000, 0x3000, 0x4000]) :=
  ⟨by decide, fun _ _ => rfl, by decide, by decide, by decide⟩

theorem blank_reaches {top : Nat} {s : State} (blank : Blank top s) {v l t : Nat} (reach : Reaches s.memory top v l t) :
    l = levelCount ∧ t = top := by
  induction reach with
  | top => exact ⟨rfl, rfl⟩
  | down level table _ descends ih =>
      obtain ⟨_, rfl⟩ := ih
      rw [blank.empty _ (index_lt _ _)] at descends
      exact absurd descends (zero_stops _)

theorem blank_path {top : Nat} {s : State} (blank : Blank top s) (v : Nat) : entries s.memory v levelCount top = [] ++ [0] := by
  have zero := blank.empty _ (index_lt v levelCount)
  rw [entries_stop (by decide) (by rw [zero]; exact zero_stops _), zero]
  rfl

theorem blank_walk {top : Nat} {s : State} (blank : Blank top s) (v : Nat) : walk s.memory top v = none := by
  rw [walk, blank_path blank, translate_absent List.getLast?_concat (by decide), ite_self]

theorem blank_sound {top : Nat} {s : State} (blank : Blank top s) : Sound top s := by
  have absent : ¬ Present 0 := by decide
  refine ⟨⟨blank.aligned, fun v w l k t first second => ?_⟩, blank.distinct, blank.placed, fun v l t reach => ?_, fun v => ?_, fun v => ?_⟩
  · obtain ⟨rfl, _⟩ := blank_reaches blank first
    obtain ⟨rfl, _⟩ := blank_reaches blank second
    exact ⟨rfl, fun i low high => absurd (Nat.le_trans low high) (by decide)⟩
  · obtain ⟨_, rfl⟩ := blank_reaches blank reach
    exact blank.fresh
  · rw [blank_path blank]
    exact absent_granting absent
  · rw [blank_path blank]
    exact absent_leafy absent

section Run

variable {top vaddr paddr length : Nat} {prot : Protection} {cache : Cache} {privilege : Privilege} {isGlobal : Bool}

theorem map_loop_sound (fuel i : Nat) (s s' : State) (sound : Sound top s)
    (run : mapLoop top vaddr paddr length prot cache privilege isGlobal fuel i s = .ok s') : Sound top s' := by
  induction fuel generalizing i s with
  | zero =>
      rw [mapLoop] at run
      by_cases inside : i < length
      · rw [if_pos inside] at run
        cases run
      · rw [if_neg inside, Except.ok.injEq] at run
        exact run ▸ sound
  | succ fuel ih =>
      rw [mapLoop] at run
      by_cases inside : i < length
      · rw [if_pos inside] at run
        rw [bind_eq_ok] at run
        obtain ⟨u, page, rest⟩ := run
        rcases @map_page_spec top (add64 vaddr i) (add64 paddr i) (cursize vaddr paddr (length - i)) prot cache privilege isGlobal s sound with
          ⟨v, done, writes⟩ | ⟨_, failed⟩ | ⟨_, fault, failed⟩
        · rw [done, Except.ok.injEq] at page
          exact ih _ u (page ▸ writes.sound) rest
        · rw [failed] at page
          cases page
        · rw [failed] at page
          cases page
      · rw [if_neg inside, Except.ok.injEq] at run
        exact run ▸ sound

theorem arch_ptm_map_eq (vaddrAligned : vaddr % pageGranularity = 0) (paddrAligned : paddr % pageGranularity = 0)
    (lengthAligned : length % pageGranularity = 0) (s : State) :
    archPtmMap top vaddr paddr length prot cache privilege isGlobal s =
      mapLoop top vaddr paddr length prot cache privilege isGlobal (length / pageGranularity) 0 s := by
  simp only [archPtmMap, assertThat, vaddrAligned, paddrAligned, lengthAligned, decide_true, if_true, bind_ok]

theorem arch_ptm_map_sound {s s' : State} (sound : Sound top s)
    (run : archPtmMap top vaddr paddr length prot cache privilege isGlobal s = .ok s') : Sound top s' := by
  unfold archPtmMap at run
  rw [bind_eq_ok] at run
  obtain ⟨_, _, run⟩ := run
  rw [bind_eq_ok] at run
  obtain ⟨_, _, run⟩ := run
  rw [bind_eq_ok] at run
  obtain ⟨_, _, run⟩ := run
  exact map_loop_sound _ 0 s s' sound run

end Run

theorem built_sound {top : Nat} {s : State} (built : Built top s) : Sound top s := by
  induction built with
  | blank s blank => exact blank_sound blank
  | map s s' vaddr paddr length prot cache privilege isGlobal _ run ih => exact arch_ptm_map_sound ih run

def PageSize.shift : PageSize → Nat
  | .size4K => 12
  | .size2M => 21
  | .size1G => 30

theorem bytes_shift (pageSize : PageSize) : pageSize.bytes = 2 ^ pageSize.shift := by cases pageSize <;> rfl

theorem page_size_bytes (pageSize : PageSize) : levelToPagesize (lowestIndex pageSize) = pageSize.bytes := by
  cases pageSize <;> rfl

theorem frame_mask_bit (pageSize : PageSize) (k : Nat) :
    (frameMask (lowestIndex pageSize)).getLsbD k = decide (pageSize.shift ≤ k ∧ k < 52) := by
  by_cases small : k < 64
  · have all : ∀ k : Fin 64, (frameMask (lowestIndex pageSize)).getLsbD k = decide (pageSize.shift ≤ k.val ∧ k.val < 52) := by
      cases pageSize <;> decide
    exact all ⟨k, small⟩
  · rw [BitVec.getLsbD_of_ge _ _ (by omega), eq_comm, decide_eq_false_iff_not]
    omega

theorem entry_mask_bit (pageSize : PageSize) {k : Nat} (low : pageSize.shift ≤ k) (high : k < 52) :
    (entryAddressMask pageSize).getLsbD k = true := by
  have all : ∀ k : Fin 64, pageSize.shift ≤ k.val → k.val < 52 → (entryAddressMask pageSize).getLsbD k = true := by
    cases pageSize <;> decide
  exact all ⟨k, by omega⟩ low high

theorem cache_flag_low (cache : Cache) (pageSize : PageSize) {k : Nat} (low : pageSize.shift ≤ k) (high : k < 52) :
    (cacheToX86Flags cache pageSize).getLsbD k = false := by
  have all : ∀ k : Fin 64, pageSize.shift ≤ k.val → k.val < 52 → (cacheToX86Flags cache pageSize).getLsbD k = false := by
    cases cache <;> cases pageSize <;> decide
  exact all ⟨k, by omega⟩ low high

theorem leaf_frame {paddr : Nat} {pageSize : PageSize} (aligned : paddr % pageSize.bytes = 0) (fits : paddr < 2 ^ 52)
    (prot : Protection) (cache : Cache) (privilege : Privilege) (isGlobal : Bool) :
    (leafEntry paddr pageSize prot cache privilege isGlobal &&& frameMask (lowestIndex pageSize)).toNat = paddr := by
  have shift : 12 ≤ pageSize.shift := by cases pageSize <;> decide
  refine Nat.eq_of_testBit_eq fun k => ?_
  rw [← BitVec.getLsbD, BitVec.getLsbD_and, frame_mask_bit]
  by_cases inside : pageSize.shift ≤ k ∧ k < 52
  · rw [decide_eq_true inside, leaf_bit, entry_mask_bit pageSize inside.1 inside.2, cache_flag_low cache pageSize inside.1 inside.2,
      BitVec.getLsbD_ofNat]
    simp [show k ≠ 0 by omega, show k ≠ 1 by omega, show k ≠ 2 by omega, show k ≠ 7 by omega, show k ≠ 8 by omega, show k ≠ 63 by omega,
      show k < 64 by omega]
  · rw [decide_eq_false inside, Bool.and_false]
    by_cases low : k < pageSize.shift
    · rw [bytes_shift] at aligned
      have zero := congrArg (fun n => n.testBit k) aligned
      rw [Nat.testBit_mod_two_pow, Nat.zero_testBit, decide_eq_true low, Bool.true_and] at zero
      exact zero.symm
    · exact (Nat.testBit_lt_two_pow (Nat.lt_of_lt_of_le fits (Nat.pow_le_pow_right (by decide) (by omega)))).symm

end Elysium.Ptm
