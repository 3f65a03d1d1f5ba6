import Elysium.UserLedger

set_option autoImplicit false

namespace Elysium.UserSpace

open Vm (Region userspaceStart userspaceEnd byteIn)
open Ptm (frameAt)

theorem clear_page_zero (memory : Nat → UInt8) {h x : Nat} (inside : x / pageGranularity = h) : Pmm.clearPage Pmm.flagZero memory h x = 0 := by
  unfold Pmm.clearPage
  rw [if_pos (by decide), Pmm.memClear, if_pos]
  unfold Pmm.blockPaddr pageGranularity at *
  omega

-- Pages that get frames: they are cleared, and those that had one keep it with what it holds.
structure Cleared (pages : List Nat) (used : Nat → Prop) (pmm : Pmm.State) (frames : Nat → Option Nat) (claimed : Pmm.State)
    (frames' : Nat → Option Nat) : Prop where
  kept : ∀ {P f}, frames P = some f → frames' P = some f
  others : ∀ {P}, P ∉ pages → frames' P = frames P
  zero : ∀ {P f x}, frames P = none → frames' P = some f → x / pageGranularity = f → claimed.memory x = 0
  memory : ∀ {x}, used (x / pageGranularity) → claimed.memory x = pmm.memory x

theorem claim_pages_cleared (pages : List Nat) {used : Nat → Prop} {pmm claimed : Pmm.State} {frames frames' : Nat → Option Nat}
    (stock : Pmm.Stock pmm used) (run : claimPages Pmm.flagZero pages (pmm, frames) = .ok (claimed, frames')) :
    Cleared pages used pmm frames claimed frames' := by
  induction pages generalizing pmm frames used with
  | nil =>
      obtain ⟨rfl, rfl⟩ := Prod.mk.inj (Except.ok.inj run)
      refine ⟨id, fun _ => rfl, fun absent framed _ => ?_, fun _ => rfl⟩
      rw [absent] at framed
      cases framed
  | cons page rest ih =>
      unfold claimPages at run ih
      rw [List.foldlM_cons, bind_eq_ok] at run
      obtain ⟨⟨next, between⟩, claim, run⟩ := run
      unfold claimPage at claim
      dsimp only at claim
      by_cases absent : frames page = none
      · rw [if_pos absent, bind_eq_ok] at claim
        obtain ⟨⟨after, h⟩, allocated, claim⟩ := claim
        obtain ⟨rfl, rfl⟩ := Prod.mk.inj (Except.ok.inj claim)
        obtain ⟨stocked, fresh, _⟩ := Pmm.stock_alloc stock allocated
        obtain ⟨cleared, _⟩ := Pmm.alloc_page_memory allocated
        have later := ih stocked run
        have own : frames' page = some h := later.kept (Function.update_self _ _ _)
        refine ⟨fun {P f} framed => ?_, fun {P} missing => ?_, fun {P f x} none_ framed inside => ?_, fun {x} isUsed => ?_⟩
        · refine later.kept ?_
          rw [Function.update_of_ne, framed]
          rintro rfl
          rw [absent] at framed
          cases framed
        · rw [List.mem_cons, not_or] at missing
          rw [later.others missing.2, Function.update_of_ne missing.1]
        · by_cases here : P = page
          · subst here
            rw [own, Option.some.injEq] at framed
            rw [later.memory (.inr (inside.trans framed.symm)), cleared]
            exact clear_page_zero _ (inside.trans framed.symm)
          · refine later.zero (P := P) ?_ framed inside
            rw [Function.update_of_ne here, none_]
        · rw [later.memory (.inl isUsed), cleared]
          refine clear_page_other ?_
          rintro rfl
          exact fresh isUsed
      · rw [if_neg absent] at claim
        obtain ⟨rfl, rfl⟩ := Prod.mk.inj (Except.ok.inj claim)
        have later := ih stock run
        exact ⟨later.kept, fun missing => later.others fun inRest => missing (List.mem_cons_of_mem _ inRest), later.zero, later.memory⟩

theorem log_of_lookup (dest : Nat) (bytes : List UInt8) (a : Nat) :
    (logOf dest bytes).lookup a = if dest ≤ a then bytes[a - dest]? else none := by
  induction bytes generalizing dest with
  | nil => simp [logOf]
  | cons byte rest ih =>
      rw [logOf, List.lookup_append, ih]
      rcases Nat.lt_trichotomy a dest with below | rfl | above
      · rw [if_neg (by omega), if_neg (by omega), Option.none_or, List.lookup_cons, beq_eq_false_iff_ne.mpr (by omega)]
        rfl
      · rw [if_neg (by omega), if_pos (Nat.le_refl _), Option.none_or, Nat.sub_self, List.lookup_cons, beq_self_eq_true]
        rfl
      · rw [if_pos (by omega), if_pos (Nat.le_of_lt above), show a - dest = a - (dest + 1) + 1 by omega, List.getElem?_cons_succ, List.lookup_cons,
          beq_eq_false_iff_ne.mpr (by omega)]
        simp

section Shown

variable {id top : Nat} {supply : List Nat}

theorem lazy_pages (id top : Nat) (supply : List Nat) (flags : Nat) :
    Vm.Pages (paging id top) (Consistent id top supply) (Lazy id flags) (fun m => frameAt top m.tables) spare := by
  obtain ⟨physical, injective, fix, set, memory_set, set_set, set_memory, tidy, present⟩ := paging_pages id top supply
  refine ⟨fun ok there => physical ok (lazy_served there), injective, ?_, fun memory ok => ?_, memory_set, set_set, set_memory, tidy,
    fun ok positive fits covered => present ok positive fits fun a low high => lazy_served (covered a low high)⟩
  · intro m v ok there absent spared
    obtain ⟨m', f, fixed, ok', frames, _, cost, memory⟩ := fix ok (lazy_served there) absent spared
    obtain ⟨r, member, covers, dynamic, _⟩ := there
    have space := (fix_page_keeps ok member covers dynamic fixed).space
    refine ⟨m', f, fixed, ok', frames, ?_, cost, memory⟩
    funext w
    unfold Lazy
    rw [space]
  · obtain ⟨okW, frames, _, same⟩ := set memory ok
    exact ⟨okW, frames, rfl, same⟩

-- A page that is cleared when it is brought in reads as zeroes before.
structure ShowsByte (id top : Nat) (m : Machine) (a : Nat) (byte : UInt8) : Prop where
  there : Lazy id Pmm.flagZero m a
  framed : ∀ {f}, frameAt top m.tables (a / pageGranularity) = some f → m.vm.pmm.memory (byteIn f a) = byte
  absent : frameAt top m.tables (a / pageGranularity) = none → byte = 0

theorem shows_byte_fixed {m m' : Machine} {v a : Nat} {byte : UInt8} (consistent : Consistent id top supply m) (there : Lazy id Pmm.flagZero m v)
    (absent : frameAt top m.tables (v / pageGranularity) = none) (fixed : fixPage id top m v = .ok (some m')) (shown : ShowsByte id top m a byte) :
    ShowsByte id top m' a byte := by
  obtain ⟨claimed, ledger⟩ := ledger_claim (ledger_start consistent) there absent fixed
  have cleared := claim_pages_cleared _ consistent.backing.stock ledger.claims
  refine ⟨lazy_congr ledger.space shown.there, fun {f} framed => ?_, fun missing => ?_⟩
  · rw [ledger.stored a f framed, List.lookup_nil, Option.getD_none]
    cases before : frameAt top m.tables (a / pageGranularity) with
    | none => rw [cleared.zero before framed (byte_in_page f a), shown.absent before]
    | some g =>
        obtain rfl : g = f := Option.some.inj ((cleared.kept before).symm.trans framed)
        have inUse : InUse top supply m.tables (byteIn g a / pageGranularity) := .inl ⟨_, by rw [byte_in_page]; exact before⟩
        rw [cleared.memory inUse, shown.framed before]
  · cases before : frameAt top m.tables (a / pageGranularity) with
    | none => exact shown.absent before
    | some g =>
        rw [cleared.kept before] at missing
        cases missing

theorem shows_lazily (id top : Nat) (supply : List Nat) :
    Vm.Shows (paging id top) (Consistent id top supply) (Lazy id Pmm.flagZero) (fun m => frameAt top m.tables) (ShowsByte id top) :=
  ⟨fun _ shown framed => shown.framed framed, fun ok there absent fixed shown => shows_byte_fixed ok there absent fixed shown⟩

end Shown

end Elysium.UserSpace
