import Elysium.UserUnmap
import Elysium.PtmBuilt
import Elysium.PmmSafety

set_option autoImplicit false

namespace Elysium.UserSpace

open Vm (PtmCall SpaceId Region Protection Cache Privilege AddressSpace Paging userspaceStart userspaceEnd)
open Ptm (frameAt Small)
open Transitions (Reachable)

-- What happens to the space: calls on it, faults of the program, its stores to pages it has, the
-- copies, and pages taken by others.
inductive Action where
  | mapAnon (hint length : Nat) (prot : Protection) (cache : Cache) (flags : Nat)
  | unmap (address length : Nat)
  | fault (vaddr : Nat)
  | store (vaddr : Nat) (byte : UInt8)
  | copyTo (dest : Nat) (src : List UInt8) (count : Nat)
  | copyFrom (source count : Nat)
  | take (flags : Nat)

section Runs

variable (id top : Nat)

def Action.run (m : Machine) : Action → Except Fault Machine
  | .mapAnon hint length prot cache flags => do
      let (vm, _) ← Vm.vmMapAnon (.process id) hint length prot cache flags m.vm
      follow id top m vm
  | .unmap address length => do
      let vm ← Vm.vmUnmap (.process id) address length m.vm
      follow id top m vm
  | .fault vaddr => do
      match ← fixPage id top m vaddr with
      | none => .error (.panic "VM" "vm_fault_soft handling failed")
      | some m => .ok m
  | .store vaddr byte => do
      match ← Ptm.archPtmPhysical top vaddr m.tables with
      | none => .ok m
      | some phys => .ok (setMemory m (Vm.copyIn m.vm.pmm.memory phys [byte]))
  | .copyTo dest src count => do
      let (m, _) ← Vm.vmCopyTo (paging id top) dest src count m
      .ok m
  | .copyFrom source count => do
      let (m, _) ← Vm.vmCopyFrom (paging id top) source count m
      .ok m
  | .take flags => do
      let (pmm, _) ← Pmm.pmmAllocPage flags m.vm.pmm
      .ok { m with vm := { m.vm with pmm := pmm } }

def step (action : Action) (m : Machine) : Option Machine := (action.run id top m).toOption

-- A new process: nothing is mapped in the user half, and the pages set aside for its tables are
-- not free.
structure Started (supply : List Nat) (m : Machine) : Prop where
  vm : Vm.Sound m.vm
  empty : (m.vm.space (.process id)).regions = []
  start : (m.vm.space (.process id)).start = userspaceStart
  limit : (m.vm.space (.process id)).limit = userspaceEnd
  tables : Ptm.Sound top m.tables
  bare : ∀ v < 2 ^ 47, Ptm.walk m.tables.memory top v = none
  frames : ∀ page ∈ m.tables.frames, page ∈ supply
  stock : Pmm.Stock m.vm.pmm (fun p => p * pageGranularity ∈ supply)

end Runs

section Invariant

variable {id top : Nat} {supply : List Nat} {m m' : Machine}

theorem started_consistent (started : Started id top supply m) : Consistent id top supply m := by
  have unframed : ∀ P f, frameAt top m.tables P ≠ some f := by
    intro P f framed
    unfold frameAt at framed
    split at framed
    · rename_i low
      rw [started.bare _ low] at framed
      cases framed
    · cases framed
  have unmapped : ∀ a v, ¬ Vm.Maps (m.vm.space (.process id)).regions a v := by
    rintro a v ⟨r, member, _⟩
    rw [started.empty] at member
    cases member
  refine ⟨started.vm, started.start, started.limit, ?_, fun a v maps => absurd maps (unmapped a v),
    fun a v maps => absurd maps (unmapped a v), started.tables, ?_, fun first => absurd first (unframed _ _), ?_, started.frames,
    fun first => absurd first (unframed _ _)⟩
  · rw [started.empty]
    exact fun r member => absurd member List.not_mem_nil
  · intro a low T walked
    rw [started.bare a low] at walked
    cases walked
  · refine Pmm.stock_mono started.stock ?_
    rintro p (⟨P, framed⟩ | reserved)
    · exact absurd framed (unframed P p)
    · exact reserved

theorem fix_page_region (consistent : Consistent id top supply m) {v : Nat} (run : fixPage id top m v = .ok (some m')) :
    ∃ r ∈ (m.vm.space (.process id)).regions, r.Covers v ∧ r.dynamicallyBacked = true := by
  unfold fixPage Vm.addressSpaceFixPage at run
  cases found : Vm.addrToRegion (m.vm.space (.process id)) v with
  | none =>
      rw [found] at run
      cases run
  | some r =>
      obtain ⟨member, covers⟩ := Vm.addr_to_region_some (consistent.vm.tidy _) found
      refine ⟨r, member, covers, ?_⟩
      by_contra static
      rw [found] at run
      dsimp only at run
      rw [if_pos static] at run
      cases run

theorem fix_page_consistent (consistent : Consistent id top supply m) {v : Nat} (run : fixPage id top m v = .ok (some m')) :
    Consistent id top supply m' := by
  obtain ⟨r, member, covers, dynamic⟩ := fix_page_region consistent run
  exact (fix_page_keeps consistent member covers dynamic run).consistent

theorem take_keeps (consistent : Consistent id top supply m) {flags page : Nat} {pmm : Pmm.State}
    (allocated : Pmm.pmmAllocPage flags m.vm.pmm = .ok (pmm, page)) :
    Consistent id top supply { m with vm := { m.vm with pmm := pmm } } := by
  obtain ⟨sound, small, injective, stock, frames, apart⟩ := consistent.backing
  obtain ⟨stocked, _, _⟩ := Pmm.stock_alloc stock allocated
  exact consistent_page consistent rfl rfl rfl ⟨sound, small, injective, Pmm.stock_mono stocked fun p => .inl, frames, apart⟩
    fun P f framed => ⟨f, framed⟩

theorem action_keeps (consistent : Consistent id top supply m) (action : Action) (run : action.run id top m = .ok m') :
    Consistent id top supply m' := by
  cases action with
  | mapAnon hint length prot cache flags =>
      rw [Action.run, bind_eq_ok] at run
      obtain ⟨⟨vm, address⟩, mapped, followed⟩ := run
      exact map_anon_keeps consistent mapped followed
  | unmap address length =>
      rw [Action.run, bind_eq_ok] at run
      obtain ⟨vm, unmapped, followed⟩ := run
      exact unmap_keeps consistent unmapped followed
  | fault vaddr =>
      rw [Action.run, bind_eq_ok] at run
      obtain ⟨result, fixed, run⟩ := run
      cases result with
      | none => cases run
      | some next =>
          obtain rfl := Except.ok.inj run
          exact fix_page_consistent consistent fixed
  | store vaddr byte =>
      rw [Action.run, bind_eq_ok] at run
      obtain ⟨phys, _, run⟩ := run
      cases phys with
      | none =>
          obtain rfl := Except.ok.inj run
          exact consistent
      | some phys =>
          obtain rfl := Except.ok.inj run
          exact set_memory_keeps consistent _
  | copyTo dest src count =>
      rw [Action.run, bind_eq_ok] at run
      obtain ⟨⟨next, k⟩, copied, run⟩ := run
      obtain rfl := Except.ok.inj run
      exact Vm.vm_copy_to_keeps (g := paging id top) (fun ok fixed => fix_page_consistent ok fixed) (fun memory ok => set_memory_keeps ok memory)
        consistent copied
  | copyFrom source count =>
      rw [Action.run, bind_eq_ok] at run
      obtain ⟨result, copied, run⟩ := run
      obtain rfl := Except.ok.inj run
      exact Vm.vm_copy_from_keeps (g := paging id top) (fun ok fixed => fix_page_consistent ok fixed) consistent copied
  | take flags =>
      rw [Action.run, bind_eq_ok] at run
      obtain ⟨⟨pmm, page⟩, allocated, run⟩ := run
      obtain rfl := Except.ok.inj run
      exact take_keeps consistent allocated

theorem reachable_consistent (reach : Reachable (Started id top supply) (step id top) m) : Consistent id top supply m := by
  have keeps : ∀ action m m', Consistent id top supply m → step id top action m = some m' → Consistent id top supply m' := by
    intro action m m' consistent taken
    unfold step at taken
    cases run : action.run id top m with
    | error fault =>
        rw [run] at taken
        cases taken
    | ok next =>
        rw [run] at taken
        obtain rfl := Option.some.inj taken
        exact action_keeps consistent action run
  exact Transitions.reachable_invariant (fun m => started_consistent) keeps reach

end Invariant

section Copies

variable {id top : Nat} {supply : List Nat}

-- The byte a program of the process reads at an address, where its page is there.
def seen (id top : Nat) (m : Machine) (v : Nat) : Option UInt8 := Vm.userByte (paging id top) (fun m => frameAt top m.tables) m v

-- The pages of the range that are not there yet can all be brought in.
def Affordable (top dest count : Nat) (m : Machine) : Prop :=
  Vm.Affords (fun m => frameAt top m.tables) spare (dest / pageGranularity) ((dest + count - 1) / pageGranularity) m

-- The pieces lie in the range, and every byte of it lies in one of them.
structure Split (dest : Nat) (src : List UInt8) (pieces : List (Nat × List UInt8)) : Prop where
  parts : ∀ piece ∈ pieces, Vm.PieceOf dest src piece
  whole : ∀ k < src.length, ∃ piece ∈ pieces, piece.1 ≤ dest + k ∧ dest + k < piece.1 + piece.2.length

-- Four pages across the border of the zones: three are set aside for tables, one is free.
def tablePages : List Nat := [0xFFF000, 0x1000000, 0x1002000]

def onePageFree : Pmm.State :=
  (Pmm.pmmRegionAdd Pmm.boundaryRegion.base Pmm.boundaryRegion.size false Pmm.blankState >>= Pmm.pmmFree 0x1001).toOption.getD Pmm.blankState

def freshMachine : Machine := ⟨{ Vm.freshState [6, 7, 8] with pmm := onePageFree }, Ptm.blankState tablePages⟩

theorem fresh_machine_started : Started 0 0x1000 tablePages freshMachine ∧ 0 < Pmm.zoneWeight onePageFree .normal := by
  have booted := Pmm.Reachable.boot Pmm.blankState rfl
  obtain ⟨s, added, _⟩ := Pmm.region_add_returns Pmm.boundaryRegion Pmm.blankState fun _ => ⟨rfl, rfl⟩
  have filled := Pmm.Reachable.regionAdd _ Pmm.boundaryRegion s booted (by simp) added
  obtain ⟨layout, inv⟩ := Pmm.reachable_inv _ filled
  have live : ⟨0x1001, 0, .normal⟩ ∈ Pmm.regionBlocks Pmm.boundaryRegion ++ [] := by decide
  have held := ((inv.live _).mp live).1
  obtain ⟨pmm, _, freed, _, _, _, _, _, _, _, weights⟩ := Pmm.pmm_free_spec inv.tracks inv.canonical 0 0x1001 held
  obtain ⟨next, inv'⟩ := Pmm.free_inv inv _ live pmm freed
  have computed : onePageFree = pmm := by
    rw [onePageFree, added, bind_ok, freed]
    rfl
  have blank : Ptm.Blank 0x1000 (Ptm.blankState tablePages) := ⟨by decide, fun _ _ => rfl, by decide, by decide, by decide⟩
  have sound := Vm.started_sound (Vm.fresh_started [6, 7, 8] (by decide) (by decide))
  refine ⟨⟨⟨Vm.owned_congr sound.owned rfl rfl rfl, sound.tidy, sound.aligned⟩, rfl, rfl, rfl, Ptm.blank_sound blank,
    fun v _ => Ptm.blank_walk blank v, fun page member => member, ?_⟩, ?_⟩
  · change Pmm.Stock onePageFree _
    rw [computed]
    have left : (Pmm.regionBlocks Pmm.boundaryRegion ++ []).erase ⟨0x1001, 0, .normal⟩ =
        [⟨0xFFF, 0, .low⟩, ⟨0x1000, 0, .normal⟩, ⟨0x1002, 0, .normal⟩] := by decide
    refine ⟨[Pmm.boundaryRegion], _, next, inv', ?_, fun p reserved => ?_⟩
    · intro r member
      obtain rfl := List.mem_singleton.mp member
      decide
    · change ∃ b ∈ (Pmm.regionBlocks Pmm.boundaryRegion ++ []).erase ⟨0x1001, 0, .normal⟩, b.Covers p
      rw [left]
      have page : p = 0xFFF ∨ p = 0x1000 ∨ p = 0x1002 := by
        unfold tablePages pageGranularity at reserved
        simp only [List.mem_cons, List.not_mem_nil, or_false] at reserved
        omega
      rcases page with rfl | rfl | rfl
      · exact ⟨⟨0xFFF, 0, .low⟩, by decide, by decide, by decide⟩
      · exact ⟨⟨0x1000, 0, .normal⟩, by decide, by decide, by decide⟩
      · exact ⟨⟨0x1002, 0, .normal⟩, by decide, by decide, by decide⟩
  · have normal : Pmm.holder 0x1001 = .normal := by decide
    have weight := weights .normal
    rw [normal, if_pos rfl] at weight
    rw [computed]
    omega

end Copies

end Elysium.UserSpace
