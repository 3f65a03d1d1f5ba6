import Elysium.PmmPages
import Elysium.PtmSupply
import Elysium.VmPaging

set_option autoImplicit false

namespace Elysium.UserSpace

open Vm (PtmCall SpaceId Region Protection Cache Privilege AddressSpace Paging userspaceStart userspaceEnd)
open Ptm (frameAt Small)

-- One process: the regions with the requests they have made, and the page tables that carry
-- these out. alloc_page takes the pages of the tables from a supply of its own; the memory of
-- the allocator holds the frames of pages only.
structure Machine where
  vm : Vm.State
  tables : Ptm.State

section Code

variable (id top : Nat)

-- Requests for other spaces go to other tables.
def carryOut (call : PtmCall) (tables : Ptm.State) : Except Fault Ptm.State :=
  match call with
  | .map space vaddr paddr length prot cache privilege isGlobal =>
      if space = .process id then Ptm.archPtmMap top vaddr paddr length prot cache privilege isGlobal tables else .ok tables
  | .rewrite space vaddr length prot cache privilege isGlobal =>
      if space = .process id then Ptm.archPtmRewrite top vaddr length prot cache privilege isGlobal tables else .ok tables
  | .unmap space vaddr length => if space = .process id then Ptm.archPtmUnmap top vaddr length tables else .ok tables

-- Requests are kept latest first.
def carryOutAll : List PtmCall → Ptm.State → Except Fault Ptm.State
  | [], tables => .ok tables
  | call :: earlier, tables => carryOutAll earlier tables >>= carryOut id top call

def newCalls (before after : Vm.State) : List PtmCall := after.ptm.take (after.ptm.length - before.ptm.length)

def follow (m : Machine) (vm : Vm.State) : Except Fault Machine := do
  let tables ← carryOutAll id top (newCalls m.vm vm) m.tables
  .ok ⟨vm, tables⟩

def fixPage (m : Machine) (vaddr : Nat) : Except Fault (Option Machine) := do
  match ← Vm.addressSpaceFixPage (.process id) vaddr m.vm with
  | none => .ok none
  | some vm => do
      let m ← follow id top m vm
      .ok (some m)

def setMemory (m : Machine) (memory : Nat → UInt8) : Machine :=
  { m with vm := { m.vm with pmm := { m.vm.pmm with memory := memory } } }

def paging : Paging Machine where
  space m := m.vm.space (.process id)
  physical m vaddr := Ptm.archPtmPhysical top vaddr m.tables
  fixPage := fixPage id top
  memory m := m.vm.pmm.memory
  setMemory := setMemory

end Code

theorem carry_out_append (id top : Nat) (later earlier : List PtmCall) (tables : Ptm.State) :
    carryOutAll id top (later ++ earlier) tables = carryOutAll id top earlier tables >>= carryOutAll id top later := by
  induction later with
  | nil =>
      rw [List.nil_append]
      cases carryOutAll id top earlier tables with
      | error fault => rfl
      | ok tables => rfl
  | cons call later ih =>
      rw [List.cons_append, carryOutAll, ih]
      cases carryOutAll id top earlier tables with
      | error fault => rfl
      | ok tables => rfl

theorem new_calls_eq {before after : Vm.State} {calls : List PtmCall} (asked : after.ptm = calls ++ before.ptm) :
    newCalls before after = calls := by
  rw [newCalls, asked, List.length_append, Nat.add_sub_cancel, List.take_left]

-- Physical pages in use: the frames of the process, and the pages set aside for tables.
def InUse (top : Nat) (supply : List Nat) (tables : Ptm.State) (p : Nat) : Prop :=
  (∃ P, frameAt top tables P = some p) ∨ p * pageGranularity ∈ supply

-- Tables and allocator fit together: no two pages have one frame, and no frame is a table.
structure Backing (top : Nat) (supply : List Nat) (pmm : Pmm.State) (tables : Ptm.State) : Prop where
  sound : Ptm.Sound top tables
  small : Small top tables
  injective : ∀ {P Q f}, frameAt top tables P = some f → frameAt top tables Q = some f → P = Q
  stock : Pmm.Stock pmm (InUse top supply tables)
  frames : ∀ page ∈ tables.frames, page ∈ supply
  apart : ∀ {P f}, frameAt top tables P = some f → f * pageGranularity ∉ supply

section Page

variable {top v h flags : Nat} {supply : List Nat} {pmm pmm' : Pmm.State} {tables tables' : Ptm.State} {prot : Protection}
  {cache : Cache} {privilege : Privilege} {isGlobal : Bool}

-- A fresh frame is mapped at a page of the user half, whatever was there.
theorem page_backing (backing : Backing top supply pmm tables) (allocated : Pmm.pmmAllocPage flags pmm = .ok (pmm', h))
    (low : v < 2 ^ 47) (aligned : v % pageGranularity = 0)
    (mapped : Ptm.archPtmMap top v (Pmm.blockPaddr h) pageGranularity prot cache privilege isGlobal tables = .ok tables') :
    Backing top supply pmm' tables' ∧ frameAt top tables' = Function.update (frameAt top tables) (v / pageGranularity) (some h) ∧
      (∀ P, frameAt top tables P ≠ some h) ∧ tables.frames.length ≤ tables'.frames.length + 3 := by
  obtain ⟨stocked, fresh, fits⟩ := Pmm.stock_alloc backing.stock allocated
  have paddrAligned : Pmm.blockPaddr h % pageGranularity = 0 := Nat.mul_mod_left _ _
  rcases @Ptm.arch_ptm_map_page top v (Pmm.blockPaddr h) prot cache privilege isGlobal tables backing.sound backing.small low aligned
    paddrAligned fits with ⟨s', run, sound, small, frames, used, spent, few⟩ | ⟨_, failed⟩
  · obtain rfl : tables' = s' := Except.ok.inj (mapped.symm.trans run)
    have page : Pmm.blockPaddr h / pageGranularity = h := Nat.mul_div_cancel _ (by decide)
    rw [page] at frames
    have unused : ∀ P, frameAt top tables P ≠ some h := fun P at_ => fresh (.inl ⟨P, at_⟩)
    have before : ∀ {P f}, frameAt top tables' P = some f → P = v / pageGranularity ∧ f = h ∨ frameAt top tables P = some f := by
      intro P f at_
      rw [frames] at at_
      by_cases here : P = v / pageGranularity
      · rw [here, Function.update_self, Option.some.injEq] at at_
        exact .inl ⟨here, at_.symm⟩
      · rw [Function.update_of_ne here] at at_
        exact .inr at_
    have supplied : ∀ page ∈ tables'.frames, page ∈ tables.frames := fun page member => by
      rw [spent]
      exact List.mem_append_right _ member
    refine ⟨⟨sound, small, ?_, ?_, fun page member => backing.frames page (supplied page member), ?_⟩, frames, unused, ?_⟩
    · intro P Q f first second
      rcases before first with ⟨pageP, newP⟩ | oldP
      · rcases before second with ⟨pageQ, _⟩ | oldQ
        · rw [pageP, pageQ]
        · exact absurd (newP ▸ oldQ) (unused Q)
      · rcases before second with ⟨_, newQ⟩ | oldQ
        · exact absurd (newQ ▸ oldP) (unused P)
        · exact backing.injective oldP oldQ
    · refine Pmm.stock_mono stocked ?_
      rintro p (⟨P, at_⟩ | reserved)
      · rcases before at_ with ⟨_, new⟩ | old
        · exact .inr new
        · exact .inl (.inl ⟨P, old⟩)
      · exact .inl (.inr reserved)
    · intro P f at_ reserved
      rcases before at_ with ⟨_, rfl⟩ | old
      · exact fresh (.inr reserved)
      · exact backing.apart old reserved
    · rw [spent, List.length_append]
      omega
  · rw [failed] at mapped
    cases mapped

end Page

def Served (id : Nat) (m : Machine) (v : Nat) : Prop := ∃ r ∈ (m.vm.space (.process id)).regions, r.Covers v

-- A process space made of anonymous regions. What is not backed on demand has its frames.
structure Consistent (id top : Nat) (supply : List Nat) (m : Machine) : Prop where
  vm : Vm.Sound m.vm
  start : (m.vm.space (.process id)).start = userspaceStart
  limit : (m.vm.space (.process id)).limit = userspaceEnd
  home : ∀ r ∈ (m.vm.space (.process id)).regions, r.addressSpace = .process id
  anon : ∀ a v, Vm.Maps (m.vm.space (.process id)).regions a v → ∃ zeroed, v.backing = .anon zeroed
  present : ∀ a v, Vm.Maps (m.vm.space (.process id)).regions a v → v.dynamicallyBacked = false →
    ∃ f, frameAt top m.tables (a / pageGranularity) = some f
  backing : Backing top supply m.vm.pmm m.tables

theorem region_anon {r : Region} {a : Nat} (anon : ∃ zeroed, (r.at a).backing = .anon zeroed) : ∃ zeroed, r.backing = .anon zeroed := by
  obtain ⟨zeroed, shifted⟩ := anon
  change r.backing.shift (a - r.base) = .anon zeroed at shifted
  cases backing : r.backing with
  | anon zeroed => exact ⟨zeroed, rfl⟩
  | direct physicalAddress =>
      rw [backing] at shifted
      cases shifted

section Consistent

variable {id top : Nat} {supply : List Nat} {m : Machine} (consistent : Consistent id top supply m)

include consistent

theorem region_low {r : Region} (member : r ∈ (m.vm.space (.process id)).regions) : r.limit < userspaceEnd ∧ userspaceStart ≤ r.base := by
  have placed := (consistent.vm.tidy (.process id)).placed r member
  have above := placed.above
  have below := placed.below
  have base := placed.baseAligned
  have length := placed.lengthAligned
  rw [consistent.start] at above
  rw [consistent.limit] at below
  have odd : userspaceEnd % pageGranularity = 0xFFF := by decide
  unfold Region.limit at below ⊢
  unfold pageGranularity at *
  omega

theorem served_low {v : Nat} (served : Served id m v) : v < 2 ^ 47 := by
  obtain ⟨r, member, covers⟩ := served
  have bound := (region_low consistent member).1
  have stop := covers.2
  have top47 : userspaceEnd < 2 ^ 47 := by decide
  omega

theorem served_exists {address length : Nat} (positive : 0 < length)
    (covered : ∀ a, address ≤ a → a < address + length → Served id m a) :
    Vm.memoryExists (m.vm.space (.process id)) address length = .ok true := by
  obtain ⟨first, memberF, coversF⟩ := covered address (Nat.le_refl _) (by omega)
  obtain ⟨last, memberL, coversL⟩ := covered (address + length - 1) (by omega) (by omega)
  have low := (region_low consistent memberF).2
  have high := (region_low consistent memberL).1
  have start := coversF.1
  have stop := coversL.2
  refine Vm.memory_exists_true (consistent.vm.tidy (.process id)) ?_ ?_ covered
  · rw [consistent.start]
    omega
  · rw [consistent.limit]
    omega

-- Bringing in a page is one allocation and one request.
theorem fix_page_eq {v : Nat} {r : Region} (member : r ∈ (m.vm.space (.process id)).regions) (covers : r.Covers v)
    (dynamic : r.dynamicallyBacked = true) :
    fixPage id top m v = Pmm.pmmAllocPage (Vm.pageFlags r) m.vm.pmm >>= fun result =>
      Ptm.archPtmMap top (Vm.pageFloor v) (Pmm.blockPaddr result.2) pageGranularity r.protection r.cacheBehavior .user false m.tables >>=
        fun tables => .ok (some ⟨{ m.vm with pmm := result.1 }.request (.map (.process id) (Vm.pageFloor v) (Pmm.blockPaddr result.2)
          pageGranularity r.protection r.cacheBehavior .user false), tables⟩) := by
  obtain ⟨zeroed, backing⟩ := region_anon (consistent.anon v _ ⟨r, member, covers, rfl⟩)
  have found := Vm.addr_to_region_covers (consistent.vm.tidy (.process id)) member covers
  have low := served_low consistent ⟨r, member, covers⟩
  have floor : Vm.pageFloor v ≤ v := Nat.div_mul_le_self _ _
  have aligned : Vm.pageFloor v % pageGranularity = 0 := Nat.mul_mod_left _ _
  have checked : assertThat (decide (Vm.pageFloor v % pageGranularity = 0 ∧ pageGranularity % pageGranularity = 0)) = .ok () := by
    rw [assertThat, if_pos (decide_eq_true ⟨aligned, Nat.mod_self _⟩)]
  have address : add64 (Vm.pageFloor v) (0 * pageGranularity) = Vm.pageFloor v := by
    rw [Nat.zero_mul, add64_eq (show Vm.pageFloor v + 0 < 2 ^ 64 by omega), Nat.add_zero]
  have user : Vm.privilegeOf (.process id) = .user := rfl
  have notGlobal : (decide (SpaceId.process id = SpaceId.global)) = false := rfl
  have one : List.range (pageGranularity / pageGranularity) = [0] := rfl
  unfold fixPage Vm.addressSpaceFixPage
  rw [found]
  dsimp only
  rw [if_neg (not_not.mpr dynamic), Vm.regionMap, checked, bind_ok, backing]
  dsimp only
  rw [one, List.foldlM_cons]
  unfold Vm.mapAnonPage
  rw [consistent.home r member, address, user, notGlobal]
  cases Pmm.pmmAllocPage (Vm.pageFlags r) m.vm.pmm with
  | error fault => rfl
  | ok result =>
      obtain ⟨pmm, page⟩ := result
      rw [bind_ok, bind_ok]
      change (follow id top m _ >>= fun m => Except.ok (some m)) = _
      unfold follow
      rw [new_calls_eq (show _ = [PtmCall.map (.process id) (Vm.pageFloor v) (Pmm.blockPaddr page) pageGranularity r.protection
        r.cacheBehavior .user false] ++ m.vm.ptm from rfl), carryOutAll, carryOutAll, bind_ok, carryOut, if_pos rfl]
      conv_rhs => rw [bind_ok]
      dsimp only
      cases Ptm.archPtmMap top (Vm.pageFloor v) (Pmm.blockPaddr page) pageGranularity r.protection r.cacheBehavior .user false m.tables with
      | error fault => rfl
      | ok tables => rfl

-- How many more pages can be brought in: a page of the allocator and three for tables each.
def spare (m : Machine) : Nat := min (Pmm.zoneWeight m.vm.pmm .normal) (m.tables.frames.length / 3)

omit consistent in
theorem page_flags_zone (r : Region) : Pmm.allocZone (Vm.pageFlags r) = .normal := by
  unfold Vm.pageFlags
  split
  · rfl
  · rfl

-- The state with another allocator and other tables, as an allocation and a mapping leave it.
theorem consistent_page {vm : Vm.State} {tables : Ptm.State} (space : vm.space = m.vm.space) (cache : vm.cache = m.vm.cache)
    (next : vm.nextRegion = m.vm.nextRegion) (backing : Backing top supply vm.pmm tables)
    (keeps : ∀ P f, frameAt top m.tables P = some f → ∃ g, frameAt top tables P = some g) : Consistent id top supply ⟨vm, tables⟩ := by
  have sound : Vm.Sound vm :=
    ⟨Vm.owned_congr consistent.vm.owned space cache next, fun as => space ▸ consistent.vm.tidy as, fun as => space ▸ consistent.vm.aligned as⟩
  refine ⟨sound, by rw [space]; exact consistent.start, by rw [space]; exact consistent.limit, ?_, ?_, ?_, backing⟩
  · rw [space]
    exact consistent.home
  · rw [space]
    exact consistent.anon
  · rw [space]
    intro a v maps static
    obtain ⟨f, framed⟩ := consistent.present a v maps static
    exact keeps _ f framed

-- What bringing in a page has done.
structure Fixed (id top : Nat) (supply : List Nat) (v : Nat) (m m' : Machine) : Prop where
  consistent : Consistent id top supply m'
  frame : ∃ f, frameAt top m'.tables = Function.update (frameAt top m.tables) (v / pageGranularity) (some f)
  space : m'.vm.space = m.vm.space
  memory : ∀ P f o, frameAt top m.tables P = some f → o < pageGranularity →
    m'.vm.pmm.memory (f * pageGranularity + o) = m.vm.pmm.memory (f * pageGranularity + o)
  cost : spare m ≤ spare m' + 1

theorem fix_page_keeps {v : Nat} {r : Region} {m' : Machine} (member : r ∈ (m.vm.space (.process id)).regions) (covers : r.Covers v)
    (dynamic : r.dynamicallyBacked = true) (run : fixPage id top m v = .ok (some m')) : Fixed id top supply v m m' := by
  rw [fix_page_eq consistent member covers dynamic, bind_eq_ok] at run
  obtain ⟨⟨pmm, page⟩, allocated, run⟩ := run
  dsimp only at run
  rw [bind_eq_ok] at run
  obtain ⟨tables, mapped, run⟩ := run
  obtain rfl := Option.some.inj (Except.ok.inj run)
  have low := served_low consistent ⟨r, member, covers⟩
  have floor : Vm.pageFloor v ≤ v := Nat.div_mul_le_self _ _
  have onPage : Vm.pageFloor v / pageGranularity = v / pageGranularity := Nat.mul_div_cancel _ (by decide)
  obtain ⟨backing, frames, unused, few⟩ := page_backing consistent.backing allocated (Nat.lt_of_le_of_lt floor low)
    (Nat.mul_mod_left _ _) mapped
  rw [onPage] at frames
  rcases Pmm.alloc_page_weight (Vm.pageFlags r) m.vm.pmm with ⟨pmm', page', again, weight, kept⟩ | ⟨failed, _⟩
  · obtain ⟨rfl, rfl⟩ := Prod.mk.inj (Except.ok.inj (allocated.symm.trans again))
    rw [page_flags_zone] at weight
    refine ⟨consistent_page consistent rfl rfl rfl backing fun P f framed => ?_, ⟨page, frames⟩, rfl, ?_, ?_⟩
    · rw [frames]
      by_cases here : P = v / pageGranularity
      · exact ⟨page, by rw [here, Function.update_self]⟩
      · exact ⟨f, by rw [Function.update_of_ne here, framed]⟩
    · intro P f o framed small
      refine kept _ fun same => unused P ?_
      rw [← same, framed]
      unfold pageGranularity at small ⊢
      congr 1
      omega
    · unfold spare
      change min (Pmm.zoneWeight m.vm.pmm .normal) (m.tables.frames.length / 3) ≤
        min (Pmm.zoneWeight pmm .normal) (tables.frames.length / 3) + 1
      omega
  · rw [failed] at allocated
    cases allocated

-- Bringing in a page takes a free page for it, and one for each table that is missing on the way.
theorem fix_page_supply {v : Nat} {r : Region} (member : r ∈ (m.vm.space (.process id)).regions) (covers : r.Covers v)
    (dynamic : r.dynamicallyBacked = true) :
    (∃ u, fixPage id top m v = .ok (some u) ∧ Pmm.zoneWeight u.vm.pmm .normal + 1 = Pmm.zoneWeight m.vm.pmm .normal ∧
        m.tables.frames.length = u.tables.frames.length + (Ptm.stopLevel m.tables.memory top (Vm.pageFloor v) - 1) ∧
        ∀ w k, 1 ≤ k → k < Ptm.levelCount → (Ptm.stopLevel u.tables.memory top w ≤ k ↔
          Ptm.stopLevel m.tables.memory top w ≤ k ∨ Ptm.SameSlot (k + 1) (Vm.pageFloor v) w)) ∨
      ((Pmm.zoneWeight m.vm.pmm .normal = 0 ∨ m.tables.frames.length < Ptm.stopLevel m.tables.memory top (Vm.pageFloor v) - 1) ∧
        ∃ fault, fixPage id top m v = .error fault) := by
  have low := served_low consistent ⟨r, member, covers⟩
  have floor : Vm.pageFloor v ≤ v := Nat.div_mul_le_self _ _
  rw [fix_page_eq consistent member covers dynamic]
  rcases Pmm.alloc_page_weight (Vm.pageFlags r) m.vm.pmm with ⟨pmm, page, allocated, weight, _⟩ | ⟨failed, none⟩
  · rw [page_flags_zone] at weight
    obtain ⟨_, _, fits⟩ := Pmm.stock_alloc consistent.backing.stock allocated
    rw [allocated, bind_ok]
    dsimp only
    rcases @Ptm.arch_ptm_map_supply top (Vm.pageFloor v) r.protection .user m.tables (Pmm.blockPaddr page) r.cacheBehavior false
      consistent.backing.sound consistent.backing.small (Nat.lt_of_le_of_lt floor low) (Nat.mul_mod_left _ _) (Nat.mul_mod_left _ _)
      fits with ⟨tables, mapped, spent, stops⟩ | ⟨short, failed⟩
    · rw [mapped, bind_ok]
      exact .inl ⟨_, rfl, weight, spent, stops⟩
    · rw [failed]
      exact .inr ⟨.inr short, _, rfl⟩
  · rw [page_flags_zone] at none
    rw [failed]
    exact .inr ⟨.inl none, _, rfl⟩

theorem fix_page_returns {v : Nat} {r : Region} (member : r ∈ (m.vm.space (.process id)).regions) (covers : r.Covers v)
    (dynamic : r.dynamicallyBacked = true) (spared : 0 < spare m) : ∃ m', fixPage id top m v = .ok (some m') := by
  unfold spare at spared
  rcases fix_page_supply consistent member covers dynamic with ⟨u, run, _⟩ | ⟨short, _⟩
  · exact ⟨u, run⟩
  · have bound : Ptm.stopLevel m.tables.memory top (Vm.pageFloor v) ≤ 4 := (Ptm.stop_level_bounds _ _ _).2
    omega

-- What is in a region and has no frame is backed on demand.
theorem lazily_backed {v : Nat} (served : Served id m v) (absent : frameAt top m.tables (v / pageGranularity) = none) :
    ∃ r ∈ (m.vm.space (.process id)).regions, r.Covers v ∧ r.dynamicallyBacked = true := by
  obtain ⟨r, member, covers⟩ := served
  refine ⟨r, member, covers, ?_⟩
  by_contra static
  obtain ⟨f, framed⟩ := consistent.present v _ ⟨r, member, covers, rfl⟩ (Bool.eq_false_iff.mpr static)
  rw [framed] at absent
  cases absent

theorem set_memory_keeps (memory : Nat → UInt8) : Consistent id top supply (setMemory m memory) := by
  obtain ⟨sound, small, injective, stock, frames, apart⟩ := consistent.backing
  exact consistent_page consistent rfl rfl rfl ⟨sound, small, injective, Pmm.stock_memory stock memory, frames, apart⟩ fun P f framed => ⟨f, framed⟩

end Consistent

-- The copies see a paged space.
theorem paging_pages (id top : Nat) (supply : List Nat) :
    Vm.Pages (paging id top) (Consistent id top supply) (Served id) (fun m => frameAt top m.tables) spare := by
  refine ⟨?_, fun ok first second => ok.backing.injective first second, ?_, ?_, fun _ _ => rfl, fun _ _ _ => rfl, fun _ => rfl,
    fun ok => ok.vm.tidy _, fun ok positive _ covered => served_exists ok positive covered⟩
  · intro m v ok served
    have low := served_low ok served
    change Ptm.archPtmPhysical top v m.tables = _
    rw [Ptm.arch_ptm_physical_walk ok.backing.sound low (ok.backing.small v low), Ptm.walk_in_page ok.backing.sound ok.backing.small low]
    rfl
  · intro m v ok served unframed spared
    obtain ⟨r, member, covers, dynamic⟩ := lazily_backed ok served unframed
    obtain ⟨m', run⟩ := fix_page_returns ok member covers dynamic spared
    have fixed := fix_page_keeps ok member covers dynamic run
    obtain ⟨f, frames⟩ := fixed.frame
    refine ⟨m', f, run, fixed.consistent, frames, ?_, fixed.cost, fixed.memory⟩
    funext w
    unfold Served
    rw [fixed.space]
  · intro m memory ok
    exact ⟨set_memory_keeps ok memory, rfl, rfl, rfl⟩

end Elysium.UserSpace
