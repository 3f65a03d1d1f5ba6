import Elysium.UserRequests
import Elysium.VmScratch

set_option autoImplicit false

namespace Elysium.UserSpace

open Vm (PtmCall SpaceId Region Protection Cache Privilege AddressSpace userspaceStart userspaceEnd)
open Ptm (frameAt)
open UserRequests (freePages)

def unhandledException : Fault := .panic "EXCEPTION" "Unhandled Exception"

-- The kernel's own accesses go through the mappings of the global space. vm_fault does not bring in pages there.
def kernelStore : Nat → List UInt8 → Machine → Except Fault Machine
  | _, [], m => .ok m
  | address, byte :: rest, m =>
      match UserRequests.translate .global address m.vm.ptm with
      | none => .error unhandledException
      | some phys => kernelStore (add64 address 1) rest (setMemory m (Vm.copyIn m.vm.pmm.memory phys [byte]))

def kernelLoad : Nat → Nat → Machine → Except Fault (List UInt8)
  | _, 0, _ => .ok []
  | address, count + 1, m =>
      match UserRequests.translate .global address m.vm.ptm with
      | none => .error unhandledException
      | some phys => do
          let rest ← kernelLoad (add64 address 1) count m
          .ok (m.vm.pmm.memory phys :: rest)

section Accesses

variable {m : Machine} {phys : Nat → Nat}

theorem kernel_store_spec {address : Nat} (bytes : List UInt8) (fits : address + bytes.length < 2 ^ 64)
    (there : ∀ k < bytes.length, UserRequests.translate .global (address + k) m.vm.ptm = some (phys k))
    (distinct : ∀ j < bytes.length, ∀ k < bytes.length, phys j = phys k → j = k) :
    ∃ memory, kernelStore address bytes m = .ok (setMemory m memory) ∧
      (∀ k, (short : k < bytes.length) → memory (phys k) = bytes[k]) ∧
      ∀ x, (∀ k < bytes.length, phys k ≠ x) → memory x = m.vm.pmm.memory x := by
  induction bytes generalizing address phys m with
  | nil => exact ⟨m.vm.pmm.memory, rfl, fun k short => absurd short (Nat.not_lt_zero _), fun x _ => rfl⟩
  | cons byte rest ih =>
      rw [List.length_cons] at fits there distinct
      have first := there 0 (Nat.succ_pos _)
      rw [Nat.add_zero] at first
      obtain ⟨memory, run, here, elsewhere⟩ := ih (m := setMemory m (Vm.copyIn m.vm.pmm.memory (phys 0) [byte]))
        (by omega : address + 1 + rest.length < 2 ^ 64)
        (fun k short => by
          rw [show address + 1 + k = address + (k + 1) by omega]
          exact there (k + 1) (Nat.succ_lt_succ short))
        fun j shortJ k shortK same => Nat.succ.inj (distinct _ (Nat.succ_lt_succ shortJ) _ (Nat.succ_lt_succ shortK) same)
      refine ⟨memory, ?_, fun k short => ?_, fun x outside => ?_⟩
      · rw [kernelStore, first]
        dsimp only
        rw [add64_eq (by omega), run]
        rfl
      · cases k with
        | zero =>
            rw [elsewhere]
            · change Vm.copyIn m.vm.pmm.memory (phys 0) [byte] (phys 0) = byte
              simp [Vm.copyIn]
            · intro k short clash
              exact absurd (distinct _ (Nat.succ_lt_succ short) _ (Nat.succ_pos _) clash) (Nat.succ_ne_zero k)
        | succ k => exact here k (Nat.lt_of_succ_lt_succ short)
      · rw [elsewhere x fun k short => outside (k + 1) (Nat.succ_lt_succ short)]
        change Vm.copyIn m.vm.pmm.memory (phys 0) [byte] x = m.vm.pmm.memory x
        rw [Vm.copyIn, if_neg]
        rintro ⟨low, high⟩
        rw [List.length_singleton] at high
        exact outside 0 (Nat.succ_pos _) (by omega)

theorem kernel_load_spec {address : Nat} (bytes : List UInt8) (fits : address + bytes.length < 2 ^ 64)
    (there : ∀ k < bytes.length, UserRequests.translate .global (address + k) m.vm.ptm = some (phys k))
    (holds : ∀ k, (short : k < bytes.length) → m.vm.pmm.memory (phys k) = bytes[k]) :
    kernelLoad address bytes.length m = .ok bytes := by
  induction bytes generalizing address phys with
  | nil => rfl
  | cons byte rest ih =>
      rw [List.length_cons] at fits there
      have first := there 0 (Nat.succ_pos _)
      rw [Nat.add_zero] at first
      have later := ih (by omega : address + 1 + rest.length < 2 ^ 64)
        (fun k short => by
          rw [show address + 1 + k = address + (k + 1) by omega]
          exact there (k + 1) (Nat.succ_lt_succ short))
        fun k short => holds (k + 1) (Nat.succ_lt_succ short)
      have byteAt : m.vm.pmm.memory (phys 0) = byte := holds 0 (Nat.succ_pos _)
      rw [List.length_cons, kernelLoad, first]
      dsimp only
      rw [add64_eq (by omega), later, bind_ok, byteAt]

end Accesses

-- What mapping these pages of a range in the global space does: every one gets a frame of its own.
structure FramedPages (address : Nat) (pages : List Nat) (used : Nat → Prop) (s u : Vm.State) (frame : Nat → Nat) : Prop where
  stock : Pmm.Stock u.pmm fun p => used p ∨ ∃ i ∈ pages, frame i = p
  memory : u.pmm.memory = s.pmm.memory
  fresh : ∀ i ∈ pages, ¬ used (frame i)
  distinct : ∀ i ∈ pages, ∀ j ∈ pages, frame i = frame j → i = j
  here : ∀ i ∈ pages, ∀ o < pageGranularity,
    UserRequests.translate .global (address + i * pageGranularity + o) u.ptm = some (frame i * pageGranularity + o)
  elsewhere : ∀ a, (∀ i ∈ pages, ¬ (address + i * pageGranularity ≤ a ∧ a < address + i * pageGranularity + pageGranularity)) →
    UserRequests.translate .global a u.ptm = UserRequests.translate .global a s.ptm
  log : ∃ calls, u.ptm = calls ++ s.ptm ∧ ∀ call ∈ calls, target call = .global
  weight : freePages u + pages.length = freePages s

section Pages

variable {region : Region} {address : Nat}

theorem map_pages_frames (home : region.addressSpace = .global) (plain : Vm.pageFlags region = 0) (pages : List Nat) (nodup : pages.Nodup)
    {used : Nat → Prop} {s u : Vm.State} (stock : Pmm.Stock s.pmm used) (fits : ∀ i ∈ pages, address + i * pageGranularity < 2 ^ 64)
    (run : pages.foldlM (Vm.mapAnonPage region address) s = .ok u) : ∃ frame, FramedPages address pages used s u frame := by
  induction pages generalizing s used with
  | nil =>
      obtain rfl := Except.ok.inj run
      refine ⟨id, Pmm.stock_mono stock fun p either => either.resolve_right ?_, rfl, ?_, ?_, ?_, fun a _ => rfl,
        ⟨[], rfl, fun call member => absurd member List.not_mem_nil⟩, rfl⟩
      · rintro ⟨i, member, _⟩
        cases member
      · exact fun i member => absurd member List.not_mem_nil
      · exact fun i member => absurd member List.not_mem_nil
      · exact fun i member => absurd member List.not_mem_nil
  | cons i rest ih =>
      rw [List.nodup_cons] at nodup
      rw [List.foldlM_cons, bind_eq_ok] at run
      obtain ⟨w, first, run⟩ := run
      unfold Vm.mapAnonPage at first
      rw [plain, bind_eq_ok] at first
      obtain ⟨⟨pmm, h⟩, allocated, first⟩ := first
      dsimp only at first
      have bound := fits i List.mem_cons_self
      rw [add64_eq bound, home] at first
      obtain rfl := Except.ok.inj first
      obtain ⟨stocked, fresh, _⟩ := Pmm.stock_alloc stock allocated
      have memory : pmm.memory = s.pmm.memory := (Pmm.alloc_page_memory allocated).1
      have weight : Pmm.zoneWeight pmm .normal + 1 = Pmm.zoneWeight s.pmm .normal := by
        rcases Pmm.alloc_page_weight 0 s.pmm with ⟨pmm', h', again, weight, _⟩ | ⟨failed, _⟩
        · obtain ⟨rfl, rfl⟩ := Prod.mk.inj (Except.ok.inj (allocated.symm.trans again))
          exact weight
        · rw [failed] at allocated
          cases allocated
      obtain ⟨frame, framed⟩ := ih nodup.2 stocked (fun j member => fits j (List.mem_cons_of_mem _ member)) run
      have other : ∀ j ∈ rest, j ≠ i := by
        rintro j member rfl
        exact nodup.1 member
      have own : Function.update frame i h i = h := Function.update_self _ _ _
      have kept : ∀ j ∈ rest, Function.update frame i h j = frame j := fun j member => Function.update_of_ne (other j member) _ _
      refine ⟨Function.update frame i h, ?_, framed.memory.trans memory, ?_, ?_, ?_, ?_, ?_, ?_⟩
      · refine Pmm.stock_mono framed.stock ?_
        rintro p (before | ⟨j, member, same⟩)
        · exact .inl (.inl before)
        · rcases List.mem_cons.mp member with rfl | later
          · rw [own] at same
            exact .inl (.inr same.symm)
          · rw [kept j later] at same
            exact .inr ⟨j, later, same⟩
      · intro j member
        rcases List.mem_cons.mp member with rfl | later
        · rw [own]
          exact fresh
        · rw [kept j later]
          exact fun before => framed.fresh j later (.inl before)
      · have apart : ∀ j ∈ rest, frame j ≠ h := fun j member clash => framed.fresh j member (.inr clash)
        intro j memberJ k memberK same
        rcases List.mem_cons.mp memberJ with rfl | laterJ
        · rcases List.mem_cons.mp memberK with rfl | laterK
          · rfl
          · rw [own, kept k laterK] at same
            exact absurd same.symm (apart k laterK)
        · rcases List.mem_cons.mp memberK with rfl | laterK
          · rw [own, kept j laterJ] at same
            exact absurd same (apart j laterJ)
          · rw [kept j laterJ, kept k laterK] at same
            exact framed.distinct j laterJ k laterK same
      · intro j member o small
        rcases List.mem_cons.mp member with rfl | later
        · rw [own, framed.elsewhere]
          · change UserRequests.translate .global _ (PtmCall.map _ _ _ _ _ _ _ _ :: _) = _
            rw [UserRequests.translate, if_pos ⟨rfl, by omega, by omega⟩]
            rw [Nat.add_sub_cancel_left]
            rfl
          · intro k inRest inside
            have different := other k inRest
            unfold pageGranularity at *
            omega
        · rw [kept j later]
          exact framed.here j later o small
      · intro a outside
        rw [framed.elsewhere a fun j member => outside j (List.mem_cons_of_mem _ member)]
        change UserRequests.translate .global _ (PtmCall.map _ _ _ _ _ _ _ _ :: _) = _
        rw [UserRequests.translate, if_neg fun both => outside i List.mem_cons_self both.2]
      · obtain ⟨calls, asked, aimed⟩ := framed.log
        refine ⟨calls ++ [_], by rw [asked, List.append_assoc]; rfl, fun call member => ?_⟩
        rcases List.mem_append.mp member with later | own
        · exact aimed call later
        · rw [List.mem_singleton.mp own]
          rfl
      · have later := framed.weight
        unfold freePages at later ⊢
        rw [List.length_cons]
        dsimp only [Vm.State.request] at later
        omega

end Pages

-- Bytes that the kernel stores in pages of its own, and reads back.
theorem framed_stored {address pages : Nat} {used : Nat → Prop} {s : Vm.State} {frame : Nat → Nat} {m : Machine}
    (framed : FramedPages address (List.range pages) used s m.vm frame) (bytes : List UInt8) (short : bytes.length ≤ pages * pageGranularity)
    (fits : address + pages * pageGranularity < 2 ^ 64) :
    ∃ memory, kernelStore address bytes m = .ok (setMemory m memory) ∧ kernelLoad address bytes.length (setMemory m memory) = .ok bytes ∧
      ∀ x, used (x / pageGranularity) → memory x = m.vm.pmm.memory x := by
  have onPage : ∀ k < bytes.length, k / pageGranularity ∈ List.range pages := fun k below => by
    rw [List.mem_range, Nat.div_lt_iff_lt_mul (by decide)]
    omega
  have small : ∀ k, k % pageGranularity < pageGranularity := fun k => Nat.mod_lt _ (by decide)
  have page : ∀ f k, (f * pageGranularity + k % pageGranularity) / pageGranularity = f := fun f k => by
    unfold pageGranularity
    omega
  have there : ∀ k < bytes.length,
      UserRequests.translate .global (address + k) m.vm.ptm =
        some (frame (k / pageGranularity) * pageGranularity + k % pageGranularity) := by
    intro k below
    have here := framed.here _ (onPage k below) _ (small k)
    rw [Nat.add_assoc, Nat.div_add_mod'] at here
    exact here
  obtain ⟨memory, stored, here, elsewhere⟩ := kernel_store_spec
    bytes (by omega) there fun j belowJ k belowK same => by
      have pages := congrArg (· / pageGranularity) same
      rw [page, page] at pages
      have index := framed.distinct _ (onPage j belowJ) _ (onPage k belowK) pages
      rw [pages] at same
      have offset := Nat.add_left_cancel same
      rw [← Nat.div_add_mod' j pageGranularity, ← Nat.div_add_mod' k pageGranularity, index, offset]
  refine ⟨memory, stored, kernel_load_spec bytes (by omega) there here, fun x isUsed => elsewhere x fun k below clash => ?_⟩
  rw [← clash, page] at isUsed
  exact framed.fresh _ (onPage k below) isUsed

-- The global space as it is set up, with regions of its own only.
structure KernelSpace (s : Vm.State) : Prop where
  start : (s.space .global).start = Vm.kernelspaceStart
  home : ∀ r ∈ (s.space .global).regions, r.addressSpace = .global

-- A run of n free pages.
structure FreeRun (space : AddressSpace) (n a : Nat) : Prop where
  aligned : a % pageGranularity = 0
  above : space.start ≤ a
  below : a + n * pageGranularity ≤ space.limit
  free : ∀ x v, a ≤ x → x < a + n * pageGranularity → ¬ Vm.Maps space.regions x v

def Roomy (space : AddressSpace) (n : Nat) : Prop := ∃ a, FreeRun space n a

-- The mappings of the global space and their frames are the same, and no page is there that was not.
structure SameMap (s u : Vm.State) : Prop where
  maps : ∀ a v, Vm.Maps (u.space .global).regions a v ↔ Vm.Maps (s.space .global).regions a v
  frames : ∀ a v, Vm.Maps (s.space .global).regions a v →
    UserRequests.translate .global a u.ptm = UserRequests.translate .global a s.ptm
  entries : ∀ a phys, UserRequests.translate .global a u.ptm = some phys → UserRequests.translate .global a s.ptm = some phys

theorem same_map_refl (s : Vm.State) : SameMap s s := ⟨fun _ _ => Iff.rfl, fun _ _ _ => rfl, fun _ _ => id⟩

theorem same_map_trans {s t u : Vm.State} (first : SameMap s t) (second : SameMap t u) : SameMap s u :=
  ⟨fun a v => (second.maps a v).trans (first.maps a v),
    fun a v maps => (second.frames a v ((first.maps a v).mpr maps)).trans (first.frames a v maps),
    fun a phys there => first.entries a phys (second.entries a phys there)⟩

section Room

variable {space space' : AddressSpace} {n : Nat}

theorem roomy_mono {k : Nat} (roomy : Roomy space n) (less : k ≤ n) : Roomy space k := by
  obtain ⟨a, aligned, above, below, free⟩ := roomy
  have shorter := Nat.mul_le_mul_right pageGranularity less
  exact ⟨a, aligned, above, by omega, fun x v low high => free x v low (by omega)⟩

theorem roomy_congr (roomy : Roomy space n) (start : space'.start = space.start) (limit : space'.limit = space.limit)
    (maps : ∀ a v, Vm.Maps space'.regions a v ↔ Vm.Maps space.regions a v) : Roomy space' n := by
  obtain ⟨a, aligned, above, below, free⟩ := roomy
  exact ⟨a, aligned, start ▸ above, limit ▸ below, fun x v low high mapped => free x v low high ((maps x v).mp mapped)⟩

theorem free_run_hole (tidy : Vm.Tidy space) {length a : Nat} (run : FreeRun space n a) (positive : 0 < length)
    (fits : length ≤ n * pageGranularity) : Vm.Hole space length a := by
  have above := run.above
  have below := run.below
  refine ⟨(Vm.segment_in_bounds_iff _ _ _ _ tidy.fits).mpr ⟨above, by omega, by omega⟩, fun r member => ?_⟩
  by_contra touches
  rw [not_or] at touches
  have nonempty := (tidy.placed r member).nonempty
  have size : r.limit = r.base + r.length := rfl
  -- The first address that both have.
  have covers : r.Covers (max a r.base) := ⟨Nat.le_max_right _ _, by omega⟩
  exact run.free (max a r.base) (r.at (max a r.base)) (Nat.le_max_left _ _) (by omega) ⟨r, member, covers, rfl⟩

end Room

-- What taking a region structure has done, with n of the free pages of the global space left.
structure Pooled (n : Nat) (used : Nat → Prop) (s t : Vm.State) (rid : Nat) : Prop where
  owned : Vm.Owned t [rid]
  step : Vm.PoolStep s t
  hosts : Vm.Hosts t
  kernel : KernelSpace t
  roomy : Roomy (t.space .global) n
  stock : Pmm.Stock t.pmm used
  memory : ∀ x, used (x / pageGranularity) → t.pmm.memory x = s.pmm.memory x
  log : ∃ calls, t.ptm = calls ++ s.ptm ∧ ∀ call ∈ calls, target call = .global
  weight : freePages s ≤ freePages t + 1
  frames : ∀ a v, Vm.Maps (s.space .global).regions a v →
    UserRequests.translate .global a t.ptm = UserRequests.translate .global a s.ptm
  cached : 0 < s.cache.length → t.space = s.space ∧ t.ptm = s.ptm ∧ t.cache.length + 1 = s.cache.length
  dry : s.cache = [] → ∃ hole, Vm.PoolPage s t hole

section Pool

variable {s : Vm.State} {n : Nat} {used : Nat → Prop}

theorem pool_alloc (sound : Vm.Sound s) (kernel : KernelSpace s) (stock : Pmm.Stock s.pmm used) (free : 0 < freePages s)
    (roomy : Roomy (s.space .global) (n + 1)) : ∃ t rid, Vm.regionAlloc s = .ok (t, rid) ∧ Pooled n used s t rid := by
  have hosts := Vm.sound_hosts sound
  cases cache : s.cache with
  | cons rid rest =>
      refine ⟨_, rid, Vm.region_alloc_cached cache, Vm.owned_take cache sound.owned, .inl rfl, Vm.hosts_congr hosts rfl,
        ⟨kernel.start, kernel.home⟩, roomy_mono roomy (Nat.le_succ n), stock, fun x _ => rfl,
        ⟨[], rfl, fun call member => absurd member List.not_mem_nil⟩, Nat.le_succ _, fun a v _ => rfl, fun _ => ⟨rfl, rfl, ?_⟩, fun empty => ?_⟩
      · rw [cache]
        rfl
      · rw [cache] at empty
        cases empty
  | nil =>
      obtain ⟨hole, vacant⟩ := roomy
      have isHole := free_run_hole hosts.tidy vacant (by decide) (Nat.le_mul_of_pos_left _ (Nat.succ_pos n))
      rcases Vm.refill_spec hosts sound.owned with ⟨t, place, whole, run, refilled, _⟩ | ⟨_, none⟩ | ⟨_, none⟩
      · obtain ⟨rid, rest, cacheT, alloc⟩ := Vm.region_alloc_refilled cache run refilled
        obtain ⟨page, found, allocated, asked, searched⟩ := region_alloc_pool cache alloc
        obtain rfl : found = place := by
          rcases Vm.pool_hole hosts with ⟨other, again, lowest⟩ | ⟨missing, _⟩
          · obtain rfl := Option.some.inj (Except.ok.inj (searched.symm.trans again))
            exact Nat.le_antisymm (lowest.2 _ refilled.lowest.1) (refilled.lowest.2 _ lowest.1)
          · rw [missing] at searched
            cases searched
        have maps := Vm.joined_maps hosts.tidy refilled.joined
        have page0 := Vm.lowest_hole_aligned hosts.tidy hosts.aligned refilled.lowest
        have below := refilled.lowest.2 _ isHole
        obtain ⟨stocked, fresh, _⟩ := Pmm.stock_alloc stock allocated
        have covers : ∀ a, (Vm.poolRegion s.nextRegion found).Covers a ↔ found ≤ a ∧ a < found + pageGranularity := fun a => Iff.rfl
        have drawn : Vm.PoolPage s { t with cache := rest } found :=
          ⟨cache, refilled.lowest, maps, Vm.frame_trans refilled.frame (Vm.frame_of_space rfl)⟩
        refine ⟨_, rid, alloc, Vm.owned_take cacheT refilled.owned, .inr ⟨found, drawn⟩, ?_, ⟨?_, ?_⟩, ?_, ?_, ?_, ?_, ?_, ?_, ?_,
          fun _ => ⟨found, drawn⟩⟩
        · exact Vm.hosts_congr (Vm.refilled_hosts hosts refilled) rfl
        · exact refilled.frame.start.trans kernel.start
        · exact Vm.scratch_home refilled.joined kernel.home rfl
        · -- The pool page is the first of the free pages, or lies below them.
          have aligned := vacant.aligned
          have above := vacant.above
          have room := vacant.below
          refine ⟨hole + pageGranularity, ?_, ?_, ?_, fun x v low high mapped => ?_⟩
          · rw [Nat.add_mod_right]
            exact aligned
          · change (t.space .global).start ≤ _
            rw [refilled.frame.start]
            omega
          · change _ ≤ (t.space .global).limit
            rw [refilled.frame.limit]
            rw [Nat.succ_mul] at room
            omega
          · rcases (maps x v).mp mapped with old | ⟨inside, _⟩
            · rw [Nat.add_assoc, Nat.add_comm pageGranularity, ← Nat.succ_mul] at high
              exact vacant.free x v (by omega) high old
            · have upper := ((covers x).mp inside).2
              unfold pageGranularity at *
              omega
        · exact Pmm.stock_mono stocked fun p => .inl
        · intro x isUsed
          refine (Pmm.alloc_page_memory allocated).1 ▸ clear_page_other ?_
          rintro rfl
          exact fresh isUsed
        · exact ⟨[_], asked, fun call member => by rw [List.mem_singleton.mp member]; rfl⟩
        · have cost := region_alloc_pages alloc
          rw [if_pos cache] at cost
          exact Nat.le_of_eq cost.symm
        · intro a v mapped
          rw [asked, UserRequests.translate, if_neg]
          rintro ⟨_, inside⟩
          obtain ⟨r, member, coversR, _⟩ := mapped
          exact Vm.apart_disjoint (Vm.pool_clear refilled.lowest s.nextRegion r member) ((covers a).mpr inside) coversR
        · intro positive
          rw [cache] at positive
          exact absurd positive (Nat.lt_irrefl _)
      · rcases Pmm.alloc_page_weight Pmm.flagZero s.pmm with ⟨pmm, page, allocated, _⟩ | ⟨_, empty⟩
        · exact absurd ⟨_, allocated⟩ none
        · have zone : Pmm.allocZone Pmm.flagZero = .normal := rfl
          rw [zone] at empty
          unfold freePages at free
          omega
      · exact absurd isHole (none hole)

end Pool

-- A buffer of the kernel: anonymous pages for reading and writing, all there.
def bufferRegion (rid address length : Nat) : Region := Vm.newRegion .global Vm.protRW .standard 0 .anon 0 rid address length

structure Buffered (used : Nat → Prop) (t s : Vm.State) (rid address length : Nat) (whole : Region) (frame : Nat → Nat) : Prop where
  joined : Vm.Joined (t.space .global).regions (bufferRegion rid address length) whole (s.space .global).regions
  aside : Vm.Frame .global t s
  owned : Vm.Owned s []
  structures : Vm.structures .global s = Vm.structures .global t + 1
  freed : (∃ r ∈ (t.space .global).regions, Vm.Joins (bufferRegion rid address length) r) → 0 < s.cache.length
  pages : FramedPages address (List.range (length / pageGranularity)) used t s frame

section Buffer

variable {t : Vm.State} {rid address length : Nat} {used : Nat → Prop} (tidy : Vm.Tidy (t.space .global))
  (hole : Vm.Hole (t.space .global) length address) (aligned : address % pageGranularity = 0) (wholePages : length % pageGranularity = 0)

include hole aligned wholePages

theorem place_buffer_eq : Vm.placeRegion .global address length Vm.protRW .standard 0 .anon 0 rid t =
    (List.range (length / pageGranularity)).foldlM (Vm.mapAnonPage (bufferRegion rid address length) address) t >>= fun u =>
      .ok ((Vm.regionInsert .global (bufferRegion rid address length) u).1, address) := by
  have checked : assertThat (decide (address % pageGranularity = 0 ∧ length % pageGranularity = 0)) = .ok () := by
    rw [assertThat, if_pos (decide_eq_true ⟨aligned, wholePages⟩)]
  unfold Vm.placeRegion
  rw [assertThat, if_pos (decide_eq_true hole.1), bind_ok, checked, bind_ok, Vm.mapBacking, bind_ok]
  dsimp only
  rw [if_neg (show ¬ (Vm.describeRegion .global rid address length Vm.protRW .standard 0 _).dynamicallyBacked = true by
    simp [Vm.describeRegion]), Vm.regionMap]
  change ((assertThat (decide (address % pageGranularity = 0 ∧ length % pageGranularity = 0)) >>= _) >>= _) = _
  rw [checked, bind_ok]
  rfl

include tidy

theorem buffer_placed (positive : 0 < length) : Vm.Placed (t.space .global) (bufferRegion rid address length) ∧
    ∀ m ∈ (t.space .global).regions, Vm.Apart (bufferRegion rid address length) m := by
  have bounds := (Vm.segment_in_bounds_iff address length _ _ tidy.fits).mp hole.1
  exact ⟨⟨positive, aligned, wholePages, bounds.1, bounds.2.2⟩, fun m member => (hole.2 m member).symm⟩

theorem place_buffer (owned : Vm.Owned t [rid]) (positive : 0 < length) (stock : Pmm.Stock t.pmm used)
    (enough : length / pageGranularity ≤ freePages t) :
    ∃ s whole frame, Vm.placeRegion .global address length Vm.protRW .standard 0 .anon 0 rid t = .ok (s, address) ∧
      Buffered used t s rid address length whole frame := by
  obtain ⟨placed, clear⟩ := buffer_placed tidy hole aligned wholePages positive
  have bounds := (Vm.segment_in_bounds_iff address length _ _ tidy.fits).mp hole.1
  have fits := tidy.fits
  obtain ⟨u, mapped⟩ := (UserRequests.map_pages_returns (s := t) (bufferRegion rid address length) address
    (List.range (length / pageGranularity))).mpr (by rw [List.length_range]; exact enough)
  obtain ⟨frame, framed⟩ := map_pages_frames rfl rfl (List.range (length / pageGranularity))
    List.nodup_range stock (fun i member => by
      have small := List.mem_range.mp member
      unfold pageGranularity at *
      omega) mapped
  obtain ⟨space, cache, next⟩ : u.space = t.space ∧ u.cache = t.cache ∧ u.nextRegion = t.nextRegion := by
    rcases Vm.map_anon_pages (bufferRegion rid address length) address (List.range (length / pageGranularity)) t with
      ⟨u', again, same⟩ | failed
    · obtain rfl := Except.ok.inj (mapped.symm.trans again)
      exact same
    · rw [failed] at mapped
      cases mapped
  have ownedU : Vm.Owned u [(bufferRegion rid address length).id] := Vm.owned_congr owned space cache next
  obtain ⟨s, whole, inserted, quiet, ownedS, joined⟩ := Vm.region_insert_spec (space ▸ tidy) (space ▸ placed) (space ▸ clear) ownedU
  have first : (Vm.regionInsert .global (bufferRegion rid address length) u).1 = s := by rw [inserted]
  have counted : Vm.structures .global _ = _ := Vm.region_insert_structures (bufferRegion rid address length) ownedU
  obtain ⟨asked, memory⟩ := region_insert_calls .global (bufferRegion rid address length) u
  rw [first] at counted asked memory
  have structures : Vm.structures .global u = Vm.structures .global t := by
    unfold Vm.structures
    rw [space, cache]
  refine ⟨s, whole, frame, ?_, ?_, Vm.frame_trans (Vm.frame_of_space space) quiet.frame, ownedS, by rw [counted, structures], ?_, ?_⟩
  · rw [place_buffer_eq hole aligned wholePages, mapped, bind_ok, first]
  · rw [← space]
    exact joined
  · rintro ⟨r, member, joins⟩
    rw [← first]
    exact Vm.region_insert_frees (space ▸ tidy) (space ▸ placed) (space ▸ clear) ownedU (space ▸ member) joins
  · obtain ⟨stocked, kept, fresh, distinct, here, elsewhere, log, weight⟩ := framed
    unfold freePages at weight
    exact ⟨memory ▸ stocked, by rw [memory, kept], fresh, distinct, by rw [asked]; exact here, by rw [asked]; exact elsewhere,
      by rw [asked]; exact log, by unfold freePages; rw [memory]; exact weight⟩

end Buffer

section Machine

variable {id top : Nat} {supply : List Nat} {m : Machine}

-- Calls on the global space leave the process alone.
theorem consistent_aside (consistent : Consistent id top supply m) {vm : Vm.State} (sound : Vm.Sound vm)
    (space : vm.space (.process id) = m.vm.space (.process id)) (stock : Pmm.Stock vm.pmm (InUse top supply m.tables)) :
    Consistent id top supply ⟨vm, m.tables⟩ := by
  obtain ⟨tables, small, injective, _, frames, apart⟩ := consistent.backing
  exact ⟨sound, by rw [space]; exact consistent.start, by rw [space]; exact consistent.limit, by rw [space]; exact consistent.home,
    by rw [space]; exact consistent.anon, by rw [space]; exact consistent.present, tables, small, injective, stock, frames, apart⟩

theorem follow_global {vm : Vm.State} {calls : List PtmCall} (asked : vm.ptm = calls ++ m.vm.ptm) (aimed : ∀ call ∈ calls, target call = .global) :
    follow id top m vm = .ok ⟨vm, m.tables⟩ := by
  unfold follow
  rw [new_calls_eq asked, idle_carried calls fun call member => ?_]
  · rfl
  · unfold Idle
    rw [aimed call member]
    simp

theorem pool_step_aside {s t : Vm.State} (step : Vm.PoolStep s t) : t.space (.process id) = s.space (.process id) := by
  rcases step with same | ⟨hole, page⟩
  · rw [same]
  · exact page.frame.others _ (by simp)

theorem hole_positive {space : AddressSpace} (tidy : Vm.Tidy space) (start : space.start = Vm.kernelspaceStart) {length a : Nat}
    (hole : Vm.Hole space length a) : a ≠ Vm.nullptr := by
  have bounds := (Vm.segment_in_bounds_iff a length _ _ tidy.fits).mp hole.1
  have high : 0 < Vm.kernelspaceStart := by decide
  rw [start] at bounds
  unfold Vm.nullptr
  omega

-- vm_map_anon for a buffer.
structure BufferMapped (id top : Nat) (supply : List Nat) (n : Nat) (m : Machine) (length : Nat) (t : Vm.State) (rid : Nat) (vm : Vm.State)
    (address : Nat) (whole : Region) (frame : Nat → Nat) : Prop where
  mapped : Vm.vmMapAnon .global Vm.nullptr length Vm.protRW .standard 0 m.vm = .ok (vm, address)
  real : address ≠ Vm.nullptr
  followed : follow id top m vm = .ok ⟨vm, m.tables⟩
  consistent : Consistent id top supply ⟨vm, m.tables⟩
  pooled : Pooled n (InUse top supply m.tables) m.vm t rid
  hole : Vm.Hole (t.space .global) length address
  aligned : address % pageGranularity = 0
  buffered : Buffered (InUse top supply m.tables) t vm rid address length whole frame

theorem buffer_mapped (consistent : Consistent id top supply m) (kernel : KernelSpace m.vm) {n length : Nat} (positive : 0 < length)
    (wholePages : length % pageGranularity = 0) (roomy : Roomy (m.vm.space .global) (n + 1)) (fits : length ≤ n * pageGranularity)
    (enough : length / pageGranularity < freePages m.vm) :
    ∃ t rid vm address whole frame, BufferMapped id top supply n m length t rid vm address whole frame := by
  have accepted : ¬ Vm.Rejected Vm.nullptr length 0 := by
    rintro (zero | ragged | ⟨isFixed, _⟩)
    · omega
    · exact ragged wholePages
    · exact isFixed (by decide)
  obtain ⟨t, rid, alloc, pooled⟩ := pool_alloc consistent.vm kernel consistent.backing.stock (Nat.lt_of_le_of_lt (Nat.zero_le _) enough) roomy
  have tidyT := pooled.hosts.tidy
  obtain ⟨run, vacant⟩ := pooled.roomy
  have place := free_run_hole tidyT vacant positive fits
  have weight := pooled.weight
  rcases Vm.map_common_search accepted alloc tidyT with
    ⟨noPlace, _⟩ | ⟨address, chosen, searched⟩
  · rcases noPlace.2 with isFixed | none
    · exact absurd isFixed (not_not_intro (by decide))
    · exact absurd place (none run)
  · have aligned := Vm.chosen_aligned tidyT pooled.hosts.aligned chosen
    obtain ⟨vm, whole, frame, placed, buffered⟩ := place_buffer tidyT chosen.hole aligned wholePages pooled.owned positive pooled.stock
      (by omega)
    have mapped : Vm.vmMapAnon .global Vm.nullptr length Vm.protRW .standard 0 m.vm = .ok (vm, address) := searched.trans placed
    have sound : Vm.Sound vm := by
      have keeps := @Vm.map_keeps m.vm .global consistent.vm Vm.nullptr length 0 Vm.protRW .standard .anon 0
      rw [show Vm.mapCommon .global Vm.nullptr length Vm.protRW .standard 0 .anon 0 m.vm = .ok (vm, address) from mapped, bind_ok] at keeps
      rcases keeps with ⟨s', same, sound⟩ | ⟨fault, _, failed⟩
      · obtain rfl : vm = s' := Except.ok.inj same
        exact sound
      · cases failed
    have space : vm.space (.process id) = m.vm.space (.process id) :=
      (buffered.aside.others _ (by simp)).trans (pool_step_aside pooled.step)
    obtain ⟨drawn, askedT, aimedT⟩ := pooled.log
    obtain ⟨calls, asked, aimed⟩ := buffered.pages.log
    refine ⟨t, rid, vm, address, whole, frame, mapped, hole_positive tidyT pooled.kernel.start chosen.hole, ?_, ?_, pooled, chosen.hole,
      aligned, buffered⟩
    · refine follow_global (by rw [asked, askedT, List.append_assoc]) fun call member => ?_
      rcases List.mem_append.mp member with later | first
      · exact aimed call later
      · exact aimedT call first
    · exact consistent_aside consistent sound space (Pmm.stock_mono buffered.pages.stock fun p => .inl)

-- What the kernel gets with a buffer, whoever fills it.
section Mapped

variable {n length rid address : Nat} {t vm : Vm.State} {whole : Region} {frame : Nat → Nat}
  (buffer : BufferMapped id top supply n m length t rid vm address whole frame)

include buffer

theorem buffer_process : vm.space (.process id) = m.vm.space (.process id) :=
  (buffer.buffered.aside.others _ (by simp)).trans (pool_step_aside buffer.pooled.step)

theorem buffer_weight : freePages m.vm ≤ freePages vm + (length / pageGranularity + 1) := by
  have drawn := buffer.pooled.weight
  have framed := buffer.buffered.pages.weight
  rw [List.length_range] at framed
  omega

-- What is written to the buffer is read back, and nothing in use changes.
theorem buffer_stored (wholePages : length % pageGranularity = 0) (bytes : List UInt8) (short : bytes.length ≤ length) :
    ∃ memory, kernelStore address bytes ⟨vm, m.tables⟩ = .ok (setMemory ⟨vm, m.tables⟩ memory) ∧
      kernelLoad address bytes.length (setMemory ⟨vm, m.tables⟩ memory) = .ok bytes ∧
      ∀ x, InUse top supply m.tables (x / pageGranularity) → memory x = m.vm.pmm.memory x := by
  have pooled := buffer.pooled
  have framed := buffer.buffered.pages
  have pages := Nat.div_mul_cancel (Nat.dvd_of_mod_eq_zero wholePages)
  have bounds := (Vm.segment_in_bounds_iff _ _ _ _ pooled.hosts.tidy.fits).mp buffer.hole.1
  have limit := pooled.hosts.tidy.fits
  obtain ⟨memory, stored, loaded, untouched⟩ := framed_stored (m := ⟨vm, m.tables⟩) framed bytes (by omega) (by omega)
  refine ⟨memory, stored, loaded, fun x inUse => ?_⟩
  rw [untouched x inUse]
  change vm.pmm.memory x = _
  rw [framed.memory, pooled.memory x inUse]

end Mapped

-- vm_unmap of the buffer, after the kernel has used it.
structure BufferUnmapped (id top : Nat) (supply : List Nat) (n : Nat) (m u : Machine) (t : Vm.State) (address length : Nat) (vm : Vm.State) :
    Prop where
  unmapped : Vm.vmUnmap .global address length u.vm = .ok vm
  followed : follow id top u vm = .ok ⟨vm, u.tables⟩
  consistent : Consistent id top supply ⟨vm, u.tables⟩
  kernel : KernelSpace vm
  roomy : Roomy (vm.space .global) n
  process : vm.space (.process id) = u.vm.space (.process id)
  allocator : vm.pmm = u.vm.pmm
  maps : ∀ a v, Vm.Maps (vm.space .global).regions a v ↔ Vm.Maps (t.space .global).regions a v
  cache : vm.cache.length = t.cache.length + 1
  same : 0 < m.vm.cache.length → SameMap m.vm vm

theorem buffer_unmapped {n length rid address : Nat} {t vm : Vm.State} {whole : Region} {frame : Nat → Nat}
    (buffer : BufferMapped id top supply n m length t rid vm address whole frame) (positive : 0 < length)
    (wholePages : length % pageGranularity = 0) {u : Machine} (consistent : Consistent id top supply u) (space : u.vm.space = vm.space)
    (cache : u.vm.cache = vm.cache)
    (frames : ∀ a, UserRequests.translate .global a u.vm.ptm = UserRequests.translate .global a vm.ptm) :
    ∃ final, BufferUnmapped id top supply n m u t address length final := by
  have pooled := buffer.pooled
  have buffered := buffer.buffered
  have tidyT := pooled.hosts.tidy
  obtain ⟨placed, clear⟩ := buffer_placed tidyT buffer.hole buffer.aligned wholePages positive
  have joined : Vm.Joined (t.space .global).regions (bufferRegion rid address length) whole (u.vm.space .global).regions := by
    rw [space]
    exact buffered.joined
  have aside : Vm.Frame .global t u.vm := Vm.frame_trans buffered.aside (Vm.frame_of_space space)
  have homes : ∀ r ∈ (u.vm.space .global).regions, r.addressSpace = .global := Vm.scratch_home joined pooled.kernel.home rfl
  obtain ⟨final, run, undone⟩ := Vm.scratch_unmap tidyT placed clear joined rfl pooled.owned aside consistent.vm.owned
    (by rw [cache]; exact buffered.freed)
  have asked : final.ptm = [.unmap .global address length] ++ u.vm.ptm := undone.asked homes
  have sound : Vm.Sound final := Vm.sound_local consistent.vm undone.aside.toLocal undone.owned undone.tidy
  have process : final.space (.process id) = u.vm.space (.process id) := undone.aside.others _ (by simp) (by simp)
  have start : (final.space .global).start = (t.space .global).start := (undone.aside.start _).trans aside.start
  have limit : (final.space .global).limit = (t.space .global).limit := (undone.aside.limit _).trans aside.limit
  refine ⟨final, run, follow_global asked fun call member => ?_, ?_, ⟨start.trans pooled.kernel.start, undone.home homes⟩,
    roomy_congr pooled.roomy start limit undone.maps, process, undone.allocator, undone.maps, ?_, fun cached => ?_⟩
  · rw [List.mem_singleton.mp member]
    rfl
  · exact consistent_aside consistent sound process (undone.allocator ▸ consistent.backing.stock)
  · have counted := undone.structures
    have before := buffered.structures
    unfold Vm.structures at counted before
    rw [space, cache] at counted
    omega
  · obtain ⟨sameSpace, sameCalls, _⟩ := pooled.cached cached
    have elsewhere : ∀ a, ¬ (address ≤ a ∧ a < address + length) →
        UserRequests.translate .global a final.ptm = UserRequests.translate .global a m.vm.ptm := by
      intro a outside
      rw [asked, List.singleton_append, UserRequests.translate, if_neg fun both => outside both.2, frames, ← sameCalls]
      refine buffered.pages.elsewhere a fun i member inside => outside ?_
      have small := List.mem_range.mp member
      unfold pageGranularity at *
      omega
    refine ⟨fun a v => ?_, fun a v mapped => elsewhere a fun inside => ?_, fun a phys there => ?_⟩
    · rw [undone.maps, sameSpace]
    · rw [← sameSpace] at mapped
      obtain ⟨r, member, covers, _⟩ := mapped
      exact Vm.apart_disjoint (clear r member) inside covers
    · by_cases inside : address ≤ a ∧ a < address + length
      · rw [asked, List.singleton_append, UserRequests.translate, if_pos ⟨rfl, inside⟩] at there
        cases there
      · rw [← elsewhere a inside]
        exact there

-- Copies to the process do not move the pages of the kernel.
theorem copy_to_aside (consistent : Consistent id top supply m) {dest count k : Nat} {src : List UInt8} {m' : Machine}
    (run : Vm.vmCopyTo (paging id top) dest src count m = .ok (m', k)) (a : Nat) :
    UserRequests.translate .global a m'.vm.ptm = UserRequests.translate .global a m.vm.ptm := by
  let still : Machine → Prop := fun u => Consistent id top supply u ∧
    UserRequests.translate .global a u.vm.ptm = UserRequests.translate .global a m.vm.ptm
  have started : still m := ⟨consistent, rfl⟩
  refine (Vm.vm_copy_to_keeps ?_ (fun memory ok => ⟨set_memory_keeps ok.1 memory, ok.2⟩) started run).2
  intro u v next ok fixed
  refine ⟨fix_page_consistent ok.1 fixed, ?_⟩
  obtain ⟨r, member, covers, dynamic⟩ := fix_page_region ok.1 fixed
  change fixPage id top u v = .ok (some next) at fixed
  rw [fix_page_eq ok.1 member covers dynamic, bind_eq_ok] at fixed
  obtain ⟨⟨pmm, page⟩, _, fixed⟩ := fixed
  rw [bind_eq_ok] at fixed
  obtain ⟨tables, _, fixed⟩ := fixed
  obtain rfl := Option.some.inj (Except.ok.inj fixed)
  change UserRequests.translate .global a (PtmCall.map _ _ _ _ _ _ _ _ :: _) = _
  rw [UserRequests.translate, if_neg (by simp)]
  exact ok.2

end Machine

end Elysium.UserSpace
