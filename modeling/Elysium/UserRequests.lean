import Elysium.UserLazy
import Elysium.VmRuns

set_option autoImplicit false

namespace Elysium.UserRequests

open Vm (PtmCall SpaceId Region Paging AddressInBounds)

inductive SyscallError where
  | none
  | invalidValue
deriving DecidableEq, Repr

structure SyscallReturn where
  value : Nat
  error : SyscallError
deriving DecidableEq, Repr

inductive FaultKind where
  | unknown
  | notPresent
deriving DecidableEq, Repr

-- A thread of the process in user mode: the address spaces, and its vm_fault.
structure State where
  vm : Vm.State
  inFlight : Bool
  address : Nat

section Code

-- arch_ptm_physical on tables that carry out the requests: the latest one decides.
def translate (as : SpaceId) (v : Nat) : List PtmCall → Option Nat
  | [] => none
  | .map space vaddr paddr length _ _ _ _ :: earlier =>
      if space = as ∧ vaddr ≤ v ∧ v < vaddr + length then some (paddr + (v - vaddr)) else translate as v earlier
  | .unmap space vaddr length :: earlier =>
      if space = as ∧ vaddr ≤ v ∧ v < vaddr + length then none else translate as v earlier
  | .rewrite _ _ _ _ _ _ _ :: earlier => translate as v earlier

variable (id : Nat)

def paging : Paging Vm.State where
  space s := s.space (.process id)
  physical s vaddr := .ok (translate (.process id) vaddr s.ptm)
  fixPage s vaddr := Vm.addressSpaceFixPage (.process id) vaddr s
  memory s := s.pmm.memory
  setMemory s memory := { s with pmm := { s.pmm with memory := memory } }

def syscallMemAnonAllocate (size : Nat) (t : State) : Except Fault (State × SyscallReturn) :=
  if size = 0 ∨ size % pageGranularity ≠ 0 then .ok (t, ⟨0, .invalidValue⟩)
  else do
    let (vm, ptr) ← Vm.vmMapAnon (.process id) Vm.nullptr size Vm.protRW .standard Vm.flagZero t.vm
    .ok ({ t with vm := vm }, ⟨ptr, .none⟩)

def syscallMemAnonFree (pointer size : Nat) (t : State) : Except Fault (State × SyscallReturn) :=
  if size = 0 ∨ size % pageGranularity ≠ 0 ∨ pointer = Vm.nullptr ∨ pointer % pageGranularity ≠ 0 then .ok (t, ⟨0, .invalidValue⟩)
  else do
    let vm ← Vm.vmUnmap (.process id) pointer size t.vm
    .ok ({ t with vm := vm }, ⟨0, .none⟩)

-- The buffer comes from the kernel heap, which is not part of this.
def syscallBufferIn (src count : Nat) (t : State) : Except Fault (State × Option (List UInt8)) := do
  let (vm, buffer, readCount) ← Vm.vmCopyFrom (paging id) src count t.vm
  .ok ({ t with vm := vm }, if readCount ≠ count then none else some buffer)

def syscallStringIn (src length : Nat) (t : State) : Except Fault (State × Option (List UInt8)) := do
  let (t, buffer) ← syscallBufferIn id src (add64 length 1) t
  .ok (t, buffer.map fun str => str.set length 0)

def maxDebugLength : Nat := 512

def syscallDebug (length str : Nat) (t : State) : Except Fault (State × SyscallReturn) := do
  let (t, copied) ← syscallStringIn id str (if length > maxDebugLength then maxDebugLength else length) t
  match copied with
  | none => .ok (t, ⟨0, .invalidValue⟩)
  | some _ => .ok (t, ⟨0, .none⟩)

-- true where the fault has been taken on. The thread belongs to the process.
def vmFault (address : Nat) (fault : FaultKind) (t : State) : Except Fault (State × Bool) :=
  if fault ≠ .notPresent then .ok (t, false)
  else if AddressInBounds address (t.vm.space .global).start (t.vm.space .global).limit then .ok (t, false)
  else do
    assertThat (!t.inFlight)
    .ok ({ t with inFlight := true, address := address }, true)

def vmFaultSoft (t : State) : Except Fault State := do
  match ← Vm.addressSpaceFixPage (.process id) t.address t.vm with
  | none => .error (.panic "VM" "vm_fault_soft handling failed")
  | some vm => .ok { t with vm := vm, inFlight := false }

-- The deferred work is done before the thread goes on.
def pageFaultHandler (address : Nat) (fault : FaultKind) (t : State) : Except Fault (State × Bool) := do
  let (t, taken) ← vmFault address fault t
  if taken then do
    let t ← vmFaultSoft id t
    .ok (t, true)
  else .ok (t, false)

end Code

inductive Request where
  | anonAllocate (size : Nat)
  | anonFree (pointer size : Nat)
  | debug (length str : Nat)
  | fault (address : Nat) (kind : FaultKind)

inductive Reply where
  | syscall (ret : SyscallReturn)
  | fault (handled : Bool)
deriving DecidableEq, Repr

def Request.run (id : Nat) (t : State) : Request → Except Fault (State × Reply)
  | .anonAllocate size => syscallMemAnonAllocate id size t >>= fun result => .ok (result.1, .syscall result.2)
  | .anonFree pointer size => syscallMemAnonFree id pointer size t >>= fun result => .ok (result.1, .syscall result.2)
  | .debug length str => syscallDebug id length str t >>= fun result => .ok (result.1, .syscall result.2)
  | .fault address kind => pageFaultHandler id address kind t >>= fun result => .ok (result.1, .fault result.2)

-- Frames that bringing in a page of the region takes.
def pageCost (region : Region) : Nat :=
  match region.backing with
  | .anon _ => 1
  | .direct _ => 0

-- Frames a call takes to refill the region cache.
def poolPages (s : Vm.State) : Nat := if s.cache = [] then 1 else 0

def freePages (s : Vm.State) : Nat := Pmm.zoneWeight s.pmm .normal

-- The addresses a copy of a range looks up: its first byte, and the first byte of every further page.
def lookups (address count : Nat) : List Nat :=
  if count = 0 then []
  else address :: (List.range ((address + count - 1) / pageGranularity - address / pageGranularity)).map
    fun k => (address / pageGranularity + 1 + k) * pageGranularity

-- Frames for the pages among these that are not there, up to the first that cannot be brought in.
def demand (id : Nat) (s : Vm.State) : List Nat → Nat
  | [] => 0
  | v :: rest =>
      if translate (.process id) v s.ptm ≠ none then demand id s rest
      else
        match Vm.addrToRegion (s.space (.process id)) v with
        | none => 0
        | some region => if region.dynamicallyBacked then pageCost region + demand id s rest else 0

-- The requests that come back to the thread.
def Returns (id : Nat) (t : State) : Request → Prop
  | .anonAllocate size => (size = 0 ∨ size % pageGranularity ≠ 0) ∨
      (Vm.Supply 1 t.vm (.process id) ∧
        ((∀ a, ¬ Vm.Hole (t.vm.space (.process id)) size a) ∨ size / pageGranularity + poolPages t.vm ≤ freePages t.vm))
  | .anonFree pointer size =>
      (size = 0 ∨ size % pageGranularity ≠ 0 ∨ pointer = Vm.nullptr ∨ pointer % pageGranularity ≠ 0) ∨
      (Vm.SegmentInBounds pointer size (t.vm.space (.process id)).start (t.vm.space (.process id)).limit ∧
        (((∀ r ∈ (t.vm.space (.process id)).regions, r.Covers pointer → r.limit ≤ pointer + size) ∧
            ¬ Vm.Displaces (t.vm.space (.process id)).regions pointer (pointer + size)) ∨
          ∃ r ∈ (t.vm.space (.process id)).regions, r.Covers pointer ∧ pointer + size < r.limit ∧ Vm.CloneFits (pointer + size) r ∧
            Vm.Supply 1 t.vm (.process id)))
  | .debug length str => Vm.memoryExists (t.vm.space (.process id)) str (min length maxDebugLength + 1) = .ok false ∨
      demand id t.vm (lookups str (min length maxDebugLength + 1)) ≤ freePages t.vm
  | .fault address kind => kind ≠ .notPresent ∨ AddressInBounds address (t.vm.space .global).start (t.vm.space .global).limit ∨
      (t.inFlight = false ∧ ∃ r ∈ (t.vm.space (.process id)).regions, r.Covers address ∧ r.dynamicallyBacked = true ∧
        pageCost r ≤ freePages t.vm)

-- What calls on the space of a process leave of it.
structure InOrder (id : Nat) (s : Vm.State) : Prop where
  sound : Vm.Sound s
  home : ∀ r ∈ (s.space (.process id)).regions, r.addressSpace = .process id
  limit : (s.space (.process id)).limit = Vm.userspaceEnd

theorem consistent_in_order {id top : Nat} {supply : List Nat} {m : UserSpace.Machine} (consistent : UserSpace.Consistent id top supply m) :
    InOrder id m.vm := ⟨consistent.vm, consistent.home, consistent.limit⟩

section Pages

variable {id : Nat} {s : Vm.State}

theorem map_pages_returns (region : Region) (address : Nat) (pages : List Nat) :
    (∃ u, pages.foldlM (Vm.mapAnonPage region address) s = .ok u) ↔ pages.length ≤ freePages s := by
  induction pages generalizing s with
  | nil => exact iff_of_true ⟨s, rfl⟩ (Nat.zero_le _)
  | cons i rest ih =>
      rw [List.foldlM_cons, List.length_cons]
      rcases Pmm.alloc_page_weight (Vm.pageFlags region) s.pmm with ⟨pmm, page, allocated, weight, _⟩ | ⟨failed, none⟩
      · rw [UserSpace.page_flags_zone] at weight
        obtain ⟨u, first, memory⟩ : ∃ u, Vm.mapAnonPage region address s i = .ok u ∧ u.pmm = pmm := by
          unfold Vm.mapAnonPage
          rw [allocated]
          exact ⟨_, rfl, rfl⟩
        rw [first, bind_ok, ih]
        unfold freePages
        rw [memory]
        omega
      · rw [UserSpace.page_flags_zone] at none
        refine iff_of_false ?_ ?_
        · rintro ⟨u, run⟩
          unfold Vm.mapAnonPage at run
          rw [failed] at run
          cases run
        · change ¬ rest.length + 1 ≤ Pmm.zoneWeight s.pmm .normal
          omega

-- What bringing in a page does, or why it does not.
theorem fix_page_cases (tidy : Vm.Tidy (s.space (.process id))) {v : Nat} {region : Region}
    (found : Vm.addrToRegion (s.space (.process id)) v = some region) (dynamic : region.dynamicallyBacked = true) :
    (pageCost region ≤ freePages s ∧ ∃ u paddr, Vm.addressSpaceFixPage (.process id) v s = .ok (some u) ∧ u.space = s.space ∧
        freePages u + pageCost region = freePages s ∧
        u.ptm = .map region.addressSpace (Vm.pageFloor v) paddr pageGranularity region.protection region.cacheBehavior
          (Vm.privilegeOf region.addressSpace) (region.addressSpace = SpaceId.global) :: s.ptm) ∨
      (freePages s < pageCost region ∧ Vm.addressSpaceFixPage (.process id) v s = .error Pmm.outOfMemory) := by
  obtain ⟨member, covers⟩ := Vm.addr_to_region_some tidy found
  have fits := Vm.region_fits tidy member
  have stop := covers.2
  have floor : Vm.pageFloor v ≤ v := Nat.div_mul_le_self _ _
  have aligned : Vm.pageFloor v % pageGranularity = 0 := Nat.mul_mod_left _ _
  have checked : assertThat (decide (Vm.pageFloor v % pageGranularity = 0 ∧ pageGranularity % pageGranularity = 0)) = .ok () := by
    rw [assertThat, if_pos (decide_eq_true ⟨aligned, Nat.mod_self _⟩)]
  have address : add64 (Vm.pageFloor v) (0 * pageGranularity) = Vm.pageFloor v := by
    rw [Nat.zero_mul, add64_eq (show Vm.pageFloor v + 0 < 2 ^ 64 by omega), Nat.add_zero]
  have one : List.range (pageGranularity / pageGranularity) = [0] := rfl
  unfold Vm.addressSpaceFixPage
  rw [found]
  dsimp only
  rw [if_neg (not_not.mpr dynamic), Vm.regionMap, checked, bind_ok]
  unfold pageCost
  cases region.backing with
  | direct physicalAddress => exact .inl ⟨Nat.zero_le _, _, _, rfl, rfl, rfl, rfl⟩
  | anon zeroed =>
      dsimp only
      rw [one, List.foldlM_cons]
      unfold Vm.mapAnonPage
      rw [address]
      rcases Pmm.alloc_page_weight (Vm.pageFlags region) s.pmm with ⟨pmm, page, allocated, weight, _⟩ | ⟨failed, none⟩
      · rw [UserSpace.page_flags_zone] at weight
        rw [allocated]
        exact .inl ⟨Nat.le_of_add_left_le (Nat.le_of_eq weight), _, _, rfl, rfl, weight, rfl⟩
      · rw [UserSpace.page_flags_zone] at none
        rw [failed]
        exact .inr ⟨Nat.lt_of_le_of_lt (Nat.le_of_eq none) Nat.one_pos, rfl⟩

theorem fix_page_refused {v : Nat} (refused : ∀ region, Vm.addrToRegion (s.space (.process id)) v = some region →
    region.dynamicallyBacked ≠ true) : Vm.addressSpaceFixPage (.process id) v s = .ok none := by
  unfold Vm.addressSpaceFixPage
  cases found : Vm.addrToRegion (s.space (.process id)) v with
  | none => rfl
  | some region => exact if_pos (refused region found)

theorem region_alloc_weight {u : Vm.State} {rid : Nat} (alloc : Vm.regionAlloc s = .ok (u, rid)) :
    freePages u + poolPages s = freePages s := UserSpace.region_alloc_pages alloc

end Pages

section Debug

theorem lookups_next {a count : Nat} (positive : 0 < count) :
    lookups a count = a :: lookups (a + min count (pageGranularity - a % pageGranularity))
      (count - min count (pageGranularity - a % pageGranularity)) := by
  unfold lookups
  rw [if_neg (Nat.pos_iff_ne_zero.mp positive)]
  refine congrArg (a :: ·) ?_
  by_cases last : count ≤ pageGranularity - a % pageGranularity
  · rw [Nat.min_eq_left last, if_pos (Nat.sub_self _), show (a + count - 1) / pageGranularity - a / pageGranularity = 0 by
      unfold pageGranularity at last ⊢
      omega]
    rfl
  · have page : a + (pageGranularity - a % pageGranularity) = (a / pageGranularity + 1) * pageGranularity := by
      unfold pageGranularity
      omega
    have quotient : (a / pageGranularity + 1) * pageGranularity / pageGranularity = a / pageGranularity + 1 :=
      Nat.mul_div_cancel _ (by decide)
    have same : (a / pageGranularity + 1) * pageGranularity + (count - (pageGranularity - a % pageGranularity)) - 1 = a + count - 1 := by
      unfold pageGranularity at last ⊢
      omega
    obtain ⟨n, pages⟩ : ∃ n, (a + count - 1) / pageGranularity - a / pageGranularity = n + 1 := by
      refine ⟨(a + count - 1) / pageGranularity - a / pageGranularity - 1, ?_⟩
      unfold pageGranularity at last ⊢
      omega
    rw [Nat.min_eq_right (Nat.le_of_not_le last), if_neg (by omega), page, quotient, same, pages,
      show (a + count - 1) / pageGranularity - (a / pageGranularity + 1) = n by omega, List.range_succ_eq_map, List.map_cons, List.map_map]
    refine congrArg (_ :: ·) (List.map_congr_left fun k _ => ?_)
    change (a / pageGranularity + 1 + (k + 1)) * pageGranularity = _
    rw [show a / pageGranularity + 1 + (k + 1) = a / pageGranularity + 1 + 1 + k by omega]

theorem lookups_ge {a count w : Nat} (member : w ∈ lookups a count) : a ≤ w ∧ 0 < count := by
  unfold lookups at member
  by_cases empty : count = 0
  · rw [if_pos empty] at member
    cases member
  · rw [if_neg empty] at member
    refine ⟨?_, Nat.pos_of_ne_zero empty⟩
    rcases List.mem_cons.mp member with rfl | later
    · exact Nat.le_refl _
    · obtain ⟨k, _, rfl⟩ := List.mem_map.mp later
      unfold pageGranularity
      omega

variable {id : Nat}

theorem demand_congr {s u : Vm.State} (space : u.space = s.space) (addresses : List Nat)
    (same : ∀ v ∈ addresses, translate (.process id) v u.ptm = translate (.process id) v s.ptm) :
    demand id u addresses = demand id s addresses := by
  induction addresses with
  | nil => rfl
  | cons v rest ih =>
      rw [demand, demand, same v List.mem_cons_self, space, ih fun w member => same w (List.mem_cons_of_mem _ member)]

theorem locate_there {s : Vm.State} {v phys : Nat} (there : translate (.process id) v s.ptm = some phys) :
    Vm.locate (paging id) v s = .ok (s, some phys) := by
  simp only [Vm.locate, paging, there, bind_ok]

theorem locate_absent {s : Vm.State} {v : Nat} (absent : translate (.process id) v s.ptm = none) :
    Vm.locate (paging id) v s = Vm.addressSpaceFixPage (.process id) v s >>= fun fixed =>
      match fixed with
      | none => .ok (s, none)
      | some u =>
          match translate (.process id) v u.ptm with
          | some phys => .ok (u, some phys)
          | none => .error .assertion := by
  simp only [Vm.locate, paging, absent, bind_ok]
  cases Vm.addressSpaceFixPage (.process id) v s with
  | error fault => rfl
  | ok fixed =>
      cases fixed with
      | none => rfl
      | some u =>
          cases found : translate (.process id) v u.ptm with
          | none => simp [bind_ok, found]
          | some phys => simp [bind_ok, found]

-- What a lookup does: the byte is there, or its page is brought in, or neither is possible.
theorem locate_cases {s : Vm.State} (tidy : Vm.Tidy (s.space (.process id)))
    (home : ∀ r ∈ (s.space (.process id)).regions, r.addressSpace = .process id) (v : Nat) (rest : List Nat) :
    (Vm.locate (paging id) v s = .ok (s, none) ∧ demand id s (v :: rest) = 0) ∨
      (∃ u phys cost, Vm.locate (paging id) v s = .ok (u, some phys) ∧ u.space = s.space ∧ freePages u + cost = freePages s ∧
        demand id s (v :: rest) = cost + demand id s rest ∧
        ∀ w, Vm.pageFloor v + pageGranularity ≤ w → translate (.process id) w u.ptm = translate (.process id) w s.ptm) ∨
      (Vm.locate (paging id) v s = .error Pmm.outOfMemory ∧ freePages s < demand id s (v :: rest)) := by
  rw [demand]
  cases there : translate (.process id) v s.ptm with
  | some phys =>
      refine .inr (.inl ⟨s, phys, 0, locate_there there, rfl, rfl, ?_, fun _ _ => rfl⟩)
      rw [if_pos (by simp), Nat.zero_add]
  | none =>
      rw [if_neg (by simp), locate_absent there]
      cases found : Vm.addrToRegion (s.space (.process id)) v with
      | none =>
          rw [fix_page_refused fun region at_ => by rw [found] at at_; cases at_]
          exact .inl ⟨rfl, rfl⟩
      | some region =>
          dsimp only
          by_cases dynamic : region.dynamicallyBacked = true
          · rw [if_pos dynamic]
            rcases fix_page_cases tidy found dynamic with ⟨_, u, paddr, fixed, space, paid, asked⟩ | ⟨short, failed⟩
            · have floor : Vm.pageFloor v ≤ v := Nat.div_mul_le_self _ _
              have ceiling : v < Vm.pageFloor v + pageGranularity := by
                unfold Vm.pageFloor pageGranularity
                omega
              rw [home region (Vm.addr_to_region_some tidy found).1] at asked
              have here : translate (.process id) v u.ptm = some (paddr + (v - Vm.pageFloor v)) := by
                rw [asked, translate, if_pos ⟨rfl, floor, ceiling⟩]
              refine .inr (.inl ⟨u, paddr + (v - Vm.pageFloor v), pageCost region, ?_, space, paid, rfl, fun w later => ?_⟩)
              · rw [fixed, bind_ok]
                dsimp only
                rw [here]
              · rw [asked, translate, if_neg fun inside => by omega]
            · rw [failed]
              exact .inr (.inr ⟨rfl, Nat.lt_of_lt_of_le short (Nat.le_add_right _ _)⟩)
          · rw [if_neg dynamic, fix_page_refused fun other at_ => by
              rw [found] at at_
              rw [← Option.some.inj at_]
              exact dynamic]
            exact .inl ⟨rfl, rfl⟩

theorem copy_from_loop_returns {address count : Nat} (fits : address + count < 2 ^ 64) (fuel : Nat) {i : Nat} (dest : List UInt8) {s : Vm.State}
    (tidy : Vm.Tidy (s.space (.process id))) (home : ∀ r ∈ (s.space (.process id)).regions, r.addressSpace = .process id)
    (enough : count ≤ i + fuel) (within : i ≤ count) :
    (∃ result, Vm.copyFromLoop (paging id) address count fuel i dest s = .ok result) ↔
      demand id s (lookups (address + i) (count - i)) ≤ freePages s := by
  induction fuel generalizing i dest s with
  | zero =>
      have done : count - i = 0 := by omega
      rw [Vm.copyFromLoop, if_neg (by omega), done, lookups, if_pos rfl]
      exact iff_of_true ⟨_, rfl⟩ (Nat.zero_le _)
  | succ fuel ih =>
      rw [Vm.copyFromLoop]
      by_cases more : i < count
      · rw [if_pos more, add64_eq (show address + i < 2 ^ 64 by omega), lookups_next (show 0 < count - i by omega)]
        obtain ⟨len, lenEq⟩ : ∃ len, len = min (count - i) (pageGranularity - (address + i) % pageGranularity) := ⟨_, rfl⟩
        have piece : Vm.pieceLength address count i = len := by
          rw [Vm.pieceLength, add64_eq (show address + i < 2 ^ 64 by omega), lenEq]
        have offset : (address + i) % pageGranularity < pageGranularity := Nat.mod_lt _ (by decide)
        rw [piece, ← lenEq]
        rcases locate_cases tidy home (address + i) (lookups (address + i + len) (count - i - len)) with
          ⟨refused, nothing⟩ | ⟨u, phys, cost, located, space, paid, costs, same⟩ | ⟨failed, dear⟩
        · rw [refused, nothing]
          exact iff_of_true ⟨_, rfl⟩ (Nat.zero_le _)
        · -- The pages behind this one are as they were.
          have rest : demand id u (lookups (address + (i + len)) (count - (i + len))) = demand id s (lookups (address + i + len) (count - i - len)) := by
            rw [Nat.add_assoc, Nat.sub_sub]
            refine demand_congr space _ fun w member => same w ?_
            obtain ⟨low, left⟩ := lookups_ge member
            unfold Vm.pageFloor
            unfold pageGranularity at *
            omega
          have later := ih (i := i + len) (dest ++ Vm.copyOut ((paging id).memory u) phys len) (s := u) (space ▸ tidy) (space ▸ home) (by omega) (by omega)
          rw [located, costs]
          refine Iff.trans later ?_
          rw [rest]
          omega
        · rw [failed]
          refine iff_of_false ?_ (Nat.not_le_of_lt dear)
          rintro ⟨result, run⟩
          cases run
      · have done : count - i = 0 := by omega
        rw [if_neg more, done, lookups, if_pos rfl]
        exact iff_of_true ⟨_, rfl⟩ (Nat.zero_le _)

end Debug

-- What follows a call and cannot fail does not matter for whether it returns.
theorem returns_bind {α β : Type} {first : Except Fault α} {next : α → Except Fault β} (total : ∀ value, ∃ result, next value = .ok result) :
    (∃ result, (first >>= next) = .ok result) ↔ ∃ value, first = .ok value := by
  constructor
  · rintro ⟨result, run⟩
    obtain ⟨value, done, _⟩ := (bind_eq_ok _ _ _).mp run
    exact ⟨value, done⟩
  · rintro ⟨value, done⟩
    obtain ⟨result, last⟩ := total value
    exact ⟨result, by rw [done, bind_ok, last]⟩

section Returns

variable {id : Nat} {t : State} (order : InOrder id t.vm)

include order

-- A region structure is had from the cache or from a new page of the pool.
theorem region_alloc_iff : (∃ result, Vm.regionAlloc t.vm = .ok result) ↔ Vm.Supply 1 t.vm (.process id) := by
  constructor
  · rintro ⟨⟨u, rid⟩, alloc⟩
    cases cache : t.vm.cache with
    | cons first rest => exact .inl (by simp [cache])
    | nil =>
        rcases Vm.refill_spec (Vm.sound_hosts order.sound) order.sound.owned with ⟨_, _, _, _, _, refills⟩ | ⟨failed, _⟩ | ⟨failed, _⟩
        · exact .inr ⟨by simp, refills⟩
        · rw [Vm.region_alloc_empty cache, failed] at alloc
          cases alloc
        · rw [Vm.region_alloc_empty cache, failed] at alloc
          cases alloc
  · intro supply
    obtain ⟨u, rid, alloc, _⟩ := Vm.region_alloc_supplied (n := 0) order.sound.owned (by decide) supply
    exact ⟨_, alloc⟩

omit order in
theorem place_region_returns {as : SpaceId} {u : Vm.State} {prot : Vm.Protection} {cache : Vm.Cache} {flags address size rid : Nat}
    (static : ¬ flags &&& Vm.flagDynamicallyBacked ≠ 0)
    (bounded : Vm.SegmentInBounds address size (u.space as).start (u.space as).limit) (aligned : address % pageGranularity = 0)
    (whole : size % pageGranularity = 0) :
    (∃ result, Vm.placeRegion as address size prot cache flags .anon 0 rid u = .ok result) ↔ size / pageGranularity ≤ freePages u := by
  have checked : assertThat (decide (address % pageGranularity = 0 ∧ size % pageGranularity = 0)) = .ok () := by
    rw [assertThat, if_pos (decide_eq_true ⟨aligned, whole⟩)]
  unfold Vm.placeRegion
  rw [show assertThat (decide (Vm.SegmentInBounds address size (u.space as).start (u.space as).limit)) = .ok () by
    rw [assertThat, if_pos (decide_eq_true bounded)], bind_ok, checked, bind_ok, Vm.mapBacking, bind_ok]
  dsimp only
  rw [if_neg (show ¬ (Vm.describeRegion as rid address size prot cache flags _).dynamicallyBacked = true from
    fun set => static (of_decide_eq_true set)), Vm.regionMap]
  have pages := map_pages_returns (s := u) (Vm.describeRegion as rid address size prot cache flags
    (.anon (decide (flags &&& Vm.flagZero ≠ 0)))) address (List.range (size / pageGranularity))
  rw [List.length_range] at pages
  rw [← pages]
  change (∃ result, ((assertThat (decide (address % pageGranularity = 0 ∧ size % pageGranularity = 0)) >>= _) >>= _) = .ok result) ↔ _
  rw [checked, bind_ok]
  exact returns_bind fun u => ⟨_, rfl⟩

theorem allocate_returns (size : Nat) (accepted : ¬ (size = 0 ∨ size % pageGranularity ≠ 0)) :
    (∃ result, Vm.vmMapAnon (.process id) Vm.nullptr size Vm.protRW .standard Vm.flagZero t.vm = .ok result) ↔
      Vm.Supply 1 t.vm (.process id) ∧
        ((∀ a, ¬ Vm.Hole (t.vm.space (.process id)) size a) ∨ size / pageGranularity + poolPages t.vm ≤ freePages t.vm) := by
  have notFixed : ¬ Vm.Fixed Vm.flagZero := fun isFixed => isFixed (by decide)
  have taken : ¬ Vm.Rejected Vm.nullptr size Vm.flagZero := by
    rintro (zero | ragged | ⟨isFixed, _⟩)
    · exact accepted (.inl zero)
    · exact accepted (.inr ragged)
    · exact notFixed isFixed
  rw [← region_alloc_iff order]
  have stops : ∀ fault, Vm.regionAlloc t.vm = .error fault →
      ((∃ result, Vm.vmMapAnon (.process id) Vm.nullptr size Vm.protRW .standard Vm.flagZero t.vm = .ok result) ↔
        (∃ result, Vm.regionAlloc t.vm = .ok result) ∧
          ((∀ a, ¬ Vm.Hole (t.vm.space (.process id)) size a) ∨ size / pageGranularity + poolPages t.vm ≤ freePages t.vm)) := by
    intro fault failed
    apply iff_of_false
    · rintro ⟨result, run⟩
      change Vm.mapCommon _ _ _ _ _ _ _ _ _ = _ at run
      rw [Vm.map_common_accepted taken, failed] at run
      cases run
    · rintro ⟨⟨result, alloc⟩, _⟩
      rw [failed] at alloc
      cases alloc
  rcases Vm.region_alloc_cases (Vm.sound_hosts order.sound) order.sound.owned with ⟨u, rid, alloc, _, step, hosts⟩ | failed | failed
  · have tidy := Vm.pool_step_tidy step hosts (order.sound.tidy (.process id))
    have space : u.space (.process id) = t.vm.space (.process id) := by
      rcases step with same | ⟨hole, page⟩
      · rw [same]
      · exact page.frame.others _ (by simp)
    have paid := region_alloc_weight alloc
    rw [and_iff_right ⟨_, alloc⟩]
    rcases Vm.map_common_search taken alloc tidy with
      ⟨noPlace, run⟩ | ⟨address, chosen, run⟩
    · rw [space] at noPlace
      exact iff_of_true ⟨_, run⟩ (.inl (noPlace.2.resolve_left notFixed))
    · have start : (u.space (.process id)).start % pageGranularity = 0 := by
        rw [space]
        exact order.sound.aligned _
      have aligned := Vm.chosen_aligned tidy start chosen
      have whole : size % pageGranularity = 0 := by
        by_contra ragged
        exact accepted (.inr ragged)
      change (∃ result, Vm.mapCommon _ _ _ _ _ _ _ _ _ = .ok result) ↔ _
      rw [run, place_region_returns (by decide) chosen.hole.1 aligned whole, or_iff_right fun none => none address (space ▸ chosen.hole)]
      omega
  · exact stops _ failed
  · exact stops _ failed

theorem unmap_inside_returns {pointer size : Nat} {split : Region} (range : Vm.InRange t.vm (.process id) pointer size) (positive : 0 < size)
    (member : split ∈ (t.vm.space (.process id)).regions) (covers : split.Covers pointer) (beyond : pointer + size < split.limit) :
    (∃ u, Vm.vmUnmap (.process id) pointer size t.vm = .ok u) ↔ Vm.CloneFits (pointer + size) split ∧ Vm.Supply 1 t.vm (.process id) := by
  have iff := Vm.unmap_inside_iff order.sound.owned (Vm.sound_hosts order.sound) (order.sound.tidy (.process id)) range positive member covers beyond
  have other : ¬ ((.process id : SpaceId) = .global ∧ Vm.Absorbs t.vm split) := fun both => by cases both.1
  rw [or_iff_left other] at iff
  refine ⟨?_, fun both => ?_⟩
  · rintro ⟨u, run⟩
    have tidy := order.sound.tidy (.process id)
    have opened := Vm.unmap_inside_eq tidy range positive member covers beyond
    obtain ⟨r, requested⟩ : ∃ r, r = t.vm.request (.unmap split.addressSpace pointer size) := ⟨_, rfl⟩
    rw [← requested] at opened
    have space : r.space = t.vm.space := requested ▸ rfl
    have cached : r.cache = t.vm.cache := requested ▸ rfl
    have memory : r.pmm = t.vm.pmm := requested ▸ rfl
    have owned : Vm.Owned r [] := Vm.owned_congr order.sound.owned space cached (requested ▸ rfl)
    have tidyR : Vm.Tidy (r.space (.process id)) := space ▸ tidy
    have memberR : split ∈ (r.space (.process id)).regions := space ▸ member
    by_cases supply : Vm.Supply 1 t.vm (.process id)
    · have supplyR : Vm.Supply 1 r (.process id) := requested ▸ Vm.supply_quiet (Vm.quiet_request _ _ _) supply
      rcases Vm.carve_first_spec tidyR owned (fun _ => supplyR) memberR covers.1 (Nat.le_of_lt beyond) with
        ⟨w, rid, done, carved, _⟩ | ⟨_, _, failed⟩
      · rw [space] at carved
        exact iff.mp ⟨w, opened.trans done, Vm.carved_maps tidy member covers.1 (Nat.le_of_lt beyond) carved⟩
      · rw [opened, failed] at run
        cases run
    · -- Without a structure for the remainder the call does not come back.
      have dry : r.cache = [] := by
        rw [cached]
        by_contra some
        exact supply (.inl (List.length_pos_iff.mpr some))
      have hosts : Vm.Hosts r := Vm.hosts_congr (Vm.sound_hosts order.sound) (by rw [space])
      rw [opened] at run
      rcases Vm.refill_spec hosts owned with ⟨_, _, _, _, _, refills⟩ | ⟨failed, _⟩ | ⟨failed, _⟩
      · exact absurd (.inr ⟨by simp, Vm.refills_congr refills memory.symm (by rw [space])⟩) supply
      · exact absurd run (Vm.dry_carve_fails tidyR owned memberR beyond dry failed)
      · exact absurd run (Vm.dry_carve_fails tidyR owned memberR beyond dry failed)
  · obtain ⟨u, run, _⟩ := iff.mpr both
    exact ⟨u, run⟩

theorem free_returns (pointer size : Nat)
    (accepted : ¬ (size = 0 ∨ size % pageGranularity ≠ 0 ∨ pointer = Vm.nullptr ∨ pointer % pageGranularity ≠ 0)) :
    (∃ u, Vm.vmUnmap (.process id) pointer size t.vm = .ok u) ↔
      Vm.SegmentInBounds pointer size (t.vm.space (.process id)).start (t.vm.space (.process id)).limit ∧
        (((∀ r ∈ (t.vm.space (.process id)).regions, r.Covers pointer → r.limit ≤ pointer + size) ∧
            ¬ Vm.Displaces (t.vm.space (.process id)).regions pointer (pointer + size)) ∨
          ∃ r ∈ (t.vm.space (.process id)).regions, r.Covers pointer ∧ pointer + size < r.limit ∧ Vm.CloneFits (pointer + size) r ∧
            Vm.Supply 1 t.vm (.process id)) := by
  have tidy := order.sound.tidy (.process id)
  have positive : 0 < size := Nat.pos_of_ne_zero fun zero => accepted (.inl zero)
  have whole : size % pageGranularity = 0 := by
    by_contra ragged
    exact accepted (.inr (.inl ragged))
  have aligned : pointer % pageGranularity = 0 := by
    by_contra ragged
    exact accepted (.inr (.inr (.inr ragged)))
  by_cases bounded : Vm.SegmentInBounds pointer size (t.vm.space (.process id)).start (t.vm.space (.process id)).limit
  · have range : Vm.InRange t.vm (.process id) pointer size := ⟨aligned, whole, bounded⟩
    rw [and_iff_right bounded]
    by_cases outside : ∀ r ∈ (t.vm.space (.process id)).regions, r.Covers pointer → r.limit ≤ pointer + size
    · rw [and_iff_right outside]
      have within : ¬ ∃ r ∈ (t.vm.space (.process id)).regions, r.Covers pointer ∧ pointer + size < r.limit ∧ Vm.CloneFits (pointer + size) r ∧
          Vm.Supply 1 t.vm (.process id) := by
        rintro ⟨r, member, covers, beyond, _⟩
        have bound := outside r member covers
        omega
      rw [or_iff_left within]
      rcases Vm.unmap_outside_spec tidy range positive order.sound.owned outside with ⟨placed, u, run, _⟩ | ⟨displaces, failed⟩
      · exact iff_of_true ⟨u, run⟩ placed
      · refine iff_of_false ?_ (not_not_intro displaces)
        rintro ⟨u, run⟩
        rw [failed] at run
        cases run
    · rw [or_iff_right fun both => outside both.1]
      push Not at outside
      obtain ⟨split, member, covers, beyond⟩ := outside
      rw [unmap_inside_returns order range positive member covers beyond]
      constructor
      · rintro ⟨fits, supply⟩
        exact ⟨split, member, covers, beyond, fits, supply⟩
      · rintro ⟨r, memberR, coversR, _, fits, supply⟩
        rw [Vm.covering_unique tidy member memberR covers coversR]
        exact ⟨fits, supply⟩
  · refine iff_of_false ?_ fun both => bounded both.1
    rintro ⟨u, run⟩
    have unchecked := fun range : Vm.InRange t.vm (.process id) pointer size => bounded range.bounded
    unfold Vm.vmUnmap at run
    rw [Vm.rewrite_common_checks positive unchecked] at run
    cases run

theorem debug_returns (length str : Nat) :
    (∃ result, syscallDebug id length str t = .ok result) ↔
      Vm.memoryExists (t.vm.space (.process id)) str (min length maxDebugLength + 1) = .ok false ∨
        demand id t.vm (lookups str (min length maxDebugLength + 1)) ≤ freePages t.vm := by
  have bounded : (if length > maxDebugLength then maxDebugLength else length) = min length maxDebugLength := by
    by_cases long : length > maxDebugLength
    · rw [if_pos long, Nat.min_eq_right (Nat.le_of_lt long)]
    · rw [if_neg long, Nat.min_eq_left (Nat.le_of_not_lt long)]
  have small : min length maxDebugLength ≤ 512 := Nat.min_le_right _ _
  obtain ⟨count, counted⟩ : ∃ count, count = min length maxDebugLength + 1 := ⟨_, rfl⟩
  have buffer : (∃ result, syscallDebug id length str t = .ok result) ↔ ∃ result, Vm.vmCopyFrom (paging id) str count t.vm = .ok result := by
    unfold syscallDebug
    rw [returns_bind fun result => ?_, bounded]
    · unfold syscallStringIn
      rw [returns_bind fun result => ⟨_, rfl⟩, add64_eq (by omega), ← counted]
      unfold syscallBufferIn
      exact returns_bind fun result => ⟨_, rfl⟩
    · obtain ⟨u, copied⟩ := result
      cases copied with
      | none => exact ⟨_, rfl⟩
      | some text => exact ⟨_, rfl⟩
  rw [buffer, ← counted]
  have tidy := order.sound.tidy (.process id)
  unfold Vm.vmCopyFrom
  change (∃ result, (Vm.memoryExists (t.vm.space (.process id)) str count >>= _) = .ok result) ↔ _
  rcases Vm.memory_exists_returns tidy str count with there | missing
  · have inside : AddressInBounds str (t.vm.space (.process id)).start (t.vm.space (.process id)).limit := by
      by_contra outside
      rw [Vm.memoryExists, if_pos (.inl outside)] at there
      cases there
    have below := inside.2
    rw [order.limit] at below
    have top47 : Vm.userspaceEnd < 2 ^ 47 := by decide
    have loop := copy_from_loop_returns (by omega : str + count < 2 ^ 64) count (i := 0) [] tidy order.home (by omega) (by omega)
    rw [there, bind_ok, or_iff_right (by simp)]
    exact loop
  · rw [missing, bind_ok]
    exact iff_of_true ⟨_, rfl⟩ (.inl rfl)

theorem fault_returns (address : Nat) (kind : FaultKind) :
    (∃ result, pageFaultHandler id address kind t = .ok result) ↔ kind ≠ .notPresent ∨
      AddressInBounds address (t.vm.space .global).start (t.vm.space .global).limit ∨
      (t.inFlight = false ∧ ∃ r ∈ (t.vm.space (.process id)).regions, r.Covers address ∧ r.dynamicallyBacked = true ∧
        pageCost r ≤ freePages t.vm) := by
  have tidy := order.sound.tidy (.process id)
  unfold pageFaultHandler vmFault
  by_cases other : kind ≠ .notPresent
  · rw [if_pos other]
    exact iff_of_true ⟨_, rfl⟩ (.inl other)
  · rw [if_neg other, or_iff_right other]
    by_cases kernel : AddressInBounds address (t.vm.space .global).start (t.vm.space .global).limit
    · rw [if_pos kernel]
      exact iff_of_true ⟨_, rfl⟩ (.inl kernel)
    · rw [if_neg kernel, or_iff_right kernel]
      cases flight : t.inFlight with
      | true =>
          refine iff_of_false ?_ fun both => by cases both.1
          rintro ⟨result, run⟩
          cases run
      | false =>
          rw [and_iff_right rfl]
          change (∃ result, (vmFaultSoft id { t with inFlight := true, address := address } >>= _) = .ok result) ↔ _
          rw [returns_bind fun u => ⟨_, rfl⟩]
          unfold vmFaultSoft
          change (∃ result, (Vm.addressSpaceFixPage (.process id) address t.vm >>= _) = .ok result) ↔ _
          cases found : Vm.addrToRegion (t.vm.space (.process id)) address with
          | none =>
              rw [fix_page_refused fun region at_ => by rw [found] at at_; cases at_]
              refine iff_of_false ?_ ?_
              · rintro ⟨result, run⟩
                cases run
              · rintro ⟨r, member, covers, _⟩
                exact Vm.addr_to_region_none tidy found r member covers
          | some region =>
              obtain ⟨memberF, coversF⟩ := Vm.addr_to_region_some tidy found
              have only : ∀ r ∈ (t.vm.space (.process id)).regions, r.Covers address → r = region := fun r member covers =>
                Vm.covering_unique tidy member memberF covers coversF
              by_cases dynamic : region.dynamicallyBacked = true
              · rcases fix_page_cases tidy found dynamic with ⟨paid, u, _, fixed, _⟩ | ⟨short, failed⟩
                · rw [fixed]
                  exact iff_of_true ⟨_, rfl⟩ ⟨region, memberF, coversF, dynamic, paid⟩
                · rw [failed]
                  refine iff_of_false ?_ ?_
                  · rintro ⟨result, run⟩
                    cases run
                  · rintro ⟨r, member, covers, _, paid⟩
                    rw [only r member covers] at paid
                    omega
              · rw [fix_page_refused fun other at_ => by
                  rw [found] at at_
                  rw [← Option.some.inj at_]
                  exact dynamic]
                refine iff_of_false ?_ ?_
                · rintro ⟨result, run⟩
                  cases run
                · rintro ⟨r, member, covers, lazily, _⟩
                  rw [only r member covers] at lazily
                  exact dynamic lazily

end Returns

-- A process that has nothing mapped.
def freshThread : State := ⟨UserSpace.freshMachine.vm, false, 0⟩

end Elysium.UserRequests
