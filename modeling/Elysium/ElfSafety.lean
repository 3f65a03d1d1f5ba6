import Elysium.ElfBuffers
import Elysium.ElfLoad
import Elysium.ElfPlaces

set_option autoImplicit false

namespace Elysium.ElfBuffers

open Elf (VfsNode ElfFile ElfError ProgramHeader programHeaderSize loadSegment loadFrom copySegment ptLoad Placed Covered Held Bounded SegmentBuffer
  readsWhole Reserve reserve_spent)
open UserSpace (Machine KernelSpace Roomy roomy_mono spare)
open UserRequests (freePages)

-- elf_load with the block that the program headers are read to.
def elfLoad (id top : Nat) (elf : ElfFile) (m : Machine) : Except Fault (Machine × Except ElfError Unit) := do
  let phdr ← heapAlloc elf.entrySize
  if phdr < programHeaderSize then .error .undefined else Elf.elfLoad id top elf m

-- The PT_LOAD segments that elf_load gets to and does not find malformed, if all goes well with those before them.
def reachedFrom (elf : ElfFile) : Nat → Nat → List ProgramHeader
  | 0, _ => []
  | left + 1, i =>
      match Elf.readPhdr elf i with
      | none => []
      | some phdr =>
          if phdr.type = ptLoad then
            if phdr.filesz > phdr.memsz then []
            else if phdr.filesz > 0 ∧ readsWhole elf.file phdr ≠ true then [phdr]
            else phdr :: reachedFrom elf left (i + 1)
          else reachedFrom elf left (i + 1)

def reached (elf : ElfFile) : List ProgramHeader := reachedFrom elf elf.count 0

-- Each has its place behind the others, and a place for its bytes.
def Seated (file : VfsNode) : List ProgramHeader → List ProgramHeader → Prop
  | _, [] => True
  | earlier, phdr :: rest => Placed earlier phdr ∧ Covered file earlier phdr ∧ Seated file (earlier ++ [phdr]) rest

-- The segments up to the first that is not placed.
def placedFrom : List ProgramHeader → List ProgramHeader → List ProgramHeader
  | _, [] => []
  | earlier, phdr :: rest => if Placed earlier phdr then phdr :: placedFrom (earlier ++ [phdr]) rest else []

-- What a segment needs besides the pages that its bytes go to: those of its buffer, and one for the pool at every region.
def cost (phdr : ProgramHeader) : Nat := phdr.bufferSize / pageGranularity + 2

def costs (segments : List ProgramHeader) : Nat := (segments.map cost).sum

def pagesOf (segments : List ProgramHeader) : Finset Nat := segments.foldr (fun phdr pages => phdr.copyPages ∪ pages) ∅

-- Memory for the pages, for the buffers and for the pool, and addresses for the last two.
structure LoadRoom (segments : List ProgramHeader) (m : Machine) : Prop where
  memory : (segments.map fun phdr => phdr.copyPages.card + cost phdr).sum ≤ spare m
  addresses : Roomy (m.vm.space .global) (costs segments)

section Segments

variable {id top n kept : Nat} {supply : List Nat} {earlier : List ProgramHeader} {phdr : ProgramHeader} {m : Machine} {file : VfsNode} {U : Finset Nat}

-- The kernel's space is smaller than the words it is addressed with.
theorem roomy_small (tidy : Vm.Tidy (m.vm.space .global)) (kernel : KernelSpace m.vm) (roomy : Roomy (m.vm.space .global) n) :
    n * pageGranularity ≤ 2 ^ 47 := by
  obtain ⟨a, run⟩ := roomy
  have above := run.above
  have below := run.below
  have fits := tidy.fits
  have start : Vm.kernelspaceStart = 2 ^ 64 - 2 ^ 47 := by decide
  rw [kernel.start] at above
  omega

theorem buffer_size_enough (word : phdr.filesz < 2 ^ 64) (placed : Placed earlier phdr) (positive : 0 < phdr.filesz) :
    phdr.filesz ≤ phdr.bufferSize := by
  have size := Elf.math_ceil_positive word (placed.buffer positive)
  unfold ProgramHeader.bufferSize
  rw [size]
  unfold pageGranularity
  omega

variable (held : Held id top supply earlier m) (within : phdr.filesz ≤ phdr.memsz) (word : phdr.filesz < 2 ^ 64) (placed : Placed earlier phdr)
  (roomy : Roomy (m.vm.space .global) (cost phdr + n)) (reserve : Reserve top U (cost phdr + kept) m)
include held within word placed roomy reserve

omit word in
theorem segment_region (file : VfsNode) :
    ∃ u, Held id top supply (earlier ++ [phdr]) u ∧ Roomy (u.vm.space .global) (phdr.bufferSize / pageGranularity + n + 1) ∧
      Reserve top U (phdr.bufferSize / pageGranularity + 1 + kept) u ∧
      loadSegment id top file phdr m = if phdr.filesz > 0 then copySegment id top file phdr u else .ok (u, .ok ()) := by
  have enough : 0 < freePages m.vm := by
    have least : 2 ≤ cost phdr := Nat.le_add_left 2 _
    unfold Reserve spare at reserve
    unfold freePages
    omega
  obtain ⟨vm, heldV, roomyV, weight, run⟩ := Elf.placed_held (n := phdr.bufferSize / pageGranularity + n + 1) file held placed within
    (roomy_mono roomy (by unfold cost; omega)) enough
  refine ⟨⟨vm, m.tables⟩, heldV, roomyV, reserve_spent (m := m) ?_ rfl weight, run⟩
  rw [show 1 + (phdr.bufferSize / pageGranularity + 1 + kept) = cost phdr + kept by unfold cost; omega]
  exact reserve

-- A segment with bytes in the file gets a buffer for them.
theorem segment_buffered (file : VfsNode) (positive : 0 < phdr.filesz) :
    ∃ u vm address, Held id top supply (earlier ++ [phdr]) u ∧ Reserve top U (phdr.bufferSize / pageGranularity + 1 + kept) u ∧
      SegmentBuffer id top supply (phdr.bufferSize / pageGranularity + n) phdr.bufferSize u vm address ∧
      phdr.vaddr + phdr.filesz < 2 ^ 64 ∧ loadSegment id top file phdr m = copySegment id top file phdr u := by
  obtain ⟨u, heldU, roomyU, reserveU, run⟩ := segment_region held within placed roomy reserve file
  have pages := Nat.div_mul_cancel (Nat.dvd_of_mod_eq_zero (Elf.math_ceil_whole phdr.filesz))
  have fits : phdr.bufferSize ≤ (phdr.bufferSize / pageGranularity + n) * pageGranularity := by
    rw [Nat.add_mul]
    exact (Nat.le_of_eq pages.symm).trans (Nat.le_add_right _ _)
  have enough : phdr.bufferSize / pageGranularity < freePages u.vm := by
    have room : phdr.bufferSize / pageGranularity + 1 + kept ≤ spare u := (Nat.le_add_right _ _).trans reserveU
    have free : spare u ≤ freePages u.vm := Nat.min_le_left _ _
    omega
  obtain ⟨vm, address, buffer⟩ := Elf.segment_buffer heldU.consistent heldU.kernel (placed.buffer positive) (Elf.math_ceil_whole _) roomyU fits enough
  refine ⟨u, vm, address, heldU, reserveU, buffer, ?_, ?_⟩
  · have small := roomy_small (heldU.consistent.vm.tidy .global) heldU.kernel (roomy_mono roomyU (Nat.le_succ _))
    have size := buffer_size_enough word placed positive
    have below := placed.below
    have limit : Vm.userspaceEnd < 2 ^ 47 := by decide
    unfold ProgramHeader.limit ProgramHeader.start at below
    unfold pageGranularity at *
    omega
  · rw [run, if_pos positive]

theorem segment_stops (bounded : Bounded file) (positive : 0 < phdr.filesz) (part : readsWhole file phdr ≠ true) :
    ∃ u, loadSegment id top file phdr m = .ok (u, .error .fs) := by
  obtain ⟨u, vm, address, _, _, buffer, _, run⟩ := segment_buffered held within word placed roomy reserve file positive
  rw [run]
  exact Elf.copy_stops bounded buffer (buffer_size_enough word placed positive) part

theorem segment_seated (bounded : Bounded file) (inU : phdr.copyPages ⊆ U) (whole : 0 < phdr.filesz → readsWhole file phdr = true)
    (covered : Covered file earlier phdr) :
    ∃ u, loadSegment id top file phdr m = .ok (u, .ok ()) ∧ Held id top supply (earlier ++ [phdr]) u ∧ Roomy (u.vm.space .global) n ∧
      Reserve top U kept u := by
  by_cases positive : 0 < phdr.filesz
  · obtain ⟨u, vm, address, heldU, reserveU, buffer, low, run⟩ := segment_buffered held within word placed roomy reserve file positive
    obtain ⟨w, copied, heldW, roomyW, reserveW⟩ := Elf.copy_covered bounded buffer (buffer_size_enough word placed positive) heldU low positive
      (whole positive) (covered positive (whole positive)) inU reserveU
    rw [run]
    exact ⟨w, copied, heldW, roomy_mono roomyW (Nat.le_add_left _ _), reserveW⟩
  · obtain ⟨u, heldU, roomyU, reserveU, run⟩ := segment_region held within placed roomy reserve file
    rw [run, if_neg positive]
    exact ⟨u, rfl, heldU, roomy_mono roomyU ((Nat.le_add_left n _).trans (Nat.le_succ _)), reserve_spent reserveU rfl (Nat.le_add_right _ _)⟩

theorem segment_uncovered (bounded : Bounded file) (uncovered : ¬ Covered file earlier phdr) (result : Machine × Except ElfError Unit) :
    loadSegment id top file phdr m ≠ .ok result := by
  unfold Covered at uncovered
  simp only [not_forall, exists_prop] at uncovered
  obtain ⟨positive, whole, a, above, below, bare⟩ := uncovered
  obtain ⟨u, vm, address, heldU, _, buffer, low, run⟩ := segment_buffered held within word placed roomy reserve file positive
  rw [run]
  exact Elf.copy_uncovered bounded buffer (buffer_size_enough word placed positive) heldU low positive whole above below
    (fun e member takes => bare ⟨e, member, takes⟩) result

end Segments

section Run

variable {id top : Nat} {supply : List Nat} {earlier : List ProgramHeader} {m : Machine} {elf : ElfFile} {U : Finset Nat}

theorem costs_cons (phdr : ProgramHeader) (rest : List ProgramHeader) : costs (phdr :: rest) = cost phdr + costs rest := by
  rw [costs, List.map_cons, List.sum_cons, costs]

theorem load_malformed {file : VfsNode} {phdr : ProgramHeader} (malformed : phdr.filesz > phdr.memsz) :
    loadSegment id top file phdr m = .ok (m, .error .malformed) := by
  unfold loadSegment
  exact if_pos malformed

-- The loop returns exactly where the segments it gets to are seated.
theorem load_from_iff (bounded : Bounded elf.file) (left i : Nat) (held : Held id top supply earlier m)
    (roomy : Roomy (m.vm.space .global) (costs (placedFrom earlier (reachedFrom elf left i))))
    (inU : ∀ phdr ∈ placedFrom earlier (reachedFrom elf left i), phdr.copyPages ⊆ U)
    (reserve : Reserve top U (costs (placedFrom earlier (reachedFrom elf left i))) m) :
    (∃ result, loadFrom id top elf left i m = .ok result) ↔ Seated elf.file earlier (reachedFrom elf left i) := by
  induction left generalizing i earlier m with
  | zero => exact iff_of_true ⟨_, rfl⟩ trivial
  | succ left ih =>
      rw [loadFrom]
      rw [reachedFrom] at roomy inU reserve ⊢
      cases read : Elf.readPhdr elf i with
      | none => exact iff_of_true ⟨_, rfl⟩ trivial
      | some phdr =>
          rw [read] at roomy inU reserve
          dsimp only at roomy inU reserve ⊢
          have word := read_phdr_word read
          by_cases isLoad : phdr.type = ptLoad
          swap
          · rw [if_neg isLoad] at roomy inU reserve ⊢
            rw [if_neg isLoad]
            exact ih (i + 1) held roomy inU reserve
          rw [if_pos isLoad] at roomy inU reserve ⊢
          rw [if_pos isLoad]
          by_cases malformed : phdr.filesz > phdr.memsz
          · rw [if_pos malformed, load_malformed malformed, bind_ok]
            exact iff_of_true ⟨_, rfl⟩ trivial
          rw [if_neg malformed] at roomy inU reserve ⊢
          have within := Nat.le_of_not_lt malformed
          by_cases placed : Placed earlier phdr
          swap
          · refine iff_of_false ?_ ?_
            · rintro ⟨result, run⟩
              obtain ⟨_, loaded, _⟩ := (bind_eq_ok _ _ _).mp run
              exact Elf.unplaced_fails held within placed _ loaded
            · split
              · exact fun seated => placed seated.1
              · exact fun seated => placed seated.1
          by_cases part : phdr.filesz > 0 ∧ readsWhole elf.file phdr ≠ true
          · rw [if_pos part, placedFrom, if_pos placed, costs_cons] at roomy reserve
            rw [if_pos part]
            obtain ⟨u, loaded⟩ := segment_stops held within word placed roomy reserve bounded part.1 part.2
            rw [loaded, bind_ok]
            exact iff_of_true ⟨_, rfl⟩ ⟨placed, fun _ whole => absurd whole part.2, trivial⟩
          · rw [if_neg part, placedFrom, if_pos placed] at roomy inU reserve
            rw [costs_cons] at roomy reserve
            rw [if_neg part]
            have whole : 0 < phdr.filesz → readsWhole elf.file phdr = true := fun positive => not_not.mp fun missing => part ⟨positive, missing⟩
            by_cases covered : Covered elf.file earlier phdr
            · obtain ⟨u, loaded, heldU, roomyU, reserveU⟩ := segment_seated held within word placed roomy reserve bounded
                (inU phdr List.mem_cons_self) whole covered
              rw [loaded, bind_ok]
              refine (ih (i + 1) heldU roomyU (fun other member => inU other (List.mem_cons_of_mem _ member)) reserveU).trans ?_
              exact ⟨fun rest => ⟨placed, covered, rest⟩, fun seated => seated.2.2⟩
            · refine iff_of_false ?_ fun seated => covered seated.2.1
              rintro ⟨result, run⟩
              obtain ⟨_, loaded, _⟩ := (bind_eq_ok _ _ _).mp run
              exact segment_uncovered held within word placed roomy reserve bounded covered _ loaded

theorem pages_of_covers {segments : List ProgramHeader} {phdr : ProgramHeader} (member : phdr ∈ segments) : phdr.copyPages ⊆ pagesOf segments := by
  induction segments with
  | nil => cases member
  | cons first rest ih =>
      rw [pagesOf, List.foldr_cons]
      rcases List.mem_cons.mp member with rfl | later
      · exact Finset.subset_union_left
      · exact (ih later).trans Finset.subset_union_right

theorem pages_of_card (segments : List ProgramHeader) :
    costs segments + (pagesOf segments).card ≤ (segments.map fun phdr => phdr.copyPages.card + cost phdr).sum := by
  induction segments with
  | nil => simp [costs, pagesOf]
  | cons phdr rest ih =>
      have both := Finset.card_union_le phdr.copyPages (pagesOf rest)
      have together : pagesOf (phdr :: rest) = phdr.copyPages ∪ pagesOf rest := rfl
      rw [costs_cons, together, List.map_cons, List.sum_cons]
      omega

theorem load_room_reserve {segments : List ProgramHeader} (room : LoadRoom segments m) : Reserve top (pagesOf segments) (costs segments) m := by
  have fewer := Finset.card_filter_le (pagesOf segments) fun P => Ptm.frameAt top m.tables P = none
  have enough := room.memory
  have total := pages_of_card segments
  unfold Reserve
  omega

end Run

-- All calls return, and what they read has a buffer of its size.
structure Survives (id top : Nat) (file : VfsNode) (m : Machine) : Prop where
  read : ∃ result, elfRead file = .ok result
  interpreter : ∀ elf, elfRead file = .ok (.ok elf) → ∃ result, elfLookupInterpreter elf = .ok result
  phdrAddress : ∀ elf, elfRead file = .ok (.ok elf) → ∃ result, elfLookupPhdrAddress elf = .ok result
  load : ∀ elf, elfRead file = .ok (.ok elf) → ∃ result, elfLoad id top elf m = .ok result
  buffers : ∀ elf, elfRead file = .ok (.ok elf) → ∀ phdr ∈ reached elf, 0 < phdr.filesz → phdr.filesz ≤ phdr.bufferSize

section Results

open Elf (rdskNode loaderMachine loaderTables oneSegment oneSegmentElf oneSegmentHeader)

variable {id top : Nat} {supply : List Nat} {m : Machine} {file : VfsNode} {elf : ElfFile}

theorem reached_word {left i : Nat} {phdr : ProgramHeader} (member : phdr ∈ reachedFrom elf left i) : phdr.filesz < 2 ^ 64 := by
  induction left generalizing i with
  | zero => cases member
  | succ left ih =>
      rw [reachedFrom] at member
      cases read : Elf.readPhdr elf i with
      | none =>
          rw [read] at member
          cases member
      | some first =>
          rw [read] at member
          dsimp only at member
          split at member
          · split at member
            · cases member
            · split at member
              · exact List.mem_singleton.mp member ▸ read_phdr_word read
              · rcases List.mem_cons.mp member with rfl | later
                · exact read_phdr_word read
                · exact ih later
          · exact ih member

theorem seated_placed {earlier segments : List ProgramHeader} (seated : Seated file earlier segments) {phdr : ProgramHeader}
    (member : phdr ∈ segments) : ∃ before, Placed before phdr := by
  induction segments generalizing earlier with
  | nil => cases member
  | cons first rest ih =>
      rcases List.mem_cons.mp member with rfl | later
      · exact ⟨earlier, seated.1⟩
      · exact ih seated.2.2 later

theorem started_held (started : UserSpace.Started id top supply m) (kernel : KernelSpace m.vm) : Held id top supply [] m := by
  refine ⟨UserSpace.started_consistent started, kernel, fun e member => absurd member List.not_mem_nil, fun a v => iff_of_false ?_ ?_⟩
  · rintro ⟨r, member, _⟩
    rw [started.empty] at member
    cases member
  · rintro ⟨e, member, _⟩
    cases member

theorem elf_load_iff (accepted : Elf.elfRead file = .ok elf) (bounded : Bounded file) (started : UserSpace.Started id top supply m)
    (kernel : KernelSpace m.vm) (room : LoadRoom (placedFrom [] (reached elf)) m) :
    (∃ result, elfLoad id top elf m = .ok result) ↔ Seated file [] (reached elf) := by
  obtain ⟨block, allocated, enough⟩ := entry_block accepted
  have same := (elf_read_entries accepted).1
  rw [elfLoad, allocated, bind_ok, if_neg (Nat.not_lt.mpr enough), Elf.elfLoad, ← same]
  exact load_from_iff (same ▸ bounded) elf.count 0 (started_held started kernel) room.addresses (fun phdr => pages_of_covers) (load_room_reserve room)

theorem one_segment_reached : reached oneSegmentElf = [oneSegmentHeader] := by decide +kernel

theorem one_segment_interpreter : interpreterSegment oneSegmentElf oneSegmentElf.count 0 = none := by decide +kernel

theorem one_segment_room {pmm : Pmm.State} (memory : Elf.LoaderMemory pmm) (cache : List Nat) : LoadRoom [oneSegmentHeader] (loaderMachine pmm cache) := by
  refine ⟨?_, Vm.kernelspaceStart, by decide, Nat.le_refl _, show Vm.kernelspaceStart + 3 * pageGranularity ≤ Vm.kernelspaceEnd by decide, ?_⟩
  · have tables : spare (loaderMachine pmm cache) = min (Pmm.zoneWeight pmm .normal) (loaderTables.length / 3) := rfl
    rw [tables, memory.weight]
    decide
  · rintro x v _ _ ⟨r, member, _⟩
    cases member

-- A segment with nothing in it, at the start of a page.
def emptySegment : List UInt8 :=
  [0x7F, 0x45, 0x4C, 0x46, 2, 1, 1, 0] ++ List.replicate 8 0 ++ [2, 0, 0x3E, 0, 1, 0, 0, 0] ++ [0, 0x50, 0, 0, 0, 0, 0, 0] ++
    [64, 0, 0, 0, 0, 0, 0, 0] ++ List.replicate 12 0 ++ [64, 0, 56, 0, 1, 0] ++ List.replicate 6 0 ++
    [1, 0, 0, 0, 5, 0, 0, 0] ++ List.replicate 8 0 ++ [0, 0x50, 0, 0, 0, 0, 0, 0] ++ List.replicate 32 0

def emptySegmentElf : ElfFile := ⟨rdskNode emptySegment, 0x5000, 56, 64, 1⟩

def emptySegmentHeader : ProgramHeader := ⟨ptLoad, 5, 0, 0x5000, 0, 0⟩

theorem empty_segment_accepted : Elf.elfRead (rdskNode emptySegment) = .ok emptySegmentElf := rfl

end Results

end Elysium.ElfBuffers
