import Elysium.Elf
import Elysium.UserLazy
import Elysium.UserZero

set_option autoImplicit false

namespace Elysium.Elf

open UserSpace (Machine Consistent Lazy Ledger MappedLazily KernelSpace Roomy SameMap Pooled InUse ShowsByte paging follow setMemory spare)
open Vm (userspaceStart userspaceEnd byteIn)
open Ptm (frameAt)
open UserRequests (freePages)

-- The pages of a segment.
def ProgramHeader.start (phdr : ProgramHeader) : Nat := phdr.vaddr / pageGranularity * pageGranularity

def ProgramHeader.stop (phdr : ProgramHeader) : Nat := (phdr.vaddr + phdr.memsz + (pageGranularity - 1)) / pageGranularity * pageGranularity

def ProgramHeader.Inside (phdr : ProgramHeader) (a : Nat) : Prop := phdr.start ≤ a ∧ a < phdr.stop

def ProgramHeader.pages (phdr : ProgramHeader) : Finset Nat := Finset.Ico (phdr.start / pageGranularity) (phdr.stop / pageGranularity)

def ProgramHeader.bufferPages (phdr : ProgramHeader) : Nat := (phdr.filesz + (pageGranularity - 1)) / pageGranularity

def ProgramHeader.attributes (phdr : ProgramHeader) : Vm.Attributes := ⟨.anon true, segmentProt phdr, .standard, true⟩

-- The byte the program is to find at an address of the segment.
def imageByte (contents : List UInt8) (phdr : ProgramHeader) (a : Nat) : UInt8 :=
  if phdr.vaddr ≤ a ∧ a < phdr.vaddr + phdr.filesz then contents.getD (phdr.offset + (a - phdr.vaddr)) 0 else 0

structure Fits (contents : List UInt8) (phdr : ProgramHeader) : Prop where
  sized : 0 < phdr.memsz
  within : phdr.filesz ≤ phdr.memsz
  file : phdr.offset + phdr.filesz ≤ contents.length
  above : userspaceStart ≤ phdr.start
  below : phdr.stop ≤ userspaceEnd

section Rounding

variable {contents : List UInt8} {phdr : ProgramHeader}

theorem inside_iff (a : Nat) : phdr.Inside a ↔ a / pageGranularity ∈ phdr.pages := by
  unfold ProgramHeader.Inside ProgramHeader.pages ProgramHeader.start ProgramHeader.stop
  rw [Finset.mem_Ico]
  unfold pageGranularity
  omega

theorem segment_bounds (fits : Fits contents phdr) : phdr.start ≤ phdr.vaddr ∧ phdr.vaddr < phdr.start + pageGranularity ∧
    phdr.vaddr + phdr.memsz ≤ phdr.stop ∧ phdr.stop < phdr.vaddr + phdr.memsz + pageGranularity ∧ phdr.stop < 2 ^ 47 := by
  have below := fits.below
  have high : userspaceEnd < 2 ^ 47 := by decide
  unfold ProgramHeader.start ProgramHeader.stop at *
  unfold pageGranularity at *
  omega

theorem file_inside (fits : Fits contents phdr) {a : Nat} (low : phdr.vaddr ≤ a) (high : a < phdr.vaddr + phdr.filesz) : phdr.Inside a := by
  have bounds := segment_bounds fits
  have within := fits.within
  exact ⟨by omega, by omega⟩

-- The sums of MATH_CEIL do not wrap.
theorem math_ceil_eq {value : Nat} (small : value < 2 ^ 48) :
    mathCeil value pageGranularity = (value + (pageGranularity - 1)) / pageGranularity * pageGranularity := by
  unfold mathCeil
  rw [add64_eq (by unfold pageGranularity; omega), sub64_eq (by unfold pageGranularity; omega) (by unfold pageGranularity; omega)]
  rfl

theorem segment_length (fits : Fits contents phdr) :
    mathCeil (add64 phdr.memsz (sub64 phdr.vaddr (mathFloor phdr.vaddr pageGranularity))) pageGranularity = phdr.stop - phdr.start := by
  obtain ⟨low, near, room, _, high⟩ := segment_bounds fits
  have floor : mathFloor phdr.vaddr pageGranularity = phdr.start := rfl
  rw [floor, sub64_eq low (by omega), add64_eq (by unfold pageGranularity at near; omega), math_ceil_eq (by unfold pageGranularity at near; omega)]
  unfold ProgramHeader.start ProgramHeader.stop at *
  unfold pageGranularity at *
  omega

theorem buffer_length (fits : Fits contents phdr) : mathCeil phdr.filesz pageGranularity = phdr.bufferPages * pageGranularity := by
  have bounds := segment_bounds fits
  have within := fits.within
  exact math_ceil_eq (by omega)

theorem segment_whole (phdr : ProgramHeader) : (phdr.stop - phdr.start) % pageGranularity = 0 := by
  unfold ProgramHeader.start ProgramHeader.stop pageGranularity
  omega

end Rounding

-- A region that a fixed request of elf_load has made, with nothing in it.
structure RegionMapped (id top : Nat) (supply : List Nat) (n base length : Nat) (prot : Vm.Protection) (m : Machine) (vm : Vm.State) : Prop where
  mapped : Vm.vmMapAnon (.process id) base length prot .standard loadFlags m.vm = .ok (vm, base)
  followed : follow id top m vm = .ok ⟨vm, m.tables⟩
  consistent : Consistent id top supply ⟨vm, m.tables⟩
  kernel : KernelSpace vm
  roomy : Roomy (vm.space .global) n
  maps : ∀ a v, Vm.Maps (vm.space (.process id)).regions a v ↔ Vm.Maps (m.vm.space (.process id)).regions a v ∨
    (base ≤ a ∧ a < base + length ∧ v = ⟨.anon true, prot, .standard, true⟩)
  memory : ∀ x, InUse top supply m.tables (x / pageGranularity) → vm.pmm.memory x = m.vm.pmm.memory x
  weight : freePages m.vm ≤ freePages vm + 1
  cached : 0 < m.vm.cache.length → SameMap m.vm vm ∧ m.vm.cache.length ≤ vm.cache.length + 1
  structures : 0 < m.vm.cache.length → Vm.structures (.process id) vm = Vm.structures (.process id) m.vm

section Regions

variable {id top n base length : Nat} {supply : List Nat} {m : Machine}

theorem load_accepted (aligned : base % pageGranularity = 0) (positive : 0 < length) (wholePages : length % pageGranularity = 0) :
    ¬ Vm.Rejected base length loadFlags := by
  rintro (zero | ragged | ⟨_, ragged⟩)
  · omega
  · exact ragged wholePages
  · exact ragged aligned

theorem load_fixed : Vm.Fixed loadFlags := by
  unfold Vm.Fixed
  decide

theorem region_mapped (prot : Vm.Protection) (consistent : Consistent id top supply m) (kernel : KernelSpace m.vm)
    (aligned : base % pageGranularity = 0) (positive : 0 < length) (wholePages : length % pageGranularity = 0)
    (hole : Vm.Hole (m.vm.space (.process id)) length base) (roomy : Roomy (m.vm.space .global) (n + 1)) (enough : 0 < freePages m.vm) :
    ∃ vm, RegionMapped id top supply n base length prot m vm := by
  have accepted := load_accepted aligned positive wholePages
  have hint := Vm.fixed_hint accepted load_fixed
  obtain ⟨t, rid, alloc, pooled⟩ := UserSpace.pool_alloc consistent.vm kernel consistent.backing.stock enough roomy
  rcases UserSpace.map_lazy_cases prot .standard consistent (by decide) accepted alloc with ⟨noPlace, _⟩ | ⟨vm, address, mapped, lazily⟩
  · have blocked := noPlace.1
    rw [hint] at blocked
    exact absurd hole blocked
  · obtain rfl : address = base := by
      have chosen := lazily.chosen.hinted
      rw [hint] at chosen
      exact chosen hole
    have globalSpace : vm.space .global = t.space .global := lazily.aside.others _ (by simp)
    refine ⟨vm, mapped, lazily.followed, lazily.consistent, ?_, ?_, fun a v => ?_, ?_, ?_, fun cached => ⟨⟨fun a v => ?_, fun a v maps => ?_, fun a phys entry => ?_⟩, ?_⟩,
      fun cached => ?_⟩
    · exact ⟨by rw [globalSpace]; exact pooled.kernel.start, by rw [globalSpace]; exact pooled.kernel.home⟩
    · rw [globalSpace]
      exact pooled.roomy
    · exact lazily.maps a v
    · rw [lazily.allocator]
      exact pooled.memory
    · have weight := pooled.weight
      unfold freePages at *
      rw [lazily.allocator]
      exact weight
    · rw [globalSpace, (pooled.cached cached).1]
    · rw [lazily.asked]
      exact pooled.frames a v maps
    · rw [lazily.asked, (pooled.cached cached).2.1] at entry
      exact entry
    · have taken := (pooled.cached cached).2.2
      have kept := lazily.cache
      omega
    · obtain ⟨space, _, taken⟩ := pooled.cached cached
      rw [lazily.structures]
      unfold Vm.structures
      rw [space]
      omega

end Regions

-- The region of a segment is there, with nothing in it.
structure SegmentMapped (id top : Nat) (supply : List Nat) (n : Nat) (phdr : ProgramHeader) (m : Machine) (vm : Vm.State) : Prop where
  mapped : Vm.vmMapAnon (.process id) phdr.start (phdr.stop - phdr.start) (segmentProt phdr) .standard loadFlags m.vm = .ok (vm, phdr.start)
  followed : follow id top m vm = .ok ⟨vm, m.tables⟩
  consistent : Consistent id top supply ⟨vm, m.tables⟩
  kernel : KernelSpace vm
  roomy : Roomy (vm.space .global) n
  maps : ∀ a v, Vm.Maps (vm.space (.process id)).regions a v ↔ Vm.Maps (m.vm.space (.process id)).regions a v ∨
    (phdr.Inside a ∧ v = phdr.attributes)
  memory : ∀ x, InUse top supply m.tables (x / pageGranularity) → vm.pmm.memory x = m.vm.pmm.memory x
  weight : freePages m.vm ≤ freePages vm + 1
  cached : 0 < m.vm.cache.length → SameMap m.vm vm ∧ m.vm.cache.length ≤ vm.cache.length + 1
  structures : 0 < m.vm.cache.length → Vm.structures (.process id) vm = Vm.structures (.process id) m.vm

section Mapping

variable {id top n : Nat} {supply : List Nat} {contents : List UInt8} {phdr : ProgramHeader} {m : Machine}

theorem segment_hole (consistent : Consistent id top supply m) (fits : Fits contents phdr)
    (free : ∀ a, phdr.Inside a → ¬ UserSpace.Served id m a) : Vm.Hole (m.vm.space (.process id)) (phdr.stop - phdr.start) phdr.start := by
  obtain ⟨low, _, room, _, _⟩ := segment_bounds fits
  have sized := fits.sized
  have whole := Nat.div_mul_cancel (Nat.dvd_of_mod_eq_zero (segment_whole phdr))
  refine UserSpace.free_run_hole (n := (phdr.stop - phdr.start) / pageGranularity) (consistent.vm.tidy _) ⟨Nat.mul_mod_left _ _, ?_, ?_, ?_⟩
    (by omega) (Nat.le_of_eq whole.symm)
  · rw [consistent.start]
    exact fits.above
  · rw [consistent.limit, whole]
    have below := fits.below
    omega
  · rintro x v above under ⟨r, member, covers, _⟩
    rw [whole] at under
    exact free x ⟨above, by omega⟩ ⟨r, member, covers⟩

theorem segment_lazy {a : Nat} (maps : Vm.Maps (m.vm.space (.process id)).regions a phdr.attributes) : Lazy id Pmm.flagZero m a :=
  UserSpace.lazy_of_maps maps rfl rfl

theorem segment_mapped (consistent : Consistent id top supply m) (kernel : KernelSpace m.vm) (fits : Fits contents phdr)
    (free : ∀ a, phdr.Inside a → ¬ UserSpace.Served id m a) (roomy : Roomy (m.vm.space .global) (n + 1)) (enough : 0 < freePages m.vm) :
    ∃ vm, SegmentMapped id top supply n phdr m vm := by
  obtain ⟨low, _, room, _, _⟩ := segment_bounds fits
  have sized := fits.sized
  have aligned : phdr.start % pageGranularity = 0 := Nat.mul_mod_left _ _
  obtain ⟨vm, region⟩ := region_mapped (segmentProt phdr) consistent kernel aligned (show 0 < phdr.stop - phdr.start by omega) (segment_whole phdr)
    (segment_hole consistent fits free) roomy enough
  refine ⟨vm, region.mapped, region.followed, region.consistent, region.kernel, region.roomy, fun a v => ?_, region.memory, region.weight,
    region.cached, region.structures⟩
  rw [region.maps]
  refine or_congr Iff.rfl ⟨fun ⟨from_, below, same⟩ => ⟨⟨from_, by omega⟩, same⟩, fun ⟨⟨from_, below⟩, same⟩ => ⟨from_, by omega, same⟩⟩

end Mapping

-- Bytes are stored from the start of the segment on. A page that is brought in for them is cleared, and the
-- pages that were there are as they were elsewhere.
structure Filled (top : Nat) (phdr : ProgramHeader) (src : List UInt8) (m m' : Machine) : Prop where
  kept : ∀ {P f}, frameAt top m.tables P = some f → frameAt top m'.tables P = some f
  others : ∀ {P}, P ∉ phdr.pages → frameAt top m'.tables P = frameAt top m.tables P
  stored : ∀ k, (short : k < src.length) →
    ∃ f, frameAt top m'.tables ((phdr.vaddr + k) / pageGranularity) = some f ∧ m'.vm.pmm.memory (byteIn f (phdr.vaddr + k)) = src[k]
  fresh : ∀ {a f}, ¬ (phdr.vaddr ≤ a ∧ a < phdr.vaddr + src.length) → frameAt top m.tables (a / pageGranularity) = none →
    frameAt top m'.tables (a / pageGranularity) = some f → m'.vm.pmm.memory (byteIn f a) = 0
  bytes : ∀ {a f}, ¬ (phdr.vaddr ≤ a ∧ a < phdr.vaddr + src.length) → frameAt top m.tables (a / pageGranularity) = some f →
    m'.vm.pmm.memory (byteIn f a) = m.vm.pmm.memory (byteIn f a)

-- Frames for the pages of U that have none, and as many again as are kept for something else.
def Reserve (top : Nat) (U : Finset Nat) (kept : Nat) (m : Machine) : Prop :=
  kept + (U.filter fun P => frameAt top m.tables P = none).card ≤ spare m

section Filling

variable {id top : Nat} {supply : List Nat} {contents src : List UInt8} {phdr : ProgramHeader} {m : Machine}

theorem reserve_affords {U : Finset Nat} {kept first last : Nat} (reserve : Reserve top U kept m)
    (inU : ∀ P, first ≤ P → P ≤ last → P ∈ U) : Vm.Affords (fun m : Machine => frameAt top m.tables) spare first last m := by
  have fewer : ((Finset.Icc first last).filter fun P => frameAt top m.tables P = none) ⊆ U.filter fun P => frameAt top m.tables P = none := by
    refine Finset.filter_subset_filter _ fun P member => ?_
    obtain ⟨low, high⟩ := Finset.mem_Icc.mp member
    exact inU P low high
  exact Nat.le_trans (Finset.card_le_card fewer) (Nat.le_trans (Nat.le_add_left _ _) reserve)

theorem reserve_spent {U : Finset Nat} {kept spent : Nat} {m' : Machine} (reserve : Reserve top U (spent + kept) m) (tables : m'.tables = m.tables)
    (weight : freePages m.vm ≤ freePages m'.vm + spent) : Reserve top U kept m' := by
  unfold Reserve spare at *
  unfold freePages at weight
  rw [tables]
  omega

theorem ledger_filled (fits : Fits contents phdr) (size : src.length = phdr.filesz) (consistent : Consistent id top supply m) {m' : Machine}
    {claimed : Pmm.State}
    (ledger : Ledger id top supply Pmm.flagZero m (UserSpace.logOf phdr.vaddr src).pages (UserSpace.logOf phdr.vaddr src) claimed m') :
    Filled top phdr src m m' := by
  have cleared := UserSpace.claim_pages_cleared _ consistent.backing.stock ledger.claims
  have looked := UserSpace.log_of_lookup phdr.vaddr src
  have missing : ∀ {a}, ¬ (phdr.vaddr ≤ a ∧ a < phdr.vaddr + src.length) → (UserSpace.logOf phdr.vaddr src).lookup a = none := by
    intro a outside
    rw [looked]
    split
    · exact List.getElem?_eq_none (by omega)
    · rfl
  refine ⟨cleared.kept, fun {P} other => cleared.others fun member => other ?_, fun k short => ?_, fun {a f} outside absent framed => ?_,
    fun {a f} outside framed => ?_⟩
  · obtain ⟨k, short, rfl⟩ := UserSpace.log_of_pages member
    exact (inside_iff _).mp (file_inside fits (Nat.le_add_right _ _) (by omega))
  · have at_ : src[k]? = some src[k] := List.getElem?_eq_getElem short
    obtain ⟨f, framed⟩ := ledger.backed _ (UserSpace.log_of_mem.mpr ⟨k, at_, rfl⟩)
    refine ⟨f, framed, ?_⟩
    rw [ledger.stored _ f framed, looked, if_pos (Nat.le_add_right _ _), Nat.add_sub_cancel_left, at_, Option.getD_some]
  · rw [ledger.stored a f framed, missing outside, Option.getD_none]
    exact cleared.zero absent framed (UserSpace.byte_in_page f a)
  · rw [ledger.stored a f (cleared.kept framed), missing outside, Option.getD_none]
    refine cleared.memory (.inl ⟨a / pageGranularity, ?_⟩)
    rw [UserSpace.byte_in_page]
    exact framed

-- Bytes are copied to where memory is brought in on demand.
theorem lazy_copied (consistent : Consistent id top supply m) {dest : Nat} (low : dest + src.length < 2 ^ 64)
    (there : ∀ k < src.length, Lazy id Pmm.flagZero m (dest + k)) {U : Finset Nat}
    (inU : ∀ P, dest / pageGranularity ≤ P → P ≤ (dest + src.length - 1) / pageGranularity → P ∈ U) {kept : Nat} (reserve : Reserve top U kept m) :
    ∃ m', Vm.vmCopyTo (paging id top) dest src src.length m = .ok (m', src.length) ∧ Consistent id top supply m' ∧
      m'.vm.space = m.vm.space ∧ m'.vm.cache = m.vm.cache ∧ Reserve top U kept m' ∧
      ∃ claimed, Ledger id top supply Pmm.flagZero m (UserSpace.logOf dest src).pages (UserSpace.logOf dest src) claimed m' := by
  have last : ∀ k < src.length, (dest + k) / pageGranularity ≤ (dest + src.length - 1) / pageGranularity := fun k short =>
    Nat.div_le_div_right (by omega)
  have first : ∀ k, dest / pageGranularity ≤ (dest + k) / pageGranularity := fun k => Nat.div_le_div_right (Nat.le_add_right _ _)
  obtain ⟨m', copied, put, ⟨consistent', reserve'⟩, _⟩ := Vm.vm_copy_to_spec
    (Vm.pages_reserve (UserSpace.lazy_pages id top supply Pmm.flagZero) U kept) src ⟨consistent, reserve⟩ low
    (fun k short => ⟨there k short, inU _ (first k) (last k short)⟩) (Nat.le_refl _) last (reserve_affords reserve inU)
  obtain ⟨claimed, ledger⟩ := UserSpace.ledger_bytes src (UserSpace.ledger_start consistent) there put
  rw [List.nil_append, List.append_nil] at ledger
  exact ⟨m', copied, consistent', ledger.space, ledger.cache, reserve', claimed, ledger⟩

theorem bytes_copied (fits : Fits contents phdr) (size : src.length = phdr.filesz) (consistent : Consistent id top supply m)
    (there : ∀ a, phdr.Inside a → Lazy id Pmm.flagZero m a) {U : Finset Nat} (inU : phdr.pages ⊆ U) {kept : Nat}
    (reserve : Reserve top U kept m) :
    ∃ m', Vm.vmCopyTo (paging id top) phdr.vaddr src src.length m = .ok (m', src.length) ∧ Consistent id top supply m' ∧
      m'.vm.space = m.vm.space ∧ m'.vm.cache = m.vm.cache ∧ Reserve top U kept m' ∧ Filled top phdr src m m' := by
  obtain ⟨_, _, _, _, high⟩ := segment_bounds fits
  have within := fits.within
  have inside : ∀ k < src.length, phdr.Inside (phdr.vaddr + k) := fun k short => file_inside fits (Nat.le_add_right _ _) (by omega)
  obtain ⟨m', copied, consistent', space, cache, reserve', claimed, ledger⟩ := lazy_copied consistent (by omega)
    (fun k short => there _ (inside k short)) (fun P from_ upTo => inU (by
      have sized := fits.sized
      rw [← Nat.mul_div_cancel P (show 0 < pageGranularity by decide), ← inside_iff]
      unfold ProgramHeader.Inside ProgramHeader.start ProgramHeader.stop pageGranularity at *
      omega)) reserve
  exact ⟨m', copied, consistent', space, cache, reserve', ledger_filled fits size consistent ledger⟩

end Filling

-- What copying the bytes of a segment leaves. The buffer is gone, and where the pool had no structure for it a
-- page of the pool has come to the global space.
structure Copied (id top : Nat) (supply : List Nat) (n : Nat) (phdr : ProgramHeader) (src : List UInt8) (m m' : Machine) : Prop where
  consistent : Consistent id top supply m'
  kernel : KernelSpace m'.vm
  roomy : Roomy (m'.vm.space .global) n
  process : m'.vm.space (.process id) = m.vm.space (.process id)
  filled : Filled top phdr src m m'
  cache : m.vm.cache.length ≤ m'.vm.cache.length
  same : 0 < m.vm.cache.length → SameMap m.vm m'.vm
  dry : m.vm.cache = [] → ∃ a v, (∀ w, ¬ Vm.Maps (m.vm.space .global).regions a w) ∧ Vm.Maps (m'.vm.space .global).regions a v

section Copying

variable {id top n : Nat} {supply : List Nat} {contents : List UInt8} {phdr : ProgramHeader} {m : Machine}

def segmentBytes (contents : List UInt8) (phdr : ProgramHeader) : List UInt8 := (contents.drop phdr.offset).take phdr.filesz

theorem segment_bytes_length (fits : Fits contents phdr) : (segmentBytes contents phdr).length = phdr.filesz := by
  have file := fits.file
  rw [segmentBytes, List.length_take, List.length_drop]
  omega

theorem filled_congr {src : List UInt8} {u w m' : Machine} (filled : Filled top phdr src u w) (tables : u.tables = m.tables)
    (memory : ∀ x, InUse top supply m.tables (x / pageGranularity) → u.vm.pmm.memory x = m.vm.pmm.memory x) (tables' : m'.tables = w.tables)
    (memory' : m'.vm.pmm.memory = w.vm.pmm.memory) : Filled top phdr src m m' := by
  obtain ⟨kept, others, stored, fresh, bytes⟩ := filled
  rw [tables] at kept others fresh bytes
  refine ⟨?_, ?_, ?_, ?_, fun {a f} outside framed => ?_⟩
  · rw [tables']
    exact kept
  · rw [tables']
    exact others
  · rw [tables', memory']
    exact stored
  · rw [tables', memory']
    exact fresh
  · rw [memory', bytes outside framed, memory _ (.inl ⟨a / pageGranularity, by rw [UserSpace.byte_in_page]; exact framed⟩)]

-- A page of the pool goes where nothing was.
theorem pool_page_new {s t : Vm.State} {hole : Nat} (page : Vm.PoolPage s t hole) :
    (∀ w, ¬ Vm.Maps (s.space .global).regions hole w) ∧ ∃ v, Vm.Maps (t.space .global).regions hole v := by
  have own : (Vm.poolRegion s.nextRegion hole).Covers hole := ⟨Nat.le_refl _, Nat.lt_add_of_pos_right (show 0 < pageGranularity by decide)⟩
  refine ⟨?_, _, (page.maps hole _).mpr (.inr ⟨own, rfl⟩)⟩
  rintro w ⟨r, member, covers, _⟩
  exact Vm.apart_disjoint (Vm.pool_clear page.lowest s.nextRegion r member) own covers

-- The buffer of a segment is there: what is left to run.
theorem copy_segment_eq {file : VfsNode} {vm : Vm.State} {address size : Nat} (sized : mathCeil phdr.filesz pageGranularity = size)
    (mapped : Vm.vmMapAnon .global Vm.nullptr size Vm.protRW .standard 0 m.vm = .ok (vm, address))
    (followed : follow id top m vm = .ok ⟨vm, m.tables⟩) (real : address ≠ Vm.nullptr) :
    copySegment id top file phdr m = (
      match file.read phdr.offset phdr.filesz with
      | .error _ => do
          let m ← unmapBuffer id top address size ⟨vm, m.tables⟩
          .ok (m, .error .fs)
      | .ok bytes => do
          let m ← UserSpace.kernelStore address bytes ⟨vm, m.tables⟩
          if bytes.length ≠ phdr.filesz then do
            let m ← unmapBuffer id top address size m
            .ok (m, .error .fs)
          else do
            let src ← UserSpace.kernelLoad address phdr.filesz m
            let (m, count) ← Vm.vmCopyTo (paging id top) phdr.vaddr src phdr.filesz m
            assertThat (count = phdr.filesz)
            let m ← unmapBuffer id top address size m
            .ok (m, .ok ())) := by
  unfold copySegment
  dsimp only
  rw [sized, mapped, bind_ok]
  dsimp only
  rw [followed, bind_ok, assertThat, if_pos (decide_eq_true real)]
  rfl

theorem unmap_buffer_eq {u : Machine} {t final : Vm.State} {address size : Nat}
    (unmapped : UserSpace.BufferUnmapped id top supply n m u t address size final) : unmapBuffer id top address size u = .ok ⟨final, u.tables⟩ := by
  rw [unmapBuffer, unmapped.unmapped, bind_ok, unmapped.followed]

theorem segment_copied {file : VfsNode} (serves : Serves file contents) (fits : Fits contents phdr) (positive : 0 < phdr.filesz)
    (consistent : Consistent id top supply m) (kernel : KernelSpace m.vm) (there : ∀ a, phdr.Inside a → Lazy id Pmm.flagZero m a)
    (roomy : Roomy (m.vm.space .global) (n + 1)) (room : phdr.bufferPages ≤ n) {U : Finset Nat} (inU : phdr.pages ⊆ U) {kept : Nat}
    (reserve : Reserve top U (phdr.bufferPages + 1 + kept) m) :
    ∃ m', copySegment id top file phdr m = .ok (m', .ok ()) ∧ Reserve top U kept m' ∧
      Copied id top supply n phdr (segmentBytes contents phdr) m m' := by
  have size := segment_bytes_length fits
  have bufferPositive : 0 < phdr.bufferPages * pageGranularity := by
    unfold ProgramHeader.bufferPages pageGranularity
    omega
  have covers : phdr.filesz ≤ phdr.bufferPages * pageGranularity := by
    unfold ProgramHeader.bufferPages pageGranularity
    omega
  have wholePages : phdr.bufferPages * pageGranularity % pageGranularity = 0 := Nat.mul_mod_left _ _
  have pages : phdr.bufferPages * pageGranularity / pageGranularity = phdr.bufferPages := Nat.mul_div_cancel _ (by decide)
  have enough : phdr.bufferPages * pageGranularity / pageGranularity < freePages m.vm := by
    rw [pages]
    unfold Reserve spare at reserve
    unfold freePages
    omega
  obtain ⟨t, rid, vm, address, whole, frame, buffer⟩ := UserSpace.buffer_mapped consistent kernel bufferPositive wholePages roomy
    (Nat.mul_le_mul_right _ room) enough
  obtain ⟨memory, stored, loaded, untouched⟩ := UserSpace.buffer_stored buffer wholePages (segmentBytes contents phdr) (by omega)
  have read : file.read phdr.offset phdr.filesz = .ok (segmentBytes contents phdr) := serves.read _ _ fits.file
  have process := UserSpace.buffer_process buffer
  have consistentU := UserSpace.set_memory_keeps buffer.consistent memory
  have weight := UserSpace.buffer_weight buffer
  rw [pages] at weight
  have reserveU : Reserve top U kept (setMemory ⟨vm, m.tables⟩ memory) := reserve_spent reserve rfl weight
  obtain ⟨w, copied, consistentW, spaceW, cacheW, reserveW, filled⟩ := bytes_copied fits size consistentU
    (fun a inside => by
      unfold Lazy
      change ∃ r ∈ (vm.space (.process id)).regions, _
      rw [process]
      exact there a inside) inU reserveU
  obtain ⟨final, unmapped⟩ := UserSpace.buffer_unmapped buffer bufferPositive wholePages consistentW spaceW cacheW
    (UserSpace.copy_to_aside consistentU copied)
  refine ⟨⟨final, w.tables⟩, ?_, ?_, unmapped.consistent, unmapped.kernel, unmapped.roomy, ?_, ?_, ?_, unmapped.same, fun empty => ?_⟩
  · rw [copy_segment_eq (buffer_length fits) buffer.mapped buffer.followed buffer.real, read]
    dsimp only
    rw [stored, bind_ok, if_neg (not_not_intro size), ← size, loaded, bind_ok, copied, bind_ok]
    dsimp only
    rw [assertThat, if_pos (decide_eq_true rfl), bind_ok, unmap_buffer_eq unmapped]
    rfl
  · refine reserve_spent (m := w) (by rw [Nat.zero_add]; exact reserveW) rfl ?_
    unfold freePages
    rw [unmapped.allocator]
    exact Nat.le_refl _
  · change final.space (.process id) = _
    rw [unmapped.process, spaceW]
    exact process
  · refine filled_congr filled rfl untouched rfl ?_
    change final.pmm.memory = _
    rw [unmapped.allocator]
  · change _ ≤ final.cache.length
    rw [unmapped.cache]
    by_cases cached : 0 < m.vm.cache.length
    · exact Nat.le_of_eq (buffer.pooled.cached cached).2.2.symm
    · omega
  · obtain ⟨hole, page⟩ := buffer.pooled.dry empty
    obtain ⟨nothing, v, here⟩ := pool_page_new page
    exact ⟨hole, v, nothing, (unmapped.maps hole v).mpr here⟩

end Copying

-- An address where the process has neither a region nor a page.
def Vacant (id top : Nat) (m : Machine) (a : Nat) : Prop := ¬ UserSpace.Served id m a ∧ frameAt top m.tables (a / pageGranularity) = none

-- A segment is there, and the rest of the space is as it was.
structure Loaded (id top : Nat) (supply : List Nat) (n : Nat) (contents : List UInt8) (phdr : ProgramHeader) (m m' : Machine) : Prop where
  consistent : Consistent id top supply m'
  kernel : KernelSpace m'.vm
  roomy : Roomy (m'.vm.space .global) n
  maps : ∀ a v, Vm.Maps (m'.vm.space (.process id)).regions a v ↔ Vm.Maps (m.vm.space (.process id)).regions a v ∨
    (phdr.Inside a ∧ v = phdr.attributes)
  others : ∀ {P}, P ∉ phdr.pages → frameAt top m'.tables P = frameAt top m.tables P
  bytes : ∀ {a f}, ¬ phdr.Inside a → frameAt top m.tables (a / pageGranularity) = some f →
    m'.vm.pmm.memory (byteIn f a) = m.vm.pmm.memory (byteIn f a)
  image : ∀ a, phdr.Inside a → ShowsByte id top m' a (imageByte contents phdr a)
  cached : 1 < m.vm.cache.length → SameMap m.vm m'.vm ∧ m.vm.cache.length ≤ m'.vm.cache.length + 1

section Loading

variable {id top n : Nat} {supply : List Nat} {contents : List UInt8} {phdr : ProgramHeader} {m : Machine}

theorem image_byte_file (fits : Fits contents phdr) {k : Nat} (short : k < (segmentBytes contents phdr).length) :
    imageByte contents phdr (phdr.vaddr + k) = (segmentBytes contents phdr)[k] := by
  have size := segment_bytes_length fits
  have file := fits.file
  rw [imageByte, if_pos ⟨Nat.le_add_right _ _, by omega⟩, Nat.add_sub_cancel_left, List.getD_eq_getElem _ _ (by omega)]
  simp only [segmentBytes, List.getElem_take, List.getElem_drop]

theorem filled_image (fits : Fits contents phdr) {m' : Machine} {a : Nat} (there : Lazy id Pmm.flagZero m' a)
    (bare : frameAt top m.tables (a / pageGranularity) = none) (filled : Filled top phdr (segmentBytes contents phdr) m m') :
    ShowsByte id top m' a (imageByte contents phdr a) := by
  have size := segment_bytes_length fits
  by_cases inFile : phdr.vaddr ≤ a ∧ a < phdr.vaddr + phdr.filesz
  · have short : a - phdr.vaddr < (segmentBytes contents phdr).length := by omega
    have address : phdr.vaddr + (a - phdr.vaddr) = a := by omega
    obtain ⟨f, framed, byte⟩ := filled.stored _ short
    rw [← image_byte_file fits short, address] at byte
    rw [address] at framed
    refine ⟨there, fun {g} again => ?_, fun absent => ?_⟩
    · obtain rfl := Option.some.inj (framed.symm.trans again)
      exact byte
    · rw [framed] at absent
      cases absent
  · have zero : imageByte contents phdr a = 0 := if_neg inFile
    rw [zero]
    exact ⟨there, fun framed => filled.fresh (by rw [size]; exact inFile) bare framed, fun _ => rfl⟩

theorem load_segment_eq (file : VfsNode) (fits : Fits contents phdr) {vm : Vm.State} (mapped : SegmentMapped id top supply n phdr m vm) :
    loadSegment id top file phdr m =
      if phdr.filesz > 0 then copySegment id top file phdr ⟨vm, m.tables⟩ else .ok (⟨vm, m.tables⟩, .ok ()) := by
  have real : phdr.start ≠ Vm.nullptr := by
    have above := fits.above
    unfold userspaceStart pageGranularity at above
    unfold Vm.nullptr
    omega
  unfold loadSegment
  dsimp only
  rw [if_neg (Nat.not_lt.mpr fits.within), segment_length fits]
  change (Vm.vmMapAnon (.process id) phdr.start _ _ _ _ _ >>= _) = _
  rw [mapped.mapped, bind_ok]
  dsimp only
  rw [mapped.followed, bind_ok, assertThat, if_pos (decide_eq_true real), bind_ok]

theorem segment_loaded {file : VfsNode} (serves : Serves file contents) (fits : Fits contents phdr) (consistent : Consistent id top supply m)
    (kernel : KernelSpace m.vm) (free : ∀ a, phdr.Inside a → Vacant id top m a)
    (roomy : Roomy (m.vm.space .global) (phdr.bufferPages + 2 + n)) {U : Finset Nat} (inU : phdr.pages ⊆ U) {kept : Nat}
    (reserve : Reserve top U (phdr.bufferPages + 2 + kept) m) :
    ∃ m', loadSegment id top file phdr m = .ok (m', .ok ()) ∧ Reserve top U kept m' ∧ Loaded id top supply n contents phdr m m' := by
  have enough : 0 < freePages m.vm := by
    unfold Reserve spare at reserve
    unfold freePages
    omega
  obtain ⟨vm, mapped⟩ := segment_mapped (n := phdr.bufferPages + n + 1) consistent kernel fits (fun a inside => (free a inside).1)
    (UserSpace.roomy_mono roomy (by omega)) enough
  have there : ∀ a, phdr.Inside a → Lazy id Pmm.flagZero ⟨vm, m.tables⟩ a := fun a inside =>
    segment_lazy ((mapped.maps a _).mpr (.inr ⟨inside, rfl⟩))
  have reserveV : Reserve top U (phdr.bufferPages + 1 + kept) ⟨vm, m.tables⟩ := by
    refine reserve_spent (m := m) ?_ rfl mapped.weight
    rw [show 1 + (phdr.bufferPages + 1 + kept) = phdr.bufferPages + 2 + kept by omega]
    exact reserve
  have keptByte : ∀ {a f}, frameAt top m.tables (a / pageGranularity) = some f → vm.pmm.memory (byteIn f a) = m.vm.pmm.memory (byteIn f a) := by
    intro a f framed
    refine mapped.memory _ (.inl ⟨a / pageGranularity, ?_⟩)
    rw [UserSpace.byte_in_page]
    exact framed
  rw [load_segment_eq file fits mapped]
  by_cases positive : phdr.filesz > 0
  · rw [if_pos positive]
    obtain ⟨m', run, reserve', copied⟩ := segment_copied serves fits positive mapped.consistent mapped.kernel there mapped.roomy (Nat.le_add_right _ _)
      inU reserveV
    have size := segment_bytes_length fits
    refine ⟨m', run, reserve', copied.consistent, copied.kernel, UserSpace.roomy_mono copied.roomy (by omega), ?_, copied.filled.others,
      fun {a f} outside framed => ?_, fun a inside => ?_, fun cached => ?_⟩
    · rw [copied.process]
      exact mapped.maps
    · rw [copied.filled.bytes (fun inFile => outside (file_inside fits inFile.1 (by omega))) framed]
      exact keptByte framed
    · refine filled_image (m := ⟨vm, m.tables⟩) fits ?_ (free a inside).2 copied.filled
      unfold Lazy
      rw [copied.process]
      exact there a inside
    · obtain ⟨sameV, fewer⟩ := mapped.cached (by omega)
      have more := copied.cache
      exact ⟨UserSpace.same_map_trans sameV (copied.same (by dsimp only; omega)), by dsimp only at more; omega⟩
  · rw [if_neg positive]
    have empty : phdr.filesz = 0 := Nat.eq_zero_of_not_pos positive
    refine ⟨⟨vm, m.tables⟩, rfl, reserve_spent (m := ⟨vm, m.tables⟩) reserveV rfl (Nat.le_add_right _ _),
      mapped.consistent, mapped.kernel, UserSpace.roomy_mono mapped.roomy (by omega), mapped.maps, fun _ => rfl, fun _ framed => keptByte framed,
      fun a inside => ?_, fun cached => mapped.cached (by omega)⟩
    have zero : imageByte contents phdr a = 0 := if_neg (by omega)
    rw [zero]
    refine ⟨there a inside, fun framed => ?_, fun _ => rfl⟩
    rw [show frameAt top _ (a / pageGranularity) = none from (free a inside).2] at framed
    cases framed

end Loading

end Elysium.Elf
