import Elysium.ElfSegment

set_option autoImplicit false

namespace Elysium.Elf

open UserSpace (Machine Consistent Lazy KernelSpace Roomy InUse paging follow setMemory spare)
open Vm (userspaceStart userspaceEnd)
open UserRequests (freePages)

-- The range that elf_load asks for, with the sums as they wrap.
def ProgramHeader.length (phdr : ProgramHeader) : Nat :=
  mathCeil (add64 phdr.memsz (sub64 phdr.vaddr (mathFloor phdr.vaddr pageGranularity))) pageGranularity

def ProgramHeader.limit (phdr : ProgramHeader) : Nat := phdr.start + phdr.length

def ProgramHeader.Takes (phdr : ProgramHeader) (a : Nat) : Prop := phdr.start ≤ a ∧ a < phdr.limit

def ProgramHeader.bufferSize (phdr : ProgramHeader) : Nat := mathCeil phdr.filesz pageGranularity

-- The pages that the bytes of the file are copied to.
def ProgramHeader.copyPages (phdr : ProgramHeader) : Finset Nat :=
  if phdr.filesz = 0 then ∅ else Finset.Icc (phdr.vaddr / pageGranularity) ((phdr.vaddr + phdr.filesz - 1) / pageGranularity)

-- A segment that gets its range, behind the earlier ones, and a buffer whose size does not wrap.
structure Placed (earlier : List ProgramHeader) (phdr : ProgramHeader) : Prop where
  sized : 0 < phdr.length
  above : userspaceStart ≤ phdr.start
  below : phdr.limit ≤ userspaceEnd
  apart : ∀ e ∈ earlier, e.limit ≤ phdr.start ∨ phdr.limit ≤ e.start
  buffer : 0 < phdr.filesz → 0 < phdr.bufferSize

instance (earlier : List ProgramHeader) (phdr : ProgramHeader) : Decidable (Placed earlier phdr) :=
  decidable_of_iff (0 < phdr.length ∧ userspaceStart ≤ phdr.start ∧ phdr.limit ≤ userspaceEnd ∧
      (∀ e ∈ earlier, e.limit ≤ phdr.start ∨ phdr.limit ≤ e.start) ∧ (0 < phdr.filesz → 0 < phdr.bufferSize))
    ⟨fun ⟨sized, above, below, apart, buffer⟩ => ⟨sized, above, below, apart, buffer⟩,
      fun placed => ⟨placed.sized, placed.above, placed.below, placed.apart, placed.buffer⟩⟩

def readsWhole (file : VfsNode) (phdr : ProgramHeader) : Bool :=
  match file.read phdr.offset phdr.filesz with
  | .error _ => false
  | .ok bytes => bytes.length = phdr.filesz

-- The bytes that are copied go to ranges that are there.
def Covered (file : VfsNode) (earlier : List ProgramHeader) (phdr : ProgramHeader) : Prop :=
  0 < phdr.filesz → readsWhole file phdr = true → ∀ a, phdr.vaddr ≤ a → a < phdr.vaddr + phdr.filesz → ∃ e ∈ earlier ++ [phdr], e.Takes a

section Rounding

variable {value : Nat}

theorem math_ceil_whole (value : Nat) : mathCeil value pageGranularity % pageGranularity = 0 := Nat.mul_mod_left _ _

-- Where it is not 0 the sum of MATH_CEIL has not wrapped.
theorem math_ceil_positive (word : value < 2 ^ 64) (positive : 0 < mathCeil value pageGranularity) :
    mathCeil value pageGranularity = (value + (pageGranularity - 1)) / pageGranularity * pageGranularity := by
  unfold mathCeil add64 sub64 pageGranularity at *
  omega

end Rounding

section Requests

variable {id top : Nat} {supply : List Nat} {m : Machine}

-- A range that a fixed request gets is a hole.
theorem request_granted (consistent : Consistent id top supply m) {base length ptr : Nat} {prot : Vm.Protection} {vm : Vm.State}
    (aligned : base % pageGranularity = 0) (wholePages : length % pageGranularity = 0)
    (mapped : Vm.vmMapAnon (.process id) base length prot .standard loadFlags m.vm = .ok (vm, ptr)) (real : ptr ≠ Vm.nullptr) :
    0 < length ∧ Vm.Hole (m.vm.space (.process id)) length base := by
  have positive : 0 < length := by
    by_contra zero
    rw [Vm.vmMapAnon, Vm.mapCommon, if_pos (.inl (Nat.eq_zero_of_not_pos zero))] at mapped
    exact real (Prod.mk.inj (Except.ok.inj mapped)).2.symm
  have accepted := load_accepted aligned positive wholePages
  have hint := Vm.fixed_hint accepted load_fixed
  refine ⟨positive, ?_⟩
  cases alloc : Vm.regionAlloc m.vm with
  | error fault =>
      rw [Vm.vmMapAnon, Vm.mapCommon, if_neg (fun rejected => accepted (rejected.elim .inl fun ragged => .inr (.inl ragged))),
        if_neg (fun ragged => ragged.1 aligned), alloc] at mapped
      cases mapped
  | ok result =>
      obtain ⟨t, rid⟩ := result
      rcases UserSpace.map_lazy_cases prot .standard consistent (by decide) accepted alloc with ⟨_, refused⟩ | ⟨vm', address, mapped', lazily⟩
      · rw [refused] at mapped
        exact absurd (Prod.mk.inj (Except.ok.inj mapped)).2.symm real
      · by_contra missing
        rw [← hint] at missing
        exact (lazily.chosen.lowest missing).1 load_fixed

end Requests

-- The regions of a process space are those of the segments so far.
structure Held (id top : Nat) (supply : List Nat) (earlier : List ProgramHeader) (m : Machine) : Prop where
  consistent : Consistent id top supply m
  kernel : KernelSpace m.vm
  sized : ∀ e ∈ earlier, 0 < e.length
  maps : ∀ a v, Vm.Maps (m.vm.space (.process id)).regions a v ↔ ∃ e ∈ earlier, e.Takes a ∧ v = e.attributes

section Places

variable {id top : Nat} {supply : List Nat} {earlier : List ProgramHeader} {phdr : ProgramHeader} {m : Machine}

theorem held_served (held : Held id top supply earlier m) (a : Nat) : UserSpace.Served id m a ↔ ∃ e ∈ earlier, e.Takes a := by
  constructor
  · rintro ⟨r, member, covers⟩
    obtain ⟨e, there, takes, _⟩ := (held.maps a _).mp ⟨r, member, covers, rfl⟩
    exact ⟨e, there, takes⟩
  · rintro ⟨e, there, takes⟩
    obtain ⟨r, member, covers, _⟩ := (held.maps a e.attributes).mpr ⟨e, there, takes, rfl⟩
    exact ⟨r, member, covers⟩

theorem held_lazy (held : Held id top supply earlier m) {e : ProgramHeader} (there : e ∈ earlier) {a : Nat} (takes : e.Takes a) :
    Lazy id Pmm.flagZero m a :=
  UserSpace.lazy_of_maps ((held.maps a e.attributes).mpr ⟨e, there, takes, rfl⟩) rfl rfl

-- There is a hole for a segment exactly where it is placed.
theorem held_hole_iff (held : Held id top supply earlier m) (sized : 0 < phdr.length) :
    Vm.Hole (m.vm.space (.process id)) phdr.length phdr.start ↔
      userspaceStart ≤ phdr.start ∧ phdr.limit ≤ userspaceEnd ∧ ∀ e ∈ earlier, e.limit ≤ phdr.start ∨ phdr.limit ≤ e.start := by
  have tidy := held.consistent.vm.tidy (.process id)
  have pages := Nat.div_mul_cancel (Nat.dvd_of_mod_eq_zero (math_ceil_whole (add64 phdr.memsz (sub64 phdr.vaddr (mathFloor phdr.vaddr pageGranularity)))))
  constructor
  · rintro ⟨bounded, free⟩
    have bounds := (Vm.segment_in_bounds_iff _ _ _ _ tidy.fits).mp bounded
    rw [held.consistent.start, held.consistent.limit] at bounds
    refine ⟨bounds.1, bounds.2.2, fun e member => ?_⟩
    by_contra meets
    rw [not_or] at meets
    have sizedE := held.sized e member
    -- The first address that both have.
    have takes : e.Takes (max phdr.start e.start) := by
      unfold ProgramHeader.Takes ProgramHeader.limit at *
      omega
    obtain ⟨r, there, covers⟩ := (held_served held _).mpr ⟨e, member, takes⟩
    have apart := free r there
    have above := covers.1
    have below := covers.2
    unfold ProgramHeader.limit at meets
    omega
  · rintro ⟨above, below, apart⟩
    refine UserSpace.free_run_hole (n := phdr.length / pageGranularity) tidy ⟨Nat.mul_mod_left _ _, ?_, ?_, ?_⟩ sized (Nat.le_of_eq pages.symm)
    · rw [held.consistent.start]
      exact above
    · rw [held.consistent.limit]
      exact (Nat.add_le_add_left (Nat.le_of_eq pages) _).trans below
    · rintro x v low high ⟨r, there, covers, _⟩
      have high : x < phdr.start + phdr.length := Nat.lt_of_lt_of_eq high (congrArg (phdr.start + ·) pages)
      obtain ⟨e, member, takes⟩ := (held_served held x).mp ⟨r, there, covers⟩
      have meets := apart e member
      unfold ProgramHeader.Takes ProgramHeader.limit at *
      omega

theorem load_segment_steps {file : VfsNode} (within : phdr.filesz ≤ phdr.memsz) {result : Machine × Except ElfError Unit}
    (run : loadSegment id top file phdr m = .ok result) :
    ∃ vm ptr m', Vm.vmMapAnon (.process id) phdr.start phdr.length (segmentProt phdr) .standard loadFlags m.vm = .ok (vm, ptr) ∧
      ptr ≠ Vm.nullptr ∧ (if phdr.filesz > 0 then copySegment id top file phdr m' else .ok (m', .ok ())) = .ok result := by
  unfold loadSegment at run
  rw [if_neg (Nat.not_lt.mpr within)] at run
  obtain ⟨⟨vm, ptr⟩, mapped, run⟩ := (bind_eq_ok _ _ _).mp run
  obtain ⟨m', _, run⟩ := (bind_eq_ok _ _ _).mp run
  obtain ⟨_, asserted, run⟩ := (bind_eq_ok _ _ _).mp run
  exact ⟨vm, ptr, m', mapped, assert_ok asserted, run⟩

-- A segment that is not placed fails an assertion, or there is no memory for its region or its buffer.
theorem unplaced_fails {file : VfsNode} (held : Held id top supply earlier m) (within : phdr.filesz ≤ phdr.memsz)
    (unplaced : ¬ Placed earlier phdr) (result : Machine × Except ElfError Unit) : loadSegment id top file phdr m ≠ .ok result := by
  intro run
  obtain ⟨vm, ptr, m', mapped, real, rest⟩ := load_segment_steps within run
  obtain ⟨sized, hole⟩ := request_granted held.consistent (Nat.mul_mod_left _ _) (math_ceil_whole _) mapped real
  obtain ⟨above, below, apart⟩ := (held_hole_iff held sized).mp hole
  refine unplaced ⟨sized, above, below, apart, fun positive => Nat.pos_of_ne_zero fun zero => ?_⟩
  rw [if_pos positive] at rest
  unfold copySegment at rest
  obtain ⟨⟨vm', buffer⟩, none_, rest⟩ := (bind_eq_ok _ _ _).mp rest
  obtain ⟨_, _, rest⟩ := (bind_eq_ok _ _ _).mp rest
  obtain ⟨_, asserted, _⟩ := (bind_eq_ok _ _ _).mp rest
  rw [Vm.vmMapAnon, Vm.mapCommon, if_pos (.inl zero)] at none_
  exact assert_ok asserted (Prod.mk.inj (Except.ok.inj none_)).2.symm

-- A segment that is placed gets its region.
theorem placed_held {n : Nat} (file : VfsNode) (held : Held id top supply earlier m) (placed : Placed earlier phdr) (within : phdr.filesz ≤ phdr.memsz)
    (roomy : Roomy (m.vm.space .global) (n + 1)) (enough : 0 < freePages m.vm) :
    ∃ vm, Held id top supply (earlier ++ [phdr]) ⟨vm, m.tables⟩ ∧ Roomy (vm.space .global) n ∧ freePages m.vm ≤ freePages vm + 1 ∧
      loadSegment id top file phdr m = if phdr.filesz > 0 then copySegment id top file phdr ⟨vm, m.tables⟩ else .ok (⟨vm, m.tables⟩, .ok ()) := by
  have hole := (held_hole_iff held placed.sized).mpr ⟨placed.above, placed.below, placed.apart⟩
  have aligned : phdr.start % pageGranularity = 0 := Nat.mul_mod_left _ _
  obtain ⟨vm, region⟩ := region_mapped (segmentProt phdr) held.consistent held.kernel aligned placed.sized (math_ceil_whole _) hole roomy enough
  refine ⟨vm, ⟨region.consistent, region.kernel, ?_, fun a v => ?_⟩, region.roomy, region.weight, ?_⟩
  · intro e member
    rcases List.mem_append.mp member with before | own
    · exact held.sized e before
    · exact List.mem_singleton.mp own ▸ placed.sized
  · rw [region.maps, held.maps]
    simp only [List.mem_append, List.mem_singleton, or_and_right, exists_or, exists_eq_left, ProgramHeader.Takes, ProgramHeader.limit,
      ProgramHeader.attributes, and_assoc]
  · have real : phdr.start ≠ Vm.nullptr := by
      have above := placed.above
      unfold userspaceStart pageGranularity at above
      unfold Vm.nullptr
      omega
    unfold loadSegment
    dsimp only
    rw [if_neg (Nat.not_lt.mpr within)]
    change (Vm.vmMapAnon (.process id) phdr.start phdr.length _ _ _ _ >>= _) = _
    rw [region.mapped, bind_ok]
    dsimp only
    rw [region.followed, bind_ok, assertThat, if_pos (decide_eq_true real), bind_ok]

end Places

-- A buffer that elf_load has from the kernel's space: what the kernel can do with it, and that it can be given back.
structure SegmentBuffer (id top : Nat) (supply : List Nat) (n size : Nat) (m : Machine) (vm : Vm.State) (address : Nat) : Prop where
  mapped : Vm.vmMapAnon .global Vm.nullptr size Vm.protRW .standard 0 m.vm = .ok (vm, address)
  followed : follow id top m vm = .ok ⟨vm, m.tables⟩
  real : address ≠ Vm.nullptr
  consistent : Consistent id top supply ⟨vm, m.tables⟩
  process : vm.space (.process id) = m.vm.space (.process id)
  weight : freePages m.vm ≤ freePages vm + (size / pageGranularity + 1)
  holds : ∀ bytes : List UInt8, bytes.length ≤ size →
    ∃ memory, UserSpace.kernelStore address bytes ⟨vm, m.tables⟩ = .ok (setMemory ⟨vm, m.tables⟩ memory) ∧
      UserSpace.kernelLoad address bytes.length (setMemory ⟨vm, m.tables⟩ memory) = .ok bytes
  released : ∀ u : Machine, Consistent id top supply u → u.vm.space = vm.space → u.vm.cache = vm.cache →
    (∀ a, UserRequests.translate .global a u.vm.ptm = UserRequests.translate .global a vm.ptm) →
    ∃ final, unmapBuffer id top address size u = .ok ⟨final, u.tables⟩ ∧ Consistent id top supply ⟨final, u.tables⟩ ∧ KernelSpace final ∧
      Roomy (final.space .global) n ∧ final.space (.process id) = u.vm.space (.process id) ∧ final.pmm = u.vm.pmm

section Buffers

variable {id top n : Nat} {supply : List Nat} {earlier : List ProgramHeader} {phdr : ProgramHeader} {m : Machine}

theorem segment_buffer (consistent : Consistent id top supply m) (kernel : KernelSpace m.vm) {size : Nat} (positive : 0 < size)
    (wholePages : size % pageGranularity = 0) (roomy : Roomy (m.vm.space .global) (n + 1)) (fits : size ≤ n * pageGranularity)
    (enough : size / pageGranularity < freePages m.vm) : ∃ vm address, SegmentBuffer id top supply n size m vm address := by
  obtain ⟨t, rid, vm, address, whole, frame, buffer⟩ := UserSpace.buffer_mapped consistent kernel positive wholePages roomy fits enough
  refine ⟨vm, address, buffer.mapped, buffer.followed, buffer.real, buffer.consistent, UserSpace.buffer_process buffer,
    UserSpace.buffer_weight buffer, fun bytes short => ?_, fun u consistentU space cache frames => ?_⟩
  · obtain ⟨memory, stored, loaded, _⟩ := UserSpace.buffer_stored buffer wholePages bytes short
    exact ⟨memory, stored, loaded⟩
  · obtain ⟨final, unmapped⟩ := UserSpace.buffer_unmapped buffer positive wholePages consistentU space cache frames
    exact ⟨final, unmap_buffer_eq unmapped, unmapped.consistent, unmapped.kernel, unmapped.roomy, unmapped.process, unmapped.allocator⟩

theorem held_congr {u : Machine} (held : Held id top supply earlier m) (consistent : Consistent id top supply u) (kernel : KernelSpace u.vm)
    (process : u.vm.space (.process id) = m.vm.space (.process id)) : Held id top supply earlier u :=
  ⟨consistent, kernel, held.sized, fun a v => by rw [process]; exact held.maps a v⟩

theorem covered_lazy {segments : List ProgramHeader} (held : Held id top supply segments m)
    (covered : ∀ a, phdr.vaddr ≤ a → a < phdr.vaddr + phdr.filesz → ∃ e ∈ segments, e.Takes a) {k : Nat} (short : k < phdr.filesz) :
    Lazy id Pmm.flagZero m (phdr.vaddr + k) := by
  obtain ⟨e, there, takes⟩ := covered (phdr.vaddr + k) (Nat.le_add_right _ _) (by omega)
  exact held_lazy held there takes

theorem uncovered_missing {segments : List ProgramHeader} (held : Held id top supply segments m) (low : phdr.vaddr + phdr.filesz < 2 ^ 64) {a : Nat}
    (above : phdr.vaddr ≤ a) (below : a < phdr.vaddr + phdr.filesz) (bare : ∀ e ∈ segments, ¬ e.Takes a) :
    Vm.memoryExists (m.vm.space (.process id)) phdr.vaddr phdr.filesz = .ok false := by
  have tidy := held.consistent.vm.tidy (.process id)
  rcases Vm.memory_exists_returns tidy phdr.vaddr phdr.filesz with there | missing
  · obtain ⟨_, _, covered⟩ := (Vm.memory_exists_iff tidy low).mp there
    obtain ⟨e, member, takes⟩ := (held_served held a).mp (covered a above below)
    exact absurd takes (bare e member)
  · exact missing

end Buffers

-- A read gives no more bytes than it was asked for.
def Bounded (file : VfsNode) : Prop := ∀ offset size bytes, file.read offset size = .ok bytes → bytes.length ≤ size

theorem rdsk_bounded (contents : List UInt8) : Bounded (rdskNode contents) := by
  intro offset size bytes read
  unfold rdskNode at read
  dsimp only at read
  split at read
  · rw [← Except.ok.inj read]
    exact Nat.zero_le _
  · rw [← Except.ok.inj read, List.length_take]
    split <;> omega

section Copies

variable {id top n : Nat} {supply : List Nat} {segments : List ProgramHeader} {phdr : ProgramHeader} {m : Machine} {file : VfsNode}
variable {vm : Vm.State} {address : Nat}

theorem reads_whole_iff : readsWhole file phdr = true ↔ ∃ bytes, file.read phdr.offset phdr.filesz = .ok bytes ∧ bytes.length = phdr.filesz := by
  unfold readsWhole
  cases file.read phdr.offset phdr.filesz with
  | error fault => simp
  | ok bytes => simp

-- A file that does not give all the bytes is an error, and the buffer goes back.
theorem copy_stops (bounded : Bounded file) (buffer : SegmentBuffer id top supply n phdr.bufferSize m vm address)
    (room : phdr.filesz ≤ phdr.bufferSize) (part : readsWhole file phdr ≠ true) :
    ∃ m', copySegment id top file phdr m = .ok (m', .error .fs) := by
  rw [copy_segment_eq (show _ = phdr.bufferSize from rfl) buffer.mapped buffer.followed buffer.real]
  cases read : file.read phdr.offset phdr.filesz with
  | error fault =>
      obtain ⟨final, freed, _⟩ := buffer.released ⟨vm, m.tables⟩ buffer.consistent rfl rfl fun _ => rfl
      dsimp only
      rw [freed, bind_ok]
      exact ⟨_, rfl⟩
  | ok bytes =>
      have short : bytes.length ≠ phdr.filesz := fun whole => part (reads_whole_iff.mpr ⟨bytes, read, whole⟩)
      obtain ⟨memory, stored, _⟩ := buffer.holds bytes ((bounded _ _ _ read).trans room)
      obtain ⟨final, freed, _⟩ := buffer.released (setMemory ⟨vm, m.tables⟩ memory) (UserSpace.set_memory_keeps buffer.consistent memory) rfl rfl
        fun _ => rfl
      dsimp only
      rw [stored, bind_ok, if_pos short, freed, bind_ok]
      exact ⟨_, rfl⟩

theorem copy_reaches (bounded : Bounded file) (buffer : SegmentBuffer id top supply n phdr.bufferSize m vm address)
    (room : phdr.filesz ≤ phdr.bufferSize) (whole : readsWhole file phdr = true) :
    ∃ memory src, src.length = phdr.filesz ∧ copySegment id top file phdr m = (do
      let (m, count) ← Vm.vmCopyTo (paging id top) phdr.vaddr src phdr.filesz (setMemory ⟨vm, m.tables⟩ memory)
      assertThat (count = phdr.filesz)
      let m ← unmapBuffer id top address phdr.bufferSize m
      .ok (m, .ok ())) := by
  obtain ⟨bytes, read, size⟩ := reads_whole_iff.mp whole
  obtain ⟨memory, stored, loaded⟩ := buffer.holds bytes ((bounded _ _ _ read).trans room)
  refine ⟨memory, bytes, size, ?_⟩
  rw [copy_segment_eq (show _ = phdr.bufferSize from rfl) buffer.mapped buffer.followed buffer.real, read]
  dsimp only
  rw [stored, bind_ok, if_neg (not_not_intro size), ← size, loaded, bind_ok]

-- vm_copy_to copies nothing to a range that is not there as a whole.
theorem copy_uncovered (bounded : Bounded file) (buffer : SegmentBuffer id top supply n phdr.bufferSize m vm address)
    (room : phdr.filesz ≤ phdr.bufferSize) (held : Held id top supply segments m) (low : phdr.vaddr + phdr.filesz < 2 ^ 64) (positive : 0 < phdr.filesz)
    (whole : readsWhole file phdr = true) {a : Nat} (above : phdr.vaddr ≤ a) (below : a < phdr.vaddr + phdr.filesz)
    (bare : ∀ e ∈ segments, ¬ e.Takes a) (result : Machine × Except ElfError Unit) : copySegment id top file phdr m ≠ .ok result := by
  obtain ⟨memory, src, _, reached⟩ := copy_reaches bounded buffer room whole
  have missing : Vm.memoryExists ((paging id top).space (setMemory ⟨vm, m.tables⟩ memory)) phdr.vaddr phdr.filesz = .ok false := by
    change Vm.memoryExists (vm.space (.process id)) _ _ = _
    rw [buffer.process]
    exact uncovered_missing held low above below bare
  rw [reached, Vm.vmCopyTo, missing, bind_ok]
  intro run
  obtain ⟨_, nothing, run⟩ := (bind_eq_ok _ _ _).mp run
  obtain rfl := Except.ok.inj nothing
  obtain ⟨_, asserted, _⟩ := (bind_eq_ok _ _ _).mp run
  exact Nat.ne_of_lt positive (assert_ok asserted)

theorem copy_covered (bounded : Bounded file) (buffer : SegmentBuffer id top supply n phdr.bufferSize m vm address)
    (room : phdr.filesz ≤ phdr.bufferSize) (held : Held id top supply segments m) (low : phdr.vaddr + phdr.filesz < 2 ^ 64)
    (positive : 0 < phdr.filesz) (whole : readsWhole file phdr = true) (covered : ∀ a, phdr.vaddr ≤ a → a < phdr.vaddr + phdr.filesz → ∃ e ∈ segments, e.Takes a)
    {U : Finset Nat} (inU : phdr.copyPages ⊆ U) {kept : Nat} (reserve : Reserve top U (phdr.bufferSize / pageGranularity + 1 + kept) m) :
    ∃ m', copySegment id top file phdr m = .ok (m', .ok ()) ∧ Held id top supply segments m' ∧ Roomy (m'.vm.space .global) n ∧
      Reserve top U kept m' := by
  obtain ⟨memory, src, size, reached⟩ := copy_reaches bounded buffer room whole
  have consistentU := UserSpace.set_memory_keeps buffer.consistent memory
  have reserveU : Reserve top U kept (setMemory ⟨vm, m.tables⟩ memory) := reserve_spent reserve rfl buffer.weight
  have there : ∀ k < src.length, Lazy id Pmm.flagZero (setMemory ⟨vm, m.tables⟩ memory) (phdr.vaddr + k) := by
    intro k short
    unfold Lazy
    change ∃ r ∈ (vm.space (.process id)).regions, _
    rw [buffer.process]
    exact covered_lazy held covered (size ▸ short)
  rw [ProgramHeader.copyPages, if_neg (Nat.ne_of_gt positive)] at inU
  obtain ⟨w, copied, consistentW, spaceW, cacheW, reserveW, _⟩ := lazy_copied consistentU (size ▸ low) there
    (fun P first last => inU (Finset.mem_Icc.mpr ⟨first, size ▸ last⟩)) reserveU
  obtain ⟨final, freed, consistent, kernel, roomy, process, allocator⟩ := buffer.released w consistentW spaceW cacheW
    (UserSpace.copy_to_aside consistentU copied)
  refine ⟨⟨final, w.tables⟩, ?_, held_congr held consistent kernel ?_, roomy, ?_⟩
  · rw [reached, ← size, copied, bind_ok]
    dsimp only
    rw [assertThat, if_pos (decide_eq_true rfl), bind_ok, freed, bind_ok]
  · change final.space (.process id) = _
    rw [process, spaceW]
    exact buffer.process
  · refine reserve_spent (m := w) (by rw [Nat.zero_add]; exact reserveW) rfl ?_
    unfold freePages
    rw [allocator]
    exact Nat.le_refl _

end Copies

end Elysium.Elf
