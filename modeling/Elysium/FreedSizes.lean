import Elysium.ModuleLoad

set_option autoImplicit false

namespace Elysium.HeapFrees

open Cleanup
open Heap (Family findCache find_cache_some)
open Elf (VfsNode ElfFile ElfError fileHeaderSize programHeaderSize)
open ElfBuffers (ptInterp readPhdr)
open UserSpace (Machine follow)
open ModuleLoad

-- A block that is given back with its size.
def Freed.Proper (f : Freed) : Prop := f.passed = f.block.asked

-- With its size, or by a handler that was left a block which is larger than a pointer.
def Freed.Expected (f : Freed) : Prop := f.Proper ∨ f.passed = pointerSize ∧ programHeaderSize ≤ f.block.asked

section Blocks

variable {block : Block} {size : Nat}

theorem proper_heap_free (same : block.asked = size) : Ensures Freed.Expected (fun _ => True) (heapFree block size) :=
  ensures_heap_free (.inl same.symm)

-- The block of a header, the rest of the function, and the handler.
theorem with_block_expected {α : Type} {scope : Block → Run α} (large : programHeaderSize ≤ size)
    (inside : ∀ block, Ensures Freed.Expected (fun _ => True) (scope block)) :
    Ensures Freed.Expected (fun _ => True) (heapAlloc size >>= fun block => onLeaving (scope block) fun _ => autoFree block) :=
  ensures_bind ensures_heap_alloc fun block asked =>
    ensures_leaving (inside block) fun _ => ensures_heap_free (.inr ⟨rfl, large.trans (Nat.le_of_eq asked.symm)⟩)

end Blocks

section ElfCalls

variable {file : VfsNode} {elf : ElfFile}

theorem elf_read_expected (file : VfsNode) : Ensures Freed.Expected (fun _ => True) (elfRead file) := by
  unfold elfRead
  refine ensures_ite (fun _ => ensures_pure trivial) fun _ => ?_
  cases file.attr with
  | error fault => exact ensures_pure trivial
  | ok size =>
      refine ensures_ite (fun _ => ensures_pure trivial) fun _ => with_block_expected (by decide) fun block => ensures_step fun read _ => ?_
      cases read with
      | error fault => exact ensures_pure trivial
      | ok bytes =>
          dsimp only
          -- The checks on the fields of the header.
          iterate 8 refine ensures_ite (fun _ => ensures_pure trivial) fun _ => ?_
          exact ensures_bind ensures_heap_alloc fun _ _ => ensures_pure trivial

theorem interpreter_from_expected (block : Block) (left i : Nat) : Ensures Freed.Expected (fun _ => True) (interpreterFrom elf block left i) := by
  induction left generalizing i with
  | zero => exact ensures_pure trivial
  | succ left ih =>
      rw [interpreterFrom]
      refine ensures_step fun read _ => ?_
      cases read with
      | none => exact ensures_pure trivial
      | some phdr =>
          refine ensures_ite (fun _ => ih (i + 1)) fun _ => ensures_bind ensures_heap_alloc fun interp asked => ensures_step fun read _ => ?_
          have given := ensures_bind (proper_heap_free asked) (R := fun _ => True) fun _ _ =>
            (ensures_pure trivial : Ensures Freed.Expected _ (pure (.error .fs) : Run (Except ElfError (List UInt8))))
          cases read with
          | error fault => exact given
          | ok bytes => exact ensures_ite (fun _ => given) fun _ => ensures_pure trivial

end ElfCalls

section ModuleCalls

variable {id top : Nat} {kernel : Option (List KernelSymbol)} {stale : SectionHeader} {file : VfsNode} {shdrs : List SectionHeader}

-- buffer_free passes what buffer_alloc asked for.
def Sound (buffer : Buffer) : Prop := buffer.block.asked = add64 bufferHeaderSize buffer.size

theorem buffer_alloc_sound (size : Nat) : Ensures Freed.Expected Sound (bufferAlloc size) :=
  ensures_step fun _ _ => ensures_bind ensures_heap_alloc fun _ asked => ensures_step fun _ _ => ensures_pure asked

theorem buffer_free_proper {buffer : Buffer} (sound : Sound buffer) : Ensures Freed.Expected (fun _ => True) (bufferFree buffer) :=
  proper_heap_free sound

theorem read_section_sound (shdr : SectionHeader) : Ensures Freed.Expected (fun read => Sound read.1) (readSection file shdr) := by
  refine ensures_bind (buffer_alloc_sound shdr.size) fun buffer sound => ensures_step fun read _ => ?_
  cases read with
  | error fault => exact ensures_pure sound
  | ok data => exact ensures_pure sound

-- The blocks of the regions of a module that is being loaded.
def RegionsSound (regions : List ModuleRegion) : Prop := ∀ region ∈ regions, region.block.asked = moduleRegionSize

theorem load_section_sound {shdr : SectionHeader} {i : Nat} {l : Loading} (sound : RegionsSound l.moduleRegions) :
    Ensures Freed.Expected (fun loaded => RegionsSound loaded.1.moduleRegions) (loadSection id top file shdr i l) := by
  unfold loadSection
  refine ensures_ite (fun _ => ensures_ite (fun _ => ensures_pure sound) fun _ => ?_) fun _ => ?_
  · refine ensures_step fun mapped _ => ensures_step fun m _ => ensures_ite (fun _ => ensures_pure sound) fun _ => ?_
    refine ensures_bind ensures_heap_alloc fun block asked => ?_
    have grown : ∀ base size prot, RegionsSound (⟨block, base, size, prot⟩ :: l.moduleRegions) := fun base size prot =>
      List.forall_mem_cons.mpr ⟨asked, sound⟩
    cases file.read shdr.offset shdr.size with
    | error fault => exact ensures_pure (grown _ _ _)
    | ok bytes => exact ensures_step fun m _ => ensures_ite (fun _ => ensures_pure (grown _ _ _)) fun _ => ensures_pure (grown _ _ _)
  · exact ensures_ite (fun _ => ensures_pure sound) fun _ => ensures_ite (fun _ => ensures_pure sound) fun _ => ensures_pure sound

theorem load_sections_sound (left i : Nat) {l : Loading} (sound : RegionsSound l.moduleRegions) :
    Ensures Freed.Expected (fun loaded => RegionsSound loaded.1.moduleRegions) (loadSections id top file shdrs left i l) := by
  induction left generalizing i l with
  | zero => exact ensures_pure sound
  | succ left ih =>
      rw [loadSections]
      refine ensures_step fun shdr _ => ensures_bind (load_section_sound sound) fun loaded kept => ?_
      obtain ⟨l', result⟩ := loaded
      cases result with
      | error error => exact ensures_pure kept
      | ok done => exact ih (i + 1) kept

theorem auto_free_module_proper {block : Block} (asked : block.asked = moduleSize) (regions : List ModuleRegion) (m : Machine)
    (sound : RegionsSound regions) : Ensures Freed.Expected (fun _ => True) (autoFreeModule id top block regions m) := by
  induction regions generalizing m with
  | nil => exact ensures_bind (proper_heap_free asked) fun _ _ => ensures_pure trivial
  | cons region rest ih =>
      rw [autoFreeModule]
      obtain ⟨own, others⟩ := List.forall_mem_cons.mp sound
      exact ensures_step fun vm _ => ensures_step fun m _ => ensures_bind (proper_heap_free own) fun _ _ => ih m others

theorem relocate_section_expected {shdr symtab : SectionHeader} {symtabIndex : Nat} {sectionAddresses : List Nat} {symbols : List UInt8} {m : Machine} :
    Ensures Freed.Expected (fun _ => True) (relocateSection file shdrs shdr symtab symtabIndex sectionAddresses symbols m) := by
  unfold relocateSection
  refine ensures_ite (fun _ => ensures_pure trivial) fun _ => ensures_step fun target _ => ?_
  refine ensures_ite (fun _ => ensures_pure trivial) fun _ => ensures_ite (fun _ => ensures_pure trivial) fun _ => ?_
  refine ensures_bind (read_section_sound shdr) fun read sound => ensures_leaving ?_ fun _ => buffer_free_proper sound
  obtain ⟨relaBuffer, data⟩ := read
  cases data with
  | none => exact ensures_pure trivial
  | some relas =>
      refine ensures_step fun count _ => ensures_step fun relocated _ => ?_
      obtain ⟨m', applied⟩ := relocated
      cases applied with
      | false => exact ensures_pure trivial
      | true => exact ensures_pure trivial

theorem relocate_sections_expected {symtab : SectionHeader} {symtabIndex : Nat} {sectionAddresses : List Nat} {symbols : List UInt8} (left i : Nat)
    (m : Machine) : Ensures Freed.Expected (fun _ => True)
      (relocateSections file shdrs symtab symtabIndex sectionAddresses symbols left i m) := by
  induction left generalizing i m with
  | zero => exact ensures_pure trivial
  | succ left ih =>
      rw [relocateSections]
      refine ensures_step fun shdr _ => ensures_bind relocate_section_expected fun relocated _ => ?_
      obtain ⟨m', result⟩ := relocated
      cases result with
      | error error => exact ensures_pure trivial
      | ok done => exact ih (i + 1) m'

theorem link_module_expected {symtab : SectionHeader} {strtab symbols : List UInt8} {l : Loading} :
    Ensures Freed.Expected (fun _ => True) (linkModule id top kernel file shdrs symtab strtab symbols l) := by
  unfold linkModule
  refine ensures_step fun count _ => ensures_step fun resolved _ => ?_
  cases resolved with
  | error error => exact ensures_pure trivial
  | ok symbols =>
      refine ensures_bind (relocate_sections_expected _ _ _) fun relocated _ => ?_
      obtain ⟨m, result⟩ := relocated
      cases result with
      | error error => exact ensures_pure trivial
      | ok done => exact ensures_step fun m _ => ensures_step fun found _ => ensures_pure trivial

theorem link_symbols_expected {l : Loading} : Ensures Freed.Expected (fun _ => True) (linkSymbols id top kernel file shdrs l) := by
  unfold linkSymbols
  refine ensures_ite (fun _ => ensures_pure trivial) fun _ => ensures_step fun symtab _ => ensures_step fun linked _ => ?_
  refine ensures_bind (read_section_sound linked) fun first strtabSound => ?_
  obtain ⟨symbolStrtab, data⟩ := first
  cases data with
  | none => exact ensures_leaving (ensures_pure trivial) fun _ => buffer_free_proper strtabSound
  | some strtab =>
      refine ensures_bind (read_section_sound symtab) fun second symbolsSound => ?_
      refine ensures_leaving (ensures_leaving ?_ fun _ => buffer_free_proper strtabSound) fun _ => buffer_free_proper symbolsSound
      obtain ⟨symbols, data⟩ := second
      cases data with
      | none => exact ensures_pure trivial
      | some data => exact link_module_expected

theorem build_module_expected {m : Machine} : Ensures Freed.Expected (fun _ => True) (buildModule id top kernel file shdrs m) := by
  unfold buildModule
  refine ensures_bind ensures_heap_alloc fun block asked => ensures_bind (load_sections_sound _ _ ?_) fun loaded sound => ?_
  · exact fun region member => absurd member List.not_mem_nil
  obtain ⟨l, result⟩ := loaded
  cases result with
  | error error => exact ensures_bind (auto_free_module_proper asked _ _ sound) fun _ _ => ensures_pure trivial
  | ok done =>
      refine ensures_bind link_symbols_expected fun linked _ => ?_
      obtain ⟨m', result⟩ := linked
      cases result with
      | error error => exact ensures_bind (auto_free_module_proper asked _ _ sound) fun _ _ => ensures_pure trivial
      | ok found => exact ensures_pure trivial

theorem read_names_sound {shstrndx : Nat} : Ensures Freed.Expected (fun read => ∀ buffer, read.1 = some buffer → Sound buffer)
    (readNames file shdrs shstrndx) := by
  unfold readNames
  refine ensures_ite (fun _ => ?_) fun _ => ensures_pure fun buffer missing => by cases missing
  refine ensures_step fun shdr _ => ensures_bind (read_section_sound shdr) fun read sound => ensures_pure fun buffer same => ?_
  exact Option.some.inj same ▸ sound

theorem with_headers_expected {shstrndx : Nat} {m : Machine} :
    Ensures Freed.Expected (fun _ => True) (withHeaders id top kernel file shdrs shstrndx m) := by
  unfold withHeaders
  refine ensures_bind read_names_sound fun names sound => ensures_leaving ?_ fun _ => ?_
  · refine ensures_ite (fun _ => ensures_pure trivial) fun _ => ensures_bind (buffer_alloc_sound _) fun addresses addressesSound => ?_
    exact ensures_leaving build_module_expected fun _ => buffer_free_proper addressesSound
  · obtain ⟨strtab, failed⟩ := names
    cases strtab with
    | none => exact ensures_pure trivial
    | some buffer => exact buffer_free_proper (sound buffer rfl)

theorem with_file_expected {block : Block} {m : Machine} :
    Ensures Freed.Expected (fun _ => True) (withFile id top kernel stale file block m) := by
  unfold withFile
  refine ensures_step fun read _ => ?_
  cases read with
  | error fault => exact ensures_pure trivial
  | ok bytes =>
      dsimp only
      -- The checks on the fields of the header, the last for the number of sections.
      iterate 7 refine ensures_ite (fun _ => ensures_pure trivial) fun _ => ?_
      refine ensures_ite (fun _ => ensures_pure trivial) fun accepted => ?_
      rw [not_or] at accepted
      have some : sectionHeaderSize ≤ sectionHeaderSize * (FileHeader.parse bytes).shnum :=
        Nat.le_mul_of_pos_right sectionHeaderSize (Nat.pos_of_ne_zero accepted.1)
      refine with_block_expected (Nat.le_trans (by decide) some) fun shdrs => ensures_step fun read _ => ?_
      cases read with
      | none => exact ensures_pure trivial
      | some headers => exact with_headers_expected

theorem module_load_expected {m : Machine} : Ensures Freed.Expected (fun _ => True) (moduleLoad id top kernel stale file m) := by
  unfold moduleLoad
  exact ensures_ite (fun _ => ensures_pure trivial) fun _ => with_block_expected (by decide) fun header => with_file_expected

end ModuleCalls

-- A call of one of the functions. Those on an elf_file_t are made on one that elf_read has made.
inductive Call where
  | elfRead (file : VfsNode)
  | elfLookupInterpreter (elf : ElfFile)
  | elfLookupPhdrAddress (elf : ElfFile)
  | elfLoad (id top : Nat) (elf : ElfFile) (m : Machine)
  | moduleLoad (id top : Nat) (kernel : Option (List KernelSymbol)) (stale : SectionHeader) (file : VfsNode) (m : Machine)

namespace Call

def Made : Call → Prop
  | elfRead _ | moduleLoad .. => True
  | elfLookupInterpreter elf | elfLookupPhdrAddress elf | elfLoad _ _ elf _ => ∃ file, outcome (HeapFrees.elfRead file) = .ok (.ok elf)

-- What is given back by the time the call returns, on success or with an error.
def released : Call → Except Fault (List Freed)
  | elfRead file => (HeapFrees.elfRead file).run.map Prod.snd
  | elfLookupInterpreter elf => (HeapFrees.elfLookupInterpreter elf).run.map Prod.snd
  | elfLookupPhdrAddress elf => (HeapFrees.elfLookupPhdrAddress elf).run.map Prod.snd
  | elfLoad id top elf m => (HeapFrees.elfLoad id top elf m).run.map Prod.snd
  | moduleLoad id top kernel stale file m => (ModuleLoad.moduleLoad id top kernel stale file m).run.map Prod.snd

-- The call gets to where a block for a header is allocated.
def Allocates : Call → Prop
  | elfRead file => file.type = .file ∧ ∃ size, file.attr = .ok size ∧ fileHeaderSize ≤ size
  | elfLookupInterpreter _ | elfLookupPhdrAddress _ | elfLoad .. => True
  | moduleLoad _ _ kernel _ _ _ => kernelSymbolsIsLoaded kernel

end Call

section Sizes

variable {released : List Freed}

def Exact (released : List Freed) : Prop := ∀ f ∈ released, f.Proper

-- Every block goes back to where it came from.
def Homed (released : List Freed) : Prop := ∀ f ∈ released, home f.passed = home f.block.asked

theorem exact_homed (exact_ : Exact released) : Homed released := fun f member => congrArg home (exact_ f member)

-- The cache for a pointer is not that of anything as large as a header.
theorem pointer_home {size : Nat} (large : programHeaderSize ≤ size) : home pointerSize ≠ home size := by
  have pointers : home pointerSize = some ⟨.x8, 0, by decide⟩ := by decide
  rw [pointers, home]
  split
  · exact fun same => nomatch same
  · rename_i small
    obtain ⟨id, found, enough⟩ := find_cache_some (Nat.lt_of_lt_of_le (by decide) large) (Nat.le_of_not_lt small)
    rw [found]
    intro same
    rw [← Option.some.inj same] at enough
    exact absurd (large.trans enough) (by decide)

-- A handler that is left a header is wrong.
theorem handler_unhomed {block : Block} (large : programHeaderSize ≤ block.asked) (member : ⟨block, pointerSize⟩ ∈ released) : ¬ Homed released :=
  fun homed => pointer_home large (homed _ member)

theorem ran_of_released {α : Type} {run : Run α} (returns : run.run.map Prod.snd = .ok released) : ∃ result, run.run = .ok (result, released) := by
  cases ran : run.run with
  | error fault =>
      rw [ran] at returns
      cases returns
  | ok ended =>
      rw [ran] at returns
      exact ⟨ended.1, congrArg Except.ok (Prod.ext rfl (Except.ok.inj returns))⟩

-- A block for a header is given back by the handler, whatever is done with it.
theorem header_given_back {α : Type} {size : Nat} {scope : Block → Run α} (large : programHeaderSize ≤ size)
    (returns : (heapAlloc size >>= fun block => onLeaving (scope block) fun _ => autoFree block).run.map Prod.snd = .ok released) :
    ¬ Homed released := by
  obtain ⟨result, ran⟩ := ran_of_released returns
  obtain ⟨block, before, after, allocated, ended, rfl⟩ := bind_returns.mp ran
  obtain ⟨asked, rfl⟩ := heap_alloc_returns allocated
  have header : programHeaderSize ≤ block.asked := asked ▸ large
  exact handler_unhomed header (auto_free_released (Nat.ne_of_gt (Nat.lt_of_lt_of_le (by decide) header)) ended)

theorem made_entries {elf : ElfFile} (made : ∃ file, outcome (elfRead file) = .ok (.ok elf)) : programHeaderSize ≤ elf.entrySize := by
  obtain ⟨file, read⟩ := made
  rw [elf_read_outcome, ElfBuffers.elf_read_eq] at read
  exact (ElfBuffers.elf_read_entries (Except.ok.inj read)).2.1

theorem allocates_unhomed {call : Call} (made : call.Made) (returns : call.released = .ok released) (allocates : call.Allocates) : ¬ Homed released := by
  cases call with
  | elfRead file =>
      obtain ⟨isFile, size, attr, enough⟩ := allocates
      rw [Call.released, elfRead] at returns
      rw [if_neg (not_not_intro isFile), attr] at returns
      dsimp only at returns
      rw [if_neg (Nat.not_lt.mpr enough)] at returns
      exact header_given_back (by decide) returns
  | elfLookupInterpreter elf => exact header_given_back (made_entries made) returns
  | elfLookupPhdrAddress elf => exact header_given_back (made_entries made) returns
  | elfLoad id top elf m => exact header_given_back (made_entries made) returns
  | moduleLoad id top kernel stale file m =>
      have loaded : kernelSymbolsIsLoaded kernel = true := allocates
      rw [Call.released, moduleLoad, if_neg (not_not_intro loaded)] at returns
      exact header_given_back (by decide) returns

theorem unallocated_released {call : Call} (returns : call.released = .ok released) (unallocated : ¬ call.Allocates) : released = [] := by
  cases call with
  | elfRead file =>
      rw [Call.released, elfRead] at returns
      by_cases isFile : file.type = .file
      · rw [if_neg (not_not_intro isFile)] at returns
        cases attr : file.attr with
        | error fault =>
            rw [attr] at returns
            exact (Except.ok.inj returns).symm
        | ok size =>
            rw [attr] at returns
            dsimp only at returns
            rw [if_pos (Nat.lt_of_not_le fun enough => unallocated ⟨isFile, size, attr, enough⟩)] at returns
            exact (Except.ok.inj returns).symm
      · rw [if_pos isFile] at returns
        exact (Except.ok.inj returns).symm
  | elfLookupInterpreter elf => exact absurd trivial unallocated
  | elfLookupPhdrAddress elf => exact absurd trivial unallocated
  | elfLoad id top elf m => exact absurd trivial unallocated
  | moduleLoad id top kernel stale file m =>
      have missing : ¬ kernelSymbolsIsLoaded kernel = true := unallocated
      rw [Call.released, moduleLoad, if_pos missing] at returns
      exact (Except.ok.inj returns).symm

theorem released_expected {call : Call} (made : call.Made) (returns : call.released = .ok released) : ∀ f ∈ released, f.Expected := by
  have all : ∀ {α : Type} {run : Run α}, Ensures Freed.Expected (fun _ => True) run → run.run.map Prod.snd = .ok released →
      ∀ f ∈ released, f.Expected := fun ensures returns => by
    obtain ⟨result, ran⟩ := ran_of_released returns
    exact (ensures result released ran).2
  cases call with
  | elfRead file => exact all (elf_read_expected file) returns
  | elfLookupInterpreter elf => exact all (with_block_expected (made_entries made) fun phdr => interpreter_from_expected phdr _ _) returns
  | elfLookupPhdrAddress elf => exact all (with_block_expected (made_entries made) fun phdr => ensures_lift fun _ _ => trivial) returns
  | elfLoad id top elf m => exact all (with_block_expected (made_entries made) fun phdr => ensures_lift fun _ _ => trivial) returns
  | moduleLoad id top kernel stale file m => exact all module_load_expected returns

-- Every block is given back with its size, and to where it came from, exactly where no block for a header is allocated. The handlers
-- for the headers are all that is wrong.
theorem freed_sizes_iff (call : Call) (made : call.Made) (released : List Freed) (returns : call.released = .ok released) :
    (Exact released ↔ ¬ call.Allocates) ∧ (Homed released ↔ ¬ call.Allocates) ∧ ∀ f ∈ released, f.Expected := by
  have none : ¬ call.Allocates → Exact released := fun unallocated f member => by
    rw [unallocated_released returns unallocated] at member
    cases member
  have wrong : Homed released → ¬ call.Allocates := fun homed allocates => allocates_unhomed made returns allocates homed
  exact ⟨⟨fun exact_ => wrong (exact_homed exact_), none⟩, ⟨wrong, fun unallocated => exact_homed (none unallocated)⟩, released_expected made returns⟩

theorem one_segment_released : (Call.elfRead (Elf.rdskNode Elf.oneSegment)).released = .ok [⟨⟨fileHeaderSize, 64⟩, pointerSize⟩] := by
  decide +kernel

theorem freed_sizes_one : ¬ Exact [⟨⟨fileHeaderSize, 64⟩, pointerSize⟩] ∧ ∀ f ∈ [(⟨⟨fileHeaderSize, 64⟩, pointerSize⟩ : Freed)], f.Expected := by
  obtain ⟨exact_, _, expected⟩ := freed_sizes_iff (.elfRead (Elf.rdskNode Elf.oneSegment)) trivial _ one_segment_released
  exact ⟨fun holds => exact_.mp holds ⟨rfl, _, rfl, by decide⟩, expected⟩

end Sizes

end Elysium.HeapFrees
