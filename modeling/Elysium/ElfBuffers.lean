import Elysium.Elf
import Elysium.HeapSizes

set_option autoImplicit false

namespace Elysium.ElfBuffers

open Elf (VfsNode ElfFile ElfError FileHeader ProgramHeader fileHeaderSize programHeaderSize elf64IdValidate)
open Fs (VfsError)
open Heap (Family findCache divCeil orderBytes)
open Pmm (pagecountToOrder pmmMaxOrder)
open UserSpace (Machine)

section Code

-- The bytes of the block that heap_alloc hands out, where there is memory for it. The null pointer has none.
def heapAlloc (size : Nat) : Except Fault Nat :=
  if size = 0 then .ok 0
  else if size > Family.largest .other then do
    assertThat (pagecountToOrder (divCeil size pageGranularity) ≤ pmmMaxOrder)
    .ok (orderBytes (pagecountToOrder (divCeil size pageGranularity)))
  else
    match findCache size with
    | none => .error .assertion
    | some id => .ok id.config.objectSize

-- A read with rw. What it does is undefined where the buffer has less than the size.
def rw (file : VfsNode) (offset size buffer : Nat) : Except Fault (Except VfsError (List UInt8)) :=
  if buffer < size then .error .undefined else .ok (file.read offset size)

def elfFileSize : Nat := 40

def ptInterp : Nat := 3

def ptPhdr : Nat := 6

-- The functions of Elf, with their blocks. What is given back at the end is left out.
def elfRead (file : VfsNode) : Except Fault (Except ElfError ElfFile) :=
  if file.type ≠ .file then .ok (.error .notElf)
  else
    match file.attr with
    | .error _ => .ok (.error .fs)
    | .ok size =>
        if size < fileHeaderSize then .ok (.error .notElf)
        else do
          let block ← heapAlloc fileHeaderSize
          match ← rw file 0 fileHeaderSize block with
          | .error _ => .ok (.error .fs)
          | .ok bytes =>
              let header := FileHeader.parse bytes
              if bytes.length ≠ fileHeaderSize then .ok (.error .fs)
              else if ¬ elf64IdValidate header.magic then .ok (.error .notElf)
              else if header.identClass ≠ Elf.class64 then .ok (.error .invalidClass)
              else if header.encoding ≠ Elf.data2Lsb then .ok (.error .invalidEndian)
              else if header.version > 1 then .ok (.error .unsupported)
              else if header.type ≠ Elf.etExec then .ok (.error .invalidType)
              else if header.machine ≠ Elf.machineX8664 then .ok (.error .invalidMachine)
              else if header.phnum = 0 ∨ header.phentsize < programHeaderSize then .ok (.error .unsupported)
              else do
                let _ ← heapAlloc elfFileSize
                .ok (.ok ⟨file, header.entry, header.phentsize, header.phoff, header.phnum⟩)

def readPhdr (elf : ElfFile) (block index : Nat) : Except Fault (Option ProgramHeader) := do
  match ← rw elf.file (add64 elf.offset (index * elf.entrySize)) programHeaderSize block with
  | .error _ => .ok none
  | .ok bytes => .ok (if bytes.length ≠ programHeaderSize then none else some (ProgramHeader.parse bytes))

-- The rounds that are left, and the index. The interpreter is the bytes of the segment and a zero.
def interpreterFrom (elf : ElfFile) (block : Nat) : Nat → Nat → Except Fault (Except ElfError (List UInt8))
  | 0, _ => .ok (.error .notFound)
  | left + 1, i => do
      match ← readPhdr elf block i with
      | none => .ok (.error .fs)
      | some phdr =>
          if phdr.type ≠ ptInterp then interpreterFrom elf block left (i + 1)
          else do
            let interp ← heapAlloc (add64 phdr.filesz 1)
            match ← rw elf.file phdr.offset phdr.filesz interp with
            | .error _ => .ok (.error .fs)
            | .ok bytes => if bytes.length ≠ phdr.filesz then .ok (.error .fs) else .ok (.ok (bytes ++ [0]))

def elfLookupInterpreter (elf : ElfFile) : Except Fault (Except ElfError (List UInt8)) := do
  let phdr ← heapAlloc elf.entrySize
  interpreterFrom elf phdr elf.count 0

def phdrAddressFrom (elf : ElfFile) (block : Nat) : Nat → Nat → Except Fault (Except ElfError Nat)
  | 0, _ => .ok (.error .notFound)
  | left + 1, i => do
      match ← readPhdr elf block i with
      | none => .ok (.error .fs)
      | some phdr => if phdr.type ≠ ptPhdr then phdrAddressFrom elf block left (i + 1) else .ok (.ok phdr.vaddr)

def elfLookupPhdrAddress (elf : ElfFile) : Except Fault (Except ElfError Nat) := do
  let phdr ← heapAlloc elf.entrySize
  phdrAddressFrom elf phdr elf.count 0

end Code

section Blocks

theorem cache_order_le {pages k : Nat} (positive : 0 < pages) (few : pages ≤ 2 ^ k) (small : k < 64) : pagecountToOrder pages ≤ k := by
  rw [pagecountToOrder]
  by_cases one : pages = 1
  · rw [if_pos one]
    exact Nat.zero_le k
  · have word : 2 ^ k < 2 ^ 64 := Nat.pow_lt_pow_right (by decide) small
    rw [if_neg one, sub64_eq (show 1 ≤ pages from positive) (by omega), Pmm.clzll]
    have bound : Nat.log2 (pages - 1) < k := (Nat.log2_lt (by omega)).mpr (by omega)
    omega

-- A block is at least as large as what was asked for, and there is one up to the largest order.
theorem heap_alloc_enough {size block : Nat} (positive : 0 < size) (word : size < 2 ^ 64) (allocated : heapAlloc size = .ok block) : size ≤ block := by
  rw [heapAlloc, if_neg (Nat.ne_of_gt positive)] at allocated
  by_cases large : size > Family.largest .other
  · rw [if_pos large] at allocated
    obtain ⟨_, asserted, same⟩ := (bind_eq_ok _ _ _).mp allocated
    rw [← Except.ok.inj same]
    exact Heap.pages_fit positive word (assert_ok asserted)
  · rw [if_neg large] at allocated
    obtain ⟨id, found, enough⟩ := Heap.find_cache_some positive (Nat.le_of_not_lt large)
    rw [found] at allocated
    exact Except.ok.inj allocated ▸ enough

theorem heap_alloc_iff {size : Nat} (positive : 0 < size) (word : size < 2 ^ 64) :
    (∃ block, heapAlloc size = .ok block) ↔ size ≤ orderBytes pmmMaxOrder := by
  have largest : Family.largest .other ≤ orderBytes pmmMaxOrder := by decide
  rw [heapAlloc, if_neg (Nat.ne_of_gt positive)]
  by_cases large : size > Family.largest .other
  · rw [if_pos large]
    constructor
    · rintro ⟨block, allocated⟩
      obtain ⟨_, asserted, _⟩ := (bind_eq_ok _ _ _).mp allocated
      have allowed := assert_ok asserted
      exact (Heap.pages_fit positive word allowed).trans (Nat.mul_le_mul_right _ (Nat.pow_le_pow_right (by decide) allowed))
    · intro fits
      have limit : orderBytes pmmMaxOrder = 2 ^ pmmMaxOrder * pageGranularity := rfl
      have pages := Heap.div_ceil_eq (show 0 < pageGranularity by decide) (show size + pageGranularity < 2 ^ 64 by
        have high : orderBytes pmmMaxOrder + pageGranularity < 2 ^ 64 := by decide
        omega)
      have allowed : pagecountToOrder (divCeil size pageGranularity) ≤ pmmMaxOrder := by
        refine cache_order_le ?_ ?_ (by decide)
        · rw [pages]
          exact Nat.div_pos (by omega) (by decide)
        · rw [pages]
          refine Nat.le_of_lt_succ ((Nat.div_lt_iff_lt_mul (by decide)).mpr ?_)
          rw [Nat.succ_mul, ← limit]
          unfold pageGranularity
          omega
      rw [assertThat, if_pos (decide_eq_true allowed), bind_ok]
      exact ⟨_, rfl⟩
  · rw [if_neg large]
    obtain ⟨id, found, _⟩ := Heap.find_cache_some positive (Nat.le_of_not_lt large)
    rw [found]
    exact iff_of_true ⟨_, rfl⟩ (by omega)

theorem rw_enough {file : VfsNode} {offset size buffer : Nat} (enough : size ≤ buffer) : rw file offset size buffer = .ok (file.read offset size) :=
  if_neg (Nat.not_lt.mpr enough)

end Blocks

section Reading

variable {file : VfsNode} {elf : ElfFile}

theorem check_eq {α : Type} {failing : Prop} [Decidable failing] {early late : α} {rest : Except Fault α} (same : rest = .ok late) :
    (if failing then .ok early else rest) = .ok (if failing then early else late) := by
  rw [same]
  split <;> rfl

-- Its blocks are large enough, so that elf_read always returns.
theorem elf_read_eq (file : VfsNode) : elfRead file = .ok (Elf.elfRead file) := by
  obtain ⟨header, headerBlock⟩ := (heap_alloc_iff (show 0 < fileHeaderSize by decide) (by decide)).mpr (by decide)
  obtain ⟨node, nodeBlock⟩ := (heap_alloc_iff (show 0 < elfFileSize by decide) (by decide)).mpr (by decide)
  have room : fileHeaderSize ≤ header := heap_alloc_enough (by decide) (by decide) headerBlock
  unfold elfRead Elf.elfRead
  refine check_eq ?_
  cases file.attr with
  | error fault => rfl
  | ok size =>
      dsimp only
      refine check_eq ?_
      rw [headerBlock, bind_ok, rw_enough room, bind_ok]
      cases file.read 0 fileHeaderSize with
      | error fault => rfl
      | ok bytes =>
          dsimp only
          -- The checks on the fields of the header.
          iterate 8 refine check_eq ?_
          rw [nodeBlock, bind_ok]

theorem field_bound (bytes : List UInt8) (offset size : Nat) : Elf.field bytes offset size < 2 ^ (8 * size) := by
  induction size generalizing offset with
  | zero => exact Nat.one_pos
  | succ size ih =>
      have byte := (bytes.getD offset 0).toNat_lt
      have rest := ih (offset + 1)
      rw [Elf.field, Nat.mul_succ, Nat.pow_add]
      omega

theorem check_refused {α : Type} {failing : Prop} [Decidable failing] {error : ElfError} {rest : Except ElfError α} {result : α}
    (accepted : (if failing then .error error else rest) = .ok result) : ¬ failing ∧ rest = .ok result := by
  by_cases failed : failing
  · rw [if_pos failed] at accepted
    cases accepted
  · exact ⟨failed, (if_neg failed).symm.trans accepted⟩

-- An accepted table has entries that are large enough for a program header.
theorem elf_read_entries (accepted : Elf.elfRead file = .ok elf) :
    elf.file = file ∧ programHeaderSize ≤ elf.entrySize ∧ elf.entrySize < 2 ^ 16 := by
  unfold Elf.elfRead at accepted
  obtain ⟨_, accepted⟩ := check_refused accepted
  cases attr : file.attr with
  | error fault =>
      rw [attr] at accepted
      cases accepted
  | ok size =>
      rw [attr] at accepted
      obtain ⟨_, accepted⟩ := check_refused accepted
      cases read : file.read 0 fileHeaderSize with
      | error fault =>
          rw [read] at accepted
          cases accepted
      | ok bytes =>
          rw [read] at accepted
          dsimp only at accepted
          iterate 7 replace accepted := (check_refused accepted).2
          obtain ⟨entries, accepted⟩ := check_refused accepted
          rw [not_or] at entries
          rw [← Except.ok.inj accepted]
          exact ⟨rfl, Nat.le_of_not_lt entries.2, field_bound bytes 54 2⟩

theorem entry_block (accepted : Elf.elfRead file = .ok elf) : ∃ block, heapAlloc elf.entrySize = .ok block ∧ programHeaderSize ≤ block := by
  obtain ⟨_, entries, word⟩ := elf_read_entries accepted
  have header : 0 < programHeaderSize := by decide
  have limit : 2 ^ 16 ≤ orderBytes pmmMaxOrder := by decide
  obtain ⟨block, allocated⟩ := (heap_alloc_iff (show 0 < elf.entrySize by omega) (by omega)).mpr (by omega)
  exact ⟨block, allocated, entries.trans (heap_alloc_enough (by omega) (by omega) allocated)⟩

theorem read_phdr_eq {block : Nat} (enough : programHeaderSize ≤ block) (index : Nat) : readPhdr elf block index = .ok (Elf.readPhdr elf index) := by
  rw [readPhdr, rw_enough enough, bind_ok, Elf.readPhdr]
  cases elf.file.read (add64 elf.offset (index * elf.entrySize)) programHeaderSize with
  | error fault => rfl
  | ok bytes => rfl

theorem read_phdr_word {index : Nat} {phdr : ProgramHeader} (read : Elf.readPhdr elf index = some phdr) : phdr.filesz < 2 ^ 64 := by
  unfold Elf.readPhdr at read
  cases gave : elf.file.read (add64 elf.offset (index * elf.entrySize)) programHeaderSize with
  | error fault =>
      rw [gave] at read
      cases read
  | ok bytes =>
      rw [gave] at read
      dsimp only at read
      split at read
      · cases read
      · rw [← Option.some.inj read]
        exact field_bound bytes 32 8

end Reading

section Lookups

variable {file : VfsNode} {elf : ElfFile}

-- The segment that elf_lookup_interpreter reads.
def interpreterSegment (elf : ElfFile) : Nat → Nat → Option ProgramHeader
  | 0, _ => none
  | left + 1, i =>
      match Elf.readPhdr elf i with
      | none => none
      | some phdr => if phdr.type ≠ ptInterp then interpreterSegment elf left (i + 1) else some phdr

-- With the zero at its end it is no larger than the largest block.
def InterpreterFits (elf : ElfFile) : Prop :=
  ∀ phdr, interpreterSegment elf elf.count 0 = some phdr → phdr.filesz + 1 ≤ orderBytes pmmMaxOrder

theorem interpreter_from_iff {block : Nat} (enough : programHeaderSize ≤ block) (left i : Nat) :
    (∃ result, interpreterFrom elf block left i = .ok result) ↔
      ∀ phdr, interpreterSegment elf left i = some phdr → phdr.filesz + 1 ≤ orderBytes pmmMaxOrder := by
  induction left generalizing i with
  | zero => exact iff_of_true ⟨_, rfl⟩ fun phdr missing => by cases missing
  | succ left ih =>
      rw [interpreterFrom, read_phdr_eq enough, bind_ok, interpreterSegment]
      cases read : Elf.readPhdr elf i with
      | none => exact iff_of_true ⟨_, rfl⟩ fun phdr missing => by cases missing
      | some phdr =>
          dsimp only
          by_cases other : phdr.type ≠ ptInterp
          · rw [if_pos other, if_pos other]
            exact ih (i + 1)
          · rw [if_neg other, if_neg other]
            have word := read_phdr_word read
            have limit : orderBytes pmmMaxOrder < 2 ^ 64 := by decide
            simp only [Option.some.injEq, forall_eq']
            constructor
            · rintro ⟨result, ran⟩
              obtain ⟨interp, allocated, ran⟩ := (bind_eq_ok _ _ _).mp ran
              by_cases last : phdr.filesz + 1 < 2 ^ 64
              · rw [add64_eq last] at allocated
                exact (heap_alloc_iff (Nat.succ_pos _) last).mp ⟨interp, allocated⟩
              · -- The size wraps to 0, and there is no buffer.
                have zero : add64 phdr.filesz 1 = 0 := by
                  unfold add64
                  omega
                rw [zero] at allocated
                obtain rfl : 0 = interp := Except.ok.inj allocated
                rw [rw, if_pos (by omega)] at ran
                cases ran
            · intro fits
              rw [add64_eq (by omega)]
              obtain ⟨interp, allocated⟩ := (heap_alloc_iff (Nat.succ_pos phdr.filesz) (by omega)).mpr fits
              have room := heap_alloc_enough (Nat.succ_pos phdr.filesz) (by omega) allocated
              rw [allocated, bind_ok, rw_enough (Nat.le_of_succ_le room), bind_ok]
              cases elf.file.read phdr.offset phdr.filesz with
              | error fault => exact ⟨_, rfl⟩
              | ok bytes => exact ⟨_, (apply_ite _ _ _ _).symm⟩

theorem lookup_interpreter_iff (accepted : Elf.elfRead file = .ok elf) : (∃ result, elfLookupInterpreter elf = .ok result) ↔ InterpreterFits elf := by
  obtain ⟨block, allocated, enough⟩ := entry_block accepted
  rw [elfLookupInterpreter, allocated, bind_ok]
  exact interpreter_from_iff enough elf.count 0

theorem phdr_address_returns {block : Nat} (enough : programHeaderSize ≤ block) (left i : Nat) :
    ∃ result, phdrAddressFrom elf block left i = .ok result := by
  induction left generalizing i with
  | zero => exact ⟨_, rfl⟩
  | succ left ih =>
      rw [phdrAddressFrom, read_phdr_eq enough, bind_ok]
      cases Elf.readPhdr elf i with
      | none => exact ⟨_, rfl⟩
      | some phdr =>
          dsimp only
          split
          · exact ih (i + 1)
          · exact ⟨_, rfl⟩

theorem lookup_phdr_address_returns (accepted : Elf.elfRead file = .ok elf) : ∃ result, elfLookupPhdrAddress elf = .ok result := by
  obtain ⟨block, allocated, enough⟩ := entry_block accepted
  rw [elfLookupPhdrAddress, allocated, bind_ok]
  exact phdr_address_returns enough elf.count 0

end Lookups

end Elysium.ElfBuffers
