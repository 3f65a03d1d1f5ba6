import Elysium.KernelBuffer
import Elysium.Vfs

set_option autoImplicit false

namespace Elysium.Elf

open Fs (VfsNodeType VfsError)
open UserSpace (Machine paging follow kernelStore kernelLoad)
open Vm (Protection)

-- elf_result_t, less ELF_RESULT_OK.
inductive ElfError where
  | fs
  | notElf
  | malformed
  | unsupported
  | invalidType
  | invalidClass
  | invalidEndian
  | invalidMachine
  | notFound
deriving DecidableEq, Repr

-- A node of a file system, with the calls made on it here. A read gives the bytes that were put into the
-- buffer, and with their number the read count.
structure VfsNode where
  type : VfsNodeType
  attr : Except VfsError Nat
  read : (offset size : Nat) → Except VfsError (List UInt8)

-- A field of a packed structure.
def field (bytes : List UInt8) : (offset size : Nat) → Nat
  | _, 0 => 0
  | offset, size + 1 => (bytes.getD offset 0).toNat + 256 * field bytes (offset + 1) size

def class64 : Nat := 2
def data2Lsb : Nat := 1
def etExec : Nat := 2
def machineX8664 : Nat := 0x3E
def ptLoad : Nat := 1
def pfX : Nat := 1 <<< 0
def pfW : Nat := 1 <<< 1

-- elf64_file_header_t, as far as it is read.
structure FileHeader where
  magic : List Nat
  identClass : Nat
  encoding : Nat
  type : Nat
  machine : Nat
  version : Nat
  entry : Nat
  phoff : Nat
  phentsize : Nat
  phnum : Nat
deriving DecidableEq, Repr

def fileHeaderSize : Nat := 64

def FileHeader.parse (bytes : List UInt8) : FileHeader where
  magic := [field bytes 0 1, field bytes 1 1, field bytes 2 1, field bytes 3 1]
  identClass := field bytes 4 1
  encoding := field bytes 5 1
  type := field bytes 16 2
  machine := field bytes 18 2
  version := field bytes 20 4
  entry := field bytes 24 8
  phoff := field bytes 32 8
  phentsize := field bytes 54 2
  phnum := field bytes 56 2

-- elf64_program_header_t, as far as it is read.
structure ProgramHeader where
  type : Nat
  flags : Nat
  offset : Nat
  vaddr : Nat
  filesz : Nat
  memsz : Nat
deriving DecidableEq, Repr

def programHeaderSize : Nat := 56

def ProgramHeader.parse (bytes : List UInt8) : ProgramHeader where
  type := field bytes 0 4
  flags := field bytes 4 4
  offset := field bytes 8 8
  vaddr := field bytes 16 8
  filesz := field bytes 32 8
  memsz := field bytes 40 8

-- elf_file_t.
structure ElfFile where
  file : VfsNode
  entry : Nat
  entrySize : Nat
  offset : Nat
  count : Nat

def elf64IdValidate (magic : List Nat) : Bool := magic = [0x7F, 0x45, 0x4C, 0x46]

-- The headers are read to blocks of the heap, which are not part of this.
def elfRead (file : VfsNode) : Except ElfError ElfFile :=
  if file.type ≠ .file then .error .notElf
  else
    match file.attr with
    | .error _ => .error .fs
    | .ok size =>
        if size < fileHeaderSize then .error .notElf
        else
          match file.read 0 fileHeaderSize with
          | .error _ => .error .fs
          | .ok bytes =>
              let header := FileHeader.parse bytes
              if bytes.length ≠ fileHeaderSize then .error .fs
              else if ¬ elf64IdValidate header.magic then .error .notElf
              else if header.identClass ≠ class64 then .error .invalidClass
              else if header.encoding ≠ data2Lsb then .error .invalidEndian
              else if header.version > 1 then .error .unsupported
              else if header.type ≠ etExec then .error .invalidType
              else if header.machine ≠ machineX8664 then .error .invalidMachine
              else if header.phnum = 0 ∨ header.phentsize < programHeaderSize then .error .unsupported
              else .ok ⟨file, header.entry, header.phentsize, header.phoff, header.phnum⟩

-- none stands for the result true, which says that it failed.
def readPhdr (elf : ElfFile) (index : Nat) : Option ProgramHeader :=
  match elf.file.read (add64 elf.offset (index * elf.entrySize)) programHeaderSize with
  | .error _ => none
  | .ok bytes => if bytes.length ≠ programHeaderSize then none else some (ProgramHeader.parse bytes)

def mathFloor (value precision : Nat) : Nat := value / precision * precision

def mathCeil (value precision : Nat) : Nat := sub64 (add64 value precision) 1 / precision * precision

def loadFlags : Nat := Vm.flagFixed ||| Vm.flagZero ||| Vm.flagDynamicallyBacked

def segmentProt (phdr : ProgramHeader) : Protection := ⟨true, phdr.flags &&& pfW ≠ 0, phdr.flags &&& pfX ≠ 0⟩

section Load

variable (id top : Nat)

def unmapBuffer (buffer bufferSize : Nat) (m : Machine) : Except Fault Machine := do
  let vm ← Vm.vmUnmap .global buffer bufferSize m.vm
  follow id top m vm

-- What elf_load does with the bytes of a segment. vm_copy_to does not write to the frames of the buffer it
-- reads from, so that the buffer is read before.
def copySegment (file : VfsNode) (phdr : ProgramHeader) (m : Machine) : Except Fault (Machine × Except ElfError Unit) := do
  let bufferSize := mathCeil phdr.filesz pageGranularity
  let (vm, buffer) ← Vm.vmMapAnon .global Vm.nullptr bufferSize Vm.protRW .standard 0 m.vm
  let m ← follow id top m vm
  assertThat (buffer ≠ Vm.nullptr)
  match file.read phdr.offset phdr.filesz with
  | .error _ => do
      let m ← unmapBuffer id top buffer bufferSize m
      .ok (m, .error .fs)
  | .ok bytes => do
      let m ← kernelStore buffer bytes m
      if bytes.length ≠ phdr.filesz then do
        let m ← unmapBuffer id top buffer bufferSize m
        .ok (m, .error .fs)
      else do
        let src ← kernelLoad buffer phdr.filesz m
        let (m, count) ← Vm.vmCopyTo (paging id top) phdr.vaddr src phdr.filesz m
        assertThat (count = phdr.filesz)
        let m ← unmapBuffer id top buffer bufferSize m
        .ok (m, .ok ())

-- The case of PT_LOAD.
def loadSegment (file : VfsNode) (phdr : ProgramHeader) (m : Machine) : Except Fault (Machine × Except ElfError Unit) :=
  if phdr.filesz > phdr.memsz then .ok (m, .error .malformed)
  else do
    let alignedVaddr := mathFloor phdr.vaddr pageGranularity
    let length := mathCeil (add64 phdr.memsz (sub64 phdr.vaddr alignedVaddr)) pageGranularity
    let (vm, ptr) ← Vm.vmMapAnon (.process id) alignedVaddr length (segmentProt phdr) .standard loadFlags m.vm
    let m ← follow id top m vm
    assertThat (ptr ≠ Vm.nullptr)
    if phdr.filesz > 0 then copySegment id top file phdr m else .ok (m, .ok ())

-- The loop, with the number of rounds that are left. Other types of segments are passed over.
def loadFrom (elf : ElfFile) : Nat → Nat → Machine → Except Fault (Machine × Except ElfError Unit)
  | 0, _, m => .ok (m, .ok ())
  | left + 1, i, m =>
      match readPhdr elf i with
      | none => .ok (m, .error .fs)
      | some phdr =>
          if phdr.type = ptLoad then do
            let (m, result) ← loadSegment id top elf.file phdr m
            match result with
            | .error error => .ok (m, .error error)
            | .ok () => loadFrom elf left (i + 1) m
          else loadFrom elf left (i + 1) m

def elfLoad (elf : ElfFile) (m : Machine) : Except Fault (Machine × Except ElfError Unit) := loadFrom id top elf elf.count 0 m

end Load

-- A file whose reads give its bytes, as far as they lie inside it.
structure Serves (file : VfsNode) (contents : List UInt8) : Prop where
  attr : file.attr = .ok contents.length
  read : ∀ offset size, offset + size ≤ contents.length → file.read offset size = .ok ((contents.drop offset).take size)
  size : contents.length < 2 ^ 64

-- rdsk_rw and rdsk_attr on a file with these bytes.
def rdskNode (contents : List UInt8) : VfsNode where
  type := .file
  attr := .ok contents.length
  read offset size :=
    if offset ≥ contents.length then .ok []
    else
      let count := contents.length - offset
      let count := if count > size then size else count
      .ok ((contents.drop offset).take count)

theorem rdsk_serves (contents : List UInt8) (size : contents.length < 2 ^ 64) : Serves (rdskNode contents) contents := by
  refine ⟨rfl, fun offset count inside => ?_, size⟩
  unfold rdskNode
  dsimp only
  by_cases past : offset ≥ contents.length
  · rw [if_pos past, List.drop_eq_nil_of_le past, List.take_nil]
  · rw [if_neg past]
    by_cases whole : contents.length - offset > count
    · rw [if_pos whole]
    · rw [if_neg whole, show contents.length - offset = count by omega]

end Elysium.Elf
