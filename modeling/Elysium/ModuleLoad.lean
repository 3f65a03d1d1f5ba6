import Elysium.ElfFrees
import Elysium.Relocation

set_option autoImplicit false

namespace Elysium.ModuleLoad

open Cleanup
open HeapFrees
open Elf (VfsNode field mathCeil elf64IdValidate fileHeaderSize)
open ElfBuffers (rw)
open UserSpace (Machine follow kernelStore unhandledException)
open Vm (Protection)

-- module_result_t, less MODULE_RESULT_OK.
inductive ModuleError where
  | fs
  | vm
  | noKernelSymbols
  | notModule
  | invalidType
  | invalidClass
  | invalidEncoding
  | invalidMachine
  | invalidRelocation
  | missingSymtab
  | unresolvedSymbol
  | unsupported
deriving DecidableEq, Repr

-- elf64_file_header_t, as far as module_load reads it.
structure FileHeader where
  magic : List Nat
  identClass : Nat
  encoding : Nat
  type : Nat
  machine : Nat
  version : Nat
  shoff : Nat
  shentsize : Nat
  shnum : Nat
  shstrndx : Nat
deriving DecidableEq, Repr

def FileHeader.parse (bytes : List UInt8) : FileHeader where
  magic := [field bytes 0 1, field bytes 1 1, field bytes 2 1, field bytes 3 1]
  identClass := field bytes 4 1
  encoding := field bytes 5 1
  type := field bytes 16 2
  machine := field bytes 18 2
  version := field bytes 20 4
  shoff := field bytes 40 8
  shentsize := field bytes 58 2
  shnum := field bytes 60 2
  shstrndx := field bytes 62 2

-- elf64_section_header_t, as far as it is read. The name is for the log only.
structure SectionHeader where
  type : Nat
  flags : Nat
  offset : Nat
  size : Nat
  link : Nat
  info : Nat
  entsize : Nat
deriving DecidableEq, Repr

def sectionHeaderSize : Nat := 64

def SectionHeader.parse (bytes : List UInt8) : SectionHeader where
  type := field bytes 4 4
  flags := field bytes 8 8
  offset := field bytes 24 8
  size := field bytes 32 8
  link := field bytes 40 4
  info := field bytes 44 4
  entsize := field bytes 56 8

-- elf64_symbol_t, as far as it is read.
structure Symbol where
  name : Nat
  shndx : Nat
  value : Nat
deriving DecidableEq, Repr

def etRel : Nat := 1
def shnUndef : Nat := 0
def shnAbs : Nat := 0xFFF1
def shnCommon : Nat := 0xFFF2
def shtProgbits : Nat := 1
def shtSymtab : Nat := 2
def shtRela : Nat := 4
def shtRel : Nat := 9
def shfWrite : Nat := 1 <<< 0
def shfAlloc : Nat := 1 <<< 1
def shfExecinstr : Nat := 1 <<< 2

-- An entry of the kernel's symbols, with its name.
structure KernelSymbol where
  name : List UInt8
  isGlobal : Bool
  address : Nat
deriving DecidableEq, Repr

-- buffer_t, with its block. The data is kept apart.
structure Buffer where
  block : Block
  size : Nat

structure ModuleRegion where
  block : Block
  base : Nat
  size : Nat
  prot : Protection

-- module_t, with its block. The regions are in the order of the list.
structure Module where
  block : Block
  moduleInitialize : Nat
  moduleUninitialize : Nat
  moduleRegions : List ModuleRegion

def moduleSize : Nat := 40
def moduleRegionSize : Nat := 40
def bufferHeaderSize : Nat := 8

section Buffers

-- A write to the start of a block.
def writeStart (block : Block) (size : Nat) : Except Fault Unit := if block.bytes < size then .error .undefined else .ok ()

-- The size is written to the block.
def bufferAlloc (size : Nat) : Run Buffer := do
  assertThat (size > 0)
  let block ← heapAlloc (add64 bufferHeaderSize size)
  writeStart block bufferHeaderSize
  pure ⟨block, size⟩

def bufferFree (buffer : Buffer) : Run Unit := heapFree buffer.block (add64 bufferHeaderSize buffer.size)

def bufferCleanup : Option Buffer → Run Unit
  | none => pure ()
  | some buffer => bufferFree buffer

-- none stands for the result true, which says that it failed. The buffer is there then too.
def readSection (file : VfsNode) (shdr : SectionHeader) : Run (Buffer × Option (List UInt8)) := do
  let buffer ← bufferAlloc shdr.size
  match ← rw file shdr.offset shdr.size (buffer.block.bytes - bufferHeaderSize) with
  | .error _ => pure (buffer, none)
  | .ok data => pure (buffer, if data.length ≠ shdr.size then none else some data)

end Buffers

section Accesses

-- What lies past the end of a table or a buffer is not looked at.
def entryAt {α : Type} (table : List α) (index : Nat) : Except Fault α :=
  match table[index]? with
  | none => .error .undefined
  | some entry => .ok entry

def symbolAt (symbols : List UInt8) (offset : Nat) : Except Fault Symbol :=
  if symbols.length < offset + 16 then .error .undefined
  else .ok ⟨field symbols offset 4, field symbols (offset + 6) 2, field symbols (offset + 8) 8⟩

def relaAt (relas : List UInt8) (offset : Nat) : Except Fault Relocation.Rela :=
  if relas.length < offset + 24 then .error .undefined
  else .ok ⟨BitVec.ofNat 64 (field relas offset 8), BitVec.ofNat 64 (field relas (offset + 8) 8), BitVec.ofNat 64 (field relas (offset + 16) 8)⟩

def putField (bytes : List UInt8) (offset value : Nat) : Nat → List UInt8
  | 0 => bytes
  | size + 1 => putField (bytes.set offset (UInt8.ofNat value)) (offset + 1) (value / 256) size

-- symbol->value = value.
def setValue (symbols : List UInt8) (offset value : Nat) : List UInt8 := putField symbols (offset + 8) value 8

-- Stops at the first difference.
def stringEq (bytes : List UInt8) : (offset : Nat) → List UInt8 → Except Fault Bool
  | offset, [] => do
      let byte ← entryAt bytes offset
      .ok (byte = 0)
  | offset, char :: rest => do
      let byte ← entryAt bytes offset
      if byte ≠ char then .ok false else stringEq bytes (offset + 1) rest

-- The number of entries. A division by zero is an exception.
def entries (shdr : SectionHeader) : Except Fault Nat := if shdr.entsize = 0 then .error unhandledException else .ok (shdr.size / shdr.entsize)

def entryOffset (shdr : SectionHeader) (index : Nat) : Nat := shdr.entsize * index % 2 ^ 64

end Accesses

section Relocations

-- mem_compare with zeroes, through the mappings of the kernel.
def isZeroAt (m : Machine) : (address size : Nat) → Except Fault Bool
  | _, 0 => .ok true
  | address, size + 1 =>
      match UserRequests.translate .global address m.vm.ptm with
      | none => .error unhandledException
      | some phys => if m.vm.pmm.memory phys ≠ 0 then .ok false else isZeroAt m (add64 address 1) size

-- What is stored at the target, and in how many bytes. none where the type is refused or the value overflows.
def relocationValue (rela : Relocation.Rela) (symbolValue address : BitVec 64) : Option (BitVec 64 × Nat) :=
  let value := symbolValue + rela.addend
  match Relocation.relocationType rela.info with
  | some .none => some (value, 0)
  | some .abs64 => some (value, 8)
  | some .abs32 => if value ≠ (value.setWidth 32).setWidth 64 then none else some (value, 4)
  | some .abs32S => if value ≠ (value.setWidth 32).signExtend 64 then none else some (value, 4)
  | some .plt32 | some .pc32 => some (value - address, 4)
  | some .pc64 => some (value - address, 8)
  | none => none

def archElfDoRelocationAddend (rela : Relocation.Rela) (symbolValue sectionAddress : Nat) (m : Machine) : Except Fault (Machine × Bool) :=
  let address := BitVec.ofNat 64 sectionAddress + rela.offset
  match relocationValue rela (BitVec.ofNat 64 symbolValue) address with
  | none => .ok (m, false)
  | some (value, size) => do
      if ← isZeroAt m address.toNat size then do
        let m ← kernelStore address.toNat ((List.range size).map fun i => UInt8.ofBitVec (LittleEndian.byteOf value i)) m
        .ok (m, true)
      else .ok (m, false)

end Relocations

section Load

variable (id top : Nat) (kernel : Option (List KernelSymbol)) (stale : SectionHeader) (file : VfsNode)

def kernelSymbolsIsLoaded : Bool := kernel.isSome

-- The loop over the kernel's symbols. The name starts at an offset of the module's strings.
def lookupFrom (strtab : List UInt8) (name : Nat) : List KernelSymbol → Except Fault (Option KernelSymbol)
  | [] => .ok none
  | ksymbol :: rest =>
      if ¬ ksymbol.isGlobal then lookupFrom strtab name rest
      else do
        if ← stringEq strtab name ksymbol.name then .ok (some ksymbol) else lookupFrom strtab name rest

def kernelSymbolLookupByName (strtab : List UInt8) (name : Nat) : Except Fault (Option KernelSymbol) :=
  match kernel with
  | none => .ok none
  | some table => lookupFrom strtab name table

-- The rounds that are left, the index, and the section headers before it. none where one could not be read.
def readHeaders (shdrs : Block) (shoff shentsize : Nat) : Nat → Nat → List SectionHeader → Except Fault (Option (List SectionHeader))
  | 0, _, before => .ok (some before)
  | left + 1, i, before => do
      match ← rw file (add64 shoff (i * shentsize)) sectionHeaderSize (shdrs.bytes - i * sectionHeaderSize) with
      | .error _ => .ok none
      | .ok bytes =>
          if bytes.length ≠ sectionHeaderSize then .ok none
          else readHeaders shdrs shoff shentsize left (i + 1) (before ++ [SectionHeader.parse bytes])

-- What the loop over the sections works on.
structure Loading where
  machine : Machine
  moduleRegions : List ModuleRegion
  sectionAddresses : List Nat
  symtabIndex : Nat

def loadSection (shdr : SectionHeader) (i : Nat) (l : Loading) : Run (Loading × Except ModuleError Unit) :=
  if shdr.type = shtProgbits then
    if shdr.size = 0 then pure (l, .ok ())
    else do
      let alignedSize := mathCeil shdr.size pageGranularity
      let (vm, addr) ← Vm.vmMapAnon .global Vm.nullptr alignedSize Vm.protRW .standard 0 l.machine.vm
      let m ← follow id top l.machine vm
      if addr = Vm.nullptr then pure ({ l with machine := m }, .error .vm)
      else do
        let block ← heapAlloc moduleRegionSize
        let region := ⟨block, addr, alignedSize, true, shdr.flags &&& shfWrite ≠ 0, shdr.flags &&& shfExecinstr ≠ 0⟩
        let l := { l with machine := m, moduleRegions := region :: l.moduleRegions }
        match file.read shdr.offset shdr.size with
        | .error _ => pure (l, .error .fs)
        | .ok bytes => do
            let m ← kernelStore addr bytes m
            if bytes.length ≠ shdr.size then pure ({ l with machine := m }, .error .fs)
            else pure ({ l with machine := m, sectionAddresses := l.sectionAddresses.set i addr }, .ok ())
  else if shdr.type = shtSymtab then pure ({ l with symtabIndex := i }, .ok ())
  else if shdr.type = shtRel then pure (l, .error .unsupported)
  else pure (l, .ok ())

def loadSections (shdrs : List SectionHeader) : Nat → Nat → Loading → Run (Loading × Except ModuleError Unit)
  | 0, _, l => pure (l, .ok ())
  | left + 1, i, l => do
      let shdr ← liftM (entryAt shdrs i)
      match ← loadSection id top file shdr i l with
      | (l, .error error) => pure (l, .error error)
      | (l, .ok ()) => loadSections shdrs left (i + 1) l

def resolveSymbol (sectionAddresses : List Nat) (strtab : List UInt8) (offset : Nat) (symbols : List UInt8) :
    Except Fault (Except ModuleError (List UInt8)) := do
  let symbol ← symbolAt symbols offset
  if symbol.shndx = shnUndef then
    match ← kernelSymbolLookupByName kernel strtab symbol.name with
    | none => .ok (.error .unresolvedSymbol)
    | some kernelSymbol => .ok (.ok (setValue symbols offset kernelSymbol.address))
  else if symbol.shndx = shnAbs ∨ symbol.shndx = shnCommon then .ok (.ok symbols)
  else do
    let sectionLoadAddr ← entryAt sectionAddresses symbol.shndx
    assertThat (sectionLoadAddr ≠ 0)
    .ok (.ok (setValue symbols offset (add64 symbol.value sectionLoadAddr)))

def resolveSymbols (symtab : SectionHeader) (sectionAddresses : List Nat) (strtab : List UInt8) :
    Nat → Nat → List UInt8 → Except Fault (Except ModuleError (List UInt8))
  | 0, _, symbols => .ok (.ok symbols)
  | left + 1, i, symbols => do
      match ← resolveSymbol kernel sectionAddresses strtab (entryOffset symtab i) symbols with
      | .error error => .ok (.error error)
      | .ok symbols => resolveSymbols symtab sectionAddresses strtab left (i + 1) symbols

def relocateEntries (shdr symtab : SectionHeader) (sectionAddresses : List Nat) (symbols relas : List UInt8) :
    Nat → Nat → Machine → Except Fault (Machine × Bool)
  | 0, _, m => .ok (m, true)
  | left + 1, j, m => do
      let rela ← relaAt relas (entryOffset shdr j)
      let sectionAddress ← entryAt sectionAddresses shdr.info
      assertThat (sectionAddress ≠ 0)
      let symbol ← symbolAt symbols (entryOffset symtab (rela.info.toNat >>> 32))
      match ← archElfDoRelocationAddend rela symbol.value sectionAddress m with
      | (m, false) => .ok (m, false)
      | (m, true) => relocateEntries shdr symtab sectionAddresses symbols relas left (j + 1) m

-- Sections that are not allocated are passed over, and those whose symbols are not the module's.
def relocateSection (shdrs : List SectionHeader) (shdr symtab : SectionHeader) (symtabIndex : Nat) (sectionAddresses : List Nat)
    (symbols : List UInt8) (m : Machine) : Run (Machine × Except ModuleError Unit) :=
  if shdr.type ≠ shtRela then pure (m, .ok ())
  else do
    let target ← liftM (entryAt shdrs shdr.info)
    if target.flags &&& shfAlloc = 0 then pure (m, .ok ())
    else if symtabIndex ≠ shdr.link then pure (m, .ok ())
    else do
      let (relaBuffer, read) ← readSection file shdr
      onLeaving (match read with
        | none => pure (m, .error .fs)
        | some relas => do
            let count ← entries shdr
            match ← relocateEntries shdr symtab sectionAddresses symbols relas count 0 m with
            | (m, false) => pure (m, .error .invalidRelocation)
            | (m, true) => pure (m, .ok ())) fun _ => bufferCleanup (some relaBuffer)

def relocateSections (shdrs : List SectionHeader) (symtab : SectionHeader) (symtabIndex : Nat) (sectionAddresses : List Nat)
    (symbols : List UInt8) : Nat → Nat → Machine → Run (Machine × Except ModuleError Unit)
  | 0, _, m => pure (m, .ok ())
  | left + 1, i, m => do
      let shdr ← liftM (entryAt shdrs i)
      match ← relocateSection file shdrs shdr symtab symtabIndex sectionAddresses symbols m with
      | (m, .error error) => pure (m, .error error)
      | (m, .ok ()) => relocateSections shdrs symtab symtabIndex sectionAddresses symbols left (i + 1) m

def rewriteRegions : List ModuleRegion → Machine → Except Fault Machine
  | [], m => .ok m
  | region :: rest, m => do
      let vm ← Vm.vmRewriteProt .global region.base region.size region.prot m.vm
      let m ← follow id top m vm
      rewriteRegions rest m

-- The last symbol of each of the two names.
def findEntryPoints (symtab : SectionHeader) (strtab symbols : List UInt8) : Nat → Nat → Nat × Nat → Except Fault (Nat × Nat)
  | 0, _, found => .ok found
  | left + 1, j, found => do
      let symbol ← symbolAt symbols (entryOffset symtab j)
      let isInitialize ← stringEq strtab symbol.name "__module_initialize".toUTF8.toList
      let isUninitialize ← stringEq strtab symbol.name "__module_uninitialize".toUTF8.toList
      findEntryPoints symtab strtab symbols left (j + 1)
        (if isInitialize then symbol.value else found.1, if isUninitialize then symbol.value else found.2)

-- What is done once the symbols were read.
def linkModule (shdrs : List SectionHeader) (symtab : SectionHeader) (strtab symbols : List UInt8) (l : Loading) :
    Run (Machine × Except ModuleError (Nat × Nat)) := do
  let count ← entries symtab
  match ← resolveSymbols kernel symtab l.sectionAddresses strtab (count - 1) 1 symbols with
  | .error error => pure (l.machine, .error error)
  | .ok symbols =>
      match ← relocateSections file shdrs symtab l.symtabIndex l.sectionAddresses symbols (shdrs.length - 1) 1 l.machine with
      | (m, .error error) => pure (m, .error error)
      | (m, .ok ()) => do
          let m ← rewriteRegions id top l.moduleRegions m
          let found ← findEntryPoints symtab strtab symbols (count - 1) 1 (Vm.nullptr, Vm.nullptr)
          pure (m, .ok found)

-- The buffer of the strings is read first and freed first.
def linkSymbols (shdrs : List SectionHeader) (l : Loading) : Run (Machine × Except ModuleError (Nat × Nat)) :=
  if l.symtabIndex = shnUndef then pure (l.machine, .error .missingSymtab)
  else do
    let symtab ← liftM (entryAt shdrs l.symtabIndex)
    let linked ← liftM (entryAt shdrs symtab.link)
    let (symbolStrtab, read) ← readSection file linked
    match read with
    | none => onLeaving (pure (l.machine, .error .fs)) fun _ => bufferCleanup (some symbolStrtab)
    | some strtab => do
        let (symbols, read) ← readSection file symtab
        onLeaving (onLeaving (match read with
          | none => pure (l.machine, .error .fs)
          | some data => linkModule id top kernel file shdrs symtab strtab data l) fun _ => bufferCleanup (some symbolStrtab)) fun _ =>
            bufferCleanup (some symbols)

-- From the head of the list on, and then the module itself.
def autoFreeModule (block : Block) : List ModuleRegion → Machine → Run Machine
  | [], m => do
      heapFree block moduleSize
      pure m
  | region :: rest, m => do
      let vm ← Vm.vmUnmap .global region.base region.size m.vm
      let m ← follow id top m vm
      heapFree region.block moduleRegionSize
      autoFreeModule block rest m

-- The module that is built is given back where there is an error.
def buildModule (shdrs : List SectionHeader) (m : Machine) : Run (Machine × Except ModuleError Module) := do
  let block ← heapAlloc moduleSize
  match ← loadSections id top file shdrs (shdrs.length - 1) 1 ⟨m, [], List.replicate shdrs.length 0, shnUndef⟩ with
  | (l, .error error) => do
      let m ← autoFreeModule id top block l.moduleRegions l.machine
      pure (m, .error error)
  | (l, .ok ()) =>
      match ← linkSymbols id top kernel file shdrs l with
      | (m, .error error) => do
          let m ← autoFreeModule id top block l.moduleRegions m
          pure (m, .error error)
      | (m, .ok (moduleInitialize, moduleUninitialize)) => pure (m, .ok ⟨block, moduleInitialize, moduleUninitialize, l.moduleRegions⟩)

def readNames (shdrs : List SectionHeader) (shstrndx : Nat) : Run (Option Buffer × Bool) :=
  if shstrndx ≠ shnUndef then do
    let shdr ← liftM (entryAt shdrs shstrndx)
    let (buffer, read) ← readSection file shdr
    pure (some buffer, read.isNone)
  else pure (none, false)

def withHeaders (shdrs : List SectionHeader) (shstrndx : Nat) (m : Machine) : Run (Machine × Except ModuleError Module) := do
  let (sectionStrtab, failed) ← readNames file shdrs shstrndx
  onLeaving (if failed then pure (m, .error .fs) else do
    let sectionAddresses ← bufferAlloc (pointerSize * shdrs.length)
    onLeaving (buildModule id top kernel file shdrs m) fun _ => bufferCleanup (some sectionAddresses)) fun _ => bufferCleanup sectionStrtab

def autoFreeShdr (shdrs : Block) : Run Unit := autoFree shdrs

-- The entry at 0 is not read, and holds what was in the block before.
def withFile (block : Block) (m : Machine) : Run (Machine × Except ModuleError Module) := do
  match ← rw file 0 fileHeaderSize block.bytes with
  | .error _ => pure (m, .error .fs)
  | .ok bytes =>
      let header := FileHeader.parse bytes
      if bytes.length ≠ fileHeaderSize then pure (m, .error .notModule)
      else if ¬ elf64IdValidate header.magic then pure (m, .error .notModule)
      else if header.identClass ≠ Elf.class64 then pure (m, .error .invalidClass)
      else if header.encoding ≠ Elf.data2Lsb then pure (m, .error .invalidEncoding)
      else if header.machine ≠ Elf.machineX8664 then pure (m, .error .invalidMachine)
      else if header.type ≠ etRel then pure (m, .error .invalidType)
      else if header.version > 1 then pure (m, .error .unsupported)
      else if header.shnum = 0 ∨ header.shentsize < sectionHeaderSize then pure (m, .error .unsupported)
      else do
        let shdrs ← heapAlloc (sectionHeaderSize * header.shnum)
        onLeaving (do
          match ← readHeaders file shdrs header.shoff header.shentsize (header.shnum - 1) 1 [stale] with
          | none => pure (m, .error .fs)
          | some headers => withHeaders id top kernel file headers header.shstrndx m) fun _ => autoFreeShdr shdrs

def moduleLoad (m : Machine) : Run (Machine × Except ModuleError Module) :=
  if ¬ kernelSymbolsIsLoaded kernel then pure (m, .error .noKernelSymbols)
  else do
    let header ← heapAlloc fileHeaderSize
    onLeaving (withFile id top kernel stale file header m) fun _ => autoFreeHeader header

end Load

end Elysium.ModuleLoad
