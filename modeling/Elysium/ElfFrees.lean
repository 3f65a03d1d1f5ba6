import Elysium.Cleanup
import Elysium.ElfSafety

set_option autoImplicit false

namespace Elysium.HeapFrees

open Cleanup
open Heap (CacheId Family findCache)
open Elf (VfsNode ElfFile ElfError FileHeader ProgramHeader fileHeaderSize programHeaderSize elf64IdValidate)
open ElfBuffers (rw elfFileSize ptInterp ptPhdr readPhdr)
open UserSpace (Machine)

-- A block of the heap: the size given to heap_alloc, and the bytes that are there. The null pointer has neither.
structure Block where
  asked : Nat
  bytes : Nat
deriving DecidableEq, Repr

-- A call of heap_free that finds a block.
structure Freed where
  block : Block
  passed : Nat
deriving DecidableEq, Repr

abbrev Run : Type → Type := Releasing Fault Freed

section Code

def heapAlloc (size : Nat) : Run Block := do
  let bytes ← ElfBuffers.heapAlloc size
  pure ⟨size, bytes⟩

def heapFree (block : Block) (size : Nat) : Run Unit := if block.asked = 0 then pure () else release ⟨block, size⟩

-- Where a block of a size comes from, and where heap_free puts it. none stands for the page allocator.
def home (size : Nat) : Option CacheId := if size > Family.largest .other then none else findCache size

-- sizeof of a pointer.
def pointerSize : Nat := 8

-- The functions that are run on leaving a scope take sizeof of the pointer they are handed.
def autoFree (block : Block) : Run Unit := heapFree block pointerSize

def autoFreeHeader (header : Block) : Run Unit := autoFree header

def autoFreePhdr (phdr : Block) : Run Unit := autoFree phdr

def elfRead (file : VfsNode) : Run (Except ElfError ElfFile) :=
  if file.type ≠ .file then pure (.error .notElf)
  else
    match file.attr with
    | .error _ => pure (.error .fs)
    | .ok size =>
        if size < fileHeaderSize then pure (.error .notElf)
        else do
          let block ← heapAlloc fileHeaderSize
          onLeaving (do
            match ← rw file 0 fileHeaderSize block.bytes with
            | .error _ => pure (.error .fs)
            | .ok bytes =>
                let header := FileHeader.parse bytes
                if bytes.length ≠ fileHeaderSize then pure (.error .fs)
                else if ¬ elf64IdValidate header.magic then pure (.error .notElf)
                else if header.identClass ≠ Elf.class64 then pure (.error .invalidClass)
                else if header.encoding ≠ Elf.data2Lsb then pure (.error .invalidEndian)
                else if header.version > 1 then pure (.error .unsupported)
                else if header.type ≠ Elf.etExec then pure (.error .invalidType)
                else if header.machine ≠ Elf.machineX8664 then pure (.error .invalidMachine)
                else if header.phnum = 0 ∨ header.phentsize < programHeaderSize then pure (.error .unsupported)
                else do
                  let _ ← heapAlloc elfFileSize
                  pure (.ok ⟨file, header.entry, header.phentsize, header.phoff, header.phnum⟩)) fun _ => autoFreeHeader block

def interpreterFrom (elf : ElfFile) (block : Block) : Nat → Nat → Run (Except ElfError (List UInt8))
  | 0, _ => pure (.error .notFound)
  | left + 1, i => do
      match ← readPhdr elf block.bytes i with
      | none => pure (.error .fs)
      | some phdr =>
          if phdr.type ≠ ptInterp then interpreterFrom elf block left (i + 1)
          else do
            let interpreterSize := add64 phdr.filesz 1
            let interp ← heapAlloc interpreterSize
            match ← rw elf.file phdr.offset phdr.filesz interp.bytes with
            | .error _ => do
                heapFree interp interpreterSize
                pure (.error .fs)
            | .ok bytes =>
                if bytes.length ≠ phdr.filesz then do
                  heapFree interp interpreterSize
                  pure (.error .fs)
                else pure (.ok (bytes ++ [0]))

def elfLookupInterpreter (elf : ElfFile) : Run (Except ElfError (List UInt8)) := do
  let phdr ← heapAlloc elf.entrySize
  onLeaving (interpreterFrom elf phdr elf.count 0) fun _ => autoFreePhdr phdr

def elfLookupPhdrAddress (elf : ElfFile) : Run (Except ElfError Nat) := do
  let phdr ← heapAlloc elf.entrySize
  onLeaving (ElfBuffers.phdrAddressFrom elf phdr.bytes elf.count 0) fun _ => autoFreePhdr phdr

def loadWith (id top : Nat) (elf : ElfFile) (block : Nat) (m : Machine) : Except Fault (Machine × Except ElfError Unit) :=
  if block < programHeaderSize then .error .undefined else Elf.elfLoad id top elf m

def elfLoad (id top : Nat) (elf : ElfFile) (m : Machine) : Run (Machine × Except ElfError Unit) := do
  let phdr ← heapAlloc elf.entrySize
  onLeaving (loadWith id top elf phdr.bytes m) fun _ => autoFreePhdr phdr

end Code

section Blocks

variable {size : Nat} {block : Block} {released : List Freed}

theorem heap_alloc_returns : (heapAlloc size).run = .ok (block, released) → block.asked = size ∧ released = [] := by
  intro ran
  obtain ⟨bytes, before, after, allocated, returned, rfl⟩ := bind_returns.mp ran
  obtain ⟨_, rfl⟩ := lift_returns.mp allocated
  obtain ⟨rfl, rfl⟩ := pure_returns.mp returned
  exact ⟨rfl, rfl⟩

@[simp] theorem outcome_heap_alloc : outcome (heapAlloc size) = ElfBuffers.heapAlloc size >>= fun bytes => .ok ⟨size, bytes⟩ := by
  simp [heapAlloc]

@[simp] theorem outcome_heap_free : outcome (heapFree block size) = .ok () := by
  rw [heapFree]
  split <;> rfl

theorem ensures_heap_alloc {P : Freed → Prop} : Ensures P (fun block => block.asked = size) (heapAlloc size) :=
  ensures_step fun _ _ => ensures_pure rfl

theorem ensures_heap_free {P : Freed → Prop} (holds : P ⟨block, size⟩) : Ensures P (fun _ => True) (heapFree block size) :=
  ensures_ite (fun _ => ensures_pure trivial) fun _ => ensures_release holds

theorem outcome_auto_free {α : Type} (scope : Run α) (block : Block) : outcome (onLeaving scope fun _ => autoFree block) = outcome scope :=
  outcome_leaving fun _ => outcome_heap_free

-- A block that is left to a handler is among what was given back.
theorem auto_free_released {α : Type} {scope : Run α} {result : α} (there : block.asked ≠ 0)
    (ran : (onLeaving scope fun _ => autoFree block).run = .ok (result, released)) : ⟨block, pointerSize⟩ ∈ released := by
  obtain ⟨before, after, _, left, rfl⟩ := on_leaving_returns.mp ran
  rw [autoFree, heapFree, if_neg there] at left
  rw [← release_returns.mp left]
  exact List.mem_append_right _ (List.mem_singleton_self _)

end Blocks

section Outcomes

variable {elf : ElfFile}

-- What is given back does not change what the functions return.
theorem elf_read_outcome (file : VfsNode) : outcome (elfRead file) = ElfBuffers.elfRead file := by
  unfold elfRead ElfBuffers.elfRead
  rw [outcome_ite]
  refine congrArg _ ?_
  cases file.attr with
  | error fault => rfl
  | ok size =>
      dsimp only
      rw [outcome_ite]
      refine congrArg _ ?_
      rw [outcome_bind, outcome_heap_alloc, bind_assoc]
      refine bind_congr fun bytes => ?_
      rw [bind_ok]
      refine (outcome_auto_free _ _).trans ?_
      rw [outcome_bind, outcome_lift]
      refine bind_congr fun read => ?_
      cases read with
      | error fault => rfl
      | ok bytes => simp only [outcome_ite, outcome_pure, outcome_bind, outcome_heap_alloc, bind_assoc, bind_ok]

theorem interpreter_from_outcome (block : Block) (left i : Nat) :
    outcome (interpreterFrom elf block left i) = ElfBuffers.interpreterFrom elf block.bytes left i := by
  induction left generalizing i with
  | zero => rfl
  | succ left ih =>
      rw [interpreterFrom, ElfBuffers.interpreterFrom, outcome_bind, outcome_lift]
      refine bind_congr fun read => ?_
      cases read with
      | none => rfl
      | some phdr =>
          dsimp only
          rw [outcome_ite, ih]
          refine congrArg _ ?_
          rw [outcome_bind, outcome_heap_alloc, bind_assoc]
          refine bind_congr fun interp => ?_
          rw [bind_ok, outcome_bind, outcome_lift]
          refine bind_congr fun read => ?_
          cases read with
          | error fault => simp only [outcome_bind, outcome_heap_free, bind_ok, outcome_pure]
          | ok bytes => simp only [outcome_ite, outcome_bind, outcome_heap_free, bind_ok, outcome_pure]

theorem lookup_interpreter_outcome (elf : ElfFile) : outcome (elfLookupInterpreter elf) = ElfBuffers.elfLookupInterpreter elf := by
  rw [elfLookupInterpreter, ElfBuffers.elfLookupInterpreter, outcome_bind, outcome_heap_alloc, bind_assoc]
  refine bind_congr fun bytes => ?_
  rw [bind_ok]
  refine (outcome_auto_free _ _).trans ?_
  rw [interpreter_from_outcome]

theorem lookup_phdr_address_outcome (elf : ElfFile) : outcome (elfLookupPhdrAddress elf) = ElfBuffers.elfLookupPhdrAddress elf := by
  rw [elfLookupPhdrAddress, ElfBuffers.elfLookupPhdrAddress, outcome_bind, outcome_heap_alloc, bind_assoc]
  refine bind_congr fun bytes => ?_
  rw [bind_ok]
  refine (outcome_auto_free _ _).trans ?_
  rw [outcome_lift]

theorem elf_load_outcome (id top : Nat) (elf : ElfFile) (m : Machine) : outcome (elfLoad id top elf m) = ElfBuffers.elfLoad id top elf m := by
  rw [elfLoad, ElfBuffers.elfLoad, outcome_bind, outcome_heap_alloc, bind_assoc]
  refine bind_congr fun bytes => ?_
  rw [bind_ok]
  refine (outcome_auto_free _ _).trans ?_
  rw [outcome_lift, loadWith]

end Outcomes

end Elysium.HeapFrees
