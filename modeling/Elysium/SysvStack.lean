import Elysium.UserLedger

set_option autoImplicit false

namespace Elysium.Sysv

open UserSpace (Machine paging follow seen)

-- A string of C: the bytes before the NUL.
structure Text where
  bytes : List UInt8
  inside : ∀ byte ∈ bytes, byte ≠ 0
deriving DecidableEq

def Text.stored (text : Text) : List UInt8 := text.bytes ++ [0]

structure Auxv where
  entry : UInt64
  phdr : UInt64
  phent : UInt64
  phnum : UInt64

def auxvPhdr : Nat := 3
def auxvPhent : Nat := 4
def auxvPhnum : Nat := 5
def auxvEntry : Nat := 9
def auxvSecure : Nat := 23

def byteOf (value k : Nat) : UInt8 := UInt8.ofNat (value / 256 ^ k % 256)

-- A uint64_t in memory.
def qword (value : Nat) : List UInt8 := (List.range 8).map (byteOf value)

def stringLength (text : Text) : Nat := text.bytes.length

-- int arithmetic on counts.
def checkedCount (n : Nat) : Except Fault Nat := if n ≤ 2147483647 then .ok n else .error .undefined

-- The loop that counts strings and makes room for them.
def reserve : List Text → Nat → Nat → Except Fault (Nat × Nat)
  | [], count, stack => .ok (count, stack)
  | text :: rest, count, stack => do
      let count ← checkedCount (count + 1)
      reserve rest count (sub64 stack (stringLength text + 1))

section Code

variable (id top : Nat)

-- WRITE_QWORD copies four bytes.
def writeQword (value stack : Nat) (m : Machine) : Except Fault (Nat × Machine) := do
  let stack := sub64 stack 8
  let (m, copytoCount) ← Vm.vmCopyTo (paging id top) stack (qword value) 4 m
  assertThat (copytoCount = 4)
  .ok (stack, m)

-- WRITE_AUX.
def writeAux (auxId value stack : Nat) (m : Machine) : Except Fault (Nat × Machine) := do
  let (stack, m) ← writeQword id top value stack m
  writeQword id top auxId stack m

-- The loop that writes strings, from data upwards, and their addresses, from stack downwards.
def pushStrings : List Text → Nat → Nat → Machine → Except Fault (Nat × Machine)
  | [], _, stack, m => .ok (stack, m)
  | text :: rest, data, stack, m => do
      let (stack, m) ← writeQword id top data stack m
      let strSz := stringLength text + 1
      let (m, copytoCount) ← Vm.vmCopyTo (paging id top) data text.stored strSz m
      assertThat (copytoCount = strSz)
      pushStrings rest (add64 data strSz) stack m

-- The words and the strings, once their places are known.
def writeStack (argv envp : List Text) (auxv : Auxv) (argc argData envData stack : Nat) (m : Machine) : Except Fault (Nat × Machine) := do
  let (stack, m) ← writeAux id top 0 0 stack m
  let (stack, m) ← writeAux id top auxvSecure 0 stack m
  let (stack, m) ← writeAux id top auxvEntry auxv.entry.toNat stack m
  let (stack, m) ← writeAux id top auxvPhdr auxv.phdr.toNat stack m
  let (stack, m) ← writeAux id top auxvPhent auxv.phent.toNat stack m
  let (stack, m) ← writeAux id top auxvPhnum auxv.phnum.toNat stack m
  let (stack, m) ← writeQword id top 0 stack m
  let (stack, m) ← pushStrings id top envp envData stack m
  let (stack, m) ← writeQword id top 0 stack m
  let (stack, m) ← pushStrings id top argv argData stack m
  writeQword id top argc stack m

def x8664SysvStackSetup (stackSize : Nat) (argv envp : List Text) (auxv : Auxv) (m : Machine) : Except Fault (Machine × Nat) := do
  assertThat (stackSize % pageGranularity = 0)
  let (vm, stackPtr) ← Vm.vmMapAnon (.process id) Vm.nullptr stackSize Vm.protRW .standard Vm.flagDynamicallyBacked m.vm
  let m ← follow id top m vm
  assertThat (stackPtr ≠ Vm.nullptr)
  let stack := sub64 (add64 stackPtr stackSize) 1 / 0x10 * 0x10
  let (argc, stack) ← reserve argv 0 stack
  let argData := stack
  let (envc, stack) ← reserve envp 0 stack
  let envData := stack
  let words ← checkedCount (12 + 1 + envc + 1 + argc + 1)
  let stack := sub64 stack (sub64 stack (words * 8) % 0x10)
  let (stack, m) ← writeStack id top argv envp auxv argc argData envData stack m
  .ok (m, stack)

end Code

-- The layout of the initial stack in the System V ABI.
section Abi

def auxPairs (auxv : Auxv) : List (Nat × Nat) :=
  [(auxvPhnum, auxv.phnum.toNat), (auxvPhent, auxv.phent.toNat), (auxvPhdr, auxv.phdr.toNat), (auxvEntry, auxv.entry.toNat), (auxvSecure, 0)]

def auxWords (auxv : Auxv) : List Nat := (auxPairs auxv ++ [(0, 0)]).flatMap fun pair : Nat × Nat => [pair.1, pair.2]

-- The words from the stack pointer upwards, with the strings at these addresses.
def stackWords (argc : Nat) (args envs : List Nat) (auxv : Auxv) : List Nat := argc :: (args ++ 0 :: (envs ++ 0 :: auxWords auxv))

variable (id top : Nat)

def Holds (m : Machine) (address : Nat) (bytes : List UInt8) : Prop :=
  ∀ k, (short : k < bytes.length) → seen id top m (address + k) = some bytes[k]

def Apart (p n q k : Nat) : Prop := p + n ≤ q ∨ q + k ≤ p

-- The strings with the addresses they are to be found at.
def placedStrings (argv envp : List Text) (args envs : List Nat) : List (Nat × Text) := args.zip argv ++ envs.zip envp

structure Layout (m : Machine) (base size sp : Nat) (argv envp : List Text) (auxv : Auxv) (args envs : List Nat) : Prop where
  argCount : args.length = argv.length
  envCount : envs.length = envp.length
  words : ∀ i, (short : i < (stackWords argv.length args envs auxv).length) →
    Holds id top m (sp + 8 * i) (qword (stackWords argv.length args envs auxv)[i])
  strings : ∀ placed ∈ placedStrings argv envp args envs, Holds id top m placed.1 placed.2.stored ∧
    base ≤ placed.1 ∧ placed.1 + placed.2.stored.length ≤ base + size ∧
    Apart placed.1 placed.2.stored.length sp (8 * (stackWords argv.length args envs auxv).length)
  separate : (placedStrings argv envp args envs).Pairwise fun p q => Apart p.1 p.2.stored.length q.1 q.2.stored.length

structure InitialStack (m : Machine) (base size sp : Nat) (argv envp : List Text) (auxv : Auxv) : Prop where
  aligned : sp % 16 = 0
  above : base ≤ sp
  below : sp < base + size
  layout : ∃ args envs, Layout id top m base size sp argv envp auxv args envs

end Abi

end Elysium.Sysv
