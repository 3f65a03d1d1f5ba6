import Elysium.Format
import Mathlib.Data.Nat.Digits.Lemmas

set_option autoImplicit false

namespace Elysium.Format

-- The parts of a directive that fprintf knows, as they stand in the format string, with their arguments.
inductive Flag where
  | minus
  | plus
  | space
  | hash
  | zero
deriving DecidableEq, Repr

def Flag.byte : Flag → UInt8
  | .minus => chr '-'
  | .plus => chr '+'
  | .space => chr ' '
  | .hash => chr '#'
  | .zero => chr '0'

def decimal (n : Nat) : Bytes := (Nat.digits 10 n).reverse.map fun digit => UInt8.ofNat (digit + 48)

-- The value that an int argument has in its slot.
def slotInt (slot : Slot) : Int := (slot.truncate 32).toInt

-- A literal width does not start with a zero, which would be a flag.
inductive Width where
  | absent
  | literal (n : Nat) (positive : 0 < n) (fits : n ≤ 2147483647)
  | star (slot : Slot)

def Width.bytes : Width → Bytes
  | .absent => []
  | .literal n _ _ => decimal n
  | .star _ => [chr '*']

def Width.args : Width → List Slot
  | .star slot => [slot]
  | _ => []

def Width.value : Width → Int
  | .absent => 0
  | .literal n _ _ => n
  | .star slot => slotInt slot

-- A literal precision may have leading zeros, and no digits at all.
inductive Precision where
  | absent
  | literal (zeros n : Nat) (fits : n ≤ 2147483647)
  | star (slot : Slot)

def Precision.bytes : Precision → Bytes
  | .absent => []
  | .literal zeros n _ => chr '.' :: (List.replicate zeros (chr '0') ++ decimal n)
  | .star _ => [chr '.', chr '*']

def Precision.args : Precision → List Slot
  | .star slot => [slot]
  | _ => []

-- A negative precision is taken as if it were omitted.
def Precision.value : Precision → Option Nat
  | .absent => none
  | .literal _ n _ => some n
  | .star slot => if slotInt slot < 0 then none else some (slotInt slot).toNat

inductive Length where
  | absent
  | h
  | hh
  | l
  | ll
  | j
  | z
  | t
deriving DecidableEq, Repr

def Length.bytes : Length → Bytes
  | .absent => []
  | .h => [chr 'h']
  | .hh => [chr 'h', chr 'h']
  | .l => [chr 'l']
  | .ll => [chr 'l', chr 'l']
  | .j => [chr 'j']
  | .z => [chr 'z']
  | .t => [chr 't']

-- The width of the argument's type.
def Length.bits : Length → Nat
  | .absent => 32
  | .h => 16
  | .hh => 8
  | _ => 64

inductive Specifier where
  | d
  | i
  | u
  | o
  | x
  | upperX
deriving DecidableEq, Repr

def Specifier.byte : Specifier → UInt8
  | .d => chr 'd'
  | .i => chr 'i'
  | .u => chr 'u'
  | .o => chr 'o'
  | .x => chr 'x'
  | .upperX => chr 'X'

def Specifier.radix : Specifier → Nat
  | .o => 8
  | .x => 16
  | .upperX => 16
  | _ => 10

def Specifier.signed : Specifier → Bool
  | .d => true
  | .i => true
  | _ => false

structure Directive where
  flags : List Flag
  width : Width
  precision : Precision
  length : Length
  specifier : Specifier
  slot : Slot

namespace Directive

variable (d : Directive)

def bytes : Bytes :=
  chr '%' :: (d.flags.map Flag.byte ++ d.width.bytes ++ d.precision.bytes ++ d.length.bytes ++ [d.specifier.byte])

def args : List Slot := d.width.args ++ d.precision.args ++ [d.slot]

def value : Int :=
  if d.specifier.signed then (d.slot.truncate d.length.bits).toInt else (d.slot.truncate d.length.bits).toNat

def magnitude : Nat := d.value.natAbs

def left : Bool := .minus ∈ d.flags ∨ d.width.value < 0

-- The sign of a signed conversion, the prefix of a hexadecimal one.
def lead : Bytes :=
  if d.specifier.signed then
    if d.value < 0 then [chr '-'] else if .plus ∈ d.flags then [chr '+'] else if .space ∈ d.flags then [chr ' '] else []
  else if .hash ∈ d.flags ∧ d.magnitude ≠ 0 then
    match d.specifier with
    | .x => [chr '0', chr 'x']
    | .upperX => [chr '0', chr 'X']
    | _ => []
  else []

def numeral (digit : Nat) : UInt8 :=
  let numerals := if d.specifier = .upperX then "0123456789ABCDEF" else "0123456789abcdef"
  (numerals.toList.map chr).getD digit 0

-- At least as many digits as the precision asks for; a zero with precision zero has none.
def plainDigits : Bytes :=
  let digits := (Nat.digits d.specifier.radix d.magnitude).reverse.map d.numeral
  List.replicate (d.precision.value.getD 1 - digits.length) (chr '0') ++ digits

-- The alternative form of an octal conversion starts with a zero.
def digits : Bytes :=
  if d.specifier = .o ∧ .hash ∈ d.flags ∧ d.plainDigits.head? ≠ some (chr '0') then chr '0' :: d.plainDigits else d.plainDigits

-- The text that the C standard prescribes.
def text : Bytes :=
  let body := d.lead ++ d.digits
  let missing := d.width.value.natAbs - body.length
  if d.left then body ++ List.replicate missing (chr ' ')
  else if .zero ∈ d.flags ∧ d.precision.value = none then d.lead ++ List.replicate missing (chr '0') ++ d.digits
  else List.replicate missing (chr ' ') ++ body

-- Where the code prints that text.
structure Sound : Prop where
  trailing : d.precision.value = some 0 → d.magnitude ≠ 0 → d.magnitude % d.specifier.radix ≠ 0
  empty : d.precision.value = some 0 → d.magnitude = 0 → d.lead = [] → d.left = true → d.width.value = 0
  octal : d.specifier = .o → .hash ∈ d.flags → d.precision.value = some 0 → d.magnitude ≠ 0
  zeroes : ∀ slot, d.precision = .star slot → slotInt slot < 0 → .zero ∈ d.flags → d.left = false →
    d.width.value.natAbs ≤ (d.lead ++ d.digits).length

end Directive

-- A format string of plain text, %% and integer directives.
inductive Piece where
  | plain (byte : UInt8) (other : byte ≠ chr '%') (inside : byte ≠ 0)
  | percent
  | directive (d : Directive)

def Piece.bytes : Piece → Bytes
  | .plain byte _ _ => [byte]
  | .percent => [chr '%', chr '%']
  | .directive d => d.bytes

def Piece.args : Piece → List Slot
  | .directive d => d.args
  | _ => []

def Piece.text : Piece → Bytes
  | .plain byte _ _ => [byte]
  | .percent => [chr '%']
  | .directive d => d.text

def Piece.Sound : Piece → Prop
  | .directive d => d.Sound
  | _ => True

end Elysium.Format
