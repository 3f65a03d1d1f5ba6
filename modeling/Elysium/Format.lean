import Elysium.Machine

set_option autoImplicit false

namespace Elysium.Format

abbrev Bytes := List UInt8

-- One argument of the va_list; a narrower one fills the low bits.
abbrev Slot := BitVec 64

def chr (c : Char) : UInt8 := c.toUInt8

def intMax : Int := 2147483647
def intMin : Int := -2147483648

-- int arithmetic, which is undefined outside its range.
def checked (n : Int) : Except Fault Int := if intMin ≤ n ∧ n ≤ intMax then .ok n else .error .undefined

structure Flags where
  left : Bool
  sign : Bool
  space : Bool
  alternative : Bool
  zero : Bool
deriving DecidableEq, Repr

def noFlags : Flags := ⟨false, false, false, false, false⟩

inductive LengthPrefix where
  | none
  | h
  | hh
  | l
  | ll
  | j
  | z
  | t
  | longDouble
deriving DecidableEq, Repr

inductive ArgType where
  | int
  | uint
  | char
  | uchar
  | short
  | ushort
  | long
  | ulong
  | llong
  | ullong
  | ptr
  | double
  | ldouble
  | intmax
  | uintmax
  | size
  | ssize
  | ptrdiff
  | uptrdiff
deriving DecidableEq, Repr

-- The rows of g_lookup: the types for d and i, for o, x and u, and for the rest.
def lookupRow (signed unsigned : ArgType) (index : UInt8) : Option ArgType :=
  if index = chr 'd' ∨ index = chr 'i' then some signed
  else if index = chr 'o' ∨ index = chr 'x' ∨ index = chr 'u' then some unsigned
  else if index = chr 'n' then some .ptr
  else none

def lookupText (index : UInt8) : Option ArgType :=
  if index = chr 'c' then some .int else if index = chr 's' then some .ptr else none

def lookupDouble (type : ArgType) (index : UInt8) : Option ArgType :=
  if index = chr 'f' ∨ index = chr 'e' ∨ index = chr 'a' ∨ index = chr 'g' then some type else none

def lookup : LengthPrefix → UInt8 → Option ArgType
  | .none, index => lookupRow .int .uint index <|> lookupText index <|> lookupDouble .double index <|>
      if index = chr 'p' then some .ptr else none
  | .h, index => lookupRow .short .ushort index
  | .hh, index => lookupRow .char .uchar index
  | .l, index => lookupRow .long .ulong index <|> lookupText index <|> lookupDouble .double index
  | .ll, index => lookupRow .llong .ullong index
  | .j, index => lookupRow .intmax .uintmax index
  | .z, index => lookupRow .ssize .size index
  | .t, index => lookupRow .ptrdiff .uptrdiff index
  | .longDouble, index => lookupDouble .ldouble index

-- value.integer as va_arg and the conversion to uintmax_t leave it.
def fetch : ArgType → Slot → Slot
  | .int, slot => (slot.truncate 32).signExtend 64
  | .uint, slot => (slot.truncate 32).zeroExtend 64
  | .char, slot => (slot.truncate 8).signExtend 64
  | .uchar, slot => (slot.truncate 8).zeroExtend 64
  | .short, slot => (slot.truncate 16).signExtend 64
  | .ushort, slot => (slot.truncate 16).zeroExtend 64
  | _, slot => slot

-- The cases for floating point take no argument; they are invalid later on.
def ArgType.taken : ArgType → Bool
  | .double => false
  | .ldouble => false
  | _ => true

def vaArg : List Slot → Except Fault (Slot × List Slot)
  | [] => .error .undefined
  | slot :: rest => .ok (slot, rest)

-- va_arg(list, int).
def vaArgInt (args : List Slot) : Except Fault (Int × List Slot) := do
  let (slot, args) ← vaArg args
  .ok ((slot.truncate 32).toInt, args)

def settleFlags (flags : Flags) : Flags :=
  let flags := if flags.sign then { flags with space := false } else flags
  if flags.left then { flags with zero := false } else flags

-- lbl_flags; none stands for the end of the string, where the function is done.
def flagsLoop : Flags → Bytes → Option (Flags × Bytes)
  | _, [] => none
  | flags, byte :: rest =>
    if byte = chr '-' then flagsLoop { flags with left := true } rest
    else if byte = chr '+' then flagsLoop { flags with sign := true } rest
    else if byte = chr ' ' then flagsLoop { flags with space := true } rest
    else if byte = chr '#' then flagsLoop { flags with alternative := true } rest
    else if byte = chr '0' then flagsLoop { flags with zero := true } rest
    else some (settleFlags flags, byte :: rest)

def isDigit (byte : UInt8) : Bool := chr '0' ≤ byte && byte ≤ chr '9'

-- The digits of a width or a precision.
def numberLoop : Int → Bytes → Except Fault (Option (Int × Bytes))
  | _, [] => .ok none
  | n, byte :: rest =>
    if isDigit byte then do
      let n ← checked (n * 10)
      let n ← checked (n + (byte - chr '0').toNat)
      numberLoop n rest
    else .ok (some (n, byte :: rest))

structure Conversion where
  flags : Flags
  width : Int
  precision : Int

-- lbl_width.
def parseWidth (flags : Flags) (rest : Bytes) (args : List Slot) : Except Fault (Option (Conversion × Bytes × List Slot)) :=
  if rest.head? = some (chr '*') then do
    let (width, args) ← vaArgInt args
    if width < 0 then
      let width ← checked (-width)
      .ok (some (⟨{ flags with left := true }, width, -1⟩, rest.tail, args))
    else .ok (some (⟨flags, width, -1⟩, rest.tail, args))
  else do
    match ← numberLoop 0 rest with
    | none => .ok none
    | some (width, rest) => .ok (some (⟨flags, width, -1⟩, rest, args))

-- lbl_precision.
def parsePrecision (conversion : Conversion) (rest : Bytes) (args : List Slot) :
    Except Fault (Option (Conversion × Bytes × List Slot)) :=
  if rest.head? ≠ some (chr '.') then .ok (some (conversion, rest, args))
  else
    let conversion := { conversion with flags := { conversion.flags with zero := false } }
    let rest := rest.tail
    if rest.head? = some (chr '*') then do
      let (precision, args) ← vaArgInt args
      .ok (some ({ conversion with precision := if precision < 0 then 1 else precision }, rest.tail, args))
    else do
      match ← numberLoop 0 rest with
      | none => .ok none
      | some (precision, rest) => .ok (some ({ conversion with precision }, rest, args))

-- lbl_length and lbl_length_ext.
def parseLength : Bytes → LengthPrefix × Bytes
  | [] => (.none, [])
  | byte :: rest =>
    if byte = chr 'h' then if rest.head? = some (chr 'h') then (.hh, rest.tail) else if rest.head? = some (chr 'l') then (.ll, rest.tail) else (.h, rest)
    else if byte = chr 'l' then if rest.head? = some (chr 'h') then (.hh, rest.tail) else if rest.head? = some (chr 'l') then (.ll, rest.tail) else (.l, rest)
    else if byte = chr 'j' then (.j, rest)
    else if byte = chr 'z' then (.z, rest)
    else if byte = chr 't' then (.t, rest)
    else if byte = chr 'L' then (.longDouble, rest)
    else (.none, byte :: rest)

-- g_prefixes.
def prefixes : Bytes := [0, chr '0', chr 'x', 0, chr '0', chr 'X', 0, chr '+', 0, chr ' ', 0]

def prefixAt (offset : Nat) : Bytes := (prefixes.drop offset).takeWhile (· ≠ 0)

-- The largest power of the radix that is not above the value, and the length with a digit for each.
def powerLoop (value radix : Nat) : Nat → Nat → Int → Except Fault (Nat × Int)
  | 0, _, _ => .error .diverges
  | fuel + 1, pw, length =>
    if value / pw ≥ radix then powerLoop value radix fuel ((pw * radix) % 2 ^ 64) (length + 1) else .ok (pw, length)

def digitChar (uppercase : Bool) (digit : Nat) : UInt8 :=
  if digit ≥ 10 then UInt8.ofNat (digit - 10) + (if uppercase then chr 'A' else chr 'a') else UInt8.ofNat digit + chr '0'

-- The digits, until there is no power left, or, where the precision is zero, no value.
def digitLoop (uppercase : Bool) (radix : Nat) (precision : Int) : Nat → Nat → Nat → Except Fault Bytes
  | 0, _, _ => .error .diverges
  | fuel + 1, value, pw =>
    if pw ≠ 0 ∧ (precision ≠ 0 ∨ value ≠ 0) then do
      let rest ← digitLoop uppercase radix precision fuel (value % pw) (pw / radix)
      .ok (digitChar uppercase (value / pw % 256) :: rest)
    else .ok []

-- What the conversion specifier says about a number.
structure Number where
  uppercase : Bool
  leadingZero : Bool
  noPrefixOnZero : Bool
  radix : Nat
  negative : Bool
  prefixOffset : Nat

-- for(int i = length; i < width; i++).
def padding (byte : UInt8) (length width : Int) : Bytes := List.replicate (width - length).toNat byte

-- lbl_print_number.
def printNumber (conversion : Conversion) (number : Number) (value : Nat) : Except Fault Bytes := do
  let flags := conversion.flags
  let precision := conversion.precision
  let width := conversion.width
  let (pw, length) ← powerLoop value number.radix 65 1 (if precision ≠ 0 ∨ value ≠ 0 then 1 else 0)
  let precisionPad := if precision > length then precision - length else 0
  let precisionPad := if precisionPad = 0 ∧ number.leadingZero ∧ (value ≠ 0 ∨ ¬ number.noPrefixOnZero) then 1 else precisionPad
  let length ← checked (length + precisionPad)
  let sign := if number.negative then [chr '-']
    else if ¬ number.noPrefixOnZero ∨ value ≠ 0 then prefixAt number.prefixOffset
    else []
  let length ← checked (length + sign.length)
  let before := if ¬ (flags.left ∨ flags.zero) then padding (chr ' ') length width else []
  if length = 0 then .ok before
  else
    let zeroes := if flags.zero ∧ ¬ flags.left then padding (chr '0') length width else []
    let digits ← digitLoop number.uppercase number.radix precision 66 value pw
    let after := if flags.left then padding (chr ' ') length width else []
    .ok (before ++ sign ++ zeroes ++ List.replicate precisionPad.toNat (chr '0') ++ digits ++ after)

-- What the writer gets for a directive, or how the function goes on without one.
inductive Directed where
  | done
  | printed (bytes rest : Bytes) (args : List Slot)
  | invalid (args : List Slot)

def printChar (conversion : Conversion) (value : Slot) : Bytes :=
  let pad := padding (chr ' ') 1 conversion.width
  (if conversion.flags.left then [] else pad) ++ [UInt8.ofBitVec (value.truncate 8)] ++ if conversion.flags.left then pad else []

def printString (conversion : Conversion) (str : Bytes) : Except Fault Bytes := do
  let length ← checked str.length
  let length := if conversion.precision ≥ 0 ∧ conversion.precision < length then conversion.precision else length
  let pad := padding (chr ' ') length conversion.width
  .ok ((if conversion.flags.left then [] else pad) ++ str.take length.toNat ++ if conversion.flags.left then pad else [])

-- if(precision < 0) precision = 1.
def defaultPrecision (conversion : Conversion) : Conversion :=
  { conversion with precision := if conversion.precision < 0 then 1 else conversion.precision }

-- The switch over the conversion specifier; none stands for lbl_invalid.
def printConversion (text : Slot → Bytes) (conversion : Conversion) (specifier : UInt8) (value : Slot) : Except Fault (Option Bytes) :=
  let flags := conversion.flags
  if specifier = chr 'c' then .ok (some (printChar conversion value))
  else if specifier = chr 's' then (printString conversion (text value)).map some
  else if specifier = chr 'X' then
    (printNumber (defaultPrecision conversion) ⟨true, false, true, 16, false, if flags.alternative then 4 else 0⟩ value.toNat).map some
  else if specifier = chr 'x' then
    (printNumber (defaultPrecision conversion) ⟨false, false, true, 16, false, if flags.alternative then 1 else 0⟩ value.toNat).map some
  else if specifier = chr 'u' then
    (printNumber (defaultPrecision conversion) ⟨false, false, false, 10, false, 0⟩ value.toNat).map some
  else if specifier = chr 'o' then
    (printNumber (defaultPrecision conversion) ⟨false, flags.alternative, true, 8, false, 0⟩ value.toNat).map some
  else if specifier = chr 'd' ∨ specifier = chr 'i' then
    let negative := value.toInt < 0
    let value := if negative then -value else value
    (printNumber (defaultPrecision conversion)
      ⟨false, false, false, 10, negative, if flags.sign then 7 else if flags.space then 9 else 0⟩ value.toNat).map some
  else .ok none

-- lbl_modifiers and what follows it. An index that is no letter reads outside g_lookup.
def printDirective (text : Slot → Bytes) (conversion : Conversion) (rest : Bytes) (args : List Slot) : Except Fault Directed := do
  let (lengthPrefix, rest) := parseLength rest
  match rest with
  | [] => .error .undefined
  | specifier :: rest =>
    let index := if specifier < chr 'a' then specifier + (chr 'a' - chr 'A') else specifier
    if index < chr 'a' ∨ chr 'z' < index then .error .undefined
    else
      match lookup lengthPrefix index <|> lookup .none index with
      | none => .ok (.invalid args)
      | some type =>
        let (slot, args) ← if type.taken then vaArg args else .ok (0, args)
        match ← printConversion text conversion specifier (fetch type slot) with
        | none => .ok (.invalid args)
        | some bytes => .ok (.printed bytes rest args)

-- A directive, from behind the percent sign.
def directive (text : Slot → Bytes) (rest : Bytes) (args : List Slot) : Except Fault Directed := do
  match flagsLoop noFlags rest with
  | none => .ok .done
  | some (flags, rest) =>
    match ← parseWidth flags rest args with
    | none => .ok .done
    | some (conversion, rest, args) =>
      match ← parsePrecision conversion rest args with
      | none => .ok .done
      | some (conversion, rest, args) => printDirective text conversion rest args

-- lbl_normal. What is written is kept in order.
def formatLoop (text : Slot → Bytes) : Nat → Bytes → List Slot → Except Fault Bytes
  | 0, _, _ => .error .diverges
  | _ + 1, [], _ => .ok []
  | fuel + 1, byte :: rest, args =>
    if byte = chr '%' then
      if rest.head? = some (chr '%') then do
        let later ← formatLoop text fuel rest.tail args
        .ok (chr '%' :: later)
      else do
        match ← directive text rest args with
        | .done => .ok []
        | .printed bytes rest args =>
            let later ← formatLoop text fuel rest args
            .ok (bytes ++ later)
        | .invalid args =>
            let later ← formatLoop text fuel rest args
            .ok (chr '%' :: later)
    else do
      let later ← formatLoop text fuel rest args
      .ok (byte :: later)

-- The characters passed to the writer, and the count, returned as an int. The text behind a pointer is given.
def format (text : Slot → Bytes) (fmt : Bytes) (args : List Slot) : Except Fault (Bytes × Int) := do
  let written ← formatLoop text (fmt.length + 1) fmt args
  .ok (written, (BitVec.ofNat 32 written.length).toInt)

end Elysium.Format
