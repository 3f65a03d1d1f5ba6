import Elysium.FormatNumber

set_option autoImplicit false

namespace Elysium.Format

-- The labels of format, and a label of its own for each loop and switch between them.
inductive Label where
  | normal
  | flags
  | width
  | widthDigits
  | precision
  | precisionGiven
  | precisionDigits
  | length
  | lengthExt
  | modifiers
  | conversion
  | printNumber (number : Number)
  | invalid
  | done

-- fmt and fallback are positions in the format string; taken counts the calls of va_arg.
structure Run where
  label : Label
  fmt : Nat
  fallback : Nat
  conversion : Conversion
  lengthPrefix : LengthPrefix
  value : Slot
  taken : Nat
  written : Bytes

namespace Run

def goto (r : Run) (label : Label) : Run := { r with label := label }

def advance (r : Run) : Run := { r with fmt := r.fmt + 1 }

def putchars (r : Run) (bytes : Bytes) : Run := { r with written := r.written ++ bytes }

def setFlags (r : Run) (flags : Flags) : Run := { r with conversion := { r.conversion with flags := flags } }

def setWidth (r : Run) (width : Int) : Run := { r with conversion := { r.conversion with width := width } }

def setPrecision (r : Run) (precision : Int) : Run := { r with conversion := { r.conversion with precision := precision } }

def setLength (r : Run) (lengthPrefix : LengthPrefix) : Run := { r with lengthPrefix := lengthPrefix }

end Run

-- The format string up to its NUL, what va_arg gives one after the other, and the strings
-- behind the pointers. int is what int arithmetic gives for a result; C says so for those
-- that an int can hold.
structure Input where
  string : Bytes
  terminated : 0 ∉ string
  arg : Nat → Slot
  text : Slot → Bytes
  int : Int → Int

def Input.char (input : Input) (i : Nat) : UInt8 := input.string.getD i 0

def setFlag (flags : Flags) (byte : UInt8) : Option Flags :=
  if byte = chr '-' then some { flags with left := true }
  else if byte = chr '+' then some { flags with sign := true }
  else if byte = chr ' ' then some { flags with space := true }
  else if byte = chr '#' then some { flags with alternative := true }
  else if byte = chr '0' then some { flags with zero := true }
  else none

-- printNumber and printString, with their int arithmetic given.
def printNumberWith (int : Int → Except Fault Int) (conversion : Conversion) (number : Number) (value : Nat) : Except Fault Bytes := do
  let flags := conversion.flags
  let precision := conversion.precision
  let width := conversion.width
  let (pw, length) ← powerLoop value number.radix 65 1 (if precision ≠ 0 ∨ value ≠ 0 then 1 else 0)
  let precisionPad := if precision > length then precision - length else 0
  let precisionPad := if precisionPad = 0 ∧ number.leadingZero ∧ (value ≠ 0 ∨ ¬ number.noPrefixOnZero) then 1 else precisionPad
  let length ← int (length + precisionPad)
  let sign := if number.negative then [chr '-']
    else if ¬ number.noPrefixOnZero ∨ value ≠ 0 then prefixAt number.prefixOffset
    else []
  let length ← int (length + sign.length)
  let before := if ¬ (flags.left ∨ flags.zero) then padding (chr ' ') length width else []
  if length = 0 then .ok before
  else
    let zeroes := if flags.zero ∧ ¬ flags.left then padding (chr '0') length width else []
    let digits ← digitLoop number.uppercase number.radix precision 66 value pw
    let after := if flags.left then padding (chr ' ') length width else []
    .ok (before ++ sign ++ zeroes ++ List.replicate precisionPad.toNat (chr '0') ++ digits ++ after)

def printStringWith (int : Int → Except Fault Int) (conversion : Conversion) (str : Bytes) : Except Fault Bytes := do
  let length ← int str.length
  let length := if conversion.precision ≥ 0 ∧ conversion.precision < length then conversion.precision else length
  let pad := padding (chr ' ') length conversion.width
  .ok ((if conversion.flags.left then [] else pad) ++ str.take length.toNat ++ if conversion.flags.left then pad else [])

-- The cases of the switch that print a number, with lbl_print_signed_number.
def numberOf (flags : Flags) (specifier : UInt8) (value : Slot) : Option (Number × Slot) :=
  if specifier = chr 'X' then some (⟨true, false, true, 16, false, if flags.alternative then 4 else 0⟩, value)
  else if specifier = chr 'x' then some (⟨false, false, true, 16, false, if flags.alternative then 1 else 0⟩, value)
  else if specifier = chr 'u' then some (⟨false, false, false, 10, false, 0⟩, value)
  else if specifier = chr 'o' then some (⟨false, flags.alternative, true, 8, false, 0⟩, value)
  else if specifier = chr 'd' ∨ specifier = chr 'i' then
    let negative := value.toInt < 0
    some (⟨false, false, false, 10, negative, if flags.sign then 7 else if flags.space then 9 else 0⟩, if negative then -value else value)
  else none

-- A round of the two loops over digits.
def digitRound (r : Run) (byte : UInt8) (next : Label) (more : Run) : Run :=
  if byte = 0 then r.goto .done else if isDigit byte then more.advance else r.goto next

section Model

variable (input : Input)

def addDigit (n : Int) (byte : UInt8) : Int := input.int (input.int (n * 10) + (byte - chr '0').toNat)

-- A lookup outside g_lookup is no conversion.
def stepAt (r : Run) : Label → Except Fault Run
  | .normal =>
      let byte := input.char r.fmt
      if byte = 0 then .ok (r.goto .done)
      else if byte = chr '%' then
        let opened := { r.advance with fallback := r.fmt + 1, conversion := ⟨noFlags, 0, -1⟩, lengthPrefix := .none }
        if input.char opened.fmt = chr '%' then .ok (opened.advance.putchars [chr '%']) else .ok (opened.goto .flags)
      else .ok (r.advance.putchars [byte])
  | .flags =>
      let byte := input.char r.fmt
      if byte = 0 then .ok (r.goto .done)
      else
        match setFlag r.conversion.flags byte with
        | some flags => .ok (r.setFlags flags).advance
        | none => .ok ((r.setFlags (settleFlags r.conversion.flags)).goto .width)
  | .width =>
      if input.char r.fmt = chr '*' then
        let width := ((input.arg r.taken).truncate 32).toInt
        let r := { r.advance with taken := r.taken + 1 }
        if width < 0 then .ok (((r.setFlags { r.conversion.flags with left := true }).setWidth (input.int (-width))).goto .precision)
        else .ok ((r.setWidth width).goto .precision)
      else .ok (r.goto .widthDigits)
  | .widthDigits =>
      let byte := input.char r.fmt
      .ok (digitRound r byte .precision (r.setWidth (addDigit input r.conversion.width byte)))
  | .precision =>
      if input.char r.fmt = chr '.' then
        .ok (((r.setFlags { r.conversion.flags with zero := false }).setPrecision 0).advance.goto .precisionGiven)
      else .ok (r.goto .length)
  | .precisionGiven =>
      if input.char r.fmt = chr '*' then
        let precision := ((input.arg r.taken).truncate 32).toInt
        .ok (({ r.advance with taken := r.taken + 1 }.setPrecision (if precision < 0 then 1 else precision)).goto .length)
      else .ok (r.goto .precisionDigits)
  | .precisionDigits =>
      let byte := input.char r.fmt
      .ok (digitRound r byte .length (r.setPrecision (addDigit input r.conversion.precision byte)))
  | .length =>
      let byte := input.char r.fmt
      if byte = chr 'h' then .ok ((r.setLength .h).goto .lengthExt)
      else if byte = chr 'l' then .ok ((r.setLength .l).goto .lengthExt)
      else if byte = chr 'j' then .ok ((r.setLength .j).advance.goto .modifiers)
      else if byte = chr 'z' then .ok ((r.setLength .z).advance.goto .modifiers)
      else if byte = chr 't' then .ok ((r.setLength .t).advance.goto .modifiers)
      else if byte = chr 'L' then .ok ((r.setLength .longDouble).advance.goto .modifiers)
      else .ok (r.goto .modifiers)
  | .lengthExt =>
      let r := r.advance
      let byte := input.char r.fmt
      if byte = chr 'h' then .ok ((r.setLength .hh).advance.goto .modifiers)
      else if byte = chr 'l' then .ok ((r.setLength .ll).advance.goto .modifiers)
      else .ok (r.goto .modifiers)
  | .modifiers =>
      let specifier := input.char r.fmt
      let index := if specifier < chr 'a' then specifier + (chr 'a' - chr 'A') else specifier
      match lookup r.lengthPrefix index <|> lookup .none index with
      | none => .ok (r.goto .invalid)
      | some type =>
          if type.taken then .ok ({ r with value := fetch type (input.arg r.taken), taken := r.taken + 1 }.goto .conversion)
          else .ok (r.goto .conversion)
  | .conversion =>
      let specifier := input.char r.fmt
      if specifier = 0 then .ok (r.goto .done)
      else if specifier = chr 'c' then .ok ((r.putchars (printChar r.conversion r.value)).advance.goto .normal)
      else if specifier = chr 's' then do
        let bytes ← printStringWith (fun n => .ok (input.int n)) r.conversion (input.text r.value)
        .ok ((r.putchars bytes).advance.goto .normal)
      else
        match numberOf r.conversion.flags specifier r.value with
        | none => .ok (r.goto .invalid)
        | some (number, value) => .ok ({ r with conversion := defaultPrecision r.conversion, value := value }.goto (.printNumber number))
  | .printNumber number => do
      let r := r.advance
      let bytes ← printNumberWith (fun n => .ok (input.int n)) r.conversion number r.value.toNat
      .ok ((r.putchars bytes).goto .normal)
  | .invalid => .ok ({ r.putchars [chr '%'] with fmt := r.fallback }.goto .normal)
  | .done => .ok r

def step (r : Run) : Except Fault Run := stepAt input r r.label

def after : Nat → Run → Except Fault Run
  | 0, r => .ok r
  | k + 1, r => step input r >>= after k

def start : Run := ⟨.normal, 0, 0, ⟨noFlags, 0, 0⟩, .none, 0, 0, []⟩

end Model

end Elysium.Format
