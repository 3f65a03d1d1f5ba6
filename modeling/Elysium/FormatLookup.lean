import Elysium.Format

set_option autoImplicit false

namespace Elysium.Format

-- The labels in the order of their enumeration, which is that of the rows of g_lookup.
def LengthPrefix.row : LengthPrefix → Nat
  | none => 0
  | h => 1
  | hh => 2
  | l => 3
  | ll => 4
  | j => 5
  | z => 6
  | t => 7
  | longDouble => 8

-- index and HASH(index).
def shifted (character : UInt8) : UInt8 := if character < chr 'a' then character + (chr 'a' - chr 'A') else character

def column (index : UInt8) : Int := (index.toNat : Int) - (chr 'a').toNat

structure Access where
  row : Nat
  column : Int
deriving DecidableEq, Repr

def Access.Inside (access : Access) : Prop := access.row < 9 ∧ 0 ≤ access.column ∧ access.column ≤ 25

instance (access : Access) : Decidable access.Inside := inferInstanceAs (Decidable (_ ∧ _))

def IsLetter (character : UInt8) : Prop :=
  chr 'A' ≤ character ∧ character ≤ chr 'Z' ∨ chr 'a' ≤ character ∧ character ≤ chr 'z'

instance (character : UInt8) : Decidable (IsLetter character) := inferInstanceAs (Decidable (_ ∨ _))

-- Where fmt stands after the digits of a number; none stands for the end of the string.
def skipNumber : Bytes → Option Bytes
  | [] => none
  | byte :: rest => if isDigit byte then skipNumber rest else some (byte :: rest)

def skipWidth (rest : Bytes) : Option Bytes := if rest.head? = some (chr '*') then some rest.tail else skipNumber rest

def skipPrecision (rest : Bytes) : Option Bytes :=
  if rest.head? ≠ some (chr '.') then some rest
  else if rest.tail.head? = some (chr '*') then some rest.tail.tail
  else skipNumber rest.tail

-- The length prefix and fmt at lbl_modifiers.
def modifiers (behind : Bytes) : Option (LengthPrefix × Bytes) :=
  (((flagsLoop noFlags behind).bind fun flagged => skipWidth flagged.2).bind skipPrecision).map parseLength

-- The characters that the switch after the lookup has a case for.
def printable (character : UInt8) : Bool :=
  [chr 'c', chr 's', chr 'X', chr 'x', chr 'u', chr 'o', chr 'd', chr 'i'].contains character

-- A conversion at lbl_modifiers: the string behind its percent sign, and its character, which is 0 at the end of
-- the string.
structure ConversionAt where
  behind : Bytes
  lengthPrefix : LengthPrefix
  character : UInt8
deriving DecidableEq, Repr

def ConversionAt.type (conversion : ConversionAt) : Option ArgType :=
  lookup conversion.lengthPrefix (shifted conversion.character) <|> lookup .none (shifted conversion.character)

-- Behind the conversion, or behind the percent sign where it is invalid.
def ConversionAt.goesOn (conversion : ConversionAt) (rest : Bytes) : Bytes :=
  if conversion.type.isSome ∧ printable conversion.character then rest else conversion.behind

-- The second access is to the row of L_NONE, where the first has no type.
def ConversionAt.accesses (conversion : ConversionAt) : List Access :=
  ⟨conversion.lengthPrefix.row, column (shifted conversion.character)⟩ ::
    if IsLetter conversion.character ∧ lookup conversion.lengthPrefix (shifted conversion.character) = none then
      [⟨LengthPrefix.none.row, column (shifted conversion.character)⟩]
    else []

-- The conversions of a run, up to one that reads outside the table: what is found there decides how it goes on.
def conversionsFrom : Nat → Bytes → List ConversionAt
  | 0, _ => []
  | _ + 1, [] => []
  | fuel + 1, byte :: rest =>
    if byte = chr '%' then
      if rest.head? = some (chr '%') then conversionsFrom fuel rest.tail
      else
        match modifiers rest with
        | none => []
        | some (lengthPrefix, fmt) =>
            let conversion := ⟨rest, lengthPrefix, fmt.headD 0⟩
            conversion :: if IsLetter conversion.character then conversionsFrom fuel (conversion.goesOn fmt.tail) else []
    else conversionsFrom fuel rest

def conversions (fmt : Bytes) : List ConversionAt := conversionsFrom (fmt.length + 1) fmt

def accesses (fmt : Bytes) : List Access := (conversions fmt).flatMap ConversionAt.accesses

-- The table is read inside its bounds, and what is no conversion takes no argument and is copied.
structure Bounded (fmt : Bytes) : Prop where
  inside : ∀ access ∈ accesses fmt, access.Inside
  echoed : ∀ conversion ∈ conversions fmt, ¬ IsLetter conversion.character →
    ∀ text args, directive text conversion.behind args = .ok (.invalid args)

theorem row_inside (lengthPrefix : LengthPrefix) : lengthPrefix.row < 9 := by cases lengthPrefix <;> decide

-- Only a letter has a column.
theorem column_inside (character : UInt8) :
    0 ≤ column (shifted character) ∧ column (shifted character) ≤ 25 ↔ IsLetter character := by
  have small : character.toNat < 256 := character.toNat_lt
  unfold column shifted IsLetter
  simp only [UInt8.lt_iff_toNat_lt, UInt8.le_iff_toNat_le, show (chr 'a').toNat = 97 from rfl, show (chr 'A').toNat = 65 from rfl,
    show (chr 'z').toNat = 122 from rfl, show (chr 'Z').toNat = 90 from rfl]
  split
  · rw [UInt8.toNat_add, show (chr 'a' - chr 'A').toNat = 32 from rfl]
    omega
  · omega

theorem accesses_inside (conversion : ConversionAt) : (∀ access ∈ conversion.accesses, access.Inside) ↔ IsLetter conversion.character := by
  constructor
  · intro inside
    exact (column_inside _).mp (inside _ List.mem_cons_self).2
  · intro letter access member
    have bounds := (column_inside _).mpr letter
    rw [ConversionAt.accesses, List.mem_cons] at member
    rcases member with rfl | second
    · exact ⟨row_inside _, bounds⟩
    · split at second
      · rw [List.mem_singleton.mp second]
        exact ⟨row_inside .none, bounds⟩
      · cases second

end Elysium.Format
