import Elysium.FormatLayout

set_option autoImplicit false

namespace Elysium.Format

section Flags

-- The flags that a list of flag characters sets.
def setFlags (flags : Flags) (set : List Flag) : Flags where
  left := flags.left || decide (.minus ∈ set)
  sign := flags.sign || decide (.plus ∈ set)
  space := flags.space || decide (.space ∈ set)
  alternative := flags.alternative || decide (.hash ∈ set)
  zero := flags.zero || decide (.zero ∈ set)

-- A character at which the flags end.
def NoFlag (byte : UInt8) : Prop :=
  byte ≠ chr '-' ∧ byte ≠ chr '+' ∧ byte ≠ chr ' ' ∧ byte ≠ chr '#' ∧ byte ≠ chr '0'

instance (byte : UInt8) : Decidable (NoFlag byte) := inferInstanceAs (Decidable (_ ∧ _))

theorem flags_loop_eq (flags : Flags) (set : List Flag) (byte : UInt8) (rest : Bytes) (other : NoFlag byte) :
    flagsLoop flags (set.map Flag.byte ++ byte :: rest) = some (settleFlags (setFlags flags set), byte :: rest) := by
  induction set generalizing flags with
  | nil =>
      obtain ⟨minus, plus, space, hash, zero⟩ := other
      simp [flagsLoop, minus, plus, space, hash, zero, setFlags]
  | cons flag set ih =>
      have step : flagsLoop flags (flag.byte :: (set.map Flag.byte ++ byte :: rest)) =
          flagsLoop (setFlags flags [flag]) (set.map Flag.byte ++ byte :: rest) := by
        cases flag <;> simp +decide [flagsLoop, setFlags]
      rw [List.map_cons, List.cons_append, step, ih]
      cases flag <;> simp [setFlags]

end Flags

section Numbers

variable {rest : Bytes} {byte : UInt8}

def digitByte (digit : Nat) : UInt8 := UInt8.ofNat (digit + 48)

theorem digit_byte_value {digit : Nat} (small : digit < 10) :
    isDigit (digitByte digit) = true ∧ (digitByte digit - chr '0').toNat = digit ∧ digitByte digit ≠ chr '*' ∧
      (digit ≠ 0 → NoFlag (digitByte digit)) := by
  unfold NoFlag
  revert digit
  decide

theorem fold_grows (digits : List Nat) (n : Nat) : n ≤ digits.foldl (fun n digit => n * 10 + digit) n := by
  induction digits generalizing n with
  | nil => exact Nat.le_refl _
  | cons digit digits ih =>
      have more := ih (n * 10 + digit)
      rw [List.foldl_cons]
      omega

theorem number_loop_eq (rest : Bytes) (digits : List Nat) (small : ∀ digit ∈ digits, digit < 10) (n : Nat)
    (fits : digits.foldl (fun n digit => n * 10 + digit) n ≤ 2147483647) (other : isDigit byte = false) :
    numberLoop n (digits.map digitByte ++ byte :: rest) =
      .ok (some ((digits.foldl (fun n digit => n * 10 + digit) n : Nat), byte :: rest)) := by
  induction digits generalizing n with
  | nil => simp [numberLoop, other]
  | cons digit digits ih =>
      obtain ⟨isOne, value, _⟩ := digit_byte_value (small digit List.mem_cons_self)
      rw [List.foldl_cons] at fits ⊢
      have bound := fold_grows digits (n * 10 + digit)
      have first : checked ((n : Int) * 10) = .ok ((n : Int) * 10) := checked_ok (by omega) (by unfold intMax; omega)
      have second : checked ((n : Int) * 10 + digit) = .ok ((n : Int) * 10 + digit) := checked_ok (by omega) (by unfold intMax; omega)
      have next := ih (fun d member => small d (List.mem_cons_of_mem _ member)) (n * 10 + digit) fits
      rw [List.map_cons, List.cons_append, numberLoop, if_pos isOne, first, bind_ok, value, second, bind_ok, ← next]
      push_cast
      rfl

theorem decimal_eq (n : Nat) : decimal n = (Nat.digits 10 n).reverse.map digitByte := rfl

theorem decimal_value (n : Nat) : (Nat.digits 10 n).reverse.foldl (fun n digit => n * 10 + digit) 0 = n := by
  rw [List.foldl_reverse]
  have sum := Nat.ofDigits_digits 10 n
  rw [Nat.ofDigits_eq_foldr] at sum
  simpa [mul_comm, add_comm] using sum

theorem decimal_small (n : Nat) : ∀ digit ∈ (Nat.digits 10 n).reverse, digit < 10 := by
  intro digit member
  exact Nat.digits_lt_base (by decide) (List.mem_reverse.mp member)

theorem number_decimal (rest : Bytes) (zeros n : Nat) (fits : n ≤ 2147483647) (other : isDigit byte = false) :
    numberLoop 0 (List.replicate zeros (chr '0') ++ decimal n ++ byte :: rest) = .ok (some ((n : Int), byte :: rest)) := by
  have digits : List.replicate zeros (chr '0') ++ decimal n = (List.replicate zeros 0 ++ (Nat.digits 10 n).reverse).map digitByte := by
    rw [List.map_append, List.map_replicate, decimal_eq]
    rfl
  have skipped : ∀ k, (List.replicate k 0).foldl (fun n digit => n * 10 + digit) 0 = 0 := by
    intro k
    induction k with
    | zero => rfl
    | succ k ih => simpa [List.replicate_succ] using ih
  have value : (List.replicate zeros 0 ++ (Nat.digits 10 n).reverse).foldl (fun n digit => n * 10 + digit) 0 = n := by
    rw [List.foldl_append, skipped, decimal_value]
  have run := number_loop_eq rest (List.replicate zeros 0 ++ (Nat.digits 10 n).reverse) (by
    intro digit member
    rcases List.mem_append.mp member with zero | member
    · rw [List.eq_of_mem_replicate zero]
      decide
    · exact decimal_small n digit member) 0 (value.symm ▸ fits) other
  rw [value, ← digits] at run
  exact run

end Numbers

section Parts

variable {rest : Bytes} {byte : UInt8} {args : List Slot}

theorem decimal_head {n : Nat} (positive : 0 < n) :
    ∃ first more, decimal n = first :: more ∧ NoFlag first ∧ first ≠ chr '*' := by
  have some_ : n ≠ 0 := by omega
  have nonempty : Nat.digits 10 n ≠ [] := Nat.digits_ne_nil_iff_ne_zero.mpr some_
  have small := Nat.digits_lt_base (by decide : 1 < 10) (List.getLast_mem nonempty)
  have facts := digit_byte_value small
  refine ⟨digitByte ((Nat.digits 10 n).getLast nonempty), ((Nat.digits 10 n).dropLast.reverse).map digitByte, ?_, ?_, facts.2.2.1⟩
  · rw [decimal_eq, ← List.map_cons]
    congr 1
    conv_lhs => rw [← List.dropLast_append_getLast nonempty]
    rw [List.reverse_append]
    rfl
  · exact facts.2.2.2 (Nat.getLast_digit_ne_zero 10 some_)

-- The flags with the one that a negative width stands for.
def leftIf (flags : Flags) (negative : Prop) [Decidable negative] : Flags := if negative then { flags with left := true } else flags

theorem parse_width_eq (flags : Flags) (width : Width) (narrow : (width.value.natAbs : Int) ≤ intMax) (other : isDigit byte = false)
    (star : byte ≠ chr '*') :
    parseWidth flags (width.bytes ++ byte :: rest) (width.args ++ args) =
      .ok (some (⟨leftIf flags (width.value < 0), width.value.natAbs, -1⟩, byte :: rest, args)) := by
  cases width with
  | absent =>
      have head : (byte :: rest).head? ≠ some (chr '*') := by simpa using star
      have run := number_loop_eq rest [] (by simp) 0 (by simp) other
      rw [List.map_nil, List.nil_append, List.foldl_nil, Nat.cast_zero] at run
      change parseWidth flags (byte :: rest) args = _
      rw [parseWidth, if_neg head, run, bind_ok]
      simp [leftIf, Width.value]
  | literal n positive fits =>
      obtain ⟨first, more, same, _, notStar⟩ := decimal_head positive
      have head : (decimal n ++ byte :: rest).head? ≠ some (chr '*') := by
        rw [same]
        simpa using notStar
      have run := number_decimal rest 0 n fits other
      rw [List.replicate_zero, List.nil_append] at run
      have sign : ¬ ((n : Int) < 0) := by omega
      change parseWidth flags (decimal n ++ byte :: rest) args = _
      rw [parseWidth, if_neg head, run, bind_ok]
      simp [leftIf, Width.value, sign]
  | star slot =>
      simp only [Width.value] at narrow ⊢
      have taken : vaArgInt (slot :: args) = .ok (slotInt slot, args) := rfl
      change parseWidth flags (chr '*' :: byte :: rest) (slot :: args) = _
      rw [parseWidth, if_pos (by simp), taken, bind_ok]
      by_cases negative : slotInt slot < 0
      · have turned : checked (-slotInt slot) = .ok (-slotInt slot) := checked_ok (by omega) (by omega)
        have size : ((slotInt slot).natAbs : Int) = -slotInt slot := by omega
        simp only [negative, if_true, turned, bind_ok, leftIf, size]
        rfl
      · have size : ((slotInt slot).natAbs : Int) = slotInt slot := by omega
        simp only [negative, if_false, leftIf, size]
        rfl

-- The precision as the parser leaves it.
def parsedPrecision : Precision → Int
  | .absent => -1
  | .literal _ n _ => n
  | .star slot => if slotInt slot < 0 then 1 else slotInt slot

theorem default_parsed (precision : Precision) :
    (if parsedPrecision precision < 0 then 1 else parsedPrecision precision) = ((precision.value.getD 1 : Nat) : Int) := by
  cases precision with
  | absent => rfl
  | literal zeros n fits => exact if_neg (by simp [parsedPrecision])
  | star slot =>
      simp only [parsedPrecision, Precision.value]
      by_cases negative : slotInt slot < 0
      · simp [negative]
      · simp [negative]
        omega

theorem parse_precision_eq (conversion : Conversion) (unset : conversion.precision = -1) (precision : Precision)
    (other : isDigit byte = false) (star : byte ≠ chr '*') (dot : byte ≠ chr '.') :
    parsePrecision conversion (precision.bytes ++ byte :: rest) (precision.args ++ args) =
      .ok (some (⟨{ conversion.flags with zero := conversion.flags.zero && decide (precision.bytes = []) }, conversion.width,
        parsedPrecision precision⟩, byte :: rest, args)) := by
  cases precision with
  | absent =>
      have head : (byte :: rest).head? ≠ some (chr '.') := by simpa using dot
      change parsePrecision conversion (byte :: rest) args = _
      rw [parsePrecision, if_pos head]
      simp [Precision.bytes, parsedPrecision, ← unset]
  | literal zeros n fits =>
      have head : (List.replicate zeros (chr '0') ++ decimal n ++ byte :: rest).head? ≠ some (chr '*') := by
        cases zeros with
        | zero =>
            by_cases none : n = 0
            · subst none
              simpa [decimal] using star
            · obtain ⟨first, more, same, _, notStar⟩ := decimal_head (by omega : 0 < n)
              simpa [same] using notStar
        | succ zeros =>
            have other : chr '0' ≠ chr '*' := by decide
            simpa [List.replicate_succ] using other
      have run := number_decimal rest zeros n fits other
      change parsePrecision conversion (chr '.' :: (List.replicate zeros (chr '0') ++ decimal n ++ byte :: rest)) args = _
      rw [parsePrecision, if_neg (by simp)]
      dsimp only [List.tail_cons]
      rw [if_neg head, run, bind_ok]
      simp [parsedPrecision, Precision.bytes]
  | star slot =>
      have taken : vaArgInt (slot :: args) = .ok (slotInt slot, args) := rfl
      change parsePrecision conversion (chr '.' :: chr '*' :: byte :: rest) (slot :: args) = _
      rw [parsePrecision, if_neg (by simp)]
      dsimp only [List.tail_cons]
      rw [if_pos (by simp), taken, bind_ok]
      simp [parsedPrecision, Precision.bytes]

end Parts

section ReadParts

-- The labels of a directive up to lbl_length.
def readParts (rest : Bytes) (args : List Slot) : Except Fault (Option (Conversion × Bytes × List Slot)) := do
  match flagsLoop noFlags rest with
  | none => .ok none
  | some (flags, rest) =>
    match ← parseWidth flags rest args with
    | none => .ok none
    | some (conversion, rest, args) => parsePrecision conversion rest args

theorem directive_parts (text : Slot → Bytes) (rest : Bytes) (args : List Slot) :
    directive text rest args = readParts rest args >>= fun parts =>
      match parts with
      | none => .ok .done
      | some (conversion, rest, args) => printDirective text conversion rest args := by
  unfold directive readParts
  cases flagsLoop noFlags rest with
  | none => rfl
  | some pair =>
      dsimp only
      cases parseWidth pair.1 pair.2 args with
      | error fault => rfl
      | ok wide =>
          cases wide with
          | none => rfl
          | some triple => rfl

-- A byte that ends the flags, the width and the precision.
def EndsParts (byte : UInt8) : Prop := NoFlag byte ∧ isDigit byte = false ∧ byte ≠ chr '*' ∧ byte ≠ chr '.'

instance (byte : UInt8) : Decidable (EndsParts byte) := inferInstanceAs (Decidable (_ ∧ _))

-- The conversion as it is read.
def partsConversion (flags : List Flag) (width : Width) (precision : Precision) : Conversion where
  flags := { leftIf (settleFlags (setFlags noFlags flags)) (width.value < 0) with
    zero := (leftIf (settleFlags (setFlags noFlags flags)) (width.value < 0)).zero && decide (precision.bytes = []) }
  width := width.value.natAbs
  precision := parsedPrecision precision

-- The width and the precision do not start with a flag.
theorem parts_heads (width : Width) (precision : Precision) {byte : UInt8} (ends : EndsParts byte) (rest : Bytes) :
    ∃ second after, precision.bytes ++ byte :: rest = second :: after ∧ isDigit second = false ∧ second ≠ chr '*' ∧
      ∃ first later, width.bytes ++ second :: after = first :: later ∧ NoFlag first := by
  obtain ⟨noFlag, noDigit, noStar, _⟩ := ends
  obtain ⟨second, after, same, secondFlag, secondDigit, secondStar⟩ : ∃ second after, precision.bytes ++ byte :: rest = second :: after ∧
      NoFlag second ∧ isDigit second = false ∧ second ≠ chr '*' := by
    cases precision with
    | absent => exact ⟨byte, rest, rfl, noFlag, noDigit, noStar⟩
    | literal zeros n fits => exact ⟨_, _, rfl, by decide⟩
    | star slot => exact ⟨_, _, rfl, by decide⟩
  refine ⟨second, after, same, secondDigit, secondStar, ?_⟩
  cases width with
  | absent => exact ⟨second, after, rfl, secondFlag⟩
  | literal n positive fits =>
      obtain ⟨head, digits, spelling, plain, _⟩ := decimal_head positive
      exact ⟨head, digits ++ second :: after, by simp [Width.bytes, spelling], plain⟩
  | star slot => exact ⟨_, _, rfl, by decide⟩

theorem read_parts_eq (flags : List Flag) (width : Width) (precision : Precision) {byte : UInt8} (ends : EndsParts byte) (rest : Bytes)
    (args : List Slot) (narrow : (width.value.natAbs : Int) ≤ intMax) :
    readParts (flags.map Flag.byte ++ (width.bytes ++ (precision.bytes ++ byte :: rest))) (width.args ++ (precision.args ++ args)) =
      .ok (some (partsConversion flags width precision, byte :: rest, args)) := by
  obtain ⟨second, after, afterWidth, secondDigit, secondStar, first, later, afterFlags, firstFlag⟩ := parts_heads width precision ends rest
  obtain ⟨_, noDigit, noStar, noDot⟩ := ends
  unfold readParts
  rw [afterWidth, afterFlags, flags_loop_eq _ _ _ _ firstFlag]
  dsimp only
  rw [← afterFlags, parse_width_eq _ _ narrow secondDigit secondStar, bind_ok]
  dsimp only
  rw [← afterWidth, parse_precision_eq _ rfl _ noDigit noStar noDot]
  rfl

theorem read_parts_wide (flags : List Flag) (width : Width) (precision : Precision) {byte : UInt8} (ends : EndsParts byte) (rest : Bytes)
    (args : List Slot) (wide : ¬ (width.value.natAbs : Int) ≤ intMax) :
    readParts (flags.map Flag.byte ++ (width.bytes ++ (precision.bytes ++ byte :: rest))) (width.args ++ (precision.args ++ args)) =
      .error .undefined := by
  obtain ⟨second, after, afterWidth, _, _, first, later, afterFlags, firstFlag⟩ := parts_heads width precision ends rest
  unfold readParts
  rw [afterWidth, afterFlags, flags_loop_eq _ _ _ _ firstFlag]
  dsimp only
  rw [← afterFlags]
  cases width with
  | absent => exact absurd (show ((0 : Int).natAbs : Int) ≤ intMax by decide) wide
  | literal n positive fits =>
      refine absurd ?_ wide
      simp only [Width.value, Int.natAbs_natCast, intMax]
      omega
  | star slot =>
      simp only [Width.value, intMax] at wide
      have low := (slot.truncate 32).le_toInt
      have high := (slot.truncate 32).toInt_lt
      have least : slotInt slot = -2147483648 := by
        unfold slotInt at wide ⊢
        omega
      have taken : vaArgInt (slot :: (precision.args ++ args)) = .ok (slotInt slot, precision.args ++ args) := rfl
      show parseWidth _ (chr '*' :: second :: after) (slot :: (precision.args ++ args)) >>= _ = _
      rw [parseWidth, if_pos (by simp), taken, least]
      rfl

end ReadParts

section Specifiers

def Length.lengthPrefix : Length → LengthPrefix
  | .absent => .none
  | .h => .h
  | .hh => .hh
  | .l => .l
  | .ll => .ll
  | .j => .j
  | .z => .z
  | .t => .t

theorem parse_length_eq (length : Length) (specifier : Specifier) (rest : Bytes) :
    parseLength (length.bytes ++ specifier.byte :: rest) = (length.lengthPrefix, specifier.byte :: rest) := by
  cases length <;> cases specifier <;> rfl

-- The type that g_lookup gives for a length and a specifier.
def argType : Length → Bool → ArgType
  | .absent, signed => if signed then .int else .uint
  | .h, signed => if signed then .short else .ushort
  | .hh, signed => if signed then .char else .uchar
  | .l, signed => if signed then .long else .ulong
  | .ll, signed => if signed then .llong else .ullong
  | .j, signed => if signed then .intmax else .uintmax
  | .z, signed => if signed then .ssize else .size
  | .t, signed => if signed then .ptrdiff else .uptrdiff

-- The index into the row: a capital letter is taken for a small one.
def Specifier.index (specifier : Specifier) : UInt8 :=
  if specifier.byte < chr 'a' then specifier.byte + (chr 'a' - chr 'A') else specifier.byte

theorem index_letter (specifier : Specifier) : ¬ (specifier.index < chr 'a' ∨ chr 'z' < specifier.index) := by
  cases specifier <;> decide

theorem lookup_eq (length : Length) (specifier : Specifier) :
    (lookup length.lengthPrefix specifier.index <|> lookup .none specifier.index) = some (argType length specifier.signed) := by
  cases length <;> cases specifier <;> decide

theorem arg_type_taken (length : Length) (signed : Bool) : (argType length signed).taken = true := by
  cases length <;> cases signed <;> rfl

theorem fetch_eq (length : Length) (signed : Bool) (slot : Slot) :
    fetch (argType length signed) slot =
      if signed then (slot.truncate length.bits).signExtend 64 else (slot.truncate length.bits).zeroExtend 64 := by
  cases length <;> cases signed <;> simp [argType, fetch, Length.bits]

-- The head of what follows the precision ends every part before it.
theorem tail_head (length : Length) (specifier : Specifier) (rest : Bytes) :
    ∃ byte more, length.bytes ++ specifier.byte :: rest = byte :: more ∧ NoFlag byte ∧ isDigit byte = false ∧ byte ≠ chr '*' ∧ byte ≠ chr '.' := by
  cases length with
  | absent => exact ⟨specifier.byte, rest, rfl, by cases specifier <;> decide⟩
  | _ => exact ⟨_, _, rfl, by decide⟩

end Specifiers

namespace Directive

variable (d : Directive) (text : Slot → Bytes)

-- The argument as the switch over the specifier gets it.
def fetched : Slot := fetch (argType d.length d.specifier.signed) d.slot

theorem fetched_signed (signed : d.specifier.signed = true) : d.fetched.toInt = d.value := by
  have wide := d.bits_le
  rw [fetched, fetch_eq, if_pos signed, value, if_pos signed, BitVec.toInt_signExtend_of_le wide]

theorem fetched_unsigned (unsigned : d.specifier.signed = false) : d.fetched.toNat = d.magnitude := by
  have bound := (d.slot.truncate d.length.bits).isLt
  have wide : 2 ^ d.length.bits ≤ 2 ^ 64 := Nat.pow_le_pow_right (by decide) d.bits_le
  rw [fetched, fetch_eq, if_neg (by simp [unsigned]), magnitude, value, if_neg (by simp [unsigned]), Int.natAbs_natCast, BitVec.toNat_setWidth,
    Nat.mod_eq_of_lt (by omega)]

-- Negating the argument gives its absolute value, also for the least one.
theorem fetched_magnitude (signed : d.specifier.signed = true) :
    (if d.fetched.toInt < 0 then -d.fetched else d.fetched).toNat = d.magnitude := by
  have same := d.fetched_signed signed
  have conv := BitVec.toInt_eq_toNat_cond d.fetched
  have bound := d.fetched.isLt
  unfold magnitude
  rw [← same]
  split
  · rename_i negative
    rw [BitVec.toNat_neg]
    split at conv <;> omega
  · rename_i positive
    split at conv <;> omega

-- A conversion as the parser leaves it.
def Parsed (conversion : Conversion) : Prop := conversion.flags = d.conversion.flags ∧ defaultPrecision conversion = d.conversion

theorem number_signed (signed : d.specifier = .d ∨ d.specifier = .i) :
    d.number = ⟨false, false, false, 10, decide (d.value < 0),
      if .plus ∈ d.flags then 7 else if .space ∈ d.flags ∧ .plus ∉ d.flags then 9 else 0⟩ := by
  rcases signed with specifier | specifier <;> by_cases plus : .plus ∈ d.flags <;>
    simp [number, specifier, Specifier.radix, Specifier.signed, plus]

theorem print_conversion_eq {conversion : Conversion} (parsed : d.Parsed conversion) :
    printConversion text conversion d.specifier.byte d.fetched = (printNumber d.conversion d.number d.magnitude).map some := by
  obtain ⟨flags, whole⟩ := parsed
  have plus : conversion.flags.sign = decide (.plus ∈ d.flags) := by rw [flags]; rfl
  have space : conversion.flags.space = decide (.space ∈ d.flags ∧ .plus ∉ d.flags) := by rw [flags]; rfl
  have hash : conversion.flags.alternative = decide (.hash ∈ d.flags) := by rw [flags]; rfl
  cases specifier : d.specifier with
  | d =>
      have signed : d.specifier.signed = true := by rw [specifier]; rfl
      have value := d.fetched_magnitude signed
      have number := d.number_signed (.inl specifier)
      rw [← d.fetched_signed signed] at number
      simp +decide [printConversion, whole, value, number, plus, space]
  | i =>
      have signed : d.specifier.signed = true := by rw [specifier]; rfl
      have value := d.fetched_magnitude signed
      have number := d.number_signed (.inr specifier)
      rw [← d.fetched_signed signed] at number
      simp +decide [printConversion, whole, value, number, plus, space]
  | u =>
      have value := d.fetched_unsigned (by rw [specifier]; rfl)
      have number : d.number = ⟨false, false, false, 10, false, 0⟩ := by simp [Directive.number, specifier, Specifier.radix, Specifier.signed]
      simp +decide [printConversion, whole, value, number]
  | o =>
      have value := d.fetched_unsigned (by rw [specifier]; rfl)
      have number : d.number = ⟨false, decide (.hash ∈ d.flags), true, 8, false, 0⟩ := by
        simp [Directive.number, specifier, Specifier.radix, Specifier.signed]
      simp +decide [printConversion, whole, value, number, hash]
  | x =>
      have value := d.fetched_unsigned (by rw [specifier]; rfl)
      have number : d.number = ⟨false, false, true, 16, false, if .hash ∈ d.flags then 1 else 0⟩ := by
        simp [Directive.number, specifier, Specifier.radix, Specifier.signed]
      simp +decide [printConversion, whole, value, number, hash]
  | upperX =>
      have value := d.fetched_unsigned (by rw [specifier]; rfl)
      have number : d.number = ⟨true, false, true, 16, false, if .hash ∈ d.flags then 4 else 0⟩ := by
        simp [Directive.number, specifier, Specifier.radix, Specifier.signed]
      simp +decide [printConversion, whole, value, number, hash]

theorem print_directive_eq {conversion : Conversion} (parsed : d.Parsed conversion) (rest : Bytes) (args : List Slot) {out : Bytes}
    (printed : printNumber d.conversion d.number d.magnitude = .ok out) :
    printDirective text conversion (d.length.bytes ++ d.specifier.byte :: rest) (d.slot :: args) = .ok (.printed out rest args) := by
  have shown := d.print_conversion_eq text parsed
  rw [printed] at shown
  unfold printDirective
  rw [parse_length_eq]
  simp only
  rw [show (if d.specifier.byte < chr 'a' then d.specifier.byte + (chr 'a' - chr 'A') else d.specifier.byte) = d.specifier.index from rfl,
    if_neg (index_letter d.specifier), lookup_eq]
  simp only [arg_type_taken, if_true, vaArg, bind_ok]
  rw [show fetch (argType d.length d.specifier.signed) d.slot = d.fetched from rfl, shown]
  rfl

end Directive

end Elysium.Format
