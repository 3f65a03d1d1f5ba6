import Elysium.FormatNumber

set_option autoImplicit false

namespace Elysium.Format

namespace Directive

variable (d : Directive)

-- What the parser makes of a directive, with the default precision in place.
def conversion : Conversion where
  flags :=
    { left := d.left
      sign := .plus ∈ d.flags
      space := .space ∈ d.flags ∧ .plus ∉ d.flags
      alternative := .hash ∈ d.flags
      zero := .zero ∈ d.flags ∧ .minus ∉ d.flags ∧ d.precision.bytes = [] }
  width := d.width.value.natAbs
  precision := (d.precision.value.getD 1 : Nat)

-- What the code knows about the number from the specifier.
def number : Number where
  uppercase := d.specifier = .upperX
  leadingZero := d.specifier = .o ∧ .hash ∈ d.flags
  noPrefixOnZero := d.specifier = .x ∨ d.specifier = .upperX ∨ d.specifier = .o
  radix := d.specifier.radix
  negative := d.specifier.signed ∧ d.value < 0
  prefixOffset :=
    match d.specifier with
    | .x => if .hash ∈ d.flags then 1 else 0
    | .upperX => if .hash ∈ d.flags then 4 else 0
    | .d => if .plus ∈ d.flags then 7 else if .space ∈ d.flags then 9 else 0
    | .i => if .plus ∈ d.flags then 7 else if .space ∈ d.flags then 9 else 0
    | _ => 0

theorem radix_large : 1 < d.specifier.radix := by
  cases d.specifier <;> decide

theorem radix_small : d.specifier.radix ≤ 16 := by
  cases d.specifier <;> decide

theorem prefix_none : prefixAt 0 = [] := rfl

theorem prefix_hex : prefixAt 1 = [chr '0', chr 'x'] := rfl

theorem prefix_upper_hex : prefixAt 4 = [chr '0', chr 'X'] := rfl

theorem prefix_plus : prefixAt 7 = [chr '+'] := rfl

theorem prefix_space : prefixAt 9 = [chr ' '] := rfl

theorem sign_eq : signOf d.number d.magnitude = d.lead := by
  unfold signOf lead
  cases specifier : d.specifier with
  | d => by_cases minus : d.value < 0 <;> by_cases plus : .plus ∈ d.flags <;> by_cases space : .space ∈ d.flags <;>
      simp [number, specifier, Specifier.signed, minus, plus, space, prefix_none, prefix_plus, prefix_space]
  | i => by_cases minus : d.value < 0 <;> by_cases plus : .plus ∈ d.flags <;> by_cases space : .space ∈ d.flags <;>
      simp [number, specifier, Specifier.signed, minus, plus, space, prefix_none, prefix_plus, prefix_space]
  | u => simp [number, specifier, Specifier.signed, prefix_none]
  | o => simp [number, specifier, Specifier.signed, prefix_none]
  | x => by_cases hash : .hash ∈ d.flags <;> by_cases zero : d.magnitude = 0 <;>
      simp [number, specifier, Specifier.signed, hash, zero, prefix_none, prefix_hex]
  | upperX => by_cases hash : .hash ∈ d.flags <;> by_cases zero : d.magnitude = 0 <;>
      simp [number, specifier, Specifier.signed, hash, zero, prefix_none, prefix_upper_hex]

theorem numeral_eq {digit : Nat} (small : digit < d.specifier.radix) : digitChar d.number.uppercase (digit % 256) = d.numeral digit := by
  have bound := d.radix_small
  have lower : ∀ n < 16, digitChar false (n % 256) = ("0123456789abcdef".toList.map chr).getD n 0 := by decide
  have upper : ∀ n < 16, digitChar true (n % 256) = ("0123456789ABCDEF".toList.map chr).getD n 0 := by decide
  unfold numeral
  by_cases big : d.specifier = .upperX
  · simp only [number, big, decide_true, if_pos]
    exact upper digit (by omega)
  · simp only [number, big, decide_false, if_neg, not_false_eq_true]
    exact lower digit (by omega)

-- The digits of the magnitude, as the code maps them.
theorem mapped_digits : (Nat.digits d.specifier.radix d.magnitude).reverse.map (fun digit => digitChar d.number.uppercase (digit % 256)) =
    (Nat.digits d.specifier.radix d.magnitude).reverse.map d.numeral := by
  apply List.map_congr_left
  intro digit member
  exact d.numeral_eq (Nat.digits_lt_base d.radix_large (List.mem_reverse.mp member))

-- The highest digit is no zero.
theorem first_numeral (some_ : d.magnitude ≠ 0) :
    ((Nat.digits d.specifier.radix d.magnitude).reverse.map d.numeral).head? ≠ some (chr '0') := by
  have nonempty : Nat.digits d.specifier.radix d.magnitude ≠ [] := Nat.digits_ne_nil_iff_ne_zero.mpr some_
  have highest := Nat.getLast_digit_ne_zero d.specifier.radix some_
  have bound := Nat.digits_lt_base d.radix_large (List.getLast_mem nonempty)
  have below := d.radix_small
  rw [List.head?_map, List.head?_reverse, List.getLast?_eq_some_getLast nonempty, Option.map_some, ne_eq, Option.some.injEq]
  generalize (Nat.digits d.specifier.radix d.magnitude).getLast nonempty = digit at highest bound
  have other : ∀ big : Bool, ∀ n < 16, n ≠ 0 →
      ((if big = true then "0123456789ABCDEF" else "0123456789abcdef").toList.map chr).getD n 0 ≠ chr '0' := by decide
  unfold numeral
  simpa using other (decide (d.specifier = .upperX)) digit (by omega) highest

-- How many digits there are at least.
def atLeast : Nat := d.precision.value.getD 1

-- A zero with no digits, which the alternative octal form would have to show.
def Vanishes : Prop := d.specifier = .o ∧ .hash ∈ d.flags ∧ d.atLeast = 0 ∧ d.magnitude = 0

def full : Bytes := fullDigits d.number d.atLeast d.magnitude

def pad : Int := padFor d.number d.atLeast d.magnitude d.full.length

-- The padding without and with the zero of the alternative form.
theorem pad_for_plain {number : Number} {value p n : Nat} (plain : number.leadingZero = true → value = 0 ∧ number.noPrefixOnZero = true) :
    padFor number p value n = (p - n : Nat) := by
  have usual : (if (p : Int) > n then (p : Int) - n else 0) = (p - n : Nat) := by
    split <;> omega
  unfold padFor
  rw [usual]
  refine if_neg ?_
  rintro ⟨_, leads, shown⟩
  obtain ⟨zero, none⟩ := plain leads
  rcases shown with some_ | given
  · exact some_ zero
  · exact given none

theorem pad_for_leading {number : Number} {value p n : Nat} (leads : number.leadingZero = true) (some_ : value ≠ 0) :
    padFor number p value n = if p - n = 0 then (1 : Int) else ((p - n : Nat) : Int) := by
  have usual : (if (p : Int) > n then (p : Int) - n else 0) = (p - n : Nat) := by
    split <;> omega
  unfold padFor
  rw [usual]
  simp only [leads, some_, ne_eq, not_false_eq_true, true_or, and_true, Int.natCast_eq_zero]

theorem number_octal (leads : d.number.leadingZero = true) : d.specifier = .o ∧ .hash ∈ d.flags ∧ d.number.noPrefixOnZero = true := by
  have octal : d.specifier = .o ∧ .hash ∈ d.flags := by simpa [number] using leads
  exact ⟨octal.1, octal.2, by simp [number, octal.1]⟩

theorem digits_zero (zero : d.magnitude = 0) (shows : ¬ d.Vanishes) : List.replicate d.pad.toNat (chr '0') ++ d.full = d.digits := by
  have plain : d.plainDigits = List.replicate d.atLeast (chr '0') := by
    simp [plainDigits, zero, atLeast]
  have rest : d.pad = (d.atLeast - d.full.length : Nat) := pad_for_plain fun leads => ⟨zero, (d.number_octal leads).2.2⟩
  by_cases none : d.atLeast = 0
  · have short : d.full = [] := by
      simp [full, fullDigits, zero, none]
    have same : d.digits = [] := by
      rw [digits, plain, none]
      exact if_neg fun alternative => shows ⟨alternative.1, alternative.2.1, none, zero⟩
    simp [short, rest, same, none]
  · have one : d.full = [chr '0'] := by
      simp [full, fullDigits, zero, none]
    have same : d.digits = List.replicate d.atLeast (chr '0') := by
      rw [digits, plain]
      refine if_neg fun alternative => alternative.2.2 ?_
      rw [List.head?_replicate, if_neg none]
    rw [rest, one, same, Int.toNat_natCast, List.length_singleton, ← List.replicate_succ', Nat.sub_add_cancel (by omega)]

theorem digits_some (some_ : d.magnitude ≠ 0) : List.replicate d.pad.toNat (chr '0') ++ d.full = d.digits := by
  have shown : d.full = (Nat.digits d.specifier.radix d.magnitude).reverse.map d.numeral := by
    rw [full, fullDigits, if_neg some_]
    exact d.mapped_digits
  have plain : d.plainDigits = List.replicate (d.atLeast - d.full.length) (chr '0') ++ d.full := by
    rw [shown]
    rfl
  by_cases leads : d.number.leadingZero = true
  · obtain ⟨octal, hash, _⟩ := d.number_octal leads
    have rest : d.pad = if d.atLeast - d.full.length = 0 then (1 : Int) else ((d.atLeast - d.full.length : Nat) : Int) :=
      pad_for_leading leads some_
    rw [digits]
    by_cases enough : d.atLeast - d.full.length = 0
    · rw [if_pos enough] at rest
      have first : d.plainDigits = d.full := by simp [plain, enough]
      rw [first, if_pos ⟨octal, hash, shown ▸ d.first_numeral some_⟩, rest]
      rfl
    · rw [if_neg enough] at rest
      rw [if_neg, plain, rest, Int.toNat_natCast]
      rintro ⟨_, _, other⟩
      apply other
      rw [plain, List.head?_append, List.head?_replicate, if_neg enough]
      rfl
  · have rest : d.pad = (d.atLeast - d.full.length : Nat) := pad_for_plain fun given => absurd given leads
    rw [digits, if_neg, plain, rest, Int.toNat_natCast]
    rintro ⟨octal, hash, _⟩
    exact leads (by simp [number, octal, hash])

-- The zeros and the digits that the code makes room for are the prescribed ones.
theorem digits_eq (shows : ¬ d.Vanishes) : List.replicate d.pad.toNat (chr '0') ++ d.full = d.digits := by
  by_cases zero : d.magnitude = 0
  · exact d.digits_zero zero shows
  · exact d.digits_some zero

theorem at_least_zero : d.atLeast = 0 ↔ d.precision.value = some 0 := by
  unfold atLeast
  cases d.precision.value <;> simp

theorem pad_nonneg : 0 ≤ d.pad := pad_for_nonneg _ _ _ _

-- How long the sign and the digits are.
def bodyLength : Nat := (d.lead ++ d.digits).length

theorem body_length (shows : ¬ d.Vanishes) : (d.full.length : Int) + d.pad + d.lead.length = d.bodyLength := by
  have low := d.pad_nonneg
  rw [bodyLength, ← d.digits_eq shows, List.length_append, List.length_append, List.length_replicate]
  omega

theorem padding_eq (byte : UInt8) (n w : Nat) : padding byte n w = List.replicate (w - n) byte := by
  rw [padding, Int.toNat_sub]

-- Without a body there is neither a digit nor a zero.
theorem body_empty (shows : ¬ d.Vanishes) : d.bodyLength = 0 ↔ d.lead = [] ∧ d.atLeast = 0 ∧ d.magnitude = 0 := by
  have digits := d.digits_eq shows
  constructor
  · intro empty
    rw [bodyLength, List.length_append, Nat.add_eq_zero_iff, List.length_eq_zero_iff, List.length_eq_zero_iff] at empty
    have none : d.full = [] := by
      rw [empty.2] at digits
      exact (List.append_eq_nil_iff.mp digits).2
    refine ⟨empty.1, ?_⟩
    unfold full fullDigits at none
    split at none
    · rename_i zero
      split at none
      · cases none
      · rename_i given
        exact ⟨by simpa using given, zero⟩
    · rename_i some_
      exact absurd (by simpa using none) (Nat.digits_ne_nil_iff_ne_zero.mpr some_)
  · rintro ⟨lead, none, zero⟩
    have short : d.full = [] := by
      simp [full, fullDigits, zero, none]
    have rest : d.pad = (d.atLeast - d.full.length : Nat) := pad_for_plain fun leads => ⟨zero, (d.number_octal leads).2.2⟩
    simp [bodyLength, ← digits, lead, short, rest, none]

-- What the code writes, given what it shows of the digits.
def written (shown : Bytes) : Bytes :=
  arranged d.conversion d.bodyLength d.lead (List.replicate d.pad.toNat (chr '0')) shown

-- The characters that are missing to the width.
def missing : Nat := d.width.value.natAbs - d.bodyLength

theorem written_eq (shown : Bytes) : d.written shown =
    if d.bodyLength = 0 then if ¬ (d.left ∨ d.conversion.flags.zero) then List.replicate d.missing (chr ' ') else []
    else (if ¬ (d.left ∨ d.conversion.flags.zero) then List.replicate d.missing (chr ' ') else []) ++ d.lead ++
      (if d.conversion.flags.zero ∧ ¬ d.left then List.replicate d.missing (chr '0') else []) ++ List.replicate d.pad.toNat (chr '0') ++
      shown ++ if d.left then List.replicate d.missing (chr ' ') else [] := by
  have width : d.conversion.width = ((d.width.value.natAbs : Nat) : Int) := rfl
  have left : d.conversion.flags.left = d.left := rfl
  simp only [written, arranged, width, left, padding_eq, Int.natCast_eq_zero, missing]

-- Padding with spaces in place of zeros shows, whatever the sign is.
theorem spaces_ne_zeros (k : Nat) (lead digits : Bytes) (some_ : k ≠ 0) :
    List.replicate k (chr ' ') ++ (lead ++ digits) ≠ lead ++ List.replicate k (chr '0') ++ digits := by
  intro equal
  have counts := congrArg (List.count (chr '0')) equal
  have other : List.count (chr '0') (List.replicate k (chr ' ')) = 0 := by
    rw [List.count_replicate]
    rfl
  rw [List.count_append, List.count_append, List.count_append, List.count_append, other, List.count_replicate_self] at counts
  omega

section Layout

variable {d} {shown : Bytes} (shows : ¬ d.Vanishes) (shorter : shown.length ≤ d.full.length)
  (same : shown = d.full ↔ ¬ (d.atLeast = 0 ∧ d.magnitude ≠ 0 ∧ d.magnitude % d.specifier.radix = 0))

include shows shorter same

theorem written_left (left : d.left = true) : (d.written shown).length ≤ d.text.length ∧ (d.written shown = d.text ↔ d.Sound) := by
  have digits := d.digits_eq shows
  have text : d.text = d.lead ++ d.digits ++ List.replicate d.missing (chr ' ') := if_pos left
  by_cases empty : d.bodyLength = 0
  · obtain ⟨lead, none, zero⟩ := (d.body_empty shows).mp empty
    have out : d.written shown = [] := by
      rw [written_eq, if_pos empty]
      simp [left]
    have body : d.lead ++ d.digits = [] := List.length_eq_zero_iff.mp empty
    rw [out, text, body, missing, empty]
    refine ⟨Nat.zero_le _, ?_⟩
    constructor
    · intro nothing
      have narrow : d.width.value.natAbs = 0 := by simpa using nothing.symm
      refine ⟨fun _ some_ => absurd zero some_, fun _ _ _ _ => Int.natAbs_eq_zero.mp narrow, fun octal hash _ => ?_, ?_⟩
      · exact absurd ⟨octal, hash, none, zero⟩ shows
      · intro _ _ _ _ right
        rw [left] at right
        cases right
    · intro sound
      rw [sound.empty (d.at_least_zero.mp none) zero lead left]
      rfl
  · have out : d.written shown = d.lead ++ (List.replicate d.pad.toNat (chr '0') ++ shown) ++
        List.replicate d.missing (chr ' ') := by
      rw [written_eq, if_neg empty]
      simp [left]
    rw [out, text, ← digits]
    refine ⟨by simp; omega, ?_⟩
    rw [List.append_left_inj, List.append_right_inj, List.append_right_inj, same]
    constructor
    · intro kept
      refine ⟨fun none some_ lost => kept ⟨d.at_least_zero.mpr none, some_, lost⟩, ?_, ?_, ?_⟩
      · intro none zero lead _
        exact absurd ((d.body_empty shows).mpr ⟨lead, d.at_least_zero.mpr none, zero⟩) empty
      · intro octal hash none zero
        exact shows ⟨octal, hash, d.at_least_zero.mpr none, zero⟩
      · intro _ _ _ _ right
        rw [left] at right
        cases right
    · rintro sound ⟨none, some_, lost⟩
      exact sound.trailing (d.at_least_zero.mp none) some_ lost

omit same in
-- Aligned to the right the parts are always put together in full.
theorem written_right (right : d.left = false) (spaces : d.conversion.flags.zero = false) :
    d.written shown = List.replicate d.missing (chr ' ') ++ (d.lead ++ (List.replicate d.pad.toNat (chr '0') ++ shown)) := by
  rw [written_eq]
  by_cases empty : d.bodyLength = 0
  · obtain ⟨lead, none, zero⟩ := (d.body_empty shows).mp empty
    have digits := d.digits_eq shows
    have body : d.lead ++ d.digits = [] := List.length_eq_zero_iff.mp empty
    rw [lead, List.nil_append, ← digits, List.append_eq_nil_iff] at body
    have nothing : shown = [] := by
      rw [body.2] at shorter
      exact List.length_eq_zero_iff.mp (Nat.le_zero.mp shorter)
    simp [empty, right, spaces, lead, body.1, nothing]
  · simp [empty, right, spaces]

omit shorter in
theorem sound_of_kept (right : d.left = false) (plain : ¬ (.zero ∈ d.flags ∧ d.precision.value = none)) : shown = d.full ↔ d.Sound := by
  rw [same]
  constructor
  · intro kept
    refine ⟨fun none some_ lost => kept ⟨d.at_least_zero.mpr none, some_, lost⟩, ?_, ?_, ?_⟩
    · intro _ _ _ left
      rw [right] at left
      cases left
    · intro octal hash none zero
      exact shows ⟨octal, hash, d.at_least_zero.mpr none, zero⟩
    · intro slot star negative zero _
      refine absurd ⟨zero, ?_⟩ plain
      rw [star, Precision.value, if_pos negative]
  · rintro sound ⟨none, some_, lost⟩
    exact sound.trailing (d.at_least_zero.mp none) some_ lost

theorem written_spaces (right : d.left = false) (plain : ¬ (.zero ∈ d.flags ∧ d.precision.value = none)) :
    (d.written shown).length ≤ d.text.length ∧ (d.written shown = d.text ↔ d.Sound) := by
  have spaces : d.conversion.flags.zero = false := by
    simp only [conversion, decide_eq_false_iff_not]
    rintro ⟨zero, _, bytes⟩
    refine plain ⟨zero, ?_⟩
    cases precision : d.precision <;> simp_all [Precision.bytes, Precision.value]
  have text : d.text = List.replicate d.missing (chr ' ') ++ (d.lead ++ d.digits) := by
    rw [Directive.text]
    exact (if_neg (by simp [right])).trans (if_neg plain)
  rw [written_right shows shorter right spaces, text, ← d.digits_eq shows]
  refine ⟨by simp; omega, ?_⟩
  rw [List.append_right_inj, List.append_right_inj, List.append_right_inj]
  exact sound_of_kept shows same right plain

theorem written_zeros (right : d.left = false) (zero : .zero ∈ d.flags) (omitted : d.precision.value = none) :
    (d.written shown).length ≤ d.text.length ∧ (d.written shown = d.text ↔ d.Sound) := by
  have one : d.atLeast = 1 := by
    rw [atLeast, omitted]
    rfl
  have all : shown = d.full := same.mpr fun bad => by omega
  have text : d.text = d.lead ++ List.replicate d.missing (chr '0') ++ d.digits := by
    rw [Directive.text]
    exact (if_neg (by simp [right])).trans (if_pos ⟨zero, omitted⟩)
  have digits := d.digits_eq shows
  have filled : ¬ d.bodyLength = 0 := fun empty => by
    have none := ((d.body_empty shows).mp empty).2.1
    omega
  have sound : d.Sound ↔ ∀ slot, d.precision = .star slot → slotInt slot < 0 → d.missing = 0 := by
    constructor
    · intro sound slot star negative
      have wide := sound.zeroes slot star negative zero right
      unfold missing bodyLength
      omega
    · intro narrow
      refine ⟨by simp [omitted], by simp [omitted], by simp [omitted], ?_⟩
      intro slot star negative _ _
      have nothing := narrow slot star negative
      unfold missing bodyLength at nothing
      omega
  rw [sound, text]
  cases precision : d.precision with
  | absent =>
      have flag : d.conversion.flags.zero = true := by
        have noMinus : .minus ∉ d.flags := by
          intro minus
          simp [left, minus] at right
        simp [conversion, zero, noMinus, precision, Precision.bytes]
      have out : d.written shown = d.lead ++ List.replicate d.missing (chr '0') ++ d.digits := by
        rw [written_eq, if_neg filled, all, ← digits]
        simp [right, flag, -List.replicate_append_replicate]
      rw [out]
      exact ⟨Nat.le_refl _, iff_of_true rfl fun slot star => by cases star⟩
  | literal zeros n fits =>
      rw [precision] at omitted
      cases omitted
  | star slot =>
      have negative : slotInt slot < 0 := by
        by_contra positive
        rw [precision, Precision.value, if_neg positive] at omitted
        cases omitted
      have spaces : d.conversion.flags.zero = false := by
        simp [conversion, precision, Precision.bytes]
      rw [written_right shows shorter right spaces, all, digits]
      refine ⟨by simp; omega, ?_⟩
      constructor
      · intro equal slot' star' _
        by_contra some_
        exact spaces_ne_zeros d.missing d.lead d.digits some_ equal
      · intro narrow
        rw [narrow slot rfl negative]
        simp

end Layout

-- The code shows nothing where a zero is prescribed.
theorem written_vanishes (vanishes : d.Vanishes) : d.full = [] ∧ d.pad = 0 ∧ d.lead = [] ∧
    (arranged d.conversion 0 [] [] []).length ≤ d.text.length ∧ arranged d.conversion 0 [] [] [] ≠ d.text ∧ ¬ d.Sound := by
  obtain ⟨octal, hash, none, zero⟩ := vanishes
  have given := d.at_least_zero.mp none
  have full : d.full = [] := by
    simp [Directive.full, fullDigits, zero, none]
  have rest : d.pad = 0 := by
    rw [pad, pad_for_plain fun leads => ⟨zero, (d.number_octal leads).2.2⟩, none, Nat.zero_sub]
    rfl
  have lead : d.lead = [] := by
    simp [Directive.lead, octal, Specifier.signed]
  have digits : d.digits = [chr '0'] := by
    have plain : d.plainDigits = [] := by simp [plainDigits, zero, given]
    simp [Directive.digits, plain, octal, hash]
  have flag : d.conversion.flags.zero = false := by
    simp only [conversion, decide_eq_false_iff_not]
    rintro ⟨_, _, bytes⟩
    cases precision : d.precision <;> simp_all [Precision.bytes, Precision.value]
  have width : d.conversion.width = ((d.width.value.natAbs : Nat) : Int) := rfl
  have alignment : d.conversion.flags.left = d.left := rfl
  have out : arranged d.conversion 0 [] [] [] = if d.left then [] else List.replicate d.width.value.natAbs (chr ' ') := by
    have pad := padding_eq (chr ' ') 0 d.width.value.natAbs
    rw [Nat.cast_zero, Nat.sub_zero] at pad
    simp only [arranged, flag, width, alignment, pad]
    cases d.left <;> simp
  have shown : chr '0' ∈ d.text := by
    unfold Directive.text
    rw [digits, lead]
    split
    · simp
    · split <;> simp
  refine ⟨full, rest, lead, ?_, ?_, fun sound => sound.octal octal hash given zero⟩
  · rw [out]
    split
    · exact Nat.zero_le _
    · rename_i right
      rw [Directive.text, if_neg right, digits, lead, if_neg (by simp [given])]
      simp
      omega
  · intro equal
    rw [← equal, out] at shown
    split at shown
    · cases shown
    · exact absurd (List.eq_of_mem_replicate shown) (by decide)

theorem bits_le : d.length.bits ≤ 64 := by
  cases d.length <;> decide

theorem magnitude_lt : d.magnitude < 2 ^ 64 := by
  have wide : 2 ^ d.length.bits ≤ 2 ^ 64 := Nat.pow_le_pow_right (by decide) d.bits_le
  unfold magnitude value
  split
  · have low := BitVec.le_two_mul_toInt (x := d.slot.truncate d.length.bits)
    have high := BitVec.two_mul_toInt_lt (x := d.slot.truncate d.length.bits)
    have widened : (2 : Int) ^ d.length.bits ≤ 2 ^ 64 := by exact_mod_cast wide
    omega
  · have bound := (d.slot.truncate d.length.bits).isLt
    omega

-- What the code writes for a directive is never longer than the prescribed text, and is that text exactly
-- where the directive is sound.
theorem print_number_text (short : (d.text.length : Int) ≤ intMax) :
    ∃ out, printNumber d.conversion d.number d.magnitude = .ok out ∧ out.length ≤ d.text.length ∧ (out = d.text ↔ d.Sound) := by
  by_cases vanishes : d.Vanishes
  · obtain ⟨full, rest, lead, shorter, differs, unsound⟩ := d.written_vanishes vanishes
    obtain ⟨shown, none, _, run⟩ := print_number_eq d.conversion d.number d.radix_large d.magnitude_lt (rfl : d.full = _) (rfl : d.pad = _)
      (by rw [full, rest, sign_eq, lead]; decide)
    rw [full, List.length_nil, Nat.le_zero, List.length_eq_zero_iff] at none
    rw [full, rest, sign_eq, lead, none] at run
    exact ⟨_, run, shorter, iff_of_false differs unsound⟩
  · have length := d.body_length vanishes
    have inside : d.bodyLength ≤ d.text.length := by
      unfold bodyLength text
      simp only [List.length_append]
      split
      · simp
      · split
        · simp
        · simp
    obtain ⟨shown, shorter, same, run⟩ := print_number_eq d.conversion d.number d.radix_large d.magnitude_lt (rfl : d.full = _) (rfl : d.pad = _)
      (by rw [sign_eq, length]; omega)
    rw [sign_eq, length] at run
    have kept : shown = d.full ↔ ¬ (d.atLeast = 0 ∧ d.magnitude ≠ 0 ∧ d.magnitude % d.specifier.radix = 0) := by
      rw [same]
      simp [conversion, number, atLeast]
    refine ⟨d.written shown, run, ?_⟩
    by_cases left : d.left = true
    · exact written_left vanishes shorter kept left
    · rw [Bool.not_eq_true] at left
      by_cases zeros : .zero ∈ d.flags ∧ d.precision.value = none
      · exact written_zeros vanishes shorter kept left zeros.1 zeros.2
      · exact written_spaces vanishes shorter kept left zeros

end Directive

end Elysium.Format
