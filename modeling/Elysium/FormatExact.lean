import Elysium.FormatParse

set_option autoImplicit false

namespace Elysium.Format

namespace Directive

variable (d : Directive) (text : Slot → Bytes)

theorem width_le_text : d.width.value.natAbs ≤ d.text.length := by
  unfold Directive.text
  simp only [List.length_append]
  split
  · simp
    omega
  · split
    · simp
      omega
    · simp
      omega

theorem parsed_flags :
    ({ leftIf (settleFlags (setFlags noFlags d.flags)) (d.width.value < 0) with
        zero := (leftIf (settleFlags (setFlags noFlags d.flags)) (d.width.value < 0)).zero && decide (d.precision.bytes = []) } : Flags) =
      d.conversion.flags := by
  unfold leftIf
  by_cases minus : .minus ∈ d.flags <;> by_cases plus : .plus ∈ d.flags <;> by_cases negative : d.width.value < 0 <;>
    simp [settleFlags, setFlags, noFlags, conversion, left, minus, plus, negative]

-- What follows the percent sign of a directive, up to what follows the directive.
theorem directive_eq (rest : Bytes) (args : List Slot) (short : (d.text.length : Int) ≤ intMax) :
    ∃ out, directive text (d.bytes.tail ++ rest) (d.args ++ args) = .ok (.printed out rest args) ∧ out.length ≤ d.text.length ∧
      (out = d.text ↔ d.Sound) := by
  obtain ⟨out, printed, shorter, same⟩ := d.print_number_text short
  refine ⟨out, ?_, shorter, same⟩
  obtain ⟨byte, more, tail, ends⟩ := tail_head d.length d.specifier rest
  have narrow : (d.width.value.natAbs : Int) ≤ intMax := by
    have wide := d.width_le_text
    omega
  have spelled : d.bytes.tail ++ rest = d.flags.map Flag.byte ++ (d.width.bytes ++ (d.precision.bytes ++ byte :: more)) := by
    rw [← tail]
    simp [bytes]
  have taken : d.args ++ args = d.width.args ++ (d.precision.args ++ d.slot :: args) := by
    simp [Directive.args]
  have parsed : d.Parsed (partsConversion d.flags d.width d.precision) :=
    ⟨d.parsed_flags, by
      unfold defaultPrecision partsConversion
      rw [d.parsed_flags, default_parsed]
      rfl⟩
  rw [directive_parts, spelled, taken, read_parts_eq d.flags d.width d.precision ends more _ narrow, bind_ok, ← tail]
  exact d.print_directive_eq text parsed rest args printed

end Directive

section Percent

theorem Flag.byte_ne_percent (flag : Flag) : flag.byte ≠ chr '%' := by
  cases flag <;> decide

theorem Specifier.byte_ne_percent (specifier : Specifier) : specifier.byte ≠ chr '%' := by
  cases specifier <;> decide

theorem decimal_ne_percent (n : Nat) : ∀ byte ∈ decimal n, byte ≠ chr '%' := by
  have numeral : ∀ digit < 10, UInt8.ofNat (digit + 48) ≠ chr '%' := by decide
  intro byte member
  obtain ⟨digit, digitMember, rfl⟩ := List.mem_map.mp member
  exact numeral digit (Nat.digits_lt_base (by decide : 1 < 10) (List.mem_reverse.mp digitMember))

theorem Width.bytes_ne_percent (width : Width) : ∀ byte ∈ width.bytes, byte ≠ chr '%' := by
  cases width with
  | absent => simp [Width.bytes]
  | literal n positive fits => exact decimal_ne_percent n
  | star slot => simp +decide [Width.bytes]

theorem Precision.bytes_ne_percent (precision : Precision) : ∀ byte ∈ precision.bytes, byte ≠ chr '%' := by
  cases precision with
  | absent => simp [Precision.bytes]
  | literal zeros n fits =>
      intro byte member
      simp only [Precision.bytes, List.mem_cons, List.mem_append, List.mem_replicate] at member
      rcases member with rfl | ⟨_, rfl⟩ | member
      · decide
      · decide
      · exact decimal_ne_percent n byte member
  | star slot =>
      intro byte member
      simp only [Precision.bytes, List.mem_cons, List.not_mem_nil, or_false] at member
      rcases member with rfl | rfl
      · decide
      · decide

theorem Length.bytes_ne_percent (length : Length) : ∀ byte ∈ length.bytes, byte ≠ chr '%' := by
  cases length <;> simp [Length.bytes] <;> decide

-- The percent sign of a directive is not followed by another one.
theorem Directive.second_ne_percent (d : Directive) (rest : Bytes) : (d.bytes.tail ++ rest).head? ≠ some (chr '%') := by
  have others : ∀ byte ∈ d.bytes.tail, byte ≠ chr '%' := by
    intro byte member
    simp only [Directive.bytes, List.tail_cons, List.mem_append, List.mem_map, List.mem_singleton] at member
    rcases member with (((⟨flag, _, rfl⟩ | member) | member) | member) | rfl
    · exact flag.byte_ne_percent
    · exact d.width.bytes_ne_percent byte member
    · exact d.precision.bytes_ne_percent byte member
    · exact d.length.bytes_ne_percent byte member
    · exact d.specifier.byte_ne_percent
  cases spelled : d.bytes.tail with
  | nil => simp [Directive.bytes] at spelled
  | cons byte more => simpa using others byte (by simp [spelled])

end Percent

section Loop

variable (text : Slot → Bytes)

-- One piece of the format string, and what is left to the rest of it.
theorem format_loop_piece (piece : Piece) (fuel : Nat) (rest : Bytes) (args : List Slot) (short : (piece.text.length : Int) ≤ intMax) :
    ∃ out, formatLoop text (fuel + 1) (piece.bytes ++ rest) (piece.args ++ args) =
        (do let later ← formatLoop text fuel rest args; .ok (out ++ later)) ∧
      out.length ≤ piece.text.length ∧ (out = piece.text ↔ piece.Sound) := by
  cases piece with
  | plain byte other inside => exact ⟨[byte], by simp [Piece.bytes, Piece.args, formatLoop, other], by simp [Piece.text, Piece.Sound]⟩
  | percent => exact ⟨[chr '%'], by simp [Piece.bytes, Piece.args, formatLoop], by simp [Piece.text, Piece.Sound]⟩
  | directive d =>
      obtain ⟨out, printed, shorter, same⟩ := d.directive_eq text rest args short
      have spelled : d.bytes ++ rest = chr '%' :: (d.bytes.tail ++ rest) := rfl
      have run : formatLoop text (fuel + 1) (d.bytes ++ rest) (d.args ++ args) =
          (do let later ← formatLoop text fuel rest args; .ok (out ++ later)) := by
        rw [spelled, formatLoop, if_pos rfl, if_neg (d.second_ne_percent rest), printed]
        rfl
      exact ⟨out, run, shorter, same⟩

-- The text of a whole format string.
def expected (pieces : List Piece) : Bytes := pieces.flatMap Piece.text

theorem Piece.bytes_length (piece : Piece) : 1 ≤ piece.bytes.length := by
  cases piece <;> simp [Piece.bytes, Directive.bytes]

-- No piece prints more than its text, so the whole is right only where each piece is.
theorem format_loop_pieces (pieces : List Piece) (more : List Slot) (fuel : Nat) (enough : (pieces.flatMap Piece.bytes).length < fuel)
    (short : ((expected pieces).length : Int) ≤ intMax) :
    ∃ out, formatLoop text fuel (pieces.flatMap Piece.bytes) (pieces.flatMap Piece.args ++ more) = .ok out ∧
      out.length ≤ (expected pieces).length ∧ (out = expected pieces ↔ ∀ piece ∈ pieces, piece.Sound) := by
  induction pieces generalizing fuel with
  | nil =>
      obtain ⟨fuel, rfl⟩ := Nat.exists_eq_succ_of_ne_zero (by omega : fuel ≠ 0)
      exact ⟨[], by simp [formatLoop], by simp [expected]⟩
  | cons piece pieces ih =>
      obtain ⟨fuel, rfl⟩ := Nat.exists_eq_succ_of_ne_zero (by omega : fuel ≠ 0)
      have total : (expected (piece :: pieces)).length = piece.text.length + (expected pieces).length := by simp [expected]
      have spent := piece.bytes_length
      simp only [List.flatMap_cons, List.length_append] at enough
      obtain ⟨later, rest, laterShorter, laterSame⟩ := ih fuel (by omega) (by omega)
      obtain ⟨out, step, shorter, same⟩ :=
        format_loop_piece text piece fuel (pieces.flatMap Piece.bytes) (pieces.flatMap Piece.args ++ more) (by omega)
      refine ⟨out ++ later, ?_, by simp only [total, List.length_append]; omega, ?_⟩
      · rw [List.flatMap_cons, List.flatMap_cons, List.append_assoc, step, rest]
        rfl
      · rw [List.forall_mem_cons, ← same, ← laterSame]
        constructor
        · intro equal
          have whole : out ++ later = piece.text ++ expected pieces := equal
          have sizes := congrArg List.length whole
          rw [List.length_append, List.length_append] at sizes
          exact List.append_inj whole (by omega)
        · rintro ⟨rfl, rfl⟩
          simp [expected]

end Loop

section Exact

variable (text : Slot → Bytes)

theorem count_le_int_max (n : Nat) : (BitVec.ofNat 32 n).toInt ≤ intMax := by
  have bound := (BitVec.ofNat 32 n).toInt_lt
  unfold intMax
  omega

theorem count_eq {n : Nat} (small : (n : Int) ≤ intMax) : (BitVec.ofNat 32 n).toInt = n := by
  unfold intMax at small
  have fits : n % 2 ^ 32 = n := Nat.mod_eq_of_lt (by omega)
  rw [BitVec.toInt_eq_toNat_of_lt (by rw [BitVec.toNat_ofNat, fits]; omega), BitVec.toNat_ofNat, fits]

-- The writer gets the prescribed text, and the caller its length.
theorem format_exact_iff (pieces : List Piece) (more : List Slot) :
    format text (pieces.flatMap Piece.bytes) (pieces.flatMap Piece.args ++ more) = .ok (expected pieces, ((expected pieces).length : Int)) ↔
      (∀ piece ∈ pieces, piece.Sound) ∧ (expected pieces).length ≤ 2147483647 := by
  by_cases short : (expected pieces).length ≤ 2147483647
  · obtain ⟨out, run, _, same⟩ := format_loop_pieces text pieces more _ (Nat.lt_succ_self _) (by unfold intMax; omega)
    have count : (BitVec.ofNat 32 (expected pieces).length).toInt = (expected pieces).length := count_eq (by unfold intMax; omega)
    have result : format text (pieces.flatMap Piece.bytes) (pieces.flatMap Piece.args ++ more) =
        .ok (out, (BitVec.ofNat 32 out.length).toInt) := by
      unfold format
      rw [run]
      rfl
    rw [result, ← same]
    constructor
    · intro equal
      exact ⟨congrArg Prod.fst (Except.ok.inj equal), short⟩
    · rintro ⟨rfl, _⟩
      rw [count]
  · constructor
    · intro equal
      unfold format at equal
      obtain ⟨written, _, result⟩ := (bind_eq_ok _ _ _).mp equal
      have parts := Prod.mk.inj (Except.ok.inj result)
      have bound := count_le_int_max written.length
      rw [parts.2] at bound
      unfold intMax at bound
      omega
    · exact fun both => absurd both.2 short

-- The number ten, with a precision of zero.
def tenWithoutPrecision : Directive := ⟨[], .absent, .literal 1 0 (by decide), .absent, .u, 10⟩

-- The digit loop ends with the value, so the trailing zero is lost.
theorem format_loses_trailing_zero :
    format (fun _ => []) tenWithoutPrecision.bytes tenWithoutPrecision.args = .ok ([chr '1'], 1) ∧
      tenWithoutPrecision.text = [chr '1', chr '0'] := by
  constructor
  · have spelled : tenWithoutPrecision.bytes = [chr '%', chr '.', chr '0', chr 'u'] := by
      simp [tenWithoutPrecision, Directive.bytes, Width.bytes, Precision.bytes, decimal, Length.bytes, Specifier.byte]
    rw [spelled]
    rfl
  · decide

end Exact

end Elysium.Format
