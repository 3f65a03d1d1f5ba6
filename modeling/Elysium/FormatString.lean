import Elysium.FormatExact

set_option autoImplicit false

namespace Elysium.Format

-- while(str[length]) ++length, in memory from the pointer on: the positions that are read, and the length.
def lengthLoop (str : Nat → UInt8) : Nat → Nat → List Nat × Except Fault Int
  | 0, _ => ([], .error .diverges)
  | fuel + 1, length =>
    if str length = 0 then ([length], .ok length)
    else if (length : Int) + 1 > intMax then ([length], .error .undefined)
    else (length :: (lengthLoop str fuel (length + 1)).1, (lengthLoop str fuel (length + 1)).2)

-- if(precision >= 0 && precision < length) length = precision.
def clampLength (conversion : Conversion) (length : Int) : Int :=
  if conversion.precision ≥ 0 ∧ conversion.precision < length then conversion.precision else length

def writeString (conversion : Conversion) (length : Int) (shown : Bytes) : Bytes :=
  let pad := padding (chr ' ') length conversion.width
  (if conversion.flags.left then [] else pad) ++ shown ++ if conversion.flags.left then pad else []

-- The case of s, with the positions of the argument that it reads.
def printBuffer (conversion : Conversion) (str : Nat → UInt8) : List Nat × Except Fault Bytes :=
  match lengthLoop str 2147483648 0 with
  | (reads, .error fault) => (reads, .error fault)
  | (reads, .ok length) =>
      let length := clampLength conversion length
      (reads ++ List.range length.toNat, .ok (writeString conversion length ((List.range length.toNat).map str)))

structure StringDirective where
  flags : List Flag
  width : Width
  precision : Precision
  length : Length
  slot : Slot

namespace StringDirective

variable (d : StringDirective)

-- Behind the percent sign.
def behind : Bytes := d.flags.map Flag.byte ++ (d.width.bytes ++ (d.precision.bytes ++ (d.length.bytes ++ [chr 's'])))

def args : List Slot := d.width.args ++ (d.precision.args ++ [d.slot])

-- What it reads of the argument, and what it writes.
def shown (str : Nat → UInt8) : List Nat × Except Fault Bytes :=
  match readParts d.behind d.args with
  | .error fault => ([], .error fault)
  | .ok none => ([], .ok [])
  | .ok (some (conversion, _, _)) => printBuffer conversion str

def left : Bool := .minus ∈ d.flags ∨ d.width.value < 0

def padded (bytes : Bytes) : Bytes :=
  let missing := d.width.value.natAbs - bytes.length
  if d.left then bytes ++ List.replicate missing (chr ' ') else List.replicate missing (chr ' ') ++ bytes

-- An int cannot hold the absolute value of the least width.
def Narrow : Prop := (d.width.value.natAbs : Int) ≤ intMax

-- The bytes before the first NUL among so many.
def firstBytes (str : Nat → UInt8) (p : Nat) : Bytes := ((List.range p).map str).takeWhile (· ≠ 0)

structure Respects (str : Nat → UInt8) : Prop where
  given : ∀ p, d.precision.value = some p → (∀ i ∈ (d.shown str).1, i < p) ∧ (d.shown str).2 = .ok (d.padded (firstBytes str p))
  negative : ∀ slot, d.precision = .star slot → slotInt slot < 0 →
    (∀ i, i ∈ (d.shown str).1 ↔ i ∈ (StringDirective.shown { d with precision := .absent } str).1) ∧
      (d.shown str).2 = (StringDirective.shown { d with precision := .absent } str).2

-- Where the code does: the NUL is among the bytes it may read; and after a negative precision there is no second
-- byte to cut off, or none but spaces, which the padding puts back.
structure Safe (str : Nat → UInt8) : Prop where
  given : ∀ p, d.precision.value = some p → d.Narrow ∧ ∃ i < p, str i = 0
  negative : ∀ slot, d.precision = .star slot → slotInt slot < 0 → d.Narrow → ∀ L ≤ 2147483647, str L = 0 → (∀ i < L, str i ≠ 0) →
    L ≤ 1 ∨ L ≤ d.width.value.natAbs ∧ ∀ i < L, (d.left = true → i ≠ 0) → str i = chr ' '

end StringDirective

section Proofs

variable {text : Slot → Bytes} {rest : Bytes} {args : List Slot} {str : Nat → UInt8}

theorem length_loop_found (fuel length : Nat) {L : Nat} (nul : str L = 0) (before : ∀ i < L, str i ≠ 0) (ahead : length ≤ L)
    (small : (L : Int) ≤ intMax) (enough : L - length < fuel) :
    lengthLoop str fuel length = (List.range' length (L - length + 1), .ok L) := by
  induction fuel generalizing length with
  | zero => exact absurd enough (Nat.not_lt_zero _)
  | succ fuel ih =>
      rw [lengthLoop]
      by_cases here : length = L
      · subst here
        rw [if_pos nul, Nat.sub_self]
        rfl
      · have whole : List.range' length (L - length + 1) = length :: List.range' (length + 1) (L - length) := List.range'_succ
        rw [if_neg (before length (by omega)), if_neg (by omega), ih (length + 1) (by omega) (by omega), whole,
          show L - (length + 1) + 1 = L - length by omega]

theorem length_loop_none (fuel length : Nat) (none : ∀ i ≤ 2147483647, str i ≠ 0) (ahead : length ≤ 2147483647)
    (enough : 2147483647 - length < fuel) :
    lengthLoop str fuel length = (List.range' length (2147483647 - length + 1), .error .undefined) := by
  induction fuel generalizing length with
  | zero => exact absurd enough (Nat.not_lt_zero _)
  | succ fuel ih =>
      rw [lengthLoop, if_neg (none length ahead)]
      by_cases last : length = 2147483647
      · subst last
        rw [if_pos (by decide), Nat.sub_self]
        rfl
      · have whole : List.range' length (2147483647 - length + 1) = length :: List.range' (length + 1) (2147483647 - length) :=
          List.range'_succ
        rw [if_neg (by unfold intMax; omega), ih (length + 1) (by omega) (by omega), whole,
          show 2147483647 - (length + 1) + 1 = 2147483647 - length by omega]

-- The memory behind a pointer has its first NUL at a position.
def NulAt (str : Nat → UInt8) (L : Nat) : Prop := str L = 0 ∧ ∀ i < L, str i ≠ 0

theorem nul_at_first (str : Nat → UInt8) {i : Nat} (nul : str i = 0) : ∃ L ≤ i, NulAt str L := by
  have found : ∃ i, str i = 0 := ⟨i, nul⟩
  exact ⟨Nat.find found, Nat.find_min' found nul, Nat.find_spec found, fun j less => Nat.find_min found less⟩

theorem print_buffer_found (conversion : Conversion) {L : Nat} (nul : NulAt str L) (small : L ≤ 2147483647) :
    printBuffer conversion str = (List.range (L + 1) ++ List.range (clampLength conversion L).toNat,
      .ok (writeString conversion (clampLength conversion L) ((List.range (clampLength conversion L).toNat).map str))) := by
  have scanned := length_loop_found 2147483648 0 nul.1 nul.2 (Nat.zero_le _) (by unfold intMax; omega) (by omega)
  rw [Nat.sub_zero, ← List.range_eq_range'] at scanned
  rw [printBuffer, scanned]

theorem print_buffer_none (conversion : Conversion) (none : ∀ i ≤ 2147483647, str i ≠ 0) :
    printBuffer conversion str = (List.range 2147483648, .error .undefined) := by
  have scanned := length_loop_none 2147483648 0 none (Nat.zero_le _) (by omega)
  rw [Nat.sub_zero, ← List.range_eq_range'] at scanned
  rw [printBuffer, scanned]

-- Of a string that ends, it is what printString writes.
theorem print_buffer_string (conversion : Conversion) {L : Nat} (nul : NulAt str L) (small : L ≤ 2147483647) :
    printString conversion ((List.range L).map str) = (printBuffer conversion str).2 := by
  have counted : checked L = .ok (L : Int) := checked_ok (by omega) (by unfold intMax; omega)
  have within : (clampLength conversion L).toNat ≤ L := by
    unfold clampLength
    split <;> omega
  rw [print_buffer_found conversion nul small]
  unfold printString
  rw [List.length_map, List.length_range, counted, bind_ok]
  show Except.ok (writeString conversion (clampLength conversion L) (((List.range L).map str).take (clampLength conversion L).toNat)) = _
  rw [← List.map_take, List.take_range, Nat.min_eq_left within]

theorem string_tail (length : Length) (rest : Bytes) :
    ∃ byte more, length.bytes ++ chr 's' :: rest = byte :: more ∧ EndsParts byte := by
  cases length with
  | absent => exact ⟨chr 's', rest, rfl, by decide⟩
  | _ => exact ⟨_, _, rfl, by decide⟩

namespace StringDirective

variable {d : StringDirective} {L : Nat}

def conversion (d : StringDirective) : Conversion := partsConversion d.flags d.width d.precision

theorem shown_narrow (narrow : d.Narrow) : d.shown str = printBuffer d.conversion str := by
  obtain ⟨byte, more, tail, ends⟩ := string_tail d.length []
  unfold shown behind args
  rw [tail, read_parts_eq d.flags d.width d.precision ends more [d.slot] narrow]
  rfl

theorem shown_wide (wide : ¬ d.Narrow) : d.shown str = ([], .error .undefined) := by
  obtain ⟨byte, more, tail, ends⟩ := string_tail d.length []
  unfold shown behind args
  rw [tail, read_parts_wide d.flags d.width d.precision ends more [d.slot] wide]

theorem conversion_left : d.conversion.flags.left = d.left := by
  unfold conversion partsConversion left leftIf
  by_cases minus : .minus ∈ d.flags <;> by_cases plus : .plus ∈ d.flags <;> by_cases negative : d.width.value < 0 <;>
    simp [settleFlags, setFlags, noFlags, minus, plus, negative]

theorem write_padded (n : Nat) (bytes : Bytes) (counted : bytes.length = n) : writeString d.conversion n bytes = d.padded bytes := by
  have missing : padding (chr ' ') n d.conversion.width = List.replicate (d.width.value.natAbs - n) (chr ' ') :=
    Directive.padding_eq (chr ' ') n d.width.value.natAbs
  unfold writeString padded
  rw [conversion_left, missing, counted]
  cases d.left <;> simp

theorem map_counted (n : Nat) : ((List.range n).map str).length = n := by rw [List.length_map, List.length_range]

-- A string that ends, with the length that the precision leaves of it.
theorem shown_found (narrow : d.Narrow) (nul : NulAt str L) (small : L ≤ 2147483647) {n : Nat} (clamped : clampLength d.conversion L = n) :
    d.shown str = (List.range (L + 1) ++ List.range n, .ok (d.padded ((List.range n).map str))) := by
  rw [shown_narrow narrow, print_buffer_found d.conversion nul small, clamped, Int.toNat_natCast, write_padded n _ (map_counted n)]

theorem shown_none (narrow : d.Narrow) (none : ∀ i ≤ 2147483647, str i ≠ 0) :
    d.shown str = (List.range 2147483648, .error .undefined) := by
  rw [shown_narrow narrow, print_buffer_none d.conversion none]

theorem clamp_given {p : Nat} (given : d.precision.value = some p) (n : Nat) : clampLength d.conversion n = (min p n : Nat) := by
  have parsed : d.conversion.precision = p := by
    show parsedPrecision d.precision = p
    cases precision : d.precision with
    | absent =>
        rw [precision] at given
        cases given
    | literal zeros m fits =>
        rw [precision] at given
        cases given
        rfl
    | star slot =>
        rw [precision] at given
        simp only [Precision.value] at given
        simp only [parsedPrecision]
        split at given
        · cases given
        · rename_i positive
          rw [if_neg positive, ← Option.some.inj given]
          omega
  unfold clampLength
  rw [parsed]
  split <;> omega

theorem clamp_absent (absent : d.precision = .absent) (n : Nat) : clampLength d.conversion n = n := by
  have parsed : d.conversion.precision = -1 := by
    show parsedPrecision d.precision = -1
    rw [absent]
    rfl
  unfold clampLength
  rw [parsed]
  exact if_neg (by omega)

theorem clamp_negative {slot : Slot} (star : d.precision = .star slot) (negative : slotInt slot < 0) (n : Nat) :
    clampLength d.conversion n = (min 1 n : Nat) := by
  have parsed : d.conversion.precision = 1 := by
    show parsedPrecision d.precision = 1
    rw [star]
    exact if_pos negative
  unfold clampLength
  rw [parsed]
  split <;> omega

theorem first_bytes_found {p : Nat} (nul : NulAt str L) (less : L < p) : firstBytes str p = (List.range L).map str := by
  obtain ⟨k, rfl⟩ : ∃ k, p = L + (k + 1) := ⟨p - L - 1, by omega⟩
  unfold firstBytes
  rw [List.range_add, List.map_append, List.takeWhile_append_of_pos, List.range_succ_eq_map, List.map_cons, List.map_cons,
    List.takeWhile_cons_of_neg, List.append_nil]
  · simp [nul.1]
  · intro byte member
    obtain ⟨i, among, rfl⟩ := List.mem_map.mp member
    simpa using nul.2 i (List.mem_range.mp among)

theorem padded_length (bytes : Bytes) : (d.padded bytes).length = max bytes.length d.width.value.natAbs := by
  unfold padded
  cases d.left <;> simp <;> omega

theorem all_spaces (str : Nat → UInt8) (n : Nat) : (List.range n).map str = List.replicate n (chr ' ') ↔ ∀ i < n, str i = chr ' ' := by
  rw [List.eq_replicate_iff]
  simp

-- What a precision of one cuts off is put back by the padding where it is spaces.
theorem padded_left_iff (left : d.left = true) {n : Nat} (wide : n + 1 ≤ d.width.value.natAbs) :
    d.padded ((List.range 1).map str) = d.padded ((List.range (n + 1)).map str) ↔ ∀ i < n, str (i + 1) = chr ' ' := by
  have first : d.width.value.natAbs - 1 = n + (d.width.value.natAbs - (n + 1)) := by omega
  have one : (List.range 1).map str = [str 0] := rfl
  unfold padded
  rw [one, if_pos left, if_pos left, List.length_singleton, map_counted, List.range_succ_eq_map, List.map_cons, List.map_map, first,
    List.replicate_add]
  show str 0 :: (List.replicate n (chr ' ') ++ _) = str 0 :: (_ ++ _) ↔ _
  rw [List.cons.injEq, List.append_left_inj, eq_comm (a := List.replicate n (chr ' '))]
  have later := all_spaces (str ∘ Nat.succ) n
  exact ⟨fun both => later.mp both.2, fun spaces => ⟨rfl, later.mpr spaces⟩⟩

theorem padded_right_iff (right : d.left = false) {n : Nat} (wide : n + 1 ≤ d.width.value.natAbs) :
    d.padded ((List.range 1).map str) = d.padded ((List.range (n + 1)).map str) ↔ (∀ i < n, str i = chr ' ') ∧ str n = str 0 := by
  have first : d.width.value.natAbs - 1 = d.width.value.natAbs - (n + 1) + n := by omega
  have one : (List.range 1).map str = [str 0] := rfl
  unfold padded
  rw [one, if_neg (by rw [right]; nofun), if_neg (by rw [right]; nofun), List.length_singleton, map_counted, List.range_succ, List.map_append,
    first, List.replicate_add, List.append_assoc, List.append_right_inj]
  constructor
  · intro same
    obtain ⟨spaces, last⟩ := List.append_inj' same rfl
    exact ⟨(all_spaces str n).mp spaces.symm, (List.cons.inj last).1.symm⟩
  · rintro ⟨spaces, last⟩
    rw [(all_spaces str n).mpr spaces]
    show _ ++ [str 0] = _ ++ [str n]
    rw [last]

theorem padded_first_iff (several : 2 ≤ L) :
    d.padded ((List.range 1).map str) = d.padded ((List.range L).map str) ↔
      L ≤ d.width.value.natAbs ∧ ∀ i < L, (d.left = true → i ≠ 0) → str i = chr ' ' := by
  obtain ⟨n, rfl⟩ : ∃ n, L = n + 1 := ⟨L - 1, by omega⟩
  by_cases wide : n + 1 ≤ d.width.value.natAbs
  · cases side : d.left with
    | true =>
        rw [padded_left_iff side wide]
        refine ⟨fun spaces => ⟨wide, fun i less past => ?_⟩, fun spaces i less => spaces.2 (i + 1) (by omega) fun _ => Nat.succ_ne_zero i⟩
        obtain ⟨j, rfl⟩ : ∃ j, i = j + 1 := ⟨i - 1, by have := past rfl; omega⟩
        exact spaces j (by omega)
    | false =>
        rw [padded_right_iff side wide]
        refine ⟨fun ⟨spaces, last⟩ => ⟨wide, fun i less _ => ?_⟩, fun ⟨_, spaces⟩ => ⟨fun i less => spaces i (by omega) nofun, ?_⟩⟩
        · by_cases before : i < n
          · exact spaces i before
          · rw [show i = n by omega, last]
            exact spaces 0 (by omega)
        · rw [spaces n (by omega) nofun, spaces 0 (by omega) nofun]
  · refine iff_of_false (fun same => ?_) fun both => wide both.1
    have lengths := congrArg List.length same
    rw [padded_length, padded_length, map_counted, map_counted] at lengths
    omega

theorem value_bound {precision : Precision} {p : Nat} (given : precision.value = some p) : p ≤ 2147483647 := by
  cases precision with
  | absent => cases given
  | literal zeros n fits =>
      cases given
      exact fits
  | star slot =>
      have high := (slot.truncate 32).toInt_lt
      simp only [Precision.value] at given
      split at given
      · cases given
      · rename_i positive
        rw [← Option.some.inj given]
        unfold slotInt at positive ⊢
        omega

theorem nul_or_none (str : Nat → UInt8) : (∃ L ≤ 2147483647, NulAt str L) ∨ ∀ i ≤ 2147483647, str i ≠ 0 := by
  by_cases found : ∃ i ≤ 2147483647, str i = 0
  · obtain ⟨i, small, nul⟩ := found
    obtain ⟨L, le, nulAt⟩ := nul_at_first str nul
    exact .inl ⟨L, le.trans small, nulAt⟩
  · exact .inr fun i small nul => found ⟨i, small, nul⟩

-- Without a NUL among the first bytes, the byte behind them is read.
theorem reads_behind {p : Nat} (narrow : d.Narrow) (small : p ≤ 2147483647) (none : ∀ i < p, str i ≠ 0) : p ∈ (d.shown str).1 := by
  rcases nul_or_none str with ⟨L, short, nul⟩ | endless
  · have behind : p ≤ L := by
      by_contra before
      exact none L (by omega) nul.1
    obtain ⟨n, clamped⟩ : ∃ n : Nat, clampLength d.conversion L = n := by
      refine ⟨(clampLength d.conversion L).toNat, ?_⟩
      unfold clampLength
      split <;> omega
    rw [shown_found narrow nul short clamped]
    exact List.mem_append_left _ (List.mem_range.mpr (by omega))
  · rw [shown_none narrow endless]
    simp only [List.mem_range]
    omega

theorem given_iff {p : Nat} (given : d.precision.value = some p) :
    ((∀ i ∈ (d.shown str).1, i < p) ∧ (d.shown str).2 = .ok (d.padded (firstBytes str p))) ↔ d.Narrow ∧ ∃ i < p, str i = 0 := by
  by_cases narrow : d.Narrow
  · by_cases found : ∃ i < p, str i = 0
    · refine iff_of_true ?_ ⟨narrow, found⟩
      have small := value_bound given
      obtain ⟨i, before, nul⟩ := found
      obtain ⟨L, le, nulAt⟩ := nul_at_first str nul
      have clamped : clampLength d.conversion L = L := by
        rw [clamp_given given, Nat.min_eq_right (by omega)]
      rw [shown_found narrow nulAt (by omega) clamped, first_bytes_found nulAt (by omega)]
      refine ⟨fun j member => ?_, rfl⟩
      rcases List.mem_append.mp member with scanned | printed
      · have less := List.mem_range.mp scanned
        omega
      · have less := List.mem_range.mp printed
        omega
    · refine iff_of_false (fun both => ?_) fun both => found both.2
      have behind := reads_behind narrow (value_bound given) fun i less nul => found ⟨i, less, nul⟩
      exact absurd (both.1 p behind) (Nat.lt_irrefl p)
  · refine iff_of_false (fun both => ?_) fun both => narrow both.1
    rw [shown_wide narrow] at both
    cases both.2

theorem negative_iff {slot : Slot} (star : d.precision = .star slot) (negative : slotInt slot < 0) :
    ((∀ i, i ∈ (d.shown str).1 ↔ i ∈ (StringDirective.shown { d with precision := .absent } str).1) ∧
        (d.shown str).2 = (StringDirective.shown { d with precision := .absent } str).2) ↔
      (d.Narrow → ∀ L ≤ 2147483647, str L = 0 → (∀ i < L, str i ≠ 0) →
        L ≤ 1 ∨ L ≤ d.width.value.natAbs ∧ ∀ i < L, (d.left = true → i ≠ 0) → str i = chr ' ') := by
  let omitted : StringDirective := { d with precision := .absent }
  show ((∀ i, i ∈ (d.shown str).1 ↔ i ∈ (omitted.shown str).1) ∧ (d.shown str).2 = (omitted.shown str).2) ↔ _
  by_cases narrow : d.Narrow
  · rcases nul_or_none str with ⟨L, short, nul⟩ | endless
    · have cut := shown_found narrow nul short (clamp_negative star negative L)
      have whole := shown_found (d := omitted) narrow nul short (clamp_absent rfl L)
      have reads : ∀ i, i ∈ List.range (L + 1) ++ List.range (min 1 L) ↔ i ∈ List.range (L + 1) ++ List.range L := by
        intro i
        simp only [List.mem_append, List.mem_range]
        omega
      have only : ∀ L', str L' = 0 → (∀ i < L', str i ≠ 0) → L' = L := by
        intro L' nul' before'
        by_contra other
        rcases Nat.lt_or_gt_of_ne other with less | more
        · exact nul.2 L' less nul'
        · exact before' L more nul.1
      rw [cut, whole]
      have same : d.padded ((List.range (min 1 L)).map str) = d.padded ((List.range L).map str) ↔
          (L ≤ 1 ∨ L ≤ d.width.value.natAbs ∧ ∀ i < L, (d.left = true → i ≠ 0) → str i = chr ' ') := by
        by_cases few : L ≤ 1
        · rw [Nat.min_eq_right few]
          exact iff_of_true rfl (.inl few)
        · rw [Nat.min_eq_left (by omega), padded_first_iff (by omega)]
          exact ⟨.inr, fun either => either.resolve_left few⟩
      refine ⟨fun both _ L' _ nul' before' => ?_, fun safe => ⟨reads, congrArg Except.ok (same.mpr (safe narrow L short nul.1 nul.2))⟩⟩
      rw [only L' nul' before']
      exact same.mp (Except.ok.inj both.2)
    · refine iff_of_true ?_ fun _ L short nul _ => absurd nul (endless L short)
      rw [shown_none narrow endless, shown_none (d := omitted) narrow endless]
      exact ⟨fun _ => Iff.rfl, rfl⟩
  · refine iff_of_true ?_ fun isNarrow => absurd isNarrow narrow
    rw [shown_wide narrow, shown_wide (d := omitted) narrow]
    exact ⟨fun _ => Iff.rfl, rfl⟩

-- Of a string that ends, it is what the directive writes in format.
theorem shown_directive (narrow : d.Narrow) (nul : NulAt str L) (short : L ≤ 2147483647)
    (given : text d.slot = (List.range L).map str) (rest : Bytes) (more : List Slot) :
    ∃ bytes, (d.shown str).2 = .ok bytes ∧ directive text (d.behind ++ rest) (d.args ++ more) = .ok (.printed bytes rest more) := by
  obtain ⟨byte, after, tail, ends⟩ := string_tail d.length rest
  have spelled : d.behind ++ rest = d.flags.map Flag.byte ++ (d.width.bytes ++ (d.precision.bytes ++ byte :: after)) := by
    rw [← tail]
    simp [behind]
  have taken : d.args ++ more = d.width.args ++ (d.precision.args ++ d.slot :: more) := by simp [args]
  have parsed : parseLength (d.length.bytes ++ chr 's' :: rest) = (d.length.lengthPrefix, chr 's' :: rest) := by
    cases d.length <;> rfl
  have type : (lookup d.length.lengthPrefix (chr 's') <|> lookup .none (chr 's')) = some .ptr := by
    cases d.length <;> decide
  have printed := print_buffer_string d.conversion nul short
  rw [← shown_narrow narrow, ← given] at printed
  obtain ⟨bytes, shown⟩ : ∃ bytes, (d.shown str).2 = .ok bytes := by
    rw [shown_narrow narrow, print_buffer_found d.conversion nul short]
    exact ⟨_, rfl⟩
  refine ⟨bytes, shown, ?_⟩
  rw [directive_parts, spelled, taken, read_parts_eq d.flags d.width d.precision ends after _ narrow, bind_ok, ← tail]
  dsimp only
  unfold printDirective
  rw [parsed]
  dsimp only
  rw [if_neg (show ¬ chr 's' < chr 'a' by decide), if_neg (show ¬ (chr 's' < chr 'a' ∨ chr 'z' < chr 's') by decide), type]
  show printConversion text d.conversion (chr 's') d.slot >>= _ = _
  unfold printConversion
  rw [if_neg (by decide), if_pos rfl, printed, shown]
  rfl

end StringDirective

end Proofs

theorem string_precision_iff (d : StringDirective) (str : Nat → UInt8) : d.Respects str ↔ d.Safe str := by
  constructor
  · rintro ⟨given, negative⟩
    exact ⟨fun p value => (StringDirective.given_iff value).mp (given p value),
      fun slot star below => (StringDirective.negative_iff star below).mp (negative slot star below)⟩
  · rintro ⟨given, negative⟩
    exact ⟨fun p value => (StringDirective.given_iff value).mpr (given p value),
      fun slot star below => (StringDirective.negative_iff star below).mpr (negative slot star below)⟩

-- "%.*s" with a precision of 12, as cpuinfo prints the vendor.
def vendorDirective : StringDirective := ⟨[], .absent, .star 12, .absent, 0⟩

-- Twelve letters with no NUL behind them, but 20 bytes later.
def vendorBytes : Nat → UInt8 := fun i => if i = 32 then 0 else 71

theorem string_reads_past_array : 12 ∈ (vendorDirective.shown vendorBytes).1 ∧ ¬ vendorDirective.Respects vendorBytes := by
  have value : vendorDirective.precision.value = some 12 := by decide
  have behind : 12 ∈ (vendorDirective.shown vendorBytes).1 := by
    refine StringDirective.reads_behind (show ((0 : Int).natAbs : Int) ≤ intMax by decide) (by decide) fun i less => ?_
    unfold vendorBytes
    rw [if_neg (by omega)]
    decide
  refine ⟨behind, fun respects => ?_⟩
  exact absurd ((respects.given 12 value).1 12 behind) (Nat.lt_irrefl 12)

end Elysium.Format
