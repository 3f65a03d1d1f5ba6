import Elysium.FormatLookup
import Elysium.FormatTermination

set_option autoImplicit false

namespace Elysium.Format

def Reaches (input : Input) (r r' : Run) : Prop := ∃ k, after input k r = .ok r'

-- What is left of the format string and of the arguments.
structure At (input : Input) (rest : Bytes) (args : List Slot) (r : Run) : Prop where
  rest : input.string.drop r.fmt = rest
  args : ∀ i (less : i < args.length), input.arg (r.taken + i) = args[i]

def Ends (input : Input) (r : Run) : Prop := ∃ r', Reaches input r r' ∧ r'.label = .done ∧ r'.written = r.written

-- A part of a directive has been read, up to a label.
structure Parses (input : Input) (r : Run) (label : Label) (conversion : Conversion) (rest : Bytes) (args : List Slot) (r' : Run) :
    Prop where
  reaches : Reaches input r r'
  label : r'.label = label
  conversion : r'.conversion = conversion
  left : At input rest args r'
  written : r'.written = r.written
  fallback : r'.fallback = r.fallback
  lengthPrefix : r'.lengthPrefix = r.lengthPrefix

def Follows (input : Input) (r : Run) (label : Label) : Option (Conversion × Bytes × List Slot) → Prop
  | none => Ends input r
  | some (conversion, rest, args) => ∃ r', Parses input r label conversion rest args r'

-- What a directive does, against the function that reads it from its rest.
def Directs (input : Input) (r : Run) : Directed → Prop
  | .done => Ends input r
  | .printed bytes rest args =>
      ∃ r', Reaches input r r' ∧ r'.label = .normal ∧ At input rest args r' ∧ r'.written = r.written ++ bytes
  | .invalid args =>
      ∃ r', Reaches input r r' ∧ r'.label = .normal ∧ At input (input.string.drop r.fallback) args r' ∧ r'.written = r.written ++ [chr '%']

-- int arithmetic is what C says it is.
def Exact (input : Input) : Prop := ∀ n, intMin ≤ n → n ≤ intMax → input.int n = n

section Proofs

variable {input : Input} {r r' r₁ : Run} {rest : Bytes} {args : List Slot}

theorem reaches_here (r : Run) : Reaches input r r := ⟨0, rfl⟩

theorem reaches_step (taken : step input r = .ok r₁) (later : Reaches input r₁ r') : Reaches input r r' := by
  obtain ⟨k, ran⟩ := later
  refine ⟨k + 1, ?_⟩
  rw [after, taken]
  exact ran

theorem reaches_trans (first : Reaches input r r₁) (later : Reaches input r₁ r') : Reaches input r r' := by
  obtain ⟨k, ran⟩ := first
  induction k generalizing r with
  | zero =>
      cases ran
      exact later
  | succ k ih =>
      rw [after, bind_eq_ok] at ran
      obtain ⟨r₂, taken, ran⟩ := ran
      exact reaches_step taken (ih ran)

theorem follows_step {label : Label} {result : Option (Conversion × Bytes × List Slot)} (taken : step input r = .ok r₁)
    (written : r₁.written = r.written) (fallback : r₁.fallback = r.fallback) (lengthPrefix : r₁.lengthPrefix = r.lengthPrefix)
    (follows : Follows input r₁ label result) : Follows input r label result := by
  cases result with
  | none =>
      obtain ⟨r', reaches, ends, same⟩ := follows
      exact ⟨r', reaches_step taken reaches, ends, same.trans written⟩
  | some triple =>
      obtain ⟨r', parses⟩ := follows
      exact ⟨r', reaches_step taken parses.reaches, parses.label, parses.conversion, parses.left, parses.written.trans written,
        parses.fallback.trans fallback, parses.lengthPrefix.trans lengthPrefix⟩

theorem step_at (input : Input) {label : Label} (here : r.label = label) : step input r = stepAt input r label := by rw [step, here]

theorem checked_exact {n m : Int} (exact_ : Exact input) (passed : checked n = .ok m) : m = n ∧ input.int n = n := by
  unfold checked at passed
  split at passed
  · rename_i inside
    exact ⟨(Except.ok.inj passed).symm, exact_ n inside.1 inside.2⟩
  · cases passed

namespace At

theorem char_end (left : At input [] args r) : input.char r.fmt = 0 :=
  List.getD_eq_default _ _ (List.drop_eq_nil_iff.mp left.rest)

theorem char_eq {byte : UInt8} (left : At input (byte :: rest) args r) : input.char r.fmt = byte := by
  have found : (input.string.drop r.fmt)[0]? = some byte := by
    rw [left.rest]
    rfl
  rw [List.getElem?_drop, Nat.add_zero] at found
  rw [Input.char, List.getD_eq_getElem?_getD, found]
  rfl

theorem char_some {byte : UInt8} (left : At input (byte :: rest) args r) : byte ≠ 0 := by
  rintro rfl
  have member : (0 : UInt8) ∈ input.string.drop r.fmt := by
    rw [left.rest]
    exact List.mem_cons_self
  exact input.terminated (List.mem_of_mem_drop member)

theorem char_head (left : At input rest args r) : input.char r.fmt = rest.headD 0 := by
  cases rest with
  | nil => exact left.char_end
  | cons byte rest => exact left.char_eq

-- A character that is not the NUL, against the head of the rest.
theorem head_iff (left : At input rest args r) {byte : UInt8} (some : byte ≠ 0) : input.char r.fmt = byte ↔ rest.head? = .some byte := by
  rw [left.char_head]
  cases rest with
  | nil => exact iff_of_false (fun same => some same.symm) nofun
  | cons first rest =>
      rw [List.headD_cons, List.head?_cons, Option.some.injEq]

theorem same (left : At input rest args r) (fmt : r'.fmt = r.fmt) (taken : r'.taken = r.taken) : At input rest args r' := by
  refine ⟨?_, ?_⟩
  · rw [fmt]
    exact left.rest
  · rw [taken]
    exact left.args

theorem next (left : At input rest args r) (fmt : r'.fmt = r.fmt + 1) (taken : r'.taken = r.taken) : At input rest.tail args r' := by
  refine ⟨?_, ?_⟩
  · rw [fmt, ← left.rest, List.tail_drop]
  · rw [taken]
    exact left.args

theorem arg_eq {slot : Slot} (left : At input rest (slot :: args) r) : input.arg r.taken = slot := left.args 0 (Nat.succ_pos _)

theorem take {slot : Slot} (left : At input rest (slot :: args) r) (fmt : r'.fmt = r.fmt) (taken : r'.taken = r.taken + 1) :
    At input rest args r' := by
  refine ⟨?_, fun i less => ?_⟩
  · rw [fmt]
    exact left.rest
  · have later := left.args (i + 1) (Nat.succ_lt_succ less)
    rw [taken, Nat.add_assoc, Nat.add_comm 1]
    exact later

end At

theorem va_arg_some {slot : Slot} {args' : List Slot} (taken : vaArg args = .ok (slot, args')) : args = slot :: args' := by
  cases args with
  | nil => cases taken
  | cons first rest =>
      cases taken
      rfl

theorem va_arg_int_some {n : Int} {args' : List Slot} (taken : vaArgInt args = .ok (n, args')) :
    ∃ slot : Slot, args = slot :: args' ∧ n = (slot.truncate 32).toInt := by
  rw [vaArgInt, bind_eq_ok] at taken
  obtain ⟨⟨slot, args₁⟩, first, taken⟩ := taken
  cases taken
  exact ⟨slot, va_arg_some first, rfl⟩

theorem set_flag_eq (flags : Flags) (byte : UInt8) (rest : Bytes) :
    flagsLoop flags (byte :: rest) =
      match setFlag flags byte with
      | some flags => flagsLoop flags rest
      | none => some (settleFlags flags, byte :: rest) := by
  rw [flagsLoop, setFlag]
  grind

theorem flags_follow (label : r.label = .flags) (left : At input rest args r) :
    Follows input r .width ((flagsLoop r.conversion.flags rest).map fun parsed => ({ r.conversion with flags := parsed.1 }, parsed.2, args)) := by
  induction rest generalizing r with
  | nil =>
      have taken : step input r = .ok (r.goto .done) := (step_at input label).trans (if_pos left.char_end)
      exact ⟨_, reaches_step taken (reaches_here _), rfl, rfl⟩
  | cons byte rest ih =>
      have goes : input.char r.fmt ≠ 0 := left.char_eq ▸ left.char_some
      have taken : step input r = match setFlag r.conversion.flags (input.char r.fmt) with
          | some flags => .ok (r.setFlags flags).advance
          | none => .ok ((r.setFlags (settleFlags r.conversion.flags)).goto .width) := (step_at input label).trans (if_neg goes)
      rw [left.char_eq] at taken
      rw [set_flag_eq]
      cases found : setFlag r.conversion.flags byte with
      | some flags =>
          rw [found] at taken
          exact follows_step taken rfl rfl rfl (ih label (left.next rfl rfl))
      | none =>
          rw [found] at taken
          exact ⟨_, reaches_step taken (reaches_here _), rfl, rfl, left.same rfl rfl, rfl, rfl, rfl⟩

-- The loops over the digits of the width and of the precision.
theorem digits_follow (exact_ : Exact input) (here next : Label) (get : Conversion → Int) (put : Conversion → Int → Conversion)
    (got : ∀ conversion n, get (put conversion n) = n) (twice : ∀ conversion n m, put (put conversion n) m = put conversion m)
    (back : ∀ conversion, put conversion (get conversion) = conversion)
    (steps : ∀ r : Run, stepAt input r here = .ok (digitRound r (input.char r.fmt) next
      { r with conversion := put r.conversion (addDigit input (get r.conversion) (input.char r.fmt)) }))
    {result : Option (Int × Bytes)} (label : r.label = here) (left : At input rest args r)
    (parsed : numberLoop (get r.conversion) rest = .ok result) :
    Follows input r next (result.map fun number => (put r.conversion number.1, number.2, args)) := by
  induction rest generalizing r with
  | nil =>
      cases parsed
      have taken : step input r = .ok (r.goto .done) := by
        rw [step_at input label, steps, digitRound, if_pos left.char_end]
      exact ⟨_, reaches_step taken (reaches_here _), rfl, rfl⟩
  | cons byte rest ih =>
      have taken := (step_at input label).trans (steps r)
      rw [left.char_eq, digitRound, if_neg left.char_some] at taken
      rw [numberLoop] at parsed
      by_cases digit : isDigit byte = true
      · rw [if_pos digit, bind_eq_ok] at parsed
        obtain ⟨tens, first, parsed⟩ := parsed
        rw [bind_eq_ok] at parsed
        obtain ⟨sum, second, parsed⟩ := parsed
        obtain ⟨rfl, times⟩ := checked_exact exact_ first
        obtain ⟨rfl, plus⟩ := checked_exact exact_ second
        have added : addDigit input (get r.conversion) byte = get r.conversion * 10 + (byte - chr '0').toNat := by
          rw [addDigit, times, plus]
        rw [if_pos digit, added] at taken
        refine follows_step taken rfl rfl rfl ?_
        have later := ih (r := Run.advance { r with
          conversion := put r.conversion (get r.conversion * 10 + (byte - chr '0').toNat) }) label (left.next rfl rfl)
          ((congrArg (numberLoop · rest) (got _ _)).trans parsed)
        cases result with
        | none => exact later
        | some number =>
            have merged := twice r.conversion (get r.conversion * 10 + (byte - chr '0').toNat) number.1
            rw [Option.map_some, ← merged]
            exact later
      · rw [if_neg digit] at parsed
        cases parsed
        rw [if_neg digit] at taken
        exact ⟨_, reaches_step taken (reaches_here _), rfl, (back _).symm, left.same rfl rfl, rfl, rfl, rfl⟩

theorem width_digits_follow (exact_ : Exact input) {result : Option (Int × Bytes)} (label : r.label = .widthDigits)
    (left : At input rest args r) (parsed : numberLoop r.conversion.width rest = .ok result) :
    Follows input r .precision (result.map fun number => ({ r.conversion with width := number.1 }, number.2, args)) :=
  digits_follow exact_ .widthDigits .precision (·.width) (fun conversion n => { conversion with width := n }) (fun _ _ => rfl)
    (fun _ _ _ => rfl) (fun _ => rfl) (fun _ => rfl) label left parsed

theorem precision_digits_follow (exact_ : Exact input) {result : Option (Int × Bytes)} (label : r.label = .precisionDigits)
    (left : At input rest args r) (parsed : numberLoop r.conversion.precision rest = .ok result) :
    Follows input r .length (result.map fun number => ({ r.conversion with precision := number.1 }, number.2, args)) :=
  digits_follow exact_ .precisionDigits .length (·.precision) (fun conversion n => { conversion with precision := n }) (fun _ _ => rfl)
    (fun _ _ _ => rfl) (fun _ => rfl) (fun _ => rfl) label left parsed

theorem width_follows (exact_ : Exact input) {result : Option (Conversion × Bytes × List Slot)} (label : r.label = .width)
    (width : r.conversion.width = 0) (precision : r.conversion.precision = -1) (left : At input rest args r)
    (parsed : parseWidth r.conversion.flags rest args = .ok result) : Follows input r .precision result := by
  unfold parseWidth at parsed
  by_cases star : rest.head? = some (chr '*')
  · have isStar : input.char r.fmt = chr '*' := (left.head_iff (by decide)).mpr star
    rw [if_pos star, bind_eq_ok] at parsed
    obtain ⟨⟨n, args'⟩, arg, parsed⟩ := parsed
    obtain ⟨slot, rfl, rfl⟩ := va_arg_int_some arg
    have taken := (step_at input label).trans (if_pos isStar)
    dsimp only at taken parsed
    rw [left.arg_eq] at taken
    have next : At input rest.tail (slot :: args') r.advance := left.next rfl rfl
    have passed : At input rest.tail args' { r.advance with taken := r.taken + 1 } := next.take rfl rfl
    by_cases negative : (slot.truncate 32).toInt < 0
    · rw [if_pos negative, bind_eq_ok] at parsed
      obtain ⟨m, negated, parsed⟩ := parsed
      obtain ⟨rfl, same⟩ := checked_exact exact_ negated
      cases parsed
      rw [if_pos negative, same] at taken
      refine ⟨_, reaches_step taken (reaches_here _), rfl, ?_, passed.same rfl rfl, rfl, rfl, rfl⟩
      rw [← precision]
      rfl
    · rw [if_neg negative] at parsed taken
      cases parsed
      refine ⟨_, reaches_step taken (reaches_here _), rfl, ?_, passed.same rfl rfl, rfl, rfl, rfl⟩
      rw [← precision]
      rfl
  · have noStar : input.char r.fmt ≠ chr '*' := fun same => star ((left.head_iff (by decide)).mp same)
    rw [if_neg star, bind_eq_ok] at parsed
    obtain ⟨number, loop, parsed⟩ := parsed
    have taken := (step_at input label).trans (if_neg noStar)
    refine follows_step taken rfl rfl rfl ?_
    have digits := width_digits_follow (r := r.goto .widthDigits) exact_ rfl (left.same rfl rfl)
      ((congrArg (numberLoop · rest) width).trans loop)
    cases number with
    | none =>
        cases parsed
        exact digits
    | some number =>
        cases parsed
        rw [← precision]
        exact digits

theorem precision_follows (exact_ : Exact input) {result : Option (Conversion × Bytes × List Slot)} (label : r.label = .precision)
    (left : At input rest args r) (parsed : parsePrecision r.conversion rest args = .ok result) : Follows input r .length result := by
  unfold parsePrecision at parsed
  by_cases bare : rest.head? ≠ some (chr '.')
  · have noDot : input.char r.fmt ≠ chr '.' := fun same => bare ((left.head_iff (by decide)).mp same)
    rw [if_pos bare] at parsed
    cases parsed
    have taken := (step_at input label).trans (if_neg noDot)
    exact ⟨_, reaches_step taken (reaches_here _), rfl, rfl, left.same rfl rfl, rfl, rfl, rfl⟩
  · have isDot : input.char r.fmt = chr '.' := (left.head_iff (by decide)).mpr (not_not.mp bare)
    rw [if_neg bare] at parsed
    have taken := (step_at input label).trans (if_pos isDot)
    refine follows_step taken rfl rfl rfl ?_
    let given : Run := ((r.setFlags { r.conversion.flags with zero := false }).setPrecision 0).advance.goto .precisionGiven
    have left' : At input rest.tail args given := left.next rfl rfl
    show Follows input given .length result
    dsimp only at parsed
    by_cases star : rest.tail.head? = some (chr '*')
    · have isStar : input.char given.fmt = chr '*' := (left'.head_iff (by decide)).mpr star
      rw [if_pos star, bind_eq_ok] at parsed
      obtain ⟨⟨n, args'⟩, arg, parsed⟩ := parsed
      obtain ⟨slot, rfl, rfl⟩ := va_arg_int_some arg
      cases parsed
      have taken := (step_at input (r := given) rfl).trans (if_pos isStar)
      rw [left'.arg_eq] at taken
      have next : At input rest.tail.tail (slot :: args') given.advance := left'.next rfl rfl
      have passed : At input rest.tail.tail args' { given.advance with taken := given.taken + 1 } := next.take rfl rfl
      exact ⟨_, reaches_step taken (reaches_here _), rfl, rfl, passed.same rfl rfl, rfl, rfl, rfl⟩
    · have noStar : input.char given.fmt ≠ chr '*' := fun same => star ((left'.head_iff (by decide)).mp same)
      rw [if_neg star, bind_eq_ok] at parsed
      obtain ⟨number, loop, parsed⟩ := parsed
      have taken := (step_at input (r := given) rfl).trans (if_neg noStar)
      refine follows_step taken rfl rfl rfl ?_
      have digits := precision_digits_follow (r := given.goto .precisionDigits) exact_ rfl (left'.same rfl rfl) loop
      cases number with
      | none =>
          cases parsed
          exact digits
      | some number =>
          cases parsed
          exact digits

-- Behind an h or an l, where another one makes it longer.
theorem length_ext_follows (label : r.label = .lengthExt) (next : At input rest args r.advance) :
    ∃ r', Reaches input r r' ∧ r'.label = .modifiers ∧
      r'.lengthPrefix = (if rest.head? = some (chr 'h') then (LengthPrefix.hh, rest.tail)
        else if rest.head? = some (chr 'l') then (.ll, rest.tail) else (r.lengthPrefix, rest)).1 ∧
      At input (if rest.head? = some (chr 'h') then (LengthPrefix.hh, rest.tail)
        else if rest.head? = some (chr 'l') then (.ll, rest.tail) else (r.lengthPrefix, rest)).2 args r' ∧
      r'.conversion = r.conversion ∧ r'.written = r.written ∧ r'.fallback = r.fallback := by
  have taken : step input r = _ := step_at input label
  simp only [stepAt] at taken
  by_cases h : rest.head? = some (chr 'h')
  · rw [if_pos ((next.head_iff (by decide)).mpr h)] at taken
    rw [if_pos h]
    exact ⟨_, reaches_step taken (reaches_here _), rfl, rfl, next.next rfl rfl, rfl, rfl, rfl⟩
  rw [if_neg fun same => h ((next.head_iff (by decide)).mp same)] at taken
  rw [if_neg h]
  by_cases l : rest.head? = some (chr 'l')
  · rw [if_pos ((next.head_iff (by decide)).mpr l)] at taken
    rw [if_pos l]
    exact ⟨_, reaches_step taken (reaches_here _), rfl, rfl, next.next rfl rfl, rfl, rfl, rfl⟩
  · rw [if_neg fun same => l ((next.head_iff (by decide)).mp same)] at taken
    rw [if_neg l]
    exact ⟨_, reaches_step taken (reaches_here _), rfl, rfl, next.same rfl rfl, rfl, rfl, rfl⟩

theorem length_follows (label : r.label = .length) (none : r.lengthPrefix = .none) (left : At input rest args r) :
    ∃ r', Reaches input r r' ∧ r'.label = .modifiers ∧ r'.lengthPrefix = (parseLength rest).1 ∧ At input (parseLength rest).2 args r' ∧
      r'.conversion = r.conversion ∧ r'.written = r.written ∧ r'.fallback = r.fallback := by
  have plain (lengthPrefix : LengthPrefix) (taken : step input r = .ok ((r.setLength lengthPrefix).advance.goto .modifiers)) :
      ∃ r', Reaches input r r' ∧ r'.label = .modifiers ∧ r'.lengthPrefix = lengthPrefix ∧ At input rest.tail args r' ∧
        r'.conversion = r.conversion ∧ r'.written = r.written ∧ r'.fallback = r.fallback :=
    ⟨_, reaches_step taken (reaches_here _), rfl, rfl, left.next rfl rfl, rfl, rfl, rfl⟩
  have longer (lengthPrefix : LengthPrefix) (taken : step input r = .ok ((r.setLength lengthPrefix).goto .lengthExt)) :
      ∃ r', Reaches input r r' ∧ r'.label = .modifiers ∧
        r'.lengthPrefix = (if rest.tail.head? = some (chr 'h') then (LengthPrefix.hh, rest.tail.tail)
          else if rest.tail.head? = some (chr 'l') then (.ll, rest.tail.tail) else (lengthPrefix, rest.tail)).1 ∧
        At input (if rest.tail.head? = some (chr 'h') then (LengthPrefix.hh, rest.tail.tail)
          else if rest.tail.head? = some (chr 'l') then (.ll, rest.tail.tail) else (lengthPrefix, rest.tail)).2 args r' ∧
        r'.conversion = r.conversion ∧ r'.written = r.written ∧ r'.fallback = r.fallback := by
    obtain ⟨r', reaches, after⟩ := length_ext_follows (r := (r.setLength lengthPrefix).goto .lengthExt) rfl (left.next rfl rfl)
    exact ⟨r', reaches_step taken reaches, after⟩
  have taken : step input r = _ := step_at input label
  simp only [stepAt] at taken
  cases rest with
  | nil =>
      rw [left.char_end] at taken
      exact ⟨_, reaches_step taken (reaches_here _), rfl, none, left.same rfl rfl, rfl, rfl, rfl⟩
  | cons byte rest =>
      rw [left.char_eq] at taken
      rw [parseLength]
      by_cases h : byte = chr 'h'
      · rw [if_pos h] at taken ⊢
        exact longer .h taken
      rw [if_neg h] at taken ⊢
      by_cases l : byte = chr 'l'
      · rw [if_pos l] at taken ⊢
        exact longer .l taken
      rw [if_neg l] at taken ⊢
      by_cases j : byte = chr 'j'
      · rw [if_pos j] at taken ⊢
        exact plain .j taken
      rw [if_neg j] at taken ⊢
      by_cases z : byte = chr 'z'
      · rw [if_pos z] at taken ⊢
        exact plain .z taken
      rw [if_neg z] at taken ⊢
      by_cases t : byte = chr 't'
      · rw [if_pos t] at taken ⊢
        exact plain .t taken
      rw [if_neg t] at taken ⊢
      by_cases L : byte = chr 'L'
      · rw [if_pos L] at taken ⊢
        exact plain .longDouble taken
      rw [if_neg L] at taken ⊢
      exact ⟨_, reaches_step taken (reaches_here _), rfl, none, left.same rfl rfl, rfl, rfl, rfl⟩

theorem print_number_with {f g : Int → Except Fault Int} (more : ∀ n m, f n = .ok m → g n = .ok m) {conversion : Conversion}
    {number : Number} {value : Nat} {bytes : Bytes} (printed : printNumberWith f conversion number value = .ok bytes) :
    printNumberWith g conversion number value = .ok bytes := by
  unfold printNumberWith at printed ⊢
  obtain ⟨⟨pw, length⟩, power, printed⟩ := (bind_eq_ok _ _ _).mp printed
  obtain ⟨padded, first, printed⟩ := (bind_eq_ok _ _ _).mp printed
  obtain ⟨whole, second, printed⟩ := (bind_eq_ok _ _ _).mp printed
  refine (bind_eq_ok _ _ _).mpr ⟨(pw, length), power, ?_⟩
  refine (bind_eq_ok _ _ _).mpr ⟨padded, more _ _ first, ?_⟩
  exact (bind_eq_ok _ _ _).mpr ⟨whole, more _ _ second, printed⟩

theorem print_string_with {f g : Int → Except Fault Int} (more : ∀ n m, f n = .ok m → g n = .ok m) {conversion : Conversion}
    {str bytes : Bytes} (printed : printStringWith f conversion str = .ok bytes) : printStringWith g conversion str = .ok bytes := by
  unfold printStringWith at printed ⊢
  obtain ⟨length, counted, printed⟩ := (bind_eq_ok _ _ _).mp printed
  exact (bind_eq_ok _ _ _).mpr ⟨length, more _ _ counted, printed⟩

theorem int_exact (exact_ : Exact input) (n m : Int) (passed : checked n = .ok m) : (fun n => Except.ok (input.int n)) n = (.ok m : Except Fault Int) := by
  obtain ⟨rfl, same⟩ := checked_exact exact_ passed
  exact congrArg Except.ok same

theorem print_conversion_number (text : Slot → Bytes) (conversion : Conversion) {specifier : UInt8} (value : Slot) (c : specifier ≠ chr 'c')
    (s : specifier ≠ chr 's') :
    printConversion text conversion specifier value =
      match numberOf conversion.flags specifier value with
      | none => .ok none
      | some (number, value) => (printNumber (defaultPrecision conversion) number value.toNat).map some := by
  unfold printConversion numberOf
  rw [if_neg c, if_neg s]
  split_ifs <;> rfl

-- What the switch over the specifier does.
theorem conversion_follows (exact_ : Exact input) {specifier : UInt8} {result : Option Bytes} (label : r.label = .conversion)
    (left : At input (specifier :: rest) args r)
    (printed : printConversion input.text r.conversion specifier r.value = .ok result) :
    match result with
    | none => ∃ r', Reaches input r r' ∧ r'.label = .invalid ∧ At input (specifier :: rest) args r' ∧ r'.written = r.written ∧
        r'.fallback = r.fallback
    | some bytes => ∃ r', Reaches input r r' ∧ r'.label = .normal ∧ At input rest args r' ∧ r'.written = r.written ++ bytes := by
  have taken : step input r = _ := step_at input label
  simp only [stepAt] at taken
  rw [left.char_eq, if_neg left.char_some] at taken
  by_cases c : specifier = chr 'c'
  · unfold printConversion at printed
    rw [if_pos c] at taken printed
    cases printed
    exact ⟨_, reaches_step taken (reaches_here _), rfl, left.next rfl rfl, rfl⟩
  rw [if_neg c] at taken
  by_cases s : specifier = chr 's'
  · unfold printConversion at printed
    rw [if_neg c, if_pos s] at printed
    rw [if_pos s] at taken
    obtain ⟨bytes, shown, rfl⟩ : ∃ bytes, printString r.conversion (input.text r.value) = .ok bytes ∧ result = some bytes := by
      cases shown : printString r.conversion (input.text r.value) with
      | error fault =>
          rw [shown] at printed
          cases printed
      | ok bytes =>
          rw [shown] at printed
          exact ⟨bytes, rfl, (Except.ok.inj printed).symm⟩
    rw [print_string_with (int_exact exact_) shown, bind_ok] at taken
    exact ⟨_, reaches_step taken (reaches_here _), rfl, left.next rfl rfl, rfl⟩
  rw [if_neg s] at taken
  rw [print_conversion_number input.text r.conversion r.value c s] at printed
  cases found : numberOf r.conversion.flags specifier r.value with
  | none =>
      rw [found] at taken printed
      cases printed
      exact ⟨_, reaches_step taken (reaches_here _), rfl, left.same rfl rfl, rfl, rfl⟩
  | some pair =>
      obtain ⟨number, value⟩ := pair
      rw [found] at taken printed
      dsimp only at taken printed
      cases shown : printNumber (defaultPrecision r.conversion) number value.toNat with
      | error fault =>
          rw [shown] at printed
          cases printed
      | ok bytes =>
          rw [shown] at printed
          cases printed
          let printing : Run := { r with conversion := defaultPrecision r.conversion, value := value }.goto (.printNumber number)
          have prints : step input printing = .ok ((printing.advance.putchars bytes).goto .normal) := by
            have ran := print_number_with (int_exact exact_) (show printNumberWith checked _ number value.toNat = .ok bytes from shown)
            rw [step_at input (show printing.label = .printNumber number from rfl)]
            simp only [stepAt]
            rw [show printing.advance.conversion = defaultPrecision r.conversion from rfl, show printing.advance.value = value from rfl, ran]
            rfl
          exact ⟨_, reaches_step taken (reaches_step prints (reaches_here _)), rfl, left.next rfl rfl, rfl⟩

theorem lookup_untaken {lengthPrefix : LengthPrefix} {index : UInt8} {type : ArgType} (found : lookup lengthPrefix index = some type)
    (untaken : type.taken = false) : index = chr 'f' ∨ index = chr 'e' ∨ index = chr 'a' ∨ index = chr 'g' := by
  cases lengthPrefix <;> simp only [lookup, lookupRow, lookupText, lookupDouble] at found <;> grind [ArgType.taken]

theorem printable_not_floating {specifier : UInt8} (prints : printable specifier = true) :
    ¬ (shifted specifier = chr 'f' ∨ shifted specifier = chr 'e' ∨ shifted specifier = chr 'a' ∨ shifted specifier = chr 'g') := by
  simp only [printable, List.contains_eq_mem, List.mem_cons, List.not_mem_nil, or_false, decide_eq_true_eq] at prints
  rcases prints with rfl | rfl | rfl | rfl | rfl | rfl | rfl | rfl <;> decide

theorem print_unprintable (text : Slot → Bytes) (conversion : Conversion) {specifier : UInt8} (value : Slot)
    (unprintable : printable specifier = false) : printConversion text conversion specifier value = .ok none := by
  simp only [printable, List.contains_eq_mem, List.mem_cons, List.not_mem_nil, or_false, decide_eq_false_iff_not, not_or] at unprintable
  obtain ⟨c, s, X, x, u, o, d, i⟩ := unprintable
  unfold printConversion
  simp only [c, s, X, x, u, o, d, i, or_self, if_false]

theorem invalid_follows (label : r.label = .invalid) (left : At input rest args r) :
    ∃ r', Reaches input r r' ∧ r'.label = .normal ∧ At input (input.string.drop r.fallback) args r' ∧ r'.written = r.written ++ [chr '%'] :=
  ⟨_, reaches_step (step_at input label) (reaches_here _), rfl, ⟨rfl, left.args⟩, rfl⟩

-- A conversion that has been reached, with what comes of it.
theorem converted_directs (exact_ : Exact input) {specifier : UInt8} {tail : Bytes} {printing : Option Bytes} (reaches : Reaches input r r₁)
    (label : r₁.label = .conversion) (left : At input (specifier :: tail) args r₁) (written : r₁.written = r.written)
    (fallback : r₁.fallback = r.fallback) (printed : printConversion input.text r₁.conversion specifier r₁.value = .ok printing) :
    Directs input r (match printing with | none => .invalid args | some bytes => .printed bytes tail args) := by
  have follows := conversion_follows exact_ label left printed
  cases printing with
  | none =>
      obtain ⟨r₂, reaches', label', left', written', fallback'⟩ := follows
      obtain ⟨r', reaches'', normal, left'', written''⟩ := invalid_follows label' left'
      rw [fallback', fallback] at left''
      exact ⟨r', reaches_trans reaches (reaches_trans reaches' reaches''), normal, left'', by rw [written'', written', written]⟩
  | some bytes =>
      obtain ⟨r', reaches', normal, left', written'⟩ := follows
      exact ⟨r', reaches_trans reaches reaches', normal, left', by rw [written', written]⟩

theorem print_directive_follows (exact_ : Exact input) {directed : Directed} (label : r.label = .length) (none : r.lengthPrefix = .none)
    (left : At input rest args r) (printed : printDirective input.text r.conversion rest args = .ok directed) : Directs input r directed := by
  obtain ⟨r₁, reaches, label₁, lengthPrefix, left₁, conversion, written, fallback⟩ := length_follows label none left
  unfold printDirective at printed
  generalize parseLength rest = parsed at printed lengthPrefix left₁
  obtain ⟨prefix_, fmt⟩ := parsed
  cases fmt with
  | nil => cases printed
  | cons specifier tail =>
      have taken : step input r₁ = _ := step_at input label₁
      simp only [stepAt] at taken
      rw [left₁.char_eq, lengthPrefix] at taken
      dsimp only at printed taken
      generalize indexed : (if specifier < chr 'a' then specifier + (chr 'a' - chr 'A') else specifier) = index at printed taken
      by_cases outside : index < chr 'a' ∨ chr 'z' < index
      · rw [if_pos outside] at printed
        cases printed
      rw [if_neg outside] at printed
      cases type : (lookup prefix_ index <|> lookup .none index) with
      | none =>
          rw [type] at printed taken
          cases printed
          obtain ⟨r', reaches', normal, left', written'⟩ := invalid_follows (r := r₁.goto .invalid) rfl (left₁.same rfl rfl)
          refine ⟨r', reaches_trans reaches (reaches_step taken reaches'), normal, ?_, by rw [written', ← written]; rfl⟩
          rw [← fallback]
          exact left'
      | some type' =>
          rw [type] at printed taken
          dsimp only at printed taken
          cases takes : type'.taken with
          | true =>
              rw [if_pos takes, bind_eq_ok] at printed
              obtain ⟨⟨slot, args'⟩, arg, printed⟩ := printed
              rw [bind_eq_ok] at printed
              obtain ⟨printing, shown, printed⟩ := printed
              obtain rfl := va_arg_some arg
              rw [if_pos takes, left₁.arg_eq] at taken
              rw [← conversion] at shown
              have directs := converted_directs (r := r) exact_ (reaches_trans reaches (reaches_step taken (reaches_here _))) rfl
                (left₁.take rfl rfl) written fallback shown
              cases printing <;> cases printed <;> exact directs
          | false =>
              -- A floating point conversion takes no argument, and has no case in the switch.
              rw [if_neg (by simp [takes]), bind_ok, bind_eq_ok] at printed
              obtain ⟨printing, shown, printed⟩ := printed
              rw [if_neg (by simp [takes])] at taken
              have letter : index = chr 'f' ∨ index = chr 'e' ∨ index = chr 'a' ∨ index = chr 'g' := by
                cases first : lookup prefix_ index with
                | none =>
                    rw [first] at type
                    exact lookup_untaken (show lookup .none index = some type' from type) takes
                | some other =>
                    rw [first] at type
                    cases type
                    exact lookup_untaken first takes
              have unprintable : printable specifier = false := by
                rw [Bool.eq_false_iff]
                intro prints
                exact printable_not_floating prints (by rw [← indexed] at letter; exact letter)
              rw [print_unprintable _ _ _ unprintable] at shown
              cases shown
              cases printed
              have directs := converted_directs (r := r) exact_ (reaches_trans reaches (reaches_step taken (reaches_here _))) rfl
                (left₁.same rfl rfl) written fallback (print_unprintable _ _ _ unprintable)
              exact directs

theorem directive_follows (exact_ : Exact input) {directed : Directed} (label : r.label = .flags)
    (fresh : r.conversion = ⟨noFlags, 0, -1⟩) (none : r.lengthPrefix = .none) (left : At input rest args r)
    (ran : directive input.text rest args = .ok directed) : Directs input r directed := by
  unfold directive at ran
  have flagged := flags_follow label left
  rw [fresh] at flagged
  cases flags : flagsLoop noFlags rest with
  | none =>
      rw [flags] at ran flagged
      cases ran
      exact flagged
  | some pair =>
      rw [flags] at ran flagged
      dsimp only at ran
      obtain ⟨r₁, parses₁⟩ := flagged
      rw [bind_eq_ok] at ran
      obtain ⟨wide, width, ran⟩ := ran
      have width₁ : r₁.conversion.width = 0 := by rw [parses₁.conversion]
      have precision₁ : r₁.conversion.precision = -1 := by rw [parses₁.conversion]
      have flags₁ : r₁.conversion.flags = pair.1 := by rw [parses₁.conversion]
      rw [← flags₁] at width
      have follows₁ := width_follows exact_ parses₁.label width₁ precision₁ parses₁.left width
      cases wide with
      | none =>
          cases ran
          obtain ⟨r', reaches, ends, written⟩ := follows₁
          exact ⟨r', reaches_trans parses₁.reaches reaches, ends, written.trans parses₁.written⟩
      | some triple =>
          obtain ⟨r₂, parses₂⟩ := follows₁
          dsimp only at ran
          rw [bind_eq_ok] at ran
          obtain ⟨precise, precision, ran⟩ := ran
          rw [← parses₂.conversion] at precision
          have follows₂ := precision_follows exact_ parses₂.label parses₂.left precision
          have reaches₂ : Reaches input r r₂ := reaches_trans parses₁.reaches parses₂.reaches
          have written₂ : r₂.written = r.written := parses₂.written.trans parses₁.written
          cases precise with
          | none =>
              cases ran
              obtain ⟨r', reaches, ends, written⟩ := follows₂
              exact ⟨r', reaches_trans reaches₂ reaches, ends, written.trans written₂⟩
          | some triple =>
              obtain ⟨r₃, parses₃⟩ := follows₂
              dsimp only at ran
              rw [← parses₃.conversion] at ran
              have none₃ : r₃.lengthPrefix = .none :=
                parses₃.lengthPrefix.trans (parses₂.lengthPrefix.trans (parses₁.lengthPrefix.trans none))
              have directs := print_directive_follows exact_ parses₃.label none₃ parses₃.left ran
              have reaches₃ : Reaches input r r₃ := reaches_trans reaches₂ parses₃.reaches
              have written₃ : r₃.written = r.written := parses₃.written.trans written₂
              have fallback₃ : r₃.fallback = r.fallback := parses₃.fallback.trans (parses₂.fallback.trans parses₁.fallback)
              cases directed with
              | done =>
                  obtain ⟨r', reaches, ends, written⟩ := directs
                  exact ⟨r', reaches_trans reaches₃ reaches, ends, written.trans written₃⟩
              | printed bytes rest' args' =>
                  obtain ⟨r', reaches, normal, left', written⟩ := directs
                  exact ⟨r', reaches_trans reaches₃ reaches, normal, left', by rw [written, written₃]⟩
              | invalid args' =>
                  obtain ⟨r', reaches, normal, left', written⟩ := directs
                  rw [fallback₃] at left'
                  exact ⟨r', reaches_trans reaches₃ reaches, normal, left', by rw [written, written₃]⟩

theorem loop_follows (exact_ : Exact input) (fuel : Nat) {bytes : Bytes} (label : r.label = .normal) (left : At input rest args r)
    (ran : formatLoop input.text fuel rest args = .ok bytes) :
    ∃ r', Reaches input r r' ∧ r'.label = .done ∧ r'.written = r.written ++ bytes := by
  induction fuel generalizing rest args bytes r with
  | zero => cases ran
  | succ fuel ih =>
      -- What is printed now comes before what is printed later.
      have goesOn {r₁ : Run} {rest : Bytes} {args : List Slot} {now : Bytes} (reaches : Reaches input r r₁)
          (normal : r₁.label = .normal) (left : At input rest args r₁) (written : r₁.written = r.written ++ now)
          (run : formatLoop input.text fuel rest args >>= (fun later => .ok (now ++ later)) = .ok bytes) :
          ∃ r', Reaches input r r' ∧ r'.label = .done ∧ r'.written = r.written ++ bytes := by
        rw [bind_eq_ok] at run
        obtain ⟨later, run, whole⟩ := run
        cases whole
        obtain ⟨r', reaches', ends, written'⟩ := ih normal left run
        exact ⟨r', reaches_trans reaches reaches', ends, by rw [written', written, List.append_assoc]⟩
      have taken : step input r = _ := step_at input label
      simp only [stepAt] at taken
      cases rest with
      | nil =>
          cases ran
          rw [if_pos left.char_end] at taken
          exact ⟨_, reaches_step taken (reaches_here _), rfl, (List.append_nil _).symm⟩
      | cons byte rest =>
          rw [left.char_eq, if_neg left.char_some] at taken
          rw [formatLoop] at ran
          by_cases sign : byte = chr '%'
          · rw [if_pos sign] at ran taken
            have next : At input rest args r.advance := left.next rfl rfl
            by_cases double : rest.head? = some (chr '%')
            · have again : input.char r.advance.fmt = chr '%' := (next.head_iff (by decide)).mpr double
              rw [if_pos double] at ran
              rw [if_pos again] at taken
              exact goesOn (reaches_step taken (reaches_here _)) label (next.next rfl rfl) (show _ = r.written ++ [chr '%'] from rfl) ran
            · have other : input.char r.advance.fmt ≠ chr '%' := fun same => double ((next.head_iff (by decide)).mp same)
              rw [if_neg double, bind_eq_ok] at ran
              obtain ⟨directed, run, ran⟩ := ran
              rw [if_neg other] at taken
              let opened : Run :=
                { r.advance with fallback := r.fmt + 1, conversion := ⟨noFlags, 0, -1⟩, lengthPrefix := .none }.goto .flags
              have directs : Directs input opened directed := directive_follows exact_ rfl rfl rfl (next.same rfl rfl) run
              cases directed with
              | done =>
                  cases ran
                  obtain ⟨r', reaches, ends, written⟩ := directs
                  exact ⟨r', reaches_step taken reaches, ends, written.trans (List.append_nil _).symm⟩
              | printed shown rest' args' =>
                  obtain ⟨r', reaches, normal, left', written⟩ := directs
                  exact goesOn (reaches_step taken reaches) normal left' written ran
              | invalid args' =>
                  obtain ⟨r', reaches, normal, left', written⟩ := directs
                  rw [show input.string.drop opened.fallback = rest from next.rest] at left'
                  exact goesOn (reaches_step taken reaches) normal left' written ran
          · rw [if_neg sign] at ran taken
            exact goesOn (reaches_step taken (reaches_here _)) label (left.next rfl rfl) (show _ = r.written ++ [byte] from rfl) ran

-- Where format has a result, the labels and jumps lead to it.
theorem format_followed (exact_ : Exact input) {bytes : Bytes} {count : Int} (given : ∀ i (less : i < args.length), input.arg i = args[i])
    (returned : format input.text input.string args = .ok (bytes, count)) :
    ∃ k r, after input k start = .ok r ∧ r.label = .done ∧ r.written = bytes := by
  unfold format at returned
  obtain ⟨written, ran, result⟩ := (bind_eq_ok _ _ _).mp returned
  cases result
  have left : At input input.string args start := ⟨rfl, fun i less => (congrArg input.arg (Nat.zero_add i)).trans (given i less)⟩
  obtain ⟨r, ⟨k, reaches⟩, ends, shown⟩ := loop_follows exact_ _ rfl left ran
  exact ⟨k, r, reaches, ends, shown⟩

end Proofs

-- "%-4d|%%"
def plainInput : Input where
  string := [chr '%', chr '-', chr '4', chr 'd', chr '|', chr '%', chr '%']
  terminated := by decide
  arg := fun _ => 42
  text := fun _ => []
  int := id

theorem format_followed_plain : ∃ k r, after plainInput k start = .ok r ∧ r.label = .done ∧
    r.written = [chr '4', chr '2', chr ' ', chr ' ', chr '|', chr '%'] := by
  have given : ∀ i (less : i < [(42 : Slot)].length), plainInput.arg i = [(42 : Slot)][i] := fun i less => by
    obtain rfl := Nat.lt_one_iff.mp less
    rfl
  exact format_followed (fun _ _ _ => rfl) given rfl

end Elysium.Format
