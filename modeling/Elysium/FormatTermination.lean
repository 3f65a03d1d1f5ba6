import Elysium.FormatMachine
import Mathlib.Tactic.Linarith
import Mathlib.Tactic.Ring

set_option autoImplicit false

namespace Elysium.Format

-- How many rounds a label is from lbl_normal, while fmt stays.
def Label.rank : Label → Nat
  | .normal | .done => 0
  | .invalid | .printNumber _ => 1
  | .conversion => 2
  | .modifiers => 3
  | .lengthExt => 4
  | .length => 5
  | .precisionDigits => 6
  | .precisionGiven => 7
  | .precision => 8
  | .widthDigits => 9
  | .width => 10
  | .flags => 11

-- A bound for the steps from lbl_normal with so many characters left.
def stepBound (left : Nat) : Nat := (left + 1) * (left + 14)

-- The measure is not the position: an invalid conversion moves fmt back behind its percent
-- sign, and what pays for the characters in between is that sign.
def measure (input : Input) (r : Run) : Nat :=
  match r.label with
  | .done => 0
  | .normal => stepBound (input.string.length - r.fmt) + 1
  | label => input.string.length - r.fmt + label.rank + stepBound (input.string.length - r.fallback) + 1

-- What holds at a label before a step that moves fmt without looking at it.
def Ready (input : Input) (r : Run) : Label → Prop
  | .lengthExt => r.fmt < input.string.length
  | .printNumber number => r.fmt < input.string.length ∧ 1 < number.radix
  | _ => True

structure Inv (input : Input) (r : Run) : Prop where
  inside : r.fmt ≤ input.string.length
  behind : r.fallback ≤ r.fmt
  ready : Ready input r r.label

-- What a step can do to the label and the two positions.
inductive Moves (input : Input) (r r' : Run) : Prop
  | ends (label : r'.label = .done) (fmt : r'.fmt = r.fmt) (fallback : r'.fallback = r.fallback)
  | plain (here : r.label = .normal) (label : r'.label = .normal) (inside : r.fmt < input.string.length) (fmt : r'.fmt = r.fmt + 1)
      (fallback : r'.fallback = r.fallback)
  | percent (here : r.label = .normal) (label : r'.label = .normal) (inside : r.fmt + 1 < input.string.length)
      (fmt : r'.fmt = r.fmt + 2) (fallback : r'.fallback = r.fmt + 1)
  | opens (here : r.label = .normal) (label : r'.label = .flags) (inside : r.fmt < input.string.length) (fmt : r'.fmt = r.fmt + 1)
      (fallback : r'.fallback = r.fmt + 1)
  | scans (here : 0 < r.label.rank) (label : 0 < r'.label.rank) (inside : r'.fmt ≤ input.string.length) (forward : r.fmt ≤ r'.fmt)
      (less : input.string.length - r'.fmt + r'.label.rank < input.string.length - r.fmt + r.label.rank)
      (fallback : r'.fallback = r.fallback) (ready : Ready input r' r'.label)
  | prints (here : 0 < r.label.rank) (label : r'.label = .normal) (inside : r.fmt < input.string.length) (fmt : r'.fmt = r.fmt + 1)
      (fallback : r'.fallback = r.fallback)
  | rewinds (here : r.label = .invalid) (label : r'.label = .normal) (fmt : r'.fmt = r.fallback) (fallback : r'.fallback = r.fallback)

section Proofs

variable {input : Input} {r r' : Run}

theorem char_inside {i : Nat} (some : input.char i ≠ 0) : i < input.string.length := by
  by_contra beyond
  exact some (List.getD_eq_default _ _ (by omega))

theorem char_of_eq {i : Nat} {c : Char} (same : input.char i = chr c) (some : chr c ≠ 0) : i < input.string.length :=
  char_inside (same ▸ some)

-- A step from one label of a conversion to another, with fmt where it is or further.
theorem scans_at (here next : Label) (label : r.label = here) (becomes : r'.label = next) (inv : Inv input r) (positive : 0 < next.rank)
    (lower : next.rank < here.rank) (fmt : r'.fmt = r.fmt) (fallback : r'.fallback = r.fallback) (ready : Ready input r' next) :
    Moves input r r' := by
  subst label becomes
  exact .scans (by omega) positive (fmt ▸ inv.inside) (Nat.le_of_eq fmt.symm) (by omega) fallback ready

theorem scans_past (n : Nat) (here next : Label) (label : r.label = here) (becomes : r'.label = next) (positive : 0 < next.rank)
    (lower : next.rank ≤ here.rank) (fmt : r'.fmt = r.fmt + n + 1) (inside : r.fmt + n < input.string.length)
    (fallback : r'.fallback = r.fallback) (ready : Ready input r' next) : Moves input r r' := by
  subst label becomes
  exact .scans (by omega) positive (by omega) (by omega) (by omega) fallback ready

theorem normal_moves (label : r.label = .normal) : ∃ r', stepAt input r .normal = .ok r' ∧ Moves input r r' := by
  simp only [stepAt]
  by_cases ended : input.char r.fmt = 0
  · rw [if_pos ended]
    exact ⟨_, rfl, .ends rfl rfl rfl⟩
  have inside := char_inside ended
  rw [if_neg ended]
  by_cases sign : input.char r.fmt = chr '%'
  · rw [if_pos sign]
    by_cases double : input.char (r.fmt + 1) = chr '%'
    · exact ⟨_, if_pos double, .percent label label (char_of_eq double (by decide)) rfl rfl⟩
    · exact ⟨_, if_neg double, .opens label rfl inside rfl rfl⟩
  · rw [if_neg sign]
    exact ⟨_, rfl, .plain label label inside rfl rfl⟩

theorem flags_moves (inv : Inv input r) (label : r.label = .flags) : ∃ r', stepAt input r .flags = .ok r' ∧ Moves input r r' := by
  simp only [stepAt]
  by_cases ended : input.char r.fmt = 0
  · rw [if_pos ended]
    exact ⟨_, rfl, .ends rfl rfl rfl⟩
  rw [if_neg ended]
  cases setFlag r.conversion.flags (input.char r.fmt) with
  | some flags => exact ⟨_, rfl, scans_past 0 .flags .flags label label (by decide) (by decide) rfl (char_inside ended) rfl trivial⟩
  | none => exact ⟨_, rfl, scans_at .flags .width label rfl inv (by decide) (by decide) rfl rfl trivial⟩

theorem width_moves (inv : Inv input r) (label : r.label = .width) : ∃ r', stepAt input r .width = .ok r' ∧ Moves input r r' := by
  simp only [stepAt]
  by_cases star : input.char r.fmt = chr '*'
  · have inside := char_of_eq star (by decide)
    rw [if_pos star]
    split
    · exact ⟨_, rfl, scans_past 0 .width .precision label rfl (by decide) (by decide) rfl inside rfl trivial⟩
    · exact ⟨_, rfl, scans_past 0 .width .precision label rfl (by decide) (by decide) rfl inside rfl trivial⟩
  · rw [if_neg star]
    exact ⟨_, rfl, scans_at .width .widthDigits label rfl inv (by decide) (by decide) rfl rfl trivial⟩

-- The two loops over digits.
theorem digits_move (here next : Label) (label : r.label = here) (inv : Inv input r) (more : Run) (stays : more.label = r.label)
    (fmt : more.fmt = r.fmt) (fallback : more.fallback = r.fallback) (positive : 0 < next.rank) (lower : next.rank < here.rank)
    (ready : Ready input (r.goto next) next) (ready' : Ready input more.advance here) :
    Moves input r (digitRound r (input.char r.fmt) next more) := by
  unfold digitRound
  split
  · exact .ends rfl rfl rfl
  · rename_i more_
    split
    · exact scans_past 0 here here label (stays.trans label) (Nat.zero_lt_of_lt lower) (Nat.le_refl _) (congrArg (· + 1) fmt)
        (char_inside more_) fallback ready'
    · exact scans_at here next label rfl inv positive lower rfl rfl ready

theorem precision_moves (inv : Inv input r) (label : r.label = .precision) : ∃ r', stepAt input r .precision = .ok r' ∧ Moves input r r' := by
  simp only [stepAt]
  by_cases dot : input.char r.fmt = chr '.'
  · rw [if_pos dot]
    exact ⟨_, rfl, scans_past 0 .precision .precisionGiven label rfl (by decide) (by decide) rfl (char_of_eq dot (by decide)) rfl trivial⟩
  · rw [if_neg dot]
    exact ⟨_, rfl, scans_at .precision .length label rfl inv (by decide) (by decide) rfl rfl trivial⟩

theorem precision_given_moves (inv : Inv input r) (label : r.label = .precisionGiven) :
    ∃ r', stepAt input r .precisionGiven = .ok r' ∧ Moves input r r' := by
  simp only [stepAt]
  by_cases star : input.char r.fmt = chr '*'
  · rw [if_pos star]
    exact ⟨_, rfl, scans_past 0 .precisionGiven .length label rfl (by decide) (by decide) rfl (char_of_eq star (by decide)) rfl trivial⟩
  · rw [if_neg star]
    exact ⟨_, rfl, scans_at .precisionGiven .precisionDigits label rfl inv (by decide) (by decide) rfl rfl trivial⟩

theorem length_moves (inv : Inv input r) (label : r.label = .length) : ∃ r', stepAt input r .length = .ok r' ∧ Moves input r r' := by
  have extends_ (lengthPrefix : LengthPrefix) (inside : r.fmt < input.string.length) :
      Moves input r ((r.setLength lengthPrefix).goto .lengthExt) :=
    scans_at .length .lengthExt label rfl inv (by decide) (by decide) rfl rfl inside
  have passes (lengthPrefix : LengthPrefix) (inside : r.fmt < input.string.length) :
      Moves input r ((r.setLength lengthPrefix).advance.goto .modifiers) :=
    scans_past 0 .length .modifiers label rfl (by decide) (by decide) rfl inside rfl trivial
  simp only [stepAt]
  by_cases h : input.char r.fmt = chr 'h'
  · exact ⟨_, if_pos h, extends_ .h (char_of_eq h (by decide))⟩
  rw [if_neg h]
  by_cases l : input.char r.fmt = chr 'l'
  · exact ⟨_, if_pos l, extends_ .l (char_of_eq l (by decide))⟩
  rw [if_neg l]
  by_cases j : input.char r.fmt = chr 'j'
  · exact ⟨_, if_pos j, passes .j (char_of_eq j (by decide))⟩
  rw [if_neg j]
  by_cases z : input.char r.fmt = chr 'z'
  · exact ⟨_, if_pos z, passes .z (char_of_eq z (by decide))⟩
  rw [if_neg z]
  by_cases t : input.char r.fmt = chr 't'
  · exact ⟨_, if_pos t, passes .t (char_of_eq t (by decide))⟩
  rw [if_neg t]
  by_cases L : input.char r.fmt = chr 'L'
  · exact ⟨_, if_pos L, passes .longDouble (char_of_eq L (by decide))⟩
  rw [if_neg L]
  exact ⟨_, rfl, scans_at .length .modifiers label rfl inv (by decide) (by decide) rfl rfl trivial⟩

theorem length_ext_moves (inv : Inv input r) (label : r.label = .lengthExt) :
    ∃ r', stepAt input r .lengthExt = .ok r' ∧ Moves input r r' := by
  have inside : r.fmt < input.string.length := by
    have ready := inv.ready
    rw [label] at ready
    exact ready
  have passes (lengthPrefix : LengthPrefix) (inside : r.fmt + 1 < input.string.length) :
      Moves input r ((r.advance.setLength lengthPrefix).advance.goto .modifiers) :=
    scans_past 1 .lengthExt .modifiers label rfl (by decide) (by decide) rfl inside rfl trivial
  simp only [stepAt]
  by_cases h : input.char (r.fmt + 1) = chr 'h'
  · exact ⟨_, if_pos h, passes .hh (char_of_eq h (by decide))⟩
  by_cases l : input.char (r.fmt + 1) = chr 'l'
  · exact ⟨_, (if_neg h).trans (if_pos l), passes .ll (char_of_eq l (by decide))⟩
  · exact ⟨_, (if_neg h).trans (if_neg l),
      scans_past 0 .lengthExt .modifiers label rfl (by decide) (by decide) rfl inside rfl trivial⟩

theorem modifiers_moves (inv : Inv input r) (label : r.label = .modifiers) : ∃ r', stepAt input r .modifiers = .ok r' ∧ Moves input r r' := by
  simp only [stepAt]
  split
  · exact ⟨_, rfl, scans_at .modifiers .invalid label rfl inv (by decide) (by decide) rfl rfl trivial⟩
  · split
    · exact ⟨_, rfl, scans_at .modifiers .conversion label rfl inv (by decide) (by decide) rfl rfl trivial⟩
    · exact ⟨_, rfl, scans_at .modifiers .conversion label rfl inv (by decide) (by decide) rfl rfl trivial⟩

theorem number_of_radix {flags : Flags} {specifier : UInt8} {value : Slot} {number : Number} {value' : Slot}
    (found : numberOf flags specifier value = some (number, value')) : 1 < number.radix := by
  unfold numberOf at found
  repeat' split at found
  all_goals cases found
  all_goals
    dsimp only
    decide

theorem conversion_moves (inv : Inv input r) (label : r.label = .conversion) :
    ∃ r', stepAt input r .conversion = .ok r' ∧ Moves input r r' := by
  have rank : 0 < r.label.rank := by
    rw [label]
    decide
  simp only [stepAt]
  by_cases ended : input.char r.fmt = 0
  · exact ⟨_, if_pos ended, .ends rfl rfl rfl⟩
  have inside := char_inside ended
  rw [if_neg ended]
  by_cases c : input.char r.fmt = chr 'c'
  · exact ⟨_, if_pos c, .prints rank rfl inside rfl rfl⟩
  rw [if_neg c]
  by_cases s : input.char r.fmt = chr 's'
  · exact ⟨_, if_pos s, .prints rank rfl inside rfl rfl⟩
  rw [if_neg s]
  cases number : numberOf r.conversion.flags (input.char r.fmt) r.value with
  | none => exact ⟨_, rfl, scans_at .conversion .invalid label rfl inv (by decide) (by decide) rfl rfl trivial⟩
  | some found =>
      exact ⟨_, rfl, scans_at .conversion (.printNumber found.1) label rfl inv Nat.zero_lt_one Nat.one_lt_two rfl rfl
        ⟨inside, number_of_radix number⟩⟩

-- The loops over the powers and the digits end.
theorem print_number_ends (input : Input) (conversion : Conversion) (number : Number) (value : Slot) (large : 1 < number.radix) :
    ∃ bytes, printNumberWith (fun n => .ok (input.int n)) conversion number value.toNat = .ok bytes := by
  obtain ⟨pw, shown, power, printed, _⟩ := number_loops number conversion.precision large value.isLt
  unfold printNumberWith
  simp only [power, bind_ok, printed]
  exact ⟨_, (apply_ite Except.ok _ _ _).symm⟩

theorem print_number_moves (inv : Inv input r) (number : Number) (label : r.label = .printNumber number) :
    ∃ r', stepAt input r (.printNumber number) = .ok r' ∧ Moves input r r' := by
  obtain ⟨inside, large⟩ : r.fmt < input.string.length ∧ 1 < number.radix := by
    have ready := inv.ready
    rw [label] at ready
    exact ready
  obtain ⟨bytes, printed⟩ := print_number_ends input r.conversion number r.value large
  have rank : 0 < r.label.rank := by
    rw [label]
    exact Nat.zero_lt_one
  refine ⟨(r.advance.putchars bytes).goto .normal, ?_, .prints rank rfl inside rfl rfl⟩
  simp only [stepAt]
  rw [show r.advance.conversion = r.conversion from rfl, show r.advance.value = r.value from rfl, printed]
  rfl

theorem step_moves (inv : Inv input r) (goes : r.label ≠ .done) : ∃ r', step input r = .ok r' ∧ Moves input r r' := by
  unfold step
  cases label : r.label with
  | normal => exact normal_moves label
  | flags => exact flags_moves inv label
  | width => exact width_moves inv label
  | widthDigits => exact ⟨_, rfl, digits_move .widthDigits .precision label inv _ rfl rfl rfl (by decide) (by decide) trivial trivial⟩
  | precision => exact precision_moves inv label
  | precisionGiven => exact precision_given_moves inv label
  | precisionDigits => exact ⟨_, rfl, digits_move .precisionDigits .length label inv _ rfl rfl rfl (by decide) (by decide) trivial trivial⟩
  | length => exact length_moves inv label
  | lengthExt => exact length_ext_moves inv label
  | modifiers => exact modifiers_moves inv label
  | conversion => exact conversion_moves inv label
  | printNumber number => exact print_number_moves inv number label
  | invalid => exact ⟨_, rfl, .rewinds label rfl rfl rfl⟩
  | done => exact absurd label goes

theorem moves_inv (inv : Inv input r) (moves : Moves input r r') : Inv input r' := by
  obtain ⟨inside, behind, _⟩ := inv
  cases moves with
  | ends label fmt fallback => exact ⟨by omega, by omega, label ▸ trivial⟩
  | plain _ label _ fmt fallback => exact ⟨by omega, by omega, label ▸ trivial⟩
  | percent _ label _ fmt fallback => exact ⟨by omega, by omega, label ▸ trivial⟩
  | opens _ label _ fmt fallback => exact ⟨by omega, by omega, label ▸ trivial⟩
  | scans _ _ _ forward _ fallback ready => exact ⟨by omega, by omega, ready⟩
  | prints _ label _ fmt fallback => exact ⟨by omega, by omega, label ▸ trivial⟩
  | rewinds _ label fmt fallback => exact ⟨by omega, by omega, label ▸ trivial⟩

theorem bound_succ (left : Nat) : stepBound (left + 1) = stepBound left + (2 * left + 16) := by
  unfold stepBound
  ring

theorem bound_le {left left' : Nat} (le : left ≤ left') : stepBound left ≤ stepBound left' :=
  Nat.mul_le_mul (by omega) (by omega)

theorem measure_done (label : r.label = .done) : measure input r = 0 := by
  rw [measure, label]

theorem measure_normal (label : r.label = .normal) : measure input r = stepBound (input.string.length - r.fmt) + 1 := by
  rw [measure, label]

theorem measure_inner (label : 0 < r.label.rank) :
    measure input r = input.string.length - r.fmt + r.label.rank + stepBound (input.string.length - r.fallback) + 1 := by
  unfold measure
  cases here : r.label <;> rw [here] at label <;> first | rfl | exact absurd label (Nat.lt_irrefl 0)

theorem measure_positive (goes : r.label ≠ .done) : 0 < measure input r := by
  unfold measure
  split
  · rename_i done
    exact absurd done goes
  · exact Nat.succ_pos _
  · exact Nat.succ_pos _

theorem moves_less (inv : Inv input r) (goes : r.label ≠ .done) (moves : Moves input r r') : measure input r' < measure input r := by
  obtain ⟨inside, behind, _⟩ := inv
  cases moves with
  | ends label _ _ =>
      rw [measure_done label]
      exact measure_positive goes
  | plain here label more fmt _ =>
      rw [measure_normal here, measure_normal label, fmt]
      have next := bound_succ (input.string.length - (r.fmt + 1))
      rw [show input.string.length - (r.fmt + 1) + 1 = input.string.length - r.fmt by omega] at next
      omega
  | percent here label more fmt _ =>
      rw [measure_normal here, measure_normal label, fmt]
      have next := bound_succ (input.string.length - (r.fmt + 1))
      rw [show input.string.length - (r.fmt + 1) + 1 = input.string.length - r.fmt by omega] at next
      have later := bound_le (show input.string.length - (r.fmt + 2) ≤ input.string.length - (r.fmt + 1) by omega)
      omega
  | opens here label more fmt fallback =>
      -- The percent sign pays for a scan of all that follows it.
      have rank : r'.label.rank = 11 := by
        rw [label]
        rfl
      rw [measure_normal here, measure_inner (by omega), rank, fmt, fallback]
      have next := bound_succ (input.string.length - (r.fmt + 1))
      rw [show input.string.length - (r.fmt + 1) + 1 = input.string.length - r.fmt by omega] at next
      omega
  | scans here label _ _ less fallback _ =>
      rw [measure_inner here, measure_inner label, fallback]
      omega
  | prints here label more fmt _ =>
      rw [measure_inner here, measure_normal label, fmt]
      have fewer := bound_le (show input.string.length - (r.fmt + 1) ≤ input.string.length - r.fallback by omega)
      omega
  | rewinds here label fmt _ =>
      have rank : r.label.rank = 1 := by
        rw [here]
        rfl
      rw [measure_inner (r := r) (by omega), measure_normal label, fmt]
      omega

theorem done_step (label : r.label = .done) : step input r = .ok r := by
  rw [step, label]
  rfl

theorem done_stays (label : r.label = .done) (k : Nat) : after input k r = .ok r := by
  induction k with
  | zero => rfl
  | succ k ih =>
      rw [after, done_step label]
      exact ih

theorem step_inv (inv : Inv input r) : ∃ r', step input r = .ok r' ∧ Inv input r' := by
  by_cases label : r.label = .done
  · exact ⟨r, done_step label, inv⟩
  · obtain ⟨r', taken, moves⟩ := step_moves inv label
    exact ⟨r', taken, moves_inv inv moves⟩

theorem after_inv (inv : Inv input r) (k : Nat) : ∃ r', after input k r = .ok r' ∧ Inv input r' := by
  induction k generalizing r with
  | zero => exact ⟨r, rfl, inv⟩
  | succ k ih =>
      obtain ⟨r₁, taken, inv₁⟩ := step_inv inv
      obtain ⟨r', ran, inv'⟩ := ih inv₁
      refine ⟨r', ?_, inv'⟩
      rw [after, taken]
      exact ran

-- As many steps as the measure are enough.
theorem run_ends (inv : Inv input r) : ∃ r', after input (measure input r) r = .ok r' ∧ r'.label = .done := by
  suffices ends : ∀ k, measure input r ≤ k → ∃ r', after input k r = .ok r' ∧ r'.label = .done from ends _ (Nat.le_refl _)
  intro k
  induction k generalizing r with
  | zero =>
      intro none
      refine ⟨r, rfl, ?_⟩
      by_contra goes
      have some : 0 < measure input r := measure_positive goes
      omega
  | succ k ih =>
      intro enough
      by_cases label : r.label = .done
      · exact ⟨r, done_stays label _, label⟩
      · obtain ⟨r₁, taken, moves⟩ := step_moves inv label
        have less := moves_less inv label moves
        obtain ⟨r', ran, ends⟩ := ih (moves_inv inv moves) (by omega)
        refine ⟨r', ?_, ends⟩
        rw [after, taken]
        exact ran

-- Since a state at lbl_normal, a later percent sign has been read, or none and fmt has
-- gone on.
def Since (fallback fmt : Nat) (r : Run) : Prop :=
  fmt < r.fallback ∨ r.fallback = fallback ∧ r.label.rank = 0 ∧ (r.label = .normal → fmt < r.fmt)

theorem since_step {fallback fmt : Nat} (inv : Inv input r) (since : Since fallback fmt r) (moves : Moves input r r') :
    Since fallback fmt r' := by
  have behind := inv.behind
  rcases since with later | ⟨same, outer, ahead⟩
  · left
    cases moves <;> omega
  · cases moves with
    | ends label _ fallback =>
        refine .inr ⟨fallback.trans same, label ▸ rfl, fun normal => ?_⟩
        rw [label] at normal
        cases normal
    | plain here label _ fmt fallback =>
        have past := ahead here
        exact .inr ⟨fallback.trans same, label ▸ rfl, fun _ => by omega⟩
    | percent here _ _ _ fallback | opens here _ _ _ fallback =>
        have past := ahead here
        exact .inl (by omega)
    | scans here | prints here => omega
    | rewinds here =>
        rw [here] at outer
        cases outer

theorem since_normal (label : r.label = .normal) (moves : Moves input r r') : Since r.fallback r.fmt r' := by
  cases moves with
  | ends label' _ fallback =>
      refine .inr ⟨fallback, label' ▸ rfl, fun normal => ?_⟩
      rw [label'] at normal
      cases normal
  | plain _ label' _ fmt fallback => exact .inr ⟨fallback, label' ▸ rfl, fun _ => by omega⟩
  | percent _ _ _ _ fallback | opens _ _ _ _ fallback => exact .inl (by omega)
  | scans here | prints here =>
      rw [label] at here
      exact absurd here (Nat.lt_irrefl 0)
  | rewinds here =>
      rw [label] at here
      cases here

theorem since_run {fallback fmt : Nat} (k : Nat) (inv : Inv input r) (since : Since fallback fmt r) (ran : after input k r = .ok r') :
    Since fallback fmt r' := by
  induction k generalizing r with
  | zero =>
      cases ran
      exact since
  | succ k ih =>
      by_cases label : r.label = .done
      · rw [done_stays label] at ran
        cases ran
        exact since
      · obtain ⟨r₁, taken, moves⟩ := step_moves inv label
        rw [after, taken] at ran
        exact ih (moves_inv inv moves) (since_step inv since moves) ran

theorem start_inv : Inv input start := ⟨Nat.zero_le _, Nat.le_refl _, trivial⟩

end Proofs

theorem format_terminates (input : Input) :
    (∃ k r, after input k start = .ok r ∧ r.label = .done) ∧
      (∀ k, ∃ r, after input k start = .ok r ∧ r.fmt ≤ input.string.length) ∧
      ∀ k j r r', after input k start = .ok r → r.label = .normal → after input (j + 1) r = .ok r' → r'.label = .normal →
        r.fallback < r'.fallback ∨ r.fallback = r'.fallback ∧ r.fmt < r'.fmt := by
  have first : Inv input start := start_inv
  refine ⟨?_, fun k => ?_, fun k j r r' ran label later label' => ?_⟩
  · obtain ⟨r, ran, ends⟩ := run_ends first
    exact ⟨_, r, ran, ends⟩
  · obtain ⟨r, ran, inv⟩ := after_inv first k
    exact ⟨r, ran, inv.inside⟩
  · obtain ⟨r₀, ran₀, inv⟩ := after_inv first k
    rw [ran] at ran₀
    cases ran₀
    obtain ⟨r₁, taken, moves⟩ := step_moves inv (by rw [label]; nofun)
    rw [after, taken] at later
    have behind := inv.behind
    rcases since_run j (moves_inv inv moves) (since_normal label moves) later with further | ⟨same, _, ahead⟩
    · exact .inl (by omega)
    · exact .inr ⟨same.symm, ahead label'⟩

end Elysium.Format
