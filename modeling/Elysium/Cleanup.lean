import Mathlib.Control.Monad.Writer

set_option autoImplicit false

namespace Elysium.Cleanup

-- A computation that may fail, with what it has released when it returns.
abbrev Releasing (ε ρ : Type) : Type → Type := WriterT (List ρ) (Except ε)

section Operations

variable {ε ρ α : Type}

def release (x : ρ) : Releasing ε ρ Unit := tell [x]

-- What is left of a scope, and what is run on leaving it, whichever way it is left.
def onLeaving (scope : Releasing ε ρ α) (leave : α → Releasing ε ρ Unit) : Releasing ε ρ α := do
  let result ← scope
  leave result
  pure result

-- What is returned, when nothing is said about what was released.
def outcome (run : Releasing ε ρ α) : Except ε α := run.run.map Prod.fst

-- What holds of the result of a run that returns, and of everything it has released.
def Ensures (P : ρ → Prop) (Q : α → Prop) (run : Releasing ε ρ α) : Prop :=
  ∀ result released, run.run = .ok (result, released) → Q result ∧ ∀ x ∈ released, P x

end Operations

section Runs

variable {ε ρ α β : Type} {released : List ρ}

theorem pure_returns {value result : α} : (pure value : Releasing ε ρ α).run = .ok (result, released) ↔ value = result ∧ [] = released :=
  ⟨fun ran => Prod.mk.inj (Except.ok.inj ran), fun same => congrArg Except.ok (Prod.ext same.1 same.2)⟩

theorem lift_returns {value : Except ε α} {result : α} :
    (liftM value : Releasing ε ρ α).run = .ok (result, released) ↔ value = .ok result ∧ [] = released := by
  cases value with
  | error error => exact iff_of_false (fun same => nomatch same) (fun same => nomatch same.1)
  | ok value =>
      rw [Except.ok.injEq]
      exact pure_returns

theorem release_returns {x : ρ} {result : Unit} : (release x : Releasing ε ρ Unit).run = .ok (result, released) ↔ [x] = released :=
  ⟨fun ran => (Prod.mk.inj (Except.ok.inj ran)).2, fun same => congrArg Except.ok (Prod.ext rfl same)⟩

theorem bind_returns {first : Releasing ε ρ α} {next : α → Releasing ε ρ β} {result : β} :
    (first >>= next).run = .ok (result, released) ↔
      ∃ a before after, first.run = .ok (a, before) ∧ (next a).run = .ok (result, after) ∧ before ++ after = released := by
  change (first.run >>= fun ran => (fun last => (last.1, ran.2 ++ last.2)) <$> (next ran.1).run) = _ ↔ _
  cases first.run with
  | error error => simp [bind, Except.bind]
  | ok ran =>
      obtain ⟨a, before⟩ := ran
      change (fun last : β × List ρ => (last.1, before ++ last.2)) <$> (next a).run = _ ↔ _
      constructor
      · intro mapped
        cases later : (next a).run with
        | error error =>
            rw [later] at mapped
            cases mapped
        | ok last =>
            rw [later] at mapped
            obtain ⟨same, both⟩ := Prod.mk.inj (Except.ok.inj mapped)
            exact ⟨a, before, last.2, rfl, later.trans (congrArg Except.ok (Prod.ext same rfl)), both⟩
      · rintro ⟨a', before', after, returned, later, both⟩
        obtain ⟨rfl, rfl⟩ := Prod.mk.inj (Except.ok.inj returned)
        rw [later]
        exact congrArg Except.ok (Prod.ext rfl both)

-- The releases of a scope, and then those on leaving it.
theorem on_leaving_returns {scope : Releasing ε ρ α} {leave : α → Releasing ε ρ Unit} {result : α} :
    (onLeaving scope leave).run = .ok (result, released) ↔
      ∃ before after, scope.run = .ok (result, before) ∧ (leave result).run = .ok ((), after) ∧ before ++ after = released := by
  rw [onLeaving, bind_returns]
  constructor
  · rintro ⟨a, before, rest, ran, ranLast, rfl⟩
    obtain ⟨_, after, _, left, returned, rfl⟩ := bind_returns.mp ranLast
    obtain ⟨rfl, rfl⟩ := pure_returns.mp returned
    exact ⟨before, after, ran, left, congrArg (before ++ ·) (List.append_nil after).symm⟩
  · rintro ⟨before, after, ran, left, rfl⟩
    exact ⟨result, before, after, ran, bind_returns.mpr ⟨(), after, [], left, pure_returns.mpr ⟨rfl, rfl⟩, List.append_nil _⟩, rfl⟩

end Runs

section Rules

variable {ε ρ α β : Type} {P : ρ → Prop} {Q : α → Prop} {R : β → Prop}

theorem ensures_pure {value : α} (holds : Q value) : Ensures P Q (pure value : Releasing ε ρ α) := by
  intro result released ran
  obtain ⟨rfl, rfl⟩ := pure_returns.mp ran
  exact ⟨holds, fun x member => absurd member List.not_mem_nil⟩

theorem ensures_lift {value : Except ε α} (holds : ∀ a, value = .ok a → Q a) : Ensures P Q (liftM value : Releasing ε ρ α) := by
  intro result released ran
  obtain ⟨returned, rfl⟩ := lift_returns.mp ran
  exact ⟨holds result returned, fun x member => absurd member List.not_mem_nil⟩

theorem ensures_release {x : ρ} (holds : P x) : Ensures P (fun _ => True) (release x : Releasing ε ρ Unit) := by
  intro result released ran
  rw [← release_returns.mp ran]
  exact ⟨trivial, fun y member => List.mem_singleton.mp member ▸ holds⟩

theorem ensures_bind {first : Releasing ε ρ α} {next : α → Releasing ε ρ β} (here : Ensures P Q first) (there : ∀ a, Q a → Ensures P R (next a)) :
    Ensures P R (first >>= next) := by
  intro result released ran
  obtain ⟨a, before, after, ranFirst, ranNext, rfl⟩ := bind_returns.mp ran
  obtain ⟨holds, inFirst⟩ := here a before ranFirst
  obtain ⟨returned, inNext⟩ := there a holds result after ranNext
  exact ⟨returned, fun x member => (List.mem_append.mp member).elim (inFirst x) (inNext x)⟩

-- A step that is lifted releases nothing, so that the result is all there is to say.
theorem ensures_step {value : Except ε α} {next : α → Releasing ε ρ β} (there : ∀ a, value = .ok a → Ensures P R (next a)) :
    Ensures P R (liftM value >>= next) :=
  ensures_bind (ensures_lift fun _ returned => returned) there

theorem ensures_leaving {scope : Releasing ε ρ α} {leave : α → Releasing ε ρ Unit} (inside : Ensures P Q scope)
    (left : ∀ a, Ensures P (fun _ => True) (leave a)) : Ensures P Q (onLeaving scope leave) :=
  ensures_bind inside fun a holds => ensures_bind (left a) fun _ _ => ensures_pure holds

theorem ensures_ite {condition : Prop} [Decidable condition] {first second : Releasing ε ρ α} (yes : condition → Ensures P Q first)
    (no : ¬ condition → Ensures P Q second) : Ensures P Q (if condition then first else second) := by
  by_cases holds : condition
  · rw [if_pos holds]
    exact yes holds
  · rw [if_neg holds]
    exact no holds

end Rules

section Outcomes

variable {ε ρ α β : Type}

@[simp] theorem outcome_pure (value : α) : outcome (pure value : Releasing ε ρ α) = .ok value := rfl

@[simp] theorem outcome_lift (value : Except ε α) : outcome (liftM value : Releasing ε ρ α) = value := by
  cases value <;> rfl

@[simp] theorem outcome_release (x : ρ) : outcome (release x : Releasing ε ρ Unit) = .ok () := rfl

@[simp] theorem outcome_bind (first : Releasing ε ρ α) (next : α → Releasing ε ρ β) :
    outcome (first >>= next) = outcome first >>= fun a => outcome (next a) := by
  change (first.run >>= fun ran => (fun last => (last.1, ran.2 ++ last.2)) <$> (next ran.1).run).map Prod.fst = first.run.map Prod.fst >>= _
  cases first.run with
  | error error => rfl
  | ok ran =>
      change ((fun last : β × List ρ => (last.1, ran.2 ++ last.2)) <$> (next ran.1).run).map Prod.fst = (next ran.1).run.map Prod.fst
      cases (next ran.1).run <;> rfl

@[simp] theorem outcome_ite {condition : Prop} [Decidable condition] (first second : Releasing ε ρ α) :
    outcome (if condition then first else second) = if condition then outcome first else outcome second := apply_ite outcome _ _ _

-- What is run on leaving a scope does not change what it returns.
theorem outcome_leaving {scope : Releasing ε ρ α} {leave : α → Releasing ε ρ Unit} (left : ∀ a, outcome (leave a) = .ok ()) :
    outcome (onLeaving scope leave) = outcome scope := by
  simp only [onLeaving, outcome_bind, left, outcome_pure]
  cases outcome scope <;> rfl

end Outcomes

end Elysium.Cleanup
