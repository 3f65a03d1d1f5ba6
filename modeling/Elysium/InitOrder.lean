import Elysium.Init
import Mathlib.Data.Fintype.Card
import Mathlib.Data.List.Perm.Basic

set_option autoImplicit false

namespace Elysium.Init

-- A loop whose rounds all return, with what holds after the items done so far.
theorem fold_some {α β : Type} {f : β → α → Option β} (inv : List α → β → Prop) (items : List α)
    (round : ∀ done item b, item ∈ items → inv done b → ∃ b', f b item = some b' ∧ inv (done ++ [item]) b')
    {done : List α} {b : β} (first : inv done b) : ∃ b', items.foldlM f b = some b' ∧ inv (done ++ items) b' := by
  induction items generalizing done b with
  | nil => exact ⟨b, rfl, by simpa using first⟩
  | cons item rest ih =>
      obtain ⟨b₁, step, kept⟩ := round done item b (List.mem_cons_self ..) first
      have later : ∀ done item b, item ∈ rest → inv done b → ∃ b', f b item = some b' ∧ inv (done ++ [item]) b' :=
        fun done item b member => round done item b (List.mem_cons_of_mem _ member)
      obtain ⟨b', run, last⟩ := ih later kept
      refine ⟨b', ?_, by simpa using last⟩
      rw [List.foldlM_cons, step]
      exact run

section Order

variable {targets : List Target}

theorem find_target_some {stage : Stage} {name : String} {i : Fin targets.length} (found : findTarget targets stage name = some i) :
    (targets.get i).stage = stage ∧ (targets.get i).name = name := by
  simpa using List.find?_some found

theorem find_target_depends {i dep : Fin targets.length} {name : String} (member : name ∈ (targets.get i).dependencies)
    (found : findTarget targets (targets.get i).stage name = some dep) : DependsOn targets i dep := by
  obtain ⟨stage, same⟩ := find_target_some found
  exact ⟨stage, same ▸ member⟩

theorem depends_find_target (unique : ∀ i j : Fin targets.length, (targets.get i).stage = (targets.get j).stage →
      (targets.get i).name = (targets.get j).name → i = j)
    {i dep : Fin targets.length} (depends : DependsOn targets i dep) :
    findTarget targets (targets.get i).stage (targets.get dep).name = some dep := by
  cases found : findTarget targets (targets.get i).stage (targets.get dep).name with
  | none =>
      have missing := List.find?_eq_none.mp found dep (List.mem_finRange dep)
      exact absurd (by simpa using depends.1) missing
  | some other =>
      obtain ⟨stage, name⟩ := find_target_some found
      rw [unique other dep (stage.trans depends.1.symm) name]

def InScope (isAp : Bool) (i : Fin targets.length) : Prop := doTarget (targets.get i).scope isAp = true

-- What one CPU has run: every target once, each after its dependencies, no stage before an earlier one.
structure InOrder (isAp : Bool) (ran : List (Fin targets.length)) : Prop where
  once : ran.Nodup
  scope : ∀ i ∈ ran, InScope isAp i
  dependencies : ∀ before i after, ran = before ++ i :: after → ∀ dep, DependsOn targets i dep → InScope isAp dep → dep ∈ before
  staged : ran.Pairwise fun i j => (targets.get i).stage.number ≤ (targets.get j).stage.number

theorem in_order_nil (isAp : Bool) : InOrder isAp ([] : List (Fin targets.length)) :=
  ⟨List.nodup_nil, by simp, by simp, List.Pairwise.nil⟩

theorem in_order_append {isAp : Bool} {ran : List (Fin targets.length)} {i : Fin targets.length} (order : InOrder isAp ran)
    (fresh : i ∉ ran) (scope : InScope isAp i) (ready : ∀ dep, DependsOn targets i dep → InScope isAp dep → dep ∈ ran)
    (stage : ∀ j ∈ ran, (targets.get j).stage.number ≤ (targets.get i).stage.number) : InOrder isAp (ran ++ [i]) where
  once := List.nodup_append.mpr ⟨order.once, List.nodup_singleton i, by
    intro j member k last
    rw [List.mem_singleton.mp last]
    exact fun same => fresh (same ▸ member)⟩
  scope := by
    intro j member
    cases List.mem_append.mp member with
    | inl old => exact order.scope j old
    | inr new => exact List.mem_singleton.mp new ▸ scope
  dependencies := by
    intro before j after split
    -- The target is the last one, or the split is one of ran.
    cases List.eq_nil_or_concat after with
    | inl nil =>
        rw [nil] at split
        obtain ⟨rfl, last⟩ := List.append_inj' split rfl
        rw [← List.head_eq_of_cons_eq last]
        exact ready
    | inr concat =>
        obtain ⟨rest, last, rfl⟩ := concat
        have shifted : ran ++ [i] = (before ++ j :: rest) ++ [last] := by simpa using split
        have front : ran = before ++ j :: rest := (List.append_inj' shifted rfl).1
        exact order.dependencies before j rest front
  staged := List.pairwise_append.mpr ⟨order.staged, List.pairwise_singleton _ i, by
    intro j member k last
    rw [List.mem_singleton.mp last]
    exact stage j member⟩

-- A CPU in the middle of its stages: it started with the trace t₀ and has run these targets.
structure Phase (cpu : Nat) (isAp : Bool) (t₀ : List (Nat × Fin targets.length)) (s : State targets.length)
    (ran : List (Fin targets.length)) : Prop where
  trace : s.trace = t₀ ++ ran.map fun i => (cpu, i)
  order : InOrder isAp ran
  completed : ∀ i, InScope isAp i → (s.completed i = true ↔ i ∈ ran)
  reached : ∀ i ∈ ran, (targets.get i).stage.number ≤ s.stageCurrent.number

variable {cpu : Nat} {isAp : Bool} {t₀ : List (Nat × Fin targets.length)} {s : State targets.length} {ran : List (Fin targets.length)}

theorem phase_complete {i : Fin targets.length} (phase : Phase cpu isAp t₀ s ran) (stage : (targets.get i).stage = s.stageCurrent)
    (scope : InScope isAp i) (pending : s.completed i = false)
    (ready : ∀ dep, DependsOn targets i dep → InScope isAp dep → dep ∈ ran) :
    Phase cpu isAp t₀ { s with completed := Function.update s.completed i true, trace := s.trace ++ [(cpu, i)] } (ran ++ [i]) where
  trace := by simp [phase.trace]
  order := by
    have fresh : i ∉ ran := fun member => by simp [(phase.completed i scope).mpr member] at pending
    exact in_order_append phase.order fresh scope ready fun j member => stage ▸ phase.reached j member
  completed := by
    intro j inside
    by_cases same : j = i
    · simp [same]
    · simp [same, phase.completed j inside]
  reached := by
    intro j member
    cases List.mem_append.mp member with
    | inl old => exact phase.reached j old
    | inr new => rw [List.mem_singleton.mp new, stage]

-- A call goes on from a phase, and has run some more targets of its stage when it returns.
def Advances (cpu : Nat) (isAp : Bool) (t₀ : List (Nat × Fin targets.length)) (s s' : State targets.length)
    (ran ran' : List (Fin targets.length)) : Prop :=
  Phase cpu isAp t₀ s' ran' ∧ s'.stageCurrent = s.stageCurrent ∧ ran ⊆ ran'

theorem run_dependencies (unique : ∀ i j : Fin targets.length, (targets.get i).stage = (targets.get j).stage →
      (targets.get i).name = (targets.get j).name → i = j) 
    {run : Fin targets.length → State targets.length → Option (State targets.length)} {i : Fin targets.length}
    (phase : Phase cpu isAp t₀ s ran)
    (each : ∀ dep s₁ ran₁, DependsOn targets i dep → Advances cpu isAp t₀ s s₁ ran ran₁ →
      ∃ s' ran', run dep s₁ = some s' ∧ Advances cpu isAp t₀ s₁ s' ran₁ ran' ∧ (InScope isAp dep → dep ∈ ran')) :
    ∃ s' ran', runDependencies targets run i s = some s' ∧
      Advances cpu isAp t₀ s s' ran ran' ∧ ∀ dep, DependsOn targets i dep → InScope isAp dep → dep ∈ ran' := by
  let inv : List String → State targets.length → Prop := fun done s' =>
    ∃ ran', Advances cpu isAp t₀ s s' ran ran' ∧ ∀ name ∈ done, ∀ dep,
      findTarget targets (targets.get i).stage name = some dep → InScope isAp dep → dep ∈ ran'
  have first : inv [] s := ⟨ran, ⟨phase, rfl, List.Subset.refl ran⟩, fun name member => absurd member List.not_mem_nil⟩
  have loop := fold_some (f := runDependency targets run (targets.get i).stage) inv (targets.get i).dependencies ?_ first
  · obtain ⟨s', returned, ran', advanced, done⟩ := loop
    refine ⟨s', ran', returned, advanced, fun dep depends inside => ?_⟩
    exact done _ (by simpa using depends.2) dep (depends_find_target unique depends) inside
  · intro done name b member kept
    obtain ⟨ran₁, advanced, known⟩ := kept
    cases found : findTarget targets (targets.get i).stage name with
    | none =>
        refine ⟨b, by rw [runDependency, found], ran₁, advanced, fun other listed dep hit => ?_⟩
        cases List.mem_append.mp listed with
        | inl old => exact known other old dep hit
        | inr new => simp only [List.mem_singleton.mp new, found, reduceCtorEq] at hit
    | some dep =>
        obtain ⟨b', ran', returned, ⟨phase', stage', more'⟩, included⟩ :=
          each dep b ran₁ (find_target_depends member found) advanced
        refine ⟨b', by rw [runDependency, found]; exact returned, ran', ⟨phase', stage'.trans advanced.2.1, List.Subset.trans advanced.2.2 more'⟩,
          fun other listed dep' hit inside => ?_⟩
        cases List.mem_append.mp listed with
        | inl old => exact more' (known other old dep' hit inside)
        | inr new =>
            rw [List.mem_singleton.mp new, found] at hit
            cases hit
            exact included inside

-- The targets being run are on a path of dependencies that has no target twice, so
-- that the recursion is no deeper than there are targets.
theorem run_target_spec (valid : WellFormed targets) {fuel : Nat} {i : Fin targets.length} {path : List (Fin targets.length)}
    (enough : targets.length ≤ fuel + path.length) (distinct : path.Nodup)
    (above : ∀ j ∈ path, Relation.TransGen (DependsOn targets) j i) (phase : Phase cpu isAp t₀ s ran)
    (stage : (targets.get i).stage = s.stageCurrent) :
    ∃ s' ran', runTarget targets cpu isAp fuel i s = some s' ∧ Advances cpu isAp t₀ s s' ran ran' ∧
      (InScope isAp i → i ∈ ran') := by
  induction fuel generalizing i path s ran with
  | zero =>
      have fresh : i ∉ path := fun member => valid.acyclic i (above i member)
      have bound : (i :: path).length ≤ targets.length := by
        simpa using (List.nodup_cons.mpr ⟨fresh, distinct⟩).length_le_card
      rw [List.length_cons] at bound
      omega
  | succ fuel ih =>
      have next : (i :: path).Nodup := List.nodup_cons.mpr ⟨fun member => valid.acyclic i (above i member), distinct⟩
      have room : targets.length ≤ fuel + (i :: path).length := by
        rw [List.length_cons]
        omega
      obtain ⟨s₁, ran₁, run, ⟨phase₁, stage₁, more⟩, ready⟩ := run_dependencies valid.unique phase (by
        intro dep s₁ ran₁ depends advanced
        refine ih room next (fun j listed => ?_) advanced.1 (depends.1.trans (stage.trans advanced.2.1.symm))
        cases List.mem_cons.mp listed with
        | inl same => exact same ▸ .single depends
        | inr old => exact (above j old).tail depends)
      rw [runTarget, run]
      simp only [Option.bind_eq_bind, Option.bind_some]
      by_cases skip : (!doTarget (targets.get i).scope isAp || s₁.completed i) = true
      · rw [if_pos skip]
        refine ⟨s₁, ran₁, rfl, ⟨phase₁, stage₁, more⟩, fun inside => (phase₁.completed i inside).mp ?_⟩
        rw [inside] at skip
        simpa using skip
      · rw [if_neg skip]
        simp only [Bool.or_eq_true, Bool.not_eq_true', not_or, Bool.not_eq_false, Bool.not_eq_true] at skip
        exact ⟨_, _, rfl, ⟨phase_complete phase₁ (stage.trans stage₁.symm) skip.1 skip.2 ready, stage₁,
          List.Subset.trans more (List.subset_append_left ..)⟩, by simp⟩

theorem run_stage_spec (valid : WellFormed targets) {fuel : Nat} (enough : targets.length ≤ fuel) {stage : Stage}
    (phase : Phase cpu isAp t₀ s ran) (next : s.stageCurrent.number ≤ stage.number) :
    ∃ s' ran', initRunStage targets fuel cpu isAp stage s = some s' ∧ Phase cpu isAp t₀ s' ran' ∧ s'.stageCurrent = stage ∧
      ran ⊆ ran' ∧ ∀ i, (targets.get i).stage = stage → InScope isAp i → i ∈ ran' := by
  let begun : State targets.length := { s with stageCurrent := stage }
  have entered : Phase cpu isAp t₀ begun ran :=
    ⟨phase.trace, phase.order, phase.completed, fun i member => (phase.reached i member).trans next⟩
  let inv : List (Fin targets.length) → State targets.length → Prop := fun done s' =>
    ∃ ran', Advances cpu isAp t₀ begun s' ran ran' ∧ ∀ i ∈ done, (targets.get i).stage = stage → InScope isAp i → i ∈ ran'
  have first : inv [] begun := ⟨ran, ⟨entered, rfl, List.Subset.refl ran⟩, fun i member => absurd member List.not_mem_nil⟩
  have loop := fold_some (f := fun s i => if (targets.get i).stage = stage then runTarget targets cpu isAp fuel i s else some s)
    inv (List.finRange targets.length) ?_ first
  · obtain ⟨s', run, ran', ⟨phase', stage', more⟩, done⟩ := loop
    rw [initRunStage, if_pos next]
    exact ⟨s', ran', run, phase', stage', more, fun i => done i (by simp)⟩
  · intro done i b _ kept
    obtain ⟨ran₁, ⟨phase₁, stage₁, more₁⟩, known⟩ := kept
    by_cases same : (targets.get i).stage = stage
    · obtain ⟨b', ran', run, ⟨phase', stage', more'⟩, included⟩ := run_target_spec (i := i) valid enough
        (List.nodup_nil : ([] : List (Fin targets.length)).Nodup) (by simp) phase₁ (same.trans stage₁.symm)
      refine ⟨b', by rw [if_pos same, run], ran', ⟨phase', stage'.trans stage₁, List.Subset.trans more₁ more'⟩, ?_⟩
      intro j listed staged inside
      cases List.mem_append.mp listed with
      | inl old => exact more' (known j old staged inside)
      | inr new =>
          rw [List.mem_singleton.mp new] at inside ⊢
          exact included inside
    · refine ⟨b, by rw [if_neg same], ran₁, ⟨phase₁, stage₁, more₁⟩, fun j listed staged => ?_⟩
      cases List.mem_append.mp listed with
      | inl old => exact known j old staged
      | inr new => exact absurd (List.mem_singleton.mp new ▸ staged) same

-- A CPU that has run all its stages.
structure Finished (isAp : Bool) (ran : List (Fin targets.length)) : Prop where
  order : InOrder isAp ran
  complete : ∀ i, InScope isAp i → i ∈ ran

theorem stages_ordered : stages.Pairwise fun first later => first.number ≤ later.number := by decide

theorem stages_complete (stage : Stage) : stage ∈ stages := by
  cases stage with
  | _ => decide

theorem run_stage_list (valid : WellFormed targets) {fuel : Nat} (enough : targets.length ≤ fuel) {list : List Stage}
    (ordered : list.Pairwise fun first later => first.number ≤ later.number) (phase : Phase cpu isAp t₀ s ran)
    (next : ∀ stage ∈ list, s.stageCurrent.number ≤ stage.number) :
    ∃ s' ran', list.foldlM (fun s stage => initRunStage targets fuel cpu isAp stage s) s = some s' ∧
      Phase cpu isAp t₀ s' ran' ∧ ran ⊆ ran' ∧ ∀ i, (targets.get i).stage ∈ list → InScope isAp i → i ∈ ran' := by
  induction list generalizing s ran with
  | nil => exact ⟨s, ran, rfl, phase, List.Subset.refl ran, fun i member => absurd member List.not_mem_nil⟩
  | cons stage rest ih =>
      obtain ⟨below, ordered⟩ := List.pairwise_cons.mp ordered
      obtain ⟨s₁, ran₁, run, phase₁, stage₁, more₁, done⟩ := run_stage_spec valid enough phase (next stage (List.mem_cons_self ..))
      obtain ⟨s', ran', later, phase', more', rest_done⟩ := ih ordered phase₁ (fun other member => stage₁ ▸ below other member)
      refine ⟨s', ran', ?_, phase', List.Subset.trans more₁ more', fun i member inside => ?_⟩
      · rw [List.foldlM_cons, run]
        exact later
      · cases List.mem_cons.mp member with
        | inl same => exact more' (done i same inside)
        | inr other => exact rest_done i other inside

theorem run_stages_spec (cpu : Nat) (valid : WellFormed targets) {fuel : Nat} (enough : targets.length ≤ fuel)
    (clean : ∀ i, InScope isAp i → s.completed i = false) (stage : s.stageCurrent = .boot) :
    ∃ s' ran', runStages targets fuel cpu isAp s = some s' ∧ Finished isAp ran' ∧
      s'.trace = s.trace ++ ran'.map fun i => (cpu, i) := by
  have begun : Phase cpu isAp s.trace s [] :=
    ⟨by simp, in_order_nil isAp, fun i inside => by simp [clean i inside], by simp⟩
  have next : ∀ other ∈ stages, s.stageCurrent.number ≤ other.number := fun other _ => stage ▸ Nat.zero_le _
  obtain ⟨s', ran', run, phase, _, done⟩ := run_stage_list valid enough stages_ordered begun next
  exact ⟨s', ran', run, ⟨phase.order, fun i => done i (stages_complete _)⟩, phase.trace⟩

end Order

end Elysium.Init
