import Elysium.InitOrder

set_option autoImplicit false

namespace Elysium.Init

section Boot

variable {targets : List Target}

-- The runs of one CPU after those of another: each CPU with what it has run.
def emit (runs : List (Nat × List (Fin targets.length))) : List (Nat × Fin targets.length) :=
  runs.flatMap fun run => run.2.map fun i => (run.1, i)

def runsOn (cpu : Nat) (trace : List (Nat × Fin targets.length)) : List (Fin targets.length) :=
  trace.filterMap fun run => if run.1 = cpu then some run.2 else none

theorem mem_runs_on {cpu : Nat} {i : Fin targets.length} {trace : List (Nat × Fin targets.length)} :
    i ∈ runsOn cpu trace ↔ (cpu, i) ∈ trace := by
  rw [runsOn, List.mem_filterMap]
  constructor
  · rintro ⟨⟨other, j⟩, member, same⟩
    by_cases here : other = cpu
    · rw [if_pos here, Option.some.injEq] at same
      exact here ▸ same ▸ member
    · simp [here] at same
  · intro member
    exact ⟨(cpu, i), member, by simp⟩

theorem runs_on_append (cpu : Nat) (first later : List (Nat × Fin targets.length)) :
    runsOn cpu (first ++ later) = runsOn cpu first ++ runsOn cpu later := by
  simp [runsOn]

theorem runs_on_cons (cpu : Nat) (i : Fin targets.length) (rest : List (Nat × Fin targets.length)) :
    runsOn cpu ((cpu, i) :: rest) = i :: runsOn cpu rest := by
  simp [runsOn]

theorem runs_on_same (cpu : Nat) (ran : List (Fin targets.length)) : runsOn cpu (ran.map fun i => (cpu, i)) = ran := by
  simp [runsOn, List.filterMap_map]

theorem runs_on_other {cpu other : Nat} (different : other ≠ cpu) (ran : List (Fin targets.length)) :
    runsOn cpu (ran.map fun i => (other, i)) = [] := by
  simp [runsOn, List.filterMap_map, different]

theorem runs_on_emit_absent {cpu : Nat} {runs : List (Nat × List (Fin targets.length))} (absent : cpu ∉ runs.map Prod.fst) :
    runsOn cpu (emit runs) = [] := by
  induction runs with
  | nil => rfl
  | cons run rest ih =>
      rw [List.map_cons, List.mem_cons, not_or] at absent
      rw [emit, List.flatMap_cons, runs_on_append, runs_on_other (Ne.symm absent.1)]
      exact ih absent.2

theorem runs_on_emit {cpu : Nat} {ran : List (Fin targets.length)} {runs : List (Nat × List (Fin targets.length))}
    (distinct : (runs.map Prod.fst).Nodup) (member : (cpu, ran) ∈ runs) : runsOn cpu (emit runs) = ran := by
  induction runs with
  | nil => cases member
  | cons run rest ih =>
      rw [List.map_cons, List.nodup_cons] at distinct
      rw [emit, List.flatMap_cons, runs_on_append]
      cases List.mem_cons.mp member with
      | inl same =>
          have home : cpu = run.1 := congrArg Prod.fst same
          have absent : cpu ∉ rest.map Prod.fst := home ▸ distinct.1
          have elsewhere := runs_on_emit_absent absent
          rw [← same, runs_on_same]
          exact (congrArg _ elsewhere).trans (List.append_nil ran)
      | inr later =>
          have different : run.1 ≠ cpu := fun same => distinct.1 (same ▸ List.mem_map_of_mem later)
          rw [runs_on_other different]
          exact ih distinct.2 later

theorem mem_emit {cpu : Nat} {i : Fin targets.length} {runs : List (Nat × List (Fin targets.length))} :
    (cpu, i) ∈ emit runs ↔ ∃ ran, (cpu, ran) ∈ runs ∧ i ∈ ran := by
  rw [emit, List.mem_flatMap]
  constructor
  · rintro ⟨⟨other, ran⟩, member, inside⟩
    obtain ⟨j, listed, same⟩ := List.mem_map.mp inside
    cases same
    exact ⟨ran, member, listed⟩
  · rintro ⟨ran, member, listed⟩
    exact ⟨(cpu, ran), member, List.mem_map_of_mem listed⟩

theorem emit_nodup {runs : List (Nat × List (Fin targets.length))} (distinct : (runs.map Prod.fst).Nodup)
    (once : ∀ run ∈ runs, run.2.Nodup) : (emit runs).Nodup := by
  induction runs with
  | nil => exact List.nodup_nil
  | cons run rest ih =>
      rw [List.map_cons, List.nodup_cons] at distinct
      rw [emit, List.flatMap_cons, List.nodup_append]
      refine ⟨(once run (List.mem_cons_self ..)).map (fun i j same => (Prod.mk.inj same).2),
        ih distinct.2 (fun other member => once other (List.mem_cons_of_mem _ member)), ?_⟩
      rintro ⟨cpu, i⟩ first ⟨cpu', j⟩ later same
      cases same
      obtain ⟨k, _, same⟩ := List.mem_map.mp first
      obtain ⟨ran, member, _⟩ := mem_emit.mp later
      exact distinct.1 ((Prod.mk.inj same).1 ▸ List.mem_map_of_mem member)

-- What a boot leaves: the boot CPU has finished first, then each of the others.
structure Booted (cpus : List Bool) (bsp : Nat) (first : List (Fin targets.length)) (runs : List (Nat × List (Fin targets.length))) :
    Prop where
  boot : Finished false first
  others : ∀ run ∈ runs, Finished true run.2
  awake : runs.map Prod.fst = (List.range cpus.length).filter (isAwake cpus bsp)

variable {cpus : List Bool} {bsp : Nat} {first : List (Fin targets.length)} {runs : List (Nat × List (Fin targets.length))}

theorem awake_mem {cpu : Nat} : cpu ∈ (List.range cpus.length).filter (isAwake cpus bsp) ↔ isAwake cpus bsp cpu = true := by
  rw [List.mem_filter, List.mem_range]
  constructor
  · exact fun both => both.2
  · intro awake
    refine ⟨?_, awake⟩
    by_contra outside
    simp [isAwake, List.getElem?_eq_none (Nat.not_lt.mp outside)] at awake

theorem bsp_not_awake : isAwake cpus bsp bsp = false := by simp [isAwake]

theorem init_smp_spec (cpus : List Bool) (bsp : Nat) (valid : WellFormed targets) {fuel : Nat} (enough : targets.length ≤ fuel) (s : State targets.length) :
    ∃ s' runs, archInitSmp targets fuel cpus bsp s = some s' ∧
      runs.map Prod.fst = (List.range cpus.length).filter (isAwake cpus bsp) ∧ (∀ run ∈ runs, Finished true run.2) ∧
      s'.trace = s.trace ++ emit runs := by
  let inv : List Nat → State targets.length → Prop := fun done s' =>
    ∃ runs, runs.map Prod.fst = done.filter (isAwake cpus bsp) ∧ (∀ run ∈ runs, Finished true run.2) ∧
      s'.trace = s.trace ++ emit runs
  have start : inv [] s := ⟨[], rfl, fun run member => absurd member List.not_mem_nil, by simp [emit]⟩
  have loop := fold_some (f := fun s i =>
      if isAwake cpus bsp i then runStages targets fuel i true (initResetAp targets s) else some s)
    inv (List.range cpus.length) ?_ start
  · obtain ⟨s', run, runs, awake, finished, trace⟩ := loop
    exact ⟨s', runs, run, awake, finished, trace⟩
  · intro done cpu b _ kept
    obtain ⟨runs, awake, finished, trace⟩ := kept
    by_cases wakes : isAwake cpus bsp cpu = true
    · have clean : ∀ i, InScope true i → (initResetAp targets b).completed i = false := fun i inside => if_pos inside
      obtain ⟨b', ran, run, done', trace'⟩ := run_stages_spec cpu valid enough clean rfl
      refine ⟨b', by rw [if_pos wakes, run], runs ++ [(cpu, ran)], by simp [awake, wakes], fun other member => ?_, ?_⟩
      · cases List.mem_append.mp member with
        | inl old => exact finished other old
        | inr new => exact List.mem_singleton.mp new ▸ done'
      · have kept : (initResetAp targets b).trace = b.trace := rfl
        rw [trace', kept, trace]
        simp [emit]
    · exact ⟨b, by rw [if_neg wakes], runs, by simp [awake, wakes], finished, trace⟩

theorem boot_spec (cpus : List Bool) (bsp : Nat) (valid : WellFormed targets) {fuel : Nat} (enough : targets.length ≤ fuel) :
    ∃ s first runs, boot targets fuel cpus bsp = some s ∧ Booted cpus bsp first runs ∧ s.trace = emit ((bsp, first) :: runs) := by
  have clean : ∀ i, InScope false i → (atReset targets).completed i = false := fun _ _ => rfl
  obtain ⟨s₁, first, run, done, trace⟩ := run_stages_spec bsp valid enough clean rfl
  obtain ⟨s, runs, smp, awake, finished, trace'⟩ := init_smp_spec cpus bsp valid enough s₁
  refine ⟨s, first, runs, by rw [boot, run]; exact smp, ⟨done, finished, awake⟩, ?_⟩
  rw [trace', trace]
  rfl

namespace Booted

variable (booted : Booted cpus bsp first runs)

include booted

theorem distinct : (((bsp, first) :: runs).map Prod.fst).Nodup := by
  rw [List.map_cons, booted.awake, List.nodup_cons, awake_mem, bsp_not_awake]
  exact ⟨by simp, List.Nodup.filter _ List.nodup_range⟩

theorem finished {cpu : Nat} {ran : List (Fin targets.length)} {isAp : Bool} (role : Boots cpus bsp cpu isAp)
    (member : (cpu, ran) ∈ (bsp, first) :: runs) : Finished isAp ran := by
  cases isAp with
  | false =>
      cases List.mem_cons.mp member with
      | inl same => exact (Prod.mk.inj same).2 ▸ booted.boot
      | inr other =>
          have listed : cpu ∈ runs.map Prod.fst := List.mem_map_of_mem other
          rw [booted.awake, awake_mem, show cpu = bsp from role, bsp_not_awake] at listed
          cases listed
  | true =>
      cases List.mem_cons.mp member with
      | inl same =>
          have awake : isAwake cpus bsp cpu = true := role
          rw [(Prod.mk.inj same).1, bsp_not_awake] at awake
          cases awake
      | inr other => exact booted.others _ other

theorem exists_run {cpu : Nat} {isAp : Bool} (role : Boots cpus bsp cpu isAp) : ∃ ran, (cpu, ran) ∈ (bsp, first) :: runs := by
  cases isAp with
  | false => exact ⟨first, (show cpu = bsp from role) ▸ List.mem_cons_self ..⟩
  | true =>
      have listed : cpu ∈ runs.map Prod.fst := by
        rw [booted.awake, awake_mem]
        exact role
      obtain ⟨⟨other, ran⟩, member, rfl⟩ := List.mem_map.mp listed
      exact ⟨ran, List.mem_cons_of_mem _ member⟩

theorem role_of_run {cpu : Nat} {ran : List (Fin targets.length)} (member : (cpu, ran) ∈ (bsp, first) :: runs) :
    Boots cpus bsp cpu false ∨ Boots cpus bsp cpu true := by
  cases List.mem_cons.mp member with
  | inl same => exact .inl (Prod.mk.inj same).1
  | inr other =>
      have listed : cpu ∈ runs.map Prod.fst := List.mem_map_of_mem other
      rw [booted.awake, awake_mem] at listed
      exact .inr listed

theorem once : (emit ((bsp, first) :: runs)).Nodup := by
  refine emit_nodup booted.distinct fun run member => ?_
  cases List.mem_cons.mp member with
  | inl same => exact same ▸ booted.boot.order.once
  | inr other => exact (booted.others run other).order.once

theorem mem_iff {cpu : Nat} {isAp : Bool} (role : Boots cpus bsp cpu isAp) (i : Fin targets.length) :
    (cpu, i) ∈ emit ((bsp, first) :: runs) ↔ InScope isAp i := by
  rw [mem_emit]
  constructor
  · rintro ⟨ran, member, inside⟩
    exact (booted.finished role member).order.scope i inside
  · intro scope
    obtain ⟨ran, member⟩ := booted.exists_run role
    exact ⟨ran, member, (booted.finished role member).complete i scope⟩

theorem role_of_mem {cpu : Nat} {i : Fin targets.length} (member : (cpu, i) ∈ emit ((bsp, first) :: runs)) :
    Boots cpus bsp cpu false ∨ Boots cpus bsp cpu true := by
  obtain ⟨ran, listed, _⟩ := mem_emit.mp member
  exact booted.role_of_run listed

theorem split_runs_on {cpu : Nat} {i : Fin targets.length} {ran : List (Fin targets.length)}
    {before after : List (Nat × Fin targets.length)} (member : (cpu, ran) ∈ (bsp, first) :: runs)
    (split : emit ((bsp, first) :: runs) = before ++ (cpu, i) :: after) : ran = runsOn cpu before ++ i :: runsOn cpu after := by
  rw [← runs_on_emit booted.distinct member, split, runs_on_append, runs_on_cons]

theorem runs_after_dependencies {cpu : Nat} {isAp : Bool} (role : Boots cpus bsp cpu isAp) {i dep : Fin targets.length}
    {before after : List (Nat × Fin targets.length)} (split : emit ((bsp, first) :: runs) = before ++ (cpu, i) :: after)
    (depends : DependsOn targets i dep) (scope : InScope isAp dep) : (cpu, dep) ∈ before := by
  obtain ⟨ran, member⟩ := booted.exists_run role
  have order := (booted.finished role member).order
  exact mem_runs_on.mp (order.dependencies _ i _ (booted.split_runs_on member split) dep depends scope)

theorem runs_in_stages {cpu : Nat} {i j : Fin targets.length} {before between after : List (Nat × Fin targets.length)}
    (split : emit ((bsp, first) :: runs) = before ++ (cpu, i) :: between ++ (cpu, j) :: after) :
    (targets.get i).stage.number ≤ (targets.get j).stage.number := by
  have regrouped : emit ((bsp, first) :: runs) = before ++ (cpu, i) :: (between ++ (cpu, j) :: after) := by simp [split]
  obtain ⟨ran, member, _⟩ := mem_emit.mp (regrouped ▸ List.mem_append_right _ (List.mem_cons_self ..) :
    (cpu, i) ∈ emit ((bsp, first) :: runs))
  have order : ran.Pairwise fun i j => (targets.get i).stage.number ≤ (targets.get j).stage.number := by
    cases booted.role_of_run member with
    | inl role => exact (booted.finished role member).order.staged
    | inr role => exact (booted.finished role member).order.staged
  rw [booted.split_runs_on member regrouped, List.pairwise_append, List.pairwise_cons] at order
  exact order.2.1.1 j (mem_runs_on.mpr (List.mem_append_right _ (List.mem_cons_self ..)))

-- The boot CPU is through before any other starts.
theorem boot_before {cpu : Nat} (awake : isAwake cpus bsp cpu = true) {i dep : Fin targets.length}
    {before after : List (Nat × Fin targets.length)} (split : emit ((bsp, first) :: runs) = before ++ (cpu, i) :: after)
    (scope : InScope false dep) : (bsp, dep) ∈ before := by
  have ran : (bsp, dep) ∈ first.map fun i => (bsp, i) := List.mem_map_of_mem (booted.boot.complete dep scope)
  have apart : (cpu, i) ∉ first.map fun i => (bsp, i) := by
    intro member
    obtain ⟨j, _, same⟩ := List.mem_map.mp member
    rw [← (Prod.mk.inj same).1, bsp_not_awake] at awake
    cases awake
  rw [emit, List.flatMap_cons] at split
  cases List.append_eq_append_iff.mp split with
  | inl longer =>
      obtain ⟨rest, rfl, _⟩ := longer
      exact List.mem_append_left _ ran
  | inr shorter =>
      obtain ⟨rest, boot, tail⟩ := shorter
      cases rest with
      | nil =>
          rw [List.append_nil] at boot
          rw [← boot]
          exact ran
      | cons head rest =>
          have : (cpu, i) = head := List.head_eq_of_cons_eq tail
          exact absurd (by rw [boot, this]; simp) apart

theorem count_eq {cpu : Nat} {isAp : Bool} (role : Boots cpus bsp cpu isAp) {i : Fin targets.length} (scope : InScope isAp i) :
    (emit ((bsp, first) :: runs)).count (cpu, i) = 1 :=
  List.count_eq_one_of_mem booted.once ((booted.mem_iff role i).mpr scope)

theorem orderly : Orderly targets cpus bsp (emit ((bsp, first) :: runs)) where
  bsp_once := by
    intro i scope
    have here : Boots cpus bsp bsp false := rfl
    have inside : InScope false i := by simp only [InScope, scope]; rfl
    have elsewhere : ¬ InScope true i := by simp only [InScope, scope]; decide
    refine List.perm_singleton.mp ((List.perm_ext_iff_of_nodup (booted.once.filter _) (List.nodup_singleton _)).mpr fun run => ?_)
    rw [List.mem_filter, List.mem_singleton]
    constructor
    · rintro ⟨member, same⟩
      obtain ⟨cpu, j⟩ := run
      have same : j = i := by simpa using same
      rw [same] at member ⊢
      cases booted.role_of_mem member with
      | inl role => exact congrArg (·, i) (show cpu = bsp from role)
      | inr role => exact absurd ((booted.mem_iff role i).mp member) elsewhere
    · intro same
      rw [same]
      exact ⟨(booted.mem_iff here i).mpr inside, by simp⟩
  aps_once := by
    intro i scope cpu
    have inside : InScope true i := by simp only [InScope, scope]; rfl
    have elsewhere : ¬ InScope false i := by simp only [InScope, scope]; decide
    by_cases awake : isAwake cpus bsp cpu = true
    · have role : Boots cpus bsp cpu true := awake
      rw [if_pos awake, booted.count_eq role inside]
    · rw [if_neg awake, List.count_eq_zero]
      intro member
      cases booted.role_of_mem member with
      | inl role => exact elsewhere ((booted.mem_iff role i).mp member)
      | inr role => exact awake role
  all_once := by
    intro i scope cpu
    have inside : ∀ isAp, InScope isAp i := fun isAp => by simp only [InScope, scope]; rfl
    by_cases runs : cpu = bsp ∨ isAwake cpus bsp cpu = true
    · rw [if_pos runs]
      cases runs with
      | inl same =>
          have role : Boots cpus bsp cpu false := same
          exact booted.count_eq role (inside false)
      | inr awake =>
          have role : Boots cpus bsp cpu true := awake
          exact booted.count_eq role (inside true)
    · rw [if_neg runs, List.count_eq_zero]
      exact fun member => runs (booted.role_of_mem member)
  stages := fun cpu i j before between after split => booted.runs_in_stages split
  dependencies := fun cpu isAp role i dep before after split depends scope =>
    booted.runs_after_dependencies role split depends scope
  boot_first := by
    intro cpu awake i dep before after split _ scope
    exact booted.boot_before awake split (by simp only [InScope, scope]; rfl)

end Booted

theorem boot_targets_orderly (targets : List Target) (valid : WellFormed targets) (cpus : List Bool) (bsp fuel : Nat)
    (enough : targets.length ≤ fuel) :
    ∃ s, boot targets fuel cpus bsp = some s ∧ Orderly targets cpus bsp s.trace := by
  obtain ⟨s, first, runs, run, booted, trace⟩ := boot_spec cpus bsp valid enough
  exact ⟨s, run, trace ▸ booted.orderly⟩

theorem acyclic_of_rank (rank : Fin targets.length → Nat)
    (falls : ∀ i dep, DependsOn targets i dep → rank dep < rank i) (i : Fin targets.length) :
    ¬ Relation.TransGen (DependsOn targets) i i := by
  have lower : ∀ j, Relation.TransGen (DependsOn targets) i j → rank j < rank i := by
    intro j path
    induction path with
    | single edge => exact falls _ _ edge
    | tail _ edge ih => exact (falls _ _ edge).trans ih
  exact fun cycle => Nat.lt_irrefl _ (lower i cycle)

end Boot

-- The targets of the timers.
def timerTargets : List Target :=
  [⟨"event_timer_vector", .beforeDev, .bsp, []⟩,
   ⟨"event_timer", .beforeDev, .all, ["event_timer_vector", "timers"]⟩,
   ⟨"ioapic", .beforeDev, .bsp, ["acpi_tables"]⟩,
   ⟨"timers", .beforeDev, .all, ["acpi_tables"]⟩,
   ⟨"acpi_tables", .beforeDev, .bsp, []⟩]

theorem timer_targets_well_formed : WellFormed timerTargets where
  unique := by decide
  acyclic := acyclic_of_rank (fun i => [0, 2, 1, 1, 0].getD i 0) (by decide)

theorem boot_targets_orderly_timers : WellFormed timerTargets ∧ timerTargets.length ≤ 5 ∧
    ∃ s, boot timerTargets 5 [true, true, false, true] 0 = some s ∧ Orderly timerTargets [true, true, false, true] 0 s.trace :=
  ⟨timer_targets_well_formed, by decide,
    boot_targets_orderly timerTargets timer_targets_well_formed [true, true, false, true] 0 5 (by decide)⟩

end Elysium.Init
