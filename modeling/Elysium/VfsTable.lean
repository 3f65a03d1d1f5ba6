import Elysium.VfsLookup

set_option autoImplicit false

namespace Elysium.Fs

open Transitions (ReachableUnder reachable_under_invariant)

-- What vfs->ops->mount returns; none stands for VFS_RESULT_OK.
def VfsOps.mountResult : VfsOps → Option VfsError
  | .tmpfs => none
  | .rdsk image => if supportedRevision < image.tables.revision then some .unsupported else none

-- vfs_mount with the result it returns and the state it leaves behind.
def vfsMountCall (s : State) (ops : VfsOps) (path : Option (List UInt8)) : Except Stop (Option VfsError × State) :=
  let vfs := ops.mount
  if s.all.length = 0 then
    if path.isSome then .ok (some .notFound, s)
    else .ok (none, { s with all := s.all ++ [⟨vfs, none⟩] })
  else
    match path with
    | none => .error .garbage
    | some path =>
      match vfsLookup s none path with
      | .error (.error result) => .ok (some result, s)
      | .error stop => .error stop
      | .ok node =>
        match s.type node with
        | none => .error .garbage
        | some .file => .ok (some .notDir, s)
        | some .dir =>
          if (s.mountedVfs node).isSome then .ok (some .exists_, s)
          else .ok (none, ⟨s.all ++ [⟨vfs, some node⟩], Function.update s.mountedVfs node (some s.all.length)⟩)

-- The state that a result of the call carries on with.
def carried : Except Stop (Option VfsError × State) → Option State
  | .ok (_, s') => some s'
  | .error _ => none

-- The step of a mount is this call.
theorem mount_call_step (s : State) (ops : VfsOps) (path : Option CString) :
    step (.mount ops path) s = carried (vfsMountCall s ops (path.map (·.bytes))) := by
  rw [step, vfsMount.eq_def, vfsMountCall.eq_def]
  dsimp only
  by_cases first : s.all.length = 0
  · rw [if_pos first, if_pos first]
    cases path with
    | none => rfl
    | some path => rfl
  · rw [if_neg first, if_neg first]
    cases path with
    | none => rfl
    | some path =>
        dsimp only [Option.map_some]
        cases looked : vfsLookup s none path.bytes with
        | error stop =>
            cases stop with
            | error result => rfl
            | overrun => rfl
            | garbage => rfl
        | ok node =>
            dsimp only [Except.bind]
            cases s.type node with
            | none => rfl
            | some type =>
                cases type with
                | file => rfl
                | dir =>
                    dsimp only
                    by_cases bare : (s.mountedVfs node).isSome = true
                    · rw [if_pos bare, if_pos bare]
                      rfl
                    · rw [if_neg bare, if_neg bare]
                      rfl

-- The path checks let the call through: there is nothing yet and no path, or the path leads to a
-- directory that has nothing mounted.
inductive Accepts (s : State) : Option (List UInt8) → Option Node → Prop where
  | first (empty : s.all.length = 0) : Accepts s none none
  | on (path : List UInt8) (node : Node) (filled : s.all.length ≠ 0) (found : vfsLookup s none path = .ok node)
      (dir : s.type node = some .dir) (bare : s.mountedVfs node = none) : Accepts s (some path) (some node)

-- The table with one more file system.
def mounted (s : State) (ops : VfsOps) : Option Node → State
  | none => { s with all := s.all ++ [⟨ops.mount, none⟩] }
  | some node => ⟨s.all ++ [⟨ops.mount, some node⟩], Function.update s.mountedVfs node (some s.all.length)⟩

theorem mount_call_accepts {s : State} {path : Option (List UInt8)} {point : Option Node} (accepts : Accepts s path point) (ops : VfsOps) :
    vfsMountCall s ops path = .ok (none, mounted s ops point) := by
  cases accepts with
  | first empty =>
      rw [vfsMountCall, if_pos empty]
      rfl
  | on path node filled found dir bare =>
      simp [vfsMountCall, filled, found, dir, bare, mounted]

-- A call that returns fails and leaves everything as it was, or mounts where the path checks let it.
theorem mount_call_cases {s s' : State} {ops : VfsOps} {path : Option (List UInt8)} {result : Option VfsError}
    (run : vfsMountCall s ops path = .ok (result, s')) :
    (∃ e, result = some e ∧ s' = s) ∨ ∃ point, Accepts s path point ∧ result = none ∧ s' = mounted s ops point := by
  have settled : ∀ e, (Except.ok (some e, s) : Except Stop (Option VfsError × State)) = .ok (result, s') →
      ∃ e, result = some e ∧ s' = s := by
    intro e same
    rw [Except.ok.injEq, Prod.mk.injEq] at same
    exact ⟨e, same.1.symm, same.2.symm⟩
  by_cases accepted : ∃ point, Accepts s path point
  · obtain ⟨point, accepts⟩ := accepted
    rw [mount_call_accepts accepts, Except.ok.injEq, Prod.mk.injEq] at run
    exact .inr ⟨point, accepts, run.1.symm, run.2.symm⟩
  · left
    rw [vfsMountCall.eq_def] at run
    by_cases first : s.all.length = 0
    · rw [if_pos first] at run
      cases path with
      | none => exact absurd ⟨none, .first first⟩ accepted
      | some path => exact settled _ run
    · rw [if_neg first] at run
      cases path with
      | none => cases run
      | some path =>
          dsimp only at run
          cases looked : vfsLookup s none path with
          | error stop =>
              rw [looked] at run
              cases stop with
              | error e => exact settled _ run
              | overrun => cases run
              | garbage => cases run
          | ok node =>
              rw [looked] at run
              dsimp only at run
              cases kind : s.type node with
              | none =>
                  rw [kind] at run
                  cases run
              | some type =>
                  rw [kind] at run
                  cases type with
                  | file => exact settled _ run
                  | dir =>
                      cases bare : s.mountedVfs node with
                      | none => exact absurd ⟨some node, .on path node first looked kind bare⟩ accepted
                      | some v =>
                          rw [bare] at run
                          exact settled _ run

section Invariant

theorem data_push (s : State) (vfs : Vfs) (mounted : Node → Option Nat) (v : Nat) :
    (State.mk (s.all ++ [vfs]) mounted).data v = if v = s.all.length then some vfs.data else s.data v := by
  rw [State.data]
  by_cases new : v = s.all.length
  · rw [if_pos new, new, List.getElem?_concat_length]
    rfl
  · rw [if_neg new, State.data]
    by_cases old : v < s.all.length
    · rw [List.getElem?_append_left old]
    · rw [List.getElem?_eq_none (by simp only [List.length_append, List.length_singleton]; omega),
        List.getElem?_eq_none (by omega)]

theorem mounted_data (s : State) (ops : VfsOps) (point : Option Node) (v : Nat) :
    (mounted s ops point).data v = if v = s.all.length then some ops.mount else s.data v := by
  cases point with
  | none => exact data_push s _ _ v
  | some node => exact data_push s _ _ v

theorem mounted_point (s : State) (ops : VfsOps) (point : Option Node) (v : Nat) :
    (mounted s ops point).mountPoint v = if v = s.all.length then point else s.mountPoint v := by
  cases point with
  | none => exact mount_point_push s _ _ v
  | some node => exact mount_point_push s _ _ v

theorem mounted_length (s : State) (ops : VfsOps) (point : Option Node) : (mounted s ops point).all.length = s.all.length + 1 := by
  cases point <;> exact List.length_append

-- The mount operation has set the private data up exactly where it returned VFS_RESULT_OK.
theorem mount_result_iff (ops : VfsOps) : ops.mountResult = none ↔ ops.mount ≠ .header := by
  cases ops with
  | tmpfs => simp [VfsOps.mountResult, VfsOps.mount]
  | rdsk image =>
      rw [VfsOps.mountResult, VfsOps.mount]
      split <;> simp

-- mkdir and mkfile set up nothing but a tmpfs.
theorem make_data {s s' : State} {type : VfsNodeType} {node made : Node} {name : List UInt8}
    (done : s.make type node name = .ok (made, s')) {v : Nat} (refused : s'.data v = some .header) : s.data v = some .header := by
  rw [State.make] at done
  split at done
  · split at done
    · cases done
    · rw [Except.ok.injEq, Prod.mk.injEq] at done
      rw [← done.2, State.data, List.getElem?_modify] at refused
      rw [State.data]
      cases at_ : s.all[v]? with
      | none =>
          rw [at_] at refused
          cases refused
      | some vfs =>
          rw [at_] at refused
          by_cases here : node.vfs = v
          · simp [here] at refused
          · simpa [here] using refused
  · cases done
  · cases done
  · cases done

-- A lookup changes the state by mkdir and mkfile alone.
theorem end_component_keeps {P : State → Prop}
    (keeps : ∀ {s s' : State} {type : VfsNodeType} {node made : Node} {name : List UInt8}, P s → s.make type node name = .ok (made, s') → P s')
    {s s' : State} {create : LookupCreate} {exclusive last : Bool} {current next : Node} {component : List UInt8} (holds : P s)
    (done : endComponent s create exclusive last current component = .ok (next, s')) : P s' := by
  rw [endComponent] at done
  split at done
  · cases done
  · cases done
  · split at done
    · cases create with
      | file => exact keeps holds done
      | dir => exact keeps holds done
      | none => cases done
    · split at done <;> cases done
  · split at done
    · cases done
    · rw [Except.ok.injEq, Prod.mk.injEq] at done
      exact done.2 ▸ holds

theorem lookup_loop_keeps {P : State → Prop}
    (keeps : ∀ {s s' : State} {type : VfsNodeType} {node made : Node} {name : List UInt8}, P s → s.make type node name = .ok (made, s') → P s')
    {create : LookupCreate} {exclusive : Bool} {rest : List UInt8} {s s' : State} {compEnd : Nat} {component : List UInt8}
    {current found : Node} (holds : P s) (done : lookupLoop create exclusive rest s compEnd component current = .ok (found, s')) : P s' := by
  induction rest generalizing s compEnd component current with
  | nil =>
      rw [lookupLoop] at done
      split at done
      · cases done
      split at done
      · obtain ⟨_, _, same⟩ := except_map_ok done
        rw [Prod.mk.injEq] at same
        exact same.2 ▸ holds
      · obtain ⟨⟨_, s₁⟩, ended, mapped⟩ := except_bind_ok done
        obtain ⟨_, _, same⟩ := except_map_ok mapped
        rw [Prod.mk.injEq] at same
        exact same.2 ▸ end_component_keeps keeps holds ended
  | cons byte rest ih =>
      rw [lookupLoop] at done
      split at done
      · cases done
      split at done
      · split at done
        · obtain ⟨_, _, later⟩ := except_bind_ok done
          exact ih holds later
        · obtain ⟨⟨_, s₁⟩, ended, bound⟩ := except_bind_ok done
          obtain ⟨_, _, later⟩ := except_bind_ok bound
          exact ih (end_component_keeps keeps holds ended) later
      · obtain ⟨_, _, later⟩ := except_bind_ok done
        exact ih holds later

theorem lookup_ext_keeps {P : State → Prop}
    (keeps : ∀ {s s' : State} {type : VfsNodeType} {node made : Node} {name : List UInt8}, P s → s.make type node name = .ok (made, s') → P s')
    {s s' : State} {root : Option Node} {path : List UInt8} {create : LookupCreate} {exclusive : Bool} {found : Node} (holds : P s)
    (done : vfsLookupExt s root path create exclusive = .ok (found, s')) : P s' := by
  rw [vfsLookupExt.eq_def] at done
  split at done
  · obtain ⟨_, _, later⟩ := except_bind_ok done
    cases path with
    | nil => cases later
    | cons byte rest => exact lookup_loop_keeps keeps holds later
  · cases root with
    | none => cases done
    | some node => exact lookup_loop_keeps keeps holds done

-- The mount table as it is to be in every state.
structure MountTable (s : State) : Prop where
  point : ∀ v, 0 < v → v < s.all.length → ∃ node, s.mountPoint v = some node ∧ s.mountedVfs node = some v
  single : ∀ v w node, s.mountPoint v = some node → s.mountPoint w = some node → v = w
  initialised : ∀ v, s.data v ≠ some .header

structure Tabled (s : State) : Prop where
  mounts : Mounts s
  placed : ∀ v, 0 < v → v < s.all.length → (s.mountPoint v).isSome
  initialised : ∀ v, s.data v ≠ some .header

theorem Tabled.table {s : State} (tabled : Tabled s) : MountTable s where
  point v positive within := by
    obtain ⟨node, at_⟩ := Option.isSome_iff_exists.mp (tabled.placed v positive within)
    exact ⟨node, at_, (tabled.mounts.point node v).mpr at_⟩
  single v w node first second :=
    Option.some.inj (((tabled.mounts.point node v).mpr first).symm.trans ((tabled.mounts.point node w).mpr second))
  initialised := tabled.initialised

theorem make_tabled {s s' : State} {type : VfsNodeType} {node made : Node} {name : List UInt8} (tabled : Tabled s)
    (done : s.make type node name = .ok (made, s')) : Tabled s' := by
  obtain ⟨length, mounts, points⟩ := (make_same done).1
  refine ⟨same_mounts ⟨length, mounts, points⟩ tabled.mounts, ?_, fun v refused => tabled.initialised v (make_data done refused)⟩
  intro v positive within
  rw [points]
  exact tabled.placed v positive (length ▸ within)

theorem mounted_tabled {s : State} {ops : VfsOps} {path : Option CString} {point : Option Node} (tabled : Tabled s)
    (accepts : Accepts s (path.map (·.bytes)) point) (ok : ops.mountResult = none) : Tabled (mounted s ops point) := by
  have taken : step (.mount ops path) s = some (mounted s ops point) := by
    rw [mount_call_step, mount_call_accepts accepts]
    rfl
  refine ⟨step_mounts tabled.mounts taken, ?_, ?_⟩
  · intro v positive within
    rw [mounted_length] at within
    rw [mounted_point]
    by_cases new : v = s.all.length
    · rw [if_pos new]
      generalize path.map (·.bytes) = bytes at accepts
      cases accepts with
      | first empty => omega
      | on => rfl
    · rw [if_neg new]
      exact tabled.placed v positive (by omega)
  · intro v
    rw [mounted_data]
    by_cases new : v = s.all.length
    · rw [if_pos new]
      simpa using (mount_result_iff ops).mp ok
    · rw [if_neg new]
      exact tabled.initialised v

end Invariant

-- The call mounts only what its file system accepted, and a failed call changes nothing.
structure Atomic (ops : VfsOps) (s : State) (result : Option VfsError) (s' : State) : Prop where
  checked : result = none → ops.mountResult = none
  unchanged : ∀ e, result = some e → s'.all = s.all ∧ s'.mountedVfs = s.mountedVfs

-- No file system that refuses to be mounted gets past the path checks.
def Allowed (call : Call) (s : State) : Prop :=
  match call with
  | .mount ops path => ops.mountResult ≠ none → ∀ point, ¬ Accepts s (path.map (·.bytes)) point
  | _ => True

theorem step_tabled {call : Call} {s s' : State} (tabled : Tabled s) (allowed : Allowed call s) (taken : step call s = some s') :
    Tabled s' := by
  cases call with
  | mount ops path =>
      rw [mount_call_step] at taken
      cases run : vfsMountCall s ops (path.map (·.bytes)) with
      | error stop =>
          rw [run] at taken
          cases taken
      | ok pair =>
          obtain ⟨result, after⟩ := pair
          rw [run] at taken
          obtain rfl : after = s' := Option.some.inj taken
          obtain ⟨_, _, same⟩ | ⟨point, accepts, _, same⟩ := mount_call_cases run
          · exact same ▸ tabled
          · rw [same]
            exact mounted_tabled tabled accepts (by_contra fun refused => allowed refused point accepts)
  | make type root path name =>
      obtain rfl | done := settle_cases taken
      · exact tabled
      obtain ⟨⟨node, after⟩, made, rfl⟩ := except_map_ok done
      obtain ⟨_, _, made⟩ := except_bind_ok made
      exact make_tabled tabled made
  | lookup root path create exclusive =>
      obtain rfl | done := settle_cases taken
      · exact tabled
      obtain ⟨⟨node, after⟩, looked, rfl⟩ := except_map_ok done
      exact lookup_ext_keeps make_tabled tabled looked

theorem start_tabled : Tabled start :=
  ⟨start_mounts, fun v _ within => absurd within (Nat.not_lt_zero v), fun v refused => by simp [State.data, start] at refused⟩

theorem under_tabled {s : State} (reach : ReachableUnder Starts step Allowed s) : Tabled s :=
  reachable_under_invariant (fun _ first => first ▸ start_tabled) (fun _ _ _ tabled allowed taken => step_tabled tabled allowed taken) reach

-- As long as no refused file system gets past the path checks, the mount table is in order in every state
-- reached; and a call keeps to it exactly when it is no such call.
theorem vfs_mount_consistent (s : State) (reach : ReachableUnder Starts step Allowed s) :
    MountTable s ∧
    ∀ ops (path : Option CString) result s', vfsMountCall s ops (path.map (·.bytes)) = .ok (result, s') →
      (Atomic ops s result s' ∧ MountTable s' ↔ Allowed (.mount ops path) s) := by
  have tabled := under_tabled reach
  refine ⟨tabled.table, fun ops path result s' run => ?_⟩
  constructor
  · rintro ⟨atomic, _⟩ refused point accepts
    rw [mount_call_accepts accepts, Except.ok.injEq, Prod.mk.injEq] at run
    exact refused (atomic.checked run.1.symm)
  · intro allowed
    obtain ⟨e, failed, same⟩ | ⟨point, accepts, done, same⟩ := mount_call_cases run
    · refine ⟨⟨fun ok => ?_, fun _ _ => ?_⟩, same ▸ tabled.table⟩
      · rw [failed] at ok
        cases ok
      · rw [same]
        exact ⟨rfl, rfl⟩
    · have ok : ops.mountResult = none := by_contra fun refused => allowed refused point accepts
      refine ⟨⟨fun _ => ok, fun e failed => ?_⟩, same ▸ (mounted_tabled tabled accepts ok).table⟩
      rw [done] at failed
      cases failed

theorem vfs_mount_consistent_booted : MountTable booted :=
  (vfs_mount_consistent booted (.step _ _ (.mount .tmpfs (some slashTmp))
    (.step start ⟨[⟨.rdsk sysroot, none⟩], fun _ => none⟩ (.mount (.rdsk sysroot) none) (.start start rfl) (fun refused => absurd rfl refused) rfl)
    (fun refused => absurd rfl refused) rfl)).1

-- An image of a later revision, which rdsk_mount refuses.
def laterImage : RdskImage := ⟨{ sysroot.tables with revision := 0x102 }, by decide⟩

theorem vfs_mount_ignores_refusal :
    (VfsOps.rdsk laterImage).mountResult = some .unsupported ∧
    ∃ s', vfsMountCall start (.rdsk laterImage) none = .ok (none, s') ∧ ¬ Atomic (.rdsk laterImage) start none s' ∧ ¬ MountTable s' := by
  refine ⟨rfl, _, rfl, ?_, ?_⟩
  · intro atomic
    exact absurd (atomic.checked rfl) (by decide)
  · intro table
    exact table.initialised 0 rfl

end Elysium.Fs
