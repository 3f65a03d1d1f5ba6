import Elysium.VfsExclusive

set_option autoImplicit false

namespace Elysium.Fs

open Transitions (Reachable execute reachable_execute)

-- What a lookup comes to, the indices of the path it reads, and the stretches of it that it takes out as components.
structure Reading where
  result : Except Stop (Node × State)
  reads : List Nat
  components : List (Nat × Nat)

def Reading.after (r : Reading) (reads : List Nat) (components : List (Nat × Nat)) : Reading :=
  ⟨r.result, reads ++ r.reads, components ++ r.components⟩

-- The end of a round: the mount check, and the condition of the loop.
def roundEnd (loop : State → Node → Option Reading) (byte : UInt8) (compEnd : Nat) (current : Node) (s : State) : Option Reading :=
  match crossMount s current with
  | .error stop => some ⟨.error stop, [], []⟩
  | .ok node => if byte = 0 then some ⟨.ok (node, s), [compEnd], []⟩ else (loop s node).map (·.after [compEnd] [])

-- The loop by its two cursors.
def readLoop (create : LookupCreate) (exclusive : Bool) (path : List UInt8) : Nat → State → Nat → Nat → Node → Option Reading
  | 0, _, _, _, _ => none
  | fuel + 1, s, compStart, compEnd, current =>
    match (path ++ [0])[compEnd]? with
    | none => some ⟨.error .overrun, [compEnd], []⟩
    | some byte =>
      if intMax ≤ compEnd then some ⟨.error .overrun, [compEnd], []⟩
      else if byte = 0 ∨ byte = slash then
        if compStart = compEnd then
          (roundEnd (fun s node => readLoop create exclusive path fuel s (compStart + 1) (compEnd + 1) node) byte compEnd current s).map
            (·.after [compEnd] [])
        else
          let length := compEnd - compStart
          let component := (path.drop compStart).take length
          match endComponent s create exclusive (byte = 0) current component with
          | .error stop => some ⟨.error stop, compEnd :: List.range' compStart length, [(compStart, compEnd)]⟩
          | .ok (node, s) =>
            (roundEnd (fun s node => readLoop create exclusive path fuel s (compEnd + 1) (compEnd + 1) node) byte compEnd node s).map
              (·.after (compEnd :: List.range' compStart length) [(compStart, compEnd)])
      else
        (roundEnd (fun s node => readLoop create exclusive path fuel s compStart (compEnd + 1) node) byte compEnd current s).map
          (·.after [compEnd] [])

def readLookup (s : State) (root : Option Node) (path : List UInt8) (create : LookupCreate) (exclusive : Bool) : Option Reading :=
  if path.head? = some slash ∨ root = none then
    match vfsRoot s with
    | .error stop => some ⟨.error stop, [0], []⟩
    | .ok node => (readLoop create exclusive path (path.length + 1) s 1 1 node).map (·.after [0] [])
  else
    match root with
    | none => some ⟨.error .garbage, [0], []⟩
    | some node => (readLoop create exclusive path (path.length + 1) s 0 0 node).map (·.after [0] [])

def covers (i : Nat) (component : Nat × Nat) : Bool := component.1 ≤ i && i < component.2

-- Up to the terminator and no further; what a lookup that succeeds leaves out are slashes.
structure InsideString (path : List UInt8) (run : Option Reading) : Prop where
  terminates : run.isSome
  inside : ∀ r, run = some r → ∀ i ∈ r.reads, i ≤ path.length
  defined : ∀ r, run = some r → r.result ≠ .error .overrun
  once : ∀ r found, run = some r → r.result = .ok found → ∀ i, i < path.length → path[i]? ≠ some slash → r.components.countP (covers i) = 1

-- The same of a run from an index on.
structure Tracks (path : List UInt8) (first : Nat) (r : Reading) : Prop where
  inside : ∀ i ∈ r.reads, i ≤ path.length
  later : ∀ component ∈ r.components, first ≤ component.1
  once : ∀ found, r.result = .ok found → ∀ i, first ≤ i → i < path.length → path[i]? ≠ some slash → r.components.countP (covers i) = 1

-- A run from an index on that comes to an answer.
def Comes (path : List UInt8) (first : Nat) (run : Option Reading) (answer : Except Stop (Node × State)) : Prop :=
  ∃ r, run = some r ∧ Tracks path first r ∧ r.result = answer

section Tracking

variable {path : List UInt8} {first : Nat} {r : Reading}

theorem tracks_error (stop : Stop) {reads : List Nat} {components : List (Nat × Nat)} (inside : ∀ i ∈ reads, i ≤ path.length)
    (later : ∀ component ∈ components, first ≤ component.1) : Tracks path first ⟨.error stop, reads, components⟩ :=
  ⟨inside, later, fun _ ok => by cases ok⟩

theorem tracks_read (tracks : Tracks path first r) {reads : List Nat} (inside : ∀ i ∈ reads, i ≤ path.length) :
    Tracks path first (r.after reads []) := by
  refine ⟨fun i member => ?_, tracks.later, tracks.once⟩
  rcases List.mem_append.mp member with here | later
  · exact inside i here
  · exact tracks.inside i later

theorem tracks_slash (tracks : Tracks path (first + 1) r) (at_ : path[first]? = some slash) : Tracks path first r := by
  refine ⟨tracks.inside, fun component member => Nat.le_of_succ_le (tracks.later component member), ?_⟩
  intro found ok i from_ within other
  refine tracks.once found ok i ?_ within other
  rcases Nat.eq_or_lt_of_le from_ with rfl | beyond
  · exact absurd at_ other
  · exact beyond

-- A component, and what follows it.
theorem tracks_component {stop : Nat} (tracks : Tracks path (stop + 1) r) (order : first ≤ stop) (ends : path[stop]? = some slash ∨ path.length ≤ stop)
    {reads : List Nat} (inside : ∀ i ∈ reads, i ≤ path.length) : Tracks path first (r.after reads [(first, stop)]) := by
  refine ⟨fun i member => ?_, fun component member => ?_, fun found ok i from_ within other => ?_⟩
  · rcases List.mem_append.mp member with here | later
    · exact inside i here
    · exact tracks.inside i later
  · rcases List.mem_cons.mp member with rfl | member
    · exact Nat.le_refl _
    · have after := tracks.later component member
      omega
  · change ([(first, stop)] ++ r.components).countP (covers i) = 1
    rw [List.singleton_append, List.countP_cons]
    by_cases before : i < stop
    · have none_ : r.components.countP (covers i) = 0 := by
        rw [List.countP_eq_zero]
        intro component member
        have after := tracks.later component member
        simp only [covers, Bool.and_eq_true, decide_eq_true_eq, not_and]
        omega
      rw [none_, if_pos (by simp [covers, from_, before])]
    · have beyond : stop + 1 ≤ i := by
        rcases ends with at_ | end_
        · have : i ≠ stop := by
            rintro rfl
            exact other at_
          omega
        · omega
      rw [tracks.once found ok i beyond within other, if_neg (by simp [covers, before])]

theorem round_end_last (loop : State → Node → Option Reading) {compEnd : Nat} (bounded : compEnd ≤ path.length) (ends : path.length ≤ first)
    (current : Node) (s : State) :
    Comes path first (roundEnd loop 0 compEnd current s) ((crossMount s current).map fun node => (node, s)) := by
  rw [roundEnd]
  cases crossMount s current with
  | error stop => exact ⟨_, rfl, tracks_error stop (by simp) (by simp), rfl⟩
  | ok node =>
      refine ⟨_, rfl, ⟨?_, ?_, ?_⟩, rfl⟩
      · intro i member
        exact List.mem_singleton.mp member ▸ bounded
      · intro component member
        cases member
      · intro found _ i from_ within
        omega

theorem round_end_more (loop : State → Node → Option Reading) {byte : UInt8} {compEnd : Nat} {s : State}
    (onward : Node → Except Stop (Node × State)) (bounded : compEnd ≤ path.length) (more : byte ≠ 0) (current : Node)
    (goes : ∀ node, Comes path first (loop s node) (onward node)) :
    Comes path first (roundEnd loop byte compEnd current s) ((crossMount s current).bind onward) := by
  rw [roundEnd]
  cases crossMount s current with
  | error stop => exact ⟨_, rfl, tracks_error stop (by simp) (by simp), rfl⟩
  | ok node =>
      obtain ⟨r, ran, tracks, result⟩ := goes node
      dsimp only
      rw [if_neg more, ran]
      exact ⟨_, rfl, tracks_read tracks fun i member => List.mem_singleton.mp member ▸ bounded, result⟩

end Tracking

section Loop

variable (create : LookupCreate) (exclusive : Bool)

-- What the two cursors enclose.
theorem cursors {path before rest : List UInt8} (whole : path = before ++ rest) {compStart : Nat} (order : compStart ≤ before.length) :
    path.length = before.length + rest.length ∧ (path.drop compStart).take (before.length - compStart) = before.drop compStart ∧
    (∀ i ∈ before.length :: List.range' compStart (before.length - compStart), i ≤ path.length) ∧
    (before.drop compStart = [] ↔ compStart = before.length) := by
  have size : path.length = before.length + rest.length := by rw [whole, List.length_append]
  refine ⟨size, ?_, fun i member => ?_, ?_⟩
  · rw [whole, List.drop_append_of_le_length order, List.take_append_of_le_length (by rw [List.length_drop])]
    exact List.take_of_length_le (by rw [List.length_drop])
  · rw [List.mem_cons, List.mem_range'_1] at member
    omega
  · rw [List.drop_eq_nil_iff]
    omega

-- The round at the terminator is the last one.
theorem read_loop_end (path : List UInt8) (fuel : Nat) {compStart : Nat} (order : compStart ≤ path.length) (s : State) (current : Node) :
    Comes path compStart (readLoop create exclusive path (fuel + 1) s compStart path.length current)
      (lookupLoop create exclusive [] s path.length (path.drop compStart) current) := by
  obtain ⟨_, component, sliced, empty⟩ := cursors (List.append_nil path).symm order
  have at_ : (path ++ [0])[path.length]? = some 0 := by simp
  have here : ∀ i ∈ [path.length], i ≤ path.length := fun i member => List.mem_singleton.mp member ▸ Nat.le_refl _
  rw [readLoop, lookupLoop, at_]
  dsimp only
  by_cases long : intMax ≤ path.length
  · rw [if_pos long, if_pos long]
    exact ⟨_, rfl, tracks_error .overrun here (by simp), rfl⟩
  rw [if_neg long, if_neg long, if_pos (.inl rfl)]
  by_cases done : compStart = path.length
  · rw [if_pos done, if_pos (empty.mpr done)]
    obtain ⟨r, ran, tracks, result⟩ := round_end_last _ (Nat.le_refl _) (Nat.le_of_eq done.symm) current s
    exact ⟨_, congrArg (Option.map _) ran, tracks_read tracks here, result⟩
  · rw [if_neg done, if_neg (fun none_ => done (empty.mp none_)), component, decide_eq_true rfl]
    cases endComponent s create exclusive true current (path.drop compStart) with
    | error stop =>
        refine ⟨_, rfl, tracks_error stop sliced ?_, rfl⟩
        intro component member
        exact List.mem_singleton.mp member ▸ Nat.le_refl _
    | ok reached =>
        obtain ⟨r, ran, tracks, result⟩ := round_end_last _ (Nat.le_refl _) (Nat.le_succ _) reached.1 reached.2
        exact ⟨_, congrArg (Option.map _) ran, tracks_component tracks order (.inr (Nat.le_refl _)) sliced, result⟩

-- The round at a byte of the path, with the rounds after it.
theorem read_loop_byte {path before rest : List UInt8} {byte : UInt8} (whole : path = before ++ byte :: rest) (nonzero : byte ≠ 0) {fuel : Nat}
    (later : ∀ first ≤ before.length + 1, ∀ s node, Comes path first (readLoop create exclusive path fuel s first (before.length + 1) node)
      (lookupLoop create exclusive rest s (before.length + 1) ((before ++ [byte]).drop first) node))
    {compStart : Nat} (order : compStart ≤ before.length) (s : State) (current : Node) :
    Comes path compStart (readLoop create exclusive path (fuel + 1) s compStart before.length current)
      (lookupLoop create exclusive (byte :: rest) s before.length (before.drop compStart) current) := by
  obtain ⟨size, component, sliced, empty⟩ := cursors whole order
  have inside : before.length < path.length := by
    rw [size, List.length_cons]
    omega
  have here : ∀ i ∈ [before.length], i ≤ path.length := fun i member => List.mem_singleton.mp member ▸ Nat.le_of_lt inside
  have read : path[before.length]? = some byte := by
    rw [whole]
    simp
  have at_ : (path ++ [0])[before.length]? = some byte := by
    rw [List.getElem?_append_left inside, read]
  rw [readLoop, lookupLoop, at_]
  dsimp only
  by_cases long : intMax ≤ before.length
  · rw [if_pos long, if_pos long]
    exact ⟨_, rfl, tracks_error .overrun here (by simp), rfl⟩
  rw [if_neg long, if_neg long]
  by_cases divides : byte = slash
  · rw [if_pos (.inr divides), if_pos divides]
    have slashed : path[before.length]? = some slash := divides ▸ read
    have cleared := later (before.length + 1) (Nat.le_refl _)
    rw [List.drop_of_length_le (by simp)] at cleared
    let loop := fun s => readLoop create exclusive path fuel s (before.length + 1) (before.length + 1)
    by_cases done : compStart = before.length
    · rw [if_pos done, if_pos (empty.mpr done), done]
      obtain ⟨r, ran, tracks, result⟩ := round_end_more loop _ (Nat.le_of_lt inside) nonzero current (cleared s)
      exact ⟨_, congrArg (Option.map _) ran, tracks_read (tracks_slash tracks slashed) here, result⟩
    · rw [if_neg done, if_neg (fun none_ => done (empty.mp none_)), component, decide_eq_false nonzero]
      cases endComponent s create exclusive false current (before.drop compStart) with
      | error stop =>
          refine ⟨_, rfl, tracks_error stop sliced ?_, rfl⟩
          intro component member
          exact List.mem_singleton.mp member ▸ Nat.le_refl _
      | ok reached =>
          obtain ⟨r, ran, tracks, result⟩ := round_end_more loop _ (Nat.le_of_lt inside) nonzero reached.1 (cleared reached.2)
          exact ⟨_, congrArg (Option.map _) ran, tracks_component tracks order (.inl slashed) sliced, result⟩
  · rw [if_neg (not_or.mpr ⟨nonzero, divides⟩), if_neg divides]
    have longer := later compStart (Nat.le_succ_of_le order) s
    rw [List.drop_append_of_le_length order] at longer
    obtain ⟨r, ran, tracks, result⟩ := round_end_more (fun s => readLoop create exclusive path fuel s compStart (before.length + 1)) _
      (Nat.le_of_lt inside) nonzero current longer
    exact ⟨_, congrArg (Option.map _) ran, tracks_read tracks here, result⟩

-- The cursors are at the end of what was read, and at the first byte of the component that is not yet ended.
theorem read_loop_tracks {path : List UInt8} (ended : (0 : UInt8) ∉ path) (rest : List UInt8) {before : List UInt8} (whole : path = before ++ rest)
    {fuel : Nat} (enough : rest.length < fuel) {compStart : Nat} (order : compStart ≤ before.length) (s : State) (current : Node) :
    Comes path compStart (readLoop create exclusive path fuel s compStart before.length current)
      (lookupLoop create exclusive rest s before.length (before.drop compStart) current) := by
  obtain ⟨fuel, rfl⟩ : ∃ f, fuel = f + 1 := ⟨fuel - 1, by omega⟩
  induction rest generalizing before fuel compStart s current with
  | nil =>
      obtain rfl : path = before := whole.trans (List.append_nil before)
      exact read_loop_end create exclusive path fuel order s current
  | cons byte rest ih =>
      have nonzero : byte ≠ 0 := by
        rintro rfl
        exact ended (whole ▸ List.mem_append_right before List.mem_cons_self)
      have longer : path = (before ++ [byte]) ++ rest := by rw [whole, List.append_assoc, List.singleton_append]
      have next : (before ++ [byte]).length = before.length + 1 := by rw [List.length_append, List.length_singleton]
      rw [List.length_cons] at enough
      obtain ⟨fuel, rfl⟩ : ∃ f, fuel = f + 1 := ⟨fuel - 1, by omega⟩
      refine read_loop_byte create exclusive whole nonzero (fun first order s node => ?_) order s current
      rw [← next] at order ⊢
      exact ih longer order s node fuel (by omega)

-- The run is the one of the lookup.
theorem read_lookup_ext {path : List UInt8} (ended : (0 : UInt8) ∉ path) (s : State) (root : Option Node) :
    ∃ r, readLookup s root path create exclusive = some r ∧ r.result = vfsLookupExt s root path create exclusive := by
  rw [readLookup.eq_def, vfsLookupExt.eq_def]
  split
  · cases vfsRoot s with
    | error stop => exact ⟨_, rfl, rfl⟩
    | ok node =>
        cases path with
        | nil => exact ⟨_, rfl, rfl⟩
        | cons byte rest =>
            obtain ⟨r, ran, _, result⟩ := read_loop_tracks create exclusive ended rest
              (show byte :: rest = [byte] ++ rest from rfl) (Nat.lt_add_of_pos_right (by decide : 0 < 2)) (Nat.le_refl _) s node
            exact ⟨_, congrArg (Option.map _) ran, result⟩
  · cases root with
    | none => exact ⟨_, rfl, rfl⟩
    | some node =>
        obtain ⟨r, ran, _, result⟩ := read_loop_tracks create exclusive ended path
          (show path = [] ++ path from rfl) (Nat.lt_succ_self _) (Nat.le_refl _) s node
        exact ⟨_, congrArg (Option.map _) ran, result⟩

end Loop

section Defined

variable {s : State}

theorem tmpfs_lookup_defined (info : TmpfsInfo) (i : Nat) (name : List UInt8) : tmpfsLookup info i name ≠ .error .overrun := by
  rw [tmpfsLookup]
  split
  · simp
  · split
    · simp
    · split
      · simp
      · split
        · simp
        · split <;> simp

theorem rdsk_lookup_defined (t : RdskTables) (i : Nat) (name : List UInt8) : rdskLookup t i name ≠ .error .overrun := by
  rw [rdskLookup]
  split
  · simp
  · split
    · simp
    · split
      · split <;> simp
      · split
        · simp
        · split <;> simp

theorem except_map_error {α β ε : Type} {f : α → β} {value : Except ε α} {e : ε} : value.map f = .error e ↔ value = .error e := by
  cases value <;> simp [Except.map]

theorem lookup_defined (node : Node) (name : List UInt8) : s.lookup node name ≠ .error .overrun := by
  rw [State.lookup]
  split
  · rw [Ne, except_map_error]
    exact tmpfs_lookup_defined _ _ _
  · rw [Ne, except_map_error]
    exact rdsk_lookup_defined _ _ _
  · simp
  · simp

theorem lookup_component_defined (node : Node) (component : List UInt8) : lookupComponent s node component ≠ .error .overrun := by
  rw [lookupComponent]
  split
  · rename_i stop failed
    rintro same
    rw [Except.error.inj same] at failed
    exact lookup_defined node component failed
  · simp
  · split
    · rw [Ne, except_map_error]
      exact lookup_defined node dotdot
    · simp

theorem make_defined (type : VfsNodeType) (node : Node) (name : List UInt8) : s.make type node name ≠ .error .overrun := by
  rw [State.make]
  split
  · split
    · rename_i stop failed
      rintro same
      rw [Except.error.inj same, tmpfsMake] at failed
      split at failed
      · split at failed
        · cases failed
        · split at failed <;> cases failed
      · cases failed
    · simp
  · simp
  · simp
  · simp

theorem cross_mount_defined (node : Node) : crossMount s node ≠ .error .overrun := by
  rw [crossMount]
  split
  · simp
  · rw [State.rootNode]
    split <;> simp

theorem vfs_root_defined : vfsRoot s ≠ .error .overrun := by
  rw [vfsRoot]
  split
  · simp
  · rw [State.rootNode]
    split <;> simp

theorem end_component_defined (create : LookupCreate) (exclusive last : Bool) (node : Node) (component : List UInt8) :
    endComponent s create exclusive last node component ≠ .error .overrun := by
  rw [endComponent]
  split
  · rename_i failed
    exact absurd failed (lookup_component_defined node component)
  · simp
  · split
    · cases create with
      | file => exact make_defined .file node component
      | dir => exact make_defined .dir node component
      | none => simp
    · split <;> simp
  · split <;> simp

theorem bind_defined {α β : Type} {value : Except Stop α} {f : α → Except Stop β} (first : value ≠ .error .overrun)
    (then_ : ∀ x, f x ≠ .error .overrun) : value.bind f ≠ .error .overrun := by
  cases value with
  | error stop => exact fun same => first (congrArg _ (Except.error.inj same))
  | ok x => exact then_ x

-- A path whose length is an int is not overrun.
theorem lookup_loop_defined {create : LookupCreate} {exclusive : Bool} {rest component : List UInt8} {compEnd : Nat} {node : Node}
    (short : compEnd + rest.length < intMax) : lookupLoop create exclusive rest s compEnd component node ≠ .error .overrun := by
  induction rest generalizing s compEnd component node with
  | nil =>
      rw [lookupLoop, if_neg (by simp only [List.length_nil] at short; omega)]
      split
      · rw [Ne, except_map_error]
        exact cross_mount_defined node
      · refine bind_defined (end_component_defined create exclusive true node component) fun reached => ?_
        rw [Ne, except_map_error]
        exact cross_mount_defined reached.1
  | cons byte rest ih =>
      rw [List.length_cons] at short
      rw [lookupLoop, if_neg (by omega)]
      split
      · split
        · exact bind_defined (cross_mount_defined node) fun next => ih (by omega)
        · refine bind_defined (end_component_defined create exclusive false node component) fun reached => ?_
          exact bind_defined (cross_mount_defined reached.1) fun next => ih (by omega)
      · exact bind_defined (cross_mount_defined node) fun next => ih (by omega)

end Defined

section Results

theorem tracks_inside {path : List UInt8} {r : Reading} (tracks : Tracks path 0 r) (defined : r.result ≠ .error .overrun) :
    InsideString path (some (r.after [0] [])) := by
  have whole : ∀ r', some (r.after [0] []) = some r' → Tracks path 0 r' ∧ r'.result ≠ .error .overrun := by
    rintro r' same
    obtain rfl := Option.some.inj same
    exact ⟨tracks_read tracks fun i member => List.mem_singleton.mp member ▸ Nat.zero_le _, defined⟩
  exact ⟨rfl, fun r' same => (whole r' same).1.inside, fun r' same => (whole r' same).2,
    fun r' found same ok i within => (whole r' same).1.once found ok i (Nat.zero_le i) within⟩

-- The lookup of a path that starts where a slash or a node says.
theorem read_lookup_inside {create : LookupCreate} {exclusive : Bool} {path : List UInt8} (ended : (0 : UInt8) ∉ path) (short : path.length < intMax)
    {root : Option Node} (anchored : root ≠ none ∨ path.head? = some slash) (s : State) :
    InsideString path (readLookup s root path create exclusive) := by
  rw [readLookup.eq_def]
  by_cases absolute : path.head? = some slash
  · rw [if_pos (.inl absolute)]
    obtain ⟨rest, rfl⟩ := List.head?_eq_some_iff.mp absolute
    cases at_ : vfsRoot s with
    | error stop =>
        refine tracks_inside (tracks_error stop (by simp) (by simp)) fun same => ?_
        exact vfs_root_defined (at_.trans (congrArg Except.error (Except.error.inj same)))
    | ok node =>
        obtain ⟨r, ran, tracks, result⟩ := read_loop_tracks create exclusive ended rest
          (show slash :: rest = [slash] ++ rest from rfl) (Nat.lt_add_of_pos_right (by decide : 0 < 2)) (Nat.le_refl _) s node
        dsimp only
        rw [show ([slash] : List UInt8).length = 1 from rfl] at ran
        rw [show (slash :: rest).length + 1 = rest.length + 2 from rfl, ran]
        refine tracks_inside (tracks_slash tracks rfl) ?_
        rw [result]
        exact lookup_loop_defined (by rw [List.length_cons] at short; simp only [List.length_singleton]; omega)
  · obtain ⟨node, rfl⟩ := Option.ne_none_iff_exists'.mp (anchored.resolve_right absolute)
    rw [if_neg (by simpa using absolute)]
    obtain ⟨r, ran, tracks, result⟩ := read_loop_tracks create exclusive ended path
      (show path = [] ++ path from rfl) (Nat.lt_succ_self _) (Nat.le_refl _) s node
    dsimp only
    rw [show ([] : List UInt8).length = 0 from rfl] at ran
    rw [ran]
    refine tracks_inside tracks ?_
    rw [result]
    exact lookup_loop_defined (by simp only [List.length_nil]; omega)

-- One tmpfs, with nothing in it but directories.
structure DirsOnly (s : State) (info : TmpfsInfo) : Prop where
  all : s.all = [⟨.tmpfs info, none⟩]
  bare : ∀ node, s.mountedVfs node = none
  dirs : ∀ node ∈ info.nodes, node.type = .dir

-- What is found in one is found in the other.
def Extends (info info' : TmpfsInfo) : Prop :=
  ∀ i name answer, tmpfsLookup info i name = .ok answer → tmpfsLookup info' i name = .ok answer

theorem dirs_only_lookup {s : State} {info : TmpfsInfo} (dirs : DirsOnly s info) {i : Nat} {name : List UInt8} {answer : Option Nat}
    (found : tmpfsLookup info i name = .ok answer) :
    lookupComponent s ⟨0, .tmpfs i⟩ name = .ok ⟨0, .tmpfs (answer.getD i)⟩ := by
  have looked : s.lookup ⟨0, .tmpfs i⟩ name = .ok (answer.map fun c => ⟨0, .tmpfs c⟩) := by
    rw [State.lookup, State.data, dirs.all]
    simp only [List.getElem?_cons_zero, Option.map_some, found]
    rfl
  cases answer with
  | none => exact lookup_component_none looked
  | some c => exact lookup_component_some looked

-- A directory in which the name is found can be had by mkdir.
theorem dirs_only_made {s : State} {info : TmpfsInfo} (reach : Reachable Starts step s) (dirs : DirsOnly s info) {i : Nat}
    (inside : i < info.nodes.length) {name : List UInt8} (ended : (0 : UInt8) ∉ name) :
    ∃ s' info' answer, Reachable Starts step s' ∧ DirsOnly s' info' ∧ Extends info info' ∧ tmpfsLookup info' i name = .ok answer ∧
      answer.getD i < info'.nodes.length := by
  obtain ⟨answer, found, within⟩ | ⟨other, _⟩ | absent := tmpfs_lookup_inside inside name
  · refine ⟨s, info, answer, reach, dirs, fun _ _ _ same => same, found, ?_⟩
    cases answer with
    | none => exact inside
    | some c => exact within c rfl
  · exact absurd (dirs.dirs _ (List.getElem_mem inside)) other
  · have made := tmpfs_make_absent inside absent .dir
    have data : s.data 0 = some (.tmpfs info) := by
      rw [State.data, dirs.all]
      rfl
    have making : s.make .dir ⟨0, .tmpfs i⟩ name = .ok (⟨0, .tmpfs info.nodes.length⟩,
        { s with all := [⟨.tmpfs (makeTmpfsNode info i inside .dir name), none⟩] }) := by
      rw [State.make]
      simp only [data, made, dirs.all]
      rfl
    have taken : step (.make .dir (some ⟨0, .tmpfs i⟩) ⟨[], by decide⟩ ⟨name, ended⟩) s =
        some { s with all := [⟨.tmpfs (makeTmpfsNode info i inside .dir name), none⟩] } := by
      have here : vfsLookup s (some ⟨0, .tmpfs i⟩) [] = .ok ⟨0, .tmpfs i⟩ := by
        rw [vfs_lookup_relative s _ (by simp) (by decide), walk, if_pos rfl]
        exact cross_mount_bare (dirs.bare _)
      rw [step, vfsMake, here]
      change settle s ((s.make .dir ⟨0, .tmpfs i⟩ name).map (·.2)) = _
      rw [making]
      rfl
    obtain ⟨_, plain, _⟩ := tmpfs_absent inside absent
    refine ⟨_, _, some info.nodes.length, .step s _ _ reach taken, ⟨rfl, dirs.bare, ?_⟩, fun _ _ _ found => tmpfs_make_keeps made found,
      tmpfs_made_found plain made, ?_⟩
    · intro node member
      obtain ⟨j, at_⟩ := List.mem_iff_getElem?.mp member
      obtain ⟨old, was, _⟩ | ⟨_, rfl⟩ := grown_cases at_
      · obtain ⟨now, there, _, same⟩ := grown_keeps i .dir name was
        obtain rfl : now = node := Option.some.inj (there.symm.trans at_)
        exact same.trans (dirs.dirs old (List.mem_of_getElem? was))
      · rfl
    · rw [show (makeTmpfsNode info i inside .dir name).nodes = grown info.nodes i .dir name from rfl, grown, List.length_append,
        List.length_modify]
      exact Nat.lt_succ_self _

-- Every path can be made to lead somewhere.
theorem walk_prepared {rest component : List UInt8} (ended : (0 : UInt8) ∉ component ++ rest) {s : State} {info : TmpfsInfo}
    (reach : Reachable Starts step s) (dirs : DirsOnly s info) {i : Nat} (inside : i < info.nodes.length) :
    ∃ s' info' found, Reachable Starts step s' ∧ DirsOnly s' info' ∧ Extends info info' ∧
      walk s' rest component ⟨0, .tmpfs i⟩ = .ok found := by
  have named : (0 : UInt8) ∉ component := fun member => ended (List.mem_append_left rest member)
  induction rest generalizing component s info i with
  | nil =>
      by_cases empty : component = []
      · refine ⟨s, info, ⟨0, .tmpfs i⟩, reach, dirs, fun _ _ _ same => same, ?_⟩
        rw [walk, if_pos empty]
        exact cross_mount_bare (dirs.bare _)
      · obtain ⟨s', info', answer, reach', dirs', extends_, found, _⟩ := dirs_only_made reach dirs inside named
        refine ⟨s', info', ⟨0, .tmpfs (answer.getD i)⟩, reach', dirs', extends_, ?_⟩
        rw [walk, if_neg empty, dirs_only_lookup dirs' found]
        exact cross_mount_bare (dirs'.bare _)
  | cons byte rest ih =>
      have behind : (0 : UInt8) ∉ [] ++ rest := fun member => ended (List.mem_append_right component (List.mem_cons_of_mem byte member))
      by_cases divides : byte = slash
      · by_cases empty : component = []
        · obtain ⟨s', info', found, reach', dirs', extends_, walked⟩ := ih behind reach dirs inside List.not_mem_nil
          refine ⟨s', info', found, reach', dirs', extends_, ?_⟩
          rw [walk, if_pos divides, if_pos empty, bind_ok_eq (cross_mount_bare (dirs'.bare _)), walked]
        · obtain ⟨s₁, info₁, answer, reach₁, dirs₁, first, found₁, inside₁⟩ := dirs_only_made reach dirs inside named
          obtain ⟨s', info', found, reach', dirs', later, walked⟩ := ih behind reach₁ dirs₁ inside₁ List.not_mem_nil
          refine ⟨s', info', found, reach', dirs', fun j name answer same => later j name answer (first j name answer same), ?_⟩
          rw [walk, if_pos divides, if_neg empty, dirs_only_lookup dirs' (later _ _ _ found₁)]
          change (crossMount s' _).bind _ = _
          rw [bind_ok_eq (cross_mount_bare (dirs'.bare _)), walked]
      · rw [components_byte component rest byte] at ended
        obtain ⟨s', info', found, reach', dirs', extends_, walked⟩ := ih ended reach dirs inside fun member => ended (List.mem_append_left rest member)
        refine ⟨s', info', found, reach', dirs', extends_, ?_⟩
        rw [walk, if_neg divides, bind_ok_eq (cross_mount_bare (dirs'.bare _)), walked]

def tmpfsRoot : State := ⟨[⟨.tmpfs tmpfsMount, none⟩], fun _ => none⟩

theorem tmpfs_root_reachable : Reachable Starts step tmpfsRoot := by
  have run : execute step [.mount .tmpfs none] start = some tmpfsRoot := rfl
  exact reachable_execute (.start start rfl) run

theorem tmpfs_root_dirs : DirsOnly tmpfsRoot tmpfsMount := by
  refine ⟨rfl, fun _ => rfl, fun node member => ?_⟩
  rw [List.mem_singleton.mp member]

end Results

end Elysium.Fs
