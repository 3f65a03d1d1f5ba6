import Mathlib.Logic.Relation

set_option autoImplicit false

namespace Elysium.Namespaces

-- Trees of named nodes, mounted on each other's nodes. Volumes are numbered in the order
-- they came up. find answers none for the parent of a volume's root.
structure Forest (Node Label Error : Type) where
  volumes : Nat
  volume : Node → Nat
  find : Node → Label → Except Error (Option Node)
  up : Label
  root : Nat → Except Error Node
  mounted : Node → Option Nat
  mountPoint : Nat → Option Node

-- A volume is mounted on a node of an earlier volume, at most one on each node, and its
-- root is where asking for the parent leads out of it.
structure Layered {Node Label Error : Type} (F : Forest Node Label Error) : Prop where
  root_volume : ∀ {v r}, F.root v = .ok r → F.volume r = v
  mounted_later : ∀ {n v}, F.mounted n = some v → F.volume n < v ∧ v < F.volumes
  mounted_point : ∀ {n v}, F.mounted n = some v ↔ F.mountPoint v = some n
  find_within : ∀ {n l a}, F.find n l = .ok a → F.volume n < F.volumes
  find_volume : ∀ {n l m}, F.find n l = .ok (some m) → F.volume m = F.volume n
  root_up : ∀ {v r}, F.root v = .ok r → F.find r F.up = .ok none
  up_only : ∀ {n l}, F.find n l = .ok none → l = F.up
  up_moves : ∀ {n p}, F.find n F.up = .ok (some p) → p ≠ n

section Resolving

variable {Node Label Error : Type} (F : Forest Node Label Error)

-- One step into what is mounted on a node, and all of them.
def cross (n : Node) : Except Error Node :=
  match F.mounted n with
  | none => .ok n
  | some v => F.root v

def enterFrom : Nat → Node → Except Error Node
  | 0, n => .ok n
  | fuel + 1, n =>
    match F.mounted n with
    | none => .ok n
    | some v => (F.root v).bind (enterFrom fuel)

def enter (n : Node) : Except Error Node := enterFrom F F.volumes n

-- The parent of the node a volume is mounted on; where that node is itself the root of a
-- mounted volume, the search goes on below it, and it ends at a volume mounted nowhere.
def climbFrom : Nat → Node → Except Error Node
  | 0, n => .ok n
  | fuel + 1, n =>
    match F.mountPoint (F.volume n) with
    | none => .ok n
    | some m =>
      match F.find m F.up with
      | .error e => .error e
      | .ok (some p) => .ok p
      | .ok none => climbFrom fuel m

def climb (n : Node) : Except Error Node := climbFrom F F.volumes n

def follow (n : Node) (label : Label) : Except Error Node :=
  match F.find n label with
  | .error e => .error e
  | .ok (some m) => enter F m
  | .ok none => (climb F n).bind (enter F)

def followAll : List Label → Node → Except Error Node
  | [], n => .ok n
  | label :: labels, n => (follow F n label).bind (followAll labels)

def resolve (n : Node) (labels : List Label) : Except Error Node := (enter F n).bind (followAll F labels)

-- No more than one volume is stacked on the node.
def Shallow (n : Node) : Prop :=
  ∀ v r, F.mounted n = some v → F.root v = .ok r → F.mounted r = none

-- The node and everything below it down to the first volume are roots mounted on roots.
inductive OverRoot : Node → Prop where
  | bottom (n : Node) (first : F.mountPoint (F.volume n) = none) : OverRoot n
  | above (n m : Node) (point : F.mountPoint (F.volume n) = some m) (root : F.root (F.volume n) = .ok n)
      (ends : F.find m F.up = .ok none) (below : OverRoot m) : OverRoot n

-- The walk down the labels meets no stack of volumes, and asks for the parent of a root
-- only where that is the root again.
def Clear : Node → List Label → Prop
  | n, [] => Shallow F n
  | n, label :: labels => Shallow F n ∧ ∀ m, cross F n = .ok m →
      (F.find m label = .ok none → OverRoot F m ∧ Clear m labels) ∧
      ∀ x, F.find m label = .ok (some x) → Clear x labels

def Crosses (n m : Node) : Prop := ∃ v, F.mounted n = some v ∧ F.root v = .ok m

end Resolving

section Mounting

open Relation (ReflTransGen)

variable {Node Label Error : Type} {F : Forest Node Label Error}

theorem cross_bare {n : Node} (bare : F.mounted n = none) : cross F n = .ok n := by
  rw [cross, bare]

theorem enter_from_bare {n : Node} (bare : F.mounted n = none) (fuel : Nat) : enterFrom F fuel n = .ok n := by
  cases fuel with
  | zero => rfl
  | succ fuel => rw [enterFrom, bare]

theorem enter_bare {n : Node} (bare : F.mounted n = none) : enter F n = .ok n :=
  enter_from_bare bare F.volumes

theorem enter_from_crosses (layers : Layered F) (fuel : Nat) {n m : Node} (enough : F.volumes ≤ F.volume n + fuel)
    (entered : enterFrom F fuel n = .ok m) : ReflTransGen (Crosses F) n m ∧ F.mounted m = none := by
  induction fuel generalizing n with
  | zero =>
      rw [enterFrom, Except.ok.injEq] at entered
      subst entered
      refine ⟨.refl, ?_⟩
      cases at_ : F.mounted n with
      | none => rfl
      | some v =>
          have later := layers.mounted_later at_
          omega
  | succ fuel ih =>
      rw [enterFrom] at entered
      cases at_ : F.mounted n with
      | none =>
          rw [at_, Except.ok.injEq] at entered
          subst entered
          exact ⟨.refl, at_⟩
      | some v =>
          simp only [at_] at entered
          cases root : F.root v with
          | error e =>
              rw [root] at entered
              exact absurd entered (by simp [Except.bind])
          | ok r =>
              rw [root] at entered
              have later := layers.mounted_later at_
              have volume := layers.root_volume root
              obtain ⟨path, bare⟩ := ih (n := r) (by omega) entered
              exact ⟨.head ⟨v, at_, root⟩ path, bare⟩

theorem enter_crosses (layers : Layered F) {n m : Node} (entered : enter F n = .ok m) :
    ReflTransGen (Crosses F) n m ∧ F.mounted m = none :=
  enter_from_crosses layers F.volumes (by omega) entered

theorem enter_from_end (layers : Layered F) {n m : Node} (path : ReflTransGen (Crosses F) n m)
    (bare : F.mounted m = none) (fuel : Nat) (enough : F.volumes ≤ F.volume n + fuel) :
    enterFrom F fuel n = .ok m := by
  induction path using ReflTransGen.head_induction_on generalizing fuel with
  | refl => exact enter_from_bare bare fuel
  | @head n r first _ ih =>
      obtain ⟨v, at_, root⟩ := first
      have later := layers.mounted_later at_
      have volume := layers.root_volume root
      cases fuel with
      | zero => omega
      | succ fuel =>
          have rest := ih fuel (by omega)
          rw [enterFrom, at_]
          simp only [root, Except.bind]
          exact rest

theorem enter_end (layers : Layered F) {n m : Node} (path : ReflTransGen (Crosses F) n m)
    (bare : F.mounted m = none) : enter F n = .ok m :=
  enter_from_end layers path bare F.volumes (by omega)

-- Entering goes one step at a time, and where no stack is met one step is all of it.
theorem enter_shallow (layers : Layered F) {n : Node} : Shallow F n ↔ cross F n = enter F n := by
  cases at_ : F.mounted n with
  | none =>
      rw [cross_bare at_, enter_bare at_]
      refine ⟨fun _ => rfl, fun _ v r other => ?_⟩
      rw [at_] at other
      cases other
  | some v =>
      have later := layers.mounted_later at_
      obtain ⟨fuel, volumes⟩ : ∃ fuel, F.volumes = fuel + 1 := ⟨F.volumes - 1, by omega⟩
      have crossing : cross F n = F.root v := by rw [cross, at_]
      have entering : enter F n = (F.root v).bind (enterFrom F fuel) := by rw [enter, volumes, enterFrom, at_]
      rw [crossing]
      cases root : F.root v with
      | error e =>
          rw [entering, root]
          refine ⟨fun _ => rfl, fun _ w r other ends => ?_⟩
          rw [at_, Option.some.injEq] at other
          rw [← other, root] at ends
          cases ends
      | ok r =>
          constructor
          · intro shallow
            rw [entering, root]
            exact (enter_from_bare (shallow v r at_ root) fuel).symm
          · intro same w r' other ends
            rw [at_, Option.some.injEq] at other
            rw [← other, root, Except.ok.injEq] at ends
            exact ends ▸ (enter_crosses layers same.symm).2

theorem cross_clear_bare (layers : Layered F) {n m : Node} (shallow : Shallow F n) (crossed : cross F n = .ok m) :
    F.mounted m = none :=
  (enter_crosses layers (((enter_shallow layers).mp shallow).symm.trans crossed)).2

-- Whatever a crossing ends at, other than where it began, is the root of a volume, and
-- the crossing went through the node that volume is mounted on.
theorem crosses_through (layers : Layered F) {n m : Node} (path : ReflTransGen (Crosses F) n m) :
    m = n ∨ F.root (F.volume m) = .ok m ∧
      ∃ point, F.mountPoint (F.volume m) = some point ∧ ReflTransGen (Crosses F) n point := by
  cases path with
  | refl => exact .inl rfl
  | @tail before _ first last =>
      obtain ⟨v, at_, root⟩ := last
      have volume := layers.root_volume root
      subst volume
      exact .inr ⟨root, before, layers.mounted_point.mp at_, first⟩

theorem climb_from_volume (layers : Layered F) (fuel : Nat) {n p : Node} (climbed : climbFrom F fuel n = .ok p) :
    F.volume p ≤ F.volume n := by
  induction fuel generalizing n with
  | zero =>
      rw [climbFrom, Except.ok.injEq] at climbed
      exact climbed ▸ Nat.le_refl _
  | succ fuel ih =>
      rw [climbFrom] at climbed
      cases point : F.mountPoint (F.volume n) with
      | none =>
          rw [point, Except.ok.injEq] at climbed
          exact climbed ▸ Nat.le_refl _
      | some m =>
          have later := layers.mounted_later (layers.mounted_point.mpr point)
          rw [point] at climbed
          cases found : F.find m F.up with
          | error e =>
              simp only [found] at climbed
              cases climbed
          | ok answer =>
              cases answer with
              | none =>
                  simp only [found] at climbed
                  have lower := ih climbed
                  omega
              | some q =>
                  simp only [found, Except.ok.injEq] at climbed
                  have same := layers.find_volume found
                  rw [← climbed]
                  omega

theorem climb_over_root (layers : Layered F) {n : Node} (over_ : OverRoot F n) (fuel : Nat)
    (enough : F.volume n ≤ fuel) : ∃ bottom, climbFrom F fuel n = .ok bottom ∧ ReflTransGen (Crosses F) bottom n := by
  induction over_ generalizing fuel with
  | bottom n first =>
      refine ⟨n, ?_, .refl⟩
      cases fuel with
      | zero => rfl
      | succ fuel => rw [climbFrom, first]
  | above n m point root ends _ ih =>
      have at_ := layers.mounted_point.mpr point
      have later := layers.mounted_later at_
      cases fuel with
      | zero => omega
      | succ fuel =>
          obtain ⟨bottom, climbed, path⟩ := ih fuel (by omega)
          refine ⟨bottom, ?_, path.tail ⟨F.volume n, at_, root⟩⟩
          rw [climbFrom, point]
          simp only [ends, climbed]

-- Away from the roots over the first volume's, the climb leads somewhere from which the
-- root it started at is not entered again.
theorem climb_leaves (layers : Layered F) (fuel : Nat) {n p : Node} (enough : F.volume n < fuel)
    (apart : ¬ OverRoot F n) (climbed : climbFrom F fuel n = .ok p) : ¬ ReflTransGen (Crosses F) p n := by
  induction fuel generalizing n with
  | zero => omega
  | succ fuel ih =>
      intro path
      rw [climbFrom] at climbed
      cases point : F.mountPoint (F.volume n) with
      | none => exact apart (.bottom n point)
      | some m =>
          have later := layers.mounted_later (layers.mounted_point.mpr point)
          have lower : F.volume p ≤ F.volume m ∧ (F.find m F.up = .ok (some p) ∨
              F.find m F.up = .ok none ∧ climbFrom F fuel m = .ok p) := by
            rw [point] at climbed
            cases found : F.find m F.up with
            | error e =>
                simp only [found] at climbed
                cases climbed
            | ok answer =>
                cases answer with
                | none =>
                    simp only [found] at climbed
                    exact ⟨climb_from_volume layers fuel climbed, .inr ⟨rfl, climbed⟩⟩
                | some q =>
                    simp only [found, Except.ok.injEq] at climbed
                    subst climbed
                    exact ⟨Nat.le_of_eq (layers.find_volume found), .inl rfl⟩
          obtain ⟨volume, how⟩ := lower
          obtain same | ⟨root, point', ends, through⟩ := crosses_through layers path
          · rw [same] at later
            omega
          · rw [point, Option.some.injEq] at ends
            subst ends
            obtain found | ⟨found, climbed'⟩ := how
            · obtain same | ⟨root', _⟩ := crosses_through layers through
              · exact layers.up_moves found same.symm
              · have none_ := layers.root_up root'
                rw [found] at none_
                cases none_
            · by_cases over_ : OverRoot F m
              · exact apart (.above n m point root found over_)
              · exact ih (by omega) over_ climbed' through

theorem climb_enter (layers : Layered F) {n : Node} (bare : F.mounted n = none)
    (within : F.volume n < F.volumes) : OverRoot F n ↔ (climb F n).bind (enter F) = .ok n := by
  constructor
  · intro over_
    obtain ⟨bottom, climbed, path⟩ := climb_over_root layers over_ F.volumes (Nat.le_of_lt within)
    rw [climb, climbed]
    exact enter_end layers path bare
  · intro back
    by_cases over_ : OverRoot F n
    · exact over_
    cases climbed : climb F n with
    | error e =>
        rw [climbed] at back
        cases back
    | ok p =>
        rw [climbed] at back
        exact absurd (enter_crosses layers back).1 (climb_leaves layers F.volumes within over_ climbed)

theorem follow_error {n : Node} {label : Label} {e : Error} (found : F.find n label = .error e) :
    follow F n label = .error e := by
  rw [follow, found]

theorem follow_some {n m : Node} {label : Label} (found : F.find n label = .ok (some m)) :
    follow F n label = enter F m := by
  rw [follow, found]

theorem follow_none {n : Node} {label : Label} (found : F.find n label = .ok none) :
    follow F n label = (climb F n).bind (enter F) := by
  rw [follow, found]

theorem clear_shallow {n : Node} {labels : List Label} (clear : Clear F n labels) : Shallow F n := by
  cases labels with
  | nil => exact clear
  | cons label labels => exact clear.1

theorem shallow_bare {n : Node} (bare : F.mounted n = none) : Shallow F n := by
  intro v r at_
  rw [bare] at at_
  cases at_

-- Whether the walk is clear is decided where the first crossing ends.
theorem clear_cross (layers : Layered F) {n : Node} {labels : List Label} :
    Clear F n labels ↔ Shallow F n ∧ ∀ m, cross F n = .ok m → Clear F m labels := by
  cases labels with
  | nil =>
      refine ⟨fun clear => ⟨clear, fun m crossed => ?_⟩, fun clear => clear.1⟩
      exact shallow_bare (cross_clear_bare layers clear crossed)
  | cons label labels =>
      constructor
      · intro clear
        refine ⟨clear.1, fun m crossed => ?_⟩
        have bare := cross_clear_bare layers clear.1 crossed
        refine ⟨shallow_bare bare, fun m' crossed' => ?_⟩
        rw [cross_bare bare, Except.ok.injEq] at crossed'
        exact crossed' ▸ clear.2 m crossed
      · intro clear
        refine ⟨clear.1, fun m crossed => ?_⟩
        have bare := cross_clear_bare layers clear.1 crossed
        exact (clear.2 m crossed).2 m (cross_bare bare)

theorem clear_append {labels more : List Label} {n : Node} (clear : Clear F n (labels ++ more)) : Clear F n labels := by
  induction labels generalizing n with
  | nil => exact clear_shallow clear
  | cons label labels ih =>
      refine ⟨clear.1, fun m crossed => ⟨fun found => ?_, fun x found => ?_⟩⟩
      · obtain ⟨over_, rest⟩ := (clear.2 m crossed).1 found
        exact ⟨over_, ih rest⟩
      · exact ih ((clear.2 m crossed).2 x found)

-- A clear way is clear from every node on it.
theorem clear_follow (layers : Layered F) {n m : Node} {label : Label} {labels : List Label}
    (bare : F.mounted n = none) (clear : Clear F n (label :: labels)) (followed : follow F n label = .ok m) :
    F.mounted m = none ∧ Clear F m labels := by
  obtain ⟨up, down⟩ := clear.2 n (cross_bare bare)
  cases found : F.find n label with
  | error e =>
      rw [follow_error found] at followed
      cases followed
  | ok answer =>
      cases answer with
      | none =>
          obtain ⟨over_, rest⟩ := up found
          rw [follow_none found, (climb_enter layers bare (layers.find_within found)).mp over_, Except.ok.injEq] at followed
          exact ⟨followed ▸ bare, followed ▸ rest⟩
      | some x =>
          obtain ⟨shallow, rest⟩ := (clear_cross layers).mp (down x found)
          rw [follow_some found, ← (enter_shallow layers).mp shallow] at followed
          exact ⟨cross_clear_bare layers shallow followed, rest m followed⟩

theorem follow_bare (layers : Layered F) {n m : Node} {label : Label} (followed : follow F n label = .ok m) :
    F.mounted m = none := by
  cases found : F.find n label with
  | error e =>
      rw [follow_error found] at followed
      cases followed
  | ok answer =>
      cases answer with
      | none =>
          rw [follow_none found] at followed
          cases climbed : climb F n with
          | error e =>
              rw [climbed] at followed
              cases followed
          | ok p =>
              rw [climbed] at followed
              exact (enter_crosses layers followed).2
      | some x =>
          rw [follow_some found] at followed
          exact (enter_crosses layers followed).2

theorem follow_all_bare (layers : Layered F) {labels : List Label} {n m : Node} (bare : F.mounted n = none)
    (followed : followAll F labels n = .ok m) : F.mounted m = none := by
  induction labels generalizing n with
  | nil => exact Except.ok.inj followed ▸ bare
  | cons label labels ih =>
      rw [followAll] at followed
      cases first : follow F n label with
      | error e =>
          rw [first] at followed
          cases followed
      | ok next =>
          rw [first] at followed
          exact ih (follow_bare layers first) followed

theorem resolve_ends_bare (layers : Layered F) {labels : List Label} {n m : Node}
    (resolved : resolve F n labels = .ok m) : F.mounted m = none := by
  rw [resolve] at resolved
  cases entered : enter F n with
  | error e =>
      rw [entered] at resolved
      cases resolved
  | ok first =>
      rw [entered] at resolved
      exact follow_all_bare layers (enter_crosses layers entered).2 resolved

theorem clear_of_follow (layers : Layered F) {n : Node} {label : Label} {labels : List Label}
    (bare : F.mounted n = none) (up : F.find n label = .ok none → OverRoot F n)
    (down : ∀ x, F.find n label = .ok (some x) → Shallow F x)
    (rest : ∀ m, follow F n label = .ok m → Clear F m labels) : Clear F n (label :: labels) := by
  refine ⟨shallow_bare bare, fun m crossed => ?_⟩
  rw [cross_bare bare, Except.ok.injEq] at crossed
  subst crossed
  refine ⟨fun found => ⟨up found, rest n ?_⟩, fun x found => (clear_cross layers).mpr ⟨down x found, fun y crossed => rest y ?_⟩⟩
  · rw [follow_none found]
    exact (climb_enter layers bare (layers.find_within found)).mp (up found)
  · rw [follow_some found, ← (enter_shallow layers).mp (down x found), crossed]

theorem resolve_cross (layers : Layered F) {n m : Node} {labels : List Label} (shallow : Shallow F n)
    (crossed : cross F n = .ok m) : resolve F n labels = resolve F m labels := by
  have bare := cross_clear_bare layers shallow crossed
  rw [resolve, resolve, ← (enter_shallow layers).mp shallow, crossed, enter_bare bare]

theorem resolve_bare {n : Node} {labels : List Label} (bare : F.mounted n = none) :
    resolve F n labels = followAll F labels n := by
  rw [resolve, enter_bare bare]
  rfl

end Mounting

end Elysium.Namespaces
