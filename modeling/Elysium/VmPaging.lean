import Elysium.VmCopy
import Mathlib.Data.Finset.Card
import Mathlib.Order.Interval.Finset.Nat

set_option autoImplicit false

namespace Elysium.Vm

-- What vm_copy_to and vm_copy_from use of an address space and of physical memory, which HHDM
-- makes readable. fixPage gives none for the result false.
structure Paging (M : Type) where
  space : M → AddressSpace
  physical : M → Nat → Except Fault (Option Nat)
  fixPage : M → Nat → Except Fault (Option M)
  memory : M → Nat → UInt8
  setMemory : M → (Nat → UInt8) → M

-- mem_copy into and out of physical memory.
def copyIn (memory : Nat → UInt8) (dest : Nat) (bytes : List UInt8) : Nat → UInt8 :=
  fun a => if dest ≤ a ∧ a < dest + bytes.length then bytes.getD (a - dest) 0 else memory a

def copyOut (memory : Nat → UInt8) (source count : Nat) : List UInt8 := (List.range count).map fun k => memory (source + k)

section Code

variable {M : Type} (g : Paging M)

-- The physical address of a byte, after its page has been brought in where it can be.
def locate (vaddr : Nat) (m : M) : Except Fault (M × Option Nat) := do
  match ← g.physical m vaddr with
  | some phys => .ok (m, some phys)
  | none =>
      match ← g.fixPage m vaddr with
      | none => .ok (m, none)
      | some m =>
          match ← g.physical m vaddr with
          | some phys => .ok (m, some phys)
          | none => .error .assertion

def pieceLength (address count i : Nat) : Nat := min (count - i) (pageGranularity - add64 address i % pageGranularity)

-- Every round copies at least one byte. The result is i, with the bytes for a copy from.
def copyToLoop (destAddr count : Nat) : Nat → Nat → List UInt8 → M → Except Fault (M × Nat)
  | 0, i, _, m => if i < count then .error .diverges else .ok (m, i)
  | fuel + 1, i, src, m =>
      if i < count then do
        let (m, phys) ← locate g (add64 destAddr i) m
        match phys with
        | none => .ok (m, i)
        | some phys =>
            let len := pieceLength destAddr count i
            copyToLoop destAddr count fuel (i + len) (src.drop len)
              (g.setMemory m (copyIn (g.memory m) phys (src.take len)))
      else .ok (m, i)

def vmCopyTo (destAddr : Nat) (src : List UInt8) (count : Nat) (m : M) : Except Fault (M × Nat) := do
  if ← memoryExists (g.space m) destAddr count then copyToLoop g destAddr count count 0 src m else .ok (m, 0)

def copyFromLoop (srcAddr count : Nat) : Nat → Nat → List UInt8 → M → Except Fault (M × List UInt8 × Nat)
  | 0, i, dest, m => if i < count then .error .diverges else .ok (m, dest, i)
  | fuel + 1, i, dest, m =>
      if i < count then do
        let (m, phys) ← locate g (add64 srcAddr i) m
        match phys with
        | none => .ok (m, dest, i)
        | some phys =>
            let len := pieceLength srcAddr count i
            copyFromLoop srcAddr count fuel (i + len) (dest ++ copyOut (g.memory m) phys len) m
      else .ok (m, dest, i)

def vmCopyFrom (srcAddr count : Nat) (m : M) : Except Fault (M × List UInt8 × Nat) := do
  if ← memoryExists (g.space m) srcAddr count then copyFromLoop g srcAddr count count 0 [] m else .ok (m, [], 0)

end Code

-- What bringing in pages and storing bytes both keep, the copies keep, whatever they return.
section Keeps

variable {M : Type} {g : Paging M} {inv : M → Prop} (fixed : ∀ {m v m'}, inv m → g.fixPage m v = .ok (some m') → inv m')

include fixed

theorem locate_keeps {m m' : M} {v : Nat} {phys : Option Nat} (ok : inv m) (run : locate g v m = .ok (m', phys)) : inv m' := by
  unfold locate at run
  rw [bind_eq_ok] at run
  obtain ⟨found, _, run⟩ := run
  cases found with
  | some phys =>
      obtain ⟨rfl, _⟩ := Prod.mk.inj (Except.ok.inj run)
      exact ok
  | none =>
      rw [bind_eq_ok] at run
      obtain ⟨result, fix, run⟩ := run
      cases result with
      | none =>
          obtain ⟨rfl, _⟩ := Prod.mk.inj (Except.ok.inj run)
          exact ok
      | some next =>
          rw [bind_eq_ok] at run
          obtain ⟨again, _, run⟩ := run
          cases again with
          | none => cases run
          | some phys =>
              obtain ⟨rfl, _⟩ := Prod.mk.inj (Except.ok.inj run)
              exact fixed ok fix

theorem copy_to_loop_keeps (stored : ∀ {m} memory, inv m → inv (g.setMemory m memory)) {dest count : Nat} (fuel : Nat) {i k : Nat}
    {src : List UInt8} {m m' : M} (ok : inv m) (run : copyToLoop g dest count fuel i src m = .ok (m', k)) : inv m' := by
  induction fuel generalizing i src m with
  | zero =>
      rw [copyToLoop] at run
      split at run
      · cases run
      · obtain ⟨rfl, _⟩ := Prod.mk.inj (Except.ok.inj run)
        exact ok
  | succ fuel ih =>
      rw [copyToLoop] at run
      split at run
      · rw [bind_eq_ok] at run
        obtain ⟨⟨u, phys⟩, located, run⟩ := run
        have okU := locate_keeps fixed ok located
        cases phys with
        | none =>
            obtain ⟨rfl, _⟩ := Prod.mk.inj (Except.ok.inj run)
            exact okU
        | some phys => exact ih (stored _ okU) run
      · obtain ⟨rfl, _⟩ := Prod.mk.inj (Except.ok.inj run)
        exact ok

theorem vm_copy_to_keeps (stored : ∀ {m} memory, inv m → inv (g.setMemory m memory)) {dest count k : Nat} {src : List UInt8} {m m' : M}
    (ok : inv m) (run : vmCopyTo g dest src count m = .ok (m', k)) : inv m' := by
  unfold vmCopyTo at run
  rw [bind_eq_ok] at run
  obtain ⟨there, _, run⟩ := run
  cases there with
  | true => exact copy_to_loop_keeps fixed stored count ok run
  | false =>
      obtain ⟨rfl, _⟩ := Prod.mk.inj (Except.ok.inj run)
      exact ok

theorem copy_from_loop_keeps {source count : Nat} (fuel : Nat) {i : Nat} {dest : List UInt8} {m : M} {result : M × List UInt8 × Nat}
    (ok : inv m) (run : copyFromLoop g source count fuel i dest m = .ok result) : inv result.1 := by
  induction fuel generalizing i dest m with
  | zero =>
      rw [copyFromLoop] at run
      split at run
      · cases run
      · rw [← Except.ok.inj run]
        exact ok
  | succ fuel ih =>
      rw [copyFromLoop] at run
      split at run
      · rw [bind_eq_ok] at run
        obtain ⟨⟨u, phys⟩, located, run⟩ := run
        have okU := locate_keeps fixed ok located
        cases phys with
        | none =>
            rw [← Except.ok.inj run]
            exact okU
        | some phys => exact ih okU run
      · rw [← Except.ok.inj run]
        exact ok

theorem vm_copy_from_keeps {source count : Nat} {m : M} {result : M × List UInt8 × Nat} (ok : inv m)
    (run : vmCopyFrom g source count m = .ok result) : inv result.1 := by
  unfold vmCopyFrom at run
  rw [bind_eq_ok] at run
  obtain ⟨there, _, run⟩ := run
  cases there with
  | true => exact copy_from_loop_keeps fixed count ok run
  | false =>
      rw [← Except.ok.inj run]
      exact ok

end Keeps

def byteIn (frame v : Nat) : Nat := frame * pageGranularity + v % pageGranularity

-- A paged space, seen from above: the pages of the bytes it serves have frames, two pages never
-- the same one, and a page without a frame is given one while there are frames to spare.
structure Pages {M : Type} (g : Paging M) (sound : M → Prop) (served : M → Nat → Prop) (frame : M → Nat → Option Nat)
    (spare : M → Nat) : Prop where
  physical : ∀ {m v}, sound m → served m v → g.physical m v = .ok ((frame m (v / pageGranularity)).map fun f => byteIn f v)
  injective : ∀ {m P Q f}, sound m → frame m P = some f → frame m Q = some f → P = Q
  fix : ∀ {m v}, sound m → served m v → frame m (v / pageGranularity) = none → 0 < spare m →
    ∃ m' f, g.fixPage m v = .ok (some m') ∧ sound m' ∧ frame m' = Function.update (frame m) (v / pageGranularity) (some f) ∧
      served m' = served m ∧ spare m ≤ spare m' + 1 ∧
      ∀ P f' o, frame m P = some f' → o < pageGranularity →
        g.memory m' (f' * pageGranularity + o) = g.memory m (f' * pageGranularity + o)
  set : ∀ {m} memory, sound m → sound (g.setMemory m memory) ∧ frame (g.setMemory m memory) = frame m ∧
    served (g.setMemory m memory) = served m ∧ spare (g.setMemory m memory) = spare m
  memory_set : ∀ m memory, g.memory (g.setMemory m memory) = memory
  set_set : ∀ m first second, g.setMemory (g.setMemory m first) second = g.setMemory m second
  set_memory : ∀ m, g.setMemory m (g.memory m) = m
  tidy : ∀ {m}, sound m → Tidy (g.space m)
  present : ∀ {m address length}, sound m → 0 < length → address + length < 2 ^ 64 →
    (∀ a, address ≤ a → a < address + length → served m a) → memoryExists (g.space m) address length = .ok true

-- The byte a program sees at an address, where its page has a frame.
def userByte {M : Type} (g : Paging M) (frame : M → Nat → Option Nat) (m : M) (v : Nat) : Option UInt8 :=
  (frame m (v / pageGranularity)).map fun f => g.memory m (byteIn f v)

-- There is a frame to spare for every page in a range of pages that has none.
def Affords {M : Type} (frame : M → Nat → Option Nat) (spare : M → Nat) (first last : Nat) (m : M) : Prop :=
  ((Finset.Icc first last).filter fun P => frame m P = none).card ≤ spare m

-- A page that has been brought in is one fewer that needs a frame.
theorem claimed_one_fewer {U : Finset Nat} {before after : Nat → Option Nat} {P f : Nat} (inside : P ∈ U) (absent : before P = none)
    (claimed : after = Function.update before P (some f)) :
    (U.filter fun Q => after Q = none).card + 1 ≤ (U.filter fun Q => before Q = none).card := by
  have here : P ∈ U.filter fun Q => before Q = none := Finset.mem_filter.mpr ⟨inside, absent⟩
  have fewer : (U.filter fun Q => after Q = none) ⊆ (U.filter fun Q => before Q = none).erase P := by
    intro Q needs
    obtain ⟨range, missing⟩ := Finset.mem_filter.mp needs
    have other : Q ≠ P := by
      rintro rfl
      rw [claimed, Function.update_self] at missing
      cases missing
    rw [claimed, Function.update_of_ne other] at missing
    exact Finset.mem_erase.mpr ⟨other, Finset.mem_filter.mpr ⟨range, missing⟩⟩
  have count := Finset.card_le_card fewer
  have positive := Finset.card_pos.mpr ⟨_, here⟩
  rw [Finset.card_erase_of_mem here] at count
  omega

theorem byte_in_inj {f g v w : Nat} (same : byteIn f v = byteIn g w) : f = g ∧ v % pageGranularity = w % pageGranularity := by
  unfold byteIn pageGranularity at *
  omega

section Bytes

variable {M : Type} {g : Paging M} {sound : M → Prop} {served : M → Nat → Prop} {frame : M → Nat → Option Nat} {spare : M → Nat}
  (pages : Pages g sound served frame spare)

-- The same copy, one byte after the other.
def putBytes (g : Paging M) : Nat → List UInt8 → M → Except Fault M
  | _, [], m => .ok m
  | v, b :: rest, m => do
      let (m, phys) ← locate g v m
      match phys with
      | none => .error .stale
      | some phys => putBytes g (v + 1) rest (g.setMemory m (copyIn (g.memory m) phys [b]))

theorem put_bytes_append (v : Nat) (front back : List UInt8) (m : M) :
    putBytes g v (front ++ back) m = putBytes g v front m >>= putBytes g (v + front.length) back := by
  induction front generalizing v m with
  | nil => rfl
  | cons b rest ih =>
      rw [List.cons_append, putBytes, putBytes]
      cases located : locate g v m with
      | error fault => rfl
      | ok result =>
          obtain ⟨m', phys⟩ := result
          cases phys with
          | none => rfl
          | some phys =>
              change putBytes g (v + 1) (rest ++ back) _ = putBytes g (v + 1) rest _ >>= _
              rw [ih, List.length_cons, show v + (rest.length + 1) = v + 1 + rest.length by omega]

include pages

-- The page of the byte has a frame.
theorem locate_present {m : M} {v f : Nat} (ok : sound m) (inside : served m v) (framed : frame m (v / pageGranularity) = some f) :
    locate g v m = .ok (m, some (byteIn f v)) := by
  unfold locate
  rw [pages.physical ok inside, framed]
  rfl

-- What bringing in a page leaves: more frames, and the bytes of the pages that had one.
structure Opens (g : Paging M) (served : M → Nat → Prop) (frame : M → Nat → Option Nat) (m m' : M) : Prop where
  framed : ∀ {P f}, frame m P = some f → frame m' P = some f
  bytes : ∀ {v b}, userByte g frame m v = some b → userByte g frame m' v = some b
  served : served m' = served m

theorem locate_spec {m : M} {v first last : Nat} (ok : sound m) (inside : served m v) (low : first ≤ v / pageGranularity)
    (high : v / pageGranularity ≤ last) (affords : Affords frame spare first last m) :
    ∃ m' f, locate g v m = .ok (m', some (byteIn f v)) ∧ sound m' ∧ frame m' (v / pageGranularity) = some f ∧
      Opens g served frame m m' ∧ Affords frame spare first last m' := by
  cases framed : frame m (v / pageGranularity) with
  | some f => exact ⟨m, f, locate_present pages ok inside framed, ok, framed, ⟨id, id, rfl⟩, affords⟩
  | none =>
      unfold Affords at affords
      have here : v / pageGranularity ∈ (Finset.Icc first last).filter fun P => frame m P = none :=
        Finset.mem_filter.mpr ⟨Finset.mem_Icc.mpr ⟨low, high⟩, framed⟩
      have spared : 0 < spare m := Nat.lt_of_lt_of_le (Finset.card_pos.mpr ⟨_, here⟩) affords
      obtain ⟨m', f, fixed, ok', frames, servedSame, cost, kept⟩ := pages.fix ok inside framed spared
      have own : frame m' (v / pageGranularity) = some f := by rw [frames, Function.update_self]
      have inside' : served m' v := servedSame ▸ inside
      have keeps : ∀ {P f'}, frame m P = some f' → frame m' P = some f' := by
        intro P f' before
        have other : P ≠ v / pageGranularity := by
          rintro rfl
          rw [framed] at before
          cases before
        rw [frames, Function.update_of_ne other, before]
      refine ⟨m', f, ?_, ok', own, ⟨keeps, ?_, servedSame⟩, ?_⟩
      · unfold locate
        rw [pages.physical ok inside, framed]
        change (g.fixPage m v >>= _) = _
        rw [fixed, bind_ok]
        change (g.physical m' v >>= _) = _
        rw [pages.physical ok' inside', own]
        rfl
      · intro w b seen
        obtain ⟨f', before, read⟩ := Option.map_eq_some_iff.mp seen
        unfold userByte
        rw [keeps before, Option.map_some, Option.some.injEq, ← read]
        exact kept _ f' _ before (Nat.mod_lt _ (by decide))
      · have count := claimed_one_fewer (Finset.mem_Icc.mpr ⟨low, high⟩) framed frames
        unfold Affords
        omega

-- A store to one byte of a page, seen by the program.
theorem set_byte {m : M} {v f : Nat} (ok : sound m) (framed : frame m (v / pageGranularity) = some f) (b : UInt8) (w : Nat) :
    userByte g frame (g.setMemory m (copyIn (g.memory m) (byteIn f v) [b])) w =
      if w = v then some b else userByte g frame m w := by
  obtain ⟨_, frames, _, _⟩ := pages.set (copyIn (g.memory m) (byteIn f v) [b]) ok
  unfold userByte
  rw [frames, pages.memory_set]
  by_cases same : w = v
  · rw [if_pos same, same, framed, Option.map_some]
    simp [copyIn]
  · rw [if_neg same]
    cases other : frame m (w / pageGranularity) with
    | none => rfl
    | some f' =>
        have apart : byteIn f' w ≠ byteIn f v := by
          intro clash
          obtain ⟨rfl, offsets⟩ := byte_in_inj clash
          have page := pages.injective ok other framed
          unfold pageGranularity at page offsets
          omega
        rw [Option.map_some, Option.map_some]
        unfold copyIn
        rw [if_neg]
        rintro ⟨low, high⟩
        rw [List.length_singleton] at high
        omega

structure Put (g : Paging M) (served : M → Nat → Prop) (frame : M → Nat → Option Nat) (v : Nat) (bytes : List UInt8)
    (m m' : M) : Prop where
  framed : ∀ {P f}, frame m P = some f → frame m' P = some f
  backed : ∀ k < bytes.length, ∃ f, frame m' ((v + k) / pageGranularity) = some f
  here : ∀ k, (inside : k < bytes.length) → userByte g frame m' (v + k) = some bytes[k]
  elsewhere : ∀ {w b}, ¬ (v ≤ w ∧ w < v + bytes.length) → userByte g frame m w = some b → userByte g frame m' w = some b
  served : served m' = served m

theorem put_bytes_spec {v first last : Nat} (bytes : List UInt8) {m : M} (ok : sound m)
    (inside : ∀ k < bytes.length, served m (v + k)) (low : first ≤ v / pageGranularity)
    (high : ∀ k < bytes.length, (v + k) / pageGranularity ≤ last) (affords : Affords frame spare first last m) :
    ∃ m', putBytes g v bytes m = .ok m' ∧ sound m' ∧ Put g served frame v bytes m m' ∧ Affords frame spare first last m' := by
  induction bytes generalizing v m with
  | nil =>
      exact ⟨m, rfl, ok, ⟨id, fun k short => absurd short (Nat.not_lt_zero _), fun k short => absurd short (Nat.not_lt_zero _),
        fun _ seen => seen, rfl⟩, affords⟩
  | cons b rest ih =>
      have own : served m v := inside 0 (Nat.succ_pos _)
      have below : v / pageGranularity ≤ last := high 0 (Nat.succ_pos _)
      obtain ⟨u, f, located, okU, framedU, opens, affordsU⟩ := locate_spec pages ok own low below affords
      obtain ⟨okW, framesW, servedW, spareW⟩ := pages.set (copyIn (g.memory u) (byteIn f v) [b]) okU
      have stored := set_byte pages okU framedU b
      obtain ⟨w, setEq⟩ : ∃ w, w = g.setMemory u (copyIn (g.memory u) (byteIn f v) [b]) := ⟨_, rfl⟩
      rw [← setEq] at okW framesW servedW spareW stored
      have servedSame : served w = served m := servedW.trans opens.served
      have affordsW : Affords frame spare first last w := by
        unfold Affords at affordsU ⊢
        rw [framesW, spareW]
        exact affordsU
      have insideW : ∀ k < rest.length, served w (v + 1 + k) := by
        intro k short
        rw [servedSame, show v + 1 + k = v + (k + 1) by omega]
        exact inside (k + 1) (Nat.succ_lt_succ short)
      have highW : ∀ k < rest.length, (v + 1 + k) / pageGranularity ≤ last := by
        intro k short
        rw [show v + 1 + k = v + (k + 1) by omega]
        exact high (k + 1) (Nat.succ_lt_succ short)
      have lowW : first ≤ (v + 1) / pageGranularity := Nat.le_trans low (Nat.div_le_div_right (Nat.le_succ v))
      obtain ⟨m', run, ok', put, affords'⟩ := ih okW insideW lowW highW affordsW
      have keptFrames : ∀ {P f}, frame m P = some f → frame m' P = some f := fun before =>
        put.framed (framesW ▸ opens.framed before)
      refine ⟨m', ?_, ok', ⟨keptFrames, ?_, ?_, ?_, put.served.trans servedSame⟩, affords'⟩
      · rw [putBytes, located, bind_ok]
        change putBytes g (v + 1) rest (g.setMemory u (copyIn (g.memory u) (byteIn f v) [b])) = .ok m'
        rw [← setEq, run]
      · intro k short
        cases k with
        | zero => exact ⟨f, put.framed (framesW ▸ framedU)⟩
        | succ k =>
            obtain ⟨f', backed⟩ := put.backed k (Nat.lt_of_succ_lt_succ short)
            exact ⟨f', by rw [show v + (k + 1) = v + 1 + k by omega]; exact backed⟩
      · intro k short
        cases k with
        | zero => exact put.elsewhere (by omega) (by rw [stored, if_pos (Nat.add_zero v)]; rfl)
        | succ k =>
            have later := put.here k (Nat.lt_of_succ_lt_succ short)
            rw [show v + (k + 1) = v + 1 + k by omega, later]
            rfl
      · intro x c outside seen
        rw [List.length_cons] at outside
        refine put.elsewhere (by omega) ?_
        rw [stored, if_neg (by omega)]
        exact opens.bytes seen

omit pages in
theorem copy_in_single (memory : Nat → UInt8) (dest : Nat) (b : UInt8) (rest : List UInt8) :
    copyIn (copyIn memory dest [b]) (dest + 1) rest = copyIn memory dest (b :: rest) := by
  funext a
  unfold copyIn
  rw [List.length_singleton, List.length_cons]
  by_cases first : a = dest
  · subst first
    simp
  · by_cases inside : dest + 1 ≤ a ∧ a < dest + 1 + rest.length
    · rw [if_pos inside, if_pos (by omega), show a - dest = a - (dest + 1) + 1 by omega, List.getD_cons_succ]
    · rw [if_neg inside, if_neg (by omega), if_neg (by omega)]

-- Within a page that has a frame, byte after byte is one mem_copy.
theorem put_bytes_piece {v f : Nat} (bytes : List UInt8) {m : M} (ok : sound m) (inside : ∀ k < bytes.length, served m (v + k))
    (framed : frame m (v / pageGranularity) = some f) (onPage : v % pageGranularity + bytes.length ≤ pageGranularity) :
    putBytes g v bytes m = .ok (g.setMemory m (copyIn (g.memory m) (byteIn f v) bytes)) := by
  induction bytes generalizing v m with
  | nil =>
      have nothing : copyIn (g.memory m) (byteIn f v) [] = g.memory m := by
        funext a
        unfold copyIn
        rw [if_neg]
        rintro ⟨low, high⟩
        rw [List.length_nil] at high
        omega
      rw [nothing, pages.set_memory]
      rfl
  | cons b rest ih =>
      obtain ⟨okW, framesW, servedW, _⟩ := pages.set (copyIn (g.memory m) (byteIn f v) [b]) ok
      have own : served m v := inside 0 (Nat.succ_pos _)
      rw [putBytes, locate_present pages ok own framed, bind_ok]
      change putBytes g (v + 1) rest (g.setMemory m (copyIn (g.memory m) (byteIn f v) [b])) = _
      cases rest with
      | nil => rfl
      | cons c rest =>
          rw [List.length_cons, List.length_cons] at onPage
          have page : (v + 1) / pageGranularity = v / pageGranularity := by
            unfold pageGranularity at onPage ⊢
            omega
          have next : byteIn f (v + 1) = byteIn f v + 1 := by
            unfold byteIn
            unfold pageGranularity at onPage ⊢
            omega
          rw [ih okW (fun k short => ?_) (by rw [framesW, page, framed]) ?_, pages.memory_set, pages.set_set, next, copy_in_single]
          · rw [List.length_cons]
            unfold pageGranularity at onPage ⊢
            omega
          · rw [servedW, show v + 1 + k = v + (k + 1) by omega]
            exact inside (k + 1) (Nat.succ_lt_succ short)

-- vm_copy_to, page by page, is the copy byte by byte.
theorem copy_to_loop_spec {dest count first last : Nat} (fits : dest + count < 2 ^ 64) (fuel : Nat) {i : Nat} (src : List UInt8) {m m' : M}
    (enough : count ≤ i + fuel) (rest : i + src.length = count) (ok : sound m) (inside : ∀ k < src.length, served m (dest + i + k))
    (low : first ≤ (dest + i) / pageGranularity) (high : ∀ k < src.length, (dest + i + k) / pageGranularity ≤ last)
    (affords : Affords frame spare first last m) (run : putBytes g (dest + i) src m = .ok m') :
    copyToLoop g dest count fuel i src m = .ok (m', count) := by
  induction fuel generalizing i src m with
  | zero =>
      have done : ¬ i < count := by omega
      obtain rfl : src = [] := List.eq_nil_of_length_eq_zero (by omega)
      rw [putBytes, Except.ok.injEq] at run
      rw [copyToLoop, if_neg done, run, show i = count by omega]
  | succ fuel ih =>
      rw [copyToLoop]
      by_cases more : i < count
      · rw [if_pos more, add64_eq (show dest + i < 2 ^ 64 by omega)]
        have own : served m (dest + i) := inside 0 (by omega)
        have below : (dest + i) / pageGranularity ≤ last := high 0 (by omega)
        obtain ⟨u, f, located, okU, framedU, opens, affordsU⟩ := locate_spec pages ok own low below affords
        rw [located, bind_ok]
        dsimp only
        obtain ⟨len, lenEq⟩ : ∃ len, len = pieceLength dest count i := ⟨_, rfl⟩
        have lenIs : len = min (count - i) (pageGranularity - (dest + i) % pageGranularity) := by
          rw [lenEq, pieceLength, add64_eq (show dest + i < 2 ^ 64 by omega)]
        have offset : (dest + i) % pageGranularity < pageGranularity := Nat.mod_lt _ (by decide)
        have taken : (src.take len).length = len := by
          rw [List.length_take]
          omega
        have insideU : ∀ k < (src.take len).length, served u (dest + i + k) := fun k short => by
          rw [opens.served]
          exact inside k (by omega)
        have piece := put_bytes_piece pages (src.take len) okU insideU framedU (by omega)
        -- The first byte of the piece finds the page where locate has put it.
        have same : putBytes g (dest + i) src m = putBytes g (dest + i) src u := by
          cases src with
          | nil => exact absurd rest (by rw [List.length_nil]; omega)
          | cons b tail =>
              rw [putBytes, putBytes, located, locate_present pages okU (opens.served ▸ own) framedU]
        rw [same, ← List.take_append_drop len src, put_bytes_append, piece, bind_ok, taken] at run
        obtain ⟨okW, framesW, servedW, spareW⟩ := pages.set (copyIn (g.memory u) (byteIn f (dest + i)) (src.take len)) okU
        rw [← lenEq]
        have dropped : (src.drop len).length = src.length - len := List.length_drop
        refine ih (src.drop len) (by omega) (by omega) okW (fun k short => ?_) ?_ (fun k short => ?_) ?_ ?_
        · rw [servedW, opens.served, show dest + (i + len) + k = dest + i + (len + k) by omega]
          exact inside (len + k) (by omega)
        · exact Nat.le_trans low (Nat.div_le_div_right (by omega))
        · rw [show dest + (i + len) + k = dest + i + (len + k) by omega]
          exact high (len + k) (by omega)
        · unfold Affords at affordsU ⊢
          rw [framesW, spareW]
          exact affordsU
        · rw [show dest + (i + len) = dest + i + len by omega]
          exact run
      · obtain rfl : src = [] := List.eq_nil_of_length_eq_zero (by omega)
        rw [putBytes, Except.ok.injEq] at run
        rw [if_neg more, run, show i = count by omega]

theorem vm_copy_to_spec {dest first last : Nat} (src : List UInt8) {m : M} (ok : sound m)
    (fits : dest + src.length < 2 ^ 64) (inside : ∀ k < src.length, served m (dest + k)) (low : first ≤ dest / pageGranularity)
    (high : ∀ k < src.length, (dest + k) / pageGranularity ≤ last) (affords : Affords frame spare first last m) :
    ∃ m', vmCopyTo g dest src src.length m = .ok (m', src.length) ∧ putBytes g dest src m = .ok m' ∧ sound m' ∧
      Put g served frame dest src m m' ∧ Affords frame spare first last m' := by
  obtain ⟨m', run, ok', put, affords'⟩ := put_bytes_spec pages src ok inside low high affords
  refine ⟨m', ?_, run, ok', put, affords'⟩
  have loop : copyToLoop g dest src.length src.length 0 src m = .ok (m', src.length) :=
    copy_to_loop_spec pages fits src.length src (Nat.le_add_left _ _) (Nat.zero_add _) ok inside low high affords run
  unfold vmCopyTo
  by_cases empty : src.length = 0
  · obtain rfl := List.eq_nil_of_length_eq_zero empty
    -- No bytes: whatever the check on memory says, nothing is copied.
    rcases memory_exists_returns (pages.tidy ok) dest 0 with there | missing
    · rw [List.length_nil, there]
      exact loop
    · rw [List.length_nil, missing, ← Except.ok.inj run]
      rfl
  · have covered : ∀ a, dest ≤ a → a < dest + src.length → served m a := fun a from_ below => by
      rw [show a = dest + (a - dest) by omega]
      exact inside (a - dest) (by omega)
    rw [pages.present ok (Nat.pos_of_ne_zero empty) fits covered]
    exact loop

omit pages in
theorem copy_out_bytes {m : M} {v f : Nat} (framed : frame m (v / pageGranularity) = some f) (bytes : List UInt8)
    (seen : ∀ k, (inside : k < bytes.length) → userByte g frame m (v + k) = some bytes[k])
    (onPage : v % pageGranularity + bytes.length ≤ pageGranularity) :
    copyOut (g.memory m) (byteIn f v) bytes.length = bytes := by
  refine List.ext_getElem (by rw [copyOut, List.length_map, List.length_range]) fun k _ short => ?_
  have read := seen k short
  have page : (v + k) / pageGranularity = v / pageGranularity := by
    unfold pageGranularity at onPage ⊢
    omega
  have address : byteIn f (v + k) = byteIn f v + k := by
    unfold byteIn
    unfold pageGranularity at onPage ⊢
    omega
  unfold userByte at read
  rw [page, framed, Option.map_some, Option.some.injEq, address] at read
  simp only [copyOut, List.getElem_map, List.getElem_range]
  exact read

theorem copy_from_loop_spec {source count : Nat} (fits : source + count < 2 ^ 64) (fuel : Nat) {i : Nat} (bytes dest : List UInt8) {m : M}
    (enough : count ≤ i + fuel) (rest : i + bytes.length = count) (ok : sound m) (inside : ∀ k < bytes.length, served m (source + i + k))
    (seen : ∀ k, (short : k < bytes.length) → userByte g frame m (source + i + k) = some bytes[k]) :
    copyFromLoop g source count fuel i dest m = .ok (m, dest ++ bytes, count) := by
  induction fuel generalizing i bytes dest with
  | zero =>
      have done : ¬ i < count := by omega
      obtain rfl : bytes = [] := List.eq_nil_of_length_eq_zero (by omega)
      rw [copyFromLoop, if_neg done, List.append_nil, show i = count by omega]
  | succ fuel ih =>
      rw [copyFromLoop]
      by_cases more : i < count
      · rw [if_pos more, add64_eq (show source + i < 2 ^ 64 by omega)]
        have own : served m (source + i) := inside 0 (by omega)
        have first : userByte g frame m (source + i) = some bytes[0] := seen 0 (by omega)
        obtain ⟨f, framed, _⟩ := Option.map_eq_some_iff.mp first
        rw [locate_present pages ok own framed, bind_ok]
        dsimp only
        obtain ⟨len, lenEq⟩ : ∃ len, len = pieceLength source count i := ⟨_, rfl⟩
        have lenIs : len = min (count - i) (pageGranularity - (source + i) % pageGranularity) := by
          rw [lenEq, pieceLength, add64_eq (show source + i < 2 ^ 64 by omega)]
        have offset : (source + i) % pageGranularity < pageGranularity := Nat.mod_lt _ (by decide)
        have taken : (bytes.take len).length = len := by
          rw [List.length_take]
          omega
        have piece := copy_out_bytes framed (bytes.take len) (fun k short => by
          rw [seen k (by omega), List.getElem_take]) (by omega)
        rw [taken] at piece
        have dropped : (bytes.drop len).length = bytes.length - len := List.length_drop
        rw [← lenEq, piece, ih (bytes.drop len) _ (by omega) (by omega) (fun k short => ?_) (fun k short => ?_), List.append_assoc,
          List.take_append_drop]
        · rw [show source + (i + len) + k = source + i + (len + k) by omega]
          exact inside (len + k) (by omega)
        · rw [show source + (i + len) + k = source + i + (len + k) by omega, seen (len + k) (by omega), List.getElem_drop]
      · obtain rfl : bytes = [] := List.eq_nil_of_length_eq_zero (by omega)
        rw [if_neg more, List.append_nil, show i = count by omega]

-- Where the bytes are there, vm_copy_from reads them and changes nothing.
theorem vm_copy_from_spec {source : Nat} (bytes : List UInt8) {m : M} (ok : sound m)
    (fits : source + bytes.length < 2 ^ 64) (inside : ∀ k < bytes.length, served m (source + k))
    (seen : ∀ k, (short : k < bytes.length) → userByte g frame m (source + k) = some bytes[k]) :
    vmCopyFrom g source bytes.length m = .ok (m, bytes, bytes.length) := by
  have loop : copyFromLoop g source bytes.length bytes.length 0 [] m = .ok (m, bytes, bytes.length) :=
    copy_from_loop_spec pages fits bytes.length bytes [] (Nat.le_add_left _ _) (Nat.zero_add _) ok inside seen
  unfold vmCopyFrom
  by_cases empty : bytes.length = 0
  · obtain rfl := List.eq_nil_of_length_eq_zero empty
    rcases memory_exists_returns (pages.tidy ok) source 0 with there | missing
    · rw [List.length_nil, there]
      exact loop
    · rw [List.length_nil, missing]
      rfl
  · have covered : ∀ a, source ≤ a → a < source + bytes.length → served m a := fun a from_ below => by
      rw [show a = source + (a - source) by omega]
      exact inside (a - source) (by omega)
    rw [pages.present ok (Nat.pos_of_ne_zero empty) fits covered]
    exact loop

-- One copy after the other.
def copyAll (g : Paging M) : List (Nat × List UInt8) → M → Except Fault M
  | [], m => .ok m
  | (dest, src) :: rest, m => vmCopyTo g dest src src.length m >>= fun result => copyAll g rest result.1

-- The pieces of a buffer, at the addresses they have in a copy of the whole.
def consecutive : Nat → List (List UInt8) → List (Nat × List UInt8)
  | _, [] => []
  | dest, src :: rest => (dest, src) :: consecutive (dest + src.length) rest

theorem copy_consecutive {dest first last : Nat} (pieces : List (List UInt8)) {m m' : M} (ok : sound m)
    (fits : dest + pieces.flatten.length < 2 ^ 64) (inside : ∀ k < pieces.flatten.length, served m (dest + k))
    (low : first ≤ dest / pageGranularity) (high : ∀ k < pieces.flatten.length, (dest + k) / pageGranularity ≤ last)
    (affords : Affords frame spare first last m) (run : putBytes g dest pieces.flatten m = .ok m') :
    copyAll g (consecutive dest pieces) m = .ok m' := by
  induction pieces generalizing dest m with
  | nil => exact run
  | cons src rest ih =>
      rw [List.flatten_cons, List.length_append] at fits inside high
      rw [List.flatten_cons, put_bytes_append, bind_eq_ok] at run
      obtain ⟨u, head, tail⟩ := run
      obtain ⟨u', copied, head', okU, put, affordsU⟩ := vm_copy_to_spec pages src ok (by omega) (fun k short => inside k (by omega)) low
        (fun k short => high k (by omega)) affords
      obtain rfl : u = u' := Except.ok.inj (head.symm.trans head')
      rw [consecutive, copyAll, copied, bind_ok]
      refine ih okU (by omega) (fun k short => ?_) (Nat.le_trans low (Nat.div_le_div_right (Nat.le_add_right _ _))) (fun k short => ?_)
        affordsU tail
      · rw [put.served, Nat.add_assoc]
        exact inside _ (by omega)
      · rw [Nat.add_assoc]
        exact high _ (by omega)

-- A piece of a buffer that goes to dest, with the bytes the buffer has there.
def PieceOf (dest : Nat) (src : List UInt8) (piece : Nat × List UInt8) : Prop :=
  dest ≤ piece.1 ∧ piece.1 + piece.2.length ≤ dest + src.length ∧ ∀ k < piece.2.length, piece.2[k]? = src[piece.1 - dest + k]?

-- Pieces in any order, which may overlap: where one of them lies the buffer is there in the end,
-- and where it was there before it stays.
theorem copy_all_spec {dest first last : Nat} (src : List UInt8) (pieces : List (Nat × List UInt8)) {m : M} (ok : sound m)
    (fits : dest + src.length < 2 ^ 64) (inside : ∀ k < src.length, served m (dest + k)) (low : first ≤ dest / pageGranularity)
    (high : ∀ k < src.length, (dest + k) / pageGranularity ≤ last) (affords : Affords frame spare first last m)
    (parts : ∀ piece ∈ pieces, PieceOf dest src piece) :
    ∃ m', copyAll g pieces m = .ok m' ∧ sound m' ∧
      (∀ k, (short : k < src.length) → (userByte g frame m (dest + k) = some src[k] ∨
        ∃ piece ∈ pieces, piece.1 ≤ dest + k ∧ dest + k < piece.1 + piece.2.length) → userByte g frame m' (dest + k) = some src[k]) ∧
      ∀ {w b}, ¬ (dest ≤ w ∧ w < dest + src.length) → userByte g frame m w = some b → userByte g frame m' w = some b := by
  induction pieces generalizing m with
  | nil =>
      refine ⟨m, rfl, ok, fun k short written => written.resolve_right ?_, fun _ seen => seen⟩
      rintro ⟨piece, member, _⟩
      cases member
  | cons piece rest ih =>
      obtain ⟨d, part⟩ := piece
      obtain ⟨start, stop, same⟩ := parts (d, part) List.mem_cons_self
      dsimp only at start stop same
      have address : ∀ k, d + k = dest + (d - dest + k) := fun k => by omega
      obtain ⟨u, copied, _, okU, put, affordsU⟩ := vm_copy_to_spec pages part ok (by omega)
        (fun k short => by rw [address]; exact inside _ (by omega)) (Nat.le_trans low (Nat.div_le_div_right start))
        (fun k short => by rw [address]; exact high _ (by omega)) affords
      obtain ⟨m', run, ok', here, elsewhere⟩ := ih okU (fun k short => by rw [put.served]; exact inside k short) affordsU
        fun other member => parts other (List.mem_cons_of_mem _ member)
      refine ⟨m', by rw [copyAll, copied, bind_ok, run], ok', fun k short written => here k short ?_, fun outside seen => ?_⟩
      · by_cases onPiece : d ≤ dest + k ∧ dest + k < d + part.length
        · have index : dest + k - d < part.length := by omega
          have byte := put.here (dest + k - d) index
          have agrees := same (dest + k - d) index
          rw [show d - dest + (dest + k - d) = k by omega, List.getElem?_eq_getElem index, List.getElem?_eq_getElem short,
            Option.some.injEq] at agrees
          rw [show d + (dest + k - d) = dest + k by omega, agrees] at byte
          exact .inl byte
        · rcases written with before | ⟨other, member, covers⟩
          · exact .inl (put.elsewhere onPiece before)
          · rcases List.mem_cons.mp member with rfl | later
            · exact absurd covers onPiece
            · exact .inr ⟨other, later, covers⟩
      · exact elsewhere outside (put.elsewhere (by omega) seen)

-- Finding a byte changes nothing, or brings in its page.
theorem locate_steps {m m' : M} {v phys : Nat} (ok : sound m) (inside : served m v) (run : locate g v m = .ok (m', some phys)) :
    (m' = m ∧ ∃ f, frame m (v / pageGranularity) = some f ∧ phys = byteIn f v) ∨
      (frame m (v / pageGranularity) = none ∧ g.fixPage m v = .ok (some m') ∧ g.physical m' v = .ok (some phys)) := by
  cases framed : frame m (v / pageGranularity) with
  | some f =>
      rw [locate_present pages ok inside framed] at run
      obtain ⟨rfl, found⟩ := Prod.mk.inj (Except.ok.inj run)
      exact .inl ⟨rfl, f, rfl, (Option.some.inj found).symm⟩
  | none =>
      unfold locate at run
      rw [pages.physical ok inside, framed, Option.map_none, bind_ok] at run
      dsimp only at run
      rw [bind_eq_ok] at run
      obtain ⟨result, fixed, run⟩ := run
      cases result with
      | none =>
          have clash := (Prod.mk.inj (Except.ok.inj run)).2
          cases clash
      | some next =>
          dsimp only at run
          rw [bind_eq_ok] at run
          obtain ⟨again, found, run⟩ := run
          cases again with
          | none => cases run
          | some at_ =>
              obtain ⟨rfl, same⟩ := Prod.mk.inj (Except.ok.inj run)
              exact .inr ⟨rfl, fixed, same ▸ found⟩

-- What is to be read at an address, whether its page is there or not.
structure Shows (g : Paging M) (sound : M → Prop) (served : M → Nat → Prop) (frame : M → Nat → Option Nat) (shown : M → Nat → UInt8 → Prop) :
    Prop where
  here : ∀ {m v b f}, sound m → shown m v b → frame m (v / pageGranularity) = some f → g.memory m (byteIn f v) = b
  kept : ∀ {m m' v w b}, sound m → served m v → frame m (v / pageGranularity) = none → g.fixPage m v = .ok (some m') →
    shown m w b → shown m' w b

theorem copy_from_loop_shown {shown : M → Nat → UInt8 → Prop} (shows_ : Shows g sound served frame shown) {source count first last : Nat}
    (fits : source + count < 2 ^ 64) (fuel : Nat) {i : Nat} (bytes dest : List UInt8) {m : M} (enough : count ≤ i + fuel)
    (rest : i + bytes.length = count) (ok : sound m) (inside : ∀ k < bytes.length, served m (source + i + k))
    (low : first ≤ (source + i) / pageGranularity) (high : ∀ k < bytes.length, (source + i + k) / pageGranularity ≤ last)
    (affords : Affords frame spare first last m) (seen : ∀ k, (short : k < bytes.length) → shown m (source + i + k) bytes[k]) :
    ∃ m', copyFromLoop g source count fuel i dest m = .ok (m', dest ++ bytes, count) := by
  induction fuel generalizing i bytes dest m with
  | zero =>
      have done : ¬ i < count := by omega
      obtain rfl : bytes = [] := List.eq_nil_of_length_eq_zero (by omega)
      exact ⟨m, by rw [copyFromLoop, if_neg done, List.append_nil, show i = count by omega]⟩
  | succ fuel ih =>
      rw [copyFromLoop]
      by_cases more : i < count
      · rw [if_pos more, add64_eq (show source + i < 2 ^ 64 by omega)]
        have own : served m (source + i) := inside 0 (by omega)
        obtain ⟨u, f, located, okU, framedU, opens, affordsU⟩ := locate_spec pages ok own low (high 0 (by omega)) affords
        have seenU : ∀ k, (short : k < bytes.length) → shown u (source + i + k) bytes[k] := by
          intro k short
          rcases locate_steps pages ok own located with ⟨rfl, _⟩ | ⟨absent, fixed, _⟩
          · exact seen k short
          · exact shows_.kept ok own absent fixed (seen k short)
        rw [located, bind_ok]
        dsimp only
        obtain ⟨len, lenEq⟩ : ∃ len, len = pieceLength source count i := ⟨_, rfl⟩
        have lenIs : len = min (count - i) (pageGranularity - (source + i) % pageGranularity) := by
          rw [lenEq, pieceLength, add64_eq (show source + i < 2 ^ 64 by omega)]
        have offset : (source + i) % pageGranularity < pageGranularity := Nat.mod_lt _ (by decide)
        have taken : (bytes.take len).length = len := by
          rw [List.length_take]
          omega
        have piece := copy_out_bytes (g := g) framedU (bytes.take len) (fun k short => by
          have page : (source + i + k) / pageGranularity = (source + i) / pageGranularity := by
            unfold pageGranularity at lenIs ⊢
            omega
          unfold userByte
          rw [page, framedU, Option.map_some, List.getElem_take, shows_.here okU (seenU k (by omega)) (page ▸ framedU)]) (by omega)
        rw [taken] at piece
        have dropped : (bytes.drop len).length = bytes.length - len := List.length_drop
        rw [← lenEq, piece]
        obtain ⟨m', run⟩ := ih (bytes.drop len) (dest ++ bytes.take len) (i := i + len) (m := u) (by omega) (by omega) okU
          (fun k short => by
            rw [opens.served, show source + (i + len) + k = source + i + (len + k) by omega]
            exact inside (len + k) (by omega))
          (Nat.le_trans low (Nat.div_le_div_right (by omega)))
          (fun k short => by
            rw [show source + (i + len) + k = source + i + (len + k) by omega]
            exact high (len + k) (by omega)) affordsU
          fun k short => by
            rw [show source + (i + len) + k = source + i + (len + k) by omega, List.getElem_drop]
            exact seenU (len + k) (by omega)
        exact ⟨m', by rw [run, List.append_assoc, List.take_append_drop]⟩
      · obtain rfl : bytes = [] := List.eq_nil_of_length_eq_zero (by omega)
        exact ⟨m, by rw [if_neg more, List.append_nil, show i = count by omega]⟩

-- vm_copy_from where pages may have to be brought in.
theorem vm_copy_from_shown {shown : M → Nat → UInt8 → Prop} (shows_ : Shows g sound served frame shown) {source first last : Nat}
    (bytes : List UInt8) {m : M} (ok : sound m) (fits : source + bytes.length < 2 ^ 64) (inside : ∀ k < bytes.length, served m (source + k))
    (low : first ≤ source / pageGranularity) (high : ∀ k < bytes.length, (source + k) / pageGranularity ≤ last)
    (affords : Affords frame spare first last m) (seen : ∀ k, (short : k < bytes.length) → shown m (source + k) bytes[k]) :
    ∃ m', vmCopyFrom g source bytes.length m = .ok (m', bytes, bytes.length) := by
  obtain ⟨m', loop⟩ := copy_from_loop_shown pages shows_ fits bytes.length bytes [] (i := 0) (Nat.le_add_left _ _) (Nat.zero_add _) ok inside low
    high affords seen
  unfold vmCopyFrom
  by_cases empty : bytes.length = 0
  · obtain rfl := List.eq_nil_of_length_eq_zero empty
    rcases memory_exists_returns (pages.tidy ok) source 0 with there | missing
    · rw [List.length_nil, there]
      exact ⟨m', loop⟩
    · rw [List.length_nil, missing]
      exact ⟨m, rfl⟩
  · have covered : ∀ a, source ≤ a → a < source + bytes.length → served m a := fun a from_ below => by
      rw [show a = source + (a - source) by omega]
      exact inside (a - source) (by omega)
    rw [pages.present ok (Nat.pos_of_ne_zero empty) fits covered]
    exact ⟨m', loop⟩

-- Pages that are set aside: besides a frame for each of these, as many as are kept for something else.
theorem pages_reserve (U : Finset Nat) (kept : Nat) :
    Pages g (fun m => sound m ∧ kept + (U.filter fun P => frame m P = none).card ≤ spare m) (fun m v => served m v ∧ v / pageGranularity ∈ U)
      frame spare := by
  refine ⟨fun ok inside => pages.physical ok.1 inside.1, fun ok first second => pages.injective ok.1 first second, ?_, ?_, pages.memory_set,
    pages.set_set, pages.set_memory, fun ok => pages.tidy ok.1, fun ok positive fits covered => pages.present ok.1 positive fits
      fun a low high => (covered a low high).1⟩
  · intro m v ok inside absent spared
    obtain ⟨m', f, fixed, ok', frames, servedSame, cost, memory⟩ := pages.fix ok.1 inside.1 absent spared
    refine ⟨m', f, fixed, ⟨ok', ?_⟩, frames, by rw [servedSame], cost, memory⟩
    have count := claimed_one_fewer inside.2 absent frames
    have before := ok.2
    omega
  · intro m memory ok
    obtain ⟨okW, frames, servedW, spareW⟩ := pages.set memory ok.1
    refine ⟨⟨okW, ?_⟩, frames, by rw [servedW], spareW⟩
    rw [frames, spareW]
    exact ok.2

end Bytes

end Elysium.Vm
