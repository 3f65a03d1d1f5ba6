import Elysium.UserCopy

set_option autoImplicit false

namespace Elysium.UserSpace

open Vm (PtmCall SpaceId Region Protection Cache Privilege AddressSpace Paging userspaceStart userspaceEnd byteIn)
open Ptm (frameAt Small)

-- A page gets the frame it has, or the next one of the allocator.
def claimPage (flags : Nat) (held : Pmm.State × (Nat → Option Nat)) (page : Nat) : Except Fault (Pmm.State × (Nat → Option Nat)) :=
  if held.2 page = none then do
    let (pmm, frame) ← Pmm.pmmAllocPage flags held.1
    .ok (pmm, Function.update held.2 page (some frame))
  else .ok held

def claimPages (flags : Nat) (pages : List Nat) (held : Pmm.State × (Nat → Option Nat)) :
    Except Fault (Pmm.State × (Nat → Option Nat)) := pages.foldlM (claimPage flags) held

-- Bytes that were stored, with their addresses, latest first.
abbrev Log := List (Nat × UInt8)

def Log.pages (log : Log) : List Nat := (log.map fun entry => entry.1 / pageGranularity).reverse

-- The bytes of a buffer that is stored at an address.
def logOf : Nat → List UInt8 → Log
  | _, [] => []
  | dest, byte :: rest => logOf (dest + 1) rest ++ [(dest, byte)]

-- An address whose page is brought in on demand.
def Lazy (id flags : Nat) (m : Machine) (v : Nat) : Prop :=
  ∃ r ∈ (m.vm.space (.process id)).regions, r.Covers v ∧ r.dynamicallyBacked = true ∧ Vm.pageFlags r = flags

-- A page that anonymous memory is mapped at, to be brought in when it is touched.
theorem lazy_of_maps {id a : Nat} {m : Machine} {v : Vm.Attributes} {zeroed : Bool}
    (maps : Vm.Maps (m.vm.space (.process id)).regions a v) (dynamic : v.dynamicallyBacked = true) (backing : v.backing = .anon zeroed) :
    Lazy id (if zeroed then Pmm.flagZero else 0) m a := by
  obtain ⟨r, member, covers, rfl⟩ := maps
  refine ⟨r, member, covers, dynamic, ?_⟩
  change r.backing.shift (a - r.base) = .anon zeroed at backing
  unfold Vm.pageFlags
  cases shape : r.backing with
  | anon backZeroed =>
      rw [shape] at backing
      cases backing
      cases zeroed <;> rfl
  | direct physicalAddress =>
      rw [shape] at backing
      cases backing

theorem lazy_served {id flags v : Nat} {m : Machine} (there : Lazy id flags m v) : Served id m v := by
  obtain ⟨r, member, covers, _⟩ := there
  exact ⟨r, member, covers⟩

theorem lazy_congr {id flags v : Nat} {m m' : Machine} (space : m'.vm.space = m.vm.space) (there : Lazy id flags m v) : Lazy id flags m' v := by
  unfold Lazy
  rw [space]
  exact there

-- The machine after these stores: a page has got its frame from the allocator when it was first
-- needed, with what the frame held then, and above that what was stored.
structure Ledger (id top : Nat) (supply : List Nat) (flags : Nat) (m : Machine) (pages : List Nat) (log : Log) (claimed : Pmm.State)
    (m' : Machine) : Prop where
  consistent : Consistent id top supply m'
  space : m'.vm.space = m.vm.space
  cache : m'.vm.cache = m.vm.cache
  claims : claimPages flags pages (m.vm.pmm, frameAt top m.tables) = .ok (claimed, frameAt top m'.tables)
  allocator : m'.vm.pmm = { claimed with memory := m'.vm.pmm.memory }
  backed : ∀ entry ∈ log, ∃ f, frameAt top m'.tables (entry.1 / pageGranularity) = some f
  stored : ∀ a f, frameAt top m'.tables (a / pageGranularity) = some f →
    m'.vm.pmm.memory (byteIn f a) = (log.lookup a).getD (claimed.memory (byteIn f a))
  others : ∀ x, (∀ P, frameAt top m'.tables P ≠ some (x / pageGranularity)) → m'.vm.pmm.memory x = claimed.memory x

section Ledger

variable {id top flags : Nat} {supply pages : List Nat} {m u w : Machine} {log : Log} {claimed : Pmm.State}

theorem ledger_start (consistent : Consistent id top supply m) : Ledger id top supply flags m [] [] m.vm.pmm m :=
  ⟨consistent, rfl, rfl, rfl, rfl, fun _ member => absurd member List.not_mem_nil, fun _ _ _ => rfl, fun _ _ => rfl⟩

theorem byte_in_page (f a : Nat) : byteIn f a / pageGranularity = f := by
  unfold byteIn pageGranularity
  omega

theorem claim_pages_snoc (pages : List Nat) (page : Nat) (held : Pmm.State × (Nat → Option Nat)) :
    claimPages flags (pages ++ [page]) held = claimPages flags pages held >>= fun held => claimPage flags held page := by
  unfold claimPages
  rw [List.foldlM_append]
  cases pages.foldlM (claimPage flags) held with
  | error fault => rfl
  | ok held =>
      rw [bind_ok, bind_ok, List.foldlM_cons]
      cases claimPage flags held page with
      | error fault => rfl
      | ok held => rfl

-- Memory is cleared nowhere but on the page that is handed out.
theorem clear_page_other {memory : Nat → UInt8} {h x : Nat} (other : x / pageGranularity ≠ h) :
    Pmm.clearPage flags memory h x = memory x := by
  unfold Pmm.clearPage
  split
  · unfold Pmm.memClear Pmm.blockPaddr
    rw [if_neg]
    unfold pageGranularity at *
    omega
  · rfl

theorem clear_page_congr {memory memory' : Nat → UInt8} {h x : Nat} (same : memory x = memory' x) :
    Pmm.clearPage flags memory h x = Pmm.clearPage flags memory' h x := by
  unfold Pmm.clearPage
  split
  · unfold Pmm.memClear
    rw [same]
  · exact same

theorem lookup_absent {log : Log} {a : Nat} (absent : ∀ entry ∈ log, entry.1 ≠ a) : log.lookup a = none := by
  rw [List.lookup_eq_none_iff]
  intro entry member
  simpa using fun same => absent entry member same.symm

-- A page that is brought in takes the next frame.
theorem ledger_claim (ledger : Ledger id top supply flags m pages log claimed u) {v : Nat} (there : Lazy id flags m v)
    (absent : frameAt top u.tables (v / pageGranularity) = none) (fixed : fixPage id top u v = .ok (some w)) :
    ∃ claimed', Ledger id top supply flags m (pages ++ [v / pageGranularity]) log claimed' w := by
  obtain ⟨r, member, covers, dynamic, zeroing⟩ := lazy_congr ledger.space there
  rw [fix_page_eq ledger.consistent member covers dynamic, zeroing, bind_eq_ok] at fixed
  obtain ⟨⟨pmm, page⟩, allocated, fixed⟩ := fixed
  dsimp only at fixed
  rw [bind_eq_ok] at fixed
  obtain ⟨tables, mapped, fixed⟩ := fixed
  obtain rfl := Option.some.inj (Except.ok.inj fixed)
  have low := served_low ledger.consistent ⟨r, member, covers⟩
  have floor : Vm.pageFloor v ≤ v := Nat.div_mul_le_self _ _
  have onPage : Vm.pageFloor v / pageGranularity = v / pageGranularity := Nat.mul_div_cancel _ (by decide)
  obtain ⟨backing, frames, unused, _⟩ := page_backing ledger.consistent.backing allocated (Nat.lt_of_le_of_lt floor low)
    (Nat.mul_mod_left _ _) mapped
  rw [onPage] at frames
  have keeps : ∀ {P f}, frameAt top u.tables P = some f → frameAt top tables P = some f := by
    intro P f framed
    have other : P ≠ v / pageGranularity := by
      rintro rfl
      rw [absent] at framed
      cases framed
    rw [frames, Function.update_of_ne other, framed]
  -- The allocator hands out the same page whatever has been stored meanwhile.
  obtain ⟨memory, same⟩ := Pmm.alloc_page_memory allocated
  have again := same claimed.memory
  rw [show ({ u.vm.pmm with memory := claimed.memory } : Pmm.State) = claimed by rw [ledger.allocator]] at again
  refine ⟨{ pmm with memory := Pmm.clearPage flags claimed.memory page }, ?_, ledger.space, ledger.cache, ?_, rfl, ?_, ?_, ?_⟩
  · exact consistent_page ledger.consistent rfl rfl rfl backing fun P f framed => ⟨f, keeps framed⟩
  · rw [claim_pages_snoc, ledger.claims, bind_ok, claimPage, if_pos absent, again, bind_ok, frames]
  · intro entry entered
    obtain ⟨f, framed⟩ := ledger.backed entry entered
    exact ⟨f, keeps framed⟩
  · intro a f framed
    change pmm.memory (byteIn f a) = _
    rw [memory]
    change _ = (log.lookup a).getD (Pmm.clearPage flags claimed.memory page (byteIn f a))
    by_cases here : a / pageGranularity = v / pageGranularity
    · -- Nothing has been stored on this page.
      have missing : log.lookup a = none := by
        refine lookup_absent fun entry entered same => ?_
        obtain ⟨g, backed⟩ := ledger.backed entry entered
        rw [same, here, absent] at backed
        cases backed
      rw [frames, here, Function.update_self, Option.some.injEq] at framed
      rw [missing, Option.getD_none]
      refine clear_page_congr (ledger.others _ fun P before => unused P ?_)
      rw [byte_in_page] at before
      rw [before, framed]
    · rw [frames, Function.update_of_ne here] at framed
      have other : byteIn f a / pageGranularity ≠ page := by
        rw [byte_in_page]
        rintro rfl
        exact unused _ framed
      rw [clear_page_other other, clear_page_other other]
      exact ledger.stored a f framed
  · intro x outside
    change pmm.memory x = Pmm.clearPage flags claimed.memory page x
    rw [memory]
    refine clear_page_congr (ledger.others x fun P before => ?_)
    exact outside P (keeps before)

theorem ledger_present (ledger : Ledger id top supply flags m pages log claimed u) {page f : Nat} (framed : frameAt top u.tables page = some f) :
    Ledger id top supply flags m (pages ++ [page]) log claimed u := by
  obtain ⟨consistent, space, cache, claims, allocator, backed, stored, others⟩ := ledger
  refine ⟨consistent, space, cache, ?_, allocator, backed, stored, others⟩
  rw [claim_pages_snoc, claims, bind_ok, claimPage, if_neg]
  simp [framed]

theorem ledger_locate (ledger : Ledger id top supply flags m pages log claimed u) {v phys : Nat} (there : Lazy id flags m v)
    (located : Vm.locate (paging id top) v u = .ok (w, some phys)) :
    ∃ claimed' f, Ledger id top supply flags m (pages ++ [v / pageGranularity]) log claimed' w ∧
      frameAt top w.tables (v / pageGranularity) = some f ∧ phys = byteIn f v := by
  have pagesOf := paging_pages id top supply
  have served := lazy_served (lazy_congr ledger.space there)
  rcases Vm.locate_steps pagesOf ledger.consistent served located with ⟨rfl, f, framed, same⟩ | ⟨framed, fixed, again⟩
  · exact ⟨claimed, f, ledger_present ledger framed, framed, same⟩
  · obtain ⟨claimed', after⟩ := ledger_claim ledger there framed fixed
    have servedAfter := lazy_served (lazy_congr after.space there)
    rw [pagesOf.physical after.consistent servedAfter, Except.ok.injEq, Option.map_eq_some_iff] at again
    obtain ⟨f, at_, found⟩ := again
    exact ⟨claimed', f, after, at_, found.symm⟩

theorem ledger_store (ledger : Ledger id top supply flags m pages log claimed u) {v f : Nat} (framed : frameAt top u.tables (v / pageGranularity) = some f)
    (byte : UInt8) :
    Ledger id top supply flags m pages ((v, byte) :: log) claimed (setMemory u (Vm.copyIn u.vm.pmm.memory (byteIn f v) [byte])) := by
  refine ⟨set_memory_keeps ledger.consistent _, ledger.space, ledger.cache, ledger.claims, ?_, ?_, ?_, ?_⟩
  · exact congrArg (fun s : Pmm.State => { s with memory := Vm.copyIn u.vm.pmm.memory (byteIn f v) [byte] }) ledger.allocator
  · intro entry member
    rcases List.mem_cons.mp member with rfl | before
    · exact ⟨f, framed⟩
    · exact ledger.backed entry before
  · intro a f' at_
    change frameAt top u.tables (a / pageGranularity) = some f' at at_
    change Vm.copyIn u.vm.pmm.memory (byteIn f v) [byte] (byteIn f' a) = _
    by_cases same : a = v
    · subst same
      rw [framed, Option.some.injEq] at at_
      subst at_
      simp [Vm.copyIn]
    · have apart : byteIn f' a ≠ byteIn f v := by
        intro clash
        obtain ⟨rfl, offsets⟩ := Vm.byte_in_inj clash
        have page := ledger.consistent.backing.injective at_ framed
        unfold pageGranularity at page offsets
        omega
      have looked : List.lookup a ((v, byte) :: log) = log.lookup a := by
        rw [List.lookup_cons, beq_eq_false_iff_ne.mpr same]
      rw [looked, Vm.copyIn, if_neg]
      · exact ledger.stored a f' at_
      · rintro ⟨low, high⟩
        rw [List.length_singleton] at high
        omega
  · intro x outside
    change Vm.copyIn u.vm.pmm.memory (byteIn f v) [byte] x = _
    rw [Vm.copyIn, if_neg]
    · exact ledger.others x outside
    · rintro ⟨low, high⟩
      rw [List.length_singleton] at high
      refine outside (v / pageGranularity) ?_
      have same : x = byteIn f v := by omega
      rw [same, byte_in_page]
      exact framed

theorem log_pages_append (later earlier : Log) : Log.pages (later ++ earlier) = Log.pages earlier ++ Log.pages later := by
  simp [Log.pages]

theorem log_of_mem {dest : Nat} {src : List UInt8} {a : Nat} {byte : UInt8} :
    (a, byte) ∈ logOf dest src ↔ ∃ k, src[k]? = some byte ∧ a = dest + k := by
  induction src generalizing dest with
  | nil => simp [logOf]
  | cons first rest ih =>
      rw [logOf, List.mem_append, ih, List.mem_singleton, Prod.mk.injEq]
      constructor
      · rintro (⟨k, at_, rfl⟩ | ⟨rfl, rfl⟩)
        · exact ⟨k + 1, at_, by omega⟩
        · exact ⟨0, rfl, rfl⟩
      · rintro ⟨k, at_, rfl⟩
        cases k with
        | zero => exact .inr ⟨rfl, (Option.some.inj at_).symm⟩
        | succ k => exact .inl ⟨k, at_, by omega⟩

theorem log_of_pages {dest P : Nat} {src : List UInt8} (member : P ∈ (logOf dest src).pages) :
    ∃ k < src.length, P = (dest + k) / pageGranularity := by
  unfold Log.pages at member
  rw [List.mem_reverse, List.mem_map] at member
  obtain ⟨⟨a, byte⟩, entered, rfl⟩ := member
  obtain ⟨k, at_, rfl⟩ := log_of_mem.mp entered
  exact ⟨k, (List.getElem?_eq_some_iff.mp at_).1, rfl⟩

theorem ledger_bytes {v : Nat} (bytes : List UInt8) (ledger : Ledger id top supply flags m pages log claimed u)
    (there : ∀ k < bytes.length, Lazy id flags m (v + k)) (run : Vm.putBytes (paging id top) v bytes u = .ok w) :
    ∃ claimed', Ledger id top supply flags m (pages ++ (logOf v bytes).pages) (logOf v bytes ++ log) claimed' w := by
  induction bytes generalizing v u pages log claimed with
  | nil =>
      obtain rfl := Except.ok.inj run
      exact ⟨claimed, by simpa [logOf, Log.pages] using ledger⟩
  | cons byte rest ih =>
      rw [Vm.putBytes, bind_eq_ok] at run
      obtain ⟨⟨next, phys⟩, located, run⟩ := run
      cases phys with
      | none => cases run
      | some phys =>
          obtain ⟨claimed', f, after, framed, rfl⟩ := ledger_locate ledger (there 0 (Nat.succ_pos _)) located
          have stored := ledger_store after framed byte
          have later : ∀ k < rest.length, Lazy id flags m (v + 1 + k) := by
            intro k short
            rw [show v + 1 + k = v + (k + 1) by omega]
            exact there (k + 1) (Nat.succ_lt_succ short)
          obtain ⟨final, done⟩ := ih stored later run
          refine ⟨final, ?_⟩
          rw [logOf, log_pages_append, List.append_assoc]
          rw [List.append_assoc] at done
          exact done

end Ledger

-- vm_copy_to that has copied everything has stored one byte after the other.
section Copied

variable {id top : Nat} {supply : List Nat}

theorem locate_run {m m' : Machine} {v phys : Nat} (consistent : Consistent id top supply m) (served : Served id m v)
    (located : Vm.locate (paging id top) v m = .ok (m', some phys)) :
    ∃ f, Consistent id top supply m' ∧ Served id m' = Served id m ∧ frameAt top m'.tables (v / pageGranularity) = some f ∧ phys = byteIn f v := by
  obtain ⟨r, member, covers⟩ := served
  by_cases dynamic : r.dynamicallyBacked = true
  · obtain ⟨claimed, f, after, framed, at_⟩ := ledger_locate (ledger_start consistent) ⟨r, member, covers, dynamic, rfl⟩ located
    refine ⟨f, after.consistent, ?_, framed, at_⟩
    funext a
    unfold Served
    rw [after.space]
  · obtain ⟨f, framed⟩ := consistent.present v _ ⟨r, member, covers, rfl⟩ (Bool.eq_false_iff.mpr dynamic)
    rw [Vm.locate_present (paging_pages id top supply) consistent ⟨r, member, covers⟩ framed] at located
    obtain ⟨rfl, found⟩ := Prod.mk.inj (Except.ok.inj located)
    exact ⟨f, consistent, rfl, framed, (Option.some.inj found).symm⟩

theorem copy_to_loop_put {dest count : Nat} (fits : dest + count < 2 ^ 64) (fuel : Nat) {i : Nat} (src : List UInt8) {m m' : Machine}
    (rest : i + src.length = count) (consistent : Consistent id top supply m) (inside : ∀ k < src.length, Served id m (dest + i + k))
    (run : Vm.copyToLoop (paging id top) dest count fuel i src m = .ok (m', count)) :
    Vm.putBytes (paging id top) (dest + i) src m = .ok m' := by
  have pages := paging_pages id top supply
  induction fuel generalizing i src m with
  | zero =>
      rw [Vm.copyToLoop] at run
      by_cases more : i < count
      · rw [if_pos more] at run
        cases run
      · obtain rfl : src = [] := List.eq_nil_of_length_eq_zero (by omega)
        rw [if_neg more] at run
        rw [Vm.putBytes, (Prod.mk.inj (Except.ok.inj run)).1]
  | succ fuel ih =>
      rw [Vm.copyToLoop] at run
      by_cases more : i < count
      · rw [if_pos more, add64_eq (show dest + i < 2 ^ 64 by omega), bind_eq_ok] at run
        obtain ⟨⟨u, phys⟩, located, run⟩ := run
        cases phys with
        | none =>
            have short := (Prod.mk.inj (Except.ok.inj run)).2
            omega
        | some phys =>
            dsimp only at run
            have own : Served id m (dest + i) := inside 0 (by omega)
            obtain ⟨f, okU, servedU, framedU, rfl⟩ := locate_run consistent own located
            obtain ⟨len, lenEq⟩ : ∃ len, len = Vm.pieceLength dest count i := ⟨_, rfl⟩
            have lenIs : len = min (count - i) (pageGranularity - (dest + i) % pageGranularity) := by
              rw [lenEq, Vm.pieceLength, add64_eq (show dest + i < 2 ^ 64 by omega)]
            have offset : (dest + i) % pageGranularity < pageGranularity := Nat.mod_lt _ (by decide)
            have taken : (src.take len).length = len := by
              rw [List.length_take]
              omega
            have insideU : ∀ k < (src.take len).length, Served id u (dest + i + k) := fun k short => by
              rw [servedU]
              exact inside k (by omega)
            have piece := Vm.put_bytes_piece pages (src.take len) okU insideU framedU (by omega)
            -- The first byte of the piece finds the page where locate has put it.
            have same : Vm.putBytes (paging id top) (dest + i) src m = Vm.putBytes (paging id top) (dest + i) src u := by
              cases src with
              | nil => exact absurd rest (by rw [List.length_nil]; omega)
              | cons b tail =>
                  rw [Vm.putBytes, Vm.putBytes, located, Vm.locate_present pages okU (servedU ▸ own) framedU]
            obtain ⟨okW, _, servedW, _⟩ := pages.set (Vm.copyIn ((paging id top).memory u) (byteIn f (dest + i)) (src.take len)) okU
            have dropped : (src.drop len).length = src.length - len := List.length_drop
            rw [← lenEq] at run
            have insideW : ∀ k < (src.drop len).length,
                Served id ((paging id top).setMemory u (Vm.copyIn ((paging id top).memory u) (byteIn f (dest + i)) (src.take len)))
                  (dest + (i + len) + k) := fun k short => by
              rw [servedW, servedU, show dest + (i + len) + k = dest + i + (len + k) by omega]
              exact inside (len + k) (by omega)
            have later := ih (src.drop len) (by omega) okW insideW run
            rw [same, ← List.take_append_drop len src, Vm.put_bytes_append, piece, bind_ok, taken, Nat.add_assoc]
            exact later
      · obtain rfl : src = [] := List.eq_nil_of_length_eq_zero (by omega)
        rw [if_neg more] at run
        rw [Vm.putBytes, (Prod.mk.inj (Except.ok.inj run)).1]

theorem vm_copy_to_put {dest : Nat} {src : List UInt8} {m m' : Machine} (fits : dest + src.length < 2 ^ 64)
    (consistent : Consistent id top supply m) (inside : ∀ k < src.length, Served id m (dest + k))
    (run : Vm.vmCopyTo (paging id top) dest src src.length m = .ok (m', src.length)) : Vm.putBytes (paging id top) dest src m = .ok m' := by
  unfold Vm.vmCopyTo at run
  rw [bind_eq_ok] at run
  obtain ⟨there, _, run⟩ := run
  cases there with
  | true => exact copy_to_loop_put fits src.length src (Nat.zero_add _) consistent inside run
  | false =>
      obtain ⟨rfl, none⟩ := Prod.mk.inj (Except.ok.inj run)
      obtain rfl := List.eq_nil_of_length_eq_zero none.symm
      rfl

-- A copy reads no more of its source than it is told to.
theorem copy_to_loop_take {dest count : Nat} (fuel : Nat) (i : Nat) (src : List UInt8) (m : Machine) :
    Vm.copyToLoop (paging id top) dest count fuel i src m = Vm.copyToLoop (paging id top) dest count fuel i (src.take (count - i)) m := by
  induction fuel generalizing i src m with
  | zero => rfl
  | succ fuel ih =>
      rw [Vm.copyToLoop, Vm.copyToLoop]
      by_cases more : i < count
      · rw [if_pos more, if_pos more]
        have len : Vm.pieceLength dest count i ≤ count - i := Nat.min_le_left _ _
        have front : (src.take (count - i)).take (Vm.pieceLength dest count i) = src.take (Vm.pieceLength dest count i) := by
          rw [List.take_take, Nat.min_eq_left len]
        have back : ((src.take (count - i)).drop (Vm.pieceLength dest count i)) =
            (src.drop (Vm.pieceLength dest count i)).take (count - (i + Vm.pieceLength dest count i)) := by
          rw [List.drop_take, Nat.sub_sub]
        cases Vm.locate (paging id top) (add64 dest i) m with
        | error fault => rfl
        | ok result =>
            rw [bind_ok, bind_ok]
            obtain ⟨u, phys⟩ := result
            cases phys with
            | none => rfl
            | some phys =>
                dsimp only
                rw [front, back]
                exact ih _ _ _
      · rw [if_neg more, if_neg more]

theorem vm_copy_to_take {dest count : Nat} (src : List UInt8) (m : Machine) :
    Vm.vmCopyTo (paging id top) dest src count m = Vm.vmCopyTo (paging id top) dest (src.take count) count m := by
  unfold Vm.vmCopyTo
  cases Vm.memoryExists ((paging id top).space m) dest count with
  | error fault => rfl
  | ok there =>
      rw [bind_ok, bind_ok]
      cases there with
      | true => exact copy_to_loop_take count 0 src m
      | false => rfl

end Copied

-- Copies that must succeed, one after the other.
def storeAll (id top : Nat) : List (Nat × List UInt8) → Machine → Except Fault Machine
  | [], m => .ok m
  | (dest, src) :: rest, m => do
      let (m, count) ← Vm.vmCopyTo (paging id top) dest src src.length m
      assertThat (count = src.length)
      storeAll id top rest m

def logAll : List (Nat × List UInt8) → Log
  | [] => []
  | (dest, src) :: rest => logAll rest ++ logOf dest src

section StoreAll

variable {id top flags : Nat} {supply : List Nat}

theorem store_all_append (first second : List (Nat × List UInt8)) (m : Machine) :
    storeAll id top (first ++ second) m = storeAll id top first m >>= storeAll id top second := by
  induction first generalizing m with
  | nil => rfl
  | cons write rest ih =>
      obtain ⟨dest, src⟩ := write
      rw [List.cons_append, storeAll, storeAll]
      cases Vm.vmCopyTo (paging id top) dest src src.length m with
      | error fault => rfl
      | ok result =>
          obtain ⟨u, count⟩ := result
          rw [bind_ok, bind_ok]
          dsimp only
          cases assertThat (count = src.length) with
          | error fault => rfl
          | ok _ => exact ih u

theorem store_all_ledger (writes : List (Nat × List UInt8)) {m u w : Machine} {pages : List Nat} {log : Log} {claimed : Pmm.State}
    (ledger : Ledger id top supply flags m pages log claimed u)
    (there : ∀ write ∈ writes, write.1 + write.2.length < 2 ^ 64 ∧ ∀ k < write.2.length, Lazy id flags m (write.1 + k))
    (run : storeAll id top writes u = .ok w) :
    ∃ claimed', Ledger id top supply flags m (pages ++ (logAll writes).pages) (logAll writes ++ log) claimed' w := by
  induction writes generalizing u pages log claimed with
  | nil =>
      obtain rfl := Except.ok.inj run
      exact ⟨claimed, by simpa [logAll, Log.pages] using ledger⟩
  | cons write rest ih =>
      obtain ⟨dest, src⟩ := write
      obtain ⟨fits, inside⟩ := there _ List.mem_cons_self
      rw [storeAll, bind_eq_ok] at run
      obtain ⟨⟨next, count⟩, copied, run⟩ := run
      dsimp only at run
      rw [bind_eq_ok] at run
      obtain ⟨_, all, run⟩ := run
      obtain rfl : count = src.length := by
        unfold assertThat at all
        split at all
        · rename_i same
          exact of_decide_eq_true same
        · cases all
      have put := vm_copy_to_put fits ledger.consistent (fun k short => lazy_served (lazy_congr ledger.space (inside k short))) copied
      obtain ⟨_, after⟩ := ledger_bytes src ledger inside put
      obtain ⟨final, done⟩ := ih after (fun write member => there write (List.mem_cons_of_mem _ member)) run
      refine ⟨final, ?_⟩
      rw [logAll, log_pages_append, ← List.append_assoc, List.append_assoc (logAll rest)]
      exact done

-- With enough frames to spare the copies all succeed.
theorem store_all_returns {first last : Nat} (writes : List (Nat × List UInt8)) {m u : Machine} {pages : List Nat} {log : Log} {claimed : Pmm.State}
    (ledger : Ledger id top supply flags m pages log claimed u)
    (there : ∀ write ∈ writes, write.1 + write.2.length < 2 ^ 64 ∧ ∀ k < write.2.length, Lazy id flags m (write.1 + k))
    (low : ∀ write ∈ writes, first ≤ write.1 / pageGranularity)
    (high : ∀ write ∈ writes, ∀ k < write.2.length, (write.1 + k) / pageGranularity ≤ last)
    (affords : Vm.Affords (fun m => frameAt top m.tables) spare first last u) : ∃ w, storeAll id top writes u = .ok w := by
  induction writes generalizing u pages log claimed with
  | nil => exact ⟨u, rfl⟩
  | cons write rest ih =>
      obtain ⟨dest, src⟩ := write
      obtain ⟨fits, inside⟩ := there _ List.mem_cons_self
      obtain ⟨next, copied, put, _, _, affordsNext⟩ := Vm.vm_copy_to_spec (paging_pages id top supply) src ledger.consistent fits
        (fun k short => lazy_served (lazy_congr ledger.space (inside k short))) (low _ List.mem_cons_self) (high _ List.mem_cons_self) affords
      obtain ⟨_, after⟩ := ledger_bytes src ledger inside put
      rw [storeAll, copied, bind_ok]
      dsimp only
      rw [show assertThat (decide (src.length = src.length)) = .ok () by simp [assertThat], bind_ok]
      exact ih after (fun write member => there write (List.mem_cons_of_mem _ member)) (fun write member => low write (List.mem_cons_of_mem _ member))
        (fun write member => high write (List.mem_cons_of_mem _ member)) affordsNext

end StoreAll

end Elysium.UserSpace
