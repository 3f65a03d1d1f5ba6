import Elysium.ElfBuffers
import Elysium.UserPages
import Elysium.UserRequests

set_option autoImplicit false

namespace Elysium.UserStrings

open ElfBuffers (heapAlloc heap_alloc_iff heap_alloc_enough)
open Heap (orderBytes)
open Pmm (pmmMaxOrder)
open Ptm (frameAt)
open Transitions (Reachable)
open UserRequests (SyscallReturn maxDebugLength lookups lookups_next)
open UserSpace (Machine Consistent Served Started Backable Suffices paging seen step locate_served)
open Vm (Region byteIn)

section Code

variable (id top : Nat)

-- The functions of UserRequests, on the tables of the process and with their block. The machine is the one that
-- heap_alloc leaves, and a block is its bytes: nullptr is none.
def syscallBufferIn (src count : Nat) (m : Machine) : Except Fault (Machine × Option (List UInt8)) := do
  let block ← heapAlloc count
  let (m, buffer, readCount) ← Vm.vmCopyFrom (paging id top) src count m
  if readCount ≠ count then .ok (m, none)
  else .ok (m, if block = 0 then none else some buffer)

def syscallStringIn (src length : Nat) (m : Machine) : Except Fault (Machine × Option (List UInt8)) := do
  let (m, str) ← syscallBufferIn id top src (add64 length 1) m
  match str with
  | none => .ok (m, none)
  | some str => .ok (m, some (str.set length 0))

def syscallDebug (length str : Nat) (m : Machine) : Except Fault (Machine × SyscallReturn) := do
  let length := if length > maxDebugLength then maxDebugLength else length
  let (m, str) ← syscallStringIn id top str length m
  match str with
  | none => .ok (m, ⟨0, .invalidValue⟩)
  | some _ => .ok (m, ⟨0, .none⟩)

end Code

variable (id top : Nat)

-- Every mapped byte of the user half can be read.
def Readable (m : Machine) (src length : Nat) : Prop := ∀ a, src ≤ a → a < src + length → Served id m a

-- What has been read of a range: the bytes the process sees there. Those it saw before are the same.
structure Reads (m u : Machine) (src : Nat) (bytes : List UInt8) : Prop where
  shown : ∀ k, (short : k < bytes.length) → seen id top u (src + k) = some bytes[k]
  kept : ∀ {v b}, seen id top m v = some b → seen id top u v = some b

-- A string that can be read is copied, with a zero after it, and any other is refused.
structure CopiesString (src length : Nat) (m : Machine) : Prop where
  copied : Readable id m src length → ∃ u bytes, syscallStringIn id top src length m = .ok (u, some (bytes ++ [0])) ∧
    bytes.length = length ∧ Reads id top m u src bytes
  refused : ¬ Readable id m src length → ∃ u, syscallStringIn id top src length m = .ok (u, none)

def ReportsInvalid (length str : Nat) (m : Machine) : Prop :=
  ∃ u ret, syscallDebug id top length str m = .ok (u, ret) ∧ (ret.error = .invalidValue ↔ ¬ Readable id m str (min length maxDebugLength))

-- The pages that a range has bytes on.
def pagesOf (src count : Nat) : Finset Nat := Finset.Icc (src / pageGranularity) ((src + count - 1) / pageGranularity)

-- The length plus one is 0, or there are a block of the heap and pages for it, and the byte after the string is mapped too.
def Fits (src length : Nat) (m : Machine) : Prop :=
  length + 1 = 2 ^ 64 ∨
    (length + 1 ≤ orderBytes pmmMaxOrder ∧ (Readable id m src length → Served id m (src + length)) ∧
      (Readable id m src (length + 1) → Suffices top (pagesOf src (length + 1)) m))

section Copy

variable {id top : Nat} {supply : List Nat} {m : Machine}

theorem backable_nothing (a : Nat) : Backable id top (lookups a 0) m := by
  rw [lookups, if_pos rfl]
  exact trivial

-- What is copied of one page is what the process sees there.
theorem piece_shown {u : Machine} {v f len : Nat} (framed : frameAt top u.tables (v / pageGranularity) = some f)
    (onPage : v % pageGranularity + len ≤ pageGranularity) :
    ∀ k, (short : k < (Vm.copyOut ((paging id top).memory u) (byteIn f v) len).length) →
      seen id top u (v + k) = some (Vm.copyOut ((paging id top).memory u) (byteIn f v) len)[k] := by
  intro k short
  have inPiece : k < len := by rwa [Vm.copyOut, List.length_map, List.length_range] at short
  have page : (v + k) / pageGranularity = v / pageGranularity := by
    unfold pageGranularity at onPage ⊢
    omega
  have address : byteIn f (v + k) = byteIn f v + k := by
    unfold byteIn
    unfold pageGranularity at onPage ⊢
    omega
  change (frameAt top u.tables ((v + k) / pageGranularity)).map _ = _
  rw [page, framed, Option.map_some, address]
  simp only [Vm.copyOut, List.getElem_map, List.getElem_range]

-- What comes later leaves alone what has been read.
theorem reads_append {u w : Machine} {a : Nat} {front back : List UInt8} (opens : ∀ {v b}, seen id top m v = some b → seen id top u v = some b)
    (first : ∀ k, (short : k < front.length) → seen id top u (a + k) = some front[k])
    (reads : Reads id top u w (a + front.length) back) : Reads id top m w a (front ++ back) := by
  refine ⟨fun k short => ?_, fun before => reads.kept (opens before)⟩
  rw [List.length_append] at short
  by_cases early : k < front.length
  · rw [List.getElem_append_left early]
    exact reads.kept (first k early)
  · have later := reads.shown (k - front.length) (by omega)
    rw [List.getElem_append_right (Nat.le_of_not_lt early)]
    rwa [show a + front.length + (k - front.length) = a + k by omega] at later

-- The loop returns where all pages are to be had, and then the bytes are those of the process.
theorem copy_from_loop_reads {source count : Nat} (fits : source + count < 2 ^ 64) (fuel : Nat) {i : Nat} (dest : List UInt8) {m : Machine}
    (consistent : Consistent id top supply m) (enough : count ≤ i + fuel) (within : i ≤ count)
    (inside : ∀ k < count - i, Served id m (source + i + k)) :
    (Backable id top (lookups (source + i) (count - i)) m ∧
        ∃ u bytes, Vm.copyFromLoop (paging id top) source count fuel i dest m = .ok (u, dest ++ bytes, count) ∧
          bytes.length = count - i ∧ Reads id top m u (source + i) bytes) ∨
      (¬ Backable id top (lookups (source + i) (count - i)) m ∧
        ∃ fault, Vm.copyFromLoop (paging id top) source count fuel i dest m = .error fault) := by
  induction fuel generalizing i dest m with
  | zero =>
      have done : count - i = 0 := by omega
      rw [done]
      refine .inl ⟨backable_nothing _, m, [], ?_, rfl, ⟨fun k short => absurd short (Nat.not_lt_zero k), fun at_ => at_⟩⟩
      rw [Vm.copyFromLoop, if_neg (by omega), List.append_nil, show i = count by omega]
  | succ fuel ih =>
      rw [Vm.copyFromLoop]
      by_cases more : i < count
      · rw [if_pos more, add64_eq (show source + i < 2 ^ 64 by omega), lookups_next (show 0 < count - i by omega)]
        obtain ⟨len, lenEq⟩ : ∃ len, len = min (count - i) (pageGranularity - (source + i) % pageGranularity) := ⟨_, rfl⟩
        have piece : Vm.pieceLength source count i = len := by
          rw [Vm.pieceLength, add64_eq (show source + i < 2 ^ 64 by omega), lenEq]
        have offset : (source + i) % pageGranularity < pageGranularity := Nat.mod_lt _ (by decide)
        have next : source + i + len = source + (i + len) := Nat.add_assoc _ _ _
        rw [piece, ← lenEq, next, show count - i - len = count - (i + len) by omega]
        rcases locate_served consistent (inside 0 (by omega)) (lookups (source + (i + len)) (count - (i + len))) with
          ⟨u, f, located, consistentU, framed, opens, same⟩ | ⟨fault, located, short⟩
        · rw [Nat.add_zero] at located framed same
          rw [located, bind_ok, same]
          dsimp only
          have insideU : ∀ k < count - (i + len), Served id u (source + (i + len) + k) := by
            intro k short
            rw [opens.served, show source + (i + len) + k = source + i + (len + k) by omega]
            exact inside (len + k) (by omega)
          refine (ih (dest ++ Vm.copyOut ((paging id top).memory u) (byteIn f (source + i)) len) consistentU (by omega) (by omega) insideU).imp ?_ fun failed => failed
          · rintro ⟨backable, w, bytes, run, length, reads⟩
            have front := @piece_shown id top u (source + i) f len framed (by omega)
            have size : (Vm.copyOut ((paging id top).memory u) (byteIn f (source + i)) len).length = len := by
              rw [Vm.copyOut, List.length_map, List.length_range]
            refine ⟨backable, w, Vm.copyOut ((paging id top).memory u) (byteIn f (source + i)) len ++ bytes, ?_, ?_, ?_⟩
            · rw [run, List.append_assoc]
            · rw [List.length_append, size, length]
              omega
            · exact reads_append opens.bytes front (by rw [size, next]; exact reads)
        · rw [Nat.add_zero] at located short
          rw [located]
          exact .inr ⟨short, fault, rfl⟩
      · have done : count - i = 0 := by omega
        rw [done]
        refine .inl ⟨backable_nothing _, m, [], ?_, rfl, ⟨fun k short => absurd short (Nat.not_lt_zero k), fun at_ => at_⟩⟩
        rw [if_neg more, List.append_nil, show i = count by omega]

theorem lookups_pages {a count : Nat} (positive : 0 < count) : (lookups a count).map (· / pageGranularity) =
    List.range' (a / pageGranularity) ((a + count - 1) / pageGranularity - a / pageGranularity + 1) := by
  rw [lookups, if_neg (Nat.pos_iff_ne_zero.mp positive), List.map_cons, List.map_map, List.range'_succ]
  refine congrArg (_ :: ·) ?_
  rw [List.range'_eq_map_range]
  refine List.map_congr_left fun k _ => ?_
  exact Nat.mul_div_cancel _ (by decide)

theorem lookups_inside {a count v : Nat} (member : v ∈ lookups a count) : a ≤ v ∧ v < a + count := by
  obtain ⟨low, positive⟩ := UserRequests.lookups_ge member
  refine ⟨low, ?_⟩
  rw [lookups, if_neg (Nat.pos_iff_ne_zero.mp positive), List.mem_cons, List.mem_map] at member
  rcases member with rfl | ⟨k, inRange, rfl⟩
  · omega
  · have short := List.mem_range.mp inRange
    unfold pageGranularity at *
    omega

theorem lookups_backable {src count : Nat} (consistent : Consistent id top supply m) (positive : 0 < count) (readable : Readable id m src count) :
    Backable id top (lookups src count) m ↔ Suffices top (pagesOf src count) m := by
  rw [UserSpace.backable_iff _ consistent (fun v member => readable v (lookups_inside member).1 (lookups_inside member).2)
    (by rw [lookups_pages positive]; exact List.nodup_range')]
  have same : ((lookups src count).map (· / pageGranularity)).toFinset = pagesOf src count := by
    ext P
    have upper : src / pageGranularity ≤ (src + count - 1) / pageGranularity := Nat.div_le_div_right (by omega)
    rw [lookups_pages positive, List.mem_toFinset, List.mem_range'_1, pagesOf, Finset.mem_Icc]
    omega
  rw [same]

-- vm_copy_from, whatever the range.
theorem copy_from_cases {src count : Nat} (consistent : Consistent id top supply m) (positive : 0 < count) (small : count < 2 ^ 63) :
    (Readable id m src count ∧ Suffices top (pagesOf src count) m ∧
        ∃ u bytes, Vm.vmCopyFrom (paging id top) src count m = .ok (u, bytes, count) ∧ bytes.length = count ∧ Reads id top m u src bytes) ∨
      (Readable id m src count ∧ ¬ Suffices top (pagesOf src count) m ∧
        ∃ fault, Vm.vmCopyFrom (paging id top) src count m = .error fault) ∨
      (¬ Readable id m src count ∧ Vm.vmCopyFrom (paging id top) src count m = .ok (m, [], 0)) := by
  have tidy := consistent.vm.tidy (.process id)
  by_cases readable : Readable id m src count
  · have low := UserSpace.served_low consistent (readable src (Nat.le_refl _) (by omega))
    have there := UserSpace.served_exists consistent positive readable
    have loop := copy_from_loop_reads (show src + count < 2 ^ 64 by omega) count (i := 0) [] consistent (by omega) (by omega)
      fun k short => readable _ (by omega) (by omega)
    rw [Nat.add_zero, Nat.sub_zero, lookups_backable consistent positive readable] at loop
    have started : Vm.vmCopyFrom (paging id top) src count m = Vm.copyFromLoop (paging id top) src count count 0 [] m := by
      change (Vm.memoryExists (m.vm.space (.process id)) src count >>= _) = _
      rw [there]
      rfl
    rw [started]
    rcases loop with ⟨suffices_, u, bytes, run, length, reads⟩ | ⟨short, failed⟩
    · exact .inl ⟨readable, suffices_, u, bytes, run, length, reads⟩
    · exact .inr (.inl ⟨readable, short, failed⟩)
  · refine .inr (.inr ⟨readable, ?_⟩)
    have missing : Vm.memoryExists (m.vm.space (.process id)) src count = .ok false := by
      rcases Vm.memory_exists_returns tidy src count with there | missing
      · have inside : Vm.AddressInBounds src (m.vm.space (.process id)).start (m.vm.space (.process id)).limit := by
          by_contra outside
          rw [Vm.memoryExists, if_pos (.inl outside)] at there
          cases there
        have below := inside.2
        rw [consistent.limit] at below
        have top47 : Vm.userspaceEnd < 2 ^ 47 := by decide
        exact absurd ((Vm.memory_exists_iff tidy (by omega)).mp there).2.2 readable
      · exact missing
    change (Vm.memoryExists (m.vm.space (.process id)) src count >>= _) = _
    rw [missing]
    rfl

end Copy

section Buffers

variable {id top : Nat} {supply : List Nat} {m : Machine} (consistent : Consistent id top supply m)

include consistent

theorem string_in_cases {src length : Nat} (block : length + 1 ≤ orderBytes pmmMaxOrder) :
    (Readable id m src (length + 1) ∧ Suffices top (pagesOf src (length + 1)) m ∧
        ∃ u bytes, syscallStringIn id top src length m = .ok (u, some (bytes ++ [0])) ∧ bytes.length = length ∧ Reads id top m u src bytes) ∨
      (Readable id m src (length + 1) ∧ ¬ Suffices top (pagesOf src (length + 1)) m ∧
        ∃ fault, syscallStringIn id top src length m = .error fault) ∨
      (¬ Readable id m src (length + 1) ∧ syscallStringIn id top src length m = .ok (m, none)) := by
  have largest : orderBytes pmmMaxOrder < 2 ^ 63 := by decide
  obtain ⟨size, allocated⟩ := (heap_alloc_iff (Nat.succ_pos length) (by omega)).mpr block
  have enough := heap_alloc_enough (Nat.succ_pos length) (by omega) allocated
  unfold syscallStringIn syscallBufferIn
  rw [add64_eq (show length + 1 < 2 ^ 64 by omega), allocated, bind_ok]
  rcases copy_from_cases consistent (Nat.succ_pos length) (show length + 1 < 2 ^ 63 by omega) with
    ⟨readable, suffices_, u, text, run, whole, reads⟩ | ⟨readable, short, fault, run⟩ | ⟨unreadable, run⟩
  · refine .inl ⟨readable, suffices_, u, text.take length, ?_, ?_, ?_⟩
    · rw [run, bind_ok]
      dsimp only
      rw [if_neg (not_not.mpr rfl), if_neg (by omega), bind_ok]
      dsimp only
      rw [List.set_eq_take_append_cons_drop, if_pos (by omega), List.drop_eq_nil_of_le (by omega)]
    · rw [List.length_take]
      omega
    · refine ⟨fun k short => ?_, fun before => reads.kept before⟩
      have inText : k < text.length := by
        rw [List.length_take] at short
        omega
      rw [reads.shown k inText, List.getElem_take]
  · rw [run]
    exact .inr (.inl ⟨readable, short, fault, rfl⟩)
  · rw [run, bind_ok]
    dsimp only
    rw [if_pos (Nat.succ_ne_zero length).symm, bind_ok]
    exact .inr (.inr ⟨unreadable, rfl⟩)

omit consistent in
theorem readable_succ {src length : Nat} : Readable id m src (length + 1) ↔ Readable id m src length ∧ Served id m (src + length) := by
  constructor
  · exact fun readable => ⟨fun a low high => readable a low (by omega), readable _ (Nat.le_add_right _ _) (by omega)⟩
  · rintro ⟨readable, last⟩ a low high
    rcases Nat.lt_or_eq_of_le (Nat.le_of_lt_succ high) with inside | rfl
    · exact readable a low inside
    · exact last

-- The range of all of memory but one byte has bytes that no process has.
theorem string_in_wraps {src length : Nat} (wraps : length + 1 = 2 ^ 64) :
    ¬ Readable id m src length ∧ ∃ u, syscallStringIn id top src length m = .ok (u, none) := by
  refine ⟨fun readable => ?_, m, ?_⟩
  · have low := UserSpace.served_low consistent (readable (src + 2 ^ 47) (by omega) (by omega))
    omega
  · have zero : add64 length 1 = 0 := by
      unfold add64
      omega
    have nothing : Vm.vmCopyFrom (paging id top) src 0 m = .ok (m, [], 0) := by
      change (Vm.memoryExists (m.vm.space (.process id)) src 0 >>= _) = _
      rcases Vm.memory_exists_returns (consistent.vm.tidy (.process id)) src 0 with there | missing
      · rw [there]
        rfl
      · rw [missing]
        rfl
    unfold syscallStringIn syscallBufferIn
    rw [zero, heapAlloc, if_pos rfl, bind_ok, nothing]
    rfl

-- A block larger than any that there is stops the kernel.
omit consistent in
theorem string_in_huge {src length : Nat} (word : length < 2 ^ 64) (wraps : length + 1 ≠ 2 ^ 64) (huge : ¬ length + 1 ≤ orderBytes pmmMaxOrder) :
    ∃ fault, syscallStringIn id top src length m = .error fault := by
  unfold syscallStringIn syscallBufferIn
  rw [add64_eq (show length + 1 < 2 ^ 64 by omega)]
  cases allocated : heapAlloc (length + 1) with
  | error fault => exact ⟨fault, rfl⟩
  | ok block => exact absurd ((heap_alloc_iff (Nat.succ_pos length) (by omega)).mp ⟨block, allocated⟩) huge

theorem string_in_fits {src length : Nat} (word : length < 2 ^ 64) : CopiesString id top src length m ↔ Fits id top src length m := by
  by_cases wraps : length + 1 = 2 ^ 64
  · obtain ⟨unreadable, run⟩ := @string_in_wraps id top supply m consistent src length wraps
    exact iff_of_true ⟨fun readable => absurd readable unreadable, fun _ => run⟩ (.inl wraps)
  · rw [Fits, or_iff_right wraps]
    by_cases block : length + 1 ≤ orderBytes pmmMaxOrder
    · rw [and_iff_right block]
      rcases @string_in_cases id top supply m consistent src length block with
        ⟨readable, suffices_, u, bytes, run, size, reads⟩ | ⟨readable, short, fault, run⟩ | ⟨unreadable, run⟩
      · have both := readable_succ.mp readable
        exact iff_of_true ⟨fun _ => ⟨u, bytes, run, size, reads⟩, fun unreadable => absurd both.1 unreadable⟩
          ⟨fun _ => both.2, fun _ => suffices_⟩
      · have both := readable_succ.mp readable
        refine iff_of_false (fun copies => ?_) fun fits => short (fits.2 readable)
        obtain ⟨u, bytes, done, _⟩ := copies.copied both.1
        rw [run] at done
        cases done
      · constructor
        · refine fun copies => ⟨fun readable => ?_, fun readable => absurd readable unreadable⟩
          obtain ⟨u, bytes, done, _⟩ := copies.copied readable
          rw [run] at done
          cases done
        · rintro ⟨after, _⟩
          refine ⟨fun readable => absurd (readable_succ.mpr ⟨readable, after readable⟩) unreadable, fun _ => ⟨m, run⟩⟩
    · obtain ⟨fault, run⟩ := @string_in_huge id top m src length word wraps block
      refine iff_of_false (fun copies => ?_) fun fits => block fits.1
      by_cases readable : Readable id m src length
      · obtain ⟨u, bytes, done, _⟩ := copies.copied readable
        rw [run] at done
        cases done
      · obtain ⟨u, done⟩ := copies.refused readable
        rw [run] at done
        cases done

omit consistent in
theorem debug_eq (length str : Nat) : syscallDebug id top length str m =
    syscallStringIn id top str (min length maxDebugLength) m >>= fun result =>
      .ok (result.1, ⟨0, if result.2 = none then .invalidValue else .none⟩) := by
  have clamped : (if length > maxDebugLength then maxDebugLength else length) = min length maxDebugLength := by
    by_cases long : length > maxDebugLength
    · rw [if_pos long, Nat.min_eq_right (Nat.le_of_lt long)]
    · rw [if_neg long, Nat.min_eq_left (Nat.le_of_not_lt long)]
  unfold syscallDebug
  rw [clamped]
  refine congrArg _ (funext fun result => ?_)
  obtain ⟨u, str⟩ := result
  cases str with
  | none => rfl
  | some text => rfl

theorem debug_fits (length str : Nat) :
    ReportsInvalid id top length str m ↔ Fits id top str (min length maxDebugLength) m := by
  obtain ⟨clamped, same⟩ : ∃ clamped, clamped = min length maxDebugLength := ⟨_, rfl⟩
  have small : clamped ≤ 512 := same ▸ Nat.min_le_right _ _
  have block : clamped + 1 ≤ orderBytes pmmMaxOrder := Nat.le_trans (Nat.succ_le_succ small) (by decide)
  rw [ReportsInvalid, debug_eq, ← same, Fits, or_iff_right (by omega), and_iff_right block]
  rcases @string_in_cases id top supply m consistent str clamped block with
    ⟨readable, suffices_, u, bytes, run, _⟩ | ⟨readable, short, fault, run⟩ | ⟨unreadable, run⟩
  · have both := readable_succ.mp readable
    rw [run]
    exact iff_of_true ⟨u, _, rfl, iff_of_false (by simp) (not_not_intro both.1)⟩ ⟨fun _ => both.2, fun _ => suffices_⟩
  · rw [run]
    refine iff_of_false ?_ fun fits => short (fits.2 readable)
    rintro ⟨u, ret, done, _⟩
    cases done
  · rw [run]
    constructor
    · rintro ⟨u, ret, done, reports⟩
      obtain ⟨rfl, rfl⟩ := Prod.mk.inj (Except.ok.inj done)
      exact ⟨fun readable => absurd readable (reports.mp rfl), fun readable => absurd readable unreadable⟩
    · rintro ⟨after, _⟩
      exact ⟨m, _, rfl, iff_of_true rfl fun readable => unreadable (readable_succ.mpr ⟨readable, after readable⟩)⟩

end Buffers

-- When a string of the process comes to the kernel as it should, and when syscall_debug says so.
theorem strings_copied_iff (id top : Nat) (supply : List Nat) (m : Machine) (consistent : Consistent id top supply m) (src length : Nat)
    (word : length < 2 ^ 64) :
    (CopiesString id top src length m ↔ Fits id top src length m) ∧
      (ReportsInvalid id top length src m ↔ Fits id top src (min length maxDebugLength) m) :=
  ⟨string_in_fits consistent word, debug_fits consistent length src⟩

-- One page of the process, backed on demand.
theorem one_page_mapped : ∃ m, Reachable (Started 0 0x1000 UserSpace.tablePages) (step 0 0x1000) m ∧
    (m.vm.space (.process 0)).regions = [Vm.lazyRegion 6 0x5000 0x1000 Vm.protRW] ∧ m.tables = Ptm.blankState UserSpace.tablePages ∧
      m.vm.pmm = UserSpace.onePageFree := by
  obtain ⟨started, _⟩ := UserSpace.fresh_machine_started
  obtain ⟨m, mapped, rest⟩ : ∃ m, step 0 0x1000 (.mapAnon 0x5000 0x1000 Vm.protRW .standard
      (Vm.flagFixed ||| Vm.flagDynamicallyBacked)) UserSpace.freshMachine = some m ∧
      (m.vm.space (.process 0)).regions = [Vm.lazyRegion 6 0x5000 0x1000 Vm.protRW] ∧ m.tables = Ptm.blankState UserSpace.tablePages ∧
        m.vm.pmm = UserSpace.onePageFree :=
    ⟨_, rfl, rfl, rfl, rfl⟩
  exact ⟨m, Reachable.step _ m _ (.start _ started) mapped, rest⟩

theorem one_page_served {m : Machine} (regions : (m.vm.space (.process 0)).regions = [Vm.lazyRegion 6 0x5000 0x1000 Vm.protRW]) (a : Nat) :
    Served 0 m a ↔ 0x5000 ≤ a ∧ a < 0x6000 := by
  unfold Served
  rw [regions]
  constructor
  · rintro ⟨r, member, covers⟩
    rw [List.mem_singleton.mp member] at covers
    exact covers
  · exact fun inside => ⟨_, List.mem_singleton_self _, inside⟩

theorem strings_copied_iff_short : ∃ m, Reachable (Started 0 0x1000 UserSpace.tablePages) (step 0 0x1000) m ∧
    CopiesString 0 0x1000 0x5010 3 m := by
  obtain ⟨m, reach, regions, tables, memory⟩ := one_page_mapped
  have fits : Fits 0 0x1000 0x5010 3 m := by
    refine .inr ⟨by decide, fun _ => (one_page_served regions _).mpr ⟨by decide, by decide⟩, fun _ => ?_⟩
    have onePage : UserSpace.bare 0x1000 (pagesOf 0x5010 (3 + 1)) m ⊆ {5} := (Finset.filter_subset _ _).trans (by decide)
    refine ⟨?_, ?_⟩
    · rw [memory]
      exact Nat.le_trans (Finset.card_le_card onePage) UserSpace.fresh_machine_started.2
    · have bound := (Ptm.stop_level_bounds m.tables.memory 0x1000 (5 * pageGranularity)).2
      have few := @Ptm.missing_mono m.tables.memory 0x1000 _ _ onePage
      have three : m.tables.frames.length = 3 := by
        rw [tables]
        rfl
      have levels : Ptm.levelCount = 4 := rfl
      rw [Ptm.missing_one] at few
      omega
  exact ⟨m, reach, (strings_copied_iff 0 0x1000 UserSpace.tablePages m (UserSpace.reachable_consistent reach) 0x5010 3 (by decide)).1.mpr fits⟩

-- A string that ends with the page it lies on: the byte after it is not mapped.
theorem string_at_page_end_refused : ∃ m, Reachable (Started 0 0x1000 UserSpace.tablePages) (step 0 0x1000) m ∧
    Readable 0 m 0x5FF0 16 ∧ syscallStringIn 0 0x1000 0x5FF0 16 m = .ok (m, none) ∧ ¬ CopiesString 0 0x1000 0x5FF0 16 m ∧
      ¬ ReportsInvalid 0 0x1000 16 0x5FF0 m := by
  obtain ⟨m, reach, regions, _⟩ := one_page_mapped
  have consistent := UserSpace.reachable_consistent reach
  have readable : Readable 0 m 0x5FF0 16 := fun a low high => (one_page_served regions a).mpr ⟨by omega, by omega⟩
  have beyond : ¬ Served 0 m (0x5FF0 + 16) := fun served => absurd ((one_page_served regions _).mp served).2 (by decide)
  have refuses : ¬ Fits 0 0x1000 0x5FF0 16 m := by
    rintro (wraps | ⟨_, after, _⟩)
    · exact absurd wraps (by decide)
    · exact beyond (after readable)
  refine ⟨m, reach, readable, ?_, fun copies => refuses ((string_in_fits consistent (by decide)).mp copies),
    fun reports => refuses ((debug_fits consistent 16 0x5FF0).mp reports)⟩
  rcases @string_in_cases 0 0x1000 UserSpace.tablePages m consistent 0x5FF0 16 (by decide) with ⟨whole, _⟩ | ⟨whole, _⟩ | ⟨_, run⟩
  · exact absurd (readable_succ.mp whole).2 beyond
  · exact absurd (readable_succ.mp whole).2 beyond
  · exact run

end Elysium.UserStrings
