import Elysium.SysvWrites
import Elysium.UserLazy

set_option autoImplicit false

namespace Elysium.Sysv

open UserSpace (Machine paging follow seen storeAll logAll claimPages Consistent Started step Lazy Ledger MappedLazily)
open Ptm (frameAt)
open Transitions (Reachable)

-- Words and strings, rounded up so that the stack pointer stays aligned.
def blockSize (argv envp : List Text) : Nat :=
  (totalLength argv + totalLength envp + 8 * (15 + envp.length + argv.length) + 15) / 16 * 16

-- The last sixteen bytes of the stack are not used.
def FitsStack (stackSize : Nat) (argv envp : List Text) : Prop := 16 + blockSize argv envp ≤ stackSize

instance (stackSize : Nat) (argv envp : List Text) : Decidable (FitsStack stackSize argv envp) := inferInstanceAs (Decidable (_ ≤ _))

section Places

variable (base stackSize : Nat) (argv envp : List Text)

def argPlace : Nat := base + stackSize - 16 - totalLength argv

def envPlace : Nat := argPlace base stackSize argv - totalLength envp

def stackPointer : Nat := base + stackSize - 16 - blockSize argv envp

def wordsEnd : Nat := stackPointer base stackSize argv envp + 8 * (15 + envp.length + argv.length)

def stackWrites (auxv : Auxv) : List (Nat × List UInt8) :=
  setupWrites argv envp auxv (argPlace base stackSize argv) (envPlace base stackSize argv envp) (wordsEnd base stackSize argv envp)

end Places

-- From the stack pointer upwards: the words, the environment, the arguments, sixteen bytes.
structure StackPlaces (base stackSize : Nat) (argv envp : List Text) : Prop where
  above : base ≤ stackPointer base stackSize argv envp
  aligned : base % pageGranularity = 0 → stackSize % pageGranularity = 0 → stackPointer base stackSize argv envp % 16 = 0
  words : wordsEnd base stackSize argv envp ≤ envPlace base stackSize argv envp
  envs : envPlace base stackSize argv envp + totalLength envp = argPlace base stackSize argv
  args : argPlace base stackSize argv + totalLength argv = base + stackSize - 16
  room : 16 ≤ stackSize

theorem stack_places {stackSize : Nat} {argv envp : List Text} (fits : FitsStack stackSize argv envp) (base : Nat) :
    StackPlaces base stackSize argv envp := by
  unfold FitsStack at fits
  have block : blockSize argv envp = (totalLength argv + totalLength envp + 8 * (15 + envp.length + argv.length) + 15) / 16 * 16 := rfl
  constructor
  · unfold stackPointer
    omega
  · intro onPage whole
    unfold stackPointer pageGranularity at *
    omega
  · unfold wordsEnd envPlace argPlace stackPointer
    omega
  · unfold envPlace argPlace
    omega
  · unfold argPlace
    omega
  · omega

section Setup

variable {id top : Nat} {supply : List Nat} {m : Machine} {stackSize : Nat} {argv envp : List Text} {auxv : Auxv}

theorem reserve_eq (texts : List Text) {count stack : Nat} (small : count + texts.length ≤ 2147483647) (room : totalLength texts ≤ stack)
    (fits : stack < 2 ^ 64) : reserve texts count stack = .ok (count + texts.length, stack - totalLength texts) := by
  induction texts generalizing count stack with
  | nil => rfl
  | cons text rest ih =>
      rw [List.length_cons] at small
      rw [total_length_cons] at room
      rw [reserve, checkedCount, if_pos (by omega), bind_ok, ← stored_length, sub64_eq (by omega) fits,
        ih (by omega) (by omega) (by omega), List.length_cons, total_length_cons]
      congr 2
      · omega
      · omega

theorem reserve_counts (texts : List Text) {count stack total stack' : Nat} (run : reserve texts count stack = .ok (total, stack')) :
    total = count + texts.length := by
  induction texts generalizing count stack with
  | nil =>
      obtain ⟨rfl, _⟩ := Prod.mk.inj (Except.ok.inj run)
      rfl
  | cons text rest ih =>
      rw [reserve, bind_eq_ok] at run
      obtain ⟨next, checked, run⟩ := run
      unfold checkedCount at checked
      split at checked
      · obtain rfl := Except.ok.inj checked
        rw [ih run, List.length_cons]
        omega
      · cases checked

-- The whole function, once the mapping is made.
theorem setup_eq {t vm : Vm.State} {base : Nat}
    (mapped : Vm.vmMapAnon (.process id) Vm.nullptr stackSize Vm.protRW .standard Vm.flagDynamicallyBacked m.vm = .ok (vm, base))
    (lazily : MappedLazily id top supply Vm.nullptr stackSize Vm.flagDynamicallyBacked Vm.protRW .standard m t vm base)
    (whole : stackSize % pageGranularity = 0) (fits : FitsStack stackSize argv envp)
    (small : 15 + envp.length + argv.length ≤ 2147483647) :
    x8664SysvStackSetup id top stackSize argv envp auxv m =
      storeAll id top (stackWrites base stackSize argv envp auxv) ⟨vm, m.tables⟩ >>= fun m => .ok (m, stackPointer base stackSize argv envp) := by
  have above := lazily.above
  have below := lazily.below
  have onPage := lazily.aligned
  have top47 : Vm.userspaceEnd < 2 ^ 47 := by decide
  have bottom : 0 < Vm.userspaceStart := by decide
  have found : base ≠ Vm.nullptr := by
    unfold Vm.nullptr
    omega
  unfold FitsStack at fits
  have block : blockSize argv envp = (totalLength argv + totalLength envp + 8 * (15 + envp.length + argv.length) + 15) / 16 * 16 := rfl
  have start : sub64 (add64 base stackSize) 1 / 0x10 * 0x10 = base + stackSize - 16 := by
    rw [add64_eq (by omega), sub64_eq (by omega) (by omega)]
    unfold pageGranularity at whole onPage
    omega
  have args : reserve argv 0 (base + stackSize - 16) = .ok (argv.length, argPlace base stackSize argv) := by
    rw [reserve_eq argv (by omega) (by omega) (by omega), Nat.zero_add, argPlace]
  have envs : reserve envp 0 (argPlace base stackSize argv) = .ok (envp.length, envPlace base stackSize argv envp) := by
    have place : argPlace base stackSize argv = base + stackSize - 16 - totalLength argv := rfl
    rw [reserve_eq envp (by omega) (by omega) (by omega), Nat.zero_add, envPlace]
  have count : checkedCount (12 + 1 + envp.length + 1 + argv.length + 1) = .ok (15 + envp.length + argv.length) := by
    rw [checkedCount, if_pos (by omega)]
    congr 1
    omega
  have place : envPlace base stackSize argv envp = base + stackSize - 16 - totalLength argv - totalLength envp := rfl
  have words : sub64 (envPlace base stackSize argv envp)
      (sub64 (envPlace base stackSize argv envp) ((15 + envp.length + argv.length) * 8) % 0x10) = wordsEnd base stackSize argv envp := by
    rw [sub64_eq (a := envPlace base stackSize argv envp) (b := (15 + envp.length + argv.length) * 8) (by omega) (by omega),
      sub64_eq (by omega) (by omega), wordsEnd, stackPointer]
    unfold pageGranularity at whole onPage
    omega
  have stores : Stores id top _ (wordsEnd base stackSize argv envp) _ _ := write_stack_stores argv envp auxv
    (by unfold wordsEnd; omega) (by unfold wordsEnd stackPointer; omega)
    (by unfold argPlace; omega : argPlace base stackSize argv + totalLength argv < 2 ^ 64)
    (by omega : envPlace base stackSize argv envp + totalLength envp < 2 ^ 64)
  unfold x8664SysvStackSetup
  rw [show assertThat (decide (stackSize % pageGranularity = 0)) = .ok () by simp [assertThat, whole], bind_ok, mapped, bind_ok]
  dsimp only
  rw [lazily.followed, bind_ok, show assertThat (decide (base ≠ Vm.nullptr)) = .ok () by simp [assertThat, found], bind_ok, start, args, bind_ok]
  dsimp only
  rw [envs, bind_ok]
  dsimp only
  rw [count, bind_ok, words, stores]
  have after : wordsEnd base stackSize argv envp - 8 * (15 + envp.length + argv.length) = stackPointer base stackSize argv envp :=
    Nat.add_sub_cancel _ _
  rw [after, stackWrites]
  cases storeAll id top (setupWrites argv envp auxv _ _ _) _ with
  | error fault => rfl
  | ok u => rfl

theorem setup_accepted (whole : stackSize % pageGranularity = 0) (fits : FitsStack stackSize argv envp) :
    ¬ Vm.Rejected Vm.nullptr stackSize Vm.flagDynamicallyBacked := by
  unfold FitsStack at fits
  rintro (zero | ragged | ⟨isFixed, _⟩)
  · omega
  · exact ragged whole
  · exact isFixed (by decide)

theorem setup_run {m' : Machine} {sp : Nat} (consistent : Consistent id top supply m) (fits : FitsStack stackSize argv envp)
    (run : x8664SysvStackSetup id top stackSize argv envp auxv m = .ok (m', sp)) :
    ∃ t rid vm base, Vm.regionAlloc m.vm = .ok (t, rid) ∧
      MappedLazily id top supply Vm.nullptr stackSize Vm.flagDynamicallyBacked Vm.protRW .standard m t vm base ∧
      storeAll id top (stackWrites base stackSize argv envp auxv) ⟨vm, m.tables⟩ = .ok m' ∧ sp = stackPointer base stackSize argv envp := by
  have steps := run
  unfold x8664SysvStackSetup at steps
  rw [bind_eq_ok] at steps
  obtain ⟨_, checked, steps⟩ := steps
  have whole : stackSize % pageGranularity = 0 := assert_ok checked
  rw [bind_eq_ok] at steps
  obtain ⟨⟨vm, base⟩, mapped, steps⟩ := steps
  dsimp only at steps
  rw [bind_eq_ok] at steps
  obtain ⟨u, followed, steps⟩ := steps
  rw [bind_eq_ok] at steps
  obtain ⟨_, found, steps⟩ := steps
  have there : base ≠ Vm.nullptr := assert_ok found
  rw [bind_eq_ok] at steps
  obtain ⟨⟨argc, argData⟩, args, steps⟩ := steps
  dsimp only at steps
  rw [bind_eq_ok] at steps
  obtain ⟨⟨envc, envData⟩, envs, steps⟩ := steps
  dsimp only at steps
  rw [bind_eq_ok] at steps
  obtain ⟨words, counted, _⟩ := steps
  have argCount := reserve_counts argv args
  have envCount := reserve_counts envp envs
  have small : 15 + envp.length + argv.length ≤ 2147483647 := by
    unfold checkedCount at counted
    split at counted
    · omega
    · cases counted
  have accepted := setup_accepted whole fits
  obtain ⟨t, rid, alloc⟩ : ∃ t rid, Vm.regionAlloc m.vm = .ok (t, rid) := by
    change Vm.mapCommon _ _ _ _ _ _ _ _ _ = _ at mapped
    rw [Vm.map_common_accepted accepted, bind_eq_ok] at mapped
    obtain ⟨⟨t, rid⟩, alloc, _⟩ := mapped
    exact ⟨t, rid, alloc⟩
  rcases UserSpace.map_lazy_cases Vm.protRW .standard consistent (by decide) accepted alloc with
    ⟨_, failed⟩ | ⟨vm', base', again, lazily⟩
  · rw [failed] at mapped
    exact absurd (Prod.mk.inj (Except.ok.inj mapped)).2.symm there
  · obtain ⟨rfl, rfl⟩ := Prod.mk.inj (Except.ok.inj (mapped.symm.trans again))
    rw [setup_eq mapped lazily whole fits small, bind_eq_ok] at run
    obtain ⟨w, stored, same⟩ := run
    obtain ⟨rfl, rfl⟩ := Prod.mk.inj (Except.ok.inj same)
    exact ⟨t, rid, vm, base, alloc, lazily, stored, rfl⟩

end Setup

-- The bytes that the frames of the stack hold when the allocator hands them out, page after page
-- in the order in which the writes need them.
def staleByte (top : Nat) (m : Machine) (writes : List (Nat × List UInt8)) (a : Nat) : Option UInt8 := do
  let (t, _) ← (Vm.regionAlloc m.vm).toOption
  let (claimed, frames) ← (claimPages 0 (logAll writes).pages (t.pmm, frameAt top m.tables)).toOption
  let frame ← frames (a / pageGranularity)
  claimed.memory (Vm.byteIn frame a)

section Bytes

variable {id top : Nat} {supply : List Nat} {m m' : Machine} {stackSize base rid : Nat} {argv envp : List Text} {auxv : Auxv} {t vm : Vm.State}

theorem stack_lazy (lazily : MappedLazily id top supply Vm.nullptr stackSize Vm.flagDynamicallyBacked Vm.protRW .standard m t vm base) {a : Nat}
    (low : base ≤ a) (high : a < base + stackSize) : Lazy id 0 ⟨vm, m.tables⟩ a := by
  have maps := (lazily.maps a _).mpr (.inr ⟨low, high, rfl⟩)
  have there := UserSpace.lazy_of_maps (m := ⟨vm, m.tables⟩) maps rfl rfl
  exact there

theorem stack_writes_mem {write : Nat × List UInt8} : write ∈ stackWrites base stackSize argv envp auxv ↔
    (∃ i value, (writtenWords argv envp auxv (argPlace base stackSize argv) (envPlace base stackSize argv envp))[i]? = some value ∧
        write = (stackPointer base stackSize argv envp + 8 * i, lowHalf value)) ∨
      ∃ placed ∈ placedStrings argv envp (addressesFrom (argPlace base stackSize argv) argv)
        (addressesFrom (envPlace base stackSize argv envp) envp), write = (placed.1, placed.2.stored) := by
  have room : 8 * (15 + envp.length + argv.length) ≤ wordsEnd base stackSize argv envp := Nat.le_add_left _ _
  have perm := setup_writes_perm argv envp auxv (argPlace base stackSize argv) (envPlace base stackSize argv envp) room
  rw [show wordsEnd base stackSize argv envp - 8 * (15 + envp.length + argv.length) = stackPointer base stackSize argv envp from
    Nat.add_sub_cancel _ _] at perm
  rw [stackWrites, perm.mem_iff, List.mem_append, up_words_mem, textWrites, List.mem_map]
  refine or_congr Iff.rfl ?_
  constructor
  · rintro ⟨placed, member, rfl⟩
    exact ⟨placed, member, rfl⟩
  · rintro ⟨placed, member, rfl⟩
    exact ⟨placed, member, rfl⟩

theorem word_below_end {i value : Nat}
    (at_ : (writtenWords argv envp auxv (argPlace base stackSize argv) (envPlace base stackSize argv envp))[i]? = some value) :
    stackPointer base stackSize argv envp + 8 * i + 8 ≤ wordsEnd base stackSize argv envp := by
  obtain ⟨short, _⟩ := List.getElem?_eq_some_iff.mp at_
  rw [written_words_length] at short
  unfold wordsEnd
  omega

-- Where the writes go.
theorem stack_writes_inside (fits : FitsStack stackSize argv envp) {write : Nat × List UInt8}
    (member : write ∈ stackWrites base stackSize argv envp auxv) : base ≤ write.1 ∧ write.1 + write.2.length ≤ base + stackSize - 16 := by
  obtain ⟨above, _, words, envs, args, room⟩ := stack_places fits base
  rcases stack_writes_mem.mp member with ⟨i, value, at_, rfl⟩ | ⟨placed, inside, rfl⟩
  · have short := word_below_end at_
    dsimp only
    rw [low_half_length]
    omega
  · obtain ⟨low, high⟩ := strings_above (Nat.le_of_eq envs) inside
    have below : stackPointer base stackSize argv envp ≤ wordsEnd base stackSize argv envp := Nat.le_add_right _ _
    dsimp only
    omega

theorem stack_writes_pairwise (fits : FitsStack stackSize argv envp) : (stackWrites base stackSize argv envp auxv).Pairwise Separate := by
  obtain ⟨_, _, words, envs, _, _⟩ := stack_places fits base
  exact setup_writes_pairwise auxv (Nat.le_add_left _ _) words (Nat.le_of_eq envs)

theorem setup_ledger (fits : FitsStack stackSize argv envp)
    (lazily : MappedLazily id top supply Vm.nullptr stackSize Vm.flagDynamicallyBacked Vm.protRW .standard m t vm base)
    (stored : storeAll id top (stackWrites base stackSize argv envp auxv) ⟨vm, m.tables⟩ = .ok m') :
    ∃ claimed, Ledger id top supply 0 ⟨vm, m.tables⟩ (logAll (stackWrites base stackSize argv envp auxv)).pages
      (logAll (stackWrites base stackSize argv envp auxv)) claimed m' := by
  have below := lazily.below
  have top47 : Vm.userspaceEnd < 2 ^ 47 := by decide
  have there : ∀ write ∈ stackWrites base stackSize argv envp auxv, write.1 + write.2.length < 2 ^ 64 ∧
      ∀ k < write.2.length, Lazy id 0 ⟨vm, m.tables⟩ (write.1 + k) := by
    intro write member
    obtain ⟨low, high⟩ := stack_writes_inside fits member
    have room := (stack_places fits base).room
    exact ⟨by omega, fun k short => stack_lazy lazily (by omega) (by omega)⟩
  obtain ⟨claimed, ledger⟩ := UserSpace.store_all_ledger _ (UserSpace.ledger_start lazily.consistent) there stored
  exact ⟨claimed, by simpa using ledger⟩

variable {claimed : Pmm.State}

theorem seen_stored {mapped : Machine} {pages : List Nat} {log : UserSpace.Log} (ledger : Ledger id top supply 0 mapped pages log claimed m') {a f : Nat}
    (framed : frameAt top m'.tables (a / pageGranularity) = some f) :
    seen id top m' a = some ((log.lookup a).getD (claimed.memory (Vm.byteIn f a))) := by
  unfold seen Vm.userByte
  change Option.map (fun f => m'.vm.pmm.memory (Vm.byteIn f a)) (frameAt top m'.tables (a / pageGranularity)) = _
  rw [framed, Option.map_some, ledger.stored a f framed]

theorem written_seen (fits : FitsStack stackSize argv envp) {mapped : Machine} {pages : List Nat}
    (ledger : Ledger id top supply 0 mapped pages (logAll (stackWrites base stackSize argv envp auxv)) claimed m')
    {write : Nat × List UInt8} (member : write ∈ stackWrites base stackSize argv envp auxv) : Holds id top m' write.1 write.2 := by
  intro k short
  have at_ : write.2[k]? = some write.2[k] := List.getElem?_eq_getElem short
  obtain ⟨f, framed⟩ := ledger.backed _ (log_all_mem.mpr ⟨write, member, k, at_, rfl⟩)
  rw [seen_stored ledger framed, lookup_write (stack_writes_pairwise fits) member at_, Option.getD_some]

theorem upper_missing (fits : FitsStack stackSize argv envp) {i value k : Nat}
    (at_ : (writtenWords argv envp auxv (argPlace base stackSize argv) (envPlace base stackSize argv envp))[i]? = some value)
    (low : 4 ≤ k) (high : k < 8) :
    (logAll (stackWrites base stackSize argv envp auxv)).lookup (stackPointer base stackSize argv envp + 8 * i + k) = none := by
  obtain ⟨_, _, words, envs, _, _⟩ := stack_places fits base
  have short := word_below_end at_
  refine UserSpace.lookup_absent fun entry entered same => ?_
  obtain ⟨other, memberO, j, atO, address⟩ := log_all_mem.mp entered
  obtain ⟨shortO, _⟩ := List.getElem?_eq_some_iff.mp atO
  rcases stack_writes_mem.mp memberO with ⟨i', value', _, rfl⟩ | ⟨placed, inside, rfl⟩
  · dsimp only at address shortO
    rw [low_half_length] at shortO
    omega
  · have above := (strings_above (Nat.le_of_eq envs) inside).1
    dsimp only at address shortO
    omega

-- The upper half of a word is what the frame of its page held.
theorem upper_stale (whole : stackSize % pageGranularity = 0) (fits : FitsStack stackSize argv envp) (alloc : Vm.regionAlloc m.vm = .ok (t, rid))
    (lazily : MappedLazily id top supply Vm.nullptr stackSize Vm.flagDynamicallyBacked Vm.protRW .standard m t vm base)
    (ledger : Ledger id top supply 0 ⟨vm, m.tables⟩ (logAll (stackWrites base stackSize argv envp auxv)).pages
      (logAll (stackWrites base stackSize argv envp auxv)) claimed m')
    {i value k : Nat} (at_ : (writtenWords argv envp auxv (argPlace base stackSize argv) (envPlace base stackSize argv envp))[i]? = some value)
    (low : 4 ≤ k) (high : k < 8) :
    seen id top m' (stackPointer base stackSize argv envp + 8 * i + k) =
      staleByte top m (stackWrites base stackSize argv envp auxv) (stackPointer base stackSize argv envp + 8 * i + k) := by
  have aligned := (stack_places fits base).aligned lazily.aligned whole
  -- The lower half of the word is on the same page.
  have member := stack_writes_mem.mpr (.inl ⟨i, value, at_, rfl⟩)
  obtain ⟨f, framed⟩ := ledger.backed _ (log_all_mem.mpr ⟨_, member, 0, low_half_get value (by decide), rfl⟩)
  have page : (stackPointer base stackSize argv envp + 8 * i + k) / pageGranularity =
      (stackPointer base stackSize argv envp + 8 * i + 0) / pageGranularity := by
    unfold pageGranularity
    omega
  dsimp only at framed
  rw [← page] at framed
  have claims := ledger.claims
  rw [lazily.allocator] at claims
  rw [seen_stored ledger framed, upper_missing fits at_ low high, Option.getD_none, staleByte, alloc]
  simp only [Except.toOption, Option.bind_eq_bind, Option.bind_some, claims, framed]

end Bytes

-- Arguments and environment read the same in both directions, and the upper half of every word
-- is there before the lower half is written.
structure Intact (top : Nat) (m : Machine) (base stackSize : Nat) (argv envp : List Text) (auxv : Auxv) : Prop where
  args : argv.reverse = argv
  envs : envp.reverse = envp
  upper : ∀ i value k, (writtenWords argv envp auxv (argPlace base stackSize argv) (envPlace base stackSize argv envp))[i]? = some value →
    4 ≤ k → k < 8 → staleByte top m (stackWrites base stackSize argv envp auxv) (stackPointer base stackSize argv envp + 8 * i + k) =
      some (byteOf value k)

section Intact

variable {id top : Nat} {supply : List Nat} {m m' : Machine} {stackSize base rid : Nat} {argv envp : List Text} {auxv : Auxv} {t vm : Vm.State}
  {claimed : Pmm.State}

-- What the run has done, as far as it matters for the layout.
structure Written (id top : Nat) (m m' : Machine) (base stackSize : Nat) (argv envp : List Text) (auxv : Auxv) : Prop where
  aligned : stackPointer base stackSize argv envp % 16 = 0
  low : base + stackSize < 2 ^ 47
  lower : ∀ i value k, (writtenWords argv envp auxv (argPlace base stackSize argv) (envPlace base stackSize argv envp))[i]? = some value →
    k < 4 → seen id top m' (stackPointer base stackSize argv envp + 8 * i + k) = some (byteOf value k)
  upper : ∀ i value k, (writtenWords argv envp auxv (argPlace base stackSize argv) (envPlace base stackSize argv envp))[i]? = some value →
    4 ≤ k → k < 8 → seen id top m' (stackPointer base stackSize argv envp + 8 * i + k) =
      staleByte top m (stackWrites base stackSize argv envp auxv) (stackPointer base stackSize argv envp + 8 * i + k)
  strings : ∀ placed ∈ placedStrings argv envp (addressesFrom (argPlace base stackSize argv) argv)
    (addressesFrom (envPlace base stackSize argv envp) envp), Holds id top m' placed.1 placed.2.stored

theorem stack_written (whole : stackSize % pageGranularity = 0) (fits : FitsStack stackSize argv envp) (alloc : Vm.regionAlloc m.vm = .ok (t, rid))
    (lazily : MappedLazily id top supply Vm.nullptr stackSize Vm.flagDynamicallyBacked Vm.protRW .standard m t vm base)
    (stored : storeAll id top (stackWrites base stackSize argv envp auxv) ⟨vm, m.tables⟩ = .ok m') :
    Written id top m m' base stackSize argv envp auxv := by
  obtain ⟨claimed, ledger⟩ := setup_ledger fits lazily stored
  have top47 : Vm.userspaceEnd < 2 ^ 47 := by decide
  refine ⟨(stack_places fits base).aligned lazily.aligned whole, Nat.lt_trans lazily.below top47, ?_, ?_, ?_⟩
  · intro i value k at_ small
    have holds := written_seen fits ledger (stack_writes_mem.mpr (.inl ⟨i, value, at_, rfl⟩)) k (by rw [low_half_length]; exact small)
    rw [holds, ← low_half_get value small, List.getElem?_eq_getElem]
  · exact fun i value k at_ low high => upper_stale whole fits alloc lazily ledger at_ low high
  · exact fun placed member => written_seen fits ledger (stack_writes_mem.mpr (.inr ⟨placed, member, rfl⟩))

theorem placed_reversed (args : argv.reverse = argv) (envs : envp.reverse = envp) (argData envData : Nat) :
    placedStrings argv envp (addressesFrom argData argv).reverse (addressesFrom envData envp).reverse =
      ((addressesFrom argData argv).zip argv).reverse ++ ((addressesFrom envData envp).zip envp).reverse := by
  have turned : ∀ (data : Nat) (texts : List Text), texts.reverse = texts →
      (addressesFrom data texts).reverse.zip texts = ((addressesFrom data texts).zip texts).reverse := by
    intro data texts same
    have zipped := List.reverse_zipWith (f := Prod.mk) (addresses_length data texts)
    rw [same] at zipped
    exact zipped.symm
  rw [placedStrings, turned argData argv args, turned envData envp envs]

theorem initial_of_intact (fits : FitsStack stackSize argv envp) (written : Written id top m m' base stackSize argv envp auxv)
    (intact : Intact top m base stackSize argv envp auxv) :
    InitialStack id top m' base stackSize (stackPointer base stackSize argv envp) argv envp auxv := by
  obtain ⟨above, _, words, envs, args, room⟩ := stack_places fits base
  have reversed := placed_reversed intact.args intact.envs (argPlace base stackSize argv) (envPlace base stackSize argv envp)
  have perm : (placedStrings argv envp (addressesFrom (argPlace base stackSize argv) argv).reverse
      (addressesFrom (envPlace base stackSize argv envp) envp).reverse).Perm
      (placedStrings argv envp (addressesFrom (argPlace base stackSize argv) argv) (addressesFrom (envPlace base stackSize argv envp) envp)) := by
    rw [reversed]
    exact List.Perm.append (List.reverse_perm _) (List.reverse_perm _)
  have ends : wordsEnd base stackSize argv envp = stackPointer base stackSize argv envp + 8 * (15 + envp.length + argv.length) := rfl
  have count := written_words_length argv envp auxv (argPlace base stackSize argv) (envPlace base stackSize argv envp)
  refine ⟨written.aligned, above, by omega, (addressesFrom (argPlace base stackSize argv) argv).reverse,
    (addressesFrom (envPlace base stackSize argv envp) envp).reverse, ?_, ?_, ?_, ?_, ?_⟩
  · simp [addresses_length]
  · simp [addresses_length]
  · intro i short k small
    rw [qword_length] at small
    have at_ : (writtenWords argv envp auxv (argPlace base stackSize argv) (envPlace base stackSize argv envp))[i]? = some _ :=
      List.getElem?_eq_getElem short
    have byte : (qword (stackWords argv.length (addressesFrom (argPlace base stackSize argv) argv).reverse
        (addressesFrom (envPlace base stackSize argv envp) envp).reverse auxv)[i])[k]? = some _ := qword_get _ small
    rw [List.getElem?_eq_some_iff] at byte
    obtain ⟨_, byte⟩ := byte
    rw [byte]
    by_cases lower : k < 4
    · exact written.lower i _ k at_ lower
    · rw [written.upper i _ k at_ (by omega) small]
      exact intact.upper i _ k at_ (by omega) small
  · intro placed member
    have inside := perm.mem_iff.mp member
    obtain ⟨low, high⟩ := strings_above (Nat.le_of_eq envs) inside
    refine ⟨written.strings placed inside, by omega, by omega, .inr ?_⟩
    change _ + 8 * (writtenWords argv envp auxv (argPlace base stackSize argv) (envPlace base stackSize argv envp)).length ≤ _
    omega
  · have pairwise := strings_pairwise argv (Nat.le_of_eq envs)
    rw [textWrites, List.pairwise_map] at pairwise
    exact (perm.pairwise_iff fun apart => Or.symm apart).mpr pairwise

theorem byte_of_toNat (value k : Nat) : (byteOf value k).toNat = value / 256 ^ k % 256 := by
  unfold byteOf
  rw [UInt8.toNat_ofNat', Nat.mod_mod]

theorem low_half_eq {a b : Nat} (same : ∀ k < 4, byteOf a k = byteOf b k) : a % 2 ^ 32 = b % 2 ^ 32 := by
  have zero := congrArg UInt8.toNat (same 0 (by decide))
  have one := congrArg UInt8.toNat (same 1 (by decide))
  have two := congrArg UInt8.toNat (same 2 (by decide))
  have three := congrArg UInt8.toNat (same 3 (by decide))
  rw [byte_of_toNat, byte_of_toNat] at zero one two three
  omega

-- A NUL ends a string, so that an address has at most one.
theorem holds_unique {address : Nat} {first second : Text} (one : Holds id top m address first.stored) (two : Holds id top m address second.stored) :
    first = second := by
  have agree : ∀ (k : Nat) (a b : UInt8), first.stored[k]? = some a → second.stored[k]? = some b → a = b := by
    intro k a b atA atB
    obtain ⟨shortA, rfl⟩ := List.getElem?_eq_some_iff.mp atA
    obtain ⟨shortB, rfl⟩ := List.getElem?_eq_some_iff.mp atB
    exact Option.some.inj ((one k shortA).symm.trans (two k shortB))
  have longer : ∀ {s t : Text}, (∀ (k : Nat) (a b : UInt8), s.stored[k]? = some a → t.stored[k]? = some b → a = b) → ¬ s.bytes.length < t.bytes.length := by
    intro s t same short
    have ends : s.stored[s.bytes.length]? = some 0 := by simp [Text.stored]
    have inner : t.stored[s.bytes.length]? = some t.bytes[s.bytes.length] := by
      rw [Text.stored, List.getElem?_append_left short, List.getElem?_eq_getElem short]
    exact t.inside _ (List.getElem_mem short) (same _ _ _ ends inner).symm
  have lengths : first.bytes.length = second.bytes.length := by
    have left := longer agree
    have right := longer (fun k a b atA atB => (agree k b a atB atA).symm)
    omega
  have bytes : first.bytes = second.bytes := by
    refine List.ext_getElem lengths fun k shortA shortB => ?_
    refine agree k _ _ ?_ ?_
    · rw [Text.stored, List.getElem?_append_left shortA, List.getElem?_eq_getElem shortA]
    · rw [Text.stored, List.getElem?_append_left shortB, List.getElem?_eq_getElem shortB]
  cases first
  cases second
  simp only [Text.mk.injEq]
  exact bytes

theorem stack_words_arg {argc i : Nat} {args envs : List Nat} (short : i < args.length) :
    (stackWords argc args envs auxv)[1 + i]? = some args[i] := by
  rw [stackWords, Nat.add_comm, List.getElem?_cons_succ, List.getElem?_append_left short, List.getElem?_eq_getElem short]

theorem stack_words_env {argc i : Nat} {args envs : List Nat} (short : i < envs.length) :
    (stackWords argc args envs auxv)[2 + args.length + i]? = some envs[i] := by
  rw [stackWords, show 2 + args.length + i = args.length + (i + 1) + 1 by omega, List.getElem?_cons_succ,
    List.getElem?_append_right (Nat.le_add_right _ _), Nat.add_sub_cancel_left, List.getElem?_cons_succ, List.getElem?_append_left short,
    List.getElem?_eq_getElem short]

variable {args envs : List Nat}

-- A word that is right has the lower half that was written.
theorem layout_lower (written : Written id top m m' base stackSize argv envp auxv)
    (layout : Layout id top m' base stackSize (stackPointer base stackSize argv envp) argv envp auxv args envs) {i a b : Nat}
    (there : (stackWords argv.length args envs auxv)[i]? = some a)
    (here : (writtenWords argv envp auxv (argPlace base stackSize argv) (envPlace base stackSize argv envp))[i]? = some b) :
    a % 2 ^ 32 = b % 2 ^ 32 := by
  obtain ⟨short, rfl⟩ := List.getElem?_eq_some_iff.mp there
  refine low_half_eq fun k small => ?_
  have right := layout.words i short k (by rw [qword_length]; omega)
  have lower := written.lower i b k here small
  rw [right, Option.some.injEq] at lower
  obtain ⟨_, byte⟩ := List.getElem?_eq_some_iff.mp (qword_get (stackWords argv.length args envs auxv)[i] (show k < 8 by omega))
  rw [← byte, lower]

theorem zip_get {α β : Type} {l : List α} {l' : List β} {i : Nat} (short : i < l.length) (short' : i < l'.length) : (l[i], l'[i]) ∈ l.zip l' := by
  have inside : i < (l.zip l').length := by
    rw [List.length_zip]
    omega
  have at_ := List.getElem_mem inside
  rw [List.getElem_zip] at at_
  exact at_

-- Within four gigabytes the lower half tells the address.
theorem pointers_turned {texts : List Text} {data : Nat} {pointers : List Nat} (narrow : stackSize ≤ 2 ^ 32)
    (count : pointers.length = texts.length)
    (inside : ∀ placed ∈ pointers.zip texts, base ≤ placed.1 ∧ placed.1 < base + stackSize)
    (insideWritten : ∀ placed ∈ (addressesFrom data texts).zip texts, base ≤ placed.1 ∧ placed.1 < base + stackSize)
    (lower : ∀ i (short : i < pointers.length) (shortW : i < (addressesFrom data texts).reverse.length),
      pointers[i] % 2 ^ 32 = (addressesFrom data texts).reverse[i] % 2 ^ 32) :
    pointers = (addressesFrom data texts).reverse := by
  have length := addresses_length data texts
  apply List.ext_getElem
  · rw [List.length_reverse, length, count]
  · intro i short shortW
    have same := lower i short shortW
    obtain ⟨low, high⟩ := inside _ (zip_get short (count ▸ short))
    rw [List.getElem_reverse] at same ⊢
    obtain ⟨lowW, highW⟩ := insideWritten _ (zip_get (i := (addressesFrom data texts).length - 1 - i) (by omega) (by omega))
    dsimp only at low high lowW highW
    omega

theorem layout_addresses (fits : FitsStack stackSize argv envp) (narrow : stackSize ≤ 2 ^ 32)
    (written : Written id top m m' base stackSize argv envp auxv)
    (layout : Layout id top m' base stackSize (stackPointer base stackSize argv envp) argv envp auxv args envs) :
    args = (addressesFrom (argPlace base stackSize argv) argv).reverse ∧ envs = (addressesFrom (envPlace base stackSize argv envp) envp).reverse := by
  obtain ⟨above, _, words, envsAt, argsAt, room⟩ := stack_places fits base
  have below : stackPointer base stackSize argv envp ≤ wordsEnd base stackSize argv envp := Nat.le_add_right _ _
  have inside : ∀ placed ∈ placedStrings argv envp args envs, base ≤ placed.1 ∧ placed.1 < base + stackSize := by
    intro placed member
    obtain ⟨_, low, high, _⟩ := layout.strings placed member
    rw [stored_length] at high
    omega
  have insideWritten : ∀ placed ∈ placedStrings argv envp (addressesFrom (argPlace base stackSize argv) argv)
      (addressesFrom (envPlace base stackSize argv envp) envp), base ≤ placed.1 ∧ placed.1 < base + stackSize := by
    intro placed member
    obtain ⟨low, high⟩ := strings_above (Nat.le_of_eq envsAt) member
    rw [stored_length] at high
    omega
  constructor
  · apply pointers_turned narrow layout.argCount
    · exact fun placed member => inside placed (List.mem_append_left _ member)
    · exact fun placed member => insideWritten placed (List.mem_append_left _ member)
    · intro i short shortW
      exact layout_lower written layout (stack_words_arg short) (stack_words_arg shortW)
  · apply pointers_turned narrow layout.envCount
    · exact fun placed member => inside placed (List.mem_append_right _ member)
    · exact fun placed member => insideWritten placed (List.mem_append_right _ member)
    · intro i short shortW
      have there : (stackWords argv.length args envs auxv)[2 + argv.length + i]? = some envs[i] := by
        rw [← layout.argCount]
        exact stack_words_env short
      have here : (stackWords argv.length (addressesFrom (argPlace base stackSize argv) argv).reverse _ auxv)[_]? = _ := stack_words_env shortW
      rw [List.length_reverse, addresses_length] at here
      exact layout_lower written layout there here

-- The string a pointer is meant for is the one at its place from the other end.
theorem mirrored {texts : List Text} {data : Nat} {pointers : List Nat} (turned : pointers = (addressesFrom data texts).reverse)
    (meant : ∀ placed ∈ pointers.zip texts, Holds id top m placed.1 placed.2.stored)
    (copied : ∀ placed ∈ (addressesFrom data texts).zip texts, Holds id top m placed.1 placed.2.stored) : texts.reverse = texts := by
  have lengths := addresses_length data texts
  refine List.ext_getElem List.length_reverse fun i shortR short => ?_
  have shortP : i < pointers.length := by
    rw [turned, List.length_reverse, lengths]
    exact short
  have one := meant _ (zip_get shortP short)
  have two := copied _ (zip_get (i := texts.length - 1 - i) (by omega) (by omega))
  have same : pointers[i] = (addressesFrom data texts)[texts.length - 1 - i] := by
    simp [turned, lengths]
  dsimp only at one two
  rw [same] at one
  rw [List.getElem_reverse]
  exact holds_unique two one

theorem intact_of_initial (fits : FitsStack stackSize argv envp) (narrow : stackSize ≤ 2 ^ 32)
    (written : Written id top m m' base stackSize argv envp auxv)
    (initial : InitialStack id top m' base stackSize (stackPointer base stackSize argv envp) argv envp auxv) :
    Intact top m base stackSize argv envp auxv := by
  obtain ⟨_, _, _, args, envs, layout⟩ := initial
  obtain ⟨argsAre, envsAre⟩ := layout_addresses fits narrow written layout
  refine ⟨?_, ?_, fun i value k at_ low high => ?_⟩
  · exact mirrored argsAre (fun placed member => (layout.strings placed (List.mem_append_left _ member)).1)
      fun placed member => written.strings placed (List.mem_append_left _ member)
  · exact mirrored envsAre (fun placed member => (layout.strings placed (List.mem_append_right _ member)).1)
      fun placed member => written.strings placed (List.mem_append_right _ member)
  · have there : (stackWords argv.length args envs auxv)[i]? = some value := by
      rw [argsAre, envsAre]
      exact at_
    obtain ⟨short, rfl⟩ := List.getElem?_eq_some_iff.mp there
    rw [← written.upper i _ k at_ low high]
    have right := layout.words i short k (by rw [qword_length]; exact high)
    obtain ⟨_, byte⟩ := List.getElem?_eq_some_iff.mp (qword_get (stackWords argv.length args envs auxv)[i] high)
    rw [right, byte]

end Intact

-- What the call takes: a place for the stack, a region structure, and frames and tables for its pages.
structure Room (id : Nat) (m : Machine) (stackSize : Nat) (argv envp : List Text) : Prop where
  whole : stackSize % pageGranularity = 0
  hole : ∃ a, Vm.Hole (m.vm.space (.process id)) stackSize a
  pool : Vm.Supply 1 m.vm (.process id)
  frames : stackSize / pageGranularity + (if m.vm.cache = [] then 1 else 0) ≤ Pmm.zoneWeight m.vm.pmm .normal
  tables : 3 * (stackSize / pageGranularity) ≤ m.tables.frames.length
  counts : 15 + envp.length + argv.length ≤ 2147483647

section Exact

variable {id top : Nat} {supply : List Nat} {m : Machine} {stackSize : Nat} {argv envp : List Text} {auxv : Auxv}

theorem setup_returns (consistent : Consistent id top supply m) (fits : FitsStack stackSize argv envp) (room : Room id m stackSize argv envp) :
    ∃ m' sp, x8664SysvStackSetup id top stackSize argv envp auxv m = .ok (m', sp) := by
  have accepted := setup_accepted room.whole fits
  obtain ⟨t, rid, alloc, _⟩ := Vm.region_alloc_supplied (n := 0) consistent.vm.owned (by decide) room.pool
  rcases UserSpace.map_lazy_cases Vm.protRW .standard consistent (by decide) accepted alloc with
    ⟨noPlace, _⟩ | ⟨vm, base, mapped, lazily⟩
  · obtain ⟨a, hole⟩ := room.hole
    rcases noPlace.2 with isFixed | none
    · exact absurd isFixed (not_not_intro (by decide))
    · exact absurd hole (none a)
  · have weight := UserSpace.region_alloc_pages alloc
    have few := room.frames
    have tables := room.tables
    have places := (stack_places fits base).room
    have inside : ∀ write ∈ stackWrites base stackSize argv envp auxv, base ≤ write.1 ∧ write.1 + write.2.length ≤ base + stackSize - 16 :=
      fun write member => stack_writes_inside fits member
    have top47 : Vm.userspaceEnd < 2 ^ 47 := by decide
    have below := lazily.below
    have affords : Vm.Affords (fun m => frameAt top m.tables) UserSpace.spare (base / pageGranularity) ((base + stackSize - 1) / pageGranularity)
        ⟨vm, m.tables⟩ := by
      refine Nat.le_trans (Finset.card_filter_le _ _) ?_
      rw [Nat.card_Icc]
      unfold UserSpace.spare
      dsimp only
      rw [lazily.allocator]
      have aligned := lazily.aligned
      have whole := room.whole
      unfold pageGranularity at *
      omega
    obtain ⟨w, stored⟩ := UserSpace.store_all_returns (stackWrites base stackSize argv envp auxv) (UserSpace.ledger_start lazily.consistent)
      (fun write member => ⟨by have bound := (inside write member).2; omega, fun k short => stack_lazy lazily
        (by have low := (inside write member).1; omega) (by have high := (inside write member).2; omega)⟩)
      (fun write member => Nat.div_le_div_right (inside write member).1)
      (fun write member k short => Nat.div_le_div_right (by have high := (inside write member).2; omega)) affords
    refine ⟨w, stackPointer base stackSize argv envp, ?_⟩
    rw [setup_eq mapped lazily room.whole fits room.counts, stored]
    rfl

-- A run of the function leaves the stack of the ABI where the condition holds, and on stacks of up
-- to four gigabytes only there.
theorem setup_exact {m' : Machine} {sp : Nat} (consistent : Consistent id top supply m) (fits : FitsStack stackSize argv envp)
    (run : x8664SysvStackSetup id top stackSize argv envp auxv m = .ok (m', sp)) :
    ∃ base, Vm.LowestHole (m.vm.space (.process id)) stackSize base ∧
      (Intact top m base stackSize argv envp auxv → InitialStack id top m' base stackSize sp argv envp auxv) ∧
      (stackSize ≤ 2 ^ 32 → InitialStack id top m' base stackSize sp argv envp auxv → Intact top m base stackSize argv envp auxv) := by
  obtain ⟨t, rid, vm, base, alloc, lazily, stored, rfl⟩ := setup_run consistent fits run
  have whole : stackSize % pageGranularity = 0 := by
    unfold x8664SysvStackSetup at run
    rw [bind_eq_ok] at run
    obtain ⟨_, checked, _⟩ := run
    exact assert_ok checked
  have written := stack_written whole fits alloc lazily stored
  have lowest : Vm.LowestHole (m.vm.space (.process id)) stackSize base := by
    refine (lazily.chosen.lowest fun hole => ?_).2
    have bounds := (Vm.segment_in_bounds_iff _ stackSize _ _ (consistent.vm.tidy (.process id)).fits).mp hole.1
    rw [consistent.start] at bounds
    exact absurd bounds.1 (by decide)
  exact ⟨base, lowest, initial_of_intact fits written, fun narrow => intact_of_initial fits narrow written⟩

end Exact

-- A process that has nothing but one free page, and a stack of that size.
theorem fresh_room (argv envp : List Text) (few : argv.length + envp.length ≤ 8) : Room 0 UserSpace.freshMachine 0x1000 argv envp := by
  refine ⟨by decide, ⟨Vm.userspaceStart, by decide, ?_⟩, .inl (by decide), ?_, by decide, by omega⟩
  · intro r member
    cases member
  · exact UserSpace.fresh_machine_started.2

def textA : Text := ⟨[97], by simp⟩
def textB : Text := ⟨[98], by simp⟩

end Elysium.Sysv
