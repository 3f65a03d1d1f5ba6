import Elysium.SysvStack

set_option autoImplicit false

namespace Elysium.Sysv

open UserSpace (Machine paging storeAll logAll logOf store_all_append)

-- The part of a word that is written.
def lowHalf (value : Nat) : List UInt8 := (qword value).take 4

-- Words from the top down, as they are written.
def wordWrites : List Nat → Nat → List (Nat × List UInt8)
  | [], _ => []
  | value :: rest, stack => (stack - 8, lowHalf value) :: wordWrites rest (stack - 8)

-- The addresses of strings that lie one behind the other.
def addressesFrom : Nat → List Text → List Nat
  | _, [] => []
  | data, text :: rest => data :: addressesFrom (data + text.stored.length) rest

def pushWrites : List Text → Nat → Nat → List (Nat × List UInt8)
  | [], _, _ => []
  | text :: rest, data, stack =>
      (stack - 8, lowHalf data) :: (data, text.stored) :: pushWrites rest (data + text.stored.length) (stack - 8)

def totalLength (texts : List Text) : Nat := (texts.flatMap Text.stored).length

def auxDown (auxv : Auxv) : List Nat :=
  [0, 0, 0, auxvSecure, auxv.entry.toNat, auxvEntry, auxv.phdr.toNat, auxvPhdr, auxv.phent.toNat, auxvPhent, auxv.phnum.toNat, auxvPhnum]

-- All that is written, in order.
def setupWrites (argv envp : List Text) (auxv : Auxv) (argData envData stack : Nat) : List (Nat × List UInt8) :=
  wordWrites (auxDown auxv ++ [0]) stack ++ (pushWrites envp envData (stack - 104) ++
    (wordWrites [0] (stack - 104 - 8 * envp.length) ++ (pushWrites argv argData (stack - 104 - 8 * envp.length - 8) ++
      wordWrites [argv.length] (stack - 104 - 8 * envp.length - 8 - 8 * argv.length))))

theorem qword_length (value : Nat) : (qword value).length = 8 := by simp [qword]

theorem low_half_length (value : Nat) : (lowHalf value).length = 4 := by simp [lowHalf, qword_length]

theorem qword_get (value : Nat) {k : Nat} (small : k < 8) : (qword value)[k]? = some (byteOf value k) := by
  simp [qword, small]

theorem low_half_get (value : Nat) {k : Nat} (small : k < 4) : (lowHalf value)[k]? = some (byteOf value k) := by
  rw [lowHalf, List.getElem?_take_of_lt small, qword_get value (by omega)]

theorem stored_length (text : Text) : text.stored.length = stringLength text + 1 := by simp [Text.stored, stringLength]

theorem total_length_cons (text : Text) (rest : List Text) : totalLength (text :: rest) = text.stored.length + totalLength rest := by
  simp [totalLength]

section Steps

variable {id top : Nat}

-- A step that is nothing but copies, and where it leaves the stack pointer.
def Stores (id top : Nat) (step : Nat → Machine → Except Fault (Nat × Machine)) (stack : Nat) (writes : List (Nat × List UInt8)) (after : Nat) : Prop :=
  ∀ m, step stack m = storeAll id top writes m >>= fun m => .ok (after, m)

theorem stores_then {first next : Nat → Machine → Except Fault (Nat × Machine)} {stack middle after : Nat} {writes more : List (Nat × List UInt8)}
    (one : Stores id top first stack writes middle) (two : Stores id top next middle more after) :
    Stores id top (fun stack m => first stack m >>= fun result => next result.1 result.2) stack (writes ++ more) after := by
  intro m
  dsimp only
  rw [one, store_all_append]
  cases storeAll id top writes m with
  | error fault => rfl
  | ok u => exact two u

theorem write_qword_stores (value : Nat) {stack : Nat} (room : 8 ≤ stack) (fits : stack < 2 ^ 64) :
    Stores id top (writeQword id top value) stack (wordWrites [value] stack) (stack - 8) := by
  intro m
  have copy : Vm.vmCopyTo (paging id top) (stack - 8) _ 4 m = _ := UserSpace.vm_copy_to_take (qword value) m
  unfold writeQword
  rw [sub64_eq room fits]
  dsimp only
  rw [copy, wordWrites, wordWrites, storeAll, low_half_length]
  change _ = (Vm.vmCopyTo (paging id top) (stack - 8) ((qword value).take 4) 4 m >>= _) >>= _
  cases Vm.vmCopyTo (paging id top) (stack - 8) ((qword value).take 4) 4 m with
  | error fault => rfl
  | ok result =>
      obtain ⟨u, count⟩ := result
      rw [bind_ok, bind_ok]
      dsimp only
      cases assertThat (decide (count = 4)) with
      | error fault => rfl
      | ok _ => rfl

theorem write_aux_stores (auxId value : Nat) {stack : Nat} (room : 16 ≤ stack) (fits : stack < 2 ^ 64) :
    Stores id top (writeAux id top auxId value) stack (wordWrites [value, auxId] stack) (stack - 16) :=
  stores_then (write_qword_stores value (by omega) fits) (write_qword_stores auxId (by omega) (by omega))

theorem push_strings_stores (texts : List Text) {data stack : Nat} (room : 8 * texts.length ≤ stack) (fits : stack < 2 ^ 64)
    (inside : data + totalLength texts < 2 ^ 64) :
    Stores id top (pushStrings id top texts data) stack (pushWrites texts data stack) (stack - 8 * texts.length) := by
  induction texts generalizing data stack with
  | nil => exact fun m => rfl
  | cons text rest ih =>
      rw [List.length_cons] at room ⊢
      rw [total_length_cons] at inside
      have later := ih (by omega : 8 * rest.length ≤ stack - 8) (by omega) (by omega : data + text.stored.length + totalLength rest < 2 ^ 64)
      have split : pushWrites (text :: rest) data stack =
          wordWrites [data] stack ++ (data, text.stored) :: pushWrites rest (data + text.stored.length) (stack - 8) := rfl
      intro m
      rw [pushStrings, write_qword_stores data (by omega) fits, split, store_all_append]
      cases storeAll id top (wordWrites [data] stack) m with
      | error fault => rfl
      | ok u =>
          rw [bind_ok, bind_ok, bind_ok]
          dsimp only
          rw [storeAll, ← stored_length]
          cases Vm.vmCopyTo (paging id top) data text.stored text.stored.length u with
          | error fault => rfl
          | ok result =>
              obtain ⟨w, count⟩ := result
              rw [bind_ok, bind_ok]
              dsimp only
              cases assertThat (decide (count = text.stored.length)) with
              | error fault => rfl
              | ok _ =>
                  rw [bind_ok, bind_ok, add64_eq (show data + text.stored.length < 2 ^ 64 by omega), later w,
                    show stack - 8 - 8 * rest.length = stack - 8 * (rest.length + 1) by omega]

theorem write_stack_stores (argv envp : List Text) (auxv : Auxv) {argData envData stack : Nat}
    (room : 8 * (15 + envp.length + argv.length) ≤ stack) (fits : stack < 2 ^ 64) (argInside : argData + totalLength argv < 2 ^ 64)
    (envInside : envData + totalLength envp < 2 ^ 64) :
    Stores id top (writeStack id top argv envp auxv argv.length argData envData) stack (setupWrites argv envp auxv argData envData stack)
      (stack - 8 * (15 + envp.length + argv.length)) := by
  have aux := stores_then (write_aux_stores 0 0 (by omega) fits : Stores id top _ _ _ _)
    (stores_then (write_aux_stores auxvSecure 0 (by omega) (by omega))
    (stores_then (write_aux_stores auxvEntry auxv.entry.toNat (by omega) (by omega))
    (stores_then (write_aux_stores auxvPhdr auxv.phdr.toNat (by omega) (by omega))
    (stores_then (write_aux_stores auxvPhent auxv.phent.toNat (by omega) (by omega))
    (stores_then (write_aux_stores auxvPhnum auxv.phnum.toNat (by omega) (by omega))
    (stores_then (write_qword_stores 0 (by omega) (by omega))
    (stores_then (push_strings_stores envp (by omega) (by omega) envInside)
    (stores_then (write_qword_stores 0 (by omega) (by omega))
    (stores_then (push_strings_stores argv (by omega) (by omega) argInside)
      (write_qword_stores argv.length (by omega) (by omega)))))))))))
  intro m
  have after : stack - 8 * (15 + envp.length + argv.length) =
      stack - 16 - 16 - 16 - 16 - 16 - 16 - 8 - 8 * envp.length - 8 - 8 * argv.length - 8 := by omega
  refine (aux m).trans ?_
  rw [after]
  simp only [setupWrites, auxDown, wordWrites, List.cons_append, List.nil_append, Nat.sub_sub, Nat.reduceAdd]

end Steps

section Places

variable {argv envp : List Text}

-- Words from an address upwards.
def upWords : Nat → List Nat → List (Nat × List UInt8)
  | _, [] => []
  | address, value :: rest => (address, lowHalf value) :: upWords (address + 8) rest

theorem up_words_append (address : Nat) (front back : List Nat) :
    upWords address (front ++ back) = upWords address front ++ upWords (address + 8 * front.length) back := by
  induction front generalizing address with
  | nil => rfl
  | cons value rest ih =>
      rw [List.cons_append, upWords, upWords, ih, List.length_cons, List.cons_append,
        show address + 8 + 8 * rest.length = address + 8 * (rest.length + 1) by omega]

theorem word_writes_perm (values : List Nat) {stack : Nat} (room : 8 * values.length ≤ stack) :
    (wordWrites values stack).Perm (upWords (stack - 8 * values.length) values.reverse) := by
  induction values generalizing stack with
  | nil => exact List.Perm.refl _
  | cons value rest ih =>
      rw [List.length_cons] at room ⊢
      have later := ih (by omega : 8 * rest.length ≤ stack - 8)
      rw [wordWrites, List.reverse_cons, up_words_append, List.length_reverse,
        show stack - 8 * (rest.length + 1) = stack - 8 - 8 * rest.length by omega,
        show stack - 8 - 8 * rest.length + 8 * rest.length = stack - 8 by omega]
      exact (later.cons _).trans (List.perm_append_singleton _ _).symm

theorem addresses_length (data : Nat) (texts : List Text) : (addressesFrom data texts).length = texts.length := by
  induction texts generalizing data with
  | nil => rfl
  | cons text rest ih => simp [addressesFrom, ih]

-- The strings as they are written.
def textWrites (placed : List (Nat × Text)) : List (Nat × List UInt8) := placed.map fun entry => (entry.1, entry.2.stored)

theorem push_writes_perm (texts : List Text) (data : Nat) {stack : Nat} (room : 8 * texts.length ≤ stack) :
    (pushWrites texts data stack).Perm
      (upWords (stack - 8 * texts.length) (addressesFrom data texts).reverse ++ textWrites ((addressesFrom data texts).zip texts)) := by
  induction texts generalizing data stack with
  | nil => exact List.Perm.refl _
  | cons text rest ih =>
      rw [List.length_cons] at room ⊢
      have later := ih (data + text.stored.length) (by omega : 8 * rest.length ≤ stack - 8)
      rw [pushWrites, addressesFrom, List.reverse_cons, up_words_append, List.length_reverse, List.zip_cons_cons, textWrites, List.map_cons,
        addresses_length, show stack - 8 * (rest.length + 1) = stack - 8 - 8 * rest.length by omega,
        show stack - 8 - 8 * rest.length + 8 * rest.length = stack - 8 by omega, List.append_assoc]
      refine ((later.cons _).cons _).trans ?_
      exact (List.perm_middle.symm.cons _).trans List.perm_middle.symm

-- The stack words as they come to stand.
def writtenWords (argv envp : List Text) (auxv : Auxv) (argData envData : Nat) : List Nat :=
  stackWords argv.length (addressesFrom argData argv).reverse (addressesFrom envData envp).reverse auxv

theorem written_words_length (argv envp : List Text) (auxv : Auxv) (argData envData : Nat) :
    (writtenWords argv envp auxv argData envData).length = 15 + envp.length + argv.length := by
  simp [writtenWords, stackWords, auxWords, auxPairs, addresses_length]
  omega

theorem setup_writes_perm (argv envp : List Text) (auxv : Auxv) (argData envData : Nat) {stack : Nat}
    (room : 8 * (15 + envp.length + argv.length) ≤ stack) :
    (setupWrites argv envp auxv argData envData stack).Perm
      (upWords (stack - 8 * (15 + envp.length + argv.length)) (writtenWords argv envp auxv argData envData) ++
        textWrites (placedStrings argv envp (addressesFrom argData argv) (addressesFrom envData envp))) := by
  have aux := word_writes_perm (auxDown auxv ++ [0]) (by simp [auxDown]; omega : _ ≤ stack)
  have env := push_writes_perm envp envData (by omega : _ ≤ stack - 104)
  have arg := push_writes_perm argv argData (by omega : _ ≤ stack - 104 - 8 * envp.length - 8)
  have auxUp : (auxDown auxv ++ [0]).reverse = 0 :: auxWords auxv := rfl
  have auxLength : (auxDown auxv ++ [0]).length = 13 := rfl
  rw [auxUp, auxLength, show 8 * 13 = 104 from rfl] at aux
  have words : upWords (stack - 8 * (15 + envp.length + argv.length)) (writtenWords argv envp auxv argData envData) =
      wordWrites [argv.length] (stack - 104 - 8 * envp.length - 8 - 8 * argv.length) ++
        (upWords (stack - 104 - 8 * envp.length - 8 - 8 * argv.length) (addressesFrom argData argv).reverse ++
          (wordWrites [0] (stack - 104 - 8 * envp.length) ++
            (upWords (stack - 104 - 8 * envp.length) (addressesFrom envData envp).reverse ++ upWords (stack - 104) (0 :: auxWords auxv)))) := by
    rw [writtenWords, stackWords, upWords, up_words_append, upWords, up_words_append, List.length_reverse, List.length_reverse, addresses_length,
      addresses_length, show stack - 8 * (15 + envp.length + argv.length) = stack - 104 - 8 * envp.length - 8 - 8 * argv.length - 8 by omega,
      show stack - 104 - 8 * envp.length - 8 - 8 * argv.length - 8 + 8 = stack - 104 - 8 * envp.length - 8 - 8 * argv.length by omega,
      show stack - 104 - 8 * envp.length - 8 - 8 * argv.length + 8 * argv.length = stack - 104 - 8 * envp.length - 8 by omega,
      show stack - 104 - 8 * envp.length - 8 + 8 = stack - 104 - 8 * envp.length by omega,
      show stack - 104 - 8 * envp.length + 8 * envp.length = stack - 104 by omega]
    rfl
  have strings : textWrites (placedStrings argv envp (addressesFrom argData argv) (addressesFrom envData envp)) =
      textWrites ((addressesFrom argData argv).zip argv) ++ textWrites ((addressesFrom envData envp).zip envp) := List.map_append
  rw [words, strings, setupWrites, List.perm_iff_count]
  intro write
  have auxCount := aux.count_eq write
  have envCount := env.count_eq write
  have argCount := arg.count_eq write
  simp only [List.count_append] at auxCount envCount argCount ⊢
  omega

theorem up_words_mem {address : Nat} {values : List Nat} {write : Nat × List UInt8} :
    write ∈ upWords address values ↔ ∃ i value, values[i]? = some value ∧ write = (address + 8 * i, lowHalf value) := by
  induction values generalizing address with
  | nil => simp [upWords]
  | cons first rest ih =>
      rw [upWords, List.mem_cons, ih]
      constructor
      · rintro (rfl | ⟨i, value, at_, rfl⟩)
        · exact ⟨0, first, rfl, rfl⟩
        · exact ⟨i + 1, value, at_, by rw [show address + 8 + 8 * i = address + 8 * (i + 1) by omega]⟩
      · rintro ⟨i, value, at_, rfl⟩
        cases i with
        | zero =>
            obtain rfl := Option.some.inj at_
            exact .inl rfl
        | succ i => exact .inr ⟨i, value, at_, by rw [show address + 8 + 8 * i = address + 8 * (i + 1) by omega]⟩

-- The strings lie between data and its end, in order.
theorem addresses_mem {data : Nat} {texts : List Text} {placed : Nat × Text} (member : placed ∈ (addressesFrom data texts).zip texts) :
    data ≤ placed.1 ∧ placed.1 + placed.2.stored.length ≤ data + totalLength texts := by
  induction texts generalizing data with
  | nil => simp [addressesFrom] at member
  | cons text rest ih =>
      rw [addressesFrom, List.zip_cons_cons, List.mem_cons] at member
      rw [total_length_cons]
      rcases member with rfl | later
      · exact ⟨Nat.le_refl _, by dsimp only; omega⟩
      · obtain ⟨low, high⟩ := ih later
        omega

-- Two pieces of memory that share no byte.
def Separate (p q : Nat × List UInt8) : Prop := Apart p.1 p.2.length q.1 q.2.length

instance : Std.Symm Separate := ⟨fun _ _ apart => Or.symm apart⟩

theorem addresses_pairwise (data : Nat) (texts : List Text) :
    (textWrites ((addressesFrom data texts).zip texts)).Pairwise Separate := by
  induction texts generalizing data with
  | nil => exact List.Pairwise.nil
  | cons text rest ih =>
      rw [addressesFrom, List.zip_cons_cons, textWrites, List.map_cons, List.pairwise_cons]
      refine ⟨fun write member => ?_, ih _⟩
      obtain ⟨placed, inside, rfl⟩ := List.mem_map.mp member
      exact .inl (addresses_mem inside).1

theorem up_words_pairwise (address : Nat) (values : List Nat) : (upWords address values).Pairwise Separate := by
  induction values generalizing address with
  | nil => exact List.Pairwise.nil
  | cons value rest ih =>
      rw [upWords, List.pairwise_cons]
      refine ⟨fun write member => ?_, ih _⟩
      obtain ⟨i, other, _, rfl⟩ := up_words_mem.mp member
      refine .inl ?_
      dsimp only
      rw [low_half_length]
      omega

theorem strings_pairwise (argv : List Text) {argData envData : Nat} (below : envData + totalLength envp ≤ argData) :
    (textWrites (placedStrings argv envp (addressesFrom argData argv) (addressesFrom envData envp))).Pairwise Separate := by
  rw [placedStrings, textWrites, List.map_append, List.pairwise_append]
  refine ⟨addresses_pairwise _ _, addresses_pairwise _ _, fun first memberF second memberS => ?_⟩
  obtain ⟨arg, insideArg, rfl⟩ := List.mem_map.mp memberF
  obtain ⟨env, insideEnv, rfl⟩ := List.mem_map.mp memberS
  have low := (addresses_mem insideArg).1
  have high := (addresses_mem insideEnv).2
  refine .inr ?_
  dsimp only
  omega

-- The strings all lie above the words.
theorem strings_above {argData envData : Nat} (below : envData + totalLength envp ≤ argData) {placed : Nat × Text}
    (member : placed ∈ placedStrings argv envp (addressesFrom argData argv) (addressesFrom envData envp)) :
    envData ≤ placed.1 ∧ placed.1 + placed.2.stored.length ≤ argData + totalLength argv := by
  rcases List.mem_append.mp member with inArgs | inEnvs
  · obtain ⟨low, high⟩ := addresses_mem inArgs
    omega
  · obtain ⟨low, high⟩ := addresses_mem inEnvs
    omega

theorem setup_writes_pairwise (auxv : Auxv) {argData envData stack : Nat} (room : 8 * (15 + envp.length + argv.length) ≤ stack)
    (above : stack ≤ envData) (below : envData + totalLength envp ≤ argData) :
    (setupWrites argv envp auxv argData envData stack).Pairwise Separate := by
  rw [(setup_writes_perm argv envp auxv _ _ room).pairwise_iff (R := Separate) (fun apart => Or.symm apart), List.pairwise_append]
  refine ⟨up_words_pairwise _ _, strings_pairwise argv below, fun word memberW string memberS => ?_⟩
  obtain ⟨i, value, at_, rfl⟩ := up_words_mem.mp memberW
  obtain ⟨placed, inside, rfl⟩ := List.mem_map.mp memberS
  have low := (strings_above below inside).1
  obtain ⟨short, _⟩ := List.getElem?_eq_some_iff.mp at_
  rw [written_words_length] at short
  refine .inl ?_
  dsimp only
  rw [low_half_length]
  omega

end Places

section Logs

open UserSpace (Log log_of_mem)

theorem log_all_mem {writes : List (Nat × List UInt8)} {a : Nat} {byte : UInt8} :
    (a, byte) ∈ logAll writes ↔ ∃ write ∈ writes, ∃ k, write.2[k]? = some byte ∧ a = write.1 + k := by
  induction writes with
  | nil => simp [logAll]
  | cons write rest ih =>
      obtain ⟨dest, src⟩ := write
      rw [logAll, List.mem_append, ih, log_of_mem]
      simp only [List.exists_mem_cons_iff]
      exact Or.comm

theorem lookup_unique {log : Log} {a : Nat} {byte : UInt8} (member : (a, byte) ∈ log) (only : ∀ other, (a, other) ∈ log → other = byte) :
    log.lookup a = some byte := by
  induction log with
  | nil => cases member
  | cons entry rest ih =>
      obtain ⟨b, other⟩ := entry
      rw [List.lookup_cons]
      by_cases same : a = b
      · subst same
        rw [beq_self_eq_true, only other List.mem_cons_self]
      · rw [beq_eq_false_iff_ne.mpr same]
        refine ih ?_ fun other later => only other (List.mem_cons_of_mem _ later)
        rcases List.mem_cons.mp member with clash | later
        · exact absurd (Prod.mk.inj clash).1 same
        · exact later

-- Where no two writes share a byte, each of them is found again.
theorem lookup_write {writes : List (Nat × List UInt8)} (separate : writes.Pairwise Separate) {write : Nat × List UInt8} (member : write ∈ writes)
    {k : Nat} {byte : UInt8} (at_ : write.2[k]? = some byte) : (logAll writes).lookup (write.1 + k) = some byte := by
  refine lookup_unique (log_all_mem.mpr ⟨write, member, k, at_, rfl⟩) fun other entered => ?_
  obtain ⟨second, memberS, j, atS, same⟩ := log_all_mem.mp entered
  obtain ⟨short, _⟩ := List.getElem?_eq_some_iff.mp at_
  obtain ⟨shortS, _⟩ := List.getElem?_eq_some_iff.mp atS
  have equal : second = write := by
    by_contra different
    have apart := separate.forall memberS member different
    unfold Separate Apart at apart
    omega
  subst equal
  obtain rfl : k = j := by omega
  exact Option.some.inj (atS.symm.trans at_)

end Logs

end Elysium.Sysv
