import Elysium.UserCopy

set_option autoImplicit false

namespace Elysium.UserSpace

open Vm (byteIn)
open Ptm (frameAt missingTables stopLevel)

section Backing

variable (id top : Nat)

-- The pages among these that are not there can be brought in, one after the other.
def Backable : List Nat → Machine → Prop
  | [], _ => True
  | v :: rest, m =>
      (frameAt top m.tables (v / pageGranularity) ≠ none ∧ Backable rest m) ∨
        (frameAt top m.tables (v / pageGranularity) = none ∧ ∃ u, fixPage id top m v = .ok (some u) ∧ Backable rest u)

-- The pages among these that have no frame.
def bare (pages : Finset Nat) (m : Machine) : Finset Nat := pages.filter fun P => frameAt top m.tables P = none

-- There is a free page for each of them, and for each table that is missing on the way.
structure Suffices (pages : Finset Nat) (m : Machine) : Prop where
  free : (bare top pages m).card ≤ Pmm.zoneWeight m.vm.pmm .normal
  tables : (missingTables m.tables.memory top (bare top pages m)).card ≤ m.tables.frames.length

end Backing

section Lookup

variable {id top : Nat} {supply : List Nat} {m : Machine} (consistent : Consistent id top supply m)

theorem opens_refl (m : Machine) : Vm.Opens (paging id top) (Served id) (fun m => frameAt top m.tables) m m := ⟨fun at_ => at_, fun at_ => at_, rfl⟩

include consistent

-- A page that has been brought in is there, and the others are as they were.
theorem fix_page_opens {v : Nat} {u : Machine} (absent : frameAt top m.tables (v / pageGranularity) = none)
    (fixed : fixPage id top m v = .ok (some u)) :
    Consistent id top supply u ∧ (∃ f, frameAt top u.tables (v / pageGranularity) = some f) ∧
      Vm.Opens (paging id top) (Served id) (fun m => frameAt top m.tables) m u := by
  obtain ⟨r, member, covers, dynamic⟩ := fix_page_region consistent fixed
  obtain ⟨consistentU, ⟨f, frames⟩, space, memory, _⟩ := fix_page_keeps consistent member covers dynamic fixed
  have framed : ∀ {P g}, frameAt top m.tables P = some g → frameAt top u.tables P = some g := by
    intro P g before
    have other : P ≠ v / pageGranularity := by
      rintro rfl
      rw [absent] at before
      cases before
    rw [frames, Function.update_of_ne other, before]
  refine ⟨consistentU, ⟨f, by rw [frames, Function.update_self]⟩, framed, ?_, ?_⟩
  · intro w b before
    obtain ⟨g, there, read⟩ := Option.map_eq_some_iff.mp before
    change (frameAt top u.tables (w / pageGranularity)).map _ = some b
    rw [framed there, Option.map_some, Option.some.injEq, ← read]
    exact memory _ g _ there (Nat.mod_lt _ (by decide))
  · funext w
    unfold Served
    rw [space]

-- A lookup of a byte in a region: its page is there, or is brought in, or there is no memory for it.
theorem locate_served {v : Nat} (served : Served id m v) (rest : List Nat) :
    (∃ u f, Vm.locate (paging id top) v m = .ok (u, some (byteIn f v)) ∧ Consistent id top supply u ∧
        frameAt top u.tables (v / pageGranularity) = some f ∧ Vm.Opens (paging id top) (Served id) (fun m => frameAt top m.tables) m u ∧
        (Backable id top (v :: rest) m ↔ Backable id top rest u)) ∨
      (∃ fault, Vm.locate (paging id top) v m = .error fault ∧ ¬ Backable id top (v :: rest) m) := by
  have pages := paging_pages id top supply
  cases framed : frameAt top m.tables (v / pageGranularity) with
  | some f =>
      refine .inl ⟨m, f, Vm.locate_present pages consistent served framed, consistent, framed, opens_refl m, ?_⟩
      rw [Backable, framed]
      simp
  | none =>
      have absent : Backable id top (v :: rest) m ↔ ∃ u, fixPage id top m v = .ok (some u) ∧ Backable id top rest u := by
        rw [Backable, framed]
        simp
      have physical := pages.physical consistent served
      rw [framed, Option.map_none] at physical
      unfold Vm.locate
      rw [absent, physical, bind_ok]
      change (∃ u f, (fixPage id top m v >>= _) = _ ∧ _) ∨ (∃ fault, (fixPage id top m v >>= _) = _ ∧ _)
      cases fixed : fixPage id top m v with
      | error fault =>
          refine .inr ⟨fault, rfl, ?_⟩
          rintro ⟨u, run, _⟩
          cases run
      | ok result =>
          obtain ⟨r, member, covers, dynamic⟩ := lazily_backed consistent served framed
          obtain ⟨u, rfl⟩ : ∃ u, result = some u := by
            rw [fix_page_eq consistent member covers dynamic, bind_eq_ok] at fixed
            obtain ⟨_, _, fixed⟩ := fixed
            obtain ⟨_, _, fixed⟩ := (bind_eq_ok _ _ _).mp fixed
            exact ⟨_, (Except.ok.inj fixed).symm⟩
          obtain ⟨consistentU, ⟨f, there⟩, opens⟩ := fix_page_opens consistent framed fixed
          have servedU : Served id u v := opens.served ▸ served
          have found := pages.physical consistentU servedU
          rw [there, Option.map_some] at found
          refine .inl ⟨u, f, ?_, consistentU, there, opens, ?_⟩
          · rw [bind_ok]
            dsimp only
            rw [found]
            rfl
          · constructor
            · rintro ⟨w, same, backable⟩
              rw [Option.some.inj (Except.ok.inj same)]
              exact backable
            · exact fun backable => ⟨u, rfl, backable⟩

omit consistent in
theorem bare_framed {P f : Nat} (pages : Finset Nat) (framed : frameAt top m.tables P = some f) : bare top (insert P pages) m = bare top pages m := by
  rw [bare, Finset.filter_insert, if_neg (by simp [framed]), bare]

omit consistent in
theorem bare_absent {P : Nat} (pages : Finset Nat) (absent : frameAt top m.tables P = none) :
    bare top (insert P pages) m = insert P (bare top pages m) := by
  rw [bare, Finset.filter_insert, if_pos absent, bare]

-- A page that has been brought in has cost its share.
theorem suffices_after {u : Machine} {v : Nat} {pages : Finset Nat} (served : Served id m v) (servedPages : ∀ P ∈ pages, ∃ w, w / pageGranularity = P ∧ Served id m w)
    (other : v / pageGranularity ∉ pages) (absent : frameAt top m.tables (v / pageGranularity) = none)
    (fixed : fixPage id top m v = .ok (some u)) (weight : Pmm.zoneWeight u.vm.pmm .normal + 1 = Pmm.zoneWeight m.vm.pmm .normal)
    (spent : m.tables.frames.length = u.tables.frames.length + (stopLevel m.tables.memory top (Vm.pageFloor v) - 1))
    (stops : ∀ w k, 1 ≤ k → k < Ptm.levelCount → (stopLevel u.tables.memory top w ≤ k ↔
      stopLevel m.tables.memory top w ≤ k ∨ Ptm.SameSlot (k + 1) (Vm.pageFloor v) w)) :
    Suffices top (insert (v / pageGranularity) pages) m ↔ Suffices top pages u := by
  obtain ⟨r, member, covers, dynamic⟩ := fix_page_region consistent fixed
  obtain ⟨f, frames⟩ := (fix_page_keeps consistent member covers dynamic fixed).frame
  have same : bare top pages u = bare top pages m := by
    refine Finset.filter_congr fun P inPages => ?_
    rw [frames, Function.update_of_ne]
    rintro rfl
    exact other inPages
  have fresh : v / pageGranularity ∉ bare top pages m := fun inBare => other (Finset.mem_filter.mp inBare).1
  have lowPage : ∀ w, Served id m w → w / pageGranularity * pageGranularity < 2 ^ 47 := fun w there =>
    Nat.lt_of_le_of_lt (Nat.div_mul_le_self _ _) (served_low consistent there)
  have lower : ∀ P ∈ bare top pages m, P * pageGranularity < 2 ^ 47 := by
    intro P inBare
    obtain ⟨w, rfl, there⟩ := servedPages P (Finset.mem_filter.mp inBare).1
    exact lowPage w there
  have card := Ptm.missing_card (lowPage v served) lower stops
  rw [← same] at card fresh
  constructor
  · rintro ⟨free, tables⟩
    rw [bare_absent pages absent, ← same] at free tables
    rw [Finset.card_insert_of_notMem fresh] at free
    rw [card] at tables
    exact ⟨by omega, by unfold Vm.pageFloor at spent; omega⟩
  · rintro ⟨free, tables⟩
    refine ⟨?_, ?_⟩
    · rw [bare_absent pages absent, ← same, Finset.card_insert_of_notMem fresh]
      omega
    · rw [bare_absent pages absent, ← same, card]
      unfold Vm.pageFloor at spent
      omega

omit consistent in
-- Pages can be brought in one after the other exactly where there is memory for all of them.
theorem backable_iff (vs : List Nat) {m : Machine} (consistent : Consistent id top supply m) (served : ∀ v ∈ vs, Served id m v)
    (apart : (vs.map (· / pageGranularity)).Nodup) : Backable id top vs m ↔ Suffices top (vs.map (· / pageGranularity)).toFinset m := by
  induction vs generalizing m with
  | nil =>
      refine iff_of_true trivial ⟨?_, ?_⟩
      · exact Nat.zero_le _
      · exact Nat.zero_le _
  | cons v rest ih =>
      rw [List.map_cons, List.nodup_cons] at apart
      rw [List.map_cons, List.toFinset_cons, Backable]
      have own := served v List.mem_cons_self
      have others : ∀ w ∈ rest, Served id m w := fun w member => served w (List.mem_cons_of_mem _ member)
      cases framed : frameAt top m.tables (v / pageGranularity) with
      | some f =>
          have same : Suffices top (insert (v / pageGranularity) (rest.map (· / pageGranularity)).toFinset) m ↔
              Suffices top (rest.map (· / pageGranularity)).toFinset m := by
            constructor
            · rintro ⟨free, tables⟩
              rw [bare_framed _ framed] at free tables
              exact ⟨free, tables⟩
            · rintro ⟨free, tables⟩
              exact ⟨by rwa [bare_framed _ framed], by rwa [bare_framed _ framed]⟩
          rw [same, ← ih consistent others apart.2]
          simp
      | none =>
          rw [or_iff_right fun both => both.1 rfl, and_iff_right rfl]
          obtain ⟨r, member, covers, dynamic⟩ := lazily_backed consistent own framed
          rcases fix_page_supply consistent member covers dynamic with ⟨u, fixed, weight, spent, stops⟩ | ⟨short, fault, failed⟩
          · obtain ⟨consistentU, _, opens⟩ := fix_page_opens consistent framed fixed
            have cost := @suffices_after id top supply m consistent u v (rest.map (· / pageGranularity)).toFinset own (fun P inPages => by
              obtain ⟨w, member, same⟩ := List.mem_map.mp (List.mem_toFinset.mp inPages)
              exact ⟨w, same, others w member⟩) (fun inPages => apart.1 (List.mem_toFinset.mp inPages)) framed fixed weight spent stops
            rw [cost, ← ih consistentU (fun w member => opens.served ▸ others w member) apart.2]
            constructor
            · rintro ⟨w, same, backable⟩
              rw [fixed, Except.ok.injEq, Option.some.injEq] at same
              exact same ▸ backable
            · exact fun backable => ⟨u, fixed, backable⟩
          · refine iff_of_false ?_ ?_
            · rintro ⟨u, fixed, _⟩
              rw [failed] at fixed
              cases fixed
            · rintro ⟨free, tables⟩
              have here : v / pageGranularity ∈ bare top (insert (v / pageGranularity) (rest.map (· / pageGranularity)).toFinset) m :=
                Finset.mem_filter.mpr ⟨Finset.mem_insert_self _ _, framed⟩
              have positive := Finset.card_pos.mpr ⟨_, here⟩
              have needed := @Ptm.missing_le m.tables.memory top _ _ here
              unfold Vm.pageFloor at short
              omega

end Lookup

end Elysium.UserSpace
