import Elysium.ElfSegment

set_option autoImplicit false

namespace Elysium.Elf

open UserSpace (Machine Consistent KernelSpace Roomy SameMap ShowsByte paging spare seen)
open Vm (userspaceStart userspaceEnd byteIn)
open Ptm (frameAt)

-- A program header, as it stands in the file.
def headerAt (contents : List UInt8) (elf : ElfFile) (i : Nat) : ProgramHeader :=
  ProgramHeader.parse ((contents.drop (elf.offset + i * elf.entrySize)).take programHeaderSize)

-- The PT_LOAD segments, in the order of the table.
def loads (contents : List UInt8) (elf : ElfFile) : List ProgramHeader :=
  ((List.range elf.count).map (headerAt contents elf)).filter fun phdr => phdr.type = ptLoad

def TableInside (contents : List UInt8) (elf : ElfFile) : Prop :=
  ∀ i < elf.count, elf.offset + i * elf.entrySize + programHeaderSize ≤ contents.length

-- One segment after the other.
def loadAll (id top : Nat) (file : VfsNode) : List ProgramHeader → Machine → Except Fault (Machine × Except ElfError Unit)
  | [], m => .ok (m, .ok ())
  | phdr :: rest, m => do
      let (m, result) ← loadSegment id top file phdr m
      match result with
      | .error error => .ok (m, .error error)
      | .ok () => loadAll id top file rest m

section Table

variable {id top : Nat} {contents : List UInt8} {elf : ElfFile}

theorem check_passed {ε α : Type} {failing : Prop} [Decidable failing] {error : ε} {rest : Except ε α} {result : α}
    (accepted : (if failing then .error error else rest) = .ok result) : rest = .ok result := by
  by_cases failed : failing
  · rw [if_pos failed] at accepted
    cases accepted
  · rwa [if_neg failed] at accepted

theorem elf_read_file {file : VfsNode} (accepted : elfRead file = .ok elf) : elf.file = file := by
  unfold elfRead at accepted
  replace accepted := check_passed accepted
  cases attr : file.attr with
  | error fault =>
      rw [attr] at accepted
      cases accepted
  | ok size =>
      rw [attr] at accepted
      replace accepted := check_passed accepted
      cases bytes : file.read 0 fileHeaderSize with
      | error fault =>
          rw [bytes] at accepted
          cases accepted
      | ok bytes =>
          rw [bytes] at accepted
          -- What is left are the checks on the fields of the header.
          repeat replace accepted := check_passed accepted
          rw [← Except.ok.inj accepted]

theorem read_phdr_eq (serves : Serves elf.file contents) (table : TableInside contents elf) {i : Nat} (short : i < elf.count) :
    readPhdr elf i = some (headerAt contents elf i) := by
  have inside := table i short
  have size := serves.size
  have length : ((contents.drop (elf.offset + i * elf.entrySize)).take programHeaderSize).length = programHeaderSize := by
    rw [List.length_take, List.length_drop]
    omega
  unfold readPhdr
  rw [add64_eq (by omega), serves.read _ _ inside]
  dsimp only
  rw [if_neg (not_not_intro length)]
  rfl

theorem load_from_eq (serves : Serves elf.file contents) (table : TableInside contents elf) (left i : Nat) (total : i + left = elf.count)
    (m : Machine) :
    loadFrom id top elf left i m =
      loadAll id top elf.file (((List.range' i left).map (headerAt contents elf)).filter fun phdr => phdr.type = ptLoad) m := by
  induction left generalizing i m with
  | zero => rfl
  | succ left ih =>
      rw [loadFrom, read_phdr_eq serves table (by omega), List.range'_succ, List.map_cons]
      dsimp only
      have later := ih (i + 1) (by omega)
      by_cases isLoad : (headerAt contents elf i).type = ptLoad
      · rw [if_pos isLoad, List.filter_cons, if_pos (decide_eq_true isLoad), loadAll]
        apply bind_congr
        rintro ⟨m, outcome⟩
        cases outcome with
        | error error => rfl
        | ok done => exact later m
      · rw [if_neg isLoad, List.filter_cons, if_neg (by simpa using isLoad), later]

theorem elf_load_eq (serves : Serves elf.file contents) (table : TableInside contents elf) (m : Machine) :
    elfLoad id top elf m = loadAll id top elf.file (loads contents elf) m := by
  rw [elfLoad, load_from_eq serves table elf.count 0 (Nat.zero_add _), loads, List.range_eq_range']

end Table

-- Page-rounded ranges that have no address in common.
def ProgramHeader.Apart (first second : ProgramHeader) : Prop := first.stop ≤ second.start ∨ second.stop ≤ first.start

-- The pages of the segments together.
def allPages : List ProgramHeader → Finset Nat
  | [] => ∅
  | phdr :: rest => phdr.pages ∪ allPages rest

-- What loading needs besides these pages: the pages of a buffer, and one for the pool at every region.
def expense (phdrs : List ProgramHeader) : Nat := (phdrs.map fun phdr => phdr.bufferPages + 2).sum

-- The segments are there, and the rest of the space is as it was.
structure AllLoaded (id top : Nat) (supply : List Nat) (contents : List UInt8) (phdrs : List ProgramHeader) (m m' : Machine) : Prop where
  consistent : Consistent id top supply m'
  maps : ∀ a v, Vm.Maps (m'.vm.space (.process id)).regions a v ↔ Vm.Maps (m.vm.space (.process id)).regions a v ∨
    ∃ phdr ∈ phdrs, phdr.Inside a ∧ v = phdr.attributes
  others : ∀ {P}, (∀ phdr ∈ phdrs, P ∉ phdr.pages) → frameAt top m'.tables P = frameAt top m.tables P
  bytes : ∀ {a f}, (∀ phdr ∈ phdrs, ¬ phdr.Inside a) → frameAt top m.tables (a / pageGranularity) = some f →
    m'.vm.pmm.memory (byteIn f a) = m.vm.pmm.memory (byteIn f a)
  image : ∀ phdr ∈ phdrs, ∀ a, phdr.Inside a → ShowsByte id top m' a (imageByte contents phdr a)
  cached : phdrs.length < m.vm.cache.length → SameMap m.vm m'.vm

section Run

variable {id top : Nat} {supply : List Nat} {contents : List UInt8} {m : Machine}

theorem apart_outside {first second : ProgramHeader} (apart : first.Apart second) {a : Nat} (inside : second.Inside a) : ¬ first.Inside a := by
  unfold ProgramHeader.Apart at apart
  unfold ProgramHeader.Inside at *
  omega

-- Loading a segment does not take the place of another.
theorem loaded_vacant {n : Nat} {phdr : ProgramHeader} {m' : Machine} (loaded : Loaded id top supply n contents phdr m m') {a : Nat}
    (outside : ¬ phdr.Inside a) (vacant : Vacant id top m a) : Vacant id top m' a := by
  refine ⟨?_, ?_⟩
  · rintro ⟨r, member, covers⟩
    rcases (loaded.maps a _).mp ⟨r, member, covers, rfl⟩ with ⟨old, memberOld, coversOld, _⟩ | ⟨inside, _⟩
    · exact vacant.1 ⟨old, memberOld, coversOld⟩
    · exact outside inside
  · rw [loaded.others fun member => outside ((inside_iff a).mpr member)]
    exact vacant.2

-- A byte that is shown is still shown after segments were loaded elsewhere.
theorem loaded_shows {phdrs : List ProgramHeader} {phdr : ProgramHeader} {m' : Machine} (rest : AllLoaded id top supply contents phdrs m m')
    {a : Nat} {byte : UInt8} (mapped : Vm.Maps (m.vm.space (.process id)).regions a phdr.attributes)
    (outside : ∀ other ∈ phdrs, ¬ other.Inside a) (shown : ShowsByte id top m a byte) : ShowsByte id top m' a byte := by
  have frame := rest.others (P := a / pageGranularity) fun other member inside => outside other member ((inside_iff a).mpr inside)
  refine ⟨segment_lazy ((rest.maps a _).mpr (.inl mapped)), fun framed => ?_, fun absent => shown.absent (frame ▸ absent)⟩
  rw [frame] at framed
  rw [rest.bytes outside framed]
  exact shown.framed framed

theorem load_all_loaded {file : VfsNode} (serves : Serves file contents) {U : Finset Nat} (phdrs : List ProgramHeader)
    (fits : ∀ phdr ∈ phdrs, Fits contents phdr) (apart : phdrs.Pairwise ProgramHeader.Apart)
    (free : ∀ phdr ∈ phdrs, ∀ a, phdr.Inside a → Vacant id top m a) (inU : ∀ phdr ∈ phdrs, phdr.pages ⊆ U)
    (consistent : Consistent id top supply m) (kernel : KernelSpace m.vm) (roomy : Roomy (m.vm.space .global) (expense phdrs))
    (reserve : Reserve top U (expense phdrs) m) :
    ∃ m', loadAll id top file phdrs m = .ok (m', .ok ()) ∧ Reserve top U 0 m' ∧ AllLoaded id top supply contents phdrs m m' := by
  induction phdrs generalizing m with
  | nil =>
      refine ⟨m, rfl, reserve, consistent, fun a v => ?_, fun _ => rfl, fun _ _ => rfl, fun phdr member => absurd member List.not_mem_nil,
        fun _ => UserSpace.same_map_refl _⟩
      simp
  | cons phdr rest ih =>
      have cost : expense (phdr :: rest) = phdr.bufferPages + 2 + expense rest := by rw [expense, List.map_cons, List.sum_cons, expense]
      rw [cost] at roomy reserve
      rw [List.pairwise_cons] at apart
      have own : phdr ∈ phdr :: rest := List.mem_cons_self
      have later : ∀ {other}, other ∈ rest → other ∈ phdr :: rest := List.mem_cons_of_mem _
      obtain ⟨u, loadedRun, reserveU, loaded⟩ := segment_loaded serves (fits phdr own) consistent kernel (free phdr own) roomy (inU phdr own) reserve
      obtain ⟨m', run, reserve', all⟩ := ih (fun other member => fits other (later member)) apart.2
        (fun other member a inside => loaded_vacant loaded (apart_outside (apart.1 other member) inside) (free other (later member) a inside))
        (fun other member => inU other (later member)) loaded.consistent loaded.kernel loaded.roomy reserveU
      refine ⟨m', ?_, reserve', all.consistent, fun a v => ?_, fun {P} missing => ?_, fun {a f} outside framed => ?_, fun other member a inside => ?_,
        fun cached => ?_⟩
      · rw [loadAll, loadedRun, bind_ok]
        exact run
      · rw [all.maps, loaded.maps, or_assoc, List.exists_mem_cons_iff]
      · rw [all.others fun other member => missing other (later member), loaded.others (missing phdr own)]
      · have same := loaded.others fun member => outside phdr own ((inside_iff a).mpr member)
        rw [all.bytes (fun other member => outside other (later member)) (same.trans framed), loaded.bytes (outside phdr own) framed]
      · rcases List.mem_cons.mp member with rfl | inRest
        · refine loaded_shows all ((loaded.maps a _).mpr (.inr ⟨inside, rfl⟩)) (fun second inRest inSecond => ?_) (loaded.image a inside)
          exact apart_outside (apart.1 second inRest) inSecond inside
        · exact all.image other inRest a inside
      · rw [List.length_cons] at cached
        obtain ⟨same, fewer⟩ := loaded.cached (by omega)
        exact UserSpace.same_map_trans same (all.cached (by omega))

end Run

-- The segments have their bytes in the file, and a place of their own in the user address space.
structure Loadable (id top : Nat) (contents : List UInt8) (phdrs : List ProgramHeader) (m : Machine) : Prop where
  fits : ∀ phdr ∈ phdrs, Fits contents phdr
  apart : phdrs.Pairwise ProgramHeader.Apart
  free : ∀ phdr ∈ phdrs, ∀ a, phdr.Inside a → Vacant id top m a

-- Memory for the pages of the segments, for the buffers and for the pool, and addresses for the last two.
structure Room (phdrs : List ProgramHeader) (m : Machine) : Prop where
  memory : (phdrs.map fun phdr => phdr.pages.card + phdr.bufferPages + 2).sum ≤ spare m
  addresses : Roomy (m.vm.space .global) (expense phdrs)

-- The image of a program, in a space that was otherwise left alone.
structure ProgramImage (id top : Nat) (contents : List UInt8) (phdrs : List ProgramHeader) (m m' : Machine) : Prop where
  reads : ∀ phdr ∈ phdrs, ∀ a count, phdr.start ≤ a → a + count ≤ phdr.stop →
    ∃ m'', Vm.vmCopyFrom (paging id top) a count m' = .ok (m'', (List.range count).map fun k => imageByte contents phdr (a + k), count)
  protection : ∀ phdr ∈ phdrs, ∀ a, phdr.Inside a → ∃ v, Vm.Maps (m'.vm.space (.process id)).regions a v ∧
    v.protection = ⟨true, phdr.flags &&& pfW ≠ 0, phdr.flags &&& pfX ≠ 0⟩
  regions : ∀ a, (∀ phdr ∈ phdrs, ¬ phdr.Inside a) → ∀ v, Vm.Maps (m'.vm.space (.process id)).regions a v ↔ Vm.Maps (m.vm.space (.process id)).regions a v
  frames : ∀ a, (∀ phdr ∈ phdrs, ¬ phdr.Inside a) → frameAt top m'.tables (a / pageGranularity) = frameAt top m.tables (a / pageGranularity)
  bytes : ∀ a, (∀ phdr ∈ phdrs, ¬ phdr.Inside a) → seen id top m' a = seen id top m a
  kernel : phdrs.length < m.vm.cache.length → SameMap m.vm m'.vm

section Image

variable {id top : Nat} {supply : List Nat} {contents : List UInt8} {m : Machine}

theorem all_pages_covers {phdrs : List ProgramHeader} {phdr : ProgramHeader} (member : phdr ∈ phdrs) : phdr.pages ⊆ allPages phdrs := by
  induction phdrs with
  | nil => cases member
  | cons first rest ih =>
      rw [allPages]
      rcases List.mem_cons.mp member with rfl | inRest
      · exact Finset.subset_union_left
      · exact (ih inRest).trans Finset.subset_union_right

theorem all_pages_card (phdrs : List ProgramHeader) :
    expense phdrs + (allPages phdrs).card ≤ (phdrs.map fun phdr => phdr.pages.card + phdr.bufferPages + 2).sum := by
  induction phdrs with
  | nil => simp [expense, allPages]
  | cons phdr rest ih =>
      have both := Finset.card_union_le phdr.pages (allPages rest)
      rw [expense] at ih ⊢
      rw [allPages, List.map_cons, List.sum_cons, List.map_cons, List.sum_cons]
      omega

theorem room_reserve {phdrs : List ProgramHeader} (room : Room phdrs m) : Reserve top (allPages phdrs) (expense phdrs) m := by
  have fewer := Finset.card_filter_le (allPages phdrs) fun P => frameAt top m.tables P = none
  have enough := room.memory
  have total := all_pages_card phdrs
  unfold Reserve
  omega

theorem segment_read {phdrs : List ProgramHeader} {m' : Machine} (all : AllLoaded id top supply contents phdrs m m') {U : Finset Nat}
    (reserve : Reserve top U 0 m') {phdr : ProgramHeader} (member : phdr ∈ phdrs) (inU : phdr.pages ⊆ U) (fits : Fits contents phdr) {a count : Nat}
    (above : phdr.start ≤ a) (below : a + count ≤ phdr.stop) :
    ∃ m'', Vm.vmCopyFrom (paging id top) a count m' = .ok (m'', (List.range count).map fun k => imageByte contents phdr (a + k), count) := by
  obtain ⟨_, _, _, _, high⟩ := segment_bounds fits
  have length : ((List.range count).map fun k => imageByte contents phdr (a + k)).length = count := by simp
  have affords : Vm.Affords (fun m : Machine => frameAt top m.tables) spare (a / pageGranularity) ((a + count - 1) / pageGranularity) m' := by
    refine reserve_affords reserve fun P from_ upTo => inU ?_
    have real := fits.above
    rw [← Nat.mul_div_cancel P (show 0 < pageGranularity by decide), ← inside_iff]
    unfold ProgramHeader.Inside ProgramHeader.start ProgramHeader.stop userspaceStart pageGranularity at *
    omega
  have shown : ∀ k < count, ShowsByte id top m' (a + k) (imageByte contents phdr (a + k)) := fun k short =>
    all.image phdr member _ ⟨by omega, by omega⟩
  obtain ⟨m'', run⟩ := Vm.vm_copy_from_shown (UserSpace.lazy_pages id top supply Pmm.flagZero) (UserSpace.shows_lazily id top supply)
    ((List.range count).map fun k => imageByte contents phdr (a + k))
    all.consistent (by omega) (fun k short => (shown k (by omega)).there) (Nat.le_refl _) (fun k short => Nat.div_le_div_right (by omega))
    affords (fun k short => by
      rw [List.getElem_map, List.getElem_range]
      exact shown k (by omega))
  rw [length] at run
  exact ⟨m'', run⟩

end Image

section Loader

-- Memory of sixteen pages: twelve are set aside for tables, four are free.
def loaderRegion : Pmm.Region := ⟨0x1000000, 0x10000, by decide, by decide, by decide⟩

def loaderTables : List Nat := (List.range 12).map fun k => (0x1000 + k) * pageGranularity

def loaderFree : List Nat := [0x100C, 0x100D, 0x100E, 0x100F]

theorem free_pages_stock {c : Pmm.Config} {layout : Dyadic.Layout} (inv : Pmm.Inv c layout) (pages : List Nat) (nodup : pages.Nodup)
    (normal : ∀ h ∈ pages, Pmm.holder h = .normal) (live : ∀ h ∈ pages, ⟨h, 0, .normal⟩ ∈ c.live) :
    ∃ s next rest, pages.foldlM (fun s h => Pmm.pmmFree h s) c.pmm = .ok s ∧ Pmm.Inv ⟨s, c.regions, rest⟩ next ∧
      (∀ b ∈ c.live, b.head ∉ pages → b ∈ rest) ∧ Pmm.zoneWeight s .normal = Pmm.zoneWeight c.pmm .normal + pages.length := by
  induction pages generalizing c layout with
  | nil => exact ⟨c.pmm, layout, c.live, rfl, inv, fun b member _ => member, rfl⟩
  | cons h rest ih =>
      rw [List.nodup_cons] at nodup
      have own := live h List.mem_cons_self
      obtain ⟨s, _, freed, _, _, _, _, _, _, _, weights⟩ := Pmm.pmm_free_spec inv.tracks inv.canonical 0 h ((inv.live _).mp own).1
      obtain ⟨next, invS⟩ := Pmm.free_inv inv _ own s freed
      have liveS : ∀ k ∈ rest, ⟨k, 0, .normal⟩ ∈ c.live.erase ⟨h, 0, .normal⟩ := by
        intro k member
        refine (List.mem_erase_of_ne fun same => ?_).mpr (live k (List.mem_cons_of_mem _ member))
        rw [Pmm.Run.mk.injEq] at same
        exact nodup.1 (same.1 ▸ member)
      obtain ⟨u, last, left, run, invU, kept, weight⟩ := ih (c := ⟨s, c.regions, c.live.erase ⟨h, 0, .normal⟩⟩) invS nodup.2
        (fun k member => normal k (List.mem_cons_of_mem _ member)) liveS
      have one := weights .normal
      rw [normal h List.mem_cons_self, if_pos rfl] at one
      refine ⟨u, last, left, ?_, invU, fun b member outside => ?_, ?_⟩
      · rw [List.foldlM_cons, freed, bind_ok, run]
      · rw [List.mem_cons, not_or] at outside
        refine kept b ((List.mem_erase_of_ne ?_).mpr member) outside.2
        rintro rfl
        exact outside.1 rfl
      · rw [List.length_cons]
        dsimp only at weight
        omega

def loaderMachine (pmm : Pmm.State) (cache : List Nat) : Machine := ⟨{ Vm.freshState cache with pmm := pmm }, Ptm.blankState loaderTables⟩

structure LoaderMemory (pmm : Pmm.State) : Prop where
  stock : Pmm.Stock pmm fun p => p * pageGranularity ∈ loaderTables
  weight : Pmm.zoneWeight pmm .normal = 4

theorem loader_memory : ∃ pmm, LoaderMemory pmm := by
  have booted := Pmm.Reachable.boot Pmm.blankState rfl
  obtain ⟨s, added, lists, _⟩ := Pmm.region_add_returns loaderRegion Pmm.blankState fun _ => ⟨rfl, rfl⟩
  have filled := Pmm.Reachable.regionAdd _ loaderRegion s booted (by simp) added
  obtain ⟨layout, inv⟩ := Pmm.reachable_inv _ filled
  have blocks : Pmm.regionBlocks loaderRegion ++ [] = (List.range 16).map fun k => ⟨0x1000 + k, 0, .normal⟩ := by decide
  rw [blocks] at inv
  obtain ⟨u, next, rest, freed, invU, kept, weight⟩ := free_pages_stock inv loaderFree (by decide) (by decide)
    (show ∀ h ∈ loaderFree, ⟨h, 0, .normal⟩ ∈ (List.range 16).map fun k => (⟨0x1000 + k, 0, .normal⟩ : Pmm.Run) by decide)
  refine ⟨u, ⟨[loaderRegion], rest, next, invU, ?_, fun p reserved => ?_⟩, ?_⟩
  · intro r member
    obtain rfl := List.mem_singleton.mp member
    decide
  · obtain ⟨k, small, same⟩ := List.mem_map.mp reserved
    obtain rfl : 0x1000 + k = p := Nat.eq_of_mul_eq_mul_right (by decide) same
    have below := List.mem_range.mp small
    refine ⟨⟨0x1000 + k, 0, .normal⟩, kept _ (List.mem_map.mpr ⟨k, List.mem_range.mpr (by omega), rfl⟩) fun among => ?_, Nat.le_refl _,
      Nat.lt_succ_self _⟩
    simp only [loaderFree, List.mem_cons, List.not_mem_nil, or_false] at among
    omega
  · rw [weight]
    change Pmm.freeWeight (s.zone .normal).lists + 4 = 4
    rw [(lists .normal).1]
    rfl

theorem loader_machine_ready {pmm : Pmm.State} (memory : LoaderMemory pmm) (cache : List Nat) (nodup : cache.Nodup) (bound : ∀ id ∈ cache, id < 100) :
    UserSpace.Started 0 0x1000 loaderTables (loaderMachine pmm cache) ∧ KernelSpace (loaderMachine pmm cache).vm := by
  have blank : Ptm.Blank 0x1000 (Ptm.blankState loaderTables) := ⟨by decide, fun _ _ => rfl, by decide, by decide, by decide⟩
  have sound := Vm.started_sound (Vm.fresh_started cache nodup bound)
  refine ⟨⟨⟨Vm.owned_congr sound.owned rfl rfl rfl, sound.tidy, sound.aligned⟩, rfl, rfl, rfl, Ptm.blank_sound blank,
    fun v _ => Ptm.blank_walk blank v, fun page member => member, memory.stock⟩, rfl, fun r member => ?_⟩
  cases member

-- A file with one byte to load, at an address inside a page.
def oneSegment : List UInt8 :=
  [0x7F, 0x45, 0x4C, 0x46, 2, 1, 1, 0] ++ List.replicate 8 0 ++ [2, 0, 0x3E, 0, 1, 0, 0, 0] ++ [0x10, 0x50, 0, 0, 0, 0, 0, 0] ++
    [64, 0, 0, 0, 0, 0, 0, 0] ++ List.replicate 12 0 ++ [64, 0, 56, 0, 1, 0] ++ List.replicate 6 0 ++
    [1, 0, 0, 0, 5, 0, 0, 0] ++ [120, 0, 0, 0, 0, 0, 0, 0] ++ [0x10, 0x50, 0, 0, 0, 0, 0, 0] ++ List.replicate 8 0 ++
    [1, 0, 0, 0, 0, 0, 0, 0] ++ [2, 0, 0, 0, 0, 0, 0, 0] ++ List.replicate 8 0 ++ [0xC3]

def oneSegmentElf : ElfFile := ⟨rdskNode oneSegment, 0x5010, 56, 64, 1⟩

def oneSegmentHeader : ProgramHeader := ⟨ptLoad, 5, 120, 0x5010, 1, 2⟩

-- Only the file header, which puts the table behind the end of the file.
def headerOnly : List UInt8 :=
  [0x7F, 0x45, 0x4C, 0x46, 2, 1, 1, 0] ++ List.replicate 8 0 ++ [2, 0, 0x3E, 0, 1, 0, 0, 0] ++ List.replicate 8 0 ++
    [64, 0, 0, 0, 0, 0, 0, 0] ++ List.replicate 12 0 ++ [64, 0, 56, 0, 1, 0] ++ List.replicate 6 0

theorem one_segment_serves : Serves (rdskNode oneSegment) oneSegment := by
  refine rdsk_serves oneSegment ?_
  rw [show oneSegment.length = 121 from rfl]
  decide

theorem one_segment_table : TableInside oneSegment oneSegmentElf := by
  intro i short
  obtain rfl : i = 0 := Nat.lt_one_iff.mp short
  decide

theorem one_segment_accepted : elfRead (rdskNode oneSegment) = .ok oneSegmentElf := rfl

theorem one_segment_loads : loads oneSegment oneSegmentElf = [oneSegmentHeader] := by decide

theorem one_segment_fits : Fits oneSegment oneSegmentHeader := ⟨by decide, by decide, by decide, by decide, by decide⟩

theorem one_segment_loadable {pmm : Pmm.State} (memory : LoaderMemory pmm) (cache : List Nat) (nodup : cache.Nodup) (bound : ∀ id ∈ cache, id < 100) :
    Loadable 0 0x1000 oneSegment (loads oneSegment oneSegmentElf) (loaderMachine pmm cache) ∧
      Room (loads oneSegment oneSegmentElf) (loaderMachine pmm cache) := by
  obtain ⟨started, _⟩ := loader_machine_ready memory cache nodup bound
  rw [one_segment_loads]
  refine ⟨⟨?_, List.pairwise_singleton _ _, ?_⟩, ?_, ?_⟩
  · intro phdr member
    obtain rfl := List.mem_singleton.mp member
    exact one_segment_fits
  · intro phdr member a inside
    refine ⟨fun ⟨r, there, _⟩ => absurd there List.not_mem_nil, ?_⟩
    unfold frameAt
    split
    · rename_i low
      rw [started.bare _ low, Option.map_none]
    · rfl
  · have tables : spare (loaderMachine pmm cache) = min (Pmm.zoneWeight pmm .normal) (loaderTables.length / 3) := rfl
    rw [tables, memory.weight, List.map_singleton, List.sum_singleton, ProgramHeader.pages, Nat.card_Ico]
    decide
  · exact ⟨Vm.kernelspaceStart, by decide, Nat.le_refl _, show Vm.kernelspaceStart + 3 * pageGranularity ≤ Vm.kernelspaceEnd by decide, fun x v _ _ mapped => by
      obtain ⟨r, member, _⟩ := mapped
      cases member⟩

end Loader

end Elysium.Elf
