import Elysium.PtmFrames
import Elysium.HandOverSafety
import Elysium.ElfPlaces

set_option autoImplicit false

namespace Elysium.BootMaps

open Vm (Protection Cache Privilege kernelspaceStart protRW)
open Ptm
open Elf (mathFloor mathCeil)
open HandOver (MmType)

-- tartarus_kernel_segment_t, with its flags as a protection.
structure KernelSegment where
  vaddr : Nat
  paddr : Nat
  size : Nat
  flags : Protection

-- tartarus_boot_info_t, as far as the address space is made from it.
structure BootInfo where
  mmEntries : List HandOver.Entry
  hhdmOffset : Nat
  hhdmSize : Nat
  kernelSegments : List KernelSegment
  framebufferVaddr : Nat
  framebufferPaddr : Nat
  framebufferSize : Nat

-- The page tables, with the pages early memory still has, and what is left of the
-- page that earlymem_alloc cuts from.
structure Boot where
  ptm : Ptm.State
  allocPage : Nat
  allocOffset : Nat

-- sizeof(page_t) and sizeof(vm_region_t)
def pageTSize : Nat := 24
def vmRegionSize : Nat := 96

def earlymemAllocPage (s : Ptm.State) : Except Fault (Ptm.State × Nat) :=
  match s.frames with
  | [] => .error (.panic "EARLY_MM" "out of memory")
  | frame :: rest => .ok ({ s with frames := rest }, frame)

def earlymemAlloc (size : Nat) (boot : Boot) : Except Fault (Boot × Nat) := do
  assertThat (size > 0 ∧ size ≤ pageGranularity)
  let boot ← if boot.allocOffset = 0 ∨ pageGranularity - boot.allocOffset < size then do
      let (ptm, page) ← earlymemAllocPage boot.ptm
      .ok { boot with ptm := ptm, allocPage := page, allocOffset := 0 }
    else .ok boot
  .ok ({ boot with allocOffset := boot.allocOffset + size }, boot.allocPage + boot.allocOffset)

section Init

variable (top : Nat) (info : BootInfo)

-- The loops of init over the memory map skip the entries of other types.
def mapHhdm : List HandOver.Entry → Ptm.State → Except Fault Ptm.State
  | [], s => .ok s
  | entry :: rest, s =>
      if entry.type.added then do
        assertThat (add64 entry.base entry.length ≤ info.hhdmSize)
        let s ← archPtmMap top (add64 info.hhdmOffset entry.base) entry.base entry.length protRW .standard .kernel true s
        mapHhdm rest s
      else mapHhdm rest s

def pageDbStart : Nat := add64 info.hhdmOffset info.hhdmSize

def segmentStart (entry : HandOver.Entry) : Nat :=
  add64 (pageDbStart info) (mathFloor (entry.base / pageGranularity * pageTSize % 2 ^ 64) pageGranularity)

def segmentEnd (entry : HandOver.Entry) : Nat :=
  add64 (pageDbStart info) (mathCeil (add64 entry.base entry.length / pageGranularity * pageTSize % 2 ^ 64) pageGranularity)

def mapCachePage (pageDbEnd : Nat) (s : Ptm.State) : Except Fault Ptm.State := do
  let (s, page) ← earlymemAllocPage s
  archPtmMap top pageDbEnd page pageGranularity protRW .standard .kernel true s

-- for(page_db_end = start; page_db_end < end; page_db_end += ARCH_PAGE_GRANULARITY)
def mapCachePages (limit : Nat) : (fuel pageDbEnd : Nat) → Ptm.State → Except Fault Ptm.State
  | 0, pageDbEnd, s => if pageDbEnd < limit then .error .diverges else .ok s
  | fuel + 1, pageDbEnd, s =>
      if pageDbEnd < limit then do
        let s ← mapCachePage top pageDbEnd s
        mapCachePages limit fuel (add64 pageDbEnd pageGranularity) s
      else .ok s

def mapPageCache : List HandOver.Entry → Ptm.State → Except Fault Ptm.State
  | [], s => .ok s
  | entry :: rest, s =>
      if entry.type.added then do
        let start := segmentStart info entry
        let limit := segmentEnd info entry
        let s ← mapCachePages top limit ((limit - start) / pageGranularity) start s
        mapPageCache rest s
      else mapPageCache rest s

-- Each segment also gets a vm_region_t, whose page early memory gives.
def mapKernel : List KernelSegment → Boot → Except Fault Boot
  | [], boot => .ok boot
  | segment :: rest, boot => do
      assertThat (segment.vaddr % pageGranularity = 0 ∧ segment.size % pageGranularity = 0)
      let s ← archPtmMap top segment.vaddr segment.paddr segment.size segment.flags .standard .kernel true boot.ptm
      let (boot, _) ← earlymemAlloc vmRegionSize { boot with ptm := s }
      mapKernel rest boot

-- What init does between INIT_STAGE_EARLY and the load of the global address space.
def initMaps (boot : Boot) : Except Fault Boot := do
  let s ← mapHhdm top info info.mmEntries boot.ptm
  let s ← mapPageCache top info info.mmEntries s
  if info.kernelSegments.isEmpty then .error (.panic "INIT" "Kernel has zero segments")
  else do
    let boot ← mapKernel top info.kernelSegments { boot with ptm := s }
    let s ← archPtmMap top info.framebufferVaddr info.framebufferPaddr (mathCeil info.framebufferSize pageGranularity) protRW .none .kernel true
      boot.ptm
    .ok { boot with ptm := s }

end Init

-- A range that init maps, with what it has to be mapped to.
structure Span where
  vaddr : Nat
  paddr : Nat
  length : Nat
  prot : Protection

def Span.Has (span : Span) (a : Nat) : Prop := span.vaddr ≤ a ∧ a < span.vaddr + span.length

def Span.Apart (span other : Span) : Prop := span.vaddr + span.length ≤ other.vaddr ∨ other.vaddr + other.length ≤ span.vaddr

structure Span.Sits (span : Span) : Prop where
  canonical : ∀ d < span.length, Canonical (span.vaddr + d)
  vaddrAligned : span.vaddr % pageGranularity = 0
  paddrAligned : span.paddr % pageGranularity = 0
  lengthAligned : span.length % pageGranularity = 0
  fits : span.paddr + span.length ≤ 2 ^ 52

def hhdmSpan (info : BootInfo) (entry : HandOver.Entry) : Span := ⟨info.hhdmOffset + entry.base, entry.base, entry.length, protRW⟩

def hhdmSpans (info : BootInfo) (entries : List HandOver.Entry) : List Span :=
  (entries.filter fun entry => entry.type.added).map (hhdmSpan info)

def KernelSegment.span (segment : KernelSegment) : Span := ⟨segment.vaddr, segment.paddr, segment.size, segment.flags⟩

def framebufferSpan (info : BootInfo) : Span :=
  ⟨info.framebufferVaddr, info.framebufferPaddr, mathCeil info.framebufferSize pageGranularity, protRW⟩

-- What the boot loader has placed, the kernel and the framebuffer.
def loaded (info : BootInfo) : List Span := info.kernelSegments.map KernelSegment.span ++ [framebufferSpan info]

-- The end of a page database that covers the whole of the HHDM.
def cacheLimit (info : BootInfo) : Nat :=
  info.hhdmOffset + info.hhdmSize + (info.hhdmSize / pageGranularity * pageTSize + (pageGranularity - 1)) / pageGranularity * pageGranularity

-- What the boot loader promises. The first and the third of it init asserts.
structure Promised (info : BootInfo) : Prop where
  apart : info.mmEntries.Pairwise HandOver.Entry.Apart
  aligned : ∀ entry ∈ info.mmEntries, entry.type.added = true → entry.base % pageGranularity = 0 ∧ entry.length % pageGranularity = 0
  covered : ∀ entry ∈ info.mmEntries, entry.type.added = true → entry.base + entry.length ≤ info.hhdmSize
  high : kernelspaceStart ≤ info.hhdmOffset
  whole : info.hhdmOffset % pageGranularity = 0 ∧ info.hhdmSize % pageGranularity = 0
  small : info.hhdmSize ≤ 2 ^ 52
  room : cacheLimit info < 2 ^ 64
  sits : ∀ span ∈ loaded info, span.Sits
  outside : ∀ span ∈ loaded info, span.vaddr + span.length ≤ info.hhdmOffset ∨ cacheLimit info ≤ span.vaddr
  loadedApart : (loaded info).Pairwise Span.Apart
  nonempty : info.kernelSegments ≠ []

def outOfEarly : Fault := .panic "EARLY_MM" "out of memory"

-- A call that does its work unless early memory has no page left for it.
def UnlessShort {α : Type} (run : Except Fault α) (post : α → Prop) : Prop :=
  (∃ value, run = .ok value ∧ post value) ∨ run = .error outOfEarly

theorem unless_short_bind {α β : Type} {run : Except Fault α} {next : α → Except Fault β} {post : α → Prop} {post' : β → Prop}
    (first : UnlessShort run post) (rest : ∀ value, post value → UnlessShort (next value) post') : UnlessShort (run >>= next) post' := by
  obtain ⟨value, rfl, holds⟩ | failed := first
  · exact rest value holds
  · rw [failed]
    exact .inr rfl

theorem unless_short_mono {α : Type} {run : Except Fault α} {post post' : α → Prop} (short : UnlessShort run post)
    (weaker : ∀ value, post value → post' value) : UnlessShort run post' :=
  short.imp_left fun ⟨value, ran, holds⟩ => ⟨value, ran, weaker value holds⟩

theorem maps_to_congr {memory next : Nat → Ptm.Entry} {top a physical : Nat} {prot : Protection} {privilege : Privilege}
    (same : walk next top a = walk memory top a) (maps : MapsTo memory top a physical prot privilege) : MapsTo next top a physical prot privilege := by
  rwa [MapsTo, same]

-- The spans are mapped, the page cache up to here has pages of its own, and nothing else is mapped. `taken` are the
-- pages that early memory has given out for other things than tables.
structure Established (top : Nat) (spans : List Span) (cache : Nat → Option Nat) (taken : List Nat) (s : Ptm.State) : Prop where
  sound : Sound top (s.more taken)
  mapped : ∀ span ∈ spans, ∀ d < span.length, MapsTo s.memory top (span.vaddr + d) (span.paddr + d) span.prot .kernel
  pages : ∀ page frame, cache page = some frame → ∀ d < pageGranularity,
    MapsTo s.memory top (page * pageGranularity + d) (frame + d) protRW .kernel
  lowest : ∀ page frame, cache page = some frame → ∀ d < pageGranularity, ∀ T,
    walk s.memory top (page * pageGranularity + d) = some T → T.level = 1
  taken : ∀ page frame, cache page = some frame → frame ∈ taken
  single : ∀ page other frame, cache page = some frame → cache other = some frame → page = other
  only : ∀ a, (∀ span ∈ spans, ¬ span.Has a) → cache (a / pageGranularity) = none → walk s.memory top a = none
  early : s.earlymemActive = true

theorem page_quotient {page d : Nat} (inside : d < pageGranularity) : (page * pageGranularity + d) / pageGranularity = page := by
  unfold pageGranularity at *
  omega

theorem below_whole {page d limit : Nat} (below : page * pageGranularity < limit) (inside : d < pageGranularity)
    (aligned : limit % pageGranularity = 0) : page * pageGranularity + d < limit := by
  obtain ⟨last, rfl⟩ := Nat.dvd_of_mod_eq_zero aligned
  rw [Nat.mul_comm _ last] at below ⊢
  have next : (page + 1) * pageGranularity ≤ last * pageGranularity := Nat.mul_le_mul_right _ (Nat.lt_of_mul_lt_mul_right below)
  rw [Nat.succ_mul] at next
  omega

section Steps

variable {top : Nat} {spans : List Span} {cache : Nat → Option Nat} {taken : List Nat} {s : Ptm.State}
  (established : Established top spans cache taken s)

include established

theorem established_sound : Sound top s :=
  @sound_frames top (s.more taken) established.sound s.frames (List.nodup_append.mp established.sound.distinct).1
    fun _ member => List.mem_append_left _ member

-- A page of early memory leaves the supply.
theorem take_sound {page : Nat} {rest : List Nat} (supply : s.frames = page :: rest) :
    Sound top (State.more { s with frames := rest } (page :: taken)) := by
  have same : (rest ++ page :: taken).Perm (s.more taken).frames := by
    show (rest ++ page :: taken).Perm (s.frames ++ taken)
    rw [supply]
    exact List.perm_middle
  exact @sound_frames top (s.more taken) established.sound (rest ++ page :: taken) (same.nodup_iff.mpr established.sound.distinct)
    fun _ member => same.mem_iff.mp member

theorem take_established {page : Nat} {rest : List Nat} (supply : s.frames = page :: rest) :
    Established top spans cache (page :: taken) { s with frames := rest } :=
  { established with
    sound := take_sound established supply
    taken := fun other frame found => List.mem_cons_of_mem _ (established.taken other frame found) }

theorem map_span {span : Span} (sits : span.Sits) (apart : ∀ other ∈ spans, other.Apart span)
    (free : ∀ a, span.Has a → cache (a / pageGranularity) = none) (cacheBehaviour : Cache) :
    UnlessShort (archPtmMap top span.vaddr span.paddr span.length span.prot cacheBehaviour .kernel true s)
      (Established top (spans ++ [span]) cache taken) := by
  have clear : ∀ d < span.length, ∀ T, walk s.memory top (span.vaddr + d) = some T → T.level = 1 := fun d inside T found => by
    have has : span.Has (span.vaddr + d) := ⟨Nat.le_add_right _ _, by omega⟩
    have empty := established.only (span.vaddr + d) (fun other member both => by
      have separate := apart other member
      unfold Span.Apart at separate
      unfold Span.Has at both
      omega) (free _ has)
    rw [empty] at found
    cases found
  have beside : ∀ page frame, cache page = some frame → ∀ d < pageGranularity, ¬ span.Has (page * pageGranularity + d) := by
    intro page frame found d inside has
    have absent := free _ has
    rw [page_quotient inside, found] at absent
    cases absent
  rcases @arch_ptm_map_spec top span.vaddr span.paddr span.length span.prot cacheBehaviour .kernel true s (established_sound established)
      sits.canonical sits.vaddrAligned sits.paddrAligned sits.lengthAligned sits.fits clear with ⟨s', run, maps, keeps, early⟩ | failed
  · refine .inl ⟨s', run, arch_ptm_map_sound established.sound (arch_ptm_map_more run), fun other member d inside => ?_,
      fun page frame found d inside => ?_, fun page frame found d inside T walked => ?_, established.taken, established.single,
      fun a outside absent => ?_, early.trans established.early⟩
    · rcases List.mem_append.mp member with old | new
      · have separate := apart other old
        unfold Span.Apart at separate
        exact maps_to_congr (keeps _ (by omega)) (established.mapped other old d inside)
      · obtain rfl := List.mem_singleton.mp new
        exact maps d inside
    · exact maps_to_congr (keeps _ (beside page frame found d inside)) (established.pages page frame found d inside)
    · exact established.lowest page frame found d inside T ((keeps _ (beside page frame found d inside)).symm.trans walked)
    · rw [keeps a (outside span (List.mem_append_right _ (List.mem_singleton_self span)))]
      exact established.only a (fun other member => outside other (List.mem_append_left _ member)) absent
  · rw [outOfMemory, established.early] at failed
    exact .inr failed

-- One round of the loop over the page cache. A page that two entries share is mapped again, to another frame.
theorem map_cache_page {page : Nat} (canonical : ∀ d < pageGranularity, Canonical (page * pageGranularity + d))
    (apart : ∀ span ∈ spans, ∀ d < pageGranularity, ¬ span.Has (page * pageGranularity + d)) :
    UnlessShort (mapCachePage top (page * pageGranularity) s)
      fun s' => ∃ frame, Established top spans (Function.update cache page (some frame)) (frame :: taken) s' := by
  cases supply : s.frames with
  | nil =>
    rw [mapCachePage, earlymemAllocPage, supply]
    exact .inr rfl
  | cons frame rest =>
    rw [mapCachePage, earlymemAllocPage, supply]
    dsimp only
    rw [bind_ok]
    have inSupply : frame ∈ (s.more taken).frames := List.mem_append_left _ (supply ▸ List.mem_cons_self)
    obtain ⟨frameAligned, frameFits⟩ := established.sound.placed frame inSupply
    have taken' := take_established established supply
    have whole : page * pageGranularity % pageGranularity = 0 := Nat.mul_mod_left _ _
    have fits : frame + pageGranularity ≤ 2 ^ 52 := by
      unfold pageGranularity at *
      omega
    have clear : ∀ d < pageGranularity, ∀ T, walk s.memory top (page * pageGranularity + d) = some T → T.level = 1 := by
      intro d inside T walked
      cases found : cache page with
      | none =>
        rw [established.only _ (fun span member => apart span member d inside) ((congrArg cache (page_quotient inside)).trans found)] at walked
        cases walked
      | some old => exact established.lowest page old found d inside T walked
    rcases @arch_ptm_map_spec top (page * pageGranularity) frame pageGranularity protRW .standard .kernel true _
        (established_sound taken') canonical whole frameAligned (by decide) fits clear with ⟨s', run, maps, keeps, early⟩ | failed
    · have other : ∀ a, a / pageGranularity ≠ page → walk s'.memory top a = walk s.memory top a := fun a different =>
        keeps a fun has => different (by unfold pageGranularity at *; omega)
      have new : frame ∉ taken := by
        have distinct := taken'.sound.distinct
        have later := (List.nodup_append.mp distinct).2.1
        exact (List.nodup_cons.mp later).1
      refine .inl ⟨s', run, frame, arch_ptm_map_sound taken'.sound (arch_ptm_map_more run), fun span member d inside => ?_,
        fun page' frame' found d inside => ?_, fun page' frame' found d inside T walked => ?_, fun page' frame' found => ?_,
        fun page₁ page₂ frame' first second => ?_, fun a outside absent => ?_, early.trans established.early⟩
      · refine maps_to_congr (other _ fun same => ?_) (established.mapped span member d inside)
        refine apart span member ((span.vaddr + d) % pageGranularity) (Nat.mod_lt _ (by decide)) ?_
        rw [← same, Nat.div_add_mod']
        exact ⟨Nat.le_add_right _ _, by omega⟩
      · by_cases here : page' = page
        · subst here
          rw [Function.update_self, Option.some.injEq] at found
          subst found
          exact maps d inside
        · rw [Function.update_of_ne here] at found
          exact maps_to_congr (other _ (by rw [page_quotient inside]; exact here)) (established.pages page' frame' found d inside)
      · by_cases here : page' = page
        · subst here
          exact arch_ptm_map_small (established_sound taken') canonical whole frameAligned fits run d inside T walked
        · rw [Function.update_of_ne here] at found
          exact established.lowest page' frame' found d inside T ((other _ (by rw [page_quotient inside]; exact here)).symm.trans walked)
      · by_cases here : page' = page
        · rw [here, Function.update_self, Option.some.injEq] at found
          exact found ▸ List.mem_cons_self
        · rw [Function.update_of_ne here] at found
          exact List.mem_cons_of_mem _ (established.taken page' frame' found)
      · have owned : ∀ page', Function.update cache page (some frame) page' = some frame' → page' = page ∧ frame' = frame ∨
            cache page' = some frame' ∧ frame' ≠ frame := by
          intro page' found
          by_cases here : page' = page
          · rw [here, Function.update_self, Option.some.injEq] at found
            exact .inl ⟨here, found.symm⟩
          · rw [Function.update_of_ne here] at found
            exact .inr ⟨found, fun same => new (same ▸ established.taken page' frame' found)⟩
        obtain ⟨rfl, same⟩ | ⟨old, different⟩ := owned page₁ first
        · obtain ⟨rfl, _⟩ | ⟨_, different⟩ := owned page₂ second
          · rfl
          · exact absurd same different
        · obtain ⟨_, same⟩ | ⟨old', _⟩ := owned page₂ second
          · exact absurd same different
          · exact established.single page₁ page₂ frame' old old'
      · have different : a / pageGranularity ≠ page := fun same => by
          rw [same, Function.update_self] at absent
          cases absent
        rw [Function.update_of_ne different] at absent
        rw [other a different]
        exact established.only a outside absent
    · rw [outOfMemory] at failed
      rw [failed]
      exact .inr (by rw [show s.earlymemActive = true from established.early]; rfl)

theorem earlymem_alloc_established {size : Nat} (sized : size > 0 ∧ size ≤ pageGranularity) {boot : Boot} (here : boot.ptm = s) :
    UnlessShort (earlymemAlloc size boot) fun result => ∃ taken', Established top spans cache taken' result.1.ptm := by
  subst here
  unfold earlymemAlloc
  rw [assertThat, decide_eq_true sized, if_pos rfl, bind_ok]
  by_cases needs : boot.allocOffset = 0 ∨ pageGranularity - boot.allocOffset < size
  · rw [if_pos needs]
    cases supply : boot.ptm.frames with
    | nil =>
      rw [earlymemAllocPage, supply]
      exact .inr rfl
    | cons page rest =>
      rw [earlymemAllocPage, supply]
      exact .inl ⟨_, rfl, page :: taken, take_established established supply⟩
  · rw [if_neg needs]
    exact .inl ⟨_, rfl, taken, established⟩

end Steps

-- An address that the loops over the page cache map for one of the entries.
def InCache (info : BootInfo) (entries : List HandOver.Entry) (a : Nat) : Prop :=
  ∃ entry ∈ entries, entry.type.added = true ∧ segmentStart info entry ≤ a ∧ a < segmentEnd info entry

theorem in_cache_cons (info : BootInfo) (entry : HandOver.Entry) (rest : List HandOver.Entry) (a : Nat) : InCache info (entry :: rest) a ↔
    entry.type.added = true ∧ segmentStart info entry ≤ a ∧ a < segmentEnd info entry ∨ InCache info rest a := by
  simp only [InCache, List.mem_cons, or_and_right, exists_or, exists_eq_left]

section Places

variable {info : BootInfo} (promised : Promised info) {entry : HandOver.Entry} (member : entry ∈ info.mmEntries)
  (added : entry.type.added = true)

include promised

theorem high_canonical {a : Nat} (low : info.hhdmOffset ≤ a) (below : a < cacheLimit info) : Canonical a :=
  .inr ⟨Nat.le_trans promised.high low, Nat.lt_trans below promised.room⟩

omit promised in
theorem hhdm_below (info : BootInfo) : info.hhdmOffset + info.hhdmSize ≤ cacheLimit info := Nat.le_add_right _ _

theorem page_db_start_eq : pageDbStart info = info.hhdmOffset + info.hhdmSize :=
  add64_eq (Nat.lt_of_le_of_lt (hhdm_below info) promised.room)

-- The page database up to a frame of the HHDM.
theorem page_db_bytes {p : Nat} (inside : p ≤ info.hhdmSize) :
    p / pageGranularity * pageTSize < 2 ^ 62 ∧ info.hhdmOffset + info.hhdmSize +
      (p / pageGranularity * pageTSize + (pageGranularity - 1)) / pageGranularity * pageGranularity ≤ cacheLimit info := by
  have small := promised.small
  unfold cacheLimit pageGranularity pageTSize
  omega

include member added

theorem segment_start_eq : segmentStart info entry =
    info.hhdmOffset + info.hhdmSize + entry.base / pageGranularity * pageTSize / pageGranularity * pageGranularity := by
  have covered := promised.covered entry member added
  obtain ⟨few, below⟩ := page_db_bytes promised (show entry.base ≤ info.hhdmSize by omega)
  have room := promised.room
  rw [segmentStart, page_db_start_eq promised, mathFloor, Nat.mod_eq_of_lt (by omega), add64_eq]
  unfold pageGranularity at *
  omega

theorem segment_end_eq : segmentEnd info entry = info.hhdmOffset + info.hhdmSize +
    ((entry.base + entry.length) / pageGranularity * pageTSize + (pageGranularity - 1)) / pageGranularity * pageGranularity := by
  have covered := promised.covered entry member added
  have small := promised.small
  obtain ⟨few, below⟩ := page_db_bytes promised covered
  have room := promised.room
  have one : pageGranularity = 4096 := rfl
  rw [segmentEnd, page_db_start_eq promised, mathCeil, add64_eq (show entry.base + entry.length < 2 ^ 64 by omega),
    Nat.mod_eq_of_lt (by omega), add64_eq (show _ + pageGranularity < 2 ^ 64 by omega), sub64_eq (by omega) (by omega),
    Nat.add_sub_assoc (by decide), add64_eq (by omega)]

theorem segment_inside : info.hhdmOffset + info.hhdmSize ≤ segmentStart info entry ∧ segmentStart info entry ≤ segmentEnd info entry ∧
    segmentEnd info entry ≤ cacheLimit info ∧ segmentStart info entry % pageGranularity = 0 ∧ segmentEnd info entry % pageGranularity = 0 := by
  have covered := promised.covered entry member added
  have whole := promised.whole
  rw [segment_start_eq promised member added, segment_end_eq promised member added]
  unfold cacheLimit
  unfold pageGranularity pageTSize at *
  omega

theorem hhdm_span_sits : (hhdmSpan info entry).Sits := by
  have covered := promised.covered entry member added
  have aligned := promised.aligned entry member added
  have whole := promised.whole
  have small := promised.small
  have below := hhdm_below info
  refine ⟨fun d inside => high_canonical promised ?_ ?_, ?_, aligned.1, aligned.2, ?_⟩ <;> simp only [hhdmSpan] at *
  all_goals unfold pageGranularity at *; omega

-- The page_t of a page of the entry lies in its part of the page cache.
theorem page_in_cache {p k : Nat} (low : entry.base ≤ p) (high : p < entry.base + entry.length) (inside : k < pageTSize) :
    segmentStart info entry ≤ pageDbStart info + p / pageGranularity * pageTSize + k ∧
      pageDbStart info + p / pageGranularity * pageTSize + k < segmentEnd info entry := by
  have aligned := promised.aligned entry member added
  rw [segment_start_eq promised member added, segment_end_eq promised member added, page_db_start_eq promised]
  unfold pageGranularity pageTSize at *
  omega

end Places

section Run

variable {top : Nat} {info : BootInfo} (promised : Promised info)

include promised

theorem map_hhdm_established (entries : List HandOver.Entry) (among : ∀ entry ∈ entries, entry ∈ info.mmEntries) {spans : List Span}
    (apart : (spans ++ hhdmSpans info entries).Pairwise Span.Apart) {taken : List Nat} {s : Ptm.State}
    (established : Established top spans (fun _ => none) taken s) :
    UnlessShort (mapHhdm top info entries s) (Established top (spans ++ hhdmSpans info entries) (fun _ => none) taken) := by
  induction entries generalizing spans s with
  | nil =>
    rw [hhdmSpans, List.filter_nil, List.map_nil, List.append_nil]
    exact .inl ⟨s, rfl, established⟩
  | cons entry rest ih =>
    have amongRest : ∀ other ∈ rest, other ∈ info.mmEntries := fun other later => among other (List.mem_cons_of_mem _ later)
    have member := among entry List.mem_cons_self
    rw [mapHhdm]
    by_cases added : entry.type.added = true
    · have covered := promised.covered entry member added
      have room := Nat.lt_of_le_of_lt (hhdm_below info) promised.room
      have sum : add64 entry.base entry.length = entry.base + entry.length := add64_eq (by omega)
      have vaddr : add64 info.hhdmOffset entry.base = (hhdmSpan info entry).vaddr := add64_eq (by omega)
      have split : hhdmSpans info (entry :: rest) = hhdmSpan info entry :: hhdmSpans info rest := by
        rw [hhdmSpans, List.filter_cons, if_pos added, List.map_cons, hhdmSpans]
      rw [split, List.append_cons] at apart ⊢
      rw [if_pos added, sum, assertThat, decide_eq_true covered, if_pos rfl, bind_ok, vaddr]
      refine unless_short_bind (map_span established (hhdm_span_sits promised member added) (fun other old => ?_) (fun _ _ => rfl) _)
        fun s' established' => ih amongRest apart established'
      exact (List.pairwise_append.mp (List.pairwise_append.mp apart).1).2.2 other old _ (List.mem_singleton_self _)
    · have skip : hhdmSpans info (entry :: rest) = hhdmSpans info rest := by
        rw [hhdmSpans, List.filter_cons, if_neg added, hhdmSpans]
      rw [skip] at apart ⊢
      rw [if_neg added]
      exact ih amongRest apart established

omit promised in
theorem map_cache_pages_established (count first : Nat) {spans : List Span} {cache : Nat → Option Nat} {taken : List Nat} {s : Ptm.State}
    (established : Established top spans cache taken s) (small : (first + count) * pageGranularity < 2 ^ 64)
    (canonical : ∀ a, first * pageGranularity ≤ a → a < (first + count) * pageGranularity → Canonical a)
    (apart : ∀ span ∈ spans, ∀ a, first * pageGranularity ≤ a → a < (first + count) * pageGranularity → ¬ span.Has a) :
    UnlessShort (mapCachePages top ((first + count) * pageGranularity) count (first * pageGranularity) s) fun s' =>
      ∃ cache' taken', Established top spans cache' taken' s' ∧
        ∀ page, (cache' page).isSome ↔ (cache page).isSome ∨ (first ≤ page ∧ page < first + count) := by
  induction count generalizing first cache taken s with
  | zero =>
    rw [mapCachePages, Nat.add_zero, if_neg (Nat.lt_irrefl _)]
    exact .inl ⟨s, rfl, cache, taken, established, fun page => (or_iff_left (by omega)).symm⟩
  | succ count ih =>
    have next : first * pageGranularity + pageGranularity = (first + 1) * pageGranularity := (Nat.succ_mul _ _).symm
    have ends : first + (count + 1) = first + 1 + count := by omega
    have shorter : (first + 1) * pageGranularity ≤ (first + 1 + count) * pageGranularity := Nat.mul_le_mul_right _ (Nat.le_add_right _ _)
    have onePage : 0 < pageGranularity := by decide
    rw [ends] at small canonical apart ⊢
    rw [mapCachePages, if_pos (by omega), add64_eq (by omega), next]
    refine unless_short_bind (map_cache_page established (fun d inside => canonical _ (by omega) (by omega))
      fun span member d inside => apart span member _ (by omega) (by omega)) fun s₁ made => ?_
    obtain ⟨frame, established₁⟩ := made
    refine unless_short_mono (ih (first + 1) established₁ small (fun a low high => canonical a (by omega) high)
      fun span member a low high => apart span member a (by omega) high) fun s₂ done => ?_
    obtain ⟨cache', taken', established₂, pages⟩ := done
    refine ⟨cache', taken', established₂, fun page => (pages page).trans ?_⟩
    by_cases here : page = first
    · subst here
      rw [Function.update_self]
      exact iff_of_true (.inl rfl) (.inr (by omega))
    · rw [Function.update_of_ne here]
      exact or_congr_right (by omega)

theorem map_page_cache_established (entries : List HandOver.Entry) (among : ∀ entry ∈ entries, entry ∈ info.mmEntries) {spans : List Span}
    (inside : ∀ span ∈ spans, span.vaddr + span.length ≤ info.hhdmOffset + info.hhdmSize) {cache : Nat → Option Nat} {taken : List Nat}
    {s : Ptm.State} (established : Established top spans cache taken s) :
    UnlessShort (mapPageCache top info entries s) fun s' => ∃ cache' taken', Established top spans cache' taken' s' ∧
      ∀ page, (cache' page).isSome ↔ (cache page).isSome ∨ InCache info entries (page * pageGranularity) := by
  induction entries generalizing cache taken s with
  | nil => exact .inl ⟨s, rfl, cache, taken, established, fun page => (or_iff_left fun ⟨_, member, _⟩ => List.not_mem_nil member).symm⟩
  | cons entry rest ih =>
    have amongRest : ∀ other ∈ rest, other ∈ info.mmEntries := fun other later => among other (List.mem_cons_of_mem _ later)
    have member := among entry List.mem_cons_self
    rw [mapPageCache]
    by_cases added : entry.type.added = true
    · obtain ⟨low, ordered, high, startAligned, endAligned⟩ := segment_inside promised member added
      obtain ⟨first, start⟩ : ∃ first, segmentStart info entry = first * pageGranularity :=
        ⟨_, (Nat.div_mul_cancel (Nat.dvd_of_mod_eq_zero startAligned)).symm⟩
      obtain ⟨count, limit⟩ : ∃ count, segmentEnd info entry = (first + count) * pageGranularity := by
        refine ⟨segmentEnd info entry / pageGranularity - first, ?_⟩
        unfold pageGranularity at *
        omega
      have between : (first + count) * pageGranularity - first * pageGranularity = count * pageGranularity := by
        rw [← Nat.sub_mul, Nat.add_sub_cancel_left]
      have room := promised.room
      rw [if_pos added]
      dsimp only
      rw [start, limit, between, Nat.mul_div_cancel _ (by decide)]
      rw [start] at low
      rw [limit] at high
      refine unless_short_bind (map_cache_pages_established count first established (by omega)
        (fun a above below => high_canonical promised (by omega) (by omega))
        fun span old a above below has => ?_) fun s₁ made => ?_
      · have ends := inside span old
        unfold Span.Has at has
        omega
      · obtain ⟨cache₁, taken₁, established₁, pages₁⟩ := made
        refine unless_short_mono (ih amongRest established₁) fun s₂ done => ?_
        obtain ⟨cache', taken', established₂, pages₂⟩ := done
        refine ⟨cache', taken', established₂, fun page => (pages₂ page).trans ?_⟩
        rw [pages₁ page, or_assoc, in_cache_cons, start, limit, Nat.mul_le_mul_right_iff (by decide), Nat.mul_lt_mul_right (by decide),
          and_iff_right added]
    · rw [if_neg added]
      refine unless_short_mono (ih amongRest established) fun s₂ done => ?_
      obtain ⟨cache', taken', established₂, pages₂⟩ := done
      refine ⟨cache', taken', established₂, fun page => (pages₂ page).trans (or_congr_right ?_)⟩
      rw [in_cache_cons, or_iff_right fun here => added here.1]

omit promised in
theorem map_kernel_established (segments : List KernelSegment) (sits : ∀ segment ∈ segments, segment.span.Sits) {spans : List Span}
    (apart : (spans ++ segments.map KernelSegment.span).Pairwise Span.Apart) {cache : Nat → Option Nat} {taken : List Nat}
    (free : ∀ segment ∈ segments, ∀ a, segment.span.Has a → cache (a / pageGranularity) = none) {boot : Boot}
    (established : Established top spans cache taken boot.ptm) :
    UnlessShort (mapKernel top segments boot) fun boot' =>
      ∃ taken', Established top (spans ++ segments.map KernelSegment.span) cache taken' boot'.ptm := by
  induction segments generalizing spans taken boot with
  | nil =>
    rw [List.map_nil, List.append_nil]
    exact .inl ⟨boot, rfl, taken, established⟩
  | cons segment rest ih =>
    have here := sits segment List.mem_cons_self
    rw [List.map_cons, List.append_cons] at apart ⊢
    rw [mapKernel, assertThat, decide_eq_true ⟨here.vaddrAligned, here.lengthAligned⟩, if_pos rfl, bind_ok]
    refine unless_short_bind (map_span established here (fun other old => ?_) (free segment List.mem_cons_self) _) fun s₁ established₁ => ?_
    · exact (List.pairwise_append.mp (List.pairwise_append.mp apart).1).2.2 other old _ (List.mem_singleton_self _)
    · refine unless_short_bind (@earlymem_alloc_established top _ cache taken s₁ established₁ vmRegionSize (by decide) { boot with ptm := s₁ } rfl)
        fun result made => ?_
      obtain ⟨taken₂, established₂⟩ := made
      exact ih (fun other later => sits other (List.mem_cons_of_mem _ later)) apart
        (fun other later => free other (List.mem_cons_of_mem _ later)) established₂

theorem spans_apart : (hhdmSpans info info.mmEntries ++ loaded info).Pairwise Span.Apart := by
  refine List.pairwise_append.mpr ⟨?_, promised.loadedApart, fun span hhdm other member => ?_⟩
  · refine List.Pairwise.map _ (fun first second apart => ?_) (promised.apart.filter _)
    unfold HandOver.Entry.Apart at apart
    simp only [Span.Apart, hhdmSpan]
    omega
  · obtain ⟨entry, kept, rfl⟩ := List.mem_map.mp hhdm
    rw [List.mem_filter] at kept
    have covered := promised.covered entry kept.1 kept.2
    have below := hhdm_below info
    have outside := promised.outside other member
    simp only [Span.Apart, hhdmSpan]
    omega

theorem hhdm_spans_inside : ∀ span ∈ hhdmSpans info info.mmEntries, span.vaddr + span.length ≤ info.hhdmOffset + info.hhdmSize := by
  intro span hhdm
  obtain ⟨entry, kept, rfl⟩ := List.mem_map.mp hhdm
  rw [List.mem_filter] at kept
  have covered := promised.covered entry kept.1 kept.2
  simp only [hhdmSpan]
  omega

theorem cache_inside {page : Nat} (inCache : InCache info info.mmEntries (page * pageGranularity)) {d : Nat} (inside : d < pageGranularity) :
    InCache info info.mmEntries (page * pageGranularity + d) ∧ info.hhdmOffset ≤ page * pageGranularity + d ∧
      page * pageGranularity + d < cacheLimit info := by
  obtain ⟨entry, member, added, above, below⟩ := inCache
  obtain ⟨low, _, high, _, endAligned⟩ := segment_inside promised member added
  have whole : page * pageGranularity + d < segmentEnd info entry := below_whole below inside endAligned
  exact ⟨⟨entry, member, added, by omega, whole⟩, by omega, by omega⟩

theorem loaded_free {cache : Nat → Option Nat} (pages : ∀ page, (cache page).isSome ↔ InCache info info.mmEntries (page * pageGranularity))
    {span : Span} (member : span ∈ loaded info) {a : Nat} (has : span.Has a) : cache (a / pageGranularity) = none := by
  rw [← Option.not_isSome_iff_eq_none, pages]
  intro inCache
  obtain ⟨_, low, high⟩ := cache_inside promised inCache (Nat.mod_lt a (by decide))
  rw [Nat.div_add_mod'] at low high
  have outside := promised.outside span member
  unfold Span.Has at has
  omega

-- All of what init maps, one after the other.
theorem init_maps_established {s : Ptm.State} {boot : Boot} (here : boot.ptm = s) (established : Established top [] (fun _ => none) [] s) :
    UnlessShort (initMaps top info boot) fun boot' => ∃ cache taken,
      Established top (hhdmSpans info info.mmEntries ++ loaded info) cache taken boot'.ptm ∧
        ∀ page, (cache page).isSome ↔ InCache info info.mmEntries (page * pageGranularity) := by
  subst here
  have apart := spans_apart promised
  have segmentsLoaded : ∀ segment ∈ info.kernelSegments, segment.span ∈ loaded info := fun segment member =>
    List.mem_append_left _ (List.mem_map_of_mem member)
  have framebuffer : framebufferSpan info ∈ loaded info := List.mem_append_right _ (List.mem_singleton_self _)
  have nonempty : ¬ info.kernelSegments.isEmpty = true := fun empty => promised.nonempty (List.isEmpty_iff.mp empty)
  refine unless_short_bind (map_hhdm_established promised info.mmEntries (fun _ member => member) (List.pairwise_append.mp apart).1 established)
    fun s₁ established₁ => ?_
  refine unless_short_bind (map_page_cache_established promised info.mmEntries (fun _ member => member) (hhdm_spans_inside promised)
    established₁) fun s₂ made => ?_
  obtain ⟨cache, taken₂, established₂, pages⟩ := made
  have pages : ∀ page, (cache page).isSome ↔ InCache info info.mmEntries (page * pageGranularity) := fun page =>
    (pages page).trans (or_iff_right (by simp))
  rw [loaded, ← List.append_assoc] at apart ⊢
  rw [if_neg nonempty]
  refine unless_short_bind (@map_kernel_established top info.kernelSegments
    (fun segment member => promised.sits _ (segmentsLoaded segment member)) _ (List.pairwise_append.mp apart).1 cache taken₂
    (fun segment member a has => loaded_free promised pages (segmentsLoaded segment member) has) { boot with ptm := s₂ } established₂)
    fun boot₃ made => ?_
  obtain ⟨taken₃, established₃⟩ := made
  refine unless_short_bind (map_span established₃ (promised.sits _ framebuffer)
    (fun other old => (List.pairwise_append.mp apart).2.2 other old _ (List.mem_singleton_self _))
    (fun a has => loaded_free promised pages framebuffer has) .none) fun s₄ established₄ => ?_
  exact .inl ⟨_, rfl, cache, taken₃, established₄, pages⟩

end Run

-- What the global address space is when init loads it. `cache` has the frames of the page database.
structure Maps (info : BootInfo) (top : Nat) (cache : Nat → Option Nat) (s : Ptm.State) : Prop where
  hhdm : ∀ entry ∈ info.mmEntries, entry.type.added = true → ∀ p, entry.base ≤ p → p < entry.base + entry.length →
    MapsTo s.memory top (info.hhdmOffset + p) p protRW .kernel
  pageDb : ∀ entry ∈ info.mmEntries, entry.type.added = true → ∀ p, entry.base ≤ p → p < entry.base + entry.length →
    ∀ a, pageDbStart info + p / pageGranularity * pageTSize ≤ a → a < pageDbStart info + p / pageGranularity * pageTSize + pageTSize →
      ∃ frame, cache (a / pageGranularity) = some frame ∧ MapsTo s.memory top a (frame + a % pageGranularity) protRW .kernel
  kernel : ∀ segment ∈ info.kernelSegments, ∀ d < segment.size,
    MapsTo s.memory top (segment.vaddr + d) (segment.paddr + d) segment.flags .kernel
  framebuffer : ∀ d < mathCeil info.framebufferSize pageGranularity,
    MapsTo s.memory top (info.framebufferVaddr + d) (info.framebufferPaddr + d) protRW .kernel
  single : ∀ page other frame, cache page = some frame → cache other = some frame → page = other
  own : ∀ page frame, cache page = some frame → frame ∉ s.frames ∧ ∀ v l t, Reaches s.memory top v l t → t ≠ frame
  only : ∀ a, walk s.memory top a ≠ none → (∃ span ∈ hhdmSpans info info.mmEntries ++ loaded info, span.Has a) ∨
    InCache info info.mmEntries a

theorem established_maps {info : BootInfo} (promised : Promised info) {top : Nat} {cache : Nat → Option Nat} {taken : List Nat} {s : Ptm.State}
    (established : Established top (hhdmSpans info info.mmEntries ++ loaded info) cache taken s)
    (pages : ∀ page, (cache page).isSome ↔ InCache info info.mmEntries (page * pageGranularity)) : Maps info top cache s where
  hhdm := fun entry member added p low high => by
    have span : hhdmSpan info entry ∈ hhdmSpans info info.mmEntries := List.mem_map_of_mem (List.mem_filter.mpr ⟨member, added⟩)
    have maps := established.mapped _ (List.mem_append_left _ span) (p - entry.base) (by simp only [hhdmSpan]; omega)
    simp only [hhdmSpan] at maps
    rwa [show info.hhdmOffset + entry.base + (p - entry.base) = info.hhdmOffset + p by omega,
      show entry.base + (p - entry.base) = p by omega] at maps
  pageDb := fun entry member added p low high a start limit => by
    obtain ⟨_, _, _, startAligned, _⟩ := segment_inside promised member added
    have inCache := page_in_cache promised member added low high (show a - (pageDbStart info + p / pageGranularity * pageTSize) < pageTSize by omega)
    rw [Nat.add_sub_cancel' start] at inCache
    have page : (cache (a / pageGranularity)).isSome := by
      refine (pages _).mpr ⟨entry, member, added, ?_, ?_⟩
      · unfold pageGranularity at *
        omega
      · exact Nat.lt_of_le_of_lt (Nat.div_mul_le_self a _) inCache.2
    obtain ⟨frame, found⟩ := Option.isSome_iff_exists.mp page
    have maps := established.pages _ frame found (a % pageGranularity) (Nat.mod_lt _ (by decide))
    rw [Nat.div_add_mod'] at maps
    exact ⟨frame, found, maps⟩
  kernel := fun segment member => established.mapped segment.span
    (List.mem_append_right _ (List.mem_append_left _ (List.mem_map_of_mem member)))
  framebuffer := established.mapped (framebufferSpan info) (List.mem_append_right _ (List.mem_append_right _ (List.mem_singleton_self _)))
  single := established.single
  own := fun page frame found => by
    have member := established.taken page frame found
    refine ⟨fun inSupply => ?_, fun v l t reach same => ?_⟩
    · exact (List.nodup_append.mp established.sound.distinct).2.2 frame inSupply frame member rfl
    · exact established.sound.fresh v l t reach (List.mem_append_right _ (same ▸ member))
  only := fun a walked => by
    by_cases has : ∃ span ∈ hhdmSpans info info.mmEntries ++ loaded info, span.Has a
    · exact .inl has
    · have inPage : (cache (a / pageGranularity)).isSome := by
        by_contra absent
        rw [Option.not_isSome_iff_eq_none] at absent
        exact walked (established.only a (fun span member inside => has ⟨span, member, inside⟩) absent)
      have inCache := (cache_inside promised ((pages _).mp inPage) (Nat.mod_lt a (by decide))).1
      rw [Nat.div_add_mod'] at inCache
      exact .inr inCache

-- init builds this address space and no other, or early memory runs out.
theorem boot_maps_exact (info : BootInfo) (promised : Promised info) (boot : Boot) (active : boot.ptm.earlymemActive = true)
    (distinct : boot.ptm.frames.Nodup) (placed : ∀ page ∈ boot.ptm.frames, page % pageGranularity = 0 ∧ page < 2 ^ 52)
    (s : Ptm.State) (top : Nat) (target : ptmInitTarget boot.ptm = .ok (s, top)) :
    UnlessShort (initMaps top info { boot with ptm := s }) fun boot' => ∃ cache, Maps info top cache boot'.ptm := by
  obtain ⟨shares, early⟩ := init_target_shares distinct placed target
  have sound : Sound top (s.more []) := @sound_frames top s shares.sound (s.frames ++ []) (by rw [List.append_nil]; exact shares.sound.distinct)
    fun page member => by rwa [List.append_nil] at member
  have start : Established top [] (fun _ => none) [] s :=
    ⟨sound, fun _ member => absurd member List.not_mem_nil, nofun, nofun, nofun, nofun, fun a _ _ => shares.empty a, early.trans active⟩
  refine unless_short_mono (init_maps_established promised rfl start) fun boot' made => ?_
  obtain ⟨cache, taken, established, pages⟩ := made
  exact ⟨cache, established_maps promised established pages⟩

def smallInfo : BootInfo where
  mmEntries := [⟨0x200000, 0x200000, .usable⟩, ⟨0x400000, 0x1000, .acpiReclaimable⟩, ⟨0x401000, 0x1000, .bootloaderReclaimable⟩]
  hhdmOffset := kernelspaceStart
  hhdmSize := 0x600000
  kernelSegments := [⟨0xFFFFFFFF80000000, 0x1000000, 0x1000, ⟨true, false, true⟩⟩]
  framebufferVaddr := 0xFFFFC00000000000
  framebufferPaddr := 0xE0000000
  framebufferSize := 0x800

def smallBoot : Boot where
  ptm := { blankState ((List.range 280).map fun n => 0x200000 + n * pageGranularity) with earlymemActive := true }
  allocPage := 0
  allocOffset := 0

theorem small_promised : Promised smallInfo where
  apart := by
    unfold HandOver.Entry.Apart
    decide
  aligned := by decide
  covered := by decide
  high := by decide
  whole := by decide
  small := by decide
  room := by decide
  sits := by
    intro span member
    obtain rfl | rfl : span = ⟨0xFFFFFFFF80000000, 0x1000000, 0x1000, ⟨true, false, true⟩⟩ ∨
        span = ⟨0xFFFFC00000000000, 0xE0000000, 0x1000, protRW⟩ := by
      simpa [loaded, smallInfo, KernelSegment.span, framebufferSpan, mathCeil, add64, sub64, pageGranularity] using member
    all_goals
      refine ⟨fun d inside => .inr ?_, by decide, by decide, by decide, by decide⟩
      unfold kernelspaceStart
      dsimp only at inside ⊢
      omega
  outside := by decide
  loadedApart := by
    unfold Span.Apart
    decide
  nonempty := by decide

theorem boot_maps_exact_small : ∃ s top boot' cache, ptmInitTarget smallBoot.ptm = .ok (s, top) ∧
    initMaps top smallInfo { smallBoot with ptm := s } = .ok boot' ∧ Maps smallInfo top cache boot'.ptm := by
  have ran : (ptmInitTarget smallBoot.ptm >>= fun made => initMaps made.2 smallInfo { smallBoot with ptm := made.1 }).toOption.isSome = true := by
    decide +kernel
  have distinct : smallBoot.ptm.frames.Nodup := List.Nodup.map (fun n m same => by unfold pageGranularity at same; omega) List.nodup_range
  have placed : ∀ page ∈ smallBoot.ptm.frames, page % pageGranularity = 0 ∧ page < 2 ^ 52 := by
    intro page member
    obtain ⟨n, small, rfl⟩ := List.mem_map.mp member
    rw [List.mem_range] at small
    unfold pageGranularity
    omega
  cases target : ptmInitTarget smallBoot.ptm with
  | error fault =>
    rw [target] at ran
    cases ran
  | ok made =>
    obtain ⟨s, top⟩ := made
    rw [target, bind_ok] at ran
    obtain ⟨boot', done, cache, maps⟩ | failed := boot_maps_exact smallInfo small_promised smallBoot rfl distinct placed s top target
    · exact ⟨s, top, boot', cache, rfl, done, maps⟩
    · rw [failed] at ran
      cases ran

end Elysium.BootMaps
