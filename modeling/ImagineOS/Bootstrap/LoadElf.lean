import ImagineOS.Bootstrap.PageTables
import ImagineOS.Bytes

/-!
# The bootstrap: loading the kernel

The bootstrap gives every segment of the kernel pages of its own, maps them where the segment is to
be, clears them and copies the bytes of the file. It clears as many bytes as the pages have, but
from where the segment starts in them, and it adds the offset within the first page twice for the
copy. Both are right for segments that start at a page, and for no others.
-/

namespace ImagineOS.Bootstrap

open Memory Radix List Option

/-! ### The functions of the source -/

abbrev maxLoadSegments : ℕ := 12

abbrev maxProgramHeaders : ℕ := 64

abbrev maxReservedRanges : ℕ := 1024

/-- `read_u16`, `read_u32` and `read_u64`: an integer of `w` bytes. -/
def readLe (w : ℕ) (bytes : List UInt8) (offset : ℕ) : Option ℕ :=
  if offset + w ≤ bytes.length then some (leNat ((bytes.drop offset).take w)) else none

/-- The header of a segment that is to be loaded. -/
def readSegment (elf : List UInt8) (offset : ℕ) : Option LoadSegment := do
  let fileOffset ← readLe 8 elf (offset + 8)
  let virtualAddress ← readLe 8 elf (offset + 16)
  let fileSize ← readLe 8 elf (offset + 32)
  let memorySize ← readLe 8 elf (offset + 40)
  if memorySize < fileSize ∨
      ¬ (fileOffset + fileSize < 2 ^ 64 ∧ fileOffset + fileSize ≤ elf.length) ∨
      memorySize = 0 then none
  else if 2 ^ 64 ≤ virtualAddress + memorySize then none
  else
    let flags ← readLe 4 elf (offset + 4)
    return ⟨virtualAddress, fileOffset, fileSize, memorySize, flags⟩

/-- The loop over the headers. -/
def readSegments (elf : List UInt8) (programOffset entrySize : ℕ) :
    List ℕ → List LoadSegment → Option (List LoadSegment)
  | [], segments => some segments
  | index :: rest, segments => do
    let offset := programOffset + index * entrySize
    let kind ← readLe 4 elf offset
    if kind ≠ 1 then readSegments elf programOffset entrySize rest segments
    else if segments.length = maxLoadSegments then none
    else
      let segment ← readSegment elf offset
      readSegments elf programOffset entrySize rest (segments ++ [segment])

/-- The first half of `load_elf`: the entry and the segments to load. -/
def readHeaders (elf : List UInt8) : Option (ℕ × List LoadSegment) :=
  if elf.take 6 ≠ [0x7f, 0x45, 0x4c, 0x46, 2, 1] then none
  else do
    let machine ← readLe 2 elf 18
    if machine ≠ 62 then none
    else
      let kind ← readLe 2 elf 16
      if kind ≠ 2 then none
      else
        let entry ← readLe 8 elf 24
        let programOffset ← readLe 8 elf 32
        let entrySize ← readLe 2 elf 54
        let count ← readLe 2 elf 56
        if entrySize < 56 ∨ count = 0 ∨ maxProgramHeaders < count then none
        else if ¬ (entrySize * count < 2 ^ 64 ∧ programOffset + entrySize * count < 2 ^ 64 ∧
            programOffset + entrySize * count ≤ elf.length) then none
        else
          let segments ← readSegments elf programOffset entrySize (List.range count) []
          if segments = [] then none else return (entry, segments)

/-- The loop over the pages of a segment, by their offsets. -/
def mapPages (root virtualStart physicalStart : ℕ) : List ℕ → Loader → Option Loader
  | [], s => some s
  | pageOffset :: rest, s => do
    let s ← mapPage root (virtualStart + pageOffset) (physicalStart + pageOffset) s
    mapPages root virtualStart physicalStart rest s

/-- The offsets of the pages of a range. -/
def pageOffsets (length : ℕ) : List ℕ := (List.range (length / pageSize)).map (· * pageSize)

/-- `span.checked_add(PAGE_SIZE - 1)? & PAGE_MASK` -/
def LoadSegment.allocatedLength (segment : LoadSegment) : ℕ :=
  alignDown (segment.virtualAddress % pageSize + segment.memorySize + (pageSize - 1))

/-- The bytes of a segment in the file. -/
def LoadSegment.fileBytes (segment : LoadSegment) (elf : List UInt8) : List UInt8 :=
  (elf.drop segment.fileOffset).take segment.fileSize

/-- The bytes that are written for a segment: those that are cleared, and those that are copied. -/
def LoadSegment.placement (segment : LoadSegment) (range : PhysicalRange) : Placement where
  segment := segment
  range := range
  writes :=
    let target := range.start + segment.virtualAddress % pageSize
    [⟨target, segment.allocatedLength⟩,
      ⟨target + segment.virtualAddress % pageSize, segment.fileSize⟩]

/-- `write_bytes` and `copy_nonoverlapping`: a segment is written into its pages. -/
def Loader.place (s : Loader) (elf : List UInt8) (segment : LoadSegment) (range : PhysicalRange) :
    Loader :=
  let pageOffset := segment.virtualAddress % pageSize
  let target := range.start + pageOffset
  { s with
    memory := (s.memory.fill target segment.allocatedLength 0).store (target + pageOffset)
      (segment.fileBytes elf)
    placed := s.placed ++ [segment.placement range] }

/-- The body of the loop over the segments. -/
def loadSegment (root : ℕ) (elf : List UInt8) (segment : LoadSegment) (s : Loader) :
    Option Loader :=
  if 2 ^ 64 ≤ segment.virtualAddress % pageSize + segment.memorySize + (pageSize - 1) then none
  else do
    let (range, regions) ← allocateContiguous segment.allocatedLength s.regions
    if s.reserved.length = maxReservedRanges then none
    else
      let s := { s with regions := regions, reserved := s.reserved ++ [range] }
      let s ← mapPages root (alignDown segment.virtualAddress) range.start
        (pageOffsets segment.allocatedLength) s
      return s.place elf segment range

/-- The loop over the segments. -/
def loadSegments (root : ℕ) (elf : List UInt8) : List LoadSegment → Loader → Option Loader
  | [], s => some s
  | segment :: rest, s => do
    let s ← loadSegment root elf segment s
    loadSegments root elf rest s

/-- The entry is in a segment that is executable. -/
def LoadSegment.executes (segment : LoadSegment) (entry : ℕ) : Prop :=
  segment.flags % 2 ≠ 0 ∧ segment.virtualAddress ≤ entry ∧
    entry < segment.virtualAddress + segment.memorySize

instance (segment : LoadSegment) (entry : ℕ) : Decidable (segment.executes entry) :=
  inferInstanceAs (Decidable (_ ∧ _))

def loadElf (root : ℕ) (elf : List UInt8) (s : Loader) : Option (ℕ × Loader) := do
  let (entry, segments) ← readHeaders elf
  let s ← loadSegments root elf segments s
  if ∃ segment ∈ segments, segment.executes entry then return (entry, s) else none

/-! ### Segments in their places -/

/-- The segments of an image. -/
def imageSegments (elf : List UInt8) : List LoadSegment :=
  match readHeaders elf with
  | some (_, segments) => segments
  | none => []

/-- What is at an address. -/
def view (root : ℕ) (s : Loader) (virtualAddress : ℕ) : Option UInt8 :=
  (translate root s virtualAddress).map s.memory

/-- **A segment that is where it should be**: the bytes of the file, then zeros, and nothing was
written for it outside its pages. -/
structure Placement.Exact (root : ℕ) (elf : List UInt8) (s : Loader) (p : Placement) : Prop where
  file : ∀ i < p.segment.fileSize, ∃ b, elf[p.segment.fileOffset + i]? = some b ∧
    view root s (p.segment.virtualAddress + i) = some b
  zero : ∀ i, p.segment.fileSize ≤ i → i < p.segment.memorySize →
    view root s (p.segment.virtualAddress + i) = some 0
  inside : ∀ w ∈ p.writes, ∀ k < w.length, w.start + k ∈ p.range.addresses

/-- **An exact load**: every segment of the image is where it should be, and of the memory only its
pages and tables are written. -/
structure ExactLoad (root : ℕ) (elf : List UInt8) (s s' : Loader) : Prop where
  segments : s'.placed.map Placement.segment = imageSegments elf
  exact : ∀ p ∈ s'.placed, p.Exact root elf s'
  others : ∀ x, (∀ p ∈ s'.placed, x ∉ p.range.addresses) → ¬ InTable root s' x →
    s'.memory x = s.memory x

/-! ### Pages for a segment -/

/-- The regions are aligned and apart. -/
structure Regions (regions : List BootRegion) : Prop where
  aligned : ∀ g ∈ regions, pageSize ∣ g.next ∧ pageSize ∣ g.stop
  apart : regions.Pairwise fun g h => Disjoint (Set.Ico g.next g.stop) (Set.Ico h.next h.stop)

/-- **A range is taken** from the front of a region. -/
structure Taken (regions regions' : List BootRegion) (range : PhysicalRange) : Prop where
  left : Regions regions'
  start : pageSize ∣ range.start
  inside : ∃ g ∈ regions, range.addresses ⊆ Set.Ico g.next g.stop
  smaller : ∀ g' ∈ regions', ∃ g ∈ regions, Set.Ico g'.next g'.stop ⊆ Set.Ico g.next g.stop
  gone : ∀ g' ∈ regions', Disjoint range.addresses (Set.Ico g'.next g'.stop)

/-- **Allocation** takes a range of whole pages. -/
theorem taken_allocateContiguous {bytes : ℕ} {regions regions' : List BootRegion}
    {range : PhysicalRange} (h : Regions regions)
    (hallocate : allocateContiguous bytes regions = some (range, regions')) :
    Taken regions regions' range := by
  induction regions generalizing regions' with
  | nil => cases hallocate
  | cons g regions ih =>
    obtain ⟨hfirst, hrest⟩ := pairwise_cons.mp h.apart
    have haligned := h.aligned g mem_cons_self
    rw [allocateContiguous] at hallocate
    split_ifs at hallocate with hroom hstop
    · obtain ⟨rfl, rfl⟩ := Prod.mk.inj (Option.some.inj hallocate)
      have hnext : g.next ≤ g.next + alignDown (bytes + (pageSize - 1)) := Nat.le_add_right _ _
      exact {
        left :=
          { aligned := fun g' hg' => by
              rcases mem_cons.mp hg' with rfl | hg'
              · exact ⟨Nat.dvd_add haligned.1 (Nat.dvd_mul_left _ _), haligned.2⟩
              · exact h.aligned g' (mem_cons_of_mem _ hg')
            apart := pairwise_cons.mpr ⟨fun g' hg' =>
              (hfirst g' hg').mono_left (Set.Ico_subset_Ico_left hnext), hrest⟩ }
        start := haligned.1
        inside := ⟨g, mem_cons_self, Set.Ico_subset_Ico_right hstop⟩
        smaller := fun g' hg' => by
          rcases mem_cons.mp hg' with rfl | hg'
          · exact ⟨g, mem_cons_self, Set.Ico_subset_Ico_left hnext⟩
          · exact ⟨g', mem_cons_of_mem _ hg', subset_rfl⟩
        gone := fun g' hg' => by
          rcases mem_cons.mp hg' with rfl | hg'
          · exact Set.disjoint_left.mpr fun x hx hx' => absurd hx.2 (Nat.not_lt.mpr hx'.1)
          · exact (hfirst g' hg').mono_left (Set.Ico_subset_Ico_right hstop) }
    · obtain ⟨⟨range', rest⟩, hlater, heq⟩ := map_eq_some_iff.mp hallocate
      obtain ⟨rfl, rfl⟩ := Prod.mk.inj heq
      have hregions : Regions regions :=
        ⟨fun g' hg' => h.aligned g' (mem_cons_of_mem _ hg'), hrest⟩
      have htaken := ih hregions hlater
      obtain ⟨d, hd, hinside⟩ := htaken.inside
      exact {
        left :=
          { aligned := fun g' hg' => by
              rcases mem_cons.mp hg' with rfl | hg'
              · exact haligned
              · exact htaken.left.aligned g' hg'
            apart := pairwise_cons.mpr ⟨fun g' hg' => by
              obtain ⟨c, hc, hsub⟩ := htaken.smaller g' hg'
              exact (hfirst c hc).mono_right hsub, htaken.left.apart⟩ }
        start := htaken.start
        inside := ⟨d, mem_cons_of_mem _ hd, hinside⟩
        smaller := fun g' hg' => by
          rcases mem_cons.mp hg' with rfl | hg'
          · exact ⟨g', mem_cons_self, subset_rfl⟩
          · obtain ⟨c, hc, hsub⟩ := htaken.smaller g' hg'
            exact ⟨c, mem_cons_of_mem _ hc, hsub⟩
        gone := fun g' hg' => by
          rcases mem_cons.mp hg' with rfl | hg'
          · exact ((hfirst d hd).mono_right hinside).symm
          · exact htaken.gone g' hg' }

theorem length_allocateContiguous {bytes : ℕ} {regions regions' : List BootRegion}
    {range : PhysicalRange} (h : allocateContiguous bytes regions = some (range, regions')) :
    range.length = alignDown (bytes + (pageSize - 1)) := by
  induction regions generalizing regions' with
  | nil => cases h
  | cons g regions ih =>
    rw [allocateContiguous] at h
    split_ifs at h
    · obtain ⟨rfl, -⟩ := Prod.mk.inj (Option.some.inj h)
      rfl
    · obtain ⟨⟨range', rest⟩, hlater, heq⟩ := map_eq_some_iff.mp h
      obtain ⟨rfl, -⟩ := Prod.mk.inj heq
      exact ih hlater

section Segments

variable {root : ℕ} {elf : List UInt8} {data data' : Set ℕ} {s s' : Loader}
  {regions : List BootRegion} {range : PhysicalRange} {segment : LoadSegment}

/-- **Pages are taken** for data. -/
theorem Ready.take (h : Ready root data s) (htaken : Taken s.regions regions range) :
    Ready root (data ∪ range.addresses)
      { s with regions := regions, reserved := s.reserved ++ [range] } := by
  obtain ⟨g, hg, hinside⟩ := htaken.inside
  have hrange : ∀ x ∈ range.addresses, s.Free x := fun x hx => Or.inl ⟨g, hg, hinside hx⟩
  have hfree : ∀ x, Loader.Free
      { s with regions := regions, reserved := s.reserved ++ [range] } x → s.Free x := by
    rintro x (⟨g', hg', hx⟩ | hpool)
    · obtain ⟨c, hc, hsub⟩ := htaken.smaller g' hg'
      exact Or.inl ⟨c, hc, hsub hx⟩
    · exact Or.inr hpool
  exact {
    aligned := htaken.left.aligned
    apart := htaken.left.apart
    poolAligned := h.poolAligned
    poolApart := fun g' hg' => by
      obtain ⟨c, hc, hsub⟩ := htaken.smaller g' hg'
      exact (h.poolApart c hc).mono_right hsub
    width := fun x hx => h.width x (hfree x hx)
    rootAligned := h.rootAligned
    tree := h.tree
    tables := fun path hpath t ht k hk => by
      obtain ⟨hnot, hdata⟩ := h.tables path hpath t ht k hk
      exact ⟨fun hx => hnot (hfree _ hx), fun hx => hx.elim hdata fun hx => hnot (hrange _ hx)⟩
    data := fun x hx hx' => by
      rcases hx with hx | hx
      · exact h.data x hx (hfree x hx')
      · rcases hx' with ⟨g', hg', hin⟩ | hpool
        · exact Set.disjoint_left.mp (htaken.gone g' hg') hx hin
        · exact Set.disjoint_left.mp (h.poolApart g hg) hpool (hinside hx) }

/-- **Pages are mapped**, one after the other. -/
theorem extends_mapPages {v f : ℕ} {offsets : List ℕ} (h : Ready root data s) (hv : pageSize ∣ v)
    (hf : pageSize ∣ f) (hoffsets : ∀ o ∈ offsets, pageSize ∣ o ∧ f + o < 2 ^ 52)
    (hmap : mapPages root v f offsets s = some s') :
    Extends root data s s' ∧ ∀ o ∈ offsets, ∀ k < pageSize,
      translate root s' (v + o + k) = some (f + o + k) := by
  induction offsets generalizing s with
  | nil =>
    obtain rfl := Option.some.inj hmap
    exact ⟨.refl h, nofun⟩
  | cons o rest ih =>
    obtain ⟨s₁, hpage, hrest⟩ := bind_eq_some_iff.mp hmap
    obtain ⟨hdvd, hlt⟩ := hoffsets o mem_cons_self
    obtain ⟨hextends, hmapped⟩ :=
      mapPage_spec h (Nat.dvd_add hv hdvd) (Nat.dvd_add hf hdvd) hlt hpage
    obtain ⟨hextends', hmapped'⟩ :=
      ih hextends.ready (fun o ho => hoffsets o (mem_cons_of_mem _ ho)) hrest
    refine ⟨hextends.trans hextends', fun o' ho' k hk => ?_⟩
    rcases mem_cons.mp ho' with rfl | ho'
    · exact hextends'.keeps _ _ (hmapped k hk)
    · exact hmapped' o' ho' k hk

/-! ### One segment after the other -/

/-- The bounds that `load_elf` checks. -/
structure LoadSegment.Valid (segment : LoadSegment) (elf : List UInt8) : Prop where
  size : segment.fileSize ≤ segment.memorySize
  file : segment.fileOffset + segment.fileSize ≤ elf.length
  pos : 0 < segment.memorySize

/-- **What is kept of a segment** while others are loaded. -/
structure Placed (root : ℕ) (elf : List UInt8) (data : Set ℕ) (s : Loader) (p : Placement) :
    Prop where
  valid : p.segment.Valid elf
  data : p.range.addresses ⊆ data
  room : p.segment.memorySize ≤ p.range.length
  mapped : ∀ k < p.segment.memorySize,
    translate root s (p.segment.virtualAddress + k) = some (p.range.start + k)
  file : ∀ k < p.segment.fileSize,
    elf[p.segment.fileOffset + k]? = some (s.memory (p.range.start + k))
  zero : ∀ k, p.segment.fileSize ≤ k → k < p.segment.memorySize →
    s.memory (p.range.start + k) = 0
  inside : ∀ w ∈ p.writes, ∀ k < w.length, w.start + k ∈ p.range.addresses

theorem Placed.exact {p : Placement} (h : Placed root elf data s p) : p.Exact root elf s where
  file i hi := by
    refine ⟨_, h.file i hi, ?_⟩
    rw [view, h.mapped i (hi.trans_le h.valid.size)]
    rfl
  zero i hi hlt := by
    rw [view, h.mapped i hlt, map_some, h.zero i hi hlt]
  inside := h.inside

theorem Placed.of_agree {p : Placement} (h : Placed root elf data s p)
    (hdata : p.range.addresses ⊆ data')
    (hmemory : ∀ x ∈ p.range.addresses, s'.memory x = s.memory x)
    (hkeeps : ∀ v q, translate root s v = some q → translate root s' v = some q) :
    Placed root elf data' s' p := by
  have hin : ∀ k < p.segment.memorySize, p.range.start + k ∈ p.range.addresses := fun k hk =>
    ⟨Nat.le_add_right _ _, Nat.add_lt_add_left (hk.trans_le h.room) _⟩
  refine ⟨h.valid, hdata, h.room, fun k hk => hkeeps _ _ (h.mapped k hk), fun k hk => ?_,
    fun k hk hlt => ?_, h.inside⟩
  · rw [h.file k hk, hmemory _ (hin k (hk.trans_le h.valid.size))]
  · rw [hmemory _ (hin k hlt), h.zero k hk hlt]

/-- Every segment so far is in its place. -/
structure Loading (root : ℕ) (elf : List UInt8) (data : Set ℕ) (s₀ s : Loader) : Prop where
  ready : Ready root data s
  placed : ∀ p ∈ s.placed, Placed root elf data s p
  pages : ∀ x ∈ data, ∃ p ∈ s.placed, x ∈ p.range.addresses
  others : ∀ x, x ∉ data → ¬ InTable root s x → s.memory x = s₀.memory x

theorem alignDown_add {n : ℕ} (h : pageSize ∣ n) : alignDown (n + (pageSize - 1)) = n := by
  obtain ⟨k, rfl⟩ := h
  simp only [alignDown, pageSize]
  omega

theorem le_alignDown (n : ℕ) : n ≤ alignDown (n + (pageSize - 1)) := by
  simp only [alignDown, pageSize]
  omega

theorem placed_place_eq :
    (s.place elf segment range).placed = s.placed ++ [segment.placement range] := rfl

theorem place_memory (hvalid : segment.Valid elf) (hzero : segment.virtualAddress % pageSize = 0)
    (x : ℕ) : (s.place elf segment range).memory x =
      if range.start ≤ x ∧ x < range.start + segment.fileSize then
        elf.getD (segment.fileOffset + (x - range.start)) 0
      else if range.start ≤ x ∧ x < range.start + segment.allocatedLength then 0
      else s.memory x := by
  have hlength : (segment.fileBytes elf).length = segment.fileSize := by
    have := hvalid.file
    rw [LoadSegment.fileBytes, length_take, length_drop]
    omega
  have hbyte : ∀ k < segment.fileSize,
      (segment.fileBytes elf).getD k 0 = elf.getD (segment.fileOffset + k) 0 := fun k hk => by
    rw [LoadSegment.fileBytes, getD_eq_getElem?_getD, List.getElem?_take_of_lt hk,
      List.getElem?_drop, getD_eq_getElem?_getD]
  rw [Loader.place, hzero]
  simp only [Nat.add_zero, ByteStore.store, ByteStore.fill, hlength]
  split
  · rename_i hin
    exact hbyte _ (by omega)
  · rfl

theorem place_memory_of_not_mem (hvalid : segment.Valid elf)
    (hzero : segment.virtualAddress % pageSize = 0)
    (hlength : range.length = segment.allocatedLength)
    (hsize : segment.memorySize ≤ segment.allocatedLength) {x : ℕ} (hx : x ∉ range.addresses) :
    (s.place elf segment range).memory x = s.memory x := by
  have hout : ¬ (range.start ≤ x ∧ x < range.start + segment.allocatedLength) := hlength ▸ hx
  have hfile := hvalid.size
  rw [place_memory hvalid hzero, if_neg (by omega), if_neg hout]

/-- **The pages of a segment** that starts at a page, once they are mapped. -/
theorem placed_place (hvalid : segment.Valid elf) (hzero : segment.virtualAddress % pageSize = 0)
    (hlength : range.length = segment.allocatedLength)
    (hsize : segment.memorySize ≤ segment.allocatedLength) (hdata : range.addresses ⊆ data)
    (hmapped : ∀ k < segment.memorySize,
      translate root (s.place elf segment range) (segment.virtualAddress + k) =
        some (range.start + k)) :
    Placed root elf data (s.place elf segment range) (segment.placement range) where
  valid := hvalid
  data := hdata
  room := show segment.memorySize ≤ range.length from hlength ▸ hsize
  mapped := hmapped
  file k hk := by
    have hk : k < segment.fileSize := hk
    have hlt : segment.fileOffset + k < elf.length := by
      have := hvalid.file
      omega
    show elf[segment.fileOffset + k]? =
      some ((s.place elf segment range).memory (range.start + k))
    rw [place_memory hvalid hzero, if_pos ⟨Nat.le_add_right _ _, Nat.add_lt_add_left hk _⟩,
      Nat.add_sub_cancel_left, getD_eq_getElem?_getD, List.getElem?_eq_getElem hlt]
    rfl
  zero k hk hlt := by
    have hk : segment.fileSize ≤ k := hk
    have hlt : k < segment.memorySize := hlt
    show (s.place elf segment range).memory (range.start + k) = 0
    rw [place_memory hvalid hzero, if_neg (by omega), if_pos (by omega)]
  inside w hw k hk := by
    have hfile := hvalid.size
    show range.start ≤ w.start + k ∧ w.start + k < range.start + range.length
    simp only [LoadSegment.placement, hzero, Nat.add_zero, mem_cons, not_mem_nil, or_false] at hw
    rcases hw with rfl | rfl
    · have hk : k < segment.allocatedLength := hk
      show range.start ≤ range.start + k ∧ range.start + k < range.start + range.length
      omega
    · have hk : k < segment.fileSize := hk
      show range.start ≤ range.start + k ∧ range.start + k < range.start + range.length
      omega

theorem loadSegment_eq_some (hload : loadSegment root elf segment s = some s') :
    ∃ range regions s₁,
      allocateContiguous segment.allocatedLength s.regions = some (range, regions) ∧
      mapPages root (alignDown segment.virtualAddress) range.start
        (pageOffsets segment.allocatedLength)
        { s with regions := regions, reserved := s.reserved ++ [range] } = some s₁ ∧
      s' = s₁.place elf segment range := by
  rw [loadSegment] at hload
  split at hload
  · cases hload
  obtain ⟨⟨range, regions⟩, hallocate, hload⟩ := bind_eq_some_iff.mp hload
  dsimp only at hload
  split at hload
  · cases hload
  obtain ⟨s₁, hmap, hload⟩ := bind_eq_some_iff.mp hload
  exact ⟨range, regions, s₁, hallocate, hmap, (Option.some.inj hload).symm⟩

/-- **One more segment**, which starts at a page. -/
theorem loadSegment_spec {s₀ : Loader} (h : Loading root elf data s₀ s)
    (hvalid : segment.Valid elf) (haligned : pageSize ∣ segment.virtualAddress)
    (hload : loadSegment root elf segment s = some s') :
    ∃ data', Loading root elf data' s₀ s' := by
  obtain ⟨range, regions, s₁, hallocate, hmap, rfl⟩ := loadSegment_eq_some hload
  have hzero : segment.virtualAddress % pageSize = 0 := Nat.mod_eq_zero_of_dvd haligned
  have hpages : pageSize ∣ segment.allocatedLength := Nat.dvd_mul_left _ _
  have hsize : segment.memorySize ≤ segment.allocatedLength := by
    have hle := le_alignDown (segment.virtualAddress % pageSize + segment.memorySize)
    rw [LoadSegment.allocatedLength]
    omega
  have htaken := taken_allocateContiguous ⟨h.ready.aligned, h.ready.apart⟩ hallocate
  have hlength := length_allocateContiguous hallocate
  rw [alignDown_add hpages] at hlength
  have hfree : ∀ x ∈ range.addresses, s.Free x := fun x hx => by
    obtain ⟨g, hg, hinside⟩ := htaken.inside
    exact Or.inl ⟨g, hg, hinside hx⟩
  have hoffsets : ∀ o ∈ pageOffsets segment.allocatedLength,
      pageSize ∣ o ∧ range.start + o < 2 ^ 52 := fun o ho => by
    obtain ⟨n, hn, rfl⟩ := mem_map.mp ho
    have hlt : n * pageSize < range.length := by
      rw [hlength]
      exact (Nat.lt_div_iff_mul_lt_of_dvd (by decide) hpages).mp (mem_range.mp hn)
    exact ⟨Nat.dvd_mul_left _ _, h.ready.width _ (hfree _
      ⟨Nat.le_add_right _ _, Nat.add_lt_add_left hlt _⟩)⟩
  have hstart : alignDown segment.virtualAddress = segment.virtualAddress :=
    Nat.div_mul_cancel haligned
  rw [hstart] at hmap
  obtain ⟨hextends, hmapped⟩ :=
    extends_mapPages (h.ready.take htaken) haligned htaken.start hoffsets hmap
  -- The segment is written into its own pages.
  have hplace : ∀ x ∉ range.addresses, (s₁.place elf segment range).memory x = s₁.memory x :=
    fun x hx => place_memory_of_not_mem hvalid hzero hlength hsize hx
  obtain ⟨hready, htables, htranslate⟩ :=
    hextends.ready.write fun x hx => hplace x fun hin => hx (Or.inr hin)
  have hkeeps : ∀ v q, translate root s v = some q →
      translate root (s₁.place elf segment range) v = some q := fun v q hv =>
    (htranslate v).trans (hextends.keeps v q hv)
  refine ⟨data ∪ range.addresses, { hready with }, fun p hp => ?_, fun x hx => ?_,
    fun x hx hnot => ?_⟩
  · have hplaced : p ∈ s.placed ∨ p = segment.placement range := by
      rw [placed_place_eq, hextends.placed] at hp
      exact (mem_append.mp hp).imp_right mem_singleton.mp
    rcases hplaced with hold | rfl
    · have hold := h.placed p hold
      refine hold.of_agree (hold.data.trans Set.subset_union_left) (fun x hx => ?_) hkeeps
      have hin := hold.data hx
      rw [hplace x fun hr => h.ready.data x hin (hfree x hr)]
      exact hextends.memory x (Or.inl hin)
    · refine placed_place hvalid hzero hlength hsize Set.subset_union_right fun k hk => ?_
      refine (htranslate _).trans ?_
      have hoffset : k / pageSize * pageSize ∈ pageOffsets segment.allocatedLength := by
        refine mem_map.mpr ⟨k / pageSize, mem_range.mpr ?_, rfl⟩
        exact Nat.div_lt_div_of_lt_of_dvd hpages (hk.trans_le hsize)
      have hk' := hmapped _ hoffset (k % pageSize) (Nat.mod_lt k (by decide))
      rwa [Nat.add_assoc, Nat.add_assoc, Nat.div_add_mod'] at hk'
  · rcases hx with hx | hx
    · obtain ⟨p, hp, hin⟩ := h.pages x hx
      refine ⟨p, ?_, hin⟩
      rw [placed_place_eq, hextends.placed]
      exact mem_append_left _ hp
    · refine ⟨segment.placement range, ?_, hx⟩
      rw [placed_place_eq]
      exact mem_append_right _ (mem_singleton_self _)
  · have hnot₁ : ¬ InTable root s₁ x := fun ht => hnot ((htables x).mpr ht)
    rw [hplace x fun hin => hx (Or.inr hin), hextends.others x hnot₁]
    exact h.others x (fun hin => hx (Or.inl hin)) fun ht => hnot₁ (hextends.tables x ht)

variable {segments : List LoadSegment}

/-- **All segments**, each of which starts at a page. -/
theorem loadSegments_spec {s₀ : Loader}
    (h : Loading root elf data s₀ s) (hvalid : ∀ segment ∈ segments, segment.Valid elf)
    (haligned : ∀ segment ∈ segments, pageSize ∣ segment.virtualAddress)
    (hload : loadSegments root elf segments s = some s') :
    ∃ data', Loading root elf data' s₀ s' := by
  induction segments generalizing s data with
  | nil =>
    obtain rfl := Option.some.inj hload
    exact ⟨data, h⟩
  | cons segment rest ih =>
    rw [loadSegments] at hload
    obtain ⟨s₁, hfirst, hrest⟩ := bind_eq_some_iff.mp hload
    obtain ⟨data₁, h₁⟩ := loadSegment_spec h (hvalid segment mem_cons_self)
      (haligned segment mem_cons_self) hfirst
    exact ih h₁ (fun x hx => hvalid x (mem_cons_of_mem _ hx))
      (fun x hx => haligned x (mem_cons_of_mem _ hx)) hrest

/-! ### What is written -/

theorem placed_nextTable {t t' : ℕ} {i : Fin 512} (h : nextTable t i s = some (t', s')) :
    s'.placed = s.placed := by
  rw [nextTable] at h
  split at h
  · obtain ⟨⟨b, s₁⟩, hallocate, h⟩ := bind_eq_some_iff.mp h
    obtain ⟨-, -, rfl⟩ := allocateTable_eq_some hallocate
    obtain ⟨-, rfl⟩ := Prod.mk.inj (Option.some.inj h)
    rfl
  · split at h
    · cases h
    · obtain ⟨-, rfl⟩ := Prod.mk.inj (Option.some.inj h)
      rfl

theorem placed_descend {rest : List (Fin 512)} {t t' : ℕ}
    (h : descend rest t s = some (t', s')) : s'.placed = s.placed := by
  induction rest generalizing t s with
  | nil =>
    obtain ⟨-, rfl⟩ := Prod.mk.inj (Option.some.inj h)
    rfl
  | cons i rest ih =>
    obtain ⟨⟨t₁, s₁⟩, hnext, hrest⟩ := bind_eq_some_iff.mp h
    exact (ih hrest).trans (placed_nextTable hnext)

theorem placed_mapPages {v f : ℕ} {offsets : List ℕ}
    (h : mapPages root v f offsets s = some s') : s'.placed = s.placed := by
  induction offsets generalizing s with
  | nil =>
    obtain rfl := Option.some.inj h
    rfl
  | cons o rest ih =>
    obtain ⟨s₁, hpage, hrest⟩ := bind_eq_some_iff.mp h
    obtain ⟨⟨t, s₂⟩, hdescend, hentry⟩ := bind_eq_some_iff.mp hpage
    dsimp only at hentry
    split at hentry
    · cases hentry
    · have hs₁ : s₁.placed = s₂.placed := by
        rw [← Option.some.inj hentry]
        rfl
      exact (ih hrest).trans (hs₁.trans (placed_descend hdescend))

theorem placed_loadSegments (h : loadSegments root elf segments s = some s') :
    ∃ ranges : List PhysicalRange,
      s'.placed = s.placed ++ List.zipWith LoadSegment.placement segments ranges ∧
      List.Forall₂ (fun segment range => range.length = segment.allocatedLength) segments
        ranges := by
  induction segments generalizing s with
  | nil =>
    obtain rfl := Option.some.inj h
    exact ⟨[], (append_nil _).symm, .nil⟩
  | cons segment rest ih =>
    rw [loadSegments] at h
    obtain ⟨s₁, hfirst, hrest⟩ := bind_eq_some_iff.mp h
    obtain ⟨range, regions, s₂, hallocate, hmap, rfl⟩ := loadSegment_eq_some hfirst
    obtain ⟨ranges, hplaced, hlengths⟩ := ih hrest
    refine ⟨range :: ranges, ?_, .cons ?_ hlengths⟩
    · rw [hplaced, placed_place_eq, placed_mapPages hmap, zipWith_cons_cons,
        append_assoc, singleton_append]
    · rw [length_allocateContiguous hallocate]
      exact alignDown_add (Nat.dvd_mul_left _ _)

/-! ### Images -/

theorem valid_readSegment {offset : ℕ} (h : readSegment elf offset = some segment) :
    segment.Valid elf := by
  rw [readSegment] at h
  obtain ⟨fileOffset, -, h⟩ := bind_eq_some_iff.mp h
  obtain ⟨virtualAddress, -, h⟩ := bind_eq_some_iff.mp h
  obtain ⟨fileSize, -, h⟩ := bind_eq_some_iff.mp h
  obtain ⟨memorySize, -, h⟩ := bind_eq_some_iff.mp h
  split at h
  · cases h
  rename_i hbounds
  split at h
  · cases h
  obtain ⟨flags, -, h⟩ := bind_eq_some_iff.mp h
  obtain rfl := Option.some.inj h
  exact ⟨show fileSize ≤ memorySize by omega, show fileOffset + fileSize ≤ elf.length by omega,
    show 0 < memorySize by omega⟩

theorem valid_readSegments {programOffset entrySize : ℕ} {indices : List ℕ}
    {found : List LoadSegment} (hfound : ∀ segment ∈ found, segment.Valid elf)
    (h : readSegments elf programOffset entrySize indices found = some segments) :
    ∀ segment ∈ segments, segment.Valid elf := by
  induction indices generalizing found with
  | nil =>
    obtain rfl := Option.some.inj h
    exact hfound
  | cons index rest ih =>
    rw [readSegments] at h
    obtain ⟨kind, -, h⟩ := bind_eq_some_iff.mp h
    split at h
    · exact ih hfound h
    split at h
    · cases h
    obtain ⟨segment, hsegment, h⟩ := bind_eq_some_iff.mp h
    refine ih (fun x hx => ?_) h
    rcases mem_append.mp hx with hx | hx
    · exact hfound x hx
    · rw [mem_singleton.mp hx]
      exact valid_readSegment hsegment

theorem valid_readHeaders {entry : ℕ}
    (h : readHeaders elf = some (entry, segments)) : ∀ segment ∈ segments, segment.Valid elf := by
  rw [readHeaders] at h
  split at h
  · cases h
  obtain ⟨machine, -, h⟩ := bind_eq_some_iff.mp h
  split at h
  · cases h
  obtain ⟨kind, -, h⟩ := bind_eq_some_iff.mp h
  split at h
  · cases h
  obtain ⟨e, -, h⟩ := bind_eq_some_iff.mp h
  obtain ⟨programOffset, -, h⟩ := bind_eq_some_iff.mp h
  obtain ⟨entrySize, -, h⟩ := bind_eq_some_iff.mp h
  obtain ⟨count, -, h⟩ := bind_eq_some_iff.mp h
  split at h
  · cases h
  split at h
  · cases h
  obtain ⟨found, hfound, h⟩ := bind_eq_some_iff.mp h
  split at h
  · cases h
  obtain ⟨-, rfl⟩ := Prod.mk.inj (Option.some.inj h)
  exact valid_readSegments (fun _ hx => absurd hx not_mem_nil) hfound

/-- The bootstrap before it loads the kernel: free memory, the pool and the tables do not meet. -/
structure Fresh (root : ℕ) (s : Loader) : Prop where
  ready : Ready root ∅ s
  placed : s.placed = []

theorem mem_placements {ranges : List PhysicalRange}
    (h : List.Forall₂ (fun segment range => range.length = segment.allocatedLength) segments
      ranges) (hmem : segment ∈ segments) : ∃ range, range.length = segment.allocatedLength ∧
      segment.placement range ∈ List.zipWith LoadSegment.placement segments ranges := by
  induction h with
  | nil => exact absurd hmem not_mem_nil
  | @cons x range rest ranges hx _ ih =>
    rcases mem_cons.mp hmem with rfl | hmem
    · exact ⟨range, hx, mem_cons_self⟩
    · obtain ⟨range', hlength, hin⟩ := ih hmem
      exact ⟨range', hlength, mem_cons_of_mem _ hin⟩

theorem map_placements {ranges : List PhysicalRange}
    (h : List.Forall₂ (fun segment range => range.length = segment.allocatedLength) segments
      ranges) :
    (List.zipWith LoadSegment.placement segments ranges).map Placement.segment = segments := by
  induction h with
  | nil => rfl
  | cons _ _ ih => exact congrArg _ ih

theorem dvd_of_inside (hvalid : segment.Valid elf)
    (hlength : range.length = segment.allocatedLength)
    (h : ∀ w ∈ (segment.placement range).writes, ∀ k < w.length, w.start + k ∈ range.addresses) :
    pageSize ∣ segment.virtualAddress := by
  have hle := le_alignDown (segment.virtualAddress % pageSize + segment.memorySize)
  have hpos : 0 < segment.allocatedLength := by
    have := hvalid.pos
    rw [LoadSegment.allocatedLength]
    omega
  have hlast := (h _ mem_cons_self (segment.allocatedLength - 1) (Nat.sub_one_lt_of_lt hpos)).2
  rw [hlength] at hlast
  refine Nat.dvd_of_mod_eq_zero ?_
  have hlast : range.start + segment.virtualAddress % pageSize + (segment.allocatedLength - 1) <
    range.start + segment.allocatedLength := hlast
  omega

/-- **The kernel is loaded exactly if its segments start at pages.** -/
theorem loadElf_exact_iff (h : Fresh root s) {entry : ℕ}
    (hload : loadElf root elf s = some (entry, s')) :
    ExactLoad root elf s s' ↔ ∀ segment ∈ imageSegments elf, pageSize ∣ segment.virtualAddress := by
  rw [loadElf] at hload
  obtain ⟨⟨e, segments⟩, hheaders, hload⟩ := Option.bind_eq_some_iff.mp hload
  obtain ⟨s₁, hsegments, hload⟩ := Option.bind_eq_some_iff.mp hload
  have himage : imageSegments elf = segments := by
    rw [imageSegments, hheaders]
  have hs' : s₁ = s' := by
    split at hload
    · exact (Prod.mk.inj (Option.some.inj hload)).2
    · cases hload
  subst hs'
  have hvalid := valid_readHeaders hheaders
  obtain ⟨ranges, hplaced, hlengths⟩ := placed_loadSegments hsegments
  rw [h.placed, nil_append] at hplaced
  rw [himage]
  constructor
  · intro hexact segment hmem
    obtain ⟨range, hlength, hin⟩ := mem_placements hlengths hmem
    rw [← hplaced] at hin
    exact dvd_of_inside (hvalid segment hmem) hlength (hexact.exact _ hin).inside
  · intro haligned
    have hstart : Loading root elf ∅ s s :=
      { ready := h.ready
        placed := fun p hp => by
          rw [h.placed] at hp
          exact absurd hp not_mem_nil
        pages := fun x hx => absurd hx (Set.notMem_empty x)
        others := fun _ _ _ => rfl }
    obtain ⟨data, hloading⟩ := loadSegments_spec hstart hvalid haligned hsegments
    refine ⟨?_, fun p hp => (hloading.placed p hp).exact, fun x hx hnot => ?_⟩
    · rw [hplaced, map_placements hlengths, himage]
    · refine hloading.others x (fun hdata => ?_) hnot
      obtain ⟨p, hp, hin⟩ := hloading.pages x hdata
      exact hx p hp hin

/-- An image with one segment, of eight bytes. -/
def oneSegment (virtualAddress : ℕ) : List UInt8 :=
  [0x7f, 0x45, 0x4c, 0x46, 2, 1, 1, 0] ++ List.replicate 8 0 ++
  leBytes 2 2 ++ leBytes 2 62 ++ leBytes 4 1 ++ leBytes 8 virtualAddress ++ leBytes 8 64 ++
  List.replicate 12 0 ++ leBytes 2 64 ++ leBytes 2 56 ++ leBytes 2 1 ++ List.replicate 6 0 ++
  leBytes 4 1 ++ leBytes 4 5 ++ leBytes 8 120 ++ leBytes 8 virtualAddress ++ leBytes 8 0 ++
  leBytes 8 8 ++ leBytes 8 8 ++ leBytes 8 4096 ++
  List.replicate 8 7

/-- A megabyte of free memory, a pool of tables, and an empty table at `4096`. -/
def emptyLoader : Loader where
  memory := fun _ => 0
  regions := [⟨0x100000, 0x200000, by decide, by decide⟩]
  pool := ⟨0x10000, 0x30000, 0⟩
  reserved := []
  placed := []

theorem fresh_emptyLoader : Fresh 4096 emptyLoader := by
  have hfree : ∀ p, emptyLoader.Free p → 0x10000 ≤ p ∧ p < 0x200000 := by
    rintro p (⟨g, hg, h⟩ | h)
    · obtain rfl := mem_singleton.mp hg
      exact ⟨(show 0x10000 ≤ 0x100000 by decide).trans h.1, h.2⟩
    · exact ⟨h.1, h.2.trans (show 0x30000 < 0x200000 by decide)⟩
  -- There is no entry, so the only table is the root.
  have hroot : ∀ path t, reach emptyLoader.child path 4096 = some t → path = [] ∧ t = 4096 := by
    intro path t ht
    cases path with
    | nil => exact ⟨rfl, (Option.some.inj ht).symm⟩
    | cons i path =>
      have hentry : emptyLoader.entry 4096 i = 0 := by
        rw [Loader.entry]
        rfl
      have hchild : emptyLoader.child 4096 i = none := by
        rw [Loader.child, hentry]
        exact if_neg fun h => not_present_zero h.1
      rw [reach, hchild] at ht
      cases ht
  refine ⟨⟨?_, pairwise_singleton _ _, by decide, ?_, ?_, by decide, ?_, ?_, ?_⟩, rfl⟩
  · intro g hg
    obtain rfl := mem_singleton.mp hg
    exact ⟨by decide, by decide⟩
  · intro g hg
    obtain rfl := mem_singleton.mp hg
    refine Set.disjoint_left.mpr fun x hx hx' => ?_
    exact absurd (hx.2.trans_le (show 0x30000 ≤ 0x100000 by decide)) (Nat.not_lt.mpr hx'.1)
  · exact fun p hp => (hfree p hp).2.trans (by decide)
  · intro p _ q _ t hp hq
    rw [(hroot p t hp).1, (hroot q t hq).1]
  · intro path _ t ht k hk
    refine ⟨fun h => ?_, Set.notMem_empty _⟩
    have hle := (hfree _ h).1
    rw [(hroot path t ht).2] at hle
    simp only [pageSize] at hk
    omega
  · exact fun x hx => absurd hx (Set.notMem_empty x)

/-- A segment that starts at a page. -/
theorem loadElf_exact_iff_sample : ∃ s',
    loadElf 4096 (oneSegment 0x400000) emptyLoader = some (0x400000, s') ∧
      ExactLoad 4096 (oneSegment 0x400000) emptyLoader s' := by
  have hload : (loadElf 4096 (oneSegment 0x400000) emptyLoader).map Prod.fst = some 0x400000 := by
    decide +kernel
  obtain ⟨⟨entry, s'⟩, hs', rfl⟩ := Option.map_eq_some_iff.mp hload
  refine ⟨s', hs', (loadElf_exact_iff fresh_emptyLoader hs').mpr ?_⟩
  decide +kernel

/-- A segment that starts eight bytes behind a page: its first byte is not there. -/
theorem segment_is_moved : ∃ s',
    loadElf 4096 (oneSegment 0x400008) emptyLoader = some (0x400008, s') ∧
      ¬ ExactLoad 4096 (oneSegment 0x400008) emptyLoader s' := by
  have hload : (loadElf 4096 (oneSegment 0x400008) emptyLoader).map (fun r => (r.1,
      r.2.placed.map Placement.segment, view 4096 r.2 0x400008)) =
        some (0x400008, [⟨0x400008, 120, 8, 8, 5⟩], some 0) := by
    decide +kernel
  obtain ⟨⟨entry, s'⟩, hs', heq⟩ := Option.map_eq_some_iff.mp hload
  obtain ⟨rfl, hrest⟩ := Prod.mk.inj heq
  obtain ⟨hplaced, hview⟩ := Prod.mk.inj hrest
  refine ⟨s', hs', fun hexact => ?_⟩
  obtain ⟨p, hp, hsegment⟩ := exists_of_mem_map
    (show (⟨0x400008, 120, 8, 8, 5⟩ : LoadSegment) ∈ s'.placed.map Placement.segment by
      rw [hplaced]
      exact mem_singleton_self _)
  have hfile := (hexact.exact p hp).file 0
  rw [hsegment] at hfile
  obtain ⟨b, hb, hfound⟩ := hfile (show 0 < 8 by decide)
  have hbyte : (oneSegment 0x400008)[120]? = some 7 := by decide +kernel
  have hzero : b = 0 := Option.some.inj (hfound.symm.trans hview)
  have hseven : b = 7 := Option.some.inj (hb.symm.trans hbyte)
  rw [hzero] at hseven
  exact absurd hseven (by decide)

end Segments

end ImagineOS.Bootstrap
