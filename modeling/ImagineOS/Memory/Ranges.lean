import Mathlib.Algebra.Group.Nat.Defs
import Mathlib.Order.CompletePartialOrder

/-!
# Physical memory: the ranges the bootstrap reserves

The bootstrap takes whole pages from the usable memory for the kernel and its page tables, finds
the page tables it was started with, and passes all of these on as reserved ranges, sorted and
merged. A range that ends below `2 ^ 64` lies within one of the merged ranges (`within_merged`), and
the ranges the bootstrap reserves all do (`Reserves.fits`).
-/

namespace ImagineOS.Memory

open List

/-! ### Pages -/

def pageSize : ℕ := 4096

/-- `address & !(PAGE_SIZE - 1)` -/
def alignDown (address : ℕ) : ℕ := address / pageSize * pageSize

/-- `ADDRESS_MASK`: the bits 12 to 51 of a page-table entry. -/
def addressMask (entry : ℕ) : ℕ := entry % 2 ^ 52 / pageSize * pageSize

/-! ### Ranges -/

@[ext] structure PhysicalRange where
  start : ℕ
  length : ℕ
  start_lt : start < 2 ^ 64
  length_lt : length < 2 ^ 64

namespace PhysicalRange

/-- `PhysicalRange::EMPTY` -/
def empty : PhysicalRange := ⟨0, 0, by decide, by decide⟩

/-- The addresses of a range. -/
def addresses (r : PhysicalRange) : Set ℕ := Set.Ico r.start (r.start + r.length)

/-- The end of the range is a 64-bit address. -/
def Fits (r : PhysicalRange) : Prop := r.start + r.length < 2 ^ 64

/-- `start.checked_add(length).unwrap_or(u64::MAX)` -/
def stop (r : PhysicalRange) : ℕ := min (r.start + r.length) (2 ^ 64 - 1)

theorem start_le_stop (r : PhysicalRange) : r.start ≤ r.stop := by
  have := r.start_lt
  simp only [stop]
  omega

theorem stop_lt (r : PhysicalRange) : r.stop < 2 ^ 64 := by
  simp only [stop]
  omega

theorem Fits.stop_eq {r : PhysicalRange} (h : r.Fits) : r.stop = r.start + r.length := by
  simp only [Fits] at h
  simp only [stop]
  omega

/-- The first range, extended to where the two end. -/
def merge (r s : PhysicalRange) : PhysicalRange where
  start := r.start
  length := max r.stop s.stop - r.start
  start_lt := r.start_lt
  length_lt := by
    have := r.stop_lt
    have := s.stop_lt
    omega

theorem merge_stop (r s : PhysicalRange) : (r.merge s).start + (r.merge s).length =
    max r.stop s.stop := by
  have := r.start_le_stop
  simp only [merge]
  omega

theorem merge_fits (r s : PhysicalRange) : (r.merge s).Fits := by
  have := r.stop_lt
  have := s.stop_lt
  rw [Fits, merge_stop]
  omega

end PhysicalRange

open PhysicalRange

/-- A range sinks to its place in a sorted list, which is kept in reverse. -/
def sink (r : PhysicalRange) : List PhysicalRange → List PhysicalRange
  | [] => [r]
  | s :: rs => if r.start < s.start then s :: sink r rs else r :: s :: rs

/-- The loop of `sort_and_merge_ranges` that sorts. -/
def sortRanges (ranges : List PhysicalRange) : List PhysicalRange :=
  (ranges.foldl (fun sorted r => sink r sorted) []).reverse

/-- The loop of `sort_and_merge_ranges` that merges, at the range merged last. -/
def mergeFrom (last : PhysicalRange) : List PhysicalRange → List PhysicalRange
  | [] => [last]
  | r :: ranges =>
    if r.start ≤ last.stop then mergeFrom (last.merge r) ranges else last :: mergeFrom r ranges

/-- `sort_and_merge_ranges`: the ranges up to the count that is returned. Without any range the
count is still one. -/
def sortAndMerge (ranges : List PhysicalRange) : List PhysicalRange :=
  match sortRanges ranges with
  | [] => [.empty]
  | first :: rest => mergeFrom first rest

/-! ### Sorting and merging -/

variable {r : PhysicalRange}

theorem mem_sink {s : PhysicalRange} {rs : List PhysicalRange} :
    s ∈ sink r rs ↔ s = r ∨ s ∈ rs := by
  induction rs with
  | nil => simp [sink]
  | cons t rs ih =>
    rw [sink]
    split
    · rw [mem_cons, ih, mem_cons]
      tauto
    · rw [mem_cons]

theorem pairwise_sink {rs : List PhysicalRange} (h : rs.Pairwise fun a b => b.start ≤ a.start) :
    (sink r rs).Pairwise fun a b => b.start ≤ a.start := by
  induction rs with
  | nil => exact pairwise_singleton _ _
  | cons t rs ih =>
    obtain ⟨ht, hrs⟩ := pairwise_cons.mp h
    rw [sink]
    split
    · rename_i hlt
      refine pairwise_cons.mpr ⟨fun s hs => ?_, ih hrs⟩
      rcases mem_sink.mp hs with rfl | hs
      · exact hlt.le
      · exact ht s hs
    · rename_i hle
      refine pairwise_cons.mpr ⟨fun s hs => ?_, h⟩
      rcases mem_cons.mp hs with rfl | hs
      · omega
      · exact (ht s hs).trans (by omega)

variable {ranges : List PhysicalRange}

theorem mem_sortRanges :
    r ∈ sortRanges ranges ↔ r ∈ ranges := by
  have h : ∀ sorted, r ∈ ranges.foldl (fun sorted r => sink r sorted) sorted ↔
      r ∈ ranges ∨ r ∈ sorted := by
    induction ranges with
    | nil => simp
    | cons s ranges ih =>
      intro sorted
      rw [foldl_cons, ih, mem_sink, mem_cons]
      tauto
  rw [sortRanges, mem_reverse, h]
  simp

theorem pairwise_sortRanges (ranges : List PhysicalRange) :
    (sortRanges ranges).Pairwise fun a b => a.start ≤ b.start := by
  have h : ∀ sorted, (sorted.Pairwise fun a b : PhysicalRange => b.start ≤ a.start) →
      (ranges.foldl (fun sorted r => sink r sorted) sorted).Pairwise fun a b =>
        b.start ≤ a.start := by
    induction ranges with
    | nil => exact fun sorted h => h
    | cons s ranges ih => exact fun sorted h => ih _ (pairwise_sink h)
  exact pairwise_reverse.mpr (h [] .nil)

variable {last : PhysicalRange}

theorem start_mem_mergeFrom {m : PhysicalRange}
    (h : m ∈ mergeFrom last ranges) : m.start = last.start ∨ ∃ r ∈ ranges, m.start = r.start := by
  induction ranges generalizing last with
  | nil => exact Or.inl (by rw [mem_singleton.mp h])
  | cons r ranges ih =>
    rw [mergeFrom] at h
    split at h
    · exact (ih h).imp id fun ⟨s, hs, he⟩ => ⟨s, mem_cons_of_mem _ hs, he⟩
    · rcases mem_cons.mp h with rfl | h
      · exact Or.inl rfl
      · refine Or.inr ?_
        rcases ih h with he | ⟨s, hs, he⟩
        · exact ⟨r, mem_cons_self, he⟩
        · exact ⟨s, mem_cons_of_mem _ hs, he⟩

theorem pairwise_mergeFrom (hlast : ∀ r ∈ ranges, last.start ≤ r.start)
    (h : ranges.Pairwise fun a b => a.start ≤ b.start) :
    (mergeFrom last ranges).Pairwise fun a b => a.start ≤ b.start := by
  induction ranges generalizing last with
  | nil => exact pairwise_singleton _ _
  | cons r ranges ih =>
    obtain ⟨hr, hranges⟩ := pairwise_cons.mp h
    rw [mergeFrom]
    split
    · exact ih (fun s hs => hlast s (mem_cons_of_mem _ hs)) hranges
    · refine pairwise_cons.mpr ⟨fun m hm => ?_, ih hr hranges⟩
      rcases start_mem_mergeFrom hm with he | ⟨s, hs, he⟩
      · rw [he]
        exact hlast r mem_cons_self
      · rw [he]
        exact hlast s (mem_cons_of_mem _ hs)

/-- **The ranges are sorted.** -/
theorem sorted_sortAndMerge (ranges : List PhysicalRange) :
    (sortAndMerge ranges).Pairwise fun a b => a.start ≤ b.start := by
  have h := pairwise_sortRanges ranges
  rw [sortAndMerge]
  cases hsort : sortRanges ranges with
  | nil => exact pairwise_singleton _ _
  | cons first rest =>
    rw [hsort] at h
    obtain ⟨hfirst, hrest⟩ := pairwise_cons.mp h
    exact pairwise_mergeFrom hfirst hrest

/-- The addresses of `r` are among those of `m`, whose end is a 64-bit address. -/
structure Within (r m : PhysicalRange) : Prop where
  fits : m.Fits
  start_le : m.start ≤ r.start
  stop_le : r.start + r.length ≤ m.start + m.length

theorem within_mergeFrom (hlast : ∀ s ∈ ranges, last.start ≤ s.start)
    (h : ranges.Pairwise fun a b => a.start ≤ b.start)
    (hr : Within r last ∨ (r ∈ ranges ∧ r.Fits)) : ∃ m ∈ mergeFrom last ranges, Within r m := by
  induction ranges generalizing last with
  | nil => exact ⟨last, mem_singleton_self _, hr.resolve_right (by simp)⟩
  | cons s ranges ih =>
    obtain ⟨hs, hranges⟩ := pairwise_cons.mp h
    rw [mergeFrom]
    split
    · refine ih (fun t ht => hlast t (mem_cons_of_mem _ ht)) hranges ?_
      have hstop := last.merge_stop s
      rcases hr with hr | ⟨hmem, hfits⟩
      · refine Or.inl ⟨last.merge_fits s, hr.start_le, ?_⟩
        have := hr.stop_le
        have := hr.fits.stop_eq
        omega
      · rcases mem_cons.mp hmem with rfl | hmem
        · refine Or.inl ⟨last.merge_fits r, hlast r mem_cons_self, ?_⟩
          have := hfits.stop_eq
          omega
        · exact Or.inr ⟨hmem, hfits⟩
    · rcases hr with hr | ⟨hmem, hfits⟩
      · exact ⟨last, mem_cons_self, hr⟩
      · have hnext : Within r s ∨ (r ∈ ranges ∧ r.Fits) := by
          rcases mem_cons.mp hmem with rfl | hmem
          · exact Or.inl ⟨hfits, le_rfl, le_rfl⟩
          · exact Or.inr ⟨hmem, hfits⟩
        obtain ⟨m, hm, hw⟩ := ih hs hranges hnext
        exact ⟨m, mem_cons_of_mem _ hm, hw⟩

/-- **Nothing is lost by merging**: a range whose end is a 64-bit address lies within a merged one.
-/
theorem within_merged (hr : r ∈ ranges)
    (hfits : r.Fits) : ∃ m ∈ sortAndMerge ranges, Within r m := by
  have hmem := mem_sortRanges.mpr hr
  have h := pairwise_sortRanges ranges
  rw [sortAndMerge]
  cases hsort : sortRanges ranges with
  | nil =>
    rw [hsort] at hmem
    cases hmem
  | cons first rest =>
    rw [hsort] at h hmem
    obtain ⟨hfirst, hrest⟩ := pairwise_cons.mp h
    refine within_mergeFrom hfirst hrest ?_
    rcases mem_cons.mp hmem with rfl | hmem
    · exact Or.inl ⟨hfits, le_rfl, le_rfl⟩
    · exact Or.inr ⟨hmem, hfits⟩

/-! ### The ranges the bootstrap reserves -/

/-- A region of the allocator of the bootstrap. -/
structure BootRegion where
  next : ℕ
  stop : ℕ
  next_lt : next < 2 ^ 64
  stop_lt : stop < 2 ^ 64

/-- `allocate_contiguous`, over the regions. -/
def allocateContiguous (bytes : ℕ) : List BootRegion → Option (PhysicalRange × List BootRegion)
  | [] => none
  | region :: regions =>
    if h : bytes + (pageSize - 1) < 2 ^ 64 ∧
      region.next + alignDown (bytes + (pageSize - 1)) < 2 ^ 64
    then
      if region.next + alignDown (bytes + (pageSize - 1)) ≤ region.stop then
        some (⟨region.next, alignDown (bytes + (pageSize - 1)), region.next_lt, by omega⟩,
          { region with
            next := region.next + alignDown (bytes + (pageSize - 1))
            next_lt := h.2 } :: regions)
      else (allocateContiguous bytes regions).map fun (r, regions) => (r, region :: regions)
    else none

/-- The ranges the bootstrap reserves: memory it has allocated, and the page tables it was started
with, whose addresses stand in page-table entries. -/
inductive Reserves : PhysicalRange → Prop
  | allocated {bytes : ℕ} {regions regions' : List BootRegion} {r : PhysicalRange}
      (h : allocateContiguous bytes regions = some (r, regions')) : Reserves r
  | pageTable {entry : ℕ} {r : PhysicalRange} (hstart : r.start = addressMask entry)
      (hlength : r.length = pageSize) : Reserves r

/-- **The ranges the bootstrap reserves** end at 64-bit addresses. -/
theorem Reserves.fits (h : Reserves r) : r.Fits := by
  cases h with
  | @allocated bytes regions regions' r h =>
    induction regions generalizing regions' with
    | nil => cases h
    | cons region regions ih =>
      rw [allocateContiguous] at h
      split_ifs at h with hroom hstop
      · obtain ⟨rfl, -⟩ := Prod.mk.inj (Option.some.inj h)
        exact hroom.2
      · obtain ⟨⟨r', rest⟩, hrest, heq⟩ := Option.map_eq_some_iff.mp h
        obtain ⟨rfl, -⟩ := Prod.mk.inj heq
        exact ih hrest
  | pageTable hstart hlength =>
    rw [PhysicalRange.Fits, hstart, hlength, addressMask, pageSize]
    omega

end ImagineOS.Memory
