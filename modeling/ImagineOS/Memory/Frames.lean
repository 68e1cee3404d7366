import ImagineOS.Memory.Ranges
import Mathlib.Algebra.GroupWithZero.Nat
import Mathlib.Data.Set.Lattice

/-!
# Physical memory: the frame allocator

The kernel cuts the reserved ranges out of the usable entries of the memory map, in one pass over
the sorted ranges for each entry, and hands out the pages that are left one by one. A page that is
available lies within a usable entry and apart from every reserved range (`available_init`); a page
that was handed out is not available any more (`allocateFrame_spec`), so no page is handed out twice
(`frames_apart`).
-/

namespace ImagineOS.Memory

/-! ### The allocator -/

def maxRegions : ℕ := 128

/-- An entry of the memory map. -/
structure Entry where
  base : ℕ
  length : ℕ
  usable : Bool

/-- The addresses of an entry. -/
def Entry.addresses (e : Entry) : Set ℕ := Set.Ico e.base (e.base + e.length)

@[ext] structure Region where
  next : ℕ
  stop : ℕ

/-- `FrameAllocator`: the regions up to `region_count`. -/
@[ext] structure FrameAllocator where
  regions : List Region
  currentRegion : ℕ
  hhdmOffset : ℕ

@[ext] structure Frame where
  physicalAddress : ℕ
  virtualAddress : ℕ

/-- `reserved_end`, rounded up to a page. -/
def PhysicalRange.pageStop (r : PhysicalRange) : ℕ :=
  alignDown (min (r.start + r.length + (pageSize - 1)) (2 ^ 64 - 1))

def addUnreservedRegions (regions : List Region) (base stop : ℕ) :
    List PhysicalRange → List Region
  | [] => if base < stop ∧ regions.length < maxRegions then regions ++ [⟨base, stop⟩] else regions
  | range :: reserved =>
    if range.start + range.length < 2 ^ 64 then
      if range.pageStop ≤ base ∨ stop ≤ alignDown range.start then
        addUnreservedRegions regions base stop reserved
      else
        let regions' :=
          if base < alignDown range.start ∧ regions.length < maxRegions then
            regions ++ [⟨base, min (alignDown range.start) stop⟩]
          else regions
        if stop ≤ max base range.pageStop then regions'
        else addUnreservedRegions regions' (max base range.pageStop) stop reserved
    else addUnreservedRegions regions base stop reserved

/-- The loop of `init`, at one entry. -/
def addEntry (reserved : List PhysicalRange) (regions : List Region) (entry : Entry) :
    List Region :=
  if entry.usable = false ∨ regions.length = maxRegions then regions
  else if entry.base + entry.length < 2 ^ 64 ∧ entry.base + (pageSize - 1) < 2 ^ 64 then
    if alignDown (entry.base + (pageSize - 1)) < alignDown (entry.base + entry.length) then
      addUnreservedRegions regions (alignDown (entry.base + (pageSize - 1)))
        (alignDown (entry.base + entry.length)) reserved
    else regions
  else regions

/-- `init`: the allocator. -/
def init (entries : List Entry) (hhdmOffset : ℕ) (reserved : List PhysicalRange) :
    FrameAllocator where
  regions := entries.foldl (addEntry reserved) []
  currentRegion := 0
  hhdmOffset := hhdmOffset

/-- `init`: the number of frames it returns. -/
def FrameAllocator.frameCount (a : FrameAllocator) : ℕ :=
  (a.regions.map fun region => (region.stop - region.next) / pageSize).sum

def allocateFrame (a : FrameAllocator) : Option Frame × FrameAllocator :=
  if h : a.currentRegion < a.regions.length then
    let region := a.regions[a.currentRegion]
    if region.next < region.stop then
      if region.next + pageSize < 2 ^ 64 then
        let a' := { a with
          regions := a.regions.set a.currentRegion { region with next := region.next + pageSize } }
        if region.next + a.hhdmOffset < 2 ^ 64 then
          (some ⟨region.next, region.next + a.hhdmOffset⟩, a')
        else (none, a')
      else (none, a)
    else allocateFrame { a with currentRegion := a.currentRegion + 1 }
  else (none, a)
  termination_by a.regions.length - a.currentRegion

/-- The frames that `n` calls of `allocate_frame` return. -/
def allocateFrames : ℕ → FrameAllocator → List Frame × FrameAllocator
  | 0, a => ([], a)
  | n + 1, a =>
    let (frame, a) := allocateFrame a
    let (frames, a) := allocateFrames n a
    (frame.toList ++ frames, a)

/-! ### What one pass leaves -/

theorem alignDown_le (x : ℕ) : alignDown x ≤ x := Nat.div_mul_le_self x pageSize

theorem lt_alignDown_add (x : ℕ) : x < alignDown x + pageSize := by
  simp only [alignDown, pageSize]
  omega

theorem alignDown_mono {x y : ℕ} (h : x ≤ y) : alignDown x ≤ alignDown y :=
  Nat.mul_le_mul_right _ (Nat.div_le_div_right h)

theorem dvd_alignDown (x : ℕ) : pageSize ∣ alignDown x := Nat.dvd_mul_left _ _

/-- The regions cut out of the pages from `base` to `stop`. -/
structure Carved (base stop : ℕ) (reserved : List PhysicalRange)
    (regions : List Region) : Prop where
  inside : ∀ g ∈ regions, base ≤ g.next ∧ g.next ≤ g.stop ∧ g.stop ≤ stop
  aligned : ∀ g ∈ regions, pageSize ∣ g.next ∧ pageSize ∣ g.stop
  apart : regions.Pairwise fun g h => g.stop ≤ h.next
  clear : ∀ g ∈ regions, ∀ r ∈ reserved, r.Fits → g.stop ≤ alignDown r.start ∨ r.pageStop ≤ g.next

variable {base stop : ℕ} {reserved : List PhysicalRange}

theorem Carved.nil :
    Carved base stop reserved [] where
  inside := by simp
  aligned := by simp
  apart := .nil
  clear := by simp

theorem Carved.single (hlt : base < stop) (hbase : pageSize ∣ base) (hstop : pageSize ∣ stop)
    (hclear : ∀ r ∈ reserved, stop ≤ alignDown r.start) :
    Carved base stop reserved [⟨base, stop⟩] where
  inside := by
    simp only [List.mem_singleton, forall_eq]
    omega
  aligned := by simpa only [List.mem_singleton, forall_eq] using ⟨hbase, hstop⟩
  apart := List.pairwise_singleton _ _
  clear := by
    simp only [List.mem_singleton, forall_eq]
    exact fun r hr _ => Or.inl (hclear r hr)

variable {r : PhysicalRange}

theorem Carved.passed {regions : List Region} (h : Carved base stop reserved regions)
    (haway : r.Fits → r.pageStop ≤ base ∨ stop ≤ alignDown r.start) :
    Carved base stop (r :: reserved) regions := by
  refine ⟨h.inside, h.aligned, h.apart, fun g hg s hs hsfits => ?_⟩
  rcases List.mem_cons.mp hs with rfl | hs
  · obtain ⟨hbase, -, hstop⟩ := h.inside g hg
    exact (haway hsfits).symm.imp hstop.trans fun hle => hle.trans hbase
  · exact h.clear g hg s hs hsfits

theorem Carved.append {first new : List Region}
    (hfirst : Carved base (alignDown r.start) (r :: reserved) first)
    (h : Carved r.pageStop stop reserved new) (hle : alignDown r.start ≤ r.pageStop)
    (hbase : base ≤ r.pageStop) (hstop : alignDown r.start ≤ stop) :
    Carved base stop (r :: reserved) (first ++ new) := by
  refine ⟨fun g hg => ?_, fun g hg => ?_,
    List.pairwise_append.mpr ⟨hfirst.apart, h.apart, fun f hf g hg => ?_⟩,
    fun g hg s hs hsfits => ?_⟩
  · rcases List.mem_append.mp hg with hg | hg
    · obtain ⟨h₁, h₂, h₃⟩ := hfirst.inside g hg
      exact ⟨h₁, h₂, h₃.trans hstop⟩
    · obtain ⟨h₁, h₂, h₃⟩ := h.inside g hg
      exact ⟨hbase.trans h₁, h₂, h₃⟩
  · exact (List.mem_append.mp hg).elim (hfirst.aligned g) (h.aligned g)
  · exact ((hfirst.inside f hf).2.2.trans hle).trans (h.inside g hg).1
  · rcases List.mem_append.mp hg with hg | hg
    · exact hfirst.clear g hg s hs hsfits
    · rcases List.mem_cons.mp hs with rfl | hs
      · exact Or.inr (h.inside g hg).1
      · exact h.clear g hg s hs hsfits

theorem lt_pageStop {x y : ℕ} (hx : x < r.start + r.length)
    (hstop : x < stop) (hy : stop ≤ alignDown y) (hlt : y < 2 ^ 64) : x < r.pageStop := by
  rw [PhysicalRange.pageStop]
  rcases le_total (r.start + r.length + (pageSize - 1)) (2 ^ 64 - 1) with h | h
  · rw [min_eq_left h]
    have := lt_alignDown_add (r.start + r.length + (pageSize - 1))
    simp only [pageSize] at this ⊢
    omega
  · rw [min_eq_right h]
    exact (hstop.trans_le hy).trans_le (alignDown_mono (Nat.le_sub_one_of_lt hlt))

/-- **One pass** over the reserved ranges. -/
theorem carved_addUnreservedRegions (regions : List Region)
    (hsorted : reserved.Pairwise fun r s => r.start ≤ s.start)
    (hbase : pageSize ∣ base) (hstop : pageSize ∣ stop) :
    ∃ new, addUnreservedRegions regions base stop reserved = regions ++ new ∧
      Carved base stop reserved new := by
  induction reserved generalizing regions base with
  | nil =>
    rw [addUnreservedRegions]
    split
    · rename_i h
      exact ⟨_, rfl, .single h.1 hbase hstop (by simp)⟩
    · exact ⟨[], (List.append_nil _).symm, .nil⟩
  | cons r reserved ih =>
    obtain ⟨hr, hreserved⟩ := List.pairwise_cons.mp hsorted
    rw [addUnreservedRegions]
    by_cases hfits : r.start + r.length < 2 ^ 64
    swap
    · rw [if_neg hfits]
      obtain ⟨new, heq, h⟩ := ih regions hreserved hbase
      exact ⟨new, heq, h.passed fun hfits' => absurd hfits' hfits⟩
    rw [if_pos hfits]
    by_cases haway : r.pageStop ≤ base ∨ stop ≤ alignDown r.start
    · rw [if_pos haway]
      obtain ⟨new, heq, h⟩ := ih regions hreserved hbase
      exact ⟨new, heq, h.passed fun _ => haway⟩
    rw [if_neg haway]
    obtain ⟨hover, hunder⟩ := not_or.mp haway
    rw [not_le] at hover hunder
    -- The region before the range, if there is room for it.
    obtain ⟨first, hfirst, hcarved⟩ : ∃ first,
        (if base < alignDown r.start ∧ regions.length < maxRegions then
          regions ++ [⟨base, min (alignDown r.start) stop⟩] else regions) = regions ++ first ∧
        Carved base (alignDown r.start) (r :: reserved) first := by
      rw [min_eq_left hunder.le]
      split
      · rename_i h
        refine ⟨_, rfl, .single h.1 hbase (dvd_alignDown _) fun s hs => alignDown_mono ?_⟩
        rcases List.mem_cons.mp hs with rfl | hs
        · exact le_rfl
        · exact hr s hs
      · exact ⟨[], (List.append_nil _).symm, .nil⟩
    have hle : alignDown r.start ≤ r.pageStop :=
      alignDown_mono (by have := r.start_lt; simp only [pageSize]; omega)
    simp only [hfirst]
    rw [max_eq_right hover.le]
    split
    · have h : Carved base stop (r :: reserved) (first ++ []) :=
        hcarved.append .nil hle hover.le hunder.le
      rw [List.append_nil] at h
      exact ⟨first, rfl, h⟩
    · obtain ⟨new, heq, h⟩ := ih (regions ++ first) hreserved
        (show pageSize ∣ r.pageStop from dvd_alignDown _)
      exact ⟨first ++ new, by rw [heq, List.append_assoc], hcarved.append h hle hover.le hunder.le⟩

/-! ### What is available -/

/-- Page `p` can still be handed out. -/
def FrameAllocator.Available (a : FrameAllocator) (p : ℕ) : Prop :=
  pageSize ∣ p ∧ ∃ g ∈ a.regions, g.next ≤ p ∧ p < g.stop

/-- The regions are aligned and apart, and end below the last page. -/
structure FrameAllocator.Sound (a : FrameAllocator) : Prop where
  aligned : ∀ g ∈ a.regions, pageSize ∣ g.next ∧ pageSize ∣ g.stop
  below : ∀ g ∈ a.regions, g.stop < 2 ^ 64
  apart : a.regions.Pairwise fun g h =>
    Disjoint (Set.Ico g.next g.stop) (Set.Ico h.next h.stop)

/-- The addresses of a page. -/
def page (p : ℕ) : Set ℕ := Set.Ico p (p + pageSize)

variable {p : ℕ}

theorem disjoint_page {q : ℕ} (hp : pageSize ∣ p) (hq : pageSize ∣ q) (hne : p ≠ q) :
    Disjoint (page p) (page q) := by
  refine Set.disjoint_left.mpr fun x hx hx' => hne ?_
  obtain ⟨i, rfl⟩ := hp
  obtain ⟨j, rfl⟩ := hq
  simp only [page, pageSize, Set.mem_Ico] at hx hx'
  have : i = j := by omega
  rw [this]

/-- What the regions of an allocator are, after some entries of the memory map. -/
structure Built (entries : List Entry) (reserved : List PhysicalRange) (regions : List Region) :
    Prop where
  aligned : ∀ g ∈ regions, pageSize ∣ g.next ∧ pageSize ∣ g.stop
  apart : regions.Pairwise fun g h => Disjoint (Set.Ico g.next g.stop) (Set.Ico h.next h.stop)
  inEntry : ∀ g ∈ regions, ∃ e ∈ entries, e.usable = true ∧ e.base ≤ g.next ∧ g.next ≤ g.stop ∧
    g.stop ≤ alignDown (e.base + e.length) ∧ e.base + e.length < 2 ^ 64
  clear : ∀ g ∈ regions, ∀ r ∈ reserved, r.Fits → g.stop ≤ alignDown r.start ∨ r.pageStop ≤ g.next

section Built

variable {entries : List Entry} {entry : Entry} {reserved : List PhysicalRange}
  {regions : List Region}

theorem Built.weaken (h : Built entries reserved regions) :
    Built (entries ++ [entry]) reserved regions where
  aligned := h.aligned
  apart := h.apart
  inEntry g hg := by
    obtain ⟨e, he, h⟩ := h.inEntry g hg
    exact ⟨e, List.mem_append_left _ he, h⟩
  clear := h.clear

/-- **One entry**: its regions are apart from those of the entries before it. -/
theorem built_addEntry (hsorted : reserved.Pairwise fun r s => r.start ≤ s.start)
    (h : Built entries reserved regions)
    (hapart : ∀ e ∈ entries, e.usable = true → entry.usable = true →
      Disjoint e.addresses entry.addresses) :
    Built (entries ++ [entry]) reserved (addEntry reserved regions entry) := by
  rw [addEntry]
  split
  · exact h.weaken
  rename_i huse
  split
  swap
  · exact h.weaken
  rename_i hfits
  split
  swap
  · exact h.weaken
  obtain ⟨new, heq, hnew⟩ := carved_addUnreservedRegions regions hsorted
    (dvd_alignDown (entry.base + (pageSize - 1))) (dvd_alignDown (entry.base + entry.length))
  rw [heq]
  have husable : entry.usable = true := by
    simpa using fun hf => huse (Or.inl hf)
  have hbase : entry.base ≤ alignDown (entry.base + (pageSize - 1)) := by
    have := lt_alignDown_add (entry.base + (pageSize - 1))
    simp only [pageSize] at this ⊢
    omega
  have hstop := alignDown_le (entry.base + entry.length)
  exact {
    aligned := fun g hg => (List.mem_append.mp hg).elim (h.aligned g) (hnew.aligned g)
    apart := by
      refine List.pairwise_append.mpr ⟨h.apart, hnew.apart.imp fun hle =>
        Set.disjoint_left.mpr fun x hx hx' => ?_, fun f hf g hg =>
        Set.disjoint_left.mpr fun x hx hx' => ?_⟩
      · simp only [Set.mem_Ico] at hx hx'
        omega
      · -- Regions of different entries lie in addresses that are apart.
        obtain ⟨e, he, hu, h₁, h₂, h₃, h₄⟩ := h.inEntry f hf
        obtain ⟨h₅, h₆, h₇⟩ := hnew.inside g hg
        have h₈ := alignDown_le (e.base + e.length)
        simp only [Set.mem_Ico] at hx hx'
        have hin : x ∈ e.addresses := by
          simp only [Entry.addresses, Set.mem_Ico]
          omega
        have hin' : x ∈ entry.addresses := by
          simp only [Entry.addresses, Set.mem_Ico]
          omega
        exact Set.disjoint_left.mp (hapart e he hu husable) hin hin'
    inEntry := fun g hg => by
      rcases List.mem_append.mp hg with hg | hg
      · exact h.weaken.inEntry g hg
      · obtain ⟨h₁, h₂, h₃⟩ := hnew.inside g hg
        exact ⟨entry, by simp, husable, hbase.trans h₁, h₂, h₃, hfits.1⟩
    clear := fun g hg => (List.mem_append.mp hg).elim (h.clear g) (hnew.clear g) }

/-- **The regions of `init`.** -/
theorem built_init (hsorted : reserved.Pairwise fun r s => r.start ≤ s.start) (hhdmOffset : ℕ)
    (hapart : entries.Pairwise fun e f => e.usable = true → f.usable = true →
      Disjoint e.addresses f.addresses) :
    Built entries reserved (init entries hhdmOffset reserved).regions := by
  suffices hs : ∀ done rest regions, done ++ rest = entries → Built done reserved regions →
      Built entries reserved (rest.foldl (addEntry reserved) regions) from
    hs [] entries [] rfl ⟨by simp, .nil, by simp, by simp⟩
  intro done rest
  induction rest generalizing done with
  | nil =>
    rintro regions rfl h
    rwa [List.append_nil]
  | cons e rest ih =>
    rintro regions rfl h
    refine ih (done ++ [e]) _ (by simp) (built_addEntry hsorted h fun f hf hu hu' => ?_)
    exact (List.pairwise_append.mp hapart).2.2 f hf e (by simp) hu hu'

theorem Built.sound (h : Built entries reserved regions) (current hhdmOffset : ℕ) :
    FrameAllocator.Sound ⟨regions, current, hhdmOffset⟩ where
  aligned := h.aligned
  below g hg := by
    obtain ⟨e, -, -, -, -, hstop, hlt⟩ := h.inEntry g hg
    exact (hstop.trans (alignDown_le _)).trans_lt hlt
  apart := h.apart

/-- **A page that is available** lies within a usable entry, and apart from every reserved range
whose end is a 64-bit address. -/
theorem Built.page (h : Built entries reserved regions) (hp : pageSize ∣ p)
    (hg : ∃ g ∈ regions, g.next ≤ p ∧ p < g.stop) :
    (∃ e ∈ entries, e.usable = true ∧ page p ⊆ e.addresses) ∧
      ∀ r ∈ reserved, r.Fits → Disjoint (page p) r.addresses := by
  obtain ⟨g, hg, hnext, hstop⟩ := hg
  obtain ⟨e, he, hu, h₁, h₂, h₃, h₄⟩ := h.inEntry g hg
  have h₅ := alignDown_le (e.base + e.length)
  -- Regions are aligned, so the whole page is in its region.
  have hpage : ∀ x, p ≤ x → x < p + pageSize → x < g.stop := fun x _ hx => by
    obtain ⟨i, hi⟩ := hp
    obtain ⟨k, hk⟩ := (h.aligned g hg).2
    simp only [pageSize] at hi hk hx
    omega
  refine ⟨⟨e, he, hu, fun x hx => ?_⟩, fun r hr hfits => Set.disjoint_left.mpr fun x hx hx' => ?_⟩
  · obtain ⟨hx₁, hx₂⟩ := hx
    have := hpage x hx₁ hx₂
    simp only [Entry.addresses, Set.mem_Ico]
    omega
  · obtain ⟨hx₁, hx₂⟩ := hx
    obtain ⟨hx₃, hx₄⟩ := hx'
    have hlt := hpage x hx₁ hx₂
    rcases h.clear g hg r hr hfits with hc | hc
    · have := alignDown_le r.start
      omega
    · -- The range ends before the page, which is aligned like the end of the range.
      have hx₅ := lt_pageStop hx₄ hlt h₃ h₄
      omega

end Built

/-! ### Allocating -/

section Allocate

variable {a a' : FrameAllocator}

/-- What one call does: the page it hands out was available, and is not any more; nothing becomes
available. -/
structure Allocated (a a' : FrameAllocator) (frame : Option Frame) : Prop where
  sound : a'.Sound
  hhdmOffset : a'.hhdmOffset = a.hhdmOffset
  available : ∀ p, a'.Available p → a.Available p
  taken : ∀ f, frame = some f → a.Available f.physicalAddress ∧ ¬ a'.Available f.physicalAddress ∧
    f.virtualAddress = f.physicalAddress + a.hhdmOffset ∧ f.virtualAddress < 2 ^ 64

theorem Allocated.none (h : a.Sound) : Allocated a a none where
  sound := h
  hhdmOffset := rfl
  available _ h := h
  taken := by simp

theorem FrameAllocator.Sound.of_regions (h : a.Sound) (heq : a'.regions = a.regions) :
    a'.Sound where
  aligned := by rw [heq]; exact h.aligned
  below := by rw [heq]; exact h.below
  apart := by rw [heq]; exact h.apart

/-- The regions after the current one gives up its first page. -/
def FrameAllocator.taken (a : FrameAllocator) (h : a.currentRegion < a.regions.length) :
    List Region :=
  a.regions.set a.currentRegion
    { a.regions[a.currentRegion] with next := a.regions[a.currentRegion].next + pageSize }

section Taken

variable {h : a.currentRegion < a.regions.length}

theorem exists_of_mem_taken {g : Region} (hg : g ∈ a.taken h) :
    ∃ f ∈ a.regions, f.next ≤ g.next ∧ g.stop = f.stop ∧ (g.next = f.next ∨
      g.next = f.next + pageSize) := by
  rcases List.mem_or_eq_of_mem_set hg with hg | rfl
  · exact ⟨g, hg, le_rfl, rfl, Or.inl rfl⟩
  · exact ⟨_, List.getElem_mem h, Nat.le_add_right _ _, rfl, Or.inr rfl⟩

theorem FrameAllocator.Sound.taken (hs : a.Sound) (c o : ℕ) :
    FrameAllocator.Sound ⟨a.taken h, c, o⟩ where
  aligned g hg := by
    obtain ⟨f, hf, -, hstop, hnext⟩ := exists_of_mem_taken hg
    obtain ⟨h₁, h₂⟩ := hs.aligned f hf
    rw [hstop]
    rcases hnext with hnext | hnext <;> rw [hnext]
    · exact ⟨h₁, h₂⟩
    · exact ⟨Nat.dvd_add h₁ (Nat.dvd_refl _), h₂⟩
  below g hg := by
    obtain ⟨f, hf, -, hstop, -⟩ := exists_of_mem_taken hg
    rw [hstop]
    exact hs.below f hf
  apart := by
    have hmap : ∀ i (hi : i < (a.taken h).length), ∃ hi' : i < a.regions.length,
        Set.Ico (a.taken h)[i].next (a.taken h)[i].stop ⊆
          Set.Ico a.regions[i].next a.regions[i].stop := fun i hi => by
      have hi' : i < a.regions.length := by simpa [FrameAllocator.taken] using hi
      refine ⟨hi', ?_⟩
      simp only [FrameAllocator.taken, List.getElem_set]
      split
      · rename_i he
        subst he
        exact Set.Ico_subset_Ico_left (Nat.le_add_right _ _)
      · exact subset_rfl
    refine List.pairwise_iff_getElem.mpr fun i j hi hj hij => ?_
    obtain ⟨hi', hsub⟩ := hmap i hi
    obtain ⟨hj', hsub'⟩ := hmap j hj
    exact (List.pairwise_iff_getElem.mp hs.apart i j hi' hj' hij).mono hsub hsub'

theorem available_of_taken {c o : ℕ} (hp : FrameAllocator.Available ⟨a.taken h, c, o⟩ p) :
    a.Available p := by
  obtain ⟨hdvd, g, hg, hnext, hstop⟩ := hp
  obtain ⟨f, hf, hle, hs, -⟩ := exists_of_mem_taken hg
  exact ⟨hdvd, f, hf, hle.trans hnext, hs ▸ hstop⟩

theorem not_available_taken (hs : a.Sound)
    (hroom : a.regions[a.currentRegion].next < a.regions[a.currentRegion].stop) {c o : ℕ} :
    ¬ FrameAllocator.Available ⟨a.taken h, c, o⟩ a.regions[a.currentRegion].next := by
  rintro ⟨-, g, hg, hnext, hstop⟩
  obtain ⟨i, hi, rfl⟩ := List.getElem_of_mem hg
  have hi' : i < a.regions.length := by simpa [FrameAllocator.taken] using hi
  simp only [FrameAllocator.taken, List.getElem_set] at hnext hstop
  have hpos : 0 < pageSize := by decide
  split at hnext
  · exact absurd hnext (by simp only; omega)
  · rename_i hne
    rw [if_neg hne] at hstop
    have hdisj : Disjoint (Set.Ico a.regions[a.currentRegion].next a.regions[a.currentRegion].stop)
        (Set.Ico a.regions[i].next a.regions[i].stop) := by
      rcases Nat.lt_or_gt_of_ne hne with hlt | hlt
      · exact List.pairwise_iff_getElem.mp hs.apart _ _ h hi' hlt
      · exact (List.pairwise_iff_getElem.mp hs.apart _ _ hi' h hlt).symm
    exact Set.disjoint_left.mp hdisj ⟨le_rfl, hroom⟩ ⟨hnext, hstop⟩

end Taken

/-- **One call** of `allocate_frame`. -/
theorem allocateFrame_spec (hs : a.Sound) :
    Allocated a (allocateFrame a).2 (allocateFrame a).1 := by
  induction a using allocateFrame.induct with
  | case1 a h region hroom hnext hvirtual =>
    rw [allocateFrame, dif_pos h, if_pos hroom, if_pos hnext, if_pos hvirtual]
    refine ⟨hs.taken _ _, rfl, fun p => available_of_taken (h := h), ?_⟩
    rintro f ⟨⟩
    have hmem := List.getElem_mem h
    exact ⟨⟨(hs.aligned _ hmem).1, _, hmem, le_rfl, hroom⟩, not_available_taken hs hroom, rfl,
      hvirtual⟩
  | case2 a h region hroom hnext hvirtual =>
    rw [allocateFrame, dif_pos h, if_pos hroom, if_pos hnext, if_neg hvirtual]
    exact ⟨hs.taken _ _, rfl, fun p => available_of_taken (h := h), by simp⟩
  | case3 a h region hroom hnext =>
    rw [allocateFrame, dif_pos h, if_pos hroom, if_neg hnext]
    exact .none hs
  | case4 a h region hroom ih =>
    rw [allocateFrame, dif_pos h, if_neg hroom]
    obtain ⟨h₁, h₂, h₃, h₄⟩ := ih (hs.of_regions rfl)
    exact ⟨h₁, h₂, h₃, h₄⟩
  | case5 a h =>
    rw [allocateFrame, dif_neg h]
    exact .none hs

/-- **Many calls** of `allocate_frame`: every page was available at the beginning, and no page is
handed out twice. -/
theorem allocateFrames_spec (hs : a.Sound) (n : ℕ) :
    (allocateFrames n a).2.Sound ∧
      (∀ p, (allocateFrames n a).2.Available p → a.Available p) ∧
      (∀ f ∈ (allocateFrames n a).1, a.Available f.physicalAddress ∧
        ¬ (allocateFrames n a).2.Available f.physicalAddress) ∧
      ((allocateFrames n a).1.map (·.physicalAddress)).Nodup := by
  induction n generalizing a with
  | zero => exact ⟨hs, fun _ h => h, by simp [allocateFrames], .nil⟩
  | succ n ih =>
    obtain ⟨hsound, -, havail, htaken⟩ := allocateFrame_spec hs
    obtain ⟨h₁, h₂, h₃, h₄⟩ := ih hsound
    rw [allocateFrames]
    simp only
    refine ⟨h₁, fun p hp => havail p (h₂ p hp), fun f hf => ?_, ?_⟩
    · rcases List.mem_append.mp hf with hf | hf
      · obtain ⟨h₅, h₆, -⟩ := htaken f (Option.mem_toList.mp hf)
        exact ⟨h₅, fun h => h₆ (h₂ _ h)⟩
      · exact ⟨havail _ (h₃ f hf).1, (h₃ f hf).2⟩
    · rw [List.map_append]
      refine List.nodup_append.mpr ⟨?_, h₄, fun p hp q hq => ?_⟩
      · cases (allocateFrame a).1 <;> simp
      · obtain ⟨f, hf, rfl⟩ := List.mem_map.mp hp
        obtain ⟨g, hg, rfl⟩ := List.mem_map.mp hq
        rintro he
        exact (htaken f (Option.mem_toList.mp hf)).2.1 (he ▸ (h₃ g hg).1)

end Allocate

/-! ### Frames and reserved ranges -/

/-- **Frames are fresh**: after `init` with the ranges that the bootstrap has sorted and merged,
the pages that any number of calls of `allocate_frame` return are aligned, in usable entries, apart
from every range that the bootstrap reserves, and pairwise apart. -/
theorem frames_apart {entries : List Entry} {reserved : List PhysicalRange} {hhdmOffset : ℕ}
    (hapart : entries.Pairwise fun e f => e.usable = true → f.usable = true →
      Disjoint e.addresses f.addresses) (hreserved : ∀ r ∈ reserved, Reserves r) (n : ℕ) :
    let frames := (allocateFrames n (init entries hhdmOffset (sortAndMerge reserved))).1
    (∀ f ∈ frames, pageSize ∣ f.physicalAddress ∧
      (∃ e ∈ entries, e.usable = true ∧ page f.physicalAddress ⊆ e.addresses) ∧
      ∀ r ∈ reserved, Disjoint (page f.physicalAddress) r.addresses) ∧
    frames.Pairwise fun f g => Disjoint (page f.physicalAddress) (page g.physicalAddress) := by
  have hbuilt := built_init (sorted_sortAndMerge reserved) hhdmOffset hapart
  have hsound := hbuilt.sound 0 hhdmOffset
  obtain ⟨-, -, havail, hnodup⟩ := allocateFrames_spec hsound n
  refine ⟨fun f hf => ?_, ?_⟩
  · obtain ⟨hdvd, hg⟩ := (havail f hf).1
    obtain ⟨hentry, hclear⟩ := hbuilt.page hdvd hg
    refine ⟨hdvd, hentry, fun r hr => ?_⟩
    obtain ⟨m, hm, hwithin⟩ := within_merged hr (hreserved r hr).fits
    refine (hclear m hm hwithin.fits).mono_right (Set.Ico_subset_Ico hwithin.start_le ?_)
    exact hwithin.stop_le
  · rw [List.Nodup, List.pairwise_map] at hnodup
    refine hnodup.imp_of_mem fun hf hg hne => disjoint_page (havail _ hf).1.1 (havail _ hg).1.1 hne

/-- One usable entry, with a page table in the middle of it: what is left is handed out. -/
theorem frames_apart_sample :
    let entries : List Entry := [⟨0, 3 * 4096, true⟩]
    let reserved : List PhysicalRange := [⟨4096, 4096, by decide, by decide⟩]
    let frames := (allocateFrames 3 (init entries 0 (sortAndMerge reserved))).1
    (∀ f ∈ frames, pageSize ∣ f.physicalAddress ∧
      (∃ e ∈ entries, e.usable = true ∧ page f.physicalAddress ⊆ e.addresses) ∧
      ∀ r ∈ reserved, Disjoint (page f.physicalAddress) r.addresses) ∧
    frames.Pairwise fun f g => Disjoint (page f.physicalAddress) (page g.physicalAddress) :=
  frames_apart (List.pairwise_singleton _ _)
    (fun r hr => by
      rw [List.mem_singleton.mp hr]
      exact .pageTable (show 4096 = addressMask 4096 from by decide) rfl) 3

end ImagineOS.Memory
