import ImagineOS.Memory.Frames
import Mathlib.Order.Interval.Set.Disjoint

/-!
# Physical memory: surfaces of display clients

`surface::create` asks the frame allocator for one page, and then zeroes and maps as many bytes as
the largest surface has, which is sixty-three pages. The pages behind the first one belong to
whoever the allocator hands them out to (`surface_overlaps`). Memory of surfaces is exclusive as
long as no other page of the memory that the allocator manages is in the way
(`surfaces_exclusive`).
-/

namespace ImagineOS.Memory

/-! ### Surfaces -/

def surfaceMaxWidth : ℕ := 320

def surfaceMaxHeight : ℕ := 200

def surfaceMaxPixels : ℕ := surfaceMaxWidth * surfaceMaxHeight

def maxSurfaces : ℕ := 8

/-- The errors of `surface::create`. -/
inductive SurfaceError
  | einval
  | enospc
  deriving DecidableEq, Repr

/-- The allocator, the field `physical` of the slots, and the ledger. -/
structure System where
  allocator : FrameAllocator
  slots : List ℕ
  /-- The pages at which surfaces were zeroed. -/
  surfaces : List ℕ
  /-- The pages that were handed out to others. -/
  owned : List ℕ

/-- The system after `memory::init`. -/
def System.boot (allocator : FrameAllocator) : System where
  allocator := allocator
  slots := List.replicate maxSurfaces 0
  surfaces := []
  owned := []

/-- `n` pages for processes, heaps and page tables. -/
def System.allocate (n : ℕ) (s : System) : System :=
  { s with
    allocator := (allocateFrames n s.allocator).2
    owned := s.owned ++ (allocateFrames n s.allocator).1.map (·.physicalAddress) }

/-- `surface::create`, when mapping the buffer takes `tables` page tables and succeeds if `mapped`
is set. -/
def create (width height tables : ℕ) (mapped : Bool) (s : System) :
    Except SurfaceError ℕ × System :=
  if width = 0 ∨ height = 0 ∨ surfaceMaxWidth < width ∨ surfaceMaxHeight < height then
    (.error .einval, s)
  else match s.slots.findIdx? (· = 0) with
    | none => (.error .enospc, s)
    | some slot =>
      match allocateFrame s.allocator with
      | (none, allocator) => (.error .enospc, { s with allocator := allocator })
      | (some frame, allocator) =>
        let s := System.allocate tables { s with
          allocator := allocator
          surfaces := frame.physicalAddress :: s.surfaces }
        if mapped then (.ok slot, { s with slots := s.slots.set slot frame.physicalAddress })
        else (.error .enospc, s)

/-- `surface::destroy` and `surface::release_pid`: the buffer is not given back. -/
def System.destroy (slot : ℕ) (s : System) : System := { s with slots := s.slots.set slot 0 }

/-! ### Exclusive memory -/

/-- The bytes that `surface::create` zeroes and maps, from page `p` on. -/
def surfaceBytes (p : ℕ) : Set ℕ := Set.Ico p (p + surfaceMaxPixels * 4)

/-- No byte of a surface belongs to anyone else. -/
structure Exclusive (s : System) : Prop where
  owned : ∀ p ∈ s.surfaces, ∀ q ∈ s.owned, Disjoint (surfaceBytes p) (page q)
  surfaces : s.surfaces.Pairwise fun p q => Disjoint (surfaceBytes p) (surfaceBytes q)

/-- No other page of the memory that was given to the allocator lies in the bytes of a surface at
page `p`. -/
def Alone (boot : FrameAllocator) (p : ℕ) : Prop :=
  ∀ q, boot.Available q → q ≠ p → Disjoint (surfaceBytes p) (page q)

/-- The systems that runs reach, when surfaces are created only where the allocator is in an allowed
state. -/
inductive Run (boot : FrameAllocator) (allowed : FrameAllocator → Prop) : System → Prop
  | boot : Run boot allowed (.boot boot)
  | allocate {s : System} (h : Run boot allowed s) (n : ℕ) : Run boot allowed (s.allocate n)
  | create {s : System} (h : Run boot allowed s) (width height tables : ℕ) (mapped : Bool)
      (ha : allowed s.allocator) : Run boot allowed (create width height tables mapped s).2
  | destroy {s : System} (h : Run boot allowed s) (slot : ℕ) : Run boot allowed (s.destroy slot)

/-- The page that a surface would get is alone. -/
def NextAlone (boot a : FrameAllocator) : Prop :=
  ∀ f, (allocateFrame a).1 = some f → Alone boot f.physicalAddress

section Exclusive

variable {boot : FrameAllocator} {s : System}

/-- The ledger is right: pages on it were handed out once, and those of surfaces are alone. -/
structure Ledger (boot : FrameAllocator) (s : System) : Prop where
  sound : s.allocator.Sound
  available : ∀ p, s.allocator.Available p → boot.Available p
  surfaces : ∀ p ∈ s.surfaces, boot.Available p ∧ ¬ s.allocator.Available p ∧ Alone boot p
  owned : ∀ q ∈ s.owned, boot.Available q ∧ ¬ s.allocator.Available q ∧ q ∉ s.surfaces
  nodup : s.surfaces.Nodup

theorem Ledger.initial (h : boot.Sound) : Ledger boot (.boot boot) where
  sound := h
  available _ h := h
  surfaces := by simp [System.boot]
  owned := by simp [System.boot]
  nodup := .nil

theorem Ledger.allocate (h : Ledger boot s) (n : ℕ) : Ledger boot (s.allocate n) := by
  obtain ⟨hsound, havail, htaken, -⟩ := allocateFrames_spec h.sound n
  exact {
    sound := hsound
    available := fun p hp => h.available p (havail p hp)
    surfaces := fun p hp => by
      obtain ⟨h₁, h₂, h₃⟩ := h.surfaces p hp
      exact ⟨h₁, fun hp' => h₂ (havail p hp'), h₃⟩
    owned := fun q hq => by
      rcases List.mem_append.mp hq with hq | hq
      · obtain ⟨h₁, h₂, h₃⟩ := h.owned q hq
        exact ⟨h₁, fun hq' => h₂ (havail q hq'), h₃⟩
      · obtain ⟨f, hf, rfl⟩ := List.mem_map.mp hq
        obtain ⟨h₁, h₂⟩ := htaken f hf
        -- The page was available until now, and pages of surfaces are not.
        exact ⟨h.available _ h₁, h₂, fun hs => (h.surfaces _ hs).2.1 h₁⟩
    nodup := h.nodup }

theorem Ledger.create (h : Ledger boot s) (width height tables : ℕ) (mapped : Bool)
    (halone : NextAlone boot s.allocator) :
    Ledger boot (create width height tables mapped s).2 := by
  have hone := allocateFrame_spec h.sound
  unfold Memory.create
  split
  · exact h
  split
  · exact h
  split
  · rename_i hframe
    rw [hframe] at hone
    exact ⟨hone.sound, fun p hp => h.available p (hone.available p hp),
      fun p hp => ⟨(h.surfaces p hp).1, fun hp' => (h.surfaces p hp).2.1 (hone.available p hp'),
        (h.surfaces p hp).2.2⟩,
      fun q hq => ⟨(h.owned q hq).1, fun hq' => (h.owned q hq).2.1 (hone.available q hq'),
        (h.owned q hq).2.2⟩, h.nodup⟩
  · rename_i frame allocator hframe
    rw [hframe] at hone
    obtain ⟨hfree, hgone, -, -⟩ := hone.taken frame rfl
    have hnext : Ledger boot { s with
        allocator := allocator, surfaces := frame.physicalAddress :: s.surfaces } := {
      sound := hone.sound
      available := fun p hp => h.available p (hone.available p hp)
      surfaces := fun p hp => by
        rcases List.mem_cons.mp hp with rfl | hp
        · exact ⟨h.available _ hfree, hgone, halone frame (by rw [hframe])⟩
        · exact ⟨(h.surfaces p hp).1, fun hp' => (h.surfaces p hp).2.1 (hone.available p hp'),
            (h.surfaces p hp).2.2⟩
      owned := fun q hq => by
        obtain ⟨h₁, h₂, h₃⟩ := h.owned q hq
        refine ⟨h₁, fun hq' => h₂ (hone.available q hq'), fun hmem => ?_⟩
        rcases List.mem_cons.mp hmem with rfl | hmem
        · exact h₂ hfree
        · exact h₃ hmem
      nodup := List.nodup_cons.mpr ⟨fun hmem => (h.surfaces _ hmem).2.1 hfree, h.nodup⟩ }
    have hmapped := hnext.allocate tables
    simp only
    split
    · exact ⟨hmapped.sound, hmapped.available, hmapped.surfaces, hmapped.owned, hmapped.nodup⟩
    · exact hmapped

theorem Ledger.exclusive (h : Ledger boot s) : Exclusive s where
  owned p hp q hq := by
    obtain ⟨-, -, halone⟩ := h.surfaces p hp
    obtain ⟨havail, -, hmem⟩ := h.owned q hq
    exact halone q havail fun he => hmem (he ▸ hp)
  surfaces := by
    refine h.nodup.imp_of_mem fun {p q} hp hq hne => Set.disjoint_left.mpr fun x hx hx' => ?_
    -- Neither page lies in the bytes that begin at the other.
    have hpage : ∀ p, p ∈ page p := fun p => ⟨le_rfl, Nat.lt_add_of_pos_right (by decide)⟩
    obtain ⟨hp₁, -, hp₂⟩ := h.surfaces p hp
    obtain ⟨hq₁, -, hq₂⟩ := h.surfaces q hq
    have hnp : q ∉ surfaceBytes p := fun hin =>
      Set.disjoint_left.mp (hp₂ q hq₁ (Ne.symm hne)) hin (hpage q)
    have hnq : p ∉ surfaceBytes q := fun hin =>
      Set.disjoint_left.mp (hq₂ p hp₁ hne) hin (hpage p)
    simp only [surfaceBytes, Set.mem_Ico] at hx hx' hnp hnq
    omega

/-- **Memory of surfaces is exclusive** in every run that creates surfaces only where no other page
is in the way. -/
theorem surfaces_exclusive (hsound : boot.Sound) (h : Run boot (NextAlone boot) s) :
    Exclusive s := by
  suffices hs : Ledger boot s from hs.exclusive
  induction h with
  | boot => exact .initial hsound
  | allocate _ n ih => exact ih.allocate n
  | create _ width height tables mapped ha ih => exact ih.create width height tables mapped ha
  | destroy _ slot ih => exact ⟨ih.sound, ih.available, ih.surfaces, ih.owned, ih.nodup⟩

end Exclusive

/-- A page for a surface, and one at a distance. -/
def sparseEntries : List Entry := [⟨4096, 4096, true⟩, ⟨2 ^ 20, 4096, true⟩]

/-- Four pages in a row. -/
def denseEntries : List Entry := [⟨4096, 4 * 4096, true⟩]

theorem init_sparse : init sparseEntries 0 [] = ⟨[⟨4096, 8192⟩, ⟨2 ^ 20, 2 ^ 20 + 4096⟩], 0, 0⟩ :=
  rfl

theorem init_dense : init denseEntries 0 [] = ⟨[⟨4096, 5 * 4096⟩], 0, 0⟩ := rfl

theorem sound_sparse : (init sparseEntries 0 []).Sound := by
  have hbuilt : Built sparseEntries [] (init sparseEntries 0 []).regions := by
    refine built_init .nil 0 (List.pairwise_pair.mpr fun _ _ => ?_)
    rw [Entry.addresses, Entry.addresses, Set.Ico_disjoint_Ico]
    decide
  exact hbuilt.sound 0 0

theorem nextAlone_sparse : NextAlone (init sparseEntries 0 []) (init sparseEntries 0 []) := by
  intro f hf
  rw [init_sparse, allocateFrame] at hf
  obtain rfl : f = ⟨4096, 4096⟩ := (Option.some.inj hf).symm
  rintro q ⟨hdvd, g, hg, hnext, hstop⟩ hne
  rw [surfaceBytes, page, Set.Ico_disjoint_Ico]
  simp only [surfaceMaxPixels, surfaceMaxWidth, surfaceMaxHeight, pageSize] at hdvd ⊢
  rw [init_sparse] at hg
  rcases List.mem_cons.mp hg with rfl | hg
  · simp only at hnext hstop hne
    omega
  · obtain rfl := List.mem_singleton.mp hg
    simp only at hnext hstop
    omega

/-- A surface in the first page of the sparse memory, and a page for someone else. -/
theorem surfaces_exclusive_sample :
    Exclusive ((create 320 200 0 true (.boot (init sparseEntries 0 []))).2.allocate 1) :=
  surfaces_exclusive sound_sparse (.allocate (.create .boot 320 200 0 true nextAlone_sparse) 1)

theorem allocateFrame_room (a : FrameAllocator) {r : Region}
    (h : a.currentRegion < a.regions.length) (hr : a.regions[a.currentRegion] = r)
    (hroom : r.next < r.stop) (hwrap : r.next + pageSize < 2 ^ 64)
    (hvirtual : r.next + a.hhdmOffset < 2 ^ 64) :
    allocateFrame a =
      (some ⟨r.next, r.next + a.hhdmOffset⟩,
        { a with regions := a.regions.set a.currentRegion ⟨r.next + pageSize, r.stop⟩ }) := by
  subst hr
  rw [allocateFrame, dif_pos h, if_pos hroom, if_pos hwrap, if_pos hvirtual]

theorem allocateFrame_dense (next : ℕ) (hnext : next < 5 * 4096) :
    allocateFrame ⟨[⟨next, 5 * 4096⟩], 0, 0⟩ =
      (some ⟨next, next⟩, ⟨[⟨next + 4096, 5 * 4096⟩], 0, 0⟩) := by
  have hwrap : next + pageSize < 2 ^ 64 := by
    simp only [pageSize]
    omega
  have hvirtual : next + 0 < 2 ^ 64 := by omega
  exact allocateFrame_room ⟨[⟨next, 5 * 4096⟩], 0, 0⟩ (Nat.lt_succ_self 0) rfl hnext hwrap hvirtual

/-- **The bytes of a surface overlap a page table**: the first page of the first surface of a
process is followed by the page table that maps it. -/
theorem surface_overlaps :
    let s := (create 320 200 1 true (.boot (init denseEntries 0 []))).2
    Run (init denseEntries 0 []) (fun _ => True) s ∧ s.surfaces = [4096] ∧ s.owned = [8192] ∧
      ¬ Exclusive s := by
  intro s
  have hframes : allocateFrames 1 ⟨[⟨8192, 5 * 4096⟩], 0, 0⟩ =
      ([⟨8192, 8192⟩], ⟨[⟨8192 + 4096, 5 * 4096⟩], 0, 0⟩) := by
    rw [allocateFrames, allocateFrame_dense _ (by decide)]
    rfl
  have hs : s.surfaces = [4096] ∧ s.owned = [8192] := by
    simp only [s, create, init_dense, System.boot]
    rw [allocateFrame_dense _ (by decide)]
    simp only [System.allocate]
    rw [hframes]
    exact ⟨rfl, rfl⟩
  refine ⟨.create .boot 320 200 1 true trivial, hs.1, hs.2, fun h => ?_⟩
  have hdisj := h.owned 4096 (by simp [hs.1]) 8192 (by simp [hs.2])
  exact Set.disjoint_left.mp hdisj (show 8192 ∈ surfaceBytes 4096 from ⟨by decide, by decide⟩)
    (show 8192 ∈ page 8192 from ⟨by decide, by decide⟩)

end ImagineOS.Memory
