import ImagineOS.Overlay.Removal

/-!
# Overlay: directories that are not empty

A removal that is not recursive should leave a directory with children alone. The code asks for a
listing without hidden names in 4096 bytes, and takes a listing that fails for an empty one. So a
directory with hidden children only, or with more names than fit, is removed
(`hidden_child_is_removed`).
-/

namespace ImagineOS.Overlay

/-- A directory has a file or a directory in it. -/
def HasChild (fs : RamFs) (p : List UInt8) : Prop :=
  ∃ n, Component n ∧ IsFound fs (child p n)

/-- The listing without hidden names can be made, fits its buffer, and has a name. -/
structure SeenNonEmpty (fs : RamFs) (p : List UInt8) : Prop where
  joins : ∀ m ∈ archivedNames fs p, joins p m = true
  fits : (listing fs false p).length ≤ 4096
  shown : ∃ n, n ∈ contributed fs false p

/-- The path is in the archive, and there is no node to hide it. -/
def WhiteoutFails (fs : RamFs) (p : List UInt8) : Prop :=
  (Archive.isFile fs.archive p = true ∨ Archive.isDirectory fs.archive p = true) ∧
    (maxPath < p.length ∨ slotFor fs p = none)

section Emptiness

variable {fs : RamFs} {p : List UInt8}

/-! ### Listings with names -/

theorem listing_ne_nil_iff (hs : Nodes fs) {includeHidden : Bool} :
    listing fs includeHidden p ≠ [] ↔ ∃ n, n ∈ contributed fs includeHidden p := by
  have hnames : ∀ n ∈ contributed fs includeHidden p, n ≠ [] :=
    fun n hn => ne_nil_of_mem_contributed hs hn
  rw [listing]
  cases hcontributed : contributed fs includeHidden p with
  | nil => exact iff_of_false (fun h => h rfl) (by simp)
  | cons m ms =>
    refine iff_of_true ?_ ⟨m, List.mem_cons_self⟩
    have hm : m ≠ [] := hnames m (by rw [hcontributed]; exact List.mem_cons_self)
    have hfirst : addName [] m = [m] := if_neg (by simp [lines, joined, hm])
    have hgrows := length_joined_foldl_le ms [m]
    intro hnil
    rw [collected, List.foldl_cons, hfirst] at hnil
    rw [hnil] at hgrows
    simp [joined] at hgrows

theorem seenNonEmpty_iff (hs : Nodes fs) (hp : Canonical p) (hdev : p ≠ devPath)
    (hdirectory : isDirectoryOverlay fs p = true) :
    (listDirectoryOverlay fs p false 4096).getD [] ≠ [] ↔ SeenNonEmpty fs p := by
  rw [listDirectoryOverlay_eq hp hdev]
  constructor
  · intro hseen
    split at hseen
    · rename_i h
      exact ⟨h.2.1, h.2.2, (listing_ne_nil_iff hs).mp hseen⟩
    · exact absurd rfl hseen
  · rintro ⟨hjoins, hfits, hshown⟩
    rw [if_pos ⟨hdirectory, hjoins, hfits⟩]
    exact (listing_ne_nil_iff hs).mpr hshown

/-! ### Removals -/

theorem whiteout_error_iff : (∃ e, insertOverlay p .whiteout fs = (.error e, fs)) ↔
    maxPath < p.length ∨ slotFor fs p = none := by
  rw [insertOverlay, insertOverlayAs]
  by_cases hlong : maxPath < p.length
  · rw [if_pos hlong]
    exact iff_of_true ⟨_, rfl⟩ (Or.inl hlong)
  · rw [if_neg hlong, or_iff_right hlong]
    cases slotFor fs p with
    | none => exact iff_of_true ⟨_, rfl⟩ rfl
    | some i =>
      refine iff_of_false ?_ (by simp)
      rintro ⟨e, h⟩
      exact absurd (Prod.ext_iff.mp h).1 (by simp)

/-- When a removal that is not recursive leaves a directory alone. -/
theorem removeOverlay_error_iff (hs : Nodes fs) {path : List UInt8}
    (hpath : canonicalPath path = some p) (hdirectory : isDirectoryOverlay fs p = true) :
    (∃ e, removeOverlay path false fs = (.error e, fs)) ↔
      (p = [] ∨ p = devPath ∨ p = diskPath) ∨ SeenNonEmpty fs p ∨ WhiteoutFails fs p := by
  rw [removeOverlay, hpath]
  dsimp only
  by_cases hspecial : p = [] ∨ p = devPath ∨ p = diskPath
  · rw [if_pos hspecial]
    exact iff_of_true ⟨_, rfl⟩ (Or.inl hspecial)
  rw [if_neg hspecial, if_neg (by simp [hdirectory]), or_iff_right hspecial]
  have hdev : p ≠ devPath := fun h => hspecial (Or.inr (Or.inl h))
  have hseen := seenNonEmpty_iff hs (canonical_of_canonicalPath hpath) hdev hdirectory
  by_cases hfull : SeenNonEmpty fs p
  · rw [if_pos ⟨hdirectory, hseen.mpr hfull, rfl⟩]
    exact iff_of_true ⟨_, rfl⟩ (Or.inl hfull)
  rw [if_neg fun h => hfull (hseen.mp h.2.1), or_iff_right hfull]
  by_cases harchive : Archive.isFile fs.archive p = true ∨ Archive.isDirectory fs.archive p = true
  · rw [if_pos harchive, whiteout_error_iff]
    exact (and_iff_right harchive).symm
  · rw [if_neg harchive]
    refine iff_of_false ?_ fun h => harchive h.1
    rintro ⟨e, h⟩
    exact absurd (Prod.ext_iff.mp h).1 (by simp)

/-- **A directory with children stays if its listing shows one, or it cannot be removed at all.** -/
theorem nonempty_stays_iff (h : Reached fs) (path : Str) (hpath : canonicalPath path.val = some p)
    (hdirectory : isDirectoryOverlay fs p = true) :
    (HasChild fs p → ∃ e, removeOverlay path.val false fs = (.error e, fs)) ↔
      (HasChild fs p → (p = [] ∨ p = devPath ∨ p = diskPath) ∨ SeenNonEmpty fs p ∨
        WhiteoutFails fs p) :=
  imp_congr_right fun _ => removeOverlay_error_iff h.sound.nodes hpath hdirectory

end Emptiness

/-! ### Samples -/

theorem nonempty_stays_iff_sample :
    ∃ e, removeOverlay [97] false plainFs = (.error e, plainFs) := by
  have hnames : contributed plainFs false [97] = [[98]] := by decide +kernel
  have harchived : archivedNames plainFs [97] = [] := by decide +kernel
  have hseen : SeenNonEmpty plainFs [97] := {
    joins := by simp [harchived]
    fits := by rw [listing, hnames]; decide
    shown := ⟨[98], by simp [hnames]⟩ }
  exact (nonempty_stays_iff reached_plainFs ⟨[97], by decide⟩ (by decide) (by decide +kernel)).mpr
    (fun _ => Or.inr (Or.inl hseen)) ⟨[98], ⟨by decide, by decide⟩, Or.inl (by decide +kernel)⟩

/-- The directory `a` has the file `.b`, and is removed. -/
theorem hidden_child_is_removed : ∃ fs, Reached fs ∧ isDirectoryOverlay fs [97] = true ∧
    isFileOverlay fs [97, 47, 46, 98] = true ∧ (removeOverlay [97] false fs).1 = .ok () ∧
    isDirectoryOverlay (removeOverlay [97] false fs).2 [97] = false ∧
    isFileOverlay (removeOverlay [97] false fs).2 [97, 47, 46, 98] = false := by
  have hmount : Reached (.mount [] (fun _ => 0) false 0) := .mount _ _ _ _
  have hmkdir : Reached emptyDirectoryFs :=
    .step hmount (.createDirectory ⟨[97], by decide⟩ false 0 0) rfl
  have hcreate : Reached (createFileOverlay [97, 47, 46, 98] 0o644 0 0 emptyDirectoryFs).2 :=
    .step hmkdir (.createFile ⟨[97, 47, 46, 98], by decide⟩ 0o644 0 0) rfl
  exact ⟨_, hcreate, by decide +kernel, by decide +kernel, by decide +kernel, by decide +kernel,
    by decide +kernel⟩

end ImagineOS.Overlay
