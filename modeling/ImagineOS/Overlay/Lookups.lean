import ImagineOS.Overlay.Pool

/-!
# Overlay: lookups

The lookups ask for the node at a path first, and for the archive and the nodes below the path only
if there is no node and the path is not hidden. Metadata are those of the node, whatever its kind
is, so a path that was removed has some (`removed_has_metadata`).
-/

namespace ImagineOS.Overlay

open Option

/-- Whether there is a file or a directory of the overlay below a path. -/
def visibleBelow (fs : RamFs) (p : List UInt8) : Bool :=
  (List.finRange maxOverlayNodes).any fun i =>
    (fs.overlay i).kind.isVisible && isChildPath (fs.overlay i).path p

section Lookups

variable {fs : RamFs} {p path : List UInt8} {i : Fin maxOverlayNodes}

theorem visibleBelow_iff : visibleBelow fs p = true ↔
    ∃ i, (fs.overlay i).kind.isVisible = true ∧ isChildPath (fs.overlay i).path p = true := by
  simp [visibleBelow]

theorem kindAt_of_node (h : findOverlayNode fs p = some i) : kindAt fs p = (fs.overlay i).kind := by
  rw [kindAt, h]
  rfl

theorem kindAt_of_none (h : findOverlayNode fs p = none) : kindAt fs p = .empty := by
  rw [kindAt, h]
  rfl

theorem isHidden_of_node (h : findOverlayNode fs p = some i) :
    isHidden fs p = ((fs.overlay i).kind == .whiteout) := by
  rw [isHidden, h]

/-! ### Files -/

theorem isFileOverlay_diskPath : isFileOverlay fs diskPath = fs.blockDiskPresent := by
  rw [isFileOverlay, canonicalPath_of_canonical (Or.inr (by decide))]
  exact if_pos rfl

theorem isFileOverlay_of_node (hp : Canonical p) (hdisk : p ≠ diskPath)
    (h : findOverlayNode fs p = some i) :
    isFileOverlay fs p = ((fs.overlay i).kind == .file) := by
  rw [isFileOverlay, canonicalPath_of_canonical hp]
  dsimp only
  rw [if_neg hdisk, isHidden_of_node h, kindAt_of_node h]
  cases hkind : (fs.overlay i).kind with
  | empty => exact absurd hkind (of_findOverlayNode h).1
  | _ => rfl

theorem isFileOverlay_of_none (hp : Canonical p) (hdisk : p ≠ diskPath)
    (h : findOverlayNode fs p = none) :
    isFileOverlay fs p = (!isHidden fs p && Archive.isFile fs.archive p) := by
  rw [isFileOverlay, canonicalPath_of_canonical hp]
  dsimp only
  rw [if_neg hdisk, kindAt_of_none h]
  cases isHidden fs p <;> rfl

/-! ### Directories -/

theorem isDirectoryOverlay_of_node (hp : Canonical p) (hdev : p ≠ devPath)
    (h : findOverlayNode fs p = some i) :
    isDirectoryOverlay fs p = (fs.overlay i).kind.isDirectory := by
  rw [isDirectoryOverlay, canonicalPath_of_canonical hp]
  dsimp only
  rw [if_neg hdev, kindAt_of_node h]
  cases hkind : (fs.overlay i).kind with
  | empty => exact absurd hkind (of_findOverlayNode h).1
  | _ => rfl

theorem isDirectoryOverlay_of_none (hp : Canonical p) (hdev : p ≠ devPath)
    (h : findOverlayNode fs p = none) :
    isDirectoryOverlay fs p =
      (!isHidden fs p && (Archive.isDirectory fs.archive p || visibleBelow fs p)) := by
  rw [isDirectoryOverlay, canonicalPath_of_canonical hp]
  dsimp only
  rw [if_neg hdev, kindAt_of_none h]
  cases isHidden fs p <;> rfl

/-! ### Contents -/

theorem readFromOverlay_of_node (hp : Canonical p) (h : findOverlayNode fs p = some i) :
    readFromOverlay fs p = if (fs.overlay i).kind = .file then some (contents fs i) else none := by
  rw [readFromOverlay_eq hp, isHidden_of_node h, h]
  dsimp only
  cases (fs.overlay i).kind <;> simp

theorem readFromOverlay_of_none (hp : Canonical p) (h : findOverlayNode fs p = none) :
    readFromOverlay fs p = if isHidden fs p then none else Archive.find fs.archive p := by
  rw [readFromOverlay_eq hp, h]

theorem isSome_readFromOverlay (hp : Canonical p) (hdisk : p ≠ diskPath) :
    (readFromOverlay fs p).isSome = isFileOverlay fs p := by
  cases h : findOverlayNode fs p with
  | some i =>
    rw [readFromOverlay_of_node hp h, isFileOverlay_of_node hp hdisk h]
    cases (fs.overlay i).kind <;> rfl
  | none =>
    rw [readFromOverlay_of_none hp h, isFileOverlay_of_none hp hdisk h, Archive.isFile]
    cases isHidden fs p <;> rfl

/-! ### Other spellings -/

section Spellings

variable (h : canonicalPath path = some p)

include h

theorem canonicalPath_idem : canonicalPath p = some p :=
  canonicalPath_of_canonical (canonical_of_canonicalPath h)

theorem isFileOverlay_of_canonicalPath : isFileOverlay fs path = isFileOverlay fs p := by
  rw [isFileOverlay, isFileOverlay, h, canonicalPath_idem h]

theorem isDirectoryOverlay_of_canonicalPath :
    isDirectoryOverlay fs path = isDirectoryOverlay fs p := by
  rw [isDirectoryOverlay, isDirectoryOverlay, h, canonicalPath_idem h]

theorem metadataOverlay_of_canonicalPath : metadataOverlay fs path = metadataOverlay fs p := by
  rw [metadataOverlay, metadataOverlay, h, canonicalPath_idem h]

end Spellings

/-! ### Metadata -/

theorem metadataOverlay_of_node (hp : Canonical p) (h : findOverlayNode fs p = some i) :
    metadataOverlay fs p = some ⟨(fs.overlay i).dataLength, (fs.overlay i).mode,
      (fs.overlay i).uid, (fs.overlay i).gid, (fs.overlay i).kind.isDirectory⟩ := by
  rw [metadataOverlay, canonicalPath_of_canonical hp]
  dsimp only [bind_eq_bind, bind_some]
  rw [h]

theorem metadataOverlay_of_none (hp : Canonical p) (h : findOverlayNode fs p = none) :
    metadataOverlay fs p =
      if isDirectoryOverlay fs p then
        some ((Archive.metadata fs.archive p).getD ⟨0, 0o755, 0, 0, true⟩)
      else if p = diskPath ∧ fs.blockDiskPresent then
        some ⟨fs.sectorCount * blockSize, 0o600, 0, 0, false⟩
      else (readFromOverlay fs p).map fun content =>
        (Archive.metadata fs.archive p).getD ⟨content.length, 0o644, 0, 0, false⟩ := by
  rw [metadataOverlay, canonicalPath_of_canonical hp]
  dsimp only [bind_eq_bind, bind_some]
  rw [h]
  dsimp only
  by_cases hdirectory : isDirectoryOverlay fs p = true
  · rw [if_pos hdirectory, if_pos hdirectory]
  rw [if_neg hdirectory, if_neg hdirectory, fileLenOverlay, if_neg hdirectory]
  cases readFromOverlay fs p <;> rfl

end Lookups

/-! ### Agreement -/

/-- Metadata are those of what the lookups find. -/
structure MetadataAgrees (fs : RamFs) (path : List UInt8) : Prop where
  isSome_iff : (metadataOverlay fs path).isSome = true ↔
    isFileOverlay fs path = true ∨ isDirectoryOverlay fs path = true
  directory : ∀ m, metadataOverlay fs path = some m → isDirectoryOverlay fs path = m.isDirectory
  file : ∀ m, metadataOverlay fs path = some m → isFileOverlay fs path = !m.isDirectory
  size : ∀ m content, metadataOverlay fs path = some m → isFileOverlay fs path = true →
    readFromOverlay fs path = some content → m.size = content.length

/-- There is a directory at a path without a node. -/
def HasDirectory (fs : RamFs) (p : List UInt8) : Prop :=
  p = devPath ∨ isHidden fs p = false ∧
    (Archive.isDirectory fs.archive p = true ∨ visibleBelow fs p = true)

/-- There is a file at a path without a node. -/
def HasFile (fs : RamFs) (p : List UInt8) : Prop :=
  if p = diskPath then fs.blockDiskPresent = true
  else isHidden fs p = false ∧ Archive.isFile fs.archive p = true

/-- The paths whose metadata are those of what the lookups find. -/
structure MetadataConsistent (fs : RamFs) (p : List UInt8) : Prop where
  /-- A node is no `Whiteout`, and that of the disk is for a file if there is a disk. -/
  node : ∀ i, findOverlayNode fs p = some i →
    ((fs.overlay i).kind = .whiteout → p = diskPath) ∧
      (p = diskPath → (fs.overlay i).kind.isDirectory = !fs.blockDiskPresent)
  /-- A directory is no file too, and the first header for it says so. -/
  directory : findOverlayNode fs p = none → HasDirectory fs p → ¬ HasFile fs p ∧
    ∀ m, Archive.metadata fs.archive p = some m → m.isDirectory = true
  /-- The first header for a file is the one that is read. -/
  file : findOverlayNode fs p = none → ¬ HasDirectory fs p → isHidden fs p = false →
    ∀ content, Archive.find fs.archive p = some content →
      if p = diskPath then
        fs.blockDiskPresent = true ∧ fs.sectorCount * blockSize = content.length
      else ∀ m, Archive.metadata fs.archive p = some m →
        m.isDirectory = false ∧ m.size = content.length

section Agreement

variable {fs : RamFs} {p path : List UInt8} {i : Fin maxOverlayNodes}

theorem isDirectoryOverlay_iff (hp : Canonical p) (h : findOverlayNode fs p = none) :
    isDirectoryOverlay fs p = true ↔ HasDirectory fs p := by
  by_cases hdev : p = devPath
  · subst hdev
    exact iff_of_true isDirectoryOverlay_devPath (Or.inl rfl)
  · simp [isDirectoryOverlay_of_none hp hdev h, HasDirectory, hdev]

theorem isFileOverlay_iff (hp : Canonical p) (h : findOverlayNode fs p = none) :
    isFileOverlay fs p = true ↔ HasFile fs p := by
  by_cases hdisk : p = diskPath
  · subst hdisk
    simp [isFileOverlay_diskPath, HasFile]
  · simp [isFileOverlay_of_none hp hdisk h, HasFile, hdisk]

theorem metadataAgrees_of_some {m : Metadata} (h : metadataOverlay fs p = some m) :
    MetadataAgrees fs p ↔ isDirectoryOverlay fs p = m.isDirectory ∧
      isFileOverlay fs p = !m.isDirectory ∧ (m.isDirectory = false →
        ∀ content, readFromOverlay fs p = some content → m.size = content.length) := by
  constructor
  · intro hagrees
    have hfile := hagrees.file m h
    refine ⟨hagrees.directory m h, hfile, fun hm content => hagrees.size m content h ?_⟩
    rw [hfile, hm]
    rfl
  · rintro ⟨hdirectory, hfile, hsize⟩
    refine ⟨iff_of_true (by rw [h]; rfl) ?_, fun m' h' => ?_, fun m' h' => ?_,
      fun m' content h' hfile' => ?_⟩
    · rw [hdirectory, hfile]
      cases m.isDirectory <;> simp
    · rw [← Option.some.inj (h.symm.trans h')]
      exact hdirectory
    · rw [← Option.some.inj (h.symm.trans h')]
      exact hfile
    · rw [← Option.some.inj (h.symm.trans h')]
      refine hsize ?_ content
      rw [hfile] at hfile'
      simpa using hfile'

theorem metadataAgrees_of_none (h : metadataOverlay fs p = none) :
    MetadataAgrees fs p ↔ isFileOverlay fs p = false ∧ isDirectoryOverlay fs p = false := by
  constructor
  · intro hagrees
    have hiff := hagrees.isSome_iff
    rw [h] at hiff
    simpa using hiff
  · rintro ⟨hfile, hdirectory⟩
    refine ⟨by simp [h, hfile, hdirectory], fun m h' => ?_, fun m h' => ?_, fun m _ h' => ?_⟩ <;>
      exact absurd (h.symm.trans h') (by simp)

theorem length_contents : (contents fs i).length = (fs.overlay i).dataLength := by
  rw [contents, List.length_map, List.length_range]

/-- A node agrees with the lookups unless it hides the path. -/
theorem metadataAgrees_of_node (hp : Canonical p) (hdev : p ≠ devPath)
    (h : findOverlayNode fs p = some i) :
    MetadataAgrees fs p ↔ ((fs.overlay i).kind = .whiteout → p = diskPath) ∧
      (p = diskPath → (fs.overlay i).kind.isDirectory = !fs.blockDiskPresent) := by
  have hsize : (fs.overlay i).kind.isDirectory = false → ∀ content,
      readFromOverlay fs p = some content → (fs.overlay i).dataLength = content.length :=
    fun _ content hread => by
      rw [readFromOverlay_of_node hp h] at hread
      split at hread
      · rw [← Option.some.inj hread, length_contents]
      · exact absurd hread (by simp)
  rw [metadataAgrees_of_some (metadataOverlay_of_node hp h), isDirectoryOverlay_of_node hp hdev h]
  by_cases hdisk : p = diskPath
  · subst hdisk
    rw [isFileOverlay_diskPath]
    constructor
    · rintro ⟨-, hfile, -⟩
      exact ⟨fun _ => rfl, fun _ => by rw [hfile, Bool.not_not]⟩
    · rintro ⟨-, hkind⟩
      exact ⟨rfl, by rw [hkind rfl, Bool.not_not], hsize⟩
  · rw [isFileOverlay_of_node hp hdisk h]
    have hkind : ((fs.overlay i).kind == .file) = !(fs.overlay i).kind.isDirectory ↔
        (fs.overlay i).kind ≠ .whiteout := by
      cases hkind : (fs.overlay i).kind with
      | empty => exact absurd hkind (of_findOverlayNode h).1
      | _ => simp [NodeKind.isDirectory]
    constructor
    · rintro ⟨-, hfile, -⟩
      exact ⟨fun hwhiteout => absurd hwhiteout (hkind.mp hfile), fun he => absurd he hdisk⟩
    · rintro ⟨hwhiteout, -⟩
      exact ⟨rfl, hkind.mpr fun he => hdisk (hwhiteout he), hsize⟩

theorem metadataAgrees_of_directory (hp : Canonical p) (h : findOverlayNode fs p = none)
    (hdirectory : HasDirectory fs p) :
    MetadataAgrees fs p ↔ ¬ HasFile fs p ∧
      ∀ m, Archive.metadata fs.archive p = some m → m.isDirectory = true := by
  have hdirectory' := (isDirectoryOverlay_iff hp h).mpr hdirectory
  have hmetadata := metadataOverlay_of_none hp h
  rw [if_pos hdirectory'] at hmetadata
  rw [metadataAgrees_of_some hmetadata, hdirectory', ← isFileOverlay_iff hp h]
  cases Archive.metadata fs.archive p with
  | none => simp
  | some m =>
    simp only [getD_some, Option.some.injEq, forall_eq']
    constructor
    · rintro ⟨hm, hfile, -⟩
      rw [← hm] at hfile
      exact ⟨by simp [hfile], hm.symm⟩
    · rintro ⟨hfile, hm⟩
      exact ⟨hm.symm, by simpa [hm] using hfile, fun he => absurd (he.symm.trans hm) (by simp)⟩

theorem metadataAgrees_of_file (hp : Canonical p) (h : findOverlayNode fs p = none)
    (hdirectory : ¬ HasDirectory fs p) :
    MetadataAgrees fs p ↔ (isHidden fs p = false →
      ∀ content, Archive.find fs.archive p = some content →
        if p = diskPath then
          fs.blockDiskPresent = true ∧ fs.sectorCount * blockSize = content.length
        else ∀ m, Archive.metadata fs.archive p = some m →
          m.isDirectory = false ∧ m.size = content.length) := by
  have hdirectory' : isDirectoryOverlay fs p = false := by
    rw [Bool.eq_false_iff]
    exact fun he => hdirectory ((isDirectoryOverlay_iff hp h).mp he)
  have hmetadata := metadataOverlay_of_none hp h
  rw [hdirectory', if_neg (by simp)] at hmetadata
  have hread := readFromOverlay_of_none hp h
  by_cases hdisk : p = diskPath
  · subst hdisk
    cases hpresent : fs.blockDiskPresent with
    | true =>
      rw [if_pos ⟨rfl, hpresent⟩] at hmetadata
      rw [metadataAgrees_of_some hmetadata, hdirectory', isFileOverlay_diskPath, hpresent, hread]
      simp only [ite_none_left_eq_some, Bool.not_false, Bool.not_eq_true, true_and, if_true,
        forall_const, and_imp]
      exact ⟨fun hall hhidden content => hall content hhidden,
        fun hall content hhidden => hall hhidden content⟩
    | false =>
      rw [if_neg (by simp [hpresent])] at hmetadata
      cases hcontent : readFromOverlay fs diskPath with
      | none =>
        rw [hcontent] at hmetadata hread
        rw [metadataAgrees_of_none hmetadata, hdirectory', isFileOverlay_diskPath, hpresent]
        refine iff_of_true ⟨rfl, rfl⟩ fun hhidden content hfind => ?_
        rw [hhidden, hfind] at hread
        exact absurd hread (by simp)
      | some content =>
        rw [hcontent] at hmetadata hread
        rw [metadataAgrees_of_some hmetadata, hdirectory', isFileOverlay_diskPath, hpresent]
        split at hread
        · exact absurd hread (by simp)
        rename_i hhidden
        refine iff_of_false ?_ fun hall => ?_
        · rintro ⟨hm, hm', -⟩
          rw [← hm] at hm'
          exact absurd hm' (by simp)
        · exact absurd (hall (by simpa using hhidden) content hread.symm) (by simp)
  · rw [if_neg fun he => hdisk he.1] at hmetadata
    have hfile : isFileOverlay fs p = (readFromOverlay fs p).isSome :=
      (isSome_readFromOverlay hp hdisk).symm
    cases hcontent : readFromOverlay fs p with
    | none =>
      rw [hcontent] at hmetadata hread hfile
      rw [metadataAgrees_of_none hmetadata, hdirectory', hfile]
      refine iff_of_true ⟨rfl, rfl⟩ fun hhidden content hfind => ?_
      rw [hhidden, hfind] at hread
      exact absurd hread (by simp)
    | some content =>
      rw [hcontent] at hmetadata hread hfile
      rw [metadataAgrees_of_some hmetadata, hdirectory', hfile, hcontent]
      split at hread
      · exact absurd hread (by simp)
      rename_i hhidden
      rw [Bool.not_eq_true] at hhidden
      rw [← hread]
      simp only [hhidden, hdisk, if_false, Option.some.injEq, forall_eq', isSome_some,
        forall_const]
      cases Archive.metadata fs.archive p with
      | none => simp
      | some m =>
        simp only [getD_some, Option.some.injEq, forall_eq']
        constructor
        · rintro ⟨hm, -, hsize⟩
          exact ⟨hm.symm, hsize hm.symm⟩
        · rintro ⟨hm, hsize⟩
          exact ⟨hm.symm, by rw [hm]; rfl, fun _ => hsize⟩

theorem metadataAgrees_of_canonicalPath (h : canonicalPath path = some p) :
    MetadataAgrees fs path ↔ MetadataAgrees fs p := by
  constructor <;> rintro ⟨hsome, hdirectory, hfile, hsize⟩
  · rw [metadataOverlay_of_canonicalPath h, isFileOverlay_of_canonicalPath h,
      isDirectoryOverlay_of_canonicalPath h] at hsome
    simp only [metadataOverlay_of_canonicalPath h, isFileOverlay_of_canonicalPath h,
      isDirectoryOverlay_of_canonicalPath h, readFromOverlay_of_canonicalPath h]
      at hdirectory hfile hsize
    exact ⟨hsome, hdirectory, hfile, hsize⟩
  · rw [← metadataOverlay_of_canonicalPath h, ← isFileOverlay_of_canonicalPath h,
      ← isDirectoryOverlay_of_canonicalPath h] at hsome
    simp only [← metadataOverlay_of_canonicalPath h, ← isFileOverlay_of_canonicalPath h,
      ← isDirectoryOverlay_of_canonicalPath h, ← readFromOverlay_of_canonicalPath h]
      at hdirectory hfile hsize
    exact ⟨hsome, hdirectory, hfile, hsize⟩

/-- **Metadata are those of what the lookups find, for the consistent paths only.** -/
theorem metadata_agrees_iff (h : Reached fs) (path : Str) :
    MetadataAgrees fs path.val ↔
      ∀ p, canonicalPath path.val = some p → MetadataConsistent fs p := by
  cases hcanonical : canonicalPath path.val with
  | none =>
    refine iff_of_true ?_ fun p hp => absurd hp (by simp)
    have hmetadata : metadataOverlay fs path.val = none := by
      rw [metadataOverlay, hcanonical]
      rfl
    rw [metadataAgrees_of_none hmetadata, isFileOverlay, isDirectoryOverlay, hcanonical]
    exact ⟨rfl, rfl⟩
  | some p =>
    have hp := canonical_of_canonicalPath hcanonical
    rw [metadataAgrees_of_canonicalPath hcanonical]
    simp only [Option.some.injEq, forall_eq']
    cases hfind : findOverlayNode fs p with
    | some i =>
      have hdev : p ≠ devPath := fun he => by
        obtain ⟨hkind, hpath⟩ := of_findOverlayNode hfind
        exact h.sound.nodes.dev i hkind (hpath.trans he)
      rw [metadataAgrees_of_node hp hdev hfind]
      constructor
      · intro hnode
        refine ⟨fun j hj => ?_, fun hnone => ?_, fun hnone => ?_⟩
        · rwa [← Option.some.inj (hfind.symm.trans hj)]
        all_goals exact absurd (hfind.symm.trans hnone) (by simp)
      · exact fun hconsistent => hconsistent.node i hfind
    | none =>
      have hnode : ∀ i, findOverlayNode fs p ≠ some i := fun i hi =>
        absurd (hfind.symm.trans hi) (by simp)
      by_cases hdirectory : HasDirectory fs p
      · rw [metadataAgrees_of_directory hp hfind hdirectory]
        exact ⟨fun hall => ⟨fun i hi => absurd hi (hnode i), fun _ _ => hall,
          fun _ hno => absurd hdirectory hno⟩, fun hconsistent =>
            hconsistent.directory hfind hdirectory⟩
      · rw [metadataAgrees_of_file hp hfind hdirectory]
        exact ⟨fun hall => ⟨fun i hi => absurd hi (hnode i), fun _ hyes => absurd hyes hdirectory,
          fun _ _ => hall⟩, fun hconsistent => hconsistent.file hfind hdirectory⟩

theorem metadata_agrees_iff_sample : MetadataAgrees nestedFs [97, 47, 98] := by
  have hmount : Reached nestedFs := .mount _ _ _ _
  refine (metadata_agrees_iff hmount ⟨[97, 47, 98], by decide⟩).mpr fun p hp => ?_
  obtain rfl := (canonicalPath_of_canonical (p := [97, 47, 98]) (Or.inr (by decide))).symm.trans hp
    |> Option.some.inj
  have hnone : findOverlayNode nestedFs [97, 47, 98] = none := by decide +kernel
  have hdirectory : ¬ HasDirectory nestedFs [97, 47, 98] := by
    rw [HasDirectory]
    decide +kernel
  have hfind : Archive.find nestedFs.archive [97, 47, 98] = some [120] := by decide +kernel
  have hmetadata : Archive.metadata nestedFs.archive [97, 47, 98] =
    some ⟨1, 0o644, 0, 0, false⟩ := by
    decide +kernel
  refine ⟨fun i hi => absurd (hnone.symm.trans hi) (by simp), fun _ h => absurd h hdirectory,
    fun _ _ _ content hcontent => ?_⟩
  rw [if_neg (by decide)]
  intro m hm
  rw [← Option.some.inj (hfind.symm.trans hcontent), ← Option.some.inj (hmetadata.symm.trans hm)]
  exact ⟨rfl, rfl⟩

/-- `a` is removed, and has metadata. -/
theorem removed_has_metadata : ∃ fs, Reached fs ∧ isFileOverlay fs [97] = false ∧
    isDirectoryOverlay fs [97] = false ∧ (metadataOverlay fs [97]).isSome = true := by
  have hmount : Reached nestedFs := .mount _ _ _ _
  have hremove : Reached (removeOverlay [97] true nestedFs).2 :=
    .step hmount (.remove ⟨[97], by decide⟩ true) rfl
  exact ⟨_, hremove, by decide +kernel, by decide +kernel, by decide +kernel⟩

end Agreement

end ImagineOS.Overlay
