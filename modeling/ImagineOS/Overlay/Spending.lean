import ImagineOS.Overlay.Writes

/-!
# Overlay: writes that fail

A write that fails should change nothing. It claims its part of the pool before it looks for a slot:
with a full table every new file of one byte costs 4096 bytes of the pool (`full_table_spends`), and
they are not given back.
-/

namespace ImagineOS.Overlay

/-- A `write_file_overlay` that claims its part of the pool and finds no slot: all checks pass. -/
structure FileSpends (fs : RamFs) (p bytes : List UInt8) : Prop where
  ne_nil : p ≠ []
  special : p ≠ devPath ∧ p ≠ diskPath
  directory : isDirectoryOverlay fs p = false
  parent : isFileOverlay fs p = true ∨ ensureParentDirectory fs p = true
  some_bytes : bytes ≠ []
  length_le : bytes.length ≤ maxWriteFileSize
  room : 4096 ≤ overlayDataCapacity - fs.fileDataUsed
  slot : maxPath < p.length ∨ slotFor fs p = none

/-- A `write_at_overlay` that does so. -/
structure AtSpends (fs : RamFs) (p : List UInt8) (offset : ℕ) (input original : List UInt8) :
    Prop where
  ne_nil : p ≠ []
  directory : isDirectoryOverlay fs p = false
  read : readFromOverlay fs p = some original
  offset_le : offset ≤ original.length
  some_bytes : original ≠ [] ∨ input ≠ []
  length_le : max original.length (offset + input.length) ≤ maxOverlayFileSize
  parent : ensureParentDirectory fs p = true
  room : max (max original.length (offset + input.length)) 4096 ≤
    overlayDataCapacity - fs.fileDataUsed
  slot : slotFor fs p = none

section Spending

variable {fs : RamFs} {p bytes : List UInt8}

/-! ### No slot -/

theorem copyInto_nil (data : ℕ → UInt8) (start : ℕ) : copyInto data start [] = data := by
  funext k
  rw [copyInto, if_neg]
  simp only [List.length_nil]
  omega

theorem findFile_of_no_slot (hs : Nodes fs) (h : maxPath < p.length ∨ slotFor fs p = none) :
    findFile fs p = none := by
  rw [findFile, find_finRange_eq_none]
  intro i
  rw [decide_eq_false_iff_not]
  rintro ⟨hkind, rfl⟩
  have hne : (fs.overlay i).kind ≠ .empty := by simp [hkind]
  rcases h with hlong | hnone
  · exact absurd (hs.short i hne) (not_le.mpr hlong)
  · rw [slotFor, hs.find hne] at hnone
    exact absurd hnone (by simp)

section NewRegion

variable (hfile : findFile fs p = none)

include hfile

theorem reusable_of_none (n : ℕ) : reusable fs p n = none := by
  rw [reusable, hfile]
  rfl

theorem fileCapacity_of_none :
    fileCapacity fs p bytes = if bytes = [] then 0 else max bytes.length 4096 := by
  simp [fileCapacity, reusable_of_none hfile, oldCapacity, hfile]

theorem atCapacity_of_none {n : ℕ} (hn : n ≤ maxOverlayFileSize) :
    atCapacity fs p n = if n = 0 then 0 else max n 4096 := by
  have hmin : max n 4096 ≤ maxOverlayFileSize := max_le hn (by decide)
  simp [atCapacity, reusable_of_none hfile, oldCapacity, hfile, hmin]

theorem withFile_eq_iff : withFile fs p bytes = fs ↔ bytes = [] := by
  rw [withFile, reusable_of_none hfile, fileCapacity_of_none hfile]
  constructor
  · intro h
    by_contra hne
    have hused := congrArg RamFs.fileDataUsed h
    simp [RamFs.setData, hne] at hused
  · rintro rfl
    rw [copyInto_nil]
    rfl

theorem withInput_eq_iff {offset : ℕ} {input original : List UInt8}
    (hlength : max original.length (offset + input.length) ≤ maxOverlayFileSize) :
    withInput fs p offset input original = fs ↔
      max original.length (offset + input.length) = 0 := by
  rw [withInput, reusable_of_none hfile, atCapacity_of_none hfile hlength]
  constructor
  · intro h
    by_contra hne
    have hused := congrArg RamFs.fileDataUsed h
    simp only [RamFs.setData, Option.isSome_none, Bool.false_eq_true, if_false, if_neg hne] at hused
    omega
  · intro h
    have horiginal : original = [] := List.length_eq_zero_iff.mp (by omega)
    have hinput : input = [] := List.length_eq_zero_iff.mp (by omega)
    subst horiginal
    subst hinput
    rw [h]
    simp only [copyInto_nil]
    rfl

end NewRegion

/-- What passes the checks, when there is no slot. -/
theorem fileSpends_iff (hs : Nodes fs) (h : maxPath < p.length ∨ slotFor fs p = none) :
    FileSpends fs p bytes ↔ FilePasses fs p bytes ∧ bytes ≠ [] := by
  have hcapacity : fileCapacity fs p bytes = if bytes = [] then 0 else max bytes.length 4096 :=
    fileCapacity_of_none (findFile_of_no_slot hs h)
  constructor
  · intro hspends
    have hlength : bytes.length ≤ 4096 := hspends.length_le
    refine ⟨⟨hspends.length_le, not_or.mpr hspends.special, hspends.ne_nil,
      by simp [hspends.directory], ?_, ?_⟩, hspends.some_bytes⟩
    · have hparent := hspends.parent
      rintro ⟨hfile, hensure⟩
      simp_all
    · rw [hcapacity, if_neg hspends.some_bytes, max_eq_right hlength]
      exact hspends.room
  · rintro ⟨hpasses, hbytes⟩
    refine ⟨hpasses.ne_nil, not_or.mp hpasses.special, by simpa using hpasses.directory, ?_, hbytes,
      hpasses.length_le, ?_, h⟩
    · have hparent := hpasses.parent
      simp only [Bool.not_eq_true', not_and, Bool.not_eq_false] at hparent
      cases hfile : isFileOverlay fs p with
      | true => exact Or.inl rfl
      | false => exact Or.inr (hparent hfile)
    · have hroom := hpasses.room
      rw [hcapacity, if_neg hbytes] at hroom
      exact (le_max_right _ _).trans hroom

theorem atSpends_iff (hs : Nodes fs) (h : slotFor fs p = none) {offset : ℕ}
    {input original : List UInt8} :
    AtSpends fs p offset input original ↔
      AtPasses fs p offset input original ∧ max original.length (offset + input.length) ≠ 0 := by
  have hfile := findFile_of_no_slot hs (Or.inr h)
  constructor
  · intro hspends
    have hne : max original.length (offset + input.length) ≠ 0 := by
      rcases hspends.some_bytes with hbytes | hbytes
      · have hpositive := List.length_pos_of_ne_nil hbytes
        omega
      · have hpositive := List.length_pos_of_ne_nil hbytes
        omega
    refine ⟨⟨(le_max_right _ _).trans hspends.length_le, ?_, hspends.read, hspends.offset_le,
      hspends.length_le, hspends.parent, ?_⟩, hne⟩
    · rintro (hnil | hdirectory)
      · exact hspends.ne_nil hnil
      · exact absurd hdirectory (by simp [hspends.directory])
    · rw [atCapacity_of_none hfile hspends.length_le, if_neg hne]
      exact hspends.room
  · rintro ⟨hpasses, hne⟩
    obtain ⟨hnil, hdirectory⟩ := not_or.mp hpasses.directory
    refine ⟨hnil, by simpa using hdirectory, hpasses.read, hpasses.offset_le, ?_,
      hpasses.length_le, hpasses.parent, ?_, h⟩
    · by_contra hempty
      rw [not_or, not_not, not_not] at hempty
      obtain ⟨rfl, rfl⟩ := hempty
      have hoffset := hpasses.offset_le
      simp only [List.length_nil] at hoffset hne
      omega
    · have hroom := hpasses.room
      rwa [atCapacity_of_none hfile hpasses.length_le, if_neg hne] at hroom

/-- **A write that fails changes nothing, unless it has bytes for the pool and finds no slot.** -/
theorem failed_write_iff (h : Reached fs) (path : Str) :
    (∀ bytes uid gid, (∀ e, (writeFileOverlay path.val bytes uid gid fs).1 = .error e →
        (writeFileOverlay path.val bytes uid gid fs).2 = fs) ↔
      ∀ p, canonicalPath path.val = some p → ¬ FileSpends fs p bytes) ∧
    (∀ offset input, (∀ e, (writeAtOverlay path.val offset input fs).1 = .error e →
        (writeAtOverlay path.val offset input fs).2 = fs) ↔
      ∀ p original, canonicalPath path.val = some p → ¬ AtSpends fs p offset input original) := by
  have hs := h.sound.nodes
  constructor
  · intro bytes uid gid
    rcases writeFileOverlay_cases hs path.val bytes uid gid with
      ⟨hnone, e, heq⟩ | ⟨p, hp, hpasses, ⟨hplace, e, heq⟩ | ⟨i, hslot, hshort, heq⟩⟩ <;> rw [heq]
    · refine iff_of_true (fun _ _ => rfl) fun p hp hspends => hnone ⟨p, hp, ?_⟩
      exact ((fileSpends_iff hs hspends.slot).mp hspends).1
    · have hunchanged : withFile fs p bytes = fs ↔ bytes = [] :=
        withFile_eq_iff (findFile_of_no_slot hs hplace)
      constructor
      · intro hsame q hq hspends
        obtain rfl : p = q := Option.some.inj (hp.symm.trans hq)
        exact hspends.some_bytes (hunchanged.mp (hsame e rfl))
      · intro hspends _ _
        by_contra hchanged
        have hbytes : bytes ≠ [] := fun hnil => hchanged (hunchanged.mpr hnil)
        exact hspends p hp ((fileSpends_iff hs hplace).mpr ⟨hpasses, hbytes⟩)
    · refine iff_of_true (fun e he => absurd he (by simp)) fun q hq hspends => ?_
      obtain rfl : p = q := Option.some.inj (hp.symm.trans hq)
      rcases hspends.slot with hlong | hnone
      · exact absurd hshort (not_le.mpr hlong)
      · exact absurd (hslot.symm.trans hnone) (by simp)
  · intro offset input
    rcases writeAtOverlay_cases hs path.val offset input with
      ⟨hnone, e, heq⟩ | ⟨p, original, hp, hpasses, ⟨hslot, e, heq⟩ | ⟨i, hslot, heq⟩⟩ <;>
      rw [heq]
    · refine iff_of_true (fun _ _ => rfl) fun p original hp hspends => hnone ⟨p, original, hp, ?_⟩
      exact ((atSpends_iff hs hspends.slot).mp hspends).1
    · have hunchanged :=
        withInput_eq_iff (findFile_of_no_slot hs (Or.inr hslot)) hpasses.length_le
      constructor
      · intro hsame q original' hq hspends
        obtain rfl : p = q := Option.some.inj (hp.symm.trans hq)
        obtain rfl : original = original' :=
          Option.some.inj (hpasses.read.symm.trans hspends.read)
        exact ((atSpends_iff hs hslot).mp hspends).2 (hunchanged.mp (hsame e rfl))
      · intro hspends _ _
        by_contra hchanged
        have hne := fun hzero => hchanged (hunchanged.mpr hzero)
        exact hspends p original hp ((atSpends_iff hs hslot).mpr ⟨hpasses, hne⟩)
    · refine iff_of_true (fun e he => absurd he (by simp)) fun q original' hq hspends => ?_
      obtain rfl : p = q := Option.some.inj (hp.symm.trans hq)
      exact absurd (hslot.symm.trans hspends.slot) (by simp)

end Spending

/-! ### A full table -/

/-- Different names. -/
def fullName (k : ℕ) : List UInt8 := List.replicate (k + 1) 97

/-- The first slots have an empty file each. -/
def filled (k : ℕ) : RamFs :=
  { RamFs.mount [] (fun _ => 0) false 0 with
    overlay := fun i =>
      if i.val < k then ⟨fullName i.val, .file, 0, 0, 0, 0o644, 0, 0⟩ else .empty }

theorem fullName_path : ∀ k < 128, validUtf8 (fullName k) ∧ (fullName k).length ≤ maxPath ∧
    CleanPath (fullName k) ∧ fullName k ≠ devPath ∧ fullName k ≠ diskPath := by
  decide +kernel

section Filled

variable {k : ℕ} {i : Fin maxOverlayNodes} {p : List UInt8}

theorem filled_kind : ((filled k).overlay i).kind ≠ .empty ↔ i.val < k := by
  simp only [filled]
  split
  · rename_i hi
    simp [hi]
  · rename_i hi
    simp [hi, OverlayNode.empty]

theorem filled_file (h : ((filled k).overlay i).kind ≠ .empty) :
    ((filled k).overlay i).kind = .file ∧ ((filled k).overlay i).path = fullName i.val := by
  have hi := filled_kind.mp h
  simp [filled, hi]

theorem isHidden_filled (p : List UInt8) : isHidden (filled k) p = false := by
  cases h : findOverlayNode (filled k) p with
  | some i => simp [isHidden_of_node h, (filled_file (of_findOverlayNode h).1).1]
  | none =>
    rw [← Bool.not_eq_true, isHidden_of_none h]
    rintro ⟨j, hj⟩
    by_cases hkind : ((filled k).overlay j).kind = .empty
    · rw [hides_of_empty hkind] at hj
      exact absurd hj (by simp)
    · rw [hides_of_file (filled_file hkind).1] at hj
      exact absurd hj (by simp)

theorem findOverlayNode_filled (hp : ∀ i < k, fullName i ≠ p) :
    findOverlayNode (filled k) p = none := by
  rw [findOverlayNode_eq_none]
  intro i hkind
  rw [(filled_file hkind).2]
  exact hp i.val (filled_kind.mp hkind)

theorem visibleBelow_filled (hp : p ≠ []) : visibleBelow (filled k) p = false := by
  rw [← Bool.not_eq_true, visibleBelow_iff]
  rintro ⟨i, hvisible, hchild⟩
  obtain ⟨-, hpath⟩ := filled_file (kind_ne_empty_of_isVisible hvisible)
  rw [hpath, isChildPath_iff hp] at hchild
  obtain ⟨r, hr⟩ := hchild
  have hslash : slash ∈ fullName i.val := by simp [hr]
  exact absurd (List.eq_of_mem_replicate hslash) (by decide)

theorem nothing_filled (hp : CleanPath p) (hdev : p ≠ devPath) (hdisk : p ≠ diskPath)
    (hfree : ∀ i < k, fullName i ≠ p) :
    isFileOverlay (filled k) p = false ∧ isDirectoryOverlay (filled k) p = false := by
  have hfind := findOverlayNode_filled hfree
  have harchive : (filled k).archive = [] := rfl
  have hmembers : members [] = [] := rfl
  rw [isFileOverlay_of_none (Or.inr hp) hdisk hfind,
    isDirectoryOverlay_of_none (Or.inr hp) hdev hfind, isHidden_filled,
    visibleBelow_filled hp.ne_nil, harchive, Archive.isFile, Archive.find, Archive.isDirectory,
    hmembers, trimStart_of_clean hp]
  simp [findIn, isDirectoryIn, hp.ne_nil]

theorem isDirectoryOverlay_filled_nil : isDirectoryOverlay (filled k) [] = true := by
  have hfind : findOverlayNode (filled k) [] = none :=
    findOverlayNode_filled fun i _ => by simp [fullName]
  rw [isDirectoryOverlay_of_none (Or.inl rfl) (by decide) hfind, isHidden_filled, isDirectory_nil]
  rfl

theorem slotFor_filled (hk : k < maxOverlayNodes) (hfree : ∀ i < k, fullName i ≠ p) :
    slotFor (filled k) p = some ⟨k, hk⟩ := by
  rw [slotFor, findOverlayNode_filled hfree, Option.none_or, List.find?_eq_some_iff_getElem]
  refine ⟨?_, k, by simpa using hk, by simp, fun j hj => ?_⟩
  · have hempty : ¬ ((filled k).overlay ⟨k, hk⟩).kind ≠ .empty := by simp [filled_kind]
    simpa using hempty
  · have hfull : ((filled k).overlay ⟨j, hj.trans hk⟩).kind ≠ .empty := filled_kind.mpr hj
    simpa using hfull

theorem createFileOverlay_filled (hk : k < maxOverlayNodes) :
    (createFileOverlay (fullName k) 0o644 0 0 (filled k)).2 = filled (k + 1) := by
  obtain ⟨-, hshort, hclean, hdev, hdisk⟩ := fullName_path k hk
  have hfree : ∀ i < k, fullName i ≠ fullName k := fun i hi heq => by
    have hlength := congrArg List.length heq
    simp only [fullName, List.length_replicate] at hlength
    omega
  obtain ⟨hfile, hdirectory⟩ := nothing_filled hclean hdev hdisk hfree
  have hparent : ensureParentDirectory (filled k) (fullName k) = true := by
    have hslash : slash ∉ fullName k := fun hmem =>
      absurd (List.eq_of_mem_replicate hmem) (by decide)
    rw [ensureParentDirectory, parentPath_of_not_mem hslash]
    exact isDirectoryOverlay_filled_nil
  rw [createFileOverlay, canonicalPath_of_canonical (Or.inr hclean)]
  dsimp only
  rw [if_neg (not_or.mpr ⟨hdev, hdisk⟩), if_neg hclean.ne_nil, if_neg (by simp [hfile]),
    if_neg (by simp [hdirectory]), if_neg (by simp [hparent]), insertOverlayAs,
    if_neg (not_lt.mpr hshort), slotFor_filled hk hfree]
  have hoverlay : Function.update (filled k).overlay ⟨k, hk⟩
      ⟨fullName k, .file, 0, 0, 0, 0o644, 0, 0⟩ = (filled (k + 1)).overlay := by
    funext i
    by_cases hi : i = ⟨k, hk⟩
    · subst hi
      simp [filled]
    · have hne : i.val ≠ k := fun h => hi (Fin.ext h)
      rw [Function.update_of_ne hi]
      simp only [filled]
      split <;> split <;> first | rfl | omega
  have hmode : (0o644 : UInt16) &&& 0o777 = 0o644 := by decide
  rw [hmode]
  dsimp only [RamFs.setNode]
  rw [hoverlay]
  rfl

theorem reached_filled (hk : k ≤ maxOverlayNodes) : Reached (filled k) := by
  induction k with
  | zero =>
    have hmount : filled 0 = .mount [] (fun _ => 0) false 0 := by
      simp [filled, RamFs.mount]
    rw [hmount]
    exact .mount _ _ _ _
  | succ k ih =>
    have hvalid := (fullName_path k hk).1
    refine .step (ih (Nat.le_of_succ_le hk)) (.createFile ⟨fullName k, hvalid⟩ 0o644 0 0) ?_
    exact congrArg some (createFileOverlay_filled hk)

/-- A new file of one byte, when the table is full. -/
theorem full_table_spends : Reached (filled maxOverlayNodes) ∧
    (∃ e, (writeFileOverlay [98] [120] 0 0 (filled maxOverlayNodes)).1 = .error e) ∧
    (writeFileOverlay [98] [120] 0 0 (filled maxOverlayNodes)).2.fileDataUsed =
      (filled maxOverlayNodes).fileDataUsed + 4096 := by
  have hreached : Reached (filled maxOverlayNodes) := reached_filled le_rfl
  have hfree : ∀ i < maxOverlayNodes, fullName i ≠ [98] := by decide +kernel
  obtain ⟨hfile, hdirectory⟩ := nothing_filled (by decide) (by decide) (by decide) hfree
  have hslot : slotFor (filled maxOverlayNodes) [98] = none := by
    rw [slotFor, findOverlayNode_filled hfree, Option.none_or, find_finRange_eq_none]
    intro i
    have hfull : ((filled maxOverlayNodes).overlay i).kind ≠ .empty := filled_kind.mpr i.isLt
    simpa using hfull
  have hspends : FileSpends (filled maxOverlayNodes) [98] [120] := {
    ne_nil := by decide
    special := by decide
    directory := hdirectory
    parent := Or.inr isDirectoryOverlay_filled_nil
    some_bytes := by decide
    length_le := by decide
    room := by decide
    slot := Or.inr hslot }
  have hpasses := (fileSpends_iff hreached.sound.nodes hspends.slot).mp hspends
  have hpath : canonicalPath [98] = some [98] := by decide
  obtain ⟨e, heq⟩ := writeFileOverlay_no_slot hpath hpasses.1 hspends.slot
  have hnone := findFile_of_no_slot hreached.sound.nodes hspends.slot
  refine ⟨hreached, ⟨e, by rw [heq]⟩, ?_⟩
  rw [heq, withFile, reusable_of_none hnone, fileCapacity_of_none hnone]
  rfl

end Filled

/-! ### Samples -/

theorem failed_write_iff_sample :
    (writeFileOverlay [97, 47, 99] [120] 0 0 (.mount [] (fun _ => 0) false 0)).2 =
      .mount [] (fun _ => 0) false 0 := by
  have hmount : Reached (.mount [] (fun _ => 0) false 0) := .mount _ _ _ _
  have hparent : ensureParentDirectory (.mount [] (fun _ => 0) false 0) [97, 47, 99] = false := by
    decide +kernel
  have hfile : isFileOverlay (.mount [] (fun _ => 0) false 0) [97, 47, 99] = false := by
    decide +kernel
  have hpath : canonicalPath [97, 47, 99] = some [97, 47, 99] := by decide
  refine ((failed_write_iff hmount ⟨[97, 47, 99], by decide⟩).1 [120] 0 0).mpr
    (fun p hp hspends => ?_) .notDirectory (by decide +kernel)
  obtain rfl := Option.some.inj (hpath.symm.trans hp)
  simp [hspends.parent.resolve_left (by simp [hfile])] at hparent

end ImagineOS.Overlay
