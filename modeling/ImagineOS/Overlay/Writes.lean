import ImagineOS.Overlay.Entries

/-!
# Overlay: writes, and owners of new files

What the two writes do, case by case. A new file should belong to its creator. It takes its owner
from what `metadata_overlay` finds, and that finds a `Whiteout` too: a file in the place of a
removed file of the archive belongs to `root` (`recreated_belongs_to_root`).
-/

namespace ImagineOS.Overlay

/-! ### Regions of files -/

def oldCapacity (fs : RamFs) (p : List UInt8) : ℕ :=
  (findFile fs p).elim 0 fun slot => (fs.overlay slot).dataCapacity

/-- `reusable`: the slot of a file with room for so many bytes. -/
def reusable (fs : RamFs) (p : List UInt8) (n : ℕ) : Option (Fin maxOverlayNodes) :=
  (findFile fs p).filter fun _ => n ≤ oldCapacity fs p

/-- `data_capacity` of `write_file_overlay` -/
def fileCapacity (fs : RamFs) (p bytes : List UInt8) : ℕ :=
  if (reusable fs p bytes.length).isSome then oldCapacity fs p
  else if bytes = [] then 0
  else max (max (oldCapacity fs p * 2) bytes.length) 4096

/-- `data_capacity` of `write_at_overlay` -/
def atCapacity (fs : RamFs) (p : List UInt8) (n : ℕ) : ℕ :=
  if (reusable fs p n).isSome then oldCapacity fs p
  else if n = 0 then 0
  else min (max (max (oldCapacity fs p * 2) n) 4096) maxOverlayFileSize

/-- `data_start` -/
def dataStartFor (fs : RamFs) (p : List UInt8) (n : ℕ) : ℕ :=
  (reusable fs p n).elim fs.fileDataUsed fun slot => (fs.overlay slot).dataStart

/-- The mode and the owner that `write_file_overlay` gives to a file. -/
def ownerFor (fs : RamFs) (p : List UInt8) (uid gid : UInt32) : UInt16 × UInt32 × UInt32 :=
  (metadataOverlay fs p).elim (0o644, uid, gid) fun metadata =>
    (metadata.mode, metadata.uid, metadata.gid)

/-- The pool with the bytes of a file. -/
def withFile (fs : RamFs) (p bytes : List UInt8) : RamFs :=
  fs.setData (copyInto fs.fileData (dataStartFor fs p bytes.length) bytes)
    (if (reusable fs p bytes.length).isSome then fs.fileDataUsed
      else fs.fileDataUsed + fileCapacity fs p bytes)

/-- The checks of `write_file_overlay` before the pool is touched. -/
structure FilePasses (fs : RamFs) (p bytes : List UInt8) : Prop where
  length_le : bytes.length ≤ maxWriteFileSize
  special : ¬ (p = devPath ∨ p = diskPath)
  ne_nil : p ≠ []
  directory : ¬ isDirectoryOverlay fs p = true
  parent : ¬ ((!isFileOverlay fs p) = true ∧ (!ensureParentDirectory fs p) = true)
  room : fileCapacity fs p bytes ≤ overlayDataCapacity - fs.fileDataUsed

/-- The checks of `write_at_overlay` before the pool is touched. -/
structure AtPasses (fs : RamFs) (p : List UInt8) (offset : ℕ) (input original : List UInt8) :
    Prop where
  stop_le : offset + input.length ≤ maxOverlayFileSize
  directory : ¬ (p = [] ∨ isDirectoryOverlay fs p = true)
  read : readFromOverlay fs p = some original
  offset_le : offset ≤ original.length
  length_le : max original.length (offset + input.length) ≤ maxOverlayFileSize
  parent : ensureParentDirectory fs p = true
  room : atCapacity fs p (max original.length (offset + input.length)) ≤
    overlayDataCapacity - fs.fileDataUsed

section Writes

variable {fs fs' : RamFs} {path p bytes : List UInt8} {uid gid : UInt32} {i : Fin maxOverlayNodes}

/-- The node of a file that is written. -/
def fileNode (fs : RamFs) (p bytes : List UInt8) (uid gid : UInt32) : OverlayNode where
  path := p
  kind := .file
  dataLength := bytes.length
  dataStart := dataStartFor fs p bytes.length
  dataCapacity := fileCapacity fs p bytes
  mode := (ownerFor fs p uid gid).1
  uid := (ownerFor fs p uid gid).2.1
  gid := (ownerFor fs p uid gid).2.2

/-- `write_file_overlay` after its checks. -/
theorem writeFileOverlay_of_passes (hpath : canonicalPath path = some p)
    (h : FilePasses fs p bytes) :
    writeFileOverlay path bytes uid gid fs =
      match insertOverlayAs p .file (ownerFor fs p uid gid).1 (ownerFor fs p uid gid).2.1
        (ownerFor fs p uid gid).2.2 (withFile fs p bytes) with
      | (.error e, fs) => (.error e, fs)
      | (.ok (), fs') =>
        match findFile fs' p with
        | none => (.error .noSpace, fs')
        | some i => (.ok (), fs'.setNode i { fs'.overlay i with
            dataStart := dataStartFor fs p bytes.length
            dataLength := bytes.length
            dataCapacity := fileCapacity fs p bytes }) := by
  have hroom : ¬ overlayDataCapacity - fs.fileDataUsed < fileCapacity fs p bytes :=
    not_lt.mpr h.room
  rw [writeFileOverlay, if_neg (not_lt.mpr h.length_le), hpath]
  dsimp -zeta only
  rw [if_neg h.special, if_neg h.ne_nil, if_neg h.directory, if_neg h.parent]
  exact if_neg hroom

/-- `write_file_overlay` when one of its checks fails. -/
theorem writeFileOverlay_of_not_passes (hpath : canonicalPath path = some p)
    (h : ¬ FilePasses fs p bytes) :
    ∃ e, writeFileOverlay path bytes uid gid fs = (.error e, fs) := by
  rw [writeFileOverlay]
  by_cases hlength : maxWriteFileSize < bytes.length
  · exact ⟨_, if_pos hlength⟩
  rw [if_neg hlength, hpath]
  dsimp -zeta only
  by_cases hspecial : p = devPath ∨ p = diskPath
  · exact ⟨_, if_pos hspecial⟩
  rw [if_neg hspecial]
  by_cases hne : p = []
  · exact ⟨_, if_pos hne⟩
  rw [if_neg hne]
  by_cases hdirectory : isDirectoryOverlay fs p = true
  · exact ⟨_, if_pos hdirectory⟩
  rw [if_neg hdirectory]
  by_cases hparent : (!isFileOverlay fs p) = true ∧ (!ensureParentDirectory fs p) = true
  · exact ⟨_, if_pos hparent⟩
  rw [if_neg hparent]
  have hroom : overlayDataCapacity - fs.fileDataUsed < fileCapacity fs p bytes :=
    not_le.mp fun hroom => h ⟨not_lt.mp hlength, hspecial, hne, hdirectory, hparent, hroom⟩
  exact ⟨_, if_pos hroom⟩

theorem writeFileOverlay_no_slot (hpath : canonicalPath path = some p)
    (h : FilePasses fs p bytes) (hplace : maxPath < p.length ∨ slotFor fs p = none) :
    ∃ e, writeFileOverlay path bytes uid gid fs = (.error e, withFile fs p bytes) := by
  rw [writeFileOverlay_of_passes hpath h]
  rcases insertOverlayAs_cases p .file (ownerFor fs p uid gid).1 (ownerFor fs p uid gid).2.1
    (ownerFor fs p uid gid).2.2 (withFile fs p bytes) with ⟨⟨e, heq⟩, -⟩ | ⟨i, hslot, hshort, -⟩
  · rw [heq]
    exact ⟨e, rfl⟩
  · have hslot' : slotFor fs p = some i := hslot
    rcases hplace with hlong | hnone
    · exact absurd hshort (not_le.mpr hlong)
    · exact absurd (hslot'.symm.trans hnone) (by simp)

theorem writeFileOverlay_slot (hs : Nodes fs) (hpath : canonicalPath path = some p)
    (h : FilePasses fs p bytes) (hslot : slotFor fs p = some i) (hshort : p.length ≤ maxPath) :
    writeFileOverlay path bytes uid gid fs =
      (.ok (), (withFile fs p bytes).setNode i (fileNode fs p bytes uid gid)) := by
  rw [writeFileOverlay_of_passes hpath h]
  rcases insertOverlayAs_cases p .file (ownerFor fs p uid gid).1 (ownerFor fs p uid gid).2.1
    (ownerFor fs p uid gid).2.2 (withFile fs p bytes) with ⟨-, hlong | hnone⟩ | ⟨j, hj, -, heq⟩
  · exact absurd hshort (not_le.mpr hlong)
  · have hnone' : slotFor fs p = none := hnone
    exact absurd (hslot.symm.trans hnone') (by simp)
  · obtain rfl : i = j := Option.some.inj (hslot.symm.trans hj)
    have hnodes : Nodes (withFile fs p bytes) := hs.setData
    have hfile : findFile ((withFile fs p bytes).setNode i ⟨p, .file, 0, 0, 0,
        (ownerFor fs p uid gid).1, (ownerFor fs p uid gid).2.1, (ownerFor fs p uid gid).2.2⟩) p
        = some i := hnodes.findFile_setNode hj rfl
    rw [heq]
    dsimp only
    rw [hfile]
    dsimp only
    rw [overlay_setNode_self, setNode_setNode]
    rfl

/-- **What `write_file_overlay` does.** -/
theorem writeFileOverlay_cases (hs : Nodes fs) (path bytes : List UInt8) (uid gid : UInt32) :
    ((¬ ∃ p, canonicalPath path = some p ∧ FilePasses fs p bytes) ∧
      ∃ e, writeFileOverlay path bytes uid gid fs = (.error e, fs)) ∨
    ∃ p, canonicalPath path = some p ∧ FilePasses fs p bytes ∧
      (((maxPath < p.length ∨ slotFor fs p = none) ∧
        ∃ e, writeFileOverlay path bytes uid gid fs = (.error e, withFile fs p bytes)) ∨
      ∃ i, slotFor fs p = some i ∧ p.length ≤ maxPath ∧
        writeFileOverlay path bytes uid gid fs =
          (.ok (), (withFile fs p bytes).setNode i (fileNode fs p bytes uid gid))) := by
  cases hpath : canonicalPath path with
  | none =>
    refine Or.inl ⟨by simp, ?_⟩
    rw [writeFileOverlay, hpath]
    split
    · exact ⟨_, rfl⟩
    · exact ⟨_, rfl⟩
  | some p =>
    by_cases hpasses : FilePasses fs p bytes
    · refine Or.inr ⟨p, rfl, hpasses, ?_⟩
      by_cases hplace : maxPath < p.length ∨ slotFor fs p = none
      · exact Or.inl ⟨hplace, writeFileOverlay_no_slot hpath hpasses hplace⟩
      · rw [not_or, not_lt, ← ne_eq, Option.ne_none_iff_exists'] at hplace
        obtain ⟨hshort, i, hslot⟩ := hplace
        exact Or.inr ⟨i, hslot, hshort, writeFileOverlay_slot hs hpath hpasses hslot hshort⟩
    · refine Or.inl ⟨?_, writeFileOverlay_of_not_passes hpath hpasses⟩
      rintro ⟨q, hq, hq'⟩
      exact hpasses (Option.some.inj hq ▸ hq')

/-! ### Writes at an offset -/

/-- The pool with the bytes of a file, and others written over them. -/
def withInput (fs : RamFs) (p : List UInt8) (offset : ℕ) (input original : List UInt8) : RamFs :=
  let newLength := max original.length (offset + input.length)
  let copied := if (reusable fs p newLength).isSome then fs.fileData
    else copyInto fs.fileData (dataStartFor fs p newLength) original
  fs.setData (copyInto copied (dataStartFor fs p newLength + offset) input)
    (if (reusable fs p newLength).isSome then fs.fileDataUsed
      else fs.fileDataUsed + atCapacity fs p newLength)

/-- The node of a file that is written at an offset. -/
def atNode (fs : RamFs) (p : List UInt8) (newLength : ℕ) : OverlayNode where
  path := p
  kind := .file
  dataLength := newLength
  dataStart := dataStartFor fs p newLength
  dataCapacity := atCapacity fs p newLength
  mode := (metadataOverlay fs p).elim 0o644 (·.mode)
  uid := (metadataOverlay fs p).elim 0 (·.uid)
  gid := (metadataOverlay fs p).elim 0 (·.gid)

theorem le_atCapacity {n : ℕ} (hn : n ≤ maxOverlayFileSize) : n ≤ atCapacity fs p n := by
  rw [atCapacity]
  cases hreusable : reusable fs p n with
  | some slot =>
    obtain ⟨hfile, hle⟩ := of_reusable hreusable
    rw [Option.isSome_some, if_pos rfl, oldCapacity, hfile]
    exact hle
  | none =>
    rw [if_neg (by simp)]
    split
    · omega
    · exact le_min ((le_max_right _ _).trans (le_max_left _ _)) hn

variable {offset : ℕ} {input : List UInt8}

/-- `write_at_overlay` after its checks. -/
theorem writeAtOverlay_of_passes (hs : Nodes fs) (hpath : canonicalPath path = some p)
    {original : List UInt8} (h : AtPasses fs p offset input original) :
    (slotFor fs p = none ∧ ∃ e, writeAtOverlay path offset input fs =
      (.error e, withInput fs p offset input original)) ∨
    ∃ i, slotFor fs p = some i ∧ writeAtOverlay path offset input fs =
      (.ok input.length, (withInput fs p offset input original).setNode i
        (atNode fs p (max original.length (offset + input.length)))) := by
  have hcapacity : max original.length (offset + input.length) ≤
      atCapacity fs p (max original.length (offset + input.length)) := le_atCapacity h.length_le
  have hroom : ¬ (atCapacity fs p (max original.length (offset + input.length)) <
      max original.length (offset + input.length) ∨ overlayDataCapacity - fs.fileDataUsed <
      atCapacity fs p (max original.length (offset + input.length))) := by
    rintro (hsmall | hfull)
    · exact absurd hcapacity (not_le.mpr hsmall)
    · exact absurd h.room (not_le.mpr hfull)
  have hensure : ¬ (!ensureParentDirectory fs p) = true := by simp [h.parent]
  have heq : writeAtOverlay path offset input fs =
      match (findFile fs p).or (slotFor fs p) with
      | none => (.error .noSpace, withInput fs p offset input original)
      | some i => (.ok input.length, (withInput fs p offset input original).setNode i
          (atNode fs p (max original.length (offset + input.length)))) := by
    rw [writeAtOverlay]
    refine (if_neg (not_lt.mpr h.stop_le)).trans ?_
    rw [hpath]
    refine (if_neg h.directory).trans ?_
    rw [h.read]
    refine (if_neg (not_lt.mpr h.offset_le)).trans ?_
    refine (if_neg (not_lt.mpr h.length_le)).trans ?_
    refine (if_neg hensure).trans ?_
    exact if_neg hroom
  rw [hs.findFile_or_slotFor] at heq
  cases hslot : slotFor fs p with
  | none =>
    rw [hslot] at heq
    exact Or.inl ⟨rfl, _, heq⟩
  | some i =>
    rw [hslot] at heq
    exact Or.inr ⟨i, rfl, heq⟩

/-- `write_at_overlay` when one of its checks fails. -/
theorem writeAtOverlay_of_not_passes (hpath : canonicalPath path = some p)
    (h : ∀ original, ¬ AtPasses fs p offset input original) :
    ∃ e, writeAtOverlay path offset input fs = (.error e, fs) := by
  generalize hr : writeAtOverlay path offset input fs = r
  rw [writeAtOverlay] at hr
  split at hr
  · exact ⟨_, hr.symm⟩
  rename_i hstop
  rw [hpath] at hr
  dsimp -zeta only at hr
  split at hr
  · exact ⟨_, hr.symm⟩
  rename_i hdirectory
  cases hread : readFromOverlay fs p with
  | none =>
    rw [hread] at hr
    exact ⟨_, hr.symm⟩
  | some original =>
    rw [hread] at hr
    dsimp -zeta only at hr
    split at hr
    · exact ⟨_, hr.symm⟩
    rename_i hoffset
    by_cases hlength : maxOverlayFileSize < max original.length (offset + input.length)
    · exact ⟨_, hr.symm.trans (if_pos hlength)⟩
    by_cases hparent : (!ensureParentDirectory fs p) = true
    · exact ⟨_, hr.symm.trans ((if_neg hlength).trans (if_pos hparent))⟩
    have hroom : atCapacity fs p (max original.length (offset + input.length)) <
        max original.length (offset + input.length) ∨ overlayDataCapacity - fs.fileDataUsed <
        atCapacity fs p (max original.length (offset + input.length)) := by
      refine Or.inr (not_le.mp fun hroom => h original ⟨not_lt.mp hstop, hdirectory, hread,
        not_lt.mp hoffset, not_lt.mp hlength, by simpa using hparent, hroom⟩)
    exact ⟨_, hr.symm.trans ((if_neg hlength).trans ((if_neg hparent).trans (if_pos hroom)))⟩

/-- **What `write_at_overlay` does.** -/
theorem writeAtOverlay_cases (hs : Nodes fs) (path : List UInt8) (offset : ℕ) (input : List UInt8) :
    ((¬ ∃ p original, canonicalPath path = some p ∧ AtPasses fs p offset input original) ∧
      ∃ e, writeAtOverlay path offset input fs = (.error e, fs)) ∨
    ∃ p original, canonicalPath path = some p ∧ AtPasses fs p offset input original ∧
      ((slotFor fs p = none ∧ ∃ e, writeAtOverlay path offset input fs =
        (.error e, withInput fs p offset input original)) ∨
      ∃ i, slotFor fs p = some i ∧ writeAtOverlay path offset input fs =
        (.ok input.length, (withInput fs p offset input original).setNode i
          (atNode fs p (max original.length (offset + input.length))))) := by
  cases hpath : canonicalPath path with
  | none =>
    refine Or.inl ⟨by simp, ?_⟩
    rw [writeAtOverlay, hpath]
    by_cases hstop : maxOverlayFileSize < offset + input.length
    · exact ⟨_, if_pos hstop⟩
    · exact ⟨_, if_neg hstop⟩
  | some p =>
    by_cases hpasses : ∃ original, AtPasses fs p offset input original
    · obtain ⟨original, hpasses⟩ := hpasses
      exact Or.inr ⟨p, original, rfl, hpasses, writeAtOverlay_of_passes hs hpath hpasses⟩
    · rw [not_exists] at hpasses
      refine Or.inl ⟨?_, writeAtOverlay_of_not_passes hpath hpasses⟩
      rintro ⟨q, original, hq, hq'⟩
      exact hpasses original (Option.some.inj hq ▸ hq')

/-! ### Whiteouts -/

/-- What a removal leaves in the archive belongs to `root`. -/
def OverlayNode.RootWhiteout (node : OverlayNode) : Prop :=
  node.kind = .whiteout → node.mode = 0o644 ∧ node.uid = 0 ∧ node.gid = 0

/-- All nodes are so. -/
def RootWhiteouts (fs : RamFs) : Prop := ∀ i, (fs.overlay i).RootWhiteout

theorem OverlayNode.rootWhiteout_of_kind {node : OverlayNode} (h : node.kind ≠ .whiteout) :
    node.RootWhiteout := fun hkind => absurd hkind h

theorem RootWhiteouts.setNode (h : RootWhiteouts fs) {node : OverlayNode}
    (hnode : node.RootWhiteout) : RootWhiteouts (fs.setNode i node) := by
  intro j
  by_cases hj : j = i
  · subst hj
    rw [overlay_setNode_self]
    exact hnode
  · rw [overlay_setNode_of_ne hj]
    exact h j

theorem RootWhiteouts.insert (h : RootWhiteouts fs) {kind : NodeKind} {mode : UInt16}
    (hnode : OverlayNode.RootWhiteout ⟨p, kind, 0, 0, 0, mode, uid, gid⟩) :
    RootWhiteouts (insertOverlayAs p kind mode uid gid fs).2 := by
  rcases insertOverlayAs_cases p kind mode uid gid fs with ⟨⟨e, heq⟩, -⟩ | ⟨i, -, -, heq⟩
  · rw [heq]
    exact h
  · rw [heq]
    exact h.setNode hnode

theorem RootWhiteouts.removeNodes (h : RootWhiteouts fs) : RootWhiteouts (removeNodes p fs) := by
  intro j
  rcases overlay_removeNodes p fs j with ⟨heq, -⟩ | ⟨hempty, -⟩
  · rw [heq]
    exact h j
  · exact OverlayNode.rootWhiteout_of_kind (by simp [hempty])

theorem RootWhiteouts.createFile (h : RootWhiteouts fs) (mode : UInt16) :
    RootWhiteouts (createFileOverlay path mode uid gid fs).2 := by
  rw [createFileOverlay]
  cases canonicalPath path with
  | none => exact h
  | some p =>
    dsimp only
    split_ifs
    iterate 5 exact h
    exact h.insert (OverlayNode.rootWhiteout_of_kind (by simp))

theorem RootWhiteouts.writeFile (h : RootWhiteouts fs) (hs : Nodes fs) :
    RootWhiteouts (writeFileOverlay path bytes uid gid fs).2 := by
  rcases writeFileOverlay_cases hs path bytes uid gid with
    ⟨-, e, heq⟩ | ⟨p, -, -, ⟨-, e, heq⟩ | ⟨i, -, -, heq⟩⟩ <;> rw [heq]
  · exact h
  · exact h
  · have hdata : RootWhiteouts (withFile fs p bytes) := h
    exact hdata.setNode (OverlayNode.rootWhiteout_of_kind (by simp [fileNode]))

theorem RootWhiteouts.writeAt (h : RootWhiteouts fs) (hs : Nodes fs) : RootWhiteouts
    (writeAtOverlay path offset input fs).2 := by
  rcases writeAtOverlay_cases hs path offset input with
    ⟨-, e, heq⟩ | ⟨p, original, -, -, ⟨-, e, heq⟩ | ⟨i, -, heq⟩⟩ <;> rw [heq]
  · exact h
  · exact h
  · have hdata : RootWhiteouts (withInput fs p offset input original) := h
    exact hdata.setNode (OverlayNode.rootWhiteout_of_kind (by simp [atNode]))

theorem RootWhiteouts.createDirectoryOne (h : RootWhiteouts fs) :
    RootWhiteouts (createDirectoryOne path uid gid fs).2 := by
  rw [Overlay.createDirectoryOne]
  split_ifs
  iterate 2 exact h
  all_goals exact h.insert (OverlayNode.rootWhiteout_of_kind (by simp))

theorem RootWhiteouts.createDirectories (h : RootWhiteouts fs) {components : List (List UInt8)}
    {current : List UInt8} {r : Except FsError Unit × RamFs}
    (hr : createDirectories uid gid components current fs = some r) : RootWhiteouts r.2 := by
  induction components generalizing current fs with
  | nil =>
    obtain rfl := Option.some.inj hr
    exact h
  | cons c rest ih =>
    rw [Overlay.createDirectories] at hr
    split at hr
    · exact absurd hr (by simp)
    dsimp only at hr
    generalize (if current = [] then current else current ++ [slash]) = base at hr
    split at hr
    · obtain rfl := Option.some.inj hr
      exact h
    split at hr
    · exact ih h hr
    split at hr
    · obtain rfl := Option.some.inj hr
      exact h
    -- The directory is made, and the loop goes on below it.
    generalize base ++ c = next at hr
    have hone : RootWhiteouts (Overlay.createDirectoryOne next uid gid fs).2 :=
      h.createDirectoryOne
    cases hnext : Overlay.createDirectoryOne next uid gid fs with
    | mk outcome fs₁ =>
      rw [hnext] at hr hone
      cases outcome with
      | error e =>
        obtain rfl := Option.some.inj hr
        exact hone
      | ok _ => exact ih hone hr

theorem RootWhiteouts.remove (h : RootWhiteouts fs) {recursive : Bool} :
    RootWhiteouts (removeOverlay path recursive fs).2 := by
  rw [removeOverlay]
  cases canonicalPath path with
  | none => exact h
  | some p =>
    dsimp only
    split_ifs
    iterate 3 exact h
    · exact h.insert fun _ => ⟨rfl, rfl, rfl⟩
    · exact h.removeNodes

theorem RootWhiteouts.run (h : RootWhiteouts fs) (hs : Nodes fs) (op : Operation)
    (hrun : op.run fs = some fs') : RootWhiteouts fs' := by
  cases op with
  | createFile path mode uid gid =>
    obtain rfl := Option.some.inj hrun
    exact h.createFile mode
  | writeFile path bytes uid gid =>
    obtain rfl := Option.some.inj hrun
    exact h.writeFile hs
  | writeAt path offset input =>
    obtain rfl := Option.some.inj hrun
    exact h.writeAt hs
  | createDirectory path parents uid gid =>
    obtain ⟨r, hr, rfl⟩ := Option.map_eq_some_iff.mp hrun
    rw [createDirectoryOverlay] at hr
    cases hp : canonicalPath path.val with
    | none =>
      rw [hp] at hr
      obtain rfl := Option.some.inj hr
      exact h
    | some p =>
      rw [hp] at hr
      dsimp only at hr
      split_ifs at hr
      · obtain rfl := Option.some.inj hr
        exact h
      · exact h.createDirectories hr
      · obtain rfl := Option.some.inj hr
        exact h.createDirectoryOne
  | remove path recursive =>
    obtain rfl := Option.some.inj hrun
    exact h.remove

/-- **Whiteouts belong to `root`, in every run.** -/
theorem Reached.rootWhiteouts (h : Reached fs) : RootWhiteouts fs := by
  induction h with
  | mount =>
    exact fun i => OverlayNode.rootWhiteout_of_kind (by simp [RamFs.mount, OverlayNode.empty])
  | step h op hrun ih => exact ih.run h.sound.nodes op hrun

/-! ### Owners -/

/-- A new file that replaces nothing belongs to the caller, and one in place of a `Whiteout` to
`root`. -/
theorem ownerFor_new (hw : RootWhiteouts fs) (hp : CleanPath p) (hdev : p ≠ devPath)
    (hdisk : p ≠ diskPath) (hfile : isFileOverlay fs p = false)
    (hdirectory : isDirectoryOverlay fs p = false) :
    ownerFor fs p uid gid =
      if kindAt fs p = .whiteout then (0o644, 0, 0) else (0o644, uid, gid) := by
  have hcanonical : Canonical p := Or.inr hp
  rw [ownerFor]
  cases hfind : findOverlayNode fs p with
  | none =>
    have hread : readFromOverlay fs p = none := by
      rw [← Option.not_isSome_iff_eq_none, isSome_readFromOverlay hcanonical hdisk, hfile]
      simp
    rw [metadataOverlay_of_none hcanonical hfind, if_neg (by simp [hdirectory]),
      if_neg fun h => hdisk h.1, hread, kindAt_of_none hfind, if_neg (by simp)]
    rfl
  | some i =>
    -- The node is neither a file nor a directory.
    have hkind : (fs.overlay i).kind = .whiteout := by
      rw [isFileOverlay_of_node hcanonical hdisk hfind] at hfile
      rw [isDirectoryOverlay_of_node hcanonical hdev hfind] at hdirectory
      have hempty := (of_findOverlayNode hfind).1
      cases hk : (fs.overlay i).kind <;> simp_all [NodeKind.isDirectory]
    obtain ⟨hmode, huid, hgid⟩ := hw i hkind
    rw [metadataOverlay_of_node hcanonical hfind, kindAt_of_node hfind, if_pos hkind]
    show ((fs.overlay i).mode, (fs.overlay i).uid, (fs.overlay i).gid) = _
    rw [hmode, huid, hgid]

theorem metadata_writeFile (hs : Nodes fs) (hpath : canonicalPath path = some p)
    (hrun : writeFileOverlay path bytes uid gid fs = (.ok (), fs')) :
    FilePasses fs p bytes ∧ metadataOverlay fs' p = some ⟨bytes.length, (ownerFor fs p uid gid).1,
      (ownerFor fs p uid gid).2.1, (ownerFor fs p uid gid).2.2, false⟩ := by
  rcases writeFileOverlay_cases hs path bytes uid gid with
    ⟨-, e, heq⟩ | ⟨q, hq, hpasses, ⟨-, e, heq⟩ | ⟨i, hslot, -, heq⟩⟩ <;> rw [heq] at hrun
  · exact absurd hrun (by simp)
  · exact absurd hrun (by simp)
  · obtain rfl : q = p := Option.some.inj (hq.symm.trans hpath)
    obtain rfl := (Prod.ext_iff.mp hrun).2
    have hdata : Nodes (withFile fs q bytes) := hs.setData
    have hslot' : slotFor (withFile fs q bytes) (fileNode fs q bytes uid gid).path = some i := hslot
    have hfind := hdata.find_setNode hslot' (by simp [fileNode])
    refine ⟨hpasses, ?_⟩
    have hmetadata := metadataOverlay_of_node (canonical_of_canonicalPath hq) hfind
    rw [hmetadata, overlay_setNode_self]
    rfl

/-- **A new file belongs to its creator if no `Whiteout` is in its place, or the creator is
`root`.** -/
theorem new_file_owned_iff (h : Reached fs) (path : Str) (hpath : canonicalPath path.val = some p)
    (hfile : isFileOverlay fs path.val = false)
    (hdirectory : isDirectoryOverlay fs path.val = false)
    (hrun : writeFileOverlay path.val bytes uid gid fs = (.ok (), fs')) :
    (∃ metadata, metadataOverlay fs' path.val = some metadata ∧ metadata.mode = 0o644 ∧
      metadata.uid = uid ∧ metadata.gid = gid) ↔
      kindAt fs p ≠ .whiteout ∨ (uid = 0 ∧ gid = 0) := by
  rw [isFileOverlay_of_canonicalPath hpath] at hfile
  rw [isDirectoryOverlay_of_canonicalPath hpath] at hdirectory
  obtain ⟨hpasses, hmetadata⟩ := metadata_writeFile h.sound.nodes hpath hrun
  have hp : CleanPath p := (canonical_of_canonicalPath hpath).resolve_left hpasses.ne_nil
  obtain ⟨hdev, hdisk⟩ := not_or.mp hpasses.special
  rw [metadataOverlay_of_canonicalPath hpath, hmetadata,
    ownerFor_new h.rootWhiteouts hp hdev hdisk hfile hdirectory]
  by_cases hwhiteout : kindAt fs p = .whiteout
  · rw [if_pos hwhiteout, or_iff_right fun hne => hne hwhiteout]
    constructor
    · rintro ⟨_, hm, -, rfl, rfl⟩
      obtain rfl := Option.some.inj hm
      exact ⟨rfl, rfl⟩
    · rintro ⟨rfl, rfl⟩
      exact ⟨_, rfl, rfl, rfl, rfl⟩
  · rw [if_neg hwhiteout]
    exact iff_of_true ⟨_, rfl, rfl, rfl, rfl⟩ (Or.inl hwhiteout)

end Writes

/-! ### Samples -/

theorem new_file_owned_iff_sample :
    ∃ metadata, metadataOverlay (writeFileOverlay [97, 47, 99] [120] 1000 100 plainFs).2
      [97, 47, 99] = some metadata ∧ metadata.mode = 0o644 ∧ metadata.uid = 1000 ∧
      metadata.gid = 100 := by
  have hok : (writeFileOverlay [97, 47, 99] [120] 1000 100 plainFs).1 = .ok () := by decide +kernel
  have hkind : kindAt plainFs [97, 47, 99] ≠ .whiteout := by decide +kernel
  refine (new_file_owned_iff reached_plainFs ⟨[97, 47, 99], by decide⟩ (by decide)
    (by decide +kernel) (by decide +kernel) (Prod.ext hok rfl)).mpr (Or.inl hkind)

/-- `a/b` of the archive is removed, and written again by another user. -/
theorem recreated_belongs_to_root : ∃ fs, Reached fs ∧
    isFileOverlay fs [97, 47, 98] = false ∧ isDirectoryOverlay fs [97, 47, 98] = false ∧
    (writeFileOverlay [97, 47, 98] [120] 1000 100 fs).1 = .ok () ∧
    metadataOverlay (writeFileOverlay [97, 47, 98] [120] 1000 100 fs).2 [97, 47, 98] =
      some ⟨1, 0o644, 0, 0, false⟩ := by
  have hmount : Reached nestedFs := .mount _ _ _ _
  have hremove : Reached (removeOverlay [97, 47, 98] false nestedFs).2 :=
    .step hmount (.remove ⟨[97, 47, 98], by decide⟩ false) rfl
  exact ⟨_, hremove, by decide +kernel, by decide +kernel, by decide +kernel, by decide +kernel⟩

end ImagineOS.Overlay
