import ImagineOS.Overlay.Nodes
import Mathlib.Data.Set.Lattice
import Mathlib.Order.CompletePartialOrder

/-!
# Overlay: the pool

The contents of the files of the overlay are regions of one pool of bytes. A file that outgrows its
region gets another one behind all those that were ever used, and no region is given back. So
regions never overlap, and a write changes the bytes of one path only. But a file that replaces a
`Whiteout` hides nothing below it any more, and files of the archive appear there again
(`file_reappears`).
-/

namespace ImagineOS.Overlay

open List

/-- The part of the pool that a node has. -/
def OverlayNode.region (node : OverlayNode) : Set ℕ :=
  Set.Ico node.dataStart (node.dataStart + node.dataCapacity)

/-- The regions of files are in the used part of the pool, and apart. -/
structure Pool (fs : RamFs) : Prop where
  used_le : fs.fileDataUsed ≤ overlayDataCapacity
  inside : ∀ i, (fs.overlay i).kind = .file →
    (fs.overlay i).dataStart + (fs.overlay i).dataCapacity ≤ fs.fileDataUsed
  length_le : ∀ i, (fs.overlay i).kind = .file →
    (fs.overlay i).dataLength ≤ (fs.overlay i).dataCapacity
  apart : ∀ i j, (fs.overlay i).kind = .file → (fs.overlay j).kind = .file → i ≠ j →
    Disjoint (fs.overlay i).region (fs.overlay j).region

/-- The invariant of runs. -/
structure Sound (fs : RamFs) : Prop where
  nodes : Nodes fs
  pool : Pool fs

/-- The state with other bytes in the pool. -/
def RamFs.setData (fs : RamFs) (data : ℕ → UInt8) (used : ℕ) : RamFs :=
  { fs with fileData := data, fileDataUsed := used }

/-- A node that may be put in a slot, when the pool has these bytes then. -/
structure Placed (fs : RamFs) (data : ℕ → UInt8) (used : ℕ) (i : Fin maxOverlayNodes)
    (node : OverlayNode) : Prop where
  slot : slotFor fs node.path = some i
  kind : node.kind ≠ .empty
  clean : CleanPath node.path
  short : node.path.length ≤ maxPath
  dev : node.path ≠ devPath
  rooted : Rooted fs (parentPath node.path)
  used_ge : fs.fileDataUsed ≤ used
  used_le : used ≤ overlayDataCapacity
  length_le : node.dataLength ≤ node.dataCapacity
  inside : node.dataStart + node.dataCapacity ≤ used
  /-- The region is empty, new, or that of the node before. -/
  region : node.dataCapacity = 0 ∨ fs.fileDataUsed ≤ node.dataStart ∨
    ((fs.overlay i).kind = .file ∧ node.region = (fs.overlay i).region)
  data : ∀ k < fs.fileDataUsed, ((fs.overlay i).kind = .file → k ∉ (fs.overlay i).region) →
    data k = fs.fileData k

/-- What one step of an operation does. -/
inductive Change (fs : RamFs) : RamFs → Prop
  /-- Nothing. -/
  | same : Change fs fs
  /-- Bytes are written behind the used part of the pool, and not needed. -/
  | spent {data : ℕ → UInt8} {used : ℕ} (hge : fs.fileDataUsed ≤ used)
      (hle : used ≤ overlayDataCapacity) (hdata : ∀ k < fs.fileDataUsed, data k = fs.fileData k) :
      Change fs (fs.setData data used)
  /-- A node is put in the table. -/
  | put {data : ℕ → UInt8} {used : ℕ} {i : Fin maxOverlayNodes} {node : OverlayNode}
      (h : Placed fs data used i node) : Change fs ((fs.setData data used).setNode i node)
  /-- A path that the archive does not have is given up. -/
  | removed {p : List UInt8} (hclean : CleanPath p)
      (harchive : Archive.isFile fs.archive p = false ∧ Archive.isDirectory fs.archive p = false) :
      Change fs (removeNodes p fs)

section Pool

variable {fs fs' : RamFs} {path p q : List UInt8} {data : ℕ → UInt8} {used : ℕ}
  {i j : Fin maxOverlayNodes} {node : OverlayNode}

theorem Nodes.setData (h : Nodes fs) : Nodes (fs.setData data used) :=
  ⟨h.distinct, h.clean, h.short, h.dev, h.parent⟩

theorem Placed.apart (h : Placed fs data used i node) (hpool : Pool fs) (hji : j ≠ i)
    (hj : (fs.overlay j).kind = .file) : Disjoint node.region (fs.overlay j).region := by
  rcases h.region with hempty | hbehind | ⟨hi, hsame⟩
  · rw [OverlayNode.region, hempty, Nat.add_zero, Set.Ico_self]
    exact Set.empty_disjoint _
  · have hinside := hpool.inside j hj
    rw [OverlayNode.region, OverlayNode.region]
    refine Set.disjoint_left.mpr fun k hk hk' => ?_
    simp only [Set.mem_Ico] at hk hk'
    omega
  · rw [hsame]
    exact hpool.apart i j hi hj (Ne.symm hji)

theorem Placed.pool (h : Placed fs data used i node) (hpool : Pool fs) :
    Pool ((fs.setData data used).setNode i node) := by
  have hself : ((fs.setData data used).setNode i node).overlay i = node := overlay_setNode_self
  have hold : ∀ j, j ≠ i → ((fs.setData data used).setNode i node).overlay j = fs.overlay j :=
    fun j hj => overlay_setNode_of_ne hj
  refine ⟨h.used_le, fun j hj => ?_, fun j hj => ?_, fun j k hj hk hjk => ?_⟩
  · by_cases hji : j = i
    · subst hji
      rw [hself]
      exact h.inside
    · rw [hold j hji] at hj ⊢
      exact (hpool.inside j hj).trans h.used_ge
  · by_cases hji : j = i
    · subst hji
      rw [hself]
      exact h.length_le
    · rw [hold j hji] at hj ⊢
      exact hpool.length_le j hj
  · by_cases hji : j = i
    · have hki : k ≠ i := fun he => hjk (hji.trans he.symm)
      rw [hold k hki] at hk ⊢
      rw [hji, hself]
      exact h.apart hpool hki hk
    · rw [hold j hji] at hj ⊢
      by_cases hki : k = i
      · rw [hki, hself]
        exact (h.apart hpool hji hj).symm
      · rw [hold k hki] at hk ⊢
        exact hpool.apart j k hj hk hjk

theorem Change.sound (h : Change fs fs') (hs : Sound fs) : Sound fs' := by
  cases h with
  | same => exact hs
  | spent hge hle _ =>
    exact ⟨hs.nodes.setData, hle, fun i hi => (hs.pool.inside i hi).trans hge, hs.pool.length_le,
      hs.pool.apart⟩
  | put h =>
    refine ⟨?_, h.pool hs.pool⟩
    exact hs.nodes.setData.setNode h.slot h.kind h.clean h.short h.dev h.rooted
  | @removed p hclean _ =>
    have hold : ∀ j, ((removeNodes p fs).overlay j).kind = .file →
        (removeNodes p fs).overlay j = fs.overlay j := fun j hj => by
      rcases overlay_removeNodes p fs j with ⟨heq, -⟩ | ⟨hempty, -⟩
      · exact heq
      · exact absurd (hempty.symm.trans hj) (by simp)
    refine ⟨hs.nodes.removeNodes hclean.ne_nil, hs.pool.used_le, fun j hj => ?_, fun j hj => ?_,
      fun j k hj hk hjk => ?_⟩
    · have hj' := hold j hj
      rw [hj'] at hj ⊢
      exact hs.pool.inside j hj
    · have hj' := hold j hj
      rw [hj'] at hj ⊢
      exact hs.pool.length_le j hj
    · have hj' := hold j hj
      have hk' := hold k hk
      rw [hj'] at hj ⊢
      rw [hk'] at hk ⊢
      exact hs.pool.apart j k hj hk hjk

/-! ### Operations -/

theorem rooted_of_isDirectoryOverlay (h : Nodes fs) (hq : Canonical q)
    (hdirectory : isDirectoryOverlay fs q = true) : Rooted fs q := by
  rcases hq with rfl | hq
  · exact Or.inl rfl
  rw [isDirectoryOverlay, canonicalPath_of_canonical (Or.inr hq)] at hdirectory
  dsimp only at hdirectory
  split at hdirectory
  · rename_i hdev
    exact Or.inr (Or.inl hdev)
  cases hfind : findOverlayNode fs q with
  | some i => exact Or.inr (Or.inr (Or.inl (by rw [hfind]; rfl)))
  | none =>
    have hkind : kindAt fs q = .empty := by rw [kindAt, hfind]; rfl
    rw [hkind] at hdirectory
    dsimp only at hdirectory
    split at hdirectory
    · exact absurd hdirectory (by simp)
    rw [Bool.or_eq_true] at hdirectory
    rcases hdirectory with harchive | hchild
    · exact Or.inr (Or.inr (Or.inr harchive))
    · simp only [any_eq_true, mem_finRange, true_and, Bool.and_eq_true] at hchild
      obtain ⟨i, hvisible, hchild⟩ := hchild
      have hkindi : (fs.overlay i).kind ≠ .empty := fun he => by
        rw [he] at hvisible
        exact absurd hvisible (by simp [NodeKind.isVisible])
      exact h.rooted_of_child hq hkindi hchild

theorem rooted_parent_of_archive (hp : CleanPath p)
    (h : Archive.isFile fs.archive p = true ∨ Archive.isDirectory fs.archive p = true) :
    Rooted fs (parentPath p) := by
  rcases slash_cases p with hno | ⟨a, b, rfl, hb⟩
  · exact Or.inl (parentPath_of_not_mem hno)
  · rw [parentPath_append hb]
    refine Or.inr (Or.inr (Or.inr ?_))
    have ha := (cleanPath_append.mp hp).1
    rcases h with h | h
    · exact Archive.isDirectory_of_isFile ha h
    · exact Archive.isDirectory_of_below ha h

theorem rooted_parent_of_isFileOverlay (h : Nodes fs) (hp : CleanPath p) (hdisk : p ≠ diskPath)
    (hfile : isFileOverlay fs p = true) : Rooted fs (parentPath p) := by
  rw [isFileOverlay, canonicalPath_of_canonical (Or.inr hp)] at hfile
  dsimp only at hfile
  rw [if_neg hdisk] at hfile
  split at hfile
  · exact absurd hfile (by simp)
  cases hfind : findOverlayNode fs p with
  | some i =>
    obtain ⟨hkind, hpath⟩ := of_findOverlayNode hfind
    rw [← hpath]
    exact h.parent i hkind
  | none =>
    have hkind : kindAt fs p = .empty := by rw [kindAt, hfind]; rfl
    rw [hkind] at hfile
    exact rooted_parent_of_archive hp (Or.inl hfile)

/-- `ensure_parent_directory` -/
theorem rooted_parent_of_ensure (h : Nodes fs) (hp : CleanPath p)
    (hensure : ensureParentDirectory fs p = true) : Rooted fs (parentPath p) :=
  rooted_of_isDirectoryOverlay h (Canonical.parent hp) hensure

theorem isDirectoryOverlay_devPath : isDirectoryOverlay fs devPath = true := by
  simp [isDirectoryOverlay, canonicalPath_of_canonical (Or.inr cleanPath_devPath)]

theorem insertOverlayAs_change (hs : Sound fs) (hclean : CleanPath p) (hdev : p ≠ devPath)
    (hrooted : Rooted fs (parentPath p)) {kind : NodeKind} (hkind : kind ≠ .empty) (mode : UInt16)
    (uid gid : UInt32) : Change fs (insertOverlayAs p kind mode uid gid fs).2 := by
  rw [insertOverlayAs]
  split
  · exact .same
  rename_i hshort
  split
  · exact .same
  rename_i i hslot
  have hplaced : Placed fs fs.fileData fs.fileDataUsed i ⟨p, kind, 0, 0, 0, mode, uid, gid⟩ :=
    ⟨hslot, hkind, hclean, not_lt.mp hshort, hdev, hrooted, le_rfl, hs.pool.used_le, le_rfl,
      Nat.zero_le _, Or.inl rfl, fun _ _ _ => rfl⟩
  exact .put hplaced

theorem createFileOverlay_change (hs : Sound fs) (path : List UInt8) (mode : UInt16)
    (uid gid : UInt32) : Change fs (createFileOverlay path mode uid gid fs).2 := by
  rw [createFileOverlay]
  cases hp : canonicalPath path with
  | none => exact .same
  | some p =>
    dsimp only
    split
    · exact .same
    rename_i hspecial
    split
    · exact .same
    rename_i hne
    split
    · exact .same
    split
    · exact .same
    split
    · exact .same
    rename_i hensure
    have hclean := (canonical_of_canonicalPath hp).resolve_left hne
    exact insertOverlayAs_change hs hclean (fun h => hspecial (Or.inl h))
      (rooted_parent_of_ensure hs.nodes hclean (by simpa using hensure)) (by simp) _ _ _

theorem createDirectoryOne_change (hs : Sound fs) (hclean : CleanPath p) (uid gid : UInt32) :
    Change fs (createDirectoryOne p uid gid fs).2 := by
  rw [createDirectoryOne]
  split
  · exact .same
  rename_i hexists
  split
  · exact .same
  rename_i hensure
  have hdev : p ≠ devPath := fun he => hexists (Or.inr (he ▸ isDirectoryOverlay_devPath))
  refine insertOverlayAs_change hs hclean hdev
    (rooted_parent_of_ensure hs.nodes hclean (by simpa using hensure)) ?_ _ _ _
  split <;> simp

/-- Some changes. -/
abbrev Changes : RamFs → RamFs → Prop := Relation.ReflTransGen Change

theorem Changes.sound (h : Changes fs fs') (hs : Sound fs) : Sound fs' := by
  induction h with
  | refl => exact hs
  | tail _ hlast ih => exact hlast.sound ih

theorem createDirectories_changes (uid gid : UInt32) (components : List (List UInt8))
    (hcomponents : ∀ c ∈ components, CleanPath c) {current : List UInt8}
    (hcurrent : Canonical current) (hs : Sound fs) {r : Except FsError Unit × RamFs}
    (h : createDirectories uid gid components current fs = some r) : Changes fs r.2 := by
  induction components generalizing current fs with
  | nil =>
    obtain rfl := Option.some.inj h
    exact .refl
  | cons c rest ih =>
    have hc := hcomponents c mem_cons_self
    have hrest := fun d hd => hcomponents d (mem_cons_of_mem c hd)
    have hnext : CleanPath ((if current = [] then current else current ++ [slash]) ++ c) := by
      rcases hcurrent with rfl | hcurrent
      · simpa using hc
      · rw [if_neg hcurrent.ne_nil, append_assoc]
        exact cleanPath_append.mpr ⟨hcurrent, hc⟩
    rw [createDirectories] at h
    split at h
    · exact absurd h (by simp)
    dsimp only at h
    generalize (if current = [] then current else current ++ [slash]) = base at h hnext
    split at h
    · obtain rfl := Option.some.inj h
      exact .refl
    split at h
    · exact ih hrest (Or.inr hnext) hs h
    split at h
    · obtain rfl := Option.some.inj h
      exact .refl
    have hone := createDirectoryOne_change hs hnext uid gid
    split at h
    · rename_i heq
      rw [heq] at hone
      obtain rfl := Option.some.inj h
      exact .single hone
    · rename_i heq
      rw [heq] at hone
      exact (Relation.ReflTransGen.single hone).trans (ih hrest (Or.inr hnext) (hone.sound hs) h)

theorem createDirectoryOverlay_changes (hs : Sound fs) {parents : Bool} {uid gid : UInt32}
    {r : Except FsError Unit × RamFs}
    (h : createDirectoryOverlay path parents uid gid fs = some r) : Changes fs r.2 := by
  rw [createDirectoryOverlay] at h
  cases hp : canonicalPath path with
  | none =>
    rw [hp] at h
    obtain rfl := Option.some.inj h
    exact .refl
  | some p =>
    rw [hp] at h
    dsimp only at h
    split at h
    · obtain rfl := Option.some.inj h
      exact .refl
    rename_i hne
    have hclean := (canonical_of_canonicalPath hp).resolve_left hne
    split at h
    · exact createDirectories_changes uid gid _ (fun c hc =>
        (cleanPath_of_not_mem (not_mem_of_mem_splitOn hc)).mpr (hclean c hc)) (Or.inl rfl) hs h
    · obtain rfl := Option.some.inj h
      exact .single (createDirectoryOne_change hs hclean uid gid)

theorem removeOverlay_change (hs : Sound fs) (path : List UInt8) (recursive : Bool) :
    Change fs (removeOverlay path recursive fs).2 := by
  rw [removeOverlay]
  cases hp : canonicalPath path with
  | none => exact .same
  | some p =>
    dsimp only
    split
    · exact .same
    rename_i hspecial
    have hclean := (canonical_of_canonicalPath hp).resolve_left fun h => hspecial (Or.inl h)
    split
    · exact .same
    split
    · exact .same
    split
    · rename_i harchive
      exact insertOverlayAs_change hs hclean (fun h => hspecial (Or.inr (Or.inl h)))
        (rooted_parent_of_archive hclean harchive) (by simp) _ _ _
    · rename_i harchive
      rw [not_or] at harchive
      exact .removed hclean ⟨by simpa using harchive.1, by simpa using harchive.2⟩

end Pool

/-! ### Writes -/

/-- The file at a path gets new contents. -/
inductive Puts (fs : RamFs) (p new : List UInt8) : RamFs → Prop
  | mk {data : ℕ → UInt8} {used : ℕ} {i : Fin maxOverlayNodes} {node : OverlayNode}
      (h : Placed fs data used i node) (hpath : node.path = p) (hkind : node.kind = .file)
      (hcontents : contents ((fs.setData data used).setNode i node) i = new) :
      Puts fs p new ((fs.setData data used).setNode i node)

section Writes

variable {fs fs' : RamFs} {path p : List UInt8} {i : Fin maxOverlayNodes} {node : OverlayNode}

theorem Puts.change {new : List UInt8} (h : Puts fs p new fs') : Change fs fs' := by
  cases h with
  | mk h _ _ _ => exact .put h

variable {data : ℕ → UInt8} {start k : ℕ} {bytes : List UInt8}

theorem copyInto_of_lt (h : k < start) :
    copyInto data start bytes k = data k := if_neg fun hk => absurd hk.1 (not_le.mpr h)

theorem copyInto_of_ge (h : start + bytes.length ≤ k) : copyInto data start bytes k = data k :=
  if_neg fun hk => absurd hk.2 (not_lt.mpr h)

theorem copyInto_add (h : k < bytes.length) :
    copyInto data start bytes (start + k) = bytes[k] := by
  rw [copyInto, if_pos (by omega), Nat.add_sub_cancel_left, getD_eq_getElem?_getD,
    List.getElem?_eq_getElem h, Option.getD_some]

theorem map_copyInto (data : ℕ → UInt8) (start : ℕ) (bytes : List UInt8) :
    (List.range bytes.length).map (fun k => copyInto data start bytes (start + k)) = bytes := by
  refine ext_getElem (by simp) fun k h₁ h₂ => ?_
  rw [getElem_map, getElem_range, copyInto_add h₂]

theorem findFile_eq_some (h : findFile fs p = some i) :
    (fs.overlay i).kind = .file ∧ (fs.overlay i).path = p := by
  simpa using List.find?_some h

theorem Nodes.slotFor_of_findFile (h : Nodes fs) (hfile : findFile fs p = some i) :
    slotFor fs p = some i := by
  obtain ⟨hkind, hpath⟩ := findFile_eq_some hfile
  rw [slotFor, h.findOverlayNode_eq_some.mpr ⟨by simp [hkind], hpath⟩]
  rfl

theorem Nodes.findFile_setNode (h : Nodes fs) (hslot : slotFor fs node.path = some i)
    (hkind : node.kind = .file) : findFile (fs.setNode i node) node.path = some i := by
  refine find_finRange_unique (by simp [hkind]) fun j hj => ?_
  simp only [decide_eq_true_eq] at hj
  by_contra hji
  rw [overlay_setNode_of_ne hji] at hj
  exact h.path_ne hslot hji (by simp [hj.1]) hj.2

@[simp] theorem setNode_setNode {node' : OverlayNode} :
    (fs.setNode i node).setNode i node' = fs.setNode i node' := by
  simp [RamFs.setNode]

theorem insertOverlayAs_cases (p : List UInt8) (kind : NodeKind) (mode : UInt16) (uid gid : UInt32)
    (fs : RamFs) :
    ((∃ e, insertOverlayAs p kind mode uid gid fs = (.error e, fs)) ∧
      (maxPath < p.length ∨ slotFor fs p = none)) ∨
    ∃ i, slotFor fs p = some i ∧ p.length ≤ maxPath ∧
      insertOverlayAs p kind mode uid gid fs =
        (.ok (), fs.setNode i ⟨p, kind, 0, 0, 0, mode, uid, gid⟩) := by
  rw [insertOverlayAs]
  split
  · rename_i hlong
    exact Or.inl ⟨⟨_, rfl⟩, Or.inl hlong⟩
  rename_i hshort
  split
  · rename_i hnone
    exact Or.inl ⟨⟨_, rfl⟩, Or.inr hnone⟩
  · rename_i i hslot
    exact Or.inr ⟨i, hslot, not_lt.mp hshort, rfl⟩

variable {used : ℕ}

/-- The last part of `write_file_overlay`: the node is inserted, and gets its region. -/
theorem insert_file (hs : Sound fs) {capacity : ℕ} {mode : UInt16} {uid gid : UInt32}
    (hplaced : ∀ i, slotFor fs p = some i → p.length ≤ maxPath →
      Placed fs data used i ⟨p, .file, bytes.length, start, capacity, mode, uid, gid⟩)
    (hdata : (maxPath < p.length ∨ slotFor fs p = none) → Change fs (fs.setData data used))
    (hbytes : (List.range bytes.length).map (fun k => data (start + k)) = bytes)
    {r : Except FsError Unit × RamFs}
    (hr : (match insertOverlayAs p .file mode uid gid (fs.setData data used) with
      | (.error e, fs) => (Except.error e, fs)
      | (.ok (), fs) =>
        match findFile fs p with
        | none => (.error .noSpace, fs)
        | some i => (.ok (), fs.setNode i { fs.overlay i with
            dataStart := start
            dataLength := bytes.length
            dataCapacity := capacity })) = r) :
    (r.1 = .ok () ∧ Puts fs p bytes r.2) ∨ ∃ e, r.1 = .error e ∧ Change fs r.2 := by
  rcases insertOverlayAs_cases p .file mode uid gid (fs.setData data used) with
    ⟨⟨e, heq⟩, hwhy⟩ | ⟨i, hslot, hshort, heq⟩ <;> rw [heq] at hr
  · subst hr
    exact Or.inr ⟨e, rfl, hdata hwhy⟩
  · have hnodes : Nodes (fs.setData data used) := hs.nodes.setData
    have hfile : findFile ((fs.setData data used).setNode i ⟨p, .file, 0, 0, 0, mode, uid, gid⟩) p
        = some i := hnodes.findFile_setNode hslot rfl
    dsimp only at hr
    rw [hfile] at hr
    dsimp only at hr
    rw [overlay_setNode_self, setNode_setNode] at hr
    subst hr
    refine Or.inl ⟨rfl, .mk (hplaced i hslot hshort) rfl rfl ?_⟩
    rw [contents, overlay_setNode_self]
    exact hbytes

/-- A path that a node may have. -/
structure Target (fs : RamFs) (p : List UInt8) : Prop where
  clean : CleanPath p
  dev : p ≠ devPath
  rooted : Rooted fs (parentPath p)

/-- What `write_file_overlay` writes to is a file already, or has a parent. -/
theorem Target.of_file_or_ensure (hs : Sound fs) (hclean : CleanPath p)
    (hspecial : ¬ (p = devPath ∨ p = diskPath))
    (hparent : ¬ ((!isFileOverlay fs p) = true ∧ (!ensureParentDirectory fs p) = true)) :
    Target fs p := by
  obtain ⟨hdev, hdisk⟩ := not_or.mp hspecial
  refine ⟨hclean, hdev, ?_⟩
  by_cases hfile : isFileOverlay fs p = true
  · exact rooted_parent_of_isFileOverlay hs.nodes hclean hdisk hfile
  · refine rooted_parent_of_ensure hs.nodes hclean ?_
    by_contra hensure
    rw [Bool.not_eq_true, ← Bool.not_eq_true'] at hfile hensure
    exact hparent ⟨hfile, hensure⟩

theorem of_reusable {n : ℕ} (h : (findFile fs p).filter (fun _ => decide (n ≤
      (findFile fs p).elim 0 fun slot => (fs.overlay slot).dataCapacity)) = some i) :
    findFile fs p = some i ∧ n ≤ (fs.overlay i).dataCapacity := by
  rw [Option.filter_eq_some_iff] at h
  obtain ⟨hfile, hle⟩ := h
  rw [hfile] at hle
  exact ⟨hfile, of_decide_eq_true hle⟩

section Regions

variable {data : ℕ → UInt8} {length capacity : ℕ}

theorem copyInto_of_not_mem_region (offset : ℕ)
    (hle : offset + bytes.length ≤ (fs.overlay i).dataCapacity) (hk : k ∉ (fs.overlay i).region) :
    copyInto fs.fileData ((fs.overlay i).dataStart + offset) bytes k = fs.fileData k := by
  refine if_neg fun hin => hk ?_
  rw [OverlayNode.region, Set.mem_Ico]
  omega

theorem placed_reused (hs : Sound fs) (hp : Target fs p) (hfile : findFile fs p = some i)
    (hlength : length ≤ (fs.overlay i).dataCapacity)
    (hdata : ∀ k, k ∉ (fs.overlay i).region → data k = fs.fileData k) (mode : UInt16)
    (uid gid : UInt32) :
    Placed fs data fs.fileDataUsed i ⟨p, .file, length, (fs.overlay i).dataStart,
      (fs.overlay i).dataCapacity, mode, uid, gid⟩ := by
  obtain ⟨hkind, hpath⟩ := findFile_eq_some hfile
  have hshort := hs.nodes.short i (by simp [hkind])
  rw [hpath] at hshort
  exact ⟨hs.nodes.slotFor_of_findFile hfile, by simp, hp.clean, hshort, hp.dev, hp.rooted, le_rfl,
    hs.pool.used_le, hlength, hs.pool.inside i hkind, Or.inr (Or.inr ⟨hkind, rfl⟩),
    fun k _ hk => hdata k (hk hkind)⟩

theorem placed_new (hs : Sound fs) (hp : Target fs p) (hslot : slotFor fs p = some i)
    (hshort : p.length ≤ maxPath) (hlength : length ≤ capacity)
    (hroom : capacity ≤ overlayDataCapacity - fs.fileDataUsed)
    (hdata : ∀ k < fs.fileDataUsed, data k = fs.fileData k) (mode : UInt16) (uid gid : UInt32) :
    Placed fs data (fs.fileDataUsed + capacity) i
      ⟨p, .file, length, fs.fileDataUsed, capacity, mode, uid, gid⟩ := by
  have hused := hs.pool.used_le
  exact ⟨hslot, by simp, hp.clean, hshort, hp.dev, hp.rooted, Nat.le_add_right _ _, by omega,
    hlength, le_rfl, Or.inr (Or.inl le_rfl), fun k hk _ => hdata k hk⟩

end Regions

/-- What `write_file_overlay` does. -/
theorem writeFileOverlay_spec (hs : Sound fs) (path bytes : List UInt8) (uid gid : UInt32)
    {r : Except FsError Unit × RamFs} (hr : writeFileOverlay path bytes uid gid fs = r) :
    (r.1 = .ok () ∧ ∃ p, canonicalPath path = some p ∧ CleanPath p ∧ Puts fs p bytes r.2) ∨
      ∃ e, r.1 = .error e ∧ Change fs r.2 := by
  have herror : ∀ {e : FsError}, (.error e, fs) = r → ∃ e, r.1 = .error e ∧ Change fs r.2 :=
    fun h => h ▸ ⟨_, rfl, .same⟩
  rw [writeFileOverlay] at hr
  split at hr
  · exact Or.inr (herror hr)
  cases hp : canonicalPath path with
  | none =>
    rw [hp] at hr
    exact Or.inr (herror hr)
  | some p =>
    rw [hp] at hr
    dsimp only at hr
    split at hr
    · exact Or.inr (herror hr)
    rename_i hspecial
    split at hr
    · exact Or.inr (herror hr)
    rename_i hne
    split at hr
    · exact Or.inr (herror hr)
    rename_i hdirectory
    split at hr
    · exact Or.inr (herror hr)
    rename_i hparent
    have hclean := (canonical_of_canonicalPath hp).resolve_left hne
    have htarget := Target.of_file_or_ensure hs hclean hspecial hparent
    generalize (metadataOverlay fs p).elim (0o644, uid, gid)
      (fun metadata => (metadata.mode, metadata.uid, metadata.gid)) = owner at hr
    obtain ⟨mode, ownerUid, ownerGid⟩ := owner
    dsimp only at hr
    generalize hreusable : (findFile fs p).filter (fun _ => decide (bytes.length ≤
      (findFile fs p).elim 0 fun slot => (fs.overlay slot).dataCapacity)) = reusable at hr
    cases reusable with
    | some slot =>
      simp only [Option.isSome_some, if_true, Option.elim_some] at hr
      obtain ⟨hfile, hle⟩ := of_reusable hreusable
      obtain ⟨hkind, hpath⟩ := findFile_eq_some hfile
      have hslot := hs.nodes.slotFor_of_findFile hfile
      rw [hfile, Option.elim_some] at hr
      split at hr
      · exact Or.inr (herror hr)
      have hdata : ∀ k, k ∉ (fs.overlay slot).region →
          copyInto fs.fileData (fs.overlay slot).dataStart bytes k = fs.fileData k := fun k hk =>
        copyInto_of_not_mem_region 0 (by rwa [Nat.zero_add]) hk
      refine (insert_file hs (fun i hi _ => ?_) (fun hfull => ?_) (map_copyInto _ _ _) hr).imp_left
        fun h => ⟨h.1, p, rfl, hclean, h.2⟩
      · obtain rfl := Option.some.inj (hslot.symm.trans hi)
        exact placed_reused hs htarget hfile hle hdata _ _ _
      · rcases hfull with hlong | hnone
        · have hshort := hs.nodes.short slot (by simp [hkind])
          rw [hpath] at hshort
          exact absurd hlong (not_lt.mpr hshort)
        · exact absurd (hslot.symm.trans hnone) (by simp)
    | none =>
      simp only [Option.isSome_none, Bool.false_eq_true, if_false, Option.elim_none] at hr
      generalize hcapacity : (if bytes = [] then 0 else _) = capacity at hr
      split at hr
      · exact Or.inr (herror hr)
      rename_i hspace
      have hlength : bytes.length ≤ capacity := by
        rw [← hcapacity]
        split
        · rename_i hnil
          rw [hnil]
          exact Nat.zero_le _
        · exact (le_max_right _ _).trans (le_max_left _ _)
      have hdata : ∀ k < fs.fileDataUsed,
          copyInto fs.fileData fs.fileDataUsed bytes k = fs.fileData k := fun k hk =>
        copyInto_of_lt hk
      refine (insert_file hs (fun i hi hshort => ?_) (fun _ => ?_) (map_copyInto _ _ _) hr).imp_left
        fun h => ⟨h.1, p, rfl, hclean, h.2⟩
      · exact placed_new hs htarget hi hshort hlength (not_lt.mp hspace) hdata _ _ _
      · have hused := hs.pool.used_le
        exact .spent (Nat.le_add_right _ _) (by omega) hdata

/-- The contents after a write at an offset. -/
def splice (original : List UInt8) (offset : ℕ) (input : List UInt8) : List UInt8 :=
  original.take offset ++ input ++ original.drop (offset + input.length)

theorem length_splice {original input : List UInt8} {offset : ℕ} (h : offset ≤ original.length) :
    (splice original offset input).length = max original.length (offset + input.length) := by
  simp only [splice, length_append, length_take, length_drop]
  omega

/-- A write into a region that has the bytes of a file. -/
theorem map_splice {offset : ℕ} {original input : List UInt8}
    (hdata : ∀ k (hk : k < original.length), data (start + k) = original[k])
    (hoffset : offset ≤ original.length) :
    (List.range (max original.length (offset + input.length))).map
      (fun k => copyInto data (start + offset) input (start + k)) =
      splice original offset input := by
  refine ext_getElem (by simp [length_splice hoffset]) fun k h₁ h₂ => ?_
  rw [getElem_map, getElem_range]
  have hlength : (original.take offset).length = offset := by simp [hoffset]
  rw [length_splice hoffset] at h₂
  simp only [splice]
  by_cases hbefore : k < offset
  · rw [copyInto_of_lt (by omega), hdata k (by omega),
      getElem_append_left (by simp; omega), getElem_append_left (by simp; omega), getElem_take]
  by_cases hinside : k < offset + input.length
  · obtain ⟨j, rfl⟩ := Nat.exists_eq_add_of_le (not_lt.mp hbefore)
    rw [← Nat.add_assoc, copyInto_add (by omega), getElem_append_left (by simp; omega),
      getElem_append_right (by omega)]
    simp [hlength]
  · rw [copyInto_of_ge (by omega), hdata k (by omega),
      getElem_append_right (by simp; omega), getElem_drop]
    congr 1
    simp only [length_append, hlength]
    omega

theorem readFromOverlay_eq (hp : Canonical p) : readFromOverlay fs p =
    if isHidden fs p then none
    else match findOverlayNode fs p with
    | some i => if (fs.overlay i).kind = .file then some (contents fs i) else none
    | none => Archive.find fs.archive p := by
  rw [readFromOverlay, canonicalPath_of_canonical hp]
  rfl

theorem read_of_findFile (hs : Sound fs) (hfile : findFile fs p = some i) :
    readFromOverlay fs p = some (contents fs i) := by
  obtain ⟨hkind, hpath⟩ := findFile_eq_some hfile
  have hclean := hs.nodes.clean i (by simp [hkind])
  have hfind : findOverlayNode fs p = some i :=
    hs.nodes.findOverlayNode_eq_some.mpr ⟨by simp [hkind], hpath⟩
  have hhidden : isHidden fs p = false := by
    simp [isHidden, hfind, hkind]
  rw [hpath] at hclean
  rw [readFromOverlay_eq (Or.inr hclean), hhidden, hfind]
  simp [hkind]

theorem length_le_of_read (hs : Sound fs) (hp : CleanPath p) {content : List UInt8}
    (h : readFromOverlay fs p = some content) : p.length ≤ maxPath := by
  rw [readFromOverlay_eq (Or.inr hp)] at h
  split at h
  · exact absurd h (by simp)
  split at h
  · rename_i i hfind
    obtain ⟨hkind, hpath⟩ := of_findOverlayNode hfind
    rw [← hpath]
    exact hs.nodes.short i hkind
  · rw [Archive.find, trimStart_of_clean hp] at h
    obtain ⟨m, hm, hpath⟩ := path_of_findIn h
    rw [← hpath]
    exact length_path_le hm

/-- The slot that `write_at_overlay` looks for. -/
theorem Nodes.findFile_or_slotFor (h : Nodes fs) (p : List UInt8) :
    (findFile fs p).or (slotFor fs p) = slotFor fs p := by
  cases hfile : findFile fs p with
  | none => rfl
  | some i => rw [h.slotFor_of_findFile hfile, Option.some_or]

section WriteAt

variable {offset capacity : ℕ} {original input : List UInt8}

theorem puts_reused (hs : Sound fs) (hp : Target fs p) (hfile : findFile fs p = some i)
    (hoffset : offset ≤ (contents fs i).length)
    (hle : max (contents fs i).length (offset + input.length) ≤ (fs.overlay i).dataCapacity)
    (mode : UInt16) (uid gid : UInt32) :
    Puts fs p (splice (contents fs i) offset input)
      ((fs.setData (copyInto fs.fileData ((fs.overlay i).dataStart + offset) input)
        fs.fileDataUsed).setNode i ⟨p, .file, max (contents fs i).length (offset + input.length),
          (fs.overlay i).dataStart, (fs.overlay i).dataCapacity, mode, uid, gid⟩) := by
  have hkept : ∀ k, k ∉ (fs.overlay i).region → copyInto fs.fileData
      ((fs.overlay i).dataStart + offset) input k = fs.fileData k := fun k hk =>
    copyInto_of_not_mem_region offset (by omega) hk
  refine .mk (placed_reused hs hp hfile hle hkept _ _ _) rfl rfl ?_
  rw [contents, overlay_setNode_self]
  refine map_splice (fun k hk => ?_) hoffset
  simp only [contents, getElem_map, getElem_range]

theorem copyInto_moved (hk : k < fs.fileDataUsed) :
    copyInto (copyInto fs.fileData fs.fileDataUsed original) (fs.fileDataUsed + offset) input k =
      fs.fileData k := by
  rw [copyInto_of_lt (by omega), copyInto_of_lt hk]

theorem puts_moved (hs : Sound fs) (hp : Target fs p) (hslot : slotFor fs p = some i)
    (hshort : p.length ≤ maxPath) (hoffset : offset ≤ original.length)
    (hlength : max original.length (offset + input.length) ≤ capacity)
    (hroom : capacity ≤ overlayDataCapacity - fs.fileDataUsed) (mode : UInt16) (uid gid : UInt32) :
    Puts fs p (splice original offset input)
      ((fs.setData (copyInto (copyInto fs.fileData fs.fileDataUsed original)
        (fs.fileDataUsed + offset) input) (fs.fileDataUsed + capacity)).setNode i
          ⟨p, .file, max original.length (offset + input.length), fs.fileDataUsed, capacity, mode,
            uid, gid⟩) := by
  refine .mk (placed_new hs hp hslot hshort hlength hroom (fun k hk => copyInto_moved hk) _ _ _)
    rfl rfl ?_
  rw [contents, overlay_setNode_self]
  exact map_splice (fun k hk => copyInto_add hk) hoffset

end WriteAt

/-- What `write_at_overlay` does. -/
theorem writeAtOverlay_spec (hs : Sound fs) (path : List UInt8) (offset : ℕ) (input : List UInt8)
    {r : Except FsError ℕ × RamFs} (hr : writeAtOverlay path offset input fs = r) :
    (r.1 = .ok input.length ∧ ∃ p original, canonicalPath path = some p ∧ CleanPath p ∧
        readFromOverlay fs p = some original ∧ offset ≤ original.length ∧
        Puts fs p (splice original offset input) r.2) ∨
      ∃ e, r.1 = .error e ∧ Change fs r.2 := by
  have herror : ∀ {e : FsError}, (.error e, fs) = r → ∃ e, r.1 = .error e ∧ Change fs r.2 :=
    fun h => h ▸ ⟨_, rfl, .same⟩
  rw [writeAtOverlay] at hr
  split at hr
  · exact Or.inr (herror hr)
  cases hp : canonicalPath path with
  | none =>
    rw [hp] at hr
    exact Or.inr (herror hr)
  | some p =>
    rw [hp] at hr
    dsimp -zeta only at hr
    split at hr
    · exact Or.inr (herror hr)
    rename_i hdirectory
    rw [not_or] at hdirectory
    have hclean := (canonical_of_canonicalPath hp).resolve_left hdirectory.1
    have hdev : p ≠ devPath := fun he => hdirectory.2 (he ▸ isDirectoryOverlay_devPath)
    cases hread : readFromOverlay fs p with
    | none =>
      rw [hread] at hr
      exact Or.inr (herror hr)
    | some original =>
      have hshort := length_le_of_read hs hclean hread
      rw [hread] at hr
      dsimp -zeta only at hr
      split at hr
      · exact Or.inr (herror hr)
      rename_i hoffset
      rw [not_lt] at hoffset
      generalize hlength : max original.length (offset + input.length) = newLength at hr
      dsimp only at hr
      generalize hreusable : (findFile fs p).filter (fun _ => decide (newLength ≤
        (findFile fs p).elim 0 fun slot => (fs.overlay slot).dataCapacity)) = reusable at hr
      generalize metadataOverlay fs p = metadata at hr
      split at hr
      · exact Or.inr (herror hr)
      split at hr
      · exact Or.inr (herror hr)
      rename_i hensure
      have htarget : Target fs p := ⟨hclean, hdev,
        rooted_parent_of_ensure hs.nodes hclean (by simpa using hensure)⟩
      cases reusable with
      | some slot =>
        obtain ⟨hfile, hle⟩ := of_reusable hreusable
        have hslot := hs.nodes.slotFor_of_findFile hfile
        simp only [Option.isSome_some, if_true, Option.elim_some, hfile, Option.some_or] at hr
        split at hr
        · exact Or.inr (herror hr)
        subst hr
        refine Or.inl ⟨rfl, p, original, rfl, hclean, hread, hoffset, ?_⟩
        obtain rfl := Option.some.inj ((read_of_findFile hs hfile).symm.trans hread)
        subst hlength
        exact puts_reused hs htarget hfile hoffset hle _ _ _
      | none =>
        simp only [Option.isSome_none, Bool.false_eq_true, if_false, Option.elim_none] at hr
        generalize hcapacity : (if newLength = 0 then 0 else _) = capacity at hr
        split at hr
        · exact Or.inr (herror hr)
        rename_i hspace
        rw [not_or, not_lt, not_lt] at hspace
        generalize hfound : (findFile fs p).or (slotFor _ p) = found at hr
        have hslot : slotFor fs p = found := (hs.nodes.findFile_or_slotFor p).symm.trans hfound
        cases found with
        | none =>
          subst hr
          have hused := hs.pool.used_le
          exact Or.inr ⟨_, rfl, .spent (Nat.le_add_right _ _) (by omega) fun k hk =>
            copyInto_moved hk⟩
        | some i =>
          subst hr
          refine Or.inl ⟨rfl, p, original, rfl, hclean, hread, hoffset, ?_⟩
          subst hlength
          exact puts_moved hs htarget hslot hshort hoffset hspace.1 hspace.2 _ _ _

/-! ### Runs -/

/-- **What an operation does.** -/
theorem Operation.changes (op : Operation) (hs : Sound fs) (hrun : op.run fs = some fs') :
    Changes fs fs' := by
  cases op with
  | createFile path mode uid gid =>
    obtain rfl := Option.some.inj hrun
    exact .single (createFileOverlay_change hs _ _ _ _)
  | writeFile path bytes uid gid =>
    obtain rfl := Option.some.inj hrun
    rcases writeFileOverlay_spec hs path.val bytes uid gid rfl with ⟨-, _, -, -, h⟩ | ⟨_, -, h⟩
    · exact .single h.change
    · exact .single h
  | writeAt path offset input =>
    obtain rfl := Option.some.inj hrun
    rcases writeAtOverlay_spec hs path.val offset input rfl with
      ⟨-, _, _, -, -, -, -, h⟩ | ⟨_, -, h⟩
    · exact .single h.change
    · exact .single h
  | createDirectory path parents uid gid =>
    obtain ⟨r, hr, rfl⟩ := Option.map_eq_some_iff.mp hrun
    exact createDirectoryOverlay_changes hs hr
  | remove path recursive =>
    obtain rfl := Option.some.inj hrun
    exact .single (removeOverlay_change hs _ _)

theorem sound_mount (archive : List UInt8) (fileData : ℕ → UInt8) (blockDiskPresent : Bool)
    (sectorCount : ℕ) : Sound (.mount archive fileData blockDiskPresent sectorCount) := by
  refine ⟨⟨fun i _ h => absurd rfl h, fun i h => absurd rfl h, fun i h => absurd rfl h,
    fun i h => absurd rfl h, fun i h => absurd rfl h⟩, ⟨Nat.zero_le _, fun i h => ?_, fun i h => ?_,
    fun i j h => ?_⟩⟩
  all_goals exact absurd h (by simp [RamFs.mount, OverlayNode.empty])

/-- **The invariant of runs.** -/
theorem Reached.sound (h : Reached fs) : Sound fs := by
  induction h with
  | mount => exact sound_mount _ _ _ _
  | step _ op hrun ih => exact (op.changes ih hrun).sound ih

/-! ### Other paths -/

/-- A file of the archive is hidden by the node at another path, and by nothing else. -/
structure Uncovers (fs : RamFs) (p q : List UInt8) : Prop where
  none : findOverlayNode fs q = none
  hides : ∃ i, findOverlayNode fs p = some i ∧ (fs.overlay i).hides q = true
  others : ∀ j, findOverlayNode fs p ≠ some j → (fs.overlay j).hides q = false
  isFile : Archive.isFile fs.archive q = true

section Others

variable {new q : List UInt8}

theorem Puts.read_self (h : Puts fs p new fs') (hs : Sound fs) :
    readFromOverlay fs' p = some new := by
  have hs' := h.change.sound hs
  cases h with
  | @mk data used i node h hpath hkind hcontents =>
    subst hpath
    rw [← hcontents]
    have hnodes : Nodes (fs.setData data used) := hs.nodes.setData
    exact read_of_findFile hs' (hnodes.findFile_setNode h.slot hkind)

theorem hides_of_file (hkind : node.kind = .file) : node.hides q = false := by
  simp [OverlayNode.hides, hkind]

theorem hides_of_empty (hkind : node.kind = .empty) : node.hides q = false := by
  simp [OverlayNode.hides, hkind]

variable {j : Fin maxOverlayNodes}

theorem Placed.contents_of_ne {data : ℕ → UInt8}
    (h : Placed fs data used i node) (hs : Sound fs) (hji : j ≠ i)
    (hj : (fs.overlay j).kind = .file) :
    contents ((fs.setData data used).setNode i node) j = contents fs j := by
  have hold : ((fs.setData data used).setNode i node).overlay j = fs.overlay j :=
    overlay_setNode_of_ne hji
  rw [contents, contents, hold]
  refine map_congr_left fun k hk => ?_
  have hlength := hs.pool.length_le j hj
  have hinside := hs.pool.inside j hj
  rw [mem_range] at hk
  refine h.data _ (by omega) fun hi hregion => ?_
  have hmem : (fs.overlay j).dataStart + k ∈ (fs.overlay j).region := by
    rw [OverlayNode.region, Set.mem_Ico]
    omega
  exact Set.disjoint_left.mp (hs.pool.apart i j hi hj (Ne.symm hji)) hregion hmem

theorem isHidden_of_none (h : findOverlayNode fs q = none) :
    isHidden fs q = true ↔ ∃ j, (fs.overlay j).hides q = true := by
  simp [isHidden, h]

theorem Placed.found_iff_of_hides {data : ℕ → UInt8}
    (h : Placed fs data used i node) (hj : (fs.overlay j).hides q = true) :
    findOverlayNode fs node.path = some j ↔ j = i := by
  rcases slotFor_cases h.slot with hpath | ⟨hpath, hempty⟩
  · rw [hpath, Option.some.injEq, eq_comm]
  · rw [hpath]
    refine iff_of_false (by simp) fun he => ?_
    rw [he, hides_of_empty hempty] at hj
    exact absurd hj (by simp)

theorem isHidden_setNode_file {data : ℕ → UInt8} (hkind : node.kind = .file)
    (hfind : findOverlayNode ((fs.setData data used).setNode i node) q = none) :
    isHidden ((fs.setData data used).setNode i node) q = true ↔
      ∃ j, j ≠ i ∧ (fs.overlay j).hides q = true := by
  rw [isHidden_of_none hfind]
  refine exists_congr fun j => ?_
  by_cases hji : j = i
  · subst hji
    rw [overlay_setNode_self, hides_of_file hkind]
    simp
  · have hold : ((fs.setData data used).setNode i node).overlay j = fs.overlay j :=
      overlay_setNode_of_ne hji
    rw [hold]
    simp [hji]

theorem Placed.read_of_found {data : ℕ → UInt8}
    (h : Placed fs data used i node) (hs : Sound fs) (hq : Canonical q) (hne : q ≠ node.path)
    (hfind : findOverlayNode fs q = some j) :
    readFromOverlay ((fs.setData data used).setNode i node) q = readFromOverlay fs q := by
  have hslot : slotFor (fs.setData data used) node.path = some i := h.slot
  have hfind' : findOverlayNode ((fs.setData data used).setNode i node) q = some j :=
    (findOverlayNode_setNode_of_ne hslot hne).trans hfind
  have hji : j ≠ i := fun he => by
    obtain ⟨hkindj, hpathj⟩ := of_findOverlayNode hfind
    exact hne (hpathj.symm.trans (he ▸ slotFor_path h.slot (he ▸ hkindj)))
  have hold : ((fs.setData data used).setNode i node).overlay j = fs.overlay j :=
    overlay_setNode_of_ne hji
  have hhidden : isHidden ((fs.setData data used).setNode i node) q = isHidden fs q := by
    rw [isHidden, isHidden, hfind', hfind]
    dsimp only
    rw [hold]
  rw [readFromOverlay_eq hq, readFromOverlay_eq hq, hfind', hfind, hhidden]
  dsimp only
  rw [hold]
  split
  · rfl
  split
  · rename_i hfile
    rw [h.contents_of_ne hs hji hfile]
  · rfl

/-- **What is read at another path changes only if a file of the archive is uncovered.** -/
theorem Puts.read_iff (h : Puts fs p new fs') (hs : Sound fs) (hq : Canonical q) (hne : q ≠ p) :
    readFromOverlay fs' q = readFromOverlay fs q ↔ ¬ Uncovers fs p q := by
  cases h with
  | @mk data used i node h hpath hkind _ =>
    subst hpath
    cases hfind : findOverlayNode fs q with
    | some j =>
      exact iff_of_true (h.read_of_found hs hq hne hfind) fun hun =>
        absurd (hfind.symm.trans hun.none) (by simp)
    | none =>
      have hslot : slotFor (fs.setData data used) node.path = some i := h.slot
      have hfind' : findOverlayNode ((fs.setData data used).setNode i node) q = none :=
        (findOverlayNode_setNode_of_ne hslot hne).trans hfind
      have hnew := isHidden_setNode_file hkind hfind'
      have hbefore := isHidden_of_none hfind
      rw [readFromOverlay_eq hq, readFromOverlay_eq hq, hfind', hfind]
      by_cases hothers : ∃ j, j ≠ i ∧ (fs.overlay j).hides q = true
      · -- Another node hides it before and after.
        obtain ⟨j, hji, hj⟩ := hothers
        rw [if_pos (hnew.mpr ⟨j, hji, hj⟩), if_pos (hbefore.mpr ⟨j, hj⟩)]
        refine iff_of_true rfl fun hun => ?_
        have := hun.others j fun he => hji ((h.found_iff_of_hides hj).mp he)
        exact absurd (this.symm.trans hj) (by simp)
      rw [if_neg fun hh => hothers (hnew.mp hh)]
      by_cases hi : (fs.overlay i).hides q = true
      · -- Only the old node of the slot hides it: what is in the archive comes to light.
        rw [if_pos (hbefore.mpr ⟨i, hi⟩)]
        dsimp only
        constructor
        · rintro hnone ⟨-, -, -, hfile⟩
          rw [Archive.isFile] at hfile
          exact absurd (hnone ▸ hfile : (none : Option (List UInt8)).isSome = true) (by simp)
        · intro hun
          by_contra hsome
          refine hun ⟨hfind, ⟨i, (h.found_iff_of_hides hi).mpr rfl, hi⟩, fun j hj => ?_,
            Option.isSome_iff_ne_none.mpr hsome⟩
          by_contra hhides
          rw [Bool.not_eq_false] at hhides
          exact hothers ⟨j, fun he => hj ((h.found_iff_of_hides hhides).mpr he), hhides⟩
      · rw [if_neg fun hh => ?_]
        · refine iff_of_true rfl fun hun => ?_
          obtain ⟨j, hj, hhides⟩ := hun.hides
          exact hi ((h.found_iff_of_hides hhides).mp hj ▸ hhides)
        · obtain ⟨j, hj⟩ := hbefore.mp hh
          by_cases hji : j = i
          · exact hi (hji ▸ hj)
          · exact hothers ⟨j, hji, hj⟩

theorem readFromOverlay_of_canonicalPath (h : canonicalPath q = some p) :
    readFromOverlay fs q = readFromOverlay fs p := by
  rw [readFromOverlay, readFromOverlay, h,
    canonicalPath_of_canonical (canonical_of_canonicalPath h)]

theorem Puts.read_others_iff (h : Puts fs p new fs') (hs : Sound fs) :
    (∀ q : Str, canonicalPath q.val ≠ some p →
      readFromOverlay fs' q.val = readFromOverlay fs q.val) ↔
    ∀ (q : Str) (q' : List UInt8), canonicalPath q.val = some q' → ¬ Uncovers fs p q' := by
  have hread : ∀ (q : Str) (q' : List UInt8), canonicalPath q.val = some q' → q' ≠ p →
      (readFromOverlay fs' q.val = readFromOverlay fs q.val ↔ ¬ Uncovers fs p q') :=
    fun q q' hq hne => by
      rw [readFromOverlay_of_canonicalPath hq, readFromOverlay_of_canonicalPath hq]
      exact h.read_iff hs (canonical_of_canonicalPath hq) hne
  constructor
  · intro hsame q q' hq hun
    have hne : q' ≠ p := fun he => by
      obtain ⟨i, hi, -⟩ := hun.hides
      exact absurd (he ▸ hun.none : findOverlayNode fs p = none) (by rw [hi]; simp)
    refine (hread q q' hq hne).mp (hsame q fun he => ?_) hun
    exact hne (Option.some.inj (hq.symm.trans he))
  · intro hnot q hne
    cases hq : canonicalPath q.val with
    | none =>
      rw [readFromOverlay, readFromOverlay, hq]
      rfl
    | some q' => exact (hread q q' hq fun he => hne (he ▸ hq)).mpr (hnot q q' hq)

/-- **The files of the overlay are apart, and writes change one file, unless they uncover others.**
-/
theorem pool_isolated (h : Reached fs) :
    Pool fs ∧
    (∀ (path : Str) (bytes : List UInt8) (uid gid : UInt32) (fs' : RamFs),
      writeFileOverlay path.val bytes uid gid fs = (.ok (), fs') →
      readFromOverlay fs' path.val = some bytes ∧
      ∃ p, canonicalPath path.val = some p ∧
        ((∀ q : Str, canonicalPath q.val ≠ some p →
            readFromOverlay fs' q.val = readFromOverlay fs q.val) ↔
          ∀ (q : Str) (q' : List UInt8), canonicalPath q.val = some q' → ¬ Uncovers fs p q')) ∧
    ∀ (path : Str) (offset : ℕ) (input : List UInt8) (n : ℕ) (fs' : RamFs),
      writeAtOverlay path.val offset input fs = (.ok n, fs') →
      n = input.length ∧ ∃ p original, canonicalPath path.val = some p ∧
        readFromOverlay fs path.val = some original ∧ offset ≤ original.length ∧
        readFromOverlay fs' path.val = some (splice original offset input) ∧
        ∀ q : Str, canonicalPath q.val ≠ some p →
          readFromOverlay fs' q.val = readFromOverlay fs q.val := by
  have hs := h.sound
  refine ⟨hs.pool, fun path bytes uid gid fs' hwrite => ?_,
    fun path offset input n fs' hwrite => ?_⟩
  · rcases writeFileOverlay_spec hs path.val bytes uid gid hwrite with
      ⟨-, p, hp, -, hputs⟩ | ⟨e, he, -⟩
    · refine ⟨?_, p, hp, hputs.read_others_iff hs⟩
      rw [readFromOverlay_of_canonicalPath hp]
      exact hputs.read_self hs
    · exact absurd he (by simp)
  · rcases writeAtOverlay_spec hs path.val offset input hwrite with
      ⟨hn, p, original, hp, -, hread, hoffset, hputs⟩ | ⟨e, he, -⟩
    · refine ⟨by simpa using hn, p, original, hp, ?_, hoffset, ?_,
        (hputs.read_others_iff hs).mpr fun q q' _ hun => ?_⟩
      · rw [readFromOverlay_of_canonicalPath hp]
        exact hread
      · rw [readFromOverlay_of_canonicalPath hp]
        exact hputs.read_self hs
      · -- A file that is read is no `Whiteout`.
        obtain ⟨i, hi, hhides⟩ := hun.hides
        rw [readFromOverlay_eq (canonical_of_canonicalPath hp), hi] at hread
        split at hread
        · exact absurd hread (by simp)
        · dsimp only at hread
          split at hread
          · rename_i hkind
            rw [hides_of_file hkind] at hhides
            exact absurd hhides (by simp)
          · exact absurd hread (by simp)
    · exact absurd he (by simp)

end Others

end Writes

/-! ### Samples -/

/-- An archive with the file `a/b`. -/
def nestedArchive : List UInt8 :=
  [97, 47, 98] ++ List.replicate 121 0 ++ [49] ++ List.replicate 31 0 ++ [48] ++
    List.replicate 355 0 ++ [120] ++ List.replicate 511 0

/-- The file system with it. -/
def nestedFs : RamFs := .mount nestedArchive (fun _ => 0) false 0

theorem pool_isolated_sample :
    readFromOverlay (writeFileOverlay [97, 47, 98] [121, 122] 0 0 nestedFs).2 [97, 47, 98] =
      some [121, 122] := by
  have hmount : Reached nestedFs := .mount _ _ _ _
  have hok : (writeFileOverlay [97, 47, 98] [121, 122] 0 0 nestedFs).1 = .ok () := by
    decide +kernel
  generalize hwrite : writeFileOverlay [97, 47, 98] [121, 122] 0 0 nestedFs = r at hok ⊢
  obtain ⟨outcome, fs'⟩ := r
  obtain rfl : outcome = .ok () := hok
  exact ((pool_isolated hmount).2.1 ⟨[97, 47, 98], by decide⟩ [121, 122] 0 0 fs' hwrite).1

/-- `a` is removed, and a file made in its place: what was below it is there again. -/
theorem file_reappears : ∃ fs, Reached fs ∧
    (writeFileOverlay [97] [121] 0 0 fs).1 = .ok () ∧
    readFromOverlay fs [97, 47, 98] = none ∧
    readFromOverlay (writeFileOverlay [97] [121] 0 0 fs).2 [97, 47, 98] = some [120] := by
  have hmount : Reached nestedFs := .mount _ _ _ _
  have hremove : Reached (removeOverlay [97] true nestedFs).2 :=
    .step hmount (.remove ⟨[97], by decide⟩ true) rfl
  exact ⟨_, hremove, by decide +kernel, by decide +kernel, by decide +kernel⟩

end ImagineOS.Overlay
