import ImagineOS.Overlay.Entries

/-!
# Overlay: removal

A path of the archive is removed by a `Whiteout`, which has metadata and hides none of the nodes
below it. Any other path is removed with all the nodes below it, and then nothing finds these paths,
while the others are found as before.
-/

namespace ImagineOS.Overlay

open List

/-- A path at another path, or below it. -/
def Within (p q : List UInt8) : Prop := q = p ∨ isChildPath q p = true

/-- Paths at `p` and below it are gone, and others as they were. -/
structure RemovalHides (fs fs' : RamFs) (p : List UInt8) : Prop where
  gone : ∀ q, Canonical q → Within p q → isFileOverlay fs' q = false ∧
    isDirectoryOverlay fs' q = false ∧ readFromOverlay fs' q = none ∧ metadataOverlay fs' q = none
  unlisted : ∀ d n includeHidden, Canonical d → Component n → Within p (child d n) →
    ¬ Listed fs' includeHidden d n
  kept : ∀ q, Canonical q → ¬ Within p q → isFileOverlay fs' q = isFileOverlay fs q ∧
    isDirectoryOverlay fs' q = isDirectoryOverlay fs q ∧
    readFromOverlay fs' q = readFromOverlay fs q ∧ metadataOverlay fs' q = metadataOverlay fs q
  keptListed : ∀ d n includeHidden, Canonical d → Component n → ¬ Within p (child d n) →
    (Listed fs' includeHidden d n ↔ Listed fs includeHidden d n)

/-- A directory whose listing is no error, if there is room for it. -/
structure Listable (fs : RamFs) (d : List UInt8) : Prop where
  canonical : Canonical d
  dev : d ≠ devPath
  isDirectory : isDirectoryOverlay fs d = true
  joins : ∀ m ∈ archivedNames fs d, joins d m = true

/-- The paths that can be removed without a trace. -/
structure Removable (fs : RamFs) (p : List UInt8) : Prop where
  /-- The archive has neither a file nor a directory there. -/
  archive : Archive.isFile fs.archive p = false ∧ Archive.isDirectory fs.archive p = false
  /-- No other name makes a listing show the path. -/
  unlisted : ∀ d n includeHidden, Listable fs d → Component n → child d n = p →
    ∀ m ∈ contributed (removeNodes p fs) includeHidden d, n ∉ lines m
  /-- What the nodes at the path and below it show elsewhere is shown without them. -/
  kept : ∀ d n includeHidden, Listable fs d → Component n → ¬ Within p (child d n) →
    ∀ i m, ¬ Stays p (fs.overlay i) → nodeName d (fs.overlay i) = some m →
      isListed includeHidden m = true → n ∈ lines m →
      ∃ m' ∈ contributed (removeNodes p fs) includeHidden d, n ∈ lines m'

section Removal

variable {fs fs' : RamFs} {d n p q r : List UInt8} {i : Fin maxOverlayNodes} {node : OverlayNode}
  {includeHidden : Bool}

/-! ### Subtrees -/

theorem not_stays_iff : ¬ Stays p node ↔ Within p node.path := by
  rw [Stays, Within]
  by_cases h : node.path = p <;> simp [h]

theorem Within.trans (hp : CleanPath p) (h : Within p q) (hq : CleanPath q)
    (hr : isChildPath r q = true) : Within p r := by
  rcases h with rfl | h
  · exact Or.inr hr
  · exact Or.inr (isChildPath_trans hp.ne_nil hq.ne_nil hr h)

theorem Within.cleanPath (hp : CleanPath p) (hq : Canonical q) (h : Within p q) : CleanPath q := by
  refine hq.resolve_left fun he => ?_
  subst he
  rcases h with he | h
  · exact hp.ne_nil he.symm
  · rw [not_isChildPath_nil] at h
    exact absurd h (by simp)

theorem within_child_iff (hp : CleanPath p) (hd : Canonical d) (hn : slash ∉ n) :
    Within p (child d n) ↔ child d n = p ∨ Within p d := by
  constructor
  · rintro (h | h)
    · exact Or.inl h
    · obtain ⟨r, hr⟩ := (isChildPath_iff hp.ne_nil).mp h
      rw [child] at hr
      split at hr
      · exact absurd (hr ▸ mem_append_right p mem_cons_self : slash ∈ n) hn
      · right
        have hparent := congrArg parentPath hr
        rw [parentPath_append hn] at hparent
        rcases slash_cases r with hno | ⟨a, b, rfl, hb⟩
        · rw [parentPath_append hno] at hparent
          exact Or.inl hparent
        · rw [← cons_append, ← append_assoc, parentPath_append hb] at hparent
          exact Or.inr ((isChildPath_iff hp.ne_nil).mpr ⟨a, hparent⟩)
  · rintro (h | h)
    · exact Or.inl h
    · have hd' := h.cleanPath hp hd
      refine h.trans hp hd' ((isChildPath_iff hd'.ne_nil).mpr ⟨n, ?_⟩)
      rw [child, if_neg hd'.ne_nil]

theorem not_within_of_child (hn : n ≠ []) (h : child d n = p) : ¬ Within p d := by
  have hlength : d.length < p.length := by
    rw [← h, child]
    split
    · rename_i hd
      rw [hd]
      exact length_pos_of_ne_nil hn
    · simp
  have hp : p ≠ [] := ne_nil_of_length_pos (Nat.zero_lt_of_lt hlength)
  rintro (rfl | hin)
  · exact absurd hlength (lt_irrefl _)
  · obtain ⟨r, rfl⟩ := (isChildPath_iff hp).mp hin
    rw [length_append] at hlength
    omega

/-- The disk is in its own subtree only, and in that of `dev`. -/
theorem not_within_diskPath (hdev : p ≠ devPath) (hdisk : p ≠ diskPath) (hp : CleanPath p) :
    ¬ Within p diskPath := by
  rintro (h | h)
  · exact hdisk h.symm
  · have hparent := parent_of_child (by decide) h
    have heq : parentPath diskPath = devPath := by decide
    rw [heq, not_isChildPath_devPath hp] at hparent
    exact hdev (hparent.resolve_right (by simp)).symm

theorem not_within_devPath (hdev : p ≠ devPath) (hp : CleanPath p) : ¬ Within p devPath := by
  rintro (h | h)
  · exact hdev h.symm
  · rw [not_isChildPath_devPath hp] at h
    exact absurd h (by simp)

/-! ### Without the nodes of a subtree -/

theorem findOverlayNode_removeNodes_of_not_within (hq : ¬ Within p q) :
    findOverlayNode (removeNodes p fs) q = findOverlayNode fs q :=
  findOverlayNode_removeNodes (fun h => hq (Or.inl h))
    (Bool.eq_false_iff.mpr fun h => hq (Or.inr h))

theorem overlay_removeNodes_of_find (hq : ¬ Within p q) (h : findOverlayNode fs q = some i) :
    (removeNodes p fs).overlay i = fs.overlay i := by
  obtain ⟨hkind, hpath⟩ := of_findOverlayNode h
  rcases overlay_removeNodes p fs i with ⟨heq, -⟩ | ⟨-, hempty | hstays⟩
  · exact heq
  · exact absurd hempty hkind
  · rw [not_stays_iff, hpath] at hstays
    exact absurd hstays hq

theorem hides_removeNodes (hs : Nodes fs) (hp : CleanPath p) (hq : ¬ Within p q) :
    ((removeNodes p fs).overlay i).hides q = (fs.overlay i).hides q := by
  rcases overlay_removeNodes p fs i with ⟨heq, -⟩ | ⟨hempty, hold⟩
  · rw [heq]
  · rw [hides_of_empty hempty]
    by_cases hkind : (fs.overlay i).kind = .empty
    · rw [hides_of_empty hkind]
    · have hwithin := not_stays_iff.mp (hold.resolve_left hkind)
      have hclean := hs.clean i hkind
      have hpath : (fs.overlay i).path ≠ q := fun he => hq (he ▸ hwithin)
      have hbelow : isChildPath q (fs.overlay i).path = false :=
        Bool.eq_false_iff.mpr fun h => hq (hwithin.trans hp hclean h)
      simp [OverlayNode.hides, hpath, hbelow]

theorem isHidden_removeNodes (hs : Nodes fs) (hp : CleanPath p) (hq : ¬ Within p q) :
    isHidden (removeNodes p fs) q = isHidden fs q := by
  have hfind : findOverlayNode (removeNodes p fs) q = findOverlayNode fs q :=
    findOverlayNode_removeNodes_of_not_within hq
  cases h : findOverlayNode fs q with
  | some i =>
    rw [isHidden_of_node (hfind.trans h), isHidden_of_node h, overlay_removeNodes_of_find hq h]
  | none =>
    rw [Bool.eq_iff_iff, isHidden_of_none (hfind.trans h), isHidden_of_none h]
    exact exists_congr fun j => by rw [hides_removeNodes hs hp hq]

theorem isDirectory_of_visibleBelow (hs : Nodes fs) (hq : Canonical q) (hdev : q ≠ devPath)
    (hnone : findOverlayNode fs q = none) (h : visibleBelow fs q = true) :
    Archive.isDirectory fs.archive q = true := by
  rcases hq with rfl | hq
  · exact isDirectory_nil _
  obtain ⟨i, hvisible, hbelow⟩ := visibleBelow_iff.mp h
  rcases hs.rooted_of_child hq (kind_ne_empty_of_isVisible hvisible) hbelow with
    hroot | hroot | hroot | hroot
  · exact absurd hroot hq.ne_nil
  · exact absurd hroot hdev
  · rw [hnone] at hroot
    exact absurd hroot (by simp)
  · exact hroot

/-- Elsewhere, directories are found as before. -/
theorem isDirectoryOverlay_removeNodes (hs : Nodes fs) (hp : CleanPath p) (hq : Canonical q)
    (hout : ¬ Within p q) : isDirectoryOverlay (removeNodes p fs) q = isDirectoryOverlay fs q := by
  by_cases hdev : q = devPath
  · subst hdev
    rw [isDirectoryOverlay_devPath, isDirectoryOverlay_devPath]
  have hfind : findOverlayNode (removeNodes p fs) q = findOverlayNode fs q :=
    findOverlayNode_removeNodes_of_not_within hout
  cases h : findOverlayNode fs q with
  | some i =>
    rw [isDirectoryOverlay_of_node hq hdev (hfind.trans h), isDirectoryOverlay_of_node hq hdev h,
      overlay_removeNodes_of_find hout h]
  | none =>
    rw [isDirectoryOverlay_of_none hq hdev (hfind.trans h), isDirectoryOverlay_of_none hq hdev h,
      isHidden_removeNodes hs hp hout]
    have hno : ∀ fs' : RamFs, Nodes fs' → findOverlayNode fs' q = none →
        (Archive.isDirectory fs'.archive q || visibleBelow fs' q) =
          Archive.isDirectory fs'.archive q := fun fs' hs' hnone => by
      cases hbelow : visibleBelow fs' q with
      | true => rw [isDirectory_of_visibleBelow hs' hq hdev hnone hbelow, Bool.or_self]
      | false => rw [Bool.or_false]
    rw [hno fs hs h, hno _ (hs.removeNodes hp.ne_nil) (hfind.trans h)]
    rfl

theorem isFileOverlay_removeNodes (hs : Nodes fs) (hp : CleanPath p) (hq : Canonical q)
    (hout : ¬ Within p q) : isFileOverlay (removeNodes p fs) q = isFileOverlay fs q := by
  by_cases hdisk : q = diskPath
  · subst hdisk
    rw [isFileOverlay_diskPath, isFileOverlay_diskPath]
    rfl
  have hfind : findOverlayNode (removeNodes p fs) q = findOverlayNode fs q :=
    findOverlayNode_removeNodes_of_not_within hout
  cases h : findOverlayNode fs q with
  | some i =>
    rw [isFileOverlay_of_node hq hdisk (hfind.trans h), isFileOverlay_of_node hq hdisk h,
      overlay_removeNodes_of_find hout h]
  | none =>
    rw [isFileOverlay_of_none hq hdisk (hfind.trans h), isFileOverlay_of_none hq hdisk h,
      isHidden_removeNodes hs hp hout]
    rfl

theorem readFromOverlay_removeNodes (hs : Nodes fs) (hp : CleanPath p) (hq : Canonical q)
    (hout : ¬ Within p q) : readFromOverlay (removeNodes p fs) q = readFromOverlay fs q := by
  have hfind : findOverlayNode (removeNodes p fs) q = findOverlayNode fs q :=
    findOverlayNode_removeNodes_of_not_within hout
  cases h : findOverlayNode fs q with
  | some i =>
    have hoverlay := overlay_removeNodes_of_find hout h
    have hcontents : contents (removeNodes p fs) i = contents fs i := by
      rw [contents, contents, hoverlay]
      rfl
    rw [readFromOverlay_of_node hq (hfind.trans h), readFromOverlay_of_node hq h, hoverlay,
      hcontents]
  | none =>
    rw [readFromOverlay_of_none hq (hfind.trans h), readFromOverlay_of_none hq h,
      isHidden_removeNodes hs hp hout]
    rfl

theorem metadataOverlay_removeNodes (hs : Nodes fs) (hp : CleanPath p) (hq : Canonical q)
    (hout : ¬ Within p q) : metadataOverlay (removeNodes p fs) q = metadataOverlay fs q := by
  have hfind : findOverlayNode (removeNodes p fs) q = findOverlayNode fs q :=
    findOverlayNode_removeNodes_of_not_within hout
  cases h : findOverlayNode fs q with
  | some i =>
    rw [metadataOverlay_of_node hq (hfind.trans h), metadataOverlay_of_node hq h,
      overlay_removeNodes_of_find hout h]
  | none =>
    rw [metadataOverlay_of_none hq (hfind.trans h), metadataOverlay_of_none hq h,
      isDirectoryOverlay_removeNodes hs hp hq hout, readFromOverlay_removeNodes hs hp hq hout]
    rfl

/-! ### The subtree -/

section Subtree

variable (hp : CleanPath p) (hdev : p ≠ devPath) (hdisk : p ≠ diskPath)
  (harchive : Archive.isFile fs.archive p = false ∧ Archive.isDirectory fs.archive p = false)

include hp harchive

theorem archive_of_within (hq : Within p q) :
    Archive.isFile fs.archive q = false ∧ Archive.isDirectory fs.archive q = false := by
  rcases hq with rfl | hq
  · exact harchive
  · have hno : ∀ b, (b = true → Archive.isDirectory fs.archive p = true) → b = false :=
      fun b hb => by
      rw [← Bool.not_eq_true]
      exact fun h => absurd (harchive.2.symm.trans (hb h)) (by simp)
    exact ⟨hno _ fun h => isDirectory_of_isFile_child hp h hq,
      hno _ fun h => isDirectory_of_child hp h hq⟩

omit harchive in
theorem visibleBelow_removeNodes (hq : CleanPath q) (hin : Within p q) :
    visibleBelow (removeNodes p fs) q = false := by
  rw [← Bool.not_eq_true, visibleBelow_iff]
  rintro ⟨i, hvisible, hbelow⟩
  rcases overlay_removeNodes p fs i with ⟨heq, hstays⟩ | ⟨hempty, -⟩
  · rw [heq] at hbelow
    exact not_stays_iff.mpr (hin.trans hp hq hbelow) hstays
  · exact kind_ne_empty_of_isVisible hvisible hempty

include hdev hdisk

/-- **Nothing is found in the subtree.** -/
theorem gone_removeNodes (hq : Canonical q) (hin : Within p q) :
    isFileOverlay (removeNodes p fs) q = false ∧ isDirectoryOverlay (removeNodes p fs) q = false ∧
      readFromOverlay (removeNodes p fs) q = none ∧
        metadataOverlay (removeNodes p fs) q = none := by
  have hfind : findOverlayNode (removeNodes p fs) q = none := findOverlayNode_removeNodes_self hin
  have hqdisk : q ≠ diskPath := fun he => not_within_diskPath hdev hdisk hp (he ▸ hin)
  have hqdev : q ≠ devPath := fun he => not_within_devPath hdev hp (he ▸ hin)
  obtain ⟨hfile, hdirectory⟩ := archive_of_within hp harchive hin
  have hbelow : visibleBelow (removeNodes p fs) q = false :=
    visibleBelow_removeNodes hp (hin.cleanPath hp hq) hin
  have hfile' : isFileOverlay (removeNodes p fs) q = false := by
    rw [isFileOverlay_of_none hq hqdisk hfind]
    change (_ && Archive.isFile fs.archive q) = false
    rw [hfile, Bool.and_false]
  have hdirectory' : isDirectoryOverlay (removeNodes p fs) q = false := by
    rw [isDirectoryOverlay_of_none hq hqdev hfind, hbelow]
    change (_ && (Archive.isDirectory fs.archive q || false)) = false
    rw [hdirectory, Bool.or_self, Bool.and_false]
  have hread : readFromOverlay (removeNodes p fs) q = none := by
    rw [← isSome_readFromOverlay hq hqdisk] at hfile'
    simpa using hfile'
  refine ⟨hfile', hdirectory', hread, ?_⟩
  rw [metadataOverlay_of_none hq hfind, hdirectory', hread, if_neg (by simp),
    if_neg fun h => hqdisk h.1]
  rfl

end Subtree

/-! ### Listings -/

theorem mem_of_mem_lines {bytes : List UInt8} {x : UInt8} (h : n ∈ lines bytes) (hx : x ∈ n) :
    x ∈ bytes := by
  induction bytes generalizing n with
  | nil =>
    obtain rfl : n = [] := by simpa [lines] using h
    exact hx
  | cons y l ih =>
    rw [lines, splitOn_eq_splitOnP, splitOnP_cons_eq_if_modifyHead] at h
    split at h
    · rcases mem_cons.mp h with rfl | h
      · exact absurd hx (by simp)
      · exact mem_cons_of_mem y (ih h hx)
    · rcases hsplit : l.splitOnP (· == newline) with _ | ⟨first, rest⟩
      · rw [hsplit] at h
        exact absurd h (by simp)
      · have hmem : ∀ c ∈ first :: rest, x ∈ c → x ∈ l := fun c hc hx => by
          refine ih ?_ hx
          rw [lines, splitOn_eq_splitOnP, hsplit]
          exact hc
        rw [hsplit, modifyHead_cons, mem_cons] at h
        rcases h with rfl | h
        · rcases mem_cons.mp hx with rfl | hx
          · exact mem_cons_self
          · exact mem_cons_of_mem y (hmem first mem_cons_self hx)
        · exact mem_cons_of_mem y (hmem n (mem_cons_of_mem _ h) hx)

/-- The names of the archive are components. -/
theorem slash_not_mem_of_archived (h : n ∈ archivedNames fs d) : slash ∉ n := by
  have hlist : ∀ (wanted : List UInt8) (ms : List Member) (written out : List UInt8),
      slash ∉ written → listIn wanted 4096 ms written = some out → slash ∉ out :=
    fun wanted ms => by
      induction ms with
      | nil => exact fun written out hwritten h => Option.some.inj h ▸ hwritten
      | cons m ms ih =>
        intro written out hwritten h
        rw [listIn] at h
        dsimp only at h
        generalize hname : firstComponent ((relativePath m.path wanted).getD []) = name at h
        have hslash : slash ∉ name := hname ▸ slash_not_mem_firstComponent _
        have hrest : ∀ next, slash ∉ next →
            (m.size.bind fun _ => listIn wanted 4096 ms next) = some out → slash ∉ out :=
          fun next hnext h => by
            obtain ⟨-, -, h⟩ := Option.bind_eq_some_iff.mp h
            exact ih next out hnext h
        split at h
        · exact hrest written hwritten h
        · obtain ⟨next, hnext, h⟩ := Option.bind_eq_some_iff.mp h
          refine hrest next ?_ h
          rw [appendName] at hnext
          split at hnext
          · exact Option.some.inj hnext ▸ hwritten
          · split at hnext
            · exact absurd hnext (by simp)
            · rw [← Option.some.inj hnext]
              simp only [mem_append, mem_singleton, not_or]
              exact ⟨⟨hwritten, hslash⟩, by decide⟩
  intro hmem
  have hbytes := mem_of_mem_lines (mem_filter.mp h).1 hmem
  split at hbytes
  · cases hout : Archive.listDirectory fs.archive d 4096 with
    | none =>
      rw [hout] at hbytes
      exact absurd hbytes (by simp)
    | some out =>
      rw [hout] at hbytes
      exact hlist _ _ _ out (by simp) hout hbytes
  · exact absurd hbytes (by simp)

theorem archivedNames_removeNodes (hd : ¬ Within p d) :
    archivedNames (removeNodes p fs) d = archivedNames fs d := by
  have hkind : kindAt (removeNodes p fs) d = kindAt fs d := by
    have hfind : findOverlayNode (removeNodes p fs) d = findOverlayNode fs d :=
      findOverlayNode_removeNodes_of_not_within hd
    cases h : findOverlayNode fs d with
    | some i => rw [kindAt_of_node (hfind.trans h), kindAt_of_node h,
        overlay_removeNodes_of_find hd h]
    | none => rw [kindAt_of_none (hfind.trans h), kindAt_of_none h]
  rw [archivedNames, archivedNames, hkind]
  rfl

/-- What is listed outside of a subtree has names from outside, or from the nodes of the subtree. -/
theorem exists_contributed_iff (hs : Nodes fs) (hp : CleanPath p) (hd : Canonical d)
    (hout : ¬ Within p d) (hvisible : isHidden fs p = false) :
    (∃ m ∈ contributed fs includeHidden d, n ∈ lines m) ↔
      (∃ m ∈ contributed (removeNodes p fs) includeHidden d, n ∈ lines m) ∨
      ∃ i m, ¬ Stays p (fs.overlay i) ∧ nodeName d (fs.overlay i) = some m ∧
        isListed includeHidden m = true ∧ n ∈ lines m := by
  have harchived : archivedNames (removeNodes p fs) d = archivedNames fs d :=
    archivedNames_removeNodes hout
  have hchild : ∀ m, m ∈ archivedNames fs d → Within p (child d m) → child d m = p :=
    fun m hm hin =>
    ((within_child_iff hp hd (slash_not_mem_of_archived hm)).mp hin).resolve_right hout
  have hsame : ∀ {i m}, nodeName d ((removeNodes p fs).overlay i) = some m →
      nodeName d (fs.overlay i) = some m := fun {i m} h => by
    rcases overlay_removeNodes p fs i with ⟨heq, -⟩ | ⟨hempty, -⟩
    · rwa [heq] at h
    · exact absurd h (by simp [nodeName, hempty, NodeKind.isVisible])
  constructor
  · rintro ⟨m, hm, hn⟩
    obtain ⟨hlisted, ⟨harchive, hhidden⟩ | ⟨i, hi⟩⟩ := mem_contributed.mp hm
    · by_cases hin : Within p (child d m)
      · have heq := hchild m harchive hin
        cases hhidden' : isHidden (removeNodes p fs) (child d m) with
        | false =>
          exact Or.inl ⟨m, mem_contributed.mpr ⟨hlisted, Or.inl ⟨harchived ▸ harchive, hhidden'⟩⟩,
            hn⟩
        | true =>
          -- Something else hides the path, so the node there is what shows it.
          rw [heq, isHidden_of_none (findOverlayNode_removeNodes_self (Or.inl rfl))] at hhidden'
          obtain ⟨j, hj⟩ := hhidden'
          have hj' : (fs.overlay j).hides p = true := by
            rcases overlay_removeNodes p fs j with ⟨heq, -⟩ | ⟨hempty, -⟩
            · rwa [heq] at hj
            · rw [hides_of_empty hempty] at hj
              exact absurd hj (by simp)
          cases hfind : findOverlayNode fs p with
          | none =>
            exact absurd (hvisible.symm.trans ((isHidden_of_none hfind).mpr ⟨j, hj'⟩)) (by simp)
          | some i =>
            obtain ⟨hkind, hpath⟩ := of_findOverlayNode hfind
            rw [isHidden_of_node hfind] at hvisible
            have hvisible' : (fs.overlay i).kind.isVisible = true := by
              cases hk : (fs.overlay i).kind with
              | empty => exact absurd hk hkind
              | whiteout => rw [hk] at hvisible; exact absurd hvisible (by decide)
              | _ => rfl
            refine Or.inr ⟨i, m, not_stays_iff.mpr (Or.inl hpath), ?_, hlisted, hn⟩
            refine (nodeName_eq_some (hs.clean i hkind)).mpr ⟨hvisible',
              slash_not_mem_of_archived harchive, ne_nil_of_mem_contributed hs hm, Or.inl ?_⟩
            rw [hpath, heq]
      · refine Or.inl ⟨m, mem_contributed.mpr ⟨hlisted, Or.inl ⟨harchived ▸ harchive, ?_⟩⟩, hn⟩
        rw [isHidden_removeNodes hs hp hin, hhidden]
    · by_cases hstays : Stays p (fs.overlay i)
      · refine Or.inl ⟨m, mem_contributed.mpr ⟨hlisted, Or.inr ⟨i, ?_⟩⟩, hn⟩
        rcases overlay_removeNodes p fs i with ⟨heq, -⟩ | ⟨-, hempty | hgone⟩
        · rwa [heq]
        · exact absurd hi (by simp [nodeName, hempty, NodeKind.isVisible])
        · exact absurd hstays hgone
      · exact Or.inr ⟨i, m, hstays, hi, hlisted, hn⟩
  · rintro (⟨m, hm, hn⟩ | ⟨i, m, -, hi, hlisted, hn⟩)
    · obtain ⟨hlisted, ⟨harchive, hhidden⟩ | ⟨i, hi⟩⟩ := mem_contributed.mp hm
      · rw [harchived] at harchive
        refine ⟨m, mem_contributed.mpr ⟨hlisted, Or.inl ⟨harchive, ?_⟩⟩, hn⟩
        by_cases hin : Within p (child d m)
        · rw [hchild m harchive hin, hvisible]
        · rwa [isHidden_removeNodes hs hp hin] at hhidden
      · exact ⟨m, mem_contributed.mpr ⟨hlisted, Or.inr ⟨i, hsame hi⟩⟩, hn⟩
    · exact ⟨m, mem_contributed.mpr ⟨hlisted, Or.inr ⟨i, hi⟩⟩, hn⟩

theorem listed_devPath (hn : n ≠ []) : Listed fs includeHidden devPath n ↔
    n = diskName ∧ fs.blockDiskPresent = true := by
  have hlines : n ∈ lines (joined (if fs.blockDiskPresent then [diskName] else [])) ↔
      n = diskName ∧ fs.blockDiskPresent = true := by
    rw [mem_lines_joined hn]
    cases fs.blockDiskPresent with
    | true =>
      have hname : lines diskName = [diskName] := by decide
      simp [hname]
    | false => simp
  rw [← hlines]
  constructor
  · rintro ⟨capacity, out, hout, hmem⟩
    rw [listDirectoryOverlay_devPath] at hout
    generalize joined (if fs.blockDiskPresent then [diskName] else []) = entry at hout ⊢
    split at hout
    · rwa [Option.some.inj hout]
    · exact absurd hout (by simp)
  · exact fun hmem => ⟨_, _, (listDirectoryOverlay_devPath _).trans (if_pos le_rfl), hmem⟩

/-! ### What a removal does -/

theorem Listable.removeNodes_iff (hs : Nodes fs) (hp : CleanPath p) (hout : ¬ Within p d) :
    Listable (removeNodes p fs) d ↔ Listable fs d := by
  have harchived : archivedNames (removeNodes p fs) d = archivedNames fs d :=
    archivedNames_removeNodes hout
  constructor <;> rintro ⟨hd, hdev, hdirectory, hjoins⟩ <;> refine ⟨hd, hdev, ?_, ?_⟩
  · rwa [isDirectoryOverlay_removeNodes hs hp hd hout] at hdirectory
  · rwa [harchived] at hjoins
  · rwa [isDirectoryOverlay_removeNodes hs hp hd hout]
  · rwa [harchived]

theorem listed_iff_listable (hd : Canonical d) (hdev : d ≠ devPath) (hn : n ≠ []) :
    Listed fs includeHidden d n ↔
      Listable fs d ∧ ∃ m ∈ contributed fs includeHidden d, n ∈ lines m := by
  rw [listed_iff hd hdev hn]
  exact ⟨fun h => ⟨⟨hd, hdev, h.1, h.2.1⟩, h.2.2⟩, fun h => ⟨h.1.isDirectory, h.1.joins, h.2⟩⟩

theorem isHidden_of_found (hp : Canonical p) (hdisk : p ≠ diskPath) (hdev : p ≠ devPath)
    (h : isFileOverlay fs p = true ∨ isDirectoryOverlay fs p = true) : isHidden fs p = false := by
  cases hfind : findOverlayNode fs p with
  | some i =>
    rw [isFileOverlay_of_node hp hdisk hfind, isDirectoryOverlay_of_node hp hdev hfind] at h
    rw [isHidden_of_node hfind]
    cases hkind : (fs.overlay i).kind with
    | whiteout => rw [hkind] at h; exact absurd h (by decide)
    | _ => rfl
  | none =>
    rw [isFileOverlay_of_none hp hdisk hfind, isDirectoryOverlay_of_none hp hdev hfind] at h
    cases hhidden : isHidden fs p with
    | true => rw [hhidden] at h; exact absurd h (by simp)
    | false => rfl

/-- Without the nodes of a subtree, it is hidden if nothing else shows it. -/
theorem removalHides_removeNodes_iff (hs : Nodes fs) (hp : CleanPath p) (hdev : p ≠ devPath)
    (hdisk : p ≠ diskPath) (hfound : isFileOverlay fs p = true ∨ isDirectoryOverlay fs p = true)
    (harchive : Archive.isFile fs.archive p = false ∧ Archive.isDirectory fs.archive p = false) :
    RemovalHides fs (removeNodes p fs) p ↔ Removable fs p := by
  have hvisible := isHidden_of_found (Or.inr hp) hdisk hdev hfound
  have hlisted : ∀ {d n includeHidden}, Canonical d → d ≠ devPath → ¬ Within p d → n ≠ [] →
      (Listed (removeNodes p fs) includeHidden d n ↔ Listable fs d ∧
        ∃ m ∈ contributed (removeNodes p fs) includeHidden d, n ∈ lines m) :=
    fun hd hne hout hn => by
      rw [listed_iff_listable hd hne hn, Listable.removeNodes_iff hs hp hout]
  constructor
  · rintro ⟨-, hunlisted, -, hkept⟩
    refine ⟨harchive, fun d n includeHidden hd hn hchild m hm hmem => ?_,
      fun d n includeHidden hd hn hout i m hgone hi hshown hmem => ?_⟩
    · have hout := not_within_of_child hn.ne_nil hchild
      exact hunlisted d n includeHidden hd.canonical hn (Or.inl hchild)
        ((hlisted hd.canonical hd.dev hout hn.ne_nil).mpr ⟨hd, m, hm, hmem⟩)
    · have hout' : ¬ Within p d := fun hin =>
        hout ((within_child_iff hp hd.canonical hn.2).mpr (Or.inr hin))
      have hbefore : Listed fs includeHidden d n := by
        rw [listed_iff_listable hd.canonical hd.dev hn.ne_nil]
        refine ⟨hd, (exists_contributed_iff hs hp hd.canonical hout' hvisible).mpr ?_⟩
        exact Or.inr ⟨i, m, hgone, hi, hshown, hmem⟩
      have hafter := (hkept d n includeHidden hd.canonical hn hout).mpr hbefore
      exact ((hlisted hd.canonical hd.dev hout' hn.ne_nil).mp hafter).2
  · intro hremovable
    refine ⟨fun q hq hin => gone_removeNodes hp hdev hdisk harchive hq hin,
      fun d n includeHidden hd hn hin => ?_, fun q hq hout => ?_,
      fun d n includeHidden hd hn hout => ?_⟩
    · by_cases hd' : d = devPath
      · subst hd'
        rw [listed_devPath hn.ne_nil]
        rintro ⟨rfl, -⟩
        exact not_within_diskPath hdev hdisk hp hin
      · rcases (within_child_iff hp hd hn.2).mp hin with hchild | hin'
        · rw [hlisted hd hd' (not_within_of_child hn.ne_nil hchild) hn.ne_nil]
          rintro ⟨hlistable, m, hm, hmem⟩
          exact hremovable.unlisted d n includeHidden hlistable hn hchild m hm hmem
        · rw [listed_iff hd hd' hn.ne_nil]
          rintro ⟨hdirectory, -⟩
          have hgone := (gone_removeNodes hp hdev hdisk harchive hd hin').2.1
          exact absurd (hgone.symm.trans hdirectory) (by simp)
    · exact ⟨isFileOverlay_removeNodes hs hp hq hout, isDirectoryOverlay_removeNodes hs hp hq hout,
        readFromOverlay_removeNodes hs hp hq hout, metadataOverlay_removeNodes hs hp hq hout⟩
    · by_cases hd' : d = devPath
      · subst hd'
        rw [listed_devPath hn.ne_nil, listed_devPath hn.ne_nil]
        rfl
      · have hout' : ¬ Within p d := fun hin =>
          hout ((within_child_iff hp hd hn.2).mpr (Or.inr hin))
        rw [hlisted hd hd' hout' hn.ne_nil, listed_iff_listable hd hd' hn.ne_nil]
        refine and_congr_right fun hlistable => ?_
        rw [exists_contributed_iff hs hp hd hout' hvisible]
        refine ⟨Or.inl, fun h => h.elim id fun ⟨i, m, hgone, hi, hshown, hmem⟩ => ?_⟩
        exact hremovable.kept d n includeHidden hlistable hn hout i m hgone hi hshown hmem

/-- What a removal does when it succeeds. -/
theorem removeOverlay_ok {path : List UInt8} (hpath : canonicalPath path = some p)
    (hrun : removeOverlay path true fs = (.ok (), fs')) :
    (p ≠ [] ∧ p ≠ devPath ∧ p ≠ diskPath) ∧
    (isFileOverlay fs p = true ∨ isDirectoryOverlay fs p = true) ∧
    ((∃ i node, slotFor fs node.path = some i ∧ node.path = p ∧ node.kind = .whiteout ∧
        fs' = fs.setNode i node ∧
        ¬ (Archive.isFile fs.archive p = false ∧ Archive.isDirectory fs.archive p = false)) ∨
      (Archive.isFile fs.archive p = false ∧ Archive.isDirectory fs.archive p = false) ∧
        fs' = removeNodes p fs) := by
  have herror : ∀ {e : FsError} {fs₁ : RamFs},
      (Except.error e, fs₁) = (Except.ok (), fs') → False := fun h => by simp at h
  rw [removeOverlay, hpath] at hrun
  dsimp only at hrun
  split at hrun
  · exact (herror hrun).elim
  rename_i hspecial
  simp only [not_or] at hspecial
  refine ⟨hspecial, ?_⟩
  split at hrun
  · exact (herror hrun).elim
  rename_i hfound
  have hfound' : isFileOverlay fs p = true ∨ isDirectoryOverlay fs p = true := by
    cases hfile : isFileOverlay fs p with
    | true => exact Or.inl rfl
    | false =>
      cases hdirectory : isDirectoryOverlay fs p with
      | true => exact Or.inr rfl
      | false => exact absurd ⟨by rw [hfile]; rfl, by rw [hdirectory]; rfl⟩ hfound
  refine ⟨hfound', ?_⟩
  rw [if_neg fun h => absurd h.2.2 (by simp)] at hrun
  split at hrun
  · rename_i harchive
    rw [insertOverlay] at hrun
    rcases insertOverlayAs_cases p .whiteout
      (if NodeKind.isDirectory .whiteout then 0o755 else 0o644)
      0 0 fs with ⟨⟨e, heq⟩, -⟩ | ⟨i, hslot, -, heq⟩
    · exact (herror (heq.symm.trans hrun)).elim
    · have hfs := (Prod.ext_iff.mp (heq.symm.trans hrun)).2
      refine Or.inl ⟨i, _, hslot, rfl, rfl, hfs.symm, fun h => ?_⟩
      rw [h.1, h.2] at harchive
      exact absurd harchive (by simp)
  · rename_i harchive
    rw [not_or, Bool.not_eq_true, Bool.not_eq_true] at harchive
    exact Or.inr ⟨harchive, ((Prod.ext_iff.mp hrun).2).symm⟩

/-- **Removal hides a subtree and changes nothing else, for removable paths only.** -/
theorem removal_hides_iff (h : Reached fs) (path : Str) (hpath : canonicalPath path.val = some p)
    (hrun : removeOverlay path.val true fs = (.ok (), fs')) :
    RemovalHides fs fs' p ↔ Removable fs p := by
  have hs := h.sound.nodes
  obtain ⟨⟨hne, hdev, hdisk⟩, hfound,
    ⟨i, node, hslot, hnode, hkind, rfl, harchive⟩ | ⟨harchive, rfl⟩⟩ :=
    removeOverlay_ok hpath hrun
  · refine iff_of_false (fun hhides => ?_) fun hremovable => harchive hremovable.archive
    have hp := canonical_of_canonicalPath hpath
    have hgone := (hhides.gone p hp (Or.inl rfl)).2.2.2
    have hfind := hs.find_setNode hslot (by simp [hkind])
    rw [hnode] at hfind
    rw [metadataOverlay_of_node hp hfind] at hgone
    exact absurd hgone (by simp)
  · have hp := (canonical_of_canonicalPath hpath).resolve_left hne
    exact removalHides_removeNodes_iff hs hp hdev hdisk hfound harchive

end Removal

/-! ### Samples -/

/-- A directory, and no archive. -/
def emptyDirectoryFs : RamFs :=
  (createDirectoryOne [97] 0 0 (.mount [] (fun _ => 0) false 0)).2

theorem removal_hides_iff_sample :
    RemovalHides emptyDirectoryFs (removeOverlay [97] true emptyDirectoryFs).2 [97] := by
  have hmount : Reached (.mount [] (fun _ => 0) false 0) := .mount _ _ _ _
  have hreached : Reached emptyDirectoryFs :=
    .step hmount (.createDirectory ⟨[97], by decide⟩ false 0 0) rfl
  have hok : (removeOverlay [97] true emptyDirectoryFs).1 = .ok () := by decide +kernel
  have hpaths : ∀ i, (emptyDirectoryFs.overlay i).kind.isVisible = true →
      (emptyDirectoryFs.overlay i).path = [97] := by decide +kernel
  have hnone : ∀ i, ((removeNodes [97] emptyDirectoryFs).overlay i).kind.isVisible = false := by
    decide +kernel
  have harchive : emptyDirectoryFs.archive = [] := by decide +kernel
  have hcontributed : ∀ includeHidden d,
      contributed (removeNodes [97] emptyDirectoryFs) includeHidden d = [] :=
        fun includeHidden d => by
    refine eq_nil_iff_forall_not_mem.mpr fun m hm => ?_
    obtain ⟨-, ⟨harchived, -⟩ | ⟨i, hi⟩⟩ := mem_contributed.mp hm
    · have hlist : ∀ wanted capacity, Archive.listDirectory [] wanted capacity = some [] :=
        fun wanted capacity => rfl
      have harchive' : (removeNodes [97] emptyDirectoryFs).archive = [] := harchive
      rw [archivedNames, harchive', hlist, Option.getD_some, ite_self] at harchived
      exact absurd harchived (by simp [lines])
    · exact absurd hi (by simp [nodeName, hnone])
  generalize hrun : removeOverlay [97] true emptyDirectoryFs = r at hok ⊢
  obtain ⟨outcome, fs'⟩ := r
  obtain rfl : outcome = .ok () := hok
  refine (removal_hides_iff hreached ⟨[97], by decide⟩
    (canonicalPath_of_canonical (Or.inr (by decide))) hrun).mpr ⟨?_, ?_, ?_⟩
  · decide +kernel
  · intro d n includeHidden _ _ _ m hm
    rw [hcontributed] at hm
    exact absurd hm (by simp)
  · intro d n includeHidden _ _ hout i m _ hi _ hmem
    -- The node is `a`, in the root.
    have hvisible : (emptyDirectoryFs.overlay i).kind.isVisible = true := by
      by_contra hvisible
      exact absurd hi (by simp [nodeName, hvisible])
    rw [nodeName_eq_some (by rw [hpaths i hvisible]; decide), hpaths i hvisible] at hi
    obtain ⟨-, -, hne, heq | hbelow⟩ := hi
    · rw [child] at heq
      split at heq
      · rename_i hroot
        have hn : n = [97] := by simpa [← heq, lines_of_not_mem, newline] using hmem
        exact absurd (Or.inl (by rw [hroot, hn]; rfl)) hout
      · rename_i hroot
        have hlength := congrArg List.length heq
        have hpositive := length_pos_of_ne_nil hroot
        simp at hlength
        omega
    · obtain ⟨r, hr⟩ := (isChildPath_iff (child_ne_nil hne)).mp hbelow
      have hlength := congrArg List.length hr
      have hpositive := length_pos_of_ne_nil (child_ne_nil (d := d) hne)
      simp at hlength
      omega

/-- `a` is removed, and the node `a/c` is still there. -/
theorem below_removed_is_read : ∃ fs, Reached fs ∧ (removeOverlay [97] true fs).1 = .ok () ∧
    readFromOverlay (removeOverlay [97] true fs).2 [97, 47, 99] = some [121] := by
  have hmount : Reached nestedFs := .mount _ _ _ _
  have hwrite : Reached (writeFileOverlay [97, 47, 99] [121] 0 0 nestedFs).2 :=
    .step hmount (.writeFile ⟨[97, 47, 99], by decide⟩ [121] 0 0) rfl
  exact ⟨_, hwrite, by decide +kernel, by decide +kernel⟩

end ImagineOS.Overlay
