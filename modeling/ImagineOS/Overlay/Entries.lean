import ImagineOS.Overlay.Listing

/-!
# Overlay: entries

A listing should have each file and directory of a directory once. It does not when the archive has
more than 4096 bytes of names for the directory, for then it has none of them, when the archive has
headers of other types, when there are nodes below a `Whiteout` (`removed_is_listed`), or for `dev`,
which is a directory and not listed.
-/

namespace ImagineOS.Overlay

/-- A component of a path. -/
def Component (n : List UInt8) : Prop := CleanPath n ∧ slash ∉ n

/-- A listing has each file and directory once, and is an error only if it does not fit. -/
def ListingAgrees (fs : RamFs) (includeHidden : Bool) (d : List UInt8) : Prop :=
  ∃ out, (∀ capacity, listDirectoryOverlay fs d includeHidden capacity =
      if out.length ≤ capacity then some out else none) ∧
    ∀ n, Component n → isListed includeHidden n = true →
      (lines out).count n = if isFileOverlay fs (child d n) = true ∨
        isDirectoryOverlay fs (child d n) = true then 1 else 0

/-- The directories other than `dev` for which this is so. -/
structure ListingRegular (fs : RamFs) (includeHidden : Bool) (d : List UInt8) : Prop where
  /-- The archive has names for paths only, which are not too long. -/
  joins : ∀ m ∈ archivedNames fs d, joins d m = true
  /-- Nothing is visible below what is hidden. -/
  hidden : ∀ n, Component n → isListed includeHidden n = true →
    isHidden fs (child d n) = true → visibleBelow fs (child d n) = false
  /-- The archive has names for its files and directories, and these fit its buffer. -/
  archive : ∀ n, Component n → isListed includeHidden n = true →
    findOverlayNode fs (child d n) = none → isHidden fs (child d n) = false →
    child d n ≠ devPath → visibleBelow fs (child d n) = false →
    (n ∈ archivedNames fs d ↔ Archive.isFile fs.archive (child d n) = true ∨
      Archive.isDirectory fs.archive (child d n) = true)
  /-- `dev` is in the archive, or there is something in it. -/
  dev : d = [] → devPath ∈ archivedNames fs [] ∨ visibleBelow fs devPath = true

/-- There is no directory at a path. -/
def NoDirectory (fs : RamFs) (p : List UInt8) : Prop :=
  (∀ i, findOverlayNode fs p = some i → (fs.overlay i).kind.isDirectory = false) ∧
    (findOverlayNode fs p = none → isHidden fs p = false →
      Archive.isDirectory fs.archive p = false ∧ visibleBelow fs p = false)

/-- There is no file at a path. -/
def NoFile (fs : RamFs) (p : List UInt8) : Prop :=
  (∀ i, findOverlayNode fs p = some i → (fs.overlay i).kind ≠ .file) ∧
    (findOverlayNode fs p = none → isHidden fs p = false → Archive.isFile fs.archive p = false)

/-- There is nothing in `dev` but the disk. -/
structure DevRegular (fs : RamFs) (includeHidden : Bool) : Prop where
  disk : fs.blockDiskPresent = false → NoDirectory fs diskPath
  others : ∀ n, Component n → isListed includeHidden n = true → child devPath n ≠ diskPath →
    NoDirectory fs (child devPath n) ∧ NoFile fs (child devPath n)

section Entries

variable {fs : RamFs} {d n p : List UInt8} {includeHidden : Bool} {i : Fin maxOverlayNodes}

/-! ### Lookups of entries -/

theorem Component.ne_nil (h : Component n) : n ≠ [] := h.1.ne_nil

theorem cleanPath_child (hd : Canonical d) (hn : Component n) : CleanPath (child d n) := by
  rcases hd with rfl | hd
  · exact hn.1
  · rw [child, if_neg hd.ne_nil]
    exact cleanPath_append.mpr ⟨hd, hn.1⟩

theorem parentPath_child (hn : Component n) : parentPath (child d n) = d := by
  by_cases hd : d = []
  · rw [child, if_pos hd, hd]
    exact parentPath_of_not_mem hn.2
  · rw [child, if_neg hd, parentPath_append hn.2]

theorem child_ne_diskPath (hn : Component n) (hdev : d ≠ devPath) :
    child d n ≠ diskPath := fun h => by
  have hparent := parentPath_child (d := d) hn
  rw [h] at hparent
  exact hdev (hparent.symm.trans (by decide))

theorem child_eq_devPath (hn : Component n) (h : child d n = devPath) : d = [] ∧ n = devPath := by
  have hparent := parentPath_child (d := d) hn
  rw [h] at hparent
  have hd : d = [] := hparent.symm.trans (by decide)
  subst hd
  exact ⟨rfl, h⟩

/-- Nothing hides `dev`. -/
theorem isHidden_devPath (hs : Nodes fs) : isHidden fs devPath = false := by
  have hnone : findOverlayNode fs devPath = none :=
    findOverlayNode_eq_none.mpr fun i hi hpath => hs.dev i hi hpath
  rw [← Bool.not_eq_true, isHidden_of_none hnone]
  rintro ⟨i, hi⟩
  have hkind : (fs.overlay i).kind ≠ .empty := fun he => by
    rw [hides_of_empty he] at hi
    exact absurd hi (by simp)
  have hbelow := not_isChildPath_devPath (hs.clean i hkind)
  have hpath := hs.dev i hkind
  simp [OverlayNode.hides, hbelow, hpath] at hi

theorem noDirectory_iff (hp : Canonical p) (hdev : p ≠ devPath) :
    NoDirectory fs p ↔ isDirectoryOverlay fs p = false := by
  cases h : findOverlayNode fs p with
  | some i => simp [NoDirectory, h, isDirectoryOverlay_of_node hp hdev h]
  | none => simp [NoDirectory, h, isDirectoryOverlay_of_none hp hdev h]

theorem noFile_iff (hp : Canonical p) (hdisk : p ≠ diskPath) :
    NoFile fs p ↔ isFileOverlay fs p = false := by
  cases h : findOverlayNode fs p with
  | some i => simp [NoFile, h, isFileOverlay_of_node hp hdisk h]
  | none => simp [NoFile, h, isFileOverlay_of_none hp hdisk h]

/-! ### Names of entries -/

theorem kind_ne_empty_of_isVisible (h : (fs.overlay i).kind.isVisible = true) :
    (fs.overlay i).kind ≠ .empty := fun he => by
  rw [he] at h
  exact absurd h (by simp [NodeKind.isVisible])

theorem mem_contributed : n ∈ contributed fs includeHidden d ↔
    isListed includeHidden n = true ∧
      ((n ∈ archivedNames fs d ∧ isHidden fs (child d n) = false) ∨
        ∃ i, nodeName d (fs.overlay i) = some n) := by
  rw [contributed, List.mem_filter, and_comm, List.mem_append, List.mem_filter, List.mem_filterMap]
  simp

theorem exists_nodeName_iff (hs : Nodes fs) (hn : Component n) :
    (∃ i, nodeName d (fs.overlay i) = some n) ↔
      (∃ i, (fs.overlay i).kind.isVisible = true ∧ (fs.overlay i).path = child d n) ∨
        visibleBelow fs (child d n) = true := by
  rw [visibleBelow_iff, ← exists_or]
  refine exists_congr fun i => ?_
  by_cases hvisible : (fs.overlay i).kind.isVisible = true
  · rw [nodeName_eq_some (hs.clean i (kind_ne_empty_of_isVisible hvisible))]
    simp [hvisible, hn.2, hn.ne_nil]
  · simp [nodeName, hvisible]

/-- What a listing without line breaks in the names of nodes has. -/
def IsShown (fs : RamFs) (d n : List UInt8) : Prop :=
  (n ∈ archivedNames fs d ∧ isHidden fs (child d n) = false) ∨
    (∃ i, (fs.overlay i).kind.isVisible = true ∧ (fs.overlay i).path = child d n) ∨
      visibleBelow fs (child d n) = true

/-- The lookups find something. -/
def IsFound (fs : RamFs) (p : List UInt8) : Prop :=
  isFileOverlay fs p = true ∨ isDirectoryOverlay fs p = true

/-- What a name needs in a directory that is not `dev`. -/
structure EntryRegular (fs : RamFs) (d n : List UInt8) : Prop where
  hidden : isHidden fs (child d n) = true → visibleBelow fs (child d n) = false
  archive : findOverlayNode fs (child d n) = none → isHidden fs (child d n) = false →
    child d n ≠ devPath → visibleBelow fs (child d n) = false →
    (n ∈ archivedNames fs d ↔ Archive.isFile fs.archive (child d n) = true ∨
      Archive.isDirectory fs.archive (child d n) = true)
  dev : child d n = devPath → n ∈ archivedNames fs d ∨ visibleBelow fs (child d n) = true

/-- A name is shown if and only if it is found, for regular names only. -/
theorem isShown_iff_isFound (hs : Nodes fs) (hd : Canonical d) (hdev : d ≠ devPath)
    (hn : Component n) :
    (IsShown fs d n ↔ IsFound fs (child d n)) ↔ EntryRegular fs d n := by
  have hp : Canonical (child d n) := Or.inr (cleanPath_child hd hn)
  have hdisk := child_ne_diskPath hn hdev
  rw [IsShown, IsFound]
  cases hfind : findOverlayNode fs (child d n) with
  | some i =>
    obtain ⟨hkind, hpath⟩ := of_findOverlayNode hfind
    have hpdev : child d n ≠ devPath := fun he => hs.dev i hkind (hpath.trans he)
    have hhere : (∃ j, (fs.overlay j).kind.isVisible = true ∧ (fs.overlay j).path = child d n) ↔
        (fs.overlay i).kind.isVisible = true := by
      constructor
      · rintro ⟨j, hvisible, hj⟩
        have := hs.findOverlayNode_eq_some.mpr ⟨kind_ne_empty_of_isVisible hvisible, hj⟩
        rwa [Option.some.inj (hfind.symm.trans this)]
      · exact fun h => ⟨i, h, hpath⟩
    rw [isFileOverlay_of_node hp hdisk hfind, isDirectoryOverlay_of_node hp hpdev hfind, hhere,
      isHidden_of_node hfind]
    have hregular : EntryRegular fs d n ↔
        ((fs.overlay i).kind = .whiteout → visibleBelow fs (child d n) = false) := by
      constructor
      · intro h hwhiteout
        exact h.hidden (by rw [isHidden_of_node hfind, hwhiteout]; rfl)
      · intro h
        refine ⟨fun hh => h ?_, fun hnone => absurd (hfind.symm.trans hnone) (by simp),
          fun he => absurd he hpdev⟩
        rw [isHidden_of_node hfind] at hh
        exact beq_iff_eq.mp hh
    rw [hregular]
    cases hkind' : (fs.overlay i).kind with
    | empty => exact absurd hkind' hkind
    | whiteout => simp [NodeKind.isVisible, NodeKind.isDirectory]
    | _ => simp [NodeKind.isVisible, NodeKind.isDirectory]
  | none =>
    have hhere : ¬ ∃ j, (fs.overlay j).kind.isVisible = true ∧ (fs.overlay j).path = child d n := by
      rintro ⟨j, hvisible, hj⟩
      exact findOverlayNode_eq_none.mp hfind j (kind_ne_empty_of_isVisible hvisible) hj
    rw [or_iff_right hhere, isFileOverlay_of_none hp hdisk hfind]
    by_cases hpdev : child d n = devPath
    · have hdirectory : isDirectoryOverlay fs (child d n) = true := by
        rw [hpdev]
        exact isDirectoryOverlay_devPath
      have hhidden : isHidden fs (child d n) = false := by
        rw [hpdev]
        exact isHidden_devPath hs
      rw [hdirectory, hhidden]
      simp only [or_true, and_true, iff_true]
      exact ⟨fun h => ⟨fun he => absurd (hhidden.symm.trans he) (by simp),
        fun _ _ hne => absurd hpdev hne, fun _ => h⟩, fun h => h.dev hpdev⟩
    · rw [isDirectoryOverlay_of_none hp hpdev hfind]
      have hregular : EntryRegular fs d n ↔
          (isHidden fs (child d n) = true → visibleBelow fs (child d n) = false) ∧
          (isHidden fs (child d n) = false → visibleBelow fs (child d n) = false →
            (n ∈ archivedNames fs d ↔ Archive.isFile fs.archive (child d n) = true ∨
              Archive.isDirectory fs.archive (child d n) = true)) :=
        ⟨fun h => ⟨h.hidden, fun hh => h.archive hfind hh hpdev⟩,
          fun h => ⟨h.1, fun _ hh _ => h.2 hh, fun he => absurd he hpdev⟩⟩
      rw [hregular]
      cases isHidden fs (child d n) <;> cases visibleBelow fs (child d n) <;> simp

theorem mem_contributed_iff (hs : Nodes fs) (hn : Component n) :
    n ∈ contributed fs includeHidden d ↔ isListed includeHidden n = true ∧ IsShown fs d n := by
  rw [mem_contributed, exists_nodeName_iff hs hn, IsShown]

theorem newline_not_mem_of_archived (h : n ∈ archivedNames fs d) : newline ∉ n :=
  newline_not_mem (List.mem_filter.mp h).1

theorem ne_nil_of_mem_contributed (hs : Nodes fs) (h : n ∈ contributed fs includeHidden d) :
    n ≠ [] := by
  obtain ⟨-, ⟨harchived, -⟩ | ⟨i, hi⟩⟩ := mem_contributed.mp h
  · simpa using (List.mem_filter.mp harchived).2
  · by_cases hvisible : (fs.overlay i).kind.isVisible = true
    · exact ((nodeName_eq_some (hs.clean i (kind_ne_empty_of_isVisible hvisible))).mp hi).2.2.1
    · exact absurd hi (by simp [nodeName, hvisible])

/-! ### Agreement -/

/-- Without line breaks in names, a listing shows what is found, for regular directories only. -/
theorem listingAgrees_iff (hs : Nodes fs) (hd : Canonical d) (hdev : d ≠ devPath)
    (hdirectory : isDirectoryOverlay fs d = true)
    (hbreaks : ∀ m ∈ contributed fs includeHidden d, newline ∉ m) :
    ListingAgrees fs includeHidden d ↔ ListingRegular fs includeHidden d := by
  have hcount : ∀ n, Component n → isListed includeHidden n = true →
      ((lines (listing fs includeHidden d)).count n = (if isFileOverlay fs (child d n) = true ∨
        isDirectoryOverlay fs (child d n) = true then 1 else 0) ↔ EntryRegular fs d n) :=
    fun n hn hlisted => by
      have hnames : ∀ m ∈ contributed fs includeHidden d, m ≠ [] ∧ newline ∉ m := fun m hm =>
        ⟨ne_nil_of_mem_contributed hs hm, hbreaks m hm⟩
      rw [← isShown_iff_isFound hs hd hdev hn, listing, count_lines_collected hnames hn.ne_nil]
      have hmem : n ∈ contributed fs includeHidden d ↔ IsShown fs d n := by
        rw [mem_contributed_iff hs hn, and_iff_right hlisted]
      have hif : ∀ {a b : Prop} [Decidable a] [Decidable b],
          (if a then 1 else 0) = (if b then 1 else 0 : ℕ) ↔ (a ↔ b) := by
        intro a b _ _
        by_cases ha : a <;> by_cases hb : b <;> simp [ha, hb]
      rw [hif, hmem, IsFound]
  constructor
  · rintro ⟨out, hout, hentries⟩
    have hlist := hout (out.length + (listing fs includeHidden d).length)
    rw [if_pos (Nat.le_add_right _ _), listDirectoryOverlay_eq hd hdev] at hlist
    split at hlist
    · rename_i h
      rw [← Option.some.inj hlist] at hentries
      have hregular := fun n hn hlisted => (hcount n hn hlisted).mp (hentries n hn hlisted)
      refine ⟨h.2.1, fun n hn hlisted => (hregular n hn hlisted).hidden,
        fun n hn hlisted => (hregular n hn hlisted).archive, ?_⟩
      rintro rfl
      have hlisted : isListed includeHidden devPath = true := by
        cases includeHidden <;> decide
      exact (hregular devPath ⟨cleanPath_devPath, by decide⟩ hlisted).dev rfl
    · exact absurd hlist (by simp)
  · intro hregular
    refine ⟨listing fs includeHidden d, fun capacity => ?_, fun n hn hlisted => ?_⟩
    · rw [listDirectoryOverlay_eq hd hdev]
      simp only [hdirectory, true_and, and_iff_right hregular.joins]
    · refine (hcount n hn hlisted).mpr ⟨hregular.hidden n hn hlisted,
        hregular.archive n hn hlisted, fun he => ?_⟩
      obtain ⟨rfl, rfl⟩ := child_eq_devPath hn he
      exact hregular.dev rfl

/-- A name with a line break is found and not listed, unless it is hidden. -/
theorem not_listingAgrees_of_newline (hs : Nodes fs) (hd : Canonical d) (hdev : d ≠ devPath)
    (hn : n ∈ contributed fs includeHidden d) (hbreak : newline ∈ n)
    (hhidden : isHidden fs (child d n) = false) : ¬ ListingAgrees fs includeHidden d := by
  rintro ⟨out, -, hentries⟩
  obtain ⟨hlisted, ⟨harchived, -⟩ | ⟨i, hi⟩⟩ := mem_contributed.mp hn
  · exact newline_not_mem_of_archived harchived hbreak
  have hvisible : (fs.overlay i).kind.isVisible = true := by
    by_contra hvisible
    exact absurd hi (by simp [nodeName, hvisible])
  have hclean := hs.clean i (kind_ne_empty_of_isVisible hvisible)
  obtain ⟨-, hslash, hne, hpath⟩ := (nodeName_eq_some hclean).mp hi
  have hcomponent : Component n := by
    refine ⟨?_, hslash⟩
    have hchild : CleanPath (child d n) := by
      rcases hpath with hpath | hpath
      · exact hpath ▸ hclean
      · obtain ⟨rest, hrest⟩ := (isChildPath_iff (child_ne_nil hne)).mp hpath
        exact (cleanPath_append.mp (hrest ▸ hclean)).1
    rw [child] at hchild
    split at hchild
    · exact hchild
    · exact (cleanPath_append.mp hchild).2
  have hp : Canonical (child d n) := Or.inr (cleanPath_child hd hcomponent)
  have hdisk := child_ne_diskPath hcomponent hdev
  have hpdev : child d n ≠ devPath := fun he => by
    obtain ⟨-, rfl⟩ := child_eq_devPath hcomponent he
    exact absurd hbreak (by decide)
  have hfound : IsFound fs (child d n) := by
    cases hfind : findOverlayNode fs (child d n) with
    | some j =>
      rw [IsFound, isFileOverlay_of_node hp hdisk hfind, isDirectoryOverlay_of_node hp hpdev hfind]
      rw [isHidden_of_node hfind] at hhidden
      cases hkind : (fs.overlay j).kind with
      | empty => exact absurd hkind (of_findOverlayNode hfind).1
      | whiteout => rw [hkind] at hhidden; exact absurd hhidden (by decide)
      | _ => simp [NodeKind.isDirectory]
    | none =>
      refine Or.inr ?_
      rw [isDirectoryOverlay_of_none hp hpdev hfind, hhidden]
      have hbelow : visibleBelow fs (child d n) = true := by
        refine visibleBelow_iff.mpr ⟨i, hvisible, hpath.resolve_left fun he => ?_⟩
        exact findOverlayNode_eq_none.mp hfind i (kind_ne_empty_of_isVisible hvisible) he
      simp [hbelow]
  have hcount := hentries n hcomponent hlisted
  have hone : (lines out).count n = 1 := hcount.trans (if_pos hfound)
  have hmem : n ∈ lines out := List.count_pos_iff.mp (by omega)
  exact newline_not_mem hmem hbreak

/-- `"hda"` -/
def diskName : List UInt8 := [104, 100, 97]

theorem listDirectoryOverlay_devPath (capacity : ℕ) :
    listDirectoryOverlay fs devPath includeHidden capacity =
      if (joined (if fs.blockDiskPresent then [diskName] else [])).length ≤ capacity
      then some (joined (if fs.blockDiskPresent then [diskName] else [])) else none := by
  rw [listDirectoryOverlay, canonicalPath_of_canonical (Or.inr cleanPath_devPath)]
  dsimp only [Option.bind_eq_bind, Option.bind_some]
  rw [if_neg (by simp [isDirectoryOverlay_devPath]), if_pos rfl]
  cases fs.blockDiskPresent with
  | true =>
    have hempty : (joined []).length ≤ capacity := Nat.zero_le _
    have hadd : addName [] diskName = [diskName] := by decide
    have happend : appendName capacity (joined []) diskName = _ := appendName_joined hempty
    rwa [hadd] at happend
  | false => simp [joined]

/-- In `dev` there is the disk, and the listing has it. -/
theorem listingAgrees_devPath :
    ListingAgrees fs includeHidden devPath ↔ DevRegular fs includeHidden := by
  have hcount : ∀ n, n ≠ [] →
    (lines (joined (if fs.blockDiskPresent then [diskName] else []))).count n
      = if n = diskName ∧ fs.blockDiskPresent = true then 1 else 0 := fun n hn => by
    have hne : ([] == n) = false := by simpa using Ne.symm hn
    cases fs.blockDiskPresent with
    | true =>
      have hlines : lines (joined [diskName]) = [diskName, []] := by decide
      by_cases heq : n = diskName
      · subst heq
        decide
      · have hne' : (diskName == n) = false := by simpa using Ne.symm heq
        simp [hlines, List.count_cons, hne, hne', heq]
    | false => simp [joined, lines, List.count_cons, hne]
  have hdisk : child devPath diskName = diskPath := by decide
  have hdiskName : Component diskName := ⟨by decide, by decide⟩
  have hlisted : isListed includeHidden diskName = true := by cases includeHidden <;> decide
  have hchild : ∀ n, child devPath n = diskPath ↔ n = diskName := fun n => by
    have hslash : ∀ m, child devPath m = [100, 101, 118, 47] ++ m := fun m => rfl
    rw [← hdisk, hslash, hslash, List.append_cancel_left_eq]
  have hnodir : NoDirectory fs diskPath ↔ isDirectoryOverlay fs diskPath = false :=
    noDirectory_iff (Or.inr (by decide)) (by decide)
  constructor
  · rintro ⟨out, hout, hentries⟩
    have heq : joined (if fs.blockDiskPresent then [diskName] else []) = out := by
      have h := hout (out.length + (joined (if fs.blockDiskPresent then [diskName] else [])).length)
      rw [listDirectoryOverlay_devPath, if_pos (Nat.le_add_left _ _),
        if_pos (Nat.le_add_right _ _)] at h
      exact Option.some.inj h
    rw [← heq] at hentries
    refine ⟨fun hpresent => ?_, fun n hn hlisted' hne => ?_⟩
    · have h := hentries diskName hdiskName hlisted
      rw [hcount _ hdiskName.ne_nil, hdisk, if_neg (by simp [hpresent])] at h
      rw [hnodir, ← Bool.not_eq_true]
      intro hdirectory
      rw [if_pos (Or.inr hdirectory)] at h
      exact absurd h (by simp)
    · have h := hentries n hn hlisted'
      rw [hcount _ hn.ne_nil, if_neg fun h => hne ((hchild n).mpr h.1)] at h
      have hp : Canonical (child devPath n) :=
        Or.inr (cleanPath_child (Or.inr cleanPath_devPath) hn)
      have hdev : child devPath n ≠ devPath := fun he => by
        have := (child_eq_devPath hn he).1
        exact absurd this (by decide)
      rw [noDirectory_iff hp hdev, noFile_iff hp hne, ← Bool.not_eq_true, ← Bool.not_eq_true]
      refine ⟨fun hdirectory => ?_, fun hfile => ?_⟩
      · rw [if_pos (Or.inr hdirectory)] at h
        exact absurd h (by simp)
      · rw [if_pos (Or.inl hfile)] at h
        exact absurd h (by simp)
  · intro hregular
    refine ⟨_, listDirectoryOverlay_devPath, fun n hn hlisted' => ?_⟩
    rw [hcount _ hn.ne_nil]
    by_cases heq : n = diskName
    · subst heq
      rw [hdisk, isFileOverlay_diskPath]
      cases hpresent : fs.blockDiskPresent with
      | true => simp
      | false =>
        have hdirectory := hnodir.mp (hregular.disk hpresent)
        simp [hdirectory]
    · have hne : child devPath n ≠ diskPath := fun he => heq ((hchild n).mp he)
      obtain ⟨hdirectory, hfile⟩ := hregular.others n hn hlisted' hne
      have hp : Canonical (child devPath n) :=
        Or.inr (cleanPath_child (Or.inr cleanPath_devPath) hn)
      have hdev : child devPath n ≠ devPath := fun he => by
        have := (child_eq_devPath hn he).1
        exact absurd this (by decide)
      rw [noDirectory_iff hp hdev] at hdirectory
      rw [noFile_iff hp hne] at hfile
      simp [heq, hdirectory, hfile]

/-- **A listing has each file and directory once, in regular directories only**, unless names with
line breaks are in the way. -/
theorem listing_agrees (h : Reached fs) (hd : Canonical d)
    (hdirectory : isDirectoryOverlay fs d = true) (includeHidden : Bool) :
    (d = devPath → (ListingAgrees fs includeHidden d ↔ DevRegular fs includeHidden)) ∧
    (d ≠ devPath →
      (∀ m ∈ contributed fs includeHidden d, newline ∈ m → isHidden fs (child d m) = false) →
      (ListingAgrees fs includeHidden d ↔ ListingRegular fs includeHidden d ∧
        ∀ m ∈ contributed fs includeHidden d, newline ∉ m)) := by
  have hs := h.sound.nodes
  refine ⟨?_, fun hdev hhidden => ?_⟩
  · rintro rfl
    exact listingAgrees_devPath
  · by_cases hbreaks : ∀ m ∈ contributed fs includeHidden d, newline ∉ m
    · rw [listingAgrees_iff hs hd hdev hdirectory hbreaks, and_iff_left hbreaks]
    · refine iff_of_false ?_ fun h => hbreaks h.2
      simp only [not_forall, not_not] at hbreaks
      obtain ⟨m, hm, hbreak⟩ := hbreaks
      exact not_listingAgrees_of_newline hs hd hdev hm hbreak (hhidden m hm hbreak)

end Entries

/-! ### Samples -/

/-- A directory with a file, and no archive. -/
def plainFs : RamFs :=
  (createFileOverlay [97, 47, 98] 0o644 0 0 (createDirectoryOne [97] 0 0
    (.mount [] (fun _ => 0) false 0)).2).2

theorem reached_plainFs : Reached plainFs := by
  have hmount : Reached (.mount [] (fun _ => 0) false 0) := .mount _ _ _ _
  have hmkdir : Reached (createDirectoryOne [97] 0 0 (.mount [] (fun _ => 0) false 0)).2 :=
    .step hmount (.createDirectory ⟨[97], by decide⟩ false 0 0) rfl
  exact .step hmkdir (.createFile ⟨[97, 47, 98], by decide⟩ 0o644 0 0) rfl

theorem listing_agrees_sample : ListingAgrees plainFs true [97] := by
  have hnames : contributed plainFs true [97] = [[98]] := by decide +kernel
  have harchived : archivedNames plainFs [97] = [] := by decide +kernel
  have hdirectory : isDirectoryOverlay plainFs [97] = true := by decide +kernel
  have hkinds : ∀ i, (plainFs.overlay i).kind ≠ .whiteout ∧
      (plainFs.overlay i).kind ≠ .opaqueDirectory := by decide +kernel
  have hhidden : ∀ p, isHidden plainFs p = false := fun p => by
    cases h : findOverlayNode plainFs p with
    | some i =>
      rw [isHidden_of_node h]
      exact beq_eq_false_iff_ne.mpr (hkinds i).1
    | none =>
      rw [← Bool.not_eq_true, isHidden_of_none h]
      rintro ⟨i, hi⟩
      simp [OverlayNode.hides, hkinds i] at hi
  have hagrees := (listing_agrees reached_plainFs
    (Or.inr (by decide)) hdirectory true).2 (by decide)
    fun m _ _ => hhidden _
  refine hagrees.mpr ⟨⟨by simp [harchived], fun n _ _ h => ?_, fun n hn _ _ _ _ _ => ?_,
    fun h => absurd h (by decide)⟩, by simp [hnames, newline]⟩
  · exact absurd ((hhidden _).symm.trans h) (by simp)
  · have harchive : plainFs.archive = [] := by decide +kernel
    have hmembers : members [] = [] := rfl
    have hne : child [97] n ≠ [] := child_ne_nil hn.ne_nil
    have hp : CleanPath (child [97] n) := cleanPath_child (Or.inr (by decide)) hn
    rw [harchived, harchive, Archive.isFile, Archive.find, Archive.isDirectory, hmembers,
      trimStart_of_clean hp]
    simp [findIn, isDirectoryIn, hne]

/-- `a` is removed with a node below it, and the root still lists it. -/
theorem removed_is_listed : ∃ fs, Reached fs ∧ isDirectoryOverlay fs [] = true ∧
    listDirectoryOverlay fs [] false 4096 = some [97, 10] ∧
    isFileOverlay fs [97] = false ∧ isDirectoryOverlay fs [97] = false := by
  have hmount : Reached nestedFs := .mount _ _ _ _
  have hwrite : Reached (writeFileOverlay [97, 47, 99] [121] 0 0 nestedFs).2 :=
    .step hmount (.writeFile ⟨[97, 47, 99], by decide⟩ [121] 0 0) rfl
  have hremove :
      Reached (removeOverlay [97] true (writeFileOverlay [97, 47, 99] [121] 0 0 nestedFs).2).2 :=
    .step hwrite (.remove ⟨[97], by decide⟩ true) rfl
  exact ⟨_, hremove, by decide +kernel, by decide +kernel, by decide +kernel, by decide +kernel⟩

end ImagineOS.Overlay
