import ImagineOS.Overlay.Lookups
import Mathlib.Data.List.Dedup

/-!
# Overlay: listings

A listing is made of the names that the archive has below a directory, as far as they are not
hidden, and of those on the way to files and directories of the overlay. Each name is a line of the
output, and one that is a line already is left out.
-/

namespace ImagineOS.Overlay

open List

/-! ### Lines -/

/-- `split(|byte| *byte == b'\n')` -/
def lines (bytes : List UInt8) : List (List UInt8) := bytes.splitOn newline

/-- The output for some names. -/
def joined (names : List (List UInt8)) : List UInt8 := names.flatMap (· ++ [newline])

/-- A name is added unless it is a line already. -/
def addName (names : List (List UInt8)) (name : List UInt8) : List (List UInt8) :=
  if name ∈ lines (joined names) then names else names ++ [name]

/-- All names, one after the other. -/
def collected (names : List (List UInt8)) : List (List UInt8) := names.foldl addName []

section Lines

variable {names written : List (List UInt8)} {name n : List UInt8} {capacity : ℕ}

theorem lines_append_newline (a b : List UInt8) :
    lines (a ++ newline :: b) = lines a ++ lines b := splitOn_append_cons_self a b

theorem lines_of_not_mem (h : newline ∉ name) : lines name = [name] := splitOn_eq_singleton h

theorem joined_append (a b : List (List UInt8)) : joined (a ++ b) = joined a ++ joined b := by
  rw [joined, joined, joined, flatMap_append]

theorem lines_joined (names : List (List UInt8)) :
    lines (joined names) = names.flatMap lines ++ [[]] := by
  induction names with
  | nil => rfl
  | cons m ms ih =>
    have hjoined : joined (m :: ms) = m ++ newline :: joined ms := by simp [joined]
    rw [hjoined, lines_append_newline, ih, flatMap_cons, append_assoc]

theorem mem_lines_joined (hn : n ≠ []) :
    n ∈ lines (joined names) ↔ ∃ m ∈ names, n ∈ lines m := by
  rw [lines_joined, mem_append, mem_flatMap, mem_singleton, or_iff_left hn]

theorem newline_not_mem (h : n ∈ lines name) : newline ∉ n := not_mem_of_mem_splitOn h

theorem length_joined_le (names : List (List UInt8)) (name : List UInt8) :
    (joined names).length ≤ (joined (addName names name)).length := by
  rw [addName]
  split
  · rfl
  · rw [joined_append, length_append]
    exact Nat.le_add_right _ _

theorem length_joined_foldl_le (names written : List (List UInt8)) :
    (joined written).length ≤ (joined (names.foldl addName written)).length := by
  induction names generalizing written with
  | nil => exact le_rfl
  | cons m ms ih => exact (length_joined_le written m).trans (ih _)

/-- `append_name` adds a name if there is room. -/
theorem appendName_joined (hfits : (joined written).length ≤ capacity) :
    appendName capacity (joined written) name =
      if (joined (addName written name)).length ≤ capacity
      then some (joined (addName written name)) else none := by
  rw [appendName, addName]
  by_cases hmem : name ∈ lines (joined written)
  · have hmem' : name ∈ (joined written).splitOn newline := hmem
    rw [if_pos hmem', if_pos hmem, if_pos hfits]
  · have hmem' : name ∉ (joined written).splitOn newline := hmem
    have hjoined : joined (written ++ [name]) = joined written ++ name ++ [newline] := by
      rw [joined_append]
      simp [joined]
    rw [if_neg hmem', if_neg hmem, hjoined]
    simp only [length_append, length_singleton]
    by_cases hroom : capacity < (joined written).length + name.length + 1
    · rw [if_pos hroom, if_neg (by omega)]
    · rw [if_neg hroom, if_pos (by omega)]

theorem foldlM_appendName (names : List (List UInt8)) (hfits : (joined written).length ≤ capacity) :
    names.foldlM (appendName capacity) (joined written) =
      if (joined (names.foldl addName written)).length ≤ capacity
      then some (joined (names.foldl addName written)) else none := by
  induction names generalizing written with
  | nil =>
    rw [foldlM_nil, foldl_nil, if_pos hfits]
    rfl
  | cons m ms ih =>
    rw [foldlM_cons, foldl_cons, appendName_joined hfits]
    by_cases hroom : (joined (addName written m)).length ≤ capacity
    · rw [if_pos hroom]
      exact ih hroom
    · have hnever : ¬ (joined (ms.foldl addName (addName written m))).length ≤ capacity :=
        fun h => hroom ((length_joined_foldl_le ms _).trans h)
      rw [if_neg hroom, if_neg hnever]
      rfl

theorem mem_lines_collected (hn : n ≠ []) :
    n ∈ lines (joined (collected names)) ↔ ∃ m ∈ names, n ∈ lines m := by
  have hfold : ∀ (names written : List (List UInt8)),
      n ∈ lines (joined (names.foldl addName written)) ↔
        n ∈ lines (joined written) ∨ ∃ m ∈ names, n ∈ lines m := fun names => by
    induction names with
    | nil => simp
    | cons m ms ih =>
      intro written
      have hadd : n ∈ lines (joined (addName written m)) ↔
          n ∈ lines (joined written) ∨ n ∈ lines m := by
        rw [addName]
        split
        · rename_i hmem
          rw [lines_of_not_mem (newline_not_mem hmem), mem_singleton]
          exact ⟨Or.inl, fun h => h.elim id fun he => he ▸ hmem⟩
        · simp only [mem_lines_joined hn, mem_append, mem_singleton, or_and_right,
            exists_or, exists_eq_left]
      rw [foldl_cons, ih, hadd, or_assoc]
      simp only [mem_cons, or_and_right, exists_or, exists_eq_left]
  rw [collected, hfold, or_iff_right]
  rw [mem_lines_joined hn]
  simp

theorem mem_addName_iff (hn : n ≠ []) (hbreak : newline ∉ n) (hnames : ∀ m ∈ names, newline ∉ m) :
    n ∈ lines (joined names) ↔ n ∈ names := by
  rw [mem_lines_joined hn]
  constructor
  · rintro ⟨m, hm, hmem⟩
    rw [lines_of_not_mem (hnames m hm), mem_singleton] at hmem
    exact hmem ▸ hm
  · intro hmem
    exact ⟨n, hmem, by rw [lines_of_not_mem hbreak]; exact mem_singleton_self n⟩

/-- Names without line breaks are collected once. -/
theorem collected_spec (hnames : ∀ m ∈ names, m ≠ [] ∧ newline ∉ m) :
    (collected names).Nodup ∧ ∀ m, m ∈ collected names ↔ m ∈ names := by
  have hfold : ∀ (names written : List (List UInt8)), (∀ m ∈ names, m ≠ [] ∧ newline ∉ m) →
      (∀ m ∈ written, newline ∉ m) → written.Nodup →
      (names.foldl addName written).Nodup ∧
        ∀ m, m ∈ names.foldl addName written ↔ m ∈ written ∨ m ∈ names := fun names => by
    induction names with
    | nil => exact fun _ _ _ hnodup => ⟨hnodup, fun m => by simp⟩
    | cons m ms ih =>
      intro written hnames hwritten hnodup
      obtain ⟨hne, hbreak⟩ := hnames m mem_cons_self
      have hrest := fun x hx => hnames x (mem_cons_of_mem m hx)
      rw [foldl_cons, addName]
      simp only [mem_addName_iff hne hbreak hwritten]
      split
      · rename_i hmem
        obtain ⟨hnodup', hiff⟩ := ih written hrest hwritten hnodup
        refine ⟨hnodup', fun x => ?_⟩
        rw [hiff, mem_cons]
        exact ⟨fun h => h.imp_right Or.inr, fun h => h.elim Or.inl fun h =>
          h.elim (fun he => Or.inl (he ▸ hmem)) Or.inr⟩
      · rename_i hmem
        have hwritten' : ∀ x ∈ written ++ [m], newline ∉ x := fun x hx => by
          rw [mem_append, mem_singleton] at hx
          exact hx.elim (hwritten x) fun he => he ▸ hbreak
        have hnodup' : (written ++ [m]).Nodup := by
          rw [nodup_append]
          refine ⟨hnodup, nodup_singleton m, fun x hx y hy => ?_⟩
          rw [mem_singleton.mp hy]
          exact fun he => hmem (he ▸ hx)
        obtain ⟨hnodup'', hiff⟩ := ih _ hrest hwritten' hnodup'
        refine ⟨hnodup'', fun x => ?_⟩
        rw [hiff, mem_append, mem_singleton, mem_cons, or_assoc]
  obtain ⟨hnodup, hiff⟩ := hfold names [] hnames (by simp) nodup_nil
  exact ⟨hnodup, fun m => by rw [collected, hiff]; simp⟩

theorem count_lines_collected (hnames : ∀ m ∈ names, m ≠ [] ∧ newline ∉ m) (hn : n ≠ []) :
    (lines (joined (collected names))).count n = if n ∈ names then 1 else 0 := by
  obtain ⟨hnodup, hiff⟩ := collected_spec hnames
  have hlines : (collected names).flatMap lines = collected names := by
    have hmap : ∀ l : List (List UInt8), (∀ m ∈ l, newline ∉ m) → l.flatMap lines = l := fun l => by
      induction l with
      | nil => exact fun _ => rfl
      | cons m ms ih =>
        intro h
        rw [flatMap_cons, lines_of_not_mem (h m mem_cons_self),
          ih fun x hx => h x (mem_cons_of_mem m hx)]
        rfl
    exact hmap _ fun m hm => (hnames m ((hiff m).mp hm)).2
  rw [lines_joined, hlines, count_append, hnodup.count, count_singleton]
  have hne : ([] == n) = false := by simpa using Ne.symm hn
  simp only [hiff, hne]
  rfl

end Lines

/-! ### Names -/

/-- The path of a name in a directory. -/
def child (parent name : List UInt8) : List UInt8 :=
  if parent = [] then name else parent ++ slash :: name

/-- Whether a name of the archive makes a path that a listing can check. -/
def joins (parent name : List UInt8) : Bool := (joinChild parent name).any validUtf8

/-- The names that the archive has for a directory. -/
def archivedNames (fs : RamFs) (d : List UInt8) : List (List UInt8) :=
  (lines (if kindAt fs d ≠ .opaqueDirectory ∧ Archive.isDirectory fs.archive d then
    (Archive.listDirectory fs.archive d 4096).getD [] else [])).filter (· ≠ [])

/-- The name that a node has for a directory. -/
def nodeName (d : List UInt8) (node : OverlayNode) : Option (List UInt8) :=
  if node.kind.isVisible then (immediateChild node.path d).join else none

/-- The names for a directory. -/
def contributed (fs : RamFs) (includeHidden : Bool) (d : List UInt8) : List (List UInt8) :=
  (((archivedNames fs d).filter fun name => !isHidden fs (child d name)) ++
    (List.finRange maxOverlayNodes).filterMap fun i => nodeName d (fs.overlay i)).filter
      (isListed includeHidden)

section Names

variable {fs : RamFs} {d n : List UInt8} {includeHidden : Bool} {capacity : ℕ}

theorem joinChild_eq_some {c : List UInt8} (h : joinChild d n = some c) : c = child d n := by
  have hchild : joinChild d n =
      if maxPath < (child d n).length then none else some (child d n) := rfl
  rw [hchild] at h
  split at h
  · exact absurd h (by simp)
  · exact (Option.some.inj h).symm

theorem listArchiveNames_eq (names : List (List UInt8)) (written : List UInt8) :
    listArchiveNames fs d includeHidden capacity names written =
      if ∀ m ∈ names.filter (· ≠ []), joins d m = true then
        (((names.filter (· ≠ [])).filter fun name => !isHidden fs (child d name)).filter
          (isListed includeHidden)).foldlM (appendName capacity) written
      else none := by
  induction names generalizing written with
  | nil => rfl
  | cons m ms ih =>
    rw [listArchiveNames]
    by_cases hm : m = []
    · rw [if_pos hm, filter_cons_of_neg (by simp [hm])]
      exact ih written
    rw [if_neg hm, filter_cons_of_pos (by simp [hm])]
    simp only [forall_mem_cons]
    cases hjoin : joinChild d m with
    | none =>
      rw [if_neg fun h => ?_]
      · rfl
      · rw [joins, hjoin] at h
        exact absurd h.1 (by simp)
    | some c =>
      obtain rfl := joinChild_eq_some hjoin
      have hjoins : joins d m = validUtf8 (child d m) := by
        rw [joins, hjoin]
        rfl
      dsimp only [Option.bind_eq_bind, Option.bind_some]
      rw [hjoins]
      cases hvalid : validUtf8 (child d m) with
      | false => simp
      | true =>
        rw [if_neg (by simp)]
        simp only [true_and]
        by_cases hshown : (!isHidden fs (child d m)) = true ∧ isListed includeHidden m = true
        · rw [if_pos hshown]
          simp only [filter_cons, hshown.1, hshown.2, if_true, foldlM_cons]
          cases happend : appendName capacity written m with
          | none => simp
          | some written' => exact ih written'
        · have hleft : ((m :: ms.filter (· ≠ [])).filter fun name =>
              !isHidden fs (child d name)).filter (isListed includeHidden) =
              ((ms.filter (· ≠ [])).filter fun name => !isHidden fs (child d name)).filter
                (isListed includeHidden) := by
            cases hhidden : isHidden fs (child d m) with
            | true => rw [filter_cons_of_neg (by simp [hhidden])]
            | false =>
              rw [filter_cons_of_pos (by simp [hhidden]),
                filter_cons_of_neg fun hl => hshown ⟨by simp [hhidden], hl⟩]
          rw [if_neg hshown, hleft]
          exact ih written

theorem listOverlayNodes_eq (slots : List (Fin maxOverlayNodes)) (written : List UInt8) :
    listOverlayNodes fs d includeHidden capacity slots written =
      ((slots.filterMap fun i => nodeName d (fs.overlay i)).filter
        (isListed includeHidden)).foldlM (appendName capacity) written := by
  induction slots generalizing written with
  | nil => rfl
  | cons i is ih =>
    rw [listOverlayNodes, filterMap_cons]
    have hname : nodeName d (fs.overlay i) = Option.join
        (if (fs.overlay i).kind.isVisible then immediateChild (fs.overlay i).path d else none) := by
      rw [nodeName]
      split <;> rfl
    rw [hname]
    dsimp only
    generalize (if (fs.overlay i).kind.isVisible = true then immediateChild (fs.overlay i).path d
      else none) = name
    rcases name with _ | _ | name
    · exact ih written
    · exact ih written
    · simp only [Option.join_some]
      by_cases hlisted : isListed includeHidden name = true
      · rw [if_pos hlisted, filter_cons_of_pos hlisted, foldlM_cons]
        cases appendName capacity written name with
        | none => rfl
        | some written' => exact ih written'
      · rw [if_neg hlisted, filter_cons_of_neg hlisted]
        exact ih written

/-- The listing of a directory. -/
def listing (fs : RamFs) (includeHidden : Bool) (d : List UInt8) : List UInt8 :=
  joined (collected (contributed fs includeHidden d))

/-- **A listing is all there or an error.** -/
theorem listDirectoryOverlay_eq (hd : Canonical d) (hdev : d ≠ devPath) :
    listDirectoryOverlay fs d includeHidden capacity =
      if isDirectoryOverlay fs d = true ∧ (∀ m ∈ archivedNames fs d, joins d m = true) ∧
        (listing fs includeHidden d).length ≤ capacity
      then some (listing fs includeHidden d) else none := by
  rw [listDirectoryOverlay, canonicalPath_of_canonical hd]
  dsimp only [Option.bind_eq_bind, Option.bind_some]
  by_cases hdirectory : isDirectoryOverlay fs d = true
  · rw [if_neg (by simp [hdirectory]), if_neg hdev, listArchiveNames_eq]
    change (if ∀ m ∈ archivedNames fs d, joins d m = true then _ else none : Option _).bind _ = _
    by_cases hjoins : ∀ m ∈ archivedNames fs d, joins d m = true
    · rw [if_pos hjoins]
      simp only [listOverlayNodes_eq]
      have hempty : (joined []).length ≤ capacity := Nat.zero_le _
      have hfold := foldlM_appendName (contributed fs includeHidden d) hempty
      have hfits : (isDirectoryOverlay fs d = true ∧ (∀ m ∈ archivedNames fs d, joins d m = true) ∧
          (listing fs includeHidden d).length ≤ capacity) ↔
          (listing fs includeHidden d).length ≤ capacity :=
        ⟨fun h => h.2.2, fun h => ⟨hdirectory, hjoins, h⟩⟩
      simp only [hfits]
      refine Eq.trans ?_ hfold
      rw [contributed, filter_append, foldlM_append]
      rfl
    · rw [if_neg hjoins, if_neg fun h => hjoins h.2.1]
      rfl
  · rw [if_pos (by simp [hdirectory]), if_neg fun h => hdirectory h.1]

/-- What a listing has, if there is room for it. -/
def Listed (fs : RamFs) (includeHidden : Bool) (d n : List UInt8) : Prop :=
  ∃ capacity out, listDirectoryOverlay fs d includeHidden capacity = some out ∧ n ∈ lines out

/-- **What is listed.** -/
theorem listed_iff (hd : Canonical d) (hdev : d ≠ devPath) (hn : n ≠ []) :
    Listed fs includeHidden d n ↔ isDirectoryOverlay fs d = true ∧
      (∀ m ∈ archivedNames fs d, joins d m = true) ∧
      ∃ m ∈ contributed fs includeHidden d, n ∈ lines m := by
  constructor
  · rintro ⟨capacity, out, hout, hmem⟩
    rw [listDirectoryOverlay_eq hd hdev] at hout
    split at hout
    · rename_i h
      rw [← Option.some.inj hout, listing, mem_lines_collected hn] at hmem
      exact ⟨h.1, h.2.1, hmem⟩
    · exact absurd hout (by simp)
  · rintro ⟨hdirectory, hjoins, hmem⟩
    refine ⟨(listing fs includeHidden d).length, listing fs includeHidden d, ?_,
      (mem_lines_collected hn).mpr hmem⟩
    rw [listDirectoryOverlay_eq hd hdev]
    exact if_pos ⟨hdirectory, hjoins, le_rfl⟩

end Names

/-! ### Names of nodes -/

section NodeNames

variable {node : OverlayNode} {d m p : List UInt8}

theorem slash_not_mem_firstComponent (p : List UInt8) : slash ∉ firstComponent p := fun h => by
  have hall := all_eq_true.mp (all_takeWhile (p := fun b : UInt8 => b ≠ slash) (l := p))
    slash h
  simp at hall

theorem firstComponent_append (hm : slash ∉ m) (rest : List UInt8) :
    firstComponent (m ++ rest) = m ++ firstComponent rest := by
  refine takeWhile_append_of_pos fun x hx => decide_eq_true fun he => hm ?_
  rw [← he]
  exact hx

theorem firstComponent_eq_iff : firstComponent p = m ↔
    slash ∉ m ∧ (p = m ∨ ∃ rest, p = m ++ slash :: rest) := by
  constructor
  · rintro rfl
    refine ⟨slash_not_mem_firstComponent p, ?_⟩
    have hsplit := takeWhile_append_dropWhile (p := fun b : UInt8 => decide (b ≠ slash))
      (l := p)
    cases hd : p.dropWhile fun b : UInt8 => decide (b ≠ slash) with
    | nil =>
      rw [hd, append_nil] at hsplit
      exact Or.inl hsplit.symm
    | cons c rest =>
      have hc := head_dropWhile_not (fun b : UInt8 => decide (b ≠ slash)) (l := p)
        (by rw [hd]; simp)
      simp only [hd, head_cons, decide_eq_false_iff_not, not_not] at hc
      rw [hd, hc] at hsplit
      exact Or.inr ⟨rest, hsplit.symm⟩
  · rintro ⟨hm, rfl | ⟨rest, rfl⟩⟩
    · have h := firstComponent_append hm []
      have hnil : firstComponent [] = [] := rfl
      rwa [hnil, append_nil] at h
    · rw [firstComponent_append hm]
      simp [firstComponent]

theorem child_ne_nil (hm : m ≠ []) : child d m ≠ [] := by
  rw [child]
  split
  · exact hm
  · simp

theorem relativePath_eq_some {r : List UInt8} (hd : d ≠ []) :
    relativePath p d = some r ↔ p = d ++ slash :: r := by
  rw [relativePath, if_neg hd, Option.bind_eq_some_iff]
  constructor
  · rintro ⟨suffix, hsuffix, hr⟩
    rw [stripPrefix_eq_some.mp hsuffix, stripPrefix_eq_some.mp hr]
    rfl
  · rintro rfl
    exact ⟨slash :: r, stripPrefix_eq_some.mpr rfl, stripPrefix_eq_some.mpr rfl⟩

theorem firstComponent_clean_iff (hp : CleanPath p) : firstComponent p = m ↔
    slash ∉ m ∧ m ≠ [] ∧ (p = m ∨ isChildPath p m = true) := by
  rw [firstComponent_eq_iff]
  refine and_congr_right fun _ => ?_
  constructor
  · rintro (rfl | ⟨rest, rfl⟩)
    · exact ⟨hp.ne_nil, Or.inl rfl⟩
    · have hm := (cleanPath_append.mp hp).1.ne_nil
      exact ⟨hm, Or.inr ((isChildPath_iff hm).mpr ⟨rest, rfl⟩)⟩
  · rintro ⟨hm, h⟩
    exact h.imp_right (isChildPath_iff hm).mp

/-- The name of a node in a directory is the next component of its path. -/
theorem immediateChild_eq (hp : CleanPath p) :
    immediateChild p d = some (some m) ↔
      slash ∉ m ∧ m ≠ [] ∧ (p = child d m ∨ isChildPath p (child d m) = true) := by
  rw [immediateChild]
  by_cases hroot : d = []
  · subst hroot
    have hchild : child [] m = m := rfl
    rw [if_neg (by simp), relativePath, if_pos rfl, hchild, ← firstComponent_clean_iff hp]
    simp only [Option.map_some, Option.some.injEq, if_neg hp.ne_nil]
  · have hchild : child d m = d ++ slash :: m := if_neg hroot
    have hbelow : (p = child d m ∨ isChildPath p (child d m) = true) →
        ∃ r, p = d ++ slash :: r ∧ (r = m ∨ ∃ rest, r = m ++ slash :: rest) := by
      rw [isChildPath_iff (by rw [hchild]; simp), hchild]
      rintro (rfl | ⟨rest, rfl⟩)
      · exact ⟨m, rfl, Or.inl rfl⟩
      · exact ⟨m ++ slash :: rest, by simp, Or.inr ⟨rest, rfl⟩⟩
    by_cases hself : p = d
    · rw [if_pos ⟨hroot, hself⟩]
      refine iff_of_false (by simp) fun h => ?_
      obtain ⟨r, hr, -⟩ := hbelow h.2.2
      have hlength := congrArg List.length (hself.symm.trans hr)
      simp at hlength
    · rw [if_neg fun h => hself h.2]
      cases hrelative : relativePath p d with
      | none =>
        refine iff_of_false (by simp) fun h => ?_
        obtain ⟨r, hr, -⟩ := hbelow h.2.2
        exact absurd (hrelative.symm.trans ((relativePath_eq_some hroot).mpr hr)) (by simp)
      | some r =>
        obtain rfl := (relativePath_eq_some hroot).mp hrelative
        have hr := (cleanPath_append.mp hp).2
        simp only [Option.map_some, Option.some.injEq, if_neg hr.ne_nil]
        rw [firstComponent_clean_iff hr]
        refine and_congr_right fun _ => and_congr_right fun hm => ?_
        rw [isChildPath_iff hm, isChildPath_iff (child_ne_nil hm), hchild]
        simp

theorem nodeName_eq_some (hnode : CleanPath node.path) : nodeName d node = some m ↔
    node.kind.isVisible = true ∧ slash ∉ m ∧ m ≠ [] ∧
      (node.path = child d m ∨ isChildPath node.path (child d m) = true) := by
  rw [nodeName]
  split
  · rename_i hvisible
    rw [Option.join_eq_some_iff, immediateChild_eq hnode, and_iff_right hvisible]
  · rename_i hvisible
    exact iff_of_false (by simp) fun h => hvisible h.1

end NodeNames

end ImagineOS.Overlay
