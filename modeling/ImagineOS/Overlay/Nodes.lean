import ImagineOS.Overlay.RamFs

/-!
# Overlay: the table of nodes

A node that is put in the place of another one has its path, so there is one node for each path at
most. A node has a parent: the root, a directory of the archive, or the path of another node. Nodes
are given up together with all that is below them, so the latter stays.
-/

namespace ImagineOS.Overlay

section Find

variable {n : ℕ} {p q : Fin n → Bool} {i : Fin n}

theorem find_finRange_unique (hi : p i = true) (hunique : ∀ j, p j = true → j = i) :
    (List.finRange n).find? p = some i := by
  cases h : (List.finRange n).find? p with
  | none => exact absurd hi (List.find?_eq_none.mp h i (List.mem_finRange i))
  | some j => rw [hunique j (List.find?_some h)]

theorem find_finRange_eq_none : (List.finRange n).find? p = none ↔ ∀ i, p i = false := by
  simp [List.find?_eq_none]

theorem find_finRange_congr (h : ∀ i, p i = q i) :
    (List.finRange n).find? p = (List.finRange n).find? q := by
  rw [funext h]

end Find

/-! ### Paths -/

section Paths

variable {path p q r : List UInt8}

/-- A path in canonical form: the root, or a clean path. -/
def Canonical (p : List UInt8) : Prop := p = [] ∨ CleanPath p

theorem canonical_of_canonicalPath (h : canonicalPath path = some p) : Canonical p := by
  rw [canonicalPath] at h
  split at h
  · rename_i hnil
    exact Or.inl ((Option.some.inj h).symm.trans hnil)
  · dsimp only at h
    split at h
    · rename_i hnil
      exact Or.inl ((Option.some.inj h).symm.trans hnil)
    · split at h
      · rename_i hclean
        rw [← Option.some.inj h]
        exact Or.inr hclean
      · exact absurd h (by simp)

@[simp] theorem canonicalPath_of_canonical (h : Canonical p) : canonicalPath p = some p := by
  rcases h with rfl | h
  · rfl
  · rw [canonicalPath, if_neg h.ne_nil, h.stripPrefix_slash]
    dsimp only [Option.getD_none]
    rw [if_neg h.ne_nil, if_pos h]

theorem Canonical.parent (h : CleanPath p) : Canonical (parentPath p) := h.parentPath

theorem cleanPath_devPath : CleanPath devPath := by decide

theorem isChildPath_iff (hp : p ≠ []) : isChildPath q p = true ↔ ∃ r, q = p ++ slash :: r := by
  rw [isChildPath, if_neg hp, startsBelow_iff]

theorem isChildPath_trans (hp : p ≠ []) (hq : q ≠ []) (h : isChildPath r q = true)
    (h' : isChildPath q p = true) : isChildPath r p = true := by
  obtain ⟨a, rfl⟩ := (isChildPath_iff hp).mp h'
  obtain ⟨b, rfl⟩ := (isChildPath_iff hq).mp h
  exact (isChildPath_iff hp).mpr ⟨a ++ slash :: b, by simp⟩

end Paths

/-! ### Nodes -/

section Nodes

variable {fs : RamFs} {p q : List UInt8} {i j : Fin maxOverlayNodes} {node : OverlayNode}

def Rooted (fs : RamFs) (p : List UInt8) : Prop :=
  p = [] ∨ p = devPath ∨ (findOverlayNode fs p).isSome = true ∨
    Archive.isDirectory fs.archive p = true

/-- Nodes have different paths, in canonical form and not too long. -/
structure Nodes (fs : RamFs) : Prop where
  distinct : ∀ i j, (fs.overlay i).kind ≠ .empty → (fs.overlay j).kind ≠ .empty →
    (fs.overlay i).path = (fs.overlay j).path → i = j
  clean : ∀ i, (fs.overlay i).kind ≠ .empty → CleanPath (fs.overlay i).path
  short : ∀ i, (fs.overlay i).kind ≠ .empty → (fs.overlay i).path.length ≤ maxPath
  dev : ∀ i, (fs.overlay i).kind ≠ .empty → (fs.overlay i).path ≠ devPath
  parent : ∀ i, (fs.overlay i).kind ≠ .empty → Rooted fs (parentPath (fs.overlay i).path)

theorem findOverlayNode_eq_none :
    findOverlayNode fs p = none ↔ ∀ i, (fs.overlay i).kind ≠ .empty → (fs.overlay i).path ≠ p := by
  rw [findOverlayNode, find_finRange_eq_none]
  refine forall_congr' fun i => ?_
  rw [decide_eq_false_iff_not, not_and]

theorem of_findOverlayNode (h : findOverlayNode fs p = some i) :
    (fs.overlay i).kind ≠ .empty ∧ (fs.overlay i).path = p := by
  simpa using List.find?_some h

theorem Nodes.find (h : Nodes fs) (hkind : (fs.overlay i).kind ≠ .empty) :
    findOverlayNode fs (fs.overlay i).path = some i := by
  refine find_finRange_unique (by simp [hkind]) fun j hj => ?_
  simp only [decide_eq_true_eq] at hj
  exact h.distinct j i hj.1 hkind hj.2

theorem Nodes.findOverlayNode_eq_some (h : Nodes fs) :
    findOverlayNode fs p = some i ↔ (fs.overlay i).kind ≠ .empty ∧ (fs.overlay i).path = p := by
  constructor
  · exact of_findOverlayNode
  · rintro ⟨hkind, rfl⟩
    exact h.find hkind

theorem slotFor_cases (h : slotFor fs p = some i) :
    findOverlayNode fs p = some i ∨
      (findOverlayNode fs p = none ∧ (fs.overlay i).kind = .empty) := by
  rw [slotFor] at h
  cases hfind : findOverlayNode fs p with
  | some j =>
    rw [hfind, Option.some_or] at h
    exact Or.inl h
  | none =>
    rw [hfind, Option.none_or] at h
    exact Or.inr ⟨rfl, by simpa using List.find?_some h⟩

theorem slotFor_path (h : slotFor fs p = some i) (hkind : (fs.overlay i).kind ≠ .empty) :
    (fs.overlay i).path = p := by
  rcases slotFor_cases h with hfind | ⟨-, hempty⟩
  · exact (of_findOverlayNode hfind).2
  · exact absurd hempty hkind

@[simp] theorem overlay_setNode_self : (fs.setNode i node).overlay i = node :=
  Function.update_self _ _ _

@[simp] theorem overlay_setNode_of_ne (hij : j ≠ i) :
    (fs.setNode i node).overlay j = fs.overlay j :=
  Function.update_of_ne hij _ _

theorem findOverlayNode_setNode_of_ne (hslot : slotFor fs node.path = some i) (hq : q ≠ node.path) :
    findOverlayNode (fs.setNode i node) q = findOverlayNode fs q := by
  refine find_finRange_congr fun j => ?_
  by_cases hj : j = i
  · subst hj
    rw [overlay_setNode_self]
    have hold : ¬ ((fs.overlay j).kind ≠ .empty ∧ (fs.overlay j).path = q) := fun h =>
      hq (h.2.symm.trans (slotFor_path hslot h.1))
    simp [Ne.symm hq, hold]
  · rw [overlay_setNode_of_ne hj]

theorem Nodes.path_ne (h : Nodes fs) (hslot : slotFor fs p = some i) (hj : j ≠ i)
    (hkind : (fs.overlay j).kind ≠ .empty) : (fs.overlay j).path ≠ p := fun hpath => by
  rcases slotFor_cases hslot with hfind | ⟨hnone, -⟩
  · obtain ⟨hkind', hpath'⟩ := of_findOverlayNode hfind
    exact hj (h.distinct j i hkind hkind' (hpath.trans hpath'.symm))
  · exact findOverlayNode_eq_none.mp hnone j hkind hpath

theorem Nodes.find_setNode (h : Nodes fs) (hslot : slotFor fs node.path = some i)
    (hkind : node.kind ≠ .empty) : findOverlayNode (fs.setNode i node) node.path = some i := by
  refine find_finRange_unique (by simp [hkind]) fun j hj => ?_
  simp only [decide_eq_true_eq] at hj
  by_contra hji
  rw [overlay_setNode_of_ne hji] at hj
  exact h.path_ne hslot hji hj.1 hj.2

/-- Another node. -/
theorem Nodes.setNode (h : Nodes fs) (hslot : slotFor fs node.path = some i)
    (hkind : node.kind ≠ .empty) (hclean : CleanPath node.path)
    (hshort : node.path.length ≤ maxPath)
    (hdev : node.path ≠ devPath) (hparent : Rooted fs (parentPath node.path)) :
    Nodes (fs.setNode i node) := by
  have hcases : ∀ j, ((fs.setNode i node).overlay j = node ∧ j = i) ∨
      ((fs.setNode i node).overlay j = fs.overlay j ∧ j ≠ i) := fun j => by
    by_cases hj : j = i
    · subst hj
      exact Or.inl ⟨overlay_setNode_self, rfl⟩
    · exact Or.inr ⟨overlay_setNode_of_ne hj, hj⟩
  have hrooted : ∀ q, Rooted fs q → Rooted (fs.setNode i node) q := fun q hq => by
    rcases hq with hq | hq | hq | hq
    · exact Or.inl hq
    · exact Or.inr (Or.inl hq)
    · refine Or.inr (Or.inr (Or.inl ?_))
      by_cases hpath : q = node.path
      · rw [hpath, h.find_setNode hslot hkind]
        rfl
      · rw [findOverlayNode_setNode_of_ne hslot hpath]
        exact hq
    · exact Or.inr (Or.inr (Or.inr hq))
  refine ⟨fun j k hj hk heq => ?_, fun j hj => ?_, fun j hj => ?_, fun j hj => ?_, fun j hj => ?_⟩
  · rcases hcases j with ⟨hj', hji⟩ | ⟨hj', hji⟩ <;> rcases hcases k with ⟨hk', hki⟩ | ⟨hk', hki⟩
    · rw [hji, hki]
    · rw [hk'] at hk
      rw [hj', hk'] at heq
      exact absurd heq.symm (h.path_ne hslot hki hk)
    · rw [hj'] at hj
      rw [hj', hk'] at heq
      exact absurd heq (h.path_ne hslot hji hj)
    · rw [hj'] at hj heq
      rw [hk'] at hk heq
      exact h.distinct j k hj hk heq
  · rcases hcases j with ⟨hj', -⟩ | ⟨hj', -⟩ <;> rw [hj'] at hj ⊢
    · exact hclean
    · exact h.clean j hj
  · rcases hcases j with ⟨hj', -⟩ | ⟨hj', -⟩ <;> rw [hj'] at hj ⊢
    · exact hshort
    · exact h.short j hj
  · rcases hcases j with ⟨hj', -⟩ | ⟨hj', -⟩ <;> rw [hj'] at hj ⊢
    · exact hdev
    · exact h.dev j hj
  · rcases hcases j with ⟨hj', -⟩ | ⟨hj', -⟩ <;> rw [hj'] at hj ⊢
    · exact hrooted _ hparent
    · exact hrooted _ (h.parent j hj)

/-- Which nodes stay when those below a path are given up. -/
def Stays (p : List UInt8) (node : OverlayNode) : Prop :=
  node.path ≠ p ∧ isChildPath node.path p = false

theorem overlay_removeNodes (p : List UInt8) (fs : RamFs) (j : Fin maxOverlayNodes) :
    (removeNodes p fs).overlay j = fs.overlay j ∧ Stays p (fs.overlay j) ∨
      ((removeNodes p fs).overlay j).kind = .empty ∧
        ((fs.overlay j).kind = .empty ∨ ¬ Stays p (fs.overlay j)) := by
  have hoverlay : (removeNodes p fs).overlay j = if (fs.overlay j).kind ≠ .empty ∧
      ((fs.overlay j).path = p ∨ isChildPath (fs.overlay j).path p = true) then .empty
      else fs.overlay j := rfl
  rw [hoverlay]
  by_cases hstays : Stays p (fs.overlay j)
  · refine Or.inl ⟨if_neg fun h => ?_, hstays⟩
    rcases h.2 with h | h
    · exact hstays.1 h
    · exact absurd (hstays.2.symm.trans h) (by simp)
  · right
    split
    · exact ⟨rfl, Or.inr hstays⟩
    · rename_i hkept
      have hkind : (fs.overlay j).kind = .empty := by
        by_contra hne
        refine hstays ⟨fun h => hkept ⟨hne, Or.inl h⟩, Bool.eq_false_iff.mpr fun h =>
          hkept ⟨hne, Or.inr h⟩⟩
      exact ⟨hkind, Or.inl hkind⟩

theorem findOverlayNode_removeNodes (hq : q ≠ p) (hchild : isChildPath q p = false) :
    findOverlayNode (removeNodes p fs) q = findOverlayNode fs q := by
  refine find_finRange_congr fun j => ?_
  rcases overlay_removeNodes p fs j with ⟨heq, -⟩ | ⟨hempty, hold⟩
  · rw [heq]
  · have hnew : ¬ (((removeNodes p fs).overlay j).kind ≠ .empty ∧
        ((removeNodes p fs).overlay j).path = q) := fun h => h.1 hempty
    have hnone : ¬ ((fs.overlay j).kind ≠ .empty ∧ (fs.overlay j).path = q) := fun h => by
      rcases hold with hold | hold
      · exact h.1 hold
      · refine hold ⟨?_, ?_⟩ <;> rw [h.2]
        · exact hq
        · exact hchild
    rw [decide_eq_false hnew, decide_eq_false hnone]

theorem findOverlayNode_removeNodes_self (hq : q = p ∨ isChildPath q p = true) :
    findOverlayNode (removeNodes p fs) q = none := by
  rw [findOverlayNode_eq_none]
  intro j hj hpath
  rcases overlay_removeNodes p fs j with ⟨heq, hstays⟩ | ⟨hempty, -⟩
  · rw [heq] at hpath
    rcases hq with hq | hq
    · exact hstays.1 (hpath.trans hq)
    · rw [← hpath] at hq
      exact absurd (hstays.2.symm.trans hq) (by simp)
  · exact hj hempty

/-- Nodes are given up with all that is below them. -/
theorem Nodes.removeNodes (h : Nodes fs) (hp : p ≠ []) : Nodes (removeNodes p fs) := by
  have hold : ∀ j, ((Overlay.removeNodes p fs).overlay j).kind ≠ .empty →
      (Overlay.removeNodes p fs).overlay j = fs.overlay j ∧ Stays p (fs.overlay j) := fun j hj =>
    (overlay_removeNodes p fs j).resolve_right fun hr => hj hr.1
  refine ⟨fun j k hj hk heq => ?_, fun j hj => ?_, fun j hj => ?_, fun j hj => ?_, fun j hj => ?_⟩
  · obtain ⟨hj', -⟩ := hold j hj
    obtain ⟨hk', -⟩ := hold k hk
    rw [hj'] at hj heq
    rw [hk'] at hk heq
    exact h.distinct j k hj hk heq
  all_goals
    obtain ⟨hj', hstays⟩ := hold j hj
    rw [hj'] at hj ⊢
  · exact h.clean j hj
  · exact h.short j hj
  · exact h.dev j hj
  · rcases h.parent j hj with hroot | hdev | hfind | harchive
    · exact Or.inl hroot
    · exact Or.inr (Or.inl hdev)
    · refine Or.inr (Or.inr (Or.inl ?_))
      -- The parent is not below the path either, for the node would be.
      rcases slash_cases (fs.overlay j).path with hno | ⟨a, b, hab, hb⟩
      · rw [parentPath_of_not_mem hno] at hfind
        exfalso
        obtain ⟨k, hk⟩ := Option.isSome_iff_exists.mp hfind
        obtain ⟨hk, hpath⟩ := of_findOverlayNode hk
        exact (h.clean k hk).ne_nil hpath
      · have hparent : parentPath (fs.overlay j).path = a := by rw [hab, parentPath_append hb]
        rw [hparent] at hfind ⊢
        have hchild : isChildPath (fs.overlay j).path a = true := by
          rw [isChildPath]
          split
          · simpa using (h.clean j hj).ne_nil
          · exact startsBelow_iff.mpr ⟨b, hab⟩
        rw [findOverlayNode_removeNodes (fun he => ?_) (Bool.eq_false_iff.mpr fun hbelow => ?_)]
        · exact hfind
        · rw [he] at hchild
          exact absurd (hstays.2.symm.trans hchild) (by simp)
        · have hane : a ≠ [] := fun he => by
            rw [he, isChildPath, if_neg hp] at hbelow
            obtain ⟨r, hr⟩ := startsBelow_iff.mp hbelow
            exact absurd hr (by simp)
          have htrans := isChildPath_trans hp hane hchild hbelow
          exact absurd (hstays.2.symm.trans htrans) (by simp)
    · exact Or.inr (Or.inr (Or.inr harchive))

theorem parent_of_child (hp : CleanPath p) (hchild : isChildPath p q = true) :
    parentPath p = q ∨ isChildPath (parentPath p) q = true := by
  rcases slash_cases p with hno | ⟨a, b, rfl, hb⟩
  · rw [parentPath_of_not_mem hno]
    by_cases hq : q = []
    · exact Or.inl hq.symm
    · obtain ⟨r, hr⟩ := (isChildPath_iff hq).mp hchild
      exact absurd (hr ▸ List.mem_append_right _ List.mem_cons_self : slash ∈ p) hno
  · rw [parentPath_append hb]
    by_cases hq : q = []
    · subst hq
      have ha : a ≠ [] := (cleanPath_append.mp hp).1.ne_nil
      exact Or.inr (by simp [isChildPath, ha])
    obtain ⟨r, hr⟩ := (isChildPath_iff hq).mp hchild
    rcases slash_cases r with hno | ⟨c, d, rfl, hd⟩
    · left
      have h := congrArg parentPath hr
      rwa [parentPath_append hb, parentPath_append hno] at h
    · right
      have h := congrArg parentPath hr
      rw [parentPath_append hb, ← List.cons_append, ← List.append_assoc, parentPath_append hd] at h
      exact (isChildPath_iff hq).mpr ⟨c, h⟩

theorem isDirectory_of_child (hq : CleanPath q) (h : Archive.isDirectory fs.archive p = true)
    (hchild : isChildPath p q = true) : Archive.isDirectory fs.archive q = true := by
  obtain ⟨r, rfl⟩ := (isChildPath_iff hq.ne_nil).mp hchild
  exact Archive.isDirectory_of_below hq h

theorem isDirectory_nil (bytes : List UInt8) : Archive.isDirectory bytes [] = true := by
  simp [Archive.isDirectory, trimStart]

theorem isDirectory_of_isFile_child (hq : CleanPath q) (h : Archive.isFile fs.archive p = true)
    (hchild : isChildPath p q = true) : Archive.isDirectory fs.archive q = true := by
  obtain ⟨r, rfl⟩ := (isChildPath_iff hq.ne_nil).mp hchild
  exact Archive.isDirectory_of_isFile hq h

theorem not_isChildPath_nil : isChildPath [] q = false := by
  by_cases hq : q = []
  · simp [isChildPath, hq]
  · refine Bool.eq_false_iff.mpr fun h => ?_
    obtain ⟨r, hr⟩ := (isChildPath_iff hq).mp h
    simp at hr

theorem not_isChildPath_devPath (hq : CleanPath q) : isChildPath devPath q = false := by
  refine Bool.eq_false_iff.mpr fun h => ?_
  obtain ⟨r, hr⟩ := (isChildPath_iff hq.ne_nil).mp h
  have hmem : slash ∈ devPath := hr ▸ List.mem_append_right _ List.mem_cons_self
  exact absurd hmem (by decide)

/-- **Whatever is above a node is there too.** -/
theorem Nodes.rooted_of_child (h : Nodes fs) (hq : CleanPath q)
    (hkind : (fs.overlay i).kind ≠ .empty)
    (hchild : isChildPath (fs.overlay i).path q = true) : Rooted fs q := by
  induction hn : (fs.overlay i).path.length using Nat.strong_induction_on generalizing i with
  | _ n ih =>
    subst hn
    have hclean := h.clean i hkind
    rcases parent_of_child hclean hchild with heq | hbelow
    · rw [← heq]
      exact h.parent i hkind
    · rcases h.parent i hkind with hroot | hdev | hfind | harchive
      · rw [hroot, not_isChildPath_nil] at hbelow
        exact absurd hbelow (by simp)
      · rw [hdev, not_isChildPath_devPath hq] at hbelow
        exact absurd hbelow (by simp)
      · obtain ⟨k, hk⟩ := Option.isSome_iff_exists.mp hfind
        obtain ⟨hkindk, hpath⟩ := of_findOverlayNode hk
        rw [← hpath] at hbelow
        refine ih _ ?_ hkindk hbelow rfl
        rw [hpath]
        exact length_parentPath_lt hclean.ne_nil
      · exact Or.inr (Or.inr (Or.inr (isDirectory_of_child hq harchive hbelow)))

end Nodes

end ImagineOS.Overlay
