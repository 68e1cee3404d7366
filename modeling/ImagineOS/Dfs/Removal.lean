import ImagineOS.Dfs.Readers

/-!
# DFS: removing trees

`remove` walks down the first children of a directory, deletes on its way back, and looks for the
first child again. It stops at a node more than 32 levels below the path it was given, and whatever
was deleted before stays deleted. So there are three ways a removal of a tree ends: the whole tree
is gone; the first walk already went too deep, and nothing has changed; or part of the tree is gone.
-/

namespace ImagineOS.Dfs

open BlockProgram Fallible Option Vol

/-! ### Levels -/

/-- `q` is the path `p` or a path under it. -/
def Inside (p q : List UInt8) : Prop := q = p ∨ Below p q

/-- The number of directories above a path, without the root. -/
def depth (q : List UInt8) : ℕ := q.count slash

theorem depth_append {p r : List UInt8} : depth (p ++ slash :: r) = depth p + 1 + depth r := by
  simp only [depth, List.count_append, List.count_cons_self]
  omega

theorem Below.ne_nil {p q : List UInt8} (h : Below p q) : q ≠ [] := by
  obtain ⟨r, rfl⟩ := h
  simp

theorem Below.of_inside {p c q : List UInt8} (h : Below p c) (h' : Inside c q) : Below p q := by
  rcases h' with rfl | h'
  · exact h
  · exact h.trans h'

namespace Vol

/-- The tree at a path has at most `n` levels. -/
def Shallow (v : Vol) (n : ℕ) (p : List UInt8) : Prop :=
  ∀ i < inodeCount, (v.nodes i).kind ≠ 0 → Inside p (v.nodes i).path →
    depth (v.nodes i).path < depth p + n

/-- There are `n` levels of first children below a path. -/
def Descends (v : Vol) : ℕ → List UInt8 → Prop
  | 0, _ => True
  | n + 1, p => ∃ i, v.findChild p = some i ∧ v.Descends n (v.nodes i).path

variable {v : Vol} {p : List UInt8} {i n : ℕ}

theorem shallow_succ_iff : v.Shallow (n + 1) p ↔ ∀ i < inodeCount, (v.nodes i).kind ≠ 0 →
    Below p (v.nodes i).path → depth (v.nodes i).path < depth p + n + 1 := by
  refine forall₃_congr fun i _ _ => ⟨fun h hb => h (Or.inr hb), fun h hin => ?_⟩
  rcases hin with he | hb
  · rw [he]
    omega
  · exact h hb

theorem Tree.findChild (h : v.Tree) (hne : p ≠ []) (hf : v.findChild p = some i) :
    i < inodeCount ∧ (v.nodes i).kind ≠ 0 ∧ Below p (v.nodes i).path ∧
      depth (v.nodes i).path = depth p + 1 := by
  obtain ⟨hi, hkind, hchild⟩ := findChild_eq_some hf
  rw [h.pathStr hi hkind, immediateChild_isSome hne] at hchild
  obtain ⟨r, hr, -, hslash⟩ := hchild
  refine ⟨hi, hkind, ⟨r, hr⟩, ?_⟩
  have hzero : depth r = 0 := List.count_eq_zero.mpr hslash
  rw [hr, depth_append, hzero]

theorem Tree.not_below (h : v.Tree) (hne : p ≠ []) (hleaf : ∀ j < inodeCount, ¬ v.IsChild p j)
    (hi : i < inodeCount) (hkind : (v.nodes i).kind ≠ 0) : ¬ Below p (v.nodes i).path := by
  intro hb
  obtain ⟨k, hk, hkk, hk0, hp⟩ := h.exists_child hi hkind hb
  exact hleaf k hk (h.isChild hk hkk hk0 hp hne)

theorem Tree.isChild_directory (h : v.Tree) (hne : p ≠ []) {j : ℕ} (hf : v.find p = some i)
    (hj : j < inodeCount) (hc : v.IsChild p j) : (v.nodes i).kind = nodeDirectory := by
  obtain ⟨hi, hkind, hpath⟩ := h.find_eq_some.mp hf
  obtain ⟨r, hr, -, hslash⟩ := (immediateChild_isSome hne).mp (h.pathStr hj hc.1 ▸ hc.2)
  have hj0 : j ≠ 0 := by
    rintro rfl
    rw [(h.root.2 0 hj hc.1).mpr rfl] at hr
    simp at hr
  obtain ⟨k, hk, hdir, hp⟩ := h.parent j hj hc.1 hj0
  rw [hr, parentPath_append hslash] at hp
  rwa [h.unique i hi k hk hkind (by rw [hdir]; decide) (hpath.trans hp.symm)]

theorem Descends.not_shallow (h : v.Tree) (hne : p ≠ []) (hi : i < inodeCount)
    (hkind : (v.nodes i).kind ≠ 0) (hpath : (v.nodes i).path = p) (hd : v.Descends n p) :
    ¬ v.Shallow n p := by
  induction n generalizing i p with
  | zero =>
    intro hs
    have := hs i hi hkind (Or.inl hpath)
    rw [hpath] at this
    omega
  | succ n ih =>
    obtain ⟨k, hk, hd⟩ := hd
    obtain ⟨hki, hkk, hb, hdepth⟩ := h.findChild hne hk
    refine fun hs => ih hb.ne_nil hki hkk rfl hd fun j hj hjk hin => ?_
    have := hs j hj hjk (Or.inr (hb.of_inside hin))
    omega

end Vol

/-! ### The three endings -/

/-- How the removal of the nodes `gone`, with `n` levels left at the path `p`, ends. -/
inductive Removal (gone : List UInt8 → Prop) (n : ℕ) (p : List UInt8) (d : ℕ → Sector) (v : Vol) :
    Except DfsError Unit → (ℕ → Sector) → Vol → Prop
  | removed {d' : ℕ → Sector} {v' : Vol} (hshallow : v.Shallow n p) (h : Pruned gone v v')
      (hgone : ∀ i < inodeCount, (v'.nodes i).kind ≠ 0 → ¬ gone (v'.nodes i).path) :
      Removal gone n p d v (.ok ()) d' v'
  | stopped (hdeep : ¬ v.Shallow n p) (h : v.Descends n p) :
      Removal gone n p d v (.error .invalidPath) d v
  | partly {d' : ℕ → Sector} {v' : Vol} (hdeep : ¬ v.Shallow n p) (hnot : ¬ v.Descends n p)
      (h : Pruned (Below p) v v') {i : ℕ} (hi : i < inodeCount) (hkind : (v.nodes i).kind ≠ 0)
      (hbelow : Below p (v.nodes i).path) (hgone : (v'.nodes i).kind = 0) :
      Removal gone n p d v (.error .invalidPath) d' v'

section Endings

variable {L : Layout} {leaked : ℕ → Prop} {d d₁ d' : ℕ → Sector} {v v₁ v' : Vol} {n : ℕ}
  {p : List UInt8}

theorem Removal.of_findChild_none (htree : v.Tree) (hne : p ≠ []) (h : v.findChild p = none) :
    Removal (Below p) (n + 1) p d v (.ok ()) d v := by
  have hnone : ∀ i < inodeCount, (v.nodes i).kind ≠ 0 → ¬ Below p (v.nodes i).path :=
    fun i hi hkind => htree.not_below hne (findChild_eq_none.mp h) hi hkind
  exact .removed (shallow_succ_iff.mpr fun i hi hkind hb => absurd hb (hnone i hi hkind))
    (.refl rfl rfl) hnone

theorem Removal.of_child_error (htree : v.Tree) (hne : p ≠ []) {i : ℕ}
    (hf : v.findChild p = some i) {e : DfsError} {gone : List UInt8 → Prop}
    (h : Removal gone n (v.nodes i).path d v (.error e) d' v') :
    Removal (Below p) (n + 1) p d v (.error e) d' v' := by
  obtain ⟨hi, hkind, hb, hdepth⟩ := htree.findChild hne hf
  -- A level above the tree of the child.
  have hlift : ¬ v.Shallow n (v.nodes i).path → ¬ v.Shallow (n + 1) p := fun hdeep hs =>
    hdeep fun j hj hjk hin => by
      have := hs j hj hjk (Or.inr (hb.of_inside hin))
      omega
  have hdescends : v.Descends (n + 1) p ↔ v.Descends n (v.nodes i).path := by
    constructor
    · rintro ⟨j, hj, hd⟩
      obtain rfl := Option.some.inj (hf.symm.trans hj)
      exact hd
    · exact fun hd => ⟨i, hf, hd⟩
  cases h with
  | stopped hdeep hd => exact .stopped (hlift hdeep) (hdescends.mpr hd)
  | partly hdeep hnot hp hj hjk hjb hgone =>
    exact .partly (hlift hdeep) (fun hd => hnot (hdescends.mp hd))
      (hp.mono fun q hq => hb.trans hq) hj hjk (hb.trans hjb) hgone

/-- The first child is removed, and then the others. -/
theorem Removal.of_child_ok (htree : v.Tree) (hne : p ≠ []) {i : ℕ} (hf : v.findChild p = some i)
    (h : Removal (Inside (v.nodes i).path) n (v.nodes i).path d v (.ok ()) d₁ v₁)
    {r : Except DfsError Unit} (h' : Removal (Below p) (n + 1) p d₁ v₁ r d' v') :
    Removal (Below p) (n + 1) p d v r d' v' := by
  obtain ⟨hi, hkind, hb, hdepth⟩ := htree.findChild hne hf
  cases h with
  | removed hshallow hpruned hgone =>
  have hbelow : Pruned (Below p) v v₁ := hpruned.mono fun q hq => hb.of_inside hq
  have hself : (v₁.nodes i).kind = 0 := by
    by_contra hne
    have hkept := hpruned.eq_of_kind hne
    exact hgone i hi hne (by rw [hkept]; exact Or.inl rfl)
  -- The first walk does not go too deep.
  have hnot : ¬ v.Descends (n + 1) p := by
    rintro ⟨j, hj, hd⟩
    obtain rfl := Option.some.inj (hf.symm.trans hj)
    exact hd.not_shallow htree hb.ne_nil hi hkind rfl hshallow
  -- What is too deep afterwards was too deep before.
  have hdeep : ¬ v₁.Shallow (n + 1) p → ¬ v.Shallow (n + 1) p := fun hdeep hs =>
    hdeep fun j hj hjk hin => by
      rw [hpruned.eq_of_kind hjk] at hin ⊢
      exact hs j hj (hpruned.kind_ne_zero hjk) hin
  cases h' with
  | removed hshallow' hpruned' hgone' =>
    refine .removed (shallow_succ_iff.mpr fun j hj hjk hjb => ?_) (hbelow.trans hpruned') hgone'
    by_cases hk : (v₁.nodes j).kind = 0
    · have hin : Inside (v.nodes i).path (v.nodes j).path := by
        rcases hpruned.nodes j with hn | hn
        · exact absurd (hn ▸ hk) hjk
        · rw [← htree.pathStr hj hjk]
          exact hn.2
      have := hshallow j hj hjk hin
      omega
    · have hkept := hpruned.eq_of_kind hk
      have := shallow_succ_iff.mp hshallow' j hj hk (by rwa [hkept])
      rwa [hkept] at this
  | stopped hdeep' _ => exact .partly (hdeep hdeep') hnot hbelow hi hkind hb hself
  | partly hdeep' _ hpruned' hj hjk hjb hjgone =>
    refine .partly (hdeep hdeep') hnot (hbelow.trans hpruned') hi hkind hb ?_
    by_contra hne
    exact hpruned'.kind_ne_zero hne hself

/-! ### Removing -/

/-- What the removal of a tree of `n` levels must satisfy for the loop over the children. -/
def RemovesTree (L : Layout) (leaked : ℕ → Prop) (n : ℕ)
    (removeChild : Str → DfsProgram Transaction Unit) : Prop :=
  ∀ (path : Str) (p : Path) (d : ℕ → Sector) (v : Vol), canonicalPath path = .ok p →
    p.bytes ≠ [] → Represents L d v → v.Accounted L leaked → v.Tree → v.find p.bytes ≠ none →
      ∀ Q : Except DfsError Unit → (ℕ → Sector) → Prop,
        (∀ r d' v', Represents L d' v' → v'.Accounted L leaked →
          Removal (Inside p.bytes) n p.bytes d v r d' v' → Q r d') →
        (removeChild path).Wp (contract L) Q d

/-- **The loop over the children**, with enough rounds. -/
theorem wp_removeChildren_exact {removeChild : Str → DfsProgram Transaction Unit}
    (hchild : RemovesTree L leaked n removeChild) (hd : Represents L d v)
    (hacc : v.Accounted L leaked) (htree : v.Tree) (hne : p ≠ []) {rounds : ℕ}
    (hrounds : v.active < rounds) {Q : Except DfsError Unit → (ℕ → Sector) → Prop}
    (hQ : ∀ r d' v', Represents L d' v' → v'.Accounted L leaked →
      Removal (Below p) (n + 1) p d v r d' v' → Q r d') :
    (removeChildren L removeChild true p rounds).Wp (contract L) Q d := by
  induction rounds generalizing d v with
  | zero => omega
  | succ rounds ih =>
    refine wp_bind ((reads_findChild hd.toHolds p).wp.mpr ?_)
    rw [thenWp_ok]
    cases hfound : v.findChild p with
    | none => exact hQ _ d v hd hacc (.of_findChild_none htree hne hfound)
    | some i =>
      obtain ⟨hi, hkind, hb, -⟩ := htree.findChild hne hfound
      have hi0 : i ≠ 0 := by
        rintro rfl
        exact hb.ne_nil ((htree.root.2 0 hi hkind).mpr rfl)
      have hutf8 := htree.utf8 i hi hkind
      let c : Path := ⟨(v.nodes i).path, hutf8, (v.nodes i).path_le,
        Or.inr (htree.clean i hi hkind hi0)⟩
      simp only [map_some, if_true]
      rw [show fromUtf8 (v.nodes i).path = some c.str by rw [fromUtf8, dif_pos hutf8]; rfl]
      have hexists : v.find c.bytes ≠ none := by
        rw [htree.find_eq_some.mpr ⟨hi, hkind, rfl⟩]
        simp
      refine wp_bind (hchild c.str c d v c.canonicalPath_str hb.ne_nil hd hacc htree hexists _
        fun r d₁ v₁ hd₁ hacc₁ hout => ?_)
      cases r with
      | error e => exact hQ _ d₁ v₁ hd₁ hacc₁ (.of_child_error htree hne hfound hout)
      | ok u =>
        rw [thenWp_ok]
        cases hout with
        | removed hshallow hpruned hgone =>
        have hself : (v₁.nodes i).kind = 0 := by
          by_contra hk
          exact hgone i hi hk (by rw [hpruned.eq_of_kind hk]; exact Or.inl rfl)
        have hlt : v₁.active < v.active :=
          active_lt hi hkind hself fun j _ hj => hpruned.kind_ne_zero hj
        exact ih hd₁ hacc₁ (htree.pruned hpruned) (by omega) fun r d' v' hd' hacc' hout' =>
          hQ r d' v' hd' hacc'
            (.of_child_ok htree hne hfound (.removed hshallow hpruned hgone) hout')

/-- The node is deleted once nothing is under it. -/
theorem Removal.of_children (htree : v.Tree) {i : ℕ} (hf : v.find p = some i) (hne : p ≠ [])
    (h : Removal (Below p) (n + 1) p d v (.ok ()) d₁ v₁)
    (hnodes : v'.nodes = Function.update v₁.nodes i .empty) (hdata : v'.data = v₁.data) :
    Removal (Inside p) (n + 1) p d v (.ok ()) d' v' := by
  obtain ⟨hi, hkind, hpath⟩ := htree.find_eq_some.mp hf
  cases h with
  | removed hshallow hpruned hgone =>
  have htree₁ := htree.pruned hpruned
  have hself : v₁.nodes i = v.nodes i := by
    rcases hpruned.nodes i with hn | hn
    · exact hn
    · rw [htree.pathStr hi hkind, hpath] at hn
      exact absurd rfl hn.2.ne
  have hstr : (v₁.nodes i).pathStr = p := by rw [hself, htree.pathStr hi hkind, hpath]
  have hother : ∀ j, (v'.nodes j).kind ≠ 0 → j ≠ i ∧ v'.nodes j = v₁.nodes j := by
    intro j hj
    have hji : j ≠ i := by
      rintro rfl
      rw [hnodes, Function.update_self] at hj
      exact hj rfl
    exact ⟨hji, by rw [hnodes, Function.update_of_ne hji]⟩
  refine .removed hshallow (.step (hpruned.mono fun q => Or.inr) hi (by rwa [hself])
    (by rw [hstr]; exact Or.inl rfl) (by rwa [hstr]) (fun _ j hj hc => ?_) hnodes hdata)
    fun j hj hk => ?_
  · rw [hstr] at hc
    have hb := below_of_immediateChild hne hc.2
    rw [htree₁.pathStr hj hc.1] at hb
    exact hgone j hj hc.1 hb
  · obtain ⟨hji, hjv⟩ := hother j hk
    rw [hjv] at hk ⊢
    rintro (he | hb)
    · refine hji (htree.unique j hj i hi (hpruned.kind_ne_zero hk) hkind ?_)
      rw [← hpruned.eq_of_kind hk, he, hpath]
    · exact hgone j hj hk hb

/-- **`remove_at_depth`**, for a path that leads to something. -/
theorem wp_removeAtDepth_exact (n : ℕ) : RemovesTree L leaked n (removeAtDepth L n true) := by
  induction n with
  | zero =>
    intro path p d v hp hne hd hacc htree hexists Q hQ
    obtain ⟨i, hf⟩ := ne_none_iff_exists'.mp hexists
    obtain ⟨hi, hkind, hpath⟩ := htree.find_eq_some.mp hf
    exact hQ _ d v hd hacc (.stopped
      (Vol.Descends.not_shallow (n := 0) htree hne hi hkind hpath trivial) trivial)
  | succ n ih =>
    intro path p d v hp hne hd hacc htree hexists Q hQ
    obtain ⟨i, hf⟩ := ne_none_iff_exists'.mp hexists
    obtain ⟨hi, hkind, hpath⟩ := htree.find_eq_some.mp hf
    have hi0 : i ≠ 0 := by
      rintro rfl
      exact hne (hpath.symm.trans ((htree.root.2 0 hi hkind).mpr rfl))
    refine wp_bind (wp_ofExcept.mpr ?_)
    rw [hp, thenWp_ok, if_neg hne]
    refine wp_bind (wp_findIndex hd _ ?_)
    rw [thenWp_ok, hf]
    refine wp_bind ((wp_readNode hd hi).mpr ?_)
    rw [thenWp_ok]
    -- Deleting the node itself, once nothing is under it.
    have hdelete : ∀ d₁ v₁, Represents L d₁ v₁ → v₁.Accounted L leaked →
        (v₁.nodes i).extents = (v.nodes i).extents →
        Removal (Below p.bytes) (n + 1) p.bytes d v (.ok ()) d₁ v₁ →
        (do storeNode L i .empty; releaseExtents L (v.nodes i).extents :
          DfsProgram Transaction Unit).Wp (contract L) Q d₁ := by
      intro d₁ v₁ hd₁ hacc₁ hext hout
      rw [← hext]
      exact wp_storeNode_release hd₁ hacc₁ hi hi0 (Or.inl rfl) Node.stored_empty rfl
        fun d' v' hd' hacc' hnodes hdata =>
          hQ _ d' v' hd' hacc' (hout.of_children htree hf hne hnodes hdata)
    by_cases hdir : (v.nodes i).kind = nodeDirectory
    swap
    · rw [if_neg hdir]
      refine hdelete d v hd hacc rfl (.of_findChild_none htree hne ?_)
      exact findChild_eq_none.mpr fun j hj hc => hdir (htree.isChild_directory hne hf hj hc)
    rw [if_pos hdir]
    refine wp_bind (wp_removeChildren_exact ih hd hacc htree hne (Nat.lt_succ_of_le v.active_le) ?_)
    intro r d₁ v₁ hd₁ hacc₁ hout
    cases r with
    | ok u =>
      refine hdelete d₁ v₁ hd₁ hacc₁ ?_ hout
      -- A directory has no extents, whether it is still there or not.
      have hext := (hd.decoded hi).extents_of_ne_file (by rw [hdir]; decide)
      cases hout with
      | removed _ hpruned _ =>
      rcases hpruned.nodes i with h | h
      · rw [h]
      · rw [h.1, hext]
        rfl
    | error e =>
      refine hQ _ d₁ v₁ hd₁ hacc₁ ?_
      cases hout with
      | stopped hdeep h => exact .stopped hdeep h
      | partly hdeep hnot h hj hjk hjb hgone => exact .partly hdeep hnot h hj hjk hjb hgone

end Endings

/-! ### What is left of the paths -/

namespace Vol

/-- A sector of the file at a path. -/
def SectorOf (v : Vol) (q : List UInt8) (lba : ℕ) : Prop :=
  ∃ i, v.find q = some i ∧ (v.nodes i).Owns lba

/-- Something is more than 32 levels below a path. -/
def Deep (v : Vol) (p : List UInt8) : Prop :=
  ∃ q, Below p q ∧ v.entries q ≠ none ∧ depth p + 32 < depth q

end Vol

/-- `v'` is `v` without the paths `gone` and their sectors. -/
structure Without (L : Layout) (v : Vol) (gone : List UInt8 → Prop) (v' : Vol) : Prop where
  removed : ∀ q, gone q → v'.entries q = none
  kept : ∀ q, ¬ gone q → v'.entries q = v.entries q
  free : ∀ lba, L.InPartition lba →
    (v'.used lba ↔ v.used lba ∧ ¬ ∃ q, gone q ∧ v.SectorOf q lba)

section Paths

variable {L : Layout} {d d' : ℕ → Sector} {v v' : Vol} {p q : List UInt8}
  {below gone : List UInt8 → Prop}

theorem Pruned.find_eq_some (h : Pruned below v v') (htree : v.Tree) {i : ℕ} :
    v'.find q = some i ↔ v.find q = some i ∧ (v'.nodes i).kind ≠ 0 := by
  rw [(htree.pruned h).find_eq_some, htree.find_eq_some]
  constructor
  · rintro ⟨hi, hkind, hpath⟩
    have hkept := h.eq_of_kind hkind
    exact ⟨⟨hi, h.kind_ne_zero hkind, by rw [← hkept, hpath]⟩, hkind⟩
  · rintro ⟨⟨hi, -, hpath⟩, hkind⟩
    exact ⟨hi, hkind, by rw [h.eq_of_kind hkind, hpath]⟩

theorem entries_ne_none_iff : v.entries q ≠ none ↔ ∃ i, v.find q = some i := by
  rw [Vol.entries, Ne, map_eq_none_iff, ← Ne, ne_none_iff_exists']

/-- **Deletions**, in terms of paths. -/
theorem Pruned.without (h : Pruned below v v') (hd : Represents L d v) (htree : v.Tree)
    (hacc : v.Exact L) (hacc' : v'.Exact L)
    (hgone : ∀ q i, v.find q = some i → (gone q ↔ (v'.nodes i).kind = 0)) :
    Without L v gone v' where
  removed q hq := by
    by_contra hne
    obtain ⟨i, hf⟩ := entries_ne_none_iff.mp hne
    obtain ⟨hfind, hkind⟩ := (h.find_eq_some htree).mp hf
    exact hkind ((hgone q i hfind).mp hq)
  kept q hq := by
    cases hf : v.find q with
    | none =>
      rw [Vol.entries_of_none hf]
      by_contra hne
      obtain ⟨i, hf'⟩ := entries_ne_none_iff.mp hne
      rw [((h.find_eq_some htree).mp hf').1] at hf
      cases hf
    | some i =>
      have hkind : (v'.nodes i).kind ≠ 0 := fun hk => hq ((hgone q i hf).mpr hk)
      have hcontent : v'.content (v.nodes i) = v.content (v.nodes i) :=
        Vol.content_of_owns fun lba _ => by rw [h.data]
      rw [Vol.entries_of_find hf, Vol.entries_of_find ((h.find_eq_some htree).mpr ⟨hf, hkind⟩),
        h.eq_of_kind hkind, Vol.entry, Vol.entry, hcontent]
  free lba hlba := by
    -- A node that owns something is in use, so a path leads to it.
    have hfind : ∀ i < inodeCount, (v.nodes i).Owns lba →
        (v.nodes i).kind ≠ 0 ∧ v.find (v.nodes i).path = some i := by
      intro i hi ho
      have hkind : (v.nodes i).kind ≠ 0 := fun hk => by
        rw [(hd.decoded hi).eq_empty hk] at ho
        obtain ⟨e, he, -⟩ := ho
        cases he
      exact ⟨hkind, htree.find_eq_some.mpr ⟨hi, hkind, rfl⟩⟩
    have howned : v'.Owned lba ↔ v.Owned lba ∧ ¬ ∃ q, gone q ∧ v.SectorOf q lba := by
      constructor
      · rintro ⟨i, hi, ho⟩
        have hkept : v'.nodes i = v.nodes i := by
          rcases h.nodes i with hn | hn
          · exact hn
          · rw [hn.1] at ho
            obtain ⟨e, he, -⟩ := ho
            cases he
        rw [hkept] at ho
        refine ⟨⟨i, hi, ho⟩, ?_⟩
        rintro ⟨q, hq, j, hf, hj⟩
        obtain rfl := hacc.separate i hi j (Vol.find_eq_some hf).1 lba ho hj
        exact (hfind i hi ho).1 (by rw [← hkept]; exact (hgone q i hf).mp hq)
      · rintro ⟨⟨i, hi, ho⟩, hnot⟩
        obtain ⟨-, hf⟩ := hfind i hi ho
        have hkind : (v'.nodes i).kind ≠ 0 := fun hk => hnot ⟨_, (hgone _ i hf).mpr hk, i, hf, ho⟩
        exact ⟨i, hi, by rwa [h.eq_of_kind hkind]⟩
    rw [hacc'.used_iff lba hlba, hacc.used_iff lba hlba, howned]
    constructor
    · rintro (hlt | ⟨ho, hnot⟩ | hf)
      · refine ⟨Or.inl hlt, ?_⟩
        rintro ⟨q, -, i, hf, ho⟩
        exact absurd (hacc.inData i (Vol.find_eq_some hf).1 lba ho).1 (by omega)
      · exact ⟨Or.inr (Or.inl ho), hnot⟩
      · exact hf.elim
    · rintro ⟨hlt | ho | hf, hnot⟩
      · exact Or.inl hlt
      · exact Or.inr (Or.inl ⟨ho, hnot⟩)
      · exact hf.elim

theorem deep_iff (htree : v.Tree) : v.Deep p ↔ ¬ v.Shallow 33 p := by
  constructor
  · rintro ⟨q, hb, hne, hlt⟩ hs
    obtain ⟨i, hf⟩ := entries_ne_none_iff.mp hne
    obtain ⟨hi, hkind, rfl⟩ := htree.find_eq_some.mp hf
    have := hs i hi hkind (Or.inr hb)
    omega
  · intro hs
    simp only [Vol.Shallow, not_forall, not_lt] at hs
    obtain ⟨i, hi, hkind, hin, hle⟩ := hs
    refine ⟨(v.nodes i).path, ?_, entries_ne_none_iff.mpr ⟨i, htree.find_eq_some.mpr
      ⟨hi, hkind, rfl⟩⟩, by omega⟩
    rcases hin with he | hb
    · rw [he] at hle
      omega
    · exact hb

theorem run_remove_refused (hd : Represents L d v) {path : Str} (recursive : Bool)
    (h : ∀ p, canonicalPath path = .ok p → p.bytes = [] ∨ v.find p.bytes = none) :
    ∃ e, (Operation.remove path recursive).run L d = (.error e, d) := by
  refine wp_run (Q := fun r d' => ∃ e, (r, d') = (Except.error e, d)) ?_
  refine wp_bind (wp_ofExcept.mpr ?_)
  cases hp : canonicalPath path with
  | error e => exact ⟨e, rfl⟩
  | ok p =>
    rw [thenWp_ok]
    by_cases hne : p.bytes = []
    · rw [if_pos hne]
      exact ⟨_, rfl⟩
    · rw [if_neg hne]
      refine wp_bind (wp_findIndex hd _ ?_)
      rw [thenWp_ok, (h p hp).resolve_left hne]
      exact ⟨_, rfl⟩

/-- **A directory with a child** is not removed unless that is asked for. -/
theorem run_remove_nonempty (hd : Represents L d v) (htree : v.Tree) {path : Str} {p : Path}
    (hp : canonicalPath path = .ok p) (hne : p.bytes ≠ []) {name : List UInt8} (hname : name ≠ [])
    (hslash : slash ∉ name) (hdir : v.entries p.bytes ≠ none)
    (hchild : v.entries (p.bytes ++ slash :: name) ≠ none) :
    (Operation.remove path false).run L d = (.error .directoryNotEmpty, d) := by
  obtain ⟨i, hf⟩ := entries_ne_none_iff.mp hdir
  obtain ⟨j, hj⟩ := entries_ne_none_iff.mp hchild
  obtain ⟨hjlt, hjkind, hjpath⟩ := htree.find_eq_some.mp hj
  have hc : v.IsChild p.bytes j := by
    refine ⟨hjkind, ?_⟩
    rw [htree.pathStr hjlt hjkind, immediateChild_isSome hne]
    exact ⟨name, hjpath, hname, hslash⟩
  refine wp_run (Q := fun r d' => (r, d') = (Except.error DfsError.directoryNotEmpty, d)) ?_
  refine wp_bind (wp_ofExcept.mpr ?_)
  rw [hp, thenWp_ok, if_neg hne]
  refine wp_bind (wp_findIndex hd _ ?_)
  rw [thenWp_ok, hf]
  refine wp_bind ((wp_readNode hd (find_eq_some hf).1).mpr ?_)
  rw [thenWp_ok, if_pos (htree.isChild_directory hne hf hjlt hc)]
  refine wp_bind (wp_bind ((reads_findChild hd.toHolds p.bytes).wp.mpr ?_))
  rw [thenWp_ok]
  cases hfound : v.findChild p.bytes with
  | none => exact absurd hc (findChild_eq_none.mp hfound j hjlt)
  | some k => exact rfl

/-- What removing the tree at a path does. -/
structure RemovesAt (L : Layout) (path : Str) (d : ℕ → Sector) (v : Vol)
    (r : Except DfsError Unit) (d' : ℕ → Sector) (v' : Vol) : Prop where
  /-- All of it is removed. -/
  ok : r = .ok () → ∃ p, canonicalPath path = .ok p ∧ v.entries p.bytes ≠ none ∧
    Without L v (Inside p.bytes) v'
  /-- Nothing has changed, or the tree is too deep and only part of it is gone. If the tree is too
  deep and nothing has changed, the walk along the first children was too deep already. -/
  error : ∀ e, r = .error e →
    (d' = d ∧ ∀ p, canonicalPath path = .ok p → p.bytes ≠ [] → v.entries p.bytes ≠ none →
      v.Deep p.bytes → v.Descends 33 p.bytes) ∨
    (e = .invalidPath ∧ ∃ p, canonicalPath path = .ok p ∧ v.Deep p.bytes ∧
      ¬ v.Descends 33 p.bytes ∧ ∃ gone, (∀ q, gone q → Below p.bytes q) ∧
        (∃ q, gone q ∧ v.entries q ≠ none) ∧ Without L v gone v')
  /-- Only a tree that is too deep is not removed. -/
  deep : ∀ p, canonicalPath path = .ok p → p.bytes ≠ [] → v.entries p.bytes ≠ none →
    (r = .ok () ↔ ¬ v.Deep p.bytes)

/-- **`remove(path, true)`**, on a volume whose paths form a tree. -/
theorem run_remove_tree (hd : Represents L d v) (hacc : v.Exact L) (htree : v.Tree) (path : Str) :
    ∃ r d' v', (Operation.remove path true).run L d = (r, d') ∧ Represents L d' v' ∧
      RemovesAt L path d v r d' v' := by
  by_cases hexists : ∃ p, canonicalPath path = .ok p ∧ p.bytes ≠ [] ∧ v.find p.bytes ≠ none
  swap
  · have hnone : ∀ p, canonicalPath path = .ok p → p.bytes = [] ∨ v.find p.bytes = none := by
      intro p hp
      by_contra h
      exact hexists ⟨p, hp, not_or.mp h⟩
    obtain ⟨e, hrun⟩ := run_remove_refused hd true hnone
    have hno : ∀ p, canonicalPath path = .ok p → p.bytes ≠ [] → v.entries p.bytes = none :=
      fun p hp hne => entries_of_none ((hnone p hp).resolve_left hne)
    exact ⟨_, d, v, hrun, hd, by simp,
      fun _ _ => Or.inl ⟨rfl, fun p hp hne hent => absurd (hno p hp hne) hent⟩,
      fun p hp hne hent => absurd (hno p hp hne) hent⟩
  obtain ⟨p, hp, hne, hfind⟩ := hexists
  rcases hrun : (Operation.remove path true).run L d with ⟨r, d'⟩
  have hwp : ∃ v', Represents L ((Operation.remove path true).run L d).2 v' ∧ v'.Exact L ∧
      Removal (Inside p.bytes) 33 p.bytes d v ((Operation.remove path true).run L d).1
        ((Operation.remove path true).run L d).2 v' :=
    wp_run (wp_removeAtDepth_exact 33 path p d v hp hne hd hacc htree hfind
      (fun r d' => ∃ v', Represents L d' v' ∧ v'.Exact L ∧
        Removal (Inside p.bytes) 33 p.bytes d v r d' v') fun r d' v' h₁ h₂ h₃ => ⟨v', h₁, h₂, h₃⟩)
  rw [hrun] at hwp
  obtain ⟨v', hd', hacc', hout⟩ := hwp
  have hent : v.entries p.bytes ≠ none :=
    entries_ne_none_iff.mpr (ne_none_iff_exists'.mp hfind)
  have hself : ∀ p', canonicalPath path = .ok p' → p' = p := fun p' hp' =>
    Except.ok.inj (hp'.symm.trans hp)
  refine ⟨r, d', v', rfl, hd', ?_⟩
  cases hout with
  | removed hshallow hpruned hgone =>
    have hwithout : Without L v (Inside p.bytes) v' :=
      hpruned.without hd htree hacc hacc' fun q i hf => by
        obtain ⟨hi, hkind, rfl⟩ := htree.find_eq_some.mp hf
        constructor
        · intro hin
          by_contra hk
          exact hgone i hi hk (by rwa [hpruned.eq_of_kind hk])
        · intro hk
          rcases hpruned.nodes i with hn | hn
          · exact absurd (hn ▸ hk) hkind
          · rw [← htree.pathStr hi hkind]
            exact hn.2
    refine ⟨fun _ => ⟨p, hp, hent, hwithout⟩, by simp, fun p' hp' _ _ => ?_⟩
    rw [hself p' hp', deep_iff htree, not_not]
    exact iff_of_true rfl hshallow
  | stopped hdeep h =>
    refine ⟨by simp, fun _ _ => Or.inl ⟨rfl, fun p' hp' _ _ _ => ?_⟩, fun p' hp' _ _ => ?_⟩
    · rwa [hself p' hp']
    · rw [hself p' hp', deep_iff htree, not_not]
      exact iff_of_false (by simp) hdeep
  | @partly _ _ hdeep hnot hpruned i hi hkind hbelow hgone =>
    refine ⟨by simp, fun e he => Or.inr ⟨(Except.error.inj he).symm, p, hp,
      (deep_iff htree).mpr hdeep, hnot, fun q => ∃ i, v.find q = some i ∧ (v'.nodes i).kind = 0,
      ?_, ?_, ?_⟩, fun p' hp' _ _ => ?_⟩
    · rintro q ⟨j, hf, hk⟩
      obtain ⟨hj, hjkind, rfl⟩ := htree.find_eq_some.mp hf
      rcases hpruned.nodes j with hn | hn
      · exact absurd (hn ▸ hk) hjkind
      · rw [← htree.pathStr hj hjkind]
        exact hn.2
    · have hf : v.find (v.nodes i).path = some i := htree.find_eq_some.mpr ⟨hi, hkind, rfl⟩
      exact ⟨_, ⟨i, hf, hgone⟩, entries_ne_none_iff.mpr ⟨i, hf⟩⟩
    · refine hpruned.without hd htree hacc hacc' fun q i hf => ⟨?_, fun hk => ⟨i, hf, hk⟩⟩
      rintro ⟨j, hj, hk⟩
      obtain rfl := Option.some.inj (hf.symm.trans hj)
      exact hk
    · rw [hself p' hp', deep_iff htree, not_not]
      exact iff_of_false (by simp) hdeep

end Paths

/-! ### Runs -/

section Runs

variable {L : Layout} {d : ℕ → Sector}

/-- **Removal over whole runs** whose paths have no NUL byte. A tree is removed as a whole, unless
something is more than 32 levels down, and a directory with a child is left alone unless its tree
is to be removed. -/
theorem removes_tree (h : Reached L Operation.NulFree d) :
    ∃ v, Represents L d v ∧ ∀ path : Str,
      (∃ r d' v', (Operation.remove path true).run L d = (r, d') ∧ Represents L d' v' ∧
        RemovesAt L path d v r d' v') ∧
      ∀ p name, canonicalPath path = .ok p → p.bytes ≠ [] → name ≠ [] → slash ∉ name →
        v.entries p.bytes ≠ none → v.entries (p.bytes ++ slash :: name) ≠ none →
        (Operation.remove path false).run L d = (.error .directoryNotEmpty, d) := by
  obtain ⟨v, hd, hacc, htree⟩ := h.tree fun _ ha => ha
  exact ⟨v, hd, fun path => ⟨run_remove_tree hd hacc htree path,
    fun p name hp hne hname hslash hdir hchild =>
      run_remove_nonempty hd htree hp hne hname hslash hdir hchild⟩⟩

/-- Removing the directory `a` of the sample volume. -/
theorem removes_tree_sample : ∃ d v, Represents sampleLayout d v ∧
    ∃ r d' v', (Operation.remove ⟨[97], rfl⟩ true).run sampleLayout d = (r, d') ∧
      Represents sampleLayout d' v' ∧ RemovesAt sampleLayout ⟨[97], rfl⟩ d v r d' v' := by
  obtain ⟨d₀, hformats, -⟩ := formats_sample
  obtain ⟨v, hd, hall⟩ := removes_tree ((Reached.format hformats).perform
    (.createDirectory ⟨[97], rfl⟩ 0o755 0 0) (by decide))
  exact ⟨_, v, hd, (hall ⟨[97], rfl⟩).1⟩

/-- The paths `a`, `a/a`, `a/b`, `a/b/b` and so on. -/
def deepBytes : ℕ → List UInt8
  | 0 => [97]
  | 1 => [97, 47, 97]
  | k + 2 => 97 :: (List.replicate (k + 1) [47, 98]).flatten

theorem deepBytes_path : ∀ k < 35, validUtf8 (deepBytes k) ∧ (deepBytes k).length ≤ maxPath ∧
    CleanPath (deepBytes k) ∧ (0 : UInt8) ∉ deepBytes k := by
  decide +kernel

/-- `deepBytes`, as a path. -/
def deepPath (k : ℕ) (h : k < 35) : Path :=
  ⟨deepBytes k, (deepBytes_path k h).1, (deepBytes_path k h).2.1, Or.inr (deepBytes_path k h).2.2.1⟩

/-- A volume with the first `k` of these directories. -/
def deepVol : ℕ → Vol
  | 0 => sampleVol
  | k + 1 => if h : k < 35 then
      (deepVol k).setNode (k + 1) (newNode (deepPath k h) nodeDirectory 0o755 0 0) else deepVol k

theorem create_deepPath : ∀ (k : ℕ) (h : k < 35),
    (deepVol k).create (deepPath k h) nodeDirectory 0o755 0 0 =
      .ok (k + 1, newNode (deepPath k h) nodeDirectory 0o755 0 0) := by
  decide +kernel

theorem reached_deepVol {k : ℕ} (hk : k ≤ 35) : ∃ d, Reached sampleLayout Operation.NulFree d ∧
    Represents sampleLayout d (deepVol k) ∧ (deepVol k).Exact sampleLayout ∧ (deepVol k).Tree := by
  induction k with
  | zero =>
    obtain ⟨d₀, hformats, hrep⟩ := formats_sample
    exact ⟨d₀, .format hformats, hrep, formatVol_accounted _, formatVol_tree _ _⟩
  | succ k ih =>
    have hlt : k < 35 := hk
    obtain ⟨-, -, hclean, hnul⟩ := deepBytes_path k hlt
    obtain ⟨d, hreached, hrep, hacc, htree⟩ := ih hlt.le
    obtain ⟨hrep', hacc', -⟩ := run_createDirectory hrep hacc (deepPath k hlt).str
      (Path.canonicalPath_str _) hclean.ne_nil (create_deepPath k hlt)
    rw [deepVol, dif_pos hlt]
    exact ⟨_, hreached.perform (.createDirectory (deepPath k hlt).str 0o755 0 0) hnul, hrep', hacc',
      htree.create (Or.inr rfl) hclean.ne_nil hnul (create_deepPath k hlt)⟩

/-- What is in the way of `a`: something is too deep, but not below its first child. -/
theorem deepVol_facts : (deepVol 35).find [97] = some 1 ∧
    (deepVol 35).find (deepBytes 34) = some 35 ∧ depth (deepBytes 34) = 33 ∧
    (deepVol 35).findChild [97] = some 2 ∧
    (deepVol 35).findChild ((deepVol 35).nodes 2).path = none ∧
    (deepVol 35).find [] = some 0 := by
  decide +kernel

/-- **Removal without the limit**: with `a/a` and, under `a/b`, a directory 33 levels below `a`, the
removal of `a` fails and leaves some of it gone. And the root is not removed, but not because it has
a child. -/
theorem partial_removal : ∃ d, Reached sampleLayout Operation.NulFree d ∧
    Represents sampleLayout d (deepVol 35) ∧
    (∃ d' v' q, (Operation.remove ⟨[97], rfl⟩ true).run sampleLayout d = (.error .invalidPath, d') ∧
      Represents sampleLayout d' v' ∧ (deepVol 35).entries q ≠ none ∧ v'.entries q = none) ∧
    (deepVol 35).entries [] ≠ none ∧ (deepVol 35).entries [97] ≠ none ∧
    (Operation.remove ⟨[], rfl⟩ false).run sampleLayout d = (.error .invalidPath, d) := by
  obtain ⟨d, hreached, hd, hacc, htree⟩ := reached_deepVol (le_refl 35)
  obtain ⟨hone, hlast, hdepth, hchild, hleaf, hroot⟩ := deepVol_facts
  have hent : ∀ {q i}, (deepVol 35).find q = some i → (deepVol 35).entries q ≠ none :=
    fun hf => entries_ne_none_iff.mpr ⟨_, hf⟩
  refine ⟨d, hreached, hd, ?_, hent hroot, hent hone, rfl⟩
  have hdeep : (deepVol 35).Deep [97] :=
    ⟨deepBytes 34, ⟨_, rfl⟩, hent hlast, by rw [hdepth]; decide⟩
  have hnot : ¬ (deepVol 35).Descends 33 [97] := by
    rintro ⟨i, hi, j, hj, -⟩
    obtain rfl := Option.some.inj (hchild.symm.trans hi)
    rw [hleaf] at hj
    cases hj
  obtain ⟨r, d', v', hrun, hd', hout⟩ := run_remove_tree hd hacc htree ⟨[97], rfl⟩
  have hp : canonicalPath ⟨[97], rfl⟩ = .ok samplePath := samplePath.canonicalPath_str
  cases r with
  | ok u => exact absurd hdeep ((hout.deep samplePath hp (by decide) (hent hone)).mp rfl)
  | error e =>
    rcases hout.error e rfl with ⟨-, hwalk⟩ | ⟨rfl, -, -, -, -, gone, -, ⟨q, hq, hne⟩, hwithout⟩
    · exact absurd (hwalk samplePath hp (by decide) (hent hone) hdeep) hnot
    · exact ⟨d', v', q, hrun, hd', hne, hwithout.removed q hq⟩

end Runs

end ImagineOS.Dfs
