import ImagineOS.Dfs.Files

/-!
# DFS: creating and removing directories

`remove` deletes the children of a directory before the directory, so whatever it has done when it
stops is a sequence of deletions of nodes that have no children (`Pruned`). Between two deletions
the sectors of the deleted node are released.
-/

namespace ImagineOS.Dfs

open BlockProgram Fallible List Option

/-! ### Paths under a path -/

/-- `q` is a path under `p`. -/
def Below (p q : List UInt8) : Prop := ∃ r, q = p ++ slash :: r

variable {p q : List UInt8}

theorem Below.trans {r : List UInt8} (h : Below p q) (h' : Below q r) : Below p r := by
  obtain ⟨a, rfl⟩ := h
  obtain ⟨b, rfl⟩ := h'
  exact ⟨a ++ slash :: b, by simp⟩

theorem Below.ne (h : Below p q) : q ≠ p := by
  obtain ⟨r, rfl⟩ := h
  intro he
  have := congrArg List.length he
  simp at this

/-- A child of `p` is `p`, a slash and a name. -/
theorem immediateChild_isSome (hp : p ≠ []) :
    (immediateChild q p).isSome ↔ ∃ r, q = p ++ slash :: r ∧ r ≠ [] ∧ slash ∉ r := by
  have hiff : ∀ r, immediateChild q p = some r ↔ q = p ++ slash :: r ∧ r ≠ [] ∧ slash ∉ r := by
    intro r
    simp only [immediateChild, if_neg hp, filter_eq_some_iff, bind_eq_some_iff,
      stripPrefix_eq_some, singleton_append, exists_eq_right, decide_eq_true_eq]
  rw [isSome_iff_exists]
  exact exists_congr hiff

theorem below_of_immediateChild (hp : p ≠ []) (h : (immediateChild q p).isSome) :
    Below p q := by
  obtain ⟨r, rfl, -⟩ := (immediateChild_isSome hp).mp h
  exact ⟨r, rfl⟩

theorem canonicalPath_bytes {path : Str} {p : Path} (hp : canonicalPath path = .ok p)
    (hrel : stripPrefix path.val [slash] = none) : p.bytes = path.val := by
  unfold canonicalPath at hp
  simp only [hrel, getD_none] at hp
  split_ifs at hp with h₁ h₂
  · rw [← Except.ok.inj hp]
  · rw [← Except.ok.inj hp, h₂]

/-! ### Deleting nodes -/

namespace Vol

/-- The test of `remove_at_depth` for a child of the directory at `path`. -/
def IsChild (v : Vol) (path : List UInt8) (i : ℕ) : Prop :=
  (v.nodes i).kind ≠ 0 ∧ (immediateChild (v.nodes i).pathStr path).isSome

instance (v : Vol) (path : List UInt8) (i : ℕ) : Decidable (v.IsChild path i) :=
  inferInstanceAs (Decidable (_ ∧ _))

/-- The first child of the directory at `path`. -/
def findChild (v : Vol) (path : List UInt8) : Option ℕ :=
  (List.range inodeCount).find? (v.IsChild path ·)

/-- No path in the node table has a leading slash. -/
def Relative (v : Vol) : Prop :=
  ∀ i < inodeCount, stripPrefix (v.nodes i).path [slash] = none

variable {v : Vol} {path : List UInt8}

theorem findChild_eq_some {i : ℕ} (h : v.findChild path = some i) :
    i < inodeCount ∧ v.IsChild path i :=
  ⟨mem_range.mp (mem_of_find?_eq_some h), by simpa using List.find?_some h⟩

theorem findChild_eq_none : v.findChild path = none ↔ ∀ i < inodeCount, ¬ v.IsChild path i := by
  simp [findChild]

/-- The number of nodes in use. -/
def active (v : Vol) : ℕ := ((List.range inodeCount).filter fun i => (v.nodes i).kind ≠ 0).length

theorem active_le (v : Vol) : v.active ≤ inodeCount :=
  (length_filter_le _ _).trans_eq length_range

theorem active_lt {v' : Vol} {i : ℕ} (hi : i < inodeCount) (hkind : (v.nodes i).kind ≠ 0)
    (hgone : (v'.nodes i).kind = 0)
    (hsub : ∀ j < inodeCount, (v'.nodes j).kind ≠ 0 → (v.nodes j).kind ≠ 0) :
    v'.active < v.active := by
  have hnd : ∀ u : Vol, ((List.range inodeCount).filter fun j => (u.nodes j).kind ≠ 0).Nodup :=
    fun u => nodup_range.filter _
  have hsubset : i :: ((List.range inodeCount).filter fun j => (v'.nodes j).kind ≠ 0) ⊆
      (List.range inodeCount).filter fun j => (v.nodes j).kind ≠ 0 := by
    intro j hj
    rcases mem_cons.mp hj with rfl | hj
    · simpa using ⟨hi, hkind⟩
    · simp only [mem_filter, mem_range, decide_eq_true_eq] at hj ⊢
      exact ⟨hj.1, hsub j hj.1 hj.2⟩
  have hcons : (i :: ((List.range inodeCount).filter fun j => (v'.nodes j).kind ≠ 0)).Nodup := by
    refine nodup_cons.mpr ⟨fun hmem => ?_, hnd v'⟩
    simp only [mem_filter, decide_eq_true_eq] at hmem
    exact hmem.2 hgone
  have hle := (subperm_of_subset hcons hsubset).length_le
  rwa [length_cons] at hle

end Vol

/-- `v'` is `v` after deletions of nodes, each without children at the time and with a path that
satisfies `below`. -/
inductive Pruned (below : List UInt8 → Prop) (v : Vol) : Vol → Prop
  | refl {v' : Vol} (hnodes : v'.nodes = v.nodes) (hdata : v'.data = v.data) : Pruned below v v'
  | step {v₁ v₂ : Vol} {i : ℕ} (h : Pruned below v v₁) (hi : i < inodeCount)
      (hkind : (v₁.nodes i).kind ≠ 0) (hpath : below (v₁.nodes i).pathStr)
      (hne : (v₁.nodes i).pathStr ≠ [])
      (hleaf : (v₁.nodes i).kind = nodeDirectory →
        ∀ j < inodeCount, ¬ v₁.IsChild (v₁.nodes i).pathStr j)
      (hnodes : v₂.nodes = Function.update v₁.nodes i .empty) (hdata : v₂.data = v₁.data) :
      Pruned below v v₂

namespace Pruned

variable {below below' : List UInt8 → Prop} {v v' v'' : Vol}

theorem mono (h : Pruned below v v') (hb : ∀ q, below q → below' q) : Pruned below' v v' := by
  induction h with
  | refl hnodes hdata => exact .refl hnodes hdata
  | step _ hi hkind hpath hne hleaf hnodes hdata ih =>
    exact .step ih hi hkind (hb _ hpath) hne hleaf hnodes hdata

theorem congr (h : Pruned below v v') (hnodes : v''.nodes = v'.nodes) (hdata : v''.data = v'.data) :
    Pruned below v v'' := by
  cases h with
  | refl hn hd => exact .refl (hnodes.trans hn) (hdata.trans hd)
  | step h hi hkind hpath hne hleaf hn hd =>
    exact .step h hi hkind hpath hne hleaf (hnodes.trans hn) (hdata.trans hd)

theorem trans (h : Pruned below v v') (h' : Pruned below v' v'') : Pruned below v v'' := by
  induction h' with
  | refl hnodes hdata => exact h.congr hnodes hdata
  | step _ hi hkind hpath hne hleaf hnodes hdata ih =>
    exact .step ih hi hkind hpath hne hleaf hnodes hdata

theorem data (h : Pruned below v v') : v'.data = v.data := by
  induction h with
  | refl _ hdata => exact hdata
  | step _ _ _ _ _ _ _ hdata ih => exact hdata.trans ih

theorem nodes (h : Pruned below v v') (i : ℕ) :
    v'.nodes i = v.nodes i ∨ (v'.nodes i = .empty ∧ below (v.nodes i).pathStr) := by
  induction h with
  | refl hnodes _ => exact Or.inl (by rw [hnodes])
  | @step v₁ v₂ k _ hi hkind hpath hne hleaf hnodes hdata ih =>
    rw [hnodes]
    rcases eq_or_ne i k with rfl | hik
    · rw [Function.update_self]
      rcases ih with ih | ih
      · exact Or.inr ⟨rfl, ih ▸ hpath⟩
      · exact absurd (by rw [ih.1]; rfl) hkind
    · rw [Function.update_of_ne hik]
      exact ih

theorem eq_of_kind (h : Pruned below v v') {i : ℕ} (hi : (v'.nodes i).kind ≠ 0) :
    v'.nodes i = v.nodes i := by
  rcases h.nodes i with hn | hn
  · exact hn
  · exact absurd (by rw [hn.1]; rfl) hi

theorem kind_ne_zero (h : Pruned below v v') {i : ℕ} (hi : (v'.nodes i).kind ≠ 0) :
    (v.nodes i).kind ≠ 0 := h.eq_of_kind hi ▸ hi

theorem relative (h : Pruned below v v') (hrel : v.Relative) : v'.Relative := by
  intro i hi
  rcases h.nodes i with h | h
  · rw [h]; exact hrel i hi
  · rw [h.1]; rfl

end Pruned

/-! ### Creating directories -/

section Create

variable {L : Layout} {leaked : ℕ → Prop} {d : ℕ → Sector} {v : Vol}

/-- What `create_directory` leaves. -/
inductive CreateOutcome (v : Vol) (path : Str) (mode : UInt16) (uid gid : UInt32) :
    Except DfsError Unit → Vol → Prop
  | refused (e : DfsError) (h : ∀ p, canonicalPath path = .ok p → p.bytes ≠ [] →
      v.create p nodeDirectory mode uid gid = .error e) :
      CreateOutcome v path mode uid gid (.error e) v
  | created {p : Path} {i : ℕ} {node : Node} (hp : canonicalPath path = .ok p) (hne : p.bytes ≠ [])
      (hnew : v.create p nodeDirectory mode uid gid = .ok (i, node)) :
      CreateOutcome v path mode uid gid (.ok ()) (v.setNode i node)

/-- **`create_directory`.** -/
theorem wp_createDirectory (hd : Represents L d v) (hacc : v.Accounted L leaked) {path : Str}
    {mode : UInt16} {uid gid : UInt32} {Q : Except DfsError Unit → (ℕ → Sector) → Prop}
    (hQ : ∀ r d' v', Represents L d' v' → v'.Accounted L leaked →
      CreateOutcome v path mode uid gid r v' → Q r d') :
    (createDirectory L path mode uid gid).Wp (contract L) Q d := by
  refine wp_bind (wp_ofExcept.mpr ?_)
  cases hp : canonicalPath path with
  | error e => exact hQ _ d v hd hacc (.refused e fun p hp' => by rw [hp] at hp'; cases hp')
  | ok p =>
    rw [thenWp_ok]
    by_cases hne : p.bytes = []
    · rw [if_pos hne]
      refine hQ _ d v hd hacc (.refused _ fun p' hp' hne' => ?_)
      obtain rfl := Except.ok.inj (hp.symm.trans hp')
      exact absurd hne hne'
    rw [if_neg hne]
    refine wp_bind (wp_createNode hd hacc (Or.inr rfl) (fun e he => ?_)
      fun i node d' hnew _ hd' hacc' => hQ _ d' _ hd' hacc' (.created hp hne hnew))
    refine hQ _ d v hd hacc (.refused e fun p' hp' _ => ?_)
    obtain rfl := Except.ok.inj (hp.symm.trans hp')
    exact he

end Create

/-! ### Removing -/

section Remove

variable {L : Layout} {leaked : ℕ → Prop} {d : ℕ → Sector} {v : Vol}

theorem reads_findChildIn {C : Type} (hd : Holds L d v) (path : List UInt8) {is : List ℕ}
    (his : ∀ i ∈ is, i < inodeCount) :
    (findChildIn L path is : DfsProgram C (Option Node)).run.Reads d
      (.ok ((is.find? (v.IsChild path ·)).map v.nodes)) := by
  induction is with
  | nil => exact rfl
  | cons i is ih =>
    refine reads_bind (reads_readNode hd (his i (by simp))) ?_
    by_cases h : v.IsChild path i
    · rw [List.find?_cons, decide_eq_true h]
      exact (if_pos h).symm ▸ rfl
    · rw [List.find?_cons, decide_eq_false h]
      refine (if_neg h).symm ▸ ?_
      exact ih fun j hj => his j (mem_cons_of_mem _ hj)

theorem reads_findChild {C : Type} (hd : Holds L d v) (path : List UInt8) :
    (findChildIn L path (List.range inodeCount) : DfsProgram C (Option Node)).run.Reads d
      (.ok ((v.findChild path).map v.nodes)) :=
  reads_findChildIn hd path fun _ hi => mem_range.mp hi

/-- What `remove` leaves. Where paths have no leading slash (`rel`), only nodes under the path are
deleted before the node itself. -/
inductive RemoveOutcome (rel : Prop) (v : Vol) (path : Str) (recursive : Bool) :
    Except DfsError Unit → Vol → Prop
  | refused (e : DfsError) : RemoveOutcome rel v path recursive (.error e) v
  | failed {p : Path} {v' : Vol} (e : DfsError) (hp : canonicalPath path = .ok p)
      (hrec : recursive = true) (h : Pruned (fun q => rel → Below p.bytes q) v v') :
      RemoveOutcome rel v path recursive (.error e) v'
  | removed {p : Path} {i : ℕ} {v₁ v' : Vol} (hp : canonicalPath path = .ok p) (hne : p.bytes ≠ [])
      (hfind : v.find p.bytes = some i) (h : Pruned (fun q => rel → Below p.bytes q) v v₁)
      (hleaf : (v.nodes i).kind = nodeDirectory → ∀ j < inodeCount, ¬ v₁.IsChild p.bytes j)
      (hnodes : v'.nodes = Function.update v₁.nodes i .empty) (hdata : v'.data = v₁.data) :
      RemoveOutcome rel v path recursive (.ok ()) v'

variable {rel : Prop}

/-- Whatever happens, nodes at the path or under it are deleted. -/
theorem RemoveOutcome.pruned {v' : Vol} {path : Str} {recursive : Bool}
    {r : Except DfsError Unit} (h : RemoveOutcome rel v path recursive r v') {p : Path}
    (hp : canonicalPath path = .ok p) :
    Pruned (fun q => rel → q = p.bytes ∨ Below p.bytes q) v v' := by
  cases h with
  | refused e => exact .refl rfl rfl
  | failed e hp' _ h =>
    obtain rfl := Except.ok.inj (hp'.symm.trans hp)
    exact h.mono fun q hq hrel => Or.inr (hq hrel)
  | @removed p' i v₁ _ hp' hne hfind h hleaf hnodes hdata =>
    obtain rfl := Except.ok.inj (hp'.symm.trans hp)
    obtain ⟨hi, -, hpath⟩ := Vol.find_eq_some hfind
    have h' : Pruned (fun q => rel → q = p'.bytes ∨ Below p'.bytes q) v v₁ :=
      h.mono fun q hq hrel => Or.inr (hq hrel)
    by_cases hkind : (v₁.nodes i).kind = 0
    · -- The node is gone already.
      have hgone : v₁.nodes i = .empty := by
        rcases h.nodes i with hn | hn
        · exact absurd (hn ▸ hkind) (Vol.find_eq_some hfind).2.1
        · exact hn.1
      exact h'.congr (by rw [hnodes, ← hgone, Function.update_eq_self]) hdata
    · have hself : v₁.nodes i = v.nodes i := by
        rcases h.nodes i with hn | hn
        · exact hn
        · exact absurd (by rw [hn.1]; rfl) hkind
      refine .step h' hi hkind (fun _ => Or.inl (by rw [hself, hpath])) (by rwa [hself, hpath])
        (fun hdir => ?_) hnodes hdata
      rw [hself] at hdir ⊢
      rw [hpath]
      exact hleaf hdir

/-- What the removal of a child at `path` must satisfy for the loop over the children. -/
def RemovesChild (L : Layout) (leaked : ℕ → Prop) (rel : Prop)
    (removeChild : Str → DfsProgram Transaction Unit) : Prop :=
  ∀ (path : Str) (d : ℕ → Sector) (v : Vol), Represents L d v → v.Accounted L leaked →
    (rel → v.Relative) → ∀ Q : Except DfsError Unit → (ℕ → Sector) → Prop,
      (∀ r d' v', Represents L d' v' → v'.Accounted L leaked →
        RemoveOutcome rel v path true r v' → Q r d') → (removeChild path).Wp (contract L) Q d

theorem below_of_child (hrel : rel → v.Relative) {p cp : Path} (hne : p.bytes ≠ [])
    {i : ℕ} (hfound : v.findChild p.bytes = some i) {childPath : Str}
    (hutf8 : fromUtf8 (v.nodes i).path = some childPath) (hcp : canonicalPath childPath = .ok cp)
    (hq : rel → q = cp.bytes ∨ Below cp.bytes q) (h : rel) : Below p.bytes q := by
  obtain ⟨hi, -, hchild⟩ := Vol.findChild_eq_some hfound
  rw [fromUtf8] at hutf8
  split at hutf8
  swap
  · cases hutf8
  rename_i hvalid
  obtain rfl := Option.some.inj hutf8
  have hbelow := below_of_immediateChild hne hchild
  rw [Node.pathStr, if_pos hvalid] at hbelow
  rw [show (v.nodes i).path = cp.bytes from (canonicalPath_bytes hcp (hrel h i hi)).symm] at hbelow
  rcases hq h with rfl | hq
  · exact hbelow
  · exact hbelow.trans hq

variable {Q : Except DfsError Unit → (ℕ → Sector) → Prop}

/-- **The loop over the children.** -/
theorem wp_removeChildren {removeChild : Str → DfsProgram Transaction Unit}
    (hchild : RemovesChild L leaked rel removeChild) (hd : Represents L d v)
    (hacc : v.Accounted L leaked) (hrel : rel → v.Relative) {recursive : Bool} {p : Path}
    (hne : p.bytes ≠ []) (rounds : ℕ) (hQ : ∀ r d' v', Represents L d' v' → v'.Accounted L leaked →
      Pruned (fun q => rel → Below p.bytes q) v v' → (recursive = false → v' = v) →
      (r = .ok () → ∀ j < inodeCount, ¬ v'.IsChild p.bytes j) → Q r d') :
    (removeChildren L removeChild recursive p.bytes rounds).Wp (contract L) Q d := by
  induction rounds generalizing d v with
  | zero => exact hQ _ d v hd hacc (.refl rfl rfl) (fun _ => rfl) (by simp)
  | succ rounds ih =>
    refine wp_bind ((reads_findChild hd.toHolds p.bytes).wp.mpr ?_)
    rw [thenWp_ok]
    cases hfound : v.findChild p.bytes with
    | none =>
      exact hQ _ d v hd hacc (.refl rfl rfl) (fun _ => rfl) fun _ => Vol.findChild_eq_none.mp hfound
    | some i =>
      simp only [map_some]
      cases recursive with
      | false => exact hQ _ d v hd hacc (.refl rfl rfl) (fun _ => rfl) (by simp)
      | true =>
        rw [if_pos rfl]
        cases hutf8 : fromUtf8 (v.nodes i).path with
        | none => exact hQ _ d v hd hacc (.refl rfl rfl) (fun _ => rfl) (by simp)
        | some childPath =>
          refine wp_bind (hchild childPath d v hd hacc hrel _ fun r d₁ v₁ hd₁ hacc₁ hout => ?_)
          have hpruned : Pruned (fun q => rel → Below p.bytes q) v v₁ := by
            cases hcp : canonicalPath childPath with
            | error e =>
              cases hout with
              | refused => exact .refl rfl rfl
              | failed e hp => rw [hp] at hcp; cases hcp
              | removed hp => rw [hp] at hcp; cases hcp
            | ok cp =>
              exact (hout.pruned hcp).mono fun q hq => below_of_child hrel hne hfound hutf8 hcp hq
          cases r with
          | error e => exact hQ _ d₁ v₁ hd₁ hacc₁ hpruned (by simp) (by simp)
          | ok u =>
            rw [thenWp_ok]
            exact ih hd₁ hacc₁ (fun h => hpruned.relative (hrel h)) fun r d' v' h₁ h₂ h₃ _ h₅ =>
              hQ r d' v' h₁ h₂ (hpruned.trans h₃) (by simp) h₅

/-- **`remove_at_depth`.** -/
theorem wp_removeAtDepth (rel : Prop) (levels : ℕ) (recursive : Bool) (path : Str)
    (hd : Represents L d v) (hacc : v.Accounted L leaked) (hrel : rel → v.Relative)
    (hQ : ∀ r d' v', Represents L d' v' → v'.Accounted L leaked →
      RemoveOutcome rel v path recursive r v' → Q r d') :
    (removeAtDepth L levels recursive path).Wp (contract L) Q d := by
  induction levels generalizing d v recursive path Q with
  | zero => exact hQ _ d v hd hacc (.refused _)
  | succ levels ih =>
    have hrefused : ∀ e, Q (.error e) d := fun e => hQ _ d v hd hacc (.refused e)
    refine wp_bind (wp_ofExcept.mpr ?_)
    cases hp : canonicalPath path with
    | error e => exact hrefused e
    | ok p =>
      rw [thenWp_ok]
      by_cases hne : p.bytes = []
      · rw [if_pos hne]
        exact hrefused _
      rw [if_neg hne]
      refine wp_bind (wp_findIndex hd _ ?_)
      rw [thenWp_ok]
      cases hfind : v.find p.bytes with
      | none => exact hrefused _
      | some i =>
        obtain ⟨hi, -, hpath⟩ := Vol.find_eq_some hfind
        have hzero : i ≠ 0 := by
          rintro rfl
          rw [Node.pathStr, hd.root.2, ite_self] at hpath
          exact hne hpath.symm
        refine wp_bind ((wp_readNode hd hi).mpr ?_)
        rw [thenWp_ok]
        -- Deleting the node itself, once it has no children.
        have hdelete : ∀ d₁ v₁, Represents L d₁ v₁ → v₁.Accounted L leaked →
            Pruned (fun q => rel → Below p.bytes q) v v₁ →
            (v₁.nodes i).extents = (v.nodes i).extents →
            ((v.nodes i).kind = nodeDirectory → ∀ j < inodeCount, ¬ v₁.IsChild p.bytes j) →
            (do storeNode L i .empty; releaseExtents L (v.nodes i).extents :
              DfsProgram Transaction Unit).Wp (contract L) Q d₁ := by
          intro d₁ v₁ hd₁ hacc₁ hpruned hext hleaf
          rw [← hext]
          exact wp_storeNode_release hd₁ hacc₁ hi hzero (Or.inl rfl) Node.stored_empty rfl
            fun d' v' hd' hacc' hnodes hdata =>
              hQ _ d' v' hd' hacc' (.removed hp hne hfind hpruned hleaf hnodes hdata)
        by_cases hdir : (v.nodes i).kind = nodeDirectory
        swap
        · rw [if_neg hdir]
          exact hdelete d v hd hacc (.refl rfl rfl) rfl fun h => absurd h hdir
        rw [if_pos hdir]
        refine wp_bind (wp_removeChildren (fun path' d v hd hacc hrel Q hQ =>
          ih true path' hd hacc hrel hQ) hd hacc hrel hne _ ?_)
        intro r d₁ v₁ hd₁ hacc₁ hpruned hsame hleaf
        cases r with
        | error e =>
          cases recursive with
          | false =>
            rw [hsame rfl] at hd₁ hacc₁
            exact hQ _ d₁ v hd₁ hacc₁ (.refused e)
          | true => exact hQ _ d₁ v₁ hd₁ hacc₁ (.failed e hp rfl hpruned)
        | ok u =>
          -- A directory has no extents, whether it is still there or not.
          have hext := (hd.decoded hi).extents_of_ne_file (by rw [hdir]; decide)
          have hext₁ : (v₁.nodes i).extents = (v.nodes i).extents := by
            rcases hpruned.nodes i with h | h
            · rw [h]
            · rw [h.1, hext]; rfl
          exact hdelete d₁ v₁ hd₁ hacc₁ hpruned hext₁ fun _ => hleaf rfl

end Remove

end ImagineOS.Dfs
