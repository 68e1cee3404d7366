import ImagineOS.Dfs.Durability

/-!
# DFS: the namespace

The hierarchy exists only in the paths of the nodes. `Vol.Namespace` says that they form a tree: no
two nodes in use have the same path, the first node alone has the empty path, and the parent of
every other node is a directory. It is kept by every operation whose path contains no NUL byte.
-/

namespace ImagineOS.Dfs

open BlockProgram Fallible Function

/-! ### Trees of paths -/

namespace Vol

/-- The paths of the nodes in use form a tree. -/
structure Namespace (v : Vol) : Prop where
  /-- Different nodes have different paths. -/
  unique : ∀ i < inodeCount, ∀ j < inodeCount, (v.nodes i).kind ≠ 0 → (v.nodes j).kind ≠ 0 →
    (v.nodes i).path = (v.nodes j).path → i = j
  /-- The first node is in use, and it alone has the empty path. -/
  root : (v.nodes 0).kind ≠ 0 ∧
    ∀ i < inodeCount, (v.nodes i).kind ≠ 0 → ((v.nodes i).path = [] ↔ i = 0)
  /-- The parent of any other node is a directory. -/
  parent : ∀ i < inodeCount, (v.nodes i).kind ≠ 0 → i ≠ 0 → ∃ j < inodeCount,
    (v.nodes j).kind = nodeDirectory ∧ (v.nodes j).path = parentPath (v.nodes i).path

/-- A tree of paths that could all have been created. -/
structure Tree (v : Vol) : Prop extends Namespace v where
  utf8 : ∀ i < inodeCount, (v.nodes i).kind ≠ 0 → validUtf8 (v.nodes i).path
  clean : ∀ i < inodeCount, (v.nodes i).kind ≠ 0 → i ≠ 0 → CleanPath (v.nodes i).path

namespace Tree

variable {v v' : Vol} {i j : ℕ} {p : List UInt8}

theorem pathStr (h : v.Tree) (hi : i < inodeCount) (hkind : (v.nodes i).kind ≠ 0) :
    (v.nodes i).pathStr = (v.nodes i).path := if_pos (h.utf8 i hi hkind)

theorem matches_iff (h : v.Tree) (hi : i < inodeCount) :
    v.Matches p i ↔ (v.nodes i).kind ≠ 0 ∧ (v.nodes i).path = p :=
  and_congr_right fun hkind => by rw [h.pathStr hi hkind]

theorem find_eq_some (h : v.Tree) :
    v.find p = some i ↔ i < inodeCount ∧ (v.nodes i).kind ≠ 0 ∧ (v.nodes i).path = p := by
  constructor
  · intro hf
    obtain ⟨hi, hm⟩ := Vol.find_eq_some hf
    exact ⟨hi, (h.matches_iff hi).mp hm⟩
  · rintro ⟨hi, hkind, hpath⟩
    cases hf : v.find p with
    | none => exact absurd ((h.matches_iff hi).mpr ⟨hkind, hpath⟩) (Vol.find_eq_none.mp hf i hi)
    | some j =>
      obtain ⟨hj, hm⟩ := Vol.find_eq_some hf
      obtain ⟨hkind', hpath'⟩ := (h.matches_iff hj).mp hm
      rw [h.unique i hi j hj hkind hkind' (hpath.trans hpath'.symm)]

theorem relative (h : v.Tree) (hdec : ∀ i < inodeCount, (v.nodes i).Decoded) : v.Relative := by
  intro i hi
  by_cases hkind : (v.nodes i).kind = 0
  · rw [(hdec i hi).eq_empty hkind]
    rfl
  · rcases eq_or_ne i 0 with rfl | hne
    · rw [(h.root.2 0 hi hkind).mpr rfl]
      rfl
    · exact (h.clean i hi hkind hne).stripPrefix_slash

theorem congr (h : v.Tree) (hkind : ∀ i < inodeCount, (v'.nodes i).kind = (v.nodes i).kind)
    (hpath : ∀ i < inodeCount, (v'.nodes i).path = (v.nodes i).path) : v'.Tree where
  unique i hi j hj := by
    rw [hkind i hi, hkind j hj, hpath i hi, hpath j hj]
    exact h.unique i hi j hj
  root := by
    rw [hkind 0 (by decide)]
    refine ⟨h.root.1, fun i hi => ?_⟩
    rw [hkind i hi, hpath i hi]
    exact h.root.2 i hi
  parent i hi := by
    rw [hkind i hi, hpath i hi]
    intro hk hne
    obtain ⟨j, hj, hdir, hp⟩ := h.parent i hi hk hne
    exact ⟨j, hj, (hkind j hj).trans hdir, (hpath j hj).trans hp⟩
  utf8 i hi := by rw [hkind i hi, hpath i hi]; exact h.utf8 i hi
  clean i hi := by rw [hkind i hi, hpath i hi]; exact h.clean i hi

theorem update (h : v.Tree) {node : Node} (hnodes : v'.nodes = Function.update v.nodes i node)
    (hkind : node.kind = (v.nodes i).kind) (hpath : node.path = (v.nodes i).path) : v'.Tree :=
  h.congr (fun j _ => by
    rw [hnodes]
    rcases eq_or_ne j i with rfl | hj
    · rw [update_self, hkind]
    · rw [update_of_ne hj]) fun j _ => by
    rw [hnodes]
    rcases eq_or_ne j i with rfl | hj
    · rw [update_self, hpath]
    · rw [update_of_ne hj]

/-- **Creating a node** whose path is free, under a directory. -/
theorem create (h : v.Tree) {q : Path} {kind : UInt8} {mode : UInt16} {uid gid : UInt32}
    {node : Node} (hkind : kind = nodeFile ∨ kind = nodeDirectory) (hne : q.bytes ≠ [])
    (hnul : (0 : UInt8) ∉ q.bytes)
    (hnew : v.create q kind mode uid gid = .ok (i, node)) : (v.setNode i node).Tree := by
  obtain ⟨hfound, ⟨a, hfind, hdir⟩, hfree, rfl⟩ := create_eq_ok hnew
  obtain ⟨hpos, hi, hzero⟩ := findFree_eq_some hfree
  have hkind0 := kind_ne_zero hkind
  have hstored : (newNode q kind mode uid gid).stored = newNode q kind mode uid gid :=
    Node.stored_eq_self hkind0 hnul
  rw [hstored]
  have hfresh : ∀ j < inodeCount, (v.nodes j).kind ≠ 0 → (v.nodes j).path ≠ q.bytes := by
    intro j hj hk hp
    rw [h.find_eq_some.mpr ⟨hj, hk, hp⟩] at hfound
    cases hfound
  obtain ⟨ha, hakind, hapath⟩ := h.find_eq_some.mp hfind
  have hself := setNode_nodes_self (v := v) i (newNode q kind mode uid gid)
  have hother : ∀ j, j ≠ i → ((v.setNode i (newNode q kind mode uid gid)).nodes j) = v.nodes j :=
    fun j hj => setNode_nodes_of_ne _ hj
  -- A directory is kept where it was.
  have hkept : ∀ {p}, (∃ j < inodeCount, (v.nodes j).kind = nodeDirectory ∧ (v.nodes j).path = p) →
      ∃ j < inodeCount, ((v.setNode i (newNode q kind mode uid gid)).nodes j).kind = nodeDirectory ∧
        ((v.setNode i (newNode q kind mode uid gid)).nodes j).path = p := by
    rintro p ⟨j, hj, hjdir, hjpath⟩
    have hji : j ≠ i := by
      rintro rfl
      rw [hzero] at hjdir
      exact absurd hjdir (by decide)
    exact ⟨j, hj, by rwa [hother j hji], by rwa [hother j hji]⟩
  exact {
    unique := fun b hb c hc => by
      rcases eq_or_ne b i with rfl | hbi <;> rcases eq_or_ne c b with rfl | hcb
      · exact fun _ _ _ => rfl
      · rw [hself, hother c hcb]
        exact fun _ hk hp => absurd hp.symm (hfresh c hc hk)
      · exact fun _ _ _ => rfl
      · rcases eq_or_ne c i with rfl | hci
        · rw [hself, hother b hbi]
          exact fun hk _ hp => absurd hp (hfresh b hb hk)
        · rw [hother b hbi, hother c hci]
          exact h.unique b hb c hc
    root := by
      rw [hother 0 (by omega)]
      refine ⟨h.root.1, fun b hb => ?_⟩
      rcases eq_or_ne b i with rfl | hbi
      · rw [hself]
        exact fun _ => iff_of_false hne (by omega)
      · rw [hother b hbi]
        exact h.root.2 b hb
    parent := fun b hb => by
      rcases eq_or_ne b i with rfl | hbi
      · rw [hself]
        exact fun _ _ => hkept ⟨a, ha, hdir, hapath⟩
      · rw [hother b hbi]
        exact fun hk hb0 => hkept (h.parent b hb hk hb0)
    utf8 := fun b hb => by
      rcases eq_or_ne b i with rfl | hbi
      · rw [hself]
        exact fun _ => q.utf8
      · rw [hother b hbi]
        exact h.utf8 b hb
    clean := fun b hb => by
      rcases eq_or_ne b i with rfl | hbi
      · rw [hself]
        exact fun _ _ => q.clean.resolve_left hne
      · rw [hother b hbi]
        exact h.clean b hb }

theorem isChild (h : v.Tree) (hi : i < inodeCount) (hkind : (v.nodes i).kind ≠ 0) (hi0 : i ≠ 0)
    (hp : parentPath (v.nodes i).path = p) (hne : p ≠ []) : v.IsChild p i := by
  refine ⟨hkind, ?_⟩
  rw [h.pathStr hi hkind, immediateChild_isSome hne]
  have hclean := h.clean i hi hkind hi0
  rcases slash_cases (v.nodes i).path with hs | ⟨a, b, hab, hb⟩
  · rw [parentPath_of_not_mem hs] at hp
    exact absurd hp.symm hne
  · rw [hab] at hp hclean
    rw [parentPath_append hb] at hp
    exact ⟨b, by rw [hab, hp], (cleanPath_append.mp hclean).2.ne_nil, hb⟩

theorem exists_child (h : v.Tree) (hi : i < inodeCount) (hkind : (v.nodes i).kind ≠ 0)
    (hb : Below p (v.nodes i).path) : ∃ k < inodeCount, (v.nodes k).kind ≠ 0 ∧ k ≠ 0 ∧
      parentPath (v.nodes k).path = p := by
  induction hn : (v.nodes i).path.length using Nat.strong_induction_on generalizing i with
  | _ n ih =>
  subst hn
  have hi0 : i ≠ 0 := by
    rintro rfl
    obtain ⟨r, hr⟩ := hb
    rw [(h.root.2 0 hi hkind).mpr rfl] at hr
    simp at hr
  obtain ⟨r, hr⟩ := hb
  rcases slash_cases r with hs | ⟨a, b, rfl, hb⟩
  · exact ⟨i, hi, hkind, hi0, by rw [hr, parentPath_append hs]⟩
  · -- The parent is under the path as well, and shorter.
    obtain ⟨j, hj, hdir, hpath⟩ := h.parent i hi hkind hi0
    have hparent : parentPath (v.nodes i).path = p ++ slash :: a := by
      rw [hr, show p ++ slash :: (a ++ slash :: b) = (p ++ slash :: a) ++ slash :: b by simp,
        parentPath_append hb]
    refine ih _ ?_ hj (by rw [hdir]; decide) ⟨a, hpath.trans hparent⟩ rfl
    rw [hpath]
    exact length_parentPath_lt (by rw [hr]; simp)

/-- **Deleting a node** that is not the root and has no children. -/
theorem delete (h : v.Tree) (hi : i < inodeCount) (hkind : (v.nodes i).kind ≠ 0)
    (hne : (v.nodes i).path ≠ [])
    (hleaf : (v.nodes i).kind = nodeDirectory → ∀ j < inodeCount, ¬ v.IsChild (v.nodes i).path j)
    (hnodes : v'.nodes = Function.update v.nodes i .empty) : v'.Tree := by
  have hself : (v'.nodes i).kind = 0 := by rw [hnodes, update_self]; rfl
  have hother : ∀ j, (v'.nodes j).kind ≠ 0 → j ≠ i ∧ v'.nodes j = v.nodes j := by
    intro j hj
    have hji : j ≠ i := by
      rintro rfl
      exact hj hself
    exact ⟨hji, by rw [hnodes, update_of_ne hji]⟩
  have hi0 : i ≠ 0 := by
    rintro rfl
    exact hne ((h.root.2 0 hi hkind).mpr rfl)
  exact {
    unique := fun j hj k hk hj' hk' hp => by
      rw [(hother j hj').2, (hother k hk').2] at hp
      exact h.unique j hj k hk ((hother j hj').2 ▸ hj') ((hother k hk').2 ▸ hk') hp
    root := by
      have h0 : v'.nodes 0 = v.nodes 0 := by rw [hnodes, update_of_ne hi0.symm]
      refine ⟨h0 ▸ h.root.1, fun j hj hj' => ?_⟩
      rw [(hother j hj').2]
      exact h.root.2 j hj ((hother j hj').2 ▸ hj')
    parent := fun j hj hj' hj0 => by
      have hjv := (hother j hj').2
      rw [hjv] at hj' ⊢
      obtain ⟨k, hk, hdir, hp⟩ := h.parent j hj hj' hj0
      -- The deleted node is nobody's parent.
      have hki : k ≠ i := by
        rintro rfl
        exact hleaf hdir j hj (h.isChild hj hj' hj0 hp.symm hne)
      have hkv : v'.nodes k = v.nodes k := by rw [hnodes, update_of_ne hki]
      exact ⟨k, hk, by rwa [hkv], by rwa [hkv]⟩
    utf8 := fun j hj hj' => by
      rw [(hother j hj').2]
      exact h.utf8 j hj ((hother j hj').2 ▸ hj')
    clean := fun j hj hj' hj0 => by
      rw [(hother j hj').2]
      exact h.clean j hj ((hother j hj').2 ▸ hj') hj0 }

/-- **Deletions**, one after the other. -/
theorem pruned (h : v.Tree) {below : List UInt8 → Prop} (hp : Pruned below v v') : v'.Tree := by
  induction hp with
  | refl hnodes _ => exact h.congr (fun _ _ => by rw [hnodes]) fun _ _ => by rw [hnodes]
  | step _ hi hkind _ hne hleaf hnodes _ ih =>
    rw [ih.pathStr hi hkind] at hne hleaf
    exact ih.delete hi hkind hne hleaf hnodes

end Tree

theorem formatVol_tree (L : Layout) (d : ℕ → Sector) : (formatVol L d).Tree := by
  have hroot : (formatVol L d).nodes 0 = rootNode := rfl
  have hother : ∀ i, ((formatVol L d).nodes i).kind ≠ 0 → i = 0 := by
    intro i hi
    by_contra hne
    exact hi (by rw [formatVol, setNode_nodes_of_ne _ hne]; rfl)
  exact {
    unique := fun i _ j _ hi hj _ => (hother i hi).trans (hother j hj).symm
    root := ⟨by rw [hroot]; decide, fun i _ hi => by
      obtain rfl := hother i hi
      exact iff_of_true (by rw [hroot]; rfl) rfl⟩
    parent := fun i _ hi hi0 => absurd (hother i hi) hi0
    utf8 := fun i _ hi => by
      obtain rfl := hother i hi
      rw [hroot]
      rfl
    clean := fun i _ hi hi0 => absurd (hother i hi) hi0 }

end Vol

/-! ### Operations -/

/-- The path of an operation. -/
def Operation.path : Operation → Str
  | writeFile path .. => path
  | truncate path => path
  | createDirectory path .. => path
  | remove path _ => path

/-- The path of the operation has no NUL byte. -/
def Operation.NulFree (op : Operation) : Prop := (0 : UInt8) ∉ op.path.val

instance (op : Operation) : Decidable op.NulFree := inferInstanceAs (Decidable (_ ∉ _))

section Outcomes

variable {L : Layout} {v v' : Vol}

theorem mem_canonicalPath {path : Str} {p : Path} (hp : canonicalPath path = .ok p) {b : UInt8}
    (hb : b ∈ p.bytes) : b ∈ path.val := by
  have hsub : ∀ x ∈ (stripPrefix path.val [slash]).getD path.val, x ∈ path.val := by
    intro x hx
    unfold stripPrefix at hx
    split at hx
    · exact List.mem_of_mem_drop hx
    · exact hx
  unfold canonicalPath at hp
  simp only at hp
  split_ifs at hp with h₁ h₂
  · rw [← Except.ok.inj hp] at hb
    exact hsub b hb
  · rw [← Except.ok.inj hp] at hb
    exact absurd hb List.not_mem_nil

theorem Wrote.tree {i offset : ℕ} {input : List UInt8} {r : Except DfsError ℕ}
    (h : Wrote L v v' i offset input r) (htree : v.Tree) : v'.Tree := by
  have hnodes : v'.nodes = Function.update v.nodes i (v'.nodes i) := by
    funext j
    rcases eq_or_ne j i with rfl | hj
    · rw [update_self]
    · rw [update_of_ne hj, h.others j hj]
  exact htree.update hnodes h.kind h.path

/-- **Operations keep the tree**, when their paths have no NUL byte. -/
theorem Operation.Outcome.tree {op : Operation} {r : Except DfsError Unit}
    (h : op.Outcome L v r v') (hnul : op.NulFree) (htree : v.Tree) : v'.Tree := by
  cases h with
  | writeFile h =>
    cases h with
    | refused e => exact htree
    | existing _ _ _ h => exact h.tree htree
    | created hp hne _ hnew h =>
      exact h.tree (htree.create (Or.inl rfl) hne (fun hb => hnul (mem_canonicalPath hp hb)) hnew)
  | truncate h =>
    cases h with
    | refused e => exact htree
    | truncated _ _ _ hnodes _ => exact htree.update hnodes rfl rfl
  | createDirectory h =>
    cases h with
    | refused e => exact htree
    | created hp hne hnew =>
      exact htree.create (Or.inr rfl) hne (fun hb => hnul (mem_canonicalPath hp hb)) hnew
  | @remove path recursive r v' h =>
    cases hp : canonicalPath path with
    | ok p => exact htree.pruned (h.pruned hp)
    | error e =>
      cases h with
      | refused e => exact htree
      | failed e hp' => rw [hp'] at hp; cases hp
      | removed hp' => rw [hp'] at hp; cases hp

end Outcomes

/-! ### Runs -/

/-- An operation on a device that never fails. -/
def Operation.run (L : Layout) (op : Operation) (d : ℕ → Sector) :
    Except DfsError Unit × (ℕ → Sector) := (op.program L).run.run (commitRun L) d

/-- The disks after `format`, allowed operations and mounts, on a device that never fails. -/
inductive Reached (L : Layout) (allowed : Operation → Prop) : (ℕ → Sector) → Prop
  | format {d : ℕ → Sector} (h : Formats L d) : Reached L allowed d
  | perform {d : ℕ → Sector} (h : Reached L allowed d) (op : Operation) (ha : allowed op) :
      Reached L allowed (op.run L d).2
  | remount {d d' : ℕ → Sector} {L' : Layout} (h : Reached L allowed d)
      (hm : (mount L.startLba L.sectors).run.run (fun c => c.elim) d = (.ok L', d')) :
      Reached L allowed d'

section Runs

variable {L : Layout} {allowed : Operation → Prop} {d : ℕ → Sector} {v : Vol}

theorem Operation.run_outcome (hd : Represents L d v) (hacc : v.Exact L) (op : Operation) :
    ∃ v', Represents L (op.run L d).2 v' ∧ v'.Exact L ∧ op.Outcome L v (op.run L d).1 v' :=
  wp_run (Q := fun r d' => ∃ v', Represents L d' v' ∧ v'.Exact L ∧ op.Outcome L v r v')
    (wp_program hd hacc op fun _ _ v' hd' hacc' hout => ⟨v', hd', hacc', hout⟩)

variable {mode : UInt16} {uid gid : UInt32}

theorem Operation.exists_writeFile {path : Str} {offset : ℕ} {input : List UInt8} {create : Bool}
    (h : ((Operation.writeFile path offset input create mode uid gid).run L d).1 = .ok ()) :
    ∃ n d', (Dfs.writeFile L path offset input create mode uid gid).run.run (commitRun L) d =
      (.ok n, d') := by
  rcases hrun : (Dfs.writeFile L path offset input create mode uid gid).run.run (commitRun L) d with
    ⟨r, d'⟩
  have hop : (Operation.writeFile path offset input create mode uid gid).run L d = _ :=
    run_bind_eq hrun
  rw [hop] at h
  cases r with
  | error e => cases h
  | ok n => exact ⟨n, d', rfl⟩

theorem run_createDirectory (hd : Represents L d v) (hacc : v.Exact L) (path : Str) {p : Path}
    (hp : canonicalPath path = .ok p) (hne : p.bytes ≠ [])
    {i : ℕ} {node : Node} (hnew : v.create p nodeDirectory mode uid gid = .ok (i, node)) :
    Represents L ((Operation.createDirectory path mode uid gid).run L d).2 (v.setNode i node) ∧
      (v.setNode i node).Exact L ∧
      ((Operation.createDirectory path mode uid gid).run L d).1 = .ok () := by
  obtain ⟨v', hd', hacc', hout⟩ := (Operation.createDirectory path mode uid gid).run_outcome hd hacc
  generalize ((Operation.createDirectory path mode uid gid).run L d).1 = r at hout
  cases hout with
  | createDirectory h =>
    cases h with
    | refused e h =>
      rw [h p hp hne] at hnew
      cases hnew
    | created hp' _ hnew' =>
      obtain rfl := Except.ok.inj (hp.symm.trans hp')
      obtain ⟨rfl, rfl⟩ := Prod.mk.inj (Except.ok.inj (hnew.symm.trans hnew'))
      exact ⟨hd', hacc', rfl⟩

theorem run_createDirectory_error (hd : Represents L d v) (hacc : v.Exact L) (path : Str) {p : Path}
    (hp : canonicalPath path = .ok p) (hne : p.bytes ≠ [])
    {e : DfsError} (hnew : v.create p nodeDirectory mode uid gid = .error e) :
    Represents L ((Operation.createDirectory path mode uid gid).run L d).2 v ∧
      ((Operation.createDirectory path mode uid gid).run L d).1 = .error e := by
  obtain ⟨v', hd', -, hout⟩ := (Operation.createDirectory path mode uid gid).run_outcome hd hacc
  generalize ((Operation.createDirectory path mode uid gid).run L d).1 = r at hout
  cases hout with
  | createDirectory h =>
    cases h with
    | refused e' h =>
      obtain rfl := Except.error.inj ((h p hp hne).symm.trans hnew)
      exact ⟨hd', rfl⟩
    | created hp' _ hnew' =>
      obtain rfl := Except.ok.inj (hp.symm.trans hp')
      rw [hnew'] at hnew
      cases hnew

theorem Represents.remount (hd : Represents L d v) {d' : ℕ → Sector} {L' : Layout}
    (hm : (mount L.startLba L.sectors).run.run (fun c => c.elim) d = (.ok L', d')) : d' = d := by
  have h := run_mount hd.super (run_replayJournal_of_zero hd.header)
    (hd.node 0 (by decide)) hd.root.1 hd.root.2
  exact (congrArg Prod.snd (hm.symm.trans h))

theorem Reached.tree (h : Reached L allowed d) (hnul : ∀ op, allowed op → op.NulFree) :
    ∃ v, Represents L d v ∧ v.Exact L ∧ v.Tree := by
  induction h with
  | @format d h =>
    obtain ⟨d₀, hformat⟩ := h
    obtain ⟨d', hrun, hrep⟩ := run_format L d₀
    obtain rfl : d' = d := congrArg Prod.snd (hrun.symm.trans hformat)
    exact ⟨_, hrep, formatVol_accounted d₀, Vol.formatVol_tree L d₀⟩
  | perform _ op ha ih =>
    obtain ⟨v, hd, hacc, htree⟩ := ih
    obtain ⟨v', hd', hacc', hout⟩ := op.run_outcome hd hacc
    exact ⟨v', hd', hacc', hout.tree (hnul op ha) htree⟩
  | remount _ hm ih =>
    obtain ⟨v, hd, hacc, htree⟩ := ih
    rw [hd.remount hm]
    exact ⟨v, hd, hacc, htree⟩

/-- **The namespace over whole runs** whose paths have no NUL byte, mounts included. -/
theorem reached_namespace (h : Reached L Operation.NulFree d) :
    ∃ v, Represents L d v ∧ v.Namespace := by
  obtain ⟨v, hd, -, htree⟩ := h.tree fun _ ha => ha
  exact ⟨v, hd, htree.toNamespace⟩

/-- A directory `a` on the sample volume. -/
theorem reached_namespace_sample : ∃ d₀ v, Formats sampleLayout d₀ ∧
    Represents sampleLayout ((Operation.createDirectory ⟨[97], rfl⟩ 0o755 0 0).run
      sampleLayout d₀).2 v ∧ v.Namespace := by
  obtain ⟨d₀, hformats, -⟩ := formats_sample
  obtain ⟨v, hd, hn⟩ := reached_namespace ((Reached.format hformats).perform
    (.createDirectory ⟨[97], rfl⟩ 0o755 0 0) (by decide))
  exact ⟨d₀, v, hformats, hd, hn⟩

/-- The paths `a\0b` and `a\0c`. -/
def nulPath (b : UInt8) (h : validUtf8 [97, 0, b] ∧ CleanPath [97, 0, b]) : Path :=
  ⟨[97, 0, b], h.1, by simp [maxPath], Or.inr h.2⟩

theorem create_nulPath :
    sampleVol.create (nulPath 98 (by decide)) nodeDirectory 0o755 0 0 =
      .ok (1, sampleNode.stored) ∧
    (sampleVol.setNode 1 sampleNode.stored).create
      (nulPath 99 (by decide)) nodeDirectory 0o755 0 0 =
      .ok (2, sampleNode.stored) := by
  decide +kernel

/-- **The namespace without the condition**: `create_directory("a\0b")` and then
`create_directory("a\0c")` leave two nodes with the path `a`. -/
theorem duplicate_path : ∃ d v, Reached sampleLayout (fun _ => True) d ∧
    Represents sampleLayout d v ∧ (v.nodes 1).kind = nodeDirectory ∧
    (v.nodes 2).kind = nodeDirectory ∧ (v.nodes 1).path = (v.nodes 2).path ∧ ¬ v.Namespace := by
  obtain ⟨d₀, hformats, hrep⟩ := formats_sample
  obtain ⟨hd₁, hacc₁, -⟩ := run_createDirectory hrep (formatVol_accounted _)
    ⟨[97, 0, 98], rfl⟩ rfl (by decide) create_nulPath.1
  obtain ⟨hd₂, -⟩ := run_createDirectory hd₁ hacc₁ ⟨[97, 0, 99], rfl⟩ rfl (by decide)
    create_nulPath.2
  refine ⟨_, _, .perform (.perform (.format hformats) _ trivial) _ trivial, hd₂, rfl, rfl, rfl,
    fun h => ?_⟩
  exact absurd (h.unique 1 (by decide) 2 (by decide) (by decide) (by decide) rfl) (by decide)

end Runs

end ImagineOS.Dfs
