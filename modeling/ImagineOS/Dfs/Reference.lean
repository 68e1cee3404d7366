import ImagineOS.Dfs.Namespace

/-!
# DFS: files as a map from paths to contents

A reference file system is a map from paths to the contents of files. `Reference` says what each
operation may do to it: a write that succeeds splices its input into the contents, a write that
fails may at most create an empty file, `truncate` empties a file, `remove` deletes a path and
everything under it, and a recursive `remove` that fails may have deleted some of what is under the
path. The file system refines it (`reached_refines`): along every run there is such a map for each
state, and `read_file` returns exactly what it says, for every path, offset and length.
-/

namespace ImagineOS.Dfs

open BlockProgram Fallible Function Option Vol

/-! ### The map a volume represents -/

/-- The contents of files, by path. -/
abbrev Files : Type := List UInt8 → Option (List UInt8)

namespace Vol

variable {v v' : Vol} {i : ℕ} {p q : List UInt8}

def files (v : Vol) : Files := fun p =>
  (v.find p).bind fun i =>
    if (v.nodes i).kind = nodeFile then some (v.content (v.nodes i)) else none

/-- The sizes of files fit their extents. -/
def Sized (v : Vol) : Prop := ∀ i < inodeCount, (v.nodes i).kind = nodeFile → (v.nodes i).Sized

theorem files_of_find (h : v.find p = some i) : v.files p =
    if (v.nodes i).kind = nodeFile then some (v.content (v.nodes i)) else none := by
  rw [files, h, bind_some]

theorem files_of_none (h : v.find p = none) : v.files p = none := by
  rw [files, h, bind_none]

theorem content_of_owns {node : Node} (h : ∀ lba, node.Owns lba → v'.data lba = v.data lba) :
    v'.content node = v.content node := by
  refine content_congr rfl fun pos _ => ?_
  rw [byteAt, byteAt]
  cases hl : locate node.extents (pos / sectorSize) with
  | none => rfl
  | some lba =>
    simp only
    rw [h lba (covers_of_locate hl)]

theorem find_congr (hkind : ∀ j, (v'.nodes j).kind = (v.nodes j).kind)
    (hpath : ∀ j, (v'.nodes j).path = (v.nodes j).path) (p : List UInt8) :
    v'.find p = v.find p := by
  have hm : ∀ j, v'.Matches p j ↔ v.Matches p j := fun j => by
    rw [Matches, Matches, hkind j, Node.pathStr, Node.pathStr, hpath j]
  simp only [find, hm]

theorem Tree.find_none (h : v.Tree) :
    v.find p = none ↔ ∀ i < inodeCount, (v.nodes i).kind ≠ 0 → (v.nodes i).path ≠ p := by
  rw [find_eq_none]
  exact forall_congr' fun i => forall_congr' fun hi => by rw [h.matches_iff hi]; tauto

theorem find_update (htree : v.Tree) (htree' : v'.Tree)
    (hother : ∀ j, j ≠ i → v'.nodes j = v.nodes j)
    (hp : (v.nodes i).kind ≠ 0 → (v.nodes i).path ≠ q)
    (hp' : (v'.nodes i).kind ≠ 0 → (v'.nodes i).path ≠ q) :
    v'.find q = v.find q ∧ ∀ j, v.find q = some j → j ≠ i := by
  have hne : ∀ j, v.find q = some j → j ≠ i := by
    rintro j hf rfl
    obtain ⟨-, hk, hpath⟩ := htree.find_eq_some.mp hf
    exact hp hk hpath
  refine ⟨?_, hne⟩
  cases hf : v.find q with
  | none =>
    refine htree'.find_none.mpr fun j hj hk => ?_
    rcases eq_or_ne j i with rfl | hji
    · exact hp' hk
    · rw [hother j hji] at hk ⊢
      exact htree.find_none.mp hf j hj hk
  | some j =>
    obtain ⟨hj, hk, hpath⟩ := htree.find_eq_some.mp hf
    have hji := hne j hf
    refine htree'.find_eq_some.mpr ⟨hj, ?_, ?_⟩ <;> rwa [hother j hji]

/-- What is seen of the node at a path, and of its contents. -/
def observe {α : Type} (f : Node → List UInt8 → Option α) (v : Vol) (p : List UInt8) : Option α :=
  (v.find p).bind fun i => f (v.nodes i) (v.content (v.nodes i))

/-- The contents of a file. -/
def contentOf (node : Node) (content : List UInt8) : Option (List UInt8) :=
  if node.kind = nodeFile then some content else none

variable {α : Type} {f : Node → List UInt8 → Option α}

/-- **One node changes**: other paths show what they showed. -/
theorem observe_update (htree : v.Tree) (htree' : v'.Tree) (hi : i < inodeCount)
    (hkind : (v'.nodes i).kind ≠ 0) (hother : ∀ j, j ≠ i → v'.nodes j = v.nodes j)
    (hcontent : ∀ j < inodeCount, j ≠ i → v'.content (v.nodes j) = v.content (v.nodes j))
    (hpath : (v.nodes i).kind ≠ 0 → (v.nodes i).path = (v'.nodes i).path) :
    v'.observe f = Function.update (v.observe f) (v'.nodes i).path
      (f (v'.nodes i) (v'.content (v'.nodes i))) := by
  funext q
  rw [update_apply]
  split
  · rename_i hq
    rw [observe, htree'.find_eq_some.mpr ⟨hi, hkind, hq.symm⟩, bind_some]
  · rename_i hq
    obtain ⟨hfind, hne⟩ := find_update (q := q) htree htree' hother
      (fun hk hp => hq ((hpath hk).symm.trans hp).symm) fun _ hp => hq hp.symm
    rw [observe, observe, hfind]
    cases hf : v.find q with
    | none => rfl
    | some j =>
      have hji := hne j hf
      rw [bind_some, bind_some, hother j hji, hcontent j (find_eq_some hf).1 hji]

end Vol

/-! ### What operations do to the map -/

section Outcomes

variable {L : Layout} {leaked : ℕ → Prop} {v v' : Vol} {i : ℕ}

variable {α : Type} {f : Node → List UInt8 → Option α}

/-- **Writing**: other paths show what they showed. -/
theorem Wrote.observe {offset : ℕ} {input : List UInt8} {r : Except DfsError ℕ}
    (h : Wrote L v v' i offset input r) (htree : v.Tree) (hacc : v'.Accounted L leaked)
    (hi : i < inodeCount) (hkind : (v.nodes i).kind = nodeFile) :
    v'.observe f = Function.update (v.observe f) (v.nodes i).path
      (f (v'.nodes i) (v'.content (v'.nodes i))) := by
  have hne : (v'.nodes i).kind ≠ 0 := by rw [h.kind, hkind]; decide
  rw [← h.path]
  refine observe_update htree (h.tree htree) hi hne h.others (fun j hj hji => ?_)
    fun _ => h.path.symm
  refine content_of_owns fun lba ho => h.frame lba fun ho' => ?_
  rw [← h.others j hji] at ho
  exact hji (hacc.separate j hj i hi lba ho ho')

theorem Wrote.files {offset : ℕ} {input : List UInt8} {r : Except DfsError ℕ}
    (h : Wrote L v v' i offset input r) (htree : v.Tree) (hacc : v'.Accounted L leaked)
    (hi : i < inodeCount) (hkind : (v.nodes i).kind = nodeFile) :
    v'.files = Function.update v.files (v.nodes i).path (some (v'.content (v'.nodes i))) :=
  (h.observe (f := Vol.contentOf) htree hacc hi hkind).trans
    (by rw [Vol.contentOf, if_pos (h.kind.trans hkind)]; rfl)

theorem Wrote.volSized {offset : ℕ} {input : List UInt8} {r : Except DfsError ℕ}
    (h : Wrote L v v' i offset input r) (hnum : Numbered L (sectorsFor (offset + input.length)))
    (hsized : v.Sized) : v'.Sized := by
  intro j hj hkind
  rcases eq_or_ne j i with rfl | hji
  · exact h.sized hnum (hsized j hj (h.kind.symm.trans hkind))
  · rw [h.others j hji] at hkind ⊢
    exact hsized j hj hkind

variable {p : Path}

/-- **Creating**: the path shows the new node, which has no contents. -/
theorem observe_create (htree : v.Tree) {kind : UInt8} {mode : UInt16} {uid gid : UInt32}
    {node : Node} (hkind : kind = nodeFile ∨ kind = nodeDirectory) (hne : p.bytes ≠ [])
    (hnul : (0 : UInt8) ∉ p.bytes) (hnew : v.create p kind mode uid gid = .ok (i, node)) :
    v.observe f p.bytes = none ∧ (v.setNode i node).observe f =
      Function.update (v.observe f) p.bytes (f (newNode p kind mode uid gid) []) := by
  have htree' := htree.create hkind hne hnul hnew
  obtain ⟨hfound, -, hfree, hnode⟩ := create_eq_ok hnew
  obtain ⟨-, hi, hzero⟩ := findFree_eq_some hfree
  rw [Node.stored_eq_self (kind_ne_zero hkind) hnul] at hnode
  have hself : (v.setNode i node).nodes i = newNode p kind mode uid gid :=
    (setNode_nodes_self (v := v) i node).trans hnode
  refine ⟨by rw [Vol.observe, hfound, bind_none], ?_⟩
  rw [observe_update htree htree' hi (by rw [hself]; exact kind_ne_zero hkind)
    (fun j hj => setNode_nodes_of_ne _ hj) (fun _ _ _ => rfl) fun hk => absurd hzero hk, hself]
  rfl

theorem files_create (htree : v.Tree) {kind : UInt8} {mode : UInt16} {uid gid : UInt32}
    {node : Node} (hkind : kind = nodeFile ∨ kind = nodeDirectory) (hne : p.bytes ≠ [])
    (hnul : (0 : UInt8) ∉ p.bytes) (hnew : v.create p kind mode uid gid = .ok (i, node)) :
    v.files p.bytes = none ∧ (v.setNode i node).files =
      Function.update v.files p.bytes (if kind = nodeFile then some [] else none) :=
  observe_create (f := Vol.contentOf) htree hkind hne hnul hnew

theorem sized_create (hsized : v.Sized) {kind : UInt8} {mode : UInt16} {uid gid : UInt32}
    {node : Node} (hkind : kind = nodeFile ∨ kind = nodeDirectory)
    (hnew : v.create p kind mode uid gid = .ok (i, node)) : (v.setNode i node).Sized := by
  obtain ⟨-, -, -, hnode⟩ := create_eq_ok hnew
  intro j hj hfile
  rcases eq_or_ne j i with rfl | hji
  · rw [setNode_nodes_self, hnode, Node.stored_of_kind_ne (kind_ne_zero hkind)]
    exact ⟨⟨trivial, Nat.two_pow_pos 32⟩, Nat.zero_le _⟩
  · rw [setNode_nodes_of_ne _ hji] at hfile ⊢
    exact hsized j hj hfile

/-- **Truncating** a file. -/
theorem files_truncate (htree : v.Tree) (hi : i < inodeCount) (hkind : (v.nodes i).kind = nodeFile)
    (hnodes : v'.nodes = Function.update v.nodes i (v.nodes i).cleared) (hdata : v'.data = v.data) :
    v'.files = Function.update v.files (v.nodes i).path (some []) := by
  have htree' : v'.Tree := htree.update hnodes rfl rfl
  have hself : v'.nodes i = (v.nodes i).cleared := by rw [hnodes, update_self]
  have hne : (v.nodes i).kind ≠ 0 := by rw [hkind]; decide
  have hobserve := observe_update (f := Vol.contentOf) htree htree' hi
    (by rw [hself]; exact hne) (fun j hj => by rw [hnodes, update_of_ne hj])
    (fun j _ _ => content_of_owns fun lba _ => by rw [hdata]) fun _ => by rw [hself]; rfl
  rw [hself, Vol.contentOf,
    if_pos (show (v.nodes i).cleared.kind = nodeFile from hkind)] at hobserve
  exact hobserve

variable {below : List UInt8 → Prop}

/-- **Deletions**: a file is as it was, or its path was deleted. -/
theorem Pruned.files (h : Pruned below v v') (htree : v.Tree)
    (q : List UInt8) : v'.files q = v.files q ∨ (below q ∧ v'.files q = none) := by
  have htree' := htree.pruned h
  have hkept : ∀ j, (v'.nodes j).kind ≠ 0 → v'.nodes j = v.nodes j := fun _ => h.eq_of_kind
  cases hf : v.find q with
  | none =>
    refine Or.inl ((files_of_none (htree'.find_none.mpr fun j hj hk hp => ?_)).trans
      (files_of_none hf).symm)
    have hjv := hkept j hk
    rw [hjv] at hk hp
    exact htree.find_none.mp hf j hj hk hp
  | some j =>
    obtain ⟨hj, hk, hp⟩ := htree.find_eq_some.mp hf
    rcases h.nodes j with hn | hn
    · have hf' : v'.find q = some j := htree'.find_eq_some.mpr ⟨hj, by rwa [hn], by rwa [hn]⟩
      have hc : v'.content (v.nodes j) = v.content (v.nodes j) :=
        content_of_owns fun lba _ => by rw [h.data]
      exact Or.inl (by rw [files_of_find hf, files_of_find hf', hn, hc])
    · refine Or.inr ⟨?_, files_of_none (htree'.find_none.mpr fun k hk' hkk hkp => ?_)⟩
      · have := hn.2
        rwa [htree.pathStr hj hk, hp] at this
      · -- No other node has the path.
        have hkv := hkept k hkk
        rw [hkv] at hkk hkp
        obtain rfl := htree.unique j hj k hk' hk hkk (hp.trans hkp.symm)
        rw [← hkv, hn.1] at hkk
        exact hkk rfl

/-- **Removing**: nothing is left at the path or under it. -/
theorem RemoveOutcome.find_none (htree : v.Tree) (hne : p.bytes ≠ [])
    (hfind : v.find p.bytes = some i) {v₁ : Vol} (h : Pruned below v v₁)
    (hleaf : (v.nodes i).kind = nodeDirectory → ∀ j < inodeCount, ¬ v₁.IsChild p.bytes j)
    (hnodes : v'.nodes = Function.update v₁.nodes i .empty) (htree' : v'.Tree) {q : List UInt8}
    (hq : q = p.bytes ∨ Below p.bytes q) : v'.find q = none := by
  have htree₁ := htree.pruned h
  obtain ⟨hi, hik, hip⟩ := htree.find_eq_some.mp hfind
  have hkept : ∀ j, (v₁.nodes j).kind ≠ 0 → v₁.nodes j = v.nodes j := fun _ => h.eq_of_kind
  have hother : ∀ j, (v'.nodes j).kind ≠ 0 → j ≠ i ∧ v'.nodes j = v₁.nodes j := by
    intro j hj
    have hji : j ≠ i := by
      rintro rfl
      rw [hnodes, update_self] at hj
      exact hj rfl
    exact ⟨hji, by rw [hnodes, update_of_ne hji]⟩
  refine htree'.find_none.mpr fun j hj hk hp => ?_
  obtain ⟨hji, hjv⟩ := hother j hk
  rw [hjv] at hk hp
  rcases hq with rfl | hq
  · have hjv' := hkept j hk
    rw [hjv'] at hk hp
    exact hji (htree.unique j hj i hi hk hik (hp.trans hip.symm))
  · -- The path has a child, and so is the path of a directory.
    obtain ⟨k, hk', hkk, hk0, hparent⟩ := htree₁.exists_child hj hk (by rw [hp]; exact hq)
    obtain ⟨a, ha, hadir, hapath⟩ := htree₁.parent k hk' hkk hk0
    have hak : (v₁.nodes a).kind ≠ 0 := by rw [hadir]; decide
    have hav := hkept a hak
    rw [hav] at hadir hapath hak
    obtain rfl := htree.unique a ha i hi hak hik (hapath.trans (hparent.trans hip.symm))
    exact hleaf hadir k hk' (htree₁.isChild hk' hkk hk0 hparent hne)

theorem Pruned.volSized (h : Pruned below v v') (hsized : v.Sized) :
    v'.Sized := by
  intro j hj hkind
  rcases h.nodes j with hn | hn
  · rw [hn] at hkind ⊢
    exact hsized j hj hkind
  · rw [hn.1] at hkind
    exact absurd hkind (by decide)

end Outcomes

/-! ### The reference -/

/-- What an operation may do to the reference, given its answer. -/
inductive Reference (files : Files) : Operation → Except DfsError Unit → Files → Prop
  | refused {op : Operation} {e : DfsError} : Reference files op (.error e) files
  | written {path : Str} {p : Path} {offset : ℕ} {input : List UInt8} {create : Bool}
      {mode : UInt16}
      {uid gid : UInt32} (hp : canonicalPath path = .ok p)
      (hold : create = true ∨ (files p.bytes).isSome)
      (hoffset : offset ≤ ((files p.bytes).getD []).length) :
      Reference files (.writeFile path offset input create mode uid gid) (.ok ())
        (Function.update files p.bytes (some (splice ((files p.bytes).getD []) offset input)))
  | created {path : Str} {p : Path} {offset : ℕ} {input : List UInt8} {mode : UInt16}
      {uid gid : UInt32} {e : DfsError} (hp : canonicalPath path = .ok p)
      (hnone : files p.bytes = none) :
      Reference files (.writeFile path offset input true mode uid gid) (.error e)
        (Function.update files p.bytes (some []))
  | truncated {path : Str} {p : Path} (hp : canonicalPath path = .ok p)
      (hsome : (files p.bytes).isSome) :
      Reference files (.truncate path) (.ok ()) (Function.update files p.bytes (some []))
  | createdDirectory {path : Str} {mode : UInt16} {uid gid : UInt32} :
      Reference files (.createDirectory path mode uid gid) (.ok ()) files
  | removed {path : Str} {p : Path} {recursive : Bool} {files' : Files}
      (hp : canonicalPath path = .ok p)
      (hgone : ∀ q, q = p.bytes ∨ Below p.bytes q → files' q = none)
      (hkept : ∀ q, ¬ (q = p.bytes ∨ Below p.bytes q) → files' q = files q) :
      Reference files (.remove path recursive) (.ok ()) files'
  | partlyRemoved {path : Str} {p : Path} {files' : Files} {e : DfsError}
      (hp : canonicalPath path = .ok p)
      (hkept : ∀ q, files' q = files q ∨ (Below p.bytes q ∧ files' q = none)) :
      Reference files (.remove path true) (.error e) files'

/-- `read_file` returns what the map says: a slice of the contents, or an error where there is no
file. -/
def Agrees (L : Layout) (d : ℕ → Sector) (files : Files) : Prop :=
  ∀ (path : Str) (offset length : ℕ), ∃ r,
    (readFile L path offset length : DfsProgram Transaction (List UInt8)).run.run (commitRun L) d =
      (r, d) ∧
    match (canonicalPath path).toOption.bind fun p => files p.bytes with
    | some content => r = .ok ((content.drop offset).take length)
    | none => ∃ e, r = .error e

/-- A write ends below the last sector that a 32-bit number can count, unless the partition has
fewer sectors than that. -/
def Operation.Numbered (L : Layout) : Operation → Prop
  | writeFile _ offset input _ _ _ _ => Dfs.Numbered L (sectorsFor (offset + input.length))
  | _ => True

/-- `Refines L allowed d files`: a run to the disk `d`, and a run of the reference to `files`, such
that each operation does to the map what the reference allows, and every state of the one agrees
with the state of the other before the next operation. -/
inductive Refines (L : Layout) (allowed : Operation → Prop) : (ℕ → Sector) → Files → Prop
  | format {d : ℕ → Sector} (h : Formats L d) : Refines L allowed d fun _ => none
  | perform {d : ℕ → Sector} {files files' : Files} (h : Refines L allowed d files)
      (hagree : Agrees L d files) (op : Operation) (ha : allowed op)
      (href : Reference files op (op.run L d).1 files') : Refines L allowed (op.run L d).2 files'
  | remount {d d' : ℕ → Sector} {L' : Layout} {files : Files} (h : Refines L allowed d files)
      (hm : (mount L.startLba L.sectors).run.run (fun c => c.elim) d = (.ok L', d')) :
      Refines L allowed d' files

section Simulation

variable {L : Layout} {leaked : ℕ → Prop} {d : ℕ → Sector} {v v' : Vol}

theorem Vol.Tree.path_of_find (htree : v.Tree) {p : List UInt8} {i : ℕ} (h : v.find p = some i) :
    (v.nodes i).path = p :=
  (htree.find_eq_some.mp h).2.2

section Outcomes

variable {path : Str} {offset i : ℕ} {input : List UInt8} {mode : UInt16} {uid gid : UInt32}
  {p : Path} {node : Node}

variable {r : Except DfsError ℕ}

/-- A write to a file that is there, simulated by the reference. -/
theorem Wrote.reference_existing {create : Bool} (h : Wrote L v v' i offset input r)
    (hp : canonicalPath path = .ok p) (hfind : v.find p.bytes = some i)
    (hkind : (v.nodes i).kind = nodeFile)
    (hnum : Dfs.Numbered L (sectorsFor (offset + input.length))) (htree : v.Tree)
    (hsized : v.Sized) (hacc : v'.Accounted L leaked) :
    Reference v.files (.writeFile path offset input create mode uid gid) (r.map fun _ => ())
      v'.files := by
  have hi := (find_eq_some hfind).1
  have hold : v.files p.bytes = some (v.content (v.nodes i)) := by
    rw [files_of_find hfind, if_pos hkind]
  have hfiles := h.files htree hacc hi hkind
  rw [htree.path_of_find hfind] at hfiles
  cases r with
  | error e =>
    rw [hfiles, h.failed hnum (hsized i hi hkind) e rfl, ← hold, update_eq_self]
    exact .refused
  | ok n =>
    obtain ⟨hoffset, -, hcontent⟩ := h.succeeded hnum (hsized i hi hkind) n rfl
    have href : Reference v.files (.writeFile path offset input create mode uid gid) (.ok ())
        (Function.update v.files p.bytes
          (some (splice ((v.files p.bytes).getD []) offset input))) :=
      .written hp (Or.inr (by rw [hold]; rfl))
        (by rw [hold, getD_some, length_content]; exact hoffset)
    rw [hold, getD_some, ← hcontent] at href
    rw [hfiles]
    exact href

/-- A write to a file that was just created, simulated by the reference. -/
theorem Wrote.reference_created {mode' : UInt16} {uid' gid' : UInt32}
    (h : Wrote L (v.setNode i node) v' i offset input r) (hp : canonicalPath path = .ok p)
    (hne : p.bytes ≠ []) (hnew : v.create p nodeFile mode' uid' gid' = .ok (i, node))
    (hnul : (0 : UInt8) ∉ p.bytes)
    (hnum : Dfs.Numbered L (sectorsFor (offset + input.length))) (htree : v.Tree)
    (hsized : v.Sized) (hacc : v'.Accounted L leaked) :
    Reference v.files (.writeFile path offset input true mode uid gid) (r.map fun _ => ())
      v'.files := by
  obtain ⟨hnone, hfiles₁⟩ := files_create htree (Or.inl rfl) hne hnul hnew
  rw [if_pos rfl] at hfiles₁
  have htree₁ := htree.create (Or.inl rfl) hne hnul hnew
  have hsized₁ := sized_create hsized (Or.inl rfl) hnew
  obtain ⟨-, -, hfree, hnode⟩ := create_eq_ok hnew
  rw [Node.stored_eq_self (kind_ne_zero (Or.inl rfl)) hnul] at hnode
  have hi := (findFree_eq_some hfree).2.1
  have hself := setNode_nodes_self (v := v) i node
  have hkind : ((v.setNode i node).nodes i).kind = nodeFile := by rw [hself, hnode]; rfl
  have hpath : ((v.setNode i node).nodes i).path = p.bytes := by rw [hself, hnode]; rfl
  have hempty : (v.setNode i node).content ((v.setNode i node).nodes i) = [] := by
    rw [hself, hnode]
    rfl
  have hfiles := h.files htree₁ hacc hi hkind
  rw [hpath, hfiles₁, update_idem] at hfiles
  cases r with
  | error e =>
    rw [hfiles, h.failed hnum (hsized₁ i hi hkind) e rfl, hempty]
    exact .created hp hnone
  | ok n =>
    obtain ⟨hoffset, -, hcontent⟩ := h.succeeded hnum (hsized₁ i hi hkind) n rfl
    rw [← length_content (v.setNode i node), hempty] at hoffset
    have href : Reference v.files (.writeFile path offset input true mode uid gid) (.ok ())
        (Function.update v.files p.bytes
          (some (splice ((v.files p.bytes).getD []) offset input))) :=
      .written hp (Or.inl rfl) (by rw [hnone]; exact hoffset)
    rw [hnone, getD_none, ← hempty, ← hcontent] at href
    rw [hfiles]
    exact href

theorem WriteOutcome.reference {create : Bool}
    (h : WriteOutcome L v path offset input create r v') (hnul : (0 : UInt8) ∉ path.val)
    (hnum : Dfs.Numbered L (sectorsFor (offset + input.length))) (htree : v.Tree)
    (hsized : v.Sized) (hacc : v'.Accounted L leaked) :
    Reference v.files (.writeFile path offset input create mode uid gid) (r.map fun _ => ())
      v'.files ∧ v'.Sized := by
  cases h with
  | refused e => exact ⟨.refused, hsized⟩
  | existing hp hfind hkind h =>
    exact ⟨h.reference_existing hp hfind hkind hnum htree hsized hacc, h.volSized hnum hsized⟩
  | created hp hne hcreate hnew h =>
    subst hcreate
    exact ⟨h.reference_created hp hne hnew (fun hb => hnul (mem_canonicalPath hp hb)) hnum htree
      hsized hacc, h.volSized hnum (sized_create hsized (Or.inl rfl) hnew)⟩

theorem TruncateOutcome.reference {r : Except DfsError Unit} (h : TruncateOutcome v path r v')
    (htree : v.Tree) (hsized : v.Sized) :
    Reference v.files (.truncate path) r v'.files ∧ v'.Sized := by
  cases h with
  | refused e => exact ⟨.refused, hsized⟩
  | @truncated p i v' hp hfind hkind hnodes hdata =>
    have hi := (find_eq_some hfind).1
    refine ⟨?_, fun j hj hfile => ?_⟩
    · rw [files_truncate htree hi hkind hnodes hdata, htree.path_of_find hfind]
      exact .truncated hp (by rw [files_of_find hfind, if_pos hkind]; rfl)
    · rw [hnodes] at hfile ⊢
      rcases eq_or_ne j i with rfl | hji
      · rw [update_self]
        exact ⟨⟨trivial, Nat.two_pow_pos 32⟩, Nat.zero_le _⟩
      · rw [update_of_ne hji] at hfile ⊢
        exact hsized j hj hfile

theorem CreateOutcome.reference {r : Except DfsError Unit}
    (h : CreateOutcome v path mode uid gid r v') (hnul : (0 : UInt8) ∉ path.val) (htree : v.Tree)
    (hsized : v.Sized) :
    Reference v.files (.createDirectory path mode uid gid) r v'.files ∧ v'.Sized := by
  cases h with
  | refused e => exact ⟨.refused, hsized⟩
  | created hp hne hnew =>
    obtain ⟨hnone, hfiles⟩ := files_create htree (Or.inr rfl) hne
      (fun hb => hnul (mem_canonicalPath hp hb)) hnew
    rw [if_neg (by decide), ← hnone, update_eq_self] at hfiles
    rw [hfiles]
    exact ⟨.createdDirectory, sized_create hsized (Or.inr rfl) hnew⟩

theorem RemoveOutcome.reference {recursive : Bool} {r : Except DfsError Unit}
    (h : RemoveOutcome v.Relative v path recursive r v') (htree : v.Tree) (htree' : v'.Tree)
    (hrel : v.Relative) (hsized : v.Sized) :
    Reference v.files (.remove path recursive) r v'.files ∧ v'.Sized := by
  cases h with
  | refused e => exact ⟨.refused, hsized⟩
  | failed e hp hrec h =>
    subst hrec
    refine ⟨.partlyRemoved hp fun q => ?_, h.volSized hsized⟩
    exact (h.files htree q).imp_right fun ⟨hb, hn⟩ => ⟨hb hrel, hn⟩
  | removed hp hne hfind h hleaf hnodes hdata =>
    have hout : RemoveOutcome v.Relative v path recursive (.ok ()) v' :=
      .removed hp hne hfind h hleaf hnodes hdata
    have hpruned := hout.pruned hp
    refine ⟨.removed hp (fun q hq => ?_) fun q hq => ?_, hpruned.volSized hsized⟩
    · exact files_of_none (RemoveOutcome.find_none htree hne hfind h hleaf hnodes htree' hq)
    · exact (hpruned.files htree q).resolve_right fun ⟨hb, _⟩ => hq (hb hrel)

end Outcomes

/-- **One operation**, simulated by the reference. -/
theorem Operation.Outcome.reference {op : Operation} {r : Except DfsError Unit}
    (h : op.Outcome L v r v') (hnul : op.NulFree) (hnum : op.Numbered L) (htree : v.Tree)
    (hrel : v.Relative) (hsized : v.Sized) (hacc : v'.Accounted L leaked) :
    Reference v.files op r v'.files ∧ v'.Sized := by
  have htree' := h.tree hnul htree
  cases h with
  | writeFile h => exact h.reference hnul hnum htree hsized hacc
  | truncate h => exact h.reference htree hsized
  | createDirectory h => exact h.reference hnul htree hsized
  | remove h => exact h.reference htree htree' hrel hsized

/-- `read_file` agrees with the files of the volume. -/
theorem Represents.agrees (hd : Represents L d v) (hacc : v.Accounted L leaked) (hsized : v.Sized) :
    Agrees L d v.files := by
  intro path offset length
  have hrun := wp_run (L := L) (Q := fun r d' => (r, d') = (v.read path offset length, d))
    (wp_readFile hd hacc hsized rfl)
  refine ⟨_, hrun, ?_⟩
  cases hp : canonicalPath path with
  | error e =>
    simp only [Vol.read, hp, Except.toOption, bind_none]
    exact ⟨e, rfl⟩
  | ok p =>
    simp only [Vol.read, hp, Except.toOption, bind_some]
    cases hf : v.find p.bytes with
    | none =>
      rw [files_of_none hf]
      exact ⟨.notFound, by simp [bind, Except.bind, hf]⟩
    | some i =>
      rw [files_of_find hf]
      by_cases hkind : (v.nodes i).kind = nodeFile
      · rw [if_pos hkind]
        simp [bind, Except.bind, hf, hkind]
      · rw [if_neg hkind]
        exact ⟨.isDirectory, by simp [bind, Except.bind, hf, hkind]⟩

theorem kind_formatVol (L : Layout) (d : ℕ → Sector) (i : ℕ) :
    ((formatVol L d).nodes i).kind ≠ nodeFile := by
  rcases eq_or_ne i 0 with rfl | hi
  · rw [formatVol, setNode_nodes_self, show rootNode.kind = nodeDirectory from rfl]
    decide
  · rw [formatVol, setNode_nodes_of_ne _ hi, show ((blankVol L d).nodes i).kind = 0 from rfl]
    decide

theorem files_formatVol (L : Layout) (d : ℕ → Sector) : (formatVol L d).files = fun _ => none := by
  funext p
  rw [Vol.files]
  cases (formatVol L d).find p with
  | none => rfl
  | some i => rw [bind_some, if_neg (kind_formatVol L d i)]

/-- **The file system refines the reference**: along every run there is a map for each state, which
each operation changes as the reference allows, and `read_file` returns what it says. -/
theorem reached_refines (h : Reached L (fun op => op.NulFree ∧ op.Numbered L) d) :
    ∃ files, Refines L (fun op => op.NulFree ∧ op.Numbered L) d files ∧ Agrees L d files := by
  suffices hs : ∃ v, Represents L d v ∧ v.Exact L ∧ v.Tree ∧ v.Sized ∧
      Refines L (fun op => op.NulFree ∧ op.Numbered L) d v.files by
    obtain ⟨v, hd, hacc, -, hsized, href⟩ := hs
    exact ⟨v.files, href, hd.agrees hacc hsized⟩
  induction h with
  | @format d h =>
    obtain ⟨d₀, hformat⟩ := h
    obtain ⟨d', hrun, hrep⟩ := run_format L d₀
    obtain rfl : d' = d := congrArg Prod.snd (hrun.symm.trans hformat)
    refine ⟨_, hrep, formatVol_accounted d₀, Vol.formatVol_tree L d₀, fun i _ hkind =>
      absurd hkind (kind_formatVol L d₀ i), ?_⟩
    rw [files_formatVol]
    exact .format ⟨d₀, hformat⟩
  | perform _ op ha ih =>
    obtain ⟨v, hd, hacc, htree, hsized, href⟩ := ih
    obtain ⟨v', hd', hacc', hout⟩ := op.run_outcome hd hacc
    obtain ⟨hstep, hsized'⟩ := hout.reference ha.1 ha.2 htree
      (htree.relative fun i hi => hd.decoded hi) hsized hacc'
    exact ⟨v', hd', hacc', hout.tree ha.1 htree, hsized',
      href.perform (hd.agrees hacc hsized) op ha hstep⟩
  | remount _ hm ih =>
    obtain ⟨v, hd, hacc, htree, hsized, href⟩ := ih
    refine ⟨v, ?_, hacc, htree, hsized, href.remount hm⟩
    rwa [hd.remount hm]

/-- Writing one byte to a new file `a` on the sample volume. -/
theorem reached_refines_sample : ∃ d₀ files, Formats sampleLayout d₀ ∧
    Refines sampleLayout (fun op => op.NulFree ∧ op.Numbered sampleLayout)
      ((Operation.writeFile ⟨[97], rfl⟩ 0 [1] true 0o644 0 0).run sampleLayout d₀).2 files ∧
    Agrees sampleLayout
      ((Operation.writeFile ⟨[97], rfl⟩ 0 [1] true 0o644 0 0).run sampleLayout d₀).2 files := by
  obtain ⟨d₀, hformats, -⟩ := formats_sample
  obtain ⟨files, h⟩ := reached_refines ((Reached.format hformats).perform
    (.writeFile ⟨[97], rfl⟩ 0 [1] true 0o644 0 0) ⟨by decide, Or.inr (by decide)⟩)
  exact ⟨d₀, files, hformats, h⟩

end Simulation

end ImagineOS.Dfs
