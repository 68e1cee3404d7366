import ImagineOS.Dfs.Reference
import ImagineOS.Overlay.Archive

/-!
# DFS: what paths lead to

A volume as a map from paths to entries: a directory, or a file with its contents, and in both cases
a mode and an owner. It says what `stat` answers, and more than `Vol.files`, which has the contents
only.
-/

namespace ImagineOS.Dfs

open BlockProgram Fallible Option Vol

open Overlay (Metadata)

/-! ### The map -/

/-- A file with its contents, or a directory. -/
structure Entry where
  content : Option (List UInt8)
  mode : UInt16
  uid : UInt32
  gid : UInt32
  deriving DecidableEq

/-- What paths lead to. -/
abbrev Entries : Type := List UInt8 → Option Entry

namespace Vol

variable {v : Vol} {i : ℕ} {q : List UInt8}

def entry (v : Vol) (node : Node) : Entry where
  content := if node.kind = nodeFile then some (v.content node) else none
  mode := node.mode
  uid := node.uid
  gid := node.gid

/-- The entries of a volume. -/
def entries (v : Vol) : Entries := fun p => (v.find p).map fun i => v.entry (v.nodes i)

theorem entries_of_find (h : v.find q = some i) : v.entries q = some (v.entry (v.nodes i)) := by
  rw [entries, h, map_some]

theorem entries_of_none (h : v.find q = none) : v.entries q = none := by
  rw [entries, h, map_none]

theorem files_eq (v : Vol) (q : List UInt8) : v.files q = (v.entries q).bind (·.content) := by
  cases h : v.find q with
  | none => rw [files_of_none h, entries_of_none h, bind_none]
  | some i =>
    rw [files_of_find h, entries_of_find h, bind_some]
    rfl

theorem entry_of_file {node : Node} (h : node.kind = nodeFile) :
    v.entry node = ⟨some (v.content node), node.mode, node.uid, node.gid⟩ := by
  rw [entry, if_pos h]

theorem kind_eq_directory {L : Layout} {d : ℕ → Sector} (hd : Represents L d v)
    (h : v.find q = some i) :
    (v.entry (v.nodes i)).content = none ↔ (v.nodes i).kind = nodeDirectory := by
  rw [entry]
  by_cases hkind : (v.nodes i).kind = nodeDirectory
  · rw [if_neg (by rw [hkind]; decide)]
    exact iff_of_true rfl hkind
  · rw [if_pos (kind_of_matches hd h hkind)]
    exact iff_of_false (by simp) hkind

/-- What an entry says of a node. -/
def entryOf (node : Node) (content : List UInt8) : Option Entry :=
  some ⟨contentOf node content, node.mode, node.uid, node.gid⟩

theorem entries_eq_observe (v : Vol) : v.entries = v.observe entryOf :=
  funext fun _ => map_eq_bind

end Vol

/-! ### What operations do to the map -/

section Outcomes

variable {L : Layout} {leaked : ℕ → Prop} {v v' : Vol} {i : ℕ}

/-- The entry of a new node. -/
def newEntry (kind : UInt8) (mode : UInt16) (uid gid : UInt32) : Entry :=
  ⟨if kind = nodeFile then some [] else none, mode, uid, gid⟩

/-- **Creating**: the path leads to a new entry. -/
theorem entries_create (htree : v.Tree) {p : Path} {kind : UInt8} {mode : UInt16} {uid gid : UInt32}
    {node : Node} (hkind : kind = nodeFile ∨ kind = nodeDirectory) (hne : p.bytes ≠ [])
    (hnul : (0 : UInt8) ∉ p.bytes) (hnew : v.create p kind mode uid gid = .ok (i, node)) :
    v.entries p.bytes = none ∧ (v.setNode i node).entries =
      Function.update v.entries p.bytes (some (newEntry kind mode uid gid)) := by
  rw [entries_eq_observe, entries_eq_observe]
  exact observe_create htree hkind hne hnul hnew

/-- **Writing**: the entries at other paths are as they were. -/
theorem Wrote.entries {offset : ℕ} {input : List UInt8} {r : Except DfsError ℕ}
    (h : Wrote L v v' i offset input r) (htree : v.Tree) (hacc : v'.Accounted L leaked)
    (hi : i < inodeCount) (hkind : (v.nodes i).kind = nodeFile)
    (hattr : (v'.nodes i).attributes = (v.nodes i).attributes) :
    v'.entries = Function.update v.entries (v.nodes i).path
      (some { v.entry (v.nodes i) with content := some (v'.content (v'.nodes i)) }) := by
  obtain ⟨hmode, huid, hgid⟩ : (v'.nodes i).mode = (v.nodes i).mode ∧
      (v'.nodes i).uid = (v.nodes i).uid ∧ (v'.nodes i).gid = (v.nodes i).gid := by
    simpa [Node.attributes] using hattr
  rw [entries_eq_observe, entries_eq_observe, h.observe htree hacc hi hkind, Vol.entryOf,
    Vol.contentOf, if_pos (h.kind.trans hkind), hmode, huid, hgid]
  rfl

/-- What a write that succeeds makes of an entry. -/
def written (old : Option Entry) (offset : ℕ) (input : List UInt8) (mode : UInt16)
    (uid gid : UInt32) : Entry :=
  match old with
  | some e => { e with content := some (splice (e.content.getD []) offset input) }
  | none => ⟨some input, mode, uid, gid⟩

/-- **`write_file` that succeeds**: the path leads to a file, whose contents are spliced. -/
theorem WriteEffect.entries {path : Str} {offset : ℕ} {input : List UInt8} {create : Bool}
    {mode : UInt16} {uid gid : UInt32} {n : ℕ} (h : WriteEffect L v path offset input create mode
      uid gid (.ok n) v') (hnul : (0 : UInt8) ∉ path.val)
    (hnum : Numbered L (sectorsFor (offset + input.length))) (htree : v.Tree) (hsized : v.Sized)
    (hacc : v'.Accounted L leaked) :
    ∃ p, canonicalPath path = .ok p ∧ (∀ e, v.entries p.bytes = some e → e.content ≠ none) ∧
      v'.entries = Function.update v.entries p.bytes
        (some (written (v.entries p.bytes) offset input mode uid gid)) ∧ v'.Tree ∧ v'.Sized := by
  cases h with
  | @existing p i _ _ hp hfind hkind h hattr =>
    have hi := (find_eq_some hfind).1
    have hpath := (htree.find_eq_some.mp hfind).2.2
    have hold : v.entries p.bytes = some (v.entry (v.nodes i)) := entries_of_find hfind
    obtain ⟨-, -, hcontent⟩ := h.succeeded hnum (hsized i hi hkind) n rfl
    refine ⟨p, hp, fun e he => ?_, ?_, h.tree htree, h.volSized hnum hsized⟩
    · rw [hold] at he
      rw [← Option.some.inj he, entry_of_file hkind]
      simp
    · rw [h.entries htree hacc hi hkind hattr, hpath, hold, hcontent, entry_of_file hkind]
      rfl
  | @created p i node _ _ hp hne hcreate hnew h hattr =>
    have hnul' : (0 : UInt8) ∉ p.bytes := fun hb => hnul (mem_canonicalPath hp hb)
    obtain ⟨hnone, hentries⟩ := entries_create htree (Or.inl rfl) hne hnul' hnew
    have htree₁ := htree.create (Or.inl rfl) hne hnul' hnew
    have hsized₁ := sized_create hsized (Or.inl rfl) hnew
    obtain ⟨-, -, hfree, hnode⟩ := create_eq_ok hnew
    rw [Node.stored_eq_self (kind_ne_zero (Or.inl rfl)) hnul'] at hnode
    have hi := (findFree_eq_some hfree).2.1
    have hself := setNode_nodes_self (v := v) i node
    have hkind : ((v.setNode i node).nodes i).kind = nodeFile := by rw [hself, hnode]; rfl
    have hpath : ((v.setNode i node).nodes i).path = p.bytes := by rw [hself, hnode]; rfl
    have hempty : (v.setNode i node).content ((v.setNode i node).nodes i) = [] := by
      rw [hself, hnode]
      rfl
    obtain ⟨hoffset, -, hcontent⟩ := h.succeeded hnum (hsized₁ i hi hkind) n rfl
    rw [← length_content (v.setNode i node), hempty, List.length_nil, Nat.le_zero] at hoffset
    subst hoffset
    refine ⟨p, hp, by rw [hnone]; simp, ?_, h.tree htree₁, h.volSized hnum hsized₁⟩
    rw [h.entries htree₁ hacc hi hkind (by rw [hattr, hself]), hpath, hentries, hcontent, hnone,
      Function.update_idem, hempty, hself, hnode, written]
    simp [splice, Vol.entry, newNode]

end Outcomes

/-! ### Looking entries up -/

/-- `Node::metadata` -/
def Node.metadata (node : Node) : Metadata where
  size := node.size
  mode := node.mode
  uid := node.uid
  gid := node.gid
  isDirectory := node.kind = nodeDirectory

def stat {C : Type} (L : Layout) (path : Str) : DfsProgram C Metadata := do
  let path ← ofExcept (canonicalPath path)
  match ← findNode L path.bytes with
  | none => throw .notFound
  | some node => pure node.metadata

/-- `stat`, on a volume. -/
def Vol.stat (v : Vol) (path : Str) : Except DfsError Metadata := do
  let p ← canonicalPath path
  match v.find p.bytes with
  | none => .error .notFound
  | some i => .ok (v.nodes i).metadata

section Stat

variable {L : Layout} {d : ℕ → Sector} {v : Vol} {path : Str} {p : Path} {e : Entry}

/-- **`stat`.** -/
theorem run_stat (hd : Represents L d v) (path : Str) :
    (stat L path : DfsProgram Transaction Metadata).run.run (commitRun L) d = (v.stat path, d) := by
  refine wp_run (L := L) (Q := fun r d' => (r, d') = (v.stat path, d)) ?_
  rw [Vol.stat]
  refine wp_bind (wp_ofExcept.mpr ?_)
  cases hp : canonicalPath path with
  | error e => rfl
  | ok p =>
    rw [thenWp_ok]
    refine wp_bind (wp_findNode hd _ ?_)
    rw [thenWp_ok]
    simp only [bind, Except.bind]
    cases v.find p.bytes with
    | none => rfl
    | some i => rfl

theorem stat_of_find {i : ℕ} (hp : canonicalPath path = .ok p) (hf : v.find p.bytes = some i) :
    v.stat path = .ok (v.nodes i).metadata := by
  simp [Vol.stat, hp, hf, bind, Except.bind]

/-- `stat` of nothing. -/
theorem stat_of_none (hp : canonicalPath path = .ok p) (h : v.entries p.bytes = none) :
    v.stat path = .error .notFound := by
  have hf : v.find p.bytes = none := by simpa [Vol.entries] using h
  simp [Vol.stat, hp, hf, bind, Except.bind]

/-- `stat` of a file. -/
theorem stat_of_file (hp : canonicalPath path = .ok p) (h : v.entries p.bytes = some e)
    {content : List UInt8} (he : e.content = some content) :
    v.stat path = .ok ⟨content.length, e.mode, e.uid, e.gid, false⟩ := by
  obtain ⟨i, hf, rfl⟩ := map_eq_some_iff.mp h
  have hkind : (v.nodes i).kind = nodeFile := by
    by_contra hne
    rw [Vol.entry, if_neg hne] at he
    cases he
  rw [entry_of_file hkind] at he
  rw [stat_of_find hp hf, Node.metadata, ← Option.some.inj he, length_content, hkind]
  rfl

/-- `stat` of a directory. -/
theorem stat_of_directory (hd : Represents L d v) (hp : canonicalPath path = .ok p)
    (h : v.entries p.bytes = some e) (he : e.content = none) :
    ∃ m, v.stat path = .ok m ∧ m.isDirectory = true := by
  obtain ⟨i, hf, rfl⟩ := map_eq_some_iff.mp h
  exact ⟨_, stat_of_find hp hf, decide_eq_true ((kind_eq_directory hd hf).mp he)⟩

end Stat

end ImagineOS.Dfs
