import ImagineOS.Dfs.Room
import ImagineOS.Dfs.Seed

/-!
# DFS: writes that fail

`write_file` is a sequence of transactions: the file is created, then runs are given to it, and the
size is stored last. When it gives up, what has been committed stays. So a write that fails leaves
everything as it was only if it fails before its first transaction.
-/

namespace ImagineOS.Dfs

open BlockProgram Fallible

/-! ### Writes that fail -/

/-- The number of sectors that a write lacks. -/
def Node.lacks (node : Node) (offset length : ℕ) : ℕ :=
  sectorsFor (offset + length) - allocated node.extents

/-- A write to a file that fails before the first run is given to the file, or does not fail. -/
def Vol.FailsClean (L : Layout) (v : Vol) (node : Node) (offset length : ℕ) : Prop :=
  node.size < offset ∨ 2 ^ 64 ≤ offset + length ∨ v.Room L node (node.lacks offset length) ∨
    ¬ v.Room L node 1

/-- A write that changes nothing if it fails: a file that is there has room for no sector or for all
of them, and a file that has to be created has room for all of them, from its beginning on. -/
def Vol.SafeWrite (L : Layout) (v : Vol) (path : Str) (offset length : ℕ) (create : Bool)
    (mode : UInt16) (uid gid : UInt32) : Prop :=
  ∀ p, canonicalPath path = .ok p → p.bytes ≠ [] →
    (∀ i, v.find p.bytes = some i → (v.nodes i).kind = nodeFile →
      v.FailsClean L (v.nodes i) offset length) ∧
    (v.find p.bytes = none → create = true →
      ∀ i node, v.create p nodeFile mode uid gid = .ok (i, node) →
        offset = 0 ∧ length < 2 ^ 64 ∧ v.Room L node (sectorsFor length))

/-- A write that succeeds: there is room for what the file lacks, or for a file that has to be
created, from its beginning on. -/
def Vol.WriteFits (L : Layout) (v : Vol) (path : Str) (offset length : ℕ) (create : Bool)
    (mode : UInt16) (uid gid : UInt32) : Prop :=
  ∃ p, canonicalPath path = .ok p ∧ p.bytes ≠ [] ∧
    ((∃ i, v.find p.bytes = some i ∧ (v.nodes i).kind = nodeFile ∧ offset ≤ (v.nodes i).size ∧
      offset + length < 2 ^ 64 ∧ v.Room L (v.nodes i) ((v.nodes i).lacks offset length)) ∨
    (v.find p.bytes = none ∧ create = true ∧ ∃ i node,
      v.create p nodeFile mode uid gid = .ok (i, node) ∧
        offset = 0 ∧ length < 2 ^ 64 ∧ v.Room L node (sectorsFor length)))

/-- How a write to node `i` ends. -/
inductive NodeWrites (L : Layout) (i offset length : ℕ) (d : ℕ → Sector) (v : Vol) :
    Except DfsError ℕ → (ℕ → Sector) → Vol → Prop
  | refused (e : DfsError) (h : v.FailsClean L (v.nodes i) offset length)
      (hnot : (v.nodes i).size < offset ∨ 2 ^ 64 ≤ offset + length ∨
        ¬ v.Room L (v.nodes i) ((v.nodes i).lacks offset length)) :
      NodeWrites L i offset length d v (.error e) d v
  | written (n : ℕ) {d' : ℕ → Sector} {v' : Vol} (hoffset : offset ≤ (v.nodes i).size)
      (hend : offset + length < 2 ^ 64)
      (h : v.Room L (v.nodes i) ((v.nodes i).lacks offset length)) :
      NodeWrites L i offset length d v (.ok n) d' v'
  | partly (e : DfsError) {d' : ℕ → Sector} {v' : Vol}
      (h : ¬ v.FailsClean L (v.nodes i) offset length)
      (hpath : (v'.nodes i).path = (v.nodes i).path)
      (hkind : (v'.nodes i).kind = (v.nodes i).kind)
      (hused : ∃ a, L.InPartition a ∧ v.used a = false ∧ v'.used a = true) :
      NodeWrites L i offset length d v (.error e) d' v'

section Write

variable {L : Layout} {leaked : ℕ → Prop} {d : ℕ → Sector} {v : Vol} {i offset : ℕ}
  {input : List UInt8}

/-- **Writing to a file**, once the node is found. -/
theorem wp_writeNode_room (hd : Represents L d v) (hacc : v.Accounted L leaked)
    (hi : i < inodeCount) (hkind : (v.nodes i).kind = nodeFile) (hlaid : (v.nodes i).Laid)
    (hnum : Numbered L (sectorsFor (offset + input.length)))
    {Q : Except DfsError ℕ → (ℕ → Sector) → Prop}
    (hQ : ∀ r d' v', Represents L d' v' → v'.Accounted L leaked →
      NodeWrites L i offset input.length d v r d' v' → Q r d') :
    (writeNode L i offset input).Wp (contract L) Q d := by
  refine wp_bind ((wp_readNode hd hi).mpr ?_)
  rw [thenWp_ok]
  by_cases hoffset : (v.nodes i).size < offset
  · rw [if_pos hoffset]
    exact hQ _ d v hd hacc (.refused _ (Or.inl hoffset) (Or.inl hoffset))
  rw [if_neg hoffset]
  by_cases hend : offset + input.length < 2 ^ 64
  swap
  · rw [dif_neg hend]
    have hle := Nat.le_of_not_lt hend
    exact hQ _ d v hd hacc (.refused _ (Or.inr (Or.inl hle)) (Or.inr (Or.inl hle)))
  rw [dif_pos hend]
  refine wp_bind (wp_allocate_room hd hacc hi hkind hlaid hnum fun r d₁ v₁ hd₁ hacc₁ halloc => ?_)
  cases r with
  | error e =>
    obtain ⟨hroom, ⟨rfl, hone⟩ | ⟨hone, hused⟩⟩ := halloc.error e rfl
    · exact hQ _ _ v hd hacc (.refused e (Or.inr (Or.inr (Or.inr hone))) (Or.inr (Or.inr hroom)))
    · refine hQ _ d₁ v₁ hd₁ hacc₁ (.partly e ?_ halloc.path halloc.kind hused)
      rintro (h | h | h | h)
      · exact hoffset h
      · omega
      · exact hroom h
      · exact h hone
  | ok node =>
    obtain ⟨rfl, hrequired, hroom⟩ := halloc.ok node rfl
    rw [thenWp_ok]
    refine wp_writeContents hd₁ hacc₁ hi (halloc.kind.trans hkind) (by rw [halloc.size]; omega) hend
      ((le_sectorsFor _).trans (Nat.mul_le_mul_right _ hrequired))
      fun r d' v' hd' hacc' _ _ hok => ?_
    obtain ⟨n, rfl⟩ := hok (halloc.laid hnum hlaid).1
    exact hQ _ d' v' hd' hacc' (.written n (by omega) hend hroom)

end Write

/-- The same paths lead to the same entries, and the same sectors are free. -/
def Unchanged (L : Layout) (v v' : Vol) : Prop :=
  v'.entries = v.entries ∧ ∀ lba, L.InPartition lba → v'.used lba = v.used lba

/-- How `write_file` ends. -/
inductive Writes (L : Layout) (v : Vol) (fits safe : Prop) : Except DfsError ℕ → Vol → Prop
  | refused (e : DfsError) (hfits : ¬ fits) (h : safe) : Writes L v fits safe (.error e) v
  | written (n : ℕ) {v' : Vol} (hfits : fits) (h : safe) : Writes L v fits safe (.ok n) v'
  | partly (e : DfsError) {v' : Vol} (hfits : ¬ fits) (h : ¬ safe) (hchanged : ¬ Unchanged L v v') :
      Writes L v fits safe (.error e) v'

theorem Writes.ok_iff {L : Layout} {v v' : Vol} {fits safe : Prop} {r : Except DfsError ℕ}
    (h : Writes L v fits safe r v') : (∃ n, r = .ok n) ↔ fits := by
  cases h with
  | refused e hfits _ => exact iff_of_false (by simp) hfits
  | written n hfits _ => exact iff_of_true ⟨n, rfl⟩ hfits
  | partly e hfits _ _ => exact iff_of_false (by simp) hfits

section WriteFile

variable {L : Layout} {leaked : ℕ → Prop} {d : ℕ → Sector} {v : Vol} {path : Str} {offset : ℕ}
  {input : List UInt8} {create : Bool} {mode : UInt16} {uid gid : UInt32}

section Paths

variable {p : Path} {i length : ℕ} {node : Node} {r : Except DfsError ℕ}
  {d₁ d' : ℕ → Sector} {v' : Vol}

theorem writeFits_iff (hp : canonicalPath path = .ok p) (hne : p.bytes ≠ []) :
    v.WriteFits L path offset length create mode uid gid ↔
      (∃ i, v.find p.bytes = some i ∧ (v.nodes i).kind = nodeFile ∧ offset ≤ (v.nodes i).size ∧
        offset + length < 2 ^ 64 ∧ v.Room L (v.nodes i) ((v.nodes i).lacks offset length)) ∨
      (v.find p.bytes = none ∧ create = true ∧ ∃ i node,
        v.create p nodeFile mode uid gid = .ok (i, node) ∧
          offset = 0 ∧ length < 2 ^ 64 ∧ v.Room L node (sectorsFor length)) := by
  constructor
  · rintro ⟨p', hp', -, h⟩
    rwa [Except.ok.inj (hp'.symm.trans hp)] at h
  · exact fun h => ⟨p, hp, hne, h⟩

theorem safeWrite_iff (hp : canonicalPath path = .ok p) (hne : p.bytes ≠ []) :
    v.SafeWrite L path offset length create mode uid gid ↔
      (∀ i, v.find p.bytes = some i → (v.nodes i).kind = nodeFile →
        v.FailsClean L (v.nodes i) offset length) ∧
      (v.find p.bytes = none → create = true →
        ∀ i node, v.create p nodeFile mode uid gid = .ok (i, node) →
          offset = 0 ∧ length < 2 ^ 64 ∧ v.Room L node (sectorsFor length)) := by
  constructor
  · exact fun h => h p hp hne
  · intro h p' hp' _
    rwa [Except.ok.inj (hp'.symm.trans hp)]

/-! #### A file that is there -/

theorem writeFits_some (hp : canonicalPath path = .ok p) (hne : p.bytes ≠ [])
    (hfind : v.find p.bytes = some i) :
    v.WriteFits L path offset length create mode uid gid ↔
      (v.nodes i).kind = nodeFile ∧ offset ≤ (v.nodes i).size ∧ offset + length < 2 ^ 64 ∧
        v.Room L (v.nodes i) ((v.nodes i).lacks offset length) := by
  rw [writeFits_iff hp hne, hfind]
  simp

theorem safeWrite_some (hp : canonicalPath path = .ok p) (hne : p.bytes ≠ [])
    (hfind : v.find p.bytes = some i) :
    v.SafeWrite L path offset length create mode uid gid ↔
      ((v.nodes i).kind = nodeFile → v.FailsClean L (v.nodes i) offset length) := by
  rw [safeWrite_iff hp hne, hfind]
  simp

/-- **A write to a file that is there** ends as the write to its node. -/
theorem NodeWrites.writes (h : NodeWrites L i offset length d v r d' v')
    (hp : canonicalPath path = .ok p) (hne : p.bytes ≠ []) (hfind : v.find p.bytes = some i)
    (hkind : (v.nodes i).kind = nodeFile) :
    Writes L v (v.WriteFits L path offset length create mode uid gid)
      (v.SafeWrite L path offset length create mode uid gid) r v' := by
  have hfits := @writeFits_some L v path offset create mode uid gid p i length hp hne hfind
  have hsafe := @safeWrite_some L v path offset create mode uid gid p i length hp hne hfind
  cases h with
  | refused e h hnot =>
    refine .refused e (fun hf => ?_) (hsafe.mpr fun _ => h)
    obtain ⟨-, h₁, h₂, h₃⟩ := hfits.mp hf
    rcases hnot with h | h | h
    · omega
    · omega
    · exact h h₃
  | written n h₁ h₂ h₃ =>
    exact .written n (hfits.mpr ⟨hkind, h₁, h₂, h₃⟩)
      (hsafe.mpr fun _ => Or.inr (Or.inr (Or.inl h₃)))
  | partly e h _ _ hused =>
    refine .partly e (fun hf => h (Or.inr (Or.inr (Or.inl (hfits.mp hf).2.2.2))))
      (fun hs => h (hsafe.mp hs hkind)) fun hsame => ?_
    obtain ⟨a, ha, hfree, hused⟩ := hused
    rw [hsame.2 a ha, hfree] at hused
    cases hused

/-! #### A file that has to be created -/

theorem writeFits_none (hp : canonicalPath path = .ok p) (hne : p.bytes ≠ [])
    (hfind : v.find p.bytes = none) :
    v.WriteFits L path offset length create mode uid gid ↔
      create = true ∧ ∃ i node, v.create p nodeFile mode uid gid = .ok (i, node) ∧
        offset = 0 ∧ length < 2 ^ 64 ∧ v.Room L node (sectorsFor length) := by
  rw [writeFits_iff hp hne, hfind]
  simp

theorem safeWrite_none (hp : canonicalPath path = .ok p) (hne : p.bytes ≠ [])
    (hfind : v.find p.bytes = none) :
    v.SafeWrite L path offset length create mode uid gid ↔
      (create = true → ∀ i node, v.create p nodeFile mode uid gid = .ok (i, node) →
        offset = 0 ∧ length < 2 ^ 64 ∧ v.Room L node (sectorsFor length)) := by
  rw [safeWrite_iff hp hne, hfind]
  simp

theorem writeFits_new (hp : canonicalPath path = .ok p) (hne : p.bytes ≠ [])
    (hfind : v.find p.bytes = none) (hcreate : create = true)
    (hnew : v.create p nodeFile mode uid gid = .ok (i, node)) :
    v.WriteFits L path offset length create mode uid gid ↔
      offset = 0 ∧ length < 2 ^ 64 ∧ v.Room L node (sectorsFor length) := by
  rw [writeFits_none hp hne hfind]
  constructor
  · rintro ⟨-, j, node', hnew', h⟩
    rwa [(Prod.mk.inj (Except.ok.inj (hnew'.symm.trans hnew))).2] at h
  · exact fun h => ⟨hcreate, i, node, hnew, h⟩

theorem safeWrite_new (hp : canonicalPath path = .ok p) (hne : p.bytes ≠ [])
    (hfind : v.find p.bytes = none) (hcreate : create = true)
    (hnew : v.create p nodeFile mode uid gid = .ok (i, node)) :
    v.SafeWrite L path offset length create mode uid gid ↔
      offset = 0 ∧ length < 2 ^ 64 ∧ v.Room L node (sectorsFor length) := by
  rw [safeWrite_none hp hne hfind]
  constructor
  · exact fun h => h hcreate i node hnew
  · intro h _ j node' hnew'
    rwa [(Prod.mk.inj (Except.ok.inj (hnew'.symm.trans hnew))).2]

theorem not_unchanged_of_new (hi : i < inodeCount) (hfind : v.find p.bytes = none)
    (hkind : (v'.nodes i).kind ≠ 0) (hpath : (v'.nodes i).pathStr = p.bytes) :
    ¬ Unchanged L v v' := by
  intro hsame
  have hnone : v'.entries p.bytes = none := by
    rw [hsame.1]
    exact Vol.entries_of_none hfind
  rw [Vol.entries, Option.map_eq_none_iff] at hnone
  exact Vol.find_eq_none.mp hnone i hi ⟨hkind, hpath⟩

/-- **A write to a file that was just created** leaves the file where it fails. -/
theorem NodeWrites.writes_new (h : NodeWrites L i offset length d₁ (v.setNode i node) r d' v')
    (hp : canonicalPath path = .ok p) (hne : p.bytes ≠ []) (hfind : v.find p.bytes = none)
    (hcreate : create = true) (hnew : v.create p nodeFile mode uid gid = .ok (i, node))
    (hi : i < inodeCount) (hnode : node = newNode p nodeFile mode uid gid) :
    Writes L v (v.WriteFits L path offset length create mode uid gid)
      (v.SafeWrite L path offset length create mode uid gid) r v' := by
  have hfits := @writeFits_new L v path offset create mode uid gid p i length node hp hne hfind
    hcreate hnew
  have hsafe := @safeWrite_new L v path offset create mode uid gid p i length node hp hne hfind
    hcreate hnew
  have hself := Vol.setNode_nodes_self (v := v) i node
  have hsize : node.size = 0 := by rw [hnode]; rfl
  have hlacks : node.lacks 0 length = sectorsFor length := by
    rw [hnode, Node.lacks, Nat.zero_add]
    rfl
  have hchanged : (v'.nodes i).path = node.path → (v'.nodes i).kind = node.kind →
      ¬ Unchanged L v v' := fun hpath hkind => by
    refine not_unchanged_of_new hi hfind ?_ ?_
    · rw [hkind, hnode]
      exact kind_ne_zero (Or.inl rfl)
    · rw [Node.pathStr, hpath, hnode]
      exact if_pos p.utf8
  cases h with
  | refused e _ hnot =>
    rw [hself] at hnot
    have hno : ¬ (offset = 0 ∧ length < 2 ^ 64 ∧ v.Room L node (sectorsFor length)) := by
      rintro ⟨rfl, hlt, hroom⟩
      rw [hlacks, hsize] at hnot
      rcases hnot with h | h | h
      · omega
      · omega
      · exact h hroom
    exact .partly e (fun hf => hno (hfits.mp hf)) (fun hs => hno (hsafe.mp hs))
      (hchanged (by rw [hself]) (by rw [hself]))
  | written n hoffset hend h =>
    rw [hself, hsize] at hoffset
    obtain rfl := Nat.le_zero.mp hoffset
    rw [hself, hlacks] at h
    have hyes : 0 = 0 ∧ length < 2 ^ 64 ∧ v.Room L node (sectorsFor length) :=
      ⟨rfl, by omega, h⟩
    exact .written n (hfits.mpr hyes) (hsafe.mpr hyes)
  | partly e h hpath hkind _ =>
    rw [hself] at hpath hkind
    have hno : ¬ (offset = 0 ∧ length < 2 ^ 64 ∧ v.Room L node (sectorsFor length)) := by
      rintro ⟨rfl, -, hroom⟩
      refine h (Or.inr (Or.inr (Or.inl ?_)))
      rw [hself, hlacks]
      exact hroom
    exact .partly e (fun hf => hno (hfits.mp hf)) (fun hs => hno (hsafe.mp hs))
      (hchanged hpath hkind)

end Paths

/-- **`write_file`.** -/
theorem wp_writeFile_room (hd : Represents L d v) (hacc : v.Accounted L leaked) (hsized : v.Sized)
    (hnul : (0 : UInt8) ∉ path.val) (hnum : Numbered L (sectorsFor (offset + input.length)))
    {Q : Except DfsError ℕ → (ℕ → Sector) → Prop}
    (hQ : ∀ r d' v', Represents L d' v' → v'.Accounted L leaked →
      Writes L v (v.WriteFits L path offset input.length create mode uid gid)
        (v.SafeWrite L path offset input.length create mode uid gid) r v' → Q r d') :
    (writeFile L path offset input create mode uid gid).Wp (contract L) Q d := by
  refine wp_bind (wp_ofExcept.mpr ?_)
  cases hp : canonicalPath path with
  | error e =>
    have hnone : ∀ p, canonicalPath path ≠ .ok p := fun p hp' => by rw [hp] at hp'; cases hp'
    exact hQ _ d v hd hacc
      (.refused e (fun ⟨p, hp', _⟩ => hnone p hp') fun p hp' => absurd hp' (hnone p))
  | ok p =>
    rw [thenWp_ok]
    by_cases hne : p.bytes = []
    · have hself : ∀ {p'}, canonicalPath path = .ok p' → p'.bytes = [] := fun hp' => by
        rw [← Except.ok.inj (hp'.symm.trans hp)] at hne
        exact hne
      rw [if_pos hne]
      refine hQ _ d v hd hacc (.refused _ ?_ fun p' hp' hne' => absurd (hself hp') hne')
      exact fun ⟨p', hp', hne', _⟩ => hne' (hself hp')
    rw [if_neg hne]
    refine wp_bind (wp_findNode hd _ ?_)
    rw [thenWp_ok]
    cases hfind : v.find p.bytes with
    | some i =>
      have hi := (Vol.find_eq_some hfind).1
      simp only [Option.map_some]
      by_cases hdir : (v.nodes i).kind = nodeDirectory
      · have hnot : (v.nodes i).kind ≠ nodeFile := by rw [hdir]; decide
        rw [if_pos hdir]
        exact hQ _ d v hd hacc (.refused _ (fun h => hnot ((writeFits_some hp hne hfind).mp h).1)
          ((safeWrite_some hp hne hfind).mpr (absurd · hnot)))
      rw [if_neg hdir]
      have hkind := kind_of_matches hd hfind hdir
      refine wp_bind (wp_findIndex hd _ ?_)
      rw [hfind, thenWp_ok]
      exact wp_writeNode_room hd hacc hi hkind (hsized i hi hkind).toLaid hnum
        fun r d' v' hd' hacc' hw => hQ r d' v' hd' hacc' (hw.writes hp hne hfind hkind)
    | none =>
      simp only [Option.map_none]
      by_cases hcreate : create = true
      swap
      · rw [if_neg hcreate]
        exact hQ _ d v hd hacc
          (.refused _ (fun hf => hcreate ((writeFits_none hp hne hfind).mp hf).1)
            ((safeWrite_none hp hne hfind).mpr (absurd · hcreate)))
      rw [if_pos hcreate]
      refine wp_bind (wp_createNode hd hacc (Or.inl rfl) (fun e he => ?_)
        fun i node d₁ hnew hi hd₁ hacc₁ => ?_)
      · have hnone : ∀ i node, v.create p nodeFile mode uid gid ≠ .ok (i, node) :=
          fun i node h => by
          rw [he] at h
          cases h
        refine hQ _ d v hd hacc (.refused e (fun hf => ?_)
          ((safeWrite_none hp hne hfind).mpr fun _ i node hnew => absurd hnew (hnone i node)))
        obtain ⟨-, i, node, hnew, -⟩ := (writeFits_none hp hne hfind).mp hf
        exact hnone i node hnew
      rw [thenWp_ok]
      obtain ⟨-, -, -, hnode⟩ := Vol.create_eq_ok hnew
      rw [Node.stored_eq_self (kind_ne_zero (Or.inl rfl))
        (fun hb => hnul (mem_canonicalPath hp hb))] at hnode
      have hkind : ((v.setNode i node).nodes i).kind = nodeFile := by
        rw [Vol.setNode_nodes_self, hnode]
        rfl
      exact wp_writeNode_room hd₁ hacc₁ hi hkind
        (sized_create hsized (Or.inl rfl) hnew i hi hkind).toLaid hnum
        fun r d' v' hd' hacc' hw =>
          hQ r d' v' hd' hacc' (hw.writes_new hp hne hfind hcreate hnew hi hnode)

end WriteFile

/-! ### Runs -/

section Runs

variable {L : Layout} {d : ℕ → Sector} {v : Vol}

theorem InOrder.of_outcome (hv : InOrder L d v) (op : Operation) (hnul : op.NulFree)
    (hnum : op.Numbered L) {r : Except DfsError Unit} {d' : ℕ → Sector} {v' : Vol}
    (hd' : Represents L d' v') (hacc' : v'.Exact L) (hout : op.Outcome L v r v') :
    InOrder L d' v' :=
  ⟨hd', hacc', hout.tree hnul hv.tree, (hout.reference hnul hnum hv.tree
    (hv.tree.relative fun _ hi => hv.decoded hi) hv.sized hacc').2⟩

/-- **Volumes are in order** after runs whose paths have no NUL byte and whose files have sectors
that 32 bits can count. -/
theorem Reached.inOrder (h : Reached L (fun op => op.NulFree ∧ op.Numbered L) d) :
    ∃ v, InOrder L d v := by
  induction h with
  | format h =>
    obtain ⟨v, hv, -⟩ := InOrder.formats h
    exact ⟨v, hv⟩
  | perform _ op ha ih =>
    obtain ⟨v, hv⟩ := ih
    obtain ⟨v', hd', hacc', hout⟩ := op.run_outcome hv.toRepresents hv.exact
    exact ⟨v', hv.of_outcome op ha.1 ha.2 hd' hacc' hout⟩
  | remount _ hm ih =>
    obtain ⟨v, hv⟩ := ih
    rw [hv.remount hm]
    exact ⟨v, hv⟩

theorem run_writeFile_room (hv : InOrder L d v) (path : Str) (offset : ℕ) (input : List UInt8)
    (create : Bool) (mode : UInt16) (uid gid : UInt32) (hnul : (0 : UInt8) ∉ path.val)
    (hnum : Numbered L (sectorsFor (offset + input.length))) : ∃ r d' v',
      (writeFile L path offset input create mode uid gid).run.run (commitRun L) d = (r, d') ∧
      Represents L d' v' ∧
      Writes L v (v.WriteFits L path offset input.length create mode uid gid)
        (v.SafeWrite L path offset input.length create mode uid gid) r v' := by
  obtain ⟨v', hd', hw⟩ := wp_run (L := L) (Q := fun r d' => ∃ v', Represents L d' v' ∧
      Writes L v (v.WriteFits L path offset input.length create mode uid gid)
        (v.SafeWrite L path offset input.length create mode uid gid) r v')
    (wp_writeFile_room hv.toRepresents hv.exact hv.sized hnul hnum
      fun r d' v' h₁ _ h₃ => ⟨v', h₁, h₃⟩)
  exact ⟨_, _, v', rfl, hd', hw⟩

/-- **A write that fails leaves everything as it was** if and only if it fails before it has created
the file or given a run to it. -/
theorem unchanged_iff (h : Reached L (fun op => op.NulFree ∧ op.Numbered L) d) :
    ∃ v, Represents L d v ∧ ∀ (path : Str) (offset : ℕ) (input : List UInt8) (create : Bool)
      (mode : UInt16) (uid gid : UInt32), (0 : UInt8) ∉ path.val →
      Numbered L (sectorsFor (offset + input.length)) → ∃ r d' v',
        (writeFile L path offset input create mode uid gid).run.run (commitRun L) d = (r, d') ∧
        Represents L d' v' ∧ ((∀ e, r = .error e → Unchanged L v v') ↔
          v.SafeWrite L path offset input.length create mode uid gid) := by
  obtain ⟨v, hv⟩ := h.inOrder
  refine ⟨v, hv.toRepresents, fun path offset input create mode uid gid hnul hnum => ?_⟩
  obtain ⟨r, d', v', hrun, hd', hw⟩ :=
    run_writeFile_room hv path offset input create mode uid gid hnul hnum
  refine ⟨r, d', v', hrun, hd', ?_⟩
  cases hw with
  | refused e _ hs => exact iff_of_true (fun _ _ => ⟨rfl, fun _ _ => rfl⟩) hs
  | written n _ hs => exact iff_of_true (by simp) hs
  | partly e _ hs hchanged => exact iff_of_false (fun h => hchanged (h e rfl)) hs

theorem inOrder_sampleVol (h : Represents sampleLayout d sampleVol) :
    InOrder sampleLayout d sampleVol :=
  ⟨h, formatVol_accounted _, Vol.formatVol_tree _ _, fun i _ hkind =>
    absurd hkind (kind_formatVol _ _ i)⟩

/-- Writing one byte to a file `a` that is not there. -/
theorem unchanged_iff_sample : ∃ d v r d' v', Represents sampleLayout d v ∧
    (writeFile sampleLayout ⟨[97], rfl⟩ 0 [1] false 0o644 0 0).run.run (commitRun sampleLayout) d =
      (r, d') ∧ Represents sampleLayout d' v' ∧
    ((∀ e, r = .error e → Unchanged sampleLayout v v') ↔
      v.SafeWrite sampleLayout ⟨[97], rfl⟩ 0 1 false 0o644 0 0) := by
  obtain ⟨d₀, hformats, -⟩ := formats_sample
  obtain ⟨v, hd, hall⟩ := unchanged_iff (Reached.format hformats)
  obtain ⟨r, d', v', h⟩ := hall ⟨[97], rfl⟩ 0 [1] false 0o644 0 0 (by decide) (Or.inr (by decide))
  exact ⟨_, v, r, d', v', hd, h⟩

/-- **A write without the condition**: a byte at position 1 of a file `a` that has to be created.
The write fails, and the file is there. -/
theorem created_by_failure : ∃ d e d' v',
    Reached sampleLayout (fun op => op.NulFree ∧ op.Numbered sampleLayout) d ∧
    Represents sampleLayout d sampleVol ∧
    (writeFile sampleLayout ⟨[97], rfl⟩ 1 [1] true 0o644 0 0).run.run (commitRun sampleLayout) d =
      (.error e, d') ∧ Represents sampleLayout d' v' ∧ ¬ Unchanged sampleLayout sampleVol v' := by
  obtain ⟨d₀, hformats, hrep⟩ := formats_sample
  have hv := inOrder_sampleVol hrep
  obtain ⟨r, d', v', hrun, hd', hw⟩ := run_writeFile_room hv ⟨[97], rfl⟩ 1 [1] true 0o644 0 0
    (by decide) (Or.inr (by decide))
  have hunsafe : ¬ sampleVol.SafeWrite sampleLayout ⟨[97], rfl⟩ 1 1 true 0o644 0 0 := by
    intro hs
    obtain ⟨hnone, i, node, hnew⟩ : sampleVol.find samplePath.bytes = none ∧ ∃ i node,
        sampleVol.create samplePath nodeFile 0o644 0 0 = .ok (i, node) := by
      exact ⟨by decide +kernel, 1, newNode samplePath nodeFile 0o644 0 0, by decide +kernel⟩
    exact absurd ((hs samplePath rfl (by decide)).2 hnone rfl i node hnew).1
      (by decide)
  cases hw with
  | refused e _ hs => exact absurd hs hunsafe
  | written n _ hs => exact absurd hs hunsafe
  | partly e _ _ hchanged =>
    exact ⟨d₀, e, d', v', .format hformats, hrep, hrun, hd', hchanged⟩

end Runs

end ImagineOS.Dfs
