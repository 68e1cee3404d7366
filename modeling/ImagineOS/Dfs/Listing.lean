import ImagineOS.Dfs.Entries
import ImagineOS.Overlay.Listing

/-!
# DFS: listings and their parser

`read_directory` goes through the node table and writes the name of every child of a directory,
each followed by a line break. Programs take the lines apart with the iterator `DirectoryEntries`,
which skips empty lines. A name may contain a line break, and then it comes out in pieces; and two
nodes may have the same path, because a path is stored up to its first NUL byte, and then the name
comes out twice. Otherwise the entries are the names of the children.
-/

namespace ImagineOS.Dfs

open BlockProgram Fallible List Option

open Overlay (newline lines joined joined_append lines_joined lines_append_newline
  lines_of_not_mem newline_not_mem child isListed)

/-! ### The two functions -/

section Programs

variable {C : Type} (L : Layout)

/-- The loop of `read_directory` over the nodes of a list. -/
def readDirectoryFrom (path : List UInt8) (includeHidden : Bool) (capacity : ℕ) :
    List ℕ → List UInt8 → DfsProgram C (List UInt8)
  | [], output => pure output
  | index :: rest, output => do
    let node ← readNode L index
    if node.kind = 0 ∨ node.path.length = 0 then
      readDirectoryFrom path includeHidden capacity rest output
    else match immediateChild node.pathStr path with
    | none => readDirectoryFrom path includeHidden capacity rest output
    | some name =>
      if !isListed includeHidden name then
        readDirectoryFrom path includeHidden capacity rest output
      else if capacity < output.length + name.length + 1 then throw .noSpace
      else readDirectoryFrom path includeHidden capacity rest (output ++ name ++ [newline])

/-- `read_directory`, for an output of so many bytes; the result is what is written to it. -/
def readDirectory (path : Str) (includeHidden : Bool) (capacity : ℕ) :
    DfsProgram C (List UInt8) := do
  let path ← ofExcept (canonicalPath path)
  match ← findNode L path.bytes with
  | none => throw .notFound
  | some directory =>
    if directory.kind ≠ nodeDirectory then throw .notDirectory
    else readDirectoryFrom L path.bytes includeHidden capacity (List.range inodeCount) []

end Programs

/-- What `DirectoryEntries::next` takes off the bytes that remain: the entry before the first line
break, and the bytes after the line break. -/
def splitEntry (remaining : List UInt8) : List UInt8 × List UInt8 :=
  let stop := remaining.idxOf newline
  let rest := remaining.drop stop
  (remaining.take stop, (stripPrefix rest [newline]).getD rest)

variable {name : List UInt8}

theorem splitEntry_append (h : newline ∉ name) (rest : List UInt8) :
    splitEntry (name ++ newline :: rest) = (name, rest) := by
  have hstop : (name ++ newline :: rest).idxOf newline = name.length := by
    rw [idxOf_append_of_notMem h, idxOf_cons_self, Nat.add_zero]
  have hstrip : stripPrefix (newline :: rest) [newline] = some rest :=
    stripPrefix_eq_some.mpr rfl
  simp only [splitEntry, hstop, take_left', drop_left', hstrip, getD_some]

theorem splitEntry_of_not_mem (h : newline ∉ name) :
    splitEntry name = (name, []) := by
  have hstop : name.idxOf newline = name.length := idxOf_eq_length h
  have hstrip : stripPrefix [] [newline] = none := rfl
  simp only [splitEntry, hstop, take_length, drop_length, hstrip, getD_none]

theorem length_splitEntry_lt (b : UInt8) (bs : List UInt8) :
    (splitEntry (b :: bs)).2.length < (b :: bs).length := by
  by_cases h : newline ∈ b :: bs
  · obtain ⟨name, rest, heq, hname⟩ := eq_append_cons_of_mem h
    rw [heq, splitEntry_append hname, length_append, length_cons]
    show rest.length < _
    omega
  · rw [splitEntry_of_not_mem h]
    exact Nat.succ_pos _

/-- The values of the iterator `DirectoryEntries`, for the bytes that remain. -/
def directoryEntries : List UInt8 → List (List UInt8)
  | [] => []
  | b :: bs =>
    if (splitEntry (b :: bs)).1 = [] then directoryEntries (splitEntry (b :: bs)).2
    else (splitEntry (b :: bs)).1 :: directoryEntries (splitEntry (b :: bs)).2
  termination_by remaining => remaining.length
  decreasing_by all_goals exact length_splitEntry_lt b bs

theorem lines_splitEntry (bytes : List UInt8) : (lines bytes).filter (· ≠ []) =
    [(splitEntry bytes).1].filter (· ≠ []) ++ (lines (splitEntry bytes).2).filter (· ≠ []) := by
  by_cases h : newline ∈ bytes
  · obtain ⟨name, rest, rfl, hname⟩ := eq_append_cons_of_mem h
    rw [splitEntry_append hname, lines_append_newline, filter_append, lines_of_not_mem hname]
  · rw [splitEntry_of_not_mem h, lines_of_not_mem h]
    exact (append_nil _).symm

theorem filter_singleton_of_ne {n : List UInt8} (h : n ≠ []) : [n].filter (· ≠ []) = [n] := by
  simp [h]

/-- **The entries** are the lines that are not empty. -/
theorem directoryEntries_eq (bytes : List UInt8) :
    directoryEntries bytes = (lines bytes).filter (· ≠ []) := by
  induction bytes using directoryEntries.induct with
  | case1 =>
    rw [directoryEntries]
    rfl
  | case2 b bs hempty ih => rw [directoryEntries, if_pos hempty, lines_splitEntry, ih, hempty]; rfl
  | case3 b bs hne ih =>
    rw [directoryEntries, if_neg hne, lines_splitEntry, ih, filter_singleton_of_ne hne]
    rfl

variable {names : List (List UInt8)}

theorem mem_directoryEntries_joined {n : List UInt8} :
    n ∈ directoryEntries (joined names) ↔ n ≠ [] ∧ ∃ m ∈ names, n ∈ lines m := by
  rw [directoryEntries_eq, mem_filter, decide_eq_true_iff, and_comm]
  exact and_congr_right fun hn => Overlay.mem_lines_joined hn

theorem directoryEntries_joined
    (h : ∀ n ∈ names, n ≠ [] ∧ newline ∉ n) : directoryEntries (joined names) = names := by
  rw [directoryEntries_eq, lines_joined, filter_append]
  induction names with
  | nil => rfl
  | cons n names ih =>
    obtain ⟨hne, hbreak⟩ := h n mem_cons_self
    have hrest := ih fun m hm => h m (mem_cons_of_mem _ hm)
    rw [flatMap_cons, lines_of_not_mem hbreak, filter_append,
      filter_singleton_of_ne hne, append_assoc, hrest]
    rfl

/-- **When joined names are parsed back**: the entries are the names, each once, exactly when no
name has a line break and no two are equal. -/
theorem parses_iff (h : ∀ n ∈ names, n ≠ []) :
    ((directoryEntries (joined names)).Nodup ∧
      ∀ n, n ∈ directoryEntries (joined names) ↔ n ∈ names) ↔
      (∀ n ∈ names, newline ∉ n) ∧ names.Nodup := by
  constructor
  · rintro ⟨hnodup, hmem⟩
    have hbreak : ∀ n ∈ names, newline ∉ n := by
      intro n hn
      obtain ⟨-, m, -, hline⟩ := mem_directoryEntries_joined.mp ((hmem n).mpr hn)
      exact newline_not_mem hline
    rw [directoryEntries_joined fun n hn => ⟨h n hn, hbreak n hn⟩] at hnodup
    exact ⟨hbreak, hnodup⟩
  · rintro ⟨hbreak, hnodup⟩
    rw [directoryEntries_joined fun n hn => ⟨h n hn, hbreak n hn⟩]
    exact ⟨hnodup, fun n => Iff.rfl⟩

/-! ### What is listed -/

theorem immediateChild_eq_some {path parent : List UInt8} :
    immediateChild path parent = some name ↔
      path = child parent name ∧ name ≠ [] ∧ slash ∉ name := by
  rw [immediateChild, child]
  split
  · simp only [filter_some, decide_eq_true_eq]
    split
    · rename_i h
      simp only [Option.some.injEq]
      exact ⟨fun he => ⟨he, he ▸ h⟩, fun he => he.1⟩
    · rename_i h
      simp only [reduceCtorEq, false_iff]
      rintro ⟨rfl, hname⟩
      exact h hname
  · simp only [filter_eq_some_iff, bind_eq_some_iff, stripPrefix_eq_some,
      singleton_append, exists_eq_right, decide_eq_true_eq]

/-- The name under which a node is listed. -/
def listedName (parent : List UInt8) (includeHidden : Bool) (node : Node) : Option (List UInt8) :=
  if node.kind = 0 ∨ node.path.length = 0 then none
  else (immediateChild node.pathStr parent).filter (isListed includeHidden)

/-- The names that are listed, in the order of the table. -/
def Vol.listedNames (v : Vol) (parent : List UInt8) (includeHidden : Bool) (is : List ℕ) :
    List (List UInt8) :=
  is.filterMap fun i => listedName parent includeHidden (v.nodes i)

section Listing

variable {L : Layout} {d : ℕ → Sector} {v : Vol}

theorem reads_readDirectoryFrom {C : Type} (hd : Holds L d v) (parent : List UInt8)
    (includeHidden : Bool) (capacity : ℕ) {is : List ℕ} (his : ∀ i ∈ is, i < inodeCount)
    {output : List UInt8} (hroom : output.length ≤ capacity) :
    (readDirectoryFrom L parent includeHidden capacity is output :
      DfsProgram C (List UInt8)).run.Reads d
      (if (output ++ joined (v.listedNames parent includeHidden is)).length ≤ capacity then
        .ok (output ++ joined (v.listedNames parent includeHidden is)) else .error .noSpace) := by
  induction is generalizing output with
  | nil =>
    have hnil : output ++ joined (v.listedNames parent includeHidden []) = output :=
      append_nil output
    rw [hnil, if_pos hroom]
    exact rfl
  | cons i is ih =>
    have his' : ∀ j ∈ is, j < inodeCount := fun j hj => his j (mem_cons_of_mem _ hj)
    refine reads_bind (reads_readNode hd (his i mem_cons_self)) ?_
    have hskip : listedName parent includeHidden (v.nodes i) = none →
        v.listedNames parent includeHidden (i :: is) = v.listedNames parent includeHidden is :=
      fun h => filterMap_cons_none h
    by_cases hfree : (v.nodes i).kind = 0 ∨ (v.nodes i).path.length = 0
    · rw [if_pos hfree, hskip (if_pos hfree)]
      exact ih his' hroom
    rw [if_neg hfree]
    cases hchild : immediateChild (v.nodes i).pathStr parent with
    | none =>
      rw [hskip (by rw [listedName, if_neg hfree, hchild]; rfl)]
      exact ih his' hroom
    | some name =>
      dsimp only
      by_cases hlisted : isListed includeHidden name
      · have hname : listedName parent includeHidden (v.nodes i) = some name := by
          rw [listedName, if_neg hfree, hchild, filter_some, if_pos hlisted]
        have hcons : output ++ joined (v.listedNames parent includeHidden (i :: is)) =
            (output ++ name ++ [newline]) ++ joined (v.listedNames parent includeHidden is) := by
          have hnames : v.listedNames parent includeHidden (i :: is) =
              name :: v.listedNames parent includeHidden is :=
            filterMap_cons_some (f := fun i => listedName parent includeHidden (v.nodes i))
              hname
          rw [hnames]
          simp [joined]
        rw [if_neg (by simp [hlisted]), hcons]
        by_cases hfull : capacity < output.length + name.length + 1
        · rw [if_pos hfull, if_neg]
          · exact rfl
          · simp only [length_append, length_singleton]
            omega
        · rw [if_neg hfull]
          exact ih his' (by simp only [length_append, length_singleton]; omega)
      · rw [if_pos (by simp [hlisted]),
          hskip (by rw [listedName, if_neg hfree, hchild, filter_some, if_neg hlisted])]
        exact ih his' hroom

/-- **What `read_directory` writes** for a directory: the names of its children, if they fit. -/
theorem run_readDirectory (hd : Represents L d v) {path : Str} {p : Path} {i : ℕ}
    (hp : canonicalPath path = .ok p) (hfind : v.find p.bytes = some i)
    (hkind : (v.nodes i).kind = nodeDirectory) (includeHidden : Bool) (capacity : ℕ) :
    (readDirectory L path includeHidden capacity : DfsProgram Transaction _).run.run
        (commitRun L) d =
      (if (joined (v.listedNames p.bytes includeHidden (List.range inodeCount))).length ≤ capacity
        then .ok (joined (v.listedNames p.bytes includeHidden (List.range inodeCount)))
        else .error .noSpace, d) := by
  have hpath : (ofExcept (canonicalPath path) : DfsProgram Transaction Path).run.Reads d (.ok p) :=
    hp
  have hnode := reads_findNode (C := Transaction) hd.toHolds p.bytes
  rw [hfind] at hnode
  refine Prog.Reads.run (commitRun L) (reads_bind hpath (reads_bind hnode ?_))
  rw [map_some]
  dsimp only
  rw [if_neg (not_not.mpr hkind)]
  exact reads_readDirectoryFrom hd.toHolds p.bytes includeHidden capacity
    (fun _ hi => mem_range.mp hi) (Nat.zero_le _)

end Listing

/-! ### Listings that give the children back -/

/-- Node `i` of the disk is a child of a directory, with this name. -/
def NamedAt (L : Layout) (d : ℕ → Sector) (parent name : List UInt8) (i : ℕ) : Prop :=
  i < inodeCount ∧ name ≠ [] ∧ slash ∉ name ∧ ∃ node, decodeNode (d (L.inodeLba + i)) = .ok node ∧
    node.kind ≠ 0 ∧ node.pathStr = child parent name

/-- The entries of a listing are the names of the children that it shows, each once. -/
def ParsesBack (L : Layout) (d : ℕ → Sector) (parent : List UInt8) (includeHidden : Bool)
    (bytes : List UInt8) : Prop :=
  (directoryEntries bytes).Nodup ∧ ∀ name, name ∈ directoryEntries bytes ↔
    isListed includeHidden name ∧ ∃ i, NamedAt L d parent name i

section Parsing

variable {L : Layout} {d : ℕ → Sector} {v : Vol} {parent name : List UInt8} {includeHidden : Bool}

theorem listedName_eq_some {node : Node} : listedName parent includeHidden node = some name ↔
    isListed includeHidden name ∧ node.kind ≠ 0 ∧ name ≠ [] ∧ slash ∉ name ∧
      node.pathStr = child parent name := by
  rw [listedName]
  split
  · rename_i hfree
    simp only [reduceCtorEq, false_iff]
    rintro ⟨-, hkind, hname, -, hpath⟩
    have hnil : node.pathStr = [] := by
      rw [Node.pathStr, length_eq_zero_iff.mp (hfree.resolve_left hkind)]
      split <;> rfl
    rw [hnil, child] at hpath
    split at hpath
    · exact hname hpath.symm
    · simp at hpath
  · rename_i hused
    rw [filter_eq_some_iff, immediateChild_eq_some]
    constructor
    · rintro ⟨⟨hpath, hname, hslash⟩, hlisted⟩
      exact ⟨hlisted, fun h => hused (Or.inl h), hname, hslash, hpath⟩
    · rintro ⟨hlisted, -, hname, hslash, hpath⟩
      exact ⟨⟨hpath, hname, hslash⟩, hlisted⟩

theorem Holds.namedAt_iff (hd : Holds L d v) {i : ℕ} (hi : i < inodeCount) :
    isListed includeHidden name ∧ NamedAt L d parent name i ↔
      listedName parent includeHidden (v.nodes i) = some name := by
  rw [listedName_eq_some, NamedAt, hd.node i hi]
  constructor
  · rintro ⟨hlisted, -, hname, hslash, node, hnode, hkind, hpath⟩
    obtain rfl := Except.ok.inj hnode
    exact ⟨hlisted, hkind, hname, hslash, hpath⟩
  · rintro ⟨hlisted, hkind, hname, hslash, hpath⟩
    exact ⟨hlisted, hi, hname, hslash, _, rfl, hkind, hpath⟩

theorem Holds.mem_listedNames (hd : Holds L d v) :
    name ∈ v.listedNames parent includeHidden (List.range inodeCount) ↔
      isListed includeHidden name ∧ ∃ i, NamedAt L d parent name i := by
  rw [Vol.listedNames, mem_filterMap]
  constructor
  · rintro ⟨i, hi, hname⟩
    obtain ⟨hlisted, hnamed⟩ := (hd.namedAt_iff (mem_range.mp hi)).mpr hname
    exact ⟨hlisted, i, hnamed⟩
  · rintro ⟨hlisted, i, hnamed⟩
    exact ⟨i, mem_range.mpr hnamed.1, (hd.namedAt_iff hnamed.1).mp ⟨hlisted, hnamed⟩⟩

theorem Holds.nodup_listedNames (hd : Holds L d v) :
    (v.listedNames parent includeHidden (List.range inodeCount)).Nodup ↔
      ∀ name i j, isListed includeHidden name → NamedAt L d parent name i →
        NamedAt L d parent name j → i = j := by
  rw [Vol.listedNames, List.Nodup, pairwise_filterMap]
  constructor
  · intro h name i j hlisted hi hj
    have hlt : ∀ i j, i < j → NamedAt L d parent name i → ¬ NamedAt L d parent name j := by
      intro i j hij hi hj
      have hpair := pairwise_iff_getElem.mp h i j (by simpa using hi.1) (by simpa using hj.1)
        hij
      simp only [getElem_range] at hpair
      exact hpair name ((hd.namedAt_iff hi.1).mp ⟨hlisted, hi⟩) name
        ((hd.namedAt_iff hj.1).mp ⟨hlisted, hj⟩) rfl
    rcases lt_trichotomy i j with hij | hij | hij
    · exact absurd hj (hlt i j hij hi)
    · exact hij
    · exact absurd hi (hlt j i hij hj)
  · intro h
    refine nodup_range.imp_of_mem fun {i j} hi hj hne a ha b hb hab => ?_
    obtain ⟨hlisted, hnamed⟩ := (hd.namedAt_iff (mem_range.mp hi)).mpr ha
    exact hne (h a i j hlisted hnamed ((hd.namedAt_iff (mem_range.mp hj)).mpr (hab ▸ hb)).2)

end Parsing

section Runs

variable {L : Layout} {allowed : Operation → Prop} {d : ℕ → Sector} {v : Vol}

/-- **A listing parses back** exactly when no name that it shows has a line break and no two nodes
are shown under one name. A directory is listed when its names fit. -/
theorem Represents.listing_parses (hd : Represents L d v) {path : Str} {p : Path} {i : ℕ}
    (hp : canonicalPath path = .ok p) (hfind : v.find p.bytes = some i)
    (hkind : (v.nodes i).kind = nodeDirectory) (includeHidden : Bool) :
    ∃ bytes, (∀ capacity,
      (readDirectory L path includeHidden capacity : DfsProgram Transaction _).run.run
        (commitRun L) d = (if bytes.length ≤ capacity then .ok bytes else .error .noSpace, d)) ∧
      (ParsesBack L d p.bytes includeHidden bytes ↔
        (∀ name i, isListed includeHidden name → NamedAt L d p.bytes name i → newline ∉ name) ∧
        ∀ name i j, isListed includeHidden name → NamedAt L d p.bytes name i →
          NamedAt L d p.bytes name j → i = j) := by
  refine ⟨_, run_readDirectory hd hp hfind hkind includeHidden, ?_⟩
  have hmem : ∀ name, name ∈ v.listedNames p.bytes includeHidden (List.range inodeCount) ↔
      isListed includeHidden name ∧ ∃ i, NamedAt L d p.bytes name i := fun name =>
    hd.toHolds.mem_listedNames
  have hne : ∀ n ∈ v.listedNames p.bytes includeHidden (List.range inodeCount), n ≠ [] := by
    intro n hn
    obtain ⟨-, i, -, hname, -⟩ := (hmem n).mp hn
    exact hname
  have hparse := parses_iff hne
  simp only [hmem, hd.toHolds.nodup_listedNames] at hparse
  rw [ParsesBack, hparse]
  refine and_congr_left fun _ => ⟨fun h name i hlisted hi => h name ⟨hlisted, i, hi⟩, ?_⟩
  rintro h name ⟨hlisted, i, hi⟩
  exact h name i hlisted hi

theorem Reached.represents (h : Reached L allowed d) : ∃ v, Represents L d v ∧ v.Exact L := by
  induction h with
  | format h => exact h.exact
  | perform _ op _ ih =>
    obtain ⟨v, hd, hacc⟩ := ih
    obtain ⟨v', hd', hacc', -⟩ := op.run_outcome hd hacc
    exact ⟨v', hd', hacc'⟩
  | remount _ hm ih =>
    obtain ⟨v, hd, hacc⟩ := ih
    rw [hd.remount hm]
    exact ⟨v, hd, hacc⟩

/-- The path of a name with a line break. -/
def brokenPath : Path := ⟨[97, 10, 98], rfl, by decide, Or.inr (by decide)⟩

/-- The directory with this name, as it is stored. -/
def brokenNode : Node := (newNode brokenPath nodeDirectory 0o755 0 0).stored

end Runs

end ImagineOS.Dfs
