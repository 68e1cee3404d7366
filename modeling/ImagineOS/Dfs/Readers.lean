import ImagineOS.Dfs.Seed
import ImagineOS.Dfs.Wraparound

/-!
# DFS: an archive and the volume that is seeded from it

An archive is read in two ways. The RAM file system looks a path up in it, header by header; the
installer seeds a volume from it, and the volume is asked afterwards. Both answers are functions of
a walk over the headers, and they are not the same function. `find` takes the first header of a path
and seeding lays every later one over it; the paths that are compared have their slashes in
different places; `is_directory` takes any header below a path as a sign of a directory; and the two
walks do not read all numbers alike.
-/

namespace ImagineOS

/-! ### What the RAM file system finds -/

namespace Overlay

namespace Member

variable (m : Member)

/-- A header that `find` passes over, or returns. -/
def Readable : Prop :=
  ¬ (m.pathPrefix ≠ [] ∧ !validUtf8 m.pathPrefix) ∧ ∃ size ∈ m.size, size ≤ m.rest.length

instance : Decidable m.Readable :=
  inferInstanceAs (Decidable (_ ∧ ∃ size ∈ m.size, size ≤ m.rest.length))

/-- A header that `find` is after. -/
def IsFile (q : List UInt8) : Prop := m.path = q ∧ m.isRegular

instance (q : List UInt8) : Decidable (m.IsFile q) := inferInstanceAs (Decidable (_ ∧ _))

/-- A header that `metadata` is after. -/
def Describes (q : List UInt8) : Prop := trimEnd m.path = q

instance (q : List UInt8) : Decidable (m.Describes q) := inferInstanceAs (Decidable (_ = _))

/-- A header that `is_directory` is after. -/
def Implies (q : List UInt8) : Prop := (m.path = q ∧ m.isDirectoryEntry) ∨ startsBelow m.path q

instance (q : List UInt8) : Decidable (m.Implies q) := inferInstanceAs (Decidable (_ ∨ _))

/-- What `find` returns. -/
def data : List UInt8 := m.rest.take (m.size.getD 0)

/-- What `metadata` returns. -/
def metadata : Metadata where
  size := m.size.getD 0
  mode := UInt16.ofNat (m.mode.getD 0o644)
  uid := UInt32.ofNat (m.uid.getD 0)
  gid := UInt32.ofNat (m.gid.getD 0)
  isDirectory := m.isDirectoryEntry

end Member

section Lookups

variable {m : Member} {ms : List Member} {q : List UInt8}

theorem matches_iff : m.matches q = true ↔ m.path = q := by
  refine ⟨path_of_matches, ?_⟩
  rintro rfl
  rw [Member.matches, Member.path]
  split_ifs with hprefix
  · exact beq_self_eq_true _
  · rw [stripPrefix_eq_some.mpr rfl, Option.bind_some,
      stripPrefix_eq_some.mpr (show slash :: m.name = [slash] ++ m.name from rfl)]
    exact beq_self_eq_true _

/-- **`find`** returns the data of the first file, if it can read up to there. -/
theorem findIn_eq (q : List UInt8) (ms : List Member) : findIn q ms =
    ((ms.takeWhile fun m => m.Readable).find? fun m => m.IsFile q).map Member.data := by
  induction ms with
  | nil => rfl
  | cons m ms ih =>
    rw [findIn]
    by_cases hreadable : m.Readable
    · obtain ⟨hutf8, size, hsize, hroom⟩ := hreadable
      rw [List.takeWhile_cons_of_pos (by simpa using ⟨hutf8, size, hsize, hroom⟩), if_neg hutf8]
      simp only [Option.mem_def.mp hsize, if_neg (Nat.not_lt.mpr hroom)]
      by_cases hfile : m.IsFile q
      · rw [if_pos ⟨matches_iff.mpr hfile.1, hfile.2⟩,
          List.find?_cons_of_pos (by simpa using hfile), Option.map_some, Member.data,
          Option.mem_def.mp hsize]
        rfl
      · rw [if_neg fun hm => hfile ⟨matches_iff.mp hm.1, hm.2⟩,
          List.find?_cons_of_neg (by simpa using hfile)]
        exact ih
    · rw [List.takeWhile_cons_of_neg (by simpa using hreadable)]
      by_cases hutf8 : m.pathPrefix ≠ [] ∧ !validUtf8 m.pathPrefix
      · rw [if_pos hutf8]
        rfl
      rw [if_neg hutf8]
      cases hsize : m.size with
      | none => rfl
      | some size =>
        have hroom : m.rest.length < size :=
          Nat.not_le.mp fun hle => hreadable ⟨hutf8, size, hsize, hle⟩
        simp only [if_pos hroom]
        rfl

/-- **`metadata`** reads the first header that describes the path. -/
theorem metadataIn_eq (q : List UInt8) (ms : List Member) : metadataIn q ms =
    ((ms.takeWhile fun m => m.size.isSome).find? fun m => m.Describes q).map Member.metadata := by
  induction ms with
  | nil => rfl
  | cons m ms ih =>
    rw [metadataIn]
    cases hsize : m.size with
    | none =>
      rw [List.takeWhile_cons_of_neg (by simp [hsize])]
      rfl
    | some size =>
      rw [List.takeWhile_cons_of_pos (by simp [hsize])]
      by_cases hdescribes : m.Describes q
      · rw [List.find?_cons_of_pos (by simpa using hdescribes)]
        dsimp only
        rw [if_pos (show trimEnd m.path = q from hdescribes), Option.map_some, Member.metadata,
          hsize]
        rfl
      · rw [List.find?_cons_of_neg (by simpa using hdescribes)]
        dsimp only
        rw [if_neg (show ¬ trimEnd m.path = q from hdescribes)]
        exact ih

/-- **`is_directory`** is true if any header of the walk implies it. -/
theorem isDirectoryIn_iff (h : Walked ms) :
    isDirectoryIn q ms = true ↔ ∃ m ∈ ms, m.Implies q := by
  have hcons : ∀ (m : Member) (rest : List Member), isDirectoryIn q (m :: rest) = true ↔
      m.Implies q ∨ ∃ size ∈ m.size, paddedSize size ≤ m.rest.length ∧
        isDirectoryIn q rest = true := fun m rest => by
    rw [isDirectoryIn]
    by_cases himplies : m.Implies q
    · rw [if_pos (show (m.path = q ∧ m.isDirectoryEntry = true) ∨ startsBelow m.path q = true
        from himplies)]
      exact iff_of_true rfl (Or.inl himplies)
    · rw [if_neg (show ¬ ((m.path = q ∧ m.isDirectoryEntry = true) ∨ startsBelow m.path q = true)
        from himplies), or_iff_right himplies]
      cases m.size <;> simp
  induction h with
  | nil => simp [isDirectoryIn]
  | last m =>
    rw [hcons]
    simp [isDirectoryIn]
  | @cons m ms size hsize hroom _ ih =>
    rw [hcons, List.exists_mem_cons_iff, hsize]
    simp [hroom, ih]

end Lookups

end Overlay

namespace Dfs

open BlockProgram Fallible

open Overlay (Member members findIn metadataIn isDirectoryIn trimStart trimEnd walked_members
  findIn_eq metadataIn_eq isDirectoryIn_iff Archive.find Archive.metadata Archive.isDirectory)

/-! ### What seeding makes -/

section Seeded

variable {hs : List Header} {q : List UInt8}

/-- What a later header of the same path makes of the contents. -/
def Header.lay (content : List UInt8) (h : Header) : List UInt8 :=
  if h.isDirectory then content else splice content 0 h.data

/-- The first header that names a path. -/
def leader (hs : List Header) (q : List UInt8) : Option Header := hs.find? (·.Names q)

/-- The data of the headers that name a path, each one over the ones before. -/
def laid (hs : List Header) (q : List UInt8) : List UInt8 :=
  match hs.filter (·.Names q) with
  | [] => []
  | h :: rest => rest.foldl Header.lay h.data

theorem foldlM_step {e : Entry} {r : Option Entry}
    (h : hs.foldlM (fun old h => h.step old) (some e) = some r) :
    r = some { e with content := e.content.map (hs.foldl Header.lay) } := by
  induction hs generalizing e with
  | nil =>
    obtain rfl : some e = r := Option.some.inj h
    obtain ⟨content, mode, uid, gid⟩ := e
    cases content <;> rfl
  | cons first hs ih =>
    rw [List.foldlM_cons] at h
    obtain ⟨next, hnext, h⟩ := Option.bind_eq_some_iff.mp h
    rw [Header.step] at hnext
    split_ifs at hnext with hdir hany
    · obtain rfl := Option.some.inj hnext
      rw [ih h]
      simp [Header.lay, hdir]
    · obtain rfl := Option.some.inj hnext
      obtain ⟨content, hcontent⟩ : ∃ content, e.content = some content := by
        rw [Option.any_some, decide_eq_true_eq] at hany
        exact Option.ne_none_iff_exists'.mp hany
      rw [ih h]
      simp [written, Header.lay, hdir, hcontent]

/-- What a header makes, if it is the first one of its path, with these contents in the end. -/
def Header.entry (h : Header) (content : List UInt8) : Entry where
  content := if h.isDirectory then none else some content
  mode := h.mode
  uid := h.uid
  gid := h.gid

/-- **What seeding makes at a path.** -/
theorem entries_seeded {r : Option Entry}
    (h : (hs.filter (·.Names q)).foldlM (fun old h => h.step old) none = some r) :
    r = (leader hs q).map (·.entry (laid hs q)) := by
  rw [leader, laid, ← List.head?_filter]
  cases hfilter : hs.filter (·.Names q) with
  | nil =>
    rw [hfilter] at h
    exact (Option.some.inj h).symm
  | cons first rest =>
    rw [hfilter, List.foldlM_cons] at h
    obtain ⟨next, hnext, h⟩ := Option.bind_eq_some_iff.mp h
    rw [Header.step] at hnext
    rw [List.head?_cons, Option.map_some, Header.entry]
    split_ifs at hnext with hdir hany
    · obtain rfl := Option.some.inj hnext
      rw [foldlM_step h]
      simp [newEntry, hdir, nodeDirectory, nodeFile]
    · obtain rfl := Option.some.inj hnext
      rw [foldlM_step h]
      simp [written, hdir]

end Seeded

/-! ### Answers -/

/-- The bytes of a path, as a string. -/
def Path.str (p : Path) : Str := ⟨p.bytes, p.utf8⟩

theorem Path.canonicalPath_str (p : Path) : canonicalPath p.str = .ok p := by
  have hstrip : (stripPrefix p.bytes [slash]).getD p.bytes = p.bytes := by
    cases h : stripPrefix p.bytes [slash] with
    | none => rfl
    | some rest =>
      have hbytes := stripPrefix_eq_some.mp h
      rcases p.clean with hnil | hclean
      · rw [hnil] at hbytes
        cases hbytes
      · rw [hbytes] at hclean
        exact absurd (cleanPath_append (a := []).mp hclean).1 not_cleanPath_nil
  unfold canonicalPath
  simp only [Path.str, hstrip]
  split_ifs with h₁ h₂
  · rfl
  · exact congrArg Except.ok (Path.ext h₂.symm)
  · exact absurd (p.clean.resolve_left h₂) fun hclean => h₁ ⟨p.length_le, hclean⟩

/-- `read_file` returns parts of the contents. -/
def Contains (L : Layout) (d : ℕ → Sector) (path : Str) (content : List UInt8) : Prop :=
  ∀ offset length, (readFile L path offset length : DfsProgram Transaction _).run.run
    (commitRun L) d = (.ok ((content.drop offset).take length), d)

/-- What `stat` returns. -/
def statOf (L : Layout) (d : ℕ → Sector) (path : Str) : Except DfsError Overlay.Metadata :=
  ((stat L path : DfsProgram Transaction _).run.run (commitRun L) d).1

/-- The archive and the volume on the disk have the same at a path: the same kind of thing, or
nothing, and for files the same size, contents, mode and owner. -/
structure AnswerAlike (L : Layout) (d : ℕ → Sector) (archive : List UInt8) (p : Path) : Prop where
  directory : Archive.isDirectory archive p.bytes ↔
    ∃ m, statOf L d p.str = .ok m ∧ m.isDirectory
  file : ∀ content, Archive.find archive p.bytes = some content ↔ Contains L d p.str content
  metadata : ∀ m, statOf L d p.str = .ok m → ¬ m.isDirectory →
    Archive.metadata archive p.bytes = some m

section Answers

variable {L : Layout} {d : ℕ → Sector} {v : Vol} {p : Path}

theorem Contains.unique {path : Str} {a b : List UInt8} (ha : Contains L d path a)
    (hb : Contains L d path b) : a = b := by
  have htake : ∀ n, a.take n = b.take n := fun n => by
    simpa using (ha 0 n).symm.trans (hb 0 n)
  rcases Nat.le_total a.length b.length with hle | hle
  · have h := htake b.length
    rwa [List.take_of_length_le hle, List.take_length] at h
  · have h := htake a.length
    rwa [List.take_length, List.take_of_length_le hle] at h

/-- `read_file`, by the map. -/
theorem contains_iff (hv : InOrder L d v) {content : List UInt8} :
    Contains L d p.str content ↔ (v.entries p.bytes).bind (·.content) = some content := by
  have hread := hv.toRepresents.agrees hv.exact hv.sized p.str
  simp only [p.canonicalPath_str, Except.toOption, Option.bind_some] at hread
  rw [← Vol.files_eq]
  cases hfile : v.files p.bytes with
  | none =>
    refine iff_of_false (fun h => ?_) (by simp)
    obtain ⟨r, hrun, hr⟩ := hread 0 0
    rw [hfile] at hr
    obtain ⟨e, rfl⟩ := hr
    cases congrArg Prod.fst (hrun.symm.trans (h 0 0))
  | some found =>
    have hfound : Contains L d p.str found := fun offset length => by
      obtain ⟨r, hrun, hr⟩ := hread offset length
      rw [hfile] at hr
      rw [hrun, hr]
    exact ⟨fun h => congrArg some (hfound.unique h), fun h => Option.some.inj h ▸ hfound⟩

theorem statOf_eq (hv : InOrder L d v) : statOf L d p.str = v.stat p.str :=
  congrArg Prod.fst (run_stat hv.toRepresents p.str)

/-- `stat` of a directory, by the map. -/
theorem stat_directory_iff (hv : InOrder L d v) :
    (∃ m, statOf L d p.str = .ok m ∧ m.isDirectory) ↔
      ∃ e, v.entries p.bytes = some e ∧ e.content = none := by
  rw [statOf_eq hv]
  constructor
  · rintro ⟨m, hm, hdirectory⟩
    cases he : v.entries p.bytes with
    | none =>
      rw [stat_of_none p.canonicalPath_str he] at hm
      cases hm
    | some e =>
      refine ⟨e, rfl, Option.eq_none_iff_forall_ne_some.mpr fun content hcontent => ?_⟩
      rw [stat_of_file p.canonicalPath_str he hcontent] at hm
      rw [← Except.ok.inj hm] at hdirectory
      cases hdirectory
  · rintro ⟨e, he, hcontent⟩
    exact stat_of_directory hv.toRepresents p.canonicalPath_str he hcontent

/-- `stat` of a file, by the map. -/
theorem stat_file_iff (hv : InOrder L d v) {m : Overlay.Metadata} :
    (statOf L d p.str = .ok m ∧ ¬ m.isDirectory) ↔
      ∃ e content, v.entries p.bytes = some e ∧ e.content = some content ∧
        m = ⟨content.length, e.mode, e.uid, e.gid, false⟩ := by
  rw [statOf_eq hv]
  constructor
  · rintro ⟨hm, hdirectory⟩
    cases he : v.entries p.bytes with
    | none =>
      rw [stat_of_none p.canonicalPath_str he] at hm
      cases hm
    | some e =>
      cases hcontent : e.content with
      | none =>
        obtain ⟨m', hm', hdirectory'⟩ :=
          stat_of_directory hv.toRepresents p.canonicalPath_str he hcontent
        obtain rfl := Except.ok.inj (hm'.symm.trans hm)
        exact absurd hdirectory' hdirectory
      | some content =>
        rw [stat_of_file p.canonicalPath_str he hcontent] at hm
        exact ⟨e, content, rfl, hcontent, (Except.ok.inj hm).symm⟩
  · rintro ⟨e, content, he, hcontent, rfl⟩
    exact ⟨stat_of_file p.canonicalPath_str he hcontent, by simp⟩

end Answers

/-! ### Agreement -/

/-- What both readers need at a path, of the headers `ms` over which the RAM file system walks and
the headers `hs` from which the volume is seeded. -/
structure Settled (ms : List Member) (hs : List Header) (q : List UInt8) : Prop where
  /-- What is taken as a sign of a directory comes after a header that makes it one. -/
  implied : q ≠ [] → ∀ m ∈ ms, m.Implies q → ∃ h ∈ leader hs q, h.isDirectory
  /-- A directory that is made has such a sign. -/
  found : ∀ h ∈ leader hs q, h.isDirectory → ∃ m ∈ ms, m.Implies q
  /-- What is taken as a file is made one. -/
  filed : ∀ m ∈ ms.takeWhile fun m => m.Readable, m.IsFile q → ∃ h ∈ leader hs q, ¬ h.isDirectory
  /-- A file that is made is taken as one, and nothing laid over it shows. -/
  whole : ∀ h ∈ leader hs q, ¬ h.isDirectory →
    ∃ m ∈ (ms.takeWhile fun m => m.Readable).find? fun m => m.IsFile q, m.data = laid hs q
  /-- The mode and the owner are read alike, from headers that say the same. -/
  described : ∀ h ∈ leader hs q, ¬ h.isDirectory →
    ∃ m ∈ (ms.takeWhile fun m => m.size.isSome).find? fun m => m.Describes q,
      m.metadata = ⟨(laid hs q).length, h.mode, h.uid, h.gid, false⟩

section Agreement

variable {L : Layout} {d d' : ℕ → Sector} {v : Vol} {archive q : List UInt8} {p : Path}
  {hs : List Header}

theorem leader_nil (hs : List Header) : leader hs [] = none := by
  refine List.find?_eq_none.mpr fun h _ hnames => ?_
  have htarget := (of_decide_eq_true hnames).2
  rw [Header.target] at htarget
  cases hstrip : stripPrefix h.trimmed [slash] with
  | none =>
    rw [hstrip] at htarget
    exact (of_decide_eq_true hnames).1.1 htarget
  | some rest =>
    rw [hstrip, Option.getD_some] at htarget
    have htrimmed := stripPrefix_eq_some.mp hstrip
    rw [htarget, List.append_nil, Header.trimmed, trimEnd, List.reverse_eq_iff,
      List.reverse_singleton] at htrimmed
    have hhead := List.head_dropWhile_not (fun b : UInt8 => b == slash) (l := h.path.reverse)
      (by rw [htrimmed]; simp)
    simp [htrimmed] at hhead

theorem entries_of_seed (hformats : Formats L d) (hrun : (seedFromUstar L archive).run.run
      (commitRun L) d = (.ok (), d')) :
    ∃ v, InOrder L d' v ∧ ∀ q, v.entries q =
      if q = [] then some (newEntry nodeDirectory 0o755 0 0)
      else (leader (headers archive) q).map (·.entry (laid (headers archive) q)) := by
  obtain ⟨v₀, hv₀, hentries₀⟩ := InOrder.formats hformats
  obtain ⟨-, v, hv, hfold, -⟩ := run_seedFromUstar hv₀ hrun
  refine ⟨v, hv, fun q => ?_⟩
  have hq := seed_apply hfold q
  rw [hentries₀, Function.update_apply] at hq
  split_ifs at hq ⊢ with hnil
  · have hfilter : (headers archive).filter (·.Names q) = [] := by
      rw [← List.head?_eq_none_iff, List.head?_filter, hnil]
      exact leader_nil _
    rw [hfilter] at hq
    exact (Option.some.inj hq).symm
  · exact entries_seeded hq

theorem directory_iff (hentries : v.entries q = if q = [] then
      some (newEntry nodeDirectory 0o755 0 0) else (leader hs q).map (·.entry (laid hs q))) :
    (∃ e, v.entries q = some e ∧ e.content = none) ↔
      q = [] ∨ ∃ h ∈ leader hs q, h.isDirectory := by
  rw [hentries]
  by_cases hnil : q = []
  · rw [if_pos hnil]
    exact iff_of_true ⟨_, rfl, rfl⟩ (Or.inl hnil)
  · rw [if_neg hnil, or_iff_right hnil]
    cases leader hs q <;> simp [Header.entry]

/-- Seeded files. -/
theorem file_iff (hentries : v.entries q = if q = [] then
      some (newEntry nodeDirectory 0o755 0 0) else (leader hs q).map (·.entry (laid hs q)))
    {e : Entry} {content : List UInt8} : (v.entries q = some e ∧ e.content = some content) ↔
      ∃ h ∈ leader hs q, ¬ h.isDirectory ∧ h.entry (laid hs q) = e ∧ laid hs q = content := by
  rw [hentries]
  by_cases hnil : q = []
  · rw [if_pos hnil, hnil, leader_nil]
    refine iff_of_false ?_ (by simp)
    rintro ⟨he, hcontent⟩
    rw [← Option.some.inj he] at hcontent
    cases hcontent
  · rw [if_neg hnil]
    cases leader hs q with
    | none => simp
    | some h =>
      cases hdirectory : h.isDirectory with
      | true =>
        simp only [Option.map_some, Header.entry, hdirectory]
        refine iff_of_false ?_ (by simp [hdirectory])
        rintro ⟨he, hcontent⟩
        rw [← Option.some.inj he] at hcontent
        cases hcontent
      | false =>
        simp only [Option.map_some, Header.entry, hdirectory, Option.mem_def, Option.some_inj]
        constructor
        · rintro ⟨rfl, hcontent⟩
          exact ⟨h, rfl, by simp [hdirectory], by simp [hdirectory], Option.some.inj hcontent⟩
        · rintro ⟨h', rfl, -, rfl, rfl⟩
          simp [hdirectory]

theorem Path.trimStart_bytes (p : Path) : trimStart p.bytes = p.bytes := by
  rcases p.clean with hnil | hclean
  · rw [hnil]
    rfl
  · exact Overlay.trimStart_of_clean hclean

theorem isDirectory_iff : Archive.isDirectory archive p.bytes ↔
    p.bytes = [] ∨ ∃ m ∈ members archive, m.Implies p.bytes := by
  rw [Archive.isDirectory, p.trimStart_bytes, Bool.or_eq_true, decide_eq_true_eq,
    isDirectoryIn_iff (walked_members archive)]

/-- **A path is answered alike** exactly if the headers are in order for it. -/
theorem answerAlike_iff (hv : InOrder L d v) (hentries : v.entries p.bytes = if p.bytes = [] then
      some (newEntry nodeDirectory 0o755 0 0)
      else (leader hs p.bytes).map (·.entry (laid hs p.bytes))) :
    AnswerAlike L d archive p ↔ Settled (members archive) hs p.bytes := by
  have hdirectory : (∃ m, statOf L d p.str = .ok m ∧ m.isDirectory) ↔
      p.bytes = [] ∨ ∃ h ∈ leader hs p.bytes, h.isDirectory :=
    (stat_directory_iff hv).trans (directory_iff hentries)
  have hcontains : ∀ content, Contains L d p.str content ↔
      ∃ h ∈ leader hs p.bytes, ¬ h.isDirectory ∧ laid hs p.bytes = content := fun content => by
    rw [contains_iff hv, Option.bind_eq_some_iff]
    simp only [file_iff hentries]
    constructor
    · rintro ⟨_, h, hh, hdir, -, hlaid⟩
      exact ⟨h, hh, hdir, hlaid⟩
    · rintro ⟨h, hh, hdir, hlaid⟩
      exact ⟨_, h, hh, hdir, rfl, hlaid⟩
  have hstat : ∀ m, (statOf L d p.str = .ok m ∧ ¬ m.isDirectory) ↔
      ∃ h ∈ leader hs p.bytes, ¬ h.isDirectory ∧
        m = ⟨(laid hs p.bytes).length, h.mode, h.uid, h.gid, false⟩ := fun m => by
    rw [stat_file_iff hv]
    constructor
    · rintro ⟨e, content, he, hcontent, rfl⟩
      obtain ⟨h, hh, hdir, rfl, rfl⟩ := (file_iff hentries).mp ⟨he, hcontent⟩
      exact ⟨h, hh, hdir, rfl⟩
    · rintro ⟨h, hh, hdir, rfl⟩
      obtain ⟨he, hcontent⟩ := (file_iff hentries).mpr ⟨h, hh, hdir, rfl, rfl⟩
      exact ⟨_, _, he, hcontent, rfl⟩
  have hfind : Archive.find archive p.bytes = (((members archive).takeWhile
      fun m => m.Readable).find? fun m => m.IsFile p.bytes).map Member.data := by
    rw [Archive.find, p.trimStart_bytes, findIn_eq]
  have hmetadata : Archive.metadata archive p.bytes = (((members archive).takeWhile
      fun m => m.size.isSome).find? fun m => m.Describes p.bytes).map Member.metadata := by
    rw [Archive.metadata, p.trimStart_bytes, metadataIn_eq]
  constructor
  · rintro ⟨hd, hf, hm⟩
    rw [isDirectory_iff, hdirectory] at hd
    refine ⟨fun hne m hmem himplies => ?_, fun h hh hdir => ?_, fun m hmem hfile => ?_,
      fun h hh hdir => ?_, fun h hh hdir => ?_⟩
    · exact (hd.mp (Or.inr ⟨m, hmem, himplies⟩)).resolve_left hne
    · refine (hd.mpr (Or.inr ⟨h, hh, hdir⟩)).resolve_left fun hnil => ?_
      rw [hnil, leader_nil] at hh
      cases hh
    · have hsome : (((members archive).takeWhile fun m => m.Readable).find?
          fun m => m.IsFile p.bytes).isSome :=
        List.find?_isSome.mpr ⟨m, hmem, by simpa using hfile⟩
      obtain ⟨first, hfirst⟩ := Option.isSome_iff_exists.mp hsome
      obtain ⟨h, hh, hdir, -⟩ := (hcontains _).mp ((hf first.data).mp (by rw [hfind, hfirst]; rfl))
      exact ⟨h, hh, hdir⟩
    · have h := (hf _).mpr ((hcontains _).mpr ⟨h, hh, hdir, rfl⟩)
      rw [hfind, Option.map_eq_some_iff] at h
      exact h
    · obtain ⟨hok, hdir'⟩ := (hstat _).mpr ⟨h, hh, hdir, rfl⟩
      have h := hm _ hok hdir'
      rw [hmetadata, Option.map_eq_some_iff] at h
      exact h
  · rintro ⟨himplied, hfound, hfiled, hwhole, hdescribed⟩
    refine ⟨?_, fun content => ?_, fun m hok hdir => ?_⟩
    · rw [isDirectory_iff, hdirectory]
      by_cases hnil : p.bytes = []
      · exact iff_of_true (Or.inl hnil) (Or.inl hnil)
      · rw [or_iff_right hnil, or_iff_right hnil]
        constructor
        · rintro ⟨m, hmem, h⟩
          exact himplied hnil m hmem h
        · rintro ⟨h, hh, hdir⟩
          exact hfound h hh hdir
    · rw [hcontains, hfind, Option.map_eq_some_iff]
      constructor
      · rintro ⟨m, hm, rfl⟩
        obtain ⟨h, hh, hdir⟩ := hfiled m (List.mem_of_find?_eq_some hm)
          (by simpa using List.find?_some hm)
        obtain ⟨m', hm', hdata⟩ := hwhole h hh hdir
        obtain rfl := Option.some.inj (hm.symm.trans hm')
        exact ⟨h, hh, hdir, hdata.symm⟩
      · rintro ⟨h, hh, hdir, rfl⟩
        exact hwhole h hh hdir
    · obtain ⟨h, hh, hfile, rfl⟩ := (hstat m).mp ⟨hok, hdir⟩
      rw [hmetadata, Option.map_eq_some_iff]
      exact hdescribed h hh hfile

end Agreement

/-! ### A file that an archive has twice -/

section Sample

/-- The header of a file `a`, with a digit for its size. -/
def sampleHeader (digit : UInt8) : List UInt8 :=
  [97] ++ List.replicate 99 0 ++ [54, 52, 52] ++ List.replicate 21 0 ++ [digit] ++
    List.replicate 387 0

/-- The file `a` with the contents `xy`, and once more with the contents `z`. -/
def sampleTwice : List UInt8 :=
  sampleHeader 50 ++ [120, 121] ++ List.replicate 510 0 ++
    (sampleHeader 49 ++ [122] ++ List.replicate 511 0) ++ List.replicate 512 0

theorem headers_twice : headers sampleTwice =
    [headerAt sampleTwice, headerAt (sampleTwice.drop 1024)] := by
  have hfirst : (headerAt sampleTwice).size = some 2 ∧
      (headerAt sampleTwice).rest.drop (Overlay.paddedSize 2) = sampleTwice.drop 1024 := by
    decide +kernel
  have hsecond : (headerAt (sampleTwice.drop 1024)).size = some 1 ∧
      (headerAt (sampleTwice.drop 1024)).rest.drop (Overlay.paddedSize 1) =
        List.replicate 512 0 := by
    decide +kernel
  rw [headers_of_next (by decide +kernel) (by decide +kernel), hfirst.1, Option.elim_some, hfirst.2,
    headers_of_next (by decide +kernel) (by decide +kernel), hsecond.1, Option.elim_some, hsecond.2,
    headers_of_stop (Or.inr (by decide +kernel))]

theorem seed_twice (L : Layout) : seedFromUstar L sampleTwice = (do
    (Operation.writeFile samplePath.str 0 [120, 121] true 0o644 0 0).program L
    (Operation.writeFile samplePath.str 0 [122] true 0o644 0 0).program L
    pure ()) := by
  have hfirst : (headerAt sampleTwice).size = some 2 ∧
      fromUtf8 (headerAt sampleTwice).trimmed = some samplePath.str ∧
      (headerAt sampleTwice).rest.drop (Overlay.paddedSize 2) = sampleTwice.drop 1024 := by
    decide +kernel
  have hsecond : (headerAt (sampleTwice.drop 1024)).size = some 1 ∧
      fromUtf8 (headerAt (sampleTwice.drop 1024)).trimmed = some samplePath.str ∧
      (headerAt (sampleTwice.drop 1024)).rest.drop (Overlay.paddedSize 1) =
        List.replicate 512 0 := by
    decide +kernel
  have hwrite : ∀ (h : Header) (data : List UInt8), (¬ h.isDirectory ∧ h.isRegular) ∧
      h.data = data ∧ h.mode = 0o644 ∧ h.uid = 0 ∧ h.gid = 0 →
      seedEntry L h samplePath.str =
        (Operation.writeFile samplePath.str 0 data true 0o644 0 0).program L := by
    rintro h data ⟨⟨hdir, hregular⟩, hdata, hmode, huid, hgid⟩
    rw [seedEntry, if_neg (by decide), if_neg hdir, if_pos hregular, hdata, hmode, huid, hgid]
    rfl
  rw [seedFromUstar_next (by decide +kernel) (by decide +kernel) hfirst.1 (by decide +kernel)
      (by decide +kernel) hfirst.2.1, hfirst.2.2,
    seedFromUstar_next (by decide +kernel) (by decide +kernel) hsecond.1 (by decide +kernel)
      (by decide +kernel) hsecond.2.1, hsecond.2.2,
    seedFromUstar_end (by decide +kernel) (by decide +kernel),
    hwrite (headerAt sampleTwice) [120, 121] (by decide +kernel),
    hwrite (headerAt (sampleTwice.drop 1024)) [122] (by decide +kernel)]

/-- The file `a`, as it is stored when it is new. -/
def sampleFile : Node := (newNode samplePath nodeFile 0o644 0 0).stored

theorem create_sampleFile : sampleVol.create samplePath nodeFile 0o644 0 0 = .ok (1, sampleFile) ∧
    (sampleVol.setNode 1 sampleFile).find samplePath.str.val = some 1 := by
  decide +kernel

/-- **The archive is accepted.** -/
theorem run_seed_twice : ∃ d d', Formats sampleLayout d ∧
    (seedFromUstar sampleLayout sampleTwice).run.run (commitRun sampleLayout) d = (.ok (), d') := by
  obtain ⟨d, hformats, hd⟩ := formats_sample
  obtain ⟨hcreate, hfind⟩ := create_sampleFile
  obtain ⟨v₁, hd₁, hacc₁, hext₁, hr₁⟩ := run_writeFile_packed hd (formatVol_accounted _)
    samplePath.str samplePath.canonicalPath_str (by decide) hcreate (packed_formatVol _ _)
    [120, 121] (by decide) (by decide) (by decide)
  obtain ⟨-, -, -, -, hr₂⟩ := run_writeFile_growing hd₁ hacc₁ samplePath.str
    samplePath.canonicalPath_str (by decide) ((hext₁.find _).trans hfind) hext₁.growing 0 0 [122]
    (Nat.zero_le _) (by decide) (by decide) (by decide) (by decide) (by decide) true 0o644 0 0
  generalize hrun₁ : (Operation.writeFile samplePath.str 0 [120, 121] true 0o644 0 0).run
    sampleLayout d = s₁ at *
  obtain ⟨r₁, d₁⟩ := s₁
  obtain rfl : r₁ = .ok () := hr₁
  generalize hrun₂ : (Operation.writeFile samplePath.str 0 [122] true 0o644 0 0).run
    sampleLayout d₁ = s₂ at *
  obtain ⟨r₂, d₂⟩ := s₂
  obtain rfl : r₂ = .ok () := hr₂ (by decide)
  refine ⟨d, d₂, hformats, ?_⟩
  rw [seed_twice, run_bind_eq hrun₁, andThen_ok, run_bind_eq hrun₂]
  rfl

end Sample

end Dfs

end ImagineOS
