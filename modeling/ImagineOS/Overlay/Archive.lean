import ImagineOS.Text

/-!
# Overlay: the archive

The initial file system is a USTAR archive in memory. Every lookup walks over its headers from the
first one, and stops at a block of zeros, at the end, or at a size that cannot be read. The lookups
differ in what else makes them stop, and in what they compare.
-/

namespace ImagineOS.Overlay

def blockSize : ℕ := 512

structure Metadata where
  size : ℕ
  mode : UInt16
  uid : UInt32
  gid : UInt32
  isDirectory : Bool
  deriving DecidableEq

/-! ### Headers -/

def field (bytes : List UInt8) : List UInt8 := bytes.takeWhile (· ≠ 0)

/-- The loop of `parse_octal`. Fields have at most 12 digits, so it does not overflow. -/
def parseDigits : List UInt8 → ℕ → Bool → Option ℕ
  | [], value, foundDigit => if foundDigit then some value else none
  | byte :: rest, value, foundDigit =>
    if byte = 0 ∨ byte = 32 then if foundDigit then some value else none
    else if byte < 48 ∨ 55 < byte then none
    else parseDigits rest (value * 8 + (byte.toNat - 48)) true

def parseOctal (bytes : List UInt8) : Option ℕ :=
  parseDigits (bytes.dropWhile fun byte => byte = 32 ∨ byte = 0) 0 false

/-- A header, with what follows it in the archive. -/
structure Member where
  name : List UInt8
  pathPrefix : List UInt8
  /-- The type flag. -/
  flag : UInt8
  size : Option ℕ
  mode : Option ℕ
  uid : Option ℕ
  gid : Option ℕ
  rest : List UInt8
  deriving DecidableEq

/-- `&header[start..stop]` -/
def headerSlice (header : List UInt8) (start stop : ℕ) : List UInt8 :=
  (header.take stop).drop start

/-- The header at the beginning of the bytes, unless there is none. -/
def memberAt (bytes : List UInt8) : Option Member :=
  if bytes.length < blockSize then none
  else if (bytes.take blockSize).all (· == 0) then none
  else
    let header := bytes.take blockSize
    some {
      name := field (headerSlice header 0 100)
      pathPrefix := field (headerSlice header 345 500)
      flag := header.getD 156 0
      size := parseOctal (headerSlice header 124 136)
      mode := parseOctal (headerSlice header 100 108)
      uid := parseOctal (headerSlice header 108 116)
      gid := parseOctal (headerSlice header 116 124)
      rest := bytes.drop blockSize }

/-- The size rounded up to blocks. -/
def paddedSize (size : ℕ) : ℕ := (size + (blockSize - 1)) / blockSize * blockSize

/-- The walk over the headers, in at most so many steps. -/
def membersFrom : ℕ → List UInt8 → List Member
  | 0, _ => []
  | n + 1, bytes =>
    match memberAt bytes with
    | none => []
    | some m => m :: (m.size.elim [] fun size => membersFrom n (m.rest.drop (paddedSize size)))

/-- The headers of an archive. -/
def members (bytes : List UInt8) : List Member := membersFrom bytes.length bytes

/-- The full path of a header. -/
def Member.path (m : Member) : List UInt8 :=
  if m.pathPrefix = [] then m.name else m.pathPrefix ++ slash :: m.name

/-- A regular file. -/
def Member.isRegular (m : Member) : Bool := m.flag == 0 || m.flag == 48

/-- `b'5'`: a directory. -/
def Member.isDirectoryEntry (m : Member) : Bool := m.flag == 53

/-! ### Lookups -/

/-- `str::trim_start_matches('/')` -/
def trimStart (path : List UInt8) : List UInt8 := path.dropWhile (· == slash)

/-- `str::trim_end_matches('/')` -/
def trimEnd (path : List UInt8) : List UInt8 := (path.reverse.dropWhile (· == slash)).reverse

/-- Whether `find` looks for the header. -/
def Member.matches (m : Member) (wanted : List UInt8) : Bool :=
  if m.pathPrefix = [] then m.name == wanted
  else (stripPrefix wanted m.pathPrefix).bind (stripPrefix · [slash]) == some m.name

/-- The loop of `Archive::find`. -/
def findIn (wanted : List UInt8) : List Member → Option (List UInt8)
  | [] => none
  | m :: rest =>
    if m.pathPrefix ≠ [] ∧ !validUtf8 m.pathPrefix then none
    else match m.size with
    | none => none
    | some size =>
      if m.rest.length < size then none
      else if m.matches wanted ∧ m.isRegular then some (m.rest.take size)
      else findIn wanted rest

/-- The loop of `Archive::metadata`. -/
def metadataIn (wanted : List UInt8) : List Member → Option Metadata
  | [] => none
  | m :: rest =>
    match m.size with
    | none => none
    | some size =>
      if trimEnd m.path = wanted then some {
        size := size
        mode := UInt16.ofNat (m.mode.getD 0o644)
        uid := UInt32.ofNat (m.uid.getD 0)
        gid := UInt32.ofNat (m.gid.getD 0)
        isDirectory := m.isDirectoryEntry }
      else metadataIn wanted rest

/-- Whether a path is below another one. -/
def startsBelow (path parent : List UInt8) : Bool :=
  (stripPrefix path parent).any fun rest => rest.head? == some slash

/-- The loop of `Archive::is_directory`. -/
def isDirectoryIn (wanted : List UInt8) : List Member → Bool
  | [] => false
  | m :: rest =>
    if (m.path = wanted ∧ m.isDirectoryEntry) ∨ startsBelow m.path wanted then true
    else match m.size with
    | none => false
    | some size =>
      if m.rest.length < paddedSize size then false else isDirectoryIn wanted rest

/-- `b'\n'` -/
def newline : UInt8 := 10

/-- `append_name`, for an output of so many bytes. -/
def appendName (capacity : ℕ) (written name : List UInt8) : Option (List UInt8) :=
  if name ∈ written.splitOn newline then some written
  else if capacity < written.length + name.length + 1 then none
  else some (written ++ name ++ [newline])

/-- The part of a path below a directory. -/
def relativePath (path directory : List UInt8) : Option (List UInt8) :=
  if directory = [] then some path
  else (stripPrefix path directory).bind (stripPrefix · [slash])

/-- The first component of a path. -/
def firstComponent (path : List UInt8) : List UInt8 := path.takeWhile (· ≠ slash)

/-- The loop of `Archive::list_directory`. -/
def listIn (wanted : List UInt8) (capacity : ℕ) : List Member → List UInt8 → Option (List UInt8)
  | [], written => some written
  | m :: rest, written => do
    let component := firstComponent ((relativePath m.path wanted).getD [])
    let written ← if component = [] then some written else appendName capacity written component
    let _ ← m.size
    listIn wanted capacity rest written

namespace Archive

/-- `Archive::find` -/
def find (bytes wanted : List UInt8) : Option (List UInt8) :=
  findIn (trimStart wanted) (members bytes)

/-- `Archive::metadata` -/
def metadata (bytes wanted : List UInt8) : Option Metadata :=
  metadataIn (trimStart wanted) (members bytes)

/-- `Archive::is_directory` -/
def isDirectory (bytes wanted : List UInt8) : Bool :=
  trimStart wanted = [] || isDirectoryIn (trimStart wanted) (members bytes)

/-- `Archive::is_file` -/
def isFile (bytes wanted : List UInt8) : Bool := (find bytes wanted).isSome

/-- `Archive::list_directory`, for an output of so many bytes. -/
def listDirectory (bytes directory : List UInt8) (capacity : ℕ) : Option (List UInt8) :=
  listIn (trimEnd (trimStart directory)) capacity (members bytes) []

end Archive

/-! ### The walk -/

section Walk

variable {bytes wanted path : List UInt8} {m : Member} {ms : List Member}

theorem memberAt_nil : memberAt [] = none := by simp [memberAt, blockSize]

/-- Behind every header but the last one there is room for its data. -/
inductive Walked : List Member → Prop
  | nil : Walked []
  | last (m : Member) : Walked [m]
  | cons {m : Member} {ms : List Member} {size : ℕ} (hsize : m.size = some size)
      (hroom : paddedSize size ≤ m.rest.length) (h : Walked ms) : Walked (m :: ms)

theorem walked_membersFrom (n : ℕ) (bytes : List UInt8) : Walked (membersFrom n bytes) := by
  induction n generalizing bytes with
  | zero => exact .nil
  | succ n ih =>
    rw [membersFrom]
    cases h : memberAt bytes with
    | none => exact .nil
    | some m =>
      dsimp only
      cases hsize : m.size with
      | none => exact .last m
      | some size =>
        dsimp only [Option.elim_some]
        by_cases hroom : paddedSize size ≤ m.rest.length
        · exact .cons hsize hroom (ih _)
        · have hnil : m.rest.drop (paddedSize size) = [] := List.drop_eq_nil_of_le (by omega)
          rw [hnil]
          cases n <;> simpa [membersFrom, memberAt_nil] using Walked.last m

theorem walked_members (bytes : List UInt8) : Walked (members bytes) := walked_membersFrom _ _

/-- The paths of headers have at most 256 bytes. -/
theorem length_path_le (hm : m ∈ members bytes) : m.path.length ≤ 256 := by
  have hfield : ∀ (header : List UInt8) (start stop : ℕ),
      (field (headerSlice header start stop)).length ≤ stop - start := fun header start stop => by
    rw [field]
    refine Nat.le_trans (List.takeWhile_sublist _).length_le ?_
    rw [headerSlice, List.length_drop, List.length_take]
    exact Nat.sub_le_sub_right (Nat.min_le_left _ _) _
  have hat : ∀ {bytes m}, memberAt bytes = some m → m.path.length ≤ 256 := fun {bytes m} h => by
    rw [memberAt] at h
    split at h
    · exact absurd h (by simp)
    split at h
    · exact absurd h (by simp)
    obtain rfl := Option.some.inj h
    have hname := hfield (bytes.take blockSize) 0 100
    have hprefix := hfield (bytes.take blockSize) 345 500
    simp only [Member.path]
    split
    · omega
    · rw [List.length_append, List.length_cons]
      omega
  have hfrom : ∀ n bytes, ∀ m ∈ membersFrom n bytes, m.path.length ≤ 256 := fun n => by
    induction n with
    | zero => exact fun _ _ h => absurd h (by simp [membersFrom])
    | succ n ih =>
      intro bytes m h
      rw [membersFrom] at h
      cases hmember : memberAt bytes with
      | none =>
        rw [hmember] at h
        exact absurd h (by simp)
      | some first =>
        rw [hmember, List.mem_cons] at h
        rcases h with rfl | h
        · exact hat hmember
        · cases hsize : first.size with
          | none =>
            rw [hsize] at h
            exact absurd h (by simp)
          | some size =>
            rw [hsize] at h
            exact ih _ _ h
  exact hfrom _ _ m hm

/-- `find` compares full paths. -/
theorem path_of_matches (h : m.matches wanted = true) : m.path = wanted := by
  rw [Member.matches] at h
  rw [Member.path]
  split
  · rename_i hprefix
    rw [if_pos hprefix] at h
    exact beq_iff_eq.mp h
  · rename_i hprefix
    rw [if_neg hprefix, beq_iff_eq] at h
    obtain ⟨suffix, hsuffix, hname⟩ := Option.bind_eq_some_iff.mp h
    rw [stripPrefix_eq_some.mp hsuffix, stripPrefix_eq_some.mp hname]
    rfl

theorem startsBelow_iff {parent : List UInt8} :
    startsBelow path parent = true ↔ ∃ rest, path = parent ++ slash :: rest := by
  rw [startsBelow, Option.any_eq_true]
  constructor
  · rintro ⟨r, hr, hhead⟩
    obtain rfl := stripPrefix_eq_some.mp hr
    cases r with
    | nil => exact absurd hhead (by simp)
    | cons b rest =>
      have hb : b = slash := by simpa using hhead
      exact ⟨rest, by rw [hb]⟩
  · rintro ⟨rest, rfl⟩
    exact ⟨slash :: rest, stripPrefix_eq_some.mpr rfl, by simp⟩

theorem path_of_findIn {content : List UInt8} (h : findIn wanted ms = some content) :
    ∃ m ∈ ms, m.path = wanted := by
  induction ms with
  | nil => exact absurd h (by simp [findIn])
  | cons m ms ih =>
    rw [findIn] at h
    split at h
    · exact absurd h (by simp)
    split at h
    · exact absurd h (by simp)
    split at h
    · exact absurd h (by simp)
    split at h
    · rename_i hmatches
      exact ⟨m, List.mem_cons_self, path_of_matches hmatches.1⟩
    · obtain ⟨m', hm', hpath⟩ := ih h
      exact ⟨m', List.mem_cons_of_mem m hm', hpath⟩

variable {rest : List UInt8}

/-- Whatever the walk of `find` reaches, that of `is_directory` reaches. -/
theorem isDirectoryIn_of_findIn {content : List UInt8} (h : Walked ms)
    (hfind : findIn (path ++ slash :: rest) ms = some content) : isDirectoryIn path ms = true := by
  induction ms with
  | nil => exact absurd hfind (by simp [findIn])
  | cons m ms ih =>
    rw [findIn] at hfind
    rw [isDirectoryIn]
    split at hfind
    · exact absurd hfind (by simp)
    split at hfind
    · exact absurd hfind (by simp)
    rename_i size hsize
    split at hfind
    · exact absurd hfind (by simp)
    split at hfind
    · rename_i hmatches
      refine if_pos (Or.inr ?_)
      rw [path_of_matches hmatches.1]
      exact startsBelow_iff.mpr ⟨rest, rfl⟩
    · split
      · rfl
      · cases h with
        | last => exact absurd hfind (by simp [findIn])
        | cons hsize' hroom h =>
          obtain rfl := Option.some.inj (hsize'.symm.trans hsize)
          simp only [if_neg (Nat.not_lt.mpr hroom)]
          exact ih h hfind

theorem isDirectoryIn_of_below (hdirectory : isDirectoryIn (path ++ slash :: rest) ms = true) :
    isDirectoryIn path ms = true := by
  induction ms with
  | nil => exact absurd hdirectory (by simp [isDirectoryIn])
  | cons m ms ih =>
    rw [isDirectoryIn] at hdirectory ⊢
    split at hdirectory
    · rename_i hm
      refine if_pos (Or.inr (startsBelow_iff.mpr ?_))
      rcases hm with ⟨heq, -⟩ | hbelow
      · exact ⟨rest, heq⟩
      · obtain ⟨more, heq⟩ := startsBelow_iff.mp hbelow
        exact ⟨rest ++ slash :: more, by rw [heq]; simp⟩
    · split
      · rfl
      · cases hsize : m.size with
        | none =>
          rw [hsize] at hdirectory
          exact absurd hdirectory (by simp)
        | some size =>
          simp only [hsize] at hdirectory ⊢
          split
          · rename_i hroom
            rw [if_pos hroom] at hdirectory
            exact absurd hdirectory (by simp)
          · rename_i hroom
            rw [if_neg hroom] at hdirectory
            exact ih hdirectory

theorem trimStart_of_clean (h : CleanPath path) : trimStart path = path := by
  cases path with
  | nil => rfl
  | cons b rest =>
    have hb : b ≠ slash := fun he => by
      rw [he] at h
      exact not_cleanPath_nil (cleanPath_append (a := []).mp h).1
    simp [trimStart, hb]

theorem trimStart_append (h : CleanPath path) :
    trimStart (path ++ slash :: rest) = path ++ slash :: rest := by
  cases path with
  | nil => exact absurd h not_cleanPath_nil
  | cons b tail =>
    have hb : b ≠ slash := fun he => by
      rw [he] at h
      exact not_cleanPath_nil (cleanPath_append (a := []).mp h).1
    simp [trimStart, hb]

theorem Archive.isDirectory_of_isFile (hpath : CleanPath path)
    (h : Archive.isFile bytes (path ++ slash :: rest) = true) :
    Archive.isDirectory bytes path = true := by
  rw [Archive.isFile, Archive.find, trimStart_append hpath, Option.isSome_iff_exists] at h
  obtain ⟨content, hfind⟩ := h
  rw [Archive.isDirectory, trimStart_of_clean hpath, Bool.or_eq_true]
  exact Or.inr (isDirectoryIn_of_findIn (walked_members bytes) hfind)

theorem Archive.isDirectory_of_below (hpath : CleanPath path)
    (h : Archive.isDirectory bytes (path ++ slash :: rest) = true) :
    Archive.isDirectory bytes path = true := by
  rw [Archive.isDirectory, trimStart_append hpath, Bool.or_eq_true] at h
  rw [Archive.isDirectory, trimStart_of_clean hpath, Bool.or_eq_true]
  refine Or.inr (isDirectoryIn_of_below (h.resolve_left ?_))
  simp

end Walk

end ImagineOS.Overlay
