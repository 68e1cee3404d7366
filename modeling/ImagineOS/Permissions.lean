import ImagineOS.Dfs.Entries
import ImagineOS.Overlay.Lookups

/-!
# Permissions

The system calls and the process loader check the access to a path each on their own. Both walk the
directories of the path and look at the permission bits of each, but `access_allowed` ends its walk
at an empty component, and `has_access` skips it. They give the same answer, since a path with an
empty component has no metadata. Neither looks at the root directory.
-/

namespace ImagineOS.Permissions

open List Option

open Overlay (Metadata canonicalPath trimStart trimEnd isChildPath isChildPath_iff)

/-- `permissions::allows` -/
def allows (mode : UInt16) (ownerUid ownerGid uid gid : UInt32) (requested : UInt16) : Bool :=
  if uid = 0 then true
  else
    let shift : UInt16 := if uid = ownerUid then 6 else if gid = ownerGid then 3 else 0
    ((mode >>> shift) &&& requested) == requested

def maxMutablePath : ℕ := 256

section Checks

variable (tree : List UInt8 → Option Metadata) (uid gid : UInt32)

/-- `metadata`: what a tree has at the canonical form of a path. -/
def lookup (path : List UInt8) : Option Metadata := (canonicalPath path).bind tree

/-- The permission bits of what is at a path. -/
def allowsAt (path : List UInt8) (requested : UInt16) : Bool :=
  (lookup tree path).any fun metadata =>
    allows metadata.mode metadata.uid metadata.gid uid gid requested

/-- The check of one directory. -/
def searchable (directory : List UInt8) : Bool :=
  (lookup tree directory).any fun metadata =>
    metadata.isDirectory && allows metadata.mode metadata.uid metadata.gid uid gid 1

/-- `from_utf8(…).unwrap_or("")` -/
def utf8OrEmpty (bytes : List UInt8) : List UInt8 := if validUtf8 bytes then bytes else []

/-- The loop over the components, with the directory so far. There is no answer if a slash has no
place in the buffer of the source. -/
def walk : List (List UInt8) → List UInt8 → Option Bool
  | [], _ => some true
  | component :: rest, directory =>
    if directory ≠ [] ∧ maxMutablePath ≤ directory.length then none
    else
      let directory := if directory = [] then directory else directory ++ [slash]
      if maxMutablePath < directory.length + component.length then some false
      else
        let directory := directory ++ component
        if searchable tree uid gid (utf8OrEmpty directory) then walk rest directory
        else some false

/-- `parent.trim_matches('/').split('/')` -/
def parentComponents (path : List UInt8) : List (List UInt8) :=
  (trimEnd (trimStart (parentPath path))).splitOn slash

def ancestorsSearchable (path : List UInt8) : Option Bool :=
  walk tree uid gid ((parentComponents path).takeWhile (· ≠ [])) []

def accessAllowed (path : List UInt8) (requested : UInt16) : Option Bool :=
  if uid = 0 then some true
  else (ancestorsSearchable tree uid gid path).map fun searched =>
    searched && allowsAt tree uid gid path requested

def hasAccess (path : List UInt8) (requested : UInt16) : Option Bool :=
  if uid = 0 then some true
  else (walk tree uid gid ((parentComponents path).filter (· ≠ [])) []).map fun searched =>
    searched && allowsAt tree uid gid path requested

end Checks

/-! ### Bits -/

/-- The classes of callers. -/
inductive CallerClass
  | owner
  | group
  | other

/-- Where the bits of a class are. -/
def CallerClass.shift : CallerClass → ℕ
  | owner => 6
  | group => 3
  | other => 0

/-- The class of a caller. -/
def callerClass (metadata : Metadata) (uid gid : UInt32) : CallerClass :=
  if uid = metadata.uid then .owner else if gid = metadata.gid then .group else .other

/-- The class of the caller has all bits that are requested. -/
def Permits (metadata : Metadata) (uid gid : UInt32) (requested : UInt16) : Prop :=
  ∀ i, requested.toNat.testBit i →
    metadata.mode.toNat.testBit ((callerClass metadata uid gid).shift + i)

section Bits

variable {metadata : Metadata} {uid gid : UInt32} {requested : UInt16}

theorem and_eq_iff (a b : UInt16) :
    a &&& b = b ↔ ∀ i, b.toNat.testBit i → a.toNat.testBit i := by
  rw [← UInt16.toNat_inj, UInt16.toNat_and]
  constructor
  · intro h i hi
    have hbit := congrArg (Nat.testBit · i) h
    simpa [Nat.testBit_and, hi] using hbit
  · intro h
    refine Nat.eq_of_testBit_eq fun i => ?_
    rw [Nat.testBit_and]
    cases hi : b.toNat.testBit i with
    | false => simp
    | true => simp [h i hi]

theorem allows_iff (huid : uid ≠ 0) :
    allows metadata.mode metadata.uid metadata.gid uid gid requested = true ↔
      Permits metadata uid gid requested := by
  have hshift : ∀ shift : UInt16, shift.toNat < 16 →
      ((((metadata.mode >>> shift) &&& requested) == requested) = true ↔
        ∀ i, requested.toNat.testBit i → metadata.mode.toNat.testBit (shift.toNat + i)) := by
    intro shift hlt
    rw [beq_iff_eq, and_eq_iff]
    simp only [UInt16.toNat_shiftRight, Nat.mod_eq_of_lt hlt, Nat.testBit_shiftRight]
  rw [allows, if_neg huid, Permits, callerClass]
  dsimp only
  split
  · exact hshift 6 (by decide)
  · split
    · exact hshift 3 (by decide)
    · exact hshift 0 (by decide)

theorem searchable_iff {tree : List UInt8 → Option Metadata} {directory : List UInt8}
    (huid : uid ≠ 0) : searchable tree uid gid directory = true ↔
      ∃ metadata, lookup tree directory = some metadata ∧ metadata.isDirectory = true ∧
        Permits metadata uid gid 1 := by
  simp only [searchable, Option.any_eq_true, Bool.and_eq_true, allows_iff huid]

theorem allowsAt_iff {tree : List UInt8 → Option Metadata} {path : List UInt8} (huid : uid ≠ 0) :
    allowsAt tree uid gid path requested = true ↔
      ∃ metadata, lookup tree path = some metadata ∧ Permits metadata uid gid requested := by
  simp only [allowsAt, Option.any_eq_true, allows_iff huid]

end Bits

/-! ### Components -/

section Components

variable {path p q a b : List UInt8}

def extend (directory component : List UInt8) : List UInt8 :=
  (if directory = [] then directory else directory ++ [slash]) ++ component

theorem foldl_extend (hq : CleanPath q) : (q.splitOn slash).foldl extend [] = q := by
  induction hn : q.length using Nat.strong_induction_on generalizing q with
  | _ n ih =>
    rcases slash_cases q with hslash | ⟨a, b, rfl, hb⟩
    · rw [splitOn_eq_singleton hslash]
      simp [extend]
    · obtain ⟨ha, -⟩ := cleanPath_append.mp hq
      have hlength : a.length < n := by
        rw [← hn]
        simp
      rw [splitOn_append_cons_self, splitOn_eq_singleton hb, foldl_append,
        ih a.length hlength ha rfl]
      simp [extend, ha.ne_nil]

theorem trimEnd_of_clean (h : CleanPath p) : trimEnd p = p := by
  rw [trimEnd, reverse_eq_iff]
  cases hr : p.reverse with
  | nil => rfl
  | cons x rest =>
    have hp : p = rest.reverse ++ [x] := by
      rw [← reverse_reverse p, hr, reverse_cons]
    have hx : x ≠ slash := by
      rintro rfl
      rw [hp] at h
      exact not_cleanPath_nil (cleanPath_append.mp h).2
    rw [dropWhile_cons_of_neg (by simpa using hx)]

theorem eq_of_canonicalPath (h : canonicalPath path = some p) :
    path = p ∨ path = slash :: p := by
  rw [canonicalPath] at h
  split at h
  · exact Or.inl (Option.some.inj h)
  · dsimp only at h
    have hp : (stripPrefix path [slash]).getD path = p := by
      split at h
      · exact Option.some.inj h
      · split at h
        · exact Option.some.inj h
        · exact absurd h (by simp)
    cases hstrip : stripPrefix path [slash] with
    | none =>
      rw [hstrip] at hp
      exact Or.inl hp
    | some r =>
      rw [hstrip] at hp
      refine Or.inr ?_
      rw [stripPrefix_eq_some.mp hstrip, ← hp]
      rfl

theorem parentComponents_of_canonicalPath (h : canonicalPath path = some p) :
    parentComponents path = (parentPath p).splitOn slash := by
  have htrim : trimEnd (trimStart (parentPath path)) = parentPath p := by
    rcases Overlay.canonical_of_canonicalPath h with rfl | hp
    · rcases eq_of_canonicalPath h with rfl | rfl
      · rfl
      · rfl
    · rcases slash_cases p with hslash | ⟨a, b, rfl, hb⟩
      · rw [parentPath_of_not_mem hslash]
        rcases eq_of_canonicalPath h with rfl | rfl
        · rw [parentPath_of_not_mem hslash]
          rfl
        · rw [← nil_append (slash :: p), parentPath_append hslash]
          rfl
      · obtain ⟨ha, -⟩ := cleanPath_append.mp hp
        rw [parentPath_append hb]
        rcases eq_of_canonicalPath h with rfl | rfl
        · rw [parentPath_append hb, Overlay.trimStart_of_clean ha, trimEnd_of_clean ha]
        · rw [← cons_append, parentPath_append hb, trimStart, dropWhile_cons_of_pos (by simp)]
          exact (congrArg trimEnd (Overlay.trimStart_of_clean ha)).trans (trimEnd_of_clean ha)
  rw [parentComponents, htrim]

theorem takeWhile_eq_filter (h : canonicalPath path = some p) :
    (parentComponents path).takeWhile (· ≠ []) = (parentComponents path).filter (· ≠ []) := by
  rw [parentComponents_of_canonicalPath h]
  have hparent : parentPath p = [] ∨ CleanPath (parentPath p) := by
    rcases Overlay.canonical_of_canonicalPath h with rfl | hp
    · exact Or.inl rfl
    · exact hp.parentPath
  rcases hparent with hnil | hclean
  · rw [hnil]
    rfl
  · have hne : ∀ c ∈ (parentPath p).splitOn slash, decide (c ≠ []) = true :=
      fun c hc => decide_eq_true (hclean c hc).1
    rw [takeWhile_eq_self_iff.mpr hne, filter_eq_self.mpr hne]

end Components

/-! ### Walks -/

section Walks

variable {tree : List UInt8 → Option Metadata} {uid gid : UInt32} {requested : UInt16}
  {components first rest : List (List UInt8)} {directory path p q : List UInt8} {b : Bool}

theorem walk_cons (component : List UInt8) : walk tree uid gid (component :: rest) directory =
    if directory ≠ [] ∧ maxMutablePath ≤ directory.length then none
    else if maxMutablePath < (extend directory component).length then some false
    else if searchable tree uid gid (utf8OrEmpty (extend directory component)) then
      walk tree uid gid rest (extend directory component)
    else some false := by
  rw [walk, extend, length_append]

theorem walk_of_append (h : walk tree uid gid (first ++ rest) directory = some b) :
    ∃ b', walk tree uid gid first directory = some b' := by
  induction first generalizing directory with
  | nil => exact ⟨true, rfl⟩
  | cons component first ih =>
    rw [cons_append, walk_cons] at h
    rw [walk_cons]
    split_ifs at h ⊢
    · exact ⟨_, rfl⟩
    · exact ih h
    · exact ⟨_, rfl⟩

theorem searchable_of_walk (h : walk tree uid gid (first ++ rest) directory = some true)
    (hfirst : first ≠ []) (hvalid : validUtf8 (first.foldl extend directory) = true) :
    searchable tree uid gid (first.foldl extend directory) = true := by
  induction first generalizing directory with
  | nil => exact absurd rfl hfirst
  | cons component first ih =>
    rw [cons_append, walk_cons] at h
    split_ifs at h with _ _ hsearchable
    · exact absurd h (by simp)
    · cases first with
      | nil =>
        rw [foldl_cons, foldl_nil] at hvalid ⊢
        rwa [utf8OrEmpty, if_pos hvalid] at hsearchable
      | cons next first => exact ih h (by simp) hvalid
    · exact absurd h (by simp)

/-- The room that components take, each with a slash. -/
def room (components : List (List UInt8)) : ℕ := (components.map fun c => c.length + 1).sum

theorem length_extend_le (directory component : List UInt8) :
    (extend directory component).length ≤ directory.length + 1 + component.length := by
  rw [extend]
  split
  · rename_i hnil
    simp [hnil]
  · simp only [length_append, length_singleton]
    omega

theorem walk_ends (h : directory.length + room components ≤ maxMutablePath) :
    ∃ b, walk tree uid gid components directory = some b := by
  induction components generalizing directory with
  | nil => exact ⟨true, rfl⟩
  | cons component rest ih =>
    have hroom : room (component :: rest) = component.length + 1 + room rest := by simp [room]
    rw [hroom] at h
    have hlength := length_extend_le directory component
    have hslash : ¬ (directory ≠ [] ∧ maxMutablePath ≤ directory.length) := by
      rintro ⟨-, hfull⟩
      omega
    rw [walk_cons, if_neg hslash]
    split_ifs
    · exact ⟨_, rfl⟩
    · exact ih (by omega)
    · exact ⟨_, rfl⟩

theorem room_append (a b : List (List UInt8)) : room (a ++ b) = room a + room b := by
  simp [room]

theorem room_splitOn (p : List UInt8) : room (p.splitOn slash) = p.length + 1 := by
  induction hn : p.length using Nat.strong_induction_on generalizing p with
  | _ n ih =>
    rcases slash_cases p with hslash | ⟨a, b, rfl, hb⟩
    · rw [splitOn_eq_singleton hslash]
      simp [room, hn]
    · rw [length_append, length_cons] at hn
      rw [splitOn_append_cons_self, splitOn_eq_singleton hb, room_append,
        ih a.length (by omega) a rfl]
      simp only [room, map_cons, map_nil, sum_cons, sum_nil]
      omega

theorem room_filter_le (keep : List UInt8 → Bool) (components : List (List UInt8)) :
    room (components.filter keep) ≤ room components := by
  induction components with
  | nil => exact le_rfl
  | cons c components ih =>
    have hcons : ∀ l, room (c :: l) = c.length + 1 + room l := fun l => by simp [room]
    rw [filter_cons, hcons]
    split
    · rw [hcons]
      omega
    · omega

theorem length_trim_le (p : List UInt8) : (trimEnd (trimStart p)).length ≤ p.length := by
  rw [trimEnd, trimStart, length_reverse]
  have hinner := (dropWhile_sublist (fun b : UInt8 => b == slash) (l := p)).length_le
  have houter := (dropWhile_sublist (fun b : UInt8 => b == slash)
    (l := (p.dropWhile fun b : UInt8 => b == slash).reverse)).length_le
  rw [length_reverse] at houter
  exact houter.trans hinner

theorem room_parentComponents (hne : path ≠ []) : room (parentComponents path) ≤ path.length := by
  rw [parentComponents, room_splitOn]
  exact Nat.succ_le_of_lt ((length_trim_le _).trans_lt (length_parentPath_lt hne))

/-! ### The two checks -/

theorem allowsAt_of_none (h : canonicalPath path = none) :
    allowsAt tree uid gid path requested = false := by
  rw [allowsAt, lookup, h]
  rfl

/-- **Where `has_access` has an answer, `access_allowed` has the same.** -/
theorem accessAllowed_of_hasAccess (h : hasAccess tree uid gid path requested = some b) :
    accessAllowed tree uid gid path requested = some b := by
  rw [hasAccess] at h
  rw [accessAllowed]
  split_ifs at h ⊢ with huid
  · exact h
  rw [map_eq_some_iff] at h
  obtain ⟨searched, hwalk, rfl⟩ := h
  rw [ancestorsSearchable]
  cases hpath : canonicalPath path with
  | some p => rw [takeWhile_eq_filter hpath, hwalk, map_some]
  | none =>
    -- The shorter walk ends too, and there is no metadata.
    have hsplit : (parentComponents path).filter (· ≠ []) =
        (parentComponents path).takeWhile (· ≠ []) ++
          ((parentComponents path).dropWhile (· ≠ [])).filter (· ≠ []) := by
      have hself : ((parentComponents path).takeWhile (· ≠ [])).filter (· ≠ []) =
          (parentComponents path).takeWhile (· ≠ []) :=
        filter_eq_self.mpr fun c hc =>
          all_eq_true.mp (all_takeWhile (l := parentComponents path)) c hc
      conv_lhs => rw [← takeWhile_append_dropWhile (p := fun c : List UInt8 => decide (c ≠ []))
        (l := parentComponents path)]
      rw [filter_append, hself]
    rw [hsplit] at hwalk
    obtain ⟨b', hshorter⟩ := walk_of_append hwalk
    rw [hshorter, allowsAt_of_none hpath, map_some, Bool.and_false, Bool.and_false]

/-- `has_access` has an answer for the paths that its callers have room for. -/
theorem hasAccess_ends (h : path.length ≤ maxMutablePath) :
    ∃ b, hasAccess tree uid gid path requested = some b := by
  rw [hasAccess]
  split
  · exact ⟨true, rfl⟩
  have hroom : room ((parentComponents path).filter (· ≠ [])) ≤ maxMutablePath := by
    by_cases hne : path = []
    · subst hne
      decide
    · exact (room_filter_le _ _).trans ((room_parentComponents hne).trans h)
  obtain ⟨b, hb⟩ : ∃ b, walk tree uid gid ((parentComponents path).filter (· ≠ [])) [] = some b :=
    walk_ends (by simpa using hroom)
  rw [hb]
  exact ⟨_, rfl⟩

/-- What is granted to a caller that is not `root`. -/
structure Granted (tree : List UInt8 → Option Metadata) (uid gid : UInt32) (requested : UInt16)
    (p : List UInt8) : Prop where
  /-- The directories above can be searched. -/
  ancestors : ∀ q, q ≠ [] → isChildPath p q = true → ∃ metadata, tree q = some metadata ∧
    metadata.isDirectory = true ∧ Permits metadata uid gid 1
  /-- All requested bits are there. -/
  object : ∃ metadata, tree p = some metadata ∧ Permits metadata uid gid requested

theorem lookup_of_clean (hq : CleanPath q) : lookup tree q = tree q := by
  rw [lookup, Overlay.canonicalPath_of_canonical (Or.inr hq)]
  rfl

theorem granted_of_accessAllowed (huid : uid ≠ 0) (hvalid : validUtf8 path = true)
    (h : accessAllowed tree uid gid path requested = some true) :
    ∃ p, canonicalPath path = some p ∧ Granted tree uid gid requested p := by
  rw [accessAllowed, if_neg huid, map_eq_some_iff] at h
  obtain ⟨searched, hwalk, hboth⟩ := h
  obtain ⟨rfl, hobject⟩ := Bool.and_eq_true_iff.mp hboth
  obtain ⟨metadata, hlookup, hpermits⟩ := (allowsAt_iff huid).mp hobject
  rw [lookup, bind_eq_some_iff] at hlookup
  obtain ⟨p, hpath, htree⟩ := hlookup
  refine ⟨p, hpath, fun q hq hchild => ?_, metadata, htree, hpermits⟩
  obtain ⟨r, rfl⟩ := (isChildPath_iff hq).mp hchild
  have hclean : CleanPath (q ++ slash :: r) :=
    (Overlay.canonical_of_canonicalPath hpath).resolve_left (by simp)
  obtain ⟨hcleanq, hcleanr⟩ := cleanPath_append.mp hclean
  -- The components of `q` are the first ones of the walk.
  obtain ⟨rest, hcomponents⟩ : ∃ rest, (parentPath (q ++ slash :: r)).splitOn slash =
      q.splitOn slash ++ rest := by
    rcases slash_cases r with hslash | ⟨a, b, rfl, hb⟩
    · exact ⟨[], by rw [parentPath_append hslash, append_nil]⟩
    · refine ⟨a.splitOn slash, ?_⟩
      rw [← cons_append, ← append_assoc, parentPath_append hb, splitOn_append_cons_self]
  rw [ancestorsSearchable, takeWhile_eq_filter hpath, parentComponents_of_canonicalPath hpath,
    hcomponents, filter_append, filter_eq_self.mpr fun c hc =>
      decide_eq_true (hcleanq c hc).1] at hwalk
  have hvalidq : validUtf8 q = true := by
    rcases eq_of_canonicalPath hpath with rfl | rfl
    · rw [validUtf8_append_cons (by decide)] at hvalid
      exact (Bool.and_eq_true_iff.mp hvalid).1
    · rw [← cons_append, validUtf8_append_cons (by decide), ← nil_append (slash :: q),
        validUtf8_append_cons (by decide)] at hvalid
      exact (Bool.and_eq_true_iff.mp (Bool.and_eq_true_iff.mp hvalid).1).2
  have hsearchable := searchable_of_walk hwalk (by simp) (by rwa [foldl_extend hcleanq])
  rw [foldl_extend hcleanq, searchable_iff huid, lookup_of_clean hcleanq] at hsearchable
  exact hsearchable

end Walks

/-- **The two checks agree, and what they grant is permitted.** -/
theorem access_agrees_and_is_sound (tree : List UInt8 → Option Metadata) (uid gid : UInt32)
    (requested : UInt16) (path : Str) :
    (∀ b, hasAccess tree uid gid path.val requested = some b →
      accessAllowed tree uid gid path.val requested = some b) ∧
    (path.val.length ≤ maxMutablePath → ∃ b, hasAccess tree uid gid path.val requested = some b) ∧
    (uid ≠ 0 → accessAllowed tree uid gid path.val requested = some true →
      ∃ p, canonicalPath path.val = some p ∧ Granted tree uid gid requested p) :=
  ⟨fun _ h => accessAllowed_of_hasAccess h, hasAccess_ends,
    fun huid h => granted_of_accessAllowed huid path.property h⟩

/-! ### The file systems -/

theorem metadataOverlay_eq_lookup (fs : Overlay.RamFs) (path : List UInt8) :
    Overlay.metadataOverlay fs path = lookup (Overlay.metadataOverlay fs) path := by
  rw [lookup]
  cases hpath : canonicalPath path with
  | none =>
    rw [Overlay.metadataOverlay, hpath]
    rfl
  | some p => exact Overlay.metadataOverlay_of_canonicalPath hpath

/-- What `stat` has, as a tree. -/
def statTree (v : Dfs.Vol) (p : List UInt8) : Option Metadata :=
  if h : validUtf8 p then (v.stat ⟨p, h⟩).toOption else none

/-- The file system on the disk does so, too. -/
theorem stat_eq_lookup (v : Dfs.Vol) (path : Str) :
    (v.stat path).toOption = lookup (statTree v) path.val := by
  have hstrip := validUtf8_stripSlash path.property
  have hsame : ∀ p (hp : validUtf8 p), (stripPrefix path.val [slash]).getD path.val = p →
      stripPrefix p [slash] = none → v.stat path = v.stat ⟨p, hp⟩ := by
    intro p hp heq hnone
    have hcanonical : Dfs.canonicalPath path = Dfs.canonicalPath ⟨p, hp⟩ := by
      simp only [Dfs.canonicalPath, heq, hnone, getD_none]
    rw [Dfs.Vol.stat, Dfs.Vol.stat, hcanonical]
  rw [lookup]
  cases hpath : canonicalPath path.val with
  | none =>
    have hnone : ∃ e, Dfs.canonicalPath path = .error e := by
      rw [canonicalPath] at hpath
      split_ifs at hpath with hnil
      dsimp only at hpath
      split_ifs at hpath with hne hclean
      refine ⟨.invalidPath, ?_⟩
      rw [Dfs.canonicalPath, dif_neg fun h => hclean h.2, if_neg hne]
    obtain ⟨e, he⟩ := hnone
    rw [Dfs.Vol.stat, he]
    rfl
  | some p =>
    have hp := Overlay.canonical_of_canonicalPath hpath
    have hnone : stripPrefix p [slash] = none := by
      rcases hp with rfl | hp
      · rfl
      · exact hp.stripPrefix_slash
    have heq : (stripPrefix path.val [slash]).getD path.val = p := by
      rcases eq_of_canonicalPath hpath with hself | hslash
      · rw [hself, hnone, getD_none]
      · have hcons : slash :: p = [slash] ++ p := rfl
        rw [hslash, stripPrefix_eq_some.mpr hcons, getD_some]
    have hvalid : validUtf8 p = true := heq ▸ hstrip
    rw [hsame p hvalid heq hnone, bind_some, statTree, dif_pos hvalid]

/-! ### Samples -/

/-- A directory with a file for its group. -/
def sharedTree (p : List UInt8) : Option Metadata :=
  if p = [97] then some ⟨0, 0o755, 0, 0, true⟩
  else if p = [97, 47, 102] then some ⟨1, 0o640, 0, 1000, false⟩
  else none

theorem access_agrees_and_is_sound_sample :
    ∃ p, canonicalPath [47, 97, 47, 102] = some p ∧ Granted sharedTree 1000 1000 4 p :=
  (access_agrees_and_is_sound sharedTree 1000 1000 4 ⟨[47, 97, 47, 102], by decide⟩).2.2
    (by decide) (by decide +kernel)

/-- A file that all may read, in a root directory that only `root` may search. -/
def privateRoot (p : List UInt8) : Option Metadata :=
  if p = [] then some ⟨0, 0o700, 0, 0, true⟩
  else if p = [102] then some ⟨1, 0o644, 0, 0, false⟩
  else none

/-- Directories everywhere. -/
def openTree (_ : List UInt8) : Option Metadata := some ⟨0, 0o777, 0, 0, true⟩

/-- `/a//b…/c/d`, with as many letters as fit the buffer. -/
def longPath : List UInt8 := [47, 97, 47, 47] ++ List.replicate 254 98 ++ [47, 99, 47, 100]

/-- `/f` may be read without the right to search `/`, and an empty component in a path that is too
long makes a difference. -/
theorem root_is_not_searched : accessAllowed privateRoot 1000 1000 [47, 102] 4 = some true ∧
    hasAccess privateRoot 1000 1000 [47, 102] 4 = some true ∧
    ¬ Permits ⟨0, 0o700, 0, 0, true⟩ 1000 1000 1 ∧
    accessAllowed openTree 1000 1000 longPath 1 = some false ∧
    hasAccess openTree 1000 1000 longPath 1 = none := by
  refine ⟨by decide +kernel, by decide +kernel, fun h => ?_, by decide +kernel, by decide +kernel⟩
  exact absurd (h 0 (by decide)) (by decide)

end ImagineOS.Permissions
