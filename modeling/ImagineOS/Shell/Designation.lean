import ImagineOS.Dfs.Operations
import ImagineOS.Shell.Resolve

/-!
# The paths of the utilities

A utility puts the directory of `PWD` before a relative path, in a buffer of 256 bytes, and that is
all it does. The kernel looks up a path that has only clean components after its first slash, and
rejects any other one. The shell gives it normal forms. So a utility names the node that the shell
names where there was nothing to normalise, and names none otherwise
(`Legacy.resolvePath_agrees_iff`).
-/

namespace ImagineOS

open List Option

open Shell (CStr withSlash resolve absolute dcResolvePath)

/-! ### The kernel -/

/-- The kernel takes a path for a node: it is a string, and `canonical_path` admits it. -/
def Designates (path : List UInt8) (node : Dfs.Path) : Prop :=
  (fromUtf8 path).map Dfs.canonicalPath = some (.ok node)

variable {path : List UInt8}

/-- What an absolute path is for the kernel is what stands after the first slash. -/
theorem designates_iff (habsolute : path.head? = some slash)
    (node : Dfs.Path) : Designates path node ↔ validUtf8 path ∧ path = slash :: node.bytes := by
  obtain ⟨rest, rfl⟩ : ∃ rest, path = slash :: rest :=
    ⟨path.tail, eq_cons_of_mem_head? habsolute⟩
  have hstrip : stripPrefix (slash :: rest) [slash] = some rest :=
    stripPrefix_eq_some.mpr rfl
  unfold Designates fromUtf8
  split
  · rename_i hvalid
    have hbytes : (stripPrefix (slash :: rest) [slash]).getD (slash :: rest) = rest := by
      rw [hstrip, getD_some]
    simp only [map_some, Option.some.injEq, Dfs.canonicalPath, hbytes, hvalid, true_and,
      List.cons.injEq]
    constructor
    · intro h
      split at h
      · exact congrArg Dfs.Path.bytes (Except.ok.inj h)
      · split at h
        · rename_i hroot
          exact hroot.trans (congrArg Dfs.Path.bytes (Except.ok.inj h))
        · cases h
    · rintro rfl
      split
      · rfl
      · rename_i hno
        have hroot : node.bytes = [] :=
          node.clean.resolve_right fun hclean => hno ⟨node.length_le, hclean⟩
        rw [if_pos hroot]
        exact congrArg Except.ok (Dfs.Path.ext hroot.symm)
  · rename_i hvalid
    simp [hvalid]

theorem exists_designates_iff (habsolute : path.head? = some slash) :
    (∃ node, Designates path node) ↔
      validUtf8 path ∧ NormalForm path ∧ path.length ≤ Dfs.maxPath + 1 := by
  simp only [designates_iff habsolute, exists_and_left]
  refine and_congr_right fun hvalid => ⟨?_, ?_⟩
  · rintro ⟨node, rfl⟩
    have hlen := node.length_le
    refine ⟨?_, by rw [length_cons]; omega⟩
    rcases node.clean with hroot | hclean
    · exact Or.inl (by rw [hroot])
    · exact Or.inr ⟨_, rfl, hclean⟩
  · rintro ⟨hnormal, hlen⟩
    rcases hnormal with rfl | ⟨rest, rfl, hclean⟩
    · exact ⟨⟨[], rfl, Nat.zero_le _, Or.inl rfl⟩, rfl⟩
    · rw [length_cons] at hlen
      have hrest : validUtf8 rest := by
        have h := validUtf8_stripSlash hvalid
        rwa [stripPrefix_eq_some.mpr (rfl : slash :: rest = [slash] ++ rest), getD_some] at h
      exact ⟨⟨rest, hrest, by omega, Or.inr hclean⟩, rfl⟩

/-! ### Arguments and variables -/

namespace Args

/-- `c_string`: what comes before the terminator, up to 256 bytes. -/
def cString (s : CStr) : List UInt8 := s.1.take 256

/-- `environment_value`; null pointers are passed over. -/
def environmentValue (name : List UInt8) : List (Option CStr) → Option (List UInt8)
  | [] => none
  | none :: envp => environmentValue name envp
  | some s :: envp =>
    let entry := cString s
    if name <+: entry ∧ entry[name.length]? = some 61 then some (entry.drop (name.length + 1))
    else environmentValue name envp

/-- `resolve_path`, for a buffer of some capacity. -/
def resolvePath (cwd : Option (List UInt8)) (path : List UInt8) (capacity : ℕ) :
    Option (List UInt8) :=
  if path.head? = some slash then
    if path.length > capacity then none else some path
  else
    let cwd := (cwd.filter fun value => value ≠ []).getD [slash]
    let separator := if cwd ≠ [] ∧ cwd.getLast? ≠ some slash then [slash] else []
    let joined := cwd ++ separator ++ path
    if joined.length > capacity then none else some joined

/-- A variable is set to a value: the first entry with its name has it. -/
def Sets (envp : List (Option CStr)) (name value : List UInt8) : Prop :=
  ∃ before entry after, envp = before ++ some entry :: after ∧ entry.1 = name ++ 61 :: value ∧
    ∀ s, some s ∈ before → ¬ name ++ [61] <+: s.1

theorem named_iff {name entry : List UInt8} :
    name <+: entry ∧ entry[name.length]? = some 61 ↔ name ++ [61] <+: entry := by
  constructor
  · rintro ⟨⟨rest, rfl⟩, h⟩
    rw [List.getElem?_append_right (Nat.le_refl _), Nat.sub_self] at h
    cases rest with
    | nil => cases h
    | cons c rest =>
      obtain rfl := Option.some.inj h
      exact ⟨rest, by rw [append_assoc, singleton_append]⟩
  · rintro ⟨rest, rfl⟩
    exact ⟨⟨61 :: rest, by simp⟩, by simp⟩

theorem environmentValue_of_sets {envp : List (Option CStr)} {name value : List UInt8}
    (hname : name.length < 256) (h : Sets envp name value) :
    environmentValue name envp = some (value.take (255 - name.length)) := by
  obtain ⟨before, entry, after, rfl, hentry, hbefore⟩ := h
  induction before with
  | nil =>
    have htake : cString entry = name ++ 61 :: value.take (255 - name.length) := by
      rw [cString, hentry, take_append, take_of_length_le (Nat.le_of_lt hname),
        show 256 - name.length = (255 - name.length) + 1 by omega, take_succ_cons]
    have hnamed : name <+: cString entry ∧ (cString entry)[name.length]? = some 61 :=
      named_iff.mpr ⟨value.take (255 - name.length), by rw [htake]; simp⟩
    rw [nil_append, environmentValue, if_pos hnamed, htake]
    simp
  | cons s before ih =>
    have hrest := ih fun s' h' => hbefore s' (mem_cons_of_mem s h')
    cases s with
    | none => exact hrest
    | some s =>
      rw [cons_append, environmentValue, if_neg, hrest]
      intro hnamed
      exact hbefore s mem_cons_self
        ((named_iff.mp hnamed).trans (List.take_prefix 256 s.1))

end Args

/-! ### Utilities -/

namespace Legacy

def pwd : List UInt8 := [80, 87, 68]

/-- `legacy::resolve_path` -/
def resolvePath (envp : List (Option CStr)) (path : List UInt8) (capacity : ℕ) :
    Option (List UInt8) :=
  Args.resolvePath (Args.environmentValue pwd envp) path capacity

/-- The buffer of every utility. -/
def bufferSize : ℕ := 256

/-- A path behind the directory in which it stands. -/
def joined (cwd path : List UInt8) : List UInt8 :=
  if path.head? = some slash then path else withSlash cwd ++ path

/-- The utility, the shell and the libc mean one node with a path: the kernel takes what the utility
writes for the node that the shell's path names, and so does it what the libc writes. -/
def Agrees (envp : List (Option CStr)) (cwd path : CStr) (shell : List UInt8) : Prop :=
  ∃ utility node, resolvePath envp path.1 bufferSize = some utility ∧ Designates utility node ∧
    Designates shell node ∧ ∀ capacity libc,
      dcResolvePath (some cwd) path capacity = .ok libc → Designates libc node

theorem lexicalForm_joined (cwd path : List UInt8) :
    lexicalForm (joined cwd path) = lexicalForm (absolute cwd path) := by
  unfold joined absolute
  split
  · rfl
  · exact Shell.lexicalForm_withSlash cwd path

variable {cwd : List UInt8}

theorem head_withSlash (h : cwd.head? = some slash) (path : List UInt8) :
    (withSlash cwd ++ path).head? = some slash := by
  obtain ⟨rest, rfl⟩ : ∃ rest, cwd = slash :: rest := ⟨cwd.tail, eq_cons_of_mem_head? h⟩
  unfold withSlash
  split <;> rfl

theorem head_joined (h : cwd.head? = some slash) (path : List UInt8) :
    (joined cwd path).head? = some slash := by
  unfold joined
  split
  · assumption
  · exact head_withSlash h path

theorem resolvePath_eq (h : cwd.head? = some slash) (path : List UInt8)
    (capacity : ℕ) : Args.resolvePath (some cwd) path capacity =
      if (joined cwd path).length > capacity then none else some (joined cwd path) := by
  have hne : cwd ≠ [] := by
    rintro rfl
    cases h
  have hsome : ((some cwd).filter fun value => value ≠ []).getD [slash] = cwd := by
    rw [filter_some, if_pos (by simpa using hne), getD_some]
  have hjoin : cwd ++ (if cwd ≠ [] ∧ cwd.getLast? ≠ some slash then [slash] else []) =
      withSlash cwd := by
    unfold withSlash
    by_cases hlast : cwd.getLast? = some slash
    · rw [if_pos hlast, if_neg fun hno => hno.2 hlast, append_nil]
    · rw [if_neg hlast, if_pos ⟨hne, hlast⟩]
  unfold Args.resolvePath joined
  split
  · rfl
  · simp only [hsome, hjoin]

/-- What is read of `PWD`. -/
theorem environmentValue_pwd {envp : List (Option CStr)}
    (h : Args.Sets envp pwd cwd) : Args.environmentValue pwd envp = some (cwd.take 252) :=
  Args.environmentValue_of_sets (by decide) h

theorem cleanPath_of_normalForm (hpath : path ≠ [])
    (h : NormalForm (withSlash cwd ++ path)) : CleanPath path := by
  obtain ⟨start, hstart⟩ : ∃ start, withSlash cwd = start ++ [slash] := by
    unfold withSlash
    split
    · exact List.getLast?_eq_some_iff.mp ‹_›
    · exact ⟨cwd, rfl⟩
  rw [hstart, append_assoc, singleton_append] at h
  rcases h with hroot | ⟨rest, hrest, hclean⟩
  · have hlen := congrArg List.length hroot
    have hpos := length_pos_of_ne_nil hpath
    rw [length_append, length_cons, length_singleton] at hlen
    omega
  · cases start with
    | nil =>
      rw [nil_append] at hrest
      rwa [(List.cons.inj hrest).2]
    | cons c start =>
      rw [cons_append] at hrest
      rw [← (List.cons.inj hrest).2] at hclean
      exact (cleanPath_append.mp hclean).2

theorem withSlash_of_normalForm (h : NormalForm cwd) (hroot : cwd ≠ [slash]) :
    withSlash cwd = cwd ++ [slash] := by
  obtain ⟨rest, rfl, hclean⟩ := h.resolve_left hroot
  unfold withSlash
  rw [if_neg]
  intro hlast
  obtain ⟨start, hstart⟩ := List.getLast?_eq_some_iff.mp hlast
  cases start with
  | nil => exact hroot hstart
  | cons c start =>
    rw [cons_append] at hstart
    rw [(List.cons.inj hstart).2] at hclean
    exact not_cleanPath_nil (cleanPath_append.mp hclean).2

theorem normalForm_withSlash (hcwd : NormalForm cwd)
    (hpath : CleanPath path) : NormalForm (withSlash cwd ++ path) := by
  by_cases hroot : cwd = [slash]
  · rw [hroot]
    exact Or.inr ⟨path, rfl, hpath⟩
  · rw [withSlash_of_normalForm hcwd hroot, append_assoc, singleton_append]
    obtain ⟨rest, rfl, hclean⟩ := hcwd.resolve_left hroot
    exact Or.inr ⟨rest ++ slash :: path, rfl, cleanPath_append.mpr ⟨hclean, hpath⟩⟩

theorem ne_of_cut (hcwd : NormalForm cwd) (hpath : path ≠ [])
    (hcut : 252 < cwd.length) (hnormal : NormalForm (withSlash (cwd.take 252) ++ path)) :
    withSlash (cwd.take 252) ++ path ≠ lexicalForm (withSlash cwd ++ path) := by
  have hclean := cleanPath_of_normalForm hpath hnormal
  rw [lexicalForm_of_normalForm (normalForm_withSlash hcwd hclean)]
  have hroot : cwd ≠ [slash] := by
    rintro rfl
    simp at hcut
  have hshort : (withSlash (cwd.take 252)).length ≤ 253 := by
    have htake := length_take_le 252 cwd
    unfold withSlash
    split
    · omega
    · rw [length_append, length_singleton]
      omega
  intro heq
  have hlen := congrArg List.length heq
  rw [length_append, length_append, withSlash_of_normalForm hcwd hroot,
    length_append, length_singleton] at hlen
  omega

/-- **Headline.** In a normalised directory that `PWD` names, and for a path that the shell
resolves, the utility means the node of the shell and the libc if and only if the path behind the
directory is a string and in normal form as it is, and `PWD` is read whole where it is needed. -/
theorem resolvePath_agrees_iff {envp : List (Option CStr)} {cwd path : CStr} {shell : List UInt8}
    (hpwd : Args.Sets envp pwd cwd.1) (hcwd : NormalForm cwd.1) (hpath : path.1 ≠ [])
    (hshell : resolve cwd.1 path.1 = some shell) :
    Agrees envp cwd path shell ↔
      validUtf8 (joined cwd.1 path.1) ∧ NormalForm (joined cwd.1 path.1) ∧
        (path.1.head? = some slash ∨ cwd.1.length ≤ 252) := by
  obtain ⟨hlexical, hlength, -⟩ := Shell.resolve_spec hshell
  rw [← lexicalForm_joined] at hlexical
  have hhead : (cwd.1.take 252).head? = some slash := by
    rw [List.head?_take, if_neg (by decide)]
    exact hcwd.head
  unfold Agrees resolvePath
  rw [environmentValue_pwd hpwd, resolvePath_eq hhead]
  constructor
  · rintro ⟨utility, node, hutility, hnode, hshellNode, -⟩
    obtain ⟨-, hwritten⟩ := Option.ite_none_left_eq_some.mp hutility
    obtain rfl := Option.some.inj hwritten
    have habsolute := head_joined hhead path.1
    obtain ⟨hvalid, hnormal, -⟩ := (exists_designates_iff habsolute).mp ⟨node, hnode⟩
    have hsame : joined (cwd.1.take 252) path.1 = shell := by
      have hshellHead : shell.head? = some slash := by
        rw [hlexical]
        exact (normalForm_lexicalForm _).head
      exact ((designates_iff habsolute node).mp hnode).2.trans
        ((designates_iff hshellHead node).mp hshellNode).2.symm
    by_cases hrelative : path.1.head? = some slash
    · have hjoined : ∀ cwd, joined cwd path.1 = path.1 := fun cwd => if_pos hrelative
      rw [hjoined] at hvalid hnormal ⊢
      exact ⟨hvalid, hnormal, Or.inl hrelative⟩
    · by_cases hcut : cwd.1.length ≤ 252
      · rw [take_of_length_le hcut] at hvalid hnormal
        exact ⟨hvalid, hnormal, Or.inr hcut⟩
      · have hjoined : ∀ cwd, joined cwd path.1 = withSlash cwd ++ path.1 :=
          fun cwd => if_neg hrelative
        rw [hjoined] at hnormal hsame
        rw [hjoined] at hlexical
        exact absurd (hsame.trans hlexical)
          (ne_of_cut hcwd hpath (Nat.lt_of_not_le hcut) hnormal)
  · rintro ⟨hvalid, hnormal, hwhole⟩
    have hjoined : joined (cwd.1.take 252) path.1 = joined cwd.1 path.1 := by
      rcases hwhole with habsolute | hfits
      · rw [joined, joined, if_pos habsolute, if_pos habsolute]
      · rw [take_of_length_le hfits]
    rw [lexicalForm_of_normalForm hnormal] at hlexical
    have hroom : shell.length ≤ 256 := hlength
    obtain ⟨node, hnode⟩ := (exists_designates_iff (head_joined hcwd.head path.1)).mpr
      ⟨hvalid, hnormal, by rw [← hlexical]; exact hroom⟩
    refine ⟨joined cwd.1 path.1, node, ?_, hnode, hlexical ▸ hnode, ?_⟩
    · rw [hjoined, if_neg]
      rw [← hlexical]
      exact Nat.not_lt.mpr hroom
    · intro capacity libc hlibc
      rw [(Shell.dcResolvePath_spec hcwd.head hlibc).2.1, ← lexicalForm_joined,
        lexicalForm_of_normalForm hnormal]
      exact hnode

/-- `/h` -/
private def homeDirectory : CStr := ⟨[47, 104], by decide⟩

/-- `PWD=/h` -/
private def homeEntry : CStr := ⟨[80, 87, 68, 61, 47, 104], by decide⟩

private theorem sets_home : Args.Sets [some homeEntry] pwd homeDirectory.1 :=
  ⟨[], homeEntry, [], rfl, rfl, fun _ h => absurd h not_mem_nil⟩

private theorem normalForm_home : NormalForm homeDirectory.1 :=
  Or.inr ⟨[104], rfl, by decide⟩

/-- `/h/a` -/
theorem resolvePath_agrees_home :
    Agrees [some homeEntry] homeDirectory ⟨[97], by decide⟩ [47, 104, 47, 97] := by
  have hshell : resolve homeDirectory.1 [97] = some [47, 104, 47, 97] := by
    rw [resolve, Shell.normalize, scan_eq_foldlM Shell.normalizeComponent_climbs.skip]
    decide +kernel
  exact (resolvePath_agrees_iff sets_home normalForm_home (by decide) hshell).mpr
    ⟨by decide +kernel, Or.inr ⟨[104, 47, 97], rfl, by decide⟩, Or.inr (by decide)⟩

/-- `../a` in `/h`: it is `/a` for the shell, and the utility gives `/h/../a` to the kernel. -/
theorem resolvePath_parent : ¬ ∀ (envp : List (Option CStr)) (cwd path : CStr) (shell : List UInt8),
    Args.Sets envp pwd cwd.1 → NormalForm cwd.1 → path.1 ≠ [] →
      resolve cwd.1 path.1 = some shell → Agrees envp cwd path shell := by
  intro hall
  have hshell : resolve homeDirectory.1 [46, 46, 47, 97] = some [47, 97] := by
    rw [resolve, Shell.normalize, scan_eq_foldlM Shell.normalizeComponent_climbs.skip]
    decide +kernel
  obtain ⟨utility, node, hutility, hnode, -⟩ := hall [some homeEntry] homeDirectory
    ⟨[46, 46, 47, 97], by decide⟩ [47, 97] sets_home normalForm_home (by decide) hshell
  have hwritten : some utility = some [47, 104, 47, 46, 46, 47, 97] :=
    hutility.symm.trans (by decide)
  obtain rfl := Option.some.inj hwritten
  obtain ⟨-, hnormal, -⟩ := (exists_designates_iff rfl).mp ⟨node, hnode⟩
  exact absurd (lexicalForm_of_normalForm hnormal) (by decide)

end Legacy

end ImagineOS
