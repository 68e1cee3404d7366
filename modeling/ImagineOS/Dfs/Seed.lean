import ImagineOS.Dfs.Entries

/-!
# DFS: seeding a volume from an archive

`seed_from_ustar` walks over the headers of a USTAR archive and makes a directory or writes a file
for each of them. Whatever it leaves when it succeeds is a function of the headers and of what was
there before: each header changes the entry at its own path (`Header.step`), so what a path leads to
depends only on the headers that name it.
-/

namespace ImagineOS.Dfs

open BlockProgram Fallible List Option

open Overlay (headerSlice trimEnd paddedSize)

/-! ### Headers -/

def tarField (bytes : List UInt8) : List UInt8 := bytes.takeWhile (· ≠ 0)

/-- The loop of `tar_octal`. Fields have at most 12 digits, so it does not overflow. -/
def tarDigits : List UInt8 → ℕ → Bool → Option ℕ
  | [], value, _ => some value
  | byte :: rest, value, foundDigit =>
    if 48 ≤ byte ∧ byte ≤ 55 then tarDigits rest (value * 8 + (byte.toNat - 48)) true
    else if (byte = 0 ∨ byte = 32) ∧ (foundDigit ∨ value = 0) then
      tarDigits rest value foundDigit
    else none

def tarOctal (bytes : List UInt8) : Option ℕ := tarDigits bytes 0 false

/-- A header of an archive, and what follows it. -/
structure Header where
  block : List UInt8
  rest : List UInt8

namespace Header

/-- The name, after the prefix if there is one. -/
def path (h : Header) : List UInt8 :=
  let name := tarField (headerSlice h.block 0 100)
  let pathPrefix := tarField (headerSlice h.block 345 500)
  if pathPrefix = [] then name else pathPrefix ++ slash :: name

/-- The path without the slashes at its end. -/
def trimmed (h : Header) : List UInt8 := trimEnd h.path

def size (h : Header) : Option ℕ := tarOctal (headerSlice h.block 124 136)

def mode (h : Header) : UInt16 :=
  UInt16.ofNat ((tarOctal (headerSlice h.block 100 108)).getD 0o644)

def uid (h : Header) : UInt32 := UInt32.ofNat ((tarOctal (headerSlice h.block 108 116)).getD 0)

def gid (h : Header) : UInt32 := UInt32.ofNat ((tarOctal (headerSlice h.block 116 124)).getD 0)

/-- The type flag. -/
def flag (h : Header) : UInt8 := h.block.getD 156 0

/-- `b'5'` -/
def isDirectory (h : Header) : Bool := h.flag == 53

/-- `0 | b'0'` -/
def isRegular (h : Header) : Bool := h.flag == 0 || h.flag == 48

/-- The data of a header whose size can be read. -/
def data (h : Header) : List UInt8 := h.rest.take (h.size.getD 0)

end Header

/-- The header at the beginning of the bytes. -/
def headerAt (archive : List UInt8) : Header :=
  ⟨archive.take sectorSize, archive.drop sectorSize⟩

/-- The header consists of zeros, which ends the archive. -/
def atEnd (archive : List UInt8) : Bool := (archive.take sectorSize).all (· == 0)

variable {archive : List UInt8}

theorem length_rest_lt (h : ¬ archive.length < sectorSize) (n : ℕ) :
    (headerAt archive).rest.length - n < archive.length := by
  have hss : sectorSize = 512 := rfl
  simp only [headerAt, length_drop]
  omega

/-- The headers of an archive, up to its end or to a size that cannot be read. -/
def headers (archive : List UInt8) : List Header :=
  if hlen : archive.length < sectorSize then []
  else if atEnd archive then []
  else headerAt archive :: match (headerAt archive).size with
    | none => []
    | some size =>
      have := length_rest_lt hlen (paddedSize size)
      headers ((headerAt archive).rest.drop (paddedSize size))
  termination_by archive.length

theorem headers_of_stop (h : archive.length < sectorSize ∨ atEnd archive) :
    headers archive = [] := by
  rw [headers]
  split_ifs with hlen hend
  · rfl
  · rfl
  · exact absurd h (by simp [hlen, hend])

theorem headers_of_next (hlen : ¬ archive.length < sectorSize)
    (hend : ¬ atEnd archive) : headers archive = headerAt archive ::
      (headerAt archive).size.elim [] fun size =>
        headers ((headerAt archive).rest.drop (paddedSize size)) := by
  rw [headers, dif_neg hlen, if_neg hend]
  cases (headerAt archive).size <;> rfl

/-! ### Seeding -/

/-- `Ok(()) | Err(DfsError::AlreadyExists) => {}` -/
def orExists (m : DfsProgram Transaction Unit) : DfsProgram Transaction Unit :=
  ExceptT.mk (m.run.bind fun
    | .error .alreadyExists => .pure (.ok ())
    | r => .pure r)

/-- What `seed_from_ustar` does with a header. -/
def seedEntry (L : Layout) (h : Header) (path : Str) : DfsProgram Transaction Unit :=
  if path.val = [] ∨ path.val = [46] then pure ()
  else if h.isDirectory then orExists (createDirectory L path h.mode h.uid h.gid)
  else if h.isRegular then do
    let _ ← writeFile L path 0 h.data true h.mode h.uid h.gid
    pure ()
  else pure ()

def seedFromUstar (L : Layout) (archive : List UInt8) : DfsProgram Transaction Unit :=
  if hlen : archive.length < sectorSize then throw .invalidFilesystem
  else if atEnd archive then pure ()
  else
    let header := headerAt archive
    match header.size with
    | none => throw .invalidFilesystem
    | some size =>
      have := length_rest_lt hlen (paddedSize size)
      if header.rest.length < size then throw .invalidFilesystem
      else if maxPath < header.path.length then throw .invalidPath
      else match fromUtf8 header.trimmed with
      | none => throw .invalidPath
      | some path => do
        seedEntry L header path
        seedFromUstar L (header.rest.drop (paddedSize size))
  termination_by archive.length

theorem seedFromUstar_next {L : Layout} {size : ℕ} {path : Str}
    (hlen : sectorSize ≤ archive.length) (hend : ¬ atEnd archive)
    (hsize : (headerAt archive).size = some size) (hroom : size ≤ (headerAt archive).rest.length)
    (hlong : (headerAt archive).path.length ≤ maxPath)
    (hutf8 : fromUtf8 (headerAt archive).trimmed = some path) :
    seedFromUstar L archive = (do
      seedEntry L (headerAt archive) path
      seedFromUstar L ((headerAt archive).rest.drop (paddedSize size))) := by
  rw [seedFromUstar, dif_neg (not_lt.mpr hlen), if_neg hend]
  simp only
  split
  · rename_i h
    rw [h] at hsize
    cases hsize
  rename_i size' hsize'
  obtain rfl := Option.some.inj (hsize.symm.trans hsize')
  rw [if_neg (not_lt.mpr hroom), if_neg (not_lt.mpr hlong)]
  split
  · rename_i h
    rw [h] at hutf8
    cases hutf8
  · rename_i path' hutf8'
    obtain rfl := Option.some.inj (hutf8.symm.trans hutf8')
    rfl

theorem seedFromUstar_end {L : Layout} (hlen : sectorSize ≤ archive.length)
    (hend : atEnd archive) : seedFromUstar L archive = pure () := by
  rw [seedFromUstar, dif_neg (not_lt.mpr hlen), if_pos hend]

/-! ### What seeding does to the map -/

namespace Header

variable (h : Header)

/-- The header makes something. -/
def Seeded : Prop := h.trimmed ≠ [] ∧ h.trimmed ≠ [46] ∧ (h.isDirectory ∨ h.isRegular)

instance : Decidable h.Seeded := inferInstanceAs (Decidable (_ ∧ _ ∧ _))

/-- The canonical path of what it makes. -/
def target : List UInt8 := (stripPrefix h.trimmed [slash]).getD h.trimmed

/-- The header makes what is at a path. -/
def Names (q : List UInt8) : Prop := h.Seeded ∧ h.target = q

instance (q : List UInt8) : Decidable (h.Names q) := inferInstanceAs (Decidable (_ ∧ _))

/-- What the header makes of an entry, unless it fails because of a directory. -/
def step (old : Option Entry) : Option (Option Entry) :=
  if h.isDirectory then some (some (old.getD (newEntry nodeDirectory h.mode h.uid h.gid)))
  else if old.any (·.content = none) then none
  else some (some (written old 0 h.data h.mode h.uid h.gid))

end Header

/-- What the header makes of a map. -/
def Entries.seed (entries : Entries) (h : Header) : Option Entries :=
  if h.Seeded then (h.step (entries h.target)).map
    (Function.update entries h.target) else some entries

section Map

variable {entries entries' : Entries} {h : Header} {hs : List Header} {q : List UInt8}

theorem Entries.seed_apply (hseed : entries.seed h = some entries') (q : List UInt8) :
    if h.Names q then h.step (entries q) = some (entries' q) else entries' q = entries q := by
  rw [Entries.seed] at hseed
  by_cases hs : h.Seeded
  · rw [if_pos hs, map_eq_some_iff] at hseed
    obtain ⟨e, he, rfl⟩ := hseed
    rcases eq_or_ne h.target q with rfl | hq
    · rw [if_pos ⟨hs, rfl⟩, Function.update_self, he]
    · rw [if_neg fun hn => hq hn.2, Function.update_of_ne hq.symm]
  · rw [if_neg fun hn => hs hn.1]
    rw [if_neg hs] at hseed
    rw [Option.some.inj hseed]

/-- **What a path leads to** depends on the headers that name it. -/
theorem seed_apply (hseed : hs.foldlM Entries.seed entries = some entries') (q : List UInt8) :
    (hs.filter (·.Names q)).foldlM (fun old h => h.step old) (entries q) = some (entries' q) := by
  induction hs generalizing entries with
  | nil =>
    obtain rfl : entries = entries' := Option.some.inj hseed
    rfl
  | cons h hs ih =>
    rw [foldlM_cons] at hseed
    obtain ⟨next, hnext, hseed⟩ := bind_eq_some_iff.mp hseed
    have hstep := Entries.seed_apply hnext q
    have hrest := ih hseed
    by_cases hn : h.Names q
    · rw [if_pos hn] at hstep
      rw [filter_cons_of_pos (by simpa using hn), foldlM_cons, hstep]
      exact hrest
    · rw [if_neg hn] at hstep
      rw [filter_cons_of_neg (by simpa using hn), ← hstep]
      exact hrest

end Map

/-! ### What the parser gives -/

section Parser

variable {bytes : List UInt8} {n value : ℕ} {foundDigit : Bool}

theorem tarDigits_lt (h : tarDigits bytes value foundDigit = some n) :
    n < (value + 1) * 8 ^ bytes.length := by
  induction bytes generalizing value foundDigit with
  | nil =>
    obtain rfl := Option.some.inj h
    simp
  | cons byte rest ih =>
    rw [tarDigits] at h
    rw [length_cons, pow_succ, Nat.mul_comm _ 8, ← Nat.mul_assoc]
    split_ifs at h with hdigit hskip
    · refine (ih h).trans_le (Nat.mul_le_mul_right _ ?_)
      have : byte.toNat ≤ 55 := UInt8.le_iff_toNat_le.mp hdigit.2
      omega
    · exact (ih h).trans_le (Nat.mul_le_mul_right _ (by omega))

theorem Header.size_lt {h : Header} (hsize : h.size = some n) : n < 2 ^ 36 := by
  have hlen : (headerSlice h.block 124 136).length ≤ 12 := by
    rw [headerSlice, length_drop, length_take]
    omega
  calc n < (0 + 1) * 8 ^ (headerSlice h.block 124 136).length := tarDigits_lt hsize
    _ = 8 ^ (headerSlice h.block 124 136).length := by rw [Nat.zero_add, Nat.one_mul]
    _ ≤ 8 ^ 12 := Nat.pow_le_pow_right (by decide) hlen
    _ = 2 ^ 36 := by decide

theorem Header.zero_not_mem (h : Header) : (0 : UInt8) ∉ h.trimmed := by
  have hfield : ∀ bytes, (0 : UInt8) ∉ tarField bytes := fun bytes hmem =>
    absurd (mem_takeWhile_imp hmem) (by decide)
  have hpath : (0 : UInt8) ∉ h.path := by
    rw [Header.path]
    split
    · exact hfield _
    · rw [mem_append, mem_cons, not_or, not_or]
      exact ⟨hfield _, by decide, hfield _⟩
  intro hmem
  rw [Header.trimmed, trimEnd, mem_reverse] at hmem
  exact hpath (mem_reverse.mp (dropWhile_sublist _ |>.mem hmem))

theorem Header.numbered (L : Layout) (h : Header) :
    Numbered L (sectorsFor (0 + h.data.length)) := by
  refine Or.inl ?_
  have hlen : h.data.length ≤ 2 ^ 36 := by
    rw [Header.data, length_take]
    refine (Nat.min_le_left _ _).trans ?_
    cases hsize : h.size with
    | none => exact Nat.zero_le _
    | some size => exact (Header.size_lt hsize).le
  simp only [sectorsFor, sectorSize]
  omega

theorem bytes_canonicalPath {path : Str} {p : Path} (hp : canonicalPath path = .ok p) :
    p.bytes = (stripPrefix path.val [slash]).getD path.val := by
  unfold canonicalPath at hp
  simp only at hp
  split_ifs at hp with h₁ h₂
  · rw [← Except.ok.inj hp]
  · rw [← Except.ok.inj hp]
    exact h₂.symm

theorem canonicalPath_eq_error {path : Str} {e : DfsError} (h : canonicalPath path = .error e) :
    e = .invalidPath := by
  unfold canonicalPath at h
  simp only at h
  split_ifs at h
  exact (Except.error.inj h).symm

theorem find_of_alreadyExists {v : Vol} {p : Path} {kind : UInt8} {mode : UInt16} {uid gid : UInt32}
    (h : v.create p kind mode uid gid = .error .alreadyExists) : (v.find p.bytes).isSome := by
  unfold Vol.create at h
  split_ifs at h with hfound hparent
  · exact hfound
  · cases h
  · split at h <;> cases h

end Parser

/-! ### Runs -/

/-- The disk holds a volume in order. -/
structure InOrder (L : Layout) (d : ℕ → Sector) (v : Vol) : Prop extends Represents L d v where
  exact : v.Exact L
  tree : v.Tree
  sized : v.Sized

/-- A header of an archive that has been read to its end. -/
structure Header.Accepted (h : Header) : Prop where
  utf8 : validUtf8 h.trimmed
  /-- There is room for the data, and for another header. -/
  room : ∃ size, h.size = some size ∧ paddedSize size + sectorSize ≤ h.rest.length
  clean : h.Seeded → h.target = [] ∨ CleanPath h.target

section Runs

variable {L : Layout} {d : ℕ → Sector} {v : Vol} {h : Header} {path : Str}

/-- **A fresh volume** has a root and nothing else. -/
theorem InOrder.formats (hformat : Formats L d) : ∃ v, InOrder L d v ∧
    v.entries = Function.update (fun _ => none) [] (some (newEntry nodeDirectory 0o755 0 0)) := by
  obtain ⟨d₀, hformat⟩ := hformat
  obtain ⟨d', hrun, hrep⟩ := run_format L d₀
  obtain rfl : d' = d := congrArg Prod.snd (hrun.symm.trans hformat)
  have htree := Vol.formatVol_tree L d₀
  refine ⟨_, ⟨hrep, formatVol_accounted d₀, htree, fun i _ hkind =>
    absurd hkind (kind_formatVol L d₀ i)⟩, funext fun q => ?_⟩
  have hroot : (formatVol L d₀).nodes 0 = rootNode := rfl
  rw [Function.update_apply]
  split
  · rename_i hq
    have hf : (formatVol L d₀).find q = some 0 :=
      htree.find_eq_some.mpr ⟨by decide, htree.root.1, by rw [hroot, hq]; rfl⟩
    rw [Vol.entries_of_find hf, hroot]
    rfl
  · rename_i hq
    refine Vol.entries_of_none (htree.find_none.mpr fun i hi hkind hpath => hq ?_)
    have hi0 : i = 0 := by
      by_contra hne
      exact hkind (by rw [formatVol, Vol.setNode_nodes_of_ne _ hne]; rfl)
    rw [← hpath, hi0, hroot]
    rfl

variable {d' : ℕ → Sector}

/-- What `orExists` makes of a run. -/
theorem run_orExists {m : DfsProgram Transaction Unit} {r : Except DfsError Unit}
    (hrun : m.run.run (commitRun L) d = (r, d')) : (orExists m).run.run (commitRun L) d =
      (if r = .error .alreadyExists then .ok () else r, d') := by
  have hbind := Prog.run_bind (commitRun L) m.run (fun
    | .error .alreadyExists => .pure (.ok ())
    | r => .pure r) d
  rw [hrun] at hbind
  refine hbind.trans ?_
  match r with
  | .ok () => rfl
  | .error e => cases e <;> rfl

theorem InOrder.writeFile (hv : InOrder L d v) (hnul : (0 : UInt8) ∉ path.val)
    {input : List UInt8} (hnum : Numbered L (sectorsFor (0 + input.length))) {mode : UInt16}
    {uid gid : UInt32} {n : ℕ} (hrun : (Dfs.writeFile L path 0 input true mode uid
      gid).run.run (commitRun L) d = (.ok n, d')) :
    ∃ v' p, InOrder L d' v' ∧ canonicalPath path = .ok p ∧
      (∀ e, v.entries p.bytes = some e → e.content ≠ none) ∧
      v'.entries = Function.update v.entries p.bytes
        (some (written (v.entries p.bytes) 0 input mode uid gid)) := by
  obtain ⟨v', hd', hacc', heffect⟩ := wp_run (L := L) (d := d)
    (Q := fun r d' => ∃ v', Represents L d' v' ∧ v'.Exact L ∧
      WriteEffect L v path 0 input true mode uid gid r v')
    (wp_writeFile_effect hv.toRepresents hv.exact fun r d' v' h₁ h₂ h₃ => ⟨v', h₁, h₂, h₃⟩)
  rw [hrun] at hd' heffect
  obtain ⟨p, hp, hfile, hentries, htree, hsized⟩ :=
    heffect.entries hnul hnum hv.tree hv.sized hacc'
  exact ⟨v', p, ⟨hd', hacc', htree, hsized⟩, hp, hfile, hentries⟩

/-- A directory that is created, or is there. -/
theorem InOrder.orExists (hv : InOrder L d v) (hnul : (0 : UInt8) ∉ path.val) {mode : UInt16}
    {uid gid : UInt32} (hrun : (orExists (Dfs.createDirectory L path mode uid
      gid)).run.run (commitRun L) d = (.ok (), d')) :
    ∃ v' p, InOrder L d' v' ∧ canonicalPath path = .ok p ∧
      v'.entries = Function.update v.entries p.bytes
        (some ((v.entries p.bytes).getD (newEntry nodeDirectory mode uid gid))) := by
  obtain ⟨v', hd', hacc', hout⟩ := wp_run (L := L) (d := d)
    (Q := fun r d' => ∃ v', Represents L d' v' ∧ v'.Exact L ∧
      CreateOutcome v path mode uid gid r v')
    (wp_createDirectory hv.toRepresents hv.exact fun r d' v' h₁ h₂ h₃ => ⟨v', h₁, h₂, h₃⟩)
  rcases hcreate : (Dfs.createDirectory L path mode uid gid).run.run (commitRun L) d with ⟨r, d₁⟩
  rw [hcreate] at hd' hout
  obtain ⟨hr, rfl⟩ := Prod.mk.inj ((run_orExists hcreate).symm.trans hrun)
  cases hp : canonicalPath path with
  | error e =>
    rw [Dfs.createDirectory, run_bind_eq (r := .error e) (e := d) (by rw [hp]; rfl),
      andThen_error] at hcreate
    obtain rfl : .error e = r := congrArg Prod.fst hcreate
    obtain rfl := canonicalPath_eq_error hp
    simp at hr
  | ok p =>
    cases hout with
    | @created p' i node hp' hne hnew =>
      obtain rfl := Except.ok.inj (hp.symm.trans hp')
      have hnul' : (0 : UInt8) ∉ p.bytes := fun hb => hnul (mem_canonicalPath hp hb)
      obtain ⟨hnone, hentries⟩ := entries_create hv.tree (Or.inr rfl) hne hnul' hnew
      refine ⟨_, p, ⟨hd', hacc', hv.tree.create (Or.inr rfl) hne hnul' hnew,
        sized_create hv.sized (Or.inr rfl) hnew⟩, rfl, ?_⟩
      rw [hentries, hnone]
      rfl
    | refused e h =>
      refine ⟨v, p, ⟨hd', hacc', hv.tree, hv.sized⟩, rfl, ?_⟩
      obtain ⟨old, hold⟩ : ∃ old, v.entries p.bytes = some old := by
        rw [← isSome_iff_exists, Vol.entries, isSome_map]
        by_cases hne : p.bytes = []
        · rw [hne, hv.tree.find_eq_some.mpr
            ⟨by decide, hv.tree.root.1, (hv.tree.root.2 0 (by decide)
            hv.tree.root.1).mpr rfl⟩, isSome_some]
        · obtain rfl : e = .alreadyExists := by
            by_contra hne'
            rw [if_neg fun he => hne' (Except.error.inj he)] at hr
            cases hr
          exact find_of_alreadyExists (h p hp hne)
      rw [hold, getD_some, ← hold, Function.update_eq_self]

/-- **One header.** -/
theorem run_seedEntry (hv : InOrder L d v) (hpath : path.val = h.trimmed)
    (hrun : (seedEntry L h path).run.run (commitRun L) d = (.ok (), d')) :
    ∃ v', InOrder L d' v' ∧ v.entries.seed h = some v'.entries ∧
      (h.Seeded → h.target = [] ∨ CleanPath h.target) := by
  have hnul : (0 : UInt8) ∉ path.val := hpath ▸ h.zero_not_mem
  have htarget : ∀ {p}, canonicalPath path = .ok p → p.bytes = h.target := fun hp => by
    rw [bytes_canonicalPath hp, hpath, Header.target]
  -- Whatever is not seeded changes nothing.
  have hskip : ¬ h.Seeded → (Except.ok (), d) = ((Except.ok (), d') : Except DfsError Unit × _) →
      ∃ v', InOrder L d' v' ∧ v.entries.seed h = some v'.entries ∧
        (h.Seeded → h.target = [] ∨ CleanPath h.target) := fun hs hd => by
    obtain rfl := congrArg Prod.snd hd
    exact ⟨v, hv, by rw [Entries.seed, if_neg hs], fun hs' => absurd hs' hs⟩
  rw [seedEntry] at hrun
  split_ifs at hrun with hname hdir hregular
  · refine hskip (fun hs => ?_) hrun
    rw [hpath] at hname
    exact hname.elim hs.1 hs.2.1
  · obtain ⟨v', p, hv', hp, hentries⟩ := hv.orExists hnul hrun
    rw [hpath, not_or] at hname
    have hs : h.Seeded := ⟨hname.1, hname.2, Or.inl hdir⟩
    refine ⟨v', hv', ?_, fun _ => htarget hp ▸ p.clean⟩
    rw [Entries.seed, if_pos hs, Header.step, if_pos hdir, hentries, htarget hp]
    rfl
  · rcases hwrite : (Dfs.writeFile L path 0 h.data true h.mode h.uid h.gid).run.run (commitRun L) d
      with ⟨r, d₁⟩
    rw [run_bind_eq hwrite] at hrun
    cases r with
    | error e => cases congrArg Prod.fst hrun
    | ok n =>
      obtain rfl : d₁ = d' := congrArg Prod.snd hrun
      obtain ⟨v', p, hv', hp, hfile, hentries⟩ := hv.writeFile hnul (h.numbered L) hwrite
      rw [hpath, not_or] at hname
      have hs : h.Seeded := ⟨hname.1, hname.2, Or.inr hregular⟩
      rw [htarget hp] at hfile hentries
      refine ⟨v', hv', ?_, fun _ => htarget hp ▸ p.clean⟩
      have hany : ¬ (v.entries h.target).any (·.content = none) = true := fun hany => by
        obtain ⟨e, he, hcontent⟩ := (any_eq_true _ _).mp hany
        exact hfile e he (by simpa using hcontent)
      rw [Entries.seed, if_pos hs, Header.step, if_neg hdir, if_neg hany, hentries]
      rfl
  · exact hskip (fun hs => hs.2.2.elim hdir hregular) hrun

/-- **Seeding a volume** seeds its map. -/
theorem run_seedFromUstar (hv : InOrder L d v)
    (hrun : (seedFromUstar L archive).run.run (commitRun L) d = (.ok (), d')) :
    sectorSize ≤ archive.length ∧ ∃ v', InOrder L d' v' ∧
      (headers archive).foldlM Entries.seed v.entries = some v'.entries ∧
      ∀ h ∈ headers archive, h.Accepted := by
  induction hn : archive.length using Nat.strong_induction_on generalizing archive d v with
  | _ n ih =>
  subst hn
  rw [seedFromUstar] at hrun
  split at hrun
  · cases congrArg Prod.fst hrun
  rename_i hlen
  refine ⟨not_lt.mp hlen, ?_⟩
  split at hrun
  · rename_i hend
    obtain rfl : d = d' := congrArg Prod.snd hrun
    rw [headers_of_stop (Or.inr hend)]
    exact ⟨v, hv, rfl, by simp⟩
  rename_i hend
  simp only at hrun
  split at hrun
  · cases congrArg Prod.fst hrun
  rename_i size hsize
  rw [headers_of_next hlen hend, hsize, elim_some]
  split_ifs at hrun with hroom hlong
  · cases congrArg Prod.fst hrun
  · cases congrArg Prod.fst hrun
  split at hrun
  · cases congrArg Prod.fst hrun
  rename_i path hutf8
  have hpath : validUtf8 (headerAt archive).trimmed ∧ path.val = (headerAt archive).trimmed := by
    rw [fromUtf8] at hutf8
    split at hutf8
    · rename_i hvalid
      exact ⟨hvalid, by rw [← Option.some.inj hutf8]⟩
    · cases hutf8
  rcases hentry : (seedEntry L (headerAt archive) path).run.run (commitRun L) d with ⟨r, d₁⟩
  rw [run_bind_eq hentry] at hrun
  cases r with
  | error e => cases congrArg Prod.fst hrun
  | ok u =>
    obtain ⟨v₁, hv₁, hseed, hclean⟩ := run_seedEntry hv hpath.2 hentry
    have hlt := length_rest_lt hlen (paddedSize size)
    obtain ⟨hnext, v', hv', hfold, haccepted⟩ :=
      ih _ (by rw [length_drop]; exact hlt) hv₁ hrun rfl
    rw [length_drop] at hnext
    refine ⟨v', hv', ?_, fun h hh => ?_⟩
    · rw [foldlM_cons, hseed]
      exact hfold
    · rcases mem_cons.mp hh with rfl | hh
      · exact ⟨hpath.1, ⟨size, hsize, by simp only [sectorSize] at hnext ⊢; omega⟩, hclean⟩
      · exact haccepted h hh

end Runs

end ImagineOS.Dfs
