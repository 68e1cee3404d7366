import ImagineOS.Dfs.Wraparound
import ImagineOS.Installer.Configure
import ImagineOS.Installer.FatSectors

/-!
# Installer: what a configured install stores

The host name and the account database are written at the beginning of files that the archive may
have made, and `write_file` does not truncate them. So they are read back as they were written if
and only if the archive has nothing longer at their paths (`stores_iff`).
-/

namespace ImagineOS

open BlockProgram Fallible Option

namespace Dfs

/-! ### Files that an archive makes -/

theorem splice_zero (content bytes : List UInt8) :
    splice content 0 bytes = bytes ++ content.drop bytes.length := by
  rw [splice, List.take_zero, List.nil_append, Nat.zero_add]

/-- **A write at the beginning replaces what is no longer than itself.** -/
theorem splice_zero_eq_iff {content bytes : List UInt8} :
    splice content 0 bytes = bytes ↔ content.length ≤ bytes.length := by
  rw [splice_zero, List.append_right_eq_self, List.drop_eq_nil_iff]

/-- The number of bytes of a file, if there is one. -/
def entryLength (entry : Option Entry) : ℕ := ((entry.bind (·.content)).getD []).length

/-- What is not a directory. -/
def NotDirectory (entry : Option Entry) : Prop := ∀ e, entry = some e → e.content ≠ none

theorem entryLength_written (old : Option Entry) (input : List UInt8) (mode : UInt16)
    (uid gid : UInt32) : entryLength (some (written old 0 input mode uid gid)) =
      max (entryLength old) input.length := by
  cases old with
  | none => simp [entryLength, written]
  | some e =>
    simp only [entryLength, written, bind_some, getD_some, splice_zero,
      List.length_append, List.length_drop]
    omega

/-- The files of a list of headers that are no longer than a number of bytes. -/
def NoLonger (hs : List Header) (q : List UInt8) (n : ℕ) : Prop :=
  ∀ h ∈ hs, h.Names q → h.isRegular → h.data.length ≤ n

instance (hs : List Header) (q : List UInt8) (n : ℕ) : Decidable (NoLonger hs q n) :=
  inferInstanceAs (Decidable (∀ h ∈ hs, _))

theorem Header.not_isRegular {h : Header} (hdir : h.isDirectory) : ¬ h.isRegular := by
  have hflag : h.flag = 53 := by simpa [Header.isDirectory] using hdir
  simp [Header.isRegular, hflag]

theorem notDirectory_of_step {h : Header} {old new : Option Entry} (hstep : h.step old = some new)
    (hnew : NotDirectory new) : NotDirectory old := by
  rintro e rfl hcontent
  rw [Header.step] at hstep
  split at hstep
  · obtain rfl := Option.some.inj hstep
    exact hnew e rfl hcontent
  · simp [hcontent] at hstep

/-- **How long a file is that an archive makes**: as long as the longest of the headers that name
it. -/
theorem length_of_foldlM {hs : List Header} {old new : Option Entry} (n : ℕ)
    (hseeded : ∀ h ∈ hs, h.Seeded) (hfold : hs.foldlM (fun old h => h.step old) old = some new)
    (hnew : NotDirectory new) :
    NotDirectory old ∧
      (entryLength new ≤ n ↔ entryLength old ≤ n ∧ ∀ h ∈ hs, h.isRegular → h.data.length ≤ n) := by
  induction hs generalizing old with
  | nil =>
    obtain rfl := Option.some.inj hfold
    exact ⟨hnew, by simp⟩
  | cons h hs ih =>
    rw [List.foldlM_cons] at hfold
    obtain ⟨next, hstep, hfold⟩ := bind_eq_some_iff.mp hfold
    obtain ⟨hnext, hiff⟩ := ih (fun g hg => hseeded g (List.mem_cons_of_mem _ hg)) hfold
    refine ⟨notDirectory_of_step hstep hnext, ?_⟩
    rw [hiff, List.forall_mem_cons]
    rw [Header.step] at hstep
    split at hstep
    · rename_i hdir
      obtain rfl := Option.some.inj hstep
      have hsame : entryLength (some (old.getD (newEntry nodeDirectory h.mode h.uid h.gid))) =
          entryLength old := by
        cases old with
        | none => exact absurd rfl (hnext _ rfl)
        | some e => rfl
      rw [hsame]
      have hregular := Header.not_isRegular hdir
      tauto
    · rename_i hdir
      split at hstep
      · cases hstep
      · obtain rfl := Option.some.inj hstep
        have hregular : h.isRegular := (hseeded h List.mem_cons_self).2.2.resolve_left hdir
        rw [entryLength_written, max_le_iff]
        tauto

/-- **How long a file is after seeding a fresh volume.** -/
theorem length_of_seed {hs : List Header} {entries : Entries} {q : List UInt8} (hq : q ≠ []) (n : ℕ)
    (hseed : hs.foldlM Entries.seed (Function.update (fun _ => none) []
      (some (newEntry nodeDirectory 0o755 0 0))) = some entries)
    (hfile : NotDirectory (entries q)) : entryLength (entries q) ≤ n ↔ NoLonger hs q n := by
  have hfold := seed_apply hseed q
  rw [Function.update_of_ne hq] at hfold
  have hseeded : ∀ h ∈ hs.filter (·.Names q), h.Seeded := fun h hh => by
    have hn := (List.mem_filter.mp hh).2
    exact (of_decide_eq_true hn).1
  rw [(length_of_foldlM n hseeded hfold hfile).2, NoLonger]
  simp only [List.mem_filter, decide_eq_true_eq, and_imp]
  exact and_iff_right (Nat.zero_le n)

end Dfs

namespace Installer

open Dfs (Layout DfsProgram Transaction commitRun InOrder NotDirectory NoLonger entryLength written
  canonicalPath headers)

/-! ### The configuration in the file system -/

section Accounts

variable {L : Layout} {d d' : ℕ → Sector} {v : Dfs.Vol} {config : InstallConfig}

theorem numbered_of_length {input : List UInt8} (h : input.length ≤ 100) :
    Dfs.Numbered L (Dfs.sectorsFor (0 + input.length)) := by
  refine Or.inl ?_
  simp only [Dfs.sectorsFor, sectorSize]
  omega

theorem length_hostname (config : InstallConfig) : (hostname config).length ≤ 64 := by
  rw [hostname]
  split
  · decide
  · rw [InstallConfig.hostnameBytes, List.length_take, Vector.length_toList]
    omega

/-- **What is stored**: the host name and the database are written over what was there. -/
theorem run_storeAccounts (hv : InOrder L d v) (hvalid : validateInstallConfig config)
    {database : Option (List UInt8)}
    (hdatabase : ∀ db, database = some db → config.addUser ≠ 0 ∧ db.length = 100)
    (hrun : (storeAccounts L config database).run d = (.ok (), d')) :
    ∃ v', InOrder L d' v' ∧ NotDirectory (v.entries hostnamePath.val) ∧
      v'.entries hostnamePath.val =
        some (written (v.entries hostnamePath.val) 0 (hostname config) 0o644 0 0) ∧
      ∀ db, database = some db → NotDirectory (v.entries usersPath.val) ∧
        v'.entries usersPath.val = some (written (v.entries usersPath.val) 0 db 0o600 0 0) := by
  have hbytes : ∀ {path : Str} {p}, canonicalPath path = .ok p →
      stripPrefix path.val [slash] = none → p.bytes = path.val := fun hp hnone => by
    rw [Dfs.bytes_canonicalPath hp, hnone]
    rfl
  unfold storeAccounts at hrun
  obtain ⟨_, d₁, hetc, hrun⟩ := DiskM.bind_eq_ok hrun
  obtain ⟨v₁, p₁, hv₁, hp₁, hentries₁⟩ := hv.orExists (by decide) (onDfs_eq_ok.mp hetc)
  obtain ⟨n, d₂, hname, hrun⟩ := DiskM.bind_eq_ok hrun
  have hlength := length_hostname config
  obtain ⟨v₂, p₂, hv₂, hp₂, hfile₂, hentries₂⟩ := hv₁.writeFile (by decide)
    (numbered_of_length (by omega)) (onDfs_eq_ok.mp hname)
  rw [hbytes hp₁ (by decide)] at hentries₁
  rw [hbytes hp₂ (by decide)] at hfile₂ hentries₂
  have hkept₁ : ∀ q, q ≠ etcPath.val → v₁.entries q = v.entries q := fun q hq => by
    rw [hentries₁, Function.update_of_ne hq]
  rw [hkept₁ _ (by decide)] at hfile₂ hentries₂
  have hstored₂ : v₂.entries hostnamePath.val =
      some (written (v.entries hostnamePath.val) 0 (hostname config) 0o644 0 0) := by
    rw [hentries₂, Function.update_self]
  cases database with
  | none =>
    obtain rfl : d₂ = d' := congrArg Prod.snd hrun
    exact ⟨v₂, hv₂, hfile₂, hstored₂, fun db hdb => by cases hdb⟩
  | some db =>
    obtain ⟨huser, hdb⟩ := hdatabase db rfl
    obtain ⟨m, d₃, husers, hrun⟩ := DiskM.bind_eq_ok hrun
    obtain ⟨v₃, p₃, hv₃, hp₃, hfile₃, hentries₃⟩ := hv₂.writeFile (by decide)
      (numbered_of_length hdb.le) (onDfs_eq_ok.mp husers)
    rw [hbytes hp₃ (by decide)] at hfile₃ hentries₃
    have hkept₂ : v₂.entries usersPath.val = v.entries usersPath.val := by
      rw [hentries₂, Function.update_of_ne (by decide), hkept₁ _ (by decide)]
    rw [hkept₂] at hfile₃ hentries₃
    split at hrun
    · cases congrArg Prod.fst hrun
    rename_i homePath hhome
    have hval : homePath.val = homePrefix ++ config.usernameBytes := by
      rw [fromUtf8] at hhome
      split at hhome
      · rw [← Option.some.inj hhome]
      · cases hhome
    have hnul : (0 : UInt8) ∉ homePath.val := by
      rw [hval, List.mem_append, not_or]
      refine ⟨by decide, fun hmem => ?_⟩
      have hall := List.all_eq_true.mp (validate_user hvalid huser).2 0 hmem
      exact absurd hall (by decide)
    obtain ⟨v₄, p₄, hv₄, hp₄, hentries₄⟩ := hv₃.orExists hnul (onDfs_eq_ok.mp hrun)
    have hhead : p₄.bytes = 104 :: [111, 109, 101, 47] ++ config.usernameBytes := by
      rw [hbytes hp₄ (by rw [hval]; rfl), hval]
      rfl
    have hkept₄ : ∀ q : List UInt8, q.head? = some 101 → v₄.entries q = v₃.entries q :=
      fun q hq => by
        refine hentries₄ ▸ Function.update_of_ne (fun h => ?_) _ _
        rw [h, hhead] at hq
        simp at hq
    refine ⟨v₄, hv₄, hfile₂, ?_, fun db' hdb' => ?_⟩
    · rw [hkept₄ _ rfl, hentries₃, Function.update_of_ne (by decide), hstored₂]
    · obtain rfl := Option.some.inj hdb'
      exact ⟨hfile₃, by rw [hkept₄ _ rfl, hentries₃, Function.update_self]⟩

end Accounts

/-! ### The installation -/

section Install

variable {pbkdf2 : List UInt8 → Vector UInt8 16 → ℕ → Option (Vector UInt8 32)} {N : ℕ}
  {tsc : Tsc} {salt : Option (Vector UInt8 16)} {payloads : Payloads}
  {accountConfig : Option InstallConfig} {config : InstallConfig}
  {database : Option (List UInt8)} {plan : EspPlan} {L : Layout} {d d' : ℕ → Sector}

/-- What follows the format of the file system. -/
def fillDfs (dfs : Layout) (payloads : Payloads) (accountConfig : Option InstallConfig)
    (database : Option (List UInt8)) : DiskM InstallError Unit := do
  onDfs (fun _ => .dfsFormat) dfs (Dfs.seedFromUstar dfs payloads.ramfsImage)
  match accountConfig with
  | none => pure ()
  | some config => storeAccounts dfs config database
  onDisk id (Fallible.flush .block)

/-- **Both partitions are where the table says.** The run up to the file system. -/
theorem run_installConfigured (hcheck : checkInstall pbkdf2 N salt payloads accountConfig =
      .ok (database, plan)) (hmin : minDiskSectors ≤ N) (hN : N < 2 ^ 64)
    (hplan : planEsp payloads = .ok plan) (d : ℕ → Sector) :
    ∃ d₂, (installConfigured pbkdf2 N tsc salt payloads accountConfig).run d =
      (do
        let dfs ← formatDfs (fun _ => .dfsFormat) dfsStartLba (dfsEndLba N - dfsStartLba + 1)
        fillDfs dfs payloads accountConfig database : DiskM InstallError Unit).run d₂ := by
  obtain ⟨hbackup, -, hstart, hlt, hend, hsectors⟩ := bounds hmin
  have hesp : espStart = 2048 ∧ espSectors = 262144 := ⟨rfl, rfl⟩
  obtain ⟨d₁, hd₁⟩ : ∃ d₁, d₁ = applyWrites (gptWrites N tsc.disk tsc.esp tsc.dfs) d := ⟨_, rfl⟩
  have hgpt : onDevice (writeGpt N tsc.disk tsc.esp tsc.dfs) d = (.ok (), d₁) := by
    rw [writeGpt, if_neg (by omega), hd₁]
    exact onDevice_writeSectors _
  obtain ⟨hfat, hdata, hsource, hconsecutive, hfits⟩ := accepted_of_planEsp hplan
  obtain ⟨fatSectors, dataStart, files⟩ := plan
  obtain ⟨first, count, rfl⟩ : ∃ first count, files = payloads.installed first count :=
    exists_installed hsource
  obtain rfl : fatSectors = 128 := hfat
  obtain rfl : dataStart = 2337 := hdata
  change Consecutive 5 (payloads.installed first count) at hconsecutive
  obtain ⟨d₂, hd₂⟩ : ∃ d₂, d₂ = applyWrites (espWrites tsc.volume
    (payloads.installed first count)) d₁ := ⟨_, rfl⟩
  have hvolume : onDevice (formatFat16 tsc.volume ⟨128, 2337, payloads.installed first count⟩) d₁ =
      (.ok (), d₂) := by
    rw [hd₂]
    exact onDevice_formatFat16 tsc.volume d₁
  -- The second partition is still where the table says, which is not in the first one.
  have hheld : ∀ w ∈ gptWrites N tsc.disk tsc.esp tsc.dfs, d₂ w.1 = w.2 := fun w hw => by
    have hout : w.1 < 2048 ∨ 264192 ≤ w.1 := by
      have hsize : gptEntrySectors = 32 := rfl
      simp only [gptWrites, List.mem_append, List.mem_cons, List.mem_map, List.mem_range,
        List.not_mem_nil, or_false] at hw
      rcases hw with (⟨i, hi, rfl⟩ | rfl | ⟨i, hi, rfl⟩) | rfl | rfl <;> dsimp only <;> omega
    rw [hd₂, applyWrites_of_not_mem d₁ fun hmem => ?_, hd₁]
    · exact applyWrites_of_mem d (nodup_gptWrites hmin) hw
    · obtain ⟨w', hw', heq⟩ := List.mem_map.mp hmem
      have := mem_espWrites hconsecutive hfits tsc.volume w' hw'
      omega
  have hlocate := locatePartition_of_writes hmin hN hheld
    (find_dfsPartition N tsc.esp tsc.dfs)
  refine ⟨d₂, ?_⟩
  unfold installConfigured
  rw [DiskM.run_bind (check_eq_ok.mpr ⟨hcheck, rfl⟩), DiskM.run_bind (onDisk_eq_ok.mpr hgpt),
    DiskM.run_bind (onDisk_eq_ok.mpr hvolume), DiskM.run_bind (onDisk_eq_ok.mpr hlocate)]
  rfl

/-! ### Reading the file system -/

/-- A file of the installed file system holds some bytes: whoever mounts it and reads the file from
its beginning gets them, up to the length of the buffer. -/
def Stored (N : ℕ) (d : ℕ → Sector) (path : Str) (bytes : List UInt8) : Prop :=
  ∀ length, (readInstalled N path 0 length).run d = (.ok (bytes.take length), d)

/-- **What is stored** is what the path leads to. -/
theorem stored_iff {v : Dfs.Vol} (hv : InOrder L d v)
    (hlayout : Dfs.makeLayout dfsStartLba (dfsEndLba N - dfsStartLba + 1) = .ok L) {path : Str}
    {p : Dfs.Path} (hp : canonicalPath path = .ok p) {e : Dfs.Entry} {content bytes : List UInt8}
    (he : v.entries p.bytes = some e) (hcontent : e.content = some content) :
    Stored N d path bytes ↔ content = bytes := by
  obtain ⟨hstart, hsectors⟩ := Dfs.makeLayout_eq_ok hlayout
  have hmount : onDevice (Dfs.mount dfsStartLba (dfsEndLba N - dfsStartLba + 1)) d =
      (.ok L, d) := by
    rw [← hsectors, ← hstart]
    exact Dfs.run_mount hv.super (Dfs.run_replayJournal_of_zero hv.header)
      (hv.node 0 (by decide)) hv.root.1 hv.root.2
  have hfiles : (canonicalPath path).toOption.bind (fun p => v.files p.bytes) = some content := by
    rw [hp]
    change v.files p.bytes = _
    rw [Dfs.Vol.files_eq, he, bind_some, hcontent]
  have hread : ∀ length, (readInstalled N path 0 length).run d =
      (.ok (content.take length), d) := fun length => by
    obtain ⟨r, hrun, hr⟩ := hv.toRepresents.agrees hv.exact hv.sized path 0 length
    rw [hfiles] at hr
    rw [show r = _ from hr, List.drop_zero] at hrun
    rw [readInstalled, mountInstalled, DiskM.run_bind (onDisk_eq_ok.mpr hmount)]
    exact onDfs_eq_ok.mpr hrun
  refine ⟨fun h => ?_, fun h => h ▸ hread⟩
  have hlength := congrArg Prod.fst ((hread (max content.length bytes.length)).symm.trans
    (h (max content.length bytes.length)))
  rw [List.take_of_length_le (le_max_left _ _),
    List.take_of_length_le (le_max_right _ _)] at hlength
  exact Except.ok.inj hlength

/-- **What a configured install leaves.** -/
theorem stores_of_fillDfs (hformats : Dfs.Formats L d)
    (hlayout : Dfs.makeLayout dfsStartLba (dfsEndLba N - dfsStartLba + 1) = .ok L)
    (hvalid : validateInstallConfig config)
    (hdatabase : ∀ db, database = some db → config.addUser ≠ 0 ∧ db.length = 100)
    (hrun : (fillDfs L payloads (some config) database).run d = (.ok (), d')) :
    (Stored N d' hostnamePath (hostname config) ↔
      NoLonger (headers payloads.ramfsImage) hostnamePath.val (hostname config).length) ∧
    ∀ db, database = some db → (Stored N d' usersPath db ↔
      NoLonger (headers payloads.ramfsImage) usersPath.val 100) := by
  obtain ⟨v₀, hv₀, hentries₀⟩ := InOrder.formats hformats
  unfold fillDfs at hrun
  obtain ⟨_, d₁, hseed, hrun⟩ := DiskM.bind_eq_ok hrun
  obtain ⟨-, v₁, hv₁, hfold, -⟩ := Dfs.run_seedFromUstar hv₀ (onDfs_eq_ok.mp hseed)
  rw [hentries₀] at hfold
  obtain ⟨_, d₂, hstore, hrun⟩ := DiskM.bind_eq_ok hrun
  obtain ⟨v₂, hv₂, hname, hstored, husers⟩ := run_storeAccounts hv₁ hvalid hdatabase hstore
  obtain rfl : d₂ = d' := congrArg Prod.snd (onDisk_eq_ok.mp hrun)
  -- A file that is written from its beginning holds what was written if it was no longer.
  have hiff : ∀ {path : Str} {p : Dfs.Path}, canonicalPath path = .ok p → p.bytes = path.val →
      path.val ≠ [] → NotDirectory (v₁.entries path.val) → ∀ {bytes mode uid gid},
      v₂.entries path.val = some (written (v₁.entries path.val) 0 bytes mode uid gid) →
      (Stored N d₂ path bytes ↔ NoLonger (headers payloads.ramfsImage) path.val bytes.length) := by
    intro path p hp hpath hne hfile bytes mode uid gid hentry
    rw [← Dfs.length_of_seed hne bytes.length hfold hfile]
    cases hold : v₁.entries path.val with
    | none =>
      rw [hold] at hentry
      rw [stored_iff hv₂ hlayout hp (hpath ▸ hentry) rfl]
      simp [entryLength]
    | some e =>
      obtain ⟨content, hcontent⟩ := ne_none_iff_exists'.mp (hfile e hold)
      rw [hold] at hentry
      rw [stored_iff hv₂ hlayout hp (hpath ▸ hentry) rfl, hcontent, getD_some,
        Dfs.splice_zero_eq_iff, entryLength, bind_some, hcontent, getD_some]
  refine ⟨hiff rfl rfl (by decide) hname hstored, fun db hdb => ?_⟩
  obtain ⟨hfile, hentry⟩ := husers db hdb
  rw [← (hdatabase db hdb).2]
  exact hiff rfl rfl (by decide) hfile hentry

/-- **A configured install stores exactly the configuration** if and only if the archive has no
longer file at the path of the host name, nor at that of the database if there is one. -/
theorem stores_iff (hN : N < 2 ^ 64) (hrun : (installConfigured pbkdf2 N tsc salt payloads
      (some config)).run d = (.ok (), d')) :
    (Stored N d' hostnamePath (hostname config) ∧
      (config.addUser ≠ 0 → ∃ db, makeDatabase pbkdf2 salt config = some db ∧
        Stored N d' usersPath db)) ↔
    NoLonger (headers payloads.ramfsImage) hostnamePath.val (hostname config).length ∧
      (config.addUser ≠ 0 → NoLonger (headers payloads.ramfsImage) usersPath.val 100) := by
  obtain ⟨⟨database, plan⟩, d₁, hcheck, -⟩ := DiskM.bind_eq_ok hrun
  obtain ⟨hcheck, -⟩ := check_eq_ok.mp hcheck
  obtain ⟨hchecked, hdatabase, hmin, hplan⟩ := checkInstall_eq_ok hcheck
  have hvalid := hchecked config rfl
  obtain ⟨d₂, hrun₂⟩ := run_installConfigured hcheck hmin hN hplan d
  obtain ⟨L, d₃, hformat, hfill⟩ := DiskM.bind_eq_ok (hrun₂.symm.trans hrun)
  obtain ⟨hlayout, hformat⟩ := formatDfs_eq_ok.mp hformat
  obtain ⟨hname, husers⟩ := stores_of_fillDfs ⟨d₂, hformat⟩ hlayout hvalid
    (fun db hdb => accountDatabase_eq_ok (hdb ▸ hdatabase)) hfill
  refine and_congr hname (imp_congr_right fun huser => ?_)
  obtain ⟨db, hmade, rfl⟩ : ∃ db, makeDatabase pbkdf2 salt config = some db ∧
      database = some db := by
    rw [accountDatabase, if_neg huser] at hdatabase
    split at hdatabase
    · cases hdatabase
    · rename_i db hmade
      exact ⟨db, hmade, (Except.ok.inj hdatabase).symm⟩
  rw [← husers db rfl]
  constructor
  · rintro ⟨db', hmade', h⟩
    exact Option.some.inj (hmade.symm.trans hmade') ▸ h
  · exact fun h => ⟨db, hmade, h⟩

end Install

/-! ### A sample -/

section Sample

open Dfs (Operation Represents headerAt formatVol)

/-- A disk of `300000` sectors. -/
def sampleSectors : ℕ := 300000

/-- Its second partition. -/
def sampleDfs : Layout where
  startLba := dfsStartLba
  sectors := dfsEndLba sampleSectors - dfsStartLba + 1
  fits := by decide
  rounds := by decide
  bounded := by decide

/-- A directory `etc`, and a host name of ten bytes. -/
def sampleArchive : List UInt8 :=
  -- the header of `etc`
  etcPath.val ++ List.replicate 153 0 ++ 53 :: List.replicate 355 0 ++
    -- the header of `etc/hostname`, whose size is `12`, in octal
    (hostnamePath.val ++ List.replicate 112 0 ++ [49, 50] ++ List.replicate 386 0) ++
    (List.replicate 10 97 ++ List.replicate 502 0) ++
    List.replicate 512 0

/-- No user, and the default host name. -/
def sampleConfig : InstallConfig :=
  ⟨0, 0, 0, 0, 0, .replicate 32 0, .replicate 64 0, .replicate 64 0⟩

def samplePayloads : Payloads := ⟨[1], [2], sampleArchive, [4], [5], [6]⟩

/-- What the archive is read as. -/
theorem seed_sample (L : Layout) : Dfs.seedFromUstar L sampleArchive = (do
    Dfs.orExists ((Operation.createDirectory etcPath 0 0 0).program L)
    (Operation.writeFile hostnamePath 0 (List.replicate 10 97) true 0 0 0).program L
    pure ()) := by
  have hetc : (headerAt sampleArchive).size = some 0 ∧
      fromUtf8 (headerAt sampleArchive).trimmed = some etcPath ∧
      (headerAt sampleArchive).rest.drop (Overlay.paddedSize 0) = sampleArchive.drop 512 := by
    decide +kernel
  have hname : (headerAt (sampleArchive.drop 512)).size = some 10 ∧
      fromUtf8 (headerAt (sampleArchive.drop 512)).trimmed = some hostnamePath ∧
      (headerAt (sampleArchive.drop 512)).rest.drop (Overlay.paddedSize 10) =
        List.replicate 512 0 := by
    decide +kernel
  rw [Dfs.seedFromUstar_next (by decide +kernel) (by decide +kernel) hetc.1 (by decide +kernel)
      (by decide +kernel) hetc.2.1, hetc.2.2,
    Dfs.seedFromUstar_next (by decide +kernel) (by decide +kernel) hname.1 (by decide +kernel)
      (by decide +kernel) hname.2.1, hname.2.2,
    Dfs.seedFromUstar_end (by decide +kernel) (by decide +kernel)]
  have h₁ : Dfs.seedEntry L (headerAt sampleArchive) etcPath =
      Dfs.orExists ((Operation.createDirectory etcPath 0 0 0).program L) := by
    have hmode : (headerAt sampleArchive).mode = 0 ∧ (headerAt sampleArchive).uid = 0 ∧
        (headerAt sampleArchive).gid = 0 := by decide +kernel
    rw [Dfs.seedEntry, if_neg (by decide), if_pos (by decide +kernel), hmode.1, hmode.2.1,
      hmode.2.2]
    rfl
  have h₂ : Dfs.seedEntry L (headerAt (sampleArchive.drop 512)) hostnamePath =
      (Operation.writeFile hostnamePath 0 (List.replicate 10 97) true 0 0 0).program L := by
    rw [Dfs.seedEntry, if_neg (by decide), if_neg (by decide +kernel), if_pos (by decide +kernel)]
    have hdata : (headerAt (sampleArchive.drop 512)).data = List.replicate 10 97 ∧
        (headerAt (sampleArchive.drop 512)).mode = 0 ∧
        (headerAt (sampleArchive.drop 512)).uid = 0 ∧
        (headerAt (sampleArchive.drop 512)).gid = 0 := by
      decide +kernel
    rw [hdata.1, hdata.2.1, hdata.2.2.1, hdata.2.2.2]
    rfl
  rw [h₁, h₂]

/-- The two paths of the archive. -/
def etcEntry : Dfs.Path := ⟨etcPath.val, rfl, by decide, Or.inr (by decide)⟩

def hostnameEntry : Dfs.Path := ⟨hostnamePath.val, rfl, by decide, Or.inr (by decide)⟩

/-- The nodes that are made for them. -/
def etcNode : Dfs.Node := (Dfs.newNode etcEntry Dfs.nodeDirectory 0 0 0).stored

def hostnameNode : Dfs.Node := (Dfs.newNode hostnameEntry Dfs.nodeFile 0 0 0).stored

/-- The names on a fresh volume, before and after the archive is read. -/
theorem create_sample :
    let v := formatVol sampleDfs fun _ => zeroSector
    v.create etcEntry Dfs.nodeDirectory 0 0 0 = .ok (1, etcNode) ∧
    (v.setNode 1 etcNode).create hostnameEntry Dfs.nodeFile 0 0 0 = .ok (2, hostnameNode) ∧
    ((v.setNode 1 etcNode).setNode 2 hostnameNode).create etcEntry Dfs.nodeDirectory 0o755 0 0 =
      .error .alreadyExists ∧
    ((v.setNode 1 etcNode).setNode 2 hostnameNode).find hostnamePath.val = some 2 := by
  decide +kernel

/-- **The sample is stored.** -/
theorem run_fillDfs_sample {d d₀ : ℕ → Sector}
    (hd : Represents sampleDfs d (formatVol sampleDfs d₀)) :
    ∃ d', (fillDfs sampleDfs samplePayloads (some sampleConfig) none).run d = (.ok (), d') := by
  obtain ⟨hetc, hhost, hagain, hfind⟩ := create_sample
  obtain ⟨v, hv⟩ : ∃ v, v = formatVol sampleDfs d₀ := ⟨_, rfl⟩
  have hnodes : v.nodes = (formatVol sampleDfs fun _ => zeroSector).nodes := hv ▸ rfl
  have hpacked : v.Packed sampleDfs sampleDfs.dataLba := hv ▸ Dfs.packed_formatVol _ d₀
  have hexact : v.Exact sampleDfs := hv ▸ Dfs.formatVol_accounted d₀
  have hnodes₁ := congrArg (Function.update · 1 etcNode) hnodes
  have hnodes₂ := congrArg (Function.update · 2 hostnameNode) hnodes₁
  rw [← hv] at hd
  -- The archive.
  obtain ⟨hd₁, hacc₁, hr₁⟩ := Dfs.run_createDirectory hd hexact etcPath
    (p := etcEntry) rfl (by decide) ((Dfs.Vol.create_of_nodes hnodes ..).trans hetc)
  obtain ⟨v₂, hd₂, hacc₂, hext₂, hr₂⟩ := Dfs.run_writeFile_packed hd₁ hacc₁ hostnamePath
    (p := hostnameEntry) rfl (by decide) ((Dfs.Vol.create_of_nodes hnodes₁ ..).trans hhost)
    ⟨hpacked.1, hpacked.2⟩ (List.replicate 10 97) (by decide) (by decide) (by decide)
  generalize hrun₁ : (Operation.createDirectory etcPath 0 0 0).run sampleDfs d = s₁ at *
  obtain ⟨r₁, d₁⟩ := s₁
  obtain rfl : r₁ = .ok () := hr₁
  generalize hrun₂ : (Operation.writeFile hostnamePath 0 (List.replicate 10 97) true 0 0 0).run
    sampleDfs d₁ = s₂ at *
  obtain ⟨r₂, d₂⟩ := s₂
  obtain rfl : r₂ = .ok () := hr₂
  have hseed : (Dfs.seedFromUstar sampleDfs sampleArchive).run.run (commitRun sampleDfs) d =
      (.ok (), d₂) := by
    rw [seed_sample, run_bind_eq (Dfs.run_orExists hrun₁), if_neg (by simp), andThen_ok,
      run_bind_eq hrun₂]
    rfl
  -- The configuration.
  obtain ⟨hd₃, hr₃⟩ := Dfs.run_createDirectory_error hd₂ hacc₂ etcPath (p := etcEntry) rfl
    (by decide) (((Dfs.Vol.create_congr hext₂.kinds hext₂.paths _ _ _ _ _).trans
      (Dfs.Vol.create_of_nodes hnodes₂ ..)).trans hagain)
  generalize hrun₃ : (Operation.createDirectory etcPath 0o755 0 0).run sampleDfs d₂ = s₃ at *
  obtain ⟨r₃, d₃⟩ := s₃
  obtain rfl : r₃ = .error .alreadyExists := hr₃
  have hfind₂ : v₂.find hostnamePath.val = some 2 := by
    rw [hext₂.find, ← hfind]
    exact Dfs.Vol.find_congr (fun j => congrArg (fun nodes => (nodes j).kind) hnodes₂)
      (fun j => congrArg (fun nodes => (nodes j).path) hnodes₂) _
  obtain ⟨-, -, -, -, hr₄⟩ := Dfs.run_writeFile_growing hd₃ hacc₂ hostnamePath
    (p := hostnameEntry) rfl (by decide) hfind₂ hext₂.growing 0 0 (hostname sampleConfig)
    (Nat.zero_le _) (by decide) (by decide) (by decide) (by decide) (by decide) true 0o644 0 0
  obtain ⟨n, d₄, hwrite⟩ := Operation.exists_writeFile (hr₄ (by decide))
  have hexists : (Dfs.orExists (Dfs.createDirectory sampleDfs etcPath 0o755 0 0)).run.run
      (commitRun sampleDfs) d₂ = (.ok (), d₃) := (Dfs.run_orExists hrun₃).trans (by rw [if_pos rfl])
  refine ⟨d₄, ?_⟩
  unfold fillDfs
  refine (DiskM.run_bind (onDfs_eq_ok.mpr hseed)).trans ?_
  have hstore : (storeAccounts sampleDfs sampleConfig none).run d₂ = (.ok (), d₄) := by
    unfold storeAccounts
    refine (DiskM.run_bind (onDfs_eq_ok.mpr hexists)).trans ?_
    exact DiskM.run_bind (onDfs_eq_ok.mpr hwrite)
  exact DiskM.run_bind hstore

/-- The installation of the sample. -/
def installSample : DiskM InstallError Unit :=
  installConfigured (fun _ _ _ => none) sampleSectors ⟨0, 0, 0, 0⟩ none samplePayloads
    (some sampleConfig)

theorem checkInstall_sample : ∃ plan, checkInstall (fun _ _ _ => none) sampleSectors none
    samplePayloads (some sampleConfig) = .ok (none, plan) ∧ planEsp samplePayloads = .ok plan := by
  have hplan : (planEsp samplePayloads).isOk := by decide +kernel
  obtain ⟨plan, hplan⟩ : ∃ plan, planEsp samplePayloads = .ok plan := by
    cases h : planEsp samplePayloads with
    | error e => rw [h] at hplan; cases hplan
    | ok plan => exact ⟨plan, rfl⟩
  refine ⟨plan, ?_, hplan⟩
  have hvalid : ¬ (some sampleConfig).any fun config => ¬ validateInstallConfig config := by
    decide +kernel
  rw [checkInstall, if_neg hvalid, hplan]
  rfl

/-- **The installation succeeds**, on every disk. -/
theorem run_installSample (d : ℕ → Sector) : ∃ d₃ d', Dfs.Formats sampleDfs d₃ ∧
    (fillDfs sampleDfs samplePayloads (some sampleConfig) none).run d₃ = (.ok (), d') ∧
    installSample.run d = (.ok (), d') := by
  obtain ⟨plan, hcheck, hplan⟩ := checkInstall_sample
  obtain ⟨d₂, hrun⟩ := @run_installConfigured _ _ ⟨0, 0, 0, 0⟩ _ _ _ _ _ hcheck (by decide)
    (by decide) hplan d
  obtain ⟨d₃, hformat, hrep⟩ := Dfs.run_format sampleDfs d₂
  obtain ⟨d', hfill⟩ := run_fillDfs_sample hrep
  refine ⟨d₃, d', ⟨d₂, hformat⟩, hfill, hrun.trans ?_⟩
  refine (DiskM.run_bind (formatDfs_eq_ok.mpr ⟨?_, hformat⟩)).trans hfill
  exact Dfs.makeLayout_self sampleDfs

/-- The archive has a host name of ten bytes, and the configuration one of nine. -/
theorem headers_sample : ¬ NoLonger (headers sampleArchive) hostnamePath.val 9 := by
  have hnext : (headerAt sampleArchive).rest.drop (Overlay.paddedSize 0) =
      sampleArchive.drop 512 := by decide +kernel
  have hsize : (headerAt sampleArchive).size = some 0 := by decide +kernel
  have hmem : headerAt (sampleArchive.drop 512) ∈ headers sampleArchive := by
    rw [Dfs.headers_of_next (by decide +kernel) (by decide +kernel), hsize, elim_some, hnext,
      Dfs.headers_of_next (by decide +kernel) (by decide +kernel)]
    exact List.mem_cons_of_mem _ List.mem_cons_self
  intro h
  exact absurd (h _ hmem (by decide +kernel) (by decide +kernel)) (by decide +kernel)

/-- **A longer file of the archive keeps its end**: the tenth byte is still there. -/
theorem not_stored_sample : ∃ d', installSample.run (fun _ => zeroSector) = (.ok (), d') ∧
    validateInstallConfig sampleConfig ∧
    ¬ Stored sampleSectors d' hostnamePath (hostname sampleConfig) := by
  obtain ⟨d₃, d', hformats, hfill, hrun⟩ := run_installSample fun _ => zeroSector
  refine ⟨d', hrun, by decide +kernel, fun h => headers_sample ?_⟩
  exact (stores_of_fillDfs hformats (Dfs.makeLayout_self sampleDfs) (by decide +kernel)
    (fun db hdb => by cases hdb) hfill).1.mp h

theorem stores_iff_sample : ∃ d', installSample.run (fun _ => zeroSector) = (.ok (), d') ∧
    ((Stored sampleSectors d' hostnamePath (hostname sampleConfig) ∧
        (sampleConfig.addUser ≠ 0 → ∃ db,
          makeDatabase (fun _ _ _ => none) none sampleConfig = some db ∧
            Stored sampleSectors d' usersPath db)) ↔
      NoLonger (headers samplePayloads.ramfsImage) hostnamePath.val
          (hostname sampleConfig).length ∧
        (sampleConfig.addUser ≠ 0 →
          NoLonger (headers samplePayloads.ramfsImage) usersPath.val 100)) := by
  obtain ⟨-, d', -, -, hrun⟩ := run_installSample fun _ => zeroSector
  exact ⟨d', hrun, stores_iff (by decide) hrun⟩

end Sample

end Installer

end ImagineOS
