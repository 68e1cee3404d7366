import ImagineOS.Checked
import ImagineOS.Installer.Fat
import ImagineOS.Installer.PartitionTable

/-!
# Installer: the sectors of the FAT16 partition

When the installer accepts its payloads, it assigns them clusters that follow each other from the
fifth (`Consecutive`). So the entries that it sets in the table are distinct, and so are the sectors
that it writes, all of them in the partition; its run on a device that never fails leaves exactly
these sectors (`onDevice_formatFat16`).
-/

namespace ImagineOS.Installer

open BlockProgram Fallible

/-! ### What the checks leave -/

/-- Files whose clusters follow each other from a first one, and hold their contents. -/
def Consecutive : ℕ → List FileToInstall → Prop
  | _, [] => True
  | first, file :: files =>
    file.firstCluster = first ∧ 0 < file.clusterCount ∧
      file.contents.length ≤ file.clusterCount * (sectorsPerCluster * sectorSize) ∧
      file.contents.length < 2 ^ 32 ∧ Consecutive (first + file.clusterCount) files

/-- The number of clusters of all the files. -/
def clusterTotal (files : List FileToInstall) : ℕ := (files.map FileToInstall.clusterCount).sum

theorem clusterTotal_cons (file : FileToInstall) (files : List FileToInstall) :
    clusterTotal (file :: files) = file.clusterCount + clusterTotal files := List.sum_cons

/-- A file, less its clusters. -/
def FileToInstall.source (file : FileToInstall) : Vector UInt8 11 × List UInt8 × List UInt8 :=
  (file.name, file.longName, file.contents)

/-- A plan for payloads that fit. -/
structure EspPlan.Accepted (plan : EspPlan) (payloads : Payloads) : Prop where
  fatSectors : plan.fatSectors = 128
  dataStart : plan.dataStart = 2337
  source : plan.files.map FileToInstall.source = payloads.files.map FileToInstall.source
  consecutive : Consecutive 5 plan.files
  fits : 5 + clusterTotal plan.files ≤ 32733

theorem clustersFor_eq {contents : List UInt8} {clusters : ℕ}
    (h : clustersFor contents = .ok clusters) : clusters = (contents.length + 4095) / 4096 := by
  rw [clustersFor] at h
  split at h
  · cases h
  · exact (Except.ok.inj h).symm

variable {next : ℕ} {files : List FileToInstall}

/-- **The loop that assigns the clusters.** -/
theorem assignClusters_spec {capacity : ℕ} {files' : List FileToInstall}
    (hcapacity : capacity + 2 < 2 ^ 16) (hnext : next ≤ capacity + 2)
    (h : assignClusters capacity next files = .ok files') :
    Consecutive next files' ∧ next + clusterTotal files' ≤ capacity + 2 ∧
      files'.map FileToInstall.source = files.map FileToInstall.source := by
  have hcluster : sectorsPerCluster * sectorSize = 4096 := rfl
  induction files generalizing next files' with
  | nil =>
    cases h
    exact ⟨trivial, hnext, rfl⟩
  | cons file files ih =>
    rw [assignClusters] at h
    split at h
    · cases h
    rename_i hlength
    obtain ⟨clusters, hclusters, h⟩ := bind_eq_ok.mp h
    have heq := clustersFor_eq hclusters
    split at h
    · cases h
    rename_i hfits
    rw [not_or] at hfits
    obtain ⟨rest, hrest, h⟩ := bind_eq_ok.mp h
    obtain rfl := Except.ok.inj h
    obtain ⟨hconsecutive, htotal, hsource⟩ := ih (by omega) hrest
    have hmod : clusters % 2 ^ 16 = clusters := Nat.mod_eq_of_lt (by omega)
    have hfirst : next % 2 ^ 16 = next := Nat.mod_eq_of_lt (by omega)
    refine ⟨?_, ?_, ?_⟩
    · simp only [Consecutive, hmod, hfirst, hcluster]
      exact ⟨trivial, by omega, by omega, by omega, hconsecutive⟩
    · simp only [clusterTotal_cons, hmod]
      omega
    · rw [List.map_cons, List.map_cons, hsource]
      rfl

theorem calculateFatSectors_eq {fatSectors : ℕ}
    (h : calculateFatSectors files = .ok fatSectors) : fatSectors = 128 := by
  rw [calculateFatSectors, show settleFatSectors 2 1 = some 128 from rfl] at h
  change (if _ then _ else _) = _ at h
  split at h
  · cases h
  obtain ⟨used, -, h⟩ := bind_eq_ok.mp h
  split at h
  · cases h
  · exact (Except.ok.inj h).symm

/-- **What the checks leave.** -/
theorem accepted_of_planEsp {payloads : Payloads} {plan : EspPlan}
    (h : planEsp payloads = .ok plan) : plan.Accepted payloads := by
  rw [planEsp] at h
  split at h
  · cases h
  obtain ⟨fatSectors, hsectors, h⟩ := bind_eq_ok.mp h
  obtain rfl := calculateFatSectors_eq hsectors
  obtain ⟨files, hfiles, h⟩ := bind_eq_ok.mp h
  obtain rfl := Except.ok.inj h
  obtain ⟨hconsecutive, hfits, hsource⟩ := assignClusters_spec (by decide) (by decide) hfiles
  exact ⟨rfl, rfl, hsource, hconsecutive, hfits⟩

variable {first : ℕ} {file : FileToInstall}

theorem Consecutive.mem (h : Consecutive first files) (hfile : file ∈ files) :
    first ≤ file.firstCluster ∧ file.firstCluster + file.clusterCount ≤ first + clusterTotal files ∧
      0 < file.clusterCount ∧ file.contents.length ≤ file.clusterCount * 4096 ∧
      file.contents.length < 2 ^ 32 := by
  have hcluster : sectorsPerCluster * sectorSize = 4096 := rfl
  induction files generalizing first with
  | nil => simp at hfile
  | cons f files ih =>
    obtain ⟨hfirst, hpos, hlength, hsize, hrest⟩ := h
    rw [hcluster] at hlength
    rw [clusterTotal_cons]
    rcases List.mem_cons.mp hfile with rfl | hfile
    · omega
    · have h := ih hrest hfile
      omega

/-! ### The file allocation table -/

/-- The entry of a cluster in the bytes of a table. -/
def fatWord (fat : ℕ → UInt8) (cluster : ℕ) : ℕ := leNat [fat (cluster * 2), fat (cluster * 2 + 1)]

/-- The entries of a table, in the order in which they are set. -/
def tableEntries (files : List FileToInstall) : List (ℕ × ℕ) :=
  [(2, fatEoc), (3, fatEoc), (4, fatEoc)] ++ files.flatMap chainEntries

theorem fatWord_setFatEntry (fat : ℕ → UInt8) {cluster : ℕ} (hnext : next < 2 ^ 16) :
    fatWord (setFatEntry fat cluster next) = Function.update (fatWord fat) cluster next := by
  funext c
  by_cases h : c = cluster
  · subst h
    rw [Function.update_self]
    have hword : [setFatEntry fat c next (c * 2), setFatEntry fat c next (c * 2 + 1)] =
        leBytes 2 next := by
      simp [setFatEntry, leBytes]
    rw [fatWord, hword, leNat_leBytes hnext]
  · rw [Function.update_of_ne h, fatWord, fatWord]
    have hother : ∀ i, i / 2 = c → setFatEntry fat cluster next i = fat i := fun i hi =>
      if_neg (by omega)
    rw [hother (c * 2) (by omega), hother (c * 2 + 1) (by omega)]

theorem fatWord_foldl {entries : List (ℕ × ℕ)} (fat : ℕ → UInt8)
    (h : ∀ entry ∈ entries, entry.2 < 2 ^ 16) :
    fatWord (entries.foldl (fun fat entry => setFatEntry fat entry.1 entry.2) fat) =
      applyWrites entries (fatWord fat) := by
  induction entries generalizing fat with
  | nil => rfl
  | cons entry entries ih =>
    rw [List.foldl_cons, ih _ fun e he => h e (List.mem_cons_of_mem _ he),
      fatWord_setFatEntry _ (h entry List.mem_cons_self)]
    rfl

theorem map_fst_chainEntries (file : FileToInstall) :
    (chainEntries file).map Prod.fst = List.range' file.firstCluster file.clusterCount := by
  rw [chainEntries, List.map_map, List.range'_eq_map_range]
  rfl

theorem flatMap_range'_of_consecutive (h : Consecutive first files) :
    files.flatMap (fun file => List.range' file.firstCluster file.clusterCount) =
      List.range' first (clusterTotal files) := by
  induction files generalizing first with
  | nil => rfl
  | cons file files ih =>
    obtain ⟨rfl, -, -, -, hrest⟩ := h
    rw [List.flatMap_cons, ih hrest, clusterTotal_cons]
    exact List.range'_append_1

/-- **An entry of the table is what was set.** -/
theorem fatWord_fatTable (h : Consecutive 5 files)
    (hfits : 5 + clusterTotal files ≤ 32733) {cluster : ℕ}
    (hmem : (cluster, next) ∈ tableEntries files) : fatWord (fatTable files) cluster = next := by
  have hnext : ∀ entry ∈ tableEntries files, entry.2 < 2 ^ 16 := by
    intro entry hentry
    rcases List.mem_append.mp hentry with hentry | hentry
    · have hall : ∀ entry ∈ [(2, fatEoc), (3, fatEoc), (4, fatEoc)], entry.2 < 2 ^ 16 := by decide
      exact hall entry hentry
    · obtain ⟨file, hfile, hentry⟩ := List.mem_flatMap.mp hentry
      obtain ⟨offset, hoffset, rfl⟩ := List.mem_map.mp hentry
      have hoffset := List.mem_range.mp hoffset
      have hfile := h.mem hfile
      dsimp only
      split
      · decide
      · omega
  have hkeys : ((tableEntries files).map Prod.fst).Nodup := by
    have hrange : (tableEntries files).map Prod.fst = List.range' 2 (3 + clusterTotal files) := by
      rw [tableEntries, List.map_append, List.map_flatMap, ← List.range'_append_1,
        ← flatMap_range'_of_consecutive h]
      exact congrArg _ (List.flatMap_congr fun file _ => map_fst_chainEntries file)
    rw [hrange]
    exact List.nodup_range'
  have htable : fatTable files = (tableEntries files).foldl
      (fun fat entry => setFatEntry fat entry.1 entry.2)
        fun i => [0xf8, 0xff, 0xff, 0xff].getD i 0 := by
    rw [tableEntries, List.foldl_append, List.foldl_flatMap]
    rfl
  rw [htable, fatWord_foldl _ hnext]
  exact applyWrites_of_mem _ hkeys hmem

/-! ### The sectors that are written -/

/-- The sectors of a directory. -/
def directoryWrites (firstLba sectorCount : ℕ) (sectors : ℕ → Sector) : List (ℕ × Sector) :=
  (List.range sectorCount).map fun sectorIndex => (firstLba + sectorIndex, sectors sectorIndex)

/-- The sectors of a file. -/
def fileWrites (file : FileToInstall) : List (ℕ × Sector) :=
  (dataLbas 2337 file).zip (dataSectors file.contents (file.clusterCount * sectorsPerCluster) 0)

/-- The sectors that are written, in their order. -/
def espWrites (time : BitVec 64) (files : List FileToInstall) : List (ℕ × Sector) :=
  (espStart, bootSector time 128) :: (fatWrites 128 (fatTable files) ++
    (directoryWrites 2305 32 (directorySector rootEntries [files[0]!, files[5]!]) ++
      directoryWrites 2337 8 (plainDirectorySector efiEntries) ++
      directoryWrites 2345 8 (directorySector efiBootEntries [files[1]!]) ++
      directoryWrites 2353 8 (directorySector systemBootEntries
        [files[2]!, files[3]!, files[4]!]) ++
      files.flatMap fileWrites))

theorem length_dataSectors (contents : List UInt8) (sectors copied : ℕ) :
    (dataSectors contents sectors copied).length = sectors := by
  induction sectors generalizing copied with
  | zero => rfl
  | succ sectors ih => rw [dataSectors, List.length_cons, ih]

theorem flatMap_range_eight (base count : ℕ) :
    (List.range count).flatMap (fun k => (List.range 8).map fun i => base + k * 8 + i) =
      List.range' base (count * 8) := by
  induction count with
  | zero => rfl
  | succ count ih =>
    rw [show List.range (count + 1) = List.range count ++ [count] from List.range_succ,
      List.flatMap_append, ih, Nat.succ_mul, ← List.range'_append_1, List.flatMap_cons,
      List.flatMap_nil, List.append_nil, ← List.range'_eq_map_range]

theorem dataLbas_eq (hfirst : 2 ≤ file.firstCluster) :
    dataLbas 2337 file =
      List.range' (2337 + (file.firstCluster - 2) * 8) (file.clusterCount * 8) := by
  rw [← flatMap_range_eight]
  refine List.flatMap_congr fun k _ => List.map_congr_left fun i _ => ?_
  rw [show sectorsPerCluster = 8 from rfl]
  omega

theorem map_fst_fileWrites (hfirst : 2 ≤ file.firstCluster) :
    (fileWrites file).map Prod.fst =
      List.range' (2337 + (file.firstCluster - 2) * 8) (file.clusterCount * 8) := by
  rw [fileWrites, List.map_fst_zip, dataLbas_eq hfirst]
  rw [dataLbas_eq hfirst, List.length_range', length_dataSectors]
  exact le_rfl

theorem map_fst_files (h : Consecutive first files)
    (hfirst : 2 ≤ first) : (files.flatMap fileWrites).map Prod.fst =
      List.range' (2337 + (first - 2) * 8) (clusterTotal files * 8) := by
  induction files generalizing first with
  | nil => rfl
  | cons file files ih =>
    obtain ⟨rfl, -, -, -, hrest⟩ := h
    rw [List.flatMap_cons, List.map_append, ih hrest (by omega), map_fst_fileWrites hfirst,
      clusterTotal_cons, Nat.add_mul, ← List.range'_append_1]
    congr 2
    omega

theorem map_fst_directoryWrites (firstLba sectorCount : ℕ) (sectors : ℕ → Sector) :
    (directoryWrites firstLba sectorCount sectors).map Prod.fst =
      List.range' firstLba sectorCount := by
  rw [directoryWrites, List.map_map, List.range'_eq_map_range]
  rfl

theorem map_fst_espWrites (h : Consecutive 5 files)
    (time : BitVec 64) : (espWrites time files).map Prod.fst =
      espStart :: ((fatWrites 128 (fatTable files)).map Prod.fst ++
        List.range' 2305 (56 + clusterTotal files * 8)) := by
  have hfiles := map_fst_files h (by omega)
  have happend : ∀ n, List.range' 2305 (56 + n) = List.range' 2305 32 ++ List.range' 2337 8 ++
      List.range' 2345 8 ++ List.range' 2353 8 ++ List.range' 2361 n := fun n => by
    rw [show 56 + n = 32 + 8 + 8 + 8 + n by omega]
    simp only [← List.range'_append_1]
  rw [espWrites, List.map_cons, List.map_append, List.map_append, List.map_append,
    List.map_append, List.map_append, map_fst_directoryWrites, map_fst_directoryWrites,
    map_fst_directoryWrites, map_fst_directoryWrites, hfiles, happend]

theorem mem_map_fst_fatWrites {fat : ℕ → UInt8} {lba : ℕ}
    (h : lba ∈ (fatWrites 128 fat).map Prod.fst) : 2049 ≤ lba ∧ lba < 2305 := by
  have hstart : espStart = 2048 := rfl
  obtain ⟨w, hw, rfl⟩ := List.mem_map.mp h
  obtain ⟨index, hindex, hw⟩ := List.mem_flatMap.mp hw
  have hindex := List.mem_range.mp hindex
  simp only [List.mem_cons, List.not_mem_nil, or_false] at hw
  rcases hw with rfl | rfl <;> dsimp only <;> omega

theorem nodup_fatWrites (fat : ℕ → UInt8) : ((fatWrites 128 fat).map Prod.fst).Nodup := by
  rw [fatWrites, List.map_flatMap, List.nodup_flatMap]
  refine ⟨fun index _ => by simp, ?_⟩
  refine List.nodup_range.imp_of_mem fun {i j} hi hj hne => ?_
  have hi := List.mem_range.mp hi
  have hj := List.mem_range.mp hj
  refine List.disjoint_left.mpr fun lba h₁ h₂ => ?_
  simp only [List.map_cons, List.map_nil, List.mem_cons, List.not_mem_nil, or_false] at h₁ h₂
  omega

/-- **No sector is written twice.** -/
theorem nodup_espWrites (h : Consecutive 5 files)
    (time : BitVec 64) : ((espWrites time files).map Prod.fst).Nodup := by
  have hstart : espStart = 2048 := rfl
  rw [map_fst_espWrites h, List.nodup_cons, List.nodup_append]
  refine ⟨fun hmem => ?_, nodup_fatWrites _, List.nodup_range', fun a ha b hb => ?_⟩
  · rcases List.mem_append.mp hmem with hmem | hmem
    · have := mem_map_fst_fatWrites hmem
      omega
    · have := (List.mem_range'_1.mp hmem).1
      omega
  · have ha := mem_map_fst_fatWrites ha
    have hb := (List.mem_range'_1.mp hb).1
    omega

/-- **Every sector that is written is in the partition.** -/
theorem mem_espWrites (h : Consecutive 5 files)
    (hfits : 5 + clusterTotal files ≤ 32733) (time : BitVec 64) :
    ∀ w ∈ espWrites time files, espStart ≤ w.1 ∧ w.1 < espStart + espSectors := by
  have hstart : espStart = 2048 ∧ espSectors = 262144 := ⟨rfl, rfl⟩
  intro w hw
  have hmem : w.1 ∈ (espWrites time files).map Prod.fst := List.mem_map_of_mem hw
  rw [map_fst_espWrites h] at hmem
  rcases List.mem_cons.mp hmem with hmem | hmem
  · omega
  · rcases List.mem_append.mp hmem with hmem | hmem
    · have := mem_map_fst_fatWrites hmem
      omega
    · have := List.mem_range'_1.mp hmem
      omega

/-! ### The run -/

section Run

variable {α : Type} {d : ℕ → Sector}

theorem onDevice_writeSectors (ws : List (ℕ × Sector)) :
    onDevice (writeSectors InstallError.block ws) d = (.ok (), applyWrites ws d) :=
  run_writeSectors ws d

theorem onDevice_writeSectors_bind (ws : List (ℕ × Sector)) (f : Unit → InstallProgram Empty α) :
    onDevice (writeSectors .block ws >>= f) d = onDevice (f ()) (applyWrites ws d) :=
  run_bind_eq (onDevice_writeSectors ws)

theorem onDevice_forM (files : List FileToInstall) :
    onDevice (files.forM (writeFileData 2337)) d =
      (.ok (), applyWrites (files.flatMap fileWrites) d) := by
  induction files generalizing d with
  | nil => rfl
  | cons file files ih =>
    rw [List.flatMap_cons, applyWrites_append, ← ih]
    exact onDevice_writeSectors_bind (fileWrites file) fun _ => files.forM (writeFileData 2337)

theorem writesIn_forM {allowed : ℕ → Prop}
    (h : ∀ file ∈ files, ∀ w ∈ fileWrites file, allowed w.1) :
    (files.forM (writeFileData 2337) : InstallProgram Empty Unit).run.WritesIn allowed := by
  induction files with
  | nil => exact trivial
  | cons file files ih =>
    exact writesIn_bind (writesIn_writeSectors (h file List.mem_cons_self)) fun _ =>
      ih fun f hf => h f (List.mem_cons_of_mem _ hf)

theorem writeDirectoryWithFiles_eq {firstLba sectorCount : ℕ} {entries : List DirectoryEntry}
    (hcount : entries.length + files.length * 2 ≤ sectorCount * 16)
    (hnames : ∀ file ∈ files, file.longName.length ≤ 13) :
    (writeDirectoryWithFiles firstLba sectorCount entries files : InstallProgram Empty Unit) =
      writeSectors .block (directoryWrites firstLba sectorCount
        (directorySector entries files)) := by
  refine if_neg fun h => ?_
  rcases h with h | ⟨file, hfile, h⟩
  · omega
  · have := hnames file hfile
    omega

end Run

/-- The files of the payloads, each with its clusters. -/
def Payloads.installed (payloads : Payloads) (first count : ℕ → ℕ) : List FileToInstall :=
  payloads.files.mapIdx fun i file =>
    { file with firstCluster := first i, clusterCount := count i }

theorem exists_installed {files' : List FileToInstall}
    (h : files.map FileToInstall.source = files'.map FileToInstall.source) :
    ∃ first count : ℕ → ℕ, files = files'.mapIdx fun i file =>
      { file with firstCluster := first i, clusterCount := count i } := by
  have hlength : files.length = files'.length := by simpa using congrArg List.length h
  refine ⟨fun i => files[i]!.firstCluster, fun i => files[i]!.clusterCount,
    List.ext_getElem (by simpa using hlength) fun i h₁ h₂ => ?_⟩
  have hi : i < files'.length := by omega
  have hsource : files[i].source = files'[i].source := by
    have := congrArg (·[i]?) h
    simpa [h₁, hi] using this
  simp only [FileToInstall.source, Prod.mk.injEq] at hsource
  rw [List.getElem_mapIdx, ← hsource.1, ← hsource.2.1, ← hsource.2.2]
  simp only [getElem!_pos files i h₁]

section Image

variable {payloads : Payloads} {first count : ℕ → ℕ} {time : BitVec 64}

theorem names_installed (h : 0 < 11) : ∀ file ∈ payloads.installed first count,
    file.name[0] ≠ 0 ∧ file.longName.length ≤ 13 := by
  simp [Payloads.installed, Payloads.files]

/-- The program, when the payloads are accepted. -/
theorem formatFat16_eq (time : BitVec 64) (payloads : Payloads) (first count : ℕ → ℕ) :
    let files := payloads.installed first count
    (formatFat16 time ⟨128, 2337, files⟩ : InstallProgram Empty Unit) = (do
      writeSector .block espStart (bootSector time 128)
      writeSectors .block (fatWrites 128 (fatTable files))
      writeSectors .block (directoryWrites 2305 32
        (directorySector rootEntries [files[0]!, files[5]!]))
      writeSectors .block (directoryWrites 2337 8 (plainDirectorySector efiEntries))
      writeSectors .block (directoryWrites 2345 8 (directorySector efiBootEntries [files[1]!]))
      writeSectors .block (directoryWrites 2353 8 (directorySector systemBootEntries
        [files[2]!, files[3]!, files[4]!]))
      files.forM (writeFileData 2337)) := by
  intro files
  have hnames : ∀ file ∈ files, file.longName.length ≤ 13 := fun file hfile =>
    (names_installed (by decide) file hfile).2
  have hmem : ∀ i < 6, files[i]! ∈ files := fun i hi => by
    rw [getElem!_pos files i hi]
    exact List.getElem_mem _
  have hdirectory : ∀ firstLba sectorCount entries (indices : List ℕ), (∀ i ∈ indices, i < 6) →
      entries.length + indices.length * 2 ≤ sectorCount * 16 →
      (writeDirectoryWithFiles firstLba sectorCount entries (indices.map (files[·]!)) :
        InstallProgram Empty Unit) = writeSectors .block (directoryWrites firstLba sectorCount
          (directorySector entries (indices.map (files[·]!)))) := by
    intro firstLba sectorCount entries indices hlt hcount
    refine writeDirectoryWithFiles_eq (by simpa using hcount) fun file hfile => ?_
    obtain ⟨i, hi, rfl⟩ := List.mem_map.mp hfile
    exact hnames _ (hmem i (hlt i hi))
  have hroot := hdirectory (espStart + 1 + 128 * 2) espRootSectors rootEntries [0, 5] (by decide)
    (by decide)
  have hefiBoot := hdirectory (2337 + sectorsPerCluster) sectorsPerCluster efiBootEntries [1]
    (by decide) (by decide)
  have hboot := hdirectory (2337 + sectorsPerCluster * 2) sectorsPerCluster systemBootEntries
    [2, 3, 4] (by decide) (by decide)
  simp only [List.map_cons, List.map_nil] at hroot hefiBoot hboot
  rw [formatFat16]
  simp only [hroot, hefiBoot, hboot, writeDirectory]
  rfl

/-- **The run writes the sectors.** -/
theorem onDevice_formatFat16 (time : BitVec 64) (d : ℕ → Sector) :
    onDevice (formatFat16 time ⟨128, 2337, payloads.installed first count⟩) d =
      (.ok (), applyWrites (espWrites time (payloads.installed first count)) d) := by
  rw [formatFat16_eq]
  have hboot : ∀ f : Unit → InstallProgram Empty Unit,
      onDevice (writeSector .block espStart (bootSector time 128) >>= f) d =
        onDevice (f ()) (applyWrites [(espStart, bootSector time 128)] d) := fun _ => rfl
  rw [hboot]
  simp only [onDevice_writeSectors_bind, onDevice_forM, ← applyWrites_append]
  simp only [espWrites, List.cons_append, List.nil_append, List.append_assoc]

theorem writesIn_formatFat16 {allowed : ℕ → Prop}
    (h : ∀ w ∈ espWrites time (payloads.installed first count), allowed w.1) :
    (formatFat16 time ⟨128, 2337, payloads.installed first count⟩ :
      InstallProgram Empty Unit).run.WritesIn allowed := by
  simp only [espWrites, List.forall_mem_cons, List.forall_mem_append] at h
  obtain ⟨hboot, hfat, ⟨⟨⟨hroot, hefi⟩, hefiBoot⟩, hsystemBoot⟩, hfiles⟩ := h
  rw [formatFat16_eq]
  refine writesIn_bind (writesIn_writeSector hboot) fun _ =>
    writesIn_bind (writesIn_writeSectors hfat) fun _ =>
    writesIn_bind (writesIn_writeSectors hroot) fun _ =>
    writesIn_bind (writesIn_writeSectors hefi) fun _ =>
    writesIn_bind (writesIn_writeSectors hefiBoot) fun _ =>
    writesIn_bind (writesIn_writeSectors hsystemBoot) fun _ => writesIn_forM fun file hfile w hw =>
      hfiles w (List.mem_flatMap.mpr ⟨file, hfile, hw⟩)

end Image

end ImagineOS.Installer
