import ImagineOS.Installer.FatDirectories
import ImagineOS.Installer.FatSectors

/-!
# Installer: the FAT16 partition as it is read

The sectors of the partition are read as a volume: its geometry is that of the boot sector, the
chains of the directories and of the files are those of the table, the directories list what was
put in them, and the clusters of a file hold its contents. So whoever mounts the partition finds
each payload under its path (`fat_readback`).
-/

namespace ImagineOS.Installer

open BlockProgram Fallible List Sector

section Image

variable {payloads : Payloads} {first count : ℕ → ℕ} {time : BitVec 64} {D : ℕ → Sector}

/-! ### The geometry and the chains -/

theorem pairwise_bootFields (time : BitVec 64) (fatSectors : ℕ) :
    (bootFields time fatSectors).Pairwise Sector.FieldsApart := by
  simp [bootFields, Sector.FieldsApart]

theorem geometry_bootSector (time : BitVec 64) :
    Fat16.Geometry.read (bootSector time 128) = ⟨8, 1, 2, 512, 128⟩ := by
  have hslice : ∀ off bs, (off, bs) ∈ bootFields time 128 → off + bs.length ≤ 512 →
      (bootSector time 128).slice off bs.length = bs := fun off bs hmem hoff =>
    slice_putFields (pairwise_bootFields time 128) hmem hoff
  have hnat : ∀ off w n, (off, leBytes w n) ∈ bootFields time 128 → off + w ≤ 512 → n < 256 ^ w →
      leNat ((bootSector time 128).slice off w) = n := fun off w n hmem hoff hn => by
    have h := hslice off (leBytes w n) hmem (by simpa using hoff)
    rw [length_leBytes] at h
    rw [h, leNat_leBytes hn]
  have hcount := hslice 16 [2] (by simp [bootFields]) (by decide)
  rw [Fat16.Geometry.read, hnat 13 1 sectorsPerCluster (by simp [bootFields]) (by decide)
    (by decide), hnat 14 2 1 (by simp [bootFields]) (by decide) (by decide),
    hnat 17 2 espRootEntries (by simp [bootFields]) (by decide) (by decide),
    hnat 22 2 128 (by simp [bootFields]) (by decide) (by decide)]
  rw [show [(2 : UInt8)].length = 1 from rfl] at hcount
  rw [hcount]
  rfl

/-- The partition on a disk, as a volume. -/
def esp (D : ℕ → Sector) : Fat16.Volume := ⟨D, espStart⟩

/-- A disk that holds what was written. -/
def Holds (D : ℕ → Sector) (ws : List (ℕ × Sector)) : Prop := ∀ w ∈ ws, D w.1 = w.2

variable {files : List FileToInstall}

theorem geometry_esp (hD : Holds D (espWrites time files)) :
    (esp D).geometry = ⟨8, 1, 2, 512, 128⟩ := by
  rw [Fat16.Volume.geometry, ← geometry_bootSector time]
  exact congrArg _ (hD _ mem_cons_self)

theorem fatStart_esp (hD : Holds D (espWrites time files)) (copy : ℕ) :
    (esp D).fatStart copy = 2049 + copy * 128 := by
  rw [Fat16.Volume.fatStart, geometry_esp hD]
  rfl

theorem rootStart_esp (hD : Holds D (espWrites time files)) : (esp D).rootStart = 2305 := by
  rw [Fat16.Volume.rootStart, fatStart_esp hD, geometry_esp hD]
  rfl

theorem rootCount_esp (hD : Holds D (espWrites time files)) : (esp D).rootCount = 32 := by
  rw [Fat16.Volume.rootCount, geometry_esp hD]
  rfl

theorem dataStart_esp (hD : Holds D (espWrites time files)) : (esp D).dataStart = 2337 := by
  rw [Fat16.Volume.dataStart, rootStart_esp hD, rootCount_esp hD]

theorem fatSector_esp (hD : Holds D (espWrites time files)) {copy index : ℕ} (hcopy : copy < 2)
    (hindex : index < 128) :
    D ((esp D).fatStart copy + index) = fatSector (fatTable files) index := by
  rw [fatStart_esp hD]
  refine hD (_, _) (mem_cons_of_mem _ (mem_append_left _ (mem_flatMap.mpr
    ⟨index, mem_range.mpr hindex, ?_⟩)))
  obtain rfl | rfl : copy = 0 ∨ copy = 1 := by omega
  · exact mem_cons_self
  · exact mem_cons_of_mem _ mem_cons_self

theorem fatEntry_esp (hD : Holds D (espWrites time files)) {copy cluster : ℕ} (hcopy : copy < 2)
    (hcluster : cluster < 32768) :
    (esp D).fatEntry copy cluster = fatWord (fatTable files) cluster := by
  have hsize : sectorSize = 512 := rfl
  have hbyte : ∀ i < 2, (fatSector (fatTable files) (cluster * 2 / 512)).byte
      (cluster * 2 % 512 + i) = fatTable files (cluster * 2 + i) := fun i hi => by
    rw [byte_of_lt _ (by omega), fatSector, hsize]
    exact congrArg _ (by dsimp only; omega)
  rw [Fat16.Volume.fatEntry, hsize, show (esp D).disk = D from rfl,
    fatSector_esp hD hcopy (by omega), fatWord, Sector.slice, show List.range 2 = [0, 1] from rfl,
    map_cons, map_cons, map_nil, hbyte 0 (by omega), hbyte 1 (by omega)]
  rfl

theorem chain_directory (hD : Holds D (espWrites time files)) (h : Consecutive 5 files)
    (hfits : 5 + clusterTotal files ≤ 32733) {cluster : ℕ} (hcluster : cluster ∈ [2, 3, 4]) :
    (esp D).chain cluster = some [cluster] := by
  have hbound : 2 ≤ cluster ∧ cluster < 5 := by
    simp only [mem_cons, not_mem_nil, or_false] at hcluster
    omega
  have hentry : (esp D).fatEntry 0 cluster = fatEoc := by
    rw [fatEntry_esp hD (by omega) (by omega)]
    refine fatWord_fatTable h hfits (mem_append_left _ ?_)
    simpa [Prod.ext_iff] using hcluster
  have hend : Fat16.endOfChain ≤ (esp D).fatEntry 0 cluster := by
    rw [hentry]
    decide
  have hlarge : cluster + 0 < Fat16.endOfChain := by
    rw [show Fat16.endOfChain = 65528 from rfl]
    omega
  exact Fat16.follow_range hbound.1 hlarge (by decide) (by simp) hend

variable {file : FileToInstall}

/-- **The chain of a file.** -/
theorem chain_file (hD : Holds D (espWrites time files)) (h : Consecutive 5 files)
    (hfits : 5 + clusterTotal files ≤ 32733) (hfile : file ∈ files) :
    (esp D).chain file.firstCluster =
      some (List.range' file.firstCluster file.clusterCount) := by
  obtain ⟨hfirst, hlast, hpos, -, -⟩ := h.mem hfile
  have hentry : ∀ i < file.clusterCount, (esp D).fatEntry 0 (file.firstCluster + i) =
      if i + 1 = file.clusterCount then fatEoc else file.firstCluster + i + 1 := fun i hi => by
    rw [fatEntry_esp hD (by omega) (by omega)]
    refine fatWord_fatTable h hfits (mem_append_right _ (mem_flatMap.mpr
      ⟨file, hfile, mem_map.mpr ⟨i, mem_range.mpr hi, rfl⟩⟩))
  obtain ⟨n, hn⟩ : ∃ n, file.clusterCount = n + 1 := ⟨file.clusterCount - 1, by omega⟩
  have hend : Fat16.endOfChain ≤ (esp D).fatEntry 0 (file.firstCluster + n) := by
    rw [hentry n (by omega), if_pos hn.symm]
    decide
  have hlarge : file.firstCluster + n < Fat16.endOfChain := by
    rw [show Fat16.endOfChain = 65528 from rfl]
    omega
  rw [hn]
  exact Fat16.follow_range (by omega) hlarge (by omega)
    (fun i hi => by rw [hentry i (by omega), if_neg (by omega)]) hend

/-! ### The contents -/

/-- **The sectors of a file hold its contents.** -/
theorem take_dataSectors (contents : List UInt8) {sectors copied : ℕ}
    (h : contents.length - copied ≤ sectors * sectorSize) :
    ((dataSectors contents sectors copied).flatMap fun sector => sector.slice 0 sectorSize).take
      (contents.length - copied) = contents.drop copied := by
  have hsize : sectorSize = 512 := rfl
  induction sectors generalizing copied with
  | zero =>
    rw [Nat.zero_mul] at h
    rw [Nat.le_zero.mp h, take_zero, drop_eq_nil_of_le (by omega)]
  | succ sectors ih =>
    rw [Nat.succ_mul] at h
    rw [dataSectors, flatMap_cons]
    have hlength : (contents.drop copied).length = contents.length - copied := length_drop
    rcases Nat.le_total (contents.length - copied) sectorSize with hle | hle
    · rw [Nat.min_eq_left hle, take_of_length_le (l := contents.drop copied) (by omega),
        take_append_of_le_length (by rw [length_slice]; exact hle)]
      obtain ⟨rest, hrest⟩ : ∃ rest, sectorSize = contents.length - copied + rest :=
        ⟨_, (Nat.add_sub_cancel' hle).symm⟩
      rw [hrest, slice_append, take_left' (by simp)]
      exact slice_put_self _ hlength (by omega)
    · have hchunk : ((contents.drop copied).take sectorSize).length = sectorSize := by
        rw [length_take, hlength]
        omega
      rw [Nat.min_eq_right hle, slice_put_self _ hchunk (by decide),
        show contents.length - copied = sectorSize + (contents.length - (copied + sectorSize)) by
          omega, take_append, hchunk, Nat.add_sub_cancel_left, ih (by omega),
        take_of_length_le (by omega), ← drop_drop, take_append_drop]

theorem map_of_holds_zip {lbas : List ℕ} {sectors : List Sector}
    (h : Holds D (lbas.zip sectors)) (hlength : lbas.length = sectors.length) :
    lbas.map D = sectors := by
  refine ext_getElem (by simpa using hlength) fun i h₁ h₂ => ?_
  rw [getElem_map]
  refine h (_, _) (mem_iff_getElem.mpr ⟨i, ?_, getElem_zip⟩)
  rw [length_zip]
  simp only [length_map] at h₁
  omega

theorem clusterSectors_esp (hD : Holds D (espWrites time files)) (cluster : ℕ) :
    (esp D).clusterSectors cluster =
      (List.range 8).map fun i => D (2337 + (cluster - 2) * 8 + i) := by
  rw [Fat16.Volume.clusterSectors, geometry_esp hD, dataStart_esp hD]
  rfl

theorem clusterSectors_file (hD : Holds D (espWrites time files)) (h : Consecutive 5 files)
    (hfile : file ∈ files) :
    (List.range' file.firstCluster file.clusterCount).flatMap (esp D).clusterSectors =
      dataSectors file.contents (file.clusterCount * sectorsPerCluster) 0 := by
  have hfirst := (h.mem hfile).1
  have hholds : Holds D (fileWrites file) := fun w hw =>
    hD w (mem_cons_of_mem _ (mem_append_right _ (mem_append_right _
      (mem_flatMap.mpr ⟨file, hfile, hw⟩))))
  rw [← map_of_holds_zip hholds (by
    rw [dataLbas_eq (by omega), length_range', length_dataSectors]
    rfl), dataLbas, map_flatMap, range'_eq_map_range, flatMap_map]
  refine flatMap_congr fun k _ => ?_
  rw [clusterSectors_esp hD, map_map]
  rfl

/-- **A file is read back.** -/
theorem clusterBytes_file (hD : Holds D (espWrites time files)) (h : Consecutive 5 files)
    (hfile : file ∈ files) :
    ((esp D).clusterBytes (List.range' file.firstCluster file.clusterCount)).take
      file.contents.length = file.contents := by
  have hle : file.contents.length - 0 ≤
      file.clusterCount * sectorsPerCluster * sectorSize := by
    have := (h.mem hfile).2.2.2.1
    rw [show file.clusterCount * sectorsPerCluster * sectorSize = file.clusterCount * 4096 from
      Nat.mul_assoc _ 8 512]
    omega
  rw [Fat16.Volume.clusterBytes, clusterSectors_file hD h hfile]
  exact take_dataSectors file.contents hle

/-! ### The directories -/

theorem sectors_of_holds {firstLba sectorCount : ℕ} {sectors : ℕ → Sector}
    (h : Holds D (directoryWrites firstLba sectorCount sectors)) :
    (List.range sectorCount).map (fun i => D (firstLba + i)) =
      (List.range sectorCount).map sectors :=
  map_congr_left fun i hi => h (_, _) (mem_map.mpr ⟨i, hi, rfl⟩)

theorem fits_entries : ∀ entry ∈ rootEntries ++ efiEntries ++ efiBootEntries ++ systemBootEntries,
    entry.Fits := by
  have hall : ∀ entry ∈ rootEntries ++ efiEntries ++ efiBootEntries ++ systemBootEntries,
      entry.name[0] ≠ 0 ∧ entry.attributes ≠ Fat16.longNameAttributes ∧
        entry.cluster < 2 ^ 16 ∧ entry.size < 2 ^ 32 := by decide
  intro entry hentry
  obtain ⟨hname, hattributes, hcluster, hsize⟩ := hall entry hentry
  exact ⟨hname, hattributes, hcluster, hsize⟩

theorem fits_files (h : Consecutive 5 (payloads.installed first count))
    (hfits : 5 + clusterTotal (payloads.installed first count) ≤ 32733) :
    ∀ file ∈ payloads.installed first count, (directoryEntryFor file).Fits := by
  intro file hfile
  obtain ⟨-, hlast, -, -, hsize⟩ := h.mem hfile
  have hattributes : (0x20 : UInt8) ≠ Fat16.longNameAttributes := by decide
  refine ⟨(names_installed (by decide) file hfile).1, hattributes, ?_, hsize⟩
  change file.firstCluster < 2 ^ 16
  omega

/-- **The directories are listed.** -/
theorem listing_esp (hD : Holds D (espWrites time (payloads.installed first count)))
    (h : Consecutive 5 (payloads.installed first count))
    (hfits : 5 + clusterTotal (payloads.installed first count) ≤ 32733) :
    let files := payloads.installed first count
    let entriesOf := fun (entries : List DirectoryEntry) (files : List FileToInstall) =>
      (entries ++ files.map directoryEntryFor).map DirectoryEntry.read
    Fat16.listing (esp D).rootSectors = entriesOf rootEntries [files[0]!, files[5]!] ∧
    Fat16.listing ((esp D).clusterSectors 2) = entriesOf efiEntries [] ∧
    Fat16.listing ((esp D).clusterSectors 3) = entriesOf efiBootEntries [files[1]!] ∧
    Fat16.listing ((esp D).clusterSectors 4) =
      entriesOf systemBootEntries [files[2]!, files[3]!, files[4]!] := by
  intro files entriesOf
  have hwrites : ∀ w ∈ directoryWrites 2305 32 (directorySector rootEntries
        [files[0]!, files[5]!]) ++
      directoryWrites 2337 8 (plainDirectorySector efiEntries) ++
      directoryWrites 2345 8 (directorySector efiBootEntries [files[1]!]) ++
      directoryWrites 2353 8 (directorySector systemBootEntries
        [files[2]!, files[3]!, files[4]!]), D w.1 = w.2 := fun w hw =>
    hD w (mem_cons_of_mem _ (mem_append_right _ (mem_append_left _ hw)))
  simp only [forall_mem_append] at hwrites
  obtain ⟨⟨⟨hroot, hefi⟩, hefiBoot⟩, hboot⟩ := hwrites
  have hmem : ∀ i < 6, files[i]! ∈ files := fun i hi => by
    rw [getElem!_pos files i hi]
    exact getElem_mem _
  have hlisting : ∀ entries (indices : List ℕ) sectors, (∀ i ∈ indices, i < 6) →
      (∀ entry ∈ entries, entry.Fits) → entries.length + indices.length * 2 < 16 →
      Fat16.listing (directorySector entries (indices.map (files[·]!)) 0 :: sectors) =
        entriesOf entries (indices.map (files[·]!)) := by
    intro entries indices sectors hlt hentries hcount
    refine listing_directorySector sectors (by simpa using hcount) hentries ?_ ?_ <;>
      intro file hfile <;> obtain ⟨i, hi, rfl⟩ := mem_map.mp hfile
    · exact fits_files h hfits _ (hmem i (hlt i hi))
    · exact (names_installed (by decide) _ (hmem i (hlt i hi))).2
  have hentries := fits_entries
  simp only [forall_mem_append] at hentries
  obtain ⟨⟨⟨hrootFits, hefiFits⟩, hefiBootFits⟩, hbootFits⟩ := hentries
  have hplain : plainDirectorySector efiEntries 0 = directorySector efiEntries [] 0 := rfl
  refine ⟨?_, ?_, ?_, ?_⟩
  · rw [Fat16.Volume.rootSectors, rootCount_esp hD, rootStart_esp hD,
      show (esp D).disk = D from rfl, sectors_of_holds hroot, range_succ_eq_map, map_cons]
    exact hlisting rootEntries [0, 5] _ (by decide) hrootFits (by decide)
  · rw [clusterSectors_esp hD, sectors_of_holds hefi, range_succ_eq_map, map_cons, hplain]
    exact hlisting efiEntries [] _ (by decide) hefiFits (by decide)
  · rw [clusterSectors_esp hD, sectors_of_holds hefiBoot, range_succ_eq_map, map_cons]
    exact hlisting efiBootEntries [1] _ (by decide) hefiBootFits (by decide)
  · rw [clusterSectors_esp hD, sectors_of_holds hboot, range_succ_eq_map, map_cons]
    exact hlisting systemBootEntries [2, 3, 4] _ (by decide) hbootFits (by decide)

end Image

/-! ### The partition as it is mounted -/

/-- The paths of the payloads. -/
def Payloads.paths (payloads : Payloads) : List (List (List UInt8) × List UInt8) :=
  -- `/LIMINE.CNF`
  [([[76, 73, 77, 73, 78, 69, 32, 32, 67, 78, 70]], payloads.config),
    -- `/EFI/BOOT/BOOTX64.EFI`
    ([efiName.toList, bootName.toList, [66, 79, 79, 84, 88, 54, 52, 32, 69, 70, 73]], payloads.efi),
    -- `/BOOT/BOOT.ELF`
    ([bootName.toList, [66, 79, 79, 84, 32, 32, 32, 32, 69, 76, 70]], payloads.bootstrap),
    -- `/BOOT/DZIMAGE`
    ([bootName.toList, [68, 90, 73, 77, 65, 71, 69, 32, 32, 32, 32]], payloads.dzImage),
    -- `/BOOT/INITRAM.IMG`
    ([bootName.toList, [73, 78, 73, 84, 82, 65, 77, 32, 73, 77, 71]], payloads.ramfsImage),
    -- `/STARTUP.NSH`
    ([[83, 84, 65, 82, 84, 85, 80, 32, 78, 83, 72]], payloads.startup)]

/-- The paths of the directories: `/EFI`, `/EFI/BOOT` and `/BOOT`. -/
def directoryPaths : List (List (List UInt8)) :=
  [[efiName.toList], [efiName.toList, bootName.toList], [bootName.toList]]

section Mounted

variable {payloads : Payloads} {first count : ℕ → ℕ} {time : BitVec 64} {D : ℕ → Sector}

/-- What the paths lead to. -/
theorem resolve_esp (hD : Holds D (espWrites time (payloads.installed first count)))
    (h : Consecutive 5 (payloads.installed first count))
    (hfits : 5 + clusterTotal (payloads.installed first count) ≤ 32733) :
    payloads.paths.map (fun path => ((esp D).resolve path.1, path.2)) =
      (payloads.installed first count).map (fun file =>
        (some (directoryEntryFor file).read, file.contents)) ∧
    directoryPaths.map (esp D).resolve =
      [some ⟨efiName.toList, 0x10, 2, 0⟩, some ⟨bootName.toList, 0x10, 3, 0⟩,
        some ⟨bootName.toList, 0x10, 4, 0⟩] := by
  obtain ⟨hroot, hefi, hefiBoot, hboot⟩ := listing_esp hD h hfits
  have hchain : ∀ cluster ∈ [2, 3, 4], (esp D).chain cluster = some [cluster] := fun _ hc =>
    chain_directory hD h hfits hc
  have hfindEfi : (Fat16.listing (esp D).rootSectors).find? (·.name = efiName.toList) =
      some ⟨efiName.toList, 0x10, 2, 0⟩ := by
    rw [hroot]
    rfl
  have hfindBoot : (Fat16.listing (esp D).rootSectors).find? (·.name = bootName.toList) =
      some ⟨bootName.toList, 0x10, 4, 0⟩ := by
    rw [hroot]
    rfl
  have hfindEfiBoot : (Fat16.listing ((esp D).clusterSectors 2)).find?
      (·.name = bootName.toList) = some ⟨bootName.toList, 0x10, 3, 0⟩ := by
    rw [hefi]
    rfl
  have hthroughEfi : ∀ next path, (esp D).resolve (efiName.toList :: next :: path) =
      (esp D).resolveFrom ((esp D).clusterSectors 2) (next :: path) := fun next path => by
    rw [Fat16.Volume.resolve, Fat16.Volume.resolveFrom_cons _ hfindEfi (by decide)
      (hchain 2 (by decide)), flatMap_cons, flatMap_nil, append_nil]
  have hthroughEfiBoot : ∀ next path,
      (esp D).resolveFrom ((esp D).clusterSectors 2) (bootName.toList :: next :: path) =
      (esp D).resolveFrom ((esp D).clusterSectors 3) (next :: path) := fun next path => by
    rw [Fat16.Volume.resolveFrom_cons _ hfindEfiBoot (by decide) (hchain 3 (by decide)),
      flatMap_cons, flatMap_nil, append_nil]
  have hthroughBoot : ∀ next path, (esp D).resolve (bootName.toList :: next :: path) =
      (esp D).resolveFrom ((esp D).clusterSectors 4) (next :: path) := fun next path => by
    rw [Fat16.Volume.resolve, Fat16.Volume.resolveFrom_cons _ hfindBoot (by decide)
      (hchain 4 (by decide)), flatMap_cons, flatMap_nil, append_nil]
  constructor
  · simp only [Payloads.paths, map_cons, map_nil, hthroughEfi, hthroughEfiBoot, hthroughBoot]
    simp only [Fat16.Volume.resolve, Fat16.Volume.resolveFrom, hroot, hefiBoot, hboot]
    rfl
  · simp only [directoryPaths, map_cons, map_nil, hthroughEfi]
    simp only [Fat16.Volume.resolve, Fat16.Volume.resolveFrom, hfindEfi, hfindBoot, hfindEfiBoot]

/-- The chains of the directories and of the files. -/
def fileChains (files : List FileToInstall) : List (List ℕ) :=
  [[2], [3], [4]] ++ files.map fun file => List.range' file.firstCluster file.clusterCount

theorem chainOf_esp (hD : Holds D (espWrites time (payloads.installed first count)))
    (h : Consecutive 5 (payloads.installed first count))
    (hfits : 5 + clusterTotal (payloads.installed first count) ≤ 32733) :
    (directoryPaths ++ payloads.paths.map Prod.fst).map (esp D).chainOf =
      (fileChains (payloads.installed first count)).map some := by
  obtain ⟨hresolve, hdirectories⟩ := resolve_esp hD h hfits
  rw [fileChains, map_append, map_append]
  congr 1
  · have hcongr := congrArg (List.map fun resolved : Option Fat16.Entry =>
      resolved >>= fun entry => (esp D).chain entry.cluster) hdirectories
    rw [map_map] at hcongr
    refine Eq.trans hcongr ?_
    simp [chain_directory hD h hfits]
  · have hcongr := congrArg (List.map fun resolved : Option Fat16.Entry × List UInt8 =>
      resolved.1 >>= fun entry => (esp D).chain entry.cluster) hresolve
    rw [map_map, map_map] at hcongr
    rw [map_map, map_map]
    exact hcongr.trans (map_congr_left fun file hfile => chain_file hD h hfits hfile)

theorem disjoint_fileChains {files : List FileToInstall} (h : Consecutive 5 files) :
    (fileChains files).Pairwise List.Disjoint := by
  have hflatten : (fileChains files).flatten = List.range' 2 (3 + clusterTotal files) := by
    rw [fileChains, flatten_append, ← flatMap_def, flatMap_range'_of_consecutive h,
      ← range'_append_1]
    rfl
  refine (nodup_flatten.mp ?_).2
  rw [hflatten]
  exact nodup_range'

/-- **The image is read back.** When the installer accepts its payloads, every sector that it writes
is in the partition, whatever the device answers. On a device that never fails it leaves a volume
where each payload is found under its path, with its size, as the clusters of its chain; the chains
of the directories and of the files are disjoint, and each of them ends in a mark; and both copies
of the table are equal. -/
theorem fat_readback {plan : EspPlan} (hplan : planEsp payloads = .ok plan) (time : BitVec 64)
    (d : ℕ → Sector) :
    (formatFat16 time plan : InstallProgram Empty Unit).run.WritesIn
      (fun lba => espStart ≤ lba ∧ lba < espStart + espSectors) ∧
    ∃ d', onDevice (formatFat16 time plan) d = (.ok (), d') ∧
      (∀ path ∈ payloads.paths, (esp d').readFile path.1 = some path.2 ∧
        ((esp d').resolve path.1).map Fat16.Entry.size = some path.2.length) ∧
      (∃ chains : List (List ℕ), (directoryPaths ++ payloads.paths.map Prod.fst).map
          (esp d').chainOf = chains.map some ∧ chains.Pairwise List.Disjoint ∧
        ∀ chain ∈ chains, ∃ last, chain.getLast? = some last ∧
          Fat16.endOfChain ≤ (esp d').fatEntry 0 last) ∧
      ∀ index < (esp d').geometry.fatSectors,
        d' ((esp d').fatStart 0 + index) = d' ((esp d').fatStart 1 + index) := by
  obtain ⟨hsectors, hstart, hsource, h, hfits⟩ := accepted_of_planEsp hplan
  obtain ⟨fatSectors, dataStart, files⟩ := plan
  obtain ⟨first, count, rfl⟩ : ∃ first count, files = payloads.installed first count :=
    exists_installed hsource
  obtain rfl : fatSectors = 128 := hsectors
  obtain rfl : dataStart = 2337 := hstart
  obtain ⟨d', hd'⟩ : ∃ d', d' = applyWrites (espWrites time (payloads.installed first count)) d :=
    ⟨_, rfl⟩
  have hD : Holds d' (espWrites time (payloads.installed first count)) := fun w hw => by
    rw [hd']
    exact applyWrites_of_mem d (nodup_espWrites h time) hw
  obtain ⟨hresolve, hdirectories⟩ := resolve_esp hD h hfits
  refine ⟨writesIn_formatFat16 (mem_espWrites h hfits time), d', ?_, ?_, ?_, ?_⟩
  · rw [hd', onDevice_formatFat16]
  · intro path hpath
    have hmem := mem_map_of_mem (f := fun path : List (List UInt8) × List UInt8 =>
      ((esp d').resolve path.1, path.2)) hpath
    rw [hresolve] at hmem
    obtain ⟨file, hfile, heq⟩ := mem_map.mp hmem
    obtain ⟨hentry, hcontents⟩ := Prod.mk.inj heq
    rw [Fat16.Volume.readFile, ← hentry, ← hcontents]
    refine ⟨?_, rfl⟩
    change ((esp d').chain file.firstCluster >>= _) = _
    rw [chain_file hD h hfits hfile]
    exact congrArg some (clusterBytes_file hD h hfile)
  · refine ⟨_, chainOf_esp hD h hfits, disjoint_fileChains h, fun chain hchain => ?_⟩
    have hmem : some chain ∈ (fileChains (payloads.installed first count)).map some :=
      mem_map_of_mem hchain
    rw [← chainOf_esp hD h hfits] at hmem
    obtain ⟨path, -, hpath⟩ := mem_map.mp hmem
    obtain ⟨entry, -, hentry⟩ := Option.bind_eq_some_iff.mp hpath
    exact Fat16.exists_getLast_of_follow hentry
  · intro index hindex
    rw [geometry_esp hD] at hindex
    rw [fatSector_esp hD (by omega) hindex, fatSector_esp hD (by omega) hindex]

theorem fat_readback_sample :
    ∃ plan, planEsp ⟨[1], [2], [3], [4], [5], [6]⟩ = .ok plan ∧
      ∃ d', onDevice (formatFat16 0 plan) (fun _ => zeroSector) = (.ok (), d') ∧
        (esp d').readFile [bootName.toList, [66, 79, 79, 84, 32, 32, 32, 32, 69, 76, 70]] =
          some [1] := by
  obtain ⟨plan, hplan⟩ : ∃ plan, planEsp ⟨[1], [2], [3], [4], [5], [6]⟩ = .ok plan := ⟨_, rfl⟩
  obtain ⟨-, d', hrun, hfiles, -⟩ := fat_readback hplan 0 fun _ => zeroSector
  refine ⟨plan, hplan, d', hrun, ?_⟩
  exact (hfiles (_, [1]) (mem_cons_of_mem _ (mem_cons_of_mem _ mem_cons_self))).1

end Mounted

end ImagineOS.Installer
