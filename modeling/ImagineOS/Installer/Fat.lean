import ImagineOS.Installer.Gpt

/-!
# Installer: the FAT16 partition of the boot loader

The installer checks that its six payloads fit, gives each of them the next free clusters, and then
writes the partition: the boot sector, two copies of the file allocation table, the root directory,
three directories of one cluster each, and the data of the files.
-/

namespace ImagineOS

open BlockProgram

namespace Installer

def espRootEntries : ℕ := 512

def espRootSectors : ℕ := espRootEntries * 32 / sectorSize

def sectorsPerCluster : ℕ := 8

def maxFatSectors : ℕ := 256

def fatEoc : ℕ := 0xffff

structure DirectoryEntry where
  name : Vector UInt8 11
  attributes : UInt8
  cluster : ℕ
  size : ℕ
  deriving DecidableEq

structure FileToInstall where
  name : Vector UInt8 11
  longName : List UInt8
  contents : List UInt8
  firstCluster : ℕ
  clusterCount : ℕ
  deriving DecidableEq, Inhabited

/-! ### Payloads and their clusters -/

/-- The payloads that the installer is given. -/
structure Payloads where
  bootstrap : List UInt8
  dzImage : List UInt8
  ramfsImage : List UInt8
  efi : List UInt8
  config : List UInt8
  startup : List UInt8

/-- The array of files, which have no clusters yet. -/
def Payloads.files (payloads : Payloads) : List FileToInstall :=
  -- `LIMINE  CNF`, `limine.conf`
  [⟨#v[76, 73, 77, 73, 78, 69, 32, 32, 67, 78, 70],
      [108, 105, 109, 105, 110, 101, 46, 99, 111, 110, 102], payloads.config, 0, 0⟩,
    -- `BOOTX64 EFI`, `BOOTX64.EFI`
    ⟨#v[66, 79, 79, 84, 88, 54, 52, 32, 69, 70, 73],
      [66, 79, 79, 84, 88, 54, 52, 46, 69, 70, 73], payloads.efi, 0, 0⟩,
    -- `BOOT    ELF`, `bootstrap.elf`
    ⟨#v[66, 79, 79, 84, 32, 32, 32, 32, 69, 76, 70],
      [98, 111, 111, 116, 115, 116, 114, 97, 112, 46, 101, 108, 102], payloads.bootstrap, 0, 0⟩,
    -- `DZIMAGE    `, `dzImage`
    ⟨#v[68, 90, 73, 77, 65, 71, 69, 32, 32, 32, 32],
      [100, 122, 73, 109, 97, 103, 101], payloads.dzImage, 0, 0⟩,
    -- `INITRAM IMG`, `initramfs.img`
    ⟨#v[73, 78, 73, 84, 82, 65, 77, 32, 73, 77, 71],
      [105, 110, 105, 116, 114, 97, 109, 102, 115, 46, 105, 109, 103], payloads.ramfsImage, 0, 0⟩,
    -- `STARTUP NSH`, `startup.nsh`
    ⟨#v[83, 84, 65, 82, 84, 85, 80, 32, 78, 83, 72],
      [115, 116, 97, 114, 116, 117, 112, 46, 110, 115, 104], payloads.startup, 0, 0⟩]

/-- The number of clusters of a payload, unless the sum before the division overflows. -/
def clustersFor (contents : List UInt8) : Except InstallError ℕ :=
  if 2 ^ 64 ≤ contents.length + (sectorsPerCluster * sectorSize - 1) then throw .payloadTooLarge
  else pure ((contents.length + (sectorsPerCluster * sectorSize - 1)) /
    (sectorsPerCluster * sectorSize))

/-- `needed`, in a round of the loop of `calculate_fat_sectors`. -/
def neededFatSectors (fatSectors : ℕ) : ℕ :=
  let dataSectors := espSectors - 1 - fatSectors * 2 - espRootSectors
  let clusters := dataSectors / sectorsPerCluster
  ((clusters + 2) * 2 + (sectorSize - 1)) / sectorSize

/-- The loop of `calculate_fat_sectors`, with the number of rounds that it may take. -/
def settleFatSectors : ℕ → ℕ → Option ℕ
  | 0, _ => none
  | rounds + 1, fatSectors =>
    if neededFatSectors fatSectors = fatSectors then some fatSectors
    else settleFatSectors rounds (neededFatSectors fatSectors)

def calculateFatSectors (files : List FileToInstall) : Except InstallError ℕ :=
  -- the loop depends on nothing but constants, and it leaves in its second round
  match settleFatSectors 2 1 with
  | none => throw .payloadTooLarge
  | some fatSectors =>
    if fatSectors = 0 ∨ maxFatSectors < fatSectors then throw .payloadTooLarge
    else do
      let dataClusters := (espSectors - 1 - fatSectors * 2 - espRootSectors) / sectorsPerCluster
      let usedClusters ← files.foldlM (fun total file => do
        let count ← clustersFor file.contents
        if 2 ^ 64 ≤ total + count then throw .payloadTooLarge else pure (total + count)) 3
      if ¬ (4085 ≤ dataClusters ∧ dataClusters < 65525) ∨ dataClusters < usedClusters then
        throw .payloadTooLarge
      else pure fatSectors

/-- The loop that gives each file its clusters. -/
def assignClusters (clusterCapacity : ℕ) :
    ℕ → List FileToInstall → Except InstallError (List FileToInstall)
  | _, [] => pure []
  | nextCluster, file :: files =>
    if 2 ^ 32 ≤ file.contents.length then throw .payloadTooLarge
    else do
      let clusters ← clustersFor file.contents
      if clusters = 0 ∨ clusterCapacity + 2 < nextCluster + clusters then throw .payloadTooLarge
      else
        let files ← assignClusters clusterCapacity (nextCluster + clusters) files
        pure ({ file with
          firstCluster := nextCluster % 2 ^ 16
          clusterCount := clusters % 2 ^ 16 } :: files)

/-- What is decided about the partition before the first sector is written. -/
structure EspPlan where
  fatSectors : ℕ
  dataStart : ℕ
  files : List FileToInstall
  deriving DecidableEq

/-- The checks of the payloads. -/
def planEsp (payloads : Payloads) : Except InstallError EspPlan :=
  if payloads.bootstrap = [] ∨ payloads.dzImage = [] ∨ payloads.efi = [] ∨ payloads.config = [] ∨
      payloads.startup = [] ∨ payloads.ramfsImage = [] then throw .missingPayload
  else do
    let fatSectors ← calculateFatSectors payloads.files
    let dataStart := espStart + 1 + fatSectors * 2 + espRootSectors
    let clusterCapacity := (espSectors - (dataStart - espStart)) / sectorsPerCluster
    let files ← assignClusters clusterCapacity 5 payloads.files
    pure ⟨fatSectors, dataStart, files⟩

/-! ### The file allocation table -/

def setFatEntry (fat : ℕ → UInt8) (cluster next : ℕ) : ℕ → UInt8 :=
  let offset := cluster * 2
  fun i => if offset ≤ i ∧ i < offset + 2 then (leBytes 2 next).getD (i - offset) 0 else fat i

/-- The entries of the clusters of a file: each leads to the one after it. -/
def chainEntries (file : FileToInstall) : List (ℕ × ℕ) :=
  (List.range file.clusterCount).map fun offset =>
    (file.firstCluster + offset,
      if offset + 1 = file.clusterCount then fatEoc else file.firstCluster + offset + 1)

/-- `FAT_TABLE`, after the entries of the directories and of the files are set. -/
def fatTable (files : List FileToInstall) : ℕ → UInt8 :=
  let fat := fun i => [0xf8, 0xff, 0xff, 0xff].getD i 0
  let fat := [2, 3, 4].foldl (fun fat cluster => setFatEntry fat cluster fatEoc) fat
  files.foldl (fun fat file =>
    (chainEntries file).foldl (fun fat entry => setFatEntry fat entry.1 entry.2) fat) fat

/-- A sector of the table. -/
def fatSector (fat : ℕ → UInt8) (index : ℕ) : Sector := fun i => fat (index * sectorSize + i)

/-- The sectors of the two copies of the table, in the order in which they are written. -/
def fatWrites (fatSectors : ℕ) (fat : ℕ → UInt8) : List (ℕ × Sector) :=
  (List.range fatSectors).flatMap fun index =>
    [(espStart + 1 + index, fatSector fat index),
      (espStart + 1 + fatSectors + index, fatSector fat index)]

/-! ### The boot sector -/

/-- The fields of the boot sector, where `read_tsc` gives the time. -/
def bootFields (time : BitVec 64) (fatSectors : ℕ) : List (ℕ × List UInt8) :=
  [(0, [0xeb, 0x3c, 0x90]),
    -- `IMAGINE `
    (3, [73, 77, 65, 71, 73, 78, 69, 32]),
    (11, leBytes 2 sectorSize), (13, leBytes 1 sectorsPerCluster), (14, leBytes 2 1), (16, [2]),
    (17, leBytes 2 espRootEntries), (19, leBytes 2 0), (21, [0xf8]), (22, leBytes 2 fatSectors),
    (24, leBytes 2 63), (26, leBytes 2 255), (28, leBytes 4 espStart), (32, leBytes 4 espSectors),
    (36, [0x80]), (38, [0x29]), (39, leBytes 4 time.toNat),
    -- `IMAGINEOS  `
    (43, [73, 77, 65, 71, 73, 78, 69, 79, 83, 32, 32]),
    -- `FAT16   `
    (54, [70, 65, 84, 49, 54, 32, 32, 32]), (510, [0x55, 0xaa])]

/-- The boot sector. -/
def bootSector (time : BitVec 64) (fatSectors : ℕ) : Sector :=
  zeroSector.putFields (bootFields time fatSectors)

/-! ### Directories -/

/-- `write_directory_entry` -/
def directoryEntryFields (offset : ℕ) (entry : DirectoryEntry) : List (ℕ × List UInt8) :=
  [(offset, entry.name.toList), (offset + 11, [entry.attributes]), (offset + 20, [0, 0]),
    (offset + 26, leBytes 2 entry.cluster), (offset + 28, leBytes 4 entry.size)]

def shortNameChecksum (name : Vector UInt8 11) : UInt8 :=
  name.toList.foldl (fun sum byte => UInt8.ofBitVec (sum.toBitVec.rotateRight 1) + byte) 0

/-- The units of a long name. -/
def lfnUnits (name : List UInt8) : List ℕ :=
  let units := (List.range 13).map fun index => name[index]?.elim 0xffff UInt8.toNat
  if name.length < 13 then units.set name.length 0 else units

/-- Units that follow each other. -/
def unitFields (start : ℕ) (units : List ℕ) : List (ℕ × List UInt8) :=
  units.mapIdx fun index unit => (start + index * 2, leBytes 2 unit)

/-- `write_lfn_entry` -/
def lfnEntryFields (offset : ℕ) (name : List UInt8) (shortName : Vector UInt8 11) :
    List (ℕ × List UInt8) :=
  let units := lfnUnits name
  [(offset, [0x40 ||| UInt8.ofNat ((name.length + 12) / 13)]), (offset + 11, [0x0f]),
    (offset + 13, [shortNameChecksum shortName])] ++
    unitFields (offset + 1) (units.take 5) ++ unitFields (offset + 14) ((units.drop 5).take 6) ++
    unitFields (offset + 28) (units.drop 11)

def dotEntry (name : Vector UInt8 11) (cluster : ℕ) : DirectoryEntry := ⟨name, 0x10, cluster, 0⟩

def directoryEntryFor (file : FileToInstall) : DirectoryEntry :=
  ⟨file.name, 0x20, file.firstCluster, file.contents.length⟩

/-- The fields of a slot of a directory, which start at an offset in their sector. The entries come
first, then the long name and the entry of each file. -/
def slotFields (entries : List DirectoryEntry) (files : List FileToInstall)
    (globalIndex offset : ℕ) : List (ℕ × List UInt8) :=
  match entries[globalIndex]? with
  | some entry => directoryEntryFields offset entry
  | none =>
    match files[(globalIndex - entries.length) / 2]? with
    | none => []
    | some file =>
      if (globalIndex - entries.length) % 2 = 0 then lfnEntryFields offset file.longName file.name
      else directoryEntryFields offset (directoryEntryFor file)

/-- A sector that `write_directory_with_files` writes. -/
def directorySector (entries : List DirectoryEntry) (files : List FileToInstall)
    (sectorIndex : ℕ) : Sector :=
  zeroSector.putFields ((List.range 16).flatMap fun slot =>
    slotFields entries files (sectorIndex * 16 + slot) (slot * 32))

/-- A sector that `write_directory` writes. -/
def plainDirectorySector (entries : List DirectoryEntry) (sectorIndex : ℕ) : Sector :=
  zeroSector.putFields (entries.zipIdx.flatMap fun (entry, entryIndex) =>
    if entryIndex / 16 = sectorIndex then directoryEntryFields (entryIndex % 16 * 32) entry else [])

/-- The device programs of the installer. -/
abbrev InstallProgram (C α : Type) : Type := Fallible Sector BlockError C InstallError α

section Programs

variable {C : Type}

def writeDirectory (firstLba sectorCount : ℕ) (entries : List DirectoryEntry) :
    InstallProgram C Unit :=
  Fallible.writeSectors .block ((List.range sectorCount).map fun sectorIndex =>
    (firstLba + sectorIndex, plainDirectorySector entries sectorIndex))

def writeDirectoryWithFiles (firstLba sectorCount : ℕ) (entries : List DirectoryEntry)
    (files : List FileToInstall) : InstallProgram C Unit :=
  if sectorCount * 16 < entries.length + files.length * 2 ∨
      ∃ file ∈ files, 13 < file.longName.length then throw .payloadTooLarge
  else Fallible.writeSectors .block ((List.range sectorCount).map fun sectorIndex =>
    (firstLba + sectorIndex, directorySector entries files sectorIndex))

/-! ### The data of the files -/

/-- The next sectors of a file of which `copied` bytes are written. -/
def dataSectors (contents : List UInt8) : ℕ → ℕ → List Sector
  | 0, _ => []
  | sectors + 1, copied =>
    let remaining := contents.length - copied
    let count := min remaining sectorSize
    zeroSector.put 0 ((contents.drop copied).take count) ::
      dataSectors contents sectors (copied + count)

/-- Where the sectors of a file go, cluster by cluster. -/
def dataLbas (dataStart : ℕ) (file : FileToInstall) : List ℕ :=
  (List.range file.clusterCount).flatMap fun clusterOffset =>
    let cluster := file.firstCluster + clusterOffset
    let clusterLba := dataStart + (cluster - 2) * sectorsPerCluster
    (List.range sectorsPerCluster).map fun sectorOffset => clusterLba + sectorOffset

def writeFileData (dataStart : ℕ) (file : FileToInstall) : InstallProgram C Unit :=
  Fallible.writeSectors .block ((dataLbas dataStart file).zip
    (dataSectors file.contents (file.clusterCount * sectorsPerCluster) 0))

/-! ### The partition -/

/-- `EFI        ` -/
def efiName : Vector UInt8 11 := #v[69, 70, 73, 32, 32, 32, 32, 32, 32, 32, 32]

/-- `BOOT       ` -/
def bootName : Vector UInt8 11 := #v[66, 79, 79, 84, 32, 32, 32, 32, 32, 32, 32]

/-- `.          ` -/
def dotName : Vector UInt8 11 := #v[46, 32, 32, 32, 32, 32, 32, 32, 32, 32, 32]

/-- `..         ` -/
def dotDotName : Vector UInt8 11 := #v[46, 46, 32, 32, 32, 32, 32, 32, 32, 32, 32]

/-- `efi_dir`, `boot_dir` -/
def rootEntries : List DirectoryEntry := [⟨efiName, 0x10, 2, 0⟩, ⟨bootName, 0x10, 4, 0⟩]

def efiEntries : List DirectoryEntry :=
  [dotEntry dotName 2, dotEntry dotDotName 0, ⟨bootName, 0x10, 3, 0⟩]

def efiBootEntries : List DirectoryEntry := [dotEntry dotName 3, dotEntry dotDotName 2]

def systemBootEntries : List DirectoryEntry := [dotEntry dotName 4, dotEntry dotDotName 0]

/-- `format_fat16`, where `read_tsc` gives the time. -/
def formatFat16 (time : BitVec 64) (plan : EspPlan) : InstallProgram C Unit := do
  let ⟨fatSectors, dataStart, files⟩ := plan
  Fallible.writeSector .block espStart (bootSector time fatSectors)
  Fallible.writeSectors .block (fatWrites fatSectors (fatTable files))
  writeDirectoryWithFiles (espStart + 1 + fatSectors * 2) espRootSectors rootEntries
    [files[0]!, files[5]!]
  writeDirectory dataStart sectorsPerCluster efiEntries
  writeDirectoryWithFiles (dataStart + sectorsPerCluster) sectorsPerCluster efiBootEntries
    [files[1]!]
  writeDirectoryWithFiles (dataStart + sectorsPerCluster * 2) sectorsPerCluster systemBootEntries
    [files[2]!, files[3]!, files[4]!]
  files.forM (writeFileData dataStart)

end Programs

end Installer

end ImagineOS
