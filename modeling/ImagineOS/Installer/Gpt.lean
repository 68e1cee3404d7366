import ImagineOS.Dfs.Layout
import ImagineOS.BlockProgram.Cache

/-!
# Installer: GUID partition tables

The reader takes the primary header from sector 1, refuses whatever is not in order, and looks for
a partition by its type. The writer lays out two partitions, for the boot loader and for the file
system, with a header at each end of the disk.
-/

namespace ImagineOS

open BlockProgram

/-! ### The reader -/

inductive GptError
  | block (e : BlockError)
  | invalidSignature
  | invalidHeader
  | headerChecksum
  | entryChecksum
  | invalidPartition
  | partitionNotFound
  deriving DecidableEq

structure Partition where
  typeGuid : List UInt8
  uniqueGuid : List UInt8
  firstLba : ℕ
  lastLba : ℕ
  attributes : ℕ
  deriving DecidableEq

structure Gpt where
  firstUsableLba : ℕ
  lastUsableLba : ℕ
  entriesLba : ℕ
  entryCount : ℕ
  entrySize : ℕ
  deriving DecidableEq

namespace Gpt

/-- `GPT_HEADER_SIGNATURE`, `EFI PART` -/
def signature : List UInt8 := [69, 70, 73, 32, 80, 65, 82, 84]

/-- `GPT_HEADER_MIN_SIZE` -/
def headerMinSize : ℕ := 92

/-- `GPT_MAX_ENTRY_COUNT` -/
def maxEntryCount : ℕ := 128

/-- `GPT_MAX_ENTRY_SIZE` -/
def maxEntrySize : ℕ := 512

def dfsPartitionTypeGuid : List UInt8 :=
  [0x9d, 0x2c, 0x7f, 0x8a, 0x31, 0x6b, 0x52, 0x4e, 0x9b, 0x14, 0x44, 0x53, 0x46, 0x53, 0x00, 0x01]

def readU32 (sector : Sector) (offset : ℕ) : ℕ := leNat (sector.slice offset 4)

def readU64 (sector : Sector) (offset : ℕ) : ℕ := leNat (sector.slice offset 8)

/-- What `read_primary` takes from a header. -/
structure Header where
  headerSize : ℕ
  currentLba : ℕ
  backupLba : ℕ
  firstUsableLba : ℕ
  lastUsableLba : ℕ
  entriesLba : ℕ
  entryCount : ℕ
  entrySize : ℕ
  entriesChecksum : ℕ
  deriving DecidableEq

/-- The fields of a header. -/
def Header.read (sector : Sector) : Header where
  headerSize := readU32 sector 12
  currentLba := readU64 sector 24
  backupLba := readU64 sector 32
  firstUsableLba := readU64 sector 40
  lastUsableLba := readU64 sector 48
  entriesLba := readU64 sector 72
  entryCount := readU32 sector 80
  entrySize := readU32 sector 84
  entriesChecksum := readU32 sector 88

/-- The number of sectors of the entries. -/
def Header.entriesSectors (h : Header) : ℕ :=
  (h.entryCount * h.entrySize + (sectorSize - 1)) / sectorSize

/-- What `read_primary` refuses as an invalid header. -/
def Header.Invalid (sectorCount : ℕ) (h : Header) : Prop :=
  ¬ (headerMinSize ≤ h.headerSize ∧ h.headerSize ≤ sectorSize) ∨ h.currentLba ≠ 1 ∨
    sectorCount ≤ h.backupLba ∨ h.backupLba ≤ h.lastUsableLba ∨ h.firstUsableLba < 2 ∨
    h.lastUsableLba < h.firstUsableLba ∨ sectorCount ≤ h.lastUsableLba ∨ h.entryCount = 0 ∨
    maxEntryCount < h.entryCount ∨ h.entrySize < 128 ∨ maxEntrySize < h.entrySize ∨
    h.entrySize % 8 ≠ 0 ∨ sectorSize % h.entrySize ≠ 0 ∨
    2 ^ 64 ≤ h.entriesLba + h.entriesSectors ∨ h.entriesLba < 2 ∨
    h.firstUsableLba < h.entriesLba + h.entriesSectors

instance (sectorCount : ℕ) (h : Header) : Decidable (h.Invalid sectorCount) := by
  unfold Header.Invalid
  infer_instance

/-- The checksum of a header, whose own field counts as zeros. -/
def headerChecksum (sector : Sector) (headerSize : ℕ) : UInt32 :=
  crc32 ((sector.put 16 [0, 0, 0, 0]).slice 0 headerSize)

section Reader

variable {C : Type}

/-- A program over a device with a partition table. -/
abbrev GptProgram (C α : Type) : Type := Fallible Sector BlockError C GptError α

theorem left_lt {remaining : ℕ} (h : ¬ remaining = 0) :
    remaining - min remaining sectorSize < remaining := by
  have : 0 < sectorSize := by decide
  omega

/-- The loop of `partition_entries_checksum`. -/
def entriesChecksumFrom (checksum : UInt32) (remaining lba : ℕ) : GptProgram C UInt32 :=
  if h : remaining = 0 then pure checksum
  else
    have := left_lt h
    do
      let sector ← Fallible.readSector .block lba
      entriesChecksumFrom (crc32Update checksum (sector.slice 0 (min remaining sectorSize)))
        (remaining - min remaining sectorSize) (lba + 1)
  termination_by remaining

def partitionEntriesChecksum (entriesLba entriesBytes : ℕ) : GptProgram C UInt32 := do
  let checksum ← entriesChecksumFrom (~~~0) entriesBytes entriesLba
  pure (~~~checksum)

/-- `read_primary`, on a device of a number of sectors. -/
def readPrimary (sectorCount : ℕ) : GptProgram C Gpt := do
  let sector ← Fallible.readSector .block 1
  if sector.slice 0 8 ≠ signature then throw .invalidSignature
  else
    let h := Header.read sector
    if h.Invalid sectorCount then throw .invalidHeader
    else if (headerChecksum sector h.headerSize).toNat ≠ readU32 sector 16 then
      throw .headerChecksum
    else do
      let checksum ← partitionEntriesChecksum h.entriesLba (h.entryCount * h.entrySize)
      if checksum.toNat ≠ h.entriesChecksum then throw .entryChecksum
      else pure ⟨h.firstUsableLba, h.lastUsableLba, h.entriesLba, h.entryCount, h.entrySize⟩

/-- The partition of an entry, unless it is unused. -/
def decodeEntry (sector : Sector) (offset : ℕ) : Option Partition :=
  let typeGuid := sector.slice offset 16
  if typeGuid = List.replicate 16 0 then none
  else some {
    typeGuid := typeGuid
    uniqueGuid := sector.slice (offset + 16) 16
    firstLba := readU64 sector (offset + 32)
    lastLba := readU64 sector (offset + 40)
    attributes := readU64 sector (offset + 48) }

def partition (gpt : Gpt) (index : ℕ) : GptProgram C (Option Partition) :=
  if gpt.entryCount ≤ index then pure none
  else do
    let byteOffset := index * gpt.entrySize
    let sector ← Fallible.readSector .block (gpt.entriesLba + byteOffset / sectorSize)
    match decodeEntry sector (byteOffset % sectorSize) with
    | none => pure none
    | some partition =>
      if partition.firstLba < gpt.firstUsableLba ∨ gpt.lastUsableLba < partition.lastLba ∨
          partition.lastLba < partition.firstLba then throw .invalidPartition
      else pure (some partition)

/-- The loop of `find_partition`, with the number of entries that are left. -/
def findFrom (gpt : Gpt) (typeGuid : List UInt8) : ℕ → ℕ → GptProgram C Partition
  | 0, _ => throw .partitionNotFound
  | remaining + 1, index => do
    match ← gpt.partition index with
    | none => findFrom gpt typeGuid remaining (index + 1)
    | some partition =>
      if partition.typeGuid = typeGuid then pure partition
      else findFrom gpt typeGuid remaining (index + 1)

def findPartition (gpt : Gpt) (typeGuid : List UInt8) : GptProgram C Partition :=
  findFrom gpt typeGuid gpt.entryCount 0

end Reader

end Gpt

/-! ### The writer -/

inductive InstallError
  | noDisk
  | diskTooSmall
  | missingPayload
  | payloadTooLarge
  | dfsFormat
  | invalidAccountConfig
  | entropyUnavailable
  | block (e : BlockError)
  deriving DecidableEq

namespace Installer

def espStart : ℕ := 2048

def espSectors : ℕ := 262144

def gptEntryCount : ℕ := 128

def gptEntrySize : ℕ := 128

def gptEntrySectors : ℕ := gptEntryCount * gptEntrySize / sectorSize

def minDiskSectors : ℕ := espStart + espSectors + 4096

def efiSystemPartitionGuid : List UInt8 :=
  [0x28, 0x73, 0x2a, 0xc1, 0x1f, 0xf8, 0xd2, 0x11, 0xba, 0x4b, 0x00, 0xa0, 0xc9, 0x3e, 0xc9, 0x3b]

/-- `unique_guid`, from the time that `read_tsc` gives. -/
def uniqueGuid (value : BitVec 64) : List UInt8 :=
  let guid := leBytes 8 value.toNat ++ leBytes 8 (value.rotateLeft 23).toNat
  let guid := guid.set 7 (guid.getD 7 0 &&& 0x0f ||| 0x40)
  guid.set 8 (guid.getD 8 0 &&& 0x3f ||| 0x80)

/-- The fields of an entry that starts at an offset in its sector. -/
def entryFields (offset : ℕ) (typeGuid uniqueGuid : List UInt8) (firstLba lastLba : ℕ)
    (name : List UInt8) : List (ℕ × List UInt8) :=
  [(offset, typeGuid), (offset + 16, uniqueGuid), (offset + 32, leBytes 8 firstLba),
    (offset + 40, leBytes 8 lastLba)] ++
    (name.take 36).mapIdx fun index byte => (offset + 56 + index * 2, [byte])

/-- `write_partition_entry`, into the sectors of the entries. -/
def writePartitionEntry (entries : ℕ → Sector) (index : ℕ) (typeGuid uniqueGuid : List UInt8)
    (firstLba lastLba : ℕ) (name : List UInt8) : ℕ → Sector :=
  let start := index * gptEntrySize
  Function.update entries (start / sectorSize) ((entries (start / sectorSize)).putFields
    (entryFields (start % sectorSize) typeGuid uniqueGuid firstLba lastLba name))

/-- The bytes of the entries. -/
def rawEntries (entries : ℕ → Sector) : List UInt8 :=
  (List.range gptEntrySectors).flatMap fun index => (entries index).slice 0 sectorSize

/-- The fields of a header, less its checksum. -/
def headerFields (currentLba backupLba firstUsableLba lastUsableLba entriesLba : ℕ)
    (entriesCrc : UInt32) (diskGuid : List UInt8) : List (ℕ × List UInt8) :=
  [(0, Gpt.signature), (8, leBytes 4 0x10000), (12, leBytes 4 92), (24, leBytes 8 currentLba),
    (32, leBytes 8 backupLba), (40, leBytes 8 firstUsableLba), (48, leBytes 8 lastUsableLba),
    (56, diskGuid), (72, leBytes 8 entriesLba), (80, leBytes 4 gptEntryCount),
    (84, leBytes 4 gptEntrySize), (88, leBytes 4 entriesCrc.toNat)]

def makeGptHeader (currentLba backupLba firstUsableLba lastUsableLba entriesLba : ℕ)
    (entriesCrc : UInt32) (diskGuid : List UInt8) : Sector :=
  let header := zeroSector.putFields
    (headerFields currentLba backupLba firstUsableLba lastUsableLba entriesLba entriesCrc diskGuid)
  header.put 16 (leBytes 4 (crc32 (header.slice 0 92)).toNat)

def backupEntriesLba (totalSectors : ℕ) : ℕ := totalSectors - 1 - gptEntrySectors

def lastUsableLba (totalSectors : ℕ) : ℕ := backupEntriesLba totalSectors - 1

def dfsStartLba : ℕ := espStart + espSectors

def dfsEndLba (totalSectors : ℕ) : ℕ :=
  lastUsableLba totalSectors - (lastUsableLba totalSectors + 1) % 2048

/-- `GPT_ENTRIES`, after the two partitions are written. -/
def gptEntries (totalSectors : ℕ) (espTime dfsTime : BitVec 64) : ℕ → Sector :=
  let entries := writePartitionEntry (fun _ => zeroSector) 0 efiSystemPartitionGuid
    (uniqueGuid espTime) espStart (espStart + espSectors - 1)
    -- `IMAGINEOS_ESP`
    [73, 77, 65, 71, 73, 78, 69, 79, 83, 95, 69, 83, 80]
  writePartitionEntry entries 1 Gpt.dfsPartitionTypeGuid (uniqueGuid dfsTime) dfsStartLba
    (dfsEndLba totalSectors)
    -- `DREAMCORE_DFS`
    [68, 82, 69, 65, 77, 67, 79, 82, 69, 95, 68, 70, 83]

/-- The sector at the start of the disk. -/
def protectiveMbr (totalSectors : ℕ) : Sector :=
  zeroSector.putFields [(446 + 4, [0xee]), (446 + 8, leBytes 4 1),
    (446 + 12, leBytes 4 (min (totalSectors - 1) (2 ^ 32 - 1))), (510, [0x55, 0xaa])]

/-- The sectors that `write_gpt` writes, in its order. -/
def gptWrites (totalSectors : ℕ) (diskTime espTime dfsTime : BitVec 64) : List (ℕ × Sector) :=
  let entries := gptEntries totalSectors espTime dfsTime
  let entriesCrc := crc32 (rawEntries entries)
  let lastUsableLba := lastUsableLba totalSectors
  (List.range gptEntrySectors).map (fun index =>
      (backupEntriesLba totalSectors + index, entries index)) ++
    (totalSectors - 1, makeGptHeader (totalSectors - 1) 1 34 lastUsableLba
      (backupEntriesLba totalSectors) entriesCrc (uniqueGuid diskTime)) ::
    (List.range gptEntrySectors).map (fun index => (2 + index, entries index)) ++
    [(1, makeGptHeader 1 (totalSectors - 1) 34 lastUsableLba 2 entriesCrc (uniqueGuid diskTime)),
      (0, protectiveMbr totalSectors)]

/-- `write_gpt`, where `read_tsc` gives the three times. -/
def writeGpt {C : Type} (totalSectors : ℕ) (diskTime espTime dfsTime : BitVec 64) :
    Fallible Sector BlockError C InstallError Unit :=
  if dfsEndLba totalSectors ≤ dfsStartLba then throw .diskTooSmall
  else Fallible.writeSectors .block (gptWrites totalSectors diskTime espTime dfsTime)

end Installer

end ImagineOS
