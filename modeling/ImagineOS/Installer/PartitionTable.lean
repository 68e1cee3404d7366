import ImagineOS.Installer.Gpt
import Mathlib.Data.List.Nodup

/-!
# Installer: what the partition table says

`write_gpt` leaves a table at each end of the disk, and both say the same: their headers and entries
have valid checksums and describe the partition for the boot loader and the one for the file system
(`Table`). The reader accepts the first of them and finds both partitions as they were computed
(`gpt_round_trip`), on a device of any size that the installer accepts.
-/

namespace ImagineOS

open BlockProgram Fallible List Sector

namespace Gpt

/-! ### Tables on a disk -/

/-- The bytes of the entries. -/
def entryBytes (d : ℕ → Sector) (entriesLba sectors : ℕ) : List UInt8 :=
  (List.range sectors).flatMap fun index => (d (entriesLba + index)).slice 0 sectorSize

/-- The entry of an index, in a table whose entries have 128 bytes. -/
def entryAt (d : ℕ → Sector) (entriesLba index : ℕ) : Option Partition :=
  decodeEntry (d (entriesLba + index * 128 / sectorSize)) (index * 128 % sectorSize)

/-- The header `h` and the 128 entries after it, with valid checksums, which describe partitions. -/
structure Table (d : ℕ → Sector) (lba : ℕ) (h : Header) (partitions : List Partition) : Prop where
  signature : (d lba).slice 0 8 = Gpt.signature
  fields : Header.read (d lba) = h
  checksum : (headerChecksum (d lba) h.headerSize).toNat = readU32 (d lba) 16
  entryCount : h.entryCount = 128
  entrySize : h.entrySize = 128
  entries : (crc32 (entryBytes d h.entriesLba 32)).toNat = h.entriesChecksum
  partitions : (List.range 128).filterMap (entryAt d h.entriesLba) = partitions

/-! ### Reading a table -/

section Reading

variable {C : Type} {d : ℕ → Sector} {lba sectorCount n : ℕ} {h : Header} {ps : List Partition}
variable {typeGuid : List UInt8} {p : Partition}

/-- The checksum of whole sectors. -/
theorem reads_entriesChecksumFrom (checksum : UInt32) (n lba : ℕ) :
    (entriesChecksumFrom checksum (n * sectorSize) lba : GptProgram C UInt32).run.Reads d
      (.ok (crc32Update checksum (entryBytes d lba n))) := by
  have hss : sectorSize = 512 := rfl
  induction n generalizing checksum lba with
  | zero =>
    rw [entriesChecksumFrom, dif_pos (Nat.zero_mul _)]
    rfl
  | succ n ih =>
    have hsucc : (n + 1) * sectorSize = n * sectorSize + sectorSize := Nat.succ_mul n sectorSize
    have hmin : min ((n + 1) * sectorSize) sectorSize = sectorSize := by omega
    have hsub : (n + 1) * sectorSize - sectorSize = n * sectorSize := by omega
    have hbytes : entryBytes d lba (n + 1) =
        (d lba).slice 0 sectorSize ++ entryBytes d (lba + 1) n := by
      rw [entryBytes, range_succ_eq_map, flatMap_cons, flatMap_map, Nat.add_zero]
      simp only [entryBytes, Nat.succ_eq_add_one, Nat.add_assoc, Nat.add_comm 1]
    rw [entriesChecksumFrom, dif_neg (by omega)]
    refine reads_bind (reads_readSector _ lba d) ?_
    have happend : crc32Update checksum (entryBytes d lba (n + 1)) = crc32Update
        (crc32Update checksum ((d lba).slice 0 sectorSize)) (entryBytes d (lba + 1) n) := by
      rw [hbytes]
      exact foldl_append ..
    rw [hmin, hsub, happend]
    exact ih _ _

/-- **Reading a table**, if its header is in order. -/
theorem readPrimary_table (ht : Table d 1 h ps) (hvalid : ¬ h.Invalid sectorCount) :
    (readPrimary sectorCount : GptProgram C Gpt).run.Reads d
      (.ok ⟨h.firstUsableLba, h.lastUsableLba, h.entriesLba, h.entryCount, h.entrySize⟩) := by
  have hbytes : h.entryCount * h.entrySize = 32 * sectorSize := by
    rw [ht.entryCount, ht.entrySize]
    rfl
  refine reads_bind (reads_readSector _ 1 d) ?_
  simp only [ht.signature, ht.fields, ht.checksum, hvalid, ne_eq, not_true, if_false]
  refine reads_bind (a := crc32 (entryBytes d h.entriesLba 32)) ?_ ?_
  · rw [partitionEntriesChecksum, hbytes]
    exact reads_bind (reads_entriesChecksumFrom _ 32 _) rfl
  · rw [if_neg (not_not.mpr ht.entries)]
    rfl

/-- The partition is inside what the header says is usable. -/
def Header.Usable (h : Header) (p : Partition) : Prop :=
  h.firstUsableLba ≤ p.firstLba ∧ p.firstLba ≤ p.lastLba ∧ p.lastLba ≤ h.lastUsableLba

/-- What `read_primary` makes of a header. -/
def Header.gpt (h : Header) : Gpt :=
  ⟨h.firstUsableLba, h.lastUsableLba, h.entriesLba, h.entryCount, h.entrySize⟩

theorem reads_partition (ht : Table d lba h ps) (husable : ∀ p ∈ ps, h.Usable p) {index : ℕ}
    (hindex : index < 128) : (h.gpt.partition index : GptProgram C (Option Partition)).run.Reads d
      (.ok (entryAt d h.entriesLba index)) := by
  have hcount : h.gpt.entryCount = 128 := ht.entryCount
  rw [partition, hcount, if_neg (Nat.not_le.mpr hindex)]
  refine reads_bind (reads_readSector _ _ d) ?_
  simp only [Header.gpt, ht.entrySize]
  rw [entryAt]
  cases hentry : decodeEntry (d (h.entriesLba + index * 128 / sectorSize))
      (index * 128 % sectorSize) with
  | none => rfl
  | some p =>
    have hmem : p ∈ ps := by
      rw [← ht.partitions]
      exact mem_filterMap.mpr ⟨index, mem_range.mpr hindex, hentry⟩
    obtain ⟨hfirst, hle, hlast⟩ := husable p hmem
    dsimp only
    rw [if_neg (by omega)]
    rfl

theorem reads_findFrom (ht : Table d lba h ps) (husable : ∀ p ∈ ps, h.Usable p) (n index : ℕ)
    (hn : index + n ≤ 128) (hfind : ((List.range' index n).filterMap
      (entryAt d h.entriesLba)).find? (·.typeGuid = typeGuid) = some p) :
    (findFrom h.gpt typeGuid n index : GptProgram C Partition).run.Reads d (.ok p) := by
  induction n generalizing index with
  | zero => cases hfind
  | succ n ih =>
    refine reads_bind (reads_partition ht husable (by omega)) ?_
    rw [range'_succ, filterMap_cons] at hfind
    cases hentry : entryAt d h.entriesLba index with
    | none =>
      rw [hentry] at hfind
      exact ih (index + 1) (by omega) hfind
    | some p' =>
      rw [hentry] at hfind
      dsimp only at hfind ⊢
      rw [List.find?_cons] at hfind
      by_cases htype : p'.typeGuid = typeGuid
      · rw [decide_eq_true htype] at hfind
        rw [if_pos htype, Option.some.inj hfind]
        rfl
      · rw [decide_eq_false htype] at hfind
        rw [if_neg htype]
        exact ih (index + 1) (by omega) hfind

/-- **Looking a partition up** in a table finds the first one of its type. -/
theorem findPartition_table (ht : Table d lba h ps) (husable : ∀ p ∈ ps, h.Usable p)
    (hfind : ps.find? (·.typeGuid = typeGuid) = some p) :
    (h.gpt.findPartition typeGuid : GptProgram C Partition).run.Reads d (.ok p) := by
  rw [findPartition, show h.gpt.entryCount = 128 from ht.entryCount]
  refine reads_findFrom ht husable 128 0 (by omega) ?_
  rw [← range_eq_range', ht.partitions]
  exact hfind

end Reading

end Gpt

namespace Installer

/-! ### What the writer lays out -/

variable {N : ℕ} {diskTime espTime dfsTime : BitVec 64}

/-- The partition for the boot loader. -/
def espPartition (espTime : BitVec 64) : Partition :=
  ⟨efiSystemPartitionGuid, uniqueGuid espTime, espStart, espStart + espSectors - 1, 0⟩

/-- The partition for the file system. -/
def dfsPartition (totalSectors : ℕ) (dfsTime : BitVec 64) : Partition :=
  ⟨Gpt.dfsPartitionTypeGuid, uniqueGuid dfsTime, dfsStartLba, dfsEndLba totalSectors, 0⟩

@[simp] theorem length_uniqueGuid (value : BitVec 64) : (uniqueGuid value).length = 16 := by
  simp [uniqueGuid]

/-- All fields of the two entries. -/
def allEntryFields (N : ℕ) (espTime dfsTime : BitVec 64) : List (ℕ × List UInt8) :=
  entryFields 0 efiSystemPartitionGuid (uniqueGuid espTime) espStart (espStart + espSectors - 1)
      [73, 77, 65, 71, 73, 78, 69, 79, 83, 95, 69, 83, 80] ++
    entryFields 128 Gpt.dfsPartitionTypeGuid (uniqueGuid dfsTime) dfsStartLba (dfsEndLba N)
      [68, 82, 69, 65, 77, 67, 79, 82, 69, 95, 68, 70, 83]

theorem gptEntries_zero :
    gptEntries N espTime dfsTime 0 = zeroSector.putFields (allEntryFields N espTime dfsTime) := by
  rw [allEntryFields, putFields_append]
  rfl

theorem gptEntries_of_ne {i : ℕ} (hi : i ≠ 0) : gptEntries N espTime dfsTime i = zeroSector := by
  have h₀ : (0 * gptEntrySize) / sectorSize = 0 := rfl
  have h₁ : (1 * gptEntrySize) / sectorSize = 0 := rfl
  rw [gptEntries, writePartitionEntry, writePartitionEntry]
  simp only [h₀, h₁]
  rw [Function.update_of_ne hi, Function.update_of_ne hi]

/-- Where the fields of the entries are, and how long they are. -/
def entryShape : List (ℕ × ℕ) :=
  [(0, 16), (16, 16), (32, 8), (40, 8)] ++ (List.range 13).map (fun i => (56 + i * 2, 1)) ++
    [(128, 16), (144, 16), (160, 8), (168, 8)] ++ (List.range 13).map (fun i => (184 + i * 2, 1))

theorem shape_allEntryFields :
    (allEntryFields N espTime dfsTime).map (fun f => (f.1, f.2.length)) = entryShape := by
  simp [allEntryFields, entryFields, efiSystemPartitionGuid, Gpt.dfsPartitionTypeGuid, entryShape,
    range_succ]

theorem pairwise_allEntryFields :
    (allEntryFields N espTime dfsTime).Pairwise Sector.FieldsApart := by
  have hshape : ((allEntryFields N espTime dfsTime).map fun f => (f.1, f.2.length)).Pairwise
      fun a b => a.1 + a.2 ≤ b.1 ∨ b.1 + b.2 ≤ a.1 := by
    rw [shape_allEntryFields]
    decide
  rw [pairwise_map] at hshape
  exact hshape

variable {off : ℕ}

theorem slice_gptEntries_zero {len : ℕ} (h : ∀ f ∈ entryShape, off + len ≤ f.1 ∨ f.1 + f.2 ≤ off) :
    (gptEntries N espTime dfsTime 0).slice off len = List.replicate len 0 := by
  rw [← shape_allEntryFields] at h
  have hfields : ∀ f ∈ allEntryFields N espTime dfsTime,
      off + len ≤ f.1 ∨ f.1 + f.2.length ≤ off := fun f hf => h _ (mem_map_of_mem hf)
  rw [gptEntries_zero, slice_putFields_of_disjoint hfields]
  simp [Sector.slice, map_const']

theorem slice_gptEntries {bs : List UInt8}
    (h : (off, bs) ∈ allEntryFields N espTime dfsTime) (hoff : off + bs.length ≤ 512) :
    (gptEntries N espTime dfsTime 0).slice off bs.length = bs := by
  rw [gptEntries_zero]
  exact slice_putFields pairwise_allEntryFields h hoff

theorem readU64_gptEntries {n : ℕ} (h : (off, leBytes 8 n) ∈ allEntryFields N espTime dfsTime)
    (hoff : off + 8 ≤ 512) (hn : n < 2 ^ 64) :
    Gpt.readU64 (gptEntries N espTime dfsTime 0) off = n := by
  have hslice := slice_gptEntries h (by simpa using hoff)
  rw [length_leBytes] at hslice
  rw [Gpt.readU64, hslice, leNat_leBytes (by simpa using hn)]

/-- The entry of a partition. -/
theorem decodeEntry_gptEntries {p : Partition} (htype : p.typeGuid.length = 16)
    (hunique : p.uniqueGuid.length = 16) (hused : p.typeGuid ≠ List.replicate 16 0)
    (hfields : ∀ f ∈ [(off, p.typeGuid), (off + 16, p.uniqueGuid), (off + 32, leBytes 8 p.firstLba),
      (off + 40, leBytes 8 p.lastLba)], f ∈ allEntryFields N espTime dfsTime)
    (hzero : ∀ f ∈ entryShape, off + 48 + 8 ≤ f.1 ∨ f.1 + f.2 ≤ off + 48) (hoff : off + 56 ≤ 512)
    (hfirst : p.firstLba < 2 ^ 64) (hlast : p.lastLba < 2 ^ 64) (hattr : p.attributes = 0) :
    Gpt.decodeEntry (gptEntries N espTime dfsTime 0) off = some p := by
  simp only [forall_mem_cons] at hfields
  obtain ⟨h₀, h₁, h₂, h₃, -⟩ := hfields
  have htypeSlice := slice_gptEntries h₀ (by omega)
  have huniqueSlice := slice_gptEntries h₁ (by omega)
  have hfirst := readU64_gptEntries h₂ (by omega) hfirst
  have hlast := readU64_gptEntries h₃ (by omega) hlast
  have hattributes : Gpt.readU64 (gptEntries N espTime dfsTime 0) (off + 48) = p.attributes := by
    rw [Gpt.readU64, slice_gptEntries_zero hzero, hattr]
    rfl
  rw [htype] at htypeSlice
  rw [hunique] at huniqueSlice
  rw [Gpt.decodeEntry]
  simp only [htypeSlice, huniqueSlice, hfirst, hlast, hattributes, if_neg hused]

theorem decodeEntry_of_zero {sector : Sector}
    (h : sector.slice off 16 = List.replicate 16 0) : Gpt.decodeEntry sector off = none := by
  rw [Gpt.decodeEntry]
  simp only [h, if_true]

variable {d : ℕ → Sector}

/-- **The entries describe the two partitions.** -/
theorem filterMap_entryAt {entriesLba : ℕ} (hN : N < 2 ^ 64)
    (hd : ∀ i < gptEntrySectors, d (entriesLba + i) = gptEntries N espTime dfsTime i) :
    (List.range 128).filterMap (Gpt.entryAt d entriesLba) =
      [espPartition espTime, dfsPartition N dfsTime] := by
  have hss : sectorSize = 512 := rfl
  have hsectors : gptEntrySectors = 32 := rfl
  have hend : dfsEndLba N < 2 ^ 64 := by
    have hsub : lastUsableLba N ≤ N := by
      rw [lastUsableLba, backupEntriesLba]
      omega
    rw [dfsEndLba]
    omega
  have h₀ : Gpt.entryAt d entriesLba 0 = some (espPartition espTime) := by
    rw [Gpt.entryAt, show 0 * 128 / sectorSize = 0 from rfl,
      show 0 * 128 % sectorSize = 0 from rfl, hd 0 (by decide)]
    have hused : (espPartition espTime).typeGuid ≠ List.replicate 16 0 := by
      change efiSystemPartitionGuid ≠ _
      decide
    exact decodeEntry_gptEntries rfl (length_uniqueGuid _) hused
      (by simp [allEntryFields, entryFields, espPartition]) (by decide) (by decide)
      (show espStart < 2 ^ 64 by decide) (show espStart + espSectors - 1 < 2 ^ 64 by decide) rfl
  have h₁ : Gpt.entryAt d entriesLba 1 = some (dfsPartition N dfsTime) := by
    rw [Gpt.entryAt, show 1 * 128 / sectorSize = 0 from rfl,
      show 1 * 128 % sectorSize = 128 from rfl, hd 0 (by decide)]
    have hused : (dfsPartition N dfsTime).typeGuid ≠ List.replicate 16 0 := by
      change Gpt.dfsPartitionTypeGuid ≠ _
      decide
    exact decodeEntry_gptEntries rfl (length_uniqueGuid _) hused
      (by simp [allEntryFields, entryFields, dfsPartition]) (by decide) (by decide)
      (show dfsStartLba < 2 ^ 64 by decide) hend rfl
  have hrest : ∀ i < 126, Gpt.entryAt d entriesLba (i + 2) = none := fun i hi => by
    rw [Gpt.entryAt, hss, hd _ (by omega)]
    refine decodeEntry_of_zero ?_
    rcases Nat.eq_zero_or_pos ((i + 2) * 128 / 512) with hzero | hpos
    · rw [hzero]
      refine slice_gptEntries_zero fun f hf => Or.inr ?_
      have hle : ∀ f ∈ entryShape, f.1 + f.2 ≤ 256 := by decide
      have := hle f hf
      omega
    · rw [gptEntries_of_ne (by omega)]
      simp [Sector.slice, map_const']
  have hnone : ((List.range 126).map (· + 2)).filterMap (Gpt.entryAt d entriesLba) = [] := by
    rw [filterMap_map]
    exact filterMap_eq_nil_iff.mpr fun i hi => hrest i (mem_range.mp hi)
  rw [show List.range 128 = 0 :: 1 :: (List.range 126).map (· + 2) by decide, filterMap_cons,
    h₀, filterMap_cons, h₁, hnone]

/-! ### Headers -/

section Headers

variable {currentLba backupLba first last entriesLba : ℕ} {crc : UInt32} {guid : List UInt8}

theorem pairwise_headerFields (hguid : guid.length = 16) :
    (headerFields currentLba backupLba first last entriesLba crc guid).Pairwise
      Sector.FieldsApart := by
  simp [headerFields, Sector.FieldsApart, Gpt.signature, hguid]

/-- The header of a table, as it is read. -/
def gptHeader (currentLba backupLba first last entriesLba : ℕ) (crc : UInt32) : Gpt.Header where
  headerSize := 92
  currentLba := currentLba
  backupLba := backupLba
  firstUsableLba := first
  lastUsableLba := last
  entriesLba := entriesLba
  entryCount := 128
  entrySize := 128
  entriesChecksum := crc.toNat

/-- **A header is read as it was made.** -/
theorem header_makeGptHeader (hguid : guid.length = 16) (hcurrent : currentLba < 2 ^ 64)
    (hbackup : backupLba < 2 ^ 64) (hfirst : first < 2 ^ 64) (hlast : last < 2 ^ 64)
    (hentries : entriesLba < 2 ^ 64) :
    let sector := makeGptHeader currentLba backupLba first last entriesLba crc guid
    sector.slice 0 8 = Gpt.signature ∧
      Gpt.Header.read sector = gptHeader currentLba backupLba first last entriesLba crc ∧
      (Gpt.headerChecksum sector 92).toNat = Gpt.readU32 sector 16 := by
  intro sector
  set fields := headerFields currentLba backupLba first last entriesLba crc guid with hfields
  have hbody : ∀ off len, off + len ≤ 16 ∨ 20 ≤ off →
      sector.slice off len = (zeroSector.putFields fields).slice off len := fun off len h =>
    slice_put_of_disjoint _ (by simpa using h)
  have hfield : ∀ off bs, (off, bs) ∈ fields → off + bs.length ≤ 512 →
      off + bs.length ≤ 16 ∨ 20 ≤ off → sector.slice off bs.length = bs := by
    intro off bs hmem hoff h
    rw [hbody _ _ h]
    exact slice_putFields (pairwise_headerFields hguid) hmem hoff
  have hnat : ∀ off w n, (off, leBytes w n) ∈ fields → off + w ≤ 512 → off + w ≤ 16 ∨ 20 ≤ off →
      n < 256 ^ w → leNat (sector.slice off w) = n := fun off w n hmem hoff h hn => by
    have hslice := hfield off (leBytes w n) hmem (by simpa using hoff) (by simpa using h)
    rw [length_leBytes] at hslice
    rw [hslice, leNat_leBytes hn]
  refine ⟨hfield 0 Gpt.signature (by simp [hfields, headerFields]) (by decide) (by decide), ?_, ?_⟩
  · have hsize := hnat 12 4 92 (by simp [hfields, headerFields]) (by omega) (by omega) (by decide)
    have hlong : ∀ off n, (off, leBytes 8 n) ∈ fields → off + 8 ≤ 512 ∧ 20 ≤ off → n < 2 ^ 64 →
        leNat (sector.slice off 8) = n := fun off n hmem hoff hn =>
      hnat off 8 n hmem hoff.1 (Or.inr hoff.2) (by omega)
    have h24 := hlong 24 currentLba (by simp [hfields, headerFields]) (by decide) hcurrent
    have h32 := hlong 32 backupLba (by simp [hfields, headerFields]) (by decide) hbackup
    have h40 := hlong 40 first (by simp [hfields, headerFields]) (by decide) hfirst
    have h48 := hlong 48 last (by simp [hfields, headerFields]) (by decide) hlast
    have h72 := hlong 72 entriesLba (by simp [hfields, headerFields]) (by decide) hentries
    have h80 := hnat 80 4 gptEntryCount (by simp [hfields, headerFields]) (by omega) (by omega)
      (by decide)
    have h84 := hnat 84 4 gptEntrySize (by simp [hfields, headerFields]) (by omega) (by omega)
      (by decide)
    have h88 := hnat 88 4 crc.toNat (by simp [hfields, headerFields]) (by omega) (by omega)
      (UInt32.toNat_lt _)
    simp only [Gpt.Header.read, Gpt.readU32, Gpt.readU64, hsize, h24, h32, h40, h48, h72, h80, h84,
      h88]
    rfl
  · have hzero : (zeroSector.putFields fields).slice 16 4 = [0, 0, 0, 0] := by
      rw [slice_putFields_of_disjoint]
      · simp [Sector.slice, map_const']
      · simp [hfields, headerFields, Gpt.signature]
    have hcleared : sector.put 16 [0, 0, 0, 0] = zeroSector.putFields fields := by
      change (Sector.put _ 16 (leBytes 4 _)).put 16 [0, 0, 0, 0] = _
      rw [put_put _ (by simp), put_slice _ hzero]
    rw [Gpt.headerChecksum, hcleared, Gpt.readU32]
    change _ = leNat ((Sector.put _ 16 (leBytes 4 _)).slice 16 4)
    rw [slice_put_self _ (by simp) (by omega), leNat_leBytes (UInt32.toNat_lt _)]

end Headers

/-! ### The round trip -/

/-- The run of a program that makes no calls on a device that never fails. -/
def onDevice {ε α : Type} (m : Fallible Sector BlockError Empty ε α) (d : ℕ → Sector) :
    Except ε α × (ℕ → Sector) :=
  m.run.run (fun c => c.elim) d

/-- `read_primary` and then `find_partition`. -/
def locatePartition (sectorCount : ℕ) (typeGuid : List UInt8) : Gpt.GptProgram Empty Partition := do
  let gpt ← Gpt.readPrimary sectorCount
  gpt.findPartition typeGuid

/-- The sectors of the two headers and of their entries. -/
def InTables (totalSectors lba : ℕ) : Prop :=
  lba = 1 ∨ (2 ≤ lba ∧ lba < 2 + gptEntrySectors) ∨
    (backupEntriesLba totalSectors ≤ lba ∧ lba < backupEntriesLba totalSectors + gptEntrySectors) ∨
      lba = totalSectors - 1

theorem bounds (hN : minDiskSectors ≤ N) :
    backupEntriesLba N = N - 33 ∧ lastUsableLba N = N - 34 ∧ dfsStartLba = 264192 ∧
      dfsStartLba < dfsEndLba N ∧ dfsEndLba N ≤ N - 34 ∧ 268288 ≤ N := by
  have hmin : minDiskSectors = 268288 := rfl
  have hbackup : backupEntriesLba N = N - 33 := by
    rw [backupEntriesLba, show gptEntrySectors = 32 from rfl]
    omega
  have hlast : lastUsableLba N = N - 34 := by
    rw [lastUsableLba, hbackup]
    omega
  rw [dfsEndLba, hlast]
  refine ⟨hbackup, rfl, rfl, ?_, by omega, by omega⟩
  rw [show dfsStartLba = 264192 from rfl]
  omega

theorem nodup_gptWrites (hN : minDiskSectors ≤ N) :
    ((gptWrites N diskTime espTime dfsTime).map Prod.fst).Nodup := by
  obtain ⟨hbackup, -, -, -, -, hN⟩ := bounds hN
  have hrange : ∀ a, ((List.range gptEntrySectors).map fun i => a + i).Nodup := fun a =>
    List.Nodup.map (fun _ _ h => Nat.add_left_cancel h) nodup_range
  have hsectors : gptEntrySectors = 32 := rfl
  simp only [gptWrites, map_append, map_cons, map_map, map_nil]
  change (((List.range gptEntrySectors).map fun i => backupEntriesLba N + i) ++ (N - 1) ::
    ((List.range gptEntrySectors).map fun i => 2 + i) ++ [1, 0]).Nodup
  rw [nodup_append, nodup_append, nodup_cons]
  refine ⟨⟨hrange _, ⟨?_, hrange _⟩, ?_⟩, by decide, ?_⟩
  · simp only [mem_map, mem_range, not_exists, not_and]
    omega
  · intro a ha b hb
    obtain ⟨i, hi, rfl⟩ := mem_map.mp ha
    rcases mem_cons.mp hb with rfl | hb
    · have := mem_range.mp hi
      omega
    · obtain ⟨j, hj, rfl⟩ := mem_map.mp hb
      have := mem_range.mp hj
      omega
  · intro a ha b hb
    have hle : 2 ≤ a := by
      rcases mem_append.mp ha with ha | ha
      · obtain ⟨i, -, rfl⟩ := mem_map.mp ha
        omega
      · rcases mem_cons.mp ha with rfl | ha
        · omega
        · obtain ⟨i, -, rfl⟩ := mem_map.mp ha
          omega
    have hlt : b < 2 := by
      simp only [mem_cons, not_mem_nil, or_false] at hb
      omega
    omega

theorem lt_of_mem_gptWrites (hN : minDiskSectors ≤ N) :
    ∀ w ∈ gptWrites N diskTime espTime dfsTime, w.1 < N := by
  obtain ⟨hbackup, -, -, -, -, hN⟩ := bounds hN
  have hsectors : gptEntrySectors = 32 := rfl
  intro w hw
  simp only [gptWrites, mem_append, mem_cons, mem_map, mem_range, not_mem_nil, or_false] at hw
  rcases hw with (⟨i, hi, rfl⟩ | rfl | ⟨i, hi, rfl⟩) | rfl | rfl <;> dsimp only <;> omega

/-- **A table that was written.** -/
theorem table_of_writes (diskTime : BitVec 64) {lba otherLba entriesLba : ℕ}
    (hN : minDiskSectors ≤ N) (hN' : N < 2 ^ 64) (hlba : lba < 2 ^ 64)
    (hother : otherLba < 2 ^ 64) (hentriesLba : entriesLba < 2 ^ 64)
    (hheader : d lba = makeGptHeader lba otherLba 34 (lastUsableLba N) entriesLba
      (crc32 (rawEntries (gptEntries N espTime dfsTime))) (uniqueGuid diskTime))
    (hentries : ∀ i < gptEntrySectors, d (entriesLba + i) = gptEntries N espTime dfsTime i) :
    Gpt.Table d lba (gptHeader lba otherLba 34 (lastUsableLba N) entriesLba
      (crc32 (rawEntries (gptEntries N espTime dfsTime))))
        [espPartition espTime, dfsPartition N dfsTime] := by
  obtain ⟨-, hlast, -⟩ := bounds hN
  obtain ⟨hsignature, hread, hchecksum⟩ : (d lba).slice 0 8 = Gpt.signature ∧
      Gpt.Header.read (d lba) = gptHeader lba otherLba 34 (lastUsableLba N) entriesLba
        (crc32 (rawEntries (gptEntries N espTime dfsTime))) ∧
      (Gpt.headerChecksum (d lba) 92).toNat = Gpt.readU32 (d lba) 16 := by
    rw [hheader]
    exact header_makeGptHeader (length_uniqueGuid diskTime) hlba hother (by decide) (by omega)
      hentriesLba
  have hbytes : Gpt.entryBytes d entriesLba 32 = rawEntries (gptEntries N espTime dfsTime) :=
    flatMap_congr fun i hi => by rw [hentries i (mem_range.mp hi)]
  exact ⟨hsignature, hread, hchecksum, rfl, rfl, by rw [gptHeader, hbytes],
    filterMap_entryAt hN' hentries⟩

theorem table_primary (hN : minDiskSectors ≤ N) (hN' : N < 2 ^ 64)
    (hd : ∀ w ∈ gptWrites N diskTime espTime dfsTime, d w.1 = w.2) :
    Gpt.Table d 1 (gptHeader 1 (N - 1) 34 (lastUsableLba N) 2
      (crc32 (rawEntries (gptEntries N espTime dfsTime))))
        [espPartition espTime, dfsPartition N dfsTime] := by
  refine table_of_writes diskTime hN hN' (by decide) (by omega) (by decide) (hd (1, _) ?_)
    fun i hi => hd (2 + i, _) ?_
  · exact mem_append_right _ mem_cons_self
  · refine mem_append_left _ (mem_append_right _ (mem_cons_of_mem _ ?_))
    exact mem_map.mpr ⟨i, mem_range.mpr hi, rfl⟩

/-- **The reader finds the partitions**, on a disk that holds what was written. -/
theorem locatePartition_of_writes (hN : minDiskSectors ≤ N) (hN' : N < 2 ^ 64)
    (hd : ∀ w ∈ gptWrites N diskTime espTime dfsTime, d w.1 = w.2) {typeGuid : List UInt8}
    {p : Partition} (hfind : [espPartition espTime, dfsPartition N dfsTime].find?
      (·.typeGuid = typeGuid) = some p) :
    onDevice (locatePartition N typeGuid) d = (.ok p, d) := by
  obtain ⟨hbackup, hlast, hstart, hlt, hend, hmin⟩ := bounds hN
  have hesp : espStart = 2048 ∧ espSectors = 262144 := ⟨rfl, rfl⟩
  obtain ⟨crc, hcrc⟩ : ∃ crc, crc = crc32 (rawEntries (gptEntries N espTime dfsTime)) := ⟨_, rfl⟩
  have hprimary := table_primary hN hN' hd
  rw [← hcrc] at hprimary
  have hvalid : ¬ (gptHeader 1 (N - 1) 34 (lastUsableLba N) 2 crc).Invalid N := by
    have hentrySectors : (gptHeader 1 (N - 1) 34 (lastUsableLba N) 2 crc).entriesSectors = 32 := by
      simp [Gpt.Header.entriesSectors, gptHeader, sectorSize]
    rw [Gpt.Header.Invalid, hentrySectors]
    simp only [gptHeader, Gpt.headerMinSize, Gpt.maxEntryCount, Gpt.maxEntrySize, sectorSize]
    omega
  have husable : ∀ p ∈ [espPartition espTime, dfsPartition N dfsTime],
      (gptHeader 1 (N - 1) 34 (lastUsableLba N) 2 crc).Usable p := by
    simp only [forall_mem_cons, Gpt.Header.Usable, gptHeader, espPartition, dfsPartition]
    refine ⟨by omega, by omega, by simp⟩
  exact (reads_bind (Gpt.readPrimary_table hprimary hvalid)
    (Gpt.findPartition_table hprimary husable hfind)).run _

theorem find_dfsPartition (N : ℕ) (espTime dfsTime : BitVec 64) :
    [espPartition espTime, dfsPartition N dfsTime].find?
      (·.typeGuid = Gpt.dfsPartitionTypeGuid) = some (dfsPartition N dfsTime) := by
  have hne : efiSystemPartitionGuid ≠ Gpt.dfsPartitionTypeGuid := by decide
  rw [List.find?_cons, show decide ((espPartition espTime).typeGuid = Gpt.dfsPartitionTypeGuid) =
    false from decide_eq_false hne]
  exact List.find?_cons_of_pos (decide_eq_true rfl)

/-- **The partition table round trip.** On a device of any size that the installer accepts the
table that it writes is read back with the partitions that it computed, which do not meet each other
or the tables, and the table at the end of the disk says the same. -/
theorem gpt_round_trip (hN : minDiskSectors ≤ N) (hN' : N < 2 ^ 64)
    (diskTime espTime dfsTime : BitVec 64) (d : ℕ → Sector) :
    (∀ w ∈ gptWrites N diskTime espTime dfsTime, w.1 < N) ∧
    ∃ d', onDevice (writeGpt N diskTime espTime dfsTime) d = (.ok (), d') ∧
      onDevice (locatePartition N efiSystemPartitionGuid) d' = (.ok (espPartition espTime), d') ∧
      onDevice (locatePartition N Gpt.dfsPartitionTypeGuid) d' =
        (.ok (dfsPartition N dfsTime), d') ∧
      (espPartition espTime).lastLba < (dfsPartition N dfsTime).firstLba ∧
      (∀ p ∈ [espPartition espTime, dfsPartition N dfsTime], 34 ≤ p.firstLba ∧
        p.firstLba ≤ p.lastLba ∧ p.lastLba ≤ lastUsableLba N ∧
        ∀ lba, p.firstLba ≤ lba → lba ≤ p.lastLba → ¬ InTables N lba) ∧
      ∃ crc, Gpt.Table d' 1 (gptHeader 1 (N - 1) 34 (lastUsableLba N) 2 crc)
          [espPartition espTime, dfsPartition N dfsTime] ∧
        Gpt.Table d' (N - 1) (gptHeader (N - 1) 1 34 (lastUsableLba N) (backupEntriesLba N) crc)
          [espPartition espTime, dfsPartition N dfsTime] := by
  obtain ⟨hbackup, hlast, hstart, hlt, hend, hmin⟩ := bounds hN
  have hsectors : gptEntrySectors = 32 := rfl
  have hesp : espStart = 2048 ∧ espSectors = 262144 := ⟨rfl, rfl⟩
  obtain ⟨d', hd'⟩ : ∃ d', d' = applyWrites (gptWrites N diskTime espTime dfsTime) d := ⟨_, rfl⟩
  obtain ⟨crc, hcrc⟩ : ∃ crc, crc = crc32 (rawEntries (gptEntries N espTime dfsTime)) := ⟨_, rfl⟩
  have hread : ∀ w ∈ gptWrites N diskTime espTime dfsTime, d' w.1 = w.2 := fun w hw => by
    rw [hd']
    exact applyWrites_of_mem d (nodup_gptWrites hN) hw
  have hprimary := table_primary hN hN' hread
  rw [← hcrc] at hprimary
  have hbackupTable : Gpt.Table d' (N - 1)
      (gptHeader (N - 1) 1 34 (lastUsableLba N) (backupEntriesLba N) crc)
        [espPartition espTime, dfsPartition N dfsTime] := by
    rw [hcrc]
    refine table_of_writes diskTime hN hN' (by omega) (by decide) (by omega) (hread (N - 1, _) ?_)
      fun i hi => hread (backupEntriesLba N + i, _) ?_
    · exact mem_append_left _ (mem_append_right _ mem_cons_self)
    · refine mem_append_left _ (mem_append_left _ ?_)
      exact mem_map.mpr ⟨i, mem_range.mpr hi, rfl⟩
  refine ⟨lt_of_mem_gptWrites hN, d', ?_, locatePartition_of_writes hN hN' hread ?_,
    locatePartition_of_writes hN hN' hread (find_dfsPartition N espTime dfsTime), ?_, ?_, crc,
    hprimary, hbackupTable⟩
  · rw [writeGpt, if_neg (by omega)]
    rw [hd']
    exact run_writeSectors _ d
  · exact List.find?_cons_of_pos (decide_eq_true rfl)
  · simp only [espPartition, dfsPartition]
    omega
  · simp only [forall_mem_cons, espPartition, dfsPartition, InTables]
    refine ⟨⟨by omega, by omega, by omega, fun lba h₁ h₂ => by omega⟩,
      ⟨by omega, by omega, by omega, fun lba h₁ h₂ => by omega⟩, by simp⟩

theorem gpt_round_trip_sample : ∃ d', onDevice (writeGpt 300000 0 1 2) (fun _ => zeroSector) =
      (.ok (), d') ∧ onDevice (locatePartition 300000 Gpt.dfsPartitionTypeGuid) d' =
        (.ok (dfsPartition 300000 2), d') := by
  obtain ⟨-, d', hwrite, -, hfind, -⟩ :=
    gpt_round_trip (N := 300000) (by decide) (by decide) 0 1 2 fun _ => zeroSector
  exact ⟨d', hwrite, hfind⟩

end Installer

end ImagineOS
