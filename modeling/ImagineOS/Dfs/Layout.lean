import ImagineOS.Bytes
import ImagineOS.Text
import ImagineOS.BlockProgram.Program

/-!
# DFS: errors, layout and superblock

A DFS partition of `sectors` sectors starting at `startLba` is cut into fixed areas, in this order:
the superblock, the journal (a header and sixteen payload sectors), the node table (one sector a
node), the allocation bitmap (one bit a sector) and the data.
-/

namespace ImagineOS

inductive BlockError where
  | notReady
  | outOfBounds
  | deviceError
  | timeout
  deriving DecidableEq, Repr

inductive DfsError where
  | block (e : BlockError)
  | invalidFilesystem
  | corruptMetadata
  | invalidPath
  | notFound
  | notDirectory
  | isDirectory
  | alreadyExists
  | directoryNotEmpty
  | noSpace
  | journalFull
  deriving DecidableEq, Repr

namespace Dfs

open BlockProgram

/-! ### Constants -/

/-- `MAGIC`: the ASCII letters `DREAMDFS` -/
def magic : List UInt8 := [0x44, 0x52, 0x45, 0x41, 0x4d, 0x44, 0x46, 0x53]

def version : ℕ := 1

def journalSectors : ℕ := 17

def inodeCount : ℕ := 256

def maxExtents : ℕ := 14

def maxPath : ℕ := 255

def transactionSectors : ℕ := journalSectors - 1

/-- The number of sectors one bitmap sector describes: `SECTOR_SIZE * 8`. -/
def bitsPerSector : ℕ := sectorSize * 8

/-! ### Layout -/

/-- A partition that `make_layout` accepts. -/
@[ext] structure Layout where
  startLba : ℕ
  sectors : ℕ
  /-- The data area is not empty. -/
  fits : 1 + journalSectors + inodeCount + (sectors + (bitsPerSector - 1)) / bitsPerSector < sectors
  /-- Rounding up the bitmap size does not overflow. -/
  rounds : sectors + (bitsPerSector - 1) < 2 ^ 64
  /-- The end of the partition is a 64-bit address. -/
  bounded : startLba + sectors < 2 ^ 64

namespace Layout

variable (L : Layout)

def journalLba : ℕ := L.startLba + 1

def inodeLba : ℕ := L.journalLba + journalSectors

def bitmapLba : ℕ := L.inodeLba + inodeCount

def bitmapSectors : ℕ := (L.sectors + (bitsPerSector - 1)) / bitsPerSector

def dataLba : ℕ := L.bitmapLba + L.bitmapSectors

/-- The first address past the partition. -/
def endLba : ℕ := L.startLba + L.sectors

/-- The journal, header and payload. -/
def InJournal (lba : ℕ) : Prop := L.journalLba ≤ lba ∧ lba < L.journalLba + journalSectors

/-- The node table and the bitmap. -/
def InMeta (lba : ℕ) : Prop := L.inodeLba ≤ lba ∧ lba < L.dataLba

/-- The data area. -/
def InData (lba : ℕ) : Prop := L.dataLba ≤ lba ∧ lba < L.endLba

/-- The whole partition. -/
def InPartition (lba : ℕ) : Prop := L.startLba ≤ lba ∧ lba < L.endLba

instance (lba : ℕ) : Decidable (L.InJournal lba) := inferInstanceAs (Decidable (_ ∧ _))

instance (lba : ℕ) : Decidable (L.InMeta lba) := inferInstanceAs (Decidable (_ ∧ _))

instance (lba : ℕ) : Decidable (L.InData lba) := inferInstanceAs (Decidable (_ ∧ _))

instance (lba : ℕ) : Decidable (L.InPartition lba) := inferInstanceAs (Decidable (_ ∧ _))

theorem offsets : L.journalLba = L.startLba + 1 ∧ L.inodeLba = L.startLba + 18 ∧
    L.bitmapLba = L.startLba + 274 ∧ L.bitmapSectors = (L.sectors + 4095) / 4096 ∧
    L.dataLba = L.startLba + 274 + (L.sectors + 4095) / 4096 ∧
    L.endLba = L.startLba + L.sectors ∧ L.dataLba < L.endLba ∧ L.endLba < 2 ^ 64 := by
  have hfits := L.fits
  have hbounded := L.bounded
  simp only [journalSectors, inodeCount, bitsPerSector, sectorSize, Nat.reduceMul,
    Nat.reduceSub] at hfits
  refine ⟨rfl, ?_, ?_, ?_, ?_, rfl, ?_, hbounded⟩ <;>
  · simp only [endLba, dataLba, bitmapSectors, bitmapLba, inodeLba, journalLba, journalSectors,
      inodeCount, bitsPerSector, sectorSize, Nat.reduceMul, Nat.reduceSub]
    try omega

end Layout

/-- `make_layout`: every sum is checked, and every failure is the same error. -/
def makeLayout (startLba sectors : ℕ) : Except DfsError Layout :=
  if h : sectors + (bitsPerSector - 1) < 2 ^ 64 ∧ startLba + 1 < 2 ^ 64 ∧
      startLba + 1 + journalSectors < 2 ^ 64 ∧ startLba + 1 + journalSectors + inodeCount < 2 ^ 64 ∧
      startLba + 1 + journalSectors + inodeCount
        + (sectors + (bitsPerSector - 1)) / bitsPerSector < 2 ^ 64 ∧
      1 + journalSectors + inodeCount + (sectors + (bitsPerSector - 1)) / bitsPerSector < sectors ∧
      startLba + sectors < 2 ^ 64 then
    .ok { startLba, sectors, fits := h.2.2.2.2.2.1, rounds := h.1, bounded := h.2.2.2.2.2.2 }
  else .error .invalidFilesystem

theorem makeLayout_eq_ok {startLba sectors : ℕ} {L : Layout}
    (h : makeLayout startLba sectors = .ok L) : L.startLba = startLba ∧ L.sectors = sectors := by
  unfold makeLayout at h
  split at h
  · cases h; exact ⟨rfl, rfl⟩
  · cases h

theorem makeLayout_self (L : Layout) : makeLayout L.startLba L.sectors = .ok L := by
  have hfits := L.fits
  have hrounds := L.rounds
  have hbounded := L.bounded
  unfold makeLayout
  rw [dif_pos]
  simp only [journalSectors, inodeCount, bitsPerSector, sectorSize, Nat.reduceMul,
    Nat.reduceSub] at *
  omega

/-! ### Device requests -/

variable {C : Type}

/-- A program of the file system over a block device, making calls `C`. -/
abbrev DfsProgram (C α : Type) : Type := Fallible Sector BlockError C DfsError α

/-- `device.read_sector(lba, …).map_err(DfsError::Block)` -/
def readSector (lba : ℕ) : DfsProgram C Sector := Fallible.readSector .block lba

/-- `device.write_sector(lba, …).map_err(DfsError::Block)` -/
def writeSector (lba : ℕ) (s : Sector) : DfsProgram C Unit := Fallible.writeSector .block lba s

/-- `device.flush().map_err(DfsError::Block)` -/
def flush : DfsProgram C Unit := Fallible.flush .block

/-- A computation without device requests. -/
def ofExcept {α : Type} (r : Except DfsError α) : DfsProgram C α := ExceptT.mk (.pure r)

/-! ### The superblock -/

/-- The fields `write_superblock` fills in, less the checksum. -/
def superblockFields (L : Layout) : List (ℕ × List UInt8) :=
  [(0, magic), (8, leBytes 4 version), (16, leBytes 8 L.sectors), (24, leBytes 8 journalSectors),
    (32, leBytes 8 L.journalLba), (40, leBytes 8 L.inodeLba), (48, leBytes 4 inodeCount),
    (52, leBytes 8 L.bitmapLba), (60, leBytes 8 L.bitmapSectors), (68, leBytes 8 L.dataLba)]

/-- The sector `write_superblock` writes, less its checksum. -/
def superblockBody (L : Layout) : Sector := zeroSector.putFields (superblockFields L)

/-- The sector `write_superblock` writes. -/
def superblock (L : Layout) : Sector :=
  (superblockBody L).put 508 (leBytes 4 (crc32 ((superblockBody L).slice 0 508)).toNat)

/-- `read_superblock`, once the sector is read. -/
def checkSuperblock (startLba sectors : ℕ) (sector : Sector) : Except DfsError Layout :=
  if sector.slice 0 8 ≠ magic ∨ leNat (sector.slice 8 4) ≠ version
      ∨ (crc32 (sector.slice 0 508)).toNat ≠ leNat (sector.slice 508 4) then
    .error .invalidFilesystem
  else do
    let layout ← makeLayout startLba sectors
    if leNat (sector.slice 16 8) ≠ layout.sectors ∨ leNat (sector.slice 24 8) ≠ journalSectors
        ∨ leNat (sector.slice 32 8) ≠ layout.journalLba
        ∨ leNat (sector.slice 40 8) ≠ layout.inodeLba
        ∨ leNat (sector.slice 48 4) ≠ inodeCount
        ∨ leNat (sector.slice 52 8) ≠ layout.bitmapLba
        ∨ leNat (sector.slice 60 8) ≠ layout.bitmapSectors
        ∨ leNat (sector.slice 68 8) ≠ layout.dataLba then
      .error .invalidFilesystem
    else .ok layout

def readSuperblock (startLba sectors : ℕ) : DfsProgram C Layout := do
  let sector ← readSector startLba
  ofExcept (checkSuperblock startLba sectors sector)

/-- The fields of the superblock are where `read_superblock` looks for them. -/
theorem checkSuperblock_superblock (L : Layout) :
    checkSuperblock L.startLba L.sectors (superblock L) = .ok L := by
  obtain ⟨hj, hi, hb, hbs, hd, he, hde, hend⟩ := L.offsets
  have hrounds := L.rounds
  have hbody : ∀ off len, off + len ≤ 508 →
      (superblock L).slice off len = (superblockBody L).slice off len := fun off len h =>
    Sector.slice_put_of_disjoint _ (Or.inl h)
  have hsum : leNat ((superblock L).slice 508 4) = (crc32 ((superblock L).slice 0 508)).toNat := by
    rw [hbody 0 508 le_rfl, superblock, Sector.slice_put_self _ (by simp) (by omega),
      leNat_leBytes (UInt32.toNat_lt _)]
  have happart : (superblockFields L).Pairwise Sector.FieldsApart := by
    simp [superblockFields, Sector.FieldsApart, magic]
  have hfield : ∀ off bs, (off, bs) ∈ superblockFields L → off + bs.length ≤ 508 →
      (superblock L).slice off bs.length = bs := fun off bs hmem hoff => by
    rw [hbody _ _ hoff]
    exact Sector.slice_putFields happart hmem (by omega)
  have hnat : ∀ off w n, (off, leBytes w n) ∈ superblockFields L → off + w ≤ 508 → n < 256 ^ w →
      leNat ((superblock L).slice off w) = n := fun off w n hmem hoff hn => by
    have h := hfield off (leBytes w n) hmem (by simpa using hoff)
    rw [length_leBytes] at h
    rw [h, leNat_leBytes hn]
  have hmagic : (superblock L).slice 0 8 = magic :=
    hfield 0 magic (by simp [superblockFields]) (by decide)
  have hversion := hnat 8 4 version (by simp [superblockFields]) (by omega) (by decide)
  have h16 := hnat 16 8 L.sectors (by simp [superblockFields]) (by omega) (by omega)
  have h24 := hnat 24 8 journalSectors (by simp [superblockFields]) (by omega) (by decide)
  have h32 := hnat 32 8 L.journalLba (by simp [superblockFields]) (by omega) (by omega)
  have h40 := hnat 40 8 L.inodeLba (by simp [superblockFields]) (by omega) (by omega)
  have h48 := hnat 48 4 inodeCount (by simp [superblockFields]) (by omega) (by decide)
  have h52 := hnat 52 8 L.bitmapLba (by simp [superblockFields]) (by omega) (by omega)
  have h60 := hnat 60 8 L.bitmapSectors (by simp [superblockFields]) (by omega) (by omega)
  have h68 := hnat 68 8 L.dataLba (by simp [superblockFields]) (by omega) (by omega)
  rw [checkSuperblock, hmagic, hversion, hsum]
  simp [makeLayout_self, bind, Except.bind, h16, h24, h32, h40, h48, h52, h60, h68]

theorem checkSuperblock_eq_ok {startLba sectors : ℕ} {sector : Sector} {L : Layout}
    (h : checkSuperblock startLba sectors sector = .ok L) :
    makeLayout startLba sectors = .ok L := by
  unfold checkSuperblock at h
  split at h
  · cases h
  · cases hL : makeLayout startLba sectors with
    | error e => simp [hL, bind, Except.bind] at h
    | ok L' =>
      simp only [hL, bind, Except.bind] at h
      split at h
      · cases h
      · cases h; rfl

end Dfs

end ImagineOS
