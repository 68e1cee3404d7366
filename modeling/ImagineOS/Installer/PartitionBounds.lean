import ImagineOS.BlockProgram.Requests
import ImagineOS.Checked
import ImagineOS.Installer.Gpt
import Mathlib.Data.Set.Lattice
import Mathlib.Order.CompletePartialOrder

/-!
# Installer: reading any partition table

Everything in a header is a number from the disk: where the entries are, how many and how large they
are, and how long the header is. Here the reader is what the source says, with every sum that may
overflow and every slice that may be out of range, on a device that gives any answers. It never
panics, and it does what `Gpt.readPrimary` and `Gpt.findPartition` do, which compute with numbers
that have no end.
-/

namespace ImagineOS

open BlockProgram Fallible List Nat

namespace Gpt

/-! ### The functions of the source -/

namespace Exact

open Checked

/-- A program over a device that may panic. -/
abbrev ExactProgram (α : Type) : Type := Fallible Sector BlockError Empty (Fault GptError) α

/-- A step that makes no request. -/
def step {α : Type} (x : Checked GptError α) : ExactProgram α := ExceptT.mk (.pure x)

/-- An error of the source. -/
def fault {α : Type} (e : GptError) : ExactProgram α := throw (.error e)

/-- `device.read_sector(lba, …).map_err(GptError::Block)`: the bytes of the sector. -/
def readSector (lba : ℕ) : ExactProgram (List UInt8) := do
  let sector ← Fallible.readSector (fun e => .error (.block e)) lba
  pure (sector.slice 0 sectorSize)

/-- `bytes[start..stop].try_into().unwrap()`, of an array of `w` bytes. -/
def array (w : ℕ) (bytes : List UInt8) (start stop : ℕ) : Checked GptError (List UInt8) := do
  let field ← slice bytes start stop
  if field.length = w then .ok field else panic

def readU32 (bytes : List UInt8) (offset : ℕ) : Checked GptError ℕ := do
  let stop ← add offset 4
  let field ← array 4 bytes offset stop
  return leNat field

def readU64 (bytes : List UInt8) (offset : ℕ) : Checked GptError ℕ := do
  let stop ← add offset 8
  let field ← array 8 bytes offset stop
  return leNat field

/-- The fields of a header. -/
def readHeader (bytes : List UInt8) : Checked GptError Header := do
  let headerSize ← readU32 bytes 12
  let currentLba ← readU64 bytes 24
  let backupLba ← readU64 bytes 32
  let firstUsableLba ← readU64 bytes 40
  let lastUsableLba ← readU64 bytes 48
  let entriesLba ← readU64 bytes 72
  let entryCount ← readU32 bytes 80
  let entrySize ← readU32 bytes 84
  let entriesChecksum ← readU32 bytes 88
  return ⟨headerSize, currentLba, backupLba, firstUsableLba, lastUsableLba, entriesLba, entryCount,
    entrySize, entriesChecksum⟩

/-- What is tested of a header before anything is computed from it, in the order of the source. -/
def headerTests (sectorCount : ℕ) (h : Header) : List (Checked GptError Bool) := [
  .ok (decide (¬ (headerMinSize ≤ h.headerSize ∧ h.headerSize ≤ sectorSize))),
  .ok (decide (h.currentLba ≠ 1)), .ok (decide (sectorCount ≤ h.backupLba)),
  .ok (decide (h.backupLba ≤ h.lastUsableLba)), .ok (decide (h.firstUsableLba < 2)),
  .ok (decide (h.lastUsableLba < h.firstUsableLba)), .ok (decide (sectorCount ≤ h.lastUsableLba)),
  .ok (decide (h.entryCount = 0)), .ok (decide (maxEntryCount < h.entryCount)),
  .ok (decide (h.entrySize < 128)), .ok (decide (maxEntrySize < h.entrySize)),
  do return decide ((← rem h.entrySize 8) ≠ 0),
  do return decide ((← rem sectorSize h.entrySize) ≠ 0)]

/-- The checks of a header, and the size of the entries. -/
def checkHeader (sectorCount : ℕ) (h : Header) : Checked GptError ℕ := do
  if ← anyOf (headerTests sectorCount h) then fail .invalidHeader
  else
    let entriesBytes ← checkedMul h.entryCount h.entrySize .invalidHeader
    let rounded ← checkedAdd entriesBytes (sectorSize - 1) .invalidHeader
    let entriesEnd ← checkedAdd h.entriesLba (rounded / sectorSize) .invalidHeader
    if h.entriesLba < 2 ∨ h.firstUsableLba < entriesEnd then fail .invalidHeader
    else return entriesBytes

/-- The loop of `partition_entries_checksum`. -/
def entriesChecksumFrom (checksum : UInt32) (remaining lba : ℕ) : ExactProgram UInt32 :=
  if h : remaining = 0 then pure checksum
  else
    have := left_lt h
    do
      let sector ← readSector lba
      let length := min remaining sectorSize
      let bytes ← step (slice sector 0 length)
      -- `remaining -= length` and `lba += 1`
      let _ ← step (sub remaining length)
      let next ← step (add lba 1)
      entriesChecksumFrom (crc32Update checksum bytes) (remaining - length) next
  termination_by remaining

def partitionEntriesChecksum (entriesLba entriesBytes : ℕ) : ExactProgram UInt32 := do
  let checksum ← entriesChecksumFrom (~~~0) entriesBytes entriesLba
  pure (~~~checksum)

/-- `read_primary`, on a device of a number of sectors. -/
def readPrimary (sectorCount : ℕ) : ExactProgram Gpt := do
  let sector ← readSector 1
  if (← step (slice sector 0 8)) ≠ signature then fault .invalidSignature
  else do
    let h ← step (readHeader sector)
    let entriesBytes ← step (checkHeader sectorCount h)
    let expected ← step (readU32 sector 16)
    let cleared ← step (copyRange sector 16 20 [0, 0, 0, 0])
    let header ← step (slice cleared 0 h.headerSize)
    if (crc32 header).toNat ≠ expected then fault .headerChecksum
    else do
      let checksum ← partitionEntriesChecksum h.entriesLba entriesBytes
      if checksum.toNat ≠ h.entriesChecksum then fault .entryChecksum
      else pure ⟨h.firstUsableLba, h.lastUsableLba, h.entriesLba, h.entryCount, h.entrySize⟩

/-- The partition of an entry, unless it is unused. -/
def decodeEntry (entry : List UInt8) : Checked GptError (Option Partition) := do
  let typeGuid ← copyRange (List.replicate 16 0) 0 16 (← slice entry 0 16)
  if typeGuid = List.replicate 16 0 then return none
  else
    let uniqueGuid ← copyRange (List.replicate 16 0) 0 16 (← slice entry 16 32)
    let firstLba ← readU64 entry 32
    let lastLba ← readU64 entry 40
    let attributes ← readU64 entry 48
    return some ⟨typeGuid, uniqueGuid, firstLba, lastLba, attributes⟩

def partition (gpt : Gpt) (index : ℕ) : ExactProgram (Option Partition) :=
  if gpt.entryCount ≤ index then pure none
  else do
    let byteOffset ← step (mul index gpt.entrySize)
    let sectorLba ← step (add gpt.entriesLba (byteOffset / sectorSize))
    let entryOffset := byteOffset % sectorSize
    let sector ← readSector sectorLba
    let stop ← step (add entryOffset gpt.entrySize)
    let entry ← step (slice sector entryOffset stop)
    match ← step (decodeEntry entry) with
    | none => pure none
    | some partition =>
      if partition.firstLba < gpt.firstUsableLba ∨ gpt.lastUsableLba < partition.lastLba ∨
          partition.lastLba < partition.firstLba then fault .invalidPartition
      else pure (some partition)

/-- The loop of `find_partition`, with the number of entries that are left. -/
def findFrom (gpt : Gpt) (typeGuid : List UInt8) : ℕ → ℕ → ExactProgram Partition
  | 0, _ => fault .partitionNotFound
  | remaining + 1, index => do
    match ← partition gpt index with
    | none => findFrom gpt typeGuid remaining (index + 1)
    | some partition =>
      if partition.typeGuid = typeGuid then pure partition
      else findFrom gpt typeGuid remaining (index + 1)

def findPartition (gpt : Gpt) (typeGuid : List UInt8) : ExactProgram Partition :=
  findFrom gpt typeGuid gpt.entryCount 0

/-! ### Slices of a sector -/

section Slices

variable {s : Sector} {off len start stop : ℕ}

theorem slice_parts (s : Sector) (off : ℕ) (hle : start ≤ stop) (hstop : stop ≤ len) :
    s.slice off len = s.slice off start ++
      (s.slice (off + start) (stop - start) ++ s.slice (off + stop) (len - stop)) := by
  have hfirst := Sector.slice_append s off start (len - start)
  have hsecond := Sector.slice_append s (off + start) (stop - start) (len - stop)
  rw [show start + (len - start) = len by omega] at hfirst
  rw [show stop - start + (len - stop) = len - start by omega,
    show off + start + (stop - start) = off + stop by omega] at hsecond
  rw [hfirst, hsecond]

theorem slice_slice (hle : start ≤ stop) (hstop : stop ≤ len) :
    (slice (s.slice off len) start stop : Checked GptError (List UInt8)) =
      .ok (s.slice (off + start) (stop - start)) := by
  rw [slice, if_pos ⟨hle, by rwa [Sector.length_slice]⟩, between, slice_parts s off hle hstop,
    drop_left' (Sector.length_slice ..), take_left' (Sector.length_slice ..)]

theorem array_slice {w : ℕ} (h : start + w ≤ len) :
    array w (s.slice off len) start (start + w) = .ok (s.slice (off + start) w) := by
  have hslice := @slice_slice s off len start (start + w) (Nat.le_add_right start w) h
  rw [Nat.add_sub_cancel_left] at hslice
  rw [array, hslice]
  exact if_pos (Sector.length_slice ..)

theorem readU32_slice (h : start + 4 ≤ len) (hlen : len ≤ sectorSize) :
    readU32 (s.slice off len) start = .ok (Gpt.readU32 s (off + start)) := by
  have hsize : sectorSize = 512 := rfl
  have hlimit : start + 4 < wordLimit := by
    rw [wordLimit]
    omega
  rw [readU32, add, if_pos hlimit]
  change (array 4 (s.slice off len) start (start + 4) >>= fun field => .ok (leNat field)) = _
  rw [array_slice h]
  rfl

theorem readU64_slice (h : start + 8 ≤ len) (hlen : len ≤ sectorSize) :
    readU64 (s.slice off len) start = .ok (Gpt.readU64 s (off + start)) := by
  have hsize : sectorSize = 512 := rfl
  have hlimit : start + 8 < wordLimit := by
    rw [wordLimit]
    omega
  rw [readU64, add, if_pos hlimit]
  change (array 8 (s.slice off len) start (start + 8) >>= fun field => .ok (leNat field)) = _
  rw [array_slice h]
  rfl

theorem readHeader_slice (s : Sector) :
    readHeader (s.slice 0 sectorSize) = .ok (Header.read s) := by
  have hsize : sectorSize = 512 := rfl
  have h₃₂ : ∀ k, k + 4 ≤ 512 → readU32 (s.slice 0 sectorSize) k = .ok (Gpt.readU32 s k) :=
    fun k hk => by rw [readU32_slice (by omega) le_rfl, zero_add]
  have h₆₄ : ∀ k, k + 8 ≤ 512 → readU64 (s.slice 0 sectorSize) k = .ok (Gpt.readU64 s k) :=
    fun k hk => by rw [readU64_slice (by omega) le_rfl, zero_add]
  rw [readHeader, h₃₂ 12 (by decide), h₆₄ 24 (by decide), h₆₄ 32 (by decide), h₆₄ 40 (by decide),
    h₆₄ 48 (by decide), h₆₄ 72 (by decide), h₃₂ 80 (by decide), h₃₂ 84 (by decide),
    h₃₂ 88 (by decide)]
  rfl

theorem copyRange_slice (s : Sector) :
    (copyRange (s.slice 0 sectorSize) 16 20 [0, 0, 0, 0] : Checked GptError (List UInt8)) =
      .ok ((s.put 16 [0, 0, 0, 0]).slice 0 sectorSize) := by
  have hle : (16 : ℕ) ≤ 20 ∧ 20 ≤ sectorSize := by decide
  have hparts : ∀ t : Sector, t.slice 0 sectorSize =
      t.slice 0 16 ++ (t.slice 16 4 ++ t.slice 20 (sectorSize - 20)) := fun t => by
    simpa using slice_parts t 0 hle.1 hle.2
  have hkept : ∀ off len, 16 + 4 ≤ off ∨ off + len ≤ 16 →
      (s.put 16 [0, 0, 0, 0]).slice off len = s.slice off len := fun off len h =>
    Sector.slice_put_of_disjoint s (by simpa using h.symm)
  rw [copyRange, if_pos ⟨hle.1, by rw [Sector.length_slice]; exact hle.2, rfl⟩,
    hparts (s.put 16 [0, 0, 0, 0]), hkept 0 16 (by decide), hkept 20 _ (by decide),
    @Sector.slice_put_self 16 [0, 0, 0, 0] 4 s rfl (by decide), hparts s,
    take_left' (Sector.length_slice ..)]
  have hdrop : (s.slice 0 16 ++ (s.slice 16 4 ++ s.slice 20 (sectorSize - 20))).drop 20 =
      s.slice 20 (sectorSize - 20) := by
    rw [← append_assoc]
    exact drop_left' (by simp)
  rw [hdrop, append_assoc]

end Slices

/-! ### The checks of a header -/

theorem anyOf_append (tests : List Bool) (rest : List (Checked GptError Bool)) :
    anyOf (tests.map .ok ++ rest) = if tests.any id then .ok true else anyOf rest := by
  induction tests with
  | nil => rfl
  | cons b tests ih =>
    cases b with
    | true => rfl
    | false => exact ih

/-- The tests that compute nothing. -/
def simpleTests (sectorCount : ℕ) (h : Header) : List Bool := [
  decide (¬ (headerMinSize ≤ h.headerSize ∧ h.headerSize ≤ sectorSize)),
  decide (h.currentLba ≠ 1), decide (sectorCount ≤ h.backupLba),
  decide (h.backupLba ≤ h.lastUsableLba), decide (h.firstUsableLba < 2),
  decide (h.lastUsableLba < h.firstUsableLba), decide (sectorCount ≤ h.lastUsableLba),
  decide (h.entryCount = 0), decide (maxEntryCount < h.entryCount), decide (h.entrySize < 128),
  decide (maxEntrySize < h.entrySize), decide (h.entrySize % 8 ≠ 0)]

/-- **No test divides by zero**, since the smallest size is tested before. -/
theorem anyOf_headerTests (sectorCount : ℕ) (h : Header) :
    anyOf (headerTests sectorCount h) =
      .ok ((simpleTests sectorCount h).any id || decide (sectorSize % h.entrySize ≠ 0)) := by
  change anyOf ((simpleTests sectorCount h).map .ok ++
    [do return decide ((← rem sectorSize h.entrySize) ≠ 0)]) = _
  rw [anyOf_append]
  cases hsimple : (simpleTests sectorCount h).any id with
  | true => rfl
  | false =>
    have hsize : h.entrySize ≠ 0 := fun hzero => by
      have hmem : true ∈ simpleTests sectorCount h := by simp [simpleTests, hzero]
      have := any_eq_false.mp hsimple true hmem
      exact this rfl
    have hlast : ∀ b, anyOf [(.ok b : Checked GptError Bool)] = .ok b := by
      intro b
      cases b <;> rfl
    rw [if_neg Bool.false_ne_true, Bool.false_or, rem, if_neg hsize]
    exact hlast _

/-- **The checks of a header** fail if the header is invalid, and do not overflow. -/
theorem checkHeader_eq (sectorCount : ℕ) (h : Header) :
    checkHeader sectorCount h = if h.Invalid sectorCount then fail .invalidHeader
      else .ok (h.entryCount * h.entrySize) := by
  have hconst : sectorSize = 512 ∧ maxEntryCount = 128 ∧ maxEntrySize = 512 := ⟨rfl, rfl, rfl⟩
  have hinvalid : h.Invalid sectorCount ↔ ((simpleTests sectorCount h).any id = true ∨
      sectorSize % h.entrySize ≠ 0) ∨ 2 ^ 64 ≤ h.entriesLba + h.entriesSectors ∨
        h.entriesLba < 2 ∨ h.firstUsableLba < h.entriesLba + h.entriesSectors := by
    simp only [Header.Invalid, simpleTests, any_cons, any_nil, id_eq, Bool.or_eq_true,
      decide_eq_true_eq, Bool.false_eq_true, or_false, or_assoc]
  rw [checkHeader, anyOf_headerTests]
  change (if (_ : Bool) = true then _ else _) = _
  by_cases htests : (simpleTests sectorCount h).any id = true ∨ sectorSize % h.entrySize ≠ 0
  · rw [if_pos (by simpa using htests), if_pos (hinvalid.mpr (Or.inl htests))]
  rw [if_neg (by simpa using htests)]
  have hcount : h.entryCount ≤ 128 ∧ h.entrySize ≤ 512 := by
    simp only [simpleTests, any_cons, any_nil, id_eq, Bool.or_eq_true, decide_eq_true_eq,
      not_or] at htests
    omega
  have hbytes : h.entryCount * h.entrySize ≤ 128 * 512 := Nat.mul_le_mul hcount.1 hcount.2
  have hmul : (checkedMul h.entryCount h.entrySize .invalidHeader : Checked GptError ℕ) =
      .ok (h.entryCount * h.entrySize) := if_pos (by rw [wordLimit]; omega)
  have hround : (checkedAdd (h.entryCount * h.entrySize) (sectorSize - 1) .invalidHeader :
      Checked GptError ℕ) = .ok (h.entryCount * h.entrySize + (sectorSize - 1)) :=
    if_pos (by rw [wordLimit]; omega)
  rw [hmul, ok_bind, hround, ok_bind, checkedAdd]
  have hsectors : (h.entryCount * h.entrySize + (sectorSize - 1)) / sectorSize =
      h.entriesSectors := rfl
  rw [hsectors]
  by_cases hend : h.entriesLba + h.entriesSectors < wordLimit
  · rw [if_pos hend, ok_bind]
    have hlimit : ¬ 2 ^ 64 ≤ h.entriesLba + h.entriesSectors := Nat.not_le.mpr hend
    have hiff : h.Invalid sectorCount ↔
        h.entriesLba < 2 ∨ h.firstUsableLba < h.entriesLba + h.entriesSectors := by
      rw [hinvalid, or_iff_right htests, or_iff_right hlimit]
    by_cases hbounds : h.entriesLba < 2 ∨ h.firstUsableLba < h.entriesLba + h.entriesSectors
    · rw [if_pos hbounds, if_pos (hiff.mpr hbounds)]
    · rw [if_neg hbounds, if_neg (mt hiff.mp hbounds)]
      rfl
  · rw [if_neg hend, fail_bind, if_pos (hinvalid.mpr (Or.inr (Or.inl (Nat.not_lt.mp hend))))]

/-! ### No panic -/

section Refinement

variable {α β : Type}

/-- A reader of the other model, whose errors are those of the source. -/
def asExact (m : GptProgram Empty α) : ExactProgram α := inside .error (fun c => c.elim) m

theorem asExact_bind (m : GptProgram Empty α) (f : α → GptProgram Empty β) :
    asExact (m >>= f) = asExact m >>= fun a => asExact (f a) := inside_bind _ _ m f

theorem ends_asExact {m : GptProgram Empty α} {P : α → Prop} (h : m.Ends (fun _ => True) P) :
    (asExact m).Ends (· ≠ .panic) P := Ends.inside (fun _ _ => nofun) h

theorem step_ok (a : α) (f : α → ExactProgram β) : step (.ok a) >>= f = f a := rfl

theorem readSector_bind (lba : ℕ) (f : List UInt8 → ExactProgram α)
    (g : Sector → GptProgram Empty α) (h : ∀ s : Sector, f (s.slice 0 sectorSize) = asExact (g s)) :
    readSector lba >>= f = asExact (Fallible.readSector .block lba >>= g) := by
  rw [asExact_bind, asExact, inside_readSector]
  refine congrArg ExceptT.mk (congrArg (Prog.read lba) (funext fun r => ?_))
  cases r with
  | ok s => exact h s
  | error e => rfl

/-- **The loop of the checksum.** -/
theorem entriesChecksumFrom_eq (checksum : UInt32) (remaining lba : ℕ)
    (h : lba + (remaining + (sectorSize - 1)) / sectorSize < wordLimit) :
    entriesChecksumFrom checksum remaining lba =
      asExact (Gpt.entriesChecksumFrom checksum remaining lba) := by
  have hsize : sectorSize = 512 := rfl
  induction remaining using Nat.strong_induction_on generalizing checksum lba with
  | _ remaining ih =>
    rw [entriesChecksumFrom, Gpt.entriesChecksumFrom]
    by_cases hzero : remaining = 0
    · rw [dif_pos hzero, dif_pos hzero]
      rfl
    · rw [dif_neg hzero, dif_neg hzero]
      refine readSector_bind lba _ _ fun sector => ?_
      have hmin : min remaining sectorSize ≤ remaining ∧ min remaining sectorSize ≤ sectorSize ∧
          0 < min remaining sectorSize := by omega
      have hsub : (sub remaining (min remaining sectorSize) : Checked GptError ℕ) =
          .ok (remaining - min remaining sectorSize) := if_pos hmin.1
      have hnext : lba + 1 < wordLimit ∧ lba + 1 + (remaining - min remaining sectorSize +
          (sectorSize - 1)) / sectorSize < wordLimit := by
        rw [hsize] at h ⊢
        omega
      have hadd : (add lba 1 : Checked GptError ℕ) = .ok (lba + 1) := if_pos hnext.1
      dsimp only
      rw [slice_slice (Nat.zero_le _) hmin.2.1, step_ok, hsub, step_ok, hadd, step_ok, Nat.sub_zero]
      exact ih _ (by omega) _ _ hnext.2

theorem partitionEntriesChecksum_eq {entriesLba entriesBytes : ℕ}
    (h : entriesLba + (entriesBytes + (sectorSize - 1)) / sectorSize < wordLimit) :
    partitionEntriesChecksum entriesLba entriesBytes =
      asExact (Gpt.partitionEntriesChecksum entriesLba entriesBytes) := by
  rw [partitionEntriesChecksum, Gpt.partitionEntriesChecksum, asExact_bind,
    entriesChecksumFrom_eq _ _ _ h]
  rfl

/-- **No panic in `read_primary`**, whatever is on the disk. -/
theorem readPrimary_eq (sectorCount : ℕ) :
    readPrimary sectorCount = asExact (Gpt.readPrimary sectorCount) := by
  refine readSector_bind 1 _ _ fun sector => ?_
  dsimp only
  have hsize : sectorSize = 512 := rfl
  have hexpected : readU32 (sector.slice 0 sectorSize) 16 = .ok (Gpt.readU32 sector 16) := by
    rw [readU32_slice (by omega) le_rfl, Nat.zero_add]
  rw [slice_slice (by omega) (by omega), step_ok, Nat.zero_add, Nat.sub_zero]
  by_cases hsignature : sector.slice 0 8 ≠ signature
  · rw [if_pos hsignature, if_pos hsignature]
    rfl
  rw [if_neg hsignature, if_neg hsignature, readHeader_slice, step_ok, checkHeader_eq]
  by_cases hinvalid : (Header.read sector).Invalid sectorCount
  · rw [if_pos hinvalid, if_pos hinvalid]
    rfl
  have hheader : (Header.read sector).headerSize ≤ sectorSize ∧
      (Header.read sector).entriesLba + (Header.read sector).entriesSectors < wordLimit := by
    simp only [Header.Invalid, not_or, not_not, Nat.not_le] at hinvalid
    exact ⟨hinvalid.1.2, hinvalid.2.2.2.2.2.2.2.2.2.2.2.2.2.1⟩
  rw [if_neg hinvalid, if_neg hinvalid, step_ok, hexpected, step_ok, copyRange_slice, step_ok,
    slice_slice (Nat.zero_le _) hheader.1, step_ok, Nat.zero_add, Nat.sub_zero]
  by_cases hchecksum : (headerChecksum sector (Header.read sector).headerSize).toNat ≠
      Gpt.readU32 sector 16
  · rw [if_pos hchecksum]
    exact if_pos hchecksum
  rw [if_neg hchecksum, asExact_bind]
  refine (if_neg hchecksum).trans ?_
  rw [partitionEntriesChecksum_eq hheader.2]
  refine bind_congr fun checksum => ?_
  split <;> rfl

end Refinement

end Exact

/-- The number of sectors of the entries. -/
def entriesSectors (gpt : Gpt) : ℕ :=
  (gpt.entryCount * gpt.entrySize + (sectorSize - 1)) / sectorSize

/-- What is true of every table that is read: the entries lie behind the header and in front of the
usable sectors, and the usable sectors end with the device. -/
structure InBounds (sectorCount : ℕ) (gpt : Gpt) : Prop where
  entriesLba : 2 ≤ gpt.entriesLba
  entriesEnd : gpt.entriesLba + gpt.entriesSectors ≤ gpt.firstUsableLba
  limit : gpt.entriesLba + gpt.entriesSectors < 2 ^ 64
  usable : gpt.firstUsableLba ≤ gpt.lastUsableLba
  device : gpt.lastUsableLba < sectorCount
  entryCount : gpt.entryCount ≤ maxEntryCount
  entrySize : 128 ≤ gpt.entrySize
  entrySize_le : gpt.entrySize ≤ maxEntrySize
  entrySize_dvd : gpt.entrySize ∣ sectorSize

namespace InBounds

variable {sectorCount index : ℕ} {gpt : Gpt}

theorem entry_fits (h : gpt.InBounds sectorCount) (index : ℕ) :
    index * gpt.entrySize % sectorSize + gpt.entrySize ≤ sectorSize := by
  obtain ⟨n, hn⟩ := h.entrySize_dvd
  have hpos : 0 < gpt.entrySize := by
    have := h.entrySize
    omega
  have hnpos : 0 < n := by
    rcases Nat.eq_zero_or_pos n with rfl | hpos
    · rw [Nat.mul_zero] at hn
      cases hn
    · exact hpos
  have hmod : index * gpt.entrySize % sectorSize = index % n * gpt.entrySize := by
    rw [hn, Nat.mul_comm gpt.entrySize n, Nat.mul_mod_mul_right]
  have hlt : index % n + 1 ≤ n := Nat.mod_lt index hnpos
  calc index * gpt.entrySize % sectorSize + gpt.entrySize
      = (index % n + 1) * gpt.entrySize := by rw [hmod, Nat.succ_mul]
    _ ≤ n * gpt.entrySize := Nat.mul_le_mul_right _ hlt
    _ = sectorSize := by rw [hn, Nat.mul_comm]

/-- **An entry is read from the sectors of the entries.** -/
theorem entry_lba (hindex : index < gpt.entryCount) (hsize : 0 < gpt.entrySize) :
    index * gpt.entrySize / sectorSize < gpt.entriesSectors := by
  have hlt : index * gpt.entrySize < gpt.entryCount * gpt.entrySize :=
    mul_lt_mul_of_pos_right hindex hsize
  rw [entriesSectors]
  generalize index * gpt.entrySize = a at hlt
  generalize gpt.entryCount * gpt.entrySize = b at hlt
  rw [show sectorSize = 512 from rfl]
  omega

end InBounds

/-! ### Looking a partition up -/

namespace Exact

open Checked

section Lookup

variable {sectorCount : ℕ} {gpt : Gpt}

theorem decodeEntry_slice {s : Sector} {off len : ℕ} (hlen : 128 ≤ len) (hsize : len ≤ sectorSize) :
    decodeEntry (s.slice off len) = .ok (Gpt.decodeEntry s off) := by
  have hcopy : ∀ bs : List UInt8, bs.length = 16 → (copyRange (List.replicate 16 0) 0 16 bs :
      Checked GptError (List UInt8)) = .ok bs := fun bs hbs => by
    rw [copyRange, if_pos ⟨by decide, by decide, hbs⟩]
    simp
  have h₆₄ : ∀ k, k + 8 ≤ 128 → readU64 (s.slice off len) k = .ok (Gpt.readU64 s (off + k)) :=
    fun k hk => readU64_slice (by omega) hsize
  rw [decodeEntry, slice_slice (zero_le _) (by omega), ok_bind,
    hcopy _ (Sector.length_slice ..), ok_bind, Gpt.decodeEntry, add_zero]
  by_cases hunused : s.slice off 16 = List.replicate 16 0
  · rw [if_pos hunused, if_pos hunused]
    rfl
  · rw [if_neg hunused, if_neg hunused, slice_slice (by omega) (by omega), ok_bind,
      hcopy _ (Sector.length_slice ..), ok_bind, h₆₄ 32 (by omega), ok_bind, h₆₄ 40 (by omega),
      ok_bind, h₆₄ 48 (by omega), ok_bind]
    rfl

/-- **No panic in `partition`**, of a table that was read. -/
theorem partition_eq (h : gpt.InBounds sectorCount) (index : ℕ) :
    partition gpt index = asExact (gpt.partition index) := by
  have hsize : sectorSize = 512 := rfl
  rw [partition, Gpt.partition]
  by_cases hindex : gpt.entryCount ≤ index
  · rw [if_pos hindex, if_pos hindex]
    rfl
  rw [if_neg hindex, if_neg hindex]
  have hpos : 0 < gpt.entrySize := Nat.lt_of_lt_of_le (by decide) h.entrySize
  have hlba := InBounds.entry_lba (Nat.not_le.mp hindex) hpos
  have hfits := h.entry_fits index
  have hoffset : index * gpt.entrySize < wordLimit := by
    have hle : index * gpt.entrySize ≤ 128 * 512 := Nat.mul_le_mul
      ((Nat.not_le.mp hindex).le.trans h.entryCount) h.entrySize_le
    rw [wordLimit]
    omega
  have hmul : (mul index gpt.entrySize : Checked GptError ℕ) = .ok (index * gpt.entrySize) :=
    if_pos hoffset
  have hadd : (add gpt.entriesLba (index * gpt.entrySize / sectorSize) : Checked GptError ℕ) =
      .ok (gpt.entriesLba + index * gpt.entrySize / sectorSize) :=
    if_pos (Nat.lt_trans (Nat.add_lt_add_left hlba _) h.limit)
  have hstop : (add (index * gpt.entrySize % sectorSize) gpt.entrySize : Checked GptError ℕ) =
      .ok (index * gpt.entrySize % sectorSize + gpt.entrySize) :=
    if_pos (by rw [wordLimit]; omega)
  rw [hmul, step_ok, hadd, step_ok]
  refine readSector_bind _ _ _ fun sector => ?_
  rw [hstop, step_ok, slice_slice (Nat.le_add_right _ _) hfits, step_ok, Nat.zero_add,
    Nat.add_sub_cancel_left, decodeEntry_slice h.entrySize h.entrySize_le, step_ok]
  cases Gpt.decodeEntry sector (index * gpt.entrySize % sectorSize) with
  | none => rfl
  | some p =>
    dsimp only
    split <;> rfl

theorem findFrom_eq (h : gpt.InBounds sectorCount) (typeGuid : List UInt8) (remaining index : ℕ) :
    findFrom gpt typeGuid remaining index =
      asExact (Gpt.findFrom gpt typeGuid remaining index) := by
  induction remaining generalizing index with
  | zero => rfl
  | succ remaining ih =>
    rw [findFrom, Gpt.findFrom, asExact_bind, partition_eq h]
    refine bind_congr fun found => ?_
    cases found with
    | none => exact ih (index + 1)
    | some p =>
      dsimp only
      split
      · rfl
      · exact ih (index + 1)

/-- **No panic in `find_partition`**, of a table that was read. -/
theorem findPartition_eq (h : gpt.InBounds sectorCount) (typeGuid : List UInt8) :
    findPartition gpt typeGuid = asExact (gpt.findPartition typeGuid) :=
  findFrom_eq h typeGuid gpt.entryCount 0

end Lookup

end Exact

/-! ### What is returned -/

/-- The usable sectors. -/
def usable (gpt : Gpt) : Set ℕ := Set.Icc gpt.firstUsableLba gpt.lastUsableLba

/-- The sectors of the entries. -/
def entries (gpt : Gpt) : Set ℕ := Set.Ico gpt.entriesLba (gpt.entriesLba + gpt.entriesSectors)

/-- The sectors of a partition. -/
def partitionSectors (p : Partition) : Set ℕ := Set.Icc p.firstLba p.lastLba

section Results

variable {sectorCount : ℕ} {gpt : Gpt}

theorem inBounds_of_valid {h : Header} (hvalid : ¬ h.Invalid sectorCount) :
    InBounds sectorCount
      ⟨h.firstUsableLba, h.lastUsableLba, h.entriesLba, h.entryCount, h.entrySize⟩ := by
  simp only [Header.Invalid, not_or, not_not, not_le, not_lt] at hvalid
  obtain ⟨-, -, -, -, -, hle, hdevice, -, hcount, hsize, hsize', -, hdvd, hlimit, hentries, hend⟩ :=
    hvalid
  exact ⟨hentries, hend, hlimit, hle, hdevice, hcount, hsize, hsize', dvd_of_mod_eq_zero hdvd⟩

/-- **A table that is read is in bounds.** -/
theorem ends_readPrimary (sectorCount : ℕ) :
    (readPrimary sectorCount : GptProgram Empty Gpt).Ends (fun _ => True)
      (InBounds sectorCount) := by
  refine (ends_readSector (fun _ => trivial) 1).bind fun sector _ => ?_
  split
  · exact ends_throw trivial
  dsimp only
  split
  · exact ends_throw trivial
  rename_i hvalid
  split
  · exact ends_throw trivial
  have hchecksum : (partitionEntriesChecksum (Header.read sector).entriesLba
      ((Header.read sector).entryCount * (Header.read sector).entrySize) :
      GptProgram Empty UInt32).Ends (fun _ => True) fun _ => True :=
    Prog.endsIn_of_forall (fun r => by cases r <;> exact trivial) _
  refine hchecksum.bind fun checksum _ => ?_
  split
  · exact ends_throw trivial
  · exact ends_pure (inBounds_of_valid hvalid)

/-- A partition among the usable sectors. -/
def Holds (gpt : Gpt) (p : Partition) : Prop :=
  gpt.firstUsableLba ≤ p.firstLba ∧ p.firstLba ≤ p.lastLba ∧ p.lastLba ≤ gpt.lastUsableLba

theorem ends_partition (gpt : Gpt) (index : ℕ) :
    (gpt.partition index : GptProgram Empty (Option Partition)).Ends (fun _ => True)
      fun found => ∀ p, found = some p → gpt.Holds p := by
  rw [partition]
  split
  · exact ends_pure nofun
  refine (ends_readSector (fun _ => trivial) _).bind fun sector _ => ?_
  split
  · exact ends_pure nofun
  · split
    · exact ends_throw trivial
    · rename_i hbounds
      refine ends_pure ?_
      rintro _ ⟨⟩
      simp only [not_or, not_lt] at hbounds
      exact ⟨hbounds.1, hbounds.2.2, hbounds.2.1⟩

theorem ends_findFrom (gpt : Gpt) (typeGuid : List UInt8) (remaining index : ℕ) :
    (findFrom gpt typeGuid remaining index : GptProgram Empty Partition).Ends (fun _ => True)
      gpt.Holds := by
  induction remaining generalizing index with
  | zero => exact ends_throw trivial
  | succ remaining ih =>
    refine (ends_partition gpt index).bind fun found hfound => ?_
    cases found with
    | none => exact ih (index + 1)
    | some p =>
      dsimp only
      split
      · exact ends_pure (hfound p rfl)
      · exact ih (index + 1)

/-- **A lookup reads only the entries.** -/
theorem readsIn_findFrom (h : gpt.InBounds sectorCount) (typeGuid : List UInt8)
    (remaining index : ℕ) :
    (findFrom gpt typeGuid remaining index : GptProgram Empty Partition).run.ReadsIn
      (· ∈ gpt.entries) := by
  have hpos : 0 < gpt.entrySize := Nat.lt_of_lt_of_le (by decide) h.entrySize
  induction remaining generalizing index with
  | zero => exact trivial
  | succ remaining ih =>
    refine readsIn_bind (m := gpt.partition index) ?_ fun found => ?_
    · rw [partition]
      split
      · exact trivial
      rename_i hindex
      have hlba := InBounds.entry_lba (Nat.not_le.mp hindex) hpos
      refine readsIn_bind (m := (Fallible.readSector GptError.block _ : GptProgram Empty Sector))
        ⟨⟨Nat.le_add_right _ _, Nat.add_lt_add_left hlba _⟩, fun _ => trivial⟩ fun sector => ?_
      split
      · exact trivial
      · split <;> exact trivial
    · cases found with
      | none => exact ih (index + 1)
      | some p =>
        dsimp only
        split
        · exact trivial
        · exact ih (index + 1)

/-- **Reading is safe on any disk.** Whatever a device answers, `read_primary` does not panic, and
the usable sectors of a table that it returns are sectors of the device, apart from the header and
from the entries. Whatever a device answers then, `find_partition` reads only the entries and does
not panic, and the partition that it returns lies among the usable sectors. -/
theorem partition_in_bounds {σ : Type} (dev : Device σ Sector BlockError) (s : σ)
    (sectorCount : ℕ) :
    let table := ((Exact.readPrimary sectorCount).run.serve dev s).value
    table ≠ .error .panic ∧ ∀ gpt, table = .ok gpt →
      gpt.usable ⊆ Set.Iio sectorCount ∧ Disjoint gpt.usable (insert 1 gpt.entries) ∧
        ∀ (τ : Type) (dev' : Device τ Sector BlockError) (t : τ) (typeGuid : List UInt8),
          let found := ((Exact.findPartition gpt typeGuid).run.serve dev' t).value
          found ≠ .error .panic ∧
            (Exact.findPartition gpt typeGuid).run.ReadsIn (· ∈ gpt.entries) ∧
            ∀ p, found = .ok p →
              (partitionSectors p).Nonempty ∧ partitionSectors p ⊆ gpt.usable := by
  intro table
  have htable : Ending (· ≠ .panic) (InBounds sectorCount) table := by
    have hread := Exact.ends_asExact (ends_readPrimary sectorCount)
    rw [← Exact.readPrimary_eq] at hread
    exact hread.serve s
  refine ⟨fun hpanic => ?_, fun gpt hgpt => ?_⟩
  · rw [hpanic] at htable
    exact htable rfl
  rw [hgpt] at htable
  have hbounds : gpt.InBounds sectorCount := htable
  refine ⟨fun lba hlba => Nat.lt_of_le_of_lt hlba.2 hbounds.device, ?_, ?_⟩
  · refine Set.disjoint_left.mpr fun lba hlba hmem => ?_
    have hend := hbounds.entriesEnd
    have hfirst := hbounds.entriesLba
    have hle : gpt.firstUsableLba ≤ lba := hlba.1
    rcases hmem with rfl | hmem
    · omega
    · have hlt : lba < gpt.entriesLba + gpt.entriesSectors := hmem.2
      omega
  intro τ dev' t typeGuid found
  have hfound : Ending (· ≠ .panic) gpt.Holds found := by
    have hfind := Exact.ends_asExact (ends_findFrom gpt typeGuid gpt.entryCount 0)
    rw [← Exact.findFrom_eq hbounds] at hfind
    exact hfind.serve t
  refine ⟨fun hpanic => ?_, ?_, fun p hp => ?_⟩
  · rw [hpanic] at hfound
    exact hfound rfl
  · rw [Exact.findPartition_eq hbounds]
    exact readsIn_inside (readsIn_findFrom hbounds typeGuid gpt.entryCount 0)
  · rw [hp] at hfound
    have hholds : gpt.Holds p := hfound
    exact ⟨Set.nonempty_Icc.mpr hholds.2.1, Set.Icc_subset_Icc hholds.1 hholds.2.2⟩

end Results

end Gpt

end ImagineOS
