import ImagineOS.Dfs.Layout
import ImagineOS.BlockProgram.Cache
import Mathlib.Data.List.Nodup

/-!
# DFS: the journal

A transaction is at most sixteen sectors with their targets. `commitTransaction` writes them to the
journal payload, publishes them with a header that carries the targets and a checksum, copies them
to their targets, and clears the header, with a flush after each of the four. `replayJournal`, run
at every mount, repeats the last two when it finds a header.
-/

namespace ImagineOS.Dfs

open BlockProgram List Sector Fallible Cache

/-! ### Transactions -/

/-- `JOURNAL_MAGIC`: the ASCII letters `DFSTXN01` -/
def journalMagic : List UInt8 := [0x44, 0x46, 0x53, 0x54, 0x58, 0x4e, 0x30, 0x31]

/-- `Transaction`: the first `count` targets with their data. -/
@[ext] structure Transaction where
  entries : List (ℕ × Sector)
  bound : entries.length ≤ transactionSectors

namespace Transaction

/-- `Transaction::new` -/
def new : Transaction := ⟨[], by decide⟩

/-- `Transaction::add`: a target that is already there gets the new data. -/
def add (transaction : Transaction) (lba : ℕ) (sector : Sector) : Except DfsError Transaction :=
  if lba ∈ transaction.entries.map Prod.fst then
    .ok ⟨transaction.entries.map fun e => if e.1 = lba then (lba, sector) else e, by
      simpa using transaction.bound⟩
  else if h : transaction.entries.length < transactionSectors then
    .ok ⟨transaction.entries ++ [(lba, sector)], by
      rw [List.length_append, List.length_singleton]; exact h⟩
  else .error .journalFull

end Transaction

def transactionChecksum (entries : List (ℕ × Sector)) : UInt32 :=
  ~~~(entries.foldl (fun crc e => crc32Update (crc32Update crc (leBytes 8 e.1)) (e.2.slice 0 512))
    (~~~0))

/-- The fields of the commit record of a transaction. -/
def headerFields (entries : List (ℕ × Sector)) : List (ℕ × List UInt8) :=
  (0, journalMagic) :: (8, [1, UInt8.ofNat entries.length]) ::
    (10, leBytes 4 (transactionChecksum entries).toNat) ::
    entries.mapIdx fun i e => (16 + i * 8, leBytes 8 e.1)

/-- The commit record of a transaction. -/
def transactionHeader (entries : List (ℕ × Sector)) : Sector :=
  zeroSector.putFields (headerFields entries)

/-- `header.iter().all(|byte| *byte == 0)` -/
def isZero (s : Sector) : Bool := (List.range 512).all fun i => s.byte i == 0

variable {s : Sector}

theorem isZero_iff : isZero s ↔ s = zeroSector := by
  simp only [isZero, all_eq_true, mem_range, beq_iff_eq]
  constructor
  · intro h
    funext i
    rw [← byte_of_lt s i.isLt, h i i.isLt, zeroSector]
  · rintro rfl i -
    exact byte_zeroSector i

/-! ### Committing and replaying -/

section Programs

variable (L : Layout)

/-- Where the data of a transaction goes in the journal. -/
def payload (entries : List (ℕ × Sector)) : List (ℕ × Sector) :=
  entries.mapIdx fun i e => (L.journalLba + 1 + i, e.2)

/-- The common tail of `commit_transaction` and `replay_journal`: copy every sector to its target,
then clear the commit record. -/
def applyTransaction (entries : List (ℕ × Sector)) : DfsProgram Empty Unit := do
  Fallible.writeSectors .block entries
  flush
  writeSector L.journalLba zeroSector
  flush

def commitTransaction (transaction : Transaction) : DfsProgram Empty Unit := do
  Fallible.writeSectors .block (payload L transaction.entries)
  flush
  writeSector L.journalLba (transactionHeader transaction.entries)
  flush
  applyTransaction L transaction.entries

/-- A sector a transaction may target: in the partition and outside the journal. -/
def Layout.Targetable (lba : ℕ) : Prop := L.InPartition lba ∧ ¬ L.InJournal lba

instance (lba : ℕ) : Decidable (L.Targetable lba) := inferInstanceAs (Decidable (_ ∧ _))

/-- The loop of `replay_journal` over the entries of a commit record, from entry `i`. -/
def readEntries (header : Sector) : ℕ → ℕ → DfsProgram Empty (List (ℕ × Sector))
  | _, 0 => pure []
  | i, n + 1 =>
    let target := leNat (header.slice (16 + i * 8) 8)
    if L.Targetable target then do
      let data ← readSector (L.journalLba + 1 + i)
      let rest ← readEntries header (i + 1) n
      pure ((target, data) :: rest)
    else throw .corruptMetadata

def replayJournal : DfsProgram Empty Unit := do
  let header ← readSector L.journalLba
  if isZero header then pure ()
  else if header.slice 0 8 ≠ journalMagic then throw .corruptMetadata
  else if header.byte 8 = 0 then do
    writeSector L.journalLba zeroSector
    flush
  else
    let count := (header.byte 9).toNat
    if header.byte 8 ≠ 1 ∨ count = 0 ∨ transactionSectors < count then throw .corruptMetadata
    else do
      let entries ← readEntries L header 0 count
      if (transactionChecksum entries).toNat ≠ leNat (header.slice 10 4) then
        throw .corruptMetadata
      else applyTransaction L entries

end Programs

/-! ### Reading a commit record back -/

section Header

variable {entries : List (ℕ × Sector)}

theorem pairwise_headerFields : (headerFields entries).Pairwise Sector.FieldsApart := by
  have hmagic : journalMagic.length = 8 := rfl
  have htargets := pairwise_fieldsApart_mapIdx (fun e : ℕ × Sector => length_leBytes 8 e.1)
    16 entries
  simp only [headerFields, pairwise_cons, forall_mem_cons, mem_mapIdx,
    Sector.FieldsApart, hmagic, length_leBytes, length_cons, length_nil]
  refine ⟨⟨by omega, by omega, ?_⟩, ⟨by omega, ?_⟩, ?_, htargets⟩
  all_goals
    rintro f ⟨i, hi, rfl⟩
    omega

theorem slice_header (off : ℕ) (bs : List UInt8) (h : (off, bs) ∈ headerFields entries)
    (hoff : off + bs.length ≤ 512) : (transactionHeader entries).slice off bs.length = bs :=
  slice_putFields pairwise_headerFields h hoff

theorem slice_header_magic : (transactionHeader entries).slice 0 8 = journalMagic :=
  slice_header 0 journalMagic (by simp [headerFields]) (by decide)

theorem slice_header_state :
    (transactionHeader entries).slice 8 2 = [1, UInt8.ofNat entries.length] :=
  slice_header 8 [1, UInt8.ofNat entries.length] (by simp [headerFields]) (by simp)

theorem slice_header_checksum :
    leNat ((transactionHeader entries).slice 10 4) = (transactionChecksum entries).toNat := by
  have hmem : (10, leBytes 4 (transactionChecksum entries).toNat) ∈ headerFields entries := by
    simp [headerFields]
  have h := slice_header _ _ hmem (by simp)
  rw [length_leBytes] at h
  rw [h, leNat_leBytes (UInt32.toNat_lt _)]

theorem byte_header_state : (transactionHeader entries).byte 8 = 1 :=
  byte_of_slice slice_header_state (i := 0) (by simp)

theorem byte_header_count :
    (transactionHeader entries).byte 9 = UInt8.ofNat entries.length :=
  byte_of_slice slice_header_state (i := 1) (by simp)

theorem transactionHeader_ne_zeroSector : transactionHeader entries ≠ zeroSector := by
  intro h
  have hstate : (transactionHeader entries).byte 8 = 1 := byte_header_state
  rw [h, byte_zeroSector] at hstate
  exact absurd hstate (by decide)

theorem slice_header_target {j : ℕ} (hlen : entries.length ≤ transactionSectors)
    (hj : j < entries.length) (h64 : entries[j].1 < 2 ^ 64) :
    leNat ((transactionHeader entries).slice (16 + j * 8) 8) = entries[j].1 := by
  have hmem : (16 + j * 8, leBytes 8 entries[j].1) ∈ headerFields entries := by
    simp only [headerFields, mem_cons, mem_mapIdx]
    exact Or.inr (Or.inr (Or.inr ⟨j, hj, rfl⟩))
  have hts : transactionSectors = 16 := rfl
  have h := slice_header _ _ hmem (by rw [length_leBytes]; omega)
  rw [length_leBytes] at h
  rw [h, leNat_leBytes (by simpa using h64)]

end Header

/-! ### The phases of a transaction

The header and the payload tell the phases apart; the rest of the partition holds old contents, a
mixture, or new contents. In the two middle phases the header on the media may be either of two,
because its write may still be in the cache. -/

/-- How far a transaction has come: the payload is being written; the commit record is being
written; the targets are being written; the commit record is being cleared; it is cleared. -/
inductive Phase where
  | before
  | committing
  | applying
  | clearing
  | done

section Phases

variable (L : Layout) (base : ℕ → Set Sector) (entries : List (ℕ × Sector))

/-- A bound on the header, the payload and the rest of the disk. -/
def areaBound (header : Set Sector) (payload rest : ℕ → Set Sector) (lba : ℕ) : Set Sector :=
  if lba = L.journalLba then header else if L.InJournal lba then payload lba else rest lba

/-- The payload of the transaction. -/
def payloadBound (lba : ℕ) : Set Sector :=
  {s | ∀ (i : ℕ) (h : i < entries.length), lba = L.journalLba + 1 + i → s = entries[i].2}

/-- The old contents or a new one. -/
def mixedBound (lba : ℕ) : Set Sector := {s | (lba, s) ∈ entries ∨ s ∈ base lba}

/-- The new contents of the targets, the old contents of everything else. -/
def newBound (lba : ℕ) : Set Sector :=
  {s | (lba, s) ∈ entries ∨ (lba ∉ entries.map Prod.fst ∧ s ∈ base lba)}

/-- What a power failure can leave in each sector, phase by phase. -/
def phaseBound : Phase → ℕ → Set Sector
  | .before => areaBound L {zeroSector} (fun _ => Set.univ) base
  | .committing => areaBound L {zeroSector, transactionHeader entries} (payloadBound L entries) base
  | .applying =>
    areaBound L {transactionHeader entries} (payloadBound L entries) (mixedBound base entries)
  | .clearing => areaBound L {zeroSector, transactionHeader entries} (payloadBound L entries)
      (newBound base entries)
  | .done => areaBound L {zeroSector} (fun _ => Set.univ) (newBound base entries)

/-- The device is in one of the phases. -/
def Recoverable (σ : Cache Sector) : Prop := ∃ ph, σ.Within (phaseBound L base entries ph)

variable {L base entries} {header header' : Set Sector}
    {payload payload' rest rest' : ℕ → Set Sector}
  {d : ℕ → Sector}

theorem mem_areaBound_header :
    d L.journalLba ∈ areaBound L header payload rest L.journalLba ↔ d L.journalLba ∈ header := by
  simp [areaBound]

theorem mem_areaBound_imp (h : ∀ lba, d lba ∈ areaBound L header payload rest lba)
    (hheader : d L.journalLba ∈ header → d L.journalLba ∈ header')
    (hpayload : ∀ lba, L.InJournal lba → d lba ∈ payload lba → d lba ∈ payload' lba)
    (hrest : ∀ lba, ¬ L.InJournal lba → d lba ∈ rest lba → d lba ∈ rest' lba) (lba : ℕ) :
    d lba ∈ areaBound L header' payload' rest' lba := by
  have hd := h lba
  unfold areaBound at hd ⊢
  split
  · rename_i hlba
    rw [if_pos hlba] at hd
    rw [hlba] at hd ⊢
    exact hheader hd
  · rename_i hlba
    rw [if_neg hlba] at hd
    split
    · rename_i hj
      rw [if_pos hj] at hd
      exact hpayload lba hj hd
    · rename_i hj
      rw [if_neg hj] at hd
      exact hrest lba hj hd

variable {lba : ℕ}

theorem mem_areaBound_of_not_inJournal (h : ¬ L.InJournal lba) :
    s ∈ areaBound L header payload rest lba ↔ s ∈ rest lba := by
  have hne : lba ≠ L.journalLba := by
    rintro rfl
    exact h ⟨le_rfl, Nat.lt_add_of_pos_right (by decide)⟩
  rw [areaBound, if_neg hne, if_neg h]

theorem mem_before_header :
    s ∈ phaseBound L base entries .before L.journalLba ↔ s = zeroSector := by
  simp [phaseBound, areaBound]

theorem mem_done_header :
    s ∈ phaseBound L base entries .done L.journalLba ↔ s = zeroSector := by
  simp [phaseBound, areaBound]

theorem mem_before_of_not_inJournal (h : ¬ L.InJournal lba) :
    s ∈ phaseBound L base entries .before lba ↔ s ∈ base lba := by
  rw [phaseBound, mem_areaBound_of_not_inJournal h]

theorem mem_done_of_not_inJournal (h : ¬ L.InJournal lba) :
    s ∈ phaseBound L base entries .done lba ↔ s ∈ newBound base entries lba := by
  rw [phaseBound, mem_areaBound_of_not_inJournal h]

/-- **What a mount can find**: nothing begun, a transaction to repeat, or a transaction done. -/
theorem Phase.restart {ph : Phase} (h : ∀ lba, d lba ∈ phaseBound L base entries ph lba) :
    (∀ lba, d lba ∈ phaseBound L base entries .before lba) ∨
      (∀ lba, d lba ∈ phaseBound L base entries .applying lba) ∨
      (∀ lba, d lba ∈ phaseBound L base entries .done lba) := by
  cases ph with
  | before => exact Or.inl h
  | applying => exact Or.inr (Or.inl h)
  | done => exact Or.inr (Or.inr h)
  | committing =>
    rcases mem_areaBound_header.mp (h L.journalLba) with hz | hz
    · exact Or.inl (mem_areaBound_imp h (fun _ => hz) (fun _ _ _ => trivial) fun _ _ hr => hr)
    · exact Or.inr (Or.inl (mem_areaBound_imp h (fun _ => hz) (fun _ _ hp => hp)
        fun _ _ hr => Or.inr hr))
  | clearing =>
    rcases mem_areaBound_header.mp (h L.journalLba) with hz | hz
    · exact Or.inr (Or.inr (mem_areaBound_imp h (fun _ => hz) (fun _ _ _ => trivial)
        fun _ _ hr => hr))
    · exact Or.inr (Or.inl (mem_areaBound_imp h (fun _ => hz) (fun _ _ hp => hp)
        fun _ _ hr => hr.imp_right And.right))

end Phases

/-! ### Crash safety of committing and replaying -/

section Safety

variable {L : Layout} {base : ℕ → Set Sector} {entries : List (ℕ × Sector)} {faulty : Prop}
  {σ : Cache Sector}

/-- What a transaction may contain: distinct targets in the partition and outside the journal. -/
structure Admissible (L : Layout) (entries : List (ℕ × Sector)) : Prop where
  ne_nil : entries ≠ []
  bound : entries.length ≤ transactionSectors
  nodup : (entries.map Prod.fst).Nodup
  targetable : ∀ e ∈ entries, L.Targetable e.1

instance (L : Layout) (entries : List (ℕ × Sector)) : Decidable (Admissible L entries) :=
  decidable_of_iff (entries ≠ [] ∧ entries.length ≤ transactionSectors ∧
      (entries.map Prod.fst).Nodup ∧ ∀ e ∈ entries, L.Targetable e.1)
    ⟨fun h => ⟨h.1, h.2.1, h.2.2.1, h.2.2.2⟩, fun h => ⟨h.1, h.2, h.3, h.4⟩⟩

theorem mem_payload {w : ℕ × Sector} (hw : w ∈ payload L entries) :
    ∃ (i : ℕ) (h : i < entries.length), w = (L.journalLba + 1 + i, entries[i].2) := by
  obtain ⟨i, h, rfl⟩ := mem_mapIdx.mp hw
  exact ⟨i, h, rfl⟩

theorem nodup_payload : ((payload L entries).map Prod.fst).Nodup := by
  have h : (payload L entries).map Prod.fst =
      (List.range entries.length).map (L.journalLba + 1 + ·) := by
    refine ext_getElem (by simp [payload]) fun i _ _ => ?_
    simp [payload]
  rw [h]
  exact nodup_range.map fun i j hij => by simpa using hij

theorem applyWrites_payload (d : ℕ → Sector) (lba : ℕ) :
    applyWrites (payload L entries) d lba ∈ payloadBound L entries lba := by
  rintro i h rfl
  exact applyWrites_of_mem (w := (L.journalLba + 1 + i, entries[i].2)) d nodup_payload
    (mem_mapIdx.mpr ⟨i, h, rfl⟩)

theorem applyWrites_entries {d : ℕ → Sector} {lba : ℕ} (hnd : (entries.map Prod.fst).Nodup)
    (h : applyWrites entries d lba ∈ mixedBound base entries lba) :
    applyWrites entries d lba ∈ newBound base entries lba := by
  by_cases hmem : lba ∈ entries.map Prod.fst
  · obtain ⟨e, he, rfl⟩ := mem_map.mp hmem
    rw [applyWrites_of_mem d hnd he]
    exact Or.inl he
  · exact h.imp_right fun hb => ⟨hmem, hb⟩

theorem Admissible.not_inJournal (h : Admissible L entries) {e : ℕ × Sector} (he : e ∈ entries) :
    ¬ L.InJournal e.1 := (h.targetable e he).2

/-- How a program that writes ends: within the bound `B`, or with an error of the device. -/
inductive Concludes (faulty : Prop) (B : ℕ → Set Sector) : Except DfsError Unit →
    Cache Sector → Prop
  | success {σ : Cache Sector} (h : σ.Within B) : Concludes faulty B (.ok ()) σ
  | failed {e : DfsError} {σ : Cache Sector} (h : faulty) : Concludes faulty B (.error e) σ

theorem Concludes.within {B : ℕ → Set Sector} (h : Concludes faulty B (.ok ()) σ) : σ.Within B := by
  cases h with
  | success h => exact h

theorem Concludes.of_healthy {B : ℕ → Set Sector} {r : Except DfsError Unit}
    (h : Concludes faulty B r σ) (hf : ¬ faulty) : r = .ok () ∧ σ.Within B := by
  cases h with
  | success h => exact ⟨rfl, h⟩
  | failed h => exact absurd h hf

/-- The common tail of the two programs. -/
theorem safe_applyTransaction (hE : Admissible L entries)
    (hσ : σ.Within (phaseBound L base entries .applying)) :
    (applyTransaction L entries).Safe faulty (Recoverable L base entries)
      (Concludes faulty (phaseBound L base entries .done)) σ := by
  have hI : ∀ ph (σ : Cache Sector), σ.Within (phaseBound L base entries ph) →
      Recoverable L base entries σ := fun ph σ h => ⟨ph, h⟩
  refine safe_bind (safe_writeSectors (hI .applying)
    (fun hf e σ h => ⟨hI _ _ h, .failed hf⟩) entries hσ ?_ fun σ₁ h₁ hview₁ => ?_)
  · intro e he
    exact (mem_areaBound_of_not_inJournal (hE.not_inJournal he)).mpr (Or.inl he)
  -- Every target is written: the flush makes all of it durable.
  have h₂ : σ₁.sync.Within (phaseBound L base entries .clearing) := by
    refine within_sync.mpr (mem_areaBound_imp h₁.view_mem (fun h => Or.inr h)
      (fun _ _ h => h) fun lba hj h => ?_)
    rw [hview₁] at h ⊢
    exact applyWrites_entries hE.nodup h
  refine safe_bind (safe_flush (hI _ _ h₁) (hI _ _ h₂) ?_
    fun hf e => ⟨hI _ _ h₁, .failed hf⟩)
  have h₃ : (σ₁.sync.write L.journalLba zeroSector).Within
      (phaseBound L base entries .clearing) := h₂.write (by simp [phaseBound, areaBound])
  refine safe_bind (safe_writeSector (hI _ _ h₂) (hI _ _ h₃) ?_
    fun hf e => ⟨⟨hI _ _ h₂, .failed hf⟩, hI _ _ h₃, .failed hf⟩)
  have h₄ : (σ₁.sync.write L.journalLba zeroSector).sync.Within
      (phaseBound L base entries .done) := by
    refine within_sync.mpr (mem_areaBound_imp h₃.view_mem (fun _ => ?_)
      (fun _ _ _ => trivial) fun _ _ h => h)
    rw [view_write, Function.update_self]
    rfl
  exact safe_flush (hI _ _ h₃) (hI _ _ h₄) (.success h₄) fun hf e => .failed hf

/-- **Committing is crash safe**, started on a device whose commit record is cleared. -/
theorem safe_commitTransaction {tx : Transaction} (hE : Admissible L tx.entries)
    (hσ : σ.Within (phaseBound L base tx.entries .before)) :
    (commitTransaction L tx).Safe faulty (Recoverable L base tx.entries)
      (Concludes faulty (phaseBound L base tx.entries .done)) σ := by
  have hI : ∀ ph (σ : Cache Sector), σ.Within (phaseBound L base tx.entries ph) →
      Recoverable L base tx.entries σ := fun ph σ h => ⟨ph, h⟩
  refine safe_bind (safe_writeSectors (hI .before)
    (fun hf e σ h => ⟨hI _ _ h, .failed hf⟩) _ hσ ?_ fun σ₁ h₁ hview₁ => ?_)
  · intro w hw
    obtain ⟨i, hi, rfl⟩ := mem_payload hw
    have hb := hE.bound
    have hj : L.InJournal (L.journalLba + 1 + i) := by
      simp only [Layout.InJournal, journalSectors, transactionSectors] at hb ⊢
      omega
    have hne : L.journalLba + 1 + i ≠ L.journalLba := by omega
    simp only [phaseBound, areaBound, if_neg hne, if_pos hj, Set.mem_univ]
  -- The payload is durable before the commit record is written.
  have h₂ : σ₁.sync.Within (phaseBound L base tx.entries .committing) := by
    refine within_sync.mpr (mem_areaBound_imp h₁.view_mem (fun h => Or.inl h)
      (fun lba _ _ => ?_) fun _ _ h => h)
    rw [hview₁]
    exact applyWrites_payload _ lba
  refine safe_bind (safe_flush (hI _ _ h₁) (hI _ _ h₂) ?_
    fun hf e => ⟨hI _ _ h₁, .failed hf⟩)
  have h₃ : (σ₁.sync.write L.journalLba (transactionHeader tx.entries)).Within
      (phaseBound L base tx.entries .committing) := h₂.write (by simp [phaseBound, areaBound])
  refine safe_bind (safe_writeSector (hI _ _ h₂) (hI _ _ h₃) ?_
    fun hf e => ⟨⟨hI _ _ h₂, .failed hf⟩, hI _ _ h₃, .failed hf⟩)
  have h₄ : (σ₁.sync.write L.journalLba (transactionHeader tx.entries)).sync.Within
      (phaseBound L base tx.entries .applying) := by
    refine within_sync.mpr (mem_areaBound_imp h₃.view_mem (fun _ => ?_)
      (fun _ _ h => h) fun _ _ h => Or.inr h)
    rw [view_write, Function.update_self]
    rfl
  refine safe_bind (safe_flush (hI _ _ h₃) (hI _ _ h₄) ?_
    fun hf e => ⟨hI _ _ h₃, .failed hf⟩)
  exact safe_applyTransaction hE h₄

/-- Reading the entries of a commit record gives back the transaction. -/
theorem safe_readEntries {I : Cache Sector → Prop} (hE : Admissible L entries) (hI : I σ)
    (hpayload : ∀ lba, L.InJournal lba → lba ≠ L.journalLba →
      σ.view lba ∈ payloadBound L entries lba)
    (i n : ℕ) (hn : i + n = entries.length) :
    (readEntries L (transactionHeader entries) i n).Safe faulty I
      (fun r σ' => r = .ok (entries.drop i) ∧ σ' = σ) σ := by
  induction n generalizing i with
  | zero =>
    refine safe_pure hI ⟨?_, rfl⟩
    rw [drop_of_length_le (by omega)]
  | succ n ih =>
    have hi : i < entries.length := by omega
    have hb := hE.bound
    have htarget := hE.targetable _ (getElem_mem hi)
    have h64 : entries[i].1 < 2 ^ 64 := htarget.1.2.trans L.bounded
    have hj : L.InJournal (L.journalLba + 1 + i) := by
      simp only [Layout.InJournal, journalSectors, transactionSectors] at hb ⊢
      omega
    simp only [readEntries, slice_header_target hb hi h64, if_pos htarget]
    refine safe_bind (safe_readSector hI ?_)
    refine safe_bind (Prog.Safe.mono (ih (i + 1) (by omega)) (fun _ => id) ?_)
    rintro r σ' hI' ⟨rfl, rfl⟩
    refine ⟨hI', ?_, rfl⟩
    rw [drop_eq_getElem_cons hi, hpayload _ hj (by omega) i hi rfl]

/-- **Replaying is crash safe**, started on a device with a transaction to repeat. -/
theorem safe_replayJournal (hE : Admissible L entries)
    (hσ : σ.Within (phaseBound L base entries .applying)) :
    (replayJournal L).Safe faulty (Recoverable L base entries)
      (Concludes faulty (phaseBound L base entries .done)) σ := by
  have hI : Recoverable L base entries σ := ⟨_, hσ⟩
  have hheader : σ.view L.journalLba = transactionHeader entries :=
    mem_areaBound_header.mp (hσ.view_mem L.journalLba)
  have hcount : (UInt8.ofNat entries.length).toNat = entries.length := by
    have hb := hE.bound
    simp only [transactionSectors, journalSectors] at hb
    simp only [UInt8.toNat_ofNat']
    omega
  have hpos : entries.length ≠ 0 := fun h => hE.ne_nil (length_eq_zero_iff.mp h)
  refine safe_bind (safe_readSector hI ?_)
  rw [hheader, thenSafe_ok,
    if_neg (by rw [isZero_iff]; exact transactionHeader_ne_zeroSector),
    if_neg (by rw [slice_header_magic]; simp), if_neg (by rw [byte_header_state]; decide)]
  simp only [byte_header_state, byte_header_count, hcount]
  rw [if_neg (by simp [hpos, hE.bound])]
  refine safe_bind (Prog.Safe.mono (safe_readEntries hE hI ?_ 0 _ (Nat.zero_add _))
    (fun _ => id) ?_)
  · intro lba hj hne
    have h := hσ.view_mem lba
    simpa [phaseBound, areaBound, hj, hne] using h
  rintro r σ' - ⟨rfl, rfl⟩
  rw [thenSafe_ok, drop_zero, if_neg (by rw [slice_header_checksum]; simp)]
  exact safe_applyTransaction hE hσ

theorem safe_replayJournal_of_zero {I : Cache Sector → Prop} (hI : I σ)
    (hheader : σ.view L.journalLba = zeroSector) :
    (replayJournal L).Safe faulty I (fun r σ' => r = .ok () ∧ σ' = σ) σ := by
  refine safe_bind (safe_readSector hI ?_)
  rw [hheader, thenSafe_ok, if_pos (isZero_iff.mpr rfl)]
  exact safe_pure hI ⟨rfl, rfl⟩

end Safety

end ImagineOS.Dfs
