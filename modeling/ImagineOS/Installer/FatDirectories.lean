import ImagineOS.Installer.Fat
import ImagineOS.Installer.FatVolume

/-!
# Installer: directories as they are read

A slot of a directory has 32 bytes, and what is written to it depends on no other slot. So each slot
is read on its own, and a directory that the installer writes lists the entries that it was given
and then one entry for each file; the slots of the long names are passed over
(`listing_directorySector`).
-/

namespace ImagineOS.Installer

open Sector

open Fat16 (Entry listing)

variable {entries : List DirectoryEntry} {files : List FileToInstall}

/-! ### One slot -/

theorem slotFields_eq_shift (entries : List DirectoryEntry) (files : List FileToInstall)
    (globalIndex offset : ℕ) : slotFields entries files globalIndex offset =
      Sector.shiftFields offset (slotFields entries files globalIndex 0) := by
  have hentry : ∀ entry, directoryEntryFields offset entry =
      Sector.shiftFields offset (directoryEntryFields 0 entry) := fun entry => by
    simp [directoryEntryFields, Sector.shiftFields]
  have hunits : ∀ start units, unitFields (offset + start) units =
      Sector.shiftFields offset (unitFields (0 + start) units) := fun start units => by
    refine List.ext_getElem (by simp [unitFields, Sector.shiftFields]) fun i _ _ => ?_
    simp [unitFields, Sector.shiftFields, Nat.add_assoc]
  unfold slotFields
  split
  · exact hentry _
  · split
    · rfl
    · split
      · simp only [lfnEntryFields, hunits]
        simp [Sector.shiftFields]
      · exact hentry _

theorem length_lfnUnits (name : List UInt8) : (lfnUnits name).length = 13 := by
  rw [lfnUnits]
  split <;> simp

/-- The fields of a slot stay in it. -/
theorem slotFields_le {globalIndex : ℕ} {f : ℕ × List UInt8}
    (hf : f ∈ slotFields entries files globalIndex 0) : f.1 + f.2.length ≤ 32 := by
  have hentry : ∀ entry, f ∈ directoryEntryFields 0 entry → f.1 + f.2.length ≤ 32 := by
    intro entry h
    simp only [directoryEntryFields, List.mem_cons, List.not_mem_nil, or_false] at h
    rcases h with rfl | rfl | rfl | rfl | rfl <;> simp
  have hunits : ∀ start units, start + units.length * 2 ≤ 32 → f ∈ unitFields start units →
      f.1 + f.2.length ≤ 32 := by
    intro start units hle h
    obtain ⟨i, hi, rfl⟩ := List.mem_mapIdx.mp h
    simp only [length_leBytes]
    omega
  unfold slotFields at hf
  split at hf
  · exact hentry _ hf
  · split at hf
    · simp at hf
    · split at hf
      · rename_i file _ _
        have hlength := length_lfnUnits file.longName
        simp only [lfnEntryFields, List.mem_append, List.mem_cons, List.not_mem_nil, or_false] at hf
        rcases hf with (((rfl | rfl | rfl) | h) | h) | h
        · simp
        · simp
        · simp
        · exact hunits _ _ (by simp [hlength]) h
        · exact hunits _ _ (by simp [hlength]) h
        · exact hunits _ _ (by simp [hlength]) h
      · exact hentry _ hf

/-- **A slot of a directory depends on nothing but its own fields.** -/
theorem byte_directorySector {sectorIndex slot i : ℕ} (hslot : slot < 16) (hi : i < 32) :
    (directorySector entries files sectorIndex).byte (slot * 32 + i) =
      (zeroSector.putFields (slotFields entries files (sectorIndex * 16 + slot) 0)).byte i := by
  have hother : ∀ slots : List ℕ, slot ∉ slots → ∀ s : Sector,
      (s.putFields (slots.flatMap fun slot =>
        slotFields entries files (sectorIndex * 16 + slot) (slot * 32))).byte (slot * 32 + i) =
        s.byte (slot * 32 + i) := by
    intro slots hnot s
    refine byte_putFields_of_not_mem fun f hf => ?_
    obtain ⟨other, hother, hf⟩ := List.mem_flatMap.mp hf
    rw [slotFields_eq_shift] at hf
    obtain ⟨g, hg, rfl⟩ := List.mem_map.mp hf
    have hle := slotFields_le hg
    have hne : other ≠ slot := fun h => hnot (h ▸ hother)
    dsimp only
    omega
  have hafter : slot ∉ (List.range (16 - slot - 1)).map (slot + 1 + ·) := by
    simp only [List.mem_map, List.mem_range, not_exists, not_and]
    omega
  rw [directorySector, Fat16.range_eq_append_cons hslot, List.flatMap_append,
    putFields_append, List.flatMap_cons, putFields_append, hother _ hafter,
    slotFields_eq_shift]
  refine byte_putFields_shift _ (by omega) ?_
  rw [hother _ (by simp), byte_zeroSector, byte_zeroSector]

theorem read_congr {s t : Sector} {off off' : ℕ}
    (h : ∀ i < 32, s.byte (off + i) = t.byte (off' + i)) :
    Entry.read s off = Entry.read t off' := by
  have hslice : ∀ start len, start + len ≤ 32 →
      s.slice (off + start) len = t.slice (off' + start) len := fun start len hle =>
    List.map_congr_left fun i hi => by
      have hi := List.mem_range.mp hi
      rw [Nat.add_assoc, Nat.add_assoc, h _ (by omega)]
  rw [Entry.read, Entry.read, h 11 (by omega), hslice 26 2 (by omega), hslice 28 4 (by omega)]
  exact congrArg (Entry.mk · _ _ _) (hslice 0 11 (by omega))

/-! ### Entries -/

/-- An entry as it is read. -/
def DirectoryEntry.read (entry : DirectoryEntry) : Entry :=
  ⟨entry.name.toList, entry.attributes, entry.cluster, entry.size⟩

/-- What an entry needs in order to be listed as it is. -/
structure DirectoryEntry.Fits (entry : DirectoryEntry) : Prop where
  name : entry.name[0] ≠ 0
  attributes : entry.attributes ≠ Fat16.longNameAttributes
  cluster : entry.cluster < 2 ^ 16
  size : entry.size < 2 ^ 32

theorem slice_directoryEntryFields (entry : DirectoryEntry) (off : ℕ) (bs : List UInt8)
    (h : (off, bs) ∈ directoryEntryFields 0 entry) (hoff : off + bs.length ≤ 512) :
    (zeroSector.putFields (directoryEntryFields 0 entry)).slice off bs.length = bs :=
  slice_putFields (by simp [directoryEntryFields, Sector.FieldsApart]) h hoff

/-- The slot of an entry. -/
theorem read_directoryEntryFields {entry : DirectoryEntry} (h : entry.Fits) :
    Entry.read (zeroSector.putFields (directoryEntryFields 0 entry)) 0 = entry.read ∧
      (zeroSector.putFields (directoryEntryFields 0 entry)).byte 0 ≠ 0 := by
  have hname := slice_directoryEntryFields entry 0 entry.name.toList
    (by simp [directoryEntryFields]) (by simp)
  have hattributes := slice_directoryEntryFields entry 11 [entry.attributes]
    (by simp [directoryEntryFields]) (by simp)
  have hcluster := slice_directoryEntryFields entry 26 (leBytes 2 entry.cluster)
    (by simp [directoryEntryFields]) (by simp)
  have hsize := slice_directoryEntryFields entry 28 (leBytes 4 entry.size)
    (by simp [directoryEntryFields]) (by simp)
  rw [Vector.length_toList] at hname
  rw [length_leBytes] at hcluster hsize
  have hattribute : (zeroSector.putFields (directoryEntryFields 0 entry)).byte 11 =
      entry.attributes := byte_of_slice hattributes (i := 0) (by simp)
  constructor
  · rw [Entry.read, DirectoryEntry.read, hname, hattribute, hcluster, hsize,
      leNat_leBytes h.cluster, leNat_leBytes h.size]
  · have hbyte := byte_of_slice hname (i := 0) (by simp)
    rw [hbyte]
    simpa using h.name

/-- The slot of a long name is passed over. -/
theorem read_lfnEntryFields {name : List UInt8} (shortName : Vector UInt8 11)
    (hname : name.length ≤ 13) :
    (Entry.read (zeroSector.putFields (lfnEntryFields 0 name shortName)) 0).attributes =
      Fat16.longNameAttributes ∧
      (zeroSector.putFields (lfnEntryFields 0 name shortName)).byte 0 ≠ 0 := by
  have hunit : ∀ start units, ∀ f ∈ unitFields start units, start ≤ f.1 ∧
      f.1 + f.2.length ≤ start + units.length * 2 := by
    intro start units f hf
    obtain ⟨i, hi, rfl⟩ := List.mem_mapIdx.mp hf
    simp only [length_leBytes]
    omega
  have hlength := length_lfnUnits name
  obtain ⟨units, hunits, happart⟩ : ∃ units, lfnEntryFields 0 name shortName =
      (0, [0x40 ||| UInt8.ofNat ((name.length + 12) / 13)]) :: (11, [0x0f]) :: units ∧
        ∀ f ∈ units, (0 < f.1 ∧ f.1 + f.2.length ≤ 11) ∨ 11 < f.1 := by
    refine ⟨_, by simp only [lfnEntryFields, List.cons_append, List.nil_append]; rfl, ?_⟩
    intro f hf
    simp only [List.mem_append, List.mem_cons] at hf
    rcases hf with rfl | (h | h) | h
    · exact Or.inr (by simp)
    · have h := hunit _ _ f h
      simp only [List.length_take, hlength] at h
      omega
    · exact Or.inr (by have := (hunit _ _ f h).1; omega)
    · exact Or.inr (by have := (hunit _ _ f h).1; omega)
  constructor
  · change (zeroSector.putFields _).byte 11 = _
    rw [hunits, Sector.putFields, Sector.putFields,
      byte_putFields_of_not_mem fun f hf => by have := happart f hf; omega]
    exact byte_put_singleton _ _ (by decide)
  · rw [hunits, Sector.putFields, Sector.putFields,
      byte_putFields_of_not_mem fun f hf => by have := happart f hf; omega,
      byte_put_of_not_mem _ (by simp), byte_put_singleton _ _ (by omega)]
    have hparts : (name.length + 12) / 13 = 0 ∨ (name.length + 12) / 13 = 1 := by omega
    rcases hparts with h | h <;> rw [h] <;> decide

/-! ### Directories -/

theorem slotFields_add (entries : List DirectoryEntry) (files : List FileToInstall) (k : ℕ) :
    slotFields entries files (entries.length + k) 0 = slotFields [] files k 0 := by
  simp [slotFields]

/-- **The slots of the files.** -/
theorem filter_fileSlots (hfits : ∀ file ∈ files, (directoryEntryFor file).Fits)
    (hnames : ∀ file ∈ files, file.longName.length ≤ 13) :
    ((List.range (files.length * 2)).map fun k =>
        Entry.read (zeroSector.putFields (slotFields [] files k 0)) 0).filter
          (fun entry => entry.attributes ≠ Fat16.longNameAttributes) =
      files.map fun file => (directoryEntryFor file).read := by
  induction files with
  | nil => rfl
  | cons file files ih =>
    have hlong := (read_lfnEntryFields file.name (hnames file List.mem_cons_self)).1
    have hentry := (read_directoryEntryFields (hfits file List.mem_cons_self)).1
    have hrest := ih (fun f hf => hfits f (List.mem_cons_of_mem _ hf))
      fun f hf => hnames f (List.mem_cons_of_mem _ hf)
    have hshift : ∀ k, slotFields [] (file :: files) (2 + k) 0 = slotFields [] files k 0 := by
      intro k
      simp [slotFields, show (2 + k) / 2 = k / 2 + 1 by omega]
    have hzero : slotFields [] (file :: files) 0 0 = lfnEntryFields 0 file.longName file.name := rfl
    have hone : slotFields [] (file :: files) 1 0 =
        directoryEntryFields 0 (directoryEntryFor file) := rfl
    have hkept : [(directoryEntryFor file).read].filter (fun entry =>
        entry.attributes ≠ Fat16.longNameAttributes) = [(directoryEntryFor file).read] :=
      List.filter_eq_self.mpr (by
        simpa [DirectoryEntry.read] using (hfits file List.mem_cons_self).attributes)
    rw [show (file :: files).length * 2 = 2 + files.length * 2 by rw [List.length_cons]; omega,
      List.range_add, List.map_append, List.filter_append, List.map_map, List.map_cons, ← hrest]
    simp only [Function.comp_def, hshift]
    rw [show List.range 2 = [0, 1] from rfl, List.map_cons, List.map_cons, List.map_nil, hzero,
      hone, hentry, List.filter_cons_of_neg (by simpa using hlong), hkept]
    rfl

/-- **A directory lists its entries and its files.** -/
theorem listing_directorySector (sectors : List Sector)
    (hcount : entries.length + files.length * 2 < 16) (hentries : ∀ entry ∈ entries, entry.Fits)
    (hfits : ∀ file ∈ files, (directoryEntryFor file).Fits)
    (hnames : ∀ file ∈ files, file.longName.length ≤ 13) :
    listing (directorySector entries files 0 :: sectors) =
      (entries ++ files.map directoryEntryFor).map DirectoryEntry.read := by
  obtain ⟨sector, hsector⟩ : ∃ sector, sector = directorySector entries files 0 := ⟨_, rfl⟩
  have hbyte : ∀ slot < 16, ∀ i < 32, sector.byte (slot * 32 + i) =
      (zeroSector.putFields (slotFields entries files slot 0)).byte i := fun slot hslot i hi => by
    rw [hsector, byte_directorySector hslot hi, Nat.zero_mul, Nat.zero_add]
  have hread : ∀ slot < 16, Entry.read sector (slot * 32) =
      Entry.read (zeroSector.putFields (slotFields entries files slot 0)) 0 := fun slot hslot =>
    read_congr fun i hi => by rw [hbyte slot hslot i hi, Nat.zero_add]
  have hslot : ∀ slot (h : slot < entries.length), slotFields entries files slot 0 =
      directoryEntryFields 0 entries[slot] := fun slot h => by simp [slotFields, h]
  have hused : ∀ slot < entries.length + files.length * 2, sector.byte (slot * 32) ≠ 0 := by
    intro slot hlt
    have h := hbyte slot (by omega) 0 (by omega)
    rw [Nat.add_zero] at h
    rw [h]
    by_cases hentry : slot < entries.length
    · rw [hslot slot hentry]
      exact (read_directoryEntryFields (hentries _ (List.getElem_mem hentry))).2
    · obtain ⟨k, rfl⟩ : ∃ k, slot = entries.length + k := ⟨slot - entries.length, by omega⟩
      have hk : k / 2 < files.length := by omega
      rw [slotFields_add]
      simp only [slotFields, List.getElem?_nil, List.length_nil, Nat.sub_zero,
        List.getElem?_eq_getElem hk]
      split
      · exact (read_lfnEntryFields _ (hnames _ (List.getElem_mem hk))).2
      · exact (read_directoryEntryFields (hfits _ (List.getElem_mem hk))).2
  have hend : sector.byte ((entries.length + files.length * 2) * 32) = 0 := by
    have h := hbyte (entries.length + files.length * 2) (by omega) 0 (by omega)
    rw [Nat.add_zero] at h
    rw [h, slotFields_add]
    simp [slotFields, Sector.putFields]
  have hhead : (List.range entries.length).map (fun slot => Entry.read sector (slot * 32)) =
      entries.map DirectoryEntry.read := by
    refine List.ext_getElem (by simp) fun slot h₁ h₂ => ?_
    have hlt : slot < entries.length := by simpa using h₂
    rw [List.getElem_map, List.getElem_map, List.getElem_range, hread slot (by omega),
      hslot slot hlt]
    exact (read_directoryEntryFields (hentries _ (List.getElem_mem hlt))).1
  have htail : (List.range (files.length * 2)).map (fun k =>
        Entry.read sector ((entries.length + k) * 32)) =
      (List.range (files.length * 2)).map fun k =>
        Entry.read (zeroSector.putFields (slotFields [] files k 0)) 0 := by
    refine List.map_congr_left fun k hk => ?_
    have hk := List.mem_range.mp hk
    rw [hread _ (by omega), slotFields_add]
  rw [← hsector, Fat16.listing_cons _ hcount hused hend, List.range_add, List.map_append,
    List.map_map, List.filter_append, hhead, Function.comp_def, htail,
    filter_fileSlots hfits hnames, List.map_append, List.map_map]
  congr 1
  refine List.filter_eq_self.mpr fun entry h => ?_
  obtain ⟨e, he, rfl⟩ := List.mem_map.mp h
  exact decide_eq_true (hentries e he).attributes

end ImagineOS.Installer
