import ImagineOS.Bytes

/-!
# Reading a FAT16 volume

What a disk means to whoever mounts it as a FAT16 volume: the boot sector gives the geometry, a
chain of clusters is followed through the file allocation table, a directory is a list of slots
that ends at the first empty one, and a path is resolved from the root.
-/

namespace ImagineOS.Fat16

open List

/-! ### Geometry -/

/-- What a boot sector says about the places of things. -/
structure Geometry where
  sectorsPerCluster : ℕ
  reservedSectors : ℕ
  fatCount : ℕ
  rootEntries : ℕ
  fatSectors : ℕ
  deriving DecidableEq

/-- The geometry that a boot sector gives. -/
def Geometry.read (boot : Sector) : Geometry where
  sectorsPerCluster := leNat (boot.slice 13 1)
  reservedSectors := leNat (boot.slice 14 2)
  fatCount := leNat (boot.slice 16 1)
  rootEntries := leNat (boot.slice 17 2)
  fatSectors := leNat (boot.slice 22 2)

/-- A disk, and the place of the boot sector on it. -/
structure Volume where
  disk : ℕ → Sector
  start : ℕ

namespace Volume

variable (v : Volume)

/-- The geometry of a volume. -/
def geometry : Geometry := Geometry.read (v.disk v.start)

/-- The first sector of a copy of the file allocation table. -/
def fatStart (copy : ℕ) : ℕ :=
  v.start + v.geometry.reservedSectors + copy * v.geometry.fatSectors

/-- The first sector of the root directory, after the last copy of the table. -/
def rootStart : ℕ := v.fatStart v.geometry.fatCount

/-- The number of sectors of the root directory. -/
def rootCount : ℕ := v.geometry.rootEntries * 32 / sectorSize

/-- The first sector of the first cluster. -/
def dataStart : ℕ := v.rootStart + v.rootCount

/-- The entry of a cluster in a copy of the table. -/
def fatEntry (copy cluster : ℕ) : ℕ :=
  leNat ((v.disk (v.fatStart copy + cluster * 2 / sectorSize)).slice (cluster * 2 % sectorSize) 2)

/-- The sectors of a cluster, which is counted from 2. -/
def clusterSectors (cluster : ℕ) : List Sector :=
  (List.range v.geometry.sectorsPerCluster).map fun i =>
    v.disk (v.dataStart + (cluster - 2) * v.geometry.sectorsPerCluster + i)

/-- The sectors of the root directory. -/
def rootSectors : List Sector := (List.range v.rootCount).map fun i => v.disk (v.rootStart + i)

end Volume

/-! ### Chains -/

/-- The least entry that marks the end of a chain. -/
def endOfChain : ℕ := 0xfff8

/-- The clusters from a first one to the one whose entry ends the chain, if there is one within
some number of steps. -/
def follow (next : ℕ → ℕ) : ℕ → ℕ → Option (List ℕ)
  | 0, _ => none
  | steps + 1, cluster =>
    if cluster < 2 then none
    else if endOfChain ≤ next cluster then some [cluster]
    else (follow next steps (next cluster)).map (cluster :: ·)

/-- The chain of a cluster, in the first copy of the table. -/
def Volume.chain (v : Volume) (cluster : ℕ) : Option (List ℕ) :=
  follow (v.fatEntry 0) (2 ^ 16) cluster

/-- **A chain of consecutive clusters.** -/
theorem follow_range {next : ℕ → ℕ} {cluster count steps : ℕ} (hcluster : 2 ≤ cluster)
    (hbound : cluster + count < endOfChain) (hsteps : count < steps)
    (hnext : ∀ i < count, next (cluster + i) = cluster + i + 1)
    (hlast : endOfChain ≤ next (cluster + count)) :
    follow next steps cluster = some (List.range' cluster (count + 1)) := by
  induction count generalizing cluster steps with
  | zero =>
    obtain ⟨steps, rfl⟩ : ∃ n, steps = n + 1 := ⟨steps - 1, by omega⟩
    rw [follow, if_neg (by omega), if_pos (by simpa using hlast)]
    rfl
  | succ count ih =>
    obtain ⟨steps, rfl⟩ : ∃ n, steps = n + 1 := ⟨steps - 1, by omega⟩
    have hfirst : next cluster = cluster + 1 := hnext 0 (by omega)
    have hrest : follow next steps (cluster + 1) =
        some (List.range' (cluster + 1) (count + 1)) := by
      refine ih (by omega) (by omega) (by omega) (fun i hi => ?_) ?_
      · have h := hnext (i + 1) (by omega)
        rw [show cluster + 1 + i = cluster + (i + 1) by omega, h]
      · rwa [show cluster + 1 + count = cluster + (count + 1) by omega]
    rw [follow, if_neg (by omega), hfirst, if_neg (by omega), hrest]
    rfl

/-- **A chain ends in a mark.** -/
theorem exists_getLast_of_follow {next : ℕ → ℕ} {steps cluster : ℕ} {clusters : List ℕ}
    (h : follow next steps cluster = some clusters) :
    ∃ last, clusters.getLast? = some last ∧ endOfChain ≤ next last := by
  induction steps generalizing cluster clusters with
  | zero => cases h
  | succ steps ih =>
    rw [follow] at h
    split at h
    · cases h
    split at h
    · rename_i hend
      obtain rfl := Option.some.inj h
      exact ⟨cluster, rfl, hend⟩
    · obtain ⟨rest, hrest, rfl⟩ := Option.map_eq_some_iff.mp h
      obtain ⟨last, hlast, hend⟩ := ih hrest
      refine ⟨last, ?_, hend⟩
      rw [List.getLast?_cons, hlast]
      rfl

/-! ### Directories -/

/-- An entry of a directory. -/
structure Entry where
  name : List UInt8
  attributes : UInt8
  cluster : ℕ
  size : ℕ
  deriving DecidableEq

/-- The entry in a slot that starts at an offset. -/
def Entry.read (sector : Sector) (offset : ℕ) : Entry where
  name := sector.slice offset 11
  attributes := sector.byte (offset + 11)
  cluster := leNat (sector.slice (offset + 26) 2)
  size := leNat (sector.slice (offset + 28) 4)

/-- The attributes of a slot that only holds a part of a long name. -/
def longNameAttributes : UInt8 := 0x0f

/-- The attribute of a directory. -/
def directoryAttribute : UInt8 := 0x10

/-- The slots of a directory, each as its sector and its offset. -/
def slots (sectors : List Sector) : List (Sector × ℕ) :=
  sectors.flatMap fun sector => (List.range 16).map fun slot => (sector, slot * 32)

/-- The entries of a directory, less its long names: a slot that starts with a zero ends it. -/
def listing (sectors : List Sector) : List Entry :=
  (((slots sectors).takeWhile fun slot => slot.1.byte slot.2 ≠ 0).map fun slot =>
    Entry.read slot.1 slot.2).filter fun entry => entry.attributes ≠ longNameAttributes

theorem range_eq_append_cons {k n : ℕ} (h : k < n) :
    List.range n = List.range k ++ k :: (List.range (n - k - 1)).map (k + 1 + ·) := by
  obtain ⟨rest, rfl⟩ : ∃ rest, n = k + 1 + rest := ⟨n - k - 1, by omega⟩
  rw [show k + 1 + rest - k - 1 = rest by omega, range_add, range_succ, append_assoc]
  rfl

/-- **A directory that ends in its first sector.** -/
theorem listing_cons {sector : Sector} (sectors : List Sector) {count : ℕ} (hcount : count < 16)
    (hused : ∀ slot < count, sector.byte (slot * 32) ≠ 0) (hend : sector.byte (count * 32) = 0) :
    listing (sector :: sectors) = ((List.range count).map fun slot =>
      Entry.read sector (slot * 32)).filter fun entry => entry.attributes ≠ longNameAttributes := by
  have hslots : (slots (sector :: sectors)).takeWhile (fun slot => slot.1.byte slot.2 ≠ 0) =
      (List.range count).map fun slot => (sector, slot * 32) := by
    rw [slots, flatMap_cons, range_eq_append_cons hcount, map_append, append_assoc,
      takeWhile_append_of_pos (by simpa using hused), map_cons, cons_append,
      takeWhile_cons_of_neg (by simpa using hend), append_nil]
  rw [listing, hslots, map_map]
  rfl

/-! ### Paths and files -/

namespace Volume

variable (v : Volume)

/-- What a path leads to, from the directory in some sectors. -/
def resolveFrom : List Sector → List (List UInt8) → Option Entry
  | _, [] => none
  | sectors, [name] => (listing sectors).find? (·.name = name)
  | sectors, name :: path => do
    let entry ← (listing sectors).find? (·.name = name)
    if entry.attributes &&& directoryAttribute = 0 then none
    else
      let clusters ← v.chain entry.cluster
      resolveFrom (clusters.flatMap v.clusterSectors) path

theorem resolveFrom_cons {sectors : List Sector} {name next : List UInt8}
    {path : List (List UInt8)} {entry : Entry} {clusters : List ℕ}
    (hfind : (listing sectors).find? (·.name = name) = some entry)
    (hdirectory : entry.attributes &&& directoryAttribute ≠ 0)
    (hchain : v.chain entry.cluster = some clusters) :
    v.resolveFrom sectors (name :: next :: path) =
      v.resolveFrom (clusters.flatMap v.clusterSectors) (next :: path) := by
  rw [resolveFrom, hfind]
  · simp [hdirectory, hchain]
  · simp

/-- What a path leads to. -/
def resolve (path : List (List UInt8)) : Option Entry := v.resolveFrom v.rootSectors path

/-- The chain of the object at a path. -/
def chainOf (path : List (List UInt8)) : Option (List ℕ) := do
  let entry ← v.resolve path
  v.chain entry.cluster

/-- The bytes of the clusters of a list. -/
def clusterBytes (clusters : List ℕ) : List UInt8 :=
  (clusters.flatMap v.clusterSectors).flatMap fun sector => sector.slice 0 sectorSize

/-- The file at a path: its clusters, cut at the size in its entry. -/
def readFile (path : List (List UInt8)) : Option (List UInt8) := do
  let entry ← v.resolve path
  let clusters ← v.chain entry.cluster
  pure ((v.clusterBytes clusters).take entry.size)

end Volume

end ImagineOS.Fat16
