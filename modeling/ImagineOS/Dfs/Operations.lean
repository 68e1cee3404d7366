import ImagineOS.Dfs.Node

/-!
# DFS: the operations

The operations on a mounted volume, as programs over the device. Everything an operation does to
the node table and the bitmap goes through a transaction, which is a call of `commitTransaction`;
only `writeFile` writes sectors itself, and those are data.
-/

namespace ImagineOS.Dfs

open BlockProgram

/-! ### Paths -/

/-- A path in the form in which nodes are looked up. -/
@[ext] structure Path where
  bytes : List UInt8
  utf8 : validUtf8 bytes
  length_le : bytes.length ≤ maxPath
  clean : bytes = [] ∨ CleanPath bytes

def canonicalPath (path : Str) : Except DfsError Path :=
  let bytes := (stripPrefix path.val [slash]).getD path.val
  if h : bytes.length ≤ maxPath ∧ CleanPath bytes then
    .ok ⟨bytes, validUtf8_stripSlash path.property, h.1, Or.inr h.2⟩
  else if bytes = [] then .ok ⟨[], validUtf8_nil, Nat.zero_le maxPath, Or.inl rfl⟩
  else .error .invalidPath

def immediateChild (path parent : List UInt8) : Option (List UInt8) :=
  let remainder := if parent = [] then some path
    else (stripPrefix path parent).bind (stripPrefix · [slash])
  remainder.filter fun r => r ≠ [] ∧ slash ∉ r

/-! ### The node table -/

section Table

variable {C : Type} (L : Layout)

/-- `find_index` over the nodes of a list. -/
def findIndexIn (path : List UInt8) : List ℕ → DfsProgram C (Option ℕ)
  | [] => pure none
  | index :: rest => do
    let node ← readNode L index
    if node.kind ≠ 0 ∧ node.pathStr = path then pure (some index)
    else findIndexIn path rest

def findIndex (path : List UInt8) : DfsProgram C (Option ℕ) :=
  findIndexIn L path (List.range inodeCount)

def findNode (path : List UInt8) : DfsProgram C (Option Node) := do
  match ← findIndex L path with
  | none => pure none
  | some index => some <$> readNode L index

/-- The search of `create_node` for a free node, over the nodes of a list. -/
def findFreeIn : List ℕ → DfsProgram C (Option ℕ)
  | [] => pure none
  | index :: rest => do
    if ← Fallible.isOkAnd (readNode L index) (·.kind = 0) then pure (some index)
    else findFreeIn rest

/-- The loop of `commit` that builds the transaction. -/
def collect (transaction : Transaction) : List (ℕ × Sector) → Except DfsError Transaction
  | [] => .ok transaction
  | update :: rest =>
    if L.Targetable update.1 then do
      let transaction ← transaction.add update.1 update.2
      collect transaction rest
    else .error .invalidFilesystem

def commit (updates : List (ℕ × Sector)) : DfsProgram Transaction Unit :=
  if updates = [] then pure ()
  else if transactionSectors < updates.length then throw .journalFull
  else do
    let transaction ← ofExcept (collect L .new updates)
    Fallible.call transaction

def storeNode (index : ℕ) (node : Node) : DfsProgram Transaction Unit :=
  commit L [(L.inodeLba + index, encodeNode node)]

/-- The node `create_node` stores. -/
def newNode (path : Path) (kind : UInt8) (mode : UInt16) (uid gid : UInt32) : Node where
  path := path.bytes
  kind := kind
  size := 0
  mode := mode
  uid := uid
  gid := gid
  extents := []
  path_le := path.length_le
  size_lt := Node.zero_size_lt
  extents_le := Nat.zero_le maxExtents

def createNode (path : Path) (kind : UInt8) (mode : UInt16) (uid gid : UInt32) :
    DfsProgram Transaction ℕ := do
  if (← findNode L path.bytes).isSome then throw .alreadyExists
  else if (← findNode L (parentPath path.bytes)).all (·.kind ≠ nodeDirectory) then
    throw .notDirectory
  else match ← findFreeIn L (List.range' 1 (inodeCount - 1)) with
    | none => throw .noSpace
    | some index => do
      storeNode L index (newNode path kind mode uid gid)
      pure index

end Table

/-! ### Space -/

section Space

variable (L : Layout)

/-- `bitmap_location`: the bitmap sector that describes an address, and the bit within it. -/
def bitmapLocation (lba : ℕ) : Except DfsError (ℕ × ℕ) :=
  if L.InPartition lba then
    let bit := lba - L.startLba
    if L.bitmapSectors ≤ bit / bitsPerSector then .error .corruptMetadata
    else .ok (L.bitmapLba + bit / bitsPerSector, bit % bitsPerSector)
  else .error .invalidFilesystem

/-- `max_bitmap_sectors`: how many bitmap sectors a transaction has room for beside a node. -/
def maxBitmapSectors : ℕ := transactionSectors - 1

/-- A run of free sectors. -/
structure FreeRun where
  start : ℕ
  length : ℕ
  pos : 0 < length

/-- The bitmap sector at `bitmapLba`, read unless it is the one read last. -/
def cachedBitmap (cached : Option (ℕ × Sector)) (bitmapLba : ℕ) : DfsProgram Transaction Sector :=
  match cached with
  | some (lba, bitmap) => if lba = bitmapLba then pure bitmap else readSector bitmapLba
  | none => readSector bitmapLba

/-- One address of the scan of `find_free_run`: either the run to return, or the run so far with the
bitmap sector it starts in. -/
def scanStep (requested lba bitmapLba : ℕ) (used : Bool) :
    Option (FreeRun × ℕ) → FreeRun ⊕ Option (FreeRun × ℕ)
  | none =>
    if used then .inr none
    else if requested = 1 then .inl ⟨lba, 1, Nat.one_pos⟩
    else .inr (some (⟨lba, 1, Nat.one_pos⟩, bitmapLba))
  | some (run, first) =>
    if used then .inl run
    else if maxBitmapSectors ≤ bitmapLba - first then .inl run
    else if run.length + 1 = requested then .inl ⟨run.start, run.length + 1, Nat.succ_pos _⟩
    else .inr (some (⟨run.start, run.length + 1, Nat.succ_pos _⟩, first))

/-- The loop of `find_free_run` over the `n` addresses from `lba` on; `cached` is the bitmap sector
read last. -/
def findFreeRunFrom (requested : ℕ) : ℕ → ℕ → Option (ℕ × Sector) → Option (FreeRun × ℕ) →
    DfsProgram Transaction FreeRun
  | 0, _, _, none => throw .noSpace
  | 0, _, _, some (run, _) => pure run
  | n + 1, lba, cached, run => do
    let (bitmapLba, bit) ← ofExcept (bitmapLocation L lba)
    let bitmap ← cachedBitmap cached bitmapLba
    match scanStep requested lba bitmapLba (getBit bitmap bit) run with
    | .inl run => pure run
    | .inr run => findFreeRunFrom requested n (lba + 1) (some (bitmapLba, bitmap)) run

def findFreeRun (requested : ℕ) : DfsProgram Transaction FreeRun :=
  findFreeRunFrom L requested (L.endLba - L.dataLba) L.dataLba none none

/-- The branch of `add_extent` that adds an extent. -/
def pushExtent (node : Node) (startLba logicalStart sectorCount : ℕ) : Except DfsError Node :=
  if h : node.extents.length < maxExtents then
    .ok { node with
      extents := node.extents ++ [.ofNat startLba logicalStart sectorCount]
      extents_le := by rw [List.length_append, List.length_singleton]; exact h }
  else .error .noSpace

/-- `add_extent`: a run that continues the last extent is merged with it. -/
def addExtent (node : Node) (startLba logicalStart sectorCount : ℕ) : Except DfsError Node :=
  match h : node.extents.getLast? with
  | none => pushExtent node startLba logicalStart sectorCount
  | some last =>
    if (last.startLba + last.sectorCount) % 2 ^ 64 = startLba ∧
        (last.logicalStart + last.sectorCount) % 2 ^ 32 = logicalStart then
      if hcount : last.sectorCount + sectorCount < 2 ^ 32 then
        .ok { node with
          extents := node.extents.dropLast ++ [{ last with
            sectorCount := last.sectorCount + sectorCount, sectorCount_lt := hcount }]
          extents_le := by
            have hne : node.extents ≠ [] := by rintro he; simp [he] at h
            have hlen := List.length_pos_of_ne_nil hne
            have hle := node.extents_le
            simp only [List.length_append, List.length_dropLast, List.length_singleton]
            omega }
      else .error .noSpace
    else pushExtent node startLba logicalStart sectorCount

/-- Put the bitmap sector in hand into the transaction. -/
def addCurrent (transaction : Transaction) : Option (ℕ × Sector) → Except DfsError Transaction
  | none => .ok transaction
  | some (lba, bitmap) => transaction.add lba bitmap

/-- The loop that `reserve_run` and `release_run` share, over the `n` addresses from `lba` on:
set their bits to `value`, with one bitmap sector in hand. When `spill` is set, a transaction that
is full is committed and a new one begun. -/
def markRun (value spill : Bool) : ℕ → ℕ → Transaction → Option (ℕ × Sector) →
    DfsProgram Transaction (Transaction × Option (ℕ × Sector))
  | 0, _, transaction, current => pure (transaction, current)
  | n + 1, lba, transaction, current => do
    let (bitmapLba, bit) ← ofExcept (bitmapLocation L lba)
    match current.filter (·.1 = bitmapLba) with
    | some (_, bitmap) =>
      markRun value spill n (lba + 1) transaction (some (bitmapLba, setBit bitmap bit value))
    | none => do
      let transaction ← ofExcept (addCurrent transaction current)
      let transaction ←
        if spill ∧ transaction.entries.length = transactionSectors then do
          Fallible.call transaction
          pure .new
        else pure transaction
      let bitmap ← readSector bitmapLba
      markRun value spill n (lba + 1) transaction (some (bitmapLba, setBit bitmap bit value))

/-- `reserve_run`. The pair after an empty run is the initial value of the source's two variables.
-/
def reserveRun (startLba count index : ℕ) (node : Node) : DfsProgram Transaction Unit := do
  let (transaction, current) ← markRun L true false count startLba .new none
  let (bitmapLba, bitmap) := current.getD (2 ^ 64 - 1, zeroSector)
  let transaction ← ofExcept (transaction.add bitmapLba bitmap)
  let transaction ← ofExcept (transaction.add (L.inodeLba + index) (encodeNode node))
  Fallible.call transaction

def releaseRun (startLba count : ℕ) : DfsProgram Transaction Unit := do
  let (transaction, current) ← markRun L false true count startLba .new none
  let transaction ← ofExcept (addCurrent transaction current)
  Fallible.call transaction

/-- The loop over the extents of a file that is removed or truncated. -/
def releaseExtents : List Extent → DfsProgram Transaction Unit
  | [] => pure ()
  | e :: extents => do
    releaseRun L e.startLba e.sectorCount
    releaseExtents extents

end Space

/-! ### Files -/

section Files

variable (L : Layout)

/-- The address of a sector of an extent. -/
def Extent.physical (e : Extent) (logical : ℕ) : ℕ :=
  (e.startLba + (logical - e.logicalStart)) % 2 ^ 64

/-- The lookup of an extent in `read_file`, whose sum wraps. -/
def readExtent (node : Node) (logical : ℕ) : Option ℕ :=
  (node.extents.find? fun e => e.logicalStart ≤ logical ∧
    logical < (e.logicalStart + e.sectorCount) % 2 ^ 32).map (·.physical logical)

/-- `extent_for`, whose sum is checked. -/
def extentFor (node : Node) (logical : ℕ) : Option ℕ :=
  (node.extents.find? fun e => e.logicalStart + e.sectorCount < 2 ^ 32 ∧
    e.logicalStart ≤ logical ∧ logical < e.logicalStart + e.sectorCount).map (·.physical logical)

/-- The number of bytes of a request that fall in the sector of `position`. -/
def chunk (position remaining : ℕ) : ℕ := min (sectorSize - position % sectorSize) remaining

theorem chunk_pos (position : ℕ) {remaining : ℕ} (h : remaining ≠ 0) :
    0 < chunk position remaining := by
  have hmod : position % sectorSize < sectorSize := Nat.mod_lt _ (by decide)
  rw [chunk]
  omega

/-- `position / SECTOR_SIZE`, cast to its type. -/
def logicalSector (position : ℕ) : ℕ := position / sectorSize % 2 ^ 32

/-- The loop of `read_file`. -/
def readFrom {C : Type} (node : Node) (position remaining : ℕ) : DfsProgram C (List UInt8) :=
  if h : remaining = 0 then pure []
  else
    have := chunk_pos position h
    match readExtent node (logicalSector position) with
    | none => throw .corruptMetadata
    | some physical => do
      let sector ← readSector physical
      let rest ← readFrom node (position + chunk position remaining)
        (remaining - chunk position remaining)
      pure (sector.slice (position % sectorSize) (chunk position remaining) ++ rest)
  termination_by remaining

/-- `read_file`: the bytes copied to the output. -/
def readFile {C : Type} (path : Str) (offset length : ℕ) : DfsProgram C (List UInt8) := do
  let path ← ofExcept (canonicalPath path)
  match ← findNode L path.bytes with
  | none => throw .notFound
  | some node =>
    if node.kind ≠ nodeFile then throw .isDirectory
    else if node.size ≤ offset then pure []
    else readFrom node offset (min length (node.size - offset))

/-- The sector `write_file` writes: the input alone, or merged with the old contents. -/
def mergedSector (physical within : ℕ) (bytes : List UInt8) : DfsProgram Transaction Sector :=
  if within = 0 ∧ bytes.length = sectorSize then pure (zeroSector.put 0 bytes)
  else do
    let sector ← readSector physical
    pure (sector.put within bytes)

/-- The loop of `write_file` over the input. -/
def writeFrom (node : Node) (position : ℕ) (input : List UInt8) : DfsProgram Transaction Unit :=
  if h : input.length = 0 then pure ()
  else
    have := chunk_pos position h
    match extentFor node (logicalSector position) with
    | none => throw .corruptMetadata
    | some physical => do
      let sector ← mergedSector physical (position % sectorSize)
        (input.take (chunk position input.length))
      writeSector physical sector
      writeFrom node (position + chunk position input.length)
        (input.drop (chunk position input.length))
  termination_by input.length
  decreasing_by simp only [List.length_drop]; omega

/-- The loop of `write_file` that allocates sectors. -/
def allocate (index required : ℕ) (node : Node) (allocated : ℕ) : DfsProgram Transaction Node :=
  if h : allocated < required then do
    let run ← findFreeRun L (required - allocated)
    let node ← ofExcept (addExtent node run.start (allocated % 2 ^ 32) (run.length % 2 ^ 32))
    reserveRun L run.start run.length index node
    have := run.pos
    allocate index required node (allocated + run.length)
  else pure node
  termination_by required - allocated

/-- `n.div_ceil(SECTOR_SIZE)` -/
def sectorsFor (n : ℕ) : ℕ := (n + (sectorSize - 1)) / sectorSize

/-- `write_file` once the node is found. -/
def writeNode (index offset : ℕ) (input : List UInt8) : DfsProgram Transaction ℕ := do
  let node ← readNode L index
  if node.size < offset then throw .invalidPath
  else if h : offset + input.length < 2 ^ 64 then do
    let allocated := (node.extents.map (·.sectorCount)).sum
    let node ← allocate L index (sectorsFor (offset + input.length)) node allocated
    writeFrom node offset input
    flush
    storeNode L index { node with
      size := max node.size (offset + input.length)
      size_lt := max_lt node.size_lt h }
    pure input.length
  else throw .noSpace

def writeFile (path : Str) (offset : ℕ) (input : List UInt8) (create : Bool) (mode : UInt16)
    (uid gid : UInt32) : DfsProgram Transaction ℕ := do
  let path ← ofExcept (canonicalPath path)
  if path.bytes = [] then throw .isDirectory
  else match ← findNode L path.bytes with
    | some node =>
      if node.kind = nodeDirectory then throw .isDirectory
      else match ← findIndex L path.bytes with
        | none => throw .corruptMetadata
        | some index => writeNode L index offset input
    | none =>
      if create then do
        let index ← createNode L path nodeFile mode uid gid
        writeNode L index offset input
      else throw .notFound

/-- A file without contents. -/
def Node.cleared (node : Node) : Node :=
  { node with
    size := 0, extents := [], size_lt := zero_size_lt, extents_le := Nat.zero_le maxExtents }

def truncate (path : Str) : DfsProgram Transaction Unit := do
  let path ← ofExcept (canonicalPath path)
  match ← findIndex L path.bytes with
  | none => throw .notFound
  | some index => do
    let node ← readNode L index
    if node.kind ≠ nodeFile then throw .isDirectory
    else do
      storeNode L index node.cleared
      releaseExtents L node.extents

end Files

/-! ### Directories -/

section Directories

variable (L : Layout)

def createDirectory (path : Str) (mode : UInt16) (uid gid : UInt32) :
    DfsProgram Transaction Unit := do
  let path ← ofExcept (canonicalPath path)
  if path.bytes = [] then throw .alreadyExists
  else do
    let _ ← createNode L path nodeDirectory mode uid gid
    pure ()

/-- The search of `remove_at_depth` for a child, over the nodes of a list. -/
def findChildIn {C : Type} (path : List UInt8) : List ℕ → DfsProgram C (Option Node)
  | [] => pure none
  | index :: rest => do
    let child ← readNode L index
    if child.kind ≠ 0 ∧ (immediateChild child.pathStr path).isSome then pure (some child)
    else findChildIn path rest

/-- The loop of `remove_at_depth` over the children of a directory. Each round removes a node, so
the rounds do not run out when there are more of them than nodes. -/
def removeChildren (removeChild : Str → DfsProgram Transaction Unit) (recursive : Bool)
    (path : List UInt8) : ℕ → DfsProgram Transaction Unit
  | 0 => throw .corruptMetadata
  | rounds + 1 => do
    match ← findChildIn L path (List.range inodeCount) with
    | none => pure ()
    | some child =>
      if recursive then
        match fromUtf8 child.path with
        | none => throw .corruptMetadata
        | some childPath => do
          removeChild childPath
          removeChildren removeChild recursive path rounds
      else throw .directoryNotEmpty

/-- `remove_at_depth`, with `levels` levels of the hierarchy left before it gives up. -/
def removeAtDepth : ℕ → Bool → Str → DfsProgram Transaction Unit
  | 0, _, _ => throw .invalidPath
  | levels + 1, recursive, path => do
    let path ← ofExcept (canonicalPath path)
    if path.bytes = [] then throw .invalidPath
    else match ← findIndex L path.bytes with
      | none => throw .notFound
      | some index => do
        let node ← readNode L index
        if node.kind = nodeDirectory then
          removeChildren L (removeAtDepth levels true) recursive path.bytes (inodeCount + 1)
        storeNode L index .empty
        releaseExtents L node.extents

/-- `remove`: the first level is depth 0 and depth 33 is refused. -/
def remove (path : Str) (recursive : Bool) : DfsProgram Transaction Unit :=
  removeAtDepth L 33 recursive path

end Directories

/-! ### Formatting -/

/-- The root directory `format` stores. -/
def rootNode : Node :=
  newNode ⟨[], validUtf8_nil, Nat.zero_le maxPath, Or.inl rfl⟩ nodeDirectory 0o755 0 0

/-- Bitmap sector `i` of a volume whose first `reserved` sectors are in use. -/
def reservedBitmap (reserved i : ℕ) : Sector :=
  let first := i * bitsPerSector
  (List.range (min (first + bitsPerSector) reserved - first)).foldl (setBit · · true) zeroSector

/-- `Dfs::format` -/
def format (startLba sectors : ℕ) : DfsProgram Transaction Layout := do
  let layout ← ofExcept (makeLayout startLba sectors)
  Fallible.writeSectors .block
    ((List.range (layout.dataLba - startLba)).map fun i => (startLba + i, zeroSector))
  Fallible.writeSectors .block ((List.range layout.bitmapSectors).map fun i =>
    (layout.bitmapLba + i, reservedBitmap (layout.dataLba - startLba) i))
  writeSector layout.startLba (superblock layout)
  flush
  storeNode layout 0 rootNode
  pure layout

end ImagineOS.Dfs
