import ImagineOS.Overlay.Archive
import Mathlib.Data.Fin.Basic

/-!
# Overlay: the file system in memory

What is written to the initial file system goes to a fixed table of nodes over the archive, with the
contents of files in one pool of bytes. A node hides what the archive has at its path: a `Whiteout`
hides the path and everything below it, and an `OpaqueDirectory` everything below it.
-/

namespace ImagineOS.Overlay

def maxWriteFileSize : ℕ := 4096

def maxOverlayFileSize : ℕ := 4 * 1024 * 1024

abbrev maxOverlayNodes : ℕ := 128

def overlayDataCapacity : ℕ := 8 * 1024 * 1024

/-- The length of the path of a node. -/
def maxPath : ℕ := 256

inductive FsError
  | invalidPath
  | notFound
  | notDirectory
  | isDirectory
  | alreadyExists
  | directoryNotEmpty
  | noSpace
  deriving DecidableEq

inductive NodeKind
  | empty
  | file
  | directory
  | opaqueDirectory
  | whiteout
  deriving DecidableEq

/-- `NodeKind::Directory | NodeKind::OpaqueDirectory` -/
def NodeKind.isDirectory : NodeKind → Bool
  | .directory | .opaqueDirectory => true
  | _ => false

/-- `NodeKind::File | NodeKind::Directory | NodeKind::OpaqueDirectory` -/
def NodeKind.isVisible : NodeKind → Bool
  | .file | .directory | .opaqueDirectory => true
  | _ => false

/-- `OverlayNode`: the path up to its length. -/
structure OverlayNode where
  path : List UInt8
  kind : NodeKind
  dataLength : ℕ
  dataStart : ℕ
  dataCapacity : ℕ
  mode : UInt16
  uid : UInt32
  gid : UInt32
  deriving DecidableEq

/-- `OverlayNode::EMPTY` -/
def OverlayNode.empty : OverlayNode := ⟨[], .empty, 0, 0, 0, 0, 0, 0⟩

/-- `RamFs`, with what is known about the disk. The archive is there since `mount`. -/
structure RamFs where
  archive : List UInt8
  overlay : Fin maxOverlayNodes → OverlayNode
  fileData : ℕ → UInt8
  fileDataUsed : ℕ
  /-- `BLOCK_DISK_PRESENT` -/
  blockDiskPresent : Bool
  /-- `ata::sector_count()` -/
  sectorCount : ℕ

def RamFs.mount (archive : List UInt8) (fileData : ℕ → UInt8) (blockDiskPresent : Bool)
    (sectorCount : ℕ) : RamFs :=
  ⟨archive, fun _ => .empty, fileData, 0, blockDiskPresent, sectorCount⟩

/-! ### Paths -/

/-- `"dev"` -/
def devPath : List UInt8 := [100, 101, 118]

/-- `"dev/hda"` -/
def diskPath : List UInt8 := [100, 101, 118, 47, 104, 100, 97]

def canonicalPath (path : List UInt8) : Option (List UInt8) :=
  if path = [] then some path
  else
    let path := (stripPrefix path [slash]).getD path
    if path = [] then some path
    else if CleanPath path then some path else none

def isChildPath (path parent : List UInt8) : Bool :=
  if parent = [] then path ≠ [] else startsBelow path parent

def joinChild (parent name : List UInt8) : Option (List UInt8) :=
  let path := if parent = [] then name else parent ++ slash :: name
  if maxPath < path.length then none else some path

def immediateChild (path parent : List UInt8) : Option (Option (List UInt8)) :=
  if parent ≠ [] ∧ path = parent then some none
  else (relativePath path parent).map fun relative =>
    if relative = [] then none else some (firstComponent relative)

/-! ### Lookups -/

section Lookups

variable (fs : RamFs)

def findOverlayNode (path : List UInt8) : Option (Fin maxOverlayNodes) :=
  (List.finRange maxOverlayNodes).find? fun i =>
    (fs.overlay i).kind ≠ .empty ∧ (fs.overlay i).path = path

/-- The kind of the node at a path. -/
def kindAt (path : List UInt8) : NodeKind :=
  (findOverlayNode fs path).elim .empty fun i => (fs.overlay i).kind

/-- Whether the node of a slot hides a path below it. -/
def OverlayNode.hides (node : OverlayNode) (path : List UInt8) : Bool :=
  (node.kind == .whiteout && (node.path == path || isChildPath path node.path)) ||
    (node.kind == .opaqueDirectory && isChildPath path node.path)

def isHidden (path : List UInt8) : Bool :=
  match findOverlayNode fs path with
  | some i => (fs.overlay i).kind == .whiteout
  | none => (List.finRange maxOverlayNodes).any fun i => (fs.overlay i).hides path

/-- The bytes of a file of the overlay. -/
def contents (i : Fin maxOverlayNodes) : List UInt8 :=
  (List.range (fs.overlay i).dataLength).map fun k => fs.fileData ((fs.overlay i).dataStart + k)

def readFromOverlay (path : List UInt8) : Option (List UInt8) := do
  let path ← canonicalPath path
  if isHidden fs path then none
  else match findOverlayNode fs path with
  | some i => if (fs.overlay i).kind = .file then some (contents fs i) else none
  | none => Archive.find fs.archive path

def isDirectoryOverlay (path : List UInt8) : Bool :=
  match canonicalPath path with
  | none => false
  | some path =>
    if path = devPath then true
    else match kindAt fs path with
    | .directory | .opaqueDirectory => true
    | .file | .whiteout => false
    | .empty =>
      if isHidden fs path then false
      else Archive.isDirectory fs.archive path ||
        (List.finRange maxOverlayNodes).any fun i =>
          (fs.overlay i).kind.isVisible && isChildPath (fs.overlay i).path path

def isFileOverlay (path : List UInt8) : Bool :=
  match canonicalPath path with
  | none => false
  | some path =>
    if path = diskPath then fs.blockDiskPresent
    else if isHidden fs path then false
    else match kindAt fs path with
    | .file => true
    | .directory | .opaqueDirectory | .whiteout => false
    | .empty => Archive.isFile fs.archive path

def fileLenOverlay (path : List UInt8) : Except FsError ℕ :=
  if isDirectoryOverlay fs path then .error .isDirectory
  else match readFromOverlay fs path with
  | none => .error .notFound
  | some contents => .ok contents.length

def metadataOverlay (path : List UInt8) : Option Metadata := do
  let path ← canonicalPath path
  match findOverlayNode fs path with
  | some i =>
    let node := fs.overlay i
    some ⟨node.dataLength, node.mode, node.uid, node.gid, node.kind.isDirectory⟩
  | none =>
    if isDirectoryOverlay fs path then
      (Archive.metadata fs.archive path).getD ⟨0, 0o755, 0, 0, true⟩
    else if path = diskPath ∧ fs.blockDiskPresent then
      some ⟨fs.sectorCount * blockSize, 0o600, 0, 0, false⟩
    else match fileLenOverlay fs path with
    | .error _ => none
    | .ok size => (Archive.metadata fs.archive path).getD ⟨size, 0o644, 0, 0, false⟩

/-- Names that start with a dot are hidden from listings that do not ask for them. -/
def isListed (includeHidden : Bool) (name : List UInt8) : Bool :=
  includeHidden || name.head? != some 46

/-- The names of the archive, for `list_directory_overlay`. -/
def listArchiveNames (path : List UInt8) (includeHidden : Bool) (capacity : ℕ) :
    List (List UInt8) → List UInt8 → Option (List UInt8)
  | [], written => some written
  | name :: rest, written => do
    let written ← if name = [] then some written else do
      let childPath ← joinChild path name
      if !validUtf8 childPath then none
      else if !isHidden fs childPath ∧ isListed includeHidden name then
        appendName capacity written name
      else some written
    listArchiveNames path includeHidden capacity rest written

/-- The nodes of the overlay, for `list_directory_overlay`. -/
def listOverlayNodes (path : List UInt8) (includeHidden : Bool) (capacity : ℕ) :
    List (Fin maxOverlayNodes) → List UInt8 → Option (List UInt8)
  | [], written => some written
  | i :: rest, written => do
    let node := fs.overlay i
    let written ←
      match if node.kind.isVisible then immediateChild node.path path else none with
      | some (some name) =>
        if isListed includeHidden name then appendName capacity written name else some written
      | _ => some written
    listOverlayNodes path includeHidden capacity rest written

/-- `list_directory_overlay`, for an output of so many bytes. -/
def listDirectoryOverlay (path : List UInt8) (includeHidden : Bool) (capacity : ℕ) :
    Option (List UInt8) := do
  let path ← canonicalPath path
  if !isDirectoryOverlay fs path then none
  else if path = devPath then
    if fs.blockDiskPresent then appendName capacity [] [104, 100, 97] else some []
  else
    let archived :=
      if kindAt fs path ≠ .opaqueDirectory ∧ Archive.isDirectory fs.archive path then
        (Archive.listDirectory fs.archive path 4096).getD []
      else []
    let written ← listArchiveNames fs path includeHidden capacity (archived.splitOn newline) []
    listOverlayNodes fs path includeHidden capacity (List.finRange maxOverlayNodes) written

end Lookups

/-! ### Changes -/

/-- `insert_overlay_as`: where the node goes. -/
def slotFor (fs : RamFs) (path : List UInt8) : Option (Fin maxOverlayNodes) :=
  (findOverlayNode fs path).or
    ((List.finRange maxOverlayNodes).find? fun i => (fs.overlay i).kind = .empty)

/-- The overlay with another node in a slot. -/
def RamFs.setNode (fs : RamFs) (i : Fin maxOverlayNodes) (node : OverlayNode) : RamFs :=
  { fs with overlay := Function.update fs.overlay i node }

def insertOverlayAs (path : List UInt8) (kind : NodeKind) (mode : UInt16) (uid gid : UInt32)
    (fs : RamFs) : Except FsError Unit × RamFs :=
  if maxPath < path.length then (.error .invalidPath, fs)
  else match slotFor fs path with
  | none => (.error .noSpace, fs)
  | some i => (.ok (), fs.setNode i ⟨path, kind, 0, 0, 0, mode, uid, gid⟩)

def insertOverlay (path : List UInt8) (kind : NodeKind) (fs : RamFs) :
    Except FsError Unit × RamFs :=
  insertOverlayAs path kind (if kind.isDirectory then 0o755 else 0o644) 0 0 fs

def ensureParentDirectory (fs : RamFs) (path : List UInt8) : Bool :=
  isDirectoryOverlay fs (parentPath path)

/-- `create_file_with_mode_overlay` -/
def createFileOverlay (path : List UInt8) (mode : UInt16) (uid gid : UInt32) (fs : RamFs) :
    Except FsError Unit × RamFs :=
  match canonicalPath path with
  | none => (.error .invalidPath, fs)
  | some path =>
    if path = devPath ∨ path = diskPath then (.error .invalidPath, fs)
    else if path = [] then (.error .isDirectory, fs)
    else if isFileOverlay fs path then (.ok (), fs)
    else if isDirectoryOverlay fs path then (.error .isDirectory, fs)
    else if !ensureParentDirectory fs path then (.error .notDirectory, fs)
    else insertOverlayAs path .file (mode &&& 0o777) uid gid fs

/-- `copy_from_slice` into the pool. -/
def copyInto (data : ℕ → UInt8) (start : ℕ) (bytes : List UInt8) : ℕ → UInt8 := fun k =>
  if start ≤ k ∧ k < start + bytes.length then bytes.getD (k - start) 0 else data k

/-- The slot of the file at a path. -/
def findFile (fs : RamFs) (path : List UInt8) : Option (Fin maxOverlayNodes) :=
  (List.finRange maxOverlayNodes).find? fun i =>
    (fs.overlay i).kind = .file ∧ (fs.overlay i).path = path

def writeFileOverlay (path bytes : List UInt8) (uid gid : UInt32) (fs : RamFs) :
    Except FsError Unit × RamFs :=
  if maxWriteFileSize < bytes.length then (.error .noSpace, fs)
  else match canonicalPath path with
  | none => (.error .invalidPath, fs)
  | some path =>
    if path = devPath ∨ path = diskPath then (.error .invalidPath, fs)
    else if path = [] then (.error .isDirectory, fs)
    else if isDirectoryOverlay fs path then (.error .isDirectory, fs)
    else if !isFileOverlay fs path ∧ !ensureParentDirectory fs path then (.error .notDirectory, fs)
    else
      let (mode, ownerUid, ownerGid) := (metadataOverlay fs path).elim (0o644, uid, gid)
        fun metadata => (metadata.mode, metadata.uid, metadata.gid)
      let existingSlot := findFile fs path
      let oldCapacity := existingSlot.elim 0 fun slot => (fs.overlay slot).dataCapacity
      let reusable := existingSlot.filter fun _ => bytes.length ≤ oldCapacity
      let dataCapacity :=
        if reusable.isSome then oldCapacity
        else if bytes = [] then 0
        else max (max (oldCapacity * 2) bytes.length) 4096
      if overlayDataCapacity - fs.fileDataUsed < dataCapacity then (.error .noSpace, fs)
      else
        let dataStart := reusable.elim fs.fileDataUsed fun slot => (fs.overlay slot).dataStart
        let fs := { fs with
          fileData := copyInto fs.fileData dataStart bytes
          fileDataUsed := if reusable.isSome then fs.fileDataUsed
            else fs.fileDataUsed + dataCapacity }
        match insertOverlayAs path .file mode ownerUid ownerGid fs with
        | (.error e, fs) => (.error e, fs)
        | (.ok (), fs) =>
          match findFile fs path with
          | none => (.error .noSpace, fs)
          | some i => (.ok (), fs.setNode i { fs.overlay i with
              dataStart := dataStart
              dataLength := bytes.length
              dataCapacity := dataCapacity })

def writeAtOverlay (path : List UInt8) (offset : ℕ) (input : List UInt8) (fs : RamFs) :
    Except FsError ℕ × RamFs :=
  let stop := offset + input.length
  if maxOverlayFileSize < stop then (.error .noSpace, fs)
  else match canonicalPath path with
  | none => (.error .invalidPath, fs)
  | some path =>
    if path = [] ∨ isDirectoryOverlay fs path then (.error .isDirectory, fs)
    else match readFromOverlay fs path with
    | none => (.error .notFound, fs)
    | some original =>
      if original.length < offset then (.error .invalidPath, fs)
      else
        let newLength := max original.length stop
        if maxOverlayFileSize < newLength then (.error .noSpace, fs)
        else if !ensureParentDirectory fs path then (.error .notDirectory, fs)
        else
          let metadata := metadataOverlay fs path
          let existingSlot := findFile fs path
          let oldCapacity := existingSlot.elim 0 fun slot => (fs.overlay slot).dataCapacity
          let reusable := existingSlot.filter fun _ => newLength ≤ oldCapacity
          let dataCapacity :=
            if reusable.isSome then oldCapacity
            else if newLength = 0 then 0
            else min (max (max (oldCapacity * 2) newLength) 4096) maxOverlayFileSize
          if dataCapacity < newLength ∨ overlayDataCapacity - fs.fileDataUsed < dataCapacity then
            (.error .noSpace, fs)
          else
            let dataStart := reusable.elim fs.fileDataUsed fun slot => (fs.overlay slot).dataStart
            let copied := if reusable.isSome then fs.fileData
              else copyInto fs.fileData dataStart original
            let fs := { fs with
              fileData := copyInto copied (dataStart + offset) input
              fileDataUsed := if reusable.isSome then fs.fileDataUsed
                else fs.fileDataUsed + dataCapacity }
            match existingSlot.or (slotFor fs path) with
            | none => (.error .noSpace, fs)
            | some i => (.ok input.length, fs.setNode i {
                path := path
                kind := .file
                dataLength := newLength
                dataStart := dataStart
                dataCapacity := dataCapacity
                mode := metadata.elim 0o644 (·.mode)
                uid := metadata.elim 0 (·.uid)
                gid := metadata.elim 0 (·.gid) })

/-- `create_directory_one_as` -/
def createDirectoryOne (path : List UInt8) (uid gid : UInt32) (fs : RamFs) :
    Except FsError Unit × RamFs :=
  if isFileOverlay fs path ∨ isDirectoryOverlay fs path then (.error .alreadyExists, fs)
  else if !ensureParentDirectory fs path then (.error .notDirectory, fs)
  else insertOverlayAs path
    (if Archive.isDirectory fs.archive path then .opaqueDirectory else .directory) 0o755 uid gid fs

/-- The loop of `create_directory_with_parents_overlay`. A slash after 256 bytes has no place in the
buffer of the source, and the kernel stops there. -/
def createDirectories (uid gid : UInt32) :
    List (List UInt8) → List UInt8 → RamFs → Option (Except FsError Unit × RamFs)
  | [], _, fs => some (.ok (), fs)
  | component :: rest, current, fs =>
    if current ≠ [] ∧ maxPath ≤ current.length then none
    else
      let current := if current = [] then current else current ++ [slash]
      if maxPath < current.length + component.length then some (.error .invalidPath, fs)
      else
        let current := current ++ component
        if isDirectoryOverlay fs current then createDirectories uid gid rest current fs
        else if isFileOverlay fs current then some (.error .alreadyExists, fs)
        else match createDirectoryOne current uid gid fs with
        | (.error e, fs) => some (.error e, fs)
        | (.ok (), fs) => createDirectories uid gid rest current fs

/-- `create_directory_with_parents_overlay` -/
def createDirectoryOverlay (path : List UInt8) (parents : Bool) (uid gid : UInt32) (fs : RamFs) :
    Option (Except FsError Unit × RamFs) :=
  match canonicalPath path with
  | none => some (.error .invalidPath, fs)
  | some path =>
    if path = [] then some (.error .alreadyExists, fs)
    else if parents then createDirectories uid gid (path.splitOn slash) [] fs
    else some (createDirectoryOne path uid gid fs)

/-- The loop of `remove_overlay`: the nodes at a path and below it are given up. -/
def removeNodes (path : List UInt8) (fs : RamFs) : RamFs :=
  { fs with
    overlay := fun i =>
      let node := fs.overlay i
      if node.kind ≠ .empty ∧ (node.path = path ∨ isChildPath node.path path) then .empty
      else node }

def removeOverlay (path : List UInt8) (recursive : Bool) (fs : RamFs) :
    Except FsError Unit × RamFs :=
  match canonicalPath path with
  | none => (.error .invalidPath, fs)
  | some path =>
    if path = [] ∨ path = devPath ∨ path = diskPath then (.error .invalidPath, fs)
    else if !isFileOverlay fs path ∧ !isDirectoryOverlay fs path then (.error .notFound, fs)
    else if isDirectoryOverlay fs path ∧
        (listDirectoryOverlay fs path false 4096).getD [] ≠ [] ∧ !recursive then
      (.error .directoryNotEmpty, fs)
    else if Archive.isFile fs.archive path ∨ Archive.isDirectory fs.archive path then
      insertOverlay path .whiteout fs
    else (.ok (), removeNodes path fs)

/-! ### Runs -/

/-- The changes. -/
inductive Operation
  | createFile (path : Str) (mode : UInt16) (uid gid : UInt32)
  | writeFile (path : Str) (bytes : List UInt8) (uid gid : UInt32)
  | writeAt (path : Str) (offset : ℕ) (input : List UInt8)
  | createDirectory (path : Str) (parents : Bool) (uid gid : UInt32)
  | remove (path : Str) (recursive : Bool)

/-- What an operation leaves, if it returns. -/
def Operation.run (op : Operation) (fs : RamFs) : Option RamFs :=
  match op with
  | .createFile path mode uid gid => some (createFileOverlay path.val mode uid gid fs).2
  | .writeFile path bytes uid gid => some (writeFileOverlay path.val bytes uid gid fs).2
  | .writeAt path offset input => some (writeAtOverlay path.val offset input fs).2
  | .createDirectory path parents uid gid =>
    (createDirectoryOverlay path.val parents uid gid fs).map Prod.snd
  | .remove path recursive => some (removeOverlay path.val recursive fs).2

/-- The states that runs reach. -/
inductive Reached : RamFs → Prop
  | mount (archive : List UInt8) (fileData : ℕ → UInt8) (blockDiskPresent : Bool)
      (sectorCount : ℕ) : Reached (.mount archive fileData blockDiskPresent sectorCount)
  | step {fs fs' : RamFs} (h : Reached fs) (op : Operation) (hrun : op.run fs = some fs') :
      Reached fs'

end ImagineOS.Overlay
