import ImagineOS.Dfs.Journal
import Mathlib.Data.List.TakeWhile

/-!
# DFS: nodes

A node is a file or a directory. It occupies one sector of the node table, which holds its path,
its attributes and up to fourteen extents, and ends in a checksum. The table is the only record of
the hierarchy: a lookup decodes the sectors one after the other and compares paths.
-/

namespace ImagineOS.Dfs

open BlockProgram List Sector

def nodeFile : UInt8 := 1

def nodeDirectory : UInt8 := 2

/-! ### Records -/

/-- `Extent`: `sectorCount` sectors from address `startLba` on hold the sectors of the file from
`logicalStart` on. -/
@[ext] structure Extent where
  startLba : ℕ
  logicalStart : ℕ
  sectorCount : ℕ
  startLba_lt : startLba < 2 ^ 64
  logicalStart_lt : logicalStart < 2 ^ 32
  sectorCount_lt : sectorCount < 2 ^ 32
  deriving DecidableEq

/-- An extent with its fields cast to their types. -/
def Extent.ofNat (startLba logicalStart sectorCount : ℕ) : Extent where
  startLba := startLba % 2 ^ 64
  logicalStart := logicalStart % 2 ^ 32
  sectorCount := sectorCount % 2 ^ 32
  startLba_lt := Nat.mod_lt _ (by decide)
  logicalStart_lt := Nat.mod_lt _ (by decide)
  sectorCount_lt := Nat.mod_lt _ (by decide)

/-- `Node`: the path is `path[..path_length]`, the extents are `extents[..extent_count]`. -/
@[ext] structure Node where
  path : List UInt8
  kind : UInt8
  size : ℕ
  mode : UInt16
  uid : UInt32
  gid : UInt32
  extents : List Extent
  path_le : path.length ≤ maxPath
  size_lt : size < 2 ^ 64
  extents_le : extents.length ≤ maxExtents
  deriving DecidableEq

namespace Node

theorem zero_size_lt : 0 < 2 ^ 64 := by decide

/-- `Node::EMPTY` -/
def empty : Node where
  path := []
  kind := 0
  size := 0
  mode := 0
  uid := 0
  gid := 0
  extents := []
  path_le := Nat.zero_le maxPath
  size_lt := zero_size_lt
  extents_le := Nat.zero_le maxExtents

/-- `Node::path` -/
def pathStr (node : Node) : List UInt8 := if validUtf8 node.path then node.path else []

/-- The node decoded from the sector of a node. -/
def stored (node : Node) : Node :=
  if node.kind = 0 then empty
  else { node with
    path := node.path.takeWhile (· ≠ 0)
    path_le := (List.takeWhile_sublist _).length_le.trans node.path_le }

/-- What every node written to the table satisfies: it is free, a file whose extents are not
empty, or a directory without extents. -/
def Valid (node : Node) : Prop :=
  node.kind = 0 ∨ (node.kind = nodeFile ∧ ∀ e ∈ node.extents, e.sectorCount ≠ 0) ∨
    (node.kind = nodeDirectory ∧ node.extents = [])

instance (node : Node) : Decidable node.Valid := inferInstanceAs (Decidable (_ ∨ _ ∨ _))

theorem stored_empty : empty.stored = empty := rfl

theorem stored_of_kind_ne {node : Node} (h : node.kind ≠ 0) : node.stored = { node with
    path := node.path.takeWhile (· ≠ 0)
    path_le := (List.takeWhile_sublist _).length_le.trans node.path_le } := if_neg h

@[simp] theorem kind_stored (node : Node) : node.stored.kind = node.kind := by
  unfold stored
  split
  · rename_i h
    exact h.symm
  · rfl

theorem stored_eq_self {node : Node} (hkind : node.kind ≠ 0) (hpath : (0 : UInt8) ∉ node.path) :
    node.stored = node := by
  rw [stored_of_kind_ne hkind]
  ext1 <;> try rfl
  exact takeWhile_eq_self_iff.mpr fun b hb => decide_eq_true fun h => hpath (h ▸ hb)

end Node

/-! ### Encoding and decoding -/

/-- The sixteen bytes of an extent. -/
def extentBytes (e : Extent) : List UInt8 :=
  leBytes 8 e.startLba ++ (leBytes 4 e.logicalStart ++ leBytes 4 e.sectorCount)

/-- The fields of a node sector, less the checksum. -/
def nodeFields (node : Node) : List (ℕ × List UInt8) :=
  (0, node.path) :: (256, [node.kind]) :: (257, [UInt8.ofNat node.extents.length]) ::
    (258, leBytes 2 node.mode.toNat) :: (260, leBytes 4 node.uid.toNat) ::
    (264, leBytes 4 node.gid.toNat) :: (268, leBytes 8 node.size) ::
    node.extents.mapIdx fun i e => (280 + i * 16, extentBytes e)

/-- The sector of a node without its checksum. -/
def nodeBody (node : Node) : Sector := zeroSector.putFields (nodeFields node)

/-- `encode_node`. The two bounds it checks are fields of `Node`, so it cannot fail. -/
def encodeNode (node : Node) : Sector :=
  if node.kind = 0 then zeroSector
  else (nodeBody node).put 508 (leBytes 4 (crc32 ((nodeBody node).slice 0 508)).toNat)

/-- Extent `i` of a node sector. -/
def extentAt (s : Sector) (i : ℕ) : Extent :=
  .ofNat (leNat (s.slice (280 + i * 16) 8)) (leNat (s.slice (288 + i * 16) 4))
    (leNat (s.slice (292 + i * 16) 4))

def decodeNode (s : Sector) : Except DfsError Node :=
  let kind := s.byte 256
  let count := (s.byte 257).toNat
  let extents := (List.range count).map (extentAt s)
  if kind = 0 then .ok .empty
  else if (crc32 (s.slice 0 508)).toNat ≠ leNat (s.slice 508 4) then .error .corruptMetadata
  else if ¬ (kind = nodeFile ∨ kind = nodeDirectory) then .error .corruptMetadata
  else if h : maxExtents < count ∨ (kind = nodeDirectory ∧ count ≠ 0) then .error .corruptMetadata
  else if extents.any fun e => e.sectorCount = 0 then .error .corruptMetadata
  else .ok {
    path := (s.slice 0 maxPath).takeWhile (· ≠ 0)
    kind := kind
    size := leNat (s.slice 268 8)
    mode := UInt16.ofNat (leNat (s.slice 258 2))
    uid := UInt32.ofNat (leNat (s.slice 260 4))
    gid := UInt32.ofNat (leNat (s.slice 264 4))
    extents := extents
    path_le := (List.takeWhile_sublist _).length_le.trans_eq (Sector.length_slice _ _ _)
    size_lt := by simpa using leNat_lt (s.slice 268 8)
    extents_le := by simpa [extents] using (not_or.mp h).1 }

@[simp] theorem decodeNode_zeroSector : decodeNode zeroSector = .ok .empty := by
  simp [decodeNode]

@[simp] theorem length_extentBytes (e : Extent) : (extentBytes e).length = 16 := by
  simp [extentBytes]

theorem extentAt_of_slice {s : Sector} {i : ℕ} {e : Extent}
    (h : s.slice (280 + i * 16) 16 = extentBytes e) : extentAt s i = e := by
  obtain ⟨hstart, h⟩ := slice_of_append (a := 8) (b := 8) h (by simp)
  obtain ⟨hlogical, hcount⟩ := slice_of_append (a := 4) (b := 4) h (by simp)
  rw [show 280 + i * 16 + 8 = 288 + i * 16 by omega] at hlogical hcount
  rw [show 288 + i * 16 + 4 = 292 + i * 16 by omega] at hcount
  rw [extentAt, hstart, hlogical, hcount, leNat_leBytes (by simpa using e.startLba_lt),
    leNat_leBytes (by simpa using e.logicalStart_lt),
    leNat_leBytes (by simpa using e.sectorCount_lt)]
  ext
  · exact Nat.mod_eq_of_lt e.startLba_lt
  · exact Nat.mod_eq_of_lt e.logicalStart_lt
  · exact Nat.mod_eq_of_lt e.sectorCount_lt

section RoundTrip

variable {node : Node}

theorem pairwise_nodeFields : (nodeFields node).Pairwise Sector.FieldsApart := by
  have hpath : node.path.length ≤ 255 := node.path_le
  simp only [nodeFields, pairwise_cons, forall_mem_cons, mem_mapIdx,
    Sector.FieldsApart, length_leBytes, length_singleton]
  refine ⟨⟨by omega, by omega, by omega, by omega, by omega, by omega, ?_⟩,
    ⟨by omega, by omega, by omega, by omega, by omega, ?_⟩,
    ⟨by omega, by omega, by omega, by omega, ?_⟩, ⟨by omega, by omega, by omega, ?_⟩,
    ⟨by omega, by omega, ?_⟩, ⟨by omega, ?_⟩, ?_,
    pairwise_fieldsApart_mapIdx length_extentBytes 280 node.extents⟩
  all_goals
    rintro f ⟨i, hi, rfl⟩
    omega

/-- **The fields of a node sector read back.** -/
theorem slice_encodeNode (hkind : node.kind ≠ 0) (off : ℕ) (bs : List UInt8)
    (h : (off, bs) ∈ nodeFields node) (hoff : off + bs.length ≤ 508) :
    (encodeNode node).slice off bs.length = bs := by
  rw [encodeNode, if_neg hkind, slice_put_of_disjoint _ (Or.inl hoff)]
  exact slice_putFields pairwise_nodeFields h (by omega)

theorem leNat_encodeNode (hkind : node.kind ≠ 0) (off w n : ℕ)
    (h : (off, leBytes w n) ∈ nodeFields node) (hoff : off + w ≤ 508) (hn : n < 256 ^ w) :
    leNat ((encodeNode node).slice off w) = n := by
  have hslice := slice_encodeNode hkind _ _ h (by simpa using hoff)
  rw [length_leBytes] at hslice
  rw [hslice, leNat_leBytes hn]

theorem checksum_encodeNode (hkind : node.kind ≠ 0) :
    leNat ((encodeNode node).slice 508 4) = (crc32 ((encodeNode node).slice 0 508)).toNat := by
  rw [encodeNode, if_neg hkind, slice_put_self _ (by simp) (by omega),
    slice_put_of_disjoint _ (by simp), leNat_leBytes (UInt32.toNat_lt _)]

theorem slice_encodeNode_path (hkind : node.kind ≠ 0) :
    (encodeNode node).slice 0 maxPath =
      node.path ++ List.replicate (maxPath - node.path.length) 0 := by
  have hle : node.path.length ≤ 255 := node.path_le
  have hmp : maxPath = 255 := rfl
  have hpath := slice_encodeNode hkind 0 node.path (by simp [nodeFields]) (by omega)
  rw [show maxPath = node.path.length + (maxPath - node.path.length) by omega,
    slice_append, hpath, Nat.add_sub_cancel_left, Nat.zero_add]
  congr 1
  -- No field overlaps the rest of the path field.
  rw [encodeNode, if_neg hkind, slice_put_of_disjoint _ (by omega), nodeBody,
    slice_putFields_of_disjoint]
  · simp [Sector.slice]
  · simp only [nodeFields, forall_mem_cons, mem_mapIdx]
    refine ⟨by omega, by omega, by omega, by omega, by omega, by omega, by omega, ?_⟩
    rintro f ⟨i, hi, rfl⟩
    omega

theorem takeWhile_path_append (p : List UInt8) (n : ℕ) :
    (p ++ List.replicate n 0).takeWhile (· ≠ 0) = p.takeWhile (· ≠ 0) := by
  induction p with
  | nil => cases n <;> simp [replicate_succ]
  | cons b p ih => simp only [cons_append, takeWhile_cons, ih]

/-- **Round trip**, up to the first NUL byte of the path. -/
theorem decodeNode_encodeNode (h : node.Valid) :
    decodeNode (encodeNode node) = .ok node.stored := by
  by_cases hkind : node.kind = 0
  · rw [encodeNode, if_pos hkind, decodeNode_zeroSector, Node.stored, if_pos hkind]
  have hme : maxExtents = 14 := rfl
  have hlen : node.extents.length ≤ maxExtents := node.extents_le
  have hkind' : (encodeNode node).byte 256 = node.kind := byte_of_slice (i := 0)
    (slice_encodeNode hkind 256 [node.kind] (by simp [nodeFields]) (by simp)) (by simp)
  have hcount : ((encodeNode node).byte 257).toNat = node.extents.length := by
    have h := byte_of_slice (i := 0) (slice_encodeNode hkind 257
      [UInt8.ofNat node.extents.length] (by simp [nodeFields]) (by simp)) (by simp)
    simp only [Nat.add_zero, getElem_cons_zero] at h
    rw [h, UInt8.toNat_ofNat']
    omega
  have hextents : (List.range node.extents.length).map (extentAt (encodeNode node)) =
      node.extents := by
    refine ext_getElem (by simp) fun i h₁ h₂ => ?_
    rw [getElem_map, getElem_range]
    have h := slice_encodeNode hkind (280 + i * 16) (extentBytes node.extents[i])
      (by simp only [nodeFields, mem_cons, mem_mapIdx]; grind) (by simp; omega)
    exact extentAt_of_slice (by simpa using h)
  have hmode := leNat_encodeNode hkind 258 2 node.mode.toNat (by simp [nodeFields]) (by omega)
    (UInt16.toNat_lt node.mode)
  have huid := leNat_encodeNode hkind 260 4 node.uid.toNat (by simp [nodeFields]) (by omega)
    (UInt32.toNat_lt node.uid)
  have hgid := leNat_encodeNode hkind 264 4 node.gid.toNat (by simp [nodeFields]) (by omega)
    (UInt32.toNat_lt node.gid)
  have hsize := leNat_encodeNode hkind 268 8 node.size (by simp [nodeFields]) (by omega)
    (by simpa using node.size_lt)
  have hpath : ((encodeNode node).slice 0 maxPath).takeWhile (· ≠ 0) =
      node.path.takeWhile (· ≠ 0) := by
    rw [slice_encodeNode_path hkind, takeWhile_path_append]
  have hfiledir : node.kind = nodeFile ∨ node.kind = nodeDirectory :=
    (h.resolve_left hkind).imp And.left And.left
  have hdir : node.kind = nodeDirectory → node.extents.length = 0 := by
    intro hd
    rcases h.resolve_left hkind with hf | hd'
    · exact absurd (hd.symm.trans hf.1) (by decide)
    · rw [hd'.2]; rfl
  have hcounts : (node.extents.any fun e => e.sectorCount = 0) = false := by
    rcases h.resolve_left hkind with hf | hd
    · simpa using hf.2
    · simp [hd.2]
  rw [decodeNode, Node.stored_of_kind_ne hkind]
  simp only [hkind', hcount, hextents]
  rw [if_neg hkind, if_neg (by rw [checksum_encodeNode hkind]; simp), if_neg (not_not.mpr hfiledir),
    dif_neg (by rintro (h | ⟨hd, hne⟩); exacts [absurd h (by omega), hne (hdir hd)]),
    if_neg (by simp [hcounts])]
  simp only [hmode, huid, hgid, hsize, hpath, UInt16.ofNat_toNat, UInt32.ofNat_toNat]

end RoundTrip

/-! ### Reading a node, and mounting -/

section Programs

variable {C : Type}

def readNode (L : Layout) (index : ℕ) : DfsProgram C Node :=
  if inodeCount ≤ index then throw .corruptMetadata
  else do
    let bytes ← readSector (L.inodeLba + index)
    ofExcept (decodeNode bytes)

/-- `Dfs::mount` -/
def mount (startLba sectors : ℕ) : DfsProgram Empty Layout := do
  let layout ← readSuperblock startLba sectors
  replayJournal layout
  let root ← readNode layout 0
  if root.kind ≠ nodeDirectory ∨ root.path.length ≠ 0 then throw .corruptMetadata
  else pure layout

end Programs

end ImagineOS.Dfs
