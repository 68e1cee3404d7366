import ImagineOS.Checksum
import ImagineOS.Dfs.Node

/-!
# DFS: nodes that are read back, and nodes that are damaged

A node that the file system can hold is read back as it was written. A sector of the node table in
which one bit has changed is recognized by the checksum, which covers all of it. But a reader looks
at the kind of the node first, and takes the node for free when the kind is zero, without a look at
the checksum. The kind of a file is 1 and that of a directory is 2: each has one bit set, and a
change of that bit makes the node disappear.
-/

namespace ImagineOS.Dfs

open Sector

/-! ### Round trip -/

/-- **A node that the file system can hold is read back as it was written**: it is a file whose
extents are not empty, or a directory without extents, and its path has no NUL byte. -/
theorem node_reads_back (node : Node)
    (hkind : (node.kind = nodeFile ∧ ∀ e ∈ node.extents, 0 < e.sectorCount) ∨
      (node.kind = nodeDirectory ∧ node.extents = []))
    (hpath : (0 : UInt8) ∉ node.path) : decodeNode (encodeNode node) = .ok node := by
  have hvalid : node.Valid :=
    Or.inr (hkind.imp_left fun h => ⟨h.1, fun e he => (h.2 e he).ne'⟩)
  have hne : node.kind ≠ 0 := by
    rcases hkind with h | h
    all_goals
      rw [h.1]
      decide
  rw [decodeNode_encodeNode hvalid, Node.stored_eq_self hne hpath]

/-- A file of three sectors in two extents. -/
def sampleFileNode : Node where
  path := [0x61, 0x2f, 0x62]
  kind := nodeFile
  size := 1500
  mode := 0o644
  uid := 1000
  gid := 1000
  extents := [.ofNat 2323 0 2, .ofNat 2500 2 1]
  path_le := by decide
  size_lt := by decide
  extents_le := by decide

theorem node_reads_back_sample : decodeNode (encodeNode sampleFileNode) = .ok sampleFileNode :=
  node_reads_back sampleFileNode (Or.inl ⟨rfl, by decide⟩) (by decide)

/-! ### One bit -/

/-- The sector with one bit changed. -/
def flipBit (s : Sector) (bit : ℕ) : Sector := fun i =>
  if i.val = bit / 8 then s i ^^^ (1 <<< UInt8.ofNat (bit % 8)) else s i

variable {bit : ℕ}

theorem byte_flipBit_of_ne (s : Sector) {i : ℕ} (h : i ≠ bit / 8) :
    (flipBit s bit).byte i = s.byte i := by
  by_cases hi : i < 512
  · rw [byte_of_lt _ hi, byte_of_lt _ hi, flipBit, if_neg h]
  · simp [Sector.byte, hi]

theorem byte_flipBit_self (s : Sector) (h : bit < 4096) :
    (flipBit s bit).byte (bit / 8) = s.byte (bit / 8) ^^^ (1 <<< UInt8.ofNat (bit % 8)) := by
  have hi : bit / 8 < 512 := by omega
  rw [byte_of_lt _ hi, byte_of_lt _ hi, flipBit, if_pos rfl]

theorem byte_flipBit_ne (s : Sector) (h : bit < 4096) :
    (flipBit s bit).byte (bit / 8) ≠ s.byte (bit / 8) := by
  have key : ∀ (b : Fin 256) (i : Fin 8),
      UInt8.ofNat b ^^^ (1 <<< UInt8.ofNat i) ≠ UInt8.ofNat b := by decide +kernel
  have hbyte := key ⟨(s.byte (bit / 8)).toNat, UInt8.toNat_lt _⟩ ⟨bit % 8, Nat.mod_lt _ (by decide)⟩
  rw [byte_flipBit_self s h]
  simpa using hbyte

/-- A sector that holds a checksum no longer holds it when a bit has changed. -/
theorem checksum_flipBit {s : Sector} (hbit : bit < 4096)
    (h : leNat (s.slice 508 4) = (crc32 (s.slice 0 508)).toNat) :
    (crc32 ((flipBit s bit).slice 0 508)).toNat ≠ leNat ((flipBit s bit).slice 508 4) := by
  have hne := byte_flipBit_ne s hbit
  have hrest : ∀ j, j ≠ bit / 8 → (flipBit s bit).byte j = s.byte j := fun j =>
    byte_flipBit_of_ne s
  intro heq
  by_cases hlow : bit / 8 < 508
  · -- The bit is in the range of the checksum, which is another one now.
    have hstored : (flipBit s bit).slice 508 4 = s.slice 508 4 :=
      slice_congr fun j hj => hrest _ (by omega)
    rw [hstored, h, UInt32.toNat_inj] at heq
    have hsame := (crc32_slice_iff 0 hlow (by simpa using hrest)).mp heq
    rw [Nat.zero_add] at hsame
    exact hne hsame
  · -- The bit is one of the checksum.
    have hrange : (flipBit s bit).slice 0 508 = s.slice 0 508 :=
      slice_congr fun j hj => hrest _ (by omega)
    rw [hrange, ← h] at heq
    have hsame := leNat_injective (by simp) heq
    obtain ⟨i, hi⟩ : ∃ i, bit / 8 = 508 + i := ⟨bit / 8 - 508, by omega⟩
    have hlt : i < (s.slice 508 4).length := by
      rw [length_slice]
      omega
    have hbyte := byte_of_slice hsame.symm hlt
    rw [getElem_slice, ← hi] at hbyte
    exact hne hbyte

/-! ### Damaged nodes -/

section Damage

variable {node : Node}

theorem byte_encodeNode_kind (hkind : node.kind ≠ 0) : (encodeNode node).byte 256 = node.kind :=
  byte_of_slice (i := 0)
    (slice_encodeNode hkind 256 [node.kind] (by simp [nodeFields]) (by simp)) (by simp)

theorem decodeNode_flipBit (hkind : node.kind ≠ 0) (hbit : bit < 4096) :
    decodeNode (flipBit (encodeNode node) bit) =
      if (flipBit (encodeNode node) bit).byte 256 = 0 then .ok .empty
      else .error .corruptMetadata := by
  rw [decodeNode]
  split
  · rfl
  · rw [if_pos (checksum_flipBit hbit (checksum_encodeNode hkind))]

/-- The one bit of a kind. -/
def kindBit (kind : UInt8) : ℕ := 2048 + if kind = nodeFile then 0 else 1

theorem kind_flipBit_eq_zero_iff (hkind : node.kind = nodeFile ∨ node.kind = nodeDirectory)
    (hbit : bit < 4096) :
    (flipBit (encodeNode node) bit).byte 256 = 0 ↔ bit = kindBit node.kind := by
  have hne : node.kind ≠ 0 := by
    rcases hkind with h | h
    all_goals
      rw [h]
      decide
  by_cases hbyte : bit / 8 = 256
  · have key : ∀ i : Fin 8, (nodeFile ^^^ (1 <<< UInt8.ofNat i) = 0 ↔ i.val = 0) ∧
        (nodeDirectory ^^^ (1 <<< UInt8.ofNat i) = 0 ↔ i.val = 1) := by decide
    obtain ⟨hfile, hdirectory⟩ := key ⟨bit % 8, Nat.mod_lt _ (by decide)⟩
    have hself := byte_flipBit_self (encodeNode node) hbit
    rw [hbyte, byte_encodeNode_kind hne] at hself
    rw [hself, kindBit]
    rcases hkind with h | h
    · rw [h, hfile, if_pos rfl]
      simp only
      omega
    · rw [h, hdirectory, if_neg (by decide)]
      simp only
      omega
  · rw [byte_flipBit_of_ne _ (Ne.symm hbyte), byte_encodeNode_kind hne]
    constructor
    · exact fun h => absurd h hne
    · rintro rfl
      exact absurd (by unfold kindBit; split <;> omega) hbyte

/-- **Which damage is found.** A bit of the sector of a node that has changed is found exactly
when it is not the one bit of the kind. That bit makes the node disappear; no damage makes
another node of it. -/
theorem damage_is_found_iff (node : Node) (hvalid : node.Valid) (hactive : node.kind ≠ 0)
    (bit : ℕ) (hbit : bit < 4096) :
    (decodeNode (flipBit (encodeNode node) bit) = .error .corruptMetadata ↔
      bit ≠ kindBit node.kind) ∧
    (bit = kindBit node.kind → decodeNode (flipBit (encodeNode node) bit) = .ok .empty) := by
  have hkind : node.kind = nodeFile ∨ node.kind = nodeDirectory :=
    (hvalid.resolve_left hactive).imp And.left And.left
  rw [decodeNode_flipBit hactive hbit]
  by_cases h : bit = kindBit node.kind
  · rw [if_pos ((kind_flipBit_eq_zero_iff hkind hbit).mpr h)]
    simp [h]
  · rw [if_neg fun hz => h ((kind_flipBit_eq_zero_iff hkind hbit).mp hz)]
    simp [h]

end Damage

theorem damage_is_found_iff_sample :
    (decodeNode (flipBit (encodeNode sampleFileNode) 4) = .error .corruptMetadata ↔
      4 ≠ kindBit sampleFileNode.kind) ∧
    (4 = kindBit sampleFileNode.kind →
      decodeNode (flipBit (encodeNode sampleFileNode) 4) = .ok .empty) :=
  damage_is_found_iff sampleFileNode (by decide) (by decide) 4 (by decide)

/-- A change of the bit of its kind makes a file disappear. -/
theorem damage_not_found : sampleFileNode.Valid ∧ sampleFileNode.kind ≠ 0 ∧
    decodeNode (flipBit (encodeNode sampleFileNode) 2048) = .ok .empty := by
  refine ⟨by decide, by decide, ?_⟩
  have hkind : sampleFileNode.kind = nodeFile := rfl
  have hbit : 2048 = kindBit sampleFileNode.kind := rfl
  rw [decodeNode_flipBit (by rw [hkind]; decide) (by decide),
    if_pos ((kind_flipBit_eq_zero_iff (Or.inl hkind) (by decide)).mpr hbit)]

end ImagineOS.Dfs
