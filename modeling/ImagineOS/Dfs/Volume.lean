import ImagineOS.Dfs.Operations
import ImagineOS.BlockProgram.Contract

/-!
# DFS: volumes

What the sectors of a volume say, as three functions: the nodes of the table, the bits of the
bitmap, and the contents of the data area. `Represents L d v` relates a disk to such a `Vol`, and
the operations are described by what they do to it.
-/

namespace ImagineOS.Dfs

open BlockProgram

/-! ### Volumes -/

/-- What the sectors of a volume say. -/
@[ext] structure Vol where
  nodes : ℕ → Node
  used : ℕ → Bool
  data : ℕ → Sector

namespace Layout

variable (L : Layout)

/-- The bitmap sector that describes an address. -/
def bitmapSector (lba : ℕ) : ℕ := L.bitmapLba + (lba - L.startLba) / bitsPerSector

/-- The bit that describes an address. -/
def bitmapBit (lba : ℕ) : ℕ := (lba - L.startLba) % bitsPerSector

variable {L} {lba : ℕ}

theorem bitmapBit_lt : L.bitmapBit lba < 4096 := Nat.mod_lt _ (by decide)

theorem eq_of_bitmap {lba' : ℕ} (h : L.InPartition lba) (h' : L.InPartition lba')
    (hsector : L.bitmapSector lba = L.bitmapSector lba')
    (hbit : L.bitmapBit lba = L.bitmapBit lba') :
    lba = lba' := by
  obtain ⟨h₁, _⟩ := h
  obtain ⟨h₂, _⟩ := h'
  simp only [bitmapSector, bitmapBit, bitsPerSector, sectorSize] at hsector hbit
  omega

theorem bitmapSector_mono {lba' : ℕ} (h : lba ≤ lba') :
    L.bitmapSector lba ≤ L.bitmapSector lba' := by
  have := Nat.div_le_div_right (c := bitsPerSector) (Nat.sub_le_sub_right h L.startLba)
  simp only [bitmapSector]
  omega

theorem bitmapSector_succ_le (h : L.InPartition lba) :
    L.bitmapSector (lba + 1) ≤ L.bitmapSector lba + 1 := by
  have := h.1
  simp only [bitmapSector, bitsPerSector, sectorSize]
  omega

theorem le_bitmapSector (L : Layout) (lba : ℕ) : L.bitmapLba ≤ L.bitmapSector lba :=
  Nat.le_add_right _ _

theorem bitmapSector_lt (h : L.InPartition lba) : L.bitmapSector lba < L.dataLba := by
  obtain ⟨h₁, h₂⟩ := h
  obtain ⟨-, -, hb, -, hd, he, -, -⟩ := L.offsets
  simp only [bitmapSector, bitsPerSector, sectorSize]
  omega

theorem InData.inPartition (h : L.InData lba) : L.InPartition lba := by
  obtain ⟨h₁, h₂⟩ := h
  obtain ⟨-, -, -, -, hd, -, -, -⟩ := L.offsets
  exact ⟨by omega, h₂⟩

theorem InData.not_inJournal (h : L.InData lba) : ¬ L.InJournal lba := by
  rintro ⟨h₁, h₂⟩
  obtain ⟨hj, -, -, -, hd, -, -, -⟩ := L.offsets
  have hdata := h.1
  simp only [journalSectors] at h₂
  omega

theorem InData.not_inMeta (h : L.InData lba) : ¬ L.InMeta lba := fun h' =>
  absurd h.1 (not_le.mpr h'.2)

theorem InMeta.targetable (h : L.InMeta lba) : L.Targetable lba := by
  obtain ⟨h₁, h₂⟩ := h
  obtain ⟨hj, hi, -, -, hd, he, hde, -⟩ := L.offsets
  refine ⟨⟨by omega, by omega⟩, fun hjournal => ?_⟩
  have := hjournal.2
  simp only [journalSectors] at this
  omega

theorem InMeta.ne_startLba (h : L.InMeta lba) : lba ≠ L.startLba := by
  obtain ⟨-, hi, -, -, -, -, -, -⟩ := L.offsets
  have := h.1
  omega

theorem inMeta_inode {i : ℕ} (h : i < inodeCount) : L.InMeta (L.inodeLba + i) := by
  obtain ⟨hj, hi, hb, -, hd, he, hde, -⟩ := L.offsets
  simp only [inodeCount] at h
  exact ⟨by omega, by omega⟩

theorem inMeta_bitmap (h : L.InPartition lba) : L.InMeta (L.bitmapSector lba) := by
  obtain ⟨hj, hi, hb, -, hd, he, hde, -⟩ := L.offsets
  have := L.le_bitmapSector lba
  exact ⟨by omega, bitmapSector_lt h⟩

theorem inode_ne_bitmap {i : ℕ} (h : i < inodeCount) : L.inodeLba + i ≠ L.bitmapSector lba := by
  obtain ⟨hj, hi, hb, -, hd, he, hde, -⟩ := L.offsets
  have := L.le_bitmapSector lba
  simp only [inodeCount] at h
  omega

theorem bitmapLocation_eq (h : L.InPartition lba) :
    bitmapLocation L lba = .ok (L.bitmapSector lba, L.bitmapBit lba) := by
  have hlt := bitmapSector_lt h
  rw [bitmapLocation, if_pos h]
  simp only [bitmapSector, dataLba] at hlt
  simp only
  rw [if_neg (by omega)]
  rfl

theorem startLba_lt_dataLba : L.startLba < L.dataLba := by
  obtain ⟨-, -, -, -, hd, -, -, -⟩ := L.offsets
  omega

end Layout

/-- The sectors of the disk `d` say what the volume `v` says. -/
structure Holds (L : Layout) (d : ℕ → Sector) (v : Vol) : Prop where
  super : checkSuperblock L.startLba L.sectors (d L.startLba) = .ok L
  node : ∀ i < inodeCount, decodeNode (d (L.inodeLba + i)) = .ok (v.nodes i)
  used : ∀ lba, L.InPartition lba → getBit (d (L.bitmapSector lba)) (L.bitmapBit lba) = v.used lba
  data : ∀ lba, L.InData lba → d lba = v.data lba

/-- The disk `d` holds the volume `v`, with its root, and no transaction is pending. -/
structure Represents (L : Layout) (d : ℕ → Sector) (v : Vol) : Prop extends Holds L d v where
  header : d L.journalLba = zeroSector
  root : (v.nodes 0).kind = nodeDirectory ∧ (v.nodes 0).path = []

/-- A node as it comes out of the node table. -/
structure Node.Decoded (node : Node) : Prop where
  valid : node.Valid
  stored : node.stored = node

theorem decoded_of_decodeNode {s : Sector} {node : Node} (h : decodeNode s = .ok node) :
    node.Decoded := by
  unfold decodeNode at h
  simp only at h
  split at h
  · cases h
    exact ⟨Or.inl rfl, rfl⟩
  rename_i hkind
  split at h
  · cases h
  split at h
  · cases h
  rename_i hfd
  split at h
  · cases h
  rename_i hcount
  split at h
  · cases h
  rename_i hzero
  cases h
  refine ⟨?_, Node.stored_eq_self hkind fun hmem => ?_⟩
  · simp only [List.any_eq_true, decide_eq_true_eq, not_exists, not_and] at hzero
    rcases not_not.mp hfd with hf | hd
    · exact Or.inr (Or.inl ⟨hf, hzero⟩)
    · refine Or.inr (Or.inr ⟨hd, ?_⟩)
      have hz : (s.byte 257).toNat = 0 := by
        by_contra hne
        exact hcount (Or.inr ⟨hd, hne⟩)
      simp [hz]
  · simpa using List.mem_takeWhile_imp hmem

variable {i : ℕ}

theorem Represents.decoded {L : Layout} {d : ℕ → Sector} {v : Vol} (h : Represents L d v)
    (hi : i < inodeCount) : (v.nodes i).Decoded := decoded_of_decodeNode (h.node i hi)

theorem Represents.ne_zero_of_file {L : Layout} {d : ℕ → Sector} {v : Vol} (h : Represents L d v)
    (hkind : (v.nodes i).kind = nodeFile) : i ≠ 0 := by
  rintro rfl
  rw [h.root.1] at hkind
  exact absurd hkind (by decide)

namespace Node.Decoded

variable {node : Node}

theorem eq_empty (h : node.Decoded) (hkind : node.kind = 0) : node = .empty := by
  rw [← h.stored, Node.stored, if_pos hkind]

theorem zero_not_mem (h : node.Decoded) : (0 : UInt8) ∉ node.path := by
  by_cases hkind : node.kind = 0
  · rw [h.eq_empty hkind]
    exact List.not_mem_nil
  · intro hmem
    have hs := congrArg Node.path h.stored
    rw [Node.stored_of_kind_ne hkind] at hs
    have := List.mem_takeWhile_imp (hs.symm ▸ hmem)
    simp at this

theorem kind_cases (h : node.Decoded) :
    node = .empty ∨ node.kind = nodeFile ∨ node.kind = nodeDirectory :=
  h.valid.imp h.eq_empty (Or.imp And.left And.left)

theorem extents_of_ne_file (h : node.Decoded) (hkind : node.kind ≠ nodeFile) :
    node.extents = [] := by
  rcases h.valid with hk | hk | hk
  · rw [h.eq_empty hk]; rfl
  · exact absurd hk.1 hkind
  · exact hk.2

theorem sectorCount_ne_zero (h : node.Decoded) {e : Extent} (he : e ∈ node.extents) :
    e.sectorCount ≠ 0 := by
  by_cases hkind : node.kind = nodeFile
  · rcases h.valid with hk | hk | hk
    · rw [hk] at hkind; exact absurd hkind (by decide)
    · exact hk.2 e he
    · rw [hk.1] at hkind; exact absurd hkind (by decide)
  · rw [h.extents_of_ne_file hkind] at he
    simp at he

theorem empty : Node.empty.Decoded := ⟨Or.inl rfl, rfl⟩

end Node.Decoded

/-! ### Changes to a volume -/

namespace Vol

variable (v : Vol)

/-- Replace a node. -/
def setNode (i : ℕ) (node : Node) : Vol := { v with nodes := Function.update v.nodes i node }

/-- Set the bits of the addresses from `a` up to `b`. -/
def mark (a b : ℕ) (value : Bool) : Vol :=
  { v with used := fun lba => if a ≤ lba ∧ lba < b then value else v.used lba }

/-- Replace a data sector. -/
def setData (lba : ℕ) (s : Sector) : Vol := { v with data := Function.update v.data lba s }

variable {v}

@[simp] theorem setNode_used (i : ℕ) (node : Node) : (v.setNode i node).used = v.used := rfl

@[simp] theorem setNode_data (i : ℕ) (node : Node) : (v.setNode i node).data = v.data := rfl

@[simp] theorem setNode_nodes_self (i : ℕ) (node : Node) : (v.setNode i node).nodes i = node :=
  Function.update_self ..

theorem setNode_nodes_of_ne {j : ℕ} (node : Node) (h : j ≠ i) :
    (v.setNode i node).nodes j = v.nodes j := Function.update_of_ne h ..

@[simp] theorem setNode_setNode (i : ℕ) (node node' : Node) :
    (v.setNode i node).setNode i node' = v.setNode i node' := by
  simp [setNode]

@[simp] theorem mark_nodes (a b : ℕ) (value : Bool) : (v.mark a b value).nodes = v.nodes := rfl

@[simp] theorem mark_data (a b : ℕ) (value : Bool) : (v.mark a b value).data = v.data := rfl

theorem mark_used (a b : ℕ) (value : Bool) (lba : ℕ) :
    (v.mark a b value).used lba = if a ≤ lba ∧ lba < b then value else v.used lba := rfl

theorem mark_empty (a : ℕ) (value : Bool) : v.mark a a value = v := by
  refine Vol.ext rfl (funext fun lba => ?_) rfl
  rw [mark_used, if_neg (by omega)]

theorem mark_mark {a m b : ℕ} (value : Bool) (h : a ≤ m) (h' : m ≤ b) :
    (v.mark a m value).mark m b value = v.mark a b value := by
  refine Vol.ext rfl (funext fun lba => ?_) rfl
  simp only [mark_used]
  split_ifs <;> first | rfl | omega

@[simp] theorem setData_nodes (lba : ℕ) (s : Sector) : (v.setData lba s).nodes = v.nodes := rfl

@[simp] theorem setData_used (lba : ℕ) (s : Sector) : (v.setData lba s).used = v.used := rfl

end Vol

/-! ### Accounting for space -/

/-- The addresses an extent covers. -/
def Extent.Covers (e : Extent) (lba : ℕ) : Prop :=
  e.startLba ≤ lba ∧ lba < e.startLba + e.sectorCount

instance (e : Extent) (lba : ℕ) : Decidable (e.Covers lba) := inferInstanceAs (Decidable (_ ∧ _))

/-- Two extents without a common address. -/
def Extent.Apart (e f : Extent) : Prop := ∀ lba, ¬ (e.Covers lba ∧ f.Covers lba)

/-- The addresses that belong to a node. -/
def Node.Owns (node : Node) (lba : ℕ) : Prop := ∃ e ∈ node.extents, e.Covers lba

namespace Vol

/-- An address that belongs to some node. -/
def Owned (v : Vol) (lba : ℕ) : Prop := ∃ i < inodeCount, (v.nodes i).Owns lba

/-- **The accounting invariant**, up to a set of leaked sectors. -/
structure Accounted (L : Layout) (leaked : ℕ → Prop) (v : Vol) : Prop where
  /-- Extents lie in the data area. -/
  inData : ∀ i < inodeCount, ∀ lba, (v.nodes i).Owns lba → L.InData lba
  /-- The extents of a node are disjoint. -/
  apart : ∀ i < inodeCount, (v.nodes i).extents.Pairwise Extent.Apart
  /-- The sectors of different nodes are disjoint. -/
  separate : ∀ i < inodeCount, ∀ j < inodeCount, ∀ lba, (v.nodes i).Owns lba →
    (v.nodes j).Owns lba → i = j
  /-- Leaked sectors lie in the data area. -/
  leaked_inData : ∀ lba, leaked lba → L.InData lba
  /-- Leaked sectors belong to no node. -/
  leaked_free : ∀ lba, leaked lba → ¬ v.Owned lba
  /-- The bitmap is exact. -/
  used_iff : ∀ lba, L.InPartition lba →
    (v.used lba ↔ lba < L.dataLba ∨ v.Owned lba ∨ leaked lba)

/-- Space is accounted for up to some leak. -/
def Sound (L : Layout) (v : Vol) : Prop := ∃ leaked, v.Accounted L leaked

variable {L : Layout} {v : Vol} {leaked : ℕ → Prop}

theorem Accounted.sound (h : v.Accounted L leaked) : v.Sound L := ⟨leaked, h⟩

theorem Accounted.congr {v' : Vol} (h : v.Accounted L leaked)
    (hext : ∀ i < inodeCount, (v'.nodes i).extents = (v.nodes i).extents)
    (hused : ∀ lba, L.InPartition lba → v'.used lba = v.used lba) : v'.Accounted L leaked := by
  have howns : ∀ i < inodeCount, ∀ lba, (v'.nodes i).Owns lba ↔ (v.nodes i).Owns lba :=
    fun i hi lba => by rw [Node.Owns, Node.Owns, hext i hi]
  have howned : ∀ lba, v'.Owned lba ↔ v.Owned lba := fun lba =>
    exists_congr fun i => and_congr_right fun hi => howns i hi lba
  exact {
    inData := fun i hi lba ho => h.inData i hi lba ((howns i hi lba).mp ho)
    apart := fun i hi => by rw [hext i hi]; exact h.apart i hi
    separate := fun i hi j hj lba ho ho' =>
      h.separate i hi j hj lba ((howns i hi lba).mp ho) ((howns j hj lba).mp ho')
    leaked_inData := h.leaked_inData
    leaked_free := fun lba hl ho => h.leaked_free lba hl ((howned lba).mp ho)
    used_iff := fun lba hp => by rw [hused lba hp, h.used_iff lba hp, howned] }

variable {node : Node}

theorem Accounted.setNode_of_extents (h : v.Accounted L leaked)
    (hext : node.extents = (v.nodes i).extents) : (v.setNode i node).Accounted L leaked :=
  h.congr (fun j _ => by
    rcases eq_or_ne j i with rfl | hj
    · rw [setNode_nodes_self, hext]
    · rw [setNode_nodes_of_ne _ hj]) fun _ _ => rfl

/-- The sectors of a node that loses its extents are leaked until they are released. -/
theorem Accounted.setNode_of_nil (h : v.Accounted L leaked)
    (hi : i < inodeCount) (hext : node.extents = []) :
    (v.setNode i node).Accounted L fun lba => leaked lba ∨ (v.nodes i).Owns lba := by
  have hnil : ∀ lba, ¬ node.Owns lba := by simp [Node.Owns, hext]
  have howns : ∀ j lba, ((v.setNode i node).nodes j).Owns lba ↔ j ≠ i ∧ (v.nodes j).Owns lba := by
    intro j lba
    rcases eq_or_ne j i with rfl | hj
    · simp [hnil]
    · simp [setNode_nodes_of_ne _ hj, hj]
  have howned : ∀ lba, v.Owned lba ↔ (v.setNode i node).Owned lba ∨ (v.nodes i).Owns lba := by
    intro lba
    simp only [Owned, howns]
    constructor
    · rintro ⟨j, hj, ho⟩
      rcases eq_or_ne j i with rfl | hne
      · exact Or.inr ho
      · exact Or.inl ⟨j, hj, hne, ho⟩
    · rintro (⟨j, hj, -, ho⟩ | ho)
      · exact ⟨j, hj, ho⟩
      · exact ⟨i, hi, ho⟩
  exact {
    inData := fun j hj lba ho => h.inData j hj lba ((howns j lba).mp ho).2
    apart := fun j hj => by
      rcases eq_or_ne j i with rfl | hne
      · rw [setNode_nodes_self, hext]; exact List.Pairwise.nil
      · rw [setNode_nodes_of_ne _ hne]; exact h.apart j hj
    separate := fun j hj k hk lba ho ho' =>
      h.separate j hj k hk lba ((howns j lba).mp ho).2 ((howns k lba).mp ho').2
    leaked_inData := fun lba hl => hl.elim (h.leaked_inData lba) (h.inData i hi lba)
    leaked_free := by
      rintro lba (hl | hl) ⟨j, hj, ho⟩
      · exact h.leaked_free lba hl ⟨j, hj, ((howns j lba).mp ho).2⟩
      · exact ((howns j lba).mp ho).1 (h.separate j hj i hi lba ((howns j lba).mp ho).2 hl)
    used_iff := fun lba hp => by
      rw [setNode_used, h.used_iff lba hp, howned, or_assoc, or_comm (a := (v.nodes i).Owns lba)] }

theorem Accounted.release {a b : ℕ} (h : v.Accounted L leaked)
    (hleaked : ∀ lba, a ≤ lba → lba < b → leaked lba) :
    (v.mark a b false).Accounted L fun lba => leaked lba ∧ ¬ (a ≤ lba ∧ lba < b) := by
  exact {
    inData := h.inData
    apart := h.apart
    separate := h.separate
    leaked_inData := fun lba hl => h.leaked_inData lba hl.1
    leaked_free := fun lba hl => h.leaked_free lba hl.1
    used_iff := fun lba hp => by
      change _ ↔ _ ∨ v.Owned lba ∨ _
      rw [mark_used]
      split
      · rename_i hab
        have hl := hleaked lba hab.1 hab.2
        have hd := (h.leaked_inData lba hl).1
        have hf := h.leaked_free lba hl
        simp [hab, hf]
        omega
      · rename_i hab
        rw [h.used_iff lba hp]
        simp [hab] }

/-- Reserving a free run for a node. -/
theorem Accounted.reserve {a b : ℕ} (h : v.Accounted L leaked) (hi : i < inodeCount)
    (hfree : ∀ lba, a ≤ lba → lba < b → L.InData lba ∧ v.used lba = false)
    (howns : ∀ lba, node.Owns lba ↔ (v.nodes i).Owns lba ∨ (a ≤ lba ∧ lba < b))
    (hapart : node.extents.Pairwise Extent.Apart) :
    ((v.mark a b true).setNode i node).Accounted L leaked := by
  have hfree' : ∀ lba, a ≤ lba → lba < b → ¬ v.Owned lba ∧ ¬ leaked lba := by
    intro lba ha hb
    obtain ⟨hd, hu⟩ := hfree lba ha hb
    have hiff := h.used_iff lba hd.inPartition
    rw [hu] at hiff
    simp only [Bool.false_eq_true, false_iff, not_or] at hiff
    exact hiff.2
  have howns' : ∀ j lba, (((v.mark a b true).setNode i node).nodes j).Owns lba ↔
      (v.nodes j).Owns lba ∨ (j = i ∧ a ≤ lba ∧ lba < b) := by
    intro j lba
    rcases eq_or_ne j i with rfl | hj
    · rw [setNode_nodes_self, howns]; simp
    · rw [setNode_nodes_of_ne _ hj]; simp [hj]
  have howned : ∀ lba, ((v.mark a b true).setNode i node).Owned lba ↔
      v.Owned lba ∨ (a ≤ lba ∧ lba < b) := by
    intro lba
    simp only [Owned, howns']
    constructor
    · rintro ⟨j, hj, ho | ⟨-, hab⟩⟩
      · exact Or.inl ⟨j, hj, ho⟩
      · exact Or.inr hab
    · rintro (⟨j, hj, ho⟩ | hab)
      · exact ⟨j, hj, Or.inl ho⟩
      · exact ⟨i, hi, Or.inr ⟨rfl, hab⟩⟩
  exact {
    inData := fun j hj lba ho => by
      rcases (howns' j lba).mp ho with ho | ⟨-, ha, hb⟩
      · exact h.inData j hj lba ho
      · exact (hfree lba ha hb).1
    apart := fun j hj => by
      rcases eq_or_ne j i with rfl | hne
      · rw [setNode_nodes_self]; exact hapart
      · rw [setNode_nodes_of_ne _ hne]; exact h.apart j hj
    separate := fun j hj k hk lba ho ho' => by
      rcases (howns' j lba).mp ho with hj' | ⟨hj', ha, hb⟩
      · rcases (howns' k lba).mp ho' with hk' | ⟨-, ha, hb⟩
        · exact h.separate j hj k hk lba hj' hk'
        · exact absurd ⟨j, hj, hj'⟩ (hfree' lba ha hb).1
      · rcases (howns' k lba).mp ho' with hk' | ⟨hk', -, -⟩
        · exact absurd ⟨k, hk, hk'⟩ (hfree' lba ha hb).1
        · rw [hj', hk']
    leaked_inData := h.leaked_inData
    leaked_free := fun lba hl ho => by
      rcases (howned lba).mp ho with ho | ⟨ha, hb⟩
      · exact h.leaked_free lba hl ho
      · exact (hfree' lba ha hb).2 hl
    used_iff := fun lba hp => by
      rw [setNode_used, mark_used, howned]
      split
      · rename_i hab
        simp [hab]
      · rename_i hab
        rw [h.used_iff lba hp]
        simp [hab] }

end Vol

end ImagineOS.Dfs
