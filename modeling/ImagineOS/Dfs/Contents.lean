import ImagineOS.Dfs.Marking
import Mathlib.Order.Interval.Finset.Nat

/-!
# DFS: the contents of a file

The extents of a file follow one another: each begins where the ones before it end. A file laid out
like this has its logical sector `l` at a place that can be found by counting (`locate`), and the
two lookups of the source find the same place, as long as no sum of 32-bit numbers wraps.
-/

namespace ImagineOS.Dfs

open List Nat

/-! ### Extents that follow one another -/

/-- The address of logical sector `l`, counting along the extents. -/
def locate : List Extent → ℕ → Option ℕ
  | [], _ => none
  | e :: extents, l =>
    if l < e.sectorCount then some (e.startLba + l) else locate extents (l - e.sectorCount)

/-- The number of sectors of the extents. -/
def allocated (extents : List Extent) : ℕ := (extents.map (·.sectorCount)).sum

/-- Each extent begins where the ones before it end, the first at logical sector `n`. -/
def Chain : ℕ → List Extent → Prop
  | _, [] => True
  | n, e :: extents => e.logicalStart = n ∧ Chain (n + e.sectorCount) extents

@[simp] theorem allocated_nil : allocated [] = 0 := rfl

@[simp] theorem allocated_cons (e : Extent) (extents : List Extent) :
    allocated (e :: extents) = e.sectorCount + allocated extents := by
  simp [allocated]

@[simp] theorem allocated_append (xs ys : List Extent) :
    allocated (xs ++ ys) = allocated xs + allocated ys := by
  simp [allocated]

variable {n : ℕ} {xs : List Extent}

theorem chain_append {ys : List Extent} :
    Chain n (xs ++ ys) ↔ Chain n xs ∧ Chain (n + allocated xs) ys := by
  induction xs generalizing n with
  | nil => simp [Chain]
  | cons e xs ih => simp [Chain, ih, and_assoc, add_assoc]

variable {l : ℕ}

theorem locate_append {ys : List Extent} :
    locate (xs ++ ys) l =
      if l < allocated xs then locate xs l else locate ys (l - allocated xs) := by
  induction xs generalizing l with
  | nil => simp
  | cons e xs ih =>
    simp only [cons_append, locate, allocated_cons, ih]
    by_cases h : l < e.sectorCount
    · rw [if_pos h, if_pos (by omega), if_pos h]
    · rw [if_neg h, if_neg h]
      by_cases h' : l - e.sectorCount < allocated xs
      · rw [if_pos h', if_pos (by omega)]
      · rw [if_neg h', if_neg (by omega), sub_add_eq]

variable {extents : List Extent}

theorem locate_isSome :
    (locate extents l).isSome ↔ l < allocated extents := by
  induction extents generalizing l with
  | nil => simp [locate]
  | cons e extents ih =>
    rw [locate, allocated_cons]
    by_cases h : l < e.sectorCount
    · simp only [if_pos h, Option.isSome_some, true_iff]
      omega
    · rw [if_neg h, ih]
      omega

variable {p : ℕ}

theorem covers_of_locate (h : locate extents l = some p) :
    ∃ e ∈ extents, e.Covers p := by
  induction extents generalizing l with
  | nil => cases h
  | cons e extents ih =>
    rw [locate] at h
    split at h
    · obtain rfl := Option.some.inj h
      exact ⟨e, by simp, by simp [Extent.Covers]; omega⟩
    · obtain ⟨f, hf, hc⟩ := ih h
      exact ⟨f, mem_cons_of_mem _ hf, hc⟩

theorem locate_inj (hapart : extents.Pairwise Extent.Apart) {l' : ℕ}
    (h : locate extents l = some p) (h' : locate extents l' = some p) : l = l' := by
  induction extents generalizing l l' with
  | nil => cases h
  | cons e extents ih =>
    rw [pairwise_cons] at hapart
    have hcross : ∀ l l', l < e.sectorCount → e.startLba + l = p →
        locate extents l' ≠ some p := by
      intro l l' hl hp hl'
      obtain ⟨f, hf, hc⟩ := covers_of_locate hl'
      exact hapart.1 f hf p ⟨⟨by omega, by omega⟩, hc⟩
    rw [locate] at h h'
    split at h
    · split at h'
      · have h₁ := Option.some.inj h
        have h₂ := Option.some.inj h'
        omega
      · exact absurd h' (hcross _ _ ‹_› (Option.some.inj h))
    · split at h'
      · exact absurd h (hcross _ _ ‹_› (Option.some.inj h'))
      · have := ih hapart.2 h h'
        omega

theorem find_chain (h : Chain n extents) (hl : n ≤ l) :
    (extents.find? fun e => e.logicalStart ≤ l ∧ l < e.logicalStart + e.sectorCount).map
      (fun e => e.startLba + (l - e.logicalStart)) = locate extents (l - n) := by
  induction extents generalizing n with
  | nil => rfl
  | cons e extents ih =>
    obtain ⟨rfl, h⟩ := h
    rw [List.find?_cons, locate]
    by_cases hlt : l < e.logicalStart + e.sectorCount
    · rw [decide_eq_true ⟨hl, hlt⟩, if_pos (by omega)]
      rfl
    · rw [decide_eq_false fun hc => hlt hc.2, if_neg (by omega)]
      simp only
      rw [ih h (by omega), sub_add_eq]

variable {e : Extent}

theorem chain_end_le (h : Chain n extents)
    (he : e ∈ extents) : e.logicalStart + e.sectorCount ≤ n + allocated extents := by
  induction extents generalizing n with
  | nil => simp at he
  | cons f extents ih =>
    obtain ⟨rfl, h⟩ := h
    rw [allocated_cons]
    rcases mem_cons.mp he with rfl | he
    · omega
    · have := ih h he
      omega

/-- Disjoint extents in an interval are not longer than it. -/
theorem allocated_le {a b : ℕ} (hapart : extents.Pairwise Extent.Apart)
    (hin : ∀ e ∈ extents, ∀ lba, e.Covers lba → a ≤ lba ∧ lba < b) :
    allocated extents ≤ b - a := by
  have hcard : ∃ s : Finset ℕ, s.card = allocated extents ∧
      ∀ lba, lba ∈ s ↔ ∃ e ∈ extents, e.Covers lba := by
    induction extents with
    | nil => exact ⟨∅, rfl, by simp⟩
    | cons e extents ih =>
      rw [pairwise_cons] at hapart
      obtain ⟨s, hs, hmem⟩ := ih hapart.2 fun f hf => hin f (mem_cons_of_mem _ hf)
      refine ⟨Finset.Ico e.startLba (e.startLba + e.sectorCount) ∪ s, ?_, fun lba => ?_⟩
      · rw [Finset.card_union_of_disjoint, Nat.card_Ico, hs, allocated_cons,
          Nat.add_sub_cancel_left]
        rw [Finset.disjoint_left]
        intro lba hlba hlba'
        obtain ⟨f, hf, hc⟩ := (hmem lba).mp hlba'
        exact hapart.1 f hf lba ⟨Finset.mem_Ico.mp hlba, hc⟩
      · rw [Finset.mem_union, Finset.mem_Ico, hmem, exists_mem_cons_iff, Extent.Covers]
  obtain ⟨s, hs, hmem⟩ := hcard
  rw [← hs, ← Nat.card_Ico]
  refine Finset.card_le_card fun lba hlba => ?_
  obtain ⟨e, he, hc⟩ := (hmem lba).mp hlba
  exact Finset.mem_Ico.mpr (hin e he lba hc)

/-! ### Files laid out in order -/

/-- The extents of a node follow one another, and no sum of them wraps. -/
structure Node.Laid (node : Node) : Prop where
  chain : Chain 0 node.extents
  allocated_lt : allocated node.extents < 2 ^ 32

section Lookup

variable {node : Node} {l : ℕ}

theorem Node.Laid.end_lt (h : node.Laid) (he : e ∈ node.extents) :
    e.logicalStart + e.sectorCount < 2 ^ 32 := by
  have := chain_end_le h.chain he
  have := h.allocated_lt
  omega

private theorem find_congr {p q : Extent → Bool} (h : ∀ e ∈ xs, p e = q e) :
    xs.find? p = xs.find? q := by
  induction xs with
  | nil => rfl
  | cons e xs ih =>
    rw [List.find?_cons, List.find?_cons, h e (by simp), ih fun f hf => h f (mem_cons_of_mem _ hf)]

private theorem physical_eq (h : e.startLba + e.sectorCount < 2 ^ 64)
    (hl : l < e.logicalStart + e.sectorCount) :
    e.physical l = e.startLba + (l - e.logicalStart) := mod_eq_of_lt (by omega)

/-- The lookup of `read_file` finds the sector. -/
theorem readExtent_eq (h : node.Laid)
    (hend : ∀ e ∈ node.extents, e.startLba + e.sectorCount < 2 ^ 64) :
    readExtent node l = locate node.extents l := by
  rw [← Nat.sub_zero l, ← find_chain h.chain (Nat.zero_le _), readExtent, Nat.sub_zero]
  have hfind : (node.extents.find? fun e => e.logicalStart ≤ l ∧
      l < (e.logicalStart + e.sectorCount) % 2 ^ 32) = node.extents.find? fun e =>
        e.logicalStart ≤ l ∧ l < e.logicalStart + e.sectorCount :=
    find_congr fun e he => by rw [Nat.mod_eq_of_lt (h.end_lt he)]
  rw [hfind]
  refine Option.map_congr fun e he => ?_
  have hp := List.find?_some he
  simp only [decide_eq_true_eq] at hp
  exact physical_eq (hend e (mem_of_find?_eq_some he)) hp.2

/-- The lookup of `write_file` finds the same sector. -/
theorem extentFor_eq (h : node.Laid)
    (hend : ∀ e ∈ node.extents, e.startLba + e.sectorCount < 2 ^ 64) :
    extentFor node l = locate node.extents l := by
  rw [← Nat.sub_zero l, ← find_chain h.chain (Nat.zero_le _), extentFor, Nat.sub_zero]
  have hfind : (node.extents.find? fun e => e.logicalStart + e.sectorCount < 2 ^ 32 ∧
      e.logicalStart ≤ l ∧ l < e.logicalStart + e.sectorCount) = node.extents.find? fun e =>
        e.logicalStart ≤ l ∧ l < e.logicalStart + e.sectorCount :=
    find_congr fun e he => by
      have := h.end_lt he
      rw [decide_eq_decide]
      omega
  rw [hfind]
  refine Option.map_congr fun e he => ?_
  have hp := List.find?_some he
  simp only [decide_eq_true_eq] at hp
  exact physical_eq (hend e (mem_of_find?_eq_some he)) hp.2

/-- Whatever `extent_for` finds belongs to the node. -/
theorem owns_of_extentFor (hend : ∀ e ∈ node.extents, e.startLba + e.sectorCount < 2 ^ 64)
    (h : extentFor node l = some p) : node.Owns p := by
  obtain ⟨e, he, rfl⟩ := Option.map_eq_some_iff.mp h
  have hmem := mem_of_find?_eq_some he
  have hp := List.find?_some he
  simp only [decide_eq_true_eq] at hp
  refine ⟨e, hmem, ?_⟩
  rw [physical_eq (hend e hmem) hp.2.2]
  simp only [Extent.Covers]
  omega

end Lookup

variable {node node' : Node}

theorem allocated_addExtent {start logical count : ℕ} (hcount : count < 2 ^ 32)
    (hadd : addExtent node start logical count = .ok node') :
    allocated node'.extents = allocated node.extents + count := by
  rcases addExtent_eq_ok hadd with ⟨_, rfl⟩ | ⟨init, last, hsplit, -, -, hc, _, rfl⟩
  · rw [allocated_append, allocated_cons, allocated_nil, add_zero]
    show _ + count % 2 ^ 32 = _
    rw [mod_eq_of_lt hcount]
  · rw [hsplit]
    simp only [allocated_append, allocated_cons, allocated_nil]
    omega

/-- **A file that grows** keeps its sectors, and the run follows them. -/
theorem addExtent_laid {start count : ℕ} (h : node.Laid)
    (hadd : addExtent node start (allocated node.extents % 2 ^ 32) count = .ok node') :
    Chain 0 node'.extents ∧
      ∀ l < allocated node.extents, locate node'.extents l = locate node.extents l := by
  have hlt := h.allocated_lt
  rw [mod_eq_of_lt hlt] at hadd
  rcases addExtent_eq_ok hadd with ⟨_, rfl⟩ | ⟨init, last, hsplit, -, -, hc, _, rfl⟩
  · refine ⟨chain_append.mpr ⟨h.chain, ?_, trivial⟩, fun l hl => ?_⟩
    · rw [zero_add]
      exact mod_eq_of_lt hlt
    · rw [locate_append, if_pos hl]
  · have hchain := h.chain
    rw [hsplit, chain_append] at hchain
    refine ⟨chain_append.mpr ⟨hchain.1, hchain.2.1, trivial⟩, fun l hl => ?_⟩
    rw [hsplit] at hl ⊢
    simp only [allocated_append, allocated_cons, allocated_nil] at hl
    rw [locate_append, locate_append]
    split
    · rfl
    · simp only [locate]
      rw [if_pos (by omega), if_pos (by omega)]

/-! ### Bytes -/

/-- Byte `pos` of a file. -/
def Vol.byteAt (v : Vol) (node : Node) (pos : ℕ) : UInt8 :=
  match locate node.extents (pos / sectorSize) with
  | some p => (v.data p).byte (pos % sectorSize)
  | none => 0

/-- The contents of a file. -/
def Vol.content (v : Vol) (node : Node) : List UInt8 :=
  (List.range node.size).map (v.byteAt node)

/-- A file whose size fits its extents. -/
structure Node.Sized (node : Node) : Prop extends node.Laid where
  size_le : node.size ≤ allocated node.extents * sectorSize

/-- `bytes` written at `offset`. -/
def splice (content : List UInt8) (offset : ℕ) (bytes : List UInt8) : List UInt8 :=
  content.take offset ++ bytes ++ content.drop (offset + bytes.length)

@[simp] theorem Vol.length_content (v : Vol) (node : Node) :
    (v.content node).length = node.size := by
  simp [Vol.content]

theorem Vol.content_congr {v v' : Vol} (hsize : node'.size = node.size)
    (h : ∀ pos < node.size, v'.byteAt node' pos = v.byteAt node pos) :
    v'.content node' = v.content node := by
  rw [Vol.content, Vol.content, hsize]
  exact map_congr_left fun pos hpos => h pos (mem_range.mp hpos)

/-- **A file byte by byte after a write.** -/
theorem Vol.content_splice {v v' : Vol} {offset : ℕ} {bytes : List UInt8}
    (hoffset : offset ≤ node.size) (hsize : node'.size = max node.size (offset + bytes.length))
    (hin : ∀ i (hi : i < bytes.length), v'.byteAt node' (offset + i) = bytes[i])
    (hout : ∀ pos < node.size, pos < offset ∨ offset + bytes.length ≤ pos →
      v'.byteAt node' pos = v.byteAt node pos) :
    v'.content node' = splice (v.content node) offset bytes := by
  refine ext_getElem ?_ fun i h₁ h₂ => ?_
  · simp only [Vol.length_content, hsize, splice, length_append, length_take, length_drop]
    omega
  · simp only [Vol.length_content, hsize] at h₁
    simp only [Vol.content, splice, getElem_map, getElem_range, getElem_append,
      length_append, length_take, length_map, length_range, getElem_take, getElem_drop]
    split
    · rename_i h
      split
      · rename_i h'
        exact hout i (by omega) (Or.inl (by omega))
      · rename_i h'
        have := hin (i - offset) (by omega)
        rw [show offset + (i - offset) = i by omega] at this
        rw [this]
        congr 1
        omega
    · rename_i h
      rw [hout i (by omega) (Or.inr (by omega))]
      congr 1
      omega

end ImagineOS.Dfs
