import ImagineOS.Dfs.Contents
import Mathlib.Data.List.GetD

/-!
# DFS: writing and truncating files

`writeFile` first allocates the sectors it needs, run by run, then writes the data, and stores the
new size last. What it leaves is described by `Wrote`: the other nodes keep their records and their
sectors, and the node itself keeps its contents when the write fails and has the input spliced into
them when it succeeds. The statement about contents needs the sectors of the file to be numbered by
32-bit integers, which is the condition `Numbered`.
-/

namespace ImagineOS.Dfs

open BlockProgram Fallible List Vol

/-! ### Allocating -/

/-- The sectors of a file of `required` sectors can be numbered by 32-bit integers, either because
there are few enough of them or because the volume is small. -/
def Numbered (L : Layout) (required : ℕ) : Prop := required < 2 ^ 32 ∨ L.sectors < 2 ^ 32

/-- The mode and the owner of a node. -/
def Node.attributes (node : Node) : UInt16 × UInt32 × UInt32 := (node.mode, node.uid, node.gid)

/-- Node `i` has grown from `v` to `v'`. -/
structure Grown (L : Layout) (required : ℕ) (v v' : Vol) (i : ℕ) : Prop where
  others : ∀ j, j ≠ i → v'.nodes j = v.nodes j
  data : v'.data = v.data
  path : (v'.nodes i).path = (v.nodes i).path
  kind : (v'.nodes i).kind = (v.nodes i).kind
  size : (v'.nodes i).size = (v.nodes i).size
  /-- The sectors the file had are where they were. -/
  laid : Numbered L required → (v.nodes i).Laid → (v'.nodes i).Laid ∧
    allocated (v.nodes i).extents ≤ allocated (v'.nodes i).extents ∧
    ∀ l < allocated (v.nodes i).extents,
      locate (v'.nodes i).extents l = locate (v.nodes i).extents l

theorem Grown.refl (L : Layout) (required : ℕ) (v : Vol) (i : ℕ) : Grown L required v v i where
  others _ _ := rfl
  data := rfl
  path := rfl
  kind := rfl
  size := rfl
  laid _ h := ⟨h, le_rfl, fun _ _ => rfl⟩

variable {required : ℕ} {v' : Vol}

theorem Grown.trans {L : Layout} {i : ℕ} {v v'' : Vol} (h : Grown L required v v' i)
    (h' : Grown L required v' v'' i) : Grown L required v v'' i where
  others j hj := (h'.others j hj).trans (h.others j hj)
  data := h'.data.trans h.data
  path := h'.path.trans h.path
  kind := h'.kind.trans h.kind
  size := h'.size.trans h.size
  laid hnum hlaid := by
    obtain ⟨h₁, hle, hloc⟩ := h.laid hnum hlaid
    obtain ⟨h₂, hle', hloc'⟩ := h'.laid hnum h₁
    exact ⟨h₂, hle.trans hle', fun l hl => (hloc' l (hl.trans_le hle)).trans (hloc l hl)⟩

section Extents

variable {L : Layout} {leaked : ℕ → Prop} {v : Vol} {i : ℕ}

theorem Vol.Accounted.end_le (hacc : v.Accounted L leaked) (hi : i < inodeCount) {e : Extent}
    (he : e ∈ (v.nodes i).extents) (hne : e.sectorCount ≠ 0) :
    e.startLba + e.sectorCount ≤ L.endLba := by
  have hin := hacc.inData i hi (e.startLba + e.sectorCount - 1)
    ⟨e, he, by omega, by omega⟩
  have := hin.2
  omega

theorem Vol.Accounted.end_lt (hacc : v.Accounted L leaked) (hi : i < inodeCount)
    (hdec : (v.nodes i).Decoded) {e : Extent} (he : e ∈ (v.nodes i).extents) :
    e.startLba + e.sectorCount < 2 ^ 64 := by
  obtain ⟨-, -, -, -, -, -, -, hend⟩ := L.offsets
  exact (hacc.end_le hi he (hdec.sectorCount_ne_zero he)).trans_lt hend

theorem Vol.Accounted.allocated_lt (hacc : v.Accounted L leaked) (hi : i < inodeCount) :
    allocated (v.nodes i).extents < L.sectors := by
  obtain ⟨-, -, -, -, hdl, he, hde, -⟩ := L.offsets
  have hle := allocated_le (a := L.dataLba) (b := L.endLba) (hacc.apart i hi)
    fun e he lba hc => hacc.inData i hi lba ⟨e, he, hc⟩
  omega

end Extents

section Allocate

variable {L : Layout} {leaked : ℕ → Prop}

/-- One round of the allocation: the run found is given to the file. -/
theorem grown_reserve {v : Vol} {i : ℕ} {run : FreeRun} {node' : Node}
    (hacc : v.Accounted L leaked) (hdec : (v.nodes i).Decoded) (hi : i < inodeCount)
    (hkind : (v.nodes i).kind = nodeFile) (hlt : allocated (v.nodes i).extents < required)
    (hrun : run.Fits L v (required - allocated (v.nodes i).extents))
    (hadd : addExtent (v.nodes i) run.start (allocated (v.nodes i).extents % 2 ^ 32)
      (run.length % 2 ^ 32) = .ok node') :
    node'.Valid ∧ node'.stored = node' ∧
      ((v.mark run.start (run.start + run.length) true).setNode i node').Accounted L leaked ∧
      Grown L required v ((v.mark run.start (run.start + run.length) true).setNode i node') i ∧
      allocated node'.extents = allocated (v.nodes i).extents + run.length := by
  obtain ⟨-, -, -, -, -, -, -, hend64⟩ := L.offsets
  have hlen : run.length < 2 ^ 32 := hrun.length_lt
  have hend : run.start + run.length < 2 ^ 64 := hrun.le_endLba.trans_lt hend64
  have hends : ∀ e ∈ (v.nodes i).extents, e.startLba + e.sectorCount < 2 ^ 64 :=
    fun e he => hacc.end_lt hi hdec he
  obtain ⟨hpath', hkind', hsize', -⟩ := addExtent_attributes hadd
  rw [Nat.mod_eq_of_lt hlen] at hadd
  have hfree : ∀ lba, run.start ≤ lba → lba < run.start + run.length →
      L.InData lba ∧ v.used lba = false := fun lba h₁ h₂ =>
    ⟨hrun.inData h₁ h₂, hrun.free lba h₁ h₂⟩
  have hnotowned : ∀ lba, run.start ≤ lba → lba < run.start + run.length →
      ¬ (v.nodes i).Owns lba := fun lba h₁ h₂ ho => by
    obtain ⟨hd, hu⟩ := hfree lba h₁ h₂
    have := (hacc.used_iff lba hd.inPartition).mpr (Or.inr (Or.inl ⟨i, hi, ho⟩))
    rw [hu] at this
    cases this
  have hacc' := hacc.reserve hi hfree (owns_addExtent hadd hend hlen hends)
    (pairwise_apart_addExtent hadd hend hlen hends hnotowned (hacc.apart i hi))
  have halloc := allocated_addExtent hlen hadd
  have hvalid : node'.Valid := Or.inr (Or.inl ⟨hkind'.trans hkind,
    sectorCount_addExtent hadd hlen run.pos fun e he => hdec.sectorCount_ne_zero he⟩)
  have hstored : node'.stored = node' := Node.stored_eq_self
    (by rw [hkind', hkind]; decide) (by rw [hpath']; exact hdec.zero_not_mem)
  refine ⟨hvalid, hstored, hacc', ?_, halloc⟩
  exact {
    others := fun j hj => setNode_nodes_of_ne _ hj
    data := rfl
    path := by rw [setNode_nodes_self]; exact hpath'
    kind := by rw [setNode_nodes_self]; exact hkind'
    size := by rw [setNode_nodes_self]; exact hsize'
    laid := fun hnum hlaid => by
      obtain ⟨hchain, hloc⟩ := addExtent_laid hlaid hadd
      have hsmall := hacc'.allocated_lt hi
      rw [setNode_nodes_self] at hsmall ⊢
      refine ⟨⟨hchain, ?_⟩, by omega, hloc⟩
      rcases hnum with hnum | hnum
      · have := hrun.le_requested
        omega
      · omega }

/-- **Allocating.** -/
theorem wp_allocate {d : ℕ → Sector} {v : Vol} (hd : Represents L d v)
    (hacc : v.Accounted L leaked) {i : ℕ} (hi : i < inodeCount)
    (hkind : (v.nodes i).kind = nodeFile) {Q : Except DfsError Node → (ℕ → Sector) → Prop}
    (hQ : ∀ r d' v', Represents L d' v' → v'.Accounted L leaked → Grown L required v v' i →
      (v'.nodes i).attributes = (v.nodes i).attributes →
      (∀ node, r = .ok node → node = v'.nodes i ∧ required ≤ allocated node.extents) → Q r d') :
    (allocate L i required (v.nodes i) (allocated (v.nodes i).extents)).Wp (contract L) Q d := by
  induction hn : required - allocated (v.nodes i).extents using Nat.strong_induction_on
    generalizing d v with
  | _ n ih =>
  subst hn
  rw [allocate]
  by_cases hlt : allocated (v.nodes i).extents < required
  · rw [dif_pos hlt]
    have hrefl : ∀ e, Q (.error e) d := fun e =>
      hQ _ d v hd hacc (.refl L required v i) rfl (by simp)
    refine wp_bind (wp_findFreeRun hd ?_)
    cases hfound : v.freeRun L (required - allocated (v.nodes i).extents) with
    | error e => exact hrefl e
    | ok run =>
      have hrun := fits_of_freeRun (by omega) hfound
      rw [thenWp_ok]
      refine wp_bind (wp_ofExcept.mpr ?_)
      cases hadd : addExtent (v.nodes i) run.start (allocated (v.nodes i).extents % 2 ^ 32)
          (run.length % 2 ^ 32) with
      | error e => exact hrefl e
      | ok node' =>
        have hpos := run.pos
        obtain ⟨hvalid, hstored, hacc', hgrown, halloc⟩ :=
          grown_reserve hacc (hd.decoded hi) hi hkind hlt hrun hadd
        rw [thenWp_ok]
        refine wp_bind (wp_reserveRun hd hrun hi (hd.ne_zero_of_file hkind) hvalid
          (by rw [hstored]; exact hacc'.sound)
          fun d' hd' => ?_)
        rw [hstored] at hd'
        have hself := setNode_nodes_self (v := v.mark run.start (run.start + run.length) true) i
          node'
        have hattr : (((v.mark run.start (run.start + run.length) true).setNode i node').nodes
            i).attributes = (v.nodes i).attributes := by
          obtain ⟨-, -, -, hmode, huid, hgid⟩ := addExtent_attributes hadd
          rw [hself, Node.attributes, Node.attributes, hmode, huid, hgid]
        have hnext := ih _ (by rw [hself]; omega) hd' hacc'
          (by rw [hgrown.kind]; exact hkind)
          (fun r d'' v'' h₁ h₂ h₃ h₄ h₅ => hQ r d'' v'' h₁ h₂ (hgrown.trans h₃) (h₄.trans hattr) h₅)
          rfl
        rw [hself, halloc] at hnext
        exact hnext
  · rw [dif_neg hlt]
    exact hQ _ d v hd hacc (.refl L required v i) rfl (by rintro _ ⟨⟩; exact ⟨rfl, by omega⟩)

end Allocate

/-! ### Writing data -/

section Data

variable {L : Layout}

variable {physical : ℕ}

/-- The bytes of the sector `write_file` writes. -/
theorem wp_mergedSector {d : ℕ → Sector} {within : ℕ} {bytes : List UInt8}
    (hlen : within + bytes.length ≤ sectorSize) {Q : Except DfsError Sector → (ℕ → Sector) → Prop}
    (hQ : ∀ s, (∀ k < sectorSize, s.byte k = if within ≤ k ∧ k < within + bytes.length
      then bytes.getD (k - within) 0 else (d physical).byte k) → Q (.ok s) d) :
    (mergedSector physical within bytes).Wp (contract L) Q d := by
  have hss : sectorSize = 512 := rfl
  have hput : ∀ (s : Sector) k, k < sectorSize → (s.put within bytes).byte k =
      if within ≤ k ∧ k < within + bytes.length then bytes.getD (k - within) 0 else s.byte k := by
    intro s k hk
    split
    · rename_i h
      have := s.byte_put_of_mem (show within + bytes.length ≤ 512 from hlen)
        (show k - within < bytes.length by omega)
      rw [show within + (k - within) = k by omega] at this
      rw [this, getD_eq_getElem _ _ (by omega)]
    · exact s.byte_put_of_not_mem (by omega)
  rw [mergedSector]
  split
  · rename_i hfull
    refine wp_pure.mpr (hQ _ fun k hk => ?_)
    obtain ⟨rfl, hfull⟩ := hfull
    rw [hput zeroSector k hk, if_pos (by omega), if_pos (by omega)]
  · exact wp_bind (wp_readSector.mpr (wp_pure.mpr (hQ _ (hput _))))

variable {node : Node}

/-- Byte `pos` of a file after one of its sectors is replaced. -/
theorem byteAt_setData {v : Vol} {s : Sector} {l pos : ℕ}
    (hapart : node.extents.Pairwise Extent.Apart) (hl : locate node.extents l = some physical)
    (hpos : pos / sectorSize < allocated node.extents) :
    (v.setData physical s).byteAt node pos =
      if pos / sectorSize = l then s.byte (pos % sectorSize) else v.byteAt node pos := by
  obtain ⟨p, hp⟩ := Option.isSome_iff_exists.mp (locate_isSome.mpr hpos)
  rw [Vol.byteAt, Vol.byteAt, hp]
  simp only [Vol.setData]
  split
  · rename_i h
    rw [h, hl] at hp
    rw [Option.some.inj hp, Function.update_self]
  · rename_i h
    have hne : p ≠ physical := fun he => h (locate_inj hapart hp (he ▸ hl))
    rw [Function.update_of_ne hne]

/-- A chunk that stays within the sector of its position is what the sector's update adds to the
file. -/
theorem byteAt_setData_chunk {v : Vol} {s : Sector} {position pos : ℕ}
    {bytes : List UInt8} (hapart : node.extents.Pairwise Extent.Apart)
    (hl : locate node.extents (position / sectorSize) = some physical)
    (hpos : pos / sectorSize < allocated node.extents)
    (hwithin : position % sectorSize + bytes.length ≤ sectorSize) (hs : ∀ k < sectorSize, s.byte k =
      if position % sectorSize ≤ k ∧ k < position % sectorSize + bytes.length
      then bytes.getD (k - position % sectorSize) 0 else (v.data physical).byte k) :
    (v.setData physical s).byteAt node pos =
      if position ≤ pos ∧ pos < position + bytes.length then bytes.getD (pos - position) 0
      else v.byteAt node pos := by
  have hss : sectorSize = 512 := rfl
  have hposition := Nat.div_add_mod position sectorSize
  rw [byteAt_setData hapart hl hpos]
  by_cases hsame : pos / sectorSize = position / sectorSize
  · have hdiv := Nat.div_add_mod pos sectorSize
    rw [hsame] at hdiv
    have hold : v.byteAt node pos = (v.data physical).byte (pos % sectorSize) := by
      rw [Vol.byteAt, hsame, hl]
    have hindex : pos % sectorSize - position % sectorSize = pos - position := by omega
    rw [if_pos hsame, hs _ (Nat.mod_lt _ (by decide)), hold, hindex]
    exact if_congr (by omega) rfl rfl
  · have hout : ¬ (position ≤ pos ∧ pos < position + bytes.length) := by
      rintro ⟨h₁, h₂⟩
      refine hsame (le_antisymm ?_ (Nat.div_le_div_right h₁))
      -- A position before the end of the chunk is in the same sector.
      refine Nat.lt_succ_iff.mp (Nat.div_lt_of_lt_mul ?_)
      rw [Nat.mul_succ]
      omega
    rw [if_neg hsame, if_neg hout]

/-- A list placed at `position` is its first `c` bytes placed there and the others behind them. -/
theorem placed_take_drop (input : List UInt8) {c : ℕ} (hc : c ≤ input.length) (position pos : ℕ)
    (old : UInt8) :
    (if position + c ≤ pos ∧ pos < position + c + (input.drop c).length
      then (input.drop c).getD (pos - (position + c)) 0
      else if position ≤ pos ∧ pos < position + (input.take c).length
        then (input.take c).getD (pos - position) 0 else old) =
      if position ≤ pos ∧ pos < position + input.length then input.getD (pos - position) 0
      else old := by
  have hdrop : (input.drop c).length = input.length - c := length_drop
  have htake : (input.take c).length = c := length_take_of_le hc
  rw [hdrop, htake]
  by_cases h₁ : position + c ≤ pos ∧ pos < position + c + (input.length - c)
  · rw [if_pos h₁, if_pos (by omega), getD_eq_getElem _ _ (by rw [hdrop]; omega),
      getD_eq_getElem _ _ (by omega), getElem_drop]
    congr 1
    omega
  rw [if_neg h₁]
  by_cases h₂ : position ≤ pos ∧ pos < position + c
  · rw [if_pos h₂, if_pos (by omega), getD_eq_getElem _ _ (by rw [htake]; omega),
      getD_eq_getElem _ _ (by omega), getElem_take]
  · rw [if_neg h₂, if_neg (by omega)]

/-- **Writing the input**, sector by sector. -/
theorem wp_writeFrom {d : ℕ → Sector} {v : Vol} (hd : Represents L d v)
    (hend : ∀ e ∈ node.extents, e.startLba + e.sectorCount < 2 ^ 64)
    (hin : ∀ lba, node.Owns lba → L.InData lba) {position : ℕ} {input : List UInt8}
    {Q : Except DfsError Unit → (ℕ → Sector) → Prop}
    (hQ : ∀ r d' v', Represents L d' v' → v'.nodes = v.nodes → v'.used = v.used →
      (∀ lba, ¬ node.Owns lba → v'.data lba = v.data lba) →
      (node.Laid → node.extents.Pairwise Extent.Apart →
        position + input.length ≤ allocated node.extents * sectorSize →
        r = .ok () ∧ ∀ pos, pos / sectorSize < allocated node.extents → v'.byteAt node pos =
          if position ≤ pos ∧ pos < position + input.length then input.getD (pos - position) 0
          else v.byteAt node pos) → Q r d') :
    (writeFrom node position input).Wp (contract L) Q d := by
  induction hn : input.length using Nat.strong_induction_on generalizing d v position input with
  | _ n ih =>
  subst hn
  have hss : sectorSize = 512 := rfl
  rw [writeFrom]
  by_cases hlen : input.length = 0
  · rw [dif_pos hlen]
    refine wp_pure.mpr (hQ _ d v hd rfl rfl (fun _ _ => rfl) fun _ _ _ => ⟨rfl, fun pos _ => ?_⟩)
    rw [if_neg (by omega)]
  rw [dif_neg hlen]
  have hchunk := chunk_pos position hlen
  have hchunk_le : chunk position input.length ≤ sectorSize - position % sectorSize :=
    min_le_left ..
  have hchunk_le' : chunk position input.length ≤ input.length := min_le_right ..
  set c := chunk position input.length with hc
  have hlogical : ∀ hl : node.Laid, position + input.length ≤ allocated node.extents * sectorSize →
      logicalSector position = position / sectorSize ∧
        position / sectorSize < allocated node.extents := fun hl hcap => by
    have hlt : position / sectorSize < allocated node.extents :=
      Nat.div_lt_of_lt_mul (by rw [Nat.mul_comm]; omega)
    exact ⟨Nat.mod_eq_of_lt (hlt.trans hl.allocated_lt), hlt⟩
  cases hphys : extentFor node (logicalSector position) with
  | none =>
    refine wp_throw.mpr (hQ _ d v hd rfl rfl (fun _ _ => rfl) fun hlaid _ hcap => ?_)
    -- A file with room for the input has a sector there.
    obtain ⟨hlog, hlt⟩ := hlogical hlaid hcap
    rw [hlog, extentFor_eq hlaid hend] at hphys
    have := locate_isSome.mpr hlt
    rw [hphys] at this
    cases this
  | some physical =>
    have howns := owns_of_extentFor hend hphys
    have hdata := hin physical howns
    have hmod := Nat.mod_lt position (show 0 < sectorSize by decide)
    have htake : (input.take c).length = c := by rw [length_take]; omega
    have hdrop : (input.drop c).length = input.length - c := length_drop
    refine wp_bind (wp_mergedSector (by rw [htake]; omega) fun s hs => ?_)
    rw [thenWp_ok]
    refine wp_bind (wp_writeSector.mpr ⟨hdata, ?_⟩)
    rw [thenWp_ok]
    refine ih _ (by omega) (hd.setData s hdata) (fun r d' v' hrep hnodes hused hframe hbytes => ?_)
      hdrop.symm.symm
    refine hQ r d' v' hrep (hnodes.trans (setData_nodes _ _)) hused (fun lba hlba => ?_)
      fun hlaid hapart hcap => ?_
    · rw [hframe lba hlba]
      exact Function.update_of_ne (fun h => hlba (by rw [h]; exact howns)) _ _
    · obtain ⟨hlog, hlt⟩ := hlogical hlaid hcap
      have hloc : locate node.extents (position / sectorSize) = some physical := by
        rw [← hlog, ← extentFor_eq hlaid hend]
        exact hphys
      obtain ⟨hr, hbytes⟩ := hbytes hlaid hapart (by rw [hdrop]; omega)
      refine ⟨hr, fun pos hpos => ?_⟩
      rw [hbytes pos hpos, byteAt_setData_chunk hapart hloc hpos (by rw [htake]; omega) ?_,
        placed_take_drop input hchunk_le' position pos]
      intro k hk
      rw [hs k hk, hd.data physical hdata]

end Data

/-! ### Writing a file -/

section Write

variable {L : Layout} {leaked : ℕ → Prop}

/-- What writing `input` at `offset` of node `i` leaves. -/
structure Wrote (L : Layout) (v v' : Vol) (i offset : ℕ) (input : List UInt8)
    (r : Except DfsError ℕ) : Prop where
  others : ∀ j, j ≠ i → v'.nodes j = v.nodes j
  path : (v'.nodes i).path = (v.nodes i).path
  kind : (v'.nodes i).kind = (v.nodes i).kind
  /-- Sectors of other files are not written. -/
  frame : ∀ lba, ¬ (v'.nodes i).Owns lba → v'.data lba = v.data lba
  sized : Numbered L (sectorsFor (offset + input.length)) → (v.nodes i).Sized → (v'.nodes i).Sized
  failed : Numbered L (sectorsFor (offset + input.length)) → (v.nodes i).Sized → ∀ e, r = .error e →
    v'.content (v'.nodes i) = v.content (v.nodes i)
  succeeded : Numbered L (sectorsFor (offset + input.length)) → (v.nodes i).Sized →
    ∀ n, r = .ok n → offset ≤ (v.nodes i).size ∧ n = input.length ∧
      v'.content (v'.nodes i) = splice (v.content (v.nodes i)) offset input

theorem Wrote.refl (v : Vol) (i offset : ℕ) (input : List UInt8) (e : DfsError) :
    Wrote L v v i offset input (.error e) where
  others _ _ := rfl
  path := rfl
  kind := rfl
  frame _ _ := rfl
  sized _ h := h
  failed _ _ _ _ := rfl
  succeeded _ _ _ h := by cases h

variable {i : ℕ} {v : Vol}

theorem Grown.byteAt (h : Grown L required v v' i)
    (hnum : Numbered L required) (hsized : (v.nodes i).Sized) {pos : ℕ}
    (hpos : pos < (v.nodes i).size) :
    v'.byteAt (v'.nodes i) pos = v.byteAt (v.nodes i) pos := by
  have hlt : pos / sectorSize < allocated (v.nodes i).extents :=
    Nat.div_lt_of_lt_mul (by rw [Nat.mul_comm]; exact hpos.trans_le hsized.size_le)
  rw [Vol.byteAt, Vol.byteAt, (h.laid hnum hsized.toLaid).2.2 _ hlt, h.data]

theorem Grown.sized (h : Grown L required v v' i)
    (hnum : Numbered L required) (hsized : (v.nodes i).Sized) : (v'.nodes i).Sized where
  toLaid := (h.laid hnum hsized.toLaid).1
  size_le := by
    rw [h.size]
    exact hsized.size_le.trans (Nat.mul_le_mul_right _ (h.laid hnum hsized.toLaid).2.1)

theorem Grown.content (h : Grown L required v v' i)
    (hnum : Numbered L required) (hsized : (v.nodes i).Sized) :
    v'.content (v'.nodes i) = v.content (v.nodes i) :=
  content_congr h.size fun _ hpos => h.byteAt hnum hsized hpos

variable {input : List UInt8} {offset : ℕ}

theorem Grown.wrote {e : DfsError} (h : Grown L (sectorsFor (offset + input.length)) v v' i) :
    Wrote L v v' i offset input (.error e) where
  others := h.others
  path := h.path
  kind := h.kind
  frame lba _ := by rw [h.data]
  sized := h.sized
  failed hnum hsized _ _ := h.content hnum hsized
  succeeded _ _ _ h := by cases h

theorem Grown.trans_wrote {v₁ : Vol}
    {r : Except DfsError ℕ} (h : Grown L (sectorsFor (offset + input.length)) v v₁ i)
    (h' : Wrote L v₁ v' i offset input r) : Wrote L v v' i offset input r where
  others j hj := (h'.others j hj).trans (h.others j hj)
  path := h'.path.trans h.path
  kind := h'.kind.trans h.kind
  frame lba ho := (h'.frame lba ho).trans (by rw [h.data])
  sized hnum hsized := h'.sized hnum (h.sized hnum hsized)
  failed hnum hsized e he :=
    (h'.failed hnum (h.sized hnum hsized) e he).trans (h.content hnum hsized)
  succeeded hnum hsized n hn := by
    rw [← h.size, ← h.content hnum hsized]
    exact h'.succeeded hnum (h.sized hnum hsized) n hn

theorem le_sectorsFor (n : ℕ) : n ≤ sectorsFor n * sectorSize := by
  simp only [sectorsFor, sectorSize]
  omega

/-- **Writing**, once there are enough sectors. It cannot fail if they are laid out in order. -/
theorem wp_writeContents {d : ℕ → Sector} (hd : Represents L d v)
    (hacc : v.Accounted L leaked) (hi : i < inodeCount)
    (hkind : (v.nodes i).kind = nodeFile) (hoffset : offset ≤ (v.nodes i).size)
    (hend : offset + input.length < 2 ^ 64)
    (hcap : offset + input.length ≤ allocated (v.nodes i).extents * sectorSize)
    {Q : Except DfsError ℕ → (ℕ → Sector) → Prop}
    (hQ : ∀ r d' v', Represents L d' v' → v'.Accounted L leaked → Wrote L v v' i offset input r →
      (v'.nodes i).attributes = (v.nodes i).attributes → ((v.nodes i).Laid → ∃ n, r = .ok n) →
      Q r d') :
    (do
      writeFrom (v.nodes i) offset input
      flush
      storeNode L i { v.nodes i with
        size := max (v.nodes i).size (offset + input.length)
        size_lt := max_lt (v.nodes i).size_lt hend }
      pure input.length : DfsProgram Transaction ℕ).Wp (contract L) Q d := by
  have hdec := hd.decoded hi
  have hends : ∀ e ∈ (v.nodes i).extents, e.startLba + e.sectorCount < 2 ^ 64 :=
    fun e he => hacc.end_lt hi hdec he
  refine wp_bind (wp_writeFrom hd hends (hacc.inData i hi)
    fun r d₁ v₁ hd₁ hnodes hused hframe hbytes => ?_)
  have hacc₁ : v₁.Accounted L leaked :=
    hacc.congr (fun j _ => by rw [hnodes]) fun lba _ => by rw [hused]
  cases r with
  | error e =>
    refine hQ _ d₁ v₁ hd₁ hacc₁ ?_ (by rw [hnodes]) fun hlaid => ?_
    · exact {
        others := fun j hj => by rw [hnodes]
        path := by rw [hnodes]
        kind := by rw [hnodes]
        frame := fun lba ho => hframe lba (by rwa [hnodes] at ho)
        sized := fun hnum hsized => by rwa [hnodes]
        failed := fun hnum hsized e _ => by
          have h := (hbytes hsized.toLaid (hacc.apart i hi) hcap).1
          cases h
        succeeded := fun _ _ _ h => by cases h }
    · have h := (hbytes hlaid (hacc.apart i hi) hcap).1
      cases h
  | ok u =>
    rw [thenWp_ok]
    refine wp_bind (wp_flush.mpr ?_)
    rw [thenWp_ok]
    set node' : Node := { v.nodes i with
      size := max (v.nodes i).size (offset + input.length)
      size_lt := max_lt (v.nodes i).size_lt hend } with hnode'
    have hvalid : node'.Valid := Or.inr (Or.inl ⟨hkind, fun e he => hdec.sectorCount_ne_zero he⟩)
    have hstored : node'.stored = node' :=
      Node.stored_eq_self (show (v.nodes i).kind ≠ 0 by rw [hkind]; decide) hdec.zero_not_mem
    have hacc₂ : (v₁.setNode i node').Accounted L leaked :=
      hacc₁.setNode_of_extents (by rw [hnodes])
    refine wp_bind (wp_storeNode hd₁ hi (hd.ne_zero_of_file hkind) hvalid
      (by rw [hstored]; exact hacc₂.sound) fun d₂ hd₂ => ?_)
    rw [hstored] at hd₂
    refine hQ _ d₂ _ hd₂ hacc₂ ?_ (by rw [setNode_nodes_self]; rfl) fun _ => ⟨_, rfl⟩
    exact {
      others := fun j hj => by rw [setNode_nodes_of_ne _ hj, hnodes]
      path := by rw [setNode_nodes_self]
      kind := by rw [setNode_nodes_self]
      frame := fun lba ho => hframe lba (by rwa [setNode_nodes_self] at ho)
      sized := fun _ hsized => by
        rw [setNode_nodes_self]
        exact ⟨⟨hsized.chain, hsized.allocated_lt⟩, max_le hsized.size_le hcap⟩
      failed := fun _ _ _ h => by cases h
      succeeded := fun _ hsized n hn => by
        refine ⟨hoffset, (Except.ok.inj hn).symm, ?_⟩
        obtain ⟨-, hbytes⟩ := hbytes hsized.toLaid (hacc.apart i hi) hcap
        have hbyte : ∀ pos, (v₁.setNode i node').byteAt node' pos = v₁.byteAt (v.nodes i) pos :=
          fun pos => rfl
        have hlt : ∀ pos, pos < allocated (v.nodes i).extents * sectorSize →
            pos / sectorSize < allocated (v.nodes i).extents := fun pos hpos =>
          Nat.div_lt_of_lt_mul (by rwa [Nat.mul_comm])
        rw [setNode_nodes_self]
        refine content_splice hoffset rfl (fun k hk => ?_) fun pos hpos hout => ?_
        · rw [hbyte, hbytes _ (hlt _ (by omega)), if_pos (by omega), Nat.add_sub_cancel_left,
            getD_eq_getElem _ _ hk]
        · rw [hbyte, hbytes _ (hlt _ (hpos.trans_le hsized.size_le)), if_neg (by omega)] }

/-- **Writing**, once the node is found. -/
theorem wp_writeNode {d : ℕ → Sector} (hd : Represents L d v)
    (hacc : v.Accounted L leaked) (hi : i < inodeCount) (hkind : (v.nodes i).kind = nodeFile)
    {Q : Except DfsError ℕ → (ℕ → Sector) → Prop}
    (hQ : ∀ r d' v', Represents L d' v' → v'.Accounted L leaked → Wrote L v v' i offset input r →
      (v'.nodes i).attributes = (v.nodes i).attributes → Q r d') :
    (writeNode L i offset input).Wp (contract L) Q d := by
  refine wp_bind ((wp_readNode hd hi).mpr ?_)
  rw [thenWp_ok]
  by_cases hoffset : (v.nodes i).size < offset
  · rw [if_pos hoffset]
    exact hQ _ d v hd hacc (.refl v i offset input _) rfl
  rw [if_neg hoffset]
  by_cases hend : offset + input.length < 2 ^ 64
  swap
  · rw [dif_neg hend]
    exact hQ _ d v hd hacc (.refl v i offset input _) rfl
  rw [dif_pos hend]
  refine wp_bind (wp_allocate hd hacc hi hkind fun r d₁ v₁ hd₁ hacc₁ hgrown hattr hnode => ?_)
  cases r with
  | error e => exact hQ _ d₁ v₁ hd₁ hacc₁ hgrown.wrote hattr
  | ok node =>
    obtain ⟨rfl, hrequired⟩ := hnode node rfl
    rw [thenWp_ok]
    exact wp_writeContents hd₁ hacc₁ hi (hgrown.kind.trans hkind) (by rw [hgrown.size]; omega) hend
      ((le_sectorsFor _).trans (Nat.mul_le_mul_right _ hrequired))
      fun r d' v' hd' hacc' hw hattr' _ =>
        hQ r d' v' hd' hacc' (hgrown.trans_wrote hw) (hattr'.trans hattr)

end Write

/-! ### The operations -/

section Operations

variable {L : Layout} {leaked : ℕ → Prop} {d : ℕ → Sector} {v : Vol}

/-- What `write_file` leaves: nothing has changed, or a file that was there is written, or one that
has just been created. -/
inductive WriteOutcome (L : Layout) (v : Vol) (path : Str) (offset : ℕ) (input : List UInt8)
    (create : Bool) : Except DfsError ℕ → Vol → Prop
  | refused (e : DfsError) : WriteOutcome L v path offset input create (.error e) v
  | existing {p : Path} {i : ℕ} {r : Except DfsError ℕ} {v' : Vol} (hp : canonicalPath path = .ok p)
      (hfind : v.find p.bytes = some i) (hkind : (v.nodes i).kind = nodeFile)
      (h : Wrote L v v' i offset input r) : WriteOutcome L v path offset input create r v'
  | created {p : Path} {i : ℕ} {node : Node} {r : Except DfsError ℕ} {v' : Vol}
      (hp : canonicalPath path = .ok p) (hne : p.bytes ≠ []) (hcreate : create = true)
      {mode : UInt16} {uid gid : UInt32} (hnew : v.create p nodeFile mode uid gid = .ok (i, node))
      (h : Wrote L (v.setNode i node) v' i offset input r) :
      WriteOutcome L v path offset input create r v'

/-- What `write_file` leaves, with the mode and the owner of the file. -/
inductive WriteEffect (L : Layout) (v : Vol) (path : Str) (offset : ℕ) (input : List UInt8)
    (create : Bool) (mode : UInt16) (uid gid : UInt32) : Except DfsError ℕ → Vol → Prop
  | refused (e : DfsError) : WriteEffect L v path offset input create mode uid gid (.error e) v
  | existing {p : Path} {i : ℕ} {r : Except DfsError ℕ} {v' : Vol} (hp : canonicalPath path = .ok p)
      (hfind : v.find p.bytes = some i) (hkind : (v.nodes i).kind = nodeFile)
      (h : Wrote L v v' i offset input r)
      (hattr : (v'.nodes i).attributes = (v.nodes i).attributes) :
      WriteEffect L v path offset input create mode uid gid r v'
  | created {p : Path} {i : ℕ} {node : Node} {r : Except DfsError ℕ} {v' : Vol}
      (hp : canonicalPath path = .ok p) (hne : p.bytes ≠ []) (hcreate : create = true)
      (hnew : v.create p nodeFile mode uid gid = .ok (i, node))
      (h : Wrote L (v.setNode i node) v' i offset input r)
      (hattr : (v'.nodes i).attributes = node.attributes) :
      WriteEffect L v path offset input create mode uid gid r v'

variable {path : Str} {create : Bool} {mode : UInt16} {uid gid : UInt32}

theorem WriteEffect.outcome {offset : ℕ} {input : List UInt8} {r : Except DfsError ℕ}
    (h : WriteEffect L v path offset input create mode uid gid r v') :
    WriteOutcome L v path offset input create r v' := by
  cases h with
  | refused e => exact .refused e
  | existing hp hfind hkind h => exact .existing hp hfind hkind h
  | created hp hne hcreate hnew h => exact .created hp hne hcreate hnew h

theorem kind_of_matches (hd : Represents L d v) {path : List UInt8} {i : ℕ}
    (hfind : v.find path = some i) (hkind : (v.nodes i).kind ≠ nodeDirectory) :
    (v.nodes i).kind = nodeFile := by
  obtain ⟨hi, hzero, -⟩ := find_eq_some hfind
  rcases (hd.decoded hi).kind_cases with h | h | h
  · exact absurd (by rw [h]; rfl) hzero
  · exact h
  · exact absurd h hkind

/-- **`write_file`**, with the mode and the owner of the file. -/
theorem wp_writeFile_effect (hd : Represents L d v) (hacc : v.Accounted L leaked) {offset : ℕ}
    {input : List UInt8} {Q : Except DfsError ℕ → (ℕ → Sector) → Prop}
    (hQ : ∀ r d' v', Represents L d' v' → v'.Accounted L leaked →
      WriteEffect L v path offset input create mode uid gid r v' → Q r d') :
    (writeFile L path offset input create mode uid gid).Wp (contract L) Q d := by
  have hrefused : ∀ e, Q (.error e) d := fun e => hQ _ d v hd hacc (.refused e)
  refine wp_bind (wp_ofExcept.mpr ?_)
  cases hp : canonicalPath path with
  | error e => exact hrefused e
  | ok p =>
    rw [thenWp_ok]
    by_cases hne : p.bytes = []
    · rw [if_pos hne]
      exact hrefused _
    rw [if_neg hne]
    refine wp_bind (wp_findNode hd _ ?_)
    rw [thenWp_ok]
    cases hfind : v.find p.bytes with
    | none =>
      simp only [Option.map_none]
      by_cases hcreate : create = true
      · rw [if_pos hcreate]
        refine wp_bind (wp_createNode hd hacc (Or.inl rfl) (fun e _ => hrefused e)
          fun i node d₁ hnew hi hd₁ hacc₁ => ?_)
        have hkind : ((v.setNode i node).nodes i).kind = nodeFile := by
          rw [setNode_nodes_self, (create_eq_ok hnew).2.2.2]
          exact Node.kind_stored _
        exact wp_writeNode hd₁ hacc₁ hi hkind fun r d' v' hd' hacc' hw hattr =>
          hQ r d' v' hd' hacc'
            (.created hp hne hcreate hnew hw (by rw [hattr, setNode_nodes_self]))
      · rw [if_neg hcreate]
        exact hrefused _
    | some i =>
      simp only [Option.map_some]
      by_cases hdir : (v.nodes i).kind = nodeDirectory
      · rw [if_pos hdir]
        exact hrefused _
      rw [if_neg hdir]
      refine wp_bind (wp_findIndex hd _ ?_)
      rw [hfind, thenWp_ok]
      have hkind := kind_of_matches hd hfind hdir
      exact wp_writeNode hd hacc (find_eq_some hfind).1 hkind fun r d' v' hd' hacc' hw hattr =>
        hQ r d' v' hd' hacc' (.existing hp hfind hkind hw hattr)

/-- **`write_file`.** -/
theorem wp_writeFile (hd : Represents L d v) (hacc : v.Accounted L leaked) {offset : ℕ}
    {input : List UInt8} {Q : Except DfsError ℕ → (ℕ → Sector) → Prop}
    (hQ : ∀ r d' v', Represents L d' v' → v'.Accounted L leaked →
      WriteOutcome L v path offset input create r v' → Q r d') :
    (writeFile L path offset input create mode uid gid).Wp (contract L) Q d :=
  wp_writeFile_effect hd hacc fun r d' v' hd' hacc' h => hQ r d' v' hd' hacc' h.outcome

/-- What `truncate` leaves. -/
inductive TruncateOutcome (v : Vol) (path : Str) : Except DfsError Unit → Vol → Prop
  | refused (e : DfsError) : TruncateOutcome v path (.error e) v
  | truncated {p : Path} {i : ℕ} {v' : Vol} (hp : canonicalPath path = .ok p)
      (hfind : v.find p.bytes = some i) (hkind : (v.nodes i).kind = nodeFile)
      (hnodes : v'.nodes = Function.update v.nodes i (v.nodes i).cleared)
      (hdata : v'.data = v.data) : TruncateOutcome v path (.ok ()) v'

variable {Q : Except DfsError Unit → (ℕ → Sector) → Prop}

theorem wp_storeNode_release (hd : Represents L d v) (hacc : v.Accounted L leaked) {i : ℕ}
    (hi : i < inodeCount) (hne : i ≠ 0) {node : Node} (hvalid : node.Valid)
    (hstored : node.stored = node) (hext : node.extents = [])
    (hQ : ∀ d' v', Represents L d' v' → v'.Accounted L leaked →
      v'.nodes = Function.update v.nodes i node → v'.data = v.data → Q (.ok ()) d') :
    (do storeNode L i node; releaseExtents L (v.nodes i).extents :
      DfsProgram Transaction Unit).Wp (contract L) Q d := by
  have hacc₁ := hacc.setNode_of_nil hi hext
  refine wp_bind (wp_storeNode hd hi hne hvalid (by rw [hstored]; exact hacc₁.sound)
    fun d₁ hd₁ => ?_)
  rw [hstored] at hd₁
  refine wp_releaseExtents hd₁ hacc₁ (fun e he => (hd.decoded hi).sectorCount_ne_zero he)
    (hacc.apart i hi) (fun lba hl e he hc => hacc.leaked_free lba hl ⟨i, hi, e, he, hc⟩) ?_
  intro d' v' hnodes hdata hd' hacc'
  exact hQ d' v' hd' hacc' hnodes hdata

/-- **`truncate`.** -/
theorem wp_truncate (hd : Represents L d v) (hacc : v.Accounted L leaked)
    (hQ : ∀ r d' v', Represents L d' v' → v'.Accounted L leaked → TruncateOutcome v path r v' →
      Q r d') : (truncate L path).Wp (contract L) Q d := by
  have hrefused : ∀ e, Q (.error e) d := fun e => hQ _ d v hd hacc (.refused e)
  refine wp_bind (wp_ofExcept.mpr ?_)
  cases hp : canonicalPath path with
  | error e => exact hrefused e
  | ok p =>
    rw [thenWp_ok]
    refine wp_bind (wp_findIndex hd _ ?_)
    rw [thenWp_ok]
    cases hfind : v.find p.bytes with
    | none => exact hrefused _
    | some i =>
      have hi := (find_eq_some hfind).1
      have hdec := hd.decoded hi
      refine wp_bind ((wp_readNode hd hi).mpr ?_)
      rw [thenWp_ok]
      by_cases hkind : (v.nodes i).kind = nodeFile
      swap
      · rw [if_pos hkind]
        exact hrefused _
      rw [if_neg (not_not.mpr hkind)]
      have hvalid : (v.nodes i).cleared.Valid := Or.inr (Or.inl ⟨hkind, by simp [Node.cleared]⟩)
      have hstored : (v.nodes i).cleared.stored = (v.nodes i).cleared :=
        Node.stored_eq_self (show (v.nodes i).kind ≠ 0 by rw [hkind]; decide) hdec.zero_not_mem
      exact wp_storeNode_release hd hacc hi (hd.ne_zero_of_file hkind) hvalid hstored rfl
        fun d' v' hd' hacc' hnodes hdata =>
          hQ _ d' v' hd' hacc' (.truncated hp hfind hkind hnodes hdata)

/-- `read_file`, on a volume. -/
def Vol.read (v : Vol) (path : Str) (offset length : ℕ) : Except DfsError (List UInt8) := do
  let p ← canonicalPath path
  match v.find p.bytes with
  | none => .error .notFound
  | some i =>
    if (v.nodes i).kind ≠ nodeFile then .error .isDirectory
    else .ok (((v.content (v.nodes i)).drop offset).take length)

theorem wp_readFrom {C : Type} {𝒞 : Contract Sector C} (hd : Represents L d v) {node : Node}
    (hlaid : node.Laid) (hend : ∀ e ∈ node.extents, e.startLba + e.sectorCount < 2 ^ 64)
    (hin : ∀ lba, node.Owns lba → L.InData lba) {position remaining : ℕ}
    (hcap : position + remaining ≤ allocated node.extents * sectorSize)
    {Q : Except DfsError (List UInt8) → (ℕ → Sector) → Prop}
    (hQ : Q (.ok ((List.range remaining).map fun k => v.byteAt node (position + k))) d) :
    (readFrom node position remaining : DfsProgram C (List UInt8)).Wp 𝒞 Q d := by
  induction hn : remaining using Nat.strong_induction_on generalizing position remaining Q with
  | _ n ih =>
  subst hn
  have hss : sectorSize = 512 := rfl
  rw [readFrom]
  by_cases hlen : remaining = 0
  · subst hlen
    rw [dif_pos rfl]
    exact wp_pure.mpr hQ
  rw [dif_neg hlen]
  have hchunk := chunk_pos position hlen
  have hchunk_le : chunk position remaining ≤ sectorSize - position % sectorSize := min_le_left ..
  have hchunk_le' : chunk position remaining ≤ remaining := min_le_right ..
  have hmod := Nat.mod_lt position (show 0 < sectorSize by decide)
  have hlt : position / sectorSize < allocated node.extents :=
    Nat.div_lt_of_lt_mul (by rw [Nat.mul_comm]; omega)
  obtain ⟨p, hp⟩ := Option.isSome_iff_exists.mp (locate_isSome.mpr hlt)
  have hdata : L.InData p := hin p (covers_of_locate hp)
  have hread : readExtent node (logicalSector position) = some p := by
    rw [readExtent_eq hlaid hend, logicalSector, Nat.mod_eq_of_lt (hlt.trans hlaid.allocated_lt),
      hp]
  have hslice : (d p).slice (position % sectorSize) (chunk position remaining) =
      (List.range (chunk position remaining)).map fun k => v.byteAt node (position + k) := by
    refine map_congr_left fun k hk => ?_
    have hk := mem_range.mp hk
    have hdm := Nat.div_add_mod position sectorSize
    have hdiv : (position + k) / sectorSize = position / sectorSize := by
      refine le_antisymm (Nat.lt_succ_iff.mp (Nat.div_lt_of_lt_mul ?_))
        (Nat.div_le_div_right (by omega))
      rw [Nat.mul_succ]
      omega
    have hdm' := Nat.div_add_mod (position + k) sectorSize
    rw [hdiv] at hdm'
    rw [Vol.byteAt, hdiv, hp, hd.data p hdata]
    simp only
    congr 1
    omega
  rw [hread]
  refine wp_bind (wp_readSector.mpr ?_)
  rw [thenWp_ok]
  refine wp_bind (ih _ (by omega) (by omega) ?_ rfl)
  rw [thenWp_ok]
  refine wp_pure.mpr ?_
  convert hQ using 2
  rw [hslice]
  generalize chunk position remaining = c at hchunk_le' ⊢
  obtain ⟨m, rfl⟩ := Nat.exists_eq_add_of_le hchunk_le'
  rw [range_add, map_append, map_map, Nat.add_sub_cancel_left]
  congr 1
  refine map_congr_left fun k _ => ?_
  simp only [Function.comp, Nat.add_assoc]

/-- **`read_file`**, when the sizes of files fit their extents. -/
theorem wp_readFile {C : Type} {𝒞 : Contract Sector C} (hd : Represents L d v)
    (hacc : v.Accounted L leaked)
    (hsized : ∀ i < inodeCount, (v.nodes i).kind = nodeFile → (v.nodes i).Sized)
    {offset length : ℕ} {Q : Except DfsError (List UInt8) → (ℕ → Sector) → Prop}
    (hQ : Q (v.read path offset length) d) :
    (readFile L path offset length : DfsProgram C (List UInt8)).Wp 𝒞 Q d := by
  unfold Vol.read at hQ
  refine wp_bind (wp_ofExcept.mpr ?_)
  cases hp : canonicalPath path with
  | error e =>
    rw [hp] at hQ
    exact hQ
  | ok p =>
    rw [hp] at hQ
    rw [thenWp_ok]
    refine wp_bind (wp_findNode hd _ ?_)
    rw [thenWp_ok]
    simp only [bind, Except.bind] at hQ
    cases hfind : v.find p.bytes with
    | none =>
      rw [hfind] at hQ
      exact hQ
    | some i =>
      simp only [hfind] at hQ
      simp only [Option.map_some]
      by_cases hkind : (v.nodes i).kind = nodeFile
      swap
      · rw [if_pos hkind] at hQ ⊢
        exact hQ
      rw [if_neg (not_not.mpr hkind)] at hQ ⊢
      have hi := (find_eq_some hfind).1
      have hs := hsized i hi hkind
      by_cases hoffset : (v.nodes i).size ≤ offset
      · rw [if_pos hoffset]
        rw [drop_of_length_le (by simpa using hoffset), take_nil] at hQ
        exact hQ
      rw [if_neg hoffset]
      have hsize := hs.size_le
      refine wp_readFrom hd hs.toLaid (fun e he => hacc.end_lt hi (hd.decoded hi) he)
        (hacc.inData i hi) (by omega) ?_
      convert hQ using 2
      refine ext_getElem (by simp) fun k h₁ h₂ => ?_
      simp [Vol.content]

end Operations

end ImagineOS.Dfs
