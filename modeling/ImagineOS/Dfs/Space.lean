import ImagineOS.Dfs.Table

/-!
# DFS: free runs and extents

`findFreeRun` scans the bitmap for the first run of free sectors, and cuts it where the requested
length or the room in one transaction ends: a transaction that reserves a run also stores a node,
so at most fifteen bitmap sectors may be involved. `addExtent` gives the run to a node.
-/

namespace ImagineOS.Dfs

open BlockProgram Fallible List

/-! ### Finding a free run -/

namespace Vol

/-- The scan of `find_free_run`, on a volume. -/
def scan (L : Layout) (v : Vol) (requested : ℕ) : ℕ → ℕ → Option (FreeRun × ℕ) →
    Except DfsError FreeRun
  | 0, _, none => .error .noSpace
  | 0, _, some (run, _) => .ok run
  | n + 1, lba, run =>
    match scanStep requested lba (L.bitmapSector lba) (v.used lba) run with
    | .inl run => .ok run
    | .inr run => scan L v requested n (lba + 1) run

/-- `find_free_run`, on a volume. -/
def freeRun (L : Layout) (v : Vol) (requested : ℕ) : Except DfsError FreeRun :=
  v.scan L requested (L.endLba - L.dataLba) L.dataLba none

end Vol

/-- What is known of a run that was found: it lies in the data area, is free, is not longer than
requested, and involves at most fifteen bitmap sectors. -/
structure FreeRun.Fits (L : Layout) (v : Vol) (requested : ℕ) (run : FreeRun) : Prop where
  dataLba_le : L.dataLba ≤ run.start
  le_endLba : run.start + run.length ≤ L.endLba
  free : ∀ lba, run.start ≤ lba → lba < run.start + run.length → v.used lba = false
  le_requested : run.length ≤ requested
  span : ∀ lba, run.start ≤ lba → lba < run.start + run.length →
    L.bitmapSector lba < L.bitmapSector run.start + maxBitmapSectors

section FreeRun

variable {L : Layout} {d : ℕ → Sector} {v : Vol} {requested : ℕ}

variable {run : FreeRun} {lba : ℕ}

theorem FreeRun.Fits.inData (h : run.Fits L v requested)
    (h₁ : run.start ≤ lba) (h₂ : lba < run.start + run.length) : L.InData lba :=
  ⟨h.dataLba_le.trans h₁, h₂.trans_le h.le_endLba⟩

theorem FreeRun.Fits.length_lt (h : run.Fits L v requested) :
    run.length < 2 ^ 32 := by
  have hpos := run.pos
  have hspan := h.span (run.start + run.length - 1) (by omega) (by omega)
  have hstart : L.startLba ≤ run.start := Layout.startLba_lt_dataLba.le.trans h.dataLba_le
  simp only [Layout.bitmapSector, bitsPerSector, sectorSize, maxBitmapSectors, transactionSectors,
    journalSectors] at hspan
  omega

/-- The run so far, at address `lba` of the scan. -/
structure Scanning (L : Layout) (v : Vol) (requested lba : ℕ) (run : FreeRun) (first : ℕ) :
    Prop where
  dataLba_le : L.dataLba ≤ run.start
  reaches : run.start + run.length = lba
  free : ∀ x, run.start ≤ x → x < lba → v.used x = false
  lt_requested : run.length < requested
  first_eq : first = L.bitmapSector run.start
  span : ∀ x, run.start ≤ x → x < lba → L.bitmapSector x < first + maxBitmapSectors

section Scanning

variable {lba first limit : ℕ} {run : FreeRun}

theorem Scanning.fits (h : Scanning L v limit lba run first) (hend : lba ≤ L.endLba)
    (hle : run.length ≤ requested) : run.Fits L v requested where
  dataLba_le := h.dataLba_le
  le_endLba := h.reaches.trans_le hend
  free x h₁ h₂ := h.free x h₁ (h.reaches ▸ h₂)
  le_requested := hle
  span x h₁ h₂ := h.first_eq ▸ h.span x h₁ (h.reaches ▸ h₂)

theorem Scanning.single (hdata : L.dataLba ≤ lba) (hfree : v.used lba = false)
    (hlimit : 1 < limit) :
    Scanning L v limit (lba + 1) ⟨lba, 1, Nat.one_pos⟩ (L.bitmapSector lba) where
  dataLba_le := hdata
  reaches := rfl
  free x h₁ h₂ := by
    obtain rfl : x = lba := by simp only at h₁; omega
    exact hfree
  lt_requested := hlimit
  first_eq := rfl
  span x h₁ h₂ := by
    obtain rfl : x = lba := by simp only at h₁; omega
    exact Nat.lt_add_of_pos_right (by decide)

theorem Scanning.extend (h : Scanning L v requested lba run first) (hfree : v.used lba = false)
    (hspan : L.bitmapSector lba - first < maxBitmapSectors) (hlimit : run.length + 1 < limit) :
    Scanning L v limit (lba + 1) ⟨run.start, run.length + 1, Nat.succ_pos _⟩ first := by
  have hreach := h.reaches
  have hle : first ≤ L.bitmapSector lba := by
    rw [h.first_eq]
    exact Layout.bitmapSector_mono (by omega)
  have hlast : ∀ x, run.start ≤ x → x < lba + 1 →
      v.used x = false ∧ L.bitmapSector x < first + maxBitmapSectors := fun x h₁ h₂ => by
    rcases Nat.lt_succ_iff_lt_or_eq.mp h₂ with h₂ | rfl
    · exact ⟨h.free x h₁ h₂, h.span x h₁ h₂⟩
    · exact ⟨hfree, by omega⟩
  exact {
    dataLba_le := h.dataLba_le
    reaches := by simp only; omega
    free := fun x h₁ h₂ => (hlast x h₁ h₂).1
    lt_requested := hlimit
    first_eq := h.first_eq
    span := fun x h₁ h₂ => (hlast x h₁ h₂).2 }

end Scanning

/-- **The run that is found fits.** -/
theorem fits_of_scan {n : ℕ} {run : Option (FreeRun × ℕ)} {found : FreeRun}
    (hn : lba + n = L.endLba) (hdata : L.dataLba ≤ lba) (hpos : 0 < requested)
    (hrun : ∀ r first, run = some (r, first) → Scanning L v requested lba r first)
    (h : v.scan L requested n lba run = .ok found) : found.Fits L v requested := by
  induction n generalizing lba run with
  | zero =>
    match run, h with
    | some (r, first), h =>
      obtain rfl : r = found := Except.ok.inj h
      have hr := hrun r first rfl
      exact hr.fits hn.le hr.lt_requested.le
  | succ n ih =>
    have hend : lba < L.endLba := by omega
    rw [Vol.scan] at h
    cases run with
    | none =>
      simp only [scanStep] at h
      split_ifs at h with hused hone
      · exact ih (by omega) (by omega) (by simp) h
      · -- A run of one sector is all that is requested.
        obtain rfl := Except.ok.inj h
        exact (Scanning.single hdata (by simpa using hused) Nat.one_lt_two).fits hend hone.ge
      · refine ih (by omega) (by omega) ?_ h
        rintro _ _ ⟨⟩
        exact .single hdata (by simpa using hused) (by omega)
    | some rf =>
      obtain ⟨r, first⟩ := rf
      have hr := hrun r first rfl
      simp only [scanStep] at h
      split_ifs at h with hused hspan hreq
      · obtain rfl := Except.ok.inj h
        exact hr.fits hend.le hr.lt_requested.le
      · obtain rfl := Except.ok.inj h
        exact hr.fits hend.le hr.lt_requested.le
      · obtain rfl := Except.ok.inj h
        exact (hr.extend (by simpa using hused) (not_le.mp hspan) (Nat.lt_succ_self _)).fits hend
          hreq.le
      · refine ih (by omega) (by omega) ?_ h
        rintro _ _ ⟨⟩
        have hlt := hr.lt_requested
        exact hr.extend (by simpa using hused) (not_le.mp hspan) (by omega)

theorem fits_of_freeRun (hpos : 0 < requested)
    (h : v.freeRun L requested = .ok run) : run.Fits L v requested := by
  obtain ⟨-, -, -, -, -, -, hde, -⟩ := L.offsets
  exact fits_of_scan (by omega) le_rfl hpos (by simp) h

variable {Q : Except DfsError FreeRun → (ℕ → Sector) → Prop}

theorem wp_findFreeRunFrom (hd : Represents L d v) {n : ℕ} {cached : Option (ℕ × Sector)}
    {run : Option (FreeRun × ℕ)} (hn : lba + n = L.endLba) (hdata : L.dataLba ≤ lba)
    (hcached : ∀ b s, cached = some (b, s) → s = d b) (hQ : Q (v.scan L requested n lba run) d) :
    (findFreeRunFrom L requested n lba cached run).Wp (contract L) Q d := by
  induction n generalizing lba cached run with
  | zero =>
    match run, hQ with
    | none, hQ => exact hQ
    | some (r, first), hQ => exact hQ
  | succ n ih =>
    have hlba : L.InPartition lba := Layout.InData.inPartition ⟨hdata, by omega⟩
    refine wp_bind (wp_ofExcept.mpr ?_)
    rw [Layout.bitmapLocation_eq hlba, thenWp_ok]
    have hread : (cachedBitmap cached (L.bitmapSector lba)).Wp (contract L)
        (fun r d' => r = .ok (d (L.bitmapSector lba)) ∧ d' = d) d := by
      match cached, hcached with
      | none, _ => exact ⟨rfl, rfl⟩
      | some (b, s), hcached =>
        rw [cachedBitmap]
        split
        · rename_i hb
          exact ⟨by rw [hcached b s rfl, hb], rfl⟩
        · exact ⟨rfl, rfl⟩
    refine wp_bind_of_eq hread ?_
    rw [thenWp_ok, hd.used lba hlba]
    rw [Vol.scan] at hQ
    generalize scanStep requested lba (L.bitmapSector lba) (v.used lba) run = step at hQ ⊢
    cases step with
    | inl run => exact hQ
    | inr run => exact ih (by omega) (by omega) (by rintro b s ⟨⟩; rfl) hQ

/-- **Finding a free run.** -/
theorem wp_findFreeRun (hd : Represents L d v) (hQ : Q (v.freeRun L requested) d) :
    (findFreeRun L requested).Wp (contract L) Q d := by
  obtain ⟨-, -, -, -, -, -, hde, -⟩ := L.offsets
  exact wp_findFreeRunFrom hd (by omega) le_rfl (by simp) hQ

end FreeRun

/-! ### Adding an extent -/

section AddExtent

variable {node node' : Node} {startLba logicalStart sectorCount : ℕ}

/-- **What `add_extent` does**: it adds an extent or lengthens the last one. -/
theorem addExtent_eq_ok (h : addExtent node startLba logicalStart sectorCount = .ok node') :
    (∃ hle, node' = { node with
        extents := node.extents ++ [.ofNat startLba logicalStart sectorCount]
        extents_le := hle }) ∨
      ∃ init last, node.extents = init ++ [last] ∧
        (last.startLba + last.sectorCount) % 2 ^ 64 = startLba ∧
        (last.logicalStart + last.sectorCount) % 2 ^ 32 = logicalStart ∧
        ∃ hcount hle, node' = { node with
          extents := init ++ [{ last with
            sectorCount := last.sectorCount + sectorCount, sectorCount_lt := hcount }]
          extents_le := hle } := by
  have hpush : pushExtent node startLba logicalStart sectorCount = .ok node' →
      ∃ hle, node' = { node with
        extents := node.extents ++ [.ofNat startLba logicalStart sectorCount]
        extents_le := hle } := fun hp => by
    unfold pushExtent at hp
    split at hp
    · exact ⟨_, (Except.ok.inj hp).symm⟩
    · cases hp
  unfold addExtent at h
  split at h
  · exact Or.inl (hpush h)
  · rename_i last hlast
    split at h
    · rename_i hadj
      split at h
      · rename_i hcount
        have hne : node.extents ≠ [] := by rintro he; simp [he] at hlast
        have hsplit : node.extents = node.extents.dropLast ++ [last] := by
          rw [List.getLast?_eq_some_getLast hne] at hlast
          rw [← Option.some.inj hlast, dropLast_append_getLast]
        exact Or.inr ⟨_, last, hsplit, hadj.1, hadj.2, hcount, _, (Except.ok.inj h).symm⟩
      · cases h
    · exact Or.inl (hpush h)

theorem addExtent_attributes (h : addExtent node startLba logicalStart sectorCount = .ok node') :
    node'.path = node.path ∧ node'.kind = node.kind ∧ node'.size = node.size ∧
      node'.mode = node.mode ∧ node'.uid = node.uid ∧ node'.gid = node.gid := by
  rcases addExtent_eq_ok h with ⟨_, rfl⟩ | ⟨_, _, _, _, _, _, _, rfl⟩ <;> simp

theorem covers_ofNat {lba : ℕ} (hstart : startLba < 2 ^ 64) (hcount : sectorCount < 2 ^ 32) :
    (Extent.ofNat startLba logicalStart sectorCount).Covers lba ↔
      startLba ≤ lba ∧ lba < startLba + sectorCount := by
  simp only [Extent.Covers, Extent.ofNat, Nat.mod_eq_of_lt hstart, Nat.mod_eq_of_lt hcount]

theorem owns_addExtent (h : addExtent node startLba logicalStart sectorCount = .ok node')
    (hstart : startLba + sectorCount < 2 ^ 64) (hcount : sectorCount < 2 ^ 32)
    (hend : ∀ e ∈ node.extents, e.startLba + e.sectorCount < 2 ^ 64) (lba : ℕ) :
    node'.Owns lba ↔ node.Owns lba ∨ (startLba ≤ lba ∧ lba < startLba + sectorCount) := by
  rcases addExtent_eq_ok h with ⟨_, rfl⟩ | ⟨init, last, hsplit, hadj, -, hc, _, rfl⟩
  · simp only [Node.Owns, mem_append, mem_singleton, or_and_right, exists_or,
      exists_eq_left, covers_ofNat (by omega : startLba < 2 ^ 64) hcount]
  · have hlast : last ∈ node.extents := by rw [hsplit]; simp
    rw [Nat.mod_eq_of_lt (hend last hlast)] at hadj
    simp only [Node.Owns, hsplit, mem_append, mem_singleton, or_and_right, exists_or,
      exists_eq_left, Extent.Covers]
    rw [or_assoc]
    refine or_congr_right ?_
    omega

/-- The extents of the node stay disjoint. -/
theorem pairwise_apart_addExtent (h : addExtent node startLba logicalStart sectorCount = .ok node')
    (hstart : startLba + sectorCount < 2 ^ 64) (hcount : sectorCount < 2 ^ 32)
    (hend : ∀ e ∈ node.extents, e.startLba + e.sectorCount < 2 ^ 64)
    (hfree : ∀ lba, startLba ≤ lba → lba < startLba + sectorCount → ¬ node.Owns lba)
    (hapart : node.extents.Pairwise Extent.Apart) : node'.extents.Pairwise Extent.Apart := by
  rcases addExtent_eq_ok h with ⟨_, rfl⟩ | ⟨init, last, hsplit, hadj, -, hc, _, rfl⟩
  · refine pairwise_append.mpr ⟨hapart, pairwise_singleton _ _, ?_⟩
    rintro e he f hf lba ⟨hce, hcf⟩
    rw [mem_singleton.mp hf, covers_ofNat (by omega) hcount] at hcf
    exact hfree lba hcf.1 hcf.2 ⟨e, he, hce⟩
  · have hlast : last ∈ node.extents := by rw [hsplit]; simp
    rw [Nat.mod_eq_of_lt (hend last hlast)] at hadj
    rw [hsplit, pairwise_append] at hapart
    refine pairwise_append.mpr ⟨hapart.1, pairwise_singleton _ _, ?_⟩
    rintro e he f hf lba ⟨hce, hcf⟩
    rw [mem_singleton.mp hf] at hcf
    by_cases hold : lba < last.startLba + last.sectorCount
    · exact hapart.2.2 e he last (by simp) lba ⟨hce, hcf.1, hold⟩
    · refine hfree lba (by omega) ?_ ⟨e, by rw [hsplit]; simp [he], hce⟩
      have := hcf.2
      simp only at this
      omega

theorem sectorCount_addExtent (h : addExtent node startLba logicalStart sectorCount = .ok node')
    (hcount : sectorCount < 2 ^ 32) (hpos : 0 < sectorCount)
    (hne : ∀ e ∈ node.extents, e.sectorCount ≠ 0) : ∀ e ∈ node'.extents, e.sectorCount ≠ 0 := by
  rcases addExtent_eq_ok h with ⟨_, rfl⟩ | ⟨init, last, hsplit, -, -, hc, _, rfl⟩
  · simp only [forall_mem_append, forall_mem_singleton]
    refine ⟨hne, ?_⟩
    show sectorCount % 2 ^ 32 ≠ 0
    rw [Nat.mod_eq_of_lt hcount]
    exact hpos.ne'
  · rw [hsplit] at hne
    simp only [forall_mem_append, forall_mem_singleton] at hne ⊢
    exact ⟨hne.1, by omega⟩

end AddExtent

end ImagineOS.Dfs
