import ImagineOS.Dfs.Durability

/-!
# DFS: the areas of a partition, and mounting what was formatted

The areas of a partition lie one after the other: the superblock, the journal, the node table, the
bitmap, and the data up to the end of the partition. The bitmap has a bit for every sector, and all
addresses fit 64 bits.
-/

namespace ImagineOS.Dfs

open BlockProgram Fallible

/-! ### The areas of a partition -/

namespace Layout

variable (L : Layout)

/-- The superblock, the journal, the node table, the bitmap and the data: the first address of each
and how many sectors it has. -/
def areas : List (ℕ × ℕ) :=
  [(L.startLba, 1), (L.journalLba, journalSectors), (L.inodeLba, inodeCount),
    (L.bitmapLba, L.bitmapSectors), (L.dataLba, L.endLba - L.dataLba)]

/-- **The areas are disjoint and in order.** -/
theorem pairwise_areas : L.areas.Pairwise fun a b => a.1 + a.2 ≤ b.1 := by
  obtain ⟨hj, hi, hb, hbs, hd, -, hlt, -⟩ := L.offsets
  have hjs : journalSectors = 17 := rfl
  have hic : inodeCount = 256 := rfl
  simp only [areas, List.pairwise_cons, List.forall_mem_cons, List.not_mem_nil, false_implies,
    implies_true, List.Pairwise.nil, and_true]
  omega

theorem mem_areas {a : ℕ × ℕ} (h : a ∈ L.areas) :
    0 < a.2 ∧ L.startLba ≤ a.1 ∧ a.1 + a.2 ≤ L.endLba := by
  obtain ⟨hj, hi, hb, hbs, hd, he, hlt, -⟩ := L.offsets
  have hjs : journalSectors = 17 := rfl
  have hic : inodeCount = 256 := rfl
  simp only [areas, List.mem_cons, List.not_mem_nil, or_false] at h
  rcases h with rfl | rfl | rfl | rfl | rfl
  all_goals
    simp only
    omega

theorem sectors_le_bitmap : L.sectors ≤ L.bitmapSectors * bitsPerSector := by
  obtain ⟨-, -, -, hbs, -, -, -, -⟩ := L.offsets
  rw [hbs, show bitsPerSector = 4096 from rfl]
  omega

/-- The first and the last bit of a bitmap sector, as `format` computes them. -/
theorem bitmap_bits_lt {i : ℕ} (h : i < L.bitmapSectors) :
    i * bitsPerSector + bitsPerSector < 2 ^ 64 := by
  have hrounds := L.rounds
  obtain ⟨-, -, -, hbs, -, -, -, -⟩ := L.offsets
  rw [show bitsPerSector = 4096 from rfl] at hrounds ⊢
  omega

end Layout

/-! ### Programs that succeed on a device that may fail -/

section Commits

variable {L : Layout} {faulty : Prop} {σ σ' : Cache Sector}

theorem Commits.view_eq {tx : Transaction} (h : Commits L faulty tx σ (some (.ok ())) σ') :
    σ'.view = commitEffect L tx.entries σ.view := by
  obtain ⟨t, hx⟩ := h
  exact (Wp.of_exec (wp_commitTransaction L tx σ.view) hx).2

/-- **A program that succeeds**, on a device that may fail or lose power, does what it does on a
device that never fails. -/
theorem Wp.of_commits {α : Type} {m : DfsProgram Transaction α}
    {Q : Except DfsError α → (ℕ → Sector) → Prop} (h : m.Wp (anyCommit L) Q σ.view)
    {t : List (Transaction × Option (Except DfsError Unit))} {a : α}
    (hx : Exec (Commits L faulty) faulty m.run σ t (some (.ok a)) σ') : Q (.ok a) σ'.view := by
  have hs := Prog.Wp.settled_or_broken (J := fun _ _ => True) (fun _ _ _ _ _ _ => trivial)
    (fun _ _ _ => trivial) (fun _ _ _ _ _ _ hc => ⟨trivial, hc.view_eq⟩) hx (h := []) trivial h
  cases hs with
  | settled cs ht hJ ho =>
    rcases ho _ rfl with hQ | ⟨-, e, he⟩
    · exact hQ
    · cases he
  | broken cs c r σ₁ ht hr hcut hJ hc hcallee ho =>
    obtain ⟨e, he⟩ := ho _ rfl
    cases he

end Commits

/-! ### Mounting what was formatted -/

/-- A disk that is mounted with the layout `L`, without a change: its journal is empty, and the root
is its only node. -/
structure Fresh (L : Layout) (d : ℕ → Sector) : Prop where
  mounts : (mount L.startLba L.sectors).run.run (fun c => c.elim) d = (.ok L, d)
  journal : d L.journalLba = zeroSector
  nodes : ∀ i < inodeCount,
    decodeNode (d (L.inodeLba + i)) = .ok (if i = 0 then rootNode else .empty)

theorem Represents.fresh {L : Layout} {d₀ d : ℕ → Sector}
    (h : Represents L d (formatVol L d₀)) : Fresh L d where
  mounts := run_mount h.super (run_replayJournal_of_zero h.header) (h.node 0 (by decide)) h.root.1
    h.root.2
  journal := h.header
  nodes i hi := by
    rw [h.node i hi, formatVol]
    split
    · rename_i hzero
      rw [hzero, Vol.setNode_nodes_self]
    · rename_i hne
      rw [Vol.setNode_nodes_of_ne _ hne]
      rfl

/-- **Layout, formatting and mounting.** Every partition that `make_layout` accepts has its areas
in the order superblock, journal, node table, bitmap, data, one after the other, in the partition; a
bit for every sector; and addresses of 64 bits. Formatting it succeeds on a device that never fails,
and wherever formatting succeeds the partition is mounted with the same layout, an empty journal and
the root only. -/
theorem format_mounts {startLba sectors : ℕ} {L : Layout}
    (h : makeLayout startLba sectors = .ok L) :
    (L.startLba = startLba ∧ L.sectors = sectors) ∧
    (L.areas.Pairwise (fun a b => a.1 + a.2 ≤ b.1) ∧
      ∀ a ∈ L.areas, 0 < a.2 ∧ startLba ≤ a.1 ∧ a.1 + a.2 ≤ startLba + sectors) ∧
    sectors ≤ L.bitmapSectors * bitsPerSector ∧
    (sectors + (bitsPerSector - 1) < 2 ^ 64 ∧ startLba + sectors < 2 ^ 64 ∧
      ∀ i < L.bitmapSectors, i * bitsPerSector + bitsPerSector < 2 ^ 64) ∧
    (∀ d, ∃ d', (format startLba sectors).run.run (commitRun L) d = (.ok L, d') ∧ Fresh L d') ∧
    ∀ faulty σ t L' σ',
      Exec (Commits L faulty) faulty (format startLba sectors).run σ t (some (.ok L')) σ' →
      L' = L ∧ Fresh L σ'.view := by
  obtain ⟨rfl, rfl⟩ := makeLayout_eq_ok h
  refine ⟨⟨rfl, rfl⟩, ⟨L.pairwise_areas, fun a ha => L.mem_areas ha⟩, L.sectors_le_bitmap,
    ⟨L.rounds, L.bounded, fun i hi => L.bitmap_bits_lt hi⟩, fun d => ?_, ?_⟩
  · obtain ⟨d', hrun, hrep⟩ := run_format L d
    exact ⟨d', hrun, hrep.fresh⟩
  · intro faulty σ t L' σ' hx
    rw [format_eq] at hx
    obtain ⟨hL, hrep⟩ := Wp.of_commits (wp_formatAs L σ.view) hx
    exact ⟨Except.ok.inj hL, hrep.fresh⟩

theorem format_mounts_sample :
    (sampleLayout.startLba = 1 ∧ sampleLayout.sectors = 8191) ∧
    (sampleLayout.areas.Pairwise (fun a b => a.1 + a.2 ≤ b.1) ∧
      ∀ a ∈ sampleLayout.areas, 0 < a.2 ∧ 1 ≤ a.1 ∧ a.1 + a.2 ≤ 1 + 8191) ∧
    8191 ≤ sampleLayout.bitmapSectors * bitsPerSector ∧
    (8191 + (bitsPerSector - 1) < 2 ^ 64 ∧ 1 + 8191 < 2 ^ 64 ∧
      ∀ i < sampleLayout.bitmapSectors, i * bitsPerSector + bitsPerSector < 2 ^ 64) ∧
    (∀ d, ∃ d', (format 1 8191).run.run (commitRun sampleLayout) d = (.ok sampleLayout, d') ∧
      Fresh sampleLayout d') ∧
    ∀ faulty σ t L' σ',
      Exec (Commits sampleLayout faulty) faulty (format 1 8191).run σ t (some (.ok L')) σ' →
      L' = sampleLayout ∧ Fresh sampleLayout σ'.view :=
  format_mounts (makeLayout_self sampleLayout)

/-- The bitmap comes after the node table, not before it. -/
theorem bitmap_after_nodes : makeLayout 1 8191 = .ok sampleLayout ∧
    ¬ sampleLayout.bitmapLba + sampleLayout.bitmapSectors ≤ sampleLayout.inodeLba := by
  refine ⟨makeLayout_self sampleLayout, ?_⟩
  decide

end ImagineOS.Dfs
