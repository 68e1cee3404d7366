import ImagineOS.Dfs.Directories

/-!
# DFS: formatting, and runs on a device that never fails

On a device that never fails a program ends with what its `Wp` says (`wp_run`), so the operations
change a volume as described so far. The volume they start from is the one `format` makes: an empty
node table but for the root, and a bitmap that marks the metadata.
-/

namespace ImagineOS.Dfs

open BlockProgram Fallible Function List

/-! ### Runs on a device that never fails -/

/-- A transaction on a device that never fails. -/
def commitRun (L : Layout) (tx : Transaction) (d : ℕ → Sector) :
    Except DfsError Unit × (ℕ → Sector) :=
  (commitTransaction L tx).run.run (fun c => c.elim) d

theorem commitRun_eq (L : Layout) (tx : Transaction) (d : ℕ → Sector) :
    commitRun L tx d = (.ok (), commitEffect L tx.entries d) := by
  obtain ⟨h₁, h₂⟩ := Prog.Wp.run _ (wp_commitTransaction L tx d) fun c => c.elim
  exact Prod.ext h₁ h₂

/-- **On a device that never fails** a program ends with what its `Wp` says. -/
theorem wp_run {L : Layout} {α : Type} {m : DfsProgram Transaction α} {d : ℕ → Sector}
    {Q : Except DfsError α → (ℕ → Sector) → Prop} (h : m.Wp (contract L) Q d) :
    Q (m.run.run (commitRun L) d).1 (m.run.run (commitRun L) d).2 :=
  Prog.Wp.run _ h fun tx d _ => commitRun_eq L tx d

/-- No restriction on what a program writes and commits. -/
def anyCommit (L : Layout) : Contract Sector Transaction where
  effect tx := commitEffect L tx.entries
  writable _ := True
  callable _ _ := True

theorem run_of_wp {L : Layout} {α : Type} {m : DfsProgram Transaction α} {d : ℕ → Sector}
    {Q : Except DfsError α → (ℕ → Sector) → Prop} (h : m.Wp (anyCommit L) Q d) :
    ∃ r d', m.run.run (commitRun L) d = (r, d') ∧ Q r d' :=
  ⟨_, _, rfl, Prog.Wp.run _ h fun tx d _ => commitRun_eq L tx d⟩

/-! ### The loop over children -/

section Rounds

variable {L : Layout} {leaked : ℕ → Prop} {d : ℕ → Sector} {v : Vol}

theorem RemoveOutcome.active_lt {rel : Prop} {v v' : Vol} {path : Str} {recursive : Bool}
    (h : RemoveOutcome rel v path recursive (.ok ()) v') : v'.active < v.active := by
  cases h with
  | @removed p i v₁ _ hp hne hfind h hleaf hnodes hdata =>
    obtain ⟨hi, hkind, -⟩ := Vol.find_eq_some hfind
    refine Vol.active_lt hi hkind (by rw [hnodes, update_self]; rfl) fun j hj hj' => ?_
    have hne : j ≠ i := by
      rintro rfl
      rw [hnodes, update_self] at hj'
      exact hj' rfl
    rw [hnodes, update_of_ne hne] at hj'
    exact h.kind_ne_zero hj'

/-- **The loop over the children does not run out of rounds** when there are more of them than
nodes in use: more rounds make no difference. -/
theorem run_removeChildren {removeChild : Str → DfsProgram Transaction Unit}
    (hchild : RemovesChild L leaked False removeChild) (hd : Represents L d v)
    (hacc : v.Accounted L leaked) {recursive : Bool} {p : Path}
    {rounds rounds' : ℕ} (h : v.active < rounds) (h' : v.active < rounds') :
    (removeChildren L removeChild recursive p.bytes rounds).run.run (commitRun L) d =
      (removeChildren L removeChild recursive p.bytes rounds').run.run (commitRun L) d := by
  induction rounds generalizing rounds' d v with
  | zero => omega
  | succ rounds ih =>
    obtain ⟨rounds', rfl⟩ := Nat.exists_eq_succ_of_ne_zero (by omega : rounds' ≠ 0)
    have hfind := (reads_findChild (C := Transaction) hd.toHolds p.bytes).run (commitRun L)
    simp only [removeChildren]
    rw [run_bind_eq hfind, run_bind_eq hfind, andThen_ok, andThen_ok]
    cases hfound : v.findChild p.bytes with
    | none => rfl
    | some i =>
      simp only [Option.map_some]
      cases recursive with
      | false => rfl
      | true =>
        rw [if_pos rfl, if_pos rfl]
        cases fromUtf8 (v.nodes i).path with
        | none => rfl
        | some childPath =>
          simp only
          have hout := wp_run (hchild childPath d v hd hacc False.elim
            (fun r d' => ∃ v', Represents L d' v' ∧ v'.Accounted L leaked ∧
              RemoveOutcome False v childPath true r v') fun r d' v' h₁ h₂ h₃ => ⟨v', h₁, h₂, h₃⟩)
          obtain ⟨v', hd', hacc', hout⟩ := hout
          rcases hr : (removeChild childPath).run.run (commitRun L) d with ⟨r, d'⟩
          rw [hr] at hd' hout
          rw [run_bind_eq hr, run_bind_eq hr]
          cases r with
          | error e => rfl
          | ok u =>
            have hlt := hout.active_lt
            exact ih hd' hacc' (by omega) (by omega)

end Rounds

/-! ### Formatting -/

/-- The volume that `format` makes before it stores the root. -/
def blankVol (L : Layout) (d : ℕ → Sector) : Vol where
  nodes _ := .empty
  used lba := decide (lba < L.dataLba)
  data := d

/-- The volume that `format` makes on the disk `d`. -/
def formatVol (L : Layout) (d : ℕ → Sector) : Vol := (blankVol L d).setNode 0 rootNode

section Format

variable {L : Layout}

theorem getBit_foldl_setBit (n : ℕ) (hn : n ≤ 4096) (bit : ℕ) :
    getBit ((List.range n).foldl (setBit · · true) zeroSector) bit = decide (bit < n) := by
  induction n with
  | zero => simp
  | succ n ih =>
    rw [range_succ, foldl_append, foldl_cons, foldl_nil,
      getBit_setBit _ _ (by omega), ih (by omega)]
    split
    · rename_i h
      simp [h]
    · rename_i h
      rw [decide_eq_decide]
      omega

theorem getBit_reservedBitmap {reserved i bit : ℕ} (hbit : bit < 4096) :
    getBit (reservedBitmap reserved i) bit = decide (i * bitsPerSector + bit < reserved) := by
  have hbs : bitsPerSector = 4096 := rfl
  rw [reservedBitmap, getBit_foldl_setBit _ (by omega), decide_eq_decide]
  omega

/-- The writes of `format` before the root is stored. -/
def formatWrites (L : Layout) : List (ℕ × Sector) :=
  ((List.range (L.dataLba - L.startLba)).map fun i => (L.startLba + i, zeroSector)) ++
    (((List.range L.bitmapSectors).map fun i =>
      (L.bitmapLba + i, reservedBitmap (L.dataLba - L.startLba) i)) ++
    [(L.startLba, superblock L)])

theorem applyWrites_zeros {n a lba : ℕ} (d : ℕ → Sector) (h : a ≤ lba ∧ lba < a + n) :
    applyWrites ((List.range n).map fun i => (a + i, zeroSector)) d lba = zeroSector := by
  have hnd : (((List.range n).map fun i => (a + i, zeroSector)).map Prod.fst).Nodup := by
    rw [map_map]
    exact nodup_range.map fun i j hij => by simpa using hij
  have hmem : (lba, zeroSector) ∈ (List.range n).map fun i => (a + i, zeroSector) :=
    mem_map.mpr ⟨lba - a, mem_range.mpr (by omega), by rw [Nat.add_sub_cancel' h.1]⟩
  exact applyWrites_of_mem (w := (lba, zeroSector)) d hnd hmem

/-- **The disk before the root is stored** holds a volume without nodes. -/
theorem holds_formatWrites (d : ℕ → Sector) :
    Holds L (applyWrites (formatWrites L) d) (blankVol L d) := by
  obtain ⟨hj, hi, hb, hbs, hdl, he, hde, -⟩ := L.offsets
  have hbps : bitsPerSector = 4096 := rfl
  set zeros : List (ℕ × Sector) :=
    (List.range (L.dataLba - L.startLba)).map fun i => (L.startLba + i, zeroSector) with hzeros
  set bitmaps : List (ℕ × Sector) := (List.range L.bitmapSectors).map fun i =>
    (L.bitmapLba + i, reservedBitmap (L.dataLba - L.startLba) i) with hbitmaps
  have hbitmap_mem : ∀ lba, lba ∈ bitmaps.map Prod.fst ↔
      L.bitmapLba ≤ lba ∧ lba < L.dataLba := by
    intro lba
    simp only [hbitmaps, map_map, mem_map, mem_range, Function.comp]
    constructor
    · rintro ⟨i, hi, rfl⟩
      omega
    · rintro ⟨h₁, h₂⟩
      exact ⟨lba - L.bitmapLba, by omega, by omega⟩
  have hwrites : ∀ lba, lba ≠ L.startLba →
      applyWrites (formatWrites L) d lba = applyWrites bitmaps (applyWrites zeros d) lba := by
    intro lba hne
    rw [formatWrites, applyWrites_append, applyWrites_append]
    exact update_of_ne hne _ _
  have hzero : ∀ lba, L.startLba < lba → lba < L.bitmapLba →
      applyWrites (formatWrites L) d lba = zeroSector := by
    intro lba h₁ h₂
    rw [hwrites lba (by omega), applyWrites_of_not_mem _ (by rw [hbitmap_mem]; omega),
      applyWrites_zeros d (by omega)]
  exact {
    super := by
      rw [formatWrites, applyWrites_append, applyWrites_append, applyWrites, applyWrites,
        update_self]
      exact checkSuperblock_superblock L
    node := fun i hi' => by
      simp only [inodeCount] at hi'
      rw [hzero _ (by omega) (by omega)]
      exact decodeNode_zeroSector
    used := fun lba hlba => by
      have hlt := Layout.bitmapSector_lt hlba
      have hle := L.le_bitmapSector lba
      have hnd : (bitmaps.map Prod.fst).Nodup := by
        rw [hbitmaps, map_map]
        exact nodup_range.map fun i j hij => by simpa using hij
      have hmem : (L.bitmapSector lba, reservedBitmap (L.dataLba - L.startLba)
          ((lba - L.startLba) / bitsPerSector)) ∈ bitmaps := by
        refine mem_map.mpr ⟨(lba - L.startLba) / bitsPerSector, mem_range.mpr ?_, rfl⟩
        simp only [Layout.bitmapSector] at hlt
        omega
      have hread := applyWrites_of_mem (applyWrites zeros d) hnd hmem
      simp only at hread
      have hsum := Nat.div_add_mod' (lba - L.startLba) bitsPerSector
      have hin := hlba.1
      rw [hwrites _ (by omega), hread, getBit_reservedBitmap Layout.bitmapBit_lt, blankVol,
        decide_eq_decide, Layout.bitmapBit, hsum]
      omega
    data := fun lba hlba => by
      have hin := hlba.1
      rw [hwrites lba (by omega), applyWrites_of_not_mem _ (by rw [hbitmap_mem]; omega)]
      refine applyWrites_of_not_mem d ?_
      simp only [hzeros, map_map, mem_map, mem_range, Function.comp, not_exists, not_and]
      intro i hi'
      omega }

theorem formatVol_accounted (d : ℕ → Sector) : (formatVol L d).Accounted L fun _ => False := by
  have hnodes : ∀ i, ((formatVol L d).nodes i).extents = [] := by
    intro i
    simp only [formatVol, Vol.setNode, blankVol, update_apply]
    split <;> rfl
  have howns : ∀ i lba, ¬ ((formatVol L d).nodes i).Owns lba := by
    intro i lba
    simp [Node.Owns, hnodes]
  have howned : ∀ lba, ¬ (formatVol L d).Owned lba := by
    rintro lba ⟨i, -, ho⟩
    exact howns i lba ho
  exact {
    inData := fun i _ lba ho => absurd ho (howns i lba)
    apart := fun i _ => by rw [hnodes]; exact List.Pairwise.nil
    separate := fun i _ j _ lba ho => absurd ho (howns i lba)
    leaked_inData := fun _ h => h.elim
    leaked_free := fun _ h => h.elim
    used_iff := fun lba _ => by
      have hused : (formatVol L d).used lba = decide (lba < L.dataLba) := rfl
      simp [hused, howned] }

/-- What `format` does with a layout that is accepted. -/
def formatAs (L : Layout) : DfsProgram Transaction Layout := do
  Fallible.writeSectors .block
    ((List.range (L.dataLba - L.startLba)).map fun i => (L.startLba + i, zeroSector))
  Fallible.writeSectors .block ((List.range L.bitmapSectors).map fun i =>
    (L.bitmapLba + i, reservedBitmap (L.dataLba - L.startLba) i))
  writeSector L.startLba (superblock L)
  flush
  storeNode L 0 rootNode
  pure L

theorem format_eq (L : Layout) : format L.startLba L.sectors = formatAs L := by
  rw [format, makeLayout_self]
  rfl

/-- Formatting, on a device that answers every request. -/
theorem wp_formatAs (L : Layout) (d : ℕ → Sector) : (formatAs L).Wp (anyCommit L)
    (fun r d' => r = .ok L ∧ Represents L d' (formatVol L d)) d := by
  have hroot : rootNode.stored = rootNode :=
    Node.stored_eq_self (by decide) (by simp [rootNode, newNode])
  have hvol : (blankVol L d).setNode 0 rootNode.stored = formatVol L d := by rw [hroot]; rfl
  have hvalid : rootNode.Valid := newNode_valid (Or.inr rfl)
  have hstore := (holds_formatWrites (L := L) d).storeNode (i := 0) (by decide) hvalid
  rw [hvol] at hstore
  have hdisk : update (applyWrites ((List.range L.bitmapSectors).map fun i =>
      (L.bitmapLba + i, reservedBitmap (L.dataLba - L.startLba) i))
      (applyWrites ((List.range (L.dataLba - L.startLba)).map fun i =>
        (L.startLba + i, zeroSector)) d)) L.startLba (superblock L) =
      applyWrites (formatWrites L) d := by
    rw [formatWrites, applyWrites_append, applyWrites_append]
    rfl
  refine wp_bind (wp_writeSectors (fun _ _ => trivial) ?_)
  refine wp_bind (wp_writeSectors (fun _ _ => trivial) ?_)
  refine wp_bind (wp_writeSector.mpr ⟨trivial, ?_⟩)
  rw [hdisk]
  refine wp_bind (wp_flush.mpr ?_)
  rw [thenWp_ok, storeNode_eq (by decide)]
  refine wp_bind (wp_call.mpr ⟨trivial, ?_⟩)
  exact wp_pure.mpr ⟨rfl, .of_commit hstore ⟨rfl, rfl⟩⟩

/-- **Formatting** makes the same volume on every disk. -/
theorem run_format (L : Layout) (d : ℕ → Sector) :
    ∃ d', (format L.startLba L.sectors).run.run (commitRun L) d = (.ok L, d') ∧
      Represents L d' (formatVol L d) := by
  obtain ⟨r, d', hrun, rfl, hrep⟩ := run_of_wp (wp_formatAs L d)
  rw [format_eq]
  exact ⟨d', hrun, hrep⟩

end Format

end ImagineOS.Dfs
