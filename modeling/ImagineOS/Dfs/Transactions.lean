import ImagineOS.BlockProgram.Endings
import ImagineOS.Dfs.Format

/-!
# DFS: transactions fit the journal

A transaction has room for sixteen sectors, and a seventeenth is refused. A run that is reserved
touches one bitmap sector for every 4096 addresses and the sector of a node; so `findFreeRun` cuts
its runs at fifteen bitmap sectors. A run that is released can have any length, and `releaseRun`
commits the transaction and begins another one whenever it is full.
-/

namespace ImagineOS.Dfs

open BlockProgram Fallible Layout

/-! ### The journal is never full -/

/-- An error other than `JournalFull`. -/
def NotFull (e : DfsError) : Prop := e ≠ .journalFull

instance (e : DfsError) : Decidable (NotFull e) := inferInstanceAs (Decidable (_ ≠ _))

/-- Whatever the device answers, the program does not end with `JournalFull`, as long as the
transactions it commits do not. -/
def NeverFull {C α : Type} (m : DfsProgram C α) : Prop := m.Ends NotFull fun _ => True

section Journal

variable {C : Type}

theorem notFull_block (e : BlockError) : NotFull (.block e) := by
  intro h
  cases h

theorem neverFull_commitTransaction (L : Layout) (tx : Transaction) :
    NeverFull (commitTransaction L tx) := by
  have hflush : (flush : DfsProgram Empty Unit).Ends NotFull fun _ => True :=
    ends_flush notFull_block
  refine (ends_writeSectors notFull_block _).bind fun _ _ => hflush.bind fun _ _ => ?_
  refine (ends_writeSector notFull_block _ _).bind fun _ _ => hflush.bind fun _ _ => ?_
  refine (ends_writeSectors notFull_block _).bind fun _ _ => hflush.bind fun _ _ => ?_
  exact (ends_writeSector notFull_block _ _).bind fun _ _ => hflush

theorem ends_ofExcept {α : Type} {errors : DfsError → Prop} {P : α → Prop}
    {r : Except DfsError α} (h : Ending errors P r) : (ofExcept r : DfsProgram C α).Ends errors P :=
  h

theorem ending_add {tx : Transaction} {n : ℕ} (lba : ℕ) (s : Sector) (hlen : tx.entries.length ≤ n)
    (hn : n < transactionSectors) :
    Ending NotFull (fun tx' => tx'.entries.length ≤ n + 1) (tx.add lba s) := by
  rw [Transaction.add]
  split
  · show (tx.entries.map _).length ≤ n + 1
    rw [List.length_map]
    omega
  · rw [dif_pos (by omega)]
    show (tx.entries ++ [(lba, s)]).length ≤ n + 1
    rw [List.length_append, List.length_singleton]
    omega

theorem ending_addCurrent {tx : Transaction} {n : ℕ} (current : Option (ℕ × Sector))
    (hlen : tx.entries.length ≤ n) (hn : n < transactionSectors) :
    Ending NotFull (fun tx' => tx'.entries.length ≤ n + 1) (addCurrent tx current) := by
  cases current with
  | none =>
    show tx.entries.length ≤ n + 1
    omega
  | some c => exact ending_add c.1 c.2 hlen hn

theorem ending_bitmapLocation (L : Layout) (lba : ℕ) :
    Ending NotFull (· = (L.bitmapSector lba, L.bitmapBit lba)) (bitmapLocation L lba) := by
  by_cases h : L.InPartition lba
  · rw [bitmapLocation_eq h]
    rfl
  · rw [bitmapLocation, if_neg h]
    show NotFull .invalidFilesystem
    decide

end Journal

/-! ### Releasing a run -/

section Release

variable {L : Layout}

/-- The loop of `release_run` never holds a full transaction. -/
theorem ends_releaseLoop {n lba : ℕ} {tx : Transaction} {current : Option (ℕ × Sector)}
    (hlen : tx.entries.length < transactionSectors) :
    (markRun L false true n lba tx current).Ends NotFull
      fun r => r.1.entries.length < transactionSectors := by
  induction n generalizing lba tx current with
  | zero => exact ends_pure hlen
  | succ n ih =>
    refine (ends_ofExcept (ending_bitmapLocation L lba)).bind ?_
    rintro _ rfl
    dsimp only
    split
    · exact ih hlen
    · have hts : transactionSectors = 16 := rfl
      have hadd := ending_addCurrent current (Nat.le_sub_one_of_lt hlen) (by omega)
      refine (ends_ofExcept hadd).bind fun tx' htx' => ?_
      have hrest : ∀ tx'' : Transaction, tx''.entries.length < transactionSectors →
          (readSector (L.bitmapSector lba) >>= fun bitmap => markRun L false true n (lba + 1) tx''
            (some (L.bitmapSector lba, setBit bitmap (L.bitmapBit lba) false))).Ends NotFull
            fun r => r.1.entries.length < transactionSectors := fun tx'' htx'' =>
        (ends_readSector notFull_block _).bind fun _ _ => ih htx''
      split
      · -- A full transaction is committed.
        refine (ends_call tx').bind fun _ _ => ?_
        exact (ends_pure (P := (· = .new)) rfl).bind fun _ h => h ▸ hrest .new (by decide)
      · rename_i hfull
        refine (ends_pure (P := (· = tx')) rfl).bind fun _ h => h ▸ hrest tx' ?_
        exact lt_of_le_of_ne htx' fun h => hfull ⟨rfl, h⟩

/-- **A run of any length** is released without a full journal. -/
theorem ends_releaseRun (L : Layout) (start count : ℕ) : NeverFull (releaseRun L start count) := by
  refine (ends_releaseLoop (by decide)).bind ?_
  rintro ⟨tx, current⟩ hlen
  have hts : transactionSectors = 16 := rfl
  have hlen' : tx.entries.length ≤ transactionSectors - 1 := Nat.le_sub_one_of_lt hlen
  exact (ends_ofExcept (ending_addCurrent current hlen' (by omega))).bind fun tx' _ => ends_call tx'

end Release

/-! ### Reserving a run -/

/-- A run that is cut as `find_free_run` does: it lies in the data area and involves at most
fifteen bitmap sectors. -/
structure FreeRun.Short (L : Layout) (run : FreeRun) : Prop where
  dataLba_le : L.dataLba ≤ run.start
  le_endLba : run.start + run.length ≤ L.endLba
  span : ∀ lba, run.start ≤ lba → lba < run.start + run.length →
    L.bitmapSector lba < L.bitmapSector run.start + maxBitmapSectors

section Reserve

variable {L : Layout}

/-- The bitmap sectors that the loop of `reserve_run` has put into its transaction come before the
one in hand. -/
structure Collects (L : Layout) (a lba : ℕ) (tx : Transaction) (current : Option (ℕ × Sector)) :
    Prop where
  le : a ≤ lba
  fresh : current = none → tx.entries = []
  held : ∀ c, current = some c → a < lba ∧ c.1 = L.bitmapSector (lba - 1) ∧
    L.bitmapSector a + tx.entries.length ≤ c.1

variable {lba : ℕ}

theorem Collects.length_lt {a : ℕ} {tx : Transaction} {current : Option (ℕ × Sector)}
    (h : Collects L a lba tx current)
    (hspan : ∀ x, a ≤ x → x < lba → L.bitmapSector x < L.bitmapSector a + maxBitmapSectors) :
    tx.entries.length < maxBitmapSectors := by
  cases current with
  | none =>
    rw [h.fresh rfl]
    decide
  | some c =>
    obtain ⟨hlt, hc, hle⟩ := h.held c rfl
    have := hspan (lba - 1) (by omega) (by omega)
    omega

theorem ends_reserveLoop {n a : ℕ} {tx : Transaction} {current : Option (ℕ × Sector)}
    (hspan : ∀ x, a ≤ x → x < lba + n → L.bitmapSector x < L.bitmapSector a + maxBitmapSectors)
    (h : Collects L a lba tx current) :
    (markRun L true false n lba tx current).Ends NotFull
      fun r => r.1.entries.length < maxBitmapSectors := by
  induction n generalizing lba tx current with
  | zero => exact ends_pure (h.length_lt hspan)
  | succ n ih =>
    have hle := h.le
    have hlen := h.length_lt fun x h₁ h₂ => hspan x h₁ (by omega)
    have hspan' : ∀ x, a ≤ x → x < lba + 1 + n →
        L.bitmapSector x < L.bitmapSector a + maxBitmapSectors := fun x h₁ h₂ =>
      hspan x h₁ (by omega)
    refine (ends_ofExcept (ending_bitmapLocation L lba)).bind ?_
    rintro _ rfl
    dsimp only
    split
    · -- The sector in hand stays in hand.
      rename_i c bitmap hc
      obtain ⟨hsome, hsector⟩ := Option.filter_eq_some_iff.mp hc
      obtain ⟨hlt, -, hbound⟩ := h.held _ hsome
      have hsector : c = L.bitmapSector lba := of_decide_eq_true hsector
      refine ih hspan' ⟨by omega, by simp, ?_⟩
      rintro _ ⟨⟩
      exact ⟨by omega, rfl, hsector ▸ hbound⟩
    · -- It goes to the transaction, and the next one comes after it.
      rename_i hc
      have hmax : maxBitmapSectors = 15 := rfl
      have hts : transactionSectors = 16 := rfl
      have hnext : current = none ∨ L.bitmapSector a + (tx.entries.length + 1) ≤
          L.bitmapSector lba := by
        cases current with
        | none => exact Or.inl rfl
        | some c =>
          obtain ⟨hlt, hheld, hbound⟩ := h.held c rfl
          have hne : c.1 ≠ L.bitmapSector lba := fun he => by simp [Option.filter, he] at hc
          have hmono : L.bitmapSector (lba - 1) ≤ L.bitmapSector lba :=
            bitmapSector_mono (by omega)
          exact Or.inr (by omega)
      have hadd : Ending NotFull (fun tx' => L.bitmapSector a + tx'.entries.length ≤
          L.bitmapSector lba) (addCurrent tx current) := by
        rcases hnext with rfl | hnext
        · show L.bitmapSector a + tx.entries.length ≤ L.bitmapSector lba
          rw [h.fresh rfl]
          exact bitmapSector_mono hle
        · have hroom := ending_addCurrent current le_rfl (hlen.trans (by decide))
          cases hr : addCurrent tx current with
          | ok tx' =>
            rw [hr] at hroom
            have hlen' : tx'.entries.length ≤ tx.entries.length + 1 := hroom
            show L.bitmapSector a + tx'.entries.length ≤ L.bitmapSector lba
            omega
          | error e =>
            rw [hr] at hroom
            exact hroom
      refine (ends_ofExcept hadd).bind fun tx' htx' => ?_
      rw [if_neg (by simp)]
      refine (ends_pure (P := (· = tx')) rfl).bind ?_
      rintro _ rfl
      refine (ends_readSector notFull_block _).bind fun _ _ => ?_
      refine ih hspan' ⟨by omega, by simp, ?_⟩
      rintro _ ⟨⟩
      exact ⟨by omega, rfl, htx'⟩

variable {run : FreeRun}

/-- **A short run** is reserved without a full journal, whatever node it is for. -/
theorem ends_reserveRun (hrun : run.Short L) (index : ℕ) (node : Node) :
    NeverFull (reserveRun L run.start run.length index node) := by
  refine (ends_reserveLoop hrun.span ⟨le_rfl, fun _ => rfl, by simp⟩).bind ?_
  rintro ⟨tx, current⟩ hlen
  have hmax : maxBitmapSectors = 15 := rfl
  have hts : transactionSectors = 16 := rfl
  have hlen' : tx.entries.length ≤ 14 := Nat.le_of_lt_succ hlen
  refine (ends_ofExcept (ending_add _ _ hlen' (by omega))).bind fun tx₁ h₁ => ?_
  refine (ends_ofExcept (ending_add _ _ h₁ (by omega))).bind fun tx₂ _ => ?_
  exact ends_call tx₂

/-- The run so far, at address `lba` of the scan. -/
structure RunGrows (L : Layout) (lba : ℕ) (run : FreeRun) (first : ℕ) : Prop where
  dataLba_le : L.dataLba ≤ run.start
  reaches : run.start + run.length = lba
  first_eq : first = L.bitmapSector run.start
  span : ∀ x, run.start ≤ x → x < lba → L.bitmapSector x < first + maxBitmapSectors

variable {first : ℕ}

theorem RunGrows.short (h : RunGrows L lba run first) (hend : lba ≤ L.endLba) : run.Short L where
  dataLba_le := h.dataLba_le
  le_endLba := h.reaches.trans_le hend
  span x h₁ h₂ := h.first_eq ▸ h.span x h₁ (h.reaches ▸ h₂)

theorem RunGrows.single (h : L.dataLba ≤ lba) :
    RunGrows L (lba + 1) ⟨lba, 1, Nat.one_pos⟩ (L.bitmapSector lba) where
  dataLba_le := h
  reaches := rfl
  first_eq := rfl
  span x h₁ h₂ := by
    obtain rfl : x = lba := by simp only at h₁; omega
    exact Nat.lt_add_of_pos_right (by decide)

theorem RunGrows.next (h : RunGrows L lba run first)
    (hcut : ¬ maxBitmapSectors ≤ L.bitmapSector lba - first) :
    RunGrows L (lba + 1) ⟨run.start, run.length + 1, Nat.succ_pos _⟩ first where
  dataLba_le := h.dataLba_le
  reaches := by
    show run.start + (run.length + 1) = lba + 1
    have := h.reaches
    omega
  first_eq := h.first_eq
  span x h₁ h₂ := by
    rcases Nat.lt_succ_iff_lt_or_eq.mp h₂ with hlt | rfl
    · exact h.span x h₁ hlt
    · omega

/-- What one address of the scan leaves: a run that is returned, or the run so far. -/
def Scanned (L : Layout) (lba : ℕ) : FreeRun ⊕ Option (FreeRun × ℕ) → Prop
  | .inl found => found.Short L
  | .inr run => ∀ r first, run = some (r, first) → RunGrows L lba r first

theorem scanned_none : Scanned L lba (.inr none) := by
  intro r first h
  cases h

theorem RunGrows.scanned (h : RunGrows L lba run first) :
    Scanned L lba (.inr (some (run, first))) := by
  rintro _ _ ⟨⟩
  exact h

theorem scanned_scanStep (requested : ℕ) (used : Bool) {run : Option (FreeRun × ℕ)}
    (hdata : L.dataLba ≤ lba) (hend : lba < L.endLba)
    (hrun : ∀ r first, run = some (r, first) → RunGrows L lba r first) :
    Scanned L (lba + 1) (scanStep requested lba (L.bitmapSector lba) used run) := by
  cases run with
  | none =>
    rw [scanStep]
    split
    · exact scanned_none
    · split
      · exact (RunGrows.single hdata).short hend
      · exact (RunGrows.single hdata).scanned
  | some rf =>
    obtain ⟨r, first⟩ := rf
    have hr := hrun r first rfl
    rw [scanStep]
    split
    · exact hr.short hend.le
    · split
      · exact hr.short hend.le
      · rename_i hcut
        split
        · exact (hr.next hcut).short hend
        · exact (hr.next hcut).scanned

theorem ends_findFreeRunFrom (requested : ℕ) {n : ℕ} {cached : Option (ℕ × Sector)}
    {run : Option (FreeRun × ℕ)} (hn : lba + n = L.endLba) (hdata : L.dataLba ≤ lba)
    (hrun : ∀ r first, run = some (r, first) → RunGrows L lba r first) :
    (findFreeRunFrom L requested n lba cached run).Ends NotFull (FreeRun.Short L) := by
  induction n generalizing lba cached run with
  | zero =>
    cases run with
    | none => exact ends_throw (by decide)
    | some rf => exact ends_pure ((hrun rf.1 rf.2 rfl).short hn.le)
  | succ n ih =>
    refine (ends_ofExcept (ending_bitmapLocation L lba)).bind ?_
    rintro _ rfl
    have hcached : (cachedBitmap cached (L.bitmapSector lba)).Ends NotFull
        fun _ => True := by
      cases cached with
      | none => exact ends_readSector notFull_block _
      | some c =>
        rw [cachedBitmap]
        split
        · exact ends_pure trivial
        · exact ends_readSector notFull_block _
    refine hcached.bind fun bitmap _ => ?_
    have hstep := scanned_scanStep requested (getBit bitmap (L.bitmapBit lba)) hdata (by omega) hrun
    split
    · rename_i found hfound
      rw [hfound] at hstep
      exact ends_pure hstep
    · rename_i run' hrun'
      rw [hrun'] at hstep
      exact ih (by omega) (by omega) hstep

/-- **Every run that is found is short**, whatever the bitmap holds and however many sectors are
requested. -/
theorem ends_findFreeRun (L : Layout) (requested : ℕ) :
    (findFreeRun L requested).Ends NotFull (FreeRun.Short L) := by
  obtain ⟨-, -, -, -, -, -, hlt, -⟩ := L.offsets
  exact ends_findFreeRunFrom requested (by omega) le_rfl (by simp)

end Reserve

/-! ### On a device that never fails -/

/-- What it does to a disk to mark the addresses from `a` up to `b`, and to write some sectors in
the same transaction: no other bit of the bitmap changes, and no other sector outside the bitmap and
the journal. -/
structure Marks (L : Layout) (a b : ℕ) (value : Bool) (written : List (ℕ × Sector))
    (d d' : ℕ → Sector) : Prop where
  bits : ∀ x, L.InPartition x → getBit (d' (L.bitmapSector x)) (L.bitmapBit x) =
    if a ≤ x ∧ x < b then value else getBit (d (L.bitmapSector x)) (L.bitmapBit x)
  rest : ∀ lba, ¬ L.InJournal lba → lba < L.bitmapLba ∨ L.dataLba ≤ lba →
    d' lba = applyWrites written d lba

/-- The bitmap of a disk. -/
def bitmapOf (L : Layout) (d : ℕ → Sector) : Vol where
  nodes _ := .empty
  used x := getBit (d (L.bitmapSector x)) (L.bitmapBit x)
  data := d

section Runs

variable {L : Layout} {d : ℕ → Sector}

theorem Marking.rest {v : Vol} {value : Bool} {a b : ℕ} {tx : Transaction}
    {current : Option (ℕ × Sector)} (h : Marking L d v value a b tx current)
    (hrange : ∀ x, a ≤ x → x < b → L.InPartition x) {lba : ℕ}
    (hlba : lba < L.bitmapLba ∨ L.dataLba ≤ lba) :
    applyWrites (collected tx current) d lba = d lba := by
  refine applyWrites_of_not_mem d fun hmem => ?_
  obtain ⟨hlt, hfirst, hlast⟩ := h.mem_targets hmem
  have hbitmap := L.le_bitmapSector a
  have hdata := bitmapSector_lt (hrange (b - 1) (by omega) (by omega))
  omega

/-- **Reserving** a short run succeeds, and marks the run and stores the node. -/
theorem run_reserveRun {run : FreeRun} (hrun : run.Short L) {index : ℕ} (hi : index < inodeCount)
    (node : Node) (d : ℕ → Sector) :
    ∃ d', (reserveRun L run.start run.length index node).run.run (commitRun L) d = (.ok (), d') ∧
      Marks L run.start (run.start + run.length) true [(L.inodeLba + index, encodeNode node)]
        d d' := by
  have hrange : ∀ x, run.start ≤ x → x < run.start + run.length → L.InPartition x := fun x h₁ h₂ =>
    Layout.InData.inPartition ⟨hrun.dataLba_le.trans h₁, h₂.trans_le hrun.le_endLba⟩
  have hwp : (reserveRun L run.start run.length index node).Wp (anyCommit L) (fun r d' =>
      r = .ok () ∧ Marks L run.start (run.start + run.length) true
        [(L.inodeLba + index, encodeNode node)] d d') d := by
    refine wp_reserveRun_of (v := bitmapOf L d) (fun _ _ => rfl) run.pos hrange hrun.span hi ?_
    intro tx current hmark hb
    refine ⟨trivial, rfl, fun x hx => ?_, fun lba hlba hrest => ?_⟩
    · have hout : L.bitmapSector x ∉ [(L.inodeLba + index, encodeNode node)].map Prod.fst := by
        intro hmem
        exact inode_ne_bitmap hi (List.mem_singleton.mp hmem).symm
      show getBit (commitEffect L _ d _) _ = _
      rw [commitEffect_of_not_inJournal d hb (inMeta_bitmap hx).targetable.2,
        applyWrites_append, applyWrites_of_not_mem _ hout, hmark.bits x hx, Vol.mark_used]
      rfl
    · show commitEffect L _ d lba = _
      rw [commitEffect_of_not_inJournal d hb hlba, applyWrites_append]
      exact applyWrites_congr _ (hmark.rest hrange hrest)
  obtain ⟨r, d', hrun, rfl, hmarks⟩ := run_of_wp hwp
  exact ⟨d', hrun, hmarks⟩

/-- **Releasing** a run of any length succeeds, and clears the run. -/
theorem run_releaseRun {start count : ℕ}
    (hrange : ∀ x, start ≤ x → x < start + count → L.InPartition x) (d : ℕ → Sector) :
    ∃ d', (releaseRun L start count).run.run (commitRun L) d = (.ok (), d') ∧
      Marks L start (start + count) false [] d d' := by
  have hwp : (releaseRun L start count).Wp (anyCommit L) (fun r d' =>
      r = .ok () ∧ Marks L start (start + count) false [] d d') d := by
    refine wp_releaseRun_of (v := bitmapOf L d)
      (fun d' v' => (∀ x, L.InPartition x →
          getBit (d' (L.bitmapSector x)) (L.bitmapBit x) = v'.used x) ∧
        ∀ lba, ¬ L.InJournal lba → lba < L.bitmapLba ∨ L.dataLba ≤ lba → d' lba = d lba)
      (fun _ _ h => h.1) ⟨fun _ _ => rfl, fun _ _ _ => rfl⟩ hrange ?_ ?_
    · intro d' b m tx current h₁ h₂ _ hrel hmark hb
      refine ⟨trivial, fun x hx => ?_, fun lba hlba hrest => ?_⟩
      · show getBit (commitEffect L _ d' _) _ = _
        rw [commitEffect_of_not_inJournal d' hb (inMeta_bitmap hx).targetable.2,
          hmark.bits x hx, Vol.mark_mark _ h₁ hmark.le]
      · show commitEffect L _ d' lba = _
        rw [commitEffect_of_not_inJournal d' hb hlba,
          hmark.rest (fun x h₃ h₄ => hrange x (by omega) (by omega)) hrest]
        exact hrel.2 lba hlba hrest
    · intro d' hrel
      refine ⟨rfl, fun x hx => ?_, hrel.2⟩
      rw [hrel.1 x hx, Vol.mark_used]
      rfl
  obtain ⟨r, d', hrun, rfl, hmarks⟩ := run_of_wp hwp
  exact ⟨d', hrun, hmarks⟩

end Runs

/-- **Transactions fit the journal.** Whatever the device answers and the bitmap holds, a run that
`find_free_run` has found for any request is reserved for any node without `JournalFull`, and a run
of any length is released without it. On a device that never fails the run is reserved together with
the node, and a run within the partition is released; no other bit changes. -/
theorem transactions_fit (L : Layout) :
    (∀ tx, NeverFull (commitTransaction L tx)) ∧
    (∀ requested, (findFreeRun L requested).Ends NotFull fun run =>
      ∀ index node, NeverFull (reserveRun L run.start run.length index node) ∧
        (index < inodeCount → ∀ d, ∃ d',
          (reserveRun L run.start run.length index node).run.run (commitRun L) d = (.ok (), d') ∧
          Marks L run.start (run.start + run.length) true
            [(L.inodeLba + index, encodeNode node)] d d')) ∧
    ∀ start count, NeverFull (releaseRun L start count) ∧
      ((∀ x, start ≤ x → x < start + count → L.InPartition x) → ∀ d, ∃ d',
        (releaseRun L start count).run.run (commitRun L) d = (.ok (), d') ∧
        Marks L start (start + count) false [] d d') := by
  refine ⟨neverFull_commitTransaction L, fun requested => ?_, fun start count => ?_⟩
  · refine (ends_findFreeRun L requested).mono fun run hrun index node => ?_
    exact ⟨ends_reserveRun hrun index node, fun hi d => run_reserveRun hrun hi node d⟩
  · exact ⟨ends_releaseRun L start count, fun hrange d => run_releaseRun hrange d⟩

end ImagineOS.Dfs
