import ImagineOS.Dfs.Node

/-!
# DFS: crash atomicity

After a power failure the volume is mounted again. The mount replays the journal, and may itself
fail or lose power; then it is tried again on whatever that left. `Recovery` is such a chain of
mounts, up to the first that completes.
-/

namespace ImagineOS.Dfs

open BlockProgram Fallible Cache

/-! ### Mounting -/

section Mount

variable {L : Layout} {base : ℕ → Set Sector} {entries : List (ℕ × Sector)} {faulty : Prop}
  {σ : Cache Sector}

variable {I : Cache Sector → Prop}

theorem safe_readSuperblock (hI : I σ) :
    (readSuperblock L.startLba L.sectors : DfsProgram Empty Layout).Safe faulty I
      (fun r σ' => (∀ L', r = .ok L' → L' = L) ∧ σ' = σ) σ := by
  refine safe_bind (safe_readSector hI ⟨hI, fun L' hL' => ?_, rfl⟩)
  have h := checkSuperblock_eq_ok hL'
  rw [makeLayout_self] at h
  exact (Except.ok.inj h).symm

theorem safe_checkRoot (hI : I σ) :
    (do
      let root ← readNode L 0
      if root.kind ≠ nodeDirectory ∨ root.path.length ≠ 0 then throw .corruptMetadata
      else pure L : DfsProgram Empty Layout).Safe faulty I (fun _ σ' => σ' = σ) σ := by
  refine safe_bind ?_
  rw [readNode, if_neg (by decide)]
  refine safe_bind (safe_readSector hI ⟨hI, ?_⟩)
  cases decodeNode (σ.view (L.inodeLba + 0)) with
  | error e => exact ⟨hI, rfl⟩
  | ok root =>
    rw [thenSafe_ok]
    split
    · exact safe_throw hI rfl
    · exact safe_pure hI rfl

theorem safe_mount {Q : Cache Sector → Prop}
    (hreplay : (replayJournal L).Safe faulty I (fun r σ' => r = .ok () → Q σ') σ) :
    (mount L.startLba L.sectors).Safe faulty I (fun r σ' => ∀ L', r = .ok L' → Q σ') σ := by
  refine safe_bind (Prog.Safe.mono (safe_readSuperblock hreplay.inv) (fun _ => id) ?_)
  rintro r σ₁ hI ⟨hr, rfl⟩
  cases r with
  | error e => exact ⟨hI, by simp⟩
  | ok L' =>
    obtain rfl := hr L' rfl
    refine safe_bind (Prog.Safe.mono hreplay (fun _ => id) ?_)
    rintro r σ₂ hI hr
    cases r with
    | error e => exact ⟨hI, by simp⟩
    | ok u =>
      refine Prog.Safe.mono (safe_checkRoot hI) (fun _ => id) ?_
      rintro r σ₃ - rfl L' -
      exact hr rfl

theorem safe_mount_of_applying (hE : Admissible L entries)
    (hσ : σ.Within (phaseBound L base entries .applying)) :
    (mount L.startLba L.sectors).Safe faulty (Recoverable L base entries)
      (fun r σ' => ∀ L', r = .ok L' → σ'.Within (phaseBound L base entries .done)) σ :=
  safe_mount (Prog.Safe.mono (safe_replayJournal hE hσ) (fun _ => id) fun _ _ _ h hr =>
    (hr ▸ h).within)

theorem safe_mount_of_zero {σ₀ : Cache Sector} (hheader : σ₀.view L.journalLba = zeroSector) :
    (mount L.startLba L.sectors).Safe faulty (· = σ₀)
      (fun r σ' => ∀ L', r = .ok L' → σ' = σ₀) σ₀ :=
  safe_mount (I := (· = σ₀)) (Q := (· = σ₀)) (Prog.Safe.mono (I := (· = σ₀))
    (safe_replayJournal_of_zero rfl hheader) (fun _ h => h) fun _ _ _ h _ => h.2)

variable {d : ℕ → Sector}

theorem run_mount {d' : ℕ → Sector} {root : Node}
    (hsuper : checkSuperblock L.startLba L.sectors (d L.startLba) = .ok L)
    (hreplay : (replayJournal L).run.run (fun c => c.elim) d = (.ok (), d'))
    (hroot : decodeNode (d' L.inodeLba) = .ok root)
    (hkind : root.kind = nodeDirectory) (hpath : root.path = []) :
    (mount L.startLba L.sectors).run.run (fun c => c.elim) d = (.ok L, d') := by
  have hread : (readSuperblock L.startLba L.sectors : DfsProgram Empty Layout).run.run
      (fun c => c.elim) d = (.ok L, d) := by
    rw [← hsuper]
    rfl
  have hnode : (readNode L 0 : DfsProgram Empty Node).run.run (fun c => c.elim) d' =
      (.ok root, d') := by
    rw [← hroot, readNode, if_neg (by decide)]
    rfl
  rw [mount, run_bind_eq hread, andThen_ok, run_bind_eq hreplay,
    andThen_ok, run_bind_eq hnode, andThen_ok, hkind, hpath]
  rfl

theorem run_replayJournal_of_zero (hheader : d L.journalLba = zeroSector) :
    (replayJournal L).run.run (fun c => c.elim) d = (.ok (), d) := by
  have hread : (readSector L.journalLba : DfsProgram Empty Sector).run.run (fun c => c.elim) d =
      (.ok zeroSector, d) := by
    rw [← hheader]
    rfl
  rw [replayJournal, run_bind_eq hread, andThen_ok, if_pos (isZero_iff.mpr rfl)]
  rfl

/-- **On a device that never fails** a transaction that was published is completed. -/
theorem run_replayJournal (hE : Admissible L entries)
    (hd : ∀ lba, d lba ∈ phaseBound L base entries .applying lba) :
    ∃ d', (replayJournal L).run.run (fun c => c.elim) d = (.ok (), d') ∧
      ∀ lba, d' lba ∈ phaseBound L base entries .done lba := by
  obtain ⟨σ', hx, hview⟩ := exec_run False (replayJournal L).run (.ofDisk d)
  have hsafe := (hx.safe (safe_replayJournal hE (within_ofDisk.mpr hd))).2 _ rfl
  rw [view_ofDisk] at hview hsafe
  obtain ⟨hok, hwithin⟩ := hsafe.of_healthy not_false
  refine ⟨σ'.view, Prod.ext hok hview.symm, hwithin.view_mem⟩

end Mount

/-! ### Mounting until it works -/

/-- `Recovery L faulty d σ`: from the disk `d`, mounts that fail or lose power, and then a mount
that completes and leaves the device `σ`. -/
inductive Recovery (L : Layout) (faulty : Prop) : (ℕ → Sector) → Cache Sector → Prop
  | completes {d : ℕ → Sector} {t L' σ}
      (hx : Exec noCallee faulty (mount L.startLba L.sectors).run (.ofDisk d) t (some (.ok L')) σ) :
      Recovery L faulty d σ
  | interrupted {d d' : ℕ → Sector} {t o σ₁ σ}
      (hx : Exec noCallee faulty (mount L.startLba L.sectors).run (.ofDisk d) t o σ₁)
      (ho : ∀ L', o ≠ some (.ok L')) (hcrash : σ₁.CrashImage d') (h : Recovery L faulty d' σ) :
      Recovery L faulty d σ

section Recover

variable {L : Layout} {base : ℕ → Set Sector} {entries : List (ℕ × Sector)} {faulty : Prop}
  {d : ℕ → Sector} {σ : Cache Sector}

theorem Recovery.of_zero (h : Recovery L faulty d σ) (hheader : d L.journalLba = zeroSector) :
    σ = .ofDisk d := by
  induction h with
  | completes hx => exact (hx.safe (safe_mount_of_zero hheader)).1
  | @interrupted d d' t o σ₁ σ hx ho hcrash _ ih =>
    obtain rfl : σ₁ = .ofDisk d := (hx.safe (safe_mount_of_zero hheader)).1
    obtain ⟨ws, hws, rfl⟩ := hcrash
    obtain rfl : ws = [] := List.sublist_nil.mp hws
    exact ih hheader

/-- **Recovery**: the transaction is not begun or done. -/
theorem Recovery.of_recoverable (hE : Admissible L entries) (h : Recovery L faulty d σ) {ph : Phase}
    (hd : ∀ lba, d lba ∈ phaseBound L base entries ph lba) :
    σ.Within (phaseBound L base entries .before) ∨ σ.Within (phaseBound L base entries .done) := by
  induction h generalizing ph with
  | completes hx =>
    rcases Phase.restart hd with hd | hd | hd
    · rw [Recovery.of_zero (.completes hx) (mem_before_header.mp (hd L.journalLba))]
      exact Or.inl (within_ofDisk.mpr hd)
    · exact Or.inr ((hx.safe (safe_mount_of_applying hE (within_ofDisk.mpr hd))).2 _ rfl _
        rfl)
    · rw [Recovery.of_zero (.completes hx) (mem_done_header.mp (hd L.journalLba))]
      exact Or.inr (within_ofDisk.mpr hd)
  | interrupted hx ho hcrash hrec ih =>
    rcases Phase.restart hd with hd | hd | hd
    · rw [Recovery.of_zero (.interrupted hx ho hcrash hrec)
        (mem_before_header.mp (hd L.journalLba))]
      exact Or.inl (within_ofDisk.mpr hd)
    · obtain ⟨ph', hph'⟩ := (hx.safe (safe_mount_of_applying hE (within_ofDisk.mpr hd))).1
      exact ih (hph'.crashImage hcrash)
    · rw [Recovery.of_zero (.interrupted hx ho hcrash hrec)
        (mem_done_header.mp (hd L.journalLba))]
      exact Or.inr (within_ofDisk.mpr hd)

end Recover

/-! ### The transaction as a whole -/

section Atomic

variable {L : Layout} {tx : Transaction} {base : ℕ → Set Sector} {σ₀ σ : Cache Sector}

theorem within_before (hclear : σ₀.poss L.journalLba = {zeroSector}) :
    σ₀.Within (phaseBound L σ₀.poss tx.entries .before) := by
  intro lba
  simp only [phaseBound, areaBound]
  split
  · rename_i h
    rw [h, hclear]
  · split
    · exact Set.subset_univ _
    · exact Set.Subset.rfl

theorem Cache.Within.of_done (hE : Admissible L tx.entries)
    (h : σ.Within (phaseBound L base tx.entries .done)) :
    σ.poss L.journalLba = {zeroSector} ∧ (∀ e ∈ tx.entries, σ.poss e.1 = {e.2}) ∧
      ∀ lba, ¬ L.InJournal lba → lba ∉ tx.entries.map Prod.fst → σ.poss lba ⊆ base lba := by
  refine ⟨poss_eq_of_subset (by simpa [phaseBound, areaBound] using h L.journalLba),
    fun e he => poss_eq_of_subset fun s hs => ?_, fun lba hj hlba s hs => ?_⟩
  · have hs := (mem_done_of_not_inJournal (hE.not_inJournal he)).mp (h e.1 hs)
    rcases hs with hs | hs
    · exact congrArg Prod.snd (List.inj_on_of_nodup_map hE.nodup hs he rfl)
    · exact absurd (List.mem_map_of_mem he) hs.1
  · rcases (mem_done_of_not_inJournal hj).mp (h lba hs) with hs | hs
    · exact absurd (List.mem_map_of_mem hs) hlba
    · exact hs.2

theorem Cache.Within.of_before (h : σ.Within (phaseBound L base tx.entries .before)) :
    σ.poss L.journalLba = {zeroSector} ∧ ∀ lba, ¬ L.InJournal lba → σ.poss lba ⊆ base lba :=
  ⟨poss_eq_of_subset (by simpa [phaseBound, areaBound] using h L.journalLba),
    fun lba hj _ hs => (mem_before_of_not_inJournal hj).mp (h lba hs)⟩

end Atomic

end ImagineOS.Dfs
