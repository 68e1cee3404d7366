import ImagineOS.Dfs.Format
import ImagineOS.Dfs.Recovery

/-!
# DFS: sessions on a device that fails or loses power

A session is a sequence of operations on one mounted volume. The device has a write cache, and it
may fail a write or a flush, in which case the operation ends with an error and the caller goes on
with the next one.
-/

namespace ImagineOS.Dfs

open BlockProgram Fallible Cache

/-! ### Operations -/

/-- A call that may change a volume. -/
inductive Operation where
  | writeFile (path : Str) (offset : ℕ) (input : List UInt8) (create : Bool) (mode : UInt16)
      (uid gid : UInt32)
  | truncate (path : Str)
  | createDirectory (path : Str) (mode : UInt16) (uid gid : UInt32)
  | remove (path : Str) (recursive : Bool)

/-- The program of an operation. The number of bytes written is left out. -/
def Operation.program (L : Layout) : Operation → DfsProgram Transaction Unit
  | writeFile path offset input create mode uid gid => do
    let _ ← Dfs.writeFile L path offset input create mode uid gid
    pure ()
  | truncate path => Dfs.truncate L path
  | createDirectory path mode uid gid => Dfs.createDirectory L path mode uid gid
  | remove path recursive => Dfs.remove L path recursive

/-- What an operation leaves. -/
inductive Operation.Outcome (L : Layout) (v : Vol) : Operation → Except DfsError Unit → Vol → Prop
  | writeFile {path : Str} {offset : ℕ} {input : List UInt8} {create : Bool} {mode : UInt16}
      {uid gid : UInt32} {r : Except DfsError ℕ} {v' : Vol}
      (h : WriteOutcome L v path offset input create r v') :
      Outcome L v (.writeFile path offset input create mode uid gid) (r.map fun _ => ()) v'
  | truncate {path : Str} {r : Except DfsError Unit} {v' : Vol} (h : TruncateOutcome v path r v') :
      Outcome L v (.truncate path) r v'
  | createDirectory {path : Str} {mode : UInt16} {uid gid : UInt32} {r : Except DfsError Unit}
      {v' : Vol} (h : CreateOutcome v path mode uid gid r v') :
      Outcome L v (.createDirectory path mode uid gid) r v'
  | remove {path : Str} {recursive : Bool} {r : Except DfsError Unit} {v' : Vol}
      (h : RemoveOutcome v.Relative v path recursive r v') :
      Outcome L v (.remove path recursive) r v'

/-- **What an operation does** on a device that answers every request. -/
theorem wp_program {L : Layout} {leaked : ℕ → Prop} {d : ℕ → Sector} {v : Vol}
    (hd : Represents L d v) (hacc : v.Accounted L leaked) (op : Operation)
    {Q : Except DfsError Unit → (ℕ → Sector) → Prop}
    (hQ : ∀ r d' v', Represents L d' v' → v'.Accounted L leaked → op.Outcome L v r v' → Q r d') :
    (op.program L).Wp (contract L) Q d := by
  cases op with
  | writeFile path offset input create mode uid gid =>
    refine wp_bind (wp_writeFile hd hacc fun r d' v' hd' hacc' h => ?_)
    have hout : Operation.Outcome L v (.writeFile path offset input create mode uid gid)
        (r.map fun _ => ()) v' := .writeFile h
    cases r <;> exact hQ _ d' v' hd' hacc' hout
  | truncate path =>
    exact wp_truncate hd hacc fun r d' v' hd' hacc' h => hQ r d' v' hd' hacc' (.truncate h)
  | createDirectory path mode uid gid =>
    exact wp_createDirectory hd hacc fun r d' v' hd' hacc' h =>
      hQ r d' v' hd' hacc' (.createDirectory h)
  | remove path recursive =>
    exact wp_removeAtDepth v.Relative 33 recursive path hd hacc id fun r d' v' hd' hacc' h =>
      hQ r d' v' hd' hacc' (.remove h)

/-! ### Transactions on a device with a cache -/

/-- What a transaction may answer and leave on a device with a cache. -/
def Commits (L : Layout) (faulty : Prop) (tx : Transaction) (σ : Cache Sector)
    (r : Option (Except DfsError Unit)) (σ' : Cache Sector) : Prop :=
  ∃ t, Exec noCallee faulty (commitTransaction L tx).run σ t r σ'

/-- An operation on a device with a cache, with the transactions it makes. -/
def Performs (L : Layout) (faulty : Prop) (op : Operation) (σ : Cache Sector)
    (t : List (Transaction × Option (Except DfsError Unit))) (o : Option (Except DfsError Unit))
    (σ' : Cache Sector) : Prop :=
  Exec (Commits L faulty) faulty (op.program L).run σ t o σ'

/-- The next mount succeeds, on a device that never fails. -/
def Mounts (L : Layout) (d : ℕ → Sector) : Prop :=
  ((mount L.startLba L.sectors).run.run (fun c => c.elim) d).1 = .ok L

section Fixed

variable {L : Layout} {d d' : ℕ → Sector} {v : Vol} {txs : List Transaction} {σ : Cache Sector}

def Layout.Fixed (L : Layout) (lba : ℕ) : Prop := lba = L.startLba ∨ L.InMeta lba

theorem Layout.Fixed.not_inJournal {lba : ℕ} (h : L.Fixed lba) : ¬ L.InJournal lba := by
  rcases h with rfl | h
  · obtain ⟨hj, -, -, -, -, -, -, -⟩ := L.offsets
    intro h
    have := h.1
    omega
  · exact h.targetable.2

theorem Layout.Fixed.not_inData {lba : ℕ} (h : L.Fixed lba) : ¬ L.InData lba := by
  rcases h with rfl | h
  · exact fun hd => absurd hd.1 (not_le.mpr L.startLba_lt_dataLba)
  · exact fun hd => hd.not_inMeta h

/-- What a list of transactions makes of the metadata. -/
def applied (txs : List Transaction) (d : ℕ → Sector) : ℕ → Sector :=
  applyWrites (txs.flatMap (·.entries)) d

theorem applied_concat (txs : List Transaction) (tx : Transaction) (d : ℕ → Sector) :
    applied (txs ++ [tx]) d = applyWrites tx.entries (applied txs d) := by
  rw [applied, List.flatMap_append, applyWrites_append]
  simp [applied]

theorem Represents.of_fixed (hd : Represents L d v) (h : ∀ lba, L.Fixed lba → d' lba = d lba)
    (hheader : d' L.journalLba = zeroSector) : Represents L d' { v with data := d' } where
  super := by rw [h _ (Or.inl rfl)]; exact hd.super
  node i hi := by rw [h _ (Or.inr (Layout.inMeta_inode hi))]; exact hd.node i hi
  used lba hlba := by rw [h _ (Or.inr (Layout.inMeta_bitmap hlba))]; exact hd.used lba hlba
  data _ _ := rfl
  header := hheader
  root := hd.root

theorem Represents.mounts (hd : Represents L d v) : Mounts L d := by
  have h := run_mount hd.super (run_replayJournal_of_zero hd.header)
    (hd.node 0 (by decide)) hd.root.1 hd.root.2
  exact congrArg Prod.fst h

theorem Represents.recovery (hd : Represents L d v) (faulty : Prop) :
    ∃ σ, Recovery L faulty d σ := by
  obtain ⟨σ, hx, -⟩ := exec_run faulty (mount L.startLba L.sectors).run (.ofDisk d)
  rw [view_ofDisk, show Prod.fst _ = _ from hd.mounts] at hx
  exact ⟨σ, .completes hx⟩

theorem Vol.Sound.of_data (h : v.Sound L) (data : ℕ → Sector) :
    Vol.Sound L { v with data := data } := by
  obtain ⟨leaked, hacc⟩ := h
  exact ⟨leaked, hacc.congr (fun _ _ => rfl) fun _ _ => rfl⟩

end Fixed

/-! ### Steady devices -/

/-- The commit record is cleared, on the media and in the cache. -/
def Clear (L : Layout) (σ : Cache Sector) : Prop := σ.poss L.journalLba = {zeroSector}

/-- The device after the transactions `txs` on the disk `d₀`, whatever data is in the cache. -/
structure Steady (L : Layout) (d₀ : ℕ → Sector) (txs : List Transaction) (σ : Cache Sector) :
    Prop where
  clear : Clear L σ
  fixed : ∀ lba, L.Fixed lba → σ.poss lba = {applied txs d₀ lba}
  sound : ∃ v, Represents L σ.view v ∧ v.Sound L

namespace Steady

variable {L : Layout} {d d₀ : ℕ → Sector} {v : Vol} {txs : List Transaction} {faulty : Prop}
  {σ σ' : Cache Sector}

variable {lba : ℕ}

theorem view_eq (h : Steady L d₀ txs σ) (hlba : L.Fixed lba) :
    σ.view lba = applied txs d₀ lba := view_eq_of_poss_subset (h.fixed lba hlba).subset

theorem of_fixed (hclear : Clear L σ)
    (hfixed : ∀ lba, L.Fixed lba → σ.poss lba ⊆ {applied txs d₀ lba})
    (hd : Represents L d v) (hsound : v.Sound L)
    (hagree : ∀ lba, L.Fixed lba → d lba = applied txs d₀ lba) : Steady L d₀ txs σ where
  clear := hclear
  fixed lba hlba := poss_eq_of_subset (hfixed lba hlba)
  sound := by
    refine ⟨_, hd.of_fixed (fun lba hlba => ?_) ?_, hsound.of_data _⟩
    · rw [view_eq_of_poss_subset (hfixed lba hlba), hagree lba hlba]
    · exact view_eq_of_poss_subset hclear.subset

theorem ofDisk (hd : Represents L d v) (hsound : v.Sound L) : Steady L d [] (.ofDisk d) where
  clear := by rw [Clear, poss_ofDisk, hd.header]
  fixed lba _ := by rw [poss_ofDisk]; rfl
  sound := ⟨v, hd, hsound⟩

theorem write (h : Steady L d₀ txs σ) (s : Sector) (hlba : L.InData lba) :
    Steady L d₀ txs (σ.write lba s) where
  clear := by
    have hne : L.journalLba ≠ lba := by
      rintro rfl
      exact hlba.not_inJournal ⟨le_rfl, Nat.lt_add_of_pos_right (by decide)⟩
    rw [Clear, poss_write_of_ne _ _ hne]
    exact h.clear
  fixed l hl := by
    have hne : l ≠ lba := by
      rintro rfl
      exact hl.not_inData hlba
    rw [poss_write_of_ne _ _ hne]
    exact h.fixed l hl
  sound := by
    obtain ⟨v, hd, leaked, hacc⟩ := h.sound
    rw [view_write]
    exact ⟨_, hd.setData s hlba, leaked, hacc.congr (fun _ _ => rfl) fun _ _ => rfl⟩

theorem sync (h : Steady L d₀ txs σ) : Steady L d₀ txs σ.sync where
  clear := by rw [Clear, poss_sync, view_eq_of_poss_subset h.clear.subset]
  fixed lba hlba := by rw [poss_sync, h.view_eq hlba]
  sound := h.sound

variable {tx : Transaction}

/-- The transaction `tx` may be made on the device `σ`. -/
theorem applied_of_callable (h : Steady L d₀ txs σ)
    (hc : (contract L).callable tx σ.view) (hlba : L.Fixed lba) :
    commitEffect L tx.entries σ.view lba = applied (txs ++ [tx]) d₀ lba := by
  rw [commitEffect_of_not_inJournal _ hc.1.bound hlba.not_inJournal, applied_concat]
  exact applyWrites_congr _ (h.view_eq hlba)

theorem of_base (h : Steady L d₀ txs σ) (hclear : Clear L σ')
    (hbase : ∀ lba, L.Fixed lba → σ'.poss lba ⊆ σ.poss lba) : Steady L d₀ txs σ' := by
  obtain ⟨v, hd, hsound⟩ := h.sound
  exact .of_fixed hclear
    (fun lba hlba => (hbase lba hlba).trans (h.fixed lba hlba).subset) hd hsound
    fun lba hlba => h.view_eq hlba

theorem of_new (h : Steady L d₀ txs σ) (hc : (contract L).callable tx σ.view) (hclear : Clear L σ')
    (hnew : ∀ lba, L.Fixed lba → σ'.poss lba ⊆ newBound σ.poss tx.entries lba) :
    Steady L d₀ (txs ++ [tx]) σ' := by
  obtain ⟨hE, hmeta, v, hd, hsound⟩ := hc
  refine .of_fixed hclear (fun lba hlba s hs => ?_) hd hsound
    fun lba hlba => h.applied_of_callable ⟨hE, hmeta, v, hd, hsound⟩ hlba
  rw [applied_concat]
  rcases hnew lba hlba hs with hs | ⟨hlba', hs⟩
  · exact (applyWrites_of_mem (w := (lba, s)) _ hE.nodup hs).symm
  · rw [applyWrites_of_not_mem _ hlba', ← h.fixed lba hlba]
    exact hs

/-- **A successful transaction.** -/
theorem commits (h : Steady L d₀ txs σ) (hc : (contract L).callable tx σ.view)
    (hx : Commits L faulty tx σ (some (.ok ())) σ') :
    Steady L d₀ (txs ++ [tx]) σ' ∧ σ'.view = commitEffect L tx.entries σ.view := by
  obtain ⟨t, hx⟩ := hx
  have hdone := ((hx.safe (safe_commitTransaction hc.1 (within_before h.clear))).2 _ rfl).within
  refine ⟨h.of_new hc (Cache.Within.of_done hc.1 hdone).1 fun lba hlba s hs => ?_, ?_⟩
  · exact (mem_done_of_not_inJournal hlba.not_inJournal).mp (hdone lba hs)
  · exact (Wp.of_exec (wp_commitTransaction _ _ _) hx).2

theorem crash (h : Steady L d₀ txs σ) (hd : σ.CrashImage d) : Steady L d₀ txs (.ofDisk d) := by
  refine h.of_base ?_ fun lba _ => ?_
  · rw [Clear, poss_ofDisk, Set.singleton_eq_singleton_iff]
    exact h.clear.subset (hd.mem_poss L.journalLba)
  · rw [poss_ofDisk, Set.singleton_subset_iff]
    exact hd.mem_poss lba

theorem mounts (h : Steady L d₀ txs (.ofDisk d)) : Mounts L d := by
  obtain ⟨v, hd, -⟩ := h.sound
  exact hd.mounts

theorem header (h : Steady L d₀ txs (.ofDisk d)) : d L.journalLba = zeroSector :=
  view_eq_of_poss_subset h.clear.subset

/-- **Recovery** after a power failure between transactions. -/
theorem recovers (h : Steady L d₀ txs σ) (hd : σ.CrashImage d) :
    Mounts L d ∧ ∀ faulty σ', Recovery L faulty d σ' → Steady L d₀ txs σ' :=
  ⟨(h.crash hd).mounts, fun _ _ hrec => hrec.of_zero (h.crash hd).header ▸ h.crash hd⟩

end Steady

/-! ### Transactions that fail or are cut -/

section Broken

variable {L : Layout} {d d₀ : ℕ → Sector} {txs : List Transaction} {faulty : Prop}
  {σ σ' : Cache Sector} {base : ℕ → Set Sector} {entries : List (ℕ × Sector)}

/-- A transaction that is begun on a steady device, wherever it is cut. -/
structure Broken (L : Layout) (d₀ : ℕ → Sector) (txs : List Transaction) (tx : Transaction)
    (σ σ' : Cache Sector) : Prop where
  steady : Steady L d₀ txs σ
  callable : (contract L).callable tx σ.view
  recoverable : Recoverable L σ.poss tx.entries σ'

theorem Steady.broken (h : Steady L d₀ txs σ) {tx : Transaction}
    (hc : (contract L).callable tx σ.view) {r : Option (Except DfsError Unit)}
    (hx : Commits L faulty tx σ r σ') : Broken L d₀ txs tx σ σ' := by
  obtain ⟨t, hx⟩ := hx
  exact ⟨h, hc, (hx.safe (safe_commitTransaction hc.1 (within_before h.clear))).1⟩

theorem Recoverable.of_clear (h : Recoverable L base entries σ) (hclear : Clear L σ) :
    (∀ lba, ¬ L.InJournal lba → σ.poss lba ⊆ base lba) ∨
      ∀ lba, ¬ L.InJournal lba → σ.poss lba ⊆ newBound base entries lba := by
  obtain ⟨ph, h⟩ := h
  cases ph with
  | before =>
    exact Or.inl fun lba hj s hs => (mem_before_of_not_inJournal hj).mp (h lba hs)
  | committing =>
    exact Or.inl fun lba hj s hs => (mem_areaBound_of_not_inJournal hj).mp (h lba hs)
  | clearing =>
    exact Or.inr fun lba hj s hs => (mem_areaBound_of_not_inJournal hj).mp (h lba hs)
  | done =>
    exact Or.inr fun lba hj s hs => (mem_done_of_not_inJournal hj).mp (h lba hs)
  | applying =>
    have hz : zeroSector ∈ phaseBound L base entries .applying L.journalLba :=
      h _ (by rw [hclear]; rfl)
    simp only [phaseBound, areaBound, if_true, Set.mem_singleton_iff] at hz
    exact absurd hz.symm transactionHeader_ne_zeroSector

namespace Broken

variable {tx : Transaction}

/-- **The next operation** finds the transaction absent or applied, if the commit record is
cleared. -/
theorem of_clear (h : Broken L d₀ txs tx σ σ') (hclear : Clear L σ') :
    Steady L d₀ txs σ' ∨ Steady L d₀ (txs ++ [tx]) σ' := by
  rcases h.recoverable.of_clear hclear with hr | hr
  · exact Or.inl (h.steady.of_base hclear fun lba hlba => hr lba hlba.not_inJournal)
  · exact Or.inr (h.steady.of_new h.callable hclear fun lba hlba => hr lba hlba.not_inJournal)

theorem crash_of_header (h : Broken L d₀ txs tx σ σ') (hd : σ'.CrashImage d)
    (hheader : d L.journalLba = zeroSector) :
    Steady L d₀ txs (.ofDisk d) ∨ Steady L d₀ (txs ++ [tx]) (.ofDisk d) := by
  obtain ⟨ph, hph⟩ := h.recoverable
  refine Broken.of_clear ⟨h.steady, h.callable, ph, within_ofDisk.mpr (hph.crashImage hd)⟩ ?_
  rw [Clear, poss_ofDisk, hheader]

/-- The next mount completes the transaction if it has been published. -/
theorem mounts (h : Broken L d₀ txs tx σ σ') (hd : σ'.CrashImage d) : Mounts L d := by
  have hzero : d L.journalLba = zeroSector → Mounts L d := fun hheader =>
    (h.crash_of_header hd hheader).elim Steady.mounts Steady.mounts
  obtain ⟨ph, hph⟩ := h.recoverable
  rcases Phase.restart (hph.crashImage hd) with hph | hph | hph
  · exact hzero (mem_before_header.mp (hph L.journalLba))
  swap
  · exact hzero (mem_done_header.mp (hph L.journalLba))
  obtain ⟨d', hreplay, hd'⟩ := run_replayJournal h.callable.1 hph
  have hsteady : Steady L d₀ (txs ++ [tx]) (.ofDisk d') := by
    refine h.steady.of_new h.callable ?_ fun lba hlba => ?_
    · rw [Clear, poss_ofDisk, mem_done_header.mp (hd' L.journalLba)]
    · rw [poss_ofDisk, Set.singleton_subset_iff]
      exact (mem_done_of_not_inJournal hlba.not_inJournal).mp (hd' lba)
  obtain ⟨v, hrep, -⟩ := hsteady.sound
  obtain ⟨v₀, hrep₀, -⟩ := h.steady.sound
  have hstart : L.Fixed L.startLba := Or.inl rfl
  have hsuper : d L.startLba = σ.view L.startLba := by
    rcases (mem_areaBound_of_not_inJournal hstart.not_inJournal).mp (hph L.startLba) with hmem |
      hmem
    · exact absurd rfl (h.callable.2.1 _ hmem).ne_startLba
    · rw [h.steady.fixed _ hstart] at hmem
      rw [h.steady.view_eq hstart]
      exact hmem
  exact congrArg Prod.fst (run_mount (hsuper ▸ hrep₀.super) hreplay (hrep.node 0 (by decide))
    hrep.root.1 hrep.root.2)

/-- **Recovery** after a transaction that failed or was cut. -/
theorem recovers (h : Broken L d₀ txs tx σ σ') (hd : σ'.CrashImage d) :
    Mounts L d ∧ ∀ faulty σ'', Recovery L faulty d σ'' →
      Steady L d₀ txs σ'' ∨ Steady L d₀ (txs ++ [tx]) σ'' := by
  refine ⟨h.mounts hd, fun faulty σ'' hrec => ?_⟩
  obtain ⟨ph, hph⟩ := h.recoverable
  rcases hrec.of_recoverable h.callable.1 (hph.crashImage hd) with hw | hw
  · obtain ⟨hclear, hbase⟩ := Cache.Within.of_before hw
    exact Or.inl (h.steady.of_base hclear fun lba hlba => hbase lba hlba.not_inJournal)
  · refine Or.inr (h.steady.of_new h.callable (Cache.Within.of_done h.callable.1 hw).1
      fun lba hlba s hs => ?_)
    exact (mem_done_of_not_inJournal hlba.not_inJournal).mp (hw lba hs)

end Broken

/-! ### Operations -/

/-- **How far an operation comes** on a device that fails or loses power. -/
theorem Performs.settled (h : Steady L d₀ txs σ) {v : Vol} (hd : Represents L σ.view v)
    {leaked : ℕ → Prop} (hacc : v.Accounted L leaked) {op : Operation}
    {t : List (Transaction × Option (Except DfsError Unit))} {o : Option (Except DfsError Unit)}
    (hx : Performs L faulty op σ t o σ') :
    Settled (Commits L faulty) faulty (contract L) (Steady L d₀)
      (fun r d' => ∃ v', Represents L d' v' ∧ v'.Accounted L leaked ∧ op.Outcome L v r v')
      txs t o σ' :=
  Prog.Wp.settled_or_broken (fun _ _ _ s hs hlba => hs.write s hlba) (fun _ _ hs => hs.sync)
    (fun _ _ _ _ hs hc hx => hs.commits hc hx) hx h
    (wp_program hd hacc op fun _ _ v' hd' hacc' hout => ⟨v', hd', hacc', hout⟩)

end Broken

end ImagineOS.Dfs
