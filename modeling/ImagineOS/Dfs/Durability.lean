import ImagineOS.Dfs.Sessions

/-!
# DFS: what survives failures and power failures

Three statements about what later mounts find. A transaction that is cut is applied as a whole or
not at all. A session on a device that fails, cut anywhere, leaves the metadata that some of its
transactions make: all those that succeeded, and possibly some of those that did not. And on a
device that does not fail, space is accounted for exactly between operations, and up to a leak after
a power failure.
-/

namespace ImagineOS.Dfs

open BlockProgram Fallible Cache

/-! ### A sample volume -/

/-- A partition of 4 MiB behind a partition table. -/
def sampleLayout : Layout where
  startLba := 1
  sectors := 8191
  fits := by decide
  rounds := by decide
  bounded := by decide

theorem validUtf8_sample : validUtf8 [97] := rfl

/-- The path `a`. -/
def samplePath : Path := ⟨[97], validUtf8_sample, by decide, Or.inr (by decide)⟩

/-- The directory `a`, as `create_directory` stores it. -/
def sampleNode : Node := newNode samplePath nodeDirectory 0o755 0 0

/-- The volume that `format` makes on a blank disk. -/
def sampleVol : Vol := formatVol sampleLayout fun _ => zeroSector

/-- `format` leaves the disk `d₀`, whatever was on the disk before. -/
def Formats (L : Layout) (d₀ : ℕ → Sector) : Prop :=
  ∃ d, (format L.startLba L.sectors).run.run (commitRun L) d = (.ok L, d₀)

/-- Every sector is accounted for: none is leaked. -/
def Vol.Exact (L : Layout) (v : Vol) : Prop := v.Accounted L fun _ => False

/-- The volume that `format` makes. -/
theorem Formats.exact {L : Layout} {d₀ : ℕ → Sector} (h : Formats L d₀) :
    ∃ v, Represents L d₀ v ∧ v.Exact L := by
  obtain ⟨d, hformat⟩ := h
  obtain ⟨d', hrun, hrep⟩ := run_format L d
  obtain rfl : d' = d₀ := congrArg Prod.snd (hrun.symm.trans hformat)
  exact ⟨_, hrep, formatVol_accounted d⟩

theorem formats_sample : ∃ d₀, Formats sampleLayout d₀ ∧ Represents sampleLayout d₀ sampleVol := by
  obtain ⟨d₀, hrun, hrep⟩ := run_format sampleLayout fun _ => zeroSector
  exact ⟨d₀, ⟨_, hrun⟩, hrep⟩

/-! ### One transaction -/

section Atomic

variable {L : Layout} {tx : Transaction} {faulty : Prop} {σ₀ σ : Cache Sector}

/-- **Crash atomicity.** The journal header is cleared when `commit_transaction` begins; the run
is cut anywhere; power failures at any point of later mounts follow. After the first mount that
completes, the header is cleared, a sector outside the transaction and the journal holds what it
may have held before, and the targets all hold their new contents or all hold what they may have
held before. If the commit had succeeded they hold their new contents. -/
theorem commitTransaction_crash_atomic (hclear : σ₀.poss L.journalLba = {zeroSector})
    (hE : Admissible L tx.entries) {t : List (Empty × Option (Except DfsError Unit))}
    {o : Option (Except DfsError Unit)}
    (hx : Exec noCallee faulty (commitTransaction L tx).run σ₀ t o σ) {d : ℕ → Sector}
    (hcrash : σ.CrashImage d) {σ' : Cache Sector} (hrec : Recovery L faulty d σ') :
    σ'.poss L.journalLba = {zeroSector} ∧
      (∀ lba, ¬ L.InJournal lba → lba ∉ tx.entries.map Prod.fst → σ'.poss lba ⊆ σ₀.poss lba) ∧
      ((∀ e ∈ tx.entries, σ'.poss e.1 = {e.2}) ∨
        (o ≠ some (.ok ()) ∧ ∀ e ∈ tx.entries, σ'.poss e.1 ⊆ σ₀.poss e.1)) := by
  obtain ⟨⟨ph, hph⟩, hok⟩ := hx.safe (safe_commitTransaction hE (within_before hclear))
  by_cases ho : o = some (.ok ())
  · have hd := (hok _ ho).within.crashImage hcrash
    have hheader := mem_done_header.mp (hd L.journalLba)
    have hdone : σ'.Within (phaseBound L σ₀.poss tx.entries .done) := by
      rw [hrec.of_zero hheader]
      exact Cache.within_ofDisk.mpr hd
    obtain ⟨hz, hnew, hrest⟩ := Cache.Within.of_done hE hdone
    exact ⟨hz, hrest, Or.inl hnew⟩
  · rcases hrec.of_recoverable hE (hph.crashImage hcrash) with h | h
    · obtain ⟨hz, hrest⟩ := Cache.Within.of_before h
      exact ⟨hz, fun lba hj _ => hrest lba hj,
        Or.inr ⟨ho, fun e he => hrest _ (hE.not_inJournal he)⟩⟩
    · obtain ⟨hz, hnew, hrest⟩ := Cache.Within.of_done hE h
      exact ⟨hz, hrest, Or.inl hnew⟩


/-- A commit that succeeds, a power failure, and the mount after it, on the sample volume. -/
theorem commitTransaction_crash_atomic_sample : ∃ d₀ σ σ', Formats sampleLayout d₀ ∧
    Exec noCallee False (commitTransaction sampleLayout (nodeUpdate sampleLayout 1 sampleNode)).run
      (.ofDisk d₀) [] (some (.ok ())) σ ∧
    Recovery sampleLayout False σ.view σ' ∧
    σ'.poss (sampleLayout.inodeLba + 1) = {encodeNode sampleNode} := by
  obtain ⟨d₀, hformats, hrep⟩ := formats_sample
  set tx := nodeUpdate sampleLayout 1 sampleNode with htx
  obtain ⟨σ, hx, hview⟩ := exec_run False (commitTransaction sampleLayout tx).run
    (.ofDisk d₀)
  have hcommit := commitRun_eq sampleLayout tx d₀
  have hok := congrArg Prod.fst hcommit
  have hdisk := congrArg Prod.snd hcommit
  simp only [commitRun] at hok hdisk
  rw [Cache.view_ofDisk, hok] at hx
  rw [Cache.view_ofDisk, hdisk] at hview
  have hvalid : sampleNode.Valid := newNode_valid (Or.inr rfl)
  have hrep' := Represents.of_commit (hrep.toHolds.storeNode (i := 1) (by decide) hvalid)
    hrep.root
  rw [← hview] at hrep'
  obtain ⟨σ', hrec⟩ := hrep'.recovery False
  have hentry : (sampleLayout.inodeLba + 1, encodeNode sampleNode) ∈ tx.entries :=
    List.mem_singleton_self _
  have hadm : Admissible sampleLayout tx.entries := by
    refine ⟨by simp [htx, nodeUpdate], tx.bound, by simp [htx, nodeUpdate], ?_⟩
    rintro e he
    rw [List.mem_singleton.mp he]
    exact (Layout.inMeta_inode (by decide)).targetable
  obtain ⟨-, -, hnew | ⟨hne, -⟩⟩ := commitTransaction_crash_atomic
    (by rw [Cache.poss_ofDisk, hrep.header]) hadm hx σ.crashImage_view hrec
  · exact ⟨d₀, σ, σ', hformats, hx, hrec, hnew _ hentry⟩
  · exact absurd rfl hne

end Atomic

/-! ### Sessions -/

/-- Complete operations on one mounted volume, each begun on a device that satisfies `pre`, with
the transactions they make and their answers. -/
inductive Session (L : Layout) (faulty : Prop) (pre : Cache Sector → Prop) (σ₀ : Cache Sector) :
    List (Transaction × Option (Except DfsError Unit)) → Cache Sector → Prop
  | start : Session L faulty pre σ₀ [] σ₀
  | perform {h t : List (Transaction × Option (Except DfsError Unit))} {op : Operation}
      {r : Except DfsError Unit} {σ σ' : Cache Sector} (hs : Session L faulty pre σ₀ h σ)
      (hpre : pre σ) (hx : Performs L faulty op σ t (some r) σ') :
      Session L faulty pre σ₀ (h ++ t) σ'

/-- Each transaction is applied or absent, and applied if it succeeded. -/
inductive Kept : List (Transaction × Option (Except DfsError Unit)) → List Transaction → Prop
  | nil : Kept [] []
  | applied {tx : Transaction} {r : Option (Except DfsError Unit)}
      {h : List (Transaction × Option (Except DfsError Unit))} {txs : List Transaction}
      (hk : Kept h txs) : Kept ((tx, r) :: h) (tx :: txs)
  | absent {tx : Transaction} {r : Option (Except DfsError Unit)}
      {h : List (Transaction × Option (Except DfsError Unit))} {txs : List Transaction}
      (hr : r ≠ some (.ok ())) (hk : Kept h txs) : Kept ((tx, r) :: h) txs

theorem Kept.append {h h' : List (Transaction × Option (Except DfsError Unit))}
    {txs txs' : List Transaction} (hk : Kept h txs) (hk' : Kept h' txs') :
    Kept (h ++ h') (txs ++ txs') := by
  induction hk with
  | nil => exact hk'
  | applied _ ih => exact .applied ih
  | absent hr _ ih => exact .absent hr ih

theorem kept_of_ok (txs : List Transaction) :
    Kept (txs.map fun tx => (tx, some (.ok ()))) txs := by
  induction txs with
  | nil => exact .nil
  | cons tx txs ih => exact .applied ih

section Sessions

variable {L : Layout} {d d₀ : ℕ → Sector} {txs : List Transaction} {faulty : Prop}
  {σ₀ σ σ' : Cache Sector} {op : Operation}
  {h t : List (Transaction × Option (Except DfsError Unit))} {o : Option (Except DfsError Unit)}

theorem Performs.steady_or_broken (hs : Steady L d₀ txs σ) (hx : Performs L faulty op σ t o σ') :
    (∃ cs, Kept t cs ∧ Steady L d₀ (txs ++ cs) σ') ∨
      ∃ cs tx σ₁, Kept t cs ∧ Kept t (cs ++ [tx]) ∧ Broken L d₀ (txs ++ cs) tx σ₁ σ' := by
  obtain ⟨v, hd, leaked, hacc⟩ := hs.sound
  cases hx.settled hs hd hacc with
  | settled cs ht hJ _ => exact Or.inl ⟨cs, ht ▸ kept_of_ok cs, hJ⟩
  | broken cs tx r σ₁ ht hr _ hJ hc hcallee _ =>
    subst ht
    refine Or.inr ⟨cs, tx, σ₁, ?_, (kept_of_ok cs).append (.applied .nil), hJ.broken hc hcallee⟩
    simpa using (kept_of_ok cs).append (.absent hr .nil)

theorem Session.steady (hs : Session L faulty (Clear L) σ₀ h σ) (h₀ : Steady L d₀ [] σ₀)
    (hclear : Clear L σ) : ∃ txs, Kept h txs ∧ Steady L d₀ txs σ := by
  induction hs with
  | start => exact ⟨[], .nil, h₀⟩
  | perform _ hpre hx ih =>
    obtain ⟨txs, hk, hsteady⟩ := ih hpre
    rcases hx.steady_or_broken hsteady with ⟨cs, hcs, hsteady'⟩ | ⟨cs, tx, σ₁, hcs, hcs', hbroken⟩
    · exact ⟨_, hk.append hcs, hsteady'⟩
    · rcases hbroken.of_clear hclear with hsteady' | hsteady'
      · exact ⟨_, hk.append hcs, hsteady'⟩
      · rw [List.append_assoc] at hsteady'
        exact ⟨_, hk.append hcs', hsteady'⟩

theorem Performs.recovers (hs : Steady L d₀ txs σ) (hx : Performs L faulty op σ t o σ')
    (hd : σ'.CrashImage d) :
    Mounts L d ∧ ∀ faulty' σ'', Recovery L faulty' d σ'' →
      ∃ cs, Kept t cs ∧ Steady L d₀ (txs ++ cs) σ'' := by
  rcases hx.steady_or_broken hs with ⟨cs, hcs, hsteady⟩ | ⟨cs, tx, σ₁, hcs, hcs', hbroken⟩
  · obtain ⟨hmounts, hrec⟩ := hsteady.recovers hd
    exact ⟨hmounts, fun f σ'' h => ⟨cs, hcs, hrec f σ'' h⟩⟩
  · obtain ⟨hmounts, hrec⟩ := hbroken.recovers hd
    refine ⟨hmounts, fun f σ'' h => ?_⟩
    rcases hrec f σ'' h with h | h
    · exact ⟨cs, hcs, h⟩
    · rw [List.append_assoc] at h
      exact ⟨_, hcs', h⟩

end Sessions

/-! ### A transaction whose last flush fails -/

section Stale

variable {L : Layout} {d : ℕ → Sector} {v : Vol} {faulty : Prop} {σ σ' : Cache Sector}
  {callee : Transaction → Cache Sector → Option (Except DfsError Unit) → Cache Sector → Prop}
  {t : List (Transaction × Option (Except DfsError Unit))}

variable {i : ℕ}

theorem exec_createNode (hd : Holds L σ.view v) {path : Path} {kind : UInt8} {mode : UInt16}
    {uid gid : UInt32} {node : Node} (hnew : v.create path kind mode uid gid = .ok (i, node))
    {o : Option (Except DfsError ℕ)} (hx : Exec callee faulty (do
      Fallible.call (nodeUpdate L i (newNode path kind mode uid gid))
      pure i : DfsProgram Transaction ℕ).run σ t o σ') :
    Exec callee faulty (createNode L path kind mode uid gid).run σ t o σ' := by
  obtain ⟨hfound, ⟨a, hfind, hdir⟩, hfree, -⟩ := Vol.create_eq_ok hnew
  have hi := (Vol.findFree_eq_some hfree).2.1
  refine exec_bind_reads (reads_findNode hd _) ?_
  rw [hfound, Option.map_none, if_neg (by simp)]
  refine exec_bind_reads (reads_findNode hd _) ?_
  rw [hfind, Option.map_some, if_neg (by simp [hdir])]
  refine exec_bind_reads (reads_findFree hd) ?_
  simp only [hfree]
  rw [storeNode_eq hi]
  exact hx

theorem exec_createDirectory (hd : Holds L σ.view v) {path : Str} {p : Path}
    (hp : canonicalPath path = .ok p) (hne : p.bytes ≠ []) {mode : UInt16} {uid gid : UInt32}
    {node : Node} (hnew : v.create p nodeDirectory mode uid gid = .ok (i, node)) {e : DfsError}
    (hc : callee (nodeUpdate L i (newNode p nodeDirectory mode uid gid)) σ (some (.error e)) σ') :
    Exec callee faulty (createDirectory L path mode uid gid).run σ
      [(nodeUpdate L i (newNode p nodeDirectory mode uid gid), some (.error e))]
      (some (.error e)) σ' := by
  have hpath : (ofExcept (canonicalPath path) : DfsProgram Transaction Path).run.Reads σ.view
      (.ok p) := hp
  refine exec_bind_reads hpath ?_
  rw [if_neg hne]
  exact exec_bind_error (exec_createNode hd hnew (.call hc (.pure _ _)))

theorem exec_remove (hd : Holds L σ.view v) {path : Str} {p : Path}
    (hp : canonicalPath path = .ok p) (hne : p.bytes ≠ []) (hfind : v.find p.bytes = some i)
    (hdir : (v.nodes i).kind = nodeDirectory) (hleaf : v.findChild p.bytes = none)
    {recursive : Bool} (hc : callee (nodeUpdate L i .empty) σ none σ') :
    Exec callee faulty (remove L path recursive).run σ [(nodeUpdate L i .empty, none)] none σ' := by
  have hpath : (ofExcept (canonicalPath path) : DfsProgram Transaction Path).run.Reads σ.view
      (.ok p) := hp
  have hi := (Vol.find_eq_some hfind).1
  have hchild := reads_findChild (C := Transaction) hd p.bytes
  rw [hleaf] at hchild
  refine exec_bind_reads hpath ?_
  rw [if_neg hne]
  refine exec_bind_reads (reads_findIndex hd _) ?_
  simp only [hfind]
  refine exec_bind_reads (reads_readNode hd hi) ?_
  rw [if_pos hdir]
  refine exec_bind_reads (reads_bind hchild rfl) ?_
  rw [storeNode_eq hi]
  exact Exec.bind_none (.callCut hc)

/-- The device after a transaction with one target whose last flush failed. -/
def unsettled (L : Layout) (target : ℕ) (s : Sector) (σ : Cache Sector) : Cache Sector :=
  ((((σ.write (L.journalLba + 1) s).sync.write L.journalLba
    (transactionHeader [(target, s)])).sync.write target s).sync).write L.journalLba zeroSector

variable {target : ℕ} {s : Sector}

theorem commits_unsettled {tx : Transaction} (htx : tx.entries = [(target, s)]) (e : BlockError) :
    Commits L True tx σ (some (.error (.block e))) (unsettled L target s σ) := by
  refine ⟨[], ?_⟩
  obtain ⟨entries, hbound⟩ := tx
  obtain rfl : entries = [(target, s)] := htx
  exact .write (.flush (.write (.flush (.write (.flush (.write
    (.flushFailed trivial e (.pure _ _))))))))

theorem view_unsettled (target : ℕ) (s : Sector) :
    (unsettled L target s σ).view = commitEffect L [(target, s)] σ.view := by
  simp only [unsettled, view_write, view_sync]
  rfl

theorem media_unsettled (s s' : Sector) (htarget : L.InMeta target) :
    let d := applyWrites [(L.journalLba + 1, s')] (unsettled L target s σ).media
    d L.startLba = σ.view L.startLba ∧ d L.journalLba = transactionHeader [(target, s)] ∧
      d (L.journalLba + 1) = s' := by
  have hmedia : (unsettled L target s σ).media = Function.update (Function.update
      (Function.update σ.view (L.journalLba + 1) s) L.journalLba
        (transactionHeader [(target, s)])) target s := by
    have hlast : ∀ (τ : Cache Sector) lba s, (τ.sync.write lba s).media = τ.view := fun _ _ _ => rfl
    rw [unsettled, hlast, view_write, view_sync, view_write, view_sync,
      view_write]
  obtain ⟨hj, hi, -, -, -, -, -, -⟩ := L.offsets
  have hlow := htarget.1
  rw [hmedia]
  refine ⟨?_, ?_, ?_⟩ <;>
  · simp only [applyWrites, Function.update_apply]
    split_ifs <;> first | rfl | omega

theorem commits_cut {tx : Transaction} (htx : tx.entries = [(target, s)]) :
    Commits L faulty tx σ none (σ.write (L.journalLba + 1) s) := by
  refine ⟨[], ?_⟩
  obtain ⟨entries, hbound⟩ := tx
  obtain rfl : entries = [(target, s)] := htx
  exact .write (.stop _ _)

/-- A mount refuses a commit record whose payload has another checksum. -/
theorem not_mounts_of_checksum {s' : Sector} (htarget : L.Targetable target)
    (hsuper : checkSuperblock L.startLba L.sectors (d L.startLba) = .ok L)
    (hheader : d L.journalLba = transactionHeader [(target, s)])
    (hpayload : d (L.journalLba + 1) = s')
    (hne : transactionChecksum [(target, s')] ≠ transactionChecksum [(target, s)]) :
    ¬ Mounts L d := by
  have hread : (readSuperblock L.startLba L.sectors : DfsProgram Empty Layout).run.Reads d
    (.ok L) :=
    hsuper
  have h64 : target < 2 ^ 64 := htarget.1.2.trans L.bounded
  have hslice : leNat ((transactionHeader [(target, s)]).slice (16 + 0 * 8) 8) = target :=
    @slice_header_target [(target, s)] 0 (show 1 ≤ transactionSectors by decide)
      (show 0 < 1 by decide) h64
  have hentries : (readEntries L (transactionHeader [(target, s)]) 0 1).run.Reads d
      (.ok [(target, s')]) := by
    simp only [readEntries, hslice, if_pos htarget]
    refine reads_bind (reads_readSector _ _ _) ?_
    rw [Nat.add_zero, hpayload]
    exact rfl
  have hrecord : (readSector L.journalLba : DfsProgram Empty Sector).run.Reads d
      (.ok (transactionHeader [(target, s)])) := by
    rw [← hheader]
    exact reads_readSector _ _ _
  have hreplay : (replayJournal L).run.run (fun c => c.elim) d = (.error .corruptMetadata, d) := by
    rw [replayJournal, run_bind_eq (hrecord.run _), andThen_ok,
      if_neg (by rw [isZero_iff]; exact transactionHeader_ne_zeroSector),
      if_neg (by rw [slice_header_magic]; simp), if_neg (by rw [byte_header_state]; decide)]
    simp only [byte_header_state, byte_header_count, List.length_singleton]
    rw [if_neg (by decide), show (UInt8.ofNat 1).toNat = 1 from rfl, run_bind_eq (hentries.run _),
      andThen_ok, if_pos]
    · rfl
    · rw [slice_header_checksum]
      exact fun h => hne (UInt32.toNat_inj.mp h)
  rw [Mounts, mount, run_bind_eq (hread.run _), andThen_ok, run_bind_eq hreplay, andThen_error]
  simp [Prog.run]

/-- On the sample volume the directory `a` can be created, and then removed. -/
theorem create_sample :
    sampleVol.create samplePath nodeDirectory 0o755 0 0 = .ok (1, sampleNode.stored) ∧
    (sampleVol.setNode 1 sampleNode.stored).find [97] = some 1 ∧
    (sampleVol.setNode 1 sampleNode.stored).findChild [97] = none := by
  decide +kernel

/-- The payloads of the two transactions have different checksums. -/
theorem transactionChecksum_sample :
    transactionChecksum [(sampleLayout.inodeLba + 1, zeroSector)] ≠
      transactionChecksum [(sampleLayout.inodeLba + 1, encodeNode sampleNode)] := by
  decide +kernel

/-- `create_directory("a")` on the sample volume, when its last flush fails. -/
theorem performs_unsettled {d₀ : ℕ → Sector} (hrep : Represents sampleLayout d₀ sampleVol) :
    ∃ t e, Performs sampleLayout True (.createDirectory ⟨[97], rfl⟩ 0o755 0 0) (.ofDisk d₀) t
      (some (.error e)) (unsettled sampleLayout (sampleLayout.inodeLba + 1) (encodeNode sampleNode)
        (.ofDisk d₀)) :=
  ⟨_, _, exec_createDirectory (σ := .ofDisk d₀) hrep.toHolds (p := samplePath) rfl (by decide)
    create_sample.1 (commits_unsettled rfl .timeout)⟩

end Stale

/-! ### Sessions on a device that fails -/

section Failing

variable {L : Layout} {d d₀ : ℕ → Sector} {txs : List Transaction} {σ₀ σ σ' : Cache Sector}
  {op : Operation} {h t : List (Transaction × Option (Except DfsError Unit))}
  {o : Option (Except DfsError Unit)}

/-- The devices on which sessions begin: after `format`, and after a session that a power failure
ends and the mounts that follow. -/
inductive Mounted (L : Layout) : Cache Sector → Prop
  | format {d₀ : ℕ → Sector} (hformat : Formats L d₀) : Mounted L (.ofDisk d₀)
  | recovered {σ₀ σ σ₁ σ' : Cache Sector}
      {h t : List (Transaction × Option (Except DfsError Unit))} {op : Operation}
      {o : Option (Except DfsError Unit)} {d : ℕ → Sector} (h₀ : Mounted L σ₀)
      (hs : Session L True (Clear L) σ₀ h σ) (hclear : Clear L σ)
      (hx : Performs L True op σ t o σ₁) (hd : σ₁.CrashImage d) (hrec : Recovery L True d σ') :
      Mounted L σ'

theorem Steady.self (hs : Steady L d₀ txs σ) : Steady L σ.view [] σ where
  clear := hs.clear
  fixed lba hlba := by rw [hs.fixed lba hlba, ← hs.view_eq hlba]; rfl
  sound := hs.sound

theorem Mounted.steady (h : Mounted L σ) : Steady L σ.view [] σ := by
  induction h with
  | format hformat =>
    obtain ⟨v, hrep, hacc⟩ := hformat.exact
    exact Steady.ofDisk hrep hacc.sound
  | recovered _ hs hclear hx hd hrec ih =>
    obtain ⟨txs, -, hsteady⟩ := hs.steady ih hclear
    obtain ⟨cs, -, hsteady'⟩ := (hx.recovers hsteady hd).2 _ _ hrec
    exact hsteady'.self

/-- **A session on a device that fails**, each operation begun with the commit record cleared. The
last operation may be cut, and power failures may interrupt the mounts that follow. A mount on a
device that never fails succeeds; and the first mount that completes finds the metadata that the
session's transactions make, each of them applied or absent, and applied if it succeeded. -/
theorem session_atomic (h₀ : Mounted L σ₀) (hs : Session L True (Clear L) σ₀ h σ)
    (hclear : Clear L σ) (hx : Performs L True op σ t o σ') (hd : σ'.CrashImage d) :
    Mounts L d ∧ ∀ faulty σ'', Recovery L faulty d σ'' →
      ∃ txs, Kept (h ++ t) txs ∧ Clear L σ'' ∧
        ∀ lba, L.Fixed lba → σ''.poss lba = {applied txs σ₀.view lba} := by
  obtain ⟨txs, hk, hsteady⟩ := hs.steady h₀.steady hclear
  obtain ⟨hmounts, hrec⟩ := hx.recovers hsteady hd
  refine ⟨hmounts, fun f σ'' h => ?_⟩
  obtain ⟨cs, hcs, hsteady'⟩ := hrec f σ'' h
  exact ⟨_, hk.append hcs, hsteady'.clear, hsteady'.fixed⟩

/-- The first operation of a session, whose last flush fails, and a power failure. -/
theorem session_atomic_sample : ∃ d₀ t e σ', Formats sampleLayout d₀ ∧
    Performs sampleLayout True (.createDirectory ⟨[97], rfl⟩ 0o755 0 0) (.ofDisk d₀) t
      (some (.error e)) σ' ∧ Mounts sampleLayout σ'.media := by
  obtain ⟨d₀, hformats, hrep⟩ := formats_sample
  obtain ⟨t, e, hx⟩ := performs_unsettled hrep
  have hsteady := (Mounted.format hformats).steady
  exact ⟨d₀, t, e, _, hformats, hx,
    (session_atomic (.format hformats) .start hsteady.clear hx ⟨[], List.nil_sublist _, rfl⟩).1⟩

/-- **A session on a device that fails, without the condition.** The last flush of
`create_directory("a")` fails, so the commit record is still on the media. Then `remove("a")` is
cut after it has written the payload of its own transaction, which reaches the media although the
cleared record does not. The next mount refuses the volume. -/
theorem stale_record_refused : ∃ d₀ h σ t σ' d, Mounted sampleLayout (.ofDisk d₀) ∧
    Session sampleLayout True (fun _ => True) (.ofDisk d₀) h σ ∧
    Performs sampleLayout True (.remove ⟨[97], rfl⟩ false) σ t none σ' ∧ σ'.CrashImage d ∧
    ¬ Mounts sampleLayout d := by
  obtain ⟨d₀, hformats, hrep⟩ := formats_sample
  obtain ⟨t, e, hcreate⟩ := performs_unsettled hrep
  set target := sampleLayout.inodeLba + 1 with htarget
  set σ := unsettled sampleLayout target (encodeNode sampleNode) (.ofDisk d₀) with hσ
  have hvalid : sampleNode.Valid := newNode_valid (Or.inr rfl)
  have hview : Holds sampleLayout σ.view (sampleVol.setNode 1 sampleNode.stored) := by
    rw [hσ, view_unsettled]
    exact hrep.toHolds.storeNode (by decide) hvalid
  have hremove : Performs sampleLayout True (.remove ⟨[97], rfl⟩ false) σ
      [(nodeUpdate sampleLayout 1 .empty, none)] none
      (σ.write (sampleLayout.journalLba + 1) (encodeNode .empty)) :=
    exec_remove hview (p := samplePath) rfl (by decide) create_sample.2.1 rfl create_sample.2.2
      (commits_cut rfl)
  refine ⟨d₀, _, σ, _, _, _, .format hformats, .perform .start trivial hcreate, hremove,
    ⟨[(sampleLayout.journalLba + 1, encodeNode .empty)], ?_, rfl⟩, ?_⟩
  · exact List.sublist_append_right _ _
  · obtain ⟨hstart, hheader, hpayload⟩ := media_unsettled (σ := .ofDisk d₀) (encodeNode sampleNode)
      (encodeNode .empty) (Layout.inMeta_inode (L := sampleLayout) (i := 1) (by decide))
    exact not_mounts_of_checksum (Layout.inMeta_inode (by decide)).targetable
      (hstart ▸ hrep.super) hheader hpayload transactionChecksum_sample

end Failing

/-! ### Space -/

section Space

variable {L : Layout} {d₀ : ℕ → Sector} {σ : Cache Sector}
  {h : List (Transaction × Option (Except DfsError Unit))}

theorem not_commits_error {tx : Transaction} {e : DfsError} {σ' : Cache Sector}
    (hE : Admissible L tx.entries) (hclear : Clear L σ) :
    ¬ Commits L False tx σ (some (.error e)) σ' := by
  rintro ⟨t, hx⟩
  have h := (hx.safe (safe_commitTransaction hE (within_before hclear))).2 _ rfl
  exact absurd (h.of_healthy not_false).1 (by simp)

theorem Session.exact {pre : Cache Sector → Prop} (hs : Session L False pre (.ofDisk d₀) h σ)
    {v₀ : Vol} (hd : Represents L d₀ v₀) (hacc : v₀.Exact L) :
    ∃ txs v, Steady L d₀ txs σ ∧ Represents L σ.view v ∧ v.Exact L := by
  induction hs with
  | start => exact ⟨[], v₀, .ofDisk hd hacc.sound, hd, hacc⟩
  | @perform _ _ _ r _ _ _ _ hx ih =>
    obtain ⟨txs, v, hsteady, hd, hacc⟩ := ih
    cases hx.settled hsteady hd hacc with
    | settled cs _ hJ ho =>
      rcases ho r rfl with ⟨v', hd', hacc', -⟩ | ⟨hf, -⟩
      · exact ⟨_, v', hJ, hd', hacc'⟩
      · exact hf.elim
    | broken cs tx r' σ₁ _ hr hcut hJ hc hcallee _ =>
      cases r' with
      | none => exact absurd (hcut rfl) (by simp)
      | some r' =>
        cases r' with
        | ok u => exact absurd rfl hr
        | error e => exact absurd hcallee (not_commits_error hc.1 hJ.clear)

end Space

end ImagineOS.Dfs
