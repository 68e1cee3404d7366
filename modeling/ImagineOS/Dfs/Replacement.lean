import ImagineOS.Dfs.Failures
import ImagineOS.Dfs.Readers

/-!
# DFS: replacing a file

`write_file_as` empties a file that is there and writes it anew. When there is no room for the new
contents, the old ones are gone already. What there is room for is decided by the sectors that are
free and those that the file gives up.
-/

namespace ImagineOS.Dfs

open BlockProgram Fallible Function Vol

def writeFileAs (L : Layout) (path : Str) (bytes : List UInt8) (mode : UInt16) (uid gid : UInt32) :
    DfsProgram Transaction Unit := do
  if ← Fallible.isOkAnd (stat L path) fun _ => true then truncate L path
  let _ ← writeFile L path 0 bytes true mode uid gid
  pure ()

/-- The file at a path has been replaced, or is as it was. -/
def ReplacedOrKept (L : Layout) (path : Str) (bytes : List UInt8) (d : ℕ → Sector)
    (r : Except DfsError Unit) (d' : ℕ → Sector) : Prop :=
  (r = .ok () ∧ Contains L d' path bytes) ∨
  ((∃ e, r = .error e) ∧ (∀ content, Contains L d path content → Contains L d' path content) ∧
    statOf L d' path = statOf L d path)

/-- There is room for `k` sectors of a new file in the sectors that are free or belong to a node. -/
def Vol.RoomAnew (L : Layout) (v : Vol) (node : Node) (k : ℕ) : Prop :=
  FirstFit.Room (fun lba => v.Free L lba ∨ node.Owns lba) none k maxExtents

section Replace

variable {L : Layout} {d d' : ℕ → Sector} {v v₁ v' : Vol} {path : Str} {p : Path} {i : ℕ}
  {bytes : List UInt8} {mode : UInt16} {uid gid : UInt32}

/-! ### Emptying the file -/

theorem reads_stat {C : Type} (hd : Holds L d v) (hp : canonicalPath path = .ok p)
    (hf : v.find p.bytes = some i) :
    (stat L path : DfsProgram C Overlay.Metadata).run.Reads d (.ok (v.nodes i).metadata) := by
  have hfind := reads_findNode (C := C) hd p.bytes
  rw [hf] at hfind
  have hpath : (ofExcept (canonicalPath path) : DfsProgram C Path).run.Reads d (.ok p) := hp
  exact reads_bind hpath (reads_bind hfind rfl)

/-- **Truncating a file** that is there. -/
theorem run_truncate_file (hv : InOrder L d v) (hnul : (0 : UInt8) ∉ path.val)
    (hp : canonicalPath path = .ok p) (hf : v.find p.bytes = some i)
    (hkind : (v.nodes i).kind = nodeFile) : ∃ d₁ v₁,
      (truncate L path).run.run (commitRun L) d = (.ok (), d₁) ∧ InOrder L d₁ v₁ ∧
      v₁.nodes = Function.update v.nodes i (v.nodes i).cleared := by
  have hd := hv.toRepresents
  have hi := (find_eq_some hf).1
  have hdec := hd.decoded hi
  have hwp : (truncate L path).Wp (contract L) (fun r d₁ => ∃ v₁, r = .ok () ∧
      Represents L d₁ v₁ ∧ v₁.Exact L ∧
      v₁.nodes = update v.nodes i (v.nodes i).cleared ∧ v₁.data = v.data) d := by
    refine wp_bind (wp_ofExcept.mpr ?_)
    rw [hp, thenWp_ok]
    refine wp_bind (wp_findIndex hd _ ?_)
    rw [thenWp_ok, hf]
    refine wp_bind ((wp_readNode hd hi).mpr ?_)
    rw [thenWp_ok, if_neg (not_not.mpr hkind)]
    have hvalid : (v.nodes i).cleared.Valid := Or.inr (Or.inl ⟨hkind, by simp [Node.cleared]⟩)
    have hstored : (v.nodes i).cleared.stored = (v.nodes i).cleared :=
      Node.stored_eq_self (show (v.nodes i).kind ≠ 0 by rw [hkind]; decide) hdec.zero_not_mem
    exact wp_storeNode_release hd hv.exact hi (hd.ne_zero_of_file hkind) hvalid hstored rfl
      fun d₁ v₁ hd₁ hacc₁ hnodes hdata => ⟨v₁, rfl, hd₁, hacc₁, hnodes, hdata⟩
  obtain ⟨v₁, hr, hd₁, hacc₁, hnodes, hdata⟩ := wp_run hwp
  exact ⟨_, v₁, Prod.ext hr rfl, hv.of_outcome (.truncate path) hnul trivial hd₁ hacc₁
    (.truncate (.truncated hp hf hkind hnodes hdata)), hnodes⟩

/-- What is free when a file has been emptied. -/
theorem free_cleared (hacc : v.Exact L) (hacc₁ : v₁.Exact L) (hi : i < inodeCount)
    (hnodes : v₁.nodes = Function.update v.nodes i (v.nodes i).cleared) :
    v₁.Free L = fun lba => v.Free L lba ∨ (v.nodes i).Owns lba := by
  have hself : v₁.nodes i = (v.nodes i).cleared := by rw [hnodes, update_self]
  have hother : ∀ j, j ≠ i → v₁.nodes j = v.nodes j := fun j hj => by
    rw [hnodes, update_of_ne hj]
  funext lba
  refine propext ?_
  by_cases hin : L.InData lba
  swap
  · refine iff_of_false (fun h => hin h.1) ?_
    rintro (h | h)
    · exact hin h.1
    · exact hin (hacc.inData i hi lba h)
  have hlt : ¬ lba < L.dataLba := Nat.not_lt.mpr hin.1
  have hused : v.used lba = false ↔ ¬ v.Owned lba := by
    rw [← Bool.not_eq_true, hacc.used_iff lba hin.inPartition]
    simp [hlt]
  have hused₁ : v₁.used lba = false ↔ ¬ v₁.Owned lba := by
    rw [← Bool.not_eq_true, hacc₁.used_iff lba hin.inPartition]
    simp [hlt]
  rw [Vol.Free, Vol.Free, hused, hused₁]
  constructor
  · rintro ⟨-, hno⟩
    by_contra h
    obtain ⟨hnot, howns⟩ := not_or.mp h
    obtain ⟨j, hj, ho⟩ : v.Owned lba := not_not.mp fun hno' => hnot ⟨hin, hno'⟩
    have hji : j ≠ i := by
      rintro rfl
      exact howns ho
    exact hno ⟨j, hj, by rwa [hother j hji]⟩
  · rintro h
    refine ⟨hin, ?_⟩
    rintro ⟨j, hj, ho⟩
    have hji : j ≠ i := by
      rintro rfl
      rw [hself] at ho
      obtain ⟨e, he, -⟩ := ho
      cases he
    rw [hother j hji] at ho
    rcases h with h | h
    · exact h.2 ⟨j, hj, ho⟩
    · exact hji (hacc.separate j hj i hi lba ho h)

/-! ### Writing it anew -/

theorem WriteEffect.entry_of_error {offset : ℕ} {create : Bool} {e : DfsError}
    (h : WriteEffect L v path offset bytes create mode uid gid (.error e) v')
    (hp : canonicalPath path = .ok p) (hf : v.find p.bytes = some i)
    (hnum : Numbered L (sectorsFor (offset + bytes.length))) (htree : v.Tree) (hsized : v.Sized)
    (hacc : v'.Exact L) : v'.entries p.bytes = v.entries p.bytes := by
  cases h with
  | refused => rfl
  | @existing p' j _ _ hp' hfind hkind h hattr =>
    obtain rfl := Except.ok.inj (hp'.symm.trans hp)
    obtain rfl := Option.some.inj (hfind.symm.trans hf)
    obtain ⟨hi, -, hpath⟩ := htree.find_eq_some.mp hfind
    rw [h.entries htree hacc hi hkind hattr, hpath, update_self,
      h.failed hnum (hsized j hi hkind) e rfl, entries_of_find hf, entry_of_file hkind]
  | created hp' _ _ hnew =>
    obtain rfl := Except.ok.inj (hp'.symm.trans hp)
    rw [(create_eq_ok hnew).1] at hf
    cases hf

/-- **Replacing a file**: it is emptied in any case, and written if there is room. -/
theorem run_writeFileAs (hv : InOrder L d v) (mode : UInt16) (uid gid : UInt32)
    (hnul : (0 : UInt8) ∉ path.val) (hp : canonicalPath path = .ok p) (hf : v.find p.bytes = some i)
    (hkind : (v.nodes i).kind = nodeFile) (hnum : Numbered L (sectorsFor bytes.length))
    (hlen : bytes.length < 2 ^ 64) : ∃ r d' v',
      (writeFileAs L path bytes mode uid gid).run.run (commitRun L) d = (r, d') ∧
      InOrder L d' v' ∧ (r = .ok () ↔ v.RoomAnew L (v.nodes i) (sectorsFor bytes.length)) ∧
      v'.entries p.bytes = some { v.entry (v.nodes i) with
        content := some (if r = .ok () then bytes else []) } := by
  have hi := (find_eq_some hf).1
  obtain ⟨d₁, v₁, htruncate, hv₁, hnodes⟩ := run_truncate_file hv hnul hp hf hkind
  have hself : v₁.nodes i = (v.nodes i).cleared := by rw [hnodes, update_self]
  have hkind₁ : (v₁.nodes i).kind = nodeFile := by rw [hself]; exact hkind
  have hf₁ : v₁.find p.bytes = some i := by
    obtain ⟨-, hk, hpath⟩ := hv.tree.find_eq_some.mp hf
    exact hv₁.tree.find_eq_some.mpr ⟨hi, by rw [hself]; exact hk, by rw [hself]; exact hpath⟩
  have hentry₁ : v₁.entries p.bytes = some { v.entry (v.nodes i) with content := some [] } := by
    rw [entries_of_find hf₁, entry_of_file hkind₁, hself]
    rfl
  have hne : p.bytes ≠ [] := by
    intro hnil
    obtain ⟨-, hk, hpath⟩ := hv.tree.find_eq_some.mp hf
    exact hv.ne_zero_of_file hkind ((hv.tree.root.2 i hi hk).mp (hpath.trans hnil))
  rw [← Nat.zero_add bytes.length] at hnum
  -- The file that has been emptied is written if there is room for it anew.
  have hfits : v₁.WriteFits L path 0 bytes.length true mode uid gid ↔
      v.RoomAnew L (v.nodes i) (sectorsFor bytes.length) := by
    have hroom : v₁.Room L (v₁.nodes i) ((v₁.nodes i).lacks 0 bytes.length) ↔
        v.RoomAnew L (v.nodes i) (sectorsFor bytes.length) := by
      rw [Vol.Room, free_cleared hv.exact hv₁.exact hi hnodes, hself, Node.lacks, Nat.zero_add]
      exact Iff.rfl
    rw [← hroom]
    constructor
    · rintro ⟨p', hp', -, ⟨j, hj, -, -, -, h⟩ | ⟨hj, -⟩⟩
      · obtain rfl := Except.ok.inj (hp'.symm.trans hp)
        obtain rfl := Option.some.inj (hj.symm.trans hf₁)
        exact h
      · obtain rfl := Except.ok.inj (hp'.symm.trans hp)
        rw [hj] at hf₁
        cases hf₁
    · exact fun h => ⟨p, hp, hne, Or.inl ⟨i, hf₁, hkind₁, Nat.zero_le _, by omega, h⟩⟩
  obtain ⟨r, d', v₂, hwrite, hd₂, hw⟩ :=
    run_writeFile_room hv₁ path 0 bytes true mode uid gid hnul hnum
  obtain ⟨v', hd', hacc', heffect⟩ := wp_run (L := L) (d := d₁)
    (Q := fun r d' => ∃ v', Represents L d' v' ∧ v'.Exact L ∧
      WriteEffect L v₁ path 0 bytes true mode uid gid r v')
    (wp_writeFile_effect hv₁.toRepresents hv₁.exact fun r d' v' h₁ h₂ h₃ => ⟨v', h₁, h₂, h₃⟩)
  rw [hwrite] at hd' heffect
  have hv' : InOrder L d' v' := hv₁.of_outcome (.writeFile path 0 bytes true mode uid gid) hnul hnum
    hd' hacc' (.writeFile heffect.outcome)
  have hrun : (writeFileAs L path bytes mode uid gid).run.run (commitRun L) d =
      (r.map fun _ => (), d') := by
    rw [writeFileAs, run_bind_eq ((reads_isOkAnd (reads_stat hv.toHolds hp hf)).run _), andThen_ok]
    simp only [if_true]
    rw [run_bind_eq htruncate, andThen_ok, run_bind_eq hwrite]
    cases r <;> rfl
  refine ⟨_, d', v', hrun, hv', ?_, ?_⟩
  · rw [← hfits, ← hw.ok_iff]
    cases r <;> simp [Except.map]
  · cases r with
    | error e =>
      rw [heffect.entry_of_error hp hf₁ hnum hv₁.tree hv₁.sized hacc', hentry₁]
      simp [Except.map]
    | ok n =>
      obtain ⟨p', hp', -, hentries, -⟩ :=
        heffect.entries hnul hnum hv₁.tree hv₁.sized hacc'
      obtain rfl := Except.ok.inj (hp'.symm.trans hp)
      rw [hentries, update_self, hentry₁, written]
      simp [splice, Except.map]

theorem contains_congr (hp : canonicalPath path = .ok p) {content : List UInt8} :
    Contains L d path content ↔ Contains L d p.str content := by
  simp only [Contains, readFile, hp, p.canonicalPath_str]

/-- The file is replaced or kept if it was empty, or if there is room for it anew. -/
theorem replacedOrKept_iff (hv : InOrder L d v) (mode : UInt16) (uid gid : UInt32)
    (hnul : (0 : UInt8) ∉ path.val) (hp : canonicalPath path = .ok p) (hf : v.find p.bytes = some i)
    (hkind : (v.nodes i).kind = nodeFile) (hnum : Numbered L (sectorsFor bytes.length))
    (hlen : bytes.length < 2 ^ 64) : ∃ r d',
      (writeFileAs L path bytes mode uid gid).run.run (commitRun L) d = (r, d') ∧
      (ReplacedOrKept L path bytes d r d' ↔
        (v.nodes i).size = 0 ∨ v.RoomAnew L (v.nodes i) (sectorsFor bytes.length)) := by
  obtain ⟨r, d', v', hrun, hv', hroom, hentry⟩ :=
    run_writeFileAs hv mode uid gid hnul hp hf hkind hnum hlen
  refine ⟨r, d', hrun, ?_⟩
  have hold : ∀ content, Contains L d path content ↔ v.content (v.nodes i) = content := by
    intro content
    rw [contains_congr hp, contains_iff hv, entries_of_find hf, entry_of_file hkind,
      Option.bind_some, Option.some.injEq]
  have hnew : ∀ content, Contains L d' path content ↔
      (if r = .ok () then bytes else []) = content := by
    intro content
    rw [contains_congr hp, contains_iff hv', hentry, Option.bind_some, Option.some.injEq]
  have hempty : v.content (v.nodes i) = [] ↔ (v.nodes i).size = 0 := by
    rw [← List.length_eq_zero_iff, length_content]
  cases r with
  | ok u => exact iff_of_true (Or.inl ⟨rfl, (hnew _).mpr (if_pos rfl)⟩) (Or.inr (hroom.mp rfl))
  | error e =>
    rw [or_iff_left fun h => absurd (hroom.mpr h) (by simp), ← hempty]
    rw [if_neg (by simp)] at hnew hentry
    constructor
    · rintro (⟨h, -⟩ | ⟨-, hkept, -⟩)
      · cases h
      · exact ((hnew _).mp (hkept _ ((hold _).mpr rfl))).symm
    · intro hnil
      refine Or.inr ⟨⟨e, rfl⟩, fun content h => (hnew _).mpr (hnil ▸ (hold _).mp h), ?_⟩
      have hbefore : v.entries p.bytes = some (v.entry (v.nodes i)) := entries_of_find hf
      have hcontent : (v.entry (v.nodes i)).content = some [] := by
        rw [entry_of_file hkind, hnil]
      rw [statOf, statOf, run_stat hv'.toRepresents, run_stat hv.toRepresents,
        stat_of_file hp hentry rfl, stat_of_file hp hbefore hcontent]

/-! ### Runs -/

/-- **Replacing a file over whole runs**: it is replaced or kept if and only if it was empty, or
there is room for it in the free sectors and its own. -/
theorem replaced_iff (h : Reached L (fun op => op.NulFree ∧ op.Numbered L) d) :
    ∃ v, Represents L d v ∧ ∀ (path : Str) (p : Path) (i : ℕ) (bytes : List UInt8) (mode : UInt16)
      (uid gid : UInt32), (0 : UInt8) ∉ path.val → canonicalPath path = .ok p →
      v.find p.bytes = some i → (v.nodes i).kind = nodeFile →
      Numbered L (sectorsFor bytes.length) → bytes.length < 2 ^ 64 → ∃ r d',
        (writeFileAs L path bytes mode uid gid).run.run (commitRun L) d = (r, d') ∧
        (ReplacedOrKept L path bytes d r d' ↔
          (v.nodes i).size = 0 ∨ v.RoomAnew L (v.nodes i) (sectorsFor bytes.length)) := by
  obtain ⟨v, hv⟩ := h.inOrder
  exact ⟨v, hv.toRepresents, fun path p i bytes mode uid gid hnul hp hf hkind hnum hlen =>
    replacedOrKept_iff hv mode uid gid hnul hp hf hkind hnum hlen⟩

end Replace

theorem sampleVol_room (node : Node) (h : node.extents = []) :
    sampleVol.Room sampleLayout node 1 := by
  have htail : node.tail = none := by rw [Node.tail, h]; rfl
  have hused : ∀ lba, sampleVol.used lba = decide (lba < sampleLayout.dataLba) := fun lba => by
    rw [sampleVol, formatVol, setNode_used, blankVol]
  rw [Vol.Room, htail, h]
  have hfirst : ∀ a < sampleLayout.dataLba, ¬ sampleVol.Free sampleLayout a := fun a ha hfree =>
    absurd hfree.1.1 (Nat.not_le.mpr ha)
  have hrun : ∀ a, sampleLayout.dataLba ≤ a → a < sampleLayout.dataLba + 1 →
      sampleVol.Free sampleLayout a := fun a h₁ h₂ =>
    ⟨⟨h₁, h₂.trans_le (by decide)⟩, by rw [hused]; exact decide_eq_false (Nat.not_lt.mpr h₁)⟩
  have hslots : 0 < maxExtents - ([] : List Extent).length := by decide
  exact (FirstFit.room_take hfirst hrun Nat.one_pos le_rfl).mpr
    ⟨fun _ => hslots, FirstFit.room_zero⟩

/-- A file `a` with one byte can be reached. -/
theorem reached_file : ∃ d v i, Reached sampleLayout (fun op => op.NulFree ∧
    op.Numbered sampleLayout) d ∧ InOrder sampleLayout d v ∧
    v.find samplePath.bytes = some i ∧ (v.nodes i).kind = nodeFile ∧
    v.content (v.nodes i) = [1] := by
  obtain ⟨d₀, hformats, hrep⟩ := formats_sample
  have hv := inOrder_sampleVol hrep
  have hp : canonicalPath ⟨[97], rfl⟩ = .ok samplePath := rfl
  have hnew : sampleVol.create samplePath nodeFile 0o644 0 0 =
      .ok (1, newNode samplePath nodeFile 0o644 0 0) := by decide +kernel
  have hnum : Numbered sampleLayout (sectorsFor (0 + [(1 : UInt8)].length)) := Or.inr (by decide)
  have hfits : sampleVol.WriteFits sampleLayout ⟨[97], rfl⟩ 0 1 true 0o644 0 0 :=
    ⟨samplePath, hp, by decide, Or.inr ⟨by decide +kernel, rfl, 1, _, hnew, rfl, by decide,
      sampleVol_room _ rfl⟩⟩
  obtain ⟨r, d, v', hrun, -, hw⟩ := run_writeFile_room hv ⟨[97], rfl⟩ 0 [1] true 0o644 0 0
    (by decide) hnum
  obtain ⟨n, rfl⟩ := hw.ok_iff.mpr hfits
  obtain ⟨v, p, hv', hp', -, hentries⟩ := hv.writeFile (by decide) hnum hrun
  obtain rfl := Except.ok.inj (hp'.symm.trans hp)
  have hnone : sampleVol.entries samplePath.bytes = none :=
    entries_of_none (by decide +kernel)
  have hentry : v.entries samplePath.bytes = some ⟨some [1], 0o644, 0, 0⟩ := by
    rw [hentries, update_self, hnone]
    rfl
  obtain ⟨i, hf, hi⟩ := Option.map_eq_some_iff.mp hentry
  have hkind : (v.nodes i).kind = nodeFile := by
    by_contra hne
    rw [Vol.entry, if_neg hne] at hi
    cases hi
  rw [entry_of_file hkind] at hi
  refine ⟨d, v, i, ?_, hv', hf, hkind, Option.some.inj (congrArg Entry.content hi)⟩
  have hop : ((Operation.writeFile ⟨[97], rfl⟩ 0 [1] true 0o644 0 0).run sampleLayout d₀).2 = d :=
    congrArg Prod.snd (run_bind_eq (f := fun _ => pure ()) hrun)
  rw [← hop]
  exact .perform (.format hformats) _ ⟨by decide, hnum⟩

/-- Replacing it by two bytes. -/
theorem replaced_iff_sample : ∃ d v i r d', Represents sampleLayout d v ∧
    (writeFileAs sampleLayout ⟨[97], rfl⟩ [2, 3] 0o644 0 0).run.run (commitRun sampleLayout) d =
      (r, d') ∧
    (ReplacedOrKept sampleLayout ⟨[97], rfl⟩ [2, 3] d r d' ↔
      (v.nodes i).size = 0 ∨ v.RoomAnew sampleLayout (v.nodes i) 1) := by
  obtain ⟨d, v₀, i₀, hreached, hv₀, hf₀, hkind₀, -⟩ := reached_file
  obtain ⟨v, hd, hall⟩ := replaced_iff hreached
  have hfind : v.find samplePath.bytes = v₀.find samplePath.bytes := by
    have h := (reads_findIndex (C := Transaction) hd.toHolds samplePath.bytes).run
      (commitRun sampleLayout)
    have h₀ := (reads_findIndex (C := Transaction) hv₀.toHolds samplePath.bytes).run
      (commitRun sampleLayout)
    exact Except.ok.inj (congrArg Prod.fst (h.symm.trans h₀))
  have hi := (Vol.find_eq_some hf₀).1
  have hnode : v.nodes i₀ = v₀.nodes i₀ :=
    Except.ok.inj ((hd.node i₀ hi).symm.trans (hv₀.node i₀ hi))
  obtain ⟨r, d', h⟩ := hall ⟨[97], rfl⟩ samplePath i₀ [2, 3] 0o644 0 0 (by decide) rfl
    (hfind.trans hf₀) (by rw [hnode, hkind₀]) (Or.inr (by decide)) (by decide)
  exact ⟨d, v, i₀, r, d', hd, h⟩

/-- **Replacing a file for which there is no room**: the old contents are lost. -/
theorem contents_lost : ∃ d e d', Reached sampleLayout (fun op => op.NulFree ∧
      op.Numbered sampleLayout) d ∧ Contains sampleLayout d ⟨[97], rfl⟩ [1] ∧
    (writeFileAs sampleLayout ⟨[97], rfl⟩ (List.replicate (9000 * 512) 0) 0o644 0 0).run.run
      (commitRun sampleLayout) d = (.error e, d') ∧ Contains sampleLayout d' ⟨[97], rfl⟩ [] := by
  obtain ⟨d, v, i, hreached, hv, hf, hkind, hcontent⟩ := reached_file
  have hp : canonicalPath ⟨[97], rfl⟩ = .ok samplePath := rfl
  have hlen : (List.replicate (9000 * 512) (0 : UInt8)).length = 9000 * 512 := List.length_replicate
  obtain ⟨r, d', v', hrun, hv', hroom, hentry⟩ := run_writeFileAs hv 0o644 0 0 (by decide) hp hf
    hkind (Or.inr (by decide))
    (show (List.replicate (9000 * 512) (0 : UInt8)).length < 2 ^ 64 by rw [hlen]; decide)
  have hno : ¬ v.RoomAnew sampleLayout (v.nodes i) (sectorsFor (9000 * 512)) := fun h => by
    have hle := h.le (m := sampleLayout.endLba) fun a ha => by
      rcases ha with ha | ha
      · exact ha.1.2
      · exact (hv.exact.inData i (Vol.find_eq_some hf).1 a ha).2
    exact absurd hle (by decide)
  rw [hlen] at hroom
  cases r with
  | ok u => exact absurd (hroom.mp rfl) hno
  | error e =>
    rw [if_neg (by simp)] at hentry
    refine ⟨d, e, d', hreached, ?_, hrun, ?_⟩
    · rw [contains_congr hp, contains_iff hv, Vol.entries_of_find hf, Vol.entry_of_file hkind,
        hcontent]
      rfl
    · rw [contains_congr hp, contains_iff hv', hentry]
      rfl

end ImagineOS.Dfs
