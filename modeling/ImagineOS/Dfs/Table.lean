import ImagineOS.Dfs.Volume
import Mathlib.Data.List.Range

/-!
# DFS: the node table

What the operations on the node table do to a volume. A successful transaction replaces its targets
(`commitEffect`), and every operation keeps to `contract`: its transactions change metadata only
and leave a volume whose space is accounted for, and it writes data sectors only.
-/

namespace ImagineOS.Dfs

open BlockProgram Fallible Function List Layout

theorem wp_ofExcept {C α : Type} {𝒞 : Contract Sector C} {r : Except DfsError α} {d : ℕ → Sector}
    {Q : Except DfsError α → (ℕ → Sector) → Prop} :
    (ofExcept r : DfsProgram C α).Wp 𝒞 Q d ↔ Q r d := Iff.rfl

/-! ### Transactions -/

/-- What a successful transaction does to the disk. -/
def commitEffect (L : Layout) (entries : List (ℕ × Sector)) (d : ℕ → Sector) : ℕ → Sector :=
  Function.update (applyWrites entries (Function.update (applyWrites (payload L entries) d)
    L.journalLba (transactionHeader entries))) L.journalLba zeroSector

/-- **Committing**, on a device that answers every request. -/
theorem wp_commitTransaction (L : Layout) (tx : Transaction) (d : ℕ → Sector) :
    (commitTransaction L tx).Wp anyWrite
      (fun r d' => r = .ok () ∧ d' = commitEffect L tx.entries d) d := by
  refine wp_bind (wp_writeSectors (fun _ _ => trivial) ?_)
  refine wp_bind (wp_flush.mpr ?_)
  refine wp_bind (wp_writeSector.mpr ⟨trivial, ?_⟩)
  refine wp_bind (wp_flush.mpr ?_)
  refine wp_bind (wp_writeSectors (fun _ _ => trivial) ?_)
  refine wp_bind (wp_flush.mpr ?_)
  refine wp_bind (wp_writeSector.mpr ⟨trivial, ?_⟩)
  exact wp_flush.mpr ⟨rfl, rfl⟩

theorem commitEffect_header (L : Layout) (entries : List (ℕ × Sector)) (d : ℕ → Sector) :
    commitEffect L entries d L.journalLba = zeroSector := update_self ..

variable {entries : List (ℕ × Sector)}

theorem commitEffect_of_not_inJournal {L : Layout} (d : ℕ → Sector)
    {lba : ℕ} (hbound : entries.length ≤ transactionSectors) (h : ¬ L.InJournal lba) :
    commitEffect L entries d lba = applyWrites entries d lba := by
  have hjs : journalSectors = 17 := rfl
  have hts : transactionSectors = 16 := rfl
  have hne : lba ≠ L.journalLba := by
    rintro rfl
    exact h ⟨le_rfl, by omega⟩
  have hpayload : lba ∉ (payload L entries).map Prod.fst := by
    intro hmem
    obtain ⟨w, hw, rfl⟩ := mem_map.mp hmem
    obtain ⟨i, hi, rfl⟩ := mem_payload hw
    exact h ⟨by simp only; omega, by simp only; omega⟩
  rw [commitEffect, update_of_ne hne]
  refine applyWrites_congr entries ?_
  rw [update_of_ne hne, applyWrites_of_not_mem d hpayload]

/-- What an operation may do besides reading and flushing: write data, and commit transactions
that change metadata only and leave space accounted for. -/
def contract (L : Layout) : Contract Sector Transaction where
  effect tx := commitEffect L tx.entries
  writable := L.InData
  callable tx d := Admissible L tx.entries ∧ (∀ e ∈ tx.entries, L.InMeta e.1) ∧
    ∃ v, Represents L (commitEffect L tx.entries d) v ∧ v.Sound L

section Represent

variable {L : Layout} {d : ℕ → Sector} {v v' : Vol}

/-- A transaction that changes metadata changes the volume as its sectors say. -/
theorem Holds.commit (hd : Holds L d v)
    (hbound : entries.length ≤ transactionSectors) (hmeta : ∀ e ∈ entries, L.InMeta e.1)
    (hnode : ∀ i < inodeCount,
      decodeNode (applyWrites entries d (L.inodeLba + i)) = .ok (v'.nodes i))
    (hused : ∀ lba, L.InPartition lba →
      getBit (applyWrites entries d (L.bitmapSector lba)) (L.bitmapBit lba) = v'.used lba)
    (hdata : v'.data = v.data) : Holds L (commitEffect L entries d) v' := by
  have hout : ∀ lba, ¬ L.InMeta lba → applyWrites entries d lba = d lba := fun lba hlba =>
    applyWrites_of_not_mem d fun hmem => by
      obtain ⟨e, he, rfl⟩ := mem_map.mp hmem
      exact hlba (hmeta e he)
  have heff : ∀ lba, ¬ L.InJournal lba →
      commitEffect L entries d lba = applyWrites entries d lba := fun lba =>
    commitEffect_of_not_inJournal d hbound
  obtain ⟨hj, -, -, -, -, -, -, -⟩ := L.offsets
  have hstart : ¬ L.InJournal L.startLba := fun h => by have := h.1; omega
  exact {
    super := by
      rw [heff _ hstart, hout _ fun h => h.ne_startLba rfl]
      exact hd.super
    node := fun i hi => by
      rw [heff _ (inMeta_inode hi).targetable.2]
      exact hnode i hi
    used := fun lba hlba => by
      rw [heff _ (inMeta_bitmap hlba).targetable.2]
      exact hused lba hlba
    data := fun lba hlba => by
      rw [heff _ hlba.not_inJournal, hout _ hlba.not_inMeta, hd.data lba hlba, hdata] }

theorem Represents.of_commit (hd : Holds L (commitEffect L entries d) v')
    (hroot : (v'.nodes 0).kind = nodeDirectory ∧ (v'.nodes 0).path = []) :
    Represents L (commitEffect L entries d) v' where
  toHolds := hd
  header := commitEffect_header L entries d
  root := hroot

theorem Represents.setData (hd : Represents L d v) {lba : ℕ} (s : Sector) (hlba : L.InData lba) :
    Represents L (Function.update d lba s) (v.setData lba s) := by
  have hne : ∀ l, ¬ L.InData l → update d lba s l = d l := fun l hl =>
    update_of_ne (fun h => hl (by rw [h]; exact hlba)) _ _
  have hmeta : ∀ l, L.InMeta l → ¬ L.InData l := fun l h h' => h'.not_inMeta h
  obtain ⟨hj, hi, hb, -, hdl, -, -, -⟩ := L.offsets
  exact {
    super := by
      rw [hne _ fun h => by have := h.1; omega]
      exact hd.super
    header := by
      rw [hne _ fun h => by have := h.1; omega]
      exact hd.header
    root := hd.root
    node := fun i hi => by
      rw [hne _ (hmeta _ (inMeta_inode hi))]
      exact hd.node i hi
    used := fun l hl => by
      rw [hne _ (hmeta _ (inMeta_bitmap hl))]
      exact hd.used l hl
    data := fun l hl => by
      simp only [Vol.setData, update_apply]
      split
      · rfl
      · exact hd.data l hl }

end Represent

/-! ### Lookup -/

namespace Vol

/-- The test of `find_index`. -/
def Matches (v : Vol) (path : List UInt8) (i : ℕ) : Prop :=
  (v.nodes i).kind ≠ 0 ∧ (v.nodes i).pathStr = path

instance (v : Vol) (path : List UInt8) (i : ℕ) : Decidable (v.Matches path i) :=
  inferInstanceAs (Decidable (_ ∧ _))

/-- The node with a given path. -/
def find (v : Vol) (path : List UInt8) : Option ℕ :=
  (List.range inodeCount).find? (v.Matches path ·)

/-- A free node other than the first. -/
def findFree (v : Vol) : Option ℕ :=
  (List.range' 1 (inodeCount - 1)).find? fun i => (v.nodes i).kind = 0

variable {v : Vol} {path : List UInt8}

theorem find_eq_some {i : ℕ} (h : v.find path = some i) : i < inodeCount ∧ v.Matches path i :=
  ⟨mem_range.mp (mem_of_find?_eq_some h), by simpa using List.find?_some h⟩

theorem find_eq_none : v.find path = none ↔ ∀ i < inodeCount, ¬ v.Matches path i := by
  simp [find]

theorem findFree_eq_some {i : ℕ} (h : v.findFree = some i) :
    1 ≤ i ∧ i < inodeCount ∧ (v.nodes i).kind = 0 := by
  have hmem := mem_range'_1.mp (mem_of_find?_eq_some h)
  have hts : inodeCount = 256 := rfl
  exact ⟨hmem.1, by omega, by simpa using List.find?_some h⟩

end Vol

section Lookup

variable {L : Layout} {d : ℕ → Sector} {v : Vol} {C : Type} {𝒞 : Contract Sector C}

theorem reads_readNode (hd : Holds L d v) {i : ℕ} (hi : i < inodeCount) :
    (readNode L i : DfsProgram C Node).run.Reads d (.ok (v.nodes i)) := by
  rw [readNode, if_neg (by omega), ← hd.node i hi]
  exact rfl

theorem wp_readNode (hd : Represents L d v) {i : ℕ} (hi : i < inodeCount)
    {Q : Except DfsError Node → (ℕ → Sector) → Prop} :
    (readNode L i : DfsProgram C Node).Wp 𝒞 Q d ↔ Q (.ok (v.nodes i)) d :=
  (reads_readNode hd.toHolds hi).wp

theorem reads_findIndexIn (hd : Holds L d v) (path : List UInt8) {is : List ℕ}
    (his : ∀ i ∈ is, i < inodeCount) :
    (findIndexIn L path is : DfsProgram C (Option ℕ)).run.Reads d
      (.ok (is.find? (v.Matches path ·))) := by
  induction is with
  | nil => exact rfl
  | cons i is ih =>
    refine reads_bind (reads_readNode hd (his i (by simp))) ?_
    by_cases h : v.Matches path i
    · rw [List.find?_cons, decide_eq_true h]
      exact (if_pos h).symm ▸ rfl
    · rw [List.find?_cons, decide_eq_false h]
      refine (if_neg h).symm ▸ ?_
      exact ih fun j hj => his j (mem_cons_of_mem _ hj)

theorem reads_findIndex (hd : Holds L d v) (path : List UInt8) :
    (findIndex L path : DfsProgram C (Option ℕ)).run.Reads d (.ok (v.find path)) :=
  reads_findIndexIn hd path fun _ hi => mem_range.mp hi

theorem wp_findIndex (hd : Represents L d v) (path : List UInt8)
    {Q : Except DfsError (Option ℕ) → (ℕ → Sector) → Prop} (hQ : Q (.ok (v.find path)) d) :
    (findIndex L path : DfsProgram C (Option ℕ)).Wp 𝒞 Q d :=
  (reads_findIndex hd.toHolds path).wp.mpr hQ

theorem reads_findNode (hd : Holds L d v) (path : List UInt8) :
    (findNode L path : DfsProgram C (Option Node)).run.Reads d
      (.ok ((v.find path).map v.nodes)) := by
  refine reads_bind (reads_findIndex hd path) ?_
  cases hf : v.find path with
  | none => exact rfl
  | some i => exact reads_bind (reads_readNode hd (Vol.find_eq_some hf).1) rfl

theorem wp_findNode (hd : Represents L d v) (path : List UInt8)
    {Q : Except DfsError (Option Node) → (ℕ → Sector) → Prop}
    (hQ : Q (.ok ((v.find path).map v.nodes)) d) :
    (findNode L path : DfsProgram C (Option Node)).Wp 𝒞 Q d :=
  (reads_findNode hd.toHolds path).wp.mpr hQ

theorem reads_findFreeIn (hd : Holds L d v) {is : List ℕ} (his : ∀ i ∈ is, i < inodeCount) :
    (findFreeIn L is : DfsProgram C (Option ℕ)).run.Reads d
      (.ok (is.find? fun i => (v.nodes i).kind = 0)) := by
  induction is with
  | nil => exact rfl
  | cons i is ih =>
    refine reads_bind (reads_isOkAnd (reads_readNode hd (his i (by simp)))) ?_
    by_cases h : (v.nodes i).kind = 0
    · rw [List.find?_cons, decide_eq_true h, if_pos rfl]
      exact rfl
    · rw [List.find?_cons, decide_eq_false h, if_neg (by decide)]
      exact ih fun j hj => his j (mem_cons_of_mem _ hj)

theorem reads_findFree (hd : Holds L d v) :
    (findFreeIn L (List.range' 1 (inodeCount - 1)) : DfsProgram C (Option ℕ)).run.Reads d
      (.ok v.findFree) := by
  refine reads_findFreeIn hd fun j hj => ?_
  have hlt := (mem_range'_1.mp hj).2
  have hic : inodeCount = 256 := rfl
  omega

end Lookup

/-! ### Storing and creating -/

section Store

variable {L : Layout} {d : ℕ → Sector} {v : Vol}

/-- The transaction that stores a node. -/
def nodeUpdate (L : Layout) (i : ℕ) (node : Node) : Transaction where
  entries := [(L.inodeLba + i, encodeNode node)]
  bound := show 1 ≤ transactionSectors by decide

variable {i : ℕ}

theorem storeNode_eq (hi : i < inodeCount) (node : Node) :
    storeNode L i node = Fallible.call (nodeUpdate L i node) := by
  have hmeta := inMeta_inode (L := L) hi
  have hcollect : collect L .new [(L.inodeLba + i, encodeNode node)] =
      .ok (nodeUpdate L i node) := by
    simp [collect, nodeUpdate, hmeta.targetable, Transaction.add, Transaction.new, bind,
      Except.bind, transactionSectors, journalSectors]
  rw [storeNode, Dfs.commit,
    if_neg (by simp), if_neg (by simp [transactionSectors, journalSectors]), hcollect]
  rfl

variable {node : Node}

theorem Holds.storeNode (hd : Holds L d v) (hi : i < inodeCount) (hvalid : node.Valid) :
    Holds L (commitEffect L (nodeUpdate L i node).entries d) (v.setNode i node.stored) := by
  have hmeta := inMeta_inode (L := L) hi
  refine hd.commit (nodeUpdate L i node).bound (by simpa [nodeUpdate] using hmeta)
    (fun j hj => ?_) (fun lba hlba => ?_) rfl
  · rcases eq_or_ne j i with rfl | hne
    · rw [Vol.setNode_nodes_self, nodeUpdate, applyWrites, applyWrites, update_self]
      exact decodeNode_encodeNode hvalid
    · rw [Vol.setNode_nodes_of_ne _ hne, nodeUpdate, applyWrites, applyWrites,
        update_of_ne (by simp only; omega)]
      exact hd.node j hj
  · rw [nodeUpdate, applyWrites, applyWrites, update_of_ne (inode_ne_bitmap hi).symm]
    exact hd.used lba hlba

/-- **Storing a node.** -/
theorem wp_storeNode (hd : Represents L d v) (hi : i < inodeCount) (hne : i ≠ 0)
    (hvalid : node.Valid) (hsound : (v.setNode i node.stored).Sound L)
    {Q : Except DfsError Unit → (ℕ → Sector) → Prop}
    (hQ : ∀ d', Represents L d' (v.setNode i node.stored) → Q (.ok ()) d') :
    (storeNode L i node).Wp (contract L) Q d := by
  have hmeta := inMeta_inode (L := L) hi
  have hrep := Represents.of_commit (hd.toHolds.storeNode hi hvalid)
    (by rw [Vol.setNode_nodes_of_ne _ hne.symm]; exact hd.root)
  rw [storeNode_eq hi]
  refine wp_call.mpr ⟨⟨⟨by simp [nodeUpdate], (nodeUpdate L i node).bound,
    by simp [nodeUpdate], ?_⟩, ?_, _, hrep, hsound⟩, hQ _ hrep⟩
  · simpa [nodeUpdate] using hmeta.targetable
  · simpa [nodeUpdate] using hmeta

/-- Creating a node, on a volume: the index and the node stored there. -/
def Vol.create (v : Vol) (path : Path) (kind : UInt8) (mode : UInt16) (uid gid : UInt32) :
    Except DfsError (ℕ × Node) :=
  if (v.find path.bytes).isSome then .error .alreadyExists
  else if ((v.find (parentPath path.bytes)).map v.nodes).all (·.kind ≠ nodeDirectory) then
    .error .notDirectory
  else match v.findFree with
    | none => .error .noSpace
    | some i => .ok (i, (newNode path kind mode uid gid).stored)

variable {path : Path} {kind : UInt8} {mode : UInt16} {uid gid : UInt32}

/-- **What creation needs and gives.** -/
theorem Vol.create_eq_ok (h : v.create path kind mode uid gid = .ok (i, node)) :
    v.find path.bytes = none ∧
      (∃ a, v.find (parentPath path.bytes) = some a ∧ (v.nodes a).kind = nodeDirectory) ∧
      v.findFree = some i ∧ node = (newNode path kind mode uid gid).stored := by
  unfold Vol.create at h
  split_ifs at h with hfound hparent
  refine ⟨Option.not_isSome_iff_eq_none.mp hfound, ?_, ?_⟩
  · cases hf : v.find (parentPath path.bytes) with
    | none => rw [hf] at hparent; exact absurd rfl hparent
    | some a =>
      rw [hf] at hparent
      exact ⟨a, rfl, by simpa using hparent⟩
  · cases hfree : v.findFree with
    | none => rw [hfree] at h; cases h
    | some j =>
      rw [hfree] at h
      obtain ⟨rfl, rfl⟩ := Prod.mk.inj (Except.ok.inj h)
      exact ⟨rfl, rfl⟩

theorem newNode_valid
    (hkind : kind = nodeFile ∨ kind = nodeDirectory) : (newNode path kind mode uid gid).Valid :=
  Or.inr (hkind.imp (fun h => ⟨h, by simp [newNode]⟩) fun h => ⟨h, rfl⟩)

theorem extents_stored (h : node.kind ≠ 0) : node.stored.extents = node.extents := by
  rw [Node.stored_of_kind_ne h]

theorem kind_ne_zero (hkind : kind = nodeFile ∨ kind = nodeDirectory) :
    kind ≠ 0 := by
  rcases hkind with rfl | rfl <;> decide

/-- **Creating a node.** -/
theorem wp_createNode (hd : Represents L d v) {leaked : ℕ → Prop} (hacc : v.Accounted L leaked)
    (hkind : kind = nodeFile ∨ kind = nodeDirectory) {Q : Except DfsError ℕ → (ℕ → Sector) → Prop}
    (herror : ∀ e, v.create path kind mode uid gid = .error e → Q (.error e) d)
    (hok : ∀ i node d', v.create path kind mode uid gid = .ok (i, node) → i < inodeCount →
      Represents L d' (v.setNode i node) → (v.setNode i node).Accounted L leaked → Q (.ok i) d') :
    (createNode L path kind mode uid gid).Wp (contract L) Q d := by
  unfold Vol.create at herror hok
  refine wp_bind (wp_findNode hd _ ?_)
  rw [thenWp_ok, Option.isSome_map]
  split
  · rename_i h
    exact herror _ (if_pos h)
  rename_i hnew
  rw [if_neg hnew] at herror hok
  refine wp_bind (wp_findNode hd _ ?_)
  rw [thenWp_ok]
  split
  · rename_i h
    exact herror _ (if_pos h)
  rename_i hparent
  rw [if_neg hparent] at herror hok
  refine wp_bind ((reads_findFree hd.toHolds).wp.mpr ?_)
  rw [thenWp_ok]
  cases hfree : v.findFree with
  | none => exact herror _ (by rw [hfree])
  | some i =>
    obtain ⟨hpos, hi, hzero⟩ := Vol.findFree_eq_some hfree
    have hempty := (hd.decoded hi).eq_empty hzero
    have hacc' : (v.setNode i (newNode path kind mode uid gid).stored).Accounted L leaked := by
      refine hacc.setNode_of_extents ?_
      rw [extents_stored (kind_ne_zero hkind), hempty]
      rfl
    refine wp_bind (wp_storeNode hd hi
      (by omega) (newNode_valid hkind) hacc'.sound fun d' hd' => ?_)
    exact hok i _ d' (by rw [hfree]) hi hd' hacc'

end Store

end ImagineOS.Dfs
