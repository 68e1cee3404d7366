import ImagineOS.ByteStore
import ImagineOS.Memory.Mapping

/-!
# The bootstrap: page tables

Before it starts the kernel, the bootstrap maps the kernel's pages in the page tables it was itself
started with. Tables that are missing come from a pool, and a page that is mapped already is not
mapped again. Physical memory is one store of bytes, in which the tables are found entry by entry.
-/

namespace ImagineOS.Bootstrap

open Memory Radix BitVec

/-! ### The functions of the source -/

structure PageTablePool where
  next : ℕ
  stop : ℕ
  hhdmOffset : ℕ

/-- Bytes that were written, by their address and number. -/
structure Write where
  start : ℕ
  length : ℕ
  deriving DecidableEq

structure LoadSegment where
  virtualAddress : ℕ
  fileOffset : ℕ
  fileSize : ℕ
  memorySize : ℕ
  flags : ℕ
  deriving DecidableEq

/-- What was done for a segment: the pages it has got, and the bytes that were written. -/
structure Placement where
  segment : LoadSegment
  range : PhysicalRange
  writes : List Write

/-- Physical memory, what of it is free, and the ranges that are reserved; `placed` is a record that
the source does not keep. -/
structure Loader where
  memory : ByteStore
  regions : List BootRegion
  pool : PageTablePool
  reserved : List PhysicalRange
  placed : List Placement

/-- `PageTablePool::allocate` -/
def Loader.allocateTable (s : Loader) : Option (ℕ × Loader) :=
  if s.pool.stop ≤ s.pool.next then none
  else if s.pool.next + s.pool.hhdmOffset < 2 ^ 64 then
    some (s.pool.next, { s with
      pool := { s.pool with next := s.pool.next + pageSize }
      memory := s.memory.fill s.pool.next pageSize 0 })
  else none

/-- An entry of the table at an address. -/
def Loader.entry (s : Loader) (table : ℕ) (index : Fin 512) : BitVec 64 :=
  BitVec.ofNat 64 (s.memory.word (table + 8 * index.val) 8)

/-- An entry is written. -/
def Loader.setEntry (s : Loader) (table : ℕ) (index : Fin 512) (e : BitVec 64) : Loader :=
  { s with memory := s.memory.setWord (table + 8 * index.val) 8 e.toNat }

/-- `address | PRESENT | WRITABLE` -/
def kernelEntry (physical : ℕ) : BitVec 64 :=
  BitVec.ofNat 64 physical ||| entryPresent ||| entryWritable

/-- The body of the loop of `map_page`: the next table, which is made if it is missing. -/
def nextTable (table : ℕ) (index : Fin 512) (s : Loader) : Option (ℕ × Loader) :=
  let value := s.entry table index
  if ¬ present value then do
    let (new, s) ← s.allocateTable
    return (address (kernelEntry new), s.setEntry table index (kernelEntry new))
  else if huge value then none
  else some (address value, s)

/-- The loop of `map_page`. -/
def descend : List (Fin 512) → ℕ → Loader → Option (ℕ × Loader)
  | [], table, s => some (table, s)
  | index :: rest, table, s => do
    let (next, s) ← nextTable table index s
    descend rest next s

/-- `map_page`, in the tables below `root`. -/
def mapPage (root virtualAddress physicalAddress : ℕ) (s : Loader) : Option Loader := do
  let (table, s) ← descend (upperIndices virtualAddress) root s
  if present (s.entry table (lastIndex virtualAddress)) then none
  else some (s.setEntry table (lastIndex virtualAddress) (kernelEntry physicalAddress))

/-! ### What the tables say -/

/-- The table to which an entry leads. -/
def Loader.child (s : Loader) (table : ℕ) (index : Fin 512) : Option ℕ :=
  if present (s.entry table index) ∧ ¬ huge (s.entry table index) then
    some (address (s.entry table index))
  else none

/-- The paths to tables. -/
def tablePaths : Set (List (Fin 512)) := {path | path.length ≤ 3}

/-- **Where an address is**: its four indices lead to the entry of a page. -/
def translate (root : ℕ) (s : Loader) (virtualAddress : ℕ) : Option ℕ :=
  match reach s.child (upperIndices virtualAddress) root with
  | none => none
  | some table =>
    if present (s.entry table (lastIndex virtualAddress)) then
      some (address (s.entry table (lastIndex virtualAddress)) + virtualAddress % pageSize)
    else none

/-- An address in a table. -/
def InTable (root : ℕ) (s : Loader) (x : ℕ) : Prop :=
  ∃ path ∈ tablePaths, ∃ t, reach s.child path root = some t ∧ t ≤ x ∧ x < t + pageSize

/-- The memory that is free, or in the pool. -/
def Loader.Free (s : Loader) (p : ℕ) : Prop :=
  (∃ g ∈ s.regions, g.next ≤ p ∧ p < g.stop) ∨ (s.pool.next ≤ p ∧ p < s.pool.stop)

/-- **Tables, free memory and data do not meet.** The tables are a tree, and everything lies below
`2 ^ 52`. -/
structure Ready (root : ℕ) (data : Set ℕ) (s : Loader) : Prop where
  aligned : ∀ g ∈ s.regions, pageSize ∣ g.next ∧ pageSize ∣ g.stop
  apart : s.regions.Pairwise fun g h => Disjoint (Set.Ico g.next g.stop) (Set.Ico h.next h.stop)
  poolAligned : pageSize ∣ s.pool.next ∧ pageSize ∣ s.pool.stop
  poolApart : ∀ g ∈ s.regions, Disjoint (Set.Ico s.pool.next s.pool.stop) (Set.Ico g.next g.stop)
  width : ∀ p, s.Free p → p < 2 ^ 52
  rootAligned : pageSize ∣ root
  tree : Tree s.child tablePaths root
  tables : ∀ path ∈ tablePaths, ∀ table, reach s.child path root = some table →
    ∀ k < pageSize, ¬ s.Free (table + k) ∧ table + k ∉ data
  data : ∀ p ∈ data, ¬ s.Free p

/-! ### Entries -/

section Entries

variable {s s' : Loader} {t c p : ℕ} {i j : Fin 512} {e : BitVec 64}

theorem address_kernelEntry (hdvd : pageSize ∣ p) (hlt : p < 2 ^ 52) :
    address (kernelEntry p) = p := by
  have hmask : kernelEntry p &&& entryMask = BitVec.ofNat 64 p := by
    rw [kernelEntry, and_or_distrib_right, and_or_distrib_right,
      ofNat_and_entryMask hdvd hlt]
    simp [entryMask, entryPresent, entryWritable]
  rw [address, hmask, toNat_ofNat, Nat.mod_eq_of_lt (by omega)]

theorem present_kernelEntry (p : ℕ) : present (kernelEntry p) := by
  intro h
  have hbit := congrArg (fun x : BitVec 64 => x.getLsbD 0) h
  simp [kernelEntry, entryPresent] at hbit

theorem not_huge_kernelEntry (hdvd : pageSize ∣ p) (hlt : p < 2 ^ 52) : ¬ huge (kernelEntry p) := by
  have hbits : kernelEntry p &&& entryHuge = 0 := by
    rw [kernelEntry, BitVec.and_or_distrib_right, BitVec.and_or_distrib_right,
      ← ofNat_and_entryMask hdvd hlt, BitVec.and_assoc]
    simp [entryMask, entryPresent, entryWritable, entryHuge]
  exact fun h => h hbits

theorem entry_congr (h : ∀ k < pageSize, s'.memory (t + k) = s.memory (t + k)) (i : Fin 512) :
    s'.entry t i = s.entry t i := by
  have hagree : ByteStore.Agree s.memory s'.memory (t + 8 * i.val) 8 := fun x hx hlt => by
    have hk : x - t < pageSize := by
      have := i.isLt
      simp only [pageSize]
      omega
    have := h (x - t) hk
    rwa [Nat.add_sub_cancel' (by omega)] at this
  rw [Loader.entry, Loader.entry, hagree.word_eq]

theorem entry_setEntry_self : (s.setEntry t i e).entry t i = e := by
  have hword : (s.memory.setWord (t + 8 * i.val) 8 e.toNat).word (t + 8 * i.val) 8 = e.toNat :=
    ByteStore.word_setWord _ e.isLt
  show BitVec.ofNat 64 ((s.memory.setWord (t + 8 * i.val) 8 e.toNat).word _ 8) = e
  rw [hword, ofNat_toNat, setWidth_eq]

theorem entry_setEntry_of_ne (ht : pageSize ∣ t) (hc : pageSize ∣ c) (hne : c = t → j ≠ i) :
    (s.setEntry t i e).entry c j = s.entry c j := by
  have hapart : Apart (c + 8 * j.val) 8 (t + 8 * i.val) 8 := by
    obtain ⟨x, rfl⟩ := ht
    obtain ⟨y, rfl⟩ := hc
    have hi := i.isLt
    have hj := j.isLt
    simp only [pageSize] at hne ⊢
    by_cases hxy : y = x
    · have hij : j.val ≠ i.val := fun he => hne (by rw [hxy]) (Fin.ext he)
      rw [Apart]
      omega
    · rw [Apart]
      omega
  have hagree := ByteStore.agree_setWord s.memory e.toNat hapart
  show BitVec.ofNat 64 ((s.memory.setWord (t + 8 * i.val) 8 e.toNat).word _ 8) = _
  rw [hagree.word_eq, Loader.entry]

theorem memory_setEntry {x : ℕ} (hx : ∀ k < pageSize, x ≠ t + k) :
    (s.setEntry t i e).memory x = s.memory x := by
  refine if_neg fun h => hx (x - t) ?_ (by omega)
  have := i.isLt
  simp only [pageSize]
  omega

theorem child_eq_some : s.child t i = some c ↔
    (present (s.entry t i) ∧ ¬ huge (s.entry t i)) ∧ address (s.entry t i) = c := by
  rw [Loader.child]
  split
  · rename_i h
    exact ⟨fun he => ⟨h, Option.some.inj he⟩, fun he => congrArg some he.2⟩
  · rename_i h
    exact ⟨nofun, fun he => absurd he.1 h⟩

theorem child_congr (h : s'.entry t i = s.entry t i) : s'.child t i = s.child t i := by
  rw [Loader.child, Loader.child, h]

theorem closed_tablePaths : Closed tablePaths := by
  intro path i h
  show path.length ≤ 3
  have hlength : (path ++ [i]).length ≤ 3 := h
  rw [List.length_append] at hlength
  omega

theorem upperIndices_mem_tablePaths (v : ℕ) : upperIndices v ∈ tablePaths := Nat.le_refl 3

theorem translate_of_reach {root v : ℕ} (h : reach s.child (upperIndices v) root = some t)
    (hp : present (s.entry t (lastIndex v))) :
    translate root s v = some (address (s.entry t (lastIndex v)) + v % pageSize) := by
  rw [translate, h]
  exact if_pos hp

theorem translate_eq_some {root v : ℕ} (h : translate root s v = some p) :
    ∃ t, reach s.child (upperIndices v) root = some t ∧ present (s.entry t (lastIndex v)) ∧
      address (s.entry t (lastIndex v)) + v % pageSize = p := by
  rw [translate] at h
  split at h
  · cases h
  · rename_i t ht
    split at h
    · rename_i hp
      exact ⟨t, ht, hp, Option.some.inj h⟩
    · cases h

end Entries

/-! ### What is kept -/

section Ready

variable {root : ℕ} {data : Set ℕ} {s s' s'' : Loader} {path : List (Fin 512)} {t : ℕ}
  {i : Fin 512}

theorem Ready.dvd_table (h : Ready root data s) (ht : reach s.child path root = some t) :
    pageSize ∣ t := by
  induction path using List.reverseRecOn with
  | nil => exact Option.some.inj ht ▸ h.rootAligned
  | append_singleton path i _ =>
    rw [reach_concat] at ht
    obtain ⟨c, -, hc⟩ := Option.bind_eq_some_iff.mp ht
    rw [← (child_eq_some.mp hc).2]
    exact dvd_address _

/-- **Data and translations are kept**: only tables are written, and only the pool is used. -/
structure Extends (root : ℕ) (data : Set ℕ) (s s' : Loader) : Prop where
  ready : Ready root data s'
  regions : s'.regions = s.regions
  reserved : s'.reserved = s.reserved
  placed : s'.placed = s.placed
  memory : ∀ x ∈ data, s'.memory x = s.memory x
  others : ∀ x, ¬ InTable root s' x → s'.memory x = s.memory x
  tables : ∀ x, InTable root s x → InTable root s' x
  keeps : ∀ v p, translate root s v = some p → translate root s' v = some p

theorem Extends.refl (h : Ready root data s) : Extends root data s s where
  ready := h
  regions := rfl
  reserved := rfl
  placed := rfl
  memory _ _ := rfl
  others _ _ := rfl
  tables _ h := h
  keeps _ _ h := h

theorem Extends.trans (h : Extends root data s s') (h' : Extends root data s' s'') :
    Extends root data s s'' where
  ready := h'.ready
  regions := h'.regions.trans h.regions
  reserved := h'.reserved.trans h.reserved
  placed := h'.placed.trans h.placed
  memory x hx := (h'.memory x hx).trans (h.memory x hx)
  others x hx := (h'.others x hx).trans (h.others x fun ht => hx (h'.tables x ht))
  tables x hx := h'.tables x (h.tables x hx)
  keeps v p hv := h'.keeps v p (h.keeps v p hv)

theorem reach_congr_of_memory
    (hm : ∀ path ∈ tablePaths, ∀ t, reach s.child path root = some t → ∀ k < pageSize,
      s'.memory (t + k) = s.memory (t + k)) :
    (∀ path ∈ tablePaths, reach s'.child path root = reach s.child path root) ∧
      ∀ v, translate root s' v = translate root s v := by
  have hreach : ∀ path ∈ tablePaths, reach s'.child path root = reach s.child path root :=
    fun path hpath => Radix.reach_congr closed_tablePaths (fun q j c hq hc =>
      child_congr (entry_congr (hm q (closed_tablePaths q j hq) c hc) j)) hpath
  refine ⟨hreach, fun v => ?_⟩
  have hupper := upperIndices_mem_tablePaths v
  rw [translate, translate, hreach _ hupper]
  rcases ht : reach s.child (upperIndices v) root with _ | t
  · rfl
  · show (if present (s'.entry t _) then some (address (s'.entry t _) + _) else none) = _
    rw [entry_congr (hm _ hupper t ht)]

/-- **Data is written.** -/
theorem Ready.write (h : Ready root data s) {m : ByteStore} (hm : ∀ x ∉ data, m x = s.memory x) :
    Ready root data { s with memory := m } ∧
      (∀ x, InTable root { s with memory := m } x ↔ InTable root s x) ∧
      ∀ v, translate root { s with memory := m } v = translate root s v := by
  obtain ⟨hreach, htranslate⟩ := @reach_congr_of_memory root s { s with memory := m }
    fun path hpath t ht k hk => hm _ (h.tables path hpath t ht k hk).2
  refine ⟨{ h with tree := ?_, tables := ?_ }, fun x => ?_, htranslate⟩
  · intro p hp q hq t hpt hqt
    rw [hreach p hp] at hpt
    rw [hreach q hq] at hqt
    exact h.tree p hp q hq t hpt hqt
  · intro path hpath t ht
    rw [hreach path hpath] at ht
    exact h.tables path hpath t ht
  · refine exists_congr fun path => and_congr_right fun hpath => ?_
    rw [hreach path hpath]

/-! ### A page is mapped -/

theorem allocateTable_eq_some {b : ℕ} (h : s.allocateTable = some (b, s')) :
    b = s.pool.next ∧ s.pool.next < s.pool.stop ∧ s' = { s with
      pool := { s.pool with next := s.pool.next + pageSize }
      memory := s.memory.fill s.pool.next pageSize 0 } := by
  rw [Loader.allocateTable] at h
  split_ifs at h with hstop hfits
  obtain ⟨rfl, rfl⟩ := Prod.mk.inj (Option.some.inj h)
  exact ⟨rfl, Nat.lt_of_not_le hstop, rfl⟩

/-- The machine after a table was made. -/
def Loader.grow (s : Loader) (t : ℕ) (i : Fin 512) : Loader :=
  Loader.setEntry { s with
    pool := { s.pool with next := s.pool.next + pageSize }
    memory := s.memory.fill s.pool.next pageSize 0 } t i (kernelEntry s.pool.next)

/-- **A table is made** for an entry that is not present. -/
structure Makes (root : ℕ) (data : Set ℕ) (s : Loader) (path : List (Fin 512)) (t : ℕ)
    (i : Fin 512) : Prop where
  ready : Ready root data s
  mem : path ++ [i] ∈ tablePaths
  table : reach s.child path root = some t
  free : ¬ present (s.entry t i)
  pool : s.pool.next < s.pool.stop

theorem Makes.pool_le (h : Makes root data s path t i) : s.pool.next + pageSize ≤ s.pool.stop := by
  obtain ⟨⟨x, hx⟩, y, hy⟩ := h.ready.poolAligned
  have hlt := h.pool
  simp only [pageSize] at hx hy ⊢
  omega

variable {k : ℕ}

theorem Makes.free_page (h : Makes root data s path t i) (hk : k < pageSize) :
    s.Free (s.pool.next + k) := by
  have hle := h.pool_le
  exact Or.inr ⟨Nat.le_add_right _ _, by omega⟩

variable {q : List (Fin 512)} {c : ℕ}

theorem Makes.apart (h : Makes root data s path t i) (hq : q ∈ tablePaths)
    (hc : reach s.child q root = some c) (hk : k < pageSize) :
    ¬ (s.pool.next ≤ c + k ∧ c + k < s.pool.next + pageSize) := fun hin => by
  refine (h.ready.tables q hq c hc k hk).1 ?_
  have hfree := h.free_page (show c + k - s.pool.next < pageSize by omega)
  rwa [Nat.add_sub_cancel' hin.1] at hfree

theorem Makes.ne (h : Makes root data s path t i) (hq : q ∈ tablePaths)
    (hc : reach s.child q root = some c) : c ≠ s.pool.next := by
  rintro rfl
  have hpos : 0 < pageSize := by decide
  exact h.apart hq hc hpos ⟨Nat.le_refl _, by omega⟩

theorem Makes.path_mem (h : Makes root data s path t i) : path ∈ tablePaths :=
  closed_tablePaths path i h.mem

theorem Makes.width (h : Makes root data s path t i) : s.pool.next < 2 ^ 52 :=
  h.ready.width _ (h.free_page (k := 0) (by decide))

theorem Makes.entry (h : Makes root data s path t i) (hq : q ∈ tablePaths)
    (hc : reach s.child q root = some c) (j : Fin 512) (hne : c = t → j ≠ i) :
    (s.grow t i).entry c j = s.entry c j := by
  rw [Loader.grow, entry_setEntry_of_ne (h.ready.dvd_table h.table) (h.ready.dvd_table hc) hne]
  refine entry_congr (fun k hk => ?_) j
  exact if_neg (h.apart hq hc hk)

theorem Makes.entry_new (h : Makes root data s path t i) (j : Fin 512) :
    (s.grow t i).entry s.pool.next j = 0 := by
  rw [Loader.grow, entry_setEntry_of_ne (h.ready.dvd_table h.table) h.ready.poolAligned.1
    fun he => absurd he.symm (h.ne h.path_mem h.table)]
  have hzero : (s.memory.fill s.pool.next pageSize 0).word (s.pool.next + 8 * j.val) 8 = 0 := by
    refine ByteStore.word_fill_zero _ (Nat.le_add_right _ _) ?_
    have := j.isLt
    simp only [pageSize]
    omega
  show BitVec.ofNat 64 ((s.memory.fill s.pool.next pageSize 0).word _ 8) = 0
  rw [hzero]
  rfl

theorem Makes.grown (h : Makes root data s path t i) :
    Grown s.child (s.grow t i).child tablePaths root path t i s.pool.next where
  closed := closed_tablePaths
  tree := h.ready.tree
  mem := h.path_mem
  node := h.table
  new q hq hreach := h.ne hq hreach rfl
  free := if_neg fun hp => h.free hp.1
  linked := by
    rw [child_eq_some, Loader.grow, entry_setEntry_self]
    have hdvd := h.ready.poolAligned.1
    exact ⟨⟨present_kernelEntry _, not_huge_kernelEntry hdvd h.width⟩,
      address_kernelEntry hdvd h.width⟩
  bare j := by
    rw [Loader.child, h.entry_new]
    exact if_neg fun hp => not_present_zero hp.1
  others q hq c j hc hne := child_congr (h.entry hq hc j hne)

theorem Makes.free_grow (h : Makes root data s path t i) {p : ℕ} (hp : (s.grow t i).Free p) :
    s.Free p ∧ ¬ (s.pool.next ≤ p ∧ p < s.pool.next + pageSize) := by
  have hle := h.pool_le
  rcases hp with ⟨g, hg, hin⟩ | ⟨hnext, hstop⟩
  · refine ⟨Or.inl ⟨g, hg, hin⟩, fun hpool => ?_⟩
    have hdisjoint := Set.disjoint_left.mp (h.ready.poolApart g hg)
    exact hdisjoint ⟨hpool.1, by omega⟩ hin
  · have hnext' : s.pool.next + pageSize ≤ p := hnext
    exact ⟨Or.inr ⟨by omega, hstop⟩, fun hpool => by omega⟩

theorem memory_grow {x : ℕ}
    (hnew : ¬ (s.pool.next ≤ x ∧ x < s.pool.next + pageSize)) (ht : ∀ k < pageSize, x ≠ t + k) :
    (s.grow t i).memory x = s.memory x := by
  rw [Loader.grow, memory_setEntry ht]
  exact if_neg hnew

theorem Makes.reach_grow (h : Makes root data s path t i)
    (hq : q ∈ tablePaths) (hc : reach s.child q root = some c) :
    reach (s.grow t i).child q root = some c := by
  rw [h.grown.reach_eq hq, hc]
  rintro rfl
  rw [reach_concat, h.table] at hc
  exact absurd (hc.symm.trans h.grown.free) nofun

/-- **A table is made**, and nothing else changes. -/
theorem Makes.extends (h : Makes root data s path t i) : Extends root data s (s.grow t i) where
  ready :=
    { aligned := h.ready.aligned
      apart := h.ready.apart
      poolAligned := ⟨Nat.dvd_add h.ready.poolAligned.1 (Nat.dvd_refl _), h.ready.poolAligned.2⟩
      poolApart := fun g hg => (h.ready.poolApart g hg).mono_left
        (Set.Ico_subset_Ico_left (Nat.le_add_right _ _))
      width := fun p hp => h.ready.width p (h.free_grow hp).1
      rootAligned := h.ready.rootAligned
      tree := h.grown.isTree
      tables := fun q hq c hc k hk => by
        obtain ⟨-, rfl⟩ | ⟨-, -, hold⟩ := h.grown.reach_cases hq hc
        · refine ⟨fun hfree => (h.free_grow hfree).2 ⟨Nat.le_add_right _ _, by omega⟩, fun hd => ?_⟩
          exact h.ready.data _ hd (h.free_page hk)
        · obtain ⟨hfree, hdata⟩ := h.ready.tables q hq c hold k hk
          exact ⟨fun hf => hfree (h.free_grow hf).1, hdata⟩
      data := fun p hp hf => h.ready.data p hp (h.free_grow hf).1 }
  regions := rfl
  reserved := rfl
  placed := rfl
  memory x hx := by
    refine memory_grow (fun hin => h.ready.data x hx ?_) ?_
    · have hfree := h.free_page (show x - s.pool.next < pageSize by omega)
      rwa [Nat.add_sub_cancel' hin.1] at hfree
    · rintro k hk rfl
      exact (h.ready.tables path h.path_mem t h.table k hk).2 hx
  others x hx := by
    refine memory_grow (fun hin => ?_) ?_
    · exact hx ⟨path ++ [i], h.mem, s.pool.next, h.grown.reach_new, hin⟩
    · rintro k hk rfl
      have hreach := h.reach_grow h.path_mem h.table
      exact hx ⟨path, h.path_mem, t, hreach, Nat.le_add_right t k, Nat.add_lt_add_left hk t⟩
  tables x hx := by
    obtain ⟨q, hq, c, hc, hin⟩ := hx
    exact ⟨q, hq, c, h.reach_grow hq hc, hin⟩
  keeps v p hv := by
    obtain ⟨c, hc, hp, rfl⟩ := translate_eq_some hv
    have hupper := upperIndices_mem_tablePaths v
    -- The entry is present, and the one that is written was not.
    have hentry : (s.grow t i).entry c (lastIndex v) = s.entry c (lastIndex v) := by
      refine h.entry hupper hc _ fun hct hlast => ?_
      rw [hct, hlast] at hp
      exact h.free hp
    rw [← hentry] at hp ⊢
    exact translate_of_reach (h.reach_grow hupper hc) hp

/-- **One step** of the walk. -/
theorem extends_nextTable (h : Ready root data s) (hpath : path ++ [i] ∈ tablePaths)
    (ht : reach s.child path root = some t) {t' : ℕ} (hnext : nextTable t i s = some (t', s')) :
    Extends root data s s' ∧ reach s'.child (path ++ [i]) root = some t' := by
  rw [nextTable] at hnext
  by_cases hp : present (s.entry t i)
  · simp only [hp, not_true_eq_false, ↓reduceIte] at hnext
    split_ifs at hnext with hhuge
    obtain ⟨rfl, rfl⟩ := Prod.mk.inj (Option.some.inj hnext)
    refine ⟨.refl h, ?_⟩
    rw [reach_concat, ht]
    exact if_pos ⟨hp, hhuge⟩
  · simp only [hp, not_false_eq_true, ↓reduceIte] at hnext
    obtain ⟨⟨b, s₁⟩, hallocate, hnext⟩ := Option.bind_eq_some_iff.mp hnext
    obtain ⟨rfl, hpool, rfl⟩ := allocateTable_eq_some hallocate
    obtain ⟨rfl, rfl⟩ := Prod.mk.inj (Option.some.inj hnext)
    have hmakes : Makes root data s path t i := ⟨h, hpath, ht, hp, hpool⟩
    refine ⟨hmakes.extends, ?_⟩
    rw [address_kernelEntry h.poolAligned.1 hmakes.width]
    exact hmakes.grown.reach_new

/-- **The walk** to a table. -/
theorem extends_descend {rest : List (Fin 512)} (h : Ready root data s)
    (hpath : path ++ rest ∈ tablePaths) (ht : reach s.child path root = some t) {t' : ℕ}
    (hdescend : descend rest t s = some (t', s')) :
    Extends root data s s' ∧ reach s'.child (path ++ rest) root = some t' := by
  induction rest generalizing path t s with
  | nil =>
    obtain ⟨rfl, rfl⟩ := Prod.mk.inj (Option.some.inj hdescend)
    exact ⟨.refl h, by rwa [List.append_nil]⟩
  | cons i rest ih =>
    obtain ⟨⟨t₁, s₁⟩, hnext, hrest⟩ := Option.bind_eq_some_iff.mp hdescend
    have hstep : path ++ [i] ++ rest ∈ tablePaths := by
      rwa [List.append_assoc, List.singleton_append]
    have hmem : path ++ [i] ∈ tablePaths := by
      show (path ++ [i]).length ≤ 3
      have hlength : (path ++ [i] ++ rest).length ≤ 3 := hstep
      rw [List.length_append] at hlength
      omega
    obtain ⟨hextends, hreach⟩ := extends_nextTable h hmem ht hnext
    obtain ⟨hextends', hreach'⟩ := ih hextends.ready hstep hreach hrest
    rw [List.append_assoc, List.singleton_append] at hreach'
    exact ⟨hextends.trans hextends', hreach'⟩

variable {v : ℕ}

/-- The entry of a page that is not present is written. -/
theorem extends_setEntry {f : ℕ} (h : Ready root data s)
    (ht : reach s.child (upperIndices v) root = some t)
    (hfree : ¬ present (s.entry t (lastIndex v))) (hdvd : pageSize ∣ f) (hlt : f < 2 ^ 52) :
    Extends root data s (s.setEntry t (lastIndex v) (kernelEntry f)) ∧
      translate root (s.setEntry t (lastIndex v) (kernelEntry f)) v = some (f + v % pageSize) := by
  have hupper := upperIndices_mem_tablePaths v
  have htable := h.dvd_table ht
  have hentry : ∀ q ∈ tablePaths, ∀ c, reach s.child q root = some c → ∀ j,
      (c = t → j ≠ lastIndex v) →
      (s.setEntry t (lastIndex v) (kernelEntry f)).entry c j = s.entry c j :=
    fun q _ c hc j hne => entry_setEntry_of_ne htable (h.dvd_table hc) hne
  -- The tables of pages are behind those on the way.
  have hreach : ∀ q ∈ tablePaths,
      reach (s.setEntry t (lastIndex v) (kernelEntry f)).child q root = reach s.child q root := by
    refine fun q hq => Radix.reach_congr closed_tablePaths (fun q j c hqj hc => ?_) hq
    have hmem := closed_tablePaths q j hqj
    refine child_congr (hentry q hmem c hc j fun hct => ?_)
    rw [hct] at hc
    have hlength : (q ++ [j]).length ≤ 3 := hqj
    rw [h.tree q hmem _ hupper t hc ht] at hlength
    exact absurd hlength (Nat.not_succ_le_self 3)
  refine ⟨⟨{ h with tree := ?_, tables := ?_ }, rfl, rfl, rfl, fun x hx => ?_, fun x hx => ?_,
    fun x hx => ?_, fun w p hw => ?_⟩, ?_⟩
  · intro p hp q hq c hpc hqc
    rw [hreach p hp] at hpc
    rw [hreach q hq] at hqc
    exact h.tree p hp q hq c hpc hqc
  · intro q hq c hc
    rw [hreach q hq] at hc
    exact h.tables q hq c hc
  · refine memory_setEntry ?_
    rintro k hk rfl
    exact (h.tables _ hupper t ht k hk).2 hx
  · refine memory_setEntry ?_
    rintro k hk rfl
    exact hx ⟨_, hupper, t, (hreach _ hupper).trans ht, Nat.le_add_right t k,
      Nat.add_lt_add_left hk t⟩
  · obtain ⟨q, hq, c, hc, hin⟩ := hx
    exact ⟨q, hq, c, (hreach q hq).trans hc, hin⟩
  · obtain ⟨c, hc, hp, rfl⟩ := translate_eq_some hw
    have hmem := upperIndices_mem_tablePaths w
    have hsame := hentry _ hmem c hc (lastIndex w) fun hct hlast => by
      rw [hct, hlast] at hp
      exact hfree hp
    rw [← hsame] at hp ⊢
    exact translate_of_reach ((hreach _ hmem).trans hc) hp
  · have hself : (s.setEntry t (lastIndex v) (kernelEntry f)).entry t (lastIndex v) =
        kernelEntry f := entry_setEntry_self
    have hp : present ((s.setEntry t (lastIndex v) (kernelEntry f)).entry t (lastIndex v)) := by
      rw [hself]
      exact present_kernelEntry f
    rw [translate_of_reach ((hreach _ hupper).trans ht) hp, hself, address_kernelEntry hdvd hlt]

/-- An address in the page at `v` has the indices of the page. -/
theorem translate_offset (hv : pageSize ∣ v) (hk : k < pageSize) {p : ℕ}
    (h : translate root s v = some p) : translate root s (v + k) = some (p + k) := by
  obtain ⟨t, ht, hp, rfl⟩ := translate_eq_some h
  have hindices : upperIndices (v + k) = upperIndices v ∧ lastIndex (v + k) = lastIndex v := by
    obtain ⟨x, rfl⟩ := hv
    simp only [upperIndices, lastIndex, tableIndex, List.cons.injEq, Fin.mk.injEq, and_true,
      pageSize] at hk ⊢
    omega
  have hmod : (v + k) % pageSize = v % pageSize + k := by
    obtain ⟨x, rfl⟩ := hv
    rw [Nat.mul_add_mod, Nat.mul_mod_right, Nat.mod_eq_of_lt hk, Nat.zero_add]
  rw [← hindices.1] at ht
  rw [← hindices.2] at hp
  rw [translate_of_reach ht hp, hindices.2, hmod, Nat.add_assoc]

/-- **A page is mapped**: its addresses lead to the page of memory, byte for byte. -/
theorem mapPage_spec {f : ℕ} (h : Ready root data s) (hv : pageSize ∣ v) (hdvd : pageSize ∣ f)
    (hlt : f < 2 ^ 52) (hmap : mapPage root v f s = some s') :
    Extends root data s s' ∧ ∀ k < pageSize, translate root s' (v + k) = some (f + k) := by
  obtain ⟨⟨t, s₁⟩, hdescend, hentry⟩ := Option.bind_eq_some_iff.mp hmap
  obtain ⟨hextends, hreach⟩ :=
    @extends_descend root data s s₁ [] root (upperIndices v) h (upperIndices_mem_tablePaths v) rfl t
      hdescend
  dsimp only at hentry
  split_ifs at hentry with hp
  obtain rfl := Option.some.inj hentry
  obtain ⟨hextends', htranslate⟩ := extends_setEntry hextends.ready hreach hp hdvd hlt
  refine ⟨hextends.trans hextends', fun k hk => ?_⟩
  have hzero : v % pageSize = 0 := Nat.mod_eq_zero_of_dvd hv
  rw [hzero, Nat.add_zero] at htranslate
  exact translate_offset hv hk htranslate

end Ready

end ImagineOS.Bootstrap
