import ImagineOS.Memory.Clone
import ImagineOS.Radix

/-!
# Physical memory: mapping a page

`map_user_page` walks from the root of an address space to the table of a page, makes the tables
that are missing, and puts a new frame into the entry of the page. The tables of an address space
are a tree, and the page tables at depth three are a partial map from pages to frames: a table that
is made has no entry yet, and a table that is widened was visible already, so the only entry that
changes is that of the page.
-/

namespace ImagineOS.Memory

open Radix List Nat

/-! ### The functions of the source -/

abbrev userMin : ℕ := 0x400000

abbrev userMax : ℕ := 0x0000800000000000

inductive MapError
  | invalidAddress
  | outOfMemory
  | alreadyMapped
  deriving DecidableEq

/-- `entry & ENTRY_USER != 0` -/
def user (e : BitVec 64) : Prop := e &&& entryUser ≠ 0

instance : DecidablePred user := fun e => inferInstanceAs (Decidable (e &&& entryUser ≠ 0))

/-- `(virtual_address >> shift) & 0x1ff` -/
def tableIndex (virtualAddress shift : ℕ) : Fin 512 :=
  ⟨virtualAddress / 2 ^ shift % 512, Nat.mod_lt _ (by decide)⟩

/-- The first three of the `indices`. -/
def upperIndices (virtualAddress : ℕ) : List (Fin 512) :=
  [tableIndex virtualAddress 39, tableIndex virtualAddress 30, tableIndex virtualAddress 21]

/-- `indices[3]` -/
def lastIndex (virtualAddress : ℕ) : Fin 512 := tableIndex virtualAddress 12

def physToVirt (s : Machine) (physical : ℕ) : Option ℕ :=
  if physical + s.allocator.hhdmOffset < 2 ^ 64 then some (physical + s.allocator.hhdmOffset)
  else none

/-- A new frame, all zero, and an entry for it. -/
def Machine.link (s : Machine) (a : FrameAllocator) (frame : Frame) (table : ℕ)
    (index : Fin 512) : Machine :=
  s.install a frame.physicalAddress (fun _ => 0) table index (tableEntry frame.physicalAddress)

/-- `*entry |= ENTRY_WRITABLE | ENTRY_USER` -/
def Machine.widen (s : Machine) (table : ℕ) (index : Fin 512) : Machine :=
  s.write table (Function.update (s.memory table) index
    (s.memory table index ||| entryWritable ||| entryUser))

/-- The body of the loop of `map_user_page`: the next table, which is made if it is missing. -/
def nextTable (tablePhysical : ℕ) (index : Fin 512) (s : Machine) : Option ℕ × Machine :=
  match tablePointer s tablePhysical with
  | none => (none, s)
  | some table =>
    if ¬ present (s.memory table index) then
      match allocateFrame s.allocator with
      | (none, allocator) => (none, { s with allocator := allocator })
      | (some frame, allocator) =>
        let s := s.link allocator frame table index
        (some (address (s.memory table index)), s)
    else
      let s := s.widen table index
      (some (address (s.memory table index)), s)

/-- The loop of `map_user_page`. -/
def descend : List (Fin 512) → ℕ → Machine → Option ℕ × Machine
  | [], tablePhysical, s => (some tablePhysical, s)
  | index :: rest, tablePhysical, s =>
    match nextTable tablePhysical index s with
    | (none, s) => (none, s)
    | (some next, s) => descend rest next s

/-- The end of `map_user_page`: a frame for the entry of the page. -/
def mapEntry (tablePhysical : ℕ) (index : Fin 512) (s : Machine) : Except MapError ℕ × Machine :=
  match tablePointer s tablePhysical with
  | none => (.error .outOfMemory, s)
  | some table =>
    if present (s.memory table index) then (.error .alreadyMapped, s)
    else match allocateFrame s.allocator with
    | (none, allocator) => (.error .outOfMemory, { s with allocator := allocator })
    | (some frame, allocator) =>
      (.ok frame.virtualAddress, s.link allocator frame table index)

/-- `AddressSpace::map_user_page` -/
def mapUserPage (root virtualAddress : ℕ) (s : Machine) : Except MapError ℕ × Machine :=
  if ¬ (userMin ≤ virtualAddress ∧ virtualAddress < userMax) then (.error .invalidAddress, s)
  else
    let pageAddress := alignDown virtualAddress
    match descend (upperIndices pageAddress) root s with
    | (none, s) => (.error .outOfMemory, s)
    | (some table, s) => mapEntry table (lastIndex pageAddress) s

/-- The loop of `translate`. -/
def visibleTable (s : Machine) : List (Fin 512) → ℕ → Option ℕ
  | [], tablePhysical => some tablePhysical
  | index :: rest, tablePhysical =>
    match tablePointer s tablePhysical with
    | none => none
    | some table =>
      if ¬ present (s.memory table index) ∨ ¬ user (s.memory table index) then none
      else visibleTable s rest (address (s.memory table index))

/-- `AddressSpace::translate` -/
def translate (root virtualAddress : ℕ) (s : Machine) : Option ℕ :=
  match visibleTable s (upperIndices virtualAddress) root with
  | none => none
  | some tablePhysical =>
    match tablePointer s tablePhysical with
    | none => none
    | some table =>
      let entry := s.memory table (lastIndex virtualAddress)
      if ¬ present entry ∨ ¬ user entry then none
      else physToVirt s (address entry ||| virtualAddress % pageSize)

/-! ### Well-formed tables -/

/-- The table to which an entry leads. -/
def next (memory : ℕ → Table) (table : ℕ) (index : Fin 512) : Option ℕ :=
  if present (memory table index) then some (address (memory table index)) else none

/-- The paths to the tables of the user half: the last of them are the tables of pages. -/
def userPaths : Set (List (Fin 512)) := {path | path.length ≤ 3 ∧ ∀ i ∈ path.head?, i.val < 256}

/-- The frames in the user half: its tables and its pages. The other half maps all of memory. -/
def Reachable (root : ℕ) (s : Machine) (p : ℕ) : Prop :=
  (∃ path ∈ userPaths, reach (next s.memory) path root = some p) ∨
    ∃ path ∈ userPaths, ∃ table i, path.length = 3 ∧
      reach (next s.memory) path root = some table ∧ next s.memory table i = some p

/-- **Well-formed tables.** The tables of the user half are a tree, in the direct map, and visible
to programs; and no table or page of it is still to be handed out. -/
structure WellFormed (root : ℕ) (s : Machine) : Prop where
  usable : s.allocator.Usable
  offset : pageSize ∣ s.allocator.hhdmOffset
  tree : Tree (next s.memory) userPaths root
  direct : ∀ path ∈ userPaths, ∀ table, reach (next s.memory) path root = some table →
    table + s.allocator.hhdmOffset < 2 ^ 64
  visible : ∀ path i table, path ++ [i] ∈ userPaths →
    reach (next s.memory) path root = some table → present (s.memory table i) →
      user (s.memory table i)
  owned : ∀ p, Reachable root s p → ¬ s.allocator.Available p

/-- The entry of a page. -/
def leaf (root : ℕ) (s : Machine) (path : List (Fin 512)) (index : Fin 512) : BitVec 64 :=
  match reach (next s.memory) path root with
  | some table => s.memory table index
  | none => 0

/-! ### Entries -/

section Entries

variable {e : BitVec 64} {p : ℕ}

theorem user_tableEntry (p : ℕ) : user (tableEntry p) := by
  intro h
  have hbit := congrArg (fun x : BitVec 64 => x.getLsbD 2) h
  simp [tableEntry, entryUser] at hbit

theorem address_widened (e : BitVec 64) :
    address (e ||| entryWritable ||| entryUser) = address e := by
  have hmask : (e ||| entryWritable ||| entryUser) &&& entryMask = e &&& entryMask := by
    rw [BitVec.and_or_distrib_right, BitVec.and_or_distrib_right]
    simp [entryMask, entryWritable, entryUser]
  rw [address, hmask, address]

theorem present_widened : present (e ||| entryWritable ||| entryUser) ↔ present e := by
  have hbits : (e ||| entryWritable ||| entryUser) &&& entryPresent = e &&& entryPresent := by
    rw [BitVec.and_or_distrib_right, BitVec.and_or_distrib_right]
    simp [entryPresent, entryWritable, entryUser]
  rw [present, hbits, present]

theorem user_widened (e : BitVec 64) : user (e ||| entryWritable ||| entryUser) := by
  intro h
  have hbit := congrArg (fun x : BitVec 64 => x.getLsbD 2) h
  simp [entryUser] at hbit

theorem dvd_address (e : BitVec 64) : pageSize ∣ address e := by
  have hbits : ∀ i < 12, (address e).testBit i = false := fun i hi => by
    rw [address, BitVec.testBit_toNat, BitVec.getLsbD_and,
      getLsbD_entryMask ⟨i, hi.trans (by decide)⟩]
    simp [not_le.mpr hi]
  refine dvd_of_mod_eq_zero (eq_of_testBit_eq fun i => ?_)
  show (address e % 2 ^ 12).testBit i = (0 : ℕ).testBit i
  rw [testBit_mod_two_pow, zero_testBit]
  by_cases hi : i < 12
  · rw [hbits i hi, Bool.and_false]
  · rw [decide_eq_false hi, Bool.false_and]

theorem or_offset (hdvd : pageSize ∣ p) (v : ℕ) : p ||| v % pageSize = p + v % pageSize := by
  obtain ⟨k, rfl⟩ := hdvd
  exact (two_pow_add_eq_or_of_lt (i := 12) (mod_lt v (by decide)) k).symm

end Entries

/-! ### Trees of tables -/

theorem closed_userPaths : Closed userPaths := by
  rintro path i ⟨hlength, hhead⟩
  rw [length_append] at hlength
  refine ⟨le_of_add_right_le hlength, fun j hj => hhead j ?_⟩
  cases path with
  | nil => exact absurd hj (by simp)
  | cons k path => exact hj

theorem prefix_mem {path rest : List (Fin 512)} (h : path ++ rest ∈ userPaths) :
    path ∈ userPaths := by
  induction rest using List.reverseRecOn with
  | nil => rwa [append_nil] at h
  | append_singleton rest i ih =>
    rw [← append_assoc] at h
    exact ih (closed_userPaths _ i h)

section WellFormed

variable {root : ℕ} {s : Machine} {path : List (Fin 512)} {t : ℕ}

theorem next_eq_some {memory : ℕ → Table} {table p : ℕ} {i : Fin 512} :
    next memory table i = some p ↔ present (memory table i) ∧ address (memory table i) = p := by
  rw [next]
  split
  · rename_i h
    exact ⟨fun he => ⟨h, Option.some.inj he⟩, fun he => congrArg some he.2⟩
  · rename_i h
    exact ⟨nofun, fun he => absurd he.1 h⟩

theorem WellFormed.table (h : WellFormed root s) (hpath : path ∈ userPaths)
    (ht : reach (next s.memory) path root = some t) :
    tablePointer s t = some t ∧ ¬ s.allocator.Available t :=
  ⟨if_pos (h.direct path hpath t ht), h.owned t (Or.inl ⟨path, hpath, ht⟩)⟩

theorem leaf_of_reach (ht : reach (next s.memory) path root = some t) (i : Fin 512) :
    leaf root s path i = s.memory t i := by
  rw [leaf, ht]

theorem leaf_of_none (ht : reach (next s.memory) path root = none) (i : Fin 512) :
    leaf root s path i = 0 := by
  rw [leaf, ht]

/-- The walk of `translate` is that to a table, since tables are visible. -/
theorem WellFormed.visibleTable (h : WellFormed root s) {rest : List (Fin 512)}
    (hpath : path ++ rest ∈ userPaths) (ht : reach (next s.memory) path root = some t) :
    visibleTable s rest t = reach (next s.memory) rest t := by
  induction rest generalizing path t with
  | nil => rfl
  | cons index rest ih =>
    have hstep : path ++ [index] ++ rest ∈ userPaths := by
      rwa [append_assoc, singleton_append]
    have hentry := prefix_mem hstep
    rw [Memory.visibleTable, (h.table (prefix_mem hentry) ht).1]
    show (if ¬ present (s.memory t index) ∨ ¬ user (s.memory t index) then none
      else Memory.visibleTable s rest (address (s.memory t index))) =
      (next s.memory t index).bind (reach (next s.memory) rest)
    by_cases hp : present (s.memory t index)
    · have hu := h.visible path index t hentry ht hp
      rw [if_neg (not_or.mpr ⟨not_not_intro hp, not_not_intro hu⟩), next, if_pos hp]
      refine ih hstep ?_
      rw [reach_concat, ht]
      exact if_pos hp
    · rw [if_pos (Or.inl hp), next, if_neg hp]
      rfl

theorem upperIndices_mem {v : ℕ} (hv : v < userMax) : upperIndices v ∈ userPaths := by
  refine ⟨le_rfl, fun i hi => ?_⟩
  cases hi
  show v / 2 ^ 39 % 512 < 256
  have hlt : v / 2 ^ 39 < 256 := Nat.div_lt_of_lt_mul hv
  exact (Nat.mod_le _ _).trans_lt hlt

/-- **A translation** is read off the entry of a page. -/
theorem translate_eq (h : WellFormed root s) {v : ℕ} (hv : v < userMax) :
    translate root v s =
      if present (leaf root s (upperIndices v) (lastIndex v)) ∧
          user (leaf root s (upperIndices v) (lastIndex v)) then
        physToVirt s (address (leaf root s (upperIndices v) (lastIndex v)) + v % pageSize)
      else none := by
  have hmem := upperIndices_mem hv
  have hwalk : Memory.visibleTable s (upperIndices v) root =
      reach (next s.memory) (upperIndices v) root :=
    @WellFormed.visibleTable root s [] root h (upperIndices v) hmem rfl
  rw [translate, hwalk]
  rcases ht : reach (next s.memory) (upperIndices v) root with _ | t
  · rw [leaf_of_none ht]
    exact (if_neg fun hp => not_present_zero hp.1).symm
  · rw [leaf_of_reach ht]
    show (match tablePointer s t with | none => _ | some table => _) = _
    rw [(h.table hmem ht).1]
    show (if ¬ present (s.memory t (lastIndex v)) ∨ ¬ user (s.memory t (lastIndex v)) then none
      else physToVirt s (address (s.memory t (lastIndex v)) ||| v % pageSize)) = _
    rw [or_offset (dvd_address _)]
    by_cases hp : present (s.memory t (lastIndex v)) ∧ user (s.memory t (lastIndex v))
    · rw [if_pos hp, if_neg (not_or.mpr ⟨not_not_intro hp.1, not_not_intro hp.2⟩)]
    · rw [if_neg hp, if_pos (not_and_or.mp hp)]

end WellFormed

/-! ### New frames -/

section Install

variable {root : ℕ} {s : Machine} {a : FrameAllocator} {frame : Frame} {path : List (Fin 512)}
  {t : ℕ} {index : Fin 512}

/-- **A frame is put into a free entry** of a table, or of a table of pages. -/
structure Installs (root : ℕ) (s : Machine) (path : List (Fin 512)) (t : ℕ) (index : Fin 512)
    (a : FrameAllocator) (frame : Frame) : Prop where
  wellFormed : WellFormed root s
  mem : path ∈ userPaths
  table : reach (next s.memory) path root = some t
  free : ¬ present (s.memory t index)
  usable : a.Usable
  allocated : Allocated s.allocator a (some frame)

theorem Installs.available (h : Installs root s path t index a frame) :
    s.allocator.Available frame.physicalAddress :=
  (h.allocated.taken frame rfl).1

theorem Installs.new (h : Installs root s path t index a frame) {p : ℕ}
    (hp : Reachable root s p) : p ≠ frame.physicalAddress :=
  fun he => h.wellFormed.owned p hp (he ▸ h.available)

theorem Installs.ne (h : Installs root s path t index a frame) : frame.physicalAddress ≠ t :=
  (h.new (Or.inl ⟨path, h.mem, h.table⟩)).symm

theorem Installs.address_entry (h : Installs root s path t index a frame) :
    address (tableEntry frame.physicalAddress) = frame.physicalAddress :=
  address_tableEntry h.available.1 (h.wellFormed.usable.width _ h.available)

theorem Installs.entry (h : Installs root s path t index a frame) {c : ℕ}
    (hc : c ≠ frame.physicalAddress) (j : Fin 512) :
    (s.link a frame t index).memory c j =
      if c = t ∧ j = index then tableEntry frame.physicalAddress else s.memory c j := by
  by_cases hct : c = t
  · subst hct
    rw [Machine.link, install_entry h.ne]
    simp only [true_and]
  · rw [Machine.link, install_others hc hct, if_neg fun h => hct h.1]

theorem Installs.grown (h : Installs root s path t index a frame) :
    Grown (next s.memory) (next (s.link a frame t index).memory) userPaths root path t index
      frame.physicalAddress where
  closed := closed_userPaths
  tree := h.wellFormed.tree
  mem := h.mem
  node := h.table
  new q hq hreach := h.new (Or.inl ⟨q, hq, hreach⟩) rfl
  free := if_neg h.free
  linked := by
    rw [next_eq_some, h.entry h.ne.symm, if_pos ⟨rfl, rfl⟩]
    exact ⟨present_tableEntry _, h.address_entry⟩
  bare j := by
    rw [next, Machine.link, install_frame h.ne]
    exact if_neg not_present_zero
  others q hq c j hreach hne := by
    have hentry : ¬ (c = t ∧ j = index) := fun he => hne he.1 he.2
    rw [next, next, h.entry (h.new (Or.inl ⟨q, hq, hreach⟩)), if_neg hentry]

theorem Installs.reachable (h : Installs root s path t index a frame) {p : ℕ}
    (hp : Reachable root (s.link a frame t index) p) :
    Reachable root s p ∨ p = frame.physicalAddress := by
  rcases hp with ⟨q, hq, hreach⟩ | ⟨q, hq, c, j, hlength, hreach, hnext⟩
  · obtain ⟨-, hp⟩ | ⟨-, -, hreach⟩ := h.grown.reach_cases hq hreach
    · exact Or.inr hp
    · exact Or.inl (Or.inl ⟨q, hq, hreach⟩)
  · obtain ⟨-, rfl⟩ | ⟨-, -, hreach⟩ := h.grown.reach_cases hq hreach
    · rw [h.grown.bare j] at hnext
      cases hnext
    · by_cases hj : c = t → j ≠ index
      · rw [h.grown.others q hq c j hreach hj] at hnext
        exact Or.inl (Or.inr ⟨q, hq, c, j, hlength, hreach, hnext⟩)
      · obtain ⟨hct, hindex⟩ := Classical.not_imp.mp hj
        rw [hct, not_not.mp hindex, h.grown.linked] at hnext
        exact Or.inr (Option.some.inj hnext).symm

/-- **The tables are well-formed** afterwards. -/
theorem Installs.wellFormed_link (h : Installs root s path t index a frame) :
    WellFormed root (s.link a frame t index) where
  usable := h.usable
  offset := h.allocated.hhdmOffset ▸ h.wellFormed.offset
  tree := h.grown.isTree
  direct q hq c hreach := by
    show c + a.hhdmOffset < 2 ^ 64
    rw [h.allocated.hhdmOffset]
    obtain ⟨-, rfl⟩ | ⟨-, -, hreach⟩ := h.grown.reach_cases hq hreach
    · exact h.wellFormed.usable.mapped _ h.available
    · exact h.wellFormed.direct q hq c hreach
  visible q j c hq hreach hpresent := by
    obtain ⟨-, rfl⟩ | ⟨-, hc, hreach⟩ := h.grown.reach_cases (closed_userPaths q j hq) hreach
    · rw [Machine.link, install_frame h.ne] at hpresent
      exact absurd hpresent not_present_zero
    · rw [h.entry hc] at hpresent ⊢
      split
      · exact user_tableEntry _
      · rename_i hne
        rw [if_neg hne] at hpresent
        exact h.wellFormed.visible q j c hq hreach hpresent
  owned p hp := by
    rcases h.reachable hp with hold | rfl
    · exact fun ha => h.wellFormed.owned p hold (h.allocated.available p ha)
    · exact (h.allocated.taken frame rfl).2.1

/-- **The only entry of a page that changes** is the one that was free. -/
theorem Installs.leaf_eq (h : Installs root s path t index a frame) {q : List (Fin 512)}
    (hq : q ∈ userPaths) (j : Fin 512) :
    leaf root (s.link a frame t index) q j =
      if q = path ∧ j = index then tableEntry frame.physicalAddress else leaf root s q j := by
  by_cases hnew : q = path ++ [index]
  · -- A new table of pages has no entry, and there was no table.
    have hnone : reach (next s.memory) q root = none := by
      rw [hnew, reach_concat, h.table]
      exact h.grown.free
    have hreach := h.grown.reach_new
    have hne : q ≠ path := fun he => by
      have := congrArg List.length (hnew.symm.trans he)
      rw [length_append] at this
      exact absurd this (succ_ne_self _)
    rw [← hnew] at hreach
    rw [leaf_of_reach hreach, leaf_of_none hnone, if_neg fun he => hne he.1, Machine.link,
      install_frame h.ne]
  · rcases hreach : reach (next s.memory) q root with _ | c
    · have hreach' := (h.grown.reach_eq hq hnew).trans hreach
      have hne : q ≠ path := fun he => by
        rw [he, h.table] at hreach
        cases hreach
      rw [leaf_of_none hreach', leaf_of_none hreach, if_neg fun he => hne he.1]
    · have hreach' := (h.grown.reach_eq hq hnew).trans hreach
      have hct : c = t ↔ q = path := by
        constructor
        · rintro rfl
          exact h.wellFormed.tree q hq path h.mem c hreach h.table
        · rintro rfl
          exact Option.some.inj (hreach.symm.trans h.table)
      rw [leaf_of_reach hreach', leaf_of_reach hreach, h.entry (h.new (Or.inl ⟨q, hq, hreach⟩))]
      exact if_congr (and_congr_left' hct) rfl rfl

end Install

/-! ### Tables on the way -/

/-- **What making tables does**: the tables there are stay where they are, no entry of a page
changes, and a frame that is handed out is gone. -/
structure Grows (root : ℕ) (s s' : Machine) : Prop where
  wellFormed : WellFormed root s'
  leaves : ∀ path ∈ userPaths, path.length = 3 → ∀ i, leaf root s' path i = leaf root s path i
  hhdmOffset : s'.allocator.hhdmOffset = s.allocator.hhdmOffset
  kept : ∀ p, Reachable root s p → Reachable root s' p

section Grows

variable {root : ℕ} {s s' s'' : Machine} {a : FrameAllocator} {path : List (Fin 512)} {t : ℕ}
  {index : Fin 512}

theorem Grows.refl (h : WellFormed root s) : Grows root s s where
  wellFormed := h
  leaves _ _ _ _ := rfl
  hhdmOffset := rfl
  kept _ hp := hp

theorem Grows.trans (h : Grows root s s') (h' : Grows root s' s'') : Grows root s s'' where
  wellFormed := h'.wellFormed
  leaves path hpath hlength i :=
    (h'.leaves path hpath hlength i).trans (h.leaves path hpath hlength i)
  hhdmOffset := h'.hhdmOffset.trans h.hhdmOffset
  kept p hp := h'.kept p (h.kept p hp)

theorem grows_allocate (h : WellFormed root s) {o : Option Frame} (ha : a.Usable)
    (hall : Allocated s.allocator a o) : Grows root s { s with allocator := a } where
  wellFormed :=
    { usable := ha
      offset := show pageSize ∣ a.hhdmOffset from hall.hhdmOffset ▸ h.offset
      tree := h.tree
      direct := fun q hq c hc => by
        show c + a.hhdmOffset < 2 ^ 64
        rw [hall.hhdmOffset]
        exact h.direct q hq c hc
      visible := h.visible
      owned := fun p hp hav => h.owned p hp (hall.available p hav) }
  leaves _ _ _ _ := rfl
  hhdmOffset := hall.hhdmOffset
  kept _ hp := hp

theorem Installs.grows {frame : Frame} (h : Installs root s path t index a frame)
    (hlength : path.length < 3) : Grows root s (s.link a frame t index) where
  wellFormed := h.wellFormed_link
  leaves q hq hq3 j := by
    rw [h.leaf_eq hq]
    refine if_neg fun he => ?_
    rw [he.1] at hq3
    omega
  hhdmOffset := h.allocated.hhdmOffset
  kept p hp := by
    rcases hp with ⟨q, hq, hreach⟩ | ⟨q, hq, c, j, hq3, hreach, hnext⟩
    · refine Or.inl ⟨q, hq, ?_⟩
      rw [h.grown.reach_eq hq, hreach]
      rintro rfl
      rw [reach_concat, h.table] at hreach
      exact absurd (hreach.symm.trans h.grown.free) nofun
    · refine Or.inr ⟨q, hq, c, j, hq3, ?_, ?_⟩
      · rw [h.grown.reach_eq hq, hreach]
        rintro rfl
        rw [reach_concat, h.table] at hreach
        exact absurd (hreach.symm.trans h.grown.free) nofun
      · have hct : c ≠ t := by
          rintro rfl
          rw [h.wellFormed.tree q hq path h.mem c hreach h.table] at hq3
          omega
        rw [h.grown.others q hq c j hreach fun he => absurd he hct, hnext]

theorem widen_entry (c : ℕ) (j : Fin 512) :
    (s.widen t index).memory c j = if c = t ∧ j = index then
      s.memory t index ||| entryWritable ||| entryUser else s.memory c j := by
  rw [Machine.widen, Machine.write]
  by_cases hc : c = t
  · subst hc
    simp only [Function.update_self, Function.update_apply, true_and]
  · rw [if_neg fun h => hc h.1]
    exact congrFun (Function.update_of_ne hc _ _) j

theorem next_widen : next (s.widen t index).memory = next s.memory := by
  funext c j
  rw [next, next, widen_entry]
  by_cases hc : c = t ∧ j = index
  · rw [if_pos hc, hc.1, hc.2, address_widened]
    exact if_congr present_widened rfl rfl
  · rw [if_neg hc]

theorem reachable_widen {p : ℕ} : Reachable root (s.widen t index) p ↔ Reachable root s p := by
  rw [Reachable, Reachable, next_widen]

/-- **A table is widened**, which was visible already. -/
theorem grows_widen (h : WellFormed root s) (hpath : path ∈ userPaths) (hlength : path.length < 3)
    (ht : reach (next s.memory) path root = some t) : Grows root s (s.widen t index) where
  wellFormed :=
    { usable := h.usable
      offset := h.offset
      tree := by
        rw [next_widen]
        exact h.tree
      direct := by
        rw [next_widen]
        exact h.direct
      visible := fun q j c hq hreach hp => by
        rw [next_widen] at hreach
        rw [widen_entry] at hp ⊢
        split
        · exact user_widened _
        · rename_i hne
          rw [if_neg hne] at hp
          exact h.visible q j c hq hreach hp
      owned := fun p hp => h.owned p (reachable_widen.mp hp) }
  leaves q hq hq3 j := by
    rcases hreach : reach (next s.memory) q root with _ | c
    · have hreach' : reach (next (s.widen t index).memory) q root = none := by
        rw [next_widen, hreach]
      rw [leaf_of_none hreach, leaf_of_none hreach']
    · have hreach' : reach (next (s.widen t index).memory) q root = some c := by
        rw [next_widen, hreach]
      -- The tables of pages are behind the one that is widened.
      have hct : c ≠ t := by
        rintro rfl
        rw [h.tree q hq path hpath c hreach ht] at hq3
        omega
      rw [leaf_of_reach hreach, leaf_of_reach hreach', widen_entry, if_neg fun he => hct he.1]
  hhdmOffset := rfl
  kept p hp := reachable_widen.mpr hp

theorem allocate_cases (h : WellFormed root s) (hpath : path ∈ userPaths)
    (ht : reach (next s.memory) path root = some t) (hfree : ¬ present (s.memory t index)) :
    (∃ a, allocateFrame s.allocator = (none, a) ∧ Grows root s { s with allocator := a }) ∨
      ∃ frame a, allocateFrame s.allocator = (some frame, a) ∧
        Installs root s path t index a frame := by
  have hspec := allocateFrame_spec h.usable.sound
  have husable := h.usable.allocate
  rcases hall : allocateFrame s.allocator with ⟨_ | frame, a⟩ <;> rw [hall] at hspec husable
  · exact Or.inl ⟨a, rfl, grows_allocate h husable hspec⟩
  · exact Or.inr ⟨frame, a, rfl, h, hpath, ht, hfree, husable, hspec⟩

/-- **One step** of the walk. -/
theorem grows_nextTable (h : WellFormed root s) (hpath : path ++ [index] ∈ userPaths)
    (ht : reach (next s.memory) path root = some t) :
    Grows root s (nextTable t index s).2 ∧ ∀ t', (nextTable t index s).1 = some t' →
      reach (next (nextTable t index s).2.memory) (path ++ [index]) root = some t' := by
  have hmem := closed_userPaths path index hpath
  have hlength : path.length < 3 := by
    have := hpath.1
    rwa [length_append, length_singleton] at this
  have hreach : ∀ s' : Machine, reach (next s'.memory) path root = some t →
      present (s'.memory t index) → reach (next s'.memory) (path ++ [index]) root =
        some (address (s'.memory t index)) := fun s' ht' hp => by
    rw [reach_concat, ht']
    exact if_pos hp
  rw [nextTable, (h.table hmem ht).1]
  by_cases hp : present (s.memory t index)
  · simp only [if_neg (not_not_intro hp)]
    refine ⟨grows_widen h hmem hlength ht, fun t' ht' => ?_⟩
    rw [← ht']
    refine hreach _ ?_ ?_
    · rw [next_widen, ht]
    · rw [widen_entry, if_pos ⟨rfl, rfl⟩]
      exact present_widened.mpr hp
  · simp only [if_pos hp]
    obtain ⟨a, hall, hgrows⟩ | ⟨frame, a, hall, hinstalls⟩ := allocate_cases h hmem ht hp
    · simp only [hall]
      exact ⟨hgrows, nofun⟩
    · simp only [hall]
      refine ⟨hinstalls.grows hlength, fun t' ht' => ?_⟩
      rw [← ht']
      refine hreach _ ?_ ?_
      · have hne : path ≠ path ++ [index] := fun he => by
          have := congrArg List.length he
          rw [length_append] at this
          exact absurd this (succ_ne_self _).symm
        rw [hinstalls.grown.reach_eq hmem hne, ht]
      · rw [hinstalls.entry hinstalls.ne.symm, if_pos ⟨rfl, rfl⟩]
        exact present_tableEntry _

/-- **The walk** to a table. -/
theorem grows_descend {rest : List (Fin 512)} (h : WellFormed root s)
    (hpath : path ++ rest ∈ userPaths) (ht : reach (next s.memory) path root = some t) :
    Grows root s (descend rest t s).2 ∧ ∀ t', (descend rest t s).1 = some t' →
      reach (next (descend rest t s).2.memory) (path ++ rest) root = some t' := by
  induction rest generalizing path t s with
  | nil =>
    refine ⟨.refl h, fun t' ht' => ?_⟩
    rw [append_nil, ← ht']
    exact ht
  | cons index rest ih =>
    have hstep : path ++ [index] ++ rest ∈ userPaths := by
      rwa [append_assoc, singleton_append]
    have hnext := @grows_nextTable root s path t index h (prefix_mem hstep) ht
    rw [descend]
    rcases hresult : nextTable t index s with ⟨_ | t₁, s₁⟩ <;> rw [hresult] at hnext
    · exact ⟨hnext.1, nofun⟩
    · obtain ⟨hgrows, hend⟩ := ih hnext.1.wellFormed hstep (hnext.2 t₁ rfl)
      refine ⟨hnext.1.trans hgrows, fun t' ht' => ?_⟩
      rw [← hend t' ht', append_assoc, singleton_append]

end Grows

/-! ### Pages -/

/-- **What mapping a page does.** Its addresses are those of the frame that is returned, which was
neither a table nor a page; every other address is translated as before, and if no frame is
returned, every address is. -/
structure Mapped (root v : ℕ) (s : Machine) (result : Except MapError ℕ) (s' : Machine) :
    Prop where
  wellFormed : WellFormed root s'
  page : ∀ frame, result = .ok frame → ∀ w, w / pageSize = v / pageSize →
    translate root w s' = some (frame + w % pageSize)
  others : ∀ w < userMax, (∀ frame, result = .ok frame → w / pageSize ≠ v / pageSize) →
    translate root w s' = translate root w s
  fresh : ∀ frame, result = .ok frame →
    ∃ p, frame = p + s.allocator.hhdmOffset ∧ ¬ Reachable root s p

section Pages

variable {root v : ℕ} {s s' : Machine}

theorem indices_eq_iff {w : ℕ} (hv : v < userMax) (hw : w < userMax) :
    (upperIndices w = upperIndices v ∧ lastIndex w = lastIndex v) ↔
      w / pageSize = v / pageSize := by
  simp only [upperIndices, lastIndex, tableIndex, List.cons.injEq, Fin.mk.injEq, and_true, pageSize]
  simp only [userMax] at hv hw
  omega

theorem translate_congr {w : ℕ} (h : WellFormed root s) (h' : WellFormed root s') (hw : w < userMax)
    (hoffset : s'.allocator.hhdmOffset = s.allocator.hhdmOffset)
    (hleaf : leaf root s' (upperIndices w) (lastIndex w) =
      leaf root s (upperIndices w) (lastIndex w)) :
    translate root w s' = translate root w s := by
  rw [translate_eq h hw, translate_eq h' hw, hleaf]
  simp only [physToVirt, hoffset]

theorem Grows.mapped (h : WellFormed root s) (hgrows : Grows root s s') (e : MapError) :
    Mapped root v s (.error e) s' where
  wellFormed := hgrows.wellFormed
  page := nofun
  others _ hw _ := translate_congr h hgrows.wellFormed hw hgrows.hhdmOffset
    (hgrows.leaves _ (upperIndices_mem hw) rfl _)
  fresh := nofun

/-- A frame for a page, in the table that was made for it. -/
theorem Installs.mapped {a : FrameAllocator} {frame : Frame} {t : ℕ} (h : WellFormed root s)
    (hgrows : Grows root s s') (hv : v < userMax)
    (hinstalls : Installs root s' (upperIndices v) t (lastIndex v) a frame) :
    Mapped root v s (.ok frame.virtualAddress) (s'.link a frame t (lastIndex v)) := by
  obtain ⟨hfree, -, hvirtual, -⟩ := hinstalls.allocated.taken frame rfl
  rw [hgrows.hhdmOffset] at hvirtual
  have hwell := hinstalls.wellFormed_link
  have hoffset : (s'.link a frame t (lastIndex v)).allocator.hhdmOffset =
      s.allocator.hhdmOffset := hinstalls.allocated.hhdmOffset.trans hgrows.hhdmOffset
  refine ⟨hwell, ?_, fun w hw hne => ?_, ?_⟩
  · rintro _ ⟨⟩ w hpage
    have hw : w < userMax := by
      simp only [pageSize, userMax] at hpage hv ⊢
      omega
    obtain ⟨hupper, hlast⟩ := (indices_eq_iff hv hw).mpr hpage
    have hleaf : leaf root (s'.link a frame t (lastIndex v)) (upperIndices w) (lastIndex w) =
        tableEntry frame.physicalAddress := by
      rw [hinstalls.leaf_eq (upperIndices_mem hw)]
      exact if_pos ⟨hupper, hlast⟩
    rw [translate_eq hwell hw, hleaf, if_pos ⟨present_tableEntry _, user_tableEntry _⟩,
      hinstalls.address_entry, physToVirt, hoffset, hvirtual, add_right_comm]
    refine if_pos ?_
    -- The last byte of the frame is in the direct map, which starts at a page.
    obtain ⟨i, hi⟩ := hfree.1
    obtain ⟨k, hk⟩ := h.offset
    have hmapped := hinstalls.wellFormed.usable.mapped _ hfree
    rw [hgrows.hhdmOffset] at hmapped
    have hmod : w % pageSize < pageSize := mod_lt w (by decide)
    simp only [pageSize] at hi hk hmod ⊢
    omega
  · refine translate_congr h hwell hw hoffset ?_
    rw [hinstalls.leaf_eq (upperIndices_mem hw), if_neg fun he =>
      hne _ rfl ((indices_eq_iff hv hw).mp he)]
    exact hgrows.leaves _ (upperIndices_mem hw) rfl _
  · rintro _ ⟨⟩
    exact ⟨frame.physicalAddress, hvirtual, fun hp => hinstalls.new (hgrows.kept _ hp) rfl⟩

/-- **A new address space** has a root only. -/
theorem reach_newUser {new : ℕ}
    (hempty : ∀ i : Fin 512, i.val < 256 → ¬ present ((newUser s).2.memory new i)) {path}
    (hpath : path ∈ userPaths) {t : ℕ}
    (ht : reach (next (newUser s).2.memory) path new = some t) : path = [] ∧ t = new := by
  cases path with
  | nil => exact ⟨rfl, (Option.some.inj ht).symm⟩
  | cons i path =>
    have hnext : next (newUser s).2.memory new i = none := if_neg (hempty i (hpath.2 i rfl))
    rw [reach, hnext] at ht
    cases ht

/-- It has well-formed tables. -/
theorem wellFormed_newUser (husable : s.allocator.Usable)
    (hcurrent : address s.cr3 + s.allocator.hhdmOffset < 2 ^ 64)
    (hoffset : pageSize ∣ s.allocator.hhdmOffset) {new : ℕ} (hnew : (newUser s).1 = some new) :
    WellFormed new (newUser s).2 := by
  obtain ⟨hnone, -⟩ | ⟨clone, hclone, -, hready, hempty⟩ := newUser_spec husable hcurrent
  · rw [hnone] at hnew
    cases hnew
  obtain rfl : clone = new := Option.some.inj (hclone.symm.trans hnew)
  have hdirect := husable.mapped clone hready.table.1
  rw [← hready.hhdmOffset] at hdirect
  refine ⟨hready.usable, hready.hhdmOffset ▸ hoffset, ?_, ?_, ?_, ?_⟩
  · intro p hp q hq t htp htq
    rw [(reach_newUser hempty hp htp).1, (reach_newUser hempty hq htq).1]
  · intro path hpath t ht
    rw [(reach_newUser hempty hpath ht).2]
    exact hdirect
  · intro path i t hpath ht hp
    obtain ⟨rfl, rfl⟩ := reach_newUser hempty (closed_userPaths path i hpath) ht
    exact absurd hp (hempty i (hpath.2 i rfl))
  · rintro p (⟨path, hpath, ht⟩ | ⟨path, hpath, t, i, hlength, ht, -⟩)
    · rw [(reach_newUser hempty hpath ht).2]
      exact hready.table.2
    · rw [(reach_newUser hempty hpath ht).1] at hlength
      exact absurd hlength (by decide)

end Pages

end ImagineOS.Memory
