import ImagineOS.Memory.Mapping

/-!
# Physical memory: the heap of a process

`grow_heap` maps the pages between the old break and the new one, one after the other, and gives up
at the first for which no frame is left. The pages it has mapped by then stay where they are. The
next request finds them there, and mapping a page that is there changes nothing, so it goes on at
the page where the last one gave up: it ends where it would have ended without the last one.
-/

namespace ImagineOS.Memory

open Radix List

/-! ### The functions of the source -/

abbrev userHeapStart : ℕ := 0x0000000100000000

abbrev userHeapLimit : ℕ := 64 * 1024 * 1024

/-- The fields of a `Process` that its heap needs. -/
structure HeapOwner where
  addressSpace : Option ℕ
  heapEnd : ℕ

/-- The end of the page before `x`, or of that of `x`, unless it overflows. -/
def pageEndOf (x : ℕ) : Option ℕ :=
  if x + (pageSize - 1) < 2 ^ 64 then some (alignDown (x + (pageSize - 1))) else none

/-- The loop of `grow_heap`: whether all pages are there. -/
def mapPages (root pageEnd page : ℕ) (s : Machine) : Bool × Machine :=
  if page < pageEnd then
    match mapUserPage root page s with
    | (.ok _, s) => mapPages root pageEnd (page + pageSize) s
    | (.error .alreadyMapped, s) => mapPages root pageEnd (page + pageSize) s
    | (.error _, s) => (false, s)
  else (true, s)
  termination_by pageEnd - page
  decreasing_by all_goals simp only [pageSize]; omega

def growHeap (increment : ℤ) (p : HeapOwner) (s : Machine) : Except ℤ ℕ × HeapOwner × Machine :=
  if increment < 0 then (.error (-22), p, s)
  else
    let previous := p.heapEnd
    let newEnd := previous + increment.toNat
    if ¬ (newEnd < 2 ^ 64 ∧ newEnd - userHeapStart ≤ userHeapLimit) then (.error (-12), p, s)
    else match pageEndOf previous, pageEndOf newEnd, p.addressSpace with
      | some firstPage, some pageEnd, some root =>
        match mapPages root pageEnd firstPage s with
        | (true, s) => (.ok previous, { p with heapEnd := newEnd }, s)
        | (false, s) => (.error (-12), p, s)
      | _, _, _ => (.error (-12), p, s)

/-! ### Systems -/

/-- A machine, the address spaces on it, and one of the processes. -/
structure HeapSystem where
  machine : Machine
  spaces : List ℕ
  process : HeapOwner

/-- A request of the process. -/
def HeapSystem.grow (increment : ℤ) (x : HeapSystem) : Except ℤ ℕ × HeapSystem :=
  match growHeap increment x.process x.machine with
  | (result, p, s) => (result, { x with process := p, machine := s })

/-- Its answers to many requests, and the system afterwards. -/
def HeapSystem.grows : List ℤ → HeapSystem → List (Except ℤ ℕ) × HeapSystem
  | [], x => ([], x)
  | n :: ns, x =>
    let (result, x) := x.grow n
    let (results, x) := x.grows ns
    (result :: results, x)

/-- What holds of a machine when the first process is loaded. -/
structure Machine.Booted (s : Machine) : Prop where
  usable : s.allocator.Usable
  offset : pageSize ∣ s.allocator.hhdmOffset
  current : address s.cr3 + s.allocator.hhdmOffset < 2 ^ 64

/-- **The systems that are reached**: `load_elf_at` makes a new address space and maps pages in it,
as requests of other processes do. When it is done, the process is the one that was loaded. -/
inductive HeapSystem.Reached (s : Machine) : HeapSystem → Prop
  | boot : Reached s ⟨s, [], none, userHeapStart⟩
  | newUser {x : HeapSystem} (h : Reached s x) : Reached s { x with
      machine := (Memory.newUser x.machine).2
      spaces := (Memory.newUser x.machine).1.toList ++ x.spaces }
  | mapUserPage {x : HeapSystem} (h : Reached s x) {r : ℕ} (hr : r ∈ x.spaces) (v : ℕ) :
      Reached s { x with machine := (Memory.mapUserPage r v x.machine).2 }
  | load {x : HeapSystem} (h : Reached s x) {r : ℕ} (hr : r ∈ x.spaces) :
      Reached s { x with process := ⟨some r, userHeapStart⟩ }
  | grow {x : HeapSystem} (h : Reached s x) (increment : ℤ) : Reached s (x.grow increment).2

/-- **An address is mapped to a frame of one address space alone**: the frame is not free, and no
other address space leads to it. -/
def HeapSystem.OwnsPage (x : HeapSystem) (root v : ℕ) : Prop :=
  ∃ p, translate root v x.machine = some (p + v % pageSize + x.machine.allocator.hhdmOffset) ∧
    ¬ x.machine.allocator.Available p ∧
    ∀ r ∈ x.spaces, Reachable r x.machine p ↔ r = root

/-! ### Address spaces of programs -/

/-- The paths to the entries of the user half, those of pages among them. -/
def entryPaths : Set (List (Fin 512)) := {path | path.length ≤ 4 ∧ ∀ i ∈ path.head?, i.val < 256}

/-- **An address space of a program**: what its entries lead to may be written by the program and
is in the direct map. -/
structure UserSpace (root : ℕ) (s : Machine) : Prop where
  wellFormed : WellFormed root s
  entries : ∀ path i t, path ++ [i] ∈ entryPaths → reach (next s.memory) path root = some t →
    present (s.memory t i) → s.memory t i ||| entryWritable ||| entryUser = s.memory t i ∧
      address (s.memory t i) + s.allocator.hhdmOffset < 2 ^ 64

/-- **What mapping does** to an address space: the tables and pages that are there stay, and nothing
is touched but its tables and frames that are free. -/
structure Extends (root : ℕ) (s s' : Machine) : Prop where
  space : UserSpace root s'
  tables : ∀ path ∈ userPaths, ∀ t, reach (next s.memory) path root = some t →
    reach (next s'.memory) path root = some t
  pages : ∀ path ∈ userPaths, path.length = 3 → ∀ i, present (leaf root s path i) →
    leaf root s' path i = leaf root s path i
  memory : ∀ p, ¬ Reachable root s p → ¬ s.allocator.Available p → s'.memory p = s.memory p
  reachable : ∀ p, Reachable root s' p → Reachable root s p ∨ s.allocator.Available p
  available : ∀ p, s'.allocator.Available p → s.allocator.Available p
  hhdmOffset : s'.allocator.hhdmOffset = s.allocator.hhdmOffset
  cr3 : s'.cr3 = s.cr3

section Extends

variable {root : ℕ} {s s' s'' : Machine} {a : FrameAllocator} {path : List (Fin 512)} {t : ℕ}
  {index : Fin 512}

theorem Extends.refl (h : UserSpace root s) : Extends root s s where
  space := h
  tables _ _ _ ht := ht
  pages _ _ _ _ _ := rfl
  memory _ _ _ := rfl
  reachable _ hp := Or.inl hp
  available _ hp := hp
  hhdmOffset := rfl
  cr3 := rfl

theorem Extends.trans (h : Extends root s s') (h' : Extends root s' s'') : Extends root s s'' where
  space := h'.space
  tables path hpath t ht := h'.tables path hpath t (h.tables path hpath t ht)
  pages path hpath hlength i hp := by
    have heq := h.pages path hpath hlength i hp
    rw [h'.pages path hpath hlength i (heq.symm ▸ hp), heq]
  memory p hr ha := by
    rw [h'.memory p (fun hr' => (h.reachable p hr').elim hr ha) fun ha' => ha (h.available p ha'),
      h.memory p hr ha]
  reachable p hp := (h'.reachable p hp).elim (h.reachable p) fun ha => Or.inr (h.available p ha)
  available p hp := h.available p (h'.available p hp)
  hhdmOffset := h'.hhdmOffset.trans h.hhdmOffset
  cr3 := h'.cr3.trans h.cr3

theorem mem_of_entryPaths (h : path ++ [index] ∈ entryPaths) : path ∈ userPaths := by
  obtain ⟨hlength, hhead⟩ := h
  rw [length_append, length_singleton] at hlength
  refine ⟨by omega, fun j hj => hhead j ?_⟩
  cases path with
  | nil => exact absurd hj (by simp)
  | cons k path => exact hj

theorem entryPaths_of_mem (h : path ++ [index] ∈ userPaths) : path ++ [index] ∈ entryPaths :=
  ⟨h.1.trans (by decide), h.2⟩

theorem entryPaths_of_page (h : path ∈ userPaths) (hlength : path.length = 3) :
    path ++ [index] ∈ entryPaths := by
  cases path with
  | nil => cases hlength
  | cons i path => exact ⟨by rw [length_append, hlength, length_singleton], h.2⟩

/-- **A frame is put into a free entry.** -/
theorem Installs.extends {frame : Frame} (h : Installs root s path t index a frame)
    (hs : UserSpace root s) : Extends root s (s.link a frame t index) where
  space :=
    { wellFormed := h.wellFormed_link
      entries := fun q j c hq hreach hp => by
        obtain ⟨-, rfl⟩ | ⟨-, hc, hreach⟩ := h.grown.reach_cases (mem_of_entryPaths hq) hreach
        · rw [Machine.link, install_frame h.ne] at hp
          exact absurd hp not_present_zero
        · show _ ∧ _ + a.hhdmOffset < 2 ^ 64
          rw [h.allocated.hhdmOffset]
          rw [h.entry hc] at hp ⊢
          split
          · rw [h.address_entry]
            refine ⟨?_, h.wellFormed.usable.mapped _ h.available⟩
            rw [tableEntry]
            simp only [BitVec.or_assoc, entryWritable, entryUser, entryPresent]
            rfl
          · rename_i hne
            rw [if_neg hne] at hp
            exact hs.entries q j c hq hreach hp }
  tables q hq c hc := by
    rw [h.grown.reach_eq hq fun he => ?_, hc]
    rw [he, reach_concat, h.table] at hc
    exact Option.some_ne_none _ (hc.symm.trans h.grown.free)
  pages q hq _ j hp := by
    rw [h.leaf_eq hq]
    refine if_neg fun he => ?_
    rw [he.1, he.2, leaf_of_reach h.table] at hp
    exact h.free hp
  memory p hr ha := by
    refine install_others ?_ ?_ <;> rintro rfl
    · exact ha h.available
    · exact hr (Or.inl ⟨path, h.mem, h.table⟩)
  reachable p hp := by
    rcases h.reachable hp with hp | rfl
    · exact Or.inl hp
    · exact Or.inr h.available
  available := h.allocated.available
  hhdmOffset := h.allocated.hhdmOffset
  cr3 := rfl

theorem extends_allocate (h : UserSpace root s) {o : Option Frame} (ha : a.Usable)
    (hall : Allocated s.allocator a o) : Extends root s { s with allocator := a } where
  space := ⟨(grows_allocate h.wellFormed ha hall).wellFormed, fun path i t hpath ht hp => by
    show _ ∧ _ + a.hhdmOffset < 2 ^ 64
    rw [hall.hhdmOffset]
    exact h.entries path i t hpath ht hp⟩
  tables _ _ _ ht := ht
  pages _ _ _ _ _ := rfl
  memory _ _ _ := rfl
  reachable _ hp := Or.inl hp
  available := hall.available
  hhdmOffset := hall.hhdmOffset
  cr3 := rfl

/-- **No frame is left** the next time either. -/
theorem allocateFrame_again {b : FrameAllocator} (h : b.Usable)
    (hnone : allocateFrame b = (none, a)) : allocateFrame a = (none, a) := by
  induction b using allocateFrame.induct with
  | case1 b hlt region hroom hnext hvirtual =>
    rw [allocateFrame, dif_pos hlt, if_pos hroom, if_pos hnext, if_pos hvirtual] at hnone
    cases hnone
  | case2 b hlt region hroom hnext hvirtual =>
    have hmem := getElem_mem hlt
    exact absurd (h.mapped region.next
      ⟨(h.sound.aligned _ hmem).1, region, hmem, le_rfl, hroom⟩) hvirtual
  | case3 b hlt region hroom hnext =>
    have heq := hnone
    rw [allocateFrame, dif_pos hlt, if_pos hroom, if_neg hnext] at heq
    obtain rfl := (Prod.mk.inj heq).2
    exact hnone
  | case4 b hlt region hroom ih =>
    rw [allocateFrame, dif_pos hlt, if_neg hroom] at hnone
    exact ih ⟨h.sound.of_regions rfl, h.width, h.mapped⟩ hnone
  | case5 b hlt =>
    have heq := hnone
    rw [allocateFrame, dif_neg hlt] at heq
    obtain rfl := (Prod.mk.inj heq).2
    exact hnone

/-- **One step of the walk**, where the table is there. -/
theorem nextTable_of_reach (h : UserSpace root s) (hpath : path ++ [index] ∈ userPaths)
    (ht : reach (next s.memory) path root = some t) {t' : ℕ}
    (ht' : reach (next s.memory) (path ++ [index]) root = some t') :
    nextTable t index s = (some t', s) := by
  have hmem := closed_userPaths path index hpath
  rw [reach_concat, ht] at ht'
  obtain ⟨hp, haddress⟩ := next_eq_some.mp ht'
  have hwide : s.widen t index = s := by
    rw [Machine.widen, (h.entries path index t (entryPaths_of_mem hpath) ht hp).1,
      Function.update_eq_self, Machine.write, Function.update_eq_self]
  rw [nextTable, (h.wellFormed.table hmem ht).1]
  dsimp only
  rw [if_neg (not_not_intro hp), hwide, haddress]

/-- **One step of the walk**: the table is there, it is made, or no frame is left for it. -/
theorem nextTable_cases (h : UserSpace root s) (hpath : path ++ [index] ∈ userPaths)
    (ht : reach (next s.memory) path root = some t) :
    (∃ s', nextTable t index s = (none, s') ∧ Extends root s s' ∧
        nextTable t index s' = (none, s')) ∨
      ∃ t' s', nextTable t index s = (some t', s') ∧ Extends root s s' ∧
        reach (next s'.memory) (path ++ [index]) root = some t' := by
  have hmem := closed_userPaths path index hpath
  by_cases hp : present (s.memory t index)
  · have ht' : reach (next s.memory) (path ++ [index]) root =
        some (address (s.memory t index)) := by
      rw [reach_concat, ht]
      exact if_pos hp
    exact Or.inr ⟨_, s, nextTable_of_reach h hpath ht ht', .refl h, ht'⟩
  obtain ⟨a, hall, -⟩ | ⟨frame, a, hall, hinstalls⟩ := allocate_cases h.wellFormed hmem ht hp
  · have hspec := allocateFrame_spec h.wellFormed.usable.sound
    have husable := h.wellFormed.usable.allocate
    rw [hall] at hspec husable
    have hext := extends_allocate h husable hspec
    have hnext : nextTable t index s = (none, { s with allocator := a }) := by
      rw [nextTable, (h.wellFormed.table hmem ht).1]
      simp only [if_pos hp, hall]
    refine Or.inl ⟨_, hnext, hext, ?_⟩
    rw [nextTable, (hext.space.wellFormed.table hmem ht).1]
    simp only [if_pos hp, allocateFrame_again h.wellFormed.usable hall]
  · have hnext : nextTable t index s = (some (address ((s.link a frame t index).memory t index)),
        s.link a frame t index) := by
      rw [nextTable, (h.wellFormed.table hmem ht).1]
      simp only [if_pos hp, hall]
    have hstep := (grows_nextTable h.wellFormed hpath ht).2
    rw [hnext] at hstep
    exact Or.inr ⟨_, _, hnext, hinstalls.extends h, hstep _ rfl⟩

/-- **The walk** to a table that is there. -/
theorem descend_of_reach {rest : List (Fin 512)} (h : UserSpace root s)
    (hpath : path ++ rest ∈ userPaths) (ht : reach (next s.memory) path root = some t) {t' : ℕ}
    (ht' : reach (next s.memory) (path ++ rest) root = some t') :
    descend rest t s = (some t', s) := by
  induction rest generalizing path t with
  | nil =>
    rw [append_nil, ht] at ht'
    rw [descend, Option.some.inj ht']
  | cons index rest ih =>
    have hstep : path ++ [index] ++ rest ∈ userPaths := by
      rwa [append_assoc, singleton_append]
    rcases ht₁ : reach (next s.memory) (path ++ [index]) root with _ | t₁
    · rw [← singleton_append, ← append_assoc, reach_append, ht₁] at ht'
      cases ht'
    · rw [descend, nextTable_of_reach h (prefix_mem hstep) ht ht₁]
      refine ih hstep ht₁ ?_
      rwa [append_assoc, singleton_append]

/-- **The walk** to the table of a page: it is there then, or no frame is left for a table, and none
is the next time. -/
theorem descend_cases {rest : List (Fin 512)} (h : UserSpace root s)
    (hpath : path ++ rest ∈ userPaths) (ht : reach (next s.memory) path root = some t) :
    (∃ s', descend rest t s = (none, s') ∧ Extends root s s' ∧ descend rest t s' = (none, s')) ∨
      ∃ t' s', descend rest t s = (some t', s') ∧ Extends root s s' ∧
        reach (next s'.memory) (path ++ rest) root = some t' := by
  induction rest generalizing path t s with
  | nil => exact Or.inr ⟨t, s, rfl, .refl h, by rw [append_nil, ht]⟩
  | cons index rest ih =>
    have hstep : path ++ [index] ++ rest ∈ userPaths := by
      rwa [append_assoc, singleton_append]
    have hmem := prefix_mem hstep
    obtain ⟨s₁, hnext, hext, hagain⟩ | ⟨t₁, s₁, hnext, hext, ht₁⟩ := nextTable_cases h hmem ht
    · refine Or.inl ⟨s₁, ?_, hext, ?_⟩
      · rw [descend, hnext]
      · rw [descend, hagain]
    have hdescend : descend (index :: rest) t s = descend rest t₁ s₁ := by
      rw [descend, hnext]
    rw [hdescend]
    obtain ⟨s', hrest, hext', hagain⟩ | ⟨t', s', hrest, hext', ht'⟩ := ih hext.space hstep ht₁
    · -- The table is there now, so the walk goes on from it as it did.
      have hlater := hext'.tables _ hmem _ ht₁
      have hnow := (hext.trans hext').tables path (closed_userPaths path index hmem) t ht
      refine Or.inl ⟨s', hrest, hext.trans hext', ?_⟩
      rw [descend, nextTable_of_reach hext'.space hmem hnow hlater]
      exact hagain
    · refine Or.inr ⟨t', s', hrest, hext.trans hext', ?_⟩
      rwa [append_assoc, singleton_append] at ht'

end Extends

/-! ### Pages of the heap -/

/-- The entry of a page leads to a frame. -/
def HasPage (root v : ℕ) (s : Machine) : Prop :=
  present (leaf root s (upperIndices v) (lastIndex v))

section Pages

variable {root v w e page : ℕ} {s s' : Machine}

theorem hasPage_congr (hv : v < userMax) (hw : w < userMax) (h : w / pageSize = v / pageSize) :
    HasPage root w s ↔ HasPage root v s := by
  obtain ⟨hupper, hlast⟩ := (indices_eq_iff hv hw).mpr h
  rw [HasPage, HasPage, hupper, hlast]

theorem Extends.hasPage (h : Extends root s s') (hv : v < userMax) (hp : HasPage root v s) :
    HasPage root v s' := by
  rw [HasPage, h.pages _ (upperIndices_mem hv) rfl _ hp]
  exact hp

/-- **Mapping a page that is there** changes nothing. -/
theorem mapUserPage_of_hasPage (h : UserSpace root s) (hrange : userMin ≤ v ∧ v < userMax)
    (hdvd : pageSize ∣ v) (hp : HasPage root v s) :
    mapUserPage root v s = (.error .alreadyMapped, s) := by
  have hmem := upperIndices_mem hrange.2
  rcases ht : reach (next s.memory) (upperIndices v) root with _ | t
  · rw [HasPage, leaf_of_none ht] at hp
    exact absurd hp not_present_zero
  rw [HasPage, leaf_of_reach ht] at hp
  have hdescend := @descend_of_reach root s [] root (upperIndices v) h hmem rfl t ht
  rw [mapUserPage, if_neg (not_not_intro hrange), show alignDown v = v from Nat.div_mul_cancel hdvd]
  dsimp only
  rw [hdescend]
  dsimp only
  rw [mapEntry, (h.wellFormed.table hmem ht).1]
  exact if_pos hp

/-- **Mapping a page**: it is there then, or no frame is left, and none is the next time. -/
theorem mapUserPage_cases (h : UserSpace root s) (hrange : userMin ≤ v ∧ v < userMax) :
    (∃ s', mapUserPage root v s = (.error .outOfMemory, s') ∧ Extends root s s' ∧
        mapUserPage root v s' = (.error .outOfMemory, s')) ∨
      ∃ r s', mapUserPage root v s = (r, s') ∧ (r = .error .alreadyMapped ∨ ∃ f, r = .ok f) ∧
        Extends root s s' ∧ HasPage root v s' := by
  have hdown : alignDown v < userMax := (alignDown_le v).trans_lt hrange.2
  have hmem := upperIndices_mem hdown
  simp only [← hasPage_congr hrange.2 hdown (Nat.mul_div_cancel _ (by decide)), mapUserPage,
    hrange, and_self, not_true_eq_false, if_false]
  obtain ⟨s₁, hnone, hext, hagain⟩ | ⟨t, s₁, hsome, hext, ht⟩ :=
    @descend_cases root s [] root (upperIndices (alignDown v)) h hmem rfl
  · exact Or.inl ⟨s₁, by rw [hnone], hext, by rw [hagain]⟩
  have hleaf : leaf root s₁ (upperIndices (alignDown v)) (lastIndex (alignDown v)) =
      s₁.memory t (lastIndex (alignDown v)) := leaf_of_reach ht _
  simp only [hsome, mapEntry, (hext.space.wellFormed.table hmem ht).1]
  by_cases hp : present (s₁.memory t (lastIndex (alignDown v)))
  · refine Or.inr ⟨_, s₁, if_pos hp, Or.inl rfl, hext, ?_⟩
    rwa [HasPage, hleaf]
  simp only [if_neg hp]
  obtain ⟨a, hall, -⟩ | ⟨frame, a, hall, hinstalls⟩ :=
    allocate_cases hext.space.wellFormed hmem ht hp
  · have hspec := allocateFrame_spec hext.space.wellFormed.usable.sound
    have husable := hext.space.wellFormed.usable.allocate
    rw [hall] at hspec husable
    have hext' := extends_allocate hext.space husable hspec
    refine Or.inl ⟨_, by rw [hall], hext.trans hext', ?_⟩
    have hagain := @descend_of_reach root { s₁ with allocator := a } [] root
      (upperIndices (alignDown v)) hext'.space hmem rfl t ht
    simp only [hagain, (hext'.space.wellFormed.table hmem ht).1, if_neg hp,
      allocateFrame_again hext.space.wellFormed.usable hall]
  · refine Or.inr ⟨_, _, by rw [hall], Or.inr ⟨_, rfl⟩,
      hext.trans (hinstalls.extends hext.space), ?_⟩
    rw [HasPage, hinstalls.leaf_eq hmem, if_pos ⟨rfl, rfl⟩]
    exact present_tableEntry _

/-- **Mapping any page.** -/
theorem extends_mapUserPage (h : UserSpace root s) (v : ℕ) :
    Extends root s (mapUserPage root v s).2 := by
  by_cases hrange : userMin ≤ v ∧ v < userMax
  · obtain ⟨s', heq, hext, -⟩ | ⟨r, s', heq, -, hext, -⟩ := mapUserPage_cases h hrange
    all_goals
      rw [heq]
      exact hext
  · rw [mapUserPage, if_pos hrange]
    exact .refl h

/-! ### The loop -/

/-- **A turn of the loop.** No frame is left for the page, however far the loop would go on, and
none is the next time; or the page is there, and the loop goes on behind it. -/
theorem mapPages_cases (h : UserSpace root s) (hrange : userMin ≤ page ∧ page < userMax) :
    (∃ s', Extends root s s' ∧ ∀ e, page < e →
        mapPages root e page s = (false, s') ∧ mapPages root e page s' = (false, s')) ∨
      ∃ s', Extends root s s' ∧ HasPage root page s' ∧ ∀ e, page < e →
        mapPages root e page s = mapPages root e (page + pageSize) s' := by
  obtain ⟨s', heq, hext, hagain⟩ | ⟨r, s', heq, hr, hext, hp⟩ := mapUserPage_cases h hrange
  · refine Or.inl ⟨s', hext, fun e he => ?_⟩
    constructor
    · rw [mapPages, if_pos he, heq]
    · rw [mapPages, if_pos he, hagain]
  · refine Or.inr ⟨s', hext, hp, fun e he => ?_⟩
    rw [mapPages, if_pos he, heq]
    rcases hr with rfl | ⟨f, rfl⟩ <;> rfl

theorem mapPages_of_hasPage (h : UserSpace root s) (hrange : userMin ≤ page ∧ page < userMax)
    (hdvd : pageSize ∣ page) (hp : HasPage root page s) (he : page < e) :
    mapPages root e page s = mapPages root e (page + pageSize) s := by
  rw [mapPages, if_pos he, mapUserPage_of_hasPage h hrange hdvd hp]

theorem mapPages_of_le (he : e ≤ page) : mapPages root e page s = (true, s) := by
  rw [mapPages, if_neg he.not_gt]

/-- **The loop** maps the pages from `page` to `e`, or fails. -/
theorem mapPages_spec (h : UserSpace root s) (hmin : userMin ≤ page) (hmax : e ≤ userMax) :
    Extends root s (mapPages root e page s).2 ∧ ((mapPages root e page s).1 = true →
      ∀ v, pageSize ∣ page → page ≤ v → v < e → HasPage root v (mapPages root e page s).2) := by
  induction hn : e - page using Nat.strong_induction_on generalizing page s with
  | _ n ih =>
    by_cases he : page < e
    swap
    · rw [mapPages_of_le (Nat.not_lt.mp he)]
      exact ⟨.refl h, fun _ v _ hle hlt => absurd (hle.trans_lt hlt) he⟩
    obtain ⟨s', hext, hfail⟩ | ⟨s', hext, hp, hnext⟩ :=
      mapPages_cases h ⟨hmin, he.trans_le hmax⟩
    · rw [(hfail e he).1]
      exact ⟨hext, nofun⟩
    · rw [hnext e he]
      have hlt : e - (page + pageSize) < n := by
        simp only [pageSize]
        omega
      obtain ⟨hext', hpages⟩ := ih _ hlt hext.space (hmin.trans (Nat.le_add_right _ _)) rfl
      refine ⟨hext.trans hext', fun hok v hdvd hle hv => ?_⟩
      by_cases hlater : page + pageSize ≤ v
      · exact hpages hok v (Nat.dvd_add hdvd (Nat.dvd_refl _)) hlater hv
      · have hmax' := hv.trans_le hmax
        have hpage : page / pageSize = v / pageSize := by
          obtain ⟨k, rfl⟩ := hdvd
          simp only [pageSize] at hle hlater ⊢
          omega
        exact hext'.hasPage hmax' ((hasPage_congr hmax' (he.trans_le hmax) hpage).mp hp)

/-- **A loop after one that failed**, which went on to `limit`: it takes no frame. It succeeds if it
would have without the other, which then would fail as it did; and else it fails as well. -/
theorem mapPages_ahead {limit : ℕ} (h : UserSpace root s) (hmin : userMin ≤ page)
    (hmax : e ≤ userMax) (hmax' : limit ≤ userMax) (hdvd : pageSize ∣ page) (hdvd' : pageSize ∣ e)
    (hle : page ≤ e) (hfail : mapPages root limit page s = (false, s')) :
    (mapPages root e page s).1 = (mapPages root e page s').1 ∧
      (mapPages root e page s').2 = s' ∧
      if (mapPages root e page s).1 then
        mapPages root limit e (mapPages root e page s).2 = (false, s')
      else (mapPages root e page s).2 = s' := by
  induction hn : e - page using Nat.strong_induction_on generalizing page s with
  | _ n ih =>
    by_cases he : page < e
    swap
    · obtain rfl := Nat.le_antisymm hle (Nat.not_lt.mp he)
      rw [mapPages_of_le le_rfl, mapPages_of_le le_rfl]
      exact ⟨rfl, rfl, hfail⟩
    have hlimit : page < limit := by
      by_contra hlimit
      rw [mapPages_of_le (Nat.not_lt.mp hlimit)] at hfail
      cases hfail
    obtain ⟨s₁, hext, hnone⟩ | ⟨s₁, hext, hp, hnext⟩ := mapPages_cases h ⟨hmin, he.trans_le hmax⟩
    · obtain rfl : s₁ = s' := (Prod.mk.inj ((hnone limit hlimit).1.symm.trans hfail)).2
      rw [(hnone e he).1, (hnone e he).2]
      exact ⟨rfl, rfl, rfl⟩
    · rw [hnext limit hlimit] at hfail
      have hext' := (@mapPages_spec root limit (page + pageSize) s₁ hext.space
        (hmin.trans (Nat.le_add_right _ _)) hmax').1
      rw [hfail] at hext'
      have hthere := hext'.hasPage (he.trans_le hmax) hp
      rw [hnext e he, mapPages_of_hasPage hext'.space ⟨hmin, he.trans_le hmax⟩ hdvd hthere he]
      have hle' : page + pageSize ≤ e := by
        obtain ⟨k, rfl⟩ := hdvd
        obtain ⟨m, rfl⟩ := hdvd'
        simp only [pageSize] at he ⊢
        omega
      refine ih _ ?_ hext.space (hmin.trans (Nat.le_add_right _ _))
        (Nat.dvd_add hdvd (Nat.dvd_refl _)) hle' hfail rfl
      simp only [pageSize]
      omega

end Pages

/-! ### Many address spaces -/

section Spaces

variable {r : ℕ} {s s' : Machine}

/-- **An address space of another program**: it does not see changes outside of its frames. -/
theorem UserSpace.other (h : UserSpace r s)
    (hagree : ∀ p, Reachable r s p → s'.memory p = s.memory p) (husable : s'.allocator.Usable)
    (havailable : ∀ p, s'.allocator.Available p → s.allocator.Available p)
    (hoffset : s'.allocator.hhdmOffset = s.allocator.hhdmOffset) :
    UserSpace r s' ∧ (∀ p, Reachable r s' p ↔ Reachable r s p) ∧
      ∀ path ∈ userPaths, ∀ i, leaf r s' path i = leaf r s path i := by
  have htable : ∀ path ∈ userPaths, ∀ t, reach (next s.memory) path r = some t →
      s'.memory t = s.memory t := fun path hpath t ht => hagree t (Or.inl ⟨path, hpath, ht⟩)
  have hreach : ∀ path ∈ userPaths, reach (next s'.memory) path r = reach (next s.memory) path r :=
    fun path hpath => reach_congr closed_userPaths (fun q i t hq ht => by
      rw [next, next, htable q (closed_userPaths q i hq) t ht]) hpath
  have hreachable : ∀ p, Reachable r s' p ↔ Reachable r s p := fun p => by
    refine or_congr
      (exists_congr fun path => and_congr_right fun hpath => by rw [hreach path hpath])
      (exists_congr fun path => and_congr_right fun hpath => exists_congr fun t =>
        exists_congr fun i => and_congr_right fun _ => ?_)
    rw [hreach path hpath]
    refine and_congr_right fun ht => ?_
    rw [next, next, htable path hpath t ht]
  refine ⟨⟨⟨husable, hoffset ▸ h.wellFormed.offset, ?_, ?_, ?_, ?_⟩, ?_⟩, hreachable, ?_⟩
  · intro p hp q hq t htp htq
    rw [hreach p hp] at htp
    rw [hreach q hq] at htq
    exact h.wellFormed.tree p hp q hq t htp htq
  · intro path hpath t ht
    rw [hreach path hpath] at ht
    rw [hoffset]
    exact h.wellFormed.direct path hpath t ht
  · intro path i t hpath ht hp
    have hmem := closed_userPaths path i hpath
    rw [hreach path hmem] at ht
    rw [htable path hmem t ht] at hp ⊢
    exact h.wellFormed.visible path i t hpath ht hp
  · exact fun p hp ha => h.wellFormed.owned p ((hreachable p).mp hp) (havailable p ha)
  · intro path i t hpath ht hp
    have hmem := mem_of_entryPaths hpath
    rw [hreach path hmem] at ht
    rw [htable path hmem t ht] at hp ⊢
    rw [hoffset]
    exact h.entries path i t hpath ht hp
  · intro path hpath i
    rcases ht : reach (next s.memory) path r with _ | t
    · rw [leaf_of_none ht, leaf_of_none ((hreach path hpath).trans ht)]
    · rw [leaf_of_reach ht, leaf_of_reach ((hreach path hpath).trans ht), htable path hpath t ht]

/-- What `new_user` leaves alone. -/
theorem newUser_kept (h : s.allocator.Usable) :
    (newUser s).2.allocator = (allocateFrame s.allocator).2 ∧ (newUser s).2.cr3 = s.cr3 ∧
      ∀ p, ¬ s.allocator.Available p → (newUser s).2.memory p = s.memory p := by
  have hspec := allocateFrame_spec h.sound
  rw [newUser]
  rcases hall : allocateFrame s.allocator with ⟨_ | frame, a⟩ <;> rw [hall] at hspec
  · exact ⟨rfl, rfl, fun _ _ => rfl⟩
  · have hne : ∀ p, ¬ s.allocator.Available p → p ≠ frame.physicalAddress := fun p hp he =>
      hp (he ▸ (hspec.taken frame rfl).1)
    dsimp only
    split
    · exact ⟨rfl, rfl, fun p hp => Function.update_of_ne (hne p hp) _ _⟩
    · refine ⟨rfl, rfl, fun p hp => ?_⟩
      exact (Function.update_of_ne (hne p hp) _ _).trans (Function.update_of_ne (hne p hp) _ _)

theorem Machine.Booted.newUser (h : s.Booted) : (newUser s).2.Booted := by
  obtain ⟨hallocator, hcr3, -⟩ := newUser_kept h.usable
  have hoffset := (allocateFrame_spec h.usable.sound).hhdmOffset
  refine ⟨hallocator ▸ h.usable.allocate, ?_, ?_⟩
  · rw [hallocator, hoffset]
    exact h.offset
  · rw [hallocator, hoffset, hcr3]
    exact h.current

/-- **A new address space**: its root, which was free, is all it leads to. -/
theorem userSpace_newUser (h : s.Booted) {new : ℕ} (hnew : (newUser s).1 = some new) :
    UserSpace new (newUser s).2 ∧ ∀ p, Reachable new (newUser s).2 p → s.allocator.Available p := by
  have hwell := wellFormed_newUser h.usable h.current h.offset hnew
  obtain ⟨hnone, -⟩ | ⟨clone, hclone, -, hready, hempty⟩ := newUser_spec h.usable h.current
  · rw [hnone] at hnew
    cases hnew
  obtain rfl : clone = new := Option.some.inj (hclone.symm.trans hnew)
  refine ⟨⟨hwell, fun path i t hpath ht hp => ?_⟩, ?_⟩
  · obtain ⟨rfl, rfl⟩ := reach_newUser hempty (mem_of_entryPaths hpath) ht
    exact absurd hp (hempty i (hpath.2 i rfl))
  · rintro p (⟨path, hpath, ht⟩ | ⟨path, hpath, t, i, hlength, ht, -⟩)
    · rw [(reach_newUser hempty hpath ht).2]
      exact hready.table.1
    · rw [(reach_newUser hempty hpath ht).1] at hlength
      exact absurd hlength (by decide)

end Spaces

/-! ### Runs -/

/-- The end of the page of a break, as `grow_heap` rounds it. -/
abbrev pageUp (x : ℕ) : ℕ := alignDown (x + (pageSize - 1))

/-- **No two address spaces share a frame**, and the heap of the process is mapped up to its
break. -/
structure HeapSystem.Sound (x : HeapSystem) : Prop where
  booted : x.machine.Booted
  spaces : ∀ r ∈ x.spaces, UserSpace r x.machine
  apart : ∀ r ∈ x.spaces, ∀ r' ∈ x.spaces, r ≠ r' → ∀ p, Reachable r x.machine p →
    ¬ Reachable r' x.machine p
  process : ∀ root, x.process.addressSpace = some root → root ∈ x.spaces
  start : userHeapStart ≤ x.process.heapEnd
  limit : x.process.heapEnd ≤ userHeapStart + userHeapLimit
  pages : ∀ root, x.process.addressSpace = some root → ∀ v, userHeapStart ≤ v →
    v < pageUp x.process.heapEnd → HasPage root v x.machine

section Runs

variable {s s' : Machine} {x x' : HeapSystem}

theorem pageUp_le {b : ℕ} (h : b ≤ userHeapStart + userHeapLimit) :
    pageUp b ≤ userHeapStart + userHeapLimit := by
  simp only [pageUp, alignDown, pageSize, userHeapStart, userHeapLimit] at h ⊢
  omega

theorem le_pageUp (b : ℕ) : b ≤ pageUp b := by
  simp only [pageUp, alignDown, pageSize]
  omega

/-- **A request** is refused at once, whatever the machine, or maps the pages up to the new
break. -/
theorem growHeap_cases {p : HeapOwner} (hstart : userHeapStart ≤ p.heapEnd) (n : ℤ) :
    (∃ e, ∀ s, growHeap n p s = (.error e, p, s)) ∨
      ∃ root newEnd, p.addressSpace = some root ∧ p.heapEnd ≤ newEnd ∧
        newEnd ≤ userHeapStart + userHeapLimit ∧ ∀ s, growHeap n p s =
          match mapPages root (pageUp newEnd) (pageUp p.heapEnd) s with
          | (true, s) => (.ok p.heapEnd, { p with heapEnd := newEnd }, s)
          | (false, s) => (.error (-12), p, s) := by
  by_cases hneg : n < 0
  · exact Or.inl ⟨-22, fun s => if_pos hneg⟩
  by_cases hbound : p.heapEnd + n.toNat < 2 ^ 64 ∧
      p.heapEnd + n.toNat - userHeapStart ≤ userHeapLimit
  swap
  · exact Or.inl ⟨-12, fun s => by rw [growHeap, if_neg hneg]; exact if_pos hbound⟩
  have hnew : p.heapEnd + n.toNat ≤ userHeapStart + userHeapLimit := by omega
  have hend : ∀ b ≤ userHeapStart + userHeapLimit, pageEndOf b = some (pageUp b) := fun b hb => by
    refine if_pos ?_
    simp only [pageSize, userHeapStart, userHeapLimit] at hb ⊢
    omega
  have hold := hend _ ((Nat.le_add_right _ _).trans hnew)
  cases hspace : p.addressSpace with
  | none =>
    refine Or.inl ⟨-12, fun s => ?_⟩
    simp only [growHeap, if_neg hneg, hbound, hend _ hnew, hold, hspace, and_self,
      not_true_eq_false, if_false]
  | some root =>
    refine Or.inr ⟨root, _, rfl, Nat.le_add_right _ _, hnew, fun s => ?_⟩
    simp only [growHeap, if_neg hneg, hbound, hend _ hnew, hold, hspace, and_self,
      not_true_eq_false, if_false]

/-- **Mapping in one of the address spaces** keeps them apart, and the heap mapped. -/
theorem HeapSystem.Sound.extends (h : x.Sound) {r : ℕ} (hr : r ∈ x.spaces)
    (hext : Extends r x.machine s') : ({ x with machine := s' } : HeapSystem).Sound := by
  have hother : ∀ q ∈ x.spaces, q ≠ r → UserSpace q s' ∧
      (∀ p, Reachable q s' p ↔ Reachable q x.machine p) ∧
        ∀ path ∈ userPaths, ∀ i, leaf q s' path i = leaf q x.machine path i := fun q hq hne =>
    (h.spaces q hq).other (fun p hp => hext.memory p (h.apart q hq r hr hne p hp)
      ((h.spaces q hq).wellFormed.owned p hp)) hext.space.wellFormed.usable hext.available
      hext.hhdmOffset
  have hmine : ∀ q ∈ x.spaces, q ≠ r → ∀ p, Reachable q x.machine p → ¬ Reachable r s' p :=
    fun q hq hne p hp hp' => (hext.reachable p hp').elim (h.apart q hq r hr hne p hp)
      ((h.spaces q hq).wellFormed.owned p hp)
  refine ⟨⟨hext.space.wellFormed.usable, hext.space.wellFormed.offset, ?_⟩, fun q hq => ?_,
    fun q hq q' hq' hne p hp => ?_, h.process, h.start, h.limit, fun root hroot v hv hlt => ?_⟩
  · show address s'.cr3 + s'.allocator.hhdmOffset < 2 ^ 64
    rw [hext.cr3, hext.hhdmOffset]
    exact h.booted.current
  · by_cases hqr : q = r
    · exact hqr ▸ hext.space
    · exact (hother q hq hqr).1
  · by_cases hqr : q = r
    · subst hqr
      exact fun hp' => hmine q' hq' hne.symm p (((hother q' hq' hne.symm).2.1 p).mp hp') hp
    · have hp := ((hother q hq hqr).2.1 p).mp hp
      by_cases hqr' : q' = r
      · exact hqr' ▸ hmine q hq hqr p hp
      · exact fun hp' => h.apart q hq q' hq' hne p hp (((hother q' hq' hqr').2.1 p).mp hp')
  · have hmax : v < userMax := (hlt.trans_le (pageUp_le h.limit)).trans (by decide)
    have hp := h.pages root hroot v hv hlt
    by_cases hqr : root = r
    · exact (hqr ▸ hext).hasPage hmax hp
    · rw [HasPage, (hother root (h.process root hroot) hqr).2.2 _ (upperIndices_mem hmax)]
      exact hp

/-- **A new address space** is apart from those that are there. -/
theorem HeapSystem.Sound.newUser (h : x.Sound) : ({ x with
    machine := (Memory.newUser x.machine).2
    spaces := (Memory.newUser x.machine).1.toList ++ x.spaces } : HeapSystem).Sound := by
  obtain ⟨hallocator, -, hmemory⟩ := newUser_kept h.booted.usable
  have hspec := allocateFrame_spec h.booted.usable.sound
  rw [← hallocator] at hspec
  have hbooted := h.booted.newUser
  have hother := fun q hq => (h.spaces q hq).other
    (fun p hp => hmemory p ((h.spaces q hq).wellFormed.owned p hp)) hbooted.usable hspec.available
    hspec.hhdmOffset
  have hnew : ∀ q ∈ (Memory.newUser x.machine).1.toList,
      UserSpace q (Memory.newUser x.machine).2 ∧
        ∀ p, Reachable q (Memory.newUser x.machine).2 p → x.machine.allocator.Available p :=
    fun q hq => userSpace_newUser h.booted (Option.mem_toList.mp hq)
  have hone : ∀ q ∈ (Memory.newUser x.machine).1.toList,
      ∀ q' ∈ (Memory.newUser x.machine).1.toList, q = q' := fun q hq q' hq' =>
    Option.some.inj ((Option.mem_toList.mp hq).symm.trans (Option.mem_toList.mp hq'))
  have hcross : ∀ q ∈ (Memory.newUser x.machine).1.toList, ∀ q' ∈ x.spaces, ∀ p,
      Reachable q (Memory.newUser x.machine).2 p →
        ¬ Reachable q' (Memory.newUser x.machine).2 p := fun q hq q' hq' p hp hp' =>
    (h.spaces q' hq').wellFormed.owned p (((hother q' hq').2.1 p).mp hp') ((hnew q hq).2 p hp)
  refine ⟨hbooted, fun q hq => ?_, fun q hq q' hq' hne p hp hp' => ?_,
    fun root hroot => mem_append_right _ (h.process root hroot), h.start, h.limit,
    fun root hroot v hv hlt => ?_⟩
  · exact (mem_append.mp hq).elim (fun hq => (hnew q hq).1) fun hq => (hother q hq).1
  · rcases mem_append.mp hq with hq | hq <;> rcases mem_append.mp hq' with hq' | hq'
    · exact hne (hone q hq q' hq')
    · exact hcross q hq q' hq' p hp hp'
    · exact hcross q' hq' q hq p hp' hp
    · exact h.apart q hq q' hq' hne p (((hother q hq).2.1 p).mp hp)
        (((hother q' hq').2.1 p).mp hp')
  · have hmax : v < userMax := (hlt.trans_le (pageUp_le h.limit)).trans (by decide)
    rw [HasPage, (hother root (h.process root hroot)).2.2 _ (upperIndices_mem hmax)]
    exact h.pages root hroot v hv hlt

theorem heap_range {b : ℕ} (hstart : userHeapStart ≤ b)
    (hlimit : b ≤ userHeapStart + userHeapLimit) :
    userMin ≤ pageUp b ∧ pageUp b ≤ userMax :=
  ⟨((by decide : userMin ≤ userHeapStart).trans hstart).trans (le_pageUp b),
    (pageUp_le hlimit).trans (by decide)⟩

/-- **A request** keeps the system sound, does not take back the break, and leaves the process as it
is if it fails. -/
theorem HeapSystem.Sound.grow (h : x.Sound) (n : ℤ) : (x.grow n).2.Sound ∧
    x.process.heapEnd ≤ (x.grow n).2.process.heapEnd ∧
      ∀ e, (x.grow n).1 = .error e → (x.grow n).2.process = x.process := by
  obtain ⟨e, hgrow⟩ | ⟨root, newEnd, hroot, hle, hlimit, hgrow⟩ := growHeap_cases h.start n
  · rw [HeapSystem.grow, hgrow]
    exact ⟨h, le_rfl, fun _ _ => rfl⟩
  have hmem := h.process root hroot
  have hspec := mapPages_spec (h.spaces root hmem) (heap_range h.start h.limit).1
    (heap_range (h.start.trans hle) hlimit).2
  rw [HeapSystem.grow, hgrow]
  rcases hmap : mapPages root (pageUp newEnd) (pageUp x.process.heapEnd) x.machine with
    ⟨_ | _, s'⟩ <;> rw [hmap] at hspec
  · exact ⟨h.extends hmem hspec.1, le_rfl, fun _ _ => rfl⟩
  have hsound := h.extends hmem hspec.1
  refine ⟨⟨hsound.booted, hsound.spaces, hsound.apart, h.process, h.start.trans hle, hlimit,
    fun root' hroot' v hv hlt => ?_⟩, hle, nofun⟩
  by_cases hold : v < pageUp x.process.heapEnd
  · exact hsound.pages root' hroot' v hv hold
  · obtain rfl := Option.some.inj (hroot.symm.trans hroot')
    exact hspec.2 rfl v (dvd_alignDown _) (Nat.not_lt.mp hold) hlt

/-- **The systems that are reached** are sound. -/
theorem HeapSystem.Reached.sound (hs : s.Booted) (h : Reached s x) : x.Sound := by
  have hempty : ∀ v, userHeapStart ≤ v → ¬ v < pageUp userHeapStart := fun v hv hlt =>
    absurd (hv.trans_lt hlt) (by decide)
  induction h with
  | boot =>
    exact ⟨hs, nofun, nofun, nofun, le_rfl, Nat.le_add_right _ _, nofun⟩
  | newUser h ih => exact ih.newUser
  | mapUserPage h hr v ih => exact ih.extends hr (extends_mapUserPage (ih.spaces _ hr) v)
  | load h hr ih =>
    refine ⟨ih.booted, ih.spaces, ih.apart, fun root hroot => Option.some.inj hroot ▸ hr, le_rfl,
      Nat.le_add_right _ _, fun _ _ v hv hlt => absurd hlt (hempty v hv)⟩
  | grow h n ih => exact (ih.grow n).1

/-- **A request has failed** in the second system, which is the first one otherwise: a loop that
starts where the next one will has taken frames, and has found none in the end. -/
def Ahead (x x' : HeapSystem) : Prop :=
  x'.process = x.process ∧ (x'.machine = x.machine ∨
    ∃ root limit, x.process.addressSpace = some root ∧ limit ≤ userMax ∧
      mapPages root limit (pageUp x.process.heapEnd) x.machine = (false, x'.machine))

theorem HeapSystem.Sound.ahead (h : x.Sound) {n : ℤ} {e : ℤ} (hfail : (x.grow n).1 = .error e) :
    Ahead x (x.grow n).2 := by
  refine ⟨(h.grow n).2.2 e hfail, ?_⟩
  obtain ⟨e', hgrow⟩ | ⟨root, newEnd, hroot, hle, hlimit, hgrow⟩ := growHeap_cases h.start n
  · rw [HeapSystem.grow, hgrow]
    exact Or.inl rfl
  rw [HeapSystem.grow, hgrow] at hfail ⊢
  rcases hmap : mapPages root (pageUp newEnd) (pageUp x.process.heapEnd) x.machine with
    ⟨_ | _, s'⟩ <;> rw [hmap] at hfail
  · exact Or.inr ⟨root, _, hroot, (heap_range (h.start.trans hle) hlimit).2, hmap⟩
  · cases hfail

/-- **The next request** is answered as it would be without the one that failed. -/
theorem Ahead.grow (h : x.Sound) (ha : Ahead x x') (n : ℤ) :
    (x'.grow n).1 = (x.grow n).1 ∧ Ahead (x.grow n).2 (x'.grow n).2 := by
  obtain ⟨hprocess, hmachine⟩ := ha
  rw [HeapSystem.grow, HeapSystem.grow, hprocess]
  obtain ⟨e, hgrow⟩ | ⟨root, newEnd, hroot, hle, hlimit, hgrow⟩ := growHeap_cases h.start n
  · rw [hgrow, hgrow]
    exact ⟨rfl, rfl, hmachine⟩
  obtain hmachine | ⟨root', limit, hroot', hmax, hfail⟩ := hmachine
  · rw [hmachine]
    rcases growHeap n x.process x.machine with ⟨result, p, s⟩
    exact ⟨rfl, rfl, Or.inl rfl⟩
  obtain rfl := Option.some.inj (hroot.symm.trans hroot')
  have hahead := mapPages_ahead (h.spaces root (h.process root hroot))
    (heap_range h.start h.limit).1 (heap_range (h.start.trans hle) hlimit).2 hmax
    (dvd_alignDown _) (dvd_alignDown _) (alignDown_mono (Nat.add_le_add_right hle _)) hfail
  rw [hgrow, hgrow]
  rcases hmap : mapPages root (pageUp newEnd) (pageUp x.process.heapEnd) x.machine with
    ⟨done, s₁⟩
  rcases hmap' : mapPages root (pageUp newEnd) (pageUp x.process.heapEnd) x'.machine with
    ⟨done', s₂⟩
  rw [hmap, hmap'] at hahead
  obtain ⟨rfl, rfl, hrest⟩ := hahead
  cases done with
  | false =>
    obtain rfl : s₁ = x'.machine := hrest
    exact ⟨rfl, rfl, Or.inl rfl⟩
  | true => exact ⟨rfl, rfl, Or.inr ⟨root, limit, hroot, hmax, hrest⟩⟩

/-- **All later requests** are. -/
theorem Ahead.grows (h : x.Sound) (ha : Ahead x x') (ns : List ℤ) :
    (x'.grows ns).1 = (x.grows ns).1 ∧ (x'.grows ns).2.process = (x.grows ns).2.process := by
  induction ns generalizing x x' with
  | nil => exact ⟨rfl, ha.1⟩
  | cons n ns ih =>
    obtain ⟨hresult, ha⟩ := ha.grow h n
    obtain ⟨hresults, hprocess⟩ := ih (h.grow n).1 ha
    exact ⟨congrArg₂ List.cons hresult hresults, hprocess⟩

theorem HeapSystem.Sound.le_grows (h : x.Sound) (ns : List ℤ) :
    x.process.heapEnd ≤ (x.grows ns).2.process.heapEnd := by
  induction ns generalizing x with
  | nil => exact le_rfl
  | cons n ns ih => exact (h.grow n).2.1.trans (ih (h.grow n).1)

/-- **The heap is mapped** to frames of the process alone. -/
theorem HeapSystem.Sound.ownsPage (h : x.Sound) {root v : ℕ}
    (hroot : x.process.addressSpace = some root) (hv : userHeapStart ≤ v)
    (hlt : v < x.process.heapEnd) : x.OwnsPage root v := by
  have hmem := h.process root hroot
  have hspace := h.spaces root hmem
  have hmax : v < userMax := (hlt.trans_le h.limit).trans (by decide)
  have hpath := upperIndices_mem hmax
  have hp := h.pages root hroot v hv (hlt.trans_le (le_pageUp _))
  rcases ht : reach (next x.machine.memory) (upperIndices v) root with _ | t
  · rw [HasPage, leaf_of_none ht] at hp
    exact absurd hp not_present_zero
  have hleaf := leaf_of_reach ht (lastIndex v)
  rw [HasPage, hleaf] at hp
  obtain ⟨hwide, hdirect⟩ := hspace.entries _ _ t (entryPaths_of_page hpath rfl) ht hp
  have huser : user (x.machine.memory t (lastIndex v)) := hwide ▸ user_widened _
  have hreach : Reachable root x.machine (address (x.machine.memory t (lastIndex v))) :=
    Or.inr ⟨_, hpath, t, lastIndex v, rfl, ht, if_pos hp⟩
  refine ⟨_, ?_, hspace.wellFormed.owned _ hreach, fun r hr => ⟨fun hreach' => ?_, ?_⟩⟩
  · rw [translate_eq hspace.wellFormed hmax, hleaf, if_pos ⟨hp, huser⟩]
    refine if_pos ?_
    obtain ⟨k, hk⟩ := hspace.wellFormed.offset
    obtain ⟨m, hm⟩ := dvd_address (x.machine.memory t (lastIndex v))
    have hmod : v % pageSize < pageSize := Nat.mod_lt v (by decide)
    simp only [pageSize] at hk hm hmod ⊢
    omega
  · by_contra hne
    exact h.apart r hr root hmem hne _ hreach' hreach
  · rintro rfl
    exact hreach

/-- A program that was just loaded, without pages. -/
def HeapSystem.fresh (s : Machine) (root : ℕ) : HeapSystem :=
  ⟨(newUser s).2, [root], some root, userHeapStart⟩

theorem HeapSystem.Reached.fresh {root : ℕ} (hnew : (Memory.newUser s).1 = some root) :
    Reached s (.fresh s root) := by
  have h := (Reached.boot (s := s)).newUser
  simp only [hnew] at h
  exact h.load (mem_singleton_self root)

end Runs

end ImagineOS.Memory
