import ImagineOS.Bootstrap.LoadElf

/-!
# The bootstrap: the page tables it was started with

The bootstrap walks the page tables it runs on and reserves each of them. A table that is reserved
already is not walked: it is one of its own, and leads to its own ones only. Then no table is left
out, and if there is no room for one, an error is reported.
-/

namespace ImagineOS.Bootstrap

open Memory

/-- The ranges up to the count, and `page_table_count`. -/
structure Reservation where
  ranges : List PhysicalRange
  pageTableCount : ℕ

/-- A table is in one of the ranges. -/
def Covered (ranges : List PhysicalRange) (table : ℕ) : Prop :=
  ∃ r ∈ ranges, r.start ≤ table ∧ table < r.stop

instance (ranges : List PhysicalRange) (table : ℕ) : Decidable (Covered ranges table) :=
  inferInstanceAs (Decidable (∃ r ∈ ranges, _ ∧ _))

/-- The page of the table to which an entry leads. -/
def tableRange (e : BitVec 64) : PhysicalRange where
  start := address e
  length := pageSize
  start_lt := (e &&& entryMask).isLt
  length_lt := by decide

/-- An entry of a table at a level leads to a table. -/
def Leads (level : ℕ) (e : BitVec 64) : Prop := ¬ (¬ present e ∨ (level ≤ 3 ∧ huge e))

instance (level : ℕ) (e : BitVec 64) : Decidable (Leads level e) :=
  inferInstanceAs (Decidable (¬ (_ ∨ _)))

/-- `reserve_page_table_tree`, for the table to which an entry leads, or `CR3`. -/
def reservePageTableTree (s : Loader) : ℕ → BitVec 64 → Reservation → Except Reservation Reservation
  | 0, _, x => .ok x
  | level + 1, e, x =>
    if Covered x.ranges (address e) then .ok x
    else if x.ranges.length = maxReservedRanges then .error x
    else
      let x : Reservation := ⟨x.ranges ++ [tableRange e], x.pageTableCount + 1⟩
      if level = 0 then .ok x
      else (List.finRange 512).foldlM (fun x index =>
        if Leads (level + 1) (s.entry (address e) index) then
          reservePageTableTree s level (s.entry (address e) index) x
        else .ok x) x

/-- What the bootstrap passes on: `none` if it stops because there is no room. -/
def reservedRanges (cr3 : BitVec 64) (pool : PhysicalRange) (s : Loader) :
    Option (List PhysicalRange) :=
  if s.reserved.length = maxReservedRanges then none
  else match reservePageTableTree s 4 cr3 ⟨s.reserved ++ [pool], 0⟩ with
    | .error _ => none
    | .ok x => some (sortAndMerge x.ranges)

/-! ### The tables -/

/-- **A table** that is reached from `CR3`, with its level. -/
inductive IsTable (s : Loader) (cr3 : BitVec 64) : ℕ → ℕ → Prop
  | root : IsTable s cr3 4 (address cr3)
  | next {level t : ℕ} {i : Fin 512} (h : IsTable s cr3 (level + 2) t)
      (hleads : Leads (level + 2) (s.entry t i)) :
      IsTable s cr3 (level + 1) (address (s.entry t i))

/-- The range ends with a page, at a 64-bit address. -/
def WholePages (r : PhysicalRange) : Prop :=
  r.start + r.length < 2 ^ 64 ∧ pageSize ∣ r.start + r.length

/-- **The tables are a tree**, at least level by level; and where the bootstrap has reserved a
table before, it has reserved those behind it. -/
structure Handed (s : Loader) (cr3 : BitVec 64) (pool : PhysicalRange) : Prop where
  reserved : ∀ r ∈ s.reserved ++ [pool], WholePages r
  levels : ∀ {level level' t}, IsTable s cr3 level t → IsTable s cr3 level' t → level = level'
  own : ∀ {level t i}, IsTable s cr3 (level + 2) t → Covered (s.reserved ++ [pool]) t →
    Leads (level + 2) (s.entry t i) → Covered (s.reserved ++ [pool]) (address (s.entry t i))

/-- The tables in the ranges lead to others, but for some. -/
def Walked (s : Loader) (cr3 : BitVec 64) (open_ : Set ℕ) (ranges : List PhysicalRange) : Prop :=
  ∀ level t, IsTable s cr3 (level + 2) t → Covered ranges t → t ∉ open_ →
    ∀ i, Leads (level + 2) (s.entry t i) → Covered ranges (address (s.entry t i))

section Walk

variable {s : Loader} {cr3 e : BitVec 64} {pool : PhysicalRange} {level t : ℕ} {open_ : Set ℕ}
  {x x' : Reservation} {ranges ranges' : List PhysicalRange}

theorem Covered.mono (h : Covered ranges t) (hsub : ranges ⊆ ranges') : Covered ranges' t := by
  obtain ⟨r, hr, hin⟩ := h
  exact ⟨r, hsub hr, hin⟩

theorem IsTable.dvd (h : IsTable s cr3 level t) : pageSize ∣ t := by
  cases h <;> exact dvd_address _

theorem address_lt (e : BitVec 64) : address e < 2 ^ 52 :=
  Nat.lt_of_le_of_lt (Nat.and_le_right (n := e.toNat)) (show entryMask.toNat < 2 ^ 52 by decide)

theorem covered_append_iff (ht : pageSize ∣ t) :
    Covered (ranges ++ [tableRange e]) t ↔ Covered ranges t ∨ t = address e := by
  obtain ⟨k, rfl⟩ := ht
  obtain ⟨n, hn⟩ := dvd_address e
  have hlt : address e < 2 ^ 52 := address_lt e
  have hpage : (tableRange e).start ≤ pageSize * k ∧ pageSize * k < (tableRange e).stop ↔
      pageSize * k = address e := by
    simp only [PhysicalRange.stop, tableRange, pageSize] at hn hlt ⊢
    omega
  simp only [Covered, List.mem_append, List.mem_singleton, or_and_right, exists_or,
    exists_eq_left, hpage]

theorem wholePages_tableRange (e : BitVec 64) : WholePages (tableRange e) := by
  refine ⟨?_, Nat.dvd_add (dvd_address e) (dvd_refl _)⟩
  have := address_lt e
  simp only [tableRange, pageSize]
  omega

/-- What one call keeps: all ranges, and that tables in them lead to others. -/
structure Visited (s : Loader) (cr3 : BitVec 64) (open_ : Set ℕ) (x x' : Reservation) : Prop where
  subset : x.ranges ⊆ x'.ranges
  walked : Walked s cr3 open_ x.ranges → Walked s cr3 open_ x'.ranges

theorem Visited.refl : Visited s cr3 open_ x x := ⟨List.Subset.refl _, id⟩

theorem Visited.trans {x'' : Reservation} (h : Visited s cr3 open_ x x')
    (h' : Visited s cr3 open_ x' x'') : Visited s cr3 open_ x x'' :=
  ⟨List.Subset.trans h.subset h'.subset, h'.walked ∘ h.walked⟩

theorem visited_foldlM {f : Reservation → Fin 512 → Except Reservation Reservation}
    {leads : Fin 512 → Prop} {child : Fin 512 → ℕ}
    (hf : ∀ x i x', f x i = .ok x' → Visited s cr3 open_ x x' ∧
      (leads i → Covered x'.ranges (child i))) (is : List (Fin 512)) {x x' : Reservation}
    (h : is.foldlM f x = .ok x') :
    Visited s cr3 open_ x x' ∧ ∀ i ∈ is, leads i → Covered x'.ranges (child i) := by
  induction is generalizing x with
  | nil =>
    obtain rfl := Except.ok.inj h
    exact ⟨.refl, fun i hi => absurd hi List.not_mem_nil⟩
  | cons i is ih =>
    rw [List.foldlM_cons] at h
    cases hfirst : f x i with
    | error y => rw [hfirst] at h; cases h
    | ok y =>
      rw [hfirst] at h
      obtain ⟨hvisited, hchild⟩ := hf x i y hfirst
      obtain ⟨hvisited', hchildren⟩ := ih h
      refine ⟨hvisited.trans hvisited', fun j hj hleads => ?_⟩
      rcases List.mem_cons.mp hj with rfl | hj
      · exact (hchild hleads).mono hvisited'.subset
      · exact hchildren j hj hleads

theorem Walked.insert (h : Walked s cr3 open_ ranges) :
    Walked s cr3 (insert (address e) open_) (ranges ++ [tableRange e]) := by
  intro level t ht hcovered hopen i hleads
  rw [Set.mem_insert_iff, not_or] at hopen
  have hold := ((covered_append_iff ht.dvd).mp hcovered).resolve_right hopen.1
  exact (h level t ht hold hopen.2 i hleads).mono (List.subset_append_left _ _)

/-- **One call** reserves its table, and those behind it. -/
theorem visited_reserve (hlevels : ∀ {level level' t}, IsTable s cr3 level t →
      IsTable s cr3 level' t → level = level') (level : ℕ) (e : BitVec 64)
    (ht : IsTable s cr3 (level + 1) (address e)) {x x' : Reservation} {open_ : Set ℕ}
    (h : reservePageTableTree s (level + 1) e x = .ok x') :
    Visited s cr3 open_ x x' ∧ Covered x'.ranges (address e) := by
  have hself : Covered (x.ranges ++ [tableRange e]) (address e) :=
    (covered_append_iff (dvd_address e)).mpr (.inr rfl)
  induction level generalizing e x x' open_ with
  | zero =>
    rw [reservePageTableTree] at h
    split at h
    · rename_i hcovered
      obtain rfl := Except.ok.inj h
      exact ⟨.refl, hcovered⟩
    split at h
    · cases h
    rw [if_pos rfl] at h
    obtain rfl := Except.ok.inj h
    refine ⟨⟨List.subset_append_left _ _, fun hwalked level t hlevel hcovered hopen => ?_⟩, hself⟩
    -- The new table is one of the last level.
    refine hwalked.insert (e := e) level t hlevel hcovered ?_
    rw [Set.mem_insert_iff, not_or]
    refine ⟨fun heq => ?_, hopen⟩
    have := hlevels hlevel (heq ▸ ht)
    omega
  | succ level ih =>
    rw [reservePageTableTree] at h
    split at h
    · rename_i hcovered
      obtain rfl := Except.ok.inj h
      exact ⟨.refl, hcovered⟩
    split at h
    · cases h
    rw [if_neg (Nat.succ_ne_zero level)] at h
    obtain ⟨hvisited, hchildren⟩ := @visited_foldlM s cr3 (insert (address e) open_) _
      (fun i => Leads (level + 2) (s.entry (address e) i))
      (fun i => address (s.entry (address e) i))
      (fun y i y' hy => by
        split at hy
        · rename_i hleads
          obtain ⟨hvisited, hcovered⟩ := ih _ (.next ht hleads) hy
            ((covered_append_iff (dvd_address _)).mpr (.inr rfl))
          exact ⟨hvisited, fun _ => hcovered⟩
        · rename_i hleads
          obtain rfl := Except.ok.inj hy
          exact ⟨.refl, fun h => absurd h hleads⟩) _ _ _ h
    refine ⟨⟨fun r hr => hvisited.subset (List.mem_append_left _ hr), fun hwalked => ?_⟩,
      hself.mono hvisited.subset⟩
    intro l t hlevel hcovered hopen i hleads
    by_cases heq : t = address e
    · subst heq
      obtain rfl : l = level := by
        have := hlevels hlevel ht
        omega
      exact hchildren i (List.mem_finRange i) hleads
    · refine hvisited.walked hwalked.insert l t hlevel hcovered ?_ i hleads
      rw [Set.mem_insert_iff, not_or]
      exact ⟨heq, hopen⟩

/-- **A range is added** only where there is room; what this keeps is kept by one call. -/
theorem reserve_keeps {P : Reservation → Prop}
    (hP : ∀ x e, P x → P ⟨x.ranges ++ [tableRange e], x.pageTableCount + 1⟩) (level : ℕ)
    (e : BitVec 64) {x : Reservation} (hx : P x) :
    match reservePageTableTree s level e x with
    | .ok x' => P x'
    | .error x' => x'.ranges.length = maxReservedRanges := by
  induction level generalizing e x with
  | zero => exact hx
  | succ level ih =>
    rw [reservePageTableTree]
    split_ifs with hcovered hfull hlast
    · exact hx
    · exact hfull
    · exact hP x e hx
    · generalize List.finRange 512 = is
      have hx := hP x e hx
      generalize (⟨x.ranges ++ [tableRange e], _⟩ : Reservation) = y at hx
      induction is generalizing y with
      | nil => exact hx
      | cons i is ihs =>
        rw [List.foldlM_cons]
        split_ifs with hleads
        · have hfirst := ih (s.entry (address e) i) hx
          cases hreserve : reservePageTableTree s level (s.entry (address e) i) y with
          | error z => exact (hreserve ▸ hfirst :)
          | ok z => exact ihs z (hreserve ▸ hfirst :)
        · exact ihs y hx

/-- **Headline.** Every table that is reached from `CR3` lies in one of the ranges that are passed
on, and no frame that is handed out later meets it. If there is no room for a table, that is an
error. -/
theorem tables_reserved (h : Handed s cr3 pool) :
    (∀ ranges, reservedRanges cr3 pool s = some ranges → ∀ level t, IsTable s cr3 level t →
      (∃ r ∈ ranges, page t ⊆ r.addresses) ∧
      ∀ (entries : List Entry) (hhdmOffset n : ℕ),
        (entries.Pairwise fun e f => e.usable = true → f.usable = true →
          Disjoint e.addresses f.addresses) →
        ∀ f ∈ (allocateFrames n (init entries hhdmOffset ranges)).1,
          Disjoint (page f.physicalAddress) (page t)) ∧
    ∀ x, reservePageTableTree s 4 cr3 ⟨s.reserved ++ [pool], 0⟩ = .error x →
      x.ranges.length = maxReservedRanges := by
  have hkeeps := reserve_keeps (P := fun x => ∀ r ∈ x.ranges, WholePages r) (s := s)
    (x := ⟨s.reserved ++ [pool], 0⟩) (fun x e hx r hr => (List.mem_append.mp hr).elim (hx r)
      fun hr => List.mem_singleton.mp hr ▸ wholePages_tableRange e) 4 cr3 h.reserved
  refine ⟨fun ranges hranges level t ht => ?_, fun x hx => (hx ▸ hkeeps :)⟩
  rw [reservedRanges] at hranges
  split_ifs at hranges
  cases hreserve : reservePageTableTree s 4 cr3 ⟨s.reserved ++ [pool], 0⟩ with
  | error x => rw [hreserve] at hranges; cases hranges
  | ok x =>
    rw [hreserve] at hranges hkeeps
    obtain rfl := Option.some.inj hranges
    obtain ⟨hvisited, hroot⟩ := @visited_reserve s cr3 h.levels 3 cr3 .root _ _ ∅ hreserve
    have hwalked := hvisited.walked fun level t ht hcovered _ i => h.own ht hcovered
    have hcovered : Covered x.ranges t := by
      induction ht with
      | root => exact hroot
      | next ht hleads ih => exact hwalked _ _ ht ih (Set.notMem_empty _) _ hleads
    obtain ⟨r, hr, hstart, hstop⟩ := hcovered
    obtain ⟨m, hm, hwithin⟩ := within_merged hr (hkeeps r hr).1
    have hsub : page t ⊆ m.addresses := by
      refine Set.Ico_subset_Ico (hwithin.start_le.trans hstart) (Nat.le_trans ?_ hwithin.stop_le)
      obtain ⟨a, ha⟩ := ht.dvd
      obtain ⟨b, hb⟩ := (hkeeps r hr).2
      have hlt : t < r.start + r.length := hstop.trans_le (Nat.min_le_left _ _)
      simp only [pageSize] at ha hb ⊢
      omega
    refine ⟨⟨m, hm, hsub⟩, fun entries hhdmOffset n hapart f hf => ?_⟩
    have hbuilt := built_init (sorted_sortAndMerge x.ranges) hhdmOffset hapart
    obtain ⟨-, -, havail, -⟩ := allocateFrames_spec (hbuilt.sound 0 hhdmOffset) n
    obtain ⟨hdvd, hg⟩ := (havail f hf).1
    exact ((hbuilt.page hdvd hg).2 m hm hwithin.fits).mono_right hsub

/-- A table at `4096`, whose first entry leads to an empty table at `8192`. -/
def twoTables : Loader :=
  { emptyLoader with memory := emptyLoader.memory.setWord 4096 8 0x2003 }

theorem entry_twoTables (i : Fin 512) :
    twoTables.entry 4096 i = (if i = 0 then 0x2003 else 0) ∧ twoTables.entry 8192 i = 0 := by
  revert i
  decide +kernel

theorem isTable_twoTables (h : IsTable twoTables 4096 level t) :
    level = 4 ∧ t = 4096 ∨ level = 3 ∧ t = 8192 := by
  induction h with
  | root => exact .inl ⟨rfl, by decide⟩
  | @next l t i h hleads ih =>
    rcases ih with ⟨hl, rfl⟩ | ⟨hl, rfl⟩
    · rw [(entry_twoTables i).1] at hleads ⊢
      split_ifs at hleads ⊢
      · exact .inr ⟨by omega, by decide⟩
      · exact absurd (fun h => h rfl) (not_or.mp hleads).1
    · rw [(entry_twoTables i).2] at hleads
      exact absurd (fun h => h rfl) (not_or.mp hleads).1

/-- Both tables are passed on. -/
theorem tables_reserved_sample : ∃ ranges,
    reservedRanges 4096 ⟨0x10000, 0x20000, by decide, by decide⟩ twoTables = some ranges ∧
      ∃ r ∈ ranges, page 8192 ⊆ r.addresses := by
  have hranges : (reservedRanges 4096 ⟨0x10000, 0x20000, by decide, by decide⟩ twoTables).map
      (List.map fun r => (r.start, r.length)) = some [(4096, 8192), (0x10000, 0x20000)] := by
    decide +kernel
  obtain ⟨ranges, hranges, -⟩ := Option.map_eq_some_iff.mp hranges
  have htable : IsTable twoTables 4096 3 8192 := @IsTable.next _ _ 2 4096 0 .root
    (by decide +kernel)
  refine ⟨ranges, hranges, ((tables_reserved ?_).1 ranges hranges 3 8192 htable).1⟩
  refine ⟨fun r hr => ?_, fun h h' => ?_, fun h hcovered => ?_⟩
  · rw [List.mem_singleton.mp hr]
    exact ⟨by decide, by decide⟩
  · have := isTable_twoTables h
    have := isTable_twoTables h'
    omega
  · rcases isTable_twoTables h with ⟨-, rfl⟩ | ⟨-, rfl⟩ <;> exact absurd hcovered (by decide)

end Walk

end ImagineOS.Bootstrap
