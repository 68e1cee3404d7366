import ImagineOS.Memory.Paging

/-!
# Physical memory: clones of address spaces

Copying a page table entry takes frames in a fixed order, a table before its entries. As long as
frames last everything is copied; when they run out, what is left is skipped, and `clone_user` still
returns the clone, unless it has no page at all (`cloneUser_complete_iff`, `page_lost`).
-/

namespace ImagineOS.Memory

open List

/-! ### Frames that are left -/

/-- Frames are aligned, have physical addresses of at most 52 bits, and are in the direct map. -/
structure FrameAllocator.Usable (a : FrameAllocator) : Prop where
  sound : a.Sound
  width : ∀ p, a.Available p → p < 2 ^ 52
  mapped : ∀ p, a.Available p → p + a.hhdmOffset < 2 ^ 64

/-- The number of frames from the current region on. -/
def FrameAllocator.remaining (a : FrameAllocator) : ℕ :=
  ((a.regions.drop a.currentRegion).map fun region => (region.stop - region.next) / pageSize).sum

section Remaining

variable {a : FrameAllocator}

theorem FrameAllocator.Usable.allocate (h : a.Usable) : (allocateFrame a).2.Usable := by
  have hspec := allocateFrame_spec h.sound
  exact ⟨hspec.sound, fun p hp => h.width p (hspec.available p hp), fun p hp => by
    rw [hspec.hhdmOffset]
    exact h.mapped p (hspec.available p hp)⟩

theorem remaining_eq (h : a.currentRegion < a.regions.length) :
    a.remaining =
      (a.regions[a.currentRegion].stop - a.regions[a.currentRegion].next) / pageSize +
        FrameAllocator.remaining { a with currentRegion := a.currentRegion + 1 } := by
  rw [FrameAllocator.remaining, drop_eq_getElem_cons h, map_cons, sum_cons]
  rfl

theorem frames_rest {g : Region} (h : pageSize ∣ g.next ∧ pageSize ∣ g.stop)
    (hlt : g.next < g.stop) :
    (g.stop - g.next) / pageSize = (g.stop - (g.next + pageSize)) / pageSize + 1 := by
  obtain ⟨⟨x, hx⟩, y, hy⟩ := h
  simp only [pageSize] at hx hy ⊢
  omega

theorem remaining_taken (h : a.currentRegion < a.regions.length) :
    FrameAllocator.remaining { a with regions := a.taken h } =
      (a.regions[a.currentRegion].stop - (a.regions[a.currentRegion].next + pageSize)) / pageSize +
        FrameAllocator.remaining { a with currentRegion := a.currentRegion + 1 } := by
  have hlen : a.currentRegion < (a.taken h).length := by simpa [FrameAllocator.taken] using h
  rw [remaining_eq (a := { a with regions := a.taken h }) hlen]
  simp only [FrameAllocator.taken, getElem_set_self, FrameAllocator.remaining]
  rw [drop_set_of_lt (Nat.lt_succ_self _)]

/-- A call gives one frame less to go, or there was none. -/
theorem remaining_allocateFrame (h : a.Usable) :
    (∃ f, (allocateFrame a).1 = some f ∧ a.remaining = (allocateFrame a).2.remaining + 1) ∨
      ((allocateFrame a).1 = none ∧ a.remaining = 0 ∧ (allocateFrame a).2.remaining = 0) := by
  induction a using allocateFrame.induct with
  | case1 a hr region hroom hnext hvirtual =>
    left
    rw [allocateFrame, dif_pos hr, if_pos hroom, if_pos hnext, if_pos hvirtual]
    refine ⟨_, rfl, ?_⟩
    have htaken := remaining_taken hr
    rw [remaining_eq hr, frames_rest (h.sound.aligned _ (getElem_mem hr)) hroom]
    rw [FrameAllocator.taken] at htaken
    rw [htaken]
    exact Nat.add_right_comm _ _ _
  | case2 a hr region hroom hnext hvirtual =>
    have hmem := getElem_mem hr
    exact absurd (h.mapped _ ⟨(h.sound.aligned _ hmem).1, _, hmem, le_rfl, hroom⟩) hvirtual
  | case3 a hr region hroom hnext =>
    have hmem := getElem_mem hr
    have hwidth : region.next < 2 ^ 52 :=
      h.width _ ⟨(h.sound.aligned _ hmem).1, _, hmem, le_rfl, hroom⟩
    have hpage : pageSize = 4096 := rfl
    exact absurd (show region.next + pageSize < 2 ^ 64 by omega) hnext
  | case4 a hr region hroom ih =>
    rw [allocateFrame, dif_pos hr, if_neg hroom]
    have hempty : region.stop - region.next = 0 := by omega
    have heq := remaining_eq hr
    rw [hempty, Nat.zero_div, Nat.zero_add] at heq
    rw [heq]
    exact ih ⟨h.sound.of_regions rfl, h.width, h.mapped⟩
  | case5 a hr =>
    right
    rw [allocateFrame, dif_neg hr]
    have hzero : a.remaining = 0 := by
      rw [FrameAllocator.remaining, drop_of_length_le (Nat.le_of_not_lt hr)]
      rfl
    exact ⟨rfl, hzero, hzero⟩

end Remaining

/-! ### Pages of two walks -/

/-- The walk from a table, through some of its entries. -/
def walk (memory : ℕ → Table) (level : ℕ) (table : Table) (indices : List (Fin 512)) :
    List (Fin 512) → Option Mapping
  | [] => none
  | index :: path => if index ∈ indices then mapping memory level (table index) path else none

/-- The pages of the first walk that the second one has are copies in fresh frames, the second one
has nothing else, and something is `left` out if it has not all of them. -/
structure Pages (m₀ m : ℕ → Table) (fresh : ℕ → Prop) (left : Prop)
    (f g : List (Fin 512) → Option Mapping) : Prop where
  sound : ∀ path x, g path = some x → ∃ e e', x = .page e' ∧ f path = some (.page e) ∧
    flags e' = flags e ∧ m (address e') = m₀ (address e) ∧ fresh (address e')
  left_iff : left ↔ ∃ path e, f path = some (.page e) ∧ g path = none
  apart : ∀ path path' e e', g path = some (.page e) → g path' = some (.page e') →
    address e = address e' → path = path'

section Pages

variable {m₀ m : ℕ → Table} {fresh fresh' : ℕ → Prop} {left left' : Prop} {level : ℕ}
  {f g : List (Fin 512) → Option Mapping}

theorem Pages.mono (h : Pages m₀ m fresh left f g) (hfresh : ∀ p, fresh p → fresh' p) :
    Pages m₀ m fresh' left f g where
  sound path x hx := by
    obtain ⟨e, e', h₁, h₂, h₃, h₄, h₅⟩ := h.sound path x hx
    exact ⟨e, e', h₁, h₂, h₃, h₄, hfresh _ h₅⟩
  left_iff := h.left_iff
  apart := h.apart

theorem Pages.nothing (hg : ∀ path, g path = none)
    (hleft : left ↔ ∃ path e, f path = some (.page e)) : Pages m₀ m fresh left f g where
  sound path x hx := by simp [hg] at hx
  left_iff := by simp [hleft, hg]
  apart path path' e e' he := by simp [hg] at he

variable {e : BitVec 64}

theorem mapping_page (h : present e) {path : List (Fin 512)} {x : Mapping} :
    mapping m 1 e path = some x ↔ path = [] ∧ x = .page e := by
  rw [mapping]
  constructor
  · intro hx
    split at hx
    · rename_i hpath
      exact ⟨hpath.2, (Option.some.inj hx).symm⟩
    · exact absurd hx (by simp)
  · rintro ⟨rfl, rfl⟩
    rw [if_pos ⟨h, rfl⟩]

theorem Pages.page {e' : BitVec 64} (h : present e) (h' : present e') (hflags : flags e' = flags e)
    (hbytes : m (address e') = m₀ (address e)) (hfresh : fresh (address e')) :
    Pages m₀ m fresh False (mapping m₀ 1 e) (mapping m 1 e') where
  sound path x hx := by
    obtain ⟨rfl, rfl⟩ := (mapping_page h').mp hx
    exact ⟨e, e', rfl, (mapping_page h).mpr ⟨rfl, rfl⟩, hflags, hbytes, hfresh⟩
  left_iff := by
    refine iff_of_false not_false ?_
    rintro ⟨path, d, h₁, h₂⟩
    obtain ⟨rfl, -⟩ := (mapping_page h).mp h₁
    rw [(mapping_page h').mpr ⟨rfl, rfl⟩] at h₂
    exact absurd h₂ (by simp)
  apart path path' d d' h₁ h₂ _ := by
    rw [((mapping_page h').mp h₁).1, ((mapping_page h').mp h₂).1]

theorem walk_cons_of_mem {table : Table} {index : Fin 512} {indices : List (Fin 512)}
    (h : index ∈ indices) (path : List (Fin 512)) :
    walk m level table indices (index :: path) = mapping m level (table index) path := if_pos h

/-- The pages under an entry, and those under the entries after it. -/
theorem Pages.cons {table₀ table : Table} {index : Fin 512} {rest : List (Fin 512)}
    (hnot : index ∉ rest)
    (h : Pages m₀ m fresh left (mapping m₀ level (table₀ index)) (mapping m level (table index)))
    (h' : Pages m₀ m fresh' left' (walk m₀ level table₀ rest) (walk m level table rest))
    (hdisj : ∀ p, fresh p → ¬ fresh' p) :
    Pages m₀ m (fun p => fresh p ∨ fresh' p) (left ∨ left')
      (walk m₀ level table₀ (index :: rest)) (walk m level table (index :: rest)) := by
  have hhead : ∀ (n : ℕ → Table) (t : Table) path, walk n level t (index :: rest) (index :: path) =
      mapping n level (t index) path := fun n t path => walk_cons_of_mem (by simp) path
  have htail : ∀ (n : ℕ → Table) (t : Table) path, (∀ p, path ≠ index :: p) →
      walk n level t (index :: rest) path = walk n level t rest path := by
    intro n t path hne
    cases path with
    | nil => rfl
    | cons i path =>
      have hi : i ≠ index := fun he => hne path (by rw [he])
      simp [walk, hi]
  refine ⟨fun path x hx => ?_, ?_, fun path path' e e' he he' heq => ?_⟩
  · by_cases hp : ∃ p, path = index :: p
    · obtain ⟨p, rfl⟩ := hp
      rw [hhead] at hx
      obtain ⟨e, e', h₁, h₂, h₃, h₄, h₅⟩ := h.sound p x hx
      exact ⟨e, e', h₁, by rw [hhead, h₂], h₃, h₄, Or.inl h₅⟩
    · have hne : ∀ p, path ≠ index :: p := fun p he => hp ⟨p, he⟩
      rw [htail _ _ _ hne] at hx
      obtain ⟨e, e', h₁, h₂, h₃, h₄, h₅⟩ := h'.sound path x hx
      exact ⟨e, e', h₁, by rw [htail _ _ _ hne, h₂], h₃, h₄, Or.inr h₅⟩
  · rw [h.left_iff, h'.left_iff]
    constructor
    · rintro (⟨path, e, h₁, h₂⟩ | ⟨path, e, h₁, h₂⟩)
      · exact ⟨index :: path, e, by rw [hhead, h₁], by rw [hhead, h₂]⟩
      · have hne : ∀ p, path ≠ index :: p := by
          rintro p rfl
          simp [walk, hnot] at h₁
        exact ⟨path, e, by rw [htail _ _ _ hne, h₁], by rw [htail _ _ _ hne, h₂]⟩
    · rintro ⟨path, e, h₁, h₂⟩
      by_cases hp : ∃ p, path = index :: p
      · obtain ⟨p, rfl⟩ := hp
        rw [hhead] at h₁ h₂
        exact Or.inl ⟨p, e, h₁, h₂⟩
      · have hne : ∀ p, path ≠ index :: p := fun p he => hp ⟨p, he⟩
        rw [htail _ _ _ hne] at h₁ h₂
        exact Or.inr ⟨path, e, h₁, h₂⟩
  · have hfresh : ∀ {p d}, mapping m level (table index) p = some (.page d) →
        fresh (address d) := fun hd => by
      obtain ⟨_, _, h₁, -, -, -, h₂⟩ := h.sound _ _ hd
      rw [Mapping.page.inj h₁]
      exact h₂
    have hfresh' : ∀ {p d}, walk m level table rest p = some (.page d) →
        fresh' (address d) := fun hd => by
      obtain ⟨_, _, h₁, -, -, -, h₂⟩ := h'.sound _ _ hd
      rw [Mapping.page.inj h₁]
      exact h₂
    by_cases hp : ∃ p, path = index :: p <;> by_cases hp' : ∃ p, path' = index :: p
    · obtain ⟨p, rfl⟩ := hp
      obtain ⟨p', rfl⟩ := hp'
      rw [hhead] at he he'
      rw [h.apart p p' e e' he he' heq]
    · obtain ⟨p, rfl⟩ := hp
      rw [hhead] at he
      rw [htail _ _ _ fun p he => hp' ⟨p, he⟩] at he'
      exact absurd (hfresh' he') (heq ▸ hdisj _ (hfresh he))
    · obtain ⟨p', rfl⟩ := hp'
      rw [hhead] at he'
      rw [htail _ _ _ fun p he => hp ⟨p, he⟩] at he
      exact absurd (hfresh' he) (heq ▸ hdisj _ (hfresh he'))
    · rw [htail _ _ _ fun p he => hp ⟨p, he⟩] at he
      rw [htail _ _ _ fun p he => hp' ⟨p, he⟩] at he'
      exact h'.apart path path' e e' he he' heq

theorem visits_table (h : present e) (hh : ¬ huge e) :
    visits m (level + 2) e = false ::
      (List.finRange 512).flatMap fun i => visits m (level + 1) (m (address e) i) := by
  rw [visits, if_neg (not_or.mpr ⟨not_not_intro h, hh⟩)]

theorem mapping_absent (h : ¬ present e) (path : List (Fin 512)) :
    mapping m level e path = none := by
  rcases level with _ | _ | level
  · rfl
  · simp [mapping, h]
  · cases path <;> simp [mapping, h]

theorem mapping_huge (h : present e) (hh : huge e) (path : List (Fin 512)) :
    mapping m (level + 2) e path = some (.huge e) := by
  cases path <;> simp [mapping, h, hh]

theorem mapping_table (h : present e) (hh : ¬ huge e) :
    mapping m (level + 2) e = walk m (level + 1) (m (address e)) (List.finRange 512) := by
  funext path
  cases path <;> simp [mapping, walk, h, hh]

/-- Frames are taken for pages where the walk has pages. -/
theorem true_mem_visits (m : ℕ → Table) (level : ℕ) (e : BitVec 64) :
    true ∈ visits m level e ↔ ∃ path e', mapping m level e path = some (.page e') := by
  induction level, e using visits.induct m with
  | case1 e => simp [visits, mapping]
  | case2 e h =>
    rw [visits, if_pos h]
    exact iff_of_true (by simp) ⟨[], e, by simp [mapping, h]⟩
  | case3 e h => simp [visits, mapping, h]
  | case4 level e h =>
    rw [visits, if_pos h]
    refine iff_of_false (by simp) ?_
    rintro ⟨path, e', he⟩
    by_cases hp : present e
    · rw [mapping_huge hp (h.resolve_left (not_not_intro hp))] at he
      exact absurd he (by simp)
    · rw [mapping_absent hp] at he
      exact absurd he (by simp)
  | case5 level e h ih =>
    obtain ⟨h₁, h₂⟩ := not_or.mp h
    rw [visits, if_neg h, mapping_table (not_not.mp h₁) h₂]
    simp only [mem_cons, Bool.true_eq_false, false_or, mem_flatMap, mem_finRange, true_and]
    constructor
    · rintro ⟨i, hi⟩
      obtain ⟨path, e', he⟩ := (ih i).mp hi
      exact ⟨i :: path, e', by rw [walk_cons_of_mem (mem_finRange i), he]⟩
    · rintro ⟨path, e', he⟩
      cases path with
      | nil => exact absurd he (by simp [walk])
      | cons i path =>
        rw [walk_cons_of_mem (mem_finRange i)] at he
        exact ⟨i, (ih i).mpr ⟨path, e', he⟩⟩

end Pages

/-! ### What copying does to a machine -/

/-- Copying may go on: the source, which the allocator `a₀` does not hand out, is as it was, and the
table at `d` is new. -/
structure Ready (m₀ : ℕ → Table) (a₀ : FrameAllocator) (d : ℕ) (s : Machine) : Prop where
  usable : s.allocator.Usable
  hhdmOffset : s.allocator.hhdmOffset = a₀.hhdmOffset
  available : ∀ p, s.allocator.Available p → a₀.Available p
  source : ∀ p, ¬ a₀.Available p → s.memory p = m₀ p
  table : a₀.Available d ∧ ¬ s.allocator.Available d

/-- The frames that were handed out from `s` to `s'`. -/
def Taken (s s' : Machine) (p : ℕ) : Prop := s.allocator.Available p ∧ ¬ s'.allocator.Available p

/-- Copying the entries `indices` into the table at `d` copied `n` pages. It takes the frames that
`frames` lists, as far as they last. The outcome is the same in every later memory that keeps the
frames it took, and its entries. -/
structure Copied (m₀ : ℕ → Table) (f : List (Fin 512) → Option Mapping)
    (g : (ℕ → Table) → List (Fin 512) → Option Mapping) (frames : List Bool) (d : ℕ)
    (indices : List (Fin 512)) (s s' : Machine) (n : ℕ) : Prop where
  usable : s'.allocator.Usable
  hhdmOffset : s'.allocator.hhdmOffset = s.allocator.hhdmOffset
  available : ∀ p, s'.allocator.Available p → s.allocator.Available p
  remaining : s'.allocator.remaining = s.allocator.remaining - frames.length
  count : n = (frames.take s.allocator.remaining).count true
  others : ∀ p, ¬ s.allocator.Available p → p ≠ d → s'.memory p = s.memory p
  entries : ∀ i, i ∉ indices → s'.memory d i = s.memory d i
  pages : ∀ m : ℕ → Table, (∀ p, Taken s s' p → m p = s'.memory p) →
    (∀ i ∈ indices, m d i = s'.memory d i) →
      Pages m₀ m (Taken s s') (true ∈ frames.drop s.allocator.remaining) f (g m)

section Copied

variable {m₀ : ℕ → Table} {a₀ : FrameAllocator} {f : List (Fin 512) → Option Mapping}
  {g : (ℕ → Table) → List (Fin 512) → Option Mapping} {frames : List Bool} {d : ℕ}
  {indices : List (Fin 512)} {s s' : Machine} {n level : ℕ}

theorem Ready.copied (h : Ready m₀ a₀ d s) (hc : Copied m₀ f g frames d indices s s' n) :
    Ready m₀ a₀ d s' where
  usable := hc.usable
  hhdmOffset := hc.hhdmOffset.trans h.hhdmOffset
  available p hp := h.available p (hc.available p hp)
  source p hp := by
    have hne : p ≠ d := fun he => hp (he ▸ h.table.1)
    rw [hc.others p (fun hs => hp (h.available p hs)) hne, h.source p hp]
  table := ⟨h.table.1, fun hd => h.table.2 (hc.available d hd)⟩

/-- The table at `d` can be written. -/
theorem Ready.tablePointer (h : Ready m₀ a₀ d s) (h₀ : a₀.Usable) : tablePointer s d = some d := by
  rw [Memory.tablePointer, h.hhdmOffset, if_pos (h₀.mapped d h.table.1)]

variable {a : FrameAllocator}

theorem Copied.nothing (hs : a.Usable) (hhhdm : a.hhdmOffset = s.allocator.hhdmOffset)
    (havail : ∀ p, a.Available p → s.allocator.Available p)
    (hrem : a.remaining = s.allocator.remaining - frames.length)
    (hcount : (frames.take s.allocator.remaining).count true = 0)
    (hleft : true ∈ frames.drop s.allocator.remaining ↔ ∃ path e, f path = some (.page e))
    (hg : ∀ m : ℕ → Table, (∀ i ∈ indices, m d i = s.memory d i) → ∀ path, g m path = none) :
    Copied m₀ f g frames d indices s { s with allocator := a } 0 where
  usable := hs
  hhdmOffset := hhhdm
  available := havail
  remaining := hrem
  count := hcount.symm
  others _ _ _ := rfl
  entries _ _ := rfl
  pages m _ hm := .nothing (hg m hm) hleft

theorem Copied.idle (hs : s.allocator.Usable) (hf : ∀ path e, f path ≠ some (.page e))
    (hg : ∀ m : ℕ → Table, (∀ i ∈ indices, m d i = s.memory d i) → ∀ path, g m path = none) :
    Copied m₀ f g [] d indices s s 0 :=
  .nothing hs rfl (fun _ h => h) rfl (by simp) (by simp [hf]) hg

/-- One entry after the other. -/
theorem Copied.cons {index : Fin 512} {rest : List (Fin 512)} {table₀ : Table}
    {frames' : List Bool} {s₁ : Machine} {k : ℕ} (hnot : index ∉ rest)
    (hd : ¬ s.allocator.Available d)
    (h : Copied m₀ (mapping m₀ level (table₀ index)) (fun m => mapping m level (m d index)) frames d
      [index] s s₁ n)
    (h' : Copied m₀ (walk m₀ level table₀ rest) (fun m => walk m level (m d) rest) frames' d rest s₁
      s' k) :
    Copied m₀ (walk m₀ level table₀ (index :: rest)) (fun m => walk m level (m d) (index :: rest))
      (frames ++ frames') d (index :: rest) s s' (n + k) where
  usable := h'.usable
  hhdmOffset := h'.hhdmOffset.trans h.hhdmOffset
  available p hp := h.available p (h'.available p hp)
  remaining := by rw [h'.remaining, h.remaining, length_append, Nat.sub_sub]
  count := by
    rw [h.count, h'.count, h.remaining, take_append, count_append]
  others p hp hne := by
    rw [h'.others p (fun hp' => hp (h.available p hp')) hne, h.others p hp hne]
  entries i hi := by
    obtain ⟨h₁, h₂⟩ := not_or.mp fun h => hi (mem_cons.mpr h)
    rw [h'.entries i h₂, h.entries i (by simpa using h₁)]
  pages m hm hentries := by
    have hfirst := h.pages m (fun p hp => ?_) (fun i hi => ?_)
    · have hrest := h'.pages m (fun p hp => hm p ⟨h.available p hp.1, hp.2⟩)
        (fun i hi => hentries i (mem_cons_of_mem _ hi))
      have hpages := Pages.cons hnot hfirst hrest fun p hp hp' => hp.2 hp'.1
      rw [drop_append, mem_append, ← h.remaining]
      refine hpages.mono fun p hp => ?_
      rcases hp with hp | hp
      · exact ⟨hp.1, fun hp' => hp.2 (h'.available p hp')⟩
      · exact ⟨h.available p hp.1, hp.2⟩
    · -- What the first entry took is not touched by the others.
      rw [hm p ⟨hp.1, fun hp' => hp.2 (h'.available p hp')⟩]
      exact h'.others p hp.2 fun he => hd (he ▸ hp.1)
    · obtain rfl := mem_singleton.mp hi
      rw [hentries i mem_cons_self, h'.entries i hnot]

/-- **Copying entries**, when copying one of them is known. -/
theorem copyEntries_spec {copy : Fin 512 → Machine → ℕ × Machine} {table₀ : Table}
    {frames : Fin 512 → List Bool}
    (hcopy : ∀ i ∈ indices, ∀ s : Machine, Ready m₀ a₀ d s → ¬ present (s.memory d i) →
      Copied m₀ (mapping m₀ level (table₀ i)) (fun m => mapping m level (m d i)) (frames i) d [i] s
        (copy i s).2 (copy i s).1)
    (hnodup : indices.Nodup) (h : Ready m₀ a₀ d s)
    (hempty : ∀ i ∈ indices, ¬ present (s.memory d i)) :
    Copied m₀ (walk m₀ level table₀ indices) (fun m => walk m level (m d) indices)
      (indices.flatMap frames) d indices s (copyEntries copy indices s).2
      (copyEntries copy indices s).1 := by
  induction indices generalizing s with
  | nil =>
    refine .idle h.usable (fun path e => ?_) fun m _ path => ?_
    · cases path <;> simp [walk]
    · cases path <;> simp [walk]
  | cons index rest ih =>
    obtain ⟨hnot, hrest⟩ := nodup_cons.mp hnodup
    have hfirst := hcopy index mem_cons_self s h (hempty index mem_cons_self)
    have hlater := fun i hi => hcopy i (mem_cons_of_mem index hi)
    have hothers := ih hlater hrest (h.copied hfirst) fun i hi => by
      rw [hfirst.entries i (by rintro hmem; exact hnot (mem_singleton.mp hmem ▸ hi))]
      exact hempty i (mem_cons_of_mem _ hi)
    exact .cons hnot h.table.2 hfirst hothers

/-- A frame is filled, and an entry is made for it. -/
def Machine.install (s : Machine) (a : FrameAllocator) (p : ℕ) (t : Table) (d : ℕ) (i : Fin 512)
    (e : BitVec 64) : Machine :=
  let s := Machine.write { s with allocator := a } p t
  s.write d (Function.update (s.memory d) i e)

section Install

variable {a : FrameAllocator} {p : ℕ} {t : Table} {i : Fin 512} {e : BitVec 64}

theorem install_frame (hne : p ≠ d) : (s.install a p t d i e).memory p = t := by
  simp [Machine.install, Machine.write, hne]

theorem install_entry (hne : p ≠ d) (j : Fin 512) :
    (s.install a p t d i e).memory d j = if j = i then e else s.memory d j := by
  simp [Machine.install, Machine.write, Function.update_apply, hne.symm]

theorem install_others {q : ℕ} (hp : q ≠ p) (hd : q ≠ d) :
    (s.install a p t d i e).memory q = s.memory q := by
  simp [Machine.install, Machine.write, hp, hd]

end Install

variable {i : Fin 512}

/-- The entry of a page. -/
theorem copyTable_page (h₀ : a₀.Usable) {source : ℕ}
    (hsource : source + a₀.hhdmOffset < 2 ^ 64 ∧ ¬ a₀.Available source) (h : Ready m₀ a₀ d s)
    (hempty : ¬ present (s.memory d i)) (howned : Owned m₀ a₀ 1 (m₀ source i)) :
    Copied m₀ (mapping m₀ 1 (m₀ source i)) (fun m => mapping m 1 (m d i))
      (visits m₀ 1 (m₀ source i)) d [i] s (copyTable 1 source d i s).2
      (copyTable 1 source d i s).1 := by
  have hpointer : tablePointer s source = some source := by
    rw [tablePointer, h.hhdmOffset, if_pos hsource.1]
  have hnone : ∀ m : ℕ → Table, (∀ j ∈ [i], m d j = s.memory d j) →
      ∀ path, mapping m 1 (m d i) path = none := fun m hm path => by
    rw [hm i (mem_singleton.mpr rfl), mapping_absent hempty]
  rw [copyTable, hpointer]
  simp only [h.source source hsource.2, ↓reduceIte]
  by_cases hp : present (m₀ source i)
  · rw [if_neg (not_not_intro hp), h.tablePointer h₀]
    simp only [visits, if_pos hp]
    have hspec := allocateFrame_spec h.usable.sound
    have husable := h.usable.allocate
    have hrem := remaining_allocateFrame h.usable
    rcases hall : allocateFrame s.allocator with ⟨_ | frame, a⟩ <;> rw [hall] at hspec husable hrem
    · -- No frame is left, and the page is left out.
      obtain ⟨-, hzero, hzero'⟩ := hrem.resolve_left (by simp)
      simp only at hspec husable hzero'
      refine .nothing husable hspec.hhdmOffset hspec.available ?_ ?_ ?_ hnone
      · rw [hzero, hzero', Nat.zero_sub]
      · rw [hzero]
        rfl
      · rw [hzero]
        exact iff_of_true (by simp) ⟨[], m₀ source i, by simp [mapping, hp]⟩
    · obtain ⟨_, ⟨⟩, hsucc⟩ := hrem.resolve_right (by simp)
      simp only at hspec husable hsucc
      obtain ⟨hfree, hgone, -⟩ := hspec.taken frame rfl
      have hne : frame.physicalAddress ≠ d := fun he => h.table.2 (he ▸ hfree)
      obtain ⟨hmapped, howner⟩ := howned hp
      have hpage : tablePointer { s with allocator := a } (address (m₀ source i)) =
          some (address (m₀ source i)) := by
        rw [tablePointer, hspec.hhdmOffset, h.hhdmOffset, if_pos hmapped]
      dsimp only
      rw [hpage]
      dsimp only
      rw [h.source _ howner]
      have hdvd := hfree.1
      have hwidth := h.usable.width _ hfree
      let s' := s.install a frame.physicalAddress (m₀ (address (m₀ source i))) d i
        (pageEntry (m₀ source i) frame.physicalAddress)
      show Copied _ _ _ _ _ _ s s' 1
      exact {
        usable := husable
        hhdmOffset := hspec.hhdmOffset
        available := hspec.available
        remaining := by
          rw [hsucc]
          rfl
        count := by
          rw [hsucc, take_succ_cons]
          simp
        others := fun p hp hpd => install_others (fun he => hp (he ▸ hfree)) hpd
        entries := fun j hj => by
          rw [install_entry hne, if_neg (by simpa using hj)]
        pages := fun m hm hentries => by
          have hentry : m d i = pageEntry (m₀ source i) frame.physicalAddress := by
            rw [hentries i (mem_singleton.mpr rfl), install_entry hne, if_pos rfl]
          have haddress := address_pageEntry (m₀ source i) hdvd hwidth
          have hpresent := present_pageEntry hp hdvd hwidth
          have hleft : (true ∈ [true].drop s.allocator.remaining) = False := by
            rw [hsucc]
            simp
          rw [hleft, hentry]
          refine .page hp hpresent (flags_pageEntry _ hdvd hwidth) ?_ ?_
          · rw [haddress, hm _ ⟨hfree, hgone⟩]
            exact install_frame hne
          · rw [haddress]
            exact ⟨hfree, hgone⟩ }
  · rw [if_pos hp]
    simp only [visits, if_neg hp]
    exact .idle h.usable (fun path e he => by simp [mapping_absent hp] at he) hnone

variable {frame : Frame}

theorem Ready.install {t : Table} {e : BitVec 64}
    (h : Ready m₀ a₀ d s) (husable : a.Usable) (hspec : Allocated s.allocator a (some frame)) :
    Ready m₀ a₀ frame.physicalAddress (s.install a frame.physicalAddress t d i e) where
  usable := husable
  hhdmOffset := hspec.hhdmOffset.trans h.hhdmOffset
  available p hp := h.available p (hspec.available p hp)
  source p hp := by
    have hframe := h.available _ (hspec.taken frame rfl).1
    have hpf : p ≠ frame.physicalAddress := fun he => hp (he ▸ hframe)
    have hpd : p ≠ d := fun he => hp (he ▸ h.table.1)
    rw [install_others hpf hpd]
    exact h.source p hp
  table := ⟨h.available _ (hspec.taken frame rfl).1, (hspec.taken frame rfl).2.1⟩

theorem ensureTable_new
    (hempty : ¬ present (s.memory d i)) (hall : allocateFrame s.allocator = (some frame, a))
    (hne : frame.physicalAddress ≠ d) (hdvd : pageSize ∣ frame.physicalAddress)
    (hwidth : frame.physicalAddress < 2 ^ 52) :
    ensureTable d i s = (some frame.physicalAddress,
      s.install a frame.physicalAddress (fun _ => 0) d i (tableEntry frame.physicalAddress)) := by
  rw [ensureTable, if_neg hempty, hall]
  refine Prod.ext (congrArg some ?_) rfl
  show address ((s.install a frame.physicalAddress (fun _ => 0) d i
    (tableEntry frame.physicalAddress)).memory d i) = _
  rw [install_entry hne, if_pos rfl, address_tableEntry hdvd hwidth]

/-- A new table, whose entries were copied afterwards. -/
theorem Copied.table {e : BitVec 64} {p k : ℕ}
    (h : Ready m₀ a₀ d s) (hp : present e) (hh : ¬ huge e)
    (hspec : Allocated s.allocator a (some frame)) (hframe : frame.physicalAddress = p)
    (hrem : s.allocator.remaining = a.remaining + 1)
    (hc : Copied m₀ (walk m₀ (level + 1) (m₀ (address e)) (List.finRange 512))
      (fun m => walk m (level + 1) (m p) (List.finRange 512)) frames p (List.finRange 512)
      (s.install a p (fun _ => 0) d i (tableEntry p)) s' k) :
    Copied m₀ (mapping m₀ (level + 2) e) (fun m => mapping m (level + 2) (m d i))
      (false :: frames) d
      [i] s s' k := by
  obtain ⟨hfree, hgone, -⟩ := hspec.taken _ rfl
  rw [hframe] at hfree hgone
  have hne : p ≠ d := fun he => h.table.2 (he ▸ hfree)
  have hkept : ¬ a.Available d := fun hd => h.table.2 (hspec.available d hd)
  have hgone' : ¬ s'.allocator.Available p := fun hp' => hgone (hc.available p hp')
  exact {
    usable := hc.usable
    hhdmOffset := hc.hhdmOffset.trans hspec.hhdmOffset
    available := fun q hq => hspec.available q (hc.available q hq)
    remaining := by
      rw [hc.remaining, hrem, length_cons, Nat.add_sub_add_right]
      rfl
    count := by
      rw [hc.count, hrem, take_succ_cons, count_cons_of_ne (by simp)]
      rfl
    others := fun q hq hqd => by
      have hqp : q ≠ p := fun he => hq (he ▸ hfree)
      rw [hc.others q (fun hq' => hq (hspec.available q hq')) hqp, install_others hqp hqd]
    entries := fun j hj => by
      rw [hc.others d hkept hne.symm, install_entry hne, if_neg (by simpa using hj)]
    pages := fun m hm hentries => by
      have hentry : m d i = tableEntry p := by
        rw [hentries i (mem_singleton.mpr rfl), hc.others d hkept hne.symm, install_entry hne,
          if_pos rfl]
      have hdvd := hfree.1
      have hwidth := h.usable.width p hfree
      rw [mapping_table hp hh, hentry,
        mapping_table (present_tableEntry p) (not_huge_tableEntry hdvd hwidth),
        address_tableEntry hdvd hwidth, hrem, drop_succ_cons]
      have hpages := hc.pages m (fun q hq => hm q ⟨hspec.available q hq.1, hq.2⟩) fun j _ => by
        rw [hm p ⟨hfree, hgone'⟩]
      exact hpages.mono fun q hq => ⟨hspec.available q hq.1, hq.2⟩ }

/-- **Copying an entry** of a table: the frames it takes are those that the source lists, as far as
they last, and every page that got a frame is copied. -/
theorem copyTable_spec (h₀ : a₀.Usable) {source : ℕ}
    (hsource : source + a₀.hhdmOffset < 2 ^ 64 ∧ ¬ a₀.Available source) (h : Ready m₀ a₀ d s)
    (hempty : ¬ present (s.memory d i)) (howned : Owned m₀ a₀ level (m₀ source i)) :
    Copied m₀ (mapping m₀ level (m₀ source i)) (fun m => mapping m level (m d i))
      (visits m₀ level (m₀ source i)) d [i] s (copyTable level source d i s).2
      (copyTable level source d i s).1 := by
  induction level generalizing source d i s with
  | zero => exact .idle h.usable (fun path e => by simp [mapping]) fun m _ path => rfl
  | succ level ih =>
    rcases level with _ | level
    · exact copyTable_page h₀ hsource h hempty howned
    have hpointer : tablePointer s source = some source := by
      rw [tablePointer, h.hhdmOffset, if_pos hsource.1]
    have hnone : ∀ m : ℕ → Table, (∀ j ∈ [i], m d j = s.memory d j) →
        ∀ path, mapping m (level + 2) (m d i) path = none := fun m hm path => by
      rw [hm i (mem_singleton.mpr rfl), mapping_absent hempty]
    rw [copyTable, hpointer]
    simp only [h.source source hsource.2]
    by_cases hp : present (m₀ source i)
    swap
    · rw [if_pos hp]
      simp only [visits, hp, not_false_iff, true_or, ↓reduceIte]
      exact .idle h.usable (fun path e he => by simp [mapping_absent hp] at he) hnone
    rw [if_neg (not_not_intro hp), h.tablePointer h₀]
    simp only [Nat.succ_ne_zero, ↓reduceIte]
    by_cases hh : huge (m₀ source i)
    · rw [if_pos hh]
      simp only [visits, hh, or_true, ↓reduceIte]
      exact .idle h.usable (fun path e he => by simp [mapping_huge hp hh] at he) hnone
    rw [if_neg hh]
    obtain ⟨hnext, hentries⟩ := howned hp hh
    have hvisits := @visits_table m₀ level _ hp hh
    have hspec := allocateFrame_spec h.usable.sound
    have husable := h.usable.allocate
    have hrem := remaining_allocateFrame h.usable
    rcases hall : allocateFrame s.allocator with ⟨_ | frame, a⟩ <;> rw [hall] at hspec husable hrem
    · -- No frame is left, and what is below the entry is left out.
      obtain ⟨-, hzero, hzero'⟩ := hrem.resolve_left (by simp)
      simp only at hspec husable hzero'
      rw [ensureTable, if_neg hempty, hall]
      refine .nothing husable hspec.hhdmOffset hspec.available ?_ ?_ ?_ hnone
      · rw [hzero, hzero', hvisits, length_cons, Nat.zero_sub]
      · rw [hzero]
        rfl
      · rw [hzero]
        exact true_mem_visits m₀ _ _
    · obtain ⟨_, ⟨⟩, hsucc⟩ := hrem.resolve_right (by simp)
      simp only at hspec husable hsucc
      have hfree := (hspec.taken frame rfl).1
      have hne : frame.physicalAddress ≠ d := fun he => h.table.2 (he ▸ hfree)
      rw [ensureTable_new hempty hall hne hfree.1 (h.usable.width _ hfree), hvisits]
      refine .table h hp hh hspec rfl hsucc ?_
      refine copyEntries_spec (fun j _ s hs hj => ih hnext hs hj (hentries j))
        (nodup_finRange 512) (h.install husable hspec) fun j _ => ?_
      rw [install_frame hne]
      exact not_present_zero

end Copied

/-! ### Clones -/

/-- A page of the clone is a copy of the source's. -/
def CopyOf (fresh : ℕ → Prop) (m₀ m : ℕ → Table) : Mapping → Mapping → Prop
  | .page e, .page e' | .huge e, .huge e' =>
    flags e' = flags e ∧ fresh (address e') ∧ m (address e') = m₀ (address e)
  | _, _ => False

/-- The clone has what the source has, in frames that were just handed out, one for each page, and
nothing else. -/
structure CompleteCopy (root clone : ℕ) (s s' : Machine) : Prop where
  copies : ∀ path, Option.Rel (CopyOf (Taken s s') s.memory s'.memory) (lookup s.memory root path)
    (lookup s'.memory clone path)
  apart : ∀ path path' e e', lookup s'.memory clone path = some (.page e) →
    lookup s'.memory clone path' = some (.page e') → address e = address e' → path = path'

/-- Memory that is not handed out is as it was, the source among it. -/
structure Untouched (root : ℕ) (s s' : Machine) : Prop where
  memory : ∀ p, ¬ s.allocator.Available p → s'.memory p = s.memory p
  lookup : ∀ path, lookup s'.memory root path = lookup s.memory root path

/-- An address space whose tables and pages are its own, on a machine with usable frames. -/
structure AddressSpace (root : ℕ) (s : Machine) : Prop where
  usable : s.allocator.Usable
  current : address s.cr3 + s.allocator.hhdmOffset < 2 ^ 64
  reached : root + s.allocator.hhdmOffset < 2 ^ 64 ∧ ¬ s.allocator.Available root
  owned : ∀ i : Fin 512, i.val < 256 → Owned s.memory s.allocator 4 (s.memory root i)

/-- The frames that a clone takes after its root. -/
def cloneFrames (memory : ℕ → Table) (root : ℕ) : List Bool :=
  userEntries.flatMap fun i => visits memory 4 (memory root i)

section Clone

variable {root : ℕ} {s : Machine} {m m₀ : ℕ → Table} {a : FrameAllocator} {level : ℕ}

theorem lookup_eq_walk (m : ℕ → Table) (root : ℕ) :
    lookup m root = walk m 4 (m root) userEntries := by
  funext path
  cases path <;> simp [lookup, walk, userEntries]

theorem mapping_congr {e : BitVec 64} (h : Owned m₀ a level e)
    (hm : ∀ p, ¬ a.Available p → m p = m₀ p) : mapping m level e = mapping m₀ level e := by
  induction level generalizing e with
  | zero => rfl
  | succ level ih =>
    rcases level with _ | level
    · rfl
    by_cases hp : present e
    · by_cases hh : huge e
      · funext path
        rw [mapping_huge hp hh, mapping_huge hp hh]
      · obtain ⟨⟨-, howner⟩, hentries⟩ := h hp hh
        rw [mapping_table hp hh, mapping_table hp hh, hm _ howner]
        funext path
        cases path with
        | nil => rfl
        | cons i path => simp only [walk, ih (hentries i)]
    · funext path
      rw [mapping_absent hp, mapping_absent hp]

theorem AddressSpace.untouched (h : AddressSpace root s) {s' : Machine}
    (hm : ∀ p, ¬ s.allocator.Available p → s'.memory p = s.memory p) : Untouched root s s' where
  memory := hm
  lookup path := by
    cases path with
    | nil => rfl
    | cons i path =>
      rw [Memory.lookup, Memory.lookup, hm root h.reached.2]
      split
      · rename_i hi
        rw [mapping_congr (h.owned i hi) hm]
      · rfl

/-- A clone without entries in its user half, or no frame was left. -/
theorem newUser_spec (husable : s.allocator.Usable)
    (hcurrent : address s.cr3 + s.allocator.hhdmOffset < 2 ^ 64) :
    ((newUser s).1 = none ∧ s.allocator.remaining = 0 ∧ (newUser s).2.memory = s.memory) ∨
    ∃ clone, (newUser s).1 = some clone ∧
      s.allocator.remaining = (newUser s).2.allocator.remaining + 1 ∧
      Ready s.memory s.allocator clone (newUser s).2 ∧
      ∀ i : Fin 512, i.val < 256 → ¬ present ((newUser s).2.memory clone i) := by
  have hspec := allocateFrame_spec husable.sound
  have hrem := remaining_allocateFrame husable
  replace husable := husable.allocate
  rw [newUser]
  rcases hall : allocateFrame s.allocator with ⟨_ | frame, a⟩ <;> rw [hall] at hspec husable hrem
  · exact Or.inl ⟨rfl, (hrem.resolve_left (by simp)).2.1, rfl⟩
  · obtain ⟨_, ⟨⟩, hsucc⟩ := hrem.resolve_right (by simp)
    obtain ⟨hfree, hgone, -⟩ := hspec.taken frame rfl
    have hsource : ∀ t, tablePointer (Machine.write { s with allocator := a }
        frame.physicalAddress t) (address s.cr3) = some (address s.cr3) := fun t => by
      rw [tablePointer, Machine.write, hspec.hhdmOffset, if_pos hcurrent]
    right
    dsimp only
    rw [show (Machine.write { s with allocator := a } frame.physicalAddress fun _ => 0).cr3 =
      s.cr3 from rfl, hsource]
    refine ⟨frame.physicalAddress, rfl, hsucc, ⟨husable, hspec.hhdmOffset, hspec.available,
      fun p hp => ?_, hfree, hgone⟩, fun i hi => ?_⟩
    · have hne : p ≠ frame.physicalAddress := fun he => hp (he ▸ hfree)
      simp [Machine.write, hne]
    · have hlow : ¬ 256 ≤ i.val := by omega
      simp only [Machine.write, Function.update_self, if_neg hlow]
      exact not_present_zero

/-- **What `clone_user` does**: it fails when no page of the source gets a frame, and else the clone
has those pages of the source that got one. -/
theorem cloneUser_spec (h : AddressSpace root s) :
    Untouched root s (cloneUser root s).2 ∧
      (((cloneUser root s).1 = none ∧
          true ∉ (cloneFrames s.memory root).take (s.allocator.remaining - 1)) ∨
        ∃ clone, (cloneUser root s).1 = some clone ∧
          true ∈ (cloneFrames s.memory root).take (s.allocator.remaining - 1) ∧
          Pages s.memory (cloneUser root s).2.memory (Taken s (cloneUser root s).2)
            (true ∈ (cloneFrames s.memory root).drop (s.allocator.remaining - 1))
            (lookup s.memory root) (lookup (cloneUser root s).2.memory clone)) := by
  have hspec := newUser_spec h.usable h.current
  rw [cloneUser]
  rcases hnew : newUser s with ⟨_ | clone, s₁⟩ <;> rw [hnew] at hspec
  · rcases hspec with ⟨-, hzero, hmem⟩ | ⟨_, hsome, -⟩
    · refine ⟨h.untouched fun p _ => congrFun hmem p, Or.inl ⟨rfl, ?_⟩⟩
      rw [hzero]
      exact not_mem_nil
    · exact absurd hsome (by simp)
  · obtain ⟨_, ⟨⟩, hrem, hready, hempty⟩ := hspec.resolve_left (by simp)
    simp only at hrem hready hempty
    have huser : ∀ i ∈ userEntries, i.val < 256 := fun i hi => by
      simpa [userEntries] using hi
    have hentries : ∀ i ∈ userEntries, ∀ s' : Machine,
        Ready s.memory s.allocator clone s' → ¬ present (s'.memory clone i) →
        Copied s.memory (mapping s.memory 4 (s.memory root i)) (fun m => mapping m 4 (m clone i))
          (visits s.memory 4 (s.memory root i)) clone [i] s' (copyTable 4 root clone i s').2
          (copyTable 4 root clone i s').1 := fun i hi s' hs hi' =>
      copyTable_spec h.usable h.reached hs hi' (h.owned i (huser i hi))
    have hcopied := copyEntries_spec hentries ((nodup_finRange 512).filter _) hready
      fun i hi => hempty i (huser i hi)
    rcases hcopy : copyEntries (copyTable 4 root clone) userEntries s₁ with ⟨copied, s'⟩
    rw [hcopy, ← cloneFrames] at hcopied
    have hleft : s.allocator.remaining - 1 = s₁.allocator.remaining := by omega
    have huntouched : Untouched root s s' := h.untouched fun p hp => by
      have hne : p ≠ clone := fun he => hp (he ▸ hready.table.1)
      rw [hcopied.others p (fun hp' => hp (hready.available p hp')) hne, hready.source p hp]
    rw [hleft]
    simp only [hcopy]
    by_cases hzero : copied = 0
    · rw [if_pos hzero]
      refine ⟨huntouched, Or.inl ⟨rfl, ?_⟩⟩
      rw [← count_eq_zero, ← hcopied.count]
      exact hzero
    · rw [if_neg hzero]
      refine ⟨huntouched, Or.inr ⟨clone, rfl, ?_, ?_⟩⟩
      · rw [← count_pos_iff, ← hcopied.count]
        exact Nat.pos_of_ne_zero hzero
      · rw [lookup_eq_walk, lookup_eq_walk]
        have hpages := hcopied.pages s'.memory (fun _ _ => rfl) fun _ _ => rfl
        exact hpages.mono fun p hp => ⟨hready.available p hp.1, hp.2⟩

/-- The pages of a clone that has all of them. -/
theorem completeCopy_iff {clone : ℕ} {s' : Machine} {left : Prop}
    (h : Pages s.memory s'.memory (Taken s s') left (lookup s.memory root)
      (lookup s'.memory clone)) :
    CompleteCopy root clone s s' ↔
      ¬ left ∧ ∀ path e, lookup s.memory root path ≠ some (.huge e) := by
  constructor
  · intro hcopy
    refine ⟨fun hleft => ?_, fun path e he => ?_⟩
    · obtain ⟨path, e, h₁, h₂⟩ := h.left_iff.mp hleft
      have hrel := hcopy.copies path
      rw [h₁, h₂] at hrel
      nomatch hrel
    · have hrel := hcopy.copies path
      rw [he] at hrel
      rcases hc : lookup s'.memory clone path with _ | x
      · rw [hc] at hrel
        nomatch hrel
      · obtain ⟨d, d', -, hd, -⟩ := h.sound path x hc
        rw [he] at hd
        exact absurd hd (by simp)
  · rintro ⟨hleft, hhuge⟩
    refine ⟨fun path => ?_, h.apart⟩
    rcases hs : lookup s.memory root path with _ | x
    · rcases hc : lookup s'.memory clone path with _ | x
      · exact .none
      · obtain ⟨_, _, -, hd, -⟩ := h.sound path x hc
        rw [hs] at hd
        exact absurd hd (by simp)
    · rcases x with e | e
      · rcases hc : lookup s'.memory clone path with _ | x
        · exact absurd (h.left_iff.mpr ⟨path, e, hs, hc⟩) hleft
        · obtain ⟨d, d', rfl, hd, hflags, hbytes, hfresh⟩ := h.sound path x hc
          obtain rfl : e = d := Mapping.page.inj (Option.some.inj (hs.symm.trans hd))
          exact .some ⟨hflags, hfresh, hbytes⟩
      · exact absurd hs (hhuge path e)

/-- **A clone is complete, or there is none, exactly** if the frames that are left are too few for
any page, or last up to the last page of a source without huge pages. -/
theorem cloneUser_complete_iff (h : AddressSpace root s) :
    (Untouched root s (cloneUser root s).2 ∧ ∀ clone, (cloneUser root s).1 = some clone →
        CompleteCopy root clone s (cloneUser root s).2) ↔
      true ∉ (cloneFrames s.memory root).take (s.allocator.remaining - 1) ∨
        (true ∉ (cloneFrames s.memory root).drop (s.allocator.remaining - 1) ∧
          ∀ path e, lookup s.memory root path ≠ some (.huge e)) := by
  obtain ⟨huntouched, ⟨hnone, htake⟩ | ⟨clone, hsome, htake, hpages⟩⟩ := cloneUser_spec h
  · refine iff_of_true ⟨huntouched, fun clone hc => ?_⟩ (Or.inl htake)
    rw [hnone] at hc
    exact absurd hc (by simp)
  · rw [← completeCopy_iff hpages]
    constructor
    · exact fun hall => Or.inr (hall.2 clone hsome)
    · rintro (hno | hcopy)
      · exact absurd htake hno
      · refine ⟨huntouched, fun clone' hc => ?_⟩
        rw [hsome] at hc
        exact Option.some.inj hc ▸ hcopy

end Clone

/-- An address space with two pages, under the first entry of its root. -/
def twoPages (p : ℕ) (i : Fin 512) : BitVec 64 :=
  if p = 4096 ∧ i = 0 then tableEntry (2 * 4096)
  else if p = 2 * 4096 ∧ i = 0 then tableEntry (3 * 4096)
  else if p = 3 * 4096 ∧ i = 0 then tableEntry (4 * 4096)
  else if p = 4 * 4096 ∧ i = 0 then tableEntry (5 * 4096)
  else if p = 4 * 4096 ∧ i = 1 then tableEntry (6 * 4096)
  else 0

/-- A machine with few frames left. -/
def fewFrames (frames : ℕ) : Machine where
  memory := twoPages
  allocator := ⟨[⟨16 * pageSize, 16 * pageSize + frames * pageSize⟩], 0, 0⟩
  cr3 := tableEntry 4096

section Few

variable {a : FrameAllocator} {m : ℕ → Table} {level : ℕ}

theorem owned_absent {e : BitVec 64} (h : ¬ present e) : Owned m a level e := by
  rcases level with _ | _ | level
  · trivial
  · exact fun hp => absurd hp h
  · exact fun hp => absurd hp h

theorem mapping_ne_huge (h : ∀ p i, ¬ huge (m p i)) {e : BitVec 64} (he : ¬ huge e)
    (path : List (Fin 512)) (d : BitVec 64) : mapping m level e path ≠ some (.huge d) := by
  induction level generalizing e path with
  | zero => simp [mapping]
  | succ level ih =>
    by_cases hp : present e
    · rcases level with _ | level
      · intro hd
        exact absurd ((mapping_page hp).mp hd).2 (by simp)
      · rw [mapping_table hp he]
        cases path with
        | nil => simp [walk]
        | cons i path =>
          rw [walk_cons_of_mem (mem_finRange i)]
          exact ih (h _ i) path
    · rw [mapping_absent hp]
      simp

theorem not_huge_twoPages (p : ℕ) (i : Fin 512) : ¬ huge (twoPages p i) := by
  unfold twoPages
  split_ifs <;> decide

theorem remaining_region (x n o : ℕ) :
    FrameAllocator.remaining ⟨[⟨x, x + n * pageSize⟩], 0, o⟩ = n := by
  simp only [FrameAllocator.remaining, drop_zero, map_cons, map_nil, sum_cons,
    sum_nil, Nat.add_sub_cancel_left, Nat.add_zero]
  exact Nat.mul_div_cancel n (Nat.succ_pos _)

theorem remaining_fewFrames (n : ℕ) : (fewFrames n).allocator.remaining = n :=
  remaining_region _ _ _

theorem flatMap_single {l : List (Fin 512)} {f : Fin 512 → List Bool} {i : Fin 512} (hl : l.Nodup)
    (hi : i ∈ l) (h : ∀ j ∈ l, j ≠ i → f j = []) : l.flatMap f = f i := by
  induction l with
  | nil => exact absurd hi not_mem_nil
  | cons j l ih =>
    obtain ⟨hj, hl⟩ := nodup_cons.mp hl
    have hrest : ∀ k ∈ l, k ≠ i → f k = [] := fun k hk => h k (mem_cons_of_mem j hk)
    rw [flatMap_cons]
    rcases mem_cons.mp hi with rfl | hi
    · have hempty := flatMap_eq_nil_iff.mpr fun k hk => hrest k hk fun he => hj (he ▸ hk)
      rw [hempty, append_nil]
    · rw [h j mem_cons_self fun he => hj (he ▸ hi), ih hl hi hrest, nil_append]

theorem address_twoPages : address (twoPages 4096 0) = 2 * 4096 ∧
    address (twoPages (2 * 4096) 0) = 3 * 4096 ∧ address (twoPages (3 * 4096) 0) = 4 * 4096 :=
  ⟨address_tableEntry (p := 2 * 4096) ⟨2, rfl⟩ (by decide),
    address_tableEntry (p := 3 * 4096) ⟨3, rfl⟩ (by decide),
    address_tableEntry (p := 4 * 4096) ⟨4, rfl⟩ (by decide)⟩

theorem present_twoPages : present (twoPages 4096 0) ∧ present (twoPages (2 * 4096) 0) ∧
    present (twoPages (3 * 4096) 0) :=
  ⟨present_tableEntry (2 * 4096), present_tableEntry (3 * 4096), present_tableEntry (4 * 4096)⟩

variable {n : ℕ}

theorem available_fewFrames {p : ℕ} (h : (fewFrames n).allocator.Available p) :
    16 * pageSize ≤ p ∧ p < 16 * pageSize + n * pageSize := by
  obtain ⟨-, g, hg, h₁, h₂⟩ := h
  obtain rfl := mem_singleton.mp hg
  exact ⟨h₁, h₂⟩

theorem usable_fewFrames (hn : n ≤ 1024) : (fewFrames n).allocator.Usable := by
  have hstop : 16 * pageSize + n * pageSize < 2 ^ 52 := by
    simp only [pageSize]
    omega
  refine ⟨⟨fun g hg => ?_, fun g hg => ?_, pairwise_singleton _ _⟩, fun p hp => ?_, fun p hp => ?_⟩
  · obtain rfl := mem_singleton.mp hg
    exact ⟨Nat.dvd_mul_left _ _, Nat.dvd_add (Nat.dvd_mul_left _ _) (Nat.dvd_mul_left _ _)⟩
  · obtain rfl := mem_singleton.mp hg
    exact hstop.trans (by decide)
  · exact (available_fewFrames hp).2.trans hstop
  · show p + 0 < 2 ^ 64
    exact ((available_fewFrames hp).2.trans hstop).trans (by decide)

theorem addressSpace_fewFrames (hn : n ≤ 1024) : AddressSpace 4096 (fewFrames n) := by
  have hkept : ∀ k, k < 16 → k * 4096 + 0 < 2 ^ 64 ∧
      ¬ (fewFrames n).allocator.Available (k * 4096) := fun k hk => by
    refine ⟨by omega, fun h => ?_⟩
    have hle := (available_fewFrames h).1
    simp only [pageSize] at hle
    omega
  have haddress : ∀ k, k < 16 → address (tableEntry (k * 4096)) = k * 4096 := fun k hk =>
    address_tableEntry ⟨k, Nat.mul_comm _ _⟩ (by omega)
  obtain ⟨htwo, hthree, hfour⟩ := address_twoPages
  have htable : ∀ k, k < 16 → address (tableEntry (k * 4096)) + 0 < 2 ^ 64 ∧
      ¬ (fewFrames n).allocator.Available (address (tableEntry (k * 4096))) := fun k hk => by
    rw [haddress k hk]
    exact hkept k hk
  refine ⟨usable_fewFrames hn, (htable 1 (by decide)).1, hkept 1 (by decide), fun i _ => ?_⟩
  show Owned twoPages _ 4 (twoPages 4096 i)
  by_cases hi : i = 0
  · subst hi
    refine fun _ _ => ⟨htable 2 (by decide), fun j => ?_⟩
    rw [htwo]
    by_cases hj : j = 0
    · subst hj
      refine fun _ _ => ⟨htable 3 (by decide), fun k => ?_⟩
      rw [hthree]
      by_cases hk : k = 0
      · subst hk
        refine fun _ _ => ⟨htable 4 (by decide), fun l => ?_⟩
        rw [hfour]
        by_cases hl : l = 0
        · subst hl
          exact fun _ => htable 5 (by decide)
        · by_cases hl' : l = 1
          · subst hl'
            exact fun _ => htable 6 (by decide)
          · refine owned_absent ?_
            simp [twoPages, hl, hl', not_present_zero]
      · refine owned_absent ?_
        simp [twoPages, hk, not_present_zero]
    · refine owned_absent ?_
      simp [twoPages, hj, not_present_zero]
  · refine owned_absent ?_
    simp [twoPages, hi, not_present_zero]

theorem visits_absent {e : BitVec 64} (h : ¬ present e) : visits m level e = [] := by
  rcases level with _ | _ | level
  · rfl
  · rw [visits, if_neg h]
  · rw [visits, if_pos (Or.inl h)]

theorem visits_twoPages {p q : ℕ} (hp : present (twoPages p 0)) (hq : address (twoPages p 0) = q)
    (h : ∀ i, i ≠ 0 → twoPages q i = 0#64) :
    visits twoPages (level + 2) (twoPages p 0) =
      false :: visits twoPages (level + 1) (twoPages q 0) := by
  have hempty : ∀ i ∈ List.finRange 512, i ≠ 0 → visits twoPages (level + 1) (twoPages q i) = [] :=
    fun i _ hi => by
      rw [h i hi]
      exact visits_absent not_present_zero
  rw [visits_table hp (not_huge_twoPages p 0), hq,
    flatMap_single (nodup_finRange 512) (mem_finRange 0) hempty]

theorem cloneFrames_twoPages : cloneFrames twoPages 4096 = [false, false, false, true, true] := by
  obtain ⟨htwo, hthree, hfour⟩ := address_twoPages
  obtain ⟨hone, hp₂, hp₃⟩ := present_twoPages
  have hroot : cloneFrames twoPages 4096 = visits twoPages 4 (twoPages 4096 0) :=
    flatMap_single ((nodup_finRange 512).filter _) (by simp [userEntries]) fun i _ hi =>
      visits_absent <| by simp [twoPages, hi, not_present_zero]
  have hfirst : visits twoPages 1 (twoPages (4 * 4096) 0) = [true] :=
    if_pos (present_tableEntry (5 * 4096))
  have hsecond : visits twoPages 1 (twoPages (4 * 4096) 1) = [true] :=
    if_pos (present_tableEntry (6 * 4096))
  -- The last table has two entries.
  have hlast : (List.finRange 512).flatMap (fun i => visits twoPages 1 (twoPages (4 * 4096) i)) =
      [true, true] := by
    have hrest : ∀ i ∈ (List.finRange 511).map Fin.succ, i ≠ 1 →
        visits twoPages 1 (twoPages (4 * 4096) i) = [] := fun i hi hne => by
      obtain ⟨j, -, rfl⟩ := mem_map.mp hi
      refine visits_absent ?_
      simp [twoPages, hne, Fin.succ_ne_zero, not_present_zero]
    rw [finRange_succ, flatMap_cons, hfirst,
      flatMap_single ((nodup_finRange 511).map (Fin.succ_injective 511))
        (mem_map.mpr ⟨0, mem_finRange 0, rfl⟩) hrest]
    exact congrArg ([true] ++ ·) hsecond
  rw [hroot, visits_twoPages hone htwo fun i hi => by simp [twoPages, hi],
    visits_twoPages hp₂ hthree fun i hi => by simp [twoPages, hi],
    visits_table hp₃ (not_huge_twoPages (3 * 4096) 0), hfour, hlast]

/-- Five frames are left: the last of two pages is missing in the clone. -/
theorem page_lost : ∃ clone, (cloneUser 4096 (fewFrames 5)).1 = some clone ∧
    ¬ CompleteCopy 4096 clone (fewFrames 5) (cloneUser 4096 (fewFrames 5)).2 := by
  have hframes : cloneFrames (fewFrames 5).memory 4096 = [false, false, false, true, true] :=
    cloneFrames_twoPages
  obtain ⟨-, ⟨-, htake⟩ | ⟨clone, hsome, -, hpages⟩⟩ :=
    cloneUser_spec (addressSpace_fewFrames (n := 5) (by decide))
  · rw [hframes, remaining_fewFrames] at htake
    exact absurd htake (by decide)
  · refine ⟨clone, hsome, fun hcopy => ((completeCopy_iff hpages).mp hcopy).1 ?_⟩
    rw [hframes, remaining_fewFrames]
    decide

/-- Six frames are left. -/
theorem cloneUser_complete_iff_sample :
    Untouched 4096 (fewFrames 6) (cloneUser 4096 (fewFrames 6)).2 ∧
      ∀ clone, (cloneUser 4096 (fewFrames 6)).1 = some clone →
        CompleteCopy 4096 clone (fewFrames 6) (cloneUser 4096 (fewFrames 6)).2 := by
  refine (cloneUser_complete_iff (addressSpace_fewFrames (n := 6) (by decide))).mpr
    (Or.inr ⟨?_, fun path e => ?_⟩)
  · rw [show cloneFrames (fewFrames 6).memory 4096 = _ from cloneFrames_twoPages,
      remaining_fewFrames]
    decide
  · cases path with
    | nil => simp [lookup]
    | cons i path =>
      rw [lookup]
      split
      · exact mapping_ne_huge not_huge_twoPages (not_huge_twoPages _ _) path e
      · simp

end Few

end ImagineOS.Memory
