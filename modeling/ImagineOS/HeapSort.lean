import Mathlib.Algebra.Group.End
import Mathlib.Data.List.Perm.Basic
import Mathlib.Data.List.Nodup

/-!
# Heapsort

An array gives an element for each index. Heapsort makes a heap of the first elements of an array,
and then takes the largest element out of the heap again and again. It is proved to sort for every
strict weak order: that two elements are not ordered is an equivalence.
-/

namespace ImagineOS.HeapSort

variable {α : Type*}

/-- A strict weak order. -/
structure StrictWeak (lt : α → α → Prop) : Prop where
  asymm : ∀ {a b}, lt a b → ¬ lt b a
  trans : ∀ {a b c}, ¬ lt b a → ¬ lt c b → ¬ lt c a

/-- The larger child of an element that has one. -/
def largerChild (lt : α → α → Prop) [DecidableRel lt] (root stop : ℕ) (f : ℕ → α) : ℕ :=
  if root * 2 + 1 + 1 < stop ∧ lt (f (root * 2 + 1)) (f (root * 2 + 1 + 1)) then root * 2 + 1 + 1
  else root * 2 + 1

theorem largerChild_cases (lt : α → α → Prop) [DecidableRel lt] (root stop : ℕ) (f : ℕ → α) :
    largerChild lt root stop f = root * 2 + 1 ∨
      largerChild lt root stop f = root * 2 + 1 + 1 ∧ root * 2 + 1 + 1 < stop := by
  rw [largerChild]
  split
  · rename_i h
    exact Or.inr ⟨rfl, h.1⟩
  · exact Or.inl rfl

/-- An element sinks as long as one of its children is larger. -/
def siftDown (lt : α → α → Prop) [DecidableRel lt] (root stop : ℕ) (f : ℕ → α) : ℕ → α :=
  if root < stop / 2 then
    if lt (f root) (f (largerChild lt root stop f)) then
      siftDown lt (largerChild lt root stop f) stop
        (f ∘ Equiv.swap root (largerChild lt root stop f))
    else f
  else f
  termination_by stop - root
  decreasing_by
    rcases largerChild_cases lt root stop f with h | ⟨h, -⟩ <;> omega

/-- The elements before `start` sink, the last one first. -/
def build (lt : α → α → Prop) [DecidableRel lt] (stop : ℕ) : ℕ → (ℕ → α) → ℕ → α
  | 0, f => f
  | start + 1, f => build lt stop start (siftDown lt start stop f)

/-- The largest element goes behind the heap, until there is one left. -/
def extract (lt : α → α → Prop) [DecidableRel lt] : ℕ → (ℕ → α) → ℕ → α
  | 0, f => f
  | 1, f => f
  | stop + 2, f =>
    extract lt (stop + 1) (siftDown lt 0 (stop + 1) (f ∘ Equiv.swap 0 (stop + 1)))

/-- Heapsort of the first `n` elements. -/
def sort (lt : α → α → Prop) [DecidableRel lt] (n : ℕ) (f : ℕ → α) : ℕ → α :=
  extract lt n (build lt n (n / 2) f)

/-! ### The same elements -/

/-- `g` has the first `n` elements of `f` at other indices, and the other elements where they
were. -/
def Rearranges (n : ℕ) (f g : ℕ → α) : Prop :=
  ∃ σ : Equiv.Perm ℕ, (∀ i, n ≤ i → σ i = i) ∧ g = f ∘ σ

section Rearranges

variable {n m i j : ℕ} {f g h : ℕ → α}

theorem Rearranges.refl (n : ℕ) (f : ℕ → α) : Rearranges n f f := ⟨1, fun _ _ => rfl, rfl⟩

theorem Rearranges.trans (hfg : Rearranges n f g) (hgh : Rearranges n g h) : Rearranges n f h := by
  obtain ⟨σ, hσ, rfl⟩ := hfg
  obtain ⟨τ, hτ, rfl⟩ := hgh
  exact ⟨σ * τ, fun i hi => by rw [Equiv.Perm.mul_apply, hτ i hi, hσ i hi], rfl⟩

theorem Rearranges.mono (hfg : Rearranges n f g) (hnm : n ≤ m) : Rearranges m f g := by
  obtain ⟨σ, hσ, rfl⟩ := hfg
  exact ⟨σ, fun i hi => hσ i (hnm.trans hi), rfl⟩

theorem rearranges_swap (f : ℕ → α) (hi : i < n) (hj : j < n) :
    Rearranges n f (f ∘ Equiv.swap i j) :=
  ⟨Equiv.swap i j, fun k hk => Equiv.swap_apply_of_ne_of_ne (by omega) (by omega), rfl⟩

theorem Rearranges.behind (hfg : Rearranges n f g) (hi : n ≤ i) : g i = f i := by
  obtain ⟨σ, hσ, rfl⟩ := hfg
  rw [Function.comp_apply, hσ i hi]

theorem Rearranges.origin (hfg : Rearranges n f g) (hi : i < n) : ∃ j < n, g i = f j := by
  obtain ⟨σ, hσ, rfl⟩ := hfg
  refine ⟨σ i, ?_, rfl⟩
  by_contra hge
  have hfix := σ.injective (hσ (σ i) (not_lt.mp hge))
  omega

theorem Rearranges.perm (hfg : Rearranges n f g) :
    ((List.range n).map g).Perm ((List.range n).map f) := by
  obtain ⟨σ, hσ, rfl⟩ := hfg
  rw [← List.map_map]
  refine List.Perm.map f ?_
  refine (List.perm_ext_iff_of_nodup (List.nodup_range.map σ.injective) List.nodup_range).mpr
    fun k => ?_
  rw [List.mem_map, List.mem_range]
  constructor
  · rintro ⟨i, hi, rfl⟩
    by_contra hge
    have hfix := σ.injective (hσ (σ i) (not_lt.mp hge))
    rw [List.mem_range] at hi
    omega
  · intro hk
    refine ⟨σ.symm k, List.mem_range.mpr ?_, σ.apply_symm_apply k⟩
    by_contra hge
    have hfix := hσ (σ.symm k) (not_lt.mp hge)
    rw [σ.apply_symm_apply] at hfix
    omega

end Rearranges

section Programs

variable (lt : α → α → Prop) [DecidableRel lt]

theorem rearranges_siftDown (root stop : ℕ) (f : ℕ → α) :
    Rearranges stop f (siftDown lt root stop f) := by
  induction root, f using siftDown.induct lt stop with
  | case1 root f hroot hlt ih =>
    rw [siftDown, if_pos hroot, if_pos hlt]
    refine (rearranges_swap f (by omega) ?_).trans ih
    rcases largerChild_cases lt root stop f with h | ⟨h, hstop⟩ <;> omega
  | case2 root f hroot hlt =>
    rw [siftDown, if_pos hroot, if_neg hlt]
    exact .refl stop f
  | case3 root f hroot =>
    rw [siftDown, if_neg hroot]
    exact .refl stop f

theorem rearranges_build (start stop : ℕ) (f : ℕ → α) :
    Rearranges stop f (build lt stop start f) := by
  induction start generalizing f with
  | zero => exact .refl stop f
  | succ start ih => exact (rearranges_siftDown lt start stop f).trans (ih _)

theorem rearranges_extract (stop : ℕ) (f : ℕ → α) : Rearranges stop f (extract lt stop f) := by
  induction stop, f using extract.induct lt with
  | case1 f => exact .refl 0 f
  | case2 f => exact .refl 1 f
  | case3 stop f ih =>
    have hswap : Rearranges (stop + 2) f (f ∘ Equiv.swap 0 (stop + 1)) :=
      rearranges_swap f (by omega) (by omega)
    have hsift := rearranges_siftDown lt 0 (stop + 1) (f ∘ Equiv.swap 0 (stop + 1))
    exact hswap.trans ((hsift.trans ih).mono (Nat.le_succ _))

/-- **The elements stay**, at other indices. -/
theorem rearranges_sort (n : ℕ) (f : ℕ → α) : Rearranges n f (sort lt n f) :=
  (rearranges_build lt (n / 2) n f).trans (rearranges_extract lt n _)

end Programs

/-! ### Heaps -/

/-- The children of an index. -/
def IsChild (c i : ℕ) : Prop := c = i * 2 + 1 ∨ c = i * 2 + 1 + 1

/-- From `lo` on no element is smaller than its children. -/
def HeapFrom (lt : α → α → Prop) (f : ℕ → α) (lo stop : ℕ) : Prop :=
  ∀ i c, lo ≤ i → IsChild c i → c < stop → ¬ lt (f i) (f c)

/-- The same, apart from the element at `root`, whose parent is not smaller than its children. -/
structure HoleHeap (lt : α → α → Prop) (f : ℕ → α) (lo stop root : ℕ) : Prop where
  others : ∀ i c, lo ≤ i → i ≠ root → IsChild c i → c < stop → ¬ lt (f i) (f c)
  grand : ∀ p c, lo ≤ p → IsChild root p → IsChild c root → c < stop → ¬ lt (f p) (f c)

section Heaps

variable {lt : α → α → Prop} {f : ℕ → α} {lo stop root c i : ℕ}

theorem IsChild.parent_lt (h : IsChild c i) : i < c := by
  rcases h with rfl | rfl <;> omega

theorem IsChild.parent_eq {j : ℕ} (h : IsChild c i) (h' : IsChild c j) : i = j := by
  rcases h with rfl | rfl <;> rcases h' with h' | h' <;> omega

theorem HoleHeap.heapFrom (h : HoleHeap lt f lo stop root)
    (hroot : ∀ c, IsChild c root → c < stop → ¬ lt (f root) (f c)) : HeapFrom lt f lo stop := by
  intro i c hi hc hstop
  by_cases hir : i = root
  · subst hir
    exact hroot c hc hstop
  · exact h.others i c hi hir hc hstop

theorem HeapFrom.not_lt (h : HeapFrom lt f 0 stop) (hw : StrictWeak lt) (hi : i < stop) :
    ¬ lt (f 0) (f i) := by
  induction i using Nat.strong_induction_on with
  | _ i ih =>
    rcases Nat.eq_zero_or_pos i with rfl | hpos
    · exact fun hlt => hw.asymm hlt hlt
    · have hchild : IsChild i ((i - 1) / 2) := by
        rw [IsChild]
        omega
      exact hw.trans (h _ i (Nat.zero_le _) hchild hi) (ih _ hchild.parent_lt (by omega))

variable [DecidableRel lt]

theorem isChild_largerChild (lt : α → α → Prop) [DecidableRel lt] (root stop : ℕ) (f : ℕ → α) :
    IsChild (largerChild lt root stop f) root :=
  (largerChild_cases lt root stop f).imp id And.left

theorem not_lt_largerChild (hw : StrictWeak lt) (hc : IsChild c root) (hstop : c < stop) :
    ¬ lt (f (largerChild lt root stop f)) (f c) := by
  have hirrefl : ∀ a, ¬ lt a a := fun a h => hw.asymm h h
  rw [largerChild]
  split
  · rename_i h
    rcases hc with rfl | rfl
    · exact hw.asymm h.2
    · exact hirrefl _
  · rename_i h
    rcases hc with rfl | rfl
    · exact hirrefl _
    · exact fun hlt => h ⟨hstop, hlt⟩

/-- **One step**: the hole sinks to the larger child. -/
theorem HoleHeap.swap (h : HoleHeap lt f lo stop root) (hw : StrictWeak lt) (hlo : lo ≤ root)
    (hlt : lt (f root) (f (largerChild lt root stop f)))
    (hchild : largerChild lt root stop f < stop) :
    HoleHeap lt (f ∘ Equiv.swap root (largerChild lt root stop f)) lo stop
      (largerChild lt root stop f) := by
  have hlargest : ∀ c, IsChild c root → c < stop → ¬ lt (f (largerChild lt root stop f)) (f c) :=
    fun c hc hstop => not_lt_largerChild hw hc hstop
  have hisChild : IsChild (largerChild lt root stop f) root := isChild_largerChild lt root stop f
  generalize largerChild lt root stop f = child at hlt hchild hlargest hisChild
  have hgt := hisChild.parent_lt
  have hkept : ∀ k, k ≠ root → k ≠ child → (f ∘ Equiv.swap root child) k = f k := fun k hr hc =>
    congrArg f (Equiv.swap_apply_of_ne_of_ne hr hc)
  have hroot : (f ∘ Equiv.swap root child) root = f child := congrArg f (Equiv.swap_apply_left ..)
  have hhole : (f ∘ Equiv.swap root child) child = f root := congrArg f (Equiv.swap_apply_right ..)
  constructor
  · intro i c hi hne hc hstop
    have hic := hc.parent_lt
    by_cases hir : i = root
    · subst hir
      rw [hroot]
      by_cases hcc : c = child
      · rw [hcc, hhole]
        exact hw.asymm hlt
      · rw [hkept c (by omega) hcc]
        exact hlargest c hc hstop
    · rw [hkept i hir hne]
      by_cases hcr : c = root
      · subst hcr
        rw [hroot]
        exact h.grand i child hi hc hisChild hchild
      · have hcc : c ≠ child := fun he => hir ((he ▸ hc).parent_eq hisChild)
        rw [hkept c hcr hcc]
        exact h.others i c hi hir hc hstop
  · intro p c hp hpc hc hstop
    obtain rfl := hpc.parent_eq hisChild
    have hlt' := hc.parent_lt
    rw [hroot, hkept c (by omega) (by omega)]
    exact h.others child c (by omega) (by omega) hc hstop

/-- **Sifting down** fills the hole. -/
theorem heapFrom_siftDown (hw : StrictWeak lt) (hlo : lo ≤ root)
    (h : HoleHeap lt f lo stop root) : HeapFrom lt (siftDown lt root stop f) lo stop := by
  induction root, f using siftDown.induct lt stop with
  | case1 root f hroot hlt ih =>
    rw [siftDown, if_pos hroot, if_pos hlt]
    have hgt := (isChild_largerChild lt root stop f).parent_lt
    refine ih (by omega) (h.swap hw hlo hlt ?_)
    rcases largerChild_cases lt root stop f with hc | ⟨hc, hstop⟩ <;> omega
  | case2 root f hroot hlt =>
    rw [siftDown, if_pos hroot, if_neg hlt]
    exact h.heapFrom fun c hc hstop => hw.trans (not_lt_largerChild hw hc hstop) hlt
  | case3 root f hroot =>
    rw [siftDown, if_neg hroot]
    refine h.heapFrom fun c hc hstop => ?_
    rcases hc with rfl | rfl <;> omega

/-- **The build phase** makes a heap. -/
theorem heapFrom_build (hw : StrictWeak lt) (start : ℕ) {f : ℕ → α}
    (h : HeapFrom lt f start stop) : HeapFrom lt (build lt stop start f) 0 stop := by
  induction start generalizing f with
  | zero => exact h
  | succ start ih =>
    refine ih (heapFrom_siftDown hw le_rfl ⟨fun i c hi hne => h i c (by omega),
      fun p c hp hpc => ?_⟩)
    have hgt := hpc.parent_lt
    omega

/-! ### Sorting -/

/-- The elements are in order. -/
def Sorted (lt : α → α → Prop) (n : ℕ) (f : ℕ → α) : Prop :=
  ∀ i j, i ≤ j → j < n → ¬ lt (f j) (f i)

/-- A heap, and the largest elements in order behind it. -/
structure Extracting (lt : α → α → Prop) (n stop : ℕ) (f : ℕ → α) : Prop where
  heap : HeapFrom lt f 0 stop
  behind : ∀ i j, stop ≤ i → i ≤ j → j < n → ¬ lt (f j) (f i)
  below : ∀ i j, i < stop → stop ≤ j → j < n → ¬ lt (f j) (f i)

/-- **One step**: the largest element of the heap goes behind it. -/
theorem Extracting.next {n : ℕ} (h : Extracting lt n (stop + 2) f) (hw : StrictWeak lt) :
    Extracting lt n (stop + 1) (siftDown lt 0 (stop + 1) (f ∘ Equiv.swap 0 (stop + 1))) := by
  have hsift := rearranges_siftDown lt 0 (stop + 1) (f ∘ Equiv.swap 0 (stop + 1))
  have hlast : siftDown lt 0 (stop + 1) (f ∘ Equiv.swap 0 (stop + 1)) (stop + 1) = f 0 := by
    rw [hsift.behind le_rfl, Function.comp_apply, Equiv.swap_apply_right]
  have hkept : ∀ j, stop + 1 < j →
      siftDown lt 0 (stop + 1) (f ∘ Equiv.swap 0 (stop + 1)) j = f j := fun j hj => by
    rw [hsift.behind hj.le, Function.comp_apply, Equiv.swap_apply_of_ne_of_ne (by omega) (by omega)]
  have horigin : ∀ i, i < stop + 1 → ∃ k < stop + 2,
      siftDown lt 0 (stop + 1) (f ∘ Equiv.swap 0 (stop + 1)) i = f k := fun i hi => by
    have hswap : Rearranges (stop + 2) f (f ∘ Equiv.swap 0 (stop + 1)) :=
      rearranges_swap f (by omega) (by omega)
    exact (hswap.trans (hsift.mono (Nat.le_succ _))).origin (by omega)
  refine ⟨?_, fun i j hi hij hj => ?_, fun i j hi hj hjn => ?_⟩
  · refine heapFrom_siftDown hw le_rfl ⟨fun i c hi hne hc hstop => ?_, fun p c hp hpc => ?_⟩
    · have hgt := hc.parent_lt
      rw [Function.comp_apply, Function.comp_apply, Equiv.swap_apply_of_ne_of_ne hne (by omega),
        Equiv.swap_apply_of_ne_of_ne (by omega) (by omega)]
      exact h.heap i c hi hc (by omega)
    · have hgt := hpc.parent_lt
      omega
  · rcases Nat.eq_or_lt_of_le hi with rfl | hi
    · rw [hlast]
      rcases Nat.eq_or_lt_of_le hij with rfl | hij
      · rw [hlast]
        exact fun hlt => hw.asymm hlt hlt
      · rw [hkept j hij]
        exact h.below 0 j (by omega) hij hj
    · rw [hkept i hi, hkept j (by omega)]
      exact h.behind i j hi hij hj
  · obtain ⟨k, hk, hik⟩ := horigin i hi
    rw [hik]
    rcases Nat.eq_or_lt_of_le hj with rfl | hj
    · rw [hlast]
      exact h.heap.not_lt hw hk
    · rw [hkept j hj]
      exact h.below k j hk hj hjn

theorem Extracting.sorted {n : ℕ} (h : Extracting lt n stop f) (hw : StrictWeak lt) :
    Sorted lt n (extract lt stop f) := by
  induction stop, f using extract.induct lt with
  | case1 f => exact fun i j hij hj => h.behind i j (Nat.zero_le _) hij hj
  | case2 f =>
    intro i j hij hj
    rcases Nat.eq_zero_or_pos i with rfl | hi
    · rcases Nat.eq_zero_or_pos j with rfl | hj'
      · exact fun hlt => hw.asymm hlt hlt
      · exact h.below 0 j Nat.one_pos hj' hj
    · exact h.behind i j hi hij hj
  | case3 stop f ih => exact ih (h.next hw)

/-- **Heapsort sorts.** -/
theorem sorted_sort (hw : StrictWeak lt) (n : ℕ) (f : ℕ → α) : Sorted lt n (sort lt n f) := by
  refine Extracting.sorted ⟨heapFrom_build hw (n / 2) fun i c hi hc hn => ?_,
    fun i j hi hij hj => ?_, fun i j hi hj hjn => ?_⟩ hw
  · rcases hc with rfl | rfl <;> omega
  · omega
  · omega

end Heaps

end ImagineOS.HeapSort
