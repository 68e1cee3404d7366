import ImagineOS.Checked
import ImagineOS.HeapSort
import Mathlib.Algebra.Order.Ring.Int
import Mathlib.Data.List.GetD

/-!
# Libc: sorting and searching arrays

`qsort` is a heapsort of elements of any size, which it moves byte by byte; `bsearch` halves a
sorted array. Pointers are offsets from the start of the array here. An access outside of the array
is a panic, and so is a call of the comparator with a pointer that is not one to an element.
-/

namespace ImagineOS.Libc

open Checked List Nat

/-- What a comparator is given: a pointer to an element. -/
def elementAt (size offset : ℕ) (bytes : List UInt8) : Checked Empty (List UInt8) :=
  if size ∣ offset then slice bytes offset (offset + size) else panic

/-- `bsearch`, from `low` to `high` -/
def bsearchFrom (compar : List UInt8 → List UInt8 → ℤ) (key : List UInt8) (size low high : ℕ)
    (bytes : List UInt8) : Checked Empty (Option ℕ) :=
  if low < high then do
    let middle := low + (high - low) / 2
    let item ← elementAt size (middle * size) bytes
    let order := compar key item
    if order = 0 then return some (middle * size)
    else if order < 0 then bsearchFrom compar key size low middle bytes
    else bsearchFrom compar key size (middle + 1) high bytes
  else return none
  termination_by high - low

def bsearch (compar : List UInt8 → List UInt8 → ℤ) (key : List UInt8) (nmemb size : ℕ)
    (bytes : List UInt8) : Checked Empty (Option ℕ) :=
  bsearchFrom compar key size 0 nmemb bytes

/-- `swap_elements`, at one index -/
def swapBytes (left right index : ℕ) (bytes : List UInt8) : Checked Empty (List UInt8) := do
  let temporary ← Checked.index bytes (left + index)
  let other ← Checked.index bytes (right + index)
  let bytes ← setAt bytes (left + index) other
  setAt bytes (right + index) temporary

def swapElements (left right size : ℕ) (bytes : List UInt8) : Checked Empty (List UInt8) :=
  each (swapBytes left right) (List.range' 0 size) bytes

/-- The condition of `sift_down` for `child++`. -/
def rightIsLarger (compar : List UInt8 → List UInt8 → ℤ) (child stop size : ℕ)
    (bytes : List UInt8) : Checked Empty Bool :=
  if child + 1 < stop then do
    let left ← elementAt size (child * size) bytes
    let right ← elementAt size ((child + 1) * size) bytes
    return decide (compar left right < 0)
  else return false

def siftDown (compar : List UInt8 → List UInt8 → ℤ) (root stop size : ℕ) (bytes : List UInt8) :
    Checked Empty (List UInt8) :=
  if root < stop / 2 then do
    let larger ← rightIsLarger compar (root * 2 + 1) stop size bytes
    let child := if larger then root * 2 + 1 + 1 else root * 2 + 1
    let parentItem ← elementAt size (root * size) bytes
    let childItem ← elementAt size (child * size) bytes
    if 0 ≤ compar parentItem childItem then return bytes
    else
      let bytes ← swapElements (root * size) (child * size) size bytes
      siftDown compar child stop size bytes
  else return bytes
  termination_by stop - root
  decreasing_by split <;> omega

/-- The first loop of `qsort`. -/
def buildHeap (compar : List UInt8 → List UInt8 → ℤ) (nmemb size : ℕ) :
    ℕ → List UInt8 → Checked Empty (List UInt8)
  | 0, bytes => return bytes
  | start + 1, bytes => do
    let bytes ← siftDown compar start nmemb size bytes
    buildHeap compar nmemb size start bytes

/-- The second loop of `qsort`. -/
def extractHeap (compar : List UInt8 → List UInt8 → ℤ) (size : ℕ) :
    ℕ → List UInt8 → Checked Empty (List UInt8)
  | 0, bytes => return bytes
  | 1, bytes => return bytes
  | stop + 2, bytes => do
    let bytes ← swapElements 0 ((stop + 1) * size) size bytes
    let bytes ← siftDown compar 0 (stop + 1) size bytes
    extractHeap compar size (stop + 1) bytes

/-- `qsort`, of an array and with a comparator that are not null -/
def qsort (compar : List UInt8 → List UInt8 → ℤ) (nmemb size : ℕ) (bytes : List UInt8) :
    Checked Empty (List UInt8) :=
  if size = 0 ∨ nmemb < 2 then return bytes
  else do
    let bytes ← buildHeap compar nmemb size (nmemb / 2) bytes
    extractHeap compar size nmemb bytes

/-- An array. -/
structure CArray where
  bytes : List UInt8
  nmemb : ℕ
  size : ℕ
  length_eq : bytes.length = nmemb * size

/-- The elements of an array. -/
def elements (bytes : List UInt8) (nmemb size : ℕ) : List (List UInt8) :=
  (List.range nmemb).map fun k => between bytes (k * size) (k * size + size)

/-- The comparator is a total preorder on some values. -/
structure Consistent (compar : List UInt8 → List UInt8 → ℤ) (values : List (List UInt8)) :
    Prop where
  sign : ∀ a ∈ values, ∀ b ∈ values, compar a b < 0 ↔ 0 < compar b a
  trans : ∀ a ∈ values, ∀ b ∈ values, ∀ c ∈ values, compar a b ≤ 0 → compar b c ≤ 0 →
    compar a c ≤ 0

/-! ### Heapsort -/

/-- The bytes are those of an array with these elements. -/
structure Holds {α : Type} (val : α → List UInt8) (n size : ℕ) (bytes : List UInt8)
    (f : ℕ → α) : Prop where
  length : bytes.length = n * size
  element : ∀ k < n, between bytes (k * size) (k * size + size) = val (f k)

/-- `compar` says that an element is less than another one. -/
def Before {α : Type} (compar : List UInt8 → List UInt8 → ℤ) (val : α → List UInt8) (a b : α) :
    Prop :=
  compar (val a) (val b) < 0

instance {α : Type} (compar : List UInt8 → List UInt8 → ℤ) (val : α → List UInt8) :
    DecidableRel (Before compar val) := fun _ _ => inferInstanceAs (Decidable (_ < _))

/-- Some of the bytes of two elements have been exchanged. -/
def exchanged (left right count : ℕ) (bytes : List UInt8) : List UInt8 :=
  (List.range bytes.length).map fun p =>
    if left ≤ p ∧ p < left + count then bytes.getD (right + (p - left)) 0
    else if right ≤ p ∧ p < right + count then bytes.getD (left + (p - right)) 0
    else bytes.getD p 0

section Elements

variable {left right size count n i j k : ℕ} {bytes : List UInt8}

@[simp] theorem length_exchanged :
    (exchanged left right count bytes).length = bytes.length := by
  simp [exchanged]

theorem getElem_exchanged {p : ℕ} {hp : p < (exchanged left right count bytes).length} :
    (exchanged left right count bytes)[p] =
      if left ≤ p ∧ p < left + count then bytes.getD (right + (p - left)) 0
      else if right ≤ p ∧ p < right + count then bytes.getD (left + (p - right)) 0
      else bytes.getD p 0 := by
  simp [exchanged]

/-- **One byte** of two elements that are apart is exchanged. -/
theorem swapBytes_exchanged (hapart : left + size ≤ right ∨ right + size ≤ left)
    (hleft : left + size ≤ bytes.length) (hright : right + size ≤ bytes.length)
    (hcount : count < size) :
    swapBytes left right count (exchanged left right count bytes) =
      .ok (exchanged left right (count + 1) bytes) := by
  have hlength : (exchanged left right count bytes).length = bytes.length := length_exchanged
  have hl : (exchanged left right count bytes)[left + count]? =
      some (bytes.getD (left + count) 0) := by
    rw [List.getElem?_eq_getElem (by omega), getElem_exchanged, if_neg (by omega),
      if_neg (by omega)]
  have hr : (exchanged left right count bytes)[right + count]? =
      some (bytes.getD (right + count) 0) := by
    rw [List.getElem?_eq_getElem (by omega), getElem_exchanged, if_neg (by omega),
      if_neg (by omega)]
  rw [swapBytes, index_eq hl, ok_bind, index_eq hr, ok_bind, setAt_eq (by omega), ok_bind,
    setAt_eq (by rw [length_set]; omega)]
  congr 1
  refine ext_getElem (by simp) fun p h₁ h₂ => ?_
  rw [length_exchanged] at h₂
  rw [getElem_exchanged, getElem_set, getElem_set, getElem_exchanged]
  by_cases hpr : right + count = p
  · subst hpr
    rw [if_pos rfl, if_neg (by omega), if_pos (by omega)]
    congr 1
    omega
  rw [if_neg hpr]
  by_cases hpl : left + count = p
  · subst hpl
    rw [if_pos rfl, if_pos (by omega)]
    congr 1
    omega
  rw [if_neg hpl]
  refine if_congr (by omega) rfl (if_congr (by omega) rfl rfl)

theorem swapElements_eq (hapart : left + size ≤ right ∨ right + size ≤ left)
    (hleft : left + size ≤ bytes.length) (hright : right + size ≤ bytes.length) :
    swapElements left right size bytes = .ok (exchanged left right size bytes) := by
  have hstart : exchanged left right 0 bytes = bytes := by
    refine ext_getElem length_exchanged fun p h₁ h₂ => ?_
    rw [getElem_exchanged, if_neg (by omega), if_neg (by omega), getD_eq_getElem _ _ h₂]
  have hloop : swapElements left right size (exchanged left right 0 bytes) =
      .ok (exchanged left right (0 + size) bytes) :=
    each_range' (f := fun count => exchanged left right count bytes) fun count _ hcount =>
      swapBytes_exchanged hapart hleft hright (by omega)
  rwa [hstart, zero_add] at hloop

theorem element_apart (size : ℕ) (h : i ≠ j) :
    i * size + size ≤ j * size ∨ j * size + size ≤ i * size := by
  rcases lt_or_gt_of_ne h with h | h
  · exact Or.inl (by rw [← succ_mul]; exact mul_le_mul_right size h)
  · exact Or.inr (by rw [← succ_mul]; exact mul_le_mul_right size h)

theorem element_le (h : k < n) : k * size + size ≤ n * size := by
  rw [← succ_mul]
  exact mul_le_mul_right size h

end Elements

section Refinement

variable {α : Type} {compar : List UInt8 → List UInt8 → ℤ} {val : α → List UInt8}
  {n size i j k root stop : ℕ} {bytes : List UInt8} {f : ℕ → α}

theorem Holds.le (h : Holds val n size bytes f) (hk : k < n) :
    k * size + size ≤ bytes.length := h.length ▸ element_le hk

theorem Holds.elementAt_eq (h : Holds val n size bytes f) (hk : k < n) :
    elementAt size (k * size) bytes = .ok (val (f k)) := by
  rw [elementAt, if_pos (dvd_mul_left size k), slice_eq (le_add_right _ _) (h.le hk),
    h.element k hk]

theorem getElem_between {start size t : ℕ} (ht : t < size) :
    (between bytes start (start + size))[t]? = bytes[start + t]? := by
  rw [between, List.getElem?_take_of_lt (by omega), List.getElem?_drop]

theorem length_between {start size : ℕ} (hle : start + size ≤ bytes.length) :
    (between bytes start (start + size)).length = size := by
  rw [between, length_take, length_drop]
  omega

/-- **Two elements are exchanged.** -/
theorem Holds.swapElements (h : Holds val n size bytes f) (hi : i < n) (hj : j < n)
    (hne : i ≠ j) : ∃ bytes', swapElements (i * size) (j * size) size bytes = .ok bytes' ∧
      Holds val n size bytes' (f ∘ Equiv.swap i j) := by
  have hli := h.le hi
  have hlj := h.le hj
  refine ⟨_, swapElements_eq (element_apart size hne) hli hlj,
    ⟨length_exchanged.trans h.length, fun k hk => ?_⟩⟩
  -- Where the bytes of the element were.
  have horigin : ∀ t < size, (exchanged (i * size) (j * size) size bytes)[k * size + t]? =
      bytes[Equiv.swap i j k * size + t]? := fun t ht => by
    have hlk := h.le hk
    rw [List.getElem?_eq_getElem (by rw [length_exchanged]; omega), getElem_exchanged]
    by_cases hki : k = i
    · subst hki
      rw [if_pos (by omega), Equiv.swap_apply_left, getD_eq_getElem _ _ (by omega),
        List.getElem?_eq_getElem (by omega)]
      congr 2
      omega
    have hapart := element_apart size hki
    rw [if_neg (by omega)]
    by_cases hkj : k = j
    · subst hkj
      rw [if_pos (by omega), Equiv.swap_apply_right, getD_eq_getElem _ _ (by omega),
        List.getElem?_eq_getElem (by omega)]
      congr 2
      omega
    have hapart' := element_apart size hkj
    rw [if_neg (by omega), Equiv.swap_apply_of_ne_of_ne hki hkj,
      getD_eq_getElem _ _ (by omega), List.getElem?_eq_getElem (by omega)]
  have hswap : Equiv.swap i j k < n := by
    rw [Equiv.swap_apply_def]
    split_ifs <;> assumption
  rw [Function.comp_apply, ← h.element _ hswap]
  have hlk : k * size + size ≤ (exchanged (i * size) (j * size) size bytes).length := by
    rw [length_exchanged]
    exact h.le hk
  refine ext_getElem? fun t => ?_
  rcases lt_or_ge t size with ht | ht
  · rw [getElem_between ht, getElem_between ht, horigin t ht]
  · rw [List.getElem?_eq_none (by rw [length_between hlk]; exact ht),
      List.getElem?_eq_none (by rw [length_between (h.le hswap)]; exact ht)]

theorem Holds.rightIsLarger (h : Holds val n size bytes f) (hstop : stop ≤ n) {child : ℕ} :
    rightIsLarger compar child stop size bytes =
      .ok (decide (child + 1 < stop ∧ Before compar val (f child) (f (child + 1)))) := by
  rw [Libc.rightIsLarger]
  split
  · rename_i hlt
    rw [h.elementAt_eq (by omega), ok_bind, h.elementAt_eq (by omega), ok_bind]
    simp [hlt, Before]
    rfl
  · rename_i hge
    simp [hge]
    rfl

/-- The first steps of `sift_down`, at an element that has a child. -/
theorem Holds.siftDown_step (h : Holds val n size bytes f) (hstop : stop ≤ n)
    (hroot : root < stop / 2) :
    siftDown compar root stop size bytes =
      if Before compar val (f root)
          (f (HeapSort.largerChild (Before compar val) root stop f)) then do
        let bytes ← Libc.swapElements (root * size)
          (HeapSort.largerChild (Before compar val) root stop f * size) size bytes
        siftDown compar (HeapSort.largerChild (Before compar val) root stop f) stop size bytes
      else return bytes := by
  have hchild : (if decide (root * 2 + 1 + 1 < stop ∧
      Before compar val (f (root * 2 + 1)) (f (root * 2 + 1 + 1))) = true then root * 2 + 1 + 1
      else root * 2 + 1) = HeapSort.largerChild (Before compar val) root stop f := by
    simp only [HeapSort.largerChild, decide_eq_true_eq]
  have hlt : HeapSort.largerChild (Before compar val) root stop f < n := by
    rcases HeapSort.largerChild_cases (Before compar val) root stop f with h | ⟨h, h'⟩ <;> omega
  rw [Libc.siftDown, if_pos hroot, h.rightIsLarger hstop, ok_bind]
  simp only [hchild]
  rw [h.elementAt_eq (by omega), ok_bind, h.elementAt_eq hlt, ok_bind]
  by_cases hbefore : Before compar val (f root)
      (f (HeapSort.largerChild (Before compar val) root stop f))
  · rw [if_pos hbefore, if_neg (not_le.mpr hbefore)]
  · rw [if_neg hbefore, if_pos (not_lt.mp hbefore)]

/-- **`sift_down`** is that of heapsort. -/
theorem Holds.siftDown (h : Holds val n size bytes f)
    (compar : List UInt8 → List UInt8 → ℤ) (root : ℕ) (hstop : stop ≤ n) :
    ∃ bytes', siftDown compar root stop size bytes = .ok bytes' ∧
      Holds val n size bytes' (HeapSort.siftDown (Before compar val) root stop f) := by
  induction root, f using HeapSort.siftDown.induct (Before compar val) stop
    generalizing bytes with
  | case1 root f hroot hlt ih =>
    have hgt := (HeapSort.isChild_largerChild (Before compar val) root stop f).parent_lt
    have hchild := HeapSort.largerChild_cases (Before compar val) root stop f
    obtain ⟨swapped, hswap, hswapped⟩ := h.swapElements (i := root)
      (j := HeapSort.largerChild (Before compar val) root stop f) (by omega) (by omega) hgt.ne
    rw [HeapSort.siftDown, if_pos hroot, if_pos hlt, h.siftDown_step hstop hroot, if_pos hlt, hswap,
      ok_bind]
    exact ih hswapped
  | case2 root f hroot hlt =>
    rw [HeapSort.siftDown, if_pos hroot, if_neg hlt, h.siftDown_step hstop hroot, if_neg hlt]
    exact ⟨bytes, rfl, h⟩
  | case3 root f hroot =>
    rw [HeapSort.siftDown, if_neg hroot, Libc.siftDown, if_neg hroot]
    exact ⟨bytes, rfl, h⟩

theorem Holds.buildHeap (h : Holds val n size bytes f)
    (compar : List UInt8 → List UInt8 → ℤ) (start : ℕ) :
    ∃ bytes', buildHeap compar n size start bytes = .ok bytes' ∧
      Holds val n size bytes' (HeapSort.build (Before compar val) n start f) := by
  induction start generalizing bytes f with
  | zero => exact ⟨bytes, rfl, h⟩
  | succ start ih =>
    obtain ⟨sifted, hsift, hsifted⟩ := h.siftDown compar start le_rfl
    rw [Libc.buildHeap, hsift, ok_bind]
    exact ih hsifted

theorem Holds.extractHeap (h : Holds val n size bytes f)
    (compar : List UInt8 → List UInt8 → ℤ) (hstop : stop ≤ n) :
    ∃ bytes', extractHeap compar size stop bytes = .ok bytes' ∧
      Holds val n size bytes' (HeapSort.extract (Before compar val) stop f) := by
  induction stop, f using HeapSort.extract.induct (Before compar val)
    generalizing bytes with
  | case1 f => exact ⟨bytes, rfl, h⟩
  | case2 f => exact ⟨bytes, rfl, h⟩
  | case3 stop f ih =>
    obtain ⟨swapped, hswap, hswapped⟩ := h.swapElements (i := 0) (j := stop + 1) (by omega)
      (by omega) (by omega)
    obtain ⟨sifted, hsift, hsifted⟩ := hswapped.siftDown compar 0 (le_of_succ_le hstop)
    rw [zero_mul] at hswap
    rw [Libc.extractHeap, hswap, ok_bind, hsift, ok_bind]
    exact ih hsifted (by omega)

/-- **`qsort` is heapsort.** -/
theorem Holds.qsort (h : Holds val n size bytes f) (compar : List UInt8 → List UInt8 → ℤ)
    (hsize : size ≠ 0) (hn : 2 ≤ n) :
    ∃ bytes', qsort compar n size bytes = .ok bytes' ∧
      Holds val n size bytes' (HeapSort.sort (Before compar val) n f) := by
  obtain ⟨built, hbuild, hbuilt⟩ := h.buildHeap compar (n / 2)
  rw [Libc.qsort, if_neg (by omega), hbuild, ok_bind]
  exact hbuilt.extractHeap compar le_rfl

end Refinement

/-! ### Comparators -/

section Comparators

variable {compar : List UInt8 → List UInt8 → ℤ} {values : List (List UInt8)}
  {a b c key : List UInt8} {bytes : List UInt8} {n size low high : ℕ}

theorem Consistent.self (h : Consistent compar values) (ha : a ∈ values) : compar a a = 0 := by
  have hsign := h.sign a ha a ha
  omega

theorem Consistent.lt_of_lt_of_le (h : Consistent compar values) (ha : a ∈ values)
    (hb : b ∈ values) (hc : c ∈ values) (hab : compar a b < 0) (hbc : compar b c ≤ 0) :
    compar a c < 0 := by
  have hac := h.trans a ha b hb c hc hab.le hbc
  have hsign := h.sign a ha b hb
  have hsign' := h.sign a ha c hc
  have hsign'' := h.sign c hc a ha
  have hback : compar c a ≤ 0 → compar b a ≤ 0 := h.trans b hb c hc a ha hbc
  omega

theorem Consistent.lt_of_le_of_lt (h : Consistent compar values) (ha : a ∈ values)
    (hb : b ∈ values) (hc : c ∈ values) (hab : compar a b ≤ 0) (hbc : compar b c < 0) :
    compar a c < 0 := by
  have hac := h.trans a ha b hb c hc hab hbc.le
  have hsign := h.sign b hb c hc
  have hsign' := h.sign a ha c hc
  have hsign'' := h.sign c hc a ha
  have hback : compar c a ≤ 0 → compar c b ≤ 0 := fun hca => h.trans c hc a ha b hb hca hab
  omega

theorem Consistent.strictWeak (h : Consistent compar values) :
    HeapSort.StrictWeak (Before compar (Subtype.val : {a // a ∈ values} → List UInt8)) := by
  constructor
  · rintro ⟨a, ha⟩ ⟨b, hb⟩ hab hba
    have hsign := h.sign a ha b hb
    simp only [Before] at hab hba
    omega
  · rintro ⟨a, ha⟩ ⟨b, hb⟩ ⟨c, hc⟩ hba hcb hca
    simp only [Before] at hba hcb hca
    have hab := h.sign b hb a ha
    have hbc := h.sign c hc b hb
    have hac := h.sign c hc a ha
    have htrans := h.trans a ha b hb c hc
    omega

theorem mem_elements {k : ℕ} (hk : k < n) :
    between bytes (k * size) (k * size + size) ∈ elements bytes n size :=
  mem_map.mpr ⟨k, mem_range.mpr hk, rfl⟩

/-- The elements of an array, as values of a type. -/
def elementOf (bytes : List UInt8) (n size : ℕ) (hn : 0 < n) (k : ℕ) :
    {a // a ∈ elements bytes n size} :=
  if hk : k < n then ⟨_, mem_elements hk⟩ else ⟨_, mem_elements hn⟩

theorem holds_elementOf (hlength : bytes.length = n * size) (hn : 0 < n) :
    Holds Subtype.val n size bytes (elementOf bytes n size hn) :=
  ⟨hlength, fun k hk => by rw [elementOf, dif_pos hk]⟩

theorem Holds.elements_eq {α : Type} {val : α → List UInt8} {f : ℕ → α}
    (h : Holds val n size bytes f) :
    elements bytes n size = (List.range n).map fun k => val (f k) :=
  map_congr_left fun k hk => h.element k (mem_range.mp hk)

/-- **`qsort` sorts** the elements of an array. -/
theorem sorted_qsort (hlength : bytes.length = n * size)
    (h : Consistent compar (elements bytes n size)) :
    ∃ bytes', qsort compar n size bytes = .ok bytes' ∧ bytes'.length = bytes.length ∧
      (elements bytes' n size).Pairwise (fun a b => compar a b ≤ 0) ∧
      (elements bytes' n size).Perm (elements bytes n size) := by
  by_cases hsmall : size = 0 ∨ n < 2
  · refine ⟨bytes, by rw [qsort, if_pos hsmall]; rfl, rfl, ?_, List.Perm.refl _⟩
    rcases hsmall with rfl | hn
    · -- Elements without bytes are all the same.
      have hnil : ∀ a ∈ elements bytes n 0, a = [] := fun a ha => by
        obtain ⟨k, -, rfl⟩ := mem_map.mp ha
        simp [between]
      refine pairwise_of_forall_mem_list fun a ha b hb => ?_
      rw [hnil b hb, ← hnil a ha]
      exact (h.self ha).le
    · have hone : (elements bytes n size).length ≤ 1 := by
        rw [elements, length_map, length_range]
        omega
      match elements bytes n size, hone with
      | [], _ => exact .nil
      | [a], _ => exact pairwise_singleton _ a
  · rw [not_or, not_lt] at hsmall
    have hn : 0 < n := by omega
    have hholds := holds_elementOf hlength hn
    obtain ⟨bytes', hsort, hsorted⟩ := hholds.qsort compar hsmall.1 hsmall.2
    refine ⟨bytes', hsort, hsorted.length.trans hlength.symm, ?_, ?_⟩
    · rw [hsorted.elements_eq, pairwise_map]
      refine (pairwise_lt_range (n := n)).imp_of_mem fun {i j} hi hj hij => ?_
      have hle := HeapSort.sorted_sort h.strictWeak n (elementOf bytes n size hn) i j hij.le
        (mem_range.mp hj)
      generalize HeapSort.sort (Before compar Subtype.val) n (elementOf bytes n size hn) = g at hle
      exact not_lt.mp fun hlt => hle ((h.sign _ (g j).2 _ (g i).2).mpr hlt)
    · rw [hsorted.elements_eq]
      refine List.Perm.trans ?_ (List.Perm.of_eq hholds.elements_eq.symm)
      have hperm := (HeapSort.rearranges_sort (Before compar Subtype.val) n
        (elementOf bytes n size hn)).perm.map Subtype.val
      rwa [map_map, map_map] at hperm

theorem le_of_sorted (h : (elements bytes n size).Pairwise fun a b => compar a b ≤ 0) {i j : ℕ}
    (hij : i < j) (hj : j < n) :
    compar (between bytes (i * size) (i * size + size))
      (between bytes (j * size) (j * size + size)) ≤ 0 := by
  have hlength : (elements bytes n size).length = n := by simp [elements]
  have hle := pairwise_iff_getElem.mp h i j (by omega) (by omega) hij
  simpa [elements] using hle

/-- **`bsearch`**, as long as the key is larger than what is before `low`, and less than what is
from `high` on. -/
theorem bsearchFrom_spec (hlength : bytes.length = n * size)
    (h : Consistent compar (key :: elements bytes n size))
    (hsorted : (elements bytes n size).Pairwise fun a b => compar a b ≤ 0) (hhigh : high ≤ n)
    (hbelow : ∀ k < low, k < n → 0 < compar key (between bytes (k * size) (k * size + size)))
    (habove : ∀ k, high ≤ k → k < n →
      compar key (between bytes (k * size) (k * size + size)) < 0) :
    ∃ found, bsearchFrom compar key size low high bytes = .ok found ∧
      (∀ p, found = some p → ∃ k < n, p = k * size ∧
        compar key (between bytes p (p + size)) = 0) ∧
      (found.isSome = true ↔ ∃ a ∈ elements bytes n size, compar key a = 0) := by
  have hkey : key ∈ key :: elements bytes n size := mem_cons_self
  have hmem : ∀ k < n, between bytes (k * size) (k * size + size) ∈ key :: elements bytes n size :=
    fun k hk => mem_cons_of_mem _ (mem_elements hk)
  induction hrange : high - low using Nat.strong_induction_on generalizing low high with
  | _ range ih =>
  subst hrange
  rw [bsearchFrom]
  split
  · rename_i hlt
    have hmiddle : low + (high - low) / 2 < n := by omega
    have hlow : low ≤ low + (high - low) / 2 := by omega
    have hmiddle' : low + (high - low) / 2 < high := by omega
    generalize low + (high - low) / 2 = middle at hmiddle hlow hmiddle'
    have hitem : elementAt size (middle * size) bytes =
        .ok (between bytes (middle * size) (middle * size + size)) := by
      rw [elementAt, if_pos (Nat.dvd_mul_left size middle),
        slice_eq (Nat.le_add_right _ _) (hlength ▸ element_le hmiddle)]
    simp only
    rw [hitem, ok_bind]
    by_cases hequal : compar key (between bytes (middle * size) (middle * size + size)) = 0
    · rw [if_pos hequal]
      refine ⟨_, rfl, fun p hp => ?_, iff_of_true rfl ⟨_, mem_elements hmiddle, hequal⟩⟩
      obtain rfl := Option.some.inj hp
      exact ⟨middle, hmiddle, rfl, hequal⟩
    rw [if_neg hequal]
    by_cases hless : compar key (between bytes (middle * size) (middle * size + size)) < 0
    · -- The key is less than the element in the middle, and than all behind it.
      rw [if_pos hless]
      refine ih _ (by omega) hmiddle.le hbelow (fun k hk hkn => ?_) rfl
      rcases Nat.eq_or_lt_of_le hk with rfl | hk
      · exact hless
      · exact h.lt_of_lt_of_le hkey (hmem _ hmiddle) (hmem k hkn) hless
          (le_of_sorted hsorted hk hkn)
    · rw [if_neg hless]
      have hgreater : compar (between bytes (middle * size) (middle * size + size)) key < 0 :=
        (h.sign _ (hmem _ hmiddle) _ hkey).mpr (by omega)
      refine ih _ (by omega) hhigh (fun k hk hkn => ?_) habove rfl
      refine (h.sign _ (hmem k hkn) _ hkey).mp ?_
      rcases Nat.eq_or_lt_of_le (Nat.lt_succ_iff.mp hk) with rfl | hk
      · exact hgreater
      · exact h.lt_of_le_of_lt (hmem k hkn) (hmem _ hmiddle) hkey
          (le_of_sorted hsorted hk hmiddle) hgreater
  · rename_i hge
    refine ⟨none, rfl, fun p hp => (nomatch hp), iff_of_false (by simp) ?_⟩
    rintro ⟨a, ha, hzero⟩
    obtain ⟨k, hk, rfl⟩ := mem_map.mp ha
    rw [mem_range] at hk
    rcases Nat.lt_or_ge k low with hkl | hkl
    · exact (hbelow k hkl hk).ne' hzero
    · exact (habove k (by omega) hk).ne hzero

end Comparators

/-- **`qsort` sorts an array, and `bsearch` finds in a sorted one.** Both stay within the array, and
the comparator is called on its elements only: otherwise they would panic. -/
theorem qsort_bsearch (array : CArray) (compar : List UInt8 → List UInt8 → ℤ) :
    (Consistent compar (elements array.bytes array.nmemb array.size) →
      ∃ sorted : CArray, qsort compar array.nmemb array.size array.bytes = .ok sorted.bytes ∧
        sorted.nmemb = array.nmemb ∧ sorted.size = array.size ∧
        (elements sorted.bytes array.nmemb array.size).Pairwise (fun a b => compar a b ≤ 0) ∧
        (elements sorted.bytes array.nmemb array.size).Perm
          (elements array.bytes array.nmemb array.size)) ∧
    ∀ key, Consistent compar (key :: elements array.bytes array.nmemb array.size) →
      (elements array.bytes array.nmemb array.size).Pairwise (fun a b => compar a b ≤ 0) →
      ∃ found, bsearch compar key array.nmemb array.size array.bytes = .ok found ∧
        (∀ p, found = some p → ∃ k < array.nmemb, p = k * array.size ∧
          compar key (between array.bytes p (p + array.size)) = 0) ∧
        (found.isSome = true ↔
          ∃ a ∈ elements array.bytes array.nmemb array.size, compar key a = 0) := by
  constructor
  · intro h
    obtain ⟨bytes, hsort, hlength, hsorted, hperm⟩ := sorted_qsort array.length_eq h
    exact ⟨⟨bytes, array.nmemb, array.size, hlength.trans array.length_eq⟩, hsort, rfl, rfl,
      hsorted, hperm⟩
  · intro key h hsorted
    exact bsearchFrom_spec array.length_eq h hsorted le_rfl
      (fun k hk => absurd hk (Nat.not_lt_zero k)) fun k hk hkn => absurd hkn (not_lt.mpr hk)

/-- A comparator of bytes. -/
def byteOrder (a b : List UInt8) : ℤ := (a.headD 0).toNat - (b.headD 0).toNat

theorem consistent_byteOrder (values : List (List UInt8)) : Consistent byteOrder values := by
  constructor
  · intro a _ b _
    rw [byteOrder, byteOrder]
    omega
  · intro a _ b _ c _ hab hbc
    rw [byteOrder] at hab hbc ⊢
    omega

theorem qsort_bsearch_bytes :
    (∃ sorted : CArray, qsort byteOrder 3 1 [2, 1, 3] = .ok sorted.bytes ∧
      (elements sorted.bytes 3 1).Pairwise (fun a b => byteOrder a b ≤ 0) ∧
      (elements sorted.bytes 3 1).Perm [[2], [1], [3]]) ∧
    ∃ found, bsearch byteOrder [2] 3 1 [1, 2, 3] = .ok found ∧ found.isSome = true := by
  constructor
  · obtain ⟨sorted, hsort, -, -, hsorted, hperm⟩ :=
      (qsort_bsearch ⟨[2, 1, 3], 3, 1, rfl⟩ byteOrder).1 (consistent_byteOrder _)
    exact ⟨sorted, hsort, hsorted, hperm⟩
  · obtain ⟨found, hsearch, -, hfound⟩ :=
      (qsort_bsearch ⟨[1, 2, 3], 3, 1, rfl⟩ byteOrder).2 [2] (consistent_byteOrder _) (by decide)
    exact ⟨found, hsearch, hfound.mpr ⟨[2], by decide, by decide⟩⟩

end ImagineOS.Libc
