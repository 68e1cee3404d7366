import Mathlib.Algebra.GroupWithZero.Nat
import Mathlib.Data.Fin.Basic

/-!
# Ring buffers

A queue in an array: its elements are in the cells from `head` on, where the last cell is followed
by the first one. Pushing into a full ring drops the oldest element. What a ring holds is a list, to
which pushing appends, and from which popping takes the head.
-/

namespace ImagineOS

open List

/-- A ring buffer with `n` cells. -/
structure Ring (α : Type) (n : ℕ) where
  cells : Fin n → Option α
  head : ℕ
  tail : ℕ
  length : ℕ

namespace Ring

variable {α : Type} {n : ℕ} [NeZero n]

/-- The ring without elements. -/
def empty : Ring α n := ⟨fun _ => none, 0, 0, 0⟩

/-- A new element; if the ring is full, the oldest one is dropped. -/
def push (a : α) (r : Ring α n) : Ring α n :=
  let r := if r.length = n then { r with head := (r.head + 1) % n, length := r.length - 1 } else r
  { r with
    cells := Function.update r.cells (Fin.ofNat n r.tail) (some a)
    tail := (r.tail + 1) % n
    length := r.length + 1 }

/-- The oldest element is taken. -/
def pop (r : Ring α n) : Option α × Ring α n :=
  if r.length = 0 then (none, r)
  else (r.cells (Fin.ofNat n r.head), { r with
    cells := Function.update r.cells (Fin.ofNat n r.head) none
    head := (r.head + 1) % n
    length := r.length - 1 })

/-- The elements of a ring, from the oldest one on. -/
structure Holds (r : Ring α n) (l : List α) : Prop where
  length : r.length = l.length
  le : l.length ≤ n
  tail : r.tail % n = (r.head + l.length) % n
  cells : ∀ k (hk : k < l.length), r.cells (Fin.ofNat n (r.head + k)) = some l[k]

/-- What is in the cells, from the oldest element on. -/
def toList (r : Ring α n) : List α :=
  (List.range r.length).filterMap fun k => r.cells (Fin.ofNat n (r.head + k))

variable {r : Ring α n} {l : List α}

theorem Holds.toList_eq (h : r.Holds l) : r.toList = l := by
  have htake : ∀ m ≤ l.length,
      (List.range m).filterMap (fun k => r.cells (Fin.ofNat n (r.head + k))) = l.take m := by
    intro m hm
    induction m with
    | zero => simp
    | succ m ih =>
      have hlast : [m].filterMap (fun k => r.cells (Fin.ofNat n (r.head + k))) = [l[m]] :=
        filterMap_cons_some (h.cells m hm)
      rw [range_succ, filterMap_append, ih (by omega), hlast, take_add_one,
        List.getElem?_eq_getElem hm]
      rfl
  rw [toList, h.length, htake _ le_rfl, take_length]

theorem holds_empty : (empty : Ring α n).Holds [] :=
  ⟨rfl, Nat.zero_le _, rfl, fun _ hk => absurd hk (Nat.not_lt_zero _)⟩

theorem Holds.eq_nil (h : r.Holds l) (hlength : r.length = 0) : l = [] :=
  eq_nil_of_length_eq_zero (h.length.symm.trans hlength)

theorem ofNat_mod_add (a k : ℕ) : Fin.ofNat n (a % n + k) = Fin.ofNat n (a + k) :=
  Fin.ext (Nat.mod_add_mod a n k)

/-- Cells less than `n` apart are different. -/
theorem ofNat_ne {a k m : ℕ} (hkm : k < m) (hm : m < k + n) :
    Fin.ofNat n (a + k) ≠ Fin.ofNat n (a + m) := by
  intro he
  have hmod : (a + k) % n = (a + m) % n := congrArg Fin.val he
  have hdvd : n ∣ a + m - (a + k) :=
    Nat.dvd_of_mod_eq_zero (Nat.sub_mod_eq_zero_of_mod_eq hmod.symm)
  have hle := Nat.le_of_dvd (by omega) hdvd
  omega

theorem Holds.drop (h : r.Holds l) (hne : l ≠ []) :
    ({ r with head := (r.head + 1) % n, length := r.length - 1 } : Ring α n).Holds l.tail := by
  have hpos := length_pos_iff.mpr hne
  refine ⟨by simp [h.length], by simp only [length_tail]; have := h.le; omega, ?_, fun k hk => ?_⟩
  · rw [h.tail, length_tail, Nat.mod_add_mod]
    congr 1
    omega
  · rw [length_tail] at hk
    rw [ofNat_mod_add, Nat.add_right_comm, Nat.add_assoc, h.cells (k + 1) (by omega)]
    simp

/-- **Pushing** appends, and drops the oldest element of a full ring. -/
theorem Holds.push (h : r.Holds l) (a : α) :
    (r.push a).Holds ((if l.length = n then l.tail else l) ++ [a]) := by
  have hroom : ∀ {r : Ring α n} {l : List α}, r.Holds l → l.length < n →
      ({ r with
        cells := Function.update r.cells (Fin.ofNat n r.tail) (some a)
        tail := (r.tail + 1) % n
        length := r.length + 1 } : Ring α n).Holds (l ++ [a]) := by
    intro r l h hlt
    refine ⟨by simp [h.length], by simpa using Nat.succ_le_of_lt hlt, ?_, fun k hk => ?_⟩
    · simp only [Nat.mod_mod, length_append, length_singleton]
      rw [Nat.add_mod, h.tail, ← Nat.add_mod, Nat.add_assoc]
    · have htail : Fin.ofNat n r.tail = Fin.ofNat n (r.head + l.length) := Fin.ext h.tail
      change Function.update r.cells (Fin.ofNat n r.tail) (some a) (Fin.ofNat n (r.head + k)) = _
      rw [htail]
      rcases (Nat.lt_succ_iff_lt_or_eq.mp (by simpa using hk)) with hk | rfl
      · rw [Function.update_of_ne (ofNat_ne hk (by omega)), h.cells k hk, getElem_append_left hk]
      · rw [Function.update_self]
        simp
  rw [Ring.push]
  by_cases hfull : l.length = n
  · have hne : l ≠ [] := fun he => by
      rw [he] at hfull
      exact NeZero.ne n hfull.symm
    rw [if_pos (h.length.trans hfull), if_pos hfull]
    refine hroom (h.drop hne) ?_
    have hpos := length_pos_iff.mpr hne
    rw [length_tail]
    omega
  · rw [if_neg fun he => hfull (h.length.symm.trans he), if_neg hfull]
    exact hroom h (lt_of_le_of_ne h.le hfull)

/-- **Popping** takes the head. -/
theorem Holds.pop (h : r.Holds l) : r.pop.1 = l.head? ∧ r.pop.2.Holds l.tail := by
  rw [Ring.pop]
  cases l with
  | nil =>
    have hlength : r.length = 0 := h.length
    rw [if_pos hlength]
    exact ⟨rfl, h⟩
  | cons b l =>
    have hlength : r.length ≠ 0 := by simp [h.length]
    rw [if_neg hlength]
    have hfirst := h.cells 0 (by simp)
    refine ⟨by simpa using hfirst, ?_⟩
    have hdrop := h.drop (cons_ne_nil b l)
    refine ⟨hdrop.length, hdrop.le, hdrop.tail, fun k hk => ?_⟩
    have hne : Fin.ofNat n ((r.head + 1) % n + k) ≠ Fin.ofNat n r.head := by
      rw [ofNat_mod_add, Nat.add_assoc]
      have hk' : k < l.length := hk
      have hle : l.length + 1 ≤ n := h.le
      exact (ofNat_ne (k := 0) (m := 1 + k) (by omega) (by omega)).symm
    exact (Function.update_of_ne hne _ _).trans (hdrop.cells k hk)

end Ring

end ImagineOS
