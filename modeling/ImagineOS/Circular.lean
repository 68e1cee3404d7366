import ImagineOS.Ring
import Mathlib.Data.List.DropRight
import Mathlib.Data.List.Rotate

/-!
# Circular arrays

An array whose last cell is followed by its first one. Reading takes a window of cells, writing puts
a list behind a window, and both move an index around.
-/

namespace ImagineOS.Circular

open List

variable {α : Type} {n : ℕ} [NeZero n]

/-- The cells from `head` on. -/
def window (cells : Fin n → α) (head length : ℕ) : List α :=
  (List.range length).map fun k => cells (Fin.ofNat n (head + k))

/-- The cells from `head` on are read, and `head` moves. -/
def take (cells : Fin n → α) : ℕ → ℕ → List α × ℕ
  | 0, head => ([], head)
  | count + 1, head =>
    let rest := take cells count ((head + 1) % n)
    (cells (Fin.ofNat n head) :: rest.1, rest.2)

/-- The elements of a list are written from `tail` on, and `tail` moves. -/
def put : List α → (Fin n → α) → ℕ → (Fin n → α) × ℕ
  | [], cells, tail => (cells, tail)
  | a :: rest, cells, tail =>
    put rest (Function.update cells (Fin.ofNat n tail) a) ((tail + 1) % n)

@[simp] theorem length_window (cells : Fin n → α) (head length : ℕ) :
    (window cells head length).length = length := by
  simp [window]

@[simp] theorem window_zero (cells : Fin n → α) (head : ℕ) : window cells head 0 = [] := rfl

theorem window_succ (cells : Fin n → α) (head length : ℕ) : window cells head (length + 1) =
    cells (Fin.ofNat n head) :: window cells (head + 1) length := by
  simp only [window, range_succ_eq_map, map_cons, map_map, Nat.add_zero]
  congr 2
  funext k
  simp only [Function.comp_apply, Nat.succ_eq_add_one]
  congr 2
  omega

theorem window_add (cells : Fin n → α) (head a b : ℕ) :
    window cells head (a + b) = window cells head a ++ window cells (head + a) b := by
  simp only [window, range_add, map_append, map_map]
  congr 2
  funext k
  simp only [Function.comp_apply, Nat.add_assoc]

@[simp] theorem window_mod (cells : Fin n → α) (head length : ℕ) :
    window cells (head % n) length = window cells head length := by
  simp only [window, Ring.ofNat_mod_add]

@[simp] theorem length_take (cells : Fin n → α) (count head : ℕ) :
    (take cells count head).1.length = count := by
  induction count generalizing head with
  | zero => rfl
  | succ count ih => rw [take, length_cons, ih]

/-- **Reading** takes a window. -/
theorem take_eq (cells : Fin n → α) (count : ℕ) {head : ℕ} (hhead : head < n) :
    take cells count head = (window cells head count, (head + count) % n) := by
  induction count generalizing head with
  | zero => rw [take, window_zero, Nat.add_zero, Nat.mod_eq_of_lt hhead]
  | succ count ih =>
    rw [take, ih (Nat.mod_lt _ (Nat.pos_of_neZero n)), window_mod, window_succ, Nat.mod_add_mod,
      Nat.add_right_comm, Nat.add_assoc]

theorem window_update (cells : Fin n → α) (head : ℕ) {length : ℕ} (hlength : length < n) (a : α) :
    window (Function.update cells (Fin.ofNat n (head + length)) a) head length =
      window cells head length := by
  refine map_congr_left fun k hk => ?_
  rw [mem_range] at hk
  exact Function.update_of_ne (Ring.ofNat_ne hk (by omega)) _ _

/-- **Writing** behind a window makes it longer. -/
theorem window_put (l : List α) (cells : Fin n → α) {head tail length : ℕ}
    (htail : tail % n = (head + length) % n) (hroom : length + l.length ≤ n) :
    window (put l cells tail).1 head (length + l.length) = window cells head length ++ l := by
  induction l generalizing cells tail length with
  | nil => simp [put]
  | cons a rest ih =>
    have hcell : Fin.ofNat n tail = Fin.ofNat n (head + length) := Fin.ext htail
    have hlength : length < n := by
      rw [length_cons] at hroom
      omega
    have hnext : (tail + 1) % n % n = (head + (length + 1)) % n := by
      rw [Nat.mod_mod, ← Nat.add_assoc, ← Nat.mod_add_mod, htail, Nat.mod_add_mod]
    rw [put, length_cons, show length + (rest.length + 1) = length + 1 + rest.length by omega,
      ih _ hnext (by rw [length_cons] at hroom; omega), window_add, hcell,
      window_update _ _ hlength, append_assoc]
    simp [window]

theorem put_tail (l : List α) (cells : Fin n → α) {tail : ℕ} (htail : tail < n) :
    (put l cells tail).2 = (tail + l.length) % n := by
  induction l generalizing cells tail with
  | nil => rw [put, length_nil, Nat.add_zero, Nat.mod_eq_of_lt htail]
  | cons a rest ih =>
    rw [put, ih _ (Nat.mod_lt _ (Nat.pos_of_neZero n)), Nat.mod_add_mod, length_cons,
      Nat.add_right_comm, Nat.add_assoc]

/-! ### The latest elements -/

section Latest

variable {l history more front : List α} {a filler : α} {n i count : ℕ}

theorem rtake_append (h : count ≤ more.length) : (l ++ more).rtake count = more.rtake count := by
  rw [List.rtake, List.rtake, length_append, Nat.add_sub_assoc h, drop_length_add_append]

theorem rtake_rtake (h : count ≤ n) : (l.rtake n).rtake count = l.rtake count := by
  simp only [rtake_eq_reverse_take_reverse, reverse_reverse, take_take, Nat.min_eq_left h]

theorem rotate_set (h : i < l.length) (a : α) :
    (l.set i a).rotate (i + 1) = (l.rotate i).tail ++ [a] := by
  have hset : (l.set i a).length = l.length := length_set
  rw [rotate_eq_drop_append_take (by omega), rotate_eq_drop_append_take (by omega),
    drop_set_of_lt (by omega), take_add_one, take_set_of_le le_rfl,
    List.getElem?_set_self h, drop_eq_getElem_cons h, cons_append, tail_cons, append_assoc]
  rfl

theorem take_rotate (hi : i < l.length) (hcount : count ≤ l.length) :
    (l.rotate i).take count = (l.drop i).take (min count (l.length - i)) ++
      l.take (count - min count (l.length - i)) := by
  rw [rotate_eq_drop_append_take hi.le, take_append, take_take, length_drop,
    take_eq_take_min, length_drop]
  congr 2
  omega

/-- From cell `i` on, the cells have the latest elements of a history, behind some filler. -/
structure Latest (filler : α) (n : ℕ) (history l : List α) (i : ℕ) : Prop where
  length : l.length = n
  lt : i < n
  rotate : l.rotate i = (List.replicate n filler ++ history).rtake n

theorem Latest.empty (h : 0 < n) : Latest filler n [] (List.replicate n filler) 0 where
  length := length_replicate
  lt := h
  rotate := by
    rw [rotate_zero, append_nil, List.rtake, length_replicate, Nat.sub_self, drop_zero]

/-- **Writing** over the oldest cell. -/
theorem Latest.set (h : Latest filler n history l i) (a : α) :
    Latest filler n (history ++ [a]) (l.set i a) ((i + 1) % n) where
  length := by rw [length_set, h.length]
  lt := Nat.mod_lt _ (Nat.zero_lt_of_lt h.lt)
  rotate := by
    obtain ⟨m, rfl⟩ : ∃ m, n = m + 1 := Nat.exists_eq_add_one.mpr (Nat.zero_lt_of_lt h.lt)
    have hmod : (l.set i a).rotate ((i + 1) % (m + 1)) = (l.set i a).rotate (i + 1) := by
      rw [← h.length, ← @length_set _ l i a, rotate_mod]
    rw [hmod, rotate_set (h.length ▸ h.lt), h.rotate, ← append_assoc, rtake_concat_succ,
      List.rtake, tail_drop, List.rtake]
    congr 2
    rw [length_append, length_replicate]
    omega

theorem Latest.insert (h : Latest filler n (history ++ more) l i) (hmore : n ≤ more.length) :
    Latest filler n (history ++ (front ++ more)) l i where
  length := h.length
  lt := h.lt
  rotate := by
    rw [h.rotate, ← append_assoc, rtake_append hmore, ← append_assoc,
      ← append_assoc, rtake_append hmore]

/-- **Reading** up to the newest cell. -/
theorem Latest.take (h : Latest filler n history l i) (hn : count ≤ n)
    (hcount : count ≤ history.length) :
    (l.rotate ((i + (n - count)) % n)).take count = history.rtake count := by
  have hlength : (l.rotate i).length = n := by rw [length_rotate, h.length]
  have hfront : (l.rotate i).drop (n - count) = history.rtake count := by
    rw [← rtake_append hcount, ← rtake_rtake hn, ← h.rotate, List.rtake, hlength]
  have hmod : l.rotate ((i + (n - count)) % n) = (l.rotate i).rotate (n - count) := by
    rw [rotate_rotate, ← h.length, rotate_mod]
  rw [hmod, rotate_eq_drop_append_take (by omega), ← hfront]
  exact take_left' (by rw [length_drop, hlength]; omega)

end Latest

end ImagineOS.Circular
