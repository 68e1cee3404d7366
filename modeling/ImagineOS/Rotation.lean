import Mathlib.Data.Nat.ModEq
import Mathlib.Data.List.OfFn

/-!
# Turns in a circle

Places in a circle are looked at one after another, from the place behind the last choice on and
once around, until one is ready; that one is chosen. A place that is ready all the time comes nearer
with every choice of another one, so that it is chosen after one round at most.
-/

namespace ImagineOS.Rotation

variable {n : ℕ} [NeZero n]

/-- The places from the one behind `c` on; `c` is the last one. -/
def order (c : Fin n) : List (Fin n) := (List.range' 1 n).map fun d => Fin.ofNat n (c + d)

/-- The first place that is ready. -/
def next (ready : Fin n → Bool) (c : Fin n) : Option (Fin n) := (order c).find? ready

/-- How many places `q` is behind `c`: all of them, for `c` itself. -/
def distance (c q : Fin n) : ℕ := if c < q then q - c else q + n - c

omit [NeZero n] in
theorem distance_pos (c q : Fin n) : 0 < distance c q := by
  have hc := c.isLt
  rw [distance]
  split <;> omega

omit [NeZero n] in
theorem distance_le (c q : Fin n) : distance c q ≤ n := by
  have hq := q.isLt
  rw [distance]
  split <;> omega

theorem ofNat_distance (c q : Fin n) : Fin.ofNat n (c + distance c q) = q := by
  have hc := c.isLt
  have hq := q.isLt
  refine Fin.ext ?_
  show (c + distance c q) % n = q
  rw [distance]
  split
  · rw [show (c : ℕ) + (q - c) = q by omega, Nat.mod_eq_of_lt hq]
  · rw [show (c : ℕ) + (q + n - c) = q + n by omega, Nat.add_mod_right, Nat.mod_eq_of_lt hq]

theorem distance_ofNat (c : Fin n) {d : ℕ} (hd : 0 < d) (hn : d ≤ n) :
    distance c (Fin.ofNat n (c + d)) = d := by
  have hc := c.isLt
  have hval : (Fin.ofNat n (c + d) : ℕ) = if c + d < n then c + d else c + d - n := by
    show (c + d) % n = _
    split
    · rename_i hlt
      exact Nat.mod_eq_of_lt hlt
    · rename_i hle
      rw [Nat.mod_eq_sub_mod (by omega), Nat.mod_eq_of_lt (by omega)]
  rw [distance]
  simp only [Fin.lt_def, hval]
  split_ifs <;> omega

theorem length_order (c : Fin n) : (order c).length = n := by simp [order]

theorem getElem_order (c : Fin n) {k : ℕ} (hk : k < (order c).length) :
    (order c)[k] = Fin.ofNat n (c + (k + 1)) := by
  simp [order, Nat.add_comm 1 k]

/-- The place `q` is in the order where its distance says. -/
theorem order_distance (c q : Fin n) :
    ∃ h : distance c q - 1 < (order c).length, (order c)[distance c q - 1] = q := by
  have hpos := distance_pos c q
  have hle := distance_le c q
  refine ⟨by rw [length_order]; omega, ?_⟩
  rw [getElem_order, Nat.sub_add_cancel hpos, ofNat_distance]

variable {ready : Fin n → Bool} {c q : Fin n}

theorem next_eq_some : next ready c = some q ↔
    ready q = true ∧ ∀ r, distance c r < distance c q → ready r = false := by
  rw [next, List.find?_eq_some_iff_getElem]
  constructor
  · rintro ⟨hq, k, hk, rfl, hbefore⟩
    have hkn : k < n := (length_order c) ▸ hk
    rw [getElem_order, distance_ofNat c (Nat.succ_pos k) hkn] at *
    refine ⟨hq, fun r hr => ?_⟩
    obtain ⟨hlt, hr'⟩ := order_distance c r
    have hpos := distance_pos c r
    simpa [hr'] using hbefore (distance c r - 1) (by omega)
  · rintro ⟨hq, hbefore⟩
    obtain ⟨hlt, hq'⟩ := order_distance c q
    refine ⟨hq, _, hlt, hq', fun k hk => ?_⟩
    have hle := distance_le c q
    rw [getElem_order, hbefore _ (by
      rw [distance_ofNat c (Nat.succ_pos k) (by omega)]
      omega)]
    rfl

theorem next_eq_none :
    next ready c = none ↔ ∀ q, ready q = false := by
  rw [next, List.find?_eq_none]
  constructor
  · intro h q
    obtain ⟨hlt, hq⟩ := order_distance c q
    simpa [hq] using h _ (List.getElem_mem hlt)
  · intro h q _
    simp [h q]

/-- **A place that is ready comes nearer** with every choice of another one. -/
theorem passed {r : Fin n} (h : next ready c = some r)
    (hq : ready q = true) (hne : r ≠ q) : distance r q < distance c q := by
  obtain ⟨-, hbefore⟩ := next_eq_some.mp h
  have hle : distance c r ≤ distance c q := by
    by_contra hlt
    have hnot := hbefore q (by omega)
    rw [hq] at hnot
    cases hnot
  have hrq : (r : ℕ) ≠ q := Fin.val_ne_of_ne hne
  have hc := c.isLt
  have hr := r.isLt
  have hq := q.isLt
  simp only [distance, Fin.lt_def] at hle ⊢
  split_ifs at hle ⊢ <;> omega

/-- **Over many choices**, it comes nearer with each of them. -/
theorem served {place : ℕ → Fin n} {ready : ℕ → Fin n → Bool} {m : ℕ}
    (hnext : ∀ k < m, next (ready k) (place k) = some (place (k + 1)))
    (hready : ∀ k < m, ready k q = true) (hne : ∀ k < m, place (k + 1) ≠ q) :
    distance (place m) q + m ≤ distance (place 0) q := by
  induction m with
  | zero => exact le_rfl
  | succ m ih =>
    have hbefore := ih (fun k hk => hnext k (by omega)) (fun k hk => hready k (by omega))
      fun k hk => hne k (by omega)
    have hlast := passed (hnext m (by omega)) (hready m (by omega)) (hne m (by omega))
    omega

end ImagineOS.Rotation
