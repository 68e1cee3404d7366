import Mathlib.Data.Nat.Count

/-!
# First fit

Addresses are taken from the lowest free one on, in runs of free addresses. A run that begins where
the last piece ends lengthens it, and any other run opens a piece of its own; there is a limit on
the number of pieces. Whether a number of addresses can be taken depends on how many free addresses
there are, and on how many pieces they open, but not on where the runs are cut.
-/

namespace ImagineOS.FirstFit

variable (free : ℕ → Prop) (tail : Option ℕ)

/-- A piece is opened at `a`: no free address is before it, unless it is the lowest one and the last
piece ends there. -/
def Opens (a : ℕ) : Prop :=
  free a ∧ (∀ c, a = c + 1 → ¬ free c) ∧ ¬ (tail = some a ∧ ∀ c < a, ¬ free c)

open Classical in
/-- There is room for `k` addresses in `slots` more pieces, where the last piece ends at `tail`. -/
def Room (k slots : ℕ) : Prop := ∃ b, Nat.count free b = k ∧ Nat.count (Opens free tail) b ≤ slots

/-- What is free when the `n` addresses from `s` on have been taken. -/
def Rest (s n a : ℕ) : Prop := free a ∧ ¬ (s ≤ a ∧ a < s + n)

variable {free tail} {s n k slots : ℕ}

theorem room_zero : Room free tail 0 slots := ⟨0, by simp, by simp⟩

theorem Room.exists_free (h : Room free tail k slots) (hk : k ≠ 0) : ∃ a, free a := by
  classical
  obtain ⟨b, hcount, -⟩ := h
  rw [← hcount] at hk
  obtain ⟨a, -, ha⟩ := Nat.count_ne_iff_exists.mp hk
  exact ⟨a, ha⟩

theorem Room.le (h : Room free tail k slots) {m : ℕ} (hm : ∀ a, free a → a < m) : k ≤ m := by
  classical
  obtain ⟨b, rfl, -⟩ := h
  rw [Nat.count_eq_card_filter_range]
  refine (Finset.card_le_card fun a ha => ?_).trans_eq (Finset.card_range m)
  exact Finset.mem_range.mpr (hm a (Finset.mem_filter.mp ha).2)

section Take

variable (hfirst : ∀ c < s, ¬ free c) (hrun : ∀ a, s ≤ a → a < s + n → free a)

include hfirst in
theorem not_rest {a : ℕ} (ha : a < s + n) : ¬ Rest free s n a := by
  rintro ⟨hfree, hout⟩
  rcases Nat.lt_or_ge a s with hlt | hge
  · exact hfirst a hlt hfree
  · exact hout ⟨hge, ha⟩

open Classical in
include hfirst hrun in
theorem count_free (b : ℕ) :
    Nat.count free b = Nat.count (Rest free s n) b + (min b (s + n) - s) := by
  induction b with
  | zero => simp
  | succ b ih =>
    rw [Nat.count_succ, Nat.count_succ, ih]
    rcases Nat.lt_or_ge b s with hlt | hge
    · rw [if_neg (hfirst b hlt), if_neg (not_rest hfirst (by omega))]
      omega
    · by_cases hb : b < s + n
      · rw [if_pos (hrun b hge hb), if_neg (not_rest hfirst hb)]
        omega
      · have hiff : Rest free s n b ↔ free b := and_iff_left fun h => hb h.2
        simp only [hiff]
        omega

variable (tail) in
include hfirst hrun in
/-- The run opens a piece unless it continues the last one. -/
theorem opens_iff (hn : 0 < n) (a : ℕ) : Opens free tail a ↔
    Opens (Rest free s n) (some (s + n)) a ∨ (a = s ∧ tail ≠ some s) := by
  have hs : free s := hrun s le_rfl (by omega)
  rcases Nat.lt_trichotomy a s with hlt | rfl | hgt
  · refine iff_of_false (fun h => hfirst a hlt h.1) ?_
    rintro (h | ⟨rfl, -⟩)
    · exact hfirst a hlt h.1.1
    · exact lt_irrefl _ hlt
  · have hprev : ∀ c, a = c + 1 → ¬ free c := fun c hc => hfirst c (by omega)
    constructor
    · exact fun h => Or.inr ⟨rfl, fun ht => h.2.2 ⟨ht, hfirst⟩⟩
    · rintro (h | ⟨-, ht⟩)
      · exact absurd h.1 (not_rest hfirst (by omega))
      · exact ⟨hs, hprev, fun h => ht h.1⟩
  · obtain ⟨c, rfl⟩ : ∃ c, a = c + 1 := ⟨a - 1, by omega⟩
    rcases Nat.lt_trichotomy (c + 1) (s + n) with hlt | heq | hgt'
    · refine iff_of_false (fun h => h.2.1 c rfl (hrun c (by omega) (by omega))) ?_
      rintro (h | ⟨h, -⟩)
      · exact not_rest hfirst hlt h.1
      · omega
    · -- The address after the run continues it.
      refine iff_of_false (fun h => h.2.1 c rfl (hrun c (by omega) (by omega))) ?_
      rintro (h | ⟨h, -⟩)
      · exact h.2.2 ⟨by rw [heq], fun e he => not_rest hfirst (by omega)⟩
      · omega
    · have hrest : ∀ e, s + n ≤ e → (Rest free s n e ↔ free e) := fun e he =>
        and_iff_left fun h => by omega
      have hbelow : ¬ ∀ e < c + 1, ¬ free e := fun h => h s (by omega) hs
      constructor
      · rintro ⟨h₁, h₂, -⟩
        refine Or.inl ⟨(hrest _ (by omega)).mpr h₁, fun e he hr => h₂ e he hr.1, ?_⟩
        rintro ⟨ht, -⟩
        have := Option.some.inj ht
        omega
      · rintro (⟨h₁, h₂, -⟩ | ⟨h, -⟩)
        · refine ⟨h₁.1, fun e he hf => h₂ e he ((hrest e (by omega)).mpr hf), fun h => hbelow h.2⟩
        · omega

open Classical in
variable (tail) in
include hfirst hrun in
/-- The pieces that are opened, with the run and without it. -/
theorem count_opens (hn : 0 < n) {b : ℕ} (hb : s < b) : Nat.count (Opens free tail) b =
    Nat.count (Opens (Rest free s n) (some (s + n))) b + if tail = some s then 0 else 1 := by
  have hnot : ∀ a, Opens (Rest free s n) (some (s + n)) a → s + n ≤ a := fun a ha =>
    Nat.le_of_not_lt fun hlt => not_rest hfirst hlt ha.1
  have hle : ∀ b, Nat.count (Opens free tail) b =
      Nat.count (Opens (Rest free s n) (some (s + n))) b +
        if s < b ∧ tail ≠ some s then 1 else 0 := by
    intro b
    induction b with
    | zero => simp
    | succ b ih =>
      rw [Nat.count_succ, Nat.count_succ, ih]
      have hiff := opens_iff tail hfirst hrun hn b
      rcases eq_or_ne b s with rfl | hne
      · have hno : ¬ Opens (Rest free b n) (some (b + n)) b := fun h => by
          have := hnot b h
          omega
        rw [if_neg hno, if_neg (fun h => lt_irrefl _ h.1)]
        by_cases ht : tail = some b
        · rw [if_neg fun h => (hiff.mp h).elim hno fun h => h.2 ht, if_neg fun h => h.2 ht]
        · rw [if_pos (hiff.mpr (Or.inr ⟨rfl, ht⟩)), if_pos ⟨Nat.lt_succ_self b, ht⟩]
      · have hiff' : Opens free tail b ↔ Opens (Rest free s n) (some (s + n)) b :=
          hiff.trans (or_iff_left fun h => hne h.1)
        have hlt : (s < b + 1 ∧ tail ≠ some s) ↔ (s < b ∧ tail ≠ some s) := by
          refine and_congr_left fun _ => ?_
          omega
        simp only [hiff', hlt]
        omega
  rw [hle b]
  by_cases ht : tail = some s
  · rw [if_pos ht, if_neg fun h => h.2 ht]
  · rw [if_neg ht, if_pos ⟨hb, ht⟩]

include hfirst hrun in
/-- **Taking a run**: there is room if the run may open a piece, in case it has to, and there is
room for the rest after it. -/
theorem room_take (hn : 0 < n) (hk : n ≤ k) : Room free tail k slots ↔
    (tail ≠ some s → 0 < slots) ∧
      Room (Rest free s n) (some (s + n)) (k - n) (if tail = some s then slots else slots - 1) := by
  classical
  have hcount := count_free hfirst hrun
  have hopens := fun b => count_opens tail hfirst hrun hn (b := b)
  have hnone : Nat.count (Rest free s n) (s + n) = 0 :=
    Nat.count_iff_forall_not.mpr fun a ha => not_rest hfirst ha
  have hnone' : Nat.count (Opens (Rest free s n) (some (s + n))) (s + n) = 0 :=
    Nat.count_iff_forall_not.mpr fun a ha h => not_rest hfirst ha h.1
  constructor
  · rintro ⟨b, hb, hslots⟩
    -- The addresses that are taken include the run.
    have hge : s + n ≤ b := by
      by_contra hlt
      have hmono := Nat.count_monotone (Rest free s n) (Nat.le_of_not_le hlt)
      have := hcount b
      omega
    have h₁ := hcount b
    have h₂ := hopens b (by omega)
    refine ⟨fun ht => ?_, b, by omega, ?_⟩
    · rw [if_neg ht] at h₂
      omega
    · split at h₂ <;> rename_i ht
      · rw [if_pos ht]
        omega
      · rw [if_neg ht]
        omega
  · rintro ⟨hpos, b, hb, hslots⟩
    -- At least the run is taken.
    have hmax : ∃ b', s + n ≤ b' ∧ Nat.count (Rest free s n) b' = k - n ∧
        Nat.count (Opens (Rest free s n) (some (s + n))) b' ≤
          if tail = some s then slots else slots - 1 := by
      rcases Nat.le_total (s + n) b with hge | hle
      · exact ⟨b, hge, hb, hslots⟩
      · have := Nat.count_monotone (Rest free s n) hle
        exact ⟨s + n, le_rfl, by omega, by omega⟩
    obtain ⟨b', hge, hb', hslots'⟩ := hmax
    have h₁ := hcount b'
    have h₂ := hopens b' (by omega)
    refine ⟨b', by omega, ?_⟩
    split at h₂ <;> rename_i ht
    · rw [if_pos ht] at hslots'
      omega
    · rw [if_neg ht] at hslots'
      have := hpos ht
      omega

end Take

end ImagineOS.FirstFit
