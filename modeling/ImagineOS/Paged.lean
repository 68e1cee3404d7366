import Mathlib.Algebra.Order.Group.Nat

/-!
# Memory behind pages

Addresses are translated page by page into a memory. Bytes are copied in pieces, each of which ends
where its page does; a copy fails at the first piece whose page is not there. What a copy does is
said byte by byte: it succeeds if every byte is on a page, and then the bytes are where they belong.
-/

namespace ImagineOS.Paged

open List Nat

variable {α : Type}

section Definitions

variable (n : ℕ) (frames : ℕ → Option ℕ)

/-- Where an address is in the memory: its page is in a frame. -/
def translate (a : ℕ) : Option ℕ := (frames (a / n)).map fun f => f * n + a % n

/-- What is at an address. -/
def view (m : ℕ → α) (a : ℕ) : Option α := (translate n frames a).map m

/-- Elements are stored in the memory, one behind the other. -/
def store : ℕ → List α → (ℕ → α) → ℕ → α
  | _, [], m => m
  | p, b :: rest, m => store (p + 1) rest (Function.update m p b)

/-- A list is copied to an address, in pieces. Addresses end at `limit`. -/
def copyTo (limit : ℕ) : ℕ → ℕ → List α → (ℕ → α) → Bool × (ℕ → α)
  | _, _, [], m => (true, m)
  | 0, _, _ :: _, m => (false, m)
  | fuel + 1, a, b :: rest, m =>
    if limit ≤ a then (false, m)
    else match translate n frames a with
    | none => (false, m)
    | some p =>
      let available := min (n - a % n) (rest.length + 1)
      copyTo limit fuel (a + available) ((b :: rest).drop available)
        (store p ((b :: rest).take available) m)

/-- As many elements are copied from an address, in pieces. -/
def copyFrom (limit : ℕ) (m : ℕ → α) : ℕ → ℕ → ℕ → Option (List α)
  | _, _, 0 => some []
  | 0, _, _ + 1 => none
  | fuel + 1, a, rest + 1 =>
    if limit ≤ a then none
    else match translate n frames a with
    | none => none
    | some p =>
      let available := min (n - a % n) (rest + 1)
      (copyFrom limit m fuel (a + available) (rest + 1 - available)).map
        ((List.range available).map (fun k => m (p + k)) ++ ·)

/-- Every address of a range is one, and its page is there. -/
def Mapped (limit a count : ℕ) : Prop :=
  ∀ k < count, a + k < limit ∧ (frames ((a + k) / n)).isSome = true

/-- One element is written at an address. -/
def poke (a : ℕ) (b : α) (m : ℕ → α) : ℕ → α :=
  match translate n frames a with
  | none => m
  | some p => Function.update m p b

/-- The elements of a list are written at an address and behind it. -/
def pokes : ℕ → List α → (ℕ → α) → ℕ → α
  | _, [], m => m
  | a, b :: rest, m => pokes (a + 1) rest (poke n frames a b m)

end Definitions

variable {n : ℕ} {frames : ℕ → Option ℕ} {limit : ℕ}

/-! ### Pieces -/

variable {a k : ℕ}

theorem same_page (hk : a % n + k < n) :
    (a + k) / n = a / n ∧ (a + k) % n = a % n + k := by
  have hn : 0 < n := by omega
  have hsum : a + k = a % n + k + n * (a / n) := by
    have := mod_add_div a n
    omega
  rw [hsum, add_mul_div_left _ _ hn, add_mul_mod_self_left, div_eq_of_lt hk,
    mod_eq_of_lt hk, zero_add]
  exact ⟨rfl, rfl⟩

theorem mapped_zero (a : ℕ) : Mapped n frames limit a 0 := fun _ hk => absurd hk (not_lt_zero _)

theorem mapped_add {i j : ℕ} : Mapped n frames limit a (i + j) ↔
    Mapped n frames limit a i ∧ Mapped n frames limit (a + i) j := by
  constructor
  · intro h
    refine ⟨fun k hk => h k (by omega), fun k hk => ?_⟩
    rw [add_assoc]
    exact h (i + k) (by omega)
  · rintro ⟨hi, hj⟩ k hk
    by_cases hlt : k < i
    · exact hi k hlt
    · have h := hj (k - i) (by omega)
      rwa [show a + i + (k - i) = a + k by omega] at h

theorem mapped_piece (hlimit : n ∣ limit) (ha : a < limit)
    (hframe : (frames (a / n)).isSome = true) (hk : a % n + k ≤ n) :
    Mapped n frames limit a k := by
  intro j hj
  obtain ⟨hdiv, -⟩ := same_page (show a % n + j < n by omega)
  refine ⟨?_, by rwa [hdiv]⟩
  obtain ⟨c, rfl⟩ := hlimit
  have hpage : a / n < c := Nat.div_lt_of_lt_mul ha
  have hend : n * (a / n) + n ≤ n * c := by
    calc n * (a / n) + n = n * (a / n + 1) := (Nat.mul_succ _ _).symm
      _ ≤ n * c := Nat.mul_le_mul_left n hpage
  have := Nat.mod_add_div a n
  omega

theorem store_eq_pokes {f : ℕ} (bytes : List α) (hframe : frames (a / n) = some f)
    (hpiece : a % n + bytes.length ≤ n) (m : ℕ → α) :
    store (f * n + a % n) bytes m = pokes n frames a bytes m := by
  induction bytes generalizing a m with
  | nil => rfl
  | cons b rest ih =>
    have hpoke : poke n frames a b m = Function.update m (f * n + a % n) b := by
      simp only [poke, translate, hframe, Option.map_some]
    rw [store, pokes, hpoke]
    cases rest with
    | nil => rfl
    | cons c rest =>
      simp only [length_cons] at hpiece
      obtain ⟨hdiv, hmod⟩ := same_page (show a % n + 1 < n by omega)
      rw [add_assoc, ← hmod]
      refine ih (by rwa [hdiv]) ?_ _
      simp only [length_cons]
      omega

theorem pokes_append (l l' : List α) (a : ℕ) (m : ℕ → α) :
    pokes n frames a (l ++ l') m = pokes n frames (a + l.length) l' (pokes n frames a l m) := by
  induction l generalizing a m with
  | nil => rfl
  | cons b rest ih =>
    rw [cons_append, pokes, pokes, ih, length_cons]
    congr 1
    omega

/-! ### Copies -/

/-- **A copy into memory** succeeds if every byte is on a page, and then writes them all. -/
theorem copyTo_spec (hn : 0 < n) (hlimit : n ∣ limit) (bytes : List α) {fuel : ℕ}
    (hfuel : bytes.length ≤ fuel) (m : ℕ → α) :
    (Mapped n frames limit a bytes.length →
      copyTo n frames limit fuel a bytes m = (true, pokes n frames a bytes m)) ∧
    (¬ Mapped n frames limit a bytes.length →
      (copyTo n frames limit fuel a bytes m).1 = false) := by
  induction fuel generalizing a bytes m with
  | zero =>
    obtain rfl := eq_nil_of_length_eq_zero (Nat.le_zero.mp hfuel)
    exact ⟨fun _ => rfl, fun h => absurd (mapped_zero a) h⟩
  | succ fuel ih =>
    cases bytes with
    | nil => exact ⟨fun _ => rfl, fun h => absurd (mapped_zero a) h⟩
    | cons b rest =>
      rw [copyTo]
      by_cases ha : limit ≤ a
      · -- There is no such address.
        rw [if_pos ha]
        refine ⟨fun h => ?_, fun _ => rfl⟩
        have := (h 0 (Nat.succ_pos _)).1
        omega
      rw [if_neg ha]
      cases hframe : frames (a / n) with
      | none =>
        have hnone : translate n frames a = none := by rw [translate, hframe]; rfl
        rw [hnone]
        refine ⟨fun h => ?_, fun _ => rfl⟩
        have := (h 0 (Nat.succ_pos _)).2
        rw [Nat.add_zero, hframe] at this
        cases this
      | some f =>
        have hsome : translate n frames a = some (f * n + a % n) := by rw [translate, hframe]; rfl
        rw [hsome]
        dsimp only
        have hpage : 0 < n - a % n := Nat.sub_pos_of_lt (Nat.mod_lt a hn)
        generalize havailable : min (n - a % n) (rest.length + 1) = available
        have hpos : 0 < available := by omega
        have hpiece : a % n + available ≤ n := by omega
        have hle : available ≤ (b :: rest).length := by
          rw [length_cons]
          omega
        have htake : ((b :: rest).take available).length = available := by
          rw [length_take, Nat.min_eq_left hle]
        have hdrop : ((b :: rest).drop available).length ≤ fuel := by
          rw [length_drop]
          omega
        have hsplit : (b :: rest).length = available + ((b :: rest).drop available).length := by
          rw [length_drop]
          omega
        have hfirst : Mapped n frames limit a available :=
          mapped_piece hlimit (by omega) (by rw [hframe]; rfl) hpiece
        obtain ⟨hall, hnot⟩ := ih ((b :: rest).drop available) (a := a + available) hdrop
          (store (f * n + a % n) ((b :: rest).take available) m)
        rw [hsplit, mapped_add]
        constructor
        · rintro ⟨-, h⟩
          rw [hall h, store_eq_pokes _ hframe (by rwa [htake])]
          conv_rhs => rw [← take_append_drop available (b :: rest), pokes_append, htake]
        · intro h
          exact hnot fun hrest => h ⟨hfirst, hrest⟩

theorem view_same_page {f : ℕ} (hframe : frames (a / n) = some f) (hk : a % n + k < n)
    (m : ℕ → α) : view n frames m (a + k) = some (m (f * n + a % n + k)) := by
  obtain ⟨hdiv, hmod⟩ := same_page hk
  rw [view, translate, hdiv, hmod, hframe, add_assoc]
  rfl

/-- **A copy from memory** succeeds if every byte is on a page, and then reads them all. -/
theorem copyFrom_spec (hn : 0 < n) (hlimit : n ∣ limit) (m : ℕ → α) {count fuel a : ℕ}
    (hfuel : count ≤ fuel) :
    (Mapped n frames limit a count → ∃ l, copyFrom n frames limit m fuel a count = some l ∧
      l.length = count ∧ ∀ k (hk : k < l.length), view n frames m (a + k) = some l[k]) ∧
    (¬ Mapped n frames limit a count → copyFrom n frames limit m fuel a count = none) := by
  induction fuel generalizing a count with
  | zero =>
    obtain rfl := Nat.le_zero.mp hfuel
    exact ⟨fun _ => ⟨[], rfl, rfl, fun k hk => absurd hk (Nat.not_lt_zero k)⟩,
      fun h => absurd (mapped_zero a) h⟩
  | succ fuel ih =>
    cases count with
    | zero =>
      exact ⟨fun _ => ⟨[], rfl, rfl, fun k hk => absurd hk (Nat.not_lt_zero k)⟩,
        fun h => absurd (mapped_zero a) h⟩
    | succ rest =>
      rw [copyFrom]
      by_cases ha : limit ≤ a
      · rw [if_pos ha]
        refine ⟨fun h => ?_, fun _ => rfl⟩
        have := (h 0 (Nat.succ_pos _)).1
        omega
      rw [if_neg ha]
      cases hframe : frames (a / n) with
      | none =>
        have hnone : translate n frames a = none := by rw [translate, hframe]; rfl
        rw [hnone]
        refine ⟨fun h => ?_, fun _ => rfl⟩
        have := (h 0 (Nat.succ_pos _)).2
        rw [Nat.add_zero, hframe] at this
        cases this
      | some f =>
        have hsome : translate n frames a = some (f * n + a % n) := by rw [translate, hframe]; rfl
        rw [hsome]
        dsimp only
        have hpage : 0 < n - a % n := Nat.sub_pos_of_lt (Nat.mod_lt a hn)
        generalize havailable : min (n - a % n) (rest + 1) = available
        have hpiece : a % n + available ≤ n := by omega
        have hsplit : rest + 1 = available + (rest + 1 - available) := by omega
        have hfirst : Mapped n frames limit a available :=
          mapped_piece hlimit (by omega) (by rw [hframe]; rfl) hpiece
        obtain ⟨hall, hnot⟩ := @ih (rest + 1 - available) (a + available) (by omega)
        constructor
        · intro h
          rw [hsplit, mapped_add] at h
          obtain ⟨l, hl, hlength, hview⟩ := hall h.2
          refine ⟨_, by rw [hl]; rfl, ?_, fun k hk => ?_⟩
          · rw [length_append, length_map, length_range, hlength]
            omega
          · by_cases hlt : k < available
            · rw [view_same_page hframe (by omega),
                getElem_append_left (by rwa [length_map, length_range])]
              simp
            · have hk' : k - available < l.length := by
                rw [length_append, length_map, length_range] at hk
                omega
              have hat := hview (k - available) hk'
              rw [show a + available + (k - available) = a + k by omega] at hat
              rw [hat, getElem_append_right
                (by rw [length_map, length_range]; omega)]
              simp
        · intro h
          rw [hsplit, mapped_add] at h
          rw [hnot fun hrest => h ⟨hfirst, hrest⟩]
          rfl

/-! ### What is seen -/

/-- Different pages of a set have different frames. -/
def DistinctOn (frames : ℕ → Option ℕ) (pages : Set ℕ) : Prop :=
  ∀ p ∈ pages, ∀ q ∈ pages, ∀ f, frames p = some f → frames q = some f → p = q

/-- One element is written. -/
theorem view_poke (hn : 0 < n) {pages : Set ℕ} (hdistinct : DistinctOn frames pages) {x : ℕ}
    (ha : a / n ∈ pages) (hframe : (frames (a / n)).isSome = true) (b : α) (m : ℕ → α)
    (hx : x / n ∈ pages) :
    view n frames (poke n frames a b m) x = if x = a then some b else view n frames m x := by
  obtain ⟨f, hf⟩ := Option.isSome_iff_exists.mp hframe
  have hpoke : poke n frames a b m = Function.update m (f * n + a % n) b := by
    simp only [poke, translate, hf, Option.map_some]
  rw [hpoke]
  by_cases hxa : x = a
  · subst hxa
    simp only [view, translate, hf, Option.map_some, Function.update_self, if_true]
  · rw [if_neg hxa, view, view, translate]
    cases hg : frames (x / n) with
    | none => rfl
    | some g =>
      show some _ = some _
      rw [Function.update_of_ne]
      -- The same place would be the same frame and the same offset in it.
      intro hplace
      replace hplace : g * n + x % n = f * n + a % n := hplace
      have hxn := mod_lt x hn
      have han := mod_lt a hn
      have hfg : g = f := by
        have hdiv : (g * n + x % n) / n = (f * n + a % n) / n := by rw [hplace]
        rwa [mul_comm g, mul_comm f, mul_add_div hn, mul_add_div hn,
          div_eq_of_lt hxn, div_eq_of_lt han] at hdiv
      subst hfg
      have hpage := hdistinct _ hx _ ha g hg hf
      have hoffset : x % n = a % n := by omega
      rw [← mod_add_div x n, ← mod_add_div a n, hpage, hoffset] at hxa
      exact hxa rfl

/-- **What is seen after a copy**: the bytes where they were written, and elsewhere what was seen
before. -/
theorem view_pokes (hn : 0 < n) {pages : Set ℕ} (hdistinct : DistinctOn frames pages)
    (bytes : List α) (hpages : ∀ k < bytes.length, (a + k) / n ∈ pages)
    (hframes : ∀ k < bytes.length, (frames ((a + k) / n)).isSome = true) (m : ℕ → α) {x : ℕ}
    (hx : x / n ∈ pages) :
    view n frames (pokes n frames a bytes m) x =
      if a ≤ x ∧ x < a + bytes.length then bytes[x - a]? else view n frames m x := by
  induction bytes generalizing a m with
  | nil =>
    rw [pokes, if_neg]
    rintro ⟨hle, hlt⟩
    rw [length_nil] at hlt
    omega
  | cons b rest ih =>
    rw [length_cons] at hpages hframes
    have hrest : ∀ k, a + 1 + k = a + (k + 1) := fun k => by omega
    have hpage : a / n ∈ pages := hpages 0 (Nat.succ_pos _)
    have hframe : (frames (a / n)).isSome = true := hframes 0 (Nat.succ_pos _)
    rw [pokes, ih (fun k hk => by rw [hrest]; exact hpages _ (by omega))
      (fun k hk => by rw [hrest]; exact hframes _ (by omega)),
      view_poke hn hdistinct hpage hframe b m hx, length_cons]
    by_cases hxa : x = a
    · subst hxa
      rw [if_neg (by omega), if_pos rfl, if_pos (by omega), Nat.sub_self]
      rfl
    · rw [if_neg hxa]
      by_cases hin : a + 1 ≤ x ∧ x < a + 1 + rest.length
      · rw [if_pos hin, if_pos (by omega), show x - a = x - (a + 1) + 1 by omega,
          List.getElem?_cons_succ]
      · rw [if_neg hin, if_neg (by omega)]

end ImagineOS.Paged
