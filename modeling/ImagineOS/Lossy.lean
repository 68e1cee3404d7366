import ImagineOS.Utf8

/-!
# UTF-8: replacing what is malformed

A list of bytes is cut into sequences: a first byte, and those after it that continue it, up to the
end of a character. A sequence that is not a character is replaced as a whole.
-/

namespace ImagineOS.Utf8

open List Nat

instance : DecidablePred IsTail := fun _ => inferInstanceAs (Decidable (_ ∧ _))

/-- The bytes that may follow a first byte: not those of a longer encoding than is needed, of a
surrogate or of a number that is too large. -/
def Second (b t : UInt8) : Prop :=
  if b.toNat = 0xe0 then 0xa0 ≤ t.toNat ∧ t.toNat ≤ 0xbf
  else if b.toNat = 0xed then 0x80 ≤ t.toNat ∧ t.toNat ≤ 0x9f
  else if b.toNat = 0xf0 then 0x90 ≤ t.toNat ∧ t.toNat ≤ 0xbf
  else if b.toNat = 0xf4 then 0x80 ≤ t.toNat ∧ t.toNat ≤ 0x8f
  else IsTail t

instance (b t : UInt8) : Decidable (Second b t) := by unfold Second; infer_instance

/-- How many of the first `n` bytes are no first bytes, up to one that is. -/
def countTails : ℕ → List UInt8 → ℕ
  | 0, _ => 0
  | _ + 1, [] => 0
  | n + 1, t :: ts => if IsTail t then countTails n ts + 1 else 0

/-- How many bytes continue the first byte. -/
def matched (b : UInt8) : List UInt8 → ℕ
  | [] => 0
  | t :: ts =>
    match tails b with
    | some (n + 1) => if Second b t then countTails n ts + 1 else 0
    | _ => 0

/-- The character of a sequence. -/
def firstChar (b : UInt8) (rest : List UInt8) : Char :=
  if tails b = some (matched b rest) then Char.ofNat (value b (rest.take (matched b rest)))
  else replacement

/-- The characters of the sequences of some bytes. -/
def lossy : List UInt8 → List Char
  | [] => []
  | b :: rest => firstChar b rest :: lossy (rest.drop (matched b rest))
termination_by bytes => bytes.length
decreasing_by simp only [List.length_cons, List.length_drop]; omega

/-- A cut inside a sequence. -/
def Splits (as bs : List UInt8) : Prop :=
  ∃ front b ts t back, as = front ++ b :: ts ∧ bs = t :: back ∧
    matched b (ts ++ [t]) = ts.length + 1

variable {b t : UInt8} {rest more as bs : List UInt8} {n : ℕ}

theorem Second.isTail (h : Second b t) : IsTail t := by
  unfold Second at h
  unfold IsTail at h ⊢
  split_ifs at h <;> omega

/-! ### Sequences -/

theorem countTails_le (n : ℕ) (ts : List UInt8) : countTails n ts ≤ ts.length := by
  induction ts generalizing n with
  | nil => cases n <;> exact le_refl 0
  | cons t ts ih =>
    cases n with
    | zero => exact zero_le _
    | succ n =>
      rw [countTails]
      split
      · exact succ_le_succ (ih n)
      · exact zero_le _

theorem isTail_of_countTails (n : ℕ) (ts : List UInt8) :
    ∀ t ∈ ts.take (countTails n ts), IsTail t := by
  induction ts generalizing n with
  | nil => simp
  | cons t ts ih =>
    cases n with
    | zero => nofun
    | succ n =>
      rw [countTails]
      split
      · rename_i ht
        exact forall_mem_cons.mpr ⟨ht, ih n⟩
      · nofun

theorem countTails_append (n : ℕ) (ts more : List UInt8) :
    countTails n (ts ++ more) = countTails n ts ∨
      countTails n ts = ts.length ∧ ∃ t back, more = t :: back ∧
        countTails n (ts ++ [t]) = ts.length + 1 := by
  induction ts generalizing n with
  | nil =>
    cases n with
    | zero => exact .inl rfl
    | succ n =>
      cases more with
      | nil => exact .inl rfl
      | cons t back =>
        by_cases ht : IsTail t
        · refine .inr ⟨rfl, t, back, rfl, ?_⟩
          rw [nil_append, countTails, if_pos ht]
          cases n <;> rfl
        · refine .inl ?_
          simp only [nil_append, countTails, if_neg ht]
  | cons x ts ih =>
    cases n with
    | zero => exact .inl rfl
    | succ n =>
      by_cases hx : IsTail x
      · simp only [cons_append, countTails, if_pos hx, length_cons]
        rcases ih n with heq | ⟨hall, t, back, hmore, hnext⟩
        · exact .inl (congrArg Nat.succ heq)
        · exact .inr ⟨congrArg Nat.succ hall, t, back, hmore, congrArg Nat.succ hnext⟩
      · simp only [cons_append, countTails, if_neg hx]
        exact .inl trivial

theorem matched_le (b : UInt8) (rest : List UInt8) : matched b rest ≤ rest.length := by
  unfold matched
  split
  · exact le_refl 0
  · split
    · split
      · exact succ_le_succ (countTails_le _ _)
      · exact zero_le _
    · exact zero_le _

theorem isTail_of_matched (b : UInt8) (rest : List UInt8) :
    ∀ t ∈ rest.take (matched b rest), IsTail t := by
  unfold matched
  split
  · nofun
  · split
    · split
      · rename_i hsecond
        exact forall_mem_cons.mpr ⟨hsecond.isTail, isTail_of_countTails _ _⟩
      · nofun
    · nofun

theorem matched_eq_zero (h : ∀ n, tails b ≠ some (n + 1)) (rest : List UInt8) :
    matched b rest = 0 := by
  unfold matched
  split
  · rfl
  · split
    · rename_i n hn
      exact absurd hn (h n)
    · rfl

theorem matched_cons (h : tails b = some (n + 1)) (t : UInt8) (ts : List UInt8) :
    matched b (t :: ts) = if Second b t then countTails n ts + 1 else 0 := by
  simp only [matched, h]

/-- More bytes matter only when all there are continue the first byte. -/
theorem matched_append (b : UInt8) (rest more : List UInt8) :
    matched b (rest ++ more) = matched b rest ∨
      matched b rest = rest.length ∧ ∃ t back, more = t :: back ∧
        matched b (rest ++ [t]) = rest.length + 1 := by
  by_cases hmore : ∃ n, tails b = some (n + 1)
  · obtain ⟨n, hn⟩ := hmore
    cases rest with
    | nil =>
      cases more with
      | nil => exact .inl rfl
      | cons t back =>
        by_cases ht : Second b t
        · refine .inr ⟨rfl, t, back, rfl, ?_⟩
          rw [nil_append, matched_cons hn, if_pos ht]
          cases n <;> rfl
        · refine .inl ?_
          rw [nil_append, matched_cons hn, if_neg ht]
          rfl
    | cons x ts =>
      by_cases hx : Second b x
      · simp only [cons_append, matched_cons hn, if_pos hx, length_cons]
        rcases countTails_append n ts more with heq | ⟨hall, t, back, hback, hnext⟩
        · exact .inl (congrArg Nat.succ heq)
        · exact .inr ⟨congrArg Nat.succ hall, t, back, hback, congrArg Nat.succ hnext⟩
      · simp only [cons_append, matched_cons hn, if_neg hx]
        exact .inl trivial
  · have hnone : ∀ n, tails b ≠ some (n + 1) := fun n hn => hmore ⟨n, hn⟩
    rw [matched_eq_zero hnone, matched_eq_zero hnone]
    exact .inl rfl

theorem countTails_mono (n : ℕ) (ts more : List UInt8) :
    countTails n ts ≤ countTails n (ts ++ more) := by
  induction ts generalizing n with
  | nil => cases n <;> exact zero_le _
  | cons x ts ih =>
    cases n with
    | zero => exact le_refl _
    | succ n =>
      simp only [cons_append, countTails]
      split
      · exact succ_le_succ (ih n)
      · exact le_refl _

theorem matched_mono (b : UInt8) (rest more : List UInt8) :
    matched b rest ≤ matched b (rest ++ more) := by
  cases rest with
  | nil => exact zero_le _
  | cons t ts =>
    simp only [cons_append, matched]
    split
    · split
      · exact succ_le_succ (countTails_mono _ ts more)
      · exact le_refl _
    · exact le_refl _

theorem countTails_le_left (n : ℕ) (ts : List UInt8) : countTails n ts ≤ n := by
  induction ts generalizing n with
  | nil => cases n <;> exact zero_le _
  | cons t ts ih =>
    cases n with
    | zero => exact le_refl _
    | succ n =>
      rw [countTails]
      split
      · exact succ_le_succ (ih n)
      · exact zero_le _

theorem matched_le_tails (h : tails b = some n) (rest : List UInt8) : matched b rest ≤ n := by
  cases n with
  | zero =>
    refine (matched_eq_zero (fun n hn => ?_) rest).le
    rw [h] at hn
    cases hn
  | succ n =>
    cases rest with
    | nil => exact zero_le _
    | cons t ts =>
      rw [matched_cons h]
      split
      · exact succ_le_succ (countTails_le_left n ts)
      · exact zero_le _

theorem tails_of_matched (h : 0 < matched b rest) : ∃ n, tails b = some n := by
  cases hn : tails b with
  | some n => exact ⟨n, rfl⟩
  | none =>
    rw [matched_eq_zero (fun n hn' => by rw [hn] at hn'; cases hn')] at h
    exact absurd h (lt_irrefl 0)

/-! ### Cuts -/

theorem lossy_cons (b : UInt8) (rest : List UInt8) :
    lossy (b :: rest) = firstChar b rest :: lossy (rest.drop (matched b rest)) := by
  rw [lossy]

theorem firstChar_append (h : matched b (rest ++ more) = matched b rest) :
    firstChar b (rest ++ more) = firstChar b rest := by
  rw [firstChar, firstChar, h, take_append_of_le_length (matched_le b rest)]

theorem Splits.of_suffix {front : List UInt8} (h : Splits as bs) : Splits (front ++ as) bs := by
  obtain ⟨f, b, ts, t, back, rfl, rfl, hmatched⟩ := h
  exact ⟨front ++ f, b, ts, t, back, (append_assoc _ _ _).symm, rfl, hmatched⟩

theorem Splits.drop_first (h : Splits (b :: rest) bs)
    (heq : matched b (rest ++ bs) = matched b rest) : Splits (rest.drop (matched b rest)) bs := by
  obtain ⟨front, lead, ts, t, back, hfront, rfl, hmatched⟩ := h
  cases front with
  | nil =>
    obtain ⟨rfl, rfl⟩ := List.cons.inj hfront
    have hmono := matched_mono b (rest ++ [t]) back
    have hle := matched_le b rest
    rw [append_assoc, singleton_append] at hmono
    omega
  | cons b' front =>
    obtain ⟨rfl, rfl⟩ := List.cons.inj hfront
    obtain ⟨n, hn⟩ := tails_of_matched (show 0 < matched lead (ts ++ [t]) by omega)
    have hle : matched b (front ++ lead :: ts) ≤ front.length := by
      by_contra hlt
      refine not_isTail_of_tails hn (isTail_of_matched b (front ++ lead :: ts) lead ?_)
      rw [take_append, mem_append]
      refine .inr ?_
      rw [show matched b (front ++ lead :: ts) - front.length =
        matched b (front ++ lead :: ts) - front.length - 1 + 1 by omega, take_succ_cons]
      exact mem_cons_self
    refine ⟨front.drop (matched b (front ++ lead :: ts)), lead, ts, t, back, ?_, rfl, hmatched⟩
    exact drop_append_of_le_length hle

/-- **A cut between sequences** leaves the characters alone. -/
theorem lossy_append (h : ¬ Splits as bs) : lossy (as ++ bs) = lossy as ++ lossy bs := by
  fun_induction lossy as with
  | case1 => rfl
  | case2 b rest ih =>
    rcases matched_append b rest bs with heq | ⟨-, t, back, rfl, hnext⟩
    · have hdrop : (rest ++ bs).drop (matched b rest) = rest.drop (matched b rest) ++ bs :=
        drop_append_of_le_length (matched_le b rest)
      have hrest : ¬ Splits (rest.drop (matched b rest)) bs := by
        intro hsplits
        have hsuffix := @Splits.of_suffix _ _ (b :: rest.take (matched b rest)) hsplits
        rw [cons_append, take_append_drop] at hsuffix
        exact h hsuffix
      rw [cons_append, lossy_cons, firstChar_append heq, heq, hdrop, ih hrest]
      rfl
    · exact absurd ⟨[], b, rest, t, back, rfl, rfl, hnext⟩ h

/-! ### Counting -/

section Count

variable {p : Char → Bool}

theorem lossy_tails {ts : List UInt8} (hts : ∀ t ∈ ts, IsTail t) (back : List UInt8) :
    lossy (ts ++ back) = List.replicate ts.length replacement ++ lossy back := by
  induction ts with
  | nil => rfl
  | cons t ts ih =>
    rw [forall_mem_cons] at hts
    have htails : tails t = none := by
      have ht := hts.1
      unfold IsTail at ht
      rw [tails, if_neg (by omega), if_neg (by omega), if_neg (by omega), if_neg (by omega)]
    have hmatched : matched t (ts ++ back) = 0 :=
      matched_eq_zero (fun n hn => by rw [htails] at hn; cases hn) _
    rw [cons_append, lossy_cons, hmatched, drop_zero, ih hts.2, firstChar, htails, if_neg (by simp)]
    rfl

/-- **A cut inside a sequence** makes more characters of it. -/
theorem count_lossy_append_lt (hp : p replacement = true) (h : Splits as bs) :
    (lossy (as ++ bs)).countP p < (lossy as).countP p + (lossy bs).countP p := by
  fun_induction lossy as with
  | case1 =>
    obtain ⟨front, b, ts, t, back, hfront, -⟩ := h
    exact absurd hfront.symm (by simp)
  | case2 b rest ih =>
    rcases matched_append b rest bs with heq | ⟨hall, t, back, rfl, hnext⟩
    · have hdrop : (rest ++ bs).drop (matched b rest) = rest.drop (matched b rest) ++ bs :=
        drop_append_of_le_length (matched_le b rest)
      have hrest : Splits (rest.drop (matched b rest)) bs := h.drop_first heq
      rw [cons_append, lossy_cons, firstChar_append heq, heq, hdrop, countP_cons, countP_cons]
      have hlt := ih hrest
      omega
    · -- The bytes that continue the sequence are replaced one by one behind the cut.
      have hmono := matched_mono b (rest ++ [t]) back
      rw [append_assoc, singleton_append] at hmono
      have hle := matched_le b (rest ++ t :: back)
      rw [length_append] at hle
      have htails := isTail_of_matched b (rest ++ t :: back)
      rw [take_append, take_of_length_le (by omega)] at htails
      have hbehind : lossy (t :: back) =
          List.replicate (matched b (rest ++ t :: back) - rest.length) replacement ++
            lossy ((t :: back).drop (matched b (rest ++ t :: back) - rest.length)) := by
        conv_lhs => rw [← take_append_drop (matched b (rest ++ t :: back) - rest.length)
          (t :: back)]
        rw [lossy_tails fun x hx => htails x (mem_append_right _ hx), length_take,
          min_eq_left (by omega)]
      have hfirst : firstChar b rest = replacement := by
        obtain ⟨n, hn⟩ := tails_of_matched (show 0 < matched b (rest ++ [t]) by omega)
        have hn' := matched_le_tails hn (rest ++ [t])
        rw [firstChar, if_neg]
        intro heq
        have := Option.some.inj (hn.symm.trans heq)
        omega
      have hdrop : (rest ++ t :: back).drop (matched b (rest ++ t :: back)) =
          (t :: back).drop (matched b (rest ++ t :: back) - rest.length) := by
        rw [drop_append, drop_eq_nil_of_le (by omega), nil_append]
      have hone : (if p (firstChar b (rest ++ t :: back)) = true then 1 else 0) ≤ 1 := by
        split <;> omega
      rw [cons_append, lossy_cons, hdrop, hbehind, hfirst, countP_cons, countP_cons,
        countP_append, countP_replicate, if_pos hp, if_pos hp]
      omega

theorem count_lossy_append_le (hp : p replacement = true) (as bs : List UInt8) :
    (lossy (as ++ bs)).countP p ≤ (lossy as).countP p + (lossy bs).countP p := by
  by_cases h : Splits as bs
  · exact (count_lossy_append_lt hp h).le
  · rw [lossy_append h, countP_append]

end Count

end ImagineOS.Utf8
