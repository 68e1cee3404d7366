import Mathlib.Data.List.Basic
import Mathlib.Tactic.Ring

/-!
# UTF-8

A scalar value is encoded by a first byte and up to three more, which are of another kind. So a
character begins at every first byte and nowhere else: in a list of bytes the characters do not
overlap, and what is not part of one is garbage.
-/

namespace ImagineOS.Utf8

open List

/-- The encoding of a character. -/
abbrev encode (c : Char) : List UInt8 := String.utf8EncodeChar c

/-- The encoding of a text. -/
def encodeText (text : List Char) : List UInt8 := text.flatMap encode

/-- A byte that is not the first of its character. -/
def IsTail (b : UInt8) : Prop := 128 ≤ b.toNat ∧ b.toNat < 192

/-- How many bytes follow a first byte. -/
def tails (b : UInt8) : Option ℕ :=
  if b.toNat < 128 then some 0
  else if 194 ≤ b.toNat ∧ b.toNat < 224 then some 1
  else if 224 ≤ b.toNat ∧ b.toNat < 240 then some 2
  else if 240 ≤ b.toNat ∧ b.toNat < 245 then some 3
  else none

/-- What a first byte contributes to the number, when `n` bytes follow. -/
def leadBits (b : UInt8) : ℕ → ℕ
  | 0 => b.toNat
  | 1 => b.toNat % 32
  | 2 => b.toNat % 16
  | _ => b.toNat % 8

/-- The number in some bytes that are not first ones, after `v`. -/
def appendTails (v : ℕ) (ts : List UInt8) : ℕ := ts.foldl (fun v t => 64 * v + t.toNat % 64) v

/-- The number in a first byte and those that follow. -/
def value (b : UInt8) (ts : List UInt8) : ℕ := appendTails (leadBits b ts.length) ts

/-- The least number that `n` bytes after the first are needed for. -/
def least : ℕ → ℕ
  | 0 => 0
  | 1 => 0x80
  | 2 => 0x800
  | _ => 0x10000

variable {b t : UInt8} {ts g bs : List UInt8} {c : Char} {text out : List Char}

/-! ### Encodings -/

theorem tails_le {n : ℕ} (h : tails b = some n) : n ≤ 3 := by
  unfold tails at h
  split_ifs at h <;> cases h <;> omega

theorem appendTails_lt {v k : ℕ} (h : v < k) (ts : List UInt8) :
    appendTails v ts < k * 64 ^ ts.length := by
  induction ts generalizing v k with
  | nil => simpa [appendTails] using h
  | cons t ts ih =>
    have hstep : 64 * v + t.toNat % 64 < 64 * k := by omega
    calc appendTails v (t :: ts) = appendTails (64 * v + t.toNat % 64) ts := rfl
      _ < 64 * k * 64 ^ ts.length := ih hstep
      _ = k * 64 ^ (t :: ts).length := by rw [length_cons, pow_succ]; ring

theorem appendTails_concat (v : ℕ) (ts : List UInt8) (t : UInt8) :
    appendTails v (ts ++ [t]) = 64 * appendTails v ts + t.toNat % 64 := by
  rw [appendTails, foldl_append]
  rfl

theorem leadBits_lt (b : UInt8) (n : ℕ) : leadBits b n < 256 := by
  have hb : b.toNat < 256 := b.toNat_lt
  unfold leadBits
  split <;> omega

theorem not_isTail_of_tails {n : ℕ} (h : tails b = some n) : ¬ IsTail b := by
  unfold tails at h
  unfold IsTail
  split_ifs at h <;> omega

theorem toNat_lt (c : Char) : c.toNat < 0x110000 := by
  have hvalid : c.toNat < 0xd800 ∨ 0xdfff < c.toNat ∧ c.toNat < 0x110000 := c.valid
  omega

theorem encode_def (c : Char) : encode c =
    if c.toNat ≤ 0x7f then [UInt8.ofNat c.toNat]
    else if c.toNat ≤ 0x7ff then
      [UInt8.ofNat (c.toNat / 64 % 32 + 0xc0), UInt8.ofNat (c.toNat % 64 + 0x80)]
    else if c.toNat ≤ 0xffff then
      [UInt8.ofNat (c.toNat / 4096 % 16 + 0xe0), UInt8.ofNat (c.toNat / 64 % 64 + 0x80),
        UInt8.ofNat (c.toNat % 64 + 0x80)]
    else
      [UInt8.ofNat (c.toNat / 262144 % 8 + 0xf0), UInt8.ofNat (c.toNat / 4096 % 64 + 0x80),
        UInt8.ofNat (c.toNat / 64 % 64 + 0x80), UInt8.ofNat (c.toNat % 64 + 0x80)] := rfl

theorem isTail_ofNat (n : ℕ) : IsTail (UInt8.ofNat (n % 64 + 0x80)) := by
  have hlt : n % 64 + 0x80 < 256 := by omega
  rw [IsTail, UInt8.toNat_ofNat_of_lt' hlt]
  omega

theorem ofNat_tail (h : IsTail t) : UInt8.ofNat (t.toNat % 64 + 0x80) = t := by
  obtain ⟨hlow, hhigh⟩ := h
  rw [show t.toNat % 64 + 0x80 = t.toNat by omega, UInt8.ofNat_toNat]

/-- The parts of an encoding. -/
theorem encode_spec (c : Char) : ∃ b ts, encode c = b :: ts ∧ tails b = some ts.length ∧
    (∀ t ∈ ts, IsTail t) ∧ value b ts = c.toNat ∧ least ts.length ≤ c.toNat := by
  have hc := toNat_lt c
  have hlead {n : ℕ} (h : n < 256) : (UInt8.ofNat n).toNat = n := UInt8.toNat_ofNat_of_lt' h
  rw [encode_def]
  split_ifs with h₁ h₂ h₃
  · refine ⟨_, [], rfl, ?_, nofun, ?_, Nat.zero_le _⟩
    · rw [tails, hlead (by omega), if_pos (by omega)]
      rfl
    · exact hlead (by omega)
  · refine ⟨_, [_], rfl, ?_, ?_, ?_, ?_⟩
    · rw [tails, hlead (by omega), if_neg (by omega), if_pos (by omega)]
      rfl
    · exact forall_mem_cons.mpr ⟨isTail_ofNat _, nofun⟩
    · simp only [value, leadBits, appendTails, length_cons, length_nil, foldl_cons, foldl_nil]
      rw [hlead (by omega), hlead (by omega)]
      omega
    · simp only [least, length_cons, length_nil]
      omega
  · refine ⟨_, [_, _], rfl, ?_, ?_, ?_, ?_⟩
    · rw [tails, hlead (by omega), if_neg (by omega), if_neg (by omega), if_pos (by omega)]
      rfl
    · exact forall_mem_cons.mpr ⟨isTail_ofNat _, forall_mem_cons.mpr ⟨isTail_ofNat _, nofun⟩⟩
    · simp only [value, leadBits, appendTails, length_cons, length_nil, foldl_cons, foldl_nil]
      rw [hlead (by omega), hlead (by omega), hlead (by omega)]
      omega
    · simp only [least, length_cons, length_nil]
      omega
  · refine ⟨_, [_, _, _], rfl, ?_, ?_, ?_, ?_⟩
    · rw [tails, hlead (by omega), if_neg (by omega), if_neg (by omega), if_neg (by omega),
        if_pos (by omega)]
      rfl
    · exact forall_mem_cons.mpr ⟨isTail_ofNat _, forall_mem_cons.mpr ⟨isTail_ofNat _,
        forall_mem_cons.mpr ⟨isTail_ofNat _, nofun⟩⟩⟩
    · simp only [value, leadBits, appendTails, length_cons, length_nil, foldl_cons, foldl_nil]
      rw [hlead (by omega), hlead (by omega), hlead (by omega), hlead (by omega)]
      omega
    · simp only [least, length_cons, length_nil]
      omega

/-- What has the parts of an encoding is one. -/
theorem encode_of_parts (htails : tails b = some ts.length) (hts : ∀ t ∈ ts, IsTail t)
    (hvalue : value b ts = c.toNat) (hleast : least ts.length ≤ c.toNat) : encode c = b :: ts := by
  have hlength := tails_le htails
  unfold tails at htails
  simp only [value, appendTails] at hvalue
  rw [encode_def]
  match ts, hlength with
  | [], _ =>
    have hb : b.toNat < 128 := by split_ifs at htails <;> simp_all
    simp only [length_nil, leadBits, foldl_nil] at hvalue
    rw [if_pos (by omega), ← hvalue, UInt8.ofNat_toNat]
  | [x], _ =>
    have hb : 194 ≤ b.toNat ∧ b.toNat < 224 := by split_ifs at htails <;> simp_all
    have hx := hts x (by simp)
    simp only [length_cons, length_nil, leadBits, foldl_cons, foldl_nil, least]
      at hvalue hleast
    have hlead : c.toNat / 64 % 32 + 0xc0 = b.toNat := by omega
    have hlast : c.toNat % 64 = x.toNat % 64 := by omega
    rw [if_neg (by omega), if_pos (by omega), hlead, hlast, UInt8.ofNat_toNat, ofNat_tail hx]
  | [x, y], _ =>
    have hb : 224 ≤ b.toNat ∧ b.toNat < 240 := by split_ifs at htails <;> simp_all
    have hx := hts x (by simp)
    have hy := hts y (by simp)
    simp only [length_cons, length_nil, leadBits, foldl_cons, foldl_nil, least]
      at hvalue hleast
    have hlead : c.toNat / 4096 % 16 + 0xe0 = b.toNat := by omega
    have hnext : c.toNat / 64 % 64 = x.toNat % 64 := by omega
    have hlast : c.toNat % 64 = y.toNat % 64 := by omega
    rw [if_neg (by omega), if_neg (by omega), if_pos (by omega), hlead, hnext, hlast,
      UInt8.ofNat_toNat, ofNat_tail hx, ofNat_tail hy]
  | [x, y, z], _ =>
    have hb : 240 ≤ b.toNat ∧ b.toNat < 245 := by split_ifs at htails <;> simp_all
    have hx := hts x (by simp)
    have hy := hts y (by simp)
    have hz := hts z (by simp)
    simp only [length_cons, length_nil, leadBits, foldl_cons, foldl_nil, least]
      at hvalue hleast
    have hlead : c.toNat / 262144 % 8 + 0xf0 = b.toNat := by omega
    have hnext : c.toNat / 4096 % 64 = x.toNat % 64 := by omega
    have hthird : c.toNat / 64 % 64 = y.toNat % 64 := by omega
    have hlast : c.toNat % 64 = z.toNat % 64 := by omega
    rw [if_neg (by omega), if_neg (by omega), if_neg (by omega), hlead, hnext, hthird, hlast,
      UInt8.ofNat_toNat, ofNat_tail hx, ofNat_tail hy, ofNat_tail hz]

/-- **The encodings**: a first byte and as many others as it needs, which make the number of the
character, if no shorter encoding does. -/
theorem encode_eq_iff : encode c = b :: ts ↔ tails b = some ts.length ∧ (∀ t ∈ ts, IsTail t) ∧
    value b ts = c.toNat ∧ least ts.length ≤ c.toNat := by
  constructor
  · intro h
    obtain ⟨b', ts', hencode, hparts⟩ := encode_spec c
    rw [h] at hencode
    obtain ⟨rfl, rfl⟩ := List.cons.inj hencode
    exact hparts
  · rintro ⟨htails, hts, hvalue, hleast⟩
    exact encode_of_parts htails hts hvalue hleast

/-! ### Where characters begin -/

/-- A character begins with the first byte. -/
def Starts (bs : List UInt8) : Prop := ∃ c rest, bs = encode c ++ rest

theorem not_starts_nil : ¬ Starts [] := by
  rintro ⟨c, rest, h⟩
  obtain ⟨b, ts, hencode, -⟩ := encode_spec c
  rw [hencode] at h
  cases h

theorem starts_cons (h : Starts (b :: bs)) : ∃ c n, tails b = some n ∧ n ≤ bs.length ∧
    (∀ t ∈ bs.take n, IsTail t) ∧ encode c = b :: bs.take n := by
  obtain ⟨c, rest, h⟩ := h
  obtain ⟨b', ts, hencode, htails, hts, -⟩ := encode_spec c
  rw [hencode, cons_append] at h
  obtain ⟨rfl, rfl⟩ := List.cons.inj h
  refine ⟨c, ts.length, htails, ?_, ?_, ?_⟩
  · rw [length_append]
    exact Nat.le_add_right _ _
  · rw [take_left]
    exact hts
  · rw [take_left]
    exact hencode

theorem not_starts_of_tails_eq_none (h : tails b = none) : ¬ Starts (b :: bs) := by
  intro hstarts
  obtain ⟨c, n, htails, -⟩ := starts_cons hstarts
  rw [h] at htails
  cases htails

theorem not_starts_of_isTail (h : IsTail b) : ¬ Starts (b :: bs) := by
  intro hstarts
  obtain ⟨c, n, htails, -⟩ := starts_cons hstarts
  exact not_isTail_of_tails htails h

theorem not_starts_of_short {n : ℕ} (htails : tails b = some n) (hshort : ts.length < n)
    (hbs : ∀ t rest, bs = t :: rest → ¬ IsTail t) : ¬ Starts (b :: (ts ++ bs)) := by
  intro hstarts
  obtain ⟨c, m, hm, hle, htake, -⟩ := starts_cons hstarts
  obtain rfl : n = m := Option.some.inj (htails.symm.trans hm)
  cases bs with
  | nil =>
    rw [append_nil] at hle
    omega
  | cons t rest =>
    refine hbs t rest rfl (htake t ?_)
    rw [take_append, take_of_length_le hshort.le]
    have hone : n - ts.length = (n - ts.length - 1) + 1 := by omega
    rw [hone, take_succ_cons]
    simp

theorem not_starts_of_not_encode (htails : tails b = some ts.length)
    (h : ∀ c, encode c ≠ b :: ts) : ¬ Starts (b :: (ts ++ bs)) := by
  intro hstarts
  obtain ⟨c, m, hm, -, -, hencode⟩ := starts_cons hstarts
  obtain rfl : ts.length = m := Option.some.inj (htails.symm.trans hm)
  rw [take_left] at hencode
  exact h c hencode

theorem encode_inj {c' : Char} (h : encode c = encode c') : c = c' := by
  obtain ⟨b, ts, hencode, -, -, hvalue, -⟩ := encode_spec c
  obtain ⟨-, -, hvalue', -⟩ := encode_eq_iff.mp (h.symm.trans hencode)
  exact Char.toNat_inj.mp (hvalue.symm.trans hvalue')

theorem encode_append_inj {c' : Char} {xs ys : List UInt8} (h : encode c ++ xs = encode c' ++ ys) :
    c = c' ∧ xs = ys := by
  obtain ⟨b, ts, hencode, htails, -⟩ := encode_spec c
  obtain ⟨b', ts', hencode', htails', -⟩ := encode_spec c'
  have hfirst : b = b' := by
    rw [hencode, hencode'] at h
    exact (List.cons.inj h).1
  have hlength : (encode c).length = (encode c').length := by
    rw [hfirst, htails'] at htails
    rw [hencode, hencode', length_cons, length_cons, Option.some.inj htails]
  obtain ⟨henc, hrest⟩ := append_inj h hlength
  exact ⟨encode_inj henc, hrest⟩

theorem Starts.append (h : Starts g) (bs : List UInt8) : Starts (g ++ bs) := by
  obtain ⟨c, rest, rfl⟩ := h
  exact ⟨c, rest ++ bs, append_assoc _ _ _⟩

/-! ### Decoding -/

/-- The replacement character. -/
def replacement : Char := '\ufffd'

/-- What bytes are decoded to: the characters where they begin, and at most one replacement for
every other byte. -/
inductive Decoded : List UInt8 → List Char → Prop
  | nil : Decoded [] []
  | char (c : Char) {bs : List UInt8} {out : List Char} (h : Decoded bs out) :
    Decoded (encode c ++ bs) (c :: out)
  | skip {b : UInt8} {bs : List UInt8} {out : List Char} (hb : ¬ Starts (b :: bs))
    (h : Decoded bs out) : Decoded (b :: bs) out
  | replace {b : UInt8} {bs : List UInt8} {out : List Char} (hb : ¬ Starts (b :: bs))
    (h : Decoded bs out) : Decoded (b :: bs) (replacement :: out)

theorem Decoded.skip_tails (hts : ∀ t ∈ ts, IsTail t) (h : Decoded bs out) :
    Decoded (ts ++ bs) out := by
  induction ts with
  | nil => exact h
  | cons t ts ih =>
    rw [forall_mem_cons] at hts
    exact (ih hts.2).skip (not_starts_of_isTail hts.1)

theorem Decoded.eq_nil (h : Decoded [] out) : out = [] := by
  generalize hbytes : ([] : List UInt8) = bytes at h
  cases h with
  | nil => rfl
  | char c h =>
    obtain ⟨b, ts, hencode, -⟩ := encode_spec c
    rw [hencode] at hbytes
    cases hbytes
  | skip => cases hbytes
  | replace => cases hbytes

theorem split_before {ts : List UInt8} (hts : ∀ t ∈ ts, IsTail t)
    (h : ts ++ bs = g ++ encodeText text) : ∃ a, g = ts ++ a ∧ bs = a ++ encodeText text := by
  rcases append_eq_append_iff.mp h with ⟨a, hg, hbs⟩ | ⟨a, hg, htext⟩
  · exact ⟨a, hg, hbs⟩
  · cases a with
    | nil => exact ⟨[], by rw [hg, append_nil, append_nil], htext.symm⟩
    | cons t a =>
      -- A byte that is not a first one would begin the text.
      cases text with
      | nil => cases htext
      | cons c text =>
        have ht : IsTail t := hts t (by rw [hg]; simp)
        exact absurd ⟨c, encodeText text, htext.symm⟩ (not_starts_of_isTail ht)

/-- **A text is decoded to itself**, whatever stands before it. -/
theorem Decoded.append (h : Decoded (g ++ encodeText text) out) :
    ∃ r, out = r ++ text ∧ Decoded g r := by
  generalize hbytes : g ++ encodeText text = bytes at h
  induction h generalizing g text with
  | nil =>
    obtain ⟨rfl, htext⟩ := append_eq_nil_iff.mp hbytes
    cases text with
    | nil => exact ⟨[], rfl, .nil⟩
    | cons c text => exact absurd ⟨c, encodeText text, htext.symm⟩ not_starts_nil
  | char c h ih =>
    cases g with
    | nil =>
      cases text with
      | nil =>
        obtain ⟨b, ts, hencode, -⟩ := encode_spec c
        rw [hencode] at hbytes
        cases hbytes
      | cons c' text =>
        obtain ⟨rfl, hrest⟩ := encode_append_inj hbytes
        obtain ⟨r, rfl, hr⟩ := @ih [] text hrest
        exact ⟨[], by rw [hr.eq_nil]; rfl, .nil⟩
    | cons b g =>
      obtain ⟨b', ts, hencode, -, hts, -⟩ := encode_spec c
      rw [hencode, cons_append, cons_append] at hbytes
      obtain ⟨rfl, hrest⟩ := List.cons.inj hbytes
      obtain ⟨a, rfl, hbs⟩ := split_before hts hrest.symm
      obtain ⟨r, rfl, hr⟩ := ih hbs.symm
      refine ⟨c :: r, rfl, ?_⟩
      rw [← cons_append, ← hencode]
      exact hr.char c
  | skip hb h ih =>
    cases g with
    | nil =>
      cases text with
      | nil => cases hbytes
      | cons c text => exact absurd ⟨c, encodeText text, hbytes.symm⟩ hb
    | cons b g =>
      obtain ⟨rfl, hrest⟩ := List.cons.inj hbytes
      obtain ⟨r, rfl, hr⟩ := ih hrest
      refine ⟨r, rfl, hr.skip fun hstarts => hb ?_⟩
      rw [← hrest]
      exact hstarts.append _
  | replace hb h ih =>
    cases g with
    | nil =>
      cases text with
      | nil => cases hbytes
      | cons c text => exact absurd ⟨c, encodeText text, hbytes.symm⟩ hb
    | cons b g =>
      obtain ⟨rfl, hrest⟩ := List.cons.inj hbytes
      obtain ⟨r, rfl, hr⟩ := ih hrest
      refine ⟨replacement :: r, rfl, hr.replace fun hstarts => hb ?_⟩
      rw [← hrest]
      exact hstarts.append _

/-- **Garbage** is decoded to replacements. -/
theorem Decoded.eq_replacement (h : Decoded g out) (hg : ∀ p s, g = p ++ s → ¬ Starts s) :
    ∀ c ∈ out, c = replacement := by
  induction h with
  | nil => nofun
  | char c h ih => exact absurd ⟨c, _, rfl⟩ (hg [] _ rfl)
  | skip hb h ih => exact ih fun p s hsplit => hg (_ :: p) s (by rw [hsplit]; rfl)
  | replace hb h ih =>
    rw [forall_mem_cons]
    exact ⟨rfl, ih fun p s hsplit => hg (_ :: p) s (by rw [hsplit]; rfl)⟩

end ImagineOS.Utf8
