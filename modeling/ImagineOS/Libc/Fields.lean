import Mathlib.Data.List.Basic
import Mathlib.Data.Nat.Basic

/-!
# Libc: integers in fields

The text of an integer in a field has blanks, a sign, a prefix, zeros and digits. Its parts can be
read back from it: two texts are the same only if their parts are, but that a blank may be a sign
or belong to the field, and that a zero may belong to the number or to the field.
-/

namespace ImagineOS.Libc

open List Option

/-- A text after some blanks and before others. -/
def blanked (lead trail : ℕ) (content : List UInt8) : List UInt8 :=
  List.replicate lead 32 ++ (content ++ List.replicate trail 32)

/-- The parts of the text of an integer. A sign is `+` or `-` here, a prefix has an `x` or an `X`,
and the digits do not start with a zero. -/
structure Shape where
  lead : ℕ
  sign : Option UInt8
  hex : Option UInt8
  zeros : ℕ
  digits : List UInt8
  trail : ℕ

namespace Shape

/-- The sign, the prefix, the zeros and the digits. -/
def content (s : Shape) : List UInt8 :=
  s.sign.toList ++ (s.hex.elim [] (fun x => [48, x]) ++ (List.replicate s.zeros 48 ++ s.digits))

/-- The text. -/
def text (s : Shape) : List UInt8 := blanked s.lead s.trail s.content

/-- The characters of digits. -/
def IsDigit (c : UInt8) : Prop := 48 ≤ c ∧ c ≤ 57 ∨ 65 ≤ c ∧ c ≤ 70 ∨ 97 ≤ c ∧ c ≤ 102

instance : DecidablePred IsDigit := fun _ => inferInstanceAs (Decidable (_ ∨ _))

/-- The parts have their characters. -/
structure Valid (s : Shape) : Prop where
  sign : ∀ c ∈ s.sign, c = 43 ∨ c = 45
  hex : ∀ c ∈ s.hex, c = 120 ∨ c = 88
  digits : ∀ c ∈ s.digits, IsDigit c
  head : ∀ c ∈ s.digits.head?, c ≠ 48

end Shape

section Blanks

variable {lead trail lead' trail' : ℕ} {content content' : List UInt8}

theorem length_blanked (lead trail : ℕ) (content : List UInt8) :
    (blanked lead trail content).length = lead + content.length + trail := by
  simp [blanked, Nat.add_assoc]

theorem filter_blanked (h : 32 ∉ content) :
    (blanked lead trail content).filter (· ≠ 32) = content := by
  have hself : content.filter (· ≠ 32) = content :=
    filter_eq_self.mpr fun c hc => by
      have : c ≠ 32 := fun heq => h (heq ▸ hc)
      simpa using this
  simp only [blanked, filter_append, hself]
  simp

theorem takeWhile_blanked (h : 32 ∉ content) (hne : content ≠ []) :
    (blanked lead trail content).takeWhile (· = 32) = List.replicate lead 32 := by
  match content with
  | c :: content =>
    have hc : c ≠ 32 := fun heq => h (heq ▸ mem_cons_self)
    rw [blanked, takeWhile_append_of_pos fun a ha => by
      simpa using eq_of_mem_replicate ha]
    simp [hc]

theorem blanked_inj (h : 32 ∉ content) (h' : 32 ∉ content') :
    blanked lead trail content = blanked lead' trail' content' ↔
      content = content' ∧ lead + trail = lead' + trail' ∧ (content ≠ [] → lead = lead') := by
  constructor
  · intro heq
    have hcontent : content = content' := by
      rw [← @filter_blanked lead trail _ h, heq, filter_blanked h']
    subst hcontent
    refine ⟨rfl, ?_, fun hne => ?_⟩
    · have := congrArg List.length heq
      rw [length_blanked, length_blanked] at this
      omega
    · have := congrArg (fun text => (text.takeWhile (· = 32)).length) heq
      simpa only [takeWhile_blanked h hne, length_replicate] using this
  · rintro ⟨rfl, hsum, hlead⟩
    by_cases hne : content = []
    · subst hne
      simp only [blanked, nil_append, replicate_append_replicate, hsum]
    · obtain rfl := hlead hne
      obtain rfl : trail = trail' := by omega
      rfl

end Blanks

namespace Shape

variable {s t : Shape}

theorem Valid.mem_content (h : s.Valid) {c : UInt8} (hc : c ∈ s.content) :
    (c = 43 ∨ c = 45) ∨ (c = 120 ∨ c = 88) ∨ IsDigit c := by
  simp only [content, mem_append, mem_toList, mem_replicate] at hc
  rcases hc with hsign | hhex | ⟨-, rfl⟩ | hdigits
  · exact .inl (h.sign c hsign)
  · cases hx : s.hex with
    | none => simp [hx] at hhex
    | some x =>
      simp only [hx, elim_some, mem_cons, not_mem_nil, or_false] at hhex
      rcases hhex with rfl | rfl
      · exact .inr (.inr (by decide))
      · exact .inr (.inl (h.hex c hx))
  · exact .inr (.inr (by decide))
  · exact .inr (.inr (h.digits c hdigits))

theorem Valid.no_blank (h : s.Valid) : 32 ∉ s.content := fun hmem => by
  rcases h.mem_content hmem with h | h | h
  · exact absurd h (by decide)
  · exact absurd h (by decide)
  · exact absurd h (by decide)

theorem not_sign_of_isDigit {c : UInt8} (h : IsDigit c) : c ≠ 43 ∧ c ≠ 45 ∧ c ≠ 120 ∧ c ≠ 88 := by
  refine ⟨?_, ?_, ?_, ?_⟩ <;>
    · rintro rfl
      exact absurd h (by decide)

theorem Valid.filter_digits (h : s.Valid) (p : UInt8 → Bool)
    (hp : ∀ c, IsDigit c → p c = false) : s.digits.filter p = [] :=
  filter_eq_nil_iff.mpr fun c hc => by simp [hp c (h.digits c hc)]

theorem Valid.filter_sign (h : s.Valid) :
    s.content.filter (fun c => c = 43 ∨ c = 45) = s.sign.toList := by
  have hdigits := h.filter_digits (fun c => c = 43 ∨ c = 45) fun c hc => by
    simp [not_sign_of_isDigit hc]
  have hsign : s.sign.toList.filter (fun c => c = 43 ∨ c = 45) = s.sign.toList :=
    filter_eq_self.mpr fun c hc => by simpa using h.sign c (mem_toList.mp hc)
  have hhex : (s.hex.elim [] fun x => [48, x]).filter (fun c => c = 43 ∨ c = 45) = [] := by
    cases hx : s.hex with
    | none => rfl
    | some x => rcases h.hex x hx with rfl | rfl <;> decide
  simp only [content, filter_append, hdigits, hsign, hhex, append_nil, nil_append]
  simp

theorem Valid.filter_hex (h : s.Valid) :
    s.content.filter (fun c => c = 120 ∨ c = 88) = s.hex.toList := by
  have hdigits := h.filter_digits (fun c => c = 120 ∨ c = 88) fun c hc => by
    simp [not_sign_of_isDigit hc]
  have hsign : s.sign.toList.filter (fun c => c = 120 ∨ c = 88) = [] :=
    filter_eq_nil_iff.mpr fun c hc => by
      rcases h.sign c (mem_toList.mp hc) with rfl | rfl <;> decide
  have hhex : (s.hex.elim [] fun x => [48, x]).filter (fun c => c = 120 ∨ c = 88) =
      s.hex.toList := by
    cases hx : s.hex with
    | none => rfl
    | some x => rcases h.hex x hx with rfl | rfl <;> decide
  simp only [content, filter_append, hdigits, hsign, hhex, append_nil, nil_append]
  simp

theorem Valid.takeWhile_zeros (h : s.Valid) :
    (List.replicate s.zeros 48 ++ s.digits).takeWhile (· = 48) = List.replicate s.zeros 48 := by
  rw [takeWhile_append_of_pos fun c hc => by simpa using eq_of_mem_replicate hc]
  cases hd : s.digits with
  | nil => simp
  | cons c digits =>
    have := h.head c (by simp [hd])
    simp [this]

theorem toList_inj {o o' : Option UInt8} (h : o.toList = o'.toList) : o = o' := by
  cases o <;> cases o' <;> simp_all

/-- **Equal contents have equal parts.** -/
theorem content_inj (hs : s.Valid) (ht : t.Valid) : s.content = t.content ↔
    s.sign = t.sign ∧ s.hex = t.hex ∧ s.zeros = t.zeros ∧ s.digits = t.digits := by
  constructor
  · intro heq
    have hsign : s.sign = t.sign := toList_inj <| by
      rw [← hs.filter_sign, heq, ht.filter_sign]
    have hhex : s.hex = t.hex := toList_inj <| by
      rw [← hs.filter_hex, heq, ht.filter_hex]
    rw [content, content, hsign, hhex, append_cancel_left_eq, append_cancel_left_eq] at heq
    have hzeros : s.zeros = t.zeros := by
      have := congrArg (fun text => (text.takeWhile (· = 48)).length) heq
      simpa only [hs.takeWhile_zeros, ht.takeWhile_zeros, length_replicate] using this
    rw [hzeros, append_cancel_left_eq] at heq
    exact ⟨hsign, hhex, hzeros, heq⟩
  · rintro ⟨hsign, hhex, hzeros, hdigits⟩
    rw [content, content, hsign, hhex, hzeros, hdigits]

/-- **Equal texts have equal parts.** -/
theorem text_inj (hs : s.Valid) (ht : t.Valid) : s.text = t.text ↔
    (s.sign = t.sign ∧ s.hex = t.hex ∧ s.zeros = t.zeros ∧ s.digits = t.digits) ∧
      s.lead + s.trail = t.lead + t.trail ∧ (s.content ≠ [] → s.lead = t.lead) := by
  rw [text, text, blanked_inj hs.no_blank ht.no_blank, content_inj hs ht]

end Shape

/-- An integer in a field: on which side the blanks are, or whether zeros are there instead, how
many there are, a sign, which may be a blank too, the letter of a prefix, the zeros and the digits
of the number. -/
structure Field where
  left : Bool
  zeroPadded : Bool
  padding : ℕ
  sign : Option UInt8
  hex : Option UInt8
  zeros : ℕ
  digits : List UInt8

namespace Field

/-- The text. -/
def text (f : Field) : List UInt8 :=
  (if !f.left && !f.zeroPadded then List.replicate f.padding 32 else []) ++
    (f.sign.toList ++ (f.hex.elim [] (fun x => [48, x]) ++
      ((if !f.left && f.zeroPadded then List.replicate f.padding 48 else []) ++
        (List.replicate f.zeros 48 ++
          (f.digits ++ if f.left then List.replicate f.padding 32 else [])))))

/-- The number of blanks for a sign. -/
def blankSign (f : Field) : ℕ := if f.sign = some 32 then 1 else 0

/-- The parts of the text. -/
def shape (f : Field) : Shape :=
  ⟨f.blankSign + (if !f.left && !f.zeroPadded then f.padding else 0), f.sign.filter (· ≠ 32), f.hex,
    (if !f.left && f.zeroPadded then f.padding else 0) + f.zeros, f.digits,
    if f.left then f.padding else 0⟩

/-- The parts have their characters. -/
structure Valid (f : Field) : Prop where
  sign : ∀ c ∈ f.sign, c = 32 ∨ c = 43 ∨ c = 45
  hex : ∀ c ∈ f.hex, c = 120 ∨ c = 88
  digits : ∀ c ∈ f.digits, Shape.IsDigit c
  head : ∀ c ∈ f.digits.head?, c ≠ 48

variable {f g : Field}

theorem Valid.shape (h : f.Valid) : f.shape.Valid where
  sign c hc := by
    obtain ⟨hmem, hne⟩ := filter_eq_some_iff.mp hc
    exact (h.sign c hmem).resolve_left (by simpa using hne)
  hex := h.hex
  digits := h.digits
  head := h.head

theorem sign_eq (f : Field) (count : ℕ) : List.replicate count 32 ++ f.sign.toList =
    List.replicate (f.blankSign + count) 32 ++ (f.sign.filter (· ≠ 32)).toList := by
  rw [blankSign]
  cases f.sign with
  | none => simp
  | some c =>
    by_cases hc : c = 32
    · rw [if_pos (by rw [hc]), Nat.add_comm, replicate_succ', hc]
      simp [Option.filter]
    · simp [Option.filter, hc]

/-- **A text has its parts.** -/
theorem text_eq (f : Field) : f.text = f.shape.text := by
  have hif : ∀ (c : Bool) (x : UInt8), (if c then List.replicate f.padding x else []) =
      List.replicate (if c then f.padding else 0) x := fun c x => by cases c <;> rfl
  simp only [text, Shape.text, blanked, Shape.content, shape, hif]
  rw [← append_assoc, sign_eq, replicate_add _ f.zeros]
  simp only [append_assoc]

/-- **Equal texts of fields have equal parts.** -/
theorem text_inj (hf : f.Valid) (hg : g.Valid) : f.text = g.text ↔
    (f.shape.sign = g.shape.sign ∧ f.hex = g.hex ∧ f.shape.zeros = g.shape.zeros ∧
        f.digits = g.digits) ∧
      f.shape.lead + f.shape.trail = g.shape.lead + g.shape.trail ∧
      (f.shape.content ≠ [] → f.shape.lead = g.shape.lead) := by
  rw [text_eq, text_eq, Shape.text_inj hf.shape hg.shape]
  rfl

/-- The number of characters of a prefix. -/
def hexLength (f : Field) : ℕ := if f.hex.isSome then 2 else 0

/-- The number of characters, without those that are there for the field. -/
def contentLength (f : Field) : ℕ :=
  f.sign.toList.length + f.hexLength + f.zeros + f.digits.length

theorem length_sign (f : Field) :
    f.sign.toList.length = f.blankSign + (f.sign.filter (· ≠ 32)).toList.length := by
  simpa using congrArg List.length (f.sign_eq 0)

theorem length_content (f : Field) : f.shape.content.length + f.blankSign =
    f.contentLength + if !f.left && f.zeroPadded then f.padding else 0 := by
  have hhex : (f.hex.elim [] fun x => [(48 : UInt8), x]).length = f.hexLength := by
    rw [hexLength]
    cases f.hex <;> rfl
  rw [contentLength, length_sign, Shape.content]
  simp only [shape, length_append, hhex, length_replicate]
  omega

end Field

end ImagineOS.Libc
