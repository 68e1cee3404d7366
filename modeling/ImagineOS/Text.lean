import Mathlib.Data.List.Basic

/-!
# Strings and paths

A `&str` of the source is a list of bytes that satisfies `validUtf8`, which decides what
`core::str::from_utf8` accepts. Both file systems store paths as bytes and decode them again, so
the only facts needed about UTF-8 are that cutting a string at an ASCII byte leaves two strings
(`validUtf8_append_cons`) and, from it, that a string cut at its first NUL is still one
(`validUtf8_takeWhile`).
-/

namespace ImagineOS

open List

/-! ### UTF-8 -/

/-- A continuation byte. -/
def isContinuation (b : UInt8) : Bool := 0x80 ≤ b && b ≤ 0xbf

/-- The lead byte of a two-byte character. -/
def isLead₂ (b : UInt8) : Bool := 0xc2 ≤ b && b ≤ 0xdf

/-- The first two bytes of a three-byte character: no overlong form, no surrogate. -/
def isLead₃ (b c : UInt8) : Bool :=
  (b == 0xe0 && 0xa0 ≤ c && c ≤ 0xbf) || (0xe1 ≤ b && b ≤ 0xec && isContinuation c) ||
    (b == 0xed && 0x80 ≤ c && c ≤ 0x9f) || (0xee ≤ b && b ≤ 0xef && isContinuation c)

/-- The first two bytes of a four-byte character: no overlong form, nothing past U+10FFFF. -/
def isLead₄ (b c : UInt8) : Bool :=
  (b == 0xf0 && 0x90 ≤ c && c ≤ 0xbf) || (0xf1 ≤ b && b ≤ 0xf3 && isContinuation c) ||
    (b == 0xf4 && 0x80 ≤ c && c ≤ 0x8f)

/-- What `core::str::from_utf8` accepts. -/
def validUtf8 : List UInt8 → Bool
  | [] => true
  | b :: rest =>
    if b < 0x80 then validUtf8 rest
    else match rest with
    | [] => false
    | c :: rest =>
      if isLead₂ b then isContinuation c && validUtf8 rest
      else match rest with
      | [] => false
      | d :: rest =>
        if isLead₃ b c then isContinuation d && validUtf8 rest
        else match rest with
        | [] => false
        | e :: rest => isLead₄ b c && isContinuation d && isContinuation e && validUtf8 rest

instance lawfulBEq_bytes : LawfulBEq (List UInt8) := List.instLawfulBEq

theorem validUtf8_nil : validUtf8 [] := rfl

variable {c : UInt8}

theorem not_isContinuation (h : c < 0x80) : isContinuation c = false := by
  simp only [isContinuation, Bool.and_eq_false_iff, decide_eq_false_iff_not, UInt8.not_le]
  exact Or.inl h

variable {b : UInt8}

theorem isLead₃_ascii (h : c < 0x80) : isLead₃ b c = false := by
  have hc : ¬ (0x80 : UInt8) ≤ c := UInt8.not_le.mpr h
  have hc' : ¬ (0xa0 : UInt8) ≤ c := fun h' => hc (UInt8.le_trans (by decide) h')
  simp [isLead₃, not_isContinuation h, hc, hc']

theorem isLead₄_ascii (h : c < 0x80) : isLead₄ b c = false := by
  have hc : ¬ (0x80 : UInt8) ≤ c := UInt8.not_le.mpr h
  have hc' : ¬ (0x90 : UInt8) ≤ c := fun h' => hc (UInt8.le_trans (by decide) h')
  simp [isLead₄, not_isContinuation h, hc, hc']

theorem validUtf8_append_cons (hc : c < 0x80) (as bs : List UInt8) :
    validUtf8 (as ++ c :: bs) = (validUtf8 as && validUtf8 bs) := by
  have hcont := not_isContinuation hc
  fun_induction validUtf8 as with
  | case1 => rw [nil_append, validUtf8.eq_def]; simp [hc]
  | case2 b rest h ih => rw [cons_append, validUtf8.eq_def]; simp [h, ih]
  | case3 b h =>
    rw [cons_append, validUtf8.eq_def]
    rcases bs with _ | ⟨d, _ | ⟨e, bs⟩⟩ <;>
      simp [h, hcont, isLead₃_ascii hc, isLead₄_ascii hc]
  | case4 b h d rest h₂ ih =>
    rw [cons_append, validUtf8.eq_def]; simp [h, h₂, ih, Bool.and_assoc]
  | case5 b h d h₂ =>
    rw [cons_append, validUtf8.eq_def]
    cases bs <;> simp [h, h₂, hcont]
  | case6 b h d h₂ e rest h₃ ih =>
    rw [cons_append, validUtf8.eq_def]; simp [h, h₂, h₃, ih, Bool.and_assoc]
  | case7 b h d h₂ e h₃ =>
    rw [cons_append, validUtf8.eq_def]; simp [h, h₂, h₃, hcont]
  | case8 b h d h₂ e h₃ g rest ih =>
    rw [cons_append, validUtf8.eq_def]; simp [h, h₂, h₃, ih, Bool.and_assoc]

theorem validUtf8_ascii_append {as : List UInt8} (h : ∀ a ∈ as, a < 0x80) (bs : List UInt8) :
    validUtf8 (as ++ bs) = validUtf8 bs := by
  induction as with
  | nil => rfl
  | cons a as ih =>
    have ha := validUtf8_append_cons (h a mem_cons_self) [] (as ++ bs)
    simp only [nil_append] at ha
    rw [cons_append, ha, ih fun b hb => h b (mem_cons_of_mem a hb)]
    rfl

theorem validUtf8_ascii {as : List UInt8} (h : ∀ a ∈ as, a < 0x80) : validUtf8 as := by
  have happend := validUtf8_ascii_append h []
  rwa [append_nil] at happend

/-- `&str`: the bytes of a string. -/
abbrev Str : Type := {p : List UInt8 // validUtf8 p}

/-- `core::str::from_utf8` -/
def fromUtf8 (p : List UInt8) : Option Str := if h : validUtf8 p then some ⟨p, h⟩ else none

/-! ### Paths -/

/-- `'/'` -/
def slash : UInt8 := 47

/-- `str::strip_prefix` -/
def stripPrefix (p q : List UInt8) : Option (List UInt8) :=
  if q.isPrefixOf p then some (p.drop q.length) else none

/-- `rsplit_once('/')` -/
def rsplitSlash (p : List UInt8) : Option (List UInt8 × List UInt8) :=
  if slash ∈ p then
    some ((p.reverse.dropWhile (· ≠ slash)).tail.reverse, (p.reverse.takeWhile (· ≠ slash)).reverse)
  else none

/-- `parent_path`: everything before the last slash, or the empty path. -/
def parentPath (p : List UInt8) : List UInt8 := (rsplitSlash p).elim [] Prod.fst

variable {p : List UInt8}

theorem stripPrefix_eq_some {q r : List UInt8} : stripPrefix p q = some r ↔ p = q ++ r := by
  rw [stripPrefix]
  constructor
  · intro h
    split at h
    · rename_i hq
      obtain ⟨t, rfl⟩ := isPrefixOf_iff_prefix.mp hq
      simpa using h
    · cases h
  · rintro rfl
    simp

theorem validUtf8_stripSlash (h : validUtf8 p) :
    validUtf8 ((stripPrefix p [slash]).getD p) := by
  cases hs : stripPrefix p [slash] with
  | none => exact h
  | some r =>
    obtain rfl := stripPrefix_eq_some.mp hs
    rw [singleton_append, ← nil_append (slash :: r), validUtf8_append_cons (by decide)] at h
    exact (Bool.and_eq_true_iff.mp h).2

variable {a : List UInt8}

theorem rsplitSlash_append {b : List UInt8} (hb : slash ∉ b) :
    rsplitSlash (a ++ slash :: b) = some (a, b) := by
  have hpos : ∀ x ∈ b.reverse, decide (x ≠ slash) = true := by
    intro x hx
    have hx : x ∈ b := mem_reverse.mp hx
    exact decide_eq_true fun h => hb (h ▸ hx)
  rw [rsplitSlash, if_pos (by simp), reverse_append, reverse_cons, append_assoc,
    takeWhile_append_of_pos hpos, dropWhile_append_of_pos hpos]
  simp

theorem rsplitSlash_of_not_mem (h : slash ∉ p) : rsplitSlash p = none := if_neg h

theorem slash_cases (p : List UInt8) : slash ∉ p ∨ ∃ a b, p = a ++ slash :: b ∧ slash ∉ b := by
  induction p with
  | nil => exact Or.inl (by simp)
  | cons x p ih =>
    rcases ih with h | ⟨a, b, rfl, hb⟩
    · by_cases hx : x = slash
      · exact Or.inr ⟨[], p, by simp [hx], h⟩
      · exact Or.inl (by simp [h, Ne.symm hx])
    · exact Or.inr ⟨x :: a, b, rfl, hb⟩

theorem not_mem_of_mem_splitOn {l c : List UInt8} (h : c ∈ l.splitOn b) : b ∉ c := by
  induction l generalizing c with
  | nil => simp_all
  | cons x l ih =>
    rw [splitOn_eq_splitOnP, splitOnP_cons_eq_if_modifyHead] at h
    by_cases hx : x = b
    · simp only [hx, BEq.rfl, if_true, mem_cons] at h
      rcases h with rfl | h
      · simp
      · exact ih h
    · rw [if_neg (by simpa using hx)] at h
      rcases hsplit : l.splitOnP (· == b) with _ | ⟨first, rest⟩
      · rw [hsplit] at h
        exact absurd h (by simp)
      · rw [hsplit, modifyHead_cons, mem_cons] at h
        have hmem : ∀ c, c ∈ first :: rest → b ∉ c := fun c hc =>
          ih (by rw [splitOn_eq_splitOnP, hsplit]; exact hc)
        rcases h with rfl | h
        · simp [Ne.symm hx, hmem first mem_cons_self]
        · exact hmem c (mem_cons_of_mem _ h)

@[simp] theorem parentPath_append {b : List UInt8} (hb : slash ∉ b) :
    parentPath (a ++ slash :: b) = a := by
  simp [parentPath, rsplitSlash_append hb]

theorem parentPath_of_not_mem (h : slash ∉ p) : parentPath p = [] := by
  simp [parentPath, rsplitSlash_of_not_mem h]

/-- A component that `canonical_path` admits: not empty, not `.` and not `..`. -/
def CleanComponent (c : List UInt8) : Prop := c ≠ [] ∧ c ≠ [46] ∧ c ≠ [46, 46]

instance (c : List UInt8) : Decidable (CleanComponent c) :=
  inferInstanceAs (Decidable (_ ∧ _ ∧ _))

/-- A non-empty path all of whose components are admitted. -/
def CleanPath (p : List UInt8) : Prop := ∀ c ∈ p.splitOn slash, CleanComponent c

instance (p : List UInt8) : Decidable (CleanPath p) :=
  inferInstanceAs (Decidable (∀ c ∈ p.splitOn slash, CleanComponent c))

theorem cleanPath_append {b : List UInt8} :
    CleanPath (a ++ slash :: b) ↔ CleanPath a ∧ CleanPath b := by
  simp only [CleanPath, splitOn_append_cons_self, mem_append, or_imp, forall_and]

theorem cleanPath_of_not_mem (h : slash ∉ p) : CleanPath p ↔ CleanComponent p := by
  simp [CleanPath, splitOn_eq_singleton h]

theorem not_cleanPath_nil : ¬ CleanPath [] := by decide

theorem CleanPath.ne_nil (h : CleanPath p) : p ≠ [] := by
  rintro rfl; exact not_cleanPath_nil h

theorem CleanPath.stripPrefix_slash (h : CleanPath p) :
    stripPrefix p [slash] = none := by
  cases p with
  | nil => rfl
  | cons x p =>
    have hx : x ≠ slash := by
      rintro rfl
      exact not_cleanPath_nil (cleanPath_append (a := []).mp h).1
    simp [stripPrefix, Ne.symm hx]

theorem CleanPath.parentPath (h : CleanPath p) :
    parentPath p = [] ∨ CleanPath (parentPath p) := by
  rcases slash_cases p with hp | ⟨a, b, rfl, hb⟩
  · exact Or.inl (parentPath_of_not_mem hp)
  · rw [parentPath_append hb]
    exact Or.inr (cleanPath_append.mp h).1

theorem length_parentPath_lt (h : p ≠ []) : (parentPath p).length < p.length := by
  rcases slash_cases p with hp | ⟨a, b, rfl, hb⟩
  · rw [parentPath_of_not_mem hp]
    exact length_pos_of_ne_nil h
  · rw [parentPath_append hb]
    simp

end ImagineOS
