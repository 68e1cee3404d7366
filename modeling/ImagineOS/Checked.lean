import Mathlib.Algebra.Group.Nat.Defs
import Mathlib.Data.Nat.Basic
import Mathlib.Data.List.TakeDrop

/-!
# Computations that may panic

A computation returns a value, or an error that its author foresaw, or it panics: it leaves an array
or overflows. It is sound if it does not panic, and what it returns has a property. Soundness is
proved along the computation, with a rule for each operation.
-/

namespace ImagineOS

theorem bind_eq_ok {ε α β : Type} {x : Except ε α} {f : α → Except ε β} {b : β} :
    x >>= f = .ok b ↔ ∃ a, x = .ok a ∧ f a = .ok b := by
  cases x with
  | error e => exact ⟨nofun, fun ⟨_, h, _⟩ => nomatch h⟩
  | ok a =>
    constructor
    · exact fun h => ⟨a, rfl, h⟩
    · rintro ⟨_, ⟨⟩, h⟩
      exact h

/-- How a computation ends that does not return. -/
inductive Fault (ε : Type)
  | panic
  | error (e : ε)
  deriving DecidableEq

/-- A computation that may fail or panic. -/
abbrev Checked (ε α : Type) : Type := Except (Fault ε) α

namespace Checked

variable {ε α β σ : Type}

/-- A panic. -/
def panic : Checked ε α := .error .panic

/-- An error. -/
def fail (e : ε) : Checked ε α := .error (.error e)

/-- Numbers have 64 bits. -/
abbrev wordLimit : ℕ := 2 ^ 64

/-- `a + b` -/
def add (a b : ℕ) : Checked ε ℕ := if a + b < wordLimit then .ok (a + b) else panic

/-- `a.checked_add(b).ok_or(e)` -/
def checkedAdd (a b : ℕ) (e : ε) : Checked ε ℕ := if a + b < wordLimit then .ok (a + b) else fail e

/-- `a.checked_mul(b).ok_or(e)` -/
def checkedMul (a b : ℕ) (e : ε) : Checked ε ℕ := if a * b < wordLimit then .ok (a * b) else fail e

/-- `a * b` -/
def mul (a b : ℕ) : Checked ε ℕ := if a * b < wordLimit then .ok (a * b) else panic

/-- `a % b` -/
def rem (a b : ℕ) : Checked ε ℕ := if b = 0 then panic else .ok (a % b)

/-- `a - b` -/
def sub (a b : ℕ) : Checked ε ℕ := if b ≤ a then .ok (a - b) else panic

/-- `l[i]` -/
def index (l : List α) (i : ℕ) : Checked ε α :=
  match l[i]? with
  | some a => .ok a
  | none => panic

/-- The elements of a range. -/
def between (l : List α) (start stop : ℕ) : List α := (l.drop start).take (stop - start)

/-- `&l[start..stop]` -/
def slice (l : List α) (start stop : ℕ) : Checked ε (List α) :=
  if start ≤ stop ∧ stop ≤ l.length then .ok (between l start stop) else panic

/-- `l[i] = a` -/
def setAt (l : List α) (i : ℕ) (a : α) : Checked ε (List α) :=
  if i < l.length then .ok (l.set i a) else panic

/-- `l[start..stop].copy_from_slice(source)` -/
def copyRange (l : List α) (start stop : ℕ) (source : List α) : Checked ε (List α) :=
  if start ≤ stop ∧ stop ≤ l.length ∧ source.length = stop - start then
    .ok (l.take start ++ source ++ l.drop stop)
  else panic

/-- `l.get(start..stop)` -/
def getRange (l : List α) (start stop : ℕ) : Option (List α) :=
  if start ≤ stop ∧ stop ≤ l.length then some (between l start stop) else none

/-- `o.ok_or(e)` -/
def okOr (o : Option α) (e : ε) : Checked ε α :=
  match o with
  | some a => .ok a
  | none => fail e

/-- Tests one after another, up to the first that holds: `a || b || ..` -/
def anyOf : List (Checked ε Bool) → Checked ε Bool
  | [] => .ok false
  | test :: rest => do if ← test then return true else anyOf rest

/-- A loop over a list. -/
def each (body : α → σ → Checked ε σ) : List α → σ → Checked ε σ
  | [], s => .ok s
  | a :: rest, s => do each body rest (← body a s)

/-- It does not panic, and what it returns has a property. -/
def Sound (x : Checked ε α) (Q : α → Prop) : Prop :=
  match x with
  | .ok a => Q a
  | .error .panic => False
  | .error (.error _) => True

/-- It ends as a computation that cannot panic, and the results are related. -/
def Agrees (x : Checked ε α) (r : Except ε β) (R : α → β → Prop) : Prop :=
  match x, r with
  | .ok a, .ok b => R a b
  | .error (.error e), .error e' => e = e'
  | _, _ => False

variable {x : Checked ε α} {Q : α → Prop} {R : β → Prop}

theorem sound_iff : x.Sound Q ↔ x ≠ panic ∧ ∀ a, x = .ok a → Q a := by
  rcases x with ⟨_ | e⟩ | a
  · exact ⟨fun h => h.elim, fun h => h.1 rfl⟩
  · exact ⟨fun _ => ⟨nofun, nofun⟩, fun _ => trivial⟩
  · refine ⟨fun h => ⟨nofun, fun b hb => ?_⟩, fun h => h.2 a rfl⟩
    cases hb
    exact h

variable {a : α}

theorem Sound.ok (h : Q a) : Sound (.ok a : Checked ε α) Q := h

theorem Sound.fail (e : ε) : Sound (Checked.fail e : Checked ε α) Q := trivial

theorem Sound.named (h : x.Sound Q) : x.Sound fun a => Q a ∧ x = .ok a := by
  rw [sound_iff] at h ⊢
  exact ⟨h.1, fun a ha => ⟨h.2 a ha, ha⟩⟩

/-- **One computation after another.** -/
theorem Sound.bind {f : α → Checked ε β} (h : x.Sound Q) (hf : ∀ a, Q a → (f a).Sound R) :
    (x >>= f).Sound R := by
  rcases x with ⟨_ | e⟩ | a
  · exact h.elim
  · exact trivial
  · exact hf a h

theorem ok_bind (a : α) (f : α → Checked ε β) : (Except.ok a : Checked ε α) >>= f = f a := rfl

theorem fail_bind (e : ε) (f : α → Checked ε β) :
    (Checked.fail e : Checked ε α) >>= f = Checked.fail e := rfl

theorem Sound.ite {p : Prop} [Decidable p] {y : Checked ε α} (hx : p → x.Sound Q)
    (hy : ¬ p → y.Sound Q) : (if p then x else y).Sound Q := by
  split
  · rename_i h
    exact hx h
  · rename_i h
    exact hy h

/-! ### Operations -/

variable {l : List α} {i : ℕ}

theorem index_eq (h : l[i]? = some a) :
    (index l i : Checked ε α) = .ok a := by
  rw [index, h]

variable {start stop : ℕ}

theorem slice_eq (hle : start ≤ stop) (h : stop ≤ l.length) :
    (slice l start stop : Checked ε (List α)) = .ok (between l start stop) := if_pos ⟨hle, h⟩

theorem setAt_eq (h : i < l.length) (a : α) :
    (setAt l i a : Checked ε (List α)) = .ok (l.set i a) := if_pos h

theorem copyRange_eq {source : List α} (hle : start ≤ stop)
    (h : stop ≤ l.length) (hlength : source.length = stop - start) :
    (copyRange l start stop source : Checked ε (List α)) =
      .ok (l.take start ++ source ++ l.drop stop) := if_pos ⟨hle, h, hlength⟩

theorem sub_eq {a b : ℕ} (h : b ≤ a) : (sub a b : Checked ε ℕ) = .ok (a - b) := if_pos h

theorem sound_add {a b : ℕ} (h : a + b < wordLimit) :
    (add a b : Checked ε ℕ).Sound fun c => c = a + b := by
  rw [add, if_pos h]
  exact .ok rfl

theorem sound_checkedAdd (a b : ℕ) (e : ε) :
    (checkedAdd a b e).Sound fun c => c = a + b ∧ a + b < wordLimit :=
  .ite (fun h => .ok ⟨rfl, h⟩) fun _ => .fail e

theorem sound_checkedMul (a b : ℕ) (e : ε) :
    (checkedMul a b e).Sound fun c => c = a * b ∧ a * b < wordLimit :=
  .ite (fun h => .ok ⟨rfl, h⟩) fun _ => .fail e

theorem sound_index (h : i < l.length) :
    (index l i : Checked ε α).Sound fun a => l[i]? = some a := by
  rw [index_eq (List.getElem?_eq_getElem h)]
  exact .ok (List.getElem?_eq_getElem h)

theorem sound_slice (hle : start ≤ stop) (h : stop ≤ l.length) :
    (slice l start stop : Checked ε (List α)).Sound fun s => s = between l start stop := by
  rw [slice_eq hle h]
  exact .ok rfl

theorem sound_copyRange {source : List α} (hle : start ≤ stop)
    (h : stop ≤ l.length) (hlength : source.length = stop - start) :
    (copyRange l start stop source : Checked ε (List α)).Sound fun m =>
      m = l.take start ++ source ++ l.drop stop := by
  rw [copyRange_eq hle h hlength]
  exact .ok rfl

theorem sound_okOr (o : Option α) (e : ε) : (okOr o e).Sound fun a => o = some a := by
  cases o with
  | none => exact .fail e
  | some a => exact .ok rfl

theorem between_zero (l : List α) (i : ℕ) : between l 0 i = l.take i := rfl

theorem between_length (l : List α) (i : ℕ) : between l i l.length = l.drop i :=
  List.take_of_length_le (Nat.le_of_eq List.length_drop)

theorem getRange_eq_some {s : List α} (h : getRange l start stop = some s) :
    start ≤ stop ∧ stop ≤ l.length ∧ s = between l start stop := by
  rw [getRange] at h
  split at h
  · rename_i hrange
    cases h
    exact ⟨hrange.1, hrange.2, rfl⟩
  · cases h

theorem sound_anyOf {tests : List (Checked ε Bool)} (h : ∀ t ∈ tests, t.Sound fun _ => True) :
    (anyOf tests).Sound fun _ => True := by
  induction tests with
  | nil => exact .ok trivial
  | cons t rest ih =>
    refine Sound.bind (h t List.mem_cons_self) fun b _ => ?_
    exact .ite (fun _ => .ok trivial) fun _ => ih fun u hu => h u (List.mem_cons_of_mem t hu)

/-- **A loop** keeps what its body keeps. -/
theorem Sound.each {body : α → σ → Checked ε σ} {I : σ → Prop}
    (hbody : ∀ a ∈ l, ∀ s, I s → (body a s).Sound I) {s : σ} (hs : I s) :
    (Checked.each body l s).Sound I := by
  induction l generalizing s with
  | nil => exact .ok hs
  | cons a rest ih =>
    refine Sound.bind (hbody a List.mem_cons_self s hs) fun s' hs' => ?_
    exact ih (fun b hb => hbody b (List.mem_cons_of_mem a hb)) hs'

theorem each_range' {body : ℕ → σ → Checked ε σ} {f : ℕ → σ} {n : ℕ}
    (h : ∀ i, start ≤ i → i < start + n → body i (f i) = .ok (f (i + 1))) :
    each body (List.range' start n) (f start) = .ok (f (start + n)) := by
  induction n generalizing start with
  | zero => rfl
  | succ n ih =>
    rw [List.range'_succ, each, h start (Nat.le_refl _) (by omega), ok_bind,
      ih fun i hle hlt => h i (by omega) (by omega)]
    congr 2
    omega

theorem each_eq_ok {body : α → σ → Checked ε σ} {s s' : σ}
    (h : Checked.each body l s = .ok s') (ha : a ∈ l) :
    ∃ t t', body a t = .ok t' := by
  induction l generalizing s with
  | nil => exact absurd ha List.not_mem_nil
  | cons b rest ih =>
    rw [Checked.each] at h
    cases hb : body b s with
    | error => rw [hb] at h; cases h
    | ok t =>
      rcases List.mem_cons.mp ha with rfl | ha
      · exact ⟨s, t, hb⟩
      · rw [hb] at h
        exact ih h ha

/-! ### Agreement -/

section Agrees

variable {γ : Type} {r : Except ε β} {R : α → β → Prop}

/-- **One computation after another**, on both sides. -/
theorem Agrees.bind {f : α → Checked ε γ} {g : β → Except ε σ} {S : γ → σ → Prop}
    (h : x.Agrees r R) (hf : ∀ a b, R a b → (f a).Agrees (g b) S) :
    (x >>= f).Agrees (r >>= g) S := by
  rcases x with ⟨_ | e⟩ | a <;> rcases r with e' | b
  · exact h
  · exact h
  · exact h
  · exact h.elim
  · exact h.elim
  · exact hf a b h

/-- **The same test**, on both sides. -/
theorem Agrees.ite {p : Prop} [Decidable p] {y : Checked ε α} {s : Except ε β}
    (hx : p → x.Agrees r R) (hy : ¬ p → y.Agrees s R) :
    Agrees (if p then x else y) (if p then r else s) R := by
  split
  · rename_i h
    exact hx h
  · rename_i h
    exact hy h

theorem Agrees.of_ok (h : x.Agrees r R) (hx : x = .ok a) : ∃ b, r = .ok b ∧ R a b := by
  subst hx
  rcases r with e' | b
  · exact h.elim
  · exact ⟨b, rfl, h⟩

end Agrees

end Checked

end ImagineOS
