import Mathlib.Data.List.Basic

/-!
# Programs that use descriptors

A table says what each descriptor refers to. A program opens files, and copies and closes
descriptors, and it goes on with the answers. It cannot know them: any call may fail, and a new
descriptor may get any number that is free.
-/

namespace ImagineOS.Descriptors

/-- What the descriptors refer to that are open. -/
abbrev FdTable (α : Type) : Type := ℕ → Option α

/-- What a program asks for. -/
inductive Call (κ : Type)
  | openFile (what : κ)
  /-- Another descriptor for what `fd` refers to. -/
  | dup (fd : ℕ)
  /-- `target` refers to what `source` refers to. -/
  | dup2 (source target : ℕ)
  | close (fd : ℕ)
  deriving DecidableEq

/-- What a descriptor refers to when a file is opened, and the numbers for new descriptors. -/
structure Rules (κ α : Type) where
  object : κ → α
  numbers : ℕ → Bool

variable {κ α ρ σ : Type}

namespace Rules

variable (rules : Rules κ α)

/-- A new descriptor with the number `answer`. -/
def place (d : α) (answer : ℕ) (t : FdTable α) : Option (FdTable α) :=
  if rules.numbers answer ∧ (t answer).isNone then some (Function.update t answer (some d))
  else none

/-- The table after a call that gets the number `answer`, if it may get it. -/
def effect (answer : ℕ) (t : FdTable α) : Call κ → Option (FdTable α)
  | .openFile what => rules.place (rules.object what) answer t
  | .dup fd => (t fd).bind fun d => rules.place d answer t
  | .dup2 source target => (t source).map fun d => Function.update t target (some d)
  | .close fd => (t fd).map fun _ => Function.update t fd none

theorem place_eq_some {d : α} {answer : ℕ} {t t' : FdTable α} :
    rules.place d answer t = some t' ↔ rules.numbers answer = true ∧ t answer = none ∧
      t' = Function.update t answer (some d) := by
  rw [place]
  split
  · rename_i h
    rw [Option.some.injEq]
    exact ⟨fun he => ⟨h.1, Option.isNone_iff_eq_none.mp h.2, he.symm⟩, fun he => he.2.2.symm⟩
  · rename_i h
    refine iff_of_false (by simp) fun he => h ⟨he.1, ?_⟩
    rw [he.2.1]
    rfl

end Rules

/-- Calls, the last one first, and whether they succeeded. -/
abbrev Trace (κ : Type) : Type := List (Call κ × Bool)

/-- The state of a run. -/
structure World (κ α : Type) where
  table : FdTable α
  /-- The answers to come. A call fails when there is none, or none that it may get. -/
  answers : ℕ → Option ℕ
  trace : Trace κ

/-- A call is answered. -/
def World.call (rules : Rules κ α) (c : Call κ) (w : World κ α) : Option ℕ × World κ α :=
  match (w.answers 0).bind fun n => (rules.effect n w.table c).map (n, ·) with
  | some (n, t) => (some n, ⟨t, fun k => w.answers (k + 1), (c, true) :: w.trace⟩)
  | none => (none, ⟨w.table, fun k => w.answers (k + 1), (c, false) :: w.trace⟩)

/-- A program that returns something in `ρ`. -/
inductive Program (κ ρ : Type)
  | done (r : ρ)
  | call (c : Call κ) (next : Option ℕ → Program κ ρ)

namespace Program

/-- One program after another. -/
def bind : Program κ ρ → (ρ → Program κ σ) → Program κ σ
  | done r, f => f r
  | call c next, f => call c fun answer => (next answer).bind f

/-- A program runs. -/
def run (rules : Rules κ α) : Program κ ρ → World κ α → ρ × World κ α
  | done r, w => (r, w)
  | call c next, w => (next (w.call rules c).1).run rules (w.call rules c).2

/-- `Q` holds at the end of every run that begins with the table `t` and the trace `l`. -/
def Ensures (rules : Rules κ α) (Q : ρ → FdTable α → Trace κ → Prop) :
    Program κ ρ → FdTable α → Trace κ → Prop
  | done r, t, l => Q r t l
  | call c next, t, l => (next none).Ensures rules Q t ((c, false) :: l) ∧
      ∀ n t', rules.effect n t c = some t' → (next (some n)).Ensures rules Q t' ((c, true) :: l)

section Ensures

variable {rules : Rules κ α} {Q Q' : ρ → FdTable α → Trace κ → Prop} {p : Program κ ρ}
  {t : FdTable α} {l : Trace κ}

theorem Ensures.mono (h : p.Ensures rules Q t l) (hQ : ∀ r t l, Q r t l → Q' r t l) :
    p.Ensures rules Q' t l := by
  induction p generalizing t l with
  | done r => exact hQ r t l h
  | call c next ih => exact ⟨ih none h.1, fun n t' heffect => ih (some n) (h.2 n t' heffect)⟩

/-- **One program after another.** -/
theorem Ensures.bind {f : ρ → Program κ σ} {R : σ → FdTable α → Trace κ → Prop}
    (h : p.Ensures rules Q t l) (hf : ∀ r t l, Q r t l → (f r).Ensures rules R t l) :
    (p.bind f).Ensures rules R t l := by
  induction p generalizing t l with
  | done r => exact hf r t l h
  | call c next ih => exact ⟨ih none h.1, fun n t' heffect => ih (some n) (h.2 n t' heffect)⟩

/-- **What is ensured holds** at the end of a run. -/
theorem Ensures.run {w : World κ α} (h : p.Ensures rules Q w.table w.trace) :
    Q (p.run rules w).1 (p.run rules w).2.table (p.run rules w).2.trace := by
  induction p generalizing w with
  | done r => exact h
  | call c next ih =>
    refine ih _ ?_
    rw [World.call]
    split
    · rename_i n t heq
      obtain ⟨m, -, hm⟩ := Option.bind_eq_some_iff.mp heq
      obtain ⟨t', heffect, hpair⟩ := Option.map_eq_some_iff.mp hm
      obtain ⟨rfl, rfl⟩ := Prod.mk.inj hpair
      exact h.2 m t' heffect
    · exact h.1

end Ensures

end Program

end ImagineOS.Descriptors
