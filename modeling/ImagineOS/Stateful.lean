import ImagineOS.Checked

/-!
# Computations with a state that may panic

Such a computation has a state that it leaves behind however it ends. It is safe if it does not
panic, what it returns has a property, and the state has another one where it fails. Safety is
proved along the computation, as soundness is where there is no state.
-/

namespace ImagineOS

open Checked

/-- A computation with a state that may fail or panic. -/
abbrev Stateful (ε σ α : Type) : Type := EStateM (Fault ε) σ α

namespace Stateful

variable {ε σ α β : Type}

/-- A computation that does not look at the state. -/
def of (x : Checked ε α) : Stateful ε σ α := fun s =>
  match x with
  | .ok a => .ok a s
  | .error e => .error e s

/-- The state is read. -/
def read : Stateful ε σ σ := fun s => .ok s s

/-- The state is changed. -/
def change (f : σ → σ) : Stateful ε σ Unit := fun s => .ok () (f s)

/-- **No panic**: from the state `s` it returns something in a state of which `Q` holds, or fails in
a state of which `I` holds. -/
def Safe (I : σ → Prop) (m : Stateful ε σ α) (s : σ) (Q : α → σ → Prop) : Prop :=
  match m s with
  | .ok a t => Q a t
  | .error .panic _ => False
  | .error (.error _) t => I t

variable {I : σ → Prop} {m : Stateful ε σ α} {f : α → Stateful ε σ β} {s t : σ}
  {Q : α → σ → Prop} {R : β → σ → Prop}

theorem Safe.pure {a : α} (h : Q a s) : Safe I (Pure.pure a : Stateful ε σ α) s Q := h

/-- **One computation after another.** -/
theorem Safe.bind (h : Safe I m s Q) (hf : ∀ a t, Q a t → Safe I (f a) t R) :
    Safe I (m >>= f) s R := by
  show Safe I (EStateM.bind m f) s R
  rw [Safe] at h
  rw [Safe, EStateM.bind]
  rcases hm : m s with ⟨a, t⟩ | ⟨_ | e, t⟩ <;> rw [hm] at h
  · exact hf a t h
  · exact h.elim
  · exact h

theorem Safe.of {x : Checked ε α} {P : α → Prop} (hx : x.Sound P) (hs : I s) :
    Safe I (Stateful.of x) s fun a t => P a ∧ s = t := by
  rcases x with ⟨_ | e⟩ | a
  · exact hx.elim
  · exact hs
  · exact ⟨hx, rfl⟩

theorem Safe.fail (e : ε) (h : I s) :
    Safe I (Stateful.of (Checked.fail e) : Stateful ε σ α) s Q := h

theorem Safe.read : Safe I (Stateful.read : Stateful ε σ σ) s fun a t => s = a ∧ s = t :=
  ⟨rfl, rfl⟩

theorem Safe.change (g : σ → σ) :
    Safe I (Stateful.change g : Stateful ε σ Unit) s fun _ t => t = g s := rfl

theorem Safe.ite {p : Prop} [Decidable p] {m' : Stateful ε σ α} (hm : p → Safe I m s Q)
    (hm' : ¬ p → Safe I m' s Q) : Safe I (if p then m else m') s Q := by
  split
  · rename_i h
    exact hm h
  · rename_i h
    exact hm' h

theorem Safe.mono {I' : σ → Prop} {Q' : α → σ → Prop} (h : Safe I m s Q) (hI : ∀ t, I t → I' t)
    (hQ : ∀ a t, Q a t → Q' a t) : Safe I' m s Q' := by
  rw [Safe] at h ⊢
  split at h
  · exact hQ _ _ h
  · exact h
  · exact hI _ h

theorem Safe.known {a : α} (h : m s = .ok a t) : Safe I m s fun b u => b = a ∧ u = t := by
  rw [Safe, h]
  exact ⟨rfl, rfl⟩

/-! ### Results -/

theorem bind_of_ok {a : α} (h : m s = .ok a t) : (m >>= f) s = f a t := by
  show EStateM.bind m f s = f a t
  rw [EStateM.bind, h]

theorem read_ok : (Stateful.read : Stateful ε σ σ) s = .ok s s := rfl

theorem change_ok (g : σ → σ) : (Stateful.change g : Stateful ε σ Unit) s = .ok () (g s) := rfl

theorem of_ok {x : Checked ε α} {a : α} (h : x = .ok a) :
    (Stateful.of x : Stateful ε σ α) s = .ok a s := by
  subst h
  rfl

end Stateful

end ImagineOS
