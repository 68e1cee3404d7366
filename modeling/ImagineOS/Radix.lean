import Mathlib.Data.List.Infix
import Mathlib.Data.Set.Basic

/-!
# Trees of linked nodes

A node has a child at some of its indices, and a path of indices leads from the root to a node, or
ends early. As long as no two paths lead to one node, a change at one index of a node is a change of
what lies behind that index, and of nothing else.
-/

namespace ImagineOS.Radix

variable {α ι : Type} {child child' : α → ι → Option α} {paths : Set (List ι)} {root a b : α}
  {p q : List ι} {i : ι}

/-- The node at the end of a path. -/
def reach (child : α → ι → Option α) : List ι → α → Option α
  | [], a => some a
  | i :: path, a => (child a i).bind (reach child path)

theorem reach_append (p q : List ι) (a : α) :
    reach child (p ++ q) a = (reach child p a).bind (reach child q) := by
  induction p generalizing a with
  | nil => rfl
  | cons i p ih =>
    show (child a i).bind (reach child (p ++ q)) = ((child a i).bind (reach child p)).bind _
    rw [Option.bind_assoc]
    exact congrArg _ (funext ih)

theorem reach_concat (p : List ι) (i : ι) (a : α) :
    reach child (p ++ [i]) a = (reach child p a).bind fun b => child b i := by
  rw [reach_append]
  refine congrArg _ (funext fun b => ?_)
  show (child b i).bind some = child b i
  exact Option.bind_fun_some _

/-- With a path, a set has those that it extends. -/
def Closed (paths : Set (List ι)) : Prop := ∀ p i, p ++ [i] ∈ paths → p ∈ paths

/-- **A tree**: no two paths lead to one node. -/
def Tree (child : α → ι → Option α) (paths : Set (List ι)) (root : α) : Prop :=
  ∀ p ∈ paths, ∀ q ∈ paths, ∀ a, reach child p root = some a → reach child q root = some a → p = q

/-- **A change** that no path meets is not seen. -/
theorem reach_congr (hclosed : Closed paths)
    (h : ∀ p i a, p ++ [i] ∈ paths → reach child p root = some a → child' a i = child a i)
    (hq : q ∈ paths) : reach child' q root = reach child q root := by
  induction q using List.reverseRecOn with
  | nil => rfl
  | append_singleton p i ih =>
    rw [reach_concat, reach_concat, ih (hclosed p i hq)]
    cases hreach : reach child p root with
    | none => rfl
    | some a => exact h p i a hq hreach

/-- The paths that do not lead behind `x`. -/
theorem Closed.avoiding (hclosed : Closed paths) (x : List ι) :
    Closed {q | q ∈ paths ∧ ¬ x <+: q} :=
  fun p i h => ⟨hclosed p i h.1, fun hpre => h.2 (hpre.trans (List.prefix_append p [i]))⟩

theorem reach_eq_none (h : reach child p root = none) (hpre : p <+: q) :
    reach child q root = none := by
  obtain ⟨r, rfl⟩ := hpre
  rw [reach_append, h]
  rfl

/-- **A tree grows** by a node `b` without children, at a free index `i` of the node `a` to which
the path `p` leads. -/
structure Grown (child child' : α → ι → Option α) (paths : Set (List ι)) (root : α) (p : List ι)
    (a : α) (i : ι) (b : α) : Prop where
  closed : Closed paths
  tree : Tree child paths root
  mem : p ∈ paths
  node : reach child p root = some a
  new : ∀ q ∈ paths, reach child q root ≠ some b
  free : child a i = none
  linked : child' a i = some b
  bare : ∀ j, child' b j = none
  others : ∀ q ∈ paths, ∀ c j, reach child q root = some c → (c = a → j ≠ i) →
    child' c j = child c j

theorem Grown.reach_other (h : Grown child child' paths root p a i b) (hq : q ∈ paths)
    (hne : ¬ p ++ [i] <+: q) : reach child' q root = reach child q root := by
  refine reach_congr (h.closed.avoiding (p ++ [i])) (fun r j c hr hc => ?_) ⟨hq, hne⟩
  have hmem := h.closed r j hr.1
  refine h.others r hmem c j hc fun hca hji => hr.2 ?_
  rw [h.tree p h.mem r hmem a h.node (hca ▸ hc), hji]

theorem Grown.reach_new (h : Grown child child' paths root p a i b) :
    reach child' (p ++ [i]) root = some b := by
  have hpre : ¬ p ++ [i] <+: p := fun hpre => by
    have hle := hpre.length_le
    rw [List.length_append, List.length_singleton] at hle
    omega
  rw [reach_concat, h.reach_other h.mem hpre, h.node]
  exact h.linked

/-- **Only the path to the new node** leads somewhere else than before. -/
theorem Grown.reach_eq (h : Grown child child' paths root p a i b) (hq : q ∈ paths)
    (hne : q ≠ p ++ [i]) : reach child' q root = reach child q root := by
  by_cases hpre : p ++ [i] <+: q
  · -- Behind the new node there is nothing, and behind the free index there was nothing.
    have hnone : reach child (p ++ [i]) root = none := by
      rw [reach_concat, h.node]
      exact h.free
    rw [reach_eq_none hnone hpre]
    obtain ⟨r, rfl⟩ := hpre
    cases r with
    | nil => exact absurd (List.append_nil _) hne
    | cons j r =>
      rw [reach_append, h.reach_new]
      show (child' b j).bind _ = none
      rw [h.bare]
      rfl
  · exact h.reach_other hq hpre

theorem Grown.reach_cases (h : Grown child child' paths root p a i b) (hq : q ∈ paths) {c : α}
    (hc : reach child' q root = some c) :
    (q = p ++ [i] ∧ c = b) ∨ (q ≠ p ++ [i] ∧ c ≠ b ∧ reach child q root = some c) := by
  by_cases hne : q = p ++ [i]
  · rw [hne, h.reach_new] at hc
    exact Or.inl ⟨hne, (Option.some.inj hc).symm⟩
  · rw [h.reach_eq hq hne] at hc
    exact Or.inr ⟨hne, fun hcb => h.new q hq (hcb ▸ hc), hc⟩

/-- **A tree that grew** is a tree. -/
theorem Grown.isTree (h : Grown child child' paths root p a i b) : Tree child' paths root := by
  intro q hq r hr c hqc hrc
  obtain ⟨hq', hcb⟩ | ⟨-, hcb, hqc⟩ := h.reach_cases hq hqc
  · obtain ⟨hr', -⟩ | ⟨-, hcb', -⟩ := h.reach_cases hr hrc
    · rw [hq', hr']
    · exact absurd hcb hcb'
  · obtain ⟨-, hcb'⟩ | ⟨-, -, hrc⟩ := h.reach_cases hr hrc
    · exact absurd hcb' hcb
    · exact h.tree q hq r hr c hqc hrc

end ImagineOS.Radix
