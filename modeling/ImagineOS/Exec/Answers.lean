import ImagineOS.Descriptors
import ImagineOS.Exec.Tables

/-!
# Processes: how the kernel answers

The process that runs may be running a program that uses descriptors. The kernel answers its calls
as somebody might who gives the numbers from 3 on, in a table without the descriptors that are
closed. So what the program ensures also holds where the kernel answers.
-/

namespace ImagineOS.Exec

open Descriptors Option

variable {κ ρ : Type}

/-- What is open. -/
def DescriptorTable.view (t : DescriptorTable) : FdTable Descriptor := fun fd =>
  (fdIndex fd).bind fun fd => if (t fd).kind = .closed then none else some (t fd)

/-- What is opened is a file, with a number that the kernel may give. -/
def kernelRules (κ : Type) : Rules κ Descriptor where
  object _ := .new .file
  numbers n := 3 ≤ n ∧ n < maxOpenFds

/-- A call of the process that runs. Some files cannot be opened. -/
def perform (openable : κ → Bool) (s : System) : Descriptors.Call κ → Option ℕ × System
  | .openFile what =>
    if openable what then
      let (fd, s) := allocateDescriptor (.new .file) s
      (fd.map Fin.val, s)
    else (none, s)
  | .dup fd =>
    let (answer, s) := duplicateDescriptor fd s
    (answer.toOption, s)
  | .dup2 source target =>
    let (answer, s) := duplicateDescriptorTo source target s
    (answer.toOption, s)
  | .close fd =>
    let (closed, s) := closeDescriptor fd s
    (if closed then some 0 else none, s)

/-- The process that runs makes the calls of a program. -/
def exec (openable : κ → Bool) : Program κ ρ → System → ρ × System
  | .done r, s => (r, s)
  | .call c next, s => exec openable (next (perform openable s c).1) (perform openable s c).2

section View

variable {t : DescriptorTable} {s s' : System} {fd : Fin maxOpenFds} {d : Descriptor}
  {openable : κ → Bool} {c : Descriptors.Call κ}

theorem view_eq (t : DescriptorTable) (fd : Fin maxOpenFds) :
    t.view fd = if (t fd).kind = .closed then none else some (t fd) := by
  simp [DescriptorTable.view, fdIndex]

theorem val_of_fdIndex {n : ℕ} (h : fdIndex n = some fd) : fd.val = n := by
  rw [fdIndex] at h
  split at h
  · rw [← Option.some.inj h]
  · cases h

theorem view_update (t : DescriptorTable) (fd : Fin maxOpenFds) (d : Descriptor) :
    DescriptorTable.view (Function.update t fd d) =
      Function.update t.view fd (if d.kind = .closed then none else some d) := by
  funext n
  by_cases hn : n = fd
  · rw [hn, Function.update_self, view_eq, Function.update_self]
  · rw [Function.update_of_ne hn, DescriptorTable.view, DescriptorTable.view]
    cases hindex : fdIndex n with
    | none => rfl
    | some fd' =>
      have hne : fd' ≠ fd := fun he => hn (he ▸ (val_of_fdIndex hindex).symm)
      rw [bind_some, bind_some, Function.update_of_ne hne]

theorem place_of_allocate (hopen : d.kind ≠ .closed) (h : allocateDescriptor d s = (some fd, s')) :
    (kernelRules κ).place d fd s.selfTable.view = some s'.selfTable.view := by
  obtain ⟨rfl, hclosed⟩ := allocateDescriptor_some h
  rw [Rules.place_eq_some]
  refine ⟨?_, ?_, ?_⟩
  · simp [kernelRules, allocateDescriptor_le h]
  · rw [view_eq]
    exact if_pos hclosed
  · rw [selfTable_setDescriptor, view_update, if_neg hopen]

/-- The table after `dup`. -/
theorem duplicateDescriptor_view (fd : ℕ) (s : System) :
    match duplicateDescriptor fd s with
    | (.ok n, s') => (kernelRules κ).effect n s.selfTable.view (.dup fd) = some s'.selfTable.view
    | (.error _, s') => s'.selfTable = s.selfTable := by
  rw [duplicateDescriptor]
  cases hindex : fdIndex fd with
  | none => rfl
  | some fd' =>
    dsimp only
    split_ifs with hclosed
    · rfl
    cases hadd : addReference (s.tables s.current fd') s.pipes with
    | none => rfl
    | some pipes =>
      dsimp only
      rcases hallocate : allocateDescriptor (s.tables s.current fd') { s with pipes := pipes } with
        ⟨answer, s'⟩
      cases answer with
      | none =>
        obtain ⟨rfl, -⟩ := allocateDescriptor_none hallocate
        rfl
      | some answer =>
        have hview : s.selfTable.view fd = some (s.tables s.current fd') := by
          rw [← val_of_fdIndex hindex, view_eq]
          exact if_neg hclosed
        show (s.selfTable.view fd).bind _ = _
        have hplace := @place_of_allocate κ _ _ _ _ hclosed hallocate
        rw [hview, bind_some]
        exact hplace

/-- The table after `dup2`. -/
theorem duplicateDescriptorTo_view (source target : ℕ) (s : System) :
    match duplicateDescriptorTo source target s with
    | (.ok n, s') =>
      (kernelRules κ).effect n s.selfTable.view (.dup2 source target) = some s'.selfTable.view
    | (.error _, s') => s'.selfTable = s.selfTable := by
  rw [duplicateDescriptorTo]
  cases htarget : fdIndex target with
  | none => rfl
  | some target' =>
    cases hsource : fdIndex source with
    | none => rfl
    | some source' =>
      dsimp only
      by_cases hclosed : (s.tables s.current source').kind = .closed
      · rw [if_pos hclosed]
      have hview : s.selfTable.view source = some (s.tables s.current source') := by
        rw [← val_of_fdIndex hsource, view_eq]
        exact if_neg hclosed
      have htarget' := val_of_fdIndex htarget
      rw [if_neg hclosed]
      by_cases he : source' = target'
      · have hsame : target = source := by
          rw [← htarget', ← he, val_of_fdIndex hsource]
        rw [if_pos he]
        dsimp only
        rw [Rules.effect, hview, map_some, hsame, ← hview, Function.update_eq_self]
      rw [if_neg he]
      cases hadd : addReference (s.tables s.current source') s.pipes with
      | none => rfl
      | some pipes =>
        dsimp only
        rw [Rules.effect, hview, map_some, selfTable_setDescriptor, view_update,
          if_neg hclosed, htarget']

/-- The table after `close`. -/
theorem closeDescriptor_view (fd : ℕ) (s : System) :
    match closeDescriptor fd s with
    | (true, s') => ∀ n, (kernelRules κ).effect n s.selfTable.view (.close fd) =
        some s'.selfTable.view
    | (false, s') => s'.selfTable = s.selfTable := by
  rw [closeDescriptor]
  cases hindex : fdIndex fd with
  | none => rfl
  | some fd' =>
    dsimp only
    by_cases hclosed : (s.tables s.current fd').kind = .closed
    · rw [if_pos hclosed]
    · have hview : s.selfTable.view fd = some (s.tables s.current fd') := by
        rw [← val_of_fdIndex hindex, view_eq]
        exact if_neg hclosed
      rw [if_neg hclosed]
      intro n
      rw [Rules.effect, hview, map_some, selfTable_setDescriptor, view_update,
        val_of_fdIndex hindex]
      rfl

/-- **One call** of a program, answered by the kernel. -/
theorem perform_view (openable : κ → Bool) (s : System) (c : Descriptors.Call κ) :
    match perform openable s c with
    | (some n, s') => (kernelRules κ).effect n s.selfTable.view c = some s'.selfTable.view
    | (none, s') => s'.selfTable = s.selfTable := by
  cases c with
  | openFile what =>
    rw [perform]
    split_ifs with hopen
    · rcases hallocate : allocateDescriptor (.new .file) s with ⟨answer, s'⟩
      cases answer with
      | none =>
        obtain ⟨rfl, -⟩ := allocateDescriptor_none hallocate
        rfl
      | some answer => exact place_of_allocate nofun hallocate
    · rfl
  | dup fd =>
    have h := @duplicateDescriptor_view κ fd s
    rw [perform]
    rcases hdup : duplicateDescriptor fd s with ⟨_ | n, s'⟩
    · rw [hdup] at h
      exact h
    · rw [hdup] at h
      exact h
  | dup2 source target =>
    have h := @duplicateDescriptorTo_view κ source target s
    rw [perform]
    rcases hdup : duplicateDescriptorTo source target s with ⟨_ | n, s'⟩
    · rw [hdup] at h
      exact h
    · rw [hdup] at h
      exact h
  | close fd =>
    have h := @closeDescriptor_view κ fd s
    rw [perform]
    rcases hclose : closeDescriptor fd s with ⟨_ | _, s'⟩
    · rw [hclose] at h
      exact h
    · rw [hclose] at h
      exact h 0

/-- **Headline.** What a program ensures holds where the kernel answers. -/
theorem exec_ensures {Q : ρ → FdTable Descriptor → Trace κ → Prop} {p : Program κ ρ} {l : Trace κ}
    (h : p.Ensures (kernelRules κ) Q s.selfTable.view l) :
    ∃ l', Q (exec openable p s).1 (exec openable p s).2.selfTable.view l' := by
  induction p generalizing s l with
  | done r => exact ⟨l, h⟩
  | call c next ih =>
    have hview := perform_view openable s c
    rw [exec]
    rcases hperform : perform openable s c with ⟨_ | n, s'⟩ <;> rw [hperform] at hview
    · have hnone := h.1
      rw [← show s'.selfTable = s.selfTable from hview] at hnone
      exact ih none hnone
    · exact ih (some n) (h.2 n _ hview)

end View

end ImagineOS.Exec
