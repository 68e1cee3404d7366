import ImagineOS.Shell.Builtins
import ImagineOS.Shell.Redirected

/-!
# Shell: descriptors run out

What a builtin with redirections leaves behind stays open in the table that the kernel keeps for the
shell, and nothing closes what was open before. So only so many of them can run: each one that does
takes a descriptor for good (`builtins_run_out`).
-/

namespace ImagineOS.Shell

open Descriptors Exec

/-- A builtin, as it is run with its redirections. -/
structure BuiltinRun where
  environment : Environment
  cwd : List UInt8
  command : Command
  status : Option ℤ

/-- The calls of a builtin. -/
def BuiltinRun.program (b : BuiltinRun) : Program Opening (Except Failure ℤ) :=
  runBuiltinRedirected b.environment b.cwd b.command b.status

/-- Builtins run one after another. Those with a redirection that come to an end are counted. -/
def runBuiltins (openable : Opening → Bool) : List BuiltinRun → System → ℕ × System
  | [], s => (0, s)
  | b :: rest, s =>
    let (r, s) := exec openable b.program s
    let (n, s) := runBuiltins openable rest s
    (n + if ExecutorState.redirects b.command ∧ r.isOk then 1 else 0, s)

/-- The descriptors in use. -/
def inUse (t : DescriptorTable) : Finset (Fin maxOpenFds) :=
  Finset.univ.filter fun fd => (t fd).kind ≠ .closed

section Kept

variable {α : Type} {rules : Rules Opening α} {k : ℕ} {t : FdTable α} {l : Trace Opening}

/-- **What is open stays open.** -/
theorem Leaves.ensures_program (h : Leaves k t l) (b : BuiltinRun) :
    b.program.Ensures rules (fun _ => Leaves k) t l := by
  have hdone : ∀ t l, Leaves k t l →
      (Program.done () : Program Opening Unit).Ensures rules (fun _ => Leaves k) t l :=
    fun _ _ h => h
  refine (h.ensures_redirect hdone).bind fun r t l hr => ?_
  cases r with
  | error e => exact hr.1
  | ok savedStdin =>
    have hundo : ∀ t l, Leaves k t l →
        (restore savedStdin 0).Ensures rules (fun _ => Leaves k) t l := fun t l h =>
      h.ensures_restore (hr.2 _ rfl)
    refine (hr.1.ensures_redirect hundo).bind fun r t l hr => ?_
    cases r with
    | error e => exact hr.1
    | ok savedStdout =>
      refine (hr.1.ensures_restore (hr.2 _ rfl)).bind fun _ t l h => ?_
      exact (hundo t l h).bind fun _ _ _ h => h

end Kept

section Kernel

variable {openable : Opening → Bool} {s : System} {t : DescriptorTable} {fd : Fin maxOpenFds}

theorem mem_inUse : fd ∈ inUse t ↔ t.view fd ≠ none := by
  rw [inUse, Finset.mem_filter, view_eq]
  simp

/-- **One builtin** with a redirection that comes to an end leaves something open that was free. -/
theorem exec_runBuiltinRedirected {b : BuiltinRun}
    (hredirects : ExecutorState.redirects b.command = true)
    (hok : (exec openable b.program s).1.isOk = true) :
    ∃ fd ∉ inUse s.selfTable, fd ∈ inUse (exec openable b.program s).2.selfTable := by
  obtain ⟨l, hended⟩ : ∃ l, Ended b.command s.selfTable.view (exec openable b.program s).1
      (exec openable b.program s).2.selfTable.view l :=
    exec_ensures ensures_runBuiltinRedirected
  rcases hended with ⟨-, hnone⟩ | ⟨k, hfree, hleaves⟩
  · -- Nothing is left behind only by a builtin without redirections.
    cases hr : (exec openable b.program s).1 with
    | error e =>
      rw [hr] at hok
      cases hok
    | ok status =>
      obtain ⟨hstdin, hstdout⟩ := hnone status hr
      rw [ExecutorState.redirects, hstdin, hstdout] at hredirects
      cases hredirects
  · obtain ⟨d, hd⟩ := Option.ne_none_iff_exists'.mp hleaves.isOpen
    obtain ⟨fd, hfd, -⟩ := Option.bind_eq_some_iff.mp hd
    obtain rfl := val_of_fdIndex hfd
    exact ⟨fd, fun hused => mem_inUse.mp hused hfree, mem_inUse.mpr hleaves.isOpen⟩

theorem inUse_exec (openable : Opening → Bool) (b : BuiltinRun) (s : System) :
    (inUse s.selfTable).card +
        (if ExecutorState.redirects b.command ∧ (exec openable b.program s).1.isOk then 1 else 0) ≤
      (inUse (exec openable b.program s).2.selfTable).card := by
  have hkept : inUse s.selfTable ⊆ inUse (exec openable b.program s).2.selfTable := by
    intro fd hfd
    have hleaves : Leaves fd s.selfTable.view [(.close 0, false)] :=
      ⟨mem_inUse.mp hfd, _, List.mem_cons_self, rfl⟩
    obtain ⟨l, hl⟩ : ∃ l, Leaves fd (exec openable b.program s).2.selfTable.view l :=
      exec_ensures (hleaves.ensures_program b)
    exact mem_inUse.mpr hl.isOpen
  split
  · rename_i hran
    obtain ⟨fd, hfree, hused⟩ := exec_runBuiltinRedirected hran.1 hran.2
    exact Finset.card_lt_card ((Finset.ssubset_iff_of_subset hkept).mpr ⟨fd, hused, hfree⟩)
  · exact Finset.card_le_card hkept

/-- **Headline.** However many builtins with redirections are run, no more of them come to an end
than there were free descriptors. -/
theorem builtins_run_out (openable : Opening → Bool) (runs : List BuiltinRun) (s : System) :
    (runBuiltins openable runs s).1 + (inUse s.selfTable).card ≤ maxOpenFds := by
  have hrun : (runBuiltins openable runs s).1 + (inUse s.selfTable).card ≤
      (inUse (runBuiltins openable runs s).2.selfTable).card := by
    induction runs generalizing s with
    | nil => exact (Nat.zero_add _).le
    | cons b rest ih =>
      have hfirst := inUse_exec openable b s
      have hrest := ih (exec openable b.program s).2
      rw [runBuiltins]
      dsimp only
      omega
  exact hrun.trans ((Finset.card_le_univ _).trans_eq (Fintype.card_fin _))

end Kernel

end ImagineOS.Shell
