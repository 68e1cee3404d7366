import ImagineOS.Shell.Pipeline
import ImagineOS.Shell.Redirected

/-!
# Shell: redirections of the stages of a pipeline

A command that is run alone and the stages of a pipeline are launched by code of their own. The
first opens the files of the redirections, and makes them the standard descriptors of the child; the
second only knows the ends of the pipes. So a stage with a redirection never runs as it does alone,
and the other stages have nothing to be redirected (`runsAsAlone_iff`).
-/

namespace ImagineOS.Shell

open Exec Descriptors Function Option

/-- Where a descriptor comes from. -/
inductive Origin
  /-- The shell had it. -/
  | inherited (fd : ℕ)
  /-- An end of a pipe that the shell made. -/
  | pipeEnd (e : End) (index : ℕ)
  | file (opening : Opening)
  deriving DecidableEq

/-- Files are where they come from, and the kernel gives numbers from 3 on. -/
def originRules : Rules Opening Origin where
  object := .file
  numbers n := 3 ≤ n ∧ n < maxOpenFds

/-- The table of a shell with some open descriptors. -/
def inherit (isOpen : ℕ → Bool) : FdTable Origin := fun fd =>
  if isOpen fd then some (.inherited fd) else none

/-! ### A command that is run alone -/

/-- `process::fork()`. There is no number for an error, and the child is told 0. -/
def forkAnswer (w : World Opening Origin) : Option ℕ × World Opening Origin :=
  (w.answers 0, { w with answers := fun k => w.answers (k + 1) })

theorem table_of_forkAnswer {w w' : World Opening Origin} {answer : Option ℕ}
    (h : forkAnswer w = (answer, w')) : w'.table = w.table := by
  obtain ⟨-, rfl⟩ := Prod.mk.inj h
  rfl

/-- A file for a redirection, or `usize::MAX` where there is none. -/
def openTarget (environment : Environment) (cwd : List UInt8) (target : Option Word)
    (write append : Bool) : Program Opening (Except Failure ℕ) :=
  match target with
  | none => .done (.ok usizeMax)
  | some target => openRedirection environment cwd target write append

/-- Descriptors are closed, unless they are `usize::MAX`. -/
def closeOpened {ρ : Type} : List ℕ → Program Opening ρ → Program Opening ρ
  | [], next => next
  | fd :: rest, next =>
    if fd = usizeMax then closeOpened rest next
    else .call (.close fd) fun _ => closeOpened rest next

/-- The beginning of `run_external`: both files, in `opened` and in `io`. -/
def openRedirections (environment : Environment) (cwd : List UInt8) (command : Command) :
    Program Opening (Except Failure (ℕ × ℕ)) :=
  (openTarget environment cwd command.stdin false false).bind fun
  | .error e => .done (.error e)
  | .ok stdin => (openTarget environment cwd command.stdout true command.append).bind fun
    | .error e => closeOpened [stdin] (.done (.error e))
    | .ok stdout => .done (.ok (stdin, stdout))

/-- `dup2`, unless there is nothing to redirect. The child exits where it fails. -/
def redirectTo (fd std : ℕ) (next : Program Opening Bool) : Program Opening Bool :=
  if fd = usizeMax then next
  else .call (.dup2 fd std) fun
    | none => .done false
    | some _ => next

/-- The child of `run_external`, up to `execve_stage`, or up to its exit if it returns `false`. -/
def installRedirections (opened : ℕ × ℕ) : Program Opening Bool :=
  redirectTo opened.1 0 (redirectTo opened.2 1 (closeOpened [opened.1, opened.2] (.done true)))

/-- How `run_external` goes on. -/
inductive External
  /-- The message for a redirection is written, and the status is `STATUS_FAILURE`. -/
  | failed (e : Failure)
  /-- `falha ao criar processo` -/
  | noProcess
  /-- The child exits with 1. -/
  | exits
  /-- The child goes on with `execve_stage`. -/
  | execveStage
  /-- The shell waits for the child. -/
  | waits (pid : ℕ)
  deriving DecidableEq

/-- `run_external`, until the child is waited for, or goes on with `execve_stage`. -/
def runExternal (environment : Environment) (cwd : List UInt8) (command : Command)
    (w : World Opening Origin) : External × World Opening Origin :=
  match (openRedirections environment cwd command).run originRules w with
  | (.error e, w) => (.failed e, w)
  | (.ok opened, w) =>
    let closed (w : World Opening Origin) :=
      ((closeOpened [opened.1, opened.2] (.done ())).run originRules w).2
    match forkAnswer w with
    | (none, w) => (.noProcess, closed w)
    | (some 0, w) =>
      let (installed, w) := (installRedirections opened).run originRules w
      (if installed then .execveStage else .exits, w)
    | (some pid, w) => (.waits pid, closed w)

/-! ### The code of a pipeline -/

/-- `process::pipe()`, for the pipe with the given index. -/
def pipeAnswer (index : ℕ) (w : World Opening Origin) :
    Option (ℕ × ℕ) × World Opening Origin :=
  let ends := do
    let readEnd ← w.answers 0
    let writeEnd ← w.answers 1
    let t ← originRules.place (.pipeEnd .reader index) readEnd w.table
    let t ← originRules.place (.pipeEnd .writer index) writeEnd t
    return ((readEnd, writeEnd), t)
  (ends.map Prod.fst,
    { w with table := ends.elim w.table Prod.snd, answers := fun k => w.answers (k + 2) })

/-- The code of a pipeline runs, after `launched` stages were forked and `made` pipes were made. It
returns its end, with the number of stages that were forked before. -/
def Code.run : Code → (launched made : ℕ) → World Opening Origin →
    (Ending × ℕ) × World Opening Origin
  | .pipe next, launched, made, w =>
    let (ends, w) := pipeAnswer made w
    (next ends).run launched (made + 1) w
  | .fork next, launched, made, w =>
    match forkAnswer w with
    | (none, w) => (next (-1)).run launched made w
    | (some pid, w) => (next pid).run (if 0 < pid then launched + 1 else launched) made w
  | .close fd next, launched, made, w => next.run launched made (w.call originRules (.close fd)).2
  | .duplicateTo source target next, launched, made, w =>
    next.run launched made (w.call originRules (.dup2 source target)).2
  | .ended ending, launched, _, w => ((ending, launched), w)

/-- A run of a pipeline of some stages, in a shell with some open descriptors. -/
def runPipeline (stageCount : ℕ) (isOpen : ℕ → Bool) (answers : ℕ → Option ℕ) :
    (Ending × ℕ) × World Opening Origin :=
  (runPipelineProcesses stageCount).run 0 0 ⟨inherit isOpen, answers, []⟩

/-! ### What a stage gets -/

/-- There is a run of the command alone in which it gets what a process with the table `t` has, for
each redirection of it. -/
def RunsAsAlone (environment : Environment) (cwd : List UInt8) (command : Command)
    (isOpen : ℕ → Bool) (t : FdTable Origin) : Prop :=
  ∃ answers, ∃ w, runExternal environment cwd command ⟨inherit isOpen, answers, []⟩ =
      (.execveStage, w) ∧
    (command.stdin ≠ none → t 0 = w.table 0) ∧ (command.stdout ≠ none → t 1 = w.table 1)

/-- No descriptor is for a file. -/
def NoFiles (t : FdTable Origin) : Prop := ∀ fd opening, t fd ≠ some (.file opening)

/-! ### The files of a command that is run alone -/

section Alone

variable {environment : Environment} {cwd : List UInt8} {command : Command} {target : Option Word}
  {write append : Bool} {n std : ℕ} {t t' : FdTable Origin} {l : Trace Opening}
  {w : World Opening Origin}

/-- What a descriptor is for after a redirection, where it was for `d₀` before: a file, or the
same. -/
def Gets (environment : Environment) (cwd : List UInt8) (target : Option Word)
    (write append : Bool) (d₀ d : Option Origin) : Prop :=
  match target with
  | none => d = d₀
  | some target => ∃ path, redirectionPath environment cwd target = .ok path ∧
      d = some (.file ⟨path, redirectionOptions write append⟩)

/-- The number that `openTarget` returned, and the table after it. -/
structure Opened (environment : Environment) (cwd : List UInt8) (target : Option Word)
    (write append : Bool) (n : ℕ) (t t' : FdTable Origin) : Prop where
  three_le : 3 ≤ n
  low : ∀ fd < 3, t' fd = t fd
  kept : ∀ fd, t fd ≠ none → t' fd = t fd
  gets : ∀ d₀, Gets environment cwd target write append d₀ (if n = usizeMax then d₀ else t' n)
  isOpen : n ≠ usizeMax → t' n ≠ none

theorem opened_none : Opened environment cwd none write append usizeMax t t :=
  ⟨by decide, fun _ _ => rfl, fun _ _ => rfl, fun _ => if_pos rfl, absurd rfl⟩

theorem ensures_openTarget :
    (openTarget environment cwd target write append).Ensures originRules
      (fun r t' _ => ∀ n, r = .ok n → Opened environment cwd target write append n t t') t l := by
  cases target with
  | none =>
    rintro n ⟨⟩
    exact opened_none
  | some target =>
    rw [openTarget, openRedirection]
    split
    · intro n h
      cases h
    · rename_i path hpath
      refine ⟨fun n h => (by cases h), fun n t' heffect m hm => ?_⟩
      obtain rfl := Except.ok.inj hm
      obtain ⟨hnumber, hfree, rfl⟩ := originRules.place_eq_some.mp heffect
      have hnumber' : 3 ≤ n ∧ n < maxOpenFds := by simpa [originRules] using hnumber
      have hne : n ≠ usizeMax := (hnumber'.2.trans (by decide)).ne
      refine ⟨hnumber'.1, fun fd hfd => ?_, fun fd hfd => ?_, fun d₀ => ?_, fun _ => ?_⟩
      · exact update_of_ne (hfd.trans_le hnumber'.1).ne _ _
      · exact update_of_ne (fun he : fd = n => hfd (he ▸ hfree)) _ _
      · rw [if_neg hne, update_self]
        exact ⟨path, hpath, rfl⟩
      · rw [update_self]
        exact some_ne_none _

variable {ρ : Type} {Q : ρ → FdTable Origin → Trace Opening → Prop} {next : Program Opening ρ}

theorem ensures_closeOpened {fds : List ℕ}
    (hnext : ∀ t' l, (∀ fd ∉ fds, t' fd = t fd) → next.Ensures originRules Q t' l) :
    (closeOpened fds next).Ensures originRules Q t l := by
  induction fds generalizing t l with
  | nil => exact hnext t l fun _ _ => rfl
  | cons fd rest ih =>
    rw [closeOpened]
    have hrest : ∀ t₁ l, (∀ fd' ≠ fd, t₁ fd' = t fd') →
        (closeOpened rest next).Ensures originRules Q t₁ l := fun t₁ l h₁ =>
      ih fun t' l h' => hnext t' l fun fd' hfd' => by
        rw [List.mem_cons, not_or] at hfd'
        rw [h' fd' hfd'.2, h₁ fd' hfd'.1]
    split
    · exact hrest t l fun _ _ => rfl
    · refine ⟨hrest _ _ fun _ _ => rfl, fun n t₁ heffect => hrest _ _ fun fd' hfd' => ?_⟩
      obtain ⟨_, -, rfl⟩ := map_eq_some_iff.mp heffect
      exact update_of_ne hfd' _ _

theorem ensures_redirectTo {Q : Bool → FdTable Origin → Trace Opening → Prop}
    {next : Program Opening Bool} {fd : ℕ} (hfalse : ∀ t l, Q false t l)
    (hnext : ∀ l, next.Ensures originRules Q
      (Function.update t std (if fd = usizeMax then t std else t fd)) l) :
    (redirectTo fd std next).Ensures originRules Q t l := by
  rw [redirectTo]
  split
  · rename_i hnone
    have hsame := hnext l
    rwa [if_pos hnone, update_eq_self] at hsame
  · rename_i hsome
    refine ⟨hfalse _ _, fun n t' heffect => ?_⟩
    obtain ⟨d, hd, rfl⟩ := map_eq_some_iff.mp heffect
    have hdup := hnext ((.dup2 fd std, true) :: l)
    rwa [if_neg hsome, hd] at hdup

theorem ensures_openRedirections :
    (openRedirections environment cwd command).Ensures originRules
      (fun r t' _ => ∀ a b, r = .ok (a, b) → ∃ t₁,
        Opened environment cwd command.stdin false false a t t₁ ∧
        Opened environment cwd command.stdout true command.append b t₁ t') t l := by
  refine ensures_openTarget.bind fun r t₁ l h₁ => ?_
  cases r with
  | error e => exact nofun
  | ok a =>
    refine ensures_openTarget.bind fun r t' l h' => ?_
    cases r with
    | error e => exact ensures_closeOpened fun _ _ _ => nofun
    | ok b =>
      rintro _ _ ⟨⟩
      exact ⟨t₁, h₁ a rfl, h' b rfl⟩

/-- **The child** has what the redirections say. -/
theorem ensures_installRedirections {t₁ : FdTable Origin} {a b : ℕ}
    (ha : Opened environment cwd command.stdin false false a t t₁)
    (hb : Opened environment cwd command.stdout true command.append b t₁ t') :
    (installRedirections (a, b)).Ensures originRules
      (fun installed t' _ => installed = true →
        Gets environment cwd command.stdin false false (t 0) (t' 0) ∧
        Gets environment cwd command.stdout true command.append (t 1) (t' 1)) t' l := by
  refine ensures_redirectTo (fun _ _ => nofun) fun l => ensures_redirectTo (fun _ _ => nofun)
    fun l => ensures_closeOpened fun t'' l hkept _ => ?_
  have hlow : ∀ fd < 3, fd ∉ [a, b] := fun fd hfd hmem => by
    rcases List.mem_cons.mp hmem with rfl | hmem
    · exact absurd ha.three_le (not_le.mpr hfd)
    · rw [List.mem_singleton.mp hmem] at hfd
      exact absurd hb.three_le (not_le.mpr hfd)
  have h₀ := hkept 0 (hlow 0 (by decide))
  have h₁ := hkept 1 (hlow 1 (by decide))
  have hb₀ : b ≠ 0 := (Nat.lt_of_lt_of_le (by decide) hb.three_le).ne'
  rw [update_of_ne (by decide), update_self] at h₀
  rw [update_self, update_of_ne (by decide), update_of_ne hb₀] at h₁
  constructor
  · rw [h₀]
    have hgets := ha.gets (t 0)
    split at hgets
    · rename_i hnone
      rwa [if_pos hnone, hb.low 0 (by decide), ha.low 0 (by decide)]
    · rename_i hsome
      rwa [if_neg hsome, hb.kept a (ha.isOpen hsome)]
  · rw [h₁, hb.low 1 (by decide), ha.low 1 (by decide)]
    exact hb.gets (t 1)

/-- **A command that is run alone** gets the files of its redirections. -/
theorem runExternal_redirected {w' : World Opening Origin}
    (h : runExternal environment cwd command w = (.execveStage, w')) :
    Gets environment cwd command.stdin false false (w.table 0) (w'.table 0) ∧
      Gets environment cwd command.stdout true command.append (w.table 1) (w'.table 1) := by
  have hopen := (@ensures_openRedirections environment cwd command w.table w.trace).run
  rw [runExternal] at h
  rcases hrun : (openRedirections environment cwd command).run originRules w with ⟨_ | ⟨a, b⟩, w₁⟩
  · rw [hrun] at h
    cases h
  · rw [hrun] at h hopen
    obtain ⟨t₁, ha, hb⟩ := hopen a b rfl
    dsimp only at h
    rcases hfork : forkAnswer w₁ with ⟨_ | _ | pid, w₂⟩
    · rw [hfork] at h
      cases h
    · rw [hfork] at h
      rw [← table_of_forkAnswer hfork] at hb
      have hinstall := (@ensures_installRedirections _ _ _ _ _ w₂.trace _ _ _ ha hb).run
      rcases hinstalled : (installRedirections (a, b)).run originRules w₂ with ⟨_ | _, w₃⟩
      · simp only [hinstalled] at h
        cases h
      · simp only [hinstalled] at h
        rw [hinstalled] at hinstall
        obtain rfl : w₃ = w' := (Prod.mk.inj h).2
        exact hinstall rfl
    · rw [hfork] at h
      cases h

end Alone

/-! ### The descriptors of a stage -/

section Stage

variable {t t' : FdTable Origin} {w : World Opening Origin} {launched made : ℕ} {n : ℕ}

theorem noFiles_inherit (isOpen : ℕ → Bool) : NoFiles (inherit isOpen) := by
  intro fd opening
  rw [inherit]
  split <;> simp

theorem NoFiles.update (h : NoFiles t) {fd : ℕ} {d : Option Origin}
    (hd : ∀ opening, d ≠ some (.file opening)) : NoFiles (Function.update t fd d) := by
  intro fd' opening
  rw [update_apply]
  split
  · exact hd opening
  · exact h fd' opening

theorem NoFiles.place (h : NoFiles t) {e : End} {index : ℕ}
    (hplace : originRules.place (.pipeEnd e index) n t = some t') : NoFiles t' := by
  obtain ⟨-, -, rfl⟩ := originRules.place_eq_some.mp hplace
  exact h.update (by simp)

theorem NoFiles.call (h : NoFiles w.table) {c : Descriptors.Call Opening}
    (hc : ∀ n t', originRules.effect n w.table c = some t' → NoFiles t') :
    NoFiles (w.call originRules c).2.table := by
  rw [World.call]
  split
  · rename_i n t' heq
    obtain ⟨m, -, hm⟩ := bind_eq_some_iff.mp heq
    obtain ⟨t'', heffect, hpair⟩ := map_eq_some_iff.mp hm
    obtain ⟨rfl, rfl⟩ := Prod.mk.inj hpair
    exact hc m t'' heffect
  · exact h

theorem NoFiles.pipeAnswer (h : NoFiles w.table) (index : ℕ) :
    NoFiles (pipeAnswer index w).2.table := by
  rw [Shell.pipeAnswer]
  dsimp only
  generalize hends : (do
    let readEnd ← w.answers 0
    let writeEnd ← w.answers 1
    let t ← originRules.place (.pipeEnd .reader index) readEnd w.table
    let t ← originRules.place (.pipeEnd .writer index) writeEnd t
    return ((readEnd, writeEnd), t) : Option ((ℕ × ℕ) × FdTable Origin)) = ends
  cases ends with
  | none => exact h
  | some ends =>
    simp only [bind_eq_bind, pure_def, bind_eq_some_iff] at hends
    obtain ⟨_, -, _, -, t₁, h₁, t₂, h₂, heq⟩ := hends
    rw [← Option.some.inj heq]
    exact (h.place h₁).place h₂

/-- **The code of a pipeline** opens no files. -/
theorem NoFiles.run (h : NoFiles w.table) (code : Code) :
    NoFiles (code.run launched made w).2.table := by
  induction code generalizing launched made w with
  | pipe next ih => exact ih _ (h.pipeAnswer made)
  | fork next ih =>
    rw [Code.run]
    split <;> rename_i hfork
    · exact ih _ ((table_of_forkAnswer hfork).symm ▸ h)
    · exact ih _ ((table_of_forkAnswer hfork).symm ▸ h)
  | close fd next ih =>
    refine ih (h.call fun n t' heffect => ?_)
    obtain ⟨_, -, rfl⟩ := map_eq_some_iff.mp heffect
    exact h.update nofun
  | duplicateTo source target next ih =>
    refine ih (h.call fun n t' heffect => ?_)
    obtain ⟨d, hd, rfl⟩ := map_eq_some_iff.mp heffect
    exact h.update fun opening he => h source opening (hd.trans he)
  | ended ending => exact h

/-! ### The stage that is launched -/

theorem run_closeAll (l : List ℕ) (next : Code) (launched made : ℕ) (w : World Opening Origin) :
    ∃ w', (closeAll l next).run launched made w = next.run launched made w' := by
  induction l generalizing w with
  | nil => exact ⟨w, rfl⟩
  | cons fd rest ih => exact ih _

theorem run_install (fd target : ℕ) (next : Code) (launched made : ℕ) (w : World Opening Origin) :
    ∃ w', (install fd target next).run launched made w = next.run launched made w' := by
  rw [install]
  split
  · exact ⟨w, rfl⟩
  · exact ⟨_, rfl⟩

theorem run_closePipes (pipes : List (ℕ × ℕ)) (ending : Ending) :
    ((closePipes pipes (.ended ending)).run launched made w).1 = (ending, launched) := by
  obtain ⟨w', h⟩ := run_closeAll (descriptors pipes) (.ended ending) launched made w
  rw [closePipes, h]
  rfl

theorem run_childSetupPipes (pipes : List (ℕ × ℕ)) (index stageCount : ℕ) (ending : Ending) :
    ((childSetupPipes pipes index stageCount (.ended ending)).run launched made w).1 =
      (ending, launched) := by
  rw [childSetupPipes]
  obtain ⟨w₁, h₁⟩ := run_closeAll _ _ launched made w
  obtain ⟨w₂, h₂⟩ := run_install _ _ _ launched made w₁
  obtain ⟨w₃, h₃⟩ := run_install _ _ _ launched made w₂
  rw [h₁, h₂, h₃]
  rfl

theorem index_of_forkStages {pipes : List (ℕ × ℕ)} {stageCount count index i : ℕ} {pids : List ℤ}
    (h : ((forkStages pipes stageCount count index pids).run index made w).1 = (.execveStage, i)) :
    i < index + count := by
  induction count generalizing index pids w with
  | zero =>
    rw [forkStages, run_closePipes] at h
    cases h
  | succ count ih =>
    rw [forkStages, Code.run] at h
    split at h
    · rw [if_pos (by decide), run_closePipes] at h
      cases h
    · rename_i pid _ _
      rw [if_neg (not_lt.mpr (Int.natCast_nonneg pid))] at h
      cases pid with
      | zero =>
        rw [if_pos (by rfl), if_neg (lt_irrefl 0), run_childSetupPipes] at h
        rw [← (Prod.mk.inj h).2]
        exact Nat.lt_add_of_pos_right (Nat.succ_pos count)
      | succ pid =>
        rw [if_neg (by omega), if_pos (Nat.succ_pos pid)] at h
        exact (ih h).trans_eq (by omega)

theorem index_of_createPipes {pipes : List (ℕ × ℕ)} {stageCount count i : ℕ}
    (h : ((createPipes count pipes fun pipes => forkStages pipes stageCount stageCount 0 []).run 0
      made w).1 = (.execveStage, i)) : i < stageCount := by
  induction count generalizing pipes made w with
  | zero => exact (index_of_forkStages h).trans_eq (Nat.zero_add _)
  | succ count ih =>
    rw [createPipes, Code.run] at h
    dsimp only at h
    split at h
    · exact ih h
    · rw [run_closePipes] at h
      cases h

end Stage

/-! ### Redirections of stages -/

section Redirections

variable {environment : Environment} {cwd : List UInt8} {command : Command} {isOpen : ℕ → Bool}
  {t : FdTable Origin}

theorem not_gets {target : Word} {write append : Bool} {d₀ : Option Origin} {fd : ℕ}
    (h : NoFiles t) : ¬ Gets environment cwd (some target) write append d₀ (t fd) := by
  rintro ⟨path, -, hpath⟩
  exact h fd _ hpath

theorem runsAsAlone_iff (h : NoFiles t) : RunsAsAlone environment cwd command isOpen t ↔
    command.stdin = none ∧ command.stdout = none := by
  obtain ⟨words, stdin, stdout, append⟩ := command
  constructor
  · rintro ⟨answers, w, halone, hstdin, hstdout⟩
    have hgets := runExternal_redirected halone
    dsimp only at hgets hstdin hstdout ⊢
    constructor
    · cases stdin with
      | none => rfl
      | some target =>
        rw [← hstdin (some_ne_none _)] at hgets
        exact absurd hgets.1 (not_gets h)
    · cases stdout with
      | none => rfl
      | some target =>
        rw [← hstdout (some_ne_none _)] at hgets
        exact absurd hgets.2 (not_gets h)
  · rintro ⟨hstdin, hstdout⟩
    dsimp only at hstdin hstdout
    subst hstdin hstdout
    exact ⟨fun _ => some 0, _, rfl, absurd rfl, absurd rfl⟩

/-- **Headline.** Every process that gets to `execve_stage` in a pipeline is for one of its stages,
and it runs as alone exactly if the stage has no redirection. -/
theorem stage_runsAsAlone_iff (environment : Environment) (cwd : List UInt8)
    (commands : List Command) (isOpen : ℕ → Bool) (answers : ℕ → Option ℕ)
    (h : (runPipeline commands.length isOpen answers).1.1 = .execveStage) :
    ∃ command, commands[(runPipeline commands.length isOpen answers).1.2]? = some command ∧
      (RunsAsAlone environment cwd command isOpen
          (runPipeline commands.length isOpen answers).2.table ↔
        command.stdin = none ∧ command.stdout = none) := by
  have hindex := index_of_createPipes (Prod.ext h rfl :
    (runPipeline commands.length isOpen answers).1 = (.execveStage, _))
  exact ⟨_, List.getElem?_eq_getElem hindex, runsAsAlone_iff ((noFiles_inherit isOpen).run _)⟩

/-- `cat < f | cat` -/
def catFile : List Command :=
  [⟨[⟨[⟨[99, 97, 116], .unquoted, false⟩]⟩], some ⟨[⟨[102], .unquoted, false⟩]⟩, none, false⟩,
    ⟨[⟨[⟨[99, 97, 116], .unquoted, false⟩]⟩], none, none, false⟩]

/-- The pipe has the ends 3 and 4, and all answers after it are 0: this is the first child. -/
def firstChild : ℕ → Option ℕ := fun n => some ([3, 4].getD n 0)

theorem run_firstChild :
    (runPipeline catFile.length (fun fd => fd < 3) firstChild).1 = (.execveStage, 0) := by
  decide +kernel

/-- The first `cat` does not get its file. -/
theorem redirection_ignored :
    ¬ ∀ (commands : List Command) (isOpen : ℕ → Bool) (answers : ℕ → Option ℕ) (index : ℕ)
        (command : Command),
      (runPipeline commands.length isOpen answers).1 = (.execveStage, index) →
      commands[index]? = some command →
      RunsAsAlone .new [47] command isOpen
        (runPipeline commands.length isOpen answers).2.table := by
  intro h
  have halone := h catFile (fun fd => fd < 3) firstChild 0 _ run_firstChild rfl
  have hnone := ((runsAsAlone_iff ((noFiles_inherit fun fd => fd < 3).run _)).mp halone).1
  cases hnone

theorem stage_runsAsAlone_iff_catFile :
    ∃ command, catFile[(runPipeline catFile.length (fun fd => fd < 3) firstChild).1.2]? =
        some command ∧
      (RunsAsAlone .new [47] command (fun fd => fd < 3)
          (runPipeline catFile.length (fun fd => fd < 3) firstChild).2.table ↔
        command.stdin = none ∧ command.stdout = none) :=
  stage_runsAsAlone_iff .new [47] catFile (fun fd => fd < 3) firstChild
    (congrArg Prod.fst run_firstChild)

end Redirections

end ImagineOS.Shell
