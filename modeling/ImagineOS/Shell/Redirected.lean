import ImagineOS.Exec.Answers
import ImagineOS.Shell.Expand
import ImagineOS.Shell.Resolve

/-!
# Shell: builtins with redirections

A builtin has no process of its own. For its redirections the shell opens files, makes them its own
standard input and output, and puts back what these were.
-/

namespace ImagineOS.Shell

open Exec Descriptors Function Option

/-! ### The code of the shell -/

structure OpenOptions where
  read : Bool
  write : Bool
  create : Bool
  truncate : Bool
  append : Bool
  deriving DecidableEq

/-- What is opened. -/
structure Opening where
  path : Str
  options : OpenOptions
  deriving DecidableEq

/-- Why a redirection failed, for which the shell has a message. -/
inductive Failure
  /-- `redirecionamento sem destino` -/
  | noTarget
  /-- `caminho de redirecionamento longo demais` -/
  | tooLong
  /-- `caminho de redirecionamento invalido` -/
  | invalid
  /-- `nao foi possivel abrir o arquivo` -/
  | cannotOpen
  /-- `nao foi possivel salvar stdin` -/
  | cannotSaveStdin
  /-- `nao foi possivel redirecionar stdin` -/
  | cannotRedirectStdin
  /-- `nao foi possivel salvar stdout` -/
  | cannotSaveStdout
  /-- `nao foi possivel redirecionar stdout` -/
  | cannotRedirectStdout
  deriving DecidableEq

/-- The options for a redirection. -/
def redirectionOptions (write append : Bool) : OpenOptions :=
  if write then
    if append then ⟨false, true, true, false, true⟩ else ⟨false, true, true, true, false⟩
  else ⟨true, false, false, false, false⟩

/-- `open_redirection`, up to the path that is opened. -/
def redirectionPath (environment : Environment) (cwd : List UInt8) (target : Word) :
    Except Failure Str :=
  match expand environment target with
  | [] => .error .noTarget
  | bytes :: _ =>
    if bytes.length > fieldSize then .error .tooLong
    else match resolve cwd bytes with
    | none => .error .tooLong
    | some resolved =>
      match fromUtf8 resolved with
      | none => .error .invalid
      | some path => .ok path

def openRedirection (environment : Environment) (cwd : List UInt8) (target : Word)
    (write append : Bool) : Program Opening (Except Failure ℕ) :=
  match redirectionPath environment cwd target with
  | .error e => .done (.error e)
  | .ok path => .call (.openFile ⟨path, redirectionOptions write append⟩) fun
    | none => .done (.error .cannotOpen)
    | some fd => .done (.ok fd)

/-- `restore_stdin`, for one of the standard descriptors. -/
def restore (saved std : ℕ) : Program Opening Unit :=
  if saved = usizeMax then .done ()
  else .call (.dup2 saved std) fun _ => .call (.close saved) fun _ => .done ()

/-- A file takes the place of a standard descriptor, of which there is a copy then. -/
def replace (file std : ℕ) (undo : Program Opening Unit) (cannotSave cannotRedirect : Failure) :
    Program Opening (Except Failure ℕ) :=
  .call (.dup std) fun
  | none => .call (.close file) fun _ => undo.bind fun _ => .done (.error cannotSave)
  | some saved => .call (.dup2 file std) fun
    | none => .call (.close file) fun _ => .call (.close saved) fun _ => undo.bind fun _ =>
      .done (.error cannotRedirect)
    | some _ => .done (.ok saved)

/-- One of the two redirections, if there is one. -/
def redirectDescriptor (environment : Environment) (cwd : List UInt8) (target : Option Word)
    (write append : Bool) (std : ℕ) (undo : Program Opening Unit)
    (cannotSave cannotRedirect : Failure) : Program Opening (Except Failure ℕ) :=
  match target with
  | none => .done (.ok usizeMax)
  | some target => (openRedirection environment cwd target write append).bind fun
    | .error e => undo.bind fun _ => .done (.error e)
    | .ok file => replace file std undo cannotSave cannotRedirect

/-- `run_builtin_redirected`, for a builtin that ends with `status`. For an error the shell writes
its message, and the status is `STATUS_FAILURE`. -/
def runBuiltinRedirected (environment : Environment) (cwd : List UInt8) (command : Command)
    (status : Option ℤ) : Program Opening (Except Failure ℤ) :=
  (redirectDescriptor environment cwd command.stdin false false 0 (.done ()) .cannotSaveStdin
    .cannotRedirectStdin).bind fun
  | .error e => .done (.error e)
  | .ok savedStdin =>
    (redirectDescriptor environment cwd command.stdout true command.append 1 (restore savedStdin 0)
      .cannotSaveStdout .cannotRedirectStdout).bind fun
    | .error e => .done (.error e)
    | .ok savedStdout =>
      -- The builtin runs here, and opens and closes nothing.
      (restore savedStdout 1).bind fun _ => (restore savedStdin 0).bind fun _ =>
        .done (.ok (status.getD 1))

/-! ### What stays open -/

/-- A call that leaves something behind: a file was put in the place of a descriptor, or a
descriptor could not be closed. -/
def Disturbing : Descriptors.Call Opening × Bool → Bool
  | (.dup2 _ _, true) => true
  | (.close _, false) => true
  | _ => false

/-- The descriptor `k` is open, and something was left behind. -/
structure Leaves {α : Type} (k : ℕ) (t : FdTable α) (l : Trace Opening) : Prop where
  isOpen : t k ≠ none
  disturbed : ∃ e ∈ l, Disturbing e = true

section Leaves

variable {α : Type} {rules : Rules Opening α} {k n std : ℕ} {t t' : FdTable α} {l : Trace Opening}
  {c : Descriptors.Call Opening}

theorem Leaves.call (h : Leaves k t l) (hc : c ≠ .close k) (heffect : rules.effect n t c = some t')
    (b : Bool) : Leaves k t' ((c, b) :: l) := by
  refine ⟨?_, h.disturbed.imp fun _ he => ⟨List.mem_cons_of_mem _ he.1, he.2⟩⟩
  have hupdate : ∀ (fd : ℕ) (d : α), update t fd (some d) k ≠ none := fun fd d => by
    rw [update_apply]
    split
    · exact some_ne_none d
    · exact h.isOpen
  cases c with
  | openFile what =>
    obtain ⟨-, -, rfl⟩ := rules.place_eq_some.mp heffect
    exact hupdate n _
  | dup fd =>
    obtain ⟨d, -, hplace⟩ := bind_eq_some_iff.mp heffect
    obtain ⟨-, -, rfl⟩ := rules.place_eq_some.mp hplace
    exact hupdate n d
  | dup2 source target =>
    obtain ⟨d, -, rfl⟩ := map_eq_some_iff.mp heffect
    exact hupdate target d
  | close fd =>
    obtain ⟨d, -, rfl⟩ := map_eq_some_iff.mp heffect
    have hne : k ≠ fd := fun he => hc (he ▸ rfl)
    rw [update_of_ne hne]
    exact h.isOpen

theorem Leaves.failed (h : Leaves k t l) : Leaves k t ((c, false) :: l) :=
  ⟨h.isOpen, h.disturbed.imp fun _ he => ⟨List.mem_cons_of_mem _ he.1, he.2⟩⟩

variable {ρ : Type} {Q : ρ → FdTable α → Trace Opening → Prop} {next : Option ℕ → Program Opening ρ}
  {undo : Program Opening Unit}

/-- A call that does not close `k`. -/
theorem Leaves.ensures_call (h : Leaves k t l) (hc : c ≠ .close k)
    (hnext : ∀ answer t l, Leaves k t l → (next answer).Ensures rules Q t l) :
    (Program.call c next).Ensures rules Q t l :=
  ⟨hnext none _ _ h.failed, fun n _ heffect => hnext (some n) _ _ (h.call hc heffect true)⟩

/-- A new descriptor is another one than `k`. -/
theorem Leaves.ensures_openFile {what : Opening} (h : Leaves k t l)
    (hnone : ∀ l, Leaves k t l → (next none).Ensures rules Q t l)
    (hsome : ∀ n t l, n ≠ k → Leaves k t l → (next (some n)).Ensures rules Q t l) :
    (Program.call (.openFile what) next).Ensures rules Q t l := by
  refine ⟨hnone _ h.failed, fun n t' heffect => ?_⟩
  obtain ⟨-, hfree, -⟩ := rules.place_eq_some.mp heffect
  exact hsome n t' _ (fun he => h.isOpen (he ▸ hfree)) (h.call (by nofun) heffect true)

theorem Leaves.ensures_dup {fd : ℕ} (h : Leaves k t l)
    (hnone : ∀ l, Leaves k t l → (next none).Ensures rules Q t l)
    (hsome : ∀ n t l, n ≠ k → Leaves k t l → (next (some n)).Ensures rules Q t l) :
    (Program.call (.dup fd) next).Ensures rules Q t l := by
  refine ⟨hnone _ h.failed, fun n t' heffect => ?_⟩
  obtain ⟨d, -, hplace⟩ := bind_eq_some_iff.mp heffect
  obtain ⟨-, hfree, -⟩ := rules.place_eq_some.mp hplace
  exact hsome n t' _ (fun he => h.isOpen (he ▸ hfree)) (h.call (by nofun) heffect true)

/-- What is put back is put back from another descriptor than `k`. -/
theorem Leaves.ensures_restore {saved : ℕ} (h : Leaves k t l)
    (hsaved : saved = usizeMax ∨ saved ≠ k) :
    (restore saved std).Ensures rules (fun _ => Leaves k) t l := by
  rw [restore]
  split
  · exact h
  · rename_i hne
    refine h.ensures_call nofun fun _ t l h => h.ensures_call (fun he => ?_) fun _ t l h => h
    exact hsaved.resolve_left hne (Call.close.inj he)

theorem Leaves.ensures_replace {file : ℕ} {cannotSave cannotRedirect : Failure} (h : Leaves k t l)
    (hfile : file ≠ k) (hundo : ∀ t l, Leaves k t l → undo.Ensures rules (fun _ => Leaves k) t l) :
    (replace file std undo cannotSave cannotRedirect).Ensures rules
      (fun r t l => Leaves k t l ∧ r ≠ .ok k) t l := by
  have hclose : ∀ fd ≠ k, Call.close (κ := Opening) fd ≠ .close k := fun fd hfd he =>
    hfd (Call.close.inj he)
  have hend : ∀ (e : Failure) t l, Leaves k t l →
      (undo.bind fun _ => .done (.error e)).Ensures rules
        (fun (r : Except Failure ℕ) t l => Leaves k t l ∧ r ≠ .ok k) t l := fun e t l h =>
    (hundo t l h).bind fun _ t l h => ⟨h, nofun⟩
  refine h.ensures_dup (fun l h => ?_) fun saved t l hsaved h => ⟨?_, fun _ _ heffect => ?_⟩
  · exact h.ensures_call (hclose file hfile) fun _ t l h => hend cannotSave t l h
  · exact h.failed.ensures_call (hclose file hfile) fun _ t l h =>
      h.ensures_call (hclose saved hsaved) fun _ t l h => hend cannotRedirect t l h
  · exact ⟨h.call (by nofun) heffect true, fun he => hsaved (Except.ok.inj he)⟩

/-- A redirection that is made while `k` is open. -/
theorem Leaves.ensures_redirect {environment : Environment} {cwd : List UInt8}
    {target : Option Word} {write append : Bool} {cannotSave cannotRedirect : Failure}
    (h : Leaves k t l) (hundo : ∀ t l, Leaves k t l → undo.Ensures rules (fun _ => Leaves k) t l) :
    (redirectDescriptor environment cwd target write append std undo cannotSave
      cannotRedirect).Ensures rules
      (fun r t l => Leaves k t l ∧ ∀ saved, r = .ok saved → saved = usizeMax ∨ saved ≠ k) t l := by
  cases target with
  | none => exact ⟨h, fun saved hsaved => Or.inl (Except.ok.inj hsaved).symm⟩
  | some target =>
    have hopen : (openRedirection environment cwd target write append).Ensures rules
        (fun r t l => Leaves k t l ∧ r ≠ .ok k) t l := by
      rw [openRedirection]
      split
      · exact ⟨h, nofun⟩
      · exact h.ensures_openFile (fun _ h => ⟨h, nofun⟩) fun n _ _ hn h =>
          ⟨h, fun he => hn (Except.ok.inj he)⟩
    refine hopen.bind fun r t l hr => ?_
    cases r with
    | error e => exact (hundo t l hr.1).bind fun _ t l h => ⟨h, nofun⟩
    | ok file =>
      refine (hr.1.ensures_replace (fun he => hr.2 (he ▸ rfl)) hundo).mono fun r t l h => ?_
      exact ⟨h.1, fun saved hsaved => Or.inr fun he => h.2 (he ▸ hsaved)⟩

end Leaves

/-! ### A redirection from the beginning -/

/-- Nothing was left behind, and the table is what it was. -/
structure Untouched {α : Type} (t₀ t : FdTable α) (l : Trace Opening) : Prop where
  table : t = t₀
  quiet : ∀ e ∈ l, Disturbing e = false

/-- Nothing is left behind, or a descriptor that was free. -/
def Settled {α : Type} (t₀ t : FdTable α) (l : Trace Opening) : Prop :=
  Untouched t₀ t l ∨ ∃ k, t₀ k = none ∧ Leaves k t l

/-- How a redirection ends: where nothing is left behind it failed, or there was none and nothing is
to be put back, and what is to be put back is not what is left behind. -/
def Redirected {α : Type} (t₀ : FdTable α) (target : Option Word) (r : Except Failure ℕ)
    (t : FdTable α) (l : Trace Opening) : Prop :=
  (Untouched t₀ t l ∧ ∀ saved, r = .ok saved → saved = usizeMax ∧ target = none) ∨
    ∃ k, t₀ k = none ∧ Leaves k t l ∧ ∀ saved, r = .ok saved → saved = usizeMax ∨ saved ≠ k

section Redirected

variable {α : Type} {rules : Rules Opening α} {n std : ℕ} {t₀ t t' : FdTable α} {l : Trace Opening}
  {c : Descriptors.Call Opening} {d : α}

variable {target : Option Word}

theorem Settled.redirected {e : Failure} (h : Settled t₀ t l) :
    Redirected t₀ target (.error e) t l :=
  h.imp (fun h => ⟨h, nofun⟩) fun ⟨k, hk, h⟩ => ⟨k, hk, h, nofun⟩

theorem quiet_cons (hl : ∀ e ∈ l, Disturbing e = false) {b : Bool}
    (hc : Disturbing (c, b) = false) : ∀ e ∈ (c, b) :: l, Disturbing e = false :=
  List.forall_mem_cons.mpr ⟨hc, hl⟩

theorem ensures_close_new {ρ : Type} {Q : ρ → FdTable α → Trace Opening → Prop}
    {next : Program Opening ρ} (hfree : t₀ n = none) (hl : ∀ e ∈ l, Disturbing e = false)
    (hnext : ∀ t l, Settled t₀ t l → next.Ensures rules Q t l) :
    (Program.call (.close n) fun _ => next).Ensures rules Q (Function.update t₀ n (some d)) l := by
  refine ⟨hnext _ _ (Or.inr ⟨n, hfree, ?_, (.close n, false), List.mem_cons_self, rfl⟩),
    fun m t' heffect => hnext _ _ (Or.inl ⟨?_, quiet_cons hl rfl⟩)⟩
  · rw [update_self]
    exact some_ne_none d
  · obtain ⟨_, -, rfl⟩ := map_eq_some_iff.mp heffect
    rw [update_idem, ← hfree, update_eq_self]

/-- The rest of a redirection, for a file that was just opened. -/
theorem ensures_replace {file : ℕ} {cannotSave cannotRedirect : Failure}
    (hfree : t₀ file = none) (hl : ∀ e ∈ l, Disturbing e = false) :
    (replace file std (.done ()) cannotSave cannotRedirect).Ensures rules (Redirected t₀ target)
      (Function.update t₀ file (some d)) l := by
  refine ⟨ensures_close_new hfree (quiet_cons hl rfl) fun t l h => h.redirected,
    fun saved t' heffect => ⟨⟨?_, fun m t'' heffect' => ?_⟩, fun m t'' heffect' => ?_⟩⟩
  all_goals
    obtain ⟨d', -, hplace⟩ := bind_eq_some_iff.mp heffect
    obtain ⟨-, hsaved, rfl⟩ := rules.place_eq_some.mp hplace
    have hne : saved ≠ file := fun he => by simp [he] at hsaved
    have hfile : update (update t₀ file (some d)) saved (some d') file ≠
        none := by
      rw [update_of_ne hne.symm, update_self]
      exact some_ne_none d
  · -- The file cannot be closed.
    have hleaves : Leaves file _ ((.close file, false) :: (.dup2 file std, false) ::
        (.dup std, true) :: l) := ⟨hfile, (.close file, false), List.mem_cons_self, rfl⟩
    exact hleaves.ensures_call (fun he => hne (Call.close.inj he)) fun _ t l h =>
      Or.inr ⟨file, hfree, h, nofun⟩
  · -- The copy is what is left.
    obtain ⟨_, -, rfl⟩ := map_eq_some_iff.mp heffect'
    rw [update_of_ne hne] at hsaved
    have htable : update (update (update t₀ file (some d)) saved
        (some d')) file none = update t₀ saved (some d') := by
      rw [update_comm hne.symm, update_idem, update_comm hne, ← hfree, update_eq_self]
    rw [htable]
    exact ensures_close_new hsaved (quiet_cons (quiet_cons (quiet_cons hl rfl) rfl) rfl)
      fun t l h => h.redirected
  · -- The file is in its place, and nobody closes `file` any more.
    obtain ⟨d'', -, rfl⟩ := map_eq_some_iff.mp heffect'
    refine Or.inr ⟨file, hfree, ⟨?_, (.dup2 file std, true), List.mem_cons_self, rfl⟩,
      fun saved' hsaved' => Or.inr fun he => hne ((Except.ok.inj hsaved').trans he)⟩
    rw [update_apply]
    split
    · exact some_ne_none d''
    · exact hfile

/-- **A redirection**, when nothing was left behind before it. -/
theorem ensures_redirect {environment : Environment} {cwd : List UInt8}
    {write append : Bool} {cannotSave cannotRedirect : Failure} (h : Untouched t₀ t l) :
    (redirectDescriptor environment cwd target write append std (.done ()) cannotSave
      cannotRedirect).Ensures rules (Redirected t₀ target) t l := by
  obtain ⟨rfl, hl⟩ := h
  cases target with
  | none => exact Or.inl ⟨⟨rfl, hl⟩, fun saved hsaved => ⟨(Except.ok.inj hsaved).symm, rfl⟩⟩
  | some target =>
    show ((openRedirection environment cwd target write append).bind _).Ensures _ _ _ _
    rw [openRedirection]
    split
    · exact Or.inl ⟨⟨rfl, hl⟩, nofun⟩
    · refine ⟨Or.inl ⟨⟨rfl, quiet_cons hl rfl⟩, nofun⟩, fun file t' heffect => ?_⟩
      obtain ⟨-, hfree, rfl⟩ := rules.place_eq_some.mp heffect
      exact ensures_replace hfree (quiet_cons hl rfl)

end Redirected

/-! ### The builtin -/

/-- How a builtin ends: where nothing is left behind it did not run, or it had no redirection. -/
def Ended {α : Type} (command : Command) (t₀ : FdTable α) (r : Except Failure ℤ) (t : FdTable α)
    (l : Trace Opening) : Prop :=
  (Untouched t₀ t l ∧ ∀ status, r = .ok status → command.stdin = none ∧ command.stdout = none) ∨
    ∃ k, t₀ k = none ∧ Leaves k t l

section Builtin

variable {α : Type} {rules : Rules Opening α} {environment : Environment} {cwd : List UInt8}
  {command : Command} {status : Option ℤ} {t₀ t : FdTable α} {l : Trace Opening}
  {r : Except Failure ℤ}

/-- **A builtin with redirections** leaves nothing behind, or a descriptor that was free. -/
theorem ensures_runBuiltinRedirected :
    (runBuiltinRedirected environment cwd command status).Ensures rules (Ended command t₀) t₀
      [] := by
  refine (ensures_redirect ⟨rfl, by simp⟩).bind fun r t l hr => ?_
  cases r with
  | error e => exact hr.imp (fun h => ⟨h.1, nofun⟩) fun ⟨k, hk, h⟩ => ⟨k, hk, h.1⟩
  | ok savedStdin =>
    rcases hr with ⟨huntouched, hsaved⟩ | ⟨k, hk, hleaves, hsaved⟩
    · -- There was no redirection of the input.
      have hnone : ∀ std, restore usizeMax std = .done () := fun std => if_pos rfl
      obtain ⟨rfl, hstdin⟩ := hsaved _ rfl
      simp only [hnone]
      refine (ensures_redirect huntouched).bind fun r t l hr => ?_
      cases r with
      | error e => exact hr.imp (fun h => ⟨h.1, nofun⟩) fun ⟨k, hk, h⟩ => ⟨k, hk, h.1⟩
      | ok savedStdout =>
        rcases hr with ⟨huntouched, hsaved⟩ | ⟨k, hk, hleaves, hsaved⟩
        · obtain ⟨rfl, hstdout⟩ := hsaved _ rfl
          simp only [hnone]
          exact Or.inl ⟨huntouched, fun _ _ => ⟨hstdin, hstdout⟩⟩
        · exact (hleaves.ensures_restore (hsaved _ rfl)).bind fun _ t l h => Or.inr ⟨k, hk, h⟩
    · have hundo : ∀ t l, Leaves k t l →
          (restore savedStdin 0).Ensures rules (fun _ => Leaves k) t l := fun t l h =>
        h.ensures_restore (hsaved _ rfl)
      refine (hleaves.ensures_redirect hundo).bind fun r t l hr => ?_
      cases r with
      | error e => exact Or.inr ⟨k, hk, hr.1⟩
      | ok savedStdout =>
        refine (hr.1.ensures_restore (hr.2 _ rfl)).bind fun _ t l h => ?_
        exact (hundo t l h).bind fun _ t l h => Or.inr ⟨k, hk, h⟩

theorem Ended.table_iff (h : Ended command t₀ r t l) :
    t = t₀ ↔ ∀ e ∈ l, Disturbing e = false := by
  rcases h with ⟨h, -⟩ | ⟨k, hk, h⟩
  · exact iff_of_true h.table h.quiet
  · refine iff_of_false (fun he => h.isOpen (he ▸ hk)) fun hquiet => ?_
    obtain ⟨e, he, hdisturbing⟩ := h.disturbed
    rw [hquiet e he] at hdisturbing
    cases hdisturbing

/-- **Headline.** After a builtin with redirections the table is what it was exactly if no `dup2`
succeeded and no `close` failed. -/
theorem table_runBuiltinRedirected_iff (rules : Rules Opening α) (environment : Environment)
    (cwd : List UInt8) (command : Command) (status : Option ℤ) (t₀ : FdTable α)
    (answers : ℕ → Option ℕ) :
    ((runBuiltinRedirected environment cwd command status).run rules
        ⟨t₀, answers, []⟩).2.table = t₀ ↔
      ∀ e ∈ ((runBuiltinRedirected environment cwd command status).run rules
        ⟨t₀, answers, []⟩).2.trace, Disturbing e = false :=
  (@Program.Ensures.run _ _ _ _ _ _ ⟨t₀, answers, []⟩ ensures_runBuiltinRedirected).table_iff

/-- `echo hi > f` -/
def echoToFile : Command where
  words := [⟨[⟨[101, 99, 104, 111], .unquoted, false⟩]⟩, ⟨[⟨[104, 105], .unquoted, false⟩]⟩]
  stdin := none
  stdout := some ⟨[⟨[102], .unquoted, false⟩]⟩
  append := false

/-- The standard descriptors. -/
def standard : FdTable Unit := fun fd => if fd < 3 then some () else none

/-- The descriptor 3 for a file stays open, although all calls succeed. -/
theorem file_stays_open :
    ¬ ∀ (command : Command) (answers : ℕ → Option ℕ),
      ((runBuiltinRedirected .new [47] command (some 0)).run
        ⟨fun _ => (), fun n => 3 ≤ n ∧ n < maxOpenFds⟩ ⟨standard, answers, []⟩).2.table =
          standard := by
  intro h
  have hfile := congrFun (h echoToFile fun n => [3, 4, 1, 1, 0][n]?) 3
  revert hfile
  decide +kernel

end Builtin

end ImagineOS.Shell
