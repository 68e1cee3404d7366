import ImagineOS.Shell.Parser
import Mathlib.Data.List.Basic
import Mathlib.Order.Nat

/-!
# Shell: lists of pipelines

`run_list` runs the pipelines of a line one after another. After a pipeline whose status its
operator does not accept it looks for the end of the and-or list, by the operators *after* each
pipeline, and so stops at the last pipeline of the and-or list, which it runs whatever joins it to
the others: in `false && b` the pipeline `b` runs (`unsatisfied_runs`).
-/

namespace ImagineOS.Shell

abbrev Status := ℤ

def statusSuccess : Status := 0

/-- `Executor`: what running a pipeline does, over the states of the shell and of what is around it.
-/
structure Executor (σ : Type) where
  runPipeline : Pipeline → σ → Status × σ
  /-- `Environment::set_status` -/
  setStatus : Status → σ → σ
  shouldExit : σ → Bool

/-- What became of a list: the status in the end, and the places of the pipelines that ran. -/
structure Outcome (σ : Type) where
  status : Status
  executed : List ℕ
  state : σ

/-- A pipeline ran before. -/
def Outcome.after {σ : Type} (index : ℕ) (o : Outcome σ) : Outcome σ :=
  { o with executed := index :: o.executed }

/-- The operators of and-or lists. -/
def Connector.joins : Connector → Bool
  | .onSuccess | .onFailure => true
  | _ => false

/-- The loop of `skip_alternates`. -/
def skipLoop : List Entry → ℕ → ℕ
  | [], index => index
  | entry :: rest, index => if entry.connector.joins then skipLoop rest (index + 1) else index

def skipAlternates (entries : List Entry) (index : ℕ) : ℕ := skipLoop (entries.drop index) index

theorem le_skipLoop (entries : List Entry) (index : ℕ) : index ≤ skipLoop entries index := by
  induction entries generalizing index with
  | nil => exact le_rfl
  | cons entry rest ih =>
    rw [skipLoop]
    split
    · exact (Nat.le_succ _).trans (ih _)
    · exact le_rfl

theorem le_skipAlternates (entries : List Entry) (index : ℕ) :
    index ≤ skipAlternates entries index := le_skipLoop _ _

namespace Executor

variable {σ : Type} (E : Executor σ)

/-- A pipeline runs, and `$?` is set. -/
def execute (pipeline : Pipeline) (s : σ) : Status × σ :=
  let (status, s) := E.runPipeline pipeline s
  (status, E.setStatus status s)

/-- The loop of `run_list`. -/
def runFrom (entries : List Entry) (index : ℕ) (status : Status) (s : σ) : Outcome σ :=
  if h : index < entries.length then
    let entry := entries[index]
    let (status, s) := E.execute entry.pipeline s
    if E.shouldExit s then ⟨status, [index], s⟩
    else match entry.connector with
    | .end_ => ⟨status, [index], s⟩
    | .always | .background => (runFrom entries (index + 1) status s).after index
    | .onSuccess =>
      if status ≠ statusSuccess then
        (runFrom entries (skipAlternates entries (index + 1)) status s).after index
      else (runFrom entries (index + 1) status s).after index
    | .onFailure =>
      if status = statusSuccess then
        (runFrom entries (skipAlternates entries (index + 1)) status s).after index
      else (runFrom entries (index + 1) status s).after index
  else ⟨status, [], s⟩
  termination_by entries.length - index
  decreasing_by
    all_goals have hskip := le_skipAlternates entries (index + 1)
    all_goals omega

def runList (entries : List Entry) (s : σ) : Outcome σ := E.runFrom entries 0 statusSuccess s

end Executor

/-! ### Short-circuit evaluation -/

/-- Whether the operator before a pipeline lets it run, after the status of the last pipeline that
ran. -/
def Connector.permits : Connector → Status → Bool
  | .always, _ | .background, _ => true
  | .onSuccess, status => status == statusSuccess
  | .onFailure, status => status != statusSuccess
  | .end_, _ => false

namespace Executor

variable {σ : Type} (E : Executor σ)

/-- Short-circuit evaluation from the left: a pipeline runs if the operator before it permits that
after the last pipeline that ran, and is skipped otherwise. -/
def posixFrom : Connector → Status → List Entry → ℕ → σ → Outcome σ
  | _, status, [], _, s => ⟨status, [], s⟩
  | before, status, entry :: rest, index, s =>
    if before.permits status then
      let (status, s) := E.execute entry.pipeline s
      if E.shouldExit s ∨ entry.connector = .end_ then ⟨status, [index], s⟩
      else (posixFrom entry.connector status rest (index + 1) s).after index
    else if entry.connector = .end_ then ⟨status, [], s⟩
    else posixFrom entry.connector status rest (index + 1) s

/-- Short-circuit evaluation of a list. -/
def posix (entries : List Entry) (s : σ) : Outcome σ :=
  E.posixFrom .always statusSuccess entries 0 s

end Executor

/-- After a status that the operator before these entries does not permit, evaluation resumes with
the last pipeline of the and-or list, or nothing is left. -/
def Resumes (status : Status) : List Entry → Prop
  | [] => True
  | [entry] => entry.connector.joins = true
  | entry :: next :: rest =>
    entry.connector.joins = true ∧
      if entry.connector.permits status then next.connector.joins = false
      else Resumes status (next :: rest)

/-- In short-circuit evaluation, whenever the status of a pipeline is not permitted by the operator
after it, the next pipeline that runs is the last one of the and-or list. -/
def Executor.Agrees {σ : Type} (E : Executor σ) : Connector → Status → List Entry → σ → Prop
  | _, _, [], _ => True
  | before, status, entry :: rest, s =>
    if before.permits status then
      let (status, s) := E.execute entry.pipeline s
      E.shouldExit s = true ∨ entry.connector = .end_ ∨
        (entry.connector.permits status = false → Resumes status rest) ∧
          E.Agrees entry.connector status rest s
    else entry.connector = .end_ ∨ E.Agrees entry.connector status rest s

section Lists

variable {σ : Type} {E : Executor σ} {before : Connector} {status : Status} {s : σ}

/-! ### Where the two go on -/

/-- Where short-circuit evaluation goes on. -/
def firstPermitted : Connector → Status → List Entry → ℕ → Option ℕ
  | _, _, [], _ => none
  | before, status, entry :: rest, index =>
    if before.permits status then some index
    else if entry.connector = .end_ then none
    else firstPermitted entry.connector status rest (index + 1)

/-- Where `run_list` goes on. -/
def lastJoined : List Entry → ℕ → Option ℕ
  | [], _ => none
  | entry :: rest, index =>
    if entry.connector.joins then lastJoined rest (index + 1) else some index

variable {entries : List Entry} {index k : ℕ}

theorem le_firstPermitted
    (h : firstPermitted before status entries index = some k) : index ≤ k := by
  induction entries generalizing before index with
  | nil => exact absurd h (by simp [firstPermitted])
  | cons entry rest ih =>
    rw [firstPermitted] at h
    split at h
    · exact (Option.some.inj h).le
    split at h
    · exact absurd h (by simp)
    · exact (Nat.le_succ _).trans (ih h)

theorem le_lastJoined (h : lastJoined entries index = some k) :
    index ≤ k := by
  induction entries generalizing index with
  | nil => exact absurd h (by simp [lastJoined])
  | cons entry rest ih =>
    rw [lastJoined] at h
    split at h
    · exact (Nat.le_succ _).trans (ih h)
    · exact (Option.some.inj h).le

theorem joins_ne_end {c : Connector} (h : c.joins = true) : c ≠ .end_ := fun he => by
  subst he
  exact absurd h (by decide)

/-- The two go on at the same place. -/
theorem resumes_iff (h : before.permits status = false) :
    Resumes status entries ↔
      firstPermitted before status entries index = lastJoined entries index := by
  induction entries generalizing before index with
  | nil => simp [Resumes, firstPermitted, lastJoined]
  | cons entry rest ih =>
    rw [firstPermitted, lastJoined, if_neg (by simp [h])]
    by_cases hjoins : entry.connector.joins = true
    · rw [if_neg (joins_ne_end hjoins), if_pos hjoins]
      cases rest with
      | nil => simp [Resumes, hjoins, firstPermitted, lastJoined]
      | cons next rest =>
        rw [Resumes]
        by_cases hpermits : entry.connector.permits status = true
        · -- Evaluation goes on with the next pipeline.
          rw [firstPermitted, lastJoined, if_pos hpermits, if_pos hpermits]
          by_cases hnext : next.connector.joins = true
          · rw [if_pos hnext]
            refine ⟨fun h => absurd h.2 (by simp [hnext]), fun heq => ?_⟩
            exact absurd (le_lastJoined heq.symm) (by omega)
          · simp [hjoins, hnext]
        · rw [if_neg hpermits, and_iff_right hjoins]
          exact ih (by simpa using hpermits)
    · rw [if_neg hjoins]
      have hnot : ¬ Resumes status (entry :: rest) := by
        cases rest <;> simp [Resumes, hjoins]
      refine ⟨fun h => absurd h hnot, fun heq => ?_⟩
      split at heq
      · exact absurd heq (by simp)
      · exact absurd (le_firstPermitted heq) (by omega)

/-- Short-circuit evaluation goes on where it is permitted again. -/
theorem posixFrom_of_some (h : firstPermitted before status entries index = some k) :
    ∃ c, c.permits status = true ∧ k - index < entries.length ∧
      E.posixFrom before status entries index s =
        E.posixFrom c status (entries.drop (k - index)) k s ∧
      (E.Agrees before status entries s ↔ E.Agrees c status (entries.drop (k - index)) s) := by
  induction entries generalizing before index with
  | nil => exact absurd h (by simp [firstPermitted])
  | cons entry rest ih =>
    have hle := le_firstPermitted h
    rw [firstPermitted] at h
    split at h
    · rename_i hpermits
      obtain rfl := Option.some.inj h
      exact ⟨before, hpermits, by simp, by simp, by simp⟩
    rename_i hpermits
    split at h
    · exact absurd h (by simp)
    rename_i hend
    have hle' := le_firstPermitted h
    obtain ⟨c, hc, hlt, hposix, hagrees⟩ := ih h
    have hdrop : (entry :: rest).drop (k - index) = rest.drop (k - (index + 1)) := by
      rw [show k - index = k - (index + 1) + 1 by omega, List.drop_succ_cons]
    refine ⟨c, hc, by simp only [List.length_cons]; omega, ?_, ?_⟩
    · rw [Executor.posixFrom, if_neg hpermits, if_neg hend, hposix, hdrop]
    · rw [Executor.Agrees, if_neg hpermits, or_iff_right hend, hdrop]
      exact hagrees

theorem posixFrom_of_none (h : firstPermitted before status entries index = none) :
    E.posixFrom before status entries index s = ⟨status, [], s⟩ ∧
      E.Agrees before status entries s := by
  induction entries generalizing before index with
  | nil => exact ⟨rfl, trivial⟩
  | cons entry rest ih =>
    rw [firstPermitted] at h
    split at h
    · exact absurd h (by simp)
    rename_i hpermits
    rw [Executor.posixFrom, Executor.Agrees, if_neg hpermits, if_neg hpermits]
    split at h
    · rename_i hend
      exact ⟨if_pos hend, Or.inl hend⟩
    · rename_i hend
      rw [if_neg hend]
      exact ⟨(ih h).1, Or.inr (ih h).2⟩

/-- `skip_alternates` finds the place, or the end of the list. -/
theorem skipLoop_eq (entries : List Entry) (index : ℕ) :
    lastJoined entries index =
      if skipLoop entries index < index + entries.length then some (skipLoop entries index)
      else none := by
  induction entries generalizing index with
  | nil => simp [lastJoined, skipLoop]
  | cons entry rest ih =>
    rw [lastJoined, skipLoop]
    split
    · rw [ih, List.length_cons, show index + 1 + rest.length = index + (rest.length + 1) by omega]
    · simp

theorem head_runFrom :
    (E.runFrom entries index status s).executed.head? =
      if index < entries.length then some index else none := by
  rw [Executor.runFrom]
  split
  · dsimp only
    split
    · rfl
    · split
      · rfl
      · rfl
      · rfl
      · split <;> rfl
      · split <;> rfl
  · rfl

theorem head_posixFrom :
    (E.posixFrom before status entries index s).executed.head? =
      firstPermitted before status entries index := by
  induction entries generalizing before index with
  | nil => rfl
  | cons entry rest ih =>
    rw [Executor.posixFrom, firstPermitted]
    split
    · dsimp only
      split <;> rfl
    split
    · rfl
    · exact ih

theorem Outcome.after_inj {o o' : Outcome σ} :
    o.after index = o'.after index ↔ o = o' := by
  constructor
  · intro h
    obtain ⟨status, executed, state⟩ := o
    obtain ⟨status', executed', state'⟩ := o'
    simpa [Outcome.after] using h
  · exact fun h => h ▸ rfl

/-- Where `run_list` is after it has skipped entries. -/
theorem lastJoined_eq (entries : List Entry) (index : ℕ) :
    lastJoined (entries.drop index) index =
      if skipAlternates entries index < entries.length then some (skipAlternates entries index)
      else none := by
  rw [skipLoop_eq, List.length_drop]
  by_cases hle : index ≤ entries.length
  · rw [show index + (entries.length - index) = entries.length by omega]
    rfl
  · have hskip := le_skipAlternates entries index
    rw [if_neg, if_neg] <;> [omega; skip]
    have hskip' : index ≤ skipLoop (entries.drop index) index := le_skipLoop _ _
    omega

/-- The two do the same after a status that is not permitted if evaluation resumes where `run_list`
does, and they do the same from there. -/
theorem runFrom_skip_iff (h : before.permits status = false)
    (hrest : ∀ (c : Connector) (k : ℕ), index ≤ k → c.permits status = true →
      (E.runFrom entries k status s = E.posixFrom c status (entries.drop k) k s ↔
        E.Agrees c status (entries.drop k) s)) :
    E.runFrom entries (skipAlternates entries index) status s =
        E.posixFrom before status (entries.drop index) index s ↔
      Resumes status (entries.drop index) ∧ E.Agrees before status (entries.drop index) s := by
  have hhead : (E.runFrom entries (skipAlternates entries index) status s).executed.head? =
      lastJoined (entries.drop index) index := by
    rw [head_runFrom, lastJoined_eq]
  rw [resumes_iff h]
  by_cases hsame : firstPermitted before status (entries.drop index) index =
      lastJoined (entries.drop index) index
  · rw [and_iff_right hsame]
    rcases hlast : lastJoined (entries.drop index) index with _ | k
    · -- Neither runs anything.
      obtain ⟨hposix, hagrees⟩ := posixFrom_of_none (E := E) (s := s) (hsame.trans hlast)
      rw [hlast, head_runFrom] at hhead
      have hge : ¬ skipAlternates entries index < entries.length := fun hlt => by
        rw [if_pos hlt] at hhead
        exact absurd hhead (by simp)
      rw [hposix, Executor.runFrom, dif_neg hge]
      exact iff_of_true rfl hagrees
    · obtain ⟨c, hc, -, hposix, hagrees⟩ := posixFrom_of_some (E := E) (s := s) (hsame.trans hlast)
      have hle := le_lastJoined hlast
      rw [lastJoined_eq] at hlast
      split at hlast
      · obtain rfl := Option.some.inj hlast
        rw [hposix, hagrees, List.drop_drop, show index + (skipAlternates entries index - index) =
            skipAlternates entries index by omega]
        exact hrest c _ hle hc
      · exact absurd hlast (by simp)
  · refine iff_of_false (fun heq => hsame ?_) fun h => hsame h.1
    rw [← hhead, heq, head_posixFrom]

/-- From a place that is permitted to run on, the two do the same if and only if evaluation resumes
where `run_list` does. -/
theorem runFrom_eq_posixFrom_iff (hpermits : before.permits status = true) :
    E.runFrom entries index status s = E.posixFrom before status (entries.drop index) index s ↔
      E.Agrees before status (entries.drop index) s := by
  induction hn : entries.length - index using Nat.strong_induction_on
    generalizing before status s index with
  | _ n ih =>
    subst hn
    rw [Executor.runFrom]
    split
    · rename_i hlt
      rw [List.drop_eq_getElem_cons hlt, Executor.posixFrom, Executor.Agrees, if_pos hpermits,
        if_pos hpermits]
      generalize entries[index] = entry
      dsimp only
      generalize (E.execute entry.pipeline s).1 = status'
      generalize (E.execute entry.pipeline s).2 = s'
      by_cases hexit : E.shouldExit s' = true
      · simp [hexit]
      simp only [hexit, if_false, false_or, Bool.false_eq_true]
      -- The next entry runs, or both skip entries.
      have hnext : entry.connector.permits status' = true →
          ((E.runFrom entries (index + 1) status' s').after index =
            (E.posixFrom entry.connector status' (entries.drop (index + 1)) (index + 1) s').after
              index ↔ E.Agrees entry.connector status' (entries.drop (index + 1)) s') :=
                fun hp => by
        rw [Outcome.after_inj, ih _ (by omega) hp rfl]
      have hskip : entry.connector.permits status' = false →
          ((E.runFrom entries (skipAlternates entries (index + 1)) status' s').after index =
            (E.posixFrom entry.connector status' (entries.drop (index + 1)) (index + 1) s').after
              index ↔ Resumes status' (entries.drop (index + 1)) ∧
              E.Agrees entry.connector status' (entries.drop (index + 1)) s') := fun hp => by
        rw [Outcome.after_inj]
        exact runFrom_skip_iff hp fun c k hk hc => ih _ (by omega) hc rfl
      cases hc : entry.connector with
      | end_ => simp
      | always | background =>
        rw [hc] at hnext
        simpa [Connector.permits] using hnext rfl
      | onSuccess =>
        rw [hc] at hnext hskip
        by_cases hstatus : status' = statusSuccess
        · have hp : Connector.onSuccess.permits status' = true := by
            simpa [Connector.permits] using hstatus
          simpa [hp, not_not.mpr hstatus] using hnext hp
        · have hp : Connector.onSuccess.permits status' = false := by
            simpa [Connector.permits] using hstatus
          simpa [hp, hstatus] using hskip hp
      | onFailure =>
        rw [hc] at hnext hskip
        by_cases hstatus : status' = statusSuccess
        · have hp : Connector.onFailure.permits status' = false := by
            simpa [Connector.permits] using hstatus
          rw [if_pos hstatus]
          simpa [hp] using hskip hp
        · have hp : Connector.onFailure.permits status' = true := by
            simpa [Connector.permits] using hstatus
          simpa [hp, hstatus] using hnext hp
    · rename_i hge
      rw [List.drop_eq_nil_of_le (by omega)]
      simp [Executor.posixFrom, Executor.Agrees]

/-- **`run_list` and short-circuit evaluation** run the same pipelines, with the same status and
state in the end, if and only if evaluation always resumes with the last pipeline of an and-or list.
-/
theorem runList_eq_posix_iff (E : Executor σ) (entries : List Entry) (s : σ) :
    E.runList entries s = E.posix entries s ↔ E.Agrees .always statusSuccess entries s := by
  exact runFrom_eq_posixFrom_iff (E := E) (s := s) rfl

/-- An executor whose pipelines have the statuses that are given one after another. -/
def Executor.scripted : Executor (List Status) where
  runPipeline _ s := (s.headD statusSuccess, s.tail)
  setStatus _ s := s
  shouldExit _ := false

/-- In `a && b` the pipeline `b` runs when `a` fails. -/
theorem unsatisfied_runs :
    ∃ entries, (parseList [.word ⟨[⟨[97], .unquoted, false⟩]⟩, .operator .and,
        .word ⟨[⟨[98], .unquoted, false⟩]⟩]).toOption = some entries ∧
      (Executor.scripted.runList entries [1, 0]).executed = [0, 1] ∧
      (Executor.scripted.posix entries [1, 0]).executed = [0] := by
  refine ⟨_, rfl, ?_, rfl⟩
  simp [Executor.runList, Executor.runFrom, Executor.scripted, Executor.execute, skipAlternates,
    skipLoop, Connector.joins, Outcome.after, statusSuccess]

end Lists


end ImagineOS.Shell
