import ImagineOS.Shell.Plumbing

/-!
# Shell: the plumbing of pipelines

Whatever the order in which the processes run, each stage of a pipeline has the ends of its own two
pipes after its set-up, and nobody else has one of them; so a reader sees the end of its input when
the stage before it has closed its output or has ended, and not earlier (`pipeline_plumbing`).
-/

namespace ImagineOS.Shell

open Exec List Option Session

/-! ### The invariant -/

/-- The ends of the pipes that are open in a table have been open ever since. -/
def Held (ids : List (Fin maxPipes)) (kept : Fin maxPipes → Bool) (t : DescriptorTable) : Prop :=
  ∀ p ∈ ids, ∀ e, t.Has e p → kept p = true

/-- What a process promises about its table. -/
def Keeps (stageCount : ℕ) (input output : Descriptor) (ids : List (Fin maxPipes))
    (kept : Fin maxPipes → Bool) : Role → DescriptorTable → Prop
  | .other, t => ∀ p ∈ ids, kept p = true → ∀ e, ¬ t.Has e p
  | .stage index, t => ∀ (k : ℕ) (p : Fin maxPipes), ids[k]? = some p → kept p = true → ∀ e,
      t.Has e p → (e = .reader ∧ k + 1 = index) ∨ (e = .writer ∧ k = index)
  | .child index code, t =>
    ChildMeets (Plumbed stageCount input output index ids) code t ∧ Held ids kept t
  | .shell launched code, t =>
    ShellMeets stageCount (Plumbed stageCount input output) code launched ids t ∧ Held ids kept t

/-- **Who is there**: one shell at most, and one child for each stage that it has launched. -/
structure Cast (role : Fin maxProcesses → Role) : Prop where
  shell : ∀ i j launched launched' code code', role i = .shell launched code →
    role j = .shell launched' code' → i = j
  index_lt : ∀ i launched code, role i = .shell launched code →
    ∀ j k, (role j).index = some k → k < launched
  unique : ∀ i j k, (role i).index = some k → (role j).index = some k →
    i = j ∨ role i = .stage k ∧ role j = .stage k

/-- The invariant of a session. -/
structure Wired (stageCount : ℕ) (input output : Descriptor) (x : Session) : Prop where
  sound : Sound x.sys
  counted : Counted x.sys
  isOpen : ∀ p, x.kept p = true → (x.sys.pipes p).isOpen = true
  nodup : x.ids.Nodup
  cast : Cast x.role
  keeps : ∀ i, Keeps stageCount input output x.ids x.kept (x.role i) (x.sys.tables i)

section Cast

variable {role : Fin maxProcesses → Role} {s : System} {e : Event} {r : Role} {k : ℕ}

theorem index_of_next (h : (r.next s e).index = some k) : r.index = some k := by
  cases r with
  | other => cases e <;> cases h
  | shell launched code =>
    cases e with
    | call c w =>
      simp only [Role.next] at h
      split at h <;> cases h
    | tick | fault => cases h
  | child index code =>
    cases e with
    | call c w =>
      simp only [Role.next] at h
      split at h <;> exact h
    | tick | fault => exact h
  | stage index => cases e <;> exact h

theorem shell_of_next {launched : ℕ} {code : Code} (h : r.next s e = .shell launched code) :
    ∃ launched' code', r = .shell launched' code' ∧
      launched = if r.launches s e then launched' + 1 else launched' := by
  cases r with
  | other => cases e <;> cases h
  | shell launched' code' =>
    refine ⟨launched', code', rfl, ?_⟩
    cases e with
    | call c w =>
      simp only [Role.next] at h
      split at h
      · exact (Role.shell.inj h).1.symm
      · cases h
    | tick | fault => cases code' <;> exact (Role.shell.inj h).1.symm
  | child index code =>
    cases e with
    | call c w =>
      simp only [Role.next] at h
      split at h <;> cases h
    | tick | fault => cases h
  | stage index => cases e <;> cases h

theorem next_stage (h : r = .stage k) : r.next s e = .stage k := by
  subst h
  cases e <;> rfl

theorem born_ne_shell {launched : ℕ} {code : Code} : r.born ≠ .shell launched code := by
  intro h
  cases r with
  | shell launched' code' => cases code' <;> cases h
  | other | child | stage => cases h

theorem index_of_born (h : r.born.index = some k) : (r.index = some k ∧ r.born = .stage k) ∨
    ∃ next, r = .shell k (.fork next) := by
  cases r with
  | other => cases h
  | shell launched code =>
    cases code with
    | fork next =>
      obtain rfl : launched = k := Option.some.inj h
      exact Or.inr ⟨next, rfl⟩
    | pipe | close | duplicateTo | ended => cases h
  | child index code | stage index =>
    obtain rfl : index = k := Option.some.inj h
    exact Or.inl ⟨rfl, rfl⟩

/-- What an event of the process `current`, whose role is `r`, makes of the roles: it adds one
process at most, which belongs to the stage of its creator or is the next stage, and it may end
some. -/
def Recast (s : System) (e : Event) (r : Role) (current : Fin maxProcesses)
    (role role' : Fin maxProcesses → Role) : Prop :=
  ∀ i, role' i = .other ∨ (i = current ∧ role' i = r.next s e) ∨
    (i ≠ current ∧ role' i = role i) ∨ (s.freeSlot = some i ∧ role' i = r.born ∧
      (∀ k, r.index = some k → role' current = .other ∨ role' current = .stage k) ∧
      ∀ launched next, r = .shell launched (.fork next) → r.launches s e = true)

/-- A new process of stage `k` is like its creator, or it is the next stage. -/
def BornInto (s : System) (e : Event) (r : Role) (current i : Fin maxProcesses)
    (role' : Fin maxProcesses → Role) (k : ℕ) : Prop :=
  (r.index = some k ∧ role' i = .stage k ∧
    (role' current = .other ∨ role' current = .stage k)) ∨
  ∃ next, r = .shell k (.fork next) ∧ r.launches s e = true

section Recast

variable {role' : Fin maxProcesses → Role} {current i j : Fin maxProcesses} {launched : ℕ}
  {code : Code}

theorem Recast.index (h : Recast s e r current role role') (hr : role current = r)
    (hi : (role' i).index = some k) :
    ((role i).index = some k ∧ (role i = .stage k → role' i = .stage k)) ∨
      (s.freeSlot = some i ∧ BornInto s e r current i role' k) := by
  rcases h i with hother | ⟨rfl, hnext⟩ | ⟨-, hsame⟩ | ⟨hfree, hborn, hcurrent, hlaunches⟩
  · rw [hother] at hi
    cases hi
  · rw [hnext] at hi
    rw [hr, hnext]
    exact Or.inl ⟨index_of_next hi, next_stage⟩
  · rw [hsame] at hi
    rw [hsame]
    exact Or.inl ⟨hi, id⟩
  · rw [hborn] at hi
    refine Or.inr ⟨hfree, ?_⟩
    rcases index_of_born hi with ⟨hrk, hstage⟩ | ⟨next, hfork⟩
    · exact Or.inl ⟨hrk, hborn.trans hstage, hcurrent k hrk⟩
    · exact Or.inr ⟨next, hfork, hlaunches k next hfork⟩

theorem Recast.shell (h : Recast s e r current role role') (hr : role current = r)
    (hi : role' i = .shell launched code) :
    ∃ launched' code', role i = .shell launched' code' ∧ launched' ≤ launched ∧
      (i = current → r.launches s e = true → launched = launched' + 1) := by
  rcases h i with hother | ⟨rfl, hnext⟩ | ⟨hne, hsame⟩ | ⟨-, hborn, -, -⟩
  · rw [hother] at hi
    cases hi
  · obtain ⟨launched', code', hr', hlaunched⟩ := shell_of_next (hnext.symm.trans hi)
    refine ⟨launched', code', hr.trans hr', ?_, fun _ hl => by rw [hlaunched, if_pos hl]⟩
    rw [hlaunched]
    split <;> omega
  · exact ⟨launched, code, hsame.symm.trans hi, le_rfl, fun he => absurd he hne⟩
  · exact absurd (hborn.symm.trans hi) born_ne_shell

theorem Cast.stage_of_born (h : Cast role) (hr : role current = r)
    (hi : BornInto s e r current i role' k) (hj : (role j).index = some k)
    (hj' : (role' j).index = some k) (hstage : role j = .stage k → role' j = .stage k) :
    role' i = .stage k ∧ role' j = .stage k := by
  rcases hi with ⟨hrk, hi, hcurrent⟩ | ⟨next, hfork, -⟩
  · refine ⟨hi, ?_⟩
    rcases h.unique j current k hj (hr ▸ hrk) with rfl | ⟨hjk, -⟩
    · refine hcurrent.resolve_left fun hother => ?_
      rw [hother] at hj'
      cases hj'
    · exact hstage hjk
  · exact absurd (h.index_lt current _ _ (hr.trans hfork) j k hj) (lt_irrefl k)

/-- **An event** keeps the cast. -/
theorem Cast.next (h : Cast role) (hr : role current = r)
    (hrole : Recast s e r current role role') : Cast role' := by
  refine ⟨fun i j launched launched' code code' hi hj => ?_, fun i launched code hi j k hj => ?_,
    fun i j k hi hj => ?_⟩
  · obtain ⟨_, _, hi', -, -⟩ := hrole.shell hr hi
    obtain ⟨_, _, hj', -, -⟩ := hrole.shell hr hj
    exact h.shell i j _ _ _ _ hi' hj'
  · obtain ⟨_, _, hi', hle, hlaunched⟩ := hrole.shell hr hi
    rcases hrole.index hr hj with ⟨hj', -⟩ | ⟨-, ⟨hrk, -, -⟩ | ⟨next, hfork, hlaunches⟩⟩
    · exact (h.index_lt i _ _ hi' j k hj').trans_le hle
    · exact (h.index_lt i _ _ hi' current k (hr ▸ hrk)).trans_le hle
    · obtain rfl := h.shell i current _ _ _ _ hi' (hr.trans hfork)
      rw [hr, hfork] at hi'
      obtain ⟨rfl, -⟩ := Role.shell.inj hi'
      rw [hlaunched rfl hlaunches]
      exact Nat.lt_succ_self _
  · rcases hrole.index hr hi with ⟨hi', histage⟩ | ⟨hifree, hi'⟩
    · rcases hrole.index hr hj with ⟨hj', hjstage⟩ | ⟨-, hj'⟩
      · exact (h.unique i j k hi' hj').imp_right fun hs => ⟨histage hs.1, hjstage hs.2⟩
      · exact Or.inr (h.stage_of_born hr hj' hi' hi histage).symm
    · rcases hrole.index hr hj with ⟨hj', hjstage⟩ | ⟨hjfree, -⟩
      · exact Or.inr (h.stage_of_born hr hi' hj' hj hjstage)
      · exact Or.inl (Option.some.inj (hifree.symm.trans hjfree))

end Recast

end Cast

/-! ### One event -/

section Promises

variable {stageCount launched index : ℕ} {input output : Descriptor} {ids : List (Fin maxPipes)}
  {kept kept' : Fin maxPipes → Bool} {r : Role} {t t' : DescriptorTable} {ending : Ending}

theorem Keeps.mono (h : Keeps stageCount input output ids kept r t)
    (hle : ∀ p, kept' p = true → p ∈ ids → kept p = true)
    (hheld : ∀ p e, t.Has e p → kept p = true → kept' p = true) :
    Keeps stageCount input output ids kept' r t := by
  cases r with
  | other => exact fun p hp hk => h p hp (hle p hk hp)
  | stage index => exact fun k p hp hk => h k p hp (hle p hk (mem_of_getElem? hp))
  | shell | child => exact ⟨h.1, fun p hp e he => hheld p e he (h.2 p hp e he)⟩

theorem Keeps.of_has (hr : r = .other ∨ ∃ k, r = .stage k)
    (h : Keeps stageCount input output ids kept r t)
    (hhas : ∀ p e, kept' p = true → t'.Has e p → kept p = true ∧ t.Has e p) :
    Keeps stageCount input output ids kept' r t' := by
  rcases hr with rfl | ⟨k, rfl⟩
  · exact fun p hp hk e he => h p hp (hhas p e hk he).1 e (hhas p e hk he).2
  · exact fun k p hp hk e he => h k p hp (hhas p e hk he).1 e (hhas p e hk he).2

theorem Keeps.stage (h : Keeps stageCount input output ids kept (.child index (.ended ending)) t) :
    Keeps stageCount input output ids kept (.stage index) t := by
  rintro k p hp - e ⟨fd, hfd⟩
  rcases h.1.2.only k p hp e fd hfd with ⟨he, -, hk⟩ | ⟨he, -, hk⟩
  · exact Or.inl ⟨he, hk⟩
  · exact Or.inr ⟨he, hk⟩

theorem Keeps.other
    (h : Keeps stageCount input output ids kept (.shell launched (.ended ending)) t) :
    Keeps stageCount input output ids kept .other t := fun p hp _ e => h.1.1 p hp e

end Promises

section Next

variable {pbkdf2 : List UInt8 → List UInt8 → ℕ → Option (List UInt8)} {x : Session} {e : Event}
  {i : Fin maxProcesses} {stageCount : ℕ} {input output : Descriptor} {c : Call} {w : Bool}

namespace Session

theorem role_next_dead (h : ¬ (step pbkdf2 e x.sys).Live i) : (x.next pbkdf2 e).role i = .other :=
  if_pos h

theorem role_next_current (h : (step pbkdf2 e x.sys).Live x.sys.current) :
    (x.next pbkdf2 e).role x.sys.current = x.self.next x.sys e := by
  simp [Session.next, h]

theorem role_next_old (h : (step pbkdf2 e x.sys).Live i) (hi : i ≠ x.sys.current)
    (hold : x.sys.Live i) : (x.next pbkdf2 e).role i = x.role i := by
  simp [Session.next, h, hi, hold.1]

theorem role_next_new (h : (step pbkdf2 e x.sys).Live i) (hi : i ≠ x.sys.current)
    (hfree : x.sys.freeSlot = some i) : (x.next pbkdf2 e).role i = x.self.born := by
  simp [Session.next, h, hi, freeSlot_inactive hfree]

theorem kept_next {p : Fin maxPipes} (h : (x.next pbkdf2 e).kept p = true) :
    x.kept p = true ∨ x.self.makes x.sys e = some p := by
  simp only [Session.next, Bool.and_eq_true, Bool.or_eq_true, beq_iff_eq] at h
  exact h.2

theorem kept_next_of_isOpen {p : Fin maxPipes} (h : ((step pbkdf2 e x.sys).pipes p).isOpen = true)
    (hkept : x.kept p = true ∨ x.self.makes x.sys e = some p) :
    (x.next pbkdf2 e).kept p = true := by
  simp only [Session.next, Bool.and_eq_true, Bool.or_eq_true, beq_iff_eq]
  exact ⟨h, hkept⟩

end Session

variable {r : Role}

theorem keeps_next_of_table (hcounted : Counted (step pbkdf2 e x.sys))
    (hmade : x.self.makes x.sys e = none)
    (hkeeps : Keeps stageCount input output x.ids x.kept r ((step pbkdf2 e x.sys).tables i)) :
    Keeps stageCount input output x.ids (x.next pbkdf2 e).kept r
      ((step pbkdf2 e x.sys).tables i) := by
  refine hkeeps.mono (fun p hp _ => ?_) fun p e' he hp =>
    kept_next_of_isOpen (hcounted.isOpen_of_has he) (Or.inl hp)
  refine (kept_next hp).resolve_right ?_
  rw [hmade]
  exact nofun

theorem Wired.keeps_next_passive (h : Wired stageCount input output x)
    (hrun : x.sys.halted = false) (hmade : x.self.makes x.sys e = none)
    (hr : r = .other ∨ ∃ k, r = .stage k)
    (hkeeps : Keeps stageCount input output x.ids x.kept r x.sys.selfTable)
    (hi : i = x.sys.current ∨ x.sys.freeSlot = some i) (hlive : (step pbkdf2 e x.sys).Live i) :
    Keeps stageCount input output x.ids (x.next pbkdf2 e).kept r
      ((step pbkdf2 e x.sys).tables i) := by
  refine hkeeps.of_has hr fun p e' hp hhas => ?_
  have hkept : x.kept p = true := (kept_next hp).resolve_right (by rw [hmade]; exact nofun)
  refine ⟨hkept, ?_⟩
  rcases step_has h.sound hrun hlive hhas with ⟨hne, hold, -⟩ | ⟨-, hself | hclosed⟩
  · rcases hi with rfl | hfree
    · exact absurd rfl hne
    · exact absurd (hold.1.symm.trans (freeSlot_inactive hfree)) (by simp)
  · exact hself
  · exact absurd ((h.isOpen p hkept).symm.trans hclosed) (by simp)

theorem eq_current_of_descriptors (hc : c.onDescriptors = true)
    (hi : i = x.sys.current ∨ x.sys.freeSlot = some i)
    (hlive : (step pbkdf2 (.call c w) x.sys).Live i) : i = x.sys.current := by
  refine hi.resolve_right fun hfree => ?_
  have hold := (step_descriptors hc hlive).1
  exact absurd (hold.1.symm.trans (freeSlot_inactive hfree)) (by simp)

theorem table_current_of_descriptors (hc : c.onDescriptors = true)
    (hlive : (step pbkdf2 (.call c w) x.sys).Live x.sys.current) :
    (step pbkdf2 (.call c w) x.sys).tables x.sys.current = (dispatch pbkdf2 c x.sys).selfTable := by
  rw [(step_descriptors hc hlive).2, if_pos rfl]

/-! ### One call of the code -/

variable {code code' : Code} {s : System}

/-- The calls that code makes. -/
theorem resume_eq_some (h : code.resume s c = some code') :
    (∃ next copied, code = .pipe next ∧ c = .pipe copied ∧
      code' = next (if (createPipe copied s).1 = 0 then pipeEnds s else none)) ∨
    (∃ next cloned, code = .fork next ∧ c = .fork cloned ∧ code' = next (forkCurrent cloned s).1) ∨
    (∃ fd, code = .close fd code' ∧ c = .close fd) ∨
    ∃ source target, code = .duplicateTo source target code' ∧ c = .dup2 source target := by
  cases code with
  | pipe next =>
    cases c <;> simp only [Code.resume, reduceCtorEq, Option.some.injEq] at h
    exact Or.inl ⟨next, _, rfl, rfl, h.symm⟩
  | fork next =>
    cases c <;> simp only [Code.resume, reduceCtorEq, Option.some.injEq] at h
    exact Or.inr (Or.inl ⟨next, _, rfl, rfl, h.symm⟩)
  | close fd next =>
    cases c <;> simp only [Code.resume, reduceCtorEq] at h
    obtain ⟨rfl, rfl⟩ : _ ∧ next = code' := by simpa using h
    exact Or.inr (Or.inr (Or.inl ⟨_, rfl, rfl⟩))
  | duplicateTo source target next =>
    cases c <;> simp only [Code.resume, reduceCtorEq] at h
    obtain ⟨⟨rfl, rfl⟩, rfl⟩ : (_ ∧ _) ∧ next = code' := by simpa using h
    exact Or.inr (Or.inr (Or.inr ⟨_, _, rfl, rfl⟩))
  | ended ending => cases c <;> cases h

variable (pbkdf2) in
theorem ChildMeets.resume {post : DescriptorTable → Prop}
    (h : ChildMeets post code s.selfTable) (hs : Counted s)
    (hresume : code.resume s c = some code') :
    c.onDescriptors = true ∧ ChildMeets post code' (dispatch pbkdf2 c s).selfTable ∧
      ∀ e p, (dispatch pbkdf2 c s).selfTable.Has e p → s.selfTable.Has e p := by
  rcases resume_eq_some hresume with ⟨next, copied, rfl, -, -⟩ | ⟨next, cloned, rfl, -, -⟩ |
    ⟨fd, rfl, rfl⟩ | ⟨source, target, rfl, rfl⟩
  · exact h.elim
  · exact h.elim
  · refine ⟨rfl, ?_, fun e p => has_closeDescriptor⟩
    rw [show (dispatch pbkdf2 (.close fd) s).selfTable = s.selfTable.close fd from
      selfTable_closeDescriptor fd s]
    exact h
  · refine ⟨rfl, ?_, fun e p => has_duplicateDescriptorTo⟩
    obtain ⟨a, b, e, p, rfl, rfl, hab, ha, hnext⟩ := h
    rw [show (dispatch pbkdf2 (.dup2 a b) s).selfTable = _ from duplicateDescriptorTo_end hs ha hab]
    exact hnext

variable (pbkdf2) in
/-- The next call of the shell, if it is not a `fork` and does not make a pipe. -/
theorem ShellMeets.resume {post : ℕ → List (Fin maxPipes) → DescriptorTable → Prop}
    {launched : ℕ} {ids : List (Fin maxPipes)}
    (h : ShellMeets stageCount post code launched ids s.selfTable)
    (hresume : code.resume s c = some code') (hfork : ∀ next, code ≠ .fork next)
    (hmade : (Role.shell launched code).makes s (.call c w) = none) :
    c.onDescriptors = true ∧ ShellMeets stageCount post code' launched ids
      (dispatch pbkdf2 c s).selfTable ∧
      ∀ e p, (dispatch pbkdf2 c s).selfTable.Has e p → s.selfTable.Has e p := by
  rcases resume_eq_some hresume with ⟨next, copied, rfl, rfl, rfl⟩ | ⟨next, cloned, rfl, -, -⟩ |
    ⟨fd, rfl, rfl⟩ | ⟨source, target, rfl, rfl⟩
  · obtain ⟨rfl, -, -, hfailed⟩ := h
    rcases createPipe_spec copied s with ⟨hok, p, pipes, _, _, hcreate, -, -⟩ | ⟨herror, hreclosed⟩
    · rw [Role.makes, if_pos hok, hcreate] at hmade
      cases hmade
    · rw [if_neg herror.ne]
      exact ⟨rfl, hfailed _ hreclosed, fun e p => has_of_reclosed hreclosed⟩
  · exact absurd rfl (hfork next)
  · refine ⟨rfl, ?_, fun e p => has_closeDescriptor⟩
    rw [show (dispatch pbkdf2 (.close fd) s).selfTable = s.selfTable.close fd from
      selfTable_closeDescriptor fd s]
    exact h
  · exact h.elim

/-! ### Every promise is kept -/

theorem Wired.keeps_next_descriptors (hcounted : Counted (step pbkdf2 (.call c w) x.sys))
    (hc : c.onDescriptors = true) (hmade : x.self.makes x.sys (.call c w) = none)
    (hnext : x.self.next x.sys (.call c w) = r)
    (hkeeps : Keeps stageCount input output x.ids x.kept r (dispatch pbkdf2 c x.sys).selfTable)
    (hi : i = x.sys.current ∨ x.sys.freeSlot = some i)
    (hlive : (step pbkdf2 (.call c w) x.sys).Live i) :
    Keeps stageCount input output x.ids (x.next pbkdf2 (.call c w)).kept
      ((x.next pbkdf2 (.call c w)).role i) ((step pbkdf2 (.call c w) x.sys).tables i) := by
  obtain rfl := eq_current_of_descriptors hc hi hlive
  rw [role_next_current hlive, hnext]
  refine keeps_next_of_table hcounted hmade ?_
  rwa [table_current_of_descriptors hc hlive]

theorem Wired.keeps_next_alike (h : Wired stageCount input output x) (hrun : x.sys.halted = false)
    (hmade : x.self.makes x.sys e = none) (hr : r = .other ∨ ∃ k, r = .stage k)
    (hkeeps : Keeps stageCount input output x.ids x.kept r x.sys.selfTable)
    (hnext : x.self.next x.sys e = r) (hborn : x.self.born = r)
    (hi : i = x.sys.current ∨ x.sys.freeSlot = some i) (hlive : (step pbkdf2 e x.sys).Live i) :
    Keeps stageCount input output x.ids (x.next pbkdf2 e).kept ((x.next pbkdf2 e).role i)
      ((step pbkdf2 e x.sys).tables i) := by
  have hrole : (x.next pbkdf2 e).role i = r := by
    by_cases hcurrent : i = x.sys.current
    · rw [hcurrent] at hlive ⊢
      rw [role_next_current hlive, hnext]
    · rw [role_next_new hlive hcurrent (hi.resolve_left hcurrent), hborn]
  rw [hrole]
  exact h.keeps_next_passive hrun hmade hr hkeeps hi hlive

/-- A shell forks, or tries to: it keeps its promise, and the new process that of its stage. -/
theorem Wired.keeps_next_fork (h : Wired stageCount input output x) (hrun : x.sys.halted = false)
    {cloned : Bool} {next : ℤ → Code} (hr : x.self = .shell launched (.fork next))
    (hmade : x.self.makes x.sys (.call (.fork cloned) w) = none)
    (hi : i = x.sys.current ∨ x.sys.freeSlot = some i)
    (hlive : (step pbkdf2 (.call (.fork cloned) w) x.sys).Live i) :
    Keeps stageCount input output x.ids (x.next pbkdf2 (.call (.fork cloned) w)).kept
      ((x.next pbkdf2 (.call (.fork cloned) w)).role i)
      ((step pbkdf2 (.call (.fork cloned) w) x.sys).tables i) := by
  have hcounted : Counted (step pbkdf2 (.call (.fork cloned) w) x.sys) :=
    h.counted.step h.sound hrun _
  have hkeeps := h.keeps x.sys.current
  rw [show x.role x.sys.current = .shell launched (.fork next) from hr] at hkeeps
  rcases step_fork (h.sound.runs hrun).1 hlive with ⟨hold, htable⟩ | ⟨hne, hfree, hpos, htable⟩
  · obtain rfl : i = x.sys.current := hi.resolve_right fun hfree =>
      absurd (hold.1.symm.trans (freeSlot_inactive hfree)) (by simp)
    rw [role_next_current hlive, hr]
    refine keeps_next_of_table hcounted hmade ?_
    rw [htable]
    refine ⟨?_, hkeeps.2⟩
    have hmeets := hkeeps.1.2 _ (forkCurrent_ne_zero cloned x.sys)
    simpa only [Role.next, Code.resume, Role.launches, decide_eq_true_eq] using hmeets
  · rw [role_next_new hlive hne hfree, hr]
    refine keeps_next_of_table hcounted hmade ?_
    rw [htable]
    exact ⟨hkeeps.1.1, hkeeps.2⟩

/-- The process that runs keeps its promise, and so does whoever it creates, when no pipe is made.
-/
theorem Wired.keeps_next_self (h : Wired stageCount input output x) (hrun : x.sys.halted = false)
    (hallowed : x.self.allows x.sys e = true) (hmade : x.self.makes x.sys e = none)
    (hi : i = x.sys.current ∨ x.sys.freeSlot = some i) (hlive : (step pbkdf2 e x.sys).Live i) :
    Keeps stageCount input output x.ids (x.next pbkdf2 e).kept ((x.next pbkdf2 e).role i)
      ((step pbkdf2 e x.sys).tables i) := by
  have hcounted : Counted (step pbkdf2 e x.sys) := h.counted.step h.sound hrun e
  have hkeeps := h.keeps x.sys.current
  obtain ⟨r, hr⟩ : ∃ r, x.self = r := ⟨_, rfl⟩
  rw [show x.role x.sys.current = r from hr] at hkeeps
  cases e with
  | tick | fault =>
    obtain ⟨hold, htable⟩ := step_idle (by exact nofun) hlive
    obtain rfl : i = x.sys.current := hi.resolve_right fun hfree =>
      absurd (hold.1.symm.trans (freeSlot_inactive hfree)) (by simp)
    rw [role_next_current hlive, hr]
    refine keeps_next_of_table hcounted hmade ?_
    rw [htable]
    cases r <;> exact hkeeps
  | call c w =>
    cases r with
    | other =>
      exact h.keeps_next_alike hrun hmade (Or.inl rfl) hkeeps (by rw [hr]; rfl) (by rw [hr]; rfl) hi
        hlive
    | stage index =>
      exact h.keeps_next_alike hrun hmade (Or.inr ⟨index, rfl⟩) hkeeps (by rw [hr]; rfl)
        (by rw [hr]; rfl) hi hlive
    | child index code =>
      rw [hr, Role.allows, Bool.or_eq_true, isSome_iff_exists] at hallowed
      rcases hallowed with hended | ⟨code', hresume⟩
      · cases code with
        | ended ending =>
          exact h.keeps_next_alike hrun hmade (Or.inr ⟨index, rfl⟩) hkeeps.stage
            (by simp [hr, Role.next, Code.resume]) (by rw [hr]; rfl) hi hlive
        | pipe | fork | close | duplicateTo => cases hended
      · obtain ⟨hc, hmeets, hhas⟩ := ChildMeets.resume pbkdf2 hkeeps.1 h.counted hresume
        refine Wired.keeps_next_descriptors hcounted hc hmade (r := .child index code') ?_
          ⟨hmeets, fun p hp e' he => hkeeps.2 p hp e' (hhas e' p he)⟩ hi hlive
        rw [hr, Role.next, hresume]
    | shell launched code =>
      rw [hr, Role.allows, Bool.or_eq_true, isSome_iff_exists] at hallowed
      rcases hallowed with hended | ⟨code', hresume⟩
      · cases code with
        | ended ending =>
          exact h.keeps_next_alike hrun hmade (Or.inl rfl) hkeeps.other
            (by simp [hr, Role.next, Code.resume]) (by rw [hr]; rfl) hi hlive
        | pipe | fork | close | duplicateTo => cases hended
      by_cases hfork : ∃ next, code = .fork next
      · obtain ⟨next, rfl⟩ := hfork
        cases c <;> simp only [Code.resume, reduceCtorEq, Option.some.injEq] at hresume
        exact h.keeps_next_fork hrun hr hmade hi hlive
      · have hlaunches : (Role.shell launched code).launches x.sys (.call c w) = false := by
          cases code with
          | fork next => exact absurd ⟨next, rfl⟩ hfork
          | pipe | close | duplicateTo | ended => rfl
        obtain ⟨hc, hmeets, hhas⟩ := ShellMeets.resume pbkdf2 hkeeps.1 hresume
          (fun next hnext => hfork ⟨next, hnext⟩) (hr ▸ hmade)
        refine Wired.keeps_next_descriptors hcounted hc hmade (r := .shell launched code') ?_
          ⟨hmeets, fun p hp e' he => hkeeps.2 p hp e' (hhas e' p he)⟩ hi hlive
        rw [hr, Role.next, hresume, hlaunches]
        rfl

theorem Wired.keeps_next (h : Wired stageCount input output x) (hrun : x.sys.halted = false)
    (hallowed : x.self.allows x.sys e = true) (hmade : x.self.makes x.sys e = none)
    (hlive : (step pbkdf2 e x.sys).Live i) :
    Keeps stageCount input output x.ids (x.next pbkdf2 e).kept ((x.next pbkdf2 e).role i)
      ((step pbkdf2 e x.sys).tables i) := by
  rcases step_tables h.sound hrun hlive with ⟨hi, hold, htable⟩ | ⟨hi, -⟩ | ⟨hi, -⟩
  · rw [role_next_old hlive hi hold]
    refine keeps_next_of_table (h.counted.step h.sound hrun e) hmade ?_
    rw [htable]
    exact h.keeps i
  · exact h.keeps_next_self hrun hallowed hmade (Or.inl hi) hlive
  · exact h.keeps_next_self hrun hallowed hmade (Or.inr hi) hlive

/-! ### The shell makes a pipe -/

variable {p : Fin maxPipes}

theorem makes_eq_some (h : r.makes s e = some p) :
    ∃ launched next copied w, r = .shell launched (.pipe next) ∧ e = .call (.pipe copied) w ∧
      (createPipe copied s).1 = 0 ∧ ∃ pipes, Exec.Ipc.create s.pipes = some (p, pipes) := by
  unfold Role.makes at h
  split at h
  · rename_i launched next copied w
    split at h
    · rename_i hok
      obtain ⟨⟨q, pipes⟩, hcreate, rfl⟩ := map_eq_some_iff.mp h
      exact ⟨launched, next, copied, w, rfl, rfl, hok, pipes, hcreate⟩
    · cases h
  · cases h

theorem Wired.other_of_pipe (h : Wired stageCount input output x) {launched : ℕ}
    {next : Option (ℕ × ℕ) → Code} (hr : x.self = .shell launched (.pipe next))
    (hi : i ≠ x.sys.current) : x.role i = .other := by
  have hkeeps := h.keeps x.sys.current
  rw [show x.role x.sys.current = _ from hr] at hkeeps
  obtain rfl := hkeeps.1.1
  have hindex : ∀ k, (x.role i).index ≠ some k := fun k hk =>
    absurd (h.cast.index_lt _ _ _ hr i k hk) (Nat.not_lt_zero k)
  cases hrole : x.role i with
  | other => rfl
  | shell launched code => exact absurd (h.cast.shell _ _ _ _ _ _ hrole hr) hi
  | child index code => exact absurd (by rw [hrole]; rfl) (hindex index)
  | stage index => exact absurd (by rw [hrole]; rfl) (hindex index)

/-- Every promise is kept when a pipe is made, and the pipe is another one than those before. -/
theorem Wired.keeps_next_pipe (h : Wired stageCount input output x) (hrun : x.sys.halted = false)
    (hmade : x.self.makes x.sys e = some p) : p ∉ x.ids ∧
      ∀ i, (step pbkdf2 e x.sys).Live i → Keeps stageCount input output (x.ids ++ [p])
        (x.next pbkdf2 e).kept ((x.next pbkdf2 e).role i) ((step pbkdf2 e x.sys).tables i) := by
  have hcounted : Counted (step pbkdf2 e x.sys) := h.counted.step h.sound hrun e
  obtain ⟨launched, next, copied, w, hr, rfl, hok, pipes, hcreate⟩ := makes_eq_some hmade
  have hclosed := isOpen_of_create hcreate
  have hfresh : ∀ j e', ¬ (x.sys.tables j).Has e' p := fun j e' he =>
    absurd ((h.counted.isOpen_of_has he).symm.trans hclosed) (by simp)
  have hkeeps := h.keeps x.sys.current
  rw [show x.role x.sys.current = _ from hr] at hkeeps
  obtain ⟨⟨rfl, hopen, hmeets, -⟩, hheld⟩ := hkeeps
  have hmem : p ∉ x.ids := fun hp => by
    obtain ⟨e', he⟩ := hopen p hp
    exact hfresh _ e' he
  refine ⟨hmem, fun i hlive => ?_⟩
  obtain ⟨hold, htable⟩ := step_descriptors rfl hlive
  by_cases hi : i = x.sys.current
  · subst hi
    rw [if_pos rfl] at htable
    rcases createPipe_spec copied x.sys with
      ⟨-, q, pipes', readEnd, writeEnd, hcreate', hends, hnew⟩ |
      ⟨herror, -⟩
    · obtain rfl : p = q := (Prod.mk.inj (Option.some.inj (hcreate.symm.trans hcreate'))).1
      replace htable : (step pbkdf2 (.call (.pipe copied) w) x.sys).tables x.sys.current =
        (createPipe copied x.sys).2.selfTable := htable
      rw [role_next_current hlive, hr]
      have hnext : (Role.shell 0 (.pipe next)).next x.sys (.call (.pipe copied) w) =
          .shell 0 (next (some (readEnd.val, writeEnd.val))) := by
        simp [Role.next, Code.resume, hok, hends, Role.launches]
      rw [hnext]
      refine ⟨?_, fun q hq e' he => kept_next_of_isOpen (hcounted.isOpen_of_has he) ?_⟩
      · rw [htable]
        exact hmeets p readEnd writeEnd _ (hfresh x.sys.current) hnew
      · rw [hmade]
        rcases mem_append.mp hq with hq | hq
        · refine Or.inl (hheld q hq e' ?_)
          rw [htable] at he
          exact (hnew.has he).resolve_right fun hqp => hmem (hqp ▸ hq)
        · exact Or.inr (congrArg some (mem_singleton.mp hq).symm)
    · exact absurd hok herror.ne
  · rw [if_neg hi] at htable
    rw [role_next_old hlive hi hold, h.other_of_pipe hr hi, htable]
    intro q hq hkept e' he
    rcases mem_append.mp hq with hq | hq
    · refine absurd he ?_
      have hother := h.keeps i
      rw [h.other_of_pipe hr hi] at hother
      refine hother q hq ((kept_next hkept).resolve_right ?_) e'
      rw [hmade]
      exact fun hpq => hmem (Option.some.inj hpq ▸ hq)
    · exact hfresh i e' (mem_singleton.mp hq ▸ he)

/-! ### Who is new -/

theorem not_new (hfree : x.sys.freeSlot = some i) (hold : x.sys.Live i) : False :=
  absurd (hold.1.symm.trans (freeSlot_inactive hfree)) (by simp)

/-- Who creates a process belongs to a stage with no set-up left to do, or it is the shell that
launches the next stage. -/
theorem Wired.creates (h : Wired stageCount input output x) (hrun : x.sys.halted = false)
    (hallowed : x.self.allows x.sys e = true) (hfree : x.sys.freeSlot = some i)
    (hlive : (step pbkdf2 e x.sys).Live i) :
    (∀ k, x.self.index = some k → x.self.next x.sys e = .stage k) ∧
      ∀ launched next, x.self = .shell launched (.fork next) → x.self.launches x.sys e = true := by
  have hkeeps := h.keeps x.sys.current
  obtain ⟨r, hr⟩ : ∃ r, x.self = r := ⟨_, rfl⟩
  rw [show x.role x.sys.current = r from hr] at hkeeps
  rw [hr] at hallowed ⊢
  cases e with
  | tick | fault => exact (not_new hfree (step_idle (by exact nofun) hlive).1).elim
  | call c w =>
    refine ⟨fun k hk => ?_, fun launched next hshell => ?_⟩
    · cases r with
      | other | shell => cases hk
      | stage index =>
        obtain rfl : index = k := Option.some.inj hk
        rfl
      | child index code =>
        obtain rfl : index = k := Option.some.inj hk
        rw [Role.allows, Bool.or_eq_true, isSome_iff_exists] at hallowed
        rcases hallowed with hended | ⟨code', hresume⟩
        · cases code with
          | ended ending => simp [Role.next, Code.resume]
          | pipe | fork | close | duplicateTo => cases hended
        · have hc := (ChildMeets.resume pbkdf2 hkeeps.1 h.counted hresume).1
          exact (not_new hfree (step_descriptors hc hlive).1).elim
    · subst hshell
      cases c <;> simp only [Role.allows, Code.isEnded, Code.resume, isSome_none,
        Bool.or_false, Bool.false_eq_true] at hallowed
      rename_i cloned
      rcases step_fork (h.sound.runs hrun).1 hlive with ⟨hold, -⟩ | ⟨-, -, hpos, -⟩
      · exact (not_new hfree hold).elim
      · simpa [Role.launches] using hpos

theorem Wired.cast_next (h : Wired stageCount input output x) (hrun : x.sys.halted = false)
    (hallowed : x.self.allows x.sys e = true) : Cast (x.next pbkdf2 e).role := by
  refine h.cast.next (s := x.sys) (e := e) (r := x.self) rfl fun i => ?_
  by_cases hlive : (step pbkdf2 e x.sys).Live i
  · rcases step_tables h.sound hrun hlive with ⟨hi, hold, -⟩ | ⟨rfl, -⟩ | ⟨hfree, -⟩
    · exact Or.inr (Or.inr (Or.inl ⟨hi, role_next_old hlive hi hold⟩))
    · exact Or.inr (Or.inl ⟨rfl, role_next_current hlive⟩)
    · obtain ⟨hstage, hlaunches⟩ := h.creates hrun hallowed hfree hlive
      have hi : i ≠ x.sys.current := by
        rintro rfl
        exact absurd ((h.sound.runs hrun).1.symm.trans (freeSlot_inactive hfree)) (by simp)
      refine Or.inr (Or.inr (Or.inr ⟨hfree, role_next_new hlive hi hfree,
        fun k hk => ?_, hlaunches⟩))
      by_cases hself : (step pbkdf2 e x.sys).Live x.sys.current
      · rw [role_next_current hself]
        exact Or.inr (hstage k hk)
      · exact Or.inl (role_next_dead hself)
  · exact Or.inl (role_next_dead hlive)

/-! ### Runs -/

/-- **One event** keeps the invariant. -/
theorem Wired.next (h : Wired stageCount input output x) (hrun : x.sys.halted = false)
    (hallowed : x.self.allows x.sys e = true) :
    Wired stageCount input output (x.next pbkdf2 e) := by
  have hcounted : Counted (step pbkdf2 e x.sys) := h.counted.step h.sound hrun e
  have hids : (x.next pbkdf2 e).ids = x.ids ++ (x.self.makes x.sys e).toList := rfl
  have hpipe := fun p (hp : x.self.makes x.sys e = some p) =>
    (h.keeps_next_pipe hrun hp : p ∉ x.ids ∧ ∀ i, (step pbkdf2 e x.sys).Live i → _)
  refine ⟨h.sound.step hrun e, hcounted, fun p hp => ?_, ?_, ?_, fun i => ?_⟩
  · simp only [Session.next, Bool.and_eq_true] at hp
    exact hp.1
  · rw [hids]
    refine nodup_append'.mpr ⟨h.nodup, ?_, fun p hp hp' => ?_⟩
    · cases x.self.makes x.sys e <;> simp
    · exact (hpipe p (mem_toList.mp hp')).1 hp
  · exact h.cast_next hrun hallowed
  · by_cases hlive : (step pbkdf2 e x.sys).Live i
    · cases hmade : x.self.makes x.sys e with
      | none =>
        rw [hids, hmade, toList_none, append_nil]
        exact h.keeps_next hrun hallowed hmade hlive
      | some p =>
        rw [hids, hmade]
        exact (hpipe p hmade).2 i hlive
    · rw [role_next_dead hlive]
      exact fun p _ _ e' he => hlive (hcounted.live_of_has he)

/-- The invariant holds in the beginning. -/
theorem wired_start (hsound : Sound s) (hcounted : Counted s)
    (shell : Fin maxProcesses) (stageCount : ℕ) :
    Wired stageCount (s.tables shell 0) (s.tables shell 1) (.start s shell stageCount) := by
  have hrole : ∀ i, (i = shell ∧ (Session.start s shell stageCount).role i =
      .shell 0 (runPipelineProcesses stageCount)) ∨
      (Session.start s shell stageCount).role i = .other := fun i => by
    by_cases hi : i = shell
    · exact Or.inl ⟨hi, if_pos hi⟩
    · exact Or.inr (if_neg hi)
  have hindex : ∀ i k, ((Session.start s shell stageCount).role i).index ≠ some k := fun i k => by
    rcases hrole i with ⟨-, h⟩ | h <;> rw [h] <;> exact nofun
  have hshell : ∀ i launched code,
    (Session.start s shell stageCount).role i = .shell launched code →
      i = shell := fun i launched code h => by
    rcases hrole i with ⟨hi, -⟩ | hother
    · exact hi
    · rw [hother] at h
      cases h
  refine ⟨hsound, hcounted, nofun, nodup_nil, ⟨fun i j _ _ _ _ hi hj => ?_,
    fun _ _ _ _ j k hk => absurd hk (hindex j k), fun i _ k hi => absurd hi (hindex i k)⟩,
      fun i => ?_⟩
  · rw [hshell i _ _ hi, hshell j _ _ hj]
  · rcases hrole i with ⟨rfl, h⟩ | h <;> rw [h]
    · exact ⟨shellMeets_runPipelineProcesses stageCount _, nofun⟩
    · exact nofun

theorem Session.Reaches.wired {y : Session} (h : x.Reaches pbkdf2 y)
    (hx : Wired stageCount input output x) : Wired stageCount input output y := by
  induction h with
  | refl => exact hx
  | step _ e hrun hallowed ih => exact ih.next hrun hallowed

/-! ### The ends of a pipe -/

/-- When all set-up is over, who has an end of a pipe belongs to one of its two stages. -/
theorem Wired.index_of_has (h : Wired stageCount input output x) (hdone : x.Done) {k : ℕ}
    (hp : x.ids[k]? = some p) (hkept : x.kept p = true) {e' : End}
    (he : (x.sys.tables i).Has e' p) :
    (e' = .reader ∧ (x.role i).index = some (k + 1)) ∨
    (e' = .writer ∧ (x.role i).index = some k) := by
  have hkeeps := h.keeps i
  have hi := hdone i
  have hmem := mem_of_getElem? hp
  have hstage : ∀ index,
    Keeps stageCount input output x.ids x.kept (.stage index) (x.sys.tables i) →
      (e' = .reader ∧ some index = some (k + 1)) ∨ (e' = .writer ∧ some index = some k) :=
    fun index hk => by
      rcases hk k p hp hkept e' he with ⟨he', hindex⟩ | ⟨he', hindex⟩
      · exact Or.inl ⟨he', congrArg some hindex.symm⟩
      · exact Or.inr ⟨he', congrArg some hindex.symm⟩
  cases hr : x.role i with
  | other =>
    rw [hr] at hkeeps
    exact absurd he (hkeeps p hmem hkept e')
  | shell launched code =>
    rw [hr] at hkeeps hi
    cases code with
    | ended ending => exact absurd he (hkeeps.other p hmem hkept e')
    | pipe | fork | close | duplicateTo => cases hi
  | child index code =>
    rw [hr] at hkeeps hi
    cases code with
    | ended ending => exact hstage index hkeeps.stage
    | pipe | fork | close | duplicateTo => cases hi
  | stage index =>
    rw [hr] at hkeeps
    exact hstage index hkeeps

/-- A child is the only writer of its pipe, with its standard output. -/
theorem Wired.descriptors_eq (h : Wired stageCount input output x) (hdone : x.Done) {k : ℕ}
    (hp : x.ids[k]? = some p) (hkept : x.kept p = true) (hk : k + 1 < stageCount)
    {ending : Ending} (hi : x.role i = .child k (.ended ending)) :
    x.sys.descriptors .pipeWrite p = {(i, 1)} := by
  have hkeeps := h.keeps i
  rw [hi] at hkeeps
  obtain ⟨q, hq, hout⟩ := hkeeps.1.2.stdout hk
  obtain rfl : p = q := Option.some.inj (hp.symm.trans hq)
  have hlive := h.counted.live_of_has (e := .writer) ⟨1, hout⟩
  ext ⟨j, fd⟩
  simp only [System.descriptors, Finset.mem_filter, Finset.mem_univ, true_and,
    Finset.mem_singleton, Prod.mk.injEq]
  constructor
  · rintro ⟨-, -, hfd⟩
    have hhas : (x.sys.tables j).Has .writer p := ⟨fd, hfd⟩
    have hindex := ((h.index_of_has hdone hp hkept hhas).resolve_left (by simp)).2
    obtain rfl : j = i := by
      refine (h.cast.unique j i k hindex (by rw [hi]; rfl)).resolve_right fun hstage => ?_
      rw [hi] at hstage
      cases hstage.2
    rcases hkeeps.1.2.only k p hp .writer fd hfd with ⟨he, -, -⟩ | ⟨-, rfl, -⟩
    · cases he
    · exact ⟨rfl, rfl⟩
  · rintro ⟨rfl, rfl⟩
    exact ⟨hlive.1, hlive.2, hout⟩

theorem Wired.read_eq_zero (h : Wired stageCount input output x)
    (hkept : x.kept p = true) (buffered : ℕ) {requested : ℕ} (hrequested : 0 < requested) :
    Exec.Ipc.read p buffered requested x.sys.pipes = .ok 0 ↔
      buffered = 0 ∧ ∀ j, ¬ (x.sys.tables j).Has .writer p := by
  have hwriters : (x.sys.pipes p).writers = 0 ↔ ∀ j, ¬ (x.sys.tables j).Has .writer p := by
    rw [show (x.sys.pipes p).writers = references x.sys.tables .writer p from
      h.counted.balanced.count .writer p, references, Finset.sum_apply, Finset.sum_apply,
      Finset.sum_eq_zero_iff]
    simp only [Finset.mem_univ, true_imp_iff, has_iff, not_not]
  rw [Exec.Ipc.read, pipe_eq, if_pos (h.isOpen p hkept)]
  dsimp only
  by_cases hbuffered : buffered = 0
  · rw [if_pos hbuffered, ← hwriters]
    by_cases hw : (x.sys.pipes p).writers = 0 <;> simp [hw, hbuffered]
  · rw [if_neg hbuffered]
    refine iff_of_false (fun heq => ?_) fun hb => hbuffered hb.1
    have hmin := Except.ok.inj heq
    omega

/-- **Headline.** Whatever happens in which order from the state of a run on in which a shell begins
a pipeline: a stage has the ends of its two pipes, as its standard input and output, and no other
descriptor for a pipe of the pipeline as soon as its set-up is over, and the shell has none when it
has launched all stages. Once all set-up is over, only a stage writes to the pipe after it and only
the next one reads from it, and a reader sees the end of its input exactly when nobody in the stage
before it has its output open. -/
theorem pipeline_plumbing {allowed : Event → System → Prop} {s : System} (hs : Run pbkdf2 allowed s)
    (shell : Fin maxProcesses) (stageCount : ℕ)
    (hx : (Session.start s shell stageCount).Reaches pbkdf2 x) :
    (∀ i index, x.role i = .child index (.ended .execveStage) →
      Plumbed stageCount (s.tables shell 0) (s.tables shell 1) index x.ids (x.sys.tables i) ∧
      ∀ p ∈ x.ids, ∀ e, (x.sys.tables i).Has e p → x.kept p = true) ∧
    (∀ i launched pids, x.role i = .shell launched (.ended (.collect pids)) →
      launched = stageCount ∧ x.ids.length = stageCount - 1 ∧
      ∀ p ∈ x.ids, ∀ e, ¬ (x.sys.tables i).Has e p) ∧
    (x.Done → ∀ (k : ℕ) p, x.ids[k]? = some p → x.kept p = true →
      (∀ i, (x.sys.tables i).Has .writer p → (x.role i).index = some k) ∧
      (∀ i, (x.sys.tables i).Has .reader p → (x.role i).index = some (k + 1)) ∧
      (∀ i, k + 1 < stageCount → x.role i = .child k (.ended .execveStage) →
        x.sys.descriptors .pipeWrite p = {(i, 1)}) ∧
      ∀ buffered requested, 0 < requested →
        (Exec.Ipc.read p buffered requested x.sys.pipes = .ok 0 ↔
          buffered = 0 ∧ ∀ i, (x.role i).index = some k → ¬ (x.sys.tables i).Has .writer p)) := by
  have h := hx.wired (wired_start hs.sound hs.counted shell stageCount)
  refine ⟨fun i index hi => ?_, fun i launched pids hi => ?_, fun hdone k p hp hkept =>
    ⟨fun i he => ?_, fun i he => ?_, fun i hk hi => h.descriptors_eq hdone hp hkept hk hi,
      fun buffered requested hrequested => ?_⟩⟩
  · have hkeeps := h.keeps i
    rw [hi] at hkeeps
    exact ⟨hkeeps.1.2, hkeeps.2⟩
  · have hkeeps := h.keeps i
    rw [hi] at hkeeps
    obtain ⟨hlaunched, hlength⟩ := hkeeps.1.2 pids rfl
    exact ⟨hlaunched, hlength, hkeeps.1.1⟩
  · exact ((h.index_of_has hdone hp hkept he).resolve_left (by simp)).2
  · exact ((h.index_of_has hdone hp hkept he).resolve_right (by simp)).2
  · rw [h.read_eq_zero hkept buffered hrequested]
    refine and_congr_right fun _ => ⟨fun hnone i _ => hnone i, fun hnone i he => ?_⟩
    exact hnone i ((h.index_of_has hdone hp hkept he).resolve_left (by simp)).2 he

/-! ### A pipeline of two stages -/

/-- Some events one after another. -/
def Session.play (pbkdf2 : List UInt8 → List UInt8 → ℕ → Option (List UInt8)) :
    List Event → Session → Session
  | [], x => x
  | e :: rest, x => play pbkdf2 rest (x.next pbkdf2 e)

/-- Each of them may happen. -/
def Session.plays (pbkdf2 : List UInt8 → List UInt8 → ℕ → Option (List UInt8)) :
    List Event → Session → Bool
  | [], _ => true
  | e :: rest, x => !x.sys.halted && x.self.allows x.sys e && plays pbkdf2 rest (x.next pbkdf2 e)

theorem Session.Reaches.play {y : Session} {events : List Event} (h : x.Reaches pbkdf2 y)
    (hplays : y.plays pbkdf2 events = true) : x.Reaches pbkdf2 (y.play pbkdf2 events) := by
  induction events generalizing y with
  | nil => exact h
  | cons e rest ih =>
    simp only [Session.plays, Bool.and_eq_true, Bool.not_eq_true'] at hplays
    exact ih (.step h e hplays.1.1 hplays.1.2) hplays.2

/-- The shell makes a pipe and two children, which run after it. -/
def twoStages : List Event :=
  let calls := List.map fun c => Event.call c true
  let switch := List.replicate timerQuantumTicks (Event.tick true)
  calls [.pipe true, .fork true, .fork true, .close 3, .close 4] ++ switch ++
    calls [.close 3, .dup2 4 1, .close 4] ++ switch ++ calls [.close 4, .dup2 3 0, .close 3]

/-- The stage of a child whose set-up is over. -/
def Role.settledChild : Role → Option ℕ
  | child index (.ended .execveStage) => some index
  | _ => none

theorem eq_child_of_settledChild {index : ℕ} (h : r.settledChild = some index) :
    r = .child index (.ended .execveStage) := by
  unfold Role.settledChild at h
  split at h
  · exact congrArg (Role.child · _) (Option.some.inj h)
  · cases h

/-- When both children are set up, the first one alone writes to the pipe. -/
theorem pipeline_plumbing_sample :
    ∃ x, (Session.start .boot 0 2).Reaches (fun _ _ _ => none) x ∧ x.ids = [0] ∧
      x.sys.descriptors .pipeWrite 0 = {(1, 1)} ∧ Exec.Ipc.read 0 0 512 x.sys.pipes ≠ .ok 0 := by
  have hx : (Session.start .boot 0 2).Reaches (fun _ _ _ => none)
      ((Session.start .boot 0 2).play (fun _ _ _ => none) twoStages) :=
    Session.Reaches.refl.play (by decide +kernel)
  have hids : ((Session.start .boot 0 2).play (fun _ _ _ => none) twoStages).ids = [0] := by
    decide +kernel
  have hboot : Run (fun _ _ _ => none) (fun _ _ => True) .boot := .boot
  obtain ⟨-, -, hends⟩ := pipeline_plumbing hboot 0 2 hx
  obtain ⟨-, -, hwriter, hread⟩ :=
    hends (by decide +kernel) 0 0 (by rw [hids]; rfl) (by decide +kernel)
  refine ⟨_, hx, hids, hwriter 1 (by decide) (eq_child_of_settledChild (by decide +kernel)), ?_⟩
  intro hzero
  exact ((hread 0 512 (by decide)).mp hzero).2 1 (by decide +kernel) ⟨1, by decide +kernel⟩

end Next

end ImagineOS.Shell
