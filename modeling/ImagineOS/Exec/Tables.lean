import ImagineOS.Exec.References

/-!
# Processes: descriptor tables after a step

An event changes the table of the process that runs, and it may make a table for a new process,
which has only ends of pipes that the creator has. Whoever else is there afterwards has the
descriptors that it had.
-/

namespace ImagineOS.Exec

open Function

/-- The process in a slot is there, and it has not ended. -/
def System.Live (s : System) (i : Fin maxProcesses) : Prop :=
  (s.processes i).active = true ∧ (s.processes i).zombie = false

instance (s : System) (i : Fin maxProcesses) : Decidable (s.Live i) :=
  inferInstanceAs (Decidable (_ ∧ _))

/-- There is a descriptor for an end of a pipe. -/
def DescriptorTable.Has (t : DescriptorTable) (e : End) (p : Fin maxPipes) : Prop :=
  ∃ fd, t fd = ⟨e.kind, p⟩

section Has

variable {t : DescriptorTable} {e : End} {p : Fin maxPipes} {s : System} {i : Fin maxProcesses}

theorem has_of_update {fd : Fin maxOpenFds} {d : Descriptor}
    (h : DescriptorTable.Has (Function.update t fd d) e p) : d = ⟨e.kind, p⟩ ∨ t.Has e p := by
  obtain ⟨fd', hfd'⟩ := h
  by_cases hne : fd' = fd
  · rw [hne, update_self] at hfd'
    exact Or.inl hfd'
  · rw [update_of_ne hne] at hfd'
    exact Or.inr ⟨fd', hfd'⟩

theorem has_iff : t.Has e p ↔ t.references e p ≠ 0 := by
  rw [DescriptorTable.references, Finset.sum_apply, Finset.sum_apply, Ne, Finset.sum_eq_zero_iff]
  simp only [Finset.mem_univ, true_imp_iff, not_forall]
  refine exists_congr fun fd => ?_
  rw [Descriptor.references, ite_eq_right_iff, Classical.not_imp]
  constructor
  · intro h
    rw [h]
    exact ⟨⟨rfl, rfl⟩, one_ne_zero⟩
  · rintro ⟨⟨hkind, hpipe⟩, -⟩
    rw [← hkind, ← hpipe]

theorem Counted.isOpen_of_has (hs : Counted s) (h : (s.tables i).Has e p) :
    (s.pipes p).isOpen = true :=
  (hs.balanced.isOpen p).mpr ⟨e, (Nat.pos_of_ne_zero (has_iff.mp h)).trans_le
    (table_references_le s.tables i e p)⟩

theorem Counted.live_of_has (hs : Counted s) (h : (s.tables i).Has e p) : s.Live i := by
  by_contra hdead
  have hunused : (s.cores i).active = false ∨ (s.cores i).zombie = true := by
    rw [System.Live, not_and_or] at hdead
    simpa [System.cores, Process.core] using hdead
  exact has_iff.mp h (congrFun (congrFun (hs.unused i hunused) e) p)

end Has

/-! ### Settling -/

section Settle

variable {s s' : System} {i : Fin maxProcesses}

theorem live_iff : s.Live i ↔ (s.cores i).active = true ∧ (s.cores i).zombie = false := Iff.rfl

theorem Kept.live_iff (h : Kept s s') : s'.Live i ↔ s.Live i := by
  rw [Exec.live_iff, h.cores, Exec.live_iff]

theorem Settles.tables (h : Settles s s') (hlive : s'.Live i) :
    s.Live i ∧ s'.tables i = s.tables i := by
  refine h.induction (I := fun t => t.Live i → s.Live i ∧ t.tables i = s.tables i)
    (fun t t' hsettle ht hlive => ?_) (fun hlive => ⟨hlive, rfl⟩) hlive
  rcases hsettle with hkept | hkept
  · obtain ⟨h₁, h₂⟩ := ht (hkept.live_iff.mp hlive)
    exact ⟨h₁, by rw [hkept.tables, h₂]⟩
  · have hfinished := live_iff.mp (hkept.live_iff.mp hlive)
    rw [cores_finish] at hfinished
    have hne : i ≠ t.current := fun he => by simp [he] at hfinished
    obtain ⟨h₁, h₂⟩ := ht (live_iff.mpr (by simpa [hne] using hfinished))
    refine ⟨h₁, ?_⟩
    rw [hkept.tables, ← h₂]
    exact update_of_ne hne _ _

end Settle

/-! ### Calls on descriptors -/

section Calls

variable {pbkdf2 : List UInt8 → List UInt8 → ℕ → Option (List UInt8)} {s s' : System}
  {i : Fin maxProcesses} {e : End} {p : Fin maxPipes} {c : Call}

theorem OnlyDescriptors.live_iff (h : OnlyDescriptors s s') : s'.Live i ↔ s.Live i := by
  obtain ⟨t, pipes, rfl⟩ := h
  exact Iff.rfl

theorem OnlyDescriptors.current (h : OnlyDescriptors s s') : s'.current = s.current := by
  obtain ⟨t, pipes, rfl⟩ := h
  rfl

theorem OnlyDescriptors.tables_of_ne (h : OnlyDescriptors s s') (hi : i ≠ s.current) :
    s'.tables i = s.tables i := by
  obtain ⟨t, pipes, rfl⟩ := h
  exact update_of_ne hi _ _

/-- The table of the process that runs. -/
def System.selfTable (s : System) : DescriptorTable := s.tables s.current

@[simp] theorem selfTable_setDescriptor (fd : Fin maxOpenFds) (d : Descriptor) (pipes : Pipes) :
    (s.setDescriptor fd d pipes).selfTable = Function.update s.selfTable fd d :=
  update_self _ _ _

variable {d : Descriptor}

theorem has_allocateDescriptor
    (h : (allocateDescriptor d s).2.selfTable.Has e p) : d = ⟨e.kind, p⟩ ∨ s.selfTable.Has e p := by
  rcases heq : allocateDescriptor d s with ⟨fd, s'⟩
  rw [heq] at h
  cases fd with
  | none =>
    obtain ⟨rfl, -⟩ := allocateDescriptor_none heq
    exact Or.inr h
  | some fd =>
    obtain ⟨rfl, -⟩ := allocateDescriptor_some heq
    rw [selfTable_setDescriptor] at h
    exact has_of_update h

/-- The table after `close_descriptor`. -/
def DescriptorTable.close (t : DescriptorTable) (fd : ℕ) : DescriptorTable := fun fd' =>
  if fd'.val = fd ∧ (t fd').kind ≠ .closed then .closed else t fd'

theorem selfTable_closeDescriptor (fd : ℕ) (s : System) :
    (closeDescriptor fd s).2.selfTable = s.selfTable.close fd := by
  funext fd'
  rw [closeDescriptor, fdIndex]
  split
  · rename_i hnone
    rw [dite_eq_right_iff] at hnone
    rw [DescriptorTable.close, if_neg]
    rintro ⟨rfl, -⟩
    exact absurd (hnone fd'.isLt) (by simp)
  · rename_i index hsome
    obtain ⟨hlt, hindex⟩ : ∃ hlt : fd < maxOpenFds, (⟨fd, hlt⟩ : Fin maxOpenFds) = index := by
      simpa using hsome
    subst hindex
    dsimp only
    split
    · rename_i hclosed
      rw [DescriptorTable.close, if_neg]
      rintro ⟨rfl, hopen⟩
      exact hopen hclosed
    · rename_i hopen
      rw [selfTable_setDescriptor, DescriptorTable.close, update_apply]
      by_cases hfd : fd' = ⟨fd, hlt⟩
      · subst hfd
        rw [if_pos rfl, if_pos ⟨rfl, hopen⟩]
      · rw [if_neg hfd, if_neg fun h => hfd (Fin.ext h.1)]

variable {t : DescriptorTable}

theorem has_close {fd : ℕ} (h : (t.close fd).Has e p) : t.Has e p := by
  obtain ⟨fd', hfd'⟩ := h
  rw [DescriptorTable.close] at hfd'
  split at hfd'
  · cases e <;> simp [Descriptor.closed, Descriptor.new, End.kind] at hfd'
  · exact ⟨fd', hfd'⟩

theorem has_closeDescriptor {fd : ℕ} (h : (closeDescriptor fd s).2.selfTable.Has e p) :
    s.selfTable.Has e p := by
  rw [selfTable_closeDescriptor] at h
  exact has_close h

theorem has_duplicateDescriptor {fd : ℕ} (h : (duplicateDescriptor fd s).2.selfTable.Has e p) :
    s.selfTable.Has e p := by
  rw [duplicateDescriptor] at h
  split at h
  · exact h
  rename_i fd _
  dsimp only at h
  split at h
  · exact h
  split at h
  · exact h
  rename_i pipes _
  have hallocate : (allocateDescriptor (s.tables s.current fd)
    { s with pipes := pipes }).2.selfTable.Has
      e p → s.selfTable.Has e p := fun h => by
    rcases has_allocateDescriptor h with hd | h
    · exact ⟨fd, hd⟩
    · exact h
  split at h
  · rename_i heq
    rw [heq] at hallocate
    exact hallocate h
  · rename_i heq
    rw [heq] at hallocate
    exact hallocate h

theorem has_duplicateDescriptorTo {source target : ℕ}
    (h : (duplicateDescriptorTo source target s).2.selfTable.Has e p) : s.selfTable.Has e p := by
  rw [duplicateDescriptorTo] at h
  split at h
  · exact h
  split at h
  · exact h
  rename_i source _
  dsimp only at h
  split at h
  · exact h
  split at h
  · exact h
  split at h
  · exact h
  · rw [selfTable_setDescriptor] at h
    rcases has_of_update h with hd | h
    · exact ⟨source, hd⟩
    · exact h

/-- `dup2` of an end of a pipe. -/
theorem duplicateDescriptorTo_end (hs : Counted s) {source target : Fin maxOpenFds}
    (hsource : s.selfTable source = ⟨e.kind, p⟩) (hne : source ≠ target) :
    (duplicateDescriptorTo source target s).2.selfTable =
      Function.update s.selfTable target ⟨e.kind, p⟩ := by
  have hopen := hs.isOpen_of_has (i := s.current) ⟨source, hsource⟩
  obtain ⟨pipes, hadd⟩ : ∃ pipes, addReference ⟨e.kind, p⟩ s.pipes = some pipes := by
    rw [addReference_end]
    simp [Ipc.addEnd, pipe_eq, hopen]
  have hkind : ¬ (s.tables s.current source).kind = .closed := by
    rw [show s.tables s.current source = _ from hsource]
    cases e <;> simp [End.kind]
  have htarget : fdIndex target = some target := by simp [fdIndex]
  have hindex : fdIndex source = some source := by simp [fdIndex]
  rw [duplicateDescriptorTo, htarget, hindex]
  dsimp only
  rw [if_neg hkind, if_neg hne, show s.tables s.current source = _ from hsource, hadd]
  exact selfTable_setDescriptor _ _ _

/-! ### Making a pipe -/

/-- What `create_pipe` writes into the memory of the caller. -/
def pipeEnds (s : System) : Option (ℕ × ℕ) :=
  match Ipc.create s.pipes with
  | none => none
  | some (id, pipes) =>
    let (readEnd, s) := allocateDescriptor ⟨.pipeRead, id⟩ { s with pipes := pipes }
    let (writeEnd, _) := allocateDescriptor ⟨.pipeWrite, id⟩ s
    match readEnd, writeEnd with
    | some readEnd, some writeEnd => some (readEnd, writeEnd)
    | _, _ => none

/-- What was closed is closed, and the rest is what it was. -/
def Reclosed (t t' : DescriptorTable) : Prop :=
  ∀ fd, t' fd = t fd ∨ (t fd).kind = .closed ∧ t' fd = .closed

/-- A table with the two ends of a new pipe. -/
structure NewPipe (t t' : DescriptorTable) (p : Fin maxPipes) (readEnd writeEnd : Fin maxOpenFds) :
    Prop where
  ne : readEnd ≠ writeEnd
  readEnd_le : 3 ≤ readEnd.val
  writeEnd_le : 3 ≤ writeEnd.val
  readEnd_closed : (t readEnd).kind = .closed
  writeEnd_closed : (t writeEnd).kind = .closed
  table : t' = Function.update (Function.update t readEnd ⟨.pipeRead, p⟩) writeEnd ⟨.pipeWrite, p⟩

variable {fd : Fin maxOpenFds}

theorem close_update {fd' : Fin maxOpenFds} (hne : fd ≠ fd')
    (d : Descriptor) : DescriptorTable.close (Function.update t fd' d) fd =
      Function.update (t.close fd) fd' d := by
  funext fd''
  simp only [DescriptorTable.close, update_apply]
  by_cases hfd : fd'' = fd'
  · subst hfd
    rw [if_pos rfl, if_pos rfl, if_neg fun h => hne (Fin.ext h.1.symm)]
  · rw [if_neg hfd, if_neg hfd]

theorem Reclosed.refl (t : DescriptorTable) : Reclosed t t := fun _ => Or.inl rfl

variable {t' : DescriptorTable}

theorem reclosed_close
    (hclosed : (t fd).kind = .closed) (h : Reclosed t t') (hd : d.kind ≠ .closed) :
    Reclosed t (DescriptorTable.close (Function.update t' fd d) fd) := by
  intro fd'
  by_cases hfd : fd' = fd
  · subst hfd
    refine Or.inr ⟨hclosed, ?_⟩
    rw [DescriptorTable.close, update_self, if_pos ⟨rfl, hd⟩]
  · rw [DescriptorTable.close, if_neg fun h => hfd (Fin.ext h.1), update_of_ne hfd]
    exact h fd'

theorem allocateDescriptor_le (h : allocateDescriptor d s = (some fd, s')) : 3 ≤ fd.val := by
  rw [allocateDescriptor] at h
  split at h
  · exact absurd (congrArg Prod.fst h) (by simp)
  rename_i fd' t ht
  obtain ⟨hfd, -⟩ := Prod.mk.inj h
  obtain rfl := Option.some.inj hfd
  rw [DescriptorTable.allocate] at ht
  obtain ⟨found, hfind, heq⟩ := Option.map_eq_some_iff.mp ht
  obtain ⟨rfl, -⟩ := Prod.mk.inj heq
  have hfound := List.find?_some hfind
  simp only [decide_eq_true_eq] at hfound
  exact hfound.1

/-- **`pipe`** makes a pipe that was not open, or it leaves the table as it was. -/
theorem createPipe_spec (copied : Bool) (s : System) :
    ((createPipe copied s).1 = 0 ∧ ∃ p pipes readEnd writeEnd,
        Ipc.create s.pipes = some (p, pipes) ∧
        pipeEnds s = some (readEnd.val, writeEnd.val) ∧
        NewPipe s.selfTable (createPipe copied s).2.selfTable p readEnd writeEnd) ∨
    ((createPipe copied s).1 < 0 ∧ Reclosed s.selfTable (createPipe copied s).2.selfTable) := by
  rw [createPipe]
  split
  · exact Or.inr ⟨by simp, fun fd => Or.inl rfl⟩
  rename_i id pipes hcreate
  dsimp only
  rcases hread : allocateDescriptor ⟨.pipeRead, id⟩ { s with pipes := pipes } with ⟨readEnd, s₁⟩
  rcases hwrite : allocateDescriptor ⟨.pipeWrite, id⟩ s₁ with ⟨writeEnd, s₂⟩
  cases readEnd with
  | none =>
    obtain ⟨rfl, hfull⟩ := allocateDescriptor_none hread
    cases writeEnd with
    | none =>
      obtain ⟨rfl, -⟩ := allocateDescriptor_none hwrite
      exact Or.inr ⟨by simp, fun fd => Or.inl rfl⟩
    | some writeEnd =>
      have hnone := hfull ⟨.pipeWrite, id⟩
      rw [hwrite] at hnone
      exact absurd hnone (by simp)
  | some readEnd =>
    obtain ⟨hs₁, hreadClosed⟩ := allocateDescriptor_some hread
    have htable₁ : s₁.selfTable = update s.selfTable readEnd ⟨.pipeRead, id⟩ := by
      rw [hs₁]
      exact selfTable_setDescriptor _ _ _
    cases writeEnd with
    | none =>
      obtain ⟨rfl, -⟩ := allocateDescriptor_none hwrite
      refine Or.inr ⟨by simp, ?_⟩
      change Reclosed _ (closeDescriptor readEnd s₂).2.selfTable
      rw [selfTable_closeDescriptor, htable₁]
      exact reclosed_close hreadClosed (.refl _) (by simp)
    | some writeEnd =>
      obtain ⟨hs₂, hwriteClosed⟩ := allocateDescriptor_some hwrite
      replace hwriteClosed : (s₁.selfTable writeEnd).kind = .closed := hwriteClosed
      have htable₂ : s₂.selfTable = update s₁.selfTable writeEnd ⟨.pipeWrite, id⟩ := by
        rw [hs₂]
        exact selfTable_setDescriptor _ _ _
      have hne : readEnd ≠ writeEnd := fun he => by
        rw [htable₁, ← he, update_self] at hwriteClosed
        cases hwriteClosed
      rw [htable₁, update_of_ne hne.symm] at hwriteClosed
      dsimp only
      split
      · refine Or.inl ⟨rfl, id, pipes, readEnd, writeEnd, hcreate, ?_, hne,
          allocateDescriptor_le hread, allocateDescriptor_le hwrite, hreadClosed, hwriteClosed, ?_⟩
        · simp only [pipeEnds, hcreate, hread, hwrite]
        · rw [htable₂, htable₁]
      · refine Or.inr ⟨by simp, ?_⟩
        rw [selfTable_closeDescriptor, selfTable_closeDescriptor, htable₂, htable₁]
        rw [close_update hne]
        exact reclosed_close hwriteClosed (reclosed_close hreadClosed (.refl _) (by simp)) (by simp)

theorem isOpen_of_create {pipes pipes' : Pipes} {id : Fin maxPipes}
    (h : Ipc.create pipes = some (id, pipes')) : (pipes id).isOpen = false := by
  rw [Ipc.create] at h
  obtain ⟨found, hfind, heq⟩ := Option.map_eq_some_iff.mp h
  obtain ⟨rfl, -⟩ := Prod.mk.inj heq
  simpa using List.find?_some hfind

theorem has_of_reclosed (h : Reclosed t t') (hhas : t'.Has e p) :
    t.Has e p := by
  obtain ⟨fd, hfd⟩ := hhas
  rcases h fd with heq | ⟨-, hclosed⟩
  · exact ⟨fd, heq ▸ hfd⟩
  · rw [hclosed] at hfd
    cases e <;> simp [Descriptor.closed, Descriptor.new, End.kind] at hfd

theorem NewPipe.has {id : Fin maxPipes} {readEnd writeEnd : Fin maxOpenFds}
    (h : NewPipe t t' id readEnd writeEnd) (hhas : t'.Has e p) : t.Has e p ∨ p = id := by
  rw [h.table] at hhas
  rcases has_of_update hhas with hd | hhas
  · exact Or.inr (Fin.ext (congrArg Descriptor.pipe hd).symm)
  rcases has_of_update hhas with hd | hhas
  · exact Or.inr (Fin.ext (congrArg Descriptor.pipe hd).symm)
  · exact Or.inl hhas

/-- **Where an end of a pipe comes from**, when there was a call on descriptors: it was there, or
the pipe is new. -/
theorem has_dispatch (hc : c.onDescriptors = true) (h : (dispatch pbkdf2 c s).selfTable.Has e p) :
    s.selfTable.Has e p ∨ (s.pipes p).isOpen = false := by
  cases c with
  | «open» =>
    rcases has_allocateDescriptor h with hd | h
    · cases e <;> simp [Descriptor.new, End.kind] at hd
    · exact Or.inl h
  | close fd => exact Or.inl (has_closeDescriptor h)
  | dup fd => exact Or.inl (has_duplicateDescriptor h)
  | dup2 source target => exact Or.inl (has_duplicateDescriptorTo h)
  | pipe copied =>
    rcases createPipe_spec copied s with ⟨-, id, pipes, _, _, hcreate, -, hnew⟩ | ⟨-, hreclosed⟩
    · refine (hnew.has h).imp_right fun hp => ?_
      rw [hp]
      exact isOpen_of_create hcreate
    · exact Or.inl (has_of_reclosed hreclosed h)
  | yield | exit | authenticate | kill | sigaction | sigreturn | exec | execve | spawn | fork
  | waitpid => exact absurd hc (by simp [Call.onDescriptors])

end Calls

/-! ### Events -/

section Events

variable {pbkdf2 : List UInt8 → List UInt8 → ℕ → Option (List UInt8)} {s : System}
  {i : Fin maxProcesses} {e : Event}

theorem live_of_update {f : Fin maxProcesses → Process} {j : Fin maxProcesses} {p : Process}
    (hij : i ≠ j) (h : (Function.update f j p i).active = true ∧
      (Function.update f j p i).zombie = false) : (f i).active = true ∧ (f i).zombie = false := by
  rwa [update_of_ne hij] at h

theorem has_applySpawnIo {parent : DescriptorTable} {io : SpawnIo} {pipes : Pipes} {e : End}
    {p : Fin maxPipes} (h : (applySpawnIo .new io parent pipes).1.Has e p) : parent.Has e p := by
  have hstep : ∀ (target : Fin maxOpenFds) (source : ℤ) (c : DescriptorTable × Pipes),
      (applySpawnFd parent target source c).1.Has e p → c.1.Has e p ∨ parent.Has e p := by
    intro target source c h
    rw [applySpawnFd] at h
    split at h
    · exact Or.inl h
    split at h
    · exact Or.inl h
    rename_i source _
    dsimp only at h
    split at h
    · exact Or.inl h
    · exact (has_of_update h).symm.imp_right fun hd => ⟨source, hd⟩
  rw [applySpawnIo] at h
  rcases hstep _ _ _ h with h | h
  · rcases hstep _ _ _ h with h | h
    · rcases hstep _ _ _ h with h | h
      · exact absurd (table_references_eq_zero new_references) fun hzero =>
          has_iff.mp h (congrFun (congrFun hzero e) p)
      · exact h
    · exact h
  · exact h

/-- **The tables after an event**, of the processes that are left: the process that runs may have
made a call on descriptors, a new process has ends of its creator only, and nothing else changes. -/
theorem step_tables (hs : Sound s) (hrun : s.halted = false) (hlive : (step pbkdf2 e s).Live i) :
    (i ≠ s.current ∧ s.Live i ∧ (step pbkdf2 e s).tables i = s.tables i) ∨
    (i = s.current ∧ ((step pbkdf2 e s).tables i = s.selfTable ∨
      ∃ c w, e = .call c w ∧ c.onDescriptors = true ∧
        (step pbkdf2 e s).tables i = (dispatch pbkdf2 c s).selfTable)) ∨
    (s.freeSlot = some i ∧ ∀ e' p, ((step pbkdf2 e s).tables i).Has e' p →
      s.selfTable.Has e' p) := by
  obtain ⟨s₁, hact, hsettles⟩ : Does pbkdf2 e s (step pbkdf2 e s) := step_spec e s
  obtain ⟨hlive₁, htable⟩ := hsettles.1.tables hlive
  rw [htable]
  have hself := hs.runs hrun
  -- Whatever leaves the processes and the tables alone.
  have hsame : s₁.tables = s.tables → (i ≠ s.current → s.Live i) →
      (i ≠ s.current ∧ s.Live i ∧ s₁.tables i = s.tables i) ∨
      (i = s.current ∧ (s₁.tables i = s.selfTable ∨ ∃ c w, e = .call c w ∧
        c.onDescriptors = true ∧ s₁.tables i = (dispatch pbkdf2 c s).selfTable)) := fun ht hl => by
    by_cases hi : i = s.current
    · exact Or.inr ⟨hi, Or.inl (by rw [ht, hi]; rfl)⟩
    · exact Or.inl ⟨hi, hl hi, congrFun ht i⟩
  have hset : ∀ p : Process, (s.setSelf p).Live i → i ≠ s.current → s.Live i := fun p h hi =>
    live_of_update hi h
  -- A process is created, and the others stay.
  have hcreate : ∀ {slot p t pipes}, s.freeSlot = some slot → (s.create slot p t pipes).Live i →
      (∀ e' q, t.Has e' q → s.selfTable.Has e' q) →
      (i ≠ s.current ∧ s.Live i ∧ (s.create slot p t pipes).tables i = s.tables i) ∨
      (i = s.current ∧ ((s.create slot p t pipes).tables i = s.selfTable ∨
        ∃ c w, e = .call c w ∧ c.onDescriptors = true ∧
          (s.create slot p t pipes).tables i = (dispatch pbkdf2 c s).selfTable)) ∨
      (s.freeSlot = some i ∧
        ∀ e' q, ((s.create slot p t pipes).tables i).Has e' q → s.selfTable.Has e' q) := by
    intro slot p t pipes hslot hl hhas
    by_cases his : i = slot
    · refine Or.inr (Or.inr ⟨his ▸ hslot, fun e' q h => hhas e' q ?_⟩)
      rwa [his, show (s.create slot p t pipes).tables slot = t from update_self _ _ _] at h
    · have htables : (s.create slot p t pipes).tables i = s.tables i :=
        update_of_ne his _ _
      by_cases hi : i = s.current
      · exact Or.inr (Or.inl ⟨hi, Or.inl (by rw [htables, hi]; rfl)⟩)
      · exact Or.inl ⟨hi, live_of_update his hl, htables⟩
  cases hact with
  | kept h _ => exact (hsame h.tables fun _ => h.live_iff.mp hlive₁).imp_right Or.inl
  | @opened c w _ hc =>
    by_cases hi : i = s.current
    · refine Or.inr (Or.inl ⟨hi, Or.inr ⟨c, w, rfl, hc, ?_⟩⟩)
      rw [System.selfTable, (dispatch_only hc).current, hi]
    · exact Or.inl ⟨hi, (dispatch_only hc).live_iff.mp hlive₁, (dispatch_only hc).tables_of_ne hi⟩
  | spawned hslot _ => exact hcreate hslot hlive₁ fun _ _ => has_applySpawnIo
  | forked hslot _ => exact hcreate hslot hlive₁ fun _ _ h => h
  | replaced _ => exact (hsame rfl (hset _ hlive₁)).imp_right Or.inl
  | elevated => exact (hsame rfl (hset _ hlive₁)).imp_right Or.inl
  | identified => exact (hsame rfl (hset _ hlive₁)).imp_right Or.inl
  | @collected _ _ _ _ _ _ child slot =>
    have his : i ≠ slot := fun he => by
      have hactive : (update s.processes slot .empty i).active = true := hlive₁.1
      rw [he, update_self] at hactive
      cases hactive
    exact (hsame rfl fun _ => live_of_update his hlive₁).imp_right Or.inl
  | blocked _ _ _ h _ =>
    exact (hsame h.tables fun hi => hset _ (h.live_iff.mp hlive₁) hi).imp_right Or.inl

/-- **Where an end of a pipe comes from**: whoever has it had it, the process that runs had it, or
the pipe is new. -/
theorem step_has (hs : Sound s) (hrun : s.halted = false) (hlive : (step pbkdf2 e s).Live i)
    {e' : End} {p : Fin maxPipes} (h : ((step pbkdf2 e s).tables i).Has e' p) :
    (i ≠ s.current ∧ s.Live i ∧ (s.tables i).Has e' p) ∨
    ((i = s.current ∨ s.freeSlot = some i) ∧
      (s.selfTable.Has e' p ∨ (s.pipes p).isOpen = false)) := by
  rcases step_tables hs hrun hlive with ⟨hi, hl, htable⟩ | ⟨hi, htable | ⟨c, w, -, hc, htable⟩⟩ |
    ⟨hi, htable⟩
  · exact Or.inl ⟨hi, hl, htable ▸ h⟩
  · exact Or.inr ⟨Or.inl hi, Or.inl (htable ▸ h)⟩
  · exact Or.inr ⟨Or.inl hi, has_dispatch hc (htable ▸ h)⟩
  · exact Or.inr ⟨Or.inr hi, Or.inl (htable e' p h)⟩

theorem step_descriptors {c : Call} {w : Bool} (hc : c.onDescriptors = true)
    (hlive : (step pbkdf2 (.call c w) s).Live i) : s.Live i ∧
      (step pbkdf2 (.call c w) s).tables i =
        if i = s.current then (dispatch pbkdf2 c s).selfTable else s.tables i := by
  obtain ⟨hlive₁, htable⟩ := (settlesWell_call c w s).1.tables hlive
  refine ⟨(dispatch_only hc).live_iff.mp hlive₁, ?_⟩
  rw [htable]
  split
  · rename_i hi
    rw [System.selfTable, (dispatch_only hc).current, hi]
  · rename_i hi
    exact (dispatch_only hc).tables_of_ne hi

theorem step_idle (he : ∀ c w, e ≠ .call c w) (hlive : (step pbkdf2 e s).Live i) :
    s.Live i ∧ (step pbkdf2 e s).tables i = s.tables i := by
  cases e with
  | call c w => exact absurd rfl (he c w)
  | tick user => exact (timerTick_spec user s).1.tables hlive
  | fault => exact (settlesWell_schedule true s).1.tables hlive

/-- After `fork` a new process has the descriptors of the process that runs, which keeps them. -/
theorem step_fork {cloned w : Bool} (hactive : s.self.active = true)
    (hlive : (step pbkdf2 (.call (.fork cloned) w) s).Live i) :
    (s.Live i ∧ (step pbkdf2 (.call (.fork cloned) w) s).tables i = s.tables i) ∨
    (i ≠ s.current ∧ s.freeSlot = some i ∧ 0 < (forkCurrent cloned s).1 ∧
      (step pbkdf2 (.call (.fork cloned) w) s).tables i = s.selfTable) := by
  obtain ⟨hlive₁, htable⟩ := (settlesWell_call (.fork cloned) w s).1.tables hlive
  rw [htable]
  change (forkCurrent cloned s).2.Live i at hlive₁
  change (s.Live i ∧ (forkCurrent cloned s).2.tables i = s.tables i) ∨
    (i ≠ s.current ∧ s.freeSlot = some i ∧ 0 < (forkCurrent cloned s).1 ∧
      (forkCurrent cloned s).2.tables i = s.selfTable)
  rw [forkCurrent] at hlive₁ ⊢
  split at hlive₁
  · exact Or.inl ⟨hlive₁, rfl⟩
  rename_i slot hslot
  split at hlive₁
  · rename_i hcloned
    simp only [hslot, if_pos hcloned]
    exact Or.inl ⟨hlive₁, trivial⟩
  rename_i hcloned
  simp only [hslot, if_neg hcloned]
  dsimp only at hlive₁
  by_cases his : i = slot
  · refine Or.inr ⟨fun hi => ?_, by rw [his], ?_, ?_⟩
    · have hfree := freeSlot_inactive hslot
      rw [← his, hi] at hfree
      exact absurd (hactive.symm.trans hfree) (by simp)
    · exact Int.natCast_pos.mpr (Nat.succ_pos _)
    · rw [his]
      exact update_self _ _ _
  · exact Or.inl ⟨live_of_update his hlive₁, update_of_ne his _ _⟩

/-- The answer of `fork` for the parent. -/
theorem forkCurrent_ne_zero (cloned : Bool) (s : System) : (forkCurrent cloned s).1 ≠ 0 := by
  rw [forkCurrent]
  split
  · simp
  split
  · simp
  · exact Int.natCast_ne_zero.mpr (Nat.succ_ne_zero _)

theorem Counted.step (hs : Counted s) (hsound : Sound s) (hrun : s.halted = false) (e : Event) :
    Counted (Exec.step pbkdf2 e s) := by
  obtain ⟨s₁, hact, hsettles⟩ : Does pbkdf2 e s (Exec.step pbkdf2 e s) := step_spec e s
  exact hsettles.1.induction (fun _ _ h ht => h.counted ht) (hact.counted hsound hrun hs)

theorem Sound.step (hs : Sound s) (hrun : s.halted = false) (e : Event) :
    Sound (Exec.step pbkdf2 e s) := by
  obtain ⟨s₁, hact, hsettles⟩ : Does pbkdf2 e s (Exec.step pbkdf2 e s) := step_spec e s
  exact hsettles.sound (hact.sound hrun hs)

end Events

end ImagineOS.Exec
