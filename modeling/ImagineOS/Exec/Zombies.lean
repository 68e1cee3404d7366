import ImagineOS.Exec.Identity

/-!
# Processes: zombies

A process that has ended keeps its slot until its parent collects it. When the parent ends first,
nothing gives the child another parent: it keeps the pid of the one that is gone, no `waitpid`
matches it, and its slot is lost (`zombie_lost`). As long as nobody ends before its children are
collected, every zombie has a parent that can collect it.
-/

namespace ImagineOS.Exec

open Function

/-- The parent of every process but the first one has its slot. -/
def Parented (cores : Fin maxProcesses → Core) : Prop :=
  ∀ i, (cores i).active = true → (cores i).parent ≠ 0 →
    ∃ j, (cores j).active = true ∧ (cores j).pid = (cores i).parent

/-- Nobody that has ended is a parent, or the first process. -/
def NoOrphans (s : System) : Prop :=
  ∀ i, (s.processes i).active = true → (s.processes i).zombie = true →
    (s.processes i).parent ≠ 0 ∧
      ∀ j, (s.processes j).active = true → (s.processes j).parent ≠ (s.processes i).pid

/-- There is a process, which has not ended, whose `waitpid` collects the one in a slot. -/
def CollectedBy (s : System) (i j : Fin maxProcesses) : Prop :=
  (s.processes j).active = true ∧ (s.processes j).zombie = false ∧
    ∀ writable options, waitpidCurrent (s.processes i).pid 0 writable options
      { s with current := j } =
        (((s.processes i).pid : ℤ), ({ s with current := j } : System).collect i i)

/-- Every zombie can be collected. -/
def Reapable (s : System) : Prop :=
  ∀ i, (s.processes i).active = true → (s.processes i).zombie = true → ∃ j, CollectedBy s i j

/-- Who ends in a step leaves no child behind, and is not the first process. -/
def EndsAlone (pbkdf2 : List UInt8 → List UInt8 → ℕ → Option (List UInt8)) (e : Event)
    (s : System) :
    Prop :=
  NoOrphans (step pbkdf2 e s)

section Zombies

variable {pbkdf2 : List UInt8 → List UInt8 → ℕ → Option (List UInt8)} {e : Event} {s s' : System}
  {cores cores' : Fin maxProcesses → Core} {c : Core} {k : Fin maxProcesses}

theorem Parented.congr (h : Parented cores) (hsame : ∀ i, SameIdentity (cores i) (cores' i)) :
    Parented cores' := by
  intro i hi hparent
  rw [(hsame i).active] at hi
  rw [(hsame i).parent] at hparent ⊢
  obtain ⟨j, hj, hpid⟩ := h i hi hparent
  exact ⟨j, (hsame j).active.trans hj, (hsame j).pid.trans hpid⟩

theorem Parented.update (h : Parented cores) (hsame : SameIdentity (cores k) c) :
    Parented (Function.update cores k c) := by
  refine h.congr fun i => ?_
  by_cases hik : i = k
  · subst hik
    rw [update_self]
    exact hsame
  · rw [update_of_ne hik]
    exact .refl _

theorem Parented.create (h : Parented cores) {current : Fin maxProcesses}
    (hk : (cores k).active = false) (hcurrent : (cores current).active = true)
    (hc : c.parent = (cores current).pid) : Parented (Function.update cores k c) := by
  -- Whoever was there is not in the new slot.
  have hkeep : ∀ j, (cores j).active = true → Function.update cores k c j = cores j := fun j hj =>
    Function.update_of_ne (fun he => by simp [he, hk] at hj) _ _
  intro i hi hparent
  by_cases hik : i = k
  · subst hik
    rw [Function.update_self, hc]
    exact ⟨current, by rw [hkeep current hcurrent]; exact hcurrent, by rw [hkeep current hcurrent]⟩
  · rw [Function.update_of_ne hik] at hi hparent ⊢
    obtain ⟨j, hj, hpid⟩ := h i hi hparent
    exact ⟨j, by rw [hkeep j hj]; exact hj, by rw [hkeep j hj]; exact hpid⟩

theorem Parented.remove (h : Parented cores) (hc : c.active = false)
    (halone : ∀ i, (cores i).active = true → (cores i).parent ≠ (cores k).pid) :
    Parented (Function.update cores k c) := by
  intro i hi hparent
  have hik : i ≠ k := fun he => by
    rw [he, update_self, hc] at hi
    exact absurd hi (by simp)
  rw [update_of_ne hik] at hi hparent ⊢
  obtain ⟨j, hj, hpid⟩ := h i hi hparent
  have hjk : j ≠ k := fun he => halone i hi (by rw [← hpid, he])
  exact ⟨j, by rw [update_of_ne hjk]; exact hj, by rw [update_of_ne hjk]; exact hpid⟩

/-- An act keeps the parents, when nobody that has ended is one. -/
theorem Act.parented (h : Act pbkdf2 e s s') (hs : Sound s) (hrun : s.halted = false)
    (halone : NoOrphans s) (hparented : Parented s.cores) : Parented s'.cores := by
  have hcreate : ∀ (slot : Fin maxProcesses) (p : Process) (t : DescriptorTable) (pipes : Pipes),
      s.freeSlot = some slot → p.core.parent = s.self.pid →
      Parented (s.create slot p t pipes).cores := fun slot p t pipes hslot hp => by
    have hcores : (s.create slot p t pipes).cores = Function.update s.cores slot p.core :=
      core_update _ _ _
    rw [hcores]
    exact hparented.create (freeSlot_inactive hslot) (hs.runs hrun).1 hp
  have hself : ∀ p : Process, SameIdentity s.self.core p.core → Parented (s.setSelf p).cores :=
    fun p hp => by
      rw [cores_setSelf]
      exact hparented.update hp
  cases h with
  | kept h _ | opened _ h _ =>
    rw [h.cores]
    exact hparented
  | spawned hslot hp | forked hslot hp => exact hcreate _ _ _ _ hslot (congrArg Core.parent hp)
  | replaced hp =>
    refine hself _ ?_
    rw [hp]
    exact ⟨rfl, (hs.runs hrun).1.symm, rfl, rfl, rfl⟩
  | elevated | identified => exact hself _ ⟨rfl, rfl, rfl, rfl, rfl⟩
  | @collected _ _ _ _ _ _ child slot hchild hzombie hslot hpid =>
    have hcores : (s.collect child slot).cores = Function.update s.cores slot Process.empty.core :=
      core_update _ _ _
    have hself := hs.slot_eq hchild hslot hpid
    subst hself
    rw [hcores]
    exact hparented.remove rfl (halone slot hslot hzombie).2
  | blocked _ _ _ h _ =>
    rw [h.cores]
    exact hself _ ⟨rfl, rfl, rfl, rfl, rfl⟩

theorem Settle.parented (h : Settle s s') (hs : Parented s.cores) : Parented s'.cores := by
  rcases h with h | h
  · rw [h.cores]
    exact hs
  · rw [h.cores]
    exact hs.congr (sameIdentity_finish s)

theorem Run.parented (h : Run pbkdf2 (EndsAlone pbkdf2) s) : Parented s.cores ∧ NoOrphans s := by
  induction h with
  | boot =>
    refine ⟨fun i _ hparent => ?_, fun i _ hzombie => ?_⟩
    · refine absurd ?_ hparent
      by_cases hi : i = 0 <;>
        simp [System.cores, System.boot, hi, Process.core, loadElf, Process.empty]
    · by_cases hi : i = 0 <;> simp [System.boot, hi, loadElf, Process.empty] at hzombie
  | @step s h e hrun halone ih =>
    obtain ⟨s₁, hact, hsettles⟩ : Does pbkdf2 e s (Exec.step pbkdf2 e s) := step_spec e s
    have hparented := hact.parented h.sound hrun ih.2 ih.1
    exact ⟨hsettles.1.induction (fun t t' h => h.parented) hparented, halone⟩

/-- The parent of a zombie collects it with `waitpid`. -/
theorem Sound.collectedBy (hs : Sound s) {i j : Fin maxProcesses}
    (hi : (s.processes i).active = true) (hzombie : (s.processes i).zombie = true)
    (hj : (s.processes j).active = true) (hended : (s.processes j).zombie = false)
    (hparent : (s.processes j).pid = (s.processes i).parent) : CollectedBy s i j := by
  refine ⟨hj, hended, fun writable options => ?_⟩
  have hpos : 0 < (s.processes i).pid := (Nat.zero_le _).trans_lt (hs.identity.parent i hi)
  -- The zombie is the only process that answers.
  have honly : ∀ k, (s.processes k).answers (s.processes j).pid (s.processes i).pid = true →
      k = i := fun k hk => by
    simp only [Process.answers, Bool.and_eq_true, Bool.or_eq_true, beq_iff_eq, decide_eq_true_eq,
      Int.toNat_natCast] at hk
    exact hs.identity.pid k i hk.1.1 hi (hk.2.resolve_left (by omega))
  have hanswers : (s.processes i).answers (s.processes j).pid (s.processes i).pid = true := by
    simp [Process.answers, hi, hparent]
  rw [waitpidCurrent]
  rcases reapChild_spec ({ s with current := j } : System).self.pid (s.processes i).pid 0 writable
      { s with current := j } with
    ⟨-, hnone | hnone⟩ | ⟨child, slot, foundAny, heq, hchild, -, hslot, hpid⟩
  · exact absurd (hzombie.symm.trans (hnone i hanswers)) (by simp)
  · exact absurd rfl hnone.1
  · have hchildI := honly child hchild
    subst hchildI
    have hslotI : slot = child := hs.identity.pid slot child hslot hi hpid
    subst hslotI
    rw [heq]

theorem Run.alone (h : Run pbkdf2 (EndsAlone pbkdf2) s) (c : Call) (hrun : s.halted = false)
    (hidle : nextPendingSignal (dispatch pbkdf2 c s).self.pendingSignals = none)
    (halone : NoOrphans (dispatch pbkdf2 c s)) :
    Run pbkdf2 (EndsAlone pbkdf2) (dispatch pbkdf2 c s) := by
  have hstep := h.step (.call c true) hrun (by rwa [EndsAlone, step_call_idle hidle])
  rwa [step_call_idle hidle] at hstep

end Zombies

end ImagineOS.Exec
