import ImagineOS.Exec.Identity

/-!
# Processes: waiting

A process that waits for a child is blocked until the child ends. It is woken by the pid that it
waits for, and it looks for a child that has ended before it blocks. Two calls go wrong: one that
waits for any child, which no pid wakes, and one whose status cannot be written, which does not
collect the child that has ended and then waits for it (`wait_forever`).
-/

namespace ImagineOS.Exec

open Function

/-- Who is blocked waits for a child that has not ended. -/
def Awaited (cores : Fin maxProcesses → Core) : Prop :=
  ∀ i, (cores i).active = true → (cores i).waitingFor ≠ 0 →
    ∃ j, (cores j).active = true ∧ (cores j).zombie = false ∧ (cores j).parent = (cores i).pid ∧
      (cores j).pid = (cores i).waitingFor

/-- Who is blocked waits for one process, its child, which has not ended; and when it ends, its
parent is not blocked any more. -/
def Woken (s : System) : Prop :=
  ∀ i, (s.processes i).active = true → (s.processes i).waitingFor ≠ 0 →
    ∃ j, (s.processes j).active = true ∧ (s.processes j).zombie = false ∧
      (s.processes j).parent = (s.processes i).pid ∧
      (s.processes j).pid = (s.processes i).waitingFor ∧
      (∀ k, (s.processes k).active = true → (s.processes k).pid = (s.processes i).waitingFor →
        k = j) ∧
      (({ s with current := j } : System).finish.processes i).waitingFor = 0

/-- A call that may block waits for one child, or need not wait; and if the child has ended, its
status can be written. -/
def WaitsWell (e : Event) (s : System) : Prop :=
  ∀ wanted statusPointer writable options w,
    e = .call (.waitpid wanted statusPointer writable options) w → wnohang options = false →
    (wanted ≤ 0 → (∀ i, (s.processes i).answers s.self.pid wanted = false) ∨
      ((∃ i, (s.processes i).answers s.self.pid wanted = true ∧ (s.processes i).zombie = true) ∧
        (statusPointer = 0 ∨ writable = true))) ∧
    (0 < wanted → (∀ i, (s.processes i).answers s.self.pid wanted = true →
      (s.processes i).zombie = false) ∨ statusPointer = 0 ∨ writable = true)

section Waiting

variable {pbkdf2 : List UInt8 → List UInt8 → ℕ → Option (List UInt8)} {e : Event} {s s' : System}
  {cores : Fin maxProcesses → Core} {c : Core} {k : Fin maxProcesses}

theorem Awaited.update (h : Awaited cores) (hc : c.active = true → c.waitingFor = 0)
    (hk : (cores k).active = true → (cores k).zombie = false →
      c.active = true ∧ c.zombie = false ∧ c.parent = (cores k).parent ∧ c.pid = (cores k).pid) :
    Awaited (Function.update cores k c) := by
  intro i hi hwaiting
  have hik : i ≠ k := fun he => by
    rw [he, update_self] at hi hwaiting
    exact hwaiting (hc hi)
  rw [update_of_ne hik] at hi hwaiting ⊢
  obtain ⟨j, hj, hzombie, hparent, hpid⟩ := h i hi hwaiting
  refine ⟨j, ?_⟩
  by_cases hjk : j = k
  · subst hjk
    obtain ⟨h₁, h₂, h₃, h₄⟩ := hk hj hzombie
    rw [update_self]
    exact ⟨h₁, h₂, h₃.trans hparent, h₄.trans hpid⟩
  · rw [update_of_ne hjk]
    exact ⟨hj, hzombie, hparent, hpid⟩

theorem Awaited.block (h : Awaited cores) {i j : Fin maxProcesses} {n : ℕ}
    (hj : (cores j).active = true) (hzombie : (cores j).zombie = false)
    (hparent : (cores j).parent = (cores i).pid) (hpid : (cores j).pid = n) :
    Awaited (Function.update cores i { cores i with waitingFor := n }) := by
  -- Only what is waited for differs.
  have hsame : ∀ k, ∃ m, Function.update cores i { cores i with waitingFor := n } k =
      { cores k with waitingFor := m } := fun k => by
    by_cases hki : k = i
    · subst hki
      exact ⟨n, Function.update_self _ _ _⟩
    · exact ⟨_, Function.update_of_ne hki _ _⟩
  intro k hk hwaiting
  by_cases hki : k = i
  · subst hki
    refine ⟨j, ?_⟩
    obtain ⟨m, hm⟩ := hsame j
    rw [hm, Function.update_self]
    exact ⟨hj, hzombie, hparent, hpid⟩
  · rw [Function.update_of_ne hki] at hk hwaiting ⊢
    obtain ⟨l, hl⟩ := h k hk hwaiting
    refine ⟨l, ?_⟩
    obtain ⟨m, hm⟩ := hsame l
    rw [hm]
    exact hl

theorem Settle.awaited (h : Settle s s') (hs : Awaited s.cores) : Awaited s'.cores := by
  rcases h with h | h
  · rw [h.cores]
    exact hs
  rw [h.cores]
  intro i hi hwaiting
  simp only [cores_finish] at hi hwaiting ⊢
  split at hwaiting
  · exact absurd rfl hwaiting
  rename_i hi'
  obtain ⟨-, hpid⟩ := not_or.mp hi'
  obtain ⟨j, hj, hzombie, hparent, hjpid⟩ := hs i hi hwaiting
  have hne : j ≠ s.current := fun he => by
    subst he
    exact hpid hjpid.symm
  rw [if_neg hi']
  exact ⟨j, hj, by simp [hne, hzombie], hparent, hjpid⟩

/-- One act preserves that who is blocked waits for a child that has not ended. -/
theorem Act.awaited (h : Act pbkdf2 e s s') (hs : Sound s) (hrun : s.halted = false)
    (he : WaitsWell e s) (hawaited : Awaited s.cores) : Awaited s'.cores := by
  obtain ⟨hactive, hzombie, hwaiting⟩ := hs.runs hrun
  have hcreate : ∀ (slot : Fin maxProcesses) (p : Process) (t : DescriptorTable) (pipes : Pipes),
      s.freeSlot = some slot → p.core.waitingFor = 0 → Awaited (s.create slot p t pipes).cores :=
    fun slot p t pipes hslot hp => by
      have hcores : (s.create slot p t pipes).cores = Function.update s.cores slot p.core :=
        core_update _ _ _
      rw [hcores]
      exact hawaited.update (fun _ => hp) fun h =>
        absurd (h.symm.trans (freeSlot_inactive hslot)) (by simp)
  cases h with
  | kept h _ =>
    rw [h.cores]
    exact hawaited
  | opened _ h _ =>
    rw [h.cores]
    exact hawaited
  | spawned hslot hp => exact hcreate _ _ _ _ hslot (congrArg Core.waitingFor hp)
  | forked hslot hp => exact hcreate _ _ _ _ hslot (congrArg Core.waitingFor hp)
  | replaced hp =>
    rw [cores_setSelf, hp]
    exact hawaited.update (fun _ => rfl) fun _ _ => ⟨rfl, rfl, rfl, rfl⟩
  | elevated =>
    rw [cores_setSelf]
    exact hawaited.update (fun _ => hwaiting) fun h h' => ⟨h, h', rfl, rfl⟩
  | identified =>
    rw [cores_setSelf]
    exact hawaited.update (fun _ => hwaiting) fun h h' => ⟨h, h', rfl, rfl⟩
  | @collected _ _ _ _ _ _ child slot hchild hchildZombie hslot hpid =>
    have hcores : (s.collect child slot).cores = Function.update s.cores slot Process.empty.core :=
      core_update _ _ _
    rw [hcores]
    -- The process that is collected had ended, and nobody was blocked for it.
    refine hawaited.update (fun h => absurd h (by simp [Process.empty, Process.core]))
      fun _ hended => ?_
    rw [hs.slot_eq hchild hslot hpid] at hended
    exact absurd (hended.symm.trans hchildZombie) (by simp)
  | @blocked wanted statusPointer writable options w _ _ child hoptions hchild hnone h _ =>
    rw [h.cores, cores_setSelf]
    obtain ⟨hany, hone⟩ := he wanted statusPointer writable options w rfl hoptions
    have hrefused : ¬ (statusPointer = 0 ∨ writable = true) → statusPointer ≠ 0 ∧
      writable = false :=
      fun h => by simpa using h
    have hpositive : 0 < wanted := by
      by_contra hle
      rcases hany (not_lt.mp hle) with hno | ⟨⟨i, hi, hended⟩, hwritten⟩
      · exact absurd ((hno child).symm.trans hchild) (by simp)
      · rcases hnone with hnone | ⟨hpointer, hwritable⟩
        · exact absurd ((hnone i hi).symm.trans hended) (by simp)
        · rcases hwritten with h | h
          · exact hpointer h
          · exact absurd (hwritable.symm.trans h) (by simp)
    have hrunning : (s.processes child).zombie = false := by
      rcases hnone with hnone | ⟨hpointer, hwritable⟩
      · exact hnone child hchild
      · rcases hone hpositive with h | h | h
        · exact h child hchild
        · exact absurd h hpointer
        · exact absurd (hwritable.symm.trans h) (by simp)
    rw [if_pos hpositive]
    simp only [Process.answers, Bool.and_eq_true, Bool.or_eq_true, beq_iff_eq, decide_eq_true_eq,
      not_le.mpr hpositive, false_or] at hchild
    exact hawaited.block hchild.1.1 hrunning hchild.1.2 hchild.2

/-- **Nobody waits forever.** In a run whose waiting calls wait for one child, or need not wait, and
can write the status of a child that has ended, every process that is blocked will be woken. -/
theorem waiting_woken (h : Run pbkdf2 WaitsWell s) : Woken s := by
  have hawaited : Awaited s.cores := h.invariant (I := fun t => Awaited t.cores)
    (fun i _ hwaiting => by
      refine absurd ?_ hwaiting
      by_cases hi : i = 0 <;>
        simp [System.cores, System.boot, hi, Process.core, loadElf, Process.empty])
    (fun e s s' hs hrun he hact hi => hact.awaited hs hrun he hi) fun _ _ h hi => h.awaited hi
  intro i hi hwaiting
  obtain ⟨j, hj, hzombie, hparent, hpid⟩ := hawaited i hi hwaiting
  refine ⟨j, hj, hzombie, hparent, hpid, fun k hk hkpid => ?_, ?_⟩
  · exact h.sound.identity.pid k j hk hj (hkpid.trans hpid.symm)
  · have hfinish := congrArg Core.waitingFor (cores_finish { s with current := j } i)
    have hself : (s.cores i).waitingFor = ({ s with current := j } : System).self.pid := hpid.symm
    exact hfinish.trans (if_pos (Or.inr hself))

/-- The first process waits for its child. -/
theorem waiting_woken_sample :
    ∃ s, Run (fun _ _ _ => none) WaitsWell s ∧ (s.processes 0).waitingFor = 2 ∧ Woken s := by
  have hfork : Run (fun _ _ _ => none) WaitsWell (dispatchAll (fun _ _ _ => none)
      [.fork true] .boot) :=
    Run.boot.dispatchAll (fun c hc s wanted statusPointer writable options w h => by
      rw [List.mem_singleton.mp hc] at h
      exact absurd h (by simp)) (by decide)
  have hwait := Run.step hfork (.call (.waitpid 2 0 true 0) true) (by decide)
    fun wanted statusPointer writable options w h _ => by
      obtain ⟨⟨rfl, rfl, rfl, rfl⟩, rfl⟩ : (2 = wanted ∧ 0 = statusPointer ∧ true = writable ∧
          0 = options) ∧ true = w := by simpa using h
      exact ⟨fun h => absurd h (by decide), fun _ => Or.inr (Or.inl rfl)⟩
  rw [step_call_idle (by decide)] at hwait
  exact ⟨_, hwait, by decide, waiting_woken hwait⟩

/-- The first process waits for any child, and its only one ends. -/
theorem wait_forever :
    ∃ s, Run (fun _ _ _ => none) (fun _ _ => True) s ∧ (s.processes 0).active = true ∧
      (s.processes 0).waitingFor ≠ 0 ∧
      (∃ j, (s.processes j).active = true ∧ (s.processes j).parent = (s.processes 0).pid) ∧
      ∀ j, (s.processes j).active = true → (s.processes j).parent = (s.processes 0).pid →
        (s.processes j).zombie = true := by
  have hrun : Run (fun _ _ _ => none) (fun _ _ => True) (dispatchAll (fun _ _ _ => none)
      [.fork true, .waitpid (-1) 0 true 0, .exit 0] .boot) :=
    Run.boot.dispatchAll (fun _ _ _ => trivial) (by decide)
  exact ⟨_, hrun, by decide, by decide, ⟨1, by decide, by decide⟩, by decide⟩

end Waiting

end ImagineOS.Exec
