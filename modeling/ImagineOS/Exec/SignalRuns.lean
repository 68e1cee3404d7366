import ImagineOS.Exec.Signals

/-!
# Processes: runs with signals

A run carries along which signals were sent to each process. An expectation of a process, given what
was sent to it, holds in every run if new processes meet it, and if sending, `execve` and the way
out preserve it.
-/

namespace ImagineOS.Exec

/-- The signals that were sent to the processes, by the numbers of their creation, the last one
first, after another event. -/
def record (e : Event) (s : System) (sent : ℕ → List (Fin 32)) : ℕ → List (Fin 32) :=
  match sentTo e s with
  | none => sent
  | some (i, x) =>
    Function.update sent (s.processes i).history.birth (x :: sent (s.processes i).history.birth)

/-- Runs, with the signals that were sent. -/
inductive SignalRun (pbkdf2 : List UInt8 → List UInt8 → ℕ → Option (List UInt8))
    (allowed : Event → System → Prop) : System → (ℕ → List (Fin 32)) → Prop
  | boot : SignalRun pbkdf2 allowed .boot fun _ => []
  | step {s : System} {sent : ℕ → List (Fin 32)} (h : SignalRun pbkdf2 allowed s sent) (e : Event)
      (hrun : s.halted = false) (ha : allowed e s) :
      SignalRun pbkdf2 allowed (step pbkdf2 e s) (record e s sent)

section Runs

variable {pbkdf2 : List UInt8 → List UInt8 → ℕ → Option (List UInt8)} {e : Event} {s s' : System}
  {i : Fin maxProcesses} {sent : ℕ → List (Fin 32)} {allowed : Event → System → Prop}

/-! ### Who runs is not stopped -/

/-- The process that runs is not stopped. -/
def Unstopped (s : System) : Prop := s.halted = false → s.self.stopped = false

theorem schedule_unstopped (exiting : Bool) (s : System) : Unstopped (schedule exiting s) := by
  unfold schedule
  dsimp only
  generalize (if exiting then s.finish else s) = s'
  split
  · rename_i next hnext
    have heligible := List.find?_some hnext
    simp only [Process.eligible, Bool.and_eq_true, Bool.not_eq_true', beq_iff_eq] at heligible
    exact fun _ => heligible.1.1.2
  · exact fun h => absurd h (by simp)

theorem unstopped_setSelf {p : Process} (h : p.stopped = false) : Unstopped (s.setSelf p) :=
  fun _ => by rw [System.self_setSelf]; exact h

theorem unstopped_update {p : Process} {slot : Fin maxProcesses} (h : s.self.stopped = false)
    (hp : p.stopped = false) (hcurrent : s'.current = s.current)
    (hprocesses : s'.processes = Function.update s.processes slot p) : Unstopped s' := by
  intro _
  rw [System.self, hcurrent, hprocesses]
  by_cases hslot : s.current = slot
  · rw [hslot, Function.update_self]
    exact hp
  · rw [Function.update_of_ne hslot]
    exact h

theorem dispatch_unstopped (c : Call) (h : s.self.stopped = false) :
    Unstopped (dispatch pbkdf2 c s) := by
  have hdispatched : Dispatched pbkdf2 s c (dispatch pbkdf2 c s) := dispatched c s
  generalize dispatch pbkdf2 c s = s' at hdispatched
  cases hdispatched with
  | nothing => exact fun _ => h
  | descriptors _ honly =>
    obtain ⟨t, p, rfl⟩ := honly
    exact fun _ => h
  | yields | exits | spawned | blocked => exact schedule_unstopped _ _
  | elevated | identified | handles | returns => exact unstopped_setSelf h
  | replaced => exact unstopped_setSelf rfl
  | @sent _ _ x i =>
    intro _
    by_cases hi : s.current = i
    · subst hi
      have hstopped : (s.processes s.current).stopped = false := h
      simp [System.self, System.send, hstopped]
    · simpa [System.self, System.send, Function.update_of_ne hi] using h
  | forked | collected => exact unstopped_update h rfl rfl rfl

theorem deliverPendingSignal_unstopped (writable : Bool) (s : System)
    (h : s.self.stopped = false) : Unstopped (deliverPendingSignal writable s) := by
  have hdelivery : Delivery s (deliverPendingSignal writable s) := delivery writable s
  generalize deliverPendingSignal writable s = s' at hdelivery
  induction hdelivery with
  | done => exact fun _ => h
  | drops _ _ _ _ ih => exact ih (by rw [System.self_setSelf]; exact h)
  | ends | stops => exact schedule_unstopped _ _
  | enters => exact unstopped_setSelf h

theorem step_unstopped (e : Event) (hrun : s.halted = false) (h : Unstopped s) :
    Unstopped (step pbkdf2 e s) := by
  cases e with
  | call c w =>
    have hdispatch : Unstopped (dispatch pbkdf2 c s) := dispatch_unstopped c (h hrun)
    rw [step]
    split
    · exact hdispatch
    · rename_i hhalted
      exact deliverPendingSignal_unstopped w _ (hdispatch (by simpa using hhalted))
  | tick user =>
    simp only [step, timerTick]
    split
    · exact h
    split
    · exact unstopped_setSelf (h hrun)
    · exact schedule_unstopped false _
  | fault => exact schedule_unstopped true s

/-! ### Expectations -/

/-- What holds of a process that has not ended and of the signals that were sent to it. -/
abbrev Expectation := List (Fin 32) → Signals → Prop

/-- An expectation holds of every process. -/
def Expectation.Holds (J : Expectation) (s : System) (sent : ℕ → List (Fin 32)) : Prop :=
  ∀ i, (s.processes i).signals.Live →
    J (sent (s.processes i).history.birth) (s.processes i).signals

/-- New processes meet the expectation, and sending, replacing an image and the way out preserve it,
when events are allowed ones. -/
structure Expectation.Preserved (J : Expectation) (allowed : Event → System → Prop) : Prop where
  created : ∀ b, J [] ⟨b, true, false, false, 0⟩
  sent : ∀ e s i x l, allowed e s → sentTo e s = some (i, x) → (s.processes i).signals.Live →
    J l (s.processes i).signals → J (x :: l) ((s.processes i).signals.send x)
  replaced : ∀ path w s l, allowed (.call (.execve path .loaded) w) s →
    s.self.signals.stopped = false → J l s.self.signals →
    J l ⟨s.self.history.birth, true, false, false, 0⟩
  delivered : ∀ l g g', Delivered g g' → g.Live → g'.Live → J l g → J l g'

/-- Nothing was sent to the processes that are not created yet. -/
def Fresh (s : System) (sent : ℕ → List (Fin 32)) : Prop := ∀ b, s.births ≤ b → sent b = []

/-- What is carried along a run. -/
structure Tracked (J : Expectation) (s : System) (sent : ℕ → List (Fin 32)) : Prop where
  sound : Sound s
  unstopped : Unstopped s
  fresh : Fresh s sent
  holds : J.Holds s sent

variable {J : Expectation}

theorem Act.births_le (h : Act pbkdf2 e s s') : s.births ≤ s'.births := by
  cases h with
  | kept h _ | opened _ h _ => exact h.births.ge
  | spawned | forked => exact Nat.le_succ _
  | replaced | elevated | identified | collected => exact le_rfl
  | blocked _ _ _ h _ => exact h.births.ge

theorem Settles.births (h : Settles s s') : s'.births = s.births :=
  h.induction (I := fun t => t.births = s.births) (fun t t' h ht => by
    rcases h with h | h
    · exact h.births.trans ht
    · exact h.births.trans ht) rfl

theorem Fresh.record (h : Fresh s sent) (hs : Sound s) (e : Event) (hle : s.births ≤ s'.births) :
    Fresh s' (record e s sent) := by
  intro b hb
  rw [Exec.record]
  rcases hsent : sentTo e s with _ | ⟨i, x⟩
  · exact h b (hle.trans hb)
  · have hlt := hs.identity.birth_lt i (active_of_sentTo hsent)
    have hne : b ≠ (s.processes i).history.birth := fun he => by
      subst he
      exact absurd (hlt.trans_le (hle.trans hb)) (lt_irrefl _)
    exact (Function.update_of_ne hne _ _).trans (h b (hle.trans hb))

theorem record_of_ne (hs : Sound s) (hi : (s.processes i).active = true)
    (h : ∀ x, sentTo e s ≠ some (i, x)) :
    record e s sent (s.processes i).history.birth = sent (s.processes i).history.birth := by
  rw [record]
  rcases hsent : sentTo e s with _ | ⟨j, x⟩
  · rfl
  · refine Function.update_of_ne (fun he => h x ?_) _ _
    rw [hs.identity.birth i j hi (active_of_sentTo hsent) he]
    exact hsent

/-- A call preserves the expectation, up to the way out. -/
theorem Tracked.dispatch (h : Tracked J s sent) (hJ : J.Preserved allowed) (hrun : s.halted = false)
    (c : Call) (w : Bool) (ha : allowed (.call c w) s) :
    Tracked J (dispatch pbkdf2 c s) (record (.call c w) s sent) := by
  obtain ⟨s₁, hact, hsettles⟩ : Does pbkdf2 (.call c w) s (Exec.dispatch pbkdf2 c s) :=
    dispatch_spec c w s
  refine ⟨hsettles.sound (hact.sound hrun h.sound), dispatch_unstopped c (h.unstopped hrun),
    h.fresh.record h.sound _ (hact.births_le.trans hsettles.1.births.ge), fun i hlive => ?_⟩
  have hsignalled : Signalled (.call c w) s i ((Exec.dispatch pbkdf2 c s).processes i).signals :=
    dispatch_signalled c w s i
  have hbirth : ((Exec.dispatch pbkdf2 c s).processes i).history.birth =
      ((Exec.dispatch pbkdf2 c s).processes i).signals.birth := rfl
  rw [hbirth]
  generalize ((Exec.dispatch pbkdf2 c s).processes i).signals = g at hsignalled hlive ⊢
  cases hsignalled with
  | same hnone =>
    have hrecord : record (.call c w) s sent (s.processes i).history.birth = _ :=
      record_of_ne h.sound hlive.1 hnone
    exact hrecord ▸ h.holds i hlive
  | ended => exact absurd hlive.2 (by simp [Signals.ended])
  | @sent x hsent =>
    have hbefore : (s.processes i).signals.Live := hlive
    have hrecord : record (.call c w) s sent (s.processes i).history.birth =
        x :: sent (s.processes i).history.birth := by
      rw [record, hsent]
      exact Function.update_self _ _ _
    exact hrecord ▸ hJ.sent _ _ _ _ _ ha hsent hbefore (h.holds i hbefore)
  | @replaced path w he hi =>
    obtain ⟨rfl, rfl⟩ := Event.call.inj he
    subst hi
    obtain ⟨hactive, hzombie, -⟩ := h.sound.runs hrun
    exact hJ.replaced path w s _ ha (h.unstopped hrun) (h.holds s.current ⟨hactive, hzombie⟩)
  | created hnone =>
    have hrecord : record (.call c w) s sent s.births = [] := by
      rw [record, hnone]
      exact h.fresh _ le_rfl
    exact hrecord ▸ hJ.created s.births
  | gone hg => exact absurd hlive.1 (by simp [hg])

theorem Expectation.Holds.of_signals (h : J.Holds s sent)
    (hsame : ∀ i, (s'.processes i).signals = (s.processes i).signals ∨
      (s'.processes i).signals = (s.processes i).signals.ended) : J.Holds s' sent := by
  intro i hlive
  rcases hsame i with hi | hi
  · have hbirth : (s'.processes i).history.birth = (s.processes i).history.birth :=
      congrArg Signals.birth hi
    rw [hi] at hlive ⊢
    rw [hbirth]
    exact h i hlive
  · rw [hi] at hlive
    exact absurd hlive.2 (by simp [Signals.ended])

theorem Tracked.delivered (h : Tracked J s sent) (hJ : J.Preserved allowed)
    (hrun : s.halted = false) (w : Bool) : J.Holds (deliverPendingSignal w s) sent := by
  obtain ⟨hactive, hzombie, -⟩ := h.sound.runs hrun
  intro i hlive
  by_cases hi : i = s.current
  · subst hi
    have hd := deliverPendingSignal_self w s hactive
    have hbirth : ((deliverPendingSignal w s).processes s.current).history.birth =
        (s.processes s.current).history.birth := hd.birth
    rw [hbirth]
    exact hJ.delivered _ _ _ hd ⟨hactive, hzombie⟩ hlive (h.holds s.current ⟨hactive, hzombie⟩)
  · have hsame := deliverPendingSignal_other w s hi
    have hbirth : ((deliverPendingSignal w s).processes i).history.birth =
        (s.processes i).history.birth := congrArg Signals.birth hsame
    rw [hbirth]
    rw [hsame] at hlive ⊢
    exact h.holds i hlive

/-- An event preserves the expectation. -/
theorem Tracked.step (h : Tracked J s sent) (hJ : J.Preserved allowed) (hrun : s.halted = false)
    (e : Event) (ha : allowed e s) : Tracked J (Exec.step pbkdf2 e s) (record e s sent) := by
  obtain ⟨s₁, hact, hsettles⟩ : Does pbkdf2 e s (Exec.step pbkdf2 e s) := step_spec e s
  refine ⟨hsettles.sound (hact.sound hrun h.sound), step_unstopped e hrun h.unstopped,
    h.fresh.record h.sound _ (hact.births_le.trans hsettles.1.births.ge), ?_⟩
  cases e with
  | call c w =>
    have hdispatch : Tracked J (Exec.dispatch pbkdf2 c s) (record (.call c w) s sent) :=
      h.dispatch hJ hrun c w ha
    rw [Exec.step]
    split
    · exact hdispatch.holds
    · rename_i hhalted
      exact hdispatch.delivered hJ (by simpa using hhalted) w
  | tick user =>
    refine h.holds.of_signals fun i => Or.inl ?_
    have hquantum : ∀ q, ((s.setSelf { s.self with quantum := q }).processes i).signals =
        (s.processes i).signals := fun q =>
      signals_setSelf_same (p := { s.self with quantum := q }) rfl i
    simp only [Exec.step, timerTick]
    split
    · rfl
    split
    · exact hquantum _
    · rw [signals_schedule_false]
      exact hquantum _
  | fault =>
    refine h.holds.of_signals fun i => ?_
    rw [Exec.step, signals_schedule]
    split
    · rename_i hi
      rw [hi.2]
      exact Or.inr rfl
    · exact Or.inl rfl

/-- **What calls, sending and the way out preserve holds in every run.** -/
theorem SignalRun.tracked (h : SignalRun pbkdf2 allowed s sent) (hJ : J.Preserved allowed) :
    Tracked J s sent := by
  induction h with
  | boot =>
    refine ⟨boot_sound, fun _ => rfl, fun _ _ => rfl, fun i hlive => ?_⟩
    by_cases hi : i = 0
    · subst hi
      exact hJ.created 0
    · exact absurd hlive.1 (by simp [System.boot, hi, Process.empty, Process.signals])
  | step h e hrun ha ih => exact ih.step hJ hrun e ha

end Runs

end ImagineOS.Exec
