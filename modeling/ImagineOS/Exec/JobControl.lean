import ImagineOS.Exec.SignalRuns

/-!
# Processes: kill, stop and continue

`SIGKILL` ends a process on its next way out of a system call, whatever else is pending, unless
`execve` has dropped it before: the new image starts without pending signals (`kill_dropped`).
-/

namespace ImagineOS.Exec

/-- A process for which `SIGKILL` is pending does not replace its image. -/
def KeepsKill (e : Event) (s : System) : Prop :=
  ∀ path w, e = .call (.execve path .loaded) w → ¬ s.self.signals.Pends signalKill

/-- `SIGCONT` is sent to no process for which `SIGSTOP` is pending, and no such process replaces its
image. -/
def OrdersJobs (e : Event) (s : System) : Prop :=
  (∀ i, sentTo e s = some (i, signalCont) → ¬ (s.processes i).signals.Pends signalStop) ∧
    ∀ path w, e = .call (.execve path .loaded) w → ¬ s.self.signals.Pends signalStop

/-- The last of the signals that stop a process or let it run, of those that were sent. -/
def lastJob (l : List (Fin 32)) : Option (Fin 32) :=
  l.find? fun x => x == signalStop || x == signalCont || x == signalKill

/-- A process that was killed has the signal pending. -/
def KillExpected : Expectation := fun l g => signalKill ∈ l → g.Pends signalKill

/-- A process that was continued last is not stopped and will not be, and one that was stopped last
is stopped, or will be. -/
def JobExpected : Expectation := fun l g =>
  (lastJob l = some signalCont → g.stopped = false ∧ ¬ g.Pends signalStop) ∧
    (lastJob l = some signalStop → g.stopped = true ∨ g.Pends signalStop)

section Jobs

variable {pbkdf2 : List UInt8 → List UInt8 → ℕ → Option (List UInt8)} {s : System}
  {sent : ℕ → List (Fin 32)} {allowed : Event → System → Prop}

theorem not_pends_zero (b : ℕ) (x : Fin 32) : ¬ (⟨b, true, false, false, 0⟩ : Signals).Pends x := by
  rw [Signals.pends_iff]
  simp

theorem killExpected_preserved : KillExpected.Preserved KeepsKill where
  created _ h := absurd h List.not_mem_nil
  sent e s i x l _ _ _ h hmem := by
    rw [Signals.pends_send]
    rcases List.mem_cons.mp hmem with hx | hl
    · exact Or.inr hx
    · exact Or.inl (h hl)
  replaced path w s l ha _ h hmem := absurd (h hmem) (ha path w rfl)
  delivered l g g' hd _ hlive h hmem := absurd (hd.kill (h hmem)) (by simp [hlive.2])

/-- **`SIGKILL` is never lost.** In a run in which no process for which `SIGKILL` is pending
replaces its image: once the signal was sent with success, it stays pending until the process ends,
and on the next way of the process out of a system call it ends. -/
theorem kill_honoured (h : SignalRun pbkdf2 KeepsKill s sent) :
    (∀ i, (s.processes i).signals.Live → signalKill ∈ sent (s.processes i).history.birth →
      (s.processes i).signals.Pends signalKill) ∧
    ∀ c w, s.halted = false → KeepsKill (.call c w) s → (dispatch pbkdf2 c s).halted = false →
      signalKill ∈ record (.call c w) s sent (dispatch pbkdf2 c s).self.history.birth →
      ((step pbkdf2 (.call c w) s).processes (dispatch pbkdf2 c s).current).zombie = true ∧
        ((step pbkdf2 (.call c w) s).processes (dispatch pbkdf2 c s).current).history.birth =
          (dispatch pbkdf2 c s).self.history.birth := by
  have htracked := h.tracked killExpected_preserved
  refine ⟨htracked.holds, fun c w hrun ha hnot hsent => ?_⟩
  have hdispatch : Tracked KillExpected (dispatch pbkdf2 c s) (record (.call c w) s sent) :=
    htracked.dispatch killExpected_preserved hrun c w ha
  obtain ⟨hactive, hzombie, -⟩ := hdispatch.sound.runs hnot
  have hd := deliverPendingSignal_self w (dispatch pbkdf2 c s) hactive
  rw [step, if_neg (by simp [hnot])]
  exact ⟨hd.kill (hdispatch.holds _ ⟨hactive, hzombie⟩ hsent), hd.birth⟩

theorem SignalRun.idle (h : SignalRun pbkdf2 allowed s sent) (c : Call) (hrun : s.halted = false)
    (ha : allowed (.call c true) s)
    (hidle : nextPendingSignal (dispatch pbkdf2 c s).self.pendingSignals = none) :
    SignalRun pbkdf2 allowed (dispatch pbkdf2 c s) (record (.call c true) s sent) := by
  have hstep := h.step (.call c true) hrun ha
  rwa [step_call_idle hidle] at hstep

theorem SignalRun.ticks (h : SignalRun pbkdf2 (fun _ _ => True) s sent) (n : ℕ)
    (hrun : ∀ k < n, ((timerTick true)^[k] s).halted = false) :
    SignalRun pbkdf2 (fun _ _ => True) ((timerTick true)^[n] s) sent := by
  induction n with
  | zero => exact h
  | succ n ih =>
    rw [Function.iterate_succ_apply']
    exact (ih fun k hk => hrun k (by omega)).step (.tick true) (hrun n (by omega)) trivial

/-- A child is killed. -/
theorem kill_honoured_sample :
    ∃ s sent, SignalRun (fun _ _ _ => none) KeepsKill s sent ∧ sent 1 = [signalKill] ∧
      (s.processes 1).signals.Live ∧ (s.processes 1).signals.Pends signalKill ∧
      ((step (fun _ _ _ => none) (.call .yield true) s).processes 1).zombie = true := by
  have hboot : SignalRun (fun _ _ _ => none) KeepsKill .boot fun _ => [] := .boot
  have hrun := (hboot.idle (.fork true) rfl (fun path w h => absurd h (by simp)) (by decide)).idle
    (.kill 2 9) (by decide) (fun path w h => absurd h (by simp)) (by decide)
  have hkilled := kill_honoured hrun
  refine ⟨_, _, hrun, by decide, ⟨by decide, by decide⟩,
    hkilled.1 1 ⟨by decide, by decide⟩ (by decide), ?_⟩
  exact (hkilled.2 .yield true (by decide) (fun path w h => absurd h (by simp)) (by decide)
    (by decide)).1

/-- A process for which `SIGKILL` is pending runs after a tick of the timer, and replaces its image:
it does not end on its way out. -/
theorem kill_dropped :
    ∃ s sent, SignalRun (fun _ _ _ => none) (fun _ _ => True) s sent ∧ s.halted = false ∧
      signalKill ∈ sent s.self.history.birth ∧
      (dispatch (fun _ _ _ => none) (.execve "/bin/ls" .loaded) s).current = s.current ∧
      ((step (fun _ _ _ => none) (.call (.execve "/bin/ls" .loaded) true) s).processes
        s.current).signals.Live := by
  have hboot : SignalRun (fun _ _ _ => none) (fun _ _ => True) .boot fun _ => [] := .boot
  have hrun := ((hboot.idle (.fork true) rfl trivial (by decide)).idle
    (.kill 2 9) (by decide) trivial (by decide)).ticks 10 (by decide +kernel)
  refine ⟨_, _, hrun, by decide +kernel, by decide +kernel, by decide +kernel, ?_⟩
  rw [step_call_idle (by decide +kernel)]
  exact ⟨by decide +kernel, by decide +kernel⟩

theorem jobExpected_preserved : JobExpected.Preserved OrdersJobs where
  created _ := ⟨fun h => absurd h (by simp [lastJob]), fun h => absurd h (by simp [lastJob])⟩
  sent e s i x l ha hsent _ h := by
    by_cases hx : x = signalStop ∨ x = signalCont ∨ x = signalKill
    · have hlast : lastJob (x :: l) = some x := by
        rcases hx with rfl | rfl | rfl <;> simp [lastJob]
      rw [JobExpected, hlast]
      refine ⟨fun hc => ?_, fun hs => Or.inr (Signals.pends_send.mpr (Or.inr ?_))⟩
      · obtain rfl := Option.some.inj hc
        -- What is continued has no stop pending.
        refine ⟨by simp [Signals.send], fun hp => ?_⟩
        rcases Signals.pends_send.mp hp with hp | hp
        · exact ha.1 i hsent hp
        · exact absurd hp (by decide)
      · exact (Option.some.inj hs).symm
    · -- Other signals leave the process stopped or running.
      obtain ⟨hstop, hcont, hkill⟩ : x ≠ signalStop ∧ x ≠ signalCont ∧ x ≠ signalKill := by
        simpa using hx
      have hlast : lastJob (x :: l) = lastJob l := by simp [lastJob, hstop, hcont, hkill]
      have hstopped : ((s.processes i).signals.send x).stopped =
        (s.processes i).signals.stopped := by
        simp [Signals.send, hcont, hkill]
      rw [JobExpected, hlast, hstopped]
      refine ⟨fun hc => ⟨(h.1 hc).1, fun hp => ?_⟩, fun hs => ?_⟩
      · rcases Signals.pends_send.mp hp with hp | hp
        · exact (h.1 hc).2 hp
        · exact hstop hp.symm
      · exact (h.2 hs).imp_right fun hp => Signals.pends_send.mpr (Or.inl hp)
  replaced path w s l ha hself h := by
    refine ⟨fun _ => ⟨rfl, not_pends_zero _ _⟩, fun hs => ?_⟩
    rcases h.2 hs with hstopped | hp
    · exact absurd (hself.symm.trans hstopped) (by simp)
    · exact absurd hp (ha.2 path w rfl)
  delivered l g g' hd _ hlive h := by
    have hkill : ¬ g.Pends signalKill := fun hp => absurd (hd.kill hp) (by simp [hlive.2])
    by_cases hstop : g.Pends signalStop
    · exact ⟨fun hc => absurd hstop (h.1 hc).2, fun _ => Or.inl (hd.stop hkill hstop).1⟩
    · rcases hd.others hkill hstop with hended | ⟨-, hstopped, hnot, -⟩
      · exact absurd hended (by simp [hlive.2])
      · rw [JobExpected, hstopped]
        exact ⟨fun hc => ⟨(h.1 hc).1, hnot⟩, fun hs => (h.2 hs).imp_right fun hp => absurd hp hstop⟩

/-- **Stop and continue are ordered.** In a run in which `SIGCONT` is sent to no process for which
`SIGSTOP` is pending, and in which no such process replaces its image: a process to which `SIGCONT`
was sent last is not stopped; one to which `SIGSTOP` was sent last is stopped as soon as the signal
is not pending any more, and on its next way out of a system call it is stopped or has ended. -/
theorem jobs_ordered (h : SignalRun pbkdf2 OrdersJobs s sent) :
    (∀ i, (s.processes i).signals.Live →
      (lastJob (sent (s.processes i).history.birth) = some signalCont →
        (s.processes i).stopped = false) ∧
      (lastJob (sent (s.processes i).history.birth) = some signalStop →
        ¬ (s.processes i).signals.Pends signalStop → (s.processes i).stopped = true)) ∧
    ∀ c w, s.halted = false → OrdersJobs (.call c w) s → (dispatch pbkdf2 c s).halted = false →
      lastJob (record (.call c w) s sent (dispatch pbkdf2 c s).self.history.birth) =
        some signalStop →
      ((step pbkdf2 (.call c w) s).processes (dispatch pbkdf2 c s).current).zombie = true ∨
        ((step pbkdf2 (.call c w) s).processes (dispatch pbkdf2 c s).current).stopped = true := by
  have htracked := h.tracked jobExpected_preserved
  refine ⟨fun i hlive => ⟨fun hc => ((htracked.holds i hlive).1 hc).1, fun hs hp => ?_⟩,
    fun c w hrun ha hnot hs => ?_⟩
  · exact ((htracked.holds i hlive).2 hs).resolve_right hp
  · have hdispatch : Tracked JobExpected (dispatch pbkdf2 c s) (record (.call c w) s sent) :=
      htracked.dispatch jobExpected_preserved hrun c w ha
    obtain ⟨hactive, hzombie, -⟩ := hdispatch.sound.runs hnot
    have hd := deliverPendingSignal_self w (dispatch pbkdf2 c s) hactive
    rw [step, if_neg (by simp [hnot])]
    -- The process that runs is not stopped, so the signal is pending.
    have hp : (dispatch pbkdf2 c s).self.signals.Pends signalStop := by
      refine ((hdispatch.holds _ ⟨hactive, hzombie⟩).2 hs).resolve_left fun hstopped => ?_
      exact absurd ((hdispatch.unstopped hnot).symm.trans hstopped) (by simp)
    by_cases hkill : (dispatch pbkdf2 c s).self.signals.Pends signalKill
    · exact Or.inl (hd.kill hkill)
    · exact Or.inr (hd.stop hkill hp).1

/-- A child is stopped, and then continued. -/
theorem jobs_ordered_sample :
    ∃ s sent, SignalRun (fun _ _ _ => none) OrdersJobs s sent ∧
      lastJob (sent 1) = some signalStop ∧ (s.processes 1).signals.Live ∧
      (((step (fun _ _ _ => none) (.call .yield true) s).processes 1).zombie = true ∨
        ((step (fun _ _ _ => none) (.call .yield true) s).processes 1).stopped = true) := by
  have hboot : SignalRun (fun _ _ _ => none) OrdersJobs .boot fun _ => [] := .boot
  have hrun := (hboot.idle (.fork true) rfl
    ⟨fun i h => absurd h (by simp [sentTo]), fun path w h => absurd h (by simp)⟩ (by decide)).idle
    (.kill 2 19) (by decide)
    ⟨by decide, fun path w h => absurd h (by simp)⟩ (by decide)
  have hordered := (jobs_ordered hrun).2 .yield true (by decide)
    ⟨fun i h => absurd h (by simp [sentTo]), fun path w h => absurd h (by simp)⟩ (by decide)
    (by decide)
  exact ⟨_, _, hrun, by decide, ⟨by decide, by decide⟩, hordered⟩

/-- A process that was sent `SIGSTOP` and then `SIGCONT` is stopped afterwards; and one that was
sent `SIGSTOP` runs after `execve`, with nothing pending. -/
theorem stop_after_continue :
    (∃ s sent, SignalRun (fun _ _ _ => none) (fun _ _ => True) s sent ∧
      (s.processes 1).signals.Live ∧
      lastJob (sent (s.processes 1).history.birth) = some signalCont ∧
      (s.processes 1).stopped = true) ∧
    ∃ s sent, SignalRun (fun _ _ _ => none) (fun _ _ => True) s sent ∧ s.halted = false ∧
      s.self.signals.Live ∧ lastJob (sent s.self.history.birth) = some signalStop ∧
      s.self.pendingSignals = 0 ∧ s.self.stopped = false := by
  have hboot : SignalRun (fun _ _ _ => none) (fun _ _ => True) .boot fun _ => [] := .boot
  have hstop := (hboot.idle (.fork true) rfl trivial (by decide)).idle (.kill 2 19) (by decide)
    trivial (by decide)
  refine ⟨?_, ?_⟩
  · have hcont := hstop.idle (.kill 2 18) (by decide) trivial (by decide)
    have hyield := hcont.step (.call .yield true) (by decide) trivial
    have hd := deliverPendingSignal_self true (dispatch (fun _ _ _ => none) .yield
      (dispatch (fun _ _ _ => none) (.kill 2 18) (dispatch (fun _ _ _ => none) (.kill 2 19)
        (dispatch (fun _ _ _ => none) (.fork true) .boot)))) (by decide)
    rw [step, if_neg (by decide)] at hyield
    obtain ⟨hstopped, hzombie, -⟩ := hd.stop (by decide) (by decide)
    refine ⟨_, _, hyield, ⟨hd.active, hzombie⟩, ?_, hstopped⟩
    decide +kernel
  · have hrun := (hstop.ticks 10 (by decide +kernel)).idle (.execve "/bin/ls" .loaded)
      (by decide +kernel) trivial (by decide +kernel)
    exact ⟨_, _, hrun, by decide +kernel, ⟨by decide +kernel, by decide +kernel⟩, by decide +kernel,
      by decide +kernel, by decide +kernel⟩

end Jobs

end ImagineOS.Exec
