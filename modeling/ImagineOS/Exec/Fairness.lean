import ImagineOS.Rotation
import ImagineOS.Exec.Dispatched

/-!
# Processes: turns

The scheduler goes around the table of processes. Between two turns of one process, every other
process that could run all the time has its turn. Only the scheduler changes who runs, so what is
true of all runs of its calls is true of the calls that the kernel makes.
-/

namespace ImagineOS.Exec

/-! ### One call -/

/-- A call of `schedule`: the tables that it finds, and whether the process that runs ends. -/
structure ScheduleCall where
  tables : System
  exiting : Bool

namespace ScheduleCall

/-- The tables that a call leaves. -/
def result (c : ScheduleCall) : System := schedule c.exiting c.tables

/-- A call selects a process: it returns, and the process runs. -/
def Selects (c : ScheduleCall) (p : Fin maxProcesses) : Prop :=
  c.result.halted = false ∧ c.result.current = p

/-- A process may run when the call looks for one: the slot is active, and the process is neither
stopped, nor a zombie, nor blocked in a wait. -/
structure Eligible (c : ScheduleCall) (p : Fin maxProcesses) : Prop where
  active : (c.result.processes p).active = true
  stopped : (c.result.processes p).stopped = false
  zombie : (c.result.processes p).zombie = false
  waitingFor : (c.result.processes p).waitingFor = 0

/-- The tables over which the scan of a call runs. -/
def scanned (c : ScheduleCall) : System := if c.exiting then c.tables.finish else c.tables

/-- What the scan looks for. -/
def ready (c : ScheduleCall) (p : Fin maxProcesses) : Bool := (c.scanned.processes p).eligible

variable {c : ScheduleCall} {p : Fin maxProcesses}

theorem scanned_current : c.scanned.current = c.tables.current := by
  rw [scanned]
  split <;> rfl

theorem scanned_halted : c.scanned.halted = c.tables.halted := by
  rw [scanned]
  split <;> rfl

theorem result_eq : c.result = match Rotation.next c.ready c.tables.current with
    | some next => { c.scanned with current := next }
    | none => { c.scanned with halted := true } := by
  rw [← scanned_current]
  rfl

theorem result_processes : c.result.processes = c.scanned.processes := by
  rw [result_eq]
  split <;> rfl

theorem ready_iff_eligible : c.ready p = true ↔ c.Eligible p := by
  simp only [ready, Process.eligible, Bool.and_eq_true, Bool.not_eq_true', beq_iff_eq,
    ← result_processes]
  constructor
  · rintro ⟨⟨⟨hactive, hstopped⟩, hzombie⟩, hwaiting⟩
    exact ⟨hactive, hstopped, hzombie, hwaiting⟩
  · intro h
    exact ⟨⟨⟨h.active, h.stopped⟩, h.zombie⟩, h.waitingFor⟩

theorem selects_iff : c.Selects p ↔
    c.tables.halted = false ∧ Rotation.next c.ready c.tables.current = some p := by
  rw [Selects, result_eq, ← scanned_halted]
  cases Rotation.next c.ready c.tables.current with
  | none => simp
  | some next => simp

/-- **A process is selected** when one may run. -/
theorem exists_selects_iff :
    (∃ p, c.Selects p) ↔ c.tables.halted = false ∧ ∃ p, c.Eligible p := by
  constructor
  · rintro ⟨p, hp⟩
    obtain ⟨hrun, hnext⟩ := selects_iff.mp hp
    exact ⟨hrun, p, ready_iff_eligible.mp (Rotation.next_eq_some.mp hnext).1⟩
  · rintro ⟨hrun, p, hp⟩
    cases hnext : Rotation.next c.ready c.tables.current with
    | none => exact absurd (ready_iff_eligible.mpr hp) (by simp [Rotation.next_eq_none.mp hnext p])
    | some next => exact ⟨next, selects_iff.mpr ⟨hrun, hnext⟩⟩

theorem Selects.eligible (h : c.Selects p) : c.Eligible p :=
  ready_iff_eligible.mp (Rotation.next_eq_some.mp (selects_iff.mp h).2).1

/-! ### Many calls -/

/-- The first `n` calls come one after another: each finds the process running that the one before
it selected. All else may have changed. -/
def Chain (calls : ℕ → ScheduleCall) (n : ℕ) : Prop :=
  ∀ k, k + 1 < n → (calls k).Selects (calls (k + 1)).tables.current

variable {calls : ℕ → ScheduleCall} {n : ℕ}

/-- **A process that may run comes nearer** with each call that selects another one. -/
theorem Chain.nearer (h : Chain calls n) {i m : ℕ} (hm : i + m < n) {p q : Fin maxProcesses}
    (hp : (calls (i + m)).Selects p) (hq : ∀ k < m, (calls (i + k + 1)).Eligible q)
    (hother : ∀ k < m, ¬ (calls (i + k + 1)).Selects q) :
    Rotation.distance (calls (i + m)).result.current q + m ≤
      Rotation.distance (calls i).result.current q := by
  -- Every call of the chain selects a process: the next one finds it running.
  have hselects : ∀ k < m, (calls (i + k + 1)).Selects (calls (i + k + 1)).result.current := by
    intro k hk
    by_cases hlast : k + 1 = m
    · subst hlast
      exact ⟨hp.1, rfl⟩
    · exact ⟨(h (i + k + 1) (by omega)).1, rfl⟩
  refine @Rotation.served _ _ q (fun k => (calls (i + k)).result.current)
    (fun k => (calls (i + k + 1)).ready) m ?_ ?_ ?_
  · intro k hk
    have hfound : (calls (i + k)).result.current = (calls (i + k + 1)).tables.current :=
      (h (i + k) (by omega)).2
    show Rotation.next (calls (i + k + 1)).ready (calls (i + k)).result.current = _
    rw [hfound]
    exact (selects_iff.mp (hselects k hk)).2
  · intro k hk
    exact ready_iff_eligible.mpr (hq k hk)
  · intro k hk heq
    exact hother k hk ⟨(hselects k hk).1, heq⟩

end ScheduleCall

/-! ### The calls of the kernel -/

open ScheduleCall

/-- The calls of `schedule` on the way from a state to another one. -/
inductive Scheduling : System → List ScheduleCall → System → Prop
  /-- None: the same process runs. -/
  | nothing {s s' : System} (h : s'.current = s.current)
      (hrun : s'.halted = false → s.halted = false) : Scheduling s [] s'
  /-- A call, and then others if it returns. -/
  | call {s s' : System} {c : ScheduleCall} {calls : List ScheduleCall}
      (h : c.tables.current = s.current) (hrun : calls ≠ [] → c.result.halted = false)
      (hrest : Scheduling c.result calls s') : Scheduling s (c :: calls) s'

variable {s s' s'' : System} {calls calls' : List ScheduleCall}

theorem Scheduling.idle (h : s'.current = s.current) (hhalted : s'.halted = s.halted) :
    Scheduling s [] s' :=
  .nothing h fun hrun => hhalted ▸ hrun

theorem Scheduling.once {t : System} (exiting : Bool) (h : t.current = s.current) :
    Scheduling s [⟨t, exiting⟩] (schedule exiting t) :=
  .call h (fun hne => absurd rfl hne) (.idle rfl rfl)

theorem Scheduling.after {t : System} (h : Scheduling t calls s') (ht : t.current = s.current)
    (hhalted : t.halted = s.halted) : Scheduling s calls s' := by
  cases h with
  | nothing h hrun => exact .nothing (h.trans ht) fun h => hhalted ▸ hrun h
  | call h hrun hrest => exact .call (h.trans ht) hrun hrest

theorem Scheduling.append (h : Scheduling s calls s') (hrun : s'.halted = false)
    (h' : Scheduling s' calls' s'') : Scheduling s (calls ++ calls') s'' := by
  induction h with
  | nothing h hbefore =>
    have hs := hbefore hrun
    exact h'.after h (hrun.trans hs.symm)
  | @call s s' c calls h hreturns hrest ih =>
    refine .call h (fun _ => ?_) (ih hrun h')
    cases hrest with
    | nothing _ hbefore => exact hbefore hrun
    | call => exact hreturns (List.cons_ne_nil _ _)

/-- **A chain.** Each call finds the process running that the one before it selected. -/
theorem Scheduling.chain (h : Scheduling s calls s') (c : ScheduleCall) :
    Chain (fun k => calls.getD k c) calls.length := by
  induction h with
  | nothing => exact fun k hk => absurd hk (Nat.not_lt_zero _)
  | @call s s' first calls h hreturns hrest ih =>
    intro k hk
    cases k with
    | succ k => exact ih k (by simpa using hk)
    | zero =>
      cases hrest with
      | nothing => exact absurd hk (Nat.lt_irrefl 1)
      | call h' => exact ⟨hreturns (List.cons_ne_nil _ _), h'.symm⟩

section Kernel

variable {pbkdf2 : List UInt8 → List UInt8 → ℕ → Option (List UInt8)}

theorem dispatch_scheduling (c : Call) (s : System) :
    ∃ calls, Scheduling s calls (dispatch pbkdf2 c s) := by
  have h : Dispatched pbkdf2 s c (dispatch pbkdf2 c s) := dispatched c s
  generalize dispatch pbkdf2 c s = s' at h
  cases h with
  | yields => exact ⟨_, .once false rfl⟩
  | exits => exact ⟨_, .once true rfl⟩
  | spawned | blocked => exact ⟨_, .once false rfl⟩
  | descriptors _ h =>
    obtain ⟨_, _, rfl⟩ := h
    exact ⟨[], .idle rfl rfl⟩
  | nothing | elevated | identified | sent | handles | returns | replaced | forked | collected =>
    exact ⟨[], .idle rfl rfl⟩

theorem deliverPendingSignal_scheduling (writable : Bool) (s : System) :
    ∃ calls, Scheduling s calls (deliverPendingSignal writable s) := by
  have h : Delivery s (deliverPendingSignal writable s) := delivery writable s
  generalize deliverPendingSignal writable s = s' at h
  induction h with
  | done | enters => exact ⟨[], .idle rfl rfl⟩
  | drops _ _ _ _ ih =>
    obtain ⟨calls, hcalls⟩ := ih
    exact ⟨calls, hcalls.after rfl rfl⟩
  | ends => exact ⟨_, .once true rfl⟩
  | stops => exact ⟨_, .once false rfl⟩

/-- **The calls of an event.** -/
theorem step_scheduling (e : Event) (s : System) :
    ∃ calls, Scheduling s calls (step pbkdf2 e s) := by
  cases e with
  | call c writable =>
    obtain ⟨calls, hcalls⟩ := dispatch_scheduling c s
    rw [step]
    split
    · exact ⟨calls, hcalls⟩
    · rename_i hrun
      obtain ⟨calls', hcalls'⟩ := deliverPendingSignal_scheduling writable (dispatch pbkdf2 c s)
      exact ⟨_, hcalls.append (by simpa using hrun) hcalls'⟩
  | tick user =>
    rw [step, timerTick]
    split
    · exact ⟨[], .idle rfl rfl⟩
    dsimp only
    split
    · exact ⟨[], .idle rfl rfl⟩
    · exact ⟨_, .once false rfl⟩
  | fault => exact ⟨_, .once true rfl⟩

/-- **The calls of a run.** -/
theorem Run.scheduling {allowed : Event → System → Prop} (h : Run pbkdf2 allowed s) :
    ∃ calls, Scheduling .boot calls s := by
  induction h with
  | boot => exact ⟨[], .idle rfl rfl⟩
  | @step s _ e hrun _ ih =>
    obtain ⟨calls, hcalls⟩ := ih
    obtain ⟨calls', hcalls'⟩ := step_scheduling e s
    exact ⟨_, hcalls.append hrun hcalls'⟩

end Kernel

/-! ### Turns -/

/-- **Turns.** A process that is selected may run. If no process may run, none is selected. Between
two turns of one process, every other process that may run at each call has a turn. -/
theorem schedule_fair :
    (∀ (c : ScheduleCall) (p : Fin maxProcesses), c.Selects p → c.Eligible p) ∧
    (∀ c : ScheduleCall, (∀ p, ¬ c.Eligible p) → ∀ p, ¬ c.Selects p) ∧
    ∀ (calls : ℕ → ScheduleCall) (n : ℕ), Chain calls n → ∀ i j, i < j → j < n →
      ∀ p, (calls i).Selects p → (calls j).Selects p →
        ∀ q ≠ p, (∀ k, i < k → k ≤ j → (calls k).Eligible q) →
          ∃ k, i < k ∧ k < j ∧ (calls k).Selects q := by
  refine ⟨fun c p h => h.eligible, fun c hnone p hp => hnone p hp.eligible, ?_⟩
  intro calls n h i j hij hj p hi hj' q hqp hq
  by_contra hnot
  obtain ⟨m, rfl⟩ : ∃ m, j = i + m := ⟨j - i, by omega⟩
  have hnearer := h.nearer hj hj' (q := q) (fun k hk => hq (i + k + 1) (by omega) (by omega)) ?_
  · rw [hi.2, hj'.2] at hnearer
    omega
  · intro k hk hselected
    by_cases hlast : k + 1 = m
    · subst hlast
      exact hqp (hselected.2.symm.trans hj'.2)
    · exact hnot ⟨i + k + 1, by omega, by omega, hselected⟩

/-- The machine has just forked, and its two processes take turns. -/
def sampleTurns (k : ℕ) : ScheduleCall where
  tables := { (forkCurrent true .boot).2 with current := if k % 2 = 0 then 1 else 0 }
  exiting := false

theorem schedule_fair_sample : ∃ k, 0 < k ∧ k < 2 ∧ (sampleTurns k).Selects 1 := by
  have hchain : Chain sampleTurns 3 := by
    intro k hk
    obtain rfl | rfl : k = 0 ∨ k = 1 := by omega
    · exact ⟨by decide +kernel, by decide +kernel⟩
    · exact ⟨by decide +kernel, by decide +kernel⟩
  refine schedule_fair.2.2 sampleTurns 3 hchain 0 2 (by decide) (by decide) 0
    ⟨by decide +kernel, by decide +kernel⟩ ⟨by decide +kernel, by decide +kernel⟩ 1 (by decide)
    fun k hk hk' => ?_
  obtain rfl | rfl : k = 1 ∨ k = 2 := by omega
  · exact ⟨by decide +kernel, by decide +kernel, by decide +kernel, by decide +kernel⟩
  · exact ⟨by decide +kernel, by decide +kernel, by decide +kernel, by decide +kernel⟩

end ImagineOS.Exec
