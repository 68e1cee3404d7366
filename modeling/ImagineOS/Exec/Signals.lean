import ImagineOS.Exec.Identity

/-!
# Processes: signals

The signals that are pending for a process are a set of bits. A signal that is sent sets a bit;
`deliver_pending_signal` takes the bits on the way out of a system call, `SIGKILL` first and
`SIGSTOP` next; `execve` starts with none.
-/

namespace ImagineOS.Exec

open BitVec

/-! ### Signals of a process -/

/-- A process as far as signals go. -/
@[ext] structure Signals where
  birth : ℕ
  active : Bool
  zombie : Bool
  stopped : Bool
  pending : BitVec 64

/-- The signals of a process. -/
def Process.signals (p : Process) : Signals where
  birth := p.history.birth
  active := p.active
  zombie := p.zombie
  stopped := p.stopped
  pending := p.pendingSignals

/-- A process that is there and has not ended. -/
def Signals.Live (g : Signals) : Prop := g.active = true ∧ g.zombie = false

/-- A signal is pending. -/
def Signals.Pends (g : Signals) (x : Fin 32) : Prop := g.pending &&& signalBit x ≠ 0

instance (g : Signals) (x : Fin 32) : Decidable (g.Pends x) :=
  inferInstanceAs (Decidable (g.pending &&& signalBit x ≠ 0))

/-- A signal is sent. -/
def Signals.send (g : Signals) (x : Fin 32) : Signals :=
  { g with
    pending := g.pending ||| signalBit x
    stopped := g.stopped && !(x == signalCont || x == signalKill) }

/-- The process ends. -/
def Signals.ended (g : Signals) : Signals := { g with zombie := true, stopped := false }

theorem getLsbD_signalBit (x y : Fin 32) : (signalBit x).getLsbD y = decide (y = x) := by
  revert x y
  decide

variable {g : Signals} {x : Fin 32}

theorem Signals.pends_iff : g.Pends x ↔ g.pending.getLsbD x = true := by
  constructor
  · intro h
    by_contra hbit
    refine h (eq_of_getLsbD_eq fun i hi => ?_)
    by_cases hix : i = x.val
    · subst hix
      simp only [getLsbD_and, Bool.eq_false_iff.mpr hbit, Bool.false_and]
      exact getLsbD_zero.symm
    · simp only [signalBit, getLsbD_and, getLsbD_shiftLeft, getLsbD_one]
      rcases Nat.lt_or_gt_of_ne hix with h | h
      · simp [h]
      · simp [Nat.sub_ne_zero_of_lt h]
  · intro hbit h
    have hzero := congrArg (fun b => b.getLsbD x) h
    simp only [getLsbD_and, hbit, getLsbD_signalBit, decide_true, Bool.and_self] at hzero
    exact absurd hzero (by simp)

theorem Signals.pends_send {y : Fin 32} :
    (g.send x).Pends y ↔ g.Pends y ∨ y = x := by
  rw [pends_iff, pends_iff]
  simp only [send, getLsbD_or, getLsbD_signalBit, Bool.or_eq_true, decide_eq_true_eq]

variable {p : Process}

theorem pends_clear {y : Fin 32} :
    (p.clear x).signals.Pends y ↔ p.signals.Pends y ∧ y ≠ x := by
  have hy : y.val < 64 := by omega
  rw [Signals.pends_iff, Signals.pends_iff]
  simp only [Process.clear, Process.signals, getLsbD_and, getLsbD_not,
    getLsbD_signalBit, hy, decide_true, Bool.true_and, Bool.and_eq_true, Bool.not_eq_true',
    decide_eq_false_iff_not, ne_eq]

/-- `SIGKILL` is delivered first, and `SIGSTOP` next. -/
theorem nextPendingSignal_kill (h : p.signals.Pends signalKill) :
    nextPendingSignal p.pendingSignals = some signalKill := by
  have h' : p.pendingSignals &&& signalBit 9 ≠ 0 := h
  simp only [nextPendingSignal, signals, List.find?_cons, h', ne_eq, not_false_eq_true, decide_true]
  rfl

theorem nextPendingSignal_stop (hkill : ¬ p.signals.Pends signalKill)
    (h : p.signals.Pends signalStop) : nextPendingSignal p.pendingSignals = some signalStop := by
  have h' : p.pendingSignals &&& signalBit 19 ≠ 0 := h
  have hkill' : p.pendingSignals &&& signalBit 9 = 0 := not_not.mp hkill
  simp only [nextPendingSignal, signals, List.find?_cons, h', hkill', ne_eq, not_true_eq_false,
    not_false_eq_true, decide_true, decide_false]
  rfl

theorem pends_of_next (h : nextPendingSignal p.pendingSignals = some x) :
    p.signals.Pends x := by
  have hx := List.find?_some h
  exact of_decide_eq_true hx

/-! ### Sending -/

/-- The process to which an event sends a signal with success, and the signal. -/
def sentTo (e : Event) (s : System) : Option (Fin maxProcesses × Fin 32) :=
  match e with
  | .call (.kill pid signal) _ =>
    if (sendSignal pid signal s).1 = 0 then
      (s.target pid).bind fun i => (validSignal signal).map fun x => (i, x)
    else none
  | _ => none

/-! ### What an event does -/

/-- What a call makes of the signals of a process, before the way out. -/
inductive Signalled (e : Event) (s : System) (i : Fin maxProcesses) : Signals → Prop
  /-- Nothing, and no signal is sent to it. -/
  | same (h : ∀ x, sentTo e s ≠ some (i, x)) : Signalled e s i (s.processes i).signals
  /-- It ends. -/
  | ended : Signalled e s i (s.processes i).signals.ended
  /-- A signal is sent to it. -/
  | sent {x : Fin 32} (h : sentTo e s = some (i, x)) :
      Signalled e s i ((s.processes i).signals.send x)
  /-- It runs, and its image is replaced. -/
  | replaced {path : String} {w : Bool} (he : e = .call (.execve path .loaded) w)
      (hi : i = s.current) :
      Signalled e s i ⟨(s.processes i).history.birth, true, false, false, 0⟩
  /-- It is new. -/
  | created (h : sentTo e s = none) : Signalled e s i ⟨s.births, true, false, false, 0⟩
  /-- It is collected. -/
  | gone {g : Signals} (hg : g.active = false) : Signalled e s i g

/-- What the way out of a call makes of the signals of the process that runs. -/
structure Delivered (g g' : Signals) : Prop where
  birth : g'.birth = g.birth
  active : g'.active = g.active
  /-- `SIGKILL` ends the process. -/
  kill : g.Pends signalKill → g'.zombie = true
  /-- `SIGSTOP` stops it. -/
  stop : ¬ g.Pends signalKill → g.Pends signalStop →
    g'.stopped = true ∧ g'.zombie = g.zombie ∧ ¬ g'.Pends signalStop
  /-- Other signals may end it. -/
  others : ¬ g.Pends signalKill → ¬ g.Pends signalStop →
    g'.zombie = true ∨ g'.zombie = g.zombie ∧ g'.stopped = g.stopped ∧ ¬ g'.Pends signalStop ∧
      ¬ g'.Pends signalKill

section Events

variable {pbkdf2 : List UInt8 → List UInt8 → ℕ → Option (List UInt8)} {e : Event} {s s' : System}
  {i : Fin maxProcesses}

theorem signals_finish (s : System) (i : Fin maxProcesses) :
    (s.finish.processes i).signals =
      if i = s.current then s.self.signals.ended else (s.processes i).signals := by
  by_cases hi : i = s.current
  · subst hi
    rw [if_pos rfl]
    simp only [System.finish, Function.update_self]
    split <;> rfl
  · rw [if_neg hi]
    simp only [System.finish, Function.update_of_ne hi]
    split <;> rfl

theorem signals_schedule (exiting : Bool) (s : System) (i : Fin maxProcesses) :
    ((schedule exiting s).processes i).signals =
      if exiting = true ∧ i = s.current then s.self.signals.ended else (s.processes i).signals := by
  have hprocesses : (schedule exiting s).processes =
      (if exiting then s.finish else s).processes := by
    unfold schedule
    dsimp only
    split <;> rfl
  rw [hprocesses]
  cases exiting with
  | false => simp
  | true => simpa using signals_finish s i

theorem signals_setSelf (s : System) (p : Process) (i : Fin maxProcesses) :
    ((s.setSelf p).processes i).signals =
      if i = s.current then p.signals else (s.processes i).signals := by
  by_cases hi : i = s.current
  · subst hi
    simp [System.setSelf]
  · simp [System.setSelf, hi]

theorem signals_setSelf_same (h : p.signals = s.self.signals)
    (i : Fin maxProcesses) : ((s.setSelf p).processes i).signals = (s.processes i).signals := by
  rw [signals_setSelf]
  split
  · rename_i hi
    rw [h, hi, System.self]
  · rfl

theorem signals_send (s : System) (i : Fin maxProcesses) (x : Fin 32) (j : Fin maxProcesses) :
    ((s.send i x).processes j).signals =
      if j = i then (s.processes i).signals.send x else (s.processes j).signals := by
  by_cases hj : j = i
  · subst hj
    simp [System.send, Process.signals, Signals.send]
  · simp [System.send, hj]

theorem active_of_sentTo (h : sentTo e s = some (i, x)) :
    (s.processes i).active = true := by
  unfold sentTo at h
  split at h
  · split at h
    · obtain ⟨j, hj, hmap⟩ := Option.bind_eq_some_iff.mp h
      obtain ⟨y, -, heq⟩ := Option.map_eq_some_iff.mp hmap
      obtain ⟨rfl, rfl⟩ := Prod.mk.inj heq
      have hfound := List.find?_some hj
      exact (Bool.and_eq_true _ _ ▸ hfound).1
    · exact absurd h (by simp)
  · exact absurd h (by simp)

theorem Signalled.of_eq (he : sentTo e s = none)
    (h : g = (s.processes i).signals) : Signalled e s i g := by
  rw [h]
  exact .same fun x hx => absurd (he.symm.trans hx) (by simp)

theorem signals_schedule_false (s : System) (i : Fin maxProcesses) :
    ((schedule false s).processes i).signals = (s.processes i).signals := by
  simp [signals_schedule]

theorem Signalled.schedule (he : sentTo e s = none) (exiting : Bool) (i : Fin maxProcesses) :
    Signalled e s i ((Exec.schedule exiting s).processes i).signals := by
  rw [signals_schedule]
  split
  · rename_i h
    rw [System.self, ← h.2]
    exact .ended
  · exact .same fun x hx => absurd (he.symm.trans hx) (by simp)

theorem Signalled.create (he : sentTo e s = none) {slot : Fin maxProcesses}
    {t : DescriptorTable} {pipes : Pipes} (hp : p.signals = ⟨s.births, true, false, false, 0⟩)
    (i : Fin maxProcesses) :
    Signalled e s i ((s.create slot p t pipes).processes i).signals := by
  by_cases hi : i = slot
  · subst hi
    simp only [System.create, Function.update_self, hp]
    exact .created he
  · simp only [System.create, Function.update_of_ne hi]
    exact .same fun x hx => absurd (he.symm.trans hx) (by simp)

/-- **What a call makes of the signals of every process**, before the way out. -/
theorem dispatch_signalled (c : Call) (w : Bool) (s : System) (i : Fin maxProcesses) :
    Signalled (.call c w) s i ((dispatch pbkdf2 c s).processes i).signals := by
  have h : Dispatched pbkdf2 s c (dispatch pbkdf2 c s) := dispatched c s
  generalize dispatch pbkdf2 c s = s' at h
  cases h with
  | nothing h =>
    refine .of_eq ?_ rfl
    cases c with
    | kill pid signal => exact if_neg (h pid signal rfl)
    | _ => rfl
  | descriptors hc h =>
    obtain ⟨t, p, rfl⟩ := h
    refine .of_eq ?_ rfl
    cases c <;> first | rfl | cases hc
  | yields => exact .schedule rfl false i
  | exits status =>
    rw [signals_schedule]
    split
    · rename_i h
      rw [System.self_setSelf, h.2]
      exact .ended
    · exact .of_eq rfl (signals_setSelf_same (by rfl) i)
  | elevated | identified | handles | returns =>
    exact .of_eq rfl (signals_setSelf_same (by rfl) i)
  | @sent pid signal x j hx hj hresult =>
    have hsent : sentTo (.call (.kill pid signal) w) s = some (j, x) := by
      simp [sentTo, hresult, hj, hx]
    rw [signals_send]
    split
    · rename_i hij
      subst hij
      exact .sent hsent
    · rename_i hij
      refine .same fun y hy => hij ?_
      exact (Prod.mk.inj (Option.some.inj (hsent.symm.trans hy))).1.symm
  | replaced path =>
    rw [signals_setSelf]
    split
    · rename_i hi
      subst hi
      exact .replaced rfl rfl
    · exact .of_eq rfl rfl
  | spawned hc =>
    rw [signals_schedule_false]
    exact .create (by rcases hc with rfl | rfl <;> rfl) rfl i
  | forked => exact .create rfl rfl i
  | blocked =>
    rw [signals_schedule_false]
    exact .of_eq rfl (signals_setSelf_same (by rfl) i)
  | @collected _ _ _ _ child slot =>
    by_cases hi : i = slot
    · subst hi
      simp only [System.collect, Function.update_self]
      exact .gone rfl
    · simp only [System.collect, Function.update_of_ne hi]
      exact .of_eq rfl rfl

theorem deliverPendingSignal_other (writable : Bool) (s : System) (hi : i ≠ s.current) :
    ((deliverPendingSignal writable s).processes i).signals = (s.processes i).signals := by
  have hkeep : ∀ (s : System) (p : Process), i ≠ s.current →
      ((s.setSelf p).processes i).signals = (s.processes i).signals :=
    fun s p hi => by rw [signals_setSelf, if_neg hi]
  have h : Delivery s (deliverPendingSignal writable s) := delivery writable s
  generalize deliverPendingSignal writable s = s' at h
  induction h with
  | done => rfl
  | drops _ _ _ _ ih => exact (ih hi).trans (hkeep _ _ hi)
  | ends =>
    rw [signals_schedule, if_neg fun h => hi h.2]
    exact hkeep _ _ hi
  | stops =>
    rw [signals_schedule_false]
    exact hkeep _ _ hi
  | enters => exact hkeep _ _ hi

/-- When neither `SIGKILL` nor `SIGSTOP` is pending, the process ends or loses other signals. -/
theorem Delivered.of_others {g' : Signals} (hbirth : g'.birth = g.birth)
    (hactive : g'.active = g.active) (hkill : ¬ g.Pends signalKill) (hstop : ¬ g.Pends signalStop)
    (h : g'.zombie = true ∨ g'.zombie = g.zombie ∧ g'.stopped = g.stopped ∧
      ¬ g'.Pends signalStop ∧ ¬ g'.Pends signalKill) : Delivered g g' where
  birth := hbirth
  active := hactive
  kill := fun hk => absurd hk hkill
  stop := fun _ hs => absurd hs hstop
  others := fun _ _ => h

/-- `SIGKILL` and `SIGSTOP` come before the others. -/
theorem not_pends_of_next (h : nextPendingSignal p.pendingSignals = some x) :
    (x ≠ signalKill → ¬ p.signals.Pends signalKill) ∧
      (x ≠ signalKill → x ≠ signalStop → ¬ p.signals.Pends signalStop) := by
  have hkill : x ≠ signalKill → ¬ p.signals.Pends signalKill := fun hne hp =>
    hne (Option.some.inj (h.symm.trans (nextPendingSignal_kill hp)))
  exact ⟨hkill, fun hnk hne hp =>
    hne (Option.some.inj (h.symm.trans (nextPendingSignal_stop (hkill hnk) hp)))⟩

/-- **What the way out does to the process that runs.** -/
theorem deliverPendingSignal_self (writable : Bool) (s : System) (hactive : s.self.active = true) :
    Delivered s.self.signals
      ((deliverPendingSignal writable s).processes s.current).signals := by
  have h : Delivery s (deliverPendingSignal writable s) := delivery writable s
  generalize deliverPendingSignal writable s = s' at h
  induction h with
  | @done s h =>
    have hkill : ¬ s.self.signals.Pends signalKill := fun hp =>
      (h hactive _ (nextPendingSignal_kill hp)).1 rfl
    have hstop : ¬ s.self.signals.Pends signalStop := fun hp =>
      (h hactive _ (nextPendingSignal_stop hkill hp)).2 rfl
    exact .of_others rfl rfl hkill hstop (Or.inr ⟨rfl, rfl, hstop, hkill⟩)
  | @drops s s' signal hsignal hnk hns _ ih =>
    obtain ⟨hkill, hstop⟩ := not_pends_of_next hsignal
    have h := ih (by rw [System.self_setSelf]; exact hactive)
    rw [System.self_setSelf] at h
    exact .of_others h.birth h.active (hkill hnk) (hstop hnk hns)
      (h.others (fun hp => hkill hnk (pends_clear.mp hp).1)
        fun hp => hstop hnk hns (pends_clear.mp hp).1)
  | @ends s signal hsignal hns =>
    rw [signals_schedule, if_pos ⟨rfl, rfl⟩, System.self_setSelf]
    refine ⟨rfl, rfl, fun _ => rfl, fun hk hs => ?_, fun _ _ => Or.inl rfl⟩
    exact absurd (Option.some.inj (hsignal.symm.trans (nextPendingSignal_stop hk hs))) hns
  | @stops s hsignal =>
    rw [signals_schedule_false, signals_setSelf, if_pos rfl]
    have hkill := (not_pends_of_next hsignal).1 (by decide)
    refine ⟨rfl, rfl, fun hk => absurd hk hkill, fun _ _ => ⟨rfl, rfl, fun hp => ?_⟩,
      fun _ h => absurd (pends_of_next hsignal) h⟩
    exact (pends_clear.mp hp).2 rfl
  | @enters s signal hsignal hnk hns =>
    obtain ⟨hkill, hstop⟩ := not_pends_of_next hsignal
    rw [signals_setSelf, if_pos rfl]
    exact .of_others rfl rfl (hkill hnk) (hstop hnk hns)
      (Or.inr ⟨rfl, rfl, fun hp => hstop hnk hns (pends_clear.mp hp).1,
        fun hp => hkill hnk (pends_clear.mp hp).1⟩)

end Events

end ImagineOS.Exec
