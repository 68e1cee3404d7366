import ImagineOS.Exec.Tables

/-!
# Processes: what an event leaves in a slot

The scheduler and the delivery of signals change what a process waits for, whether it has ended or
is stopped, its quantum, and its signals. The rest of it changes in few ways, one for each call that
does more (`Change`).
-/

namespace ImagineOS.Exec

open Function

/-- A process without what the scheduler and the delivery of signals change. -/
def Process.rest (p : Process) : Process :=
  { p with
    zombie := false
    stopped := false
    waitingFor := 0
    quantum := 0
    pendingSignals := 0
    signalFrame := false }

/-- What an event makes of the rest of the process in a slot. -/
inductive Change (e : Event) (s : System) (i : Fin maxProcesses) : Process → Prop
  | kept : Change e s i (s.processes i).rest
  /-- It ends with a status. -/
  | exited {status : ℤ} {w : Bool} (he : e = .call (.exit status) w) (hi : i = s.current) :
      Change e s i { s.self with exitStatus := status }.rest
  /-- It gets another identity. -/
  | identified {uid gid : ℕ} {isAdmin : Bool} {username : List UInt8} (hi : i = s.current) :
      Change e s i { s.self with
        uid := uid, gid := gid, isAdmin := isAdmin, username := username }.rest
  /-- It handles a signal in another way. -/
  | handles {signal handler restorer : ℕ} {mapped w : Bool} {x : Fin 32}
      (he : e = .call (.sigaction signal handler restorer mapped) w) (hi : i = s.current)
      (hvalid : handler ≤ signalIgnore ∨ restorer ≠ 0 ∧ mapped = true) :
      Change e s i { s.self with
        signalActions := Function.update s.self.signalActions x handler
        signalRestorer := if signalIgnore < handler then restorer else s.self.signalRestorer }.rest
  /-- Its image is replaced. -/
  | replaced {path : String} {w : Bool} (he : e = .call (.execve path .loaded) w)
      (hi : i = s.current) : Change e s i (s.replaced path).rest
  /-- It is created with an image of its own. -/
  | spawned {path : String} {w : Bool} (he : e = .call (.exec path .loaded) w ∨
      ∃ io, e = .call (.spawn path .loaded io) w) (hslot : s.freeSlot = some i) :
      Change e s i (s.spawned path).rest
  /-- It is created as a copy. -/
  | forked {w : Bool} (he : e = .call (.fork true) w) (hslot : s.freeSlot = some i) :
      Change e s i s.copied.rest
  /-- It is collected. -/
  | collected {wanted : ℤ} {statusPointer : ℕ} {writable : Bool} {options : ℤ} {w : Bool}
      {child : Fin maxProcesses}
      (he : e = .call (.waitpid wanted statusPointer writable options) w)
      (hchild : (s.processes child).answers s.self.pid wanted = true)
      (hzombie : (s.processes child).zombie = true) (hi : (s.processes i).active = true)
      (hpid : (s.processes i).pid = (s.processes child).pid) :
      Change e s i Process.empty

section Slots

variable {pbkdf2 : List UInt8 → List UInt8 → ℕ → Option (List UInt8)} {e : Event} {s s' : System}
  {i : Fin maxProcesses}

/-! ### Scheduling -/

theorem rest_finish (s : System) (i : Fin maxProcesses) :
    (s.finish.processes i).rest = (s.processes i).rest := by
  by_cases hi : i = s.current
  · subst hi
    simp only [System.finish, update_self]
    split <;> rfl
  · simp only [System.finish, update_of_ne hi]
    split <;> rfl

theorem rest_schedule (exiting : Bool) (s : System) (i : Fin maxProcesses) :
    ((schedule exiting s).processes i).rest = (s.processes i).rest := by
  have hprocesses : (schedule exiting s).processes =
      (if exiting then s.finish else s).processes := by
    unfold schedule
    dsimp only
    split <;> rfl
  rw [hprocesses]
  cases exiting with
  | false => rfl
  | true => exact rest_finish s i

theorem rest_setSelf (s : System) (p : Process) (i : Fin maxProcesses) :
    ((s.setSelf p).processes i).rest = if i = s.current then p.rest else (s.processes i).rest := by
  by_cases hi : i = s.current
  · subst hi
    simp [System.setSelf]
  · simp [System.setSelf, hi]

variable {p : Process}

theorem rest_setSelf_same (h : p.rest = s.self.rest) (i : Fin maxProcesses) :
    ((s.setSelf p).processes i).rest = (s.processes i).rest := by
  rw [rest_setSelf]
  split
  · rename_i hi
    rw [h, hi, System.self]
  · rfl

theorem rest_deliverPendingSignal (writable : Bool) (s : System) (i : Fin maxProcesses) :
    ((deliverPendingSignal writable s).processes i).rest = (s.processes i).rest := by
  have h : Delivery s (deliverPendingSignal writable s) := delivery writable s
  generalize deliverPendingSignal writable s = s' at h
  induction h with
  | done => rfl
  | drops _ _ _ _ ih => exact ih.trans (rest_setSelf_same (by rfl) i)
  | ends => exact (rest_schedule true _ i).trans (rest_setSelf_same (by rfl) i)
  | stops => exact (rest_schedule false _ i).trans (rest_setSelf_same (by rfl) i)
  | enters => exact rest_setSelf_same (by rfl) i

theorem rest_timerTick (user : Bool) (s : System) (i : Fin maxProcesses) :
    ((timerTick user s).processes i).rest = (s.processes i).rest := by
  rw [timerTick]
  split
  · rfl
  dsimp only
  split
  · exact rest_setSelf_same (by rfl) i
  · exact (rest_schedule false _ i).trans (rest_setSelf_same (by rfl) i)

/-! ### Calls -/

theorem Change.same (h : p.rest = (s.processes i).rest) : Change e s i p.rest :=
  h ▸ .kept

theorem change_setSelf (h : i = s.current → Change e s i p.rest) :
    Change e s i ((s.setSelf p).processes i).rest := by
  rw [rest_setSelf]
  split
  · rename_i hi
    exact h hi
  · exact .kept

theorem rest_create (s : System) (slot : Fin maxProcesses) (p : Process) (t : DescriptorTable)
    (pipes : Pipes) (i : Fin maxProcesses) : ((s.create slot p t pipes).processes i).rest =
      if i = slot then p.rest else (s.processes i).rest := by
  by_cases hi : i = slot
  · subst hi
    simp [System.create]
  · simp [System.create, hi]

/-- `spawn` fails, or the first free slot gets a process. -/
theorem spawnCurrentWithIo_rest (path : String) (loading : Loading) (io : SpawnIo) (s : System) :
    ((spawnCurrentWithIo path loading io s).1 ≤ 0 ∧ (spawnCurrentWithIo path loading io s).2 = s) ∨
    ∃ slot, s.freeSlot = some slot ∧ loading = .loaded ∧
      (spawnCurrentWithIo path loading io s).1 = s.nextPid ∧
      ∀ i, ((spawnCurrentWithIo path loading io s).2.processes i).rest =
        if i = slot then (s.spawned path).rest else (s.processes i).rest := by
  refine (spawnCurrentWithIo_created path loading io s).imp_right ?_
  rintro ⟨slot, hslot, hloaded, heq⟩
  refine ⟨slot, hslot, hloaded, by rw [heq], fun i => ?_⟩
  rw [heq, rest_schedule, rest_create]

/-- `fork` fails, or the first free slot gets a copy. -/
theorem forkCurrent_copied (cloned : Bool) (s : System) :
    ((forkCurrent cloned s).1 ≤ 0 ∧ (forkCurrent cloned s).2 = s) ∨
    ∃ slot, s.freeSlot = some slot ∧ cloned = true ∧ (forkCurrent cloned s).1 = s.nextPid ∧
      ∀ i, (forkCurrent cloned s).2.processes i = if i = slot then s.copied else s.processes i := by
  refine (forkCurrent_created cloned s).imp_right ?_
  rintro ⟨slot, hslot, hcloned, heq⟩
  refine ⟨slot, hslot, hcloned, by rw [heq], fun i => ?_⟩
  rw [heq]
  exact update_apply _ _ _ _

/-- **What a call makes of every slot.** -/
theorem dispatch_change (c : Call) (w : Bool) (s : System) (i : Fin maxProcesses) :
    Change (.call c w) s i ((dispatch pbkdf2 c s).processes i).rest := by
  have h : Dispatched pbkdf2 s c (dispatch pbkdf2 c s) := dispatched c s
  generalize dispatch pbkdf2 c s = s' at h
  cases h with
  | nothing => exact .kept
  | descriptors _ h =>
    obtain ⟨t, pipes, rfl⟩ := h
    exact .kept
  | yields => exact .same (rest_schedule false s i)
  | exits status =>
    rw [rest_schedule]
    exact change_setSelf fun hi => .exited rfl hi
  | elevated | identified => exact change_setSelf fun hi => .identified hi
  | @sent _ _ x j =>
    refine .same ?_
    by_cases hi : i = j
    · subst hi
      simp [System.send, Process.rest]
    · simp [System.send, hi]
  | handles hvalid => exact change_setSelf fun hi => .handles rfl hi hvalid
  | returns => exact .same (rest_setSelf_same (by rfl) i)
  | replaced => exact change_setSelf fun hi => .replaced rfl hi
  | spawned hc hslot =>
    rw [rest_schedule, rest_create]
    split
    · rename_i hi
      subst hi
      exact .spawned (hc.imp (fun h => by rw [h]) fun h => ⟨_, by rw [h]⟩) hslot
    · exact .kept
  | forked hslot =>
    rw [rest_create]
    split
    · rename_i hi
      subst hi
      exact .forked rfl hslot
    · exact .kept
  | blocked =>
    rw [rest_schedule]
    exact .same (rest_setSelf_same (by rfl) i)
  | @collected _ _ _ _ child slot hchild hzombie hslot hpid =>
    by_cases hi : i = slot
    · subst hi
      rw [show (s.collect child i).processes i = .empty from update_self _ _ _]
      exact .collected rfl hchild hzombie hslot hpid
    · rw [show (s.collect child slot).processes i = s.processes i from
        update_of_ne hi _ _]
      exact .kept

variable (pbkdf2) in
/-- **What an event makes of every slot.** -/
theorem step_change (e : Event) (s : System) (i : Fin maxProcesses) :
    Change e s i ((step pbkdf2 e s).processes i).rest := by
  cases e with
  | call c w =>
    rw [step]
    split
    · exact dispatch_change c w s i
    · rw [rest_deliverPendingSignal]
      exact dispatch_change c w s i
  | tick user => exact .same (rest_timerTick user s i)
  | fault => exact .same (rest_schedule true s i)

/-! ### Who is there -/

theorem Change.origin (h : Change e s i p) (hactive : s.self.active = true) (hp : p.active = true) :
    ((s.processes i).active = true ∧ SameIdentity (s.cores i) p.core) ∨
    (s.freeSlot = some i ∧ p.history.birth = s.births ∧ p.pid = s.nextPid ∧
      p.parent = s.self.pid) := by
  cases h with
  | kept => exact Or.inl ⟨hp, ⟨rfl, rfl, rfl, rfl, rfl⟩⟩
  | exited _ hi | identified hi | handles _ hi _ =>
    subst hi
    exact Or.inl ⟨hactive, ⟨rfl, rfl, rfl, rfl, rfl⟩⟩
  | replaced _ hi =>
    subst hi
    exact Or.inl ⟨hactive, ⟨rfl, hactive.symm, rfl, rfl, rfl⟩⟩
  | spawned _ hslot | forked _ hslot => exact Or.inr ⟨hslot, rfl, rfl, rfl⟩
  | collected => cases hp

/-- **Where a process comes from**: it was there, or it is new. -/
theorem step_origin (hs : Sound s) (hrun : s.halted = false)
    (hi : ((step pbkdf2 e s).processes i).active = true) :
    ((s.processes i).active = true ∧ SameIdentity (s.cores i) ((step pbkdf2 e s).cores i)) ∨
    (s.freeSlot = some i ∧ ((step pbkdf2 e s).processes i).history.birth = s.births ∧
      ((step pbkdf2 e s).processes i).pid = s.nextPid ∧
      ((step pbkdf2 e s).processes i).parent = s.self.pid) := by
  refine ((step_change pbkdf2 e s i).origin (hs.runs hrun).1 hi).imp (fun h => ⟨h.1, ?_⟩) id
  exact ⟨h.2.pid, h.2.active, h.2.parent, h.2.birth, h.2.creator⟩

/-- **Where a process goes**: it stays, or its parent collects it when it has ended. -/
theorem step_stays (hs : Sound s) (hrun : s.halted = false) (hi : (s.processes i).active = true) :
    ((step pbkdf2 e s).processes i).active = true ∨
    (s.processes i).zombie = true ∧ (s.processes i).parent = s.self.pid ∧
      ∃ wanted statusPointer writable options w,
        e = .call (.waitpid wanted statusPointer writable options) w := by
  have hstays : ∀ p, Change e s i p → p.active = true ∨ (s.processes i).zombie = true ∧
      (s.processes i).parent = s.self.pid ∧ ∃ wanted statusPointer writable options w,
        e = .call (.waitpid wanted statusPointer writable options) w := by
    intro p h
    cases h with
    | kept => exact Or.inl hi
    | exited | identified | handles => exact Or.inl (hs.runs hrun).1
    | replaced => exact Or.inl rfl
    | spawned _ hslot | forked _ hslot => exact Or.inl rfl
    | collected he hchild hzombie hslot hpid =>
      obtain rfl := hs.slot_eq hchild hslot hpid
      simp only [Process.answers, Bool.and_eq_true, beq_iff_eq] at hchild
      exact Or.inr ⟨hzombie, hchild.1.2, _, _, _, _, _, he⟩
  have h := hstays _ (step_change pbkdf2 e s i)
  exact h

variable (pbkdf2) in
theorem rest_step_call (c : Call) (w : Bool) (s : System) (i : Fin maxProcesses) :
    ((step pbkdf2 (.call c w) s).processes i).rest = ((dispatch pbkdf2 c s).processes i).rest := by
  rw [step]
  split
  · rfl
  · exact rest_deliverPendingSignal w _ i

/-- **`exec`** with success makes a process with the pid that it answers. -/
theorem step_exec {path : String} {loading : Loading}
    (h : 0 < (spawnCurrent path loading s).1) (w : Bool) :
    (spawnCurrent path loading s).1 = s.nextPid ∧ ∃ slot, s.freeSlot = some slot ∧
      ((step pbkdf2 (.call (.exec path loading) w) s).processes slot).rest =
        (s.spawned path).rest := by
  rcases spawnCurrentWithIo_rest path loading _ s with ⟨hle, -⟩ | ⟨slot, hslot, -, hpid, hrest⟩
  · exact absurd h hle.not_gt
  refine ⟨hpid, slot, hslot, (rest_step_call pbkdf2 (.exec path loading) w s slot).trans ?_⟩
  exact (hrest slot).trans (if_pos rfl)

/-! ### Whoever has ended -/

theorem Settle.zombie (h : Settle s s') (hi : (s.cores i).zombie = true) :
    (s'.cores i).zombie = true := by
  rcases h with h | h
  · rw [h.cores]
    exact hi
  · rw [h.cores, cores_finish]
    simp [hi]

theorem Settles.zombie (h : Settles s s') (hi : (s.cores i).zombie = true) :
    (s'.cores i).zombie = true :=
  h.induction (I := fun t => (t.cores i).zombie = true) (fun _ _ hsettle => hsettle.zombie) hi

/-- Whoever has ended stays so, as long as it is there. -/
theorem step_zombie (hs : Sound s) (hrun : s.halted = false) (hi : (s.processes i).active = true)
    (hzombie : (s.processes i).zombie = true)
    (hi' : ((step pbkdf2 e s).processes i).active = true) :
    ((step pbkdf2 e s).processes i).zombie = true := by
  obtain ⟨s₁, hact, hsettles⟩ : Does pbkdf2 e s (step pbkdf2 e s) := step_spec e s
  obtain ⟨z, n, hcore⟩ := hsettles.1.core i
  have hi₁ : (s₁.cores i).active = true := by
    have h : ((step pbkdf2 e s).cores i).active = true := hi'
    rwa [hcore] at h
  refine hsettles.1.zombie ?_
  have hcurrent : i ≠ s.current := fun he => by
    rw [he] at hzombie
    exact absurd ((hs.runs hrun).2.1.symm.trans hzombie) (by simp)
  have hset : ∀ p, ((s.setSelf p).cores i).zombie = true := fun p => by
    rw [cores_setSelf, update_of_ne hcurrent]
    exact hzombie
  have hcreate : ∀ {slot p t pipes}, s.freeSlot = some slot →
      ((s.create slot p t pipes).cores i).zombie = true := fun {slot p t pipes} hslot => by
    have hne : i ≠ slot := fun he => by
      rw [he] at hi
      exact absurd (hi.symm.trans (freeSlot_inactive hslot)) (by simp)
    rw [show (s.create slot p t pipes).cores = update s.cores slot p.core from
      core_update _ _ _, update_of_ne hne]
    exact hzombie
  cases hact with
  | kept h _ | opened _ h _ =>
    rw [h.cores]
    exact hzombie
  | spawned hslot _ | forked hslot _ => exact hcreate hslot
  | replaced _ | elevated | identified => exact hset _
  | @collected _ _ _ _ _ _ child slot =>
    have hcores : (s.collect child slot).cores = update s.cores slot Process.empty.core :=
      core_update _ _ _
    rw [hcores] at hi₁ ⊢
    by_cases hne : i = slot
    · rw [hne, update_self] at hi₁
      cases hi₁
    · rw [update_of_ne hne]
      exact hzombie
  | blocked _ _ _ h _ =>
    rw [h.cores]
    exact hset _

theorem step_exit (status : ℤ) (w : Bool) (s : System) :
    ((step pbkdf2 (.call (.exit status) w) s).processes s.current).zombie = true ∧
    ((step pbkdf2 (.call (.exit status) w) s).processes s.current).rest =
      { s.self with exitStatus := status }.rest := by
  refine ⟨?_, ?_⟩
  swap
  · have hdispatch : ((dispatch pbkdf2 (.exit status) s).processes s.current).rest =
        { s.self with exitStatus := status }.rest := by
      rw [dispatch, rest_schedule, rest_setSelf, if_pos rfl]
    rw [step]
    split
    · exact hdispatch
    · rw [rest_deliverPendingSignal]
      exact hdispatch
  refine (settlesWell_call (.exit status) w s).1.zombie (i := s.current) ?_
  rw [dispatch, (schedule_spec true _).1.cores, if_pos rfl, cores_finish]
  simp [System.setSelf]

end Slots

end ImagineOS.Exec
