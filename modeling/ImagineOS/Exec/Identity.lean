import ImagineOS.Exec.Changes

/-!
# Processes: pids and their owners

New pids lie above all pids of the table, and so above all pids that processes of the table have as
their parents' (`Identity`). A pid can be used again, but never while a child of its former owner is
left. So a parent collects its own children only, and every one of them once (`run_collects`).
-/

namespace ImagineOS.Exec

open Function

/-- Pids and creations are different for different processes, a child has a higher pid than its
parent, and who has the pid of a parent is the creator. Nobody whose status was collected is
there. -/
structure Identity (cores : Fin maxProcesses → Core) (births : ℕ) (collected : List (ℕ × ℕ × ℤ)) :
    Prop where
  pid : ∀ i j, (cores i).active = true → (cores j).active = true → (cores i).pid = (cores j).pid →
    i = j
  parent : ∀ i, (cores i).active = true → (cores i).parent < (cores i).pid
  birth_lt : ∀ i, (cores i).active = true → (cores i).history.birth < births
  birth : ∀ i j, (cores i).active = true → (cores j).active = true →
    (cores i).history.birth = (cores j).history.birth → i = j
  creator : ∀ i j, (cores i).active = true → (cores j).active = true →
    (cores i).parent = (cores j).pid → (cores i).history.creator = (cores j).history.birth
  collected_lt : ∀ b ∈ collected.map (·.1), b < births
  collected_gone : ∀ b ∈ collected.map (·.1), ∀ i, (cores i).active = true →
    (cores i).history.birth ≠ b
  nodup : (collected.map (·.1)).Nodup

/-- The processes keep their identities. -/
structure SameIdentity (c c' : Core) : Prop where
  pid : c'.pid = c.pid
  active : c'.active = c.active
  parent : c'.parent = c.parent
  birth : c'.history.birth = c.history.birth
  creator : c'.history.creator = c.history.creator

/-- The invariant of runs: identities, and a process that may run. -/
structure Sound (s : System) : Prop where
  identity : Identity s.cores s.births s.collected
  runs : Runs s

section Identity

variable {cores cores' : Fin maxProcesses → Core} {births : ℕ} {collected : List (ℕ × ℕ × ℤ)}

theorem SameIdentity.refl (c : Core) : SameIdentity c c := ⟨rfl, rfl, rfl, rfl, rfl⟩

theorem Identity.congr (h : Identity cores births collected)
    (hsame : ∀ i, (cores' i).active = true → SameIdentity (cores i) (cores' i)) :
    Identity cores' births collected := by
  have hactive : ∀ i, (cores' i).active = true → (cores i).active = true := fun i hi =>
    (hsame i hi).active.symm.trans hi
  refine ⟨fun i j hi hj heq => ?_, fun i hi => ?_, fun i hi => ?_, fun i j hi hj heq => ?_,
    fun i j hi hj heq => ?_, h.collected_lt, fun b hb i hi => ?_, h.nodup⟩
  · rw [(hsame i hi).pid, (hsame j hj).pid] at heq
    exact h.pid i j (hactive i hi) (hactive j hj) heq
  · rw [(hsame i hi).parent, (hsame i hi).pid]
    exact h.parent i (hactive i hi)
  · rw [(hsame i hi).birth]
    exact h.birth_lt i (hactive i hi)
  · rw [(hsame i hi).birth, (hsame j hj).birth] at heq
    exact h.birth i j (hactive i hi) (hactive j hj) heq
  · rw [(hsame i hi).parent, (hsame j hj).pid] at heq
    rw [(hsame i hi).creator, (hsame j hj).birth]
    exact h.creator i j (hactive i hi) (hactive j hj) heq
  · rw [(hsame i hi).birth]
    exact h.collected_gone b hb i (hactive i hi)

variable {c : Core}

theorem Identity.update (h : Identity cores births collected) {i : Fin maxProcesses}
    (hsame : SameIdentity (cores i) c) : Identity (Function.update cores i c) births collected := by
  refine h.congr fun j _ => ?_
  by_cases hj : j = i
  · subst hj
    rw [update_self]
    exact hsame
  · rw [update_of_ne hj]
    exact .refl _

/-- A new process, in a free slot. -/
theorem Identity.create (h : Identity cores births collected) {slot current : Fin maxProcesses}
    (hcurrent : (cores current).active = true)
    (hpid : ∀ i, (cores i).pid < c.pid) (hparent : c.parent = (cores current).pid)
    (hbirth : c.history.birth = births)
    (hcreator : c.history.creator = (cores current).history.birth) :
    Identity (Function.update cores slot c) (births + 1) collected := by
  have hold : ∀ i, i ≠ slot → Function.update cores slot c i = cores i := fun i hi =>
    Function.update_of_ne hi _ _
  have hnew : Function.update cores slot c slot = c := Function.update_self _ _ _
  refine ⟨fun i j hi hj heq => ?_, fun i hi => ?_, fun i hi => ?_, fun i j hi hj heq => ?_,
    fun i j hi hj heq => ?_, fun b hb => (h.collected_lt b hb).trans (Nat.lt_succ_self _),
    fun b hb i hi => ?_, h.nodup⟩
  · by_cases his : i = slot <;> by_cases hjs : j = slot
    · rw [his, hjs]
    · rw [his, hnew, hold j hjs] at heq
      exact absurd heq (hpid j).ne'
    · rw [hjs, hnew, hold i his] at heq
      exact absurd heq (hpid i).ne
    · rw [hold i his] at hi heq
      rw [hold j hjs] at hj heq
      exact h.pid i j hi hj heq
  · by_cases his : i = slot
    · rw [his, hnew, hparent]
      exact hpid current
    · rw [hold i his] at hi ⊢
      exact h.parent i hi
  · by_cases his : i = slot
    · rw [his, hnew, hbirth]
      exact Nat.lt_succ_self _
    · rw [hold i his] at hi ⊢
      exact (h.birth_lt i hi).trans (Nat.lt_succ_self _)
  · by_cases his : i = slot <;> by_cases hjs : j = slot
    · rw [his, hjs]
    · rw [hold j hjs] at hj heq
      rw [his, hnew, hbirth] at heq
      exact absurd heq (h.birth_lt j hj).ne'
    · rw [hold i his] at hi heq
      rw [hjs, hnew, hbirth] at heq
      exact absurd heq (h.birth_lt i hi).ne
    · rw [hold i his] at hi heq
      rw [hold j hjs] at hj heq
      exact h.birth i j hi hj heq
  · by_cases his : i = slot <;> by_cases hjs : j = slot
    · rw [his, hjs, hnew, hparent] at heq
      exact absurd heq (hpid current).ne
    · rw [hold j hjs] at hj heq ⊢
      rw [his, hnew] at heq ⊢
      -- The parent is the process that runs, and no other one has its pid.
      rw [hparent] at heq
      rw [hcreator, h.pid current j hcurrent hj heq]
    · rw [hold i his] at hi heq
      rw [hjs, hnew] at heq
      -- No process of the table has a parent with the new pid.
      exact absurd heq ((h.parent i hi).trans (hpid i)).ne
    · rw [hold i his] at hi heq ⊢
      rw [hold j hjs] at hj heq ⊢
      exact h.creator i j hi hj heq
  · by_cases his : i = slot
    · rw [his, hnew, hbirth]
      exact (h.collected_lt b hb).ne'
    · rw [hold i his] at hi ⊢
      exact h.collected_gone b hb i hi

/-- A process is collected, and its slot is free. -/
theorem Identity.collect (h : Identity cores births collected) {slot : Fin maxProcesses}
    {collector : ℕ} {status : ℤ} (hslot : (cores slot).active = true) (hc : c.active = false) :
    Identity (Function.update cores slot c) births
      (collected ++ [((cores slot).history.birth, collector, status)]) := by
  have hold : ∀ i, (Function.update cores slot c i).active = true →
      i ≠ slot ∧ Function.update cores slot c i = cores i := fun i hi => by
    have his : i ≠ slot := fun he => by
      rw [he, Function.update_self, hc] at hi
      exact absurd hi (by simp)
    exact ⟨his, Function.update_of_ne his _ _⟩
  have hrest : Identity (Function.update cores slot c) births collected := h.congr fun i hi => by
    rw [(hold i hi).2]
    exact .refl _
  have hmem : ∀ b, b ∈ (collected ++ [((cores slot).history.birth, collector, status)]).map (·.1) →
      b ∈ collected.map (·.1) ∨ b = (cores slot).history.birth := fun b hb => by
    simpa using hb
  exact {
    pid := hrest.pid
    parent := hrest.parent
    birth_lt := hrest.birth_lt
    birth := hrest.birth
    creator := hrest.creator
    collected_lt := fun b hb => by
      rcases hmem b hb with hb | rfl
      · exact h.collected_lt b hb
      · exact h.birth_lt slot hslot
    collected_gone := fun b hb i hi => by
      rcases hmem b hb with hb | rfl
      · exact hrest.collected_gone b hb i hi
      · obtain ⟨his, heq⟩ := hold i hi
        rw [heq] at hi ⊢
        exact fun he => his (h.birth i slot hi hslot he)
    nodup := by
      rw [List.map_append, List.map_singleton]
      refine List.nodup_append.mpr ⟨h.nodup, List.nodup_singleton _, fun b hb b' hb' => ?_⟩
      rw [List.mem_singleton.mp hb']
      exact (h.collected_gone b hb slot hslot).symm }

end Identity

/-! ### Steps -/

section Steps

variable {pbkdf2 : List UInt8 → List UInt8 → ℕ → Option (List UInt8)}
  {allowed : Event → System → Prop} {e : Event} {s s' : System}

theorem sameIdentity_finish (s : System) (i : Fin maxProcesses) :
    SameIdentity (s.cores i) (s.finish.cores i) := by
  rw [cores_finish]
  exact ⟨rfl, rfl, rfl, rfl, rfl⟩

theorem Settle.identity (h : Settle s s') (hs : Identity s.cores s.births s.collected) :
    Identity s'.cores s'.births s'.collected := by
  rcases h with h | h
  · rw [h.cores, h.births, h.collected]
    exact hs
  · rw [h.cores, h.births, h.collected]
    exact hs.congr fun i _ => sameIdentity_finish s i

theorem pid_lt_nextPid (s : System) (i : Fin maxProcesses) : (s.cores i).pid < s.nextPid :=
  Nat.lt_succ_of_le (Finset.le_sup (Finset.mem_univ i) (f := fun i => (s.processes i).pid))

variable {slot : Fin maxProcesses}

theorem freeSlot_inactive (h : s.freeSlot = some slot) :
    (s.processes slot).active = false := by
  simpa using List.find?_some h

theorem Sound.slot_eq (hs : Sound s) {child : Fin maxProcesses} {wanted : ℤ}
    (hchild : (s.processes child).answers s.self.pid wanted = true)
    (hslot : (s.processes slot).active = true)
    (hpid : (s.processes slot).pid = (s.processes child).pid) : slot = child := by
  simp only [Process.answers, Bool.and_eq_true] at hchild
  exact hs.identity.pid slot child hslot hchild.1.1 hpid

theorem Sound.created (hs : Sound s) (hrun : s.halted = false)
    {p : Process} {image : String} {b : Bool} {t : DescriptorTable} {pipes : Pipes}
    (hslot : s.freeSlot = some slot) (hp : p.core = s.newCore image b) :
    Sound (s.create slot p t pipes) := by
  have hactive := (hs.runs hrun).1
  have hne : s.current ≠ slot := fun he => by
    have h := freeSlot_inactive hslot
    rw [← he] at h
    exact absurd (hactive.symm.trans h) (by simp)
  refine ⟨?_, fun _ => ?_⟩
  · have hcores : (s.create slot p t pipes).cores = Function.update s.cores slot p.core :=
      core_update _ _ _
    rw [hcores, hp]
    exact hs.identity.create hactive (pid_lt_nextPid s) rfl rfl rfl
  · have hself : (s.create slot p t pipes).self = s.self := update_of_ne hne _ _
    rw [hself]
    exact hs.runs hrun

theorem Sound.setSelf (hs : Sound s) (hrun : s.halted = false) {p : Process}
    (hsame : SameIdentity s.self.core p.core) (hzombie : p.zombie = false)
    (hwaiting : p.waitingFor = 0) : Sound (s.setSelf p) := by
  refine ⟨?_, fun _ => ?_⟩
  · rw [cores_setSelf]
    exact hs.identity.update hsame
  · rw [System.self_setSelf]
    exact ⟨hsame.active.trans (hs.runs hrun).1, hzombie, hwaiting⟩

/-- One act preserves the invariant. -/
theorem Act.sound (h : Act pbkdf2 e s s') (hrun : s.halted = false) (hs : Sound s) : Sound s' := by
  obtain ⟨hactive, hzombie, hwaiting⟩ := hs.runs hrun
  have hkept : ∀ t, KeptProcesses s t → t.current = s.current → Sound t := fun t h hcurrent => by
    refine ⟨?_, fun _ => ?_⟩
    · rw [h.cores, h.births, h.collected]
      exact hs.identity
    · have hself : t.self.core = s.self.core := by
        rw [System.self, hcurrent]
        exact congrFun h.cores s.current
      exact ⟨(congrArg Core.active hself).trans hactive, (congrArg Core.zombie hself).trans hzombie,
        (congrArg Core.waitingFor hself).trans hwaiting⟩
  cases h with
  | kept h hcurrent => exact hkept _ h.toKeptProcesses hcurrent
  | opened _ h hcurrent => exact hkept _ h hcurrent
  | spawned hslot hp => exact hs.created hrun hslot hp
  | forked hslot hp => exact hs.created hrun hslot hp
  | replaced hp =>
    refine hs.setSelf hrun ?_ (congrArg Core.zombie hp) (congrArg Core.waitingFor hp)
    rw [hp]
    exact ⟨rfl, hactive.symm, rfl, rfl, rfl⟩
  | elevated => exact hs.setSelf hrun ⟨rfl, rfl, rfl, rfl, rfl⟩ hzombie hwaiting
  | identified => exact hs.setSelf hrun ⟨rfl, rfl, rfl, rfl, rfl⟩ hzombie hwaiting
  | @collected _ _ _ _ _ _ child slot hchild hchildZombie hslot hpid =>
    have hne : s.current ≠ slot := fun he => by
      rw [← hs.slot_eq hchild hslot hpid, ← he] at hchildZombie
      exact absurd (hzombie.symm.trans hchildZombie) (by simp)
    refine ⟨?_, fun _ => ?_⟩
    · have hcores : (s.collect child slot).cores =
        Function.update s.cores slot Process.empty.core :=
        core_update _ _ _
      rw [hcores]
      exact hs.identity.collect hslot rfl
    · have hself : (s.collect child slot).self = s.self := update_of_ne hne _ _
      rw [hself]
      exact hs.runs hrun
  | blocked _ _ _ h hruns =>
    refine ⟨?_, hruns⟩
    rw [h.cores, h.births, h.collected, cores_setSelf]
    exact hs.identity.update ⟨rfl, rfl, rfl, rfl, rfl⟩

theorem SettlesWell.sound (h : SettlesWell s s') (hs : Sound s) : Sound s' where
  identity := h.1.induction (I := fun t => Identity t.cores t.births t.collected)
    (fun _ _ h ht => h.identity ht) hs.identity
  runs := h.2 hs.runs

theorem boot_sound : Sound .boot := by
  have hcore : ∀ i, (System.boot.cores i).active = true → i = 0 := fun i hi => by
    by_contra hne
    simp [System.cores, System.boot, hne, Process.core, Process.empty] at hi
  refine ⟨⟨fun i j hi hj _ => ?_, fun i hi => ?_, fun i hi => ?_, fun i j hi hj _ => ?_,
    fun i j hi hj h => ?_, by simp [System.boot], by simp [System.boot], by simp [System.boot]⟩,
    fun _ => ⟨rfl, rfl, rfl⟩⟩
  · rw [hcore i hi, hcore j hj]
  · rw [hcore i hi]
    exact Nat.zero_lt_one
  · rw [hcore i hi]
    exact Nat.zero_lt_one
  · rw [hcore i hi, hcore j hj]
  · rw [hcore i hi, hcore j hj]
    rfl

/-- **The invariant of runs.** -/
theorem Run.sound (h : Run pbkdf2 allowed s) : Sound s := by
  induction h with
  | boot => exact boot_sound
  | step h e hrun _ ih =>
    obtain ⟨s₁, hact, hsettles⟩ := step_spec e _
    exact hsettles.sound (hact.sound hrun ih)

theorem Settles.collected (h : Settles s s') : s'.collected = s.collected :=
  h.induction (I := fun t => t.collected = s.collected) (fun t t' h ht => by
    rcases h with h | h
    · exact h.collected.trans ht
    · exact h.collected.trans ht) rfl

theorem Act.collected_eq (h : Act pbkdf2 e s s') (he : ∀ wanted statusPointer writable options w,
      e ≠ .call (.waitpid wanted statusPointer writable options) w) :
    s'.collected = s.collected := by
  cases h with
  | kept h _ => exact h.collected
  | opened _ h _ => exact h.collected
  | collected => exact absurd rfl (he _ _ _ _ _)
  | blocked => exact absurd rfl (he _ _ _ _ _)
  | spawned | forked | replaced | elevated | identified => rfl

/-- Whoever waits with success gets a child of its own, which has ended; and otherwise nobody is
collected. -/
theorem Sound.waitpid (hs : Sound s) (wanted : ℤ) (statusPointer : ℕ) (writable : Bool)
    (options : ℤ) (hrun : s.halted = false) :
    (0 < (waitpidCurrent wanted statusPointer writable options s).1 ∧
      ∃ slot, (s.processes slot).active = true ∧ (s.processes slot).zombie = true ∧
        (waitpidCurrent wanted statusPointer writable options s).1 = (s.processes slot).pid ∧
        (s.processes slot).history.creator = s.self.history.birth ∧
        (waitpidCurrent wanted statusPointer writable options s).2 = s.collect slot slot) ∨
    ((waitpidCurrent wanted statusPointer writable options s).1 ≤ 0 ∧
      (waitpidCurrent wanted statusPointer writable options s).2.collected = s.collected) := by
  rw [waitpidCurrent]
  rcases reapChild_spec s.self.pid wanted statusPointer writable s with
    ⟨heq, -⟩ | ⟨child, slot, foundAny, heq, hchild, hzombie, hslot, hpid⟩ <;> rw [heq]
  · right
    dsimp only
    split
    · exact ⟨by simp, rfl⟩
    split
    · exact ⟨le_rfl, rfl⟩
    · exact ⟨by simp, (schedule_spec false _).1.collected⟩
  · left
    have hself := hs.slot_eq hchild hslot hpid
    subst hself
    simp only [Process.answers, Bool.and_eq_true, beq_iff_eq] at hchild
    have hpos : 0 < (s.processes slot).pid :=
      (Nat.zero_le _).trans_lt (hs.identity.parent slot hslot)
    exact ⟨Int.natCast_pos.mpr hpos, slot, hslot, hzombie, rfl,
      hs.identity.creator slot s.current hslot (hs.runs hrun).1 hchild.1.2, rfl⟩

theorem Run.invariant {I : System → Prop} (h : Run pbkdf2 allowed s) (hboot : I .boot)
    (hact : ∀ e s s', Sound s → s.halted = false → allowed e s → Act pbkdf2 e s s' → I s → I s')
    (hsettle : ∀ s s', Settle s s' → I s → I s') : I s := by
  induction h with
  | boot => exact hboot
  | step h e hrun ha ih =>
    obtain ⟨s₁, hdoes, hsettles⟩ := step_spec e _
    exact hsettles.1.induction hsettle (hact e _ s₁ h.sound hrun ha hdoes ih)

/-- **Unique pids, and children that are collected once.** In every state that a run reaches, pids
are different, every process was collected at most once, and no collected one is left. Only
`waitpid` collects, and with success: a process that has ended, and that the caller has created. -/
theorem run_collects (h : Run pbkdf2 allowed s) :
    (∀ i j, (s.processes i).active = true → (s.processes j).active = true →
      (s.processes i).pid = (s.processes j).pid → i = j) ∧
    (s.collected.map (·.1)).Nodup ∧
    (∀ b ∈ s.collected.map (·.1), ∀ i, (s.processes i).active = true →
      (s.processes i).history.birth ≠ b) ∧
    (s.halted = false →
      (∀ wanted statusPointer writable options,
        (0 < (waitpidCurrent wanted statusPointer writable options s).1 ∧
          ∃ slot, (s.processes slot).active = true ∧ (s.processes slot).zombie = true ∧
            (waitpidCurrent wanted statusPointer writable options s).1 = (s.processes slot).pid ∧
            (s.processes slot).history.creator = s.self.history.birth ∧
            (waitpidCurrent wanted statusPointer writable options s).2 = s.collect slot slot) ∨
        ((waitpidCurrent wanted statusPointer writable options s).1 ≤ 0 ∧
          (waitpidCurrent wanted statusPointer writable options s).2.collected = s.collected)) ∧
      ∀ e, (∀ wanted statusPointer writable options w,
          e ≠ .call (.waitpid wanted statusPointer writable options) w) →
        (step pbkdf2 e s).collected = s.collected) := by
  have hs := h.sound
  refine ⟨hs.identity.pid, hs.identity.nodup, hs.identity.collected_gone, fun hrun =>
    ⟨fun wanted statusPointer writable options =>
      hs.waitpid wanted statusPointer writable options hrun, fun e he => ?_⟩⟩
  obtain ⟨s₁, hact, hsettles⟩ := step_spec e s
  exact hsettles.1.collected.trans (hact.collected_eq he)

end Steps

/-- A child is created, ends, and is collected. -/
theorem run_collects_sample :
    ∃ s, Run (fun _ _ _ => none) (fun _ _ => True) s ∧ s.collected = [(1, 0, 768)] ∧
      (s.collected.map (·.1)).Nodup := by
  have hrun : Run (fun _ _ _ => none) (fun _ _ => True) (dispatchAll (fun _ _ _ => none)
      [.fork true, .waitpid 2 0 true 0, .exit 3, .waitpid 2 0 true 0] .boot) :=
    Run.boot.dispatchAll (fun _ _ _ => trivial) (by decide)
  exact ⟨_, hrun, by decide, (run_collects hrun).2.1⟩

end ImagineOS.Exec
