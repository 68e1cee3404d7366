import ImagineOS.Exec.Identity

/-!
# Processes: rights

A process has a user, a group, whether it is an administrator, and whether it may install to a disk.
A new process gets the first three of them from its creator, and only `authenticate_current` changes
them. The last one goes with the image; but `execve` takes it from the image before.
-/

namespace ImagineOS.Exec

section Privileges

variable {pbkdf2 : List UInt8 → List UInt8 → ℕ → Option (List UInt8)}
  {allowed : Event → System → Prop} {e : Event} {s s' : System} {i j : Fin maxProcesses} {c : Core}

/-! ### One process -/

/-- What an event makes of the process in a slot. The process may end or block beside that. -/
inductive Effect (pbkdf2 : List UInt8 → List UInt8 → ℕ → Option (List UInt8)) (e : Event)
    (s : System) (i : Fin maxProcesses) : Core → Prop
  | same {z : Bool} {n : ℕ} : Effect pbkdf2 e s i { s.cores i with zombie := z, waitingFor := n }
  | gone {c : Core} (hc : c.active = false) : Effect pbkdf2 e s i c
  | created {image : String} {b z : Bool} {n : ℕ}
      (hb : b = (image == distroInstall) ∨
        (image = s.self.history.image ∧ b = s.self.allowsDiskInstall)) :
      Effect pbkdf2 e s i { s.newCore image b with zombie := z, waitingFor := n }
  | replaced {path : String} {w z : Bool} {n : ℕ} (hi : i = s.current)
      (he : e = .call (.execve path .loaded) w) :
      Effect pbkdf2 e s i { s.cores i with
        active := true
        zombie := z
        waitingFor := n
        history := { (s.cores i).history with image := path } }
  | elevated {database : Option (List UInt8)} {username password : List UInt8} {targetUid : ℕ}
      {w z : Bool} {n : ℕ} {account : Account} (hi : i = s.current)
      (he : e = .call (.authenticate database username password targetUid) w)
      (hname : username = s.self.username) (hadmin : s.self.isAdmin = true)
      (haccount : authenticate pbkdf2 database username password = some account) :
      Effect pbkdf2 e s i { s.cores i with
        zombie := z
        waitingFor := n
        uid := 0
        gid := 0
        isAdmin := true
        username := rootName }
  | identified {database : Option (List UInt8)} {username password : List UInt8} {targetUid : ℕ}
      {w z : Bool} {n : ℕ} {account : Account} (hi : i = s.current)
      (he : e = .call (.authenticate database username password targetUid) w)
      (haccount : authenticate pbkdf2 database username password = some account) :
      Effect pbkdf2 e s i { s.cores i with
        zombie := z
        waitingFor := n
        uid := account.uid
        gid := account.gid
        isAdmin := account.administrator
        username := account.username }

theorem Effect.settle (h : Effect pbkdf2 e s i c) (z : Bool) (n : ℕ) :
    Effect pbkdf2 e s i { c with zombie := z, waitingFor := n } := by
  cases h with
  | same => exact .same
  | gone hc => exact .gone hc
  | created hb => exact .created hb
  | replaced hi he => exact .replaced hi he
  | elevated hi he hname hadmin haccount => exact .elevated hi he hname hadmin haccount
  | identified hi he haccount => exact .identified hi he haccount

theorem effect_update {k : Fin maxProcesses} (hk : Effect pbkdf2 e s k c) (i : Fin maxProcesses) :
    Effect pbkdf2 e s i (Function.update s.cores k c i) := by
  by_cases hi : i = k
  · subst hi
    rw [Function.update_self]
    exact hk
  · rw [Function.update_of_ne hi]
    exact .same

theorem Act.effect (h : Act pbkdf2 e s s') (i : Fin maxProcesses) :
    Effect pbkdf2 e s i (s'.cores i) := by
  have hcreate : ∀ (slot : Fin maxProcesses) (p : Process) (t : DescriptorTable) (pipes : Pipes),
      Effect pbkdf2 e s slot p.core → Effect pbkdf2 e s i ((s.create slot p t pipes).cores i) :=
    fun slot p t pipes hp => by
      have hcores : (s.create slot p t pipes).cores = Function.update s.cores slot p.core :=
        core_update _ _ _
      rw [hcores]
      exact effect_update hp i
  have hself : ∀ p : Process, Effect pbkdf2 e s s.current p.core →
      Effect pbkdf2 e s i ((s.setSelf p).cores i) := fun p hp => by
    rw [cores_setSelf]
    exact effect_update hp i
  cases h with
  | kept h _ =>
    rw [h.cores]
    exact .same
  | opened _ h _ =>
    rw [h.cores]
    exact .same
  | spawned hslot hp =>
    refine hcreate _ _ _ _ ?_
    rw [hp]
    exact .created (Or.inl rfl)
  | forked hslot hp =>
    refine hcreate _ _ _ _ ?_
    rw [hp]
    exact .created (Or.inr ⟨rfl, rfl⟩)
  | replaced hp =>
    refine hself _ ?_
    rw [hp]
    exact .replaced rfl rfl
  | elevated hname hadmin haccount => exact hself _ (.elevated rfl rfl hname hadmin haccount)
  | identified haccount => exact hself _ (.identified rfl rfl haccount)
  | @collected _ _ _ _ _ _ child slot _ _ _ _ =>
    have hcores : (s.collect child slot).cores = Function.update s.cores slot Process.empty.core :=
      core_update _ _ _
    rw [hcores]
    exact effect_update (.gone rfl) i
  | blocked _ _ _ h _ =>
    rw [h.cores]
    exact hself _ .same

theorem step_effect (e : Event) (s : System) (i : Fin maxProcesses) :
    Effect pbkdf2 e s i ((step pbkdf2 e s).cores i) := by
  obtain ⟨s₁, hact, hsettles⟩ := step_spec e s
  obtain ⟨z, n, heq⟩ := hsettles.1.core i
  rw [heq]
  exact (hact.effect i).settle z n

theorem Effect.slot_eq (h : Effect pbkdf2 e s j c) (hs : Sound s) (hrun : s.halted = false)
    (hi : (s.processes i).active = true) (hj : c.active = true)
    (hbirth : c.history.birth = (s.processes i).history.birth) : j = i := by
  cases h with
  | same => exact hs.identity.birth j i hj hi hbirth
  | gone hc => exact absurd (hc.symm.trans hj) (by simp)
  | created => exact absurd hbirth (hs.identity.birth_lt i hi).ne'
  | replaced hj' =>
    rw [hj'] at hbirth ⊢
    exact hs.identity.birth s.current i (hs.runs hrun).1 hi hbirth
  | elevated hj' => exact hs.identity.birth j i hj hi hbirth
  | identified hj' => exact hs.identity.birth j i hj hi hbirth

/-! ### Root and administrators -/

/-- The event verifies the password of root, or the one of the account of the process that runs,
which is an administrator. -/
def RootVerified (pbkdf2 : List UInt8 → List UInt8 → ℕ → Option (List UInt8)) (e : Event)
    (s : System) : Prop :=
  ∃ database username password targetUid w,
    e = .call (.authenticate database username password targetUid) w ∧
    (authenticate pbkdf2 database username password).isSome = true ∧
    (username = rootName ∨ (username = s.self.username ∧ s.self.isAdmin = true))

/-- The event verifies the password of an administrator. -/
def AdministratorVerified (pbkdf2 : List UInt8 → List UInt8 → ℕ → Option (List UInt8)) (e : Event) :
    Prop :=
  ∃ database username password targetUid w account,
    e = .call (.authenticate database username password targetUid) w ∧
    authenticate pbkdf2 database username password = some account ∧ account.administrator = true

/-- The event is no `authenticate_current`. -/
def Event.identifies : Event → Bool
  | .call (.authenticate _ _ _ _) _ => true
  | _ => false

theorem Effect.uid (h : Effect pbkdf2 e s i c) (hi : (s.cores i).uid ≠ 0)
    (hbirth : c.history.birth = (s.cores i).history.birth)
    (hlt : (s.cores i).history.birth < s.births)
    (hc : c.active = true) (hzero : c.uid = 0) : i = s.current ∧ RootVerified pbkdf2 e s := by
  cases h with
  | same => exact absurd hzero hi
  | gone hgone => exact absurd (hgone.symm.trans hc) (by simp)
  | created => exact absurd hbirth hlt.ne'
  | replaced => exact absurd hzero hi
  | elevated hcurrent he hname hadmin haccount =>
    exact ⟨hcurrent, _, _, _, _, _, he, by rw [haccount]; rfl, Or.inr ⟨hname, hadmin⟩⟩
  | identified hcurrent he haccount =>
    exact ⟨hcurrent, _, _, _, _, _, he, by rw [haccount]; rfl,
      Or.inl ((authenticate_uid haccount).mp hzero)⟩

theorem Effect.isAdmin (h : Effect pbkdf2 e s i c) (hi : (s.cores i).isAdmin = false)
    (hbirth : c.history.birth = (s.cores i).history.birth)
    (hlt : (s.cores i).history.birth < s.births)
    (hc : c.active = true) (hadmin : c.isAdmin = true) :
    i = s.current ∧ AdministratorVerified pbkdf2 e := by
  cases h with
  | same => exact absurd (hi.symm.trans hadmin) (by simp)
  | gone hgone => exact absurd (hgone.symm.trans hc) (by simp)
  | created => exact absurd hbirth hlt.ne'
  | replaced => exact absurd (hi.symm.trans hadmin) (by simp)
  | elevated hcurrent _ _ hself =>
    rw [hcurrent] at hi
    exact absurd (hi.symm.trans hself) (by simp)
  | identified hcurrent he haccount => exact ⟨hcurrent, _, _, _, _, _, _, he, haccount, hadmin⟩

theorem Effect.unchanged (h : Effect pbkdf2 e s i c) (he : e.identifies = false)
    (hbirth : c.history.birth = (s.cores i).history.birth)
    (hlt : (s.cores i).history.birth < s.births) (hc : c.active = true) :
    c.uid = (s.cores i).uid ∧ c.gid = (s.cores i).gid ∧ c.isAdmin = (s.cores i).isAdmin := by
  cases h with
  | same => exact ⟨rfl, rfl, rfl⟩
  | gone hgone => exact absurd (hgone.symm.trans hc) (by simp)
  | created => exact absurd hbirth hlt.ne'
  | replaced => exact ⟨rfl, rfl, rfl⟩
  | elevated _ hcall =>
    rw [hcall] at he
    exact absurd he (by simp [Event.identifies])
  | identified _ hcall =>
    rw [hcall] at he
    exact absurd he (by simp [Event.identifies])

theorem Effect.inherited (h : Effect pbkdf2 e s i c) (hrun : s.self.active = true)
    (hnew : ∀ j, (s.processes j).active = true → (s.processes j).history.birth ≠ c.history.birth)
    (hc : c.active = true) :
    c.history.creator = s.self.history.birth ∧ c.uid = s.self.uid ∧ c.gid = s.self.gid ∧
      c.isAdmin = s.self.isAdmin := by
  cases h with
  | same => exact absurd rfl (hnew i hc)
  | gone hgone => exact absurd (hgone.symm.trans hc) (by simp)
  | created => exact ⟨rfl, rfl, rfl, rfl⟩
  | replaced hi =>
    subst hi
    exact absurd rfl (hnew s.current hrun)
  | elevated => exact absurd rfl (hnew i hc)
  | identified => exact absurd rfl (hnew i hc)

/-- **No rights without a password.** In every run, a process becomes root or an administrator only
when it runs and its password, or that of root, is verified. Otherwise its user and its group stay
as they are, also when its image is replaced, and a new process gets those of its creator. -/
theorem rights_gained (h : Run pbkdf2 allowed s) (hrun : s.halted = false) (e : Event) :
    (∀ i j, (s.processes i).active = true → ((step pbkdf2 e s).processes j).active = true →
      ((step pbkdf2 e s).processes j).history.birth = (s.processes i).history.birth →
      ((s.processes i).uid ≠ 0 → ((step pbkdf2 e s).processes j).uid = 0 →
        i = s.current ∧ RootVerified pbkdf2 e s) ∧
      ((s.processes i).isAdmin = false → ((step pbkdf2 e s).processes j).isAdmin = true →
        i = s.current ∧ AdministratorVerified pbkdf2 e) ∧
      (e.identifies = false →
        ((step pbkdf2 e s).processes j).uid = (s.processes i).uid ∧
        ((step pbkdf2 e s).processes j).gid = (s.processes i).gid ∧
        ((step pbkdf2 e s).processes j).isAdmin = (s.processes i).isAdmin)) ∧
    ∀ j, ((step pbkdf2 e s).processes j).active = true →
      (∀ i, (s.processes i).active = true →
        (s.processes i).history.birth ≠ ((step pbkdf2 e s).processes j).history.birth) →
      ((step pbkdf2 e s).processes j).history.creator = s.self.history.birth ∧
      ((step pbkdf2 e s).processes j).uid = s.self.uid ∧
      ((step pbkdf2 e s).processes j).gid = s.self.gid ∧
      ((step pbkdf2 e s).processes j).isAdmin = s.self.isAdmin := by
  have hs := h.sound
  refine ⟨fun i j hi hj hbirth => ?_, fun j hj hnew =>
    (step_effect e s j).inherited (hs.runs hrun).1 hnew hj⟩
  have heffect : Effect pbkdf2 e s j ((step pbkdf2 e s).cores j) := step_effect e s j
  have hslot := heffect.slot_eq hs hrun hi hj hbirth
  subst hslot
  have hlt := hs.identity.birth_lt j hi
  exact ⟨fun hne hzero => heffect.uid hne hbirth hlt hj hzero,
    fun hno hadmin => heffect.isAdmin hno hbirth hlt hj hadmin,
    fun he => heffect.unchanged he hbirth hlt hj⟩

/-- The first process creates a child, which is root as well. -/
theorem rights_gained_sample :
    ∃ s e, Run (fun _ _ _ => none) (fun _ _ => True) s ∧ s.halted = false ∧
      ((step (fun _ _ _ => none) e s).processes 1).active = true ∧
      ((step (fun _ _ _ => none) e s).processes 1).history.creator = s.self.history.birth ∧
      ((step (fun _ _ _ => none) e s).processes 1).uid = s.self.uid := by
  have hboot : Run (fun _ _ _ => none) (fun _ _ => True) .boot := .boot
  have hfork : step (fun _ _ _ => none) (.call (.fork true) true) .boot =
      dispatch (fun _ _ _ => none) (.fork true) .boot := step_call_idle (by decide)
  have hactive : ((step (fun _ _ _ => none) (.call (.fork true) true) .boot).processes 1).active =
      true := by
    rw [hfork]
    decide
  have hnew : ∀ i, (System.boot.processes i).active = true →
    (System.boot.processes i).history.birth ≠
      ((step (fun _ _ _ => none) (.call (.fork true) true) .boot).processes 1).history.birth := by
    rw [hfork]
    decide
  obtain ⟨hcreator, huid, -, -⟩ :=
    (rights_gained hboot rfl (.call (.fork true) true)).2 1 hactive hnew
  exact ⟨_, _, hboot, rfl, hactive, hcreator, huid⟩

/-! ### Installing -/

/-- Who may install runs `/bin/distroinstall`, and who runs it may install. -/
def Installs (s : System) : Prop :=
  ∀ i, (s.processes i).active = true →
    ((s.processes i).allowsDiskInstall = true ↔ (s.processes i).history.image = distroInstall)

/-- If the event replaces an image with success, then both images are `/bin/distroinstall`, or none
is. -/
def ReplacesAlike (e : Event) (s : System) : Prop :=
  ∀ path w, e = .call (.execve path .loaded) w →
    (path = distroInstall ↔ s.self.history.image = distroInstall)

theorem boot_installs : Installs .boot := by
  intro i hi
  by_cases h : i = 0
  · subst h
    exact iff_of_false (by simp [System.boot, loadElf])
      (by simp [System.boot, loadElf, distroInstall])
  · simp [System.boot, h, Process.empty] at hi

theorem Effect.installs (h : Effect pbkdf2 e s i c) (hs : Sound s) (hrun : s.halted = false)
    (hinstalls : Installs s) (he : ReplacesAlike e s) (hc : c.active = true) :
    c.allowsDiskInstall = true ↔ c.history.image = distroInstall := by
  have hself := hinstalls s.current (hs.runs hrun).1
  cases h with
  | same => exact hinstalls i hc
  | gone hgone => exact absurd (hgone.symm.trans hc) (by simp)
  | @created image b z n hb =>
    show b = true ↔ image = distroInstall
    rcases hb with rfl | ⟨rfl, rfl⟩
    · exact beq_iff_eq
    · exact hself
  | replaced hi hcall =>
    subst hi
    exact hself.trans (he _ _ hcall).symm
  | elevated => exact hinstalls i hc
  | identified => exact hinstalls i hc

/-- An image of another kind leaves a process with the wrong right. -/
theorem installs_execve {path : String} {w : Bool} (hs : Sound s) (hrun : s.halted = false)
    (hinstalls : Installs s) (hafter : Installs (step pbkdf2 (.call (.execve path .loaded) w) s)) :
    path = distroInstall ↔ s.self.history.image = distroInstall := by
  have hsettles : Settles (dispatch pbkdf2 (.execve path .loaded) s)
    (step pbkdf2 (.call (.execve path .loaded) w) s) := (settlesWell_call _ w s).1
  obtain ⟨z, n, heq⟩ := hsettles.core s.current
  have hreplaced : (dispatch pbkdf2 (.execve path .loaded) s).cores s.current =
      { s.self.core with
        active := true
        zombie := false
        waitingFor := 0
        history := { s.self.history with image := path } } :=
    congrArg Process.core (System.self_setSelf s _)
  rw [hreplaced] at heq
  have hright := hafter s.current (congrArg Core.active heq)
  have himage : ((step pbkdf2 (.call (.execve path .loaded) w) s).processes
      s.current).history.image = path := congrArg (fun c => c.history.image) heq
  have hallows : ((step pbkdf2 (.call (.execve path .loaded) w) s).processes
      s.current).allowsDiskInstall = s.self.allowsDiskInstall := congrArg Core.allowsDiskInstall heq
  rw [himage, hallows] at hright
  exact hright.symm.trans (hinstalls s.current (hs.runs hrun).1)

/-- **The right to install goes with the image**, as long as images of a kind replace each other;
and at the first other one it does not. -/
theorem install_follows (h : Run pbkdf2 ReplacesAlike s) :
    Installs s ∧
      (s.halted = false → ∀ e, Installs (step pbkdf2 e s) ↔ ReplacesAlike e s) := by
  have hstep : ∀ {s} e, Sound s → s.halted = false → Installs s → ReplacesAlike e s →
      Installs (step pbkdf2 e s) := fun e hs hrun hinstalls he i hi =>
    (step_effect e _ i).installs hs hrun hinstalls he hi
  have hinstalls : Installs s := by
    induction h with
    | boot => exact boot_installs
    | step h e hrun he ih => exact hstep e h.sound hrun ih he
  refine ⟨hinstalls, fun hrun e => ⟨fun hafter path w hcall => ?_, hstep e h.sound hrun hinstalls⟩⟩
  subst hcall
  exact installs_execve h.sound hrun hinstalls hafter

/-- A child is created, and replaces its image. -/
theorem install_follows_sample :
    ∃ s, Run (fun _ _ _ => none) ReplacesAlike s ∧ s.births = 2 ∧ Installs s := by
  have hrun : Run (fun _ _ _ => none) ReplacesAlike (dispatchAll (fun _ _ _ => none)
      [.spawn distroInstall .loaded ⟨-1, -1, -1⟩] .boot) :=
    Run.boot.dispatchAll (fun c hc s path w h => by
      rw [List.mem_singleton.mp hc] at h
      exact absurd h (by simp)) (by decide)
  exact ⟨_, hrun, by decide, (install_follows hrun).1⟩

/-- A process that may install replaces its image, and still may. -/
theorem install_kept :
    ¬ ∀ s, Run (fun _ _ _ => none) (fun _ _ => True) s → Installs s := by
  intro h
  have hrun : Run (fun _ _ _ => none) (fun _ _ => True) (dispatchAll (fun _ _ _ => none)
      [.spawn distroInstall .loaded ⟨-1, -1, -1⟩, .execve "/bin/sh" .loaded] .boot) :=
    Run.boot.dispatchAll (fun _ _ _ => trivial) (by decide)
  have himage := (h _ hrun 1 (by decide)).mp (by decide)
  exact absurd himage (by decide)

end Privileges

end ImagineOS.Exec
