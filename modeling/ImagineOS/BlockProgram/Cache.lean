import ImagineOS.BlockProgram.Program
import Mathlib.Data.Set.Insert

/-!
# A device with a volatile write cache

A write lands in a volatile cache; a flush moves everything written so far to the media. When power
is lost, any subset of the writes since the last flush has reached the media (`Cache.CrashImage`),
each of them whole.
-/

namespace BlockProgram

variable {S E C R α β : Type}

/-- The writes of a list, oldest first, laid over a disk. -/
def applyWrites : List (ℕ × S) → (ℕ → S) → ℕ → S
  | [], d => d
  | w :: ws, d => applyWrites ws (Function.update d w.1 w.2)

theorem applyWrites_append (ws vs : List (ℕ × S)) (d : ℕ → S) :
    applyWrites (ws ++ vs) d = applyWrites vs (applyWrites ws d) := by
  induction ws generalizing d with
  | nil => rfl
  | cons w ws ih => exact ih _

variable {lba : ℕ}

theorem applyWrites_of_not_mem {ws : List (ℕ × S)} (d : ℕ → S)
    (h : lba ∉ ws.map Prod.fst) : applyWrites ws d lba = d lba := by
  induction ws generalizing d with
  | nil => rfl
  | cons w ws ih =>
    simp only [List.map_cons, List.mem_cons, not_or] at h
    rw [applyWrites, ih _ h.2, Function.update_of_ne h.1]

theorem applyWrites_cases (ws : List (ℕ × S)) (d : ℕ → S) (lba : ℕ) :
    applyWrites ws d lba = d lba ∨ (lba, applyWrites ws d lba) ∈ ws := by
  induction ws generalizing d with
  | nil => exact Or.inl rfl
  | cons w ws ih =>
    rcases ih (Function.update d w.1 w.2) with h | h
    · rw [applyWrites, h]
      rcases eq_or_ne lba w.1 with rfl | hne
      · exact Or.inr (by simp)
      · exact Or.inl (by simp [hne])
    · exact Or.inr (List.mem_cons_of_mem _ h)

theorem applyWrites_of_mem {ws : List (ℕ × S)} {w : ℕ × S} (d : ℕ → S)
    (hnd : (ws.map Prod.fst).Nodup) (h : w ∈ ws) : applyWrites ws d w.1 = w.2 := by
  induction ws generalizing d with
  | nil => simp at h
  | cons v ws ih =>
    simp only [List.map_cons, List.nodup_cons] at hnd
    rcases List.mem_cons.mp h with rfl | h
    · rw [applyWrites, applyWrites_of_not_mem _ hnd.1, Function.update_self]
    · exact ih _ hnd.2 h

theorem Fallible.run_writeSectors {ε : Type} {wrap : E → ε}
    {callee : C → (ℕ → S) → Except ε Unit × (ℕ → S)} (ws : List (ℕ × S)) (d : ℕ → S) :
    (Fallible.writeSectors wrap ws : Fallible S E C ε Unit).run.run callee d =
      (.ok (), applyWrites ws d) := by
  induction ws generalizing d with
  | nil => rfl
  | cons w ws ih => exact ih (Function.update d w.1 w.2)

variable {d : ℕ → S}

theorem applyWrites_congr (ws : List (ℕ × S)) {d' : ℕ → S} (h : d lba = d' lba) :
    applyWrites ws d lba = applyWrites ws d' lba := by
  induction ws generalizing d d' with
  | nil => exact h
  | cons w ws ih => exact ih (by simp [Function.update_apply, h])

/-- A device with a volatile write cache: what is on the media, and the writes since the last
flush, oldest first. -/
structure Cache (S : Type) where
  media : ℕ → S
  pending : List (ℕ × S)

namespace Cache

/-- The device just after power-up. -/
def ofDisk (d : ℕ → S) : Cache S := ⟨d, []⟩

/-- What reads see: every write so far. -/
def view (σ : Cache S) : ℕ → S := applyWrites σ.pending σ.media

/-- A write goes to the cache. -/
def write (σ : Cache S) (lba : ℕ) (s : S) : Cache S := ⟨σ.media, σ.pending ++ [(lba, s)]⟩

/-- A flush makes every earlier write durable. -/
def sync (σ : Cache S) : Cache S := ⟨σ.view, []⟩

/-- The disks a power failure can leave: any subset of the writes since the last flush reached
the media. -/
def CrashImage (σ : Cache S) (d : ℕ → S) : Prop :=
  ∃ ws : List (ℕ × S), ws.Sublist σ.pending ∧ d = applyWrites ws σ.media

/-- What a power failure can leave in sector `lba`. -/
def poss (σ : Cache S) (lba : ℕ) : Set S :=
  {s | s = σ.media lba ∨ (lba, s) ∈ σ.pending}

theorem CrashImage.mem_poss {σ : Cache S} (h : σ.CrashImage d) (lba : ℕ) :
    d lba ∈ σ.poss lba := by
  obtain ⟨ws, hws, rfl⟩ := h
  exact (applyWrites_cases ws σ.media lba).imp_right fun hm => hws.mem hm

theorem view_mem_poss (σ : Cache S) (lba : ℕ) : σ.view lba ∈ σ.poss lba :=
  applyWrites_cases σ.pending σ.media lba

theorem crashImage_view (σ : Cache S) : σ.CrashImage σ.view := ⟨σ.pending, .refl _, rfl⟩

@[simp] theorem view_ofDisk (d : ℕ → S) : (ofDisk d).view = d := rfl

@[simp] theorem poss_ofDisk (d : ℕ → S) (lba : ℕ) : (ofDisk d).poss lba = {d lba} := by
  ext s; simp [poss, ofDisk]

theorem view_write (σ : Cache S) (lba : ℕ) (s : S) :
    (σ.write lba s).view = Function.update σ.view lba s := by
  simp [view, write, applyWrites_append, applyWrites]

theorem poss_write_self (σ : Cache S) (lba : ℕ) (s : S) :
    (σ.write lba s).poss lba = insert s (σ.poss lba) := by
  ext t
  simp only [poss, write, List.mem_append, List.mem_singleton, Prod.mk.injEq, true_and,
    Set.mem_ofPred_eq, Set.mem_insert_iff]
  rw [← or_assoc, or_comm]

theorem poss_write_of_ne (σ : Cache S) {l : ℕ} (s : S) (h : l ≠ lba) :
    (σ.write lba s).poss l = σ.poss l := by
  ext t
  simp [poss, write, h]

@[simp] theorem view_sync (σ : Cache S) : σ.sync.view = σ.view := rfl

@[simp] theorem poss_sync (σ : Cache S) (lba : ℕ) : σ.sync.poss lba = {σ.view lba} := by
  ext s; simp [poss, sync]

variable {s : S}

theorem view_eq_of_poss_subset {σ : Cache S} (h : σ.poss lba ⊆ {s}) :
    σ.view lba = s := h (σ.view_mem_poss lba)

theorem poss_eq_of_subset {σ : Cache S} (h : σ.poss lba ⊆ {s}) :
    σ.poss lba = {s} :=
  Set.Subset.antisymm h (by simpa [view_eq_of_poss_subset h] using σ.view_mem_poss lba)

/-- Whatever a crash leaves, each sector holds one of the contents `B` allows for it. -/
def Within (σ : Cache S) (B : ℕ → Set S) : Prop := ∀ lba, σ.poss lba ⊆ B lba

variable {σ : Cache S} {B : ℕ → Set S}

theorem Within.view_mem (h : σ.Within B) (lba : ℕ) : σ.view lba ∈ B lba :=
  h lba (σ.view_mem_poss lba)

theorem Within.crashImage (h : σ.Within B) (hd : σ.CrashImage d) (lba : ℕ) :
    d lba ∈ B lba := h lba (hd.mem_poss lba)

theorem Within.write (h : σ.Within B) (hs : s ∈ B lba) :
    (σ.write lba s).Within B := by
  intro l
  rcases eq_or_ne l lba with rfl | hne
  · rw [poss_write_self]
    exact Set.insert_subset hs (h l)
  · rw [poss_write_of_ne _ _ hne]
    exact h l

theorem within_sync : σ.sync.Within B ↔ ∀ lba, σ.view lba ∈ B lba := by
  simp [Within]

theorem within_ofDisk : (ofDisk d).Within B ↔ ∀ lba, d lba ∈ B lba := by
  simp [Within]

end Cache

/-! ### Partial runs

A run is cut at any request (`stop`); cutting it right after a write or a flush is cutting the
continuation. When `faulty` holds, a write or a flush may also be answered by an error: the failed
write has reached the cache or has not, and a failed flush leaves the cache as it was. -/

/-- `Exec callee faulty p σ t o σ'`: a run of `p` from the device `σ` that has come as far as `σ'`,
made the calls `t` (each with its answer, `none` for a call that was cut), and has ended with
value `a` (`o = some a`) or was cut (`o = none`). -/
inductive Exec (callee : C → Cache S → Option R → Cache S → Prop) (faulty : Prop) :
    Prog S E C R α → Cache S → List (C × Option R) → Option α → Cache S → Prop
  | stop (p : Prog S E C R α) (σ : Cache S) : Exec callee faulty p σ [] none σ
  | pure (a : α) (σ : Cache S) : Exec callee faulty (.pure a) σ [] (some a) σ
  | read {lba : ℕ} {k : Except E S → Prog S E C R α} {σ σ' : Cache S} {t o}
      (h : Exec callee faulty (k (.ok (σ.view lba))) σ t o σ') :
      Exec callee faulty (.read lba k) σ t o σ'
  | write {lba : ℕ} {s : S} {k : Except E Unit → Prog S E C R α} {σ σ' : Cache S} {t o}
      (h : Exec callee faulty (k (.ok ())) (σ.write lba s) t o σ') :
      Exec callee faulty (.write lba s k) σ t o σ'
  | writeLost {lba : ℕ} {s : S} {k : Except E Unit → Prog S E C R α} {σ σ' : Cache S} {t o}
      (hf : faulty) (e : E) (h : Exec callee faulty (k (.error e)) σ t o σ') :
      Exec callee faulty (.write lba s k) σ t o σ'
  | writeKept {lba : ℕ} {s : S} {k : Except E Unit → Prog S E C R α} {σ σ' : Cache S} {t o}
      (hf : faulty) (e : E) (h : Exec callee faulty (k (.error e)) (σ.write lba s) t o σ') :
      Exec callee faulty (.write lba s k) σ t o σ'
  | flush {k : Except E Unit → Prog S E C R α} {σ σ' : Cache S} {t o}
      (h : Exec callee faulty (k (.ok ())) σ.sync t o σ') :
      Exec callee faulty (.flush k) σ t o σ'
  | flushFailed {k : Except E Unit → Prog S E C R α} {σ σ' : Cache S} {t o}
      (hf : faulty) (e : E) (h : Exec callee faulty (k (.error e)) σ t o σ') :
      Exec callee faulty (.flush k) σ t o σ'
  | call {c : C} {k : R → Prog S E C R α} {r : R} {σ σ₁ σ' : Cache S} {t o}
      (hc : callee c σ (some r) σ₁) (h : Exec callee faulty (k r) σ₁ t o σ') :
      Exec callee faulty (.call c k) σ ((c, some r) :: t) o σ'
  | callCut {c : C} {k : R → Prog S E C R α} {σ σ' : Cache S} (hc : callee c σ none σ') :
      Exec callee faulty (.call c k) σ [(c, none)] none σ'

/-- The callee of a program that makes no calls. -/
def noCallee : Empty → Cache S → Option R → Cache S → Prop := fun c => c.elim

theorem exec_run (faulty : Prop) (p : Prog S E Empty R α) (σ : Cache S) :
    ∃ σ', Exec noCallee faulty p σ [] (some (p.run (fun c => c.elim) σ.view).1) σ' ∧
      σ'.view = (p.run (fun c => c.elim) σ.view).2 := by
  induction p generalizing σ with
  | pure a => exact ⟨σ, .pure a σ, rfl⟩
  | read lba k ih =>
    obtain ⟨σ', hx, hv⟩ := ih (.ok (σ.view lba)) σ
    exact ⟨σ', .read hx, hv⟩
  | write lba s k ih =>
    obtain ⟨σ', hx, hv⟩ := ih (.ok ()) (σ.write lba s)
    rw [Cache.view_write] at hx hv
    exact ⟨σ', .write hx, hv⟩
  | flush k ih =>
    obtain ⟨σ', hx, hv⟩ := ih (.ok ()) σ.sync
    exact ⟨σ', .flush hx, hv⟩
  | call c k => exact c.elim

variable {σ : Cache S} {p : Prog S E C R α} {a : α}

theorem Prog.Reads.exec {callee : C → Cache S → Option R → Cache S → Prop} {faulty : Prop}
    (h : p.Reads σ.view a) :
    Exec callee faulty p σ [] (some a) σ := by
  induction p with
  | pure a' => exact h ▸ .pure a' σ
  | read lba k ih => exact .read (ih _ h)
  | _ => exact h.elim

variable {f : α → Prog S E C R β} {σ' : Cache S} {t : List (C × Option R)}

theorem Exec.bind {callee : C → Cache S → Option R → Cache S → Prop} {faulty : Prop} {σ₁ : Cache S}
    {t' : List (C × Option R)} {o : Option β} (hx : Exec callee faulty p σ t (some a) σ₁)
    (hx' : Exec callee faulty (f a) σ₁ t' o σ') :
    Exec callee faulty (p.bind f) σ (t ++ t') o σ' := by
  generalize ho : some a = o' at hx
  induction hx with
  | stop => cases ho
  | pure => cases ho; exact hx'
  | read _ ih => exact .read (ih hx' ho)
  | write _ ih => exact .write (ih hx' ho)
  | writeLost hf e _ ih => exact .writeLost hf e (ih hx' ho)
  | writeKept hf e _ ih => exact .writeKept hf e (ih hx' ho)
  | flush _ ih => exact .flush (ih hx' ho)
  | flushFailed hf e _ ih => exact .flushFailed hf e (ih hx' ho)
  | call hc _ ih => exact .call hc (ih hx' ho)
  | callCut => cases ho

theorem Exec.bind_none {callee : C → Cache S → Option R → Cache S → Prop} {faulty : Prop}
    (hx : Exec callee faulty p σ t none σ') : Exec callee faulty (p.bind f) σ t none σ' := by
  generalize ho : (none : Option α) = o' at hx
  induction hx with
  | stop => exact .stop _ _
  | pure => cases ho
  | read _ ih => exact .read (ih ho)
  | write _ ih => exact .write (ih ho)
  | writeLost hf e _ ih => exact .writeLost hf e (ih ho)
  | writeKept hf e _ ih => exact .writeKept hf e (ih ho)
  | flush _ ih => exact .flush (ih ho)
  | flushFailed hf e _ ih => exact .flushFailed hf e (ih ho)
  | call hc _ ih => exact .call hc (ih ho)
  | callCut hc => exact .callCut hc

/-! ### Crash safety of a program

`Prog.Safe faulty I p Q σ` says of a program without calls, started on the device `σ`: wherever the
run is cut the device satisfies `I`, and if it ends it ends with `Q`. It is defined by recursion on
the program, so it is proved by walking through the program; `Exec.safe` is what it means. -/

/-- Every cut of a run satisfies `I`, and every end satisfies `Q`. -/
def Prog.Safe (faulty : Prop) (I : Cache S → Prop) :
    Prog S E C R α → (α → Cache S → Prop) → Cache S → Prop
  | .pure a, Q, σ => I σ ∧ Q a σ
  | .read lba k, Q, σ => I σ ∧ (k (.ok (σ.view lba))).Safe faulty I Q σ
  | .write lba s k, Q, σ => I σ ∧ (k (.ok ())).Safe faulty I Q (σ.write lba s) ∧
      (faulty → ∀ e, (k (.error e)).Safe faulty I Q σ ∧
        (k (.error e)).Safe faulty I Q (σ.write lba s))
  | .flush k, Q, σ => I σ ∧ (k (.ok ())).Safe faulty I Q σ.sync ∧
      (faulty → ∀ e, (k (.error e)).Safe faulty I Q σ)
  | .call _ _, _, _ => False

variable {callee : C → Cache S → Option R → Cache S → Prop} {faulty : Prop}
  {I J : Cache S → Prop}

variable {Q : α → Cache S → Prop}

theorem Prog.Safe.inv (h : p.Safe faulty I Q σ) : I σ := by
  cases p with
  | call c k => exact h.elim
  | _ => exact h.1

/-- **What `Safe` means**: the invariant at every cut, the postcondition at every end. -/
theorem Exec.safe {o : Option α} (hx : Exec callee faulty p σ t o σ')
    (h : p.Safe faulty I Q σ) : I σ' ∧ ∀ a, o = some a → Q a σ' := by
  induction hx with
  | stop p σ => exact ⟨h.inv, by simp⟩
  | pure a σ => exact ⟨h.1, by rintro _ ⟨⟩; exact h.2⟩
  | read _ ih => exact ih h.2
  | write _ ih => exact ih h.2.1
  | writeLost hf e _ ih => exact ih (h.2.2 hf e).1
  | writeKept hf e _ ih => exact ih (h.2.2 hf e).2
  | flush _ ih => exact ih h.2.1
  | flushFailed hf e _ ih => exact ih (h.2.2 hf e)
  | call => exact h.elim
  | callCut => exact h.elim

theorem Prog.Safe.mono {Q' : α → Cache S → Prop}
    (h : p.Safe faulty I Q σ) (hI : ∀ σ, I σ → J σ) (hQ : ∀ a σ, I σ → Q a σ → Q' a σ) :
    p.Safe faulty J Q' σ := by
  induction p generalizing σ with
  | pure a => exact ⟨hI _ h.1, hQ _ _ h.1 h.2⟩
  | read lba k ih => exact ⟨hI _ h.1, ih _ h.2⟩
  | write lba s k ih =>
    exact ⟨hI _ h.1, ih _ h.2.1, fun hf e => ⟨ih _ (h.2.2 hf e).1, ih _ (h.2.2 hf e).2⟩⟩
  | flush k ih => exact ⟨hI _ h.1, ih _ h.2.1, fun hf e => ih _ (h.2.2 hf e)⟩
  | call c k => exact h.elim

theorem Prog.Safe.bind {Q : β → Cache S → Prop}
    (h : p.Safe faulty I (fun a σ => (f a).Safe faulty I Q σ) σ) :
    (p.bind f).Safe faulty I Q σ := by
  induction p generalizing σ with
  | pure a => exact h.2
  | read lba k ih => exact ⟨h.1, ih _ h.2⟩
  | write lba s k ih =>
    exact ⟨h.1, ih _ h.2.1, fun hf e => ⟨ih _ (h.2.2 hf e).1, ih _ (h.2.2 hf e).2⟩⟩
  | flush k ih => exact ⟨h.1, ih _ h.2.1, fun hf e => ih _ (h.2.2 hf e)⟩
  | call c k => exact h.elim

/-! ### Crash safety, request by request -/

namespace Fallible

variable {ε : Type}

variable {m : Fallible S E C ε α}

theorem exec_bind_reads {callee : C → Cache S → Option (Except ε Unit) → Cache S → Prop}
    {f : α → Fallible S E C ε β} {t : List (C × Option (Except ε Unit))} {o : Option (Except ε β)}
    (h : m.run.Reads σ.view (.ok a)) (hx : Exec callee faulty (f a).run σ t o σ') :
    Exec callee faulty (m >>= f).run σ t o σ' :=
  Exec.bind (f := andThen f) h.exec hx

theorem exec_bind_error {callee : C → Cache S → Option (Except ε Unit) → Cache S → Prop}
    {f : α → Fallible S E C ε β} {e : ε} {t : List (C × Option (Except ε Unit))}
    (hx : Exec callee faulty m.run σ t (some (.error e)) σ') :
    Exec callee faulty (m >>= f).run σ t (some (.error e)) σ' := by
  have h := Exec.bind (f := andThen f) hx (.pure _ _)
  rwa [List.append_nil] at h

/-- `Prog.Safe` for a program that may end in an error. -/
def Safe (faulty : Prop) (I : Cache S → Prop) (m : Fallible S E C ε α)
    (Q : Except ε α → Cache S → Prop) (σ : Cache S) : Prop := m.run.Safe faulty I Q σ

/-- The postcondition of a first step, given what follows it. -/
def thenSafe (faulty : Prop) (I : Cache S → Prop) (f : α → Fallible S E C ε β)
    (Q : Except ε β → Cache S → Prop) : Except ε α → Cache S → Prop
  | .ok a, σ => (f a).Safe faulty I Q σ
  | .error e, σ => I σ ∧ Q (.error e) σ

@[simp] theorem thenSafe_ok (f : α → Fallible S E C ε β) (Q : Except ε β → Cache S → Prop) (a : α)
    (σ : Cache S) : thenSafe faulty I f Q (.ok a) σ = (f a).Safe faulty I Q σ := rfl

variable {wrap : E → ε} {σ : Cache S}

theorem safe_pure {Q : Except ε α → Cache S → Prop} (hI : I σ) (hQ : Q (.ok a) σ) :
    (pure a : Fallible S E C ε α).Safe faulty I Q σ := ⟨hI, hQ⟩

theorem safe_throw {e : ε} {Q : Except ε α → Cache S → Prop} (hI : I σ) (hQ : Q (.error e) σ) :
    (throw e : Fallible S E C ε α).Safe faulty I Q σ := ⟨hI, hQ⟩

/-- **Sequencing.** -/
theorem safe_bind {f : α → Fallible S E C ε β}
    {Q : Except ε β → Cache S → Prop} (h : m.Safe faulty I (thenSafe faulty I f Q) σ) :
    (m >>= f).Safe faulty I Q σ := by
  refine Prog.Safe.bind (f := andThen f) (Prog.Safe.mono h (fun _ => id) fun r σ _ hr => ?_)
  cases r with
  | ok a => exact hr
  | error e => exact hr

theorem safe_readSector {Q : Except ε S → Cache S → Prop} (hI : I σ) (hQ : Q (.ok (σ.view lba)) σ) :
    (readSector wrap lba : Fallible S E C ε S).Safe faulty I Q σ := ⟨hI, hI, hQ⟩

theorem safe_writeSector {s : S} {Q : Except ε Unit → Cache S → Prop} (hI : I σ)
    (hI' : I (σ.write lba s)) (hQ : Q (.ok ()) (σ.write lba s))
    (he : faulty → ∀ e, Q (.error (wrap e)) σ ∧ Q (.error (wrap e)) (σ.write lba s)) :
    (writeSector wrap lba s : Fallible S E C ε Unit).Safe faulty I Q σ :=
  ⟨hI, ⟨hI', hQ⟩, fun hf e => ⟨⟨hI, (he hf e).1⟩, ⟨hI', (he hf e).2⟩⟩⟩

theorem safe_flush {Q : Except ε Unit → Cache S → Prop} (hI : I σ) (hI' : I σ.sync)
    (hQ : Q (.ok ()) σ.sync) (he : faulty → ∀ e, Q (.error (wrap e)) σ) :
    (flush wrap : Fallible S E C ε Unit).Safe faulty I Q σ :=
  ⟨hI, ⟨hI', hQ⟩, fun hf e => ⟨hI, he hf e⟩⟩

/-- A list of writes, each allowed by the bound `B`. -/
theorem safe_writeSectors {B : ℕ → Set S} (hB : ∀ σ, σ.Within B → I σ)
    {Q : Except ε Unit → Cache S → Prop} (he : faulty → ∀ e σ, σ.Within B → Q (.error (wrap e)) σ)
    (ws : List (ℕ × S)) (hσ : σ.Within B) (hws : ∀ w ∈ ws, w.2 ∈ B w.1)
    (hQ : ∀ σ', σ'.Within B → σ'.view = applyWrites ws σ.view → Q (.ok ()) σ') :
    (writeSectors wrap ws : Fallible S E C ε Unit).Safe faulty I Q σ := by
  induction ws generalizing σ with
  | nil => exact safe_pure (hB σ hσ) (hQ σ hσ rfl)
  | cons w ws ih =>
    have hσ' : (σ.write w.1 w.2).Within B := hσ.write (hws w (by simp))
    refine safe_bind (safe_writeSector (hB _ hσ) (hB _ hσ') ?_ fun hf e =>
      ⟨⟨hB _ hσ, he hf e _ hσ⟩, hB _ hσ', he hf e _ hσ'⟩)
    refine ih hσ' (fun v hv => hws v (List.mem_cons_of_mem _ hv)) fun σ'' h hview => hQ _ h ?_
    rw [hview, Cache.view_write, applyWrites]

end Fallible

end BlockProgram
