import ImagineOS.BlockProgram.Cache

/-!
# Contracts for programs that make calls

A program that updates a device partly by itself and partly by calling another program is checked
against a *contract*: which sectors it may write itself, which calls it may make and when, and what
a successful call does to the disk. `Prog.Wp` walks through the program on a device that answers
every request, and asks for three things on the way: writes and calls stay within the contract, a
request that is answered by an error ends the program at once with an error, and the result
satisfies the postcondition.
-/

namespace BlockProgram

variable {S E C ε α β : Type}

/-- What a program may do besides reading and flushing. -/
structure Contract (S C : Type) where
  /-- What a successful call does to the disk. -/
  effect : C → (ℕ → S) → ℕ → S
  /-- The sectors the program may write itself. -/
  writable : ℕ → Prop
  /-- The calls it may make, given the disk it makes them on. -/
  callable : C → (ℕ → S) → Prop

namespace Prog

/-- The program ends at once with an error. -/
def Aborts (p : Prog S E C (Except ε Unit) (Except ε α)) : Prop := ∃ e, p = .pure (.error e)

/-- The program keeps to the contract, ends at once when a request fails, and ends with `Q` when
none does. -/
def Wp (𝒞 : Contract S C) : Prog S E C (Except ε Unit) (Except ε α) →
    (Except ε α → (ℕ → S) → Prop) → (ℕ → S) → Prop
  | .pure a, Q, d => Q a d
  | .read lba k, Q, d => (k (.ok (d lba))).Wp 𝒞 Q d
  | .write lba s k, Q, d => 𝒞.writable lba ∧ (∀ e, (k (.error e)).Aborts) ∧
      (k (.ok ())).Wp 𝒞 Q (Function.update d lba s)
  | .flush k, Q, d => (∀ e, (k (.error e)).Aborts) ∧ (k (.ok ())).Wp 𝒞 Q d
  | .call c k, Q, d => 𝒞.callable c d ∧ (∀ e, (k (.error e)).Aborts) ∧
      (k (.ok ())).Wp 𝒞 Q (𝒞.effect c d)

variable {𝒞 : Contract S C}

variable {p : Prog S E C (Except ε Unit) (Except ε α)} {Q : Except ε α → (ℕ → S) → Prop} {d : ℕ → S}

theorem Wp.mono {Q' : Except ε α → (ℕ → S) → Prop} (h : p.Wp 𝒞 Q d)
    (hQ : ∀ a d, Q a d → Q' a d) : p.Wp 𝒞 Q' d := by
  induction p generalizing d with
  | pure a => exact hQ _ _ h
  | read lba k ih => exact ih _ h
  | write lba s k ih => exact ⟨h.1, h.2.1, ih _ h.2.2⟩
  | flush k ih => exact ⟨h.1, ih _ h.2⟩
  | call c k ih => exact ⟨h.1, h.2.1, ih _ h.2.2⟩

theorem Reads.wp {a : Except ε α} (h : p.Reads d a) :
    p.Wp 𝒞 Q d ↔ Q a d := by
  induction p with
  | pure a' => exact h ▸ Iff.rfl
  | read lba k ih => exact ih _ h
  | _ => exact h.elim

/-- **On a device that never fails** the program ends with its postcondition. -/
theorem Wp.run (callee : C → (ℕ → S) → Except ε Unit × (ℕ → S))
    (h : p.Wp 𝒞 Q d) (hcallee : ∀ c d, 𝒞.callable c d → callee c d = (.ok (), 𝒞.effect c d)) :
    Q (p.run callee d).1 (p.run callee d).2 := by
  induction p generalizing d with
  | pure a => exact h
  | read lba k ih => exact ih _ h
  | write lba s k ih => exact ih _ h.2.2
  | flush k ih => exact ih _ h.2
  | call c k ih =>
    simp only [Prog.run, hcallee c d h.1]
    exact ih _ h.2.2

end Prog

/-! ### On a device that fails or loses power -/

variable {faulty : Prop} {σ σ' : Cache S} {o : Option (Except ε α)}

theorem Exec.of_aborts {R : Type} {callee : C → Cache S → Option R → Cache S → Prop}
    {e : ε} {t : List (C × Option R)}
    (hx : Exec callee faulty (.pure (.error e) : Prog S E C R (Except ε α)) σ t o σ') :
    t = [] ∧ σ' = σ ∧ ∀ a, o = some a → a = .error e := by
  cases hx with
  | stop => exact ⟨rfl, rfl, by simp⟩
  | pure => exact ⟨rfl, rfl, by rintro _ ⟨⟩; rfl⟩

/-- How far a run came before a call did not succeed: every call so far succeeded and the invariant
holds, or the last call failed or was cut and nothing happened after it. -/
inductive Settled (callee : C → Cache S → Option (Except ε Unit) → Cache S → Prop) (faulty : Prop)
    (𝒞 : Contract S C) (J : List C → Cache S → Prop) (Q : Except ε α → (ℕ → S) → Prop)
    (h : List C) (t : List (C × Option (Except ε Unit))) (o : Option (Except ε α))
    (σ' : Cache S) : Prop
  | settled (cs : List C) (ht : t = cs.map fun c => (c, some (.ok ()))) (hJ : J (h ++ cs) σ')
      (ho : ∀ a, o = some a → Q a σ'.view ∨ faulty ∧ ∃ e, a = .error e)
  | broken (cs : List C) (c : C) (r : Option (Except ε Unit)) (σ₁ : Cache S)
      (ht : t = cs.map (fun c => (c, some (.ok ()))) ++ [(c, r)]) (hr : r ≠ some (.ok ()))
      (hcut : r = none → o = none)
      (hJ : J (h ++ cs) σ₁) (hc : 𝒞.callable c σ₁.view) (hcallee : callee c σ₁ r σ')
      (ho : ∀ a, o = some a → ∃ e, a = .error e)

variable {callee : C → Cache S → Option (Except ε Unit) → Cache S → Prop}
  {t : List (C × Option (Except ε Unit))}

theorem Settled.cons {𝒞 : Contract S C} {J : List C → Cache S → Prop}
    {Q : Except ε α → (ℕ → S) → Prop} {h : List C} {c : C}
    (hs : Settled callee faulty 𝒞 J Q (h ++ [c]) t o σ') :
    Settled callee faulty 𝒞 J Q h ((c, some (.ok ())) :: t) o σ' := by
  cases hs with
  | settled cs ht hJ ho => exact .settled (c :: cs) (by simp [ht]) (by simpa using hJ) ho
  | broken cs c' r σ₁ ht hr hcut hJ hc hcallee ho =>
    exact .broken (c :: cs) c' r σ₁ (by simp [ht]) hr hcut (by simpa using hJ) hc hcallee ho

/-- **What `Wp` means on a device that fails or loses power.** The invariant is indexed by the
calls that have succeeded so far. -/
theorem Prog.Wp.settled_or_broken
    {𝒞 : Contract S C} {J : List C → Cache S → Prop} {Q : Except ε α → (ℕ → S) → Prop}
    (hwrite : ∀ h σ lba s, J h σ → 𝒞.writable lba → J h (σ.write lba s))
    (hsync : ∀ h σ, J h σ → J h σ.sync)
    (hcall : ∀ h σ c σ', J h σ → 𝒞.callable c σ.view → callee c σ (some (.ok ())) σ' →
      J (h ++ [c]) σ' ∧ σ'.view = 𝒞.effect c σ.view)
    {p : Prog S E C (Except ε Unit) (Except ε α)}
    (hx : Exec callee faulty p σ t o σ') {h : List C} (hJ : J h σ) (hp : p.Wp 𝒞 Q σ.view) :
    Settled callee faulty 𝒞 J Q h t o σ' := by
  induction hx generalizing h with
  | stop p σ => exact .settled [] rfl (by simpa using hJ) (by simp)
  | pure a σ =>
    refine .settled [] rfl (by simpa using hJ) ?_
    rintro _ ⟨⟩
    exact Or.inl hp
  | read _ ih => exact ih hJ hp
  | @write lba s k σ _ _ _ _ ih =>
    refine ih (hwrite _ _ _ _ hJ hp.1) ?_
    rw [Cache.view_write]
    exact hp.2.2
  | @writeLost lba s k σ σ' t o hf e hx _ =>
    obtain ⟨e', he⟩ := hp.2.1 e
    rw [he] at hx
    obtain ⟨rfl, rfl, ho⟩ := hx.of_aborts
    exact .settled [] rfl (by simpa using hJ) fun a ha => Or.inr ⟨hf, e', ho a ha⟩
  | @writeKept lba s k σ σ' t o hf e hx _ =>
    obtain ⟨e', he⟩ := hp.2.1 e
    rw [he] at hx
    obtain ⟨rfl, rfl, ho⟩ := hx.of_aborts
    exact .settled [] rfl (by simpa using hwrite _ _ _ _ hJ hp.1)
      fun a ha => Or.inr ⟨hf, e', ho a ha⟩
  | flush _ ih => exact ih (hsync _ _ hJ) hp.2
  | @flushFailed k σ σ' t o hf e hx _ =>
    obtain ⟨e', he⟩ := hp.1 e
    rw [he] at hx
    obtain ⟨rfl, rfl, ho⟩ := hx.of_aborts
    exact .settled [] rfl (by simpa using hJ) fun a ha => Or.inr ⟨hf, e', ho a ha⟩
  | @call c k r σ σ₁ σ' t o hc hx ih =>
    cases r with
    | ok u =>
      obtain ⟨hJ₁, hview⟩ := hcall _ _ _ _ hJ hp.1 hc
      refine (ih hJ₁ ?_).cons
      rw [hview]
      exact hp.2.2
    | error e =>
      obtain ⟨e', he⟩ := hp.2.1 e
      rw [he] at hx
      obtain ⟨rfl, rfl, ho⟩ := hx.of_aborts
      exact .broken [] c _ σ rfl (by simp) (by simp) (by simpa using hJ) hp.1 hc
        fun a ha => ⟨e', ho a ha⟩
  | @callCut c k σ σ' hc =>
    exact .broken [] c none σ rfl (by simp) (fun _ => rfl) (by simpa using hJ) hp.1 hc (by simp)

/-! ### Rules for programs that may end in an error -/

namespace Fallible

variable {𝒞 : Contract S C}

/-- `Prog.Wp` for a program that may end in an error. -/
def Wp (𝒞 : Contract S C) (m : Fallible S E C ε α) (Q : Except ε α → (ℕ → S) → Prop)
    (d : ℕ → S) : Prop := m.run.Wp 𝒞 Q d

/-- The postcondition of a first step, given what follows it. -/
def thenWp (𝒞 : Contract S C) (f : α → Fallible S E C ε β) (Q : Except ε β → (ℕ → S) → Prop) :
    Except ε α → (ℕ → S) → Prop
  | .ok a, d => (f a).Wp 𝒞 Q d
  | .error e, d => Q (.error e) d

@[simp] theorem thenWp_ok (f : α → Fallible S E C ε β) (Q : Except ε β → (ℕ → S) → Prop) (a : α)
    (d : ℕ → S) : thenWp 𝒞 f Q (.ok a) d = (f a).Wp 𝒞 Q d := rfl

variable {Q Q' : Except ε α → (ℕ → S) → Prop} {d : ℕ → S}

variable {m : Fallible S E C ε α}

theorem Wp.mono (h : m.Wp 𝒞 Q d) (hQ : ∀ a d, Q a d → Q' a d) :
    m.Wp 𝒞 Q' d := Prog.Wp.mono h hQ

@[simp] theorem wp_pure {a : α} : (pure a : Fallible S E C ε α).Wp 𝒞 Q d ↔ Q (.ok a) d := Iff.rfl

@[simp] theorem wp_throw {e : ε} :
    (throw e : Fallible S E C ε α).Wp 𝒞 Q d ↔ Q (.error e) d := Iff.rfl

variable {f : α → Fallible S E C ε β}

private theorem wp_andThen {p : Prog S E C (Except ε Unit) (Except ε α)}
    {Q : Except ε β → (ℕ → S) → Prop}
    (h : p.Wp 𝒞 (thenWp 𝒞 f Q) d) : (p.bind (andThen f)).Wp 𝒞 Q d := by
  have habort : ∀ q : Prog S E C (Except ε Unit) (Except ε α), q.Aborts →
      (q.bind (andThen f)).Aborts := by
    rintro _ ⟨e, rfl⟩
    exact ⟨e, rfl⟩
  induction p generalizing d with
  | pure a => cases a <;> exact h
  | read lba k ih => exact ih _ h
  | write lba s k ih => exact ⟨h.1, fun e => habort _ (h.2.1 e), ih _ h.2.2⟩
  | flush k ih => exact ⟨fun e => habort _ (h.1 e), ih _ h.2⟩
  | call c k ih => exact ⟨h.1, fun e => habort _ (h.2.1 e), ih _ h.2.2⟩

/-- **Sequencing.** -/
theorem wp_bind
    {Q : Except ε β → (ℕ → S) → Prop} (h : m.Wp 𝒞 (thenWp 𝒞 f Q) d) : (m >>= f).Wp 𝒞 Q d :=
  wp_andThen h

theorem wp_bind_of_eq {Q : Except ε β → (ℕ → S) → Prop} {r : Except ε α}
    (hm : m.Wp 𝒞 (fun r' d' => r' = r ∧ d' = d) d) (h : thenWp 𝒞 f Q r d) : (m >>= f).Wp 𝒞 Q d :=
  wp_bind (hm.mono (by rintro _ _ ⟨rfl, rfl⟩; exact h))

variable {wrap : E → ε}

@[simp] theorem wp_readSector {lba : ℕ} {Q : Except ε S → (ℕ → S) → Prop} :
    (readSector wrap lba : Fallible S E C ε S).Wp 𝒞 Q d ↔ Q (.ok (d lba)) d := Iff.rfl

theorem wp_writeSector {lba : ℕ} {s : S} {Q : Except ε Unit → (ℕ → S) → Prop} :
    (writeSector wrap lba s : Fallible S E C ε Unit).Wp 𝒞 Q d ↔
      𝒞.writable lba ∧ Q (.ok ()) (Function.update d lba s) :=
  ⟨fun h => ⟨h.1, h.2.2⟩, fun h => ⟨h.1, fun e => ⟨wrap e, rfl⟩, h.2⟩⟩

theorem wp_flush {Q : Except ε Unit → (ℕ → S) → Prop} :
    (flush wrap : Fallible S E C ε Unit).Wp 𝒞 Q d ↔ Q (.ok ()) d :=
  ⟨fun h => h.2, fun h => ⟨fun e => ⟨wrap e, rfl⟩, h⟩⟩

theorem wp_call {c : C} {Q : Except ε Unit → (ℕ → S) → Prop} :
    (call c : Fallible S E C ε Unit).Wp 𝒞 Q d ↔ 𝒞.callable c d ∧ Q (.ok ()) (𝒞.effect c d) :=
  ⟨fun h => ⟨h.1, h.2.2⟩, fun h => ⟨h.1, fun e => ⟨e, rfl⟩, h.2⟩⟩

theorem wp_writeSectors {ws : List (ℕ × S)} {Q : Except ε Unit → (ℕ → S) → Prop}
    (hws : ∀ w ∈ ws, 𝒞.writable w.1) (hQ : Q (.ok ()) (applyWrites ws d)) :
    (writeSectors wrap ws : Fallible S E C ε Unit).Wp 𝒞 Q d := by
  induction ws generalizing d with
  | nil => exact wp_pure.mpr hQ
  | cons w ws ih =>
    refine wp_bind (wp_writeSector.mpr ⟨hws w (by simp), ?_⟩)
    exact ih (fun v hv => hws v (List.mem_cons_of_mem _ hv)) hQ

/-- A program that makes no calls keeps to this contract whatever it writes. -/
def anyWrite : Contract S Empty where
  effect := fun c => c.elim
  writable := fun _ => True
  callable := fun _ _ => True

/-- **A run that ends without an error** on a device that fails or loses power does what the run on
a device that never fails does. -/
theorem Wp.of_exec {m : Fallible S E Empty ε α}
    {t : List (Empty × Option (Except ε Unit))} {a : α} (h : m.Wp anyWrite Q σ.view)
    (hx : Exec noCallee faulty m.run σ t (some (.ok a)) σ') : Q (.ok a) σ'.view := by
  have hs : Settled noCallee faulty anyWrite (fun _ _ => True) Q [] t (some (.ok a)) σ' :=
    Prog.Wp.settled_or_broken (fun _ _ _ _ _ _ => trivial) (fun _ _ _ => trivial)
      (fun _ _ c => c.elim) hx trivial h
  cases hs with
  | settled cs ht hJ ho =>
    rcases ho _ rfl with hQ | ⟨-, e, he⟩
    · exact hQ
    · cases he
  | broken cs c => exact c.elim

end Fallible

end BlockProgram
