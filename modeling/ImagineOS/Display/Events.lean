import ImagineOS.Exec.Status
import ImagineOS.Exec.SignalRuns
import ImagineOS.Ring

/-!
# Display: events of surfaces

The display server sends events to the owners of surfaces. The kernel has a queue for each remainder
of pids modulo the number of processes, and a process that ends empties the one of its pid. So two
live processes may share a queue; every process gets its own events only, in the order in which they
were pushed and at most once, as long as this does not happen while something is queued
(`confined_of_apart`).
-/

namespace ImagineOS.Display

open Exec Function List

/-! ### Surfaces and queues -/

abbrev maxSurfaces : ℕ := 8

abbrev eventQueue : ℕ := 16

def surfaceMaxWidth : ℕ := 320

def surfaceMaxHeight : ℕ := 200

structure SurfaceEvent where
  surface : BitVec 32
  kind : BitVec 32
  x : BitVec 32
  y : BitVec 32
  button : BitVec 32
  pressed : BitVec 32
  key : BitVec 32
  deriving DecidableEq

/-- An event in a queue. It is remembered how many events were pushed before, and which process
owned the surface then, by the number of its creation. The source has no such fields. -/
structure Queued where
  event : SurfaceEvent
  stamp : ℕ
  owner : ℕ
  deriving DecidableEq

/-- `Surface`: who owns it, and where its buffer is. -/
structure Surface where
  pid : ℕ
  physical : ℕ
  deriving DecidableEq

/-- `Surface::EMPTY` -/
def Surface.empty : Surface := ⟨0, 0⟩

/-- `Surfaces`, among the processes. -/
structure Surfaces where
  sys : System
  slots : Fin maxSurfaces → Surface
  events : Fin maxProcesses → Ring Queued eventQueue
  /-- The number of events that were pushed. -/
  stamps : ℕ
  /-- What each process should find queued: the last events that were pushed for its surfaces and
  that it has not taken. -/
  own : ℕ → List Queued
  /-- What was returned, and to whom. -/
  returned : List (ℕ × Queued)

/-- The queue of a process. -/
def queueOf (pid : ℕ) : Fin maxProcesses := Fin.ofNat maxProcesses pid

namespace Surfaces

def find (surface : BitVec 32) (x : Surfaces) : Option (Fin maxSurfaces) :=
  if h : surface.toNat < maxSurfaces then
    if (x.slots ⟨surface.toNat, h⟩).physical = 0 then none else some ⟨surface.toNat, h⟩
  else none

/-- `create`, when `buffer` is what the allocator and the mapping of the buffer give. -/
def create (width height : ℕ) (buffer : Option ℕ) (x : Surfaces) : ℤ × Surfaces :=
  if width = 0 ∨ height = 0 ∨ surfaceMaxWidth < width ∨ surfaceMaxHeight < height then (-22, x)
  else match (List.finRange maxSurfaces).find? fun k => (x.slots k).physical = 0 with
  | none => (-28, x)
  | some slot =>
    match buffer with
    | none => (-28, x)
    | some physical =>
      (0, { x with slots := Function.update x.slots slot ⟨x.sys.self.pid, physical⟩ })

def destroy (surface : BitVec 32) (x : Surfaces) : ℤ × Surfaces :=
  match x.find surface with
  | none => (-2, x)
  | some slot =>
    if (x.slots slot).pid ≠ x.sys.self.pid then (-22, x)
    else (0, { x with slots := Function.update x.slots slot .empty })

/-- The live process with a pid. -/
def holder (pid : ℕ) (x : Surfaces) : Option (Fin maxProcesses) :=
  (List.finRange maxProcesses).find? fun i => x.sys.Live i ∧ (x.sys.processes i).pid = pid

/-- A queue with one more event, as far as there is room. -/
def enqueue (l : List Queued) (q : Queued) : List Queued :=
  (if l.length = eventQueue then l.tail else l) ++ [q]

def pushEventToSurface (surface : BitVec 32) (event : SurfaceEvent) (x : Surfaces) : ℤ × Surfaces :=
  match x.find surface with
  | none => (-2, x)
  | some slot =>
    let pid := (x.slots slot).pid
    let owner := (x.holder pid).elim 0 fun i => (x.sys.processes i).history.birth
    let queued : Queued := ⟨event, x.stamps, owner⟩
    (0, { x with
      events := Function.update x.events (queueOf pid) ((x.events (queueOf pid)).push queued)
      stamps := x.stamps + 1
      own := Function.update x.own owner (enqueue (x.own owner) queued) })

/-- An event is pushed for a process. -/
def pushTo (x : Surfaces) (c : Fin maxProcesses) (event : SurfaceEvent) : Surfaces :=
  let p := x.sys.processes c
  let queued : Queued := ⟨event, x.stamps, p.history.birth⟩
  { x with
    events := Function.update x.events (queueOf p.pid) ((x.events (queueOf p.pid)).push queued)
    stamps := x.stamps + 1
    own := Function.update x.own p.history.birth (enqueue (x.own p.history.birth) queued) }

def popEvent (x : Surfaces) : Option SurfaceEvent × Surfaces :=
  let queue := queueOf x.sys.self.pid
  let birth := x.sys.self.history.birth
  let (queued, rest) := (x.events queue).pop
  (queued.map (·.event), { x with
    events := Function.update x.events queue rest
    own := Function.update x.own birth (x.own birth).tail
    returned := x.returned ++ (queued.map (birth, ·)).toList })

/-- `release_pid`, for the process in a slot of a former state. -/
def releasePid (s : System) (x : Surfaces) (i : Fin maxProcesses) : Surfaces :=
  let pid := (s.processes i).pid
  { x with
    slots := fun k => if (x.slots k).pid = pid then .empty else x.slots k
    events := Function.update x.events (queueOf pid) .empty
    own := Function.update x.own (s.processes i).history.birth [] }

/-- The processes that end between two states. `schedule` releases what they have. -/
def ended (s s' : System) : List (Fin maxProcesses) :=
  (List.finRange maxProcesses).filter fun i => s.Live i ∧ ¬ s'.Live i

/-- The processes go on. -/
def settle (s' : System) (x : Surfaces) : Surfaces :=
  (ended x.sys s').foldl (releasePid x.sys) { x with sys := s' }

/-- What happens. -/
inductive Input
  | event (e : Event)
  | create (width height : ℕ) (buffer : Option ℕ) (writable : Bool)
  | destroy (surface : BitVec 32) (writable : Bool)
  | sendEvent (event : SurfaceEvent) (writable : Bool)
  | poll (writable : Bool)

/-- What a call does to surfaces and queues. -/
def calls (x : Surfaces) : Input → Surfaces
  | .event _ => x
  | .create width height buffer _ => (x.create width height buffer).2
  | .destroy surface _ => (x.destroy surface).2
  | .sendEvent event _ => (x.pushEventToSurface event.surface event).2
  | .poll _ => x.popEvent.2

section Next

variable (pbkdf2 : List UInt8 → List UInt8 → ℕ → Option (List UInt8))

/-- What becomes of the processes: after a call, the signals of its caller are delivered. -/
def processes (o : Input) (s : System) : System :=
  match o with
  | .event e => step pbkdf2 e s
  | .create _ _ _ writable | .destroy _ writable | .sendEvent _ writable | .poll writable =>
    deliverPendingSignal writable s

def next (o : Input) (x : Surfaces) : Surfaces := (x.calls o).settle (processes pbkdf2 o x.sys)

/-- The kernel has started `init`. -/
def boot : Surfaces where
  sys := .boot
  slots _ := .empty
  events _ := .empty
  stamps := 0
  own _ := []
  returned := []

/-- The states that runs reach, when all states are allowed, those within calls among them. -/
inductive Reaches (allowed : Surfaces → Prop) : Surfaces → Prop
  | boot : Reaches allowed boot
  | next {x : Surfaces} (h : Reaches allowed x) (o : Input) (hrun : x.sys.halted = false)
      (hcalls : allowed (x.calls o)) (hnext : allowed (x.next pbkdf2 o)) :
      Reaches allowed (x.next pbkdf2 o)

end Next

/-- **Every process gets its own events only**: what was returned to a process was pushed for its
surfaces, and in the order in which it was returned; and what should be queued for a live process is
queued, whoever else has polled or ended. -/
structure Confined (x : Surfaces) : Prop where
  owner : ∀ r ∈ x.returned, r.2.owner = r.1
  order : ∀ b, ((x.returned.filter (·.1 = b)).map (·.2.stamp)).Pairwise (· < ·)
  queued : ∀ i, x.sys.Live i → (x.events (queueOf (x.sys.processes i).pid)).Holds
    (x.own (x.sys.processes i).history.birth)

/-- **The condition**: live processes do not share a queue that holds something. -/
def Apart (x : Surfaces) : Prop :=
  ∀ i j, x.sys.Live i → x.sys.Live j → i ≠ j →
    queueOf (x.sys.processes i).pid = queueOf (x.sys.processes j).pid →
    (x.events (queueOf (x.sys.processes i).pid)).length = 0

end Surfaces

/-! ### Processes that go on -/

/-- The processes go on: whoever lives afterwards did so before, or is new. -/
structure Goes (s s' : System) : Prop where
  sound : Sound s'
  births : s.births ≤ s'.births
  origin : ∀ i, s'.Live i →
    (s.Live i ∧ (s'.processes i).pid = (s.processes i).pid ∧
      (s'.processes i).history.birth = (s.processes i).history.birth) ∨
    (¬ s.Live i ∧ s.births ≤ (s'.processes i).history.birth)

section Events

variable {pbkdf2 : List UInt8 → List UInt8 → ℕ → Option (List UInt8)} {s s' : System}
  {x : Surfaces} {i j : Fin maxProcesses} {k : Fin maxProcesses} {l : List Queued}

theorem goes_step (hs : Sound s) (hrun : s.halted = false) (e : Event) :
    Goes s (step pbkdf2 e s) := by
  refine ⟨hs.step hrun e, births_le_step e s, fun i hi => ?_⟩
  rcases step_origin hs hrun hi.1 with ⟨hold, hsame⟩ | ⟨hslot, hbirth, -, -⟩
  · refine Or.inl ⟨⟨hold, Bool.eq_false_iff.mpr fun hzombie => ?_⟩, hsame.pid, hsame.birth⟩
    exact absurd ((step_zombie hs hrun hold hzombie hi.1).symm.trans hi.2) (by simp)
  · refine Or.inr ⟨fun hlive => ?_, hbirth.ge⟩
    exact absurd (hlive.1.symm.trans (freeSlot_inactive hslot)) (by simp)

theorem goes_deliver (hs : Sound s) (writable : Bool) :
    Goes s (deliverPendingSignal writable s) := by
  obtain ⟨hsettles, hruns⟩ := deliverPendingSignal_spec writable s
  refine ⟨SettlesWell.sound ⟨hsettles, hruns⟩ hs, hsettles.births.ge, fun i hi => Or.inl ?_⟩
  obtain ⟨z, n, hcore⟩ := hsettles.core i
  have hactive : (s.processes i).active = true := (congrArg Core.active hcore).symm.trans hi.1
  refine ⟨⟨hactive, Bool.eq_false_iff.mpr fun hzombie => ?_⟩, congrArg Core.pid hcore,
    congrArg (·.history.birth) hcore⟩
  exact absurd ((hsettles.zombie (i := i) hzombie).symm.trans hi.2) (by simp)

theorem goes_processes (hs : Sound s) (hrun : s.halted = false) (o : Surfaces.Input) :
    Goes s (Surfaces.processes pbkdf2 o s) := by
  cases o with
  | event e => exact goes_step hs hrun e
  | create | destroy | sendEvent | poll => exact goes_deliver hs _

/-! ### Ends -/

theorem mem_ended : i ∈ Surfaces.ended s s' ↔ s.Live i ∧ ¬ s'.Live i := by
  simp [Surfaces.ended]

theorem slots_release (l : List (Fin maxProcesses)) (x : Surfaces) (k : Fin maxSurfaces) :
    ((l.foldl (Surfaces.releasePid s) x).slots k).physical ≠ 0 →
      (l.foldl (Surfaces.releasePid s) x).slots k = x.slots k ∧
        ∀ i ∈ l, (s.processes i).pid ≠ (x.slots k).pid := by
  induction l generalizing x with
  | nil => exact fun _ => ⟨rfl, fun i hi => absurd hi not_mem_nil⟩
  | cons i l ih =>
    intro h
    obtain ⟨heq, hne⟩ := ih (Surfaces.releasePid s x i) h
    rw [foldl_cons] at h ⊢
    rw [heq] at h ⊢
    simp only [Surfaces.releasePid] at h hne ⊢
    split at h
    · exact absurd rfl h
    · rename_i hpid
      simp only [if_neg hpid] at hne ⊢
      exact ⟨trivial, forall_mem_cons.mpr ⟨fun he => hpid he.symm, hne⟩⟩

theorem events_release (l : List (Fin maxProcesses)) (x : Surfaces) (k : Fin maxProcesses) :
    (l.foldl (Surfaces.releasePid s) x).events k =
      if ∃ i ∈ l, queueOf (s.processes i).pid = k then .empty else x.events k := by
  induction l generalizing x with
  | nil => simp
  | cons i l ih =>
    rw [foldl_cons, ih]
    by_cases hl : ∃ i ∈ l, queueOf (s.processes i).pid = k
    · rw [if_pos hl, if_pos (hl.imp fun _ h => ⟨mem_cons_of_mem _ h.1, h.2⟩)]
    rw [if_neg hl]
    by_cases hi : queueOf (s.processes i).pid = k
    · rw [if_pos ⟨i, mem_cons_self, hi⟩, Surfaces.releasePid, hi]
      exact update_self _ _ _
    · rw [if_neg fun ⟨j, hj, hk⟩ => (mem_cons.mp hj).elim
        (fun he => hi (he ▸ hk)) fun hj => hl ⟨j, hj, hk⟩]
      exact update_of_ne (fun he => hi he.symm) _ _

theorem own_release (l : List (Fin maxProcesses)) (x : Surfaces) (b : ℕ) :
    (l.foldl (Surfaces.releasePid s) x).own b =
      if ∃ i ∈ l, (s.processes i).history.birth = b then [] else x.own b := by
  induction l generalizing x with
  | nil => simp
  | cons i l ih =>
    rw [foldl_cons, ih]
    by_cases hl : ∃ i ∈ l, (s.processes i).history.birth = b
    · rw [if_pos hl, if_pos (hl.imp fun _ h => ⟨mem_cons_of_mem _ h.1, h.2⟩)]
    rw [if_neg hl]
    by_cases hi : (s.processes i).history.birth = b
    · rw [if_pos ⟨i, mem_cons_self, hi⟩, Surfaces.releasePid, hi]
      exact update_self _ _ _
    · rw [if_neg fun ⟨j, hj, hk⟩ => (mem_cons.mp hj).elim
        (fun he => hi (he ▸ hk)) fun hj => hl ⟨j, hj, hk⟩]
      exact update_of_ne (fun he => hi he.symm) _ _

theorem rest_release (l : List (Fin maxProcesses)) (x : Surfaces) :
    (l.foldl (Surfaces.releasePid s) x).sys = x.sys ∧
      (l.foldl (Surfaces.releasePid s) x).stamps = x.stamps ∧
      (l.foldl (Surfaces.releasePid s) x).returned = x.returned := by
  induction l generalizing x with
  | nil => exact ⟨rfl, rfl, rfl⟩
  | cons i l ih => exact ih (Surfaces.releasePid s x i)

/-! ### The invariant -/

/-- The stamps of what a process was returned and of what it should find queued. -/
def Surfaces.stampsOf (x : Surfaces) (b : ℕ) : List ℕ :=
  (x.returned.filter (·.1 = b)).map (·.2.stamp) ++ (x.own b).map (·.stamp)

/-- **The invariant of runs**: surfaces belong to live processes, and queues without one are empty.
-/
structure Tidy (x : Surfaces) : Prop where
  sound : Sound x.sys
  slots : ∀ k, (x.slots k).physical ≠ 0 →
    ∃ i, x.sys.Live i ∧ (x.sys.processes i).pid = (x.slots k).pid
  queued : ∀ i, x.sys.Live i → (x.events (queueOf (x.sys.processes i).pid)).Holds
    (x.own (x.sys.processes i).history.birth)
  empty : ∀ k, (∀ i, x.sys.Live i → queueOf (x.sys.processes i).pid ≠ k) → (x.events k).Holds []
  fresh : ∀ b, x.sys.births ≤ b → x.own b = []
  owner : ∀ b, ∀ q ∈ x.own b, q.owner = b
  returned : ∀ r ∈ x.returned, r.2.owner = r.1
  ordered : ∀ b, (x.stampsOf b).Pairwise (· < ·) ∧ ∀ n ∈ x.stampsOf b, n < x.stamps

theorem Tidy.birth_ne (h : Tidy x) (hi : x.sys.Live i) (hj : x.sys.Live j) (hne : i ≠ j) :
    (x.sys.processes i).history.birth ≠ (x.sys.processes j).history.birth :=
  fun he => hne (h.sound.identity.birth i j hi.1 hj.1 he)

theorem Tidy.own_shared (h : Tidy x) (hapart : x.Apart) (hi : x.sys.Live i) (hj : x.sys.Live j)
    (hne : i ≠ j) (hqueue : queueOf (x.sys.processes i).pid = queueOf (x.sys.processes j).pid) :
    x.own (x.sys.processes j).history.birth = [] := by
  refine (h.queued j hj).eq_nil ?_
  rw [← hqueue]
  exact hapart i j hi hj hne hqueue

theorem Tidy.withSlots (h : Tidy x) {slots : Fin maxSurfaces → Surface}
    (hslots : ∀ k, (slots k).physical ≠ 0 →
      ∃ i, x.sys.Live i ∧ (x.sys.processes i).pid = (slots k).pid) :
    Tidy { x with slots := slots } :=
  ⟨h.sound, hslots, h.queued, h.empty, h.fresh, h.owner, h.returned, h.ordered⟩

theorem Tidy.create (h : Tidy x) (hself : x.sys.Live x.sys.current) (width height : ℕ)
    (buffer : Option ℕ) : Tidy (x.create width height buffer).2 := by
  rw [Surfaces.create]
  split
  · exact h
  split
  · exact h
  split
  · exact h
  rename_i slot _ _ physical
  refine h.withSlots fun k hk => ?_
  by_cases hslot : k = slot
  · rw [hslot, update_self]
    exact ⟨x.sys.current, hself, rfl⟩
  · rw [update_of_ne hslot] at hk ⊢
    exact h.slots k hk

theorem Tidy.destroy (h : Tidy x) (surface : BitVec 32) : Tidy (x.destroy surface).2 := by
  rw [Surfaces.destroy]
  split
  · exact h
  split
  · exact h
  rename_i slot _ _
  refine h.withSlots fun k hk => ?_
  by_cases hslot : k = slot
  · rw [hslot, update_self] at hk
    exact absurd rfl hk
  · rw [update_of_ne hslot] at hk ⊢
    exact h.slots k hk

theorem physical_of_find {surface : BitVec 32} {slot : Fin maxSurfaces}
    (h : x.find surface = some slot) : (x.slots slot).physical ≠ 0 := by
  rw [Surfaces.find] at h
  split at h
  · split at h
    · cases h
    · rename_i hphysical
      rw [← Option.some.inj h]
      exact hphysical
  · cases h

theorem Tidy.holder (h : Tidy x) {slot : Fin maxSurfaces} (hslot : (x.slots slot).physical ≠ 0) :
    ∃ i, x.holder (x.slots slot).pid = some i ∧ x.sys.Live i ∧
      (x.sys.processes i).pid = (x.slots slot).pid := by
  obtain ⟨j, hj, hpid⟩ := h.slots slot hslot
  have hsome : (x.holder (x.slots slot).pid).isSome := by
    rw [Surfaces.holder, List.find?_isSome]
    exact ⟨j, mem_finRange j, by simpa using ⟨hj, hpid⟩⟩
  obtain ⟨i, hi⟩ := Option.isSome_iff_exists.mp hsome
  have hspec := List.find?_some hi
  simp only [decide_eq_true_eq] at hspec
  exact ⟨i, hi, hspec.1, hspec.2⟩

theorem Tidy.push_eq (h : Tidy x) (surface : BitVec 32) (event : SurfaceEvent) :
    (x.pushEventToSurface surface event).2 = x ∨ ∃ c, x.sys.Live c ∧
      (x.pushEventToSurface surface event).2 = x.pushTo c event := by
  rw [Surfaces.pushEventToSurface]
  split
  · exact Or.inl rfl
  · rename_i slot hfind
    obtain ⟨c, hholder, hc, hpid⟩ := h.holder (physical_of_find hfind)
    refine Or.inr ⟨c, hc, ?_⟩
    simp only [hholder, Option.elim_some]
    rw [Surfaces.pushTo, hpid]

theorem enqueue_sublist (l : List Queued) (q : Queued) :
    (Surfaces.enqueue l q).Sublist (l ++ [q]) := by
  rw [Surfaces.enqueue]
  split
  · exact (tail_sublist l).append (List.Sublist.refl _)
  · exact List.Sublist.refl _

/-- **Pushing** an event, when afterwards its receiver shares its queue with nobody. -/
theorem Tidy.pushTo (h : Tidy x) {c : Fin maxProcesses} (hc : x.sys.Live c) (event : SurfaceEvent)
    (hapart : (x.pushTo c event).Apart) : Tidy (x.pushTo c event) := by
  set birth := (x.sys.processes c).history.birth with hbirth
  set queue := queueOf (x.sys.processes c).pid with hqueue
  set queued : Queued := ⟨event, x.stamps, birth⟩ with hqueued
  have hpush : ((x.events queue).push queued).Holds
      (Surfaces.enqueue (x.own birth) queued) := (h.queued c hc).push queued
  have hevents : (x.pushTo c event).events =
      update x.events queue ((x.events queue).push queued) := rfl
  have hown : (x.pushTo c event).own =
      update x.own birth (Surfaces.enqueue (x.own birth) queued) := rfl
  have hsys : (x.pushTo c event).sys = x.sys := rfl
  refine ⟨h.sound, h.slots, fun i hi => ?_, fun k hk => ?_, fun b hb => ?_, fun b q hq => ?_,
    h.returned, fun b => ?_⟩
  · rw [hevents, hown, hsys]
    by_cases hic : i = c
    · rw [hic, ← hbirth, ← hqueue, update_self, update_self]
      exact hpush
    · have hne : (x.sys.processes i).history.birth ≠ birth := h.birth_ne hi hc hic
      rw [update_of_ne hne]
      by_cases hshared : queueOf (x.sys.processes i).pid = queue
      · -- Another process has this queue, but it holds something now.
        have hzero := hapart c i hc hi (Ne.symm hic) hshared.symm
        rw [hevents, hsys, ← hqueue, update_self] at hzero
        have hlength := hpush.length
        rw [hzero, Surfaces.enqueue] at hlength
        simp at hlength
      · rw [update_of_ne hshared]
        exact h.queued i hi
  · have hne : k ≠ queue := fun he => hk c hc he.symm
    rw [hevents, update_of_ne hne]
    exact h.empty k hk
  · have hlt : birth < x.sys.births := h.sound.identity.birth_lt c hc.1
    rw [hown, update_of_ne (hlt.trans_le hb).ne']
    exact h.fresh b hb
  · rw [hown] at hq
    by_cases hb : b = birth
    · subst hb
      rw [update_self] at hq
      rcases mem_append.mp ((enqueue_sublist _ _).subset hq) with hq | hq
      · exact h.owner birth q hq
      · rw [mem_singleton.mp hq]
    · rw [update_of_ne hb] at hq
      exact h.owner b q hq
  · obtain ⟨hpairwise, hbound⟩ := h.ordered b
    have hsub : ((x.pushTo c event).stampsOf b).Sublist (x.stampsOf b ++ [x.stamps]) := by
      rw [Surfaces.stampsOf, Surfaces.stampsOf, hown, append_assoc]
      refine (List.Sublist.refl _).append ?_
      by_cases hb : b = birth
      · subst hb
        rw [update_self]
        simpa using (enqueue_sublist (x.own birth) queued).map (·.stamp)
      · rw [update_of_ne hb]
        exact sublist_append_left _ _
    have hall : (x.stampsOf b ++ [x.stamps]).Pairwise (· < ·) := by
      refine pairwise_append.mpr ⟨hpairwise, pairwise_singleton _ _, fun n hn m hm => ?_⟩
      rw [mem_singleton.mp hm]
      exact hbound n hn
    refine ⟨hall.sublist hsub, fun n hn => ?_⟩
    rcases mem_append.mp (hsub.subset hn) with hn | hn
    · exact (hbound n hn).trans (Nat.lt_succ_self _)
    · rw [mem_singleton.mp hn]
      exact Nat.lt_succ_self _

/-- **Polling** gives a process its own events. -/
theorem Tidy.popEvent (h : Tidy x) (hself : x.sys.Live x.sys.current) (hapart : x.Apart) :
    Tidy x.popEvent.2 := by
  set birth := x.sys.self.history.birth with hbirth
  set queue := queueOf x.sys.self.pid with hqueue
  obtain ⟨hhead, hrest⟩ := (h.queued x.sys.current hself).pop
  have hevents : x.popEvent.2.events = update x.events queue (x.events queue).pop.2 := rfl
  have hown : x.popEvent.2.own = update x.own birth (x.own birth).tail := rfl
  have hreturned : x.popEvent.2.returned =
      x.returned ++ ((x.own birth).head?.map (birth, ·)).toList := by
    rw [show (x.own birth).head? = (x.events queue).pop.1 from hhead.symm]
    rfl
  have hsys : x.popEvent.2.sys = x.sys := rfl
  refine ⟨h.sound, h.slots, fun i hi => ?_, fun k hk => ?_, fun b hb => ?_, fun b q hq => ?_,
    fun r hr => ?_, fun b => ?_⟩
  · rw [hevents, hown, hsys]
    by_cases hic : i = x.sys.current
    · rw [hic, ← System.self, ← hbirth, ← hqueue, update_self, update_self]
      exact hrest
    · have hne : (x.sys.processes i).history.birth ≠ birth := h.birth_ne hi hself hic
      rw [update_of_ne hne]
      by_cases hshared : queueOf (x.sys.processes i).pid = queue
      · -- Another process has this queue, but there is nothing in it.
        have hnil := h.own_shared hapart hself hi (Ne.symm hic) hshared.symm
        have hnil' := h.own_shared hapart hi hself hic hshared
        rw [hshared, update_self, hnil]
        rwa [hnil'] at hrest
      · rw [update_of_ne hshared]
        exact h.queued i hi
  · have hne : k ≠ queue := fun he => hk x.sys.current hself he.symm
    rw [hevents, update_of_ne hne]
    exact h.empty k hk
  · have hlt : birth < x.sys.births := h.sound.identity.birth_lt x.sys.current hself.1
    rw [hown, update_of_ne (hlt.trans_le hb).ne']
    exact h.fresh b hb
  · rw [hown] at hq
    by_cases hb : b = birth
    · subst hb
      rw [update_self] at hq
      exact h.owner birth q (mem_of_mem_tail hq)
    · rw [update_of_ne hb] at hq
      exact h.owner b q hq
  · rw [hreturned] at hr
    rcases mem_append.mp hr with hr | hr
    · exact h.returned r hr
    · simp only [Option.mem_toList, Option.map_eq_some_iff] at hr
      obtain ⟨q, hq, rfl⟩ := hr
      exact h.owner birth q (mem_of_mem_head? hq)
  · -- The stamps are the same as before.
    have hstamps : x.popEvent.2.stampsOf b = x.stampsOf b := by
      rw [Surfaces.stampsOf, Surfaces.stampsOf, hreturned, hown]
      by_cases hb : b = birth
      · subst hb
        rw [update_self]
        cases x.own birth <;> simp
      · rw [update_of_ne hb]
        cases x.own birth <;> simp [Ne.symm hb]
    rw [hstamps]
    exact h.ordered b

section Settle

theorem rest_settle (x : Surfaces) (s' : System) : (x.settle s').sys = s' ∧
    (x.settle s').stamps = x.stamps ∧ (x.settle s').returned = x.returned :=
  rest_release (Surfaces.ended x.sys s') { x with sys := s' }

theorem events_settle (x : Surfaces) (s' : System) (k : Fin maxProcesses) :
    (x.settle s').events k =
      if ∃ i ∈ Surfaces.ended x.sys s', queueOf (x.sys.processes i).pid = k then .empty
      else x.events k :=
  events_release (Surfaces.ended x.sys s') { x with sys := s' } k

theorem own_settle (x : Surfaces) (s' : System) (b : ℕ) :
    (x.settle s').own b =
      if ∃ i ∈ Surfaces.ended x.sys s', (x.sys.processes i).history.birth = b then []
      else x.own b :=
  own_release (Surfaces.ended x.sys s') { x with sys := s' } b

theorem Goes.same (h : Goes s s') (hi : s'.Live i) (hi₀ : s.Live i) :
    (s'.processes i).pid = (s.processes i).pid ∧
      (s'.processes i).history.birth = (s.processes i).history.birth :=
  ((h.origin i hi).resolve_right fun hnew => hnew.1 hi₀).2

theorem Tidy.queued_settle (h : Tidy x) (hapart : x.Apart) (hi : s'.Live i) (hi₀ : x.sys.Live i) :
    ((x.settle s').events (queueOf (x.sys.processes i).pid)).Holds
      ((x.settle s').own (x.sys.processes i).history.birth) := by
  have hkept : ¬ ∃ j ∈ Surfaces.ended x.sys s',
      (x.sys.processes j).history.birth = (x.sys.processes i).history.birth := by
    rintro ⟨j, hj, hbirth⟩
    obtain ⟨hj₀, hended⟩ := mem_ended.mp hj
    exact hended (h.sound.identity.birth j i hj₀.1 hi₀.1 hbirth ▸ hi)
  rw [own_settle, if_neg hkept, events_settle]
  split
  · rename_i hshared
    obtain ⟨j, hj, hqueue⟩ := hshared
    obtain ⟨hj₀, hended⟩ := mem_ended.mp hj
    rw [h.own_shared hapart hj₀ hi₀ (fun he => hended (he ▸ hi)) hqueue]
    exact Ring.holds_empty
  · exact h.queued i hi₀

theorem Tidy.empty_settle (h : Tidy x)
    (hk : ∀ i, s'.Live i → x.sys.Live i → queueOf (x.sys.processes i).pid ≠ k) :
    ((x.settle s').events k).Holds [] := by
  rw [events_settle]
  split
  · exact Ring.holds_empty
  · rename_i hnone
    refine h.empty k fun i hi hqueue => ?_
    by_cases hlive : s'.Live i
    · exact hk i hlive hi hqueue
    · exact hnone ⟨i, mem_ended.mpr ⟨hi, hlive⟩, hqueue⟩

theorem own_settle_nil {b : ℕ} (hb : x.own b = []) : (x.settle s').own b = [] := by
  rw [own_settle, hb, ite_self]

theorem Tidy.queued_settle_new (h : Tidy x) (hapart : x.Apart) (hgoes : Goes x.sys s')
    (hapart' : (x.settle s').Apart) (hi : s'.Live i) (hi₀ : ¬ x.sys.Live i) :
    ((x.settle s').events (queueOf (s'.processes i).pid)).Holds
      ((x.settle s').own (s'.processes i).history.birth) := by
  have hsys := (rest_settle x s').1
  obtain ⟨-, hnew⟩ := (hgoes.origin i hi).resolve_left fun hold => hi₀ hold.1
  rw [own_settle_nil (h.fresh _ hnew)]
  by_cases hshared : ∃ j, s'.Live j ∧ x.sys.Live j ∧
      queueOf (x.sys.processes j).pid = queueOf (s'.processes i).pid
  · obtain ⟨j, hj, hj₀, hqueue⟩ := hshared
    have hzero := hapart' j i (hsys.symm ▸ hj) (hsys.symm ▸ hi) (fun he => hi₀ (he ▸ hj₀))
    rw [hsys, (hgoes.same hj hj₀).1] at hzero
    have hj' := h.queued_settle hapart hj hj₀
    rw [hj'.eq_nil (hzero hqueue), hqueue] at hj'
    exact hj'
  · exact h.empty_settle fun j hj hj₀ hqueue => hshared ⟨j, hj, hj₀, hqueue⟩

/-- **Ends** empty the queues of those who end, and no others. -/
theorem Tidy.settle (h : Tidy x) (hapart : x.Apart) (hgoes : Goes x.sys s')
    (hapart' : (x.settle s').Apart) : Tidy (x.settle s') := by
  obtain ⟨hsys, hstamps, hreturned⟩ := rest_settle x s'
  refine ⟨hsys.symm ▸ hgoes.sound, fun k hk => ?_, fun i hi => ?_, fun k hk => ?_, fun b hb => ?_,
    fun b q hq => ?_, hreturned.symm ▸ h.returned, fun b => ?_⟩
  · obtain ⟨heq, hne⟩ := slots_release (Surfaces.ended x.sys s') { x with sys := s' } k hk
    change (x.settle s').slots k = x.slots k at heq
    rw [heq] at hk
    obtain ⟨i, hi, hpid⟩ := h.slots k hk
    have hlive : s'.Live i := by
      by_contra hended
      exact hne i (mem_ended.mpr ⟨hi, hended⟩) hpid
    rw [hsys, heq]
    exact ⟨i, hlive, (hgoes.same hlive hi).1.trans hpid⟩
  · rw [hsys] at hi ⊢
    by_cases hi₀ : x.sys.Live i
    · rw [(hgoes.same hi hi₀).1, (hgoes.same hi hi₀).2]
      exact h.queued_settle hapart hi hi₀
    · exact h.queued_settle_new hapart hgoes hapart' hi hi₀
  · refine h.empty_settle fun i hi hi₀ hqueue => hk i (hsys.symm ▸ hi) ?_
    rw [hsys, (hgoes.same hi hi₀).1]
    exact hqueue
  · rw [hsys] at hb
    exact own_settle_nil (h.fresh b (hgoes.births.trans hb))
  · rw [own_settle] at hq
    split at hq
    · exact absurd hq not_mem_nil
    · exact h.owner b q hq
  · obtain ⟨hpairwise, hbound⟩ := h.ordered b
    have hsub : ((x.settle s').stampsOf b).Sublist (x.stampsOf b) := by
      rw [Surfaces.stampsOf, Surfaces.stampsOf, hreturned, own_settle]
      refine (List.Sublist.refl _).append ?_
      split
      · exact nil_sublist _
      · exact List.Sublist.refl _
    rw [hstamps]
    exact ⟨hpairwise.sublist hsub, fun n hn => hbound n (hsub.subset hn)⟩

end Settle

/-! ### Runs -/

theorem Tidy.calls (h : Tidy x) (hself : x.sys.Live x.sys.current) (hapart : x.Apart)
    (o : Surfaces.Input) (hcalls : (x.calls o).Apart) : Tidy (x.calls o) := by
  cases o with
  | event e => exact h
  | create width height buffer w => exact h.create hself width height buffer
  | destroy surface w => exact h.destroy surface
  | poll w => exact h.popEvent hself hapart
  | sendEvent event w =>
    rw [Surfaces.calls] at hcalls ⊢
    rcases h.push_eq event.surface event with heq | ⟨c, hc, heq⟩
    · rw [heq]
      exact h
    · rw [heq] at hcalls ⊢
      exact h.pushTo hc event hcalls

theorem sys_calls (x : Surfaces) (o : Surfaces.Input) : (x.calls o).sys = x.sys := by
  cases o with
  | event e => rfl
  | create width height buffer w =>
    rw [Surfaces.calls, Surfaces.create]
    split
    · rfl
    split
    · rfl
    split <;> rfl
  | destroy surface w =>
    rw [Surfaces.calls, Surfaces.destroy]
    split
    · rfl
    split <;> rfl
  | sendEvent event w =>
    rw [Surfaces.calls, Surfaces.pushEventToSurface]
    split <;> rfl
  | poll w => rfl

/-- **One input**, in which live processes do not share a queue that holds something. -/
theorem Tidy.next (h : Tidy x) (hrun : x.sys.halted = false) (hapart : x.Apart)
    (o : Surfaces.Input) (hcalls : (x.calls o).Apart) (hnext : (x.next pbkdf2 o).Apart) :
    Tidy (x.next pbkdf2 o) := by
  have hself := (h.sound.runs hrun)
  have htidy := h.calls ⟨hself.1, hself.2.1⟩ hapart o hcalls
  refine htidy.settle hcalls ?_ hnext
  rw [sys_calls]
  exact goes_processes h.sound hrun o

theorem Tidy.boot : Tidy .boot := by
  refine ⟨boot_sound, fun k hk => absurd rfl hk, fun _ _ => Ring.holds_empty,
    fun _ _ => Ring.holds_empty, fun _ _ => rfl, fun _ _ hq => absurd hq not_mem_nil,
    fun _ hr => absurd hr not_mem_nil, fun b => ?_⟩
  exact ⟨List.Pairwise.nil, fun _ hn => absurd hn not_mem_nil⟩

theorem Surfaces.Reaches.tidy (h : Surfaces.Reaches pbkdf2 Surfaces.Apart x) :
    Tidy x ∧ x.Apart := by
  induction h with
  | boot => exact ⟨.boot, fun _ _ _ _ _ _ => rfl⟩
  | next _ o hrun hcalls hnext ih => exact ⟨ih.1.next hrun ih.2 o hcalls hnext, hnext⟩

/-- **Headline.** In every run in which live processes do not share a queue that holds something,
every process gets its own events only. -/
theorem confined_of_apart (h : Surfaces.Reaches pbkdf2 Surfaces.Apart x) : x.Confined := by
  obtain ⟨htidy, -⟩ := h.tidy
  exact ⟨htidy.returned, fun b => (pairwise_append.mp (htidy.ordered b).1).1, htidy.queued⟩

end Events

/-! ### Two runs -/

instance : DecidablePred Surfaces.Apart := fun x =>
  inferInstanceAs (Decidable (∀ i j, x.sys.Live i → x.sys.Live j → i ≠ j →
    queueOf (x.sys.processes i).pid = queueOf (x.sys.processes j).pid →
    (x.events (queueOf (x.sys.processes i).pid)).length = 0))

/-- The inputs of a list, one after another. -/
def Surfaces.run : List Surfaces.Input → Surfaces → Surfaces
  | [], x => x
  | o :: rest, x => run rest (x.next (fun _ _ _ => none) o)

/-- The states of a run are allowed. -/
def Surfaces.mayRun (allowed : Surfaces → Bool) : List Surfaces.Input → Surfaces → Bool
  | [], _ => true
  | o :: rest, x =>
    let next := x.next (fun _ _ _ => none) o
    !x.sys.halted && allowed (x.calls o) && allowed next && mayRun allowed rest next

theorem Surfaces.Reaches.run {allowed : Surfaces → Prop} [DecidablePred allowed] {x : Surfaces}
    (h : Surfaces.Reaches (fun _ _ _ => none) allowed x) {inputs : List Surfaces.Input}
    (hmay : Surfaces.mayRun (fun x => decide (allowed x)) inputs x = true) :
    Surfaces.Reaches (fun _ _ _ => none) allowed (x.run inputs) := by
  induction inputs generalizing x with
  | nil => exact h
  | cons o rest ih =>
    simp only [Surfaces.mayRun, Bool.and_eq_true, Bool.not_eq_true', decide_eq_true_eq] at hmay
    exact ih (h.next o hmay.1.1.1 hmay.1.1.2 hmay.1.2) hmay.2

/-- A key for the first surface. -/
def keyEvent : SurfaceEvent := ⟨0, 1, 0, 0, 0, 1, 65⟩

/-- `init` creates a surface, gets a key, and polls it. -/
def ownKey : List Surfaces.Input :=
  [.create 320 200 (some 0x100000) true, .sendEvent keyEvent true, .poll true]

/-- `init` has many children, and waits for the first of them, so that the next one has pid 17. It
polls the key of the surface of `init`. -/
def strangeKey : List Surfaces.Input :=
  [.event (.call (.fork true) true), .event (.call .yield true), .event (.call (.exit 0) true)] ++
  List.replicate 14 (.event (.call (.fork true) true)) ++
  [.event (.call (.waitpid 2 0 true 0) true), .event (.call (.fork true) true),
    .create 320 200 (some 0x100000) true, .sendEvent keyEvent true, .event (.call .yield true),
    .poll true]

/-- `init` gets its own key. -/
theorem confined_of_apart_sample :
    (Surfaces.boot.run ownKey).Confined ∧
      (Surfaces.boot.run ownKey).returned = [(0, ⟨keyEvent, 0, 0⟩)] :=
  ⟨confined_of_apart (Surfaces.Reaches.boot.run (by decide +kernel)), by decide +kernel⟩

/-- A child gets the key of `init`. -/
theorem key_exposed :
    Surfaces.Reaches (fun _ _ _ => none) (fun _ => True) (Surfaces.boot.run strangeKey) ∧
      (Surfaces.boot.run strangeKey).returned = [(16, ⟨keyEvent, 0, 0⟩)] ∧
      ¬ (Surfaces.boot.run strangeKey).Confined := by
  have hreturned : (Surfaces.boot.run strangeKey).returned = [(16, ⟨keyEvent, 0, 0⟩)] := by
    decide +kernel
  refine ⟨Surfaces.Reaches.boot.run (by decide +kernel), hreturned, fun h => ?_⟩
  have howner := h.owner _ (hreturned ▸ mem_singleton_self _)
  exact absurd howner (by decide)

end ImagineOS.Display
