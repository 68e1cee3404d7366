import ImagineOS.Display.Events

/-!
# Display: published frames

A client publishes the frame of a surface, and the kernel puts the id of the surface into a queue,
from which the display server takes it. The queue has as many places as there are surfaces. But an
id is put into it again when it is there already, so the frames of one surface can fill it, and then
those of others are dropped; and an id that is queued twice is returned twice. Neither happens as
long as no surface is published while its id is queued (`noneLost_of_once`, `flush_lost`).
-/

namespace ImagineOS.Display

open Exec Function List Option

/-! ### Surfaces and the queue -/

/-- The surfaces, and the queue of the ids that were published. -/
structure Frames where
  base : Surfaces
  /-- `Surface::shown` -/
  shown : Fin maxSurfaces → Bool
  /-- `Surfaces::dirty` -/
  dirty : Ring (BitVec 32) maxSurfaces
  /-- The id was published, and neither taken nor destroyed since. -/
  due : BitVec 32 → Bool
  /-- The id was published since it was last taken. -/
  fresh : BitVec 32 → Bool
  /-- What was taken, and whether it had been published since it was last taken. -/
  taken : List (BitVec 32 × Bool)

namespace Frames

/-- `dirty` -/
def pushDirty (surface : BitVec 32) (x : Frames) : Frames :=
  if x.dirty.length = maxSurfaces then x else { x with dirty := x.dirty.push surface }

/-- An id is published. -/
def publish (surface : BitVec 32) (x : Frames) : Frames :=
  { x.pushDirty surface with
    due := Function.update x.due surface true
    fresh := Function.update x.fresh surface true }

def present (surface : BitVec 32) (shown : Bool) (x : Frames) : ℤ × Frames :=
  match x.base.find surface with
  | none => (-2, x)
  | some slot =>
    if (x.base.slots slot).pid ≠ x.base.sys.self.pid then (-22, x)
    else (0, publish surface { x with shown := Function.update x.shown slot shown })

def flush (surface : BitVec 32) (x : Frames) : ℤ × Frames :=
  match x.base.find surface with
  | none => (-2, x)
  | some slot =>
    if (x.base.slots slot).pid ≠ x.base.sys.self.pid then (-22, x) else (0, x.publish surface)

def takeDirty (x : Frames) : Option (BitVec 32) × Frames :=
  let (surface, rest) := x.dirty.pop
  (surface, { x with
    dirty := rest
    due := surface.elim x.due (Function.update x.due · false)
    fresh := surface.elim x.fresh (Function.update x.fresh · false)
    taken := x.taken ++ (surface.map fun s => (s, x.fresh s)).toList })

/-- What happens. -/
inductive Input
  | base (o : Surfaces.Input)
  | present (surface : BitVec 32) (shown writable : Bool)
  | flush (surface : BitVec 32) (writable : Bool)
  | takeDirty (writable : Bool)

/-- What a call does. -/
def calls (x : Frames) : Input → Frames
  | .base o => { x with base := x.base.calls o }
  | .present surface shown _ => (x.present surface shown).2
  | .flush surface _ => (x.flush surface).2
  | .takeDirty _ => x.takeDirty.2

/-- Surfaces that are gone are neither shown nor due. -/
def prune (x : Frames) : Frames :=
  { x with
    shown := fun k => x.shown k && (x.base.slots k).physical != 0
    due := fun surface => x.due surface && (x.base.find surface).isSome }

section Next

variable (pbkdf2 : List UInt8 → List UInt8 → ℕ → Option (List UInt8))

/-- What becomes of the processes. -/
def processes (o : Input) (s : System) : System :=
  match o with
  | .base o => Surfaces.processes pbkdf2 o s
  | .present _ _ writable | .flush _ writable | .takeDirty writable =>
      deliverPendingSignal writable s

def next (o : Input) (x : Frames) : Frames :=
  let x' := x.calls o
  prune { x' with base := x'.base.settle (processes pbkdf2 o x.base.sys) }

/-- The kernel has started `init`. -/
def boot : Frames := ⟨.boot, fun _ => false, .empty, fun _ => false, fun _ => false, []⟩

/-- The states that runs reach, when every input is an allowed one in the state before it. -/
inductive Reaches (allowed : Input → Frames → Prop) : Frames → Prop
  | boot : Reaches allowed boot
  | next {x : Frames} (h : Reaches allowed x) (o : Input) (hrun : x.base.sys.halted = false)
      (ha : allowed o x) : Reaches allowed (x.next pbkdf2 o)

end Next

/-- **No frame is lost**: an id that was published is queued until it is taken, unless its surface
is destroyed; and only ids are taken that were published since they were last taken. -/
structure NoneLost (x : Frames) : Prop where
  queued : ∀ surface, x.due surface = true → surface ∈ x.dirty.toList
  taken : ∀ t ∈ x.taken, t.2 = true

/-- The id that an input publishes. -/
def Input.published : Input → Option (BitVec 32)
  | .present surface _ _ | .flush surface _ => some surface
  | _ => none

/-- **The condition**: no id is published while it is queued. -/
def Once (o : Input) (x : Frames) : Prop :=
  ∀ surface, o.published = some surface → surface ∉ x.dirty.toList

end Frames

/-! ### Runs -/

/-- **The invariant of runs**: the queue holds ids of surfaces, each once, and those that are due.
-/
structure Queueing (x : Frames) : Prop where
  holds : x.dirty.Holds x.dirty.toList
  nodup : x.dirty.toList.Nodup
  lt : ∀ surface ∈ x.dirty.toList, surface.toNat < maxSurfaces
  due : ∀ surface, x.due surface = true → surface ∈ x.dirty.toList
  fresh : ∀ surface ∈ x.dirty.toList, x.fresh surface = true
  taken : ∀ t ∈ x.taken, t.2 = true

section Frames

variable {pbkdf2 : List UInt8 → List UInt8 → ℕ → Option (List UInt8)} {x : Frames}
  {surface : BitVec 32} {o : Frames.Input} {l : List (BitVec 32)}

theorem length_le_of_nodup (hnodup : l.Nodup) (hlt : ∀ surface ∈ l, surface.toNat < maxSurfaces) :
    l.length ≤ maxSurfaces := by
  have hmap : (l.map BitVec.toNat).Nodup := hnodup.map fun _ _ h => BitVec.eq_of_toNat_eq h
  have hsub : l.map BitVec.toNat ⊆ List.range maxSurfaces := fun n hn => by
    obtain ⟨surface, hsurface, rfl⟩ := List.mem_map.mp hn
    exact mem_range.mpr (hlt surface hsurface)
  simpa using (hmap.subperm hsub).length_le

theorem lt_of_find {x : Surfaces} {slot : Fin maxSurfaces} (h : x.find surface = some slot) :
    surface.toNat < maxSurfaces := by
  rw [Surfaces.find] at h
  split at h
  · assumption
  · cases h

theorem Queueing.base (h : Queueing x) (base : Surfaces) (shown : Fin maxSurfaces → Bool) :
    Queueing { x with base := base, shown := shown } :=
  ⟨h.holds, h.nodup, h.lt, h.due, h.fresh, h.taken⟩

theorem Queueing.prune (h : Queueing x) : Queueing x.prune :=
  ⟨h.holds, h.nodup, h.lt, fun surface hdue => h.due surface (by
    rw [Frames.prune, Bool.and_eq_true] at hdue
    exact hdue.1), h.fresh, h.taken⟩

/-- **Publishing** an id that is not queued. -/
theorem Queueing.publish (h : Queueing x) (hlt : surface.toNat < maxSurfaces)
    (hnot : surface ∉ x.dirty.toList) : Queueing (x.publish surface) := by
  have hnodup : (surface :: x.dirty.toList).Nodup := nodup_cons.mpr ⟨hnot, h.nodup⟩
  have hroom : x.dirty.toList.length < maxSurfaces :=
    length_le_of_nodup hnodup (forall_mem_cons.mpr ⟨hlt, h.lt⟩)
  have hpush : (x.publish surface).dirty = x.dirty.push surface := by
    rw [Frames.publish, Frames.pushDirty, if_neg fun he => hroom.ne (h.holds.length.symm.trans he)]
  have hholds := h.holds.push surface
  rw [if_neg hroom.ne] at hholds
  have hlist : (x.publish surface).dirty.toList = x.dirty.toList ++ [surface] := by
    rw [hpush, hholds.toList_eq]
  have hmem : ∀ s, s ∈ (x.publish surface).dirty.toList ↔ s ∈ x.dirty.toList ∨ s = surface :=
    fun s => by rw [hlist, mem_append, mem_singleton]
  refine ⟨by rw [hlist, hpush]; exact hholds, ?_, fun s hs => ?_, fun s hs => ?_, fun s hs => ?_,
    ?_⟩
  · rw [hlist]
    exact (nodup_append_comm.mp hnodup)
  · rcases (hmem s).mp hs with hs | rfl
    · exact h.lt s hs
    · exact hlt
  · refine (hmem s).mpr ?_
    by_cases hsurface : s = surface
    · exact Or.inr hsurface
    · refine Or.inl (h.due s ?_)
      have hdue : (x.publish surface).due s = x.due s := update_of_ne hsurface _ _
      exact hdue.symm.trans hs
  · by_cases hsurface : s = surface
    · subst hsurface
      exact update_self _ _ _
    · have hfresh : (x.publish surface).fresh s = x.fresh s := update_of_ne hsurface _ _
      exact hfresh.trans (h.fresh s (((hmem s).mp hs).resolve_right hsurface))
  · rw [Frames.publish, Frames.pushDirty]
    split <;> exact h.taken

/-- **Taking** an id. -/
theorem Queueing.takeDirty (h : Queueing x) : Queueing x.takeDirty.2 := by
  obtain ⟨hhead, hrest⟩ := h.holds.pop
  have hlist : x.takeDirty.2.dirty.toList = x.dirty.toList.tail := hrest.toList_eq
  have hholds : x.takeDirty.2.dirty.Holds x.takeDirty.2.dirty.toList := hlist.symm ▸ hrest
  cases hl : x.dirty.toList with
  | nil =>
    rw [hl] at hhead hlist
    have hnone : ∀ s, s ∉ x.takeDirty.2.dirty.toList := fun s hs => by
      rw [hlist] at hs
      cases hs
    refine ⟨hholds, by rw [hlist]; exact nodup_nil, fun s hs => absurd hs (hnone s),
      fun s hs => ?_, fun s hs => absurd hs (hnone s), fun t ht => h.taken t ?_⟩
    · have hdue : x.takeDirty.2.due s = x.due s := by
        simp only [Frames.takeDirty, hhead, List.head?_nil, elim_none]
      have hmem := h.due s (hdue.symm.trans hs)
      rw [hl] at hmem
      cases hmem
    · simpa only [Frames.takeDirty, hhead, List.head?_nil, map_none, toList_none,
        append_nil] using ht
  | cons first rest =>
    rw [hl] at hhead hlist
    have hnodup := hl ▸ h.nodup
    obtain ⟨hnot, hrestNodup⟩ := nodup_cons.mp hnodup
    have hmem : ∀ s, s ∈ x.takeDirty.2.dirty.toList ↔ s ∈ rest := fun s => by rw [hlist]; rfl
    have hbefore : ∀ s ∈ rest, s ∈ x.dirty.toList := fun s hs => hl ▸ mem_cons_of_mem _ hs
    have hne : ∀ s ∈ rest, s ≠ first := fun s hs he => hnot (he ▸ hs)
    refine ⟨hholds, by rw [hlist]; exact hrestNodup,
      fun s hs => h.lt s (hbefore s ((hmem s).mp hs)), fun s hs => (hmem s).mpr ?_,
      fun s hs => ?_, fun t ht => ?_⟩
    · have hdue : x.takeDirty.2.due s = update x.due first false s := by
        simp only [Frames.takeDirty, hhead, List.head?_cons, elim_some]
      rw [hdue] at hs
      have hsne : s ≠ first := fun he => by
        rw [he, update_self] at hs
        cases hs
      rw [update_of_ne hsne] at hs
      have hqueued := h.due s hs
      rw [hl] at hqueued
      exact (mem_cons.mp hqueued).resolve_left hsne
    · have hfresh : x.takeDirty.2.fresh s = update x.fresh first false s := by
        simp only [Frames.takeDirty, hhead, List.head?_cons, elim_some]
      rw [hfresh, update_of_ne (hne s ((hmem s).mp hs))]
      exact h.fresh s (hbefore s ((hmem s).mp hs))
    · -- The oldest id was published since it was last taken.
      have htaken : x.takeDirty.2.taken = x.taken ++ [(first, x.fresh first)] := by
        simp only [Frames.takeDirty, hhead, List.head?_cons, map_some, toList_some]
      rw [htaken] at ht
      rcases mem_append.mp ht with ht | ht
      · exact h.taken t ht
      · obtain rfl := mem_singleton.mp ht
        exact h.fresh first (hl ▸ mem_cons_self)

theorem Queueing.next (h : Queueing x) (o : Frames.Input) (honce : Frames.Once o x) :
    Queueing (x.next pbkdf2 o) := by
  have hcalls : Queueing (x.calls o) := by
    have hpublish : ∀ (base : Surfaces) (shown : Fin maxSurfaces → Bool) (surface : BitVec 32)
        (slot : Fin maxSurfaces), x.base.find surface = some slot →
        o.published = some surface →
        Queueing (Frames.publish surface { x with base := base, shown := shown }) :=
      fun base shown surface _ hfind ho =>
        (h.base base shown).publish (lt_of_find hfind) (honce surface ho)
    cases o with
    | base o => exact h.base _ _
    | present surface shown w =>
      rw [Frames.calls, Frames.present]
      split
      · exact h
      · rename_i slot hfind
        split
        · exact h
        · exact hpublish _ _ surface slot hfind rfl
    | flush surface w =>
      rw [Frames.calls, Frames.flush]
      split
      · exact h
      · rename_i slot hfind
        split
        · exact h
        · exact hpublish _ _ surface slot hfind rfl
    | takeDirty w => exact h.takeDirty
  exact (hcalls.base _ _).prune

theorem Frames.Reaches.queueing (h : Frames.Reaches pbkdf2 Frames.Once x) : Queueing x := by
  induction h with
  | boot =>
    have hlist : Frames.boot.dirty.toList = [] := Ring.holds_empty.toList_eq
    refine ⟨hlist.symm ▸ Ring.holds_empty, hlist.symm ▸ nodup_nil, ?_, nofun, ?_, nofun⟩
    · rw [hlist]
      nofun
    · rw [hlist]
      nofun
  | next _ o _ honce ih => exact ih.next o honce

/-- **Headline.** No frame is lost in a run in which no id is published while it is queued. -/
theorem noneLost_of_once (h : Frames.Reaches pbkdf2 Frames.Once x) : x.NoneLost :=
  ⟨h.queueing.due, h.queueing.taken⟩

end Frames

/-! ### Two runs -/

/-- The inputs of a list, one after another. -/
def Frames.run : List Frames.Input → Frames → Frames
  | [], x => x
  | o :: rest, x => run rest (x.next (fun _ _ _ => none) o)

/-- The inputs of a run are allowed. -/
def Frames.mayRun (allowed : Frames.Input → Frames → Bool) : List Frames.Input → Frames → Bool
  | [], _ => true
  | o :: rest, x =>
    !x.base.sys.halted && allowed o x && mayRun allowed rest (x.next (fun _ _ _ => none) o)

theorem Frames.Reaches.run {allowed : Frames.Input → Frames → Prop} [∀ o x, Decidable (allowed o x)]
    {x : Frames} (h : Frames.Reaches (fun _ _ _ => none) allowed x) {inputs : List Frames.Input}
    (hmay : Frames.mayRun (fun o x => decide (allowed o x)) inputs x = true) :
    Frames.Reaches (fun _ _ _ => none) allowed (x.run inputs) := by
  induction inputs generalizing x with
  | nil => exact h
  | cons o rest ih =>
    simp only [Frames.mayRun, Bool.and_eq_true, Bool.not_eq_true', decide_eq_true_eq] at hmay
    exact ih (h.next o hmay.1.1 hmay.1.2) hmay.2

instance (o : Frames.Input) (x : Frames) : Decidable (Frames.Once o x) :=
  decidable_of_iff (o.published.toList.all (· ∉ x.dirty.toList) = true)
    (by simp only [List.all_eq_true, decide_eq_true_eq, Option.mem_toList, Frames.Once])

/-- A surface for `init`. -/
def surfaceOf (physical : ℕ) : Frames.Input := .base (.create 320 200 (some physical) true)

/-- A surface is published, taken, and published again. -/
def takenBetween : List Frames.Input :=
  [surfaceOf 0x100000, .flush 0 true, .takeDirty true, .flush 0 true]

/-- The frames of one surface fill the queue before another surface is published. -/
def flooded : List Frames.Input :=
  [surfaceOf 0x100000, surfaceOf 0x200000] ++ List.replicate 8 (.flush 0 true) ++
    [.flush 1 true, .takeDirty true, .takeDirty true]

theorem noneLost_of_once_sample :
    (Frames.boot.run takenBetween).NoneLost ∧ (Frames.boot.run takenBetween).due 0 = true :=
  ⟨noneLost_of_once (Frames.Reaches.boot.run (by decide +kernel)), by decide +kernel⟩

/-- The frame of the second surface is dropped, and the first id is returned again without one. -/
theorem flush_lost :
    let x := Frames.boot.run flooded
    Frames.Reaches (fun _ _ _ => none) (fun _ _ => True) x ∧ x.due 1 = true ∧
      (1 : BitVec 32) ∉ x.dirty.toList ∧ x.taken = [(0, true), (0, false)] ∧ ¬ x.NoneLost := by
  intro x
  have hdue : x.due 1 = true := by decide +kernel
  have hnot : (1 : BitVec 32) ∉ x.dirty.toList := by decide +kernel
  exact ⟨Frames.Reaches.boot.run (by decide +kernel), hdue, hnot, by decide +kernel,
    fun h => hnot (h.queued 1 hdue)⟩

end ImagineOS.Display
