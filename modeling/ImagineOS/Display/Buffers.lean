import ImagineOS.Display.Frames
import ImagineOS.Memory.Surface

/-!
# Display: buffers of surfaces

The pixels of a surface are in a buffer that is mapped in the address space of the client. The
display server, that is, the process that last called `SYS_CONSOLE_RELEASE`, has all buffers of
visible surfaces mapped when it asks for a snapshot. Nobody else should have a buffer, and a client
that destroys a surface should lose it. But a snapshot maps the buffers for whoever asks for it, a
server that is replaced keeps what it has mapped, and no call takes a page out of an address space.
Buffers are isolated as long as nobody but the server asks for a snapshot of the surfaces of others,
no server with such buffers is replaced, nobody destroys a surface whose buffer it has mapped, and
the allocator hands out pages that are not in use (`isolated_of_guarded`, `buffer_exposed`).
-/

namespace ImagineOS.Display

open Exec Function

open Memory (pageSize surfaceMaxPixels)

/-! ### Address spaces -/

def surfaceRegionBase : ℕ := 0x140000000

def surfaceRegionStride : ℕ := 0x100000

def serverBase : ℕ := 0x500000000000

def serverStride : ℕ := 0x100000

/-- Where a client has the buffer of the surface in a slot. -/
def clientAddress (slot : Fin maxSurfaces) : ℕ := surfaceRegionBase + slot.val * surfaceRegionStride

/-- Where the display server has it. -/
def serverAddress (slot : Fin maxSurfaces) : ℕ := serverBase + slot.val * serverStride

def userMin : ℕ := 0x400000

def userMax : ℕ := 0x800000000000

/-- The bytes of a buffer: four for each of `SURFACE_MAX_PIXELS`. -/
def bufferSize : ℕ := surfaceMaxPixels * 4

/-- The pages that the page tables of a process lead to: the number of a virtual page, and that of
the physical page behind it. -/
abbrev Space := List (ℕ × ℕ)

/-- The virtual pages that have page tables, or for which the allocator has some, and the direct
map. -/
structure Tables where
  ready : ℕ → Bool
  hhdmOffset : ℕ

/-- `map_physical_page`. The result says whether it succeeds. -/
def mapPhysicalPage (t : Tables) (virtual physical : ℕ) (s : Space) : Bool × Space :=
  if virtual < userMin ∨ userMax ≤ virtual then (false, s)
  else if t.ready (virtual / pageSize) = false then (false, s)
  else
    -- The entry is written before the direct map is asked for the address.
    (decide (physical + t.hhdmOffset < 2 ^ 64), (virtual / pageSize, physical / pageSize) ::
        s.filter (·.1 ≠ virtual / pageSize))

/-- The loop of `map_framebuffer_range`, with `n` pages to go. -/
def mapPages (t : Tables) : ℕ → ℕ → ℕ → Space → Bool × Space
  | 0, _, _, s => (true, s)
  | n + 1, virtual, physical, s =>
    if 2 ^ 64 ≤ virtual ∨ 2 ^ 64 ≤ physical then (false, s)
    else
      match mapPhysicalPage t virtual physical s with
      | (false, s) => (false, s)
      | (true, s) => mapPages t n (virtual + pageSize) (physical + pageSize) s

/-- The number of pages of `length` bytes from an address on. -/
def pageCount (physical length : ℕ) : ℕ :=
  (physical % pageSize + length + pageSize - 1) / pageSize

theorem pageCount_pos (f : ℕ) : 0 < pageCount f bufferSize := by
  have hsize : 0 < bufferSize := by decide
  exact Nat.div_pos (by omega) (by decide)

def mapFramebufferRange (t : Tables) (virtual physical length : ℕ) (s : Space) : Bool × Space :=
  if length = 0 then (false, s)
  else mapPages t (pageCount physical length) (virtual / pageSize * pageSize)
    (physical / pageSize * pageSize) s

/-- A physical page has bytes of the buffer at an address. -/
def InBuffer (physical p : ℕ) : Prop :=
  physical / pageSize ≤ p ∧
    p < physical / pageSize + pageCount physical bufferSize

instance (physical p : ℕ) : Decidable (InBuffer physical p) := inferInstanceAs (Decidable (_ ∧ _))

/-- An address space leads to the buffer at an address. -/
def Space.LeadsTo (s : Space) (physical : ℕ) : Prop := ∃ m ∈ s, InBuffer physical m.2

instance (s : Space) (physical : ℕ) : Decidable (s.LeadsTo physical) :=
  inferInstanceAs (Decidable (∃ m ∈ s, InBuffer physical m.2))

/-- No page has bytes of two buffers. -/
def Separate (physical physical' : ℕ) : Prop := ∀ p, InBuffer physical p → ¬ InBuffer physical' p

instance (physical physical' : ℕ) : Decidable (Separate physical physical') :=
  decidable_of_iff
    (physical / pageSize + pageCount physical bufferSize ≤ physical' / pageSize ∨
      physical' / pageSize + pageCount physical' bufferSize ≤ physical / pageSize) (by
    have h₁ := pageCount_pos physical
    have h₂ := pageCount_pos physical'
    simp only [Separate, InBuffer]
    refine ⟨fun h p hp hp' => by omega, fun h => ?_⟩
    have h₃ := h (physical / pageSize)
    have h₄ := h (physical' / pageSize)
    omega)

/-! ### Buffers -/

/-- The surfaces, and what the processes have mapped. -/
structure Buffers where
  frames : Frames
  /-- The address spaces, by the slots of the processes. -/
  spaces : Fin maxProcesses → Space
  /-- The process that created the surface, by the number of its creation. -/
  creators : Fin maxSurfaces → ℕ
  /-- The process that last called `SYS_CONSOLE_RELEASE`. -/
  server : Option ℕ
  /-- The buffers that were mapped for clients. -/
  buffers : List ℕ
  /-- Who has destroyed a surface, and the buffer of it. -/
  destroyed : List (ℕ × ℕ)

namespace Buffers

/-- The processes. -/
def sys (x : Buffers) : System := x.frames.base.sys

/-- The surface in a slot. -/
def slots (x : Buffers) (k : Fin maxSurfaces) : Surface := x.frames.base.slots k

/-- The address space of the process that runs. -/
def space (x : Buffers) : Space := x.spaces x.sys.current

def setSpace (s : Space) (x : Buffers) : Buffers :=
  { x with spaces := Function.update x.spaces x.sys.current s }

def setBase (base : Surfaces) (x : Buffers) : Buffers :=
  { x with frames := { x.frames with base := base } }

/-- The process that runs has pages of a new buffer. -/
def lend (physical : ℕ) (s : Space) (x : Buffers) : Buffers :=
  { x.setSpace s with buffers := physical :: x.buffers }

/-- It gets the surface in a slot. -/
def register (slot : Fin maxSurfaces) (physical : ℕ) (x : Buffers) : Buffers :=
  { x.setBase { x.frames.base with
      slots := Function.update x.slots slot ⟨x.sys.self.pid, physical⟩ } with
    creators := Function.update x.creators slot x.sys.self.history.birth }

/-- The end of `create`: the buffer is mapped for the caller. -/
def createAt (slot : Fin maxSurfaces) (physical : ℕ) (t : Tables) (x : Buffers) : ℤ × Buffers :=
  match mapFramebufferRange t (clientAddress slot) physical bufferSize x.space with
  | (false, space) => (-28, x.lend physical space)
  | (true, space) => (0, (x.lend physical space).register slot physical)

/-- `create`, when `frame` is what the allocator gives. -/
def create (width height : ℕ) (frame : Option ℕ) (t : Tables) (x : Buffers) : ℤ × Buffers :=
  if width = 0 ∨ height = 0 ∨ surfaceMaxWidth < width ∨ surfaceMaxHeight < height then (-22, x)
  else match (List.finRange maxSurfaces).find? fun k => (x.slots k).physical = 0 with
  | none => (-28, x)
  | some slot =>
    match frame with
    | none => (-28, x)
    | some physical => x.createAt slot physical t

def destroy (surface : BitVec 32) (x : Buffers) : ℤ × Buffers :=
  match x.frames.base.find surface with
  | none => (-2, x)
  | some slot =>
    if (x.slots slot).pid ≠ x.sys.self.pid then (-22, x)
    else (0, { x.setBase { x.frames.base with slots := Function.update x.slots slot .empty } with
      destroyed := (x.sys.self.history.birth, (x.slots slot).physical) :: x.destroyed })

/-- A step of the loop of `snapshot_mapped`. The first part of the result lists slots and addresses.
-/
def snapshotSlot (capacity : ℕ) (t : Tables) (x : Buffers) (r : List (Fin maxSurfaces × ℕ) × Space)
    (k : Fin maxSurfaces) : List (Fin maxSurfaces × ℕ) × Space :=
  if (x.slots k).physical = 0 ∨ x.frames.shown k = false ∨ capacity ≤ r.1.length then r
  else
    match mapFramebufferRange t (serverAddress k) (x.slots k).physical bufferSize r.2 with
    | (false, space) => (r.1, space)
    | (true, space) => (r.1 ++ [(k, serverAddress k)], space)

def snapshotMapped (capacity : ℕ) (t : Tables) (x : Buffers) :
    List (Fin maxSurfaces × ℕ) × Buffers :=
  let (output, space) := (List.finRange maxSurfaces).foldl (x.snapshotSlot capacity t) ([], x.space)
  (output, x.setSpace space)

/-- `surface_snapshot`, when `writable` says whether the result can be copied to the caller. -/
def surfaceSnapshot (pointer max : ℕ) (t : Tables) (writable : Bool) (x : Buffers) : ℤ × Buffers :=
  let capacity := min max maxSurfaces
  if pointer = 0 ∨ capacity = 0 then (-22, x)
  else
    let (output, x) := x.snapshotMapped capacity t
    (if writable then output.length else -14, x)

/-- `SYS_CONSOLE_RELEASE`: the process becomes the display server (`set_server`). -/
def consoleRelease (x : Buffers) : Buffers := { x with server := some x.sys.self.history.birth }

/-- What happens. An event is one of the processes, and other calls are among them: `images` are the
address spaces that they give to processes. -/
inductive Input
  | event (e : Event) (images : Fin maxProcesses → Option Space)
  | create (width height : ℕ) (frame : Option ℕ) (t : Tables) (writable : Bool)
  | present (surface : BitVec 32) (shown writable : Bool)
  | flush (surface : BitVec 32) (writable : Bool)
  | destroy (surface : BitVec 32) (writable : Bool)
  | snapshot (pointer max : ℕ) (t : Tables) (copied writable : Bool)
  | consoleRelease (writable : Bool)

/-- What a call does. -/
def calls (x : Buffers) : Input → Buffers
  | .event _ _ => x
  | .create width height frame t _ => (x.create width height frame t).2
  | .present surface shown _ => { x with frames := (x.frames.present surface shown).2 }
  | .flush surface _ => { x with frames := (x.frames.flush surface).2 }
  | .destroy surface _ => (x.destroy surface).2
  | .snapshot pointer max t copied _ => (x.surfaceSnapshot pointer max t copied).2
  | .consoleRelease _ => x.consoleRelease

/-- The address spaces that an input gives to processes. -/
def Input.images : Input → Fin maxProcesses → Option Space
  | .event _ images => images
  | _ => fun _ => none

/-- The processes go on: surfaces of those that end are released, and a new process has the address
space that it is given. -/
def settle (s' : System) (images : Fin maxProcesses → Option Space) (x : Buffers) : Buffers :=
  { x with
    frames := Frames.prune { x.frames with base := x.frames.base.settle s' }
    spaces := fun i => (images i).getD (if x.sys.Live i then x.spaces i else []) }

section Next

variable (pbkdf2 : List UInt8 → List UInt8 → ℕ → Option (List UInt8))

/-- What becomes of the processes: after a call, the signals of its caller are delivered. -/
def processes (o : Input) (s : System) : System :=
  match o with
  | .event e _ => step pbkdf2 e s
  | .create _ _ _ _ writable | .present _ _ writable | .flush _ writable | .destroy _ writable |
    .snapshot _ _ _ _ writable | .consoleRelease writable => deliverPendingSignal writable s

def next (o : Input) (x : Buffers) : Buffers :=
  (x.calls o).settle (processes pbkdf2 o x.sys) o.images

/-- The kernel has started `init`. -/
def boot (image : Space) : Buffers := ⟨.boot, fun _ => image, fun _ => 0, none, [], []⟩

/-- The states that runs reach, when every input is an allowed one in the state before it. -/
inductive Reaches (allowed : Input → Buffers → Prop) : Buffers → Prop
  | boot (image : Space) : Reaches allowed (boot image)
  | next {x : Buffers} (h : Reaches allowed x) (o : Input) (hrun : x.sys.halted = false)
      (ha : allowed o x) : Reaches allowed (x.next pbkdf2 o)

end Next

/-- **Buffers are isolated**: only the creator of a surface and the display server lead to its
buffer, and who has destroyed a surface does not lead to what its buffer was. -/
structure Isolated (x : Buffers) : Prop where
  live : ∀ k, (x.slots k).physical ≠ 0 → ∀ i, x.sys.Live i →
    (x.spaces i).LeadsTo (x.slots k).physical →
    (x.sys.processes i).history.birth = x.creators k ∨
      x.server = some (x.sys.processes i).history.birth
  destroyed : ∀ d ∈ x.destroyed, ∀ i, x.sys.Live i → (x.sys.processes i).history.birth = d.1 →
    ¬ (x.spaces i).LeadsTo d.2

/-- Address spaces that are given to processes have pages that they had before, and pages outside of
all buffers. -/
def Fresh (images : Fin maxProcesses → Option Space) (x : Buffers) : Prop :=
  ∀ i, ∀ image ∈ images i, ∀ m ∈ image,
    (x.sys.Live i ∧ m ∈ x.spaces i) ∨ ∀ f ∈ x.buffers, ¬ InBuffer f m.2

/-- **The condition** on an input: pages that are handed out are not in use; nobody destroys a
surface while its buffer is mapped; only the server asks for a snapshot of the surfaces of others;
and no server with their buffers is replaced. -/
def Guarded (o : Input) (x : Buffers) : Prop :=
  match o with
  | .event _ images => Fresh images x
  | .create _ _ frame _ _ => ∀ f ∈ frame, (∀ f' ∈ x.buffers, Separate f f') ∧
      ∀ i, x.sys.Live i → ¬ (x.spaces i).LeadsTo f
  | .present _ _ _ | .flush _ _ => True
  | .destroy surface _ => ∀ slot ∈ x.frames.base.find surface,
      (x.slots slot).pid = x.sys.self.pid → ¬ x.space.LeadsTo (x.slots slot).physical
  | .snapshot _ _ _ _ _ => x.server = some x.sys.self.history.birth ∨
      ∀ k, (x.slots k).physical ≠ 0 → x.frames.shown k = true →
        x.creators k = x.sys.self.history.birth
  | .consoleRelease _ => ∀ i, x.sys.Live i → i ≠ x.sys.current →
      x.server = some (x.sys.processes i).history.birth →
      ∀ k, (x.slots k).physical ≠ 0 → (x.spaces i).LeadsTo (x.slots k).physical →
        (x.sys.processes i).history.birth = x.creators k

end Buffers

/-! ### What is mapped -/

section Mapping

variable {t : Tables} {s : Space} {m : ℕ × ℕ} {f f' : ℕ}

theorem inBuffer_first (f : ℕ) : InBuffer f (f / pageSize) :=
  ⟨le_rfl, Nat.lt_add_of_pos_right (pageCount_pos f)⟩

theorem Separate.symm (h : Separate f f') : Separate f' f := fun p hp hp' => h p hp' hp

theorem Separate.ne (h : Separate f f') : f ≠ f' := by
  rintro rfl
  exact h _ (inBuffer_first f) (inBuffer_first f)

variable {virtual : ℕ}

theorem mem_mapPhysicalPage {physical : ℕ}
    (h : m ∈ (mapPhysicalPage t virtual physical s).2) : m ∈ s ∨ m.2 = physical / pageSize := by
  rw [mapPhysicalPage] at h
  split at h
  · exact Or.inl h
  split at h
  · exact Or.inl h
  rcases List.mem_cons.mp h with rfl | h
  · exact Or.inr rfl
  · exact Or.inl (List.mem_of_mem_filter h)

theorem mem_mapPages {n physical : ℕ} (h : m ∈ (mapPages t n virtual physical s).2) :
    m ∈ s ∨ (physical / pageSize ≤ m.2 ∧ m.2 < physical / pageSize + n) := by
  induction n generalizing virtual physical s with
  | zero => exact Or.inl h
  | succ n ih =>
    rw [mapPages] at h
    split at h
    · exact Or.inl h
    have hpage : m ∈ (mapPhysicalPage t virtual physical s).2 → m ∈ s ∨ m.2 = physical / pageSize :=
      mem_mapPhysicalPage
    split at h
    · rename_i s' hs'
      rw [hs'] at hpage
      exact (hpage h).imp_right fun he => by omega
    · rename_i s' hs'
      rw [hs'] at hpage
      rcases ih h with h | ⟨hle, hlt⟩
      · exact (hpage h).imp_right fun he => by omega
      · rw [Nat.add_div_right physical (by decide)] at hle hlt
        exact Or.inr ⟨by omega, by omega⟩

/-- **Mapping a buffer** adds pages of it. -/
theorem mem_map (h : m ∈ (mapFramebufferRange t virtual f bufferSize s).2) :
    m ∈ s ∨ InBuffer f m.2 := by
  rw [mapFramebufferRange] at h
  split at h
  · exact Or.inl h
  have hmem := mem_mapPages h
  rwa [Nat.mul_div_cancel _ (by decide)] at hmem

end Mapping

/-! ### The invariant -/

/-- **The invariant of runs**: surfaces belong to live processes, their buffers are apart, and
nobody else has them. -/
structure Isolating (x : Buffers) : Prop where
  sound : Sound x.sys
  owned : ∀ k, (x.slots k).physical ≠ 0 → ∃ i, x.sys.Live i ∧
    (x.sys.processes i).pid = (x.slots k).pid ∧
    (x.sys.processes i).history.birth = x.creators k
  known : ∀ k, (x.slots k).physical ≠ 0 → (x.slots k).physical ∈ x.buffers
  apart : x.buffers.Pairwise Separate
  distinct : ∀ k k', (x.slots k).physical ≠ 0 → (x.slots k).physical = (x.slots k').physical →
    k = k'
  gone : ∀ d ∈ x.destroyed, d.2 ∈ x.buffers ∧
    ∀ k, (x.slots k).physical ≠ 0 → (x.slots k).physical ≠ d.2
  isolated : x.Isolated

section Buffers

variable {pbkdf2 : List UInt8 → List UInt8 → ℕ → Option (List UInt8)} {x : Buffers} {s' : System}
  {i : Fin maxProcesses} {f f' p : ℕ} {images : Fin maxProcesses → Option Space}

theorem Isolating.same (h : Isolating x) (hf : f ∈ x.buffers) (hf' : f' ∈ x.buffers)
    (hp : InBuffer f p) (hp' : InBuffer f' p) : f = f' := by
  by_contra hne
  have hsymm : Std.Symm Separate := ⟨fun _ _ => Separate.symm⟩
  exact h.apart.forall hf hf' hne p hp hp'

theorem Isolating.current (h : Isolating x) (hrun : x.sys.halted = false) :
    x.sys.Live x.sys.current :=
  ⟨(h.sound.runs hrun).1, (h.sound.runs hrun).2.1⟩

variable {r : List (Fin maxSurfaces × ℕ) × Space}

/-- **A snapshot** maps buffers of visible surfaces. -/
theorem mem_snapshotSlot {capacity : ℕ} {t : Tables} {m : ℕ × ℕ} {k : Fin maxSurfaces}
    (h : m ∈ (x.snapshotSlot capacity t r k).2) :
    m ∈ r.2 ∨ ((x.slots k).physical ≠ 0 ∧ x.frames.shown k = true ∧
      InBuffer (x.slots k).physical m.2) := by
  rw [Buffers.snapshotSlot] at h
  split at h
  · exact Or.inl h
  rename_i hskip
  obtain ⟨hlive, hskip⟩ := not_or.mp hskip
  have hshown : x.frames.shown k = true := Bool.eq_true_of_not_eq_false (not_or.mp hskip).1
  have hmap : m ∈ (mapFramebufferRange t (serverAddress k) (x.slots k).physical bufferSize r.2).2 →
      m ∈ r.2 ∨ InBuffer (x.slots k).physical m.2 := mem_map
  have hspace : m ∈ r.2 ∨ InBuffer (x.slots k).physical m.2 := by
    split at h
    all_goals
      rename_i hresult
      rw [hresult] at hmap
      exact hmap h
  exact hspace.imp_right fun hin => ⟨hlive, hshown, hin⟩

theorem mem_snapshot {capacity : ℕ} {t : Tables} {m : ℕ × ℕ} {l : List (Fin maxSurfaces)}
    (h : m ∈ (l.foldl (x.snapshotSlot capacity t) r).2) :
    m ∈ r.2 ∨ ∃ k, (x.slots k).physical ≠ 0 ∧ x.frames.shown k = true ∧
      InBuffer (x.slots k).physical m.2 := by
  induction l generalizing r with
  | nil => exact Or.inl h
  | cons k l ih =>
    rw [List.foldl_cons] at h
    rcases ih h with h | h
    · exact (mem_snapshotSlot h).imp_right fun hk => ⟨k, hk⟩
    · exact Or.inr h

/-! ### Calls -/

/-- The process that runs has more pages of buffers mapped, each of which it may have. -/
theorem Isolating.setSpace (h : Isolating x) {s : Space}
    (hspace : ∀ m ∈ s, m ∈ x.space ∨ (∀ k, (x.slots k).physical ≠ 0 →
      InBuffer (x.slots k).physical m.2 → x.creators k = x.sys.self.history.birth ∨
        x.server = some x.sys.self.history.birth) ∧ ∀ d ∈ x.destroyed, ¬ InBuffer d.2 m.2) :
    Isolating (x.setSpace s) := by
  have hspaces : (x.setSpace s).spaces = update x.spaces x.sys.current s := rfl
  refine ⟨h.sound, h.owned, h.known, h.apart, h.distinct, h.gone, fun k hk i hi hreach => ?_,
    fun d hd i hi hbirth hreach => ?_⟩
  · rw [hspaces] at hreach
    by_cases hic : i = x.sys.current
    · subst hic
      rw [update_self] at hreach
      obtain ⟨m, hm, hin⟩ := hreach
      rcases hspace m hm with hold | ⟨hmay, -⟩
      · exact h.isolated.live k hk _ hi ⟨m, hold, hin⟩
      · exact (hmay k hk hin).imp_left Eq.symm
    · rw [update_of_ne hic] at hreach
      exact h.isolated.live k hk i hi hreach
  · rw [hspaces] at hreach
    by_cases hic : i = x.sys.current
    · subst hic
      rw [update_self] at hreach
      obtain ⟨m, hm, hin⟩ := hreach
      rcases hspace m hm with hold | ⟨-, hnot⟩
      · exact h.isolated.destroyed d hd _ hi hbirth ⟨m, hold, hin⟩
      · exact hnot d hd hin
    · rw [update_of_ne hic] at hreach
      exact h.isolated.destroyed d hd i hi hbirth hreach

/-- **A snapshot** by the server, or of surfaces of the caller. -/
theorem Isolating.snapshotMapped (h : Isolating x)
    (hguard : x.server = some x.sys.self.history.birth ∨ ∀ k, (x.slots k).physical ≠ 0 →
      x.frames.shown k = true → x.creators k = x.sys.self.history.birth)
    (capacity : ℕ) (t : Tables) : Isolating (x.snapshotMapped capacity t).2 := by
  have heq : (x.snapshotMapped capacity t).2 =
      x.setSpace
        ((List.finRange maxSurfaces).foldl (x.snapshotSlot capacity t) ([], x.space)).2 := rfl
  rw [heq]
  refine h.setSpace fun m hm => ?_
  rcases mem_snapshot hm with hold | ⟨k, hk, hshown, hin⟩
  · exact Or.inl hold
  refine Or.inr ⟨fun k' hk' hin' => ?_, fun d hd hin' => ?_⟩
  · -- The page is in the buffer of one surface only.
    obtain rfl := h.distinct k k' hk (h.same (h.known k hk) (h.known k' hk') hin hin')
    exact hguard.symm.imp_left fun hown => hown k hk hshown
  · obtain ⟨hmem, hnot⟩ := h.gone d hd
    exact hnot k hk (h.same (h.known k hk) hmem hin hin')

/-- `createAt` is given as a function here: unfolded where it is applied, it would have the number
of its pages computed. -/
theorem createAt_eq : Buffers.createAt = fun slot physical t x =>
    match mapFramebufferRange t (clientAddress slot) physical bufferSize x.space with
    | (false, space) => (-28, x.lend physical space)
    | (true, space) => (0, (x.lend physical space).register slot physical) := by
  delta Buffers.createAt
  rfl

theorem createAt_cases (slot : Fin maxSurfaces) (f : ℕ) (t : Tables) (x : Buffers) :
    ∃ s : Space, (∀ m ∈ s, m ∈ x.space ∨ InBuffer f m.2) ∧
      ((x.createAt slot f t).2 = x.lend f s ∨
        (x.createAt slot f t).2 = (x.lend f s).register slot f) := by
  have hmem : ∀ m ∈ (mapFramebufferRange t (clientAddress slot) f bufferSize x.space).2,
      m ∈ x.space ∨ InBuffer f m.2 := fun m hm => mem_map hm
  rw [createAt_eq]
  beta_reduce
  generalize mapFramebufferRange t (clientAddress slot) f bufferSize x.space = r at hmem ⊢
  obtain ⟨mapped, s⟩ := r
  refine ⟨s, hmem, ?_⟩
  cases mapped with
  | false => exact Or.inl rfl
  | true => exact Or.inr rfl

/-- What `create` may do. -/
theorem create_cases (width height : ℕ) (frame : Option ℕ) (t : Tables) (x : Buffers) :
    (x.create width height frame t).2 = x ∨ ∃ slot, ∃ f ∈ frame, (x.slots slot).physical = 0 ∧
      (x.create width height frame t).2 = (x.createAt slot f t).2 := by
  generalize hy : (x.create width height frame t).2 = y
  rw [Buffers.create] at hy
  split at hy
  · exact Or.inl hy.symm
  split at hy
  · exact Or.inl hy.symm
  rename_i slot hslot
  have hfree : (x.slots slot).physical = 0 := by simpa using List.find?_some hslot
  cases frame with
  | none => exact Or.inl hy.symm
  | some f => exact Or.inr ⟨slot, f, rfl, hfree, hy.symm⟩

/-- **Pages of a new buffer** are given to the process that runs. Whether or not all of them could
be mapped, nobody else's buffer was. -/
theorem Isolating.lend (h : Isolating x) {s : Space} (hseparate : ∀ f' ∈ x.buffers, Separate f f')
    (hspace : ∀ m ∈ s, m ∈ x.space ∨ InBuffer f m.2) : Isolating (x.lend f s) := by
  have hset : Isolating (x.setSpace s) := h.setSpace fun m hm =>
    (hspace m hm).imp_right fun hin =>
      ⟨fun k hk hin' => absurd hin' (hseparate _ (h.known k hk) m.2 hin),
        fun d hd hin' => hseparate _ (h.gone d hd).1 m.2 hin hin'⟩
  exact ⟨hset.sound, hset.owned, fun k hk => List.mem_cons_of_mem _ (hset.known k hk),
    List.pairwise_cons.mpr ⟨hseparate, hset.apart⟩, hset.distinct,
    fun d hd => ⟨List.mem_cons_of_mem _ (hset.gone d hd).1, (hset.gone d hd).2⟩,
    ⟨hset.isolated.live, hset.isolated.destroyed⟩⟩

/-- **A surface** gets a buffer that no other surface has, to which only its creator leads. -/
theorem Isolating.register (h : Isolating x) (hself : x.sys.Live x.sys.current)
    {slot : Fin maxSurfaces} (hf : f ∈ x.buffers)
    (hother : ∀ k, k ≠ slot → (x.slots k).physical ≠ 0 → (x.slots k).physical ≠ f)
    (hgone : ∀ d ∈ x.destroyed, f ≠ d.2)
    (hunmapped : ∀ i, x.sys.Live i → i ≠ x.sys.current → ¬ (x.spaces i).LeadsTo f) :
    Isolating (x.register slot f) := by
  have hslots : ∀ k, k ≠ slot → (x.register slot f).slots k = x.slots k :=
    fun k hk => update_of_ne hk _ _
  have hslot : (x.register slot f).slots slot = ⟨x.sys.self.pid, f⟩ := update_self _ _ _
  have hcreators : ∀ k, k ≠ slot → (x.register slot f).creators k = x.creators k :=
    fun k hk => update_of_ne hk _ _
  have hcreator : (x.register slot f).creators slot = x.sys.self.history.birth :=
    update_self _ _ _
  refine ⟨h.sound, fun k hk => ?_, fun k hk => ?_, h.apart, fun k k' hk he => ?_,
    fun d hd => ⟨(h.gone d hd).1, fun k hk => ?_⟩, fun k hk i hi hreach => ?_, h.isolated.destroyed⟩
  · by_cases hks : k = slot
    · subst hks
      rw [hslot, hcreator]
      exact ⟨x.sys.current, hself, rfl, rfl⟩
    · rw [hslots k hks] at hk ⊢
      rw [hcreators k hks]
      exact h.owned k hk
  · by_cases hks : k = slot
    · subst hks
      rw [hslot]
      exact hf
    · rw [hslots k hks] at hk ⊢
      exact h.known k hk
  · by_cases hks : k = slot
    · subst hks
      by_contra hne
      rw [hslot] at hk he
      rw [hslots k' (Ne.symm hne)] at he
      exact hother k' (Ne.symm hne) (he ▸ hk) he.symm
    · rw [hslots k hks] at hk he
      by_cases hks' : k' = slot
      · subst hks'
        rw [hslot] at he
        exact absurd he (hother k hks hk)
      · rw [hslots k' hks'] at he
        exact h.distinct k k' hk he
  · by_cases hks : k = slot
    · subst hks
      rw [hslot]
      exact hgone d hd
    · rw [hslots k hks] at hk ⊢
      exact (h.gone d hd).2 k hk
  · by_cases hks : k = slot
    · subst hks
      rw [hslot] at hreach
      rw [hcreator]
      by_cases hic : i = x.sys.current
      · subst hic
        exact Or.inl rfl
      · exact absurd hreach (hunmapped i hi hic)
    · rw [hslots k hks] at hk hreach
      rw [hcreators k hks]
      exact h.isolated.live k hk i hi hreach

/-- **Creating** a surface, with a buffer that is not in use. -/
theorem Isolating.create (h : Isolating x) (hself : x.sys.Live x.sys.current) {frame : Option ℕ}
    (hguard : ∀ f ∈ frame, (∀ f' ∈ x.buffers, Separate f f') ∧
      ∀ i, x.sys.Live i → ¬ (x.spaces i).LeadsTo f)
    (width height : ℕ) (t : Tables) : Isolating (x.create width height frame t).2 := by
  rcases create_cases width height frame t x with heq | ⟨slot, f, hf, hfree, heq⟩ <;> rw [heq]
  · exact h
  obtain ⟨s, hmap, heq⟩ := createAt_cases slot f t x
  obtain ⟨hseparate, hunmapped⟩ := hguard f hf
  have hlent : Isolating (x.lend f s) := h.lend hseparate hmap
  have hold : ∀ f' ∈ x.buffers, f' ≠ f := fun f' hf' => (hseparate f' hf').symm.ne
  rcases heq with heq | heq <;> rw [heq]
  · exact hlent
  refine hlent.register hself List.mem_cons_self (fun k _ hk => hold _ (h.known k hk))
    (fun d hd => (hold d.2 (h.gone d hd).1).symm) fun i hi hic hreach => hunmapped i hi ?_
  have hspaces : (x.lend f s).spaces i = x.spaces i := update_of_ne hic _ _
  rwa [hspaces] at hreach

/-- Surfaces may go, and processes and address spaces with them. -/
structure Fewer (x y : Buffers) : Prop where
  slots : ∀ k, (y.slots k).physical ≠ 0 → y.slots k = x.slots k
  creators : y.creators = x.creators
  server : y.server = x.server
  buffers : y.buffers = x.buffers
  /-- Who leads to a buffer did so before. -/
  spaces : ∀ i, y.sys.Live i → ∀ f ∈ x.buffers, (y.spaces i).LeadsTo f → x.sys.Live i ∧
    (y.sys.processes i).history.birth = (x.sys.processes i).history.birth ∧
    (x.spaces i).LeadsTo f

theorem Isolating.fewer {y : Buffers} (h : Isolating x) (hsound : Sound y.sys) (hfewer : Fewer x y)
    (howned : ∀ k, (y.slots k).physical ≠ 0 → ∃ i, y.sys.Live i ∧
      (y.sys.processes i).pid = (x.slots k).pid ∧
      (y.sys.processes i).history.birth = x.creators k)
    (hgone : ∀ d ∈ y.destroyed, d ∈ x.destroyed ∨ (d.2 ∈ x.buffers ∧
      (∀ k, (y.slots k).physical ≠ 0 → (y.slots k).physical ≠ d.2) ∧
      ∀ i, y.sys.Live i → (y.sys.processes i).history.birth = d.1 →
        ¬ (y.spaces i).LeadsTo d.2)) : Isolating y := by
  have hlive : ∀ k, (y.slots k).physical ≠ 0 → (x.slots k).physical ≠ 0 :=
    fun k hk => by rwa [← hfewer.slots k hk]
  refine ⟨hsound, fun k hk => ?_, fun k hk => ?_, hfewer.buffers ▸ h.apart, fun k k' hk he => ?_,
    fun d hd => ?_, fun k hk i hi hreach => ?_, fun d hd i hi hbirth hreach => ?_⟩
  · rw [hfewer.slots k hk, hfewer.creators]
    exact howned k hk
  · rw [hfewer.slots k hk, hfewer.buffers]
    exact h.known k (hlive k hk)
  · have hk' : (y.slots k').physical ≠ 0 := by rwa [← he]
    rw [hfewer.slots k hk, hfewer.slots k' hk'] at he
    exact h.distinct k k' (hlive k hk) he
  · rw [hfewer.buffers]
    rcases hgone d hd with hold | ⟨hmem, hne, -⟩
    · refine ⟨(h.gone d hold).1, fun k hk => ?_⟩
      rw [hfewer.slots k hk]
      exact (h.gone d hold).2 k (hlive k hk)
    · exact ⟨hmem, hne⟩
  · rw [hfewer.slots k hk] at hreach
    obtain ⟨hi₀, hbirth, hreach⟩ := hfewer.spaces i hi _ (h.known k (hlive k hk)) hreach
    rw [hbirth, hfewer.creators, hfewer.server]
    exact h.isolated.live k (hlive k hk) i hi₀ hreach
  · rcases hgone d hd with hold | ⟨-, -, hnot⟩
    · obtain ⟨hi₀, hsame, hreach⟩ := hfewer.spaces i hi _ (h.gone d hold).1 hreach
      exact h.isolated.destroyed d hold i hi₀ (hsame.symm.trans hbirth) hreach
    · exact hnot i hi hbirth hreach

/-- **Destroying** a surface whose buffer the caller has not mapped. -/
theorem Isolating.destroy (h : Isolating x) (hself : x.sys.Live x.sys.current) {surface : BitVec 32}
    (hguard : ∀ slot ∈ x.frames.base.find surface, (x.slots slot).pid = x.sys.self.pid →
      ¬ x.space.LeadsTo (x.slots slot).physical) : Isolating (x.destroy surface).2 := by
  rw [Buffers.destroy]
  split
  · exact h
  rename_i slot hfind
  split
  · exact h
  rename_i hown
  have hunmapped := hguard slot hfind (not_not.mp hown)
  have hphysical : (x.slots slot).physical ≠ 0 := physical_of_find hfind
  generalize hy : ({ x.setBase { x.frames.base with
      slots := update x.slots slot .empty } with
    destroyed := (x.sys.self.history.birth, (x.slots slot).physical) :: x.destroyed } : Buffers) = y
  have hsys : y.sys = x.sys := hy ▸ rfl
  have hspaces : y.spaces = x.spaces := hy ▸ rfl
  have hslots : y.slots = update x.slots slot .empty := hy ▸ rfl
  have hdestroyed : y.destroyed =
    (x.sys.self.history.birth, (x.slots slot).physical) :: x.destroyed := hy ▸ rfl
  have hne : ∀ k, (y.slots k).physical ≠ 0 → k ≠ slot := fun k hk he => hk (by
    rw [he, hslots, update_self]
    rfl)
  have hsame : ∀ k, (y.slots k).physical ≠ 0 → y.slots k = x.slots k := fun k hk => by
    rw [hslots, update_of_ne (hne k hk)]
  have hfewer : Fewer x y := ⟨hsame, hy ▸ rfl, hy ▸ rfl, hy ▸ rfl, fun i hi f _ hreach => by
    rw [hsys] at hi ⊢
    rw [hspaces] at hreach
    exact ⟨hi, rfl, hreach⟩⟩
  refine h.fewer (hsys ▸ h.sound) hfewer (fun k hk => ?_) fun d hd => ?_
  · rw [hsys]
    exact h.owned k (by rwa [← hsame k hk])
  · rw [hdestroyed] at hd
    refine (List.mem_cons.mp hd).symm.imp_right fun he => ?_
    subst he
    refine ⟨h.known slot hphysical, fun k hk he => ?_, fun i hi hbirth => ?_⟩
    · rw [hsame k hk] at he
      exact hne k hk (h.distinct k slot (by rwa [← hsame k hk]) he)
    · -- The former owner is the process that runs.
      rw [hsys] at hi hbirth
      obtain rfl := h.sound.identity.birth i x.sys.current hi.1 hself.1 hbirth
      rw [hspaces]
      exact hunmapped

/-- **A new server**, when the one before has no buffers of others. -/
theorem Isolating.consoleRelease (h : Isolating x) (hguard : ∀ i, x.sys.Live i → i ≠ x.sys.current →
      x.server = some (x.sys.processes i).history.birth →
      ∀ k, (x.slots k).physical ≠ 0 → (x.spaces i).LeadsTo (x.slots k).physical →
        (x.sys.processes i).history.birth = x.creators k) : Isolating x.consoleRelease := by
  refine ⟨h.sound, h.owned, h.known, h.apart, h.distinct, h.gone, fun k hk i hi hreach => ?_,
    h.isolated.destroyed⟩
  by_cases hic : i = x.sys.current
  · subst hic
    exact Or.inr rfl
  · refine Or.inl ?_
    rcases h.isolated.live k hk i hi hreach with hown | hserver
    · exact hown
    · exact hguard i hi hic hserver k hk hreach

theorem Isolating.frames (h : Isolating x) {frames : Frames} (hbase : frames.base = x.frames.base) :
    Isolating { x with frames := frames } := by
  have hsys : ({ x with frames := frames } : Buffers).sys = x.sys := congrArg Surfaces.sys hbase
  have hslots : ({ x with frames := frames } : Buffers).slots = x.slots :=
    congrArg Surfaces.slots hbase
  refine h.fewer (hsys ▸ h.sound) ⟨fun k _ => congrFun hslots k, rfl, rfl, rfl, ?_⟩ (fun k hk => ?_)
    fun d hd => Or.inl hd
  · rw [hsys]
    exact fun i hi f _ hreach => ⟨hi, rfl, hreach⟩
  · rw [hsys]
    exact h.owned k (hslots ▸ hk)

theorem base_publish (surface : BitVec 32) (y : Frames) : (y.publish surface).base = y.base := by
  rw [Frames.publish, Frames.pushDirty]
  split <;> rfl

theorem base_present (surface : BitVec 32) (shown : Bool) (y : Frames) :
    (y.present surface shown).2.base = y.base := by
  rw [Frames.present]
  split
  · rfl
  split
  · rfl
  · exact base_publish surface _

theorem base_flush (surface : BitVec 32) (y : Frames) : (y.flush surface).2.base = y.base := by
  rw [Frames.flush]
  split
  · rfl
  split
  · rfl
  · exact base_publish surface y

/-- **One call** that meets the condition. -/
theorem Isolating.calls (h : Isolating x) (hrun : x.sys.halted = false) (o : Buffers.Input)
    (hguard : Buffers.Guarded o x) : Isolating (x.calls o) := by
  have hself := h.current hrun
  cases o with
  | event e images => exact h
  | create width height frame t w => exact h.create hself hguard width height t
  | present surface shown w => exact h.frames (base_present surface shown x.frames)
  | flush surface w => exact h.frames (base_flush surface x.frames)
  | destroy surface w => exact h.destroy hself hguard
  | consoleRelease w => exact h.consoleRelease hguard
  | snapshot pointer max t copied w =>
    rw [Buffers.calls, Buffers.surfaceSnapshot]
    split
    · exact h
    · exact h.snapshotMapped hguard _ t

theorem sys_callsOf (x : Buffers) (o : Buffers.Input) : (x.calls o).sys = x.sys := by
  cases o with
  | event e images => rfl
  | create width height frame t w =>
    rw [Buffers.calls]
    rcases create_cases width height frame t x with heq | ⟨slot, f, -, -, heq⟩ <;> rw [heq]
    obtain ⟨s, -, heq | heq⟩ := createAt_cases slot f t x <;> rw [heq] <;> rfl
  | present surface shown w => exact congrArg Surfaces.sys (base_present surface shown x.frames)
  | flush surface w => exact congrArg Surfaces.sys (base_flush surface x.frames)
  | destroy surface w =>
    rw [Buffers.calls, Buffers.destroy]
    split
    · rfl
    split <;> rfl
  | consoleRelease w => rfl
  | snapshot pointer max t copied w =>
    rw [Buffers.calls, Buffers.surfaceSnapshot]
    split <;> rfl

theorem goes_processesOf (hs : Sound x.sys) (hrun : x.sys.halted = false) (o : Buffers.Input) :
    Goes x.sys (Buffers.processes pbkdf2 o x.sys) := by
  cases o with
  | event e images => exact goes_step hs hrun e
  | create | present | flush | destroy | snapshot | consoleRelease => exact goes_deliver hs _

/-- **The processes go on**, and address spaces that they are given have no buffers. -/
theorem Isolating.settle (h : Isolating x) (hgoes : Goes x.sys s')
    (hfresh : Buffers.Fresh images x) : Isolating (x.settle s' images) := by
  have hsys : (x.settle s' images).sys = s' :=
    (rest_release (Surfaces.ended x.sys s') { x.frames.base with sys := s' }).1
  have hrelease : ∀ k, ((x.settle s' images).slots k).physical ≠ 0 →
      (x.settle s' images).slots k = x.slots k ∧
        ∀ i ∈ Surfaces.ended x.sys s', (x.sys.processes i).pid ≠ (x.slots k).pid :=
    slots_release (Surfaces.ended x.sys s') { x.frames.base with sys := s' }
  have hspaces : ∀ i, (x.settle s' images).spaces i =
    (images i).getD (if x.sys.Live i then x.spaces i else []) := fun _ => rfl
  have hsame : ∀ i, s'.Live i → x.sys.Live i → (s'.processes i).pid = (x.sys.processes i).pid ∧
      (s'.processes i).history.birth = (x.sys.processes i).history.birth := fun i hi hi₀ =>
    ((hgoes.origin i hi).resolve_right fun hnew => hnew.1 hi₀).2
  refine h.fewer (by rw [hsys]; exact hgoes.sound)
    ⟨fun k hk => (hrelease k hk).1, rfl, rfl, rfl, fun i hi f hf hreach => ?_⟩ (fun k hk => ?_)
    fun d hd => Or.inl hd
  · rw [hsys] at hi ⊢
    obtain ⟨m, hm, hin⟩ := hreach
    have hold : x.sys.Live i ∧ m ∈ x.spaces i := by
      rw [hspaces] at hm
      cases himage : images i with
      | some image =>
        rw [himage, Option.getD_some] at hm
        exact (hfresh i image himage m hm).resolve_right fun hnot => hnot f hf hin
      | none =>
        rw [himage, Option.getD_none] at hm
        split at hm
        · rename_i hlive
          exact ⟨hlive, hm⟩
        · cases hm
    exact ⟨hold.1, (hsame i hi hold.1).2, m, hold.2, hin⟩
  · -- The owner of a surface that is left has not ended.
    obtain ⟨heq, hne⟩ := hrelease k hk
    rw [heq] at hk
    obtain ⟨i, hi, hpid, hbirth⟩ := h.owned k hk
    have hlive : s'.Live i := by
      by_contra hended
      exact hne i (mem_ended.mpr ⟨hi, hended⟩) hpid
    rw [hsys]
    exact ⟨i, hlive, (hsame i hlive hi).1.trans hpid, (hsame i hlive hi).2.trans hbirth⟩

/-! ### Runs -/

/-- **One input** that meets the condition. -/
theorem Isolating.next (h : Isolating x) (hrun : x.sys.halted = false) (o : Buffers.Input)
    (hguard : Buffers.Guarded o x) : Isolating (x.next pbkdf2 o) := by
  refine (h.calls hrun o hguard).settle ?_ ?_
  · rw [sys_callsOf]
    exact goes_processesOf h.sound hrun o
  · cases o with
    | event e images => exact hguard
    | create | present | flush | destroy | snapshot | consoleRelease => exact nofun

theorem Isolating.boot (image : Space) : Isolating (.boot image) :=
  ⟨boot_sound, fun _ hk => absurd rfl hk, fun _ hk => absurd rfl hk, List.Pairwise.nil,
    fun _ _ hk => absurd rfl hk, nofun, fun _ hk => absurd rfl hk, nofun⟩

theorem Buffers.Reaches.isolating (h : Buffers.Reaches pbkdf2 Buffers.Guarded x) :
    Isolating x := by
  induction h with
  | boot image => exact .boot image
  | next _ o hrun hguard ih => exact ih.next hrun o hguard

/-- **Headline.** In every run whose inputs all meet the condition, buffers are isolated. -/
theorem isolated_of_guarded (h : Buffers.Reaches pbkdf2 Buffers.Guarded x) : x.Isolated :=
  h.isolating.isolated

end Buffers

/-! ### Three runs -/

instance (images : Fin maxProcesses → Option Space) (x : Buffers) :
    Decidable (Buffers.Fresh images x) :=
  decidable_of_iff (∀ i, ∀ m ∈ (images i).getD [],
      (x.sys.Live i ∧ m ∈ x.spaces i) ∨ ∀ f ∈ x.buffers, ¬ InBuffer f m.2) <| by
    refine forall_congr' fun i => ?_
    cases images i with
    | none => simp
    | some image => simp

instance (o : Buffers.Input) (x : Buffers) : Decidable (Buffers.Guarded o x) :=
  match o with
  | .event _ images => inferInstanceAs (Decidable (Buffers.Fresh images x))
  | .create _ _ frame _ _ =>
    inferInstanceAs (Decidable (∀ f ∈ frame, (∀ f' ∈ x.buffers, Separate f f') ∧
      ∀ i, x.sys.Live i → ¬ (x.spaces i).LeadsTo f))
  | .present _ _ _ | .flush _ _ => inferInstanceAs (Decidable True)
  | .destroy surface _ =>
    inferInstanceAs (Decidable (∀ slot ∈ x.frames.base.find surface,
      (x.slots slot).pid = x.sys.self.pid → ¬ x.space.LeadsTo (x.slots slot).physical))
  | .snapshot _ _ _ _ _ =>
    inferInstanceAs (Decidable (x.server = some x.sys.self.history.birth ∨
      ∀ k, (x.slots k).physical ≠ 0 → x.frames.shown k = true →
        x.creators k = x.sys.self.history.birth))
  | .consoleRelease _ =>
    inferInstanceAs (Decidable (∀ i, x.sys.Live i → i ≠ x.sys.current →
      x.server = some (x.sys.processes i).history.birth →
      ∀ k, (x.slots k).physical ≠ 0 → (x.spaces i).LeadsTo (x.slots k).physical →
        (x.sys.processes i).history.birth = x.creators k))

/-- The inputs of a list, one after another. -/
def Buffers.run : List Buffers.Input → Buffers → Buffers
  | [], x => x
  | o :: rest, x => run rest (x.next (fun _ _ _ => none) o)

/-- The inputs of a run are allowed. -/
def Buffers.mayRun (allowed : Buffers.Input → Buffers → Bool) : List Buffers.Input → Buffers → Bool
  | [], _ => true
  | o :: rest, x =>
    !x.sys.halted && allowed o x && mayRun allowed rest (x.next (fun _ _ _ => none) o)

theorem Buffers.Reaches.run {allowed : Buffers.Input → Buffers → Prop}
    [∀ o x, Decidable (allowed o x)] {x : Buffers}
    (h : Buffers.Reaches (fun _ _ _ => none) allowed x) {inputs : List Buffers.Input}
    (hmay : Buffers.mayRun (fun o x => decide (allowed o x)) inputs x = true) :
    Buffers.Reaches (fun _ _ _ => none) allowed (x.run inputs) := by
  induction inputs generalizing x with
  | nil => exact h
  | cons o rest ih =>
    simp only [Buffers.mayRun, Bool.and_eq_true, Bool.not_eq_true', decide_eq_true_eq] at hmay
    exact ih (h.next o hmay.1.1 hmay.1.2) hmay.2

/-- Page tables for everything. -/
def allTables : Tables := ⟨fun _ => true, 0⟩

/-- The image of `init`: one page. -/
def initImage : Space := [(0x400, 16)]

/-- The image of its child. -/
def childImages : Fin maxProcesses → Option Space :=
  fun i => if i = 1 then some [(0x400, 17)] else none

/-- `init` creates a surface and shows it; a child gets to run. -/
def shownToChild : List Buffers.Input :=
  [.create 320 200 (some 0x100000) allTables true, .present 0 true true,
    .event (.call (.fork true) true) childImages, .event (.call .yield true) fun _ => none]

/-- The child becomes the display server before it asks for a snapshot. -/
def servedSnapshot : List Buffers.Input :=
  shownToChild ++ [.consoleRelease true, .snapshot 0x400000 8 allTables true true]

/-- The child asks for a snapshot at once. -/
def strangeSnapshot : List Buffers.Input :=
  shownToChild ++ [.snapshot 0x400000 8 allTables true true]

/-- `init` creates a surface and destroys it. -/
def destroyedSurface : List Buffers.Input :=
  [.create 320 200 (some 0x100000) allTables true, .destroy 0 true]

/-- The display server has the buffer of `init`. -/
theorem isolated_of_guarded_sample :
    ((Buffers.boot initImage).run servedSnapshot).Isolated ∧
      (((Buffers.boot initImage).run servedSnapshot).spaces 1).LeadsTo 0x100000 :=
  ⟨isolated_of_guarded ((Buffers.Reaches.boot initImage).run (by decide +kernel)),
    by decide +kernel⟩

/-- A process that is not the server has the buffer of `init`, and `init` has that of a surface it
has destroyed. -/
theorem buffer_exposed :
    let x := (Buffers.boot initImage).run strangeSnapshot
    let y := (Buffers.boot initImage).run destroyedSurface
    (Buffers.Reaches (fun _ _ _ => none) (fun _ _ => True) x ∧ ¬ x.Isolated) ∧
      Buffers.Reaches (fun _ _ _ => none) (fun _ _ => True) y ∧ ¬ y.Isolated := by
  intro x y
  refine ⟨⟨(Buffers.Reaches.boot initImage).run (by decide +kernel), fun h => ?_⟩,
    (Buffers.Reaches.boot initImage).run (by decide +kernel), fun h => ?_⟩
  · have hlive := h.live 0 (by decide +kernel) 1 (by decide +kernel) (by decide +kernel)
    exact absurd hlive (by decide +kernel)
  · exact h.destroyed (0, 0x100000) (by decide +kernel) 0 (by decide +kernel) (by decide +kernel)
      (by decide +kernel)

end ImagineOS.Display
