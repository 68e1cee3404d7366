import ImagineOS.Libc.Heap
import Mathlib.Order.Interval.Finset.Nat

/-!
# Libc: what programs get from the heap

A program asks for blocks, writes in those it has, and gives them back. As long as `sbrk` answers
with fresh memory or with `-1`, every block is large enough and apart from the others, and no call
changes another block (`heap_correct`). What the kernel answers where it has no memory is another
error, which `malloc` takes for an address (`malloc_of_error`).
-/

namespace ImagineOS.Libc

open List Option ByteStore

/-! ### Programs -/

/-- A block that a program has, with the size it asked for. -/
structure Live where
  pointer : ℕ
  requested : ℕ
  deriving DecidableEq

/-- A heap, and the blocks that its program has. -/
structure World where
  heap : Heap
  live : List Live

/-- What a program does: a call, or a byte that it writes. -/
inductive Event
  | malloc (size : ℕ)
  | calloc (count size : ℕ)
  | realloc (pointer size : ℕ)
  | free (pointer : ℕ)
  | store (address : ℕ) (byte : UInt8)

/-- A block is added, unless there is none. -/
def addLive (live : List Live) (pointer requested : ℕ) : List Live :=
  if pointer = 0 then live else ⟨pointer, requested⟩ :: live

/-- A block is given back. -/
def dropLive (live : List Live) (pointer : ℕ) : List Live := live.filter (·.pointer ≠ pointer)

/-- The blocks after `realloc`. -/
def moveLive (live : List Live) (pointer size result : ℕ) : List Live :=
  if pointer = 0 then addLive live result size
  else if size = 0 then dropLive live pointer
  else if result = 0 then live
  else ⟨result, size⟩ :: dropLive live pointer

/-- An event, and the pointer it returns. -/
def World.step (sbrk : ℕ → ℕ) (e : Event) (w : World) : Option (ℕ × World) :=
  match e with
  | .malloc size => (malloc sbrk size w.heap).map fun (p, h) => (p, ⟨h, addLive w.live p size⟩)
  | .calloc count size =>
    (calloc sbrk count size w.heap).map fun (p, h) => (p, ⟨h, addLive w.live p (count * size)⟩)
  | .realloc pointer size =>
    (realloc sbrk pointer size w.heap).map fun (p, h) => (p, ⟨h, moveLive w.live pointer size p⟩)
  | .free pointer => some (0, ⟨free pointer w.heap, dropLive w.live pointer⟩)
  | .store address byte =>
    some (0, ⟨{ w.heap with bytes := Function.update w.heap.bytes address byte }, w.live⟩)

/-- The program has a block at a pointer. -/
def World.Has (w : World) (pointer : ℕ) : Prop := ∃ b ∈ w.live, b.pointer = pointer

/-- A program uses the heap correctly: it gives back and moves blocks that it has, writes inside
them, and its sizes are `size_t`. -/
def Event.Allowed (w : World) : Event → Prop
  | .malloc size => size < wordSize
  | .calloc count size => count < wordSize ∧ size < wordSize
  | .realloc pointer size => size < wordSize ∧ (pointer = 0 ∨ w.Has pointer)
  | .free pointer => pointer = 0 ∨ w.Has pointer
  | .store address _ => ∃ b ∈ w.live, b.pointer ≤ address ∧ address < b.pointer + b.requested

/-! ### Answers of `sbrk` -/

/-- Memory that the program did not have. -/
structure Fresh (h : Heap) (memory increment : ℕ) : Prop where
  pos : 0 < memory
  aligned : heapAlignment ∣ memory
  bound : memory + increment ≤ wordSize
  apart : ∀ r ∈ h.obtained, Apart memory increment r.base r.length

/-- `sbrk` answers with fresh memory, or with `-1`. -/
def Behaves (sbrk : ℕ → ℕ) (h : Heap) : Prop :=
  ∀ increment, sbrk increment = wordSize - 1 ∨ Fresh h (sbrk increment) increment

/-- `sbrk` answers with fresh memory, or with an error, which is a negative `long`. -/
def Responds (sbrk : ℕ → ℕ) (h : Heap) : Prop :=
  ∀ increment, (longMax < sbrk increment ∧ sbrk increment < wordSize) ∨
    Fresh h (sbrk increment) increment

/-- The worlds that a program reaches, where `sbrk` meets a condition whenever it may be asked. -/
inductive Reaches (answers : (ℕ → ℕ) → Heap → Prop) : World → Prop
  | start (bytes : ByteStore) (errno : ℕ) : Reaches answers ⟨⟨bytes, 0, errno, []⟩, []⟩
  | step {w w' : World} {sbrk : ℕ → ℕ} {e : Event} {p : ℕ} (h : Reaches answers w)
    (hsbrk : answers sbrk w.heap) (hallowed : e.Allowed w) (hstep : w.step sbrk e = some (p, w')) :
    Reaches answers w'

/-! ### What programs rely on -/

/-- The bytes of a block, as its header has them. -/
def World.room (w : World) (b : Live) : ℕ := sizeOf w.heap.bytes (headerOf b.pointer)

/-- The blocks of a program. -/
structure World.Correct (w : World) : Prop where
  aligned : ∀ b ∈ w.live, heapAlignment ∣ b.pointer
  large : ∀ b ∈ w.live, b.requested ≤ w.room b
  nonempty : ∀ b ∈ w.live, 0 < w.room b
  inside : ∀ b ∈ w.live, ∃ r ∈ w.heap.obtained,
    r.base ≤ b.pointer ∧ b.pointer + w.room b ≤ r.base + r.length
  apart : w.live.Pairwise fun b c => Apart b.pointer (w.room b) c.pointer (w.room c)

/-- The bytes that a program has in a block are the same after a step. -/
def World.Same (w w' : World) (b : Live) : Prop :=
  ByteStore.Agree w.heap.bytes w'.heap.bytes b.pointer b.requested

/-- The block is what the event is about. -/
def Event.About (b : Live) : Event → Prop
  | .malloc _ | .calloc .. => False
  | .realloc pointer _ | .free pointer => b.pointer = pointer
  | .store address _ => b.pointer ≤ address ∧ address < b.pointer + b.requested

/-- What a step leaves, and what its result is. -/
structure Keeps (e : Event) (w : World) (p : ℕ) (w' : World) : Prop where
  /-- Another block stays, with its bytes. -/
  others : ∀ b ∈ w.live, ¬ e.About b → b ∈ w'.live ∧ w.Same w' b
  malloc : ∀ size, e = .malloc size → p ≠ 0 → ⟨p, size⟩ ∈ w'.live
  /-- The memory is zeroed, and there is none where the product overflows. -/
  calloc : ∀ count size, e = .calloc count size →
    (p ≠ 0 → ⟨p, count * size⟩ ∈ w'.live ∧ ∀ i < count * size, w'.heap.bytes (p + i) = 0) ∧
      (wordSize ≤ count * size → p = 0)
  /-- The old block stays where there is no new one, and its bytes are moved otherwise. -/
  realloc : ∀ pointer size, e = .realloc pointer size → size ≠ 0 →
    (p ≠ 0 → ⟨p, size⟩ ∈ w'.live) ∧
      ∀ b ∈ w.live, b.pointer = pointer →
        (p = 0 → b ∈ w'.live ∧ w.Same w' b) ∧
          (p ≠ 0 → ∀ i < min b.requested size, w'.heap.bytes (p + i) = w.heap.bytes (pointer + i))

/-! ### The list of the headers -/

/-- The headers from one on. -/
def Chain (m : ByteStore) : ℕ → List ℕ → Prop
  | head, [] => head = 0
  | head, a :: l => head = a ∧ a ≠ 0 ∧ Chain m (nextOf m a) l

/-- The bytes of a block, with its header. -/
def extent (m : ByteStore) (a : ℕ) : ℕ := headerSize + sizeOf m a

/-- A list of headers in memory that came from `sbrk`. -/
structure Sound (h : Heap) (l : List ℕ) : Prop where
  chain : Chain h.bytes h.blocks l
  aligned : ∀ a ∈ l, heapAlignment ∣ a
  size_pos : ∀ a ∈ l, 0 < sizeOf h.bytes a
  inside : ∀ a ∈ l, ∃ r ∈ h.obtained,
    r.base ≤ a ∧ a + extent h.bytes a ≤ r.base + r.length
  bound : ∀ r ∈ h.obtained, r.base + r.length ≤ wordSize
  apart : l.Pairwise fun a b => Apart a (extent h.bytes a) b (extent h.bytes b)

/-- The blocks of a program have headers, which are not free. -/
structure Held (w : World) (l : List ℕ) : Prop where
  sound : Sound w.heap l
  block : ∀ b ∈ w.live, ∃ a ∈ l, b.pointer = a + headerSize ∧ ¬ isFree w.heap.bytes a ∧
    b.requested ≤ sizeOf w.heap.bytes a
  nodup : (w.live.map Live.pointer).Nodup

variable {m m' : ByteStore} {h h' : Heap} {l : List ℕ} {a b : ℕ} {w w' : World}
  {sbrk : ℕ → ℕ}

theorem sizeOf_eq (hagree : ByteStore.Agree m m' a 16) : sizeOf m' a = sizeOf m a :=
  (hagree.mono (Nat.le_refl a) (by omega)).word_eq

theorem nextOf_eq (hagree : ByteStore.Agree m m' a 16) : nextOf m' a = nextOf m a :=
  (hagree.mono (by omega) (by omega)).word_eq

theorem isFree_iff (hagree : ByteStore.Agree m m' a headerSize) : isFree m' a ↔ isFree m a := by
  have hfree : ByteStore.Agree m m' (a + 16) 4 := hagree.mono (by omega) (by
    simp only [headerSize]
    omega)
  rw [isFree, isFree, hfree.word_eq]

variable {head : ℕ}

theorem Chain.of_agree (hchain : Chain m head l)
    (hagree : ∀ a ∈ l, ByteStore.Agree m m' a 16) : Chain m' head l := by
  induction l generalizing head with
  | nil => exact hchain
  | cons a l ih =>
    obtain ⟨hhead, hne, hrest⟩ := hchain
    refine ⟨hhead, hne, ?_⟩
    rw [nextOf_eq (hagree a mem_cons_self)]
    exact ih hrest fun c hc => hagree c (mem_cons_of_mem a hc)

theorem Chain.ne_zero (hchain : Chain m head l) : ∀ a ∈ l, a ≠ 0 := by
  induction l generalizing head with
  | nil => exact fun a ha => absurd ha not_mem_nil
  | cons c l ih => exact forall_mem_cons.mpr ⟨hchain.2.1, ih hchain.2.2⟩

namespace Sound

theorem of_agree (hs : Sound h l) (hagree : ∀ a ∈ l, ByteStore.Agree h.bytes m' a 16) :
    Sound { h with bytes := m' } l where
  chain := hs.chain.of_agree hagree
  aligned := hs.aligned
  size_pos a ha := by
    rw [sizeOf_eq (hagree a ha)]
    exact hs.size_pos a ha
  inside a ha := by
    rw [extent, sizeOf_eq (hagree a ha)]
    exact hs.inside a ha
  bound := hs.bound
  apart := hs.apart.imp_of_mem fun {a b} ha hb hapart => by
    rw [extent, extent, sizeOf_eq (hagree a ha), sizeOf_eq (hagree b hb)]
    exact hapart

theorem apart_of_ne (hs : Sound h l) (ha : a ∈ l) (hb : b ∈ l) (hne : a ≠ b) :
    Apart a (extent h.bytes a) b (extent h.bytes b) := by
  have hsymm : Std.Symm fun a b => Apart a (extent h.bytes a) b (extent h.bytes b) :=
    ⟨fun _ _ => Apart.symm⟩
  exact hs.apart.forall ha hb hne

theorem le_wordSize (hs : Sound h l) (ha : a ∈ l) : a + extent h.bytes a ≤ wordSize := by
  obtain ⟨r, hr, -, hend⟩ := hs.inside a ha
  exact hend.trans (hs.bound r hr)

theorem pos (hs : Sound h l) (ha : a ∈ l) : 0 < a := Nat.pos_of_ne_zero (hs.chain.ne_zero a ha)

theorem userOf_eq (hs : Sound h l) (ha : a ∈ l) : userOf a = a + headerSize := by
  have hle := hs.le_wordSize ha
  have hpos := hs.size_pos a ha
  rw [extent] at hle
  exact Nat.mod_eq_of_lt (by omega)

theorem headerOf_eq (hs : Sound h l) (ha : a ∈ l) : headerOf (a + headerSize) = a := by
  have hle := hs.le_wordSize ha
  rw [extent] at hle
  have hpos := hs.size_pos a ha
  have hsum : a + headerSize + (wordSize - headerSize) = a + wordSize := by
    simp only [headerSize, wordSize]
    omega
  rw [headerOf, hsum, Nat.add_mod_right]
  exact Nat.mod_eq_of_lt (by omega)

theorem blocks_lt (hs : Sound h l) : h.blocks < wordSize := by
  cases l with
  | nil =>
    have hend : h.blocks = 0 := hs.chain
    rw [hend]
    decide
  | cons a l =>
    have hle := hs.le_wordSize mem_cons_self
    rw [hs.chain.1]
    simp only [extent, headerSize] at hle
    omega

theorem nodup (hs : Sound h l) : l.Nodup :=
  hs.apart.imp fun {a b} hapart heq => by
    rw [heq, extent] at hapart
    simp only [headerSize] at hapart
    rcases hapart with hapart | hapart <;> omega

theorem length_lt (hs : Sound h l) : l.length < maxBlocks := by
  have hinj : ∀ a ∈ l, ∀ b ∈ l, a / heapAlignment = b / heapAlignment → a = b := by
    intro a ha b hb heq
    rw [← Nat.div_mul_cancel (hs.aligned a ha), heq, Nat.div_mul_cancel (hs.aligned b hb)]
  have hnodup : (l.map (· / heapAlignment)).Nodup :=
    (nodup_map_iff_inj_on hs.nodup).mpr hinj
  have hsub : (l.map (· / heapAlignment)).toFinset ⊆ Finset.Ico 1 maxBlocks := by
    intro q hq
    obtain ⟨a, ha, rfl⟩ := mem_map.mp (mem_toFinset.mp hq)
    have hle := hs.le_wordSize ha
    have hpos := hs.pos ha
    have hdvd := hs.aligned a ha
    simp only [extent, headerSize, heapAlignment, wordSize] at hle hdvd
    simp only [Finset.mem_Ico, heapAlignment, maxBlocks]
    omega
  have hcard := Finset.card_le_card hsub
  rw [toFinset_card_of_nodup hnodup, length_map, Nat.card_Ico] at hcard
  simp only [maxBlocks] at hcard ⊢
  omega

end Sound

/-! ### `malloc` -/

variable {size : ℕ}

theorem firstFit_spec {rounds : ℕ} (hchain : Chain m head l) (hrounds : l.length < rounds) :
    ∃ found, firstFit m size rounds head = some found ∧
      (found = 0 ∨ found ∈ l ∧ isFree m found ∧ size ≤ sizeOf m found) := by
  induction l generalizing head rounds with
  | nil =>
    cases rounds with
    | zero => exact absurd hrounds (Nat.not_lt_zero _)
    | succ rounds =>
      have hend : head = 0 := hchain
      exact ⟨0, by rw [firstFit, if_pos hend], Or.inl rfl⟩
  | cons a l ih =>
    obtain ⟨rfl, hne, hrest⟩ := hchain
    cases rounds with
    | zero => exact absurd hrounds (Nat.not_lt_zero _)
    | succ rounds =>
      rw [firstFit, if_neg hne]
      split
      · rename_i hfit
        exact ⟨head, rfl, Or.inr ⟨mem_cons_self, hfit.1, hfit.2⟩⟩
      · obtain ⟨found, hfound, hcase⟩ := ih hrest (by simpa using hrounds)
        exact ⟨found, hfound, hcase.imp_right fun hin => ⟨mem_cons_of_mem _ hin.1, hin.2⟩⟩

/-- The block `a` that `malloc` gives to a program. -/
structure Gets (h : Heap) (l : List ℕ) (size a : ℕ) (h' : Heap) (l' : List ℕ) : Prop where
  sound : Sound h' l'
  mem : a ∈ l'
  sub : ∀ c ∈ l, c ∈ l'
  large : size ≤ sizeOf h'.bytes a
  busy : ¬ isFree h'.bytes a
  was : a ∈ l → isFree h.bytes a
  sizes : ∀ c ∈ l, sizeOf h'.bytes c = sizeOf h.bytes c
  frame : ∀ c ∈ l, c ≠ a → ByteStore.Agree h.bytes h'.bytes c (extent h.bytes c)

variable {l' : List ℕ}

theorem Gets.mono {size' : ℕ} (hgets : Gets h l size' a h' l')
    (hle : size ≤ size') : Gets h l size a h' l' :=
  { hgets with large := hle.trans hgets.large }

/-- `allocation.free` is apart from the size and the successor in every header. -/
theorem agree_setFree (hs : Sound h l) (ha : a ∈ l) (value : ℕ) :
    ∀ c ∈ l, ByteStore.Agree h.bytes (setFree h.bytes a value) c 16 := by
  intro c hc
  refine agree_setWord _ _ ?_
  by_cases hne : c = a
  · exact Or.inl (by omega)
  · exact (hs.apart_of_ne hc ha hne).mono (Nat.le_refl c) (by simp only [extent, headerSize]; omega)
      (by omega) (by simp only [extent, headerSize]; omega)

theorem gets_reused (hs : Sound h l) (ha : a ∈ l) (hfree : isFree h.bytes a)
    (hsize : size ≤ sizeOf h.bytes a) :
    Gets h l size a { h with bytes := setFree h.bytes a 0 } l where
  sound := hs.of_agree (agree_setFree hs ha 0)
  mem := ha
  sub _ hc := hc
  large := by
    rw [sizeOf_eq (agree_setFree hs ha 0 a ha)]
    exact hsize
  busy hbusy := hbusy (word_setWord h.bytes (by decide))
  was _ := hfree
  sizes c hc := sizeOf_eq (agree_setFree hs ha 0 c hc)
  frame c hc hne := agree_setWord _ _ ((hs.apart_of_ne hc ha hne).mono (Nat.le_refl c)
    (Nat.le_refl _) (by omega) (by simp only [extent, headerSize]; omega))

/-- A new block, in memory that came from `sbrk`. -/
def extended (h : Heap) (memory capacity : ℕ) : Heap :=
  { h with
    bytes := setFree ((h.bytes.setWord memory 8 (capacity - headerSize)).setWord (memory + 8) 8
      h.blocks) memory 0
    blocks := memory
    obtained := ⟨memory, capacity⟩ :: h.obtained }

section Extended

variable {memory capacity : ℕ}

theorem agree_extended {n : ℕ} (happart : Apart a n memory headerSize) :
    ByteStore.Agree h.bytes (extended h memory capacity).bytes a n := by
  have hpart : ∀ offset k, offset + k ≤ headerSize → Apart a n (memory + offset) k :=
    fun offset k hle => happart.mono (Nat.le_refl a) (Nat.le_refl _) (by omega) (by omega)
  have hsize := agree_setWord h.bytes (capacity - headerSize) (hpart 0 8 (by decide))
  have hnext := agree_setWord (h.bytes.setWord memory 8 (capacity - headerSize)) h.blocks
    (hpart 8 8 (by decide))
  exact (hsize.trans hnext).trans (agree_setWord _ 0 (hpart 16 4 (by decide)))

theorem sizeOf_extended (hcapacity : capacity < wordSize) :
    sizeOf (extended h memory capacity).bytes memory = capacity - headerSize := by
  have hnext := agree_setWord (h.bytes.setWord memory 8 (capacity - headerSize)) h.blocks
    (show Apart memory 8 (memory + 8) 8 from Or.inl (Nat.le_refl _))
  have hfree := agree_setWord ((h.bytes.setWord memory 8 (capacity - headerSize)).setWord
    (memory + 8) 8 h.blocks) 0 (show Apart memory 8 (memory + 16) 4 from Or.inl (by omega))
  rw [sizeOf, extended, setFree, hfree.word_eq, hnext.word_eq]
  exact word_setWord _ (by simp only [wordSize] at hcapacity; omega)

theorem nextOf_extended (hblocks : h.blocks < wordSize) :
    nextOf (extended h memory capacity).bytes memory = h.blocks := by
  have hfree := agree_setWord ((h.bytes.setWord memory 8 (capacity - headerSize)).setWord
    (memory + 8) 8 h.blocks) 0 (show Apart (memory + 8) 8 (memory + 16) 4 from Or.inl (by omega))
  rw [nextOf, extended, setFree, hfree.word_eq]
  exact word_setWord _ (by simp only [wordSize] at hblocks; omega)

theorem isFree_extended : ¬ isFree (extended h memory capacity).bytes memory :=
  fun hfree => hfree (word_setWord _ (by decide))

/-- A block of memory that came from `sbrk`. -/
theorem gets_extended (hs : Sound h l) (hfresh : Fresh h memory capacity)
    (hpos : 0 < size) (hsize : size + headerSize ≤ capacity) :
    Gets h l size memory (extended h memory capacity) (memory :: l) := by
  have hheader : headerSize < capacity := by omega
  have hcapacity : capacity < wordSize := by
    have hmemory := hfresh.pos
    have hbound := hfresh.bound
    omega
  have hblocks := hs.blocks_lt
  -- What the list has is in memory that came before.
  have hold : ∀ c ∈ l, Apart c (extent h.bytes c) memory capacity := by
    intro c hc
    obtain ⟨r, hr, hbase, hend⟩ := hs.inside c hc
    exact (hfresh.apart r hr).symm.mono hbase hend (Nat.le_refl _) (Nat.le_refl _)
  have hagree : ∀ c ∈ l, ByteStore.Agree h.bytes (extended h memory capacity).bytes c
      (extent h.bytes c) := fun c hc =>
    agree_extended ((hold c hc).mono (Nat.le_refl c) (Nat.le_refl _) (Nat.le_refl _) (by omega))
  have hheads : ∀ c ∈ l, ByteStore.Agree h.bytes (extended h memory capacity).bytes c 16 :=
    fun c hc => (hagree c hc).mono (Nat.le_refl c) (by simp only [extent, headerSize]; omega)
  have hsizes : ∀ c ∈ l, sizeOf (extended h memory capacity).bytes c = sizeOf h.bytes c :=
    fun c hc => sizeOf_eq (hheads c hc)
  have hextent : extent (extended h memory capacity).bytes memory = capacity := by
    rw [extent, sizeOf_extended hcapacity]
    omega
  have hextents : ∀ c ∈ l, extent (extended h memory capacity).bytes c = extent h.bytes c :=
    fun c hc => by rw [extent, hsizes c hc, extent]
  have hnot : memory ∉ l := fun hin => by
    have hbad := hold memory hin
    simp only [extent, headerSize] at hbad
    rcases hbad with hbad | hbad <;> omega
  refine
    { sound :=
        { chain := ⟨rfl, Nat.pos_iff_ne_zero.mp hfresh.pos, ?_⟩
          aligned := forall_mem_cons.mpr ⟨hfresh.aligned, hs.aligned⟩
          size_pos := forall_mem_cons.mpr ⟨?_, fun c hc => ?_⟩
          inside := forall_mem_cons.mpr ⟨?_, fun c hc => ?_⟩
          bound := forall_mem_cons.mpr ⟨hfresh.bound, hs.bound⟩
          apart := pairwise_cons.mpr
            ⟨fun c hc => ?_, hs.apart.imp_of_mem fun {c d} hc hd hcd => ?_⟩ }
      mem := mem_cons_self
      sub := fun c hc => mem_cons_of_mem _ hc
      large := ?_
      busy := isFree_extended
      was := fun hin => absurd hin hnot
      sizes := hsizes
      frame := fun c hc _ => hagree c hc }
  · rw [nextOf_extended hblocks]
    exact hs.chain.of_agree hheads
  · rw [sizeOf_extended hcapacity]
    omega
  · rw [hsizes c hc]
    exact hs.size_pos c hc
  · exact ⟨⟨memory, capacity⟩, mem_cons_self, Nat.le_refl _, by rw [hextent]⟩
  · obtain ⟨r, hr, hbase, hend⟩ := hs.inside c hc
    exact ⟨r, mem_cons_of_mem _ hr, hbase, by rw [hextents c hc]; exact hend⟩
  · rw [hextent, hextents c hc]
    exact (hold c hc).symm
  · rw [hextents c hc, hextents d hd]
    exact hcd
  · rw [sizeOf_extended hcapacity]
    omega

end Extended

/-- `malloc` ends: it fails and leaves the heap, or gives a block. -/
theorem malloc_spec (hs : Sound h l) (hsbrk : Behaves sbrk h) (size : ℕ) :
    malloc sbrk size h = some (0, { h with errno := outOfMemory }) ∨
      ∃ a h' l', malloc sbrk size h = some (a + headerSize, h') ∧ Gets h l size a h' l' := by
  unfold malloc
  have hpos : 0 < if size = 0 then 1 else size := by split <;> omega
  have hle : size ≤ if size = 0 then 1 else size := by split <;> omega
  generalize (if size = 0 then 1 else size) = wanted at hpos hle
  dsimp only
  split
  · exact Or.inl rfl
  · rename_i hlarge
    -- Rounding up does not wrap.
    have hround : wanted ≤ (wanted + heapAlignment - 1) / heapAlignment * heapAlignment := by
      simp only [heapAlignment]
      omega
    generalize (wanted + heapAlignment - 1) / heapAlignment * heapAlignment = rounded at hround
    obtain ⟨found, hfound, hcase⟩ : ∃ found,
        firstFit h.bytes rounded maxBlocks h.blocks = some found ∧
        (found = 0 ∨ found ∈ l ∧ isFree h.bytes found ∧ rounded ≤ sizeOf h.bytes found) :=
      firstFit_spec hs.chain hs.length_lt
    rw [hfound]
    cases found with
    | zero =>
      dsimp only
      split
      · exact Or.inl rfl
      · rename_i hlong
        split
        · exact Or.inl rfl
        · rename_i hanswer
          have hfresh := (hsbrk (max (rounded + headerSize) heapChunkSize)).resolve_left hanswer
          have hgets := (gets_extended hs hfresh (hpos.trans_le hround)
            (Nat.le_max_left _ _)).mono (hle.trans hround)
          refine Or.inr ⟨_, _, _, ?_, hgets⟩
          rw [← hgets.sound.userOf_eq hgets.mem]
          rfl
    | succ found =>
      obtain ⟨hin, hfree, hfit⟩ := hcase.resolve_left (Nat.succ_ne_zero found)
      refine Or.inr ⟨found + 1, _, l, ?_, gets_reused hs hin hfree (hle.trans (hround.trans hfit))⟩
      rw [← hs.userOf_eq hin]

/-! ### Steps -/

namespace Held

theorem header (hw : Held w l) {b : Live} (hb : b ∈ w.live) :
    headerOf b.pointer ∈ l ∧ b.pointer = headerOf b.pointer + headerSize ∧
      ¬ isFree w.heap.bytes (headerOf b.pointer) ∧
      b.requested ≤ sizeOf w.heap.bytes (headerOf b.pointer) := by
  obtain ⟨c, hc, hpointer, hbusy, hle⟩ := hw.block b hb
  have hheader : headerOf b.pointer = c := by rw [hpointer, hw.sound.headerOf_eq hc]
  rw [hheader]
  exact ⟨hc, hpointer, hbusy, hle⟩

theorem pointer_ne_zero (hw : Held w l) {b : Live} (hb : b ∈ w.live) : b.pointer ≠ 0 := by
  obtain ⟨c, -, hpointer, -⟩ := hw.block b hb
  rw [hpointer]
  simp [headerSize]

theorem eq_of_pointer (hw : Held w l) {b c : Live} (hb : b ∈ w.live) (hc : c ∈ w.live)
    (heq : b.pointer = c.pointer) : b = c :=
  inj_on_of_nodup_map hw.nodup hb hc heq

theorem correct (hw : Held w l) : w.Correct where
  aligned b hb := by
    obtain ⟨hin, hpointer, -⟩ := hw.header hb
    rw [hpointer]
    exact Nat.dvd_add (hw.sound.aligned _ hin) (by decide)
  large b hb := (hw.header hb).2.2.2
  nonempty b hb := hw.sound.size_pos _ (hw.header hb).1
  inside b hb := by
    obtain ⟨hin, hpointer, -⟩ := hw.header hb
    obtain ⟨r, hr, hbase, hend⟩ := hw.sound.inside _ hin
    rw [extent] at hend
    refine ⟨r, hr, by omega, ?_⟩
    rw [World.room]
    omega
  apart := by
    have hne := pairwise_map.mp hw.nodup
    refine hne.imp_of_mem fun {b c} hb hc hbc => ?_
    obtain ⟨hinb, hpb, -⟩ := hw.header hb
    obtain ⟨hinc, hpc, -⟩ := hw.header hc
    have hheaders : headerOf b.pointer ≠ headerOf c.pointer := by
      intro heq
      exact hbc (by rw [hpb, hpc, heq])
    have happart := hw.sound.apart_of_ne hinb hinc hheaders
    simp only [extent] at happart
    simp only [World.room]
    rcases happart with happart | happart
    · exact Or.inl (by omega)
    · exact Or.inr (by omega)

theorem sublist (hw : Held w l) {live : List Live} (hlive : live.Sublist w.live) :
    Held ⟨w.heap, live⟩ l where
  sound := hw.sound
  block b hb := hw.block b (hlive.subset hb)
  nodup := hw.nodup.sublist (hlive.map _)

theorem with_errno (hw : Held w l) (errno : ℕ) :
    Held ⟨{ w.heap with errno := errno }, w.live⟩ l where
  sound := { hw.sound with }
  block := hw.block
  nodup := hw.nodup

theorem write (hw : Held w l) (hagree : ∀ c ∈ l, ByteStore.Agree w.heap.bytes m' c headerSize) :
    Held ⟨{ w.heap with bytes := m' }, w.live⟩ l where
  sound := hw.sound.of_agree fun c hc => (hagree c hc).mono (Nat.le_refl c) (by
    simp only [headerSize]
    omega)
  block b hb := by
    obtain ⟨c, hc, hpointer, hbusy, hle⟩ := hw.block b hb
    have hsize : sizeOf m' c = sizeOf w.heap.bytes c :=
      sizeOf_eq ((hagree c hc).mono (Nat.le_refl c) (by simp only [headerSize]; omega))
    exact ⟨c, hc, hpointer, fun hfree => hbusy ((isFree_iff (hagree c hc)).mp hfree), hsize ▸ hle⟩
  nodup := hw.nodup

theorem apart_header (hs : Sound h l) {c p n : ℕ} (ha : a ∈ l) (hc : c ∈ l)
    (hp : a + headerSize ≤ p) (hn : p + n ≤ a + extent h.bytes a) : Apart c headerSize p n := by
  by_cases hne : c = a
  · exact Or.inl (by rw [hne]; exact hp)
  · exact (hs.apart_of_ne hc ha hne).mono (Nat.le_refl c) (by rw [extent]; omega)
      (by omega) hn

theorem ne_of_gets (hw : Held w l) (hgets : Gets w.heap l size a h' l')
    {b : Live} (hb : b ∈ w.live) : headerOf b.pointer ≠ a := by
  obtain ⟨hin, -, hbusy, -⟩ := hw.header hb
  intro heq
  exact hbusy (heq ▸ hgets.was (heq ▸ hin))

theorem agree_of_gets (hw : Held w l)
    (hgets : Gets w.heap l size a h' l') {b : Live} (hb : b ∈ w.live) :
    ByteStore.Agree w.heap.bytes h'.bytes (headerOf b.pointer)
      (extent w.heap.bytes (headerOf b.pointer)) :=
  hgets.frame _ (hw.header hb).1 (hw.ne_of_gets hgets hb)

theorem same_of_agree (hw : Held w l) {b : Live} (hb : b ∈ w.live)
    (hagree : ByteStore.Agree w.heap.bytes m' (headerOf b.pointer)
      (extent w.heap.bytes (headerOf b.pointer))) :
    ByteStore.Agree w.heap.bytes m' b.pointer b.requested := by
  obtain ⟨-, hpointer, -, hle⟩ := hw.header hb
  exact hagree.mono (by omega) (by rw [extent]; omega)

theorem gets (hw : Held w l) (hgets : Gets w.heap l size a h' l') :
    Held ⟨h', ⟨a + headerSize, size⟩ :: w.live⟩ l' where
  sound := hgets.sound
  block := by
    refine forall_mem_cons.mpr ⟨⟨a, hgets.mem, rfl, hgets.busy, hgets.large⟩, fun b hb => ?_⟩
    obtain ⟨hin, hpointer, hbusy, hle⟩ := hw.header hb
    have hagree : ByteStore.Agree w.heap.bytes h'.bytes (headerOf b.pointer) headerSize :=
      (hw.agree_of_gets hgets hb).mono (Nat.le_refl _) (by rw [extent]; omega)
    exact ⟨_, hgets.sub _ hin, hpointer, fun hfree => hbusy ((isFree_iff hagree).mp hfree),
      (hgets.sizes _ hin).symm ▸ hle⟩
  nodup := by
    refine nodup_cons.mpr ⟨fun hin => ?_, hw.nodup⟩
    obtain ⟨b, hb, hpointer⟩ := mem_map.mp hin
    have hheader := (hw.header hb).2.1
    exact hw.ne_of_gets hgets hb (by simp only at hpointer; omega)

theorem setFree_one (hw : Held w l) (ha : a ∈ l) (hnot : ∀ b ∈ w.live, headerOf b.pointer ≠ a) :
    Held ⟨{ w.heap with bytes := setFree w.heap.bytes a 1 }, w.live⟩ l where
  sound := hw.sound.of_agree (agree_setFree hw.sound ha 1)
  block b hb := by
    obtain ⟨hin, hpointer, hbusy, hle⟩ := hw.header hb
    have happart := hw.sound.apart_of_ne hin ha (hnot b hb)
    have hagree : ByteStore.Agree w.heap.bytes (setFree w.heap.bytes a 1) (headerOf b.pointer)
        headerSize :=
      agree_setWord _ _ (happart.mono (Nat.le_refl _) (by rw [extent]; omega) (by omega)
        (by simp only [extent, headerSize]; omega))
    refine ⟨_, hin, hpointer, fun hfree => hbusy ((isFree_iff hagree).mp hfree), ?_⟩
    rw [sizeOf_eq (agree_setFree hw.sound ha 1 _ hin)]
    exact hle
  nodup := hw.nodup

end Held

/-- The world after a step, with what holds of it. -/
def Stepped (sbrk : ℕ → ℕ) (e : Event) (w : World) : Prop :=
  ∃ p w' l', w.step sbrk e = some (p, w') ∧ Held w' l' ∧ Keeps e w p w'

/-- `malloc` for a program: nothing happens, or it has one more block. -/
theorem malloc_held (hw : Held w l) (hsbrk : Behaves sbrk w.heap) (size : ℕ) :
    malloc sbrk size w.heap = some (0, { w.heap with errno := outOfMemory }) ∨
      ∃ a h' l', malloc sbrk size w.heap = some (a + headerSize, h') ∧
        Gets w.heap l size a h' l' ∧ Held ⟨h', ⟨a + headerSize, size⟩ :: w.live⟩ l' ∧
        ∀ b ∈ w.live, w.Same ⟨h', ⟨a + headerSize, size⟩ :: w.live⟩ b := by
  rcases malloc_spec hw.sound hsbrk size with hfail | ⟨a, h', l', hmalloc, hgets⟩
  · exact Or.inl hfail
  · exact Or.inr ⟨a, h', l', hmalloc, hgets, hw.gets hgets,
      fun b hb => hw.same_of_agree hb (hw.agree_of_gets hgets hb)⟩

theorem add_header_ne (a : ℕ) : a + headerSize ≠ 0 := by simp [headerSize]

theorem step_malloc (hw : Held w l) (hsbrk : Behaves sbrk w.heap) (size : ℕ) :
    Stepped sbrk (.malloc size) w := by
  rcases malloc_held hw hsbrk size with hfail | ⟨a, h', l', hmalloc, -, hheld, hsame⟩
  · refine ⟨0, _, l, by rw [World.step, hfail]; rfl, hw.with_errno outOfMemory, ?_⟩
    exact
      { others := fun b hb _ => ⟨hb, ByteStore.Agree.refl _ _ _⟩
        malloc := fun _ _ hp => absurd rfl hp
        calloc := fun _ _ he => nomatch he
        realloc := fun _ _ he => nomatch he }
  · have hlive : addLive w.live (a + headerSize) size = ⟨a + headerSize, size⟩ :: w.live :=
      if_neg (add_header_ne a)
    refine ⟨a + headerSize, ⟨h', ⟨a + headerSize, size⟩ :: w.live⟩, l', ?_, hheld, ?_⟩
    · simp only [World.step, hmalloc, map_some, hlive]
    · exact
        { others := fun b hb _ => ⟨mem_cons_of_mem _ hb, hsame b hb⟩
          malloc := fun _ he _ => by
            cases he
            exact mem_cons_self
          calloc := fun _ _ he => nomatch he
          realloc := fun _ _ he => nomatch he }

theorem product_lt {count : ℕ} (h : ¬ (size ≠ 0 ∧ count > (wordSize - 1) / size)) :
    count * size < wordSize := by
  by_cases hsize : size = 0
  · rw [hsize, Nat.mul_zero]
    decide
  · have hle : count ≤ (wordSize - 1) / size := Nat.le_of_not_lt fun hlt => h ⟨hsize, hlt⟩
    have hmul := (Nat.le_div_iff_mul_le (Nat.pos_of_ne_zero hsize)).mp hle
    have hword : 0 < wordSize := by decide
    omega

theorem step_calloc (hw : Held w l) (hsbrk : Behaves sbrk w.heap) (count size : ℕ) :
    Stepped sbrk (.calloc count size) w := by
  by_cases hrefused : size ≠ 0 ∧ count > (wordSize - 1) / size
  · refine ⟨0, w, l, ?_, hw, ?_⟩
    · rw [World.step, calloc, if_pos hrefused]
      rfl
    · exact
        { others := fun b hb _ => ⟨hb, ByteStore.Agree.refl _ _ _⟩
          malloc := fun _ he => nomatch he
          calloc := fun _ _ _ => ⟨fun hp => absurd rfl hp, fun _ => rfl⟩
          realloc := fun _ _ he => nomatch he }
  · have htotal := product_lt hrefused
    have hmod : count * size % wordSize = count * size := Nat.mod_eq_of_lt htotal
    rcases malloc_held hw hsbrk (count * size) with
      hfail | ⟨a, h', l', hmalloc, hgets, hheld, hsame⟩
    · refine ⟨0, _, l, ?_, hw.with_errno outOfMemory, ?_⟩
      · rw [World.step, calloc, if_neg hrefused]
        simp only [hmod, hfail, map_some]
        rfl
      · exact
          { others := fun b hb _ => ⟨hb, ByteStore.Agree.refl _ _ _⟩
            malloc := fun _ he => nomatch he
            calloc := fun _ _ _ => ⟨fun hp => absurd rfl hp, fun _ => rfl⟩
            realloc := fun _ _ he => nomatch he }
    · have hne := add_header_ne a
      have hlive : addLive w.live (a + headerSize) (count * size) =
          ⟨a + headerSize, count * size⟩ :: w.live := if_neg hne
      have hroom : a + headerSize + count * size ≤ a + extent h'.bytes a := by
        rw [extent, Nat.add_assoc]
        have hlarge := hgets.large
        omega
      have hzeroed : Held
          ⟨{ h' with bytes := h'.bytes.memset (a + headerSize) 0 (count * size) },
            ⟨a + headerSize, count * size⟩ :: w.live⟩ l' :=
        hheld.write fun c hc => agree_memset _ _
          (Held.apart_header hgets.sound hgets.mem hc (Nat.le_refl _) hroom)
      refine ⟨a + headerSize, _, l', ?_, hzeroed, ?_⟩
      · rw [World.step, calloc, if_neg hrefused]
        simp only [hmod, hmalloc, map_some, if_pos hne, hlive]
      · have hsame' : ∀ b ∈ w.live, ByteStore.Agree h'.bytes
            (h'.bytes.memset (a + headerSize) 0 (count * size)) b.pointer b.requested := by
          intro b hb
          have hin := mem_cons_of_mem (⟨a + headerSize, count * size⟩ : Live) hb
          exact hheld.same_of_agree hin (agree_memset _ _
            ((hgets.sound.apart_of_ne (hheld.header hin).1 hgets.mem (hw.ne_of_gets hgets hb)).mono
              (Nat.le_refl _) (Nat.le_refl _) (Nat.le_add_right a headerSize) hroom))
        exact
          { others := fun b hb _ => ⟨mem_cons_of_mem _ hb, (hsame b hb).trans (hsame' b hb)⟩
            malloc := fun _ he => nomatch he
            calloc := fun _ _ he => by
              cases he
              refine ⟨fun _ => ⟨mem_cons_self, fun i hi => ?_⟩,
                fun hwrap => absurd htotal (Nat.not_lt.mpr hwrap)⟩
              exact (memset_apply ..).trans (if_pos (by omega))
            realloc := fun _ _ he => nomatch he }

theorem free_held (hw : Held w l) {b : Live} (hb : b ∈ w.live) :
    Held ⟨free b.pointer w.heap, dropLive w.live b.pointer⟩ l ∧
      ∀ c ∈ w.live, c.pointer ≠ b.pointer →
        ByteStore.Agree w.heap.bytes (free b.pointer w.heap).bytes c.pointer c.requested := by
  obtain ⟨hin, hpointer, -⟩ := hw.header hb
  have hne : ∀ c ∈ w.live, c.pointer ≠ b.pointer → headerOf c.pointer ≠ headerOf b.pointer := by
    intro c hc hpointers heq
    have hc' := (hw.header hc).2.1
    exact hpointers (by rw [hc', hpointer, heq])
  have hdrop : Held ⟨w.heap, dropLive w.live b.pointer⟩ l := hw.sublist filter_sublist
  rw [free, if_pos (hw.pointer_ne_zero hb)]
  refine ⟨hdrop.setFree_one hin fun c hc => ?_, fun c hc hpointers => ?_⟩
  · obtain ⟨hc, hpointers⟩ := mem_filter.mp hc
    exact hne c hc (by simpa using hpointers)
  · refine hw.same_of_agree hc (agree_setWord _ _ ?_)
    exact (hw.sound.apart_of_ne (hw.header hc).1 hin (hne c hc hpointers)).mono (Nat.le_refl _)
      (Nat.le_refl _) (by omega) (by simp only [extent, headerSize]; omega)

theorem step_free (hw : Held w l) {pointer : ℕ} (hhas : pointer = 0 ∨ w.Has pointer) :
    Stepped sbrk (.free pointer) w := by
  have hkeeps : ∀ w', (∀ b ∈ w.live, b.pointer ≠ pointer → b ∈ w'.live ∧ w.Same w' b) →
      Keeps (.free pointer) w 0 w' := fun w' hothers =>
    { others := hothers
      malloc := fun _ he => nomatch he
      calloc := fun _ _ he => nomatch he
      realloc := fun _ _ he => nomatch he }
  rcases hhas with rfl | ⟨b, hb, rfl⟩
  · have hlive : dropLive w.live 0 = w.live :=
      filter_eq_self.mpr fun b hb => decide_eq_true (hw.pointer_ne_zero hb)
    refine ⟨0, w, l, by rw [World.step, hlive]; rfl, hw, hkeeps w fun b hb _ => ⟨hb, ?_⟩⟩
    exact ByteStore.Agree.refl _ _ _
  · obtain ⟨hheld, hsame⟩ := free_held hw hb
    refine ⟨0, _, l, rfl, hheld, hkeeps _ fun c hc hne => ⟨?_, hsame c hc hne⟩⟩
    exact mem_filter.mpr ⟨hc, decide_eq_true hne⟩

theorem step_store (hw : Held w l) {address : ℕ} {byte : UInt8}
    (hin : ∃ b ∈ w.live, b.pointer ≤ address ∧ address < b.pointer + b.requested) :
    Stepped sbrk (.store address byte) w := by
  obtain ⟨b, hb, hle, hlt⟩ := hin
  obtain ⟨hheader, hpointer, -, hlarge⟩ := hw.header hb
  have hupdate : ∀ a n, Apart a n address 1 → ByteStore.Agree w.heap.bytes
      (Function.update w.heap.bytes address byte) a n := by
    intro a n happart i hi hin
    exact Function.update_of_ne (by rcases happart with h | h <;> omega) _ _
  have hend : address + 1 ≤ headerOf b.pointer + extent w.heap.bytes (headerOf b.pointer) := by
    rw [extent]
    omega
  refine ⟨0, _, l, rfl, hw.write fun c hc => hupdate _ _
    (Held.apart_header hw.sound hheader hc (by omega) hend), ?_⟩
  exact
    { others := fun c hc hnot => by
        refine ⟨hc, fun i hi hin => Function.update_of_ne (fun heq => hnot ?_) _ _⟩
        exact ⟨by omega, by omega⟩
      malloc := fun _ he => nomatch he
      calloc := fun _ _ he => nomatch he
      realloc := fun _ _ he => nomatch he }

theorem shrink_held (hw : Held w l) {b : Live} (hb : b ∈ w.live)
    (hsize : size ≤ sizeOf w.heap.bytes (headerOf b.pointer)) :
    Held ⟨w.heap, ⟨b.pointer, size⟩ :: dropLive w.live b.pointer⟩ l where
  sound := hw.sound
  block := by
    obtain ⟨hin, hpointer, hbusy, -⟩ := hw.header hb
    exact forall_mem_cons.mpr ⟨⟨_, hin, hpointer, hbusy, hsize⟩,
      fun c hc => hw.block c (mem_filter.mp hc).1⟩
  nodup := by
    refine nodup_cons.mpr ⟨fun hin => ?_, hw.nodup.sublist (filter_sublist.map _)⟩
    obtain ⟨c, hc, hpointer⟩ := mem_map.mp hin
    simpa [hpointer] using (mem_filter.mp hc).2

/-- The bytes of a block are copied to a new one, and it is given back. -/
theorem move_held (hw : Held w l) {b : Live} (hb : b ∈ w.live)
    (hgets : Gets w.heap l size a h' l') {old : ℕ}
    (hold : sizeOf w.heap.bytes (headerOf b.pointer) = old) (hlt : old < size) {moved : Heap}
    (hmoved : moved = free b.pointer
      { h' with bytes := h'.bytes.memcpy (a + headerSize) b.pointer old }) :
    Held ⟨moved, ⟨a + headerSize, size⟩ :: dropLive w.live b.pointer⟩ l' ∧
      (∀ c ∈ w.live, c.pointer ≠ b.pointer →
        ByteStore.Agree w.heap.bytes moved.bytes c.pointer c.requested) ∧
      ∀ i < b.requested, moved.bytes (a + headerSize + i) = w.heap.bytes (b.pointer + i) := by
  obtain ⟨hin, hpointer, -, hrequested⟩ := hw.header hb
  have hadded := hw.gets hgets
  have hb' := mem_cons_of_mem (⟨a + headerSize, size⟩ : Live) hb
  have hlarge := hgets.large
  have hsizes := hgets.sizes _ hin
  -- The new block has room for the bytes, and is apart from the old one.
  have hroom : a + headerSize + old ≤ a + extent h'.bytes a := by
    rw [extent]
    omega
  have hblocks := hgets.sound.apart_of_ne (hgets.sub _ hin) hgets.mem (hw.ne_of_gets hgets hb)
  have hcopy : Apart (a + headerSize) old b.pointer old :=
    hblocks.symm.mono (by omega) hroom (by omega) (by rw [extent, hsizes]; omega)
  have hcopied : Held ⟨{ h' with bytes := h'.bytes.memcpy (a + headerSize) b.pointer old },
      ⟨a + headerSize, size⟩ :: w.live⟩ l' :=
    hadded.write fun c hc => agree_memcpy _ hcopy
      (Held.apart_header hgets.sound hgets.mem hc (Nat.le_refl _) hroom)
  obtain ⟨hheld, hsame⟩ := free_held hcopied hb'
  have hnew : a + headerSize ≠ b.pointer := fun heq =>
    hw.ne_of_gets hgets hb (by omega)
  have hdrop : dropLive (⟨a + headerSize, size⟩ :: w.live) b.pointer =
      ⟨a + headerSize, size⟩ :: dropLive w.live b.pointer :=
    filter_cons_of_pos (decide_eq_true hnew)
  subst hmoved
  refine ⟨hdrop ▸ hheld, fun c hc hne => ?_, fun i hi => ?_⟩
  · have hc' := mem_cons_of_mem (⟨a + headerSize, size⟩ : Live) hc
    have hgot := hw.same_of_agree hc (hw.agree_of_gets hgets hc)
    have hkept : ByteStore.Agree h'.bytes (h'.bytes.memcpy (a + headerSize) b.pointer old)
        c.pointer c.requested :=
      hadded.same_of_agree hc' (agree_memcpy _ hcopy
        ((hgets.sound.apart_of_ne (hadded.header hc').1 hgets.mem (hw.ne_of_gets hgets hc)).mono
          (Nat.le_refl _) (Nat.le_refl _) (Nat.le_add_right a headerSize) hroom))
    exact (hgot.trans hkept).trans (hsame c hc' hne)
  · have hsource := hw.same_of_agree hb (hw.agree_of_gets hgets hb) (b.pointer + i)
      (Nat.le_add_right _ _) (by omega)
    have htarget := hsame ⟨a + headerSize, size⟩ mem_cons_self hnew (a + headerSize + i)
      (Nat.le_add_right _ _) (by simp only; omega)
    rw [htarget]
    simp only
    rw [memcpy_apply _ hcopy, if_pos (by omega), Nat.add_sub_cancel_left, hsource]

theorem step_realloc (hw : Held w l) (hsbrk : Behaves sbrk w.heap) {pointer : ℕ}
    (hhas : pointer = 0 ∨ w.Has pointer) : Stepped sbrk (.realloc pointer size) w := by
  rcases hhas with rfl | ⟨b, hb, rfl⟩
  · -- Without a block it is `malloc`.
    obtain ⟨p, w', l', hstep, hheld, hkeeps⟩ := step_malloc hw hsbrk size
    refine ⟨p, w', l', hstep, hheld, ?_⟩
    exact
      { others := fun b hb _ => hkeeps.others b hb id
        malloc := fun _ he => nomatch he
        calloc := fun _ _ he => nomatch he
        realloc := fun _ _ he _ => by
          cases he
          exact ⟨hkeeps.malloc size rfl, fun b hb h0 => absurd h0 (hw.pointer_ne_zero hb)⟩ }
  · have hpointer := hw.pointer_ne_zero hb
    by_cases hzero : size = 0
    · subst hzero
      have hfreed : Stepped sbrk (.free b.pointer) w := step_free hw (Or.inr ⟨b, hb, rfl⟩)
      obtain ⟨p, w', l', hstep, hheld, hkeeps⟩ := hfreed
      refine ⟨p, w', l', ?_, hheld, ?_⟩
      · rw [← hstep, World.step, realloc, if_neg hpointer, if_pos rfl]
        simp only [map_some, moveLive, if_neg hpointer, if_pos, World.step]
      · exact
          { others := hkeeps.others
            malloc := fun _ he => nomatch he
            calloc := fun _ _ he => nomatch he
            realloc := fun _ _ he hne => by
              cases he
              exact absurd rfl hne }
    · by_cases hfits : sizeOf w.heap.bytes (headerOf b.pointer) ≥ size
      · refine ⟨b.pointer, _, l, ?_, shrink_held hw hb hfits, ?_⟩
        · rw [World.step, realloc, if_neg hpointer, if_neg hzero, if_pos hfits]
          simp only [map_some, moveLive, if_neg hpointer, if_neg hzero]
        · exact
            { others := fun c hc hne =>
                ⟨mem_cons_of_mem _ (mem_filter.mpr ⟨hc, decide_eq_true hne⟩),
                  ByteStore.Agree.refl _ _ _⟩
              malloc := fun _ he => nomatch he
              calloc := fun _ _ he => nomatch he
              realloc := fun _ _ he _ => by
                cases he
                exact ⟨fun _ => mem_cons_self, fun c hc hcp =>
                  ⟨fun h0 => absurd h0 hpointer, fun _ i _ => rfl⟩⟩ }
      · have hlt := Nat.lt_of_not_le hfits
        rcases malloc_held hw hsbrk size with hfail | ⟨a, h', l', hmalloc, hgets, -⟩
        · refine ⟨0, _, l, ?_, hw.with_errno outOfMemory, ?_⟩
          · rw [World.step, realloc, if_neg hpointer, if_neg hzero, if_neg hfits, hfail]
            simp only [map_some, moveLive, if_neg hpointer, if_neg hzero, if_pos]
          · exact
              { others := fun c hc _ => ⟨hc, ByteStore.Agree.refl _ _ _⟩
                malloc := fun _ he => nomatch he
                calloc := fun _ _ he => nomatch he
                realloc := fun _ _ he _ => by
                  cases he
                  exact ⟨fun h0 => absurd rfl h0, fun c hc _ =>
                    ⟨fun _ => ⟨hc, ByteStore.Agree.refl _ _ _⟩, fun h0 => absurd rfl h0⟩⟩ }
        · have hsizes := hgets.sizes _ (hw.header hb).1
          obtain ⟨hheld, hsame, hbytes⟩ := move_held hw hb hgets rfl hlt rfl
          refine ⟨a + headerSize, _, l', ?_, hheld, ?_⟩
          · rw [World.step, realloc, if_neg hpointer, if_neg hzero, if_neg hfits, hmalloc]
            simp only [map_some, moveLive, if_neg hpointer, if_neg hzero,
              if_neg (add_header_ne a), hsizes, if_pos hlt]
          · exact
              { others := fun c hc hne =>
                  ⟨mem_cons_of_mem _ (mem_filter.mpr ⟨hc, decide_eq_true hne⟩), hsame c hc hne⟩
                malloc := fun _ he => nomatch he
                calloc := fun _ _ he => nomatch he
                realloc := fun _ _ he _ => by
                  cases he
                  refine ⟨fun _ => mem_cons_self, fun c hc hcp =>
                    ⟨fun h0 => absurd h0 (add_header_ne a), fun _ i hi => ?_⟩⟩
                  obtain rfl := hw.eq_of_pointer hc hb hcp
                  exact hbytes i (by omega) }

theorem step_spec (hw : Held w l) (hsbrk : Behaves sbrk w.heap) {e : Event} (he : e.Allowed w) :
    Stepped sbrk e w := by
  cases e with
  | malloc size => exact step_malloc hw hsbrk size
  | calloc count size => exact step_calloc hw hsbrk count size
  | realloc pointer size => exact step_realloc hw hsbrk he.2
  | free pointer => exact step_free hw he
  | store address byte => exact step_store hw he

theorem Reaches.held (h : Reaches Behaves w) : ∃ l, Held w l := by
  induction h with
  | start bytes errno =>
    refine ⟨[], ⟨⟨rfl, ?_, ?_, ?_, ?_, List.Pairwise.nil⟩, ?_, nodup_nil⟩⟩ <;>
      exact fun a ha => absurd ha not_mem_nil
  | step h hsbrk hallowed hstep ih =>
    obtain ⟨l, hheld⟩ := ih
    obtain ⟨p, w', l', hstep', hheld', -⟩ := step_spec hheld hsbrk hallowed
    obtain rfl := (Prod.mk.inj (Option.some.inj (hstep.symm.trans hstep'))).2
    exact ⟨l', hheld'⟩

/-- **Headline.** As long as `sbrk` answers with fresh memory or `-1`, the blocks of a program are
correct in every world it reaches, and every step that it may take ends and keeps what it relies on.
-/
theorem heap_correct (h : Reaches Behaves w) :
    w.Correct ∧ ∀ (sbrk : ℕ → ℕ) (e : Event), Behaves sbrk w.heap → e.Allowed w →
      ∃ p w', w.step sbrk e = some (p, w') ∧ Keeps e w p w' := by
  obtain ⟨l, hheld⟩ := h.held
  refine ⟨hheld.correct, fun sbrk e hsbrk he => ?_⟩
  obtain ⟨p, w', -, hstep, -, hkeeps⟩ := step_spec hheld hsbrk he
  exact ⟨p, w', hstep, hkeeps⟩

/-- A heap that has nothing yet. -/
def Heap.initial : Heap := ⟨fun _ => 0, 0, 0, []⟩

/-- The first call of a program, where `sbrk` has an answer. -/
theorem step_first (memory : ℕ) (hsbrk : sbrk heapChunkSize = memory)
    (hmemory : memory ≠ wordSize - 1) :
    World.step sbrk (.malloc 10) ⟨.initial, []⟩ =
      some (userOf memory, ⟨extended .initial memory heapChunkSize,
        addLive [] (userOf memory) 10⟩) := by
  have hmax : max (16 + headerSize) heapChunkSize = heapChunkSize := by decide
  have hend : firstFit Heap.initial.bytes 16 maxBlocks Heap.initial.blocks = some 0 := rfl
  have hround : (10 + heapAlignment - 1) / heapAlignment * heapAlignment = 16 := by decide
  have hlarge : ¬ 10 > wordSize - 1 - (heapAlignment - 1) := by decide
  have hlong : ¬ 16 > longMax - headerSize := by decide
  have hmalloc : malloc sbrk 10 .initial =
      some (userOf memory, extended .initial memory heapChunkSize) := by
    unfold malloc
    rw [if_neg (show ¬ 10 = 0 by decide)]
    simp only [if_neg hlarge, hround, hend, if_neg hlong, hmax, hsbrk, if_neg hmemory]
    rfl
  rw [World.step, hmalloc]
  rfl

/-- Ten bytes in the first chunk. -/
theorem heap_correct_sample : ∃ w : World, w.live = [⟨4128, 10⟩] ∧ w.Correct := by
  let sbrk : ℕ → ℕ := fun increment => if increment ≤ heapChunkSize then 4096 else wordSize - 1
  have hbehaves : Behaves sbrk .initial := by
    intro increment
    by_cases hle : increment ≤ heapChunkSize
    · simp only [sbrk, if_pos hle]
      refine Or.inr ⟨by decide, by decide, ?_, fun r hr => absurd hr not_mem_nil⟩
      simp only [heapChunkSize, wordSize] at hle ⊢
      omega
    · exact Or.inl (if_neg hle)
  have hstart : Reaches Behaves ⟨.initial, []⟩ := .start _ _
  have hallowed : Event.Allowed ⟨.initial, []⟩ (.malloc 10) := show 10 < wordSize by decide
  have hreach := hstart.step hbehaves hallowed (step_first 4096 rfl (by decide))
  exact ⟨_, rfl, (heap_correct hreach).1⟩

/-- Where the kernel has no memory it answers `-12`, and the program gets an address for it. -/
theorem malloc_of_error : ¬ ∀ w : World, Reaches Responds w → w.Correct := by
  intro hclaim
  have herror : longMax < wordSize - outOfMemory ∧ wordSize - outOfMemory < wordSize := by decide
  have hresponds : Responds (fun _ => wordSize - outOfMemory) .initial := fun _ => Or.inl herror
  have hstart : Reaches Responds ⟨.initial, []⟩ := .start _ _
  have hallowed : Event.Allowed ⟨.initial, []⟩ (.malloc 10) := show 10 < wordSize by decide
  have hreach := hstart.step hresponds hallowed
    (step_first (wordSize - outOfMemory) rfl (by decide))
  have haligned := (hclaim _ hreach).aligned ⟨20, 10⟩ mem_cons_self
  exact absurd haligned (by decide)

end ImagineOS.Libc
