import ImagineOS.Bytes
import ImagineOS.Exec.UserMemory

/-!
# The first stack of a program

A program finds its arguments and its environment on its stack: the strings, pushed from the top
downward, and below them two vectors of pointers to the strings. Everything has a place of its own
there, and the program reads back what it was given.
-/

namespace ImagineOS.Exec

open List Nat

open Memory (pageSize)

def userStackTop : ℕ := 0x00007fffffff0000

def userStackSize : ℕ := 32 * 4096

/-- The lowest address of the stack. -/
def userStackStart : ℕ := userStackTop - userStackSize

abbrev maxExecArgs : ℕ := 12

abbrev maxExecEnv : ℕ := 12

abbrev maxExecItemSize : ℕ := 128

section Definitions

variable (frames : Frames)

/-- The loop over the arguments, and that over the environment: each string goes below the one
before, with a zero behind it. The pointers, the stack pointer and the memory. -/
def pushStrings : List (List UInt8) → ℕ → ByteStore → Option (List ℕ × ℕ × ByteStore)
  | [], sp, memory => some ([], sp, memory)
  | s :: rest, sp, memory =>
    if sp < s.length + 1 then none
    else do
      let memory ← copyToUser frames (sp - (s.length + 1)) s memory
      let memory ← copyToUser frames (sp - (s.length + 1) + s.length) [0] memory
      let (pointers, bottom, memory) ← pushStrings rest (sp - (s.length + 1)) memory
      return ((sp - (s.length + 1)) :: pointers, bottom, memory)

/-- The loop over pointers. -/
def storePointers (vector : ℕ) : ℕ → List ℕ → ByteStore → Option ByteStore
  | _, [], memory => some memory
  | index, pointer :: rest, memory => do
    let memory ← copyToUser frames (vector + index * 8) (leBytes 8 pointer) memory
    storePointers vector (index + 1) rest memory

/-- Pointers, and a null pointer behind them. -/
def storeVector (vector : ℕ) (pointers : List ℕ) (memory : ByteStore) : Option ByteStore := do
  let memory ← storePointers frames vector 0 pointers memory
  copyToUser frames (vector + pointers.length * 8) (leBytes 8 0) memory

/-- The place of a vector below a stack pointer: `checked_sub`, and then `& !0xf`. -/
def vectorBelow (sp count : ℕ) : Option ℕ :=
  if (count + 1) * 8 ≤ sp then some ((sp - (count + 1) * 8) / 16 * 16) else none

/-- `prepare_user_stack`: the stack pointer at the entry, the vector of the arguments and that of
the environment, with the memory. -/
def prepareUserStack (arguments environment : List (List UInt8)) (memory : ByteStore) :
    Option ((ℕ × ℕ × ℕ) × ByteStore) :=
  if maxExecArgs < arguments.length ∨ maxExecEnv < environment.length then none
  else do
    let (argumentPointers, sp, memory) ← pushStrings frames arguments userStackTop memory
    let (environmentPointers, sp, memory) ← pushStrings frames environment sp memory
    let environmentVector ← vectorBelow sp environment.length
    let memory ← storeVector frames environmentVector environmentPointers memory
    let sp ← vectorBelow environmentVector arguments.length
    let memory ← storeVector frames sp argumentPointers memory
    if sp < 8 then none else return ((sp - 8, sp, environmentVector), memory)

end Definitions

/-! ### What a program reads -/

/-- Bytes, one behind the other. -/
def readBytes (v : ℕ → Option UInt8) : ℕ → ℕ → Option (List UInt8)
  | 0, _ => some []
  | n + 1, a => do
    let b ← v a
    let rest ← readBytes v n (a + 1)
    return b :: rest

/-- A pointer. -/
def readPointer (v : ℕ → Option UInt8) (a : ℕ) : Option ℕ := (readBytes v 8 a).map leNat

/-- The bytes up to a zero, of which there are less than the first argument says. -/
def readString (v : ℕ → Option UInt8) : ℕ → ℕ → Option (List UInt8)
  | 0, _ => none
  | n + 1, a => do
    let b ← v a
    if b = 0 then return [] else
      let rest ← readString v n (a + 1)
      return b :: rest

/-- The strings of a vector up to a null pointer, of which there are less than the first argument
says. -/
def readVector (v : ℕ → Option UInt8) : ℕ → ℕ → Option (List (List UInt8))
  | 0, _ => none
  | n + 1, a => do
    let p ← readPointer v a
    if p = 0 then return [] else
      let s ← readString v userStackSize p
      let rest ← readVector v n (a + 8)
      return s :: rest

variable {v : ℕ → Option UInt8} {a : ℕ}

theorem readBytes_eq {l : List UInt8} (h : ∀ k < l.length, v (a + k) = l[k]?) :
    readBytes v l.length a = some l := by
  induction l generalizing a with
  | nil => rfl
  | cons b rest ih =>
    have hfirst : v a = some b := h 0 (succ_pos _)
    have hrest : readBytes v rest.length (a + 1) = some rest := by
      refine ih fun k hk => ?_
      have hat := h (k + 1) (succ_lt_succ hk)
      rwa [add_comm k 1, ← add_assoc, add_comm 1 k, List.getElem?_cons_succ] at hat
    rw [length_cons, readBytes, hfirst, hrest]
    rfl

theorem readPointer_eq {p : ℕ} (hp : p < 2 ^ 64) (h : ∀ k < 8, v (a + k) = (leBytes 8 p)[k]?) :
    readPointer v a = some p := by
  have hbytes : readBytes v (leBytes 8 p).length a = some (leBytes 8 p) := readBytes_eq h
  have hlength : (leBytes 8 p).length = 8 := rfl
  rw [hlength] at hbytes
  rw [readPointer, hbytes, Option.map_some, leNat_leBytes hp]

theorem readString_eq {s : List UInt8} (hzero : 0 ∉ s) {n : ℕ} (hn : s.length < n)
    (h : ∀ k < s.length + 1, v (a + k) = (s ++ [0])[k]?) : readString v n a = some s := by
  induction s generalizing n a with
  | nil =>
    obtain ⟨n, rfl⟩ := exists_eq_add_one_of_ne_zero (ne_of_gt hn)
    have hfirst : v a = some 0 := h 0 (succ_pos _)
    rw [readString, hfirst]
    rfl
  | cons b rest ih =>
    obtain ⟨n, rfl⟩ := exists_eq_add_one_of_ne_zero (ne_of_gt (zero_lt_of_lt hn))
    obtain ⟨hb, hrest⟩ := not_or.mp (fun h' => hzero (mem_cons.mpr h'))
    have hfirst : v a = some b := h 0 (succ_pos _)
    have htail : readString v n (a + 1) = some rest := by
      refine ih hrest (by rw [length_cons] at hn; omega) fun k hk => ?_
      have hat := h (k + 1) (by rw [length_cons]; omega)
      rwa [add_comm k 1, ← add_assoc, add_comm 1 k, cons_append,
        List.getElem?_cons_succ] at hat
    rw [readString, hfirst]
    show (if b = 0 then _ else _) = _
    rw [if_neg fun h0 => hb h0.symm, htail]
    rfl

variable {strings : List (List UInt8)}

/-- The strings of a vector are read where its pointers are, with a null pointer behind them. -/
theorem readVector_eq {pointers : List ℕ}
    (hlength : pointers.length = strings.length) {n : ℕ} (hn : pointers.length < n)
    (hpointer : ∀ k (hk : k < pointers.length), readPointer v (a + 8 * k) = some pointers[k])
    (hlast : readPointer v (a + 8 * pointers.length) = some 0)
    (hstring : ∀ k (hk : k < pointers.length), pointers[k] ≠ 0 ∧
      readString v userStackSize pointers[k] = some strings[k]) :
    readVector v n a = some strings := by
  induction pointers generalizing strings n a with
  | nil =>
    obtain ⟨n, rfl⟩ := exists_eq_add_one_of_ne_zero (ne_of_gt hn)
    obtain rfl := eq_nil_of_length_eq_zero hlength.symm
    have hnull : readPointer v a = some 0 := hlast
    rw [readVector, hnull]
    rfl
  | cons p rest ih =>
    obtain ⟨n, rfl⟩ := exists_eq_add_one_of_ne_zero (ne_of_gt (zero_lt_of_lt hn))
    cases strings with
    | nil => cases hlength
    | cons s strings =>
      have hnext : ∀ k, a + 8 + 8 * k = a + 8 * (k + 1) := fun k => by omega
      have hfirst : readPointer v a = some p := hpointer 0 (succ_pos _)
      obtain ⟨hp, hs⟩ : p ≠ 0 ∧ readString v userStackSize p = some s :=
        hstring 0 (succ_pos _)
      have htail : readVector v n (a + 8) = some strings := by
        refine ih (Nat.succ.inj hlength) (lt_of_succ_lt_succ hn) (fun k hk => ?_) ?_ fun k hk =>
          ?_
        · rw [hnext]
          exact hpointer (k + 1) (succ_lt_succ hk)
        · rw [hnext]
          exact hlast
        · exact hstring (k + 1) (succ_lt_succ hk)
      rw [readVector, hfirst]
      show (if p = 0 then _ else _) = _
      rw [if_neg hp, hs, htail]
      rfl

/-! ### Blocks -/

/-- The numbers of the pages of the stack. -/
def stackPages : Set ℕ := Set.Ico (userStackStart / pageSize) (userStackTop / pageSize)

/-- An address space with the pages of the stack: each has a frame of its own. -/
structure StackReady (frames : Frames) : Prop where
  mapped : ∀ page ∈ stackPages, (frames page).isSome = true
  distinct : Paged.DistinctOn frames stackPages

/-- Bytes with their place. -/
structure Block where
  address : ℕ
  bytes : List UInt8

/-- The end of a block. -/
def Block.stop (b : Block) : ℕ := b.address + b.bytes.length

/-- A block is seen where it belongs. -/
def Block.Seen (frames : Frames) (memory : ByteStore) (b : Block) : Prop :=
  ∀ k < b.bytes.length, Paged.view pageSize frames memory (b.address + k) = b.bytes[k]?

/-- Blocks on the stack, from the top downward: each is seen, and lies below the ones before it. -/
structure Placed (frames : Frames) (sp : ℕ) (blocks : List Block) (memory : ByteStore) : Prop where
  top : sp ≤ userStackTop
  inside : ∀ b ∈ blocks, sp ≤ b.address ∧ b.stop ≤ userStackTop
  below : blocks.Pairwise fun b c => c.stop ≤ b.address
  seen : ∀ b ∈ blocks, b.Seen frames memory

variable {frames : Frames} {sp : ℕ} {blocks : List Block} {memory : ByteStore}

theorem stack_page {x : ℕ} (hstart : userStackStart ≤ x) (htop : x < userStackTop) :
    x / pageSize ∈ stackPages :=
  ⟨Nat.div_le_div_right hstart, Nat.div_lt_div_of_lt_of_dvd (by decide) htop⟩

theorem placed_nil : Placed frames userStackTop [] memory :=
  ⟨le_rfl, fun _ h => (not_mem_nil h).elim, .nil, fun _ h => (not_mem_nil h).elim⟩

theorem StackReady.range (h : StackReady frames) {count : ℕ} (hstart : userStackStart ≤ a)
    (htop : a + count ≤ userStackTop) : Mapped frames a count := by
  intro k hk
  have hlimit : userStackTop < addressLimit := by decide
  exact ⟨by omega, h.mapped _ (stack_page (by omega) (by omega))⟩

/-- **A block is pushed** below the others. -/
theorem Placed.push (h : Placed frames sp blocks memory) (hstack : StackReady frames) {b : Block}
    (hstart : userStackStart ≤ b.address) (hsp : b.stop ≤ sp) :
    Placed frames b.address (blocks ++ [b])
      (Paged.pokes pageSize frames b.address b.bytes memory) := by
  have htop := h.top
  rw [Block.stop] at hsp
  have hview : ∀ x, userStackStart ≤ x → x < userStackTop → Paged.view pageSize frames
      (Paged.pokes pageSize frames b.address b.bytes memory) x =
        if b.address ≤ x ∧ x < b.address + b.bytes.length then b.bytes[x - b.address]?
        else Paged.view pageSize frames memory x := fun x hx hx' =>
    Paged.view_pokes pageSize_pos hstack.distinct b.bytes
      (fun k hk => stack_page (by omega) (by omega))
      (fun k hk => hstack.mapped _ (stack_page (by omega) (by omega))) memory (stack_page hx hx')
  refine ⟨by omega, ?_, ?_, ?_⟩
  · intro c hc
    rcases mem_append.mp hc with hc | hc
    · have hin := h.inside c hc
      exact ⟨by omega, hin.2⟩
    · obtain rfl := mem_singleton.mp hc
      exact ⟨le_rfl, by rw [Block.stop]; omega⟩
  · refine pairwise_append.mpr ⟨h.below, pairwise_singleton _ _, fun c hc d hd => ?_⟩
    obtain rfl := mem_singleton.mp hd
    have hin := h.inside c hc
    rw [Block.stop]
    omega
  · intro c hc k hk
    rcases mem_append.mp hc with hc | hc
    · -- A block above is seen as before.
      have hin := h.inside c hc
      rw [Block.stop] at hin
      rw [hview _ (by omega) (by omega), if_neg (by omega)]
      exact h.seen c hc k hk
    · obtain rfl := mem_singleton.mp hc
      rw [hview _ (by omega) (by omega), if_pos (by omega), Nat.add_sub_cancel_left]

/-! ### Strings and vectors -/

/-- The bytes that strings take, each with a zero. -/
def room (strings : List (List UInt8)) : ℕ := (strings.map fun s => s.length + 1).sum

/-- Strings where their pointers point. -/
def stringBlocks (pointers : List ℕ) (strings : List (List UInt8)) : List Block :=
  List.zipWith (fun p s => ⟨p, s ++ [0]⟩) pointers strings

/-- **Strings are pushed**, one below the other. -/
theorem pushStrings_spec (hstack : StackReady frames) (strings : List (List UInt8))
    (h : Placed frames sp blocks memory) (hroom : userStackStart + room strings ≤ sp) :
    ∃ pointers memory', pushStrings frames strings sp memory =
        some (pointers, sp - room strings, memory') ∧ pointers.length = strings.length ∧
      Placed frames (sp - room strings) (blocks ++ stringBlocks pointers strings) memory' := by
  induction strings generalizing sp blocks memory with
  | nil =>
    refine ⟨[], memory, rfl, rfl, ?_⟩
    rw [stringBlocks, zipWith_nil_left, append_nil]
    exact h
  | cons s rest ih =>
    have hsum : room (s :: rest) = s.length + 1 + room rest := sum_cons
    have htop := h.top
    rw [hsum] at hroom ⊢
    generalize ha : sp - (s.length + 1) = a
    have hblock : (Block.mk a (s ++ [0])).stop = a + (s.length + 1) := by
      rw [Block.stop, length_append]
      rfl
    have hpush : Placed frames a (blocks ++ [⟨a, s ++ [0]⟩])
        (Paged.pokes pageSize frames a (s ++ [0]) memory) :=
      h.push hstack (show userStackStart ≤ a by omega) (hblock.trans_le (by omega))
    obtain ⟨pointers, memory', heq, hlength, hplaced⟩ := ih hpush (by omega)
    have hstring := copyToUser_eq (hstack.range (show userStackStart ≤ a by omega)
      (show a + s.length ≤ userStackTop by omega)) memory
    have hzero : copyToUser frames (a + s.length) [0] (Paged.pokes pageSize frames a s memory) =
        some (Paged.pokes pageSize frames a (s ++ [0]) memory) := by
      rw [Paged.pokes_append]
      exact copyToUser_eq (hstack.range (by omega) (by rw [length_singleton]; omega)) _
    refine ⟨a :: pointers, memory', ?_, congrArg Nat.succ hlength, ?_⟩
    · rw [pushStrings, if_neg (by omega), ha, hstring]
      show (do let memory ← copyToUser frames (a + s.length) [0] _; _) = _
      rw [hzero]
      show (do let x ← pushStrings frames rest a _; _) = _
      rw [heq]
      show some (_, _, _) = some (_, _, _)
      rw [← ha, Nat.sub_sub]
    · rw [← Nat.sub_sub, ha]
      rw [append_assoc] at hplaced
      exact hplaced

variable {vector : ℕ}

theorem storePointers_eq (hstack : StackReady frames) (pointers : List ℕ) {index : ℕ}
    (hstart : userStackStart ≤ vector)
    (htop : vector + (index + pointers.length) * 8 ≤ userStackTop) (memory : ByteStore) :
    storePointers frames vector index pointers memory =
      some (Paged.pokes pageSize frames (vector + index * 8)
        (pointers.flatMap (leBytes 8)) memory) := by
  induction pointers generalizing index memory with
  | nil => rfl
  | cons p rest ih =>
    rw [length_cons] at htop
    have hword : (leBytes 8 p).length = 8 := rfl
    rw [storePointers, copyToUser_eq (hstack.range (by omega) (by rw [hword]; omega))]
    show storePointers frames vector (index + 1) rest _ = _
    rw [ih (by omega), flatMap_cons, Paged.pokes_append, hword, succ_mul, ← add_assoc]

/-- The bytes of a vector. -/
def vectorBytes (pointers : List ℕ) : List UInt8 := (pointers ++ [0]).flatMap (leBytes 8)

theorem length_words (l : List ℕ) : (l.flatMap (leBytes 8)).length = l.length * 8 := by
  induction l with
  | nil => rfl
  | cons p rest ih =>
    have hword : (leBytes 8 p).length = 8 := rfl
    rw [flatMap_cons, length_append, ih, length_cons, succ_mul, add_comm, hword]

theorem getElem_words (l : List ℕ) {i k : ℕ} (hi : i < l.length) (hk : k < 8) :
    (l.flatMap (leBytes 8))[8 * i + k]? = (leBytes 8 l[i])[k]? := by
  induction l generalizing i with
  | nil => exact absurd hi (not_lt_zero i)
  | cons p rest ih =>
    have hword : (leBytes 8 p).length = 8 := rfl
    rw [flatMap_cons]
    cases i with
    | zero => rw [mul_zero, zero_add, List.getElem?_append_left (by omega)]; rfl
    | succ i =>
      rw [List.getElem?_append_right (by omega), hword,
        show 8 * (i + 1) + k - 8 = 8 * i + k by omega, ih (lt_of_succ_lt_succ hi)]
      rfl

theorem length_vectorBytes (pointers : List ℕ) :
    (vectorBytes pointers).length = (pointers.length + 1) * 8 := by
  rw [vectorBytes, length_words, length_append, length_singleton]

/-- **A vector is put** below the blocks. -/
theorem storeVector_spec (hstack : StackReady frames) (pointers : List ℕ)
    (h : Placed frames sp blocks memory) (hstart : userStackStart ≤ vector)
    (hsp : vector + (pointers.length + 1) * 8 ≤ sp) :
    ∃ memory', storeVector frames vector pointers memory = some memory' ∧
      Placed frames vector (blocks ++ [⟨vector, vectorBytes pointers⟩]) memory' := by
  have htop := h.top
  refine ⟨Paged.pokes pageSize frames vector (vectorBytes pointers) memory, ?_, ?_⟩
  · have hword : (leBytes 8 0).length = 8 := rfl
    rw [storeVector, storePointers_eq hstack pointers hstart (by omega)]
    show copyToUser frames (vector + pointers.length * 8) (leBytes 8 0) _ = _
    rw [copyToUser_eq (hstack.range (by omega) (by rw [hword]; omega)), vectorBytes,
      flatMap_append, Paged.pokes_append, length_words, zero_mul, add_zero]
    rfl
  · have hstop : (Block.mk vector (vectorBytes pointers)).stop =
        vector + (pointers.length + 1) * 8 := by
      rw [Block.stop, length_vectorBytes]
    exact h.push hstack hstart (hstop.trans_le hsp)

/-! ### The stack -/

/-- What the kernel takes as arguments, or as an environment: at most `limit` strings of at most
`MAX_EXEC_ITEM_SIZE` bytes, none of which is a zero. -/
structure Passable (limit : ℕ) (strings : List (List UInt8)) : Prop where
  count : strings.length ≤ limit
  size : ∀ s ∈ strings, s.length ≤ maxExecItemSize
  nonzero : ∀ s ∈ strings, 0 ∉ s

/-- All that is put on the stack. -/
def stackBlocks (arguments environment : List (List UInt8)) (argumentPointers environmentPointers :
    List ℕ) (argv envp : ℕ) : List Block :=
  stringBlocks argumentPointers arguments ++ stringBlocks environmentPointers environment ++
    [⟨envp, vectorBytes environmentPointers⟩] ++ [⟨argv, vectorBytes argumentPointers⟩]

/-- **A stack that is well formed.** There is a pointer for each string; all blocks are on the
stack, apart from each other and above the stack pointer, and are seen where they belong: each
string with a zero behind it where its pointer points, and each vector of pointers with a null
pointer behind it. The program is entered like a function that was called, eight bytes below an
address that is aligned, and reads back what it was given. -/
structure WellFormedStack (frames : Frames) (arguments environment : List (List UInt8))
    (entry argv envp : ℕ) (argumentPointers environmentPointers : List ℕ) (memory : ByteStore) :
    Prop where
  argumentCount : argumentPointers.length = arguments.length
  environmentCount : environmentPointers.length = environment.length
  inside : ∀ b ∈ stackBlocks arguments environment argumentPointers environmentPointers argv envp,
    entry + 8 ≤ b.address ∧ b.stop ≤ userStackTop
  apart : (stackBlocks arguments environment argumentPointers environmentPointers argv
    envp).Pairwise
    fun b c => Apart b.address b.bytes.length c.address c.bytes.length
  seen : ∀ b ∈ stackBlocks arguments environment argumentPointers environmentPointers argv envp,
    b.Seen frames memory
  start : userStackStart ≤ entry
  aligned : (entry + 8) % 16 = 0
  readArguments : readVector (Paged.view pageSize frames memory) (maxExecArgs + 1) argv =
    some arguments
  readEnvironment : readVector (Paged.view pageSize frames memory) (maxExecEnv + 1) envp =
    some environment

theorem room_le {limit : ℕ} (h : Passable limit strings) :
    room strings ≤ limit * (maxExecItemSize + 1) := by
  have hsum : ∀ l : List (List UInt8), (∀ s ∈ l, s.length ≤ maxExecItemSize) →
      room l ≤ l.length * (maxExecItemSize + 1) := by
    intro l hl
    induction l with
    | nil => exact le_rfl
    | cons s rest ih =>
      have hs := hl s mem_cons_self
      have hrest := ih fun t ht => hl t (mem_cons_of_mem _ ht)
      rw [room, map_cons, sum_cons, ← room, length_cons, succ_mul]
      omega
  exact (hsum strings h.size).trans (mul_le_mul_right _ h.count)

/-- **What was put on the stack is read back.** -/
theorem readVector_placed {limit : ℕ} (hpass : Passable limit strings)
    {pointers : List ℕ} (hlength : pointers.length = strings.length)
    (hinside : ∀ b ∈ stringBlocks pointers strings, userStackStart ≤ b.address ∧
      b.stop ≤ userStackTop)
    (hseen : ∀ b ∈ stringBlocks pointers strings, b.Seen frames memory)
    (hvector : (Block.mk vector (vectorBytes pointers)).Seen frames memory) :
    readVector (Paged.view pageSize frames memory) (limit + 1) vector = some strings := by
  have hword : ∀ k (hk : k < (pointers ++ [0]).length), (pointers ++ [0])[k] < 2 ^ 64 →
      readPointer (Paged.view pageSize frames memory) (vector + 8 * k) =
        some (pointers ++ [0])[k] := by
    intro k hk hp
    refine readPointer_eq hp fun i hi => ?_
    have hat := hvector (8 * k + i) (by
      rw [length_vectorBytes]
      rw [length_append, length_singleton] at hk
      omega)
    rwa [vectorBytes, getElem_words _ hk hi, ← add_assoc] at hat
  have hblock : ∀ k (hk : k < pointers.length), Block.mk pointers[k] (strings[k] ++ [0]) ∈
      stringBlocks pointers strings := by
    intro k hk
    have hk' : k < (stringBlocks pointers strings).length := by
      rw [stringBlocks, length_zipWith]
      omega
    have hmem := getElem_mem hk'
    simp only [stringBlocks, getElem_zipWith] at hmem
    exact hmem
  have htop : userStackTop < 2 ^ 64 := by decide
  have hstart : 0 < userStackStart := by decide
  refine readVector_eq hlength (by have := hpass.count; omega) (fun k hk => ?_) ?_ fun k hk => ?_
  · have hat := hword k (by rw [length_append]; omega)
    rw [getElem_append_left hk] at hat
    have hin : pointers[k] + (strings[k] ++ [0]).length ≤ userStackTop :=
      (hinside _ (hblock k hk)).2
    exact hat (by omega)
  · have hat := hword pointers.length (by rw [length_append, length_singleton]; omega)
    rw [getElem_concat_length rfl] at hat
    exact hat (by decide)
  · have hin : userStackStart ≤ pointers[k] := (hinside _ (hblock k hk)).1
    have hmem : strings[k] ∈ strings := getElem_mem _
    have hsize := hpass.size _ hmem
    have hlarge : maxExecItemSize < userStackSize := by decide
    refine ⟨by omega, readString_eq (hpass.nonzero _ hmem) (by omega) fun i hi => ?_⟩
    · exact hseen _ (hblock k hk) i (by rwa [length_append, length_singleton])

theorem vectorBelow_eq {low count : ℕ} (hcount : count ≤ 12) (h : low + 120 ≤ sp) : ∃ vector,
    vectorBelow sp count = some vector ∧ vector % 16 = 0 ∧ vector + (count + 1) * 8 ≤ sp ∧
      low ≤ vector := by
  refine ⟨_, if_pos (by omega), ?_, ?_, ?_⟩ <;> omega

theorem room_below {low top b : ℕ} (h : low + 4096 ≤ top) (ha : a ≤ 12 * 129)
    (hb : b ≤ 12 * 129) : low + a ≤ top ∧ low + b ≤ top - a ∧
    low + 8 + 120 + 120 ≤ top - a - b := by
  omega

/-- **The stack of a program** is well formed, whatever it is given. -/
theorem prepareUserStack_wellFormed (frames : Frames) (hstack : StackReady frames)
    (arguments environment : List (List UInt8)) (harguments : Passable maxExecArgs arguments)
    (henvironment : Passable maxExecEnv environment) (memory : ByteStore) :
    ∃ entry argv envp memory' argumentPointers environmentPointers,
      prepareUserStack frames arguments environment memory = some ((entry, argv, envp), memory') ∧
        WellFormedStack frames arguments environment entry argv envp argumentPointers
          environmentPointers memory' := by
  have hcount : arguments.length ≤ 12 := harguments.count
  have hcount' : environment.length ≤ 12 := henvironment.count
  have hroom : room arguments ≤ 12 * 129 := room_le harguments
  have hroom' : room environment ≤ 12 * 129 := room_le henvironment
  have hsize : userStackStart + 4096 ≤ userStackTop := by decide
  obtain ⟨hfit, hfit', hlow⟩ := room_below hsize hroom hroom'
  -- The strings, and then the vectors, one below the other.
  have hplaced₀ : Placed frames userStackTop [] memory := placed_nil
  obtain ⟨ps, memory₁, hps, hplength, hplaced₁⟩ :=
    pushStrings_spec hstack arguments hplaced₀ hfit
  obtain ⟨qs, memory₂, hqs, hqlength, hplaced₂⟩ :=
    pushStrings_spec hstack environment hplaced₁ hfit'
  generalize hsp : userStackTop - room arguments - room environment = sp at hqs hplaced₂ hlow
  obtain ⟨envp, henvp, -, hle, hlow⟩ := vectorBelow_eq hcount' hlow
  obtain ⟨memory₃, hvector, hplaced₃⟩ :=
    storeVector_spec hstack qs hplaced₂ (Nat.le_of_add_right_le hlow)
      (by rwa [hqlength])
  obtain ⟨argv, hargv, haligned, hle', hlow'⟩ := vectorBelow_eq hcount hlow
  obtain ⟨memory₄, hvector', hplaced₄⟩ :=
    storeVector_spec hstack ps hplaced₃ (Nat.le_of_add_right_le hlow') (by rwa [hplength])
  have hentry : 8 ≤ argv := (Nat.le_add_left 8 _).trans hlow'
  refine ⟨argv - 8, argv, envp, memory₄, ps, qs, ?_, ?_⟩
  · rw [prepareUserStack, if_neg (not_or.mpr ⟨Nat.not_lt.mpr hcount, Nat.not_lt.mpr hcount'⟩), hps]
    show (do let x ← pushStrings frames environment _ memory₁; _) = _
    rw [hqs]
    show (do let envp ← vectorBelow sp environment.length; _) = _
    rw [henvp]
    show (do let memory ← storeVector frames envp qs memory₂; _) = _
    rw [hvector]
    show (do let sp ← vectorBelow envp arguments.length; _) = _
    rw [hargv]
    show (do let memory ← storeVector frames argv ps memory₃; _) = _
    rw [hvector']
    show (if argv < 8 then none else _) = _
    rw [if_neg (Nat.not_lt.mpr hentry)]
    rfl
  · rw [nil_append] at hplaced₄
    have hin : ∀ b ∈ stackBlocks arguments environment ps qs argv envp,
        argv ≤ b.address ∧ b.stop ≤ userStackTop := hplaced₄.inside
    have hseen : ∀ b ∈ stackBlocks arguments environment ps qs argv envp, b.Seen frames memory₄ :=
      hplaced₄.seen
    have hinside : ∀ b ∈ stackBlocks arguments environment ps qs argv envp,
        userStackStart ≤ b.address ∧ b.stop ≤ userStackTop := fun b hb =>
      ⟨(Nat.le_of_add_right_le hlow').trans (hin b hb).1, (hin b hb).2⟩
    have hstrings : ∀ b ∈ stringBlocks ps arguments,
        b ∈ stackBlocks arguments environment ps qs argv envp := fun b hb =>
      mem_append_left _ (mem_append_left _ (mem_append_left _ hb))
    have hstrings' : ∀ b ∈ stringBlocks qs environment,
        b ∈ stackBlocks arguments environment ps qs argv envp := fun b hb =>
      mem_append_left _ (mem_append_left _ (mem_append_right _ hb))
    refine ⟨hplength, hqlength, fun b hb => ?_, ?_, hseen, Nat.le_sub_of_add_le hlow', ?_, ?_, ?_⟩
    · rw [Nat.sub_add_cancel hentry]
      exact hin b hb
    · exact hplaced₄.below.imp fun h => Or.inr h
    · rw [Nat.sub_add_cancel hentry]
      exact haligned
    · exact readVector_placed harguments hplength (fun b hb => hinside b (hstrings b hb))
        (fun b hb => hseen b (hstrings b hb))
        (hseen _ (mem_append_right _ mem_cons_self))
    · exact readVector_placed henvironment hqlength (fun b hb => hinside b (hstrings' b hb))
        (fun b hb => hseen b (hstrings' b hb))
        (hseen _ (mem_append_left _ (mem_append_right _ mem_cons_self)))

theorem prepareUserStack_wellFormed_sample :
    ∃ entry argv envp memory argumentPointers environmentPointers,
      prepareUserStack some [[108, 115], []] [[65, 61, 98]] (fun _ => 0) =
          some ((entry, argv, envp), memory) ∧
        WellFormedStack some [[108, 115], []] [[65, 61, 98]] entry argv envp argumentPointers
          environmentPointers memory := by
  have hstack : StackReady some :=
    ⟨fun _ _ => rfl, fun _ _ _ _ _ hp hq => Option.some.inj (hp.trans hq.symm)⟩
  exact prepareUserStack_wellFormed some hstack [[108, 115], []] [[65, 61, 98]]
    ⟨by decide, by decide, by decide⟩ ⟨by decide, by decide, by decide⟩ fun _ => 0

end ImagineOS.Exec
