import ImagineOS.ByteStore

/-!
# Libc: the heap

Every block of the heap starts with a header, and the headers are linked in a list, the newest
first. `malloc` takes the first block of the list that is free and large enough, or gets memory from
`sbrk` for a new one, which is a failure only if the address is `(void *)-1`. Blocks are neither
split nor joined.
-/

namespace ImagineOS.Libc

/-- One more than the largest `size_t`. -/
abbrev wordSize : ℕ := 2 ^ 64

def longMax : ℕ := 2 ^ 63 - 1

def heapAlignment : ℕ := 16

/-- `sizeof(MemoryBlock)` -/
def headerSize : ℕ := 32

def heapChunkSize : ℕ := 64 * 1024

/-- `ENOMEM` -/
def outOfMemory : ℕ := 12

/-- Memory that came from `sbrk`. -/
structure Region where
  base : ℕ
  length : ℕ

/-- The state of the libc that its heap uses. What came from `sbrk` is remembered, which the source
does not do. -/
structure Heap where
  bytes : ByteStore
  blocks : ℕ
  errno : ℕ
  obtained : List Region

/-! ### Headers -/

/-- `allocation.size` -/
def sizeOf (m : ByteStore) (block : ℕ) : ℕ := m.word block 8

/-- `allocation.next` -/
def nextOf (m : ByteStore) (block : ℕ) : ℕ := m.word (block + 8) 8

/-- `allocation.free` -/
def isFree (m : ByteStore) (block : ℕ) : Prop := m.word (block + 16) 4 ≠ 0

instance (m : ByteStore) (block : ℕ) : Decidable (isFree m block) :=
  inferInstanceAs (Decidable (_ ≠ _))

/-- Assigns `allocation.free`. -/
def setFree (m : ByteStore) (block value : ℕ) : ByteStore := m.setWord (block + 16) 4 value

/-- `block + 1` -/
def userOf (block : ℕ) : ℕ := (block + headerSize) % wordSize

/-- `(MemoryBlock *)pointer - 1` -/
def headerOf (pointer : ℕ) : ℕ := (pointer + (wordSize - headerSize)) % wordSize

/-! ### Functions -/

/-- The loop of `malloc`, with an upper bound on its rounds: the block it finds, or `0` at the end
of the list. -/
def firstFit (m : ByteStore) (size : ℕ) : ℕ → ℕ → Option ℕ
  | 0, _ => none
  | rounds + 1, block =>
    if block = 0 then some 0
    else if isFree m block ∧ sizeOf m block ≥ size then some block
    else firstFit m size rounds (nextOf m block)

/-- More headers than this have no place in memory. -/
abbrev maxBlocks : ℕ := 2 ^ 60

/-- `malloc`, where `sbrk` answers an increment with an address; without a result where the loop
does not end. -/
def malloc (sbrk : ℕ → ℕ) (size : ℕ) (h : Heap) : Option (ℕ × Heap) :=
  let size := if size = 0 then 1 else size
  if size > wordSize - 1 - (heapAlignment - 1) then some (0, { h with errno := outOfMemory })
  else
    let size := (size + heapAlignment - 1) / heapAlignment * heapAlignment
    match firstFit h.bytes size maxBlocks h.blocks with
    | none => none
    | some (block + 1) =>
      some (userOf (block + 1), { h with bytes := setFree h.bytes (block + 1) 0 })
    | some 0 =>
      if size > longMax - headerSize then some (0, { h with errno := outOfMemory })
      else
        let capacity := max (size + headerSize) heapChunkSize
        let memory := sbrk capacity
        if memory = wordSize - 1 then some (0, { h with errno := outOfMemory })
        else
          let bytes := h.bytes.setWord memory 8 (capacity - headerSize)
          let bytes := bytes.setWord (memory + 8) 8 h.blocks
          some (userOf memory, { h with
              bytes := setFree bytes memory 0, blocks := memory,
              obtained := ⟨memory, capacity⟩ :: h.obtained })

def calloc (sbrk : ℕ → ℕ) (count size : ℕ) (h : Heap) : Option (ℕ × Heap) :=
  if size ≠ 0 ∧ count > (wordSize - 1) / size then some (0, h)
  else
    let total := count * size % wordSize
    (malloc sbrk total h).map fun (allocation, h) =>
      if allocation ≠ 0 then (allocation, { h with bytes := h.bytes.memset allocation 0 total })
      else (allocation, h)

def free (pointer : ℕ) (h : Heap) : Heap :=
  if pointer ≠ 0 then { h with bytes := setFree h.bytes (headerOf pointer) 1 } else h

def realloc (sbrk : ℕ → ℕ) (pointer size : ℕ) (h : Heap) : Option (ℕ × Heap) :=
  if pointer = 0 then malloc sbrk size h
  else if size = 0 then some (0, free pointer h)
  else if sizeOf h.bytes (headerOf pointer) ≥ size then some (pointer, h)
  else (malloc sbrk size h).map fun (replacement, h) =>
    if replacement = 0 then (0, h)
    else
      let old := sizeOf h.bytes (headerOf pointer)
      let copied := if old < size then old else size
      let h := { h with bytes := h.bytes.memcpy replacement pointer copied }
      (replacement, free pointer h)

end ImagineOS.Libc
