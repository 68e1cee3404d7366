import ImagineOS.Memory.Frames
import Mathlib.Data.BitVec

/-!
# Physical memory: page tables

A page of physical memory holds 512 words, and a page table is a page. What an address space maps is
read off its tables (`AddressSpace.lookup`): a path of four indices leads from the root to the entry
of a page, or ends early at an entry that is not present or that maps a huge page. `clone_user`
copies the user half of an address space, page for page, into tables and pages of its own.
-/

namespace ImagineOS.Memory

open BitVec

/-! ### Entries -/

/-- `ADDRESS_MASK` -/
def entryMask : BitVec 64 := 0x000ffffffffff000#64

def entryPresent : BitVec 64 := 1#64

def entryWritable : BitVec 64 := 2#64

def entryUser : BitVec 64 := 4#64

def entryHuge : BitVec 64 := 128#64

/-- `entry & ENTRY_PRESENT != 0` -/
def present (e : BitVec 64) : Prop := e &&& entryPresent ≠ 0

/-- `entry & ENTRY_HUGE != 0` -/
def huge (e : BitVec 64) : Prop := e &&& entryHuge ≠ 0

instance : DecidablePred present := fun e => inferInstanceAs (Decidable (e &&& entryPresent ≠ 0))

instance : DecidablePred huge := fun e => inferInstanceAs (Decidable (e &&& entryHuge ≠ 0))

/-- `entry & ADDRESS_MASK` -/
def address (e : BitVec 64) : ℕ := (e &&& entryMask).toNat

/-- `entry & !ADDRESS_MASK` -/
def flags (e : BitVec 64) : BitVec 64 := e &&& ~~~entryMask

/-- The entry that leads to a new table. -/
def tableEntry (physical : ℕ) : BitVec 64 :=
  BitVec.ofNat 64 physical ||| entryPresent ||| entryWritable ||| entryUser

/-- The entry of a copied page. -/
def pageEntry (source : BitVec 64) (physical : ℕ) : BitVec 64 :=
  source &&& ~~~entryMask ||| BitVec.ofNat 64 physical

section Entries

variable {p : ℕ}

theorem getLsbD_entryMask (i : Fin 64) :
    entryMask.getLsbD i = decide (12 ≤ i.val ∧ i.val < 52) := by
  revert i
  decide

theorem ofNat_and_entryMask (hdvd : pageSize ∣ p) (hlt : p < 2 ^ 52) :
    BitVec.ofNat 64 p &&& entryMask = BitVec.ofNat 64 p := by
  obtain ⟨k, rfl⟩ := hdvd
  refine eq_of_getLsbD_eq fun i hi => ?_
  rw [getLsbD_and, getLsbD_entryMask ⟨i, hi⟩, getLsbD_ofNat]
  have hpage : pageSize * k = k <<< 12 := by
    rw [Nat.shiftLeft_eq, Nat.mul_comm]
    rfl
  by_cases hlow : 12 ≤ i
  · by_cases hhigh : i < 52
    · simp [hlow, hhigh]
    · have hbit : (pageSize * k).testBit i = false :=
        Nat.testBit_lt_two_pow (hlt.trans_le (Nat.pow_le_pow_right (by decide) (by omega)))
      simp [hbit]
  · have hbit : (pageSize * k).testBit i = false := by
      rw [hpage, Nat.testBit_shiftLeft]
      simp [hlow]
    simp [hbit]

theorem and_not_of_and_eq {x m : BitVec 64} (h : x &&& m = x) : x &&& ~~~m = 0 := by
  rw [← h, BitVec.and_assoc]
  simp

theorem address_pageEntry (e : BitVec 64) (hdvd : pageSize ∣ p) (hlt : p < 2 ^ 52) :
    address (pageEntry e p) = p := by
  have hmask : pageEntry e p &&& entryMask = BitVec.ofNat 64 p := by
    rw [pageEntry, BitVec.and_or_distrib_right, ofNat_and_entryMask hdvd hlt, BitVec.and_assoc]
    simp
  rw [address, hmask, BitVec.toNat_ofNat, Nat.mod_eq_of_lt (by omega)]

theorem flags_pageEntry (e : BitVec 64) (hdvd : pageSize ∣ p) (hlt : p < 2 ^ 52) :
    flags (pageEntry e p) = flags e := by
  rw [flags, pageEntry, BitVec.and_or_distrib_right,
    and_not_of_and_eq (ofNat_and_entryMask hdvd hlt), BitVec.and_assoc, BitVec.and_self]
  simp [flags]

theorem present_pageEntry {e : BitVec 64} (h : present e) (hdvd : pageSize ∣ p) (hlt : p < 2 ^ 52) :
    present (pageEntry e p) := by
  have hpresent : ∀ x : BitVec 64, flags x &&& entryPresent = x &&& entryPresent := fun x => by
    rw [flags, BitVec.and_assoc]
    rfl
  rw [present, ← hpresent, flags_pageEntry e hdvd hlt, hpresent]
  exact h

theorem address_tableEntry (hdvd : pageSize ∣ p) (hlt : p < 2 ^ 52) :
    address (tableEntry p) = p := by
  have hmask : tableEntry p &&& entryMask = BitVec.ofNat 64 p := by
    rw [tableEntry, and_or_distrib_right, and_or_distrib_right,
      and_or_distrib_right, ofNat_and_entryMask hdvd hlt]
    simp [entryMask, entryPresent, entryWritable, entryUser]
  rw [address, hmask, toNat_ofNat, Nat.mod_eq_of_lt (by omega)]

theorem present_tableEntry (p : ℕ) : present (tableEntry p) := by
  intro h
  have hbit := congrArg (fun x : BitVec 64 => x.getLsbD 0) h
  simp [tableEntry, entryPresent] at hbit

theorem not_huge_tableEntry (hdvd : pageSize ∣ p) (hlt : p < 2 ^ 52) : ¬ huge (tableEntry p) := by
  have hbits : tableEntry p &&& entryHuge = 0 := by
    rw [tableEntry, BitVec.and_or_distrib_right, BitVec.and_or_distrib_right,
      BitVec.and_or_distrib_right, ← ofNat_and_entryMask hdvd hlt, BitVec.and_assoc]
    simp [entryMask, entryPresent, entryWritable, entryUser, entryHuge]
  exact fun h => h hbits

theorem not_present_zero : ¬ present 0#64 := by decide

end Entries

/-! ### Copying an address space -/

/-- A page, as 512 words. -/
abbrev Table := Fin 512 → BitVec 64

/-- The pages of physical memory by their addresses, the frame allocator and the register `cr3`. -/
structure Machine where
  memory : ℕ → Table
  allocator : FrameAllocator
  cr3 : BitVec 64

/-- A write to a page. -/
def Machine.write (s : Machine) (p : ℕ) (t : Table) : Machine :=
  { s with memory := Function.update s.memory p t }

/-- `table_pointer`: memory is reached through its direct map. -/
def tablePointer (s : Machine) (physical : ℕ) : Option ℕ :=
  if physical + s.allocator.hhdmOffset < 2 ^ 64 then some physical else none

/-- `AddressSpace::new_user`: the physical address of the root. -/
def newUser (s : Machine) : Option ℕ × Machine :=
  match allocateFrame s.allocator with
  | (none, allocator) => (none, { s with allocator := allocator })
  | (some root, allocator) =>
    let s := Machine.write { s with allocator := allocator } root.physicalAddress fun _ => 0
    match tablePointer s (address s.cr3) with
    | none => (none, s)
    | some source =>
      (some root.physicalAddress, s.write root.physicalAddress fun i =>
        if 256 ≤ i.val then s.memory source i else s.memory root.physicalAddress i)

/-- The own table of the destination: its address, if the entry is there or a frame is left. -/
def ensureTable (destination : ℕ) (index : Fin 512) (s : Machine) : Option ℕ × Machine :=
  if present (s.memory destination index) then (some (address (s.memory destination index)), s)
  else match allocateFrame s.allocator with
    | (none, allocator) => (none, { s with allocator := allocator })
    | (some frame, allocator) =>
      let s := Machine.write { s with allocator := allocator } frame.physicalAddress fun _ => 0
      let s := s.write destination
        (Function.update (s.memory destination) index (tableEntry frame.physicalAddress))
      (some (address (s.memory destination index)), s)

/-- The loop over the entries of a table: the pages that were copied. -/
def copyEntries (copy : Fin 512 → Machine → ℕ × Machine) : List (Fin 512) → Machine → ℕ × Machine
  | [], s => (0, s)
  | index :: rest, s =>
    let (n, s) := copy index s
    let (k, s) := copyEntries copy rest s
    (n + k, s)

/-- `AddressSpace::copy_table` -/
def copyTable : ℕ → ℕ → ℕ → Fin 512 → Machine → ℕ × Machine
  | 0, _, _, _, s => (0, s) -- there is no such level
  | level + 1, source, destination, index, s =>
    match tablePointer s source with
    | none => (0, s)
    | some sourceTable =>
      let sourceEntry := s.memory sourceTable index
      if ¬ present sourceEntry then (0, s)
      else match tablePointer s destination with
      | none => (0, s)
      | some destinationTable =>
        if level = 0 then
          match allocateFrame s.allocator with
          | (none, allocator) => (0, { s with allocator := allocator })
          | (some frame, allocator) =>
            let s := { s with allocator := allocator }
            match tablePointer s (address sourceEntry) with
            | none => (0, s)
            | some sourcePage =>
              let s := s.write frame.physicalAddress (s.memory sourcePage)
              (1, s.write destinationTable (Function.update (s.memory destinationTable) index
                (pageEntry sourceEntry frame.physicalAddress)))
        else if huge sourceEntry then (0, s)
        else match ensureTable destinationTable index s with
        | (none, s) => (0, s)
        | (some nextDestination, s) =>
          copyEntries (copyTable level (address sourceEntry) nextDestination) (List.finRange 512) s

/-- The entries of the root that belong to the user half. -/
def userEntries : List (Fin 512) := (List.finRange 512).filter (·.val < 256)

/-- `AddressSpace::clone_user`, with the loop of `copy_user_pages`: the root of the clone. -/
def cloneUser (root : ℕ) (s : Machine) : Option ℕ × Machine :=
  match newUser s with
  | (none, s) => (none, s)
  | (some clone, s) =>
    let (copied, s) := copyEntries (copyTable 4 root clone) userEntries s
    if copied = 0 then (none, s) else (some clone, s)

/-! ### What an address space maps -/

/-- The end of a walk through page tables. -/
inductive Mapping
  | page (entry : BitVec 64)
  | huge (entry : BitVec 64)

/-- The walk from an entry of a table of some level, where the tables of level one hold the entries
of pages. -/
def mapping (memory : ℕ → Table) : ℕ → BitVec 64 → List (Fin 512) → Option Mapping
  | 0, _, _ => none
  | 1, entry, path => if present entry ∧ path = [] then some (.page entry) else none
  | level + 2, entry, path =>
    if ¬ present entry then none
    else if huge entry then some (.huge entry)
    else match path with
      | [] => none
      | index :: path => mapping memory (level + 1) (memory (address entry) index) path

/-- What the address space with this root maps in the user half: a path is the four indices of a
virtual address. -/
def lookup (memory : ℕ → Table) (root : ℕ) : List (Fin 512) → Option Mapping
  | [] => none
  | index :: path =>
    if index.val < 256 then mapping memory 4 (memory root index) path else none

/-- The frames that copying an entry takes, in the order in which it takes them: a page takes one
for itself, and a table one before those of its entries. -/
def visits (memory : ℕ → Table) : ℕ → BitVec 64 → List Bool
  | 0, _ => []
  | 1, entry => if present entry then [true] else []
  | level + 2, entry =>
    if ¬ present entry ∨ huge entry then []
    else false ::
      (List.finRange 512).flatMap fun i => visits memory (level + 1) (memory (address entry) i)

/-- The tables and pages that a walk reaches are in the direct map, and none of them is still to be
handed out. -/
def Owned (memory : ℕ → Table) (a : FrameAllocator) : ℕ → BitVec 64 → Prop
  | 0, _ => True
  | 1, entry => present entry →
      address entry + a.hhdmOffset < 2 ^ 64 ∧ ¬ a.Available (address entry)
  | level + 2, entry => present entry → ¬ huge entry →
      (address entry + a.hhdmOffset < 2 ^ 64 ∧ ¬ a.Available (address entry)) ∧
        ∀ i, Owned memory a (level + 1) (memory (address entry) i)

end ImagineOS.Memory
