import ImagineOS.Bytes
import ImagineOS.Checked

/-!
# Program images

The kernel takes any bytes as an image of a program, and looks at its header and at its table of
segments before it maps anything. Nothing is read outside the image, and what is accepted can be
loaded: the segments lie in the image and in the part of the address space that programs have.
-/

namespace ImagineOS.Exec

namespace Elf

open Checked

abbrev elfHeaderSize : ℕ := 64

abbrev programHeaderSize : ℕ := 56

abbrev ptLoad : ℕ := 1

abbrev etExec : ℕ := 2

/-- `EM_X86_64` -/
abbrev emX86 : ℕ := 62

inductive Error
  | truncated
  | invalidMagic
  | unsupportedFormat
  | invalidProgramHeaders
  | invalidSegment
  deriving DecidableEq

/-- Bytes in a slice: their number is a `usize`. -/
structure Image where
  bytes : List UInt8
  fits : bytes.length < wordLimit

structure Segment where
  virtualAddress : ℕ
  memorySize : ℕ
  fileOffset : ℕ
  fileSize : ℕ
  flags : ℕ
  deriving DecidableEq

structure Elf64 where
  image : Image
  entry : ℕ
  programHeaders : ℕ
  programHeaderCount : ℕ
  programHeaderSize : ℕ

/-- `read_u16`, `read_u32` and `read_u64`: an integer of `w` bytes. -/
def readLe (w : ℕ) (image : Image) (offset : ℕ) : Checked Error ℕ := do
  let stop ← add offset w
  let bytes ← okOr (getRange image.bytes offset stop) .truncated
  return leNat bytes

def Elf64.segment (elf : Elf64) (index : ℕ) : Checked Error (Option Segment) :=
  if elf.programHeaderCount ≤ index then return none
  else do
    let stride ← checkedMul index elf.programHeaderSize .invalidProgramHeaders
    let header ← checkedAdd elf.programHeaders stride .invalidProgramHeaders
    let kind ← readLe 4 elf.image header
    if kind ≠ ptLoad then return none
    else
      let fileOffset ← readLe 8 elf.image (← add header 8)
      let virtualAddress ← readLe 8 elf.image (← add header 16)
      let fileSize ← readLe 8 elf.image (← add header 32)
      let memorySize ← readLe 8 elf.image (← add header 40)
      if fileSize = 0 ∧ memorySize = 0 then return none
      else
        let fileEnd ← checkedAdd fileOffset fileSize .invalidSegment
        let memoryEnd ← checkedAdd virtualAddress memorySize .invalidSegment
        if elf.image.bytes.length < fileEnd ∨ memorySize < fileSize ∨ memorySize = 0 ∨
            virtualAddress < 0x400000 ∨ 0x800000000000 < memoryEnd then fail .invalidSegment
        else
          let flags ← readLe 4 elf.image (← add header 4)
          return some ⟨virtualAddress, memorySize, fileOffset, fileSize, flags⟩

def Elf64.fileBytes (elf : Elf64) (segment : Segment) : Option (List UInt8) :=
  if segment.fileOffset + segment.fileSize < wordLimit then
    getRange elf.image.bytes segment.fileOffset (segment.fileOffset + segment.fileSize)
  else none

/-- What the loop over the segments found: one to load, and an executable one with the entry. -/
structure Found where
  loadable : Bool
  executableEntry : Bool

/-- The body of the loop over the segments. -/
def Elf64.inspect (elf : Elf64) (index : ℕ) (found : Found) : Checked Error Found := do
  match ← elf.segment index with
  | none => return found
  | some segment =>
    let stop ← checkedAdd segment.virtualAddress segment.memorySize .invalidSegment
    if segment.flags % 2 ≠ 0 ∧ segment.virtualAddress ≤ elf.entry ∧ elf.entry < stop then
      return ⟨true, true⟩
    else return { found with loadable := true }

/-- Whether what is read is another value. -/
def differs {α : Type} [DecidableEq α] (x : Checked Error α) (a : α) : Checked Error Bool := do
  let b ← x
  return decide (b ≠ a)

def Elf64.parse (image : Image) : Checked Error Elf64 :=
  if image.bytes.length < elfHeaderSize then fail .truncated
  else do
    let magic ← slice image.bytes 0 4
    if magic ≠ [0x7f, 0x45, 0x4c, 0x46] then fail .invalidMagic
    else
      let unsupported ← anyOf [
        differs (index image.bytes 4) 2, differs (index image.bytes 5) 1,
        differs (readLe 2 image 16) etExec, differs (readLe 2 image 18) emX86,
        differs (readLe 4 image 20) 1, differs (readLe 2 image 52) elfHeaderSize]
      if unsupported then fail .unsupportedFormat
      else
        let entry ← readLe 8 image 24
        let programHeaders ← readLe 8 image 32
        let size ← readLe 2 image 54
        let count ← readLe 2 image 56
        if size < Elf.programHeaderSize ∨ count = 0 ∨ 128 < count then fail .invalidProgramHeaders
        else
          let tableSize ← checkedMul size count .invalidProgramHeaders
          let tableEnd ← checkedAdd programHeaders tableSize .invalidProgramHeaders
          if image.bytes.length < tableEnd then fail .invalidProgramHeaders
          else
            let elf : Elf64 := ⟨image, entry, programHeaders, count, size⟩
            let found ← each elf.inspect (List.range count) ⟨false, false⟩
            if found.loadable = false ∨ found.executableEntry = false then fail .invalidSegment
            else return elf

/-! ### Segments -/

/-- **A segment that can be loaded** from an image: its bytes lie in the image and are not more than
it has in memory, and its memory lies in the part of the address space that programs have. -/
structure Segment.Loadable (s : Segment) (image : Image) : Prop where
  file : s.fileOffset + s.fileSize ≤ image.bytes.length
  size : s.fileSize ≤ s.memorySize
  low : 0x400000 ≤ s.virtualAddress
  high : s.virtualAddress + s.memorySize ≤ 0x800000000000

/-- The table of segments lies in the image. -/
structure Elf64.TableFits (elf : Elf64) : Prop where
  size : Elf.programHeaderSize ≤ elf.programHeaderSize
  table : elf.programHeaders + elf.programHeaderSize * elf.programHeaderCount ≤
    elf.image.bytes.length

variable {image : Image} {elf : Elf64}

theorem sound_readLe {w offset : ℕ} (h : offset + w < wordLimit) :
    (readLe w image offset).Sound fun _ => True := by
  refine Sound.bind (sound_add h) fun stop _ => ?_
  exact Sound.bind (sound_okOr _ _) fun _ _ => .ok trivial

theorem sound_field {α : Type} {Q : α → Prop} {w header k : ℕ} {f : ℕ → Checked Error α}
    (h : header + programHeaderSize ≤ image.bytes.length) (hk : k + w ≤ programHeaderSize)
    (hf : ∀ value, (f value).Sound Q) :
    (do f (← readLe w image (← add header k))).Sound Q := by
  have hfits := image.fits
  refine Sound.bind (sound_add (by omega)) fun offset hoffset => ?_
  subst hoffset
  exact Sound.bind (sound_readLe (by omega)) fun value _ => hf value

theorem Elf64.TableFits.header (h : elf.TableFits) {index : ℕ}
    (hindex : index < elf.programHeaderCount) :
    elf.programHeaders + index * elf.programHeaderSize + Elf.programHeaderSize ≤
      elf.image.bytes.length := by
  have hrows : (index + 1) * elf.programHeaderSize ≤
      elf.programHeaderSize * elf.programHeaderCount := by
    rw [Nat.mul_comm]
    exact Nat.mul_le_mul_left _ hindex
  have hsize := h.size
  have htable := h.table
  rw [Nat.succ_mul] at hrows
  omega

/-- **A segment** of a table that lies in the image can be loaded. -/
theorem sound_segment (h : elf.TableFits) (index : ℕ) :
    (elf.segment index).Sound fun o => ∀ s, o = some s → s.Loadable elf.image := by
  have hfits := elf.image.fits
  refine .ite (fun _ => .ok nofun) fun hindex => ?_
  have hheader : elf.programHeaders + index * elf.programHeaderSize + 56 ≤
    elf.image.bytes.length := h.header (Nat.lt_of_not_le hindex)
  refine Sound.bind (sound_checkedMul index elf.programHeaderSize _) ?_
  rintro stride ⟨rfl, -⟩
  refine Sound.bind (sound_checkedAdd elf.programHeaders _ _) ?_
  rintro header ⟨rfl, -⟩
  refine Sound.bind (sound_readLe (by omega)) fun kind _ => ?_
  refine .ite (fun _ => .ok nofun) fun _ => ?_
  refine sound_field hheader (by decide) fun fileOffset => ?_
  refine sound_field hheader (by decide) fun virtualAddress => ?_
  refine sound_field hheader (by decide) fun fileSize => ?_
  refine sound_field hheader (by decide) fun memorySize => ?_
  refine .ite (fun _ => .ok nofun) fun _ => ?_
  refine Sound.bind (sound_checkedAdd fileOffset fileSize _) ?_
  rintro fileEnd ⟨rfl, -⟩
  refine Sound.bind (sound_checkedAdd virtualAddress memorySize _) ?_
  rintro memoryEnd ⟨rfl, -⟩
  refine .ite (fun _ => .fail _) fun hvalid => ?_
  refine sound_field hheader (by decide) fun flags => .ok ?_
  rintro s hs
  cases hs
  exact ⟨show fileOffset + fileSize ≤ _ by omega, show fileSize ≤ memorySize by omega,
    show 0x400000 ≤ virtualAddress by omega,
    show virtualAddress + memorySize ≤ 0x800000000000 by omega⟩

/-- A segment with the entry is executable. -/
def Elf64.EntryFound (elf : Elf64) (found : Found) : Prop :=
  found.executableEntry = true → ∃ index s, elf.segment index = .ok (some s) ∧ s.flags % 2 ≠ 0 ∧
    s.virtualAddress ≤ elf.entry ∧ elf.entry < s.virtualAddress + s.memorySize

theorem sound_inspect (h : elf.TableFits) (index : ℕ) (found : Found)
    (hfound : elf.EntryFound found) : (elf.inspect index found).Sound elf.EntryFound := by
  refine Sound.bind (sound_segment h index).named ?_
  rintro (_ | s) ⟨-, hsegment⟩
  · exact .ok hfound
  · refine Sound.bind (sound_checkedAdd s.virtualAddress s.memorySize _) ?_
    rintro stop ⟨rfl, -⟩
    refine .ite (fun hentry => .ok fun _ => ?_) fun _ => .ok hfound
    exact ⟨index, s, hsegment, hentry⟩

theorem segment_of_inspect {index : ℕ} {found found' : Found}
    (h : elf.inspect index found = .ok found') : ∃ o, elf.segment index = .ok o := by
  rw [Elf64.inspect] at h
  cases hsegment : elf.segment index with
  | error =>
    rw [hsegment] at h
    cases h
  | ok o => exact ⟨o, rfl⟩

theorem segments_read {found found' : Found}
    (h : each elf.inspect (List.range elf.programHeaderCount) found = .ok found') (index : ℕ) :
    ∃ o, elf.segment index = .ok o := by
  by_cases hindex : elf.programHeaderCount ≤ index
  · exact ⟨none, if_pos hindex⟩
  · obtain ⟨t, t', hbody⟩ := each_eq_ok h (List.mem_range.mpr (Nat.lt_of_not_le hindex))
    exact segment_of_inspect hbody

/-! ### Images -/

/-- **An image that is accepted.** Its segments can be read, and those to load can be loaded; one of
them is executable and holds the entry. -/
structure Elf64.Accepted (elf : Elf64) (image : Image) : Prop where
  source : elf.image = image
  read : ∀ index, ∃ o, elf.segment index = .ok o
  loadable : ∀ index s, elf.segment index = .ok (some s) → s.Loadable image ∧
    elf.fileBytes s = some (between image.bytes s.fileOffset (s.fileOffset + s.fileSize))
  entry : ∃ index s, elf.segment index = .ok (some s) ∧ s.flags % 2 ≠ 0 ∧
    s.virtualAddress ≤ elf.entry ∧ elf.entry < s.virtualAddress + s.memorySize

theorem fileBytes_eq {s : Segment} (h : s.Loadable elf.image) : elf.fileBytes s =
    some (between elf.image.bytes s.fileOffset (s.fileOffset + s.fileSize)) := by
  have hfits := elf.image.fits
  have hfile := h.file
  rw [Elf64.fileBytes, if_pos (by omega), getRange, if_pos ⟨Nat.le_add_right _ _, hfile⟩]

theorem sound_differs {α : Type} [DecidableEq α] {x : Checked Error α} {Q : α → Prop}
    (h : x.Sound Q) (a : α) : (differs x a).Sound fun _ => True :=
  Sound.bind h fun _ _ => .ok trivial

/-- **The kernel reads any bytes as an image** without leaving them and without an overflow, and
what it accepts can be loaded. -/
theorem parse_sound (image : Image) :
    Elf64.parse image ≠ panic ∧ ∀ elf, Elf64.parse image = .ok elf → elf.Accepted image := by
  rw [← sound_iff]
  refine .ite (fun _ => .fail _) fun hsize => ?_
  have hlength : 64 ≤ image.bytes.length := Nat.le_of_not_lt hsize
  have hread : ∀ w offset, offset + w ≤ 64 → (readLe w image offset).Sound fun _ => True :=
    fun w offset h => sound_readLe (h.trans_lt (by decide))
  refine Sound.bind (sound_slice (Nat.zero_le 4) (by omega)) fun magic _ => ?_
  refine .ite (fun _ => .fail _) fun _ => ?_
  refine Sound.bind (sound_anyOf ?_) fun unsupported _ => ?_
  · intro test htest
    simp only [List.mem_cons, List.not_mem_nil, or_false] at htest
    obtain rfl | rfl | rfl | rfl | rfl | rfl := htest
    · exact sound_differs (sound_index (by omega)) 2
    · exact sound_differs (sound_index (by omega)) 1
    · exact sound_differs (hread 2 16 (by decide)) etExec
    · exact sound_differs (hread 2 18 (by decide)) emX86
    · exact sound_differs (hread 4 20 (by decide)) 1
    · exact sound_differs (hread 2 52 (by decide)) elfHeaderSize
  refine .ite (fun _ => .fail _) fun _ => ?_
  refine Sound.bind (hread 8 24 (by decide)) fun entry _ => ?_
  refine Sound.bind (hread 8 32 (by decide)) fun programHeaders _ => ?_
  refine Sound.bind (hread 2 54 (by decide)) fun size _ => ?_
  refine Sound.bind (hread 2 56 (by decide)) fun count _ => ?_
  refine .ite (fun _ => .fail _) fun hheaders => ?_
  refine Sound.bind (sound_checkedMul size count _) ?_
  rintro tableSize ⟨rfl, -⟩
  refine Sound.bind (sound_checkedAdd programHeaders _ _) ?_
  rintro tableEnd ⟨rfl, -⟩
  refine .ite (fun _ => .fail _) fun htable => ?_
  have hfits : Elf64.TableFits ⟨image, entry, programHeaders, count, size⟩ :=
    ⟨Nat.le_of_not_lt fun h => hheaders (Or.inl h), Nat.le_of_not_lt htable⟩
  have hnone : Elf64.EntryFound ⟨image, entry, programHeaders, count, size⟩ ⟨false, false⟩ :=
    fun h => absurd h Bool.false_ne_true
  refine Sound.bind
    (Sound.each (fun index _ found => sound_inspect hfits index found) hnone).named ?_
  rintro found ⟨hfound, heach⟩
  refine .ite (fun _ => .fail _) fun hboth => .ok ?_
  have hentry : found.executableEntry = true :=
    Bool.eq_true_of_not_eq_false fun h => hboth (Or.inr h)
  refine ⟨rfl, segments_read heach, fun index s hs => ?_, hfound hentry⟩
  have hloadable := (sound_iff.mp (sound_segment hfits index)).2 _ hs s rfl
  exact ⟨hloadable, fileBytes_eq hloadable⟩

/-- An image with one segment to load, of eight bytes, and one of another kind. -/
def validElf : Image where
  bytes :=
    [0x7f, 0x45, 0x4c, 0x46, 2, 1, 1, 0] ++ List.replicate 8 0 ++
    leBytes 2 2 ++ leBytes 2 62 ++ leBytes 4 1 ++ leBytes 8 0x400000 ++ leBytes 8 64 ++
    List.replicate 12 0 ++ leBytes 2 64 ++ leBytes 2 56 ++ leBytes 2 2 ++ List.replicate 6 0 ++
    leBytes 4 1 ++ leBytes 4 1 ++ leBytes 8 176 ++ leBytes 8 0x400000 ++ leBytes 8 0 ++
    leBytes 8 8 ++ leBytes 8 8 ++ leBytes 8 4096 ++ leBytes 4 1 ++ List.replicate 52 0 ++
    List.replicate 8 7
  fits := by decide +kernel

example : (Elf64.parse validElf).toOption.map Elf64.entry = some 0x400000 := by decide +kernel

end Elf

end ImagineOS.Exec
