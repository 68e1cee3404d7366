import ImagineOS.Paged
import ImagineOS.ByteStore
import ImagineOS.Memory.Ranges

/-!
# The memory of a process

The kernel copies between its own buffers and the memory of a process page by page, through the
translation of the address space. A copy fails where a page is missing, or where addresses end; what
came before has been copied then.
-/

namespace ImagineOS.Exec

open Memory (pageSize)

/-- The frames of the pages of an address space. -/
abbrev Frames := ℕ → Option ℕ

/-- Addresses have 64 bits. -/
abbrev addressLimit : ℕ := 2 ^ 64

/-- The pages of a range of addresses are there. -/
abbrev Mapped (frames : Frames) (address count : ℕ) : Prop :=
  Paged.Mapped pageSize frames addressLimit address count

variable (frames : Frames)

def copyToCurrentUser (address : ℕ) (input : List UInt8) (memory : ByteStore) : Bool × ByteStore :=
  Paged.copyTo pageSize frames addressLimit input.length address input memory

/-- `copy_from_current_user`, into a buffer of `length` bytes. -/
def copyFromCurrentUser (address length : ℕ) (memory : ByteStore) : Option (List UInt8) :=
  Paged.copyFrom pageSize frames addressLimit memory length address length

/-- `copy_to_user`: the memory, or an error. -/
def copyToUser (address : ℕ) (bytes : List UInt8) (memory : ByteStore) : Option ByteStore :=
  let (copied, memory) := copyToCurrentUser frames address bytes memory
  if copied then some memory else none

variable {frames} {address : ℕ}

theorem pageSize_pos : 0 < pageSize := by decide

theorem pageSize_dvd_limit : pageSize ∣ addressLimit := by decide

/-- **Copying to a process** succeeds if the pages are there. -/
theorem copyToCurrentUser_spec (input : List UInt8) (memory : ByteStore) :
    (Mapped frames address input.length → copyToCurrentUser frames address input memory =
      (true, Paged.pokes pageSize frames address input memory)) ∧
    (¬ Mapped frames address input.length →
      (copyToCurrentUser frames address input memory).1 = false) :=
  Paged.copyTo_spec pageSize_pos pageSize_dvd_limit input le_rfl memory

/-- **Copying from a process** succeeds if the pages are there. -/
theorem copyFromCurrentUser_spec (length : ℕ) (memory : ByteStore) :
    (Mapped frames address length → ∃ l, copyFromCurrentUser frames address length memory = some l ∧
      l.length = length ∧
      ∀ k (hk : k < l.length), Paged.view pageSize frames memory (address + k) = some l[k]) ∧
    (¬ Mapped frames address length → copyFromCurrentUser frames address length memory = none) :=
  Paged.copyFrom_spec pageSize_pos pageSize_dvd_limit memory le_rfl

theorem copyToUser_eq {input : List UInt8} (h : Mapped frames address input.length)
    (memory : ByteStore) :
    copyToUser frames address input memory =
      some (Paged.pokes pageSize frames address input memory) := by
  rw [copyToUser, (copyToCurrentUser_spec input memory).1 h]
  rfl

/-- **Both directions.** A range can be written exactly if it can be read. What was written is read
back if no two pages of the range share a frame. -/
theorem copies_agree (frames : Frames) (address : ℕ) (input : List UInt8) (memory : ByteStore) :
    ((copyToCurrentUser frames address input memory).1 = true ↔
      (copyFromCurrentUser frames address input.length memory).isSome) ∧
    (Paged.DistinctOn frames {p | ∃ k < input.length, (address + k) / pageSize = p} →
      (copyToCurrentUser frames address input memory).1 = true →
      copyFromCurrentUser frames address input.length
        (copyToCurrentUser frames address input memory).2 = some input) := by
  obtain ⟨hto, hnot⟩ := @copyToCurrentUser_spec frames address input memory
  by_cases hmapped : Mapped frames address input.length
  · rw [hto hmapped]
    obtain ⟨l, hl, -⟩ := (copyFromCurrentUser_spec _ memory).1 hmapped
    refine ⟨iff_of_true rfl (by rw [hl]; rfl), fun hdistinct _ => ?_⟩
    obtain ⟨back, hback, hlength, hview⟩ :=
      (copyFromCurrentUser_spec _ (Paged.pokes pageSize frames address input memory)).1 hmapped
    rw [hback]
    refine congrArg some (List.ext_getElem hlength fun k hk hk' => ?_)
    have hseen := hview k hk
    rw [Paged.view_pokes pageSize_pos hdistinct input (fun k hk => ⟨k, hk, rfl⟩)
      (fun k hk => (hmapped k hk).2) memory ⟨k, hk', rfl⟩, if_pos ⟨by omega, by omega⟩,
      Nat.add_sub_cancel_left, List.getElem?_eq_getElem hk'] at hseen
    exact (Option.some.inj hseen).symm
  · rw [hnot hmapped, (copyFromCurrentUser_spec _ memory).2 hmapped]
    exact ⟨iff_of_false Bool.false_ne_true Bool.false_ne_true,
      fun _ h => absurd h Bool.false_ne_true⟩

/-- Four bytes, two on each of two pages. -/
theorem copies_agree_sample :
    copyFromCurrentUser some 4094 4 (copyToCurrentUser some 4094 [1, 2, 3, 4] fun _ => 0).2 =
      some [1, 2, 3, 4] :=
  (copies_agree some 4094 [1, 2, 3, 4] fun _ => 0).2
    (fun _ _ _ _ _ hp hq => (Option.some.inj hp).trans (Option.some.inj hq).symm)
    (by decide +kernel)

end ImagineOS.Exec
