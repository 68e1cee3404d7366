import ImagineOS.Utf8
import Mathlib.Data.List.GetD

/-!
# Console: characters from the serial port

The kernel decodes UTF-8 that arrives at a serial port. Bytes arrive at any time, and each read
takes at most one of them and returns at most one character. A byte that ends a sequence too early
is kept for the next read, which decodes it as a first byte.
-/

namespace ImagineOS.Console

open Utf8 Nat

/-! ### The decoder -/

structure Decoder where
  codepoint : ℕ
  minimum : ℕ
  remaining : ℕ
  pendingByte : Option UInt8
  deriving DecidableEq

/-- `Decoder::new` -/
def Decoder.new : Decoder where
  codepoint := 0
  minimum := 0
  remaining := 0
  pendingByte := none

/-- `char::from_u32` -/
def charFromU32 (n : ℕ) : Option Char :=
  if h : n.isValidChar then some (Char.ofNatAux n h) else none

/-- `Decoder::push` -/
def Decoder.push (d : Decoder) (byte : UInt8) : Option Char × Decoder :=
  if d.remaining = 0 then
    if byte.toNat ≤ 0x7f then (some (Char.ofNat byte.toNat), d)
    else if 0xc2 ≤ byte.toNat ∧ byte.toNat ≤ 0xdf then
      (none, { d with codepoint := (byte &&& 0x1f).toNat, minimum := 0x80, remaining := 1 })
    else if 0xe0 ≤ byte.toNat ∧ byte.toNat ≤ 0xef then
      (none, { d with codepoint := (byte &&& 0x0f).toNat, minimum := 0x800, remaining := 2 })
    else if 0xf0 ≤ byte.toNat ∧ byte.toNat ≤ 0xf4 then
      (none, { d with codepoint := (byte &&& 0x07).toNat, minimum := 0x10000, remaining := 3 })
    else (some replacement, d)
  else if byte &&& 0xc0 ≠ 0x80 then
    (some replacement, { Decoder.new with pendingByte := some byte })
  else
    let d := { d with
      codepoint := (d.codepoint <<< 6 ||| (byte &&& 0x3f).toNat) % 2 ^ 32
      remaining := d.remaining - 1 }
    if d.remaining ≠ 0 then (none, d)
    else if d.codepoint < d.minimum then (some replacement, d)
    else ((charFromU32 d.codepoint).or (some replacement), d)

/-- `Decoder::push_pending` -/
def Decoder.pushPending (d : Decoder) : Option Char × Decoder :=
  match d.pendingByte with
  | some byte => { d with pendingByte := none }.push byte
  | none => (none, d)

/-- The serial port, with the bytes that arrived and were not read. -/
structure Serial where
  decoder : Decoder
  port : List UInt8
  deriving DecidableEq

def serialReadChar (s : Serial) : Option Char × Serial :=
  let (character, decoder) := s.decoder.pushPending
  match character, s.port with
  | some character, port => (some character, { decoder, port })
  | none, byte :: port => ((decoder.push byte).1, { decoder := (decoder.push byte).2, port })
  | none, [] => (none, { decoder, port := [] })

/-! ### Runs -/

/-- A byte arrives, or a character is read. -/
inductive SerialEvent
  | arrive (byte : UInt8)
  | read
  deriving DecidableEq

/-- One event, with the character that is returned. -/
def Serial.step (s : Serial) : SerialEvent → List Char × Serial
  | .arrive byte => ([], { s with port := s.port ++ [byte] })
  | .read => ((serialReadChar s).1.toList, (serialReadChar s).2)

/-- Events one after another, with the characters that are returned. -/
def Serial.run (s : Serial) : List SerialEvent → List Char × Serial
  | [] => ([], s)
  | e :: events => ((s.step e).1 ++ ((s.step e).2.run events).1, ((s.step e).2.run events).2)

/-- The port before anything arrived. -/
def Serial.start : Serial := ⟨Decoder.new, []⟩

/-- The bytes that arrive. -/
def arrived (events : List SerialEvent) : List UInt8 :=
  events.filterMap fun
    | .arrive byte => some byte
    | .read => none

/-- What is returned. -/
def returned (events : List SerialEvent) : List Char := (Serial.start.run events).1

/-! ### Decoding a list of bytes -/

/-- One byte: what is returned for it, and for the byte itself if it ended a sequence. -/
def Decoder.accept (d : Decoder) (byte : UInt8) : List Char × Decoder :=
  let (character, d) := d.push byte
  (character.toList ++ d.pushPending.1.toList, d.pushPending.2)

/-- What a decoder makes of a list of bytes. -/
def decodeFrom (d : Decoder) : List UInt8 → List Char
  | [] => []
  | byte :: bytes => (d.accept byte).1 ++ decodeFrom (d.accept byte).2 bytes

section Decode

variable {d : Decoder} {p ts bytes : List UInt8} {b byte : UInt8}

/-- The decoder holds bytes that begin a sequence. -/
def Decoder.Holds (d : Decoder) : List UInt8 → Prop
  | [] => d.pendingByte = none ∧ d.remaining = 0
  | b :: ts => d.pendingByte = none ∧ 0 < d.remaining ∧
    tails b = some (ts.length + d.remaining) ∧ (∀ t ∈ ts, IsTail t) ∧
    d.codepoint = appendTails (leadBits b (ts.length + d.remaining)) ts ∧
    d.minimum = least (ts.length + d.remaining)

theorem Decoder.Holds.pendingByte (h : d.Holds p) : d.pendingByte = none := by
  cases p with
  | nil => exact h.1
  | cons => exact h.1

theorem isTail_iff : IsTail byte ↔ byte &&& 0xc0 = 0x80 := by
  have hall : ∀ n < 256, n &&& 0xc0 = 0x80 ↔ 128 ≤ n ∧ n < 192 := by decide +kernel
  rw [← UInt8.toNat_inj, UInt8.toNat_and]
  exact (hall byte.toNat byte.toNat_lt).symm

theorem toNat_ofNatAux {n : ℕ} (h : n.isValidChar) : (Char.ofNatAux n h).toNat = n := rfl

theorem charFromU32_eq_some {n : ℕ} {c : Char} : charFromU32 n = some c ↔ c.toNat = n := by
  by_cases hvalid : n.isValidChar
  · rw [charFromU32, dif_pos hvalid, Option.some.injEq, ← Char.toNat_inj, toNat_ofNatAux]
    exact eq_comm
  · rw [charFromU32, dif_neg hvalid]
    refine iff_of_false (fun h => by cases h) fun h => hvalid ?_
    rw [← h]
    exact c.valid

theorem toNat_and_mask (k : ℕ) {mask : UInt8} (hmask : mask.toNat = 2 ^ k - 1) :
    (byte &&& mask).toNat = byte.toNat % 2 ^ k := by
  rw [UInt8.toNat_and, hmask, and_two_pow_sub_one_eq_mod]

/-- A first byte. -/
theorem push_clean (h : d.Holds []) :
    (∃ c, encode c = [byte] ∧ d.push byte = (some c, d)) ∨
    (∃ d', d'.Holds [byte] ∧ d.push byte = (none, d')) ∨
    (tails byte = none ∧ d.push byte = (some replacement, d)) := by
  obtain ⟨hpending, hremaining⟩ := h
  rw [Decoder.push, if_pos hremaining]
  split_ifs with h₁ h₂ h₃ h₄
  · refine .inl ⟨_, ?_, rfl⟩
    have hvalid : byte.toNat.isValidChar := .inl (by omega)
    have hc : (Char.ofNat byte.toNat).toNat = byte.toNat := by
      rw [Char.ofNat, dif_pos hvalid, toNat_ofNatAux]
    refine encode_of_parts ?_ nofun ?_ ?_
    · rw [tails, if_pos (by omega)]
      rfl
    · rw [hc]
      rfl
    · exact zero_le _
  · refine .inr (.inl
      ⟨{ d with codepoint := (byte &&& 0x1f).toNat, minimum := 0x80, remaining := 1 },
      ⟨hpending, one_pos, ?_, nofun, ?_, rfl⟩, rfl⟩)
    · rw [tails, if_neg (by omega), if_pos (by omega)]
      rfl
    · exact toNat_and_mask 5 rfl
  · refine .inr (.inl
      ⟨{ d with codepoint := (byte &&& 0x0f).toNat, minimum := 0x800, remaining := 2 },
      ⟨hpending, two_pos, ?_, nofun, ?_, rfl⟩, rfl⟩)
    · rw [tails, if_neg (by omega), if_neg (by omega), if_pos (by omega)]
      rfl
    · exact toNat_and_mask 4 rfl
  · refine .inr (.inl
      ⟨{ d with codepoint := (byte &&& 0x07).toNat, minimum := 0x10000, remaining := 3 },
      ⟨hpending, succ_pos 2, ?_, nofun, ?_, rfl⟩, rfl⟩)
    · rw [tails, if_neg (by omega), if_neg (by omega), if_neg (by omega), if_pos (by omega)]
      rfl
    · exact toNat_and_mask 3 rfl
  · refine .inr (.inr ⟨?_, rfl⟩)
    rw [tails, if_neg (by omega), if_neg (by omega), if_neg (by omega), if_neg (by omega)]

theorem push_cut (h : d.Holds (b :: ts)) (hbyte : ¬ IsTail byte) :
    d.push byte = (some replacement, { Decoder.new with pendingByte := some byte }) := by
  rw [Decoder.push, if_neg (ne_of_gt h.2.1), if_pos fun heq => hbyte (isTail_iff.mpr heq)]

theorem codepoint_append (h : d.Holds (b :: ts)) :
    (d.codepoint <<< 6 ||| (byte &&& 0x3f).toNat) % 2 ^ 32 =
      appendTails (leadBits b (ts.length + d.remaining)) (ts ++ [byte]) := by
  obtain ⟨-, hremaining, htails, -, hcodepoint, -⟩ := h
  have hlength := tails_le htails
  have hbits : (byte &&& 0x3f).toNat = byte.toNat % 64 := toNat_and_mask 6 rfl
  have hlt : (64 : ℕ) * d.codepoint + byte.toNat % 64 < 2 ^ 32 := by
    have hbound := appendTails_lt (leadBits_lt b (ts.length + d.remaining)) ts
    have hpow : 64 ^ ts.length ≤ 64 ^ 2 := Nat.pow_le_pow_right (by omega) (by omega)
    rw [← hcodepoint] at hbound
    omega
  rw [hbits, ← Nat.shiftLeft_add_eq_or_of_lt (show byte.toNat % 64 < 2 ^ 6 by omega),
    Nat.shiftLeft_eq, Nat.mul_comm, appendTails_concat, ← hcodepoint]
  exact Nat.mod_eq_of_lt hlt

theorem forall_concat (hts : ∀ t ∈ ts, IsTail t) (hbyte : IsTail byte) :
    ∀ t ∈ ts ++ [byte], IsTail t := by
  intro t ht
  rcases List.mem_append.mp ht with ht | ht
  · exact hts t ht
  · rwa [List.mem_singleton.mp ht]

theorem push_more (h : d.Holds (b :: ts)) (hbyte : IsTail byte) (hmore : 1 < d.remaining) :
    ∃ d', d'.Holds (b :: (ts ++ [byte])) ∧ d.push byte = (none, d') := by
  have hcodepoint := @codepoint_append d ts b byte h
  obtain ⟨hpending, hremaining, htails, hts, -, hminimum⟩ := h
  have hlength : (ts ++ [byte]).length + (d.remaining - 1) = ts.length + d.remaining := by
    rw [List.length_append, List.length_singleton]
    omega
  refine ⟨{ d with
    codepoint := (d.codepoint <<< 6 ||| (byte &&& 0x3f).toNat) % 2 ^ 32
    remaining := d.remaining - 1 }, ⟨hpending, Nat.sub_pos_of_lt hmore, ?_, ?_, ?_, ?_⟩, ?_⟩
  · rw [htails]
    exact congrArg some hlength.symm
  · exact forall_concat hts hbyte
  · exact hcodepoint.trans (by rw [← hlength])
  · exact hminimum.trans (by rw [← hlength])
  · rw [Decoder.push, if_neg (Nat.ne_of_gt hremaining), if_neg (not_not.mpr (isTail_iff.mp hbyte))]
    exact if_pos (Nat.sub_ne_zero_of_lt hmore)

/-- The last byte of a sequence. -/
theorem push_last (h : d.Holds (b :: ts)) (hbyte : IsTail byte) (hlast : d.remaining = 1) :
    ∃ d', d'.Holds [] ∧ ((∃ c, encode c = b :: (ts ++ [byte]) ∧ d.push byte = (some c, d')) ∨
      (∀ bs, ¬ Starts (b :: (ts ++ [byte] ++ bs))) ∧ d.push byte = (some replacement, d')) := by
  have hcodepoint := @codepoint_append d ts b byte h
  obtain ⟨hpending, hremaining, htails, hts, -, hminimum⟩ := h
  have hlength : ts.length + d.remaining = (ts ++ [byte]).length := by
    rw [List.length_append, List.length_singleton, hlast]
  rw [hlength] at hcodepoint htails hminimum
  have htail := forall_concat hts hbyte
  refine ⟨{ d with
    codepoint := (d.codepoint <<< 6 ||| (byte &&& 0x3f).toNat) % 2 ^ 32
    remaining := d.remaining - 1 }, ⟨hpending, by rw [hlast]⟩, ?_⟩
  rw [Decoder.push, if_neg (ne_of_gt hremaining), if_neg (not_not.mpr (isTail_iff.mp hbyte))]
  dsimp only
  rw [if_neg (not_not.mpr (by rw [hlast])), hcodepoint, hminimum]
  split
  · rename_i hless
    refine .inr ⟨fun bs => not_starts_of_not_encode htails fun c hencode => ?_, rfl⟩
    obtain ⟨-, -, hvalue, hleast⟩ := encode_eq_iff.mp hencode
    rw [← hvalue] at hleast
    exact absurd hless (not_lt.mpr hleast)
  · rename_i hleast
    cases hchar : charFromU32 (appendTails (leadBits b (ts ++ [byte]).length) (ts ++ [byte])) with
    | some c =>
      have hvalue := charFromU32_eq_some.mp hchar
      refine .inl ⟨c, encode_of_parts htails htail hvalue.symm ?_, rfl⟩
      rw [hvalue]
      exact not_lt.mp hleast
    | none =>
      refine .inr ⟨fun bs => not_starts_of_not_encode htails fun c hencode => ?_, rfl⟩
      have hsome := charFromU32_eq_some.mpr (encode_eq_iff.mp hencode).2.2.1.symm
      exact absurd (hchar.symm.trans hsome) nofun

theorem pushPending_of_holds (h : d.Holds p) : d.pushPending = (none, d) := by
  rw [Decoder.pushPending, h.pendingByte]

theorem holds_new : Decoder.new.Holds [] := ⟨rfl, rfl⟩

theorem decoded_push (h : d.Holds [])
    (ih : ∀ d p, Decoder.Holds d p → Decoded (p ++ bytes) (decodeFrom d bytes)) :
    Decoded (byte :: bytes) ((d.push byte).1.toList ++ decodeFrom (d.push byte).2 bytes) ∧
      ∃ p, (d.push byte).2.Holds p := by
  rcases @push_clean d byte h with ⟨c, hencode, hpush⟩ | ⟨d', hholds, hpush⟩ | ⟨htails, hpush⟩
  · rw [hpush]
    have hchar := (ih d [] h).char c
    rw [hencode] at hchar
    exact ⟨hchar, [], h⟩
  · rw [hpush]
    exact ⟨ih d' [byte] hholds, [byte], hholds⟩
  · rw [hpush]
    exact ⟨(ih d [] h).replace (not_starts_of_tails_eq_none htails), [], h⟩

/-- **The decoder is exact**, from any state. -/
theorem decodeFrom_decoded (bytes : List UInt8) :
    ∀ d p, Decoder.Holds d p → Decoded (p ++ bytes) (decodeFrom d bytes) := by
  induction bytes with
  | nil =>
    intro d p h
    rw [List.append_nil, decodeFrom]
    cases p with
    | nil => exact .nil
    | cons b ts =>
      obtain ⟨-, hremaining, htails, hts, -⟩ := h
      have hrest : Decoded (ts ++ []) [] := Decoded.skip_tails hts .nil
      have hstarts := @not_starts_of_short b ts [] _ htails (by omega) nofun
      rw [List.append_nil] at hrest hstarts
      exact hrest.skip hstarts
  | cons byte bytes ih =>
    intro d p h
    rw [decodeFrom, Decoder.accept]
    cases p with
    | nil =>
      obtain ⟨hdecoded, q, hholds⟩ := @decoded_push d bytes byte h ih
      dsimp only
      rw [pushPending_of_holds hholds, Option.toList_none, List.append_nil]
      exact hdecoded
    | cons b ts =>
      by_cases hbyte : IsTail byte
      · have hassoc : b :: ts ++ byte :: bytes = b :: (ts ++ [byte]) ++ bytes := by simp
        have hpos := h.2.1
        rcases lt_or_ge 1 d.remaining with hmore | hlast
        · obtain ⟨d', hholds, hpush⟩ := push_more h hbyte hmore
          rw [hpush]
          dsimp only
          rw [pushPending_of_holds hholds, hassoc]
          exact ih d' _ hholds
        · obtain ⟨d', hholds, ⟨c, hencode, hpush⟩ | ⟨hno, hpush⟩⟩ :=
            push_last h hbyte (by omega)
          · rw [hpush]
            dsimp only
            rw [pushPending_of_holds hholds, hassoc, ← hencode]
            exact (ih d' [] hholds).char c
          · rw [hpush]
            dsimp only
            rw [pushPending_of_holds hholds, hassoc]
            exact (Decoded.skip_tails (forall_concat h.2.2.2.1 hbyte) (ih d' [] hholds)).replace
              (hno bytes)
      · have hshort : ts.length < ts.length + d.remaining := by
          have hpos := h.2.1
          omega
        have hstarts := @not_starts_of_short b ts (byte :: bytes) _ h.2.2.1 hshort
          fun t rest hcons => by rwa [← (List.cons.inj hcons).1]
        have hdecoded := (@decoded_push Decoder.new bytes byte holds_new ih).1
        rw [push_cut h hbyte]
        exact (Decoded.skip_tails h.2.2.2.1 hdecoded).replace hstarts

end Decode

/-! ### Reads at any time -/

/-- What a read may find: bytes that begin a sequence, or a byte that ended one. -/
def Decoder.Valid (d : Decoder) : Prop :=
  (∃ p, d.Holds p) ∨ ∃ byte, d = { Decoder.new with pendingByte := some byte }

/-- What is still to be returned. -/
def Decoder.rest (d : Decoder) (port : List UInt8) : List Char :=
  d.pushPending.1.toList ++ decodeFrom d.pushPending.2 port

/-- How many reads are needed. -/
def Serial.due (s : Serial) : ℕ := 2 * s.port.length + s.decoder.pendingByte.toList.length

section Runs

variable {d : Decoder} {p : List UInt8} {s : Serial}

theorem valid_push (h : d.Holds p) (byte : UInt8) : (d.push byte).2.Valid := by
  cases p with
  | nil =>
    rcases @push_clean d byte h with ⟨c, -, hpush⟩ | ⟨d', hholds, hpush⟩ | ⟨-, hpush⟩
    · rw [hpush]
      exact .inl ⟨[], h⟩
    · rw [hpush]
      exact .inl ⟨_, hholds⟩
    · rw [hpush]
      exact .inl ⟨[], h⟩
  | cons b ts =>
    by_cases hbyte : IsTail byte
    · rcases lt_or_ge 1 d.remaining with hmore | hlast
      · obtain ⟨d', hholds, hpush⟩ := push_more h hbyte hmore
        rw [hpush]
        exact .inl ⟨_, hholds⟩
      · have hpos := h.2.1
        obtain ⟨d', hholds, ⟨c, -, hpush⟩ | ⟨-, hpush⟩⟩ := push_last h hbyte (by omega)
        · rw [hpush]
          exact .inl ⟨[], hholds⟩
        · rw [hpush]
          exact .inl ⟨[], hholds⟩
    · rw [push_cut h hbyte]
      exact .inr ⟨byte, rfl⟩

theorem holds_pushPending (h : d.Valid) : ∃ q, d.pushPending.2.Holds q := by
  rcases h with ⟨p, h⟩ | ⟨byte, rfl⟩
  · rw [pushPending_of_holds h]
    exact ⟨p, h⟩
  · change ∃ q, (Decoder.new.push byte).2.Holds q
    rcases @push_clean Decoder.new byte holds_new with ⟨c, -, hpush⟩ | ⟨d', hholds, hpush⟩ |
      ⟨-, hpush⟩
    · exact ⟨[], by rw [hpush]; exact holds_new⟩
    · exact ⟨[byte], by rw [hpush]; exact hholds⟩
    · exact ⟨[], by rw [hpush]; exact holds_new⟩

theorem rest_of_holds (h : d.Holds p) (port : List UInt8) : d.rest port = decodeFrom d port := by
  rw [Decoder.rest, pushPending_of_holds h]
  rfl

theorem rest_of_due (h : s.decoder.Valid) (hdue : s.due = 0) : s.decoder.rest s.port = [] := by
  have hport : s.port = [] := List.length_eq_zero_iff.mp (by unfold Serial.due at hdue; omega)
  rcases h with ⟨p, h⟩ | ⟨byte, h⟩
  · rw [rest_of_holds h, hport]
    rfl
  · rw [Serial.due, h] at hdue
    exact absurd hdue (succ_ne_zero _)

theorem rest_push (d : Decoder) (byte : UInt8) (port : List UInt8) :
    (d.push byte).1.toList ++ (d.push byte).2.rest port = decodeFrom d (byte :: port) := by
  rw [decodeFrom, Decoder.accept, Decoder.rest, List.append_assoc]

/-- **One read** returns what is next. -/
theorem serialReadChar_spec (h : s.decoder.Valid) :
    (serialReadChar s).2.decoder.Valid ∧ (serialReadChar s).2.due ≤ s.due - 1 ∧
      ∀ more, (serialReadChar s).1.toList ++
          (serialReadChar s).2.decoder.rest ((serialReadChar s).2.port ++ more) =
        s.decoder.rest (s.port ++ more) := by
  obtain ⟨q, hq⟩ := holds_pushPending h
  have hrest (more : List UInt8) : s.decoder.rest (s.port ++ more) =
      s.decoder.pushPending.1.toList ++ decodeFrom s.decoder.pushPending.2 (s.port ++ more) := rfl
  have hpending : s.decoder.pushPending.1.toList ≠ [] →
      s.decoder.pendingByte.toList.length = 1 := by
    intro hne
    cases hbyte : s.decoder.pendingByte with
    | none =>
      rw [Decoder.pushPending, hbyte] at hne
      exact absurd rfl hne
    | some => rfl
  have hle : s.decoder.pendingByte.toList.length ≤ 1 := by
    cases s.decoder.pendingByte <;> simp
  simp only [hrest, serialReadChar]
  match hc : s.decoder.pushPending.1, hport : s.port with
  | some c, port =>
    refine ⟨.inl ⟨q, hq⟩, ?_, fun more => ?_⟩
    · have hone := hpending (by rw [hc]; nofun)
      simp only [Serial.due, hq.pendingByte, hport, Option.toList_none, List.length_nil]
      omega
    · rw [rest_of_holds hq]
  | none, [] =>
    refine ⟨.inl ⟨q, hq⟩, ?_, fun more => ?_⟩
    · simp only [Serial.due, hq.pendingByte, hport, Option.toList_none, List.length_nil]
      omega
    · rw [rest_of_holds hq]
  | none, byte :: port =>
    refine ⟨valid_push hq byte, ?_, fun more => ?_⟩
    · have hnext : (s.decoder.pushPending.2.push byte).2.pendingByte.toList.length ≤ 1 := by
        cases (s.decoder.pushPending.2.push byte).2.pendingByte <;> simp
      simp only [Serial.due, hport, List.length_cons]
      omega
    · exact rest_push s.decoder.pushPending.2 byte (port ++ more)

theorem valid_step (h : s.decoder.Valid) (e : SerialEvent) : (s.step e).2.decoder.Valid := by
  cases e with
  | arrive => exact h
  | read => exact (serialReadChar_spec h).1

/-- **Reads at any time** return what the decoder makes of the bytes. -/
theorem run_rest (events : List SerialEvent) (h : s.decoder.Valid) (more : List UInt8) :
    (s.run events).1 ++ (s.run events).2.decoder.rest ((s.run events).2.port ++ more) =
      s.decoder.rest (s.port ++ arrived events ++ more) := by
  induction events generalizing s with
  | nil =>
    rw [arrived, List.filterMap_nil, List.append_nil]
    rfl
  | cons e events ih =>
    rw [Serial.run, List.append_assoc, ih (valid_step h e)]
    cases e with
    | arrive byte =>
      have harrived : arrived (.arrive byte :: events) = byte :: arrived events := rfl
      rw [harrived, Serial.step, List.nil_append, List.append_assoc s.port [byte]]
      rfl
    | read =>
      have harrived : arrived (.read :: events) = arrived events := rfl
      rw [harrived, List.append_assoc, List.append_assoc]
      exact (serialReadChar_spec h).2.2 (arrived events ++ more)

theorem run_append (s : Serial) (events more : List SerialEvent) :
    s.run (events ++ more) =
      ((s.run events).1 ++ ((s.run events).2.run more).1, ((s.run events).2.run more).2) := by
  induction events generalizing s with
  | nil => rfl
  | cons e events ih => simp only [List.cons_append, Serial.run, ih, List.append_assoc]

theorem valid_run (h : s.decoder.Valid) (events : List SerialEvent) :
    (s.run events).2.decoder.Valid := by
  induction events generalizing s with
  | nil => exact h
  | cons e events ih => exact ih (valid_step h e)

/-- **Everything is returned** after some reads. -/
theorem due_reads (h : s.decoder.Valid) (n : ℕ) :
    (s.run (List.replicate n .read)).2.due ≤ s.due - n := by
  induction n generalizing s with
  | zero => exact le_refl _
  | succ n ih =>
    have hone := (serialReadChar_spec h).2.1
    have hmore := ih (valid_step h .read)
    rw [List.replicate_succ, Serial.run]
    simp only [Serial.step] at hmore ⊢
    omega

end Runs

theorem valid_start : Serial.start.decoder.Valid := .inl ⟨[], holds_new⟩

/-- **What is read** from the serial port, when enough is read: the characters among the bytes that
arrived, in order, and replacements for other bytes. -/
theorem serial_input (events : List SerialEvent) : ∃ n, ∀ m, n ≤ m →
    returned events <+: returned (events ++ List.replicate m .read) ∧
    Decoded (arrived events) (returned (events ++ List.replicate m .read)) ∧
    (∀ text, arrived events = encodeText text →
      returned (events ++ List.replicate m .read) = text) ∧
    ∀ g text, arrived events = g ++ encodeText text →
      ∃ r, returned (events ++ List.replicate m .read) = r ++ text ∧ Decoded g r ∧
        ((∀ p s, g = p ++ s → ¬ Starts s) → ∀ c ∈ r, c = replacement) := by
  refine ⟨(Serial.start.run events).2.due, fun m hm => ?_⟩
  have hall : arrived (events ++ List.replicate m .read) = arrived events := by
    have hreads : arrived (List.replicate m .read) = [] :=
      List.filterMap_eq_nil_iff.mpr fun e he => by rw [List.eq_of_mem_replicate he]
    rw [arrived, List.filterMap_append, ← arrived, ← arrived, hreads, List.append_nil]
  have hdecoded : Decoded (arrived events) (returned (events ++ List.replicate m .read)) := by
    have hrun := run_rest (events ++ List.replicate m .read) valid_start []
    have hvalid := valid_run valid_start (events ++ List.replicate m .read)
    have hdue := due_reads (valid_run valid_start events) m
    have hstart : Serial.start.decoder.rest (arrived events) =
        decodeFrom Decoder.new (arrived events) := rest_of_holds holds_new _
    rw [hall, List.append_nil, List.append_nil, Serial.start, List.nil_append, ← Serial.start,
      hstart] at hrun
    rw [run_append] at hrun hvalid
    have hzero : ((Serial.start.run events).2.run (List.replicate m .read)).2.due = 0 := by omega
    rw [rest_of_due hvalid hzero, List.append_nil] at hrun
    have hexact := decodeFrom_decoded (arrived events) Decoder.new [] holds_new
    rw [returned, run_append, hrun]
    exact hexact
  refine ⟨?_, hdecoded, fun text htext => ?_, fun g text htext => ?_⟩
  · rw [returned, returned, run_append]
    exact List.prefix_append _ _
  · rw [htext] at hdecoded
    obtain ⟨r, hr, hnil⟩ := @Decoded.append [] text _ hdecoded
    rw [hr, hnil.eq_nil, List.nil_append]
  · rw [htext] at hdecoded
    obtain ⟨r, hr, hg⟩ := hdecoded.append
    exact ⟨r, hr, hg, hg.eq_replacement⟩

end ImagineOS.Console
