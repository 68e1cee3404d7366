import ImagineOS.Checked
import ImagineOS.Console.Framebuffer

/-!
# Console: output in pieces

A program writes to the console with many calls. Bytes outside escape sequences are collected in a
buffer and drawn before the next escape sequence, and at the end of each call. How far an escape
sequence has come is kept from one call to the next, but the buffer is not: a character that is cut
by the end of a call is drawn as replacements.
-/

namespace ImagineOS.Framebuffer

open Utf8 List

/-! ### Escape sequences -/

/-- `ansi_state`, `ansi_value` and `ansi_has_value` of `Console` -/
structure Parser where
  state : ℕ
  value : ℕ
  hasValue : Bool
  deriving DecidableEq

structure Console where
  screen : Screen
  parser : Parser

def setAnsiForeground (color : ℕ) (s : Screen) : Screen :=
  { s with foreground :=
      match color with
      | 30 => 0x101820
      | 31 => 0xff6b6b
      | 32 => 0x79d279
      | 33 => 0xf2c879
      | 34 => 0x78a9ff
      | 35 => 0xd79bff
      | 36 => 0x72d6d6
      | 37 => 0xdce8e8
      | 90 => 0x74808a
      | 91 => 0xff8b8b
      | 92 => 0x9be69b
      | 93 => 0xffdc8a
      | 94 => 0x91b9ff
      | 95 => 0xe2afff
      | 96 => 0x8ce6e6
      | 97 => 0xffffff
      | _ => s.foreground }

/-- The foreground of a console that was not told another. -/
def resetForeground (s : Screen) : Screen := { s with foreground := 0xdce8e8 }

/-- `plain.len()` -/
def plainSize : ℕ := 4096

/-- The `match` of `write_ansi`: whether the buffer is to be drawn, the console and the buffer. -/
def ansiStep (c : Console) (plain : List UInt8) (byte : UInt8) :
    Checked Empty (Bool × Console × List UInt8) :=
  match c.parser.state with
  | 0 =>
    if byte = 0x1b then .ok (true, { c with parser.state := 1 }, plain)
    else if plain.length < plainSize then .ok (false, c, plain ++ [byte])
    else Checked.panic
  | 1 =>
    .ok (false, { c with
      parser.state := if byte = 91 then 2 else 0
      parser.value := 0
      parser.hasValue := false }, plain)
  | 2 =>
    if 48 ≤ byte ∧ byte ≤ 57 then
      let value := min (min (c.parser.value * 10) 65535 + (byte - 48).toNat) 65535
      .ok (false, { c with parser.value := value, parser.hasValue := true }, plain)
    else if byte = 59 then
      let screen := if c.parser.value = 0 then resetForeground c.screen
        else setAnsiForeground c.parser.value c.screen
      .ok (false, { c with screen := screen, parser.value := 0, parser.hasValue := false }, plain)
    else if byte = 109 then
      let screen := if c.parser.value = 0 ∨ c.parser.hasValue = false then resetForeground c.screen
        else setAnsiForeground c.parser.value c.screen
      .ok (false, { c with screen := screen, parser.state := 0 }, plain)
    else .ok (false, { c with parser.state := 0 }, plain)
  | _ => .ok (false, { c with parser.state := 0 }, plain)

/-- `if .. plain_length != 0 { write_utf8(&plain[..plain_length]) }` -/
def flushPlain (c : Console) (plain : List UInt8) : Console :=
  if plain ≠ [] then { c with screen := writeUtf8 c.screen plain } else c

/-- The loop of `write_ansi`. -/
def ansiLoop (c : Console) (plain : List UInt8) :
    List UInt8 → Checked Empty (Console × List UInt8)
  | [] => .ok (c, plain)
  | byte :: bytes => do
    let (flush, c, plain) ← ansiStep c plain byte
    if flush then ansiLoop (flushPlain c plain) [] bytes else ansiLoop c plain bytes

def writeAnsi (c : Console) (bytes : List UInt8) : Checked Empty Console := do
  let (c, plain) ← ansiLoop c [] bytes
  return flushPlain c plain

/-- One call after another. -/
def writeCalls (c : Console) : List (List UInt8) → Checked Empty Console
  | [] => .ok c
  | bytes :: calls => do writeCalls (← writeAnsi c bytes) calls

/-! ### Commands -/

/-- What is done to the screen. -/
inductive Command
  | char (character : Char)
  | foreground (color : Option ℕ)
  deriving DecidableEq

/-- What a byte is. -/
inductive Kind
  | plain
  | escape
  | color (color : Option ℕ)
  | other
  deriving DecidableEq

/-- What the next byte is, and the state behind it. -/
def Parser.step (p : Parser) (byte : UInt8) : Kind × Parser :=
  match p.state with
  | 0 => if byte = 0x1b then (.escape, { p with state := 1 }) else (.plain, p)
  | 1 => (.other, ⟨if byte = 91 then 2 else 0, 0, false⟩)
  | 2 =>
    if 48 ≤ byte ∧ byte ≤ 57 then
      (.other, { p with
        value := min (min (p.value * 10) 65535 + (byte - 48).toNat) 65535
        hasValue := true })
    else if byte = 59 then
      (.color (if p.value = 0 then none else some p.value),
        { p with value := 0, hasValue := false })
    else if byte = 109 then
      (.color (if p.value = 0 ∨ p.hasValue = false then none else some p.value),
        { p with state := 0 })
    else (.other, { p with state := 0 })
  | _ => (.other, { p with state := 0 })

/-- The state behind some bytes. -/
def Parser.after (p : Parser) : List UInt8 → Parser
  | [] => p
  | byte :: bytes => (p.step byte).2.after bytes

/-- What is in the buffer behind some bytes. -/
def Parser.buffered (p : Parser) (plain : List UInt8) : List UInt8 → List UInt8
  | [] => plain
  | byte :: bytes =>
    match p.step byte with
    | (.plain, p) => p.buffered (plain ++ [byte]) bytes
    | (.escape, p) => p.buffered [] bytes
    | (_, p) => p.buffered plain bytes

/-- What is done for some bytes, with what is in the buffer. -/
def commands (p : Parser) (plain : List UInt8) : List UInt8 → List Command
  | [] => (lossy plain).map .char
  | byte :: bytes =>
    match p.step byte with
    | (.plain, p) => commands p (plain ++ [byte]) bytes
    | (.escape, p) => (lossy plain).map .char ++ commands p [] bytes
    | (.color color, p) => .foreground color :: commands p plain bytes
    | (.other, p) => commands p plain bytes

/-- There is room for all bytes between two escape sequences, when there are `n` in the buffer. -/
def Fits (p : Parser) (n : ℕ) : List UInt8 → Prop
  | [] => True
  | byte :: bytes =>
    match p.step byte with
    | (.plain, p) => n < plainSize ∧ Fits p (n + 1) bytes
    | (.escape, p) => Fits p 0 bytes
    | (_, p) => Fits p n bytes

/-- A command. -/
def perform (s : Screen) : Command → Screen
  | .char character => writeChar s character
  | .foreground none => resetForeground s
  | .foreground (some color) => setAnsiForeground color s

section Calls

variable {c : Console} {s : Screen} {p : Parser} {plain bytes xs ys : List UInt8} {n : ℕ}

theorem flushPlain_eq (s : Screen) (p : Parser) (plain : List UInt8) :
    flushPlain ⟨s, p⟩ plain = ⟨((lossy plain).map .char).foldl perform s, p⟩ := by
  rw [foldl_map, flushPlain]
  split
  · rw [writeUtf8, utf8Chars_eq]
    rfl
  · rename_i hnil
    rw [not_not.mp hnil, lossy]
    rfl

theorem ansiStep_eq (s : Screen) (p : Parser) (plain : List UInt8) (byte : UInt8) :
    ansiStep ⟨s, p⟩ plain byte =
      match p.step byte with
      | (.plain, p) =>
        if plain.length < plainSize then .ok (false, ⟨s, p⟩, plain ++ [byte]) else Checked.panic
      | (.escape, p) => .ok (true, ⟨s, p⟩, plain)
      | (.color color, p) => .ok (false, ⟨perform s (.foreground color), p⟩, plain)
      | (.other, p) => .ok (false, ⟨s, p⟩, plain) := by
  obtain ⟨state, value, hasValue⟩ := p
  match state with
  | 0 =>
    by_cases hescape : byte = 0x1b
    · simp only [ansiStep, Parser.step, if_pos hescape]
    · simp only [ansiStep, Parser.step, if_neg hescape]
  | 1 => rfl
  | 2 =>
    simp only [ansiStep, Parser.step]
    split_ifs <;> rfl
  | _ + 3 => rfl

/-- **A call draws its commands**, when there is room for them. -/
theorem ansiLoop_ok (h : Fits p plain.length bytes) :
    ∃ s' plain', ansiLoop ⟨s, p⟩ plain bytes = .ok (⟨s', p.after bytes⟩, plain') ∧
      flushPlain ⟨s', p.after bytes⟩ plain' =
        ⟨(commands p plain bytes).foldl perform s, p.after bytes⟩ := by
  induction bytes generalizing s p plain with
  | nil => exact ⟨s, plain, rfl, flushPlain_eq s p plain⟩
  | cons byte bytes ih =>
    rw [ansiLoop, ansiStep_eq, Parser.after, commands]
    rw [Fits] at h
    rcases hstep : p.step byte with ⟨_ | _ | color | _, p'⟩
    · rw [hstep] at h
      dsimp only at h ⊢
      rw [if_pos h.1, Checked.ok_bind]
      exact ih (by rw [length_append]; exact h.2)
    · rw [hstep] at h
      dsimp only at h ⊢
      rw [Checked.ok_bind]
      dsimp only
      rw [if_pos rfl, flushPlain_eq, foldl_append]
      exact ih h
    · rw [hstep] at h
      exact ih h
    · rw [hstep] at h
      exact ih h

theorem ansiLoop_panic (h : ¬ Fits p plain.length bytes) :
    ansiLoop ⟨s, p⟩ plain bytes = Checked.panic := by
  induction bytes generalizing s p plain with
  | nil => exact absurd trivial h
  | cons byte bytes ih =>
    rw [ansiLoop, ansiStep_eq]
    rw [Fits] at h
    rcases hstep : p.step byte with ⟨_ | _ | color | _, p'⟩
    · rw [hstep] at h
      dsimp only at h ⊢
      split
      · rename_i hroom
        exact ih (by rw [length_append]; exact fun hfits => h ⟨hroom, hfits⟩)
      · rfl
    · rw [hstep] at h
      dsimp only at h ⊢
      rw [Checked.ok_bind]
      dsimp only
      rw [if_pos rfl, flushPlain_eq]
      exact ih h
    · rw [hstep] at h
      exact ih h
    · rw [hstep] at h
      exact ih h

theorem writeAnsi_ok (s : Screen) (h : Fits p 0 bytes) :
    writeAnsi ⟨s, p⟩ bytes = .ok ⟨(commands p [] bytes).foldl perform s, p.after bytes⟩ := by
  obtain ⟨s', plain', hloop, hflush⟩ := @ansiLoop_ok s p [] bytes h
  rw [writeAnsi, hloop, Checked.ok_bind, ← hflush]
  rfl

theorem writeAnsi_panic (s : Screen) (h : ¬ Fits p 0 bytes) :
    writeAnsi ⟨s, p⟩ bytes = Checked.panic := by
  rw [writeAnsi, @ansiLoop_panic s p [] bytes h]
  rfl

/-! ### Pieces -/

theorem Fits.mono {m : ℕ} (h : Fits p n bytes) (hmn : m ≤ n) : Fits p m bytes := by
  induction bytes generalizing p m n with
  | nil => trivial
  | cons byte bytes ih =>
    rw [Fits] at h ⊢
    rcases hstep : p.step byte with ⟨_ | _ | color | _, p'⟩
    · rw [hstep] at h
      exact ⟨hmn.trans_lt h.1, ih h.2 (Nat.succ_le_succ hmn)⟩
    · rw [hstep] at h
      exact h
    · rw [hstep] at h
      exact ih h hmn
    · rw [hstep] at h
      exact ih h hmn

theorem Fits.append (h : Fits p n (xs ++ ys)) : Fits p n xs ∧ Fits (p.after xs) 0 ys := by
  induction xs generalizing p n with
  | nil => exact ⟨trivial, h.mono (Nat.zero_le n)⟩
  | cons byte xs ih =>
    rw [cons_append, Fits] at h
    rw [Fits, Parser.after]
    rcases hstep : p.step byte with ⟨_ | _ | color | _, p'⟩
    · rw [hstep] at h
      exact ⟨⟨h.1, (ih h.2).1⟩, (ih h.2).2⟩
    · rw [hstep] at h
      exact ih h
    · rw [hstep] at h
      exact ih h
    · rw [hstep] at h
      exact ih h

theorem after_append (p : Parser) (xs ys : List UInt8) :
    p.after (xs ++ ys) = (p.after xs).after ys := by
  induction xs generalizing p with
  | nil => rfl
  | cons byte xs ih => exact ih _

theorem buffered_suffix (p : Parser) (front plain bytes : List UInt8) :
    ∃ front', p.buffered (front ++ plain) bytes = front' ++ p.buffered plain bytes := by
  induction bytes generalizing p plain with
  | nil => exact ⟨front, rfl⟩
  | cons byte bytes ih =>
    rw [Parser.buffered, Parser.buffered]
    rcases p.step byte with ⟨_ | _ | color | _, p'⟩
    · dsimp only
      rw [append_assoc]
      exact ih p' (plain ++ [byte])
    · exact ⟨[], rfl⟩
    · exact ih p' plain
    · exact ih p' plain

theorem buffered_append (p : Parser) (plain xs ys : List UInt8) :
    p.buffered plain (xs ++ ys) = (p.after xs).buffered (p.buffered plain xs) ys := by
  induction xs generalizing p plain with
  | nil => rfl
  | cons byte xs ih =>
    rw [cons_append, Parser.buffered, Parser.buffered, Parser.after]
    rcases p.step byte with ⟨_ | _ | color | _, p'⟩ <;> exact ih p' _

/-- The commands for some bytes, but for what is in the buffer then. -/
def drawn (p : Parser) (plain : List UInt8) : List UInt8 → List Command
  | [] => []
  | byte :: bytes =>
    match p.step byte with
    | (.plain, p) => drawn p (plain ++ [byte]) bytes
    | (.escape, p) => (lossy plain).map .char ++ drawn p [] bytes
    | (.color color, p) => .foreground color :: drawn p plain bytes
    | (.other, p) => drawn p plain bytes

theorem commands_append (p : Parser) (plain xs ys : List UInt8) :
    commands p plain (xs ++ ys) =
      drawn p plain xs ++ commands (p.after xs) (p.buffered plain xs) ys := by
  induction xs generalizing p plain with
  | nil => rfl
  | cons byte xs ih =>
    rw [cons_append, commands, drawn, Parser.buffered, Parser.after]
    rcases p.step byte with ⟨_ | _ | color | _, p'⟩
    · exact ih p' _
    · dsimp only
      rw [ih, append_assoc]
    · dsimp only
      rw [ih, cons_append]
    · exact ih p' _

theorem commands_eq_drawn (p : Parser) (plain xs : List UInt8) :
    commands p plain xs = drawn p plain xs ++ (lossy (p.buffered plain xs)).map .char := by
  have happend := commands_append p plain xs []
  rw [append_nil] at happend
  exact happend

theorem step_zero (h : p.state = 0) (byte : UInt8) :
    p.step byte = if byte = 0x1b then (.escape, { p with state := 1 }) else (.plain, p) := by
  cases p
  cases h
  rfl

/-- The buffer is empty inside escape sequences. -/
def Ready (p : Parser) (plain : List UInt8) : Prop := p.state = 0 ∨ plain = []

theorem Ready.buffered (h : Ready p plain) (bytes : List UInt8) :
    Ready (p.after bytes) (p.buffered plain bytes) := by
  induction bytes generalizing p plain with
  | nil => exact h
  | cons byte bytes ih =>
    rw [Parser.after, Parser.buffered]
    have hplain : (p.step byte).1 = .plain → (p.step byte).2 = p ∧ p.state = 0 := by
      unfold Parser.step
      split
      · rename_i hstate
        split <;> simp [hstate]
      · nofun
      · split_ifs <;> nofun
      · nofun
    have hrest : (p.step byte).1 ≠ .plain → (p.step byte).1 ≠ .escape → plain = [] := by
      intro hne hne'
      refine h.resolve_left fun hstate => ?_
      rw [step_zero hstate] at hne hne'
      split_ifs at hne hne'
      · exact absurd rfl hne'
      · exact absurd rfl hne
    rcases hstep : p.step byte with ⟨_ | _ | color | _, p'⟩
    · rw [hstep] at hplain
      obtain ⟨rfl, hstate⟩ := hplain rfl
      exact ih (.inl hstate)
    · exact ih (.inr rfl)
    · rw [hstep] at hrest
      rw [hrest nofun nofun]
      exact ih (.inr rfl)
    · rw [hstep] at hrest
      rw [hrest nofun nofun]
      exact ih (.inr rfl)

/-- The bytes that come into the buffer first. -/
def Parser.leading (p : Parser) (bytes : List UInt8) : List UInt8 :=
  if p.state = 0 then bytes.takeWhile (· ≠ 0x1b) else []

/-- What is done when those have been drawn. -/
def Parser.behind (p : Parser) (bytes : List UInt8) : List Command :=
  if p.state = 0 then
    match bytes.dropWhile (· ≠ 0x1b) with
    | [] => []
    | _ :: rest => commands { p with state := 1 } [] rest
  else commands p [] bytes

theorem commands_leading (h : Ready p plain) (bytes : List UInt8) :
    commands p plain bytes = (lossy (plain ++ p.leading bytes)).map .char ++ p.behind bytes := by
  by_cases hstate : p.state = 0
  · rw [Parser.leading, Parser.behind, if_pos hstate, if_pos hstate]
    induction bytes generalizing plain with
    | nil =>
      rw [takeWhile_nil, dropWhile_nil, append_nil, append_nil]
      rfl
    | cons byte bytes ih =>
      rw [commands, step_zero hstate]
      by_cases hescape : byte = 0x1b
      · rw [if_pos hescape, takeWhile_cons_of_neg (by simp [hescape]),
          dropWhile_cons_of_neg (by simp [hescape]), append_nil]
      · rw [if_neg hescape, takeWhile_cons_of_pos (by simp [hescape]),
          dropWhile_cons_of_pos (by simp [hescape])]
        dsimp only
        rw [ih (.inl hstate), append_assoc, singleton_append]
  · rw [Parser.leading, Parser.behind, if_neg hstate, if_neg hstate, h.resolve_left hstate,
      append_nil, lossy]
    rfl

/-! ### Cuts -/

/-- The commands of calls one after another. -/
def callCommands (p : Parser) : List (List UInt8) → List Command
  | [] => []
  | bytes :: calls => commands p [] bytes ++ callCommands (p.after bytes) calls

/-- No call ends inside a UTF-8 sequence. -/
def Uncut (p : Parser) (calls : List (List UInt8)) : Prop :=
  ∀ front back, calls = front ++ back →
    ¬ Splits (p.buffered [] front.flatten) ((p.after front.flatten).leading back.flatten)

/-- The cursor moves forward. -/
def Command.advances : Command → Bool
  | .char character => character ≠ '\r' ∧ character ≠ '\x08'
  | .foreground _ => false

variable {calls : List (List UInt8)}

theorem writeCalls_ok (s : Screen) (h : Fits p 0 calls.flatten) :
    writeCalls ⟨s, p⟩ calls =
      .ok ⟨(callCommands p calls).foldl perform s, p.after calls.flatten⟩ := by
  induction calls generalizing s p with
  | nil => rfl
  | cons bytes calls ih =>
    rw [flatten_cons] at h
    rw [writeCalls, writeAnsi_ok s h.append.1, Checked.ok_bind, ih _ h.append.2, callCommands,
      foldl_append, flatten_cons, after_append]

theorem commands_whole (p : Parser) (xs ys : List UInt8) :
    commands p [] (xs ++ ys) = drawn p [] xs ++
      ((lossy (p.buffered [] xs ++ (p.after xs).leading ys)).map .char ++
        (p.after xs).behind ys) := by
  have hready : Ready (p.after xs) (p.buffered [] xs) := Ready.buffered (.inr rfl) xs
  rw [commands_append, commands_leading hready]

theorem commands_pieces (p : Parser) (xs ys : List UInt8) :
    commands p [] xs ++ commands (p.after xs) [] ys = drawn p [] xs ++
      ((lossy (p.buffered [] xs)).map .char ++ ((lossy ((p.after xs).leading ys)).map .char ++
        (p.after xs).behind ys)) := by
  rw [commands_eq_drawn p [] xs, commands_leading (.inr rfl), nil_append, append_assoc]

/-- **Pieces that are not cut** are drawn as the whole. -/
theorem callCommands_eq (h : Uncut p calls) :
    callCommands p calls = commands p [] calls.flatten := by
  induction calls generalizing p with
  | nil =>
    rw [callCommands, flatten_nil, commands, lossy]
    rfl
  | cons bytes calls ih =>
    have hhere : ¬ Splits (p.buffered [] bytes) ((p.after bytes).leading calls.flatten) := by
      have hcut := h [bytes] calls rfl
      rwa [flatten_cons, flatten_nil, append_nil] at hcut
    have hrest : Uncut (p.after bytes) calls := by
      intro front back hsplit hcut
      refine h (bytes :: front) back (by rw [hsplit]; rfl) ?_
      rw [flatten_cons, after_append, buffered_append]
      obtain ⟨front', hfront⟩ :=
        buffered_suffix (p.after bytes) (p.buffered [] bytes) [] front.flatten
      rw [append_nil] at hfront
      rw [hfront]
      exact hcut.of_suffix
    rw [callCommands, ih hrest, flatten_cons, commands_whole, commands_pieces,
      lossy_append hhere, map_append, append_assoc]

theorem countP_chars (chars : List Char) :
    (chars.map Command.char).countP Command.advances =
      chars.countP fun c => Command.advances (.char c) := by
  rw [countP_map]
  rfl

theorem count_commands_le (p : Parser) (xs ys : List UInt8) :
    (commands p [] (xs ++ ys)).countP Command.advances ≤
      (commands p [] xs ++ commands (p.after xs) [] ys).countP Command.advances := by
  have hle := @count_lossy_append_le (fun c => Command.advances (.char c)) (by decide)
    (p.buffered [] xs) ((p.after xs).leading ys)
  rw [commands_whole, commands_pieces]
  simp only [countP_append, countP_chars]
  omega

theorem count_commands_lt (h : Splits (p.buffered [] xs) ((p.after xs).leading ys)) :
    (commands p [] (xs ++ ys)).countP Command.advances <
      (commands p [] xs ++ commands (p.after xs) [] ys).countP Command.advances := by
  have hlt := @count_lossy_append_lt _ _ (fun c => Command.advances (.char c)) (by decide) h
  rw [commands_whole, commands_pieces]
  simp only [countP_append, countP_chars]
  omega

theorem count_callCommands_ge (p : Parser) (calls : List (List UInt8)) :
    (commands p [] calls.flatten).countP Command.advances ≤
      (callCommands p calls).countP Command.advances := by
  induction calls generalizing p with
  | nil =>
    rw [flatten_nil, commands, lossy]
    exact Nat.zero_le _
  | cons bytes calls ih =>
    have hle := count_commands_le p bytes calls.flatten
    have hrest := ih (p.after bytes)
    rw [countP_append] at hle
    rw [flatten_cons, callCommands, countP_append]
    omega

theorem callCommands_append (p : Parser) (front back : List (List UInt8)) :
    callCommands p (front ++ back) =
      callCommands p front ++ callCommands (p.after front.flatten) back := by
  induction front generalizing p with
  | nil => rfl
  | cons bytes front ih =>
    rw [cons_append, callCommands, callCommands, ih, flatten_cons, after_append, append_assoc]

/-- **Pieces that are cut** draw more characters than the whole. -/
theorem count_callCommands_gt (h : ¬ Uncut p calls) :
    (commands p [] calls.flatten).countP Command.advances <
      (callCommands p calls).countP Command.advances := by
  unfold Uncut at h
  push Not at h
  obtain ⟨front, back, rfl, hcut⟩ := h
  have hlt := count_commands_lt hcut
  have hfront := count_callCommands_ge p front
  have hback := count_callCommands_ge (p.after front.flatten) back
  rw [countP_append] at hlt
  rw [flatten_append, callCommands_append, countP_append]
  omega

end Calls

/-! ### A screen of one column

Where each character needs a line of its own, the cursor counts them. -/

section Narrow

variable {s : Screen} {height y : ℕ} {body : ℕ → Screen → Screen}

/-- Only the memory is another. -/
def OnlyMemory (s t : Screen) : Prop := ∃ memory, t = { s with memory := memory }

theorem OnlyMemory.refl (s : Screen) : OnlyMemory s s := ⟨s.memory, rfl⟩

variable {t : Screen}

theorem OnlyMemory.trans {u : Screen} (h : OnlyMemory s t) (h' : OnlyMemory t u) :
    OnlyMemory s u := by
  obtain ⟨m, rfl⟩ := h
  obtain ⟨m', rfl⟩ := h'
  exact ⟨m', rfl⟩

theorem OnlyMemory.cursorX (h : OnlyMemory s t) : t.cursorX = s.cursorX := by
  obtain ⟨memory, rfl⟩ := h
  rfl

theorem OnlyMemory.fontWidth (h : OnlyMemory s t) : t.fontWidth = s.fontWidth := by
  obtain ⟨memory, rfl⟩ := h
  rfl

theorem onlyMemory_pixel (x y : ℕ) (color : Color) (s : Screen) :
    OnlyMemory s (pixel x y color s) := by
  rw [pixel]
  split
  · exact .refl s
  · exact ⟨_, rfl⟩

theorem onlyMemory_forRange (h : ∀ i s, OnlyMemory s (body i s)) (start count : ℕ) (s : Screen) :
    OnlyMemory s (forRange start count body s) := by
  rw [forRange]
  induction List.range' start count generalizing s with
  | nil => exact .refl s
  | cons i rest ih => exact (h i s).trans (ih _)

theorem onlyMemory_eraseCell (x y : ℕ) (s : Screen) : OnlyMemory s (eraseCell x y s) :=
  onlyMemory_forRange (fun row s => onlyMemory_forRange
    (fun column s => onlyMemory_pixel column row _ s) _ _ s) _ _ s

theorem onlyMemory_glyph (font : List UInt8) (start rows columns : ℕ) (s : Screen) :
    OnlyMemory s (forRange 0 rows (fun row => forRange 0 columns fun column =>
      glyphPixel font start row column) s) := by
  refine onlyMemory_forRange (fun row s => onlyMemory_forRange (fun column s => ?_) _ _ s) _ _ s
  rw [glyphPixel]
  split
  · exact onlyMemory_pixel _ _ _ s
  · exact .refl s

/-- **A character that is drawn** moves the cursor. -/
theorem drawGlyph_ascii {font : List UInt8} (hfont : s.font = some font)
    (hcount : s.glyphCount = 256) (htable : s.hasUnicodeTable = false) (hwidth : s.fontWidth ≤ 32)
    (hheight : s.fontHeight ≤ 64) (character : Char) :
    ∃ t, OnlyMemory s t ∧
      drawGlyph character s = { t with cursorX := s.cursorX + s.fontWidth } := by
  have hglyph : ∃ glyph < 256,
      (glyphIndex s font character).or (glyphIndex s font '?') = some glyph := by
    have hquestion : glyphIndex s font '?' = some 63 := by
      rw [glyphIndex, hcount, if_pos (by decide)]
      rfl
    rw [hquestion, glyphIndex, hcount]
    split
    · rename_i hascii
      exact ⟨character.toNat, hascii.2, rfl⟩
    · rw [if_pos (.inl htable)]
      exact ⟨63, by omega, rfl⟩
  obtain ⟨glyph, hlt, hglyph⟩ := hglyph
  rw [drawGlyph, hfont]
  dsimp only
  rw [hglyph]
  dsimp only
  rw [if_neg (by rw [hcount]; omega)]
  have hdrawn := (onlyMemory_eraseCell s.cursorX s.cursorY s).trans
    (onlyMemory_glyph font ((eraseCell s.cursorX s.cursorY s).glyphOffset +
      glyph * (eraseCell s.cursorX s.cursorY s).glyphBytes)
      (eraseCell s.cursorX s.cursorY s).fontHeight (eraseCell s.cursorX s.cursorY s).fontWidth _)
  refine ⟨_, hdrawn, ?_⟩
  rw [hdrawn.cursorX, hdrawn.fontWidth]

/-- One column, of `height` rows, with the cursor in row `y`. -/
structure Narrow (height y : ℕ) (s : Screen) : Prop where
  present : s.present = true
  width : s.width = 8
  height : s.height = height
  fontWidth : s.fontWidth = 8
  fontHeight : s.fontHeight = 1
  font : ∃ font, s.font = some font
  glyphCount : s.glyphCount = 256
  noTable : s.hasUnicodeTable = false
  cursorX : s.cursorX = 0
  cursorY : s.cursorY = y
  noCursor : s.cursorVisible = false

theorem Narrow.onlyMemory (h : Narrow height y s) (ht : OnlyMemory s t) :
    Narrow height y t := by
  obtain ⟨memory, rfl⟩ := ht
  exact ⟨h.present, h.width, h.height, h.fontWidth, h.fontHeight, h.font, h.glyphCount, h.noTable,
    h.cursorX, h.cursorY, h.noCursor⟩

theorem Narrow.moved (h : Narrow height y t) (y' : ℕ) :
    Narrow height y' { t with cursorX := 0, cursorY := y' } :=
  ⟨h.present, h.width, h.height, h.fontWidth, h.fontHeight, h.font, h.glyphCount, h.noTable, rfl,
    rfl, h.noCursor⟩

/-- What `write_char` does at last. -/
def settle (s : Screen) : Screen :=
  if s.height < s.cursorY + s.fontHeight then scrollOneLine s else s

theorem settle_narrow (h : Narrow height y s) (hroom : y < height) : settle s = s := by
  rw [settle, if_neg (by rw [h.height, h.cursorY, h.fontHeight]; omega)]

theorem wrapLine_behind {x' y' : ℕ} (h : Narrow height y t) (hx : 0 < x') :
    Narrow height (y' + 1) (wrapLine { t with cursorX := x', cursorY := y' }) := by
  have hwrap : wrapLine { t with cursorX := x', cursorY := y' } =
      { t with cursorX := 0, cursorY := y' + t.fontHeight } :=
    if_pos (show t.width < x' + t.fontWidth by rw [h.width, h.fontWidth]; omega)
  have hnext : y' + t.fontHeight = y' + 1 := by rw [h.fontHeight]
  rw [hwrap, hnext]
  exact h.moved (y' + 1)

theorem wrapLine_narrow (h : Narrow height y s) : wrapLine s = s :=
  if_neg (by rw [h.width, h.cursorX, h.fontWidth]; omega)

/-- **A character** takes a line, unless it only moves the cursor back. -/
theorem writeChar_narrow (h : Narrow height y s) (hroom : y + 1 < height) (character : Char) :
    Narrow height (y + if (Command.char character).advances then 1 else 0)
      (writeChar s character) := by
  have hcursor : drawCursor false s = s := if_pos (.inr h.noCursor)
  have hwrite : writeChar s character = settle (wrapLine (placeChar character s)) := by
    rw [writeChar, if_neg (show ¬ s.present = false by rw [h.present]; nofun), hcursor]
    rfl
  suffices hwrap : Narrow height (y + if (Command.char character).advances then 1 else 0)
      (wrapLine (placeChar character s)) by
    rw [hwrite, settle_narrow hwrap (by split <;> omega)]
    exact hwrap
  have hzero : { s with cursorX := 0, cursorY := y } = s := by
    rw [← h.cursorX, ← h.cursorY]
  by_cases hnewline : character = '\n'
  · have hplace : placeChar character s = { s with cursorX := 0, cursorY := y + 1 } := by
      rw [placeChar, if_pos hnewline, h.cursorY, h.fontHeight]
    rw [hplace, hnewline, wrapLine_narrow (h.moved (y + 1))]
    exact h.moved (y + 1)
  by_cases hreturn : character = '\r'
  · have hplace : placeChar character s = s := by
      rw [placeChar, if_neg hnewline, if_pos hreturn, ← h.cursorX]
    rw [hplace, hreturn, wrapLine_narrow h]
    exact h
  by_cases hback : character = '\x08'
  · have hplace : placeChar character s = s := by
      rw [placeChar, if_neg hnewline, if_neg hreturn, if_pos hback, h.cursorX, Nat.zero_sub,
        ← h.cursorX]
      exact if_neg fun hmoved => hmoved rfl
    rw [hplace, hback, wrapLine_narrow h]
    exact h
  have hadvances : (Command.char character).advances = true := by
    rw [Command.advances]
    exact decide_eq_true ⟨hreturn, hback⟩
  rw [if_pos hadvances]
  by_cases htab : character = '\t'
  · have hplace : placeChar character s = { s with cursorX := 32, cursorY := y } := by
      rw [placeChar, if_neg hnewline, if_neg hreturn, if_neg hback, if_pos htab, h.cursorX,
        h.fontWidth, ← h.cursorY]
    rw [hplace]
    exact wrapLine_behind h (by omega)
  · obtain ⟨font, hfont⟩ := h.font
    obtain ⟨t, ht, hdrawn⟩ := drawGlyph_ascii hfont h.glyphCount h.noTable
      (by rw [h.fontWidth]; omega) (by rw [h.fontHeight]; omega) character
    replace ht := h.onlyMemory ht
    have hplace : placeChar character s = { t with cursorX := 8, cursorY := y } := by
      rw [placeChar, if_neg hnewline, if_neg hreturn, if_neg hback, if_neg htab, hdrawn,
        h.cursorX, h.fontWidth, ← ht.cursorY]
    rw [hplace]
    exact wrapLine_behind ht (by omega)

/-- **Commands** take a line for each character that moves the cursor forward. -/
theorem perform_narrow (h : Narrow height y s) (done : List Command)
    (hroom : y + done.countP Command.advances + 1 < height) :
    Narrow height (y + done.countP Command.advances) (done.foldl perform s) := by
  induction done generalizing s y with
  | nil => exact h
  | cons command rest ih =>
    have hstep : Narrow height (y + if command.advances then 1 else 0) (perform s command) := by
      cases command with
      | char character =>
        rw [countP_cons] at hroom
        exact writeChar_narrow h (by omega) character
      | foreground color =>
        cases color <;> exact ⟨h.present, h.width, h.height, h.fontWidth, h.fontHeight, h.font,
          h.glyphCount, h.noTable, h.cursorX, h.cursorY, h.noCursor⟩
    have hcount : y + (command :: rest).countP Command.advances =
        (y + if command.advances then 1 else 0) + rest.countP Command.advances := by
      rw [countP_cons]
      omega
    rw [hcount] at hroom ⊢
    exact ih hstep hroom

/-- A screen of one column and `height` rows. -/
def narrow (height : ℕ) : Screen where
  present := true
  memory := fun _ => 0
  width := 8
  height := height
  pitch := 32
  redShift := 16
  greenShift := 8
  blueShift := 0
  cursorX := 0
  cursorY := 0
  cursorVisible := false
  font := some []
  fontWidth := 8
  fontHeight := 1
  glyphCount := 256
  glyphBytes := 1
  glyphOffset := 0
  unicodeOffset := 0
  hasUnicodeTable := false
  foreground := 0xdce8e8
  active := true

theorem narrow_narrow (height : ℕ) : Narrow height 0 (narrow height) :=
  ⟨rfl, rfl, rfl, rfl, rfl, ⟨[], rfl⟩, rfl, rfl, rfl, rfl, rfl⟩

theorem cursorY_narrow {done : List Command} (hroom : done.countP Command.advances + 1 < height) :
    (done.foldl perform (narrow height)).cursorY = done.countP Command.advances := by
  have hdone := perform_narrow (narrow_narrow height) done (by omega)
  rw [hdone.cursorY, Nat.zero_add]

end Narrow

/-! ### Pieces and the whole -/

/-- **Pieces are drawn as the whole is** on every screen, if and only if no call ends inside a
UTF-8 sequence and the buffer is large enough for the whole. -/
theorem writeCalls_iff (p : Parser) (calls : List (List UInt8)) :
    (∀ s, ∃ c, writeCalls ⟨s, p⟩ calls = .ok c ∧ writeAnsi ⟨s, p⟩ calls.flatten = .ok c) ↔
      Fits p 0 calls.flatten ∧ Uncut p calls := by
  constructor
  · intro h
    have hfits : Fits p 0 calls.flatten := by
      by_contra hfits
      obtain ⟨c, -, hwhole⟩ := h (narrow 0)
      rw [writeAnsi_panic _ hfits] at hwhole
      cases hwhole
    refine ⟨hfits, ?_⟩
    by_contra hcut
    have hgt := count_callCommands_gt hcut
    obtain ⟨c, hcalls, hwhole⟩ := h (narrow ((callCommands p calls).countP Command.advances + 2))
    rw [writeCalls_ok _ hfits] at hcalls
    rw [writeAnsi_ok _ hfits] at hwhole
    have hsame := congrArg (fun c : Console => c.screen.cursorY)
      (Except.ok.inj (hcalls.trans hwhole.symm))
    dsimp only at hsame
    rw [cursorY_narrow (by omega), cursorY_narrow (by omega)] at hsame
    omega
  · rintro ⟨hfits, huncut⟩ s
    refine ⟨_, writeCalls_ok s hfits, ?_⟩
    rw [callCommands_eq huncut]
    exact writeAnsi_ok s hfits

/-- A screen of 80 columns and 30 rows. -/
def wide : Screen := { narrow 480 with
  width := 640
  pitch := 2560
  fontHeight := 16
  glyphBytes := 16 }

/-- A character of the font, in the first row. -/
theorem writeChar_wide {s t : Screen} {x : ℕ} (ht : OnlyMemory wide t)
    (hs : s = { t with cursorX := x }) (hroom : x + 16 ≤ 640) {character : Char}
    (hprinted : character ∉ ['\n', '\r', '\x08', '\t']) :
    ∃ u, OnlyMemory wide u ∧ writeChar s character = { u with cursorX := x + 8 } := by
  obtain ⟨memory, rfl⟩ := ht
  subst hs
  simp only [mem_cons, not_or] at hprinted
  obtain ⟨hnewline, hreturn, hback, htab, -⟩ := hprinted
  obtain ⟨u, hu, hdrawn⟩ := @drawGlyph_ascii { wide with cursorX := x, memory := memory } []
    rfl rfl rfl (show 8 ≤ 32 by omega) (show 16 ≤ 64 by omega) character
  obtain ⟨memory', rfl⟩ := hu
  refine ⟨{ wide with memory := memory' }, ⟨memory', rfl⟩, ?_⟩
  have hplace : placeChar character { wide with cursorX := x, memory := memory } =
      { wide with cursorX := x + 8, memory := memory' } := by
    rw [placeChar, if_neg hnewline, if_neg hreturn, if_neg hback, if_neg htab, hdrawn]
    rfl
  have hwrap : wrapLine { wide with cursorX := x + 8, memory := memory' } =
      { wide with cursorX := x + 8, memory := memory' } :=
    if_neg (show ¬ 640 < x + 8 + 8 by omega)
  show settle (wrapLine (placeChar character { wide with cursorX := x, memory := memory })) = _
  rw [hplace, hwrap]
  exact if_neg (show ¬ 480 < 0 + 16 by omega)

/-- A letter with an accent is two replacements when it is cut. -/
theorem writeCalls_cut :
    ∃ c c', writeCalls ⟨wide, ⟨0, 0, false⟩⟩ [[0xC3], [0xA9]] = .ok c ∧
      writeAnsi ⟨wide, ⟨0, 0, false⟩⟩ [0xC3, 0xA9] = .ok c' ∧
      c.screen.cursorX = 16 ∧ c'.screen.cursorX = 8 := by
  have hfits : Fits ⟨0, 0, false⟩ 0 [0xC3, 0xA9] := ⟨by decide, by decide, trivial⟩
  have hpieces : callCommands ⟨0, 0, false⟩ [[0xC3], [0xA9]] =
      [.char replacement, .char replacement] := by
    show (lossy [0xC3]).map Command.char ++ ((lossy [0xA9]).map Command.char ++ []) = _
    rw [lossy_cons, lossy_cons, drop_nil, drop_nil, lossy]
    rfl
  have hwhole : commands ⟨0, 0, false⟩ [] [0xC3, 0xA9] = [.char 'é'] := by
    show (lossy [0xC3, 0xA9]).map Command.char = _
    rw [lossy_cons]
    show (firstChar 0xC3 [0xA9] :: lossy []).map Command.char = _
    rw [lossy]
    rfl
  obtain ⟨t, ht, hfirst⟩ := @writeChar_wide wide wide 0 (.refl wide) rfl (by decide) replacement
    (by decide)
  obtain ⟨u, hu, hsecond⟩ := @writeChar_wide _ _ 8 ht hfirst (by decide) replacement (by decide)
  obtain ⟨v, hv, hletter⟩ := @writeChar_wide wide wide 0 (.refl wide) rfl (by decide) 'é'
    (by decide)
  refine ⟨_, _, writeCalls_ok wide hfits, writeAnsi_ok wide hfits, ?_, ?_⟩
  · simp only [hpieces, foldl_cons, foldl_nil, perform, hsecond]
  · simp only [hwhole, foldl_cons, foldl_nil, perform, hletter]

end ImagineOS.Framebuffer
