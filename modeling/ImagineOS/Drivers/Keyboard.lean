import Mathlib.Data.UInt

/-!
# Drivers: the keyboard

A dead key waits for the key that it goes with. It waits in one place, so another dead key takes its
place, and a special key is not looked at with it. Nothing is lost or passed as long as a dead key
is followed by neither (`drained_eq_expected_iff`).
-/

namespace ImagineOS.Drivers

inductive KeyboardLayout
  | us
  | abnt2
  deriving DecidableEq

def keyUp : Char := Char.ofNat 0xf0000

def keyDown : Char := Char.ofNat 0xf0001

def keyLeft : Char := Char.ofNat 0xf0002

def keyRight : Char := Char.ofNat 0xf0003

def keyHome : Char := Char.ofNat 0xf0004

def keyEnd : Char := Char.ofNat 0xf0005

def keyDelete : Char := Char.ofNat 0xf0006

def keyInterrupt : Char := Char.ofNat 0xf0007

/-- What `Keyboard` knows of the keys that are held. -/
structure Modifiers where
  leftShift : Bool
  rightShift : Bool
  control : Bool
  capsLock : Bool
  extended : Bool
  altGr : Bool
  deriving DecidableEq

/-- `Keyboard`, with what is left of the characters that are pending. -/
structure Keyboard extends Modifiers where
  deadKey : Option Char
  pending : List Char
  deriving DecidableEq

/-- `Keyboard::new` -/
def Keyboard.new : Keyboard where
  leftShift := false
  rightShift := false
  control := false
  capsLock := false
  extended := false
  altGr := false
  deadKey := none
  pending := []

/-! ### Keys -/

def extendedKey (code : UInt8) : Option Char :=
  match code with
  | 0x48 => some keyUp
  | 0x50 => some keyDown
  | 0x4b => some keyLeft
  | 0x4d => some keyRight
  | 0x47 => some keyHome
  | 0x4f => some keyEnd
  | 0x53 => some keyDelete
  | _ => none

/-- A row of keys, from a code on. -/
def row (first code : UInt8) (keys : String) : Option Char := keys.toList[(code - first).toNat]?

def translateCommon (code : UInt8) (shift caps : Bool) : Option Char :=
  if 0x02 ≤ code ∧ code ≤ 0x0b then
    if shift then row 0x02 code "!@#$%^&*()" else row 0x02 code "1234567890"
  else if 0x10 ≤ code ∧ code ≤ 0x19 then
    row 0x10 code (if shift ^^ caps then "QWERTYUIOP" else "qwertyuiop")
  else if 0x1e ≤ code ∧ code ≤ 0x26 then
    row 0x1e code (if shift ^^ caps then "ASDFGHJKL" else "asdfghjkl")
  else if 0x2c ≤ code ∧ code ≤ 0x32 then
    row 0x2c code (if shift ^^ caps then "ZXCVBNM" else "zxcvbnm")
  else match code with
    | 0x1c => some '\n'
    | 0x0e => some '\x08'
    | 0x39 => some ' '
    | 0x0c => some (if shift then '_' else '-')
    | 0x0d => some (if shift then '+' else '=')
    | 0x1a => some (if shift then '{' else '[')
    | 0x1b => some (if shift then '}' else ']')
    | 0x27 => some (if shift then ':' else ';')
    | 0x28 => some (if shift then '"' else '\'')
    | 0x29 => some (if shift then '~' else '`')
    | 0x2b => some (if shift then '|' else '\\')
    | 0x33 => some (if shift then '<' else ',')
    | 0x34 => some (if shift then '>' else '.')
    | 0x35 => some (if shift then '?' else '/')
    | _ => none

def translateAbnt2 (code : UInt8) (shift caps altGr : Bool) : Option Char :=
  if altGr then
    match code with
    | 0x03 => some '@'
    | 0x04 => some '£'
    | 0x05 => some '¢'
    | 0x07 => some '¬'
    | 0x10 => some '/'
    | 0x11 => some '?'
    | 0x12 => some '°'
    | 0x56 => some '|'
    | _ => none
  else if code = 0x07 ∧ shift then some '¨'
  else match code with
    | 0x1a => some (if shift then '`' else '´')
    | 0x1b => some (if shift then '{' else '[')
    | 0x27 => some (if shift then 'Ç' else 'ç')
    | 0x28 => some (if shift then '^' else '~')
    | 0x29 => some (if shift then '"' else '\'')
    | 0x2b => some (if shift then '}' else ']')
    | 0x56 => some (if shift then '>' else '<')
    | 0x0c => some (if shift then '_' else '-')
    | 0x0d => some (if shift then '+' else '=')
    | _ => translateCommon code shift caps

/-- `translate`, with `translate_us` -/
def translate (code : UInt8) (shift caps altGr : Bool) (layout : KeyboardLayout) : Option Char :=
  if layout = .abnt2 then translateAbnt2 code shift caps altGr
  else if altGr then none
  else translateCommon code shift caps

def isDeadKey (character : Char) : Bool := character ∈ ['´', '`', '~', '^', '¨']

def composeDeadKey (deadKey character : Char) : Option Char :=
  match deadKey, character with
  | '´', 'a' => some 'á'
  | '´', 'e' => some 'é'
  | '´', 'i' => some 'í'
  | '´', 'o' => some 'ó'
  | '´', 'u' => some 'ú'
  | '´', 'A' => some 'Á'
  | '´', 'E' => some 'É'
  | '´', 'I' => some 'Í'
  | '´', 'O' => some 'Ó'
  | '´', 'U' => some 'Ú'
  | '`', 'a' => some 'à'
  | '`', 'e' => some 'è'
  | '`', 'i' => some 'ì'
  | '`', 'o' => some 'ò'
  | '`', 'u' => some 'ù'
  | '`', 'A' => some 'À'
  | '`', 'E' => some 'È'
  | '`', 'I' => some 'Ì'
  | '`', 'O' => some 'Ò'
  | '`', 'U' => some 'Ù'
  | '~', 'a' => some 'ã'
  | '~', 'o' => some 'õ'
  | '~', 'A' => some 'Ã'
  | '~', 'O' => some 'Õ'
  | '^', 'a' => some 'â'
  | '^', 'e' => some 'ê'
  | '^', 'o' => some 'ô'
  | '^', 'A' => some 'Â'
  | '^', 'E' => some 'Ê'
  | '^', 'O' => some 'Ô'
  | '¨', 'u' => some 'ü'
  | '¨', 'U' => some 'Ü'
  | _, _ => none

/-! ### The driver -/

/-- The `match` of `poll_char`: a key that is held or let go. -/
def Modifiers.hold (m : Modifiers) (extended released : Bool) (key : UInt8) : Modifiers :=
  match extended, key with
  | false, 0x2a => { m with leftShift := !released }
  | false, 0x36 => { m with rightShift := !released }
  | _, 0x1d => { m with control := !released }
  | false, 0x3a => if released then m else { m with capsLock := !m.capsLock }
  | true, 0x38 => { m with altGr := !released }
  | _, _ => m

def Keyboard.compose (k : Keyboard) (character : Char) : Option Char × Keyboard :=
  if isDeadKey character then (none, { k with deadKey := some character })
  else match k.deadKey with
    | none => (some character, k)
    | some deadKey =>
      let k := { k with deadKey := none }
      if character = ' ' then (some deadKey, k)
      else match composeDeadKey deadKey character with
        | some composed => (some composed, k)
        | none => (some deadKey, { k with pending := [character] })

/-- `poll_char`, at a code. -/
def Keyboard.read (k : Keyboard) (layout : KeyboardLayout) (code : UInt8) :
    Option Char × Keyboard :=
  if code = 0xe0 then (none, { k with extended := true })
  else
    let released := code &&& 0x80 ≠ 0
    let key := code &&& 0x7f
    let extended := k.extended
    let held : Modifiers := { k.toModifiers with extended := false }
    let k := { k with toModifiers := held.hold extended released key }
    if released then (none, k)
    else if extended then (extendedKey key, k)
    else if k.control ∧ key = 0x2e then (some keyInterrupt, k)
    else match translate key (k.leftShift || k.rightShift) k.capsLock k.altGr layout with
      | none => (none, k)
      | some character => if layout = .abnt2 then k.compose character else (some character, k)

/-- `poll_char`, with the codes in the controller. -/
def Keyboard.pollChar (k : Keyboard) (layout : KeyboardLayout) (codes : List UInt8) :
    Option Char × Keyboard × List UInt8 :=
  match k.pending, codes with
  | character :: pending, codes => (some character, { k with pending := pending }, codes)
  | [], [] => (none, k, [])
  | [], code :: codes =>
    let (character, k) := k.read layout code
    (character, k, codes)

/-! ### Runs -/

/-- A code arrives at the controller, or a character is asked for. -/
inductive KeyEvent
  | arrive (code : UInt8)
  | poll

/-- The driver, the codes in the controller, and the characters that were returned. -/
structure Typing where
  keyboard : Keyboard
  codes : List UInt8
  returned : List Char
  deriving DecidableEq

/-- One event. -/
def Typing.step (layout : KeyboardLayout) (s : Typing) : KeyEvent → Typing
  | .arrive code => { s with codes := s.codes ++ [code] }
  | .poll =>
    let (character, keyboard, codes) := s.keyboard.pollChar layout s.codes
    ⟨keyboard, codes, s.returned ++ character.toList⟩

/-- Some events, from the start on. -/
def typing (layout : KeyboardLayout) (events : List KeyEvent) : Typing :=
  events.foldl (Typing.step layout) ⟨.new, [], []⟩

/-- The codes that arrive. -/
def arrivals (events : List KeyEvent) : List UInt8 :=
  events.filterMap fun
    | .arrive code => some code
    | .poll => none

/-- Nothing is left to ask for. -/
def Typing.Drained (s : Typing) : Prop := s.codes = [] ∧ s.keyboard.pending = []

instance (s : Typing) : Decidable s.Drained := inferInstanceAs (Decidable (_ ∧ _))

/-! ### The keys that are pressed -/

/-- A key that was pressed: it has a character, or is a special one. -/
inductive Stroke
  | character (c : Char)
  | special (c : Char)
  deriving DecidableEq

/-- The key of a code, with the keys that are held by then. -/
def Modifiers.stroke (m : Modifiers) (layout : KeyboardLayout) (code : UInt8) :
    Option Stroke × Modifiers :=
  if code = 0xe0 then (none, { m with extended := true })
  else
    let released := code &&& 0x80 ≠ 0
    let key := code &&& 0x7f
    let held := { m with extended := false }.hold m.extended released key
    if released then (none, held)
    else if m.extended then ((extendedKey key).map .special, held)
    else if held.control ∧ key = 0x2e then (some (.special keyInterrupt), held)
    else
      let shift := held.leftShift || held.rightShift
      ((translate key shift held.capsLock held.altGr layout).map .character, held)

/-- The keys that some codes press. -/
def strokes (layout : KeyboardLayout) : Modifiers → List UInt8 → List Stroke
  | _, [] => []
  | m, code :: codes =>
    (m.stroke layout code).1.toList ++ strokes layout (m.stroke layout code).2 codes

/-- **What should be returned**, after a dead key that waits: each key has its character, in order,
but a letter that a dead key composes with, and a space. -/
def expected : Option Char → List Stroke → List Char
  | _, [] => []
  | dead, .special c :: keys => dead.toList ++ c :: expected none keys
  | none, .character c :: keys =>
    if isDeadKey c then expected (some c) keys else c :: expected none keys
  | some dead, .character c :: keys =>
    if isDeadKey c then dead :: expected (some c) keys
    else if c = ' ' then dead :: expected none keys
    else match composeDeadKey dead c with
      | some composed => composed :: expected none keys
      | none => dead :: c :: expected none keys

/-- A dead key. -/
def Stroke.Dead : Stroke → Prop
  | .character c => isDeadKey c
  | .special _ => False

instance : DecidablePred Stroke.Dead
  | .character c => inferInstanceAs (Decidable (isDeadKey c = true))
  | .special _ => inferInstanceAs (Decidable False)

/-- A special key. -/
def Stroke.Special : Stroke → Prop
  | .character _ => False
  | .special _ => True

instance : DecidablePred Stroke.Special
  | .character _ => inferInstanceAs (Decidable False)
  | .special _ => inferInstanceAs (Decidable True)

/-- No dead key is followed by a dead key or a special one. -/
def Spaced (keys : List Stroke) : Prop :=
  keys.IsChain fun key next => key.Dead → ¬ next.Dead ∧ ¬ next.Special

instance (keys : List Stroke) : Decidable (Spaced keys) :=
  inferInstanceAs (Decidable (List.IsChain _ keys))

/-! ### What is returned -/

/-- The characters of one key, and the dead key that waits then. -/
def typed (dead : Option Char) : Stroke → List Char × Option Char
  | .special c => ([c], dead)
  | .character c =>
    if isDeadKey c then ([], some c)
    else match dead with
      | none => ([c], none)
      | some dead =>
        if c = ' ' then ([dead], none)
        else match composeDeadKey dead c with
          | some composed => ([composed], none)
          | none => ([dead, c], none)

/-- The characters of some keys. -/
def produced : Option Char → List Stroke → List Char
  | _, [] => []
  | dead, key :: keys => (typed dead key).1 ++ produced (typed dead key).2 keys

variable {k : Keyboard} {dead : Option Char} {c : Char} {keys : List Stroke}

theorem read_eq (k : Keyboard) (code : UInt8) :
    k.read .abnt2 code = match k.toModifiers.stroke .abnt2 code with
      | (none, held) => (none, { k with toModifiers := held })
      | (some (.special c), held) => (some c, { k with toModifiers := held })
      | (some (.character c), held) => Keyboard.compose { k with toModifiers := held } c := by
  unfold Keyboard.read Modifiers.stroke
  dsimp only
  split_ifs
  · rfl
  · rfl
  · cases extendedKey (code &&& 0x7f) <;> rfl
  · rfl
  · cases translate _ _ _ _ _ <;> rfl
  · exact absurd rfl ‹_›

theorem compose_spec (hpending : k.pending = []) (c : Char) :
    (k.compose c).2.toModifiers = k.toModifiers ∧ typed k.deadKey (.character c) =
      ((k.compose c).1.toList ++ (k.compose c).2.pending, (k.compose c).2.deadKey) := by
  unfold Keyboard.compose typed
  by_cases hc : isDeadKey c
  · simp [hc, hpending]
  · simp only [hc, Bool.false_eq_true, if_false]
    rcases hdead : k.deadKey with _ | dead
    · simp [hdead, hpending]
    · by_cases hspace : c = ' '
      · simp [hspace, hpending]
      · cases hcomposed : composeDeadKey dead c <;> simp [hspace, hcomposed, hpending]

/-- **One code**: what it returns, with what is pending then, is what its key has. -/
theorem read_spec (hpending : k.pending = []) (code : UInt8) :
    (k.read .abnt2 code).2.toModifiers = (k.toModifiers.stroke .abnt2 code).2 ∧
      ∀ keys, produced k.deadKey ((k.toModifiers.stroke .abnt2 code).1.toList ++ keys) =
        (k.read .abnt2 code).1.toList ++ ((k.read .abnt2 code).2.pending ++
          produced (k.read .abnt2 code).2.deadKey keys) := by
  rw [read_eq]
  rcases k.toModifiers.stroke .abnt2 code with ⟨_ | (c | c), held⟩
  · exact ⟨rfl, fun keys => by simp [hpending]⟩
  · obtain ⟨hheld, htyped⟩ := @compose_spec { k with toModifiers := held } hpending c
    refine ⟨hheld, fun keys => ?_⟩
    rw [← List.append_assoc]
    show (typed k.deadKey (.character c)).1 ++ produced (typed k.deadKey (.character c)).2 keys = _
    rw [htyped]
  · exact ⟨rfl, fun keys => by simp [produced, typed, hpending]⟩

/-- All that is returned in the end, if some more codes arrive. -/
def Typing.total (s : Typing) (codes : List UInt8) : List Char :=
  s.returned ++ (s.keyboard.pending ++
    produced s.keyboard.deadKey (strokes .abnt2 s.keyboard.toModifiers (s.codes ++ codes)))

/-- **One event** leaves it as it is. -/
theorem total_step (s : Typing) (event : KeyEvent) (codes : List UInt8) :
    (s.step .abnt2 event).total codes = s.total (arrivals [event] ++ codes) := by
  obtain ⟨keyboard, queue, returned⟩ := s
  cases event with
  | arrive code => simp [Typing.step, Typing.total, arrivals]
  | poll =>
    rcases hpending : keyboard.pending with _ | ⟨c, pending⟩
    · cases queue with
      | nil => simp [Typing.step, Typing.total, Keyboard.pollChar, hpending, arrivals]
      | cons code queue =>
        obtain ⟨hheld, hproduced⟩ := read_spec hpending code
        simp [Typing.step, Typing.total, Keyboard.pollChar, hpending, arrivals, strokes, hheld,
          hproduced]
    · simp [Typing.step, Typing.total, Keyboard.pollChar, hpending, arrivals]

theorem arrivals_cons (event : KeyEvent) (events : List KeyEvent) :
    arrivals (event :: events) = arrivals [event] ++ arrivals events :=
  List.filterMap_append (l := [event]) ..

/-- **A run** leaves it as well. -/
theorem total_run (events : List KeyEvent) (s : Typing) :
    (events.foldl (Typing.step .abnt2) s).total [] = s.total (arrivals events) := by
  induction events generalizing s with
  | nil => rfl
  | cons event events ih => rw [List.foldl_cons, ih, total_step, arrivals_cons event events]

theorem returned_eq {events : List KeyEvent} (hdrained : (typing .abnt2 events).Drained) :
    (typing .abnt2 events).returned =
      produced none (strokes .abnt2 Keyboard.new.toModifiers (arrivals events)) := by
  have hend : (typing .abnt2 events).total [] = (typing .abnt2 events).returned := by
    rw [Typing.total, hdrained.1, hdrained.2]
    simp [strokes, produced]
  rw [← hend]
  exact total_run events ⟨.new, [], []⟩

/-! ### What is lost -/

theorem length_produced (dead : Char) (keys : List Stroke) :
    (produced none keys).length ≤ (produced (some dead) keys).length ∧
      (produced (some dead) keys).length ≤ (produced none keys).length + 1 := by
  induction keys with
  | nil => exact ⟨Nat.le_refl 0, Nat.zero_le 1⟩
  | cons key keys ih =>
    cases key with
    | special c => simpa [produced, typed] using ih
    | character c =>
      by_cases hc : isDeadKey c
      · simp [produced, typed, hc]
      · by_cases hspace : c = ' '
        · subst hspace
          simp [produced, typed, hc]
        · cases hcomposed : composeDeadKey dead c <;>
            simp [produced, typed, hc, hspace, hcomposed]

theorem length_produced_le (dead : Option Char) (keys : List Stroke) :
    (produced dead keys).length ≤ (expected dead keys).length := by
  induction keys generalizing dead with
  | nil => exact Nat.le_refl 0
  | cons key keys ih =>
    cases key with
    | special c =>
      cases dead with
      | none => simpa [produced, typed, expected] using ih none
      | some dead =>
        have hwaits := (length_produced dead keys).2
        have hnone := ih none
        simp [produced, typed, expected]
        omega
    | character c =>
      by_cases hc : isDeadKey c
      · have hsome := ih (some c)
        cases dead <;> simp [produced, typed, expected, hc]
        · exact hsome
        · omega
      · have hnone := ih none
        cases dead with
        | none => simpa [produced, typed, expected, hc] using hnone
        | some dead =>
          by_cases hspace : c = ' '
          · subst hspace
            simpa [produced, typed, expected, hc] using hnone
          · cases hcomposed : composeDeadKey dead c <;>
              simpa [produced, typed, expected, hc, hspace, hcomposed] using hnone

theorem spaced_cons_iff {key : Stroke} (h : ¬ key.Dead) : Spaced (key :: keys) ↔ Spaced keys := by
  cases keys with
  | nil => simp [Spaced]
  | cons next keys =>
    rw [Spaced, List.isChain_cons_cons]
    exact and_iff_right fun hdead => absurd hdead h

/-- **When nothing is lost or passed.** -/
theorem produced_eq_iff (dead : Option Char) (hdead : ∀ c ∈ dead, isDeadKey c)
    (hspecial : ∀ c, .special c ∈ keys → ¬ isDeadKey c) :
    produced dead keys = expected dead keys ↔
      Spaced (dead.toList.map .character ++ keys) := by
  induction keys generalizing dead with
  | nil => cases dead <;> simp [produced, expected, Spaced]
  | cons key keys ih =>
    have hkeys : ∀ c, .special c ∈ keys → ¬ isDeadKey c := fun c hc =>
      hspecial c (List.mem_cons_of_mem key hc)
    have hnone := ih none nofun hkeys
    cases key with
    | special c =>
      cases dead with
      | none =>
        have hcons := @spaced_cons_iff keys (.special c) id
        simpa [produced, typed, expected, hcons] using hnone
      | some dead =>
        -- The special key is returned first, and it is not the dead one.
        refine iff_of_false (fun h => ?_) fun h => ?_
        · obtain rfl : c = dead := by simpa [produced, typed, expected] using congrArg List.head? h
          exact hspecial c List.mem_cons_self (hdead c rfl)
        · exact ((List.isChain_cons_cons.mp h).1 (hdead dead rfl)).2 trivial
    | character c =>
      by_cases hc : isDeadKey c
      · have hsome := ih (some c) (fun d hd => Option.some.inj hd ▸ hc) hkeys
        cases dead with
        | none => simpa [produced, typed, expected, hc] using hsome
        | some dead =>
          -- The dead key that waited has lost its place.
          refine iff_of_false (fun h => ?_) fun h => ?_
          · have hlength := congrArg List.length h
            have hle := length_produced_le (some c) keys
            simp [produced, typed, expected, hc] at hlength
            omega
          · exact ((List.isChain_cons_cons.mp h).1 (hdead dead rfl)).1 hc
      · have hcons := @spaced_cons_iff keys (.character c) hc
        cases dead with
        | none => simpa [produced, typed, expected, hc, hcons] using hnone
        | some dead =>
          have hpair : Spaced (.character dead :: .character c :: keys) ↔ Spaced keys := by
            rw [← hcons, Spaced, List.isChain_cons_cons]
            exact and_iff_right fun _ => ⟨hc, id⟩
          by_cases hspace : c = ' '
          · subst hspace
            simpa [produced, typed, expected, hc, hpair] using hnone
          · cases hcomposed : composeDeadKey dead c <;>
              simpa [produced, typed, expected, hc, hspace, hcomposed, hpair] using hnone

theorem not_isDeadKey_of_special {layout : KeyboardLayout} {codes : List UInt8} {m : Modifiers}
    (h : .special c ∈ strokes layout m codes) : ¬ isDeadKey c := by
  induction codes generalizing m with
  | nil => cases h
  | cons code codes ih =>
    rcases List.mem_append.mp h with h | h
    · unfold Modifiers.stroke at h
      dsimp only at h
      split_ifs at h
      · cases h
      · cases h
      · simp only [Option.mem_toList, Option.map_eq_some_iff, Stroke.special.injEq,
          exists_eq_right] at h
        unfold extendedKey at h
        split at h <;> cases h <;> decide
      · obtain rfl : c = keyInterrupt := by simpa using h
        decide
      · simp at h
    · exact ih h

/-- **Headline.** Whenever all codes were read and returned: the characters are those of the keys
that were pressed, with their letters composed, if and only if no dead key was followed by a dead
key or a special one. -/
theorem drained_eq_expected_iff (events : List KeyEvent)
    (hdrained : (typing .abnt2 events).Drained) :
    (typing .abnt2 events).returned =
        expected none (strokes .abnt2 Keyboard.new.toModifiers (arrivals events)) ↔
      Spaced (strokes .abnt2 Keyboard.new.toModifiers (arrivals events)) := by
  rw [returned_eq hdrained]
  exact produced_eq_iff none nofun fun c => not_isDeadKey_of_special

/-- An acute accent, and `a`. -/
def accents : List KeyEvent :=
  [.arrive 0x1a, .poll, .arrive 0x1e, .poll]

theorem drained_eq_expected_iff_sample :
    (typing .abnt2 accents).returned =
        expected none (strokes .abnt2 Keyboard.new.toModifiers (arrivals accents)) :=
  (drained_eq_expected_iff accents (by decide)).mpr (by decide)

/-- Of two accents, the first one is lost. -/
theorem dead_key_lost :
    ¬ ∀ events, (typing .abnt2 events).Drained → (typing .abnt2 events).returned =
      expected none (strokes .abnt2 Keyboard.new.toModifiers (arrivals events)) := by
  intro h
  exact absurd (h [.arrive 0x1a, .poll, .arrive 0x1a, .poll] (by decide)) (by decide)

end ImagineOS.Drivers
