import ImagineOS.Checked
import ImagineOS.Shell.Expand

/-!
# Shell: the environment of a command

The table of variables has twice as many slots as a program may get strings of its environment. So
the variables that are exported do not always go to a command: `execve` refuses every program from
the thirteenth of them on, and as soon as one of them has a NUL in a value that is UTF-8
(`accepts_iff_sendable`). Otherwise whatever the wrapper in user space takes is taken by the kernel
too, and arrives as it was (`load_execve`).
-/

namespace ImagineOS.Shell

open List

/-! ### The table -/

/-- A variable that has room in a slot. -/
def Variable.Fits (v : Variable) : Prop :=
  validName v.name ∧ v.name.length ≤ nameSize ∧ v.value.length ≤ valueSize

instance (v : Variable) : Decidable v.Fits := inferInstanceAs (Decidable (_ ∧ _ ∧ _))

/-- `Environment`, slot by slot. A slot that is not active has no variable. -/
structure Table where
  slots : Fin maxVariables → Option {v : Variable // v.Fits}

namespace Table

/-- The variables of the slots that are active. -/
def active (t : Table) : List {v : Variable // v.Fits} :=
  (List.finRange maxVariables).filterMap t.slots

/-- The slot of a name. -/
def position (t : Table) (name : List UInt8) : Option (Fin maxVariables) :=
  (List.finRange maxVariables).find? fun slot => (t.slots slot).any (·.1.name = name)

/-- The first slot that is not active. -/
def free (t : Table) : Option (Fin maxVariables) :=
  (List.finRange maxVariables).find? fun slot => (t.slots slot).isNone

def get (t : Table) (name : List UInt8) : Option (List UInt8) :=
  (t.position name).bind fun slot => (t.slots slot).map (·.1.value)

/-- `set`, and whether the variable was accepted. -/
def set (t : Table) (name value : List UInt8) (exported : Bool) : Bool × Table :=
  if h : Variable.Fits ⟨name, value, exported⟩ then
    match (t.position name).or t.free with
    | some slot => (true, ⟨Function.update t.slots slot (some ⟨_, h⟩)⟩)
    | none => (false, t)
  else (false, t)

def unset (t : Table) (name : List UInt8) : Table :=
  match t.position name with
  | some slot => ⟨Function.update t.slots slot none⟩
  | none => t

/-- The loop of `format_decimal`, with what is left of the array of its digits. -/
def digits : ℕ → ℕ → List UInt8 → List UInt8
  | 0, _, output => output
  | room + 1, value, output =>
    if value = 0 then output
    else digits room (value / 10) (UInt8.ofNat (48 + value % 10) :: output)

def formatDecimal (value : ℕ) : List UInt8 := if value = 0 then [48] else digits 20 value []

def setStatus (t : Table) (status : ℤ) : Table :=
  (t.set [63] (formatDecimal (status % 256).toNat) true).2

/-- `Environment::new` -/
def new : Table :=
  let t : Table := ⟨fun _ => none⟩
  let t := (t.set [72, 79, 77, 69] [47, 104, 111, 109, 101] true).2
  let t := (t.set [80, 65, 84, 72] [47, 98, 105, 110] true).2
  let t := (t.set [80, 87, 68] [47] true).2
  let t := (t.set [83, 72, 69, 76, 76] [47, 98, 105, 110, 47, 115, 104, 101, 108, 108] true).2
  (t.set [63] [48] false).2

/-- The variables that are active, in the order of their slots. -/
def toEnvironment (t : Table) : Environment := ⟨t.active.map Subtype.val⟩

theorem get_toEnvironment (t : Table) (name : List UInt8) :
    t.toEnvironment.get name = t.get name := by
  have hfind : ∀ slots : List (Fin maxVariables),
      (((slots.filterMap t.slots).map Subtype.val).find? (·.name = name)).map Variable.value =
        (slots.find? fun slot => (t.slots slot).any (·.1.name = name)).bind
          fun slot => (t.slots slot).map (·.1.value) := by
    intro slots
    induction slots with
    | nil => rfl
    | cons slot slots ih =>
      cases hslot : t.slots slot with
      | none => simpa [hslot] using ih
      | some v =>
        by_cases hname : v.1.name = name
        · simp [hslot, hname]
        · simpa [hslot, hname] using ih
  exact hfind _

def iterExported (t : Table) : List {v : Variable // v.Fits} := t.active.filter (·.1.exported)

end Table

/-! ### Commands -/

/-- What changes the table: an assignment of the shell itself, as `cd` and the start make one; a
field after `export`; a word after `unset`; and a status for `$?`. -/
inductive Change
  | assign (name value : List UInt8) (exported : Bool)
  | exportField (field : List UInt8)
  | unset (name : List UInt8)
  | setStatus (status : ℤ)

/-- `builtin_export` for one field. -/
def builtinExport (field : List UInt8) (t : Table) : Table :=
  if field.length > fieldSize then t
  else match field.idxOf? 61 with
  | some equal => (t.set (field.take equal) (field.drop (equal + 1)) true).2
  | none => (t.set field (((t.get field).getD []).take valueSize) true).2

/-- One change. -/
def Change.apply : Change → Table → Table
  | .assign name value exported, t => (t.set name value exported).2
  | .exportField field, t => builtinExport field t
  | .unset name, t => t.unset name
  | .setStatus status, t => t.setStatus status

/-- The table after some changes. -/
def run (changes : List Change) (t : Table) : Table :=
  changes.foldl (fun t change => change.apply t) t

/-! ### The strings for `envp` -/

def pairSize : ℕ := nameSize + valueSize + 1

/-- The loop of `fill_pairs`, onto the pairs that are filled. -/
def fillLoop : List (List UInt8) → List {v : Variable // v.Fits} → List (List UInt8)
  | pairs, [] => pairs
  | pairs, v :: vs =>
    if pairs.length = maxVariables then pairs
    else
      let valueEnd := v.1.name.length + 1 + v.1.value.length
      if valueEnd > pairSize then fillLoop pairs vs
      else fillLoop (pairs ++ [v.1.name ++ 61 :: v.1.value]) vs

def Table.fillPairs (t : Table) : List (List UInt8) := fillLoop [] t.iterExported

/-- `as_strs`, up to the number of pairs. -/
def asStrs (pairs : List (List UInt8)) : List Str :=
  pairs.map fun pair => (fromUtf8 pair).getD ⟨[], validUtf8_nil⟩

/-- The environment that `execve_stage` passes on. -/
def Table.texts (t : Table) : List Str := asStrs t.fillPairs

/-! ### The wrapper in user space -/

/-- The memory of the process, where it is readable. -/
abbrev Memory : Type := ℕ → Option UInt8

/-- A `&str` that is stored at an address. -/
structure Slice (memory : Memory) where
  address : ℕ
  text : Str
  stored : ∀ i (h : i < text.1.length), memory (address + i) = some (text.1[i])

def maxExecArgs : ℕ := 12

def maxExecEnv : ℕ := 12

def maxExecItemSize : ℕ := 128

structure UserArg where
  address : ℕ
  length : ℕ

/-- The errors of the wrapper. -/
inductive Error
  | invalidArgument
  | tooBig
  deriving DecidableEq

/-- The registers of `SYS_EXECVE`, with the records that they point to, which are on the stack of
the caller. -/
structure Request where
  path : UserArg
  arguments : List UserArg
  environment : List UserArg

section Wrapper

variable {memory : Memory}

def pathBytes (path : Slice memory) (maxLen : ℕ) : Except Error UserArg :=
  if path.text.1.isEmpty || path.text.1.length > maxLen || path.text.1.contains 0 then
    .error .invalidArgument
  else .ok ⟨path.address, path.text.1.length⟩

def userArg (value : Slice memory) : Except Error UserArg :=
  if value.text.1.length > maxExecItemSize then .error .tooBig
  else if value.text.1.contains 0 then .error .invalidArgument
  else .ok ⟨value.address, value.text.1.length⟩

/-- `execve`, up to the system call. -/
def execve (path : Slice memory) (arguments environment : List (Slice memory)) :
    Except Error Request := do
  let path ← pathBytes path maxExecItemSize
  if arguments.length > maxExecArgs ∨ environment.length > maxExecEnv then throw .tooBig
  let arguments ← arguments.mapM userArg
  let environment ← environment.mapM userArg
  return ⟨path, arguments, environment⟩

end Wrapper

/-! ### The copies that the kernel makes -/

def copyFromCurrentUser (memory : Memory) (address length : ℕ) : Option (List UInt8) :=
  (List.range length).mapM fun i => memory (address + i)

/-- One round of the loop of `load_vector`. -/
def loadItem (memory : Memory) (record : UserArg) : Except ℤ (List UInt8) :=
  if record.length > maxExecItemSize then .error (-7)
  else match copyFromCurrentUser memory record.address record.length with
  | none => .error (-14)
  | some item => if item.contains 0 then .error (-22) else .ok item

def loadVector (memory : Memory) (records : List UserArg) (limit : ℕ) :
    Except ℤ (List (List UInt8)) :=
  if records.length > limit then .error (-7) else records.mapM (loadItem memory)

def loadPath (memory : Memory) (path : UserArg) : Except ℤ (List UInt8) :=
  if path.length = 0 ∨ path.length > maxExecItemSize then .error (-22)
  else match copyFromCurrentUser memory path.address path.length with
  | none => .error (-14)
  | some path => if path.contains 0 then .error (-22) else .ok path

structure ExecArguments where
  path : List UInt8
  arguments : List (List UInt8)
  environment : List (List UInt8)
  deriving DecidableEq

def load (memory : Memory) (request : Request) : Except ℤ ExecArguments := do
  let path ← loadPath memory request.path
  let arguments ← loadVector memory request.arguments maxExecArgs
  let environment ← loadVector memory request.environment maxExecEnv
  return ⟨path, arguments, environment⟩

section Wrapper

variable {memory : Memory}

/-- The wrapper takes the strings, and so does the kernel. -/
def accepts (path : Slice memory) (arguments environment : List (Slice memory)) : Bool :=
  match execve path arguments environment with
  | .error _ => false
  | .ok request => (load memory request).isOk

/-! ### What is accepted -/

/-- A string that fits. -/
def Passes (text : Str) : Prop := text.1.length ≤ maxExecItemSize ∧ 0 ∉ text.1

instance (text : Str) : Decidable (Passes text) := inferInstanceAs (Decidable (_ ∧ _))

/-- Strings for `execve` that fit. -/
structure Acceptable (path : Str) (arguments environment : List Str) : Prop where
  path_ne : path.1 ≠ []
  path_passes : Passes path
  arguments_le : arguments.length ≤ maxExecArgs
  arguments_pass : ∀ text ∈ arguments, Passes text
  environment_le : environment.length ≤ maxExecEnv
  environment_pass : ∀ text ∈ environment, Passes text

/-- The record of a string. -/
def Slice.record (value : Slice memory) : UserArg := ⟨value.address, value.text.1.length⟩

theorem mapM_eq_pure {m : Type → Type} [Monad m] [LawfulMonad m] {α β : Type} {f : α → m β}
    {g : α → β} {l : List α} (h : ∀ x ∈ l, f x = pure (g x)) : l.mapM f = pure (l.map g) := by
  induction l with
  | nil => rfl
  | cons x l ih =>
    rw [mapM_cons, h x mem_cons_self, ih fun y hy => h y (mem_cons_of_mem x hy),
      pure_bind, pure_bind, map_cons]

theorem exists_of_mapM {α β ε : Type} {f : α → Except ε β} {l : List α} {ys : List β}
    (h : l.mapM f = .ok ys) : ∀ x ∈ l, ∃ y, f x = .ok y := by
  induction l generalizing ys with
  | nil => exact fun x hx => absurd hx not_mem_nil
  | cons x l ih =>
    rw [mapM_cons, bind_eq_ok] at h
    obtain ⟨y, hx, h⟩ := h
    obtain ⟨zs, hl, -⟩ := bind_eq_ok.mp h
    intro z hz
    rcases mem_cons.mp hz with rfl | hz
    · exact ⟨y, hx⟩
    · exact ih hl z hz

variable {value : Slice memory}

theorem userArg_eq (h : Passes value.text) :
    userArg value = .ok value.record := by
  have hlen : ¬ value.text.1.length > maxExecItemSize := Nat.not_lt.mpr h.1
  have hnul : value.text.1.contains 0 = false := by simpa using h.2
  rw [userArg, if_neg hlen, hnul]
  rfl

theorem passes_of_userArg {record : UserArg}
    (h : userArg value = .ok record) : Passes value.text := by
  unfold userArg at h
  split at h
  · cases h
  · rename_i hlen
    split at h
    · cases h
    · rename_i hnul
      exact ⟨Nat.le_of_not_lt hlen, by simpa using hnul⟩

variable {path : Slice memory}

theorem pathBytes_eq_iff {record : UserArg} :
    pathBytes path maxExecItemSize = .ok record ↔
      path.text.1 ≠ [] ∧ Passes path.text ∧ record = path.record := by
  unfold pathBytes Passes
  split
  · rename_i h
    simp only [Bool.or_eq_true, List.isEmpty_iff, decide_eq_true_eq, List.contains_iff_mem] at h
    refine ⟨fun h => (by cases h), fun ⟨hne, ⟨hlen, hnul⟩, _⟩ => ?_⟩
    rcases h with (h | h) | h
    · exact absurd h hne
    · exact absurd h (Nat.not_lt.mpr hlen)
    · exact absurd h hnul
  · rename_i h
    simp only [Bool.or_eq_true, List.isEmpty_iff, decide_eq_true_eq, List.contains_iff_mem,
      not_or, Nat.not_lt] at h
    simp only [Except.ok.injEq, Slice.record, eq_comm]
    exact ⟨fun hr => ⟨h.1.1, ⟨h.1.2, h.2⟩, hr⟩, fun hr => hr.2.2⟩

theorem mapM_userArg_iff {values : List (Slice memory)} {records : List UserArg} :
    values.mapM userArg = .ok records ↔
      (∀ text ∈ values.map Slice.text, Passes text) ∧ records = values.map Slice.record := by
  simp only [forall_mem_map]
  constructor
  · intro h
    have hpass : ∀ value ∈ values, Passes value.text := fun value hv =>
      (exists_of_mapM h value hv).elim fun _ => passes_of_userArg
    rw [mapM_eq_pure fun value hv => userArg_eq (hpass value hv)] at h
    exact ⟨hpass, (Except.ok.inj h).symm⟩
  · rintro ⟨hpass, rfl⟩
    exact mapM_eq_pure fun value hv => userArg_eq (hpass value hv)

variable {arguments environment : List (Slice memory)}

theorem execve_eq_iff {request : Request} :
    execve path arguments environment = .ok request ↔
      Acceptable path.text (arguments.map Slice.text) (environment.map Slice.text) ∧
        request = ⟨path.record, arguments.map Slice.record, environment.map Slice.record⟩ := by
  unfold execve
  rw [bind_eq_ok]
  by_cases hcount : arguments.length > maxExecArgs ∨ environment.length > maxExecEnv
  · -- Too many strings are refused after the path.
    simp only [if_pos hcount]
    refine ⟨fun ⟨_, _, h⟩ => (by cases h), fun ⟨h, _⟩ => ?_⟩
    have ha := h.arguments_le
    have he := h.environment_le
    rw [length_map] at ha he
    omega
  · simp only [if_neg hcount, pathBytes_eq_iff, bind_eq_ok, mapM_userArg_iff]
    rw [not_or, Nat.not_lt, Nat.not_lt] at hcount
    constructor
    · rintro ⟨_, ⟨hne, hpath, rfl⟩, _, ⟨ha, rfl⟩, _, ⟨he, rfl⟩, h⟩
      exact ⟨⟨hne, hpath, by simpa using hcount.1, ha, by simpa using hcount.2, he⟩,
        (Except.ok.inj h).symm⟩
    · rintro ⟨h, rfl⟩
      exact ⟨_, ⟨h.path_ne, h.path_passes, rfl⟩, _, ⟨h.arguments_pass, rfl⟩, _,
        ⟨h.environment_pass, rfl⟩, rfl⟩

theorem copy_slice (value : Slice memory) :
    copyFromCurrentUser memory value.address value.text.1.length = some value.text.1 := by
  have hget : ∀ i ∈ List.range value.text.1.length,
      memory (value.address + i) = pure (value.text.1.getD i 0) := by
    intro i hi
    have hlt := mem_range.mp hi
    rw [value.stored i hlt, getD_eq_getElem?_getD, List.getElem?_eq_getElem hlt]
    rfl
  have hlist : (List.range value.text.1.length).map (value.text.1.getD · 0) = value.text.1 :=
    ext_getElem (by simp) fun i h₁ h₂ => by simp [List.getElem?_eq_getElem h₂]
  rw [copyFromCurrentUser, mapM_eq_pure hget, hlist]
  rfl

theorem loadItem_record (h : Passes value.text) :
    loadItem memory value.record = .ok value.text.1 := by
  have hlen : ¬ value.text.1.length > maxExecItemSize := Nat.not_lt.mpr h.1
  simp [loadItem, Slice.record, copy_slice, hlen, h.2]

theorem loadVector_record {values : List (Slice memory)} {limit : ℕ} (hlen : values.length ≤ limit)
    (h : ∀ value ∈ values, Passes value.text) :
    loadVector memory (values.map Slice.record) limit =
      .ok (values.map fun value => value.text.1) := by
  have hlen' : ¬ (values.map Slice.record).length > limit := by simpa using hlen
  rw [loadVector, if_neg hlen', mapM_map]
  exact mapM_eq_pure fun value hv => loadItem_record (h value hv)

theorem load_execve {request : Request} (h : execve path arguments environment = .ok request) :
    load memory request = .ok ⟨path.text.1, arguments.map fun value => value.text.1,
      environment.map fun value => value.text.1⟩ := by
  obtain ⟨haccept, rfl⟩ := execve_eq_iff.mp h
  have hne : ¬ path.text.1.length = 0 := fun h0 =>
    haccept.path_ne (eq_nil_of_length_eq_zero h0)
  have hpath : loadPath memory path.record = .ok path.text.1 := by
    have hlen := Nat.not_lt.mpr haccept.path_passes.1
    simp [loadPath, Slice.record, copy_slice, hne, hlen, haccept.path_passes.2]
  have harguments := loadVector_record (by simpa using haccept.arguments_le)
    fun value hv => haccept.arguments_pass _ (mem_map_of_mem hv)
  have henvironment := loadVector_record (by simpa using haccept.environment_le)
    fun value hv => haccept.environment_pass _ (mem_map_of_mem hv)
  simp only [load, hpath, harguments, henvironment]
  rfl

theorem accepts_iff :
    accepts path arguments environment ↔
      Acceptable path.text (arguments.map Slice.text) (environment.map Slice.text) := by
  unfold accepts
  split
  · rename_i error hexecve
    refine ⟨fun h => (by cases h), fun h => ?_⟩
    rw [execve_eq_iff.mpr ⟨h, rfl⟩] at hexecve
    cases hexecve
  · rename_i request hexecve
    rw [load_execve hexecve]
    exact ⟨fun _ => (execve_eq_iff.mp hexecve).1, fun _ => rfl⟩

end Wrapper

/-! ### The variables that are exported -/

theorem isNameByte_lt {b : UInt8} (h : isNameByte b) : 0 < b ∧ b < 0x80 := by
  simp only [isNameByte, isAlphanumeric, isAlphabetic, Bool.or_eq_true, Bool.and_eq_true,
    decide_eq_true_eq, beq_iff_eq, UInt8.le_iff_toNat_le, ← UInt8.toNat_inj] at h
  simp only [UInt8.lt_iff_toNat_lt]
  simp at h ⊢
  omega

theorem validName_ascii {name : List UInt8} (h : validName name) :
    ∀ b ∈ name, 0 < b ∧ b < 0x80 := by
  cases name with
  | nil => exact fun b hb => absurd hb not_mem_nil
  | cons first rest =>
    simp only [validName, Bool.and_eq_true, all_eq_true, Bool.or_eq_true, beq_iff_eq] at h
    obtain ⟨hfirst, hrest⟩ := h
    intro b hb
    rcases mem_cons.mp hb with rfl | hb
    · rcases hfirst with (halpha | rfl) | rfl
      · exact isNameByte_lt (by simp [isNameByte, isAlphanumeric, halpha])
      · decide
      · decide
    · exact isNameByte_lt (hrest b hb)

/-- The pair of a variable. -/
def pair (v : {v : Variable // v.Fits}) : List UInt8 := v.1.name ++ 61 :: v.1.value

theorem length_pair_le (v : {v : Variable // v.Fits}) : (pair v).length ≤ pairSize := by
  have hname := v.2.2.1
  have hvalue := v.2.2.2
  simp only [pair, length_append, length_cons, pairSize]
  omega

theorem validUtf8_pair (v : {v : Variable // v.Fits}) :
    validUtf8 (pair v) = validUtf8 v.1.value := by
  rw [pair, validUtf8_ascii_append fun b hb => (validName_ascii v.2.1 b hb).2]
  have hequal : ∀ a ∈ [(61 : UInt8)], a < 0x80 := fun a ha => by
    rw [mem_singleton.mp ha]
    decide
  exact validUtf8_ascii_append hequal v.1.value

theorem zero_mem_pair {v : {v : Variable // v.Fits}} : 0 ∈ pair v ↔ 0 ∈ v.1.value := by
  have hname : 0 ∉ v.1.name := fun h => absurd (validName_ascii v.2.1 0 h).1 (UInt8.lt_irrefl 0)
  simp [pair, hname]

theorem fillLoop_eq (vs : List {v : Variable // v.Fits}) (pairs : List (List UInt8))
    (h : pairs.length + vs.length ≤ maxVariables) : fillLoop pairs vs = pairs ++ vs.map pair := by
  induction vs generalizing pairs with
  | nil => simp [fillLoop]
  | cons v vs ih =>
    rw [length_cons] at h
    have hroom : ¬ pairs.length = maxVariables := by omega
    have hsize : ¬ v.1.name.length + 1 + v.1.value.length > pairSize := by
      have := length_pair_le v
      simp only [pair, length_append, length_cons] at this
      omega
    have hlen : (pairs ++ [pair v]).length + vs.length ≤ maxVariables := by
      rw [length_append, length_singleton]
      omega
    rw [fillLoop, if_neg hroom]
    simp only [if_neg hsize]
    rw [show v.1.name ++ 61 :: v.1.value = pair v from rfl, ih _ hlen]
    simp

theorem length_iterExported_le (t : Table) : t.iterExported.length ≤ maxVariables := by
  have hfilter := length_filter_le (·.1.exported) t.active
  have hactive := length_filterMap_le t.slots (List.finRange maxVariables)
  rw [length_finRange] at hactive
  exact Nat.le_trans hfilter hactive

theorem fillPairs_eq (t : Table) : t.fillPairs = t.iterExported.map pair := by
  rw [Table.fillPairs, fillLoop_eq _ _ (by simpa using length_iterExported_le t), nil_append]

/-- The text of a variable, which is empty where its value is not UTF-8. -/
def pairText (v : {v : Variable // v.Fits}) : Str := (fromUtf8 (pair v)).getD ⟨[], validUtf8_nil⟩

theorem texts_eq (t : Table) : t.texts = t.iterExported.map pairText := by
  rw [Table.texts, fillPairs_eq, asStrs, map_map]
  rfl

theorem passes_pairText {v : {v : Variable // v.Fits}} :
    Passes (pairText v) ↔ (validUtf8 v.1.value → 0 ∉ v.1.value) := by
  by_cases hutf : validUtf8 (pair v)
  · have htext : pairText v = ⟨pair v, hutf⟩ := by simp [pairText, fromUtf8, hutf]
    have hlen : (pair v).length ≤ maxExecItemSize := Nat.le_trans (length_pair_le v) (by decide)
    have hvalue : validUtf8 v.1.value := (validUtf8_pair v).symm.trans hutf
    rw [htext, Passes, zero_mem_pair]
    exact ⟨fun h _ => h.2, fun h => ⟨hlen, h hvalue⟩⟩
  · have htext : pairText v = ⟨[], rfl⟩ := by simp [pairText, fromUtf8, hutf]
    rw [validUtf8_pair] at hutf
    rw [htext]
    exact ⟨fun _ h => absurd h hutf, fun _ => by decide⟩

/-! ### What the shell exports -/

/-- At most as many variables are exported as a program gets strings, and their values are without
a NUL unless they are not UTF-8. -/
def Table.Sendable (t : Table) : Prop :=
  t.iterExported.length ≤ maxExecEnv ∧
    ∀ v ∈ t.iterExported, validUtf8 v.1.value → 0 ∉ v.1.value

instance (t : Table) : Decidable t.Sendable := inferInstanceAs (Decidable (_ ∧ _))

/-- **Headline.** Whatever has been assigned, exported and unset: a command that `execve` takes
without an environment is taken with the one of the shell exactly if it can be sent. -/
theorem accepts_iff_sendable (changes : List Change) {memory : Memory} {path : Slice memory}
    {arguments environment : List (Slice memory)}
    (htexts : environment.map Slice.text = (run changes .new).texts)
    (h : accepts path arguments []) :
    accepts path arguments environment ↔ (run changes .new).Sendable := by
  have hpath := accepts_iff.mp h
  rw [accepts_iff, htexts, texts_eq]
  constructor
  · intro haccept
    have hle := haccept.environment_le
    rw [length_map] at hle
    refine ⟨hle, fun v hv => passes_pairText.mp ?_⟩
    exact haccept.environment_pass _ (mem_map_of_mem hv)
  · rintro ⟨hle, hnul⟩
    refine { hpath with environment_le := ?_, environment_pass := ?_ }
    · rwa [length_map]
    · intro text htext
      obtain ⟨v, hv, rfl⟩ := mem_map.mp htext
      exact passes_pairText.mpr (hnul v hv)

/-- A memory with a string in every row of 128 bytes. -/
def rows (texts : List Str) : Memory := fun i => texts[i / 128]?.bind (·.1[i % 128]?)

/-- The string of a row. -/
def row (texts : List Str) (k : Fin texts.length) (h : ∀ text ∈ texts, text.1.length ≤ 128) :
    Slice (rows texts) where
  address := 128 * k
  text := texts[k]
  stored i hi := by
    have hlen := h texts[k] (List.getElem_mem ..)
    have hlt : i < 128 := by omega
    have hdiv : (128 * k.1 + i) / 128 = k := by omega
    have hmod : (128 * k.1 + i) % 128 = i := by omega
    simp [rows, hdiv, hmod]

/-- Exports of some variables of two letters. -/
def exports (count : ℕ) : List Change :=
  (List.range count).map fun k => .exportField [118, UInt8.ofNat (97 + k), 61, 49]

/-- `/bin/ls`, and the strings of its environment after some exports. -/
def lsTexts (count : ℕ) : List Str :=
  ⟨[47, 98, 105, 110, 47, 108, 115], rfl⟩ :: (run (exports count) .new).texts

theorem length_lsTexts_nine : ∀ text ∈ lsTexts 9, text.1.length ≤ 128 := by decide +kernel

theorem length_lsTexts_eight : ∀ text ∈ lsTexts 8, text.1.length ≤ 128 := by decide +kernel

/-- With nine more variables, `ls` is refused. -/
theorem export_refused :
    ¬ ∀ (changes : List Change) (memory : Memory) (path : Slice memory)
      (arguments environment : List (Slice memory)),
      environment.map Slice.text = (run changes .new).texts → accepts path arguments [] →
        accepts path arguments environment := by
  intro hclaim
  have h := hclaim (exports 9) (rows (lsTexts 9))
    (row (lsTexts 9) ⟨0, by decide +kernel⟩ length_lsTexts_nine) []
    ((List.finRange _).tail.map (row (lsTexts 9) · length_lsTexts_nine))
    (by decide +kernel) (by decide +kernel)
  exact absurd h (by decide +kernel)

/-- With eight more variables, it is not. -/
theorem accepts_iff_sendable_sample :
    accepts (row (lsTexts 8) ⟨0, by decide +kernel⟩ length_lsTexts_eight) []
      ((List.finRange _).tail.map (row (lsTexts 8) · length_lsTexts_eight)) :=
  (accepts_iff_sendable (exports 8) (by decide +kernel) (by decide +kernel)).mpr
    (by decide +kernel)

end ImagineOS.Shell
