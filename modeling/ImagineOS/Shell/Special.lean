import ImagineOS.Shell.Builtins
import Mathlib.Data.List.TakeWhile

/-!
# Shell: the special variables

`$?` and `PWD` are variables like any other one, and what `set` says about them is not looked at. A
status always finds its slot: it has one, or `unset` has just left one. A directory may have more
bytes than a value, and it may find no slot once `PWD` was unset.
-/

namespace ImagineOS.Shell

open Function List

variable {t : Table} {name other value : List UInt8} {exported : Bool}

/-! ### Slots -/

/-- The name of a slot. -/
def nameOf (slot : Option {v : Variable // v.Fits}) : Option (List UInt8) := slot.map (·.1.name)

variable {slot : Option {v : Variable // v.Fits}}

theorem any_name_iff :
    slot.any (·.1.name = name) ↔ nameOf slot = some name := by
  cases slot <;> simp [nameOf]

/-- The slot that `set` takes. -/
def Table.slotFor (t : Table) (name : List UInt8) : Option (Fin maxVariables) :=
  (t.position name).or t.free

/-- A slot has the name. -/
def Table.Has (t : Table) (name : List UInt8) : Prop := ∃ i, nameOf (t.slots i) = some name

theorem position_eq_none_iff : t.position name = none ↔ ¬ t.Has name := by
  rw [Table.position, List.find?_eq_none, Table.Has, not_exists]
  simp only [any_name_iff, mem_finRange, true_implies]

variable {i : Fin maxVariables}

theorem position_eq_some (h : t.position name = some i) :
    nameOf (t.slots i) = some name ∧ ∃ before after, List.finRange maxVariables =
      before ++ i :: after ∧ ∀ j ∈ before, nameOf (t.slots j) ≠ some name := by
  obtain ⟨hi, before, after, hsplit, hbefore⟩ := List.find?_eq_some_iff_append.mp h
  refine ⟨any_name_iff.mp hi, before, after, hsplit, fun j hj heq => ?_⟩
  have hnot := hbefore j hj
  rw [any_name_iff.mpr heq] at hnot
  exact absurd hnot (by decide)

theorem slotFor_eq_some (h : t.slotFor name = some i) :
    nameOf (t.slots i) = some name ∨ t.slots i = none := by
  rcases Option.or_eq_some_iff.mp h with h | ⟨-, h⟩
  · exact .inl (position_eq_some h).1
  · exact .inr (by simpa using (List.find?_eq_some_iff_append.mp h).1)

theorem slotFor_before (h : t.slotFor name = some i) :
    ∃ before after, List.finRange maxVariables = before ++ i :: after ∧
      ∀ j ∈ before, nameOf (t.slots j) ≠ some name := by
  rcases Option.or_eq_some_iff.mp h with h | ⟨hnone, h⟩
  · exact (position_eq_some h).2
  · obtain ⟨-, before, after, hsplit, -⟩ := List.find?_eq_some_iff_append.mp h
    exact ⟨before, after, hsplit, fun j _ hj => position_eq_none_iff.mp hnone ⟨j, hj⟩⟩

theorem slotFor_isSome_iff :
    (t.slotFor name).isSome ↔ t.Has name ∨ ∃ i, t.slots i = none := by
  rw [Table.slotFor, Option.isSome_or, Bool.or_eq_true]
  refine or_congr ?_ ?_
  · rw [Option.isSome_iff_ne_none, ne_eq, position_eq_none_iff, not_not]
  · rw [Table.free, List.find?_isSome]
    simp [mem_finRange]

/-- **What `set` does.** -/
theorem set_cases (t : Table) (name value : List UInt8) (exported : Bool) :
    (∃ (i : Fin maxVariables) (h : Variable.Fits ⟨name, value, exported⟩), t.slotFor name = some i ∧
      (t.set name value exported).2.slots = Function.update t.slots i (some ⟨_, h⟩)) ∨
    (¬ (Variable.Fits ⟨name, value, exported⟩ ∧ (t.slotFor name).isSome) ∧
      (t.set name value exported).2 = t) := by
  by_cases h : Variable.Fits ⟨name, value, exported⟩
  · cases hslot : t.slotFor name with
    | some i =>
      refine .inl ⟨i, h, rfl, ?_⟩
      rw [Table.slotFor] at hslot
      rw [Table.set, dif_pos h, hslot]
    | none =>
      refine .inr ⟨by simp, ?_⟩
      rw [Table.slotFor] at hslot
      rw [Table.set, dif_pos h, hslot]
  · refine .inr ⟨fun hboth => h hboth.1, ?_⟩
    rw [Table.set, dif_neg h]

theorem get_set_self (h : Variable.Fits ⟨name, value, exported⟩) (hslot : (t.slotFor name).isSome) :
    (t.set name value exported).2.get name = some value := by
  rcases set_cases t name value exported with ⟨i, h, hi, heq⟩ | ⟨hnot, -⟩
  · obtain ⟨before, after, hsplit, hbefore⟩ := slotFor_before hi
    have hnodup : (before ++ i :: after).Nodup := hsplit ▸ nodup_finRange maxVariables
    have hposition : (t.set name value exported).2.position name = some i := by
      rw [Table.position, heq]
      refine List.find?_eq_some_iff_append.mpr ⟨by simp, before, after, hsplit, fun j hj => ?_⟩
      have hne : j ≠ i := (nodup_append.mp hnodup).2.2 j hj i mem_cons_self
      rw [update_of_ne hne, Bool.not_eq_true', Bool.eq_false_iff, ne_eq, any_name_iff]
      exact hbefore j hj
    rw [Table.get, hposition, heq]
    simp
  · exact absurd ⟨h, hslot⟩ hnot

/-! ### What keeps a name -/

theorem has_set_self (h : Variable.Fits ⟨name, value, exported⟩) (hslot : (t.slotFor name).isSome) :
    (t.set name value exported).2.Has name := by
  rcases set_cases t name value exported with ⟨i, h, hi, heq⟩ | ⟨hnot, -⟩
  · exact ⟨i, by simp [heq, nameOf]⟩
  · exact absurd ⟨h, hslot⟩ hnot

/-- `set` takes no slot from another name. -/
theorem Table.Has.set (h : t.Has other) (name value : List UInt8) (exported : Bool) :
    (t.set name value exported).2.Has other := by
  rcases set_cases t name value exported with ⟨i, hfits, hi, heq⟩ | ⟨-, heq⟩
  · obtain ⟨j, hj⟩ := h
    rw [Table.Has, heq]
    by_cases hji : j = i
    · subst hji
      rcases slotFor_eq_some hi with hname | hnone
      · obtain rfl := Option.some.inj (hname.symm.trans hj)
        exact ⟨j, by simp [nameOf]⟩
      · rw [hnone] at hj
        exact absurd hj (by simp [nameOf])
    · exact ⟨j, by rwa [update_of_ne hji]⟩
  · rwa [heq]

/-- `unset` leaves a slot. -/
theorem slotFor_unset (h : (t.slotFor other).isSome) (name : List UInt8) :
    ((t.unset name).slotFor other).isSome := by
  unfold Table.unset
  split
  · exact slotFor_isSome_iff.mpr (.inr ⟨_, update_self ..⟩)
  · exact h

/-! ### What a program finds -/

/-- `PWD` in the strings that a program gets: what comes after `PWD=` in the first one of them that
has it. -/
def passed (t : Table) : Option (List UInt8) :=
  t.texts.findSome? fun text => stripPrefix text.1 (pwdName ++ [61])

/-- `PWD` in the string of a slot. -/
def offer (slot : Option {v : Variable // v.Fits}) : Option (List UInt8) :=
  (slot.filter (·.1.exported)).bind fun v => stripPrefix (pairText v).1 (pwdName ++ [61])

/-- The first slot that offers `PWD` does. -/
theorem passed_eq (t : Table) :
    passed t = (List.finRange maxVariables).findSome? fun i => offer (t.slots i) := by
  have hslots : ∀ slots : List (Fin maxVariables),
      (((slots.filterMap t.slots).filter (·.1.exported)).map pairText).findSome?
          (fun text => stripPrefix text.1 (pwdName ++ [61])) =
        slots.findSome? fun i => offer (t.slots i) := by
    intro slots
    induction slots with
    | nil => rfl
    | cons i slots ih =>
      rw [List.findSome?_cons, ← ih]
      cases hslot : t.slots i with
      | none => simp [hslot, offer]
      | some v =>
        by_cases hexported : v.1.exported
        · simp [hslot, offer, hexported, Option.filter, List.findSome?_cons]
        · simp [hslot, offer, hexported, Option.filter]
  rw [passed, texts_eq]
  exact hslots _

/-- A name ends before its `=`. -/
theorem takeWhile_pair (v : {v : Variable // v.Fits}) :
    (pair v).takeWhile (· != 61) = v.1.name := by
  have hname : ∀ b ∈ v.1.name, (b != 61) = true := by
    intro b hb
    have hvalid := v.2.1
    rw [bne_iff_ne]
    rintro rfl
    cases hsplit : v.1.name with
    | nil => exact absurd (hsplit ▸ hb) not_mem_nil
    | cons first rest =>
      rw [hsplit] at hvalid hb
      simp only [validName, Bool.and_eq_true, all_eq_true] at hvalid
      rcases mem_cons.mp hb with rfl | hb
      · exact absurd hvalid.1 (by decide)
      · exact absurd (hvalid.2 61 hb) (by decide)
  rw [pair, takeWhile_append_of_pos hname]
  simp

/-- Only a variable `PWD` is offered. -/
theorem offer_eq_some (h : offer slot = some value) :
    nameOf slot = some pwdName ∧ value.length ≤ valueSize := by
  obtain ⟨v, hv, hstrip⟩ := Option.bind_eq_some_iff.mp h
  obtain ⟨rfl, -⟩ := Option.filter_eq_some_iff.mp hv
  rw [stripPrefix_eq_some] at hstrip
  have htext : (pairText v).1 = pair v := by
    rw [pairText, fromUtf8]
    split
    · rfl
    · rename_i hutf
      rw [pairText, fromUtf8, dif_neg hutf] at hstrip
      exact absurd hstrip (by simp)
  rw [htext] at hstrip
  have hname : v.1.name = pwdName := by
    rw [← takeWhile_pair, hstrip]
    rfl
  have hvalue : v.1.value = value := by
    rw [pair, hname, append_assoc] at hstrip
    exact List.cons.inj (append_cancel_left hstrip) |>.2
  exact ⟨congrArg some hname, hvalue ▸ v.2.2.2⟩

theorem offer_eq_none (h : nameOf slot ≠ some pwdName) : offer slot = none :=
  Option.eq_none_iff_forall_not_mem.mpr fun _ hvalue => h (offer_eq_some hvalue).1

/-- A variable `PWD` that is exported is offered, if its value is a string. -/
theorem offer_pwd (h : Variable.Fits ⟨pwdName, value, true⟩) (hutf : validUtf8 value) :
    offer (some ⟨_, h⟩) = some value := by
  have hpair : validUtf8 (pair ⟨_, h⟩) := by rwa [validUtf8_pair]
  have htext : pairText ⟨_, h⟩ = ⟨pair ⟨_, h⟩, hpair⟩ := by simp [pairText, fromUtf8, hpair]
  have hbind : offer (some ⟨_, h⟩) =
      stripPrefix (pairText ⟨⟨pwdName, value, true⟩, h⟩).1 (pwdName ++ [61]) := rfl
  rw [hbind, htext, stripPrefix_eq_some]
  simp [pair]

theorem passed_congr {t' : Table} (h : ∀ i, offer (t'.slots i) = offer (t.slots i)) :
    passed t' = passed t := by
  rw [passed_eq, passed_eq, funext h]

/-- Other variables do not matter to `PWD`. -/
theorem passed_set_other (hname : name ≠ pwdName) (value : List UInt8) (exported : Bool) :
    passed (t.set name value exported).2 = passed t := by
  rcases set_cases t name value exported with ⟨i, hfits, hi, heq⟩ | ⟨-, heq⟩
  · refine passed_congr fun j => ?_
    rw [heq]
    by_cases hji : j = i
    · subst hji
      have hnew : nameOf (some ⟨_, hfits⟩) ≠ some pwdName := fun h => hname (Option.some.inj h)
      rw [update_self, offer_eq_none hnew]
      refine (offer_eq_none fun hold => ?_).symm
      rcases slotFor_eq_some hi with h | h
      · exact hname (Option.some.inj (h.symm.trans hold))
      · rw [h] at hold
        exact absurd hold (by simp [nameOf])
    · rw [update_of_ne hji]
  · rw [heq]

theorem passed_unset_other (hname : name ≠ pwdName) : passed (t.unset name) = passed t := by
  unfold Table.unset
  split
  · rename_i i hi
    refine passed_congr fun j => ?_
    by_cases hji : j = i
    · subst hji
      have hold : nameOf (t.slots j) ≠ some pwdName := fun h =>
        hname (Option.some.inj ((position_eq_some hi).1.symm.trans h))
      rw [offer_eq_none hold]
      simp [offer]
    · simp [update_of_ne hji]
  · rfl

/-- **`PWD` is what it was set to** if the value fits, and if there is a slot for it. -/
theorem passed_set_pwd_iff (hutf : validUtf8 value) :
    passed (t.set pwdName value true).2 = some value ↔
      value.length ≤ valueSize ∧ (t.slotFor pwdName).isSome := by
  have hfits_iff : Variable.Fits ⟨pwdName, value, true⟩ ↔ value.length ≤ valueSize :=
    ⟨fun h => h.2.2, fun h =>
      ⟨(by decide : validName pwdName), (by decide : pwdName.length ≤ nameSize), h⟩⟩
  rw [← hfits_iff]
  rcases set_cases t pwdName value true with ⟨i, hfits, hi, heq⟩ | ⟨hnot, heq⟩
  · refine iff_of_true ?_ ⟨hfits, by rw [hi]; rfl⟩
    obtain ⟨before, after, hsplit, hbefore⟩ := slotFor_before hi
    have hnodup : (before ++ i :: after).Nodup := hsplit ▸ nodup_finRange maxVariables
    rw [passed_eq, List.findSome?_eq_some_iff]
    refine ⟨before, i, after, hsplit, ?_, fun j hj => ?_⟩
    · rw [heq, update_self, offer_pwd hfits hutf]
    · have hne : j ≠ i := (nodup_append.mp hnodup).2.2 j hj i mem_cons_self
      rw [heq, update_of_ne hne]
      exact offer_eq_none (hbefore j hj)
  · refine iff_of_false (fun h => hnot ?_) hnot
    rw [heq, passed_eq, List.findSome?_eq_some_iff] at h
    obtain ⟨-, i, -, -, hi, -⟩ := h
    obtain ⟨hname, hlen⟩ := offer_eq_some hi
    exact ⟨hfits_iff.mpr hlen, slotFor_isSome_iff.mpr (.inl ⟨i, hname⟩)⟩

/-! ### Changes -/

/-- The name in a field after `export`. -/
def fieldName (field : List UInt8) : List UInt8 := field.takeWhile (· != 61)

/-- The name that a change is about. -/
def Change.target : Change → List UInt8
  | .assign name _ _ => name
  | .exportField field => fieldName field
  | .unset name => name
  | .setStatus _ => [63]

theorem fieldName_of_idxOf {field : List UInt8} {equal : ℕ} (h : field.idxOf? 61 = some equal) :
    field.take equal = fieldName field := by
  induction field generalizing equal with
  | nil => exact absurd h (by simp)
  | cons b field ih =>
    rw [List.idxOf?_cons] at h
    by_cases hb : b = 61
    · subst hb
      obtain rfl : 0 = equal := by simpa using h
      rfl
    · rw [if_neg (by simpa using hb)] at h
      obtain ⟨k, hk, rfl⟩ := Option.map_eq_some_iff.mp h
      have hcons : fieldName (b :: field) = b :: fieldName field :=
        takeWhile_cons_of_pos (by simpa using hb)
      rw [take_succ_cons, ih hk, hcons]

theorem fieldName_of_idxOf_none {field : List UInt8} (h : field.idxOf? 61 = none) :
    fieldName field = field := by
  refine takeWhile_eq_self_iff.mpr fun b hb => ?_
  rw [bne_iff_ne]
  rintro rfl
  exact List.idxOf?_eq_none_iff.mp h hb

/-- `export` sets the name of its field, or nothing. -/
theorem builtinExport_cases (field : List UInt8) (t : Table) :
    builtinExport field t = t ∨
      ∃ value, builtinExport field t = (t.set (fieldName field) value true).2 := by
  unfold builtinExport
  split
  · exact .inl rfl
  · split
    · rename_i equal hequal
      rw [← fieldName_of_idxOf hequal]
      exact .inr ⟨_, rfl⟩
    · rename_i hnone
      exact .inr ⟨_, by rw [fieldName_of_idxOf_none hnone]⟩

/-- A change that is no `unset` leaves every name. -/
theorem Change.has_apply {change : Change} (hunset : ∀ name, change ≠ .unset name)
    (h : t.Has other) : (change.apply t).Has other := by
  cases change with
  | assign name value exported => exact h.set name value exported
  | exportField field =>
    have happly : (Change.exportField field).apply t = builtinExport field t := rfl
    rcases builtinExport_cases field t with heq | ⟨value, heq⟩
    · rwa [happly, heq]
    · rw [happly, heq]
      exact h.set _ value true
  | unset name => exact absurd rfl (hunset name)
  | setStatus status => exact h.set _ _ true

/-- A change of another name leaves `PWD`. -/
theorem Change.passed_apply {change : Change} (hname : change.target ≠ pwdName) :
    passed (change.apply t) = passed t := by
  cases change with
  | assign name value exported => exact passed_set_other hname value exported
  | exportField field =>
    rcases builtinExport_cases field t with heq | ⟨value, heq⟩
    · exact congrArg passed heq
    · exact (congrArg passed heq).trans (passed_set_other hname value true)
  | unset name => exact passed_unset_other hname
  | setStatus status => exact passed_set_other hname _ true

variable {changes : List Change}

theorem has_run (hunset : ∀ name, .unset name ∉ changes)
    (h : t.Has other) : (run changes t).Has other := by
  induction changes generalizing t with
  | nil => exact h
  | cons change changes ih =>
    simp only [mem_cons, not_or] at hunset
    refine ih (fun name => (hunset name).2) (Change.has_apply (fun name heq => ?_) h)
    exact (hunset name).1 heq.symm

theorem passed_run (h : ∀ change ∈ changes, change.target ≠ pwdName) :
    passed (run changes t) = passed t := by
  induction changes generalizing t with
  | nil => rfl
  | cons change changes ih =>
    rw [forall_mem_cons] at h
    exact (ih h.2).trans (Change.passed_apply h.1)

theorem slotFor_run_unset (names : List (List UInt8)) (h : (t.slotFor other).isSome) :
    ((run (names.map .unset) t).slotFor other).isSome := by
  induction names generalizing t with
  | nil => exact h
  | cons name names ih => exact ih (slotFor_unset h name)

/-! ### `$?` -/

/-- A number in decimal. -/
def decimalText (n : ℕ) : List UInt8 := (Nat.toDigits 10 n).map fun c => UInt8.ofNat c.toNat

/-- The word `$?`, bare or between double quotes. -/
def statusWord (kind : SegmentKind) : Word := ⟨[⟨[dollar, 63], kind, true⟩]⟩

example : tokenize [36, 63] = .ok [.word (statusWord .unquoted)] := by rfl

theorem formatDecimal_byte : ∀ n < 256, Table.formatDecimal n = decimalText n ∧
    (decimalText n).length ≤ fieldSize ∧ splitFields (decimalText n) = [decimalText n] := by
  decide +kernel

theorem emod_byte (status : Status) : (status % 256).toNat < 256 := by omega

/-- The slot for `$?` gets the status. -/
theorem status_set (h : (t.slotFor [63]).isSome) (status : Status) :
    (t.setStatus status).get [63] = some (decimalText (status % 256).toNat) ∧
      (t.setStatus status).Has [63] := by
  obtain ⟨hformat, hlen, -⟩ := formatDecimal_byte _ (emod_byte status)
  have hfits : Variable.Fits ⟨[63], decimalText (status % 256).toNat, true⟩ :=
    ⟨(by decide : validName [63]), (by decide : [(63 : UInt8)].length ≤ nameSize),
      hlen.trans (by decide)⟩
  rw [Table.setStatus, hformat]
  exact ⟨get_set_self hfits h, has_set_self hfits h⟩

/-- `$?` is expanded to the variable. -/
theorem expand_statusWord {status : Status}
    (h : t.get [63] = some (decimalText (status % 256).toNat)) (kind : SegmentKind) :
    expand t.toEnvironment (statusWord kind) = [decimalText (status % 256).toNat] := by
  obtain ⟨-, hlen, hsplit⟩ := formatDecimal_byte _ (emod_byte status)
  have hbytes : expandBytes t.toEnvironment 0 [dollar, 63] = decimalText (status % 256).toNat := by
    have hget : (t.toEnvironment.get [63]).getD [] = decimalText (status % 256).toNat := by
      rw [Table.get_toEnvironment, h, Option.getD_some]
    simpa [expandBytes, parseReference] using hget
  have hsegment : expandSegment t.toEnvironment ⟨[dollar, 63], kind, true⟩ [] =
      decimalText (status % 256).toNat := by
    rw [expandSegment, hbytes, nil_append, take_of_length_le hlen]
  have hpush : pushField [] (decimalText (status % 256).toNat) =
      [decimalText (status % 256).toNat] := by
    rw [pushField, if_neg (by simp [maxFields, Nat.not_lt.mpr hlen]), nil_append]
  simp [expand, statusWord, expandSegments, hsegment, hsplit, hpush]

/-! ### Pipelines -/

/-- The shell itself calls a builtin: the pipeline is one command, whose first word names it. -/
structure Calls (s : ExecutorState) (pipeline : Pipeline) (builtin : Builtin) (command : Command) :
    Prop where
  alone : pipeline.commands = [command]
  named : (firstWord s.table command).bind Builtin.ofName = some builtin

/-- The fields of `export`, where each word is expanded after the words before. -/
def exportedFields : Table → List Word → List (List UInt8)
  | _, [] => []
  | t, word :: words =>
    let fields := expand t.toEnvironment word
    fields ++ exportedFields (run (fields.map .exportField) t) words

/-- What a pipeline changes besides `cd`. -/
inductive Quiet (s : ExecutorState) (pipeline : Pipeline) : List Change → Prop
  | nothing : Quiet s pipeline []
  | export_ {command : Command} (hcalls : Calls s pipeline .export_ command) :
      Quiet s pipeline ((exportedFields s.table command.words.tail).map .exportField)
  | unset {command : Command} (hcalls : Calls s pipeline .unset command) :
      Quiet s pipeline ((command.words.tail.filterMap Word.literalBytes).map .unset)

/-- What a pipeline does to the variables and to the directory. -/
inductive Effect (s : ExecutorState) (pipeline : Pipeline) (r : Status × ExecutorState) : Prop
  | cd {command : Command} {directory : Str} (hcalls : Calls s pipeline .cd command)
      (hdirectory : cdDirectory s.table s.cwd command.words.tail = .ok directory)
      (htable : r.2.table = (s.table.set pwdName directory.1 true).2)
      (hcwd : r.2.cwd = directory.1)
  | other {changes : List Change} (hchanges : Quiet s pipeline changes)
      (htable : r.2.table = run changes s.table) (hcwd : r.2.cwd = s.cwd)
      (hcd : ∀ command, Calls s pipeline .cd command → r.1 ≠ statusSuccess)

section Effect

variable {s : ExecutorState} {pipeline : Pipeline} {command : Command}

theorem failure_ne_success : statusFailure ≠ statusSuccess := by decide

theorem exportField_table (s : ExecutorState) (fields : List (List UInt8)) :
    (fields.foldl ExecutorState.exportField s).table = run (fields.map .exportField) s.table ∧
      (fields.foldl ExecutorState.exportField s).cwd = s.cwd := by
  induction fields generalizing s with
  | nil => exact ⟨rfl, rfl⟩
  | cons field fields ih => exact ih (s.exportField field)

theorem run_append (changes changes' : List Change) (t : Table) :
    run (changes ++ changes') t = run changes' (run changes t) := foldl_append

theorem builtinExport_table (s : ExecutorState) (arguments : List Word) :
    (s.builtinExport arguments).2.table =
        run ((exportedFields s.table arguments).map .exportField) s.table ∧
      (s.builtinExport arguments).2.cwd = s.cwd := by
  have hwords : ∀ (words : List Word) (s : ExecutorState),
      (words.foldl (fun s word =>
          (expand s.table.toEnvironment word).foldl ExecutorState.exportField s) s).table =
        run ((exportedFields s.table words).map .exportField) s.table ∧
      (words.foldl (fun s word =>
          (expand s.table.toEnvironment word).foldl ExecutorState.exportField s) s).cwd =
        s.cwd := by
    intro words
    induction words with
    | nil => exact fun s => ⟨rfl, rfl⟩
    | cons word words ih =>
      intro s
      obtain ⟨htable, hcwd⟩ := exportField_table s (expand s.table.toEnvironment word)
      obtain ⟨ihtable, ihcwd⟩ := ih
        ((expand s.table.toEnvironment word).foldl ExecutorState.exportField s)
      rw [htable] at ihtable
      rw [foldl_cons, exportedFields, map_append, run_append]
      exact ⟨ihtable, ihcwd.trans hcwd⟩
  unfold ExecutorState.builtinExport
  split
  · rename_i hnil
    subst hnil
    exact ⟨rfl, rfl⟩
  · exact hwords arguments s

theorem run_unset (names : List (List UInt8)) (t : Table) :
    run (names.map .unset) t = names.foldl Table.unset t := by
  rw [run, foldl_map]
  rfl

/-- Where the shell calls a builtin that is not `cd`, it does not change the directory. -/
theorem Effect.of_quiet {builtin : Builtin} (hcalls : Calls s pipeline builtin command)
    (hne : builtin ≠ .cd) {r : Status × ExecutorState}
    (hchanges : Quiet s pipeline changes) (htable : r.2.table = run changes s.table)
    (hcwd : r.2.cwd = s.cwd) : Effect s pipeline r := by
  refine .other hchanges htable hcwd fun other hother => ?_
  obtain rfl : command = other :=
    singleton_injective (hcalls.alone.symm.trans hother.alone)
  exact absurd (Option.some.inj (hcalls.named.symm.trans hother.named)) hne

theorem Effect.of_cd (hcalls : Calls s pipeline .cd command) (outside : Outside) :
    Effect s pipeline (s.builtinCd outside command.words.tail) := by
  have hfailed : ∀ output, Effect s pipeline (statusFailure, s.write output) := fun output =>
    .other .nothing rfl rfl fun _ _ => failure_ne_success
  unfold ExecutorState.builtinCd
  split
  · exact hfailed _
  · rename_i directory hdirectory
    split
    · exact .cd hcalls hdirectory rfl rfl
    · exact hfailed _
    · exact hfailed _

theorem Effect.of_call {builtin : Builtin} (hcalls : Calls s pipeline builtin command)
    (outside : Outside) : Effect s pipeline (s.call outside command.words.tail builtin) := by
  cases builtin with
  | cd => exact .of_cd hcalls outside
  | export_ =>
    obtain ⟨htable, hcwd⟩ := builtinExport_table s command.words.tail
    exact .of_quiet hcalls (by decide) (.export_ hcalls) htable hcwd
  | unset => exact .of_quiet hcalls (by decide) (.unset hcalls) (run_unset _ _).symm rfl
  | pwd | echo | set | exit | true_ | false_ | help =>
    exact .of_quiet hcalls (by decide) .nothing rfl rfl

/-- A command alone: a builtin is called, or the shell stays as it is. -/
theorem Effect.of_runSingle (halone : pipeline.commands = [command]) (outside : Outside) :
    Effect s pipeline (s.runSingle outside command) := by
  have hcall : ∀ builtin, (firstWord s.table command).bind Builtin.ofName = some builtin →
      ∀ r, Effect s pipeline ((s.runBuiltin outside command).getD r) := by
    intro builtin hnamed r
    rw [ExecutorState.runBuiltin, hnamed]
    exact .of_call ⟨halone, hnamed⟩ outside
  have hexternal : (firstWord s.table command).bind Builtin.ofName = none →
      ∀ r : Status × ExecutorState, r.2.table = s.table → r.2.cwd = s.cwd →
        Effect s pipeline r := by
    intro hnamed r htable hcwd
    refine .other .nothing htable hcwd fun other hother => ?_
    obtain rfl : command = other := singleton_injective (halone.symm.trans hother.alone)
    exact absurd (hnamed.symm.trans hother.named) (by simp)
  have hname : (firstWord s.table command).any isBuiltinName =
      ((firstWord s.table command).bind Builtin.ofName).isSome := by
    cases firstWord s.table command with
    | none => rfl
    | some name => exact isBuiltinName_eq name
  unfold ExecutorState.runSingle
  rw [hname]
  cases hnamed : (firstWord s.table command).bind Builtin.ofName with
  | none =>
    have hnone : s.runBuiltin outside command = none := by
      rw [ExecutorState.runBuiltin, hnamed, Option.map_none]
    rw [hnone]
    split
    · exact hexternal hnamed _ rfl rfl
    · exact hexternal hnamed _ rfl rfl
  | some builtin =>
    split
    · rw [Option.isSome_some, if_pos rfl]
      split
      · exact .other .nothing rfl rfl fun _ _ => failure_ne_success
      · exact hcall builtin hnamed _
    · exact hcall builtin hnamed _

/-- **What a pipeline does to the shell.** -/
theorem Effect.of_runPipeline (s : ExecutorState) (outside : Outside) (pipeline : Pipeline) :
    Effect s pipeline (s.runPipeline outside pipeline) := by
  have hstages : (∀ command, pipeline.commands ≠ [command]) → ∀ r : Status × ExecutorState,
      r.2.table = s.table → r.2.cwd = s.cwd → Effect s pipeline r := fun hne r htable hcwd =>
    .other .nothing htable hcwd fun command hcalls => absurd hcalls.alone (hne command)
  unfold ExecutorState.runPipeline
  split
  · rename_i hnil
    exact hstages (by simp [hnil]) _ rfl rfl
  · rename_i command halone
    exact .of_runSingle halone outside
  · rename_i hmany
    split
    · exact hstages hmany _ rfl rfl
    · exact hstages hmany _ rfl rfl

end Effect

/-! ### Steps -/

/-- `cd` can set `PWD` to the directory that it asks for: it fits, and there is a slot. -/
def PwdFits (s : ExecutorState) (command : Command) : Prop :=
  ∀ directory, cdDirectory s.table s.cwd command.words.tail = .ok directory →
    directory.1.length ≤ valueSize ∧ (s.table.slotFor pwdName).isSome

/-- A pipeline leaves `PWD` to `cd`, which can set it. -/
structure LeavesPwd (s : ExecutorState) (outside : Outside) (pipeline : Pipeline) : Prop where
  cd : ∀ command, Calls s pipeline .cd command → PwdFits s command
  export_ : ∀ command, Calls s pipeline .export_ command →
    ∀ field ∈ exportedFields s.table command.words.tail, fieldName field ≠ pwdName
  unset : ∀ command, Calls s pipeline .unset command →
    pwdName ∉ command.words.tail.filterMap Word.literalBytes

section Steps

variable {s : ExecutorState} {outside : Outside} {pipeline : Pipeline} {identity : Option Identity}

theorem slotFor_runPipeline (h : s.table.Has [63]) (outside : Outside) (pipeline : Pipeline) :
    ((s.runPipeline outside pipeline).2.table.slotFor [63]).isSome := by
  have hslot := slotFor_isSome_iff.mpr (.inl h)
  cases Effect.of_runPipeline s outside pipeline with
  | cd hcalls hdirectory htable hcwd =>
    rw [htable]
    exact slotFor_isSome_iff.mpr (.inl (h.set _ _ true))
  | other hchanges htable hcwd hcd =>
    rw [htable]
    cases hchanges with
    | nothing => exact hslot
    | export_ hcalls =>
      refine slotFor_isSome_iff.mpr (.inl (has_run (fun name hmem => ?_) h))
      obtain ⟨field, -, hfield⟩ := mem_map.mp hmem
      cases hfield
    | unset hcalls => exact slotFor_run_unset _ hslot

/-- After a step, `$?` has the status. -/
theorem status_execute (h : s.table.Has [63]) (outside : Outside) (pipeline : Pipeline) :
    (s.execute outside pipeline).2.table.get [63] =
        some (decimalText ((s.execute outside pipeline).1 % 256).toNat) ∧
      (s.execute outside pipeline).2.table.Has [63] :=
  status_set (slotFor_runPipeline h outside pipeline) _

theorem has_start (identity : Option Identity) : (ExecutorState.start identity).table.Has [63] := by
  have hnew : Table.new.Has [63] := ⟨⟨4, by decide⟩, by decide +kernel⟩
  unfold ExecutorState.start
  split
  · exact hnew
  · dsimp only
    split
    · exact (hnew.set ..).set ..
    · exact ((hnew.set ..).set ..).set ..

/-- In every state that is reached, `$?` is set. -/
theorem has_steps {allowed : ExecutorState → Outside → Pipeline → Prop}
    (h : Steps allowed (.start identity) s) : s.table.Has [63] := by
  induction h with
  | refl => exact has_start identity
  | step _ _ outside pipeline _ ih => exact (status_execute ih outside pipeline).2

/-- The status leaves `PWD`. -/
theorem passed_execute (s : ExecutorState) (outside : Outside) (pipeline : Pipeline) :
    passed (s.execute outside pipeline).2.table =
        passed (s.runPipeline outside pipeline).2.table ∧
      (s.execute outside pipeline).2.cwd = (s.runPipeline outside pipeline).2.cwd :=
  ⟨passed_set_other (by decide) _ _, rfl⟩

/-- After a `cd` that succeeds, `PWD` is the directory if it could be set to it. -/
theorem passed_execute_cd_iff {command : Command} (hcalls : Calls s pipeline .cd command)
    (hstatus : (s.execute outside pipeline).1 = statusSuccess) :
    passed (s.execute outside pipeline).2.table = some (s.execute outside pipeline).2.cwd ↔
      PwdFits s command := by
  obtain ⟨hpassed, hcwd⟩ := passed_execute s outside pipeline
  rw [hpassed, hcwd]
  cases Effect.of_runPipeline s outside pipeline with
  | @cd other directory hother hdirectory htable hcwd =>
    obtain rfl : command = other := singleton_injective (hcalls.alone.symm.trans hother.alone)
    rw [htable, hcwd, passed_set_pwd_iff directory.2, PwdFits, hdirectory]
    exact ⟨fun h _ heq => Except.ok.inj heq ▸ h, fun h => h _ rfl⟩
  | other hchanges htable hcwd hcd => exact absurd hstatus (hcd command hcalls)

/-- A step that leaves `PWD` to `cd` keeps it in step. -/
theorem LeavesPwd.passed_execute (h : LeavesPwd s outside pipeline)
    (hpassed : passed s.table = some s.cwd) :
    passed (s.execute outside pipeline).2.table = some (s.execute outside pipeline).2.cwd := by
  obtain ⟨htable', hcwd'⟩ := Shell.passed_execute s outside pipeline
  rw [htable', hcwd']
  cases Effect.of_runPipeline s outside pipeline with
  | @cd command directory hcalls hdirectory htable hcwd =>
    rw [htable, hcwd]
    exact (passed_set_pwd_iff directory.2).mpr (h.cd command hcalls directory hdirectory)
  | other hchanges htable hcwd hcd =>
    rw [htable, hcwd, ← hpassed]
    refine passed_run fun change hchange => ?_
    cases hchanges with
    | nothing => exact absurd hchange not_mem_nil
    | export_ hcalls =>
      obtain ⟨field, hfield, rfl⟩ := mem_map.mp hchange
      exact h.export_ _ hcalls field hfield
    | unset hcalls =>
      obtain ⟨name, hname, rfl⟩ := mem_map.mp hchange
      exact fun heq => h.unset _ hcalls (heq ▸ hname)

theorem passed_start (identity : Option Identity) :
    passed (ExecutorState.start identity).table = some [slash] := by
  have hnew : passed Table.new = some [slash] := by decide +kernel
  unfold ExecutorState.start
  split
  · exact hnew
  · dsimp only
    split
    · rw [passed_set_other (by decide), passed_set_other (by decide), hnew]
    · rw [passed_set_other (by decide), passed_set_other (by decide),
        passed_set_other (by decide), hnew]

theorem passed_steps (h : Steps LeavesPwd (.start identity) s) :
    passed s.table = some s.cwd := by
  induction h with
  | refl => exact passed_start identity
  | step _ _ outside pipeline hleaves ih => exact hleaves.passed_execute ih

/-- **The special variables.** Whatever ran before, `$?` is the status of the last pipeline, and
after a `cd` that succeeds `PWD` is the directory of the shell exactly if it could be set to it.
Where it always can, and no other command sets it, the two are always the same. -/
theorem specials_in_step (identity : Option Identity) :
    (∀ s, Steps (fun _ _ _ => True) (.start identity) s → s.shouldExit = false →
      ∀ outside pipeline,
        (∀ kind, expand (s.execute outside pipeline).2.table.toEnvironment (statusWord kind) =
          [decimalText ((s.execute outside pipeline).1 % 256).toNat]) ∧
        ∀ command, Calls s pipeline .cd command →
          (s.execute outside pipeline).1 = statusSuccess →
            (passed (s.execute outside pipeline).2.table =
              some (s.execute outside pipeline).2.cwd ↔ PwdFits s command)) ∧
    ∀ s, Steps LeavesPwd (.start identity) s → passed s.table = some s.cwd := by
  refine ⟨fun s hs _ outside pipeline => ⟨?_, fun command hcalls => ?_⟩, fun s => passed_steps⟩
  · exact expand_statusWord (status_execute (has_steps hs) outside pipeline).1
  · exact passed_execute_cd_iff hcalls

/-- The line `cd`, with a path of 61 bytes that is absolute or not. -/
def cdLong (absolute : Bool) : Command where
  words := [⟨[⟨[99, 100], .unquoted, false⟩]⟩,
    ⟨[⟨(if absolute then [slash] else []) ++ List.replicate 60 97, .unquoted, false⟩]⟩]
  stdin := none
  stdout := none
  append := false

/-- Every directory is there. -/
def everyDirectory : Outside := ⟨fun _ => some true, none, (statusFailure, [])⟩

/-- After two directories of 60 bytes, `PWD` is still the first one. -/
theorem directory_not_passed :
    ¬ ∀ identity s, Steps (fun _ _ _ => True) (.start identity) s → s.shouldExit = false →
      ∀ outside pipeline command, Calls s pipeline .cd command →
        (s.execute outside pipeline).1 = statusSuccess →
          passed (s.execute outside pipeline).2.table =
            some (s.execute outside pipeline).2.cwd := by
  intro hclaim
  have h := hclaim none
    ((ExecutorState.start none).execute everyDirectory ⟨[cdLong true]⟩).2
    (.step .refl rfl everyDirectory ⟨[cdLong true]⟩ trivial) (by decide +kernel) everyDirectory
    ⟨[cdLong false]⟩ (cdLong false) ⟨rfl, by decide +kernel⟩ (by decide +kernel)
  exact absurd h (by decide +kernel)

end Steps

end ImagineOS.Shell
