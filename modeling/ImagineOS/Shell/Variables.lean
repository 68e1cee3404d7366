import ImagineOS.Shell.Special

/-!
# Shell: the variables are a finite map

Slots are taken again, and a name is looked for slot by slot. Still a name has one variable at most:
the one that was stored last under the name, if no `unset` took it out.
-/

namespace ImagineOS.Shell

open Function Option

variable {t : Table} {name other value : List UInt8} {exported : Bool} {v : Variable}

/-- The variable of a name. -/
def Table.lookup (t : Table) (name : List UInt8) : Option Variable :=
  (t.position name).bind fun slot => (t.slots slot).map (·.1)

/-- No two slots have one name. -/
def Table.Unique (t : Table) : Prop :=
  ∀ i j name, nameOf (t.slots i) = some name → nameOf (t.slots j) = some name → i = j

theorem get_eq_lookup (t : Table) (name : List UInt8) :
    t.get name = (t.lookup name).map Variable.value := by
  rw [Table.get, Table.lookup, map_bind]
  simp only [map_map, comp_def]

theorem nameOf_of_map {slot : Option {v : Variable // v.Fits}} (h : slot.map (·.1) = some v) :
    nameOf slot = some v.name := by
  obtain ⟨w, rfl, rfl⟩ := map_eq_some_iff.mp h
  rfl

theorem lookup_eq_some_iff (h : t.Unique) :
    t.lookup name = some v ↔ v.name = name ∧ ∃ i, (t.slots i).map (·.1) = some v := by
  constructor
  · intro hv
    obtain ⟨i, hi, hv⟩ := bind_eq_some_iff.mp hv
    have hname := (position_eq_some hi).1
    rw [nameOf_of_map hv] at hname
    exact ⟨Option.some.inj hname, i, hv⟩
  · rintro ⟨rfl, i, hi⟩
    cases hposition : t.position v.name with
    | none => exact absurd ⟨i, nameOf_of_map hi⟩ (position_eq_none_iff.mp hposition)
    | some j =>
      obtain rfl := h j i v.name (position_eq_some hposition).1 (nameOf_of_map hi)
      rw [Table.lookup, hposition]
      exact hi

/-! ### One operation -/

theorem set_fst_iff : (t.set name value exported).1 = true ↔
    Variable.Fits ⟨name, value, exported⟩ ∧ (t.Has name ∨ ∃ i, t.slots i = none) := by
  rw [← slotFor_isSome_iff, Table.slotFor, Table.set]
  split
  · rename_i hfits
    cases (t.position name).or t.free <;> simp [hfits]
  · rename_i hfits
    simp [hfits]

/-- **What is refused changes nothing.** -/
theorem set_of_refused (h : (t.set name value exported).1 = false) :
    (t.set name value exported).2 = t := by
  rcases set_cases t name value exported with ⟨i, hfits, hi, -⟩ | ⟨-, heq⟩
  · have haccepted := set_fst_iff.mpr
      ⟨hfits, slotFor_isSome_iff.mp (isSome_iff_exists.mpr ⟨i, hi⟩)⟩
    exact absurd (h.symm.trans haccepted) nofun
  · exact heq

/-- **What is accepted** gets a slot that no other name has. -/
theorem set_of_accepted (hunique : t.Unique) (h : (t.set name value exported).1 = true) :
    ∃ i hfits, (t.set name value exported).2.slots =
        Function.update t.slots i (some ⟨⟨name, value, exported⟩, hfits⟩) ∧
      (∀ j, nameOf (t.slots j) = some name → j = i) ∧
      (t.slots i = none ∨ nameOf (t.slots i) = some name) := by
  rcases set_cases t name value exported with ⟨i, hfits, hi, heq⟩ | ⟨hnot, -⟩
  · refine ⟨i, hfits, heq, fun j hj => ?_, (slotFor_eq_some hi).symm⟩
    rcases or_eq_some_iff.mp hi with hposition | ⟨hnone, -⟩
    · exact hunique j i name hj (position_eq_some hposition).1
    · exact absurd ⟨j, hj⟩ (position_eq_none_iff.mp hnone)
  · obtain ⟨hfits, hslot⟩ := set_fst_iff.mp h
    exact absurd ⟨hfits, slotFor_isSome_iff.mpr hslot⟩ hnot

theorem Table.Unique.set (h : t.Unique) (name value : List UInt8) (exported : Bool) :
    (t.set name value exported).2.Unique := by
  cases haccepted : (t.set name value exported).1 with
  | false => rwa [set_of_refused haccepted]
  | true =>
    obtain ⟨i, hfits, heq, hothers, -⟩ := set_of_accepted h haccepted
    intro j k found hj hk
    rw [heq] at hj hk
    by_cases hji : j = i <;> by_cases hki : k = i
    · rw [hji, hki]
    · rw [hji, update_self] at hj
      rw [update_of_ne hki] at hk
      obtain rfl := Option.some.inj hj
      exact absurd (hothers k hk) hki
    · rw [hki, update_self] at hk
      rw [update_of_ne hji] at hj
      obtain rfl := Option.some.inj hk
      exact absurd (hothers j hj) hji
    · rw [update_of_ne hji] at hj
      rw [update_of_ne hki] at hk
      exact h j k found hj hk

theorem lookup_set (hunique : t.Unique) (h : (t.set name value exported).1 = true) :
    (t.set name value exported).2.lookup other =
      if name = other then some ⟨name, value, exported⟩ else t.lookup other := by
  obtain ⟨i, hfits, heq, hothers, hslot⟩ := set_of_accepted hunique h
  refine Option.ext fun v => ?_
  rw [lookup_eq_some_iff (hunique.set name value exported), heq]
  split
  · rename_i hname
    subst hname
    constructor
    · rintro ⟨rfl, j, hj⟩
      by_cases hji : j = i
      · rwa [hji, update_self] at hj
      · rw [update_of_ne hji] at hj
        exact absurd (hothers j (nameOf_of_map hj)) hji
    · intro hv
      obtain rfl := Option.some.inj hv
      exact ⟨rfl, i, by rw [update_self]; rfl⟩
  · rename_i hname
    rw [lookup_eq_some_iff hunique]
    refine and_congr_right fun hv => exists_congr fun j => ?_
    by_cases hji : j = i
    · -- Neither the old variable of the slot nor the new one has the other name.
      subst hji
      rw [update_self]
      refine iff_of_false (fun hj => hname ?_) fun hj => hname ?_
      · obtain rfl := Option.some.inj hj
        exact hv
      · have hfound := nameOf_of_map hj
        rcases hslot with hnone | hslot
        · rw [hnone] at hj
          exact absurd hj nofun
        · exact (Option.some.inj (hslot.symm.trans hfound)).trans hv
    · rw [update_of_ne hji]

/-- **What `unset` does.** -/
theorem unset_cases (t : Table) (name : List UInt8) :
    (∃ i, nameOf (t.slots i) = some name ∧
      (t.unset name).slots = Function.update t.slots i none) ∨
    (¬ t.Has name ∧ t.unset name = t) := by
  cases hposition : t.position name with
  | some i =>
    refine .inl ⟨i, (position_eq_some hposition).1, ?_⟩
    rw [Table.unset, hposition]
  | none =>
    refine .inr ⟨position_eq_none_iff.mp hposition, ?_⟩
    rw [Table.unset, hposition]

theorem Table.Unique.unset (h : t.Unique) (name : List UInt8) : (t.unset name).Unique := by
  rcases unset_cases t name with ⟨i, -, heq⟩ | ⟨-, heq⟩
  · have hslot : ∀ {j found}, nameOf ((t.unset name).slots j) = some found →
        nameOf (t.slots j) = some found := fun {j found} hj => by
      rw [heq, update_apply] at hj
      split at hj
      · exact absurd hj nofun
      · exact hj
    exact fun j k found hj hk => h j k found (hslot hj) (hslot hk)
  · rwa [heq]

theorem lookup_unset (h : t.Unique) :
    (t.unset name).lookup other = if name = other then none else t.lookup other := by
  refine Option.ext fun v => ?_
  rw [lookup_eq_some_iff (h.unset name)]
  rcases unset_cases t name with ⟨i, hi, heq⟩ | ⟨hnone, heq⟩
  · rw [heq]
    split
    · rename_i hname
      subst hname
      refine iff_of_false (fun ⟨hv, j, hj⟩ => ?_) nofun
      by_cases hji : j = i
      · rw [hji, update_self] at hj
        exact absurd hj nofun
      · rw [update_of_ne hji] at hj
        exact hji (h j i name (hv ▸ nameOf_of_map hj) hi)
    · rename_i hname
      rw [lookup_eq_some_iff h]
      refine and_congr_right fun hv => exists_congr fun j => ?_
      by_cases hji : j = i
      · subst hji
        rw [update_self]
        refine iff_of_false nofun fun hj => hname ?_
        exact (Option.some.inj (hi.symm.trans (nameOf_of_map hj))).trans hv
      · rw [update_of_ne hji]
  · rw [heq]
    split
    · rename_i hname
      subst hname
      exact iff_of_false (fun ⟨hv, j, hj⟩ => hnone ⟨j, hv ▸ nameOf_of_map hj⟩) nofun
    · rw [lookup_eq_some_iff h]

/-! ### Runs -/

/-- The variable that a change asks `set` to store. -/
def Change.request (t : Table) : Change → Option Variable
  | .assign name value exported => some ⟨name, value, exported⟩
  | .exportField field =>
    if field.length > fieldSize then none
    else match field.idxOf? 61 with
    | some equal => some ⟨field.take equal, field.drop (equal + 1), true⟩
    | none => some ⟨field, ((t.get field).getD []).take valueSize, true⟩
  | .unset _ => none
  | .setStatus status => some ⟨[63], Table.formatDecimal (status % 256).toNat, true⟩

/-- The variable that a change stores. -/
def Change.stored (change : Change) (t : Table) : Option Variable :=
  (change.request t).filter fun v => (t.set v.name v.value v.exported).1

/-- The change stores a variable under the name, or takes it out. -/
def Change.Touches (change : Change) (t : Table) (name : List UInt8) : Prop :=
  change = .unset name ∨ ∃ v, change.stored t = some v ∧ v.name = name

/-- No change touches the name. -/
def Spared (name : List UInt8) : List Change → Table → Prop
  | [], _ => True
  | change :: changes, t => ¬ change.Touches t name ∧ Spared name changes (change.apply t)

/-- A variable that a change has stored, and no later one touches its name. -/
def LastStored (v : Variable) (changes : List Change) (t : Table) : Prop :=
  ∃ before change after, changes = before ++ change :: after ∧
    change.stored (run before t) = some v ∧
    Spared v.name after (run (before ++ [change]) t)

/-- The table before anything was set, and what `Environment::new` sets. -/
def Table.blank : Table := ⟨fun _ => none⟩

def starting : List Change :=
  [.assign [72, 79, 77, 69] [47, 104, 111, 109, 101] true,
    .assign [80, 65, 84, 72] [47, 98, 105, 110] true, .assign [80, 87, 68] [47] true,
    .assign [83, 72, 69, 76, 76] [47, 98, 105, 110, 47, 115, 104, 101, 108, 108] true,
    .assign [63] [48] false]

theorem run_starting (changes : List Change) :
    run (starting ++ changes) .blank = run changes .new := rfl

variable {change : Change}

theorem Change.apply_eq_set (h : change.request t = some v) :
    change.apply t = (t.set v.name v.value v.exported).2 := by
  cases change with
  | assign name value exported => exact Option.some.inj h ▸ rfl
  | exportField field =>
    rw [Change.request] at h
    rw [Change.apply, builtinExport]
    split_ifs at h ⊢
    cases hidx : field.idxOf? 61 <;> simp only [hidx] at h ⊢ <;> exact Option.some.inj h ▸ rfl
  | unset name => cases h
  | setStatus status => exact Option.some.inj h ▸ rfl

theorem Change.apply_of_request (h : change.request t = none)
    (hunset : ∀ name, change ≠ .unset name) : change.apply t = t := by
  cases change with
  | assign name value exported => cases h
  | exportField field =>
    rw [Change.request] at h
    rw [Change.apply, builtinExport]
    split_ifs at h ⊢
    · rfl
    · split at h <;> cases h
  | unset name => exact absurd rfl (hunset name)
  | setStatus status => cases h

theorem Change.stored_eq_some_iff : change.stored t = some v ↔
    change.request t = some v ∧ (t.set v.name v.value v.exported).1 = true :=
  filter_eq_some_iff

/-- A change that stores nothing and is no `unset` leaves the table. -/
theorem Change.apply_of_stored (h : change.stored t = none)
    (hunset : ∀ name, change ≠ .unset name) : change.apply t = t := by
  cases hrequest : change.request t with
  | none => exact change.apply_of_request hrequest hunset
  | some v =>
    rw [Change.apply_eq_set hrequest]
    refine set_of_refused (Bool.eq_false_iff.mpr fun haccepted => ?_)
    exact absurd (h.symm.trans (Change.stored_eq_some_iff.mpr ⟨hrequest, haccepted⟩)) nofun

theorem Table.Unique.apply (h : t.Unique) (change : Change) : (change.apply t).Unique := by
  cases hrequest : change.request t with
  | some v => exact Change.apply_eq_set hrequest ▸ h.set v.name v.value v.exported
  | none =>
    by_cases hunset : ∃ name, change = .unset name
    · obtain ⟨name, rfl⟩ := hunset
      exact h.unset name
    · rwa [change.apply_of_request hrequest fun name heq => hunset ⟨name, heq⟩]

/-- **One change**, in the map. -/
theorem lookup_apply (h : t.Unique) (change : Change) (name : List UInt8) :
    (change.apply t).lookup name = some v ↔
      (change.stored t = some v ∧ v.name = name) ∨
        (t.lookup name = some v ∧ ¬ change.Touches t name) := by
  cases hstored : change.stored t with
  | some w =>
    obtain ⟨hrequest, haccepted⟩ := Change.stored_eq_some_iff.mp hstored
    have hunset : change ≠ .unset name := by
      rintro rfl
      cases hrequest
    have hw : (⟨w.name, w.value, w.exported⟩ : Variable) = w := rfl
    rw [Change.apply_eq_set hrequest, lookup_set h haccepted, hw, Change.Touches, hstored]
    split
    · rename_i hname
      constructor
      · exact fun hv => .inl ⟨hv, Option.some.inj hv ▸ hname⟩
      · rintro (⟨hv, -⟩ | ⟨-, hnot⟩)
        · exact hv
        · exact absurd (.inr ⟨w, rfl, hname⟩) hnot
    · rename_i hname
      constructor
      · refine fun hv => .inr ⟨hv, not_or.mpr ⟨hunset, fun ⟨u, hu, hother⟩ => hname ?_⟩⟩
        exact Option.some.inj hu ▸ hother
      · rintro (⟨hv, hother⟩ | ⟨hv, -⟩)
        · exact absurd (Option.some.inj hv ▸ hother) hname
        · exact hv
  | none =>
    by_cases hunset : ∃ taken, change = .unset taken
    · obtain ⟨taken, rfl⟩ := hunset
      rw [Change.apply, lookup_unset h, Change.Touches, hstored]
      by_cases hname : taken = name <;> simp [hname]
    · have hne : ∀ taken, change ≠ .unset taken := fun taken heq => hunset ⟨taken, heq⟩
      rw [change.apply_of_stored hstored hne, Change.Touches, hstored]
      simp [hne]

theorem Table.Unique.run (h : t.Unique) (changes : List Change) : (run changes t).Unique := by
  induction changes generalizing t with
  | nil => exact h
  | cons change changes ih => exact ih (h.apply change)

/-- **A run**: what is found was stored last, or was there before and is not touched. -/
theorem lookup_run (h : t.Unique) (changes : List Change) (name : List UInt8) :
    (run changes t).lookup name = some v ↔
      (v.name = name ∧ LastStored v changes t) ∨
        (t.lookup name = some v ∧ Spared name changes t) := by
  induction changes generalizing t with
  | nil =>
    refine ⟨fun hv => .inr ⟨hv, trivial⟩, ?_⟩
    rintro (⟨-, before, change, after, heq, -⟩ | ⟨hv, -⟩)
    · cases before <;> cases heq
    · exact hv
  | cons change changes ih =>
    have hrun : run (change :: changes) t = run changes (change.apply t) := rfl
    rw [hrun, ih (h.apply change), lookup_apply h]
    constructor
    · rintro (⟨hname, before, later, after, rfl, hlast⟩ | ⟨⟨hstored, rfl⟩ | ⟨hv, htouches⟩, hrest⟩)
      · exact .inl ⟨hname, change :: before, later, after, rfl, hlast⟩
      · exact .inl ⟨rfl, [], change, changes, rfl, hstored, hrest⟩
      · exact .inr ⟨hv, htouches, hrest⟩
    · rintro (⟨rfl, before, later, after, heq, hstored, hrest⟩ | ⟨hv, htouches, hrest⟩)
      · cases before with
        | nil =>
          obtain ⟨rfl, rfl⟩ := List.cons.inj heq
          exact .inr ⟨.inl ⟨hstored, rfl⟩, hrest⟩
        | cons first before =>
          obtain ⟨rfl, rfl⟩ := List.cons.inj heq
          exact .inl ⟨rfl, before, later, after, rfl, hstored, hrest⟩
      · exact .inr ⟨.inr ⟨hv, htouches⟩, hrest⟩

/-- **Headline.** The table is a finite map after any commands: the variable of a name, with its
value and whether it is exported, is the one stored last and not taken out since; what `set` refuses
changes nothing; and `unset` takes out one variable. -/
theorem variables_are_map (changes : List Change) :
    (run changes .new).Unique ∧
    (∀ name v, (run changes .new).lookup name = some v ↔
      v.name = name ∧ LastStored v (starting ++ changes) .blank) ∧
    (∀ name, (run changes .new).get name = ((run changes .new).lookup name).map Variable.value) ∧
    (∀ name value exported, ((run changes .new).set name value exported).1 = false →
      ((run changes .new).set name value exported).2 = run changes .new) ∧
    (∀ name value exported, ((run changes .new).set name value exported).1 = true ↔
      Variable.Fits ⟨name, value, exported⟩ ∧
        ((run changes .new).Has name ∨ ∃ i, (run changes .new).slots i = none)) ∧
    ∀ name other, ((run changes .new).unset name).lookup other =
      if name = other then none else (run changes .new).lookup other := by
  have hblank : Table.blank.Unique := fun i j name hi => absurd hi nofun
  have hunique : (run changes .new).Unique := run_starting changes ▸ hblank.run _
  refine ⟨hunique, fun name v => ?_, get_eq_lookup _, fun name value exported => set_of_refused,
    fun name value exported => set_fst_iff, fun name other => lookup_unset hunique⟩
  rw [← run_starting, lookup_run hblank]
  refine or_iff_left fun ⟨hv, _⟩ => ?_
  obtain ⟨-, i, hi⟩ := (lookup_eq_some_iff hblank).mp hv
  exact absurd hi nofun

end ImagineOS.Shell
