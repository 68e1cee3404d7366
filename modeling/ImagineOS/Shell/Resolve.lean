import ImagineOS.Lexical

/-!
# Shell and libc: the path that a program means

The shell and the libc both join a relative path to the current directory and write the normal form
of it, in buffers of their own and with different limits. Where both of them find a place for it
they write the same (`resolve_eq`).
-/

namespace ImagineOS.Shell

open List

/-! ### The shell -/

def maxPath : ℕ := 256

def maxComponents : ℕ := 48

/-- One component in the loop of `normalize`. -/
def normalizeComponent (w : Written) (component : List UInt8) : Option Written :=
  if component = [] ∨ component = [46] then some w
  else if component = [46, 46] then
    match w.starts with
    | [] => some w
    | start :: starts => some ⟨w.output.take start, starts⟩
  else if w.starts.length = maxComponents then none
  else if w.output.length > 1 ∧ w.output.length = maxPath then none
  else
    let output := if w.output.length > 1 then w.output ++ [slash] else w.output
    let start := max (output.length - 1) 1
    if output.length + component.length > maxPath then none
    else some ⟨output ++ component, start :: w.starts⟩

def normalize (path : List UInt8) : Option (List UInt8) :=
  (scan normalizeComponent path ⟨[slash], []⟩).map Written.output

/-- A directory, with a slash at its end. -/
def withSlash (directory : List UInt8) : List UInt8 :=
  if directory.getLast? = some slash then directory else directory ++ [slash]

/-- `resolve`. A directory that fills the buffer without its slash does not get one, and the shell
panics. There is no result then either. -/
def resolve (cwd path : List UInt8) : Option (List UInt8) :=
  if path.head? = some slash then
    if path.length > maxPath * 2 then none else normalize path
  else if cwd.length > maxPath * 2 then none
  else if (withSlash cwd).length + path.length > maxPath * 2 then none
  else normalize (withSlash cwd ++ path)

/-! ### The libc -/

/-- A C string, without its terminator. -/
abbrev CStr : Type := {s : List UInt8 // 0 ∉ s}

/-- One component in the loop of `dc_resolve_path`. -/
def resolveComponent (capacity : ℕ) (w : Written) (component : List UInt8) : Option Written :=
  if component = [] ∨ component = [46] then some w
  else if component = [46, 46] then
    match w.starts with
    | [] => some w
    | start :: starts => some ⟨w.output.take (if start > 1 then start - 1 else 1), starts⟩
  else if w.starts.length = 128 then none
  else
    let separator := if w.output.length > 1 then 1 else 0
    if w.output.length + separator + component.length + 1 > capacity then none
    else
      let output := if separator = 1 then w.output ++ [slash] else w.output
      some ⟨output ++ component, output.length :: w.starts⟩

/-- `dc_resolve_path`, for the value of `PWD`; the errors are those of `errno`. -/
def dcResolvePath (pwd : Option CStr) (path : CStr) (capacity : ℕ) : Except ℕ (List UInt8) :=
  if capacity = 0 ∨ path.1 = [] then .error 22
  else
    let workingDirectory := match pwd with
      | some directory => if directory.1.head? = some slash then directory.1 else [slash]
      | none => [slash]
    let base := if path.1.head? = some slash then [] else workingDirectory
    if base.length + path.1.length + 2 > 512 then .error 36
    else if capacity < 2 then .error 36
    else match scan (resolveComponent capacity) (withSlash base ++ path.1) ⟨[slash], []⟩ with
    | none => .error 36
    | some w => .ok w.output

/-! ### Buffers of stacks -/

variable {stack : List (List UInt8)}

theorem length_render_pos (h : CleanStack stack) :
    1 < (render stack).length ↔ stack ≠ [] := by
  cases stack with
  | nil => simp [render]
  | cons c stack =>
    have hne := length_pos_of_ne_nil (h c mem_cons_self).1.1
    rw [render_cons, length_append, length_cons]
    simp only [ne_eq, cons_ne_nil, not_false_eq_true, iff_true]
    omega

theorem append_component (h : CleanStack stack) (component : List UInt8) :
    (if (render stack).length > 1 then render stack ++ [slash] else render stack) ++ component =
      render (component :: stack) := by
  cases stack with
  | nil => rfl
  | cons c stack =>
    rw [if_pos ((length_render_pos h).mpr (cons_ne_nil c stack)), render_cons component,
      render, if_neg (cons_ne_nil c stack), append_assoc]
    rfl

theorem length_output (h : CleanStack stack) (component : List UInt8) :
    (if (render stack).length > 1 then render stack ++ [slash] else render stack).length +
        component.length = (render (component :: stack)).length ∧
      max ((if (render stack).length > 1 then render stack ++ [slash] else render stack).length - 1)
        1 = (render stack).length := by
  refine ⟨by rw [← append_component h component, length_append], ?_⟩
  split
  · rw [length_append, length_singleton]
    omega
  · rename_i hroot
    have hnil : stack = [] := by
      by_contra hne
      exact hroot ((length_render_pos h).mpr hne)
    rw [hnil]
    rfl

theorem take_render (component : List UInt8) :
    (render (component :: stack)).take (render stack).length = render stack := by
  cases stack with
  | nil => rfl
  | cons c stack =>
    rw [render_cons component, render, if_neg (cons_ne_nil c stack)]
    exact take_left

theorem track_tail (mark : List (List UInt8) → ℕ) (stack : List (List UInt8)) :
    (⟨render stack, (track mark stack).starts⟩ : Written) = track mark stack := by
  cases stack <;> rfl

/-- The shell marks the end of the path before a component. -/
theorem normalizeComponent_climbs :
    Climbs normalizeComponent (fun stack => (render stack).length) maxComponents maxPath where
  skip w := by simp [normalizeComponent]
  step_eq stack component hclean hslash hdepth := by
    unfold normalizeComponent climb
    by_cases hskip : component = [] ∨ component = [46]
    · have hno : ¬ CleanComponent component := fun h => hskip.elim h.1 h.2.1
      rw [if_pos hskip, if_pos hskip, if_neg fun h => hno h.1]
    · rw [if_neg hskip, if_neg hskip]
      by_cases hup : component = [46, 46]
      · rw [if_pos hup, if_pos hup, if_neg fun h => h.1.2.2 hup]
        cases stack with
        | nil => rfl
        | cons c stack =>
          simp only [track, take_render, tail_cons]
          rw [track_tail]
      · rw [if_neg hup, if_neg hup]
        have hcomponent : CleanComponent component :=
          ⟨fun h => hskip (Or.inl h), fun h => hskip (Or.inr h), hup⟩
        have hpos := length_pos_of_ne_nil hcomponent.1
        simp only [output_track, length_starts_track, hcomponent, true_and]
        by_cases hfull : stack.length = maxComponents
        · rw [if_pos hfull, if_pos fun h => absurd hfull (Nat.ne_of_lt h.1)]
        · have hroom : stack.length < maxComponents := by omega
          rw [if_neg hfull, append_component hclean]
          obtain ⟨hlen, hmark⟩ := length_output hclean component
          simp only [hlen, hmark, hroom, true_and]
          by_cases hsize : (render (component :: stack)).length ≤ maxPath
          · have hnotfull : ¬ ((render stack).length > 1 ∧ (render stack).length = maxPath) := by
              rintro ⟨hlong, hfull⟩
              rw [if_pos hlong, length_append, length_singleton] at hlen
              omega
            rw [if_neg hnotfull, if_neg (Nat.not_lt.mpr hsize), if_neg (not_not.mpr hsize)]
            rfl
          · rw [if_pos (Nat.lt_of_not_le hsize), if_pos hsize, ite_self]

/-- Where a component of the libc starts. -/
def componentStart (stack : List (List UInt8)) : ℕ :=
  if (render stack).length > 1 then (render stack).length + 1 else (render stack).length

theorem componentStart_eq (stack : List (List UInt8)) : componentStart stack =
    (if (render stack).length > 1 then render stack ++ [slash] else render stack).length := by
  unfold componentStart
  split
  · rw [length_append, length_singleton]
  · rfl

theorem slash_before (stack : List (List UInt8)) :
    (if componentStart stack > 1 then componentStart stack - 1 else 1) = (render stack).length := by
  have hpos : 1 ≤ (render stack).length := by
    cases stack with
    | nil => exact Nat.le_refl 1
    | cons c stack =>
      rw [render_cons, length_append, length_cons]
      omega
  unfold componentStart
  by_cases hlong : (render stack).length > 1
  · rw [if_pos hlong, if_pos (by omega), Nat.add_sub_cancel]
  · rw [if_neg hlong, if_neg hlong]
    omega

/-- The libc marks the start of the component, and finds the slash before it again. -/
theorem resolveComponent_climbs {capacity : ℕ} (hcapacity : 2 ≤ capacity) :
    Climbs (resolveComponent capacity) componentStart 128 (capacity - 1) where
  skip w := by simp [resolveComponent]
  step_eq stack component hclean hslash hdepth := by
    unfold resolveComponent climb
    by_cases hskip : component = [] ∨ component = [46]
    · have hno : ¬ CleanComponent component := fun h => hskip.elim h.1 h.2.1
      rw [if_pos hskip, if_pos hskip, if_neg fun h => hno h.1]
    · rw [if_neg hskip, if_neg hskip]
      by_cases hup : component = [46, 46]
      · rw [if_pos hup, if_pos hup, if_neg fun h => h.1.2.2 hup]
        cases stack with
        | nil => rfl
        | cons c stack =>
          simp only [track, slash_before, take_render, tail_cons]
          rw [track_tail]
      · rw [if_neg hup, if_neg hup]
        have hcomponent : CleanComponent component :=
          ⟨fun h => hskip (Or.inl h), fun h => hskip (Or.inr h), hup⟩
        simp only [output_track, length_starts_track, hcomponent, true_and]
        by_cases hfull : stack.length = 128
        · rw [if_pos hfull, if_pos fun h => absurd hfull (Nat.ne_of_lt h.1)]
        · have hroom : stack.length < 128 := by omega
          have houtput : (if (if (render stack).length > 1 then 1 else 0) = 1
              then render stack ++ [slash] else render stack) =
              if (render stack).length > 1 then render stack ++ [slash] else render stack := by
            split <;> simp
          have hlen : (render stack).length + (if (render stack).length > 1 then 1 else 0) +
              component.length = (render (component :: stack)).length := by
            rw [← (length_output hclean component).1, ← componentStart_eq, componentStart]
            split <;> rfl
          rw [if_neg hfull, hlen, houtput, append_component hclean, ← componentStart_eq]
          simp only [hroom, true_and]
          by_cases hsize : (render (component :: stack)).length ≤ capacity - 1
          · rw [if_neg (by omega), if_neg (not_not.mpr hsize)]
            rfl
          · rw [if_pos (by omega), if_pos hsize]

/-! ### What is meant -/

/-- The path that is meant. -/
def absolute (cwd path : List UInt8) : List UInt8 :=
  if path.head? = some slash then path else cwd ++ slash :: path

theorem lexicalForm_withSlash (directory path : List UInt8) :
    lexicalForm (withSlash directory ++ path) = lexicalForm (directory ++ slash :: path) := by
  unfold withSlash
  split
  · rename_i hlast
    obtain ⟨start, rfl⟩ := List.getLast?_eq_some_iff.mp hlast
    rw [lexicalForm, lexicalForm, append_assoc, append_assoc, singleton_append,
      singleton_append, lexicalStack_append_slash]
  · rw [append_assoc, singleton_append]

variable {path : List UInt8}

theorem normalize_spec {p : List UInt8} (h : normalize path = some p) :
    p = lexicalForm path ∧ p.length ≤ maxPath ∧ normalize p = some p := by
  obtain ⟨w, hscan, rfl⟩ := Option.map_eq_some_iff.mp h
  have hsize : 1 ≤ maxPath := by decide
  have hout := normalizeComponent_climbs.output_eq hsize hscan
  have hagain := normalizeComponent_climbs.scan_lexicalForm hsize hscan
  refine ⟨hout, hout ▸ (normalizeComponent_climbs.scan_spec hsize hscan).2.2, ?_⟩
  rw [← hout] at hagain
  exact Option.map_eq_some_iff.mpr ⟨w, hagain, rfl⟩

theorem resolve_spec {cwd p : List UInt8} (h : resolve cwd path = some p) :
    p = lexicalForm (absolute cwd path) ∧ p.length ≤ maxPath ∧ normalize p = some p := by
  unfold resolve at h
  unfold absolute
  split at h
  · rename_i habsolute
    split at h
    · cases h
    · rw [if_pos habsolute]
      exact normalize_spec h
  · rename_i hrelative
    split at h
    · cases h
    · split at h
      · cases h
      · rw [if_neg hrelative, ← lexicalForm_withSlash]
        exact normalize_spec h

/-- What the libc makes of a path. -/
theorem dcResolvePath_spec {cwd path : CStr} {capacity : ℕ} {q : List UInt8}
    (hcwd : cwd.1.head? = some slash) (h : dcResolvePath (some cwd) path capacity = .ok q) :
    2 ≤ capacity ∧ q = lexicalForm (absolute cwd.1 path.1) ∧
      ∃ w, w.output = q ∧ scan (resolveComponent capacity) q ⟨[slash], []⟩ = some w := by
  simp only [dcResolvePath, if_pos hcwd] at h
  generalize hbase : (if path.1.head? = some slash then [] else cwd.1) = base at h
  split at h
  · cases h
  · split at h
    · cases h
    · split at h
      · cases h
      · rename_i hcapacity
        have hclimbs := resolveComponent_climbs (Nat.le_of_not_lt hcapacity)
        have hsize : 1 ≤ capacity - 1 := by omega
        split at h
        · cases h
        · rename_i w hscan
          obtain rfl := Except.ok.inj h
          have hout := hclimbs.output_eq hsize hscan
          have hagain := hclimbs.scan_lexicalForm hsize hscan
          rw [← hout] at hagain
          refine ⟨Nat.le_of_not_lt hcapacity, ?_, w, rfl, hagain⟩
          rw [hout, lexicalForm_withSlash, ← hbase, absolute]
          split
          · rw [nil_append, lexicalForm, lexicalStack_cons_slash]
            rfl
          · rfl

theorem lexicalForm_absolute {cwd : List UInt8} (h : NormalForm path) :
    lexicalForm (absolute cwd path) = path := by
  rw [absolute, if_pos h.head, lexicalForm_of_normalForm h]

/-- **Headline.** Where the shell and the libc both find a path, it is the same one, the normal form
of what is meant; both of them find it again from itself, and leave every normal form as it is. -/
theorem resolve_eq {cwd path : CStr} {capacity : ℕ} {p q : List UInt8}
    (hcwd : cwd.1.head? = some slash) (hshell : resolve cwd.1 path.1 = some p)
    (hlibc : dcResolvePath (some cwd) path capacity = .ok q) :
    q = p ∧ p = lexicalForm (absolute cwd.1 path.1) ∧ NormalForm p ∧
      resolve cwd.1 p = some p ∧ (∃ h, dcResolvePath (some cwd) ⟨p, h⟩ capacity = .ok p) ∧
      ∀ (n : CStr) (r : List UInt8), NormalForm n.1 →
        (resolve cwd.1 n.1 = some r ∨ dcResolvePath (some cwd) n capacity = .ok r) → r = n.1 := by
  obtain ⟨hp, hlen, hagain⟩ := resolve_spec hshell
  obtain ⟨hcapacity, hq, w, hw, hscan⟩ := dcResolvePath_spec hcwd hlibc
  obtain rfl : q = p := hq.trans hp.symm
  have hnormal : NormalForm q := hp ▸ normalForm_lexicalForm _
  have hnul : 0 ∉ q := by
    intro h0
    have hmem := mem_of_mem_lexicalForm (by decide) (hp ▸ h0)
    unfold absolute at hmem
    split at hmem
    · exact path.2 hmem
    · rcases mem_append.mp hmem with hmem | hmem
      · exact cwd.2 hmem
      · exact path.2 ((mem_cons.mp hmem).resolve_left (by decide))
  have hlen' : q.length ≤ 256 := hlen
  refine ⟨rfl, hp, hnormal, ?_, ⟨hnul, ?_⟩, ?_⟩
  · rw [resolve, if_pos hnormal.head, if_neg (by simp only [maxPath]; omega), hagain]
  · have hne : q ≠ [] := by
      intro h0
      have hhead := hnormal.head
      rw [h0] at hhead
      cases hhead
    have hskip := (resolveComponent_climbs hcapacity).skip
    have hscan' : scan (resolveComponent capacity) (withSlash [] ++ q) ⟨[slash], []⟩ = some w :=
      (scan_cons_slash hskip q ⟨[slash], []⟩).trans hscan
    simp only [dcResolvePath, if_pos hnormal.head, hscan', hw, length_nil]
    have hargs : ¬ (capacity = 0 ∨ q = []) := not_or.mpr ⟨by omega, hne⟩
    rw [if_neg hargs, if_neg (by omega), if_neg (by omega)]
  · rintro n r hn (hr | hr)
    · rw [(resolve_spec hr).1, lexicalForm_absolute hn]
    · rw [(dcResolvePath_spec hcwd hr).2.1, lexicalForm_absolute hn]

/-- `../b` in `/a//c/` -/
theorem resolve_eq_sample :
    ∃ h, dcResolvePath (some ⟨[47, 97, 47, 47, 99, 47], by decide⟩) ⟨[47, 97, 47, 98], h⟩ 256 =
      .ok [47, 97, 47, 98] := by
  have hshell : resolve [47, 97, 47, 47, 99, 47] [46, 46, 47, 98] = some [47, 97, 47, 98] := by
    rw [resolve, normalize, scan_eq_foldlM normalizeComponent_climbs.skip]
    decide +kernel
  have hlibc : dcResolvePath (some ⟨[47, 97, 47, 47, 99, 47], by decide⟩)
      ⟨[46, 46, 47, 98], by decide⟩ 256 = .ok [47, 97, 47, 98] := by
    have hskip := (resolveComponent_climbs (show 2 ≤ 256 by decide)).skip
    have hscan : scan (resolveComponent 256)
        (withSlash [47, 97, 47, 47, 99, 47] ++ [46, 46, 47, 98]) ⟨[47], []⟩ =
          some ⟨[47, 97, 47, 98], [3, 1]⟩ := by
      rw [scan_eq_foldlM hskip]
      decide +kernel
    simp [dcResolvePath, hscan, slash]
  exact (resolve_eq rfl hshell hlibc).2.2.2.2.1

end ImagineOS.Shell
