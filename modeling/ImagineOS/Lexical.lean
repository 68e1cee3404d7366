import ImagineOS.Text

/-!
# Lexical normal forms of paths

A path is absolute, and its components are pushed on a stack: empty ones and `.` are dropped, and
`..` takes the last one off, if there is one. The normal form is the path of the stack. It has no
other components than clean ones (`normalForm_lexicalForm`), and a path of this kind is its own
normal form (`lexicalForm_of_normalForm`).
-/

namespace ImagineOS

open List

/-! ### Stacks of components -/

/-- A component comes on a stack, the last one first. -/
def climb (stack : List (List UInt8)) (component : List UInt8) : List (List UInt8) :=
  if component = [] ∨ component = [46] then stack
  else if component = [46, 46] then stack.tail
  else component :: stack

/-- The components with a slash before each of them. -/
def slashed : List (List UInt8) → List UInt8
  | [] => []
  | component :: stack => slashed stack ++ slash :: component

/-- The absolute path of a stack. -/
def render (stack : List (List UInt8)) : List UInt8 :=
  if stack = [] then [slash] else slashed stack

/-- The stack of a path. -/
def lexicalStack (path : List UInt8) : List (List UInt8) := (path.splitOn slash).foldl climb []

/-- The lexical normal form of an absolute path. -/
def lexicalForm (path : List UInt8) : List UInt8 := render (lexicalStack path)

/-- An absolute path without empty components, `.` and `..`; no slash is at its end, unless it is
the root. -/
def NormalForm (path : List UInt8) : Prop :=
  path = [slash] ∨ ∃ rest, path = slash :: rest ∧ CleanPath rest

/-- The components of a stack are clean. -/
def CleanStack (stack : List (List UInt8)) : Prop :=
  ∀ component ∈ stack, CleanComponent component ∧ slash ∉ component

theorem climb_of_clean {component : List UInt8} (h : CleanComponent component)
    (stack : List (List UInt8)) : climb stack component = component :: stack := by
  rw [climb, if_neg (not_or.mpr ⟨h.1, h.2.1⟩), if_neg h.2.2]

variable {stack : List (List UInt8)}

theorem CleanStack.climb (h : CleanStack stack)
    {component : List UInt8} (hc : slash ∉ component) : CleanStack (climb stack component) := by
  unfold ImagineOS.climb
  split
  · exact h
  · rename_i hskip
    split
    · exact fun d hd => h d (mem_of_mem_tail hd)
    · rename_i hup
      rw [not_or] at hskip
      exact forall_mem_cons.mpr ⟨⟨⟨hskip.1, hskip.2, hup⟩, hc⟩, h⟩

variable {components : List (List UInt8)}

theorem CleanStack.foldl (h : CleanStack stack) (hc : ∀ component ∈ components, slash ∉ component) :
    CleanStack (components.foldl ImagineOS.climb stack) := by
  induction components generalizing stack with
  | nil => exact h
  | cons c cs ih =>
    exact ih (h.climb (hc c mem_cons_self)) fun d hd => hc d (mem_cons_of_mem c hd)

theorem cleanStack_lexicalStack (path : List UInt8) : CleanStack (lexicalStack path) :=
  CleanStack.foldl (fun _ h => absurd h not_mem_nil) fun _ => not_mem_of_mem_splitOn

theorem lexicalStack_cons_slash (path : List UInt8) :
    lexicalStack (slash :: path) = lexicalStack path := by
  have hsplit := splitOn_append_cons_self (a := slash) [] path
  rw [nil_append, splitOn_nil] at hsplit
  rw [lexicalStack, hsplit]
  rfl

theorem lexicalStack_append (start path : List UInt8) :
    lexicalStack (start ++ slash :: path) =
      (path.splitOn slash).foldl climb (lexicalStack start) := by
  rw [lexicalStack, splitOn_append_cons_self, foldl_append]
  rfl

theorem lexicalStack_append_slash (start path : List UInt8) :
    lexicalStack (start ++ slash :: slash :: path) = lexicalStack (start ++ slash :: path) := by
  have hsplit := splitOn_append_cons_self (a := slash) [] path
  rw [nil_append, splitOn_nil] at hsplit
  rw [lexicalStack_append, lexicalStack_append, hsplit]
  rfl

/-! ### Normal forms -/

theorem render_cons (component : List UInt8) (stack : List (List UInt8)) :
    render (component :: stack) = slashed stack ++ slash :: component := by
  rw [render, if_neg (cons_ne_nil component stack)]
  rfl

theorem slashed_clean (h : CleanStack stack) (hne : stack ≠ []) :
    ∃ rest, slashed stack = slash :: rest ∧ CleanPath rest := by
  induction stack with
  | nil => exact absurd rfl hne
  | cons component stack ih =>
    obtain ⟨hc, hslash⟩ := h component mem_cons_self
    have hcomponent := (cleanPath_of_not_mem hslash).mpr hc
    cases stack with
    | nil => exact ⟨component, rfl, hcomponent⟩
    | cons d stack =>
      obtain ⟨rest, hrest, hclean⟩ := ih (fun e he => h e (mem_cons_of_mem _ he))
        (cons_ne_nil d stack)
      refine ⟨rest ++ slash :: component, ?_, cleanPath_append.mpr ⟨hclean, hcomponent⟩⟩
      rw [slashed, hrest, cons_append]

theorem normalForm_render (h : CleanStack stack) :
    NormalForm (render stack) := by
  by_cases hne : stack = []
  · exact Or.inl (by rw [hne]; rfl)
  · rw [render, if_neg hne]
    exact Or.inr (slashed_clean h hne)

theorem normalForm_lexicalForm (path : List UInt8) : NormalForm (lexicalForm path) :=
  normalForm_render (cleanStack_lexicalStack path)

theorem foldl_climb_of_clean
    (h : ∀ component ∈ components, CleanComponent component) (stack : List (List UInt8)) :
    components.foldl climb stack = components.reverse ++ stack := by
  induction components generalizing stack with
  | nil => rfl
  | cons c cs ih =>
    rw [foldl_cons, climb_of_clean (h c mem_cons_self), ih fun d hd => h d (mem_cons_of_mem c hd)]
    simp

theorem slashed_append (stack stack' : List (List UInt8)) :
    slashed (stack ++ stack') = slashed stack' ++ slashed stack := by
  induction stack with
  | nil => simp [slashed]
  | cons c stack ih => rw [cons_append, slashed, ih, slashed, append_assoc]

theorem slashed_reverse_splitOn (path : List UInt8) :
    slashed (path.splitOn slash).reverse = slash :: path := by
  have hjoin : ∀ components : List (List UInt8), components ≠ [] →
      slashed components.reverse = slash :: [slash].intercalate components := by
    intro components hne
    induction components with
    | nil => exact absurd rfl hne
    | cons c cs ih =>
      rw [reverse_cons, slashed_append]
      cases cs with
      | nil => simp [slashed]
      | cons d cs =>
        rw [ih (cons_ne_nil d cs), intercalate_cons_cons]
        simp [slashed]
  rw [hjoin _ (splitOn_ne_nil slash path), intercalate_splitOn]

variable {path : List UInt8}

theorem lexicalForm_of_normalForm (h : NormalForm path) :
    lexicalForm path = path := by
  rcases h with rfl | ⟨rest, rfl, hclean⟩
  · rw [lexicalForm, lexicalStack_cons_slash]
    rfl
  · have hne : (rest.splitOn slash).reverse ≠ [] := by simp [splitOn_ne_nil]
    rw [lexicalForm, lexicalStack_cons_slash, lexicalStack, foldl_climb_of_clean hclean,
      append_nil, render, if_neg hne, slashed_reverse_splitOn]

theorem NormalForm.head (h : NormalForm path) : path.head? = some slash := by
  rcases h with rfl | ⟨rest, rfl, -⟩ <;> rfl

theorem mem_of_mem_foldl_climb {c : List UInt8}
    (h : c ∈ components.foldl climb stack) : c ∈ components ∨ c ∈ stack := by
  induction components generalizing stack with
  | nil => exact Or.inr h
  | cons d ds ih =>
    rcases ih h with hc | hc
    · exact Or.inl (mem_cons_of_mem d hc)
    · unfold climb at hc
      split at hc
      · exact Or.inr hc
      · split at hc
        · exact Or.inr (mem_of_mem_tail hc)
        · rcases mem_cons.mp hc with rfl | hc
          · exact Or.inl mem_cons_self
          · exact Or.inr hc

theorem mem_slashed_iff {b : UInt8} (hb : b ≠ slash) :
    b ∈ slashed stack ↔ ∃ c ∈ stack, b ∈ c := by
  induction stack with
  | nil => simp [slashed]
  | cons c stack ih => simp [slashed, ih, hb, or_comm]

theorem mem_of_mem_lexicalForm {b : UInt8} (hb : b ≠ slash)
    (h : b ∈ lexicalForm path) : b ∈ path := by
  unfold lexicalForm render at h
  split at h
  · exact absurd (mem_singleton.mp h) hb
  · obtain ⟨c, hc, hbc⟩ := (mem_slashed_iff hb).mp h
    have hsplit : c ∈ path.splitOn slash :=
      (mem_of_mem_foldl_climb hc).resolve_right not_mem_nil
    have hmem : b ∈ slashed (path.splitOn slash).reverse :=
      (mem_slashed_iff hb).mpr ⟨c, mem_reverse.mpr hsplit, hbc⟩
    rw [slashed_reverse_splitOn] at hmem
    exact (mem_cons.mp hmem).resolve_left hb

theorem splitOn_slashed (h : CleanStack stack) :
    (slashed stack).splitOn slash = [] :: stack.reverse := by
  induction stack with
  | nil => rfl
  | cons c stack ih =>
    rw [slashed, splitOn_append_cons_self, ih fun d hd => h d (mem_cons_of_mem c hd),
      splitOn_eq_singleton (h c mem_cons_self).2, reverse_cons, cons_append]

/-! ### Programs that write normal forms -/

section Scan

variable {σ : Type} {step : σ → List UInt8 → Option σ}

theorem length_scan_lt (byte : UInt8) (rest : List UInt8) :
    ((((byte :: rest).dropWhile (· == slash))).dropWhile (· != slash)).length <
      (byte :: rest).length := by
  have hle : ∀ p : UInt8 → Bool, (rest.dropWhile p).length ≤ rest.length := fun p =>
    (dropWhile_sublist p).length_le
  by_cases hbyte : byte = slash
  · have h := (dropWhile_sublist (l := rest.dropWhile (· == slash)) (· != slash)).length_le
    have h' := hle (· == slash)
    simp only [hbyte, dropWhile_cons, BEq.rfl, if_true, length_cons]
    omega
  · have h := hle (· != slash)
    simp only [dropWhile_cons, beq_iff_eq, hbyte, if_false, bne_iff_ne, ne_eq,
      not_false_eq_true, if_true, length_cons]
    omega

/-- Over a path: slashes are passed, and what comes before the next one is a component. -/
def scan (step : σ → List UInt8 → Option σ) : List UInt8 → σ → Option σ
  | [], state => some state
  | byte :: rest, state =>
    let tail := (byte :: rest).dropWhile (· == slash)
    (step state (tail.takeWhile (· != slash))).bind
      (scan step (tail.dropWhile (· != slash)))
termination_by path => path.length
decreasing_by exact length_scan_lt byte rest

theorem foldlM_cons_slash (hskip : ∀ state, step state [] = some state) (path : List UInt8)
    (state : σ) :
    ((slash :: path).splitOn slash).foldlM step state =
      (path.splitOn slash).foldlM step state := by
  have hsplit := splitOn_append_cons_self (a := slash) [] path
  rw [nil_append, splitOn_nil] at hsplit
  rw [hsplit, singleton_append, foldlM_cons, hskip]
  rfl

theorem foldlM_dropWhile (hskip : ∀ state, step state [] = some state) (path : List UInt8)
    (state : σ) :
    ((path.dropWhile (· == slash)).splitOn slash).foldlM step state =
      (path.splitOn slash).foldlM step state := by
  induction path with
  | nil => rfl
  | cons byte path ih =>
    by_cases hbyte : byte = slash
    · simp only [hbyte, dropWhile_cons, BEq.rfl, if_true]
      rw [ih, foldlM_cons_slash hskip]
    · rw [dropWhile_cons_of_neg (by simpa using hbyte)]

/-- Empty components do nothing, so the pieces between all slashes may be taken. -/
theorem scan_eq_foldlM (hskip : ∀ state, step state [] = some state) (path : List UInt8)
    (state : σ) : scan step path state = (path.splitOn slash).foldlM step state := by
  induction path, state using scan.induct with
  | case1 state => simp [scan, hskip]
  | case2 byte rest state tail ih =>
    rw [scan, ← foldlM_dropWhile hskip]
    change (step state (tail.takeWhile (· != slash))).bind
      (scan step (tail.dropWhile (· != slash))) = (tail.splitOn slash).foldlM step state
    have hfront : slash ∉ tail.takeWhile (· != slash) := fun h => by
      simpa using all_eq_true.mp (all_takeWhile (l := tail)) slash h
    have hsplit := takeWhile_append_dropWhile (p := (· != slash)) (l := tail)
    rw [funext ih]
    cases hdrop : tail.dropWhile (· != slash) with
    | nil =>
      rw [hdrop, append_nil] at hsplit
      rw [hsplit] at hfront
      rw [hsplit, splitOn_eq_singleton hfront]
      simp [hskip]
    | cons c rest' =>
      have hc : c = slash := by
        have := head_dropWhile_not (· != slash) (l := tail) (by rw [hdrop]; simp)
        simpa [hdrop] using this
      rw [hdrop, hc] at hsplit
      conv_rhs => rw [← hsplit]
      rw [splitOn_append_cons_self, splitOn_eq_singleton hfront, hc, singleton_append, foldlM_cons]
      simp only [foldlM_cons_slash hskip]
      rfl

theorem scan_cons_slash (hskip : ∀ state, step state [] = some state) (path : List UInt8)
    (state : σ) : scan step (slash :: path) state = scan step path state := by
  rw [scan_eq_foldlM hskip, foldlM_cons_slash hskip, scan_eq_foldlM hskip]

end Scan

/-- A buffer with a path, and the marks of its components, the last one first. -/
structure Written where
  output : List UInt8
  starts : List ℕ
  deriving DecidableEq

/-- The buffer of a stack, where the components after some others have a certain mark. -/
def track (mark : List (List UInt8) → ℕ) : List (List UInt8) → Written
  | [] => ⟨[slash], []⟩
  | component :: stack =>
    ⟨render (component :: stack), mark stack :: (track mark stack).starts⟩

@[simp] theorem output_track (mark : List (List UInt8) → ℕ) (stack : List (List UInt8)) :
    (track mark stack).output = render stack := by
  cases stack <;> rfl

@[simp] theorem length_starts_track (mark : List (List UInt8) → ℕ) (stack : List (List UInt8)) :
    (track mark stack).starts.length = stack.length := by
  induction stack with
  | nil => rfl
  | cons component stack ih => rw [track, length_cons, ih, length_cons]

theorem length_render_le (components stack : List (List UInt8)) :
    (render stack).length ≤ (render (components ++ stack)).length := by
  induction components with
  | nil => exact Nat.le_refl _
  | cons component components ih =>
    refine Nat.le_trans ih ?_
    rw [cons_append, render_cons, length_append, length_cons]
    by_cases hne : components ++ stack = []
    · rw [hne]
      simp [render, slashed]
    · rw [render, if_neg hne]
      omega

/-- What a component does to a buffer: an empty one nothing; on the buffer of a stack it climbs,
unless it is a new one that finds no place. -/
structure Climbs (step : Written → List UInt8 → Option Written) (mark : List (List UInt8) → ℕ)
    (depth size : ℕ) : Prop where
  skip : ∀ written, step written [] = some written
  step_eq : ∀ stack component, CleanStack stack → slash ∉ component → stack.length ≤ depth →
    step (track mark stack) component =
      if CleanComponent component ∧
          ¬ (stack.length < depth ∧ (render (component :: stack)).length ≤ size) then none
      else some (track mark (climb stack component))

namespace Climbs

variable {step : Written → List UInt8 → Option Written} {mark : List (List UInt8) → ℕ}
  {depth size : ℕ} {stack : List (List UInt8)} {components : List (List UInt8)}

theorem climb_bounds {c : List UInt8} (hdepth : stack.length ≤ depth)
    (hsize : (render stack).length ≤ size)
    (hplace : CleanComponent c → stack.length < depth ∧ (render (c :: stack)).length ≤ size) :
    (climb stack c).length ≤ depth ∧ (render (climb stack c)).length ≤ size := by
  unfold climb
  split
  · exact ⟨hdepth, hsize⟩
  · rename_i hskip
    rw [not_or] at hskip
    split
    · cases stack with
      | nil => exact ⟨hdepth, hsize⟩
      | cons d stack =>
        have hle := length_render_le [d] stack
        exact ⟨Nat.le_trans (Nat.le_succ _) hdepth, Nat.le_trans hle hsize⟩
    · rename_i hup
      exact hplace ⟨hskip.1, hskip.2, hup⟩

variable {written : Written}

theorem foldlM_spec (h : Climbs step mark depth size) (hclean : CleanStack stack)
    (hc : ∀ component ∈ components, slash ∉ component)
    (hrun : components.foldlM step (track mark stack) = some written)
    (hdepth : stack.length ≤ depth) (hsize : (render stack).length ≤ size) :
    written = track mark (components.foldl climb stack) ∧
      (components.foldl climb stack).length ≤ depth ∧
      (render (components.foldl climb stack)).length ≤ size := by
  induction components generalizing stack with
  | nil => exact ⟨(Option.some.inj hrun).symm, hdepth, hsize⟩
  | cons c cs ih =>
    have hslash := hc c mem_cons_self
    rw [foldlM_cons, h.step_eq stack c hclean hslash hdepth] at hrun
    split at hrun
    · cases hrun
    · rename_i hplace
      have hbounds := climb_bounds (c := c) hdepth hsize fun hcc => by
        by_contra hno
        exact hplace ⟨hcc, hno⟩
      exact ih (hclean.climb hslash) (fun d hd => hc d (mem_cons_of_mem c hd)) hrun
        hbounds.1 hbounds.2

theorem scan_spec (h : Climbs step mark depth size) (hsize : 1 ≤ size)
    (hrun : scan step path (track mark []) = some written) :
    written = track mark (lexicalStack path) ∧ (lexicalStack path).length ≤ depth ∧
      (lexicalForm path).length ≤ size := by
  rw [scan_eq_foldlM h.skip] at hrun
  exact h.foldlM_spec (fun _ hc => absurd hc not_mem_nil) (fun _ => not_mem_of_mem_splitOn)
    hrun (Nat.zero_le _) hsize

theorem output_eq (h : Climbs step mark depth size) (hsize : 1 ≤ size)
    (hrun : scan step path (track mark []) = some written) :
    written.output = lexicalForm path := by
  rw [(h.scan_spec hsize hrun).1, output_track]
  rfl

theorem foldlM_clean (h : Climbs step mark depth size) (hclean : CleanStack stack)
    (hc : CleanStack components) (hdepth : (components.reverse ++ stack).length ≤ depth)
    (hsize : (render (components.reverse ++ stack)).length ≤ size) :
    components.foldlM step (track mark stack) =
      some (track mark (components.reverse ++ stack)) := by
  induction components generalizing stack with
  | nil => rfl
  | cons c cs ih =>
    obtain ⟨hcc, hslash⟩ := hc c mem_cons_self
    have happend : (c :: cs).reverse ++ stack = cs.reverse ++ c :: stack := by simp
    rw [happend] at hdepth hsize ⊢
    have hroom : stack.length < depth ∧ (render (c :: stack)).length ≤ size := by
      have hlen := hdepth
      rw [length_append, length_cons] at hlen
      exact ⟨by omega, Nat.le_trans (length_render_le cs.reverse (c :: stack)) hsize⟩
    rw [foldlM_cons, h.step_eq stack c hclean hslash (Nat.le_of_lt hroom.1),
      if_neg fun hno => hno.2 hroom, climb_of_clean hcc]
    exact ih (forall_mem_cons.mpr ⟨⟨hcc, hslash⟩, hclean⟩)
      (fun d hd => hc d (mem_cons_of_mem c hd)) hdepth hsize

theorem scan_lexicalForm (h : Climbs step mark depth size) (hsize : 1 ≤ size)
    (hrun : scan step path (track mark []) = some written) :
    scan step (lexicalForm path) (track mark []) = some written := by
  obtain ⟨rfl, hd, hs⟩ := h.scan_spec hsize hrun
  have hclean := cleanStack_lexicalStack path
  rw [scan_eq_foldlM h.skip, lexicalForm, render]
  split
  · rename_i hempty
    rw [hempty, foldlM_cons_slash h.skip, splitOn_nil, foldlM_cons, h.skip]
    rfl
  · rw [splitOn_slashed hclean, foldlM_cons, h.skip]
    have hreverse : CleanStack (lexicalStack path).reverse :=
      fun c hc => hclean c (mem_reverse.mp hc)
    have hback : (lexicalStack path).reverse.reverse ++ [] = lexicalStack path := by simp
    have hfold := h.foldlM_clean (fun _ hc => absurd hc not_mem_nil) hreverse
      (by rw [hback]; exact hd) (by rw [hback]; exact hs)
    rw [hback] at hfold
    exact hfold

end Climbs

end ImagineOS
