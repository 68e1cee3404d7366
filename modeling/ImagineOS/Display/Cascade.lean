import ImagineOS.Display.Theme

/-!
# Display: the cascade

A style sheet is read twice, and each pass looks for the rules anew. What both do together is said
of the list of the rules: the general ones are applied in their order, and then those for a variant.
So it does not matter how rules of the two kinds are mixed (`cascade`).
-/

namespace ImagineOS.Display

open Css List

/-- A rule of a style sheet: its selector, and what stands between the braces. -/
structure Rule where
  selector : List UInt8
  body : List UInt8
  deriving DecidableEq

namespace Rule

/-- The selector has a variant. -/
def specific (rule : Rule) : Bool := (rule.selector.drop 1).contains 46

/-- A rule is applied to a theme. -/
def apply (theme : WindowTheme) (rule : Rule) : WindowTheme :=
  applyRule rule.selector rule.body.length rule.body theme

/-- A rule as it is written. -/
def render (rule : Rule) : List UInt8 := rule.selector ++ 123 :: (rule.body ++ [125])

/-- A rule that is read as it is written: nothing in it ends its selector or its body too soon. -/
structure Plain (rule : Rule) : Prop where
  hash : rule.selector.head? = some 35
  opens : 123 ∉ rule.selector
  trimmed : trim rule.selector = rule.selector
  closes : 125 ∉ rule.body

end Rule

/-- The rules that a pass over a style sheet finds, whichever it applies. -/
def rulesFrom : ℕ → List UInt8 → List Rule
  | 0, _ => []
  | _, [] => []
  | fuel + 1, source =>
    let source := skipWhitespaceAndComments source.length source
    if source.head? = some 35 then
      match source.dropWhile (· ≠ 123) with
      | [] => []
      | _ :: block =>
        ⟨trim (source.takeWhile (· ≠ 123)),
          block.take (block.length - (skipBlock block).length - 1)⟩ ::
            rulesFrom fuel (skipBlock block)
    else rulesFrom fuel (skipBlock (source.dropWhile (· ≠ 123)))

/-- The rules of a style sheet. -/
def sheet (source : List UInt8) : List Rule := rulesFrom source.length source

/-- General rules, and those for variants behind them. -/
def bySpecificity (rules : List Rule) : List Rule :=
  rules.filter (·.specific = false) ++ rules.filter (·.specific = true)

variable {rule : Rule} {rules : List Rule}

/-- **One pass** applies the rules of its kind. -/
theorem applyCssPass_eq (specific : Bool) (fuel : ℕ) (source : List UInt8) (theme : WindowTheme) :
    applyCssPass specific fuel source theme =
      ((rulesFrom fuel source).filter (·.specific = specific)).foldl Rule.apply theme := by
  induction fuel generalizing source theme with
  | zero => rfl
  | succ fuel ih =>
    cases source with
    | nil => rfl
    | cons byte source =>
      simp only [applyCssPass, rulesFrom]
      generalize skipWhitespaceAndComments (byte :: source).length (byte :: source) = skipped
      split
      · rename_i rest
        rw [if_pos List.head?_cons]
        cases (35 :: rest).dropWhile (· ≠ 123) with
        | nil => rfl
        | cons _ block =>
          dsimp only
          split
          · rename_i hother
            rw [ih, filter_cons_of_neg (by simpa [Rule.specific] using hother)]
          · rename_i hsame
            rw [ih, filter_cons_of_pos (by simpa [Rule.specific] using hsame)]
            rfl
      · rename_i hhash
        rw [if_neg, ih]
        intro hhead
        obtain ⟨rest, hrest⟩ := List.head?_eq_some_iff.mp hhead
        exact hhash rest hrest

/-! ### What is written is read -/

theorem skip_hash (fuel : ℕ) (rest : List UInt8) :
    skipWhitespaceAndComments fuel (35 :: rest) = 35 :: rest := by
  cases fuel with
  | zero => rfl
  | succ fuel =>
    have hhash : (35 :: rest).dropWhile isWhitespace = 35 :: rest := by
      simp [isWhitespace]
    rw [skipWhitespaceAndComments, hhash]
    simp

theorem skipBlock_append {body : List UInt8} (h : 125 ∉ body) (rest : List UInt8) :
    skipBlock (body ++ 125 :: rest) = rest := by
  have hall : ∀ byte ∈ body, byte ≠ 125 := fun byte hbyte heq => h (heq ▸ hbyte)
  rw [skipBlock, dropWhile_append_of_pos (by simpa using hall)]
  rfl

/-- The first rule of a style sheet. -/
theorem rulesFrom_render (h : rule.Plain) (fuel : ℕ) (source : List UInt8) :
    rulesFrom (fuel + 1) (rule.render ++ source) = rule :: rulesFrom fuel source := by
  obtain ⟨selector, body⟩ := rule
  obtain ⟨rest, rfl⟩ : ∃ rest, selector = 35 :: rest := by
    cases selector with
    | nil => cases h.hash
    | cons byte rest => exact ⟨rest, by rw [Option.some.inj h.hash]⟩
  have hopens : ∀ byte ∈ 35 :: rest, byte ≠ 123 := fun byte hbyte heq => h.opens (heq ▸ hbyte)
  have hsource : Rule.render ⟨35 :: rest, body⟩ ++ source =
      (35 :: rest) ++ 123 :: (body ++ 125 :: source) := by
    simp [Rule.render]
  have hdrop : ((35 :: rest) ++ 123 :: (body ++ 125 :: source)).dropWhile (· ≠ 123) =
      123 :: (body ++ 125 :: source) := by
    rw [dropWhile_append_of_pos (by simpa using hopens)]
    rfl
  have htake : ((35 :: rest) ++ 123 :: (body ++ 125 :: source)).takeWhile (· ≠ 123) =
      35 :: rest := by
    rw [takeWhile_append_of_pos (by simpa using hopens)]
    simp
  have hbody : (body ++ 125 :: source).take ((body ++ 125 :: source).length - source.length - 1) =
      body := by
    rw [length_append, length_cons, show body.length + (source.length + 1) -
      source.length - 1 = body.length by omega, take_left]
  rw [hsource, cons_append, rulesFrom]
  · rw [skip_hash, ← cons_append, hdrop, htake,
      if_pos (by rw [cons_append, List.head?_cons])]
    dsimp only
    rw [skipBlock_append h.closes, hbody, h.trimmed]
  · exact cons_ne_nil _ _

theorem rulesFrom_flatMap (h : ∀ rule ∈ rules, rule.Plain) {fuel : ℕ}
    (hfuel : rules.length ≤ fuel) : rulesFrom fuel (rules.flatMap Rule.render) = rules := by
  induction rules generalizing fuel with
  | nil => cases fuel <;> rfl
  | cons rule rules ih =>
    obtain ⟨hrule, hrules⟩ := forall_mem_cons.mp h
    obtain ⟨fuel, rfl⟩ : ∃ k, fuel = k + 1 := ⟨fuel - 1, by
      rw [length_cons] at hfuel
      omega⟩
    rw [flatMap_cons, rulesFrom_render hrule, ih hrules (Nat.le_of_succ_le_succ hfuel)]

theorem length_le_render (rules : List Rule) :
    rules.length ≤ (rules.flatMap Rule.render).length := by
  induction rules with
  | nil => exact Nat.zero_le _
  | cons rule rules ih =>
    rw [flatMap_cons, length_append, length_cons, Rule.render, length_append,
      length_cons]
    omega

/-- **Headline.** Whatever bytes a style sheet has, its general rules are applied first, and then
those for a variant, each kind in its order. Rules that are written down are the ones that are
read. -/
theorem cascade (theme : WindowTheme) :
    (∀ source, applyCss theme source = (bySpecificity (sheet source)).foldl Rule.apply theme) ∧
    ∀ rules : List Rule, (∀ rule ∈ rules, rule.Plain) →
      applyCss theme (rules.flatMap Rule.render) =
        (bySpecificity rules).foldl Rule.apply theme := by
  have hsheet : ∀ source,
      applyCss theme source = (bySpecificity (sheet source)).foldl Rule.apply theme := by
    intro source
    rw [applyCss, applyCssPass_eq, applyCssPass_eq, bySpecificity, foldl_append]
    rfl
  refine ⟨hsheet, fun rules h => ?_⟩
  rw [hsheet, sheet, rulesFrom_flatMap h (length_le_render rules)]

/-- `#button.close{color:white}` and `#button{color:black}` -/
def closeFirst : List Rule :=
  [⟨35 :: (button ++ 46 :: close), color ++ 58 :: white⟩, ⟨35 :: button, color ++ 58 :: black⟩]

theorem cascade_sample :
    (applyCss .defaults (closeFirst.flatMap Rule.render)).buttonClose = 0xffffff := by
  rw [(cascade .defaults).2 closeFirst]
  · decide +kernel
  · refine forall_mem_cons.mpr ⟨?_, forall_mem_singleton.mpr ?_⟩ <;>
      exact ⟨by decide, by decide, by decide, by decide⟩

end ImagineOS.Display
