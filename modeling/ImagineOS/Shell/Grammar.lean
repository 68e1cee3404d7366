import ImagineOS.SepBy
import ImagineOS.Shell.Parser

/-!
# Shell: the grammar

The grammar of the parser is the one in its header:
-/

namespace ImagineOS.Shell

open Computability List Language

/-! ### Tokens -/

namespace Token

/-- A word. -/
def isWord : Token → Bool
  | .word _ => true
  | _ => false

/-- An operator of a redirection. -/
def isRedirect : Token → Bool
  | .operator .redirectIn | .operator .redirectOut | .operator .redirectAppend => true
  | _ => false

/-- The operator of pipelines. -/
def isPipe : Token → Bool
  | .operator .pipe => true
  | _ => false

/-- An operator of lists. -/
def isSeparator : Token → Bool
  | .operator .semicolon | .operator .and | .operator .or | .operator .background => true
  | _ => false

/-- A token of a command. -/
def ofCommand (t : Token) : Bool := t.isWord || t.isRedirect

theorem kinds (t : Token) :
    (t.isWord = true ∧ t.isRedirect = false ∧ t.isPipe = false ∧ t.isSeparator = false) ∨
    (t.isWord = false ∧ t.isRedirect = true ∧ t.isPipe = false ∧ t.isSeparator = false) ∨
    (t.isWord = false ∧ t.isRedirect = false ∧ t.isPipe = true ∧ t.isSeparator = false) ∨
    (t.isWord = false ∧ t.isRedirect = false ∧ t.isPipe = false ∧ t.isSeparator = true) := by
  cases t with
  | word w => simp [isWord, isRedirect, isPipe, isSeparator]
  | operator operator => cases operator <;> simp [isWord, isRedirect, isPipe, isSeparator]

end Token

/-! ### Grammars -/

/-- A redirection. -/
def redirect : Language Token := symbol Token.isRedirect * symbol Token.isWord

namespace Grammar

/-- `word+ redirect*` -/
def command : Language Token := symbol Token.isWord * (symbol Token.isWord)∗ * redirect∗

/-- `command ( '|' command )*` -/
def pipeline : Language Token := sepBy command (symbol Token.isPipe)

/-- `pipeline ( (';' | '&&' | '||' | '&') pipeline )*` -/
def list : Language Token := sepBy pipeline (symbol Token.isSeparator)

end Grammar

namespace Lenient

/-- Words and redirections, and at least one word. -/
def command : Language Token :=
  redirect∗ * symbol Token.isWord * (symbol Token.isWord + redirect)∗

/-- Commands with `|` between them. -/
def pipeline : Language Token := sepBy command (symbol Token.isPipe)

/-- Nothing, or pipelines with operators between them and maybe one at the end. -/
def list : Language Token :=
  1 + sepBy pipeline (symbol Token.isSeparator) * (1 + symbol Token.isSeparator)

end Lenient

/-- A word stands after a redirection. -/
def LateWord (tokens : List Token) : Prop :=
  ∃ o t w, o.isRedirect = true ∧ t.isWord = true ∧ w.isWord = true ∧ [o, t, w] <:+: tokens

/-- An operator of lists stands at the end. -/
def EndsInSeparator (tokens : List Token) : Prop :=
  ∃ front t, tokens = front ++ [t] ∧ t.isSeparator = true

/-- The tables are large enough: for the pipelines, for the commands of each of them, and for the
words of each command that are not targets of redirections. -/
structure WithinLimits (tokens : List Token) : Prop where
  entries : tokens.dropLast.countP Token.isSeparator < maxEntries
  stages : ∀ part ∈ tokens.splitOnP Token.isSeparator, part.countP Token.isPipe < maxPipeline
  words : ∀ part ∈ tokens.splitOnP Token.isSeparator, ∀ stage ∈ part.splitOnP Token.isPipe,
    stage.countP Token.isWord ≤ maxWords + stage.countP Token.isRedirect

section Grammar

variable {tokens rest v : List Token} {t : Token} {n : ℕ}

/-! ### Commands -/

/-- The number of words of a command that are not targets, if these are words and redirections. -/
def items : List Token → Option ℕ
  | [] => some 0
  | .word _ :: rest => (items rest).map (· + 1)
  | .operator o :: .word _ :: rest => if (Token.operator o).isRedirect then items rest else none
  | .operator _ :: _ => none

theorem mem_word : v ∈ symbol Token.isWord ↔ ∃ w, v = [.word w] := by
  constructor
  · rintro ⟨t, ht, rfl⟩
    cases t with
    | word w => exact ⟨w, rfl⟩
    | operator o => exact absurd ht (by simp [Token.isWord])
  · rintro ⟨w, rfl⟩
    exact mem_symbol.mpr rfl

theorem mem_redirect :
    v ∈ redirect ↔ ∃ o w, (Token.operator o).isRedirect = true ∧ v = [.operator o, .word w] := by
  constructor
  · intro h
    obtain ⟨a, ⟨t, ht, rfl⟩, b, hb, rfl⟩ := mem_mul.mp h
    obtain ⟨w, rfl⟩ := mem_word.mp hb
    cases t with
    | word w => exact absurd ht (by simp [Token.isRedirect])
    | operator o => exact ⟨o, w, ht, rfl⟩
  · rintro ⟨o, w, ho, rfl⟩
    exact append_mem_mul (mem_symbol.mpr ho) (mem_word.mpr ⟨w, rfl⟩)

theorem items_append_redirects (hv : v ∈ redirect∗) : items (v ++ rest) = items rest := by
  obtain ⟨chunks, rfl, hchunks⟩ := mem_kstar.mp hv
  clear hv
  induction chunks with
  | nil => rfl
  | cons chunk chunks ih =>
    obtain ⟨hchunk, hrest⟩ := forall_mem_cons.mp hchunks
    obtain ⟨o, w, ho, rfl⟩ := mem_redirect.mp hchunk
    rw [flatten_cons, append_assoc]
    simp only [cons_append, nil_append, items, ho, if_true]
    exact ih hrest

/-- Words and redirections. -/
theorem mem_items_iff :
    tokens ∈ (symbol Token.isWord + redirect)∗ ↔ ∃ n, items tokens = some n := by
  constructor
  · intro h
    obtain ⟨chunks, rfl, hchunks⟩ := mem_kstar.mp h
    clear h
    induction chunks with
    | nil => exact ⟨0, rfl⟩
    | cons chunk chunks ih =>
      obtain ⟨hchunk, hrest⟩ := forall_mem_cons.mp hchunks
      obtain ⟨n, hn⟩ := ih hrest
      rw [flatten_cons]
      rcases hchunk with hword | hredirect
      · obtain ⟨w, rfl⟩ := mem_word.mp hword
        exact ⟨n + 1, by simp [items, hn]⟩
      · obtain ⟨o, w, ho, rfl⟩ := mem_redirect.mp hredirect
        exact ⟨n, by simp [items, ho, hn]⟩
  · rintro ⟨n, hn⟩
    induction tokens using items.induct generalizing n with
    | case1 => exact nil_mem_kstar _
    | case2 w rest ih =>
      rw [items, Option.map_eq_some_iff] at hn
      obtain ⟨m, hm, -⟩ := hn
      exact append_mem_kstar (Or.inl (mem_word.mpr ⟨w, rfl⟩)) (ih m hm)
    | case3 o w rest ho ih =>
      rw [items, if_pos ho] at hn
      exact append_mem_kstar (Or.inr (mem_redirect.mpr ⟨o, w, ho, rfl⟩)) (ih n hn)
    | case4 o w rest ho =>
      rw [items, if_neg ho] at hn
      exact absurd hn (by simp)
    | case5 o rest hrest =>
      rw [items] at hn
      · exact absurd hn (by simp)
      · exact hrest

/-- What is accepted as a command. -/
theorem mem_lenient_command : tokens ∈ Lenient.command ↔ ∃ n, items tokens = some (n + 1) := by
  constructor
  · intro h
    obtain ⟨a, ha, b, hb, rfl⟩ := mem_mul.mp h
    obtain ⟨r, hr, c, hc, rfl⟩ := mem_mul.mp ha
    obtain ⟨w, rfl⟩ := mem_word.mp hc
    obtain ⟨n, hn⟩ := mem_items_iff.mp hb
    refine ⟨n, ?_⟩
    rw [append_assoc, items_append_redirects hr]
    simp [items, hn]
  · rintro ⟨n, hn⟩
    induction tokens using items.induct generalizing n with
    | case1 => exact absurd hn (by simp [items])
    | case2 w rest ih =>
      rw [items, Option.map_eq_some_iff] at hn
      obtain ⟨m, hm, -⟩ := hn
      refine mem_mul.mpr ⟨[] ++ [.word w], ?_, rest, mem_items_iff.mpr ⟨m, hm⟩, rfl⟩
      exact append_mem_mul (nil_mem_kstar _) (mem_word.mpr ⟨w, rfl⟩)
    | case3 o w rest ho ih =>
      rw [items, if_pos ho] at hn
      obtain ⟨a, ha, b, hb, rfl⟩ := mem_mul.mp (ih n hn)
      obtain ⟨r, hr, c, hc, rfl⟩ := mem_mul.mp ha
      refine mem_mul.mpr ⟨([.operator o, .word w] ++ r) ++ c, ?_, b, hb, by simp⟩
      exact append_mem_mul (append_mem_kstar (mem_redirect.mpr ⟨o, w, ho, rfl⟩) hr) hc
    | case4 o w rest ho =>
      rw [items, if_neg ho] at hn
      exact absurd hn (by simp)
    | case5 o rest hrest =>
      rw [items] at hn
      · exact absurd hn (by simp)
      · exact hrest

/-! ### Words after redirections -/

theorem lateWord_cons : LateWord (t :: rest) ↔
    (t.isRedirect = true ∧ ∃ u w r, rest = u :: w :: r ∧ u.isWord = true ∧ w.isWord = true) ∨
      LateWord rest := by
  constructor
  · rintro ⟨o, u, w, ho, hu, hw, h⟩
    rcases infix_cons_iff.mp h with ⟨r, hr⟩ | h
    · obtain ⟨rfl, hrest⟩ := List.cons.inj hr
      exact Or.inl ⟨ho, u, w, r, hrest.symm, hu, hw⟩
    · exact Or.inr ⟨o, u, w, ho, hu, hw, h⟩
  · rintro (⟨ht, u, w, r, rfl, hu, hw⟩ | ⟨o, u, w, ho, hu, hw, h⟩)
    · exact ⟨t, u, w, ht, hu, hw, infix_cons_iff.mpr (Or.inl ⟨r, rfl⟩)⟩
    · exact ⟨o, u, w, ho, hu, hw, infix_cons_iff.mpr (Or.inr h)⟩

theorem not_lateWord_nil : ¬ LateWord [] := by
  rintro ⟨o, t, w, -, -, -, h⟩
  exact absurd (infix_nil.mp h) (by simp)

/-- An operator that is none of a redirection separates words from redirections. -/
theorem not_lateWord_append (ht : t.ofCommand = false) :
    ¬ LateWord (v ++ t :: rest) ↔ ¬ LateWord v ∧ ¬ LateWord rest := by
  obtain ⟨htw, htr⟩ : t.isWord = false ∧ t.isRedirect = false := by
    simpa [Token.ofCommand] using ht
  rw [← not_or, not_iff_not]
  induction v with
  | nil => simp [lateWord_cons, htr, not_lateWord_nil]
  | cons x v ih =>
    rw [cons_append, lateWord_cons, lateWord_cons, ih, ← or_assoc]
    -- Two words stand before the operator, or none do.
    have hhead : (∃ u w r, v ++ t :: rest = u :: w :: r ∧ u.isWord = true ∧ w.isWord = true) ↔
        ∃ u w r, v = u :: w :: r ∧ u.isWord = true ∧ w.isWord = true := by
      constructor
      · rintro ⟨u, w, r, heq, hu, hw⟩
        match v, heq with
        | [], heq =>
          rw [← (List.cons.inj heq).1, htw] at hu
          exact absurd hu (by simp)
        | [y], heq =>
          rw [← (List.cons.inj (List.cons.inj heq).2).1, htw] at hw
          exact absurd hw (by simp)
        | y :: z :: v, heq =>
          obtain ⟨hy, heq⟩ := List.cons.inj heq
          exact ⟨y, z, v, rfl, hy ▸ hu, (List.cons.inj heq).1 ▸ hw⟩
      · rintro ⟨u, w, r, rfl, hu, hw⟩
        exact ⟨u, w, r ++ t :: rest, rfl, hu, hw⟩
    rw [hhead]

theorem not_lateWord_redirects (h : tokens ∈ redirect∗) : ¬ LateWord tokens := by
  obtain ⟨chunks, rfl, hchunks⟩ := mem_kstar.mp h
  clear h
  induction chunks with
  | nil => exact not_lateWord_nil
  | cons chunk chunks ih =>
    obtain ⟨hchunk, hrest⟩ := forall_mem_cons.mp hchunks
    obtain ⟨o, w, ho, rfl⟩ := mem_redirect.mp hchunk
    rw [flatten_cons, cons_append, cons_append, nil_append, lateWord_cons, lateWord_cons]
    rintro (⟨-, u, x, r, heq, -, hx⟩ | ⟨hw, -⟩ | hlate)
    · -- After a redirection comes another one, or nothing.
      obtain ⟨-, heq⟩ := List.cons.inj heq
      cases chunks with
      | nil => exact absurd heq (by simp)
      | cons next chunks =>
        obtain ⟨o', w', ho', rfl⟩ := mem_redirect.mp (hrest next mem_cons_self)
        rw [flatten_cons, cons_append] at heq
        rw [← (List.cons.inj heq).1] at hx
        exact absurd hx (by simp [Token.isWord])
    · exact absurd hw (by simp [Token.isRedirect])
    · exact ih hrest hlate

theorem mem_redirects_of_items (h : items tokens = some 0) : tokens ∈ redirect∗ := by
  induction tokens using items.induct with
  | case1 => exact nil_mem_kstar _
  | case2 w rest ih =>
    rw [items, Option.map_eq_some_iff] at h
    obtain ⟨m, -, hm⟩ := h
    exact absurd hm (by simp)
  | case3 o w rest ho ih =>
    rw [items, if_pos ho] at h
    exact append_mem_kstar (mem_redirect.mpr ⟨o, w, ho, rfl⟩) (ih h)
  | case4 o w rest ho =>
    rw [items, if_neg ho] at h
    exact absurd h (by simp)
  | case5 o rest hrest =>
    rw [items] at h
    · exact absurd h (by simp)
    · exact hrest

theorem head_command (h : tokens ∈ Grammar.command) : ∃ w rest, tokens = .word w :: rest := by
  obtain ⟨a, ha, b, hb, rfl⟩ := mem_mul.mp h
  obtain ⟨c, hc, d, hd, rfl⟩ := mem_mul.mp ha
  obtain ⟨w, rfl⟩ := mem_word.mp hc
  exact ⟨w, d ++ b, rfl⟩

theorem cons_command {w : Word} (h : tokens ∈ Grammar.command) :
    .word w :: tokens ∈ Grammar.command := by
  obtain ⟨a, ha, b, hb, rfl⟩ := mem_mul.mp h
  obtain ⟨c, hc, d, hd, rfl⟩ := mem_mul.mp ha
  refine mem_mul.mpr ⟨[.word w] ++ (c ++ d), ?_, b, hb, by simp⟩
  exact append_mem_mul (mem_word.mpr ⟨w, rfl⟩) (append_mem_kstar hc hd)

/-- **The commands of the grammar** are those without words after redirections. -/
theorem mem_command_iff :
    tokens ∈ Grammar.command ↔ tokens ∈ Lenient.command ∧ ¬ LateWord tokens := by
  rw [mem_lenient_command]
  constructor
  · intro h
    obtain ⟨a, ha, b, hb, rfl⟩ := mem_mul.mp h
    obtain ⟨c, hc, d, hd, rfl⟩ := mem_mul.mp ha
    obtain ⟨w, rfl⟩ := mem_word.mp hc
    obtain ⟨words, rfl, hwords⟩ := mem_kstar.mp hd
    clear h ha hd hc
    have hb' : items b = some 0 := by
      have h : items (b ++ []) = items [] := items_append_redirects hb
      simpa [items] using h
    induction words generalizing w with
    | nil => exact ⟨⟨0, by simp [items, hb']⟩, by
        rw [flatten_nil, append_nil, singleton_append, lateWord_cons]
        simp [Token.isRedirect, not_lateWord_redirects hb]⟩
    | cons chunk words ih =>
      obtain ⟨hchunk, hrest⟩ := forall_mem_cons.mp hwords
      obtain ⟨w', rfl⟩ := mem_word.mp hchunk
      obtain ⟨⟨n, hn⟩, hlate⟩ := ih w' hrest
      rw [flatten_cons, append_assoc, singleton_append, lateWord_cons]
      refine ⟨⟨n + 1, ?_⟩, ?_⟩
      · rw [items, hn]
        rfl
      · simpa [Token.isRedirect] using hlate
  · rintro ⟨⟨n, hn⟩, hlate⟩
    induction tokens using items.induct generalizing n with
    | case1 => exact absurd hn (by simp [items])
    | case2 w rest ih =>
      rw [items, Option.map_eq_some_iff] at hn
      obtain ⟨m, hm, -⟩ := hn
      have hrest : ¬ LateWord rest := fun h => hlate (lateWord_cons.mpr (Or.inr h))
      cases m with
      | zero =>
        refine mem_mul.mpr ⟨[.word w] ++ [], ?_, rest, mem_redirects_of_items hm, rfl⟩
        exact append_mem_mul (mem_word.mpr ⟨w, rfl⟩) (nil_mem_kstar _)
      | succ m => exact cons_command (ih hrest m hm)
    | case3 o w rest ho ih =>
      rw [items, if_pos ho] at hn
      have hrest : ¬ LateWord rest := fun h =>
        hlate (lateWord_cons.mpr (Or.inr (lateWord_cons.mpr (Or.inr h))))
      obtain ⟨w', r, rfl⟩ := head_command (ih hrest n hn)
      exact absurd (lateWord_cons.mpr (Or.inl ⟨ho, _, _, r, rfl, rfl, rfl⟩)) hlate
    | case4 o w rest ho =>
      rw [items, if_neg ho] at hn
      exact absurd hn (by simp)
    | case5 o rest hrest =>
      rw [items] at hn
      · exact absurd hn (by simp)
      · exact hrest

/-! ### Pipelines and lists -/

theorem ofCommand_of_items (h : items tokens = some n) : ∀ t ∈ tokens, t.ofCommand = true := by
  induction tokens using items.induct generalizing n with
  | case1 => exact fun t ht => absurd ht not_mem_nil
  | case2 w rest ih =>
    rw [items, Option.map_eq_some_iff] at h
    obtain ⟨m, hm, -⟩ := h
    exact forall_mem_cons.mpr ⟨rfl, ih hm⟩
  | case3 o w rest ho ih =>
    rw [items, if_pos ho] at h
    exact forall_mem_cons.mpr ⟨by simp [Token.ofCommand, ho], forall_mem_cons.mpr ⟨rfl, ih h⟩⟩
  | case4 o w rest ho =>
    rw [items, if_neg ho] at h
    exact absurd h (by simp)
  | case5 o rest hrest =>
    rw [items] at h
    · exact absurd h (by simp)
    · exact hrest

theorem Token.not_pipe (h : t.ofCommand = true) : t.isPipe = false := by
  rcases t.kinds with h' | h' | h' | h' <;> simp_all [Token.ofCommand]

theorem Token.not_separator (h : t.ofCommand = true) : t.isSeparator = false := by
  rcases t.kinds with h' | h' | h' | h' <;> simp_all [Token.ofCommand]

theorem Token.not_ofCommand_of_pipe (h : t.isPipe = true) : t.ofCommand = false := by
  rcases t.kinds with h' | h' | h' | h' <;> simp_all [Token.ofCommand]

theorem Token.not_ofCommand_of_separator (h : t.isSeparator = true) : t.ofCommand = false := by
  rcases t.kinds with h' | h' | h' | h' <;> simp_all [Token.ofCommand]

theorem Token.not_separator_of_pipe (h : t.isPipe = true) : t.isSeparator = false := by
  rcases t.kinds with h' | h' | h' | h' <;> simp_all

theorem ofCommand_of_mem (h : v ∈ Lenient.command) : ∀ t ∈ v, t.ofCommand = true := by
  obtain ⟨n, hn⟩ := mem_lenient_command.mp h
  exact ofCommand_of_items hn

/-- Commands have no `|`. -/
theorem command_not_pipe : ∀ v ∈ Lenient.command, ∀ t ∈ v, t.isPipe = false :=
  fun _ hv t ht => Token.not_pipe (ofCommand_of_mem hv t ht)

theorem pipeline_not_separator : ∀ v ∈ Lenient.pipeline, ∀ t ∈ v, t.isSeparator = false := by
  intro v hv
  refine sepBy_induction (P := fun v => ∀ t ∈ v, t.isSeparator = false) command_not_pipe
    (fun v hv t ht => ?_) (fun v hv a rest ha ih => ?_) hv
  · exact Token.not_separator (ofCommand_of_mem hv t ht)
  · simp only [mem_append, mem_cons]
    rintro t (ht | rfl | ht)
    · exact Token.not_separator (ofCommand_of_mem hv t ht)
    · exact Token.not_separator_of_pipe ha
    · exact ih t ht

theorem mem_pipeline_iff :
    tokens ∈ Grammar.pipeline ↔ tokens ∈ Lenient.pipeline ∧ ¬ LateWord tokens :=
  mem_sepBy_filter (P := fun w => ¬ LateWord w) command_not_pipe (fun _ => mem_command_iff)
    fun _ _ _ ht => not_lateWord_append (Token.not_ofCommand_of_pipe ht)

/-- **The lists of the grammar** are those without words after redirections. -/
theorem mem_list_iff : tokens ∈ Grammar.list ↔
    tokens ∈ sepBy Lenient.pipeline (symbol Token.isSeparator) ∧ ¬ LateWord tokens :=
  mem_sepBy_filter (P := fun w => ¬ LateWord w) pipeline_not_separator (fun _ => mem_pipeline_iff)
    fun _ _ _ ht => not_lateWord_append (Token.not_ofCommand_of_separator ht)

/-- The last token is a word. -/
def EndsInWord (tokens : List Token) : Prop := ∃ front w, tokens = front ++ [.word w]

theorem EndsInWord.append (h : EndsInWord rest) (v : List Token) : EndsInWord (v ++ rest) := by
  obtain ⟨front, w, rfl⟩ := h
  exact ⟨v ++ front, w, (append_assoc _ _ _).symm⟩

theorem endsInWord_of_items (h : items tokens = some n) (hne : tokens ≠ []) :
    EndsInWord tokens := by
  induction tokens using items.induct generalizing n with
  | case1 => exact absurd rfl hne
  | case2 w rest ih =>
    rw [items, Option.map_eq_some_iff] at h
    obtain ⟨m, hm, -⟩ := h
    by_cases hrest : rest = []
    · exact ⟨[], w, by rw [hrest, nil_append]⟩
    · exact (ih hm hrest).append [.word w]
  | case3 o w rest ho ih =>
    rw [items, if_pos ho] at h
    by_cases hrest : rest = []
    · exact ⟨[.operator o], w, by rw [hrest, singleton_append]⟩
    · exact (ih h hrest).append [.operator o, .word w]
  | case4 o w rest ho =>
    rw [items, if_neg ho] at h
    exact absurd h (by simp)
  | case5 o rest hrest =>
    rw [items] at h
    · exact absurd h (by simp)
    · exact hrest

theorem endsInWord_of_mem (h : tokens ∈ sepBy Lenient.pipeline (symbol Token.isSeparator)) :
    EndsInWord tokens := by
  have hcommand : ∀ v ∈ Lenient.command, EndsInWord v := fun v hv => by
    obtain ⟨n, hn⟩ := mem_lenient_command.mp hv
    exact endsInWord_of_items hn fun he => by
      subst he
      exact absurd hn (by simp [items])
  have hpipeline : ∀ v ∈ Lenient.pipeline, EndsInWord v := fun v hv =>
    sepBy_induction command_not_pipe hcommand
      (fun v _ a rest _ ih => by simpa using ih.append (v ++ [a])) hv
  exact sepBy_induction pipeline_not_separator hpipeline
    (fun v _ a rest _ ih => by simpa using ih.append (v ++ [a])) h

theorem EndsInWord.not_separator (h : EndsInWord tokens) : ¬ EndsInSeparator tokens := by
  obtain ⟨front, w, rfl⟩ := h
  rintro ⟨front', t, heq, ht⟩
  obtain ⟨-, hlast⟩ := append_inj' heq rfl
  rw [← (List.cons.inj hlast).1] at ht
  exact absurd ht (by simp [Token.isSeparator])

theorem mem_list_iff_lenient : tokens ∈ Grammar.list ↔
    tokens ∈ Lenient.list ∧ tokens ≠ [] ∧ ¬ EndsInSeparator tokens ∧ ¬ LateWord tokens := by
  rw [mem_list_iff, Lenient.list, mem_add, mem_one]
  constructor
  · rintro ⟨h, hlate⟩
    have hword := endsInWord_of_mem h
    refine ⟨Or.inr ?_, fun he => ?_, hword.not_separator, hlate⟩
    · exact mem_mul.mpr ⟨tokens, h, [], Or.inl rfl, append_nil _⟩
    · obtain ⟨front, w, hfront⟩ := hword
      exact absurd (he.symm.trans hfront) (by simp)
  · rintro ⟨h | h, hne, hends, hlate⟩
    · exact absurd h hne
    · obtain ⟨a, ha, b, hb | ⟨t, ht, rfl⟩, rfl⟩ := mem_mul.mp h
      · obtain rfl : b = [] := hb
        rw [append_nil] at hlate ⊢
        exact ⟨ha, hlate⟩
      · exact absurd ⟨a, t, rfl, ht⟩ hends

theorem mem_lenient_of_none (hv : ∀ t ∈ v, t.isSeparator = false) :
    v ∈ Lenient.list ↔ v = [] ∨ v ∈ Lenient.pipeline := by
  rw [Lenient.list, mem_add, mem_one]
  refine or_congr_right ⟨fun h => ?_, fun h => ?_⟩
  · obtain ⟨a, ha, b, hb | ⟨t, ht, rfl⟩, rfl⟩ := mem_mul.mp h
    · obtain rfl : b = [] := hb
      rw [append_nil] at hv ⊢
      exact (mem_sepBy_of_none pipeline_not_separator hv).mp ha
    · exact absurd (ht.symm.trans (hv t (by simp))) (by simp)
  · exact mem_mul.mpr ⟨v, (mem_sepBy_of_none pipeline_not_separator hv).mpr h, [],
      Or.inl rfl, append_nil _⟩

theorem mem_lenient_append (hv : ∀ u ∈ v, u.isSeparator = false) (ht : t.isSeparator = true) :
    v ++ t :: rest ∈ Lenient.list ↔ v ∈ Lenient.pipeline ∧ rest ∈ Lenient.list := by
  rw [Lenient.list, mem_add, mem_one, mem_add, mem_one]
  constructor
  · rintro (h | h)
    · exact absurd h (by simp)
    obtain ⟨a, ha, b, hb | ⟨u, hu, rfl⟩, heq⟩ := mem_mul.mp h
    · obtain rfl : b = [] := hb
      rw [append_nil] at heq
      subst heq
      obtain ⟨h₁, h₂⟩ := (mem_sepBy_append pipeline_not_separator hv ht).mp ha
      exact ⟨h₁, Or.inr (mem_mul.mpr ⟨rest, h₂, [], Or.inl rfl, append_nil _⟩)⟩
    · -- The operator at the end is the first one, or a later one.
      rcases eq_nil_or_concat' rest with rfl | ⟨front, x, rfl⟩
      · obtain ⟨rfl, -⟩ := append_inj' heq rfl
        exact ⟨(mem_sepBy_of_none pipeline_not_separator hv).mp ha, Or.inl rfl⟩
      · rw [← cons_append, ← append_assoc] at heq
        obtain ⟨rfl, hx⟩ := append_inj' heq rfl
        obtain ⟨h₁, h₂⟩ := (mem_sepBy_append pipeline_not_separator hv ht).mp ha
        refine ⟨h₁, Or.inr (mem_mul.mpr ⟨front, h₂, [x], Or.inr ⟨x, ?_, rfl⟩, rfl⟩)⟩
        rwa [← (List.cons.inj hx).1]
  · rintro ⟨h₁, rfl | h⟩
    · exact Or.inr (mem_mul.mpr
        ⟨v, (mem_sepBy_of_none pipeline_not_separator hv).mpr h₁, [t], Or.inr ⟨t, ht, rfl⟩, rfl⟩)
    · obtain ⟨a, ha, b, hb, rfl⟩ := mem_mul.mp h
      refine Or.inr (mem_mul.mpr ⟨v ++ t :: a, ?_, b, hb, by simp⟩)
      exact (mem_sepBy_append pipeline_not_separator hv ht).mpr ⟨h₁, ha⟩

end Grammar

end ImagineOS.Shell
