import ImagineOS.Shell.Grammar

/-!
# Shell: what the parser accepts

Each loop of the parser is compared with the language of what it reads: it succeeds exactly if the
tokens are in the language and the tables are large enough, and it leaves the tokens that come after
(`Decides`).
-/

namespace ImagineOS.Shell

open List

/-- A parser succeeds exactly if something is the case, and then its result is a certain one. -/
def Decides {β : Type} (r : Except ParseError β) (P : β → Prop) (good : Prop) : Prop :=
  match r with
  | .ok b => good ∧ P b
  | .error _ => ¬ good

/-- What is read of a command whose next token may be the target of a redirection. -/
def pendingItems : RedirectSlot → List Token → Option ℕ
  | .none, tokens => items tokens
  | _, .word _ :: rest => items rest
  | _, _ => none

/-- The tokens complete a command that has this many words: no redirection is left without a target,
there is a word, and the words fit into the table. -/
def Completes (pending : RedirectSlot) (tokens : List Token) (words : ℕ) : Prop :=
  ∃ n, pendingItems pending tokens = some n ∧ 0 < words + n ∧ words + n ≤ maxWords

/-- The table of words is large enough. -/
def StageFits (stage : List Token) : Prop :=
  stage.countP Token.isWord ≤ maxWords + stage.countP Token.isRedirect

/-- The tables are large enough for a pipeline, with this much room for commands. -/
def PartFits (room : ℕ) (part : List Token) : Prop :=
  part.countP Token.isPipe < room ∧ ∀ stage ∈ part.splitOnP Token.isPipe, StageFits stage

/-- The tables are large enough for a list, with this much room for pipelines. -/
def ListFits (room : ℕ) (tokens : List Token) : Prop :=
  (tokens = [] ∨ tokens.dropLast.countP Token.isSeparator < room) ∧
    ∀ part ∈ tokens.splitOnP Token.isSeparator, PartFits maxPipeline part

/-- Nothing is left, or an operator of lists is next. -/
def AtConnector (tokens : List Token) : Prop :=
  tokens = [] ∨ ∃ t rest, tokens = t :: rest ∧ t.isSeparator = true

section Parsing

variable {β γ : Type} {r : Except ParseError β} {P : β → Prop} {good good' : Prop}
  {tokens rest v : List Token} {t : Token} {n : ℕ}

theorem Decides.congr (h : Decides r P good) (hiff : good ↔ good') : Decides r P good' := by
  unfold Decides at *
  split
  · rwa [← hiff]
  · rwa [← hiff]

theorem Decides.bind {f : β → Except ParseError γ} {R : γ → Prop} (h : Decides r P good)
    (hf : good → ∀ b, P b → Decides (f b) R good') (himp : good' → good) :
    Decides (r >>= f) R good' := by
  cases r with
  | error e => exact fun hg => h (himp hg)
  | ok b => exact hf h.1 b h.2

theorem Decides.isOk (h : Decides r P good) : r.toOption.isSome = true ↔ good := by
  cases r with
  | error e => exact iff_of_false (by simp [Except.toOption]) h
  | ok b => exact iff_of_true rfl h.1

/-! ### Commands -/

variable {slot : RedirectSlot}

theorem items_redirect {o : Operator} (ho : (Token.operator o).isRedirect = true)
    (hslot : slot ≠ .none) : items (.operator o :: tokens) = pendingItems slot tokens := by
  cases slot with
  | none => exact absurd rfl hslot
  | in_ | out =>
    cases tokens with
    | nil => rfl
    | cons t rest => cases t <;> simp [items, pendingItems, ho]

theorem not_completes_of_pending (hslot : slot ≠ .none)
    (htokens : ∀ w rest, tokens ≠ .word w :: rest) : ¬ Completes slot tokens n := by
  rintro ⟨m, hm, -⟩
  cases slot with
  | none => exact hslot rfl
  | in_ | out =>
    cases tokens with
    | nil => exact absurd hm (by simp [pendingItems])
    | cons t rest =>
      cases t with
      | word w => exact htokens w rest rfl
      | operator o => exact absurd hm (by simp [pendingItems])

theorem completes_word {w : Word} : Completes .none (.word w :: tokens) n ↔
    Completes .none tokens (n + 1) := by
  constructor
  · rintro ⟨m, hm, -, hmax⟩
    obtain ⟨k, hk, rfl⟩ := Option.map_eq_some_iff.mp hm
    exact ⟨k, hk, by omega, by omega⟩
  · rintro ⟨k, hk, -, hmax⟩
    exact ⟨k + 1, Option.map_eq_some_iff.mpr ⟨k, hk, rfl⟩, by omega, by omega⟩

theorem finishCommand_decides {command : Command} (hle : command.words.length ≤ maxWords)
    (pending : RedirectSlot) (tokens : List Token) :
    Decides (finishCommand command pending tokens) (fun r => r.2 = tokens)
      (Completes pending [] command.words.length) := by
  rw [finishCommand]
  cases pending with
  | none =>
    rw [if_neg (by simp)]
    split
    · rintro ⟨n, hn, hpos, -⟩
      obtain rfl : 0 = n := Option.some.inj hn
      omega
    · exact ⟨⟨0, rfl, by omega, hle⟩, rfl⟩
  | in_ | out =>
    rw [if_pos (by simp)]
    exact not_completes_of_pending (by simp) (by simp)

theorem redirect_decides {o : Operator} {command : Command} {pending : RedirectSlot}
    {r : Except ParseError (Command × List Token)}
    (ho : (Token.operator o).isRedirect = true) (hslot : slot ≠ .none)
    (h : Decides r (fun r => r.2 = rest.dropWhile Token.ofCommand)
      (Completes slot (rest.takeWhile Token.ofCommand) command.words.length)) :
    Decides (if pending ≠ .none then .error .missingRedirectionTarget else r)
      (fun r => r.2 = (Token.operator o :: rest).dropWhile Token.ofCommand)
      (Completes pending ((Token.operator o :: rest).takeWhile Token.ofCommand)
        command.words.length) := by
  have hof : (Token.operator o).ofCommand = true := by simp [Token.ofCommand, ho]
  rw [takeWhile_cons_of_pos hof, dropWhile_cons_of_pos hof]
  cases pending with
  | none =>
    rw [if_neg (by simp), Completes, pendingItems, items_redirect ho hslot]
    exact h
  | in_ | out =>
    rw [if_pos (by simp)]
    exact not_completes_of_pending (by simp) (by simp)

/-- The loop reads the tokens of a command. -/
theorem parseCommandLoop_decides (tokens : List Token) (command : Command) (pending : RedirectSlot)
    (hle : command.words.length ≤ maxWords) :
    Decides (parseCommandLoop tokens command pending)
      (fun r => r.2 = tokens.dropWhile Token.ofCommand)
      (Completes pending (tokens.takeWhile Token.ofCommand) command.words.length) := by
  induction tokens generalizing command pending with
  | nil => exact finishCommand_decides hle pending []
  | cons t rest ih =>
    cases t with
    | word w =>
      have hof : (Token.word w).ofCommand = true := rfl
      rw [takeWhile_cons_of_pos hof, dropWhile_cons_of_pos hof]
      cases pending with
      | in_ => exact ih { command with stdin := some w } .none hle
      | out => exact ih { command with stdout := some w } .none hle
      | none =>
        rw [parseCommandLoop, completes_word]
        split
        · rintro ⟨n, -, -, hmax⟩
          omega
        · have hlength : (command.words ++ [w]).length = command.words.length + 1 := by simp
          rw [← hlength]
          exact ih { command with words := command.words ++ [w] } .none (by rw [hlength]; omega)
    | operator o =>
      cases o with
      | redirectIn =>
        exact redirect_decides rfl (by simp) (ih { command with stdin := none } .in_ hle)
      | redirectOut =>
        exact redirect_decides rfl (by simp)
          (ih { command with stdout := none, append := false } .out hle)
      | redirectAppend =>
        exact redirect_decides rfl (by simp)
          (ih { command with stdout := none, append := true } .out hle)
      | pipe | and | or | semicolon | background =>
        -- Other operators end the command.
        rw [takeWhile_cons_of_neg (by decide), dropWhile_cons_of_neg (by decide)]
        exact finishCommand_decides hle pending _

theorem countP_of_items (h : items tokens = some n) :
    tokens.countP Token.isWord = n + tokens.countP Token.isRedirect := by
  induction tokens using items.induct generalizing n with
  | case1 =>
    obtain rfl : 0 = n := Option.some.inj h
    rfl
  | case2 w rest ih =>
    rw [items, Option.map_eq_some_iff] at h
    obtain ⟨m, hm, rfl⟩ := h
    rw [countP_cons_of_pos rfl, countP_cons_of_neg (by simp [Token.isRedirect]), ih hm]
    omega
  | case3 o w rest ho ih =>
    rw [items, if_pos ho] at h
    rw [countP_cons_of_neg (by simp [Token.isWord]), countP_cons_of_pos rfl,
      countP_cons_of_pos ho, countP_cons_of_neg (by simp [Token.isRedirect]), ih h]
    omega
  | case4 o w rest ho =>
    rw [items, if_neg ho] at h
    exact absurd h (by simp)
  | case5 o rest hrest =>
    rw [items] at h
    · exact absurd h (by simp)
    · exact hrest

/-- `parse_command` reads a command. -/
theorem parseCommand_decides (tokens : List Token) :
    Decides (parseCommand tokens) (fun r => r.2 = tokens.dropWhile Token.ofCommand)
      (tokens.takeWhile Token.ofCommand ∈ Lenient.command ∧
        StageFits (tokens.takeWhile Token.ofCommand)) := by
  refine (parseCommandLoop_decides tokens .empty .none (by decide)).congr ?_
  rw [mem_lenient_command]
  constructor
  · rintro ⟨n, hn, hpos, hmax⟩
    have hcount := countP_of_items (show items _ = some n from hn)
    obtain ⟨m, rfl⟩ : ∃ m, n = m + 1 := ⟨n - 1, by
      simp only [Command.empty, length_nil] at hpos
      omega⟩
    refine ⟨⟨m, hn⟩, ?_⟩
    simp only [Command.empty, length_nil] at hmax
    rw [StageFits, hcount]
    omega
  · rintro ⟨⟨m, hm⟩, hfits⟩
    have hcount := countP_of_items hm
    rw [StageFits, hcount] at hfits
    exact ⟨m + 1, hm, by omega, by simp only [Command.empty, length_nil]; omega⟩

/-! ### Pipelines -/

theorem takeWhile_command (hv : ∀ t ∈ v, t.ofCommand = true)
    (hrest : rest = [] ∨ ∃ t r, rest = t :: r ∧ t.ofCommand = false) :
    (v ++ rest).takeWhile Token.ofCommand = v ∧ (v ++ rest).dropWhile Token.ofCommand = rest := by
  have htake : rest.takeWhile Token.ofCommand = [] ∧ rest.dropWhile Token.ofCommand = rest := by
    rcases hrest with rfl | ⟨t, r, rfl, ht⟩
    · exact ⟨rfl, rfl⟩
    · exact ⟨takeWhile_cons_of_neg (by simp [ht]), dropWhile_cons_of_neg (by simp [ht])⟩
  rw [takeWhile_append_of_pos hv, dropWhile_append_of_pos hv, htake.1, htake.2]
  exact ⟨append_nil v, rfl⟩

theorem AtConnector.ofCommand (h : AtConnector rest) :
    rest = [] ∨ ∃ t r, rest = t :: r ∧ t.ofCommand = false :=
  h.imp_right fun ⟨t, r, heq, ht⟩ => ⟨t, r, heq, Token.not_ofCommand_of_separator ht⟩

theorem ofCommand_of_not (hpipe : t.isPipe = false) (hseparator : t.isSeparator = false) :
    t.ofCommand = true := by
  rcases t.kinds with h | h | h | h <;> simp_all [Token.ofCommand]

theorem command_ne_nil (h : v ∈ Lenient.command) : v ≠ [] := fun he => by
  obtain ⟨n, hn⟩ := mem_lenient_command.mp h
  rw [he] at hn
  exact absurd hn (by simp [items])

theorem pipeline_ne_nil (h : v ∈ Lenient.pipeline) : v ≠ [] :=
  sepBy_induction (P := fun v => v ≠ []) command_not_pipe (fun _ => command_ne_nil)
    (fun v _ a rest _ _ => by simp) h

variable {room : ℕ}

theorem pipelineFits_last (hpipe : ∀ t ∈ v, t.isPipe = false) :
    v ∈ Lenient.pipeline ∧ PartFits room v ↔ (v ∈ Lenient.command ∧ StageFits v) ∧ 0 < room := by
  rw [Lenient.pipeline, mem_sepBy_of_none command_not_pipe hpipe, PartFits,
    splitOnP_eq_singleton hpipe, countP_eq_zero.mpr fun t ht => by simp [hpipe t ht]]
  simp only [mem_singleton, forall_eq]
  tauto

theorem pipelineFits_append {w : List Token} (hpipe : ∀ t ∈ v, t.isPipe = false)
    (ht : t.isPipe = true) :
    v ++ t :: w ∈ Lenient.pipeline ∧ PartFits (room + 1) (v ++ t :: w) ↔
      (v ∈ Lenient.command ∧ StageFits v) ∧ w ∈ Lenient.pipeline ∧ PartFits room w := by
  have hcount : (v ++ t :: w).countP Token.isPipe < room + 1 ↔ w.countP Token.isPipe < room := by
    rw [countP_append, countP_cons_of_pos ht, countP_eq_zero.mpr fun t ht => by simp [hpipe t ht]]
    omega
  rw [Lenient.pipeline, mem_sepBy_append command_not_pipe hpipe ht, PartFits, PartFits,
    forall_splitOnP_append hpipe ht, hcount]
  tauto

/-- The loop of `parse_pipeline` reads a pipeline, up to the next operator of lists. -/
theorem parseStages_decides (hrest : AtConnector rest) (v : List Token) :
    (∀ t ∈ v, t.isSeparator = false) → ∀ (room : ℕ) (commands : List Command),
      Decides (parseStages room commands (v ++ rest)) (fun r => r.2 = rest)
        (v ∈ Lenient.pipeline ∧ PartFits room v) := by
  refine separator_induction (P := fun v => (∀ t ∈ v, t.isSeparator = false) →
    ∀ (room : ℕ) (commands : List Command), Decides (parseStages room commands (v ++ rest))
      (fun r => r.2 = rest) (v ∈ Lenient.pipeline ∧ PartFits room v)) Token.isPipe
    (fun v hpipe hv room commands => ?_) (fun v t w hpipe ht ih hv room commands => ?_) v
  · have hof : ∀ t ∈ v, t.ofCommand = true := fun t ht => ofCommand_of_not (hpipe t ht) (hv t ht)
    obtain ⟨htake, hdrop⟩ := takeWhile_command hof hrest.ofCommand
    cases hvr : v ++ rest with
    | nil =>
      rw [parseStages]
      exact fun hg => pipeline_ne_nil hg.1 (append_eq_nil_iff.mp hvr).1
    | cons x xs =>
      cases room with
      | zero => exact fun hg => absurd ((pipelineFits_last hpipe).mp hg).2 (lt_irrefl 0)
      | succ room =>
        rw [parseStages, ← hvr]
        swap
        · simp
        have hcommand := parseCommand_decides (v ++ rest)
        rw [htake, hdrop] at hcommand
        refine hcommand.bind (fun hg b hb => ?_) fun hg => ((pipelineFits_last hpipe).mp hg).1
        obtain ⟨command, next⟩ := b
        obtain rfl : next = rest := hb
        -- No pipe comes next.
        rcases hrest with rfl | ⟨t, r, rfl, ht⟩
        · exact ⟨(pipelineFits_last hpipe).mpr ⟨hg, Nat.succ_pos _⟩, rfl⟩
        · dsimp only
          split
          · rename_i heq
            rw [(List.cons.inj heq).1] at ht
            exact absurd ht (by simp [Token.isSeparator])
          · exact ⟨(pipelineFits_last hpipe).mpr ⟨hg, Nat.succ_pos _⟩, rfl⟩
  · have hv' : (∀ u ∈ v, u.isSeparator = false) ∧ ∀ u ∈ w, u.isSeparator = false :=
      ⟨fun u hu => hv u (by simp [hu]), fun u hu => hv u (by simp [hu])⟩
    have hof : ∀ t ∈ v, t.ofCommand = true := fun t ht => ofCommand_of_not (hpipe t ht) (hv'.1 t ht)
    have hassoc : v ++ t :: w ++ rest = v ++ t :: (w ++ rest) := by simp
    have hstop : t :: (w ++ rest) = [] ∨ ∃ u r, t :: (w ++ rest) = u :: r ∧ u.ofCommand = false :=
      Or.inr ⟨t, _, rfl, Token.not_ofCommand_of_pipe ht⟩
    obtain ⟨htake, hdrop⟩ := takeWhile_command hof hstop
    rw [hassoc]
    cases hvr : v ++ t :: (w ++ rest) with
    | nil => exact absurd hvr (by simp)
    | cons x xs =>
      cases room with
      | zero => exact fun hg => absurd hg.2.1 (Nat.not_lt_zero _)
      | succ room =>
        rw [parseStages, ← hvr]
        swap
        · simp
        have hcommand := parseCommand_decides (v ++ t :: (w ++ rest))
        rw [htake, hdrop] at hcommand
        refine hcommand.bind (fun hg b hb => ?_) fun hg => ((pipelineFits_append hpipe ht).mp hg).1
        obtain ⟨command, next⟩ := b
        obtain rfl : next = t :: (w ++ rest) := hb
        obtain rfl : t = .operator .pipe := by
          cases t with
          | word x => exact absurd ht (by simp [Token.isPipe])
          | operator o => cases o <;> first | rfl | exact absurd ht (by simp [Token.isPipe])
        exact (ih hv'.2 room (commands ++ [command])).congr
          (((pipelineFits_append hpipe ht).trans (and_iff_right hg)).symm)

theorem parseConnector_at (h : AtConnector rest) :
    ∃ c, parseConnector rest = .ok (rest.tail, c) ∧ (c = .end_ ↔ rest = []) := by
  rcases h with rfl | ⟨t, r, rfl, ht⟩
  · exact ⟨.end_, rfl, by simp⟩
  · cases t with
    | word w => exact absurd ht (by simp [Token.isSeparator])
    | operator o =>
      cases o <;> first
        | exact ⟨_, rfl, by simp⟩
        | exact absurd ht (by simp [Token.isSeparator])

/-- `parse_pipeline` reads a pipeline and the operator after it. -/
theorem parsePipeline_decides (hrest : AtConnector rest) (hv : ∀ t ∈ v, t.isSeparator = false) :
    Decides (parsePipeline (v ++ rest)) (fun r => r.2.1 = rest.tail ∧ (r.2.2 = .end_ ↔ rest = []))
      (v ∈ Lenient.pipeline ∧ PartFits maxPipeline v) := by
  refine (parseStages_decides hrest v hv maxPipeline []).bind (fun hg b hb => ?_) id
  obtain ⟨pipeline, next⟩ := b
  obtain rfl : next = rest := hb
  obtain ⟨c, hc, hend⟩ := parseConnector_at hrest
  simp only [hc]
  exact ⟨hg, rfl, hend⟩

/-! ### Lists -/

theorem listFits_nil : [] ∈ Lenient.list ∧ ListFits room [] := by
  refine ⟨Or.inl rfl, Or.inl rfl, fun part hpart => ?_⟩
  rw [splitOnP_nil, mem_singleton] at hpart
  subst hpart
  refine ⟨by decide, fun stage hstage => ?_⟩
  rw [splitOnP_nil, mem_singleton] at hstage
  subst hstage
  exact Nat.zero_le _

theorem listFits_last (hv : ∀ t ∈ v, t.isSeparator = false) (hne : v ≠ []) :
    v ∈ Lenient.list ∧ ListFits room v ↔
      (v ∈ Lenient.pipeline ∧ PartFits maxPipeline v) ∧ 0 < room := by
  rw [mem_lenient_of_none hv, or_iff_right hne, ListFits, or_iff_right hne,
    splitOnP_eq_singleton hv, countP_eq_zero.mpr fun t ht => by
      simp [hv t (mem_of_mem_dropLast ht)]]
  simp only [mem_singleton, forall_eq]
  tauto

theorem listFits_append (hv : ∀ t ∈ v, t.isSeparator = false) (ht : t.isSeparator = true) :
    v ++ t :: rest ∈ Lenient.list ∧ ListFits (room + 1) (v ++ t :: rest) ↔
      (v ∈ Lenient.pipeline ∧ PartFits maxPipeline v) ∧ rest ∈ Lenient.list ∧
        ListFits room rest := by
  have hcount : (v ++ t :: rest).dropLast.countP Token.isSeparator < room + 1 ↔
      rest = [] ∨ rest.dropLast.countP Token.isSeparator < room := by
    have hv0 : v.countP Token.isSeparator = 0 :=
      countP_eq_zero.mpr fun t ht => by simp [hv t ht]
    rw [dropLast_append_of_ne_nil (by simp), countP_append, hv0]
    cases rest with
    | nil => simp
    | cons x xs =>
      rw [dropLast_cons_of_ne_nil (by simp), countP_cons_of_pos ht]
      simp
  rw [mem_lenient_append hv ht, ListFits, or_iff_right (by simp), hcount,
    forall_splitOnP_append hv ht, ListFits]
  tauto

/-- The loop of `parse_list` reads a list. -/
theorem parseEntries_decides (tokens : List Token) : ∀ room : ℕ,
    Decides (parseEntries room tokens) (fun _ => True)
      (tokens ∈ Lenient.list ∧ ListFits room tokens) := by
  refine separator_induction (P := fun tokens => ∀ room : ℕ, Decides (parseEntries room tokens)
    (fun _ => True) (tokens ∈ Lenient.list ∧ ListFits room tokens)) Token.isSeparator
    (fun v hv room => ?_) (fun v t rest hv ht ih room => ?_) tokens
  · cases v with
    | nil =>
      rw [parseEntries]
      exact ⟨listFits_nil, trivial⟩
    | cons x v =>
      have hne : x :: v ≠ [] := by simp
      cases room with
      | zero => exact fun hg => absurd ((listFits_last hv hne).mp hg).2 (lt_irrefl 0)
      | succ room =>
        rw [parseEntries]
        swap
        · simp
        have hpipeline : Decides (parsePipeline (x :: v ++ [])) _ _ :=
          parsePipeline_decides (Or.inl rfl) hv
        rw [append_nil] at hpipeline
        refine hpipeline.bind (fun hg b hb => ?_) fun hg => ((listFits_last hv hne).mp hg).1
        obtain ⟨pipeline, next, c⟩ := b
        obtain rfl : c = .end_ := hb.2.mpr rfl
        exact ⟨(listFits_last hv hne).mpr ⟨hg, Nat.succ_pos _⟩, trivial⟩
  · cases hvr : v ++ t :: rest with
    | nil => exact absurd hvr (by simp)
    | cons x xs =>
      cases room with
      | zero =>
        rintro ⟨-, hfits, -⟩
        rcases hfits with h | h
        · exact absurd h (by simp)
        · exact absurd h (Nat.not_lt_zero _)
      | succ room =>
        rw [parseEntries, ← hvr]
        swap
        · simp
        have hpipeline : Decides (parsePipeline (v ++ t :: rest)) _ _ :=
          parsePipeline_decides (Or.inr ⟨t, rest, rfl, ht⟩) hv
        refine hpipeline.bind (fun hg b hb => ?_) fun hg => ((listFits_append hv ht).mp hg).1
        obtain ⟨pipeline, next, c⟩ := b
        obtain ⟨rfl, hend⟩ : next = rest ∧ (c = .end_ ↔ t :: rest = []) := hb
        have hne : c ≠ .end_ := fun he => absurd (hend.mp he) (by simp)
        simp only [if_neg hne]
        refine (ih room).bind (fun hg' _ _ => ?_) fun hg' => ((listFits_append hv ht).mp hg').2
        exact ⟨(listFits_append hv ht).mpr ⟨hg, hg'⟩, trivial⟩

theorem WithinLimits.listFits (h : WithinLimits tokens) : ListFits maxEntries tokens :=
  ⟨Or.inr h.entries, fun part hpart => ⟨h.stages part hpart, h.words part hpart⟩⟩

theorem parseList_ok_iff (h : WithinLimits tokens) :
    (parseList tokens).toOption.isSome = true ↔ tokens ∈ Lenient.list := by
  rw [parseList, (parseEntries_decides tokens maxEntries).isOk, and_iff_left h.listFits]

/-- **The parser accepts the grammar** within its tables, unless the tokens are accepted and there
are none, an operator of lists is at the end, or a word stands after a redirection. -/
theorem parseList_grammar_iff (h : WithinLimits tokens) :
    ((parseList tokens).toOption.isSome = true ↔ tokens ∈ Grammar.list) ↔
      (tokens ∈ Lenient.list → tokens ≠ [] ∧ ¬ EndsInSeparator tokens ∧ ¬ LateWord tokens) := by
  rw [parseList_ok_iff h, mem_list_iff_lenient]
  exact ⟨fun h hl => (h.mp hl).2, fun h => ⟨fun hl => ⟨hl, h hl⟩, fun hl => hl.1⟩⟩

/-- An unquoted word of one letter. -/
def letter (b : UInt8) : Token := .word ⟨[⟨[b], .unquoted, false⟩]⟩

/-- The tokens of `a | b`. -/
theorem parseList_grammar_iff_sample :
    WithinLimits [letter 97, .operator .pipe, letter 98] ∧
      (((parseList [letter 97, .operator .pipe, letter 98]).toOption.isSome = true ↔
          [letter 97, .operator .pipe, letter 98] ∈ Grammar.list) ↔
        ([letter 97, .operator .pipe, letter 98] ∈ Lenient.list →
          ([letter 97, .operator .pipe, letter 98] : List Token) ≠ [] ∧
          ¬ EndsInSeparator [letter 97, .operator .pipe, letter 98] ∧
          ¬ LateWord [letter 97, .operator .pipe, letter 98])) := by
  have h : WithinLimits [letter 97, .operator .pipe, letter 98] :=
    ⟨by decide, by decide, by decide⟩
  exact ⟨h, parseList_grammar_iff h⟩

/-- `a &&` is accepted, and not in the grammar. -/
theorem trailing_operator :
    WithinLimits [letter 97, .operator .and] ∧
      (parseList [letter 97, .operator .and]).toOption.isSome = true ∧
      [letter 97, .operator .and] ∉ Grammar.list := by
  refine ⟨⟨by decide, by decide, by decide⟩, by decide, fun h => ?_⟩
  exact (mem_list_iff_lenient.mp h).2.2.1 ⟨[letter 97], .operator .and, rfl, rfl⟩

end Parsing

end ImagineOS.Shell
