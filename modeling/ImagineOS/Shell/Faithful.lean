import ImagineOS.Shell.Grammar
import ImagineOS.Shell.Tables

/-!
# Shell: what the parser keeps of its tokens

A list can be written out as tokens again: the words of each command, then its redirections, with
the operators between commands and pipelines. What the parser was given is not always the same,
since a command does not remember where its redirections stood. But it can be rearranged into that
(`flatten_parseList`): a redirection is moved behind the next word of its command, or behind a
redirection of the other direction, and it is left out if another one of the same direction follows.
No other token is touched.
-/

namespace ImagineOS.Shell

open Relation

/-! ### Redirections -/

/-- Where a redirection puts its target. -/
def Operator.slot : Operator → RedirectSlot
  | .redirectIn => .in_
  | .redirectOut | .redirectAppend => .out
  | _ => .none

/-- The tokens of a redirection, if there is one. -/
def redirection (o : Operator) (target : Option Word) : List Token :=
  target.toList.flatMap fun word => [.operator o, .word word]

/-- A redirection is moved behind what follows it, or is superseded by it. -/
inductive Moves : List Token → List Token → Prop
  | word (front back : List Token) {o : Operator} (ho : o.slot ≠ .none) (target word : Word) :
    Moves (front ++ (.operator o :: .word target :: .word word :: back))
      (front ++ (.word word :: .operator o :: .word target :: back))
  | redirect (front back : List Token) {o o' : Operator} (ho : o.slot ≠ .none)
    (ho' : o'.slot ≠ .none) (hne : o.slot ≠ o'.slot) (target target' : Word) :
    Moves (front ++ (.operator o :: .word target :: .operator o' :: .word target' :: back))
      (front ++ (.operator o' :: .word target' :: .operator o :: .word target :: back))
  | supersede (front back : List Token) {o o' : Operator} (ho : o.slot ≠ .none)
    (heq : o.slot = o'.slot) (target target' : Word) :
    Moves (front ++ (.operator o :: .word target :: .operator o' :: .word target' :: back))
      (front ++ (.operator o' :: .word target' :: back))

/-- Redirections are moved, or are superseded. -/
abbrev Rearranged : List Token → List Token → Prop := ReflTransGen Moves

section Rearranged

variable {as bs cs : List Token} {o o' : Operator}

theorem Moves.append (h : Moves as bs) (front back : List Token) :
    Moves (front ++ as ++ back) (front ++ bs ++ back) := by
  cases h with
  | word f b ho target word =>
    simpa using Moves.word (front ++ f) (b ++ back) ho target word
  | redirect f b ho ho' hne target target' =>
    simpa using Moves.redirect (front ++ f) (b ++ back) ho ho' hne target target'
  | supersede f b ho heq target target' =>
    simpa using Moves.supersede (front ++ f) (b ++ back) ho heq target target'

theorem Rearranged.append (h : Rearranged as bs) (front back : List Token) :
    Rearranged (front ++ as ++ back) (front ++ bs ++ back) :=
  ReflTransGen.lift (fun l => front ++ l ++ back) (fun _ _ h => h.append front back) as bs h

theorem Rearranged.left (h : Rearranged as bs) (back : List Token) :
    Rearranged (as ++ back) (bs ++ back) := h.append [] back

theorem Rearranged.right (h : Rearranged as bs) (front : List Token) :
    Rearranged (front ++ as) (front ++ bs) := by
  have happend := h.append front []
  rwa [List.append_nil, List.append_nil] at happend

theorem rearranged_word (ho : o.slot ≠ .none) (target : Option Word) (word : Word) :
    Rearranged (redirection o target ++ [.word word]) (.word word :: redirection o target) := by
  cases target with
  | none => exact .refl
  | some target => exact .single (.word [] [] ho target word)

theorem rearranged_redirect (ho : o.slot ≠ .none) (ho' : o'.slot ≠ .none) (hne : o.slot ≠ o'.slot)
    (target : Option Word) (target' : Word) :
    Rearranged (redirection o target ++ [.operator o', .word target'])
      ([.operator o', .word target'] ++ redirection o target) := by
  cases target with
  | none => exact .refl
  | some target => exact .single (.redirect [] [] ho ho' hne target target')

theorem rearranged_supersede (ho : o.slot ≠ .none) (heq : o.slot = o'.slot)
    (target : Option Word) (target' : Word) :
    Rearranged (redirection o target ++ [.operator o', .word target'])
      [.operator o', .word target'] := by
  cases target with
  | none => exact .refl
  | some target => exact .single (.supersede [] [] ho heq target target')

end Rearranged

/-! ### Commands -/

/-- The operator of a redirection of the output. -/
def outOperator (append : Bool) : Operator := if append then .redirectAppend else .redirectOut

/-- The tokens of a command. -/
def flattenCommand (c : Command) : List Token :=
  c.words.map .word ++ (redirection .redirectIn c.stdin ++
    redirection (outOperator c.append) c.stdout)

/-- A redirection of a command. -/
def Command.redirect (c : Command) (o : Operator) (target : Word) : Command :=
  match o with
  | .redirectIn => { c with stdin := some target }
  | .redirectOut => { c with stdout := some target, append := false }
  | .redirectAppend => { c with stdout := some target, append := true }
  | _ => c

section Commands

variable {c c' : Command} {tokens rest : List Token}

theorem slot_outOperator (append : Bool) : (outOperator append).slot = .out := by
  cases append <;> rfl

theorem rearranged_append_word (c : Command) (word : Word) :
    Rearranged (flattenCommand c ++ [.word word])
      (flattenCommand { c with words := c.words ++ [word] }) := by
  have hout := (@rearranged_word (outOperator c.append) (by rw [slot_outOperator]; nofun)
    c.stdout word).right (c.words.map Token.word ++ redirection .redirectIn c.stdin)
  have hin := (@rearranged_word .redirectIn nofun c.stdin word).append (c.words.map Token.word)
    (redirection (outOperator c.append) c.stdout)
  simp only [flattenCommand, List.map_append, List.map_cons, List.map_nil]
  simp only [List.append_assoc, List.cons_append, List.nil_append] at hout hin ⊢
  exact hout.trans hin

variable {o : Operator}

/-- One more redirection. -/
theorem rearranged_append_redirect (c : Command) (ho : o.slot ≠ .none) (target : Word) :
    Rearranged (flattenCommand c ++ [.operator o, .word target])
      (flattenCommand (c.redirect o target)) := by
  have hout : ∀ append, o = outOperator append →
      Rearranged (flattenCommand c ++ [.operator o, .word target])
        (c.words.map .word ++ (redirection .redirectIn c.stdin ++
          redirection (outOperator append) (some target))) := by
    intro append heq
    have hsame : (outOperator c.append).slot = o.slot := by
      rw [heq, slot_outOperator, slot_outOperator]
    have hmove := (@rearranged_supersede _ o (hsame ▸ ho) hsame c.stdout target).right
      (c.words.map Token.word ++ redirection .redirectIn c.stdin)
    rw [flattenCommand, ← heq]
    simp only [List.append_assoc] at hmove ⊢
    exact hmove
  cases o with
  | redirectIn =>
    have hother := (@rearranged_redirect (outOperator c.append) .redirectIn
      (by rw [slot_outOperator]; nofun) ho (by rw [slot_outOperator]; nofun) c.stdout target).right
      (c.words.map Token.word ++ redirection .redirectIn c.stdin)
    have hsame := (@rearranged_supersede .redirectIn .redirectIn ho rfl c.stdin target).append
      (c.words.map Token.word) (redirection (outOperator c.append) c.stdout)
    show Rearranged (flattenCommand c ++ _) (c.words.map .word ++
      ([.operator .redirectIn, .word target] ++ redirection (outOperator c.append) c.stdout))
    rw [flattenCommand]
    simp only [List.append_assoc] at hother hsame ⊢
    exact hother.trans hsame
  | redirectOut => exact hout false rfl
  | redirectAppend => exact hout true rfl
  | pipe | and | or | semicolon | background => exact absurd rfl ho

theorem parseCommandLoop_target (c : Command) (ho : o.slot ≠ .none)
    (target : Word) (rest : List Token) :
    parseCommandLoop (.operator o :: .word target :: rest) c .none =
      parseCommandLoop rest (c.redirect o target) .none := by
  cases o <;> first
    | rfl
    | exact absurd rfl ho

theorem parseCommandLoop_dangling (c : Command) (ho : o.slot ≠ .none)
    (hrest : ∀ word rest', rest ≠ .word word :: rest') :
    parseCommandLoop (.operator o :: rest) c .none = .error .missingRedirectionTarget := by
  have hwaits : ∀ (c : Command) (slot : RedirectSlot), slot ≠ .none →
      parseCommandLoop rest c slot = .error .missingRedirectionTarget := by
    intro c slot hslot
    cases rest with
    | nil => exact if_pos hslot
    | cons t rest =>
      cases t with
      | word word => exact absurd rfl (hrest word rest)
      | operator o => cases o <;> exact if_pos hslot
  cases o with
  | redirectIn => exact hwaits _ .in_ nofun
  | redirectOut | redirectAppend => exact hwaits _ .out nofun
  | pipe | and | or | semicolon | background => exact absurd rfl ho

theorem parseCommandLoop_end (c : Command) (ho : o.slot = .none) (rest : List Token) :
    parseCommandLoop (.operator o :: rest) c .none =
      finishCommand c .none (.operator o :: rest) := by
  cases o <;> first
    | rfl
    | cases ho

theorem flatten_finishCommand (h : finishCommand c .none tokens = .ok (c', rest)) :
    ∃ v, tokens = v ++ rest ∧ Rearranged (flattenCommand c ++ v) (flattenCommand c') := by
  rw [finishCommand, if_neg (by simp)] at h
  split at h
  · cases h
  · cases h
    exact ⟨[], rfl, by rw [List.append_nil]⟩

theorem isRedirect_iff (o : Operator) :
    (Token.operator o).isRedirect = true ↔ o.slot ≠ .none := by
  cases o <;> simp [Token.isRedirect, Operator.slot]

/-- The loop keeps what it reads. -/
theorem flatten_parseCommandLoop (h : parseCommandLoop tokens c .none = .ok (c', rest)) :
    ∃ v, tokens = v ++ rest ∧ Rearranged (flattenCommand c ++ v) (flattenCommand c') := by
  induction tokens using items.induct generalizing c with
  | case1 => exact flatten_finishCommand h
  | case2 word tokens ih =>
    rw [parseCommandLoop] at h
    split at h
    · cases h
    · obtain ⟨v, rfl, hv⟩ := ih h
      have hword := (rearranged_append_word c word).left v
      rw [List.append_assoc] at hword
      exact ⟨.word word :: v, rfl, hword.trans hv⟩
  | case3 o target tokens ho ih =>
    have hslot := (isRedirect_iff o).mp ho
    rw [parseCommandLoop_target c hslot] at h
    obtain ⟨v, rfl, hv⟩ := ih h
    have hredirect := (rearranged_append_redirect c hslot target).left v
    rw [List.append_assoc] at hredirect
    exact ⟨.operator o :: .word target :: v, rfl, hredirect.trans hv⟩
  | case4 o target tokens ho =>
    have hslot : o.slot = .none := by_contra fun hslot => ho ((isRedirect_iff o).mpr hslot)
    rw [parseCommandLoop_end c hslot] at h
    exact flatten_finishCommand h
  | case5 o tokens htokens =>
    by_cases hslot : o.slot = .none
    · rw [parseCommandLoop_end c hslot] at h
      exact flatten_finishCommand h
    · rw [parseCommandLoop_dangling c hslot fun word rest' heq => htokens word rest' heq] at h
      cases h

/-- **A command** keeps what it reads. -/
theorem flatten_parseCommand (h : parseCommand tokens = .ok (c, rest)) :
    ∃ v, tokens = v ++ rest ∧ Rearranged v (flattenCommand c) :=
  flatten_parseCommandLoop h

end Commands

/-! ### Lists -/

/-- The tokens of commands, with `|` between them. -/
def flattenStages : List Command → List Token
  | [] => []
  | [c] => flattenCommand c
  | c :: cs => flattenCommand c ++ .operator .pipe :: flattenStages cs

/-- The token of a connector. -/
def flattenConnector : Connector → List Token
  | .always => [.operator .semicolon]
  | .onSuccess => [.operator .and]
  | .onFailure => [.operator .or]
  | .background => [.operator .background]
  | .end_ => []

/-- **The tokens of a list.** -/
def flatten (entries : List Entry) : List Token :=
  entries.flatMap fun e => flattenStages e.pipeline.commands ++ flattenConnector e.connector

section Lists

variable {tokens rest : List Token} {commands : List Command} {p : Pipeline} {room : ℕ}

theorem flattenStages_cons (c : Command) {cs : List Command} (h : cs ≠ []) :
    flattenStages (c :: cs) = flattenCommand c ++ .operator .pipe :: flattenStages cs := by
  cases cs with
  | nil => exact absurd rfl h
  | cons => rfl

/-- **A pipeline** keeps what it reads. -/
theorem flatten_parseStages (h : parseStages room commands tokens = .ok (p, rest)) :
    ∃ stages v, p.commands = commands ++ stages ∧ stages ≠ [] ∧ tokens = v ++ rest ∧
      Rearranged v (flattenStages stages) := by
  induction room generalizing commands tokens with
  | zero => cases tokens <;> cases h
  | succ room ih =>
    cases tokens with
    | nil => cases h
    | cons t tokens =>
      rw [parseStages] at h
      swap
      · simp
      cases hcommand : parseCommand (t :: tokens) with
      | error => rw [hcommand] at h; cases h
      | ok r =>
        obtain ⟨c, next⟩ := r
        obtain ⟨v, hv, hmoves⟩ := flatten_parseCommand hcommand
        rw [hcommand] at h
        dsimp only [bind, Except.bind] at h
        split at h
        · rename_i next
          obtain ⟨stages, w, hp, hne, rfl, hw⟩ := ih h
          refine ⟨c :: stages, v ++ .operator .pipe :: w, ?_, by simp, ?_, ?_⟩
          · rw [hp, List.append_assoc]
            rfl
          · rw [hv, List.append_assoc]
            rfl
          · rw [flattenStages_cons c hne]
            refine (hmoves.left _).trans ?_
            rw [← List.singleton_append, ← @List.singleton_append _ _ (flattenStages stages),
              ← List.append_assoc, ← List.append_assoc]
            exact hw.right _
        · cases h
          exact ⟨[c], v, rfl, by simp, hv, hmoves⟩

theorem flatten_parseConnector {next : List Token} {connector : Connector}
    (h : parseConnector tokens = .ok (next, connector)) :
    tokens = flattenConnector connector ++ next ∧ (connector = .end_ → next = []) := by
  cases tokens with
  | nil =>
    cases h
    exact ⟨rfl, fun _ => rfl⟩
  | cons t rest =>
    cases t with
    | word => cases h
    | operator o =>
      cases o <;> cases h <;> exact ⟨rfl, nofun⟩

theorem flatten_parsePipeline {next : List Token} {connector : Connector}
    (h : parsePipeline tokens = .ok (p, next, connector)) :
    ∃ v, tokens = v ++ flattenConnector connector ++ next ∧
      Rearranged v (flattenStages p.commands) ∧ (connector = .end_ → next = []) := by
  rw [parsePipeline] at h
  cases hstages : parseStages maxPipeline [] tokens with
  | error => rw [hstages] at h; cases h
  | ok r =>
    obtain ⟨p', rest⟩ := r
    rw [hstages] at h
    dsimp only [bind, Except.bind] at h
    cases hconnector : parseConnector rest with
    | error => rw [hconnector] at h; cases h
    | ok r =>
      obtain ⟨next', connector'⟩ := r
      rw [hconnector] at h
      cases h
      obtain ⟨stages, v, hp, -, rfl, hv⟩ := flatten_parseStages hstages
      obtain ⟨rfl, hend⟩ := flatten_parseConnector hconnector
      rw [List.nil_append] at hp
      exact ⟨v, (List.append_assoc _ _ _).symm, hp ▸ hv, hend⟩

/-- A list keeps what it reads. -/
theorem flatten_parseEntries {entries : List Entry} (h : parseEntries room tokens = .ok entries) :
    Rearranged tokens (flatten entries) := by
  induction room generalizing tokens entries with
  | zero =>
    cases tokens with
    | nil =>
      cases h
      exact .refl
    | cons => cases h
  | succ room ih =>
    cases tokens with
    | nil =>
      cases h
      exact .refl
    | cons t tokens =>
      rw [parseEntries] at h
      swap
      · simp
      cases hpipeline : parsePipeline (t :: tokens) with
      | error => rw [hpipeline] at h; cases h
      | ok r =>
        obtain ⟨p, next, connector⟩ := r
        obtain ⟨v, htokens, hv, hend⟩ := flatten_parsePipeline hpipeline
        rw [hpipeline] at h
        replace h : (if connector = .end_ then Except.ok [⟨p, connector⟩]
          else do
            let entries ← parseEntries room next
            .ok (⟨p, connector⟩ :: entries)) = .ok entries := h
        have hfirst : ∀ entries, Rearranged next (flatten entries) →
            Rearranged (t :: tokens) (flatten (⟨p, connector⟩ :: entries)) := by
          intro entries hnext
          rw [htokens, flatten, List.flatMap_cons]
          exact ((hv.left _).left next).trans (hnext.right _)
        split at h
        · rename_i hlast
          cases h
          rw [hend hlast] at hfirst
          exact hfirst [] .refl
        · cases hentries : parseEntries room next with
          | error => rw [hentries] at h; cases h
          | ok entries' =>
            rw [hentries] at h
            cases h
            exact hfirst entries' (ih hentries)

/-- **The parser keeps its tokens.** What is in use of its tables, written out as tokens again, is
what it was given, up to redirections that were moved behind something else of their command or were
superseded there. -/
theorem flatten_parseList {count : ℕ} {entries table : Vector Tables.EntryTable maxEntries}
    (h : Tables.parseList tokens entries = .ok (count, table)) :
    Rearranged tokens (flatten (Tables.usedEntries table count)) := by
  obtain ⟨list, hlist, rfl⟩ := (Tables.parseList_agrees tokens entries).of_ok h
  exact flatten_parseEntries hlist

end Lists

/-- A table without entries. -/
def noEntries : Vector Tables.EntryTable maxEntries :=
  Vector.replicate maxEntries ⟨.empty, .end_⟩

/-- An unquoted word. -/
def unquotedWord (bytes : List UInt8) : Word := ⟨[⟨bytes, .unquoted, false⟩]⟩

/-- `> f a | b &` -/
theorem flatten_parseList_late :
    Rearranged
      [.operator .redirectOut, .word (unquotedWord [102]), .word (unquotedWord [97]),
        .operator .pipe, .word (unquotedWord [98]), .operator .background]
      [.word (unquotedWord [97]), .operator .redirectOut, .word (unquotedWord [102]),
        .operator .pipe, .word (unquotedWord [98]), .operator .background] :=
  @flatten_parseList [.operator .redirectOut, .word (unquotedWord [102]),
    .word (unquotedWord [97]), .operator .pipe, .word (unquotedWord [98]), .operator .background]
    _ noEntries _ rfl

/-- **The places of redirections are lost**, also where none is superseded. -/
theorem redirection_place_lost :
    ¬ ∃ unparse : ℕ × Vector Tables.EntryTable maxEntries → List Token,
      ∀ tokens result, tokens.countP Token.isRedirect ≤ 1 →
        Tables.parseList tokens noEntries = .ok result → unparse result = tokens := by
  rintro ⟨unparse, h⟩
  have hlate := h [.operator .redirectOut, .word ⟨[]⟩, .word ⟨[]⟩] _ (by decide) rfl
  have hearly := h [.word ⟨[]⟩, .operator .redirectOut, .word ⟨[]⟩] _ (by decide) rfl
  have hsame := hlate.symm.trans hearly
  revert hsame
  decide

end ImagineOS.Shell
