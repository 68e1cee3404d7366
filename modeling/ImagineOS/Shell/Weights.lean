import ImagineOS.Checked
import ImagineOS.Shell.Plain
import Mathlib.Algebra.GroupWithZero.Nat

/-!
# Shell: what a line weighs

Reading a line only ever takes bytes from it: quotes, escapes, blanks and comments are not part of a
word. A line therefore weighs at least what its words cost, where every word pays for one byte after
it, and exactly as much only if each word was read whole, from one unquoted run (`Tokens.cost`).
-/

namespace ImagineOS.Shell

open List

variable {word line rest : List UInt8} {words : List (List UInt8)} {segment : Segment} {room : ℕ}

/-! ### Weights -/

/-- The bytes, of which a `$` counts for more than a field can hold. -/
def weight (bytes : List UInt8) : ℕ := bytes.length + (fieldSize + 1) * bytes.count dollar

/-- The room that words take, each with the space after it. -/
def cost (words : List (List UInt8)) : ℕ := (words.map fun word => weight word + 1).sum

variable {as bs : List UInt8} {vs ws : List (List UInt8)}

theorem weight_append : weight (as ++ bs) = weight as + weight bs := by
  simp only [weight, fieldSize, length_append, count_append]
  omega

theorem weight_cons_pos (b : UInt8) (bs : List UInt8) : weight bs + 1 ≤ weight (b :: bs) := by
  simp only [weight, fieldSize, length_cons, count_cons]
  omega

theorem weight_le (h : as.Sublist bs) : weight as ≤ weight bs :=
  Nat.add_le_add h.length_le (Nat.mul_le_mul_left _ (h.count_le _))

theorem eq_of_weight (h : as.Sublist bs) (hweight : weight bs ≤ weight as) : as = bs := by
  have hcount := h.count_le dollar
  have hlength := h.length_le
  simp only [weight, fieldSize] at hweight
  exact h.eq_of_length (by omega)

/-- A field that lost a `$` weighs less. -/
theorem weight_lt (hsize : as.length ≤ fieldSize) (h : as.count dollar < bs.count dollar) :
    weight as < weight bs := by
  simp only [weight, fieldSize] at hsize ⊢
  omega

@[simp] theorem cost_nil : cost [] = 0 := rfl

@[simp] theorem cost_cons : cost (word :: words) = weight word + 1 + cost words := rfl

@[simp] theorem cost_append : cost (vs ++ ws) = cost vs + cost ws := by
  simp only [cost, map_append, sum_append]

theorem cost_le (h : vs.Sublist ws) : cost vs ≤ cost ws := by
  induction h with
  | slnil => exact Nat.le_refl _
  | cons word _ ih => exact Nat.le_trans ih (Nat.le_add_left ..)
  | cons_cons word _ ih => exact Nat.add_le_add_left ih _

theorem weight_flatMap_space : weight (words.flatMap (32 :: ·)) = cost words := by
  induction words with
  | nil => rfl
  | cons word words ih =>
    have hspace : weight (32 :: word) = weight word + 1 := by
      simp [weight, show ¬ (32 : UInt8) = dollar by decide]
      omega
    rw [flatMap_cons, weight_append, ih, hspace, cost_cons]

theorem weight_joined (h : words ≠ []) : weight (joined words) + 1 = cost words := by
  obtain ⟨word, words, rfl⟩ := exists_cons_of_ne_nil h
  rw [joined, weight_append, weight_flatMap_space, cost_cons]
  omega

/-! ### Reading removes bytes -/

/-- The text of segments. -/
def text (segments : List Segment) : List UInt8 := segments.flatMap Segment.bytes

/-- A segment of bytes that are not quoted. -/
structure Segment.IsRun (segment : Segment) : Prop where
  unquoted : segment.kind = .unquoted
  copies : segment.copiesVariable = segment.bytes.contains dollar
  ne_nil : segment.bytes ≠ []
  inner : ∀ b ∈ segment.bytes, endsRun [b] = false

variable {segment' : Segment} {b : UInt8}

theorem pushByte_ok (h : segment.pushByte b = .ok segment') :
    segment'.bytes = segment.bytes ++ [b] := by
  rw [Segment.pushByte] at h
  split at h
  · cases h
  · rw [← Except.ok.inj h]

theorem foldlM_pushByte_ok {bytes : List UInt8}
    (h : bytes.foldlM Segment.pushByte segment = .ok segment') :
    segment' = { segment with bytes := segment.bytes ++ bytes } := by
  induction bytes generalizing segment with
  | nil => simpa using (Except.ok.inj h).symm
  | cons b bytes ih =>
    rw [foldlM_cons, Segment.pushByte] at h
    split at h
    · cases h
    · rw [ih h]
      simp

theorem ofBytes_eq {bytes : List UInt8} {kind : SegmentKind} {copiesVariable : Bool}
    (h : Segment.ofBytes bytes kind copiesVariable = .ok segment) :
    segment = ⟨bytes, kind, copiesVariable⟩ := foldlM_pushByte_ok h

/-- The closing quote is not part of the segment. -/
theorem readDoubleQuoted_ok (h : readDoubleQuoted line segment = .ok (segment', rest)) :
    ∃ content, segment'.bytes = segment.bytes ++ content ∧
      (content ++ doubleQuote :: rest).Sublist line := by
  fun_induction readDoubleQuoted line segment with
  | case1 => cases h
  | case2 segment =>
    obtain ⟨rfl, rfl⟩ := Prod.mk.inj (Except.ok.inj h)
    exact ⟨[], by simp, List.Sublist.refl _⟩
  | case3 =>
    obtain ⟨_, _, h⟩ := bind_eq_ok.mp h
    cases h
  | case4 segment next tail =>
    obtain ⟨rfl, rfl⟩ := Prod.mk.inj (Except.ok.inj h)
    exact ⟨[], by simp, List.Sublist.refl _⟩
  | case5 byte next tail segment hquote hescape ih =>
    obtain ⟨pushed, hpush, h⟩ := bind_eq_ok.mp h
    obtain ⟨content, hbytes, hsub⟩ := ih pushed h
    refine ⟨next :: content, ?_, ?_⟩
    · rw [hbytes, pushByte_ok hpush, append_assoc, singleton_append]
    · exact (hsub.cons_cons next).cons byte
  | case6 byte next tail segment hquote hescape ih =>
    obtain ⟨pushed, hpush, h⟩ := bind_eq_ok.mp h
    obtain ⟨content, hbytes, hsub⟩ := ih pushed h
    refine ⟨byte :: content, ?_, hsub.cons_cons byte⟩
    rw [hbytes, pushByte_ok hpush, append_assoc, singleton_append]

theorem unquotedRun_spec (line : List UInt8) :
    (unquotedRun line).1 ++ (unquotedRun line).2 = line ∧
      (∀ b ∈ (unquotedRun line).1, endsRun [b] = false) ∧ endsRun (unquotedRun line).2 := by
  induction line with
  | nil => exact ⟨rfl, by simp [unquotedRun], rfl⟩
  | cons b line ih =>
    rw [unquotedRun]
    split
    · rename_i hends
      exact ⟨rfl, by simp, hends⟩
    · rename_i hends
      rw [endsRun_cons, Bool.not_eq_true] at hends
      exact ⟨congrArg (b :: ·) ih.1, forall_mem_cons.mpr ⟨hends, ih.2.1⟩, ih.2.2⟩

theorem lost {P : Prop} (h : as.Sublist bs) :
    as.Sublist (b :: bs) ∧ (as = b :: bs → P) :=
  ⟨h.cons b, fun heq => absurd h.length_le (by rw [heq, length_cons]; omega)⟩

/-- A segment is made of the bytes it was read from, of which only a run keeps all. -/
theorem readSegment_ok (h : readSegment line = .ok (segment, rest))
    (hline : endsWord line = false) :
    (segment.bytes ++ rest).Sublist line ∧ (segment.bytes ++ rest = line →
      segment.IsRun ∧ endsRun line = false ∧ endsRun rest) := by
  cases line with
  | nil => cases h
  | cons byte tail =>
    rw [readSegment.eq_def] at h
    dsimp only at h
    split at h
    · split at h
      · cases h
      · rename_i closing after hdrop
        obtain ⟨_, hbytes, h⟩ := bind_eq_ok.mp h
        obtain ⟨rfl, rfl⟩ := Prod.mk.inj (Except.ok.inj h)
        rw [ofBytes_eq hbytes]
        refine lost ?_
        have hsplit : tail.takeWhile (· != singleQuote) ++ closing :: after = tail := by
          rw [← hdrop, takeWhile_append_dropWhile]
        have hsub : (tail.takeWhile (· != singleQuote) ++ after).Sublist
            (tail.takeWhile (· != singleQuote) ++ closing :: after) :=
          (List.Sublist.refl _).append (sublist_cons_self _ _)
        rwa [hsplit] at hsub
    · split at h
      · obtain ⟨content, hbytes, hsub⟩ := readDoubleQuoted_ok h
        rw [nil_append] at hbytes
        rw [hbytes]
        exact lost (((List.Sublist.refl _).append (sublist_cons_self _ _)).trans hsub)
      · split at h
        · split at h
          · cases h
          · obtain ⟨_, hbytes, h⟩ := bind_eq_ok.mp h
            obtain ⟨rfl, rfl⟩ := Prod.mk.inj (Except.ok.inj h)
            rw [ofBytes_eq hbytes]
            exact lost (List.Sublist.refl _)
        · rename_i hsingle hdouble hback
          obtain ⟨_, hbytes, h⟩ := bind_eq_ok.mp h
          obtain ⟨rfl, rfl⟩ := Prod.mk.inj (Except.ok.inj h)
          rw [ofBytes_eq hbytes]
          obtain ⟨happend, hinner, hends⟩ := unquotedRun_spec (byte :: tail)
          have hline : endsRun (byte :: tail) = false := by
            simp only [endsWord, Bool.or_eq_false_iff] at hline
            simp [endsRun, hline.1, hline.2, hsingle, hdouble, hback]
          refine ⟨?_, fun _ => ⟨⟨rfl, rfl, ?_, hinner⟩, hline, hends⟩⟩
          · dsimp only
            rw [happend]
          · rw [unquotedRun, hline]
            simp

/-- A word is made of the bytes it was read from, of which only a single run keeps all. -/
theorem readWord_ok {word word' : Word} (h : readWord room word line = .ok (word', rest)) :
    ∃ segments, word'.segments = word.segments ++ segments ∧ word'.segments ≠ [] ∧ endsWord rest ∧
      (text segments ++ rest).Sublist line ∧ (text segments ++ rest = line →
        segments = [] ∨ endsRun line = false ∧ ∃ segment, segments = [segment] ∧
          segment.IsRun) := by
  induction room generalizing word line with
  | zero =>
    rw [readWord] at h
    split at h
    · rename_i hends
      split at h
      · cases h
      · rename_i hne
        obtain ⟨rfl, rfl⟩ := Prod.mk.inj (Except.ok.inj h)
        exact ⟨[], by simp, hne, hends, List.Sublist.refl _, fun _ => Or.inl rfl⟩
    · obtain ⟨_, _, h⟩ := bind_eq_ok.mp h
      cases h
  | succ room ih =>
    rw [readWord] at h
    split at h
    · rename_i hends
      split at h
      · cases h
      · rename_i hne
        obtain ⟨rfl, rfl⟩ := Prod.mk.inj (Except.ok.inj h)
        exact ⟨[], by simp, hne, hends, List.Sublist.refl _, fun _ => Or.inl rfl⟩
    · rename_i hends
      obtain ⟨⟨segment, after⟩, hread, h⟩ := bind_eq_ok.mp h
      obtain ⟨hsub, hrun⟩ := readSegment_ok hread (Bool.eq_false_iff.mpr hends)
      obtain ⟨segments, hsegments, hne, hrest, hsub', hrun'⟩ := ih h
      refine ⟨segment :: segments, by simp [hsegments], hne, hrest, ?_, fun heq => ?_⟩
      · rw [text, flatMap_cons, append_assoc]
        exact ((List.Sublist.refl _).append hsub').trans hsub
      · rw [text, flatMap_cons, append_assoc] at heq
        have hafter : text segments ++ rest = after := by
          refine hsub'.eq_of_length (Nat.le_antisymm hsub'.length_le ?_)
          have hlen := hsub.length_le
          rw [← heq, length_append, length_append] at hlen
          exact Nat.le_of_add_le_add_left hlen
        obtain ⟨hIsRun, hline, hendsRun⟩ := hrun (by rw [← hafter]; exact heq)
        -- What ends a run cannot be read as another one.
        refine Or.inr ⟨hline, segment, ?_, hIsRun⟩
        rcases hrun' hafter with rfl | ⟨hstart, -⟩
        · rfl
        · rw [hendsRun] at hstart
          cases hstart

/-! ### The words of a line -/

/-- The texts of the words among tokens. -/
def texts (tokens : List Token) : List (List UInt8) :=
  tokens.filterMap fun token => match token with
    | .word word => some (text word.segments)
    | .operator _ => none

/-- A word that was read whole from an unquoted run. -/
structure Word.IsRun (word : Word) : Prop where
  single : ∃ segment, word.segments = [segment] ∧ segment.IsRun
  not_comment : (text word.segments).head? ≠ some hash

/-- The most that the words of a line can cost. -/
def bound (line : List UInt8) : ℕ := if endsWord line then weight line else weight line + 1

theorem weight_le_bound (line : List UInt8) : weight line ≤ bound line := by
  unfold bound
  split <;> omega

theorem bound_le (line : List UInt8) : bound line ≤ weight line + 1 := by
  unfold bound
  split <;> omega

theorem lt_bound_of_blank (hb : isBlank b) (line : List UInt8) :
    weight line + 1 ≤ bound (b :: line) := by
  rw [bound, if_pos (by simp [endsWord, hb])]
  exact weight_cons_pos b line

theorem bound_dropWhile (line : List UInt8) : bound (line.dropWhile isBlank) ≤ bound line := by
  induction line with
  | nil => exact Nat.le_refl _
  | cons b line ih =>
    rw [dropWhile_cons]
    split
    · rename_i hb
      exact Nat.le_trans ih (Nat.le_trans (bound_le line) (lt_bound_of_blank hb line))
    · exact Nat.le_refl _

/-- The tokens of a line, one after the other. -/
inductive Tokens : List UInt8 → List Token → Prop
  | nil (line : List UInt8) : Tokens line []
  | operator {line : List UInt8} {operator : Operator} {width : ℕ} {tokens : List Token}
      (at_start : operatorAt (line.dropWhile isBlank) = some (operator, width))
      (rest : Tokens ((line.dropWhile isBlank).drop width) tokens) :
      Tokens line (.operator operator :: tokens)
  | word {line tail rest : List UInt8} {byte : UInt8} {word : Word} {tokens : List Token}
      (start : line.dropWhile isBlank = byte :: tail) (not_comment : byte ≠ hash)
      (not_operator : operatorAt (byte :: tail) = none)
      (read : readWord maxSegments ⟨[]⟩ (byte :: tail) = .ok (word, rest))
      (after : Tokens rest tokens) : Tokens line (.word word :: tokens)

variable {tokens : List Token}

theorem tokenizeLoop_tokens (h : tokenizeLoop room line = .ok tokens) :
    Tokens line tokens := by
  induction room generalizing line tokens with
  | zero =>
    rw [tokenizeLoop] at h
    split at h
    · cases h
      exact .nil line
    · split at h
      · cases h
        exact .nil line
      · cases h
  | succ room ih =>
    rw [tokenizeLoop] at h
    split at h
    · cases h
      exact .nil line
    · rename_i byte tail hstart
      split at h
      · cases h
        exact .nil line
      · rename_i hcomment
        split at h
        · cases h
        · rename_i operator width room' hop hroom
          obtain ⟨tokens, htokens, h⟩ := bind_eq_ok.mp h
          cases h
          cases hroom
          exact .operator (hstart ▸ hop) (hstart ▸ ih htokens)
        · rename_i room' hop hroom
          obtain ⟨⟨word, rest⟩, hread, h⟩ := bind_eq_ok.mp h
          obtain ⟨tokens, htokens, h⟩ := bind_eq_ok.mp h
          cases h
          cases hroom
          exact .word hstart hcomment hop hread (ih htokens)

theorem operatorAt_some {operator : Operator} {width : ℕ}
    (h : operatorAt line = some (operator, width)) : line ≠ [] ∧ 0 < width := by
  unfold operatorAt at h
  split at h <;> cases h <;> exact ⟨cons_ne_nil _ _, by decide⟩

theorem weight_drop_lt {n : ℕ} (hne : line ≠ []) (hn : 0 < n) :
    weight (line.drop n) + 1 ≤ weight line := by
  obtain ⟨b, tail, rfl⟩ := exists_cons_of_ne_nil hne
  obtain ⟨n, rfl⟩ := Nat.exists_eq_succ_of_ne_zero (Nat.ne_of_gt hn)
  exact Nat.le_trans (Nat.add_le_add_right (weight_le (drop_sublist n tail)) 1)
    (weight_cons_pos b tail)

/-- **The words of a line cost no more than it weighs**, and as much only if each was read whole. -/
theorem Tokens.cost (h : Tokens line tokens) :
    cost (texts tokens) ≤ bound line ∧ (cost (texts tokens) = bound line →
      ∀ word, .word word ∈ tokens → word.IsRun) := by
  induction h with
  | nil line => exact ⟨Nat.zero_le _, fun _ word hword => absurd hword not_mem_nil⟩
  | @operator line operator width tokens hop rest ih =>
    obtain ⟨hne, hwidth⟩ := operatorAt_some hop
    have hdrop := weight_drop_lt hne hwidth
    have hline := bound_dropWhile line
    have hle := bound_le ((line.dropWhile isBlank).drop width)
    have hge := weight_le_bound (line.dropWhile isBlank)
    have htexts : texts (.operator operator :: tokens) = texts tokens := rfl
    rw [htexts]
    refine ⟨by omega, fun heq word hword => ih.2 (by omega) word ?_⟩
    exact (mem_cons.mp hword).resolve_left Token.noConfusion
  | @word line tail rest byte word tokens hstart hcomment hop hread after ih =>
    obtain ⟨segments, hsegments, hne, hrest, hsub, hrun⟩ := readWord_ok hread
    rw [nil_append] at hsegments
    have hblank : isBlank byte = false := by
      have := List.head?_dropWhile_not isBlank line
      simpa [hstart] using this
    have hends : endsWord (byte :: tail) = false := by simp [endsWord, hblank, hop]
    have hweight := weight_le hsub
    have hline : weight (byte :: tail) + 1 ≤ bound line := by
      have := bound_dropWhile line
      rwa [hstart, bound, hends, if_neg Bool.false_ne_true] at this
    have hbound : bound rest = weight rest := by rw [bound, if_pos hrest]
    have htexts : texts (.word word :: tokens) = text segments :: texts tokens := by
      rw [← hsegments]
      rfl
    rw [weight_append] at hweight
    rw [htexts, cost_cons]
    refine ⟨by omega, fun heq => ?_⟩
    have hwhole : text segments ++ rest = byte :: tail :=
      eq_of_weight hsub (by rw [weight_append]; omega)
    obtain ⟨-, segment, hsegment, hIsRun⟩ := (hrun hwhole).resolve_left (hsegments ▸ hne)
    intro word' hword
    rcases mem_cons.mp hword with hword | hword
    · cases hword
      refine ⟨⟨segment, hsegments.trans hsegment, hIsRun⟩, ?_⟩
      obtain ⟨b, bytes, hbytes⟩ := exists_cons_of_ne_nil hIsRun.ne_nil
      have htext : text segments = b :: bytes := by rw [hsegment, text]; simp [hbytes]
      rw [htext, cons_append] at hwhole
      rw [hsegments, htext, (List.cons.inj hwhole).1]
      simpa using hcomment
    · exact ih.2 (by omega) word' hword

theorem Tokens.mem (h : Tokens line tokens) {word : Word}
    (hword : .word word ∈ tokens) : ∀ b ∈ text word.segments, b ∈ line := by
  induction h with
  | nil line => exact absurd hword not_mem_nil
  | operator hop rest ih =>
    intro b hb
    have hmem := ih ((mem_cons.mp hword).resolve_left Token.noConfusion) b hb
    exact (dropWhile_sublist _).subset ((drop_sublist _ _).subset hmem)
  | @word line tail rest byte _ tokens hstart hcomment hop hread after ih =>
    obtain ⟨segments, hsegments, -, -, hsub, -⟩ := readWord_ok hread
    have hline : ∀ b ∈ text segments ++ rest, b ∈ line := fun b hb =>
      (dropWhile_sublist _).subset (hstart ▸ hsub.subset hb)
    intro b hb
    rcases mem_cons.mp hword with hword | hword
    · cases hword
      rw [hsegments, nil_append] at hb
      exact hline b (mem_append_left _ hb)
    · exact hline b (mem_append_right _ (ih hword b hb))

end ImagineOS.Shell
