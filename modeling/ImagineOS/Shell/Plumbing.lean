import ImagineOS.Shell.Pipeline

/-!
# Shell: what the code of a pipeline leaves

After its set-up a stage should have the reading end of the pipe before it as its standard input,
the writing end of the pipe after it as its standard output, and no other end (`Plumbed`). What the
code of a process leaves in its own table is computed from the code alone (`ChildMeets`,
`ShellMeets`); it does not matter what happens in between, because nobody else changes the table.
-/

namespace ImagineOS.Shell

open Exec Function List

/-! ### What code leaves -/

/-- No end of the pipes is open. -/
def NoEnds (ids : List (Fin maxPipes)) (t : DescriptorTable) : Prop := ∀ p ∈ ids, ∀ e, ¬ t.Has e p

/-- **The descriptors of a stage**: its standard input and output, and no other end of the pipes. -/
structure Plumbed (stageCount : ℕ) (input output : Descriptor) (index : ℕ)
    (ids : List (Fin maxPipes)) (t : DescriptorTable) : Prop where
  index_lt : index < stageCount
  first : index = 0 → t 0 = input
  stdin : 0 < index → ∃ p, ids[index - 1]? = some p ∧ t 0 = ⟨.pipeRead, p⟩
  last : index + 1 = stageCount → t 1 = output
  stdout : index + 1 < stageCount → ∃ p, ids[index]? = some p ∧ t 1 = ⟨.pipeWrite, p⟩
  only : ∀ (k : ℕ) (p : Fin maxPipes), ids[k]? = some p → ∀ (e : End) fd, t fd = ⟨e.kind, p⟩ →
    (e = .reader ∧ fd = 0 ∧ k + 1 = index) ∨ (e = .writer ∧ fd = 1 ∧ k = index)

/-- What the code of a child leaves in its table. -/
def ChildMeets (post : DescriptorTable → Prop) : Code → DescriptorTable → Prop
  | .close fd next, t => ChildMeets post next (t.close fd)
  | .duplicateTo source target next, t => ∃ (a b : Fin maxOpenFds) (e : End) (p : Fin maxPipes),
      a.val = source ∧ b.val = target ∧ a ≠ b ∧ t a = ⟨e.kind, p⟩ ∧
      ChildMeets post next (Function.update t b ⟨e.kind, p⟩)
  | .ended ending, t => ending = .execveStage ∧ post t
  | .pipe _, _ | .fork _, _ => False

/-- What the code of the shell leaves in its table, with the stages that it has launched and the
pipes that it has made. It makes no pipe after the first stage was launched. -/
def ShellMeets (stageCount : ℕ) (post : ℕ → List (Fin maxPipes) → DescriptorTable → Prop) :
    Code → ℕ → List (Fin maxPipes) → DescriptorTable → Prop
  | .pipe next, launched, ids, t => launched = 0 ∧ (∀ p ∈ ids, ∃ e, t.Has e p) ∧
      (∀ p readEnd writeEnd t', (∀ e, ¬ t.Has e p) → NewPipe t t' p readEnd writeEnd →
        ShellMeets stageCount post (next (some (readEnd.val, writeEnd.val))) 0 (ids ++ [p]) t') ∧
      ∀ t', Reclosed t t' → ShellMeets stageCount post (next none) 0 ids t'
  | .fork next, launched, ids, t => ChildMeets (post launched ids) (next 0) t ∧
      ∀ answer ≠ 0, ShellMeets stageCount post (next answer)
        (if 0 < answer then launched + 1 else launched) ids t
  | .close fd next, launched, ids, t => ShellMeets stageCount post next launched ids (t.close fd)
  | .ended ending, launched, ids, t => NoEnds ids t ∧
      ∀ pids, ending = .collect pids → launched = stageCount ∧ ids.length = stageCount - 1
  | .duplicateTo _ _ _, _, _, _ => False

/-! ### Closing -/

/-- A table after some descriptors were closed. -/
def closedAll (l : List ℕ) (t : DescriptorTable) : DescriptorTable :=
  l.foldl DescriptorTable.close t

section Closing

variable {t : DescriptorTable} {l : List ℕ} {fd : Fin maxOpenFds} {next : Code}
  {post : DescriptorTable → Prop} {stageCount launched : ℕ} {ids : List (Fin maxPipes)}
  {posts : ℕ → List (Fin maxPipes) → DescriptorTable → Prop}

theorem closedAll_of_not_mem (h : fd.val ∉ l) : closedAll l t fd = t fd := by
  induction l generalizing t with
  | nil => rfl
  | cons fd' rest ih =>
    rw [mem_cons, not_or] at h
    refine (ih h.2).trans ?_
    rw [DescriptorTable.close, if_neg fun h' => h.1 h'.1]

theorem kind_closedAll (h : fd.val ∈ l ∨ (t fd).kind = .closed) :
    (closedAll l t fd).kind = .closed := by
  induction l generalizing t with
  | nil => exact h.resolve_left (not_mem_nil)
  | cons fd' rest ih =>
    refine ih ?_
    rw [DescriptorTable.close]
    rw [mem_cons, or_assoc] at h
    split
    · exact Or.inr rfl
    · rename_i hopen
      rcases h with rfl | h
      · exact Or.inr (by simpa using hopen)
      · exact h

theorem closedAll_eq_end {e : End} {p : Fin maxPipes} (h : closedAll l t fd = ⟨e.kind, p⟩) :
    fd.val ∉ l ∧ t fd = ⟨e.kind, p⟩ := by
  have hmem : fd.val ∉ l := fun hmem => by
    have hclosed := kind_closedAll (t := t) (Or.inl hmem)
    rw [h] at hclosed
    cases e <;> cases hclosed
  exact ⟨hmem, (closedAll_of_not_mem hmem).symm.trans h⟩

theorem childMeets_closeAll :
    ChildMeets post (closeAll l next) t ↔ ChildMeets post next (closedAll l t) := by
  induction l generalizing t with
  | nil => rfl
  | cons fd rest ih => exact ih

theorem shellMeets_closeAll :
    ShellMeets stageCount posts (closeAll l next) launched ids t ↔
      ShellMeets stageCount posts next launched ids (closedAll l t) := by
  induction l generalizing t with
  | nil => rfl
  | cons fd rest ih => exact ih

end Closing

/-! ### The ends of the pipes -/

/-- A pipe that the shell has made, and its descriptors for it. -/
structure PipeEnds where
  readEnd : Fin maxOpenFds
  writeEnd : Fin maxOpenFds
  pipe : Fin maxPipes

namespace PipeEnds

/-- The descriptor for an end. -/
def fd (x : PipeEnds) : End → Fin maxOpenFds
  | .reader => x.readEnd
  | .writer => x.writeEnd

/-- What the shell keeps of it. -/
def pair (x : PipeEnds) : ℕ × ℕ := (x.readEnd.val, x.writeEnd.val)

theorem mem_descriptors {ends : List PipeEnds} {n : ℕ} :
    n ∈ descriptors (ends.map pair) ↔ ∃ x ∈ ends, ∃ e, (x.fd e).val = n := by
  simp only [descriptors, mem_flatMap, mem_map, exists_exists_and_eq_and, pair,
    mem_cons, not_mem_nil, or_false]
  refine exists_congr fun x => and_congr_right fun _ => ⟨?_, ?_⟩
  · rintro (rfl | rfl)
    · exact ⟨.reader, rfl⟩
    · exact ⟨.writer, rfl⟩
  · rintro ⟨e, rfl⟩
    cases e
    · exact Or.inl rfl
    · exact Or.inr rfl

end PipeEnds

/-- Each end of the pipes is open once, above the standard descriptors. -/
structure Laid (ends : List PipeEnds) (t : DescriptorTable) : Prop where
  at_iff : ∀ x ∈ ends, ∀ e fd, t fd = ⟨e.kind, x.pipe⟩ ↔ fd = x.fd e
  nodup : (ends.map (·.pipe)).Nodup
  three_le : ∀ x ∈ ends, ∀ e, 3 ≤ (x.fd e).val

section Laid

variable {ends : List PipeEnds} {t t' : DescriptorTable} {p : Fin maxPipes}
  {readEnd writeEnd : Fin maxOpenFds}

theorem Laid.nil (t : DescriptorTable) : Laid [] t := ⟨by simp, by simp, by simp⟩

theorem Laid.eq_of_fd (h : Laid ends t) {x y : PipeEnds} (hx : x ∈ ends) (hy : y ∈ ends)
    {e e' : End} (heq : x.fd e = y.fd e') : x = y ∧ e = e' := by
  have hx' := (h.at_iff x hx e _).mpr rfl
  have hy' := (h.at_iff y hy e' _).mpr rfl
  rw [heq, hy'] at hx'
  have hkind := congrArg Descriptor.kind hx'
  have hpipe := congrArg Descriptor.pipe hx'
  exact ⟨inj_on_of_nodup_map h.nodup hx hy (Fin.ext hpipe.symm), (End.kind_injective hkind).symm⟩

/-- The shell makes another pipe. -/
theorem Laid.newPipe (h : Laid ends t) (hp : ∀ e, ¬ t.Has e p)
    (hnew : NewPipe t t' p readEnd writeEnd) : Laid (ends ++ [⟨readEnd, writeEnd, p⟩]) t' := by
  have hfresh : ∀ x ∈ ends, x.pipe ≠ p := fun x hx he =>
    hp .reader ⟨x.fd .reader, he ▸ (h.at_iff x hx .reader _).mpr rfl⟩
  have hclosed : ∀ x ∈ ends, ∀ e, x.fd e ≠ readEnd ∧ x.fd e ≠ writeEnd := fun x hx e => by
    have hx' := (h.at_iff x hx e _).mpr rfl
    constructor
    · intro he
      have hkind := hnew.readEnd_closed
      rw [← he, hx'] at hkind
      cases e <;> cases hkind
    · intro he
      have hkind := hnew.writeEnd_closed
      rw [← he, hx'] at hkind
      cases e <;> cases hkind
  refine ⟨fun x hx e fd => ?_, ?_, fun x hx e => ?_⟩
  · rw [hnew.table, update_apply, update_apply]
    rcases mem_append.mp hx with hx | hx
    · have hne : ∀ k : DescriptorKind, (⟨k, p⟩ : Descriptor) ≠ ⟨e.kind, x.pipe⟩ := fun k heq =>
        hfresh x hx (Fin.ext (congrArg Descriptor.pipe heq).symm)
      split_ifs with hw hr
      · exact iff_of_false (hne _) fun hfd => (hclosed x hx e).2 (hfd ▸ hw)
      · exact iff_of_false (hne _) fun hfd => (hclosed x hx e).1 (hfd ▸ hr)
      · exact h.at_iff x hx e fd
    · obtain rfl := mem_singleton.mp hx
      split_ifs with hw hr
      · subst hw
        cases e with
        | reader => exact iff_of_false (by simp [End.kind]) hnew.ne.symm
        | writer => exact iff_of_true rfl rfl
      · subst hr
        cases e with
        | reader => exact iff_of_true rfl rfl
        | writer => exact iff_of_false (by simp [End.kind]) hnew.ne
      · refine iff_of_false (fun hfd => hp e ⟨fd, hfd⟩) fun hfd => ?_
        cases e
        · exact hr hfd
        · exact hw hfd
  · rw [map_append, map_singleton]
    refine nodup_append'.mpr ⟨h.nodup, nodup_singleton _, ?_⟩
    rintro q hq hq'
    obtain ⟨x, hx, rfl⟩ := mem_map.mp hq
    exact hfresh x hx (mem_singleton.mp hq')
  · rcases mem_append.mp hx with hx | hx
    · exact h.three_le x hx e
    · obtain rfl := mem_singleton.mp hx
      cases e
      · exact hnew.readEnd_le
      · exact hnew.writeEnd_le

theorem noEnds_closedAll (h : ∀ x ∈ ends, ∀ (e : End) fd, t fd = ⟨e.kind, x.pipe⟩ → fd = x.fd e) :
    NoEnds (ends.map (·.pipe)) (closedAll (descriptors (ends.map PipeEnds.pair)) t) := by
  rintro p hp e ⟨fd, hfd⟩
  obtain ⟨x, hx, rfl⟩ := mem_map.mp hp
  obtain ⟨hmem, hfd⟩ := closedAll_eq_end hfd
  exact hmem (PipeEnds.mem_descriptors.mpr ⟨x, hx, e, (congrArg Fin.val (h x hx e fd hfd)).symm⟩)

/-! ### The child -/

variable {stageCount index : ℕ}

def installed (t : DescriptorTable) (a b : Fin maxOpenFds) (d : Descriptor) : DescriptorTable :=
  DescriptorTable.close (Function.update t b d) a

variable {a b fd : Fin maxOpenFds} {d : Descriptor}

theorem installed_self (hab : a ≠ b) : installed t a b d b = d := by
  rw [installed, DescriptorTable.close, if_neg fun h => hab (Fin.ext h.1.symm), update_self]

theorem installed_of_ne (ha : fd ≠ a) (hb : fd ≠ b) : installed t a b d fd = t fd := by
  rw [installed, DescriptorTable.close, if_neg fun h => ha (Fin.ext h.1), update_of_ne hb]

theorem installed_eq_end {e : End} (hab : a ≠ b) (h : installed t a b d fd = ⟨e.kind, p⟩) :
    (fd = b ∧ d = ⟨e.kind, p⟩) ∨ (fd ≠ a ∧ t fd = ⟨e.kind, p⟩) := by
  by_cases hb : fd = b
  · rw [hb, installed_self hab] at h
    exact Or.inl ⟨hb, h⟩
  have hfd : fd ≠ a := fun hfd =>
    (closedAll_eq_end (l := [a.val]) h).1 (by rw [hfd, mem_singleton])
  rw [installed_of_ne hfd hb] at h
  exact Or.inr ⟨hfd, h⟩

theorem childMeets_install {post : DescriptorTable → Prop} {next : Code} {e : End}
    (ha : t a = ⟨e.kind, p⟩) (hab : a ≠ b)
    (hnext : ChildMeets post next (installed t a b ⟨e.kind, p⟩)) :
    ChildMeets post (install a b next) t := by
  have hlt : a.val ≠ usizeMax := (a.isLt.trans (by decide)).ne
  rw [install, if_neg hlt]
  exact ⟨a, b, e, p, rfl, rfl, hab, ha, hnext⟩

/-- Where ends of the pipes are open. -/
def OpenOnly (ends : List PipeEnds) (t : DescriptorTable) (R : ℕ → End → Fin maxOpenFds → Prop) :
    Prop :=
  ∀ (k : ℕ) (x : PipeEnds), ends[k]? = some x → ∀ (e : End) fd, t fd = ⟨e.kind, x.pipe⟩ → R k e fd

theorem index_of_pipe (hnodup : (ends.map (·.pipe)).Nodup) {k k' : ℕ} {x y : PipeEnds}
    (hx : ends[k]? = some x) (hy : ends[k']? = some y) (hp : x.pipe = y.pipe) : k = k' := by
  have hmap : ∀ {k : ℕ} {x : PipeEnds}, ends[k]? = some x →
      (ends.map (·.pipe))[k]? = some x.pipe := fun hk => by rw [List.getElem?_map, hk]; rfl
  obtain ⟨hk, hkx⟩ := List.getElem?_eq_some_iff.mp (hmap hx)
  obtain ⟨hk', hky⟩ := List.getElem?_eq_some_iff.mp (hmap hy)
  exact hnodup.getElem_inj_iff.mp (hkx.trans (hp.trans hky.symm))

theorem OpenOnly.installed {R : ℕ → End → Fin maxOpenFds → Prop} (h : OpenOnly ends t R)
    (hnodup : (ends.map (·.pipe)).Nodup) {k₀ : ℕ} {x₀ : PipeEnds} {e₀ : End}
    (hk₀ : ends[k₀]? = some x₀) (hab : a ≠ b) :
    OpenOnly ends (installed t a b ⟨e₀.kind, x₀.pipe⟩) fun k e fd =>
      (k = k₀ ∧ e = e₀ ∧ fd = b) ∨ (fd ≠ a ∧ R k e fd) := by
  intro k x hk e fd hfd
  rcases installed_eq_end hab hfd with ⟨hb, hd⟩ | ⟨ha, hfd⟩
  · exact Or.inl ⟨index_of_pipe hnodup hk hk₀ (Fin.ext (congrArg Descriptor.pipe hd).symm),
      (End.kind_injective (congrArg Descriptor.kind hd)).symm, hb⟩
  · exact Or.inr ⟨ha, h k x hk e fd hfd⟩

theorem Laid.openOnly_closedAll (h : Laid ends t) (usedStdin usedStdout : ℕ) :
    OpenOnly ends (closedAll ((descriptors (ends.map PipeEnds.pair)).filter fun fd =>
      fd ≠ usedStdin ∧ fd ≠ usedStdout) t) fun k e fd =>
        (fd.val = usedStdin ∨ fd.val = usedStdout) ∧ ∃ x, ends[k]? = some x ∧ fd = x.fd e := by
  intro k x hk e fd hfd
  have hx := mem_of_getElem? hk
  obtain ⟨hmem, hfd⟩ := closedAll_eq_end hfd
  have hend := (h.at_iff x hx e fd).mp hfd
  refine ⟨?_, x, hk, hend⟩
  by_contra hne
  rw [not_or] at hne
  refine hmem (mem_filter.mpr ⟨PipeEnds.mem_descriptors.mpr ⟨x, hx, e, ?_⟩, ?_⟩)
  · rw [hend]
  · simpa using hne

theorem Laid.ne_standard (h : Laid ends t) {x : PipeEnds} (hx : x ∈ ends) (e : End) :
    x.fd e ≠ 0 ∧ x.fd e ≠ 1 := by
  have hle := h.three_le x hx e
  constructor <;> rintro he <;> rw [he] at hle <;> exact absurd hle (by decide)

theorem val_ne_usizeMax (fd : Fin maxOpenFds) : fd.val ≠ usizeMax :=
  (fd.isLt.trans (by decide)).ne

theorem getD_pair {k : ℕ} (hk : k < ends.length) : ∃ x, ends[k]? = some x ∧ x ∈ ends ∧
    (ends.map PipeEnds.pair).getD k (0, 0) = x.pair :=
  ⟨ends[k], List.getElem?_eq_getElem hk, getElem_mem hk, by
    rw [getD_eq_getElem?_getD, List.getElem?_map, List.getElem?_eq_getElem hk]
    rfl⟩

/-- The two ends that a stage uses. -/
structure Uses (ends : List PipeEnds) (stageCount index usedStdin usedStdout : ℕ) : Prop where
  first : index = 0 → usedStdin = usizeMax
  read : 0 < index → ∃ x, ends[index - 1]? = some x ∧ x ∈ ends ∧ usedStdin = x.readEnd.val
  last : stageCount ≤ index + 1 → usedStdout = usizeMax
  write : index + 1 < stageCount → ∃ x, ends[index]? = some x ∧ x ∈ ends ∧
    usedStdout = x.writeEnd.val

theorem uses (hlength : ends.length = stageCount - 1) (hindex : index < stageCount) :
    Uses ends stageCount index
      (if index = 0 then usizeMax else ((ends.map PipeEnds.pair).getD (index - 1) (0, 0)).1)
      (if index + 1 = stageCount then usizeMax
        else ((ends.map PipeEnds.pair).getD index (0, 0)).2) := by
  refine ⟨fun h0 => if_pos h0, fun hpos => ?_, fun hlast => if_pos (by omega), fun hlast => ?_⟩
  · obtain ⟨x, hx, hmem, hpair⟩ := @getD_pair ends (index - 1) (by omega)
    rw [if_neg hpos.ne', hpair]
    exact ⟨x, hx, hmem, rfl⟩
  · obtain ⟨x, hx, hmem, hpair⟩ := @getD_pair ends index (by omega)
    rw [if_neg hlast.ne, hpair]
    exact ⟨x, hx, hmem, rfl⟩

section Uses

variable {usedStdin usedStdout : ℕ}

theorem Laid.closedAll_of_used (h : Laid ends t) {fd : Fin maxOpenFds}
    (hfd : fd.val = usedStdin ∨ fd.val = usedStdout ∨ fd = 0 ∨ fd = 1) :
    closedAll ((descriptors (ends.map PipeEnds.pair)).filter fun fd =>
      fd ≠ usedStdin ∧ fd ≠ usedStdout) t fd = t fd := by
  refine closedAll_of_not_mem fun hmem => ?_
  rw [mem_filter, PipeEnds.mem_descriptors] at hmem
  obtain ⟨⟨x, hx, e, he⟩, hne⟩ := hmem
  have hne' : fd.val ≠ usedStdin ∧ fd.val ≠ usedStdout := by simpa using hne
  rcases hfd with hfd | hfd | hfd | hfd
  · exact hne'.1 hfd
  · exact hne'.2 hfd
  · exact (h.ne_standard hx e).1 (Fin.ext (he.trans (congrArg Fin.val hfd)))
  · exact (h.ne_standard hx e).2 (Fin.ext (he.trans (congrArg Fin.val hfd)))

/-- Only the ends that the stage uses are open then. -/
theorem Uses.openOnly_closedAll (hu : Uses ends stageCount index usedStdin usedStdout)
    (h : Laid ends t) :
    OpenOnly ends (closedAll ((descriptors (ends.map PipeEnds.pair)).filter fun fd =>
      fd ≠ usedStdin ∧ fd ≠ usedStdout) t) fun k e fd =>
        (e = .reader ∧ fd.val = usedStdin ∧ k + 1 = index) ∨
        (e = .writer ∧ fd.val = usedStdout ∧ k = index) := by
  intro k x hk e fd hfd
  obtain ⟨hused, y, hy, hyfd⟩ := h.openOnly_closedAll usedStdin usedStdout k x hk e fd hfd
  have hymem := mem_of_getElem? hy
  rcases hused with hused | hused
  · rcases Nat.eq_zero_or_pos index with h0 | hpos
    · exact absurd (hused.trans (hu.first h0)) (val_ne_usizeMax fd)
    obtain ⟨z, hz, hzmem, hzfd⟩ := hu.read hpos
    obtain ⟨rfl, rfl⟩ := h.eq_of_fd hymem hzmem
      (show y.fd e = z.fd .reader from hyfd.symm.trans (Fin.ext (hused.trans hzfd)))
    have hkz := index_of_pipe h.nodup hy hz rfl
    exact Or.inl ⟨rfl, hused, by omega⟩
  · rcases Nat.lt_or_ge (index + 1) stageCount with hlast | hlast
    · obtain ⟨z, hz, hzmem, hzfd⟩ := hu.write hlast
      obtain ⟨rfl, rfl⟩ := h.eq_of_fd hymem hzmem
        (show y.fd e = z.fd .writer from hyfd.symm.trans (Fin.ext (hused.trans hzfd)))
      exact Or.inr ⟨rfl, hused, index_of_pipe h.nodup hy hz rfl⟩
    · exact absurd (hused.trans (hu.last hlast)) (val_ne_usizeMax fd)

/-- What the child has when its standard input is in place. -/
structure HasInput (ends : List PipeEnds) (index usedStdout : ℕ) (t t₂ : DescriptorTable) :
    Prop where
  first : index = 0 → t₂ 0 = t 0
  read : 0 < index → ∃ p, (ends.map (·.pipe))[index - 1]? = some p ∧ t₂ 0 = ⟨.pipeRead, p⟩
  kept : ∀ fd, fd.val = usedStdout ∨ fd = 1 → t₂ fd = t fd
  openOnly : OpenOnly ends t₂ fun k e fd => (e = .reader ∧ fd = 0 ∧ k + 1 = index) ∨
    (e = .writer ∧ fd.val = usedStdout ∧ k = index)

theorem exists_of_pipes {k : ℕ} {p : Fin maxPipes} (hk : (ends.map (·.pipe))[k]? = some p) :
    ∃ x : PipeEnds, ends[k]? = some x ∧ x.pipe = p := by
  rwa [List.getElem?_map, Option.map_eq_some_iff] at hk

/-- The standard output is put in place. -/
theorem HasInput.childMeets {t₂ : DescriptorTable} (hin : HasInput ends index usedStdout t t₂)
    (hu : Uses ends stageCount index usedStdin usedStdout) (h : Laid ends t)
    (hindex : index < stageCount) :
    ChildMeets (Plumbed stageCount (t 0) (t 1) index (ends.map (·.pipe)))
      (install usedStdout 1 (.ended .execveStage)) t₂ := by
  rcases Nat.lt_or_ge (index + 1) stageCount with hlast | hlast
  · obtain ⟨x, hx, hmem, rfl⟩ := hu.write hlast
    have hx₂ : t₂ x.writeEnd = ⟨End.writer.kind, x.pipe⟩ :=
      (hin.kept _ (Or.inl rfl)).trans ((h.at_iff x hmem .writer _).mpr rfl)
    have hne := (h.ne_standard hmem .writer).2
    have hzero : installed t₂ x.writeEnd 1 ⟨End.writer.kind, x.pipe⟩ 0 = t₂ 0 :=
      installed_of_ne (h.ne_standard hmem .writer).1.symm (by decide)
    refine childMeets_install (b := 1) hx₂ hne ⟨rfl, hindex, fun h0 => hzero.trans (hin.first h0),
      fun hpos => ?_, fun hl => by omega,
      fun _ => ⟨x.pipe, by rw [List.getElem?_map, hx]; rfl, installed_self hne⟩, ?_⟩
    · obtain ⟨p, hp, h0⟩ := hin.read hpos
      exact ⟨p, hp, hzero.trans h0⟩
    · intro k p hp e fd hfd
      obtain ⟨y, hy, rfl⟩ := exists_of_pipes hp
      rcases hin.openOnly.installed h.nodup hx hne k y hy e fd hfd with ⟨rfl, rfl, rfl⟩ |
        ⟨hfd, hr | hw⟩
      · exact Or.inr ⟨rfl, rfl, rfl⟩
      · exact Or.inl hr
      · exact absurd (Fin.ext hw.2.1) hfd
  · have hout := hu.last hlast
    rw [install, if_pos hout]
    refine ⟨rfl, hindex, hin.first, hin.read, fun _ => hin.kept 1 (Or.inr rfl),
      fun hl => by omega, ?_⟩
    intro k p hp e fd hfd
    obtain ⟨y, hy, rfl⟩ := exists_of_pipes hp
    rcases hin.openOnly k y hy e fd hfd with hr | hw
    · exact Or.inl hr
    · exact absurd (hw.2.1.trans hout) (val_ne_usizeMax fd)

theorem Uses.ne_readEnd (hu : Uses ends stageCount index usedStdin usedStdout) (h : Laid ends t)
    {x : PipeEnds} (hmem : x ∈ ends) {fd : Fin maxOpenFds} (hfd : fd.val = usedStdout ∨ fd = 1) :
    fd ≠ x.readEnd ∧ fd ≠ 0 := by
  rcases hfd with hfd | rfl
  · rcases Nat.lt_or_ge (index + 1) stageCount with hlast | hlast
    · obtain ⟨y, -, hymem, hyfd⟩ := hu.write hlast
      obtain rfl : fd = y.fd .writer := Fin.ext (hfd.trans hyfd)
      refine ⟨fun he => ?_, (h.ne_standard hymem .writer).1⟩
      cases (h.eq_of_fd hymem hmem (show y.fd .writer = x.fd .reader from he)).2
    · exact absurd (hfd.trans (hu.last hlast)) (val_ne_usizeMax fd)
  · exact ⟨(h.ne_standard hmem .reader).2.symm, by decide⟩

end Uses

/-- **The set-up of a child.** -/
theorem childMeets_childSetupPipes (h : Laid ends t) (hlength : ends.length = stageCount - 1)
    (hindex : index < stageCount) :
    ChildMeets (Plumbed stageCount (t 0) (t 1) index (ends.map (·.pipe)))
      (childSetupPipes (ends.map PipeEnds.pair) index stageCount (.ended .execveStage)) t := by
  have hu := uses hlength hindex
  rw [childSetupPipes]
  generalize (if index = 0 then usizeMax else
    ((ends.map PipeEnds.pair).getD (index - 1) (0, 0)).1) = usedStdin at hu ⊢
  generalize (if index + 1 = stageCount then usizeMax else
    ((ends.map PipeEnds.pair).getD index (0, 0)).2) = usedStdout at hu ⊢
  rw [childMeets_closeAll]
  have hends₁ := hu.openOnly_closedAll h
  have hkept₁ := @Laid.closedAll_of_used ends t usedStdin usedStdout h
  generalize closedAll _ t = t₁ at hends₁ hkept₁
  rcases Nat.eq_zero_or_pos index with h0 | hpos
  · rw [install, if_pos (hu.first h0)]
    refine HasInput.childMeets ⟨fun _ => hkept₁ (by simp), fun hpos => by omega,
      fun fd hfd => hkept₁ (by tauto), fun k x hk e fd hfd => ?_⟩ hu h hindex
    rcases hends₁ k x hk e fd hfd with ⟨-, -, hk⟩ | hw
    · omega
    · exact Or.inr hw
  · obtain ⟨x, hx, hmem, rfl⟩ := hu.read hpos
    have hx₁ : t₁ x.readEnd = ⟨End.reader.kind, x.pipe⟩ :=
      (hkept₁ (Or.inl rfl)).trans ((h.at_iff x hmem .reader _).mpr rfl)
    have hne := (h.ne_standard hmem .reader).1
    refine childMeets_install (b := 0) hx₁ hne (HasInput.childMeets ⟨fun h0 => by omega,
      fun _ => ⟨x.pipe, by rw [List.getElem?_map, hx]; rfl, installed_self hne⟩,
      fun fd hfd => ?_, fun k y hk e fd hfd => ?_⟩ hu h hindex)
    · obtain ⟨hread, hzero⟩ := hu.ne_readEnd h hmem hfd
      rw [installed_of_ne hread hzero]
      exact hkept₁ (by tauto)
    · rcases hends₁.installed h.nodup hx hne k y hk e fd hfd with ⟨rfl, rfl, rfl⟩ |
        ⟨hfd, hr | hw⟩
      · exact Or.inl ⟨rfl, rfl, by omega⟩
      · exact absurd (Fin.ext hr.2.1) hfd
      · exact Or.inr hw

/-! ### The shell -/

theorem shellMeets_closePipes {post : ℕ → List (Fin maxPipes) → DescriptorTable → Prop}
    {launched : ℕ} {ending : Ending}
    (h : ∀ x ∈ ends, ∀ (e : End) fd, t fd = ⟨e.kind, x.pipe⟩ → fd = x.fd e)
    (hending : ∀ pids, ending = .collect pids →
      launched = stageCount ∧ ends.length = stageCount - 1) :
    ShellMeets stageCount post (closePipes (ends.map PipeEnds.pair) (.ended ending)) launched
      (ends.map (·.pipe)) t := by
  refine shellMeets_closeAll.mpr ⟨noEnds_closedAll h, fun pids hpids => ?_⟩
  rw [length_map]
  exact hending pids hpids

theorem shellMeets_forkStages (h : Laid ends t) (hlength : ends.length = stageCount - 1) {count : ℕ}
    (hcount : index + count = stageCount) (pids : List ℤ) :
    ShellMeets stageCount (Plumbed stageCount (t 0) (t 1))
      (forkStages (ends.map PipeEnds.pair) stageCount count index pids) index
      (ends.map (·.pipe)) t := by
  have honly : ∀ x ∈ ends, ∀ (e : End) fd, t fd = ⟨e.kind, x.pipe⟩ → fd = x.fd e :=
    fun x hx e fd => (h.at_iff x hx e fd).mp
  induction count generalizing index pids with
  | zero => exact shellMeets_closePipes honly fun _ _ => ⟨hcount, hlength⟩
  | succ count ih =>
    refine ⟨?_, fun answer hne => ?_⟩
    · beta_reduce
      rw [if_neg (lt_irrefl 0), if_pos rfl]
      exact childMeets_childSetupPipes h hlength (by omega)
    · beta_reduce
      rcases lt_or_gt_of_ne hne with hlt | hpos
      · rw [if_pos hlt, if_neg (not_lt.mpr hlt.le)]
        exact shellMeets_closePipes honly fun pids hpids => by cases hpids
      · rw [if_neg (not_lt.mpr hpos.le), if_neg hne, if_pos hpos]
        exact ih (by omega) _

theorem shellMeets_createPipes (h : Laid ends t) {count : ℕ}
    (hcount : ends.length + count = stageCount - 1) :
    ShellMeets stageCount (Plumbed stageCount (t 0) (t 1))
      (createPipes count (ends.map PipeEnds.pair) fun pipes =>
        forkStages pipes stageCount stageCount 0 []) 0 (ends.map (·.pipe)) t := by
  induction count generalizing ends t with
  | zero => exact shellMeets_forkStages h hcount (Nat.zero_add _) []
  | succ count ih =>
    refine ⟨rfl, fun p hp => ?_, fun p readEnd writeEnd t' hfresh hnew => ?_, 
      fun t' hreclosed => ?_⟩
    · obtain ⟨x, hx, rfl⟩ := mem_map.mp hp
      exact ⟨.reader, _, (h.at_iff x hx .reader _).mpr rfl⟩
    · have hstandard : ∀ fd : Fin maxOpenFds, fd.val < 3 → t' fd = t fd := fun fd hfd => by
        have hread := hnew.readEnd_le
        have hwrite := hnew.writeEnd_le
        rw [hnew.table, update_of_ne (by rintro rfl; omega), update_of_ne (by rintro rfl; omega)]
      have hnext := ih (h.newPipe hfresh hnew)
        (by rw [length_append, length_singleton]; omega)
      rw [hstandard 0 (by decide), hstandard 1 (by decide), map_append, map_append] at hnext
      exact hnext
    · refine shellMeets_closePipes (fun x hx e fd hfd => ?_) fun pids hpids => by cases hpids
      rcases hreclosed fd with heq | ⟨-, hclosed⟩
      · exact (h.at_iff x hx e fd).mp (heq ▸ hfd)
      · rw [hclosed] at hfd
        cases e <;> cases hfd

/-- **The code of the shell** gives each stage its descriptors, and keeps no ends for itself. -/
theorem shellMeets_runPipelineProcesses (stageCount : ℕ) (t : DescriptorTable) :
    ShellMeets stageCount (Plumbed stageCount (t 0) (t 1)) (runPipelineProcesses stageCount) 0
      [] t :=
  shellMeets_createPipes (.nil t) (Nat.zero_add _)

end Laid

end ImagineOS.Shell
