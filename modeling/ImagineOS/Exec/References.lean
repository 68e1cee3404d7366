import ImagineOS.Exec.Identity
import Mathlib.Algebra.BigOperators.Fin
import Mathlib.Algebra.BigOperators.Pi
import Mathlib.Algebra.Order.BigOperators.Group.Finset

/-!
# Processes: references to pipes

A pipe counts the descriptors for each of its ends, and is given back when there are none.
Descriptors are copied, replaced and closed in many places, also when a call fails in the middle
(`createPipe`). The counts are right in all of them.
-/

open Function Finset

open scoped BigOperators

namespace ImagineOS.Exec

/-! ### References -/

/-- How many references there are to each end of each pipe. -/
abbrev References := End → Fin maxPipes → ℕ

/-- The kind of the descriptors for an end. -/
def End.kind : End → DescriptorKind
  | .reader => .pipeRead
  | .writer => .pipeWrite

/-- The reference of a descriptor, if it is one for a pipe. -/
def Descriptor.references (d : Descriptor) : References := fun e p =>
  if d.kind = e.kind ∧ d.pipe = p.val then 1 else 0

/-- The references of a descriptor table. -/
def DescriptorTable.references (t : DescriptorTable) : References := ∑ fd, (t fd).references

/-- The references of all tables. -/
def references (tables : Fin maxProcesses → DescriptorTable) : References :=
  ∑ i, (tables i).references

/-- Pipes that count references, and are open as long as there are any. -/
structure Balanced (pipes : Pipes) (n : References) : Prop where
  count : ∀ e p, (pipes p).count e = n e p
  isOpen : ∀ p, (pipes p).isOpen = true ↔ ∃ e, 0 < n e p

section Sums

variable {ι α M : Type*} [Fintype ι] [DecidableEq ι] [AddCommMonoid M]

theorem sum_update_add (g : α → M) (f : ι → α) (i : ι) (b : α) :
    ∑ j, g (Function.update f i b j) + g (f i) = ∑ j, g (f j) + g b := by
  have hrest : ∑ j ∈ Finset.univ.erase i, g (Function.update f i b j) =
      ∑ j ∈ Finset.univ.erase i, g (f j) := sum_congr rfl fun j hj => by
    rw [update_of_ne (ne_of_mem_erase hj)]
  rw [← add_sum_erase _ (fun j => g (Function.update f i b j)) (mem_univ i),
    ← add_sum_erase _ (fun j => g (f j)) (mem_univ i), hrest, update_self,
    add_comm (g b), add_right_comm, add_comm (g (f i))]

end Sums

section Pipes

variable {pipes pipes' : Pipes} {n m : References} {d : Descriptor} {e : End} {p : Fin maxPipes}

theorem references_update (tables : Fin maxProcesses → DescriptorTable) (i : Fin maxProcesses)
    (t : DescriptorTable) :
    references (Function.update tables i t) + (tables i).references =
      references tables + t.references :=
  sum_update_add DescriptorTable.references tables i t

theorem table_references_update (t : DescriptorTable) (fd : Fin maxOpenFds) (d : Descriptor) :
    DescriptorTable.references (Function.update t fd d) + (t fd).references =
      t.references + d.references :=
  sum_update_add Descriptor.references t fd d

theorem references_le_one (d : Descriptor) (e : End) (p : Fin maxPipes) : d.references e p ≤ 1 := by
  rw [Descriptor.references]
  split <;> simp

theorem references_eq_zero (h : ∀ e : End, d.kind ≠ e.kind) : d.references = 0 := by
  funext e p
  exact if_neg fun hd => h e hd.1

theorem references_closed : Descriptor.closed.references = 0 :=
  references_eq_zero fun e => by cases e <;> simp [Descriptor.closed, Descriptor.new, End.kind]

theorem references_set (tables : Fin maxProcesses → DescriptorTable) (i : Fin maxProcesses)
    (fd : Fin maxOpenFds) (d : Descriptor) :
    references (Function.update tables i (Function.update (tables i) fd d)) +
      (tables i fd).references = references tables + d.references := by
  have htables := references_update tables i (Function.update (tables i) fd d)
  have htable := table_references_update (tables i) fd d
  refine add_right_cancel (b := (tables i).references) ?_
  rw [add_right_comm, htables, add_assoc, htable, add_right_comm, ← add_assoc]

theorem End.kind_injective {e e' : End} (h : e.kind = e'.kind) : e = e' := by
  cases e <;> cases e' <;> simp_all [End.kind]

theorem references_end (e e' : End) (p p' : Fin maxPipes) :
    (⟨e.kind, p⟩ : Descriptor).references e' p' = if e' = e ∧ p' = p then 1 else 0 := by
  rw [Descriptor.references]
  refine if_congr ?_ rfl rfl
  constructor
  · rintro ⟨hkind, hpipe⟩
    exact ⟨(End.kind_injective hkind).symm, (Fin.ext hpipe).symm⟩
  · rintro ⟨rfl, rfl⟩
    exact ⟨rfl, rfl⟩

/-- A descriptor refers to an end of a pipe, or to none. -/
theorem descriptor_cases (d : Descriptor) :
    (∃ (e : End) (p : Fin maxPipes), d = ⟨e.kind, p⟩) ∨
    (d.references = 0 ∧ (∀ pipes, releasePipeReference d pipes = pipes) ∧
      ∀ pipes, (addReference d pipes).getD pipes = pipes) := by
  have hpipe : ∀ e : End, d.kind = e.kind → ¬ d.pipe < maxPipes → d.references = 0 ∧
      (∀ pipes, Ipc.closeEnd e d.pipe pipes = pipes) ∧
      ∀ pipes, (Ipc.addEnd e d.pipe pipes).getD pipes = pipes := fun e _ hge => by
    refine ⟨?_, fun pipes => ?_, fun pipes => ?_⟩
    · funext e' p
      exact if_neg fun h : d.kind = e'.kind ∧ d.pipe = p.val => hge (h.2 ▸ p.isLt)
    · simp [Ipc.closeEnd, Ipc.pipe, hge]
    · simp [Ipc.addEnd, Ipc.pipe, hge]
  obtain ⟨kind, id⟩ := d
  by_cases hread : kind = .pipeRead
  · subst hread
    by_cases hlt : id < maxPipes
    · exact Or.inl ⟨.reader, ⟨id, hlt⟩, rfl⟩
    · exact Or.inr (hpipe .reader rfl hlt)
  by_cases hwrite : kind = .pipeWrite
  · subst hwrite
    by_cases hlt : id < maxPipes
    · exact Or.inl ⟨.writer, ⟨id, hlt⟩, rfl⟩
    · exact Or.inr (hpipe .writer rfl hlt)
  · refine Or.inr ⟨references_eq_zero fun e => ?_, fun pipes => ?_, fun pipes => ?_⟩
    · cases e
      · exact hread
      · exact hwrite
    · cases kind <;> first | rfl | contradiction
    · cases kind <;> first | rfl | contradiction

theorem addReference_end (e : End) (p : Fin maxPipes) (pipes : Pipes) :
    addReference ⟨e.kind, p⟩ pipes = Ipc.addEnd e p pipes := by
  cases e <;> rfl

theorem releasePipeReference_end (e : End) (p : Fin maxPipes) (pipes : Pipes) :
    releasePipeReference ⟨e.kind, p⟩ pipes = Ipc.closeEnd e p pipes := by
  cases e <;> rfl

/-! ### Pipes -/

theorem pipe_eq (p : Fin maxPipes) (pipes : Pipes) :
    Ipc.pipe p pipes = if (pipes p).isOpen then some p else none := by
  simp [Ipc.pipe]

@[simp] theorem Pipe.count_setCount (q : Pipe) (k : ℕ) (e e' : End) :
    (q.setCount k e).count e' = if e' = e then k else q.count e' := by
  cases e <;> cases e' <;> rfl

@[simp] theorem Pipe.isOpen_setCount (q : Pipe) (k : ℕ) (e : End) :
    (q.setCount k e).isOpen = q.isOpen := by
  cases e <;> rfl

theorem Balanced.eq_zero (h : Balanced pipes n) (hp : (pipes p).isOpen = false) (e : End) :
    n e p = 0 := by
  by_contra hne
  have hopen := (h.isOpen p).mpr ⟨e, Nat.pos_of_ne_zero hne⟩
  exact absurd (hp.symm.trans hopen) (by simp)

theorem Balanced.update (h : Balanced pipes n) {q : Pipe} (hcount : ∀ e, q.count e = m e p)
    (hopen : q.isOpen = true ↔ ∃ e, 0 < m e p) (hrest : ∀ e p', p' ≠ p → m e p' = n e p') :
    Balanced (Function.update pipes p q) m := by
  constructor
  · intro e p'
    by_cases hp : p' = p
    · subst hp
      rw [update_self, hcount]
    · rw [update_of_ne hp, h.count, hrest e p' hp]
  · intro p'
    by_cases hp : p' = p
    · subst hp
      rw [update_self, hopen]
    · rw [update_of_ne hp, h.isOpen]
      simp only [hrest _ p' hp]

theorem Balanced.addEnd (h : Balanced pipes n) (hsome : Ipc.addEnd e p pipes = some pipes')
    (hlt : n e p < usizeMax) :
    Balanced pipes' (n + (⟨e.kind, p⟩ : Descriptor).references) := by
  rw [Ipc.addEnd, pipe_eq] at hsome
  by_cases hopen : (pipes p).isOpen = true
  swap
  · rw [if_neg hopen] at hsome
    exact absurd hsome (by simp)
  rw [if_pos hopen, Option.map_some, Option.some.injEq] at hsome
  subst hsome
  refine h.update (fun e' => ?_) ?_ fun e' p' hp => ?_
  · rw [Pipe.count_setCount, Pi.add_apply, Pi.add_apply, references_end, h.count, h.count,
      min_eq_left (Nat.succ_le_of_lt hlt)]
    by_cases he : e' = e
    · simp [he]
    · simp [he]
  · rw [Pipe.isOpen_setCount]
    exact iff_of_true hopen ⟨e, by simp [references_end]⟩
  · simp [references_end, hp]

/-- A reference less is counted, and the pipe is given back at the last one. -/
theorem Balanced.closeEnd (h : Balanced pipes n) (e : End) (p : Fin maxPipes) :
    Balanced (Ipc.closeEnd e p pipes) (n - (⟨e.kind, p⟩ : Descriptor).references) := by
  rw [Ipc.closeEnd, pipe_eq]
  by_cases hopen : (pipes p).isOpen = true
  swap
  · have hzero : n - (⟨e.kind, p⟩ : Descriptor).references = n := by
      funext e' p'
      rw [Pi.sub_apply, Pi.sub_apply, references_end]
      split
      · rename_i hp
        rw [hp.2, h.eq_zero (by simpa using hopen)]
      · rfl
    rw [if_neg hopen, hzero]
    exact h
  rw [if_pos hopen]
  dsimp only
  have hcount : ∀ e', ((pipes p).setCount ((pipes p).count e - 1) e).count e' =
      (n - (⟨e.kind, p⟩ : Descriptor).references) e' p := fun e' => by
    rw [Pipe.count_setCount, Pi.sub_apply, Pi.sub_apply, references_end, h.count, h.count]
    by_cases he : e' = e
    · simp [he]
    · simp [he]
  have hrest : ∀ e' p', p' ≠ p → (n - (⟨e.kind, p⟩ : Descriptor).references) e' p' = n e' p' :=
    fun e' p' hp => by simp [references_end, hp]
  split
  · rename_i hzero
    have hnone : ∀ e', (n - (⟨e.kind, p⟩ : Descriptor).references) e' p = 0 := fun e' => by
      rw [← hcount]
      cases e' with
      | reader => exact hzero.1
      | writer => exact hzero.2
    refine h.update (fun e' => ?_) ?_ hrest
    · rw [hnone]
      cases e' <;> rfl
    · exact iff_of_false (by simp [Pipe.empty]) fun ⟨e', he'⟩ => he'.ne' (hnone e')
  · rename_i hsome
    refine h.update hcount ?_ hrest
    rw [Pipe.isOpen_setCount]
    refine iff_of_true hopen ?_
    by_contra hnone
    have hzero : ∀ e', (n - (⟨e.kind, p⟩ : Descriptor).references) e' p = 0 := fun e' =>
      Nat.eq_zero_of_not_pos fun hpos => hnone ⟨e', hpos⟩
    exact hsome ⟨(hcount .reader).trans (hzero .reader), (hcount .writer).trans (hzero .writer)⟩

theorem Balanced.release (h : Balanced pipes (n + d.references)) :
    Balanced (releasePipeReference d pipes) n := by
  rcases descriptor_cases d with ⟨e, p, rfl⟩ | ⟨hzero, hrelease, -⟩
  · rw [releasePipeReference_end]
    have hclose := h.closeEnd e p
    have hcancel : n + (⟨e.kind, p⟩ : Descriptor).references -
        (⟨e.kind, p⟩ : Descriptor).references = n := by
      funext e' p'
      exact Nat.add_sub_cancel _ _
    rwa [hcancel] at hclose
  · rw [hrelease]
    rwa [hzero, add_zero] at h

theorem Balanced.add (h : Balanced pipes n) (hd : d.references ≤ n)
    (hlt : ∀ e p, n e p < usizeMax) :
    Balanced ((addReference d pipes).getD pipes) (n + d.references) := by
  rcases descriptor_cases d with ⟨e, p, rfl⟩ | ⟨hzero, -, hadd⟩
  · have hpos : 0 < n e p := by
      have hle := hd e p
      rwa [references_end, if_pos ⟨rfl, rfl⟩] at hle
    have hopen := (h.isOpen p).mpr ⟨e, hpos⟩
    obtain ⟨pipes', hsome⟩ : ∃ pipes', Ipc.addEnd e p pipes = some pipes' := by
      simp [Ipc.addEnd, pipe_eq, hopen]
    rw [addReference_end, hsome]
    exact h.addEnd hsome (hlt e p)
  · rw [hadd, hzero, add_zero]
    exact h

theorem Balanced.create {id : Fin maxPipes} (h : Balanced pipes n)
    (hcreate : Ipc.create pipes = some (id, pipes')) :
    Balanced pipes' (n + (⟨.pipeRead, id⟩ : Descriptor).references +
      (⟨.pipeWrite, id⟩ : Descriptor).references) ∧ ∀ e, n e id = 0 := by
  rw [Ipc.create] at hcreate
  obtain ⟨p, hfind, heq⟩ := Option.map_eq_some_iff.mp hcreate
  obtain ⟨rfl, rfl⟩ := Prod.mk.inj heq
  have hclosed : (pipes p).isOpen = false := by simpa using List.find?_some hfind
  have hzero := h.eq_zero hclosed
  have hread : ∀ e p', (⟨.pipeRead, p⟩ : Descriptor).references e p' =
    if e = .reader ∧ p' = p then 1 else 0 := fun e p' => references_end .reader e p p'
  have hwrite : ∀ e p', (⟨.pipeWrite, p⟩ : Descriptor).references e p' =
    if e = .writer ∧ p' = p then 1 else 0 := fun e p' => references_end .writer e p p'
  refine ⟨h.update (fun e => ?_) ?_ fun e p' hp => ?_, hzero⟩
  · cases e <;> simp [hzero, hread, hwrite, Pipe.count]
  · exact iff_of_true rfl ⟨.reader, by simp [hread]⟩
  · simp [hread, hwrite, hp]

end Pipes

/-! ### Descriptors -/

section Descriptors

variable {s s' : System} {d : Descriptor} {fd : Fin maxOpenFds} {n m : References}

theorem references_le (tables : Fin maxProcesses → DescriptorTable) (e : End) (p : Fin maxPipes) :
    references tables e p ≤ maxProcesses * maxOpenFds := by
  have htable : ∀ i, (tables i).references e p ≤ maxOpenFds := fun i => by
    rw [DescriptorTable.references, Finset.sum_apply, Finset.sum_apply]
    refine (Finset.sum_le_card_nsmul _ _ 1 fun fd _ => references_le_one _ e p).trans ?_
    simp
  rw [references, Finset.sum_apply, Finset.sum_apply]
  refine (Finset.sum_le_card_nsmul _ _ maxOpenFds fun i _ => htable i).trans ?_
  simp

theorem references_le_table (t : DescriptorTable) (fd : Fin maxOpenFds) :
    (t fd).references ≤ t.references := by
  intro e p
  rw [DescriptorTable.references, Finset.sum_apply, Finset.sum_apply]
  exact Finset.single_le_sum (f := fun fd => (t fd).references e p) (fun _ _ => Nat.zero_le _)
    (Finset.mem_univ fd)

theorem table_references_le (tables : Fin maxProcesses → DescriptorTable) (i : Fin maxProcesses) :
    (tables i).references ≤ references tables := by
  intro e p
  rw [references, Finset.sum_apply, Finset.sum_apply]
  exact Finset.single_le_sum (f := fun i => (tables i).references e p) (fun _ _ => Nat.zero_le _)
    (Finset.mem_univ i)

theorem references_eq_zero_of_closed (h : d.kind = .closed) : d.references = 0 :=
  references_eq_zero fun e => by
    rw [h]
    cases e <;> simp [End.kind]

theorem allocateDescriptor_some (h : allocateDescriptor d s = (some fd, s')) :
    s' = s.setDescriptor fd d s.pipes ∧ (s.tables s.current fd).kind = .closed := by
  rw [allocateDescriptor] at h
  split at h
  · exact absurd (congrArg Prod.fst h) (by simp)
  rename_i fd' t ht
  obtain ⟨hfd, hs⟩ := Prod.mk.inj h
  obtain rfl := Option.some.inj hfd
  rw [DescriptorTable.allocate] at ht
  obtain ⟨found, hfind, heq⟩ := Option.map_eq_some_iff.mp ht
  obtain ⟨rfl, rfl⟩ := Prod.mk.inj heq
  have hclosed := List.find?_some hfind
  simp only [decide_eq_true_eq] at hclosed
  exact ⟨hs.symm, hclosed.2⟩

theorem allocateDescriptor_none (h : allocateDescriptor d s = (none, s')) :
    s' = s ∧ ∀ d', (allocateDescriptor d' s).1 = none := by
  rw [allocateDescriptor] at h
  split at h
  · rename_i hnone
    refine ⟨(congrArg Prod.snd h).symm, fun d' => ?_⟩
    rw [DescriptorTable.allocate, Option.map_eq_none_iff] at hnone
    rw [allocateDescriptor, DescriptorTable.allocate, hnone]
    rfl
  · exact absurd (congrArg Prod.fst h) (by simp)

theorem references_setDescriptor (pipes : Pipes)
    (hclosed : (s.tables s.current fd).kind = .closed) :
    references (s.setDescriptor fd d pipes).tables = references s.tables + d.references := by
  have hset := references_set s.tables s.current fd d
  rwa [references_eq_zero_of_closed hclosed, add_zero] at hset

theorem allocate_balanced (h : Balanced s.pipes (references s.tables + d.references + m))
    (heq : allocateDescriptor d s = (some fd, s')) :
    Balanced s'.pipes (references s'.tables + m) := by
  obtain ⟨rfl, hclosed⟩ := allocateDescriptor_some heq
  rw [references_setDescriptor _ hclosed]
  exact h

theorem closeDescriptor_of_open (hopen : (s.tables s.current fd).kind ≠ .closed) :
    (closeDescriptor fd s).2 = s.setDescriptor fd .closed
      (releasePipeReference (s.tables s.current fd) s.pipes) := by
  have hfd : fdIndex fd = some fd := by simp [fdIndex]
  simp only [closeDescriptor, hfd, if_neg hopen]

theorem closeDescriptor_balanced (fd : ℕ) (h : Balanced s.pipes (references s.tables + m)) :
    Balanced (closeDescriptor fd s).2.pipes (references (closeDescriptor fd s).2.tables + m) := by
  rw [closeDescriptor]
  split
  · exact h
  rename_i fd _
  dsimp only
  split
  · exact h
  have hset := references_set s.tables s.current fd .closed
  rw [references_closed, add_zero] at hset
  refine Balanced.release (d := s.tables s.current fd) ?_
  have hsum : references (s.setDescriptor fd .closed (releasePipeReference (s.tables s.current fd)
      s.pipes)).tables + m + (s.tables s.current fd).references = references s.tables + m := by
    rw [add_right_comm]
    exact congrArg (· + m) hset
  rw [hsum]
  exact h

theorem allocate_balanced_self (h : Balanced s.pipes (references s.tables + d.references))
    (heq : allocateDescriptor d s = (some fd, s')) : Balanced s'.pipes (references s'.tables) := by
  rw [← add_zero (references s'.tables)]
  refine allocate_balanced ?_ heq
  rwa [add_zero]

theorem closeDescriptor_balanced_self (fd : ℕ) (h : Balanced s.pipes (references s.tables)) :
    Balanced (closeDescriptor fd s).2.pipes (references (closeDescriptor fd s).2.tables) := by
  rw [← add_zero (references (closeDescriptor fd s).2.tables)]
  refine closeDescriptor_balanced fd ?_
  rwa [add_zero]

theorem references_close_allocated (hd : d.kind ≠ .closed)
    (heq : allocateDescriptor d s = (some fd, s')) :
    references (closeDescriptor fd s').2.tables = references s.tables := by
  obtain ⟨rfl, hclosed⟩ := allocateDescriptor_some heq
  have hself : (s.setDescriptor fd d s.pipes).tables s.current fd = d := by
    simp [System.setDescriptor]
  have hopen : ((s.setDescriptor fd d s.pipes).tables (s.setDescriptor fd d s.pipes).current
      fd).kind ≠ .closed := by
    change ((s.setDescriptor fd d s.pipes).tables s.current fd).kind ≠ .closed
    rw [hself]
    exact hd
  rw [closeDescriptor_of_open hopen]
  have hset := references_set (s.setDescriptor fd d s.pipes).tables s.current fd .closed
  rw [references_closed, add_zero, references_setDescriptor _ hclosed, hself] at hset
  exact add_right_cancel hset

theorem Balanced.added {pipes pipes' : Pipes} (h : Balanced pipes n)
    (hadd : addReference d pipes = some pipes') (hd : d.references ≤ n)
    (hlt : ∀ e p, n e p < usizeMax) : Balanced pipes' (n + d.references) := by
  have hadded := h.add hd hlt
  rwa [hadd] at hadded

theorem self_references_le (s : System) (fd : Fin maxOpenFds) :
    (s.tables s.current fd).references ≤ references s.tables :=
  (references_le_table _ fd).trans (table_references_le s.tables s.current)

theorem references_lt (s : System) (e : End) (p : Fin maxPipes) :
    references s.tables e p < usizeMax :=
  (references_le s.tables e p).trans_lt (by decide)

theorem duplicateDescriptor_balanced (fd : ℕ) (h : Balanced s.pipes (references s.tables)) :
    Balanced (duplicateDescriptor fd s).2.pipes
      (references (duplicateDescriptor fd s).2.tables) := by
  rw [duplicateDescriptor]
  split
  · exact h
  rename_i fd _
  dsimp only
  split
  · exact h
  split
  · exact h
  rename_i pipes hadd
  have hadded := h.added hadd (self_references_le s fd) (references_lt s)
  split
  · rename_i heq
    exact allocate_balanced_self hadded heq
  · rename_i heq
    obtain ⟨rfl, -⟩ := allocateDescriptor_none heq
    exact hadded.release

theorem duplicateDescriptorTo_balanced (source target : ℕ)
    (h : Balanced s.pipes (references s.tables)) :
    Balanced (duplicateDescriptorTo source target s).2.pipes
      (references (duplicateDescriptorTo source target s).2.tables) := by
  rw [duplicateDescriptorTo]
  split
  · exact h
  rename_i target _
  split
  · exact h
  rename_i source _
  dsimp only
  split
  · exact h
  split
  · exact h
  split
  · exact h
  rename_i pipes hadd
  have hadded := h.added hadd (self_references_le s source) (references_lt s)
  rw [← references_set s.tables s.current target] at hadded
  exact hadded.release

theorem createPipe_balanced (copied : Bool) (h : Balanced s.pipes (references s.tables)) :
    Balanced (createPipe copied s).2.pipes (references (createPipe copied s).2.tables) := by
  rw [createPipe]
  split
  · exact h
  rename_i id pipes hcreate
  obtain ⟨hcreated, hzero⟩ := h.create hcreate
  dsimp only
  have hbalanced : Balanced pipes (references s.tables + (⟨.pipeRead, id⟩ : Descriptor).references +
    (⟨.pipeWrite, id⟩ : Descriptor).references) := hcreated
  rcases hread : allocateDescriptor ⟨.pipeRead, id⟩ { s with pipes := pipes } with ⟨readEnd, s₁⟩
  rcases hwrite : allocateDescriptor ⟨.pipeWrite, id⟩ s₁ with ⟨writeEnd, s₂⟩
  cases readEnd with
  | none =>
    obtain ⟨rfl, hfull⟩ := allocateDescriptor_none hread
    cases writeEnd with
    | none =>
      -- Nothing was allocated.
      obtain ⟨rfl, -⟩ := allocateDescriptor_none hwrite
      rw [add_right_comm] at hbalanced
      exact (Balanced.release (d := ⟨.pipeRead, id⟩) hbalanced).release (d := ⟨.pipeWrite, id⟩)
    | some writeEnd =>
      have hnone := hfull ⟨.pipeWrite, id⟩
      rw [hwrite] at hnone
      exact absurd hnone (by simp)
  | some readEnd =>
    have h₁ := allocate_balanced hbalanced hread
    cases writeEnd with
    | none =>
      -- The reading end is closed twice, but the second time there is no reference to it.
      obtain ⟨rfl, -⟩ := allocateDescriptor_none hwrite
      have h₂ := closeDescriptor_balanced readEnd h₁
      have hrefs := references_close_allocated (by simp) hread
      have h₃ := h₂.closeEnd .reader id
      have hsame : references (closeDescriptor readEnd s₂).2.tables +
            (⟨.pipeWrite, id⟩ : Descriptor).references -
          (⟨End.reader.kind, id⟩ : Descriptor).references =
          references (closeDescriptor readEnd s₂).2.tables +
            (⟨.pipeWrite, id⟩ : Descriptor).references := by
        funext e p
        rw [Pi.sub_apply, Pi.sub_apply, references_end]
        split
        · rename_i hp
          rw [Pi.add_apply, Pi.add_apply, hrefs, hp.1, hp.2, hzero,
            show (⟨.pipeWrite, id⟩ : Descriptor).references .reader id = 0 from
              references_end .writer .reader id id]
        · rfl
      rw [hsame] at h₃
      exact h₃.release (d := ⟨.pipeWrite, id⟩)
    | some writeEnd =>
      have h₂ := allocate_balanced_self h₁ hwrite
      dsimp only
      split
      · exact h₂
      · exact closeDescriptor_balanced_self writeEnd (closeDescriptor_balanced_self readEnd h₂)

theorem onDescriptors_balanced (pbkdf2 : List UInt8 → List UInt8 → ℕ → Option (List UInt8))
    {c : Call} (hc : c.onDescriptors = true) (h : Balanced s.pipes (references s.tables)) :
    Balanced (dispatch pbkdf2 c s).pipes (references (dispatch pbkdf2 c s).tables) := by
  cases c with
  | «open» =>
    rcases hallocate : allocateDescriptor (.new .file) s with ⟨fd, s'⟩
    have hfile : (Descriptor.new .file).references = 0 :=
      references_eq_zero fun e => by cases e <;> simp [Descriptor.new, End.kind]
    rw [dispatch, hallocate]
    cases fd with
    | none =>
      obtain ⟨rfl, -⟩ := allocateDescriptor_none hallocate
      exact h
    | some fd =>
      refine allocate_balanced_self ?_ hallocate
      rwa [hfile, add_zero]
  | close fd => exact closeDescriptor_balanced_self fd h
  | dup fd => exact duplicateDescriptor_balanced fd h
  | dup2 source target => exact duplicateDescriptorTo_balanced source target h
  | pipe copied => exact createPipe_balanced copied h
  | yield | exit | authenticate | kill | sigaction | sigreturn | exec | execve | spawn | fork
  | waitpid => exact absurd hc (by simp [Call.onDescriptors])

end Descriptors

/-! ### Tables -/

section Tables

variable {pipes : Pipes} {n : References} {t : DescriptorTable} {l : List (Fin maxOpenFds)}

theorem table_references_eq (t : DescriptorTable) :
    t.references = ((List.finRange maxOpenFds).map fun fd => (t fd).references).sum :=
  Fin.sum_univ_def _

theorem releaseAll_balanced (h : Balanced pipes (n + (l.map fun fd => (t fd).references).sum)) :
    Balanced (releaseAll t l pipes) n := by
  induction l generalizing pipes with
  | nil => simpa [releaseAll] using h
  | cons fd rest ih =>
    rw [List.map_cons, List.sum_cons, add_comm (t fd).references, ← add_assoc] at h
    exact ih h.release

theorem addAll_balanced (h : Balanced pipes n) (ht : ∀ fd, (t fd).references ≤ n)
    (hlt : ∀ e p, n e p + l.length < usizeMax) :
    Balanced (addAll t l pipes) (n + (l.map fun fd => (t fd).references).sum) := by
  induction l generalizing pipes n with
  | nil => simpa [addAll] using h
  | cons fd rest ih =>
    have hadded := h.add (ht fd) fun e p => (Nat.le_add_right _ _).trans_lt (hlt e p)
    rw [List.map_cons, List.sum_cons, ← add_assoc]
    refine ih hadded (fun fd' => (ht fd').trans fun e p => Nat.le_add_right _ _) fun e p => ?_
    have hone := references_le_one (t fd) e p
    have hbound := hlt e p
    rw [List.length_cons] at hbound
    rw [Pi.add_apply, Pi.add_apply]
    omega

theorem applySpawnFd_balanced {parent : DescriptorTable} (target : Fin maxOpenFds) (source : ℤ)
    {c : DescriptorTable × Pipes} (h : Balanced c.2 (n + c.1.references))
    (hparent : parent.references ≤ n) (htarget : (c.1 target).references = 0)
    (hlt : ∀ e p, n e p + c.1.references e p < usizeMax) :
    Balanced (applySpawnFd parent target source c).2
      (n + (applySpawnFd parent target source c).1.references) := by
  rw [applySpawnFd]
  split
  · exact h
  split
  · exact h
  rename_i source _
  dsimp only
  split
  · exact h
  · have hset := table_references_update c.1 target (parent source)
    rw [htarget, add_zero] at hset
    rw [hset, ← add_assoc]
    refine h.add ?_ hlt
    exact ((references_le_table parent source).trans hparent).trans fun e p => Nat.le_add_right _ _

theorem applySpawnFd_ne {parent : DescriptorTable} {target fd : Fin maxOpenFds} {source : ℤ}
    {c : DescriptorTable × Pipes} (hne : fd ≠ target) :
    (applySpawnFd parent target source c).1 fd = c.1 fd := by
  rw [applySpawnFd]
  split
  · rfl
  split
  · rfl
  dsimp only
  split
  · rfl
  · exact update_of_ne hne _ _

theorem new_references (fd : Fin maxOpenFds) : (DescriptorTable.new fd).references = 0 :=
  references_eq_zero fun e => by
    simp only [DescriptorTable.new]
    split
    · cases e <;> simp [Descriptor.new, End.kind]
    split
    · cases e <;> simp [Descriptor.new, End.kind]
    split
    · cases e <;> simp [Descriptor.new, End.kind]
    · cases e <;> simp [Descriptor.closed, Descriptor.new, End.kind]

theorem table_references_eq_zero (h : ∀ fd, (t fd).references = 0) : t.references = 0 :=
  sum_eq_zero fun fd _ => h fd

theorem table_references_bound (t : DescriptorTable) (e : End) (p : Fin maxPipes) :
    t.references e p ≤ maxOpenFds := by
  rw [DescriptorTable.references, Finset.sum_apply, Finset.sum_apply]
  refine (Finset.sum_le_card_nsmul _ _ 1 fun fd _ => references_le_one _ e p).trans ?_
  simp

theorem applySpawnIo_balanced (s : System) (io : SpawnIo)
    (h : Balanced s.pipes (references s.tables)) :
    Balanced (applySpawnIo .new io (s.tables s.current) s.pipes).2
      (references s.tables + (applySpawnIo .new io (s.tables s.current) s.pipes).1.references) := by
  have hparent := table_references_le s.tables s.current
  have hlt : ∀ (c : DescriptorTable) (e : End) (p : Fin maxPipes),
      references s.tables e p + c.references e p < usizeMax := fun c e p =>
    (Nat.add_le_add (references_le s.tables e p) (table_references_bound c e p)).trans_lt
      (by decide)
  have hnew : Balanced s.pipes (references s.tables + DescriptorTable.new.references) := by
    rwa [table_references_eq_zero new_references, add_zero]
  rw [applySpawnIo]
  have h₀ := applySpawnFd_balanced 0 io.stdinFd (c := (DescriptorTable.new, s.pipes)) hnew hparent
    (new_references 0) (hlt _)
  have h₁ := applySpawnFd_balanced 1 io.stdoutFd h₀ hparent
    (by rw [applySpawnFd_ne (by decide)]; exact new_references 1) (hlt _)
  exact applySpawnFd_balanced 2 io.stderrFd h₁ hparent
    (by rw [applySpawnFd_ne (by decide), applySpawnFd_ne (by decide)]; exact new_references 2)
    (hlt _)

end Tables

/-! ### Runs -/

/-- The pipes count the descriptors of all tables, and the tables of processes that are not there or
have ended have none. -/
structure Counted (s : System) : Prop where
  balanced : Balanced s.pipes (references s.tables)
  unused : ∀ i, (s.cores i).active = false ∨ (s.cores i).zombie = true →
    (s.tables i).references = 0

section Counted

variable {pbkdf2 : List UInt8 → List UInt8 → ℕ → Option (List UInt8)}
  {allowed : Event → System → Prop} {e : Event} {s s' : System}

theorem finish_balanced (h : Balanced s.pipes (references s.tables)) :
    Balanced s.finish.pipes (references s.finish.tables) := by
  have hupdate := references_update s.tables s.current fun _ => .closed
  have hclosed : DescriptorTable.references (fun _ => Descriptor.closed) = 0 :=
    table_references_eq_zero fun _ => references_closed
  rw [hclosed, add_zero] at hupdate
  refine releaseAll_balanced (n := references s.finish.tables) ?_
  rw [← table_references_eq]
  exact hupdate.symm ▸ h

theorem Settle.counted (h : Settle s s') (hs : Counted s) : Counted s' := by
  rcases h with h | h
  · refine ⟨?_, fun i hi => ?_⟩
    · rw [h.pipes, h.tables]
      exact hs.balanced
    · rw [h.cores] at hi
      rw [h.tables]
      exact hs.unused i hi
  · refine ⟨?_, fun i hi => ?_⟩
    · rw [h.pipes, h.tables]
      exact finish_balanced hs.balanced
    · rw [h.cores, cores_finish] at hi
      rw [h.tables]
      by_cases hcurrent : i = s.current
      · subst hcurrent
        have hself : s.finish.tables s.current = fun _ => .closed := update_self _ _ _
        rw [hself]
        exact table_references_eq_zero fun _ => references_closed
      · have hother : s.finish.tables i = s.tables i := update_of_ne hcurrent _ _
        rw [hother]
        exact hs.unused i (by simpa [hcurrent] using hi)

theorem Counted.create (hs : Counted s) {slot : Fin maxProcesses} {p : Process}
    {t : DescriptorTable} {pipes : Pipes} (hslot : s.freeSlot = some slot)
    (hactive : p.core.active = true) (hzombie : p.core.zombie = false)
    (hbalanced : Balanced pipes (references s.tables + t.references)) :
    Counted (s.create slot p t pipes) := by
  have hcores : (s.create slot p t pipes).cores = Function.update s.cores slot p.core :=
    core_update _ _ _
  refine ⟨?_, fun i hi => ?_⟩
  · have hupdate := references_update s.tables slot t
    rw [hs.unused slot (Or.inl (freeSlot_inactive hslot)), add_zero] at hupdate
    exact hupdate.symm ▸ hbalanced
  · rw [hcores] at hi
    by_cases his : i = slot
    · rw [his, update_self, hactive, hzombie] at hi
      exact absurd hi (by simp)
    · rw [update_of_ne his] at hi
      have hother : (s.create slot p t pipes).tables i = s.tables i := update_of_ne his _ _
      rw [hother]
      exact hs.unused i hi

/-- One act keeps the counts right. -/
theorem Act.counted (h : Act pbkdf2 e s s') (hsound : Sound s) (hrun : s.halted = false)
    (hs : Counted s) : Counted s' := by
  obtain ⟨hactive, hzombie, hwaiting⟩ := hsound.runs hrun
  have hself : ∀ p : Process, p.active = true → p.zombie = false → Counted (s.setSelf p) :=
    fun p hp hpz => by
      refine ⟨hs.balanced, fun i hi => ?_⟩
      rw [cores_setSelf] at hi
      by_cases hcurrent : i = s.current
      · subst hcurrent
        rw [update_self] at hi
        rcases hi with hi | hi
        · exact absurd (hp.symm.trans hi) (by simp)
        · exact absurd (hpz.symm.trans hi) (by simp)
      · rw [update_of_ne hcurrent] at hi
        exact hs.unused i hi
  cases h with
  | kept h _ => exact (Settle.counted (Or.inl h) hs)
  | opened hc h hcurrent htables =>
    refine ⟨onDescriptors_balanced pbkdf2 hc hs.balanced, fun i hi => ?_⟩
    rw [h.cores] at hi
    have hne : i ≠ s.current := fun he => by
      subst he
      rcases hi with hi | hi
      · exact absurd (hactive.symm.trans hi) (by simp)
      · exact absurd (hzombie.symm.trans hi) (by simp)
    rw [htables i hne]
    exact hs.unused i hi
  | spawned hslot hp =>
    exact hs.create hslot (congrArg Core.active hp) (congrArg Core.zombie hp)
      (applySpawnIo_balanced s _ hs.balanced)
  | forked hslot hp =>
    refine hs.create hslot (congrArg Core.active hp) (congrArg Core.zombie hp) ?_
    rw [table_references_eq]
    refine addAll_balanced hs.balanced (fun fd => self_references_le s fd) fun e p => ?_
    rw [List.length_finRange]
    exact (Nat.add_le_add_right (references_le s.tables e p) _).trans_lt (by decide)
  | replaced hp => exact hself _ (congrArg Core.active hp) (congrArg Core.zombie hp)
  | elevated => exact hself _ hactive hzombie
  | identified => exact hself _ hactive hzombie
  | @collected _ _ _ _ _ _ child slot hchild hchildZombie hslot hpid =>
    have hcores : (s.collect child slot).cores = Function.update s.cores slot Process.empty.core :=
      core_update _ _ _
    refine ⟨hs.balanced, fun i hi => ?_⟩
    rw [hcores] at hi
    by_cases his : i = slot
    · rw [his]
      refine hs.unused slot (Or.inr ?_)
      rw [hsound.slot_eq hchild hslot hpid]
      exact hchildZombie
    · rw [update_of_ne his] at hi
      exact hs.unused i hi
  | blocked _ _ _ h _ => exact Settle.counted (Or.inl h) (hself _ hactive hzombie)

theorem boot_counted : Counted .boot := by
  have htables : ∀ i, (System.boot.tables i).references = 0 := fun _ =>
    table_references_eq_zero new_references
  have hzero : references System.boot.tables = 0 := sum_eq_zero fun i _ => htables i
  refine ⟨?_, fun i _ => htables i⟩
  rw [hzero]
  exact ⟨fun e p => by cases e <;> rfl, fun p => iff_of_false (by simp [System.boot, Pipe.empty])
    fun ⟨e, he⟩ => absurd he (lt_irrefl 0)⟩

/-- The descriptors of a kind for a pipe, in the tables of the processes that have not ended. -/
def System.descriptors (s : System) (kind : DescriptorKind) (p : Fin maxPipes) :
    Finset (Fin maxProcesses × Fin maxOpenFds) :=
  Finset.univ.filter fun x => (s.processes x.1).active = true ∧ (s.processes x.1).zombie = false ∧
    s.tables x.1 x.2 = ⟨kind, p⟩

theorem Counted.references_eq (hs : Counted s) (e : End) (p : Fin maxPipes) :
    references s.tables e p = (s.descriptors e.kind p).card := by
  rw [System.descriptors, Finset.card_filter, Fintype.sum_prod_type, references, Finset.sum_apply,
    Finset.sum_apply]
  refine Finset.sum_congr rfl fun i _ => ?_
  by_cases hlive : (s.processes i).active = true ∧ (s.processes i).zombie = false
  · rw [DescriptorTable.references, Finset.sum_apply, Finset.sum_apply]
    refine Finset.sum_congr rfl fun fd _ => if_congr ?_ rfl rfl
    constructor
    · rintro ⟨hkind, hpipe⟩
      refine ⟨hlive.1, hlive.2, ?_⟩
      rw [← hkind, ← hpipe]
    · rintro ⟨-, -, heq⟩
      rw [heq]
      exact ⟨rfl, rfl⟩
  · have hunused : (s.cores i).active = false ∨ (s.cores i).zombie = true := by
      rw [not_and_or] at hlive
      simpa [System.cores, Process.core] using hlive
    rw [hs.unused i hunused]
    refine (Finset.sum_eq_zero fun fd _ => if_neg fun h => hlive ⟨h.1, h.2.1⟩).symm

theorem Run.counted (h : Run pbkdf2 allowed s) : Counted s :=
  h.invariant boot_counted (fun _ _ _ hsound hrun _ hact hs => hact.counted hsound hrun hs)
    fun _ _ h hs => h.counted hs

/-- **Pipes count their descriptors.** In every state that a run reaches, each pipe has as many
readers and writers as there are descriptors for its ends, and is open if and only if there is one.
-/
theorem pipes_counted (h : Run pbkdf2 allowed s) (p : Fin maxPipes) :
    (s.pipes p).readers = (s.descriptors .pipeRead p).card ∧
    (s.pipes p).writers = (s.descriptors .pipeWrite p).card ∧
    ((s.pipes p).isOpen = true ↔
      (s.descriptors .pipeRead p).Nonempty ∨ (s.descriptors .pipeWrite p).Nonempty) := by
  have hs := h.counted
  have hread := hs.references_eq .reader p
  have hwrite := hs.references_eq .writer p
  refine ⟨(hs.balanced.count .reader p).trans hread, (hs.balanced.count .writer p).trans hwrite, ?_⟩
  rw [hs.balanced.isOpen, ← Finset.card_pos, ← Finset.card_pos]
  constructor
  · rintro ⟨e, he⟩
    cases e with
    | reader => exact Or.inl (hread ▸ he)
    | writer => exact Or.inr (hwrite ▸ he)
  · rintro (hpos | hpos)
    · exact ⟨.reader, hread.symm ▸ hpos⟩
    · exact ⟨.writer, hwrite.symm ▸ hpos⟩

/-- A pipe that two processes have open, after one of them has closed the writing end. -/
theorem pipes_counted_sample :
    ∃ s, Run (fun _ _ _ => none) (fun _ _ => True) s ∧ (s.pipes 0).readers = 2 ∧
      (s.descriptors .pipeRead 0).card = 2 ∧ (s.descriptors .pipeWrite 0).card = 1 := by
  have hrun : Run (fun _ _ _ => none) (fun _ _ => True) (dispatchAll (fun _ _ _ => none)
      [.pipe true, .fork true, .close 4, .pipe false] .boot) :=
    Run.boot.dispatchAll (fun _ _ _ => trivial) (by decide)
  obtain ⟨hread, hwrite, -⟩ := pipes_counted hrun 0
  exact ⟨_, hrun, by decide, hread.symm.trans (by decide), hwrite.symm.trans (by decide)⟩

end Counted

end ImagineOS.Exec
