import ImagineOS.Exec.Slots
import ImagineOS.Memory.Clone

/-!
# Processes: what fork copies

A process is more than its slot: the registers that it was interrupted with, those of the FPU, an
address space, its open files, and the frame that a signal has saved. `fork` assembles the copy
field by field. It takes everything over but the registers of the FPU, which it resets, and the
saved frame, which it drops; and it gives the registers of the FPU back to the parent only if the
parent was scheduled since it began to run its program. So the copy and the parent see the same
exactly if none of this makes a difference (`duplicated_iff`).
-/

namespace ImagineOS.Exec

/-! ### Registers -/

structure TrapFrame where
  r15 : BitVec 64
  r14 : BitVec 64
  r13 : BitVec 64
  r12 : BitVec 64
  r11 : BitVec 64
  r10 : BitVec 64
  r9 : BitVec 64
  r8 : BitVec 64
  rbp : BitVec 64
  rdi : BitVec 64
  rsi : BitVec 64
  rdx : BitVec 64
  rcx : BitVec 64
  rbx : BitVec 64
  rax : BitVec 64
  rip : BitVec 64
  cs : BitVec 64
  rflags : BitVec 64
  rsp : BitVec 64
  ss : BitVec 64
  deriving DecidableEq

/-- The registers that `fxsave` saves: the control state of the x87, its registers, and those of
SSE. -/
@[ext] structure Fpu where
  fcw : BitVec 16
  fsw : BitVec 16
  ftw : BitVec 8
  fop : BitVec 16
  fip : BitVec 64
  fdp : BitVec 64
  st : Fin 8 → BitVec 80
  mxcsr : BitVec 32
  xmm : Fin 16 → BitVec 128

def Fpu.fninit (f : Fpu) : Fpu :=
  { f with fcw := 0x37f, fsw := 0, ftw := 0, fop := 0, fip := 0, fdp := 0 }

/-- The kernel has used the registers of SSE. -/
def Fpu.used (f : Fpu) (xmm : Fin 16 → BitVec 128) : Fpu := { f with xmm := xmm }

/-! ### The computer -/

/-- `FrameLocation`: frames are at the top of the kernel stack of a slot, where the CPU leaves them,
or at its bottom, where `execve` makes one. -/
inductive FrameLocation
  | topOfSlot (slot : Fin maxProcesses)
  | scratch (slot : Fin maxProcesses)
  deriving DecidableEq

/-- The rest of a `Descriptor`. -/
structure OpenFile where
  path : List UInt8
  offset : ℕ
  flags : ℕ
  input : List UInt8
  inputOffset : ℕ
  deriving DecidableEq

/-- The rest of a `Process`. -/
structure Details where
  frame : FrameLocation
  /-- The root of the address space. -/
  addressSpace : Option ℕ
  heapEnd : ℕ
  name : List UInt8
  /-- The frame that is saved, if one is. -/
  signalFrame : TrapFrame
  fpuState : Fpu

/-- Processes with everything that belongs to them. -/
structure Computer where
  sys : System
  details : Fin maxProcesses → Details
  files : Fin maxProcesses → Fin maxOpenFds → OpenFile
  /-- `KERNEL_STACKS` -/
  frames : FrameLocation → TrapFrame
  /-- The registers of the FPU. -/
  cpu : Fpu
  memory : Memory.Machine

namespace Computer

/-- The frame of a call. -/
def callFrame (x : Computer) : FrameLocation := .topOfSlot x.sys.current

/-- A call answers. -/
def answer (value : ℤ) (x : Computer) : Computer :=
  let frame := { x.frames x.callFrame with rax := BitVec.ofInt 64 value }
  { x with frames := Function.update x.frames x.callFrame frame }

def saveCurrentFpu (x : Computer) : Computer :=
  let self := { x.details x.sys.current with fpuState := x.cpu }
  { x with details := Function.update x.details x.sys.current self }

/-- `fork_current`, when the kernel has used the registers of SSE before. -/
def forkCurrent (xmm : Fin 16 → BitVec 128) (x : Computer) : Computer :=
  match x.sys.freeSlot with
  | none => x.answer (-11)
  | some slot =>
    match (x.details x.sys.current).addressSpace with
    | none => x.answer (-12)
    | some root =>
      match Memory.cloneUser root x.memory with
      | (none, memory) => { x with memory := memory }.answer (-12)
      | (some clone, memory) =>
        let parent := x.details x.sys.current
        let childFrame := { x.frames x.callFrame with rax := 0 }
        let fpu := (x.cpu.used xmm).fninit
        let child : Details :=
          { frame := .topOfSlot slot
            addressSpace := some clone
            heapEnd := parent.heapEnd
            name := parent.name
            signalFrame := x.frames x.callFrame
            fpuState := fpu }
        { sys := (Exec.forkCurrent true x.sys).2
          details := Function.update x.details slot child
          files := Function.update x.files slot (x.files x.sys.current)
          frames := Function.update x.frames (.topOfSlot slot) childFrame
          cpu := fpu
          memory := memory : Computer }.answer x.sys.nextPid

/-- `restore_fpu_for`, for the frame of the call, when the kernel has used the registers of SSE. -/
def restoreFpuFor (xmm : Fin 16 → BitVec 128) (x : Computer) : Computer :=
  let p := x.details x.sys.current
  { x with cpu := if p.frame = x.callFrame then p.fpuState else x.cpu.used xmm }

/-- `dreamcore_syscall_dispatch`, for `fork`. The signals that are pending are delivered as after
every call. -/
def fork (xmm xmm' : Fin 16 → BitVec 128) (x : Computer) : Computer :=
  restoreFpuFor xmm' (forkCurrent xmm (saveCurrentFpu x))

end Computer

/-! ### What a process sees -/

/-- A page with the bits of its entry. -/
def page (m : Memory.Machine) (root : ℕ) (path : List (Fin 512)) :
    Option (BitVec 64 × Memory.Table) :=
  match Memory.lookup m.memory root path with
  | some (.page e) => some (Memory.flags e, m.memory (Memory.address e))
  | _ => none

/-- What a process can see, its pid and the one of its parent apart. -/
structure View where
  frame : TrapFrame
  fpu : Fpu
  memory : List (Fin 512) → Option (BitVec 64 × Memory.Table)
  table : DescriptorTable
  files : Fin maxOpenFds → OpenFile
  heapEnd : ℕ
  name : List UInt8
  allowsDiskInstall : Bool
  uid : ℕ
  gid : ℕ
  isAdmin : Bool
  username : List UInt8
  signalActions : Fin 32 → ℕ
  signalRestorer : ℕ
  signalFrame : Option TrapFrame

namespace Computer

/-- What the process in a slot sees, when it goes on with a frame and with registers of the FPU. -/
def view (x : Computer) (i : Fin maxProcesses) (frame : FrameLocation) (fpu : Fpu) : View where
  frame := x.frames frame
  fpu := fpu
  memory := match (x.details i).addressSpace with
    | some root => page x.memory root
    | none => fun _ => none
  table := x.sys.tables i
  files := x.files i
  heapEnd := (x.details i).heapEnd
  name := (x.details i).name
  allowsDiskInstall := (x.sys.processes i).allowsDiskInstall
  uid := (x.sys.processes i).uid
  gid := (x.sys.processes i).gid
  isAdmin := (x.sys.processes i).isAdmin
  username := (x.sys.processes i).username
  signalActions := (x.sys.processes i).signalActions
  signalRestorer := (x.sys.processes i).signalRestorer
  signalFrame := if (x.sys.processes i).signalFrame then some (x.details i).signalFrame else none

/-- What the process that runs sees. -/
def viewSelf (x : Computer) : View := x.view x.sys.current x.callFrame x.cpu

/-- What the process in a slot sees when it is scheduled. -/
def viewAt (x : Computer) (i : Fin maxProcesses) : View :=
  x.view i (x.details i).frame (x.details i).fpuState

/-- `fork` succeeds with a copy in a slot, and every page was copied. -/
structure Forks (x : Computer) (slot : Fin maxProcesses) (root clone : ℕ) : Prop where
  freeSlot : x.sys.freeSlot = some slot
  addressSpace : (x.details x.sys.current).addressSpace = some root
  cloned : (Memory.cloneUser root x.memory).1 = some clone
  copy : Memory.CompleteCopy root clone x.memory (Memory.cloneUser root x.memory).2

/-- **The copy is a duplicate**: it sees what the parent saw, but for `rax`, and has a pid and a
parent of its own, and no pending signals; and the parent goes on as it was, but for `rax`. -/
structure Duplicated (x x' : Computer) (slot : Fin maxProcesses) : Prop where
  child : x'.viewAt slot = { x.viewSelf with frame := { x.viewSelf.frame with rax := 0 } }
  pid : (x'.sys.processes slot).pid = x.sys.nextPid
  parent : (x'.sys.processes slot).parent = x.sys.self.pid
  pending : (x'.sys.processes slot).pendingSignals = 0
  self : x'.viewSelf = { x.viewSelf with
    frame := { x.viewSelf.frame with rax := BitVec.ofNat 64 x.sys.nextPid } }
  kept : x'.sys.current = x.sys.current ∧ x'.sys.self = x.sys.self

end Computer

/-! ### The copy -/

section Fork

variable {x : Computer} {slot : Fin maxProcesses} {root clone : ℕ} {xmm xmm' : Fin 16 → BitVec 128}

theorem not_available_of_mapping {m : ℕ → Memory.Table} {a : Memory.FrameAllocator} {level : ℕ}
    {e d : BitVec 64} {path : List (Fin 512)} (h : Memory.Owned m a level e)
    (hpath : Memory.mapping m level e path = some (.page d)) :
    ¬ a.Available (Memory.address d) := by
  induction level generalizing e path with
  | zero => simp [Memory.mapping] at hpath
  | succ level ih =>
    rcases level with _ | level
    · simp only [Memory.mapping] at hpath
      split at hpath
      · rename_i hpresent
        cases hpath
        exact (h hpresent.1).2
      · cases hpath
    by_cases hpresent : Memory.present e
    · by_cases hhuge : Memory.huge e
      · rw [Memory.mapping_huge hpresent hhuge] at hpath
        cases hpath
      · rw [Memory.mapping_table hpresent hhuge] at hpath
        cases path with
        | nil => cases hpath
        | cons index path =>
          simp only [Memory.walk] at hpath
          split at hpath
          · exact ih ((h hpresent hhuge).2 index) hpath
          · cases hpath
    · rw [Memory.mapping_absent hpresent] at hpath
      cases hpath

theorem page_untouched {s s' : Memory.Machine} (hspace : Memory.AddressSpace root s)
    (h : Memory.Untouched root s s') : page s' root = page s root := by
  funext path
  rw [page, page, h.lookup]
  split
  · rename_i e he
    rw [h.memory]
    cases path with
    | nil => cases he
    | cons index path =>
      rw [Memory.lookup] at he
      split at he
      · rename_i hindex
        exact not_available_of_mapping (hspace.owned index hindex) he
      · cases he
  · rfl

theorem page_copy {s s' : Memory.Machine} (h : Memory.CompleteCopy root clone s s') :
    page s' clone = page s root := by
  funext path
  have hrel := h.copies path
  rw [page, page]
  rcases hs : Memory.lookup s.memory root path with _ | ⟨e⟩ | e <;>
    rcases hc : Memory.lookup s'.memory clone path with _ | ⟨d⟩ | d <;>
    rw [hs, hc] at hrel
  all_goals first | rfl | cases hrel
  · rename_i hcopy
    obtain ⟨hflags, -, hbytes⟩ := hcopy
    simp only [hflags, hbytes]
  all_goals rename_i hcopy; cases hcopy

/-- What `fork` makes of the tables of the kernel. -/
theorem forkCurrent_tables {s : System} (h : s.freeSlot = some slot) :
    (Exec.forkCurrent true s).2.current = s.current ∧
      (Exec.forkCurrent true s).2.tables = Function.update s.tables slot (s.tables s.current) ∧
      ∀ i, (Exec.forkCurrent true s).2.processes i =
        if i = slot then s.copied else s.processes i := by
  refine ⟨?_, ?_, ?_⟩
  · rw [Exec.forkCurrent, h]
    rfl
  · rw [Exec.forkCurrent, h]
    rfl
  · rcases forkCurrent_copied true s with ⟨hfailed, -⟩ | ⟨slot', hslot, -, -, hprocesses⟩
    · rw [Exec.forkCurrent, h] at hfailed
      exact absurd hfailed (by simp [System.nextPid])
    · obtain rfl := Option.some.inj (h.symm.trans hslot)
      exact hprocesses

/-- The process that runs is not the one that `fork` creates. -/
theorem ne_of_freeSlot {s : System} (h : s.freeSlot = some slot) (hself : s.self.active = true) :
    slot ≠ s.current := fun he => by
  have hfree := freeSlot_inactive h
  rw [he] at hfree
  exact absurd (hself.symm.trans hfree) (by simp)

namespace Computer

/-- The computer after `fork`. -/
theorem fork_eq (h : x.Forks slot root clone) (hself : x.sys.self.active = true) :
    x.fork xmm xmm' =
      { sys := (Exec.forkCurrent true x.sys).2
        details := Function.update
          (Function.update x.details x.sys.current
            { x.details x.sys.current with fpuState := x.cpu }) slot
          { x.details x.sys.current with
            frame := .topOfSlot slot
            addressSpace := some clone
            signalFrame := x.frames x.callFrame
            fpuState := (x.cpu.used xmm).fninit }
        files := Function.update x.files slot (x.files x.sys.current)
        frames := Function.update
          (Function.update x.frames (.topOfSlot slot) { x.frames x.callFrame with rax := 0 })
          x.callFrame { x.frames x.callFrame with rax := BitVec.ofNat 64 x.sys.nextPid }
        cpu := if (x.details x.sys.current).frame = x.callFrame then x.cpu
          else (x.cpu.used xmm).fninit.used xmm'
        memory := (Memory.cloneUser root x.memory).2 } := by
  have hne := ne_of_freeSlot h.freeSlot hself
  obtain ⟨hcurrent, -, -⟩ := forkCurrent_tables h.freeSlot
  have hframe : FrameLocation.topOfSlot x.sys.current ≠ .topOfSlot slot := fun he =>
    hne (FrameLocation.topOfSlot.inj he).symm
  rcases hclone : Memory.cloneUser root x.memory with ⟨_ | c, memory⟩
  · have hnone := h.cloned
    rw [hclone] at hnone
    cases hnone
  · obtain rfl : c = clone := by
      have hsome := h.cloned
      rw [hclone] at hsome
      exact Option.some.inj hsome
    simp [fork, forkCurrent, restoreFpuFor, saveCurrentFpu, answer, callFrame, h.freeSlot,
      h.addressSpace, hclone, hcurrent, hne.symm, hframe]
    exact if_congr Iff.rfl rfl rfl

/-- **What the copy sees.** -/
theorem viewAt_fork (h : x.Forks slot root clone) (hself : x.sys.self.active = true) :
    (x.fork xmm xmm').viewAt slot =
      { x.viewSelf with
        frame := { x.viewSelf.frame with rax := 0 }
        fpu := (x.cpu.used xmm).fninit
        signalFrame := none } := by
  have hne := ne_of_freeSlot h.freeSlot hself
  have hframe : FrameLocation.topOfSlot slot ≠ .topOfSlot x.sys.current := fun he =>
    hne (FrameLocation.topOfSlot.inj he)
  obtain ⟨-, htables, hprocesses⟩ := forkCurrent_tables h.freeSlot
  rw [fork_eq h hself]
  simp [viewAt, viewSelf, view, callFrame, htables, hprocesses, hframe, h.addressSpace,
    page_copy h.copy, System.copied, System.self, Process.empty]

/-- **What the parent sees afterwards.** -/
theorem viewSelf_fork (h : x.Forks slot root clone) (hself : x.sys.self.active = true)
    (hspace : Memory.AddressSpace root x.memory) :
    (x.fork xmm xmm').viewSelf =
      { x.viewSelf with
        frame := { x.viewSelf.frame with rax := BitVec.ofNat 64 x.sys.nextPid }
        fpu := if (x.details x.sys.current).frame = x.callFrame then x.cpu
          else (x.cpu.used xmm).fninit.used xmm' } := by
  have hne := ne_of_freeSlot h.freeSlot hself
  obtain ⟨hcurrent, htables, hprocesses⟩ := forkCurrent_tables h.freeSlot
  have hpages := page_untouched hspace (Memory.cloneUser_spec hspace).1
  rw [fork_eq h hself]
  simp [viewSelf, view, callFrame, hcurrent, htables, hprocesses, hne.symm, h.addressSpace, hpages]

end Computer

theorem fninit_used_eq_iff {f : Fpu} :
    (f.used xmm).fninit = f ↔ f.fninit = f ∧ xmm = f.xmm := by
  constructor
  · intro h
    have hxmm : xmm = f.xmm := congrArg Fpu.xmm h
    subst hxmm
    exact ⟨h, rfl⟩
  · rintro ⟨h, rfl⟩
    exact h

/-- **Headline.** When `fork` succeeds and every page was copied, the copy is a duplicate if and
only if no frame is saved for a signal, the registers of the FPU are those that `fork` resets them
to, and the parent gets them back: they are restored, or the kernel has left them alone. -/
theorem duplicated_iff (h : x.Forks slot root clone) (hself : x.sys.self.active = true)
    (hspace : Memory.AddressSpace root x.memory) :
    x.Duplicated (x.fork xmm xmm') slot ↔ x.sys.self.signalFrame = false ∧
      x.cpu.fninit = x.cpu ∧ xmm = x.cpu.xmm ∧
      ((x.details x.sys.current).frame = x.callFrame ∨ xmm' = x.cpu.xmm) := by
  have hchild : (x.fork xmm xmm').viewAt slot = _ := Computer.viewAt_fork h hself
  have hparent : (x.fork xmm xmm').viewSelf = _ := Computer.viewSelf_fork h hself hspace
  have hsignal : x.viewSelf.signalFrame = none ↔ x.sys.self.signalFrame = false := by
    rw [Computer.viewSelf, Computer.view, System.self]
    cases (x.sys.processes x.sys.current).signalFrame <;> simp
  constructor
  · intro hd
    have hfpu : (x.cpu.used xmm).fninit = x.cpu := congrArg View.fpu (hchild.symm.trans hd.child)
    have hnone : none = x.viewSelf.signalFrame :=
      congrArg View.signalFrame (hchild.symm.trans hd.child)
    have hback : (if (x.details x.sys.current).frame = x.callFrame then x.cpu
        else (x.cpu.used xmm).fninit.used xmm') = x.cpu :=
      congrArg View.fpu (hparent.symm.trans hd.self)
    obtain ⟨hinit, hxmm⟩ := fninit_used_eq_iff.mp hfpu
    refine ⟨hsignal.mp hnone.symm, hinit, hxmm, ?_⟩
    by_cases hat : (x.details x.sys.current).frame = x.callFrame
    · exact Or.inl hat
    · rw [if_neg hat] at hback
      exact Or.inr (congrArg Fpu.xmm hback)
  · rintro ⟨hsaved, hinit, hxmm, hback⟩
    have hfpu : (x.cpu.used xmm).fninit = x.cpu := fninit_used_eq_iff.mpr ⟨hinit, hxmm⟩
    obtain ⟨hcurrent, -, hprocesses⟩ := forkCurrent_tables h.freeSlot
    have hsys : (x.fork xmm xmm').sys = (Exec.forkCurrent true x.sys).2 := by
      rw [Computer.fork_eq h hself]
    have hcopied : (x.fork xmm xmm').sys.processes slot = x.sys.copied := by
      rw [hsys, hprocesses, if_pos rfl]
    refine ⟨?_, by rw [hcopied]; rfl, by rw [hcopied]; rfl, by rw [hcopied]; rfl, ?_, ?_⟩
    · rw [hchild, hfpu, ← hsignal.mpr hsaved]
      rfl
    · rw [hparent]
      split
      · rfl
      · rename_i hat
        rw [hfpu, hback.resolve_left hat]
        rfl
    · rw [System.self, hsys, hcurrent, hprocesses, if_neg (ne_of_freeSlot h.freeSlot hself).symm]
      exact ⟨rfl, rfl⟩

end Fork

/-! ### A process with two pages -/

/-- The registers of the FPU after `fninit`, with another control word. -/
def freshFpu (fcw : BitVec 16) : Fpu := ⟨fcw, 0, 0, 0, 0, 0, fun _ => 0, 0x1f80, fun _ => 0⟩

/-- `init`, with two pages, and six frames left. -/
def smallComputer (fcw : BitVec 16) : Computer where
  sys := .boot
  details i := ⟨.topOfSlot i, some 4096, 0x600000, [], ⟨0, 0, 0, 0, 0, 0, 0, 0, 0, 0, 0, 0, 0, 0, 0,
    0, 0, 0, 0, 0⟩, freshFpu fcw⟩
  files _ _ := ⟨[], 0, 0, [], 0⟩
  frames _ := ⟨0, 0, 0, 0, 0, 0, 0, 0, 0, 0, 0, 0, 0, 0, 57, 0x400000, 0x23, 0x202, 0x7ffff0, 0x1b⟩
  cpu := freshFpu fcw
  memory := Memory.fewFrames 6

theorem forks_smallComputer (fcw : BitVec 16) :
    ∃ clone, (smallComputer fcw).Forks 1 4096 clone := by
  have hframes : Memory.cloneFrames (Memory.fewFrames 6).memory 4096 =
      [false, false, false, true, true] := Memory.cloneFrames_twoPages
  obtain ⟨-, ⟨-, htake⟩ | ⟨clone, hsome, -, hpages⟩⟩ :=
    Memory.cloneUser_spec (Memory.addressSpace_fewFrames (n := 6) (by decide))
  · rw [hframes, Memory.remaining_fewFrames] at htake
    exact absurd htake (by decide)
  have hslot : System.boot.freeSlot = some 1 := by decide
  refine ⟨clone, hslot, rfl, hsome, (Memory.completeCopy_iff hpages).mpr ⟨?_, fun path e => ?_⟩⟩
  · rw [hframes, Memory.remaining_fewFrames]
    decide
  · cases path with
    | nil => simp [Memory.lookup]
    | cons i path =>
      rw [Memory.lookup]
      split
      · exact Memory.mapping_ne_huge Memory.not_huge_twoPages (Memory.not_huge_twoPages _ _) path e
      · simp

/-- The copy of a process that has not used the FPU is a duplicate. -/
theorem duplicated_iff_sample :
    (smallComputer 0x37f).Duplicated ((smallComputer 0x37f).fork (fun _ => 0) fun _ => 0) 1 := by
  obtain ⟨clone, h⟩ := forks_smallComputer 0x37f
  exact (duplicated_iff h rfl (Memory.addressSpace_fewFrames (by decide))).mpr
    ⟨rfl, rfl, rfl, Or.inl rfl⟩

/-- A process with another control word finds it reset in the copy, whatever else the kernel does.
-/
theorem fpu_reset :
    (∃ clone, (smallComputer 0x27f).Forks 1 4096 clone) ∧
      (smallComputer 0x27f).viewSelf.fpu.fcw = 0x27f ∧ ∀ xmm xmm',
        (((smallComputer 0x27f).fork xmm xmm').viewAt 1).fpu.fcw = 0x37f ∧
        ¬ (smallComputer 0x27f).Duplicated ((smallComputer 0x27f).fork xmm xmm') 1 := by
  refine ⟨forks_smallComputer 0x27f, rfl, fun xmm xmm' => ?_⟩
  obtain ⟨clone, h⟩ := forks_smallComputer 0x27f
  have hfcw : (((smallComputer 0x27f).fork xmm xmm').viewAt 1).fpu.fcw = 0x37f := by
    rw [Computer.viewAt_fork h rfl]
    rfl
  refine ⟨hfcw, fun hd => ?_⟩
  rw [hd.child] at hfcw
  exact absurd hfcw (by decide)

end ImagineOS.Exec
