import FrodOS.Kernel.DiskCalls
import FrodOS.Kernel.Loading
import FrodOS.Lib.Run
import FrodOS.System.Machine

/-!
# Files over a run of the machine

A machine runs beside the list of files that its calls should leave. Whatever programs,
interrupts, launches and faults come between them, as long as they spare the kernel's memory
the calls answer as the list says, and what was stored under a name stays there until
something else is stored under it.
-/

namespace FrodOS
open Lib

structure Filed where
  machine : Machine
  disk : Disk

namespace Filed

/-- Only the file calls of user mode go to the list. -/
def diskStep (s : Filed) : MachineEvent → Disk
  | .int80 _ regs =>
    match s.machine.mode with
    | .user =>
      if Machine.isFileCall regs.eax then (s.disk.call s.machine.kernel regs).disk else s.disk
    | _ => s.disk
  | _ => s.disk

def step (km : KernelMemory) (s : Filed) (e : MachineEvent) : Filed × Response :=
  let r := s.machine.step km e
  (⟨r.1, s.diskStep e⟩, r.2)

def Mirrored (s : Filed) : Prop := Mirrors s.machine.kernel.storage s.disk

/-- A file call answers as the list says, and exec refuses as it says or does not come back. -/
def Answered (km : KernelMemory) (s : Filed) : MachineEvent → Prop
  | .int80 frame regs =>
    let r := s.machine.step km (.int80 frame regs)
    let a := s.disk.call s.machine.kernel regs
    s.machine.mode = .user →
      (regs.eax ∈ [10, 11, 12, 13] → r.1.kernel.mem = a.mem ∧
        r.2.control = some (.iret { regs with eax := BitVec.ofInt 32 a.code })) ∧
      (regs.eax = 20 →
        match s.disk.execCode s.machine.kernel regs.ebx with
        | some code => r.2.control = some (.iret { regs with eax := BitVec.ofInt 32 code })
        | none => ∀ regs', r.2.control ≠ some (.iret regs'))
  | _ => True

/-! ### One step -/

variable {km : KernelMemory} {s : Filed} {frame : ExecFrame} {regs : SyscallRegs}

theorem outcome_file (hmode : s.machine.mode = .user) (hcall : regs.eax ∈ [10, 11, 12, 13]) :
    s.machine.outcome (.int80 frame regs) = some (fsCall s.machine.kernel regs) := by
  simp only [List.mem_cons, List.not_mem_nil, or_false] at hcall
  unfold Machine.outcome
  dsimp only
  rw [hmode]
  unfold FrodOS.syscallHandlerMain
  rcases hcall with he | he | he | he
  all_goals
    rw [he]
    rfl

theorem outcome_exec (hmode : s.machine.mode = .user) (hcall : regs.eax = 20) :
    s.machine.outcome (.int80 frame regs) = some (sysExec frame s.machine.kernel regs) := by
  unfold Machine.outcome
  dsimp only
  rw [hmode]
  unfold FrodOS.syscallHandlerMain
  rw [hcall]
  rfl

theorem step_answered (h : s.Mirrored) {e : MachineEvent} (hs : s.machine.strays km.own e = false) :
    s.Answered km e := by
  cases e with
  | int80 frame regs =>
    intro hmode
    refine ⟨fun hcall => ?_, fun hcall => ?_⟩
    · have ha := fsCall_agrees h hcall
      rw [Machine.step_of_spared hs, Machine.handle_of_outcome (outcome_file hmode hcall)]
      refine ⟨?_, congrArg some ha.control⟩
      exact congrArg Kernel.mem ha.kernel
    · rw [Machine.step_of_spared hs, Machine.handle_of_outcome (outcome_exec hmode hcall)]
      cases hc : s.disk.execCode s.machine.kernel regs.ebx with
      | some code => exact congrArg some (sysExec_refuses frame h hc).control
      | none =>
        obtain ⟨i, hi⟩ := (execCode_none_iff h regs.ebx).mp hc
        intro regs' he
        exact sysExec_control hi frame regs' (Option.some.inj he)
  | run mem => trivial
  | stray => trivial
  | irq0 => trivial
  | irq1 sc => trivial
  | gpf err eip cs => trivial

theorem diskStep_file (hmode : s.machine.mode = .user) (hcall : regs.eax ∈ [10, 11, 12, 13]) :
    s.diskStep (.int80 frame regs) = (s.disk.call s.machine.kernel regs).disk := by
  simp only [diskStep, hmode, Machine.isFileCall_iff.mpr hcall, if_true]

theorem diskStep_other {e : MachineEvent}
    (h : ∀ frame regs, e = .int80 frame regs → s.machine.mode = .user → regs.eax ∉ [10, 11, 12, 13]) :
    s.diskStep e = s.disk := by
  cases e with
  | int80 frame regs =>
    unfold diskStep
    dsimp only
    split
    · rename_i hmode
      exact if_neg fun hc => h frame regs rfl hmode (Machine.isFileCall_iff.mp hc)
    · rfl
  | run mem => rfl
  | stray => rfl
  | irq0 => rfl
  | irq1 sc => rfl
  | gpf err eip cs => rfl

theorem step_mirrored (h : s.Mirrored) {e : MachineEvent} (hs : s.machine.strays km.own e = false) :
    (s.step km e).1.Mirrored := by
  unfold Mirrored step
  dsimp only
  rw [Machine.step_of_spared hs]
  cases ho : s.machine.outcome e with
  | some o =>
    rw [Machine.handle_of_outcome ho]
    change Mirrors o.kernel.storage _
    obtain ⟨frame, regs, rfl, hmode, hkind⟩ := Machine.outcome_cases ho
    rcases hkind with ⟨hcall, rfl⟩ | ⟨he, rfl⟩ | ⟨he, hexit⟩
    · rw [diskStep_file hmode hcall]
      exact (fsCall_agrees h hcall).mirrors
    · rw [diskStep_other fun _ _ heq _ => by cases heq; rw [he]; decide, (sysExec_loads _ _ _).storage]
      exact h
    · rw [diskStep_other fun _ _ heq _ => by cases heq; rw [he]; decide, (sysExit_loads hexit).storage]
      exact h
  | none =>
    obtain ⟨mem, hk, -⟩ := (Machine.handle_of_no_outcome ho).kernel
    have hother : s.diskStep e = s.disk := by
      refine diskStep_other fun frame regs he hmode hcall => ?_
      subst he
      rw [outcome_file hmode hcall] at ho
      cases ho
    rw [hk, hother]
    exact h

theorem run_mirrored (h : s.Mirrored) {es : List MachineEvent} (hs : s.machine.Spared km es) :
    (final (step km) s es).Mirrored := by
  induction es generalizing s with
  | nil => exact h
  | cons e es ih => exact ih (step_mirrored h hs.1) hs.2

theorem run_answered (h : s.Mirrored) {es : List MachineEvent} (hs : s.machine.Spared km es) :
    Along (step km) (fun s e => s.Mirrored ∧ s.Answered km e) s es := by
  induction es generalizing s with
  | nil => trivial
  | cons e es ih => exact ⟨⟨h, step_answered h hs.1⟩, ih (step_mirrored h hs.1) hs.2⟩

theorem run_machine (s : Filed) (es : List MachineEvent) :
    (final (step km) s es).machine = final (Machine.step km) s.machine es := by
  induction es generalizing s with
  | nil => rfl
  | cons e es ih => exact ih _

/-- In any run that spares the kernel's memory the machine does with files what the list says:
each step starts with the list behind the slots and is answered from it. -/
theorem files_refine (km : KernelMemory) (s : Filed) (h : s.Mirrored) (es : List MachineEvent)
    (hs : s.machine.Spared km es) :
    Along (step km) (fun s e => s.Mirrored ∧ s.Answered km e) s es ∧ (final (step km) s es).Mirrored :=
  ⟨run_answered h hs, run_mirrored h hs⟩

/-! ### What was stored -/

/-- A write under the name `n`. -/
def Writes (n : List Byte) (s : Filed) : MachineEvent → Prop
  | .int80 _ regs =>
    regs.eax = 11 ∧ nameArg (view s.machine.kernel.mem (param s.machine.kernel regs.ebx 0)) = n
  | _ => False

theorem call_keeps {d : Disk} {k : Kernel} {n bytes : List Byte} (h : lookup n d.files = some bytes)
    (hcall : regs.eax ∈ [10, 11, 12, 13])
    (hquiet : ¬ (regs.eax = 11 ∧ nameArg (view k.mem (param k regs.ebx 0)) = n)) :
    lookup n (d.call k regs).disk.files = some bytes := by
  simp only [List.mem_cons, List.not_mem_nil, or_false] at hcall
  unfold Disk.call
  rcases hcall with he | he | he | he
  all_goals rw [he] at hquiet ⊢
  · change lookup n (d.createCall k regs.ebx).disk.files = some bytes
    simp only [Disk.createCall, Disk.create]
    split_ifs
    · exact h
    · exact h
    · -- the new file comes last
      change lookup n (d.files ++ [_]) = some bytes
      rw [lookup_concat, h, Option.some_or]
    · exact h
    · exact h
  · change lookup n (d.writeCall k regs.ebx).disk.files = some bytes
    simp only [Disk.writeCall, Disk.write]
    split_ifs
    · change lookup n (assign _ _ d.files) = some bytes
      rw [lookup_assign_of_ne fun hn => hquiet ⟨rfl, hn.symm⟩, h]
    · exact h
    · exact h
    · exact h
    · exact h
  · change lookup n (d.readCall k regs.ebx).disk.files = some bytes
    simp only [Disk.readCall]
    split_ifs <;> exact h
  · change lookup n (d.listCall k regs.ebx).disk.files = some bytes
    simp only [Disk.listCall]
    split_ifs <;> exact h

theorem step_keeps {n bytes : List Byte} (h : lookup n s.disk.files = some bytes) {e : MachineEvent}
    (hquiet : ¬ s.Writes n e) : lookup n (s.step km e).1.disk.files = some bytes := by
  change lookup n (s.diskStep e).files = some bytes
  cases e with
  | int80 frame regs =>
    by_cases hcall : s.machine.mode = .user ∧ regs.eax ∈ [10, 11, 12, 13]
    · rw [diskStep_file hcall.1 hcall.2]
      exact call_keeps h hcall.2 hquiet
    · rw [diskStep_other fun _ _ heq hmode hin => hcall ⟨hmode, by cases heq; exact hin⟩]
      exact h
  | run mem => exact h
  | stray => exact h
  | irq0 => exact h
  | irq1 sc => exact h
  | gpf err eip cs => exact h

theorem run_keeps {n bytes : List Byte} (h : lookup n s.disk.files = some bytes) (es : List MachineEvent)
    (hquiet : Along (step km) (fun s e => ¬ s.Writes n e) s es) :
    lookup n (final (step km) s es).disk.files = some bytes := by
  induction es generalizing s with
  | nil => exact h
  | cons e es ih => exact ih (step_keeps h hquiet.1) hquiet.2

/-- A write that reports success has stored its bytes. -/
theorem write_stores (h : s.Mirrored) (hmode : s.machine.mode = .user) (hcall : regs.eax = 11)
    (hs : s.machine.strays km.own (.int80 frame regs) = false)
    (hok : (s.step km (.int80 frame regs)).2.control = some (.iret { regs with eax := 0 })) :
    lookup (nameArg (view s.machine.kernel.mem (param s.machine.kernel regs.ebx 0)))
      (s.step km (.int80 frame regs)).1.disk.files =
        some (bytesAt s.machine.kernel.mem (param s.machine.kernel regs.ebx 1) (param s.machine.kernel regs.ebx 2)) := by
  have hin : regs.eax ∈ [10, 11, 12, 13] := by
    rw [hcall]
    decide
  obtain ⟨-, hcontrol⟩ := (step_answered h hs hmode).1 hin
  change (s.machine.step km (.int80 frame regs)).2.control = _ at hok
  rw [hcontrol] at hok
  have hcode : BitVec.ofInt 32 (s.disk.call s.machine.kernel regs).code = 0 :=
    congrArg SyscallRegs.eax (Control.iret.inj (Option.some.inj hok))
  change lookup _ (s.diskStep (.int80 frame regs)).files = _
  rw [diskStep_file hmode hin]
  have hwrite : s.disk.call s.machine.kernel regs = s.disk.writeCall s.machine.kernel regs.ebx := by
    unfold Disk.call
    rw [hcall]
    rfl
  rw [hwrite] at hcode ⊢
  simp only [Disk.writeCall, Disk.write] at hcode ⊢
  split_ifs at hcode ⊢ with hv hp hsize hname
  · exact lookup_assign_self hname
  all_goals
    dsimp only at hcode
    exact absurd hcode (by decide)

/-- An accepted call that reads the file `n`. -/
structure Reads (n : List Byte) (s : Filed) (regs : SyscallRegs) : Prop where
  mode : s.machine.mode = .user
  call : regs.eax = 12
  block : userPtrOk regs.ebx = true
  pointers : ∀ i ∈ [0, 1, 3], userPtrOk (param s.machine.kernel regs.ebx i) = true
  name : nameArg (view s.machine.kernel.mem (param s.machine.kernel regs.ebx 0)) = n

theorem read_delivers {n bytes : List Byte} (h : s.Mirrored) (hr : s.Reads n regs)
    (hfile : lookup n s.disk.files = some bytes) {frame : ExecFrame}
    (hs : s.machine.strays km.own (.int80 frame regs) = false) :
    (s.step km (.int80 frame regs)).2.control = some (.iret { regs with eax := 0 }) ∧
      (s.step km (.int80 frame regs)).1.machine.kernel.mem =
        deliver s.machine.kernel.mem (param s.machine.kernel regs.ebx 1) (param s.machine.kernel regs.ebx 3)
          (some (bytes.take (param s.machine.kernel regs.ebx 2).toNat)) := by
  have hin : regs.eax ∈ [10, 11, 12, 13] := by
    rw [hr.call]
    decide
  obtain ⟨hmem, hcontrol⟩ := (step_answered h hs hr.mode).1 hin
  have hread : s.disk.call s.machine.kernel regs = s.disk.readCall s.machine.kernel regs.ebx := by
    unfold Disk.call
    rw [hr.call]
    rfl
  have hptr := hr.pointers
  simp only [List.mem_cons, List.not_mem_nil, or_false, forall_eq_or_imp, forall_eq] at hptr
  rw [hread] at hmem hcontrol
  simp only [Disk.readCall, hr.block, hptr, Bool.and_self, if_true, hr.name, Disk.read, hfile] at hmem hcontrol
  exact ⟨hcontrol, hmem⟩

/-- What a write stored is what a read finds, whatever comes between the two but a write
under the same name, in a run that spares the kernel's memory. -/
theorem read_after_write (km : KernelMemory) (s : Filed) (h : s.Mirrored) (hmode : s.machine.mode = .user)
    (wframe : ExecFrame) (w : SyscallRegs) (hw : w.eax = 11)
    (hok : (s.step km (.int80 wframe w)).2.control = some (.iret { w with eax := 0 })) (es : List MachineEvent)
    (hquiet : Along (step km)
      (fun t e => ¬ t.Writes (nameArg (view s.machine.kernel.mem (param s.machine.kernel w.ebx 0))) e)
      (s.step km (.int80 wframe w)).1 es) (rframe : ExecFrame) (r : SyscallRegs)
    (hr : (final (step km) (s.step km (.int80 wframe w)).1 es).Reads
      (nameArg (view s.machine.kernel.mem (param s.machine.kernel w.ebx 0))) r)
    (hs : s.machine.Spared km (.int80 wframe w :: (es ++ [.int80 rframe r]))) :
    let stored := bytesAt s.machine.kernel.mem (param s.machine.kernel w.ebx 1) (param s.machine.kernel w.ebx 2)
    let t := final (step km) (s.step km (.int80 wframe w)).1 es
    (t.step km (.int80 rframe r)).2.control = some (.iret { r with eax := 0 }) ∧
      (t.step km (.int80 rframe r)).1.machine.kernel.mem =
        deliver t.machine.kernel.mem (param t.machine.kernel r.ebx 1) (param t.machine.kernel r.ebx 3)
          (some (stored.take (param t.machine.kernel r.ebx 2).toNat)) := by
  intro stored t
  obtain ⟨hwrite, hrest⟩ := hs
  obtain ⟨hbetween, hread, -⟩ := (along_append _ _ _ _ _).mp hrest
  have hmachine : (final (step km) (s.step km (.int80 wframe w)).1 es).machine =
      final (Machine.step km) (s.machine.step km (.int80 wframe w)).1 es := run_machine _ es
  have hstored := run_keeps (write_stores h hmode hw hwrite hok) es hquiet
  have hmirrored := run_mirrored (step_mirrored h hwrite) hbetween
  exact read_delivers hmirrored hr hstored (hmachine ▸ hread)

/-! ### A program and a file -/

def diskAB : Disk := ⟨[([97], oneByteProgram), ([98], [])], by decide, by decide, by decide⟩

def filedA : Filed := ⟨machineA, diskAB⟩

theorem filedA_mirrored : filedA.Mirrored := by
  intro i
  by_cases h0 : i = 0
  · subst h0
    rfl
  · by_cases h1 : i = 1
    · subst h1
      rfl
    · have hlen : diskAB.files[i.val]? = none := by
        refine List.getElem?_eq_none (Nat.lt_of_not_le fun hle => ?_)
        rcases Nat.le_one_iff_eq_zero_or_eq_one.mp hle with hv | hv
        · exact h0 (Fin.ext hv)
        · exact h1 (Fin.ext hv)
      change (Function.update (kernelA oneByteProgram oneByteProgram_storable).storage 1 fileB i).contents = diskAB.files[i.val]?
      rw [hlen, Function.update_of_ne h1]
      change (Function.update bootStorage 0 (fileA oneByteProgram oneByteProgram_storable) i).contents = none
      rw [Function.update_of_ne h0]
      rfl

def blockA (num : U32) : SyscallRegs := ⟨0, 0, 0, 0, 0x400000, 0, 0, num⟩

/-- The program is launched. -/
theorem files_refine_launch :
    Along (step lowKernel) (fun s e => s.Mirrored ∧ s.Answered lowKernel e) filedA
      [.irq0, .int80 demoFrame execA, .irq1 0x1E] := by
  refine (files_refine lowKernel filedA filedA_mirrored _ ?_).1
  unfold Machine.Spared
  exact ⟨rfl, by decide +kernel, rfl, trivial⟩

theorem filedA_spared :
    machineA.Spared lowKernel [.int80 demoFrame (blockA 11), .irq0, .int80 demoFrame (blockA 12)] := by
  unfold Machine.Spared
  exact ⟨by decide +kernel, rfl, by decide +kernel, trivial⟩

theorem filedA_writes : (filedA.step lowKernel (.int80 demoFrame (blockA 11))).2.control =
    some (.iret { blockA 11 with eax := 0 }) := by
  obtain ⟨-, hcontrol⟩ := (step_answered filedA_mirrored filedA_spared.1 rfl).1 (by decide)
  have hcode : (filedA.disk.call filedA.machine.kernel (blockA 11)).code = 0 := by decide +kernel
  rw [hcode] at hcontrol
  exact hcontrol

theorem filedA_reads :
    (final (step lowKernel) (filedA.step lowKernel (.int80 demoFrame (blockA 11))).1 [.irq0]).Reads [98] (blockA 12) where
  mode := by rw [run_machine]; decide +kernel
  call := rfl
  block := by decide
  pointers := by rw [run_machine]; decide +kernel
  name := by rw [run_machine]; decide +kernel

theorem read_after_write_once :
    let t := final (step lowKernel) (filedA.step lowKernel (.int80 demoFrame (blockA 11))).1 [.irq0]
    (t.step lowKernel (.int80 demoFrame (blockA 12))).2.control = some (.iret { blockA 12 with eax := 0 }) := by
  have hname : nameArg (view filedA.machine.kernel.mem (param filedA.machine.kernel (blockA 11).ebx 0)) = [98] := by
    decide +kernel
  have hreads := filedA_reads
  rw [← hname] at hreads
  exact (read_after_write lowKernel filedA filedA_mirrored rfl demoFrame (blockA 11) rfl filedA_writes [.irq0]
    ⟨fun h => h, trivial⟩ demoFrame (blockA 12) hreads filedA_spared).1

end Filed

end FrodOS
