import FrodOS.Drivers.Screen
import FrodOS.Drivers.Sound
import FrodOS.Drivers.Timer
import FrodOS.Kernel.DiskCalls
import FrodOS.Kernel.Fault
import FrodOS.Kernel.Syscalls
import FrodOS.Drivers.Keyboard
import FrodOS.Lib.Run

/-!
# The machine (kernel.c, idt.c, user_jump.s)

The kernel and its drivers after boot, seen from the four gates of the IDT. All are
interrupt gates, so a handler ends before the next event; only call 2 waits with
interrupts on. Between two events a program runs in user mode. Nothing keeps it off the
kernel's own memory and the ports, nor does anything keep a call off that memory, above all
the copy of exec. `handle` is what happens while they keep off, `step` what happens.
-/

namespace FrodOS
open Lib

inductive Mode where
  | user
  /-- In the `sti; hlt` of call 2, with the registers that go back to its caller. -/
  | idle (regs : SyscallRegs)
  /-- `halt_forever` -/
  | halted
  /-- Over a string or an archive that has no end. -/
  | looping

instance : (mode : Mode) → Decidable (mode = .user)
  | .user => isTrue rfl
  | .idle _ => isFalse nofun
  | .halted => isFalse nofun
  | .looping => isFalse nofun

/-- Whether the processor takes hardware interrupts. -/
def Mode.enabled : Mode → Bool
  | .user => true
  | .idle _ => true
  | .halted => false
  | .looping => false

structure Machine where
  kernel : Kernel
  screen : Console
  keyboard : Keyboard
  ports : Ports
  system_ticks : U32
  mode : Mode

inductive MachineEvent where
  /-- A program changes memory other than the kernel's. -/
  | run (mem : Ram)
  /-- A program writes to the kernel's memory or uses a port. -/
  | stray
  | irq0
  | irq1 (sc : Byte)
  | int80 (frame : ExecFrame) (regs : SyscallRegs)
  | gpf (err eip cs : U32)

/-- Where control goes after an event, what the keyboard driver did, and the pages given
to `map_page`. -/
structure Response where
  control : Option Control
  key : Option KeyObs
  mapped : List (U32 × U32)

namespace Response

def quiet : Response := ⟨none, none, []⟩

def iret (regs : SyscallRegs) : Response := ⟨some (.iret regs), none, []⟩

end Response

namespace Machine

/-- The kernel as a handler leaves it, its texts on the screen. -/
def flush (m : Machine) (k : Kernel) : Machine :=
  { m with
    kernel := { k with console := [] }
    screen := k.console.foldl (fun c text => c.kprint (ascii text)) m.screen }

def settle (m : Machine) (o : Outcome) : Machine × Response :=
  let mode := match o.control with
    | .panic _ => .halted
    | _ => m.mode
  ({ m.flush o.kernel with mode := mode }, ⟨some o.control, none, o.mapped⟩)

/-- The bytes that `kprint` finds at `p`. -/
def textAt (mem : Ram) (p : U32) : Option (List Byte) :=
  let text := leading (view mem p) (2 ^ 32)
  if text.length < 2 ^ 32 then some text else none

/-- Passes enough for any archive that ends below the last block of memory. -/
def lookupFuel : ℕ := 2 ^ 23

/-- `syscall_handler_main` -/
def syscallHandlerMain (m : Machine) (frame : ExecFrame) (regs : SyscallRegs) : Machine × Response :=
  let val := regs.ebx
  match regs.eax with
  | 1 =>
    if userPtrOk val then
      match textAt m.kernel.mem val with
      | some text => ({ m with screen := m.screen.kprint text }, .iret regs)
      | none => ({ m with mode := .looping }, .quiet)
    else (m, .iret regs)
  | 2 => ({ m with mode := .idle regs }, .quiet)
  | 3 =>
    let r := m.keyboard.getChar
    ({ m with keyboard := r.1 }, ⟨some (.iret { regs with eax := r.2.setWidth 32 }), some (.returned r.2), []⟩)
  | 4 => ({ m with screen := m.screen.kclear }, .iret regs)
  | 7 => (if 0 < val then { m with ports := m.ports.playSound val } else m, .iret regs)
  | 8 => ({ m with ports := m.ports.nosound }, .iret regs)
  | num =>
    if num ∈ [10, 11, 12, 13, 20, 21] then
      match FrodOS.syscallHandlerMain lookupFuel frame m.kernel regs with
      | some o => m.settle o
      | none => ({ m with mode := .looping }, .quiet)
    else
      ({ m with screen := m.screen.kprint (ascii "\nWarning: invalid syscall requested by user mode.\n") },
        .iret regs)

/-- A hardware interrupt ends the wait of call 2. -/
def wake (m : Machine) : Machine × Option Control :=
  match m.mode with
  | .idle regs => ({ m with mode := .user }, some (.iret regs))
  | _ => (m, none)

/-- An event that keeps off the kernel's memory. -/
def handle (m : Machine) : MachineEvent → Machine × Response
  | .run mem =>
    match m.mode with
    | .user => ({ m with kernel := { m.kernel with mem := mem } }, .quiet)
    | _ => (m, .quiet)
  | .stray => (m, .quiet)
  | .irq0 =>
    if m.mode.enabled then
      let w := m.wake
      ({ w.1 with system_ticks := timerCallback w.1.system_ticks }, ⟨w.2, none, []⟩)
    else (m, .quiet)
  | .irq1 sc =>
    if m.mode.enabled then
      let w := m.wake
      let r := w.1.keyboard.handlerMain sc
      ({ w.1 with keyboard := r.1 }, ⟨w.2, r.2, []⟩)
    else (m, .quiet)
  | .int80 frame regs =>
    match m.mode with
    | .user => m.syscallHandlerMain frame regs
    | _ => (m, .quiet)
  | .gpf err eip cs =>
    match m.mode with
    | .user => ({ m with screen := gpfHandlerMain m.screen err eip cs, mode := .halted }, .quiet)
    | _ => (m, .quiet)

/-! ### What an event can do -/

/-- Create, write, read and list. -/
def isFileCall (num : U32) : Bool := decide (num ∈ [10, 11, 12, 13])

theorem isFileCall_iff {num : U32} : isFileCall num = true ↔ num ∈ [10, 11, 12, 13] := decide_eq_true_iff

/-- The outcome of an event that the file system or the program loader serves. -/
def outcome (m : Machine) : MachineEvent → Option Outcome
  | .int80 frame regs =>
    match m.mode with
    | .user =>
      if regs.eax ∈ [10, 11, 12, 13, 20, 21] then
        FrodOS.syscallHandlerMain lookupFuel frame m.kernel regs
      else none
    | _ => none
  | _ => none

theorem outcome_cases {m : Machine} {e : MachineEvent} {o : Outcome} (h : m.outcome e = some o) :
    ∃ frame regs, e = .int80 frame regs ∧ m.mode = .user ∧
      ((regs.eax ∈ [10, 11, 12, 13] ∧ o = fsCall m.kernel regs) ∨
        (regs.eax = 20 ∧ o = sysExec frame m.kernel regs) ∨
        (regs.eax = 21 ∧ sysExit lookupFuel m.kernel = some o)) := by
  cases e with
  | int80 frame regs =>
    unfold outcome at h
    dsimp only at h
    split at h
    · rename_i hmode
      refine ⟨frame, regs, rfl, hmode, ?_⟩
      split_ifs at h with hcall
      unfold FrodOS.syscallHandlerMain at h
      simp only [List.mem_cons, List.not_mem_nil, or_false] at hcall ⊢
      rcases hcall with he | he | he | he | he | he
      all_goals rw [he] at h
      · exact Or.inl ⟨Or.inl he, (Option.some.inj h).symm⟩
      · exact Or.inl ⟨Or.inr (Or.inl he), (Option.some.inj h).symm⟩
      · exact Or.inl ⟨Or.inr (Or.inr (Or.inl he)), (Option.some.inj h).symm⟩
      · exact Or.inl ⟨Or.inr (Or.inr (Or.inr he)), (Option.some.inj h).symm⟩
      · exact Or.inr (Or.inl ⟨he, (Option.some.inj h).symm⟩)
      · exact Or.inr (Or.inr ⟨he, h⟩)
    · cases h
  | run mem => cases h
  | stray => cases h
  | irq0 => cases h
  | irq1 sc => cases h
  | gpf err eip cs => cases h

theorem wake_kernel (m : Machine) : m.wake.1.kernel = m.kernel := by
  unfold wake
  split <;> rfl

theorem wake_keyboard (m : Machine) : m.wake.1.keyboard = m.keyboard := by
  unfold wake
  split <;> rfl

theorem wake_screen (m : Machine) : m.wake.1.screen = m.screen := by
  unfold wake
  split <;> rfl

theorem wake_ports (m : Machine) : m.wake.1.ports = m.ports := by
  unfold wake
  split <;> rfl

theorem wake_ticks (m : Machine) : m.wake.1.system_ticks = m.system_ticks := by
  unfold wake
  split <;> rfl

theorem handle_of_outcome {m : Machine} {e : MachineEvent} {o : Outcome} (h : m.outcome e = some o) :
    m.handle e = m.settle o := by
  unfold outcome at h
  split at h
  · split at h
    · rename_i frame regs hmode
      split_ifs at h with hcall
      simp only [handle, hmode]
      simp only [List.mem_cons, List.not_mem_nil, or_false] at hcall
      unfold syscallHandlerMain
      rcases hcall with he | he | he | he | he | he
      all_goals
        rw [he]
        simp [h]
    · cases h
  · cases h

/-- The rest leaves the kernel alone, but for the memory that a program changes. -/
structure Leaves (m : Machine) (e : MachineEvent) (r : Machine × Response) : Prop where
  kernel : ∃ mem, r.1.kernel = { m.kernel with mem := mem } ∧ ((∀ mem', e ≠ .run mem') → mem = m.kernel.mem)
  mapped : r.2.mapped = []

theorem leaves_of_kernel {m : Machine} {e : MachineEvent} {r : Machine × Response}
    (hk : r.1.kernel = m.kernel) (hm : r.2.mapped = []) : Leaves m e r :=
  ⟨⟨m.kernel.mem, hk, fun _ => rfl⟩, hm⟩

theorem handle_of_no_outcome {m : Machine} {e : MachineEvent} (h : m.outcome e = none) :
    Leaves m e (m.handle e) := by
  cases e with
  | run mem =>
    unfold handle
    dsimp only
    split
    · exact ⟨⟨mem, rfl, fun hne => absurd rfl (hne mem)⟩, rfl⟩
    · exact leaves_of_kernel rfl rfl
  | stray => exact leaves_of_kernel rfl rfl
  | irq0 =>
    unfold handle
    dsimp only
    split_ifs
    · exact leaves_of_kernel m.wake_kernel rfl
    · exact leaves_of_kernel rfl rfl
  | irq1 sc =>
    unfold handle
    dsimp only
    split_ifs
    · exact leaves_of_kernel m.wake_kernel rfl
    · exact leaves_of_kernel rfl rfl
  | int80 frame regs =>
    unfold handle
    dsimp only
    split
    · rename_i hmode
      simp only [outcome, hmode] at h
      unfold syscallHandlerMain
      dsimp only
      split
      · split_ifs
        · split
          · exact leaves_of_kernel rfl rfl
          · exact leaves_of_kernel rfl rfl
        · exact leaves_of_kernel rfl rfl
      · exact leaves_of_kernel rfl rfl
      · exact leaves_of_kernel rfl rfl
      · exact leaves_of_kernel rfl rfl
      · split_ifs
        · exact leaves_of_kernel rfl rfl
        · exact leaves_of_kernel rfl rfl
      · exact leaves_of_kernel rfl rfl
      · split_ifs with hcall
        · rw [if_pos hcall] at h
          rw [h]
          exact leaves_of_kernel rfl rfl
        · exact leaves_of_kernel rfl rfl
    · exact leaves_of_kernel rfl rfl
  | gpf err eip cs =>
    unfold handle
    dsimp only
    split
    · exact leaves_of_kernel rfl rfl
    · exact leaves_of_kernel rfl rfl

end Machine

/-! ### The kernel's memory -/

/-- The addresses of the kernel's code, objects and stack, and what a machine comes to in which
they have been overwritten or a program has used the ports. -/
structure KernelMemory where
  own : U32 → Bool
  overwritten : Machine → MachineEvent → Machine × Response

namespace Machine

/-- What calls 1 and 20 read of the string that is their argument. -/
def stringRead (m : Machine) : MachineEvent → List U32
  | .int80 frame regs =>
    if m.mode = .user ∧ userPtrOk regs.ebx then
      if regs.eax = 1 then
        span regs.ebx ((leading (view m.kernel.mem regs.ebx) (2 ^ 32)).length + 1)
      else if regs.eax = 20 then
        span regs.ebx (findName m.kernel.storage (view (execClear frame m.kernel.mem) regs.ebx) slots).2
      else []
    else []
  | _ => []

/-- Whether the event uses the kernel's memory as if it were a program's, or the ports. Strings
and the pointers of a file call may run past the top of memory, and exec copies to any entry
point. -/
def strays (own : U32 → Bool) (m : Machine) : MachineEvent → Bool
  | .stray => true
  | e =>
    let reached := match m.outcome e with
      | some o => o.touched ++ o.copied
      | none => []
    (m.stringRead e ++ reached).any own

def step (km : KernelMemory) (m : Machine) (e : MachineEvent) : Machine × Response :=
  if m.strays km.own e then km.overwritten m e else m.handle e

/-- No event of the run strays. -/
def Spared (km : KernelMemory) (m : Machine) (es : List MachineEvent) : Prop :=
  Along (step km) (fun m e => m.strays km.own e = false) m es

theorem step_of_spared {km : KernelMemory} {m : Machine} {e : MachineEvent} (h : m.strays km.own e = false) :
    m.step km e = m.handle e := if_neg (Bool.eq_false_iff.mp h)

end Machine

/-! ### A machine in user mode -/

/-- The empty file "b". -/
def fileB : FrodfsEntry := { fileA [] noBytes with name := fun i => if i = 0 then 98 else 0, name_nul := ⟨1, rfl⟩ }

/-- With a program of one byte in "a", the file "b", and at 0x400000 a block to write or read
one byte of "b". -/
def machineA : Machine where
  kernel :=
    { kernelA oneByteProgram oneByteProgram_storable with
      storage := Function.update (kernelA oneByteProgram oneByteProgram_storable).storage 1 fileB
      mem := fun a => ([2, 0, 0x30, 0, 0, 0, 0x50, 0, 1, 0, 0, 0, 0, 0, 0x60, 0] : List Byte).getD
        (a - 0x400000).toNat (if a = 0x300000 then 97 else if a = 0x300002 then 98 else 0) }
  screen := ⟨fun _ => 0, 0, 0x0F, []⟩
  keyboard := ⟨fun _ => 0, 0, 0, false, false, false⟩
  ports := ⟨fun _ => ⟨3, 3, none, 0⟩, 0⟩
  system_ticks := 0
  mode := .user

/-- The stack below 0x90000, the screen and the image of the kernel lie under `USER_BASE`. -/
def lowKernel : KernelMemory where
  own a := decide (0x80000 ≤ a ∧ a < userBase)
  overwritten m _ := ({ m with mode := .halted }, .quiet)

end FrodOS
