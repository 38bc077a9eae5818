import FrodOS.Kernel.Exec

/-!
# What a launched program finds mapped

`UserPage` is the two-level walk of `kernel_page_directory`. A program is fully
mapped when the walk finds frames of its own for its image and its stack and it
starts on that stack. Exec cannot give it that: the stack pointer it starts with
is a constant of user_jump.s outside the stack range.
-/

namespace FrodOS
open Lib

def userFlags : U32 := pagePresent ||| pageWrite ||| pageUser

/-- The walk from `v` ends at `frame`, present, writable and open to user mode on both levels. -/
def UserPage (k : Kernel) (v frame : U32) : Prop :=
  let pde := k.directory (dirIndex v)
  let pte := k.tables (pde &&& ~~~0xFFF) (tableIndex v)
  pde &&& userFlags = userFlags ∧ pte &&& userFlags = userFlags ∧ pte &&& ~~~0xFFF = frame

def ByteMapped (o : Outcome) (a : ℕ) (frame : U32) : Prop :=
  a < 2 ^ 32 ∧ frame ∈ o.mapped.map Prod.snd ∧ UserPage o.kernel (BitVec.ofNat 32 a) frame

/-- The bytes a program of this header and payload length has to find mapped. -/
def ProgramBytes (h : FxeHeader) (payload : ℕ) : Set ℕ :=
  {a | h.entry_point.toNat ≤ a ∧ a < h.entry_point.toNat +
      max (h.text_size.toNat + h.data_size.toNat + h.bss_size.toNat) payload} ∪
    {a | stackVirtualBase.toNat ≤ a ∧ a < stackVirtualBase.toNat + h.stack_size.toNat}

structure FullyMapped (o : Outcome) (h : FxeHeader) (payload : ℕ) (esp : U32) : Prop where
  bytes : ∀ a ∈ ProgramBytes h payload, ∃ frame, ByteMapped o a frame
  distinct : ∀ a ∈ ProgramBytes h payload, ∀ b ∈ ProgramBytes h payload, a / 4096 ≠ b / 4096 →
    ∀ f g, ByteMapped o a f → ByteMapped o b g → f ≠ g
  stack : stackVirtualBase.toNat ≤ esp.toNat ∧
    esp.toNat ≤ stackVirtualBase.toNat + h.stack_size.toNat

/-! ### The stack pointer -/

theorem not_fullyMapped (o : Outcome) (h : FxeHeader) (payload : ℕ) :
    ¬ FullyMapped o h payload userStack := by
  intro hm
  have hlow : stackVirtualBase.toNat ≤ userStack.toNat := hm.stack.1
  exact absurd hlow (by decide)

/-- Every exec that transfers control gives the program a full mapping exactly when it
does not transfer control: it never does. -/
theorem sysExec_mapped_iff (frame : ExecFrame) (k : Kernel) (regs : SyscallRegs) :
    (∀ entry esp, (sysExec frame k regs).control = .userMode entry esp →
      ∀ i, Executable k.storage k.mem regs.ebx i →
        FullyMapped (sysExec frame k regs) (fxeHeader (k.storage i).dataView)
          ((k.storage i).size.toNat - 32) esp) ↔
      ¬ ∃ i, Executable k.storage k.mem regs.ebx i ∧
        (fxeHeader (k.storage i).dataView).frames ≤ available k.bitmap := by
  constructor
  · rintro h ⟨i, hi, hle⟩
    obtain ⟨entry, hc⟩ := (sysExec_userMode_iff frame k regs userStack).mpr ⟨rfl, i, hi, hle⟩
    exact not_fullyMapped _ _ _ (h entry userStack hc i hi)
  · intro hnot entry esp hc
    exact absurd ((sysExec_userMode_iff frame k regs esp).mp ⟨entry, hc⟩).2 hnot

theorem sysExec_not_mapped_one_byte :
    ¬ ∀ (frame : ExecFrame) (k : Kernel) (regs : SyscallRegs) (entry esp : U32),
      (sysExec frame k regs).control = .userMode entry esp →
        ∀ i, Executable k.storage k.mem regs.ebx i →
          FullyMapped (sysExec frame k regs) (fxeHeader (k.storage i).dataView)
            ((k.storage i).size.toNat - 32) esp := by
  intro h
  let k := kernelA oneByteProgram (by decide)
  have hframes : (fxeHeader (k.storage 0).dataView).frames = 2 := by decide
  have havail : 2 ≤ available k.bitmap := le_available (by decide) {256, 257} (by decide)
  obtain ⟨entry, hc⟩ := (sysExec_userMode_iff demoFrame k execA userStack).mpr
    ⟨rfl, 0, oneByteProgram_executable, by omega⟩
  exact not_fullyMapped _ _ _ (h demoFrame k execA entry userStack hc 0 oneByteProgram_executable)

end FrodOS
