import FrodOS.Kernel.FsCalls
import FrodOS.Kernel.Userland

/-!
# The system call handler

User code learns how a call went from `eax` alone. Calls 11 to 13 leave it at the call
number when the address of their parameter block is refused, so such a call looks
like one that succeeded.
-/

namespace FrodOS
open Lib

/-- `syscall_handler_main`, with the passes that the lookup of call 21 may make. -/
def syscallHandlerMain (fuel : ℕ) (frame : ExecFrame) (k : Kernel) (regs : SyscallRegs) : Option Outcome :=
  match regs.eax with
  | 20 => some (sysExec frame k regs)
  | 21 => sysExit fuel k
  | _ => some (fsCall k regs)

/-- The pointers that user code passes: `ebx`, and those of the block it points to. -/
def pointerArgs (k : Kernel) (regs : SyscallRegs) : List U32 :=
  match regs.eax with
  | 11 => [regs.ebx, param k regs.ebx 0, param k regs.ebx 1]
  | 12 => [regs.ebx, param k regs.ebx 0, param k regs.ebx 1, param k regs.ebx 3]
  | 13 => [regs.ebx, param k regs.ebx 0]
  | _ => [regs.ebx]

/-- The call reports -1 in `eax` and does nothing else. -/
structure PointerRefused (k : Kernel) (regs : SyscallRegs) (o : Outcome) : Prop where
  control : o.control = .iret { regs with eax := -1 }
  kernel : o.kernel = k

theorem answer_refused (k : Kernel) (regs : SyscallRegs) (touched : List U32) :
    PointerRefused k regs (answer k regs (-1) touched) := ⟨rfl, rfl⟩

theorem not_refused_of_kept {k : Kernel} {regs : SyscallRegs} {o : Outcome}
    (ho : o.control = .iret regs) (hn : regs.eax ≠ -1) : ¬ PointerRefused k regs o := by
  intro h
  have he := ho.symm.trans h.control
  injection he with he
  exact hn (congrArg SyscallRegs.eax he)

theorem userPtrOk_eq_false {addr : U32} (h : addr < userBase) : userPtrOk addr = false :=
  decide_eq_false (BitVec.not_le.mpr h)

theorem userPtrOk_eq_true {addr : U32} (h : ¬ addr < userBase) : userPtrOk addr = true :=
  decide_eq_true (BitVec.not_lt.mp h)

/-! ### One lemma for each call -/

theorem sysFsCreate_refused {k : Kernel} {regs : SyscallRegs} (h : regs.ebx < userBase) :
    PointerRefused k regs (sysFsCreate k regs) := by
  simp only [sysFsCreate, userPtrOk_eq_false h, Bool.false_eq_true, if_false]
  exact answer_refused k regs []

theorem sysExec_refused (frame : ExecFrame) {k : Kernel} {regs : SyscallRegs}
    (h : regs.ebx < userBase) : PointerRefused k regs (sysExec frame k regs) := by
  simp only [sysExec, userPtrOk_eq_false h, Bool.false_eq_true, if_false]
  exact ⟨rfl, rfl⟩

theorem sysFsWrite_refused {k : Kernel} {regs : SyscallRegs} (hv : ¬ regs.ebx < userBase)
    (h : param k regs.ebx 0 < userBase ∨ param k regs.ebx 1 < userBase) :
    PointerRefused k regs (sysFsWrite k regs) := by
  have hbad : (userPtrOk (param k regs.ebx 0) && userPtrOk (param k regs.ebx 1)) = false := by
    rcases h with h | h <;> simp [userPtrOk_eq_false h]
  simp only [sysFsWrite, userPtrOk_eq_true hv, hbad, Bool.false_eq_true, if_true, if_false]
  exact answer_refused k regs _

theorem sysFsRead_refused {k : Kernel} {regs : SyscallRegs} (hv : ¬ regs.ebx < userBase)
    (h : param k regs.ebx 0 < userBase ∨ param k regs.ebx 1 < userBase ∨ param k regs.ebx 3 < userBase) :
    PointerRefused k regs (sysFsRead k regs) := by
  have hbad : (userPtrOk (param k regs.ebx 0) && userPtrOk (param k regs.ebx 1) &&
      userPtrOk (param k regs.ebx 3)) = false := by
    rcases h with h | h | h <;> simp [userPtrOk_eq_false h]
  simp only [sysFsRead, userPtrOk_eq_true hv, hbad, Bool.false_eq_true, if_true, if_false]
  exact answer_refused k regs _

theorem sysFsList_refused {k : Kernel} {regs : SyscallRegs} (hv : ¬ regs.ebx < userBase)
    (h : param k regs.ebx 0 < userBase) : PointerRefused k regs (sysFsList k regs) := by
  simp only [sysFsList, userPtrOk_eq_true hv, userPtrOk_eq_false h, Bool.false_eq_true, if_true, if_false]
  exact answer_refused k regs _

/-- The branches without an else. -/
theorem block_kept {k : Kernel} {regs : SyscallRegs} (h : regs.ebx < userBase) :
    (sysFsWrite k regs).control = .iret regs ∧ (sysFsRead k regs).control = .iret regs ∧
      (sysFsList k regs).control = .iret regs := by
  simp only [sysFsWrite, sysFsRead, sysFsList, userPtrOk_eq_false h, Bool.false_eq_true, if_false,
    and_self]

/-- A call whose pointers sit in a parameter block refuses them exactly when it gets
as far as the block. -/
theorem blockCall_refused_iff {k : Kernel} {regs : SyscallRegs} {o : Outcome} {fields : List U32}
    (hkept : regs.ebx < userBase → o.control = .iret regs) (hn : regs.eax ≠ -1)
    (hfields : ¬ regs.ebx < userBase → (∃ p ∈ fields, p < userBase) → PointerRefused k regs o)
    (hbad : ∃ p ∈ regs.ebx :: fields, p < userBase) :
    PointerRefused k regs o ↔ ¬ regs.ebx < userBase := by
  constructor
  · exact fun h hlow => not_refused_of_kept (hkept hlow) hn h
  · intro hv
    refine hfields hv ?_
    obtain ⟨p, hp, hlow⟩ := hbad
    cases List.mem_cons.mp hp with
    | inl he => exact absurd (he ▸ hlow) hv
    | inr hin => exact ⟨p, hin, hlow⟩

/-- A bad pointer is reported as -1, and nothing else happens, unless it is the address
of a parameter block. -/
theorem syscallHandlerMain_refuses_iff (fuel : ℕ) (frame : ExecFrame) (k : Kernel) (regs : SyscallRegs)
    (hcall : regs.eax ∈ [10, 11, 12, 13, 20]) (hbad : ∃ p ∈ pointerArgs k regs, p < userBase) :
    (∃ o, syscallHandlerMain fuel frame k regs = some o ∧ PointerRefused k regs o) ↔
      ¬ (regs.eax ∈ [11, 12, 13] ∧ regs.ebx < userBase) := by
  simp only [List.mem_cons, List.not_mem_nil, or_false] at hcall
  rcases hcall with h | h | h | h | h <;>
    simp only [syscallHandlerMain, pointerArgs, fsCall, h] at hbad ⊢
  · have hlow : regs.ebx < userBase := by simpa using hbad
    simp [sysFsCreate_refused hlow]
  · have hiff := blockCall_refused_iff (fun hl => (block_kept hl).1) (by rw [h]; decide)
      (fun hv hf => sysFsWrite_refused hv (by simpa using hf)) hbad
    simpa using hiff
  · have hiff := blockCall_refused_iff (fun hl => (block_kept hl).2.1) (by rw [h]; decide)
      (fun hv hf => sysFsRead_refused hv (by simpa using hf)) hbad
    simpa using hiff
  · have hiff := blockCall_refused_iff (fun hl => (block_kept hl).2.2) (by rw [h]; decide)
      (fun hv hf => sysFsList_refused hv (by simpa using hf)) hbad
    simpa using hiff
  · have hlow : regs.ebx < userBase := by simpa using hbad
    simp [sysExec_refused frame hlow]

theorem syscallHandlerMain_refuses_iff_create :
    (∃ o, syscallHandlerMain 0 demoFrame letterKernel ⟨0, 0, 0, 0, 0, 0, 0, 10⟩ = some o ∧
      PointerRefused letterKernel ⟨0, 0, 0, 0, 0, 0, 0, 10⟩ o) ↔
      ¬ ((10 : U32) ∈ [11, 12, 13] ∧ (0 : U32) < userBase) :=
  syscallHandlerMain_refuses_iff 0 demoFrame letterKernel ⟨0, 0, 0, 0, 0, 0, 0, 10⟩ (by decide)
    ⟨0, by decide, by decide⟩

theorem syscallHandlerMain_not_refuses_null_block :
    ¬ ∀ (fuel : ℕ) (frame : ExecFrame) (k : Kernel) (regs : SyscallRegs),
      regs.eax ∈ [10, 11, 12, 13, 20] → (∃ p ∈ pointerArgs k regs, p < userBase) →
      ∃ o, syscallHandlerMain fuel frame k regs = some o ∧ PointerRefused k regs o := by
  intro h
  obtain ⟨o, ho, href⟩ := h 0 demoFrame letterKernel ⟨0, 0, 0, 0, 0, 0, 0, 11⟩ (by decide)
    ⟨0, by decide, by decide⟩
  obtain rfl := Option.some.inj ho
  exact not_refused_of_kept (k := letterKernel) rfl (by decide) href

end FrodOS
