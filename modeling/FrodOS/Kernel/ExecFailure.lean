import FrodOS.Kernel.Userland
import FrodOS.Pmm.Initialisation

/-!
# How exec fails

A file that exec does not accept is refused and nothing has happened. The frames of
one that it accepts are taken one after the other, and when they run out the kernel
stops. Then the payload goes to the entry point, which nobody checks: the kernel may be
there.
-/

namespace FrodOS
open Lib

/-- The call where the code, the objects and the stack of the kernel have the addresses `own`.
A kernel that the copy overwrites ends the call as `struck`. -/
def execOver (own : U32 → Bool) (struck : Outcome) (frame : ExecFrame) (k : Kernel) (regs : SyscallRegs) :
    Outcome :=
  let o := sysExec frame k regs
  if o.copied.any own then struck else o

/-- Exec passes control to the program, or it refuses and leaves the table, the bitmap
and the page tables as they were, whatever an overwritten kernel would do. -/
def SurvivesExec (own : U32 → Bool) (frame : ExecFrame) (k : Kernel) (regs : SyscallRegs) : Prop :=
  ∀ struck, (∃ entry, (execOver own struck frame k regs).control = .userMode entry userStack) ∨
    Refused k regs (execOver own struck frame k regs)

/-- The copy of `n` bytes reaches no byte of the kernel, or is no copy. -/
def PayloadSpares (own : U32 → Bool) (frame : ExecFrame) (h : FxeHeader) (n : ℕ) : Prop :=
  n = 0 ∨ h.entry_point = off frame.file_buf 32 ∨ ∀ j < n, own (off h.entry_point j) = false

/-! ### Where the copy goes -/

variable {own : U32 → Bool} {frame : ExecFrame} {k : Kernel} {regs : SyscallRegs} {i : Fin 32}

theorem copied_spares_iff (m : Ram) (h : FxeHeader) (n : U32) :
    (kernelMemmove m h.entry_point (off frame.file_buf 32) n).2.any own = false ↔
      PayloadSpares own frame h n.toNat := by
  have hzero : n = 0 ↔ n.toNat = 0 := (BitVec.toNat_inj (y := 0)).symm
  rw [kernelMemmove_copied, PayloadSpares, ← hzero]
  by_cases hn : h.entry_point = off frame.file_buf 32 ∨ n = 0
  · rw [if_pos hn]
    exact iff_of_true rfl (hn.elim (fun hd => Or.inr (Or.inl hd)) Or.inl)
  · obtain ⟨hd, hz⟩ := not_or.mp hn
    simp only [hd, hz, or_self, if_false, false_or, List.any_eq_false, mem_span]
    constructor
    · intro hall j hj
      exact Bool.not_eq_true _ ▸ hall _ ⟨j, hj, rfl⟩
    · rintro hall _ ⟨j, hj, rfl⟩
      rw [hall j hj]
      exact Bool.false_ne_true

theorem sysExec_spares_iff (hi : Executable k.storage k.mem regs.ebx i)
    (hle : (fxeHeader (k.storage i).dataView).frames ≤ available k.bitmap) :
    (sysExec frame k regs).copied.any own = false ↔
      PayloadSpares own frame (fxeHeader (k.storage i).dataView) ((k.storage i).size.toNat - 32) := by
  have hsize : ((k.storage i).size - 32).toNat = (k.storage i).size.toNat - 32 :=
    BitVec.toNat_sub_of_le (show (32 : U32) ≤ (k.storage i).size from hi.size)
  rw [sysExec_valid frame k regs hi]
  rcases execImage_cases frame { k with mem := execLoaded frame k i }
    (fxeHeader (k.storage i).dataView) with ⟨hshort, _⟩ | ⟨_, _, hsame, he⟩
  · change available k.bitmap < _ at hshort
    omega
  · have hmem : (mapStack { k with mem := execLoaded frame k i } (fxeHeader (k.storage i).dataView)).kernel.mem =
        execLoaded frame k i := hsame.mem
    rw [he, execJump, hmem, execLoaded_size, copied_spares_iff, hsize]

/-! ### How the call ends -/

/-- A kernel that was overwritten may stop. -/
theorem not_survivesExec_of_struck (h : (sysExec frame k regs).copied.any own = true) :
    ¬ SurvivesExec own frame k regs := by
  intro hs
  have hover : execOver own (kernelPanic k "" []) frame k regs = kernelPanic k "" [] := if_pos h
  have hend := hs (kernelPanic k "" [])
  rw [hover] at hend
  rcases hend with ⟨entry, hc⟩ | hrefused
  · cases hc
  · obtain ⟨code, _, hc⟩ := hrefused.code
    cases hc

theorem not_survivesExec_of_short (hi : Executable k.storage k.mem regs.ebx i)
    (hshort : available k.bitmap < (fxeHeader (k.storage i).dataView).frames) :
    ¬ SurvivesExec own frame k regs := by
  by_cases hany : (sysExec frame k regs).copied.any own = true
  · exact not_survivesExec_of_struck hany
  · intro hs
    have hend := hs (sysExec frame k regs)
    rw [execOver, ite_self] at hend
    rcases sysExec_cases frame k regs hi with ⟨_, msg, _, hpanic⟩ | ⟨_, hspent⟩
    · rcases hend with ⟨entry, hc⟩ | hrefused
      · rw [hpanic] at hc
        cases hc
      · obtain ⟨code, _, hc⟩ := hrefused.code
        rw [hpanic] at hc
        cases hc
    · have hav := hspent.available
      omega

/-- The kernel survives the call exactly when the file, if it is one that exec accepts, asks
for no more pages than there are frames, and its payload reaches no byte of the kernel. -/
theorem sysExec_survives_iff (own : U32 → Bool) (frame : ExecFrame) (k : Kernel) (regs : SyscallRegs) :
    SurvivesExec own frame k regs ↔ ∀ i, Executable k.storage k.mem regs.ebx i →
      let h := fxeHeader (k.storage i).dataView
      h.frames ≤ available k.bitmap ∧ PayloadSpares own frame h ((k.storage i).size.toNat - 32) := by
  constructor
  · intro hs i hi
    have hle : (fxeHeader (k.storage i).dataView).frames ≤ available k.bitmap := by
      by_contra hshort
      exact not_survivesExec_of_short hi (Nat.lt_of_not_le hshort) hs
    refine ⟨hle, (sysExec_spares_iff hi hle).mp ?_⟩
    by_contra hany
    exact not_survivesExec_of_struck (Bool.not_eq_false _ ▸ hany) hs
  · intro h struck
    by_cases hex : ∃ i, Executable k.storage k.mem regs.ebx i
    · obtain ⟨i, hi⟩ := hex
      obtain ⟨hle, hspares⟩ := h i hi
      have hover : execOver own struck frame k regs = sysExec frame k regs :=
        if_neg (Bool.eq_false_iff.mp ((sysExec_spares_iff hi hle).mpr hspares))
      rw [hover]
      exact Or.inl ((sysExec_userMode_iff frame k regs userStack).mpr ⟨rfl, i, hi, hle⟩)
    · have hrefused := sysExec_invalid frame k regs fun i hi => hex ⟨i, hi⟩
      have hover : execOver own struck frame k regs = sysExec frame k regs := by
        rw [execOver, hrefused.copied]
        rfl
      rw [hover]
      exact Or.inr hrefused

theorem sysExec_not_survives_full : ¬ ∀ (own : U32 → Bool) (frame : ExecFrame) (k : Kernel)
    (regs : SyscallRegs), SurvivesExec own frame k regs := by
  intro h
  let k : Kernel := { kernelA oneByteProgram (by decide) with bitmap := fun _ => 0xFFFFFFFF }
  have hi : Executable k.storage k.mem execA.ebx 0 := oneByteProgram_executable
  have hfull : freePages k.bitmap = ∅ := by
    ext q
    simp only [mem_freePages, Finset.notMem_empty, iff_false, not_and]
    intro hq hfree
    rw [show k.bitmap = fun _ => 0xFFFFFFFF from rfl, bit_locked q hq] at hfree
    cases hfree
  have hnone : available k.bitmap = 0 := by
    simp only [available, hfull, Finset.card_empty, ite_self]
  have hframes : (fxeHeader (k.storage 0).dataView).frames = 2 := by decide
  exact not_survivesExec_of_short hi (by omega) (h (fun _ => false) demoFrame k execA)

end FrodOS
